import PimLibrary.Crfgen.Validation

/-! The verdict of the validator.

    Two flags and a count are combined bitwise, so the verdict is the parity of the count: a vector that
    passes the first two checks is accepted when the scan counts an odd number of hazards, and a vector
    without hazards is refused. -/

namespace PimLibrary.Crfgen
open PimLibrary.Program PimLibrary.Program.PimCommand

/-- The command's sources have a row in the pair table, or it is not looked up there. -/
def PairReadable (c : PimCommand) : Prop :=
  change_cmd_type c.type_ = .ETC ∨ change_opd_type c.src0_ ≠ .ETC ∧ change_opd_type c.src1_ ≠ .ETC

def Passes (c : PimCommand) : Prop := check_validate_pair c = some 1

instance (c : PimCommand) : Decidable (Passes c) := inferInstanceAs (Decidable (_ = _))

/-- Every command up to the first refused one can be looked up. -/
def Readable : List PimCommand → Prop
  | [] => True
  | c :: cmds => PairReadable c ∧ (Passes c → Readable cmds)

/-- A JUMP's target, as the source computes it, is not behind the end. -/
def TargetRead (cmds : List PimCommand) (i : ℕ) : Prop :=
  (cmdAt cmds i).type_ = .JUMP → target_idx i (cmdAt cmds i).loop_offset_ < cmds.length

/-- No JUMP goes behind the end of the vector. -/
def TargetsInside (cmds : List PimCommand) : Prop := ∀ i < cmds.length, TargetRead cmds i

/-- A vector is accepted, and its words emitted, exactly when it passes all three checks. -/
def VerdictRight (cmds : List PimCommand) : Prop :=
  ∃ ret, validation_check cmds = some ret ∧
    ConvertToBinary cmds = some (ret, if ret ≠ 0 then some (cmds.map to_int) else none) ∧
    (ret ≠ 0 ↔ (∀ c ∈ cmds, Passes c) ∧ check_isa_restriction cmds = some 1 ∧ check_hazard cmds = 0)

/-! ### Source pairs -/

theorem src_pair_isSome (src0 src1 : PimOpdPairType) {t : PimCmdPairType} (ht : t ≠ .ETC) :
    (src_pair src0 src1 t).isSome ↔ src0 ≠ .ETC ∧ src1 ≠ .ETC := by
  revert ht
  cases src0 <;> cases src1 <;> cases t <;> decide

/-- Clearing a flag leaves a flag. -/
theorem clear_le {p : Prop} [Decidable p] {flag : ℕ} (h : flag ≤ 1) : (if p then 0 else flag) ≤ 1 := by
  split_ifs <;> omega

/-- A readable pair gives a flag, and only such a pair. -/
theorem check_validate_pair_cases (c : PimCommand) :
    PairReadable c ∧ (∃ flag ≤ 1, check_validate_pair c = some flag) ∨
      ¬ PairReadable c ∧ check_validate_pair c = none := by
  by_cases hetc : change_cmd_type c.type_ = .ETC
  · left
    refine ⟨Or.inl hetc, 1, le_refl 1, ?_⟩
    simp [check_validate_pair, hetc]
  · have hsome := src_pair_isSome (change_opd_type c.src0_) (change_opd_type c.src1_) hetc
    cases hpair : src_pair (change_opd_type c.src0_) (change_opd_type c.src1_)
      (change_cmd_type c.type_) with
    | none =>
      right
      rw [hpair] at hsome
      refine ⟨?_, by simp [check_validate_pair, hetc, hpair]⟩
      rintro (h | h)
      · exact hetc h
      · exact absurd (hsome.mpr h) (by decide)
    | some entry =>
      left
      rw [hpair] at hsome
      refine ⟨Or.inr (hsome.mp rfl), _, ?_, by simp only [check_validate_pair, hetc, if_false, hpair]; rfl⟩
      exact clear_le (clear_le (clear_le (clear_le (clear_le (clear_le (clear_le (le_refl 1)))))))

theorem check_cmd_validation_loop_spec (cmds : List PimCommand) :
    Readable cmds ∧ (∃ flag ≤ 1, check_cmd_validation_loop 1 cmds = some flag ∧
      (flag = 1 ↔ ∀ c ∈ cmds, Passes c)) ∨
      ¬ Readable cmds ∧ check_cmd_validation_loop 1 cmds = none := by
  induction cmds with
  | nil => exact Or.inl ⟨trivial, 1, le_refl 1, rfl, by simp⟩
  | cons c cmds ih =>
    rcases check_validate_pair_cases c with ⟨hread, flag, hle, hflag⟩ | ⟨hread, hnone⟩
    · rcases Nat.le_one_iff_eq_zero_or_eq_one.mp hle with rfl | rfl
      · left
        have hfails : ¬ Passes c := by simp [Passes, hflag]
        refine ⟨⟨hread, fun h => absurd h hfails⟩, 0, Nat.zero_le 1, ?_, ?_⟩
        · simp [check_cmd_validation_loop, hflag]
        · simp [hfails]
      · have hpasses : Passes c := hflag
        have hloop : check_cmd_validation_loop 1 (c :: cmds) = check_cmd_validation_loop 1 cmds := by
          simp [check_cmd_validation_loop, hflag]
        rcases ih with ⟨hrest, flag, hle, hflag, hall⟩ | ⟨hrest, hnone⟩
        · left
          refine ⟨⟨hread, fun _ => hrest⟩, flag, hle, hloop.trans hflag, ?_⟩
          rw [hall, List.forall_mem_cons, and_iff_right hpasses]
        · exact Or.inr ⟨fun h => hrest (h.2 hpasses), hloop.trans hnone⟩
    · right
      exact ⟨fun h => hread h.1, by simp [check_cmd_validation_loop, hnone]⟩

/-! ### Restrictions -/

/-- A rule on a JUMP gives a flag unless it reads its target behind the end. -/
theorem restrict_jump_cases (cmds : List PimCommand) (i : ℕ) {is_valid : ℕ} (hle : is_valid ≤ 1) :
    TargetRead cmds i ∧ (∃ flag ≤ 1, restrict_jump cmds i is_valid = some flag) ∨
      ¬ TargetRead cmds i ∧ restrict_jump cmds i is_valid = none := by
  by_cases hjump : (cmdAt cmds i).type_ = .JUMP
  · by_cases hneg : target_idx i (cmdAt cmds i).loop_offset_ < 0
    · left
      refine ⟨fun _ => by omega, 0, Nat.zero_le 1, ?_⟩
      simp [restrict_jump, hjump, hneg]
    · cases htarget : cmds[(target_idx i (cmdAt cmds i).loop_offset_).toNat]? with
      | none =>
        right
        have hlen := List.getElem?_eq_none_iff.mp htarget
        refine ⟨fun h => ?_, by simp [restrict_jump, hjump, hneg, htarget]⟩
        have hlt := h hjump
        omega
      | some target =>
        left
        have hlen := (List.getElem?_eq_some_iff.mp htarget).1
        refine ⟨fun _ => by omega, _, ?_, by
          simp only [restrict_jump, hjump, hneg, if_true, if_false, htarget]; rfl⟩
        exact clear_le (clear_le (clear_le hle))
  · left
    refine ⟨fun h => absurd h hjump, is_valid, hle, by simp [restrict_jump, hjump]⟩

theorem restrict_nop_le (cmds : List PimCommand) (i : ℕ) {is_valid : ℕ} (hle : is_valid ≤ 1) :
    restrict_nop cmds i is_valid ≤ 1 := by
  by_cases hnop : (cmdAt cmds i).type_ = .NOP
  · simp only [restrict_nop, hnop, if_true]
    exact clear_le (clear_le hle)
  · simpa only [restrict_nop, hnop, if_false] using hle

theorem check_isa_restriction_loop_spec (cmds : List PimCommand) (idx : List ℕ) :
    ∀ is_valid ≤ 1,
    (∀ i ∈ idx, TargetRead cmds i) ∧
        (∃ flag ≤ 1, check_isa_restriction_loop cmds idx is_valid = some flag) ∨
      ¬ (∀ i ∈ idx, TargetRead cmds i) ∧ check_isa_restriction_loop cmds idx is_valid = none := by
  induction idx with
  | nil => exact fun is_valid hle => Or.inl ⟨by simp, is_valid, hle, rfl⟩
  | cons i idx ih =>
    intro is_valid hle
    have hcons : (∀ k ∈ i :: idx, TargetRead cmds k) ↔ TargetRead cmds i ∧ ∀ k ∈ idx, TargetRead cmds k :=
      List.forall_mem_cons
    rcases restrict_jump_cases cmds i hle with ⟨hin, flag, hflag, hjump⟩ | ⟨hout, hjump⟩
    · rcases ih _ (restrict_nop_le cmds i hflag) with ⟨hrest, hloop⟩ | ⟨hrest, hloop⟩
      · left
        refine ⟨hcons.mpr ⟨hin, hrest⟩, ?_⟩
        simpa [check_isa_restriction_loop, hjump] using hloop
      · right
        refine ⟨fun h => hrest (hcons.mp h).2, ?_⟩
        simpa [check_isa_restriction_loop, hjump] using hloop
    · right
      exact ⟨fun h => hout (hcons.mp h).1, by simp [check_isa_restriction_loop, hjump]⟩

theorem check_isa_restriction_spec (cmds : List PimCommand) :
    (cmds ≠ [] ∧ TargetsInside cmds) ∧ (∃ flag ≤ 1, check_isa_restriction cmds = some flag) ∨
      ¬ (cmds ≠ [] ∧ TargetsInside cmds) ∧ check_isa_restriction cmds = none := by
  cases cmds with
  | nil => exact Or.inr ⟨by simp, rfl⟩
  | cons first rest =>
    have hrange : TargetsInside (first :: rest) ↔ ∀ i ∈ List.range (first :: rest).length,
        TargetRead (first :: rest) i := by
      simp only [TargetsInside, List.mem_range]
    rw [hrange, and_iff_right (List.cons_ne_nil first rest)]
    exact check_isa_restriction_loop_spec (first :: rest) (List.range (first :: rest).length) _
      (clear_le (le_refl 1))

/-! ### The verdict -/

/-- Two flags and a count give the parity of the count. -/
theorem flags_and_count {flag flag' : ℕ} (hle : flag ≤ 1) (hle' : flag' ≤ 1) (count : ℕ) :
    flag &&& flag' &&& count ≠ 0 ↔ flag = 1 ∧ flag' = 1 ∧ count % 2 = 1 := by
  rcases Nat.le_one_iff_eq_zero_or_eq_one.mp hle with rfl | rfl <;>
    rcases Nat.le_one_iff_eq_zero_or_eq_one.mp hle' with rfl | rfl <;>
    simp [Nat.one_and_eq_mod_two]

/-- Which vectors the validator judges rightly: those it can read and that fail one of the first two
    checks or have a positive even number of hazards. -/
theorem verdict_right_iff (cmds : List PimCommand) :
    VerdictRight cmds ↔ cmds ≠ [] ∧ Readable cmds ∧ TargetsInside cmds ∧
      ((∀ c ∈ cmds, Passes c) → check_isa_restriction cmds = some 1 →
        check_hazard cmds ≠ 0 ∧ check_hazard cmds % 2 = 0) := by
  rcases check_cmd_validation_loop_spec cmds with ⟨hread, flag, hle, hflag, hall⟩ | ⟨hread, hnone⟩
  · rcases check_isa_restriction_spec cmds with ⟨⟨hne, hinside⟩, flag', hle', hflag'⟩ | ⟨hout, hnone'⟩
    · have hret : validation_check cmds = some (flag &&& flag' &&& check_hazard cmds) := by
        simp [validation_check, check_cmd_validation, hflag, hflag']
      have hverdict := flags_and_count hle hle' (check_hazard cmds)
      rw [hall] at hverdict
      have hisa : flag' = 1 ↔ check_isa_restriction cmds = some 1 := by simp [hflag']
      rw [hisa] at hverdict
      constructor
      · rintro ⟨ret, hcheck, -, hiff⟩
        obtain rfl := Option.some.inj (hret.symm.trans hcheck)
        rw [hverdict] at hiff
        refine ⟨hne, hread, hinside, fun hpass hisa =>
          ⟨fun hzero => ?_, Nat.mod_two_ne_one.mp fun hodd => ?_⟩⟩
        · obtain ⟨-, -, hodd⟩ := hiff.mpr ⟨hpass, hisa, hzero⟩
          omega
        · obtain ⟨-, -, hzero⟩ := hiff.mp ⟨hpass, hisa, hodd⟩
          omega
      · rintro ⟨-, -, -, hcount⟩
        refine ⟨_, hret, by simp [ConvertToBinary, hret], hverdict.trans ?_⟩
        refine and_congr_right fun hpass => and_congr_right fun hisa => ?_
        have := hcount hpass hisa
        omega
    · constructor
      · rintro ⟨ret, hcheck, -⟩
        simp [validation_check, check_cmd_validation, hflag, hnone'] at hcheck
      · rintro ⟨hne, -, hinside, -⟩
        exact absurd ⟨hne, hinside⟩ hout
  · constructor
    · rintro ⟨ret, hcheck, -⟩
      simp [validation_check, check_cmd_validation, hnone] at hcheck
    · rintro ⟨-, hread', -⟩
      exact absurd hread' hread

/-- A single FILL has no hazard and is refused. -/
theorem hazard_free_refused : ¬ ∀ cmds, VerdictRight cmds := by
  intro hall
  obtain ⟨ret, hret, -, hiff⟩ := hall [move .FILL .GRF_A .EVEN_BANK, ctrl .EXIT 0]
  obtain rfl : 0 = ret := Option.some.inj hret
  exact hiff.mpr ⟨by decide, by decide, by decide⟩ rfl

end PimLibrary.Crfgen
