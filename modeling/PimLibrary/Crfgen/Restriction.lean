import PimLibrary.Crfgen.Verdict

/-! The rules on JUMP and NOP.

    One pass checks every command against its neighbour and its JUMP target. The rule against two
    multicycle NOPs in a row takes the counter of the second one from `cmds[1]`, so it sees another
    command unless the pair starts the vector. -/

namespace PimLibrary.Crfgen
open Schemes.Word PimLibrary.Program PimLibrary.Program.PimCommand

def Multicycle (c : PimCommand) : Prop := c.type_ = .NOP ∧ 0 < c.loop_counter_

instance (c : PimCommand) : Decidable (Multicycle c) := inferInstanceAs (Decidable (_ ∧ _))

/-- Every JUMP goes to itself or back, and not before the first command. -/
def JumpsBack (cmds : List PimCommand) : Prop :=
  ∀ i < cmds.length, (cmdAt cmds i).type_ = .JUMP →
    0 ≤ target_idx i (cmdAt cmds i).loop_offset_ ∧ target_idx i (cmdAt cmds i).loop_offset_ ≤ i

instance (cmds : List PimCommand) : Decidable (JumpsBack cmds) :=
  inferInstanceAs (Decidable (∀ i < _, _ → _))

/-- Where the JUMP at `i` goes. -/
def jumpedTo (cmds : List PimCommand) (i : ℕ) : PimCommand :=
  cmdAt cmds (target_idx i (cmdAt cmds i).loop_offset_).toNat

/-- The rules but the one on two NOPs. -/
structure IsaRules (cmds : List PimCommand) : Prop where
  first : (cmdAt cmds 0).type_ ≠ .NOP
  counter : ∀ i < cmds.length, (cmdAt cmds i).type_ = .JUMP → (cmdAt cmds i).loop_counter_ ≠ 0
  target : ∀ i < cmds.length, (cmdAt cmds i).type_ = .JUMP →
    (jumpedTo cmds i).type_ ≠ .JUMP ∧ (jumpedTo cmds i).type_ ≠ .NOP
  jump_nop : ∀ i, i + 1 < cmds.length → (cmdAt cmds i).type_ = .JUMP → (cmdAt cmds (i + 1)).type_ ≠ .NOP
  nop_jump : ∀ i, i + 1 < cmds.length → Multicycle (cmdAt cmds i) → (cmdAt cmds (i + 1)).type_ ≠ .JUMP

/-- Two multicycle NOPs in a row. -/
def NopPair (cmds : List PimCommand) : Prop :=
  ∃ i, i + 1 < cmds.length ∧ Multicycle (cmdAt cmds i) ∧ Multicycle (cmdAt cmds (i + 1))

/-- A multicycle NOP with any NOP behind it. -/
def NopBeforeNop (cmds : List PimCommand) : Prop :=
  ∃ i, i + 1 < cmds.length ∧ Multicycle (cmdAt cmds i) ∧ (cmdAt cmds (i + 1)).type_ = .NOP

/-- The check returns, and 1 exactly for the vectors that obey every rule. -/
def RestrictionExact (cmds : List PimCommand) : Prop :=
  ∃ flag, check_isa_restriction cmds = some flag ∧ (flag = 1 ↔ IsaRules cmds ∧ ¬ NopPair cmds)

variable {cmds : List PimCommand} {i : ℕ}

/-- With offsets between one and the number of commands so far every JUMP goes back: no `int` wraps
    there. -/
theorem JumpsBack.of_offsets (hlen : cmds.length ≤ 2 ^ 31)
    (h : ∀ i < cmds.length, (cmdAt cmds i).type_ = .JUMP →
      1 ≤ (cmdAt cmds i).loop_offset_ ∧ (cmdAt cmds i).loop_offset_ ≤ i + 1) : JumpsBack cmds := by
  intro i hi hjump
  obtain ⟨hlo, hhi⟩ := h i hi hjump
  have hsub : int32 (i - (cmdAt cmds i).loop_offset_) = i - (cmdAt cmds i).loop_offset_ :=
    int32_of_bounds (by omega) (by omega)
  have htarget : target_idx i (cmdAt cmds i).loop_offset_ = i - (cmdAt cmds i).loop_offset_ + 1 := by
    rw [target_idx, hsub]
    exact int32_of_bounds (by omega) (by omega)
  rw [htarget]
  constructor <;> omega

/-! ### One command -/

/-- What the rules on a JUMP ask of index `i`. -/
def JumpKept (cmds : List PimCommand) (i : ℕ) : Prop :=
  (cmdAt cmds i).type_ = .JUMP →
    (cmdAt cmds i).loop_counter_ ≠ 0 ∧
      ((jumpedTo cmds i).type_ ≠ .JUMP ∧ (jumpedTo cmds i).type_ ≠ .NOP) ∧
      (i + 1 < cmds.length → (cmdAt cmds (i + 1)).type_ ≠ .NOP)

/-- What the rules on a NOP ask of index `i`. -/
def NopKept (cmds : List PimCommand) (i : ℕ) : Prop :=
  i + 1 < cmds.length → Multicycle (cmdAt cmds i) →
    (cmdAt cmds (i + 1)).type_ ≠ .JUMP ∧
      ((cmdAt cmds (i + 1)).type_ = .NOP → (cmdAt cmds 1).loop_counter_ ≤ 0)

theorem clear_eq_one {p : Prop} [Decidable p] {flag : ℕ} : (if p then 0 else flag) = 1 ↔ ¬ p ∧
    flag = 1 := by
  split_ifs with hp <;> simp [hp]

/-- A JUMP that goes back keeps the flag exactly when it keeps the rules. -/
theorem restrict_jump_kept (hback : JumpsBack cmds) (hi : i < cmds.length) (flag : ℕ) :
    ∃ flag', restrict_jump cmds i flag = some flag' ∧ (flag' = 1 ↔ flag = 1 ∧ JumpKept cmds i) := by
  by_cases hjump : (cmdAt cmds i).type_ = .JUMP
  · obtain ⟨hlo, hhi⟩ := hback i hi hjump
    have hnonneg : ¬ target_idx i (cmdAt cmds i).loop_offset_ < 0 := not_lt.mpr hlo
    have hinside : (target_idx i (cmdAt cmds i).loop_offset_).toNat < cmds.length := by omega
    have htarget : cmds[(target_idx i (cmdAt cmds i).loop_offset_).toNat]? = some (jumpedTo cmds i) :=
      getElem?_eq_cmdAt hinside
    refine ⟨_, by simp only [restrict_jump, hjump, hnonneg, if_true, if_false, htarget]; rfl, ?_⟩
    rw [clear_eq_one, clear_eq_one, clear_eq_one]
    constructor
    · rintro ⟨hnext, hgoal, hcount, hflag⟩
      refine ⟨hflag, fun _ => ⟨hcount, ⟨fun h => hgoal (Or.inr h), fun h => hgoal (Or.inl h)⟩,
        fun hlt hnop => ?_⟩⟩
      exact hnext ⟨by omega, hnop⟩
    · rintro ⟨hflag, hkept⟩
      obtain ⟨hcount, ⟨hgoal, hgoal'⟩, hnext⟩ := hkept hjump
      refine ⟨?_, ?_, hcount, hflag⟩
      · rintro ⟨hlast, hnop⟩
        exact hnext (by omega) hnop
      · rintro (h | h)
        · exact hgoal' h
        · exact hgoal h
  · refine ⟨flag, by simp [restrict_jump, hjump], ?_⟩
    simp [JumpKept, hjump]

theorem restrict_nop_kept (hi : i < cmds.length) (flag : ℕ) :
    restrict_nop cmds i flag = 1 ↔ flag = 1 ∧ NopKept cmds i := by
  by_cases hnop : (cmdAt cmds i).type_ = .NOP
  · simp only [restrict_nop, hnop, if_true, clear_eq_one, NopKept, Multicycle, true_and]
    constructor
    · rintro ⟨hpair, hjump, hflag⟩
      refine ⟨hflag, fun hlt hcount => ⟨fun h => hjump ⟨by omega, hcount, h⟩, fun h => ?_⟩⟩
      by_contra hpos
      exact hpair ⟨by omega, h, hcount, by omega⟩
    · rintro ⟨hflag, hkept⟩
      refine ⟨?_, ?_, hflag⟩
      · rintro ⟨hlast, h, hcount, hpos⟩
        have := (hkept (by omega) hcount).2 h
        omega
      · rintro ⟨hlast, hcount, h⟩
        exact (hkept (by omega) hcount).1 h
  · simp [restrict_nop, NopKept, Multicycle, hnop]

/-! ### The pass -/

/-- The flag survives the pass exactly when every index keeps it. -/
theorem check_isa_restriction_loop_kept (hback : JumpsBack cmds) {idx : List ℕ}
    (hidx : ∀ i ∈ idx, i < cmds.length)
    (flag : ℕ) :
    ∃ flag', check_isa_restriction_loop cmds idx flag = some flag' ∧
      (flag' = 1 ↔ flag = 1 ∧ ∀ i ∈ idx, JumpKept cmds i ∧ NopKept cmds i) := by
  induction idx generalizing flag with
  | nil => exact ⟨flag, rfl, by simp⟩
  | cons i idx ih =>
    obtain ⟨hi, hrest⟩ := List.forall_mem_cons.mp hidx
    obtain ⟨flag', hjump, hflag'⟩ := restrict_jump_kept hback hi flag
    obtain ⟨last, hloop, hlast⟩ := ih hrest (restrict_nop cmds i flag')
    refine ⟨last, by simp [check_isa_restriction_loop, hjump, hloop], ?_⟩
    rw [hlast, restrict_nop_kept hi, hflag', List.forall_mem_cons]
    simp only [and_assoc]

/-- What the check accepts. -/
theorem check_isa_restriction_kept (hne : cmds ≠ []) (hback : JumpsBack cmds) :
    ∃ flag, check_isa_restriction cmds = some flag ∧
      (flag = 1 ↔ IsaRules cmds ∧ (NopBeforeNop cmds → (cmdAt cmds 1).loop_counter_ ≤ 0)) := by
  obtain ⟨first, rest, rfl⟩ := List.exists_cons_of_ne_nil hne
  have hidx : ∀ i ∈ List.range (first :: rest).length, i < (first :: rest).length :=
    fun i => List.mem_range.mp
  obtain ⟨flag, hloop, hflag⟩ :=
    check_isa_restriction_loop_kept hback hidx (if first.type_ = .NOP then 0 else 1)
  refine ⟨flag, hloop, ?_⟩
  rw [hflag, clear_eq_one]
  simp only [List.mem_range, and_true]
  constructor
  · rintro ⟨hfirst, hkept⟩
    refine ⟨⟨hfirst, ?_, ?_, ?_, ?_⟩, ?_⟩
    · exact fun i hi hjump => ((hkept i hi).1 hjump).1
    · exact fun i hi hjump => ((hkept i hi).1 hjump).2.1
    · exact fun i hi hjump => ((hkept i (by omega)).1 hjump).2.2 hi
    · exact fun i hi hnop => ((hkept i (by omega)).2 hi hnop).1
    · rintro ⟨i, hi, hnop, hnext⟩
      exact ((hkept i (by omega)).2 hi hnop).2 hnext
  · rintro ⟨hrules, hpair⟩
    refine ⟨hrules.first, fun i hi => ⟨fun hjump => ⟨?_, ?_, ?_⟩, fun hlt hnop => ⟨?_, ?_⟩⟩⟩
    · exact hrules.counter i hi hjump
    · exact hrules.target i hi hjump
    · exact fun hlt => hrules.jump_nop i hlt hjump
    · exact hrules.nop_jump i hlt hnop
    · exact fun hnext => hpair ⟨i, hlt, hnop, hnext⟩

/-- The check is exact on vectors that break another rule, and where `cmds[1]` has a counter exactly
    when the second NOP of some pair has one. -/
theorem restriction_exact_iff (hne : cmds ≠ []) (hback : JumpsBack cmds) :
    RestrictionExact cmds ↔
      (IsaRules cmds → (NopPair cmds ↔ NopBeforeNop cmds ∧ 0 < (cmdAt cmds 1).loop_counter_)) := by
  obtain ⟨flag, hcheck, hflag⟩ := check_isa_restriction_kept hne hback
  have hexact : RestrictionExact cmds ↔ (flag = 1 ↔ IsaRules cmds ∧ ¬ NopPair cmds) := by
    simp [RestrictionExact, hcheck]
  rw [hexact, hflag, ← not_lt]
  by_cases hrules : IsaRules cmds
  · simp only [hrules, true_and, true_imp_iff]
    rw [← not_and, not_iff_not]
    exact iff_comm
  · simp [hrules]

/-- A pair of multicycle NOPs behind the first command is refused. -/
theorem restriction_exact_pair : RestrictionExact
    [binary .MUL .GRF_A .GRF_B .EVEN_BANK, ctrl .NOP 2, ctrl .NOP 2, ctrl .EXIT 0] := by
  have hback : JumpsBack
      [binary .MUL .GRF_A .GRF_B .EVEN_BANK, ctrl .NOP 2, ctrl .NOP 2, ctrl .EXIT 0] :=
    .of_offsets (by decide) (by decide)
  refine (restriction_exact_iff (by decide) hback).mpr fun _ =>
    ⟨fun _ => ⟨?_, by decide⟩, fun _ => ?_⟩
  · exact ⟨1, by decide, by decide, by decide⟩
  · exact ⟨1, by decide, by decide, by decide⟩

/-- One command later it is accepted. -/
theorem nop_pair_accepted : ¬ ∀ cmds, cmds ≠ [] → JumpsBack cmds → RestrictionExact cmds := by
  intro hall
  obtain ⟨flag, hcheck, hflag⟩ :=
    hall [binary .MUL .GRF_A .GRF_B .EVEN_BANK, binary .ADD .GRF_B .GRF_B .EVEN_BANK, ctrl .NOP 2,
      ctrl .NOP 2, ctrl .EXIT 0] (by decide) (by decide)
  obtain rfl : 1 = flag := Option.some.inj hcheck
  obtain ⟨-, hpair⟩ := hflag.mp rfl
  exact hpair ⟨2, by decide, by decide, by decide⟩

end PimLibrary.Crfgen
