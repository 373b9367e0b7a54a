import PimLibrary.Crfgen.Validation

/-! What the hazard scan sees.

    From every operation the scan looks ahead in the vector as far as the required distance and compares
    the operation's destination with `src0` and `src1` of what follows. On a stretch of operations and
    ordinary NOPs its count of slots is at most the true one, so a scan that reports nothing leaves
    every such reader far enough from the write. -/

namespace PimLibrary.Crfgen
open Schemes.Word PimLibrary.Program PimLibrary.Program.PimCommand

attribute [local irreducible] int32

/-- A command with a column in the hazard tables. -/
def IsOp (c : PimCommand) : Prop := get_hazard_table_idx c ≠ none

instance (c : PimCommand) : Decidable (IsOp c) := inferInstanceAs (Decidable (_ ≠ _))

/-- The slots of a command, as the scan counts them. -/
def slots (c : PimCommand) : ℤ :=
  if c.type_ = .NOP then c.loop_counter_ + 1
  else if ¬ IsOp c then 0
  else if c.is_auto_ ≠ 0 then 8
  else 1

def slotsOf (cmds : List PimCommand) : ℤ := (cmds.map slots).sum

/-- An operation, or a NOP with a counter and without the flag of an automatic operation. -/
def Plain (c : PimCommand) : Prop := IsOp c ∨ c.type_ = .NOP ∧ 0 ≤ c.loop_counter_ ∧ c.is_auto_ = 0

instance (c : PimCommand) : Decidable (Plain c) := inferInstanceAs (Decidable (_ ∨ _))

variable {cmds pre mid post : List PimCommand} {a b c : PimCommand}

/-! ### Slots -/

theorem IsOp.type_ne_nop (h : IsOp c) : c.type_ ≠ .NOP := by
  intro hnop
  exact h (by simp [get_hazard_table_idx, hnop])

theorem slots_op (h : IsOp c) : slots c = if c.is_auto_ ≠ 0 then 8 else 1 := by
  rw [slots, if_neg h.type_ne_nop, if_neg (not_not.mpr h)]

theorem Plain.one_le_slots (h : Plain c) : 1 ≤ slots c := by
  rcases h with hop | ⟨hnop, hcount, -⟩
  · rw [slots_op hop]
    split_ifs <;> norm_num
  · rw [slots, if_pos hnop]
    omega

theorem slotsOf_cons (c : PimCommand) (cmds : List PimCommand) :
    slotsOf (c :: cmds) = slots c + slotsOf cmds := by
  simp [slotsOf]

theorem slotsOf_append (l l' : List PimCommand) : slotsOf (l ++ l') = slotsOf l + slotsOf l' := by
  simp [slotsOf]

theorem length_le_slotsOf (h : ∀ c ∈ mid, Plain c) : (mid.length : ℤ) ≤ slotsOf mid := by
  induction mid with
  | nil => simp [slotsOf]
  | cons c mid ih =>
    obtain ⟨hc, hrest⟩ := List.forall_mem_cons.mp h
    have hle := ih hrest
    have hone := hc.one_le_slots
    rw [slotsOf_cons, List.length_cons]
    push_cast
    omega

/-- An automatic operation alone fills any required distance. -/
theorem auto_le_slotsOf (h : ∀ c ∈ mid, Plain c) (hc : c ∈ mid) (hauto : c.is_auto_ ≠ 0) :
    8 ≤ slotsOf mid := by
  obtain ⟨l, l', rfl⟩ := List.append_of_mem hc
  have hl := length_le_slotsOf fun d hd => h d (List.mem_append_left _ hd)
  have hl' := length_le_slotsOf fun d hd => h d (List.mem_append_right _ (List.mem_cons_of_mem _ hd))
  have hop : IsOp c := by
    rcases h c hc with hop | ⟨-, -, hzero⟩
    · exact hop
    · exact absurd hzero hauto
  rw [slotsOf_append, slotsOf_cons, slots_op hop, if_pos hauto]
  omega

theorem required_nop_le (c : PimCommand) : required_nop c ≤ 3 := by
  rw [required_nop, get_hazard_table_idx]
  generalize is_read_register c = r
  cases r <;> cases c.type_ <;> decide

/-! ### The next operation -/

/-- The scan stops at the first operation, or at the end with zero. -/
theorem find_next_op_loop_spec (l : List PimCommand) (i : ℕ) (num_nop : ℤ) :
    (∀ c ∈ l, ¬ IsOp c) ∧ (find_next_op_loop l i num_nop).1 = 0 ∨
      ∃ skipped c rest, l = skipped ++ c :: rest ∧ (∀ d ∈ skipped, ¬ IsOp d) ∧ IsOp c ∧
        (find_next_op_loop l i num_nop).1 = i + skipped.length := by
  induction l generalizing i num_nop with
  | nil => exact Or.inl ⟨by simp, rfl⟩
  | cons c l ih =>
    by_cases hop : IsOp c
    · right
      have hidx : get_hazard_table_idx c ≠ none := hop
      exact ⟨[], c, l, rfl, by simp, hop, by simp [find_next_op_loop, hidx]⟩
    · have hidx : get_hazard_table_idx c = none := not_not.mp hop
      rcases ih (i + 1) (if c.type_ = .NOP then int32 (num_nop + int32 (c.loop_counter_ + 1))
        else num_nop) with
        ⟨hall, hzero⟩ | ⟨skipped, d, rest, rfl, hskip, hd, hnext⟩
      · left
        exact ⟨List.forall_mem_cons.mpr ⟨hop, hall⟩, by simpa [find_next_op_loop, hidx] using hzero⟩
      · right
        refine ⟨c :: skipped, d, rest, rfl, List.forall_mem_cons.mpr ⟨hop, hskip⟩, hd, ?_⟩
        simp only [find_next_op_loop, hidx, if_true, hnext, List.length_cons]
        omega

/-- Over NOPs the scan counts their slots, up to the wrap of an `int`. -/
theorem find_next_op_loop_nops {skipped : List PimCommand} (hskip : ∀ d ∈ skipped, Plain d ∧ ¬ IsOp d)
    (hc : IsOp c) (rest : List PimCommand) (i : ℕ) (x : ℤ) :
    find_next_op_loop (skipped ++ c :: rest) i (int32 x) =
      (i + skipped.length, int32 (x + slotsOf skipped)) := by
  induction skipped generalizing i x with
  | nil =>
    have hidx : get_hazard_table_idx c ≠ none := hc
    simp [find_next_op_loop, hidx, hc.type_ne_nop, slotsOf]
  | cons d skipped ih =>
    obtain ⟨⟨hplain, hop⟩, hrest⟩ := List.forall_mem_cons.mp hskip
    have hidx : get_hazard_table_idx d = none := not_not.mp hop
    have hnop : d.type_ = .NOP := (hplain.resolve_left hop).1
    have hslots : slots d = d.loop_counter_ + 1 := by rw [slots, if_pos hnop]
    rw [List.cons_append, find_next_op_loop]
    simp only [hidx, hnop, if_true]
    rw [int32_add_int32, int32_add_int32', ih hrest, slotsOf_cons, hslots, List.length_cons]
    congr 1
    · omega
    · congr 1
      ring

/-! ### The comparison -/

theorem detect_data_hazard_loop_one (cur : PimCommand) (req : ℤ) (l : List PimCommand) (num_nop : ℤ) :
    detect_data_hazard_loop cur req l num_nop 1 = 1 := by
  induction l generalizing num_nop with
  | nil => rfl
  | cons c l ih =>
    rw [detect_data_hazard_loop]
    split_ifs
    · rfl
    · exact ih _
    · exact ih _

/-- A reader that fewer slots than required lie before is found. -/
theorem detect_data_hazard_loop_hit {cur : PimCommand} {req : ℤ} {rest tail : List PimCommand}
    (hrest : ∀ d ∈ rest, Plain d ∧ d.is_auto_ = 0) (hdep : depends cur b) (hreq : req ≤ 3) (num_nop : ℤ)
    (hlo : -2 ^ 31 ≤ num_nop) (hlt : num_nop + slotsOf rest < req) (is_hazard : ℕ) :
    detect_data_hazard_loop cur req (rest ++ b :: tail) num_nop is_hazard = 1 := by
  induction rest generalizing num_nop is_hazard with
  | nil =>
    have hlt' : ¬ num_nop ≥ req := by
      simp only [slotsOf, List.map_nil, List.sum_nil] at hlt
      omega
    rw [List.nil_append, detect_data_hazard_loop, if_neg hlt', if_pos hdep]
    exact detect_data_hazard_loop_one cur req tail num_nop
  | cons d rest ih =>
    obtain ⟨⟨hplain, hauto⟩, hrest⟩ := List.forall_mem_cons.mp hrest
    have hone := hplain.one_le_slots
    have hlen := length_le_slotsOf fun c hc => (hrest c hc).1
    rw [slotsOf_cons] at hlt
    have hlt' : ¬ num_nop ≥ req := by omega
    have hcount : int32 (num_nop + int32 (1 + int32 (d.is_auto_ * 7))) = num_nop + 1 := by
      rw [hauto, Int.zero_mul, int32_add_int32, add_comm (1 : ℤ), ← add_assoc,
        int32_of_bounds (x := 0) (by norm_num) (by norm_num), add_zero]
      exact int32_of_bounds (by omega) (by omega)
    rw [List.cons_append, detect_data_hazard_loop, if_neg hlt', hcount]
    split_ifs with hfound
    · exact ih hrest num_nop hlo (by omega) 1
    · exact ih hrest (num_nop + 1) (by omega) (by omega) is_hazard

/-! ### The outer loop -/

theorem cmdAt_eq (h : cmds = pre ++ a :: post) : cmdAt cmds pre.length = a := by
  rw [cmdAt, h, List.getD_eq_getElem?_getD, List.getElem?_append_right (le_refl _), Nat.sub_self]
  rfl

/-- The hazards counted at an operation whose next one follows closely. -/
def hazardsAt (cmds : List PimCommand) (i next_idx : ℕ) (num_nop : ℤ) : ℕ :=
  (if detect_structural_hazard cmds i next_idx num_nop ≠ 0 then 1 else 0) +
    if detect_data_hazard cmds i next_idx num_nop ≠ 0 then 1 else 0

theorem check_hazard_loop_succ (cmds : List PimCommand) (fuel i num_hazard : ℕ) :
    check_hazard_loop cmds (fuel + 1) i num_hazard =
      if cmds.length ≤ i then num_hazard
      else if ¬ IsOp (cmdAt cmds i) then check_hazard_loop cmds fuel (i + 1) num_hazard
      else if (find_next_op cmds i).1 = 0 then num_hazard
      else if (find_next_op cmds i).2 ≥ 4 then
        check_hazard_loop cmds fuel (find_next_op cmds i).1 num_hazard
      else check_hazard_loop cmds fuel (i + 1)
        (num_hazard + hazardsAt cmds i (find_next_op cmds i).1 (find_next_op cmds i).2) := by
  simp only [check_hazard_loop, IsOp, not_not, hazardsAt]
  congr 5
  split_ifs <;> rfl

theorem le_check_hazard_loop (cmds : List PimCommand) (fuel i num_hazard : ℕ) :
    num_hazard ≤ check_hazard_loop cmds fuel i num_hazard := by
  induction fuel generalizing i num_hazard with
  | zero => exact le_refl _
  | succ fuel ih =>
    rw [check_hazard_loop_succ]
    split_ifs
    · exact le_refl _
    · exact le_refl _
    · exact ih _ _
    · exact (Nat.le_add_right _ _).trans (ih _ _)
    · exact ih _ _

/-- Between an operation and its next one there is none. -/
theorem find_next_op_cases (cmds : List PimCommand) {i j : ℕ} (hij : i < j) (hj : j < cmds.length)
    (hop : IsOp (cmdAt cmds j)) : (find_next_op cmds i).1 ≠ 0 ∧ (find_next_op cmds i).1 ≤ j ∧
      i < (find_next_op cmds i).1 := by
  have hmem : (cmds.drop (i + 1))[j - (i + 1)]? = some (cmdAt cmds j) := by
    rw [List.getElem?_drop, Nat.add_sub_cancel' hij, getElem?_eq_cmdAt hj]
  rcases find_next_op_loop_spec (cmds.drop (i + 1)) (i + 1) 0 with ⟨hall, -⟩ | ⟨skipped, c, rest,
    heq, hskip, -, hnext⟩
  · exact absurd hop (hall _ (List.mem_of_getElem? hmem))
  · have hle : skipped.length ≤ j - (i + 1) := by
      by_contra hlt
      rw [heq, List.getElem?_append_left (not_le.mp hlt)] at hmem
      exact hskip _ (List.mem_of_getElem? hmem) hop
    rw [find_next_op, hnext]
    omega

/-- A scan without hazards has compared every operation with what follows, unless four NOPs do. -/
theorem check_hazard_loop_visits (cmds : List PimCommand) (fuel i : ℕ) (hfuel : cmds.length ≤ i + fuel)
    (hzero : check_hazard_loop cmds fuel i 0 = 0) {j : ℕ} (hij : i ≤ j) (hj : j < cmds.length)
    (hop : IsOp (cmdAt cmds j)) (hnext : (find_next_op cmds j).1 ≠ 0)
      (hnop : (find_next_op cmds j).2 < 4) :
    detect_data_hazard cmds j (find_next_op cmds j).1 (find_next_op cmds j).2 = 0 := by
  induction fuel generalizing i with
  | zero => omega
  | succ fuel ih =>
    rw [check_hazard_loop_succ, if_neg (by omega)] at hzero
    rcases Nat.eq_or_lt_of_le hij with rfl | hlt
    · rw [if_neg (not_not.mpr hop), if_neg hnext, if_neg (not_le.mpr hnop)] at hzero
      have hnone := Nat.le_zero.mp (hzero ▸ le_check_hazard_loop cmds fuel (i + 1) _)
      rw [Nat.zero_add, hazardsAt] at hnone
      by_contra hhazard
      rw [if_pos hhazard] at hnone
      omega
    · by_cases hi : IsOp (cmdAt cmds i)
      · obtain ⟨hne, hle, hgt⟩ := find_next_op_cases cmds hlt hj hop
        rw [if_neg (not_not.mpr hi), if_neg hne] at hzero
        split_ifs at hzero with hfar
        · exact ih _ (by omega) hzero hle
        · have hnone := Nat.le_zero.mp (hzero ▸ le_check_hazard_loop cmds fuel (i + 1) _)
          rw [hnone] at hzero
          exact ih _ (by omega) hzero hlt
      · rw [if_pos hi] at hzero
        exact ih _ (by omega) hzero hlt

/-- The next operation is in the stretch or is the reader. -/
theorem exists_next_op (mid post : List PimCommand) (hb : IsOp b) :
    ∃ skipped rest c tail, mid = skipped ++ rest ∧ (∀ d ∈ skipped, ¬ IsOp d) ∧ rest ++ b :: post =
      c :: tail ∧ IsOp c := by
  induction mid with
  | nil => exact ⟨[], [], b, post, rfl, by simp, rfl, hb⟩
  | cons d mid ih =>
    by_cases hd : IsOp d
    · exact ⟨[], d :: mid, d, mid ++ b :: post, rfl, by simp, rfl, hd⟩
    · obtain ⟨skipped, rest, c, tail, rfl, hskip, hrest, hc⟩ := ih
      exact ⟨d :: skipped, rest, c, tail, rfl, List.forall_mem_cons.mpr ⟨hd, hskip⟩, hrest, hc⟩

/-- A reader behind a stretch that the scan can count is far enough from the write. -/
theorem scan_sound (hsplit : cmds = pre ++ a :: (mid ++ b :: post)) (ha : IsOp a) (hb : IsOp b)
    (hplain : ∀ c ∈ mid, Plain c) (hdep : depends a b) (hzero : check_hazard cmds = 0) :
    required_nop a ≤ slotsOf mid := by
  by_contra hlt
  have hreq := required_nop_le a
  have hauto : ∀ c ∈ mid, c.is_auto_ = 0 := by
    intro c hc
    by_contra hne
    have := auto_le_slotsOf hplain hc hne
    omega
  have hat : cmdAt cmds pre.length = a := cmdAt_eq hsplit
  have hlen : cmds.length = pre.length + 1 + mid.length + 1 + post.length := by
    rw [hsplit]
    simp only [List.length_append, List.length_cons]
    omega
  have hdrop : cmds.drop (pre.length + 1) = mid ++ b :: post := by
    rw [hsplit, ← List.drop_drop, List.drop_left, List.drop_one, List.tail_cons]
  obtain ⟨skipped, rest, c, tail, rfl, hskip, hrest, hc⟩ := exists_next_op mid post hb
  obtain ⟨hplain_skip, hplain_rest⟩ := List.forall_mem_append.mp hplain
  obtain ⟨-, hauto_rest⟩ := List.forall_mem_append.mp hauto
  have hslots := slotsOf_append skipped rest
  have hlen_skip := length_le_slotsOf hplain_skip
  have hlen_rest := length_le_slotsOf hplain_rest
  -- the scan counts the NOPs before the next operation, or fewer after a wrap
  have hnext : find_next_op cmds pre.length =
      (pre.length + 1 + skipped.length, int32 (slotsOf skipped)) := by
    have hstart := find_next_op_loop_nops (fun d hd => ⟨hplain_skip d hd, hskip d hd⟩) hc tail
      (pre.length + 1) 0
    rw [int32_of_bounds (x := 0) (by norm_num) (by norm_num), zero_add] at hstart
    rw [find_next_op, hdrop, List.append_assoc, hrest, hstart]
  have hcount : int32 (slotsOf skipped) ≤ slotsOf skipped := int32_le_self (by omega)
  have hnone := check_hazard_loop_visits cmds cmds.length 0 (by omega) hzero (Nat.zero_le pre.length)
    (by omega) (hat.symm ▸ ha) (by rw [hnext]; change pre.length + 1 + skipped.length ≠ 0; omega)
    (by rw [hnext]; change int32 (slotsOf skipped) < 4; omega)
  -- but its comparison reaches the reader
  rw [hnext, detect_data_hazard, hat, List.drop_take] at hnone
  have hskip_drop : cmds.drop (pre.length + 1 + skipped.length) = rest ++ b :: post := by
    rw [← List.drop_drop, hdrop, List.append_assoc, List.drop_left]
  set max_idx := if (pre.length : ℤ) + required_nop a + 1 < cmds.length
    then ((pre.length : ℤ) + required_nop a + 1).toNat else cmds.length with hmax
  have hreach : pre.length + 1 + skipped.length + (rest.length + 1) ≤ max_idx := by
    rw [List.length_append] at hlen
    rw [hmax]
    split_ifs <;> omega
  obtain ⟨k, hk⟩ := Nat.exists_eq_add_of_le hreach
  have htake : max_idx - (pre.length + 1 + skipped.length) = rest.length + (k + 1) := by omega
  rw [hskip_drop, htake, List.take_length_add_append, List.take_succ_cons,
    detect_data_hazard_loop_hit (fun d hd => ⟨hplain_rest d hd, hauto_rest d hd⟩) hdep hreq _
      (neg_le_int32 _) (by omega)]
    at hnone
  exact absurd hnone (by norm_num)

end PimLibrary.Crfgen
