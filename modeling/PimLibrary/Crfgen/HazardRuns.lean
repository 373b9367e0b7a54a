import PimLibrary.Crfgen.HazardScan
import PimLibrary.Program.PimUnit

/-! Hazards along the execution of a program.

    The scan follows the vector, an execution follows the JUMPs. On a straight stretch of the execution
    the commands executed are those of the vector in order, and a scan that reports nothing vouches for
    every read through `src0` and `src1`. It says nothing about a read after a JUMP, which ends the
    vector's order, nor about a read through `src2`, which it does not compare. -/

namespace PimLibrary.Crfgen
open PimLibrary.Program PimLibrary.Program.PimCommand

/-! ### Executions -/

/-- The next command, and how often each JUMP has been taken since it last fell through. -/
structure ExecState where
  pc : ℕ := 0
  taken : ℕ → ℕ := fun _ => 0

def execStep (cmds : List PimCommand) (s : ExecState) : Option ExecState :=
  match cmds[s.pc]? with
  | none => none
  | some c =>
    if c.type_ = .EXIT then none
    else if c.type_ = .JUMP then
      if (s.taken s.pc : ℤ) < c.loop_counter_ then
        (jumpTarget s.pc c).map fun target => ⟨target, Function.update s.taken s.pc (s.taken s.pc + 1)⟩
      else some ⟨s.pc + 1, Function.update s.taken s.pc 0⟩
    else some ⟨s.pc + 1, s.taken⟩

def stateAt (cmds : List PimCommand) : ℕ → Option ExecState
  | 0 => some {}
  | n + 1 => (stateAt cmds n).bind (execStep cmds)

/-- The command executed in step `n`. -/
def executed (cmds : List PimCommand) (n : ℕ) : Option PimCommand :=
  (stateAt cmds n).bind fun s => cmds[s.pc]?

/-- The commands of `count` steps from step `n` on. -/
def executedFrom (cmds : List PimCommand) (n count : ℕ) : List PimCommand :=
  (List.range' n count).filterMap (executed cmds)

/-- The commands of the steps between two steps. -/
def executedBetween (cmds : List PimCommand) (s t : ℕ) : List PimCommand :=
  executedFrom cmds (s + 1) (t - (s + 1))

/-! ### Dependences -/

/-- The register files and indices an operation reads. -/
def sources (c : PimCommand) : List (PimOpdType × ℤ) :=
  (c.src0_, c.src0_idx_) :: (c.src1_, c.src1_idx_) :: if c.type_ = .MAD then
    [(c.src2_, c.src1_idx_)] else []

/-- `a` writes the register that `b` reads as `r`. -/
def WritesSource (a b : PimCommand) (r : PimOpdType × ℤ) : Prop :=
  is_register r.1 = true ∧ a.dst_ = r.1 ∧ (a.is_auto_ ≠ 0 ∨ b.is_auto_ ≠ 0 ∨ a.dst_idx_ = r.2)

instance (a b : PimCommand) (r : PimOpdType × ℤ) : Decidable (WritesSource a b r) :=
  inferInstanceAs (Decidable (_ ∧ _))

/-- The operation `b` of step `t` reads as `r` what the operation `a` of step `s` wrote last. -/
structure Dependent (cmds : List PimCommand) (s t : ℕ) (a b : PimCommand) (r : PimOpdType × ℤ) :
    Prop where
  order : s < t
  write : executed cmds s = some a
  read : executed cmds t = some b
  write_op : IsOp a
  read_op : IsOp b
  source : r ∈ sources b
  writes : WritesSource a b r
  last : ∀ c ∈ executedBetween cmds s t, IsOp c → ¬ WritesSource c b r

/-- Every read is as many slots behind the write as the table requires. -/
def HazardFree (cmds : List PimCommand) : Prop :=
  ∀ s t a b r, Dependent cmds s t a b r → required_nop a ≤ slotsOf (executedBetween cmds s t)

/-- The checks find nothing. -/
structure Clean (cmds : List PimCommand) : Prop where
  valid : check_cmd_validation cmds = some 1
  restriction : check_isa_restriction cmds = some 1
  hazard : check_hazard cmds = 0

/-- The scan compares the two: the stretch between them is one it can count, and `b` reads through
    `src0` or `src1`. -/
def Scanned (between : List PimCommand) (a b : PimCommand) : Prop :=
  (∀ c ∈ between, Plain c) ∧ depends a b

instance (between : List PimCommand) (a b : PimCommand) : Decidable (Scanned between a b) :=
  inferInstanceAs (Decidable (_ ∧ _))

/-! ### Straight stretches -/

variable {cmds : List PimCommand} {n count : ℕ} {s : ExecState} {c : PimCommand}

theorem Plain.straight (h : Plain c) : c.type_ ≠ .EXIT ∧ c.type_ ≠ .JUMP := by
  rcases h with hop | ⟨hnop, -, -⟩
  · constructor <;> intro htype <;> exact hop (by simp [get_hazard_table_idx, htype])
  · simp [hnop]

theorem execStep_straight (hc : cmds[s.pc]? = some c) (h : Plain c) :
    execStep cmds s = some ⟨s.pc + 1, s.taken⟩ := by
  obtain ⟨hexit, hjump⟩ := h.straight
  simp [execStep, hc, hexit, hjump]

theorem stateAt_none (h : stateAt cmds n = none) (k : ℕ) : stateAt cmds (n + k) = none := by
  induction k with
  | zero => exact h
  | succ k ih => rw [← Nat.add_assoc, stateAt, ih, Option.bind_none]

theorem executedFrom_succ (cmds : List PimCommand) (n count : ℕ) :
    executedFrom cmds n (count + 1) = (executed cmds n).toList ++ executedFrom cmds (n + 1) count := by
  rw [executedFrom, List.range'_succ, List.filterMap_cons]
  cases executed cmds n <;> rfl

/-- On a straight stretch the commands executed are those of the vector. -/
theorem straight_run (hs : stateAt cmds n = some s) (hplain : ∀ c ∈ executedFrom cmds n count, Plain c)
    (hend : stateAt cmds (n + count) ≠ none) :
    ∃ taken, stateAt cmds (n + count) = some ⟨s.pc + count, taken⟩ ∧
      cmds.drop s.pc = executedFrom cmds n count ++ cmds.drop (s.pc + count) := by
  induction count generalizing n s with
  | zero => exact ⟨s.taken, hs, by simp [executedFrom]⟩
  | succ count ih =>
    cases hc : cmds[s.pc]? with
    | none =>
      have hstop : stateAt cmds (n + 1) = none := by simp [stateAt, hs, execStep, hc]
      have := stateAt_none hstop count
      rw [Nat.add_assoc, Nat.add_comm 1] at this
      exact absurd this hend
    | some c =>
      have hexec : executed cmds n = some c := by simp [executed, hs, hc]
      rw [executedFrom_succ, hexec, Option.toList_some, List.singleton_append] at hplain ⊢
      obtain ⟨hplain_c, hplain⟩ := List.forall_mem_cons.mp hplain
      have hnext : stateAt cmds (n + 1) = some ⟨s.pc + 1, s.taken⟩ := by
        rw [stateAt, hs, Option.bind_some, execStep_straight hc hplain_c]
      rw [Nat.add_comm count, ← Nat.add_assoc] at hend ⊢
      obtain ⟨taken, hlast, hdrop⟩ := ih hnext hplain hend
      refine ⟨taken, ?_, ?_⟩
      · rw [hlast]
        simp only [Nat.add_assoc]
      · obtain ⟨hlt, rfl⟩ := List.getElem?_eq_some_iff.mp hc
        rw [List.drop_eq_getElem_cons hlt, hdrop, ← Nat.add_assoc, List.cons_append]

/-- A scanned dependence keeps its distance. -/
theorem Dependent.required_le {t : ℕ} {n : ℕ} {a b : PimCommand} {r : PimOpdType × ℤ}
    (hd : Dependent cmds n t a b r)
    (hscan : Scanned (executedBetween cmds n t) a b) (hzero : check_hazard cmds = 0) :
    required_nop a ≤ slotsOf (executedBetween cmds n t) := by
  obtain ⟨hplain, hdep⟩ := hscan
  obtain ⟨s, hs, ha⟩ := Option.bind_eq_some_iff.mp hd.write
  obtain ⟨s', hs', hb⟩ := Option.bind_eq_some_iff.mp hd.read
  have hstart : stateAt cmds (n + 1) = some ⟨s.pc + 1, s.taken⟩ := by
    rw [stateAt, hs, Option.bind_some, execStep_straight ha (Or.inl hd.write_op)]
  have ht : n + 1 + (t - (n + 1)) = t := Nat.add_sub_cancel' hd.order
  obtain ⟨taken, hend, hdrop⟩ :=
    straight_run hstart hplain (by rw [ht, hs']; exact Option.some_ne_none _)
  rw [ht, hs'] at hend
  obtain rfl := Option.some.inj hend
  obtain ⟨hlt, rfl⟩ := List.getElem?_eq_some_iff.mp ha
  obtain ⟨hlt', rfl⟩ := List.getElem?_eq_some_iff.mp hb
  have hsplit : cmds = cmds.take s.pc ++ cmds[s.pc] :: (executedBetween cmds n t ++
      cmds[s.pc + 1 + (t - (n + 1))] :: cmds.drop (s.pc + 1 + (t - (n + 1)) + 1)) := by
    rw [← List.drop_eq_getElem_cons hlt', executedBetween, ← hdrop, ← List.drop_eq_getElem_cons hlt,
      List.take_append_drop]
  exact scan_sound hsplit hd.write_op hd.read_op hplain hdep hzero

/-- A clean program has no hazard exactly when it has none where the scan does not look. -/
theorem hazard_free_iff (hclean : Clean cmds) :
    HazardFree cmds ↔ ∀ s t a b r, Dependent cmds s t a b r → ¬ Scanned (executedBetween cmds s t) a b →
      required_nop a ≤ slotsOf (executedBetween cmds s t) := by
  constructor
  · intro hfree s t a b r hd _
    exact hfree s t a b r hd
  · intro hrest s t a b r hd
    by_cases hscan : Scanned (executedBetween cmds s t) a b
    · exact hd.required_le hscan hclean.hazard
    · exact hrest s t a b r hd hscan

/-- A product, three slots, and a sum that reads the product. -/
def product_sum : List PimCommand :=
  [binary .MUL .GRF_A .GRF_B .EVEN_BANK, ctrl .NOP 2, binary .ADD .GRF_B .GRF_A .EVEN_BANK,
    ctrl .EXIT 0]

theorem hazard_free_product_sum : HazardFree product_sum := by
  refine (hazard_free_iff ⟨by decide, by decide, by decide⟩).mpr ?_
  intro s t a b r hd hscan
  have hstop : stateAt product_sum 4 = none := rfl
  have ht : t < 4 := by
    by_contra hge
    obtain ⟨k, rfl⟩ := Nat.exists_eq_add_of_le (not_lt.mp hge)
    have hread := hd.read
    rw [executed, stateAt_none hstop k] at hread
    cases hread
  have hs := hd.order
  obtain ⟨hwrite, hread, hop, hop'⟩ :=
    And.intro hd.write (And.intro hd.read (And.intro hd.write_op hd.read_op))
  interval_cases t
  · omega
  · cases hread
    exact absurd hop' (by decide)
  · interval_cases s
    · cases hwrite
      cases hread
      exact absurd (by decide) hscan
    · cases hwrite
      exact absurd hop (by decide)
  · cases hread
    exact absurd hop' (by decide)

/-- A product that the next round reads right away. -/
def product_loop : List PimCommand :=
  [binary .MUL .GRF_B .GRF_B .EVEN_BANK, jump .JUMP 1 2, ctrl .EXIT 0]

/-- The scan ends at the JUMP and does not see the second round. -/
theorem hazard_across_jump : ¬ ∀ cmds, Clean cmds → HazardFree cmds := by
  intro hall
  have hfree := hall product_loop ⟨by decide, by decide, by decide⟩
  have hd : Dependent product_loop 0 2 (binary .MUL .GRF_B .GRF_B .EVEN_BANK)
    (binary .MUL .GRF_B .GRF_B .EVEN_BANK)
      (.GRF_B, 0) :=
    ⟨by decide, rfl, rfl, by decide, by decide, by decide, by decide, by decide⟩
  have hslots := hfree _ _ _ _ _ hd
  revert hslots
  decide

end PimLibrary.Crfgen
