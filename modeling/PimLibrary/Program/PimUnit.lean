import PimLibrary.Kernel.Cmd
import PimLibrary.Program.PimCommand
import PimLibrary.Schemes.Lockstep

/-! The PIM unit as a sequencer over its instruction memory.

    The unit decodes the words of its program and consumes column commands: eight for a FILL and for an
    auto instruction, `k + 1` for NOP(k), none for JUMP and EXIT. It restarts at instruction zero with
    fresh loop counters whenever HAB_PIM mode is entered. -/

namespace PimLibrary.Program
open Schemes.Lockstep PimLibrary.Kernel PimLibrary.Program.PimCommand

/-- What the unit decodes from the words of a program. -/
def loaded (cmds : List PimCommand) : List PimCommand := (change_to_binary cmds).map (from_int {})

/-- The next instruction, and how often each JUMP has been taken. -/
structure UnitState where
  pc : ℕ := 0
  taken : ℕ → ℕ := fun _ => 0

/-- How many column commands an instruction consumes; `none` if it has no such meaning. -/
def PimCommand.demand (c : PimCommand) : Option ℕ :=
  match c.type_ with
  | .NOP => some (c.loop_counter_.toNat + 1)
  | .FILL => some 8
  | .ADD | .MUL | .MAC | .MAD => if c.is_auto_ = 1 then some 8 else none
  | _ => none

/-- Where a JUMP at `pc` leads when it is taken; `none` below the program's start. -/
def jumpTarget (pc : ℕ) (c : PimCommand) : Option ℕ :=
  let target := (pc : ℤ) - c.loop_offset_ + 1
  if 0 ≤ target then some target.toNat else none

def unitStep (program : List PimCommand) (s : UnitState) : Option (Move UnitState PimCommand) :=
  match program[s.pc]? with
  | none => none
  | some c =>
    if c.type_ = .EXIT then some .halt
    else if c.type_ = .JUMP then
      if (s.taken s.pc : ℤ) < c.loop_counter_ then
        (jumpTarget s.pc c).map fun target =>
          .goto ⟨target, Function.update s.taken s.pc (s.taken s.pc + 1)⟩
      else some (.goto ⟨s.pc + 1, s.taken⟩)
    else (demand c).map fun count => .take c count ⟨s.pc + 1, s.taken⟩

/-- One of the instruction's sources is the given bank. -/
def PimCommand.Sources (c : PimCommand) (bank : PimOpdType) : Prop :=
  c.src0_ = bank ∨ c.src1_ = bank ∨ c.src2_ = bank

instance (c : PimCommand) (bank : PimOpdType) : Decidable (c.Sources bank) :=
  inferInstanceAs (Decidable (_ ∨ _ ∨ _))

/-- A read whose address has the given low bank bit. -/
def ReadsBank (bank : ℤ) : Cmd → Prop
  | .R _ addr => addr / 2 ^ 13 % 2 = bank
  | _ => False

/-- Instructions with a bank source read from that bank. -/
def Accepts (c : PimCommand) (x : Cmd) : Prop :=
  (c.Sources .EVEN_BANK → ReadsBank 0 x) ∧ (c.Sources .ODD_BANK → ReadsBank 1 x)

/-- A session's column commands drive the program from its start exactly to EXIT. -/
def RunsToExit (program : List PimCommand) (session : List Cmd) : Prop :=
  InLockstep (unitStep program) Accepts {} session

/-! ### Straight-line code and counted loops -/

section Runs

variable {program : List PimCommand}

theorem unitStep_take {s : UnitState} {c : PimCommand} {count : ℕ} (hc : program[s.pc]? = some c)
    (hd : demand c = some count) : unitStep program s = some (.take c count ⟨s.pc + 1, s.taken⟩) := by
  have hexit : c.type_ ≠ .EXIT := by
    intro h
    simp [demand, h] at hd
  have hjump : c.type_ ≠ .JUMP := by
    intro h
    simp [demand, h] at hd
  simp [unitStep, hc, hd, hexit, hjump]

/-- The demands of a list of instructions without jumps. -/
def Straight (cmds : List PimCommand) (ds : List (PimCommand × ℕ)) : Prop :=
  List.Forall₂ (fun c d => d.1 = c ∧ demand c = some d.2) cmds ds

theorem Straight.runs (pre post : List PimCommand) {cmds : List PimCommand} {ds : List (PimCommand × ℕ)}
    (h : Straight cmds ds) (taken : ℕ → ℕ) :
    Runs (unitStep (pre ++ (cmds ++ post))) ⟨pre.length, taken⟩ ds
      ⟨pre.length + cmds.length, taken⟩ := by
  induction h generalizing pre with
  | nil => exact .refl _
  | @cons c d cmds ds hd _ ih =>
    obtain ⟨rfl, hd⟩ := hd
    have hrest := ih (pre ++ [d.1])
    simp only [List.append_assoc, List.singleton_append, List.length_append, List.length_singleton] at hrest
    rw [List.length_cons, Nat.add_comm cmds.length, ← Nat.add_assoc]
    exact .cons (unitStep_take (by simp) hd) hrest

/-- A counted loop runs its body once more than its counter says. -/
theorem Straight.loop (pre post : List PimCommand) {body : List PimCommand} {ds : List (PimCommand × ℕ)}
    (h : Straight body ds) (k : ℕ) (taken : ℕ → ℕ) (hfresh : taken (pre.length + body.length) = 0) :
    ∃ taken', (∀ i, i ≠ pre.length + body.length → taken' i = taken i) ∧
      Runs (unitStep (pre ++ (body ++ jump .JUMP k (body.length + 1) :: post))) ⟨pre.length, taken⟩
        ((List.range (k + 1)).flatMap fun _ => ds) ⟨pre.length + body.length + 1, taken'⟩ := by
  set j := pre.length + body.length with hj
  set program := pre ++ (body ++ jump .JUMP k (body.length + 1) :: post) with hprogram
  have hat : program[j]? = some (jump .JUMP k (body.length + 1)) := by
    rw [hprogram, hj, List.getElem?_append_right (Nat.le_add_right _ _), Nat.add_sub_cancel_left,
      List.getElem?_append_right (Nat.le_refl _), Nat.sub_self]
    rfl
  have hbody := fun t => h.runs pre (jump .JUMP k (body.length + 1) :: post) (Function.update taken j t)
  have hround : ∀ t, t < k → Runs (unitStep program) ⟨pre.length, Function.update taken j t⟩ ds
      ⟨pre.length, Function.update taken j (t + 1)⟩ := by
    intro t ht
    have hback : jumpTarget j (jump .JUMP k (body.length + 1)) = some pre.length := by
      have heq : (j : ℤ) - ((body.length : ℤ) + 1) + 1 = (pre.length : ℤ) := by
        rw [hj]; push_cast; ring
      simp [jumpTarget, jump, heq]
    have hstep : unitStep program ⟨j, Function.update taken j t⟩ =
        some (.goto ⟨pre.length, Function.update taken j (t + 1)⟩) := by
      have hlt : ((Function.update taken j t j : ℕ) : ℤ) <
          (jump .JUMP k (body.length + 1)).loop_counter_ := by
        simpa [jump] using ht
      simp only [unitStep, hat, hback, if_pos hlt]
      simp [jump, Function.update_idem]
    simpa using (hbody t).trans (.goto hstep)
  have hlast : unitStep program ⟨j, Function.update taken j k⟩ =
      some (.goto ⟨j + 1, Function.update taken j k⟩) := by
    have hge : ¬ ((Function.update taken j k j : ℕ) : ℤ) <
        (jump .JUMP k (body.length + 1)).loop_counter_ := by
      simp [jump]
    simp only [unitStep, hat, if_neg hge]
    simp [jump]
  refine ⟨Function.update taken j k, fun i hi => Function.update_of_ne hi _ _, ?_⟩
  have hstart : taken = Function.update taken j 0 := by rw [← hfresh, Function.update_eq_self]
  have hrounds := Runs.loop (s := fun t => UnitState.mk pre.length (Function.update taken j t))
    (d := fun _ => ds) hround
  rw [← hstart] at hrounds
  rw [List.range_succ, List.flatMap_append, List.flatMap_singleton]
  have hend := (hbody k).trans (.goto hlast)
  rw [List.append_nil] at hend
  exact hrounds.trans hend

end Runs

/-! ### Decoding -/

/-- What is left of a counter or an offset in a field of the word. -/
def field (v : ℤ) (len : ℕ) : ℤ := (Schemes.Word.toUint32 v % 2 ^ len : ℕ)

theorem field_nonneg (v : ℤ) (len : ℕ) : 0 ≤ field v len := Int.natCast_nonneg _

theorem field_eq {v : ℤ} {len : ℕ} (h0 : 0 ≤ v) (h : v < 2 ^ len) (hlen : len ≤ 32) :
    field v len = v := by
  obtain ⟨n, rfl⟩ := Int.eq_ofNat_of_zero_le h0
  have hn : n < 2 ^ len := by exact_mod_cast h
  have hn32 : n < 2 ^ 32 := lt_of_lt_of_le hn (Nat.pow_le_pow_right two_pos hlen)
  rw [field, Schemes.Word.toUint32_natCast hn32, Nat.mod_eq_of_lt hn]

/-- A JUMP decodes to what its two fields hold. -/
theorem from_int_jump (lc off : ℤ) :
    from_int {} (to_int (jump .JUMP lc off)) = jump .JUMP (field lc 17) (field off 11) := by
  have hword : to_int (jump .JUMP lc off) = to_bit 14 4 28 ||| to_bit lc 17 11 |||
    to_bit off 11 0 := rfl
  rw [hword, from_int]
  simp only [from_bit_or, from_bit_to_bit_above, from_bit_to_bit_below, from_bit_to_bit, Nat.reduceAdd,
    Nat.reduceLeDiff, Nat.or_zero, Nat.zero_or]
  rfl

end PimLibrary.Program
