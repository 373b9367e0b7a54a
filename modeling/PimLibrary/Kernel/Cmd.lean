import PimLibrary.Device.AddrMap

/-! The memory commands a kernel issues, and the column commands a PIM unit sees.

    A source-level `R_CMD`, `W_CMD` or `W_CMD_R` is executed by an even number of threads. Threads
    `2g` and `2g + 1` access the two 16-byte halves of one 32-byte transaction, so the statement is one
    column command for each pair, in the order of `gidx`. A PIM unit runs its program on the column
    commands to data rows between a switch to HAB_PIM mode and the switch back. -/

namespace PimLibrary.Kernel
open Schemes.Word PimLibrary.Device

/-- The pointer arguments that commands access. -/
inductive Buf where
  | pim_ctr | input | weight | pim_partial_sum | operand0 | operand1 | pim_data | output
  deriving DecidableEq, Repr

/-- What a `W_CMD_R` writes: memory, or one of the constant tables. -/
inductive Src where
  | mem (buf : Buf) (addr : ℤ)
  | hab_pim_to_hab | hab_to_hab_pim | gemv_hab_to_hab_pim
  | crf_binary (offset : ℕ)
  | srf_binary (offset : ℕ)
  deriving DecidableEq, Repr

/-- One thread's command; addresses are byte offsets from the buffer's start. -/
inductive Cmd where
  | R (buf : Buf) (addr : ℤ)
  | W (buf : Buf) (addr : ℤ)
  | WR (buf : Buf) (addr : ℤ) (src : Src)
  | B (type : ℕ)
  deriving DecidableEq, Repr

/-- A statement that the threads `hipThreadIdx_x < active` execute together. -/
structure Stmt where
  active : ℕ
  cmd : ℕ → Cmd

def gidx (hipThreadIdx_x : ℕ) : ℕ := hipThreadIdx_x / 2

/-- The half of the transaction that the thread accesses. -/
def offset (hipThreadIdx_x : ℕ) : ℕ := hipThreadIdx_x % 2 * 16

/-- `R_CMD(&buf[addr + offset])`. -/
def R_CMD (active : ℕ) (buf : Buf) (addr : ℕ → ℤ) : Stmt :=
  ⟨active, fun t => .R buf (addr t + offset t)⟩

def W_CMD (active : ℕ) (buf : Buf) (addr : ℕ → ℤ) : Stmt :=
  ⟨active, fun t => .W buf (addr t + offset t)⟩

def W_CMD_R (active : ℕ) (buf : Buf) (addr : ℕ → ℤ) (src : ℕ → Src) : Stmt :=
  ⟨active, fun t => .WR buf (addr t + offset t) (src t)⟩

def B_CMD (active type : ℕ) : Stmt := ⟨active, fun _ => .B type⟩

/-! ### Common steps -/

section Common

variable (ch active : ℕ)

def park_in : List Stmt :=
  [W_CMD active .pim_ctr fun t => addr_gen ch 0 (gidx t / 4) (gidx t % 4) (1 <<< 13) 0, B_CMD active 1]

def change_sb_hab : List Stmt :=
  [W_CMD active .pim_ctr fun _ => addr_gen ch 0 2 0 0x27ff 0x1f, B_CMD active 1,
    W_CMD active .pim_ctr fun _ => addr_gen ch 0 2 1 0x27ff 0x1f, B_CMD active 1,
    W_CMD active .pim_ctr fun _ => addr_gen ch 0 0 0 0x27ff 0x1f, B_CMD active 1,
    W_CMD active .pim_ctr fun _ => addr_gen ch 0 0 1 0x27ff 0x1f, B_CMD active 1]

def program_crf : List Stmt :=
  [W_CMD_R active .pim_ctr (fun t => addr_gen ch 0 0 1 0x3fff (0x4 + gidx t)) fun t =>
    .crf_binary (offset t)]

def program_crf_mod : List Stmt :=
  [W_CMD_R active .pim_ctr (fun t => addr_gen ch 0 0 1 0x3fff (0x4 + gidx t)) fun t =>
    .crf_binary (t <<< 4), R_CMD active .pim_ctr fun t => addr_gen ch 0 0 1 0x3fff (0x4 + gidx t),
      B_CMD active 1]

def program_srf : List Stmt :=
  [W_CMD_R active .pim_ctr (fun _ => addr_gen ch 0 0 0 0x3fff 0x0 + 32) fun t => .srf_binary (offset t)]

def change_hab_habpim : List Stmt :=
  [W_CMD_R active .pim_ctr (fun _ => addr_gen ch 0 0 0 0x3fff 0x0) fun _ => .hab_to_hab_pim,
    R_CMD active .pim_ctr fun _ => addr_gen ch 0 0 0 0x3fff 0x0]

def change_habpim_hab : List Stmt :=
  [W_CMD_R active .pim_ctr (fun _ => addr_gen ch 0 0 0 0x3fff 0x0) fun _ => .hab_pim_to_hab,
    R_CMD active .pim_ctr fun _ => addr_gen ch 0 0 0 0x3fff 0x0, B_CMD active 1]

def change_hab_sb : List Stmt :=
  [W_CMD active .pim_ctr fun t => addr_gen ch 0 0 (gidx t) 0x2fff 0x1f,
    R_CMD active .pim_ctr fun t => addr_gen ch 0 0 (gidx t) 0x2fff 0x1f, B_CMD active 1]

def park_out : List Stmt :=
  [W_CMD active .pim_ctr fun t => addr_gen ch 0 (gidx t / 4) (gidx t % 4) (1 <<< 13) 0]

end Common

/-! ### What the PIM unit sees -/

/-- The column commands of a statement, one for each pair of threads. -/
def Stmt.columns (s : Stmt) : List Cmd := (List.range (s.active / 2)).map fun g => s.cmd (2 * g)

def columns (stmts : List Stmt) : List Cmd := stmts.flatMap Stmt.columns

/-- The row bits of an address. -/
def rowOf (addr : ℤ) : ℤ := addr / 2 ^ 20

/-- An access to the control row `0x3fff`. -/
def Cmd.isControl : Cmd → Bool
  | .R .pim_ctr addr | .W .pim_ctr addr | .WR .pim_ctr addr _ => rowOf addr = 0x3fff
  | _ => false

/-- The mode a write to the control row selects: HAB_PIM or HAB. -/
def Cmd.modeWrite : Cmd → Option Bool
  | .WR .pim_ctr _ .hab_to_hab_pim | .WR .pim_ctr _ .gemv_hab_to_hab_pim => some true
  | .WR .pim_ctr _ .hab_pim_to_hab => some false
  | _ => none

/-- A column command that advances the program: an access to a data row. -/
def Cmd.isData : Cmd → Bool
  | .B _ => false
  | c => !c.isControl

/-- The data-row column commands of each stay in HAB_PIM mode. The first argument holds the ones of
    the current stay, if there is one. -/
def habPimSessions : Option (List Cmd) → List Cmd → List (List Cmd)
  | none, [] => []
  | some cur, [] => [cur]
  | none, c :: cs => habPimSessions (if c.modeWrite = some true then some [] else none) cs
  | some cur, c :: cs =>
    if c.modeWrite = some false then cur :: habPimSessions none cs
    else habPimSessions (some (if c.isData then cur ++ [c] else cur)) cs

/-- Outside HAB_PIM mode nothing counts until it is entered. -/
theorem habPimSessions_idle {cs rest : List Cmd} (h : ∀ c ∈ cs, c.modeWrite ≠ some true) :
    habPimSessions none (cs ++ rest) = habPimSessions none rest := by
  induction cs with
  | nil => rfl
  | cons c cs ih =>
    rw [List.cons_append, habPimSessions, if_neg (h c (by simp)),
      ih fun c' hc' => h c' (List.mem_cons_of_mem _ hc')]

/-- In HAB_PIM mode the data-row commands accumulate until the mode is left. -/
theorem habPimSessions_stay {cur cs rest : List Cmd} (h : ∀ c ∈ cs, c.modeWrite ≠ some false) :
    habPimSessions (some cur) (cs ++ rest) =
      habPimSessions (some (cur ++ cs.filter Cmd.isData)) rest := by
  induction cs generalizing cur with
  | nil => simp
  | cons c cs ih =>
    rw [List.cons_append, habPimSessions, if_neg (h c (by simp)),
      ih fun c' hc' => h c' (List.mem_cons_of_mem _ hc')]
    rcases hd : c.isData with - | - <;> simp [hd]

/-- One stay: enter, run, leave. -/
theorem habPimSessions_session {enter leave : Cmd} {cs rest : List Cmd}
    (hin : enter.modeWrite = some true) (hcs : ∀ c ∈ cs, c.modeWrite ≠ some false)
    (hout : leave.modeWrite = some false) :
    habPimSessions none (enter :: (cs ++ leave :: rest)) =
      cs.filter Cmd.isData :: habPimSessions none rest := by
  rw [habPimSessions, if_pos hin, habPimSessions_stay hcs, habPimSessions, if_pos hout, List.nil_append]

end PimLibrary.Kernel
