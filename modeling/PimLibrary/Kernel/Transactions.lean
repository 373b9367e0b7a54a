import PimLibrary.Kernel.Gemm

/-! The 32-byte transactions that a thread's commands make on the data buffers.

    A command moves sixteen bytes. They lie in one 32-byte unit of the buffer when the address has been
    split into the halves of a unit, and may lie in two when it has not. In a GEMM kernel a thread makes
    one input and eight weight accesses for each in-tile, first over the even and then over the odd
    ones, and three accesses to its partial sum at the end of each session. -/

namespace PimLibrary.Kernel
open Schemes.Word Schemes.Loop PimLibrary.Device

/-- A 32-byte transaction on a buffer, numbered from the buffer's start. -/
structure Transaction where
  write : Bool
  buf : Buf
  number : ℤ
  deriving DecidableEq, Repr

/-- The sixteen bytes that a command moves, by the address of the first one. -/
structure DataAccess where
  write : Bool
  buf : Buf
  addr : ℤ
  deriving DecidableEq, Repr

/-- One transaction for every unit that the sixteen bytes lie in. -/
def DataAccess.transactions (a : DataAccess) : List Transaction :=
  if (a.addr + 15) / 32 = a.addr / 32 then [⟨a.write, a.buf, a.addr / 32⟩]
  else [⟨a.write, a.buf, a.addr / 32⟩, ⟨a.write, a.buf, (a.addr + 15) / 32⟩]

/-- The buffers that hold operands or partial sums. -/
def Buf.isData : Buf → Bool
  | .input | .weight | .pim_partial_sum => true
  | _ => false

/-- What a command accesses; a `W_CMD_R` reads its source first. -/
def Cmd.accesses : Cmd → List DataAccess
  | .R buf addr => [⟨false, buf, addr⟩]
  | .W buf addr => [⟨true, buf, addr⟩]
  | .WR buf addr (.mem src src_addr) => [⟨false, src, src_addr⟩, ⟨true, buf, addr⟩]
  | .WR buf addr _ => [⟨true, buf, addr⟩]
  | .B _ => []

/-- The data accesses of one thread, in order. -/
def accesses (hipThreadIdx_x : ℕ) (stmts : List Stmt) : List DataAccess :=
  stmts.flatMap fun s =>
    if hipThreadIdx_x < s.active then
      (s.cmd hipThreadIdx_x).accesses.filter fun access => access.buf.isData
    else []

/-- The data transactions of one thread, in order. -/
def transactions (hipThreadIdx_x : ℕ) (stmts : List Stmt) : List Transaction :=
  (accesses hipThreadIdx_x stmts).flatMap DataAccess.transactions

/-! ### Units -/

/-- The sixteen bytes from the address lie in one unit. -/
def OneUnit (addr : ℤ) : Prop := (addr + 15) / 32 = addr / 32

/-- The sixteen bytes from either address lie in the same units. -/
def SameUnits (x y : ℤ) : Prop := x / 32 = y / 32 ∧ (x + 15) / 32 = (y + 15) / 32

theorem oneUnit_add (n : ℤ) {k : ℕ} (hk : k ≤ 16) : OneUnit (32 * n + k) := by
  rw [OneUnit]
  omega

theorem SameUnits.refl (x : ℤ) : SameUnits x x := ⟨rfl, rfl⟩

namespace DataAccess

variable (write : Bool) (buf : Buf)

theorem transactions_eq_iff (x y : ℤ) :
    transactions ⟨write, buf, x⟩ = transactions ⟨write, buf, y⟩ ↔ SameUnits x y := by
  simp only [transactions, SameUnits]
  split_ifs <;> simp <;> omega

theorem transactions_ne_nil (a : DataAccess) : a.transactions ≠ [] := by
  rw [transactions]
  split_ifs <;> simp

theorem transactions_oneUnit {x : ℤ} (hx : OneUnit x) :
    transactions ⟨write, buf, x⟩ = [⟨write, buf, x / 32⟩] := if_pos hx

theorem length_transactions {a : DataAccess} (ha : OneUnit a.addr) : a.transactions.length = 1 :=
  congrArg List.length (transactions_oneUnit a.write a.buf ha)

theorem transactions_twoUnits {x : ℤ} (hx : ¬OneUnit x) :
    transactions ⟨write, buf, x⟩ = [⟨write, buf, x / 32⟩, ⟨write, buf, (x + 15) / 32⟩] := if_neg hx

/-- Where each access of one side lies in a single unit, the transactions agree access by access. -/
theorem flatMap_transactions_eq_iff {l l' : List DataAccess} (hlen : l.length = l'.length)
    (hl : ∀ a ∈ l, OneUnit a.addr) :
    l.flatMap transactions = l'.flatMap transactions ↔ l.map transactions = l'.map transactions := by
  rw [List.flatMap_def, List.flatMap_def]
  refine flatten_eq_flatten_iff (by simpa using hlen) (fun us hus => ?_) fun us hus => ?_
  · obtain ⟨a, ha, rfl⟩ := List.mem_map.mp hus
    exact length_transactions (hl a ha)
  · obtain ⟨a, -, rfl⟩ := List.mem_map.mp hus
    exact a.transactions_ne_nil

end DataAccess

section Accesses

variable (t : ℕ)

@[simp] theorem accesses_nil : accesses t [] = [] := rfl

@[simp] theorem accesses_append (l l' : List Stmt) :
    accesses t (l ++ l') = accesses t l ++ accesses t l' := by
  simp [accesses]

theorem accesses_cons (s : Stmt) (l : List Stmt) :
    accesses t (s :: l) = accesses t [s] ++ accesses t l :=
  accesses_append t [s] l

@[simp] theorem accesses_cons_cons (s s' : Stmt) (l : List Stmt) :
    accesses t (s :: s' :: l) = accesses t [s] ++ accesses t (s' :: l) :=
  accesses_cons t s (s' :: l)

theorem accesses_flatMap {ι : Type*} (l : List ι) (f : ι → List Stmt) :
    accesses t (l.flatMap f) = l.flatMap fun i => accesses t (f i) := by
  induction l with
  | nil => rfl
  | cons i is ih => rw [List.flatMap_cons, accesses_append, ih, List.flatMap_cons]

theorem accesses_map {ι : Type*} (l : List ι) (f : ι → Stmt) :
    accesses t (l.map f) = l.flatMap fun i => accesses t [f i] := by
  rw [List.map_eq_flatMap, accesses_flatMap]

theorem accesses_active {s : Stmt} (ht : t < s.active) :
    accesses t [s] = (s.cmd t).accesses.filter fun access => access.buf.isData := by
  simp [accesses, ht]

/-- Exactly the first `n` threads execute the statements. -/
def Active (n : ℕ) (stmts : List Stmt) : Prop := ∀ s ∈ stmts, s.active = n

@[simp] theorem active_nil (n : ℕ) : Active n [] := by simp [Active]

@[simp] theorem active_cons (n : ℕ) (s : Stmt) (l : List Stmt) : Active n (s :: l) ↔ s.active = n ∧
    Active n l := by
  simp [Active]

@[simp] theorem active_append (n : ℕ) (l l' : List Stmt) : Active n (l ++ l') ↔ Active n l ∧
    Active n l' := by
  simp only [Active, List.mem_append, or_imp, forall_and]

@[simp] theorem active_map {ι : Type*} (n : ℕ) (l : List ι) (f : ι → Stmt) :
    Active n (l.map f) ↔ ∀ i ∈ l, (f i).active = n := by
  simp [Active]

@[simp] theorem active_flatMap {ι : Type*} (n : ℕ) (l : List ι) (f : ι → List Stmt) :
    Active n (l.flatMap f) ↔ ∀ i ∈ l, Active n (f i) := by
  simp only [Active, List.mem_flatMap, forall_exists_index, and_imp]
  exact ⟨fun h i hi s hs => h s i hi hs, fun h s i hi hs => h i hi s hs⟩

theorem Active.accesses {n : ℕ} {stmts : List Stmt} (h : Active n stmts) (ht : n ≤ t) :
    accesses t stmts = [] := by
  refine List.flatMap_eq_nil_iff.mpr fun s hs => if_neg ?_
  rw [h s hs]
  exact Nat.not_lt.mpr ht

/-! ### Control rows -/

@[simp] theorem accesses_B_CMD (n type : ℕ) : accesses t [B_CMD n type] = [] := by
  simp [accesses, B_CMD, Cmd.accesses]

@[simp] theorem accesses_R_CMD_ctr (n : ℕ) (a : ℕ → ℤ) :
    accesses t [R_CMD n .pim_ctr a] = [] := by
  simp [accesses, R_CMD, Cmd.accesses, Buf.isData]

@[simp] theorem accesses_W_CMD_ctr (n : ℕ) (a : ℕ → ℤ) :
    accesses t [W_CMD n .pim_ctr a] = [] := by
  simp [accesses, W_CMD, Cmd.accesses, Buf.isData]

@[simp] theorem accesses_crf (n : ℕ) (a : ℕ → ℤ) (src : ℕ → ℕ) :
    accesses t [W_CMD_R n .pim_ctr a fun t => .crf_binary (src t)] = [] := by
  simp [accesses, W_CMD_R, Cmd.accesses, Buf.isData]

@[simp] theorem accesses_enter (n : ℕ) (a : ℕ → ℤ) :
    accesses t [W_CMD_R n .pim_ctr a fun _ => .gemv_hab_to_hab_pim] = [] := by
  simp [accesses, W_CMD_R, Cmd.accesses, Buf.isData]

@[simp] theorem accesses_leave (n : ℕ) (a : ℕ → ℤ) :
    accesses t [W_CMD_R n .pim_ctr a fun _ => .hab_pim_to_hab] = [] := by
  simp [accesses, W_CMD_R, Cmd.accesses, Buf.isData]

theorem accesses_park_in (ch n : ℕ) : accesses t (park_in ch n) = [] := by simp [park_in]

theorem accesses_change_sb_hab (ch n : ℕ) : accesses t (change_sb_hab ch n) =
    [] := by simp [change_sb_hab]

theorem accesses_program_crf_mod (ch n : ℕ) : accesses t (program_crf_mod ch n) = [] := by
  simp [program_crf_mod]

theorem accesses_change_habpim_hab (ch n : ℕ) : accesses t (change_habpim_hab ch n) = [] := by
  simp [change_habpim_hab]

theorem accesses_change_hab_sb (ch n : ℕ) : accesses t (change_hab_sb ch n) =
    [] := by simp [change_hab_sb]

theorem accesses_park_out (ch n : ℕ) : accesses t (park_out ch n) = [] := by simp [park_out]

end Accesses

/-! ### The accesses of a GEMM kernel -/

/-- The address of every data access that a thread makes, by the loop indices: iteration, input row,
    output tile, bank, in-tile of the bank, and weight of the in-tile. -/
structure GemmAddrs where
  input (b r bk i : ℕ) : ℤ
  weight (b r o bk i j : ℕ) : ℤ
  sum (b r o : ℕ) : ℤ

namespace GemmAddrs

variable (a : GemmAddrs)

def tile (b r o bk i : ℕ) : List DataAccess :=
  ⟨false, .input, a.input b r bk i⟩ :: (List.range 8).map fun j =>
    ⟨false, .weight, a.weight b r o bk i j⟩

def writeOut (b r o : ℕ) : List DataAccess :=
  [⟨true, .pim_partial_sum, a.sum b r o⟩, ⟨true, .pim_partial_sum, a.sum b r o⟩,
    ⟨false, .pim_partial_sum, a.sum b r o⟩]

def session (pairs b r o : ℕ) : List DataAccess :=
  ((List.range 2).flatMap fun bk => (List.range pairs).flatMap (a.tile b r o bk)) ++ a.writeOut b r o

/-- A whole run over `iters` iterations, `rows` input rows, `outs` output tiles and `pairs` in-tiles of
    each bank. -/
def run (iters rows outs pairs : ℕ) : List DataAccess :=
  (List.range iters).flatMap fun b => (List.range rows).flatMap fun r =>
    (List.range outs).flatMap (a.session pairs b r)

end GemmAddrs

namespace GemmAddrs

variable (a a' : GemmAddrs)

/-- Every two accesses of a run lie in the same units. -/
def SameRun (iters rows outs pairs : ℕ) : Prop :=
  ∀ b < iters, ∀ r < rows, ∀ o < outs,
    (∀ bk < 2, ∀ i < pairs, SameUnits (a.input b r bk i) (a'.input b r bk i) ∧
      ∀ j < 8, SameUnits (a.weight b r o bk i j) (a'.weight b r o bk i j)) ∧
        SameUnits (a.sum b r o) (a'.sum b r o)

theorem tile_units_iff (b r o bk i : ℕ) : (a.tile b r o bk i).map DataAccess.transactions =
    (a'.tile b r o bk i).map DataAccess.transactions ↔
    SameUnits (a.input b r bk i) (a'.input b r bk i) ∧
      ∀ j < 8, SameUnits (a.weight b r o bk i j) (a'.weight b r o bk i j) := by
  simp only [tile, List.map_cons, List.map_map, List.cons.injEq, DataAccess.transactions_eq_iff,
    List.map_inj_left, List.mem_range, Function.comp_apply]

theorem length_tile (b r o bk i : ℕ) : (a.tile b r o bk i).length = 9 := by simp [tile]

theorem session_units_iff (pairs b r o : ℕ) : (a.session pairs b r o).map DataAccess.transactions =
    (a'.session pairs b r o).map DataAccess.transactions ↔
    (∀ bk < 2, ∀ i < pairs, (a.tile b r o bk i).map DataAccess.transactions =
      (a'.tile b r o bk i).map DataAccess.transactions) ∧ SameUnits (a.sum b r o) (a'.sum b r o) := by
  have hbank : ∀ bk, ((List.range pairs).flatMap fun i =>
      (a.tile b r o bk i).map DataAccess.transactions).length =
      ((List.range pairs).flatMap fun i => (a'.tile b r o bk i).map DataAccess.transactions).length := by
    intro bk
    simp only [List.length_flatMap, List.length_map, length_tile]
  have hout : (a.writeOut b r o).map DataAccess.transactions =
      (a'.writeOut b r o).map DataAccess.transactions ↔
      SameUnits (a.sum b r o) (a'.sum b r o) := by
    simp [writeOut, DataAccess.transactions_eq_iff]
  simp only [session, List.map_append, List.map_flatMap, ← hout]
  constructor
  · intro heq
    obtain ⟨htiles, hsum⟩ := List.append_inj' heq rfl
    refine ⟨fun bk hbk i hi => ?_, hsum⟩
    have hbk := (flatMap_eq_flatMap_iff fun bk _ => hbank bk).mp htiles bk (List.mem_range.mpr hbk)
    exact (flatMap_eq_flatMap_iff fun i _ => by simp only [List.length_map, length_tile]).mp hbk i
      (List.mem_range.mpr hi)
  · rintro ⟨htiles, hsum⟩
    rw [hsum]
    congr 1
    refine List.flatMap_congr fun bk hbk => List.flatMap_congr fun i hi => ?_
    exact htiles bk (List.mem_range.mp hbk) i (List.mem_range.mp hi)

theorem length_session (pairs b r o : ℕ) : (a.session pairs b r o).length =
    (a'.session pairs b r o).length := by
  simp only [session, writeOut, List.length_append, List.length_flatMap, length_tile, List.length_cons]

theorem length_run (iters rows outs pairs : ℕ) : (a.run iters rows outs pairs).length =
    (a'.run iters rows outs pairs).length := by
  simp only [run, List.length_flatMap, length_session a a']

theorem run_units_iff (iters rows outs pairs : ℕ) :
    (a.run iters rows outs pairs).map DataAccess.transactions =
      (a'.run iters rows outs pairs).map DataAccess.transactions ↔ a.SameRun a' iters rows outs pairs := by
  have hsession : ∀ b r o, ((a.session pairs b r o).map DataAccess.transactions).length =
      ((a'.session pairs b r o).map DataAccess.transactions).length := by
    intro b r o
    rw [List.length_map, List.length_map, length_session a a']
  have hrow : ∀ b r, ((List.range outs).flatMap fun o =>
      (a.session pairs b r o).map DataAccess.transactions).length =
      ((List.range outs).flatMap fun o => (a'.session pairs b r o).map DataAccess.transactions).length := by
    intro b r
    simp only [List.length_flatMap (l := List.range outs), hsession]
  have hiter : ∀ b, ((List.range rows).flatMap fun r => (List.range outs).flatMap fun o =>
      (a.session pairs b r o).map DataAccess.transactions).length =
      ((List.range rows).flatMap fun r => (List.range outs).flatMap fun o =>
        (a'.session pairs b r o).map DataAccess.transactions).length := by
    intro b
    simp only [List.length_flatMap (l := List.range rows), hrow]
  simp only [run, List.map_flatMap]
  rw [flatMap_eq_flatMap_iff fun b _ => hiter b]
  simp only [flatMap_eq_flatMap_iff fun r _ => hrow _ r, flatMap_eq_flatMap_iff fun o _ =>
    hsession .., session_units_iff, tile_units_iff, List.mem_range, SameRun]

theorem mem_run {iters rows outs pairs : ℕ} {access : DataAccess}
    (h : access ∈ a.run iters rows outs pairs) :
    (∃ b r bk i, access.addr = a.input b r bk i) ∨
      (∃ b r o bk i, ∃ j < 8, access.addr = a.weight b r o bk i j) ∨
      ∃ b r o, access.addr = a.sum b r o := by
  simp only [run, session, tile, writeOut, List.mem_flatMap, List.mem_append, List.mem_cons,
    List.mem_map, List.mem_range, List.not_mem_nil, or_false] at h
  obtain ⟨b, -, r, -, o, -, ⟨bk, -, i, -, rfl | ⟨j, hj, rfl⟩⟩ | rfl | rfl | rfl⟩ := h
  · exact .inl ⟨b, r, bk, i, rfl⟩
  · exact .inr (.inl ⟨b, r, o, bk, i, j, hj, rfl⟩)
  all_goals exact .inr (.inr ⟨b, r, o, rfl⟩)

/-- Where one run keeps every access in one unit, two runs make the same transactions exactly when
    every two accesses lie in the same units. -/
theorem run_transactions_iff {iters rows outs pairs : ℕ}
    (hinput : ∀ b r bk i, OneUnit (a.input b r bk i))
    (hweight : ∀ b r o bk i, ∀ j < 8, OneUnit (a.weight b r o bk i j))
    (hsum : ∀ b r o, OneUnit (a.sum b r o)) :
    (a.run iters rows outs pairs).flatMap DataAccess.transactions =
      (a'.run iters rows outs pairs).flatMap DataAccess.transactions ↔
    a.SameRun a' iters rows outs pairs := by
  rw [← run_units_iff]
  refine DataAccess.flatMap_transactions_eq_iff (length_run a a' ..) fun access h => ?_
  rcases a.mem_run h with ⟨b, r, bk, i, heq⟩ | ⟨b, r, o, bk, i, j, hj, heq⟩ | ⟨b, r, o, heq⟩
  · rw [heq]
    exact hinput b r bk i
  · rw [heq]
    exact hweight b r o bk i j hj
  · rw [heq]
    exact hsum b r o

/-- The first session comes first. -/
theorem run_eq_append {iters rows outs : ℕ} (hiters : 1 ≤ iters) (hrows : 1 ≤ rows) (houts : 1 ≤ outs)
    (pairs : ℕ) : ∃ rest, a.run iters rows outs pairs = a.session pairs 0 0 0 ++ rest := by
  obtain ⟨iters, rfl⟩ := Nat.exists_eq_add_of_le' hiters
  obtain ⟨rows, rfl⟩ := Nat.exists_eq_add_of_le' hrows
  obtain ⟨outs, rfl⟩ := Nat.exists_eq_add_of_le' houts
  simp only [run, List.range_succ_eq_map, List.flatMap_cons, List.append_assoc]
  exact ⟨_, rfl⟩

/-- The tiles of the first session. -/
def firstTiles (pairs : ℕ) : List DataAccess :=
  (List.range 2).flatMap fun bk => (List.range pairs).flatMap (a.tile 0 0 0 bk)

/-- A partial sum that lies in two units is seen in the first session. -/
theorem run_transactions_ne {iters rows outs pairs : ℕ} (hiters : 1 ≤ iters) (hrows : 1 ≤ rows)
    (houts : 1 ≤ outs) (htiles : ∀ access ∈ a.firstTiles pairs, OneUnit access.addr)
    (htiles' : ∀ access ∈ a'.firstTiles pairs, OneUnit access.addr)
    (hsum : ¬OneUnit (a.sum 0 0 0)) (hsum' : OneUnit (a'.sum 0 0 0)) :
    (a.run iters rows outs pairs).flatMap DataAccess.transactions ≠
      (a'.run iters rows outs pairs).flatMap DataAccess.transactions := by
  obtain ⟨rest, hrun⟩ := a.run_eq_append hiters hrows houts pairs
  obtain ⟨rest', hrun'⟩ := a'.run_eq_append hiters hrows houts pairs
  have hlength : ∀ {l : List DataAccess}, (∀ access ∈ l, OneUnit access.addr) →
      (l.flatMap DataAccess.transactions).length = l.length := by
    intro l hl
    rw [length_flatMap_const fun access h => DataAccess.length_transactions (hl access h), Nat.mul_one]
  have hlen : (a.firstTiles pairs).length = (a'.firstTiles pairs).length := by
    simp only [firstTiles, List.length_flatMap, length_tile]
  intro heq
  simp only [hrun, hrun', session, List.append_assoc, List.flatMap_append] at heq
  have hrest := (List.append_inj heq
    (by rw [← firstTiles, ← firstTiles, hlength htiles, hlength htiles', hlen])).2
  simp only [writeOut, List.cons_append, List.flatMap_cons, DataAccess.transactions_oneUnit _ _ hsum',
    DataAccess.transactions_twoUnits _ _ hsum] at hrest
  -- the second transaction is the next unit on one side and the same unit again on the other
  simp only [List.cons_append, List.nil_append, List.cons.injEq, Transaction.mk.injEq, true_and]
    at hrest
  exact hsum (hrest.2.1.trans hrest.1.symm)

end GemmAddrs

end PimLibrary.Kernel
