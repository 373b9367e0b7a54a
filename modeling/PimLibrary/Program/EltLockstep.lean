import PimLibrary.Kernel.EltOp
import PimLibrary.Program.PimUnit

/-! The element-wise programs against their kernels.

    One round of a program's loop consumes one tile: the tile's statements fall into consecutive
    groups, one for each instruction, of the length it consumes and from the bank it reads. The counted
    loop of the program then matches the loop of the kernel round by round. -/

namespace PimLibrary.Program
open Schemes.Lockstep Schemes.Loop PimLibrary.Kernel PimLibrary.Device PimLibrary.Program.PimCommand

/-! ### Covering instructions by statements -/

/-- The instruction consumes exactly the data columns of the statements, from the right bank. -/
structure Covers (c : PimCommand) (stmts : List Stmt) : Prop where
  demand : demand c = some (dataColumns stmts).length
  accepts : ∀ x ∈ dataColumns stmts, Accepts c x

theorem feeds_of_covers {cmds : List PimCommand} {groups : List (List Stmt)}
    (h : List.Forall₂ Covers cmds groups) :
    Straight cmds (cmds.zip (groups.map fun g => (dataColumns g).length)) ∧
      Feeds Accepts (cmds.zip (groups.map fun g => (dataColumns g).length))
        (dataColumns groups.flatten) := by
  induction h with
  | nil => exact ⟨.nil, .nil⟩
  | cons hc _ ih =>
    refine ⟨.cons ⟨rfl, hc.demand⟩ ih.1, ?_⟩
    rw [List.flatten_cons, dataColumns_append]
    exact .cons rfl hc.accepts ih.2

@[simp] theorem length_dataColumns_B (n type : ℕ) (l : List Stmt) :
    (dataColumns (B_CMD n type :: l)).length = (dataColumns l).length := by
  rw [dataColumns_cons, (idle_B_CMD n type).dataColumns, List.nil_append]

@[simp] theorem length_dataColumns_R {buf : Buf} (h : buf ≠ .pim_ctr) (n : ℕ) (a : ℕ → ℤ)
    (l : List Stmt) :
    (dataColumns (R_CMD n buf a :: l)).length = n / 2 + (dataColumns l).length := by
  rw [dataColumns_cons, dataColumns_R_CMD h]
  simp

@[simp] theorem length_dataColumns_W {buf : Buf} (h : buf ≠ .pim_ctr) (n : ℕ) (a : ℕ → ℤ)
    (l : List Stmt) :
    (dataColumns (W_CMD n buf a :: l)).length = n / 2 + (dataColumns l).length := by
  rw [dataColumns_cons, dataColumns_W_CMD h]
  simp

/-! ### Banks -/

/-- The low bank bit of an address is its bit 13. -/
theorem bank_of_addr_gen (ch bank col o : ℕ) {row : ℕ} (hrow : row < 2 ^ 32) (ho : o < 32) :
    ((addr_gen ch 0 0 bank row col : ℕ) + (o : ℤ)) / 2 ^ 13 % 2 = ((bank % 2 : ℕ) : ℤ) := by
  have hlow : col % 2 + 2 * (ch % 2) + 4 * (col / 2 % 2) + 8 * (ch / 2 % 32) < 256 := by omega
  rw [addr_gen_eq _ _ _ _ _ (by norm_num) hrow, transaction]
  generalize col % 2 + 2 * (ch % 2) + 4 * (col / 2 % 2) + 8 * (ch / 2 % 32) = low at hlow
  generalize col / 4 % 8 = high
  generalize bank / 2 % 2 = b
  push_cast
  omega

theorem bank_of_addr_even (ch i t : ℕ) : (addr_even ch i t + offset t) / 2 ^ 13 % 2 = 0 := by
  have hrow : Schemes.Word.uint32 (i * 8 + gidx t) / 32 < 2 ^ 32 :=
    lt_of_le_of_lt (Nat.div_le_self _ _) (Schemes.Word.uint32_lt _)
  have h := bank_of_addr_gen ch 0 (Schemes.Word.uint32 (i * 8 + gidx t) % 32) (offset t) hrow
    (offset_lt t)
  simpa [addr_even] using h

theorem bank_of_addr_odd (ch i t : ℕ) : (addr_odd ch i t + offset t) / 2 ^ 13 % 2 = 1 := by
  have h := bank_of_addr_even ch i t
  rw [addr_odd]
  omega

theorem accepts_free {c : PimCommand} (he : ¬ c.Sources .EVEN_BANK) (ho : ¬ c.Sources .ODD_BANK)
    (x : Cmd) :
    Accepts c x :=
  ⟨fun h => absurd h he, fun h => absurd h ho⟩

theorem covers_free {c : PimCommand} {stmts : List Stmt}
    (hd : PimCommand.demand c = some (dataColumns stmts).length)
    (he : ¬ c.Sources .EVEN_BANK) (ho : ¬ c.Sources .ODD_BANK) : Covers c stmts :=
  ⟨hd, fun x _ => accepts_free he ho x⟩

/-- One statement of reads on a data buffer, followed by barriers only. -/
theorem covers_read {c : PimCommand} {buf : Buf} (hbuf : buf ≠ .pim_ctr) {a : ℕ → ℤ}
    (hd : PimCommand.demand c = some 8)
    (ha : ∀ t, Accepts c (.R buf (a t + offset t))) : Covers c [R_CMD 16 buf a, B_CMD 16 1] := by
  refine ⟨by simp [hd, hbuf], fun x hx => ?_⟩
  rw [dataColumns_cons, dataColumns_R_CMD hbuf, (idle_B_CMD 16 1).dataColumns, List.append_nil] at hx
  obtain ⟨g, -, rfl⟩ := List.mem_map.mp hx
  exact ha _

theorem covers_even {c : PimCommand} {buf : Buf} (hbuf : buf ≠ .pim_ctr)
    (hd : PimCommand.demand c = some 8)
    (ho : ¬ c.Sources .ODD_BANK) (ch i : ℕ) : Covers c [R_CMD 16 buf (addr_even ch i), B_CMD 16 1] :=
  covers_read hbuf hd fun t => ⟨fun _ => bank_of_addr_even ch i t, fun h => absurd h ho⟩

theorem covers_odd {c : PimCommand} {buf : Buf} (hbuf : buf ≠ .pim_ctr)
    (hd : PimCommand.demand c = some 8)
    (he : ¬ c.Sources .EVEN_BANK) (ch i : ℕ) : Covers c [R_CMD 16 buf (addr_odd ch i), B_CMD 16 1] :=
  covers_read hbuf hd fun t => ⟨fun h => absurd h he, fun _ => bank_of_addr_odd ch i t⟩

/-! ### Looped programs -/

/-- A program that loops over its body and a kernel that loops over tiles the body covers. -/
theorem runsToExit_of_tiles {body : List PimCommand} {groups : ℕ → List (List Stmt)}
    (post : List PimCommand) (k : ℕ)
    (h : ∀ i, List.Forall₂ Covers body (groups i))
    (hlen : ∀ i, (groups i).map (fun g => (dataColumns g).length) = (groups 0).map fun g =>
      (dataColumns g).length) :
    RunsToExit (body ++ jump .JUMP k (body.length + 1) :: ctrl .EXIT 0 :: post)
      ((List.range (k + 1)).flatMap fun i => dataColumns (groups i).flatten) := by
  have hfeed : Feeds Accepts
      ((List.range (k + 1)).flatMap fun _ => body.zip ((groups 0).map fun g => (dataColumns g).length))
      ((List.range (k + 1)).flatMap fun i => dataColumns (groups i).flatten) := by
    refine Feeds.flatMap fun i _ => ?_
    rw [← hlen i]
    exact (feeds_of_covers (h i)).2
  obtain ⟨taken, -, hruns⟩ :=
    (feeds_of_covers (h 0)).1.loop [] (ctrl .EXIT 0 :: post) k (fun _ => 0) rfl
  refine Runs.lockstep hruns ?_ hfeed
  simp [unitStep, ctrl]

/-! ### Launches -/

/-- A launch of one of the kernels. -/
inductive EltLaunch where
  | add (num_tile : ℤ)
  | mul (num_tile : ℤ)
  | relu (size : ℤ)
  | copy (size : ℤ)
  | bn (num_tile : ℤ) (crf_size : ℕ)

namespace EltLaunch

def op_type : EltLaunch → PimOpType
  | add _ => .OP_ELT_ADD
  | mul _ => .OP_ELT_MUL
  | relu _ => .OP_RELU
  | copy _ => .OP_COPY
  | bn _ _ => .OP_BN

/-- The kernel's loop bound. -/
def num_tile : EltLaunch → ℤ
  | add num_tile | mul num_tile | bn num_tile _ => num_tile
  | relu size | copy size => size_tiles size

def kernel : EltLaunch → ℕ → List Stmt
  | add num_tile | mul num_tile => elt_op_pim num_tile
  | relu size => relu_pim size
  | copy size => copy_pim size
  | bn num_tile crf_size => bn_pim_nr_sip num_tile crf_size

/-- One round of the kernel's loop. -/
def tile : EltLaunch → ℕ → ℕ → List Stmt
  | add _ | mul _ => elt_op_tile
  | relu _ | copy _ => move_tile
  | bn _ _ => bn_tile

theorem sessions (l : EltLaunch) (ch : ℕ) : habPimSessions none (columns (l.kernel ch)) =
    [(List.range l.num_tile.toNat).flatMap fun i => dataColumns (l.tile ch i)] := by
  cases l with
  | add num_tile => exact crf_kernel_sessions silent_elt_op_tile num_tile ch
  | mul num_tile => exact crf_kernel_sessions silent_elt_op_tile num_tile ch
  | relu size => exact crf_kernel_sessions silent_move_tile (size_tiles size) ch
  | copy size => exact crf_kernel_sessions silent_move_tile (size_tiles size) ch
  | bn num_tile crf_size => exact bn_pim_nr_sip_sessions num_tile crf_size ch

/-- The statements of a round, instruction by instruction. -/
def groups (l : EltLaunch) (ch i : ℕ) : List (List Stmt) :=
  let e := addr_even ch i
  let o := addr_odd ch i
  let read (buf : Buf) (a : ℕ → ℤ) := [R_CMD 16 buf a, B_CMD 16 1]
  match l with
  | add _ | mul _ =>
    [read .operand0 e, read .operand1 e,
      [W_CMD 16 .output e, W_CMD 16 .output e, R_CMD 16 .output e, B_CMD 16 1],
      read .operand0 o, read .operand1 o,
      [W_CMD 16 .output o, W_CMD 16 .output o, R_CMD 16 .output o, B_CMD 16 1]]
  | relu _ | copy _ =>
    [read .pim_data e, [W_CMD 16 .output e, R_CMD 16 .output e, B_CMD 16 1],
      read .pim_data o, [W_CMD 16 .output o, R_CMD 16 .output o, B_CMD 16 1]]
  | bn _ _ =>
    [read .pim_data e, read .pim_data e, read .pim_data e, read .pim_data e,
      read .pim_data o, read .pim_data o, read .pim_data o,
      [W_CMD 16 .output e, B_CMD 16 1, W_CMD 16 .output o, R_CMD 16 .output o, B_CMD 16 1]]

theorem groups_flatten (l : EltLaunch) (ch i : ℕ) : (l.groups ch i).flatten = l.tile ch i := by
  cases l <;> rfl

theorem groups_lengths (l : EltLaunch) (ch i : ℕ) :
    (l.groups ch i).map (fun g => (dataColumns g).length) =
      (l.groups ch 0).map fun g => (dataColumns g).length := by
  cases l <;> simp [groups]

/-- The loop body that the unit decodes. -/
def body (l : EltLaunch) : List PimCommand := (assign_cmds false [] l.op_type 0).map fun c =>
    from_int {} (to_int c)

theorem covers (l : EltLaunch) (ch i : ℕ) : List.Forall₂ Covers l.body (l.groups ch i) := by
  cases l with
  | add _ | mul _ =>
    refine .cons (covers_even (by decide) (by decide) (by decide) ch i) <|
      .cons (covers_even (by decide) (by decide) (by decide) ch i) <|
      .cons (covers_free ?_ (by decide) (by decide)) <|
      .cons (covers_odd (by decide) (by decide) (by decide) ch i) <|
      .cons (covers_odd (by decide) (by decide) (by decide) ch i) <|
      .cons (covers_free ?_ (by decide) (by decide)) .nil
    all_goals simp; decide
  | relu _ | copy _ =>
    refine .cons (covers_even (by decide) (by decide) (by decide) ch i) <|
      .cons (covers_free ?_ (by decide) (by decide)) <|
      .cons (covers_odd (by decide) (by decide) (by decide) ch i) <|
      .cons (covers_free ?_ (by decide) (by decide)) .nil
    all_goals simp; decide
  | bn _ _ =>
    refine .cons (covers_even (by decide) (by decide) (by decide) ch i) <|
      .cons (covers_free ?_ (by decide) (by decide)) <|
      .cons (covers_free ?_ (by decide) (by decide)) <|
      .cons (covers_free ?_ (by decide) (by decide)) <|
      .cons (covers_odd (by decide) (by decide) (by decide) ch i) <|
      .cons (covers_free ?_ (by decide) (by decide)) <|
      .cons (covers_free ?_ (by decide) (by decide)) <|
      .cons (covers_free ?_ (by decide) (by decide)) .nil
    all_goals simp; decide

/-- What the unit loads: the body, the JUMP over it, EXIT and padding. -/
theorem loaded_eq (l : EltLaunch) (is_gemv_tile_tree_ : Bool) (cmds_ : List PimCommand) (lc : ℤ) :
    ∃ post, loaded (create_pim_cmd is_gemv_tile_tree_ cmds_ l.op_type lc) =
      l.body ++ jump .JUMP (field lc 17) (l.body.length + 1) :: ctrl .EXIT 0 :: post := by
  have hassign : assign_cmds is_gemv_tile_tree_ cmds_ l.op_type lc =
      assign_cmds false [] l.op_type 0 := by
    cases l <;> rfl
  have hop : l.op_type ≠ .OP_GEMV := by cases l <;> simp [op_type]
  have hlen : (assign_cmds false [] l.op_type 0).length <
    10 := by cases l <;> simp [op_type, assign_cmds]
  have hjump := from_int_jump lc ((assign_cmds false [] l.op_type 0).length + 1)
  rw [field_eq (v := (assign_cmds false [] l.op_type 0).length + 1) (by omega) (by omega)
    (by norm_num)] at hjump
  refine ⟨(List.replicate (8 - (((assign_cmds false [] l.op_type 0).length + 1) + 1) % 8) (ctrl .NOP 0)).map
    fun c => from_int {} (to_int c), ?_⟩
  simp only [loaded, change_to_binary, create_pim_cmd, hassign, if_pos (Or.inr hop : _ ∨ _),
    List.map_append, List.map_map, List.map_cons, hjump, Function.comp_def, body, List.length_map,
      List.append_assoc,
    List.length_append, List.cons_append, List.nil_append]
  rfl

end EltLaunch

/-- Every element-wise program runs in lockstep with its kernel at every loop count of the JUMP
    field. -/
theorem elt_lockstep (l : EltLaunch) (is_gemv_tile_tree_ : Bool) (cmds_ : List PimCommand) {lc : ℤ}
    (h0 : 0 ≤ lc)
    (h : lc < 2 ^ 17) (htiles : l.num_tile = lc + 1) (ch : ℕ) :
    ∃ session, habPimSessions none (columns (l.kernel ch)) = [session] ∧
      RunsToExit (loaded (create_pim_cmd is_gemv_tile_tree_ cmds_ l.op_type lc)) session := by
  obtain ⟨k, rfl⟩ := Int.eq_ofNat_of_zero_le h0
  obtain ⟨post, hloaded⟩ := l.loaded_eq is_gemv_tile_tree_ cmds_ k
  refine ⟨_, l.sessions ch, ?_⟩
  have hcount : l.num_tile.toNat = k + 1 := by omega
  have hrun := runsToExit_of_tiles post k (l.covers ch) (l.groups_lengths ch)
  simp only [l.groups_flatten] at hrun
  rw [hloaded, hcount, field_eq h0 h (by norm_num)]
  exact hrun

/-- Addition over five tiles, in the fourth channel. -/
theorem elt_lockstep_tiles : ∃ session, habPimSessions none (columns (elt_op_pim 5 3)) = [session] ∧
    RunsToExit (loaded (create_pim_cmd false [] .OP_ELT_ADD 4)) session :=
  elt_lockstep (.add 5) false [] (by norm_num) (by norm_num) rfl 3

end PimLibrary.Program
