import PimLibrary.Crfgen.PimCmd

/-! The validator of `crfcodegen`.

    Three checks see a command vector: source pairs and modes one command at a time, the restrictions on
    JUMP and NOP, and a scan for hazards. The first two return a flag, the third a count. `none` is an
    access outside a table or the vector, which the source does not exclude. -/

namespace PimLibrary.Crfgen
open Schemes.Word PimLibrary.Program PimLibrary.Program.PimCommand

/-! ### Source pairs -/

inductive PimCmdPairType where | MUL | ADD | MAC | MAD | ETC
  deriving DecidableEq, Repr

inductive PimOpdPairType where | GRF_A | GRF_B | EVEN_BANK | ODD_BANK | SRF_M | SRF_A | ETC
  deriving DecidableEq, Repr

/-- `static_cast<int>`. -/
def PimCmdPairType.toNat : PimCmdPairType → ℕ
  | .MUL => 0 | .ADD => 1 | .MAC => 2 | .MAD => 3 | .ETC => 4

def PimOpdPairType.toNat : PimOpdPairType → ℕ
  | .GRF_A => 0 | .GRF_B => 1 | .EVEN_BANK => 2 | .ODD_BANK => 3 | .SRF_M => 4 | .SRF_A => 5 | .ETC => 6

inductive PimCamType where | NOP | ALL | CAM | NO_CAM
  deriving DecidableEq, Repr

def PimCamType.toNat : PimCamType → ℕ
  | .NOP => 0 | .ALL => 1 | .CAM => 2 | .NO_CAM => 3

def src_pair_table : List (List (List ℕ)) :=
  [[[0, 0, 0, 0], [1, 1, 2, 1], [1, 1, 1, 1], [1, 1, 1, 1], [0, 0, 0, 1], [0, 1, 0, 0]],
    [[1, 1, 2, 1], [0, 0, 0, 0], [1, 1, 2, 1], [1, 1, 2, 1], [0, 0, 2, 1], [0, 1, 0, 0]],
    [[1, 1, 1, 0], [1, 1, 2, 1], [1, 1, 1, 3], [0, 0, 0, 0], [0, 0, 0, 1], [0, 1, 0, 0]],
    [[1, 1, 1, 0], [1, 1, 2, 1], [0, 0, 0, 0], [1, 1, 1, 3], [0, 0, 0, 1], [0, 1, 0, 0]],
    [[0, 0, 0, 0], [0, 0, 2, 0], [0, 0, 0, 0], [0, 0, 0, 0], [0, 0, 0, 0], [0, 0, 0, 0]],
    [[0, 1, 0, 0], [0, 1, 0, 0], [0, 1, 0, 0], [0, 1, 0, 0], [0, 0, 0, 0], [0, 0, 0, 0]]]

/-- The reserved types take the first enumerator, as `changed_cmd_type{}` does. -/
def change_cmd_type : PimCmdType → PimCmdPairType
  | .MUL => .MUL
  | .ADD => .ADD
  | .MAC => .MAC
  | .MAD => .MAD
  | .EXIT | .NOP | .JUMP | .FILL | .MOV => .ETC
  | _ => .MUL

def change_opd_type : PimOpdType → PimOpdPairType
  | .EVEN_BANK => .EVEN_BANK
  | .ODD_BANK => .ODD_BANK
  | .GRF_A => .GRF_A
  | .GRF_B => .GRF_B
  | .SRF_M => .SRF_M
  | .SRF_A => .SRF_A
  | .A_OUT | .M_OUT => .ETC

/-- `src_pair_table[i_src0][i_src1][i_cmd]`; the table has no row for `ETC`. -/
def src_pair (src0 src1 : PimOpdPairType) (cmd_type : PimCmdPairType) : Option ℕ := do
  let row ← src_pair_table[src0.toNat]?
  let col ← row[src1.toNat]?
  col[cmd_type.toNat]?

def check_validate_pair (pim_cmd : PimCommand) : Option ℕ :=
  let cmd_type := change_cmd_type pim_cmd.type_
  if cmd_type = .ETC then some 1
  else do
    let entry ← src_pair (change_opd_type pim_cmd.src0_) (change_opd_type pim_cmd.src1_) cmd_type
    let vaild_flag := if entry = PimCamType.NOP.toNat then 0 else 1
    let vaild_flag := if entry = PimCamType.CAM.toNat ∧ pim_cmd.is_auto_ = 0 then 0 else vaild_flag
    let vaild_flag := if entry = PimCamType.NO_CAM.toNat ∧ pim_cmd.is_auto_ ≠ 0 then 0 else vaild_flag
    let vaild_flag := if pim_cmd.src2_ ≠ .SRF_A ∧ pim_cmd.src2_ ≠ .A_OUT then 0 else vaild_flag
    let vaild_flag := if pim_cmd.src2_ = .SRF_A ∧ pim_cmd.type_ ≠ .MAD then 0 else vaild_flag
    let vaild_flag := if pim_cmd.type_ = .MAC ∧ pim_cmd.dst_ = .GRF_A then 0 else vaild_flag
    let vaild_flag := if pim_cmd.dst_ ≠ .GRF_A ∧ pim_cmd.dst_ ≠ .GRF_B then 0 else vaild_flag
    some vaild_flag

def check_cmd_validation_loop (ret : ℕ) : List PimCommand → Option ℕ
  | [] => some ret
  | c :: cmds => do
    let ret ← check_validate_pair c
    if ret = 0 then some ret else check_cmd_validation_loop ret cmds

def check_cmd_validation (cmds : List PimCommand) : Option ℕ := check_cmd_validation_loop 1 cmds

/-! ### Restrictions on JUMP and NOP -/

/-- `cmds[i]` inside the vector. -/
def cmdAt (cmds : List PimCommand) (i : ℕ) : PimCommand := cmds.getD i {}

theorem getElem?_eq_cmdAt {cmds : List PimCommand} {i : ℕ} (hi : i < cmds.length) :
    cmds[i]? = some (cmdAt cmds i) := by
  rw [cmdAt, List.getD_eq_getElem?_getD, List.getElem?_eq_getElem hi]
  rfl

/-- `i - loop_offset_ + 1`, an `int`. -/
def target_idx (i : ℕ) (loop_offset : ℤ) : ℤ := int32 (int32 (i - loop_offset) + 1)

/-- What the rules on a JUMP at `i` leave of the flag. -/
def restrict_jump (cmds : List PimCommand) (i : ℕ) (is_valid : ℕ) : Option ℕ :=
  let c := cmdAt cmds i
  if c.type_ = .JUMP then
    let is_valid := if c.loop_counter_ = 0 then 0 else is_valid
    if target_idx i c.loop_offset_ < 0 then some 0
    else do
      let target ← cmds[(target_idx i c.loop_offset_).toNat]?
      let is_valid := if target.type_ = .NOP ∨ target.type_ = .JUMP then 0 else is_valid
      let is_valid := if i + 1 ≠ cmds.length ∧ (cmdAt cmds (i + 1)).type_ = .NOP then 0 else is_valid
      some is_valid
  else some is_valid

/-- What the rules on a NOP at `i` leave of the flag. The second one reads the counter of `cmds[1]`. -/
def restrict_nop (cmds : List PimCommand) (i : ℕ) (is_valid : ℕ) : ℕ :=
  let c := cmdAt cmds i
  if c.type_ = .NOP then
    let is_valid :=
      if i + 1 ≠ cmds.length ∧ c.loop_counter_ > 0 ∧ (cmdAt cmds (i + 1)).type_ = .JUMP then 0
        else is_valid
    if i + 1 ≠ cmds.length ∧ (cmdAt cmds (i + 1)).type_ = .NOP ∧ c.loop_counter_ > 0 ∧
        (cmdAt cmds 1).loop_counter_ > 0 then 0 else is_valid
  else is_valid

def check_isa_restriction_loop (cmds : List PimCommand) : List ℕ → ℕ → Option ℕ
  | [], is_valid => some is_valid
  | i :: rest, is_valid => do
    let is_valid ← restrict_jump cmds i is_valid
    check_isa_restriction_loop cmds rest (restrict_nop cmds i is_valid)

def check_isa_restriction (cmds : List PimCommand) : Option ℕ := do
  let first ← cmds[0]?
  check_isa_restriction_loop cmds (List.range cmds.length) (if first.type_ = .NOP then 0 else 1)

/-! ### Hazards -/

def data_hazard_table : List (List ℤ) := [[1, 1, -1, -1, 0], [2, 2, 3, 3, 1]]

def structual_hazard_table : List (List (List (List ℤ))) :=
  [[[[1, 1, 1, 2, 0], [1, 1, 1, 2, 0], [0, 0, 0, 1, 0], [0, 0, 1, 1, 0], [3, 3, 3, 4, 1]],
      [[2, 2, 2, 3, 0], [2, 2, 2, 3, 0], [-1, -1, -1, -1, -1], [-1, -1, -1, -1, -1], [3, 3, 3, 4, 1]],
      [[0, 0, -1, -1, 0], [0, 0, -1, -1, 0], [0, 0, -1, -1, 0], [0, 0, -1, -1, 0], [2, 2, -1, -1, 1]],
      [[1, 1, -1, -1, 0], [1, 1, -1, -1, 0], [-1, -1, -1, -1, -1], [-1, -1, -1, -1, -1],
        [2, 2, -1, -1, 1]]],
    [[[0, 0, 1, 1, 0], [0, 0, 1, 1, 0], [0, 0, 0, 0, 0], [0, 0, 1, 0, 0], [2, 2, 3, 3, 0]],
      [[1, 1, 2, 2, 0], [1, 1, 2, 2, 0], [-1, -1, -1, -1, -1], [-1, -1, -1, -1, -1], [2, 2, 3, 3, 0]],
      [[0, 0, -1, -1, 0], [0, 0, -1, -1, 0], [0, 0, -1, -1, 0], [0, 0, -1, -1, 0], [1, 1, -1, -1, 0]],
      [[0, 0, -1, -1, 0], [0, 0, -1, -1, 0], [-1, -1, -1, -1, -1], [-1, -1, -1, -1, -1],
        [1, 1, -1, -1, 0]]]]

/-- The column of an operation in the hazard tables; `none` is the source's `-1`. -/
def get_hazard_table_idx (cmd : PimCommand) : Option ℕ :=
  match cmd.type_ with
  | .ADD => some 0
  | .MUL => some 1
  | .MAC => some 2
  | .MAD => some 3
  | .FILL | .MOV => some 4
  | _ => none

def is_register : PimOpdType → Bool
  | .GRF_A | .GRF_B | .SRF_M | .SRF_A => true
  | _ => false

def is_read_register (cmd : PimCommand) : Bool :=
  is_register cmd.src0_ || is_register cmd.src1_ || cmd.type_ = .MAC || is_register cmd.src2_

/-- The scan of `find_next_op` over the commands from index `i` on. -/
def find_next_op_loop : List PimCommand → ℕ → ℤ → ℕ × ℤ
  | [], _, num_nop => (0, num_nop)
  | c :: cmds, i, num_nop =>
    let num_nop := if c.type_ = .NOP then int32 (num_nop + int32 (c.loop_counter_ + 1)) else num_nop
    if get_hazard_table_idx c = none then find_next_op_loop cmds (i + 1) num_nop else (i, num_nop)

/-- The index of the next operation, zero if there is none, and the NOP slots passed. -/
def find_next_op (cmds : List PimCommand) (cur_idx : ℕ) : ℕ × ℤ :=
  find_next_op_loop (cmds.drop (cur_idx + 1)) (cur_idx + 1) 0

def detect_structural_hazard (cmds : List PimCommand) (cur_idx next_idx : ℕ) (num_nop : ℤ) : ℤ :=
  let cur := cmdAt cmds cur_idx
  let next := cmdAt cmds next_idx
  let cur_op_idx := (get_hazard_table_idx cur).getD 0
  let next_op_idx := (get_hazard_table_idx next).getD 0
  let is_consecutive := if cur.dst_ = next.dst_ then 1 else 0
  let r_nonr_idx := (!is_read_register cur).toNat * 2 + (!is_read_register next).toNat
  let num_required_nop :=
    (((structual_hazard_table.getD is_consecutive []).getD r_nonr_idx []).getD next_op_idx []).getD
      cur_op_idx 0
  if num_required_nop = -1 then -1
  else if num_nop < num_required_nop then 1
  else 0

/-- The entry of `data_hazard_table` for an operation. -/
def required_nop (cur : PimCommand) : ℤ :=
  (data_hazard_table.getD (is_read_register cur).toNat []).getD ((get_hazard_table_idx cur).getD 0) 0

/-- Whether the scan takes `cmd` for a reader of what `cur` writes. -/
def depends (cur cmd : PimCommand) : Prop :=
  if cur.is_auto_ ≠ 0 ∨ cmd.is_auto_ ≠ 0 then cur.dst_ = cmd.src0_ ∨ cur.dst_ = cmd.src1_
  else (cur.dst_ = cmd.src0_ ∧ cur.dst_idx_ = cmd.src0_idx_) ∨
    (cur.dst_ = cmd.src1_ ∧ cur.dst_idx_ = cmd.src1_idx_)

instance (cur cmd : PimCommand) : Decidable (depends cur cmd) := by
  delta depends
  infer_instance

/-- The scan of `detect_data_hazard` over the commands it may look at. -/
def detect_data_hazard_loop (cur : PimCommand) (num_required_nop : ℤ) : List PimCommand → ℤ → ℕ → ℕ
  | [], _, is_hazard => is_hazard
  | c :: cmds, num_nop, is_hazard =>
    if num_nop ≥ num_required_nop then is_hazard
    else if depends cur c then detect_data_hazard_loop cur num_required_nop cmds num_nop 1
    else detect_data_hazard_loop cur num_required_nop cmds
      (int32 (num_nop + int32 (1 + int32 (c.is_auto_ * 7)))) is_hazard

def detect_data_hazard (cmds : List PimCommand) (cur_idx next_idx : ℕ) (num_nop : ℤ) : ℕ :=
  let cur := cmdAt cmds cur_idx
  let num_required_nop := required_nop cur
  let max_idx :=
    if (cur_idx : ℤ) + num_required_nop + 1 < cmds.length then
      ((cur_idx : ℤ) + num_required_nop + 1).toNat
    else cmds.length
  detect_data_hazard_loop cur num_required_nop ((cmds.take max_idx).drop next_idx) num_nop 0

/-- The loop of `check_hazard`. Every round moves `i` up, so one round for each command is enough. -/
def check_hazard_loop (cmds : List PimCommand) : ℕ → ℕ → ℕ → ℕ
  | 0, _, num_hazard => num_hazard
  | fuel + 1, i, num_hazard =>
    if cmds.length ≤ i then num_hazard
    else if get_hazard_table_idx (cmdAt cmds i) = none then
      check_hazard_loop cmds fuel (i + 1) num_hazard
    else
      let (next_idx, num_nop) := find_next_op cmds i
      if next_idx = 0 then num_hazard
      else if num_nop ≥ 4 then check_hazard_loop cmds fuel next_idx num_hazard
      else
        let num_hazard := if detect_structural_hazard cmds i next_idx num_nop ≠ 0 then
          num_hazard + 1 else num_hazard
        let num_hazard := if detect_data_hazard cmds i next_idx num_nop ≠ 0 then num_hazard + 1
          else num_hazard
        check_hazard_loop cmds fuel (i + 1) num_hazard

def check_hazard (cmds : List PimCommand) : ℕ := check_hazard_loop cmds cmds.length 0 0

/-! ### The verdict -/

def validation_check (pim_cmd_vec : List PimCommand) : Option ℕ := do
  let ret ← check_cmd_validation pim_cmd_vec
  let isa ← check_isa_restriction pim_cmd_vec
  some (ret &&& isa &&& check_hazard pim_cmd_vec)

/-- The return value, and the words written to `crf_binary`. -/
def ConvertToBinary (pim_cmd_vec : List PimCommand) : Option (ℕ × Option (List ℕ)) := do
  let ret ← validation_check pim_cmd_vec
  some (ret, if ret ≠ 0 then some (pim_cmd_vec.map to_int) else none)

end PimLibrary.Crfgen
