import PimLibrary.Device.PimInfo
import PimLibrary.Schemes.Word

/-! The instructions of a PIM unit, their 32-bit words, and the programs `PimCrfBinGen` builds.

    A word is a union of bit fields at fixed positions, so what a field reads back from it is settled
    by three facts: reading distributes over the union, a field reads back what was put there, and
    reads zero where another field was put. -/

namespace PimLibrary.Program
open Schemes.Word PimLibrary.Device

/-! ### Commands -/

inductive PimCmdType where
  | NOP | ADD | MUL | MAC | MAD | REV0 | REV1 | REV2 | MOV | FILL | REV3 | REV4 | REV5 | REV6 |
    JUMP | EXIT
  deriving DecidableEq, Repr

inductive PimOpdType where
  | A_OUT | M_OUT | EVEN_BANK | ODD_BANK | GRF_A | GRF_B | SRF_M | SRF_A
  deriving DecidableEq, Repr

/-- The enumerators in the order of their values. -/
def PimCmdType.all : List PimCmdType :=
  [.NOP, .ADD, .MUL, .MAC, .MAD, .REV0, .REV1, .REV2, .MOV, .FILL, .REV3, .REV4, .REV5, .REV6,
    .JUMP, .EXIT]

def PimOpdType.all : List PimOpdType :=
  [.A_OUT, .M_OUT, .EVEN_BANK, .ODD_BANK, .GRF_A, .GRF_B, .SRF_M, .SRF_A]

/-- `int(type)`. -/
def PimCmdType.toInt (t : PimCmdType) : ℤ := PimCmdType.all.idxOf t

def PimOpdType.toInt (t : PimOpdType) : ℤ := PimOpdType.all.idxOf t

/-- `PimCmdType(val)` of a 4-bit value. -/
def PimCmdType.ofVal (val : ℕ) : PimCmdType := PimCmdType.all.getD val .NOP

/-- `PimOpdType(val)` of a 3-bit value. -/
def PimOpdType.ofVal (val : ℕ) : PimOpdType := PimOpdType.all.getD val .A_OUT

/-- The default values are those of the default constructor. -/
structure PimCommand where
  type_ : PimCmdType := .NOP
  dst_ : PimOpdType := .A_OUT
  src0_ : PimOpdType := .A_OUT
  src1_ : PimOpdType := .A_OUT
  src2_ : PimOpdType := .A_OUT
  loop_counter_ : ℤ := 0
  loop_offset_ : ℤ := 0
  is_auto_ : ℤ := 0
  dst_idx_ : ℤ := 0
  src0_idx_ : ℤ := 0
  src1_idx_ : ℤ := 0
  is_relu_ : ℤ := 0
  deriving DecidableEq, Repr

namespace PimCommand

/-- `PimCommand(type, loop_counter)`. -/
def ctrl (type : PimCmdType) (loop_counter : ℤ) : PimCommand :=
  { type_ := type, loop_counter_ := loop_counter }

/-- `PimCommand(type, loop_counter, loop_offset)`. -/
def jump (type : PimCmdType) (loop_counter loop_offset : ℤ) : PimCommand :=
  { type_ := type, loop_counter_ := loop_counter, loop_offset_ := loop_offset }

/-- `PimCommand(type, dst, src0, ..)`. -/
def move (type : PimCmdType) (dst src0 : PimOpdType) (is_auto : ℤ := 0) (dst_idx : ℤ := 0)
    (src0_idx : ℤ := 0) (src1_idx : ℤ := 0) (is_relu : ℤ := 0) : PimCommand :=
  { type_ := type, dst_ := dst, src0_ := src0, is_auto_ := is_auto, dst_idx_ := dst_idx,
    src0_idx_ := src0_idx, src1_idx_ := src1_idx, is_relu_ := is_relu }

/-- `PimCommand(type, dst, src0, src1, ..)`. -/
def binary (type : PimCmdType) (dst src0 src1 : PimOpdType) (is_auto : ℤ := 0) (dst_idx : ℤ := 0)
    (src0_idx : ℤ := 0) (src1_idx : ℤ := 0) : PimCommand :=
  { type_ := type, dst_ := dst, src0_ := src0, src1_ := src1, is_auto_ := is_auto, dst_idx_ := dst_idx,
    src0_idx_ := src0_idx, src1_idx_ := src1_idx }

/-- `PimCommand(type, dst, src0, src1, src2, ..)`. -/
def ternary (type : PimCmdType) (dst src0 src1 src2 : PimOpdType) (is_auto : ℤ := 0) (dst_idx : ℤ := 0)
    (src0_idx : ℤ := 0) (src1_idx : ℤ := 0) : PimCommand :=
  { type_ := type, dst_ := dst, src0_ := src0, src1_ := src1, src2_ := src2, is_auto_ := is_auto,
    dst_idx_ := dst_idx, src0_idx_ := src0_idx, src1_idx_ := src1_idx }

/-! ### Words -/

def bitmask (bit : ℕ) : ℕ := (1 <<< bit) - 1

def to_bit (val : ℤ) (bit_len bit_pos : ℕ) : ℕ :=
  uint32 ((toUint32 val &&& bitmask bit_len) <<< bit_pos)

def from_bit (val bit_len bit_pos : ℕ) : ℕ := (val >>> bit_pos) &&& bitmask bit_len

/-- The fields that the arithmetic formats share. -/
def arith_bits (c : PimCommand) : ℕ :=
  to_bit c.dst_.toInt 3 25 ||| to_bit c.src0_.toInt 3 22 ||| to_bit c.src1_.toInt 3 19 |||
    to_bit c.is_auto_ 1 15 ||| to_bit c.dst_idx_ 4 8 ||| to_bit c.src0_idx_ 4 4 |||
      to_bit c.src1_idx_ 4 0

def to_int (c : PimCommand) : ℕ :=
  let val := to_bit c.type_.toInt 4 28
  match c.type_ with
  | .EXIT => val
  | .NOP => val ||| to_bit c.loop_counter_ 11 0
  | .JUMP => val ||| to_bit c.loop_counter_ 17 11 ||| to_bit c.loop_offset_ 11 0
  | .FILL | .MOV =>
    val ||| to_bit c.dst_.toInt 3 25 ||| to_bit c.src0_.toInt 3 22 ||| to_bit c.dst_idx_ 4 8 |||
      to_bit c.src0_idx_ 4 4 ||| to_bit c.src1_idx_ 4 0 ||| to_bit c.is_relu_ 1 12
  | .MAD => val ||| to_bit c.src2_.toInt 3 16 ||| arith_bits c
  | .ADD | .MUL | .MAC => val ||| arith_bits c
  | _ => val

/-- What the arithmetic formats decode into a command. -/
def arith_of (c : PimCommand) (val : ℕ) : PimCommand :=
  { c with
    dst_ := .ofVal (from_bit val 3 25), src0_ := .ofVal (from_bit val 3 22),
    src1_ := .ofVal (from_bit val 3 19), is_auto_ := from_bit val 1 15, dst_idx_ := from_bit val 4 8,
    src0_idx_ := from_bit val 4 4, src1_idx_ := from_bit val 4 0 }

/-- Decode a word into an object; the fields outside the word's format keep their value. -/
def from_int (c : PimCommand) (val : ℕ) : PimCommand :=
  let c := { c with type_ := .ofVal (from_bit val 4 28) }
  match c.type_ with
  | .EXIT => c
  | .NOP => { c with loop_counter_ := from_bit val 11 0 }
  | .JUMP => { c with loop_counter_ := from_bit val 17 11, loop_offset_ := from_bit val 11 0 }
  | .FILL | .MOV =>
    { c with
      dst_ := .ofVal (from_bit val 3 25), src0_ := .ofVal (from_bit val 3 22),
      is_relu_ := from_bit val 1 12, dst_idx_ := from_bit val 4 8, src0_idx_ := from_bit val 4 4,
      src1_idx_ := from_bit val 4 0 }
  | .MAD => arith_of { c with src2_ := .ofVal (from_bit val 3 16) } val
  | .ADD | .MUL | .MAC => arith_of c val
  | _ => c

/-! ### Fields of a word -/

theorem to_bit_eq {v : ℤ} {len pos : ℕ} (h : pos + len ≤ 32) :
    to_bit v len pos = toUint32 v % 2 ^ len * 2 ^ pos := by
  have hlt : toUint32 v % 2 ^ len * 2 ^ pos < 2 ^ 32 :=
    calc toUint32 v % 2 ^ len * 2 ^ pos < 2 ^ len * 2 ^ pos :=
          Nat.mul_lt_mul_of_pos_right (Nat.mod_lt _ (by positivity)) (by positivity)
      _ = 2 ^ (pos + len) := by rw [← pow_add, Nat.add_comm]
      _ ≤ 2 ^ 32 := Nat.pow_le_pow_right two_pos h
  rw [to_bit, bitmask, Nat.one_shiftLeft, Nat.and_two_pow_sub_one_eq_mod, Nat.shiftLeft_eq,
    uint32_of_lt hlt]

theorem from_bit_eq (val len pos : ℕ) : from_bit val len pos = val / 2 ^ pos % 2 ^ len := by
  rw [from_bit, bitmask, Nat.one_shiftLeft, Nat.and_two_pow_sub_one_eq_mod, Nat.shiftRight_eq_div_pow]

/-- Reading a field distributes over the union of fields. -/
@[simp] theorem from_bit_or (a b len pos : ℕ) :
    from_bit (a ||| b) len pos = from_bit a len pos ||| from_bit b len pos := by
  simp only [from_bit, Nat.shiftRight_or_distrib, Nat.and_or_distrib_right]

/-- A field reads back what was put there. -/
theorem from_bit_to_bit {v : ℤ} {len pos : ℕ} (h : pos + len ≤ 32) :
    from_bit (to_bit v len pos) len pos = toUint32 v % 2 ^ len := by
  rw [to_bit_eq h, from_bit_eq, Nat.mul_div_cancel _ (by positivity), Nat.mod_mod]

/-- A field above reads nothing of it. -/
theorem from_bit_to_bit_above {v : ℤ} {len pos len' pos' : ℕ} (h : pos + len ≤ 32)
    (hd : pos + len ≤ pos') :
    from_bit (to_bit v len pos) len' pos' = 0 := by
  have hlt : toUint32 v % 2 ^ len * 2 ^ pos < 2 ^ pos' :=
    calc toUint32 v % 2 ^ len * 2 ^ pos < 2 ^ len * 2 ^ pos :=
          Nat.mul_lt_mul_of_pos_right (Nat.mod_lt _ (by positivity)) (by positivity)
      _ = 2 ^ (pos + len) := by rw [← pow_add, Nat.add_comm]
      _ ≤ 2 ^ pos' := Nat.pow_le_pow_right two_pos hd
  rw [to_bit_eq h, from_bit_eq, Nat.div_eq_of_lt hlt, Nat.zero_mod]

/-- A field below reads nothing of it. -/
theorem from_bit_to_bit_below {v : ℤ} {len pos len' pos' : ℕ} (h : pos + len ≤ 32)
    (hd : pos' + len' ≤ pos) :
    from_bit (to_bit v len pos) len' pos' = 0 := by
  obtain ⟨d, rfl⟩ := Nat.exists_eq_add_of_le hd
  have hsplit : toUint32 v % 2 ^ len * 2 ^ (pos' + len' + d) =
      toUint32 v % 2 ^ len * 2 ^ d * 2 ^ len' * 2 ^ pos' := by
    rw [pow_add, pow_add]; ring
  rw [to_bit_eq h, from_bit_eq, hsplit, Nat.mul_div_cancel _ (by positivity), Nat.mul_mod_left]

end PimCommand

/-! ### Programs -/

/-- What the operations ask the executor for. -/
inductive PimOpType where
  | OP_GEMV | OP_GEMM | OP_ELT_ADD | OP_ELT_MUL | OP_RELU | OP_BN | OP_COPY | OP_DUMMY
  deriving DecidableEq, Repr

open PimCommand

/-- `ceil((float)lc / 2)`. Halving is exact in single precision. -/
def ceil_half (lc : ℤ) : ℤ :=
  if 0 ≤ lc then ((float32 lc.toNat + 1) / 2 : ℕ) else -((float32 lc.natAbs / 2 : ℕ) : ℤ)

/-- The first part of `create_pim_cmd`: the commands that the operation assigns to `cmds_`. An
    operation without a branch leaves the commands of the call before. -/
def assign_cmds (is_gemv_tile_tree_ : Bool) (cmds_ : List PimCommand) (op_type : PimOpType) (lc : ℤ) :
    List PimCommand :=
  match op_type with
  | .OP_ELT_ADD =>
    [move .FILL .GRF_A .EVEN_BANK, binary .ADD .GRF_A .GRF_A .EVEN_BANK 1, ctrl .NOP 23,
      move .FILL .GRF_B .ODD_BANK, binary .ADD .GRF_B .GRF_B .ODD_BANK 1, ctrl .NOP 23]
  | .OP_ELT_MUL =>
    [move .FILL .GRF_A .EVEN_BANK, binary .MUL .GRF_A .GRF_A .EVEN_BANK 1, ctrl .NOP 23,
      move .FILL .GRF_B .ODD_BANK, binary .MUL .GRF_B .GRF_B .ODD_BANK 1, ctrl .NOP 23]
  | .OP_RELU =>
    [move .FILL .GRF_A .EVEN_BANK 1 0 0 0 1, ctrl .NOP 15,
      move .FILL .GRF_B .ODD_BANK 1 0 0 0 1, ctrl .NOP 15]
  | .OP_COPY =>
    [move .FILL .GRF_A .EVEN_BANK 1 0 0 0 0, ctrl .NOP 15,
      move .FILL .GRF_B .ODD_BANK 1 0 0 0 0, ctrl .NOP 15]
  | .OP_GEMV =>
    if is_gemv_tile_tree_ then
      [binary .MAC .GRF_B .GRF_A .EVEN_BANK 1 0 0 0, jump .JUMP 7 2, ctrl .NOP 23,
        binary .MAC .GRF_B .GRF_A .ODD_BANK 1 0 0 0, jump .JUMP 7 2, ctrl .NOP 23]
    else
      let even_lc := 8 * ceil_half lc - 1
      let odd_lc := 8 * lc.tdiv 2 - 1
      [binary .MAC .GRF_B .GRF_A .EVEN_BANK 1 0 0 0, jump .JUMP even_lc 2,
        binary .MAC .GRF_B .GRF_A .ODD_BANK 1 0 0 0, jump .JUMP odd_lc 2, ctrl .NOP 23]
  | .OP_BN =>
    [ternary .MAD .GRF_A .EVEN_BANK .SRF_M .SRF_A 1 0 0 0, ctrl .NOP 7,
      ternary .MAD .GRF_A .GRF_A .SRF_M .SRF_A 1 0 0 1, ctrl .NOP 7,
      ternary .MAD .GRF_B .ODD_BANK .SRF_M .SRF_A 1 0 0 0, ctrl .NOP 7,
      ternary .MAD .GRF_B .GRF_B .SRF_M .SRF_A 1 0 0 1, ctrl .NOP 23]
  | _ => cmds_

def create_pim_cmd (is_gemv_tile_tree_ : Bool) (cmds_ : List PimCommand) (op_type : PimOpType)
    (lc : ℤ) :
    List PimCommand :=
  let cmds := assign_cmds is_gemv_tile_tree_ cmds_ op_type lc
  let cmds :=
    if (lc ≠ 0 ∧ is_gemv_tile_tree_ = true) ∨ op_type ≠ .OP_GEMV then
      cmds ++ [jump .JUMP lc (cmds.length + 1)]
    else cmds
  let cmds := cmds ++ [ctrl .EXIT 0]
  cmds ++ List.replicate (8 - cmds.length % 8) (ctrl .NOP 0)

/-- The words of a program. -/
def change_to_binary (cmds_ : List PimCommand) : List ℕ := cmds_.map to_int

/-- `int` arithmetic up to the division by `sizeof(uint16_t)`, which is unsigned. -/
def get_loop_counter (is_gemv_tile_tree_ : Bool) (op_type : PimOpType) (input_size : ℤ) : ℤ :=
  let pbi := vega20_pbi
  let num_transaction := int32 (toUint64 (input_size.tdiv 16) / 2 : ℕ)
  let num_parallelism : ℤ :=
    (pbi.num_pim_blocks * pbi.num_pim_chan * pbi.num_pim_rank * pbi.num_grf : ℕ)
  let num_tile := num_transaction.tdiv num_parallelism
  match op_type with
  | .OP_GEMV =>
    if is_gemv_tile_tree_ then ((input_size.tdiv pbi.trans_size).tdiv pbi.num_grf_A).tdiv 2 - 1
    else (input_size.tdiv pbi.trans_size).tdiv pbi.num_grf_A
  | _ => num_tile.tdiv 2 - 1

end PimLibrary.Program
