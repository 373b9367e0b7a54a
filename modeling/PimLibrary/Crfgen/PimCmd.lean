import PimLibrary.Program.Encoding

/-! The command class of the offline tools.

    `crfcodegen` and `crfdecoder` declare the command with the fields and constructors of the
    runtime, and have an encoder and a decoder of their own. -/

namespace PimLibrary.Crfgen
open PimLibrary.Program PimLibrary.Program.PimCommand

/-- The fields that the tools' encoder writes for an arithmetic command. -/
def arith_bits (c : PimCommand) : ℕ :=
  to_bit c.dst_.toInt 3 25 ||| to_bit c.src0_.toInt 3 22 ||| to_bit c.src1_.toInt 3 19 |||
    to_bit c.is_auto_ 1 15 ||| to_bit c.dst_idx_ 4 8 ||| to_bit c.src0_idx_ 4 4 |||
      to_bit c.src1_idx_ 4 0

def to_int (c : PimCommand) : ℕ :=
  let val := to_bit c.type_.toInt 4 28
  match c.type_ with
  | .EXIT => val
  | .NOP => val ||| to_bit c.loop_counter_ 11 0
  | .JUMP => val ||| to_bit c.loop_counter_ 17 11 ||| to_bit c.loop_offset_ 11 0
  | .FILL | .MOV =>
    val ||| to_bit c.dst_.toInt 3 25 ||| to_bit c.src0_.toInt 3 22 ||| to_bit c.dst_idx_ 4 8 |||
      to_bit c.src0_idx_ 4 4 ||| to_bit c.src1_idx_ 4 0 ||| to_bit c.is_relu_ 1 12
  | .MAD => val ||| to_bit c.src2_.toInt 3 16 ||| arith_bits c
  | .ADD | .MUL | .MAC => val ||| arith_bits c
  | _ => val

/-- What the tools' decoder reads for an arithmetic command. -/
def arith_of (c : PimCommand) (val : ℕ) : PimCommand :=
  { c with
    dst_ := .ofVal (from_bit val 3 25), src0_ := .ofVal (from_bit val 3 22),
    src1_ := .ofVal (from_bit val 3 19), is_auto_ := from_bit val 1 15, dst_idx_ := from_bit val 4 8,
    src0_idx_ := from_bit val 4 4, src1_idx_ := from_bit val 4 0 }

def from_int (c : PimCommand) (val : ℕ) : PimCommand :=
  let c := { c with type_ := .ofVal (from_bit val 4 28) }
  match c.type_ with
  | .EXIT => c
  | .NOP => { c with loop_counter_ := from_bit val 11 0 }
  | .JUMP => { c with loop_counter_ := from_bit val 17 11, loop_offset_ := from_bit val 11 0 }
  | .FILL | .MOV =>
    { c with
      dst_ := .ofVal (from_bit val 3 25), src0_ := .ofVal (from_bit val 3 22),
      is_relu_ := from_bit val 1 12, dst_idx_ := from_bit val 4 8, src0_idx_ := from_bit val 4 4,
      src1_idx_ := from_bit val 4 0 }
  | .MAD => arith_of { c with src2_ := .ofVal (from_bit val 3 16) } val
  | .ADD | .MUL | .MAC => arith_of c val
  | _ => c

/-- The tools encode as the runtime does. -/
theorem to_int_eq (c : PimCommand) : to_int c = PimCommand.to_int c := rfl

/-- The tools decode as the runtime does. -/
theorem from_int_eq (c : PimCommand) (val : ℕ) : from_int c val = PimCommand.from_int c val := rfl

/-! ### Constructors -/

/-- A call of one of the public constructors. -/
inductive Construction where
  | default
  | ctrl (type : PimCmdType) (loop_counter : ℤ)
  | jump (type : PimCmdType) (loop_counter loop_offset : ℤ)
  | move (type : PimCmdType) (dst src0 : PimOpdType) (is_auto dst_idx src0_idx src1_idx is_relu : ℤ)
  | binary (type : PimCmdType) (dst src0 src1 : PimOpdType) (is_auto dst_idx src0_idx src1_idx : ℤ)
  | ternary (type : PimCmdType) (dst src0 src1 src2 : PimOpdType)
    (is_auto dst_idx src0_idx src1_idx : ℤ)

namespace Construction

def build : Construction → PimCommand
  | .default => {}
  | .ctrl type lc => .ctrl type lc
  | .jump type lc lo => .jump type lc lo
  | .move type dst src0 is_auto dst_idx src0_idx src1_idx is_relu =>
    .move type dst src0 is_auto dst_idx src0_idx src1_idx is_relu
  | .binary type dst src0 src1 is_auto dst_idx src0_idx src1_idx =>
    .binary type dst src0 src1 is_auto dst_idx src0_idx src1_idx
  | .ternary type dst src0 src1 src2 is_auto dst_idx src0_idx src1_idx =>
    .ternary type dst src0 src1 src2 is_auto dst_idx src0_idx src1_idx

/-- The fields set from the arguments. -/
def sets : Construction → List Field
  | .default => []
  | .ctrl .. => [.type_, .loop_counter_]
  | .jump .. => [.type_, .loop_counter_, .loop_offset_]
  | .move .. => [.type_, .dst_, .src0_, .is_auto_, .dst_idx_, .src0_idx_, .src1_idx_, .is_relu_]
  | .binary .. => [.type_, .dst_, .src0_, .src1_, .is_auto_, .dst_idx_, .src0_idx_, .src1_idx_]
  | .ternary .. => [.type_, .dst_, .src0_, .src1_, .src2_, .is_auto_, .dst_idx_, .src0_idx_, .src1_idx_]

/-- Both decoders give back the field. -/
def ComesBack (k : Construction) (f : Field) : Prop :=
  (PimCommand.from_int {} (PimCommand.to_int k.build)).value f = k.build.value f ∧
    (from_int {} (to_int k.build)).value f = k.build.value f

instance (k : Construction) (f : Field) : Decidable (k.ComesBack f) :=
  inferInstanceAs (Decidable (_ ∧ _))

/-- A field comes back when the word carries it or it has its default value. -/
theorem comesBack_iff {k : Construction} (hw : k.build.Within) (f : Field) :
    k.ComesBack f ↔ f ∈ k.build.type_.carries ∨ k.build.value f = ({} : PimCommand).value f := by
  rw [ComesBack, from_int_eq, to_int_eq, and_self, hw.value_decode]
  split_ifs with hf
  · simp [hf]
  · rw [or_iff_right hf]
    exact eq_comm

/-- A command comes back as far as its format goes, and equality compares the formats. -/
theorem command_roundtrip (k k' : Construction) (hw : k.build.Within) (hw' : k'.build.Within) :
    (∀ f, k.ComesBack f ↔ f ∈ k.build.type_.carries ∨ k.build.value f = ({} : PimCommand).value f) ∧
      (k.build.beq k'.build = true ↔ k.build.type_ = k'.build.type_ ∧
        ∀ f ∈ k.build.type_.carries, k.build.value f = k'.build.value f) :=
  ⟨comesBack_iff hw, hw.beq_iff hw'⟩

theorem command_roundtrip_mac :
    (Construction.binary .MAC .GRF_B .GRF_A .EVEN_BANK 1 0 0 0).build.beq
      (Construction.binary .MAC .GRF_B .GRF_A .EVEN_BANK 0 0 0 0).build = false := by
  rw [← Bool.not_eq_true,
    (command_roundtrip _ _ (by intro f; cases f <;> decide) (by intro f; cases f <;> decide)).2]
  decide

/-- The automatic FILL of the RELU program loses its flag. -/
theorem fill_loses_auto : ¬ ∀ k : Construction, k.build.Within → ∀ f ∈ k.sets, k.ComesBack f := by
  intro hall
  have hback := hall (.move .FILL .GRF_A .EVEN_BANK 1 0 0 0 1) (by intro f; cases f <;> decide)
    .is_auto_ (by decide)
  revert hback
  decide

end Construction

end PimLibrary.Crfgen
