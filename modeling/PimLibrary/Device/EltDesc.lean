import Mathlib.Algebra.Order.Floor.Div
import PimLibrary.Device.GemmDesc
import PimLibrary.Program.PimCommand
import PimLibrary.Schemes.FloatDiv

/-! Descriptors of element-wise operations: the padding of a flat length.

    The length is padded to whole tiles, and the padding is realised by widening one dimension. The
    other dimensions multiply the new width, so the padded shape holds whole tiles only where their
    product divides the tiles up. Two roundings to single precision and 32-bit products lie on the
    way. -/

namespace PimLibrary.Device
open Schemes.Word PimLibrary.Program

abbrev PIM_ELTWISE_ALIGN : ℕ := 256 * 1024

structure PimDesc where
  bshape : PimBShape
  bshape_r : PimBShape
  precision : PimPrecision
  op_type : PimOpType
  deriving DecidableEq, Repr

/-- A whole floating-point number assigned to a `uint32_t`; one that does not fit has no value. -/
def to_uint32 (x : ℕ) : Option UInt32 := if x < 2 ^ 32 then some (.ofNat x) else none

/-- The `uint32_t` product of all dimensions but the width. -/
def PimBShape.rest (bs : PimBShape) : UInt32 := bs.n * bs.h * bs.c

def align_shape (pim_desc : PimDesc) (op_type : PimOpType) : Option PimDesc := do
  let bs := pim_desc.bshape_r
  match op_type with
  | .OP_GEMV =>
    let h ← to_uint32 (ceil_align PIM_GEMV_IN_ALIGN bs.h.toNat)
    let w ← to_uint32 (ceil_align PIM_GEMV_OUT_ALIGN bs.w.toNat)
    some { pim_desc with bshape := { bs with h := h, w := w } }
  | _ =>
    let buffer_length := bs.n * bs.c * bs.h * bs.w
    let aligned_length := ceil_align PIM_ELTWISE_ALIGN buffer_length.toNat
    -- a product that wraps to zero makes the quotient infinite or not a number
    if bs.rest = 0 then none else
    let w ← to_uint32 (ceil_float_div (float32 aligned_length) (float32 bs.rest.toNat))
    some { pim_desc with bshape := { bs with w := w } }

/-- `bshape` has no value of its own before `align_shape` assigns it. -/
def PimCreateDesc (n c h w : UInt32) (precision : PimPrecision) (op_type : PimOpType) :
    Option PimDesc :=
  let bshape_r : PimBShape := ⟨n, c, h, w⟩
  align_shape ⟨bshape_r, bshape_r, precision, op_type⟩ op_type

inductive PimMemFlag where
  | ELT_OP | GEMV_INPUT | GEMV_WEIGHT | GEMV_OUTPUT | GEMM_INPUT | GEMM_WEIGHT | GEMM_BIAS | GEMM_OUTPUT
  deriving DecidableEq, Repr

/-- The shape of the buffer for a role of the descriptor. -/
def PimBShape.select (bs : PimBShape) : PimMemFlag → Option PimBShape
  | .ELT_OP => some bs
  | .GEMV_INPUT => some ⟨bs.n, 1, 1, bs.h⟩
  | .GEMV_WEIGHT => some ⟨1, 1, bs.h, bs.w⟩
  | .GEMV_OUTPUT => some ⟨bs.n, 1, 1, bs.w⟩
  | _ => none

/-- A `size_t` product; a flag of another kind of descriptor has size 0. -/
def get_aligned_size (pim_desc : PimDesc) (mem_flag : PimMemFlag) : UInt64 :=
  match pim_desc.bshape.select mem_flag with
  | some bs => bs.n.toUInt64 * bs.c.toUInt64 * bs.h.toUInt64 * bs.w.toUInt64
  | none => 0

/-- The byte size that `PimCreateBo(pim_desc, ..)` records. -/
def desc_size (pim_desc : PimDesc) (mem_flag : PimMemFlag) : UInt64 :=
  get_aligned_size pim_desc mem_flag * if pim_desc.precision = .PIM_FP16 then 2 else 1

/-- The number of elements, exactly. -/
def PimBShape.elements (s : PimBShape) : ℕ := s.n.toNat * s.c.toNat * s.h.toNat * s.w.toNat

theorem get_aligned_size_elt (d : PimDesc) : (get_aligned_size d .ELT_OP).toNat =
    d.bshape.elements % 2 ^ 64 := by
  simp only [get_aligned_size, PimBShape.select, PimBShape.elements, UInt64.toNat_mul,
    UInt32.toNat_toUInt64, Nat.mod_mul_mod]

/-- The padded shape is wider only, covers the real one and holds whole tiles. -/
structure EltPadded (d : PimDesc) : Prop where
  n : d.bshape.n = d.bshape_r.n
  c : d.bshape.c = d.bshape_r.c
  h : d.bshape.h = d.bshape_r.h
  covers : d.bshape_r.elements ≤ d.bshape.elements
  whole : PIM_ELTWISE_ALIGN ∣ d.bshape.elements

/-! ### Exact widths -/

/-- `m` rows of `w` elements in whole tiles. -/
def tiled_length (m w : ℕ) : ℕ := PIM_ELTWISE_ALIGN * ((m * w) ⌈/⌉ PIM_ELTWISE_ALIGN)

/-- The least width with which `m` rows cover the whole tiles. -/
def tiled_width (m w : ℕ) : ℕ := tiled_length m w ⌈/⌉ m

/-- No word wraps, no rounding reaches another integer, and the rows of the least width are whole
    tiles. -/
@[mk_iff]
structure Widens (m w : ℕ) : Prop where
  rows : m ≠ 0
  fits : m * w < 2 ^ 32
  rows_exact : float32 m = m
  length_kept : float32 (m * w) < m * w → ¬ PIM_ELTWISE_ALIGN ∣ float32 (m * w)
  width_fits : tiled_width m w < 2 ^ 32
  width_kept : m ∣ tiled_length m w ∨
    m * 2 ^ Nat.log2 (tiled_width m w - 1) < 2 ^ 24 * (tiled_length m w - (tiled_width m w - 1) * m)
  whole : PIM_ELTWISE_ALIGN ∣ m * tiled_width m w

instance (m w : ℕ) : Decidable (Widens m w) := decidable_of_iff' _ (widens_iff m w)

end PimLibrary.Device
