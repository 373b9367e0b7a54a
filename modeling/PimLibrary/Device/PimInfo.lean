import PimLibrary.Schemes.Word

/-! The block description of the PIM device and the buffer objects of the runtime.

    Shapes are four `uint32_t`, so products of shape fields wrap as the source's do. -/

namespace PimLibrary.Device
open Schemes.Word

/-- The fields of `PimBlockInfo` that address generation and layout conversion read. -/
structure PimBlockInfo where
  num_banks : ℕ
  num_bank_groups : ℕ
  num_row_bit : ℕ
  num_col_high_bit : ℕ
  num_bank_high_bit : ℕ
  num_bankgroup_bit : ℕ
  num_bank_low_bit : ℕ
  num_chan_bit : ℕ
  num_offset_bit : ℕ
  num_grf : ℕ
  num_grf_A : ℕ
  num_grf_B : ℕ
  num_col : ℕ
  num_row : ℕ
  bl : ℕ
  num_pim_blocks : ℕ
  num_pim_rank : ℕ
  num_pim_chan : ℕ
  trans_size : ℕ

def vega20_pbi : PimBlockInfo where
  num_banks := 16
  num_bank_groups := 4
  num_row_bit := 14
  num_col_high_bit := 3
  num_bank_high_bit := 1
  num_bankgroup_bit := 2
  num_bank_low_bit := 1
  num_chan_bit := 6
  num_offset_bit := 5
  num_grf := 8
  num_grf_A := 8
  num_grf_B := 8
  num_col := 128
  num_row := 16384
  bl := 4
  num_pim_blocks := 8
  num_pim_rank := 1
  num_pim_chan := 64
  trans_size := 32

abbrev PIM_GEMV_OUT_ALIGN : ℕ := 4096

inductive PimGemmOrder where | W_X_I | I_X_W
  deriving DecidableEq, Repr

inductive PimPrecision where | PIM_FP16 | PIM_INT8
  deriving DecidableEq, Repr

inductive PimMemType where | MEM_TYPE_HOST | MEM_TYPE_DEVICE | MEM_TYPE_PIM
  deriving DecidableEq, Repr

inductive PimActFunc where | NONE | ACT_RELU
  deriving DecidableEq, Repr

structure PimBShape where
  n : UInt32
  c : UInt32
  h : UInt32
  w : UInt32
  deriving DecidableEq, Repr

/-- A buffer object: padded shape, real shape and element type. -/
structure PimBo where
  bshape : PimBShape
  bshape_r : PimBShape
  precision : PimPrecision
  deriving DecidableEq, Repr

/-- The buffer `PimCreateBo(n, c, h, w, PIM_FP16, ..)` describes: padded and real shape coincide. -/
def PimCreateBo (s : PimBShape) : PimBo := ⟨s, s, .PIM_FP16⟩

/-- The byte size `PimCreateBo(n, c, h, w, precision, ..)` records: an `int` product, then a
    `size_t`. -/
def bo_size (n c h w : ℤ) (precision : PimPrecision) : UInt64 :=
  .ofNat (toUint64 (int32 (n * c * h * w * if precision = .PIM_FP16 then 2 else 1)))

def type_size (bo : PimBo) : UInt32 :=
  match bo.precision with
  | .PIM_FP16 => 2
  | .PIM_INT8 => 1

/-- The predicate that sends a weight down the channel-wise path. -/
def check_chwise_gemm_bo (bo : PimBo) (gemm_order : PimGemmOrder) : Bool :=
  match gemm_order with
  | .I_X_W =>
    if bo.bshape.w ≥ 4096 then false
    else if bo.bshape.n * bo.bshape.c * bo.bshape.w % 4096 ≠ 0 then false
    else true
  | .W_X_I =>
    if bo.bshape.h ≥ 4096 then false
    else if bo.bshape.n * bo.bshape.c * bo.bshape.h % 4096 ≠ 0 then false
    else true

abbrev DIM_OUT_PIM : UInt32 := 3200

/-- Whether a raw weight of this real shape is worth the PIM path. -/
def is_pim_applicable (bshape_r : PimBShape) (gemm_order : PimGemmOrder) : Bool :=
  let wei_dim := match gemm_order with
    | .W_X_I => bshape_r.h
    | .I_X_W => bshape_r.w
  if wei_dim = 32317 then false
  else if bshape_r.n * bshape_r.c * wei_dim ≥ DIM_OUT_PIM then true
  else false

/-- The dimension along which one input vector is multiplied. -/
def inDim (s : PimBShape) : PimGemmOrder → ℕ
  | .I_X_W => s.h.toNat
  | .W_X_I => s.w.toNat

/-- The dimension of one output vector. -/
def outDim (s : PimBShape) : PimGemmOrder → ℕ
  | .I_X_W => s.w.toNat
  | .W_X_I => s.h.toNat

/-- How many `[h][w]` matrices the weight holds. -/
def matrices (s : PimBShape) : ℕ := s.n.toNat * s.c.toNat

/-- An FP16 weight's size in bytes, as an exact number. -/
def byteSize (s : PimBShape) : ℕ := matrices s * s.h.toNat * s.w.toNat * 2

theorem byteSize_eq (s : PimBShape) (order : PimGemmOrder) :
    byteSize s = matrices s * outDim s order * inDim s order * 2 := by
  cases order <;> simp only [byteSize, inDim, outDim]
  ring

/-- What acceptance says about the exact product: below the tile width, and whole tiles. The wrap
    of the 32-bit product is invisible because `4096` divides `2^32`. -/
theorem check_chwise_gemm_bo_iff (bo : PimBo) (order : PimGemmOrder) :
    check_chwise_gemm_bo bo order = true ↔
      outDim bo.bshape order < 4096 ∧ 4096 ∣ matrices bo.bshape * outDim bo.bshape order := by
  have key : ∀ x : UInt32, (if x ≥ 4096 then false
      else if bo.bshape.n * bo.bshape.c * x % 4096 ≠ 0 then false else true) = true ↔
      x.toNat < 4096 ∧ 4096 ∣ matrices bo.bshape * x.toNat := by
    intro x
    have hge : x ≥ 4096 ↔ 4096 ≤ x.toNat := by rw [ge_iff_le, UInt32.le_iff_toNat_le]; rfl
    have hmod : bo.bshape.n * bo.bshape.c * x % 4096 = 0 ↔
        4096 ∣ matrices bo.bshape * x.toNat := by
      rw [← UInt32.toNat_inj, matrices]
      simp only [UInt32.toNat_mod, UInt32.toNat_mul, UInt32.toNat_ofNat, Nat.mod_mul_mod]
      generalize bo.bshape.n.toNat * bo.bshape.c.toNat * x.toNat = p
      norm_num only
      omega
    split_ifs with h1 h2 <;> simp_all
  cases order
  · exact key bo.bshape.h
  · exact key bo.bshape.w

end PimLibrary.Device
