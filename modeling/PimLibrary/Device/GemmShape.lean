import PimLibrary.Device.GemmDesc

/-! What a padded GEMM shape must be for its weight to be converted.

    A weight is converted by one of two loops: the channel-wise one, for narrow outputs that fill whole
    tiles together, and the aligned one, for outputs that fill whole tiles one by one. The padding looks
    at all outputs together only, so a wide output that is not whole tiles passes through unpadded. -/

namespace PimLibrary.Device
open Schemes.Word

/-- The weight buffer of a descriptor. -/
def gemm_weight (d : PimGemmDesc) : PimBo := ⟨d.wei_bshape, d.wei_bshape_r, .PIM_FP16⟩

/-- The input, bias and output buffers have the dimensions of the weight. -/
structure ShapesAgree (d : PimGemmDesc) : Prop where
  input : outDim d.in_bshape d.gemm_order = inDim d.wei_bshape d.gemm_order
  bias : outDim d.bias_bshape d.gemm_order = outDim d.wei_bshape d.gemm_order
  output : outDim d.out_bshape d.gemm_order = outDim d.wei_bshape d.gemm_order

/-- The padded shape covers the real one, and one of the two conversions covers the padded one. -/
structure ShapeSupported (d : PimGemmDesc) : Prop where
  agree : ShapesAgree d
  in_aligned : PIM_GEMV_IN_ALIGN ∣ inDim d.wei_bshape d.gemm_order
  in_covers : inDim d.wei_bshape_r d.gemm_order ≤ inDim d.wei_bshape d.gemm_order
  out_covers : outDim d.wei_bshape_r d.gemm_order ≤ outDim d.wei_bshape d.gemm_order
  converted : check_chwise_gemm_bo (gemm_weight d) d.gemm_order = true ∨
    PIM_GEMV_OUT_ALIGN ∣ outDim d.wei_bshape d.gemm_order

/-- The real length of one input vector. -/
def in_size (in_h in_w : UInt32) : PimGemmOrder → UInt32
  | .W_X_I => in_h
  | .I_X_W => in_w

/-- The real length of one output vector. -/
def out_size (out_h out_w : UInt32) : PimGemmOrder → UInt32
  | .W_X_I => out_h
  | .I_X_W => out_w

variable (n c in_h in_w out_h out_w : UInt32) (order : PimGemmOrder)

/-- What the descriptor says about the weight. -/
theorem wei_bshape_eq :
    let d := PimCreateGemmDesc n c in_h in_w out_h out_w order
    d.gemm_order = order ∧ matrices d.wei_bshape = n.toNat * c.toNat ∧
      inDim d.wei_bshape_r order = (in_size in_h in_w order).toNat ∧
      outDim d.wei_bshape_r order = (out_size out_h out_w order).toNat ∧
      inDim d.wei_bshape order = (aligned_in_size (in_size in_h in_w order)).toNat ∧
      outDim d.wei_bshape order = (aligned_out_size n c (out_size out_h out_w order)).toNat := by
  cases order <;>
    simp only [PimCreateGemmDesc, align_gemm_shape, matrices, inDim, outDim, in_size,
      out_size, and_self]

theorem gemm_shapes_agree : ShapesAgree (PimCreateGemmDesc n c in_h in_w out_h out_w order) := by
  cases order <;> constructor <;> simp only [PimCreateGemmDesc, align_gemm_shape, inDim, outDim]

/-! ### The output dimension -/

/-- Whether all outputs together are whole tiles. -/
theorem aligned_out_size_eq (out : UInt32) :
    aligned_out_size n c out = if 4096 ∣ n.toNat * c.toNat * out.toNat then out
      else aligned_size 4096 out := by
  have hword : int32 (n.toNat * c.toNat * out.toNat : ℕ) % PIM_GEMV_OUT_ALIGN = 0 ↔
      4096 ∣ n.toNat * c.toNat * out.toNat := by
    obtain ⟨k, hk⟩ := int32_eq_add_mul ((n.toNat * c.toNat * out.toNat : ℕ) : ℤ)
    rw [hk]
    change _ % (4096 : ℤ) = 0 ↔ _
    generalize n.toNat * c.toNat * out.toNat = m
    omega
  rw [aligned_out_size]
  simp only [hword]

/-- The output dimension is padded to what a conversion takes, or needs no padding. -/
def OutputConvertible (n c out : UInt32) : Prop :=
  if 4096 ∣ n.toNat * c.toNat * out.toNat then out.toNat < 4096 ∨ 4096 ∣ out.toNat else Grows 4096 out

instance (out : UInt32) : Decidable (OutputConvertible n c out) := by
  delta OutputConvertible
  infer_instance

/-- The padded output is long enough, and narrow in whole tiles or wide in whole tiles. -/
theorem outputConvertible_iff (out : UInt32) :
    out.toNat ≤ (aligned_out_size n c out).toNat ∧
      (((aligned_out_size n c out).toNat < 4096 ∧ 4096 ∣ n.toNat * c.toNat *
        (aligned_out_size n c out).toNat) ∨
        4096 ∣ (aligned_out_size n c out).toNat) ↔ OutputConvertible n c out := by
  rw [OutputConvertible, aligned_out_size_eq]
  split_ifs with hwhole
  · rw [and_iff_right (le_refl _), and_iff_left hwhole]
  · have hdvd : 4096 ∣ (aligned_size 4096 out).toNat := dvd_aligned_size (k := 12) (by norm_num) out
    rw [and_iff_left (Or.inr hdvd)]
    exact le_aligned_size_iff (k := 12) (by norm_num) out

/-! ### The whole shape -/

/-- Which descriptors have a shape that covers the real one and that a conversion takes. -/
theorem gemm_shape_supported_iff :
    ShapeSupported (PimCreateGemmDesc n c in_h in_w out_h out_w order) ↔
      Grows PIM_GEMV_IN_ALIGN (in_size in_h in_w order) ∧
        OutputConvertible n c (out_size out_h out_w order) := by
  obtain ⟨horder, hmat, hin_r, hout_r, hin, hout⟩ := wei_bshape_eq n c in_h in_w out_h out_w order
  have hgrows := le_aligned_size_iff (k := 8) (by norm_num) (in_size in_h in_w order)
  have hdvd : 256 ∣ (aligned_in_size (in_size in_h in_w order)).toNat :=
    dvd_aligned_size (k := 8) (by norm_num) (in_size in_h in_w order)
  have hconv := outputConvertible_iff n c (out_size out_h out_w order)
  constructor
  · rintro ⟨-, -, hcovers, hout_covers, hconverted⟩
    rw [horder] at hcovers hout_covers hconverted
    rw [check_chwise_gemm_bo_iff] at hconverted
    rw [hin_r, hin] at hcovers
    rw [hout_r, hout] at hout_covers
    rw [gemm_weight, hmat, hout] at hconverted
    exact ⟨hgrows.mp hcovers, hconv.mp ⟨hout_covers, hconverted⟩⟩
  · rintro ⟨hin_grows, hout_conv⟩
    obtain ⟨hout_covers, hconverted⟩ := hconv.mpr hout_conv
    refine ⟨gemm_shapes_agree n c in_h in_w out_h out_w order, ?_, ?_, ?_, ?_⟩
    · rw [horder, hin]
      exact hdvd
    · rw [horder, hin_r, hin]
      exact hgrows.mpr hin_grows
    · rw [horder, hout_r, hout]
      exact hout_covers
    · rw [horder, check_chwise_gemm_bo_iff, gemm_weight, hmat, hout]
      exact hconverted

/-- Two outputs of a tile and a half each fill three tiles together, and neither conversion takes
    them. -/
theorem gemm_shape_tile_and_a_half : ¬ ∀ (n c in_h in_w out_h out_w : UInt32) (order : PimGemmOrder),
    ShapeSupported (PimCreateGemmDesc n c in_h in_w out_h out_w order) := by
  intro hall
  have hconv := (hall 2 1 1 256 1 6144 .I_X_W).converted
  revert hconv
  decide

end PimLibrary.Device
