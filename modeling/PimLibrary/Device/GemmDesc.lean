import PimLibrary.Device.PimInfo
import PimLibrary.Schemes.Float

/-! GEMM descriptors: the shapes of a product and their padding.

    The input dimension is padded to 256 and the output dimension to 4096, unless all outputs together
    already fill whole tiles. The padded sizes go through single precision, so a large size can come
    out smaller than it was; where it does not, it grows by less than one tile. -/

namespace PimLibrary.Device
open Schemes.Word

attribute [local irreducible] int32

abbrev PIM_GEMV_IN_ALIGN : ℕ := 256

structure PimGemmDesc where
  in_bshape : PimBShape
  in_bshape_r : PimBShape
  wei_bshape : PimBShape
  wei_bshape_r : PimBShape
  bias_bshape : PimBShape
  bias_bshape_r : PimBShape
  out_bshape : PimBShape
  out_bshape_r : PimBShape
  gemm_order : PimGemmOrder

/-- `align * ceil((float)size / align)` of a field read and written as an `int`. -/
def aligned_size (align : ℕ) (size : UInt32) : UInt32 :=
  let size := int32 size.toNat
  .ofNat (toUint32 (if 0 ≤ size then (ceil_align align size.toNat : ℤ)
    else -((align * (float32 size.natAbs / align) : ℕ) : ℤ)))

/-- The aligned output size of `n * c` matrices; `out_align` is an `int` product. -/
def aligned_out_size (n c out : UInt32) : UInt32 :=
  if int32 (n.toNat * c.toNat * out.toNat : ℕ) % PIM_GEMV_OUT_ALIGN = 0 then out
  else aligned_size PIM_GEMV_OUT_ALIGN out

def aligned_in_size (inp : UInt32) : UInt32 := aligned_size PIM_GEMV_IN_ALIGN inp

def align_gemm_shape (d : PimGemmDesc) : PimGemmDesc :=
  let n := d.in_bshape_r.n
  let c := d.in_bshape_r.c
  match d.gemm_order with
  | .W_X_I =>
    let aligned_in := aligned_in_size d.in_bshape_r.h
    let aligned_out := aligned_out_size n c d.out_bshape_r.h
    { d with
      in_bshape := { d.in_bshape_r with h := aligned_in }
      wei_bshape := { d.wei_bshape_r with w := aligned_in, h := aligned_out }
      bias_bshape := { d.bias_bshape_r with h := aligned_out }
      out_bshape := { d.out_bshape_r with h := aligned_out } }
  | .I_X_W =>
    let aligned_in := aligned_in_size d.in_bshape_r.w
    let aligned_out := aligned_out_size n c d.out_bshape_r.w
    { d with
      in_bshape := { d.in_bshape_r with w := aligned_in }
      wei_bshape := { d.wei_bshape_r with h := aligned_in, w := aligned_out }
      bias_bshape := { d.bias_bshape_r with w := aligned_out }
      out_bshape := { d.out_bshape_r with w := aligned_out } }

def PimCreateGemmDesc (n c in_h in_w out_h out_w : UInt32) (gemm_order : PimGemmOrder) : PimGemmDesc :=
  let in_bshape_r : PimBShape := ⟨n, c, in_h, in_w⟩
  let wei_bshape_r : PimBShape :=
    match gemm_order with
    | .W_X_I => ⟨n, c, out_h, in_h⟩
    | .I_X_W => ⟨n, c, in_w, out_w⟩
  let out_bshape_r : PimBShape := ⟨n, c, out_h, out_w⟩
  align_gemm_shape ⟨in_bshape_r, in_bshape_r, wei_bshape_r, wei_bshape_r, out_bshape_r,
    out_bshape_r, out_bshape_r, out_bshape_r, gemm_order⟩

/-- `set_pimbo_t` swaps the sides of both shapes. -/
def PimBShape.t (s : PimBShape) : PimBShape := ⟨s.n, s.c, s.w, s.h⟩

def set_pimbo_t (bo : PimBo) : PimBo := ⟨bo.bshape.t, bo.bshape_r.t, bo.precision⟩

/-! ### Padding of the output -/

/-- Padding of a nonnegative `int`. -/
theorem aligned_size_small {k : ℕ} (hk : k ≤ 31) {size : UInt32} (hsmall : size.toNat < 2 ^ 31) :
    (aligned_size (2 ^ k) size).toNat = ceil_align (2 ^ k) size.toNat := by
  have hfloat : float32 size.toNat ≤ 2 ^ 31 :=
    float32_le hsmall.le (ulp_dvd_two_pow (by omega))
  have hceil : ceil_align (2 ^ k) size.toNat ≤ 2 ^ 31 :=
    ceil_align_le (Nat.two_pow_pos k) hfloat (Nat.pow_dvd_pow 2 hk)
  rw [aligned_size]
  simp only [int32_natCast hsmall, Int.natCast_nonneg, if_true, Int.toNat_natCast]
  rw [toUint32_natCast (hceil.trans_lt (by norm_num))]
  exact UInt32.toNat_ofNat_of_lt' (hceil.trans_lt (by norm_num))

/-- Padding of an `int` that reads as negative cuts its magnitude down to whole multiples. -/
theorem aligned_size_large (k : ℕ) {size : UInt32} (hlarge : 2 ^ 31 ≤ size.toNat) :
    (aligned_size (2 ^ k) size).toNat =
      (2 ^ 32 - float32 (2 ^ 32 - size.toNat) / 2 ^ k * 2 ^ k) % 2 ^ 32 := by
  have hlt := size.toNat_lt
  have hneg : int32 (size.toNat : ℤ) = -((2 ^ 32 - size.toNat : ℕ) : ℤ) := by
    rw [int32_upper (by omega) (by omega)]
    omega
  have hfloat : float32 (2 ^ 32 - size.toNat) ≤ 2 ^ 31 :=
    float32_le (by omega) (ulp_dvd_two_pow (by omega))
  have hfloor := (Nat.div_mul_le_self (float32 (2 ^ 32 - size.toNat)) (2 ^ k)).trans hfloat
  have hif : ¬ 0 ≤ -((2 ^ 32 - size.toNat : ℕ) : ℤ) := by omega
  rw [aligned_size]
  simp only [hneg, hif, if_false, Int.natAbs_neg, Int.natAbs_natCast, Nat.mul_comm (2 ^ k)]
  generalize float32 (2 ^ 32 - size.toNat) / 2 ^ k * 2 ^ k = m at hfloor
  refine (UInt32.toNat_ofNat_of_lt' (toUint32_lt _)).trans ?_
  unfold toUint32
  omega

theorem dvd_aligned_size {k : ℕ} (hk : k ≤ 31) (size : UInt32) :
    2 ^ k ∣ (aligned_size (2 ^ k) size).toNat := by
  rcases Nat.lt_or_ge size.toNat (2 ^ 31) with hsmall | hlarge
  · exact aligned_size_small hk hsmall ▸ dvd_ceil_align _ _
  · have hword : 2 ^ k ∣ 2 ^ 32 := Nat.pow_dvd_pow 2 (by omega)
    rw [aligned_size_large k hlarge]
    exact (Nat.dvd_mod_iff hword).mpr (Nat.dvd_sub hword (Dvd.intro_left _ rfl))

/-- The aligned size is whole tiles, less than one above the size. -/
theorem aligned_size_bounds (size : UInt32) : 4096 ∣ (aligned_size 4096 size).toNat ∧
    (aligned_size 4096 size).toNat < size.toNat + 4096 := by
  refine ⟨dvd_aligned_size (k := 12) (by norm_num) size, ?_⟩
  have hlt := size.toNat_lt
  rcases Nat.lt_or_ge size.toNat (2 ^ 31) with hsmall | hlarge
  · have hulp : ulp size.toNat ∣ 4096 := ulp_dvd_two_pow (k := 12) (by omega)
    have hceil : ceil_align 4096 size.toNat ≤ (size.toNat + 4095) / 4096 * 4096 :=
      ceil_align_le (by norm_num) (float32_le (by omega) (hulp.trans (Dvd.intro_left _ rfl)))
        (Dvd.intro_left _ rfl)
    have hsize : (aligned_size 4096 size).toNat = ceil_align 4096 size.toNat :=
      aligned_size_small (k := 12) (by norm_num) hsmall
    omega
  · have hulp : ulp (2 ^ 32 - size.toNat) ∣ 4096 := ulp_dvd_two_pow (k := 12) (by omega)
    have hfloor : (2 ^ 32 - size.toNat) / 4096 * 4096 ≤ float32 (2 ^ 32 - size.toNat) :=
      le_float32 (Nat.div_mul_le_self _ _) (hulp.trans (Dvd.intro_left _ rfl))
    have hsize : (aligned_size 4096 size).toNat =
        (2 ^ 32 - float32 (2 ^ 32 - size.toNat) / 4096 * 4096) % 2 ^ 32 := aligned_size_large 12 hlarge
    generalize float32 (2 ^ 32 - size.toNat) = f at hfloor hsize
    omega

/-- The size is at most the aligned one: it is not rounded to a multiple that lies below it. -/
def Grows (align : ℕ) (size : UInt32) : Prop :=
  if size.toNat < 2 ^ 31 then float32 size.toNat < size.toNat → ¬ align ∣ float32 size.toNat
  else align ≤ 2 ^ 32 - size.toNat ∧
    (2 ^ 32 - size.toNat < float32 (2 ^ 32 - size.toNat) → ¬ align ∣ float32 (2 ^ 32 - size.toNat))

instance (align : ℕ) (size : UInt32) : Decidable (Grows align size) := by
  delta Grows
  infer_instance

example : ¬ Grows 256 (2 ^ 24 + 1) := by decide

theorem le_aligned_size_iff {k : ℕ} (hk : k ≤ 24) (size : UInt32) :
    size.toNat ≤ (aligned_size (2 ^ k) size).toNat ↔ Grows (2 ^ k) size := by
  have hlt := size.toNat_lt
  rw [Grows]
  split_ifs with hsmall
  · rw [aligned_size_small (by omega) hsmall, ← not_lt, ceil_align_lt_iff, not_and]
  · rw [aligned_size_large k (not_lt.mp hsmall), ← not_and, ← lt_floor_align_iff, not_lt]
    have hpos := Nat.two_pow_pos k
    -- a magnitude below one multiple is exact, and none of it is left
    have hreach : 2 ^ k ≤ 2 ^ 32 - size.toNat ↔ 0 < float32 (2 ^ 32 - size.toNat) / 2 ^ k * 2 ^ k := by
      rw [Nat.mul_pos_iff_of_pos_right hpos, Nat.div_pos_iff, and_iff_right hpos]
      constructor
      · intro hle
        rcases Nat.lt_or_ge (2 ^ 32 - size.toNat) (2 ^ 24) with hexact | hbig
        · rwa [float32_of_lt hexact]
        · exact (Nat.pow_le_pow_right (by norm_num) hk).trans (le_float32 hbig (ulp_dvd_two_pow (by omega)))
      · intro hle
        by_contra hgt
        have hexact : 2 ^ 32 - size.toNat < 2 ^ 24 :=
          (not_le.mp hgt).trans_le (Nat.pow_le_pow_right (by norm_num) hk)
        rw [float32_of_lt hexact] at hle
        exact hgt hle
    have hfloat : float32 (2 ^ 32 - size.toNat) ≤ 2 ^ 31 :=
      float32_le (by omega) (ulp_dvd_two_pow (by omega))
    have hfloor := (Nat.div_mul_le_self (float32 (2 ^ 32 - size.toNat)) (2 ^ k)).trans hfloat
    rw [hreach]
    generalize float32 (2 ^ 32 - size.toNat) / 2 ^ k * 2 ^ k = m at hfloor
    omega

/-- Padding leaves the size, or makes it whole tiles and adds less than one. -/
theorem aligned_out_size_cases (n c out : UInt32) :
    aligned_out_size n c out = out ∧ 4096 ∣ n.toNat * c.toNat * out.toNat ∨
      4096 ∣ (aligned_out_size n c out).toNat ∧ (aligned_out_size n c out).toNat <
        out.toNat + 4096 := by
  rw [aligned_out_size]
  split_ifs with h
  · left
    refine ⟨rfl, ?_⟩
    obtain ⟨k, hk⟩ := int32_eq_add_mul ((n.toNat * c.toNat * out.toNat : ℕ) : ℤ)
    rw [hk] at h
    change _ % (4096 : ℤ) = 0 at h
    generalize n.toNat * c.toNat * out.toNat = m at h ⊢
    omega
  · exact Or.inr (aligned_size_bounds out)

end PimLibrary.Device
