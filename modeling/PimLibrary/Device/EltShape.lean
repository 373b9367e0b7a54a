import PimLibrary.Device.EltDesc

/-! Which flat lengths the widening pads to whole tiles.

    The rounded quotient stays within `2^11` elements of the tiles, so whole tiles on the widened rows
    leave room for one width only, the least that covers them. A product of whole tiles holds enough
    powers of two to make its long factor exact in single precision. -/

namespace PimLibrary.Device
open Schemes.Word PimLibrary.Program

/-! ### Powers of two in whole tiles -/

theorem dvd_of_dvd_mul_small {x y : ℕ} (hpos : 0 < y) (hy : y < 512) (h : 2 ^ 18 ∣ x * y) :
    2 ^ 10 ∣ x := by
  obtain ⟨u, v, hu, hv, huv⟩ := Nat.dvd_mul.mp h
  obtain ⟨j, -, rfl⟩ := (Nat.dvd_prime_pow Nat.prime_two).mp (Dvd.intro_left u huv)
  have hj : j < 9 := by
    have hle : 2 ^ j < 2 ^ 9 := (Nat.le_of_dvd hpos hv).trans_lt hy
    exact (Nat.pow_lt_pow_iff_right (by norm_num)).mp hle
  have hdvd : 2 ^ 10 * 2 ^ j ∣ u * 2 ^ j := by
    rw [huv, ← Nat.pow_add]
    exact Nat.pow_dvd_pow 2 (by omega)
  exact (Nat.dvd_of_mul_dvd_mul_right (Nat.two_pow_pos j) hdvd).trans hu

theorem ulp_dvd_of_le {x : ℕ} (hx : x ≤ 2 ^ 24) : ulp x ∣ x := by
  rcases Nat.lt_or_eq_of_le hx with hlt | rfl
  · exact (ulp_dvd_two_pow (k := 0) hlt).trans (one_dvd x)
  · exact (ulp_dvd_two_pow (k := 1) (by norm_num)).trans (Nat.pow_dvd_pow 2 (by norm_num))

/-- A factor of whole tiles is exact in single precision if it is short, or if its cofactor is. -/
theorem ulp_dvd_of_tiles {x y : ℕ} (hx : x < 2 ^ 32) (hpos : 0 < y) (hy : x < 2 ^ 24 ∨ y < 512)
    (h : 2 ^ 18 ∣ x * y) : ulp x ∣ x := by
  rcases hy with hx | hy
  · exact ulp_dvd_of_le hx.le
  · have hten := dvd_of_dvd_mul_small hpos hy h
    exact (ulp_dvd_two_pow (k := 8) hx).trans ((Nat.pow_dvd_pow 2 (by norm_num)).trans hten)

/-! ### The rounded width -/

section Width
variable {m a : ℕ} (hm : 0 < m) (hlt : m < 2 ^ 32) (ha : 2 ^ 18 ≤ a) (hle : a ≤ 2 ^ 32)

include hm hlt ha hle

/-- The rows of the rounded width nearly cover the length, and hardly more than the least rows do. -/
theorem rows_bounds : a < m * ceil_float_div a (float32 m) + 2 ^ 18 ∧
    m * ceil_float_div a (float32 m) < a + m + 2 ^ 11 := by
  obtain ⟨hup, hdown⟩ := float32_rel m
  have hpos : 0 < float32 m := by omega
  obtain ⟨hlow, hhigh⟩ := ceil_float_div_bounds hpos (a := a) (by omega)
  generalize hW : ceil_float_div a (float32 m) = W at hlow hhigh ⊢
  have hup' : 2 ^ 24 * (W * float32 m) ≤ 2 ^ 24 * (m * W) + m * W := by
    calc 2 ^ 24 * (W * float32 m) = W * (2 ^ 24 * float32 m) := by ring
      _ ≤ W * (2 ^ 24 * m + m) := Nat.mul_le_mul_left W hup
      _ = 2 ^ 24 * (m * W) + m * W := by ring
  have hdown' : 2 ^ 24 * (m * W) ≤ 2 ^ 24 * (W * float32 m) + m * W := by
    calc 2 ^ 24 * (m * W) = W * (2 ^ 24 * m) := by ring
      _ ≤ W * (2 ^ 24 * float32 m + m) := Nat.mul_le_mul_left W hdown
      _ = 2 ^ 24 * (W * float32 m) + m * W := by ring
  constructor
  · omega
  · omega

/-- Whole tiles on the rows cover the length. -/
theorem le_rows (hdvd : 2 ^ 18 ∣ a) (hwhole : 2 ^ 18 ∣ m * ceil_float_div a (float32 m)) :
    a ≤ m * ceil_float_div a (float32 m) := by
  have hlow := (rows_bounds hm hlt ha hle).1
  omega

/-- Whole tiles make the number of rows exact. -/
theorem float32_rows (hwhole : 2 ^ 18 ∣ m * ceil_float_div a (float32 m)) : float32 m = m := by
  obtain ⟨hlow, hhigh⟩ := rows_bounds hm hlt ha hle
  generalize ceil_float_div a (float32 m) = W at hlow hhigh hwhole
  have hpos : 0 < W := by
    rcases Nat.eq_zero_or_pos W with rfl | hpos
    · omega
    · exact hpos
  refine float32_eq_self (ulp_dvd_of_tiles hlt hpos ?_ hwhole)
  rcases lt_or_ge m (2 ^ 24) with hsmall | hlarge
  · exact Or.inl hsmall
  · right
    by_contra hW
    have hrows : m * 512 ≤ m * W := Nat.mul_le_mul_left m (not_lt.mp hW)
    omega

end Width

/-- A length that wraps comes from two rows, and they are too long for the tiles of what is left. -/
theorem no_wrap {m w a W : ℕ} (hlt : m < 2 ^ 32) (hlen : a < m * w % 2 ^ 32 + 2 ^ 18) (hle : a ≤ 2 ^ 32)
    (hkeep : 2 ^ 18 ∣ m * w % 2 ^ 32 → a ≤ m * w % 2 ^ 32) (hhigh : m * W < a + m + 2 ^ 11)
      (hwidth : w ≤ W)
    (hwhole : 2 ^ 18 ∣ m * W) : m * w < 2 ^ 32 := by
  by_contra hwrap
  have hrows : m * w ≤ m * W := Nat.mul_le_mul_left m hwidth
  have hm : 2 ^ 32 - 2 ^ 18 - 2 ^ 11 < m := by omega
  have hw : w = 2 := by
    rcases Nat.lt_or_ge w 2 with hsmall | hlarge
    · have hone : m * w ≤ m * 1 := Nat.mul_le_mul_left m (by omega)
      omega
    · by_contra hne
      have hthree : m * 3 ≤ m * w := Nat.mul_le_mul_left m (by omega)
      omega
  have hW : W = 2 := by
    by_contra hne
    have hthree : m * 3 ≤ m * W := Nat.mul_le_mul_left m (by omega)
    omega
  subst hw hW
  have hrest : a ≤ m * 2 % 2 ^ 32 := hkeep (by omega)
  omega

/-! ### The least width -/

section Least
variable {m a : ℕ} (hm : 0 < m)

include hm

theorem ceilDiv_bounds (ha : 0 < a) : a ≤ (a ⌈/⌉ m) * m ∧ 0 < a ⌈/⌉ m ∧ (a ⌈/⌉ m - 1) * m < a := by
  have hcover : a ≤ m * (a ⌈/⌉ m) := (ceilDiv_le_iff_le_mul hm).mp (le_refl _)
  have hpos : 0 < a ⌈/⌉ m := by
    by_contra hzero
    rw [Nat.eq_zero_of_not_pos hzero] at hcover
    omega
  refine ⟨by rwa [Nat.mul_comm] at hcover, hpos, ?_⟩
  by_contra hge
  have hless : a ⌈/⌉ m ≤ a ⌈/⌉ m - 1 :=
    (ceilDiv_le_iff_le_mul hm).mpr (by rw [Nat.mul_comm]; exact not_lt.mp hge)
  omega

variable (hlt : m < 2 ^ 32) (hexact : float32 m = m) (hdvd : 2 ^ 18 ∣ a) (ha : 2 ^ 18 ≤ a)
  (hle : a ≤ 2 ^ 32)

include hlt hexact hdvd ha hle

/-- A quotient from `2^23` on whose rows are whole tiles is exact. -/
theorem rows_eq_of_large (hlarge : 2 ^ 23 * m ≤ a) (hwhole : 2 ^ 18 ∣ m * ceil_float_div a m) :
    m * ceil_float_div a m = a := by
  have hcover := le_rows hm hlt ha hle hdvd (by rwa [hexact])
  have hnear := ceil_float_div_near hm hlarge
  rw [hexact] at hcover
  rw [Nat.mul_comm _ m] at hnear
  omega

/-- Whole tiles on the rows leave the least width only. -/
theorem width_eq_of_whole (hwhole : 2 ^ 18 ∣ m * ceil_float_div a m) :
    ceil_float_div a m = a ⌈/⌉ m := by
  obtain ⟨hcover, hpos, hbelow⟩ := ceilDiv_bounds hm (a := a) (by omega)
  have hrows := le_rows hm hlt ha hle hdvd (by rwa [hexact])
  rw [hexact] at hrows
  refine le_antisymm ?_ ((ceilDiv_le_iff_le_mul hm).mpr hrows)
  rcases le_or_gt (a ⌈/⌉ m) (2 ^ 24) with hsmall | hlarge
  · exact ceil_float_div_le hm (ulp_dvd_of_le hsmall) hcover
  · have hquot : 2 ^ 23 * m ≤ (a ⌈/⌉ m - 1) * m := Nat.mul_le_mul_right m (by omega)
    have heq := rows_eq_of_large hm hlt hexact hdvd ha hle (hquot.trans hbelow.le) hwhole
    exact Nat.le_of_mul_le_mul_left (heq.le.trans (by rwa [Nat.mul_comm m])) hm

/-- Whole tiles are not reached from a quotient that is rounded down to an integer. -/
theorem width_kept_of_whole (hwhole : 2 ^ 18 ∣ m * ceil_float_div a m) :
    m ∣ a ∨ m * 2 ^ Nat.log2 (a ⌈/⌉ m - 1) < 2 ^ 24 * (a - (a ⌈/⌉ m - 1) * m) := by
  by_contra hnot
  obtain ⟨hndvd, hexcess⟩ := not_or.mp hnot
  obtain ⟨hcover, hpos, hbelow⟩ := ceilDiv_bounds hm (a := a) (by omega)
  have heq := width_eq_of_whole hm hlt hexact hdvd ha hle hwhole
  obtain ⟨n, hn⟩ : ∃ n, a ⌈/⌉ m = n + 1 := ⟨_, (Nat.sub_add_cancel hpos).symm⟩
  rw [hn] at hcover hbelow hexcess heq
  rw [Nat.add_sub_cancel] at hbelow hexcess
  have hhi : a < (n + 1) * m := lt_of_le_of_ne hcover fun h => hndvd (h ▸ Dvd.intro_left _ rfl)
  rcases Nat.eq_zero_or_pos n with rfl | hnpos
  · rw [Nat.log2_zero] at hexcess
    omega
  · rcases Nat.lt_or_ge n (2 ^ 23) with hsmall | hlarge
    · have hdown := ceil_float_div_le_of_excess hm hnpos hsmall hbelow.le hhi (not_lt.mp hexcess)
      omega
    · have hquot : 2 ^ 23 * m ≤ n * m := Nat.mul_le_mul_right m hlarge
      have hrows := rows_eq_of_large hm hlt hexact hdvd ha hle (hquot.trans hbelow.le) hwhole
      exact hndvd (Dvd.intro _ hrows)

/-- The rounded width is the least one where the quotient keeps its ceiling. -/
theorem width_eq_of_kept (hfits : a ⌈/⌉ m < 2 ^ 32) (hwhole : 2 ^ 18 ∣ m * (a ⌈/⌉ m))
    (hkept : m ∣ a ∨ m * 2 ^ Nat.log2 (a ⌈/⌉ m - 1) < 2 ^ 24 * (a - (a ⌈/⌉ m - 1) * m)) :
    ceil_float_div a m = a ⌈/⌉ m := by
  by_cases hmdvd : m ∣ a
  · obtain ⟨k, rfl⟩ := hmdvd
    have hk : m * k ⌈/⌉ m = k := smul_ceilDiv hm k
    rw [hk] at hfits hwhole ⊢
    have hshort : k < 2 ^ 24 ∨ m < 512 := by
      by_contra hlong
      have hmul : 512 * 2 ^ 24 ≤ m * k := Nat.mul_le_mul (by omega) (by omega)
      omega
    rw [Nat.mul_comm m k] at hwhole ⊢
    exact ceil_float_div_eq hm (ulp_dvd_of_tiles hfits hm hshort hwhole)
  · have hexcess := hkept.resolve_left hmdvd
    obtain ⟨hcover, hpos, hbelow⟩ := ceilDiv_bounds hm (a := a) (by omega)
    obtain ⟨n, hn⟩ : ∃ n, a ⌈/⌉ m = n + 1 := ⟨_, (Nat.sub_add_cancel hpos).symm⟩
    rw [hn] at hcover hbelow hexcess ⊢
    rw [Nat.add_sub_cancel] at hbelow hexcess
    have hhi : a < (n + 1) * m := lt_of_le_of_ne hcover fun h => hmdvd (h ▸ Dvd.intro_left _ rfl)
    have hn24 : n < 2 ^ 24 := by
      have hrest : a - n * m ≤ m := by
        rw [Nat.succ_mul] at hcover
        omega
      have hlog : m * 2 ^ Nat.log2 n < m * 2 ^ 24 := by omega
      have hpow := (Nat.pow_lt_pow_iff_right (by norm_num)).mp (Nat.lt_of_mul_lt_mul_left hlog)
      exact Nat.lt_log2_self.trans_le (Nat.pow_le_pow_right (by norm_num) hpow)
    exact le_antisymm (ceil_float_div_le hm (ulp_dvd_of_le hn24) hcover)
      (lt_ceil_float_div hm hhi hexcess)

end Least

/-! ### The rounded length -/

theorem eltwise_align_eq : PIM_ELTWISE_ALIGN = 2 ^ 18 := rfl

theorem ulp_dvd_align {x : ℕ} (hx : x ≤ 2 ^ 32) : ulp x ∣ PIM_ELTWISE_ALIGN :=
  ulp_dvd_two_pow (k := 18) (by omega)

theorem le_tiles (x : ℕ) : x ≤ PIM_ELTWISE_ALIGN * (x ⌈/⌉ PIM_ELTWISE_ALIGN) :=
  (ceilDiv_le_iff_le_mul (by norm_num)).mp (le_refl _)

theorem ceil_align_le_tiles {x : ℕ} (hx : x ≤ 2 ^ 32) :
    ceil_align PIM_ELTWISE_ALIGN x ≤ PIM_ELTWISE_ALIGN * (x ⌈/⌉ PIM_ELTWISE_ALIGN) :=
  ceil_align_le (by norm_num) (float32_le (le_tiles x) ((ulp_dvd_align hx).mul_right _))
    (Dvd.intro _ rfl)

/-- The padded length is the least number of whole tiles, unless a part of a tile is rounded away. -/
theorem ceil_align_eq_tiles {x : ℕ} (hx : x ≤ 2 ^ 32)
    (hkept : float32 x < x → ¬ PIM_ELTWISE_ALIGN ∣ float32 x) :
    ceil_align PIM_ELTWISE_ALIGN x = PIM_ELTWISE_ALIGN * (x ⌈/⌉ PIM_ELTWISE_ALIGN) := by
  refine le_antisymm (ceil_align_le_tiles hx)
    (Nat.mul_le_mul_left _ ((ceilDiv_le_iff_le_mul (by norm_num)).mpr ?_))
  rw [← ceil_align]
  by_contra hlost
  obtain ⟨hdown, hdvd⟩ := (ceil_align_lt_iff 18 x).mp (not_le.mp hlost)
  exact hkept hdown hdvd

theorem tiles_lt (x : ℕ) : PIM_ELTWISE_ALIGN * (x ⌈/⌉ PIM_ELTWISE_ALIGN) < x + 2 ^ 18 := by
  rw [Nat.ceilDiv_eq_add_pred_div, eltwise_align_eq]
  omega

theorem tiles_le {x : ℕ} (hx : x ≤ 2 ^ 32) : PIM_ELTWISE_ALIGN * (x ⌈/⌉ PIM_ELTWISE_ALIGN) ≤
    2 ^ 32 := by
  rw [Nat.ceilDiv_eq_add_pred_div, eltwise_align_eq]
  omega

/-- The padded length, also of a product that wraps. -/
theorem rounded_length_bounds (m w : ℕ) : 2 ^ 18 ∣ ceil_align PIM_ELTWISE_ALIGN (uint32 (m * w)) ∧
    ceil_align PIM_ELTWISE_ALIGN (uint32 (m * w)) ≤ 2 ^ 32 ∧
    ceil_align PIM_ELTWISE_ALIGN (uint32 (m * w)) < m * w % 2 ^ 32 + 2 ^ 18 := by
  have hword : uint32 (m * w) ≤ 2 ^ 32 := (uint32_lt _).le
  refine ⟨dvd_ceil_align _ _, (ceil_align_le_tiles hword).trans (tiles_le hword), ?_⟩
  exact (ceil_align_le_tiles hword).trans_lt (tiles_lt _)

/-- A length that loses a part of a tile is no whole number of rows of the least width. -/
theorem length_kept_of_whole {m w : ℕ} (hm : 0 < m) (hfit : m * w < 2 ^ 32)
    (hpos : 0 < ceil_align PIM_ELTWISE_ALIGN (m * w))
      (hcovers : w ≤ ceil_align PIM_ELTWISE_ALIGN (m * w) ⌈/⌉ m)
    (hwhole : 2 ^ 18 ∣ m * (ceil_align PIM_ELTWISE_ALIGN (m * w) ⌈/⌉ m))
      (hdown : float32 (m * w) < m * w) :
    ¬ PIM_ELTWISE_ALIGN ∣ float32 (m * w) := by
  intro hdvd
  have hlength : ceil_align PIM_ELTWISE_ALIGN (m * w) = float32 (m * w) :=
    le_antisymm (ceil_align_le (by norm_num) (le_refl _) hdvd) (float32_le_ceil_align (by norm_num) _)
  rw [hlength] at hpos hcovers hwhole
  have hbelow := (ceilDiv_bounds hm hpos).2.2
  have hwidth : float32 (m * w) ⌈/⌉ m ≤ w := by
    have hless := Nat.lt_of_mul_lt_mul_right ((hbelow.trans hdown).trans_eq (Nat.mul_comm m w))
    omega
  rw [le_antisymm hwidth hcovers] at hwhole
  have hdist := (float32_dist (m * w)).1
  have hulp : ulp (m * w) ≤ 2 ^ 8 := Nat.le_of_dvd (by norm_num) (ulp_dvd_two_pow hfit)
  rw [eltwise_align_eq] at hdvd
  omega

/-- The width that `align_shape` computes for `m` rows of `w` elements. -/
def aligned_width (m w : ℕ) : ℕ := ceil_float_div (ceil_align PIM_ELTWISE_ALIGN (uint32 (m * w)))
    (float32 m)

/-- The computed width covers the rows and makes them whole tiles. -/
@[mk_iff]
structure Widened (m w : ℕ) : Prop where
  rows : m ≠ 0
  fits : aligned_width m w < 2 ^ 32
  covers : w ≤ aligned_width m w
  whole : PIM_ELTWISE_ALIGN ∣ m * aligned_width m w

section Widened
variable {m w : ℕ} (hlt : m < 2 ^ 32)

include hlt

theorem widens_of_widened (hw : 0 < w) (h : Widened m w) : Widens m w := by
  obtain ⟨hm, hfits, hcovers, hwhole⟩ := h
  have hpos := Nat.pos_of_ne_zero hm
  obtain ⟨hdvd, hle, hlen⟩ := rounded_length_bounds m w
  rw [aligned_width] at hfits hcovers hwhole
  -- an empty length has no rows to make whole
  have ha : 2 ^ 18 ≤ ceil_align PIM_ELTWISE_ALIGN (uint32 (m * w)) := by
    refine Nat.le_of_dvd (Nat.pos_of_ne_zero fun hzero => ?_) hdvd
    have hfloat : 0 < float32 m := by
      have hdown := (float32_rel m).2
      omega
    have hempty : ceil_float_div 0 (float32 m) ≤ 0 :=
      ceil_float_div_le hfloat (dvd_zero _) (Nat.zero_le _)
    rw [hzero] at hcovers
    omega
  have hfit : m * w < 2 ^ 32 := by
    refine no_wrap hlt hlen hle (fun hrest => ?_) (rows_bounds hpos hlt ha hle).2 hcovers hwhole
    have hword : uint32 (m * w) ≤ 2 ^ 32 := (uint32_lt _).le
    exact ceil_align_le (by norm_num) (float32_le (le_refl _) ((ulp_dvd_align hword).trans hrest)) hrest
  have hexact := float32_rows hpos hlt ha hle hwhole
  rw [uint32_of_lt hfit] at hfits hcovers hwhole hdvd hle ha
  rw [hexact] at hfits hcovers hwhole
  have hwidth := width_eq_of_whole hpos hlt hexact hdvd ha hle hwhole
  have hkept : float32 (m * w) < m * w → ¬ PIM_ELTWISE_ALIGN ∣ float32 (m * w) :=
    length_kept_of_whole hpos hfit (lt_of_lt_of_le (by norm_num) ha) (hwidth ▸ hcovers)
      (hwidth ▸ hwhole)
  have hlength : ceil_align PIM_ELTWISE_ALIGN (m * w) = tiled_length m w :=
    ceil_align_eq_tiles hfit.le hkept
  have hquot := width_kept_of_whole hpos hlt hexact hdvd ha hle hwhole
  rw [hwidth] at hfits hwhole
  rw [hlength] at hfits hwhole hquot
  exact ⟨hm, hfit, hexact, hkept, hfits, hquot, hwhole⟩

theorem widened_of_widens (hw : 0 < w) (h : Widens m w) : Widened m w := by
  have hpos := Nat.pos_of_ne_zero h.rows
  have hlength : ceil_align PIM_ELTWISE_ALIGN (m * w) = tiled_length m w :=
    ceil_align_eq_tiles h.fits.le h.length_kept
  have hcover : m * w ≤ tiled_length m w := le_tiles _
  have hdvd : 2 ^ 18 ∣ tiled_length m w := Dvd.intro _ rfl
  have ha : 2 ^ 18 ≤ tiled_length m w := Nat.le_of_dvd ((Nat.mul_pos hpos hw).trans_le hcover) hdvd
  have hwidth : aligned_width m w = tiled_width m w := by
    rw [aligned_width, uint32_of_lt h.fits, hlength, h.rows_exact]
    exact width_eq_of_kept hpos hlt h.rows_exact hdvd ha (tiles_le h.fits.le) h.width_fits h.whole
      h.width_kept
  have hrows : tiled_length m w ≤ m * tiled_width m w := (ceilDiv_le_iff_le_mul hpos).mp (le_refl _)
  refine ⟨h.rows, hwidth ▸ h.width_fits, ?_, hwidth ▸ h.whole⟩
  rw [hwidth]
  exact Nat.le_of_mul_le_mul_left (hcover.trans hrows) hpos

end Widened

/-! ### The descriptor -/

/-- The padded length is exact in single precision. -/
theorem float32_length {x : ℕ} (hx : x ≤ 2 ^ 32) :
    float32 (ceil_align PIM_ELTWISE_ALIGN x) = ceil_align PIM_ELTWISE_ALIGN x := by
  have hle := (ceil_align_le_tiles hx).trans (tiles_le hx)
  exact float32_eq_self ((ulp_dvd_align hle).trans (dvd_ceil_align _ x))

theorem rest_toNat (bs : PimBShape) :
    bs.rest.toNat = bs.n.toNat * bs.c.toNat * bs.h.toNat % 2 ^ 32 := by
  rw [PimBShape.rest, UInt32.toNat_mul, UInt32.toNat_mul, Nat.mod_mul_mod, Nat.mul_right_comm]

theorem buffer_length_toNat (bs : PimBShape) :
    (bs.n * bs.c * bs.h * bs.w).toNat = uint32 (bs.rest.toNat * bs.w.toNat) := by
  rw [rest_toNat, uint32, Nat.mod_mul_mod]
  simp only [UInt32.toNat_mul, Nat.mod_mul_mod]

theorem align_shape_eq {op_type : PimOpType} (hop : op_type ≠ .OP_GEMV) (d : PimDesc) :
    align_shape d op_type = if d.bshape_r.rest = 0 then none else
      (to_uint32 (aligned_width d.bshape_r.rest.toNat d.bshape_r.w.toNat)).bind fun w =>
        some { d with bshape := { d.bshape_r with w := w } } := by
  have hlength :=
    float32_length (UInt32.toNat_lt (d.bshape_r.n * d.bshape_r.c * d.bshape_r.h * d.bshape_r.w)).le
  have hshape : align_shape d op_type = if d.bshape_r.rest = 0 then none else
      (to_uint32 (ceil_float_div (float32 (ceil_align PIM_ELTWISE_ALIGN
        (d.bshape_r.n * d.bshape_r.c * d.bshape_r.h * d.bshape_r.w).toNat))
          (float32 d.bshape_r.rest.toNat))).bind
        fun w => some { d with bshape := { d.bshape_r with w := w } } := by
    cases op_type with
    | OP_GEMV => exact absurd rfl hop
    | _ => rfl
  rw [hshape, hlength, buffer_length_toNat, aligned_width]

/-- The descriptor exists where the width fits, and only the width changes. -/
theorem align_shape_eq_some_iff {op_type : PimOpType} (hop : op_type ≠ .OP_GEMV) (d d' : PimDesc) :
    align_shape d op_type = some d' ↔ d.bshape_r.rest.toNat ≠ 0 ∧
      aligned_width d.bshape_r.rest.toNat d.bshape_r.w.toNat < 2 ^ 32 ∧
      d' = { d with bshape := { d.bshape_r with
        w := .ofNat (aligned_width d.bshape_r.rest.toNat d.bshape_r.w.toNat) } } := by
  have hzero : d.bshape_r.rest = 0 ↔ d.bshape_r.rest.toNat = 0 := UInt32.toNat_inj.symm
  rw [align_shape_eq hop]
  by_cases hrest : d.bshape_r.rest = 0
  · rw [if_pos hrest]
    exact ⟨fun h => (by cases h), fun h => absurd (hzero.mp hrest) h.1⟩
  · rw [if_neg hrest, ne_eq, ← hzero, and_iff_right hrest]
    by_cases hfits : aligned_width d.bshape_r.rest.toNat d.bshape_r.w.toNat < 2 ^ 32
    · rw [to_uint32, if_pos hfits, and_iff_right hfits, Option.bind_some, Option.some.injEq]
      exact eq_comm
    · rw [to_uint32, if_neg hfits]
      exact ⟨fun h => (by cases h), fun h => absurd h.1 hfits⟩

/-- Of the other dimensions only their product as a word matters for whole tiles. -/
theorem whole_iff (bs : PimBShape) (w : ℕ) :
    PIM_ELTWISE_ALIGN ∣ bs.n.toNat * bs.c.toNat * bs.h.toNat * w ↔
      PIM_ELTWISE_ALIGN ∣ bs.rest.toNat * w := by
  have hword : PIM_ELTWISE_ALIGN ∣ 2 ^ 32 := by norm_num
  refine (Nat.dvd_mod_iff hword).symm.trans ?_
  rw [rest_toNat, ← Nat.mod_mul_mod, Nat.dvd_mod_iff hword]

theorem toNat_ofNat_width {W : ℕ} (hfits : W < 2 ^ 32) : (UInt32.ofNat W).toNat = W :=
  UInt32.toNat_ofNat_of_lt' hfits

/-- A shape of the given width is padded where the width covers the real one and makes whole tiles. -/
theorem eltPadded_iff (d : PimDesc) (w : UInt32)
    (hn : 0 < d.bshape_r.n.toNat) (hc : 0 < d.bshape_r.c.toNat) (hh : 0 < d.bshape_r.h.toNat) :
    EltPadded { d with bshape := { d.bshape_r with w := w } } ↔
      d.bshape_r.w.toNat ≤ w.toNat ∧ PIM_ELTWISE_ALIGN ∣ d.bshape_r.rest.toNat * w.toNat := by
  have hpos : 0 < d.bshape_r.n.toNat * d.bshape_r.c.toNat * d.bshape_r.h.toNat :=
    Nat.mul_pos (Nat.mul_pos hn hc) hh
  constructor
  · intro hpadded
    exact ⟨Nat.le_of_mul_le_mul_left hpadded.covers hpos, (whole_iff _ _).mp hpadded.whole⟩
  · rintro ⟨hcovers, hwhole⟩
    exact ⟨rfl, rfl, rfl, Nat.mul_le_mul_left _ hcovers, (whole_iff _ _).mpr hwhole⟩

theorem elt_padded_iff {op_type : PimOpType} (hop : op_type ≠ .OP_GEMV) (d : PimDesc)
    (hn : 0 < d.bshape_r.n.toNat) (hc : 0 < d.bshape_r.c.toNat) (hh : 0 < d.bshape_r.h.toNat) :
    (∃ d', align_shape d op_type = some d' ∧ EltPadded d') ↔
      Widened d.bshape_r.rest.toNat d.bshape_r.w.toNat := by
  simp only [align_shape_eq_some_iff hop, widened_iff]
  generalize aligned_width d.bshape_r.rest.toNat d.bshape_r.w.toNat = W
  constructor
  · rintro ⟨d', ⟨hrest, hfits, rfl⟩, hpadded⟩
    have hboth := (eltPadded_iff d _ hn hc hh).mp hpadded
    rw [toNat_ofNat_width hfits] at hboth
    exact ⟨hrest, hfits, hboth⟩
  · rintro ⟨hrest, hfits, hboth⟩
    refine ⟨_, ⟨hrest, hfits, rfl⟩, (eltPadded_iff d _ hn hc hh).mpr ?_⟩
    rwa [toNat_ofNat_width hfits]

end PimLibrary.Device
