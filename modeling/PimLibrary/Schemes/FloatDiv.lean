import PimLibrary.Schemes.Float

/-! Rounding a quotient to single precision.

    Results are counted in units of `2^-64`, which lie below the last place of every quotient from
    `2^-40` on. The rounded quotient is the nearest multiple of its unit in the last place, so a
    representable bound on the exact quotient also bounds the rounded one. -/

namespace Schemes.Word

/-! ### Nearest integers -/

/-- The integer nearest to `p / q`, ties to even. -/
def nearest_even (p q : ℕ) : ℕ :=
  if q < 2 * (p % q) ∨ (2 * (p % q) = q ∧ p / q % 2 = 1) then p / q + 1 else p / q

theorem nearest_even_cases (p q : ℕ) :
    nearest_even p q = p / q ∧ 2 * (p % q) ≤ q ∨ nearest_even p q = p / q + 1 ∧ q ≤ 2 * (p % q) := by
  rw [nearest_even]
  split_ifs with h
  · right
    refine ⟨rfl, ?_⟩
    rcases h with hlt | ⟨heq, -⟩
    · exact le_of_lt hlt
    · exact le_of_eq heq.symm
  · exact Or.inl ⟨rfl, not_lt.mp fun hlt => h (Or.inl hlt)⟩

theorem nearest_even_dist (p : ℕ) {q : ℕ} (hq : 0 < q) :
    2 * (nearest_even p q * q) ≤ 2 * p + q ∧ 2 * p ≤ 2 * (nearest_even p q * q) + q := by
  have hdm := Nat.div_add_mod' p q
  have hlt := Nat.mod_lt p hq
  rcases nearest_even_cases p q with ⟨heq, hle⟩ | ⟨heq, hle⟩
  · rw [heq]
    constructor <;> omega
  · have hup : (p / q + 1) * q = p / q * q + q := Nat.succ_mul _ q
    rw [heq]
    constructor <;> omega

theorem nearest_even_le {p q n : ℕ} (hq : 0 < q) (h : p ≤ n * q) : nearest_even p q ≤ n := by
  have hdist := (nearest_even_dist p hq).1
  by_contra hgt
  have hstep : (n + 1) * q ≤ nearest_even p q * q := Nat.mul_le_mul_right q (not_le.mp hgt)
  rw [Nat.succ_mul] at hstep
  omega

theorem le_nearest_even {p q n : ℕ} (hq : 0 < q) (h : n * q ≤ p) : n ≤ nearest_even p q := by
  have hdist := (nearest_even_dist p hq).2
  by_contra hgt
  have hstep : (nearest_even p q + 1) * q ≤ n * q := Nat.mul_le_mul_right q (not_le.mp hgt)
  rw [Nat.succ_mul] at hstep
  omega

/-- Half way above an even integer the rounding goes down. -/
theorem nearest_even_le_of_tie {p q n : ℕ} (hq : 0 < q) (heven : 2 ∣ n) (h : 2 * p ≤ 2 * (n * q) + q) :
    nearest_even p q ≤ n := by
  rcases lt_or_ge p (n * q) with hlow | hhigh
  · exact nearest_even_le hq hlow.le
  · have hdiv : p / q = n := by
      refine Nat.div_eq_of_lt_le hhigh ?_
      rw [Nat.succ_mul]
      omega
    have hdm := Nat.div_add_mod' p q
    rw [hdiv] at hdm
    rw [nearest_even, hdiv, if_neg]
    rintro (hup | ⟨-, hodd⟩)
    · omega
    · omega

/-! ### Rounded quotients -/

/-- `p / q` with a 24-bit significand, for a quotient of at least `2^23`. -/
def round_quot (p q : ℕ) : ℕ := nearest_even p (ulp (p / q) * q) * ulp (p / q)

theorem ulp_dvd_round_quot (p q : ℕ) : ulp (p / q) ∣ round_quot p q := Dvd.intro_left _ rfl

theorem round_quot_le {p q v : ℕ} (hq : 0 < q) (h : p ≤ v * q) (hv : ulp (p / q) ∣ v) :
    round_quot p q ≤ v := by
  obtain ⟨k, rfl⟩ := hv
  rw [round_quot, Nat.mul_comm (ulp (p / q)) k]
  refine Nat.mul_le_mul_right _ (nearest_even_le (Nat.mul_pos (ulp_pos _) hq) ?_)
  rwa [← Nat.mul_assoc, Nat.mul_comm k]

theorem le_round_quot {p q v : ℕ} (hq : 0 < q) (h : v * q ≤ p) (hv : ulp (p / q) ∣ v) :
    v ≤ round_quot p q := by
  obtain ⟨k, rfl⟩ := hv
  rw [round_quot, Nat.mul_comm (ulp (p / q)) k]
  refine Nat.mul_le_mul_right _ (le_nearest_even (Nat.mul_pos (ulp_pos _) hq) ?_)
  rwa [← Nat.mul_assoc, Nat.mul_comm k]

/-- The distance is at most half a unit. -/
theorem round_quot_dist (p : ℕ) {q : ℕ} (hq : 0 < q) :
    2 * (round_quot p q * q) ≤ 2 * p + ulp (p / q) * q ∧ 2 * p ≤ 2 * (round_quot p q * q) +
      ulp (p / q) * q := by
  have h := nearest_even_dist p (Nat.mul_pos (ulp_pos (p / q)) hq)
  rwa [← Nat.mul_assoc (nearest_even p _)] at h

/-- The unit is at most `2^-23` of the value. -/
theorem ulp_mul_le {x : ℕ} (h : 2 ^ 23 ≤ x) : ulp x * 2 ^ 23 ≤ x := by
  have hne : x ≠ 0 := by rintro rfl; norm_num at h
  have hlog : 23 ≤ Nat.log2 x := (Nat.le_log2 hne).mpr h
  rw [ulp, ← Nat.pow_add, Nat.sub_add_cancel hlog]
  exact Nat.log2_self_le hne

/-- The relative error is at most `2^-24`. -/
theorem float32_rel (x : ℕ) :
    2 ^ 24 * float32 x ≤ 2 ^ 24 * x + x ∧ 2 ^ 24 * x ≤ 2 ^ 24 * float32 x + x := by
  rcases lt_or_ge x (2 ^ 23) with hsmall | hlarge
  · rw [float32_of_lt (by omega)]
    constructor <;> omega
  · have hunit := ulp_mul_le hlarge
    have hdist := float32_dist x
    constructor <;> omega

theorem round_quot_rel {p q : ℕ} (hq : 0 < q) (h : 2 ^ 23 ≤ p / q) :
    2 ^ 24 * (round_quot p q * q) ≤ 2 ^ 24 * p + p ∧ 2 ^ 24 * p ≤
      2 ^ 24 * (round_quot p q * q) + p := by
  have hunit : ulp (p / q) * q * 2 ^ 23 ≤ p := by
    calc ulp (p / q) * q * 2 ^ 23 = ulp (p / q) * 2 ^ 23 * q := by ring
      _ ≤ p / q * q := Nat.mul_le_mul_right q (ulp_mul_le h)
      _ ≤ p := Nat.div_mul_le_self p q
  have hdist := round_quot_dist p hq
  constructor
  · omega
  · omega

/-! ### `ceil((float)a / b)` -/

/-- The quotient of two `float` values in units of `2^-64`, rounded. -/
def float_div (a b : ℕ) : ℕ := round_quot (a * 2 ^ 64) b

/-- The quotient of two `float` values, rounded and then rounded up to an integer. -/
def ceil_float_div (a b : ℕ) : ℕ := (float_div a b + (2 ^ 64 - 1)) / 2 ^ 64

theorem ceil_float_div_le_iff (a b n : ℕ) : ceil_float_div a b ≤ n ↔ float_div a b ≤ n * 2 ^ 64 := by
  rw [ceil_float_div]
  omega

/-- A number of at most 24 bits, in units. -/
theorem ulp_dvd_units {n x : ℕ} (hn : ulp n ∣ n) (hx : x ≤ n * 2 ^ 64) : ulp x ∣ n * 2 ^ 64 := by
  rcases Nat.eq_zero_or_pos n with rfl | hpos
  · simp
  · have hlog : x < 2 ^ (Nat.log2 n + 65) := by
      have hlt : n < 2 ^ (Nat.log2 n + 1) := Nat.lt_log2_self
      calc x ≤ n * 2 ^ 64 := hx
        _ < 2 ^ (Nat.log2 n + 1) * 2 ^ 64 := Nat.mul_lt_mul_of_pos_right hlt (Nat.two_pow_pos 64)
        _ = 2 ^ (Nat.log2 n + 65) := (Nat.pow_add 2 _ 64).symm
    have hunit : ulp x ∣ 2 ^ (Nat.log2 n + 41) := ulp_dvd_two_pow hlog
    rcases Nat.lt_or_ge (Nat.log2 n) 23 with hsmall | hlarge
    · exact hunit.trans ((Nat.pow_dvd_pow 2 (by omega)).trans (Dvd.intro_left n rfl))
    · have hsplit : 2 ^ (Nat.log2 n + 41) = ulp n * 2 ^ 64 := by
        rw [ulp, ← Nat.pow_add]
        congr 1
        omega
      rw [hsplit] at hunit
      exact hunit.trans (Nat.mul_dvd_mul_right hn _)

theorem div_units_le {a b n : ℕ} (h : a ≤ n * b) : a * 2 ^ 64 / b ≤ n * 2 ^ 64 := by
  refine Nat.div_le_of_le_mul ?_
  calc a * 2 ^ 64 ≤ n * b * 2 ^ 64 := Nat.mul_le_mul_right _ h
    _ = b * (n * 2 ^ 64) := by ring

/-- Rounding up adds less than one to the rounded quotient. -/
theorem ceil_float_div_mul (a b : ℕ) : float_div a b * b ≤ ceil_float_div a b * b * 2 ^ 64 ∧
    ceil_float_div a b * b * 2 ^ 64 ≤ float_div a b * b + b * 2 ^ 64 := by
  have hlow := (ceil_float_div_le_iff a b _).mp (le_refl (ceil_float_div a b))
  have hhigh : ceil_float_div a b * 2 ^ 64 ≤ float_div a b + 2 ^ 64 := by
    rw [ceil_float_div]
    omega
  constructor
  · calc float_div a b * b ≤ ceil_float_div a b * 2 ^ 64 * b := Nat.mul_le_mul_right b hlow
      _ = ceil_float_div a b * b * 2 ^ 64 := by ring
  · calc ceil_float_div a b * b * 2 ^ 64 = ceil_float_div a b * 2 ^ 64 * b := by ring
      _ ≤ (float_div a b + 2 ^ 64) * b := Nat.mul_le_mul_right b hhigh
      _ = float_div a b * b + b * 2 ^ 64 := by ring

variable {a b n : ℕ} (hb : 0 < b)

include hb

/-- A representable bound on the quotient bounds the result. -/
theorem ceil_float_div_le (hn : ulp n ∣ n) (h : a ≤ n * b) : ceil_float_div a b ≤ n := by
  rw [ceil_float_div_le_iff]
  refine round_quot_le hb ?_ (ulp_dvd_units hn (div_units_le h))
  calc a * 2 ^ 64 ≤ n * b * 2 ^ 64 := Nat.mul_le_mul_right _ h
    _ = n * 2 ^ 64 * b := by ring

/-- A representable quotient is the result. -/
theorem ceil_float_div_eq (hn : ulp n ∣ n) : ceil_float_div (n * b) b = n := by
  have hle := ceil_float_div_le hb hn (le_refl (n * b))
  refine le_antisymm hle ?_
  have hdvd := ulp_dvd_units hn (div_units_le (le_refl (n * b)))
  have hunits : n * 2 ^ 64 * b = n * b * 2 ^ 64 := by ring
  have hlow : n * 2 ^ 64 ≤ float_div (n * b) b := le_round_quot hb hunits.le hdvd
  have hceil := (ceil_float_div_le_iff (n * b) b _).mp (le_refl (ceil_float_div (n * b) b))
  omega

/-- The result, compared with the quotient. -/
theorem ceil_float_div_bounds (h : b ≤ a * 2 ^ 41) :
    2 ^ 24 * a ≤ 2 ^ 24 * (ceil_float_div a b * b) + a ∧
      2 ^ 24 * (ceil_float_div a b * b) ≤ 2 ^ 24 * a + a + 2 ^ 24 * b := by
  have hquot : 2 ^ 23 ≤ a * 2 ^ 64 / b := by
    rw [Nat.le_div_iff_mul_le hb]
    omega
  have hrel := round_quot_rel hb hquot
  have hceil := ceil_float_div_mul a b
  rw [← float_div] at hrel
  constructor
  · omega
  · omega

/-- From `2^23` on the rounded quotient is an integer. -/
theorem ceil_float_div_near (h : 2 ^ 23 * b ≤ a) :
    2 ^ 24 * (ceil_float_div a b * b) ≤ 2 ^ 24 * a + a := by
  have hquot : 2 ^ 87 ≤ a * 2 ^ 64 / b := by
    rw [Nat.le_div_iff_mul_le hb]
    omega
  have hne : a * 2 ^ 64 / b ≠ 0 := (lt_of_lt_of_le (Nat.two_pow_pos 87) hquot).ne'
  have hlog : 87 ≤ Nat.log2 (a * 2 ^ 64 / b) := (Nat.le_log2 hne).mpr hquot
  have hunit : 2 ^ 64 ∣ ulp (a * 2 ^ 64 / b) := Nat.pow_dvd_pow 2 (by omega)
  obtain ⟨k, hk⟩ := hunit.trans (ulp_dvd_round_quot (a * 2 ^ 64) b)
  have hfloat : float_div a b = ceil_float_div a b * 2 ^ 64 := by
    rw [ceil_float_div, float_div, hk]
    omega
  have hrel := (round_quot_rel hb (le_trans (by norm_num) hquot)).1
  have hmul : ceil_float_div a b * 2 ^ 64 * b = ceil_float_div a b * b * 2 ^ 64 := by ring
  rw [← float_div, hfloat, hmul] at hrel
  omega

/-! ### A quotient between two integers -/

theorem log2_units_le (hhi : a < (n + 1) * b) : Nat.log2 (a * 2 ^ 64 / b) ≤ Nat.log2 n + 64 := by
  rcases Nat.eq_zero_or_pos (a * 2 ^ 64 / b) with hzero | hpos
  · rw [hzero, Nat.log2_zero]
    exact Nat.zero_le _
  · refine Nat.lt_succ_iff.mp ((Nat.log2_lt (Nat.pos_iff_ne_zero.mp hpos)).mpr ?_)
    rw [Nat.div_lt_iff_lt_mul hb]
    have hn : n + 1 ≤ 2 ^ (Nat.log2 n + 1) := Nat.lt_log2_self
    calc a * 2 ^ 64 < (n + 1) * b * 2 ^ 64 := Nat.mul_lt_mul_of_pos_right hhi (Nat.two_pow_pos 64)
      _ ≤ 2 ^ (Nat.log2 n + 1) * b * 2 ^ 64 := Nat.mul_le_mul_right _ (Nat.mul_le_mul_right b hn)
      _ = 2 ^ (Nat.log2 n + 1) * 2 ^ 64 * b := by ring
      _ = 2 ^ (Nat.log2 n + 64).succ * b := by rw [← Nat.pow_add, Nat.succ_eq_add_one,
          Nat.add_right_comm]

theorem le_log2_units (hpos : 0 < n) (hlo : n * b ≤ a) :
    Nat.log2 n + 64 ≤ Nat.log2 (a * 2 ^ 64 / b) := by
  have hquot : 2 ^ (Nat.log2 n + 64) ≤ a * 2 ^ 64 / b := by
    rw [Nat.le_div_iff_mul_le hb, Nat.pow_add]
    calc 2 ^ Nat.log2 n * 2 ^ 64 * b ≤ n * 2 ^ 64 * b :=
          Nat.mul_le_mul_right b (Nat.mul_le_mul_right _ (Nat.log2_self_le hpos.ne'))
      _ = n * b * 2 ^ 64 := by ring
      _ ≤ a * 2 ^ 64 := Nat.mul_le_mul_right _ hlo
  exact (Nat.le_log2 (lt_of_lt_of_le (Nat.two_pow_pos _) hquot).ne').mpr hquot

/-- More than half a unit above `n`, the result is above `n`. -/
theorem lt_ceil_float_div (hhi : a < (n + 1) * b)
    (hexcess : b * 2 ^ Nat.log2 n < 2 ^ 24 * (a - n * b)) :
    n < ceil_float_div a b := by
  by_contra hle
  have hfloat := (ceil_float_div_le_iff a b n).mp (not_lt.mp hle)
  have hmul : float_div a b * b ≤ n * b * 2 ^ 64 := by
    calc float_div a b * b ≤ n * 2 ^ 64 * b := Nat.mul_le_mul_right b hfloat
      _ = n * b * 2 ^ 64 := by ring
  have hunit : ulp (a * 2 ^ 64 / b) * b ≤ b * 2 ^ Nat.log2 n * 2 ^ 41 := by
    have hlog := log2_units_le hb hhi
    calc ulp (a * 2 ^ 64 / b) * b ≤ 2 ^ (Nat.log2 n + 41) * b :=
          Nat.mul_le_mul_right b (Nat.pow_le_pow_right (by norm_num) (by omega))
      _ = b * 2 ^ Nat.log2 n * 2 ^ 41 := by ring
  have hdist := (round_quot_dist (a * 2 ^ 64) hb).2
  rw [← float_div] at hdist
  omega

/-- At most half a unit above `n`, which is even in units, the result is not above `n`. -/
theorem ceil_float_div_le_of_excess (hpos : 0 < n) (hn : n < 2 ^ 23) (hlo : n * b ≤ a)
    (hhi : a < (n + 1) * b)
    (hexcess : 2 ^ 24 * (a - n * b) ≤ b * 2 ^ Nat.log2 n) : ceil_float_div a b ≤ n := by
  have hlog : Nat.log2 (a * 2 ^ 64 / b) = Nat.log2 n + 64 :=
    le_antisymm (log2_units_le hb hhi) (le_log2_units hb hpos hlo)
  have hlt : Nat.log2 n < 23 := (Nat.log2_lt hpos.ne').mpr hn
  have hulp : ulp (a * 2 ^ 64 / b) = 2 ^ (Nat.log2 n + 41) := by
    rw [ulp, hlog]
    rfl
  have hsplit : n * 2 ^ 64 = n * 2 ^ (23 - Nat.log2 n) * 2 ^ (Nat.log2 n + 41) := by
    rw [Nat.mul_assoc, ← Nat.pow_add]
    congr 2
    omega
  have heven : 2 ∣ n * 2 ^ (23 - Nat.log2 n) :=
    Dvd.dvd.mul_left (dvd_pow_self 2 (by omega)) n
  rw [ceil_float_div_le_iff, float_div, round_quot, hulp, hsplit]
  refine Nat.mul_le_mul_right _ (nearest_even_le_of_tie (Nat.mul_pos (Nat.two_pow_pos _) hb) heven ?_)
  have hunits : n * 2 ^ (23 - Nat.log2 n) * (2 ^ (Nat.log2 n + 41) * b) = n * b * 2 ^ 64 := by
    rw [← Nat.mul_assoc, ← hsplit]
    ring
  have hhalf : 2 ^ (Nat.log2 n + 41) * b = b * 2 ^ Nat.log2 n * 2 ^ 41 := by ring
  rw [hunits, hhalf]
  omega

end Schemes.Word
