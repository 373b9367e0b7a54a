import PimLibrary.Schemes.Word

/-! Rounding an integer to single precision.

    The result is one of the two neighbouring multiples of the unit in the last place, so it never
    passes a multiple of that unit, and it differs from the integer by at most half of it. -/

namespace Schemes.Word

/-- The unit in the last place of a 24-bit significand. -/
def ulp (x : ℕ) : ℕ := 2 ^ (Nat.log2 x - 23)

theorem ulp_pos (x : ℕ) : 0 < ulp x := Nat.two_pow_pos _

theorem ulp_dvd_two_pow {x k : ℕ} (h : x < 2 ^ (k + 24)) : ulp x ∣ 2 ^ k := by
  refine Nat.pow_dvd_pow 2 ?_
  rcases Nat.eq_zero_or_pos x with rfl | hpos
  · simp
  · have := (Nat.log2_lt (Nat.pos_iff_ne_zero.mp hpos)).mpr h
    omega

/-- The unit of the largest 64-bit integers. -/
theorem ulp_top {x : ℕ} (hlo : 2 ^ 63 ≤ x) (hhi : x < 2 ^ 64) : ulp x = 2 ^ 40 := by
  have hne : x ≠ 0 := (Nat.two_pow_pos 63).trans_le hlo |>.ne'
  have hlog : Nat.log2 x = 63 :=
    le_antisymm (Nat.lt_succ_iff.mp ((Nat.log2_lt hne).mpr hhi)) ((Nat.le_log2 hne).mpr hlo)
  rw [ulp, hlog]

/-- Down with a remainder of at most half a unit, up with one of at least half. -/
theorem float32_cases (x : ℕ) :
    float32 x = x / ulp x * ulp x ∧ 2 * (x % ulp x) ≤ ulp x ∨
      float32 x = (x / ulp x + 1) * ulp x ∧ ulp x ≤ 2 * (x % ulp x) := by
  rw [float32, ulp]
  split_ifs with h
  · right
    refine ⟨rfl, ?_⟩
    rcases h with hlt | ⟨heq, -⟩
    · exact le_of_lt hlt
    · exact le_of_eq heq.symm
  · left
    refine ⟨rfl, not_lt.mp fun hlt => h (Or.inl hlt)⟩

theorem ulp_dvd_float32 (x : ℕ) : ulp x ∣ float32 x := by
  rcases float32_cases x with ⟨heq, -⟩ | ⟨heq, -⟩
  · exact heq ▸ Dvd.intro_left _ rfl
  · exact heq ▸ Dvd.intro_left _ rfl

theorem float32_eq_self {x : ℕ} (h : ulp x ∣ x) : float32 x = x := by
  have hpos := ulp_pos x
  have hmod := Nat.mod_eq_zero_of_dvd h
  rcases float32_cases x with ⟨heq, -⟩ | ⟨-, hle⟩
  · rw [heq, Nat.div_mul_cancel h]
  · omega

/-- Rounding up stops at the next multiple of the unit. -/
theorem float32_le {x a : ℕ} (hx : x ≤ a) (ha : ulp x ∣ a) : float32 x ≤ a := by
  have hdm := Nat.div_add_mod' x (ulp x)
  rcases float32_cases x with ⟨heq, -⟩ | ⟨heq, hle⟩
  · omega
  · obtain ⟨k, rfl⟩ := ha
    have hpos := ulp_pos x
    rw [heq, Nat.mul_comm (ulp x)]
    refine Nat.mul_le_mul_right _ (Nat.succ_le_of_lt ?_)
    refine lt_of_mul_lt_mul_right ?_ (Nat.zero_le (ulp x))
    calc x / ulp x * ulp x < x := by omega
      _ ≤ k * ulp x := by rw [Nat.mul_comm]; exact hx

/-- Rounding down stops at the multiple of the unit before. -/
theorem le_float32 {x a : ℕ} (hx : a ≤ x) (ha : ulp x ∣ a) : a ≤ float32 x := by
  obtain ⟨k, rfl⟩ := ha
  have hk : k ≤ x / ulp x := (Nat.le_div_iff_mul_le (ulp_pos x)).mpr (by rwa [Nat.mul_comm])
  rw [Nat.mul_comm]
  rcases float32_cases x with ⟨heq, -⟩ | ⟨heq, -⟩
  · exact heq ▸ Nat.mul_le_mul_right _ hk
  · exact heq ▸ Nat.mul_le_mul_right _ (Nat.le_succ_of_le hk)

/-- The distance is at most half a unit. -/
theorem float32_dist (x : ℕ) : 2 * x ≤ 2 * float32 x + ulp x ∧ 2 * float32 x ≤ 2 * x + ulp x := by
  have hdm := Nat.div_add_mod' x (ulp x)
  rcases float32_cases x with ⟨heq, hle⟩ | ⟨heq, hle⟩
  · constructor <;> omega
  · rw [Nat.succ_mul] at heq
    have hlt := Nat.mod_lt x (ulp_pos x)
    constructor <;> omega

/-- `align * ceil((float)x / align)` for an alignment whose quotients single precision holds. -/
def ceil_align (align x : ℕ) : ℕ := align * ((float32 x + align - 1) / align)

theorem dvd_ceil_align (align x : ℕ) : align ∣ ceil_align align x := Dvd.intro _ rfl

theorem ceil_align_le {align x a : ℕ} (hpos : 0 < align) (hx : float32 x ≤ a) (ha : align ∣ a) :
    ceil_align align x ≤ a := by
  obtain ⟨k, rfl⟩ := ha
  refine Nat.mul_le_mul_left _ (Nat.lt_succ_iff.mp ?_)
  rw [Nat.div_lt_iff_lt_mul hpos, Nat.succ_mul, Nat.mul_comm k]
  omega

theorem float32_le_ceil_align {align : ℕ} (hpos : 0 < align) (x : ℕ) :
    float32 x ≤ ceil_align align x := by
  have hdm := Nat.div_add_mod (float32 x + align - 1) align
  have hlt := Nat.mod_lt (float32 x + align - 1) hpos
  rw [ceil_align]
  omega

/-! ### A rounding that reaches a multiple -/

/-- Both are powers of two, so one divides the other. -/
theorem dvd_float32_or (k x : ℕ) : 2 ^ k ∣ float32 x ∨ ulp x ∣ 2 ^ k := by
  rcases le_total (Nat.log2 x - 23) k with hle | hle
  · exact Or.inr (Nat.pow_dvd_pow 2 hle)
  · exact Or.inl ((Nat.pow_dvd_pow 2 hle).trans (ulp_dvd_float32 x))

/-- Two different multiples of the unit are a unit apart. -/
theorem add_ulp_le {x a b : ℕ} (ha : ulp x ∣ a) (hb : ulp x ∣ b) (hlt : a < b) : a + ulp x ≤ b := by
  have hle := Nat.le_of_dvd (Nat.sub_pos_of_lt hlt) (Nat.dvd_sub hb ha)
  omega

/-- Padding loses a part of the size exactly when the size is rounded down to a multiple. -/
theorem ceil_align_lt_iff (k x : ℕ) : ceil_align (2 ^ k) x < x ↔ float32 x < x ∧ 2 ^ k ∣ float32 x := by
  have hpos : 0 < 2 ^ k := Nat.two_pow_pos k
  have hfloat : float32 x ≤ ceil_align (2 ^ k) x := float32_le_ceil_align hpos x
  constructor
  · intro hlt
    refine ⟨hfloat.trans_lt hlt, ?_⟩
    rcases dvd_float32_or k x with hdvd | hunit
    · exact hdvd
    · by_contra hdvd
      have hne : float32 x ≠ ceil_align (2 ^ k) x := fun heq => hdvd (heq ▸ dvd_ceil_align _ _)
      have hgap :=
        add_ulp_le (ulp_dvd_float32 x) (hunit.trans (dvd_ceil_align _ x)) (lt_of_le_of_ne hfloat hne)
      have hdist := (float32_dist x).1
      omega
  · rintro ⟨hdown, hdvd⟩
    exact (ceil_align_le hpos (le_refl _) hdvd).trans_lt hdown

/-- The whole multiples in a rounded size exceed it exactly when it is rounded up to one. -/
theorem lt_floor_align_iff (k x : ℕ) :
    x < float32 x / 2 ^ k * 2 ^ k ↔ x < float32 x ∧ 2 ^ k ∣ float32 x := by
  have hfloor : float32 x / 2 ^ k * 2 ^ k ≤ float32 x := Nat.div_mul_le_self _ _
  constructor
  · intro hlt
    refine ⟨hlt.trans_le hfloor, ?_⟩
    rcases dvd_float32_or k x with hdvd | hunit
    · exact hdvd
    · by_contra hdvd
      have hne : float32 x / 2 ^ k * 2 ^ k ≠ float32 x := fun heq => hdvd (Dvd.intro_left _ heq)
      have hgap :=
        add_ulp_le (hunit.trans (Dvd.intro_left _ rfl)) (ulp_dvd_float32 x) (lt_of_le_of_ne hfloor hne)
      have hdist := (float32_dist x).2
      have hulp := ulp_pos x
      omega
  · rintro ⟨hup, hdvd⟩
    rwa [Nat.div_mul_cancel hdvd]

end Schemes.Word
