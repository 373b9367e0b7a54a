import Mathlib.Tactic

/-! Machine words as integers with explicit wrap-around.

    A C `int` is an `Int` that every operation brings back to `[-2^31, 2^31)`; an unsigned word is a
    `Nat` reduced modulo its width. A wrap only ever differs from the exact value when that value
    leaves the range, so a development states its bounds once and rewrites the wraps away. -/

namespace Schemes.Word

/-- The value of a 32-bit two's complement `int`. -/
def int32 (x : ℤ) : ℤ := Int.bmod x (2 ^ 32)

/-- The value of a `uint32_t`. -/
def uint32 (x : ℕ) : ℕ := x % 2 ^ 32

/-- The value of a `uint64_t`. -/
def uint64 (x : ℕ) : ℕ := x % 2 ^ 64

/-- An `int` converted to `uint32_t`. -/
def toUint32 (x : ℤ) : ℕ := (x % 2 ^ 32).toNat

/-- An `int` converted to a 64-bit unsigned word (sign extension). -/
def toUint64 (x : ℤ) : ℕ := (x % 2 ^ 64).toNat

/-- `x` rounded to a 24-bit significand, ties to even: the value of `(float)x`. -/
def float32 (x : ℕ) : ℕ :=
  let ulp := 2 ^ (Nat.log2 x - 23)
  let q := x / ulp
  let r := x % ulp
  if ulp < 2 * r ∨ (2 * r = ulp ∧ ulp ≠ 1 ∧ q % 2 = 1) then (q + 1) * ulp else q * ulp

/-! ### `int` -/

theorem int32_of_bounds {x : ℤ} (hlo : -2 ^ 31 ≤ x) (hhi : x < 2 ^ 31) : int32 x = x :=
  Int.bmod_eq_of_le (by norm_num; linarith) (by norm_num; linarith)

theorem int32_natCast {n : ℕ} (h : n < 2 ^ 31) : int32 (n : ℤ) = n :=
  int32_of_bounds (by have := Int.natCast_nonneg n; omega) (by exact_mod_cast h)

theorem int32_lt (x : ℤ) : int32 x < 2 ^ 31 := by
  have h := Int.bmod_lt (x := x) (m := 2 ^ 32) (by norm_num)
  simpa [int32] using h

theorem neg_le_int32 (x : ℤ) : -2 ^ 31 ≤ int32 x := by
  have h := Int.le_bmod (x := x) (m := 2 ^ 32) (by norm_num)
  simpa [int32] using h

/-- Wrapping a nonnegative value never makes it larger. -/
theorem int32_le_self {x : ℤ} (h : 0 ≤ x) : int32 x ≤ x := by
  rcases lt_or_ge x (2 ^ 31) with hx | hx
  · rw [int32_of_bounds (by linarith) hx]
  · exact le_trans (le_of_lt (int32_lt x)) hx

/-- The upper half of the unsigned range reads as negative. -/
theorem int32_upper {x : ℤ} (hlo : 2 ^ 31 ≤ x) (hhi : x < 2 ^ 32) : int32 x = x - 2 ^ 32 := by
  have hmod : int32 x = int32 (x - 2 ^ 32) := by
    rw [int32, int32, ← Int.sub_bmod_right x (2 ^ 32)]; norm_num
  rw [hmod, int32_of_bounds (by linarith) (by linarith)]

theorem int32_neg {x : ℤ} (hlo : 2 ^ 31 ≤ x) (hhi : x < 2 ^ 32) : int32 x < 0 := by
  rw [int32_upper hlo hhi]
  linarith

theorem int32_int32 (x : ℤ) : int32 (int32 x) = int32 x := by simp [int32]

theorem int32_add_int32 (x y : ℤ) : int32 (x + int32 y) = int32 (x + y) := by simp [int32]

theorem int32_add_int32' (x y : ℤ) : int32 (int32 x + y) = int32 (x + y) := by
  simp [int32, Int.bmod_add_bmod]

theorem int32_mul_int32 (x y : ℤ) : int32 (x * int32 y) = int32 (x * y) := by simp [int32]

theorem int32_mul_int32' (x y : ℤ) : int32 (int32 x * y) = int32 (x * y) := by
  simp [int32, Int.bmod_mul_bmod]

/-- Factors may be wrapped one by one. -/
theorem int32_mul_congr {x y : ℤ} (h : int32 x = int32 y) (z : ℤ) :
    int32 (x * int32 z) = int32 (y * z) := by
  rw [int32_mul_int32, ← int32_mul_int32', h, int32_mul_int32']

/-- Wrapping adds a multiple of `2^32`. -/
theorem int32_eq_add_mul (x : ℤ) : ∃ k : ℤ, int32 x = x + 2 ^ 32 * k := by
  refine ⟨-Int.bdiv x (2 ^ 32), ?_⟩
  have h := Int.bmod_eq_self_sub_mul_bdiv x (2 ^ 32)
  rw [int32, h]; push_cast; ring

theorem int32_add_mul (x k : ℤ) : int32 (x + 2 ^ 32 * k) = int32 x := by
  rw [int32, int32]
  exact Int.add_mul_bmod_self_left x (2 ^ 32) k

/-- Wrapping keeps every low-order divisor. -/
theorem dvd_int32 {d x : ℤ} (hd : d ∣ 2 ^ 32) (hx : d ∣ x) : d ∣ int32 x := by
  obtain ⟨k, hk⟩ := int32_eq_add_mul x
  rw [hk]; exact dvd_add hx (hd.mul_right k)

/-! ### Truncating division -/

theorem tdiv_tdiv (x : ℤ) (a b : ℕ) : (x.tdiv a).tdiv b = x.tdiv (a * b : ℕ) := by
  obtain ⟨n, rfl | rfl⟩ := Int.eq_nat_or_neg x
  · rw [← Int.ofNat_tdiv, ← Int.ofNat_tdiv, ← Int.ofNat_tdiv, Nat.div_div_eq_div_mul]
  · rw [Int.neg_tdiv, Int.neg_tdiv, Int.neg_tdiv, ← Int.ofNat_tdiv, ← Int.ofNat_tdiv, ← Int.ofNat_tdiv,
      Nat.div_div_eq_div_mul]

theorem tdiv_nonpos {x : ℤ} {n : ℕ} (h : x < n) : x.tdiv n ≤ 0 := by
  obtain ⟨m, rfl | rfl⟩ := Int.eq_nat_or_neg x
  · rw [← Int.ofNat_tdiv, Nat.div_eq_of_lt (by exact_mod_cast h), Nat.cast_zero]
  · rw [Int.neg_tdiv, ← Int.ofNat_tdiv, Int.neg_nonpos_iff]
    exact Int.natCast_nonneg _

/-! ### Unsigned words -/

theorem uint32_of_lt {n : ℕ} (h : n < 2 ^ 32) : uint32 n = n := Nat.mod_eq_of_lt h

theorem uint64_of_lt {n : ℕ} (h : n < 2 ^ 64) : uint64 n = n := Nat.mod_eq_of_lt h

theorem uint32_lt (n : ℕ) : uint32 n < 2 ^ 32 := Nat.mod_lt _ (by norm_num)

theorem uint32_eq_self_iff {n : ℕ} : uint32 n = n ↔ n < 2 ^ 32 :=
  ⟨fun h => h ▸ uint32_lt n, uint32_of_lt⟩

theorem toUint32_lt (x : ℤ) : toUint32 x < 2 ^ 32 := by
  unfold toUint32; omega

theorem toUint32_natCast {n : ℕ} (h : n < 2 ^ 32) : toUint32 (n : ℤ) = n := by
  unfold toUint32; omega

theorem toUint32_int32 (n : ℕ) : toUint32 (int32 (n : ℤ)) = uint32 n := by
  obtain ⟨k, hk⟩ := int32_eq_add_mul (n : ℤ)
  rw [hk, toUint32, Int.add_mul_emod_self_left, uint32]
  exact_mod_cast Int.toNat_natCast _

theorem int32_uint32 (n : ℕ) : int32 (uint32 n : ℤ) = int32 (n : ℤ) := by
  rw [uint32, Int.natCast_mod]
  exact Int.emod_bmod _ _

theorem toUint64_lt (x : ℤ) : toUint64 x < 2 ^ 64 := by
  unfold toUint64; omega

theorem toUint64_natCast {n : ℕ} (h : n < 2 ^ 64) : toUint64 (n : ℤ) = n := by
  unfold toUint64; omega

/-! ### `float` -/

/-- Integers of at most 24 bits are exact in single precision. -/
theorem float32_of_lt {n : ℕ} (h : n < 2 ^ 24) : float32 n = n := by
  have hulp : Nat.log2 n - 23 = 0 := by
    rcases Nat.eq_zero_or_pos n with rfl | hn
    · simp
    · have := (Nat.log2_lt (Nat.pos_iff_ne_zero.mp hn)).mpr h
      omega
  simp [float32, hulp, Nat.mod_one]

example : float32 (2 ^ 24 + 1) = 2 ^ 24 := by decide

example : float32 (2 ^ 24 + 3) = 2 ^ 24 + 4 := by decide

end Schemes.Word
