import PimLibrary.Layout.DeviceConvert
import PimLibrary.Layout.ChwiseCover

/-! The index formulas of the device kernels in closed form.

    The host puts element `e` of transaction `source q` at element `e` of transaction `target q`, so an
    index formula is right when it computes `target` of the number of the host copy that carries the
    element. The channel-wise formula does. The aligned one counts eight tile sizes for an out-tile, so
    it does for the first out-tile only. -/

namespace PimLibrary.Layout
open Schemes.Word Schemes.Digits PimLibrary.Device

/-! ### The copy that carries an element -/

/-- The number of the host copy that carries element `a` of flat row `R`. -/
def copyOf (emulator : Bool) (k R a : ℕ) : ℕ :=
  (R / 4096 * (2 * k) + a / 128) * 32768 + R % 4096 / 8 * 64 +
    (if emulator then a / 16 % 8 * 8 + R % 8 else R % 8 * 8 + a / 16 % 8)

theorem copyOf_sourceDigits {emulator : Bool} {k R a : ℕ} (ha : a < 256 * k) :
    sourceDigits emulator k (copyOf emulator k R a) =
      [a / 16 % 8, a / 128, R % 8, R % 4096 / 8, R / 4096] := by
  have hlow : (if emulator then a / 16 % 8 * 8 + R % 8 else R % 8 * 8 + a / 16 % 8) < 64 := by
    split_ifs <;> omega
  have hmod : groupDigit emulator (copyOf emulator k R a) = a / 16 % 8 ∧
      rowDigit emulator (copyOf emulator k R a) = R % 8 := by
    unfold groupDigit rowDigit copyOf
    split_ifs <;> constructor <;> omega
  have htile : copyOf emulator k R a / 32768 = a / 128 + R / 4096 * (2 * k) := by
    unfold copyOf
    generalize (if emulator then _ else _ : ℕ) = place at hlow ⊢
    omega
  have hblk : copyOf emulator k R a / 64 % 512 = R % 4096 / 8 := by
    unfold copyOf
    generalize (if emulator then _ else _ : ℕ) = place at hlow ⊢
    omega
  have hX : a / 128 < 2 * k := by omega
  rw [sourceDigits, hmod.1, hmod.2, hblk, htile, Nat.add_mul_mod_self_right, Nat.mod_eq_of_lt hX,
    Nat.add_mul_div_right _ _ (by omega), Nat.div_eq_of_lt hX, Nat.zero_add]

/-- Its source is the transaction of the transposed weight that holds the element. -/
theorem source_copyOf (emulator : Bool) {k R a : ℕ} (ha : a < 256 * k) :
    16 * source emulator k (copyOf emulator k R a) + a % 16 = R * (256 * k) + a := by
  have hR : R = R % 8 + 8 * (R % 4096 / 8 + 512 * (R / 4096)) := by omega
  have hmix : source emulator k (copyOf emulator k R a) = a / 16 + 16 * k * R := by
    rw [source_eq_mix emulator k _ 1, copyOf_sourceDigits ha]
    simp only [mix, Nat.mul_zero, Nat.add_zero]
    rw [← hR]
    have : a / 16 = a / 16 % 8 + 8 * (a / 128) := by omega
    rw [Nat.mul_add, ← Nat.add_assoc, ← this]; ring
  rw [hmix]
  have : 16 * (a / 16 + 16 * k * R) = 16 * (a / 16) + R * (256 * k) := by ring
  omega

theorem source_inj (emulator : Bool) {k q q' : ℕ} (hk : 0 < k)
    (h : source emulator k q = source emulator k q') : q = q' := by
  have hrange : ∀ p, p ≤ q + q' →
      InRange [8, 2 * k, 8, 512, q + q' + 1] (sourceDigits emulator k p) := by
    intro p hp
    have hT : p / 32768 / (2 * k) < q + q' + 1 :=
      Nat.lt_succ_of_le ((Nat.div_le_self _ _).trans ((Nat.div_le_self _ _).trans hp))
    exact .cons (groupDigit_lt _ _) (.cons (Nat.mod_lt _ (by omega)) (.cons (rowDigit_lt _ _)
      (.cons (Nat.mod_lt _ (by omega)) (.cons hT .nil))))
  rw [source_eq_mix _ _ _ (q + q' + 1), source_eq_mix _ _ _ (q + q' + 1)] at h
  exact sourceDigits_inj (mix_inj (hrange q (by omega)) (hrange q' (by omega)) h)

/-- Rows move the target by whole rows. -/
theorem target_add (q C : ℕ) : target (q + 65536 * C) = target q + 65536 * C := by
  have h₁ : (q + 65536 * C) / 512 % 64 = q / 512 % 64 := by omega
  have h₂ : (q + 65536 * C) / 128 % 4 = q / 128 % 4 := by omega
  have h₃ : (q + 65536 * C) / 64 % 2 = q / 64 % 2 := by omega
  have h₄ : (q + 65536 * C) / 32768 % 2 = q / 32768 % 2 := by omega
  have h₅ : (q + 65536 * C) / 65536 = q / 65536 + C := by omega
  have h₆ : (q + 65536 * C) / 32 % 2 = q / 32 % 2 := by omega
  have h₇ : (q + 65536 * C) % 32 = q % 32 := by omega
  rw [target, target, h₁, h₂, h₃, h₄, h₅, h₆, h₇]
  simp only [transaction]
  ring

/-! ### The index formulas in closed form -/

/-- The common tail addresses `target prev_el_count`, past the offset of the matrix or tile. -/
theorem idx_of_prev_el_count_eq {C X grfb grfa prev a : ℕ} (hprev : prev < 2 ^ 29)
    (hodd : prev / 32768 % 2 = X % 2) (hplace : prev % 64 = grfb * 8 + grfa) (hC : C < 2 ^ 12) :
    idx_of_prev_el_count (2 ^ 21 * C) X grfb grfa prev a = 16 * target (prev + 65536 * C) + a % 16 := by
  have hP : uint32 (prev / (8 * 8) / (16 * 64 * 1)) = prev / 65536 := by
    rw [uint32_of_lt (by omega)]; omega
  have hcol : uint32 (uint32 (prev / 65536 * 8 * 8) % (128 / 4) + grfb * 8 + grfa) = prev % 64 := by
    rw [uint32_of_lt (n := prev / 65536 * 8 * 8) (by omega), uint32_of_lt (by omega)]; omega
  have hrow : uint32 (uint32 (prev / 65536 * 8 * 8) / (128 / 4) + prev % 64 / (128 / 4)) =
      2 * (prev / 65536) + prev / 32 % 2 := by
    rw [uint32_of_lt (n := prev / 65536 * 8 * 8) (by omega), uint32_of_lt (by omega)]; omega
  have hlt := target_lt (N := 2 ^ 13) (q := prev) (by omega)
  have hrank : prev % (8 * 8 * (16 / 2) * 64 * 1) / (8 * 8) % (16 / 2 * 1) / (16 / 2) = 0 := by omega
  have haddr : addr_gen (prev % (8 * 8 * (16 / 2) * 64 * 1) / (8 * 8) / (16 / 2 * 1))
      0 (prev % (8 * 8 * (16 / 2) * 64 * 1) / (8 * 8) % (16 / 2 * 1) % (16 / 2) / (16 / 2 / 4))
      (prev % (8 * 8 * (16 / 2) * 64 * 1) / (8 * 8) % (16 / 2 * 1) % (16 / 2) % (16 / 2 / 4) *
        2 + X % 2)
      (2 * (prev / 65536) + prev / 32 % 2) (prev % 64 % (128 / 4)) = 32 * target prev := by
    have h₁ : prev % (8 * 8 * (16 / 2) * 64 * 1) / (8 * 8) / (16 / 2 * 1) = prev / 512 % 64 := by omega
    have h₂ : prev % (8 * 8 * (16 / 2) * 64 * 1) / (8 * 8) % (16 / 2 * 1) % (16 / 2) / (16 / 2 / 4) =
        prev / 128 % 4 := by omega
    have h₃ : prev % (8 * 8 * (16 / 2) * 64 * 1) / (8 * 8) % (16 / 2 * 1) % (16 / 2) %
      (16 / 2 / 4) * 2 =
        2 * (prev / 64 % 2) := by omega
    have h₄ : prev % 64 % (128 / 4) = prev % 32 := by omega
    rw [h₁, h₂, h₃, h₄, addr_gen_eq _ _ _ _ _ (by omega) (by omega), target, hodd]
  simp only [idx_of_prev_el_count, vega20_pbi, type_size_half]
  rw [hP, hcol, hrow, hrank, haddr, target_add, uint64_of_lt (by omega)]
  omega

/-- No element goes below the offset of its matrix or tile. -/
theorem le_idx_of_prev_el_count {n_c_offset : ℕ} (h : n_c_offset < 2 ^ 33) (X grfb grfa prev a : ℕ) :
    n_c_offset / 2 ≤ idx_of_prev_el_count n_c_offset X grfb grfa prev a := by
  have hrank : prev % (8 * 8 * (16 / 2) * 64 * 1) / (8 * 8) % (16 / 2 * 1) / (16 / 2) = 0 := by omega
  simp only [idx_of_prev_el_count, vega20_pbi, type_size_half]
  rw [hrank, addr_gen_eq _ _ _ _ _ (by omega) (uint32_lt _)]
  have hbg : prev % (8 * 8 * (16 / 2) * 64 * 1) / (8 * 8) % (16 / 2 * 1) % (16 / 2) / (16 / 2 / 4) <
    4 := by omega
  have htr := transaction_lt (prev % (8 * 8 * (16 / 2) * 64 * 1) / (8 * 8) / (16 / 2 * 1))
    (prev % (8 * 8 * (16 / 2) * 64 * 1) / (8 * 8) % (16 / 2 * 1) % (16 / 2) % (16 / 2 / 4) * 2 + X % 2)
    (uint32 (uint32 (uint32 (prev / (8 * 8) / (16 * 64 * 1)) * 8 * 8) % (128 / 4) + grfb * 8 +
      grfa) % (128 / 4))
    hbg
    (uint32_lt (uint32 (uint32 (prev / (8 * 8) / (16 * 64 * 1)) * 8 * 8) / (128 / 4) +
      uint32 (uint32 (uint32 (prev / (8 * 8) / (16 * 64 * 1)) * 8 * 8) % (128 / 4) + grfb * 8 +
        grfa) / (128 / 4)))
  generalize transaction _ _ _ _ _ = t at htr ⊢
  rw [uint64_of_lt (by omega)]
  omega

theorem le_idx_chwise (emulator : Bool) (n c h w i j a l : ℕ) :
    uint32 (uint32 (i * c * w + j * w + l) / 4096 * 4096 * h * 2) / 2 ≤
      convert_idx_from_raw_to_chwise_gemm_weight_layout emulator n c h w i j a l := by
  have hlt : uint32 (uint32 (i * c * w + j * w + l) / 4096 * 4096 * h * 2) < 2 ^ 33 :=
    (uint32_lt _).trans (by norm_num)
  cases emulator <;> exact le_idx_of_prev_el_count hlt _ _ _ _ a

theorem le_idx_aligned (emulator : Bool) (n c h w i j a l : ℕ) :
    uint32 ((i * c + j) * h * w) ≤ convert_idx_from_raw_to_aligned_gemm_weight_layout emulator n c h
      w i j a l := by
  have hlt := uint32_lt ((i * c + j) * h * w)
  have hle : ∀ X grfb grfa prev, uint32 ((i * c + j) * h * w) ≤
      idx_of_prev_el_count (uint32 ((i * c + j) * h * w) * 2) X grfb grfa prev a := by
    intro X grfb grfa prev
    have hoffset : uint32 ((i * c + j) * h * w) * 2 < 2 ^ 33 := by omega
    have h := le_idx_of_prev_el_count hoffset X grfb grfa prev a
    omega
  cases emulator <;> exact hle _ _ _ _

/-- A copy number of the first iteration: below `2k` tiles, with the parity of its in-tile. -/
theorem copyOf_first (emulator : Bool) {k R a : ℕ} (ha : a < 256 * k) :
    copyOf emulator k (R % 4096) a < 65536 * k ∧
      copyOf emulator k (R % 4096) a / 32768 % 2 = a / 128 % 2 ∧
      copyOf emulator k (R % 4096) a % 64 =
        (if emulator then a / 16 % 8 * 8 + R % 8 else R % 8 * 8 + a / 16 % 8) ∧
      copyOf emulator k (R % 4096) a + 65536 * (k * (R / 4096)) = copyOf emulator k R a := by
  have hlow : (if emulator then a / 16 % 8 * 8 + R % 8 else R % 8 * 8 + a / 16 % 8) < 64 := by
    split_ifs <;> omega
  have hR : R % 4096 / 4096 = 0 := by omega
  have hrow : R % 4096 % 8 = R % 8 := by omega
  have hmul : 65536 * (k * (R / 4096)) = R / 4096 * (2 * k) * 32768 := by ring
  unfold copyOf
  rw [hR, hrow, Nat.mod_mod, hmul]
  generalize (if emulator then _ else _ : ℕ) = place at hlow ⊢
  generalize R / 4096 * (2 * k) = base
  omega

theorem idx_aligned_eq (emulator : Bool) {n c k Y i j a l : ℕ} (ha : a < 256 * k)
    (hl : l < 4096 * Y) (hkY : k * Y ≤ 2 ^ 10) (hC : (i * c + j) * (k * Y) < 2 ^ 10) :
    convert_idx_from_raw_to_aligned_gemm_weight_layout emulator n c (256 * k) (4096 * Y) i j a l =
      16 * target (l / 4096 * (8 * k) * 65536 + copyOf emulator k (l % 4096) a +
        65536 * ((i * c + j) * (k * Y))) + a % 16 := by
  obtain ⟨hlt, hodd, hplace, -⟩ := copyOf_first emulator (R := l) ha
  have hyk : l / 4096 * k + k ≤ k * Y := by
    calc l / 4096 * k + k = k * (l / 4096 + 1) := by ring
      _ ≤ k * Y := Nat.mul_le_mul_left k (by omega)
  have hoff : uint32 ((i * c + j) * (256 * k) * (4096 * Y)) * 2 = 2 ^ 21 * ((i * c + j) * (k * Y)) := by
    have hmul : (i * c + j) * (256 * k) * (4096 * Y) = 2 ^ 20 * ((i * c + j) * (k * Y)) := by ring
    rw [hmul, uint32_of_lt (by omega)]; ring
  have hcnt : uint32 (256 * k * 2 / 32) = 16 * k := by
    have : k ≤ k * Y := by omega
    rw [uint32_of_lt (by omega)]; omega
  have hsize : uint32 (8 * 8 * 64 * 1 * (16 * k) * 8) = 2 ^ 19 * k := by
    rw [uint32_of_lt (by omega)]; omega
  have hx : a * 2 / 32 = a / 16 := by omega
  have hprev : ∀ grfb grfa, grfb * 8 + grfa = (if emulator then a / 16 % 8 * 8 + l % 8
        else l % 8 * 8 + a / 16 % 8) →
      uint32 (l / 4096 * (2 ^ 19 * k) + a / 16 / 8 * 32768 + l % 4096 / 8 * 8 * 8 + grfb * 8 + grfa) =
        l / 4096 * (8 * k) * 65536 + copyOf emulator k (l % 4096) a := by
    intro grfb grfa hgrf
    have hsplit : copyOf emulator k (l % 4096) a =
        a / 128 * 32768 + l % 4096 / 8 * 64 + (grfb * 8 + grfa) := by
      rw [hgrf, copyOf, show l % 4096 / 4096 = 0 by omega, Nat.mod_mod, show l % 4096 % 8 =
        l % 8 by omega]
      ring
    have hy : l / 4096 * (2 ^ 19 * k) = l / 4096 * (8 * k) * 65536 := by ring
    have hy' : l / 4096 * (8 * k) = 8 * (l / 4096 * k) := by ring
    rw [uint32_of_lt (by omega)]
    omega
  have hy' : l / 4096 * (8 * k) = 8 * (l / 4096 * k) := by ring
  have hodd' : (l / 4096 * (8 * k) * 65536 + copyOf emulator k (l % 4096) a) / 32768 % 2 =
      a / 16 / 8 % 2 := by omega
  have hplace' : (l / 4096 * (8 * k) * 65536 + copyOf emulator k (l % 4096) a) % 64 =
      (if emulator then a / 16 % 8 * 8 + l % 8 else l % 8 * 8 + a / 16 % 8) := by omega
  have hrow : l % 4096 % 8 = l % 8 := by omega
  cases emulator
  · simp only [convert_idx_from_raw_to_aligned_gemm_weight_layout, vega20_pbi, type_size_half,
      hoff, hcnt, hsize, hx, Nat.reduceMul, hrow, if_false, Bool.false_eq_true]
    rw [hprev _ _ (by simp), idx_of_prev_el_count_eq (by omega) hodd' (by simpa using hplace') (by omega)]
  · simp only [convert_idx_from_raw_to_aligned_gemm_weight_layout, vega20_pbi, type_size_half,
      hoff, hcnt, hsize, hx, Nat.reduceMul, hrow, if_true]
    rw [hprev _ _ (by simp), idx_of_prev_el_count_eq (by omega) hodd' (by simpa using hplace') (by omega)]

theorem idx_chwise_eq {emulator : Bool} {n c k w i j a l : ℕ} (ha : a < 256 * k) (hk : k < 2 ^ 10)
    (hR : (i * c + j) * w + l < 2 ^ 32) (hC : k * (((i * c + j) * w + l) / 4096) < 2 ^ 10) :
    convert_idx_from_raw_to_chwise_gemm_weight_layout emulator n c (256 * k) w i j a l =
      16 * target (copyOf emulator k ((i * c + j) * w + l) a) + a % 16 := by
  obtain ⟨hlt, hodd, hplace, hadd⟩ := copyOf_first emulator (R := (i * c + j) * w + l) ha
  have hflat : uint32 (i * c * w + j * w + l) = (i * c + j) * w + l := by
    rw [← Nat.add_mul, uint32_of_lt hR]
  rw [← hadd]
  generalize (i * c + j) * w + l = R at *
  have hoff : uint32 (R / 4096 * 4096 * (256 * k) * 2) = 2 ^ 21 * (k * (R / 4096)) := by
    have hmul : R / 4096 * 4096 * (256 * k) * 2 = 2 ^ 21 * (k * (R / 4096)) := by ring
    rw [hmul, uint32_of_lt (by omega)]
  have hx : a * 2 / 32 = a / 16 := by omega
  have hrow : R % 4096 % 8 = R % 8 := by omega
  have hprev : ∀ grfb grfa, grfb * 8 + grfa = (if emulator then a / 16 % 8 * 8 + R % 8
        else R % 8 * 8 + a / 16 % 8) →
      uint32 (a / 16 / 8 * 32768 + R % 4096 / 8 * 8 * 8 + grfb * 8 + grfa) =
        copyOf emulator k (R % 4096) a := by
    intro grfb grfa hgrf
    have hsplit : copyOf emulator k (R % 4096) a =
        a / 128 * 32768 + R % 4096 / 8 * 64 + (grfb * 8 + grfa) := by
      rw [hgrf, copyOf, show R % 4096 / 4096 = 0 by omega, Nat.mod_mod, hrow]
      ring
    rw [uint32_of_lt (by omega)]
    omega
  have hodd' : copyOf emulator k (R % 4096) a / 32768 % 2 = a / 16 / 8 % 2 := by omega
  cases emulator
  · simp only [convert_idx_from_raw_to_chwise_gemm_weight_layout, vega20_pbi, type_size_half,
      PIM_GEMV_OUT_ALIGN, hflat, hoff, hx, Nat.reduceMul, hrow, if_false, Bool.false_eq_true]
    rw [hprev _ _ (by simp), idx_of_prev_el_count_eq (by omega) hodd' (by simpa using hplace) (by omega)]
  · simp only [convert_idx_from_raw_to_chwise_gemm_weight_layout, vega20_pbi, type_size_half,
      PIM_GEMV_OUT_ALIGN, hflat, hoff, hx, Nat.reduceMul, hrow, if_true]
    rw [hprev _ _ (by simp), idx_of_prev_el_count_eq (by omega) hodd' (by simpa using hplace) (by omega)]

/-! ### The second element of the buffer -/

theorem target_eq_zero {q : ℕ} (h : target q = 0) : q = 0 :=
  target_inj (h.trans (by decide : 0 = target 0))

theorem copyOf_eq_zero {emulator : Bool} {k R a : ℕ} (hR : R < 4096) (h : copyOf emulator k R a = 0) :
    R = 0 ∧ a < 16 := by
  rw [copyOf, Nat.div_eq_of_lt hR, Nat.zero_mul] at h
  split_ifs at h <;> omega

/-- Only the second element of the first row goes to place 1, whatever the height. -/
theorem idx_chwise_eq_one {emulator : Bool} {n c h w i j a l : ℕ} (ha : a < h) (hh : h ≤ 4096)
    (hsize : ((i * c + j) * w + l) * h < 2 ^ 30)
    (heq : convert_idx_from_raw_to_chwise_gemm_weight_layout emulator n c h w i j a l = 1) :
    (i * c + j) * w + l = 0 ∧ a = 1 := by
  have hle := le_idx_chwise emulator n c h w i j a l
  have hR : (i * c + j) * w + l ≤ ((i * c + j) * w + l) * h := Nat.le_mul_of_pos_right _ (by omega)
  have hflat : uint32 (i * c * w + j * w + l) = (i * c + j) * w + l := by
    rw [← Nat.add_mul, uint32_of_lt (by omega)]
  have hdown : ((i * c + j) * w + l) / 4096 * 4096 * h ≤ ((i * c + j) * w + l) * h :=
    Nat.mul_le_mul_right _ (Nat.div_mul_le_self _ _)
  rw [heq, hflat, uint32_of_lt (by omega)] at hle
  have hfirst : ((i * c + j) * w + l) / 4096 = 0 := by
    by_contra hne
    have hone : 1 * 4096 * 1 ≤ ((i * c + j) * w + l) / 4096 * 4096 * h := by gcongr <;> omega
    omega
  -- in the first tile the height does not enter
  have hheight : convert_idx_from_raw_to_chwise_gemm_weight_layout emulator n c h w i j a l =
      convert_idx_from_raw_to_chwise_gemm_weight_layout emulator n c (256 * 16) w i j a l := by
    simp only [convert_idx_from_raw_to_chwise_gemm_weight_layout, PIM_GEMV_OUT_ALIGN, hflat, hfirst,
      Nat.zero_mul]
  rw [hheight, idx_chwise_eq (by omega) (by norm_num) (by omega) (by rw [hfirst]; norm_num)] at heq
  obtain ⟨hrow, ha16⟩ := copyOf_eq_zero (by omega)
    (target_eq_zero (q := copyOf emulator 16 ((i * c + j) * w + l) a) (by omega))
  exact ⟨hrow, by omega⟩

theorem idx_aligned_eq_one {emulator : Bool} {n c w i j a l : ℕ} (ha : a < 4096) (hl : l < w)
    (hw : w ≤ 2 ^ 18) (hsize : (i * c + j) * 4096 * w < 2 ^ 30)
    (heq : convert_idx_from_raw_to_aligned_gemm_weight_layout emulator n c 4096 w i j a l = 1) :
    i * c + j = 0 ∧ a = 1 ∧ l = 0 := by
  have hle := le_idx_aligned emulator n c 4096 w i j a l
  rw [heq, uint32_of_lt (by omega)] at hle
  have hm : i * c + j = 0 := by
    by_contra hne
    have hone : 1 * 4096 * 1 ≤ (i * c + j) * 4096 * w := by gcongr <;> omega
    omega
  -- in the first matrix the width does not enter
  have hwidth : convert_idx_from_raw_to_aligned_gemm_weight_layout emulator n c 4096 w i j a l =
      convert_idx_from_raw_to_aligned_gemm_weight_layout emulator n c (256 * 16) (4096 * 64) i j
        a l := by
    simp only [convert_idx_from_raw_to_aligned_gemm_weight_layout, hm, Nat.zero_mul]
  rw [hwidth, idx_aligned_eq _ (by omega) (by omega) (by norm_num) (by rw [hm]; norm_num), hm,
    Nat.zero_mul] at heq
  have hzero := target_eq_zero
    (q := l / 4096 * (8 * 16) * 65536 + copyOf emulator 16 (l % 4096) a + 65536 * 0) (by omega)
  have hcopy : copyOf emulator 16 (l % 4096) a = 0 := by omega
  obtain ⟨hrow, ha16⟩ := copyOf_eq_zero (Nat.mod_lt _ (by norm_num)) hcopy
  exact ⟨hm, by omega, by omega⟩

end PimLibrary.Layout
