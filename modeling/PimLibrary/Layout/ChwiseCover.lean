import PimLibrary.Layout.Bijection

/-! When the channel-wise conversion moves every transaction exactly once.

    The loop steps the source by `bshape.h` rows of 4096 values an iteration whatever the order, while
    its inner loops run over the in-dimension of the order. Under `I_X_W` these are the same number.
    Under `W_X_I` they are not: a second iteration overlaps the first when `h < w`, and leaves gaps and
    runs past the end when `h > w`. -/

namespace PimLibrary.Layout
open Schemes.Word Schemes.Loop Schemes.Digits PimLibrary.Device

/-- With nothing to multiply along there is nothing to copy. -/
theorem convert_chwise_of_inDim_zero {emulator : Bool} {order : PimGemmOrder} {s : PimBShape}
    (hin : inDim s order = 0) :
    convert_data_layout_for_chwise_gemm_weight emulator order (PimCreateBo s) = [] := by
  have hcnt := fun (x : UInt32) (hx : x.toNat = 0) => in_cnt_eq (x := x) (k := 0) hx (by omega)
  have hx : ∀ data_offset, (x_loop emulator data_offset ((2 * 0 * 8 : ℕ) : ℤ) {} 0).2 = [] := by
    intro data_offset; simp [x_loop, forRange_of_nonpos, vega20_pbi, runLoop]
  have hnil : ∀ iter stride, iter_loop (fun _ => []) iter stride = [] := by
    intro iter stride
    exact (runLoop_range (R := fun _ _ => True) (o := fun _ => []) trivial
      fun _ _ _ _ => ⟨trivial, rfl⟩).2.trans (by simp)
  cases order <;> simp only [inDim] at hin <;>
    simp only [convert_data_layout_for_chwise_gemm_weight, chwise_counts, PimCreateBo, type_size,
      hcnt _ hin, hx, hnil]

/-- Without a whole tile there is no iteration. -/
theorem convert_chwise_of_no_iteration {emulator : Bool} {order : PimGemmOrder} {s : PimBShape}
    (h0 : matrices s * outDim s order = 0) :
    convert_data_layout_for_chwise_gemm_weight emulator order (PimCreateBo s) = [] := by
  have hiter : ∀ x : UInt32, matrices s * x.toNat = 0 →
      int32 (s.n * s.c * x / 4096).toNat = ((0 : ℕ) : ℤ) := by
    intro x hx
    have hval : (s.n * s.c * x / 4096).toNat = 0 := by
      simp only [UInt32.toNat_div, UInt32.toNat_mul, UInt32.toNat_ofNat, Nat.mod_mul_mod]
      rw [← matrices, hx]
    rw [hval, int32_natCast (by norm_num)]
  cases order <;> simp only [outDim] at h0 <;>
    simp only [convert_data_layout_for_chwise_gemm_weight, chwise_counts, PimCreateBo, hiter _ h0,
      iter_loop_spec] <;>
    rfl

/-- The first iteration does not see the stride. -/
theorem copyAt_stride {emulator : Bool} {k S S' q : ℕ} (hq : q < 65536 * k) :
    copyAt emulator k 1 S q = copyAt emulator k 1 S' q := by
  have h0 : q / 32768 / (2 * k) = 0 := by
    rw [Nat.div_div_eq_div_mul]; exact Nat.div_eq_of_lt (by omega)
  simp only [copyAt, h0, Nat.zero_div, Nat.zero_mul]

/-- Copy `j` of iteration `m` reads where copy `j` of the first iteration does, `m` strides on. -/
theorem copyAt_src_iteration (emulator : Bool) (stride : ℕ) {k m j : ℕ} (hj : j < 65536 * k)
    (hsrc : 32 * source emulator k j < 2 ^ 31) :
    (copyAt emulator k 1 stride (65536 * (k * m) + j)).src =
      int32 ((m * stride : ℕ) : ℤ) + ((32 * source emulator k j : ℕ) : ℤ) := by
  have hk : 0 < k := by omega
  have h0 : j / 32768 / (2 * k) = 0 := by
    rw [Nat.div_div_eq_div_mul]; exact Nat.div_eq_of_lt (by omega)
  have hT : (65536 * (k * m) + j) / 32768 = 2 * k * m + j / 32768 := by
    rw [show 65536 * (k * m) + j = 32768 * (2 * k * m) + j by ring, Nat.mul_add_div (by norm_num)]
  have hg : groupDigit emulator (65536 * (k * m) + j) = groupDigit emulator j := by
    rw [← groupDigit_mod, ← groupDigit_mod emulator j]; congr 1; omega
  have hr : rowDigit emulator (65536 * (k * m) + j) = rowDigit emulator j := by
    rw [← rowDigit_mod, ← rowDigit_mod emulator j]; congr 1; omega
  have hblk : (65536 * (k * m) + j) / 64 % 512 = j / 64 % 512 := by omega
  rw [← int32_natCast hsrc, copyAt_src_wrap, hT, Nat.mul_add_div (by omega), h0, Nat.mul_add_mod,
    hg, hr, hblk, Nat.add_zero, Nat.div_one, Nat.mod_one, source, sourceDigits, h0]
  simp only [mix, Nat.mul_zero, Nat.add_zero]

/-- A tile below `2^31` bytes wraps no source. -/
theorem source_lt (emulator : Bool) {k j : ℕ} (hj : j < 65536 * k) (hmat : 2 ^ 21 * k ≤ 2 ^ 31) :
    32 * source emulator k j < 2 ^ 31 := by
  have h := mix_lt (sourceDigits_inRange (N := 1) emulator (show 0 < k by omega) (by rwa [Nat.mul_one]))
  rw [← source_eq_mix] at h
  simp only [List.prod_cons, List.prod_nil] at h
  omega

/-- Copy `j` of iteration `m` writes where copy `j` of the first iteration does, `m` strides on. -/
theorem copyAt_dst_iteration (emulator : Bool) (stride : ℕ) {k m j : ℕ} (hj : j < 65536 * k)
    (hrow : 2 * k ≤ 2 ^ 32) :
    (copyAt emulator k 1 stride (65536 * (k * m) + j)).dst =
      int32 ((m * stride : ℕ) : ℤ) + ((32 * target j : ℕ) : ℤ) := by
  have hk : 0 < k := by omega
  have h0 : j / 32768 / (2 * k) = 0 := by
    rw [Nat.div_div_eq_div_mul]; exact Nat.div_eq_of_lt (by omega)
  have hT : (65536 * (k * m) + j) / 32768 = 2 * k * m + j / 32768 := by
    rw [show 65536 * (k * m) + j = 32768 * (2 * k * m) + j by ring, Nat.mul_add_div (by norm_num)]
  have hblk : (65536 * (k * m) + j) / 64 % 512 = j / 64 % 512 := by omega
  have hplace : (65536 * (k * m) + j) % 64 = j % 64 := by omega
  have hfirst := copyAt_dst emulator (k := k) (Y := 1) (q := j) (by rw [h0]; norm_num) (by omega)
    hk one_pos
  have hzero : int32 ((0 * (2 ^ 21 * k * 1) : ℕ) : ℤ) = 0 := by
    rw [Nat.zero_mul, int32_natCast (by norm_num), Nat.cast_zero]
  rw [← hfirst]
  simp only [copyAt, placed, hT, Nat.mul_add_div (show 0 < 2 * k by omega), h0, Nat.mul_add_mod,
    hblk, hplace, Nat.add_zero, Nat.div_one, Nat.mod_one, hzero, zero_add]

/-! ### A stride other than one matrix -/

theorem mem_transactionOffsets {total : ℕ} {v : ℤ} (h : v ∈ transactionOffsets total) :
    0 ≤ v ∧ v < total := by
  obtain ⟨q, hq, rfl⟩ := List.mem_map.mp h
  have hq := List.mem_range.mp hq
  omega

/-- Every place of the first iteration is some copy's source. -/
theorem exists_source_eq (emulator : Bool) {k v : ℕ} (hk : 0 < k) (hv : v < 65536 * k) :
    ∃ j, j < 65536 * k ∧ source emulator k j = v := by
  have hmem : v ∈ (List.range (65536 * (k * 1))).map (source emulator k) :=
    (map_source_perm emulator hk 1).mem_iff.mpr (List.mem_range.mpr (by omega))
  obtain ⟨j, hj, hjv⟩ := List.mem_map.mp hmem
  exact ⟨j, by simpa using hj, hjv⟩

theorem source_zero (emulator : Bool) (k : ℕ) : source emulator k 0 = 0 := by
  simp [source, sourceDigits, mix, groupDigit, rowDigit]

section Stride

variable {emulator : Bool} {k I h : ℕ}

/-- The sources of the copies of `I` iterations with a stride of `h` rows. -/
def strideSources (emulator : Bool) (k I h : ℕ) : List ℤ :=
  (List.range (65536 * (k * I))).map fun q => (copyAt emulator k 1 (8192 * h) q).src

theorem iteration_mem {m j : ℕ} (hm : m < I) (hj : j < 65536 * k) (hmat : 2 ^ 21 * k ≤ 2 ^ 31) :
    int32 ((m * (8192 * h) : ℕ) : ℤ) + ((32 * source emulator k j : ℕ) : ℤ) ∈
      strideSources emulator k I h := by
  refine List.mem_map.mpr ⟨65536 * (k * m) + j, List.mem_range.mpr ?_,
    copyAt_src_iteration _ _ hj (source_lt emulator hj hmat)⟩
  calc 65536 * (k * m) + j < 65536 * (k * m) + 65536 * k := by omega
    _ = 65536 * (k * (m + 1)) := by ring
    _ ≤ 65536 * (k * I) := by gcongr; omega

/-- A short stride makes the second iteration read again what the first one has read. -/
theorem not_perm_of_short (hk : 0 < k) (hI : 2 ≤ I) (hshort : h < 256 * k)
    (hmat : 2 ^ 21 * k ≤ 2 ^ 31) (total : ℕ) :
    ¬ (strideSources emulator k I h).Perm (transactionOffsets total) := by
  intro hperm
  have hnd : (strideSources emulator k I h).Nodup :=
    hperm.nodup_iff.mpr (nodup_transactionOffsets total)
  obtain ⟨j, hj, hjv⟩ := exists_source_eq emulator hk (v := 256 * h) (by omega)
  have hfirst := copyAt_src_iteration emulator (8192 * h) (m := 0) hj (source_lt emulator hj hmat)
  have hsecond := copyAt_src_iteration emulator (8192 * h) (m := 1) (j := 0)
    (by omega) (source_lt emulator (by omega) hmat)
  rw [int32_natCast (by omega)] at hfirst hsecond
  have hkI : k * 2 ≤ k * I := Nat.mul_le_mul_left k hI
  have heq := (List.nodup_map_iff_inj_on List.nodup_range).mp hnd (65536 * (k * 0) + j)
    (List.mem_range.mpr (by omega)) (65536 * (k * 1) + 0) (List.mem_range.mpr (by omega))
    (by rw [hfirst, hsecond, hjv, source_zero]; push_cast; ring)
  omega

/-- A long stride makes some iteration read outside the weight. -/
theorem not_perm_of_long (hk : 0 < k) (hI : 2 ≤ I) (hlong : 256 * k < h) (hh : h < 4096)
    (hsize : 2 ^ 21 * (k * I) < 2 ^ 31) :
    ¬ (strideSources emulator k I h).Perm (transactionOffsets (2 ^ 21 * (k * I))) := by
  intro hperm
  have hmat : 2 ^ 21 * k ≤ 2 ^ 31 := by nlinarith
  have hmem : ∀ m j, m < I → j < 65536 * k →
      0 ≤ int32 ((m * (8192 * h) : ℕ) : ℤ) + ((32 * source emulator k j : ℕ) : ℤ) ∧
      int32 ((m * (8192 * h) : ℕ) : ℤ) + ((32 * source emulator k j : ℕ) : ℤ) <
        ((2 ^ 21 * (k * I) : ℕ) : ℤ) :=
    fun m j hm hj => mem_transactionOffsets (hperm.mem_iff.mp (iteration_mem hm hj hmat))
  -- the first iteration that ends past the weight
  have hex : ∃ m, 256 * (k * I) < m * h + 256 * k := by
    obtain ⟨d, rfl⟩ : ∃ d, I = d + 1 := ⟨I - 1, by omega⟩
    exact ⟨d, by nlinarith⟩
  have hlt : Nat.find hex < I := by
    obtain ⟨d, rfl⟩ : ∃ d, I = d + 1 := ⟨I - 1, by omega⟩
    exact Nat.lt_succ_of_le (Nat.find_min' hex (by nlinarith))
  have hend := Nat.find_spec hex
  have hpos : Nat.find hex ≠ 0 := by
    intro h0
    rw [h0] at hend
    nlinarith
  have hstart : Nat.find hex * h ≤ 256 * (k * I) + h := by
    obtain ⟨d, hd⟩ := Nat.exists_eq_succ_of_ne_zero hpos
    have hmin := Nat.find_min hex (m := d) (by omega)
    rw [hd, Nat.succ_mul]
    omega
  generalize Nat.find hex = m at *
  have hoff : m * (8192 * h) = 8192 * (m * h) := by ring
  rcases lt_or_ge (m * (8192 * h)) (2 ^ 31) with hnowrap | hwrap
  · obtain ⟨j, hj, hjv⟩ := exists_source_eq emulator hk (v := 65536 * k - 1) (by omega)
    have hhi := (hmem m j hlt hj).2
    rw [int32_natCast hnowrap, hjv] at hhi
    omega
  · have hlo := (hmem m 0 hlt (by omega)).1
    have hneg : int32 ((m * (8192 * h) : ℕ) : ℤ) < 0 := int32_neg (by omega) (by omega)
    rw [source_zero] at hlo
    omega

end Stride

/-! ### The exact condition -/

theorem chwise_stride {h : ℕ} (hh : h < 4096) : uint32 (h * 4096) * 2 = 8192 * h := by
  rw [uint32_of_lt (by omega)]; omega

/-- Off the square shapes, more than one iteration of `W_X_I` does not copy exactly. -/
theorem not_exactCopy_of_iterations {emulator : Bool} {s : PimBShape}
    (hacc : check_chwise_gemm_bo (PimCreateBo s) .W_X_I = true) (hin : 256 ∣ s.w.toNat)
    (hin0 : 0 < s.w.toNat) (hsize : byteSize s < 2 ^ 31) (hsq : s.h ≠ s.w)
    (hiter : 4096 < matrices s * s.h.toNat) :
    ¬ ExactCopy (byteSize s)
      (convert_data_layout_for_chwise_gemm_weight emulator .W_X_I (PimCreateBo s)) := by
  obtain ⟨hlt, I, hI⟩ := (check_chwise_gemm_bo_iff _ _).mp hacc
  obtain ⟨k, hk⟩ := hin
  have hlt : s.h.toNat < 4096 := hlt
  have hI : matrices s * s.h.toNat = 4096 * I := hI
  have htotal : byteSize s = 2 ^ 21 * (k * I) := by
    rw [byteSize, hI, hk]; ring
  have hk0 : 0 < k := by omega
  have hI2 : 2 ≤ I := by omega
  have hkI : k * 2 ≤ k * I := Nat.mul_le_mul_left k hI2
  have hkI' : 1 * I ≤ k * I := Nat.mul_le_mul_right I hk0
  rw [htotal] at hsize ⊢
  rw [convert_chwise_eq .W_X_I (s := s) hk hI (show s.w.toNat < 2 ^ 31 by omega) (by omega),
    chwise_stride hlt, show I * 1 * (2 * k) * 32768 = 65536 * (k * I) by ring]
  rintro ⟨hsrc, -⟩
  rw [List.map_map] at hsrc
  have hne : s.h.toNat ≠ s.w.toNat := fun h => hsq (UInt32.toNat_inj.mp h)
  rcases Nat.lt_or_gt_of_ne hne with hshort | hlong
  · exact not_perm_of_short hk0 hI2 (hk ▸ hshort) (by omega) _ hsrc
  · exact not_perm_of_long hk0 hI2 (hk ▸ hlong) hlt hsize hsrc

/-- One iteration, or a stride of one matrix, copies exactly. -/
theorem exactCopy_of_stride {emulator : Bool} {order : PimGemmOrder} {s : PimBShape}
    (hacc : check_chwise_gemm_bo (PimCreateBo s) order = true) (hin : 256 ∣ inDim s order)
    (hsize : byteSize s < 2 ^ 31)
    (hcond : order = .I_X_W ∨ s.h = s.w ∨ matrices s * outDim s order ≤ 4096 ∨ inDim s order = 0) :
    ExactCopy (byteSize s)
      (convert_data_layout_for_chwise_gemm_weight emulator order (PimCreateBo s)) := by
  obtain ⟨hlt, I, hI⟩ := (check_chwise_gemm_bo_iff _ _).mp hacc
  have hI : matrices s * outDim s order = 4096 * I := hI
  obtain ⟨k, hk⟩ := hin
  have htotal : byteSize s = 2 ^ 21 * (k * (I * 1)) := by
    rw [byteSize_eq s order, hI, hk]; ring
  rcases Nat.eq_zero_or_pos k with rfl | hk0
  · rw [convert_chwise_of_inDim_zero hk, htotal]
    simp [ExactCopy, transactionOffsets]
  rcases Nat.eq_zero_or_pos I with rfl | hI0
  · rw [convert_chwise_of_no_iteration hI, htotal]
    simp [ExactCopy, transactionOffsets]
  rw [htotal] at hsize ⊢
  have hkI : k * 1 ≤ k * (I * 1) := Nat.mul_le_mul_left k (by omega)
  have hkI' : 1 * (I * 1) ≤ k * (I * 1) := Nat.mul_le_mul_right (I * 1) hk0
  rw [convert_chwise_eq _ hk hI (by omega) (by omega),
    show I * 1 * (2 * k) * 32768 = 65536 * (k * (I * 1)) by ring]
  suffices hcopy : ∀ q ∈ List.range (65536 * (k * (I * 1))),
      copyAt emulator k 1 (uint32 (s.h.toNat * 4096) * 2) q = copyAt emulator k 1 (2 ^ 21 * k * 1) q by
    rw [List.map_congr_left hcopy]
    exact exactCopy_copyAt hk0 one_pos hsize
  intro q hq
  have hstep : s.h.toNat = 256 * k → uint32 (s.h.toNat * 4096) * 2 = 2 ^ 21 * k * 1 := by
    intro hh; rw [hh, uint32_of_lt (by omega)]; omega
  have hone : matrices s * outDim s order ≤ 4096 → q < 65536 * k := by
    intro hle
    obtain rfl : I = 1 := by omega
    have := List.mem_range.mp hq
    omega
  rcases hcond with rfl | hsq | hle | h0
  · rw [hstep hk]
  · have hh : s.h.toNat = inDim s order := by cases order <;> simp [inDim, hsq]
    rw [hstep (hh.trans hk)]
  · exact copyAt_stride (hone hle)
  · omega

/-- The channel-wise conversion copies exactly under `I_X_W`, and under `W_X_I` only for square
    matrices or for a single iteration. -/
theorem chwise_conversion_exact_iff (emulator : Bool) (order : PimGemmOrder) (s : PimBShape)
    (hacc : check_chwise_gemm_bo (PimCreateBo s) order = true) (hin : 256 ∣ inDim s order)
    (hsize : byteSize s < 2 ^ 31) :
    ExactCopy (byteSize s)
        (convert_data_layout_for_chwise_gemm_weight emulator order (PimCreateBo s)) ↔
      order = .I_X_W ∨ s.h = s.w ∨ matrices s * outDim s order ≤ 4096 ∨ inDim s order = 0 := by
  refine ⟨fun hexact => ?_, exactCopy_of_stride hacc hin hsize⟩
  by_contra hcond
  simp only [not_or, not_le] at hcond
  obtain ⟨horder, hsq, hiter, hin0⟩ := hcond
  cases order
  · exact not_exactCopy_of_iterations hacc hin (Nat.pos_of_ne_zero hin0) hsize hsq hiter hexact
  · exact horder rfl

theorem chwise_conversion_exact_square :
    ExactCopy (byteSize ⟨32, 1, 256, 256⟩)
        (convert_data_layout_for_chwise_gemm_weight false .W_X_I (PimCreateBo ⟨32, 1, 256, 256⟩)) ↔
      PimGemmOrder.W_X_I = .I_X_W ∨ (256 : UInt32) = 256 ∨
        matrices ⟨32, 1, 256, 256⟩ * outDim ⟨32, 1, 256, 256⟩ .W_X_I ≤ 4096 ∨
        inDim ⟨32, 1, 256, 256⟩ .W_X_I = 0 :=
  chwise_conversion_exact_iff false .W_X_I ⟨32, 1, 256, 256⟩ (by decide) (by decide) (by decide)

/-- An accepted `W_X_I` weight of two iterations: the second reads half of the first one's rows
    again. -/
theorem chwise_conversion_overlaps :
    check_chwise_gemm_bo (PimCreateBo ⟨32, 1, 256, 512⟩) .W_X_I = true ∧
      256 ∣ inDim ⟨32, 1, 256, 512⟩ .W_X_I ∧ byteSize ⟨32, 1, 256, 512⟩ < 2 ^ 31 ∧
      ¬ ExactCopy (byteSize ⟨32, 1, 256, 512⟩)
        (convert_data_layout_for_chwise_gemm_weight false .W_X_I (PimCreateBo ⟨32, 1, 256, 512⟩)) :=
  ⟨by decide, by decide, by decide, not_exactCopy_of_iterations (by decide) (by decide) (by decide)
    (by decide) (by decide) (by decide)⟩

end PimLibrary.Layout
