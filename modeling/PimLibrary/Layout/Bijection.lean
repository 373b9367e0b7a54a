import PimLibrary.Layout.HostSpec

/-! The host conversions move every transaction exactly once.

    Copy number `q` of a conversion writes the transaction whose address digits are the digits of `q`
    in another order, and reads the one whose `[out][in]` digits are. Both maps are mixed-radix
    renumberings, so each is injective into its own range. -/

namespace PimLibrary.Layout
open Schemes.Word Schemes.Loop Schemes.Digits PimLibrary.Device

/-! ### Exact offsets -/

/-- The transaction that copy number `q` writes. -/
def target (q : ℕ) : ℕ :=
  transaction (q / 512 % 64) (q / 128 % 4) (2 * (q / 64 % 2) + q / 32768 % 2)
    (2 * (q / 65536) + q / 32 % 2) (q % 32)

/-- The row, among the eight of a block, that place `i` of the block holds. -/
def rowDigit (emulator : Bool) (i : ℕ) : ℕ := if emulator then i % 8 else i / 8 % 8

/-- The in-group, among the eight of an in-tile, that place `i` of a block holds. -/
def groupDigit (emulator : Bool) (i : ℕ) : ℕ := if emulator then i / 8 % 8 else i % 8

theorem rowDigit_lt (emulator : Bool) (i : ℕ) : rowDigit emulator i < 8 := by
  unfold rowDigit; split_ifs <;> omega

theorem groupDigit_lt (emulator : Bool) (i : ℕ) : groupDigit emulator i < 8 := by
  unfold groupDigit; split_ifs <;> omega

theorem rowDigit_mod (emulator : Bool) (q : ℕ) : rowDigit emulator (q % 64) = rowDigit emulator q := by
  unfold rowDigit; split_ifs <;> omega

theorem groupDigit_mod (emulator : Bool) (q : ℕ) :
    groupDigit emulator (q % 64) = groupDigit emulator q := by
  unfold groupDigit; split_ifs <;> omega

/-- The digits of copy number `q`'s source, low to high: in-group, in-tile, row of the block, block,
    out-tile. -/
def sourceDigits (emulator : Bool) (k q : ℕ) : List ℕ :=
  [groupDigit emulator q, q / 32768 % (2 * k), rowDigit emulator q, q / 64 % 512,
    q / 32768 / (2 * k)]

/-- The transaction that copy number `q` reads: the digits in the order of the `[out][in]` weight. -/
def source (emulator : Bool) (k q : ℕ) : ℕ :=
  mix [8, 2 * k, 8, 512, q / 32768 / (2 * k) + 1] (sourceDigits emulator k q)

theorem place_row {P q : ℕ} (h : 2 * P + 1 < 2 ^ 32) :
    (64 * P + q % 64) / 32 % 2 ^ 32 = 2 * P + q / 32 % 2 := by omega

theorem place_col (P q : ℕ) : (64 * P + q % 64) % 32 = q % 32 := by omega

theorem block_chan (q : ℕ) : q / 64 % 512 / 8 = q / 512 % 64 := by omega

theorem block_bankgroup (q : ℕ) : q / 64 % 512 % 8 / 2 = q / 128 % 4 := by omega

theorem block_bank (q : ℕ) : q / 64 % 512 % 2 = q / 64 % 2 := by omega

/-- With a stride of one matrix and no wrap, the target depends on the copy's number only. -/
theorem copyAt_dst (emulator : Bool) {k Y q : ℕ}
    (hoff : q / 32768 / (2 * k) / Y * (2 ^ 21 * k * Y) < 2 ^ 31) (hrow : 2 * (k * Y) ≤ 2 ^ 32)
    (hk : 0 < k) (hY : 0 < Y) :
    (copyAt emulator k Y (2 ^ 21 * k * Y) q).dst = ((32 * target q : ℕ) : ℤ) := by
  have hdst : (copyAt emulator k Y (2 ^ 21 * k * Y) q).dst =
      int32 ((q / 32768 / (2 * k) / Y * (2 ^ 21 * k * Y) : ℕ) : ℤ) +
        (32 * transaction (q / 64 % 512 / 8) (q / 64 % 512 % 8 / 2)
          (2 * (q / 64 % 512 % 2) + q / 32768 % (2 * k) % 2)
          ((64 * (k * (q / 32768 / (2 * k) % Y)) + 64 * (q / 32768 % (2 * k) / 2) + q % 64) / 32 % 2 ^ 32)
          ((64 * (k * (q / 32768 / (2 * k) % Y)) + 64 * (q / 32768 % (2 * k) / 2) + q % 64) % 32) : ℕ) :=
    rfl
  rw [hdst, int32_natCast hoff, Nat.mod_mul_right_mod, ← Nat.cast_add, Nat.cast_inj]
  -- split the tile number into matrix, out-tile and in-tile
  have hy : q / 32768 / (2 * k) % Y < Y := Nat.mod_lt _ hY
  have hX : q / 32768 % (2 * k) < 2 * k := Nat.mod_lt _ (by omega)
  have hky : k * (q / 32768 / (2 * k) % Y) + k ≤ k * Y :=
    calc k * (q / 32768 / (2 * k) % Y) + k = k * (q / 32768 / (2 * k) % Y + 1) := by ring
      _ ≤ k * Y := Nat.mul_le_mul_left k hy
  have hsplit : q / 32768 = 2 * (k * (q / 32768 / (2 * k) % Y) +
      k * Y * (q / 32768 / (2 * k) / Y)) + q / 32768 % (2 * k) :=
    calc q / 32768 = 2 * k * (q / 32768 / (2 * k)) + q / 32768 % (2 * k) :=
          (Nat.div_add_mod _ _).symm
      _ = 2 * k * (Y * (q / 32768 / (2 * k) / Y) + q / 32768 / (2 * k) % Y) +
          q / 32768 % (2 * k) := by rw [Nat.div_add_mod (q / 32768 / (2 * k)) Y]
      _ = _ := by ring
  have hoff' : q / 32768 / (2 * k) / Y * (2 ^ 21 * k * Y) =
      2 ^ 21 * (k * Y * (q / 32768 / (2 * k) / Y)) := by ring
  rw [hoff']
  generalize k * Y * (q / 32768 / (2 * k) / Y) = K at *
  generalize k * (q / 32768 / (2 * k) % Y) = ky at *
  generalize q / 32768 % (2 * k) = X at *
  have hhalf : q / 65536 = ky + X / 2 + K := by
    rw [show 65536 = 32768 * 2 by norm_num, ← Nat.div_div_eq_div_mul, hsplit]; omega
  rw [← Nat.mul_add, place_row (by omega), place_col, block_chan, block_bankgroup, block_bank,
    target, hhalf]
  simp only [transaction]
  ring

/-- The source index inside one matrix, as a positional value. -/
theorem srcIndex_eq (emulator : Bool) (k y X g q : ℕ) :
    srcIndex emulator ((2 * k * 8 : ℕ) : ℤ) (y * 4096) (X * 8) g (q % 64) =
      ((groupDigit emulator q + 8 * (X + 2 * k * (rowDigit emulator q + 8 * (g + 512 * y))) : ℕ) : ℤ) := by
  have hdiv : q % 64 / 8 = q / 8 % 8 := by omega
  have hmod : q % 64 % 8 = q % 8 := by omega
  cases emulator <;> simp only [srcIndex, groupDigit, rowDigit, hdiv, hmod, if_true, if_false,
    Bool.false_eq_true] <;> push_cast <;> ring

/-- Four digits below their radices stay inside one matrix. -/
theorem srcIndex_lt {k Y y X g r c : ℕ} (hy : y < Y) (hX : X < 2 * k) (hg : g < 512) (hr : r < 8)
    (hc : c < 8) : c + 8 * (X + 2 * k * (r + 8 * (g + 512 * y))) < 2 ^ 16 * (k * Y) := by
  calc c + 8 * (X + 2 * k * (r + 8 * (g + 512 * y)))
      < 8 * (2 * k + 2 * k * (r + 8 * (g + 512 * y))) := by omega
    _ = 8 * (2 * k * (r + 8 * (g + 512 * y) + 1)) := by ring
    _ ≤ 8 * (2 * k * (4096 * Y)) := by gcongr; omega
    _ = 2 ^ 16 * (k * Y) := by ring

/-- Whatever the stride and the size, the source is the matrix offset plus the positional value
    inside one matrix, as an `int`. -/
theorem copyAt_src_wrap {emulator : Bool} {k Y stride q : ℕ} :
    (copyAt emulator k Y stride q).src = int32 ((q / 32768 / (2 * k) / Y * stride : ℕ) : ℤ) +
      int32 ((32 * (groupDigit emulator q + 8 * (q / 32768 % (2 * k) + 2 * k * (rowDigit emulator q +
        8 * (q / 64 % 512 + 512 * (q / 32768 / (2 * k) % Y))))) : ℕ) : ℤ) := by
  have hsrc : (copyAt emulator k Y stride q).src =
      int32 ((q / 32768 / (2 * k) / Y * stride : ℕ) : ℤ) +
        int32 (srcIndex emulator ((2 * k * 8 : ℕ) : ℤ) (q / 32768 / (2 * k) % Y * 4096)
          (q / 32768 % (2 * k) * 8) (q / 64 % 512) (q % 64) * 32) := rfl
  rw [hsrc, srcIndex_eq, show (32 : ℤ) = ((32 : ℕ) : ℤ) from rfl, ← Nat.cast_mul, Nat.mul_comm _ 32]

/-- A matrix below `2^31` bytes wraps nothing. -/
theorem copyAt_src_split {emulator : Bool} {k Y stride q : ℕ} (hmat : 2 ^ 21 * k * Y ≤ 2 ^ 31)
    (hk : 0 < k) (hY : 0 < Y) :
    (copyAt emulator k Y stride q).src = int32 ((q / 32768 / (2 * k) / Y * stride : ℕ) : ℤ) +
      ((32 * (groupDigit emulator q + 8 * (q / 32768 % (2 * k) + 2 * k * (rowDigit emulator q +
        8 * (q / 64 % 512 + 512 * (q / 32768 / (2 * k) % Y))))) : ℕ) : ℤ) := by
  have hlt := srcIndex_lt (Nat.mod_lt (q / 32768 / (2 * k)) hY)
    (Nat.mod_lt (q / 32768) (show 0 < 2 * k by omega)) (Nat.mod_lt (q / 64) (show 0 < 512 by omega))
    (rowDigit_lt emulator q) (groupDigit_lt emulator q)
  have hbound : 32 * (2 ^ 16 * (k * Y)) ≤ 2 ^ 31 := by
    calc 32 * (2 ^ 16 * (k * Y)) = 2 ^ 21 * k * Y := by ring
      _ ≤ 2 ^ 31 := hmat
  rw [copyAt_src_wrap, int32_natCast (lt_of_lt_of_le ((Nat.mul_lt_mul_left (by norm_num)).mpr hlt) hbound)]

/-- With a stride of one matrix and no wrap, the source is the positional value of its digits. -/
theorem copyAt_src (emulator : Bool) {k Y q : ℕ}
    (hoff : q / 32768 / (2 * k) / Y * (2 ^ 21 * k * Y) < 2 ^ 31) (hmat : 2 ^ 21 * k * Y ≤ 2 ^ 31)
    (hk : 0 < k) (hY : 0 < Y) :
    (copyAt emulator k Y (2 ^ 21 * k * Y) q).src = ((32 * source emulator k q : ℕ) : ℤ) := by
  have hy : q / 32768 / (2 * k) = Y * (q / 32768 / (2 * k) / Y) + q / 32768 / (2 * k) % Y :=
    (Nat.div_add_mod _ _).symm
  rw [copyAt_src_split hmat hk hY, int32_natCast hoff, ← Nat.cast_add, Nat.cast_inj, source,
    sourceDigits]
  generalize q / 32768 / (2 * k) / Y = m at *
  generalize q / 32768 / (2 * k) % Y = y at *
  simp only [mix, hy]
  ring

/-! ### Renumberings -/

theorem target_lt {N q : ℕ} (hq : q < 65536 * N) : target q < 65536 * N := by
  have h := transaction_lt (q / 512 % 64) (2 * (q / 64 % 2) + q / 32768 % 2)
    (q % 32) (Nat.mod_lt (q / 128) (show 0 < 4 by omega))
    (show 2 * (q / 65536) + q / 32 % 2 < 2 * N by omega)
  rw [target]; omega

/-- A copy number is the positional value of the loop counters. -/
theorem copy_digits (q : ℕ) : q % 32 + 32 * (q / 32 % 2) + 64 * (q / 64 % 2) + 128 * (q / 128 % 4)
    + 512 * (q / 512 % 64) + 32768 * (q / 32768 % 2) + 65536 * (q / 65536) = q := by omega

theorem two_mul_add_inj {a b a' b' : ℕ} (hb : b < 2) (hb' : b' < 2) (h : 2 * a + b = 2 * a' + b') :
    a = a' ∧ b = b' := by
  omega

theorem target_inj {q q' : ℕ} (h : target q = target q') : q = q' := by
  obtain ⟨hc, hg, hb, hr, hk⟩ := transaction_inj (by omega) (by omega) (by omega) (by omega) (by omega)
    (by omega) (by omega) (by omega) h
  obtain ⟨hbank, hparity⟩ := two_mul_add_inj (Nat.mod_lt _ two_pos) (Nat.mod_lt _ two_pos) hb
  obtain ⟨hrow, hupper⟩ := two_mul_add_inj (Nat.mod_lt _ two_pos) (Nat.mod_lt _ two_pos) hr
  rw [← copy_digits q, ← copy_digits q', hc, hg, hbank, hparity, hrow, hupper, hk]

/-- The targets of the first `65536 * N` copies are the first `65536 * N` transactions. -/
theorem map_target_perm (N : ℕ) :
    ((List.range (65536 * N)).map target).Perm (List.range (65536 * N)) :=
  map_perm_range (fun _ hq => target_lt hq) fun _ _ _ _ h => target_inj h

theorem sourceDigits_inRange (emulator : Bool) {k q N : ℕ} (hk : 0 < k) (hq : q < 65536 * (k * N)) :
    InRange [8, 2 * k, 8, 512, N] (sourceDigits emulator k q) := by
  have hT : q / 32768 / (2 * k) < N := by
    rw [Nat.div_div_eq_div_mul]
    exact Nat.div_lt_of_lt_mul (by calc q < 65536 * (k * N) := hq
      _ = 32768 * (2 * k) * N := by ring)
  exact .cons (groupDigit_lt _ _) (.cons (Nat.mod_lt _ (by omega)) (.cons (rowDigit_lt _ _)
    (.cons (Nat.mod_lt _ (by omega)) (.cons hT .nil))))

theorem sourceDigits_inj {emulator : Bool} {k q q' : ℕ}
    (h : sourceDigits emulator k q = sourceDigits emulator k q') : q = q' := by
  simp only [sourceDigits, List.cons.injEq, and_true] at h
  obtain ⟨hc, hX, hr, hg, hT⟩ := h
  have hTq : q / 32768 = q' / 32768 := by
    rw [← Nat.div_add_mod (q / 32768) (2 * k), ← Nat.div_add_mod (q' / 32768) (2 * k), hX, hT]
  have hlow : q % 8 = q' % 8 ∧ q / 8 % 8 = q' / 8 % 8 := by
    unfold groupDigit at hc
    unfold rowDigit at hr
    split_ifs at hc hr
    · exact ⟨hr, hc⟩
    · exact ⟨hc, hr⟩
  have hdigits (n : ℕ) : n % 8 + 8 * (n / 8 % 8) + 64 * (n / 64 % 512) + 32768 * (n / 32768) =
    n := by omega
  rw [← hdigits q, ← hdigits q', hlow.1, hlow.2, hg, hTq]

/-- The top radix of a positional value is never read. -/
theorem source_eq_mix (emulator : Bool) (k q N : ℕ) :
    source emulator k q = mix [8, 2 * k, 8, 512, N] (sourceDigits emulator k q) := by
  simp only [source, sourceDigits, mix, Nat.mul_zero]

/-- The sources of the first `65536 * k * N` copies are the first `65536 * k * N` transactions. -/
theorem map_source_perm (emulator : Bool) {k : ℕ} (hk : 0 < k) (N : ℕ) :
    ((List.range (65536 * (k * N))).map (source emulator k)).Perm (List.range (65536 * (k * N))) := by
  refine map_perm_range (fun q hq => ?_) fun q hq q' hq' h => ?_
  · have h := mix_lt (sourceDigits_inRange emulator hk hq)
    rw [← source_eq_mix] at h
    simp only [List.prod_cons, List.prod_nil] at h
    calc source emulator k q < 8 * (2 * k * (8 * (512 * (N * 1)))) := h
      _ = 65536 * (k * N) := by ring
  · rw [source_eq_mix _ _ _ N, source_eq_mix _ _ _ N] at h
    exact sourceDigits_inj
      (mix_inj (sourceDigits_inRange _ hk hq) (sourceDigits_inRange _ hk hq') h)

/-! ### The conversions as one loop -/

/-- The byte count of a positive number of matrices bounds the size of each of them. -/
theorem matrix_le_byteSize {s : PimBShape} (order : PimGemmOrder) (hm : 0 < matrices s) :
    outDim s order * inDim s order * 2 ≤ byteSize s := by
  rw [byteSize_eq s order, Nat.mul_assoc (matrices s), Nat.mul_assoc (matrices s)]
  exact Nat.le_mul_of_pos_left _ hm

theorem in_cnt_eq {x : UInt32} {k : ℕ} (hk : x.toNat = 256 * k) (hlt : x.toNat < 2 ^ 31) :
    int32 (x * 2 / 32).toNat = ((2 * k * 8 : ℕ) : ℤ) := by
  have hval : (x * 2 / 32).toNat = 2 * k * 8 := by
    simp only [UInt32.toNat_div, UInt32.toNat_mul, UInt32.toNat_ofNat, Nat.reduceMod, Nat.reducePow]
    omega
  rw [hval, int32_natCast (by omega)]

theorem convert_aligned_eq {emulator : Bool} {order : PimGemmOrder} {s : PimBShape} {k Y : ℕ}
    (hin : inDim s order = 256 * k) (hout : (outDim s order + 4095) / 4096 = Y)
      (hm : matrices s < 2 ^ 31)
    (hin' : inDim s order < 2 ^ 31) (hout' : outDim s order < 2 ^ 31) :
    convert_data_layout_for_aligned_gemm_weight emulator order (PimCreateBo s) =
      .ok ((List.range (matrices s * Y * (2 * k) * 32768)).map
        (copyAt emulator k Y (uint32 (s.h.toNat * s.w.toNat) * 2))) := by
  have hiter : int32 (s.n * s.c).toNat = ((matrices s : ℕ) : ℤ) := by
    rw [UInt32.toNat_mul, Nat.mod_eq_of_lt (by rw [← matrices]; omega), ← matrices, int32_natCast hm]
  have hstride : (s.h * s.w).toNat * 2 = uint32 (s.h.toNat * s.w.toNat) * 2 := by
    rw [UInt32.toNat_mul, uint32]
  have hout_cnt : forRange (int32 (outDim s order)) out_tile_size =
      forRange ((Y * 4096 : ℕ) : ℤ) out_tile_size := by
    have htile : out_tile_size = 4096 := rfl
    have hceil : (outDim s order - 0 + 4096 - 1) / 4096 = (Y * 4096 - 0 + 4096 - 1) / 4096 := by omega
    simp only [int32_natCast hout', htile, forRange, forFrom, Int.toNat_natCast, hceil]
  cases order <;> simp only [inDim, outDim] at hin hin' hout_cnt <;>
  · simp only [convert_data_layout_for_aligned_gemm_weight, PimCreateBo, type_size, hiter, hstride,
      hout_cnt, in_cnt_eq hin hin', iter_loop_spec, y_loop_spec, matrices_flatten]
    simp

theorem convert_chwise_eq {emulator : Bool} (order : PimGemmOrder) {s : PimBShape} {k I : ℕ}
    (hin : inDim s order = 256 * k) (hI : matrices s * outDim s order = 4096 * I)
    (hin' : inDim s order < 2 ^ 31) (hI' : 4096 * I < 2 ^ 32) :
    convert_data_layout_for_chwise_gemm_weight emulator order (PimCreateBo s) =
      (List.range (I * 1 * (2 * k) * 32768)).map
        (copyAt emulator k 1 (uint32 (s.h.toNat * 4096) * 2)) := by
  have hiter : ∀ x : UInt32, matrices s * x.toNat = 4096 * I →
      int32 (s.n * s.c * x / 4096).toNat = ((I : ℕ) : ℤ) := by
    intro x hx
    have hval : (s.n * s.c * x / 4096).toNat = I := by
      simp only [UInt32.toNat_div, UInt32.toNat_mul, UInt32.toNat_ofNat, Nat.mod_mul_mod]
      rw [← matrices, hx]
      norm_num only
      omega
    rw [hval, int32_natCast (by omega)]
  have hstride : (s.h * 4096).toNat * 2 = uint32 (s.h.toNat * 4096) * 2 := by
    rw [UInt32.toNat_mul, uint32]; rfl
  have hx : ∀ data_offset, (x_loop emulator data_offset ((2 * k * 8 : ℕ) : ℤ) {} 0).2 =
      (List.range 1).flatMap fun y => (List.range (2 * k)).flatMap fun X =>
        (List.range 512).flatMap fun g => (List.range 64).map
          (placed emulator data_offset ((2 * k * 8 : ℕ) : ℤ) (y * 4096) (X * 8) (X % 2)
            (64 * (k * y) + 64 * (X / 2)) g) := by
    intro data_offset
    rw [← y_loop_spec, show ((1 * 4096 : ℕ) : ℤ) = ((out_tile_size : ℕ) : ℤ) from rfl]
    simp [forRange, forFrom, out_tile_size, vega20_pbi, runLoop]
  cases order <;> simp only [inDim, outDim] at hin hin' hI <;>
    simp only [convert_data_layout_for_chwise_gemm_weight, chwise_counts, PimCreateBo, type_size,
      hiter _ hI, hstride, in_cnt_eq hin hin', iter_loop_spec, hx, matrices_flatten]

/-! ### Every transaction moves exactly once -/

/-- The offsets of the transactions of a buffer of `total` bytes. -/
def transactionOffsets (total : ℕ) : List ℤ := (List.range (total / 32)).map fun q => ((32 * q : ℕ) : ℤ)

theorem nodup_transactionOffsets (total : ℕ) : (transactionOffsets total).Nodup := by
  refine List.nodup_range.map fun a b hab => ?_
  have : 32 * a = 32 * b := by exact_mod_cast hab
  omega

/-- Every transaction is read exactly once, and every transaction is written exactly once. -/
def ExactCopy (total : ℕ) (copies : List Copy) : Prop :=
  (copies.map Copy.src).Perm (transactionOffsets total) ∧
    (copies.map Copy.dst).Perm (transactionOffsets total)

/-- Within the size limit nothing wraps. -/
theorem copyAt_eq {emulator : Bool} {k Y q : ℕ} (N : ℕ) (hk : 0 < k) (hY : 0 < Y)
    (hsize : 2 ^ 21 * (k * (N * Y)) < 2 ^ 31) (hq : q < 65536 * (k * (N * Y))) :
    (copyAt emulator k Y (2 ^ 21 * k * Y) q).src = ((32 * source emulator k q : ℕ) : ℤ) ∧
      (copyAt emulator k Y (2 ^ 21 * k * Y) q).dst = ((32 * target q : ℕ) : ℤ) := by
  have hm : q / 32768 / (2 * k) / Y < N := by
    rw [Nat.div_div_eq_div_mul, Nat.div_div_eq_div_mul]
    exact Nat.div_lt_of_lt_mul (lt_of_lt_of_eq hq (by ring))
  have hN : 0 < N := lt_of_le_of_lt (Nat.zero_le _) hm
  have hone : 2 ^ 21 * k * Y ≤ 2 ^ 21 * (k * (N * Y)) :=
    calc 2 ^ 21 * k * Y = 2 ^ 21 * (k * (1 * Y)) := by ring
      _ ≤ 2 ^ 21 * (k * (N * Y)) := by gcongr; omega
  have hoff : q / 32768 / (2 * k) / Y * (2 ^ 21 * k * Y) < 2 ^ 31 :=
    calc q / 32768 / (2 * k) / Y * (2 ^ 21 * k * Y) ≤ N * (2 ^ 21 * k * Y) := by gcongr
      _ = 2 ^ 21 * (k * (N * Y)) := by ring
      _ < 2 ^ 31 := hsize
  have hrow : 2 * (k * Y) ≤ 2 ^ 32 := by
    have h : 2 ^ 21 * k * Y = 2 ^ 21 * (k * Y) := by ring
    omega
  exact ⟨copyAt_src _ hoff (by omega) hk hY, copyAt_dst _ hoff hrow hk hY⟩

/-- Within the size limit, a conversion that steps by one matrix copies exactly. -/
theorem exactCopy_copyAt {emulator : Bool} {k Y N : ℕ} (hk : 0 < k) (hY : 0 < Y)
    (hsize : 2 ^ 21 * (k * (N * Y)) < 2 ^ 31) :
    ExactCopy (2 ^ 21 * (k * (N * Y)))
      ((List.range (65536 * (k * (N * Y)))).map (copyAt emulator k Y (2 ^ 21 * k * Y))) := by
  have htot : 2 ^ 21 * (k * (N * Y)) / 32 = 65536 * (k * (N * Y)) := by omega
  have hcopy : ∀ q ∈ List.range (65536 * (k * (N * Y))),
      (copyAt emulator k Y (2 ^ 21 * k * Y) q).src = ((32 * source emulator k q : ℕ) : ℤ) ∧
      (copyAt emulator k Y (2 ^ 21 * k * Y) q).dst = ((32 * target q : ℕ) : ℤ) :=
    fun q hq => copyAt_eq N hk hY hsize (List.mem_range.mp hq)
  rw [ExactCopy, transactionOffsets, htot, List.map_map, List.map_map]
  simp only [Function.comp_def]
  constructor
  · rw [List.map_congr_left fun q hq => (hcopy q hq).1]
    simpa only [List.map_map, Function.comp_def] using
      (map_source_perm emulator hk (N * Y)).map fun q => ((32 * q : ℕ) : ℤ)
  · rw [List.map_congr_left fun q hq => (hcopy q hq).2]
    simpa only [List.map_map, Function.comp_def] using
      (map_target_perm (k * (N * Y))).map fun q => ((32 * q : ℕ) : ℤ)

/-- Within the size limit, the aligned conversion steps by one matrix. -/
theorem convert_aligned_ok (emulator : Bool) (order : PimGemmOrder) {s : PimBShape} {k Y : ℕ}
    (hm : 0 < matrices s) (hk : inDim s order = 256 * k) (hk0 : 0 < k) (hY : outDim s order = 4096 * Y)
    (hY0 : 0 < Y) (hsize : byteSize s < 2 ^ 31) :
    byteSize s = 2 ^ 21 * (k * (matrices s * Y)) ∧
      convert_data_layout_for_aligned_gemm_weight emulator order (PimCreateBo s) =
        .ok ((List.range (65536 * (k * (matrices s * Y)))).map (copyAt emulator k Y (2 ^ 21 * k * Y))) := by
  have hmat : outDim s order * inDim s order * 2 ≤ byteSize s := matrix_le_byteSize order hm
  have hin_lt : inDim s order < 2 ^ 31 := by nlinarith
  have hout_lt : outDim s order < 2 ^ 31 := by nlinarith
  have hprod : s.h.toNat * s.w.toNat = outDim s order * inDim s order := by
    cases order <;> simp only [inDim, outDim]
    ring
  have htotal : byteSize s = 2 ^ 21 * (k * (matrices s * Y)) := by
    rw [byteSize_eq s order, hk, hY]; ring
  have hm_lt : matrices s < 2 ^ 31 := by
    have : 1 * (matrices s * 1) ≤ k * (matrices s * Y) := by gcongr <;> omega
    omega
  have hstride : uint32 (s.h.toNat * s.w.toNat) * 2 = 2 ^ 21 * k * Y := by
    rw [uint32_of_lt (by omega), hprod, hk, hY]; ring
  refine ⟨htotal, ?_⟩
  rw [convert_aligned_eq (Y := Y) hk (by omega) hm_lt hin_lt hout_lt, hstride,
    show matrices s * Y * (2 * k) * 32768 = 65536 * (k * (matrices s * Y)) by ring]

/-- The aligned conversion loses, overwrites and misplaces nothing, in both orders and both builds. -/
theorem aligned_conversion_exact (emulator : Bool) (order : PimGemmOrder) (s : PimBShape)
    (hn : 1 ≤ s.n.toNat) (hc : 1 ≤ s.c.toNat) (hin : 256 ∣ inDim s order) (hin0 : 0 < inDim s order)
    (hout : 4096 ∣ outDim s order) (hout0 : 0 < outDim s order) (hsize : byteSize s < 2 ^ 31) :
    ∃ copies, convert_data_layout_for_aligned_gemm_weight emulator order (PimCreateBo s) = .ok copies ∧
      ExactCopy (byteSize s) copies := by
  obtain ⟨k, hk⟩ := hin
  obtain ⟨Y, hY⟩ := hout
  obtain ⟨htotal, hok⟩ := convert_aligned_ok emulator _ (Nat.mul_pos hn hc) hk (by omega) hY
    (by omega) hsize
  refine ⟨_, hok, ?_⟩
  rw [htotal]
  exact exactCopy_copyAt (by omega) (by omega) (htotal ▸ hsize)

theorem aligned_conversion_exact_smallest :
    ∃ copies, convert_data_layout_for_aligned_gemm_weight false .I_X_W
        (PimCreateBo ⟨1, 1, 256, 4096⟩) = .ok copies ∧ ExactCopy (byteSize ⟨1, 1, 256, 4096⟩) copies :=
  aligned_conversion_exact false .I_X_W ⟨1, 1, 256, 4096⟩ (by decide) (by decide) (by decide)
    (by decide) (by decide) (by decide) (by decide)

end PimLibrary.Layout
