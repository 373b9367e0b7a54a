import PimLibrary.Layout.DeviceIndex
import PimLibrary.Layout.SizedWeight

/-! When the device kernels leave the buffer the host pipeline does.

    Both sides issue writes that are functional in their addresses, so it is enough that they issue the
    same ones: for every element of the weight the write that carries it. -/

namespace PimLibrary.Layout
open Schemes.Word Schemes.Loop Schemes.Digits Schemes.Scatter PimLibrary.Device

/-- A weight of `I` whole tiles of `2k` in-tiles each, within the size limit. -/
structure TiledWeight (s : PimBShape) (k I : ℕ) : Prop where
  h_eq : s.h.toNat = 256 * k
  rows_eq : matrices s * s.w.toNat = 4096 * I
  k_pos : 0 < k
  I_pos : 0 < I
  size_lt : 2 ^ 21 * (k * I) < 2 ^ 31

namespace TiledWeight

variable {s : PimBShape} {k I : ℕ} (hs : TiledWeight s k I)
include hs

theorem byteSize_eq : byteSize s = 2 ^ 21 * (k * I) := by
  calc byteSize s = matrices s * s.w.toNat * s.h.toNat * 2 := by rw [byteSize]; ring
    _ = 2 ^ 21 * (k * I) := by rw [hs.rows_eq, hs.h_eq]; ring

theorem k_lt : k < 2 ^ 10 := by
  have h : k * 1 ≤ k * I := Nat.mul_le_mul_left k hs.I_pos
  have := hs.size_lt
  omega

theorem I_lt : I < 2 ^ 10 := by
  have h : 1 * I ≤ k * I := Nat.mul_le_mul_right I hs.k_pos
  have := hs.size_lt
  omega

theorem sized : SizedWeight s := by
  have hpos : 0 < k * I := Nat.mul_pos hs.k_pos hs.I_pos
  exact ⟨by rw [hs.byteSize_eq]; omega, hs.byteSize_eq ▸ hs.size_lt⟩

/-- A weight row number is below the row count. -/
theorem row_lt {m l : ℕ} (hm : m < matrices s) (hl : l < s.w.toNat) : m * s.w.toNat + l < 4096 * I := by
  calc m * s.w.toNat + l < (m + 1) * s.w.toNat := by rw [Nat.succ_mul]; omega
    _ ≤ matrices s * s.w.toNat := Nat.mul_le_mul_right _ hm
    _ = 4096 * I := hs.rows_eq

/-- Element offsets of the weight fit an `int`. -/
theorem elem_lt {R a : ℕ} (hR : R < 4096 * I) (ha : a < s.h.toNat) :
    R * s.h.toNat + a < 2 ^ 20 * (k * I) := by
  rw [hs.h_eq] at ha ⊢
  calc R * (256 * k) + a < (R + 1) * (256 * k) := by rw [Nat.add_mul R 1]; omega
    _ ≤ 4096 * I * (256 * k) := Nat.mul_le_mul_right _ hR
    _ = 2 ^ 20 * (k * I) := by ring

end TiledWeight

section Pipeline

variable {s : PimBShape} {k I : ℕ} (hs : TiledWeight s k I) {data : Mem}
include hs

omit hs in
/-- A copy list with the given closed form writes sixteen elements of each transaction. -/
theorem mem_copies {copy : ℕ → Copy} {emulator : Bool} {Q : ℕ} {T : Mem} {w : ℤ × Half}
    (hcopy : ∀ q, q < Q → (copy q).src = ((32 * source emulator k q : ℕ) : ℤ) ∧
      (copy q).dst = ((32 * target q : ℕ) : ℤ)) :
    w ∈ ((List.range Q).map copy).flatMap (copy_halves T) ↔ ∃ q e, q < Q ∧ e < 16 ∧
      w = (((16 * target q + e : ℕ) : ℤ), T ((16 * source emulator k q + e : ℕ) : ℤ)) := by
  have hhalf : ∀ q e : ℕ, ((32 * q : ℕ) : ℤ) / 2 + (e : ℤ) = ((16 * q + e : ℕ) : ℤ) := by
    intro q e; omega
  simp only [List.mem_flatMap, List.mem_map, List.mem_range, copy_halves]
  constructor
  · rintro ⟨_, ⟨q, hq, rfl⟩, e, he, rfl⟩
    obtain ⟨hsrc, hdst⟩ := hcopy q hq
    exact ⟨q, e, hq, he, by rw [hsrc, hdst, hhalf, hhalf]⟩
  · rintro ⟨q, e, hq, he, rfl⟩
    obtain ⟨hsrc, hdst⟩ := hcopy q hq
    exact ⟨_, ⟨q, hq, rfl⟩, e, he, by rw [hsrc, hdst, hhalf, hhalf]⟩

theorem copyOf_lt {emulator : Bool} {R a : ℕ} (hR : R < 4096 * I) (ha : a < s.h.toNat) :
    copyOf emulator k R a < 65536 * (k * I) := by
  rw [hs.h_eq] at ha
  obtain ⟨hlt, -, -, hadd⟩ := copyOf_first emulator (R := R) ha
  rw [← hadd]
  calc copyOf emulator k (R % 4096) a + 65536 * (k * (R / 4096))
      < 65536 * (k * (R / 4096 + 1)) := by rw [Nat.mul_add k]; omega
    _ ≤ 65536 * (k * I) := by gcongr; omega

/-- Every place of the transposed weight is an element of some matrix. -/
theorem exists_element {x : ℕ} (hx : x < 2 ^ 20 * (k * I)) :
    ∃ i j a l, i < s.n.toNat ∧ j < s.c.toNat ∧ a < s.h.toNat ∧ l < s.w.toNat ∧
      x = ((i * s.c.toNat + j) * s.w.toNat + l) * s.h.toNat + a := by
  have hh : 0 < s.h.toNat := by have := hs.h_eq; have := hs.k_pos; omega
  have hrows : x / s.h.toNat < matrices s * s.w.toNat := by
    rw [hs.rows_eq, hs.h_eq]
    exact Nat.div_lt_of_lt_mul (by calc x < 2 ^ 20 * (k * I) := hx
      _ = 256 * k * (4096 * I) := by ring)
  have hm : x / s.h.toNat / s.w.toNat < s.n.toNat * s.c.toNat :=
    Nat.div_lt_of_lt_mul (by rw [Nat.mul_comm]; exact hrows)
  refine ⟨x / s.h.toNat / s.w.toNat / s.c.toNat, x / s.h.toNat / s.w.toNat % s.c.toNat, x % s.h.toNat,
    x / s.h.toNat % s.w.toNat, Nat.div_lt_of_lt_mul (by rw [Nat.mul_comm]; exact hm),
    Nat.mod_lt _ hs.sized.c_pos, Nat.mod_lt _ hh, Nat.mod_lt _ hs.sized.w_pos, ?_⟩
  rw [Nat.div_add_mod', Nat.div_add_mod', Nat.div_add_mod']

theorem source_elem_lt (emulator : Bool) {q e : ℕ} (hq : q < 65536 * (k * I)) (he : e < 16) :
    16 * source emulator k q + e < 2 ^ 20 * (k * I) := by
  have hsource := mix_lt (sourceDigits_inRange emulator hs.k_pos hq)
  rw [← source_eq_mix] at hsource
  simp only [List.prod_cons, List.prod_nil] at hsource
  have : 8 * (2 * k * (8 * (512 * (I * 1)))) = 65536 * (k * I) := by ring
  omega

/-- An index formula that follows the host copies leaves the buffer the host leaves. -/
theorem sameBuffer_of_index (emulator : Bool) {copy : ℕ → Copy} {threads : Dim3} (hx : 0 < threads.x)
    (hy : 0 < threads.y) {idx : ℕ → ℕ → ℕ → ℕ → ℕ → ℕ → ℕ → ℕ → ℕ}
    (hcopy : ∀ q, q < 65536 * (k * I) → (copy q).src = ((32 * source emulator k q : ℕ) : ℤ) ∧
      (copy q).dst = ((32 * target q : ℕ) : ℤ))
    (hidx : ∀ i j a l, i < s.n.toNat → j < s.c.toNat → a < s.h.toNat → l < s.w.toNat →
      idx s.n.toNat s.c.toNat s.h.toNat s.w.toNat i j a l =
        16 * target (copyOf emulator k ((i * s.c.toNat + j) * s.w.toNat + l) a) + a % 16) :
    SameBuffer ((List.range (65536 * (k * I))).map copy)
      (launch threads (fill_gemm_weight idx) (PimCreateBo s))
      (PimCreateBo s) := by
  intro data dst host_weight host_reordered_weight schedule hperm e he
  have hrow : ∀ i j l, i < s.n.toNat → j < s.c.toNat → l < s.w.toNat →
      i * s.c.toNat + j < matrices s ∧ (i * s.c.toNat + j) * s.w.toNat + l < 4096 * I := by
    intro i j l hi hj hl
    exact ⟨matrix_index_lt hi hj, hs.row_lt (matrix_index_lt hi hj) hl⟩
  refine scatter_congr ?_ ?_ ?_
  · intro w
    rw [hperm.mem_iff, mem_launch hs.sized hx hy, mem_copies hcopy]
    constructor
    · rintro ⟨i, j, a, l, hi, hj, ha, hl, rfl⟩
      obtain ⟨hm, hR⟩ := hrow i j l hi hj hl
      refine ⟨copyOf emulator k ((i * s.c.toNat + j) * s.w.toNat + l) a, a % 16, copyOf_lt hs hR ha,
        Nat.mod_lt _ (by norm_num), ?_⟩
      rw [hidx i j a l hi hj ha hl, source_copyOf _ (hs.h_eq ▸ ha), ← hs.h_eq,
        scatter_transpose hs.sized hm ha hl]
    · rintro ⟨q, e', hq, he', rfl⟩
      obtain ⟨i, j, a, l, hi, hj, ha, hl, hxeq⟩ := exists_element hs
        (source_elem_lt hs emulator hq he')
      obtain ⟨hm, hR⟩ := hrow i j l hi hj hl
      have hcarry := source_copyOf emulator (R := (i * s.c.toNat + j) * s.w.toNat + l)
        (hs.h_eq ▸ ha)
      rw [← hs.h_eq, ← hxeq] at hcarry
      have hqeq : copyOf emulator k ((i * s.c.toNat + j) * s.w.toNat + l) a = q :=
        source_inj emulator hs.k_pos (by omega)
      rw [hqeq] at hcarry
      have helem : a % 16 = e' := by omega
      refine ⟨i, j, a, l, hi, hj, ha, hl, ?_⟩
      rw [hidx i j a l hi hj ha hl, hqeq, hxeq, scatter_transpose hs.sized hm ha hl,
        helem]
  · intro w hw w' hw' haddr
    obtain ⟨q, e', hq, he', rfl⟩ := (mem_copies hcopy).mp hw
    obtain ⟨q', e'', hq', he'', rfl⟩ := (mem_copies hcopy).mp hw'
    have haddr : 16 * target q + e' = 16 * target q' + e'' := Nat.cast_inj.mp haddr
    obtain rfl : q = q' := target_inj (by omega)
    obtain rfl : e' = e'' := by omega
    rfl
  · have hlt : e / 16 < 65536 * (k * I) := by
      have hbyte : byteSize (PimCreateBo s).bshape = 2 ^ 21 * (k * I) := hs.byteSize_eq
      omega
    obtain ⟨q, hq, hqe⟩ := List.mem_map.mp
      ((map_target_perm (k * I)).mem_iff.mpr (List.mem_range.mpr hlt))
    refine ⟨_, (mem_copies hcopy).mpr ⟨q, e % 16, List.mem_range.mp hq, by omega, rfl⟩, ?_⟩
    rw [hqe]
    exact congrArg Nat.cast (Nat.div_add_mod e 16)

end Pipeline

/-! ### The channel-wise kernel -/

/-- The device reorders an accepted weight as the host does. -/
theorem sameBuffer_chwise {emulator : Bool} {s : PimBShape} {k I : ℕ} (hs : TiledWeight s k I) :
    SameBuffer (convert_data_layout_for_chwise_gemm_weight emulator .I_X_W (PimCreateBo s))
      (launch_chwise emulator (PimCreateBo s)) (PimCreateBo s) := by
  have hk := hs.h_eq
  have hk' := hs.k_lt
  have hI' := hs.I_lt
  have hstride : uint32 (s.h.toNat * 4096) * 2 = 2 ^ 21 * k * 1 := by
    rw [hk, uint32_of_lt (by omega)]; omega
  rw [convert_chwise_eq .I_X_W hk hs.rows_eq (show s.h.toNat < 2 ^ 31 by omega) (by omega), hstride,
    show I * 1 * (2 * k) * 32768 = 65536 * (k * I) by ring]
  refine sameBuffer_of_index hs emulator (by norm_num) (by norm_num) (fun q hq => ?_) fun i j a l hi
    hj ha hl => ?_
  · exact copyAt_eq I hs.k_pos one_pos (by rw [Nat.mul_one]; exact hs.size_lt)
      (by rw [Nat.mul_one]; exact hq)
  · have hR := hs.row_lt (matrix_index_lt hi hj) hl
    have hC : k * (((i * s.c.toNat + j) * s.w.toNat + l) / 4096) < 2 ^ 10 := by
      have hle : k * (((i * s.c.toNat + j) * s.w.toNat + l) / 4096) ≤ k * I := by gcongr; omega
      have := hs.size_lt
      omega
    rw [hk]
    exact idx_chwise_eq (hk ▸ ha) hk' (by omega) hC

/-- An accepted weight is whole tiles, or has no elements. -/
theorem tiledWeight_of_accepted {s : PimBShape}
    (hacc : check_chwise_gemm_bo (PimCreateBo s) .I_X_W = true)
    (hh : 256 ∣ s.h.toNat) (hsize : byteSize s < 2 ^ 31) : byteSize s = 0 ∨
      ∃ k I, TiledWeight s k I := by
  obtain ⟨-, I, hI⟩ := (check_chwise_gemm_bo_iff _ _).mp hacc
  obtain ⟨k, hk⟩ := hh
  have hI : matrices s * s.w.toNat = 4096 * I := hI
  have htotal : byteSize s = 2 ^ 21 * (k * I) := by
    calc byteSize s = matrices s * s.w.toNat * s.h.toNat * 2 := by rw [byteSize]; ring
      _ = 2 ^ 21 * (k * I) := by rw [hI, hk]; ring
  rcases Nat.eq_zero_or_pos (k * I) with h0 | hpos
  · left; rw [htotal, h0, Nat.mul_zero]
  · exact Or.inr ⟨k, I, hk, hI, Nat.pos_of_mul_pos_right hpos, Nat.pos_of_mul_pos_left hpos,
      htotal ▸ hsize⟩

/-- In both builds, whatever the shape of an accepted weight. -/
theorem chwise_device_agrees (emulator : Bool) (s : PimBShape)
    (hacc : check_chwise_gemm_bo (PimCreateBo s) .I_X_W = true) (hh : 256 ∣ s.h.toNat)
    (hsize : byteSize s < 2 ^ 31) :
    SameBuffer (convert_data_layout_for_chwise_gemm_weight emulator .I_X_W (PimCreateBo s))
      (launch_chwise emulator (PimCreateBo s)) (PimCreateBo s) := by
  rcases tiledWeight_of_accepted hacc hh hsize with h0 | ⟨k, I, hs⟩
  · intro _ _ _ _ _ _ e he
    have hbyte : byteSize (PimCreateBo s).bshape = 0 := h0
    omega
  · exact sameBuffer_chwise hs

theorem chwise_device_agrees_half :
    SameBuffer (convert_data_layout_for_chwise_gemm_weight false .I_X_W (PimCreateBo ⟨2, 1, 256, 2048⟩))
      (launch_chwise false (PimCreateBo ⟨2, 1, 256, 2048⟩))
      (PimCreateBo ⟨2, 1, 256, 2048⟩) :=
  chwise_device_agrees false ⟨2, 1, 256, 2048⟩ (by decide) (by decide) (by decide)

/-! ### The aligned kernel -/

/-- The aligned conversion succeeds and the aligned kernel agrees with it. -/
def AlignedAgree (emulator : Bool) (s : PimBShape) : Prop :=
  ∃ copies, convert_data_layout_for_aligned_gemm_weight emulator .I_X_W (PimCreateBo s) = .ok copies ∧
    SameBuffer copies (launch_aligned emulator (PimCreateBo s)) (PimCreateBo s)

/-- With a single out-tile the wrong tile factor is multiplied by zero. -/
theorem alignedAgree_of_single (emulator : Bool) {s : PimBShape} {k : ℕ} (hm : 0 < matrices s)
    (hk : s.h.toNat = 256 * k) (hk0 : 0 < k) (hw : s.w.toNat = 4096) (hsize : byteSize s < 2 ^ 31) :
    AlignedAgree emulator s := by
  obtain ⟨htotal, hok⟩ := convert_aligned_ok emulator .I_X_W (Y := 1) hm hk hk0
    (by rw [outDim, hw]) one_pos hsize
  have hs : TiledWeight s k (matrices s * 1) :=
    ⟨hk, by rw [hw]; ring, hk0, by omega, htotal ▸ hsize⟩
  refine ⟨_, hok, sameBuffer_of_index hs emulator one_pos (by norm_num) (fun q hq => ?_)
    fun i j a l hi hj ha hl => ?_⟩
  · exact copyAt_eq (matrices s) hk0 one_pos hs.size_lt hq
  · have hk' := hs.k_lt
    have hlt := matrix_index_lt hi hj
    have hC : (i * s.c.toNat + j) * (k * 1) < 2 ^ 10 := by
      have hle : (i * s.c.toNat + j) * (k * 1) ≤ matrices s * (k * 1) := by gcongr
      have hcomm : matrices s * (k * 1) = k * (matrices s * 1) := by ring
      have := hs.size_lt
      omega
    have hrow : ((i * s.c.toNat + j) * 4096 + l) % 4096 = l % 4096 := by omega
    have hdiv : ((i * s.c.toNat + j) * 4096 + l) / 4096 = i * s.c.toNat + j := by omega
    rw [hk] at ha
    obtain ⟨-, -, -, hadd⟩ := copyOf_first emulator
      (R := (i * s.c.toNat + j) * 4096 + l) ha
    have hidx := idx_aligned_eq emulator (n := s.n.toNat) (c := s.c.toNat) (Y := 1)
      (i := i) (j := j) (l := l) ha (by omega) (by omega) hC
    have hl0 : l / 4096 = 0 := by omega
    rw [hk, hw, ← hadd, hrow, hdiv]
    rw [hl0, Nat.zero_mul, Nat.zero_mul, Nat.zero_add, Nat.mul_comm (i * s.c.toNat + j),
      Nat.mul_one k] at hidx
    exact hidx

/-- An empty weight leaves nothing to compare. -/
theorem alignedAgree_of_empty {emulator : Bool} {s : PimBShape}
    (h : s.h.toNat = 0 ∨ s.w.toNat = 0) : AlignedAgree emulator s := by
  have hbyte : byteSize (PimCreateBo s).bshape = 0 := by
    have hbyte : byteSize s = 0 := by rcases h with h | h <;> simp [byteSize, h]
    exact hbyte
  have hok : ∃ copies, convert_data_layout_for_aligned_gemm_weight emulator .I_X_W (PimCreateBo s) =
      .ok copies := by
    simp [convert_data_layout_for_aligned_gemm_weight, PimCreateBo]
  obtain ⟨copies, hok⟩ := hok
  refine ⟨copies, hok, fun _ _ _ _ _ _ e he => ?_⟩
  omega

/-- With several out-tiles the device never writes the row that out-tile 1 starts at. -/
theorem not_alignedAgree_of_several {emulator : Bool} {s : PimBShape} {k Y : ℕ} (hm : 0 < matrices s)
    (hk : s.h.toNat = 256 * k) (hk0 : 0 < k) (hY : s.w.toNat = 4096 * Y) (hY2 : 2 ≤ Y)
    (hsize : byteSize s < 2 ^ 31) : ¬ AlignedAgree emulator s := by
  obtain ⟨htotal, hok⟩ := convert_aligned_ok emulator .I_X_W hm hk hk0
    hY (by omega) hsize
  have hs : TiledWeight s k (matrices s * Y) :=
    ⟨hk, by rw [hY]; ring, hk0, Nat.mul_pos hm (by omega), htotal ▸ hsize⟩
  rintro ⟨copies, hcopies, hsame⟩
  obtain rfl : copies = _ := Except.ok.inj (hcopies.symm.trans hok)
  have hkY : k * 2 ≤ k * Y := Nat.mul_le_mul_left k hY2
  have hkNY : k * Y ≤ k * (matrices s * Y) :=
    Nat.mul_le_mul_left k (Nat.le_mul_of_pos_left Y hm)
  have hq : 65536 * k < 65536 * (k * (matrices s * Y)) := by omega
  have htarget := target_lt hq
  have hbyte : byteSize (PimCreateBo s).bshape = 2 ^ 21 * (k * (matrices s * Y)) := htotal
  have hspec := hsame (fun _ => 1) (fun _ => 0) (fun _ => 0) (fun _ => 0) _ (List.Perm.refl _)
    (16 * target (65536 * k)) (by omega)
  have hcopy : ∀ q, q < 65536 * (k * (matrices s * Y)) →
      (copyAt emulator k Y (2 ^ 21 * k * Y) q).src = ((32 * source emulator k q : ℕ) : ℤ) ∧
      (copyAt emulator k Y (2 ^ 21 * k * Y) q).dst = ((32 * target q : ℕ) : ℤ) :=
    fun q hq => copyAt_eq (matrices s) hk0 (by omega) hs.size_lt hq
  have hhost : reorder_on_host ((List.range (65536 * (k * (matrices s * Y)))).map
      (copyAt emulator k Y (2 ^ 21 * k * Y))) (PimCreateBo s) (fun _ => 1) (fun _ => 0) (fun _ => 0)
      ((16 * target (65536 * k) : ℕ) : ℤ) = 1 := by
    refine scatter_eq ⟨_, (mem_copies hcopy).mpr ⟨65536 * k, 0, hq, by norm_num, rfl⟩, rfl⟩ ?_
    intro w hw _
    obtain ⟨q, e, hq, he, rfl⟩ := (mem_copies hcopy).mp hw
    obtain ⟨i, j, a, l, hi, hj, ha, hl, hx⟩ := exists_element hs
      (source_elem_lt hs emulator hq he)
    rw [hx, scatter_transpose hs.sized (matrix_index_lt hi hj) ha hl]
  have hdev : ∀ w ∈ launch_aligned emulator (PimCreateBo s) (fun _ => 1),
      w.1 ≠ ((16 * target (65536 * k) : ℕ) : ℤ) := by
    intro w hw heq
    obtain ⟨i, j, a, l, hi, hj, ha, hl, rfl⟩ := (mem_launch hs.sized one_pos (by norm_num)).mp hw
    have hC : (i * s.c.toNat + j) * (k * Y) ≤ k * (matrices s * Y) := by
      calc (i * s.c.toNat + j) * (k * Y) ≤ matrices s * (k * Y) :=
            Nat.mul_le_mul_right _ (matrix_index_lt hi hj).le
        _ = k * (matrices s * Y) := by ring
    have hsize' := hs.size_lt
    rw [hk] at ha
    rw [hY] at hl
    have heq := Nat.cast_inj.mp heq
    rw [hk, hY, idx_aligned_eq _ ha hl (by omega) (by omega)] at heq
    have hq' : l / 4096 * (8 * k) * 65536 + copyOf emulator k (l % 4096) a +
        65536 * ((i * s.c.toNat + j) * (k * Y)) = 65536 * k := target_inj (by omega)
    obtain ⟨hlt, -, -, -⟩ := copyOf_first emulator (R := l) ha
    -- the rows of out-tile 1 start beyond that row, and so do those of the next matrix
    rcases Nat.eq_zero_or_pos (l / 4096) with h0 | hpos
    · rcases Nat.eq_zero_or_pos (i * s.c.toNat + j) with hm0 | hmpos
      · rw [h0, hm0] at hq'
        omega
      · have : 1 * (k * Y) ≤ (i * s.c.toNat + j) * (k * Y) := Nat.mul_le_mul_right _ hmpos
        omega
    · have : 1 * (8 * k) ≤ l / 4096 * (8 * k) := Nat.mul_le_mul_right _ hpos
      omega
  rw [hhost, scatter_frame hdev] at hspec
  exact absurd hspec (by decide)

/-- The aligned kernel agrees with the host exactly when there is at most one out-tile. -/
theorem aligned_device_agrees_iff (emulator : Bool) (s : PimBShape) (hn : 1 ≤ s.n.toNat)
    (hc : 1 ≤ s.c.toNat) (hh : 256 ∣ s.h.toNat) (hw : 4096 ∣ s.w.toNat) (hsize : byteSize s < 2 ^ 31) :
    AlignedAgree emulator s ↔ s.h.toNat = 0 ∨ s.w.toNat ≤ 4096 := by
  obtain ⟨k, hk⟩ := hh
  obtain ⟨Y, hY⟩ := hw
  have hm : 0 < matrices s := Nat.mul_pos hn hc
  constructor
  · intro hagree
    by_contra hcond
    simp only [not_or, not_le] at hcond
    exact not_alignedAgree_of_several hm hk (by omega) hY (by omega) hsize hagree
  · intro hcond
    by_cases hempty : s.h.toNat = 0 ∨ s.w.toNat = 0
    · exact alignedAgree_of_empty hempty
    · exact alignedAgree_of_single _ hm hk (by omega) (by omega) hsize

theorem aligned_device_agrees_one_tile :
    AlignedAgree false ⟨1, 1, 512, 4096⟩ ↔
      (⟨1, 1, 512, 4096⟩ : PimBShape).h.toNat = 0 ∨ (⟨1, 1, 512, 4096⟩ : PimBShape).w.toNat ≤ 4096 :=
  aligned_device_agrees_iff false ⟨1, 1, 512, 4096⟩ (by decide) (by decide) (by decide) (by decide)
    (by decide)

/-- Two out-tiles of the smallest height already differ. -/
theorem aligned_device_disagrees :
    byteSize ⟨1, 1, 256, 8192⟩ < 2 ^ 31 ∧ ¬ AlignedAgree false ⟨1, 1, 256, 8192⟩ :=
  ⟨by decide, not_alignedAgree_of_several (k := 1) (Y := 2) (by decide) (by decide) (by decide)
    (by decide) (by decide) (by decide)⟩

end PimLibrary.Layout
