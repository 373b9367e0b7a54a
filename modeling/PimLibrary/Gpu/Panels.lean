import PimLibrary.Gpu.Product

/-! The kernel for a weight in panels.

    The one weight of 32317 rows is multiplied by blocks of 32 rows with 8 threads each. The kernel takes
    the matrix to be stored in panels of 16 columns, the rows of a panel one after another and padded to
    a multiple of 32. -/

namespace PimLibrary.Gpu
open Schemes.Word Schemes.Loop Schemes.Interleave Schemes.SharedMemory PimLibrary.Device
  PimLibrary.Executor

attribute [local irreducible] int32

variable {F : Type}

/-! ### Lanes -/

/-- The entries of thread `tx`: two of every 16. -/
def lane_large (n tx : ℕ) : List ℕ :=
  ((List.range (n / 16)).flatMap fun q => (List.range 2).map fun j => q * 16 + j * 8 + tx) ++
    if tx + n / 16 * 16 < n then
      ((List.range 2).takeWhile fun j => tx + n / 16 * 16 + j * 8 < n).map
        fun j => n / 16 * 16 + j * 8 + tx
    else []

/-- The last strides: none, the lower one or both. -/
theorem lane_large_tail (n tx : ℕ) :
    (if tx + n / 16 * 16 < n then
      ((List.range 2).takeWhile fun j => tx + n / 16 * 16 + j * 8 < n).map
        fun j => n / 16 * 16 + j * 8 + tx
    else []) =
      ((List.range 2).filter fun j => n / 16 * 16 + j * 8 + tx < n).map
        fun j => n / 16 * 16 + j * 8 + tx := by
  have hrange : List.range 2 = [0, 1] := rfl
  by_cases h0 : tx + n / 16 * 16 < n
  · by_cases h1 : tx + n / 16 * 16 + 8 < n
    · simp [hrange, h0, h1, show n / 16 * 16 + tx < n by omega, show n / 16 * 16 + 8 + tx < n by omega]
    · simp [hrange, h0, h1, show n / 16 * 16 + tx < n by omega,
        show ¬ n / 16 * 16 + 8 + tx < n by omega]
  · simp [hrange, h0, show ¬ n / 16 * 16 + tx < n by omega, show ¬ n / 16 * 16 + 8 + tx < n by omega]

theorem mem_lane_large {n tx i : ℕ} : i ∈ lane_large n tx ↔
    ∃ q j, j < 2 ∧ q * 16 + j * 8 + tx = i ∧ (q < n / 16 ∨ q = n / 16 ∧ i < n) := by
  rw [lane_large, lane_large_tail, List.mem_append]
  simp only [List.mem_flatMap, List.mem_map, List.mem_filter, List.mem_range, decide_eq_true_eq]
  constructor
  · rintro (⟨q, hq, j, hj, rfl⟩ | ⟨j, ⟨hj, hlt⟩, rfl⟩)
    · exact ⟨q, j, hj, rfl, .inl hq⟩
    · exact ⟨n / 16, j, hj, rfl, .inr ⟨rfl, hlt⟩⟩
  · rintro ⟨q, j, hj, rfl, hq | ⟨rfl, hlt⟩⟩
    · exact .inl ⟨q, hq, j, hj, rfl⟩
    · exact .inr ⟨j, ⟨hj, hlt⟩, rfl⟩

theorem lanes_lane_large (n : ℕ) : Lanes 8 n (lane_large n) := by
  constructor
  · intro t
    rw [lane_large, lane_large_tail]
    refine List.Nodup.append ?_ ?_ fun i hi hi' => ?_
    · refine List.nodup_flatMap.mpr ⟨fun q _ => ?_, ?_⟩
      · exact List.nodup_range.map fun a b h => by simpa using h
      · refine List.nodup_range.imp_of_mem fun {q q'} _ _ hne i hi hi' => hne ?_
        simp only [List.mem_map, List.mem_range] at hi hi'
        obtain ⟨j, hj, rfl⟩ := hi
        obtain ⟨j', hj', heq⟩ := hi'
        omega
    · exact (List.nodup_range.filter _).map fun a b h => by simpa using h
    · simp only [List.mem_flatMap, List.mem_map, List.mem_filter, List.mem_range] at hi hi'
      obtain ⟨q, hq, j, hj, rfl⟩ := hi
      obtain ⟨j', ⟨hj', -⟩, heq⟩ := hi'
      omega
  · intro t ht i
    rw [mem_lane_large]
    constructor
    · rintro ⟨q, j, hj, rfl, hq⟩
      have hlow : q * 16 + j * 8 + t < (q + 1) * 16 := by omega
      refine ⟨?_, by omega⟩
      rcases hq with hq | ⟨-, hlt⟩
      · omega
      · exact hlt
    · rintro ⟨hi, rfl⟩
      refine ⟨i / 16, i / 8 % 2, by omega, by omega, ?_⟩
      rcases (Nat.div_le_div_right hi.le : i / 16 ≤ n / 16).lt_or_eq with h | h
      · exact .inl h
      · exact .inr ⟨h, hi⟩

/-! ### The addresses -/

/-- The rows of a panel, padded. -/
def m_align (m : ℕ) : ℕ := (m + 31) / 32 * 32

/-- Element `(r, i)` of a matrix of `m` rows stored in panels. -/
def panel_addr (A : ℤ) (m r i : ℕ) : ℤ := A + (i / 16 * 16 * m_align m + r * 16 + i % 16 : ℕ)

/-- The matrix is addressed within an `int`. -/
structure PanelFits (m n : ℕ) : Prop where
  rows_pos : 0 < m
  size : (n + 16) * m_align m < 2 ^ 31

theorem PanelFits.bounds {m n : ℕ} (h : PanelFits m n) :
    n * m_align m + 512 < 2 ^ 31 ∧ m * 16 < 2 ^ 31 ∧ n + 16 < 2 ^ 31 := by
  have hpos := h.rows_pos
  have hsize := h.size
  have hm : m ≤ m_align m := by rw [m_align]; omega
  have halign : 32 ≤ m_align m := by rw [m_align]; omega
  rw [Nat.add_mul] at hsize
  have hn : n * 32 ≤ n * m_align m := Nat.mul_le_mul_left n halign
  omega

theorem int32_m_align {m n : ℕ} (h : PanelFits m n) :
    int32 ((int32 ((m : ℤ) + (32 : ℕ) - 1)).tdiv (32 : ℕ) * (32 : ℕ)) = (m_align m : ℕ) := by
  obtain ⟨-, hm, -⟩ := h.bounds
  have hadd : (m : ℤ) + (32 : ℕ) - 1 = (m + 31 : ℕ) := by
    push_cast
    ring
  rw [hadd, int32_natCast (by omega), tdiv_mul_natCast, ← m_align, int32_natCast]
  rw [m_align]
  omega

/-- One product of a thread. -/
theorem large_term {m n q j tx : ℕ} (h : PanelFits m n) (hj : j < 2) (htx : tx < 8) (hq : q ≤ n / 16)
    (A x : ℤ) :
    (A + tx + int32 (int32 ((q * 16 : ℕ) * (m_align m : ℕ)) + (j * 8 : ℕ)),
        x + int32 (int32 (tx + (q * 16 : ℕ) + (j * 8 : ℕ)) * 1)) =
      ((fun i : ℕ => (A + (i / 16 * 16 * m_align m + i % 16 : ℕ), x + (i : ℤ)))
        (q * 16 + j * 8 + tx) : ℤ × ℤ) := by
  obtain ⟨hsize, -, hn⟩ := h.bounds
  have hmul : q * 16 * m_align m ≤ n * m_align m := Nat.mul_le_mul_right _ (by omega)
  have hdiv : (q * 16 + j * 8 + tx) / 16 * 16 = q * 16 := by omega
  have hmod : (q * 16 + j * 8 + tx) % 16 = j * 8 + tx := by omega
  have hrow : int32 (int32 ((q * 16 : ℕ) * (m_align m : ℕ)) + (j * 8 : ℕ)) =
      (q * 16 * m_align m + j * 8 : ℕ) := by
    rw [← Nat.cast_mul, int32_natCast (by omega), ← Nat.cast_add, int32_natCast (by omega)]
  have hcol : int32 (int32 (tx + (q * 16 : ℕ) + (j * 8 : ℕ)) * 1) = (tx + q * 16 + j * 8 : ℕ) := by
    rw [mul_one, ← Nat.cast_add, ← Nat.cast_add, int32_natCast (by omega), int32_natCast (by omega)]
  rw [hrow, hcol]
  dsimp only
  rw [hdiv, hmod]
  push_cast
  ring_nf

theorem reads_Axy_large_eq {m n tx : ℕ} (h : PanelFits m n) (htx : tx < 8) (A x : ℤ) :
    reads_Axy_large 8 32 2 m n 1 A x tx =
      (lane_large n tx).map fun i : ℕ => (A + (i / 16 * 16 * m_align m + i % 16 : ℕ), x + (i : ℤ)) := by
  obtain ⟨-, -, hn⟩ := h.bounds
  have hfull : int32 ((n : ℤ).tdiv ((8 : ℕ) * (2 : ℕ)) * ((8 : ℕ) * (2 : ℕ))) = (n / 16 * 16 : ℕ) := by
    have hsixteen : ((8 : ℕ) : ℤ) * (2 : ℕ) = (16 : ℕ) := by norm_num
    rw [hsixteen, tdiv_mul_natCast, int32_natCast (by omega)]
  have hrange : forRange ((n / 16 * 16 : ℕ) : ℤ) (8 * 2) = (List.range (n / 16)).map (· * 16) :=
    forRange_mul (n / 16) (by norm_num)
  rw [reads_Axy_large, hfull, int32_m_align h, hrange, lane_large, List.map_append, List.flatMap_map,
    List.map_flatMap]
  congr 1
  · refine List.flatMap_congr fun q hq => ?_
    rw [List.map_map]
    refine List.map_congr_left fun j hj => ?_
    have hq := List.mem_range.mp hq
    rw [if_pos (by omega : (tx : ℤ) < n)]
    exact large_term h (List.mem_range.mp hj) htx hq.le A x
  · have hint : int32 ((tx : ℤ) + (n / 16 * 16 : ℕ)) = (tx + n / 16 * 16 : ℕ) := by
      rw [← Nat.cast_add, int32_natCast (by omega)]
    have hstop : ∀ j, j < 2 → (int32 ((tx : ℤ) + (n / 16 * 16 : ℕ) + (j * 8 : ℕ)) < n ↔
        tx + n / 16 * 16 + j * 8 < n) := fun j hj => by
      rw [← Nat.cast_add, ← Nat.cast_add, int32_natCast (by omega), Nat.cast_lt]
    have htake : ((List.range 2).takeWhile fun j : ℕ =>
        decide (int32 ((tx : ℤ) + (n / 16 * 16 : ℕ) + (j * 8 : ℕ)) < n)) =
        (List.range 2).takeWhile fun j => decide (tx + n / 16 * 16 + j * 8 < n) := by
      simp only [show List.range 2 = [0, 1] from rfl, List.takeWhile_cons, List.takeWhile_nil,
        hstop 0 (by norm_num), hstop 1 (by norm_num)]
    rw [hint, htake]
    by_cases hlt : tx + n / 16 * 16 < n
    · rw [if_pos (by exact_mod_cast hlt), if_pos hlt, if_pos (by omega : (tx : ℤ) < n), List.map_map]
      refine List.map_congr_left fun j hj => ?_
      have hj := List.mem_range.mp (List.takeWhile_subset _ hj)
      exact large_term h hj htx le_rfl A x
    · rw [if_neg (by exact_mod_cast hlt), if_neg hlt, List.map_nil]

/-! ### The launch -/

/-- The blocks of 32 rows. -/
theorem y_index_eq {m n bid ty : ℕ} (h : PanelFits m n) (hbid : bid < (m + 31) / 32) (hty : ty < 32) :
    y_index 32 bid ty = (bid * 32 + ty : ℕ) := by
  obtain ⟨-, hm, -⟩ := h.bounds
  rw [y_index, int32_natCast (by omega)]

/-- The launch for `m` rows of `n` entries. -/
def panel_kernel (one zero : F) (m n : ℕ) (b A x y : ℤ) (relu : Bool) : MatVec F :=
  addmv_kernel_Axy_large 8 32 2 ((m + 31) / 32) m n one b A x 1 zero y relu

section Panel

variable {R : Type} [CommSemiring R] [LinearOrder R] {m n : ℕ} (h : PanelFits m n)
  {b A x y : ℤ}

include h

/-- A row of a block is a row of the matrix. -/
theorem panel_row {one zero : F} {relu : Bool} {bid ty : ℕ}
    (hrow : (panel_kernel one zero m n b A x y relu).Row bid ty) :
    bid * 32 + ty < m ∧ bid < (m + 31) / 32 ∧ ty < 32 := by
  have hbid : bid < (m + 31) / 32 := hrow.bid_lt
  have hty : ty < 32 := hrow.ty_lt
  have hlive := hrow.live
  simp only [panel_kernel, addmv_kernel_Axy_large, y_index_eq h hbid hty, decide_eq_true_eq] at hlive
  exact ⟨by exact_mod_cast hlive, hbid, hty⟩

theorem panel_lanes {one zero : F} {relu : Bool} {bid ty tx : ℕ} (hbid : bid < (m + 31) / 32)
    (hty : ty < 32) (htx : tx < 8) :
    (panel_kernel one zero m n b A x y relu).reads bid ty tx =
      (lane_large n tx).map fun i : ℕ => (panel_addr A m (bid * 32 + ty) i, x + (i : ℤ)) := by
  obtain ⟨-, hm, -⟩ := h.bounds
  have hmul : int32 (int32 (((bid * 32 + ty : ℕ) : ℤ) * (8 : ℕ)) * (2 : ℕ)) =
      ((bid * 32 + ty) * 16 : ℕ) := by
    rw [← Nat.cast_mul, int32_natCast (by omega), ← Nat.cast_mul, int32_natCast (by omega)]
    push_cast
    ring
  simp only [panel_kernel, addmv_kernel_Axy_large, y_index_eq h hbid hty, hmul]
  rw [reads_Axy_large_eq h htx]
  refine List.map_congr_left fun i _ => ?_
  rw [panel_addr]
  push_cast
  ring_nf

theorem panel_kernel_fits (one zero : F) (relu : Bool)
    (hapart : Apart m n y (panel_addr A m) x (some b)) :
    (panel_kernel one zero m n b A x y relu).Fits := by
  constructor
  · exact (by norm_num : 0 < 8)
  · intro bid ty bid' ty' hrow hrow' heq
    obtain ⟨-, hbid, hty⟩ := panel_row h hrow
    obtain ⟨-, hbid', hty'⟩ := panel_row h hrow'
    simp only [panel_kernel, addmv_kernel_Axy_large, y_index_eq h hbid hty,
      y_index_eq h hbid' hty'] at heq
    omega
  · intro bid ty tx hrow htx r hr bid' ty' hrow'
    obtain ⟨hlt, hbid, hty⟩ := panel_row h hrow
    obtain ⟨hlt', hbid', hty'⟩ := panel_row h hrow'
    rw [panel_lanes h hbid hty htx] at hr
    obtain ⟨i, hi, rfl⟩ := List.mem_map.mp hr
    have hcount := (((lanes_lane_large n).mem_iff tx htx i).mp hi).1
    simp only [panel_kernel, addmv_kernel_Axy_large, y_index_eq h hbid' hty']
    exact ⟨hapart.a_apart _ i _ hlt hcount hlt', hapart.x_apart.ne hcount hlt'⟩
  · intro b' hb' bid ty bid' ty' hrow hrow' heq
    obtain ⟨hlt, hbid, hty⟩ := panel_row h hrow
    obtain ⟨hlt', hbid', hty'⟩ := panel_row h hrow'
    obtain rfl := Option.some.inj hb'
    simp only [panel_kernel, addmv_kernel_Axy_large, y_index_eq h hbid hty,
      y_index_eq h hbid' hty'] at heq
    exact absurd heq ((hapart.b_apart b rfl).ne hlt hlt')

theorem panel_kernel_multiplies (relu : Bool) (hapart : Apart m n y (panel_addr A m) x (some b)) :
    Multiplies (panel_kernel (1 : R) 0 m n b A x y relu) y m n (panel_addr A m) x (some b) 1 0 relu := by
  refine multiplies_of_lanes (panel_kernel_fits h 1 0 relu hapart)
    (MatVec.Width.serial (n := 8) (by norm_num) (by norm_num)) (lanes_lane_large n) rfl (fun bid ty hrow => ?_) fun r hr => ?_
  · obtain ⟨hlt, hbid, hty⟩ := panel_row h hrow
    exact ⟨bid * 32 + ty, hlt, by simp only [panel_kernel, addmv_kernel_Axy_large,
      y_index_eq h hbid hty]⟩
  · have hbid : r / 32 < (m + 31) / 32 := by omega
    have hty : r % 32 < 32 := by omega
    have hsplit : r / 32 * 32 + r % 32 = r := by omega
    have hy := y_index_eq h hbid hty
    rw [hsplit] at hy
    refine ⟨r / 32, r % 32, ⟨hbid, hty, ?_⟩, ?_, ?_, _, fun tx htx => panel_lanes h hbid hty htx, ?_⟩
    · simp only [panel_kernel, addmv_kernel_Axy_large, hy, decide_eq_true_eq]
      exact_mod_cast hr
    · simp only [panel_kernel, addmv_kernel_Axy_large, hy]
    · simp only [panel_kernel, addmv_kernel_Axy_large, hy, Option.map_some]
    · intro i
      rw [hsplit]
      exact .inl rfl

end Panel

/-! ### The executor -/

/-- The operands of a product with a weight in panels and a bias of its own. -/
structure PanelCall (gemm_order_ : PimGemmOrder) (output input weight bias : GpuBo) : Prop where
  single : input.bshape_r.n = 1
  raw_weight : weight.data_layout_type = .RAW
  raw_input : input.data_layout_type = .RAW
  panels : usesPanels gemm_order_ output weight (some bias) = true
  fits : PanelFits (outDim weight.bshape_r gemm_order_) (inDim weight.bshape_r gemm_order_)
  apart : Apart (outDim weight.bshape_r gemm_order_) (inDim weight.bshape_r gemm_order_) output.data
    (panel_addr weight.data (outDim weight.bshape_r gemm_order_)) input.data (some bias.data)

theorem execute_gemv_panels_eq {gemm_order_ : PimGemmOrder} {output input weight bias : GpuBo}
    {act_func : PimActFunc} (h : PanelCall gemm_order_ output input weight bias) (one zero : F)
    (device : ℤ) :
    execute_gemv one zero gemm_order_ device output input weight (some bias) act_func =
      ⟨0, none, some (panel_kernel one zero (outDim weight.bshape_r gemm_order_)
        (inDim weight.bshape_r gemm_order_) bias.data weight.data input.data output.data
        (act_func = .ACT_RELU))⟩ := by
  obtain ⟨-, hm, hn⟩ := h.fits.bounds
  have hpanels := h.panels
  simp only [usesPanels, addsBias, Bool.and_eq_true, decide_eq_true_eq, ne_eq] at hpanels
  obtain ⟨⟨hne, horder⟩, hrows⟩ := hpanels
  have hsupported : gemm_not_supported input weight = false := by
    simp [gemm_not_supported, h.single, h.raw_weight, h.raw_input]
  have hblocks : toUint32 ((int32 ((outDim weight.bshape_r gemm_order_ : ℤ) + 32 - 1)).tdiv 32) =
      (outDim weight.bshape_r gemm_order_ + 31) / 32 := by
    have hadd : (outDim weight.bshape_r gemm_order_ : ℤ) + 32 - 1 =
        (outDim weight.bshape_r gemm_order_ + 31 : ℕ) := by
      push_cast
      ring
    rw [hadd, int32_natCast (by omega), show (32 : ℤ) = (32 : ℕ) from rfl, ← Int.ofNat_tdiv,
      toUint32_natCast (by omega)]
  obtain ⟨hshape, -⟩ | ⟨hshape, -⟩ := passed gemm_order_ weight
    (by omega) (by omega)
  · rw [hshape] at hrows
    rw [execute_gemv, if_neg hne, execute_custom_gemv_add, if_neg (by simp [hsupported]), hshape]
    simp only [if_pos, rocblas_addmv_fp16_Axy_large, panel_kernel, ne_eq, not_true_eq_false, if_false]
    rw [if_pos hrows, hblocks]
  · rw [hshape] at horder
    simp at horder

end PimLibrary.Gpu
