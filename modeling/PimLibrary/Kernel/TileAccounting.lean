import PimLibrary.Kernel.GemmLoops

/-! Which products the aligned kernel computes.

    The executor derives the trip count from the size of all outputs, while the kernel advances the
    weight by one matrix and counts `inout_h` input rows in each iteration. With one output tile the
    two agree. With more, the trip count is `out_w / 4096` times too large: every further iteration
    reads past the weight and the input and stores past the output. -/

namespace PimLibrary.Kernel
open Schemes.Word Schemes.Loop Schemes.Digits PimLibrary.Device

attribute [local irreducible] int32

/-- What a session multiplies: the byte offsets of its input row and of its matrix, and the first row
    pair of its output tile. -/
structure Visit where
  input : ℤ
  weight : ℤ
  row_pair : ℤ

def visit (s : Session) : Visit := ⟨s.input + i_addr s 0 0, s.weight, s.r_offset⟩

/-- The output indices that all threads store to, block by block. -/
def stores (p : GemmLaunch) : List ℤ :=
  (List.range 64).flatMap fun ch => (List.range 64).flatMap fun tid =>
    (aligned_reduce p ch tid).filterMap (Option.map ReduceStep.out)

/-- What all threads store when each has its own place in every one of `rows` rows of 4096 outputs. -/
def threadStores (rows : ℕ) : List ℤ :=
  (List.range 64).flatMap fun ch => (List.range 64).flatMap fun tid =>
    (List.range rows).map fun q : ℕ => ((q * 4096 + (ch * 64 + tid) : ℕ) : ℤ)

theorem threadStores_perm (rows : ℕ) :
    (threadStores rows).Perm ((List.range (4096 * rows)).map Nat.cast) := by
  have hstores : threadStores rows =
      ((List.range (64 * 64 * rows)).map fun q => q % rows * 4096 + q / rows).map Nat.cast := by
    rw [← flatMap_range_map (64 * 64) _ fun u q => q * 4096 + u, ← flatMap_range_flatMap, threadStores,
      List.map_flatMap]
    refine List.flatMap_congr fun ch hch => ?_
    rw [List.map_flatMap]
    refine List.flatMap_congr fun tid htid => ?_
    rw [List.map_map]
    rfl
  rw [hstores]
  refine List.Perm.map _ ?_
  rcases Nat.eq_zero_or_pos rows with rfl | hpos
  · simp
  have hdiv : ∀ q, q < 64 * 64 * rows → q / rows < 64 * 64 := fun q hq =>
    Nat.div_lt_of_lt_mul (by rwa [Nat.mul_comm])
  refine map_perm_range ?_ ?_
  · intro q hq
    have hu := hdiv q hq
    have hmod := Nat.mod_lt q hpos
    generalize q / rows = u at hu
    generalize q % rows = m at hmod
    omega
  · intro q hq q' hq' h
    have hu := hdiv q hq
    have hu' := hdiv q' hq'
    rw [← Nat.div_add_mod q rows, ← Nat.div_add_mod q' rows]
    generalize q / rows = u at *
    generalize q' / rows = u' at *
    have hsame : u = u' ∧ q % rows = q' % rows := by
      generalize q % rows = m at *
      generalize q' % rows = m' at *
      omega
    rw [hsame.1, hsame.2]

/-- The visits of the product: every matrix, input row and output tile. -/
def productVisits (g : AlignedGemm) : List Visit :=
  (List.range (matrices g.weight)).flatMap fun m => (List.range g.inout_h.toNat).flatMap fun r =>
    (List.range g.out_tiles).map fun o =>
      ⟨(((m * g.inout_h.toNat + r) * g.in_w.toNat * 2 : ℕ) : ℤ),
        ((m * (g.in_w.toNat * g.out_w.toNat * 2) : ℕ) : ℤ), ((o * g.in_pairs : ℕ) : ℤ)⟩

/-- The product's output indices. -/
def productOutputs (g : AlignedGemm) : List ℤ :=
  (List.range (matrices g.weight * g.inout_h.toNat * g.out_w.toNat)).map Nat.cast

/-- The kernel does each part of the product once and nothing else. -/
structure TileAccounting (g : AlignedGemm) : Prop where
  visits : ((aligned_sessions g.launch).map visit).Perm (productVisits g)
  inside : ∀ s ∈ aligned_sessions g.launch, 0 ≤ s.weight ∧
    s.weight + g.in_w.toNat * g.out_w.toNat * 2 ≤ matrices g.weight * g.in_w.toNat * g.out_w.toNat * 2
  stores : (stores g.launch).Perm (productOutputs g)

namespace AlignedGemm

variable (g : AlignedGemm)

/-- One output tile, and every count and offset inside an `int`. -/
def Fits : Prop :=
  g.out_w.toNat = 4096 ∧ matrices g.weight * g.inout_h.toNat * 4096 ≤ 2 ^ 31 ∧
    (matrices g.weight * g.inout_h.toNat - 1) * (16 * g.in_pairs) < 2 ^ 31 ∧
    (matrices g.weight = 1 ∨ g.in_w.toNat * 8192 < 2 ^ 31)

/-! ### What an iteration visits and stores -/

theorem visit_aligned (i r o : ℕ) :
    visit (aligned_session g.launch (aligned_state g.launch i r) o) =
      ⟨int32 (((i * g.launch.inout_h.toNat + r) * (16 * g.in_pairs) : ℕ) : ℤ) * 32,
        i * int32 ((g.in_w.toNat * g.out_w.toNat * 2 : ℕ) : ℤ),
        int32 ((o * (2 * g.in_pairs) : ℕ) : ℤ) / 2⟩ := by
  have hinput : (aligned_session g.launch (aligned_state g.launch i r) o).input = 0 := rfl
  rw [visit, i_addr, hinput, g.session_i_offset, g.session_weight, g.session_r_offset]
  simp only [Nat.zero_mul, Nat.cast_zero, add_zero, zero_add]

/-- The offset of an input row below the product's last one does not wrap. -/
theorem row_offset_eq (hrow : (matrices g.weight * g.inout_h.toNat - 1) * (16 * g.in_pairs) < 2 ^ 31)
    {q : ℕ} (hq : q < matrices g.weight * g.inout_h.toNat) :
    int32 ((q * (16 * g.in_pairs) : ℕ) : ℤ) = ((q * (16 * g.in_pairs) : ℕ) : ℤ) := by
  refine int32_natCast (lt_of_le_of_lt ?_ hrow)
  exact Nat.mul_le_mul_right _ (by omega)

theorem mem_rows {i r : ℕ} (hi : i < matrices g.weight) (hr : r < g.inout_h.toNat) :
    i * g.inout_h.toNat + r < matrices g.weight * g.inout_h.toNat :=
  calc i * g.inout_h.toNat + r < i * g.inout_h.toNat + g.inout_h.toNat := by omega
    _ = (i + 1) * g.inout_h.toNat := by ring
    _ ≤ _ := Nat.mul_le_mul_right _ hi

/-! ### When the product fits -/

section Fits

variable {g} (hf : g.Fits)
include hf

theorem Fits.out_tiles_eq : g.out_tiles = 1 := by
  have := hf.1
  have := g.out_w_eq
  omega

theorem Fits.matrices_lt : matrices g.weight < 2 ^ 20 := by
  have hpos := g.inout_h_pos
  have hle : matrices g.weight * 1 ≤ matrices g.weight * g.inout_h.toNat := Nat.mul_le_mul_left _ hpos
  have := hf.2.1
  omega

theorem Fits.inout_h_lt : g.inout_h.toNat < 2 ^ 31 := by
  have hpos := g.matrices_pos
  have hle : 1 * g.inout_h.toNat ≤ matrices g.weight * g.inout_h.toNat := Nat.mul_le_mul_right _ hpos
  have := hf.2.1
  omega

theorem Fits.iter_cnt_eq : g.launch.iter_cnt.toNat = matrices g.weight := by
  have := hf.matrices_lt
  rw [g.iter_cnt_eq, hf.out_tiles_eq, Int.toNat_natCast]
  omega

/-- Every matrix before the last is stepped over exactly. -/
theorem Fits.weight_eq {i : ℕ} (hi : i < matrices g.weight) :
    (i : ℤ) * int32 ((g.in_w.toNat * g.out_w.toNat * 2 : ℕ) : ℤ) =
      ((i * (g.in_w.toNat * g.out_w.toNat * 2) : ℕ) : ℤ) := by
  rcases hf.2.2.2 with hone | hlt
  · have hi0 : i = 0 := by omega
    simp [hi0]
  · have hsize : g.in_w.toNat * g.out_w.toNat * 2 < 2 ^ 31 := by
      rw [hf.1]; omega
    rw [int32_natCast hsize, Nat.cast_mul i]

theorem Fits.visit_eq {i r o : ℕ} (hi : i < matrices g.weight) (hr : r < g.inout_h.toNat)
    (ho : o < g.out_tiles) :
    visit (aligned_session g.launch (aligned_state g.launch i r) o) =
      ⟨(((i * g.inout_h.toNat + r) * g.in_w.toNat * 2 : ℕ) : ℤ),
        ((i * (g.in_w.toNat * g.out_w.toNat * 2) : ℕ) : ℤ), ((o * g.in_pairs : ℕ) : ℤ)⟩ := by
  have ho : o = 0 := by have := hf.out_tiles_eq; omega
  have h0 : int32 (((0 : ℕ) : ℤ)) = 0 := int32_natCast (by norm_num)
  rw [g.visit_aligned, g.inout_h_eq hf.inout_h_lt, g.row_offset_eq hf.2.2.1 (g.mem_rows hi hr),
    hf.weight_eq hi, ho, Nat.zero_mul, Nat.zero_mul, h0, g.in_w_eq]
  simp only [Visit.mk.injEq]
  refine ⟨?_, trivial, rfl⟩
  push_cast
  ring

theorem Fits.visits_eq : (aligned_sessions g.launch).map visit = productVisits g := by
  have ht : g.launch.n_out_tile.toNat = g.out_tiles := by rw [g.n_out_tile_eq, Int.toNat_natCast]
  rw [aligned_sessions_eq, hf.iter_cnt_eq, g.inout_h_eq hf.inout_h_lt, ht, productVisits,
    List.map_flatMap]
  refine List.flatMap_congr fun i hi => ?_
  rw [List.map_flatMap]
  refine List.flatMap_congr fun r hr => ?_
  rw [List.map_map]
  refine List.map_congr_left fun o ho => ?_
  exact hf.visit_eq (List.mem_range.mp hi) (List.mem_range.mp hr) (List.mem_range.mp ho)

theorem Fits.launch_out_w : g.launch.out_w = ((4096 : ℕ) : ℤ) := by
  have h : g.launch.out_w = int32 (g.out_w.toNat : ℤ) := rfl
  rw [h, hf.1, int32_natCast (by norm_num)]

/-- Where a thread stores in output row `q`. -/
theorem Fits.reduce_step_eq {ch tid q : ℕ} (hch : ch < 64) (htid : tid < 64)
    (hq : q < matrices g.weight * g.inout_h.toNat) :
    (aligned_reduce_step g.launch ch tid (int32 (q : ℤ)) 0).map ReduceStep.out =
      some ((q * 4096 + (ch * 64 + tid) : ℕ) : ℤ) := by
  have hlast := hf.2.1
  have hidx : int32 ((0 * 4096 + (ch * 64 + tid) : ℕ) : ℤ) = ((ch * 64 + tid : ℕ) : ℤ) := by
    rw [int32_natCast (by omega), Nat.zero_mul, Nat.zero_add]
  have hlt : ((ch * 64 + tid : ℕ) : ℤ) < ((4096 : ℕ) : ℤ) := by omega
  rw [aligned_reduce_out, hidx, hf.launch_out_w, if_pos hlt, int32_natCast (show q < 2 ^ 31 by omega),
    ← Nat.cast_mul, ← Nat.cast_add, int32_natCast (by omega)]

/-- Each thread stores to its own place in every output row. -/
theorem Fits.reduce_eq {ch tid : ℕ} (hch : ch < 64) (htid : tid < 64) :
    (aligned_reduce g.launch ch tid).filterMap (Option.map ReduceStep.out) =
      (List.range (matrices g.weight * g.inout_h.toNat)).map fun q : ℕ =>
        ((q * 4096 + (ch * 64 + tid) : ℕ) : ℤ) := by
  have ht : g.launch.n_out_tile.toNat = 1 := by rw [g.n_out_tile_eq, Int.toNat_natCast, hf.out_tiles_eq]
  rw [aligned_reduce_eq, hf.iter_cnt_eq, g.inout_h_eq hf.inout_h_lt, ht, List.map_eq_flatMap,
    ← flatMap_range_flatMap, List.filterMap_flatMap]
  refine List.flatMap_congr fun i hi => ?_
  rw [List.filterMap_flatMap]
  refine List.flatMap_congr fun r hr => ?_
  have hq := hf.reduce_step_eq hch htid (g.mem_rows (List.mem_range.mp hi) (List.mem_range.mp hr))
  rw [aligned_state_cnt, g.inout_h_eq hf.inout_h_lt, List.range_one, List.map_singleton,
    List.filterMap_cons_some hq, List.filterMap_nil]

/-- Over all threads the stores are the outputs, each once. -/
theorem Fits.stores_perm : (stores g.launch).Perm (productOutputs g) := by
  have hstores : stores g.launch = threadStores (matrices g.weight * g.inout_h.toNat) := by
    refine List.flatMap_congr fun ch hch => List.flatMap_congr fun tid htid => ?_
    exact hf.reduce_eq (List.mem_range.mp hch) (List.mem_range.mp htid)
  have hcount : matrices g.weight * g.inout_h.toNat * g.out_w.toNat =
      4096 * (matrices g.weight * g.inout_h.toNat) := by
    rw [hf.1]; ring
  rw [hstores, productOutputs, hcount]
  exact threadStores_perm _

theorem Fits.accounting : TileAccounting g where
  visits := by rw [hf.visits_eq]
  inside := by
    intro s hs
    have hmem : visit s ∈ productVisits g := hf.visits_eq ▸ List.mem_map_of_mem hs
    simp only [productVisits, List.mem_flatMap, List.mem_map, List.mem_range] at hmem
    obtain ⟨m, hm, r, -, o, -, hvisit⟩ := hmem
    have hw : ((m * (g.in_w.toNat * g.out_w.toNat * 2) : ℕ) : ℤ) = s.weight :=
      congrArg Visit.weight hvisit
    rw [← hw]
    refine ⟨Int.natCast_nonneg _, ?_⟩
    have hle : (m + 1) * (g.in_w.toNat * g.out_w.toNat * 2) ≤
        matrices g.weight * (g.in_w.toNat * g.out_w.toNat * 2) := Nat.mul_le_mul_right _ hm
    calc ((m * (g.in_w.toNat * g.out_w.toNat * 2) : ℕ) : ℤ) + g.in_w.toNat * g.out_w.toNat * 2
        = (((m + 1) * (g.in_w.toNat * g.out_w.toNat * 2) : ℕ) : ℤ) := by push_cast; ring
      _ ≤ ((matrices g.weight * (g.in_w.toNat * g.out_w.toNat * 2) : ℕ) : ℤ) := by exact_mod_cast hle
      _ = _ := by push_cast; ring
  stores := hf.stores_perm

end Fits

/-! ### When the accounting is right -/

section Accounting

variable {g} (h : TileAccounting g)
include h

/-- Counting the visits: no input row is lost to a wrap, and the trip count is the matrix count. -/
theorem accounting_count :
    g.inout_h.toNat < 2 ^ 31 ∧ matrices g.weight * g.out_tiles % 2 ^ 20 = matrices g.weight := by
  have hlen : g.launch.iter_cnt.toNat * (g.launch.inout_h.toNat * g.out_tiles) =
      matrices g.weight * (g.inout_h.toNat * g.out_tiles) := by
    have hperm := h.visits.length_eq
    rw [List.length_map, aligned_sessions_eq, productVisits,
      length_flatMap_const (c := g.launch.inout_h.toNat * g.out_tiles),
      length_flatMap_const (c := g.inout_h.toNat * g.out_tiles), List.length_range,
        List.length_range] at hperm
    · exact hperm
    · intro m _
      rw [length_flatMap_const (c := g.out_tiles) (fun r _ => by simp), List.length_range]
    · intro i _
      rw [length_flatMap_const (c := g.out_tiles) (fun r _ => by simp [n_out_tile_eq]),
        List.length_range]
  have hh := g.inout_h_pos
  have ht := g.out_tiles_pos
  have hlt : g.inout_h.toNat < 2 ^ 31 := by
    by_contra hge
    have hneg : g.launch.inout_h < 0 := by
      have heq : g.launch.inout_h = int32 (g.inout_h.toNat : ℤ) := rfl
      have hbound := g.inout_h.toNat_lt
      rw [heq]
      exact int32_neg (by omega) (by omega)
    have hpos : 0 < matrices g.weight * (g.inout_h.toNat * g.out_tiles) :=
      Nat.mul_pos g.matrices_pos (Nat.mul_pos hh ht)
    rw [Int.toNat_of_nonpos (le_of_lt hneg), Nat.zero_mul, Nat.mul_zero] at hlen
    omega
  refine ⟨hlt, ?_⟩
  rw [g.inout_h_eq hlt, g.iter_cnt_eq, Int.toNat_natCast] at hlen
  exact Nat.eq_of_mul_eq_mul_right (Nat.mul_pos hh ht) hlen

/-- Every index stored to is an `int`, and the last output has the largest. -/
theorem accounting_outputs : matrices g.weight * g.inout_h.toNat * g.out_w.toNat ≤ 2 ^ 31 := by
  have hpos : 0 < matrices g.weight * g.inout_h.toNat * g.out_w.toNat :=
    Nat.mul_pos (Nat.mul_pos g.matrices_pos g.inout_h_pos) g.out_w_pos
  have hlast : ((matrices g.weight * g.inout_h.toNat * g.out_w.toNat - 1 : ℕ) : ℤ) ∈
      stores g.launch := by
    refine h.stores.mem_iff.mpr (List.mem_map.mpr ⟨_, List.mem_range.mpr ?_, rfl⟩)
    omega
  simp only [stores, List.mem_flatMap, List.mem_filterMap] at hlast
  obtain ⟨ch, -, tid, -, step, hstep, hout⟩ := hlast
  obtain ⟨sum, rfl, hsum⟩ := Option.map_eq_some_iff.mp hout
  have hlt := aligned_reduce_out_lt g.launch hstep
  rw [hsum] at hlt
  omega

theorem accounting_out_w : g.out_w.toNat = 4096 := by
  have hcount := (accounting_count h).2
  have hout := accounting_outputs h
  have hpos := g.inout_h_pos
  have hle : matrices g.weight * 1 * g.out_w.toNat ≤ matrices g.weight * g.inout_h.toNat *
      g.out_w.toNat :=
    Nat.mul_le_mul_right _ (Nat.mul_le_mul_left _ hpos)
  have hmul : matrices g.weight * g.out_tiles = matrices g.weight * 1 := by
    have heq : matrices g.weight * 1 * g.out_w.toNat = 4096 * (matrices g.weight * g.out_tiles) := by
      rw [g.out_w_eq]; ring
    omega
  rw [g.out_w_eq, Nat.eq_of_mul_eq_mul_left g.matrices_pos hmul]

/-- A visit of the product is some iteration's. -/
theorem accounting_visit {m r : ℕ} (hm : m < matrices g.weight) (hr : r < g.inout_h.toNat) :
    ∃ i r', i < matrices g.weight ∧ r' < g.inout_h.toNat ∧
      int32 (((i * g.inout_h.toNat + r') * (16 * g.in_pairs) : ℕ) : ℤ) =
        (((m * g.inout_h.toNat + r) * (16 * g.in_pairs) : ℕ) : ℤ) ∧
      i * int32 ((g.in_w.toNat * g.out_w.toNat * 2 : ℕ) : ℤ) =
        ((m * (g.in_w.toNat * g.out_w.toNat * 2) : ℕ) : ℤ) := by
  obtain ⟨hlt, hcount⟩ := accounting_count h
  have hmem : (⟨(((m * g.inout_h.toNat + r) * g.in_w.toNat * 2 : ℕ) : ℤ),
      ((m * (g.in_w.toNat * g.out_w.toNat * 2) : ℕ) : ℤ), ((0 * g.in_pairs : ℕ) : ℤ)⟩ : Visit) ∈
      (aligned_sessions g.launch).map visit := by
    refine h.visits.mem_iff.mpr ?_
    simp only [productVisits, List.mem_flatMap, List.mem_map, List.mem_range]
    exact ⟨m, hm, r, hr, 0, g.out_tiles_pos, rfl⟩
  rw [aligned_sessions_eq] at hmem
  simp only [List.mem_flatMap, List.mem_map, List.mem_range] at hmem
  obtain ⟨s, ⟨i, hi, r', hr', o, -, rfl⟩, hvisit⟩ := hmem
  rw [g.visit_aligned, g.inout_h_eq hlt] at hvisit
  rw [g.inout_h_eq hlt] at hr'
  rw [g.iter_cnt_eq, Int.toNat_natCast, hcount] at hi
  refine ⟨i, r', hi, hr', ?_, congrArg Visit.weight hvisit⟩
  have hinput := congrArg Visit.input hvisit
  simp only [g.in_w_eq] at hinput
  have hscale : (((m * g.inout_h.toNat + r) * (256 * g.in_pairs) * 2 : ℕ) : ℤ) =
      (((m * g.inout_h.toNat + r) * (16 * g.in_pairs) : ℕ) : ℤ) * 32 := by push_cast; ring
  rw [hscale] at hinput
  exact Int.eq_of_mul_eq_mul_right (by norm_num) hinput

theorem accounting_rows :
    (matrices g.weight * g.inout_h.toNat - 1) * (16 * g.in_pairs) < 2 ^ 31 := by
  have hm := g.matrices_pos
  have hr := g.inout_h_pos
  obtain ⟨i, r', -, -, hrow, -⟩ := accounting_visit h
    (m := matrices g.weight - 1) (r := g.inout_h.toNat - 1) (by omega) (by omega)
  have hlast : (matrices g.weight - 1) * g.inout_h.toNat + (g.inout_h.toNat - 1) =
      matrices g.weight * g.inout_h.toNat - 1 := by
    have hle : 1 * g.inout_h.toNat ≤ matrices g.weight * g.inout_h.toNat := Nat.mul_le_mul_right _ hm
    rw [Nat.sub_mul]
    omega
  have hlt := int32_lt (((i * g.inout_h.toNat + r') * (16 * g.in_pairs) : ℕ) : ℤ)
  rw [hrow, hlast] at hlt
  exact_mod_cast hlt

/-- The second matrix is one exact step away. -/
theorem accounting_step : matrices g.weight = 1 ∨ g.in_w.toNat * 8192 < 2 ^ 31 := by
  have hm := g.matrices_pos
  rcases Nat.lt_or_ge 1 (matrices g.weight) with htwo | hone
  · right
    obtain ⟨i, r', hi, hr', hrow, hweight⟩ := accounting_visit h (m := 1) (r := 0) htwo g.inout_h_pos
    rw [g.row_offset_eq (accounting_rows h) (g.mem_rows hi hr'), Nat.cast_inj] at hrow
    have hpairs := g.in_pairs_pos
    have hpos := g.inout_h_pos
    have hq : i * g.inout_h.toNat + r' = 1 * g.inout_h.toNat + 0 :=
      Nat.eq_of_mul_eq_mul_right (by omega) hrow
    have hi1 : i = 1 := by
      have hdiv := congrArg (· / g.inout_h.toNat) hq
      simp only [Nat.mul_comm _ g.inout_h.toNat, Nat.mul_add_div hpos, Nat.div_eq_of_lt hr',
        Nat.add_zero, Nat.mul_one, Nat.div_self hpos] at hdiv
      exact hdiv
    have hlt := int32_lt ((g.in_w.toNat * g.out_w.toNat * 2 : ℕ) : ℤ)
    rw [hi1, Nat.cast_one, one_mul, one_mul] at hweight
    rw [hweight, accounting_out_w h] at hlt
    omega
  · left; omega

end Accounting

/-- The kernel accounts for every tile exactly when there is one output tile and nothing leaves the
    range of an `int`. -/
theorem tile_accounting_iff : TileAccounting g ↔ g.Fits :=
  ⟨fun h => ⟨accounting_out_w h, accounting_out_w h ▸ accounting_outputs h, accounting_rows h,
    accounting_step h⟩, Fits.accounting⟩

end AlignedGemm

/-- The smallest product with two output tiles. -/
def twoTiles : AlignedGemm := .of 1 1 1 256 8192 (by decide)

/-- Its two visits take four sessions, the last two with the weight pointer at the weight's end. -/
theorem two_tiles_misaccounted : ¬ TileAccounting twoTiles ∧ byteSize twoTiles.weight = 2 ^ 22 ∧
    (productVisits twoTiles).map Visit.weight = [0, 0] ∧
    (aligned_sessions twoTiles.launch).map (fun s => (visit s).weight) = [0, 0, 2 ^ 22, 2 ^ 22] := by
  have hvisits : (productVisits twoTiles).map Visit.weight = [0, 0] := by decide
  have hsessions : (aligned_sessions twoTiles.launch).map (fun s => (visit s).weight) =
      [0, 0, 2 ^ 22, 2 ^ 22] := by decide +kernel
  refine ⟨fun h => ?_, rfl, hvisits, hsessions⟩
  have hlen := h.visits.length_eq
  have hfour := congrArg List.length hsessions
  have htwo := congrArg List.length hvisits
  simp only [List.length_map, List.length_cons, List.length_nil] at hlen hfour htwo
  omega

end PimLibrary.Kernel
