import PimLibrary.Manager.HeapFree

/-! Runs of `SimpleHeap`.

    Every run of allocations of at least one byte keeps the representation invariant, and no assertion
    fails, as long as no padded size overflows: from `2 ^ 64 - 2 ^ 39` bytes on `(float)bytes` is
    `2 ^ 64`, and nothing is left of it in a `size_t`. The regions asked for are disjoint as long as no
    size is zero or rounded down: `(float)bytes` drops up to half a unit of the last place above 2^24
    bytes, and a region that is longer than its fragment runs into the next one. -/

namespace PimLibrary.Manager
open Schemes.Word Schemes.OrdMap Schemes.Tiling Schemes.Trace

variable {block_size : ℕ} {h : SimpleHeap}

/-! ### The regions in use -/

/-- The fragments of all blocks follow one another in the address space. -/
theorem HeapInv.allFrags_pairwise (hinv : HeapInv block_size h) :
    (allFrags h.block_list_).Pairwise fun x y => x.1 + x.2.size ≤ y.1 := by
  refine List.pairwise_flatMap.mpr ⟨fun b hb => (hinv.blocks b hb).tiles.pairwise, ?_⟩
  refine hinv.sorted.imp_of_mem ?_
  intro b b' hb hb' hlt x hx y hy
  have hx' := ((hinv.blocks b hb).tiles.bounds hx).2.2
  have hy' := ((hinv.blocks b' hb').tiles.bounds hy).1
  rcases hinv.apart (mem_bases_of_mem hb) (mem_bases_of_mem hb') hlt.ne with hle | hle <;> omega

theorem HeapInv.usedRegions_pairwise (hinv : HeapInv block_size h) :
    (usedRegions h).Pairwise fun r r' => r.1 + r.2 ≤ r'.1 := by
  refine List.pairwise_filterMap.mpr (hinv.allFrags_pairwise.imp ?_)
  intro x y hxy r hr r' hr'
  rw [usedRegion_eq_some.mp hr, usedRegion_eq_some.mp hr'] at hxy
  exact hxy

/-- A region in use lies in a block and is not empty. -/
theorem HeapInv.usedRegion_bounds (hinv : HeapInv block_size h) {r : ℕ × ℕ} (hr : r ∈ usedRegions h) :
    ∃ b ∈ h.block_list_, b.1 ≤ r.1 ∧ 0 < r.2 ∧ r.1 + r.2 ≤ b.1 + block_size := by
  obtain ⟨b, hb, hx⟩ := mem_usedRegions.mp hr
  exact ⟨b, hb, (hinv.blocks b hb).tiles.bounds hx⟩

theorem HeapInv.usedRegions_nodup (hinv : HeapInv block_size h) :
    ((usedRegions h).map Prod.fst).Nodup := by
  refine List.pairwise_map.mpr (hinv.usedRegions_pairwise.imp_of_mem ?_)
  intro r r' hr _ hle
  obtain ⟨-, -, -, hpos, -⟩ := hinv.usedRegion_bounds hr
  omega

theorem HeapInv.usedRegions_disjoint (hinv : HeapInv block_size h) {r r' : ℕ × ℕ}
    (hr : r ∈ usedRegions h)
    (hr' : r' ∈ usedRegions h) (hne : r.1 ≠ r'.1) : r.1 + r.2 ≤ r'.1 ∨ r'.1 + r'.2 ≤ r.1 := by
  have hsymm : Std.Symm fun r r' : ℕ × ℕ => r.1 + r.2 ≤ r'.1 ∨ r'.1 + r'.2 ≤ r.1 := ⟨fun _ _ => Or.symm⟩
  have hpair : (usedRegions h).Pairwise fun r r' => r.1 + r.2 ≤ r'.1 ∨ r'.1 + r'.2 ≤ r.1 :=
    hinv.usedRegions_pairwise.imp Or.inl
  exact hpair.forall hr hr' fun heq => hne (congrArg Prod.fst heq)

/-! ### The heap and its user -/

/-- The pointers handed out and not freed are those of the used fragments. -/
structure UseInv (block_size : ℕ) (u : HeapUse) : Prop where
  heap : HeapInv block_size u.heap
  live : ((usedRegions u.heap).map Prod.fst).Perm (u.live.map Prod.fst)

/-- Every region asked for lies in its fragment. -/
def RegionsFit (u : HeapUse) : Prop := ∀ l ∈ u.live, ∃ size, (l.1, size) ∈ usedRegions u.heap ∧
    l.2 ≤ size

/-- The allocation is of a positive size after rounding, and the block allocator answers as it
    should. -/
def Allowed (block_size : ℕ) (u : HeapUse) : HeapOp → Prop
  | .alloc bytes fresh => 0 < get_aligned_bytes bytes ∧ FreshBlock block_size u.heap fresh
  | _ => True

/-- The size is not rounded down, unless the request is refused for it. -/
def NotRoundedDown (block_size : ℕ) : HeapOp → Prop
  | .alloc bytes _ => block_size < get_aligned_bytes bytes ∨ bytes ≤ get_aligned_bytes bytes
  | _ => True

/-- What one operation does to the heap and the live pointers. -/
structure StepOk (block_size : ℕ) (u : HeapUse) (op : HeapOp) (u' : HeapUse) : Prop where
  inv : UseInv block_size u'
  fit : NotRoundedDown block_size op → RegionsFit u → RegionsFit u'

variable {u : HeapUse}

theorem alloc_step (hinv : UseInv block_size u) {bytes : ℕ} {fresh : Option ℕ}
    (hallowed : Allowed block_size u (.alloc bytes fresh)) :
    ∃ now, heapStep block_size u (.alloc bytes fresh) = some now ∧
      StepOk block_size u (.alloc bytes fresh) now.1 := by
  obtain ⟨h', ptr, halloc, hinv', ⟨rfl, rfl⟩ | ⟨p, rfl, hle, hused⟩⟩ :=
    alloc_spec hinv.heap hallowed.1 hallowed.2
  · refine ⟨⟨u, []⟩, by simp [heapStep, halloc], hinv, fun _ hfit => hfit⟩
  · refine ⟨⟨⟨h', (p, bytes) :: u.live⟩, []⟩, by simp [heapStep, halloc], ⟨hinv', ?_⟩, ?_⟩
    · exact (hused.map Prod.fst).trans (hinv.live.cons p)
    · intro hround hfit l hl
      have hbytes : bytes ≤ get_aligned_bytes bytes := by
        rcases hround with hlarge | hbytes
        · exact absurd hle (not_le.mpr hlarge)
        · exact hbytes
      rcases List.mem_cons.mp hl with rfl | hl
      · exact ⟨_, hused.mem_iff.mpr List.mem_cons_self, hbytes⟩
      · obtain ⟨size, hmem, hsize⟩ := hfit l hl
        exact ⟨size, hused.mem_iff.mpr (List.mem_cons_of_mem _ hmem), hsize⟩

theorem free_step (hinv : UseInv block_size u) (ptr : ℕ) :
    ∃ now, heapStep block_size u (.free ptr) = some now ∧ StepOk block_size u (.free ptr) now.1 := by
  by_cases hused : ∃ size, (ptr, size) ∈ usedRegions u.heap
  · obtain ⟨size, hused⟩ := hused
    obtain ⟨h', released, hfree, hinv', hperm⟩ := free_used hinv.heap hused
    have hlive : (u.live.map Prod.fst).Perm (ptr :: (usedRegions h').map Prod.fst) :=
      hinv.live.symm.trans (hperm.map Prod.fst)
    have hgone : ptr ∉ (usedRegions h').map Prod.fst :=
      (List.nodup_cons.mp ((hperm.map Prod.fst).nodup_iff.mp hinv.heap.usedRegions_nodup)).1
    refine ⟨⟨⟨h', u.live.filter fun p => decide (p.1 ≠ ptr)⟩, released⟩, by simp [heapStep, hfree],
      ⟨hinv', ?_⟩, ?_⟩
    · have hrest : ((usedRegions h').map Prod.fst).filter (fun p => decide (p ≠ ptr)) =
          (usedRegions h').map Prod.fst :=
        List.filter_eq_self.mpr fun p hp => decide_eq_true fun heq => hgone (heq ▸ hp)
      have hfilter := hlive.filter fun p => decide (p ≠ ptr)
      rw [List.filter_cons_of_neg (by simp), hrest, List.filter_map] at hfilter
      exact hfilter.symm
    · intro _ hfit l hl
      obtain ⟨hl, hne⟩ := List.mem_filter.mp hl
      obtain ⟨size', hmem, hsize⟩ := hfit l hl
      rcases List.mem_cons.mp (hperm.mem_iff.mp hmem) with heq | hmem
      · exact absurd (congrArg Prod.fst heq) (of_decide_eq_true hne)
      · exact ⟨size', hmem, hsize⟩
  · have hunused := not_exists.mp hused
    have hfree := free_unused hinv.heap hunused
    -- a null pointer is not live
    have hlive : u.live.filter (fun p => decide (p.1 ≠ ptr)) = u.live := by
      refine List.filter_eq_self.mpr fun l hl => decide_eq_true ?_
      rintro rfl
      obtain ⟨r, hr, heq⟩ := List.mem_map.mp (hinv.live.mem_iff.mpr (List.mem_map_of_mem hl))
      exact hunused r.2 (heq ▸ hr)
    refine ⟨⟨u, []⟩, ?_, hinv, fun _ hfit => hfit⟩
    rw [heapStep, hfree]
    simp only [hlive, ite_self]

theorem trim_step (hinv : UseInv block_size u) :
    ∃ now, heapStep block_size u .trim = some now ∧ StepOk block_size u .trim now.1 := by
  have hsub : (bases { u.heap with block_cache_ := [], cache_size_ := 0 }).Sublist (bases u.heap) := by
    simp [bases]
  refine ⟨⟨⟨_, u.live⟩, u.heap.block_cache_⟩, rfl,
    ⟨⟨hinv.heap.blocks, hinv.heap.sorted, hinv.heap.free_list, ?_, hinv.heap.disjoint.sublist hsub,
      ?_, hinv.heap.in_use_size, rfl⟩, hinv.live⟩, fun _ hfit => hfit⟩
  · intro b hb
    cases hb
  · intro b hb
    exact hinv.heap.nonnull b (hsub.subset hb)

/-- Every allowed operation is defined and keeps the invariant. -/
theorem heapStep_spec (hinv : UseInv block_size u) {op : HeapOp} (hallowed : Allowed block_size u op) :
    ∃ now, heapStep block_size u op = some now ∧ StepOk block_size u op now.1 := by
  cases op with
  | alloc bytes fresh => exact alloc_step hinv hallowed
  | free ptr => exact free_step hinv ptr
  | trim => exact trim_step hinv

theorem useInv_empty (block_size : ℕ) : UseInv block_size {} :=
  ⟨heapInv_empty block_size, List.Perm.nil⟩

/-! ### Sizes -/

theorem align_size_pos : 0 < align_size_ := by norm_num [align_size_]

/-- Sizes from here on are padded to `2 ^ 64`, and as a `size_t` to nothing. -/
def overflow_size : ℕ := 2 ^ 64 - 2 ^ 39

/-- Below, the padded size is a `size_t`. -/
theorem get_aligned_bytes_eq {bytes : ℕ} (h : bytes < overflow_size) :
    get_aligned_bytes bytes = ceil_align align_size_ bytes := by
  have hfloat : float32 bytes ≤ 2 ^ 64 - 2 ^ 40 := by
    rcases Nat.lt_or_ge bytes (2 ^ 63) with hlt | hge
    · have hdvd : ulp bytes ∣ 2 ^ 63 := (ulp_dvd_two_pow (k := 39) hlt).trans (pow_dvd_pow 2 (by norm_num))
      have := float32_le hlt.le hdvd
      omega
    · have hulp : ulp bytes = 2 ^ 40 := ulp_top hge (h.trans (by norm_num [overflow_size]))
      by_contra hlt
      have hgap := add_ulp_le (x := bytes) (a := 2 ^ 64 - 2 ^ 40) (by rw [hulp]; norm_num)
        (ulp_dvd_float32 bytes) (not_le.mp hlt)
      have hdist := (float32_dist bytes).2
      rw [hulp] at hgap hdist
      rw [overflow_size] at h
      omega
  have hdvd : align_size_ ∣ 2 ^ 64 - 2 ^ 40 := by norm_num [align_size_]
  have hle := ceil_align_le align_size_pos hfloat hdvd
  exact uint64_of_lt (hle.trans_lt (by norm_num))

/-- From there on nothing is left of a `size_t`. -/
theorem get_aligned_bytes_overflow {bytes : ℕ} (h : overflow_size ≤ bytes) (hlt : bytes < 2 ^ 64) :
    get_aligned_bytes bytes = 0 := by
  rw [overflow_size] at h
  have hfloat : float32 bytes = 2 ^ 64 := by
    have hulp : 2 ^ (Nat.log2 bytes - 23) = 2 ^ 40 := ulp_top (by omega) hlt
    rw [float32, hulp, if_pos (by omega)]
    omega
  rw [get_aligned_bytes, ceil_align, hfloat]
  rfl

/-- A size of at least one byte stays positive below the overflow. -/
theorem get_aligned_bytes_pos {bytes : ℕ} (h : 0 < bytes) (hlt : bytes < overflow_size) :
    0 < get_aligned_bytes bytes := by
  have hulp : ulp bytes ≤ bytes := by
    rw [ulp]
    exact (Nat.pow_le_pow_right (by norm_num) (Nat.sub_le _ _)).trans (Nat.log2_self_le h.ne')
  have hfloat : 0 < float32 bytes := (ulp_pos bytes).trans_le (le_float32 hulp (dvd_refl _))
  rw [get_aligned_bytes_eq hlt]
  exact hfloat.trans_le (float32_le_ceil_align align_size_pos bytes)

/-- A size is cut exactly when its padding overflows, or when single precision rounds it down to a
    multiple of the alignment. -/
theorem get_aligned_bytes_lt_iff {bytes : ℕ} (hlt : bytes < 2 ^ 64) :
    get_aligned_bytes bytes < bytes ↔
      overflow_size ≤ bytes ∨ float32 bytes < bytes ∧ align_size_ ∣ float32 bytes := by
  rcases Nat.lt_or_ge bytes overflow_size with hsmall | hlarge
  · have hpow : align_size_ = 2 ^ 21 := by norm_num [align_size_]
    rw [get_aligned_bytes_eq hsmall, hpow, ceil_align_lt_iff 21 bytes, or_iff_right (not_le.mpr hsmall)]
  · have hpos : 0 < overflow_size := by norm_num [overflow_size]
    rw [get_aligned_bytes_overflow hlarge hlt]
    exact iff_of_true (hpos.trans_le hlarge) (Or.inl hlarge)

/-! ### Runs -/

/-- An allocation of at least one byte whose padded size does not overflow, for which the block
    allocator answers null or a fresh block. -/
def AllocPositive (block_size : ℕ) (u : HeapUse) : HeapOp → Prop
  | .alloc bytes fresh => (1 ≤ bytes ∧ bytes < overflow_size) ∧ FreshBlock block_size u.heap fresh
  | _ => True

theorem AllocPositive.allowed {op : HeapOp} (h : AllocPositive block_size u op) :
    Allowed block_size u op := by
  cases op with
  | alloc bytes fresh => exact ⟨get_aligned_bytes_pos h.1.1 h.1.2, h.2⟩
  | free ptr => trivial
  | trim => trivial

/-- A run of such operations is defined and keeps the invariant with its user. -/
theorem heap_runs_inv (block_size : ℕ) (ops : List HeapOp)
    (hops : Along (heapStep block_size) (fun u _ op => AllocPositive block_size u op) {} [] ops) :
    ∃ u released, runSteps (heapStep block_size) {} ops = some (u, released) ∧ UseInv block_size u := by
  have hstep : ∀ (u : HeapUse) (released : List Block) (op : HeapOp), AllocPositive block_size u op →
      UseInv block_size u → ∃ now, heapStep block_size u op = some now ∧ UseInv block_size now.1 := by
    intro u _ op hop hinv
    obtain ⟨now, hnow, hok⟩ := heapStep_spec hinv hop.allowed
    exact ⟨now, hnow, hok.inv⟩
  obtain ⟨⟨u, released⟩, hrun, hinv⟩ := runSteps_progress hstep hops (useInv_empty block_size)
  exact ⟨u, released, hrun, hinv⟩

/-- After every run of such operations the representation invariant holds, and no operation was
    undefined. -/
theorem heap_representation_invariant (block_size : ℕ) (ops : List HeapOp)
    (hops : Along (heapStep block_size) (fun u _ op => AllocPositive block_size u op) {} [] ops) :
    ∃ u released, runSteps (heapStep block_size) {} ops = some (u, released) ∧
      HeapInv block_size u.heap := by
  obtain ⟨u, released, hrun, hinv⟩ := heap_runs_inv block_size ops hops
  exact ⟨u, released, hrun, hinv.heap⟩

theorem heap_representation_alloc_free :
    ∃ u released, runSteps (heapStep 536870912) {} [.alloc 100 (some 1048576), .free 1048576, .trim] =
      some (u, released) ∧ HeapInv 536870912 u.heap := by
  refine heap_representation_invariant 536870912 _ ⟨⟨by norm_num [overflow_size], ?_⟩, fun _ _ => ⟨trivial, fun _ _ =>
    ⟨trivial, fun _ _ => trivial⟩⟩⟩
  rintro base ⟨⟩
  exact ⟨by norm_num, by simp [bases]⟩

/-- The largest size is padded to nothing: the new block gets a used fragment without a length in the
    place of its free one, and `free_list_` keeps an entry that has no fragment. -/
theorem heap_invariant_overflow : FreshBlock 536870912 {} (some 1048576) ∧
    ∃ u released, runSteps (heapStep 536870912) {} [.alloc 18446744073709551615 (some 1048576)] =
      some (u, released) ∧ ¬ HeapInv 536870912 u.heap := by
  constructor
  · rintro base ⟨⟩
    exact ⟨by norm_num, by simp [bases]⟩
  · have hrun : (runSteps (heapStep 536870912) {} [.alloc 18446744073709551615 (some 1048576)]).map
        (fun r => (r.1.heap.free_list_.length,
          ((allFrags r.1.heap.block_list_).filterMap freeEntry).length)) = some (1, 0) := by
      decide +kernel
    obtain ⟨⟨u, released⟩, hsome, heq⟩ := Option.map_eq_some_iff.mp hrun
    obtain ⟨hlist, hfrags⟩ := Prod.mk.inj heq
    refine ⟨u, released, hsome, fun hinv => ?_⟩
    have hlength := hinv.free_list.perm.length_eq
    rw [hlist, hfrags] at hlength
    exact absurd hlength (by decide)

/-- The live pointers are distinct, and the regions asked for are disjoint and each in one block. -/
structure LiveDisjoint (block_size : ℕ) (u : HeapUse) : Prop where
  distinct : (u.live.map Prod.fst).Nodup
  disjoint : u.live.Pairwise fun l l' => l.1 + l.2 ≤ l'.1 ∨ l'.1 + l'.2 ≤ l.1
  in_block : ∀ l ∈ u.live, ∃ b ∈ u.heap.block_list_, b.1 ≤ l.1 ∧ l.1 + l.2 ≤ b.1 + block_size

theorem liveDisjoint_of_fit (hinv : UseInv block_size u) (hfit : RegionsFit u) :
    LiveDisjoint block_size u := by
  have hdistinct : (u.live.map Prod.fst).Nodup := hinv.live.nodup_iff.mp hinv.heap.usedRegions_nodup
  refine ⟨hdistinct, (List.pairwise_map.mp hdistinct).imp_of_mem ?_, ?_⟩
  · intro l l' hl hl' hne
    obtain ⟨size, hmem, hsize⟩ := hfit l hl
    obtain ⟨size', hmem', hsize'⟩ := hfit l' hl'
    have hdisjoint := hinv.heap.usedRegions_disjoint hmem hmem' hne
    simp only at hdisjoint
    omega
  · intro l hl
    obtain ⟨size, hmem, hsize⟩ := hfit l hl
    obtain ⟨b, hb, hlo, -, hhi⟩ := hinv.heap.usedRegion_bounds hmem
    exact ⟨b, hb, hlo, (Nat.add_le_add_left hsize _).trans hhi⟩

/-- An allocation that is refused for its size, or one of at least one byte that is not rounded down. -/
def AllocSound (block_size : ℕ) (u : HeapUse) : HeapOp → Prop
  | .alloc bytes fresh =>
    (block_size < get_aligned_bytes bytes ∨ 1 ≤ bytes ∧ bytes ≤ get_aligned_bytes bytes) ∧
      FreshBlock block_size u.heap fresh
  | _ => True

theorem AllocSound.allowed {op : HeapOp} (h : AllocSound block_size u op) :
    Allowed block_size u op ∧ NotRoundedDown block_size op := by
  cases op with
  | alloc bytes fresh =>
    obtain ⟨hlarge | ⟨hpos, hle⟩, hfresh⟩ := h
    · exact ⟨⟨(Nat.zero_le _).trans_lt hlarge, hfresh⟩, Or.inl hlarge⟩
    · exact ⟨⟨Nat.lt_of_lt_of_le hpos hle, hfresh⟩, Or.inr hle⟩
  | free ptr => exact ⟨trivial, trivial⟩
  | trim => exact ⟨trivial, trivial⟩

/-- In every run of such operations the regions handed out are disjoint. -/
theorem heap_regions_disjoint (block_size : ℕ) (ops : List HeapOp)
    (hops : Along (heapStep block_size) (fun u _ op => AllocSound block_size u op) {} [] ops) :
    ∃ u released, runSteps (heapStep block_size) {} ops = some (u, released) ∧
      LiveDisjoint block_size u := by
  have hstep : ∀ (u : HeapUse) (released : List Block) (op : HeapOp), AllocSound block_size u op →
      UseInv block_size u ∧ RegionsFit u →
      ∃ now, heapStep block_size u op = some now ∧ (UseInv block_size now.1 ∧ RegionsFit now.1) := by
    rintro u _ op hop ⟨hinv, hfit⟩
    obtain ⟨now, hnow, hok⟩ := heapStep_spec hinv hop.allowed.1
    exact ⟨now, hnow, hok.inv, hok.fit hop.allowed.2 hfit⟩
  have hinit : RegionsFit {} := fun l hl => by cases hl
  obtain ⟨⟨u, released⟩, hrun, hinv, hfit⟩ :=
    runSteps_progress hstep hops ⟨useInv_empty block_size, hinit⟩
  exact ⟨u, released, hrun, liveDisjoint_of_fit hinv hfit⟩

theorem heap_regions_disjoint_alloc :
    ∃ u released, runSteps (heapStep 536870912) {} [.alloc 100 (some 1048576), .free 1048576] =
      some (u, released) ∧ LiveDisjoint 536870912 u := by
  refine heap_regions_disjoint 536870912 _ ⟨⟨Or.inr ⟨by norm_num, by decide +kernel⟩, ?_⟩, fun _ _ =>
    ⟨trivial, fun _ _ => trivial⟩⟩
  rintro base ⟨⟩
  exact ⟨by norm_num, by simp [bases]⟩

/-- Two empty requests get one pointer; the second of two regions starts inside the first, whose size
    `2 ^ 25 + 1` is rounded to `2 ^ 25`. -/
theorem heap_regions_overlap :
    (∃ u released, runSteps (heapStep 536870912) {}
        [.alloc 2097152 (some 1048576), .alloc 0 none, .alloc 0 none] = some (u, released) ∧
      ¬ LiveDisjoint 536870912 u) ∧
    ∃ u released, runSteps (heapStep 536870912) {} [.alloc 33554433 (some 1048576), .alloc 1 none] =
        some (u, released) ∧ ¬ LiveDisjoint 536870912 u := by
  constructor
  · have hrun : (runSteps (heapStep 536870912) {}
        [.alloc 2097152 (some 1048576), .alloc 0 none, .alloc 0 none]).map (fun r => r.1.live) =
        some [(3145728, 0), (3145728, 0), (1048576, 2097152)] := by decide +kernel
    obtain ⟨⟨u, released⟩, hsome, hlive⟩ := Option.map_eq_some_iff.mp hrun
    refine ⟨u, released, hsome, fun hok => ?_⟩
    have hdistinct := hok.distinct
    rw [hlive] at hdistinct
    exact absurd hdistinct (by decide)
  · have hrun : (runSteps (heapStep 536870912) {} [.alloc 33554433 (some 1048576), .alloc 1 none]).map
        (fun r => r.1.live) = some [(34603008, 1), (1048576, 33554433)] := by decide +kernel
    obtain ⟨⟨u, released⟩, hsome, hlive⟩ := Option.map_eq_some_iff.mp hrun
    refine ⟨u, released, hsome, fun hok => ?_⟩
    have hdisjoint := hok.disjoint
    rw [hlive] at hdisjoint
    exact absurd hdisjoint (by simp)

end PimLibrary.Manager
