import PimLibrary.Manager.HeapAlloc

/-! `SimpleHeap::free` keeps the representation invariant and removes one region.

    Between its lookup and its end the freed fragment is a hole: neither used nor listed as free.
    Each merge widens the hole over a free neighbour; in the end both neighbours are used, so the
    hole is published as one free fragment, or it is the whole block, which moves to the cache. -/

namespace PimLibrary.Manager
open Schemes.Word Schemes.OrdMap Schemes.Tiling

variable {block_size : ℕ} {h : SimpleHeap}

/-! ### Holes -/

/-- The block at `base` with a hole at `at_`, among the blocks `left` and `right`. -/
structure Hole (block_size : ℕ) (left right : List (ℕ × FragMap)) (base node : ℕ)
    (free_list_ : List FreeEntry)
    (pre post : FragMap) (at_ : ℕ) (fragment : Fragment) : Prop where
  tiles : Tiles Fragment.size base (pre ++ (at_, fragment) :: post) (base + block_size)
  free_list : FreeListOk free_list_ node
    ((allFrags left ++ ((pre ++ post) ++ allFrags right)).filterMap freeEntry)
  pre_apart : NoAdjacentFree pre
  post_apart : NoAdjacentFree post

section Merge

variable {left right : List (ℕ × FragMap)} {base node : ℕ} {free_list_ : List FreeEntry}
  {pre post : FragMap}
variable {at_ : ℕ} {fragment : Fragment}

/-- Two neighbouring fragments as one. -/
theorem tiles_merge {lo hi p q s t : ℕ} {e₁ e₂ e : Option ℕ} {xs ys : FragMap}
    (htiles : Tiles Fragment.size lo (xs ++ (p, ⟨e₁, s⟩) :: (q, ⟨e₂, t⟩) :: ys) hi) :
    Tiles Fragment.size lo (xs ++ (p, ⟨e, s + t⟩) :: ys) hi := by
  obtain ⟨mid, hxs, rfl, hs, rfl, ht, hys⟩ := tiles_append.mp htiles
  refine tiles_append.mpr ⟨_, hxs, rfl, Nat.add_pos_left hs t, ?_⟩
  simpa [Nat.add_assoc] using hys

theorem merge_lower_spec (hole : Hole block_size left right base node free_list_ pre post at_ fragment) :
    ∃ free_list_' pre' at_' fragment',
      merge_lower free_list_ (pre ++ (at_, fragment) :: post) at_ fragment =
        (free_list_', pre' ++ (at_', fragment') :: post, at_', fragment') ∧
      Hole block_size left right base node free_list_' pre' post at_' fragment' ∧
      (∀ y ∈ pre'.getLast?, isFree y.2 = false) ∧ pre'.filterMap usedRegion =
        pre.filterMap usedRegion := by
  have hcut : Cut at_ pre post := hole.tiles.sorted.cut
  rw [merge_lower, hcut.below]
  rcases List.eq_nil_or_concat' pre with rfl | ⟨pre', ⟨lower_at, ⟨entry, size⟩⟩, rfl⟩
  · exact ⟨free_list_, [], at_, fragment, rfl, hole, by simp, rfl⟩
  rw [List.getLast?_append_cons]
  rcases entry with - | entry
  · exact ⟨free_list_, _, at_, fragment, rfl, hole, by simp [isFree], rfl⟩
  · have hlower : Cut lower_at pre' ((at_, fragment) :: post) := by
      have hsorted := hole.tiles.sorted
      rw [List.append_assoc] at hsorted
      exact hsorted.cut
    have hmerged : Cut lower_at pre' post :=
      ⟨hlower.lt, fun x hx => hlower.gt x (List.mem_cons_of_mem _ hx)⟩
    obtain ⟨hpre, -, hlast, -⟩ := (noAdjacentFree_free rfl).mp hole.pre_apart
    have htiles := hole.tiles
    rw [List.append_assoc, List.singleton_append] at htiles
    refine ⟨erase_node entry free_list_, pre', lower_at, ⟨some entry, size + fragment.size⟩, ?_,
      ⟨tiles_merge htiles, ?_, hpre, hole.post_apart⟩, hlast, by simp⟩
    · have herase := hcut.erase (v := fragment)
      have hins :=
        hmerged.insert_self (v := ⟨some entry, size⟩) (w := ⟨some entry, size + fragment.size⟩)
      simp only [List.append_assoc, List.singleton_append] at herase
      simp [herase, hins]
    · refine hole.free_list.erase (e := ⟨size, lower_at, entry⟩) ?_
      simpa using perm_middle_append

theorem merge_upper_spec (hole : Hole block_size left right base node free_list_ pre post at_ fragment) :
    ∃ free_list_' post' fragment',
      merge_upper free_list_ (pre ++ (at_, fragment) :: post) at_ fragment =
        (free_list_', pre ++ (at_, fragment') :: post', fragment') ∧
      Hole block_size left right base node free_list_' pre post' at_ fragment' ∧
      (∀ y ∈ post'.head?, isFree y.2 = false) ∧ post'.filterMap usedRegion =
        post.filterMap usedRegion := by
  have hcut : Cut at_ pre post := hole.tiles.sorted.cut
  rw [merge_upper, hcut.above]
  rcases post with - | ⟨⟨upper_at, ⟨entry, size⟩⟩, post'⟩
  · exact ⟨free_list_, [], fragment, rfl, hole, by simp, rfl⟩
  rcases entry with - | entry
  · exact ⟨free_list_, _, fragment, rfl, hole, by simp [isFree], rfl⟩
  · have hupper : Cut upper_at (pre ++ [(at_, fragment)]) post' := by
      have hsorted := hole.tiles.sorted
      rw [List.append_cons] at hsorted
      exact hsorted.cut
    have hmerged : Cut at_ pre post' := ⟨hcut.lt, fun x hx => hcut.gt x (List.mem_cons_of_mem _ hx)⟩
    obtain ⟨hhead, hpost⟩ := List.isChain_cons.mp hole.post_apart
    refine ⟨erase_node entry free_list_, post', ⟨fragment.free_list_entry_, fragment.size + size⟩, ?_,
      ⟨tiles_merge hole.tiles, ?_, hole.pre_apart, hpost⟩, ?_, by simp⟩
    · have herase := hupper.erase (v := ⟨some entry, size⟩)
      have hins :=
        hmerged.insert_self (v := fragment) (w := ⟨fragment.free_list_entry_, fragment.size + size⟩)
      simp only [List.append_assoc, List.singleton_append] at herase
      simp [herase, hins]
    · refine hole.free_list.erase (e := ⟨size, upper_at, entry⟩) ?_
      simpa using perm_middle_append
    · intro y hy
      simpa [isFree] using hhead y hy

end Merge

/-! ### The cache -/

/-- What is kept comes after what is released, and the counter follows. -/
theorem evict_spec (in_use_size_ : ℕ) (block_cache_ : List Block) (cache_size_ : ℕ)
    (hsum : cache_size_ = (block_cache_.map Block.length_).sum) :
    let out := evict in_use_size_ block_cache_ cache_size_
    block_cache_ = out.2 ++ out.1.1 ∧ out.1.2 = (out.1.1.map Block.length_).sum := by
  induction block_cache_ generalizing cache_size_ with
  | nil => exact ⟨rfl, hsum⟩
  | cons block rest ih =>
    rcases rest with - | ⟨next, rest⟩
    · exact ⟨rfl, hsum⟩
    · rw [evict]
      split_ifs
      · have hrest : cache_size_ - block.length_ = ((next :: rest).map Block.length_).sum := by
          rw [hsum, List.map_cons, List.sum_cons, Nat.add_sub_cancel_left]
        obtain ⟨hlist, hsize⟩ := ih _ hrest
        exact ⟨congrArg (block :: ·) hlist, hsize⟩
      · exact ⟨rfl, hsum⟩

/-- Releasing old blocks keeps the invariant. -/
theorem HeapInv.evict (hinv : HeapInv block_size h) :
    HeapInv block_size { h with
      block_cache_ := (evict h.in_use_size_ h.block_cache_ h.cache_size_).1.1
      cache_size_ := (evict h.in_use_size_ h.block_cache_ h.cache_size_).1.2 } := by
  obtain ⟨hlist, hsize⟩ := evict_spec h.in_use_size_ h.block_cache_ h.cache_size_ hinv.cache_size
  generalize Manager.evict h.in_use_size_ h.block_cache_ h.cache_size_ = out at hlist hsize
  have hsub : (h.block_list_.map Prod.fst ++ out.1.1.map Block.base_ptr_).Sublist (bases h) := by
    rw [bases, hlist, List.map_append]
    exact (List.sublist_append_right _ _).append_left _
  refine ⟨hinv.blocks, hinv.sorted, hinv.free_list, ?_, hinv.disjoint.sublist hsub, ?_,
    hinv.in_use_size, hsize⟩
  · intro b hb
    exact hinv.cached b (by rw [hlist]; exact List.mem_append_right _ hb)
  · intro b hb
    exact hinv.nonnull b (hsub.subset hb)

/-! ### The operation -/

section Used

variable {left right : List (ℕ × FragMap)} {base ptr size : ℕ} {pre post : FragMap}

/-- A used fragment that is about to be freed. -/
theorem hole_of_used (hinv : HeapInv block_size h)
    (hlist : h.block_list_ = left ++ (base, pre ++ (ptr, ⟨none, size⟩) :: post) :: right) :
    Hole block_size left right base h.node h.free_list_ pre post ptr ⟨none, size⟩ := by
  have hblock := hinv.blocks (base, pre ++ (ptr, ⟨none, size⟩) :: post) (by rw [hlist]; simp)
  obtain ⟨hpre, hpost⟩ := (noAdjacentFree_used rfl).mp hblock.apart
  have hfree := hinv.free_list
  rw [hlist] at hfree
  exact ⟨hblock.tiles, by simpa using hfree, hpre, hpost⟩

theorem bases_retire {h h' : SimpleHeap} {frag_map : FragMap}
    (hlist : h.block_list_ = left ++ (base, frag_map) :: right) (hlist' : h'.block_list_ =
      left ++ right)
    {length : ℕ} (hcache : h'.block_cache_ = h.block_cache_ ++ [⟨base, length⟩]) : (bases h').Perm
      (bases h) := by
  have hlast := List.perm_append_singleton base (left.map Prod.fst ++ (right.map Prod.fst ++
    h.block_cache_.map Block.base_ptr_))
  simpa [bases, hlist, hlist', hcache] using hlast.trans List.perm_middle.symm

/-- A hole as wide as its block: the block moves to the cache. -/
theorem retire_spec (hinv : HeapInv block_size h) {free_list_ : List FreeEntry} {at_ : ℕ}
    {fragment : Fragment}
    (hlist : h.block_list_ = left ++ (base, pre ++ (ptr, ⟨none, size⟩) :: post) :: right)
    (hole : Hole block_size left right base h.node free_list_ [] [] at_ fragment) :
    HeapInv block_size (retire { h with free_list_ := free_list_ } base at_ fragment).1 ∧
      (retire { h with free_list_ := free_list_ } base at_ fragment).1.block_list_ = left ++ right := by
  obtain ⟨rfl, hpos, hend⟩ := tiles_singleton.mp hole.tiles
  have hsize : fragment.size = block_size := Nat.add_left_cancel hend
  have hcut : Cut at_ left right := (hlist ▸ hinv.sorted).cut
  have hblock := hinv.blocks (at_, pre ++ (ptr, ⟨none, size⟩) :: post) (by rw [hlist]; simp)
  have hretired : HeapInv block_size { h with
      free_list_ := free_list_
      block_list_ := left ++ right
      block_cache_ := h.block_cache_ ++ [⟨at_, block_size⟩]
      in_use_size_ := h.in_use_size_ - block_size
      cache_size_ := h.cache_size_ + block_size } := by
    refine ⟨?_, ?_, ?_, ?_, ?_, ?_, ?_, ?_⟩
    · intro b hb
      refine hinv.blocks b ?_
      rw [hlist]
      exact List.mem_append.mpr ((List.mem_append.mp hb).imp_right (List.mem_cons_of_mem _))
    · exact (sorted_append_cons.mp (hlist ▸ hinv.sorted)).1
    · simpa using hole.free_list
    · intro b hb
      rcases List.mem_append.mp hb with hb | hb
      · exact hinv.cached b hb
      · cases List.mem_singleton.mp hb
        rfl
    · refine (List.Perm.pairwise_iff symm ?_).mpr hinv.disjoint
      exact bases_retire hlist rfl rfl
    · intro b hb
      refine hinv.nonnull b ((List.Perm.mem_iff ?_).mp hb)
      exact bases_retire hlist rfl rfl
    · have hlen := hblock.tiles.sum
      have hin := hinv.in_use_size
      rw [hlist] at hin
      simp [blockLength] at hin hlen ⊢
      omega
    · simp [hinv.cache_size]
  have hevict := hretired.evict
  rw [retire, hlist, hcut.erase, hsize]
  exact ⟨hevict, rfl⟩

/-- A hole between used fragments becomes a free fragment. -/
theorem publish_spec (hinv : HeapInv block_size h) {free_list_ : List FreeEntry}
    {pre' post' : FragMap} {at_ : ℕ}
    {fragment : Fragment}
    (hlist : h.block_list_ = left ++ (base, pre ++ (ptr, ⟨none, size⟩) :: post) :: right)
    (hole : Hole block_size left right base h.node free_list_ pre' post' at_ fragment)
    (hlast : ∀ y ∈ pre'.getLast?, isFree y.2 = false) (hhead : ∀ y ∈ post'.head?, isFree y.2 = false)
    (hmore : (pre' ++ (at_, fragment) :: post').length ≠ 1) :
    HeapInv block_size { h with
      free_list_ := insert_node ⟨fragment.size, at_, h.node⟩ free_list_
      block_list_ := left ++ (base, pre' ++ (at_, setFree fragment h.node) :: post') :: right
      node := h.node + 1 } := by
  refine hinv.replace hlist ⟨hole.tiles.update rfl, ?_, ?_⟩ ?_
  · exact (noAdjacentFree_free rfl).mpr ⟨hole.pre_apart, hole.post_apart, hlast, hhead⟩
  · rcases List.eq_nil_or_concat' pre' with rfl | ⟨pre', y, rfl⟩
    · rcases post' with - | ⟨y, post'⟩
      · exact absurd rfl hmore
      · exact ⟨y, by simp, hhead y rfl⟩
    · exact ⟨y, by simp, hlast y (by simp)⟩
  · refine (hole.free_list.insert fragment.size at_).of_perm ?_
    simpa [setFree] using perm_middle_append.symm

theorem usedRegions_hole {pre' post' : FragMap} {h h' : SimpleHeap}
    (hlist : h.block_list_ = left ++ (base, pre ++ (ptr, ⟨none, size⟩) :: post) :: right)
    (hpre : pre'.filterMap usedRegion = pre.filterMap usedRegion)
    (hpost : post'.filterMap usedRegion = post.filterMap usedRegion)
    (hused' : usedRegions h' = (allFrags left ++ ((pre' ++ post') ++ allFrags right)).filterMap
      usedRegion) :
    (usedRegions h).Perm ((ptr, size) :: usedRegions h') := by
  rw [hused']
  simpa [usedRegions, hlist, hpre, hpost] using perm_middle_append

end Used

/-- A used region has its fragment in a block. -/
theorem fragment_of_used {ptr size : ℕ} (hused : (ptr, size) ∈ usedRegions h) :
    ∃ left right base pre post, h.block_list_ =
      left ++ (base, pre ++ (ptr, ⟨none, size⟩) :: post) :: right := by
  obtain ⟨⟨base, frag_map⟩, hb, hmem⟩ := mem_usedRegions.mp hused
  obtain ⟨left, right, hlist⟩ := List.append_of_mem hb
  obtain ⟨pre, post, rfl⟩ := List.append_of_mem hmem
  exact ⟨left, right, base, pre, post, hlist⟩

/-- What `free` does to a used fragment: the hole that the merges leave is the whole block, which is
    retired, or it is published as a free fragment. -/
theorem free_cases (hinv : HeapInv block_size h) {left right : List (ℕ × FragMap)} {base ptr size : ℕ}
    {pre post : FragMap}
      (hlist : h.block_list_ = left ++ (base, pre ++ (ptr, ⟨none, size⟩) :: post) :: right) :
    ∃ free_list_ pre' at_ fragment post',
      Hole block_size left right base h.node free_list_ pre' post' at_ fragment ∧
      ((∀ y ∈ pre'.getLast?, isFree y.2 = false) ∧ pre'.filterMap usedRegion =
        pre.filterMap usedRegion) ∧
      ((∀ y ∈ post'.head?, isFree y.2 = false) ∧ post'.filterMap usedRegion =
        post.filterMap usedRegion) ∧
      ((pre' = [] ∧ post' = [] ∧
          free h ptr = ((retire { h with free_list_ := free_list_ } base at_ fragment).1, true,
            (retire { h with free_list_ := free_list_ } base at_ fragment).2)) ∨
        ((pre' ++ (at_, fragment) :: post').length ≠ 1 ∧
          free h ptr = ({ h with
            free_list_ := insert_node ⟨fragment.size, at_, h.node⟩ free_list_
            block_list_ := left ++ (base, pre' ++ (at_, setFree fragment h.node) :: post') :: right
            node := h.node + 1 }, true, []))) := by
  have hole := hole_of_used hinv hlist
  have hbounds := hole.tiles.bounds (x := (ptr, ⟨none, size⟩)) (by simp)
  have hfloor :=
    hinv.floor_eq hlist hbounds.1 (lt_of_lt_of_le (Nat.lt_add_of_pos_right hbounds.2.1) hbounds.2.2)
  have hbase :=
    hinv.nonnull base (mem_bases_of_mem (b := (base, pre ++ (ptr, ⟨none, size⟩) :: post))
      (by rw [hlist]; simp))
  have hptr : ptr ≠ 0 := by
    have hlo : base ≤ ptr := hbounds.1
    omega
  have hcut : Cut ptr pre post := hole.tiles.sorted.cut
  have hblocks : Cut base left right := (hlist ▸ hinv.sorted).cut
  obtain ⟨free_list₁, pre', at_, fragment₁, hlower, hole₁, hpre⟩ := merge_lower_spec hole
  obtain ⟨free_list₂, post', fragment₂, hupper, hole₂, hpost⟩ := merge_upper_spec hole₁
  have hdef : free h ptr =
      if (pre' ++ (at_, fragment₂) :: post').length = 1 then
        ((retire { h with free_list_ := free_list₂ } base at_ fragment₂).1, true,
          (retire { h with free_list_ := free_list₂ } base at_ fragment₂).2)
      else ({ h with
        free_list_ := insert_node ⟨fragment₂.size, at_, h.node⟩ free_list₂
        block_list_ := left ++ (base, pre' ++ (at_, setFree fragment₂ h.node) :: post') :: right
        node := h.node + 1 }, true, []) := by
    have hat : Cut at_ pre' post' := hole₂.tiles.sorted.cut
    rw [free, if_neg hptr, hfloor]
    simp only [hcut.find, isFree, hlower, hupper, hat.insert_self, hlist, hblocks.insert_self]
    rfl
  refine ⟨free_list₂, pre', at_, fragment₂, post', hole₂, hpre, hpost, ?_⟩
  rw [hdef]
  split_ifs with hone
  · rw [List.length_append, List.length_cons] at hone
    exact Or.inl ⟨List.eq_nil_of_length_eq_zero (by omega), List.eq_nil_of_length_eq_zero (by omega), rfl⟩
  · exact Or.inr ⟨hone, rfl⟩

/-- Freeing a used fragment removes its region and no other. -/
theorem free_used (hinv : HeapInv block_size h) {ptr size : ℕ} (hused : (ptr, size) ∈ usedRegions h) :
    ∃ h' released, free h ptr = (h', true, released) ∧ HeapInv block_size h' ∧
      (usedRegions h).Perm ((ptr, size) :: usedRegions h') := by
  obtain ⟨left, right, base, pre, post, hlist⟩ := fragment_of_used hused
  obtain ⟨free_list_, pre', at_, fragment, post', hole, ⟨hlast, hpre⟩, ⟨hhead, hpost⟩, hcases⟩ :=
    free_cases hinv hlist
  rcases hcases with ⟨rfl, rfl, hfree⟩ | ⟨hmore, hfree⟩
  · obtain ⟨hretire, hlist'⟩ := retire_spec hinv hlist hole
    exact ⟨_, _, hfree, hretire, usedRegions_hole hlist hpre hpost (by simp [usedRegions, hlist'])⟩
  · exact ⟨_, _, hfree, publish_spec hinv hlist hole hlast hhead hmore,
      usedRegions_hole hlist hpre hpost (by simp [usedRegions, setFree])⟩

/-- Everything else is refused, or null. -/
theorem free_unused (hinv : HeapInv block_size h) {ptr : ℕ}
    (hunused : ∀ size, (ptr, size) ∉ usedRegions h) :
    free h ptr = (h, decide (ptr = 0), []) := by
  rw [free]
  split_ifs with hnull
  · simp [hnull]
  rcases hfloor : floor ptr h.block_list_ with - | ⟨base, frag_map⟩
  · simp [hnull]
  obtain ⟨left, right, hlist, -⟩ := hinv.sorted.floor_eq_some hfloor
  have hblock := hinv.blocks (base, frag_map) (by simp [hlist])
  rcases hfind : find ptr frag_map with - | ⟨entry, size⟩
  · simp [hfind, hnull]
  rcases entry with - | entry
  · obtain ⟨pre, post, hfrag, -⟩ := hblock.tiles.sorted.find_eq_some hfind
    refine absurd (mem_usedRegions.mpr ⟨(base, frag_map), by simp [hlist], ?_⟩) (hunused size)
    rw [hfrag]
    simp
  · simp [hfind, hnull, isFree]

end PimLibrary.Manager
