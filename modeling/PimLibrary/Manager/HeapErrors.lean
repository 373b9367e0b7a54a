import PimLibrary.Manager.HeapRuns

/-! The error paths of `SimpleHeap`.

    `free` gives up exactly the fragment at a live pointer, accepts null, and refuses every other
    pointer without a change; an `alloc` that returns null changes nothing either. Only a size that
    overflows breaks this: what `alloc` returns for it is marked free. -/

namespace PimLibrary.Manager
open Schemes.Word Schemes.OrdMap Schemes.Tiling Schemes.Trace

variable {block_size : ℕ} {h : SimpleHeap}

/-- Exactly the fragment at `ptr` is given up. Its region is the only one to go, and the other
    blocks stay as they are. Its own block stays, or it is retired to the end of the cache, whose
    front may be released. -/
structure Releases (block_size : ℕ) (h : SimpleHeap) (ptr : ℕ)
    (out : SimpleHeap × Bool × List Block) : Prop where
  inv : HeapInv block_size out.1
  ret : out.2.1 = true
  region : ∃ size, (usedRegions h).Perm ((ptr, size) :: usedRegions out.1)
  others : ∀ b ∈ h.block_list_, ¬ (b.1 ≤ ptr ∧ ptr < b.1 + block_size) → b ∈ out.1.block_list_
  blocks : ∃ retired : Option Block, (∀ b ∈ retired, b.base_ptr_ ≤ ptr ∧
    ptr < b.base_ptr_ + block_size) ∧
    (h.block_list_.map Prod.fst).Perm (retired.toList.map Block.base_ptr_ ++
      out.1.block_list_.map Prod.fst) ∧
    h.block_cache_ ++ retired.toList = out.2.2 ++ out.1.block_cache_

/-- The cache after a block has retired. -/
theorem retire_cache (hinv : HeapInv block_size h) (free_list_ : List FreeEntry) (block at_ : ℕ)
    (fragment : Fragment) :
    h.block_cache_ ++ [⟨at_, fragment.size⟩] =
      (retire { h with free_list_ := free_list_ } block at_ fragment).2 ++
        (retire { h with free_list_ := free_list_ } block at_ fragment).1.block_cache_ := by
  have hsum : h.cache_size_ + fragment.size =
      ((h.block_cache_ ++ [(⟨at_, fragment.size⟩ : Block)]).map Block.length_).sum := by
    simp [hinv.cache_size]
  exact (evict_spec (h.in_use_size_ - fragment.size) _ _ hsum).1

theorem free_releases (hinv : HeapInv block_size h) {ptr size : ℕ}
    (hused : (ptr, size) ∈ usedRegions h) :
    Releases block_size h ptr (free h ptr) := by
  obtain ⟨left, right, base, pre, post, hlist⟩ := fragment_of_used hused
  have hbounds := (hole_of_used hinv hlist).tiles.bounds (x := (ptr, ⟨none, size⟩)) (by simp)
  have hin : base ≤ ptr ∧ ptr < base + block_size :=
    ⟨hbounds.1, lt_of_lt_of_le (Nat.lt_add_of_pos_right hbounds.2.1) hbounds.2.2⟩
  -- a block without the pointer is on one side of the pointer's block
  have hside : ∀ b ∈ h.block_list_, ¬ (b.1 ≤ ptr ∧ ptr < b.1 + block_size) → b ∈ left ∨ b ∈ right := by
    intro b hb hout
    rcases List.mem_append.mp (hlist ▸ hb) with hb | hb
    · exact Or.inl hb
    · rcases List.mem_cons.mp hb with rfl | hb
      · exact absurd hin hout
      · exact Or.inr hb
  obtain ⟨h', released, hfree, hinv', hregion⟩ := free_used hinv hused
  have hret : (free h ptr).2.1 = true := by rw [hfree]
  replace hinv' : HeapInv block_size (free h ptr).1 := by rw [hfree]; exact hinv'
  replace hregion : (usedRegions h).Perm ((ptr, size) :: usedRegions (free h ptr).1) := by
    rw [hfree]; exact hregion
  refine ⟨hinv', hret, ⟨size, hregion⟩, ?_, ?_⟩
  all_goals
    obtain ⟨free_list_, pre', at_, fragment, post', hole, -, -, ⟨rfl, rfl, heq⟩ | ⟨-, heq⟩⟩ :=
      free_cases hinv hlist
    all_goals rw [heq]
  · intro b hb hout
    rw [(retire_spec hinv hlist hole).2]
    exact List.mem_append.mpr (hside b hb hout)
  · intro b hb hout
    exact List.mem_append.mpr ((hside b hb hout).imp_right (List.mem_cons_of_mem _))
  · obtain rfl : at_ = base := (tiles_singleton.mp hole.tiles).1
    refine ⟨some ⟨at_, fragment.size⟩, ?_, ?_, retire_cache hinv _ _ _ _⟩
    · rintro b ⟨⟩
      exact hin
    · rw [(retire_spec hinv hlist hole).2, hlist]
      simp
  · exact ⟨none, by simp, by simp [hlist], by simp⟩

/-- What the error paths promise of a heap, for a user with these live pointers. -/
structure ErrorPaths (block_size : ℕ) (u : HeapUse) : Prop where
  live : ∀ ptr ∈ u.live.map Prod.fst, Releases block_size u.heap ptr (free u.heap ptr)
  null : free u.heap 0 = (u.heap, true, [])
  other : ∀ ptr, ptr ≠ 0 → ptr ∉ u.live.map Prod.fst → free u.heap ptr = (u.heap, false, [])
  refused : ∀ bytes fresh h', alloc block_size u.heap bytes fresh = some (h', none) → h' = u.heap
  alloc : ∀ bytes fresh, 1 ≤ bytes → bytes < overflow_size → FreshBlock block_size u.heap fresh →
    ∃ h' ptr, alloc block_size u.heap bytes fresh = some (h', ptr)

/-- An allocation that returns null, whatever was asked for, changes nothing. -/
theorem alloc_none {bytes : ℕ} {fresh : Option ℕ} {h' : SimpleHeap}
    (halloc : alloc block_size h bytes fresh = some (h', none)) : h' = h := by
  have hsome : ∀ {r : Option (SimpleHeap × ℕ)},
      (r.bind fun start => some (start.1, some start.2)) ≠ some (h', none) := by
    intro r
    cases r <;> simp
  unfold alloc at halloc
  dsimp only at halloc
  split_ifs at halloc with hlarge
  · exact (congrArg Prod.fst (Option.some.inj halloc)).symm
  · rcases hfit : lower_bound (get_aligned_bytes bytes) h.free_list_ with - | e
    · rcases hlast : h.block_cache_.getLast? with - | block
      · rcases fresh with - | base
        · rw [hfit, hlast] at halloc
          exact (congrArg Prod.fst (Option.some.inj halloc)).symm
        · rw [hfit, hlast] at halloc
          exact absurd halloc hsome
      · rw [hfit, hlast] at halloc
        exact absurd halloc hsome
    · rw [hfit] at halloc
      exact absurd halloc hsome

theorem errorPaths_of_inv {u : HeapUse} (hinv : UseInv block_size u) : ErrorPaths block_size u where
  live := by
    intro ptr hptr
    obtain ⟨r, hr, rfl⟩ := List.mem_map.mp (hinv.live.mem_iff.mpr hptr)
    exact free_releases hinv.heap hr
  null := rfl
  other := by
    intro ptr hnull hptr
    have hunused : ∀ size, (ptr, size) ∉ usedRegions u.heap := by
      intro size hused
      exact hptr (hinv.live.mem_iff.mp (List.mem_map.mpr ⟨_, hused, rfl⟩))
    rw [free_unused hinv.heap hunused, decide_eq_false hnull]
  alloc := by
    intro bytes fresh hbytes hlt hfresh
    obtain ⟨h', ptr, halloc, -⟩ := alloc_spec hinv.heap (get_aligned_bytes_pos hbytes hlt) hfresh
    exact ⟨h', ptr, halloc⟩
  refused := fun _ _ _ => alloc_none

/-- After every run of operations with allocations of at least one byte and without an overflow, the
    error paths behave. -/
theorem heap_error_paths (block_size : ℕ) (ops : List HeapOp)
    (hops : Along (heapStep block_size) (fun u _ op => AllocPositive block_size u op) {} [] ops) :
    ∃ u released, runSteps (heapStep block_size) {} ops = some (u, released) ∧
      ErrorPaths block_size u := by
  obtain ⟨u, released, hrun, hinv⟩ := heap_runs_inv block_size ops hops
  exact ⟨u, released, hrun, errorPaths_of_inv hinv⟩

/-- A run that frees one of two fragments and asks for more than a block. -/
theorem heap_error_paths_alloc_free :
    ∃ u released, runSteps (heapStep 536870912) {} [.alloc 100 (some 1048576), .alloc 100 none,
      .free 1048576, .alloc 536870913 none] = some (u, released) ∧ ErrorPaths 536870912 u := by
  refine heap_error_paths 536870912 _ ⟨⟨by decide, ?_⟩, fun _ _ => ⟨⟨by decide, ?_⟩, fun _ _ =>
    ⟨trivial, fun _ _ => ⟨⟨by decide, ?_⟩, fun _ _ => trivial⟩⟩⟩⟩
  · rintro base ⟨⟩
    exact ⟨by norm_num, by simp [bases]⟩
  · rintro base ⟨⟩
  · rintro base ⟨⟩

/-- The largest size is served from the free rest of a block, and what it got stays marked free: the
    pointer is live, and `free` refuses it. -/
theorem live_pointer_refused :
    ∃ u released, runSteps (heapStep 536870912) {}
        [.alloc 100 (some 1048576), .alloc 18446744073709551615 none] = some (u, released) ∧
      ¬ ErrorPaths 536870912 u := by
  have hrun : (runSteps (heapStep 536870912) {} [.alloc 100 (some 1048576),
      .alloc 18446744073709551615 none]).map (fun r => (r.1.live.map Prod.fst,
        (free r.1.heap 3145728).2.1)) = some ([3145728, 1048576], false) := by decide +kernel
  obtain ⟨⟨u, released⟩, hsome, heq⟩ := Option.map_eq_some_iff.mp hrun
  obtain ⟨hlive, hfree⟩ := Prod.mk.inj heq
  refine ⟨u, released, hsome, fun hpaths => ?_⟩
  have hret := (hpaths.live 3145728 (by rw [hlive]; exact List.mem_cons_self)).ret
  exact absurd (hret.symm.trans hfree) (by decide)

end PimLibrary.Manager
