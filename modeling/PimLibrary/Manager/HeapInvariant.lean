import PimLibrary.Manager.SimpleHeap

/-! The representation invariant of `SimpleHeap`.

    The fragments of a block tile it, no two neighbours are free and one is used; `free_list_` lists
    exactly the free fragments, each under the number that the fragment's iterator has; blocks are
    disjoint, and the counters add them up. -/

namespace PimLibrary.Manager
open Schemes.Word Schemes.OrdMap Schemes.Tiling

/-! ### Fragments -/

/-- The fragments of all blocks. -/
def allFrags (block_list_ : List (ℕ × FragMap)) : FragMap := block_list_.flatMap Prod.snd

/-- The entry of `free_list_` that a free fragment has. -/
def freeEntry (x : ℕ × Fragment) : Option FreeEntry :=
  x.2.free_list_entry_.map fun node => ⟨x.2.size, x.1, node⟩

/-- The region of a used fragment. -/
def usedRegion (x : ℕ × Fragment) : Option (ℕ × ℕ) := if isFree x.2 then none else some (x.1, x.2.size)

/-- The regions in use. -/
def usedRegions (h : SimpleHeap) : List (ℕ × ℕ) := (allFrags h.block_list_).filterMap usedRegion

/-- The total length of a block's fragments. -/
def blockLength (b : ℕ × FragMap) : ℕ := (b.2.map fun x => x.2.size).sum

def NoAdjacentFree (frag_map : FragMap) : Prop :=
  frag_map.IsChain fun x y => ¬ (isFree x.2 = true ∧ isFree y.2 = true)

/-- Two blocks at these addresses are disjoint. -/
def Apart (block_size a b : ℕ) : Prop := a + block_size ≤ b ∨ b + block_size ≤ a

/-- The blocks that the heap holds, in use or cached. -/
def bases (h : SimpleHeap) : List ℕ := h.block_list_.map Prod.fst ++ h.block_cache_.map Block.base_ptr_

/-! ### The invariant -/

structure BlockOk (block_size : ℕ) (b : ℕ × FragMap) : Prop where
  tiles : Tiles Fragment.size b.1 b.2 (b.1 + block_size)
  apart : NoAdjacentFree b.2
  used : ∃ x ∈ b.2, isFree x.2 = false

/-- `free_list_` is in order of size and holds exactly the given entries, each under a number of its
    own. -/
structure FreeListOk (free_list_ : List FreeEntry) (node : ℕ) (entries : List FreeEntry) : Prop where
  perm : free_list_.Perm entries
  nodes : (free_list_.map FreeEntry.node).Nodup
  fresh : ∀ e ∈ free_list_, e.node < node
  order : free_list_.Pairwise fun a b => a.size ≤ b.size

structure HeapInv (block_size : ℕ) (h : SimpleHeap) : Prop where
  blocks : ∀ b ∈ h.block_list_, BlockOk block_size b
  sorted : Sorted h.block_list_
  free_list : FreeListOk h.free_list_ h.node ((allFrags h.block_list_).filterMap freeEntry)
  cached : ∀ b ∈ h.block_cache_, b.length_ = block_size
  disjoint : (bases h).Pairwise (Apart block_size)
  nonnull : ∀ b ∈ bases h, 0 < b
  in_use_size : h.in_use_size_ = (h.block_list_.map blockLength).sum
  cache_size : h.cache_size_ = (h.block_cache_.map Block.length_).sum

theorem heapInv_empty (block_size : ℕ) : HeapInv block_size {} where
  blocks := by simp
  sorted := List.Pairwise.nil
  free_list := ⟨List.Perm.nil, List.nodup_nil, by simp, List.Pairwise.nil⟩
  cached := by simp
  disjoint := List.Pairwise.nil
  nonnull := by simp [bases]
  in_use_size := rfl
  cache_size := rfl

/-! ### Free and used fragments -/

section FilterMap

variable (at_ node size : ℕ) (xs : FragMap)

@[simp] theorem freeEntries_used :
    ((at_, ⟨none, size⟩) :: xs : FragMap).filterMap freeEntry = xs.filterMap freeEntry := rfl

@[simp] theorem freeEntries_free :
    ((at_, ⟨some node, size⟩) :: xs : FragMap).filterMap freeEntry =
      ⟨size, at_, node⟩ :: xs.filterMap freeEntry :=
  rfl

@[simp] theorem usedRegions_used :
    ((at_, ⟨none, size⟩) :: xs : FragMap).filterMap usedRegion =
      (at_, size) :: xs.filterMap usedRegion := rfl

@[simp] theorem usedRegions_free :
    ((at_, ⟨some node, size⟩) :: xs : FragMap).filterMap usedRegion = xs.filterMap usedRegion := rfl

end FilterMap

theorem freeEntry_eq_some {x : ℕ × Fragment} {e : FreeEntry} :
    freeEntry x = some e ↔ x = (e.base, ⟨some e.node, e.size⟩) := by
  rcases x with ⟨at_, node, size⟩
  rcases e with ⟨esize, ebase, enode⟩
  rcases node with - | node
  · simp [freeEntry]
  · simp only [freeEntry, Option.map_some, Option.some.injEq, FreeEntry.mk.injEq, Prod.mk.injEq,
      Fragment.mk.injEq]
    tauto

theorem usedRegion_eq_some {x : ℕ × Fragment} {r : ℕ × ℕ} :
    usedRegion x = some r ↔ x = (r.1, ⟨none, r.2⟩) := by
  rcases x with ⟨at_, node, size⟩
  rcases r with ⟨p, s⟩
  rcases node with - | node <;> simp [usedRegion, isFree]

/-- A region is in use exactly when a block has a used fragment there. -/
theorem mem_usedRegions {h : SimpleHeap} {ptr size : ℕ} :
    (ptr, size) ∈ usedRegions h ↔ ∃ b ∈ h.block_list_, (ptr, ⟨none, size⟩) ∈ b.2 := by
  simp only [usedRegions, allFrags, List.mem_filterMap, List.mem_flatMap, usedRegion_eq_some]
  constructor
  · rintro ⟨x, ⟨b, hb, hx⟩, rfl⟩
    exact ⟨b, hb, hx⟩
  · rintro ⟨b, hb, hx⟩
    exact ⟨_, ⟨b, hb, hx⟩, rfl⟩

@[simp] theorem allFrags_append (xs ys : List (ℕ × FragMap)) :
    allFrags (xs ++ ys) = allFrags xs ++ allFrags ys :=
  List.flatMap_append

@[simp] theorem allFrags_cons (b : ℕ × FragMap) (xs : List (ℕ × FragMap)) :
    allFrags (b :: xs) = b.2 ++ allFrags xs := List.flatMap_cons

theorem perm_middle_append {γ : Type} {x : γ} {xs ys zs : List γ} :
    (xs ++ (ys ++ x :: zs)).Perm (x :: (xs ++ (ys ++ zs))) := by
  rw [← List.append_assoc, ← List.append_assoc]
  exact List.perm_middle

/-- Next to a used fragment anything may stand. -/
theorem noAdjacentFree_used {pre post : FragMap} {x : ℕ × Fragment} (hx : isFree x.2 = false) :
    NoAdjacentFree (pre ++ x :: post) ↔ NoAdjacentFree pre ∧ NoAdjacentFree post := by
  simp [NoAdjacentFree, List.isChain_append, List.isChain_cons, hx]

/-- Next to a free fragment both neighbours are used. -/
theorem noAdjacentFree_free {pre post : FragMap} {x : ℕ × Fragment} (hx : isFree x.2 = true) :
    NoAdjacentFree (pre ++ x :: post) ↔ NoAdjacentFree pre ∧ NoAdjacentFree post ∧
      (∀ y ∈ pre.getLast?, isFree y.2 = false) ∧ ∀ y ∈ post.head?, isFree y.2 = false := by
  simp [NoAdjacentFree, List.isChain_append, List.isChain_cons, hx]
  tauto

/-! ### The free list -/

theorem erase_node_perm {free_list_ rest : List FreeEntry} {e : FreeEntry}
    (hperm : free_list_.Perm (e :: rest)) (hnodes : (free_list_.map FreeEntry.node).Nodup) :
    (erase_node e.node free_list_).Perm rest := by
  have hnodup : ((e :: rest).map FreeEntry.node).Nodup := (hperm.map _).nodup_iff.mp hnodes
  have hne : ∀ x ∈ rest, x.node ≠ e.node := by
    intro x hx heq
    exact (List.nodup_cons.mp hnodup).1 (List.mem_map.mpr ⟨x, hx, heq⟩)
  have hrest : rest.filter (fun x => decide (x.node ≠ e.node)) = rest :=
    List.filter_eq_self.mpr fun x hx => decide_eq_true (hne x hx)
  have hfilter := hperm.filter fun x => decide (x.node ≠ e.node)
  rwa [List.filter_cons_of_neg (by simp), hrest] at hfilter

/-- Erasing through an iterator removes its entry and no other. -/
theorem FreeListOk.erase {free_list_ entries rest : List FreeEntry} {node : ℕ} {e : FreeEntry}
    (h : FreeListOk free_list_ node entries) (hperm : entries.Perm (e :: rest)) :
    FreeListOk (erase_node e.node free_list_) node rest where
  perm := erase_node_perm (h.perm.trans hperm) h.nodes
  nodes := h.nodes.sublist (List.filter_sublist.map _)
  fresh := fun x hx => h.fresh x (List.mem_filter.mp hx).1
  order := h.order.sublist List.filter_sublist

theorem insert_node_order (e : FreeEntry) {free_list_ : List FreeEntry}
    (h : free_list_.Pairwise fun a b => a.size ≤ b.size) :
    (insert_node e free_list_).Pairwise fun a b => a.size ≤ b.size := by
  induction free_list_ with
  | nil => exact List.pairwise_singleton _ _
  | cons x xs ih =>
    obtain ⟨hx, hxs⟩ := List.pairwise_cons.mp h
    rw [insert_node, List.orderedInsert_cons]
    split_ifs with hlt
    · refine List.pairwise_cons.mpr ⟨?_, h⟩
      rintro y (_ | ⟨_, hy⟩)
      · exact hlt.le
      · exact hlt.le.trans (hx y hy)
    · refine List.pairwise_cons.mpr ⟨?_, ih hxs⟩
      intro y hy
      rcases (List.mem_orderedInsert _).mp hy with rfl | hy
      · exact not_lt.mp hlt
      · exact hx y hy

theorem FreeListOk.insert {free_list_ entries : List FreeEntry} {node : ℕ}
    (h : FreeListOk free_list_ node entries) (size base : ℕ) :
    FreeListOk (insert_node ⟨size, base, node⟩ free_list_) (node + 1)
      (⟨size, base, node⟩ :: entries) where
  perm := (List.perm_orderedInsert _ _ _).trans (h.perm.cons _)
  nodes := by
    have hperm := (List.perm_orderedInsert (fun a b : FreeEntry => a.size < b.size) ⟨size, base, node⟩
      free_list_).map FreeEntry.node
    refine hperm.nodup_iff.mpr (List.nodup_cons.mpr ⟨?_, h.nodes⟩)
    intro hmem
    obtain ⟨e, he, heq⟩ := List.mem_map.mp hmem
    exact absurd heq (h.fresh e he).ne
  fresh := by
    intro e he
    rcases (List.mem_orderedInsert _).mp he with rfl | he
    · exact Nat.lt_succ_self _
    · exact (h.fresh e he).trans (Nat.lt_succ_self _)
  order := insert_node_order _ h.order

theorem FreeListOk.of_perm {free_list_ entries entries' : List FreeEntry} {node : ℕ}
    (h : FreeListOk free_list_ node entries) (hperm : entries.Perm entries') :
    FreeListOk free_list_ node entries' :=
  ⟨h.perm.trans hperm, h.nodes, h.fresh, h.order⟩

/-- The best fit is an entry of the list that is large enough. -/
theorem lower_bound_spec {bytes : ℕ} {free_list_ : List FreeEntry} {e : FreeEntry}
    (h : lower_bound bytes free_list_ = some e) : e ∈ free_list_ ∧ bytes ≤ e.size := by
  rw [lower_bound] at h
  exact ⟨List.mem_of_find?_eq_some h, by simpa using List.find?_some h⟩

end PimLibrary.Manager
