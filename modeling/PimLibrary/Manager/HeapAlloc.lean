import PimLibrary.Manager.HeapInvariant

/-! `SimpleHeap::alloc` keeps the representation invariant and adds one region. -/

namespace PimLibrary.Manager
open Schemes.Word Schemes.OrdMap Schemes.Tiling

variable {block_size : ℕ} {h : SimpleHeap}

instance : Std.Symm (Apart block_size) := ⟨fun _ _ => Or.symm⟩

/-! ### A block in focus -/

theorem mem_bases_of_mem {b : ℕ × FragMap} (hb : b ∈ h.block_list_) : b.1 ∈ bases h :=
  List.mem_append_left _ (List.mem_map_of_mem hb)

theorem HeapInv.apart (hinv : HeapInv block_size h) {a b : ℕ} (ha : a ∈ bases h) (hb : b ∈ bases h)
    (hne : a ≠ b) : Apart block_size a b := hinv.disjoint.forall ha hb hne

/-- The block of an address is the last one that starts at or before it. -/
theorem HeapInv.floor_eq (hinv : HeapInv block_size h) {left right : List (ℕ × FragMap)}
    {b : ℕ × FragMap}
    (hlist : h.block_list_ = left ++ b :: right) {p : ℕ} (hlo : b.1 ≤ p) (hhi : p < b.1 + block_size) :
    floor p h.block_list_ = some b := by
  rw [hlist]
  refine floor_append_cons hlo ?_
  intro y hy
  have hcut := (hlist ▸ hinv.sorted).cut
  have hlt := hcut.gt y hy
  have hb : b.1 ∈ bases h := mem_bases_of_mem (by simp [hlist])
  have hy' : y.1 ∈ bases h := mem_bases_of_mem (by simp [hlist, hy])
  rcases hinv.apart hb hy' hlt.ne with hle | hle <;> omega

/-- Another map of fragments for one block, with a free list to match. -/
theorem HeapInv.replace (hinv : HeapInv block_size h) {left right : List (ℕ × FragMap)} {base : ℕ}
    {frag_map frag_map' : FragMap} (hlist : h.block_list_ = left ++ (base, frag_map) :: right)
    {free_list_ : List FreeEntry} {node : ℕ} (hok : BlockOk block_size (base, frag_map'))
    (hfree : FreeListOk free_list_ node
      ((allFrags left ++ (frag_map' ++ allFrags right)).filterMap freeEntry)) :
    HeapInv block_size { h with
      free_list_ := free_list_, block_list_ := left ++ (base, frag_map') :: right, node := node } := by
  have hblock : (base, frag_map) ∈ h.block_list_ := by simp [hlist]
  have hbases : bases { h with
      free_list_ := free_list_, block_list_ := left ++ (base, frag_map') :: right, node := node } =
        bases h := by
    simp [bases, hlist]
  -- both maps fill the block
  have hlen : blockLength (base, frag_map') = blockLength (base, frag_map) := by
    have hold := (hinv.blocks _ hblock).tiles.sum
    have hnew := hok.tiles.sum
    exact Nat.add_left_cancel (hnew.trans hold.symm)
  refine ⟨?_, ?_, ?_, hinv.cached, hbases ▸ hinv.disjoint, hbases ▸ hinv.nonnull, ?_, hinv.cache_size⟩
  · intro b hb
    rcases List.mem_append.mp hb with hb | hb
    · exact hinv.blocks b (by simp [hlist, hb])
    · rcases List.mem_cons.mp hb with rfl | hb
      · exact hok
      · exact hinv.blocks b (by simp [hlist, hb])
  · have hsorted := hlist ▸ hinv.sorted
    exact sorted_append_cons.mpr (sorted_append_cons.mp hsorted)
  · simpa using hfree
  · have hsize := hinv.in_use_size
    rw [hlist] at hsize
    simpa [hlen] using hsize

/-! ### The best fit -/

/-- An entry of the free list has its fragment in a block. -/
theorem HeapInv.fragment_of_entry (hinv : HeapInv block_size h) {e : FreeEntry}
    (he : e ∈ h.free_list_) :
    ∃ left right base pre post,
      h.block_list_ = left ++ (base, pre ++ (e.base, ⟨some e.node, e.size⟩) :: post) :: right := by
  obtain ⟨x, hx, hentry⟩ := List.mem_filterMap.mp (hinv.free_list.perm.mem_iff.mp he)
  obtain ⟨⟨base, frag_map⟩, hb, hmem⟩ := List.mem_flatMap.mp hx
  rw [freeEntry_eq_some.mp hentry] at hmem
  obtain ⟨left, right, hlist⟩ := List.append_of_mem hb
  obtain ⟨pre, post, rfl⟩ := List.append_of_mem hmem
  exact ⟨left, right, base, pre, post, hlist⟩

/-- What is left of a fragment of `size` bytes after `aligned_bytes` have been cut off. -/
def remainder (base size aligned_bytes node : ℕ) : FragMap :=
  if size > aligned_bytes then [(base + aligned_bytes, ⟨some node, size - aligned_bytes⟩)] else []

theorem tiles_split {base size aligned_bytes hi : ℕ} {post : FragMap} (node : ℕ)
    (hpos : 0 < aligned_bytes)
    (hle : aligned_bytes ≤ size) (hpost : Tiles Fragment.size (base + size) post hi) :
    Tiles Fragment.size base
      ((base, ⟨none, aligned_bytes⟩) :: (remainder base size aligned_bytes node ++ post))
      hi := by
  refine ⟨rfl, hpos, ?_⟩
  rw [remainder]
  split_ifs with hlt
  · refine ⟨rfl, Nat.sub_pos_of_lt hlt, ?_⟩
    have hend : base + aligned_bytes + (size - aligned_bytes) = base + size := by omega
    simpa [hend] using hpost
  · have hend : aligned_bytes = size := le_antisymm hle (not_lt.mp hlt)
    simpa [hend] using hpost

theorem noAdjacentFree_split (base size aligned_bytes node : ℕ) {pre post : FragMap}
    (hpre : NoAdjacentFree pre) (hpost : NoAdjacentFree post) (hhead : ∀ y ∈ post.head?,
      isFree y.2 = false) :
    NoAdjacentFree (pre ++ (base, ⟨none, aligned_bytes⟩) ::
      (remainder base size aligned_bytes node ++ post)) := by
  refine (noAdjacentFree_used rfl).mpr ⟨hpre, ?_⟩
  rw [remainder]
  split_ifs
  · rw [List.singleton_append]
    exact List.isChain_cons.mpr ⟨fun y hy => by simp [hhead y hy], hpost⟩
  · exact hpost

section Fit

variable {left right : List (ℕ × FragMap)} {base : ℕ} {pre post : FragMap} {e : FreeEntry}
  {aligned_bytes : ℕ}
variable (hinv : HeapInv block_size h)
variable (hlist : h.block_list_ = left ++ (base, pre ++ (e.base, ⟨some e.node, e.size⟩) :: post) :: right)
include hinv hlist

theorem blockOk_of_entry : BlockOk block_size (base, pre ++ (e.base, ⟨some e.node, e.size⟩) :: post) :=
  hinv.blocks _ (by rw [hlist]; simp)

/-- The fragment is found where its entry says, and what is left of it comes after it. -/
theorem alloc_fragment_eq (hpos : 0 < aligned_bytes) :
    alloc_fragment h aligned_bytes e = some ({ h with
      free_list_ := if e.size > aligned_bytes then
          insert_node ⟨e.size - aligned_bytes, e.base + aligned_bytes, h.node⟩
            (erase_node e.node h.free_list_)
        else erase_node e.node h.free_list_
      block_list_ := left ++ (base, pre ++ (e.base, ⟨none, aligned_bytes⟩) ::
        (remainder e.base e.size aligned_bytes h.node ++ post)) :: right
      node := if e.size > aligned_bytes then h.node + 1 else h.node }, e.base) := by
  have hblock := blockOk_of_entry hinv hlist
  have hcut : Cut e.base pre post := hblock.tiles.sorted.cut
  have hbounds := hblock.tiles.bounds (x := (e.base, ⟨some e.node, e.size⟩)) (by simp)
  have hfloor :=
    hinv.floor_eq hlist hbounds.1 (lt_of_lt_of_le (Nat.lt_add_of_pos_right hbounds.2.1) hbounds.2.2)
  have hblocks : Cut base left right := (hlist ▸ hinv.sorted).cut
  rw [alloc_fragment, hfloor]
  simp only [Option.bind_eq_bind, Option.bind_some, hcut.find, ne_eq, not_true, if_false,
    hcut.insert_self, setUsed, remainder]
  split_ifs with hlt
  · have hnext : Cut (e.base + aligned_bytes) (pre ++ [(e.base, ⟨none, aligned_bytes⟩)]) post := by
      refine ⟨?_, ?_⟩
      · intro x hx
        rcases List.mem_append.mp hx with hx | hx
        · exact (hcut.lt x hx).trans (Nat.lt_add_of_pos_right hpos)
        · cases List.mem_singleton.mp hx
          exact Nat.lt_add_of_pos_right hpos
      · intro y hy
        have hafter :=
          (List.pairwise_cons.mp (List.pairwise_append.mp hblock.tiles.pairwise).2.1).1 y hy
        exact lt_of_lt_of_le (Nat.add_lt_add_left hlt _) hafter
    have hins := hnext.insert (v := ⟨some h.node, e.size - aligned_bytes⟩)
    rw [List.append_assoc, List.singleton_append] at hins
    simp [hins, hlist, hblocks.insert_self]
  · simp [hlist, hblocks.insert_self]

/-- The free list after the cut. -/
theorem freeListOk_cut : FreeListOk
    (if e.size > aligned_bytes then
        insert_node ⟨e.size - aligned_bytes, e.base + aligned_bytes, h.node⟩
          (erase_node e.node h.free_list_)
      else erase_node e.node h.free_list_)
    (if e.size > aligned_bytes then h.node + 1 else h.node)
    ((allFrags left ++ ((pre ++ (e.base, ⟨none, aligned_bytes⟩) ::
      (remainder e.base e.size aligned_bytes h.node ++ post)) ++
        allFrags right)).filterMap freeEntry) := by
  have hfree := hinv.free_list
  rw [hlist] at hfree
  have herase : FreeListOk (erase_node e.node h.free_list_) h.node
      ((allFrags left ++ ((pre ++ post) ++ allFrags right)).filterMap freeEntry) :=
    hfree.erase (by simpa using perm_middle_append)
  rw [remainder]
  split_ifs with hlt
  · refine (herase.insert _ _).of_perm ?_
    simpa using perm_middle_append.symm
  · simpa using herase

end Fit

theorem alloc_fragment_spec (hinv : HeapInv block_size h) {aligned_bytes : ℕ} {e : FreeEntry}
    (hpos : 0 < aligned_bytes) (hfit : lower_bound aligned_bytes h.free_list_ = some e) :
    ∃ h', alloc_fragment h aligned_bytes e = some (h', e.base) ∧ HeapInv block_size h' ∧
      (usedRegions h').Perm ((e.base, aligned_bytes) :: usedRegions h) := by
  obtain ⟨he, hle⟩ := lower_bound_spec hfit
  obtain ⟨left, right, base, pre, post, hlist⟩ := hinv.fragment_of_entry he
  have hblock := blockOk_of_entry hinv hlist
  obtain ⟨hpre, hpost, -, hhead⟩ := (noAdjacentFree_free rfl).mp hblock.apart
  refine ⟨_, alloc_fragment_eq hinv hlist hpos, ?_, ?_⟩
  · refine hinv.replace hlist ⟨?_, noAdjacentFree_split _ _ _ _ hpre hpost hhead, ?_⟩
      (freeListOk_cut hinv hlist)
    · obtain ⟨mid, htiles, rfl, -, hrest⟩ := tiles_append.mp hblock.tiles
      exact tiles_append.mpr ⟨_, htiles, tiles_split _ hpos hle hrest⟩
    · exact ⟨(e.base, ⟨none, aligned_bytes⟩), by simp, rfl⟩
  · have hnew : (remainder e.base e.size aligned_bytes h.node).filterMap usedRegion = [] := by
      rw [remainder]
      split_ifs <;> simp
    simpa [usedRegions, hlist, hnew] using perm_middle_append

/-! ### A new block -/

section Start

variable {left right : List (ℕ × FragMap)} {base aligned_bytes : ℕ}
variable (hlist : h.block_list_ = left ++ right) (hcut : Cut base left right)
include hlist hcut

/-- The block starts in use as far as it was asked for. -/
theorem start_block_eq (hpos : 0 < aligned_bytes) (hle : aligned_bytes ≤ block_size) :
    start_block h aligned_bytes base block_size = some ({ h with
      free_list_ := if block_size > aligned_bytes then
          insert_node ⟨block_size - aligned_bytes, base + aligned_bytes, h.node⟩ h.free_list_
            else h.free_list_
      block_list_ := left ++ (base, (base, ⟨none, aligned_bytes⟩) ::
        remainder base block_size aligned_bytes h.node) :: right
      in_use_size_ := h.in_use_size_ + block_size
      node := if block_size > aligned_bytes then h.node + 1 else h.node }, base) := by
  have hfind : find base h.block_list_ = none := by
    rw [hlist]
    exact hcut.find_none
  rw [start_block, if_neg (not_lt.mpr hle), hfind, hlist]
  simp only [Option.getD_none, hcut.insert, remainder]
  split_ifs
  · have hempty : Cut (base + aligned_bytes) ([] : FragMap) [] := ⟨by simp, by simp⟩
    have hfirst : Cut base ([] : FragMap)
        [(base + aligned_bytes, ⟨some h.node, block_size - aligned_bytes⟩)] :=
      ⟨by simp, by simpa using hpos⟩
    have hrest := hempty.insert (v := ⟨some h.node, block_size - aligned_bytes⟩)
    have hboth := hfirst.insert (v := ⟨none, aligned_bytes⟩)
    simp only [List.nil_append] at hrest hboth
    rw [hrest, hboth]
  · have hempty : Cut base ([] : FragMap) [] := ⟨by simp, by simp⟩
    have hfirst := hempty.insert (v := ⟨none, aligned_bytes⟩)
    simp only [List.nil_append] at hfirst
    rw [hfirst]

omit hcut in
theorem freeListOk_start (hinv : HeapInv block_size h) : FreeListOk
    (if block_size > aligned_bytes then
        insert_node ⟨block_size - aligned_bytes, base + aligned_bytes, h.node⟩ h.free_list_
          else h.free_list_)
    (if block_size > aligned_bytes then h.node + 1 else h.node)
    ((allFrags (left ++ (base, (base, ⟨none, aligned_bytes⟩) ::
      remainder base block_size aligned_bytes h.node) :: right)).filterMap freeEntry) := by
  have hfree := hinv.free_list
  rw [hlist] at hfree
  rw [remainder]
  split_ifs
  · refine (hfree.insert _ _).of_perm ?_
    simpa using List.perm_middle.symm
  · simpa using hfree

end Start

/-- A new block is disjoint from those the heap holds, so it falls between two of them. -/
theorem exists_cut_of_fresh (hinv : HeapInv block_size h) {base : ℕ} (hpos : 0 < block_size)
    (hfresh : ∀ b ∈ bases h, Apart block_size base b) :
    ∃ left right, h.block_list_ = left ++ right ∧ Cut base left right := by
  obtain ⟨left, right, hcut, hlist | ⟨frag_map, hlist⟩⟩ := hinv.sorted.exists_cut base
  · exact ⟨left, right, hlist, hcut⟩
  · have hapart := hfresh base (mem_bases_of_mem (b := (base, frag_map)) (by simp [hlist]))
    rcases hapart with hle | hle <;> omega

theorem bases_insert {h h' : SimpleHeap} {left right : List (ℕ × FragMap)} {base : ℕ}
    {frag_map : FragMap}
    (hlist : h.block_list_ = left ++ right) (hlist' : h'.block_list_ = left ++ (base, frag_map) :: right)
    (hcache : h'.block_cache_ = h.block_cache_) : (bases h').Perm (base :: bases h) := by
  simp [bases, hlist, hlist', hcache]

theorem start_block_spec (hinv : HeapInv block_size h) {aligned_bytes base : ℕ}
    (hpos : 0 < aligned_bytes)
    (hle : aligned_bytes ≤ block_size) (hbase : 0 < base)
      (hfresh : ∀ b ∈ bases h, Apart block_size base b) :
    ∃ h', start_block h aligned_bytes base block_size = some (h', base) ∧ HeapInv block_size h' ∧
      (usedRegions h').Perm ((base, aligned_bytes) :: usedRegions h) := by
  obtain ⟨left, right, hlist, hcut⟩ := exists_cut_of_fresh hinv (hpos.trans_le hle) hfresh
  have hempty : Tiles Fragment.size (base + block_size) [] (base + block_size) := rfl
  have htiles := tiles_split h.node hpos hle hempty
  have hapart := noAdjacentFree_split base block_size aligned_bytes h.node List.isChain_nil
    List.isChain_nil (by simp)
  rw [List.append_nil] at htiles hapart
  refine ⟨_, start_block_eq hlist hcut hpos hle, ⟨?_, ?_, freeListOk_start hlist hinv, hinv.cached,
    ?_, ?_, ?_, hinv.cache_size⟩, ?_⟩
  · intro b hb
    rcases List.mem_append.mp hb with hb | hb
    · exact hinv.blocks b (by simp [hlist, hb])
    · rcases List.mem_cons.mp hb with rfl | hb
      · exact ⟨htiles, hapart, (base, ⟨none, aligned_bytes⟩), by simp, rfl⟩
      · exact hinv.blocks b (by simp [hlist, hb])
  · exact sorted_append_cons.mpr ⟨hlist ▸ hinv.sorted, hcut⟩
  · refine (List.Perm.pairwise_iff symm ?_).mpr (List.pairwise_cons.mpr ⟨hfresh, hinv.disjoint⟩)
    exact bases_insert hlist rfl rfl
  · intro b hb
    have hmem : b ∈ base :: bases h := by
      refine (List.Perm.mem_iff ?_).mp hb
      exact bases_insert hlist rfl rfl
    rcases List.mem_cons.mp hmem with rfl | hb
    · exact hbase
    · exact hinv.nonnull b hb
  · have hlen := htiles.sum
    have hsize := hinv.in_use_size
    rw [hlist] at hsize
    simp [blockLength] at hsize hlen ⊢
    omega
  · have hnew : (remainder base block_size aligned_bytes h.node).filterMap usedRegion = [] := by
      rw [remainder]
      split_ifs <;> simp
    simp [usedRegions, hlist, hnew]

/-! ### The operation -/

/-- A block that the allocator answers with is disjoint from those that the heap holds. -/
def FreshBlock (block_size : ℕ) (h : SimpleHeap) (fresh : Option ℕ) : Prop :=
  ∀ base, fresh = some base → 0 < base ∧ ∀ b ∈ bases h, Apart block_size base b

/-- The cache without the block it gave back. -/
theorem HeapInv.pop (hinv : HeapInv block_size h) {block : Block}
    (hlast : h.block_cache_.getLast? = some block) :
    HeapInv block_size { h with
      block_cache_ := h.block_cache_.dropLast, cache_size_ := h.cache_size_ - block.length_ } ∧
      block.length_ = block_size ∧ 0 < block.base_ptr_ ∧
      ∀ b ∈ bases { h with block_cache_ := h.block_cache_.dropLast },
        Apart block_size block.base_ptr_ b := by
  obtain ⟨cache, hcache⟩ : ∃ cache, h.block_cache_ = cache ++ [block] :=
    ⟨h.block_cache_.dropLast, (List.dropLast_append_getLast? block hlast).symm⟩
  have hdrop : h.block_cache_.dropLast = cache := by simp [hcache]
  rw [hdrop]
  have hbases : (bases h).Perm (block.base_ptr_ :: bases { h with block_cache_ := cache }) := by
    simp [bases, hcache, ← List.append_assoc]
  have hpair := (hbases.pairwise_iff symm).mp hinv.disjoint
  obtain ⟨hapart, hdisjoint⟩ := List.pairwise_cons.mp hpair
  refine ⟨⟨hinv.blocks, hinv.sorted, hinv.free_list, ?_, hdisjoint, ?_, hinv.in_use_size, ?_⟩, ?_,
    ?_, hapart⟩
  · intro b hb
    exact hinv.cached b (by simp [hcache, hb])
  · intro b hb
    exact hinv.nonnull b (hbases.mem_iff.mpr (List.mem_cons_of_mem _ hb))
  · have hsize := hinv.cache_size
    rw [hcache] at hsize
    simp [hsize]
  · exact hinv.cached block (by simp [hcache])
  · exact hinv.nonnull _ (hbases.mem_iff.mpr List.mem_cons_self)

/-- `alloc` is defined and keeps the invariant; it returns null and changes nothing, or adds the
    region that it returns. -/
theorem alloc_spec (hinv : HeapInv block_size h) {bytes : ℕ} {fresh : Option ℕ}
    (hpos : 0 < get_aligned_bytes bytes) (hfresh : FreshBlock block_size h fresh) :
    ∃ h' ptr, alloc block_size h bytes fresh = some (h', ptr) ∧ HeapInv block_size h' ∧
      (ptr = none ∧ h' = h ∨ ∃ p, ptr = some p ∧ get_aligned_bytes bytes ≤ block_size ∧
        (usedRegions h').Perm ((p, get_aligned_bytes bytes) :: usedRegions h)) := by
  unfold alloc
  generalize get_aligned_bytes bytes = aligned_bytes at hpos ⊢
  dsimp only
  split_ifs with hlarge
  · exact ⟨h, none, rfl, hinv, Or.inl ⟨rfl, rfl⟩⟩
  have hle : aligned_bytes ≤ block_size := not_lt.mp hlarge
  rcases hfit : lower_bound aligned_bytes h.free_list_ with - | e
  · rcases hlast : h.block_cache_.getLast? with - | block
    · rcases fresh with - | base
      · exact ⟨h, none, rfl, hinv, Or.inl ⟨rfl, rfl⟩⟩
      · obtain ⟨hbase, hapart⟩ := hfresh base rfl
        obtain ⟨h', hstart, hinv', hused⟩ := start_block_spec hinv hpos hle hbase hapart
        exact ⟨h', some base, by simp [hstart], hinv', Or.inr ⟨base, rfl, hle, hused⟩⟩
    · obtain ⟨hpop, hlen, hbase, hapart⟩ := hinv.pop hlast
      obtain ⟨h', hstart, hinv', hused⟩ := start_block_spec hpop hpos hle hbase hapart
      rw [← hlen] at hstart
      exact ⟨h', some block.base_ptr_, by simp [hstart], hinv', Or.inr ⟨_, rfl, hle, hused⟩⟩
  · obtain ⟨h', hcut, hinv', hused⟩ := alloc_fragment_spec hinv hpos hfit
    exact ⟨h', some e.base, by simp [hcut], hinv', Or.inr ⟨e.base, rfl, hle, hused⟩⟩

end PimLibrary.Manager
