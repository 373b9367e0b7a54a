import PimLibrary.Schemes.Float
import PimLibrary.Schemes.Tiling
import PimLibrary.Schemes.Trace

/-! `SimpleHeap`: a best-fit allocator over large blocks.

    Every block in use is a map of fragments by address. A free fragment holds an iterator to its entry
    in the multimap `free_list_`; a used one holds `end()`. Wholly free blocks move to `block_cache_`.
    Iterators are modelled by node numbers: an entry keeps the number it was inserted with. Where the
    source would move an iterator before `begin()`, use `end()`, or fail an assertion, the model has no
    result. -/

namespace PimLibrary.Manager
open Schemes.Word Schemes.OrdMap

/-- A node of the multimap, keyed by `size`. -/
structure FreeEntry where
  size : ℕ
  base : ℕ
  node : ℕ
  deriving DecidableEq, Repr

/-- `free_list_entry_` is `none` for `end()`. -/
structure Fragment where
  free_list_entry_ : Option ℕ
  size : ℕ
  deriving DecidableEq, Repr

structure Block where
  base_ptr_ : ℕ
  length_ : ℕ
  deriving DecidableEq, Repr

abbrev FragMap : Type := List (ℕ × Fragment)

structure SimpleHeap where
  free_list_ : List FreeEntry := []
  block_list_ : List (ℕ × FragMap) := []
  block_cache_ : List Block := []
  in_use_size_ : ℕ := 0
  cache_size_ : ℕ := 0
  /-- The number of the next node. -/
  node : ℕ := 0
  deriving DecidableEq, Repr

def align_size_ : ℕ := 2 * 1024 * 1024

/-- `align_size_ * ceil((float)bytes / align_size_)` for a `size_t`: the division and the product are
    exact, and the product is converted back to `size_t`, which holds all of them but `2 ^ 64`. -/
def get_aligned_bytes (bytes : ℕ) : ℕ := uint64 (ceil_align align_size_ bytes)

def isFree (node : Fragment) : Bool := node.free_list_entry_.isSome

def setUsed (node : Fragment) : Fragment := { node with free_list_entry_ := none }

def setFree (node : Fragment) (iterator : ℕ) : Fragment :=
  { node with free_list_entry_ := some iterator }

/-! ### The multimap -/

/-- `free_list_.erase(iterator)`. -/
def erase_node (iterator : ℕ) (free_list_ : List FreeEntry) : List FreeEntry :=
  free_list_.filter fun e => decide (e.node ≠ iterator)

/-- `free_list_.insert`: after the entries of the same size. -/
def insert_node (e : FreeEntry) (free_list_ : List FreeEntry) : List FreeEntry :=
  free_list_.orderedInsert (fun a b => a.size < b.size) e

/-- `free_list_.lower_bound(bytes)`: the list is in order of size. -/
def lower_bound (bytes : ℕ) (free_list_ : List FreeEntry) : Option FreeEntry :=
  free_list_.find? fun e => decide (bytes ≤ e.size)

/-! ### alloc -/

/-- Cut `aligned_bytes` off the best fit. -/
def alloc_fragment (h : SimpleHeap) (aligned_bytes : ℕ) (free_fragment : FreeEntry) :
    Option (SimpleHeap × ℕ) := do
  let base := free_fragment.base
  let size := free_fragment.size
  let free_list_ := erase_node free_fragment.node h.free_list_
  -- the block is the one before `upper_bound(base)`
  let (block, frag_map) ← floor base h.block_list_
  let fragment ← find base frag_map
  if fragment.size ≠ size then none
  else
    let frag_map := insert base (setUsed { fragment with size := aligned_bytes }) frag_map
    if size > aligned_bytes then
      let entry : FreeEntry := ⟨size - aligned_bytes, base + aligned_bytes, h.node⟩
      let frag_map := insert (base + aligned_bytes) ⟨some h.node, size - aligned_bytes⟩ frag_map
      some ({ h with
        free_list_ := insert_node entry free_list_
        block_list_ := insert block frag_map h.block_list_
        node := h.node + 1 }, base)
    else
      some ({ h with free_list_ := free_list_, block_list_ := insert block frag_map h.block_list_ },
        base)

/-- Start a block with `aligned_bytes` of it in use; `block_list_[base]` makes the map if there is
    none. -/
def start_block (h : SimpleHeap) (aligned_bytes base size : ℕ) : Option (SimpleHeap × ℕ) :=
  let in_use_size_ := h.in_use_size_ + size
  if size < aligned_bytes then none
  else
    let frag_map := (find base h.block_list_).getD []
    if size > aligned_bytes then
      let entry : FreeEntry := ⟨size - aligned_bytes, base + aligned_bytes, h.node⟩
      let frag_map := insert (base + aligned_bytes) ⟨some h.node, size - aligned_bytes⟩ frag_map
      some ({ h with
        free_list_ := insert_node entry h.free_list_
        block_list_ := insert base (insert base ⟨none, aligned_bytes⟩ frag_map) h.block_list_
        in_use_size_ := in_use_size_
        node := h.node + 1 }, base)
    else
      some ({ h with
        block_list_ := insert base (insert base ⟨none, aligned_bytes⟩ frag_map) h.block_list_
        in_use_size_ := in_use_size_ }, base)

/-- `alloc(bytes)`, with the pointer returned. `fresh` is what the block allocator answers if it is
    asked: null, or a block of `block_size` bytes. -/
def alloc (block_size : ℕ) (h : SimpleHeap) (bytes : ℕ) (fresh : Option ℕ) :
    Option (SimpleHeap × Option ℕ) :=
  let aligned_bytes := get_aligned_bytes bytes
  if aligned_bytes > block_size then some (h, none)
  else match lower_bound aligned_bytes h.free_list_ with
    | some free_fragment => do
      let (h, base) ← alloc_fragment h aligned_bytes free_fragment
      return (h, some base)
    | none =>
      match h.block_cache_.getLast? with
      | some block => do
        let h := { h with
          block_cache_ := h.block_cache_.dropLast
          cache_size_ := h.cache_size_ - block.length_ }
        let (h, base) ← start_block h aligned_bytes block.base_ptr_ block.length_
        return (h, some base)
      | none =>
        match fresh with
        | none => some (h, none)
        | some base => do
          let (h, base) ← start_block h aligned_bytes base block_size
          return (h, some base)

/-! ### free -/

/-- Merge the fragment at `at_` into a free one below it; the address of the merged fragment comes
    last. -/
def merge_lower (free_list_ : List FreeEntry) (frag_map : FragMap) (at_ : ℕ) (fragment : Fragment) :
    List FreeEntry × FragMap × ℕ × Fragment :=
  match below at_ frag_map with
  | some (lower_at, lower) =>
    match lower.free_list_entry_ with
    | some entry =>
      let merged := { lower with size := lower.size + fragment.size }
      (erase_node entry free_list_, insert lower_at merged (erase at_ frag_map), lower_at, merged)
    | none => (free_list_, frag_map, at_, fragment)
  | none => (free_list_, frag_map, at_, fragment)

/-- Merge a free fragment above into the one at `at_`. -/
def merge_upper (free_list_ : List FreeEntry) (frag_map : FragMap) (at_ : ℕ) (fragment : Fragment) :
    List FreeEntry × FragMap × Fragment :=
  match above at_ frag_map with
  | some (upper_at, upper) =>
    match upper.free_list_entry_ with
    | some entry =>
      let merged := { fragment with size := fragment.size + upper.size }
      (erase_node entry free_list_, insert at_ merged (erase upper_at frag_map), merged)
    | none => (free_list_, frag_map, fragment)
  | none => (free_list_, frag_map, fragment)

/-- Release old blocks when over the cache limit: what stays cached, and what is released. -/
def evict (in_use_size_ : ℕ) : List Block → ℕ → (List Block × ℕ) × List Block
  | block :: next :: rest, cache_size_ =>
    if cache_size_ > uint64 (in_use_size_ * 2) then
      let (kept, released) := evict in_use_size_ (next :: rest) (cache_size_ - block.length_)
      (kept, block :: released)
    else ((block :: next :: rest, cache_size_), [])
  | block_cache_, cache_size_ => ((block_cache_, cache_size_), [])

/-- Move a wholly free block to the cache. -/
def retire (h : SimpleHeap) (block at_ : ℕ) (fragment : Fragment) : SimpleHeap × List Block :=
  let in_use_size_ := h.in_use_size_ - fragment.size
  let (kept, released) :=
    evict in_use_size_ (h.block_cache_ ++ [⟨at_, fragment.size⟩]) (h.cache_size_ + fragment.size)
  ({ h with
    block_list_ := erase block h.block_list_
    block_cache_ := kept.1
    in_use_size_ := in_use_size_
    cache_size_ := kept.2 }, released)

/-- `free(ptr)`, with its result and the blocks it releases to the block allocator. -/
def free (h : SimpleHeap) (ptr : ℕ) : SimpleHeap × Bool × List Block :=
  if ptr = 0 then (h, true, [])
  else match floor ptr h.block_list_ with
    | none => (h, false, [])
    | some (block, frag_map) =>
      match find ptr frag_map with
      | none => (h, false, [])
      | some fragment =>
        if isFree fragment then (h, false, [])
        else
          let (free_list_, frag_map, at_, fragment) := merge_lower h.free_list_ frag_map ptr fragment
          let (free_list_, frag_map, fragment) := merge_upper free_list_ frag_map at_ fragment
          if frag_map.length = 1 then
            let (h, released) := retire { h with free_list_ := free_list_ } block at_ fragment
            (h, true, released)
          else
            ({ h with
              free_list_ := insert_node ⟨fragment.size, at_, h.node⟩ free_list_
              block_list_ := insert block (insert at_ (setFree fragment h.node) frag_map) h.block_list_
              node := h.node + 1 }, true, [])

/-- `trim()`, with the blocks it releases. -/
def trim (h : SimpleHeap) : SimpleHeap × List Block :=
  ({ h with block_cache_ := [], cache_size_ := 0 }, h.block_cache_)

/-! ### Runs -/

inductive HeapOp where
  | alloc (bytes : ℕ) (fresh : Option ℕ)
  | free (ptr : ℕ)
  | trim

/-- A heap and its user: the pointers handed out and not freed since, each with the bytes asked for. -/
structure HeapUse where
  heap : SimpleHeap := {}
  live : List (ℕ × ℕ) := []

/-- One operation; the events are the blocks released. -/
def heapStep (block_size : ℕ) (u : HeapUse) : HeapOp → Option (HeapUse × List Block)
  | .alloc bytes fresh => do
    let (heap, ptr) ← alloc block_size u.heap bytes fresh
    return (⟨heap, (ptr.map fun p => (p, bytes)).toList ++ u.live⟩, [])
  | .free ptr =>
    let (heap, ret, released) := free u.heap ptr
    some (⟨heap, if ret then u.live.filter (fun p => decide (p.1 ≠ ptr)) else u.live⟩, released)
  | .trim =>
    let (heap, released) := trim u.heap
    some (⟨heap, u.live⟩, released)

end PimLibrary.Manager
