import PimLibrary.Manager.HeapErrors

/-! `HipBlockAllocator`, and `SimpleHeap::alloc` on top of it.

    Every device has one pool, and the first block takes it. The device answers with `hipMalloc` in an
    EMULATOR build and with `fmm_map_pim` otherwise. A failed `hipMalloc` is answered with `-1`,
    which as a pointer is not null. A block up there would wrap in the address space; nothing below
    looks at its fragments' addresses. -/

namespace PimLibrary.Manager
open Schemes.Word Schemes.OrdMap

/-- `pim_alloc_done` and `g_pim_base_addr`, by device. -/
structure Pools where
  pim_alloc_done : ℕ → Bool := fun _ => false
  g_pim_base_addr : ℕ → UInt64 := fun _ => 0

/-- What the device does when it is asked for a block. -/
structure DeviceAnswer where
  /-- `hipMalloc` returns `hipSuccess`. -/
  hipSuccess : Bool
  /-- The pointer that a successful `hipMalloc` stores. -/
  hipMalloc : UInt64
  /-- What `fmm_map_pim` returns: 0 when it fails. -/
  fmm_map_pim : UInt64

def take_pool (g : Pools) (host_id : ℕ) (ret : UInt64) : Pools where
  pim_alloc_done := Function.update g.pim_alloc_done host_id true
  g_pim_base_addr := Function.update g.g_pim_base_addr host_id ret

def allocate_pim_block (emulator : Bool) (dev : DeviceAnswer) (g : Pools) (host_id : ℕ) :
    UInt64 × Pools :=
  if g.pim_alloc_done host_id then (0, g)
  else if emulator && !dev.hipSuccess then (-1, g)
  else
    let ret := if emulator then dev.hipMalloc else dev.fmm_map_pim
    if ret ≠ 0 then (ret, take_pool g host_id ret) else (ret, g)

/-- `HipBlockAllocator::alloc`: the pointer, `allocated_size` when it is set, and the pools. -/
def block_alloc (block_size : ℕ) (emulator : Bool) (dev : DeviceAnswer) (g : Pools) (host_id : ℕ) :
    UInt64 × Option ℕ × Pools :=
  let (ret, g) := allocate_pim_block emulator dev g host_id
  if ret = 0 then (0, none, g) else (ret, some block_size, g)

/-- The pointer as `SimpleHeap` tests it. -/
def block_ptr (ptr : UInt64) : Option ℕ := if ptr = 0 then none else some ptr.toNat

/-- No free fragment fits and no block is cached. -/
def NeedsBlock (block_size : ℕ) (h : SimpleHeap) (bytes : ℕ) : Prop :=
  get_aligned_bytes bytes ≤ block_size ∧ lower_bound (get_aligned_bytes bytes) h.free_list_ = none ∧
    h.block_cache_ = []

instance (block_size : ℕ) (h : SimpleHeap) (bytes : ℕ) : Decidable (NeedsBlock block_size h bytes) := by
  delta NeedsBlock
  infer_instance

/-- `SimpleHeap::alloc` with its block allocator, which is asked only for a block that is needed. -/
def pool_alloc (block_size : ℕ) (emulator : Bool) (dev : DeviceAnswer) (g : Pools) (host_id : ℕ)
    (h : SimpleHeap)
    (bytes : ℕ) : Option (SimpleHeap × Option ℕ) × Pools :=
  let (ptr, _, g') := block_alloc block_size emulator dev g host_id
  (alloc block_size h bytes (block_ptr ptr), if NeedsBlock block_size h bytes then g' else g)

/-- The device fails, or its pool is taken. -/
def Refused (emulator : Bool) (dev : DeviceAnswer) (g : Pools) (host_id : ℕ) : Prop :=
  g.pim_alloc_done host_id = true ∨ if emulator then dev.hipSuccess = false else dev.fmm_map_pim = 0

/-- `hipMalloc` is asked, and fails. -/
def MallocFails (emulator : Bool) (dev : DeviceAnswer) (g : Pools) (host_id : ℕ) : Prop :=
  emulator = true ∧ g.pim_alloc_done host_id = false ∧ dev.hipSuccess = false

variable {block_size : ℕ} {emulator : Bool} {dev : DeviceAnswer} {g : Pools} {host_id : ℕ}
  {h : SimpleHeap}
variable {bytes : ℕ}

/-! ### The block allocator -/

theorem MallocFails.refused (hfails : MallocFails emulator dev g host_id) :
    Refused emulator dev g host_id := by
  obtain ⟨rfl, -, hmalloc⟩ := hfails
  exact Or.inr hmalloc

theorem block_alloc_of_mallocFails (hfails : MallocFails emulator dev g host_id) :
    block_alloc block_size emulator dev g host_id = (-1, some block_size, g) := by
  obtain ⟨rfl, hpool, hmalloc⟩ := hfails
  simp [block_alloc, allocate_pim_block, hpool, hmalloc]

theorem block_alloc_of_refused (hrefused : Refused emulator dev g host_id)
    (hmalloc : ¬ MallocFails emulator dev g host_id) :
    block_alloc block_size emulator dev g host_id = (0, none, g) := by
  rcases hpool : g.pim_alloc_done host_id with - | -
  · rcases emulator with - | -
    · have hmap : dev.fmm_map_pim = 0 := by simpa [Refused, hpool] using hrefused
      simp [block_alloc, allocate_pim_block, hpool, hmap]
    · have hfail : dev.hipSuccess = false := by simpa [Refused, hpool] using hrefused
      exact absurd ⟨rfl, hpool, hfail⟩ hmalloc
  · simp [block_alloc, allocate_pim_block, hpool]

/-! ### The heap -/

/-- An allocation that needs a block gets what the block allocator answers. -/
theorem alloc_of_needsBlock (hneeds : NeedsBlock block_size h bytes) (fresh : Option ℕ) :
    alloc block_size h bytes fresh = match fresh with
      | none => some (h, none)
      | some base => (start_block h (get_aligned_bytes bytes) base block_size).map fun r =>
        (r.1, some r.2) := by
  obtain ⟨hle, hfit, hcache⟩ := hneeds
  unfold alloc
  simp only [if_neg (not_lt.mpr hle), hfit, hcache, List.getLast?_nil]
  rcases fresh with - | base
  · rfl
  · rcases hstart : start_block h (get_aligned_bytes bytes) base block_size with - | r <;> simp [hstart]

/-- A request above the block size is refused at once. -/
theorem alloc_of_large (hlarge : block_size < get_aligned_bytes bytes) (fresh : Option ℕ) :
    alloc block_size h bytes fresh = some (h, none) := by
  unfold alloc
  simp only [gt_iff_lt, if_pos hlarge]

/-- A block that comes back is published and counted. -/
theorem start_block_counts (hle : get_aligned_bytes bytes ≤ block_size) (base : ℕ) :
    ∃ h', start_block h (get_aligned_bytes bytes) base block_size = some (h', base) ∧
      h'.in_use_size_ = h.in_use_size_ + block_size ∧ base ∈ h'.block_list_.map Prod.fst := by
  rw [start_block]
  simp only [if_neg (not_lt.mpr hle)]
  split_ifs
  · exact ⟨_, rfl, rfl, List.mem_map_of_mem mem_insert⟩
  · exact ⟨_, rfl, rfl, List.mem_map_of_mem mem_insert⟩

/-- A failed `hipMalloc` leaves a block at the top of the address space in the heap. -/
theorem published_of_mallocFails (hfails : MallocFails emulator dev g host_id)
    (hneeds : NeedsBlock block_size h bytes) :
    ∃ h', pool_alloc block_size emulator dev g host_id h bytes = (some (h', some (2 ^ 64 - 1)), g) ∧
      h'.in_use_size_ = h.in_use_size_ + block_size ∧ 2 ^ 64 - 1 ∈ h'.block_list_.map Prod.fst := by
  obtain ⟨h', hstart, hsize, hmem⟩ := start_block_counts (h := h) hneeds.1 (2 ^ 64 - 1)
  have hptr : block_ptr (-1) = some (2 ^ 64 - 1) := by decide
  refine ⟨h', ?_, hsize, hmem⟩
  rw [pool_alloc, block_alloc_of_mallocFails hfails]
  simp only [hptr, alloc_of_needsBlock hneeds, hstart, Option.map_some, if_pos hneeds]

/-- When the device refuses, null comes back and nothing changes. -/
def Reported (block_size : ℕ) (emulator : Bool) (dev : DeviceAnswer) (g : Pools) (host_id : ℕ)
    (h : SimpleHeap)
    (bytes : ℕ) : Prop :=
  (block_alloc block_size emulator dev g host_id).1 = 0 ∧
    pool_alloc block_size emulator dev g host_id h bytes = (some (h, none), g)

/-- A refusal is reported exactly when it is not a failed `hipMalloc`: not by the block allocator,
    and not by the heap either. -/
theorem refusal_reported_iff (block_size : ℕ) (emulator : Bool) (dev : DeviceAnswer) (g : Pools)
    (host_id : ℕ)
    (h : SimpleHeap) (bytes : ℕ) (hneeds : NeedsBlock block_size h bytes) :
    ((Refused emulator dev g host_id → Reported block_size emulator dev g host_id h bytes) ↔
      ¬ MallocFails emulator dev g host_id) ∧
    (MallocFails emulator dev g host_id → (pool_alloc block_size emulator dev g host_id h bytes).1 ≠
      some (h, none)) := by
  have hpublished : MallocFails emulator dev g host_id →
      (pool_alloc block_size emulator dev g host_id h bytes).1 ≠ some (h, none) := by
    intro hfails
    obtain ⟨h', halloc, -⟩ := published_of_mallocFails hfails hneeds
    simp [halloc]
  refine ⟨⟨?_, ?_⟩, hpublished⟩
  · intro hreported hfails
    exact hpublished hfails (by rw [(hreported hfails.refused).2])
  · intro hmalloc hrefused
    have hblock : block_alloc block_size emulator dev g host_id = (0, none, g) :=
      block_alloc_of_refused hrefused hmalloc
    refine ⟨by rw [hblock], ?_⟩
    rw [pool_alloc, hblock]
    simp [block_ptr, alloc_of_needsBlock hneeds]

/-- A second block of a device whose pool is taken. -/
theorem refusal_reported_taken :
    ((Refused true ⟨true, 4096, 0⟩ ⟨fun _ => true, fun _ => 4096⟩ 0 →
        Reported 536870912 true ⟨true, 4096, 0⟩ ⟨fun _ => true, fun _ => 4096⟩ 0 {} 100) ↔
      ¬ MallocFails true ⟨true, 4096, 0⟩ ⟨fun _ => true, fun _ => 4096⟩ 0) ∧
    (MallocFails true ⟨true, 4096, 0⟩ ⟨fun _ => true, fun _ => 4096⟩ 0 →
      (pool_alloc 536870912 true ⟨true, 4096, 0⟩ ⟨fun _ => true, fun _ => 4096⟩ 0 {} 100).1 ≠
        some ({}, none)) :=
  refusal_reported_iff 536870912 true ⟨true, 4096, 0⟩ ⟨fun _ => true, fun _ => 4096⟩ 0 {} 100
    (by decide +kernel)

/-- The first block of an EMULATOR build, when `hipMalloc` fails. -/
theorem malloc_failure_not_reported :
    NeedsBlock 536870912 {} 100 ∧ Refused true ⟨false, 0, 0⟩ {} 0 ∧
      (block_alloc 536870912 true ⟨false, 0, 0⟩ {} 0).1 = 18446744073709551615 ∧
      ¬ Reported 536870912 true ⟨false, 0, 0⟩ {} 0 {} 100 := by
  refine ⟨by decide +kernel, Or.inr rfl, by decide, fun hreported => ?_⟩
  exact absurd hreported.1 (by decide)

end PimLibrary.Manager
