import PimLibrary.Device.BoSize
import PimLibrary.Manager.BlockAllocator

/-! The return codes of the memory API.

    A call passes through `PimAllocMemory` and its relatives, `PimRuntime` and `PimManager` to
    `HipMemoryManager`, which asks `hipMalloc`, `hipHostMalloc` or the heap of the current device. The
    layers translate between a status, a `bool` and a null pointer; `none` is null. -/

namespace PimLibrary.Runtime.MemoryApi
open PimLibrary.Device PimLibrary.Manager

/-! ### The allocators underneath -/

/-- The status of `hipMalloc` or `hipHostMalloc`, and the pointer it leaves in the caller's variable. -/
structure HipAnswer where
  hipSuccess : Bool
  ptr : Option ℕ
  deriving DecidableEq

/-- The pointer that `SimpleHeap::alloc` returns, and whether its memory was really obtained. -/
structure HeapAnswer where
  ptr : Option ℕ
  backed : Bool
  deriving DecidableEq

/-- What the allocators do in a call, by size or by pointer. Freeing null succeeds. -/
structure Allocators where
  hipMalloc : ℕ → HipAnswer
  hipHostMalloc : ℕ → HipAnswer
  heapAlloc : ℕ → HeapAnswer
  hipFree : Option ℕ → Bool
  hipHostFree : Option ℕ → Bool
  heapFree : Option ℕ → Bool
  hipFree_null : hipFree none = true
  hipHostFree_null : hipHostFree none = true
  heapFree_null : heapFree none = true

variable (a : Allocators)

/-- The pointer that the allocator of the memory type answers with. -/
def Allocators.answer (size : ℕ) : PimMemType → Option ℕ
  | .MEM_TYPE_DEVICE => (a.hipMalloc size).ptr
  | .MEM_TYPE_HOST => (a.hipHostMalloc size).ptr
  | .MEM_TYPE_PIM => (a.heapAlloc size).ptr

/-- An allocation stands behind a pointer that is not null. -/
def Allocators.backed (size : ℕ) : PimMemType → Bool
  | .MEM_TYPE_DEVICE => (a.hipMalloc size).hipSuccess
  | .MEM_TYPE_HOST => (a.hipHostMalloc size).hipSuccess
  | .MEM_TYPE_PIM => (a.heapAlloc size).backed

/-- The allocator does not report a failure; the heap has no status to report one with. -/
def Allocators.reportsNone (size : ℕ) : PimMemType → Bool
  | .MEM_TYPE_DEVICE => (a.hipMalloc size).hipSuccess
  | .MEM_TYPE_HOST => (a.hipHostMalloc size).hipSuccess
  | .MEM_TYPE_PIM => true

/-- The memory is released. -/
def Allocators.released (ptr : Option ℕ) : PimMemType → Bool
  | .MEM_TYPE_DEVICE => a.hipFree ptr
  | .MEM_TYPE_HOST => a.hipHostFree ptr
  | .MEM_TYPE_PIM => a.heapFree ptr

/-! ### HipMemoryManager -/

/-- The fields of `PimBo` that the memory API reads and writes. -/
structure Bo where
  mem_type : PimMemType
  size : ℕ
  data : Option ℕ
  use_user_ptr : Bool
  deriving DecidableEq

namespace HipMemoryManager

/-- `alloc_memory(ptr, size, mem_type)`, with what is left in `*ptr`. -/
def alloc_memory (size : ℕ) (mem_type : PimMemType) : ℤ × Option ℕ :=
  match mem_type with
  | .MEM_TYPE_DEVICE => (if (a.hipMalloc size).hipSuccess then 0 else -1, (a.hipMalloc size).ptr)
  | .MEM_TYPE_HOST => (if (a.hipHostMalloc size).hipSuccess then 0 else -1, (a.hipHostMalloc size).ptr)
  | .MEM_TYPE_PIM => (0, (a.heapAlloc size).ptr)

def alloc_memory_bo (pim_bo : Bo) : ℤ × Bo :=
  match pim_bo.mem_type with
  | .MEM_TYPE_DEVICE =>
    (if (a.hipMalloc pim_bo.size).hipSuccess then 0 else -1,
      { pim_bo with data := (a.hipMalloc pim_bo.size).ptr })
  | .MEM_TYPE_HOST =>
    (if (a.hipHostMalloc pim_bo.size).hipSuccess then 0 else -1,
      { pim_bo with data := (a.hipHostMalloc pim_bo.size).ptr })
  | .MEM_TYPE_PIM => (0, { pim_bo with data := (a.heapAlloc pim_bo.size).ptr })

/-- `free_memory(ptr, mem_type)`. The PIM branch returns the `bool` of the heap. -/
def free_memory (ptr : Option ℕ) (mem_type : PimMemType) : ℤ :=
  match mem_type with
  | .MEM_TYPE_DEVICE => if a.hipFree ptr then 0 else -1
  | .MEM_TYPE_HOST => 0
  | .MEM_TYPE_PIM => if a.heapFree ptr then 1 else 0

def free_memory_bo (pim_bo : Bo) : ℤ × Bo :=
  match pim_bo.mem_type with
  | .MEM_TYPE_DEVICE => (if a.hipFree pim_bo.data then 0 else -1, pim_bo)
  | .MEM_TYPE_HOST => (0, { pim_bo with data := none })
  | .MEM_TYPE_PIM => (if a.heapFree pim_bo.data then 0 else -1, pim_bo)

end HipMemoryManager

/-! ### PimRuntime -/

namespace PimRuntime

def alloc_memory (size : ℕ) (mem_type : PimMemType) : ℤ × Option ℕ :=
  HipMemoryManager.alloc_memory a size mem_type

def alloc_memory_bo (pim_bo : Bo) (user_ptr : Option ℕ) : ℤ × Bo :=
  match user_ptr with
  | none =>
    let (ret, pim_bo) := HipMemoryManager.alloc_memory_bo a pim_bo
    (if ret ≠ 0 then -1 else ret, { pim_bo with use_user_ptr := false })
  | some user_ptr => (0, { pim_bo with data := some user_ptr, use_user_ptr := true })

def free_memory (ptr : Option ℕ) (mem_type : PimMemType) : ℤ :=
  HipMemoryManager.free_memory a ptr mem_type

def free_memory_bo (pim_bo : Bo) : ℤ × Bo :=
  if pim_bo.use_user_ptr then (0, pim_bo)
  else
    let (ret, pim_bo) := HipMemoryManager.free_memory_bo a pim_bo
    (if ret ≠ 0 then -1 else ret, pim_bo)

end PimRuntime

/-! ### The API -/

/-- `PimAllocMemory(ptr, size, mem_type)`. Its last check is of `ptr`, the address of the caller's
    variable. -/
def PimAllocMemory (pim_runtime : Bool) (size : ℕ) (mem_type : PimMemType) : ℤ × Option ℕ :=
  if pim_runtime then PimRuntime.alloc_memory a size mem_type else (-1, none)

def PimAllocMemory_bo (pim_runtime : Bool) (pim_bo : Bo) : ℤ × Bo :=
  if pim_runtime then
    let (ret, pim_bo) := PimRuntime.alloc_memory_bo a pim_bo none
    if pim_bo.data = none then (-1, pim_bo) else (ret, pim_bo)
  else (-1, pim_bo)

def PimFreeMemory (pim_runtime : Bool) (ptr : Option ℕ) (mem_type : PimMemType) : ℤ :=
  if pim_runtime then PimRuntime.free_memory a ptr mem_type else -1

def PimFreeMemory_bo (pim_runtime : Bool) (pim_bo : Bo) : ℤ × Bo :=
  if pim_runtime then PimRuntime.free_memory_bo a pim_bo else (-1, pim_bo)

/-- What a buffer object is created from. The operand of a GEMM descriptor is the one its flag names. -/
inductive BoSource where
  | dims (s : PimBShape) (precision : PimPrecision)
  | desc (pim_desc : PimDesc) (mem_flag : PimMemFlag)
  | gemm_desc (bshape : PimBShape) (precision : PimPrecision)

def BoSource.size : BoSource → ℕ
  | .dims s precision => (plain_size s precision).toNat
  | .desc pim_desc mem_flag => (desc_size pim_desc mem_flag).toNat
  | .gemm_desc bshape precision => (operand_size bshape precision).toNat

/-- `PimCreateBo`: the three overloads end alike. -/
def PimCreateBo (pim_runtime : Bool) (source : BoSource) (mem_type : PimMemType)
    (user_ptr : Option ℕ) : Option Bo :=
  if pim_runtime then
    let (ret, pim_bo) := PimRuntime.alloc_memory_bo a ⟨mem_type, source.size, none, false⟩ user_ptr
    if ret ≠ 0 then none else some pim_bo
  else none

/-! ### Calls at every layer -/

inductive Layer where
  | manager
  | runtime
  /-- The API, with a runtime or before there is one. -/
  | api (pim_runtime : Bool)
  deriving DecidableEq

/-- The call gets as far as the allocators. -/
def Layer.reaches : Layer → Bool
  | .api pim_runtime => pim_runtime
  | _ => true

inductive MemoryCall where
  | alloc (layer : Layer) (size : ℕ) (mem_type : PimMemType)
  | alloc_bo (layer : Layer) (pim_bo : Bo)
  | alloc_user (pim_bo : Bo) (user_ptr : ℕ)
  | free (layer : Layer) (ptr : Option ℕ) (mem_type : PimMemType)
  | free_bo (layer : Layer) (pim_bo : Bo)
  | create (pim_runtime : Bool) (source : BoSource) (mem_type : PimMemType) (user_ptr : Option ℕ)

def Layer.alloc : Layer → ℕ → PimMemType → ℤ × Option ℕ
  | .manager => HipMemoryManager.alloc_memory a
  | .runtime => PimRuntime.alloc_memory a
  | .api pim_runtime => PimAllocMemory a pim_runtime

def Layer.alloc_bo (pim_bo : Bo) : Layer → ℤ × Bo
  | .manager => HipMemoryManager.alloc_memory_bo a pim_bo
  | .runtime => PimRuntime.alloc_memory_bo a pim_bo none
  | .api pim_runtime => PimAllocMemory_bo a pim_runtime pim_bo

def Layer.free : Layer → Option ℕ → PimMemType → ℤ
  | .manager => HipMemoryManager.free_memory a
  | .runtime => PimRuntime.free_memory a
  | .api pim_runtime => PimFreeMemory a pim_runtime

def Layer.free_bo (pim_bo : Bo) : Layer → ℤ × Bo
  | .manager => HipMemoryManager.free_memory_bo a pim_bo
  | .runtime => PimRuntime.free_memory_bo a pim_bo
  | .api pim_runtime => PimFreeMemory_bo a pim_runtime pim_bo

/-- A valid allocation was handed out in this call. -/
def Handed (layer : Layer) (size : ℕ) (mem_type : PimMemType) (ptr : Option ℕ) : Prop :=
  layer.reaches = true ∧ ptr = a.answer size mem_type ∧ ptr ≠ none ∧ a.backed size mem_type = true

/-- A caller's pointer, which the layers above the manager do not release. -/
def Layer.ofUser (pim_bo : Bo) : Layer → Bool
  | .manager => false
  | _ => pim_bo.use_user_ptr

/-- The return code says what happened. -/
def MemoryCall.Right : MemoryCall → Prop
  | .alloc layer size mem_type =>
    (layer.alloc a size mem_type).1 = 0 ↔ Handed a layer size mem_type (layer.alloc a size mem_type).2
  | .alloc_bo layer pim_bo =>
    (layer.alloc_bo a pim_bo).1 = 0 ↔ Handed a layer pim_bo.size pim_bo.mem_type
      (layer.alloc_bo a pim_bo).2.data
  | .alloc_user pim_bo user_ptr =>
    (PimRuntime.alloc_memory_bo a pim_bo (some user_ptr)).1 = 0 ↔
      (PimRuntime.alloc_memory_bo a pim_bo (some user_ptr)).2.data = some user_ptr
  | .free layer ptr mem_type =>
    layer.free a ptr mem_type = 0 ↔ ptr = none ∨ layer.reaches = true ∧ a.released ptr mem_type = true
  | .free_bo layer pim_bo =>
    (layer.free_bo a pim_bo).1 = 0 ↔ pim_bo.data = none ∨ layer.reaches = true ∧
      layer.ofUser pim_bo = false ∧ a.released pim_bo.data pim_bo.mem_type = true
  | .create pim_runtime source mem_type user_ptr =>
    ∀ pim_bo, PimCreateBo a pim_runtime source mem_type user_ptr = some pim_bo → pim_bo.data ≠ none

/-- A pointer overload cannot tell null or unbacked memory from an allocation. -/
def Allocators.Honest (size : ℕ) (mem_type : PimMemType) : Prop :=
  a.reportsNone size mem_type = true → a.answer size mem_type ≠ none ∧ a.backed size mem_type = true

/-- What a call depends on for its return code. -/
def MemoryCall.Sound : MemoryCall → Prop
  | .alloc layer size mem_type => layer.reaches = true → a.Honest size mem_type
  | .alloc_bo (.api pim_runtime) pim_bo =>
    pim_runtime = true → a.answer pim_bo.size pim_bo.mem_type ≠ none →
      a.reportsNone pim_bo.size pim_bo.mem_type = true → a.backed pim_bo.size pim_bo.mem_type = true
  | .alloc_bo _ pim_bo => a.Honest pim_bo.size pim_bo.mem_type
  | .alloc_user _ _ => True
  | .free layer ptr mem_type =>
    if layer.reaches then
      match mem_type with
      | .MEM_TYPE_DEVICE => True
      | .MEM_TYPE_HOST => a.hipHostFree ptr = true
      | .MEM_TYPE_PIM => False
    else ptr ≠ none
  | .free_bo layer pim_bo =>
    if layer.reaches then
      if layer.ofUser pim_bo then pim_bo.data = none
      else pim_bo.mem_type = .MEM_TYPE_HOST → a.hipHostFree pim_bo.data = true
    else pim_bo.data ≠ none
  | .create pim_runtime source mem_type user_ptr =>
    pim_runtime = true → user_ptr = none → a.reportsNone source.size mem_type = true →
      a.answer source.size mem_type ≠ none

variable {a}

/-! ### Each layer -/

theorem Allocators.reportsNone_of_backed {size : ℕ} {mem_type : PimMemType}
    (h : a.backed size mem_type = true) : a.reportsNone size mem_type = true := by
  cases mem_type with
  | MEM_TYPE_PIM => rfl
  | MEM_TYPE_HOST => exact h
  | MEM_TYPE_DEVICE => exact h

theorem Allocators.released_null (mem_type : PimMemType) : a.released none mem_type = true := by
  cases mem_type with
  | MEM_TYPE_PIM => exact a.heapFree_null
  | MEM_TYPE_HOST => exact a.hipHostFree_null
  | MEM_TYPE_DEVICE => exact a.hipFree_null

/-- The status of an allocator decides the return code. -/
theorem manager_alloc (size : ℕ) (mem_type : PimMemType) :
    HipMemoryManager.alloc_memory a size mem_type =
    (if a.reportsNone size mem_type then 0 else -1, a.answer size mem_type) := by
  cases mem_type <;> rfl

theorem manager_alloc_bo (pim_bo : Bo) : HipMemoryManager.alloc_memory_bo a pim_bo =
    (if a.reportsNone pim_bo.size pim_bo.mem_type then 0 else -1,
      { pim_bo with data := a.answer pim_bo.size pim_bo.mem_type }) := by
  rcases pim_bo with ⟨mem_type, size, data, use_user_ptr⟩
  cases mem_type <;> rfl

theorem runtime_alloc_bo (pim_bo : Bo) : PimRuntime.alloc_memory_bo a pim_bo none =
    (if a.reportsNone pim_bo.size pim_bo.mem_type then 0 else -1,
      { pim_bo with data := a.answer pim_bo.size pim_bo.mem_type, use_user_ptr := false }) := by
  rw [PimRuntime.alloc_memory_bo, manager_alloc_bo]
  rcases a.reportsNone pim_bo.size pim_bo.mem_type with - | - <;> rfl

/-- With a buffer object `free_memory` ignores only `hipHostFree`. -/
theorem manager_free_bo (pim_bo : Bo) : (HipMemoryManager.free_memory_bo a pim_bo).1 = 0 ↔
    pim_bo.mem_type = .MEM_TYPE_HOST ∨ a.released pim_bo.data pim_bo.mem_type = true := by
  rcases pim_bo with ⟨mem_type, size, data, use_user_ptr⟩
  cases mem_type <;> simp [HipMemoryManager.free_memory_bo, Allocators.released]

theorem runtime_free_bo (pim_bo : Bo) : (PimRuntime.free_memory_bo a pim_bo).1 = 0 ↔
    pim_bo.use_user_ptr = true ∨ (HipMemoryManager.free_memory_bo a pim_bo).1 = 0 := by
  rw [PimRuntime.free_memory_bo]
  split_ifs with huser
  · simp [huser]
  · by_cases hret : (HipMemoryManager.free_memory_bo a pim_bo).1 = 0 <;> simp [huser, hret]

/-- A status that is passed on is right where the allocator is honest. -/
theorem status_right_iff (size : ℕ) (mem_type : PimMemType) :
    (a.reportsNone size mem_type = true ↔ a.answer size mem_type ≠ none ∧
      a.backed size mem_type = true) ↔
      a.Honest size mem_type := by
  constructor
  · intro h
    exact h.mp
  · intro h
    exact ⟨h, fun hvalid => Allocators.reportsNone_of_backed hvalid.2⟩

/-! ### Each call -/

theorem alloc_right_iff (layer : Layer) (size : ℕ) (mem_type : PimMemType) :
    (MemoryCall.alloc layer size mem_type).Right a ↔
      (MemoryCall.alloc layer size mem_type).Sound a := by
  have hreaches : layer.reaches = true →
      layer.alloc a size mem_type = HipMemoryManager.alloc_memory a size mem_type := by
    rcases layer with - | - | pim_runtime
    · simp [Layer.alloc]
    · simp [Layer.alloc, PimRuntime.alloc_memory]
    · rintro rfl
      rfl
  rcases hlayer : layer.reaches with - | -
  · obtain rfl : layer = .api false := by
      rcases layer with - | - | pim_runtime <;> simp_all [Layer.reaches]
    simp [MemoryCall.Right, MemoryCall.Sound, Layer.alloc, PimAllocMemory, Handed, Layer.reaches]
  · simp only [MemoryCall.Right, MemoryCall.Sound, hreaches hlayer, manager_alloc, Handed,
      hlayer, true_and, forall_const]
    rw [← status_right_iff]
    simp

theorem alloc_bo_right_iff (layer : Layer) (pim_bo : Bo) :
    (MemoryCall.alloc_bo layer pim_bo).Right a ↔ (MemoryCall.alloc_bo layer pim_bo).Sound a := by
  rcases layer with - | - | pim_runtime
  · simp only [MemoryCall.Right, MemoryCall.Sound, Layer.alloc_bo, manager_alloc_bo, Handed,
      Layer.reaches]
    rw [← status_right_iff]
    simp
  · simp only [MemoryCall.Right, MemoryCall.Sound, Layer.alloc_bo, runtime_alloc_bo, Handed,
      Layer.reaches]
    rw [← status_right_iff]
    simp
  · cases pim_runtime with
    | false => simp [MemoryCall.Right, MemoryCall.Sound, Layer.alloc_bo, PimAllocMemory_bo, Handed,
      Layer.reaches]
    | true =>
      have hstatus : a.backed pim_bo.size pim_bo.mem_type = true →
          a.reportsNone pim_bo.size pim_bo.mem_type = true :=
        Allocators.reportsNone_of_backed
      simp only [MemoryCall.Right, MemoryCall.Sound, Layer.alloc_bo, PimAllocMemory_bo,
        runtime_alloc_bo, Handed, Layer.reaches, if_true]
      -- the last check of the data pointer is the one that the pointer overload lacks
      by_cases hnull : a.answer pim_bo.size pim_bo.mem_type = none
      · simp [hnull]
      · revert hstatus
        rcases a.reportsNone pim_bo.size pim_bo.mem_type with - | - <;>
          rcases a.backed pim_bo.size pim_bo.mem_type with - | - <;> simp [hnull]

theorem free_right_iff (layer : Layer) (ptr : Option ℕ) (mem_type : PimMemType) :
    (MemoryCall.free layer ptr mem_type).Right a ↔ (MemoryCall.free layer ptr mem_type).Sound a := by
  have hnull : ptr = none → a.released ptr mem_type = true := by
    rintro rfl
    exact Allocators.released_null mem_type
  have hreaches : layer.reaches = true → layer.free a ptr mem_type =
      HipMemoryManager.free_memory a ptr mem_type := by
    rcases layer with - | - | pim_runtime
    · simp [Layer.free]
    · simp [Layer.free, PimRuntime.free_memory]
    · rintro rfl
      rfl
  rcases hlayer : layer.reaches with - | -
  · obtain rfl : layer = .api false := by
      rcases layer with - | - | pim_runtime <;> simp_all [Layer.reaches]
    simp [MemoryCall.Right, MemoryCall.Sound, Layer.free, PimFreeMemory, Layer.reaches]
  · have howed : (ptr = none ∨ a.released ptr mem_type = true) ↔ a.released ptr mem_type = true :=
      or_iff_right_of_imp hnull
    simp only [MemoryCall.Right, MemoryCall.Sound, hreaches hlayer, hlayer, true_and, if_true, howed]
    cases mem_type with
    | MEM_TYPE_DEVICE => simp [HipMemoryManager.free_memory, Allocators.released]
    | MEM_TYPE_HOST => simp [HipMemoryManager.free_memory, Allocators.released]
    | MEM_TYPE_PIM =>
      rcases hfree : a.heapFree ptr with - | - <;> simp [HipMemoryManager.free_memory,
        Allocators.released, hfree]

theorem free_bo_right_iff (layer : Layer) (pim_bo : Bo) :
    (MemoryCall.free_bo layer pim_bo).Right a ↔ (MemoryCall.free_bo layer pim_bo).Sound a := by
  have hnull : pim_bo.data = none → a.released pim_bo.data pim_bo.mem_type = true := by
    intro hdata
    rw [hdata]
    exact Allocators.released_null _
  have hret : layer.reaches = true → ((layer.free_bo a pim_bo).1 = 0 ↔ layer.ofUser pim_bo = true ∨
      pim_bo.mem_type = .MEM_TYPE_HOST ∨ a.released pim_bo.data pim_bo.mem_type = true) := by
    rw [← manager_free_bo]
    rcases layer with - | - | pim_runtime
    · simp [Layer.free_bo, Layer.ofUser]
    · simp [Layer.free_bo, Layer.ofUser, runtime_free_bo]
    · rintro rfl
      simp [Layer.free_bo, Layer.ofUser, PimFreeMemory_bo, runtime_free_bo]
  rcases hlayer : layer.reaches with - | -
  · obtain rfl : layer = .api false := by
      rcases layer with - | - | pim_runtime <;> simp_all [Layer.reaches]
    simp [MemoryCall.Right, MemoryCall.Sound, Layer.free_bo, PimFreeMemory_bo, Layer.reaches]
  · simp only [MemoryCall.Right, MemoryCall.Sound, hret hlayer, hlayer, true_and, if_true]
    have hhost : pim_bo.mem_type = .MEM_TYPE_HOST →
        (a.released pim_bo.data pim_bo.mem_type = true ↔ a.hipHostFree pim_bo.data = true) := by
      intro hmem
      rw [hmem]
      rfl
    cases layer.ofUser pim_bo with
    | true => simp
    | false =>
      -- what is left to ask is a HOST buffer
      simp only [Bool.false_eq_true, false_or, true_and, if_false]
      rw [or_iff_right_of_imp hnull]
      by_cases hmem : pim_bo.mem_type = .MEM_TYPE_HOST
      · rw [hhost hmem]
        simp [hmem]
      · simp [hmem]

theorem create_right_iff (pim_runtime : Bool) (source : BoSource) (mem_type : PimMemType)
    (user_ptr : Option ℕ) :
    (MemoryCall.create pim_runtime source mem_type user_ptr).Right a ↔
      (MemoryCall.create pim_runtime source mem_type user_ptr).Sound a := by
  cases pim_runtime with
  | false => simp [MemoryCall.Right, MemoryCall.Sound, PimCreateBo]
  | true =>
    rcases user_ptr with - | user_ptr
    · simp only [MemoryCall.Right, MemoryCall.Sound, PimCreateBo, runtime_alloc_bo, if_true]
      rcases a.reportsNone source.size mem_type with - | - <;> simp
    · simp [MemoryCall.Right, MemoryCall.Sound, PimCreateBo, PimRuntime.alloc_memory_bo]

/-! ### The heap as the allocator of PIM memory -/

/-- Memory stands behind what the heap returns when `fresh` is a block of the device. -/
def heapAnswer (block_size : ℕ) (h : SimpleHeap) (fresh : Option ℕ) (bytes : ℕ) : HeapAnswer :=
  let ptr := (Manager.alloc block_size h bytes fresh).bind Prod.snd
  ⟨ptr, ptr.isSome⟩

def Allocators.withHeap (a : Allocators) (block_size : ℕ) (h : SimpleHeap)
    (fresh : Option ℕ) : Allocators :=
  { a with
    heapAlloc := heapAnswer block_size h fresh
    heapFree := fun ptr => (Manager.free h (ptr.getD 0)).2.1
    heapFree_null := by simp [Manager.free] }

variable {block_size : ℕ} {h : SimpleHeap} {fresh : Option ℕ} {bytes : ℕ}

@[simp] theorem withHeap_heapAlloc : (a.withHeap block_size h fresh).heapAlloc =
    heapAnswer block_size h fresh := by
  rw [Allocators.withHeap]

@[simp] theorem withHeap_heapFree :
    (a.withHeap block_size h fresh).heapFree = fun ptr => (Manager.free h (ptr.getD 0)).2.1 := by
  rw [Allocators.withHeap]

/-- The heap releases null and the pointers to its used fragments. -/
theorem withHeap_released (hinv : HeapInv block_size h) (ptr : Option ℕ) :
    (a.withHeap block_size h fresh).released ptr .MEM_TYPE_PIM = true ↔
      ptr.getD 0 = 0 ∨ ∃ size, (ptr.getD 0, size) ∈ usedRegions h := by
  simp only [Allocators.released, withHeap_heapFree]
  generalize ptr.getD 0 = p
  by_cases hused : ∃ size, (p, size) ∈ usedRegions h
  · obtain ⟨size, hmem⟩ := hused
    obtain ⟨h', released, hfree, -⟩ := free_used hinv hmem
    exact iff_of_true (by rw [hfree]) (Or.inr ⟨size, hmem⟩)
  · rw [free_unused hinv (not_exists.mp hused)]
    simp [hused]

/-- A heap without a block for a request: 0 and a null pointer. -/
theorem PimAllocMemory_exhausted (hneeds : NeedsBlock block_size h bytes ∨ block_size <
    get_aligned_bytes bytes) :
    PimAllocMemory (a.withHeap block_size h none) true bytes .MEM_TYPE_PIM = (0, none) := by
  have halloc : Manager.alloc block_size h bytes none = some (h, none) := by
    rcases hneeds with hneeds | hlarge
    · exact alloc_of_needsBlock hneeds none
    · exact alloc_of_large hlarge none
  have hanswer : (heapAnswer block_size h none bytes).ptr = none := by
    simp only [heapAnswer, halloc, Option.bind_some]
  simp only [PimAllocMemory, PimRuntime.alloc_memory, HipMemoryManager.alloc_memory, if_true,
    withHeap_heapAlloc, hanswer]

variable (a)

/-- A return code says what happened exactly where the call is sound. -/
theorem return_codes_right_iff (call : MemoryCall) : call.Right a ↔ call.Sound a := by
  cases call with
  | alloc layer size mem_type => exact alloc_right_iff layer size mem_type
  | alloc_bo layer pim_bo => exact alloc_bo_right_iff layer pim_bo
  | alloc_user pim_bo user_ptr => simp [MemoryCall.Right, MemoryCall.Sound, PimRuntime.alloc_memory_bo]
  | free layer ptr mem_type => exact free_right_iff layer ptr mem_type
  | free_bo layer pim_bo => exact free_bo_right_iff layer pim_bo
  | create pim_runtime source mem_type user_ptr =>
    exact create_right_iff pim_runtime source mem_type user_ptr

/-- Every `hipMalloc` and every `hipFree` succeeds. -/
def hipGrants : Allocators where
  hipMalloc := fun _ => ⟨true, some 4096⟩
  hipHostMalloc := fun _ => ⟨true, some 4096⟩
  heapAlloc := fun _ => ⟨none, false⟩
  hipFree := fun _ => true
  hipHostFree := fun _ => true
  heapFree := Option.isNone
  hipFree_null := rfl
  hipHostFree_null := rfl
  heapFree_null := rfl

/-- More than a block: 0 with a null pointer. A pointer that the heap does not know: not released,
    but 0. -/
theorem return_codes_wrong :
    PimAllocMemory (hipGrants.withHeap 536870912 {} none) true 536870976 .MEM_TYPE_PIM = (0, none) ∧
      ¬ (MemoryCall.alloc (.api true) 536870976 .MEM_TYPE_PIM).Right
        (hipGrants.withHeap 536870912 {} none) ∧
      PimFreeMemory (hipGrants.withHeap 536870912 {} none) true (some 4096) .MEM_TYPE_PIM = 0 ∧
      (hipGrants.withHeap 536870912 {} none).released (some 4096) .MEM_TYPE_PIM = false ∧
      ¬ (MemoryCall.free (.api true) (some 4096) .MEM_TYPE_PIM).Right
        (hipGrants.withHeap 536870912 {} none) := by
  have hlarge : 536870912 < get_aligned_bytes 536870976 := by decide +kernel
  have hnull := PimAllocMemory_exhausted (a := hipGrants) (h := {}) (Or.inr hlarge)
  have hreleased : (hipGrants.withHeap 536870912 {} none).released (some 4096)
      .MEM_TYPE_PIM = false := by
    simp [Allocators.released, Manager.free, Schemes.OrdMap.floor]
  have hfree : PimFreeMemory (hipGrants.withHeap 536870912 {} none) true (some 4096)
      .MEM_TYPE_PIM = 0 := by
    simp [PimFreeMemory, PimRuntime.free_memory, HipMemoryManager.free_memory, Manager.free,
      Schemes.OrdMap.floor]
  refine ⟨hnull, ?_, hfree, hreleased, ?_⟩
  · intro hright
    have hhanded := hright.mp (congrArg Prod.fst hnull)
    exact hhanded.2.2.1 (congrArg Prod.snd hnull)
  · intro hright
    rcases hright.mp hfree with hptr | ⟨-, hdone⟩
    · cases hptr
    · exact absurd hdone (by simp [hreleased])

end PimLibrary.Runtime.MemoryApi
