import PimLibrary.Runtime.DevicePreload
import PimLibrary.Runtime.WeightCache
import PimLibrary.Schemes.Log
import PimLibrary.Schemes.Trace

/-! `get_preloaded_pim_gemm_weight` when its steps fail.

    Seven steps can fail: the four allocations, `copy_memory`, `convert_data_layout` and
    `PimCopyMemory`. The function looks at no return code. A host buffer that could not be allocated
    is dereferenced; after every other failure the object is returned and cached as if it were
    converted. -/

namespace PimLibrary.Runtime.PreloadFaults
open Schemes.Word Schemes.Scatter Schemes.Log Schemes.Trace PimLibrary.Device PimLibrary.Layout

/-- The fallible steps; an allocation has the name of its buffer. -/
inductive Step where
  | host_weight | host_weight_t | host_reordered_weight | pre_wei
  | copy_memory | convert_data_layout | PimCopyMemory
  deriving DecidableEq, Repr

/-- What the driver does during one call: which steps succeed, what a new buffer holds or a failed copy
    leaves, how many copies of the conversion loop succeed before one fails, and the order in which a
    kernel's writes arrive. -/
structure Driver where
  succeeds : Step → Bool
  left : Step → Mem
  copies : ℕ
  schedule : List (ℤ × Half) → List (ℤ × Half)
  schedule_perm : ∀ writes, (schedule writes).Perm writes

/-- The weight with its real shape; its data may be a null pointer. -/
structure DevWeight extends RawWeight where
  bshape_r : PimBShape
  null : Bool

structure Request where
  dev_wei : DevWeight
  gemm_order : PimGemmOrder
  reorder_on_device : Bool
  save_for_reuse : Bool
  driver : Driver

/-- A PIM object. Its allocation reports no error; where there is no memory, `data` is null. -/
structure PreWei where
  size : ℕ
  data : Option Mem

abbrev Map : Type := UInt32 → Option PreWei

/-- A computation that logs its fallible steps, each with whether it succeeded. -/
abbrev Exec : Type → Type := Logged (Step × Bool)

def DevWeight.bo (w : DevWeight) : PimBo := ⟨w.bshape, w.bshape_r, .PIM_FP16⟩

/-- The bytes as halves, little-endian. -/
def DevWeight.halves (w : DevWeight) : Mem := fun e =>
  (w.data.getD (2 * e.toNat) 0).toUInt16 ||| (w.data.getD (2 * e.toNat + 1) 0).toUInt16 <<< 8

/-! ### The steps -/

/-- What an allocation gives, if it succeeds. -/
def Driver.creates (driver : Driver) (step : Step) (s : PimBShape) : Option Buffer :=
  if driver.succeeds step then create_bo s (driver.left step) else none

/-- `PimCreateBo(.., MEM_TYPE_HOST)`: null when the allocation fails. -/
def create_host (driver : Driver) (step : Step) (s : PimBShape) : Exec (Option Buffer) := do
  let pim_bo := driver.creates step s
  record (step, pim_bo.isSome)
  return pim_bo

/-- The size that `PimCreateBo` computes from the shape. -/
def new_size (s : PimBShape) : ℕ :=
  (bo_size (int32 s.n.toNat) (int32 s.c.toNat) (int32 s.h.toNat) (int32 s.w.toNat) .PIM_FP16).toNat

/-- `PimCreateBo(.., MEM_TYPE_PIM)`. -/
def create_pim (driver : Driver) (s : PimBShape) : Exec PreWei := do
  let pim_bo ← create_host driver .pre_wei s
  return ⟨new_size s, pim_bo.map Buffer.data⟩

/-- `copy_memory` of the memory manager, which reads the size of `dst` first. -/
def copy_to_host (driver : Driver) (dst : Option Buffer) (src : Mem) : Exec Buffer := do
  let dst ← deref dst
  record (.copy_memory, driver.succeeds .copy_memory)
  return if driver.succeeds .copy_memory then Runtime.copy_memory dst src
    else { dst with data := driver.left .copy_memory }

/-- `convert_data_layout(dst, src, false, nullptr)`. A failed copy ends the loop. -/
def convert_host (emulator : Bool) (driver : Driver) (gemm_order : PimGemmOrder) (s : PimBShape)
    (dst : Option Buffer) (src : Buffer) : Exec (Option Buffer) :=
  match convert_on_host emulator gemm_order (PimCreateBo s) with
  | .error _ => do
    record (.convert_data_layout, false)
    return dst
  | .ok copies => do
    let dst ← deref dst
    record (.convert_data_layout, decide (copies.length ≤ driver.copies))
    return some { dst with
      data := scatter dst.data ((copies.take driver.copies).flatMap (copy_halves src.data)) }

/-- `PimCopyMemory(dst, src, HOST_TO_PIM)`. -/
def copy_to_pim (driver : Driver) (dst : PreWei) (src : Option Buffer) : Exec PreWei := do
  let src ← deref src
  record (.PimCopyMemory, driver.succeeds .PimCopyMemory && dst.data.isSome)
  let copied (held : Mem) : Mem :=
    if driver.succeeds .PimCopyMemory then (Runtime.copy_memory ⟨dst.size, held⟩ src.data).data
    else driver.left .PimCopyMemory
  return { dst with data := dst.data.map copied }

/-- `PimDestroyBo` reads the object before it frees it. -/
def PimDestroyBo (pim_bo : Option Buffer) : Exec Unit := do
  let _ ← deref pim_bo
  return ()

/-- A padded weight takes the branch of the aligned conversion that fails before the launch. -/
def padded (gemm_order : PimGemmOrder) (bo : PimBo) : Bool :=
  !check_chwise_gemm_bo bo gemm_order && decide (bo.bshape.w ≠ bo.bshape_r.w ∨
    bo.bshape.h ≠ bo.bshape_r.h)

/-- `convert_data_layout(dst, src, true, stream)`. -/
def convert_device (emulator : Bool) (driver : Driver) (gemm_order : PimGemmOrder) (dst : PreWei)
    (src : DevWeight) : Exec PreWei :=
  if padded gemm_order src.bo then do
    record (.convert_data_layout, false)
    return dst
  else do
    record (.convert_data_layout, true)
    let writes := driver.schedule (convert_on_device emulator gemm_order src.bo src.halves)
    return { dst with data := dst.data.map fun held => scatter held writes }

/-! ### The call -/

def preload_on_device (emulator : Bool) (r : Request) : Exec (Option PreWei) := do
  let pre_wei ← create_pim r.driver r.dev_wei.bshape
  let pre_wei ← convert_device emulator r.driver r.gemm_order pre_wei r.dev_wei
  return some pre_wei

/-- What the host path leaves in `host_weight`. -/
def orient_host (r : Request) (host_weight host_weight_t : Option Buffer) : Exec Buffer :=
  if check_need_for_transpose r.gemm_order r.dev_wei.transposed then do
    let copied ← copy_to_host r.driver host_weight_t r.dev_wei.halves
    let dst ← deref host_weight
    return { dst with data := scatter dst.data (transpose_pimbo (PimCreateBo r.dev_wei.bshape)
      copied.data) }
  else copy_to_host r.driver host_weight r.dev_wei.halves

/-- The host path; its null check comes first. -/
def preload_on_host (emulator : Bool) (r : Request) : Exec (Option PreWei) :=
  let s := r.dev_wei.bshape
  if r.dev_wei.null then return none
  else do
    let host_weight ← create_host r.driver .host_weight s
    let host_weight_t ← create_host r.driver .host_weight_t s
    let host_reordered_weight ← create_host r.driver .host_reordered_weight s
    let pre_wei ← create_pim r.driver s
    let oriented ← orient_host r host_weight host_weight_t
    let reordered ← convert_host emulator r.driver r.gemm_order s host_reordered_weight oriented
    let pre_wei ← copy_to_pim r.driver pre_wei reordered
    PimDestroyBo host_weight
    PimDestroyBo host_weight_t
    PimDestroyBo host_reordered_weight
    return some pre_wei

/-- The lookup reads the first word of the data, if the size says there is one. -/
def DevWeight.unreadable (w : DevWeight) : Bool := w.null && decide (4 ≤ w.data.length)

def find_preloaded (weight_map_ : Map) (dev_wei : DevWeight) : Exec (Option PreWei) :=
  if dev_wei.unreadable then deref none
  else deref (find_preloaded_pim_weight weight_map_ dev_wei.toRawWeight)

/-- The path that a miss takes. -/
def preload (emulator : Bool) (r : Request) : Exec (Option PreWei) :=
  if r.reorder_on_device then preload_on_device emulator r else preload_on_host emulator r

/-- The end of a miss. -/
def keep (weight_map_ : Map) (r : Request) : Option PreWei → Exec (Map × Option PreWei)
  | none => return (weight_map_, none)
  | some pre_wei =>
    if r.save_for_reuse then do
      let weight_map_ ← deref (insert_preloaded_pim_weight weight_map_ r.dev_wei.toRawWeight pre_wei)
      return (weight_map_, some pre_wei)
    else return (weight_map_, some pre_wei)

/-- `get_preloaded_pim_gemm_weight`: the map after the call and the pointer it returns. -/
def get_preloaded (emulator : Bool) (weight_map_ : Map) (r : Request) : Exec (Map × Option PreWei) := do
  match ← find_preloaded weight_map_ r.dev_wei with
  | some pre_wei => return (weight_map_, some pre_wei)
  | none => keep weight_map_ r (← preload emulator r)

/-- One call of a run, with the object it returns. -/
def step (emulator : Bool) (weight_map_ : Map) (r : Request) : Option (Map × List PreWei) :=
  (get_preloaded emulator weight_map_ r).value.map fun now => (now.1, now.2.toList)

/-! ### The property and its condition -/

/-- If a step fails, the call returns a null pointer and leaves the map unchanged. -/
def Contained (emulator : Bool) (weight_map_ : Map) (r : Request) : Prop :=
  (∃ e ∈ (get_preloaded emulator weight_map_ r).log, e.2 = false) →
    (get_preloaded emulator weight_map_ r).value = some (weight_map_, none)

/-- The object holds what the conversion of the request's weight leaves when nothing goes wrong. -/
def Complete (emulator : Bool) (r : Request) (pre_wei : PreWei) : Prop :=
  let s := r.dev_wei.bshape
  ∃ data, pre_wei.data = some data ∧
    if r.reorder_on_device then
      ∃ held schedule,
        schedule.Perm (convert_on_device emulator r.gemm_order r.dev_wei.bo r.dev_wei.halves) ∧
        device_pre_wei s held schedule = some ⟨pre_wei.size, data⟩
    else ∃ held held_t reordered buf copies,
      host_weight r.gemm_order r.dev_wei.transposed s r.dev_wei.halves held held_t = some buf ∧
        convert_on_host emulator r.gemm_order (PimCreateBo s) = .ok copies ∧
        ∀ e : ℕ, e < pre_wei.size / 2 → data e =
          scatter reordered (copies.flatMap (copy_halves buf.data)) e

/-- No call of the run is poisoned by a failed step, and every object that is returned is complete. -/
def NoPoison (emulator : Bool) (requests : List Request) : Prop :=
  Along (step emulator) (fun weight_map_ _ r => Contained emulator weight_map_ r) (fun _ => none)
    [] requests ∧
    ∀ weight_map_ returned, runSteps (step emulator) (fun _ => none) requests =
      some (weight_map_, returned) →
      ∀ pre_wei ∈ returned, ∃ r ∈ requests, Complete emulator r pre_wei

/-- The driver lets every step of the device path succeed, and the weight is not padded. -/
def DeviceSucceeds (r : Request) : Prop :=
  (r.driver.creates .pre_wei r.dev_wei.bshape).isSome ∧ padded r.gemm_order r.dev_wei.bo = false

/-- The driver lets every step of the host path succeed. -/
def HostSucceeds (emulator : Bool) (r : Request) : Prop :=
  (∀ step ∈ [Step.host_weight, .host_weight_t, .host_reordered_weight, .pre_wei],
      (r.driver.creates step r.dev_wei.bshape).isSome) ∧
    r.driver.succeeds .copy_memory = true ∧
    (∀ copies, convert_on_host emulator r.gemm_order (PimCreateBo r.dev_wei.bshape) = .ok copies →
      copies.length ≤ r.driver.copies) ∧
    r.driver.succeeds .PimCopyMemory = true

/-- No step fails: the weight is cached or cannot be read, or its path succeeds. -/
def Succeeds (emulator : Bool) (weight_map_ : Map) (r : Request) : Prop :=
  r.dev_wei.unreadable = false → find_preloaded_pim_weight weight_map_ r.dev_wei.toRawWeight =
    some none →
    if r.reorder_on_device then DeviceSucceeds r else HostSucceeds emulator r ∨ r.dev_wei.null = true

/-! ### Which steps fail -/

/-- `PimCreateBo` makes no padded object. -/
theorem convert_on_host_ok (emulator : Bool) (gemm_order : PimGemmOrder) (s : PimBShape) :
    ∃ copies, convert_on_host emulator gemm_order (PimCreateBo s) = .ok copies := by
  rw [convert_on_host]
  split_ifs
  · exact ⟨_, rfl⟩
  · exact ⟨_, if_neg (by simp [PimCreateBo])⟩

/-- Every step that the computation reaches succeeds. -/
abbrev AllOk {α : Type} (x : Exec α) : Prop := AllLog (fun e => e.2 = true) x

theorem allOk_on_device (emulator : Bool) (r : Request) :
    AllOk (preload_on_device emulator r) ↔ DeviceSucceeds r := by
  rcases h : padded r.gemm_order r.dev_wei.bo with - | - <;>
    simp [preload_on_device, create_pim, create_host, convert_device, DeviceSucceeds, h]

theorem returns_on_device (emulator : Bool) (r : Request) :
    ∃ pre_wei, (preload_on_device emulator r).value = some (some pre_wei) := by
  rcases h : padded r.gemm_order r.dev_wei.bo with - | - <;>
    simp [preload_on_device, create_pim, create_host, convert_device, h]

theorem allOk_orient_host (r : Request) (buf buf_t : Buffer) :
    AllOk (orient_host r (some buf) (some buf_t)) ↔ r.driver.succeeds .copy_memory = true := by
  rcases h : check_need_for_transpose r.gemm_order r.dev_wei.transposed with - | - <;>
    simp [orient_host, copy_to_host, h]

theorem value_orient_host (r : Request) (buf buf_t : Buffer) :
    ∃ oriented, (orient_host r (some buf) (some buf_t)).value = some oriented := by
  rcases h : check_need_for_transpose r.gemm_order r.dev_wei.transposed with - | - <;>
    simp [orient_host, copy_to_host, h]

theorem allOk_on_host (emulator : Bool) (r : Request) :
    AllOk (preload_on_host emulator r) ↔ HostSucceeds emulator r ∨ r.dev_wei.null = true := by
  rcases hnull : r.dev_wei.null with - | -
  · obtain ⟨copies, hcopies⟩ := convert_on_host_ok emulator r.gemm_order r.dev_wei.bshape
    rcases h₁ : r.driver.creates .host_weight r.dev_wei.bshape with - | buf
    · simp [preload_on_host, create_host, HostSucceeds, hnull, h₁]
    rcases h₂ : r.driver.creates .host_weight_t r.dev_wei.bshape with - | buf_t
    · simp [preload_on_host, create_host, HostSucceeds, hnull, h₂]
    rcases h₃ : r.driver.creates .host_reordered_weight r.dev_wei.bshape with - | buf_r
    · simp [preload_on_host, create_host, HostSucceeds, hnull, h₃]
    rcases h₄ : r.driver.creates .pre_wei r.dev_wei.bshape with - | buf_p
    · simp [preload_on_host, create_host, create_pim, HostSucceeds, hnull, h₄]
    obtain ⟨oriented, horiented⟩ := value_orient_host r buf buf_t
    simp [preload_on_host, create_host, create_pim, HostSucceeds, hnull, h₁, h₂, h₃, h₄,
      allOk_orient_host, horiented, convert_host, copy_to_pim, PimDestroyBo, hcopies]
  · simp [preload_on_host, hnull]

/-- The host path returns the null pointer only for a null weight. -/
theorem returns_on_host {emulator : Bool} {r : Request} (hnull : r.dev_wei.null = false) :
    (preload_on_host emulator r).value ≠ some none := by
  intro h
  simp [preload_on_host, hnull, Option.bind_eq_some_iff] at h

/-! ### One call -/

@[simp] theorem allOk_keep (weight_map_ : Map) (r : Request) (pre_wei : Option PreWei) :
    AllOk (keep weight_map_ r pre_wei) := by
  rcases pre_wei with - | pre_wei
  · simp [keep]
  · by_cases h : r.save_for_reuse = true <;> simp [keep, h]

/-- What is made is returned. -/
theorem keep_ne_none {weight_map_ : Map} {r : Request} {pre_wei : PreWei} :
    (keep weight_map_ r (some pre_wei)).value ≠ some (weight_map_, none) := by
  by_cases h : r.save_for_reuse = true <;> simp [keep, h, Option.bind_eq_some_iff]

/-- A call that makes no conversion logs nothing. -/
theorem allOk_of_no_miss {weight_map_ : Map} {r : Request} (emulator : Bool)
    (h : r.dev_wei.unreadable = true ∨
      find_preloaded_pim_weight weight_map_ r.dev_wei.toRawWeight ≠ some none) :
    AllOk (get_preloaded emulator weight_map_ r) := by
  rcases hread : r.dev_wei.unreadable with - | -
  · rcases hfind : find_preloaded_pim_weight weight_map_ r.dev_wei.toRawWeight with - | (- | pre_wei)
    · simp [get_preloaded, find_preloaded, hread, hfind]
    · simp [hread, hfind] at h
    · simp [get_preloaded, find_preloaded, hread, hfind]
  · simp [get_preloaded, find_preloaded, hread]

theorem get_preloaded_miss {weight_map_ : Map} {r : Request} (emulator : Bool)
    (hread : r.dev_wei.unreadable = false)
    (hfind : find_preloaded_pim_weight weight_map_ r.dev_wei.toRawWeight = some none) :
    get_preloaded emulator weight_map_ r = (do keep weight_map_ r (← preload emulator r)) := by
  rw [get_preloaded, find_preloaded, hread, hfind]
  rfl

theorem allOk_preload (emulator : Bool) (r : Request) : AllOk (preload emulator r) ↔
    if r.reorder_on_device then DeviceSucceeds r else HostSucceeds emulator r ∨
      r.dev_wei.null = true := by
  rw [preload]
  split_ifs
  · exact allOk_on_device emulator r
  · exact allOk_on_host emulator r

/-- Where a step fails, the call does not return a null pointer. -/
theorem ne_none_of_failed {emulator : Bool} {weight_map_ : Map} {r : Request}
    (h : ¬ AllOk (preload emulator r)) :
    (do keep weight_map_ r (← preload emulator r) : Exec _).value ≠ some (weight_map_, none) := by
  rw [preload] at h ⊢
  intro hvalue
  rw [value_bind] at hvalue
  obtain ⟨pre_wei, hpre, hkeep⟩ := Option.bind_eq_some_iff.mp hvalue
  rcases pre_wei with - | pre_wei
  · split_ifs at h hpre with hdev
    · obtain ⟨pre_wei, hsome⟩ := returns_on_device emulator r
      simp [hsome] at hpre
    · rcases hnull : r.dev_wei.null with - | -
      · exact returns_on_host hnull hpre
      · exact h ((allOk_on_host emulator r).mpr (Or.inr hnull))
  · exact keep_ne_none hkeep

/-- A call is contained exactly when none of its steps fails. -/
theorem contained_iff (emulator : Bool) (weight_map_ : Map) (r : Request) :
    Contained emulator weight_map_ r ↔ Succeeds emulator weight_map_ r := by
  have hvacuous : AllOk (get_preloaded emulator weight_map_ r) → Contained emulator weight_map_ r := by
    rintro hok ⟨e, he, hfailed⟩
    exact absurd (hok e he) (by simp [hfailed])
  rcases hread : r.dev_wei.unreadable with - | -
  · by_cases hfind : find_preloaded_pim_weight weight_map_ r.dev_wei.toRawWeight = some none
    · have hmiss := get_preloaded_miss emulator hread hfind
      have hlog : AllOk (get_preloaded emulator weight_map_ r) ↔ AllOk (preload emulator r) := by
        rw [hmiss]
        simp
      constructor
      · intro hcontained _ _
        rw [← allOk_preload]
        by_contra hfailed
        have hentry : ∃ e ∈ (get_preloaded emulator weight_map_ r).log, e.2 = false := by
          simpa [AllLog] using mt hlog.mp hfailed
        have hvalue := hcontained hentry
        rw [hmiss] at hvalue
        exact ne_none_of_failed hfailed hvalue
      · intro hsucceeds
        exact hvacuous (hlog.mpr ((allOk_preload emulator r).mpr (hsucceeds hread hfind)))
    · exact ⟨fun _ _ hmiss => absurd hmiss hfind,
        fun _ => hvacuous (allOk_of_no_miss emulator (Or.inr hfind))⟩
  · refine ⟨fun _ hreadable => ?_, fun _ => hvacuous (allOk_of_no_miss emulator (Or.inl hread))⟩
    rw [hread] at hreadable
    cases hreadable

/-! ### What a call without failures returns -/

theorem alloc_memory_eq_some {size : ℕ} {held : Mem} {buf : Buffer} :
    alloc_memory size held = some buf ↔ size < 2 ^ 63 ∧ buf = ⟨size, held⟩ := by
  rw [alloc_memory]
  split_ifs with h
  · exact ⟨fun heq => ⟨h, (Option.some.inj heq).symm⟩, fun heq => congrArg some heq.2.symm⟩
  · exact ⟨fun heq => absurd heq (by simp), fun heq => absurd heq.1 h⟩

theorem create_bo_eq_some {s : PimBShape} {held : Mem} {buf : Buffer} :
    create_bo s held = some buf ↔ new_size s < 2 ^ 63 ∧ buf = ⟨new_size s, held⟩ :=
  alloc_memory_eq_some

/-- A successful allocation is a buffer of the size asked for. -/
theorem creates_eq {driver : Driver} {step : Step} {s : PimBShape} {buf : Buffer}
    (h : driver.creates step s = some buf) :
    new_size s < 2 ^ 63 ∧ buf = ⟨new_size s, driver.left step⟩ := by
  rw [Driver.creates] at h
  split_ifs at h
  exact create_bo_eq_some.mp h

theorem complete_on_device {emulator : Bool} {r : Request} {pre_wei : PreWei}
    (hdev : r.reorder_on_device = true) (h : DeviceSucceeds r)
    (hvalue : (preload_on_device emulator r).value = some (some pre_wei)) : Complete emulator
      r pre_wei := by
  obtain ⟨hsome, hpadded⟩ := h
  obtain ⟨buf, hbuf⟩ := Option.isSome_iff_exists.mp hsome
  simp [preload_on_device, create_pim, create_host, convert_device, hbuf, hpadded] at hvalue
  subst hvalue
  refine ⟨_, rfl, ?_⟩
  rw [if_pos hdev]
  refine ⟨buf.data, _, r.driver.schedule_perm _, ?_⟩
  obtain ⟨hlt, rfl⟩ := creates_eq hbuf
  have hcreate : create_bo r.dev_wei.bshape (r.driver.left .pre_wei) =
      some ⟨new_size r.dev_wei.bshape, r.driver.left .pre_wei⟩ := create_bo_eq_some.mpr ⟨hlt, rfl⟩
  rw [device_pre_wei, hcreate]
  rfl

/-- Without failures `host_weight` holds what it does when nothing can fail. -/
theorem host_weight_of_orient {r : Request} {held held_t : Mem} {oriented : Buffer}
    (hlt : new_size r.dev_wei.bshape < 2 ^ 63) (hcopy : r.driver.succeeds .copy_memory = true)
    (h : (orient_host r (some ⟨new_size r.dev_wei.bshape, held⟩)
      (some ⟨new_size r.dev_wei.bshape, held_t⟩)).value = some oriented) :
    host_weight r.gemm_order r.dev_wei.transposed r.dev_wei.bshape r.dev_wei.halves held held_t =
      some oriented := by
  have hcreate : create_bo r.dev_wei.bshape held = some ⟨new_size r.dev_wei.bshape, held⟩ :=
    create_bo_eq_some.mpr ⟨hlt, rfl⟩
  have hcreate_t : create_bo r.dev_wei.bshape held_t = some ⟨new_size r.dev_wei.bshape, held_t⟩ :=
    create_bo_eq_some.mpr ⟨hlt, rfl⟩
  rw [← h]
  rcases hneed : check_need_for_transpose r.gemm_order r.dev_wei.transposed with - | - <;>
    simp [host_weight, orient_host, copy_to_host, hcreate, hcreate_t, hneed, hcopy]

theorem complete_on_host {emulator : Bool} {r : Request} {pre_wei : PreWei}
    (hdev : r.reorder_on_device = false) (h : HostSucceeds emulator r)
    (hvalue : (preload_on_host emulator r).value = some (some pre_wei)) : Complete emulator
      r pre_wei := by
  obtain ⟨hcreates, hcopy, hconvert, hpim⟩ := h
  obtain ⟨buf, hbuf⟩ := Option.isSome_iff_exists.mp (hcreates .host_weight (by simp))
  obtain ⟨buf_t, hbuf_t⟩ := Option.isSome_iff_exists.mp (hcreates .host_weight_t (by simp))
  obtain ⟨buf_r, hbuf_r⟩ := Option.isSome_iff_exists.mp (hcreates .host_reordered_weight (by simp))
  obtain ⟨buf_p, hbuf_p⟩ := Option.isSome_iff_exists.mp (hcreates .pre_wei (by simp))
  obtain ⟨copies, hcopies⟩ := convert_on_host_ok emulator r.gemm_order r.dev_wei.bshape
  obtain ⟨hlt, rfl⟩ := creates_eq hbuf
  obtain ⟨-, rfl⟩ := creates_eq hbuf_t
  obtain ⟨oriented, horiented⟩ :=
    value_orient_host r ⟨new_size r.dev_wei.bshape, r.driver.left .host_weight⟩
    ⟨new_size r.dev_wei.bshape, r.driver.left .host_weight_t⟩
  have horient := host_weight_of_orient hlt hcopy horiented
  have hall : copies.take r.driver.copies = copies := List.take_of_length_le (hconvert copies hcopies)
  rcases hnull : r.dev_wei.null with - | -
  · simp [preload_on_host, create_host, create_pim, hnull, hbuf, hbuf_t, hbuf_r, hbuf_p, horiented,
      convert_host, copy_to_pim, PimDestroyBo, hcopies, hpim, hall] at hvalue
    subst hvalue
    refine ⟨_, rfl, ?_⟩
    rw [if_neg (by simp [hdev])]
    exact ⟨_, _, buf_r.data, oriented, copies, horient, hcopies, fun e he => copy_memory_data he⟩
  · simp [preload_on_host, hnull] at hvalue

/-! ### Runs -/

theorem complete_of_miss {emulator : Bool} {weight_map_ : Map} {r : Request} {pre_wei : PreWei}
    (hsucceeds : Succeeds emulator weight_map_ r) (hread : r.dev_wei.unreadable = false)
    (hfind : find_preloaded_pim_weight weight_map_ r.dev_wei.toRawWeight = some none)
    (h : (preload emulator r).value = some (some pre_wei)) : Complete emulator r pre_wei := by
  have hpath := hsucceeds hread hfind
  rcases hdev : r.reorder_on_device with - | -
  · rw [preload, hdev, if_neg Bool.false_ne_true] at h
    rw [hdev, if_neg Bool.false_ne_true] at hpath
    rcases hpath with hhost | hnull
    · exact complete_on_host hdev hhost h
    · simp [preload_on_host, hnull] at h
  · rw [preload, hdev, if_pos rfl] at h
    rw [hdev, if_pos rfl] at hpath
    exact complete_on_device hdev hpath h

/-- An insertion changes no other entry and keeps one that is there. -/
theorem insert_preloaded_entry {weight_map_ weight_map' : Map} {dev_wei : RawWeight}
    {pre_wei bo : PreWei}
    {w_key : UInt32} (h : insert_preloaded_pim_weight weight_map_ dev_wei pre_wei = some weight_map')
    (hentry : weight_map' w_key = some bo) : weight_map_ w_key = some bo ∨ bo = pre_wei := by
  obtain ⟨key, -, rfl⟩ := Option.map_eq_some_iff.mp h
  split_ifs at hentry
  · exact Or.inl hentry
  · by_cases hkey : w_key = key
    · subst hkey
      rw [Function.update_self] at hentry
      exact Or.inr (Option.some.inj hentry).symm
    · rw [Function.update_of_ne hkey] at hentry
      exact Or.inl hentry

theorem keep_cases {weight_map_ weight_map' : Map} {r : Request} {pre_wei bo : Option PreWei}
    (h : (keep weight_map_ r pre_wei).value = some (weight_map', bo)) :
    bo = pre_wei ∧ (weight_map' = weight_map_ ∨ ∃ made, pre_wei = some made ∧
      insert_preloaded_pim_weight weight_map_ r.dev_wei.toRawWeight made = some weight_map') := by
  rcases pre_wei with - | made
  · cases h
    exact ⟨rfl, Or.inl rfl⟩
  · rw [keep] at h
    split_ifs at h
    · obtain ⟨weight_map', hins, heq⟩ := Option.bind_eq_some_iff.mp ((value_bind _ _).symm.trans h)
      cases heq
      exact ⟨rfl, Or.inr ⟨made, rfl, hins⟩⟩
    · cases h
      exact ⟨rfl, Or.inl rfl⟩

/-- Every object that is cached or has been returned satisfies `K`. -/
def AllObjects (K : PreWei → Prop) (weight_map_ : Map) (returned : List PreWei) : Prop :=
  (∀ w_key bo, weight_map_ w_key = some bo → K bo) ∧ ∀ bo ∈ returned, K bo

theorem allObjects_step {K : PreWei → Prop} {emulator : Bool} {weight_map_ : Map}
    {returned : List PreWei}
    {r : Request} {now : Map × List PreWei} (hinv : AllObjects K weight_map_ returned)
    (hnew : r.dev_wei.unreadable = false →
      find_preloaded_pim_weight weight_map_ r.dev_wei.toRawWeight = some none →
      ∀ pre_wei, (preload emulator r).value = some (some pre_wei) → K pre_wei)
    (h : step emulator weight_map_ r = some now) : AllObjects K now.1 (returned ++ now.2) := by
  obtain ⟨⟨weight_map', pre_wei⟩, hcall, rfl⟩ := Option.map_eq_some_iff.mp h
  suffices hnow : (∀ w_key bo, weight_map' w_key = some bo → K bo) ∧ ∀ bo, pre_wei = some bo → K bo by
    refine ⟨hnow.1, ?_⟩
    intro bo hbo
    rcases List.mem_append.mp hbo with hold | hreturned
    · exact hinv.2 bo hold
    · exact hnow.2 bo (by simpa using hreturned)
  rcases hread : r.dev_wei.unreadable with - | -
  · rcases hfind : find_preloaded_pim_weight weight_map_ r.dev_wei.toRawWeight with - | (- | bo)
    · simp [get_preloaded, find_preloaded, hread, hfind] at hcall
    · rw [get_preloaded_miss emulator hread hfind, value_bind] at hcall
      obtain ⟨made, hmade, hkeep⟩ := Option.bind_eq_some_iff.mp hcall
      obtain ⟨rfl, hmap⟩ := keep_cases hkeep
      have hK : ∀ bo, pre_wei = some bo → K bo := by
        rintro bo rfl
        exact hnew hread hfind bo hmade
      refine ⟨?_, hK⟩
      rcases hmap with rfl | ⟨made, rfl, hins⟩
      · exact hinv.1
      · intro w_key bo hentry
        rcases insert_preloaded_entry hins hentry with hold | rfl
        · exact hinv.1 w_key bo hold
        · exact hK _ rfl
    · simp [get_preloaded, find_preloaded, hread, hfind] at hcall
      obtain ⟨rfl, rfl⟩ := hcall
      obtain ⟨w_key, -, hentry⟩ := Option.map_eq_some_iff.mp hfind
      refine ⟨hinv.1, ?_⟩
      rintro _ ⟨⟩
      exact hinv.1 w_key bo hentry
  · simp [get_preloaded, find_preloaded, hread] at hcall

/-- In a run without failures every object that is returned is complete. -/
theorem complete_of_succeeds {emulator : Bool} {requests : List Request} {weight_map_ : Map}
    {returned : List PreWei}
    (hsucceeds : Along (step emulator) (fun weight_map_ _ r => Succeeds emulator weight_map_ r)
      (fun _ => none) []
      requests)
    (hrun : runSteps (step emulator) (fun _ => none) requests = some (weight_map_, returned)) :
    ∀ pre_wei ∈ returned, ∃ r ∈ requests, Complete emulator r pre_wei := by
  let K (pre_wei : PreWei) : Prop := ∃ r ∈ requests, Complete emulator r pre_wei
  have hstep : ∀ weight_map_ returned r now, Succeeds emulator weight_map_ r ∧ r ∈ requests →
      AllObjects K weight_map_ returned → step emulator weight_map_ r = some now →
      AllObjects K now.1 (returned ++ now.2) := by
    rintro weight_map_ returned r now ⟨hok, hr⟩ hinv hnow
    exact allObjects_step hinv
      (fun hread hfind pre_wei hmade => ⟨r, hr, complete_of_miss hok hread hfind hmade⟩) hnow
  have hinit : AllObjects K (fun _ => none) [] := ⟨by simp, by simp⟩
  exact (runSteps_along hstep hrun hsucceeds.mem hinit).2

/-- A run is free of poison exactly when none of its calls has a step that fails. -/
theorem no_poison_iff (emulator : Bool) (requests : List Request) :
    NoPoison emulator requests ↔
      Along (step emulator) (fun weight_map_ _ r => Succeeds emulator weight_map_ r) (fun _ => none)
        [] requests := by
  constructor
  · rintro ⟨hcontained, -⟩
    exact hcontained.imp fun weight_map_ _ r h => (contained_iff emulator weight_map_ r).mp h
  · intro hsucceeds
    exact ⟨hsucceeds.imp fun weight_map_ _ r h => (contained_iff emulator weight_map_ r).mpr h,
      fun _ _ hrun => complete_of_succeeds hsucceeds hrun⟩

/-- The driver that fails one step; every buffer holds zeros. -/
def failing (step : Step) : Driver where
  succeeds := fun s => decide (s ≠ step)
  left := fun _ _ => 0
  copies := 2 ^ 31
  schedule := id
  schedule_perm := List.Perm.refl

/-- A `[256][4096]` weight of zeros, for which the copy to the host fails. -/
def uncopied : Request where
  dev_wei := { zerosThen 2097151 0 with bshape_r := ⟨1, 1, 256, 4096⟩, null := false }
  gemm_order := .I_X_W
  reorder_on_device := false
  save_for_reuse := true
  driver := failing .copy_memory

theorem poisoned_by_failed_copy : ¬ NoPoison false [uncopied] := by
  intro h
  have hkey : w_key uncopied.dev_wei.toRawWeight = some 0 :=
    w_key_zerosThen (by norm_num) (by norm_num) 0
  have hmiss : find_preloaded_pim_weight (fun _ => none) uncopied.dev_wei.toRawWeight =
      some (none : Option PreWei) := by
    rw [find_preloaded_pim_weight, hkey]
    rfl
  have hpath := (contained_iff false _ uncopied).mp h.1.1 rfl hmiss
  rcases hpath with hhost | hnull
  · exact absurd hhost.2.1 (by decide)
  · exact absurd hnull (by decide)

end PimLibrary.Runtime.PreloadFaults
