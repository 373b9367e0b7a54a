import PimLibrary.Runtime.WeightCache
import PimLibrary.Schemes.Trace

/-! Who destroys a buffer object.

    A converted weight that is saved for reuse is reachable from `weight_map_` and from the user it was
    returned to. `PimDestroyBo` frees and deletes the object without a look at the map, and
    `deinitialize` frees and deletes whatever the map still holds. So a run is safe exactly when the
    user destroys no object that is cached and none twice. A call that does not save may still
    return a cached object. -/

namespace PimLibrary.Runtime.Ownership
open Schemes.Trace PimLibrary.Device

/-- What happens to a buffer object: a lookup hands it out, or it is freed and deleted. -/
inductive Event where
  | found (bo : ℕ)
  | destroyed (bo : ℕ)
  deriving DecidableEq, Repr

def Event.bo : Event → ℕ
  | .found bo => bo
  | .destroyed bo => bo

/-- The runtime's map, with the number of objects created so far and those returned to the user. Objects
    are numbered in the order of their creation. -/
structure State where
  weight_map_ : List (UInt32 × ℕ) := []
  created : ℕ := 0
  returned : List ℕ := []

/-- The operand of a call: a raw weight, or one in a layout of the device. -/
inductive Weight where
  | raw (dev_wei : RawWeight) (bshape_r : PimBShape)
  | converted

inductive KernelType where | OPTIMAL | PIM | CUSTOM_GPU

inductive ApiCall where
  | PimConvertGemmWeight (src : Weight) (gemm_order : PimGemmOrder)
    (reorder_on_device save_for_reuse : Bool)
  | PimExecuteGemm (weight : Weight) (gemm_order : PimGemmOrder)
  | PimDestroyBo (pim_bo : ℕ)

/-! ### The calls -/

/-- `unordered_map::insert` under the sampled key. -/
def insert_preloaded (weight_map_ : List (UInt32 × ℕ)) (dev_wei : RawWeight) (pim_wei : ℕ) :
    Option (List (UInt32 × ℕ)) :=
  (w_key dev_wei).map fun w_key =>
    if (weight_map_.lookup w_key).isSome then weight_map_ else (w_key, pim_wei) :: weight_map_

/-- The objects a conversion creates: the state with them, the new `pre_wei`, and the destruction of the
    three host buffers of the host path. -/
def convert (st : State) (reorder_on_device : Bool) : State × ℕ × List Event :=
  if reorder_on_device then ({ st with created := st.created + 1 }, st.created, [])
  else
    let host_weight := st.created
    let host_weight_t := st.created + 1
    let host_reordered_weight := st.created + 2
    ({ st with created := st.created + 4 }, st.created + 3,
      [.destroyed host_weight, .destroyed host_weight_t, .destroyed host_reordered_weight])

/-- `get_preloaded_pim_gemm_weight`, as far as objects go; `none` when the key loop does not end. -/
def get_preloaded (st : State) (dev_wei : RawWeight) (reorder_on_device save_for_reuse : Bool) :
    Option (State × ℕ × List Event) := do
  match ← find_preloaded_pim_weight (fun w_key => st.weight_map_.lookup w_key) dev_wei with
  | some pre_wei => return (st, pre_wei, [.found pre_wei])
  | none =>
    let (st, pre_wei, events) := convert st reorder_on_device
    if save_for_reuse then
      return ({ st with weight_map_ := ← insert_preloaded st.weight_map_ dev_wei pre_wei },
        pre_wei, events)
    else return (st, pre_wei, events)

/-- `PimConvertGemmWeight` by way of `generate_gemm_weight_from_buffer`. -/
def convert_gemm_weight (st : State) (src : Weight) (gemm_order : PimGemmOrder)
    (reorder_on_device save_for_reuse : Bool) : Option (State × List Event) :=
  match src with
  | .raw dev_wei bshape_r =>
    if is_pim_applicable bshape_r gemm_order then do
      -- `pre_weight` is in PIM memory, so it is what the caller gets
      let (st, pre_weight, events) ← get_preloaded st dev_wei reorder_on_device save_for_reuse
      return ({ st with returned := pre_weight :: st.returned }, events)
    else some (st, [])
  | .converted => some (st, [])

/-- `execute_gemm` of the executors preloads with the default arguments and keeps the object. -/
def execute_gemm (kernel_type_ : KernelType) (st : State) (weight : Weight)
    (gemm_order : PimGemmOrder) :
    Option (State × List Event) :=
  let preload (dev_wei : RawWeight) : Option (State × List Event) := do
    let (st, _, events) ← get_preloaded st dev_wei false true
    return (st, events)
  match kernel_type_, weight with
  | .CUSTOM_GPU, _ => some (st, [])
  | .PIM, .raw dev_wei _ => preload dev_wei
  | .PIM, .converted => some (st, [])
  | .OPTIMAL, .raw dev_wei bshape_r => if is_pim_applicable bshape_r gemm_order then preload dev_wei
    else some (st, [])
  | .OPTIMAL, .converted => some (st, [])

/-- One call. A user destroys objects that a call has returned; the map does not notice. -/
def step (kernel_type_ : KernelType) (st : State) : ApiCall → Option (State × List Event)
  | .PimConvertGemmWeight src gemm_order reorder_on_device save_for_reuse =>
    convert_gemm_weight st src gemm_order reorder_on_device save_for_reuse
  | .PimExecuteGemm weight gemm_order => execute_gemm kernel_type_ st weight gemm_order
  | .PimDestroyBo pim_bo => if pim_bo ∈ st.returned then some (st, [.destroyed pim_bo]) else none

/-- `deinitialize` frees and deletes every object of the map. -/
def deinitialize (st : State) : List Event := st.weight_map_.map fun it => .destroyed it.2

/-- Nothing happens to an object after it has been destroyed. -/
def Safe (events : List Event) : Prop :=
  events.Pairwise fun e e' => ∀ bo, e = .destroyed bo → e'.bo ≠ bo

/-- The object of a `PimDestroyBo` is neither cached nor destroyed already. -/
def CarefulStep (st : State) (events : List Event) (call : ApiCall) : Prop :=
  ∀ pim_bo, call = .PimDestroyBo pim_bo →
    pim_bo ∉ st.weight_map_.map Prod.snd ∧ .destroyed pim_bo ∉ events

def Careful (kernel_type_ : KernelType) (calls : List ApiCall) : Prop :=
  Along (step kernel_type_) CarefulStep {} [] calls

/-! ### What a call can do -/

/-- The list refines the map that the cache is modelled with elsewhere. -/
theorem insert_preloaded_lookup (weight_map_ : List (UInt32 × ℕ)) (dev_wei : RawWeight) (pim_wei : ℕ) :
    (insert_preloaded weight_map_ dev_wei pim_wei).map (fun m w_key => m.lookup w_key) =
      insert_preloaded_pim_weight (fun w_key => weight_map_.lookup w_key) dev_wei pim_wei := by
  rw [insert_preloaded, insert_preloaded_pim_weight, Option.map_map]
  congr 1
  funext w_key
  rw [Function.comp_apply]
  split_ifs with hkey
  · rfl
  · funext k
    by_cases hk : k = w_key
    · subst hk
      simp
    · have hne : (k == w_key) = false := by simpa using hk
      simp [List.lookup_cons, hne, Function.update_of_ne hk]

/-- The temporaries of a conversion come before the object it makes. -/
theorem convert_eq (st : State) (reorder_on_device : Bool) :
    ∃ temps, convert st reorder_on_device =
      ({ st with created := st.created + temps + 1 }, st.created + temps,
        (List.range temps).map fun i => .destroyed (st.created + i)) := by
  cases reorder_on_device
  · exact ⟨3, rfl⟩
  · exact ⟨0, rfl⟩

/-- A lookup hands out a cached object and changes nothing, or a conversion makes a new object and
    destroys the temporaries before it; the new object may enter the map. -/
theorem get_preloaded_cases {st st' : State} {dev_wei : RawWeight}
    {reorder_on_device save_for_reuse : Bool}
    {pre_wei : ℕ} {events : List Event}
    (h : get_preloaded st dev_wei reorder_on_device save_for_reuse = some (st', pre_wei, events)) :
    (st' = st ∧ events = [.found pre_wei] ∧ pre_wei ∈ st.weight_map_.map Prod.snd) ∨
      ∃ temps map, st' = { st with created := st.created + temps + 1, weight_map_ := map } ∧
        pre_wei = st.created + temps ∧ events =
          (List.range temps).map (fun i => .destroyed (st.created + i)) ∧
        (map = st.weight_map_ ∨ ∃ w_key, map = (w_key, pre_wei) :: st.weight_map_) := by
  obtain ⟨temps, hconv⟩ := convert_eq st reorder_on_device
  rcases hkey : w_key dev_wei with - | key
  · simp [get_preloaded, find_preloaded_pim_weight, hkey] at h
  rcases hfind : st.weight_map_.lookup key with - | bo
  · right
    cases save_for_reuse
    · simp [get_preloaded, find_preloaded_pim_weight, hkey, hfind, hconv] at h
      obtain ⟨rfl, rfl, rfl⟩ := h
      exact ⟨temps, _, rfl, rfl, rfl, Or.inl rfl⟩
    · simp [get_preloaded, find_preloaded_pim_weight, insert_preloaded, hkey, hfind, hconv] at h
      obtain ⟨rfl, rfl, rfl⟩ := h
      exact ⟨temps, _, rfl, rfl, rfl, Or.inr ⟨key, rfl⟩⟩
  · left
    simp [get_preloaded, find_preloaded_pim_weight, hkey, hfind] at h
    obtain ⟨rfl, rfl, rfl⟩ := h
    obtain ⟨l₁, l₂, heq, -⟩ := List.lookup_eq_some_iff.mp hfind
    exact ⟨rfl, rfl, by simp [heq]⟩

/-- A call changes nothing, preloads a weight, or destroys an object that was returned. -/
theorem step_cases {kernel_type_ : KernelType} {st : State} {call : ApiCall} {now : State × List Event}
    (h : step kernel_type_ st call = some now) :
    now = (st, []) ∨
      (∃ dev_wei reorder_on_device save_for_reuse st' pre_wei,
        get_preloaded st dev_wei reorder_on_device save_for_reuse = some (st', pre_wei, now.2) ∧
          (now.1 = st' ∨ now.1 = { st' with returned := pre_wei :: st'.returned })) ∨
      ∃ pim_bo, call = .PimDestroyBo pim_bo ∧ pim_bo ∈ st.returned ∧
        now = (st, [.destroyed pim_bo]) := by
  cases call with
  | PimConvertGemmWeight src gemm_order reorder_on_device save_for_reuse =>
    cases src with
    | converted => exact Or.inl (Option.some.inj h).symm
    | raw dev_wei bshape_r =>
      rw [step, convert_gemm_weight] at h
      split_ifs at h
      · obtain ⟨⟨st', pre_wei, events⟩, hpre, heq⟩ := Option.bind_eq_some_iff.mp h
        cases heq
        exact Or.inr (Or.inl ⟨dev_wei, _, _, st', pre_wei, hpre, Or.inr rfl⟩)
      · exact Or.inl (Option.some.inj h).symm
  | PimExecuteGemm weight gemm_order =>
    have hpreload : ∀ dev_wei : RawWeight,
        (get_preloaded st dev_wei false true).bind (fun r => some (r.1, r.2.2)) = some now →
        ∃ st' pre_wei, get_preloaded st dev_wei false true = some (st', pre_wei, now.2) ∧
          now.1 = st' := by
      intro dev_wei hbind
      obtain ⟨⟨st', pre_wei, events⟩, hpre, heq⟩ := Option.bind_eq_some_iff.mp hbind
      cases heq
      exact ⟨st', pre_wei, hpre, rfl⟩
    cases kernel_type_ with
    | CUSTOM_GPU => exact Or.inl (Option.some.inj h).symm
    | PIM =>
      cases weight with
      | converted => exact Or.inl (Option.some.inj h).symm
      | raw dev_wei bshape_r =>
        obtain ⟨st', pre_wei, hpre, hst⟩ := hpreload dev_wei h
        exact Or.inr (Or.inl ⟨dev_wei, _, _, st', pre_wei, hpre, Or.inl hst⟩)
    | OPTIMAL =>
      cases weight with
      | converted => exact Or.inl (Option.some.inj h).symm
      | raw dev_wei bshape_r =>
        rw [step, execute_gemm] at h
        dsimp only at h
        split_ifs at h
        · obtain ⟨st', pre_wei, hpre, hst⟩ := hpreload dev_wei h
          exact Or.inr (Or.inl ⟨dev_wei, _, _, st', pre_wei, hpre, Or.inl hst⟩)
        · exact Or.inl (Option.some.inj h).symm
  | PimDestroyBo pim_bo =>
    rw [step] at h
    split_ifs at h with hmem
    exact Or.inr (Or.inr ⟨pim_bo, rfl, hmem, (Option.some.inj h).symm⟩)

/-! ### The invariant -/

/-- The objects in the map are distinct and alive, and nothing is known of objects not yet created. -/
structure Inv (st : State) (events : List Event) : Prop where
  cached_lt : ∀ bo ∈ st.weight_map_.map Prod.snd, bo < st.created
  event_lt : ∀ e ∈ events, e.bo < st.created
  returned_lt : ∀ bo ∈ st.returned, bo < st.created
  nodup : (st.weight_map_.map Prod.snd).Nodup
  alive : ∀ bo ∈ st.weight_map_.map Prod.snd, .destroyed bo ∉ events
  safe : Safe events

theorem safe_append {events new : List Event} : Safe (events ++ new) ↔
    Safe events ∧ Safe new ∧ ∀ bo, .destroyed bo ∈ events → ∀ e ∈ new, e.bo ≠ bo := by
  rw [Safe, List.pairwise_append]
  constructor
  · rintro ⟨hold, hnew, hcross⟩
    exact ⟨hold, hnew, fun bo hbo e he => hcross _ hbo e he bo rfl⟩
  · rintro ⟨hold, hnew, hcross⟩
    refine ⟨hold, hnew, ?_⟩
    rintro _ hbo e he bo rfl
    exact hcross bo hbo e he

/-- Destroying distinct objects. -/
theorem safe_destroyed {bos : List ℕ} (h : bos.Nodup) : Safe (bos.map .destroyed) := by
  refine List.pairwise_map.mpr (h.imp ?_)
  rintro a b hab bo heq
  cases heq
  exact Ne.symm hab

theorem inv_initial : Inv {} [] where
  cached_lt := by simp
  event_lt := by simp
  returned_lt := by simp
  nodup := List.nodup_nil
  alive := by simp
  safe := List.Pairwise.nil

/-- An event on an object that is neither new nor destroyed. -/
theorem Inv.event {st : State} {events : List Event} (hinv : Inv st events) {e : Event}
    (hlt : e.bo < st.created) (hfresh : .destroyed e.bo ∉ events)
    (hcached : ∀ bo ∈ st.weight_map_.map Prod.snd, e ≠ .destroyed bo) : Inv st (events ++ [e]) := by
  refine ⟨hinv.cached_lt, ?_, hinv.returned_lt, hinv.nodup, ?_, ?_⟩
  · intro e' he
    rcases List.mem_append.mp he with hold | hnow
    · exact hinv.event_lt e' hold
    · cases List.mem_singleton.mp hnow
      exact hlt
  · intro bo hbo hmem
    rcases List.mem_append.mp hmem with hold | hnow
    · exact hinv.alive bo hbo hold
    · exact hcached bo hbo (List.mem_singleton.mp hnow).symm
  · refine safe_append.mpr ⟨hinv.safe, List.pairwise_singleton _ _, ?_⟩
    intro bo hbo e' he heq
    cases List.mem_singleton.mp he
    subst heq
    exact hfresh hbo

/-- A conversion: its objects are new, and only the last of them may be cached. -/
theorem Inv.convert {st : State} {events : List Event} (hinv : Inv st events) {temps : ℕ}
    {map : List (UInt32 × ℕ)}
    (hmap : map = st.weight_map_ ∨ ∃ w_key, map = (w_key, st.created + temps) :: st.weight_map_) :
    Inv { st with created := st.created + temps + 1, weight_map_ := map }
      (events ++ (List.range temps).map fun i => .destroyed (st.created + i)) := by
  have hnew : ∀ e ∈ (List.range temps).map (fun i => Event.destroyed (st.created + i)),
      st.created ≤ e.bo ∧ e.bo < st.created + temps := by
    intro e he
    obtain ⟨i, hi, rfl⟩ := List.mem_map.mp he
    exact ⟨Nat.le_add_right _ _, Nat.add_lt_add_left (List.mem_range.mp hi) _⟩
  have hcached : ∀ bo ∈ map.map Prod.snd, bo ∈ st.weight_map_.map Prod.snd ∨
      bo = st.created + temps := by
    rcases hmap with rfl | ⟨w_key, rfl⟩
    · exact fun bo hbo => Or.inl hbo
    · intro bo hbo
      rcases List.mem_cons.mp hbo with rfl | hbo
      · exact Or.inr rfl
      · exact Or.inl hbo
  refine ⟨?_, ?_, ?_, ?_, ?_, ?_⟩
  · intro bo hbo
    rcases hcached bo hbo with hold | rfl
    · exact (hinv.cached_lt bo hold).trans (Nat.lt_succ_of_le (Nat.le_add_right _ _))
    · exact Nat.lt_succ_self _
  · intro e he
    rcases List.mem_append.mp he with hold | hnow
    · exact (hinv.event_lt e hold).trans (Nat.lt_succ_of_le (Nat.le_add_right _ _))
    · exact (hnew e hnow).2.trans (Nat.lt_succ_self _)
  · intro bo hbo
    exact (hinv.returned_lt bo hbo).trans (Nat.lt_succ_of_le (Nat.le_add_right _ _))
  · rcases hmap with rfl | ⟨w_key, rfl⟩
    · exact hinv.nodup
    · refine List.nodup_cons.mpr ⟨?_, hinv.nodup⟩
      intro hmem
      have := hinv.cached_lt _ hmem
      omega
  · intro bo hbo hmem
    rcases hcached bo hbo with hold | rfl <;> rcases List.mem_append.mp hmem with hbefore | hnow
    · exact hinv.alive bo hold hbefore
    · exact absurd (hinv.cached_lt bo hold) (Nat.not_lt.mpr (hnew _ hnow).1)
    · exact absurd (hinv.event_lt _ hbefore) (Nat.not_lt.mpr (Nat.le_add_right _ _))
    · exact lt_irrefl _ (hnew _ hnow).2
  · refine safe_append.mpr ⟨hinv.safe, ?_, ?_⟩
    · have hnodup : ((List.range temps).map fun i => st.created + i).Nodup :=
        List.nodup_range.map fun i j hij => Nat.add_left_cancel hij
      have hsafe := safe_destroyed hnodup
      rwa [List.map_map] at hsafe
    · intro bo hbo e he heq
      have hold : bo < st.created := hinv.event_lt _ hbo
      exact absurd hold (Nat.not_lt.mpr (heq ▸ (hnew e he).1))

theorem Inv.get_preloaded {st st' : State} {events new : List Event} {dev_wei : RawWeight}
    {reorder_on_device save_for_reuse : Bool} {pre_wei : ℕ} (hinv : Inv st events)
    (h : get_preloaded st dev_wei reorder_on_device save_for_reuse = some (st', pre_wei, new)) :
    Inv st' (events ++ new) ∧ pre_wei < st'.created := by
  rcases get_preloaded_cases h with ⟨rfl, rfl, hcached⟩ | ⟨temps, map, rfl, rfl, rfl, hmap⟩
  · have hlt := hinv.cached_lt pre_wei hcached
    exact ⟨hinv.event hlt (hinv.alive pre_wei hcached) (by simp), hlt⟩
  · exact ⟨hinv.convert hmap, Nat.lt_succ_self _⟩

/-- A careful call keeps the invariant. -/
theorem inv_step {kernel_type_ : KernelType} (st : State) (events : List Event) (call : ApiCall)
    (now : State × List Event) (hcare : CarefulStep st events call) (hinv : Inv st events)
    (h : step kernel_type_ st call = some now) : Inv now.1 (events ++ now.2) := by
  rcases step_cases h with rfl | ⟨dev_wei, reorder, save, st', pre_wei, hpre, hst⟩ |
    ⟨pim_bo, hcall, hmem, rfl⟩
  · simpa using hinv
  · obtain ⟨hinv', hlt⟩ := hinv.get_preloaded hpre
    rcases hst with hst | hst
    · rwa [hst]
    · rw [hst]
      refine ⟨hinv'.cached_lt, hinv'.event_lt, ?_, hinv'.nodup, hinv'.alive, hinv'.safe⟩
      intro bo hbo
      rcases List.mem_cons.mp hbo with rfl | hbo
      · exact hlt
      · exact hinv'.returned_lt bo hbo
  · obtain ⟨huncached, hundestroyed⟩ := hcare pim_bo hcall
    refine hinv.event (hinv.returned_lt pim_bo hmem) hundestroyed ?_
    rintro bo hbo heq
    cases heq
    exact huncached hbo

/-- `deinitialize` destroys what the map holds, each object once. -/
theorem Inv.deinitialize {st : State} {events : List Event} (hinv : Inv st events) :
    Safe (events ++ deinitialize st) := by
  refine safe_append.mpr ⟨hinv.safe, ?_, ?_⟩
  · have hsafe := safe_destroyed hinv.nodup
    rwa [List.map_map] at hsafe
  · intro bo hbo e he heq
    obtain ⟨entry, hentry, rfl⟩ := List.mem_map.mp he
    subst heq
    exact hinv.alive _ (List.mem_map_of_mem hentry) hbo

/-! ### The exact condition -/

/-- An object stays in the map until `deinitialize`. -/
theorem cached_step {kernel_type_ : KernelType} {bo : ℕ} (st : State) (call : ApiCall)
    (now : State × List Event) (hbo : bo ∈ st.weight_map_.map Prod.snd)
    (h : step kernel_type_ st call = some now) : bo ∈ now.1.weight_map_.map Prod.snd := by
  rcases step_cases h with rfl | ⟨dev_wei, reorder, save, st', pre_wei, hpre, hst⟩ | ⟨pim_bo, -, -, rfl⟩
  · exact hbo
  · have hst' : bo ∈ st'.weight_map_.map Prod.snd := by
      rcases get_preloaded_cases hpre with ⟨rfl, -, -⟩ | ⟨temps, map, rfl, -, -, rfl | ⟨w_key, rfl⟩⟩
      · exact hbo
      · exact hbo
      · exact List.mem_cons_of_mem _ hbo
    rcases hst with hst | hst <;> rwa [hst]
  · exact hbo

/-- What goes wrong after a careless call: the object is destroyed a second time, by `deinitialize`
    if it was cached. -/
theorem carefulStep_of_safe {kernel_type_ : KernelType} {st : State} {events : List Event}
    {call : ApiCall}
    {calls : List ApiCall} {now rest : State × List Event} (hnow : step kernel_type_ st call = some now)
    (hrest : runSteps (step kernel_type_) now.1 calls = some rest)
    (hsafe : Safe (events ++ now.2 ++ (rest.2 ++ deinitialize rest.1))) : CarefulStep st
      events call := by
  rintro pim_bo rfl
  rw [step] at hnow
  split_ifs at hnow
  cases hnow
  obtain ⟨hbefore, -, hafter⟩ := safe_append.mp hsafe
  constructor
  · intro hcached
    have hlast := runSteps_keeps (fun s i now => cached_step s i now) hrest hcached
    obtain ⟨entry, hentry, heq⟩ := List.mem_map.mp hlast
    refine hafter pim_bo (by simp) (.destroyed pim_bo) (List.mem_append_right _ ?_) rfl
    exact List.mem_map.mpr ⟨entry, hentry, by rw [heq]⟩
  · intro hdestroyed
    exact (safe_append.mp hbefore).2.2 pim_bo hdestroyed _ (List.mem_singleton.mpr rfl) rfl

theorem along_of_safe {kernel_type_ : KernelType} {st : State} {events : List Event}
    {calls : List ApiCall}
    {r : State × List Event} (hrun : runSteps (step kernel_type_) st calls = some r)
    (hsafe : Safe (events ++ (r.2 ++ deinitialize r.1))) :
    Along (step kernel_type_) CarefulStep st events calls := by
  induction calls generalizing st events r with
  | nil => trivial
  | cons call calls ih =>
    obtain ⟨now, rest, hnow, hrest, rfl⟩ := (runSteps_cons _).mp hrun
    have hsplit : Safe (events ++ now.2 ++ (rest.2 ++ deinitialize rest.1)) := by
      simpa only [List.append_assoc] using hsafe
    refine ⟨carefulStep_of_safe hnow hrest hsplit, ?_⟩
    intro now' hnow'
    cases hnow.symm.trans hnow'
    exact ih hrest hsplit

/-- Runs are safe, up to and with `deinitialize`, exactly when every destroyed object was neither
    cached nor destroyed before. -/
theorem ownership_safe_iff (kernel_type_ : KernelType) (calls : List ApiCall) (st : State)
    (events : List Event) (hrun : runSteps (step kernel_type_) {} calls = some (st, events)) :
    Safe (events ++ deinitialize st) ↔ Careful kernel_type_ calls := by
  constructor
  · intro hsafe
    have hempty : Safe ([] ++ (events ++ deinitialize st)) := hsafe
    exact along_of_safe hrun hempty
  · intro hcareful
    have hinv := runSteps_along inv_step hrun hcareful inv_initial
    exact hinv.deinitialize

/-- A raw `[256][4096]` weight of zeros. -/
def zeros : Weight := .raw (zerosThen 2097151 0) ⟨1, 1, 256, 4096⟩

/-- A user who converts without saving and destroys what was returned. -/
theorem convert_destroy :
    runSteps (step .OPTIMAL) {} [.PimConvertGemmWeight zeros .I_X_W true false, .PimDestroyBo 0] =
    some ({ created := 1, returned := [0] }, [.destroyed 0]) := by
  have hkey : w_key (zerosThen 2097151 0) = some 0 := w_key_zerosThen (by norm_num) (by norm_num) 0
  have happ : is_pim_applicable ⟨1, 1, 256, 4096⟩ .I_X_W = true := by decide
  simp [runSteps, step, convert_gemm_weight, get_preloaded, find_preloaded_pim_weight, convert,
    zeros, hkey, happ]

theorem ownership_safe_unsaved :
    Safe ([.destroyed 0] ++ deinitialize { created := 1, returned := [0] }) ↔
      Careful .OPTIMAL [.PimConvertGemmWeight zeros .I_X_W true false, .PimDestroyBo 0] :=
  ownership_safe_iff .OPTIMAL _ _ _ convert_destroy

/-- The same user after an execution has kept the weight. -/
def convertKept : List ApiCall :=
  [.PimExecuteGemm zeros .I_X_W, .PimConvertGemmWeight zeros .I_X_W false false, .PimDestroyBo 3,
    .PimExecuteGemm zeros .I_X_W]

/-- The conversion hands out the cached object; so the next lookup finds a destroyed object, and
    `deinitialize` destroys it again. -/
theorem convertKept_run : ∃ st, runSteps (step .OPTIMAL) {} convertKept =
    some (st, [.destroyed 0, .destroyed 1, .destroyed 2, .found 3, .destroyed 3, .found 3]) ∧
      deinitialize st = [.destroyed 3] := by
  have hkey : w_key (zerosThen 2097151 0) = some 0 := w_key_zerosThen (by norm_num) (by norm_num) 0
  have happ : is_pim_applicable ⟨1, 1, 256, 4096⟩ .I_X_W = true := by decide
  refine ⟨{ weight_map_ := [(0, 3)], created := 4, returned := [3] }, ?_, rfl⟩
  simp [convertKept, runSteps, step, execute_gemm, convert_gemm_weight, get_preloaded,
    find_preloaded_pim_weight, insert_preloaded, convert, zeros, hkey, happ]

theorem cached_object_destroyed_twice :
    ∃ st events, runSteps (step .OPTIMAL) {} convertKept = some (st, events) ∧
      ¬ Safe (events ++ deinitialize st) := by
  obtain ⟨st, hrun, hlast⟩ := convertKept_run
  refine ⟨st, _, hrun, ?_⟩
  rw [hlast]
  intro hsafe
  exact (safe_append.mp hsafe).2.2 3 (by simp) (.destroyed 3) (List.mem_singleton.mpr rfl) rfl

end PimLibrary.Runtime.Ownership
