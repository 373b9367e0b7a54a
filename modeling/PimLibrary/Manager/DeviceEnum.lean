import PimLibrary.Manager.SimpleHeap
import PimLibrary.Schemes.Pick
import Mathlib.Data.List.TakeWhile

/-! Device enumeration: `get_env` and the constructor of `HipMemoryManager`.

    `HIP_VISIBLE_DEVICES` lists GPUs by their position among the GPU nodes of the topology. The
    constructor walks the nodes once and registers a GPU when its position is the front of the list,
    which it then pops; at a GPU node after the last one listed it takes the front of an empty list.
    So an ascending list that ends with the last GPU is registered as listed, and no other list is. -/

namespace PimLibrary.Manager
open Schemes.Pick

inductive HostType where
  | AMDGPU | CPU | FPGA
  deriving DecidableEq, Repr

structure HostInfo where
  host_type : HostType
  node_id : ℕ
  host_id : ℕ
  base_address : ℕ
  deriving DecidableEq, Repr

/-! ### The environment -/

def isspace (c : Char) : Bool := c ∈ [' ', '\t', '\n', '\x0b', '\x0c', '\r']

/-- `std::stoi`: blanks, a sign, and the digits up to the first other character. It throws where there
    is no digit and where the value is no `int`. -/
def stoi (s : List Char) : Option ℤ :=
  let s := s.dropWhile isspace
  let (negative, s) := match s with
    | '-' :: s => (true, s)
    | '+' :: s => (false, s)
    | s => (false, s)
  let digits := s.takeWhile Char.isDigit
  let num : ℤ := Nat.ofDigitChars 10 digits 0
  let num := if negative then -num else num
  if digits = [] then none
  else if -2 ^ 31 ≤ num ∧ num < 2 ^ 31 then some num
  else none

/-- The `while` loop of `get_env`, and the last `stoi` after it. -/
def get_env_loop (env : List Char) (hip_devices : List ℤ) : Option (List ℤ) :=
  let pos := env.idxOf ','
  if pos < env.length then do
    let num ← stoi (env.take pos)
    get_env_loop (env.drop (pos + 1)) (hip_devices ++ [num])
  else do
    let num ← stoi env
    some (hip_devices ++ [num])
termination_by env.length
decreasing_by simp only [List.length_drop]; omega

/-- `get_env`, of what `getenv` returns. -/
def get_env (ev_val : Option (List Char)) : Option (List ℤ) :=
  match ev_val with
  | none => some []
  | some env => get_env_loop env []

/-! ### The constructor -/

structure Enumeration where
  hip_visible_devices : List ℤ
  curr : ℕ := 0
  host_cnt : ℕ := 0
  host_devices : ℕ → Option HostInfo

def max_topology : ℕ := 32

def host_info (id gpu_id : ℕ) : HostInfo where
  host_type := .AMDGPU
  node_id := id
  host_id := gpu_id
  base_address := 0

/-- One round of the loop over the topology. `gpu_id` is what is read from a node's file, `none` where
    there is no such file or no number in it. -/
def visit (gpu_id : ℕ → Option ℕ) (s : Enumeration) (id : ℕ) : Option Enumeration :=
  match gpu_id id with
  | none => some s
  | some 0 => some s
  | some gpu_id =>
    match s.hip_visible_devices with
    | [] => none -- `front()` of an empty list
    | front :: rest =>
      if (s.curr : ℤ) = front then
        some { hip_visible_devices := rest
               curr := s.curr + 1
               host_cnt := s.host_cnt + 1
               host_devices := Function.update s.host_devices s.host_cnt (some (host_info id gpu_id)) }
      else some { s with curr := s.curr + 1 }

/-- The devices listed, all of them where the variable is not set. -/
def visible_devices (ev_val : Option (List Char)) (num_gpu_devices_ : ℕ) : Option (List ℤ) := do
  let hip_visible_devices ← get_env ev_val
  if hip_visible_devices = [] then some ((List.range num_gpu_devices_).map Int.ofNat)
  else some hip_visible_devices

/-- What the constructor leaves. -/
structure Constructed where
  host_devices : ℕ → Option HostInfo
  fragment_allocator_ : List SimpleHeap

/-- `HipMemoryManager::HipMemoryManager`. `num_gpu_devices_` is what `hipGetDeviceCount` stores. There
    is no result where `stoi` throws and where the front of an empty list is taken. -/
def HipMemoryManager (ev_val : Option (List Char)) (num_gpu_devices_ : ℕ) (gpu_id : ℕ → Option ℕ)
    (host_devices : ℕ → Option HostInfo) : Option Constructed := do
  let hip_visible_devices ← visible_devices ev_val num_gpu_devices_
  let s ← (List.range max_topology).foldlM (visit gpu_id) { hip_visible_devices, host_devices }
  if s.host_cnt = 0 then some ⟨s.host_devices, []⟩
  else if s.host_cnt ≠ num_gpu_devices_ then some ⟨s.host_devices, []⟩
  else some ⟨s.host_devices, List.replicate num_gpu_devices_ {}⟩

/-! ### Reading the list -/

/-- `find` cuts the string at its first comma. -/
theorem splitOn_of_idxOf_lt {env : List Char} (h : env.idxOf ',' < env.length) :
    env.splitOn ',' = env.take (env.idxOf ',') :: (env.drop (env.idxOf ',' + 1)).splitOn ',' := by
  obtain ⟨pre, post, rfl, hpre⟩ := List.eq_append_cons_of_mem (List.idxOf_lt_length_iff.mp h)
  have hpos : (pre ++ ',' :: post).idxOf ',' = pre.length := by
    rw [List.idxOf_append_of_notMem hpre, List.idxOf_cons_self, Nat.add_zero]
  rw [hpos, List.take_left, ← List.drop_drop, List.drop_left, List.drop_one, List.tail_cons,
    List.splitOn_append_cons_self_of_not_mem hpre]

theorem get_env_loop_eq (env : List Char) (hip_devices : List ℤ) :
    get_env_loop env hip_devices = ((env.splitOn ',').mapM stoi).map (hip_devices ++ ·) := by
  induction env, hip_devices using get_env_loop.induct with
  | case1 env hip_devices pos hpos ih =>
    rw [get_env_loop, if_pos hpos, splitOn_of_idxOf_lt hpos, List.mapM_cons]
    cases stoi (env.take (env.idxOf ',')) with
    | none => rfl
    | some num =>
      have hrest : get_env_loop (env.drop (env.idxOf ',' + 1)) (hip_devices ++ [num]) = _ := ih num
      rw [Option.bind_eq_bind, Option.bind_some, hrest, Option.bind_eq_bind, Option.bind_some]
      cases ((env.drop (env.idxOf ',' + 1)).splitOn ',').mapM stoi with
      | none => rfl
      | some rest => simp
  | case2 env hip_devices pos hpos =>
    have hnone : ',' ∉ env := fun h => hpos (List.idxOf_lt_length_of_mem h)
    rw [get_env_loop, if_neg hpos, List.splitOn_eq_singleton hnone, List.mapM_cons]
    cases stoi env <;> rfl

theorem get_env_eq (env : List Char) : get_env (some env) = (env.splitOn ',').mapM stoi := by
  simp [get_env, get_env_loop_eq]

/-- A position written in decimal is read back. -/
theorem stoi_toDigits {i : ℕ} (h : i < 2 ^ 31) : stoi (Nat.toDigits 10 i) = some (i : ℤ) := by
  have hdigit : ∀ c ∈ Nat.toDigits 10 i, c.isDigit := fun c hc =>
    Nat.isDigit_of_mem_toDigits (by decide) (by decide) hc
  have hne : Nat.toDigits 10 i ≠ [] := Nat.toDigits_ne_nil
  have hval : Nat.ofDigitChars 10 (Nat.toDigits 10 i) 0 = i := Nat.ofDigitChars_ten_toDigits
  have htake : (Nat.toDigits 10 i).takeWhile Char.isDigit = Nat.toDigits 10 i :=
    List.takeWhile_eq_self_iff.mpr hdigit
  generalize Nat.toDigits 10 i = digits at *
  cases digits with
  | nil => exact absurd rfl hne
  | cons c cs =>
    have hc : c.isDigit := hdigit c List.mem_cons_self
    have hblank : isspace c = false := by
      rw [isspace, decide_eq_false_iff_not]
      intro hmem
      simp only [List.mem_cons, List.not_mem_nil, or_false] at hmem
      rcases hmem with rfl | rfl | rfl | rfl | rfl | rfl <;> exact absurd hc (by decide)
    have hminus : c ≠ '-' := by rintro rfl; exact absurd hc (by decide)
    have hplus : c ≠ '+' := by rintro rfl; exact absurd hc (by decide)
    have hrange : -2 ^ 31 ≤ (i : ℤ) ∧ (i : ℤ) < 2 ^ 31 := by omega
    simp [stoi, hblank, hminus, hplus, htake, hval]
    omega

/-! ### The walk over the topology -/

/-- What is registered for a node, if it is a GPU. -/
def gpu_info (gpu_id : ℕ → Option ℕ) (id : ℕ) : Option HostInfo :=
  match gpu_id id with
  | none => none
  | some 0 => none
  | some gpu_id => some (host_info id gpu_id)

/-- The GPU nodes, in the order of the topology. -/
def gpus (gpu_id : ℕ → Option ℕ) (ids : List ℕ) : List HostInfo := ids.filterMap (gpu_info gpu_id)

/-- `host_devices` with the given devices put in from `host_cnt` on. -/
def register (host_devices : ℕ → Option HostInfo) (host_cnt : ℕ) : List HostInfo → ℕ → Option HostInfo
  | [] => host_devices
  | h :: hs => register (Function.update host_devices host_cnt (some h)) (host_cnt + 1) hs

theorem register_apply (d : ℕ → Option HostInfo) (n : ℕ) (hs : List HostInfo) (k : ℕ) :
    register d n hs k = if n ≤ k then hs[k - n]?.or (d k) else d k := by
  induction hs generalizing d n with
  | nil => simp [register]
  | cons h hs ih =>
    rw [register, ih]
    rcases Nat.lt_trichotomy k n with hk | rfl | hk
    · rw [if_neg (by omega), if_neg (by omega), Function.update_of_ne (by omega)]
    · simp
    · have hsub : k - n = k - (n + 1) + 1 := by omega
      rw [if_pos (by omega), if_pos (by omega), Function.update_of_ne (by omega), hsub,
        List.getElem?_cons_succ]

/-- The state after `n` GPU nodes of which the devices `r` were taken and `rest` is left. -/
def Enumeration.after (s : Enumeration) (n : ℕ) (r : List HostInfo) (rest : List ℤ) : Enumeration where
  hip_visible_devices := rest
  curr := s.curr + n
  host_cnt := s.host_cnt + r.length
  host_devices := register s.host_devices s.host_cnt r

theorem Enumeration.after_skip (s : Enumeration) (n : ℕ) (r : List HostInfo) (l rest : List ℤ) :
    (s.after 1 [] l).after n r rest = s.after (n + 1) r rest := by
  simp [Enumeration.after, register, Nat.add_comm n, Nat.add_assoc]

theorem Enumeration.after_take (s : Enumeration) (n : ℕ) (x : HostInfo) (r : List HostInfo)
    (l rest : List ℤ) :
    (s.after 1 [x] l).after n r rest = s.after (n + 1) (x :: r) rest := by
  simp [Enumeration.after, register, Nat.add_comm n, Nat.add_comm r.length, Nat.add_assoc]

theorem visit_of_none {gpu_id : ℕ → Option ℕ} {id : ℕ} (h : gpu_info gpu_id id = none)
    (s : Enumeration) :
    visit gpu_id s id = some s := by
  unfold gpu_info at h
  unfold visit
  split at h
  · rfl
  · rfl
  · cases h

/-- A GPU node needs a list that has not run out; it is taken if its position is the front. -/
theorem visit_of_some {gpu_id : ℕ → Option ℕ} {id : ℕ} {x : HostInfo} (h : gpu_info gpu_id id = some x)
    (s : Enumeration) :
    visit gpu_id s id =
      match s.hip_visible_devices with
      | [] => none
      | front :: rest =>
        if (s.curr : ℤ) = front then some (s.after 1 [x] rest)
          else some (s.after 1 [] (front :: rest)) := by
  unfold gpu_info at h
  unfold visit
  split at h
  · cases h
  · cases h
  · obtain rfl := Option.some.inj h
    cases s with | mk l _ _ _ => cases l <;> simp [Enumeration.after, register]

/-- A GPU node's position, as `curr` is compared. -/
def position (x : HostInfo × ℕ) : ℤ := x.2

/-- The walk picks the listed positions out of the GPU nodes. -/
theorem foldlM_visit (gpu_id : ℕ → Option ℕ) (ids : List ℕ) (s : Enumeration) :
    ids.foldlM (visit gpu_id) s =
      (pick position s.hip_visible_devices ((gpus gpu_id ids).zipIdx s.curr)).map fun (r, rest) =>
        s.after (gpus gpu_id ids).length (r.map Prod.fst) rest := by
  induction ids generalizing s with
  | nil => simp [gpus, pick, Enumeration.after, register]
  | cons id ids ih =>
    rw [List.foldlM_cons]
    cases hinfo : gpu_info gpu_id id with
    | none =>
      have hgpus : gpus gpu_id (id :: ids) = gpus gpu_id ids := List.filterMap_cons_none hinfo
      rw [visit_of_none hinfo, hgpus]
      exact ih s
    | some x =>
      have hgpus : gpus gpu_id (id :: ids) = x :: gpus gpu_id ids := List.filterMap_cons_some hinfo
      rw [visit_of_some hinfo, hgpus, List.zipIdx_cons, List.length_cons]
      cases s.hip_visible_devices with
      | nil => rfl
      | cons front rest =>
        rw [pick]
        by_cases hfront : (s.curr : ℤ) = front
        · have hkey : front = position (x, s.curr) := hfront.symm
          rw [if_pos hkey, Option.map_map]
          simp only [if_pos hfront, Option.bind_eq_bind, Option.bind_some, ih, Enumeration.after_take]
          rfl
        · have hkey : front ≠ position (x, s.curr) := fun h => hfront h.symm
          rw [if_neg hkey]
          simp only [if_neg hfront, Option.bind_eq_bind, Option.bind_some, ih, Enumeration.after_skip]
          rfl

/-! ### The devices listed -/

/-- `L` is what the environment asks for of `n` GPUs: all of them where the variable is unset, else
    distinct positions, each as `stoi` reads it. -/
inductive Lists (n : ℕ) : Option (List Char) → ℕ → List ℕ → Prop where
  | unset : Lists n none n (List.range n)
  | listed {tokens : List (List Char)} {L : List ℕ} (num_gpu_devices_ : ℕ)
      (htok : List.Forall₂ (fun token (i : ℕ) => ',' ∉ token ∧ stoi token = some (i : ℤ)) tokens L)
      (hne : L ≠ []) (hnd : L.Nodup) (hlt : ∀ i ∈ L, i < n) :
      Lists n (some ([','].intercalate tokens)) num_gpu_devices_ L

theorem Lists.lt {n num_gpu_devices_ : ℕ} {ev_val : Option (List Char)} {L : List ℕ}
    (h : Lists n ev_val num_gpu_devices_ L) : ∀ i ∈ L, i < n := by
  cases h with
  | unset => exact fun i => List.mem_range.mp
  | listed _ _ _ _ hlt => exact hlt

/-- Distinct positions in decimal, with commas between them, are such a list. -/
theorem Lists.decimal {n : ℕ} (hn : n ≤ 2 ^ 31) {L : List ℕ} (hne : L ≠ []) (hnd : L.Nodup)
    (hlt : ∀ i ∈ L, i < n)
    (num_gpu_devices_ : ℕ) :
    Lists n (some ([','].intercalate (L.map (Nat.toDigits 10)))) num_gpu_devices_ L := by
  refine .listed _ (List.forall₂_map_left_iff.mpr (List.forall₂_same.mpr fun i hi =>
    ⟨fun hcomma => ?_, ?_⟩)) hne hnd hlt
  · have hdigit : Char.isDigit ',' := Nat.isDigit_of_mem_toDigits (by decide) (by decide) hcomma
    exact absurd hdigit (by decide)
  · exact stoi_toDigits (Nat.lt_of_lt_of_le (hlt i hi) hn)

theorem mapM_stoi {tokens : List (List Char)} {L : List ℕ}
    (h : List.Forall₂ (fun token (i : ℕ) => ',' ∉ token ∧ stoi token = some (i : ℤ)) tokens L) :
    tokens.mapM stoi = some (L.map Int.ofNat) := by
  induction h with
  | nil => rfl
  | cons htok _ ih =>
    rw [List.mapM_cons, htok.2, ih]
    rfl

/-- The list the walk starts with. -/
theorem Lists.visible_devices {n num_gpu_devices_ : ℕ} {ev_val : Option (List Char)} {L : List ℕ}
    (h : Lists n ev_val num_gpu_devices_ L) :
    visible_devices ev_val num_gpu_devices_ = some (L.map Int.ofNat) := by
  cases h with
  | unset => simp [Manager.visible_devices, get_env]
  | @listed tokens _ _ htok hne =>
    have htokens : tokens ≠ [] := by
      rintro rfl
      exact hne (List.forall₂_nil_left_iff.mp htok)
    have hcomma : ∀ token ∈ tokens, ',' ∉ token := by
      intro token hmem
      obtain ⟨k, hk, rfl⟩ := List.getElem_of_mem hmem
      exact (htok.get hk (htok.length_eq ▸ hk)).1
    have henv : get_env (some ([','].intercalate tokens)) = some (L.map Int.ofNat) := by
      rw [get_env_eq, List.splitOn_intercalate _ hcomma htokens, mapM_stoi htok]
    rw [Manager.visible_devices, henv, Option.bind_eq_bind, Option.bind_some,
      if_neg (by simpa using hne)]

/-! ### What is registered -/

/-- The GPUs of a topology. -/
abbrev topology (gpu_id : ℕ → Option ℕ) : List HostInfo := gpus gpu_id (List.range max_topology)

/-- The devices that `L` lists among `all`, in its order, and what was there before under every
    other key. -/
def Registered (all : List HostInfo) (L : List ℕ) (before after : ℕ → Option HostInfo) : Prop :=
  ∀ k, after k =
    match L[k]? with
    | some i => all[i]?
    | none => before k

section Constructor

variable {gpu_id : ℕ → Option ℕ} {ev_val : Option (List Char)} {num_gpu_devices_ : ℕ} {m : Constructed}
  {d : ℕ → Option HostInfo}

/-- What is picked on the walk stays registered, whatever is logged at the end; the heaps are made if
    it is as many devices as were counted. -/
theorem HipMemoryManager_eq {l : List ℤ} (hl : visible_devices ev_val num_gpu_devices_ = some l) :
    HipMemoryManager ev_val num_gpu_devices_ gpu_id d =
      (pick position l ((topology gpu_id).zipIdx)).map fun (r, _) =>
        ⟨register d 0 (r.map Prod.fst),
          if r.length = num_gpu_devices_ then List.replicate num_gpu_devices_ {} else []⟩ := by
  rw [HipMemoryManager, hl, Option.bind_eq_bind, Option.bind_some, foldlM_visit]
  cases hp : pick position l ((topology gpu_id).zipIdx) with
  | none => simp
  | some p =>
    obtain ⟨r, rest⟩ := p
    simp only [Option.map_some, Option.bind_eq_bind, Option.bind_some, Enumeration.after,
      List.length_map, Nat.zero_add]
    by_cases h0 : r.length = 0
    · by_cases hn : r.length = num_gpu_devices_
      · rw [if_pos h0, if_pos hn, ← hn, h0, List.replicate_zero]
      · rw [if_pos h0, if_neg hn]
    · by_cases hn : r.length = num_gpu_devices_
      · rw [if_neg h0, if_neg (not_not_intro hn), if_pos hn]
      · rw [if_neg h0, if_pos hn, if_neg hn]

/-- A device with a heap is registered, for every value of the variable that the constructor accepts. -/
theorem registered_of_heap (h : HipMemoryManager ev_val num_gpu_devices_ gpu_id d = some m) {k : ℕ}
    (hk : k < m.fragment_allocator_.length) : ∃ x ∈ topology gpu_id, m.host_devices k = some x := by
  cases hl : visible_devices ev_val num_gpu_devices_ with
  | none => simp [HipMemoryManager, hl] at h
  | some l =>
    rw [HipMemoryManager_eq hl, Option.map_eq_some_iff] at h
    obtain ⟨⟨r, rest⟩, hp, rfl⟩ := h
    have hkr : k < (r.map Prod.fst).length := by
      rw [List.length_map]
      dsimp only at hk
      split at hk
      · rename_i hn
        rwa [List.length_replicate, ← hn] at hk
      · simp at hk
    refine ⟨(r.map Prod.fst)[k], ?_, ?_⟩
    · obtain ⟨x, hx, heq⟩ := List.mem_map.mp (List.getElem_mem hkr)
      have hpos := List.mem_zipIdx_iff_getElem?.mp ((pick_spec hp).1.subset hx)
      exact heq ▸ List.mem_of_getElem? hpos
    · simp only [register_apply, Nat.zero_le, if_true, Nat.sub_zero, List.getElem?_eq_getElem hkr,
        Option.some_or]

/-- The list is registered as given exactly if the walk takes all of it. -/
theorem registered_iff_pick {L : List ℕ} (hlt : ∀ i ∈ L, i < (topology gpu_id).length)
    (hl : visible_devices ev_val num_gpu_devices_ = some (L.map Int.ofNat)) :
    (∀ d, ∃ m, HipMemoryManager ev_val num_gpu_devices_ gpu_id d = some m ∧
        Registered (topology gpu_id) L d m.host_devices) ↔
      ∃ r, pick position (L.map Int.ofNat) ((topology gpu_id).zipIdx) = some (r, []) := by
  constructor
  · intro h
    obtain ⟨m, hm, hreg⟩ := h fun _ => none
    rw [HipMemoryManager_eq hl, Option.map_eq_some_iff] at hm
    obtain ⟨⟨r, rest⟩, hp, rfl⟩ := hm
    cases rest with
    | nil => exact ⟨r, hp⟩
    | cons a rest =>
      have hlen := congrArg List.length (pick_spec hp).2
      simp only [List.length_map, List.length_append, List.length_cons] at hlen
      have hr : r.length < L.length := by omega
      have hend : (r.map Prod.fst)[r.length]? = none :=
        List.getElem?_eq_none (List.length_map Prod.fst).le
      -- the first key that is left over has no entry
      have hnone := hreg r.length
      simp only [register_apply, Nat.zero_le, if_true, Nat.sub_zero, List.getElem?_eq_getElem hr,
        hend, Option.none_or] at hnone
      rw [List.getElem?_eq_getElem (hlt _ (List.getElem_mem hr))] at hnone
      cases hnone
  · rintro ⟨r, hp⟩ d
    refine ⟨_, by rw [HipMemoryManager_eq hl, hp, Option.map_some], fun k => ?_⟩
    have hval := congrArg (·[k]?) (pick_positions_values Int.ofNat_injective hp)
    simp only [List.getElem?_map] at hval
    simp only [register_apply, Nat.zero_le, if_true, Nat.sub_zero, List.getElem?_map]
    cases hL : L[k]? with
    | none =>
      have hrk : r[k]? = none := by simpa [hL] using hval
      rw [hrk]
      rfl
    | some i =>
      obtain ⟨x, hx, hxi⟩ : ∃ x, r[k]? = some x ∧ some x.1 = (topology gpu_id)[i]? := by
        simpa [hL, Option.map_eq_some_iff] using hval
      rw [hx]
      exact hxi

/-- The GPUs listed are registered as listed, and the front of an empty list is never taken, exactly if
    the list ascends and lists the last GPU. -/
theorem registers_listed_iff {L : List ℕ}
    (h : Lists (topology gpu_id).length ev_val num_gpu_devices_ L) :
    (∀ d, ∃ m, HipMemoryManager ev_val num_gpu_devices_ gpu_id d = some m ∧
        Registered (topology gpu_id) L d m.host_devices) ↔
      L.Pairwise (· < ·) ∧
        ((topology gpu_id).length = 0 ∨ (topology gpu_id).length - 1 ∈ L) := by
  rw [registered_iff_pick h.lt h.visible_devices]
  exact pick_positions_iff Int.ofNat_injective (topology gpu_id) h.lt

/-- Where the variable is unset, every GPU of the topology is registered. -/
theorem registers_unset (gpu_id : ℕ → Option ℕ) (d : ℕ → Option HostInfo) :
    ∃ m, HipMemoryManager none (topology gpu_id).length gpu_id d = some m ∧
      Registered (topology gpu_id) (List.range (topology gpu_id).length) d m.host_devices := by
  have h : Lists (topology gpu_id).length none (topology gpu_id).length _ := .unset
  refine (registered_iff_pick h.lt h.visible_devices).mpr ?_ d
  refine (pick_positions_iff Int.ofNat_injective (topology gpu_id) h.lt).mpr
    ⟨List.pairwise_lt_range, ?_⟩
  rcases Nat.eq_zero_or_pos (topology gpu_id).length with h0 | hpos
  · exact Or.inl h0
  · exact Or.inr (List.mem_range.mpr (Nat.sub_one_lt_of_lt hpos))

end Constructor

theorem registers_both :
    Lists (topology ([0, 26720, 51190][·]?)).length (some ['0', ',', '1']) 2 [0, 1] ∧
      ∀ d, ∃ m, HipMemoryManager (some ['0', ',', '1']) 2 ([0, 26720, 51190][·]?) d = some m ∧
        Registered [host_info 1 26720, host_info 2 51190] [0, 1] d m.host_devices := by
  have htok : List.Forall₂ (fun token (i : ℕ) => ',' ∉ token ∧ stoi token = some (i : ℤ))
      [['0'], ['1']] [0, 1] := by decide
  have h : Lists (topology ([0, 26720, 51190][·]?)).length (some ['0', ',', '1']) 2 [0, 1] :=
    .listed 2 htok (by decide) (by decide) (by decide)
  exact ⟨h, (registers_listed_iff h).mpr (by decide)⟩

/-- Of two GPUs, the first alone runs into the empty list, and the two the other way round leave the
    second device out. -/
theorem listed_not_registered :
    Lists (topology ([0, 26720, 51190][·]?)).length (some ['0']) 1 [0] ∧
      HipMemoryManager (some ['0']) 1 ([0, 26720, 51190][·]?) (fun _ => none) = none ∧
      Lists (topology ([0, 26720, 51190][·]?)).length (some ['1', ',', '0']) 2 [1, 0] ∧
      (HipMemoryManager (some ['1', ',', '0']) 2 ([0, 26720, 51190][·]?) (fun _ => none)).map
        (·.host_devices 1) = some none := by
  have htok₁ : List.Forall₂ (fun token (i : ℕ) => ',' ∉ token ∧ stoi token = some (i : ℤ))
      [['0']] [0] := by decide
  have htok₂ : List.Forall₂ (fun token (i : ℕ) => ',' ∉ token ∧ stoi token = some (i : ℤ))
      [['1'], ['0']] [1, 0] := by decide
  have hfirst : Lists (topology ([0, 26720, 51190][·]?)).length (some ['0']) 1 [0] :=
    .listed 1 htok₁ (by decide) (by decide) (by decide)
  have hswapped : Lists (topology ([0, 26720, 51190][·]?)).length (some ['1', ',', '0']) 2 [1, 0] :=
    .listed 2 htok₂ (by decide) (by decide) (by decide)
  refine ⟨hfirst, ?_, hswapped, ?_⟩
  · rw [HipMemoryManager_eq hfirst.visible_devices]
    rfl
  · rw [HipMemoryManager_eq hswapped.visible_devices]
    rfl

end PimLibrary.Manager
