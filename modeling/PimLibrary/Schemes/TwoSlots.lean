import Mathlib.Tactic

/-! Writes to two halves, gathered in a record that places them by its own side.

    The first write opens the record, on its own side and with its value first. A lower write to a
    record on the upper side moves the first value over and takes its place; any other write goes
    second. So a record on the lower side never changes its first value, and one on the upper side
    keeps the first of the upper writes, whatever comes after. -/

namespace Schemes.TwoSlots

variable {α : Type*}

/-- Whether the record starts at the lower half, and its two values. -/
structure Slots (α : Type*) where
  lower : Bool
  first : α
  second : α

/-- The record that a write opens over an old second value. -/
def opened (old : α) (w : Bool × α) : Slots α := ⟨w.1, w.2, old⟩

/-- A write, lower or upper, to an open record. -/
def place (s : Slots α) (w : Bool × α) : Slots α :=
  if w.1 = true ∧ s.lower = false then ⟨true, w.2, s.first⟩ else ⟨s.lower, s.first, w.2⟩

/-- The record after a first write and later ones. -/
def gather (old : α) (w : Bool × α) (ws : List (Bool × α)) : Slots α := ws.foldl place (opened old w)

/-- The values written to one half, in order. -/
def side (half : Bool) (ws : List (Bool × α)) : List α := (ws.filter fun w => w.1 = half).map Prod.snd

/-- Each half that is written has its last value in its place, and an upper half that is not written has
    the old value. -/
structure Right (old : α) (ws : List (Bool × α)) (s : Slots α) : Prop where
  lower : ∀ v, (side true ws).getLast? = some v → s.lower = true ∧ s.first = v
  upper : ∀ v, (side false ws).getLast? = some v → (if s.lower then s.second else s.first) = v
  apart : side false ws = [] → s.lower = true → s.second = old

/-- The writes from the first lower one on. -/
def fromLower (ws : List (Bool × α)) : List (Bool × α) := ws.dropWhile fun w => w.1 = false

/-- The lower values begin and end alike. If nothing follows the first lower write, so do the upper
    ones; otherwise the last value of all is the last upper one, or the old one where there is none. -/
def Kept (old : α) (ws : List (Bool × α)) : Prop :=
  (side true ws).head? = (side true ws).getLast? ∧
    if (fromLower ws).tail = [] then (side false ws).head? = (side false ws).getLast?
    else (ws.map Prod.snd).getLast? = some ((side false ws).getLast?.getD old)

/-- The lower half is written at most once, and so is the upper half unless it has the last word
    after the lower one. -/
def Orderly (ws : List (Bool × α)) : Prop :=
  (side true ws).length ≤ 1 ∧
    ((side false ws).length ≤ 1 ∨ side true ws ≠ [] ∧ ∃ w, ws.getLast? = some w ∧ w.1 = false)

/-! ### The gathered record -/

variable {old x y : α} {w : Bool × α} {ws : List (Bool × α)}

theorem foldl_place_lower (x y : α) (ws : List (Bool × α)) :
    ws.foldl place ⟨true, x, y⟩ = ⟨true, x, (ws.map Prod.snd).getLast?.getD y⟩ := by
  induction ws generalizing y with
  | nil => rfl
  | cons w ws ih =>
    have hstep : place ⟨true, x, y⟩ w = ⟨true, x, w.2⟩ := by simp [place]
    rw [List.foldl_cons, hstep, ih, List.map_cons, List.getLast?_cons, Option.getD_some]

theorem foldl_place_upper (x y : α) (h : ∀ w ∈ ws, w.1 = false) :
    ws.foldl place ⟨false, x, y⟩ = ⟨false, x, (ws.map Prod.snd).getLast?.getD y⟩ := by
  induction ws generalizing y with
  | nil => rfl
  | cons w ws ih =>
    obtain ⟨hw, hws⟩ := List.forall_mem_cons.mp h
    have hstep : place ⟨false, x, y⟩ w = ⟨false, x, w.2⟩ := by simp [place, hw]
    rw [List.foldl_cons, hstep, ih _ hws, List.map_cons, List.getLast?_cons, Option.getD_some]

theorem side_append (half : Bool) (ws ws' : List (Bool × α)) :
    side half (ws ++ ws') = side half ws ++ side half ws' := by
  simp [side]

theorem side_of_all {half : Bool} (h : ∀ w ∈ ws, w.1 = half) : side half ws = ws.map Prod.snd := by
  rw [side, List.filter_eq_self.mpr (by simpa using h)]

theorem side_of_none {half : Bool} (h : ∀ w ∈ ws, w.1 ≠ half) : side half ws = [] := by
  simpa [side] using h

/-- Only upper writes: the record stays on the upper side with the first of them. -/
theorem gather_upper (hw : w.1 = false) (hws : ∀ u ∈ ws, u.1 = false) :
    gather old w ws = ⟨false, w.2, (ws.map Prod.snd).getLast?.getD old⟩ := by
  rw [gather, opened, hw]
  exact foldl_place_upper w.2 old hws

/-- A lower write takes the first place for good; the second has the last value after it, or else the
    first one before it. -/
theorem gather_lower {before after : List (Bool × α)} {low : Bool × α}
    (h : w :: ws = before ++ low :: after)
    (hbefore : ∀ u ∈ before, u.1 = false) (hlow : low.1 = true) : gather old w ws =
      ⟨true, low.2, (after.map Prod.snd).getLast?.getD ((before.map Prod.snd).head?.getD old)⟩ := by
  cases before with
  | nil =>
    obtain ⟨rfl, rfl⟩ := List.cons.inj h
    rw [gather, opened, hlow]
    exact foldl_place_lower w.2 old ws
  | cons b before =>
    rw [List.cons_append] at h
    obtain ⟨rfl, rfl⟩ := List.cons.inj h
    obtain ⟨hw, hbefore⟩ := List.forall_mem_cons.mp hbefore
    have hopen : gather old w before = ⟨false, w.2, (before.map Prod.snd).getLast?.getD old⟩ :=
      gather_upper hw hbefore
    rw [gather] at hopen ⊢
    rw [List.foldl_append, hopen, List.foldl_cons, place, if_pos ⟨hlow, rfl⟩]
    exact foldl_place_lower low.2 w.2 after

/-- The writes split at the first lower one. -/
theorem exists_split (ws : List (Bool × α)) : ∃ before, (∀ u ∈ before, u.1 = false) ∧
    ws = before ++ fromLower ws ∧ ∀ low after, fromLower ws = low :: after → low.1 = true := by
  refine ⟨ws.takeWhile fun w => w.1 = false, ?_, (List.takeWhile_append_dropWhile ..).symm, ?_⟩
  · intro u hu
    simpa using List.all_eq_true.mp List.all_takeWhile u hu
  · intro low after hrest
    have hhead := List.head?_dropWhile_not (fun w : Bool × α => decide (w.1 = false)) ws
    rw [fromLower] at hrest
    rw [hrest] at hhead
    simpa using hhead

/-- The record ends on the lower side exactly if a lower write came. -/
theorem gather_lower_iff : (gather old w ws).lower = true ↔ ∃ u ∈ w :: ws, u.1 = true := by
  obtain ⟨before, hbefore, hsplit, hlow⟩ := exists_split (w :: ws)
  cases hrest : fromLower (w :: ws) with
  | nil =>
    rw [hrest, List.append_nil] at hsplit
    rw [← hsplit] at hbefore
    rw [gather_upper (List.forall_mem_cons.mp hbefore).1 (List.forall_mem_cons.mp hbefore).2]
    constructor
    · intro h
      cases h
    · rintro ⟨u, hu, hlower⟩
      rw [hbefore u hu] at hlower
      cases hlower
  | cons low after =>
    rw [hrest] at hsplit
    rw [gather_lower hsplit hbefore (hlow low after hrest), hsplit]
    exact ⟨fun _ => ⟨low, by simp, hlow low after hrest⟩, fun _ => rfl⟩

theorem forall_getLast?_eq_iff {l : List α} (hx : l.head? = some x) :
    (∀ v, l.getLast? = some v → x = v) ↔ l.head? = l.getLast? := by
  rw [hx]
  constructor
  · intro h
    cases hlast : l.getLast? with
    | none =>
      rw [List.getLast?_eq_none_iff.mp hlast] at hx
      cases hx
    | some v => rw [h v hlast]
  · intro h v hv
    rw [hv] at h
    exact Option.some.inj h

theorem right_upper_iff (hall : ∀ u ∈ w :: ws, u.1 = false) :
    Right old (w :: ws) ⟨false, w.2, y⟩ ↔ (side false (w :: ws)).head? =
      (side false (w :: ws)).getLast? := by
  have hnone : side true (w :: ws) = [] := side_of_none (by simpa using hall)
  have hhead : (side false (w :: ws)).head? = some w.2 := by
    rw [side_of_all hall]
    rfl
  rw [← forall_getLast?_eq_iff hhead]
  constructor
  · intro h v hv
    exact h.upper v hv
  · intro h
    refine ⟨?_, ?_, ?_⟩
    · intro v hv
      rw [hnone] at hv
      cases hv
    · intro v hv
      exact h v hv
    · intro _ hlower
      cases hlower

/-- A record on the lower side is right when its first value is the last lower one and its second
    the last upper one, or the old one. -/
theorem right_lower_iff (hx : (side true ws).head? = some x) : Right old ws ⟨true, x, y⟩ ↔
    (side true ws).head? = (side true ws).getLast? ∧ y = (side false ws).getLast?.getD old := by
  rw [← forall_getLast?_eq_iff hx]
  constructor
  · intro h
    refine ⟨fun v hv => (h.lower v hv).2, ?_⟩
    cases hlast : (side false ws).getLast? with
    | none => exact h.apart (List.getLast?_eq_none_iff.mp hlast) rfl
    | some v => exact h.upper v hlast
  · rintro ⟨hlower, hupper⟩
    refine ⟨fun v hv => ⟨rfl, hlower v hv⟩, ?_, ?_⟩
    · intro v hv
      rw [hv] at hupper
      exact hupper
    · intro hnone _
      rw [hnone] at hupper
      exact hupper

/-- The gathered record is right exactly when the writes are kept. -/
theorem right_gather_iff : Right old (w :: ws) (gather old w ws) ↔ Kept old (w :: ws) := by
  obtain ⟨before, hbefore, hsplit, hlow⟩ := exists_split (w :: ws)
  rw [Kept]
  cases hrest : fromLower (w :: ws) with
  | nil =>
    rw [hrest, List.append_nil] at hsplit
    have hall : ∀ u ∈ w :: ws, u.1 = false := hsplit ▸ hbefore
    have hnone : side true (w :: ws) = [] := side_of_none (by simpa using hall)
    obtain ⟨hw, hws⟩ := List.forall_mem_cons.mp hall
    rw [gather_upper hw hws, right_upper_iff hall, hnone]
    simp
  | cons low after =>
    have hlow := hlow low after hrest
    rw [hrest] at hsplit
    have hlowers : side true (w :: ws) = low.2 :: side true after := by
      rw [hsplit, side_append, side_of_none (by simpa using hbefore), List.nil_append]
      simp [side, hlow]
    have huppers : side false (w :: ws) = before.map Prod.snd ++ side false after := by
      rw [hsplit, side_append, side_of_all hbefore]
      simp [side, hlow]
    rw [gather_lower hsplit hbefore hlow, right_lower_iff (by rw [hlowers]; rfl), List.tail_cons]
    refine and_congr_right fun _ => ?_
    cases after with
    | nil =>
      rw [if_pos rfl, huppers]
      cases before with
      | nil => simp [side]
      | cons b before =>
        rw [show side false ([] : List (Bool × α)) = [] from rfl, List.append_nil, List.map_cons,
          List.head?_cons, List.getLast?_cons]
        simp
    | cons a after =>
      have hlast : ((w :: ws).map Prod.snd).getLast? = ((a :: after).map Prod.snd).getLast? := by
        rw [hsplit]
        simp [List.getLast?_cons]
      rw [if_neg (List.cons_ne_nil _ _), hlast, List.map_cons, List.getLast?_cons, Option.getD_some,
        Option.some_inj]

/-! ### Orderly writes -/

theorem head?_eq_getLast?_of_length {l : List α} (h : l.length ≤ 1) : l.head? = l.getLast? := by
  rcases l with - | ⟨x, - | ⟨y, l⟩⟩
  · rfl
  · rfl
  · simp at h

/-- An upper write at the end is the last upper one. -/
theorem side_getLast? {half : Bool} (hlast : ws.getLast? = some w) (hw : w.1 = half) :
    (side half ws).getLast? = some w.2 := by
  obtain ⟨init, rfl⟩ := List.getLast?_eq_some_iff.mp hlast
  rw [side_append]
  simp [side, hw]

theorem side_true_ne_nil {low : Bool × α} (hmem : low ∈ ws) (hlow : low.1 = true) : side true ws ≠ [] :=
  List.ne_nil_of_mem (List.mem_map_of_mem (List.mem_filter.mpr ⟨hmem, by simpa using hlow⟩))

/-- Orderly writes are kept, whatever they write. -/
theorem kept_of_orderly (h : Orderly ws) : Kept old ws := by
  obtain ⟨hlowers, huppers⟩ := h
  refine ⟨head?_eq_getLast?_of_length hlowers, ?_⟩
  obtain ⟨before, hbefore, hsplit, hlow⟩ := exists_split ws
  cases hrest : fromLower ws with
  | nil =>
    rw [hrest, List.append_nil] at hsplit
    have hnone : side true ws = [] := side_of_none (by simpa [hsplit] using hbefore)
    rw [List.tail_nil, if_pos rfl]
    rcases huppers with hone | ⟨hsome, -⟩
    · exact head?_eq_getLast?_of_length hone
    · exact absurd hnone hsome
  | cons low after =>
    have hlow := hlow low after hrest
    rw [hrest] at hsplit
    cases after with
    | nil =>
      rw [List.tail_cons, if_pos rfl]
      rcases huppers with hone | ⟨-, w, hlast, hw⟩
      · exact head?_eq_getLast?_of_length hone
      · rw [hsplit, List.getLast?_concat, Option.some_inj] at hlast
        rw [hlast, hw] at hlow
        cases hlow
    | cons a after =>
      rw [List.tail_cons, if_neg (List.cons_ne_nil _ _)]
      obtain ⟨w, hw⟩ : ∃ w, (a :: after).getLast? = some w := ⟨_, List.getLast?_cons⟩
      have hlast : ws.getLast? = some w := by
        rw [hsplit, List.getLast?_append, List.getLast?_cons_cons, hw, Option.some_or]
      -- the lower write is the only one, so the last write is upper
      have hupper : w.1 = false := by
        by_contra hlower
        have hsides : side true ws = side true before ++ low.2 :: side true (a :: after) := by
          rw [hsplit, side_append]
          simp [side, hlow]
        have hpos := List.length_pos_iff.mpr
          (side_true_ne_nil (List.mem_of_getLast? hw) (by simpa using hlower))
        rw [hsides, List.length_append, List.length_cons] at hlowers
        omega
      rw [side_getLast? hlast hupper, Option.getD_some, List.getLast?_map, hlast]
      rfl

theorem length_le_of_nodup {l : List α} (hnodup : l.Nodup) (h : l.head? = l.getLast?) :
    l.length ≤ 1 := by
  rcases l with - | ⟨x, - | ⟨y, l⟩⟩
  · simp
  · simp
  · have hmem : x ∈ y :: l := by
      rw [List.head?_cons, List.getLast?_cons_cons] at h
      exact List.mem_of_getLast? h.symm
    exact absurd hmem (List.nodup_cons.mp hnodup).1

/-- When all values differ, only orderly writes are kept. -/
theorem kept_iff_orderly (hnodup : (old :: ws.map Prod.snd).Nodup) : Kept old ws ↔ Orderly ws := by
  obtain ⟨hold, hnodup⟩ := List.nodup_cons.mp hnodup
  have hside : ∀ half, (side half ws).Nodup := fun half => hnodup.sublist (List.filter_sublist.map _)
  refine ⟨?_, kept_of_orderly⟩
  rintro ⟨hlowers, huppers⟩
  refine ⟨length_le_of_nodup (hside true) hlowers, ?_⟩
  split_ifs at huppers with htail
  · exact Or.inl (length_le_of_nodup (hside false) huppers)
  · obtain ⟨before, -, hsplit, hlow⟩ := exists_split ws
    have hne : fromLower ws ≠ [] := by
      intro hnil
      exact htail (by rw [hnil, List.tail_nil])
    obtain ⟨low, after, hrest⟩ := List.exists_cons_of_ne_nil hne
    have hmem : low ∈ ws := by
      rw [hsplit, hrest]
      simp
    refine Or.inr ⟨side_true_ne_nil hmem (hlow low after hrest), ?_⟩
    rw [List.getLast?_map] at huppers
    obtain ⟨w, hlast, hvalue⟩ := Option.map_eq_some_iff.mp huppers
    refine ⟨w, hlast, ?_⟩
    have hw : w ∈ ws := List.mem_of_getLast? hlast
    cases hupper : (side false ws).getLast? with
    | none =>
      rw [hupper, Option.getD_none] at hvalue
      exact absurd (List.mem_map.mpr ⟨w, hw, hvalue⟩) hold
    | some v =>
      rw [hupper, Option.getD_some] at hvalue
      obtain ⟨u, hu, rfl⟩ := List.mem_map.mp (List.mem_of_getLast? hupper)
      obtain ⟨hu, hside⟩ := List.mem_filter.mp hu
      rw [List.inj_on_of_nodup_map hnodup hw hu hvalue]
      simpa using hside

end Schemes.TwoSlots
