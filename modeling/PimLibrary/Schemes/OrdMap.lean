import Mathlib.Tactic

/-! Ordered maps as association lists in the order of their keys.

    A key cuts the list into the entries below and the entries above it; every operation is read off
    such a cut. -/

namespace Schemes.OrdMap

variable {κ α : Type} [LinearOrder κ]

/-- `find`. -/
def find (k : κ) (m : List (κ × α)) : Option α := (m.find? fun x => decide (x.1 = k)).map Prod.snd

/-- `m[k] = v`. -/
def insert (k : κ) (v : α) (m : List (κ × α)) : List (κ × α) :=
  m.filter (fun x => decide (x.1 < k)) ++ (k, v) :: m.filter fun x => decide (k < x.1)

def erase (k : κ) (m : List (κ × α)) : List (κ × α) := m.filter fun x => decide (x.1 ≠ k)

/-- The entry before the key. -/
def below (k : κ) (m : List (κ × α)) : Option (κ × α) := (m.filter fun x => decide (x.1 < k)).getLast?

/-- The entry after the key, `upper_bound`. -/
def above (k : κ) (m : List (κ × α)) : Option (κ × α) := (m.filter fun x => decide (k < x.1)).head?

/-- The entry before `upper_bound`. -/
def floor (k : κ) (m : List (κ × α)) : Option (κ × α) := (m.filter fun x => decide (x.1 ≤ k)).getLast?

/-- The keys increase. -/
def Sorted (m : List (κ × α)) : Prop := m.Pairwise fun x y => x.1 < y.1

/-- The key lies between the two lists. -/
structure Cut (k : κ) (pre post : List (κ × α)) : Prop where
  lt : ∀ x ∈ pre, x.1 < k
  gt : ∀ x ∈ post, k < x.1

variable {k : κ} {v w : α} {m pre post : List (κ × α)}

theorem sorted_append_cons : Sorted (pre ++ (k, v) :: post) ↔ Sorted (pre ++ post) ∧
    Cut k pre post := by
  simp only [Sorted, List.pairwise_append, List.pairwise_cons, List.mem_cons]
  constructor
  · rintro ⟨hpre, ⟨hgt, hpost⟩, hcross⟩
    exact ⟨⟨hpre, hpost, fun x hx y hy => hcross x hx y (Or.inr hy)⟩, fun x hx =>
      hcross x hx _ (Or.inl rfl), hgt⟩
  · rintro ⟨⟨hpre, hpost, hcross⟩, hlt, hgt⟩
    refine ⟨hpre, ⟨hgt, hpost⟩, ?_⟩
    rintro x hx y (rfl | hy)
    · exact hlt x hx
    · exact hcross x hx y hy

theorem mem_insert : (k, v) ∈ insert k v m := by simp [insert]

theorem Sorted.cut (h : Sorted (pre ++ (k, v) :: post)) : Cut k pre post := (sorted_append_cons.mp h).2

/-- A key is there, or it falls between two entries. -/
theorem Sorted.exists_cut (h : Sorted m) (k : κ) :
    ∃ pre post, Cut k pre post ∧ (m = pre ++ post ∨ ∃ v, m = pre ++ (k, v) :: post) := by
  induction m with
  | nil => exact ⟨[], [], ⟨by simp, by simp⟩, Or.inl rfl⟩
  | cons x m ih =>
    obtain ⟨hx, hm⟩ := List.pairwise_cons.mp h
    rcases lt_trichotomy x.1 k with hlt | rfl | hgt
    · obtain ⟨pre, post, hcut, hcases⟩ := ih hm
      refine ⟨x :: pre, post, ⟨?_, hcut.gt⟩, ?_⟩
      · rintro y (_ | ⟨_, hy⟩)
        · exact hlt
        · exact hcut.lt y hy
      · rcases hcases with rfl | ⟨v, rfl⟩
        · exact Or.inl rfl
        · exact Or.inr ⟨v, rfl⟩
    · exact ⟨[], m, ⟨by simp, hx⟩, Or.inr ⟨x.2, rfl⟩⟩
    · refine ⟨[], x :: m, ⟨by simp, ?_⟩, Or.inl rfl⟩
      rintro y (_ | ⟨_, hy⟩)
      · exact hgt
      · exact hgt.trans (hx y hy)

namespace Cut

variable (h : Cut k pre post)
include h

theorem filter_lt : pre.filter (fun x => decide (x.1 < k)) = pre ∧ post.filter
    (fun x => decide (x.1 < k)) = [] :=
  ⟨List.filter_eq_self.mpr fun x hx => decide_eq_true (h.lt x hx),
    List.filter_eq_nil_iff.mpr fun x hx => by simpa using (h.gt x hx).le⟩

theorem filter_gt : pre.filter (fun x => decide (k < x.1)) = [] ∧ post.filter
    (fun x => decide (k < x.1)) = post :=
  ⟨List.filter_eq_nil_iff.mpr fun x hx => by simpa using (h.lt x hx).le,
    List.filter_eq_self.mpr fun x hx => decide_eq_true (h.gt x hx)⟩

theorem insert : insert k v (pre ++ post) = pre ++ (k, v) :: post := by
  simp [OrdMap.insert, h.filter_lt, h.filter_gt]

theorem insert_self : OrdMap.insert k w (pre ++ (k, v) :: post) = pre ++ (k, w) :: post := by
  simp [OrdMap.insert, h.filter_lt, h.filter_gt]

theorem erase : erase k (pre ++ (k, v) :: post) = pre ++ post := by
  have hpre : pre.filter (fun x => decide (x.1 ≠ k)) = pre :=
    List.filter_eq_self.mpr fun x hx => decide_eq_true (h.lt x hx).ne
  have hpost : post.filter (fun x => decide (x.1 ≠ k)) = post :=
    List.filter_eq_self.mpr fun x hx => decide_eq_true (h.gt x hx).ne'
  rw [OrdMap.erase, List.filter_append, List.filter_cons_of_neg (by simp), hpre, hpost]

theorem find_pre : pre.find? (fun x => decide (x.1 = k)) = none :=
  List.find?_eq_none.mpr fun x hx => by simpa using (h.lt x hx).ne

theorem find : find k (pre ++ (k, v) :: post) = some v := by
  simp [OrdMap.find, List.find?_append, h.find_pre]

theorem find_none : OrdMap.find k (pre ++ post) = none := by
  have hpost : post.find? (fun x => decide (x.1 = k)) = none :=
    List.find?_eq_none.mpr fun x hx => by simpa using (h.gt x hx).ne'
  simp [OrdMap.find, List.find?_append, h.find_pre, hpost]

theorem below : below k (pre ++ (k, v) :: post) = pre.getLast? := by
  simp [OrdMap.below, h.filter_lt]

theorem above : above k (pre ++ (k, v) :: post) = post.head? := by
  simp [OrdMap.above, h.filter_gt]

end Cut

/-- What `find` finds is in the list. -/
theorem Sorted.find_eq_some (h : Sorted m) (hfind : find k m = some v) :
    ∃ pre post, m = pre ++ (k, v) :: post ∧ Cut k pre post := by
  obtain ⟨pre, post, hcut, rfl | ⟨w, rfl⟩⟩ := h.exists_cut k
  · rw [hcut.find_none] at hfind
    cases hfind
  · rw [hcut.find] at hfind
    cases hfind
    exact ⟨pre, post, rfl, hcut⟩

/-- The entry that `floor` finds is the last one that is not above the key. -/
theorem Sorted.floor_eq_some (h : Sorted m) {x : κ × α} (hfloor : floor k m = some x) :
    ∃ pre post, m = pre ++ x :: post ∧ x.1 ≤ k ∧ ∀ y ∈ post, k < y.1 := by
  have hmem : x ∈ m.filter fun y => decide (y.1 ≤ k) := List.mem_of_getLast? hfloor
  obtain ⟨hx, hle⟩ := List.mem_filter.mp hmem
  have hle : x.1 ≤ k := of_decide_eq_true hle
  obtain ⟨pre, post, rfl⟩ := List.append_of_mem hx
  refine ⟨pre, post, rfl, hle, ?_⟩
  intro y hy
  by_contra hyk
  -- an entry of `post` that is not above the key would come last
  have hpost : (post.filter fun y => decide (y.1 ≤ k)) ≠ [] :=
    List.ne_nil_of_mem (List.mem_filter.mpr ⟨hy, decide_eq_true (not_lt.mp hyk)⟩)
  rw [floor, List.filter_append, List.filter_cons_of_pos (by simpa using hle)] at hfloor
  rw [List.getLast?_append_of_ne_nil _ (List.cons_ne_nil _ _), List.getLast?_cons_of_ne_nil hpost]
    at hfloor
  have hxpost := (List.mem_filter.mp (List.mem_of_getLast? hfloor)).1
  have hcut := Sorted.cut (k := x.1) (v := x.2) h
  exact lt_irrefl _ (hcut.gt x hxpost)

theorem floor_append_cons {x : κ × α} (hle : x.1 ≤ k) (hpost : ∀ y ∈ post, k < y.1) :
    floor k (pre ++ x :: post) = some x := by
  have hnil : post.filter (fun y => decide (y.1 ≤ k)) = [] :=
    List.filter_eq_nil_iff.mpr fun y hy => by simpa using hpost y hy
  simp [floor, hle, hnil]

end Schemes.OrdMap
