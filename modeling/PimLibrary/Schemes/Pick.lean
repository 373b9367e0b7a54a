import Mathlib.Data.List.Sublists
import Mathlib.Data.List.Sort

/-! Picking keyed values out of a stream.

    One pass over a stream of keyed values consumes the front of a list of keys: a value is taken when
    its key is the front, and the pass fails on the first value it meets after the list has run out.
    With no key twice in the stream, the pass takes every listed key exactly if the list is a sublist
    of the stream's keys that ends where the stream ends. -/

namespace Schemes.Pick

variable {α κ : Type*}

/-- A list and a stream that share their first key end alike exactly if what follows does: where one
    of them stops there, the other may not go on. -/
theorem getLast?_cons_iff {k : κ} {ks ls : List κ} (hsub : ks.Sublist ls) (hk : k ∉ ls) :
    (k :: ks).getLast? = (k :: ls).getLast? ↔ ks.getLast? = ls.getLast? := by
  rw [List.getLast?_cons, List.getLast?_cons, Option.some.injEq]
  cases hl : ls.getLast? with
  | none =>
    rw [List.getLast?_eq_none_iff] at hl
    subst hl
    simp [List.sublist_nil.mp hsub]
  | some l =>
    cases hks : ks.getLast? with
    | none =>
      have hne : k ≠ l := fun h => hk (h ▸ List.mem_of_getLast? hl)
      simp [hne]
    | some k' => simp

variable [DecidableEq κ] {key : α → κ} {ks rest : List κ} {xs r : List α}

/-- The values taken, and the keys left over. -/
def pick (key : α → κ) : List κ → List α → Option (List α × List κ)
  | ks, [] => some ([], ks)
  | [], _ :: _ => none
  | k :: ks, x :: xs =>
    if k = key x then (pick key ks xs).map fun (r, rest) => (x :: r, rest)
    else pick key (k :: ks) xs

/-- What a pass takes comes from the stream in order, under the keys it has consumed. -/
theorem pick_spec (h : pick key ks xs = some (r, rest)) : r.Sublist xs ∧ ks = r.map key ++ rest := by
  induction xs generalizing ks r with
  | nil =>
    simp only [pick, Option.some.injEq, Prod.mk.injEq] at h
    obtain ⟨rfl, rfl⟩ := h
    simp
  | cons x xs ih =>
    cases ks with
    | nil => simp [pick] at h
    | cons k ks =>
      rw [pick] at h
      split at h
      · rename_i hk
        obtain ⟨p, hp, hr⟩ := Option.map_eq_some_iff.mp h
        simp only [Prod.mk.injEq] at hr
        obtain ⟨rfl, rfl⟩ := hr
        obtain ⟨hsub, rfl⟩ := ih hp
        exact ⟨hsub.cons_cons x, by rw [hk, List.map_cons, List.cons_append]⟩
      · obtain ⟨hsub, heq⟩ := ih h
        exact ⟨hsub.cons x, heq⟩

theorem pick_cons_self (x : α) (ks : List κ) (xs : List α) :
    (∃ r, pick key (key x :: ks) (x :: xs) = some (r, [])) ↔ ∃ r, pick key ks xs = some (r, []) := by
  simp [pick]

theorem pick_cons_of_ne {k : κ} {x : α} (h : k ≠ key x) (ks : List κ) (xs : List α) :
    pick key (k :: ks) (x :: xs) = pick key (k :: ks) xs := by
  rw [pick, if_neg h]

/-- The whole list is taken exactly if it is a sublist of the stream's keys with the same end. -/
theorem pick_all_iff (hnd : (xs.map key).Nodup) :
    (∃ r, pick key ks xs = some (r, [])) ↔
      ks.Sublist (xs.map key) ∧ ks.getLast? = (xs.map key).getLast? := by
  induction xs generalizing ks with
  | nil => cases ks <;> simp [pick]
  | cons x xs ih =>
    rw [List.map_cons, List.nodup_cons] at hnd
    obtain ⟨hx, hnd⟩ := hnd
    cases ks with
    | nil => simp [pick, List.getLast?_cons]
    | cons k ks =>
      rw [List.map_cons]
      by_cases hk : k = key x
      · subst hk
        rw [pick_cons_self, ih hnd, List.cons_sublist_cons]
        exact and_congr_right fun hsub => (getLast?_cons_iff hsub hx).symm
      · rw [pick_cons_of_ne hk, ih hnd]
        have hsub : (k :: ks).Sublist (key x :: xs.map key) ↔ (k :: ks).Sublist (xs.map key) :=
          ⟨fun h => (List.sublist_cons_iff.mp h).resolve_right
            fun ⟨_, he, _⟩ => hk (List.cons.inj he).1, fun h => h.cons _⟩
        rw [hsub]
        refine and_congr_right fun h => ?_
        have hne : xs.map key ≠ [] := fun h0 => by simp [h0] at h
        rw [List.getLast?_cons (a := key x)]
        cases hl : (xs.map key).getLast? with
        | none => exact absurd (List.getLast?_eq_none_iff.mp hl) hne
        | some l => rfl

/-! ### Streams keyed by position -/

theorem sublist_range_iff {L : List ℕ} {n : ℕ} :
    L.Sublist (List.range n) ↔ L.Pairwise (· < ·) ∧ ∀ i ∈ L, i < n := by
  constructor
  · intro h
    exact ⟨List.pairwise_lt_range.sublist h, fun i hi => List.mem_range.mp (h.subset hi)⟩
  · rintro ⟨hasc, hlt⟩
    have hsub : L ⊆ List.range n := fun i hi => List.mem_range.mpr (hlt i hi)
    have hnd : L.Nodup := hasc.imp fun h => Nat.ne_of_lt h
    exact List.sublist_of_subperm_of_pairwise (List.subperm_of_subset hnd hsub)
      (hasc.imp Nat.le_of_lt) (List.pairwise_lt_range.imp Nat.le_of_lt)

/-- An ascending list of positions ends with the last position exactly if it lists it. -/
theorem getLast?_eq_range_iff {L : List ℕ} {n : ℕ} (hasc : L.Pairwise (· < ·)) (hlt : ∀ i ∈ L, i < n) :
    L.getLast? = (List.range n).getLast? ↔ n = 0 ∨ n - 1 ∈ L := by
  rw [List.getLast?_range]
  split
  · rename_i h0
    subst h0
    cases L with
    | nil => simp
    | cons i L => exact absurd (hlt i List.mem_cons_self) (Nat.not_lt_zero i)
  · rename_i h0
    rw [or_iff_right h0]
    constructor
    · exact List.mem_of_getLast?
    · intro hmem
      obtain ⟨pre, post, rfl⟩ := List.append_of_mem hmem
      cases post with
      | nil => simp
      | cons j post =>
        have hj := hlt j (by simp)
        have hij : n - 1 < j := by
          rw [List.pairwise_append, List.pairwise_cons] at hasc
          exact hasc.2.1.1 j List.mem_cons_self
        omega

variable {f : ℕ → κ}

/-- Listed positions are all taken exactly if the list ascends and lists the stream's last one. -/
theorem pick_positions_iff (hf : Function.Injective f) {L : List ℕ} (xs : List α)
    (hlt : ∀ i ∈ L, i < xs.length) :
    (∃ r, pick (fun x : α × ℕ => f x.2) (L.map f) xs.zipIdx = some (r, [])) ↔
      L.Pairwise (· < ·) ∧ (xs.length = 0 ∨ xs.length - 1 ∈ L) := by
  have hkeys : (xs.zipIdx).map (fun x : α × ℕ => f x.2) = (List.range xs.length).map f := by
    rw [← Function.comp_def f Prod.snd, ← List.map_map, List.zipIdx_map_snd, List.range_eq_range']
  have hsub : (L.map f).Sublist ((List.range xs.length).map f) ↔ L.Sublist (List.range xs.length) := by
    refine ⟨fun h => ?_, fun h => h.map f⟩
    obtain ⟨l, hl, heq⟩ := List.sublist_map_iff.mp h
    exact List.map_injective_iff.mpr hf heq ▸ hl
  rw [pick_all_iff (hkeys ▸ List.nodup_range.map hf), hkeys, hsub, sublist_range_iff,
    List.getLast?_map, List.getLast?_map, (Option.map_injective hf).eq_iff, and_assoc]
  exact and_congr_right fun hasc =>
    (and_iff_right hlt).trans (getLast?_eq_range_iff hasc hlt)

/-- What is taken under the listed positions stands at them. -/
theorem pick_positions_values (hf : Function.Injective f) {L : List ℕ} {xs : List α}
    {r : List (α × ℕ)}
    (h : pick (fun x : α × ℕ => f x.2) (L.map f) xs.zipIdx = some (r, [])) :
    r.map (fun x => some x.1) = L.map (xs[·]?) := by
  obtain ⟨hsub, heq⟩ := pick_spec h
  rw [List.append_nil, ← Function.comp_def f Prod.snd, ← List.map_map] at heq
  rw [List.map_injective_iff.mpr hf heq, List.map_map]
  exact List.map_congr_left fun x hx =>
    (List.mem_zipIdx_iff_getElem?.mp (hsub.subset hx)).symm

end Schemes.Pick
