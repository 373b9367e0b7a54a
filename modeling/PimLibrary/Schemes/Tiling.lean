import PimLibrary.Schemes.OrdMap

/-! Maps from start addresses to pieces that tile an interval.

    Each piece starts where the one before it ends, so the map is in order and distinct pieces are
    disjoint. -/

namespace Schemes.Tiling
open Schemes.OrdMap

variable {α : Type} (len : α → ℕ)

/-- The pieces, all of positive length, fill `[lo, hi)` from left to right. -/
def Tiles : ℕ → List (ℕ × α) → ℕ → Prop
  | lo, [], hi => lo = hi
  | lo, x :: xs, hi => x.1 = lo ∧ 0 < len x.2 ∧ Tiles (lo + len x.2) xs hi

variable {len} {lo hi : ℕ} {xs ys : List (ℕ × α)} {x : ℕ × α}

@[simp] theorem tiles_nil : Tiles len lo [] hi ↔ lo = hi := Iff.rfl

@[simp] theorem tiles_cons :
    Tiles len lo (x :: xs) hi ↔ x.1 = lo ∧ 0 < len x.2 ∧ Tiles len (lo + len x.2) xs hi := Iff.rfl

theorem tiles_append : Tiles len lo (xs ++ ys) hi ↔ ∃ mid, Tiles len lo xs mid ∧
    Tiles len mid ys hi := by
  induction xs generalizing lo with
  | nil => simp
  | cons x xs ih => simp [ih, and_assoc]

theorem tiles_singleton : Tiles len lo [x] hi ↔ x.1 = lo ∧ 0 < len x.2 ∧ lo + len x.2 = hi := Iff.rfl

theorem Tiles.le (h : Tiles len lo xs hi) : lo ≤ hi := by
  induction xs generalizing lo with
  | nil => exact le_of_eq h
  | cons x xs ih => exact (Nat.le_add_right _ _).trans (ih h.2.2)

/-- Every piece lies in the interval. -/
theorem Tiles.bounds (h : Tiles len lo xs hi) (hx : x ∈ xs) :
    lo ≤ x.1 ∧ 0 < len x.2 ∧ x.1 + len x.2 ≤ hi := by
  induction xs generalizing lo with
  | nil => simp at hx
  | cons y ys ih =>
    obtain ⟨rfl, hpos, hys⟩ := h
    rcases List.mem_cons.mp hx with rfl | hx
    · exact ⟨le_refl _, hpos, hys.le⟩
    · obtain ⟨hlo, hrest⟩ := ih hys hx
      exact ⟨(Nat.le_add_right _ _).trans hlo, hrest⟩

/-- Only the lengths count. -/
theorem Tiles.update {k : ℕ} {v w : α} (h : Tiles len lo (xs ++ (k, v) :: ys) hi)
    (hlen : len w = len v) :
    Tiles len lo (xs ++ (k, w) :: ys) hi := by
  obtain ⟨mid, hxs, hk, hpos, hys⟩ := tiles_append.mp h
  exact tiles_append.mpr ⟨mid, hxs, hk, hlen.symm ▸ hpos, by rw [hlen]; exact hys⟩

/-- Each piece ends before the later ones start. -/
theorem Tiles.pairwise (h : Tiles len lo xs hi) : xs.Pairwise fun x y => x.1 + len x.2 ≤ y.1 := by
  induction xs generalizing lo with
  | nil => exact List.Pairwise.nil
  | cons x xs ih =>
    obtain ⟨rfl, -, hxs⟩ := h
    exact List.pairwise_cons.mpr ⟨fun y hy => (hxs.bounds hy).1, ih hxs⟩

theorem Tiles.sorted (h : Tiles len lo xs hi) : Sorted xs := by
  refine h.pairwise.imp_of_mem ?_
  intro x y hx _ hxy
  exact (Nat.lt_add_of_pos_right (h.bounds hx).2.1).trans_le hxy

/-- The lengths add up. -/
theorem Tiles.sum (h : Tiles len lo xs hi) : lo + (xs.map fun x => len x.2).sum = hi := by
  induction xs generalizing lo with
  | nil => simpa using h
  | cons x xs ih =>
    rw [List.map_cons, List.sum_cons, ← Nat.add_assoc]
    exact ih h.2.2

/-- Pieces that start apart are disjoint. -/
theorem Tiles.disjoint (h : Tiles len lo xs hi) {y : ℕ × α} (hx : x ∈ xs) (hy : y ∈ xs)
    (hne : x.1 ≠ y.1) :
    x.1 + len x.2 ≤ y.1 ∨ y.1 + len y.2 ≤ x.1 := by
  have hsymm : Std.Symm fun x y : ℕ × α => x.1 + len x.2 ≤ y.1 ∨ y.1 + len y.2 ≤ x.1 :=
    ⟨fun _ _ => Or.symm⟩
  have hpair : xs.Pairwise fun x y => x.1 + len x.2 ≤ y.1 ∨ y.1 + len y.2 ≤ x.1 := h.pairwise.imp Or.inl
  exact hpair.forall hx hy fun heq => hne (congrArg Prod.fst heq)

end Schemes.Tiling
