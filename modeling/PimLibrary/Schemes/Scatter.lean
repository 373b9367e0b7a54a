import Mathlib.Tactic

/-! Lists of writes applied to a memory.

    What a location holds afterwards is decided by the writes that address it. When those agree on the
    value, neither their order nor their number matters, so parallel writers need no schedule: it is
    enough to know which writes are issued. -/

namespace Schemes.Scatter

variable {α β : Type*} [DecidableEq α]

/-- Apply the writes in order. -/
def scatter (mem : α → β) (ws : List (α × β)) : α → β :=
  ws.foldl (fun m w => Function.update m w.1 w.2) mem

@[simp] theorem scatter_nil (mem : α → β) : scatter mem [] = mem := rfl

@[simp] theorem scatter_cons (mem : α → β) (w : α × β) (ws : List (α × β)) :
    scatter mem (w :: ws) = scatter (Function.update mem w.1 w.2) ws := rfl

/-- Locations no write addresses keep their contents. -/
theorem scatter_frame {mem : α → β} {ws : List (α × β)} {a : α} (h : ∀ w ∈ ws, w.1 ≠ a) :
    scatter mem ws a = mem a := by
  induction ws generalizing mem with
  | nil => rfl
  | cons w ws ih =>
    rw [scatter_cons, ih fun w' hw' => h w' (List.mem_cons_of_mem _ hw')]
    exact Function.update_of_ne (h w (by simp)).symm _ _

/-- A location keeps its contents or holds what some write put there. -/
theorem scatter_cases (mem : α → β) (ws : List (α × β)) (a : α) :
    scatter mem ws a = mem a ∨ (a, scatter mem ws a) ∈ ws := by
  induction ws generalizing mem with
  | nil => exact Or.inl rfl
  | cons w ws ih =>
    rw [scatter_cons]
    rcases ih (Function.update mem w.1 w.2) with hkeep | hmem
    · rw [hkeep]
      by_cases ha : a = w.1
      · subst ha
        exact Or.inr (by simp)
      · exact Or.inl (Function.update_of_ne ha _ _)
    · exact Or.inr (List.mem_cons_of_mem _ hmem)

/-- Writing what is there changes nothing. -/
theorem scatter_self {mem : α → β} {ws : List (α × β)} (h : ∀ w ∈ ws, mem w.1 = w.2) :
    scatter mem ws = mem := by
  induction ws with
  | nil => rfl
  | cons w ws ih =>
    have hw : Function.update mem w.1 w.2 = mem := by
      rw [← h w (by simp)]
      exact Function.update_eq_self _ _
    rw [scatter_cons, hw]
    exact ih fun w' hw' => h w' (List.mem_cons_of_mem _ hw')

/-- What a location that is written holds does not depend on what it held before. -/
theorem scatter_of_write {ws : List (α × β)} {a : α} (mem mem' : α → β) (h : ∃ w ∈ ws, w.1 = a) :
    scatter mem ws a = scatter mem' ws a := by
  induction ws generalizing mem mem' with
  | nil => simp at h
  | cons w ws ih =>
    rw [scatter_cons, scatter_cons]
    by_cases hlater : ∃ w' ∈ ws, w'.1 = a
    · exact ih _ _ hlater
    · have hw : w.1 = a := by
        obtain ⟨w', hw', ha⟩ := h
        rcases List.mem_cons.mp hw' with rfl | hin
        · exact ha
        · exact absurd ⟨w', hin, ha⟩ hlater
      have hrest : ∀ w' ∈ ws, w'.1 ≠ a := fun w' hw' ha => hlater ⟨w', hw', ha⟩
      rw [scatter_frame hrest, scatter_frame hrest, hw, Function.update_self, Function.update_self]

/-- A location that some write addresses, always with the same value, holds that value. -/
theorem scatter_eq {mem : α → β} {ws : List (α × β)} {a : α} {v : β} (hmem : ∃ w ∈ ws, w.1 = a)
    (hval : ∀ w ∈ ws, w.1 = a → w.2 = v) : scatter mem ws a = v := by
  induction ws generalizing mem with
  | nil => simp at hmem
  | cons w ws ih =>
    rw [scatter_cons]
    by_cases hlater : ∃ w' ∈ ws, w'.1 = a
    · exact ih hlater fun w' hw' => hval w' (List.mem_cons_of_mem _ hw')
    · have hw : w.1 = a := by
        obtain ⟨w', hw', ha⟩ := hmem
        rcases List.mem_cons.mp hw' with rfl | hin
        · exact ha
        · exact absurd ⟨w', hin, ha⟩ hlater
      rw [scatter_frame fun w' hw' ha => hlater ⟨w', hw', ha⟩, hw, Function.update_self]
      exact hval w (by simp) hw

/-- When no two writes share a location, each location keeps what its write put there. -/
theorem scatter_of_nodup {ws : List (α × β)} (h : (ws.map Prod.fst).Nodup) (mem : α → β) :
    ∀ w ∈ ws, scatter mem ws w.1 = w.2 := by
  intro w hw
  refine scatter_eq ⟨w, hw, rfl⟩ ?_
  intro w' hw' hsame
  rw [List.inj_on_of_nodup_map h hw' hw hsame]

/-- Two write lists with the same writes, functional in their addresses, agree where they write. -/
theorem scatter_congr {mem mem' : α → β} {ws ws' : List (α × β)} {a : α}
    (hsame : ∀ w, w ∈ ws' ↔ w ∈ ws) (hfun : ∀ w ∈ ws, ∀ w' ∈ ws, w.1 = w'.1 → w.2 = w'.2)
    (hmem : ∃ w ∈ ws, w.1 = a) : scatter mem' ws' a = scatter mem ws a := by
  obtain ⟨w, hw, rfl⟩ := hmem
  have hval : ∀ w' ∈ ws, w'.1 = w.1 → w'.2 = w.2 := fun w' hw' ha => hfun w' hw' w hw ha
  rw [scatter_eq ⟨w, hw, rfl⟩ hval, scatter_eq ⟨w, (hsame w).mpr hw, rfl⟩ fun w' hw' =>
    hval w' ((hsame w').mp hw')]

/-! ### What a list of writes leaves -/

/-- The value of the last write to each location. -/
def written (ws : List (α × β)) : α → Option β :=
  scatter (fun _ => none) (ws.map fun w => (w.1, some w.2))

theorem written_eq {ws : List (α × β)} {a : α} {v : β} (hmem : ∃ w ∈ ws, w.1 = a)
    (hval : ∀ w ∈ ws, w.1 = a → w.2 = v) : written ws a = some v := by
  obtain ⟨w, hw, ha⟩ := hmem
  refine scatter_eq ⟨(w.1, some w.2), List.mem_map.mpr ⟨w, hw, rfl⟩, ha⟩ ?_
  intro w' hw' ha'
  obtain ⟨u, hu, rfl⟩ := List.mem_map.mp hw'
  exact congrArg some (hval u hu ha')

/-- Only a write puts a value anywhere. -/
theorem mem_of_written {ws : List (α × β)} {a : α} {v : β} (h : written ws a = some v) :
    (a, v) ∈ ws := by
  rcases scatter_cases (fun _ => none) (ws.map fun w => (w.1, some w.2)) a with hnone | hmem
  · rw [written, hnone] at h
    cases h
  · rw [← written, h] at hmem
    obtain ⟨u, hu, heq⟩ := List.mem_map.mp hmem
    cases heq
    exact hu

/-- Later writes hide earlier ones. -/
theorem written_append {ws ws' : List (α × β)} {a : α} (h : ∃ w ∈ ws', w.1 = a) :
    written (ws ++ ws') a = written ws' a := by
  obtain ⟨w, hw, ha⟩ := h
  rw [written, written, List.map_append, scatter, List.foldl_append]
  exact scatter_of_write _ _ ⟨(w.1, some w.2), List.mem_map.mpr ⟨w, hw, rfl⟩, ha⟩

/-- The last iteration that writes a location decides. -/
theorem written_range {f : ℕ → α × β} {n i : ℕ} (hi : i < n)
    (hlast : ∀ j, i < j → j < n → (f j).1 ≠ (f i).1) : written ((List.range n).map f) (f i).1 =
      some (f i).2 := by
  obtain ⟨d, rfl⟩ := Nat.exists_eq_add_of_le (Nat.succ_le_of_lt hi)
  rw [List.range_add, List.range_succ, List.append_assoc, List.map_append]
  rw [written_append ⟨f i, by simp, rfl⟩]
  refine written_eq ⟨f i, by simp, rfl⟩ ?_
  intro w hw ha
  simp only [List.map_cons, List.map_map, List.cons_append, List.nil_append, List.mem_cons,
    List.mem_map, List.mem_range, Function.comp_apply] at hw
  rcases hw with rfl | ⟨j, hj, rfl⟩
  · rfl
  · exact absurd ha (hlast _ (by omega) (by omega))

end Schemes.Scatter
