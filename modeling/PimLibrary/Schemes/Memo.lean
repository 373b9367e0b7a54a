import Mathlib.Tactic

/-! Memo tables that keep the first value stored under a key.

    A call looks its key up; a miss computes the value and, when asked to, stores it. After any run the
    table holds, for each key, the value of the first saving call with that key. So the table answers
    every call correctly, whatever is computed, exactly when that first saving call is always the same
    call again. -/

namespace Schemes.Memo

/-- What a call returns, and whether it came from the table. -/
structure Outcome (β : Type*) where
  value : β
  found : Bool

section Run

variable {ι κ : Type*} {β : Type*} [DecidableEq κ]
variable (key : ι → κ) (save : ι → Bool) (compute : ι → β)

/-- One call. -/
def memoStep (table : κ → Option β) (a : ι) : (κ → Option β) × Outcome β :=
  match table (key a) with
  | some v => (table, ⟨v, true⟩)
  | none =>
    (if save a then Function.update table (key a) (some (compute a)) else table, ⟨compute a, false⟩)

/-- A sequence of calls, each with its outcome. -/
def memoRun : (κ → Option β) → List ι → List (ι × Outcome β)
  | _, [] => []
  | table, a :: as =>
    let now := memoStep key save compute table a
    (a, now.2) :: memoRun now.1 as

/-- The first call of the list that saves under a key. -/
def firstSaver (as : List ι) (k : κ) : Option ι := as.find? fun a => save a && decide (key a = k)

/-- The table after a run from the empty table. -/
def tableAfter (as : List ι) : κ → Option β := fun k => (firstSaver key save as k).map compute

/-- One more call keeps the table in the closed form: a hit stores nothing, since the key is taken. -/
theorem memoStep_table (as : List ι) (a : ι) :
    (memoStep key save compute (tableAfter key save compute as) a).1 =
      tableAfter key save compute (as ++ [a]) := by
  have happ : ∀ k, firstSaver key save (as ++ [a]) k =
      (firstSaver key save as k).or (if save a && decide (key a = k) then some a else none) := by
    intro k
    rw [firstSaver, List.find?_append, firstSaver, List.find?_singleton]
  funext k
  simp only [memoStep, tableAfter, happ]
  rcases hfirst : firstSaver key save as (key a) with - | b
  · by_cases hk : key a = k
    · subst hk
      by_cases hs : save a <;> simp [hfirst, hs, tableAfter]
    · by_cases hs : save a <;> simp [hs, hk, Ne.symm hk, tableAfter]
  · by_cases hk : key a = k
    · subst hk
      simp [hfirst, tableAfter]
    · simp [hk, tableAfter]

/-- Calls after a prefix see the table in closed form. -/
theorem mem_memoRun (as : List ι) {bs : List ι} {e : ι × Outcome β} :
    e ∈ memoRun key save compute (tableAfter key save compute as) bs ↔
      ∃ pre post, bs = pre ++ e.1 :: post ∧
        e.2 = (memoStep key save compute (tableAfter key save compute (as ++ pre)) e.1).2 := by
  induction bs generalizing as with
  | nil => simp [memoRun]
  | cons b bs ih =>
    rw [memoRun, List.mem_cons]
    simp only [memoStep_table]
    rw [ih]
    constructor
    · rintro (rfl | ⟨pre, post, rfl, he⟩)
      · exact ⟨[], bs, rfl, by simp⟩
      · exact ⟨b :: pre, post, rfl, by simpa using he⟩
    · rintro ⟨pre, post, hbs, he⟩
      rcases pre with - | ⟨c, pre⟩
      · obtain ⟨rfl, rfl⟩ := List.cons.inj hbs
        exact Or.inl (Prod.ext rfl (by simpa using he))
      · obtain ⟨rfl, rfl⟩ := List.cons.inj hbs
        exact Or.inr ⟨pre, post, rfl, by simpa using he⟩

/-- A hit returns what the first saving call with that key computed. -/
theorem memoStep_found {as : List ι} {b : ι} :
    (memoStep key save compute (tableAfter key save compute as) b).2.found = true ↔
      ∃ a, firstSaver key save as (key b) = some a ∧
        (memoStep key save compute (tableAfter key save compute as) b).2.value = compute a := by
  rcases h : firstSaver key save as (key b) with - | a <;> simp [memoStep, tableAfter, h]

end Run

variable {ι κ α : Type} [DecidableEq κ]

/-- Whatever is computed from the arguments `arg`, every hit is what the call itself computes. -/
def Sound (key : ι → κ) (save : ι → Bool) (arg : ι → α) (calls : List ι) : Prop :=
  ∀ (β : Type) (compute : α → β),
    ∀ e ∈ memoRun key save (fun a => compute (arg a)) (fun _ => none) calls,
      e.2.found = true → e.2.value = compute (arg e.1)

/-- A memo table is sound exactly when the first saver of a call's key always has its arguments. -/
theorem sound_iff (key : ι → κ) (save : ι → Bool) (arg : ι → α) (calls : List ι) :
    Sound key save arg calls ↔ ∀ pre b post, calls = pre ++ b :: post →
      ∀ a, firstSaver key save pre (key b) = some a → arg a = arg b := by
  constructor
  · intro hsound pre b post hcalls a ha
    have hmem : (b, (memoStep key save arg (tableAfter key save arg ([] ++ pre)) b).2) ∈
        memoRun key save arg (tableAfter key save arg []) calls :=
      (mem_memoRun key save arg []).mpr ⟨pre, post, hcalls, rfl⟩
    have hfound : (memoStep key save arg (tableAfter key save arg ([] ++ pre)) b).2 =
        ⟨arg a, true⟩ := by
      simp [memoStep, tableAfter, ha]
    rw [hfound] at hmem
    exact hsound α id _ hmem rfl
  · intro hfirst β compute e he hfound
    obtain ⟨pre, post, hcalls, heq⟩ := (mem_memoRun key save (fun a => compute (arg a)) []).mp he
    rw [heq] at hfound ⊢
    obtain ⟨a, ha, hval⟩ := (memoStep_found key save _).mp hfound
    rw [hval, hfirst pre e.1 post hcalls a ha]

end Schemes.Memo
