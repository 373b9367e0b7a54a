import Mathlib.Tactic

/-! Machines that take steps and emit events.

    A step may be refused, and a run is refused with its first refused step. A side condition may be put
    on every step of a run, in the state and after the events that the step finds; an invariant that
    every such step preserves holds after every such run. -/

namespace Schemes.Trace

variable {σ ι ε : Type*} (step : σ → ι → Option (σ × List ε))

/-- The steps in turn, with all their events. -/
def runSteps : σ → List ι → Option (σ × List ε)
  | s, [] => some (s, [])
  | s, i :: is => do
    let now ← step s i
    let rest ← runSteps now.1 is
    return (rest.1, now.2 ++ rest.2)

/-- Every step of a run meets the condition where it is taken; `es` are the events so far. -/
def Along (P : σ → List ε → ι → Prop) : σ → List ε → List ι → Prop
  | _, _, [] => True
  | s, es, i :: is => P s es i ∧ ∀ now, step s i = some now → Along P now.1 (es ++ now.2) is

@[simp] theorem runSteps_nil (s : σ) : runSteps step s [] = some (s, []) := rfl

theorem runSteps_cons {s : σ} {i : ι} {is : List ι} {r : σ × List ε} :
    runSteps step s (i :: is) = some r ↔
      ∃ now rest, step s i = some now ∧ runSteps step now.1 is = some rest ∧
        r = (rest.1, now.2 ++ rest.2) := by
  rcases h : step s i with - | now
  · simp [runSteps, h]
  · rcases h' : runSteps step now.1 is with - | rest
    · simp [runSteps, h, h']
    · constructor
      · intro heq
        simp [runSteps, h, h'] at heq
        exact ⟨now, rest, rfl, h', heq.symm⟩
      · rintro ⟨now', rest', hnow, hrest, rfl⟩
        cases hnow
        cases h'.symm.trans hrest
        simp [runSteps, h, h']

variable {step}

theorem Along.imp {P Q : σ → List ε → ι → Prop} (h : ∀ s es i, P s es i → Q s es i) {s : σ}
    {es : List ε}
    {is : List ι} (hP : Along step P s es is) : Along step Q s es is := by
  induction is generalizing s es with
  | nil => trivial
  | cons i is ih => exact ⟨h s es i hP.1, fun now hnow => ih (hP.2 now hnow)⟩

/-- The steps are those of the run. -/
theorem Along.mem {P : σ → List ε → ι → Prop} {s : σ} {es : List ε} {is : List ι}
    (hP : Along step P s es is) :
    Along step (fun s es i => P s es i ∧ i ∈ is) s es is := by
  induction is generalizing s es with
  | nil => trivial
  | cons i is ih =>
    refine ⟨⟨hP.1, List.mem_cons_self⟩, fun now hnow => ?_⟩
    exact (ih (hP.2 now hnow)).imp fun s es j hj => ⟨hj.1, List.mem_cons_of_mem i hj.2⟩

/-- Invariant rule. -/
theorem runSteps_along {P : σ → List ε → ι → Prop} {Inv : σ → List ε → Prop}
    (hstep : ∀ s es i now, P s es i → Inv s es → step s i = some now → Inv now.1 (es ++ now.2))
    {s : σ} {es : List ε} {is : List ι} {r : σ × List ε} (hrun : runSteps step s is = some r)
    (hP : Along step P s es is) (h : Inv s es) : Inv r.1 (es ++ r.2) := by
  induction is generalizing s es r with
  | nil =>
    obtain rfl := Option.some.inj hrun
    simpa using h
  | cons i is ih =>
    obtain ⟨now, rest, hnow, hrest, rfl⟩ := (runSteps_cons step).mp hrun
    have hinv := ih (r := rest) hrest (hP.2 now hnow) (hstep s es i now hP.1 h hnow)
    simpa only [List.append_assoc] using hinv

/-- Progress rule: where every step can be taken, so can the run. -/
theorem runSteps_progress {P : σ → List ε → ι → Prop} {Inv : σ → List ε → Prop}
    (hstep : ∀ s es i, P s es i → Inv s es → ∃ now, step s i = some now ∧ Inv now.1 (es ++ now.2))
    {s : σ} {es : List ε} {is : List ι} (hP : Along step P s es is) (h : Inv s es) :
    ∃ r, runSteps step s is = some r ∧ Inv r.1 (es ++ r.2) := by
  induction is generalizing s es with
  | nil => exact ⟨(s, []), rfl, by simpa using h⟩
  | cons i is ih =>
    obtain ⟨now, hnow, hinv⟩ := hstep s es i hP.1 h
    obtain ⟨rest, hrest, hinv'⟩ := ih (hP.2 now hnow) hinv
    refine ⟨(rest.1, now.2 ++ rest.2), (runSteps_cons step).mpr ⟨now, rest, hnow, hrest, rfl⟩, ?_⟩
    simpa only [List.append_assoc] using hinv'

/-- What every step keeps, a run keeps. -/
theorem runSteps_keeps {K : σ → Prop} (hstep : ∀ s i now, K s → step s i = some now → K now.1)
    {s : σ} {is : List ι} {r : σ × List ε} (hrun : runSteps step s is = some r) (h : K s) : K r.1 := by
  induction is generalizing s r with
  | nil =>
    obtain rfl := Option.some.inj hrun
    exact h
  | cons i is ih =>
    obtain ⟨now, rest, hnow, hrest, rfl⟩ := (runSteps_cons step).mp hrun
    exact ih (r := rest) hrest (hstep s i now h hnow)

end Schemes.Trace
