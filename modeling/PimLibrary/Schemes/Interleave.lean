import Mathlib.Tactic

/-! Processes that run side by side on one state.

    A schedule is a list of events, each tagged with its process, that shows every process its own events
    in order. Where events of different processes commute, the schedule does not matter: every one of
    them ends where running the processes one after another ends. Processes may stop at barriers, and
    groups of them may themselves run side by side. -/

namespace Schemes.Interleave

variable {σ ι ε : Type*} [DecidableEq ι]

/-- The events of process `i`. -/
def proj (i : ι) (w : List (ι × ε)) : List ε := (w.filter fun e => e.1 = i).map Prod.snd

/-- `w` is a schedule of the processes `is`, where process `i` has the events `l i`. -/
structure Schedule (is : List ι) (l : ι → List ε) (w : List (ι × ε)) : Prop where
  proj_eq : ∀ i ∈ is, proj i w = l i
  tag_mem : ∀ e ∈ w, e.1 ∈ is

/-- `u` is what some schedule of the processes does. -/
def Shuffle (is : List ι) (l : ι → List ε) (u : List ε) : Prop :=
  ∃ w, Schedule is l w ∧ u = w.map Prod.snd

/-- The two events may be taken in either order. -/
def Independent (step : σ → ε → σ) (a b : ε) : Prop := ∀ s, step (step s a) b = step (step s b) a

theorem Independent.symm {step : σ → ε → σ} {a b : ε} (h : Independent step a b) :
    Independent step b a := fun s => (h s).symm

@[simp] theorem proj_nil (i : ι) : proj i ([] : List (ι × ε)) = [] := rfl

@[simp] theorem proj_cons_self (i : ι) (a : ε) (w : List (ι × ε)) :
    proj i ((i, a) :: w) = a :: proj i w := by
  simp [proj]

theorem proj_cons_ne {i j : ι} (h : j ≠ i) (a : ε) (w : List (ι × ε)) :
    proj i ((j, a) :: w) = proj i w := by
  simp [proj, h]

@[simp] theorem proj_append (i : ι) (w w' : List (ι × ε)) :
    proj i (w ++ w') = proj i w ++ proj i w' := by
  simp [proj]

theorem mem_proj {i : ι} {a : ε} {w : List (ι × ε)} : a ∈ proj i w ↔ (i, a) ∈ w := by
  simp [proj]

theorem proj_flatMap {κ : Type*} (i : ι) (l : List κ) (f : κ → List (ι × ε)) :
    proj i (l.flatMap f) = l.flatMap fun k => proj i (f k) := by
  induction l with
  | nil => rfl
  | cons k l ih => simp [ih]

/-- A list in which one event is of process `i`. -/
theorem proj_map_of_mem {κ : Type*} {i : ι} {l : List κ} (hnd : l.Nodup) {tag : κ → ι} (f : κ → ε) {k : κ}
    (hk : k ∈ l) (htag : tag k = i) (hone : ∀ j ∈ l, tag j = i → j = k) :
    proj i (l.map fun j => (tag j, f j)) = [f k] := by
  induction l with
  | nil => simp at hk
  | cons j l ih =>
    obtain ⟨hj, hnd⟩ := List.nodup_cons.mp hnd
    rw [List.map_cons]
    rcases List.mem_cons.mp hk with rfl | hk
    · have hrest : proj i (l.map fun j => (tag j, f j)) = [] := by
        refine List.eq_nil_iff_forall_not_mem.mpr fun a ha => ?_
        simp only [mem_proj, List.mem_map, Prod.mk.injEq] at ha
        obtain ⟨m, hm, htm, -⟩ := ha
        exact hj (hone m (List.mem_cons_of_mem k hm) htm ▸ hm)
      rw [htag, proj_cons_self, hrest]
    · have hji : tag j ≠ i := fun h => hj (hone j List.mem_cons_self h ▸ hk)
      rw [proj_cons_ne hji]
      exact ih hnd hk fun m hm => hone m (List.mem_cons_of_mem j hm)

theorem proj_map_of_ne {κ : Type*} {i : ι} {l : List κ} {tag : κ → ι} (f : κ → ε)
    (h : ∀ j ∈ l, tag j ≠ i) : proj i (l.map fun j => (tag j, f j)) = [] := by
  refine List.eq_nil_iff_forall_not_mem.mpr fun a ha => ?_
  simp only [mem_proj, List.mem_map, Prod.mk.injEq] at ha
  obtain ⟨j, hj, htag, -⟩ := ha
  exact h j hj htag

/-- Where the processes are taken one after another. -/
theorem schedule_sequential {is : List ι} (hnd : is.Nodup) (l : ι → List ε) :
    Schedule is l (is.flatMap fun i => (l i).map fun a => (i, a)) := by
  constructor
  · intro i hi
    induction is with
    | nil => simp at hi
    | cons j is ih =>
      obtain ⟨hj, hnd⟩ := List.nodup_cons.mp hnd
      have hnone : ∀ k, k ∉ is → proj k (is.flatMap fun i => (l i).map fun a => (i, a)) = [] := by
        intro k hk
        refine List.eq_nil_iff_forall_not_mem.mpr fun a ha => hk ?_
        simp only [mem_proj, List.mem_flatMap, List.mem_map, Prod.mk.injEq] at ha
        obtain ⟨i, hi, b, -, rfl, -⟩ := ha
        exact hi
      have hself : ∀ as : List ε, proj j (as.map fun a => (j, a)) = as := fun as => by
        simp [proj, List.filter_eq_self.mpr]
      rw [List.flatMap_cons, proj_append]
      by_cases hij : i = j
      · subst hij
        rw [hself, hnone i hj, List.append_nil]
      · have hother : proj i ((l j).map fun a => (j, a)) = [] := by
          refine List.eq_nil_iff_forall_not_mem.mpr fun a ha => hij ?_
          simp only [mem_proj, List.mem_map, Prod.mk.injEq] at ha
          obtain ⟨b, -, rfl, -⟩ := ha
          rfl
        rw [hother, List.nil_append]
        exact ih hnd ((List.mem_cons.mp hi).resolve_left hij)
  · intro e he
    simp only [List.mem_flatMap, List.mem_map] at he
    obtain ⟨i, hi, a, -, rfl⟩ := he
    exact hi

/-! ### Commuting events -/

section Run

variable {step : σ → ε → σ}

/-- An event may be taken after the events it commutes with. -/
theorem foldl_push {a : ε} {u : List ε} (h : ∀ b ∈ u, Independent step a b) (s : σ) :
    u.foldl step (step s a) = step (u.foldl step s) a := by
  induction u generalizing s with
  | nil => rfl
  | cons b u ih =>
    rw [List.foldl_cons, List.foldl_cons, h b List.mem_cons_self s]
    exact ih (fun c hc => h c (List.mem_cons_of_mem b hc)) (step s b)

/-- One process may be taken before all others. -/
theorem foldl_partition (i : ι) {w : List (ι × ε)}
    (h : ∀ a, (i, a) ∈ w → ∀ e ∈ w, e.1 ≠ i → Independent step a e.2) (s : σ) :
    (w.map Prod.snd).foldl step s =
      ((w.filter fun e => e.1 ≠ i).map Prod.snd).foldl step ((proj i w).foldl step s) := by
  induction w generalizing s with
  | nil => rfl
  | cons e w ih =>
    obtain ⟨j, b⟩ := e
    have hrest := ih (fun a ha e he => h a (List.mem_cons_of_mem _ ha) e (List.mem_cons_of_mem _ he))
    by_cases hj : j = i
    · subst hj
      simpa using hrest (step s b)
    · have hpush : (proj i w).foldl step (step s b) = step ((proj i w).foldl step s) b :=
        foldl_push (fun a ha => (h a (List.mem_cons_of_mem _ (mem_proj.mp ha)) (j, b)
          List.mem_cons_self hj).symm) s
      simp only [List.map_cons, List.foldl_cons, hrest (step s b), hpush, proj_cons_ne hj]
      simp [hj]

/-- Every schedule of processes whose events commute across processes runs like the processes one
    after another. -/
theorem Schedule.foldl_eq {is : List ι} {l : ι → List ε} {w : List (ι × ε)} (hw : Schedule is l w)
    (hnd : is.Nodup)
    (h : ∀ i ∈ is, ∀ j ∈ is, i ≠ j → ∀ a ∈ l i, ∀ b ∈ l j, Independent step a b) (s : σ) :
    (w.map Prod.snd).foldl step s = (is.flatMap l).foldl step s := by
  induction is generalizing w s with
  | nil =>
    cases w with
    | nil => rfl
    | cons e w => exact absurd (hw.tag_mem e List.mem_cons_self) (by simp)
  | cons i is ih =>
    obtain ⟨hi, hnd⟩ := List.nodup_cons.mp hnd
    have hindep : ∀ a, (i, a) ∈ w → ∀ e ∈ w, e.1 ≠ i → Independent step a e.2 := by
      intro a ha e he hne
      have hmem := hw.tag_mem e he
      refine h i List.mem_cons_self e.1 hmem hne.symm a ?_ e.2 ?_
      · exact hw.proj_eq i List.mem_cons_self ▸ mem_proj.mpr ha
      · exact hw.proj_eq e.1 hmem ▸ mem_proj.mpr he
    have hothers : Schedule is l (w.filter fun e => e.1 ≠ i) := by
      constructor
      · intro j hj
        have hji : j ≠ i := fun heq => hi (heq ▸ hj)
        rw [← hw.proj_eq j (List.mem_cons_of_mem i hj), proj, proj, List.filter_filter]
        congr 1
        refine List.filter_congr fun e _ => ?_
        by_cases hej : e.1 = j
        · simp [hej, hji]
        · simp [hej]
      · intro e he
        obtain ⟨hmem, hne⟩ := List.mem_filter.mp he
        exact (List.mem_cons.mp (hw.tag_mem e hmem)).resolve_left (by simpa using hne)
    rw [foldl_partition i hindep s, hw.proj_eq i List.mem_cons_self, List.flatMap_cons,
      List.foldl_append]
    exact ih hothers hnd (fun j hj k hk => h j (List.mem_cons_of_mem i hj) k
      (List.mem_cons_of_mem i hk)) _

theorem Shuffle.foldl_eq {is : List ι} {l : ι → List ε} {u : List ε} (hu : Shuffle is l u)
    (hnd : is.Nodup)
    (h : ∀ i ∈ is, ∀ j ∈ is, i ≠ j → ∀ a ∈ l i, ∀ b ∈ l j, Independent step a b) (s : σ) :
    u.foldl step s = (is.flatMap l).foldl step s := by
  obtain ⟨w, hw, rfl⟩ := hu
  exact hw.foldl_eq hnd h s

end Run

/-- What a shuffle does is done by one of its processes. -/
theorem Shuffle.mem {is : List ι} {l : ι → List ε} {u : List ε} (hu : Shuffle is l u) {a : ε}
    (ha : a ∈ u) : ∃ i ∈ is, a ∈ l i := by
  obtain ⟨w, hw, rfl⟩ := hu
  obtain ⟨⟨i, b⟩, he, rfl⟩ := List.mem_map.mp ha
  have hi := hw.tag_mem _ he
  exact ⟨i, hi, hw.proj_eq i hi ▸ mem_proj.mpr he⟩

/-- What only events of process `i` contribute to is read off that process. -/
theorem Shuffle.flatMap_eq {is : List ι} {l : ι → List ε} {u : List ε} (hu : Shuffle is l u) {i : ι}
    (hi : i ∈ is) {β : Type*} {f : ε → List β} (h : ∀ j ∈ is, j ≠ i → ∀ a ∈ l j, f a = []) :
    u.flatMap f = (l i).flatMap f := by
  obtain ⟨w, hw, rfl⟩ := hu
  rw [← hw.proj_eq i hi]
  have hother : ∀ e ∈ w, e.1 ≠ i → f e.2 = [] := fun e he hne => by
    have hmem := hw.tag_mem e he
    exact h e.1 hmem hne e.2 (hw.proj_eq e.1 hmem ▸ mem_proj.mpr he)
  clear hw
  induction w with
  | nil => rfl
  | cons e w ih =>
    obtain ⟨j, a⟩ := e
    have hrest := ih fun e he => hother e (List.mem_cons_of_mem _ he)
    by_cases hj : j = i
    · subst hj
      simp [hrest]
    · simp [proj_cons_ne hj, hrest, hother (j, a) List.mem_cons_self hj]

/-- If every event stands for a list of events, a shuffle stands for a shuffle. -/
theorem Shuffle.flatMap {is : List ι} {l : ι → List ε} {u : List ε} (hu : Shuffle is l u) {β : Type*}
    (f : ε → List β) : Shuffle is (fun i => (l i).flatMap f) (u.flatMap f) := by
  obtain ⟨w, hw, rfl⟩ := hu
  refine ⟨w.flatMap fun e => (f e.2).map fun b => (e.1, b), ⟨fun i hi => ?_, fun e he => ?_⟩, ?_⟩
  · have hproj : ∀ w : List (ι × ε),
        proj i (w.flatMap fun e => (f e.2).map fun b => (e.1, b)) = (proj i w).flatMap f := by
      intro w
      induction w with
      | nil => rfl
      | cons e w ih =>
        obtain ⟨j, a⟩ := e
        rw [List.flatMap_cons, proj_append, ih]
        by_cases hj : j = i
        · subst hj
          simp [proj, List.filter_eq_self.mpr]
        · simp [proj, hj]
    rw [hproj, hw.proj_eq i hi]
  · obtain ⟨a, ha, he⟩ := List.mem_flatMap.mp he
    obtain ⟨b, -, rfl⟩ := List.mem_map.mp he
    exact hw.tag_mem a ha
  · simp [List.flatMap_map, List.map_flatMap, Function.comp_def]

theorem shuffle_sequential {is : List ι} (hnd : is.Nodup) (l : ι → List ε) :
    Shuffle is l (is.flatMap l) := by
  refine ⟨_, schedule_sequential hnd l, ?_⟩
  simp [List.map_flatMap, Function.comp_def]

/-! ### Barriers -/

/-- What processes do that all stop at a barrier between any two of the stages. -/
inductive Staged (is : List ι) : List (ι → List ε) → List ε → Prop
  | nil : Staged is [] []
  | cons {l : ι → List ε} {ls : List (ι → List ε)} {u v : List ε} :
      Shuffle is l u → Staged is ls v → Staged is (l :: ls) (u ++ v)

theorem Staged.mem {is : List ι} {ls : List (ι → List ε)} {u : List ε} (hu : Staged is ls u) {a : ε}
    (ha : a ∈ u) : ∃ l ∈ ls, ∃ i ∈ is, a ∈ l i := by
  induction hu with
  | nil => simp at ha
  | cons hnow _ ih =>
    rcases List.mem_append.mp ha with ha | ha
    · exact ⟨_, List.mem_cons_self, hnow.mem ha⟩
    · obtain ⟨l, hl, hi⟩ := ih ha
      exact ⟨l, List.mem_cons_of_mem _ hl, hi⟩

theorem staged_sequential {is : List ι} (hnd : is.Nodup) (ls : List (ι → List ε)) :
    Staged is ls (ls.flatMap fun l => is.flatMap l) := by
  induction ls with
  | nil => exact .nil
  | cons l ls ih => exact .cons (shuffle_sequential hnd l) ih

/-- Stages without conflicts run like their processes one after another, stage by stage. -/
theorem Staged.foldl_eq {step : σ → ε → σ} {is : List ι} {ls : List (ι → List ε)} {u : List ε}
    (hu : Staged is ls u) (hnd : is.Nodup)
    (h : ∀ l ∈ ls, ∀ i ∈ is, ∀ j ∈ is, i ≠ j → ∀ a ∈ l i, ∀ b ∈ l j, Independent step a b) (s : σ) :
    u.foldl step s = (ls.flatMap fun l => is.flatMap l).foldl step s := by
  induction hu generalizing s with
  | nil => rfl
  | cons hnow _ ih =>
    rw [List.foldl_append, List.flatMap_cons, List.foldl_append,
      hnow.foldl_eq hnd (h _ List.mem_cons_self) s]
    exact ih (fun l hl => h l (List.mem_cons_of_mem _ hl)) _

/-- Groups of staged processes side by side: every schedule of every group and of the groups among
    each other runs like all of them one after another. -/
theorem grid_foldl_eq {step : σ → ε → σ} {κ : Type*} [DecidableEq κ] {bs : List κ} {is : List ι}
    {ls : κ → List (ι → List ε)} {l : κ → List ε} {u : List ε} (hu : Shuffle bs l u)
    (hl : ∀ b ∈ bs, Staged is (ls b) (l b)) (hbs : bs.Nodup) (his : is.Nodup)
    (hblock : ∀ b ∈ bs, ∀ p ∈ ls b, ∀ i ∈ is, ∀ j ∈ is, i ≠ j → ∀ a ∈ p i, ∀ c ∈ p j,
      Independent step a c)
    (hgrid : ∀ b ∈ bs, ∀ d ∈ bs, b ≠ d → ∀ p ∈ ls b, ∀ i ∈ is, ∀ a ∈ p i, ∀ q ∈ ls d, ∀ j ∈ is,
      ∀ c ∈ q j, Independent step a c) (s : σ) :
    u.foldl step s =
      (bs.flatMap fun b => (ls b).flatMap fun p => is.flatMap p).foldl step s := by
  have hacross : ∀ b ∈ bs, ∀ d ∈ bs, b ≠ d → ∀ a ∈ l b, ∀ c ∈ l d, Independent step a c := by
    intro b hb d hd hne a ha c hc
    obtain ⟨p, hp, i, hi, ha⟩ := (hl b hb).mem ha
    obtain ⟨q, hq, j, hj, hc⟩ := (hl d hd).mem hc
    exact hgrid b hb d hd hne p hp i hi a ha q hq j hj c hc
  rw [hu.foldl_eq hbs hacross s]
  clear hu hacross hgrid
  induction bs generalizing s with
  | nil => rfl
  | cons b bs ih =>
    rw [List.flatMap_cons, List.flatMap_cons, List.foldl_append, List.foldl_append,
      (hl b List.mem_cons_self).foldl_eq his (hblock b List.mem_cons_self) s]
    exact ih (fun d hd => hl d (List.mem_cons_of_mem b hd)) (List.nodup_cons.mp hbs).2
      (fun d hd => hblock d (List.mem_cons_of_mem b hd)) _

end Schemes.Interleave
