import Mathlib.Tactic

/-! Sequencers that consume a stream in lockstep with its producer.

    A sequencer is a deterministic transition function: in a state it halts, moves on silently, or
    takes a number of items under a label. Its control flow does not look at the items, so a run is the
    list of its demands, and a producer is in lockstep with it when the produced items split into
    exactly those demands, each meeting what its label asks for. -/

namespace Schemes.Lockstep

variable {σ ι γ : Type*}

/-- What a sequencer does in one state. -/
inductive Move (σ ι : Type*) where
  | halt
  | goto (s : σ)
  | take (label : ι) (count : ℕ) (s : σ)

/-- The demands of a run of at most the given number of steps; `none` when the run does not halt
    within them or gets stuck. -/
def demands (step : σ → Option (Move σ ι)) : ℕ → σ → Option (List (ι × ℕ))
  | 0, _ => none
  | fuel + 1, s =>
    match step s with
    | none => none
    | some .halt => some []
    | some (.goto s') => demands step fuel s'
    | some (.take label count s') => (demands step fuel s').map ((label, count) :: ·)

/-- Hand out the items demand by demand. `none` when they run short or some are left at the end. -/
def serve : List (ι × ℕ) → List γ → Option (List (ι × List γ))
  | [], [] => some []
  | [], _ :: _ => none
  | (label, count) :: ds, xs =>
    if xs.length < count then none else (serve ds (xs.drop count)).map ((label, xs.take count) :: ·)

/-- The sequencer halts exactly when the items run out, and every label accepts what it is served. -/
def InLockstep (step : σ → Option (Move σ ι)) (accept : ι → γ → Prop) (s : σ) (xs : List γ) : Prop :=
  ∃ fuel ds log, demands step fuel s = some ds ∧ serve ds xs = some log ∧
    ∀ e ∈ log, ∀ x ∈ e.2, accept e.1 x

/-! ### Stretches of a run -/

section Runs

variable (step : σ → Option (Move σ ι))

/-- From `s` the sequencer reaches `s'` with the demands `ds`. -/
def Runs (s : σ) (ds : List (ι × ℕ)) (s' : σ) : Prop :=
  ∃ k, ∀ fuel, demands step (fuel + k) s = (demands step fuel s').map (ds ++ ·)

variable {step}

theorem Runs.refl (s : σ) : Runs step s [] s := ⟨0, fun fuel => by simp⟩

theorem Runs.goto {s s' : σ} (h : step s = some (.goto s')) : Runs step s [] s' :=
  ⟨1, fun fuel => by simp [demands, h]⟩

theorem Runs.take {s s' : σ} {label : ι} {count : ℕ} (h : step s = some (.take label count s')) :
    Runs step s [(label, count)] s' :=
  ⟨1, fun fuel => by simp [demands, h]⟩

theorem Runs.trans {s s' s'' : σ} {ds ds' : List (ι × ℕ)} (h : Runs step s ds s')
    (h' : Runs step s' ds' s'') : Runs step s (ds ++ ds') s'' := by
  obtain ⟨k, hk⟩ := h
  obtain ⟨k', hk'⟩ := h'
  refine ⟨k' + k, fun fuel => ?_⟩
  rw [← Nat.add_assoc, hk, hk', Option.map_map]
  simp [Function.comp_def, List.append_assoc]

theorem Runs.cons {s s' s'' : σ} {label : ι} {count : ℕ} {ds : List (ι × ℕ)}
    (h : step s = some (.take label count s')) (h' : Runs step s' ds s'') :
    Runs step s ((label, count) :: ds) s'' :=
  (Runs.take h).trans h'

/-- Loop rule: the body leads from the state of round `k` to the state of round `k + 1`. -/
theorem Runs.loop {s : ℕ → σ} {d : ℕ → List (ι × ℕ)} {n : ℕ}
    (h : ∀ k, k < n → Runs step (s k) (d k) (s (k + 1))) :
    Runs step (s 0) ((List.range n).flatMap d) (s n) := by
  induction n with
  | zero => exact .refl _
  | succ n ih =>
    rw [List.range_succ, List.flatMap_append, List.flatMap_singleton]
    exact (ih fun k hk => h k (Nat.lt_succ_of_lt hk)).trans (h n (Nat.lt_succ_self n))

end Runs

/-! ### Serving stretches -/

section Feeds

variable (accept : ι → γ → Prop)

/-- The items are what the demands ask for, in number and in kind. -/
inductive Feeds : List (ι × ℕ) → List γ → Prop
  | nil : Feeds [] []
  | cons {label : ι} {count : ℕ} {now : List γ} {ds : List (ι × ℕ)} {xs : List γ}
      (hlen : now.length = count) (hok : ∀ x ∈ now, accept label x) (rest : Feeds ds xs) :
      Feeds ((label, count) :: ds) (now ++ xs)

variable {accept}

theorem Feeds.append {ds ds' : List (ι × ℕ)} {xs xs' : List γ} (h : Feeds accept ds xs)
    (h' : Feeds accept ds' xs') : Feeds accept (ds ++ ds') (xs ++ xs') := by
  induction h with
  | nil => exact h'
  | cons hlen hok _ ih =>
    rw [List.append_assoc]
    exact .cons hlen hok ih

theorem Feeds.single {label : ι} {count : ℕ} {xs : List γ} (hlen : xs.length = count)
    (hok : ∀ x ∈ xs, accept label x) : Feeds accept [(label, count)] xs := by
  simpa using Feeds.cons hlen hok .nil

theorem Feeds.flatMap {κ : Type*} {l : List κ} {d : κ → List (ι × ℕ)} {xs : κ → List γ}
    (h : ∀ k ∈ l, Feeds accept (d k) (xs k)) : Feeds accept (l.flatMap d) (l.flatMap xs) := by
  induction l with
  | nil => exact .nil
  | cons k ks ih =>
    exact (h k (by simp)).append (ih fun j hj => h j (List.mem_cons_of_mem _ hj))

/-- Rounds of one instruction: enough items of the right kind, however they are grouped. -/
theorem Feeds.rounds {label : ι} {count n : ℕ} {xs : List γ} (hlen : xs.length = n * count)
    (hok : ∀ x ∈ xs, accept label x) :
    Feeds accept ((List.range n).flatMap fun _ => [(label, count)]) xs := by
  induction n generalizing xs with
  | zero =>
    rw [Nat.zero_mul, List.length_eq_zero_iff] at hlen
    exact hlen ▸ .nil
  | succ n ih =>
    rw [Nat.succ_mul] at hlen
    have hinit : Feeds accept _ (xs.take (n * count)) :=
      ih (by rw [List.length_take]; omega) fun x hx => hok x (List.mem_of_mem_take hx)
    have hlast : Feeds accept [(label, count)] (xs.drop (n * count)) :=
      .single (by rw [List.length_drop]; omega) fun x hx => hok x (List.mem_of_mem_drop hx)
    rw [List.range_succ, List.flatMap_append, List.flatMap_singleton,
      ← List.take_append_drop (n * count) xs]
    exact hinit.append hlast

theorem Feeds.serve {ds : List (ι × ℕ)} {xs : List γ} (h : Feeds accept ds xs) :
    ∃ log, serve ds xs = some log ∧ ∀ e ∈ log, ∀ x ∈ e.2, accept e.1 x := by
  induction h with
  | nil => exact ⟨[], rfl, by simp⟩
  | cons hlen hok _ ih =>
    rename_i label count now ds xs _
    obtain ⟨log, hlog, hall⟩ := ih
    subst hlen
    refine ⟨(label, now) :: log, by simp [Lockstep.serve, hlog], ?_⟩
    rintro e (_ | ⟨_, he⟩)
    · exact hok
    · exact hall e he

end Feeds

/-- A run that ends in a halting state, fed all along, is in lockstep. -/
theorem Runs.lockstep {step : σ → Option (Move σ ι)} {accept : ι → γ → Prop} {s s' : σ}
    {ds : List (ι × ℕ)} {xs : List γ} (h : Runs step s ds s') (hhalt : step s' = some .halt)
    (hfeed : Feeds accept ds xs) : InLockstep step accept s xs := by
  obtain ⟨k, hk⟩ := h
  obtain ⟨log, hlog, hall⟩ := hfeed.serve
  refine ⟨1 + k, ds, log, ?_, hlog, hall⟩
  rw [hk, demands, hhalt]
  simp

/-! ### What is served -/

/-- The sequencer halts exactly when the items run out, and each label is served the items that the log
    has with it. -/
def Serves (step : σ → Option (Move σ ι)) (s : σ) (xs : List γ) (log : List (ι × List γ)) : Prop :=
  ∃ fuel ds, demands step fuel s = some ds ∧ serve ds xs = some log

/-- More steps do not change a run that halts. -/
theorem demands_mono {step : σ → Option (Move σ ι)} {fuel : ℕ} {s : σ} {ds : List (ι × ℕ)}
    (h : demands step fuel s = some ds) (k : ℕ) : demands step (fuel + k) s = some ds := by
  induction fuel generalizing s ds with
  | zero => simp [demands] at h
  | succ fuel ih =>
    rw [Nat.add_right_comm]
    rw [demands] at h ⊢
    cases hs : step s with
    | none => simp [hs] at h
    | some m =>
      cases m with
      | halt => simpa [hs] using h
      | goto s' => simpa [hs] using ih (by simpa [hs] using h)
      | take label count s' =>
        obtain ⟨ds', hds, rfl⟩ : ∃ ds', demands step fuel s' = some ds' ∧ (label, count) :: ds' = ds := by
          simpa [hs] using h
        simp [ih hds]

/-- The log is determined by the sequencer and the items. -/
theorem Serves.unique {step : σ → Option (Move σ ι)} {s : σ} {xs : List γ} {log log' : List (ι × List γ)}
    (h : Serves step s xs log) (h' : Serves step s xs log') : log = log' := by
  obtain ⟨fuel, ds, hds, hlog⟩ := h
  obtain ⟨fuel', ds', hds', hlog'⟩ := h'
  have heq := (demands_mono hds fuel').symm.trans (Nat.add_comm fuel fuel' ▸ demands_mono hds' fuel)
  rw [Option.some.inj heq, hlog'] at hlog
  exact (Option.some.inj hlog).symm

theorem serve_append {ds ds' : List (ι × ℕ)} {xs xs' : List γ} {log log' : List (ι × List γ)}
    (h : serve ds xs = some log) (h' : serve ds' xs' = some log') :
    serve (ds ++ ds') (xs ++ xs') = some (log ++ log') := by
  induction ds generalizing xs log with
  | nil =>
    cases xs with
    | nil =>
      obtain rfl : [] = log := by simpa [serve] using h
      exact h'
    | cons x xs => simp [serve] at h
  | cons d ds ih =>
    obtain ⟨label, count⟩ := d
    by_cases hlen : xs.length < count
    · simp [serve, hlen] at h
    · obtain ⟨rest, hrest, rfl⟩ : ∃ rest, serve ds (xs.drop count) = some rest ∧
          (label, xs.take count) :: rest = log := by
        simpa [serve, hlen] using h
      have hle : count ≤ xs.length := not_lt.mp hlen
      have hlen' : ¬ (xs ++ xs').length < count := by
        rw [List.length_append]
        omega
      simp [serve, List.drop_append_of_le_length hle, List.take_append_of_le_length hle, ih hrest,
        not_lt.mpr (hle.trans (Nat.le_add_right _ xs'.length))]

/-- Items in groups, one for each label. -/
theorem serve_zip {labels : List ι} {groups : List (List γ)} (h : labels.length = groups.length) :
    serve (labels.zip (groups.map List.length)) groups.flatten = some (labels.zip groups) := by
  induction labels generalizing groups with
  | nil => simp [List.length_eq_zero_iff.mp h.symm, serve]
  | cons label labels ih =>
    cases groups with
    | nil => simp at h
    | cons g groups => simp [serve, ih (Nat.succ.inj h)]

theorem serve_flatMap {κ : Type*} {l : List κ} {d : κ → List (ι × ℕ)} {xs : κ → List γ}
    {log : κ → List (ι × List γ)} (h : ∀ k ∈ l, serve (d k) (xs k) = some (log k)) :
    serve (l.flatMap d) (l.flatMap xs) = some (l.flatMap log) := by
  induction l with
  | nil => rfl
  | cons k l ih =>
    exact serve_append (h k List.mem_cons_self) (ih fun j hj => h j (List.mem_cons_of_mem k hj))

theorem Runs.serves {step : σ → Option (Move σ ι)} {s s' : σ} {ds : List (ι × ℕ)} {xs : List γ}
    {log : List (ι × List γ)} (h : Runs step s ds s') (hhalt : step s' = some .halt)
    (hserve : serve ds xs = some log) : Serves step s xs log := by
  obtain ⟨k, hk⟩ := h
  refine ⟨1 + k, ds, ?_, hserve⟩
  rw [hk, demands, hhalt]
  simp

/-! ### Labels -/

/-- The label of each item, in the order of the items. -/
def labels (log : List (ι × List γ)) : List ι := log.flatMap fun e => List.replicate e.2.length e.1

theorem labels_of_serve {ds : List (ι × ℕ)} {xs : List γ} {log : List (ι × List γ)}
    (h : serve ds xs = some log) : labels log = ds.flatMap fun d => List.replicate d.2 d.1 := by
  induction ds generalizing xs log with
  | nil =>
    cases xs with
    | nil =>
      obtain rfl : [] = log := by simpa [serve] using h
      rfl
    | cons x xs => simp [serve] at h
  | cons d ds ih =>
    obtain ⟨label, count⟩ := d
    by_cases hlen : xs.length < count
    · simp [serve, hlen] at h
    · obtain ⟨rest, hrest, rfl⟩ : ∃ rest, serve ds (xs.drop count) = some rest ∧
          (label, xs.take count) :: rest = log := by
        simpa [serve, hlen] using h
      have hnow : (xs.take count).length = count := List.length_take_of_le (not_lt.mp hlen)
      rw [List.flatMap_cons, ← ih hrest]
      simp [labels, hnow]

/-- The labels do not depend on what is served. -/
theorem Serves.labels_eq {step : σ → Option (Move σ ι)} {s s' : σ} {ds : List (ι × ℕ)} {xs : List γ}
    {log : List (ι × List γ)} (h : Serves step s xs log) (hruns : Runs step s ds s')
    (hhalt : step s' = some .halt) : labels log = ds.flatMap fun d => List.replicate d.2 d.1 := by
  obtain ⟨fuel, ds', hds', hlog⟩ := h
  obtain ⟨k, hk⟩ := hruns
  have hds : demands step (1 + k) s = some ds := by
    rw [hk, demands, hhalt]
    simp
  have heq := (demands_mono hds fuel).symm.trans (Nat.add_comm fuel (1 + k) ▸ demands_mono hds' (1 + k))
  rw [Option.some.inj heq]
  exact labels_of_serve hlog

end Schemes.Lockstep
