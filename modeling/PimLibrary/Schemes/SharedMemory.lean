import PimLibrary.Schemes.Interleave

/-! Threads with registers on a shared memory.

    A thread loads into its registers, computes on them and stores from them, one access at a time.
    Accesses of different threads commute unless they conflict, so the schedules of a race-free program
    all end alike. What a thread does to the memory may then be read off its run alone, and what a
    stage of threads does is what each does to the memory that the stage found. -/

namespace Schemes.SharedMemory
open Schemes.Interleave

variable {κ ρ α : Type*} {V : α → Type*} [DecidableEq κ] [DecidableEq α]

structure State (κ ρ : Type*) (V : α → Type*) where
  reg : κ → ρ
  mem : ∀ a, V a

inductive Op (ρ : Type*) (V : α → Type*) where
  | load (a : α) (f : V a → ρ → ρ)
  | compute (f : ρ → ρ)
  | store (a : α) (g : ρ → V a)

/-- One access of one thread. -/
def step (s : State κ ρ V) (e : κ × Op ρ V) : State κ ρ V :=
  match e.2 with
  | .load a f => { s with reg := Function.update s.reg e.1 (f (s.mem a) (s.reg e.1)) }
  | .compute f => { s with reg := Function.update s.reg e.1 (f (s.reg e.1)) }
  | .store a g => { s with mem := Function.update s.mem a (g (s.reg e.1)) }

/-- The events of thread `k` with the program `p`. -/
def by_thread (k : κ) (p : List (Op ρ V)) : List (κ × Op ρ V) := p.map fun o => (k, o)

def Op.Reads : Op ρ V → α → Prop
  | .load b _, a => b = a
  | _, _ => False

def Op.Writes : Op ρ V → α → Prop
  | .store b _, a => b = a
  | _, _ => False

/-- Neither writes what the other one reads or writes. -/
structure Apart (o o' : Op ρ V) : Prop where
  left : ∀ a, o.Writes a → ¬ o'.Reads a ∧ ¬ o'.Writes a
  right : ∀ a, o'.Writes a → ¬ o.Reads a

omit [DecidableEq α] in
theorem Apart.symm {o o' : Op ρ V} (h : Apart o o') : Apart o' o :=
  ⟨fun a ha => ⟨h.right a ha, fun hw => (h.left a hw).2 ha⟩, fun a ha hr => (h.left a ha).1 hr⟩

omit [DecidableEq κ] [DecidableEq α] in
@[simp] theorem mem_by_thread {k : κ} {p : List (Op ρ V)} {e : κ × Op ρ V} :
    e ∈ by_thread k p ↔ e.1 = k ∧ e.2 ∈ p := by
  obtain ⟨i, o⟩ := e
  simp only [by_thread, List.mem_map, Prod.mk.injEq]
  constructor
  · rintro ⟨o', ho, rfl, rfl⟩
    exact ⟨rfl, ho⟩
  · rintro ⟨rfl, ho⟩
    exact ⟨o, ho, rfl, rfl⟩

/-- Accesses of different threads that do not conflict may be taken in either order. -/
theorem independent {i j : κ} (hij : i ≠ j) {o o' : Op ρ V} (h : Apart o o') :
    Independent step (i, o) (j, o') := by
  intro s
  cases o with
  | load a f =>
    cases o' with
    | load b g => simp [step, hij, hij.symm, Function.update_comm hij]
    | compute g => simp [step, hij, hij.symm, Function.update_comm hij]
    | store b g =>
      have hab : a ≠ b := h.right b rfl
      simp [step, hij.symm, Function.update_of_ne hab]
  | compute f =>
    cases o' with
    | load b g => simp [step, hij, hij.symm, Function.update_comm hij]
    | compute g => simp [step, hij, hij.symm, Function.update_comm hij]
    | store b g => simp [step, hij.symm]
  | store a f =>
    cases o' with
    | load b g =>
      have hba : b ≠ a := (h.left a rfl).1
      simp [step, hij, Function.update_of_ne hba]
    | compute g => simp [step, hij]
    | store b g =>
      have hba : a ≠ b := fun hab => (h.left a rfl).2 hab.symm
      simp [step, Function.update_comm hba]

/-! ### What a run does to the memory -/

/-- The effects of the parts make up the effect of the whole. -/
theorem foldl_flatMap_mem {ι : Type*} {ts : List ι} {p : ι → List (κ × Op ρ V)}
    {g : ι → (∀ a, V a) → ∀ a, V a}
    (h : ∀ i ∈ ts, ∀ s : State κ ρ V, ((p i).foldl step s).mem = g i s.mem) (s : State κ ρ V) :
    ((ts.flatMap p).foldl step s).mem = ts.foldl (fun m i => g i m) s.mem := by
  induction ts generalizing s with
  | nil => rfl
  | cons i ts ih =>
    rw [List.flatMap_cons, List.foldl_append, List.foldl_cons,
      ih fun j hj => h j (List.mem_cons_of_mem i hj), h i List.mem_cons_self]

/-- A list of loads that accumulate into the registers. -/
theorem foldl_loads (k : κ) {ι : Type*} (is : List ι) (p : ι → List (Op ρ V))
    (f : (∀ a, V a) → ρ → ι → ρ)
    (h : ∀ i ∈ is, ∀ s : State κ ρ V, (by_thread k (p i)).foldl step s =
      { s with reg := Function.update s.reg k (f s.mem (s.reg k) i) }) (s : State κ ρ V) :
    (by_thread k (is.flatMap p)).foldl step s =
      { s with reg := Function.update s.reg k (is.foldl (f s.mem) (s.reg k)) } := by
  induction is generalizing s with
  | nil => simp [by_thread]
  | cons i is ih =>
    have hsplit : by_thread k ((i :: is).flatMap p) = by_thread k (p i) ++ by_thread k (is.flatMap p) := by
      simp [by_thread]
    rw [hsplit, List.foldl_append, h i List.mem_cons_self,
      ih fun j hj => h j (List.mem_cons_of_mem i hj)]
    simp

/-! ### Threads in lockstep -/

/-- One access by each of the threads. -/
def together (ks : List κ) (o : κ → Op ρ V) : List (κ × Op ρ V) := ks.map fun k => (k, o k)

/-- The accesses leave the memory as it is, and the registers of each of the threads as `f` makes them
    from the memory and from what they were. -/
def Registers (ks : List κ) (p : List (κ × Op ρ V)) (f : κ → (∀ a, V a) → ρ → ρ) : Prop :=
  ∀ s : State κ ρ V, p.foldl step s =
    { s with reg := fun k => if k ∈ ks then f k s.mem (s.reg k) else s.reg k }

theorem registers_nil (ks : List κ) : Registers ks ([] : List (κ × Op ρ V)) fun _ _ r => r :=
  fun s => by simp

theorem Registers.append {ks : List κ} {p q : List (κ × Op ρ V)} {f g : κ → (∀ a, V a) → ρ → ρ}
    (hp : Registers ks p f) (hq : Registers ks q g) : Registers ks (p ++ q) fun k m r => g k m (f k m r) := by
  intro s
  rw [List.foldl_append, hp, hq]
  congr 1
  funext k
  by_cases hk : k ∈ ks <;> simp [hk]

theorem Registers.flatMap {ks : List κ} {ι : Type*} {is : List ι} {p : ι → List (κ × Op ρ V)}
    {f : ι → κ → (∀ a, V a) → ρ → ρ} (h : ∀ i ∈ is, Registers ks (p i) (f i)) :
    Registers ks (is.flatMap p) fun k m r => is.foldl (fun r i => f i k m r) r := by
  induction is with
  | nil => exact registers_nil ks
  | cons i is ih =>
    exact (h i List.mem_cons_self).append (ih fun j hj => h j (List.mem_cons_of_mem i hj))

/-- What one access by each of the threads does to the registers, when it is no store. -/
theorem registers_together {ks : List κ} (hnd : ks.Nodup) {o : κ → Op ρ V} {f : κ → (∀ a, V a) → ρ → ρ}
    (h : ∀ k ∈ ks, ∀ s : State κ ρ V, step s (k, o k) =
      { s with reg := Function.update s.reg k (f k s.mem (s.reg k)) }) :
    Registers ks (together ks o) f := by
  intro s
  induction ks generalizing s with
  | nil => simp [together]
  | cons k ks ih =>
    obtain ⟨hk, hnd⟩ := List.nodup_cons.mp hnd
    rw [together, List.map_cons, List.foldl_cons, h k List.mem_cons_self]
    refine (ih hnd (fun j hj => h j (List.mem_cons_of_mem k hj)) _).trans ?_
    congr 1
    funext j
    by_cases hj : j = k
    · subst hj
      simp [hk]
    · simp [hj]

theorem registers_load {ks : List κ} (hnd : ks.Nodup) (a : κ → α) (f : ∀ k, V (a k) → ρ → ρ) :
    Registers ks (together ks fun k => .load (a k) (f k)) fun k m r => f k (m (a k)) r :=
  registers_together hnd fun _ _ _ => rfl

theorem registers_compute {ks : List κ} (hnd : ks.Nodup) (f : κ → ρ → ρ) :
    Registers ks (together ks fun k => (.compute (f k) : Op ρ V)) fun k _ r => f k r :=
  registers_together hnd fun _ _ _ => rfl

/-- Stores whose values are the same wherever their locations are. -/
theorem foldl_stores (val : ∀ a, V a) (es : List (κ × Op ρ V)) (s : State κ ρ V)
    (h : ∀ e ∈ es, ∃ a g, e.2 = .store a g ∧ g (s.reg e.1) = val a) (x : α) :
    (es.foldl step s).reg = s.reg ∧
      ((∃ e ∈ es, e.2.Writes x) → (es.foldl step s).mem x = val x) ∧
      ((¬ ∃ e ∈ es, e.2.Writes x) → (es.foldl step s).mem x = s.mem x) := by
  induction es generalizing s with
  | nil => simp
  | cons e es ih =>
    obtain ⟨k, o⟩ := e
    obtain ⟨a, g, rfl, hval⟩ := h _ List.mem_cons_self
    obtain ⟨hreg, hset, hkeep⟩ := ih (step s (k, .store a g)) fun e he =>
      h e (List.mem_cons_of_mem _ he)
    rw [List.foldl_cons]
    refine ⟨hreg, fun hx => ?_, fun hx => ?_⟩
    · by_cases hlater : ∃ e ∈ es, e.2.Writes x
      · exact hset hlater
      · obtain ⟨e, he, hw⟩ := hx
        obtain rfl : a = x := by
          rcases List.mem_cons.mp he with rfl | he
          · exact hw
          · exact absurd ⟨e, he, hw⟩ hlater
        rw [hkeep hlater]
        exact (Function.update_self ..).trans hval
    · have hne : x ≠ a := fun heq => hx ⟨_, List.mem_cons_self, heq.symm⟩
      rw [hkeep fun ⟨e, he, hw⟩ => hx ⟨e, List.mem_cons_of_mem _ he, hw⟩]
      exact Function.update_of_ne hne _ _

end Schemes.SharedMemory

namespace Schemes.SharedMemory

variable {ι α : Type*} {V : α → Type*} [DecidableEq α]

/-- Assignments to different locations whose values do not depend on each other's targets: each
    location ends up with its value in the memory before all of them. -/
theorem foldl_update {ts : List ι} {loc : ι → α} {val : ∀ i, (∀ a, V a) → V (loc i)} (hnd : ts.Nodup)
    (hloc : ∀ i ∈ ts, ∀ j ∈ ts, loc i = loc j → i = j)
    (hval : ∀ i ∈ ts, ∀ j ∈ ts, i ≠ j → ∀ m v, val i (Function.update m (loc j) v) = val i m)
    (m : ∀ a, V a) {i : ι} (hi : i ∈ ts) :
    ts.foldl (fun m j => Function.update m (loc j) (val j m)) m (loc i) = val i m := by
  have hframe : ∀ (l : List ι) (m : ∀ a, V a) a, (∀ j ∈ l, loc j ≠ a) →
      l.foldl (fun m j => Function.update m (loc j) (val j m)) m a = m a := by
    intro l
    induction l with
    | nil => exact fun _ _ _ => rfl
    | cons j l ih =>
      intro m a h
      rw [List.foldl_cons, ih _ a fun j' hj' => h j' (List.mem_cons_of_mem j hj')]
      exact Function.update_of_ne (h j List.mem_cons_self).symm _ _
  induction ts generalizing m with
  | nil => simp at hi
  | cons j ts ih =>
    obtain ⟨hj, hnd⟩ := List.nodup_cons.mp hnd
    rw [List.foldl_cons]
    rcases List.mem_cons.mp hi with rfl | hi'
    · rw [hframe ts _ _ fun k hk hkl => ?_]
      · exact Function.update_self ..
      · have hki := hloc k (List.mem_cons_of_mem i hk) i hi hkl
        exact hj (hki ▸ hk)
    · rw [ih hnd (fun a ha b hb => hloc a (List.mem_cons_of_mem j ha) b (List.mem_cons_of_mem j hb))
        (fun a ha b hb => hval a (List.mem_cons_of_mem j ha) b (List.mem_cons_of_mem j hb)) _ hi']
      exact hval i hi j List.mem_cons_self (fun hij => hj (hij ▸ hi')) m _

theorem foldl_update_frame {ts : List ι} {loc : ι → α} {val : ∀ i, (∀ a, V a) → V (loc i)} {a : α}
    (h : ∀ i ∈ ts, loc i ≠ a) (m : ∀ a, V a) :
    ts.foldl (fun m j => Function.update m (loc j) (val j m)) m a = m a := by
  induction ts generalizing m with
  | nil => rfl
  | cons j ts ih =>
    rw [List.foldl_cons, ih fun j' hj' => h j' (List.mem_cons_of_mem j hj')]
    exact Function.update_of_ne (h j List.mem_cons_self).symm _ _

/-! ### Threads that own their locations -/

section Owned

open Schemes.Interleave

variable {κ ρ : Type*} [DecidableEq κ] {own : α → Option κ}

/-- The access writes locations of thread `k` only and reads none that another thread owns. -/
structure Keeps (own : α → Option κ) (k : κ) (o : Op ρ V) : Prop where
  reads : ∀ a, o.Reads a → own a = none ∨ own a = some k
  writes : ∀ a, o.Writes a → own a = some k

omit [DecidableEq α] [DecidableEq κ] in
theorem Keeps.apart {k j : κ} {o o' : Op ρ V} (h : Keeps own k o) (h' : Keeps own j o') (hne : k ≠ j) :
    Apart o o' := by
  constructor
  · intro a ha
    have hown := h.writes a ha
    refine ⟨fun hr => ?_, fun hw => hne (Option.some.inj (hown.symm.trans (h'.writes a hw)))⟩
    rcases h'.reads a hr with hnone | hsome
    · simp [hown] at hnone
    · exact hne (Option.some.inj (hown.symm.trans hsome))
  · intro a ha hr
    have hown := h'.writes a ha
    rcases h.reads a hr with hnone | hsome
    · simp [hown] at hnone
    · exact hne (Option.some.inj (hsome.symm.trans hown))

/-- Threads that keep to their own locations may run one after another. -/
theorem foldl_by_thread {ks : List κ} (hnd : ks.Nodup) {u : List (κ × Op ρ V)} (hmem : ∀ e ∈ u, e.1 ∈ ks)
    (hkeeps : ∀ e ∈ u, Keeps own e.1 e.2) (s : State κ ρ V) :
    u.foldl step s = (ks.flatMap fun k => by_thread k (proj k u)).foldl step s := by
  have htag : ∀ {k} {e : κ × Op ρ V}, e ∈ by_thread k (proj k u) → e.1 = k ∧ e ∈ u := by
    intro k e he
    obtain ⟨rfl, ho⟩ := mem_by_thread.mp he
    exact ⟨rfl, mem_proj.mp ho⟩
  have hsched : Schedule ks (fun k => by_thread k (proj k u)) (u.map fun e => (e.1, e)) := by
    constructor
    · intro k _
      rw [proj, proj, by_thread, List.filter_map, List.map_map, List.map_map]
      refine List.map_congr_left fun e he => ?_
      have hk := (List.mem_filter.mp he).2
      simp only [Function.comp_apply, decide_eq_true_eq] at hk
      simp [← hk]
    · intro e he
      obtain ⟨o, ho, rfl⟩ := List.mem_map.mp he
      exact hmem o ho
  have hrun : ((u.map fun e => (e.1, e)).map Prod.snd).foldl step s =
      (ks.flatMap fun k => by_thread k (proj k u)).foldl step s :=
    hsched.foldl_eq hnd (fun k _ j _ hkj e he e' he' => ?_) s
  · simpa [Function.comp_def] using hrun
  · obtain ⟨rfl, hin⟩ := htag he
    obtain ⟨rfl, hin'⟩ := htag he'
    exact independent hkj ((hkeeps e hin).apart (hkeeps e' hin') hkj)

omit [DecidableEq α] in
/-- Threads that each bring their own locations up to date, from these and what no thread owns. -/
theorem foldl_owned {after : (∀ a, V a) → ∀ a, V a}
    (hlocal : ∀ m m' a, (∀ b, own b = none ∨ own b = own a → m b = m' b) → after m a = after m' a)
    {ks : List κ} (hnd : ks.Nodup) (m : ∀ a, V a) (a : α) :
    ks.foldl (fun m k a => if own a = some k then after m a else m a) m a =
      if ∃ k ∈ ks, own a = some k then after m a else m a := by
  induction ks generalizing m with
  | nil => simp
  | cons k ks ih =>
    obtain ⟨hk, hnd⟩ := List.nodup_cons.mp hnd
    rw [List.foldl_cons, ih hnd]
    by_cases ha : own a = some k
    · have hnone : ¬ ∃ j ∈ ks, own a = some j := by
        rintro ⟨j, hj, heq⟩
        exact hk (Option.some.inj (ha.symm.trans heq) ▸ hj)
      rw [if_neg hnone, if_pos ha, if_pos ⟨k, List.mem_cons_self, ha⟩]
    · by_cases hmem : ∃ j ∈ ks, own a = some j
      · obtain ⟨j, hj, heq⟩ := hmem
        rw [if_pos ⟨j, hj, heq⟩, if_pos ⟨j, List.mem_cons_of_mem k hj, heq⟩]
        refine hlocal _ _ a fun b hb => if_neg fun hbk => ?_
        rcases hb with hb | hb
        · simp [hbk] at hb
        · exact ha (hb.symm.trans hbk)
      · have hrest : ¬ ∃ j ∈ k :: ks, own a = some j := by
          rintro ⟨j, hj, heq⟩
          rcases List.mem_cons.mp hj with rfl | hj
          · exact ha heq
          · exact hmem ⟨j, hj, heq⟩
        rw [if_neg hmem, if_neg hrest, if_neg ha]

/-- What a run of such threads leaves in memory, from what each of them leaves in its own locations. -/
theorem run_owned {ks : List κ} (hnd : ks.Nodup) {u : List (κ × Op ρ V)} (hmem : ∀ e ∈ u, e.1 ∈ ks)
    (hu : ∀ e ∈ u, Keeps own e.1 e.2) {after : (∀ a, V a) → ∀ a, V a}
    (hlocal : ∀ m m' a, (∀ b, own b = none ∨ own b = own a → m b = m' b) → after m a = after m' a)
    (h : ∀ k ∈ ks, ∀ s : State κ ρ V, ((by_thread k (proj k u)).foldl step s).mem = fun a =>
      if own a = some k then after s.mem a else s.mem a) (s : State κ ρ V) (a : α) :
    (u.foldl step s).mem a = if ∃ k ∈ ks, own a = some k then after s.mem a else s.mem a := by
  rw [foldl_by_thread hnd hmem hu,
    foldl_flatMap_mem (g := fun k m a => if own a = some k then after m a else m a) h,
    foldl_owned hlocal hnd]

end Owned

end Schemes.SharedMemory
