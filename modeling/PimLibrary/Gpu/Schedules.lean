import PimLibrary.Gpu.Reduction

/-! The schedule of the custom GPU kernels does not matter.

    Threads of different rows share nothing that either of them writes. Threads of one row meet only in
    the shared array, where each step of the tree writes the lower half and reads the upper one. So a
    run of a launch ends like the threads one after another, stage by stage and block by block, and the
    entry of `y` can be read off there. -/

namespace PimLibrary.Gpu
open Schemes.Loop Schemes.Interleave Schemes.SharedMemory

variable {H F : Type} (A : Arith H F)

/-- A row of the launch. -/
structure MatVec.Row (K : MatVec F) (bid ty : ℕ) : Prop where
  bid_lt : bid < K.grid
  ty_lt : ty < K.NB_Y
  live : K.live bid ty = true

/-- What the caller sees to: every row has its entry in `y`, and `y` overlaps neither what is multiplied
    nor the bias of another row. -/
structure MatVec.Fits (K : MatVec F) : Prop where
  lane_pos : 0 < K.NB_X
  y_inj : ∀ bid ty bid' ty', K.Row bid ty → K.Row bid' ty' → K.y bid ty = K.y bid' ty' →
    bid = bid' ∧ ty = ty'
  reads_ne : ∀ bid ty tx, K.Row bid ty → tx < K.NB_X → ∀ r ∈ K.reads bid ty tx,
    ∀ bid' ty', K.Row bid' ty' → r.1 ≠ K.y bid' ty' ∧ r.2 ≠ K.y bid' ty'
  b_ne : ∀ b, K.b = some b → ∀ bid ty bid' ty', K.Row bid ty → K.Row bid' ty' →
    b bid ty = K.y bid' ty' → bid = bid' ∧ ty = ty'

/-! ### Footprints -/

/-- What a thread may read. -/
inductive MatVec.MayRead (K : MatVec F) (t : Tid) : Loc → Prop
  | sdata (tx : ℕ) : K.MayRead t (.sdata t.bid t.ty tx)
  | left {r : ℤ × ℤ} : r ∈ K.reads t.bid t.ty t.tx → K.MayRead t (.global r.1)
  | right {r : ℤ × ℤ} : r ∈ K.reads t.bid t.ty t.tx → K.MayRead t (.global r.2)
  | y : K.MayRead t (.global (K.y t.bid t.ty))
  | b {b : ℕ → ℕ → ℤ} : K.b = some b → K.MayRead t (.global (b t.bid t.ty))

/-- What a thread may write. -/
inductive MatVec.MayWrite (K : MatVec F) (t : Tid) : Loc → Prop
  | sdata (tx : ℕ) : K.MayWrite t (.sdata t.bid t.ty tx)
  | y : K.MayWrite t (.global (K.y t.bid t.ty))

/-- The accesses stay within two sets of locations. -/
def Within (R W : Loc → Prop) (p : List (Access H F)) : Prop :=
  ∀ o ∈ p, (∀ a, o.Reads a → R a) ∧ ∀ a, o.Writes a → W a

theorem within_append {R W : Loc → Prop} {p q : List (Access H F)} :
    Within R W (p ++ q) ↔ Within R W p ∧ Within R W q := by
  simp only [Within, List.mem_append]
  exact ⟨fun h => ⟨fun o ho => h o (.inl ho), fun o ho => h o (.inr ho)⟩,
    fun h o ho => ho.elim (h.1 o) (h.2 o)⟩

theorem within_nil (R W : Loc → Prop) : Within R W ([] : List (Access H F)) := by simp [Within]

theorem Within.mono {R R' W W' : Loc → Prop} {p : List (Access H F)} (h : Within R W p)
    (hR : ∀ a, R a → R' a) (hW : ∀ a, W a → W' a) : Within R' W' p :=
  fun o ho => ⟨fun a ha => hR a ((h o ho).1 a ha), fun a ha => hW a ((h o ho).2 a ha)⟩

theorem within_partial_sums (t : Tid) (reads : List (ℤ × ℤ)) :
    Within (fun a => ∃ r ∈ reads, a = .global r.1 ∨ a = .global r.2)
      (fun a => a = .sdata t.bid t.ty t.tx) (partial_sums A t reads) := by
  intro o ho
  simp only [partial_sums, add_product, List.mem_append, List.mem_flatMap, List.mem_cons,
    List.not_mem_nil, or_false] at ho
  rcases ho with (rfl | ⟨r, hr, rfl | rfl⟩) | rfl
  · exact ⟨fun a ha => ha.elim, fun a ha => ha.elim⟩
  · exact ⟨fun a ha => ⟨r, hr, .inl ha.symm⟩, fun a ha => ha.elim⟩
  · exact ⟨fun a ha => ⟨r, hr, .inr ha.symm⟩, fun a ha => ha.elim⟩
  · exact ⟨fun a ha => ha.elim, fun a ha => ha.symm⟩

theorem within_reduce_sum (t : Tid) (a b : ℕ) :
    Within (fun l => l = .sdata t.bid t.ty a ∨ l = .sdata t.bid t.ty b)
      (fun l => l = .sdata t.bid t.ty a) (reduce_sum A t a b) := by
  intro o ho
  simp only [reduce_sum, List.mem_cons, List.not_mem_nil, or_false] at ho
  rcases ho with rfl | rfl | rfl
  · exact ⟨fun l hl => .inl hl.symm, fun l hl => hl.elim⟩
  · exact ⟨fun l hl => .inr hl.symm, fun l hl => hl.elim⟩
  · exact ⟨fun l hl => hl.elim, fun l hl => hl.symm⟩

theorem within_reduction_step (k : ℕ) (t : Tid) :
    Within (fun l => t.tx < k ∧ (l = .sdata t.bid t.ty t.tx ∨ l = .sdata t.bid t.ty (t.tx + k)))
      (fun l => t.tx < k ∧ l = .sdata t.bid t.ty t.tx) (reduction_step A k t) := by
  rw [reduction_step]
  by_cases h : t.tx < k
  · rw [if_pos h]
    exact (within_reduce_sum A t t.tx (t.tx + k)).mono (fun a ha => ⟨h, ha⟩) fun a ha => ⟨h, ha⟩
  · rw [if_neg h]
    exact within_nil _ _

theorem within_serial_reduce (NB_X count : ℕ) (t : Tid) :
    Within (fun l => t.tx = 0 ∧ ∃ i, l = .sdata t.bid t.ty i)
      (fun l => t.tx = 0 ∧ l = .sdata t.bid t.ty 0) (serial_reduce A NB_X count t) := by
  rw [serial_reduce]
  by_cases h : t.tx = 0
  · rw [if_pos h]
    intro o ho
    obtain ⟨i, -, ho⟩ := List.mem_flatMap.mp ho
    obtain ⟨hr, hw⟩ := within_reduce_sum A t 0 i o ho
    refine ⟨fun l hl => ⟨h, ?_⟩, fun l hl => ⟨h, hw l hl⟩⟩
    rcases hr l hl with rfl | rfl
    · exact ⟨0, rfl⟩
    · exact ⟨i, rfl⟩
  · rw [if_neg h]
    exact within_nil _ _

theorem within_write_entry (t : Tid) (y : ℤ) (b : Option ℤ) (alpha beta : F) :
    Within (fun l => l = .sdata t.bid t.ty 0 ∨ l = .global y ∨ ∃ b', b = some b' ∧ l = .global b')
      (fun l => l = .global y) (write_entry A t y b alpha beta) := by
  simp only [write_entry, within_append]
  refine ⟨⟨⟨?_, ?_⟩, ?_⟩, ?_⟩
  · rintro o ho
    rw [List.mem_singleton.mp ho]
    exact ⟨fun l hl => .inl hl.symm, fun l hl => hl.elim⟩
  · by_cases h : A.nonzero beta = true
    · rw [if_pos h]
      rintro o ho
      rw [List.mem_singleton.mp ho]
      exact ⟨fun l hl => .inr (.inl hl.symm), fun l hl => hl.elim⟩
    · rw [if_neg h]
      exact within_nil _ _
  · cases b with
    | none => exact within_nil _ _
    | some b =>
      rintro o ho
      rw [List.mem_singleton.mp ho]
      exact ⟨fun l hl => .inr (.inr ⟨b, rfl, hl.symm⟩), fun l hl => hl.elim⟩
  · rintro o ho
    rw [List.mem_singleton.mp ho]
    exact ⟨fun l hl => hl.elim, fun l hl => hl.symm⟩

theorem within_relu_entry (y : ℤ) :
    Within (fun l => l = .global y) (fun l => l = .global y) (relu_entry A y) := by
  intro o ho
  simp only [relu_entry, List.mem_cons, List.not_mem_nil, or_false] at ho
  rcases ho with rfl | rfl
  · exact ⟨fun l hl => hl.symm, fun l hl => hl.elim⟩
  · exact ⟨fun l hl => hl.elim, fun l hl => hl.symm⟩

theorem within_finish (K : MatVec F) (t : Tid) :
    Within (fun l => t.tx = 0 ∧ K.MayRead t l)
      (fun l => t.tx = 0 ∧ l = .global (K.y t.bid t.ty)) (finish A K t) := by
  rw [finish]
  by_cases h : t.tx = 0
  · rw [if_pos h, within_append]
    constructor
    · refine (within_write_entry A t _ _ _ _).mono (fun l hl => ⟨h, ?_⟩) fun l hl => ⟨h, hl⟩
      rcases hl with rfl | rfl | ⟨b', hb, rfl⟩
      · exact .sdata 0
      · exact .y
      · obtain ⟨b, hKb, rfl⟩ := Option.map_eq_some_iff.mp hb
        exact .b hKb
    · cases K.relu with
      | false => exact within_nil _ _
      | true =>
        refine (within_relu_entry A _).mono (fun l hl => ⟨h, ?_⟩) fun l hl => ⟨h, hl⟩
        rw [hl]
        exact .y
  · rw [if_neg h]
    exact within_nil _ _

theorem mem_rocblas_reduction_s {k : ℕ} {p : Tid → List (Access H F)}
    (hp : p ∈ rocblas_reduction_s A k) : ∃ j, p = reduction_step A j := by
  induction k using rocblas_reduction_s.induct with
  | case1 =>
    rw [rocblas_reduction_s] at hp
    simp at hp
  | case2 k hk ih =>
    rw [rocblas_reduction_s, if_neg hk] at hp
    rcases List.mem_cons.mp hp with rfl | hp
    · exact ⟨k, rfl⟩
    · exact ih hp

/-- The programs of a launch. -/
theorem mem_programs {K : MatVec F} {p : Tid → List (Access H F)} (hp : p ∈ K.programs A) :
    (p = fun t => partial_sums A t (K.reads t.bid t.ty t.tx)) ∨
      (∃ k, p = reduction_step A k) ∨ p = serial_reduce A K.NB_X K.count ∨ p = finish A K := by
  simp only [MatVec.programs, List.mem_append, List.mem_singleton] at hp
  rcases hp with (rfl | hp) | rfl
  · exact .inl rfl
  · by_cases h : K.NB_X > 16
    · rw [if_pos h] at hp
      exact .inr (.inl (mem_rocblas_reduction_s A hp))
    · rw [if_neg h] at hp
      exact .inr (.inr (.inl (List.mem_singleton.mp hp)))
  · exact .inr (.inr (.inr rfl))

theorem within_programs {K : MatVec F} {p : Tid → List (Access H F)} (hp : p ∈ K.programs A) (t : Tid) :
    Within (K.MayRead t) (K.MayWrite t) (p t) := by
  rcases mem_programs A hp with rfl | ⟨k, rfl⟩ | rfl | rfl
  · refine (within_partial_sums A t _).mono ?_ ?_
    · rintro a ⟨r, hr, rfl | rfl⟩
      · exact .left hr
      · exact .right hr
    · rintro a rfl
      exact .sdata t.tx
  · refine (within_reduction_step A k t).mono ?_ ?_
    · rintro a ⟨-, rfl | rfl⟩
      · exact .sdata _
      · exact .sdata _
    · rintro a ⟨-, rfl⟩
      exact .sdata _
  · refine (within_serial_reduce A _ _ t).mono ?_ ?_
    · rintro a ⟨-, i, rfl⟩
      exact .sdata i
    · rintro a ⟨-, rfl⟩
      exact .sdata 0
  · refine (within_finish A K t).mono (fun a ha => ha.2) ?_
    rintro a ⟨-, rfl⟩
    exact .y

/-! ### No races -/

theorem Within.apart {R W R' W' : Loc → Prop} {p q : List (Access H F)} (hp : Within R W p)
    (hq : Within R' W' q) (h : ∀ a, W a → ¬ R' a ∧ ¬ W' a) (h' : ∀ a, W' a → ¬ R a)
    {o o' : Access H F} (ho : o ∈ p) (ho' : o' ∈ q) : Apart o o' := by
  constructor
  · intro a ha
    obtain ⟨hr, hw⟩ := h a ((hp o ho).2 a ha)
    exact ⟨fun h => hr ((hq o' ho').1 a h), fun h => hw ((hq o' ho').2 a h)⟩
  · intro a ha hr
    exact h' a ((hq o' ho').2 a ha) ((hp o ho).1 a hr)

/-- What one thread may write, only threads of its row may touch. -/
theorem MatVec.MayWrite.same_row {K : MatVec F} (hK : K.Fits) {t t' : Tid} (ht : K.Row t.bid t.ty)
    (ht' : K.Row t'.bid t'.ty) (htx : t'.tx < K.NB_X) {a : Loc} (hw : K.MayWrite t a)
    (h : K.MayRead t' a ∨ K.MayWrite t' a) : t'.bid = t.bid ∧ t'.ty = t.ty := by
  generalize ha : a = l at h
  cases hw with
  | sdata tx =>
    have hsame : ∀ tx', Loc.sdata t.bid t.ty tx = .sdata t'.bid t'.ty tx' →
        t'.bid = t.bid ∧ t'.ty = t.ty := fun tx' h => by
      obtain ⟨hbid, hty, -⟩ := Loc.sdata.inj h
      exact ⟨hbid.symm, hty.symm⟩
    rcases h with h | h
    · cases h with
      | sdata tx' => exact hsame tx' ha
      | left hr => cases ha
      | right hr => cases ha
      | y => cases ha
      | b hb => cases ha
    · cases h with
      | sdata tx' => exact hsame tx' ha
      | y => cases ha
  | y =>
    rcases h with h | h
    · cases h with
      | sdata tx' => cases ha
      | left hr => exact absurd (Loc.global.inj ha).symm (hK.reads_ne _ _ _ ht' htx _ hr _ _ ht).1
      | right hr => exact absurd (Loc.global.inj ha).symm (hK.reads_ne _ _ _ ht' htx _ hr _ _ ht).2
      | y => exact hK.y_inj _ _ _ _ ht' ht (Loc.global.inj ha).symm
      | b hb => exact hK.b_ne _ hb _ _ _ _ ht' ht (Loc.global.inj ha).symm
    · cases h with
      | sdata tx' => cases ha
      | y => exact hK.y_inj _ _ _ _ ht' ht (Loc.global.inj ha).symm

/-- Threads of different rows, wherever they are. -/
theorem apart_rows {K : MatVec F} (hK : K.Fits) {p q : Tid → List (Access H F)}
    (hp : p ∈ K.programs A) (hq : q ∈ K.programs A) {t t' : Tid} (ht : K.Row t.bid t.ty)
    (ht' : K.Row t'.bid t'.ty) (htx : t.tx < K.NB_X) (htx' : t'.tx < K.NB_X)
    (hne : ¬ (t'.bid = t.bid ∧ t'.ty = t.ty)) {o o' : Access H F} (ho : o ∈ p t) (ho' : o' ∈ q t') :
    Apart o o' := by
  refine (within_programs A hp t).apart (within_programs A hq t') (fun a ha => ⟨?_, ?_⟩) ?_ ho ho'
  · exact fun h => hne (ha.same_row hK ht ht' htx' (.inl h))
  · exact fun h => hne (ha.same_row hK ht ht' htx' (.inr h))
  · intro a ha h
    obtain ⟨hbid, hty⟩ := ha.same_row hK ht' ht htx (.inl h)
    exact hne ⟨hbid.symm, hty.symm⟩

/-- Threads of one row between two barriers. -/
theorem apart_lanes {K : MatVec F} {p : Tid → List (Access H F)} (hp : p ∈ K.programs A)
    {bid ty tx tx' : ℕ} (hne : tx ≠ tx') {o o' : Access H F} (ho : o ∈ p ⟨bid, ty, tx⟩)
    (ho' : o' ∈ p ⟨bid, ty, tx'⟩) : Apart o o' := by
  rcases mem_programs A hp with rfl | ⟨k, rfl⟩ | rfl | rfl
  · refine (within_partial_sums A _ _).apart (within_partial_sums A _ _) ?_ ?_ ho ho'
    · rintro a rfl
      simp [hne]
    · rintro a rfl
      simp
  · -- the upper half is not written, `tx < k` tells it from the lower one
    refine (within_reduction_step A k _).apart (within_reduction_step A k _) ?_ ?_ ho ho'
    · rintro a ⟨hk, rfl⟩
      refine ⟨?_, by simp [hne]⟩
      rintro ⟨-, h | h⟩
      · exact hne (Loc.sdata.inj h).2.2
      · have := (Loc.sdata.inj h).2.2
        simp only at hk this
        omega
    · rintro a ⟨hk, rfl⟩ ⟨-, h | h⟩
      · exact hne (Loc.sdata.inj h).2.2.symm
      · have := (Loc.sdata.inj h).2.2
        simp only at hk this
        omega
  · refine (within_serial_reduce A _ _ _).apart (within_serial_reduce A _ _ _) ?_ ?_ ho ho'
    · rintro a ⟨htx, -⟩
      exact ⟨fun h => hne (htx.trans h.1.symm), fun h => hne (htx.trans h.1.symm)⟩
    · rintro a ⟨htx, -⟩ h
      exact hne (h.1.trans htx.symm)
  · refine (within_finish A K _).apart (within_finish A K _) ?_ ?_ ho ho'
    · rintro a ⟨htx, -⟩
      exact ⟨fun h => hne (htx.trans h.1.symm), fun h => hne (htx.trans h.1.symm)⟩
    · rintro a ⟨htx, -⟩ h
      exact hne (h.1.trans htx.symm)

theorem MatVec.nodup_threads (K : MatVec F) : K.threads.Nodup :=
  List.Nodup.product List.nodup_range List.nodup_range

@[simp] theorem MatVec.mem_threads {K : MatVec F} {i : ℕ × ℕ} :
    i ∈ K.threads ↔ i.1 < K.NB_Y ∧ i.2 < K.NB_X := by
  obtain ⟨ty, tx⟩ := i
  simp [MatVec.threads]

/-- An event of a block comes from a program of one of its rows. -/
theorem mem_stage {K : MatVec F} {bid : ℕ} (hbid : bid < K.grid)
    {l : ℕ × ℕ → List (Tid × Access H F)} (hl : l ∈ K.stages A bid) {i : ℕ × ℕ} (hi : i ∈ K.threads)
    {e : Tid × Access H F} (he : e ∈ l i) :
    K.Row bid i.1 ∧ i.2 < K.NB_X ∧ e.1 = ⟨bid, i.1, i.2⟩ ∧
      ∃ p ∈ K.programs A, e.2 ∈ p ⟨bid, i.1, i.2⟩ ∧
        l = fun i => if K.live bid i.1 then by_thread ⟨bid, i.1, i.2⟩ (p ⟨bid, i.1, i.2⟩) else [] := by
  obtain ⟨p, hp, rfl⟩ := List.mem_map.mp hl
  obtain ⟨hty, htx⟩ := MatVec.mem_threads.mp hi
  dsimp only at he
  by_cases hlive : K.live bid i.1
  · rw [if_pos hlive, mem_by_thread] at he
    exact ⟨⟨hbid, hty, hlive⟩, htx, he.1, p, hp, he.2, rfl⟩
  · rw [if_neg hlive] at he
    simp at he

/-- Every run of a launch ends like its threads one after another, stage by stage, block by block. -/
theorem MatVec.Runs.foldl_eq {K : MatVec F} (hK : K.Fits) {u : List (Tid × Access H F)}
    (hu : K.Runs A u) (s : State Tid (Reg H F) (Loc.Val H F)) :
    u.foldl step s = ((List.range K.grid).flatMap fun bid =>
      (K.stages A bid).flatMap fun l => K.threads.flatMap l).foldl step s := by
  obtain ⟨l, hl, hstaged⟩ := hu
  refine grid_foldl_eq hl hstaged List.nodup_range K.nodup_threads ?_ ?_ s
  · intro bid hbid q hq i hi j hj hij e he e' he'
    have hbid := List.mem_range.mp hbid
    obtain ⟨hrow, htx, htid, p, hp, ho, hqp⟩ := mem_stage A hbid hq hi he
    obtain ⟨hrow', htx', htid', -, -, -, -⟩ := mem_stage A hbid hq hj he'
    have ho' : e'.2 ∈ p ⟨bid, j.1, j.2⟩ := by
      rw [hqp] at he'
      dsimp only at he'
      rw [if_pos hrow'.live, mem_by_thread] at he'
      exact he'.2
    obtain ⟨t, o⟩ := e
    obtain ⟨t', o'⟩ := e'
    dsimp only at htid htid' ho ho'
    subst htid htid'
    refine independent (fun h => hij ?_) ?_
    · exact Prod.ext (Tid.mk.inj h).2.1 (Tid.mk.inj h).2.2
    · by_cases hty : i.1 = j.1
      · have hne : i.2 ≠ j.2 := fun h => hij (Prod.ext hty h)
        rw [← hty] at ho'
        exact apart_lanes A hp hne ho ho'
      · exact apart_rows A hK hp hp hrow hrow' htx htx' (fun h => hty h.2.symm) ho ho'
  · intro bid hbid bid' hbid' hne q hq i hi e he q' hq' j hj e' he'
    obtain ⟨hrow, htx, htid, p, hp, ho, -⟩ := mem_stage A (List.mem_range.mp hbid) hq hi he
    obtain ⟨hrow', htx', htid', p', hp', ho', -⟩ := mem_stage A (List.mem_range.mp hbid') hq' hj he'
    obtain ⟨t, o⟩ := e
    obtain ⟨t', o'⟩ := e'
    dsimp only at htid htid' ho ho'
    subst htid htid'
    refine independent (fun h => hne (Tid.mk.inj h).1) ?_
    exact apart_rows A hK hp hp' hrow hrow' htx htx' (fun h => hne h.1.symm) ho ho'

end PimLibrary.Gpu
