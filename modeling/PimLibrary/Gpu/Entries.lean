import PimLibrary.Gpu.Schedules

/-! What a launch of the custom GPU kernels leaves in memory.

    Stage by stage: the partial sums stand in the shared array, the tree or thread 0 brings their sum to
    its entry 0, thread 0 writes the entry of `y`. Rows keep out of each other's way, so after the whole
    grid every entry is what its own row makes of the memory before the launch. -/

namespace PimLibrary.Gpu
open Schemes.Loop Schemes.Interleave Schemes.SharedMemory

variable {H F : Type} (A : Arith H F)

abbrev GridState (H F : Type) := State Tid (Reg H F) (Loc.Val H F)

/-! ### One thread -/

/-- The registers after one product. -/
def Reg.addProduct (mem : Memory H F) (g : Reg H F) (r : ℤ × ℤ) : Reg H F :=
  { g with half := mem (.global r.1),
           res := A.add g.res (A.up (A.mulH (mem (.global r.1)) (mem (.global r.2)))) }

theorem foldl_addProduct_res (mem : Memory H F) (reads : List (ℤ × ℤ)) (g : Reg H F) :
    (reads.foldl (Reg.addProduct A mem) g).res =
      reads.foldl (fun res r => A.add res (A.up (A.mulH (mem (.global r.1)) (mem (.global r.2)))))
        g.res := by
  induction reads generalizing g with
  | nil => rfl
  | cons r reads ih => exact ih _

theorem partial_sums_mem (t : Tid) (reads : List (ℤ × ℤ)) (s : GridState H F) :
    ((by_thread t (partial_sums A t reads)).foldl step s).mem =
      Function.update s.mem (.sdata t.bid t.ty t.tx) (partialSum A s.mem reads) := by
  have hsplit : by_thread t (partial_sums A t reads) =
      by_thread t ([.compute fun g => { g with res := A.zero }] : List (Access H F)) ++
        by_thread t (reads.flatMap (add_product A)) ++
        by_thread t ([.store (.sdata t.bid t.ty t.tx) Reg.res] : List (Access H F)) := by
    simp only [partial_sums, by_thread, List.map_append]
  have hloads := foldl_loads t reads (add_product A) (Reg.addProduct A)
    (fun r _ s => by simp [by_thread, add_product, step, Reg.addProduct])
  rw [hsplit, List.foldl_append, List.foldl_append, hloads]
  simp [by_thread, step, foldl_addProduct_res, partialSum]

theorem reduce_sum_mem (t : Tid) (a b : ℕ) (s : GridState H F) :
    ((by_thread t (reduce_sum A t a b)).foldl step s).mem =
      Function.update s.mem (.sdata t.bid t.ty a)
        (A.add (s.mem (.sdata t.bid t.ty a)) (s.mem (.sdata t.bid t.ty b))) := by
  simp [by_thread, reduce_sum, step]

theorem serial_reduce_mem (t : Tid) (h : t.tx = 0) (NB_X count : ℕ) (s : GridState H F) :
    ((by_thread t (serial_reduce A NB_X count t)).foldl step s).mem =
      Function.update s.mem (.sdata t.bid t.ty 0)
        (serialSum A NB_X count fun i => s.mem (.sdata t.bid t.ty i)) := by
  have hloop : ∀ (is : List ℕ), (∀ i ∈ is, i ≠ 0) → ∀ s : GridState H F,
      ((by_thread t (is.flatMap fun i => reduce_sum A t 0 i)).foldl step s).mem =
        Function.update s.mem (.sdata t.bid t.ty 0)
          (is.foldl (fun res i => A.add res (s.mem (.sdata t.bid t.ty i)))
            (s.mem (.sdata t.bid t.ty 0))) := by
    intro is
    induction is with
    | nil => intro _ s; simp [by_thread]
    | cons i is ih =>
      intro hpos s
      have hsplit : by_thread t ((i :: is).flatMap fun i => reduce_sum A t 0 i) =
          by_thread t (reduce_sum A t 0 i) ++ by_thread t (is.flatMap fun i => reduce_sum A t 0 i) := by
        simp [by_thread]
      have hother : ∀ j ∈ is, Loc.sdata t.bid t.ty j ≠ Loc.sdata t.bid t.ty 0 := by
        intro j hj heq
        exact hpos j (List.mem_cons_of_mem i hj) (Loc.sdata.inj heq).2.2
      rw [hsplit, List.foldl_append, ih fun j hj => hpos j (List.mem_cons_of_mem i hj),
        reduce_sum_mem, Function.update_idem, Function.update_self, List.foldl_cons]
      congr 1
      refine List.foldl_ext _ _ _ fun res j hj => ?_
      rw [Function.update_of_ne (hother j hj)]
  rw [serial_reduce, if_pos h, serialSum]
  refine hloop _ (fun i hi => ?_) s
  have := ((mem_forFrom Nat.one_pos).mp hi).1
  omega

theorem finish_mem (K : MatVec F) (t : Tid) (h : t.tx = 0) (s : GridState H F) :
    ((by_thread t (finish A K t)).foldl step s).mem =
      Function.update s.mem (.global (K.y t.bid t.ty))
        (K.entry A (s.mem (.sdata t.bid t.ty 0)) (s.mem (.global (K.y t.bid t.ty)))
          (K.b.map fun b => s.mem (.global (b t.bid t.ty)))) := by
  rw [finish, if_pos h]
  rcases hb : K.b with - | b <;> rcases hbeta : A.nonzero K.beta with - | - <;>
    rcases hrelu : K.relu with - | - <;>
    simp [by_thread, write_entry, relu_entry, step, MatVec.entry, hbeta, hrelu]

/-! ### One stage -/

/-- The stage of block `bid` with the program `p`. -/
def MatVec.stage (K : MatVec F) (bid : ℕ) (p : Tid → List (Access H F)) (i : ℕ × ℕ) :
    List (Tid × Access H F) :=
  if K.live bid i.1 then by_thread ⟨bid, i.1, i.2⟩ (p ⟨bid, i.1, i.2⟩) else []

/-- The threads of block `bid` that have not returned and meet `c`. -/
structure MatVec.Active (K : MatVec F) (bid : ℕ) (c : ℕ × ℕ → Prop) (i : ℕ × ℕ) : Prop where
  mem : i ∈ K.threads
  live : K.live bid i.1 = true
  sel : c i

theorem MatVec.Active.row {K : MatVec F} {bid : ℕ} {c : ℕ × ℕ → Prop} {i : ℕ × ℕ}
    (h : K.Active bid c i) (hbid : bid < K.grid) : K.Row bid i.1 :=
  ⟨hbid, (mem_threads.mp h.mem).1, h.live⟩

/-- A stage in which the threads with `c` set one location each, to a value that does not depend on the
    locations of the others. -/
theorem stage_mem (K : MatVec F) (bid : ℕ) (p : Tid → List (Access H F)) (c : ℕ × ℕ → Prop)
    [DecidablePred c] (loc : ℕ × ℕ → Loc) (val : ∀ i, Memory H F → Loc.Val H F (loc i))
    (hmem : ∀ i, c i → ∀ s : GridState H F, ((by_thread ⟨bid, i.1, i.2⟩ (p ⟨bid, i.1, i.2⟩)).foldl
      step s).mem = Function.update s.mem (loc i) (val i s.mem))
    (hnil : ∀ i, ¬ c i → p ⟨bid, i.1, i.2⟩ = [])
    (hloc : ∀ i j, K.Active bid c i → K.Active bid c j → loc i = loc j → i = j)
    (hval : ∀ i j, K.Active bid c i → K.Active bid c j → i ≠ j →
      ∀ m v, val i (Function.update m (loc j) v) = val i m)
    (s : GridState H F) :
    (∀ i, K.Active bid c i →
      ((K.threads.flatMap (K.stage bid p)).foldl step s).mem (loc i) = val i s.mem) ∧
    ∀ a, (∀ i, K.Active bid c i → loc i ≠ a) →
      ((K.threads.flatMap (K.stage bid p)).foldl step s).mem a = s.mem a := by
  have hflat : ∀ l : List (ℕ × ℕ), l.flatMap (K.stage bid p) =
      (l.filter fun i => K.live bid i.1 ∧ c i).flatMap
        fun i => by_thread ⟨bid, i.1, i.2⟩ (p ⟨bid, i.1, i.2⟩) := by
    intro l
    induction l with
    | nil => rfl
    | cons i l ih =>
      rw [List.flatMap_cons, ih, MatVec.stage]
      by_cases hlive : K.live bid i.1
      · by_cases hc : c i
        · rw [List.filter_cons_of_pos (by simp [hlive, hc]), List.flatMap_cons, if_pos hlive]
        · rw [List.filter_cons_of_neg (by simp [hc]), if_pos hlive, hnil i hc]
          simp [by_thread]
      · rw [List.filter_cons_of_neg (by simp [hlive]), if_neg hlive, List.nil_append]
  have hactive : ∀ i, (i ∈ K.threads.filter fun i => K.live bid i.1 ∧ c i) ↔ K.Active bid c i := by
    intro i
    rw [List.mem_filter, decide_eq_true_eq]
    exact ⟨fun h => ⟨h.1, h.2.1, h.2.2⟩, fun h => ⟨h.mem, h.live, h.sel⟩⟩
  rw [hflat, foldl_flatMap_mem (g := fun i m => Function.update m (loc i) (val i m))
    fun i hi s => hmem i ((hactive i).mp hi).sel s]
  constructor
  · intro i hi
    exact foldl_update (K.nodup_threads.filter _)
      (fun i hi j hj => hloc i j ((hactive i).mp hi) ((hactive j).mp hj))
      (fun i hi j hj => hval i j ((hactive i).mp hi) ((hactive j).mp hj)) s.mem ((hactive i).mpr hi)
  · intro a ha
    exact foldl_update_frame (fun i hi => ha i ((hactive i).mp hi)) s.mem

/-- The shared array of a row. -/
def row (s : GridState H F) (bid ty tx : ℕ) : F := s.mem (.sdata bid ty tx)

/-- Global memory is as it was. -/
def SameGlobal (s s' : GridState H F) : Prop := ∀ addr, s'.mem (.global addr) = s.mem (.global addr)

section Stages

variable {K : MatVec F} {bid : ℕ} (s : GridState H F)

theorem partial_stage :
    let s' := (K.threads.flatMap (K.stage bid fun t =>
      partial_sums A t (K.reads t.bid t.ty t.tx))).foldl step s
    (∀ ty tx, ty < K.NB_Y → tx < K.NB_X → K.live bid ty →
      row s' bid ty tx = partialSum A s.mem (K.reads bid ty tx)) ∧ SameGlobal s s' := by
  obtain ⟨hset, hkeep⟩ := stage_mem K bid (fun t => partial_sums A t (K.reads t.bid t.ty t.tx))
    (fun _ => True) (fun i => .sdata bid i.1 i.2) (fun i m => partialSum A m (K.reads bid i.1 i.2))
    (fun i _ s => partial_sums_mem A _ _ s) (fun i h => absurd trivial h)
    (fun i j _ _ h => Prod.ext (Loc.sdata.inj h).2.1 (Loc.sdata.inj h).2.2)
    (fun i j _ _ _ m v => by simp [partialSum]) s
  refine ⟨fun ty tx hty htx hlive => ?_, fun addr => hkeep _ fun i _ => by simp⟩
  exact hset (ty, tx) ⟨MatVec.mem_threads.mpr ⟨hty, htx⟩, hlive, trivial⟩

theorem reduction_stage {k : ℕ} (hk : k ≤ K.NB_X) :
    let s' := (K.threads.flatMap (K.stage bid (reduction_step A k))).foldl step s
    (∀ ty, ty < K.NB_Y → K.live bid ty → row s' bid ty = fun tx =>
      if tx < k then A.add (row s bid ty tx) (row s bid ty (tx + k)) else row s bid ty tx) ∧
      SameGlobal s s' := by
  obtain ⟨hset, hkeep⟩ := stage_mem K bid (reduction_step A k) (fun i => i.2 < k)
    (fun i => .sdata bid i.1 i.2)
    (fun i m => A.add (m (.sdata bid i.1 i.2)) (m (.sdata bid i.1 (i.2 + k))))
    (fun i hi s => by rw [reduction_step, if_pos (by exact hi)]; exact reduce_sum_mem A _ _ _ s)
    (fun i hi => by rw [reduction_step, if_neg (by exact hi)])
    (fun i j _ _ h => Prod.ext (Loc.sdata.inj h).2.1 (Loc.sdata.inj h).2.2)
    (fun i j _ hj hij m v => by
      have hself : Loc.sdata bid i.1 i.2 ≠ Loc.sdata bid j.1 j.2 := fun h =>
        hij (Prod.ext (Loc.sdata.inj h).2.1 (Loc.sdata.inj h).2.2)
      have hupper : Loc.sdata bid i.1 (i.2 + k) ≠ Loc.sdata bid j.1 j.2 := fun h => by
        have heq := (Loc.sdata.inj h).2.2
        have hlow := hj.sel
        omega
      simp only [Function.update_of_ne hself, Function.update_of_ne hupper]) s
  refine ⟨fun ty hty hlive => ?_, fun addr => hkeep _ fun i _ => by simp⟩
  funext tx
  by_cases htx : tx < k
  · rw [if_pos htx]
    exact hset (ty, tx) ⟨MatVec.mem_threads.mpr ⟨hty, htx.trans_le hk⟩, hlive, htx⟩
  · rw [if_neg htx]
    refine hkeep _ fun i hi h => htx ?_
    rw [← (Loc.sdata.inj h).2.2]
    exact hi.sel

theorem serial_stage (hpos : 0 < K.NB_X) :
    let s' := (K.threads.flatMap (K.stage bid (serial_reduce A K.NB_X K.count))).foldl step s
    (∀ ty, ty < K.NB_Y → K.live bid ty →
      row s' bid ty 0 = serialSum A K.NB_X K.count (row s bid ty)) ∧ SameGlobal s s' := by
  obtain ⟨hset, hkeep⟩ := stage_mem K bid (serial_reduce A K.NB_X K.count) (fun i => i.2 = 0)
    (fun i => .sdata bid i.1 0)
    (fun i m => serialSum A K.NB_X K.count fun tx => m (.sdata bid i.1 tx))
    (fun i hi s => serial_reduce_mem A ⟨bid, i.1, i.2⟩ hi _ _ s)
    (fun i hi => by rw [serial_reduce, if_neg (by exact hi)])
    (fun i j hi hj h => Prod.ext (Loc.sdata.inj h).2.1 (hi.sel.trans hj.sel.symm))
    (fun i j hi hj hij m v => by
      have hother : ∀ tx, Loc.sdata bid i.1 tx ≠ Loc.sdata bid j.1 0 := fun tx h =>
        hij (Prod.ext (Loc.sdata.inj h).2.1 (hi.sel.trans hj.sel.symm))
      simp only [Function.update_of_ne (hother _)]) s
  refine ⟨fun ty hty hlive => ?_, fun addr => hkeep _ fun i _ => by simp⟩
  exact hset (ty, 0) ⟨MatVec.mem_threads.mpr ⟨hty, hpos⟩, hlive, rfl⟩

theorem finish_stage (hK : K.Fits) (hbid : bid < K.grid) :
    let s' := (K.threads.flatMap (K.stage bid (finish A K))).foldl step s
    (∀ ty, K.Row bid ty → s'.mem (.global (K.y bid ty)) =
      K.entry A (row s bid ty 0) (s.mem (.global (K.y bid ty)))
        (K.b.map fun b => s.mem (.global (b bid ty)))) ∧
      ∀ addr, (∀ ty, K.Row bid ty → K.y bid ty ≠ addr) →
        s'.mem (.global addr) = s.mem (.global addr) := by
  obtain ⟨hset, hkeep⟩ := stage_mem K bid (finish A K) (fun i => i.2 = 0)
    (fun i => .global (K.y bid i.1))
    (fun i m => K.entry A (m (.sdata bid i.1 0)) (m (.global (K.y bid i.1)))
      (K.b.map fun b => m (.global (b bid i.1))))
    (fun i hi s => finish_mem A K ⟨bid, i.1, i.2⟩ hi s)
    (fun i hi => by rw [finish, if_neg (by exact hi)])
    (fun i j hi hj h => Prod.ext
      (hK.y_inj _ _ _ _ (hi.row hbid) (hj.row hbid) (Loc.global.inj h)).2
      (hi.sel.trans hj.sel.symm))
    (fun i j hi hj hij m v => by
      have hrow : i.1 ≠ j.1 := fun h => hij (Prod.ext h (hi.sel.trans hj.sel.symm))
      have hy : Loc.global (K.y bid i.1) ≠ Loc.global (K.y bid j.1) := fun h =>
        hrow (hK.y_inj _ _ _ _ (hi.row hbid) (hj.row hbid) (Loc.global.inj h)).2
      have hb : (K.b.map fun b => Function.update m (Loc.global (K.y bid j.1)) v
          (.global (b bid i.1))) = K.b.map fun b => m (.global (b bid i.1)) := by
        refine Option.map_congr fun b hb => Function.update_of_ne (fun h => hrow ?_) _ _
        exact (hK.b_ne b hb _ _ _ _ (hi.row hbid) (hj.row hbid) (Loc.global.inj h)).2
      rw [hb, Function.update_of_ne hy, Function.update_of_ne (by simp)]) s
  constructor
  · intro ty hrow
    exact hset (ty, 0) ⟨MatVec.mem_threads.mpr ⟨hrow.ty_lt, hK.lane_pos⟩, hrow.live, rfl⟩
  · intro addr h
    exact hkeep _ fun i hi heq => h i.1 (hi.row hbid) (Loc.global.inj heq)

/-- The barrier tree, step by step. -/
theorem tree_stages (k : ℕ) (hk : k ≤ K.NB_X) :
    let s' := ((rocblas_reduction_s A k).flatMap fun p =>
      K.threads.flatMap (K.stage bid p)).foldl step s
    (∀ ty, ty < K.NB_Y → K.live bid ty → row s' bid ty 0 = treeSum A k (row s bid ty)) ∧
      SameGlobal s s' := by
  induction k using rocblas_reduction_s.induct generalizing s with
  | case1 =>
    rw [rocblas_reduction_s, if_pos rfl, List.flatMap_nil]
    exact ⟨fun ty _ _ => by rw [treeSum, if_pos rfl, List.foldl_nil], fun addr => rfl⟩
  | case2 k hk0 ih =>
    obtain ⟨hnow, hglobal⟩ := reduction_stage A s hk
    obtain ⟨hrest, hglobal'⟩ := ih ((K.threads.flatMap (K.stage bid (reduction_step A k))).foldl step s)
      ((Nat.div_le_self k 2).trans hk)
    rw [rocblas_reduction_s, if_neg hk0, List.flatMap_cons, List.foldl_append]
    refine ⟨fun ty hty hlive => ?_, fun addr => (hglobal' addr).trans (hglobal addr)⟩
    rw [hrest ty hty hlive, hnow ty hty hlive, treeSum.eq_1 A k, if_neg hk0]

end Stages

/-! ### The grid -/

theorem treeSum_congr {k : ℕ} {x x' : ℕ → F} (h : ∀ t, t < max 1 (2 * k) → x t = x' t) :
    treeSum A k x = treeSum A k x' := by
  induction k using rocblas_reduction_s.induct generalizing x x' with
  | case1 => rw [treeSum, if_pos rfl, treeSum, if_pos rfl, h 0 (by simp)]
  | case2 k hk ih =>
    rw [treeSum, treeSum.eq_1 A k x', if_neg hk, if_neg hk]
    refine ih fun t ht => ?_
    have hlow : t < max 1 (2 * k) := by omega
    by_cases htk : t < k
    · rw [if_pos htk, if_pos htk, h t hlow, h (t + k) (by omega)]
    · rw [if_neg htk, if_neg htk, h t hlow]

/-- Only the threads that there are count. -/
theorem rowSum_congr {K : MatVec F} (hpos : 0 < K.NB_X) {x x' : ℕ → F}
    (h : ∀ t, t < K.NB_X → x t = x' t) : K.rowSum A x = K.rowSum A x' := by
  rw [MatVec.rowSum, MatVec.rowSum]
  by_cases hwide : K.NB_X > 16
  · rw [if_pos hwide, if_pos hwide]
    exact treeSum_congr A fun t ht => h t (by omega)
  · rw [if_neg hwide, if_neg hwide, serialSum, serialSum, h 0 hpos]
    refine List.foldl_ext _ _ _ fun res i hi => ?_
    have hlt := ((mem_forFrom Nat.one_pos).mp hi).2.2
    rw [h i (by omega)]

/-- One block: its rows get their entries, the rest of global memory is as it was. -/
theorem block_entries {K : MatVec F} (hK : K.Fits) {bid : ℕ} (hbid : bid < K.grid)
    (s : GridState H F) :
    let s' := ((K.stages A bid).flatMap fun l => K.threads.flatMap l).foldl step s
    (∀ ty, K.Row bid ty → s'.mem (.global (K.y bid ty)) = K.out A s.mem bid ty) ∧
      ∀ addr, (∀ ty, K.Row bid ty → K.y bid ty ≠ addr) →
        s'.mem (.global addr) = s.mem (.global addr) := by
  have hstages : (K.stages A bid).flatMap (fun l => K.threads.flatMap l) =
      (K.programs A).flatMap fun p => K.threads.flatMap (K.stage bid p) := by
    rw [MatVec.stages, List.flatMap_map]
    rfl
  rw [hstages, MatVec.programs, List.flatMap_append, List.flatMap_append, List.foldl_append,
    List.foldl_append, List.flatMap_singleton, List.flatMap_singleton]
  obtain ⟨hpart, hsame₁⟩ := partial_stage A s
  generalize (K.threads.flatMap (K.stage bid fun t =>
    partial_sums A t (K.reads t.bid t.ty t.tx))).foldl step s = s₁ at hpart hsame₁
  have hreduce : ∃ s₂, ((if K.NB_X > 16 then rocblas_sum_reduce A K.NB_X
      else [serial_reduce A K.NB_X K.count]).flatMap fun p =>
        K.threads.flatMap (K.stage bid p)).foldl step s₁ = s₂ ∧
      (∀ ty, ty < K.NB_Y → K.live bid ty → row s₂ bid ty 0 = K.rowSum A (row s₁ bid ty)) ∧
      SameGlobal s₁ s₂ := by
    refine ⟨_, rfl, ?_⟩
    by_cases h : K.NB_X > 16
    · simp only [if_pos h, MatVec.rowSum]
      exact tree_stages A s₁ (K.NB_X / 2) (Nat.div_le_self _ 2)
    · simp only [if_neg h, MatVec.rowSum, List.flatMap_singleton]
      exact serial_stage A s₁ hK.lane_pos
  obtain ⟨s₂, hs₂, hsum, hsame₂⟩ := hreduce
  rw [hs₂]
  have hglobal : SameGlobal s s₂ := fun addr => (hsame₂ addr).trans (hsame₁ addr)
  obtain ⟨hset, hkeep⟩ := finish_stage A s₂ hK hbid
  refine ⟨fun ty hrow => ?_, fun addr h => (hkeep addr h).trans (hglobal addr)⟩
  have hlanes : K.rowSum A (row s₁ bid ty) =
      K.rowSum A fun tx => partialSum A s.mem (K.reads bid ty tx) :=
    rowSum_congr A hK.lane_pos fun tx htx => hpart ty tx hrow.ty_lt htx hrow.live
  rw [hset ty hrow, MatVec.out, hsum ty hrow.ty_lt hrow.live, hlanes, hglobal]
  simp only [hglobal _]

/-- What a row gets depends on its own operands only. -/
theorem out_congr {K : MatVec F} {mem mem' : Memory H F} {bid ty : ℕ} (hpos : 0 < K.NB_X)
    (hreads : ∀ tx, tx < K.NB_X → ∀ r ∈ K.reads bid ty tx,
      mem (.global r.1) = mem' (.global r.1) ∧ mem (.global r.2) = mem' (.global r.2))
    (hy : mem (.global (K.y bid ty)) = mem' (.global (K.y bid ty)))
    (hb : ∀ b, K.b = some b → mem (.global (b bid ty)) = mem' (.global (b bid ty))) :
    K.out A mem bid ty = K.out A mem' bid ty := by
  have hbias : (K.b.map fun b => mem (.global (b bid ty))) = K.b.map fun b => mem' (.global (b bid ty)) :=
    Option.map_congr hb
  have hsum : K.rowSum A (fun tx => partialSum A mem (K.reads bid ty tx)) =
      K.rowSum A fun tx => partialSum A mem' (K.reads bid ty tx) := by
    refine rowSum_congr A hpos fun tx htx => List.foldl_ext _ _ _ fun res r hr => ?_
    rw [(hreads tx htx r hr).1, (hreads tx htx r hr).2]
  rw [MatVec.out, MatVec.out, hbias, hsum, hy]

/-- Every run of a launch leaves in each row's entry of `y` what the row makes of the memory before the
    launch, and the rest of global memory as it was. -/
theorem MatVec.Runs.entries {K : MatVec F} (hK : K.Fits) {u : List (Tid × Access H F)}
    (hu : K.Runs A u) (s : GridState H F) :
    (∀ bid ty, K.Row bid ty →
      (u.foldl step s).mem (.global (K.y bid ty)) = K.out A s.mem bid ty) ∧
      ∀ addr, (∀ bid ty, K.Row bid ty → K.y bid ty ≠ addr) →
        (u.foldl step s).mem (.global addr) = s.mem (.global addr) := by
  rw [hu.foldl_eq A hK s]
  -- the blocks in turn: those done have their entries, the others find the memory as it was for them
  have hblocks : ∀ bids : List ℕ, bids.Nodup → (∀ bid ∈ bids, bid < K.grid) → ∀ s : GridState H F,
      let s' := (bids.flatMap fun bid => (K.stages A bid).flatMap fun l => K.threads.flatMap l).foldl
        step s
      (∀ bid ∈ bids, ∀ ty, K.Row bid ty →
        s'.mem (.global (K.y bid ty)) = K.out A s.mem bid ty) ∧
      ∀ addr, (∀ bid ∈ bids, ∀ ty, K.Row bid ty → K.y bid ty ≠ addr) →
        s'.mem (.global addr) = s.mem (.global addr) := by
    intro bids
    induction bids with
    | nil => exact fun _ _ s => ⟨fun bid h => absurd h (by simp), fun addr _ => rfl⟩
    | cons b bids ih =>
      intro hnd hlt s
      obtain ⟨hb, hnd⟩ := List.nodup_cons.mp hnd
      obtain ⟨hset, hkeep⟩ := block_entries A hK (hlt b List.mem_cons_self) s
      obtain ⟨hrest, hother⟩ := ih hnd (fun d hd => hlt d (List.mem_cons_of_mem b hd))
        (((K.stages A b).flatMap fun l => K.threads.flatMap l).foldl step s)
      rw [List.flatMap_cons, List.foldl_append]
      constructor
      · intro bid hbid ty hrow
        rcases List.mem_cons.mp hbid with rfl | hbid
        · rw [← hset ty hrow]
          refine hother _ fun d hd ty' hrow' heq => hb ?_
          exact (hK.y_inj _ _ _ _ hrow' hrow heq).1 ▸ hd
        · have hne : bid ≠ b := fun h => hb (h ▸ hbid)
          rw [hrest bid hbid ty hrow]
          refine out_congr A hK.lane_pos (fun tx htx r hr => ?_) ?_ fun d hd => ?_
          · exact ⟨hkeep _ fun ty' hrow' h => (hK.reads_ne _ _ tx hrow htx r hr _ _ hrow').1 h.symm,
              hkeep _ fun ty' hrow' h => (hK.reads_ne _ _ tx hrow htx r hr _ _ hrow').2 h.symm⟩
          · exact hkeep _ fun ty' hrow' h => hne (hK.y_inj _ _ _ _ hrow' hrow h).1.symm
          · exact hkeep _ fun ty' hrow' h => hne (hK.b_ne d hd _ _ _ _ hrow hrow' h.symm).1
      · intro addr h
        rw [hother addr fun d hd => h d (List.mem_cons_of_mem b hd)]
        exact hkeep addr (h b List.mem_cons_self)
  obtain ⟨hset, hkeep⟩ := hblocks _ List.nodup_range (fun bid h => List.mem_range.mp h) s
  exact ⟨fun bid ty hrow => hset bid (List.mem_range.mpr hrow.bid_lt) ty hrow,
    fun addr h => hkeep addr fun bid _ => h bid⟩

end PimLibrary.Gpu
