import PimLibrary.Executor.GemmData

/-! What a GEMM launch does to memory, in whatever order its channels and threads run.

    A block of the kernel is one wave: its first sixteen threads drive the unit of the block's channel
    through all sessions, then each of its sixty-four threads adds up the sixteen lanes of its partial
    sums, and applies the bias and the activation. The blocks run side by side. -/

namespace PimLibrary.Executor
open Schemes.Word Schemes.Interleave Schemes.SharedMemory PimLibrary.Kernel PimLibrary.Device
open PimLibrary.Program PimLibrary.Program.PimCommand

variable {R : Type*}

/-! ### Launches -/

/-- The arguments that the sums depend on: the pointer to the bias if there is one, and the activation. -/
structure Epilogue where
  bias : Option ℤ
  act_func : PimActFunc

/-- The body of the `REDUCE_SUM` loops, for the given index into the bias. -/
def reduce_ops (A : HalfArith R) (base : Buf → ℤ) (args : Epilogue) (step : ReduceStep) (bias_idx : ℤ) :
    List (GemmOp R) :=
  .compute (fun r => r.output A.zero) ::
    ((List.finRange 16).map fun ti : Fin 16 => .load (base .pim_partial_sum + 2 * (step.cell + ti))
      fun v r => r.output (A.add r.t_output v)) ++
    ((args.bias.map fun bias => .load (bias + 2 * bias_idx) fun v r =>
      r.output (A.add r.t_output v)).toList ++
    ((if args.act_func = .ACT_RELU then
      [.compute fun r => if A.negative r.t_output then r.output A.zero else r] else []) ++
    [.store (base .output + 2 * step.out) Regs.t_output]))

/-- What happens in a launch: a unit takes a command, or a thread accesses memory. -/
inductive LaunchEvent (R : Type*) where
  | unit (e : UnitEvent)
  | access (e : Agent × GemmOp R)

def LaunchEvent.act (unit : UnitEvent → GemmState R → GemmState R) (s : GemmState R) :
    LaunchEvent R → GemmState R
  | .unit e => unit e s
  | .access e => step s e

/-- A launch of `kernel` whose thread `tid` of block `ch` sums `sums ch tid`. -/
def GemmRuns (A : HalfArith R) (base : Buf → ℤ) (args : Epilogue) (program : List PimCommand)
    (kernel : ℕ → List Stmt) (sums : ℕ → ℕ → List (ReduceStep × ℤ)) (u : List (LaunchEvent R)) : Prop :=
  ∃ (es : Fin 64 → List UnitEvent) (ws : Fin 64 → List (Agent × GemmOp R)),
    (∀ ch : Fin 64, UnitRuns program base (kernel ch) (es ch)) ∧
    (∀ ch : Fin 64, Shuffle (List.finRange 64) (fun tid : Fin 64 => by_thread (.thread ch tid)
      ((sums ch tid).flatMap fun e => reduce_ops A base args e.1 e.2)) (ws ch)) ∧
    Shuffle (List.finRange 64) (fun ch => (es ch).map .unit ++ (ws ch).map .access) u

def launch_mem (unit : UnitEvent → GemmState R → GemmState R) (u : List (LaunchEvent R))
    (s : GemmState R) : ℤ → R := (u.foldl (LaunchEvent.act unit) s).mem

/-! ### One sum -/

/-- The bias and the activation. -/
def finish_sum (A : HalfArith R) (args : Epilogue) (m : ℤ → R) (bias_idx : ℤ) (v : R) : R :=
  let biased := match args.bias with
    | some bias => A.add v (m (bias + 2 * bias_idx))
    | none => v
  if args.act_func = .ACT_RELU ∧ A.negative biased = true then A.zero else biased

/-- The sum of the lanes, in the order of the loop. -/
def sum_lanes (A : HalfArith R) (v : Fin 16 → R) : R :=
  (List.finRange 16).foldl (fun acc ti => A.add acc (v ti)) A.zero

/-- What a thread stores. -/
def stored_sum (A : HalfArith R) (base : Buf → ℤ) (args : Epilogue) (m : ℤ → R) (step : ReduceStep)
    (bias_idx : ℤ) : R :=
  finish_sum A args m bias_idx (sum_lanes A fun ti => m (base .pim_partial_sum + 2 * (step.cell + ti)))

theorem foldl_lanes (A : HalfArith R) (k : Agent) (a : Fin 16 → ℤ) (l : List (Fin 16)) (s : GemmState R) :
    (by_thread k (l.map fun ti => (.load (a ti) fun v r => r.output (A.add r.t_output v) :
      GemmOp R))).foldl step s = { s with reg := Function.update s.reg k ((s.reg k).output
        (l.foldl (fun acc ti => A.add acc (s.mem (a ti))) (s.reg k).t_output)) } := by
  induction l generalizing s with
  | nil =>
    have hkeep : (s.reg k).output (s.reg k).t_output = s.reg k := rfl
    simp [by_thread, hkeep]
  | cons ti l ih =>
    rw [List.map_cons, by_thread, List.map_cons, List.foldl_cons]
    refine (ih _).trans ?_
    simp [step]

/-- A thread's sum does not depend on its registers, and changes one half of memory. -/
theorem reduce_mem (A : HalfArith R) (base : Buf → ℤ) (args : Epilogue) (e : ReduceStep) (bias_idx : ℤ)
    (k : Agent) (s : GemmState R) :
    ((by_thread k (reduce_ops A base args e bias_idx)).foldl step s).mem =
      Function.update s.mem (base .output + 2 * e.out) (stored_sum A base args s.mem e bias_idx) := by
  have hsplit : ∀ p q : List (GemmOp R), by_thread k (p ++ q) = by_thread k p ++ by_thread k q :=
    fun p q => List.map_append
  have hstart : ∀ q : List (GemmOp R), (by_thread k (.compute (fun r => r.output A.zero) :: q)).foldl step s =
      (by_thread k q).foldl step { s with reg := Function.update s.reg k ((s.reg k).output A.zero) } :=
    fun q => rfl
  rw [reduce_ops, List.cons_append, hstart, hsplit, List.foldl_append, foldl_lanes A k fun ti =>
    base .pim_partial_sum + 2 * (e.cell + ti)]
  have hsum : (List.finRange 16).foldl (fun acc (ti : Fin 16) =>
      A.add acc (s.mem (base .pim_partial_sum + 2 * (e.cell + ti)))) A.zero =
        sum_lanes A fun ti => s.mem (base .pim_partial_sum + 2 * (e.cell + ti)) := rfl
  simp only [Function.update_self, Regs.output_t_output, stored_sum, hsum]
  generalize (sum_lanes A fun ti => s.mem (base .pim_partial_sum + 2 * (e.cell + ti))) = sum
  obtain ⟨bias, act⟩ := args
  cases bias <;> cases act <;> simp [by_thread, step, finish_sum, apply_ite Regs.t_output]

/-- What the operations of a sum access. -/
theorem reduce_accesses {A : HalfArith R} {base : Buf → ℤ} {args : Epilogue} {e : ReduceStep} {bias_idx : ℤ}
    {o : GemmOp R} (ho : o ∈ reduce_ops A base args e bias_idx) (a : ℤ) :
    (o.Reads a → (∃ ti : Fin 16, a = base .pim_partial_sum + 2 * (e.cell + ti)) ∨
        ∃ bias ∈ args.bias, a = bias + 2 * bias_idx) ∧
      (o.Writes a → a = base .output + 2 * e.out) := by
  simp only [reduce_ops, List.mem_append, List.mem_cons, List.mem_map, Option.mem_toList,
    Option.map_eq_some_iff, List.not_mem_nil, or_false] at ho
  rcases ho with (rfl | ⟨ti, -, rfl⟩) | ⟨bias, hbias, rfl⟩ | hact | rfl
  · exact ⟨False.elim, False.elim⟩
  · exact ⟨fun h => .inl ⟨ti, h.symm⟩, False.elim⟩
  · exact ⟨fun h => .inr ⟨bias, hbias, h.symm⟩, False.elim⟩
  · split_ifs at hact
    · rw [List.mem_singleton] at hact
      subst hact
      exact ⟨False.elim, False.elim⟩
    · simp at hact
  · exact ⟨False.elim, fun h => h.symm⟩

theorem finish_sum_congr {A : HalfArith R} {args : Epilogue} {m m' : ℤ → R} {bias_idx : ℤ}
    (h : ∀ bias ∈ args.bias, m (bias + 2 * bias_idx) = m' (bias + 2 * bias_idx)) (v : R) :
    finish_sum A args m bias_idx v = finish_sum A args m' bias_idx v := by
  obtain ⟨bias, act⟩ := args
  cases bias with
  | none => rfl
  | some bias => simp only [finish_sum, h bias rfl]

/-! ### Outputs -/

/-- A half of the outputs of `n` tiles. -/
def IsOut (base : Buf → ℤ) (n : ℕ) (x : ℤ) : Prop :=
  base .output ≤ x ∧ x < base .output + 2 * (4096 * n) ∧ 2 ∣ x - base .output

instance (base : Buf → ℤ) (n : ℕ) (x : ℤ) : Decidable (IsOut base n x) :=
  inferInstanceAs (Decidable (_ ∧ _ ∧ _))

def outIdx (base : Buf → ℤ) (x : ℤ) : ℕ := ((x - base .output) / 2).toNat

/-- The channel whose block computes an output. -/
def outChan (i : ℕ) : Fin 64 := ⟨i / 64 % 64, by omega⟩

/-- The register whose lanes are added up for it. -/
def outCell (i : ℕ) : Reg := ⟨outChan i, ⟨i % 64 / 8, by omega⟩, .odd, ⟨i % 8, by omega⟩⟩

/-- The step that does so. -/
def reduceAt (i : ℕ) : ReduceStep := ⟨(place (outCell i) (i / 4096) / 2 : ℕ), i⟩

theorem isOut_at (base : Buf → ℤ) {n i : ℕ} (hi : i < 4096 * n) :
    IsOut base n (base .output + 2 * i) ∧ outIdx base (base .output + 2 * i) = i := by
  rw [IsOut, outIdx]
  omega

theorem IsOut.eq {base : Buf → ℤ} {n : ℕ} {x : ℤ} (h : IsOut base n x) :
    x = base .output + 2 * outIdx base x ∧ outIdx base x < 4096 * n := by
  rw [IsOut] at h
  rw [outIdx]
  omega

/-- The halves that a step adds up are those of the lanes of its register. -/
theorem reduceAt_cell (base : Buf → ℤ) (i : ℕ) (ti : Fin 16) :
    base .pim_partial_sum + 2 * ((reduceAt i).cell + ti) =
      cellHalf base (i / 4096) (outCell i) ti := by
  have hdvd := dvd_place (outCell i) (i / 4096)
  simp only [reduceAt, cellHalf]
  omega

/-! ### The launch -/

section Launch

variable (A : HalfArith R) (base : Buf → ℤ) (args : Epilogue) (sess : ℕ → Session) (evens odds : List ℕ)
  (n : ℕ)

/-- The channel of a lane, and of the block of a thread. -/
def agentChan : Agent → Fin 64
  | .lane chan .. | .thread chan _ => chan

/-- Neither a partial sum nor an output. -/
def Free (x : ℤ) : Prop := ¬ IsOut base n x ∧ ¬ IsCell base n x

/-- The buffers of a launch of `n` tiles: the units select their registers by the low bits of addresses,
    and what is read is not written. -/
structure GemmBuffers : Prop where
  weight : ∀ L < n, RowAligned base (sess L)
  partial_sum : 2 ^ 18 ∣ base .pim_partial_sum
  cell : ∀ L < n, ∀ (ch : Fin 64) (g : Fin 8),
    partial_addr ch (sess L) g = (place ⟨ch, 0, .odd, g⟩ L : ℕ)
  apart : ∀ x, IsOut base n x → ¬ IsCell base n x
  input_free : ∀ L < n, ∀ k, ∀ t ∈ bankTiles evens odds, ∀ g, Free base n (inputHalf base (sess L) k t.2 g)
  weight_free : ∀ L < n, ∀ (ch : Fin 64) (b : Fin 8) (ti : Fin 16), ∀ t ∈ bankTiles evens odds, ∀ j g,
    Free base n (weightHalf base ch (sess L) (.lane ch b ti) t.1 t.2 j g)
  bias_free : ∀ bias ∈ args.bias, ∀ i < 4096 * n, Free base n (bias + 2 * (i : ℕ))

/-- The partial sum of a lane in a tile. -/
def partialAt (m : ℤ → R) (L : ℕ) (r : Reg) (ti : Fin 16) : R :=
  accumulated A base r.chan (sess L) m (.lane r.chan r.block ti) (bankTiles evens odds) r.idx

/-- Memory after the launch. -/
def multiplied (m : ℤ → R) (x : ℤ) : R :=
  if IsOut base n x then
    finish_sum A args m (outIdx base x)
      (sum_lanes A (partialAt A base sess evens odds m (outIdx base x / 4096) (outCell (outIdx base x))))
  else if IsCell base n x then
    partialAt A base sess evens odds m (tileAt base x) (regOf x) (laneAt x)
  else m x

/-- The channel that writes a half. -/
def chanAt (x : ℤ) : Option (Fin 64) :=
  if IsOut base n x then some (outChan (outIdx base x)) else if IsCell base n x then some (chanOf x) else none

/-- The thread of its block that writes an output. -/
def threadAt (x : ℤ) : Option (Fin 64) :=
  if IsOut base n x then some ⟨outIdx base x % 64, by omega⟩ else none

/-- What the lanes of a channel do. -/
def channelOps (ch : Fin 64) : List (Agent × GemmOp R) :=
  (List.range n).flatMap fun L => (sessionEvents base ch (sess L) evens odds).flatMap (laneOps A base)

/-- What a thread does. -/
def threadOps (ch tid : Fin 64) : List (Agent × GemmOp R) :=
  by_thread (.thread ch tid) ((List.range n).flatMap fun L =>
    reduce_ops A base args (reduceAt (4096 * L + (64 * ch + tid))) ((4096 * L + (64 * ch + tid) : ℕ) : ℤ))

/-- The tile whose session writes a half of a channel. -/
def cellAt (ch : Fin 64) (x : ℤ) : Option ℕ :=
  if IsCell base n x ∧ chanOf x = ch then some (tileAt base x) else none

/-- Halves with what the lanes accumulate from the inputs and weights that are there. -/
def gathered (m : ℤ → R) (x : ℤ) : R :=
  if tileAt base x < n then partialAt A base sess evens odds m (tileAt base x) (regOf x) (laneAt x) else m x

/-- The outputs of a block, thread by thread and tile by tile. -/
def blockOuts (ch : Fin 64) : List ℕ :=
  (List.finRange 64 ×ˢ List.range n).map fun p => 4096 * p.2 + (64 * (ch : ℕ) + p.1)

/-- The sum for an output, by its thread. -/
def outOps (ch : Fin 64) (i : ℕ) : List (Agent × GemmOp R) :=
  by_thread (.thread ch ⟨i % 64, by omega⟩) (reduce_ops A base args (reduceAt i) i)

/-- The output that a half holds. -/
def outAt (x : ℤ) : Option ℕ := if IsOut base n x then some (outIdx base x) else none

/-- Outputs with the sums of the partial sums that are there. -/
def summed (m : ℤ → R) (x : ℤ) : R :=
  if IsOut base n x then stored_sum A base args m (reduceAt (outIdx base x)) (outIdx base x) else m x

variable {A base args sess evens odds n}

theorem outChan_at (L : ℕ) (ch tid : Fin 64) : outChan (4096 * L + (64 * ch + tid)) = ch :=
  Fin.ext (by simp only [outChan]; omega)

variable (h : GemmBuffers base args sess evens odds n)
include h

theorem partialAt_congr {m m' : ℤ → R} (hm : ∀ x, Free base n x → m x = m' x) {L : ℕ} (hL : L < n) (r : Reg)
    (ti : Fin 16) :
    partialAt A base sess evens odds m L r ti = partialAt A base sess evens odds m' L r ti := by
  refine List.foldl_ext _ _ _ fun acc t ht => ?_
  have hinput : (fun g => m (inputHalf base (sess L) (.lane r.chan r.block ti) t.2 g)) =
      fun g => m' (inputHalf base (sess L) (.lane r.chan r.block ti) t.2 g) :=
    funext fun g => hm _ (h.input_free L hL _ t ht g)
  have hweight : (fun g => m (weightHalf base r.chan (sess L) (.lane r.chan r.block ti) t.1 t.2 r.idx g)) =
      fun g => m' (weightHalf base r.chan (sess L) (.lane r.chan r.block ti) t.1 t.2 r.idx g) :=
    funext fun g => hm _ (h.weight_free L hL _ _ _ t ht _ g)
  rw [hinput, hweight]

theorem gathered_local (ch : Fin 64) (m m' : ℤ → R) (x : ℤ)
    (hm : ∀ y, cellAt base n ch y = none ∨ cellAt base n ch y = cellAt base n ch x → m y = m' y) :
    gathered A base sess evens odds n m x = gathered A base sess evens odds n m' x := by
  have hfree : ∀ y, Free base n y → m y = m' y := fun y hy => hm y (.inl (if_neg fun hc => hy.2 hc.1))
  rw [gathered, gathered]
  split_ifs with htile
  · exact partialAt_congr h hfree htile _ _
  · exact hm x (.inr rfl)

theorem session_gathers (ch : Fin 64) {L : ℕ} (hL : L < n) (s : GemmState R) :
    (((sessionEvents base ch (sess L) evens odds).flatMap (laneOps A base)).foldl step s).mem = fun x =>
      if cellAt base n ch x = some L then gathered A base sess evens odds n s.mem x else s.mem x := by
  rw [session_mem A h.partial_sum (h.cell L hL ch) (h.weight L hL) evens odds hL]
  funext x
  by_cases hx : IsCell base n x ∧ chanOf x = ch
  · by_cases htile : tileAt base x = L
    · obtain ⟨hcell, rfl⟩ := hx
      subst htile
      simp [cellAt, gathered, hcell, hL, partialAt, laneOf, regOf]
    · simp [cellAt, hx, htile]
  · have hx' : ¬ (IsCell base n x ∧ chanOf x = ch ∧ tileAt base x = L) := fun hc => hx ⟨hc.1, hc.2.1⟩
    rw [if_neg hx']
    simp [cellAt, hx]

/-- The sessions of a channel leave its partial sums. -/
theorem channel_mem (ch : Fin 64) (s : GemmState R) :
    ((channelOps A base sess evens odds n ch).foldl step s).mem = fun x =>
      if IsCell base n x ∧ chanOf x = ch then
        partialAt A base sess evens odds s.mem (tileAt base x) (regOf x) (laneAt x) else s.mem x := by
  rw [channelOps, foldl_flatMap_mem (g := fun L m x => if cellAt base n ch x = some L then
    gathered A base sess evens odds n m x else m x) fun L hL s => session_gathers h ch (List.mem_range.mp hL) s]
  funext x
  rw [foldl_owned (gathered_local h ch) List.nodup_range]
  by_cases hx : IsCell base n x ∧ chanOf x = ch
  · have htile := (hx.1.eq h.partial_sum).2.2
    rw [if_pos hx, if_pos ⟨_, List.mem_range.mpr htile, if_pos hx⟩]
    exact if_pos htile
  · simp [cellAt, hx]

/-! ### Who accesses what -/

omit h in
/-- An in-tile loads its inputs and weights. -/
theorem mem_tile_ops {ch : Fin 64} {s : Session} (hrow : RowAligned base s) {side : Side} {i_idx : ℕ}
    {e : Agent × GemmOp R} (he : e ∈ (tileEvents base ch s side i_idx).flatMap (laneOps A base)) :
    ∃ b ti, e.1 = .lane ch b ti ∧ (∀ x, ¬ e.2.Writes x) ∧ ∀ x, e.2.Reads x →
      ∃ g, x = inputHalf base s e.1 i_idx g ∨ ∃ j, x = weightHalf base ch s e.1 side i_idx j g := by
  obtain ⟨ev, hev, he⟩ := List.mem_flatMap.mp he
  rw [tileEvents, List.mem_append] at hev
  rcases hev with hev | hev
  · obtain ⟨g, -, rfl⟩ := List.mem_map.mp hev
    rw [laneOps, (grf_access ch side g).1] at he
    obtain ⟨k, hk, rfl⟩ := List.mem_map.mp he
    obtain ⟨b, ti, rfl⟩ := mem_lanes.mp hk
    exact ⟨b, ti, rfl, fun _ => id, fun x hx => ⟨g, .inl hx.symm⟩⟩
  · obtain ⟨j, -, hev⟩ := List.mem_flatMap.mp hev
    obtain ⟨g, -, rfl⟩ := List.mem_map.mp hev
    have htype : (mac side.bank).type_ = .MAC := rfl
    rw [laneOps, if_pos htype, (weight_access hrow side i_idx j g).1.1] at he
    obtain ⟨k, hk, rfl⟩ := List.mem_map.mp he
    obtain ⟨b, ti, rfl⟩ := mem_lanes.mp hk
    exact ⟨b, ti, rfl, fun _ => id, fun x hx => ⟨g, .inr ⟨j, hx.symm⟩⟩⟩

omit h in
theorem Free.chanAt {x : ℤ} (hx : Free base n x) : chanAt base n x = none := by
  rw [Executor.chanAt, if_neg hx.1, if_neg hx.2]

theorem chanAt_cellHalf {L : ℕ} (hL : L < n) (r : Reg) (hr : r.side = .odd) (ti : Fin 16) :
    chanAt base n (cellHalf base L r ti) = some r.chan := by
  have hcell := isCell_cellHalf h.partial_sum hL hr ti
  have hchan : chanOf (cellHalf base L r ti) = r.chan :=
    congrArg Reg.chan (cellHalf_at h.partial_sum L r ti).1
  rw [chanAt, if_neg fun hout => h.apart _ hout hcell, if_pos hcell, hchan]

/-- The lanes of a channel write its partial sums only. -/
theorem lane_keeps {ch : Fin 64} {e : Agent × GemmOp R} (he : e ∈ channelOps A base sess evens odds n ch) :
    (∃ b ti, e.1 = .lane ch b ti) ∧ Keeps (chanAt base n) ch e.2 := by
  obtain ⟨L, hL, he⟩ := List.mem_flatMap.mp he
  have hL := List.mem_range.mp hL
  have htile : ∀ side i_idx, (side, i_idx) ∈ bankTiles evens odds →
      e ∈ (tileEvents base ch (sess L) side i_idx).flatMap (laneOps A base) →
      (∃ b ti, e.1 = .lane ch b ti) ∧ Keeps (chanAt base n) ch e.2 := by
    intro side i_idx ht he
    obtain ⟨b, ti, hk, hwrites, hreads⟩ := mem_tile_ops (h.weight L hL) he
    refine ⟨⟨b, ti, hk⟩, fun x hx => .inl (Free.chanAt ?_), fun x hx => absurd hx (hwrites x)⟩
    obtain ⟨g, rfl | ⟨j, rfl⟩⟩ := hreads x hx
    · exact h.input_free L hL _ _ ht g
    · rw [hk]
      exact h.weight_free L hL ch b ti _ ht j g
  simp only [sessionEvents, List.flatMap_append, List.mem_append] at he
  rcases he with ((he | he) | he) | he
  · obtain ⟨ev, hev, he⟩ := List.mem_flatMap.mp he
    obtain ⟨-, -, rfl⟩ := List.mem_map.mp hev
    rw [laneOps, enter_access] at he
    obtain ⟨k, hk, rfl⟩ := List.mem_map.mp he
    exact ⟨mem_lanes.mp hk, fun _ => False.elim, fun _ => False.elim⟩
  · rw [List.flatMap_assoc] at he
    obtain ⟨i, hi, he⟩ := List.mem_flatMap.mp he
    exact htile .even i (List.mem_append_left _ (List.mem_map_of_mem hi)) he
  · rw [List.flatMap_assoc] at he
    obtain ⟨i, hi, he⟩ := List.mem_flatMap.mp he
    exact htile .odd i (List.mem_append_right _ (List.mem_map_of_mem hi)) he
  · obtain ⟨b, g, ti, rfl⟩ := (mem_sum_ops A h.partial_sum (h.cell L hL ch)).mp he
    refine ⟨⟨b, ti, rfl⟩, fun _ => False.elim, fun x hx => ?_⟩
    obtain rfl : _ = x := hx
    exact chanAt_cellHalf h hL ⟨ch, b, .odd, g⟩ rfl ti

/-- A thread reads the partial sums of its channel and writes its own outputs. -/
theorem thread_keeps {ch tid : Fin 64} {e : Agent × GemmOp R} (he : e ∈ threadOps A base args n ch tid) :
    e.1 = .thread ch tid ∧ Keeps (chanAt base n) ch e.2 ∧ Keeps (threadAt base n) tid e.2 := by
  obtain ⟨k, o⟩ := e
  obtain ⟨rfl, he⟩ := mem_by_thread.mp he
  obtain ⟨L, hL, ho⟩ := List.mem_flatMap.mp he
  have hL := List.mem_range.mp hL
  have hi : 4096 * L + (64 * (ch : ℕ) + tid) < 4096 * n := by omega
  have hchan := outChan_at L ch tid
  have htile : (4096 * L + (64 * (ch : ℕ) + tid)) / 4096 = L := by omega
  have htid : (4096 * L + (64 * (ch : ℕ) + tid)) % 64 = tid := by omega
  generalize 4096 * L + (64 * (ch : ℕ) + tid) = i at ho hi hchan htile htid
  have hreads : ∀ x, o.Reads x → (chanAt base n x = none ∨ chanAt base n x = some ch) ∧
      threadAt base n x = none := by
    intro x hx
    rcases (reduce_accesses ho x).1 hx with ⟨ti, rfl⟩ | ⟨bias, hbias, rfl⟩
    · rw [reduceAt_cell, htile]
      have hcell := isCell_cellHalf h.partial_sum hL (r := outCell i) rfl ti
      refine ⟨.inr ?_, if_neg fun hout => h.apart _ hout hcell⟩
      rw [chanAt_cellHalf h hL _ rfl, ← hchan]
      rfl
    · have hfree := h.bias_free bias hbias i hi
      exact ⟨.inl hfree.chanAt, if_neg hfree.1⟩
  have hwrites : ∀ x, o.Writes x → chanAt base n x = some ch ∧ threadAt base n x = some tid := by
    intro x hx
    obtain rfl := (reduce_accesses ho x).2 hx
    obtain ⟨hout, hidx⟩ := isOut_at base hi
    refine ⟨(if_pos hout).trans ?_, (if_pos hout).trans ?_⟩
    · rw [reduceAt, hidx, hchan]
    · simp only [reduceAt, hidx, htid]
  exact ⟨rfl, ⟨fun x hx => (hreads x hx).1, fun x hx => (hwrites x hx).1⟩,
    fun x hx => .inl (hreads x hx).2, fun x hx => (hwrites x hx).2⟩

/-! ### Channels -/

theorem stored_sum_congr {m m' : ℤ → R} (hm : ∀ x, ¬ IsOut base n x → m x = m' x) {i : ℕ}
    (hi : i < 4096 * n) :
    stored_sum A base args m (reduceAt i) i = stored_sum A base args m' (reduceAt i) i := by
  have hlanes : (fun ti : Fin 16 => m (base .pim_partial_sum + 2 * ((reduceAt i).cell + ti))) =
      fun ti : Fin 16 => m' (base .pim_partial_sum + 2 * ((reduceAt i).cell + ti)) := by
    funext ti
    rw [reduceAt_cell]
    have hcell := isCell_cellHalf h.partial_sum (L := i / 4096) (n := n) (by omega) (r := outCell i) rfl ti
    exact hm _ fun hout => h.apart _ hout hcell
  rw [stored_sum, stored_sum, hlanes]
  exact finish_sum_congr (fun bias hbias => hm _ (h.bias_free bias hbias i hi).1) _

omit h in
theorem nodup_blockOuts (ch : Fin 64) : (blockOuts n ch).Nodup := by
  refine List.Nodup.map (fun p q hpq => ?_) ((List.nodup_finRange 64).product List.nodup_range)
  exact Prod.ext (Fin.ext (by omega)) (by omega)

omit h in
theorem mem_blockOuts {ch : Fin 64} {i : ℕ} : i ∈ blockOuts n ch ↔ i < 4096 * n ∧ outChan i = ch := by
  constructor
  · intro hi
    obtain ⟨⟨tid, L⟩, hp, rfl⟩ := List.mem_map.mp hi
    have hL := List.mem_range.mp (List.mem_product.mp hp).2
    exact ⟨by simp only; omega, outChan_at L ch tid⟩
  · rintro ⟨hi, rfl⟩
    refine List.mem_map.mpr ⟨(⟨i % 64, by omega⟩, i / 4096), ?_, ?_⟩
    · exact List.mem_product.mpr ⟨List.mem_finRange _, List.mem_range.mpr (by omega)⟩
    · simp only [outChan]
      omega

omit h in
theorem flatMap_threadOps (ch : Fin 64) : (List.finRange 64).flatMap (threadOps A base args n ch) =
    (blockOuts n ch).flatMap (outOps A base args ch) := by
  simp only [blockOuts, SProd.sprod, List.product, List.flatMap_map, List.flatMap_assoc, List.map_flatMap]
  refine List.flatMap_congr fun tid _ => ?_
  rw [threadOps, by_thread, List.map_flatMap]
  refine List.flatMap_congr fun L _ => ?_
  have htid : (⟨(4096 * L + (64 * (ch : ℕ) + tid)) % 64, by omega⟩ : Fin 64) = tid :=
    Fin.ext (by simp only; omega)
  rw [outOps, htid]
  rfl

omit h in
theorem outAt_eq_some {x : ℤ} {i : ℕ} (hi : i < 4096 * n) :
    outAt base n x = some i ↔ x = base .output + 2 * i := by
  rw [outAt]
  constructor
  · intro hsome
    split_ifs at hsome with hout
    exact Option.some.inj hsome ▸ hout.eq.1
  · rintro rfl
    obtain ⟨hout, hidx⟩ := isOut_at base hi
    rw [if_pos hout, hidx]

omit h in
theorem outOps_mem {ch : Fin 64} {i : ℕ} (hi : i < 4096 * n) (s : GemmState R) :
    ((outOps A base args ch i).foldl step s).mem = fun x =>
      if outAt base n x = some i then summed A base args n s.mem x else s.mem x := by
  rw [outOps, reduce_mem]
  funext x
  simp only [outAt_eq_some hi]
  by_cases hx : x = base .output + 2 * i
  · obtain ⟨hout, hidx⟩ := isOut_at base hi
    subst hx
    rw [if_pos rfl, summed, if_pos hout, hidx]
    exact Function.update_self ..
  · rw [if_neg hx]
    exact Function.update_of_ne hx _ _

theorem summed_local (m m' : ℤ → R) (x : ℤ)
    (hm : ∀ y, outAt base n y = none ∨ outAt base n y = outAt base n x → m y = m' y) :
    summed A base args n m x = summed A base args n m' x := by
  rw [summed, summed]
  split_ifs with hx
  · exact stored_sum_congr h (fun y hy => hm y (.inl (if_neg hy))) hx.eq.2
  · exact hm x (.inr rfl)

/-- The threads of a block leave the outputs of the block, in whatever order they run. -/
theorem block_mem (ch : Fin 64) {w : List (Agent × GemmOp R)}
    (hw : Shuffle (List.finRange 64) (threadOps A base args n ch) w) (s : GemmState R) :
    (w.foldl step s).mem = fun x => if IsOut base n x ∧ outChan (outIdx base x) = ch then
      stored_sum A base args s.mem (reduceAt (outIdx base x)) (outIdx base x) else s.mem x := by
  rw [hw.foldl_eq (List.nodup_finRange 64) fun i _ j _ hij a ha b hb => by
    obtain ⟨hi, -, hkeep⟩ := thread_keeps h ha
    obtain ⟨hj, -, hkeep'⟩ := thread_keeps h hb
    obtain ⟨k, o⟩ := a
    obtain ⟨k', o'⟩ := b
    obtain rfl : k = _ := hi
    obtain rfl : k' = _ := hj
    exact independent (by simpa using hij) (hkeep.apart hkeep' hij)]
  rw [flatMap_threadOps, foldl_flatMap_mem (g := fun i m x => if outAt base n x = some i then
    summed A base args n m x else m x) fun i hi s => outOps_mem (mem_blockOuts.mp hi).1 s]
  funext x
  rw [foldl_owned (summed_local h) (nodup_blockOuts ch)]
  by_cases hout : IsOut base n x
  · have hat : outAt base n x = some (outIdx base x) := if_pos hout
    simp [hat, mem_blockOuts, hout, hout.eq.2, summed]
  · simp [outAt, hout]

/-- A channel's sessions and then its threads leave what the launch computes in what the channel writes. -/
theorem channel_block_mem (ch : Fin 64) {w : List (Agent × GemmOp R)}
    (hw : Shuffle (List.finRange 64) (threadOps A base args n ch) w) (s : GemmState R) :
    ((channelOps A base sess evens odds n ch ++ w).foldl step s).mem = fun x =>
      if chanAt base n x = some ch then multiplied A base args sess evens odds n s.mem x else s.mem x := by
  rw [List.foldl_append, block_mem h ch hw, channel_mem h]
  set left : ℤ → R := fun x => if IsCell base n x ∧ chanOf x = ch then
    partialAt A base sess evens odds s.mem (tileAt base x) (regOf x) (laneAt x) else s.mem x with hleft
  funext x
  by_cases hout : IsOut base n x
  · have hcell := h.apart x hout
    by_cases hchan : outChan (outIdx base x) = ch
    · obtain ⟨-, hidx⟩ := hout.eq
      have hlanes : (fun ti : Fin 16 => left (base .pim_partial_sum +
          2 * ((reduceAt (outIdx base x)).cell + ti))) = partialAt A base sess evens odds s.mem
            (outIdx base x / 4096) (outCell (outIdx base x)) := by
        funext ti
        have hL : outIdx base x / 4096 < n := by omega
        obtain ⟨hreg, hlane, htile⟩ := cellHalf_at h.partial_sum (outIdx base x / 4096)
          (outCell (outIdx base x)) ti
        rw [reduceAt_cell, hleft]
        simp only
        rw [if_pos ⟨isCell_cellHalf h.partial_sum hL rfl ti, (congrArg Reg.chan hreg).trans hchan⟩, hreg,
          hlane, htile]
      rw [if_pos ⟨hout, hchan⟩, chanAt, if_pos hout, if_pos (congrArg some hchan), multiplied, if_pos hout,
        stored_sum, hlanes]
      refine finish_sum_congr (fun bias hbias => ?_) _
      exact if_neg fun hc => (h.bias_free bias hbias _ hidx).2 hc.1
    · rw [if_neg fun hc => hchan hc.2, chanAt, if_pos hout, if_neg fun hc => hchan (Option.some.inj hc)]
      exact if_neg fun hc => hcell hc.1
  · rw [if_neg fun hc => hout hc.1, chanAt, if_neg hout, multiplied, if_neg hout, hleft]
    by_cases hcell : IsCell base n x <;> simp [hcell]

/-- What a launch computes in a half depends on the halves of its channel only. -/
theorem multiplied_local (m m' : ℤ → R) (x : ℤ)
    (hm : ∀ y, chanAt base n y = none ∨ chanAt base n y = chanAt base n x → m y = m' y) :
    multiplied A base args sess evens odds n m x = multiplied A base args sess evens odds n m' x := by
  have hfree : ∀ y, Free base n y → m y = m' y := fun y hy => hm y (.inl hy.chanAt)
  rw [multiplied, multiplied]
  split_ifs with hout hcell
  · have hidx := hout.eq.2
    have hlanes : partialAt A base sess evens odds m (outIdx base x / 4096) (outCell (outIdx base x)) =
        partialAt A base sess evens odds m' (outIdx base x / 4096) (outCell (outIdx base x)) :=
      funext fun ti => partialAt_congr h hfree (by omega) _ ti
    rw [hlanes]
    exact finish_sum_congr (fun bias hbias => hfree _ (h.bias_free bias hbias _ hidx)) _
  · exact partialAt_congr h hfree (hcell.eq h.partial_sum).2.2 _ _
  · exact hm x (.inr rfl)

/-- The events of a session are documented. -/
theorem session_fits {L : ℕ} (hL : L < n) {ch : Fin 64} {e : UnitEvent}
    (he : e ∈ sessionEvents base ch (sess L) evens odds) : UnitFits e := by
  have htile : ∀ side i_idx, e ∈ tileEvents base ch (sess L) side i_idx → UnitFits e := by
    intro side i_idx he
    rw [tileEvents, List.mem_append] at he
    rcases he with he | he
    · obtain ⟨g, -, rfl⟩ := List.mem_map.mp he
      exact .grf ch side g _ _
    · obtain ⟨j, -, he⟩ := List.mem_flatMap.mp he
      obtain ⟨g, -, rfl⟩ := List.mem_map.mp he
      refine .mac ?_
      rw [(weight_access (h.weight L hL) side i_idx j g).1.2.1]
      exact ⟨rfl, rfl, rfl, rfl, rfl⟩
  simp only [sessionEvents, sumEvents, List.mem_append] at he
  rcases he with ((he | he) | he) | (he | he) | he
  · obtain ⟨-, -, rfl⟩ := List.mem_map.mp he
    exact .enter ch
  · obtain ⟨i, -, he⟩ := List.mem_flatMap.mp he
    exact htile .even i he
  · obtain ⟨i, -, he⟩ := List.mem_flatMap.mp he
    exact htile .odd i he
  all_goals
    obtain ⟨g, -, rfl⟩ := List.mem_map.mp he
    exact .nop rfl

/-- The operations of a launch's event. -/
def LaunchEvent.ops (A : HalfArith R) (base : Buf → ℤ) : LaunchEvent R → List (Agent × GemmOp R)
  | .unit e => laneOps A base e
  | .access e => [e]

/-- A launch of sessions and sums leaves the products, however its channels and threads take turns. -/
theorem gemm_runs_mem {unit : UnitEvent → GemmState R → GemmState R} (hunit : MacDocumented A base unit)
    {program : List PimCommand} {kernel : ℕ → List Stmt}
    (hkernel : ∀ (ch : Fin 64) es, UnitRuns program base (kernel ch) es →
      es = (List.range n).flatMap fun L => sessionEvents base ch (sess L) evens odds)
    {sums : ℕ → ℕ → List (ReduceStep × ℤ)}
    (hsums : ∀ ch tid : Fin 64, sums ch tid = (List.range n).map fun L =>
      (reduceAt (4096 * L + (64 * ch + tid)), ((4096 * L + (64 * ch + tid) : ℕ) : ℤ)))
    {u : List (LaunchEvent R)} (hu : GemmRuns A base args program kernel sums u) (s : GemmState R) :
    launch_mem unit u s = multiplied A base args sess evens odds n s.mem := by
  obtain ⟨es, ws, hes, hws, hu⟩ := hu
  have hes : ∀ ch : Fin 64, es ch = (List.range n).flatMap fun L =>
      sessionEvents base ch (sess L) evens odds := fun ch => hkernel ch _ (hes ch)
  have hws : ∀ ch : Fin 64, Shuffle (List.finRange 64) (threadOps A base args n ch) (ws ch) := by
    intro ch
    have hw := hws ch
    simp only [hsums, List.flatMap_map] at hw
    exact hw
  -- every event of a unit is one of its sessions, and acts lane by lane
  have hops : u.foldl (LaunchEvent.act unit) s = (u.flatMap (LaunchEvent.ops A base)).foldl step s := by
    rw [List.foldl_flatMap]
    refine List.foldl_ext _ _ s fun s e he => ?_
    cases e with
    | access e => rfl
    | unit e =>
      obtain ⟨ch, -, he⟩ := hu.mem he
      have he : e ∈ es ch := by simpa using he
      rw [hes] at he
      obtain ⟨L, hL, he⟩ := List.mem_flatMap.mp he
      exact hunit.unit_eq (session_fits h (List.mem_range.mp hL) he) s
  have hchannel : ∀ ch : Fin 64, ((es ch).map LaunchEvent.unit ++ (ws ch).map LaunchEvent.access).flatMap
      (LaunchEvent.ops A base) = channelOps A base sess evens odds n ch ++ ws ch := by
    intro ch
    have hunits : ((es ch).map LaunchEvent.unit).flatMap (LaunchEvent.ops A base) =
        channelOps A base sess evens odds n ch := by
      rw [hes, List.flatMap_map, List.flatMap_assoc]
      rfl
    have haccess : ((ws ch).map LaunchEvent.access).flatMap (LaunchEvent.ops A base) = ws ch := by
      rw [List.flatMap_map]
      exact List.flatMap_singleton' (ws ch)
    rw [List.flatMap_append, hunits, haccess]
  have hshuffle := hu.flatMap (LaunchEvent.ops A base)
  simp only [hchannel] at hshuffle
  have hkeeps : ∀ ch : Fin 64, ∀ e ∈ channelOps A base sess evens odds n ch ++ ws ch,
      agentChan e.1 = ch ∧ Keeps (chanAt base n) ch e.2 := by
    intro ch e he
    rcases List.mem_append.mp he with he | he
    · obtain ⟨⟨b, ti, hk⟩, hkeep⟩ := lane_keeps h he
      exact ⟨by rw [hk]; rfl, hkeep⟩
    · obtain ⟨tid, -, he⟩ := (hws ch).mem he
      obtain ⟨hk, hkeep, -⟩ := thread_keeps h he
      exact ⟨by rw [hk]; rfl, hkeep⟩
  -- so the channels may run one after another, and each brings its own halves up to date
  rw [launch_mem, hops, hshuffle.foldl_eq (List.nodup_finRange 64) fun i _ j _ hij a ha b hb => by
    obtain ⟨hi, hkeep⟩ := hkeeps i a ha
    obtain ⟨hj, hkeep'⟩ := hkeeps j b hb
    obtain ⟨k, o⟩ := a
    obtain ⟨k', o'⟩ := b
    exact independent (fun hk => hij (by rw [← hi, ← hj, hk])) (hkeep.apart hkeep' hij)]
  rw [foldl_flatMap_mem (g := fun ch m x => if chanAt base n x = some ch then
    multiplied A base args sess evens odds n m x else m x) fun ch _ s => channel_block_mem h ch (hws ch) s]
  funext x
  rw [foldl_owned (multiplied_local h) (List.nodup_finRange 64)]
  by_cases hx : ∃ ch ∈ List.finRange 64, chanAt base n x = some ch
  · rw [if_pos hx]
  · have hnone : ¬ IsOut base n x ∧ ¬ IsCell base n x := by
      constructor
      · exact fun hout => hx ⟨_, List.mem_finRange _, if_pos hout⟩
      · intro hcell
        refine hx ⟨chanOf x, List.mem_finRange _, ?_⟩
        rw [chanAt, if_neg fun hout => h.apart x hout hcell, if_pos hcell]
    rw [if_neg hx, multiplied, if_neg hnone.1, if_neg hnone.2]

end Launch

end PimLibrary.Executor
