import PimLibrary.Executor.GemmDispatch

/-! The shapes of the operands around a `W_X_I` product.

    `set_pimbo_t` swaps the sides of four pointers' objects in place, one pointer after the other. An
    object that several pointers name is swapped several times: it is back in its old form after an even
    number of times, so the launch reads it unswapped. The second call undoes the first in any case. -/

namespace PimLibrary.Executor
open PimLibrary.Device PimLibrary.Kernel
open PimLibrary.Runtime.Ownership (KernelType)

/-! ### Updates in place -/

section InPlace

variable {α β : Type*} [DecidableEq α] {f : β → β}

/-- Apply `f` to the objects at the pointers, in turn. -/
def applyAt (f : β → β) (ps : List α) (s : α → β) : α → β :=
  ps.foldl (fun s p => Function.update s p (f (s p))) s

/-- An object has been changed once for each pointer to it. -/
theorem applyAt_apply (ps : List α) (s : α → β) (p : α) : applyAt f ps s p = f^[ps.count p] (s p) := by
  induction ps generalizing s with
  | nil => rfl
  | cons q ps ih =>
    rw [applyAt, List.foldl_cons]
    refine (ih _).trans ?_
    rcases eq_or_ne q p with rfl | hne
    · rw [Function.update_self, List.count_cons_self, Function.iterate_succ_apply]
    · rw [Function.update_of_ne hne.symm, List.count_cons_of_ne hne]

/-- The second pass undoes the first. -/
theorem applyAt_applyAt (hf : Function.Involutive f) (ps : List α) (s : α → β) :
    applyAt f ps (applyAt f ps s) = s := by
  funext p
  rw [applyAt_apply, applyAt_apply, ← Function.iterate_add_apply, hf.iterate_even ⟨_, rfl⟩, id]

end InPlace

/-! ### The call with pointers -/

/-- The buffer objects by address. Any of them may be the weight, so each has a layout. -/
abbrev Objects : Type := ℕ → GemmWeight

/-- The arguments of `execute_gemm`; pointers may be equal. -/
structure GemmPtrs where
  output : ℕ
  input : ℕ
  weight : ℕ
  bias : Option ℕ
  act_func : PimActFunc

/-- `set_pimbo_t` of one object. -/
def GemmWeight.t (bo : GemmWeight) : GemmWeight := ⟨set_pimbo_t bo.toPimBo, bo.data_layout_type⟩

/-- `set_pimbo_t(bo0, bo1, bo2, bo3)`; a null pointer is passed over. -/
def set_pimbo_t_all (bo0 bo1 bo2 bo3 : Option ℕ) (s : Objects) : Objects :=
  applyAt GemmWeight.t (bo0.toList ++ bo1.toList ++ bo2.toList ++ bo3.toList) s

/-- What the launch finds at the pointers. -/
def GemmPtrs.load (x : GemmPtrs) (s : Objects) : GemmOperands where
  output := (s x.output).toPimBo
  input := (s x.input).toPimBo
  weight := s x.weight
  bias := x.bias.map fun p => (s p).toPimBo
  act_func := x.act_func

/-- A run of the PIM path: the objects as the launch sees them and as the call leaves them, and the
    launch. -/
structure PimRun where
  during : Objects
  after : Objects
  call : Option GemmCall

section Calls

-- `preload` is `get_preloaded_pim_gemm_weight`, whose object is in the store as soon as there is one.
variable (preload : ℕ → PimGemmOrder → Option ℕ) (kernel_type_ : KernelType)
  (gemm_order_ : PimGemmOrder)

/-- A layout other than RAW is assumed to be the right one. -/
def pim_wei_ptr (x : GemmPtrs) (s : Objects) : Option ℕ :=
  if (s x.weight).data_layout_type = .RAW then preload x.weight gemm_order_ else some x.weight

/-- The PIM path with its weight. -/
def pim_path_run (x : GemmPtrs) (s : Objects) (pim_wei : ℕ) : PimRun :=
  let swap := fun s : Objects =>
    if gemm_order_ = .W_X_I then set_pimbo_t_all (some x.input) (some pim_wei) x.bias
      (some x.output) s else s
  let during := swap s
  { during := during
    after := swap during
    call := Hip.execute_hip_gemm ({ x with weight := pim_wei }.load during) }

/-- `none` where the PIM path is not taken, or has no weight. -/
def execute_gemm_run (x : GemmPtrs) (s : Objects) : Option PimRun :=
  let path := (pim_wei_ptr preload gemm_order_ x s).map (pim_path_run gemm_order_ x s)
  match kernel_type_ with
  | .CUSTOM_GPU => none
  | .PIM => path
  | .OPTIMAL => if weight_applicable gemm_order_ (s x.weight) then path else none

end Calls

/-- The objects that the path works on, once for each pointer. -/
def operands (x : GemmPtrs) (pim_wei : ℕ) : List ℕ := [x.input, pim_wei] ++ x.bias.toList ++ [x.output]

/-- The launch sees every operand with its sides swapped, and afterwards every object is as before. -/
structure ShapesRight (x : GemmPtrs) (pim_wei : ℕ) (s : Objects) (run : PimRun) : Prop where
  during : ∀ p ∈ operands x pim_wei, run.during p = (s p).t
  after : run.after = s

/-- Both shapes are square. -/
def SquareBo (bo : PimBo) : Prop := bo.bshape.h = bo.bshape.w ∧ bo.bshape_r.h = bo.bshape_r.w

theorem GemmWeight.t_involutive : Function.Involutive GemmWeight.t := fun _ => rfl

theorem GemmWeight.t_eq_self_iff (bo : GemmWeight) : bo = bo.t ↔ SquareBo bo.toPimBo := by
  rcases bo with ⟨⟨⟨n, c, h, w⟩, ⟨n_r, c_r, h_r, w_r⟩, precision⟩, layout⟩
  simp only [GemmWeight.t, set_pimbo_t, PimBShape.t, SquareBo, GemmWeight.mk.injEq, PimBo.mk.injEq,
    PimBShape.mk.injEq, true_and, and_true]
  constructor
  · rintro ⟨⟨rfl, -⟩, rfl, -⟩
    exact ⟨rfl, rfl⟩
  · rintro ⟨rfl, rfl⟩
    exact ⟨⟨rfl, rfl⟩, rfl, rfl⟩

section Runs

variable {preload : ℕ → PimGemmOrder → Option ℕ} {kernel_type_ : KernelType} {x : GemmPtrs}
  {s : Objects}

theorem during_eq (x : GemmPtrs) (s : Objects) (pim_wei : ℕ) :
    (pim_path_run .W_X_I x s pim_wei).during = applyAt GemmWeight.t (operands x pim_wei) s := rfl

/-- The call leaves every object as it was, whichever pointers are equal. -/
theorem after_eq (x : GemmPtrs) (s : Objects) (pim_wei : ℕ) :
    (pim_path_run .W_X_I x s pim_wei).after = s :=
  applyAt_applyAt GemmWeight.t_involutive (operands x pim_wei) s

/-- The launch sees an object swapped exactly when an odd number of pointers name it, or when it is
    square. -/
theorem during_eq_t_iff (x : GemmPtrs) (s : Objects) (pim_wei p : ℕ) :
    (pim_path_run .W_X_I x s pim_wei).during p = (s p).t ↔
      Odd ((operands x pim_wei).count p) ∨ SquareBo (s p).toPimBo := by
  rw [during_eq, applyAt_apply]
  rcases Nat.even_or_odd ((operands x pim_wei).count p) with heven | hodd
  · rw [GemmWeight.t_involutive.iterate_even heven, id, GemmWeight.t_eq_self_iff,
      or_iff_right (Nat.not_odd_iff_even.mpr heven)]
  · rw [GemmWeight.t_involutive.iterate_odd hodd]
    exact iff_of_true rfl (Or.inl hodd)

/-- With four different objects the launch finds all of them swapped. -/
theorem load_during (hdistinct : (operands x x.weight).Nodup) :
    x.load (pim_path_run .W_X_I x s x.weight).during = (x.load s).t := by
  have hswap : ∀ p ∈ operands x x.weight, (pim_path_run .W_X_I x s x.weight).during p = (s p).t := by
    intro p hp
    rw [during_eq_t_iff, List.count_eq_one_of_mem hdistinct hp]
    exact Or.inl odd_one
  have hbias : x.bias.map (fun p => ((pim_path_run .W_X_I x s x.weight).during p).toPimBo) =
      (x.bias.map fun p => (s p).toPimBo).map set_pimbo_t := by
    rcases hb : x.bias with - | b
    · rfl
    · rw [Option.map_some, hswap b (by simp [operands, hb])]
      rfl
  rw [GemmPtrs.load, hbias, hswap x.output (by simp [operands]), hswap x.input (by simp [operands]),
    hswap x.weight (by simp [operands])]
  rfl

/-- Then the pointers make no difference to the launch. -/
theorem call_eq_pim_path (preload : GemmWeight → PimGemmOrder → Option GemmWeight)
    (hdistinct : (operands x x.weight).Nodup) (hlayout : (s x.weight).data_layout_type ≠ .RAW) :
    (pim_path_run .W_X_I x s x.weight).call = Hip.pim_path preload .W_X_I (x.load s) := by
  have hwei : pim_wei preload .W_X_I (x.load s).weight = some (s x.weight) := if_neg hlayout
  rw [Hip.pim_path, hwei]
  exact congrArg Hip.execute_hip_gemm (load_during hdistinct)

theorem run_eq_of_path {gemm_order_ : PimGemmOrder} {run : PimRun}
    (hrun : execute_gemm_run preload kernel_type_ gemm_order_ x s = some run) :
    ∃ pim_wei, pim_wei_ptr preload gemm_order_ x s = some pim_wei ∧
      run = pim_path_run gemm_order_ x s pim_wei := by
  have hpath : (pim_wei_ptr preload gemm_order_ x s).map (pim_path_run gemm_order_ x s) = some run := by
    cases kernel_type_ with
    | CUSTOM_GPU => simp [execute_gemm_run] at hrun
    | PIM => exact hrun
    | OPTIMAL =>
      simp only [execute_gemm_run] at hrun
      split_ifs at hrun
      exact hrun
  obtain ⟨pim_wei, hwei, heq⟩ := Option.map_eq_some_iff.mp hpath
  exact ⟨pim_wei, hwei, heq.symm⟩

end Runs

/-- On the PIM path of a `W_X_I` product the shapes are right exactly when every operand that is not
    square is named by an odd number of pointers. -/
theorem operand_shapes_iff (preload : ℕ → PimGemmOrder → Option ℕ) (kernel_type_ : KernelType)
    (x : GemmPtrs)
    (s : Objects) (run : PimRun) (pim_wei : ℕ) (hwei : pim_wei_ptr preload .W_X_I x s = some pim_wei)
    (hrun : execute_gemm_run preload kernel_type_ .W_X_I x s = some run) :
    ShapesRight x pim_wei s run ↔
      ∀ p ∈ operands x pim_wei, Odd ((operands x pim_wei).count p) ∨ SquareBo (s p).toPimBo := by
  obtain ⟨w, hw, rfl⟩ := run_eq_of_path hrun
  obtain rfl : w = pim_wei := Option.some.inj (hw.symm.trans hwei)
  constructor
  · intro h p hp
    exact (during_eq_t_iff x s w p).mp (h.during p hp)
  · intro h
    exact ⟨fun p hp => (during_eq_t_iff x s w p).mpr (h p hp), after_eq x s w⟩

/-- Outputs and a bias of 4096 rows, a vector of 256, and the weight between them. -/
def vectorObjects : Objects
  | 0 | 3 => ⟨PimCreateBo ⟨1, 1, 4096, 1⟩, .RAW⟩
  | 1 => ⟨PimCreateBo ⟨1, 1, 256, 1⟩, .RAW⟩
  | _ => ⟨PimCreateBo ⟨1, 1, 4096, 256⟩, .ALIGNED_GEMM_WEIGHT⟩

/-- With a bias of its own. -/
theorem operand_shapes_distinct :
    let x : GemmPtrs := ⟨0, 1, 2, some 3, .NONE⟩
    ShapesRight x 2 vectorObjects (pim_path_run .W_X_I x vectorObjects 2) ↔
      ∀ p ∈ operands x 2, Odd ((operands x 2).count p) ∨ SquareBo (vectorObjects p).toPimBo :=
  operand_shapes_iff (fun _ _ => none) .PIM ⟨0, 1, 2, some 3, .NONE⟩ vectorObjects _ 2 rfl rfl

/-- With the output as its bias the launch sees a 4096 by 1 output, as the caller does. -/
theorem operand_shapes_aliased :
    let x : GemmPtrs := ⟨0, 1, 2, some 0, .NONE⟩
    execute_gemm_run (fun _ _ => none) .PIM .W_X_I x vectorObjects =
      some (pim_path_run .W_X_I x vectorObjects 2) ∧
      ((pim_path_run .W_X_I x vectorObjects 2).during 0).bshape = ⟨1, 1, 4096, 1⟩ ∧
      ((pim_path_run .W_X_I x vectorObjects 2).during 1).bshape = ⟨1, 1, 1, 256⟩ ∧
      ¬ ShapesRight x 2 vectorObjects (pim_path_run .W_X_I x vectorObjects 2) := by
  refine ⟨rfl, by decide, by decide, fun h => ?_⟩
  have hout := h.during 0 (by decide)
  exact absurd (congrArg (fun bo => bo.bshape) hout) (by decide)

end PimLibrary.Executor
