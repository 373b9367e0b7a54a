import PimLibrary.Device.GemmDesc
import PimLibrary.Kernel.Gemm
import PimLibrary.Runtime.Ownership

/-! `execute_gemm` of the two executors, down to the kernel launch.

    The kernels are implemented for `I_X_W` operands. The HIP executor brings the operands of a `W_X_I`
    product into that form before it reads their shapes and puts them back afterwards; the OpenCL
    executor reads them as they are. From there on the two are the same code, so they launch the same
    call when nothing that is read notices the swap. -/

namespace PimLibrary.Executor
open Schemes.Word PimLibrary.Device PimLibrary.Kernel
open PimLibrary.Runtime.Ownership (KernelType)

attribute [local irreducible] int32

inductive PimDataLayoutType where
  | RAW | CHWISE_GEMM_WEIGHT | ALIGNED_GEMM_WEIGHT
  deriving DecidableEq, Repr

structure GemmWeight extends PimBo where
  data_layout_type : PimDataLayoutType
  deriving DecidableEq, Repr

/-- The arguments of `execute_gemm`, four different objects. -/
structure GemmOperands where
  output : PimBo
  input : PimBo
  weight : GemmWeight
  bias : Option PimBo
  act_func : PimActFunc
  deriving DecidableEq, Repr

inductive GemmKernel where
  | pim_aligned_gemm_bias_relu_8tile_fp16
  | pim_aligned_gemm_bias_relu_fp16
  | pim_chwise_gemm_bias_relu_32tile_fp16
  | pim_chwise_gemm_bias_relu_fp16

/-- A kernel launch. `crf_data_size` is the key of the program with `OP_GEMV`: the generator finds the
    program under it or makes it from it. -/
structure GemmCall where
  gemm_kernel : GemmKernel
  args : GemmLaunch
  is_bias : Bool
  is_relu : Bool
  crf_data_size : ℤ
  crf_size : ℤ

/-- `set_pimbo_t(input, pim_wei, bias, output)`. -/
def GemmOperands.t (x : GemmOperands) : GemmOperands where
  output := set_pimbo_t x.output
  input := set_pimbo_t x.input
  weight := ⟨set_pimbo_t x.weight.toPimBo, x.weight.data_layout_type⟩
  bias := x.bias.map set_pimbo_t
  act_func := x.act_func

/-! ### The launches -/

/-- What both `.._tile_accum` functions pass on besides the shapes. -/
def gemm_call (gemm_kernel : ℤ → GemmKernel) (crf_size : ℤ) (x : GemmOperands) (args : GemmLaunch) :
    GemmCall where
  gemm_kernel := gemm_kernel args.n_in_tile
  args := args
  is_bias := x.bias.isSome
  is_relu := x.act_func = .ACT_RELU
  crf_data_size := int32 (x.input.bshape.w.toNat * 2 : ℕ)
  crf_size := crf_size

/-- The aligned call with its `switch (n_in_tile)`. -/
def aligned_call (crf_size : ℤ) (x : GemmOperands) : GemmCall :=
  gemm_call
    (fun n_in_tile =>
      if n_in_tile = 8 then .pim_aligned_gemm_bias_relu_8tile_fp16
        else .pim_aligned_gemm_bias_relu_fp16)
    crf_size x (execute_aligned_gemm_tile_accum x.output.bshape x.input.bshape x.weight.bshape)

/-- The channel-wise call; `none` is a division by zero. -/
def chwise_call (crf_size : ℤ) (x : GemmOperands) : Option GemmCall :=
  (execute_chwise_gemm_tile_accum x.output.bshape x.input.bshape x.weight.bshape).map <|
    gemm_call
      (fun n_in_tile =>
        if n_in_tile = 32 then .pim_chwise_gemm_bias_relu_32tile_fp16
          else .pim_chwise_gemm_bias_relu_fp16)
      crf_size x

/-- A weight that is still raw launches nothing. -/
def layout_call (chwise : GemmOperands → Option GemmCall) (aligned : GemmOperands → GemmCall)
    (x : GemmOperands) :
    Option GemmCall :=
  match x.weight.data_layout_type with
  | .CHWISE_GEMM_WEIGHT => chwise x
  | .ALIGNED_GEMM_WEIGHT => some (aligned x)
  | .RAW => none

/-! ### The two executors -/

abbrev CRF_BIN_SIZE : ℤ := 32

section Executors

-- `preload` is `get_preloaded_pim_gemm_weight` of the runtime, which both executors call, for whatever
-- the cache, the memory and the data are.
variable (preload : GemmWeight → PimGemmOrder → Option GemmWeight) (kernel_type_ : KernelType)
  (gemm_order_ : PimGemmOrder)

/-- A layout other than RAW is assumed to be the right one. -/
def pim_wei (weight : GemmWeight) : Option GemmWeight :=
  if weight.data_layout_type = .RAW then preload weight gemm_order_ else some weight

/-- `is_pim_applicable(weight, gemm_order)`. -/
def weight_applicable (weight : GemmWeight) : Bool :=
  if weight.data_layout_type ≠ .RAW then true else is_pim_applicable weight.bshape_r gemm_order_

namespace Hip

def execute_aligned_gemm_tile_accum : GemmOperands → GemmCall := aligned_call 32

def execute_chwise_gemm_tile_accum : GemmOperands → Option GemmCall := chwise_call 32

def execute_hip_gemm : GemmOperands → Option GemmCall :=
  layout_call execute_chwise_gemm_tile_accum execute_aligned_gemm_tile_accum

/-- What the PIM path launches; it leaves the operands as they were, see `t_t`. -/
def pim_path (x : GemmOperands) : Option GemmCall := do
  let pim_wei ← pim_wei preload gemm_order_ x.weight
  let x := { x with weight := pim_wei }
  -- gemm kernel is implemented based on I_X_W order
  let x := if gemm_order_ = .W_X_I then x.t else x
  execute_hip_gemm x

/-- `none` where no PIM kernel is launched. -/
def execute_gemm (x : GemmOperands) : Option GemmCall :=
  match kernel_type_ with
  | .CUSTOM_GPU => none
  | .PIM => pim_path preload gemm_order_ x
  | .OPTIMAL => if weight_applicable gemm_order_ x.weight then pim_path preload gemm_order_ x else none

end Hip

namespace Ocl

def execute_aligned_gemm_tile_accum : GemmOperands → GemmCall := aligned_call CRF_BIN_SIZE

def execute_chwise_gemm_tile_accum : GemmOperands → Option GemmCall := chwise_call CRF_BIN_SIZE

def execute_ocl_gemm : GemmOperands → Option GemmCall :=
  layout_call execute_chwise_gemm_tile_accum execute_aligned_gemm_tile_accum

def pim_path (x : GemmOperands) : Option GemmCall := do
  let pim_wei ← pim_wei preload gemm_order_ x.weight
  execute_ocl_gemm { x with weight := pim_wei }

/-- `none` where no PIM kernel is launched. -/
def execute_gemm (x : GemmOperands) : Option GemmCall :=
  match kernel_type_ with
  | .CUSTOM_GPU => none
  | .PIM => pim_path preload gemm_order_ x
  | .OPTIMAL => if weight_applicable gemm_order_ x.weight then pim_path preload gemm_order_ x else none

end Ocl

end Executors

/-! ### What the swap changes -/

/-- Both the input and the output are square. -/
def Square (x : GemmOperands) : Prop :=
  x.input.bshape.h = x.input.bshape.w ∧ x.output.bshape.h = x.output.bshape.w

/-- A channel-wise tile holds at least one vector of this length. -/
def FitsTile (w : UInt32) : Prop := w ≠ 0 ∧ w ≤ 4096

/-- The operands read the same with their sides swapped: input and output are square, and the weight
    makes as many tiles of one side as of the other. -/
def SidesAgree (x : GemmOperands) : Prop :=
  let s := x.weight.bshape
  match x.weight.data_layout_type with
  | .RAW => True
  | .ALIGNED_GEMM_WEIGHT => Square x ∧ s.n * s.c * s.h / 4096 = s.n * s.c * s.w / 4096
  | .CHWISE_GEMM_WEIGHT =>
    (FitsTile s.h ↔ FitsTile s.w) ∧
      (FitsTile s.w → Square x ∧ s.n * s.c / (4096 / s.h) = s.n * s.c / (4096 / s.w))

/-- The second `set_pimbo_t` undoes the first. -/
theorem t_t (x : GemmOperands) : x.t.t = x := by
  have hbias : ∀ bias : Option PimBo, (bias.map set_pimbo_t).map set_pimbo_t = bias := by
    intro bias
    cases bias <;> rfl
  simp only [GemmOperands.t, hbias]
  rfl

theorem int32_toNat_inj {m n : UInt32} : int32 (m.toNat : ℤ) = int32 (n.toNat : ℤ) ↔ m = n := by
  refine ⟨fun h => ?_, fun h => h ▸ rfl⟩
  have heq := congrArg toUint32 h
  rw [toUint32_int32, toUint32_int32, uint32_of_lt m.toNat_lt, uint32_of_lt n.toNat_lt] at heq
  exact UInt32.toNat_inj.mp heq

theorem fitsTile_iff {w : UInt32} : FitsTile w ↔ ¬ (w = 0 ∨ 4096 / w = 0) := by
  rw [not_or, FitsTile]
  refine and_congr_right fun hw => ?_
  have hpos : w.toNat ≠ 0 := fun h => hw (UInt32.toNat_inj.mp h)
  rw [UInt32.le_iff_toNat_le, ← UInt32.toNat_inj, UInt32.toNat_div]
  change w.toNat ≤ 4096 ↔ ¬ 4096 / w.toNat = 0
  rw [Nat.div_eq_zero_iff]
  omega

/-- Equal arguments have read the same input and output sides. -/
theorem square_of_args {x : GemmOperands} {a b : GemmLaunch} (hargs : a = b)
    (ha : a.in_w = int32 x.input.bshape.h.toNat ∧ a.out_w = int32 x.output.bshape.h.toNat)
    (hb : b.in_w = int32 x.input.bshape.w.toNat ∧ b.out_w = int32 x.output.bshape.w.toNat) :
      Square x := by
  subst hargs
  exact ⟨int32_toNat_inj.mp (ha.1.symm.trans hb.1), int32_toNat_inj.mp (ha.2.symm.trans hb.2)⟩

theorem gemm_call_t {x : GemmOperands} (hin : x.input.bshape.h = x.input.bshape.w)
    (kernel : ℤ → GemmKernel)
    (k : ℤ) (args : GemmLaunch) : gemm_call kernel k x.t args = gemm_call kernel k x args := by
  simp only [gemm_call, GemmOperands.t, set_pimbo_t, PimBShape.t, Option.isSome_map, hin]

/-- The aligned launch notices the swap unless the sides agree. -/
theorem aligned_call_t (k : ℤ) (x : GemmOperands) :
    aligned_call k x.t = aligned_call k x ↔
      Square x ∧
        x.weight.bshape.n * x.weight.bshape.c * x.weight.bshape.h / 4096 =
          x.weight.bshape.n * x.weight.bshape.c * x.weight.bshape.w / 4096 := by
  constructor
  · intro h
    have hargs := congrArg GemmCall.args h
    have hiter := congrArg GemmLaunch.iter_cnt hargs
    exact ⟨square_of_args hargs ⟨rfl, rfl⟩ ⟨rfl, rfl⟩, int32_toNat_inj.mp hiter⟩
  · rintro ⟨hsquare, hiter⟩
    have hargs : execute_aligned_gemm_tile_accum x.t.output.bshape x.t.input.bshape x.t.weight.bshape =
        execute_aligned_gemm_tile_accum x.output.bshape x.input.bshape x.weight.bshape := by
      simp only [execute_aligned_gemm_tile_accum, in_tile_cnt, GemmOperands.t, set_pimbo_t, PimBShape.t,
        hsquare.1, hsquare.2, hiter]
    rw [aligned_call, aligned_call, hargs, gemm_call_t hsquare.1]

/-- The channel-wise launch where its divisions are defined. -/
theorem chwise_launch_of_fits {output input weight : PimBShape} (hw : FitsTile weight.w) :
    execute_chwise_gemm_tile_accum output input weight = some {
      iter_cnt := int32 (weight.n * weight.c / (4096 / weight.w)).toNat
      inout_h := int32 input.h.toNat
      in_w := int32 input.w.toNat
      out_w := int32 output.w.toNat
      n_in_tile := in_tile_cnt input
      n_out_tile := 1 } :=
  if_neg (fitsTile_iff.mp hw)

theorem chwise_launch_of_not_fits {output input weight : PimBShape} (hw : ¬ FitsTile weight.w) :
    execute_chwise_gemm_tile_accum output input weight = none :=
  if_pos (not_not.mp (mt fitsTile_iff.mpr hw))

/-- The channel-wise launch notices the swap unless the sides agree. -/
theorem chwise_call_t (k : ℤ) (x : GemmOperands) :
    chwise_call k x.t = chwise_call k x ↔
      (FitsTile x.weight.bshape.h ↔ FitsTile x.weight.bshape.w) ∧
        (FitsTile x.weight.bshape.w → Square x ∧
          x.weight.bshape.n * x.weight.bshape.c / (4096 / x.weight.bshape.h) =
            x.weight.bshape.n * x.weight.bshape.c / (4096 / x.weight.bshape.w)) := by
  have hside : x.t.weight.bshape.w = x.weight.bshape.h := rfl
  rw [chwise_call, chwise_call]
  by_cases hh : FitsTile x.weight.bshape.h <;> by_cases hw : FitsTile x.weight.bshape.w
  · rw [chwise_launch_of_fits (hside ▸ hh), chwise_launch_of_fits hw, Option.map_some, Option.map_some,
      Option.some_inj]
    simp only [hh, hw, true_and, true_implies]
    constructor
    · intro h
      have hargs := congrArg GemmCall.args h
      have hiter := congrArg GemmLaunch.iter_cnt hargs
      exact ⟨square_of_args hargs ⟨rfl, rfl⟩ ⟨rfl, rfl⟩, int32_toNat_inj.mp hiter⟩
    · rintro ⟨hsquare, hiter⟩
      rw [gemm_call_t hsquare.1]
      simp only [in_tile_cnt, GemmOperands.t, set_pimbo_t, PimBShape.t, hsquare.1, hsquare.2, hiter]
  · rw [chwise_launch_of_fits (hside ▸ hh), chwise_launch_of_not_fits hw]
    simp [hh, hw]
  · rw [chwise_launch_of_not_fits (hside ▸ hh), chwise_launch_of_fits hw]
    simp [hh, hw]
  · rw [chwise_launch_of_not_fits (hside ▸ hh), chwise_launch_of_not_fits hw]
    simp [hh, hw]

/-- Whatever the layout of the weight, the call survives the swap exactly when the sides agree. -/
theorem layout_call_t (k : ℤ) (x : GemmOperands) :
    layout_call (chwise_call k) (aligned_call k) x.t = layout_call (chwise_call k) (aligned_call k) x ↔
      SidesAgree x := by
  have hlayout : x.t.weight.data_layout_type = x.weight.data_layout_type := rfl
  rw [layout_call, layout_call, SidesAgree, hlayout]
  cases x.weight.data_layout_type with
  | RAW => exact iff_of_true rfl trivial
  | CHWISE_GEMM_WEIGHT => exact chwise_call_t k x
  | ALIGNED_GEMM_WEIGHT =>
    refine Iff.trans ?_ (aligned_call_t k x)
    exact Option.some_inj

/-! ### Agreement -/

section Agreement

variable (preload : GemmWeight → PimGemmOrder → Option GemmWeight) (kernel_type_ : KernelType)
  (gemm_order_ : PimGemmOrder) (x : GemmOperands)

/-- The PIM path is taken, with a weight to multiply by. -/
def OnPimPath (w : GemmWeight) : Prop :=
  (match kernel_type_ with
    | .CUSTOM_GPU => False
    | .PIM => True
    | .OPTIMAL => weight_applicable gemm_order_ x.weight = true) ∧
  pim_wei preload gemm_order_ x.weight = some w

theorem pim_path_iff :
    Ocl.pim_path preload gemm_order_ x = Hip.pim_path preload gemm_order_ x ↔
      ∀ w, pim_wei preload gemm_order_ x.weight = some w → gemm_order_ = .W_X_I →
        SidesAgree { x with weight := w } := by
  rw [Ocl.pim_path, Hip.pim_path]
  cases pim_wei preload gemm_order_ x.weight with
  | none => simp
  | some w =>
    cases gemm_order_ with
    | I_X_W =>
      simp only [reduceCtorEq, false_implies, implies_true, iff_true]
      rfl
    | W_X_I =>
      simp only [Option.some_inj, forall_eq', true_implies]
      rw [← layout_call_t 32]
      exact eq_comm

/-- The two executors launch the same kernel call exactly when the order is `I_X_W` or the operands read
    the same with their sides swapped. -/
theorem executors_agree_iff :
    Ocl.execute_gemm preload kernel_type_ gemm_order_ x = Hip.execute_gemm preload kernel_type_
      gemm_order_ x ↔
      ∀ w, OnPimPath preload kernel_type_ gemm_order_ x w → gemm_order_ = .W_X_I →
        SidesAgree { x with weight := w } := by
  cases kernel_type_ with
  | CUSTOM_GPU => simp [Ocl.execute_gemm, Hip.execute_gemm, OnPimPath]
  | PIM => simpa [Ocl.execute_gemm, Hip.execute_gemm, OnPimPath] using pim_path_iff preload gemm_order_ x
  | OPTIMAL =>
    by_cases happ : weight_applicable gemm_order_ x.weight = true
    · simpa [Ocl.execute_gemm, Hip.execute_gemm, OnPimPath, happ] using pim_path_iff preload gemm_order_ x
    · simp [Ocl.execute_gemm, Hip.execute_gemm, OnPimPath, happ]

end Agreement

/-- A `W_X_I` product of a 4096 x 256 weight with one vector. -/
def vectorProduct : GemmOperands where
  output := PimCreateBo ⟨1, 1, 4096, 1⟩
  input := PimCreateBo ⟨1, 1, 256, 1⟩
  weight := ⟨PimCreateBo ⟨1, 1, 4096, 256⟩, .ALIGNED_GEMM_WEIGHT⟩
  bias := none
  act_func := .NONE

/-- The OpenCL executor launches it over no tiles at all. -/
theorem vector_product_launches :
    (Ocl.execute_gemm (fun _ _ => none) .PIM .W_X_I vectorProduct).map
        (fun call => (call.args.iter_cnt, call.args.n_in_tile, call.args.n_out_tile)) = some (0, 0, 0) ∧
      (Hip.execute_gemm (fun _ _ => none) .PIM .W_X_I vectorProduct).map
        (fun call => (call.args.iter_cnt, call.args.n_in_tile, call.args.n_out_tile)) = some (1, 2, 1) ∧
      Ocl.execute_gemm (fun _ _ => none) .PIM .W_X_I vectorProduct ≠
        Hip.execute_gemm (fun _ _ => none) .PIM .W_X_I vectorProduct := by
  refine ⟨by decide +kernel, by decide +kernel, fun h => ?_⟩
  have hiter := congrArg (Option.map fun call => call.args.iter_cnt) h
  revert hiter
  decide +kernel

end PimLibrary.Executor
