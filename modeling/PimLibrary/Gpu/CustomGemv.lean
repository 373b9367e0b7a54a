import PimLibrary.Executor.GemmDispatch
import PimLibrary.Gpu.Reduction

/-! The custom GPU path of `execute_gemm`: matrix times vector without PIM.

    `x * A` walks down a column of the matrix, `A * x` along a row; a transposed weight turns the one
    into the other. With a bias of its own there is a second set of kernels, and one weight of 32317
    rows has a kernel that expects it in panels of 16 columns. -/

namespace PimLibrary.Gpu
open Schemes.Word Schemes.Loop Schemes.SharedMemory PimLibrary.Device PimLibrary.Executor

/-- `reinterpret_cast<_Float16 *>(p)`: addresses count halves. -/
structure GpuBo extends PimBo where
  data : ℤ
  size : ℕ
  data_layout_type : PimDataLayoutType
  mem_type : PimMemType
  transposed : Bool
  deriving DecidableEq, Repr

variable {H F : Type}

/-! ### The kernels -/

/-- What thread `tx` of `.._kernel_calc_xAy` multiplies. -/
def reads_xAy (NB_X : ℕ) (m incx x A : ℤ) (tx : ℕ) : List (ℤ × ℤ) :=
  let A := if tx < m then A + int32 (tx * incx) else A
  let m_full := int32 (m.tdiv NB_X * NB_X)
  ((forRange m_full NB_X).map fun i : ℕ => (x + int32 (i + tx), A + int32 (i * incx))) ++
    if int32 (tx + m_full) < m then [(x + int32 (m_full + tx), A + int32 (m_full * incx))] else []

/-- What thread `tx` of `.._kernel_calc_Axy` multiplies. -/
def reads_Axy (NB_X : ℕ) (n incx A x : ℤ) (tx : ℕ) : List (ℤ × ℤ) :=
  let A := if tx < n then A + tx else A
  let m_full := int32 (n.tdiv NB_X * NB_X)
  ((forRange m_full NB_X).map fun i : ℕ => (A + i, x + int32 (int32 (tx + i) * incx))) ++
    if int32 (tx + m_full) < n then [(A + m_full, x + int32 (int32 (tx + m_full) * incx))] else []

/-- What thread `tx` of a row of `addmv_kernel_calc_Axy_large` multiplies. -/
def reads_Axy_large (NB_X NB_Y NB_N : ℕ) (m n incx A x : ℤ) (tx : ℕ) : List (ℤ × ℤ) :=
  let A := if tx < n then A + tx else A
  let n_full := int32 (n.tdiv (NB_X * NB_N) * (NB_X * NB_N))
  let m_align := int32 ((int32 (m + NB_Y - 1)).tdiv NB_Y * NB_Y)
  ((forRange n_full (NB_X * NB_N)).flatMap fun i : ℕ => (List.range NB_N).map fun j : ℕ =>
      (A + int32 (int32 (i * m_align) + (j * NB_X : ℕ)),
        x + int32 (int32 (tx + i + (j * NB_X : ℕ)) * incx))) ++
    if int32 (tx + n_full) < n then
      ((List.range NB_N).takeWhile fun j => int32 (tx + n_full + (j * NB_X : ℕ)) < n).map fun j =>
        (A + int32 (int32 (n_full * m_align) + (j * NB_X : ℕ)),
          x + int32 (int32 (tx + n_full + (j * NB_X : ℕ)) * incx))
    else []

/-- A kernel with one row a block; `b` and `relu` are those of the `addmv` kernels. -/
def row_kernel (NB grid : ℕ) (m : ℤ) (reads : ℕ → ℕ → List (ℤ × ℤ)) (y : ℤ) (b : Option ℤ)
    (alpha beta : F) (relu : Bool) : MatVec F where
  NB_X := NB
  NB_Y := 1
  grid := grid
  count := m.toNat
  live := fun _ _ => true
  reads := fun bid _ tx => reads bid tx
  y := fun bid _ => y + bid
  b := b.map fun b bid _ => b + bid
  alpha := alpha
  beta := beta
  relu := relu

/-- `gemvt_kernel_xAy` and `addmv_kernel_xAy`. -/
def kernel_xAy (NB grid : ℕ) (m : ℤ) (alpha : F) (b : Option ℤ) (x A incx : ℤ) (beta : F) (y : ℤ)
    (relu : Bool) : MatVec F :=
  row_kernel NB grid m (fun bid tx => reads_xAy NB m incx x (A + bid) tx) y b alpha beta relu

/-- `gemvt_kernel_Axy` and `addmv_kernel_Axy`; `hipBlockIdx_y * n` is unsigned. -/
def kernel_Axy (NB grid : ℕ) (n : ℤ) (alpha : F) (b : Option ℤ) (A x incx : ℤ) (beta : F) (y : ℤ)
    (relu : Bool) : MatVec F :=
  row_kernel NB grid n
    (fun bid tx => reads_Axy NB n incx (A + uint32 (bid * toUint32 n) : ℤ) x tx) y b alpha beta relu

/-- `int y_index = hipBlockIdx_y * NB_Y + hipThreadIdx_y`. -/
def y_index (NB_Y bid ty : ℕ) : ℤ := int32 (bid * NB_Y + ty : ℕ)

def addmv_kernel_Axy_large (NB_X NB_Y NB_N grid : ℕ) (m n : ℤ) (alpha : F) (b A x incx : ℤ) (beta : F)
    (y : ℤ) (relu : Bool) : MatVec F where
  NB_X := NB_X
  NB_Y := NB_Y
  grid := grid
  count := n.toNat
  live := fun bid ty => y_index NB_Y bid ty < m
  reads := fun bid ty tx => reads_Axy_large NB_X NB_Y NB_N m n incx
    (A + int32 (int32 (y_index NB_Y bid ty * NB_X) * NB_N)) x tx
  y := fun bid ty => y + y_index NB_Y bid ty
  b := some fun bid ty => b + y_index NB_Y bid ty
  alpha := alpha
  beta := beta
  relu := relu

/-! ### The launches -/

/-- `rocblas_gemv_fp16_xAy`; `none` launches nothing. -/
def rocblas_gemv_fp16_xAy (x A y m n k : ℤ) (alpha beta : F) : Option (MatVec F) :=
  if m ≠ 1 then none else some (kernel_xAy 256 (toUint32 n) k alpha none x A n beta y false)

def rocblas_gemv_fp16_Axy (A x y m n k : ℤ) (alpha beta : F) : Option (MatVec F) :=
  if n ≠ 1 then none else some (kernel_Axy 128 (toUint32 m) k alpha none A x n beta y false)

def rocblas_addmv_fp16_xAy (b x A y m n k : ℤ) (alpha beta : F) (relu : Bool) : Option (MatVec F) :=
  if m ≠ 1 then none else some (kernel_xAy 256 (toUint32 n) k alpha (some b) x A n beta y relu)

def rocblas_addmv_fp16_Axy (b A x y m n k : ℤ) (alpha beta : F) (relu : Bool) : Option (MatVec F) :=
  if n ≠ 1 then none else some (kernel_Axy 256 (toUint32 m) k alpha (some b) A x n beta y relu)

def rocblas_addmv_fp16_Axy_large (b A x y m n k : ℤ) (alpha beta : F) (relu : Bool) :
    Option (MatVec F) :=
  if n ≠ 1 then none
  else
    let y_block := (int32 (m + 32 - 1)).tdiv 32
    some (addmv_kernel_Axy_large 8 32 2 (toUint32 y_block) m k alpha b A x n beta y relu)

/-! ### The executor -/

/-- What a call does: its return value, a copy of halves `(dst, src, n)` from the host, a launch. -/
structure GemvCall (F : Type) where
  ret : ℤ
  copy : Option (ℤ × ℤ × ℕ)
  launch : Option (MatVec F)

/-- Only a raw weight and a single raw vector will do. -/
def gemm_not_supported (operand0 operand1 : GpuBo) : Bool :=
  operand0.bshape_r.n ≠ 1 || operand1.data_layout_type ≠ .RAW || operand0.data_layout_type ≠ .RAW

/-- The order of the factors and `m`, `n`, `k` as the `int` parameters they are passed as. -/
def gemv_shape (gemm_order_ : PimGemmOrder) (operand1 : GpuBo) : PimGemmOrder × ℤ × ℤ × ℤ :=
  let h := int32 operand1.bshape_r.h.toNat
  let w := int32 operand1.bshape_r.w.toNat
  match operand1.transposed, gemm_order_ with
  | true, .W_X_I => (.I_X_W, 1, h, w)
  | true, .I_X_W => (.W_X_I, w, 1, h)
  | false, .W_X_I => (.W_X_I, h, 1, w)
  | false, .I_X_W => (.I_X_W, 1, w, h)

/-- The buffer that a weight on the host is copied to, at the address `device` that it is given. -/
def device_copy (device : ℤ) (operand1 : GpuBo) : GpuBo where
  bshape := operand1.bshape
  bshape_r := operand1.bshape
  precision := .PIM_FP16
  data := device
  size := (bo_size (int32 operand1.bshape.n.toNat) (int32 operand1.bshape.c.toNat)
    (int32 operand1.bshape.h.toNat) (int32 operand1.bshape.w.toNat) .PIM_FP16).toNat
  data_layout_type := .RAW
  mem_type := .MEM_TYPE_DEVICE
  transposed := false

section Executor

variable (one zero : F) (gemm_order_ : PimGemmOrder)

def execute_custom_gemv (device : ℤ) (output operand0 operand1 : GpuBo) (is_gemv_add : Bool) :
    GemvCall F :=
  if gemm_not_supported operand0 operand1 then ⟨-1, none, none⟩
  else
    let copy_to_device := operand1.mem_type = .MEM_TYPE_HOST
    let copy := if copy_to_device then some (device, operand1.data, operand1.size / 2) else none
    let operand1 := if copy_to_device then device_copy device operand1 else operand1
    let beta := if is_gemv_add then one else zero
    let (gemm_order, m, n, k) := gemv_shape gemm_order_ operand1
    ⟨0, copy,
      if gemm_order = .W_X_I then
        rocblas_gemv_fp16_Axy operand1.data operand0.data output.data m n k one beta
      else rocblas_gemv_fp16_xAy operand0.data operand1.data output.data m n k one beta⟩

def execute_custom_gemv_add (output operand0 operand1 operand2 : GpuBo) (relu : Bool) : GemvCall F :=
  if gemm_not_supported operand0 operand1 then ⟨1, none, none⟩
  else
    let (gemm_order, m, n, k) := gemv_shape gemm_order_ operand1
    ⟨0, none,
      if gemm_order = .W_X_I then
        if m = 32317 then
          rocblas_addmv_fp16_Axy_large operand2.data operand1.data operand0.data output.data m n k one
            zero relu
        else
          rocblas_addmv_fp16_Axy operand2.data operand1.data operand0.data output.data m n k one zero
            relu
      else
        rocblas_addmv_fp16_xAy operand2.data operand0.data operand1.data output.data m n k one zero relu⟩

/-- `execute_gemv`: without a bias and onto the output there is no activation. -/
def execute_gemv (device : ℤ) (output input weight : GpuBo) (bias : Option GpuBo)
    (act_func : PimActFunc) : GemvCall F :=
  match bias with
  | none => execute_custom_gemv one zero gemm_order_ device output input weight false
  | some bias =>
    if output.data = bias.data then
      execute_custom_gemv one zero gemm_order_ device output input weight true
    else
      execute_custom_gemv_add one zero gemm_order_ output input weight bias (act_func = .ACT_RELU)

end Executor

/-! ### Runs -/

/-- The memory after a copy of `n` halves. -/
def copied (mem : Memory H F) (dst src : ℤ) (n : ℕ) : Memory H F
  | .global a => if dst ≤ a ∧ a < dst + n then mem (.global (src + (a - dst))) else mem (.global a)
  | .sdata bid ty tx => mem (.sdata bid ty tx)

/-- What the launch finds. -/
def GemvCall.before (call : GemvCall F) (s : State Tid (Reg H F) (Loc.Val H F)) :
    State Tid (Reg H F) (Loc.Val H F) :=
  match call.copy with
  | none => s
  | some (dst, src, n) => { s with mem := copied s.mem dst src n }

/-- `s'` is where some run of the call ends. -/
def GemvCall.Ends (A : Arith H F) (call : GemvCall F) (s s' : State Tid (Reg H F) (Loc.Val H F)) :
    Prop :=
  match call.launch with
  | none => s' = call.before s
  | some K => ∃ u, K.Runs A u ∧ s' = u.foldl step (call.before s)

end PimLibrary.Gpu
