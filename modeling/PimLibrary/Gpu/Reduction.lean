import PimLibrary.Schemes.Loop
import PimLibrary.Schemes.SharedMemory

/-! The block of threads that the custom GPU kernels share.

    All five kernels sum products with the threads of a block: each thread adds up its own part, the
    parts meet in shared memory, a barrier tree or thread 0 adds them, and thread 0 writes the entry of
    `y`. They differ in which entries a thread multiplies, in the bias and in the activation. -/

namespace PimLibrary.Gpu
open Schemes.Loop Schemes.Interleave Schemes.SharedMemory

/-- Global memory holds halves, the shared array of a block holds floats; `sdata` has a second index
    where the block has two dimensions. -/
inductive Loc where
  | global (addr : ℤ)
  | sdata (bid ty tx : ℕ)
  deriving DecidableEq

abbrev Loc.Val (H F : Type) : Loc → Type
  | .global _ => H
  | .sdata .. => F

/-- A thread of the grid. -/
structure Tid where
  bid : ℕ
  ty : ℕ
  tx : ℕ
  deriving DecidableEq

/-- What the kernels keep in registers: the running sum and the operands of the next operation. -/
structure Reg (H F : Type) where
  res : F
  half : H
  float : F

/-- The arithmetic of `_Float16` (`H`) and `float` (`F`). Nothing is assumed about it, so what is said
    for every `Arith` is said to the last bit. -/
structure Arith (H F : Type) where
  zero : F
  up : H → F
  down : F → H
  mulH : H → H → H
  add : F → F → F
  mul : F → F → F
  nonzero : F → Bool
  positive : F → Bool

/-- A launch of one of the kernels. `reads` are the pairs of addresses whose products thread `(ty, tx)`
    of block `bid` adds up, in order; `count` is the number of entries that the kernel sums. -/
structure MatVec (F : Type) where
  NB_X : ℕ
  NB_Y : ℕ
  grid : ℕ
  count : ℕ
  live : ℕ → ℕ → Bool
  reads : ℕ → ℕ → ℕ → List (ℤ × ℤ)
  y : ℕ → ℕ → ℤ
  b : Option (ℕ → ℕ → ℤ)
  alpha : F
  beta : F
  relu : Bool

variable {H F : Type} (A : Arith H F)

abbrev Access (H F : Type) := Op (Reg H F) (Loc.Val H F)

abbrev Memory (H F : Type) := ∀ a, Loc.Val H F a

/-! ### The programs -/

/-- `res += p[..] * q[..]`. -/
def add_product (r : ℤ × ℤ) : List (Access H F) :=
  [.load (.global r.1) fun h g => { g with half := h },
    .load (.global r.2) fun h g => { g with res := A.add g.res (A.up (A.mulH g.half h)) }]

/-- The products of the pairs, then `sdata[tx] = res`. -/
def partial_sums (t : Tid) (reads : List (ℤ × ℤ)) : List (Access H F) :=
  [.compute fun g => { g with res := A.zero }] ++ reads.flatMap (add_product A) ++
    [.store (.sdata t.bid t.ty t.tx) Reg.res]

/-- `a += b` on two entries of the shared array. -/
def reduce_sum (t : Tid) (a b : ℕ) : List (Access H F) :=
  [.load (.sdata t.bid t.ty a) fun x g => { g with res := x },
    .load (.sdata t.bid t.ty b) fun x g => { g with float := x },
    .store (.sdata t.bid t.ty a) fun g => A.add g.res g.float]

/-- Reduce the lower half with the upper half. -/
def reduction_step (k : ℕ) (t : Tid) : List (Access H F) :=
  if t.tx < k then reduce_sum A t t.tx (t.tx + k) else []

/-- A barrier stands after every step. -/
def rocblas_reduction_s (k : ℕ) : List (Tid → List (Access H F)) :=
  if k = 0 then [] else reduction_step A k :: rocblas_reduction_s (k / 2)
  termination_by k
  decreasing_by omega

def rocblas_sum_reduce (NB : ℕ) : List (Tid → List (Access H F)) := rocblas_reduction_s A (NB / 2)

/-- The sum of a narrow block, by its thread 0. -/
def serial_reduce (NB_X count : ℕ) (t : Tid) : List (Access H F) :=
  if t.tx = 0 then
    (forFrom 1 (min count NB_X : ℕ) 1).flatMap fun i => reduce_sum A t 0 i
  else []

/-- The entry of `y` before the activation: `alpha * sdata[0] + beta * y[col] + b[col]`, where `beta` and
    the bias may be absent. -/
def write_entry (t : Tid) (y : ℤ) (b : Option ℤ) (alpha beta : F) : List (Access H F) :=
  [.load (.sdata t.bid t.ty 0) fun x g => { g with res := A.mul alpha x }] ++
    (if A.nonzero beta then
      [.load (.global y) fun h g => { g with res := A.add g.res (A.mul beta (A.up h)) }] else []) ++
    (b.elim [] fun b => [.load (.global b) fun h g => { g with res := A.add g.res (A.up h) }]) ++
    [.store (.global y) fun g => A.down g.res]

/-- `y[0] = y[0] > 0.f ? y[0] : 0.f`. -/
def relu_entry (y : ℤ) : List (Access H F) :=
  [.load (.global y) fun h g => { g with half := h },
    .store (.global y) fun g => A.down (if A.positive (A.up g.half) then A.up g.half else A.zero)]

def finish (K : MatVec F) (t : Tid) : List (Access H F) :=
  if t.tx = 0 then
    write_entry A t (K.y t.bid t.ty) (K.b.map fun b => b t.bid t.ty) K.alpha K.beta ++
      if K.relu then relu_entry A (K.y t.bid t.ty) else []
  else []

/-- The program of a thread between the barriers of its block. -/
def MatVec.programs (K : MatVec F) : List (Tid → List (Access H F)) :=
  [fun t => partial_sums A t (K.reads t.bid t.ty t.tx)] ++
    (if K.NB_X > 16 then rocblas_sum_reduce A K.NB_X else [serial_reduce A K.NB_X K.count]) ++
    [finish A K]

/-! ### The grid -/

/-- The threads of a block. -/
def MatVec.threads (K : MatVec F) : List (ℕ × ℕ) := List.range K.NB_Y ×ˢ List.range K.NB_X

/-- The stages of block `bid`; a thread whose row does not exist has returned. -/
def MatVec.stages (K : MatVec F) (bid : ℕ) : List (ℕ × ℕ → List (Tid × Access H F)) :=
  (K.programs A).map fun p i =>
    if K.live bid i.1 then by_thread ⟨bid, i.1, i.2⟩ (p ⟨bid, i.1, i.2⟩) else []

/-- `u` is one of the runs of the launch: the threads of a block in any order up to the next barrier,
    the blocks in any order. -/
def MatVec.Runs (K : MatVec F) (u : List (Tid × Access H F)) : Prop :=
  ∃ l, Shuffle (List.range K.grid) l u ∧
    ∀ bid ∈ List.range K.grid, Staged K.threads (K.stages A bid) (l bid)

/-! ### What it computes -/

/-- A thread's part of the sum. -/
def partialSum (mem : Memory H F) (reads : List (ℤ × ℤ)) : F :=
  reads.foldl (fun res r => A.add res (A.up (A.mulH (mem (.global r.1)) (mem (.global r.2))))) A.zero

/-- The barrier tree from step `k` on. -/
def treeSum (k : ℕ) (x : ℕ → F) : F :=
  if k = 0 then x 0 else treeSum (k / 2) fun t => if t < k then A.add (x t) (x (t + k)) else x t
  termination_by k
  decreasing_by omega

def serialSum (NB_X count : ℕ) (x : ℕ → F) : F :=
  (forFrom 1 (min count NB_X : ℕ) 1).foldl (fun res i => A.add res (x i)) (x 0)

def MatVec.rowSum (K : MatVec F) (x : ℕ → F) : F :=
  if K.NB_X > 16 then treeSum A (K.NB_X / 2) x else serialSum A K.NB_X K.count x

/-- The entry from the row's sum and what `y` and the bias held. -/
def MatVec.entry (K : MatVec F) (sum : F) (y : H) (b : Option H) : H :=
  let res := A.mul K.alpha sum
  let res := if A.nonzero K.beta then A.add res (A.mul K.beta (A.up y)) else res
  let out := A.down (b.elim res fun b => A.add res (A.up b))
  if K.relu then A.down (if A.positive (A.up out) then A.up out else A.zero) else out

/-- What row `ty` of block `bid` gets in `y`. -/
def MatVec.out (K : MatVec F) (mem : Memory H F) (bid ty : ℕ) : H :=
  K.entry A (K.rowSum A fun tx => partialSum A mem (K.reads bid ty tx))
    (mem (.global (K.y bid ty))) (K.b.map fun b => mem (.global (b bid ty)))

end PimLibrary.Gpu
