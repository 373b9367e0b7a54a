import PimLibrary.Kernel.Cmd
import PimLibrary.Schemes.Loop

/-! The GEMM kernels and the launch parameters the executor computes for them.

    A kernel enters HAB_PIM mode once for each input row and output tile; the commands of one such
    session are determined by the pointers and offsets of the loops at that point. The 8-tile and
    32-tile kernels are the generic ones with the two in-tile loops unrolled. After the sessions every
    thread of the TARGET build adds up sixteen partial sums for each output it owns. -/

namespace PimLibrary.Kernel
open Schemes.Word Schemes.Loop PimLibrary.Device

/-! ### Launch parameters -/

/-- The `int` arguments of a GEMM kernel. -/
structure GemmLaunch where
  iter_cnt : ℤ
  inout_h : ℤ
  in_w : ℤ
  out_w : ℤ
  n_in_tile : ℤ
  n_out_tile : ℤ

/-- `input->bshape.w * sizeof(uint16_t) / trans_size / num_grf_A`. -/
def in_tile_cnt (input : PimBShape) : ℤ :=
  int32 (input.w.toNat * 2 / vega20_pbi.trans_size / vega20_pbi.num_grf_A : ℕ)

def execute_aligned_gemm_tile_accum (output input weight : PimBShape) : GemmLaunch where
  iter_cnt := int32 (weight.n * weight.c * weight.w / 4096).toNat
  inout_h := int32 input.h.toNat
  in_w := int32 input.w.toNat
  out_w := int32 output.w.toNat
  n_in_tile := in_tile_cnt input
  n_out_tile := int32 (output.w.toNat /
    (vega20_pbi.num_pim_chan * vega20_pbi.num_pim_blocks * vega20_pbi.num_grf_B) : ℕ)

/-- `none` is a division by zero. -/
def execute_chwise_gemm_tile_accum (output input weight : PimBShape) : Option GemmLaunch :=
  if weight.w = 0 ∨ 4096 / weight.w = 0 then none
  else some {
    iter_cnt := int32 (weight.n * weight.c / (4096 / weight.w)).toNat
    inout_h := int32 input.h.toNat
    in_w := int32 input.w.toNat
    out_w := int32 output.w.toNat
    n_in_tile := in_tile_cnt input
    n_out_tile := 1 }

/-! ### One session -/

/-- What the innermost loop body runs with: the moved pointers, the two offsets, and the row and
    column of each `gidx`'s partial sum. -/
structure Session where
  input : ℤ
  weight : ℤ
  partial_sum : ℤ
  i_offset : ℤ
  r_offset : ℤ
  cell : ℕ → ℕ × ℕ

section Session

variable (ch : ℕ) (s : Session)

/-- The byte address of the in-group that `gidx` loads; 64-bit arithmetic, which nothing here wraps. -/
def i_addr (i_idx gidx : ℕ) : ℤ := (s.i_offset + ((i_idx * 8 + gidx : ℕ) : ℤ)) * 32

def even_row (i_idx : ℕ) : ℤ := int32 ((((i_idx / 2 : ℕ) : ℤ) + s.r_offset) * 2)

def odd_row (i_idx : ℕ) : ℤ := int32 (even_row s i_idx + 1)

/-- `R_CMD(&weight[addr_gen(ch, 0, 0, bank, row, gidx + col) + offset])`. -/
def weight_read (bank : ℕ) (row : ℤ) (col : ℕ) : Stmt :=
  R_CMD 16 .weight fun t => s.weight + addr_gen ch 0 0 bank (toUint32 row) (gidx t + col)

/-- One in-tile: load GRF_A from the input, then read eight weights for each `gidx`. -/
def mac_tile (bank i_idx : ℕ) : List Stmt :=
  [W_CMD_R 16 .pim_ctr (fun t => addr_gen ch 0 0 bank 0x3fff (0x8 + gidx t))
      fun t => .mem .input (s.input + i_addr s i_idx (gidx t) + offset t),
    R_CMD 16 .pim_ctr fun t => addr_gen ch 0 0 bank 0x3fff (0x8 + gidx t),
    B_CMD 16 1,
    weight_read ch s bank (even_row s i_idx) 0, weight_read ch s bank (even_row s i_idx) 8,
    weight_read ch s bank (even_row s i_idx) 16, weight_read ch s bank (even_row s i_idx) 24,
    weight_read ch s bank (odd_row s i_idx) 0, weight_read ch s bank (odd_row s i_idx) 8,
    weight_read ch s bank (odd_row s i_idx) 16, weight_read ch s bank (odd_row s i_idx) 24,
    B_CMD 16 1]

/-- The address at which `gidx`'s accumulator is written out. -/
def partial_addr (g : ℕ) : ℤ := s.partial_sum + addr_gen ch 0 0 1 (s.cell g).1 (s.cell g).2

/-- The commands between the switch to HAB_PIM mode and the switch back. -/
def session_body (evens odds : List ℕ) : List Stmt :=
  [R_CMD 16 .pim_ctr fun _ => addr_gen ch 0 0 0 0x3fff 0x0, B_CMD 16 1] ++
    evens.flatMap (mac_tile ch s 0) ++ odds.flatMap (mac_tile ch s 1) ++
    [W_CMD 16 .pim_partial_sum fun t => partial_addr ch s (gidx t),
      W_CMD 16 .pim_partial_sum fun t => partial_addr ch s (gidx t),
      R_CMD 16 .pim_partial_sum fun t => partial_addr ch s (gidx t),
      B_CMD 16 1]

/-- One input row against one output tile, over the given even and odd in-tiles. -/
def gemm_session (evens odds : List ℕ) : List Stmt :=
  W_CMD_R 16 .pim_ctr (fun _ => addr_gen ch 0 0 0 0x3fff 0x0) (fun _ => .gemv_hab_to_hab_pim) ::
    session_body ch s evens odds ++ change_habpim_hab ch 16

end Session

/-- What a thread adds up and where it stores the result, as element offsets of half precision. -/
structure ReduceStep where
  cell : ℤ
  out : ℤ
  deriving DecidableEq

/-! ### The aligned kernels -/

section Aligned

variable (p : GemmLaunch)

structure AlignedState where
  gemv_cnt : ℤ := 0
  weight : ℤ := 0

def aligned_session (st : AlignedState) (o_idx : ℕ) : Session where
  input := 0
  weight := st.weight
  partial_sum := 0
  i_offset := int32 (st.gemv_cnt * int32 (p.n_in_tile * 8))
  r_offset := int32 (o_idx * p.n_in_tile) / 2
  cell := fun g =>
    let loc := int32 (st.gemv_cnt * p.n_out_tile * 8 + o_idx * 8 + g)
    (toUint32 (loc / 32), toUint32 (loc.tmod 32))

def aligned_in_loop (st : AlignedState) (_in_idx : ℕ) : AlignedState × List Session :=
  ({ st with gemv_cnt := int32 (st.gemv_cnt + 1) },
    (forRange p.n_out_tile 1).map (aligned_session p st))

def aligned_iter (st : AlignedState) (_i : ℕ) : AlignedState × List Session :=
  let r := runLoop (aligned_in_loop p) st (forRange p.inout_h 1)
  ({ r.1 with weight := r.1.weight + int32 (p.in_w * p.out_w * 2) }, r.2)

/-- The sessions of the `COMPUTE_GEMM` loops, in order. -/
def aligned_sessions : List Session := (runLoop (aligned_iter p) {} (forRange p.iter_cnt 1)).2

/-- The kernel around the given in-tile loops; `crf_size` is 32 at every launch. -/
def aligned_kernel (evens odds : List ℕ) (ch : ℕ) : List Stmt :=
  park_in ch 32 ++ change_sb_hab ch 2 ++ program_crf_mod ch (32 >>> 4) ++
    (aligned_sessions p).flatMap (fun s => gemm_session ch s evens odds) ++
    change_hab_sb ch 4 ++ park_out ch 32

def pim_aligned_gemm_bias_relu_fp16 (ch : ℕ) : List Stmt :=
  aligned_kernel p (forFrom 0 p.n_in_tile 2) (forFrom 1 p.n_in_tile 2) ch

def pim_aligned_gemm_bias_relu_8tile_fp16 (ch : ℕ) : List Stmt :=
  aligned_kernel p ((List.range 4).map (2 * ·)) ((List.range 4).map (1 + 2 * ·)) ch

/-- The kernel that the executor's `switch (n_in_tile)` selects. -/
def aligned_gemm_kernel (ch : ℕ) : List Stmt :=
  if p.n_in_tile = 8 then pim_aligned_gemm_bias_relu_8tile_fp16 p ch
  else pim_aligned_gemm_bias_relu_fp16 p ch

/-- The body of the `REDUCE_SUM` loops for one thread. -/
def aligned_reduce_step (ch tid : ℕ) (gemv_cnt : ℤ) (oi : ℕ) : Option ReduceStep :=
  let bg := tid / 16
  let ba := tid / 8 % 2 * 2 + 1
  let t_idx := ch * 64 + tid
  let out_idx := int32 (oi * 4096 + t_idx : ℕ)
  if out_idx < p.out_w then
    let li := int32 (gemv_cnt * p.n_out_tile + oi)
    let row := toUint32 (li / 4)
    let col := toUint32 ((tid % 8 : ℕ) + li.tmod 4 * 8)
    some ⟨addr_gen ch 0 bg ba row col / 2, int32 (gemv_cnt * p.out_w + out_idx)⟩
  else none

def aligned_reduce_in_loop (ch tid : ℕ) (gemv_cnt : ℤ) (_in_idx : ℕ) : ℤ × List (Option ReduceStep) :=
  (int32 (gemv_cnt + 1), (forRange p.n_out_tile 1).map (aligned_reduce_step p ch tid gemv_cnt))

/-- The steps of one thread; `none` is an iteration whose guard fails. -/
def aligned_reduce (ch tid : ℕ) : List (Option ReduceStep) :=
  (runLoop (fun gemv_cnt (_ : ℕ) =>
      runLoop (aligned_reduce_in_loop p ch tid) gemv_cnt (forRange p.inout_h 1))
    0 (forRange p.iter_cnt 1)).2

end Aligned

/-! ### The channel-wise kernels -/

section Chwise

variable (p : GemmLaunch)

/-- `64 / (4096 / out_w)`; `none` is a division by zero. -/
def chs_per_op : Option ℤ :=
  if p.out_w = 0 ∨ Int.tdiv 4096 p.out_w = 0 then none else some (Int.tdiv 64 (Int.tdiv 4096 p.out_w))

structure ChwiseState where
  input : ℤ
  weight : ℤ := 0
  t_pim_partial_sum : ℤ := 0

def chwise_session (st : ChwiseState) : Session where
  input := st.input
  weight := st.weight
  partial_sum := st.t_pim_partial_sum
  i_offset := 0
  r_offset := 0
  cell := fun g => (0, g % 32)

def chwise_iter (st : ChwiseState) (_i : ℕ) : ChwiseState × List Session :=
  ({ input := st.input + int32 (p.in_w * Int.tdiv 4096 p.out_w * 2)
     weight := st.weight + int32 (p.in_w * 2 ^ 13)
     t_pim_partial_sum := st.t_pim_partial_sum + 2 ^ 18 },
    (forRange p.inout_h 1).map fun _ => chwise_session st)

/-- The GPU does not trap when `hipBlockIdx_x / chs_per_op` divides by zero. This is the quotient that
    it computes then for each block, about which nothing is assumed. -/
abbrev ByZero : Type := ℕ → ℕ

/-- `hipBlockIdx_x / chs_per_op`. -/
def block_op (by_zero : ByZero) (chs : ℤ) (ch : ℕ) : ℕ :=
  if chs = 0 then by_zero ch else ch / toUint32 chs

variable (by_zero : ByZero)

/-- The sessions of one channel's block, in order; `none` is a division by zero in `chs_per_op`, which
    the executor does not launch. -/
def chwise_sessions (ch : ℕ) : Option (List Session) :=
  (chs_per_op p).map fun chs =>
    let input := uint32 (block_op by_zero chs ch * toUint32 p.in_w * 2)
    (runLoop (chwise_iter p) { input := input } (forRange p.iter_cnt 1)).2

/-- The kernel around the given in-tile loops. -/
def chwise_kernel (evens odds : List ℕ) (ch : ℕ) : Option (List Stmt) :=
  (chwise_sessions p by_zero ch).map fun sessions =>
    park_in ch 32 ++ change_sb_hab ch 2 ++ program_crf_mod ch (32 >>> 4) ++
      sessions.flatMap (fun s => gemm_session ch s evens odds) ++
      change_hab_sb ch 4 ++ park_out ch 32

def pim_chwise_gemm_bias_relu_fp16 (ch : ℕ) : Option (List Stmt) :=
  chwise_kernel p by_zero (forFrom 0 p.n_in_tile 2) (forFrom 1 p.n_in_tile 2) ch

def pim_chwise_gemm_bias_relu_32tile_fp16 (ch : ℕ) : Option (List Stmt) :=
  chwise_kernel p by_zero ((List.range 16).map (2 * ·)) ((List.range 16).map (1 + 2 * ·)) ch

/-- The kernel that the executor's `switch (n_in_tile)` selects. -/
def chwise_gemm_kernel (ch : ℕ) : Option (List Stmt) :=
  if p.n_in_tile = 32 then pim_chwise_gemm_bias_relu_32tile_fp16 p by_zero ch
  else pim_chwise_gemm_bias_relu_fp16 p by_zero ch

/-- The pointers of the `REDUCE_SUM` loops, as byte offsets. -/
structure ChwiseReduceState where
  output : ℤ := 0
  t_pim_partial_sum : ℤ := 0

def chwise_reduce_step (ch tid : ℕ) (st : ChwiseReduceState) : ReduceStep :=
  let bg := tid / 16
  let ba := tid / 8 % 2 * 2 + 1
  { cell := st.t_pim_partial_sum / 2 + (addr_gen ch 0 bg ba 0 (tid % 8) / 2 : ℕ)
    out := st.output / 2 + ((ch * 64 + tid : ℕ) : ℤ) }

/-- The steps of one thread. -/
def chwise_reduce (ch tid : ℕ) : List ReduceStep :=
  (runLoop (fun (st : ChwiseReduceState) (_ : ℕ) =>
      ({ output := st.output + 8192, t_pim_partial_sum := st.t_pim_partial_sum + 2 ^ 18 },
        (forRange p.inout_h 1).map fun _ => chwise_reduce_step ch tid st))
    {} (forRange p.iter_cnt 1)).2

end Chwise

/-! ### Aligned products -/

/-- The sizes of an aligned product: `n * c` matrices `[in_w][out_w]`, each multiplied by `inout_h`
    input rows. -/
structure AlignedGemm where
  n : UInt32
  c : UInt32
  inout_h : UInt32
  in_w : UInt32
  out_w : UInt32
  n_pos : 0 < n.toNat
  c_pos : 0 < c.toNat
  inout_h_pos : 0 < inout_h.toNat
  in_w_pos : 0 < in_w.toNat
  in_w_align : 256 ∣ in_w.toNat
  out_w_pos : 0 < out_w.toNat
  out_w_align : 4096 ∣ out_w.toNat

namespace AlignedGemm

attribute [local irreducible] int32

/-- The product of these sides, whose conditions are checked together. -/
def of (n c inout_h in_w out_w : UInt32) (h : 0 < n.toNat ∧ 0 < c.toNat ∧ 0 < inout_h.toNat ∧
    0 < in_w.toNat ∧
    256 ∣ in_w.toNat ∧ 0 < out_w.toNat ∧ 4096 ∣ out_w.toNat) : AlignedGemm :=
  ⟨n, c, inout_h, in_w, out_w, h.1, h.2.1, h.2.2.1, h.2.2.2.1, h.2.2.2.2.1, h.2.2.2.2.2.1,
    h.2.2.2.2.2.2⟩

/-- One tile is the smallest product. -/
theorem sides_smallest : 0 < (1 : UInt32).toNat ∧ 0 < (1 : UInt32).toNat ∧ 0 < (1 : UInt32).toNat ∧
    0 < (256 : UInt32).toNat ∧ 256 ∣ (256 : UInt32).toNat ∧ 0 < (4096 : UInt32).toNat ∧
    4096 ∣ (4096 : UInt32).toNat := by
  decide

variable (g : AlignedGemm)

def weight : PimBShape := ⟨g.n, g.c, g.in_w, g.out_w⟩

def input : PimBShape := ⟨g.n, g.c, g.inout_h, g.in_w⟩

def output : PimBShape := ⟨g.n, g.c, g.inout_h, g.out_w⟩

def launch : GemmLaunch := execute_aligned_gemm_tile_accum g.output g.input g.weight

/-- Half the number of in-tiles. -/
def in_pairs : ℕ := g.in_w.toNat / 256

def out_tiles : ℕ := g.out_w.toNat / 4096

theorem in_w_eq : g.in_w.toNat = 256 * g.in_pairs := (Nat.mul_div_cancel' g.in_w_align).symm

theorem out_w_eq : g.out_w.toNat = 4096 * g.out_tiles := (Nat.mul_div_cancel' g.out_w_align).symm

theorem in_pairs_pos : 0 < g.in_pairs := by
  have := g.in_w_pos
  have := g.in_w_eq
  omega

theorem out_tiles_pos : 0 < g.out_tiles := by
  have := g.out_w_pos
  have := g.out_w_eq
  omega

theorem in_pairs_lt : g.in_pairs < 2 ^ 24 := by
  have := g.in_w.toNat_lt
  have := g.in_w_eq
  omega

theorem out_tiles_lt : g.out_tiles < 2 ^ 20 := by
  have := g.out_w.toNat_lt
  have := g.out_w_eq
  omega

theorem matrices_pos : 0 < matrices g.weight := Nat.mul_pos g.n_pos g.c_pos

theorem n_in_tile_eq : g.launch.n_in_tile = ((2 * g.in_pairs : ℕ) : ℤ) := by
  have hlt := g.in_pairs_lt
  have heq : g.in_w.toNat * 2 / 32 / 8 = 2 * g.in_pairs := by
    rw [g.in_w_eq]; omega
  have h : g.launch.n_in_tile = int32 (g.in_w.toNat * 2 / 32 / 8 : ℕ) := rfl
  rw [h, heq, int32_natCast (by omega)]

theorem n_out_tile_eq : g.launch.n_out_tile = (g.out_tiles : ℤ) := by
  have hlt := g.out_tiles_lt
  have h : g.launch.n_out_tile = int32 (g.out_tiles : ℤ) := rfl
  rw [h, int32_natCast (by omega)]

/-- The trip count is the number of all output tiles of all matrices, modulo `2^20`. -/
theorem iter_cnt_eq : g.launch.iter_cnt = ((matrices g.weight * g.out_tiles % 2 ^ 20 : ℕ) : ℤ) := by
  have h : g.launch.iter_cnt = int32 ((g.n * g.c * g.out_w / 4096).toNat : ℤ) := rfl
  have heq : (g.n * g.c * g.out_w / 4096).toNat = matrices g.weight * g.out_tiles % 2 ^ 20 := by
    have h4096 : (4096 : UInt32).toNat = 4096 := rfl
    have hmat : matrices g.weight = g.n.toNat * g.c.toNat := rfl
    rw [UInt32.toNat_div, UInt32.toNat_mul, UInt32.toNat_mul, Nat.mod_mul_mod, h4096, g.out_w_eq,
      ← hmat, Nat.mul_left_comm]
    omega
  rw [h, heq, int32_natCast (by omega)]

end AlignedGemm

/-! ### Channel-wise products -/

/-- The sizes of a product with a weight that the channel-wise path accepts. -/
structure ChwiseGemm where
  n : UInt32
  c : UInt32
  inout_h : UInt32
  in_w : UInt32
  out_w : UInt32
  inout_h_pos : 0 < inout_h.toNat
  in_w_pos : 0 < in_w.toNat
  accepted : check_chwise_gemm_bo (PimCreateBo ⟨n, c, in_w, out_w⟩) .I_X_W = true

namespace ChwiseGemm

attribute [local irreducible] int32

/-- The product of these sides, whose conditions are checked together. -/
def of (n c inout_h in_w out_w : UInt32) (h : 0 < inout_h.toNat ∧ 0 < in_w.toNat ∧
    check_chwise_gemm_bo (PimCreateBo ⟨n, c, in_w, out_w⟩) .I_X_W = true) : ChwiseGemm :=
  ⟨n, c, inout_h, in_w, out_w, h.1, h.2.1, h.2.2⟩

variable (g : ChwiseGemm)

/-- The weight as the executor sees it; `set_pimbo_t` has swapped the sides of a `W_X_I` weight. -/
def weight : PimBShape := ⟨g.n, g.c, g.in_w, g.out_w⟩

/-- The weight as the memory manager sees it. -/
def rawWeight : PimGemmOrder → PimBShape
  | .I_X_W => ⟨g.n, g.c, g.in_w, g.out_w⟩
  | .W_X_I => ⟨g.n, g.c, g.out_w, g.in_w⟩

def input : PimBShape := ⟨g.n, g.c, g.inout_h, g.in_w⟩

def output : PimBShape := ⟨g.n, g.c, g.inout_h, g.out_w⟩

/-- `none` is a division by zero. -/
def launch : Option GemmLaunch := execute_chwise_gemm_tile_accum g.output g.input g.weight

/-- How many 4096-row tiles the rows of all matrices fill. -/
def tiles : ℕ := matrices g.weight * g.out_w.toNat / 4096

theorem out_w_lt : g.out_w.toNat < 4096 := ((check_chwise_gemm_bo_iff _ _).mp g.accepted).1

theorem rows_eq : matrices g.weight * g.out_w.toNat = 4096 * g.tiles :=
  (Nat.mul_div_cancel' ((check_chwise_gemm_bo_iff _ _).mp g.accepted).2).symm

end ChwiseGemm

/-! ### The unrolled kernels -/

theorem forFrom_two (lo n : ℕ) (h : lo ≤ 1) :
    forFrom lo ((2 * n : ℕ) : ℤ) 2 = (List.range n).map (lo + 2 * ·) := by
  have hn : (2 * n - lo + 2 - 1) / 2 = n := by omega
  rw [forFrom, Int.toNat_natCast, hn]
  simp only [Nat.mul_comm]

/-- The unrolled kernel issues what the generic one does at its tile count. -/
theorem aligned_gemm_kernel_eq (p : GemmLaunch) (ch : ℕ) :
    aligned_gemm_kernel p ch = pim_aligned_gemm_bias_relu_fp16 p ch := by
  rw [aligned_gemm_kernel]
  split_ifs with h
  · have he := forFrom_two 0 4 (by omega)
    have ho := forFrom_two 1 4 (by omega)
    simp only [Nat.zero_add] at he
    rw [pim_aligned_gemm_bias_relu_fp16, pim_aligned_gemm_bias_relu_8tile_fp16, h,
      show (8 : ℤ) = ((2 * 4 : ℕ) : ℤ) from rfl, he, ho]
  · rfl

theorem chwise_gemm_kernel_eq (p : GemmLaunch) (by_zero : ByZero) (ch : ℕ) :
    chwise_gemm_kernel p by_zero ch = pim_chwise_gemm_bias_relu_fp16 p by_zero ch := by
  rw [chwise_gemm_kernel]
  split_ifs with h
  · have he := forFrom_two 0 16 (by omega)
    have ho := forFrom_two 1 16 (by omega)
    simp only [Nat.zero_add] at he
    rw [pim_chwise_gemm_bias_relu_fp16, pim_chwise_gemm_bias_relu_32tile_fp16, h,
      show (32 : ℤ) = ((2 * 16 : ℕ) : ℤ) from rfl, he, ho]
  · rfl

end PimLibrary.Kernel
