import PimLibrary.Kernel.Gemm

/-! The generic aligned GEMM kernel of the OpenCL backend.

    The kernel keeps no counters and moves no pointers: it folds iteration, input row, output tile and
    in-tile into one byte offset, which `addr_gen_s` splits into a column and a row. An offset is an
    `int` until the thread's part is added, then a `uint64_t`, and `addr_gen_s` takes it as a
    `uint32_t`. The program has no summation phase; the threads' plain loads there are not commands. -/

namespace PimLibrary.Kernel
open Schemes.Word Schemes.Loop PimLibrary.Device

attribute [local irreducible] int32

/-! ### `kernel_utils.cl` -/

namespace Ocl

section Common

-- A build that is not for the emulator reduces every address to 1 GB.
variable (emulator : Bool)

/-- The shifts are those of `addr_gen`. -/
def addr_gen_ (chan rank bankgroup bank row col : ℕ) : ℕ :=
  let addr := addr_gen chan rank bankgroup bank row col
  if emulator then addr else addr &&& 0x3fffffff

def addr_gen_s (chan rank bankgroup bank row col offset : ℕ) : ℕ :=
  let offset_size := 1 <<< vega20_pbi.num_offset_bit
  let col_size := vega20_pbi.num_col / vega20_pbi.bl
  let offset_s := offset % offset_size
  let new_col := uint32 (col + offset / offset_size)
  let col_s := new_col % col_size
  let row_s := uint32 (row + new_col / col_size)
  addr_gen_ emulator chan rank bankgroup bank row_s col_s + offset_s

variable (ch active : ℕ)

def park_in : List Stmt :=
  [W_CMD active .pim_ctr fun t => addr_gen_ emulator ch 0 (gidx t / 4) (gidx t % 4) (1 <<< 13) 0,
    B_CMD active 1]

def change_sb_hab : List Stmt :=
  [W_CMD active .pim_ctr fun _ => addr_gen_ emulator ch 0 2 0 0x27ff 0x1f, B_CMD active 1,
    W_CMD active .pim_ctr fun _ => addr_gen_ emulator ch 0 2 1 0x27ff 0x1f, B_CMD active 1,
    W_CMD active .pim_ctr fun _ => addr_gen_ emulator ch 0 0 0 0x27ff 0x1f, B_CMD active 1,
    W_CMD active .pim_ctr fun _ => addr_gen_ emulator ch 0 0 1 0x27ff 0x1f, B_CMD active 1]

def program_crf_mod : List Stmt :=
  [W_CMD_R active .pim_ctr (fun t => addr_gen_ emulator ch 0 0 1 0x3fff (0x4 + gidx t))
      fun t => .crf_binary (t <<< 4),
    R_CMD active .pim_ctr fun t => addr_gen_ emulator ch 0 0 1 0x3fff (0x4 + gidx t), B_CMD active 1]

def change_gemv_hab_habpim : List Stmt :=
  [W_CMD_R active .pim_ctr (fun _ => addr_gen_ emulator ch 0 0 0 0x3fff 0x0) fun _ =>
    .gemv_hab_to_hab_pim, R_CMD active .pim_ctr fun _ => addr_gen_ emulator ch 0 0 0 0x3fff 0x0,
      B_CMD active 1]

def change_habpim_hab : List Stmt :=
  [W_CMD_R active .pim_ctr (fun _ => addr_gen_ emulator ch 0 0 0 0x3fff 0x0) fun _ => .hab_pim_to_hab,
    R_CMD active .pim_ctr fun _ => addr_gen_ emulator ch 0 0 0 0x3fff 0x0, B_CMD active 1]

def change_hab_sb : List Stmt :=
  [W_CMD active .pim_ctr fun t => addr_gen_ emulator ch 0 0 (gidx t) 0x2fff 0x1f,
    R_CMD active .pim_ctr fun t => addr_gen_ emulator ch 0 0 (gidx t) 0x2fff 0x1f, B_CMD active 1]

def park_out : List Stmt :=
  [W_CMD active .pim_ctr fun t => addr_gen_ emulator ch 0 (gidx t / 4) (gidx t % 4) (1 <<< 13) 0]

end Common

/-! ### The kernel -/

section Kernel

variable (emulator : Bool) (p : GemmLaunch) (ch : ℕ)

/-- `i_addr` without the thread's part. -/
def i_base (b in_idx bk i : ℕ) : ℤ :=
  int32 ((b * p.inout_h * p.n_in_tile + in_idx * p.n_in_tile + i * 2 + bk) * 8 * 32)

/-- `offset_unsafe` of the weight without the thread's part. -/
def weight_base (b o_idx i : ℕ) : ℤ :=
  (int32 (int32 ((b * p.n_out_tile * p.n_in_tile + o_idx * p.n_in_tile + i * 2) * 8 * 32) *
    p.n_in_tile)).tdiv 2

/-- `offset_unsafe` of the partial sums without the thread's part. -/
def sum_base (b in_idx o_idx : ℕ) : ℤ :=
  int32 ((b * p.inout_h * p.n_out_tile + in_idx * p.n_out_tile + o_idx) * 8 * 32)

/-- `R_CMD(&weight[addr])` for one `j`. -/
def weight_read (b o_idx bk i j : ℕ) : Stmt where
  active := 16
  cmd t := .R .weight (addr_gen_s emulator ch 0 0 bk (j / 4) (j % 4 * 8)
    (toUint32 (weight_base p b o_idx i + (t * 16 : ℕ))) : ℕ)

/-- One in-tile: load GRF_A from the input, then read eight weights. -/
def mac_tile (b in_idx o_idx bk i : ℕ) : List Stmt :=
  let addr (t : ℕ) : ℤ := addr_gen_s emulator ch 0 0 bk 0x3fff 0x8 (t * 16)
  [⟨16, fun t => .WR .pim_ctr (addr t) (.mem .input (i_base p b in_idx bk i + (t * 16 : ℕ)))⟩,
    ⟨16, fun t => .R .pim_ctr (addr t)⟩,
    B_CMD 16 1] ++
    (List.range 8).map (weight_read emulator p ch b o_idx bk i) ++ [B_CMD 16 1]

/-- The write-out of the accumulators. -/
def write_out (b in_idx o_idx : ℕ) : List Stmt :=
  let addr (t : ℕ) : ℤ := addr_gen_s emulator ch 0 0 1 0 0
    (toUint32 (sum_base p b in_idx o_idx + (t * 16 : ℕ) + gidx t))
  [⟨16, fun t => .W .pim_partial_sum (addr t)⟩, ⟨16, fun t => .W .pim_partial_sum (addr t)⟩,
    ⟨16, fun t => .R .pim_partial_sum (addr t)⟩, B_CMD 16 1]

/-- One input row against one output tile. -/
def gemm_session (b in_idx o_idx : ℕ) : List Stmt :=
  change_gemv_hab_habpim emulator ch 16 ++
    ((List.range 2).flatMap fun bk =>
      (forRange (p.n_in_tile.tdiv 2) 1).flatMap (mac_tile emulator p ch b in_idx o_idx bk)) ++
    write_out emulator p ch b in_idx o_idx ++ change_habpim_hab emulator ch 16

def pim_aligned_gemm_bias_relu_fp16 : List Stmt :=
  park_in emulator ch 32 ++ change_sb_hab emulator ch 2 ++ program_crf_mod emulator ch (32 >>> 4) ++
    ((forRange p.iter_cnt 1).flatMap fun b => (forRange p.inout_h 1).flatMap fun in_idx =>
      (forRange p.n_out_tile 1).flatMap (gemm_session emulator p ch b in_idx)) ++
    change_hab_sb emulator ch 4 ++ park_out emulator ch 32

end Kernel

end Ocl

end PimLibrary.Kernel
