import PimLibrary.Kernel.Epilogue

/-! The 8-tile and 32-tile kernels against the generic ones, thread by thread.

    An unrolled in-tile loop counts its trips in an `i` of its own, which hides the `i` of the outermost
    loop, and steps `i_idx` beside it. Everything else, the three outer loops with their counters and
    pointers and the summation with its stores, is the text of the generic kernel. -/

namespace PimLibrary.Kernel
open Schemes.Word Schemes.Loop PimLibrary.Device PimLibrary.Emulator

attribute [local irreducible] int32

/-! ### What one thread does -/

/-- The commands that a thread issues, with their kinds, addresses and sources. -/
def threadCmds (hipThreadIdx_x : ℕ) (stmts : List Stmt) : List Cmd :=
  (stmts.filter fun s => decide (hipThreadIdx_x < s.active)).map fun s => s.cmd hipThreadIdx_x

/-- A thread's commands, and then its writes to `output`. -/
structure ThreadRun where
  cmds : List Cmd
  stores : List (ℤ × ℚ)

section Stores

variable (p : GemmLaunch) (ch tid : ℕ) (partials : ℤ → ℚ) (bias : Option (ℤ → ℚ))
  (act_func : PimActFunc)

/-- The `REDUCE_SUM` phase of the aligned kernels. -/
def aligned_stores : List (ℤ × ℚ) :=
  (aligned_reduce p ch tid).filterMap (Option.map fun step =>
    (step.out, bias_act bias act_func step.out (lane_sum partials step.cell)))

/-- The `REDUCE_SUM` phase of the channel-wise kernels. -/
def chwise_stores_of : List (ℤ × ℚ) :=
  (chwise_reduce p ch tid).map fun step =>
    (step.out, bias_act bias act_func ((ch * 64 + tid : ℕ) : ℤ) (lane_sum partials step.cell))

end Stores

/-! ### The unrolled loops -/

/-- `for (int i = 0, i_idx = lo; i < trips; i++, i_idx += 2)` around the body. -/
def unrolled_tiles (trips lo : ℕ) (body : ℕ → List Stmt) : List Stmt :=
  (runLoop (fun i_idx (_i : ℕ) => (i_idx + 2, body i_idx)) lo (forRange trips 1)).2

/-- One session with the in-tile loops unrolled. -/
def unrolled_session (trips ch : ℕ) (s : Session) : List Stmt :=
  [W_CMD_R 16 .pim_ctr (fun _ => addr_gen ch 0 0 0 0x3fff 0x0) fun _ => .gemv_hab_to_hab_pim,
    R_CMD 16 .pim_ctr fun _ => addr_gen ch 0 0 0 0x3fff 0x0, B_CMD 16 1] ++
    unrolled_tiles trips 0 (mac_tile ch s 0) ++ unrolled_tiles trips 1 (mac_tile ch s 1) ++
    [W_CMD 16 .pim_partial_sum fun t => partial_addr ch s (gidx t),
      W_CMD 16 .pim_partial_sum fun t => partial_addr ch s (gidx t),
      R_CMD 16 .pim_partial_sum fun t => partial_addr ch s (gidx t),
      B_CMD 16 1] ++ change_habpim_hab ch 16

/-- The kernel around sessions of either kind. -/
def gemm_frame (ch : ℕ) (sessions : List (List Stmt)) : List Stmt :=
  park_in ch 32 ++ change_sb_hab ch 2 ++ program_crf_mod ch (32 >>> 4) ++ sessions.flatten ++
    change_hab_sb ch 4 ++ park_out ch 32

section Runs

variable (p : GemmLaunch) (by_zero : ByZero) (ch tid : ℕ) (partials : ℤ → ℚ) (bias : Option (ℤ → ℚ))
  (act_func : PimActFunc)

def aligned_run : ThreadRun where
  cmds := threadCmds tid (pim_aligned_gemm_bias_relu_fp16 p ch)
  stores := aligned_stores p ch tid partials bias act_func

def aligned_8tile_run : ThreadRun where
  cmds := threadCmds tid (gemm_frame ch ((aligned_sessions p).map (unrolled_session 4 ch)))
  stores := aligned_stores p ch tid partials bias act_func

/-- `none` is a division by zero in `chs_per_op`. -/
def chwise_run : Option ThreadRun :=
  (pim_chwise_gemm_bias_relu_fp16 p by_zero ch).map fun stmts =>
    ⟨threadCmds tid stmts, chwise_stores_of p ch tid partials bias act_func⟩

def chwise_32tile_run : Option ThreadRun :=
  (chwise_sessions p by_zero ch).map fun sessions =>
    ⟨threadCmds tid (gemm_frame ch (sessions.map (unrolled_session 16 ch))),
      chwise_stores_of p ch tid partials bias act_func⟩

end Runs

/-! ### Equality -/

/-- The trip counter and `i_idx` go in step. -/
theorem unrolled_tiles_eq (trips lo : ℕ) (body : ℕ → List Stmt) :
    unrolled_tiles trips lo body = ((List.range trips).map (lo + 2 * ·)).flatMap body := by
  have hloop := runLoop_range (f := fun i_idx (_ : ℕ) => (i_idx + 2, body i_idx)) (n := trips) (s := lo)
    (R := fun k i_idx => i_idx = lo + 2 * k) (o := fun k => body (lo + 2 * k)) (by simp)
    (by rintro k - i_idx rfl; exact ⟨by ring, rfl⟩)
  rw [unrolled_tiles, forRange_one, Int.toNat_natCast, hloop.2, List.flatMap_map]

theorem unrolled_session_eq (trips ch : ℕ) (s : Session) : unrolled_session trips ch s =
    gemm_session ch s ((List.range trips).map (2 * ·)) ((List.range trips).map (1 + 2 * ·)) := by
  rw [unrolled_session, unrolled_tiles_eq, unrolled_tiles_eq]
  simp [gemm_session, session_body]

theorem gemm_frame_unrolled (trips ch : ℕ) (sessions : List Session) :
    gemm_frame ch (sessions.map (unrolled_session trips ch)) =
      park_in ch 32 ++ change_sb_hab ch 2 ++ program_crf_mod ch (32 >>> 4) ++
        sessions.flatMap (fun s =>
          gemm_session ch s ((List.range trips).map (2 * ·)) ((List.range trips).map (1 + 2 * ·))) ++
        change_hab_sb ch 4 ++ park_out ch 32 := by
  rw [gemm_frame, ← List.flatMap_def, funext (unrolled_session_eq trips ch)]

/-- The loops with a counter of their own are those of the kernel over the listed in-tiles. -/
theorem gemm_frame_8tile (p : GemmLaunch) (ch : ℕ) :
    gemm_frame ch ((aligned_sessions p).map (unrolled_session 4 ch)) =
      pim_aligned_gemm_bias_relu_8tile_fp16 p ch := by
  rw [gemm_frame_unrolled]
  rfl

theorem gemm_frame_32tile (p : GemmLaunch) (by_zero : ByZero) (ch : ℕ) :
    (chwise_sessions p by_zero ch).map (fun sessions =>
      gemm_frame ch (sessions.map (unrolled_session 16 ch))) =
        pim_chwise_gemm_bias_relu_32tile_fp16 p by_zero ch := by
  rw [pim_chwise_gemm_bias_relu_32tile_fp16, chwise_kernel]
  exact Option.map_congr fun sessions _ => gemm_frame_unrolled 16 ch sessions

/-- At its tile count each unrolled kernel issues the commands and writes the outputs of the generic
    one. -/
theorem unrolled_kernels_eq (p : GemmLaunch) (by_zero : ByZero) (ch tid : ℕ) (partials : ℤ → ℚ)
    (bias : Option (ℤ → ℚ)) (act_func : PimActFunc) :
    aligned_8tile_run { p with n_in_tile := 8 } ch tid partials bias act_func =
        aligned_run { p with n_in_tile := 8 } ch tid partials bias act_func ∧
      chwise_32tile_run { p with n_in_tile := 32 } by_zero ch tid partials bias act_func =
        chwise_run { p with n_in_tile := 32 } by_zero ch tid partials bias act_func := by
  constructor
  · have hkernel := aligned_gemm_kernel_eq { p with n_in_tile := 8 } ch
    rw [aligned_gemm_kernel, if_pos rfl] at hkernel
    rw [aligned_8tile_run, aligned_run, gemm_frame_8tile, hkernel]
  · have hkernel := chwise_gemm_kernel_eq { p with n_in_tile := 32 } by_zero ch
    rw [chwise_gemm_kernel, if_pos rfl, ← gemm_frame_32tile] at hkernel
    rw [chwise_32tile_run, chwise_run, ← hkernel, Option.map_map]
    rfl

end PimLibrary.Kernel
