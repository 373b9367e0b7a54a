import PimLibrary.Kernel.Epilogue
import PimLibrary.Device.GemmDesc

/-! The aligned epilogue against the emulator's when the output is padded.

    The kernel stores with the padded width as its stride. The emulator computes the same padded sums
    but copies them matrix by matrix to offsets of the real shape, so the two put the same sums at the
    same places only where there is nothing to skip. The kernel's surplus iterations store behind the
    output; their offsets wrap around `2^32`, and then they must find what was there before. -/

namespace PimLibrary.Kernel
open Schemes.Word Schemes.Loop Schemes.Scatter PimLibrary.Device PimLibrary.Layout PimLibrary.Emulator

attribute [local irreducible] int32

/-- The real sizes of a product whose descriptor sends it down the aligned path. -/
structure PaddedGemm where
  n : UInt32
  c : UInt32
  inout_h : UInt32
  in_w_r : UInt32
  out_w_r : UInt32
  n_pos : 0 < n.toNat
  c_pos : 0 < c.toNat
  inout_h_pos : 0 < inout_h.toNat
  refused : check_chwise_gemm_bo (PimCreateBo ⟨n, c, aligned_in_size in_w_r,
    aligned_out_size n c out_w_r⟩) .I_X_W = false
  real_le : out_w_r.toNat ≤ (aligned_out_size n c out_w_r).toNat

namespace PaddedGemm

/-- The product of these sides, whose conditions are checked together. -/
def of (n c inout_h in_w_r out_w_r : UInt32) (h : 0 < n.toNat ∧ 0 < c.toNat ∧ 0 < inout_h.toNat ∧
    check_chwise_gemm_bo (PimCreateBo ⟨n, c, aligned_in_size in_w_r, aligned_out_size n c out_w_r⟩)
      .I_X_W = false ∧
    out_w_r.toNat ≤ (aligned_out_size n c out_w_r).toNat) : PaddedGemm :=
  ⟨n, c, inout_h, in_w_r, out_w_r, h.1, h.2.1, h.2.2.1, h.2.2.2.1, h.2.2.2.2⟩

variable (g : PaddedGemm)

def desc : PimGemmOrder → PimGemmDesc
  | .I_X_W => PimCreateGemmDesc g.n g.c g.inout_h g.in_w_r g.inout_h g.out_w_r .I_X_W
  | .W_X_I => PimCreateGemmDesc g.n g.c g.in_w_r g.inout_h g.out_w_r g.inout_h .W_X_I

/-- The object as `execute_hip_gemm` gets it. -/
def executed (bo : PimBo) : PimGemmOrder → PimBo
  | .I_X_W => bo
  | .W_X_I => set_pimbo_t bo

def input (order : PimGemmOrder) : PimBo :=
  executed ⟨(g.desc order).in_bshape, (g.desc order).in_bshape_r, .PIM_FP16⟩ order

def output (order : PimGemmOrder) : PimBo :=
  executed ⟨(g.desc order).out_bshape, (g.desc order).out_bshape_r, .PIM_FP16⟩ order

/-- A preloaded weight has the padded shape as its real one; a copy of it may keep the descriptor's. -/
def weight (preloaded : Bool) (order : PimGemmOrder) : PimBo :=
  executed (if preloaded then PimCreateBo (g.desc order).wei_bshape
    else ⟨(g.desc order).wei_bshape, (g.desc order).wei_bshape_r, .PIM_FP16⟩) order

def launch (preloaded : Bool) (order : PimGemmOrder) : GemmLaunch :=
  execute_aligned_gemm_tile_accum (g.output order).bshape (g.input order).bshape
    (g.weight preloaded order).bshape

def out_w : UInt32 := aligned_out_size g.n g.c g.out_w_r

def matrices : ℕ := g.n.toNat * g.c.toNat

/-- All output rows. -/
def rows : ℕ := g.matrices * g.inout_h.toNat

def out_tiles : ℕ := g.out_w.toNat / 4096

/-- How many output tiles the kernel goes through. -/
def passes : ℕ := g.rows * g.out_tiles * g.out_tiles

end PaddedGemm

/-- `sums` are what the threads find in the cells of the product's rows, in `[n][c][h][out_w]` order. -/
def AlignedRawSums (p : GemmLaunch) (rows out_w : ℕ) (partials sums : ℤ → ℚ) : Prop :=
  ∀ row, row < rows → ∀ ch, ch < 64 → ∀ tid, tid < 64 → ∀ oi, oi < p.n_out_tile.toNat → ∀ step,
    aligned_reduce_step p ch tid row oi = some step →
      lane_sum partials step.cell = sums ((row * out_w + (oi * 4096 + (ch * 64 + tid)) : ℕ) : ℤ)

/-- Kernel and emulator leave the same value at the place of every real output, for all raw sums. -/
def AlignedEpilogues (g : PaddedGemm) (order : PimGemmOrder) (preloaded : Bool) (mem_type : PimMemType)
    (bias : Option (ℤ → ℚ)) (act_func : PimActFunc) : Prop :=
  ∀ partials sums, AlignedRawSums (g.launch preloaded order) g.rows g.out_w.toNat partials sums →
    ∃ copied,
    execute_gemm_bias_act (g.output order) (g.weight preloaded order) mem_type sums bias act_func =
      some copied ∧
    ∀ m, m < g.matrices → ∀ r, r < g.inout_h.toNat → ∀ k, k < g.out_w_r.toNat → ∃ v,
      written (aligned_epilogue (g.launch preloaded order) partials bias act_func)
        (((m * g.inout_h.toNat + r) * g.out_w.toNat + k : ℕ) : ℤ) = some v ∧
      written copied (((m * g.inout_h.toNat + r) * g.out_w.toNat + k : ℕ) : ℤ) = some v

namespace PaddedGemm

variable (g : PaddedGemm)

/-- Whole tiles in device memory, nothing to skip, and wrapped stores that repeat what they hide. -/
def PlacesAgree (g : PaddedGemm) (preloaded : Bool) (mem_type : PimMemType) : Prop :=
  4096 ∣ g.out_w.toNat ∧ g.rows * g.out_w.toNat < 2 ^ 31 ∧ mem_type ≠ .MEM_TYPE_HOST ∧
    (g.out_w_r = g.out_w ∨ g.matrices = 1 ∧ (preloaded = true ∨ g.inout_h.toNat = 1)) ∧
    ∀ l, l < g.rows * g.out_tiles → (g.passes - 1 - l) / 2 ^ 20 % 2 ^ 12 = 0

/-! ### Shapes -/

theorem output_eq (order : PimGemmOrder) : g.output order =
    ⟨⟨g.n, g.c, g.inout_h, g.out_w⟩, ⟨g.n, g.c, g.inout_h, g.out_w_r⟩, .PIM_FP16⟩ := by
  cases order <;>
    simp only [output, executed, desc, PimCreateGemmDesc, align_gemm_shape, set_pimbo_t,
      PimBShape.t, out_w]

theorem weight_eq (preloaded : Bool) (order : PimGemmOrder) :
    (g.weight preloaded order).bshape = ⟨g.n, g.c, aligned_in_size g.in_w_r, g.out_w⟩ ∧
      (g.weight preloaded order).bshape_r.w = if preloaded then g.out_w else g.out_w_r := by
  cases order <;> cases preloaded <;>
    simp only [weight, executed, desc, PimCreateGemmDesc, align_gemm_shape, set_pimbo_t,
      PimBShape.t, PimCreateBo, out_w, if_true, Bool.false_eq_true, if_false, and_self]

theorem input_eq (order : PimGemmOrder) :
    (g.input order).bshape = ⟨g.n, g.c, g.inout_h, aligned_in_size g.in_w_r⟩ := by
  cases order <;>
    simp only [input, executed, desc, PimCreateGemmDesc, align_gemm_shape, set_pimbo_t, PimBShape.t]

theorem launch_eq (preloaded : Bool) (order : PimGemmOrder) : g.launch preloaded order =
    execute_aligned_gemm_tile_accum ⟨g.n, g.c, g.inout_h, g.out_w⟩ ⟨g.n, g.c, g.inout_h,
      aligned_in_size g.in_w_r⟩
      ⟨g.n, g.c, aligned_in_size g.in_w_r, g.out_w⟩ := by
  rw [launch, output_eq, input_eq, (g.weight_eq preloaded order).1]

theorem out_w_r_le : g.out_w_r.toNat ≤ g.out_w.toNat := g.real_le

theorem matrices_pos : 0 < g.matrices := Nat.mul_pos g.n_pos g.c_pos

theorem rows_pos : 0 < g.rows := Nat.mul_pos g.matrices_pos g.inout_h_pos

/-- A refused width is at least one tile. -/
theorem tile_le_out_w : 4096 ≤ g.out_w.toNat := by
  have hdvd : 4096 ∣ g.matrices * g.out_w.toNat := by
    rcases aligned_out_size_cases g.n g.c g.out_w_r with ⟨heq, hdvd⟩ | ⟨hdvd, -⟩
    · rw [out_w, heq]
      exact hdvd
    · exact hdvd.mul_left _
  by_contra hlt
  have haccept :=
    (check_chwise_gemm_bo_iff (PimCreateBo ⟨g.n, g.c, aligned_in_size g.in_w_r, g.out_w⟩) .I_X_W).mpr
    ⟨not_le.mp hlt, hdvd⟩
  have := g.refused
  rw [out_w] at haccept
  rw [haccept] at this
  cases this

/-- A width that was changed is whole tiles, and every tile holds real outputs. -/
theorem padded (h : g.out_w_r ≠ g.out_w) : 4096 ∣ g.out_w.toNat ∧ g.out_w.toNat <
    g.out_w_r.toNat + 4096 := by
  rcases aligned_out_size_cases g.n g.c g.out_w_r with ⟨heq, -⟩ | hcase
  · exact absurd heq.symm h
  · exact hcase

theorem out_w_lt : g.out_w.toNat < g.out_w_r.toNat + 4096 := by
  by_cases h : g.out_w_r = g.out_w
  · rw [h]; omega
  · exact (g.padded h).2

theorem out_w_r_pos : 0 < g.out_w_r.toNat := by
  have hle := g.real_le
  have htile := g.tile_le_out_w
  by_cases h : g.out_w_r = g.out_w
  · rw [h]; omega
  · have := (g.padded h).2
    obtain ⟨q, hq⟩ := (g.padded h).1
    omega

/-! ### The kernel's stores -/

theorem n_out_tile_eq (preloaded : Bool) (order : PimGemmOrder) :
    (g.launch preloaded order).n_out_tile = (g.out_tiles : ℤ) := by
  have hlt := g.out_w.toNat_lt
  have h : (g.launch preloaded order).n_out_tile = int32 (g.out_tiles : ℤ) := by rw [launch_eq]; rfl
  rw [h, int32_natCast (by rw [out_tiles]; omega)]

/-- The store of thread `u` for output tile `li`, counted through all passes. -/
def store (partials : ℤ → ℚ) (bias : Option (ℤ → ℚ)) (act_func : PimActFunc) (u li : ℕ) : ℤ × ℚ :=
  (int32 ((4096 * li + u : ℕ) : ℤ), bias_act bias act_func (int32 ((4096 * li + u : ℕ) : ℤ))
    (lane_sum partials ((16 * laneCell u (int32 (li : ℤ)) : ℕ) : ℤ)))

/-- Every write of the epilogue is one of a thread's. -/
theorem mem_aligned_epilogue {p : GemmLaunch} {partials : ℤ → ℚ} {bias : Option (ℤ → ℚ)}
    {act_func : PimActFunc}
    {w : ℤ × ℚ} (h : w ∈ aligned_epilogue p partials bias act_func) : w.1 < 2 ^ 31 ∧
      ∃ cell, w.2 = bias_act bias act_func w.1 (lane_sum partials cell) := by
  simp only [aligned_epilogue, List.mem_flatMap, List.mem_range, List.mem_filterMap] at h
  obtain ⟨ch, -, tid, -, step?, hstep, heq⟩ := h
  rcases step? with _ | step
  · cases heq
  · cases heq
    exact ⟨aligned_reduce_out_lt p hstep, _, rfl⟩

section Whole

variable {g} (hW : 4096 ∣ g.out_w.toNat) (hN : g.rows * g.out_w.toNat < 2 ^ 31)
include hW hN

omit hN in
theorem out_w_eq : g.out_w.toNat = 4096 * g.out_tiles := (Nat.mul_div_cancel' hW).symm

theorem tiles_lt : g.rows * g.out_tiles < 2 ^ 19 := by
  rw [out_w_eq hW, Nat.mul_left_comm] at hN
  omega

omit hN in
theorem out_tiles_pos : 0 < g.out_tiles := by
  have := g.tile_le_out_w
  have := out_w_eq hW
  omega

theorem rows_lt : g.rows < 2 ^ 19 :=
  lt_of_le_of_lt (Nat.le_mul_of_pos_right _ (out_tiles_pos hW)) (tiles_lt hW hN)

theorem inout_h_lt : g.inout_h.toNat < 2 ^ 19 :=
  lt_of_le_of_lt (Nat.le_mul_of_pos_left _ g.matrices_pos) (rows_lt hW hN)

theorem matrix_tiles_lt : g.matrices * g.out_tiles < 2 ^ 19 :=
  lt_of_le_of_lt (Nat.mul_le_mul_right _ (Nat.le_mul_of_pos_right _ g.inout_h_pos)) (tiles_lt hW hN)

theorem launch_counts (preloaded : Bool) (order : PimGemmOrder) :
    (g.launch preloaded order).iter_cnt.toNat = g.matrices * g.out_tiles ∧
      (g.launch preloaded order).inout_h.toNat = g.inout_h.toNat ∧
      (g.launch preloaded order).out_w = (g.out_w.toNat : ℤ) := by
  have hmt := matrix_tiles_lt hW hN
  have hh := inout_h_lt hW hN
  have hwidth : g.out_w.toNat < 2 ^ 31 :=
    lt_of_le_of_lt (Nat.le_mul_of_pos_left _ g.rows_pos) hN
  have hiter : (g.launch preloaded order).iter_cnt =
      int32 ((g.n * g.c * g.out_w / 4096).toNat : ℤ) := by
    rw [launch_eq]; rfl
  have hrow : (g.launch preloaded order).inout_h = int32 (g.inout_h.toNat : ℤ) := by rw [launch_eq]; rfl
  have hout : (g.launch preloaded order).out_w = int32 (g.out_w.toNat : ℤ) := by rw [launch_eq]; rfl
  have hcount : (g.n * g.c * g.out_w / 4096).toNat = g.matrices * g.out_tiles := by
    have h4096 : (4096 : UInt32).toNat = 4096 := rfl
    have hmat : g.matrices = g.n.toNat * g.c.toNat := rfl
    rw [UInt32.toNat_div, UInt32.toNat_mul, UInt32.toNat_mul, Nat.mod_mul_mod, h4096,
      out_w_eq hW, ← hmat, Nat.mul_left_comm, Nat.mod_eq_of_lt (by omega), Nat.mul_div_cancel_left _
        (by norm_num)]
  refine ⟨?_, ?_, ?_⟩
  · rw [hiter, hcount, int32_natCast (by omega), Int.toNat_natCast]
  · rw [hrow, int32_natCast (by omega), Int.toNat_natCast]
  · rw [hout, int32_natCast hwidth]

/-- Inside the padded width no guard fails. -/
theorem reduce_step_eq (preloaded : Bool) (order : PimGemmOrder) {ch tid q oi : ℕ} (hch : ch < 64)
    (htid : tid < 64)
    (hoi : oi < g.out_tiles) : aligned_reduce_step (g.launch preloaded order) ch tid (q : ℤ) oi =
      some ⟨((16 * laneCell (ch * 64 + tid) (int32 ((q * g.out_tiles + oi : ℕ) : ℤ)) : ℕ) : ℤ),
        int32 ((4096 * (q * g.out_tiles + oi) + (ch * 64 + tid) : ℕ) : ℤ)⟩ := by
  obtain ⟨-, -, hout⟩ := launch_counts hW hN preloaded order
  have hwidth : g.out_w.toNat < 2 ^ 31 := lt_of_le_of_lt (Nat.le_mul_of_pos_left _ g.rows_pos) hN
  have hw := out_w_eq hW
  have hidx : oi * 4096 + (ch * 64 + tid) < g.out_w.toNat := by omega
  have hplace : (q : ℤ) * g.out_w.toNat + ((oi * 4096 + (ch * 64 + tid) : ℕ) : ℤ) =
      ((4096 * (q * g.out_tiles + oi) + (ch * 64 + tid) : ℕ) : ℤ) := by
    rw [hw]
    push_cast
    ring
  have hli : (q : ℤ) * g.out_tiles + oi = ((q * g.out_tiles + oi : ℕ) : ℤ) := by push_cast; rfl
  rw [aligned_reduce_step_eq _ _ htid, int32_natCast (n := oi * 4096 + (ch * 64 + tid)) (by omega), hout,
    if_pos (by exact_mod_cast hidx), n_out_tile_eq, hplace, hli]

/-- The epilogue's writes, thread by thread and tile by tile. -/
theorem aligned_epilogue_eq (preloaded : Bool) (order : PimGemmOrder) (partials : ℤ → ℚ)
    (bias : Option (ℤ → ℚ))
    (act_func : PimActFunc) : aligned_epilogue (g.launch preloaded order) partials bias act_func =
      (List.range (4096 * g.passes)).map fun q => store partials bias act_func (q / g.passes)
        (q % g.passes) := by
  obtain ⟨hiter, hrow, -⟩ := launch_counts hW hN preloaded order
  have hmt := matrix_tiles_lt hW hN
  have hpasses : g.matrices * g.out_tiles * g.inout_h.toNat * g.out_tiles = g.passes := by
    rw [passes, rows]; ring
  have hthread : ∀ ch, ch < 64 → ∀ tid, tid < 64 →
      (aligned_reduce (g.launch preloaded order) ch tid).filterMap (Option.map fun step =>
        (step.out, bias_act bias act_func step.out (lane_sum partials step.cell))) =
      (List.range g.passes).map (store partials bias act_func (ch * 64 + tid)) := by
    intro ch hch tid htid
    have hstep : ∀ i, i < g.matrices * g.out_tiles → ∀ r, r < g.inout_h.toNat →
        ((List.range g.out_tiles).map (aligned_reduce_step (g.launch preloaded order) ch tid
          (aligned_state (g.launch preloaded order) i r).gemv_cnt)).filterMap (Option.map fun step =>
            (step.out, bias_act bias act_func step.out (lane_sum partials step.cell))) =
        (List.range g.out_tiles).map fun oi =>
          store partials bias act_func (ch * 64 + tid) ((i * g.inout_h.toNat + r) * g.out_tiles + oi) := by
      intro i hi r hr
      have hq : i * g.inout_h.toNat + r < 2 ^ 19 := by
        have hend : i * g.inout_h.toNat + r < (i + 1) * g.inout_h.toNat := by rw [Nat.succ_mul]; omega
        have hle : (i + 1) * g.inout_h.toNat ≤ g.matrices * g.out_tiles * g.inout_h.toNat :=
          Nat.mul_le_mul_right _ hi
        have hall : g.matrices * g.out_tiles * g.inout_h.toNat =
          g.rows * g.out_tiles := by rw [rows]; ring
        have := tiles_lt hW hN
        omega
      have hcnt : (aligned_state (g.launch preloaded order) i r).gemv_cnt =
          ((i * g.inout_h.toNat + r : ℕ) : ℤ) := by
        rw [aligned_state_cnt, hrow, int32_natCast (by omega)]
      rw [List.filterMap_map]
      refine filterMap_range fun oi hoi => ?_
      rw [Function.comp_apply, hcnt]
      rw [reduce_step_eq hW hN preloaded order hch htid hoi]
      rfl
    rw [aligned_reduce_eq, hiter, hrow, n_out_tile_eq, Int.toNat_natCast, List.filterMap_flatMap,
      ← hpasses, flatMap_range_nest (f := store partials bias act_func (ch * 64 + tid))]
    refine List.flatMap_congr fun i hi => ?_
    rw [List.filterMap_flatMap]
    exact List.flatMap_congr fun r hr => hstep i (List.mem_range.mp hi) r (List.mem_range.mp hr)
  rw [← flatMap_range_map (64 * 64) g.passes (store partials bias act_func), ← flatMap_range_flatMap]
  refine List.flatMap_congr fun ch hch => List.flatMap_congr fun tid htid => ?_
  exact hthread ch (List.mem_range.mp hch) tid (List.mem_range.mp htid)

omit hW hN in
/-- No store after the last pass over a place comes back to it. -/
theorem later_pass {passes l u K j : ℕ} (hu : u < 4096) (hend : passes ≤ l + 2 ^ 20 * K + 2 ^ 20)
    (hj : u * passes + (l + 2 ^ 20 * K) < j) (hj' : j < 4096 * passes) (k : ℤ) :
    ((4096 * (j % passes) + j / passes : ℕ) : ℤ) + 2 ^ 32 * k ≠ ((4096 * l + u : ℕ) : ℤ) := by
  have hpos : 0 < passes := by omega
  have hthread : j / passes < 4096 := Nat.div_lt_of_lt_mul (by rwa [Nat.mul_comm])
  have htile := Nat.mod_lt j hpos
  have hdm := Nat.div_add_mod' j passes
  generalize j % passes = lj at *
  generalize j / passes = u' at *
  intro heq
  obtain rfl : u' = u := by omega
  omega

/-- What the kernel leaves at a place: the sum of the cell that the last pass over it finds. -/
theorem written_kernel (preloaded : Bool) (order : PimGemmOrder) (partials : ℤ → ℚ)
    (bias : Option (ℤ → ℚ))
    (act_func : PimActFunc) {l u : ℕ} (hl : l < g.rows * g.out_tiles) (hu : u < 4096) :
    written (aligned_epilogue (g.launch preloaded order) partials bias act_func)
      ((4096 * l + u : ℕ) : ℤ) =
      some (bias_act bias act_func ((4096 * l + u : ℕ) : ℤ) (lane_sum partials
        ((16 * laneCell u (int32 ((l + 2 ^ 20 * ((g.passes - 1 - l) / 2 ^ 20) : ℕ) : ℤ)) : ℕ) : ℤ))) := by
  have htiles := tiles_lt hW hN
  have hpasses : g.rows * g.out_tiles ≤ g.passes := Nat.le_mul_of_pos_right _ (out_tiles_pos hW)
  have hlast : l + 2 ^ 20 * ((g.passes - 1 - l) / 2 ^ 20) < g.passes := by omega
  have hend : g.passes ≤ l + 2 ^ 20 * ((g.passes - 1 - l) / 2 ^ 20) + 2 ^ 20 := by omega
  generalize hK : (g.passes - 1 - l) / 2 ^ 20 = K at hlast hend
  have hpos : 0 < g.passes := by omega
  -- the write of the last pass
  have hplace : int32 ((4096 * (l + 2 ^ 20 * K) + u : ℕ) : ℤ) = ((4096 * l + u : ℕ) : ℤ) := by
    have hsplit : ((4096 * (l + 2 ^ 20 * K) + u : ℕ) : ℤ) = ((4096 * l + u : ℕ) : ℤ) + 2 ^ 32 * K := by
      push_cast; ring
    rw [hsplit, int32_add_mul, int32_natCast (by omega)]
  have hq : u * g.passes + (l + 2 ^ 20 * K) < 4096 * g.passes := by
    calc u * g.passes + (l + 2 ^ 20 * K) < u * g.passes + g.passes := by omega
      _ = (u + 1) * g.passes := by ring
      _ ≤ 4096 * g.passes := Nat.mul_le_mul_right _ hu
  have hdiv : (u * g.passes + (l + 2 ^ 20 * K)) / g.passes = u := by
    rw [Nat.mul_comm, Nat.mul_add_div hpos, Nat.div_eq_of_lt hlast, Nat.add_zero]
  have hmod : (u * g.passes + (l + 2 ^ 20 * K)) % g.passes = l + 2 ^ 20 * K := by
    rw [Nat.mul_comm, Nat.mul_add_mod, Nat.mod_eq_of_lt hlast]
  have hwritten :=
    written_range (f := fun q => store partials bias act_func (q / g.passes) (q % g.passes)) hq
    (fun j hj hj' heq => by
      simp only [store, hdiv, hmod, hplace] at heq
      obtain ⟨k, hk⟩ := int32_eq_add_mul ((4096 * (j % g.passes) + j / g.passes : ℕ) : ℤ)
      exact later_pass hu hend hj hj' k (hk.symm.trans heq))
  rw [aligned_epilogue_eq hW hN]
  simp only [hdiv, hmod, store, hplace] at hwritten
  exact hwritten

end Whole

/-! ### The emulator's copies -/

theorem copy_outs_padded (preloaded : Bool) (order : PimGemmOrder) :
    copy_outs (g.output order) (g.weight preloaded order) = (List.range g.matrices).map fun m =>
      ⟨int32 ((m * (g.inout_h.toNat * g.out_w_r.toNat) : ℕ) : ℤ),
        int32 ((m * (g.inout_h.toNat * g.out_w.toNat) : ℕ) : ℤ),
          uint32 ((if preloaded then g.out_w.toNat else g.out_w_r.toNat) * g.inout_h.toNat)⟩ := by
  have hw := (g.weight_eq preloaded order).2
  rw [copy_outs_eq (by rw [output_eq]), hw, output_eq, apply_ite UInt32.toNat]
  rfl

theorem out_dim_padded (order : PimGemmOrder) : out_dim (g.output order) = int32
    (g.rows * g.out_w.toNat : ℕ) := by
  rw [out_dim, elements, int32_uint32, output_eq, rows, matrices]

/-- How much of a matrix a copy takes. -/
def copied_len (preloaded : Bool) : ℕ :=
  (if preloaded then g.out_w.toNat else g.out_w_r.toNat) * g.inout_h.toNat

theorem copied_len_le (preloaded : Bool) : g.copied_len preloaded ≤ g.inout_h.toNat *
    g.out_w.toNat := by
  have hreal := g.out_w_r_le
  rw [copied_len, Nat.mul_comm]
  refine Nat.mul_le_mul_left _ ?_
  split_ifs
  · exact le_refl _
  · exact hreal

theorem matrix_end {m : ℕ} (hm : m < g.matrices) :
    m * (g.inout_h.toNat * g.out_w.toNat) + g.inout_h.toNat * g.out_w.toNat ≤
      g.rows * g.out_w.toNat := by
  calc m * (g.inout_h.toNat * g.out_w.toNat) + g.inout_h.toNat * g.out_w.toNat =
      (m + 1) * (g.inout_h.toNat * g.out_w.toNat) := by ring
    _ ≤ g.matrices * (g.inout_h.toNat * g.out_w.toNat) := Nat.mul_le_mul_right _ hm
    _ = g.rows * g.out_w.toNat := by rw [rows]; ring

/-- When the padded output fits an `int`, no offset wraps. -/
theorem copy_outs_exact (hN : g.rows * g.out_w.toNat < 2 ^ 31) (preloaded : Bool)
    (order : PimGemmOrder) :
    copy_outs (g.output order) (g.weight preloaded order) = (List.range g.matrices).map fun m =>
      ⟨((m * (g.inout_h.toNat * g.out_w_r.toNat) : ℕ) : ℤ),
        ((m * (g.inout_h.toNat * g.out_w.toNat) : ℕ) : ℤ), g.copied_len preloaded⟩ := by
  have hlen := g.copied_len_le preloaded
  have hone := g.matrix_end g.matrices_pos
  rw [copy_outs_padded]
  refine List.map_congr_left fun m hm => ?_
  have hend := g.matrix_end (List.mem_range.mp hm)
  have hreal : m * (g.inout_h.toNat * g.out_w_r.toNat) ≤ m * (g.inout_h.toNat * g.out_w.toNat) :=
    Nat.mul_le_mul_left _ (Nat.mul_le_mul_left _ g.out_w_r_le)
  rw [int32_natCast (by omega), int32_natCast (by omega), ← copied_len, uint32_of_lt (by omega)]

/-- Without a wrap, and with nothing to skip between matrices, the emulator leaves the activated
    sums. -/
theorem emulator_places (preloaded : Bool) (order : PimGemmOrder) (hN : g.rows * g.out_w.toNat < 2 ^ 31)
    {mem_type : PimMemType} (hmem : mem_type ≠ .MEM_TYPE_HOST)
    (hplace : g.out_w_r = g.out_w ∨ g.matrices = 1 ∧ (preloaded = true ∨ g.inout_h.toNat = 1))
      (sums : ℤ → ℚ)
    (bias : Option (ℤ → ℚ)) (act_func : PimActFunc) :
    ∃ copied, execute_gemm_bias_act (g.output order) (g.weight preloaded order) mem_type sums bias
      act_func =
      some copied ∧ ∀ m, m < g.matrices → ∀ r, r < g.inout_h.toNat → ∀ k, k < g.out_w_r.toNat →
        written copied (((m * g.inout_h.toNat + r) * g.out_w.toNat + k : ℕ) : ℤ) =
          some (bias_act bias act_func (((m * g.inout_h.toNat + r) * g.out_w.toNat + k : ℕ) : ℤ)
            (sums (((m * g.inout_h.toNat + r) * g.out_w.toNat + k : ℕ) : ℤ))) := by
  have hdim : out_dim (g.output order) = ((g.rows * g.out_w.toNat : ℕ) : ℤ) := by
    rw [out_dim_padded, int32_natCast hN]
  have hlen := g.copied_len_le preloaded
  have hcopies := g.copy_outs_exact hN preloaded order
  have hin : ∀ copy ∈ copy_outs (g.output order) (g.weight preloaded order),
      copy.Inside (out_dim (g.output order)) := by
    intro copy hcopy
    rw [hcopies] at hcopy
    obtain ⟨m, hm, rfl⟩ := List.mem_map.mp hcopy
    have := g.matrix_end (List.mem_range.mp hm)
    rw [CopyOut.Inside, hdim]
    dsimp only
    omega
  have hsame : ∀ copy ∈ copy_outs (g.output order) (g.weight preloaded order), copy.dst = copy.src := by
    intro copy hcopy
    rw [hcopies] at hcopy
    obtain ⟨m, hm, rfl⟩ := List.mem_map.mp hcopy
    rcases hplace with heq | ⟨hmat, -⟩
    · simp only [heq]
    · have hzero : m = 0 := by have := List.mem_range.mp hm; omega
      simp only [hzero, Nat.zero_mul]
  have hdim0 : 0 ≤ out_dim (g.output order) := by rw [hdim]; exact Int.natCast_nonneg _
  refine ⟨_, execute_eq hdim0 hmem hin, fun m hm r hr k hk => written_same_place hsame ?_⟩
  have hcover : r * g.out_w.toNat + k < g.copied_len preloaded := by
    have hreal := g.out_w_r_le
    have hrow : r * g.out_w.toNat + k < g.out_w.toNat * g.inout_h.toNat := by
      calc r * g.out_w.toNat + k < r * g.out_w.toNat + g.out_w.toNat := by omega
        _ = g.out_w.toNat * (r + 1) := by ring
        _ ≤ g.out_w.toNat * g.inout_h.toNat := Nat.mul_le_mul_left _ hr
    rw [copied_len]
    rcases hplace with heq | ⟨-, hpre | hone_row⟩
    · rw [heq, ite_self]
      exact hrow
    · rw [if_pos hpre]
      exact hrow
    · obtain rfl : r = 0 := by omega
      rw [hone_row, Nat.mul_one, Nat.zero_mul, Nat.zero_add]
      split_ifs <;> omega
  have hpos : (m * g.inout_h.toNat + r) * g.out_w.toNat + k =
      m * (g.inout_h.toNat * g.out_w.toNat) + (r * g.out_w.toNat + k) := by ring
  rw [hcopies]
  refine ⟨_, List.mem_map.mpr ⟨m, List.mem_range.mpr hm, rfl⟩, ?_⟩
  rw [hpos]
  dsimp only
  omega

/-- Every write of the emulator is one of a matrix's copy. -/
theorem mem_copied {preloaded : Bool} {order : PimGemmOrder} {mem_type : PimMemType} {sums : ℤ → ℚ}
    {bias : Option (ℤ → ℚ)} {act_func : PimActFunc} {copied : List (ℤ × ℚ)}
      (hN : g.rows * g.out_w.toNat < 2 ^ 31)
    (hmem : mem_type ≠ .MEM_TYPE_HOST)
    (h : execute_gemm_bias_act (g.output order) (g.weight preloaded order) mem_type sums bias
      act_func = some copied)
    {w : ℤ × ℚ} (hw : w ∈ copied) : ∃ m < g.matrices,
      ∃ j < g.copied_len preloaded,
        w.1 = ((m * (g.inout_h.toNat * g.out_w_r.toNat) + j : ℕ) : ℤ) ∧
        w.2 = bias_act bias act_func ((m * (g.inout_h.toNat * g.out_w.toNat) + j : ℕ) : ℤ)
          (sums ((m * (g.inout_h.toNat * g.out_w.toNat) + j : ℕ) : ℤ)) := by
  obtain ⟨-, heq⟩ := (of_execute h).2.2 hmem
  rw [heq, g.copy_outs_exact hN] at hw
  obtain ⟨copy, hcopy, hwrite⟩ := List.mem_flatMap.mp hw
  obtain ⟨m, hm, rfl⟩ := List.mem_map.mp hcopy
  obtain ⟨j, hj, rfl⟩ := mem_writes.mp hwrite
  refine ⟨m, List.mem_range.mp hm, j, hj, ?_, ?_⟩ <;> simp only [Nat.cast_add]

/-- The copy of the second of two one-row matrices ends with its padding. -/
theorem written_second {preloaded : Bool} {order : PimGemmOrder} {mem_type : PimMemType} {sums : ℤ → ℚ}
    {bias : Option (ℤ → ℚ)} {act_func : PimActFunc} {copied : List (ℤ × ℚ)}
      (hN : g.rows * g.out_w.toNat < 2 ^ 31)
    (hmem : mem_type ≠ .MEM_TYPE_HOST)
    (h : execute_gemm_bias_act (g.output order) (g.weight preloaded order) mem_type sums bias
      act_func = some copied)
    (hpre : preloaded = true) (hmat : g.matrices = 2) (hh : g.inout_h.toNat = 1) (hreal : 0 <
      g.out_w_r.toNat) :
    written copied ((g.out_w.toNat + (g.out_w_r.toNat - 1) : ℕ) : ℤ) =
      some (bias_act bias act_func ((g.out_w.toNat + (g.out_w.toNat - 1) : ℕ) : ℤ)
        (sums ((g.out_w.toNat + (g.out_w.toNat - 1) : ℕ) : ℤ))) := by
  obtain ⟨-, heq⟩ := (of_execute h).2.2 hmem
  have hlen : g.copied_len preloaded = g.out_w.toNat := by rw [copied_len, hh, if_pos hpre, Nat.mul_one]
  have hle := g.out_w_r_le
  have hrange : List.range 2 = [0, 1] := rfl
  rw [heq, g.copy_outs_exact hN, hmat, hrange, hh, hlen]
  simp only [List.map_cons, List.map_nil, List.flatMap_cons, List.flatMap_nil, List.append_nil,
    Nat.one_mul]
  have hplace : ((g.out_w.toNat + (g.out_w_r.toNat - 1) : ℕ) : ℤ) =
      (g.out_w_r.toNat : ℤ) + ((g.out_w.toNat - 1 : ℕ) : ℤ) := by omega
  have hj : g.out_w.toNat - 1 < g.out_w.toNat := by omega
  rw [hplace, Nat.cast_add]
  rw [written_append ⟨_, mem_writes.mpr ⟨g.out_w.toNat - 1, hj, rfl⟩, rfl⟩]
  refine written_eq ⟨_, mem_writes.mpr ⟨g.out_w.toNat - 1, hj, rfl⟩, rfl⟩ ?_
  intro w hw ha
  obtain ⟨j, -, rfl⟩ := mem_writes.mp hw
  obtain rfl : j = g.out_w.toNat - 1 := by
    dsimp only at ha
    omega
  rfl

/-! ### When the places agree -/

section Agree

variable {g} {preloaded : Bool} {order : PimGemmOrder} {mem_type : PimMemType} {bias : Option (ℤ → ℚ)}
  {act_func : PimActFunc}

/-- A real output as a thread's place in a tile. -/
theorem place_eq (hW : 4096 ∣ g.out_w.toNat) {row k : ℕ} (hrow : row < g.rows)
    (hk : k < g.out_w.toNat) :
    row * g.out_w.toNat + k = 4096 * (row * g.out_tiles + k / 4096) + k % 4096 ∧
      row * g.out_tiles + k / 4096 < g.rows * g.out_tiles := by
  have hw := out_w_eq hW
  constructor
  · rw [hw]
    have := Nat.div_add_mod k 4096
    have hring : row * (4096 * g.out_tiles) = 4096 * (row * g.out_tiles) := by ring
    omega
  · calc row * g.out_tiles + k / 4096 < row * g.out_tiles + g.out_tiles := by omega
      _ = (row + 1) * g.out_tiles := by ring
      _ ≤ g.rows * g.out_tiles := Nat.mul_le_mul_right _ hrow

theorem row_lt {m r : ℕ} (hm : m < g.matrices) (hr : r < g.inout_h.toNat) :
    m * g.inout_h.toNat + r < g.rows :=
  calc m * g.inout_h.toNat + r < m * g.inout_h.toNat + g.inout_h.toNat := by omega
    _ = (m + 1) * g.inout_h.toNat := by ring
    _ ≤ g.rows := Nat.mul_le_mul_right _ hm

/-- The cell of a tile of the product holds its raw sum. -/
theorem lane_sum_of_raw (hW : 4096 ∣ g.out_w.toNat) (hN : g.rows * g.out_w.toNat < 2 ^ 31)
    {partials sums : ℤ → ℚ}
    (hraw : AlignedRawSums (g.launch preloaded order) g.rows g.out_w.toNat partials sums) {l u : ℕ}
    (hl : l < g.rows * g.out_tiles) (hu : u < 4096) :
    lane_sum partials ((16 * laneCell u (l : ℤ) : ℕ) : ℤ) = sums ((4096 * l + u : ℕ) : ℤ) := by
  have htiles := tiles_lt hW hN
  have hot := out_tiles_pos hW
  have hrow : l / g.out_tiles < g.rows := Nat.div_lt_of_lt_mul (by rwa [Nat.mul_comm])
  have hoi := Nat.mod_lt l hot
  have hthread : u / 64 * 64 + u % 64 = u := Nat.div_add_mod' u 64
  have hstep := reduce_step_eq hW hN preloaded order (q := l / g.out_tiles) (by omega : u / 64 < 64)
    (Nat.mod_lt u (by norm_num)) hoi
  have hsum := hraw _ hrow _ (by omega) _ (Nat.mod_lt u (by norm_num)) (l % g.out_tiles)
    (by rw [n_out_tile_eq, Int.toNat_natCast]; exact hoi) _ hstep
  have hplace : l / g.out_tiles * g.out_w.toNat + (l % g.out_tiles * 4096 + u) = 4096 * l + u := by
    calc l / g.out_tiles * g.out_w.toNat + (l % g.out_tiles * 4096 + u) =
        4096 * (l / g.out_tiles * g.out_tiles + l % g.out_tiles) + u := by rw [out_w_eq hW]; ring
      _ = 4096 * l + u := by rw [Nat.div_add_mod']
  rw [hthread, Nat.div_add_mod', hplace, int32_natCast (n := l) (by omega)] at hsum
  exact hsum

theorem PlacesAgree.epilogues (h : g.PlacesAgree preloaded mem_type) :
    AlignedEpilogues g order preloaded mem_type bias act_func := by
  obtain ⟨hW, hN, hmem, hplace, hpass⟩ := h
  intro partials sums hraw
  obtain ⟨copied, hcopied, hleft⟩ := g.emulator_places preloaded order hN hmem hplace sums bias act_func
  refine ⟨copied, hcopied, fun m hm r hr k hk => ⟨_, ?_, hleft m hm r hr k hk⟩⟩
  have hreal := g.out_w_r_le
  obtain ⟨hpos, hl⟩ := place_eq hW (row_lt hm hr) (lt_of_lt_of_le hk hreal)
  have hu := Nat.mod_lt k (by norm_num : 0 < 4096)
  rw [hpos, written_kernel hW hN preloaded order partials bias act_func hl hu]
  have hlast := hpass _ hl
  generalize (m * g.inout_h.toNat + r) * g.out_tiles + k / 4096 = l at hl hlast ⊢
  obtain ⟨K, hK⟩ := Nat.dvd_of_mod_eq_zero hlast
  have hsplit : ((l + 2 ^ 20 * ((g.passes - 1 - l) / 2 ^ 20) : ℕ) : ℤ) = (l : ℤ) + 2 ^ 32 * K := by
    rw [hK]; push_cast; ring
  have htiles := tiles_lt hW hN
  rw [hsplit, int32_add_mul, int32_natCast (by omega), lane_sum_of_raw hW hN hraw hl hu]

/-- The sums that the threads find for the product. -/
def rawSums (partials : ℤ → ℚ) (i : ℤ) : ℚ :=
  lane_sum partials ((16 * laneCell (i.toNat % 4096) ((i.toNat / 4096 : ℕ) : ℤ) : ℕ) : ℤ)

theorem rawSums_place (partials : ℤ → ℚ) (l : ℕ) {u : ℕ} (hu : u < 4096) :
    rawSums partials ((4096 * l + u : ℕ) : ℤ) =
      lane_sum partials ((16 * laneCell u (l : ℤ) : ℕ) : ℤ) := by
  have hmod : (4096 * l + u) % 4096 = u := by omega
  have hdiv : (4096 * l + u) / 4096 = l := by omega
  rw [rawSums, Int.toNat_natCast, hmod, hdiv]

theorem raw_rawSums (hW : 4096 ∣ g.out_w.toNat) (hN : g.rows * g.out_w.toNat < 2 ^ 31)
    (partials : ℤ → ℚ) :
    AlignedRawSums (g.launch preloaded order) g.rows g.out_w.toNat partials (rawSums partials) := by
  intro row hrow ch hch tid htid oi hoi step hstep
  rw [n_out_tile_eq, Int.toNat_natCast] at hoi
  have htiles := tiles_lt hW hN
  have hl : row * g.out_tiles + oi < g.rows * g.out_tiles := by
    calc row * g.out_tiles + oi < row * g.out_tiles + g.out_tiles := by omega
      _ = (row + 1) * g.out_tiles := by ring
      _ ≤ g.rows * g.out_tiles := Nat.mul_le_mul_right _ hrow
  have hplace : row * g.out_w.toNat + (oi * 4096 + (ch * 64 + tid)) =
      4096 * (row * g.out_tiles + oi) + (ch * 64 + tid) := by
    rw [out_w_eq hW]; ring
  rw [reduce_step_eq hW hN preloaded order hch htid hoi, Option.some.injEq] at hstep
  rw [← hstep, hplace, rawSums_place partials _ (by omega), int32_natCast (by omega)]

/-- Passes that do not come back modulo `2^32` go through different rows of cells. -/
theorem rows_ne {l K : ℕ} (hK : ¬ K % 2 ^ 12 = 0) :
    toUint32 ((l : ℤ) / 4) ≠ toUint32 (int32 ((l + 2 ^ 20 * K : ℕ) : ℤ) / 4) := by
  obtain ⟨k, hk⟩ := int32_eq_add_mul ((l + 2 ^ 20 * K : ℕ) : ℤ)
  rw [hk]
  unfold toUint32
  omega

section Conditions

variable (h : AlignedEpilogues g order preloaded mem_type bias act_func)
include h

/-- The last real output is inside an `int`, and the emulator's array has a size. -/
theorem size_of_epilogues : g.rows * g.out_w.toNat < 2 ^ 31 ∧ mem_type ≠ .MEM_TYPE_HOST := by
  have hmat := g.matrices_pos
  have hh := g.inout_h_pos
  have hreal := g.out_w_r_pos
  obtain ⟨copied, hcopied, hleft⟩ := h (fun _ => 0) (fun _ => 0) fun _ _ _ _ _ _ _ _ _ _ => by
    rw [lane_sum_const, mul_zero]
  obtain ⟨hdim, hhost, -⟩ := of_execute hcopied
  obtain ⟨v, hkernel, hemul⟩ := hleft (g.matrices - 1) (by omega) (g.inout_h.toNat - 1) (by omega)
    (g.out_w_r.toNat - 1) (by omega)
  constructor
  · have hlast := (mem_aligned_epilogue (mem_of_written hkernel)).1
    have hwidth := g.out_w_lt
    have hrows : (g.matrices - 1) * g.inout_h.toNat + (g.inout_h.toNat - 1) + 1 = g.rows := by
      rw [rows]
      obtain ⟨m, hm⟩ := Nat.exists_eq_succ_of_ne_zero (Nat.pos_iff_ne_zero.mp hmat)
      rw [hm, Nat.succ_sub_one, Nat.succ_mul]
      omega
    have hsize : ((g.matrices - 1) * g.inout_h.toNat + (g.inout_h.toNat - 1)) * g.out_w.toNat +
      g.out_w.toNat =
        g.rows * g.out_w.toNat := by
      rw [← hrows]; ring
    rw [out_dim_padded] at hdim
    by_contra hbig
    have hneg := int32_neg (x := ((g.rows * g.out_w.toNat : ℕ) : ℤ)) (by omega) (by omega)
    exact absurd hdim (not_le.mpr hneg)
  · intro hmem
    rw [hhost hmem] at hemul
    cases hemul

/-- A width that is not whole tiles leaves outputs that no thread stores. -/
theorem whole_of_epilogues : 4096 ∣ g.out_w.toNat := by
  obtain ⟨hN, hmem⟩ := size_of_epilogues h
  by_contra hndvd
  have heq : g.out_w_r = g.out_w := by
    by_contra hne
    exact hndvd (g.padded hne).1
  have htile : 4096 * g.out_tiles < g.out_w.toNat := by
    have hle : 4096 * g.out_tiles ≤ g.out_w.toNat := Nat.mul_div_le _ _
    refine lt_of_le_of_ne hle fun hall => hndvd (hall ▸ Dvd.intro _ rfl)
  obtain ⟨x, hx⟩ := exists_bias_act_gt bias act_func ((4096 * g.out_tiles : ℕ) : ℤ)
    (bias_act bias act_func ((4096 * g.out_tiles : ℕ) : ℤ) 0)
  -- the raw sum of the first such output may be anything
  obtain ⟨copied, hcopied, hleft⟩ :=
    h (fun _ => 0) (fun i => if i = ((4096 * g.out_tiles : ℕ) : ℤ) then x else 0) (by
    intro row hrow ch hch tid htid oi hoi step _
    rw [n_out_tile_eq, Int.toNat_natCast] at hoi
    have hother : row * g.out_w.toNat + (oi * 4096 + (ch * 64 + tid)) ≠ 4096 * g.out_tiles := by
      rcases Nat.eq_zero_or_pos row with rfl | hpos
      · omega
      · have : 1 * g.out_w.toNat ≤ row * g.out_w.toNat := Nat.mul_le_mul_right _ hpos
        omega
    rw [lane_sum_const, mul_zero]
    exact (if_neg (by exact_mod_cast hother)).symm)
  obtain ⟨copied', hcopied', hplaces⟩ := g.emulator_places preloaded order hN hmem (Or.inl heq)
    (fun i => if i = ((4096 * g.out_tiles : ℕ) : ℤ) then x else 0) bias act_func
  obtain rfl : copied = copied' := Option.some.inj (hcopied.symm.trans hcopied')
  obtain ⟨v, hkernel, hemul⟩ := hleft 0 g.matrices_pos 0 g.inout_h_pos _ (heq ▸ htile)
  have hvalue := hplaces 0 g.matrices_pos 0 g.inout_h_pos _ (heq ▸ htile)
  obtain ⟨-, cell, hcell⟩ := mem_aligned_epilogue (mem_of_written hkernel)
  simp only [Nat.zero_mul, Nat.zero_add, if_true] at hcell hvalue hemul
  rw [lane_sum_const, mul_zero] at hcell
  rw [hemul, Option.some.injEq] at hvalue
  rw [← hvalue, hcell] at hx
  exact lt_irrefl _ hx

/-- The stores of later passes are harmless only if they find the cell of the first. -/
theorem passes_of_epilogues (hplace : g.out_w_r = g.out_w ∨ g.matrices = 1 ∧
    (preloaded = true ∨ g.inout_h.toNat = 1))
    {l : ℕ} (hl : l < g.rows * g.out_tiles) : (g.passes - 1 - l) / 2 ^ 20 % 2 ^ 12 = 0 := by
  obtain ⟨hN, hmem⟩ := size_of_epilogues h
  have hW := whole_of_epilogues h
  by_contra hpass
  obtain ⟨x, hx⟩ := exists_bias_act_gt bias act_func ((4096 * l + 0 : ℕ) : ℤ)
    (bias_act bias act_func ((4096 * l + 0 : ℕ) : ℤ) 0)
  have hcells : laneCell 0 (l : ℤ) ≠
      laneCell 0 (int32 ((l + 2 ^ 20 * ((g.passes - 1 - l) / 2 ^ 20) : ℕ) : ℤ)) := by
    intro heq
    exact rows_ne hpass (laneCell_inj (by norm_num) (by norm_num) heq).2
  -- one value, where the last pass finds it
  let partials := spike (laneCell 0 (int32 ((l + 2 ^ 20 * ((g.passes - 1 - l) / 2 ^ 20) : ℕ) : ℤ))) x
  obtain ⟨copied, hcopied, hleft⟩ := h partials (rawSums partials) (raw_rawSums hW hN partials)
  obtain ⟨copied', hcopied', hplaces⟩ :=
    g.emulator_places preloaded order hN hmem hplace (rawSums partials) bias act_func
  obtain rfl : copied = copied' := Option.some.inj (hcopied.symm.trans hcopied')
  have hot := out_tiles_pos hW
  have hrow : l / g.out_tiles < g.rows := Nat.div_lt_of_lt_mul (by rwa [Nat.mul_comm])
  have hoi := Nat.mod_lt l hot
  have hm : l / g.out_tiles / g.inout_h.toNat < g.matrices :=
    Nat.div_lt_of_lt_mul (by rw [Nat.mul_comm]; exact hrow)
  have hr := Nat.mod_lt (l / g.out_tiles) g.inout_h_pos
  have hk : l % g.out_tiles * 4096 < g.out_w_r.toNat := by
    have := g.out_w_lt
    have := out_w_eq hW
    omega
  have hpos : (l / g.out_tiles / g.inout_h.toNat * g.inout_h.toNat + l / g.out_tiles %
    g.inout_h.toNat) * g.out_w.toNat +
      l % g.out_tiles * 4096 = 4096 * l + 0 := by
    rw [Nat.div_add_mod']
    calc l / g.out_tiles * g.out_w.toNat + l % g.out_tiles * 4096 =
        4096 * (l / g.out_tiles * g.out_tiles + l % g.out_tiles) + 0 := by rw [out_w_eq hW]; ring
      _ = 4096 * l + 0 := by rw [Nat.div_add_mod']
  obtain ⟨v, hkernel, hemul⟩ := hleft _ hm _ hr _ hk
  have hvalue := hplaces _ hm _ hr _ hk
  rw [hpos] at hkernel hemul hvalue
  rw [written_kernel hW hN preloaded order partials bias act_func hl (by norm_num), lane_sum_spike,
    if_pos rfl, Option.some.injEq] at hkernel
  rw [hemul, rawSums_place partials l (by norm_num), lane_sum_spike, if_neg hcells,
    Option.some.injEq, ← hkernel] at hvalue
  rw [hvalue] at hx
  exact lt_irrefl _ hx

/-- Two matrices of one row: the second is copied over the padding of the first, and its own padding
    over its last real outputs. -/
theorem two_matrices (hne : g.out_w_r ≠ g.out_w) (hmat : g.matrices = 2) (hh : g.inout_h.toNat = 1) :
    preloaded = false := by
  obtain ⟨hN, hmem⟩ := size_of_epilogues h
  have hW := whole_of_epilogues h
  have hw := out_w_eq hW
  have hot := out_tiles_pos hW
  have hreal := g.out_w_r_pos
  have hle := g.out_w_r_le
  have hlt := g.out_w_lt
  have hne' : g.out_w_r.toNat ≠ g.out_w.toNat := fun heq => hne (UInt32.toNat_inj.mp heq)
  have hrows : g.rows = 2 := by rw [rows, hmat, hh]
  by_contra hpre
  have hpre : preloaded = true := by simpa using hpre
  have hplace : (1 * g.inout_h.toNat + 0) * g.out_w.toNat + (g.out_w_r.toNat - 1) =
      g.out_w.toNat + (g.out_w_r.toNat - 1) := by rw [hh, Nat.mul_one, Nat.add_zero, Nat.one_mul]
  have htile : g.out_w.toNat + (g.out_w_r.toNat - 1) =
      4096 * (g.out_tiles + (g.out_w_r.toNat - 1) / 4096) + (g.out_w_r.toNat - 1) % 4096 := by omega
  have hl : g.out_tiles + (g.out_w_r.toNat - 1) / 4096 < g.rows * g.out_tiles := by rw [hrows]; omega
  have hother : (g.out_w_r.toNat - 1) % 4096 ≠ 4095 := by omega
  have hlast : g.out_w.toNat + (g.out_w.toNat - 1) = 4096 * (2 * g.out_tiles - 1) + 4095 := by omega
  obtain ⟨x, hx⟩ := exists_bias_act_gt bias act_func ((g.out_w.toNat + (g.out_w.toNat - 1) : ℕ) : ℤ)
    (bias_act bias act_func ((g.out_w.toNat + (g.out_w_r.toNat - 1) : ℕ) : ℤ) 0)
  -- one value, in the last padded column of the second matrix
  let partials := spike (laneCell 4095 ((2 * g.out_tiles - 1 : ℕ) : ℤ)) x
  obtain ⟨copied, hcopied, hleft⟩ := h partials (rawSums partials) (raw_rawSums hW hN partials)
  obtain ⟨v, hkernel, hemul⟩ := hleft 1 (by omega) 0 (by omega) (g.out_w_r.toNat - 1) (by omega)
  rw [hplace] at hkernel hemul
  rw [htile, written_kernel hW hN preloaded order partials bias act_func hl (Nat.mod_lt _ (by norm_num)),
    lane_sum_spike, if_neg fun heq =>
      hother (laneCell_inj (Nat.mod_lt _ (by norm_num)) (by norm_num) heq).1, ← htile,
    Option.some.injEq] at hkernel
  have hsecond := g.written_second hN hmem hcopied hpre hmat hh hreal
  rw [hemul, hlast, rawSums_place partials _ (by norm_num), lane_sum_spike, if_pos rfl, ← hlast,
    Option.some.injEq, ← hkernel] at hsecond
  rw [hsecond] at hx
  exact lt_irrefl _ hx

/-- The copies reach the last real output, and put its own sum there, only with nothing to skip. -/
theorem places_of_epilogues : g.out_w_r = g.out_w ∨ g.matrices = 1 ∧
    (preloaded = true ∨ g.inout_h.toNat = 1) := by
  obtain ⟨hN, hmem⟩ := size_of_epilogues h
  by_contra hno
  push Not at hno
  obtain ⟨hne, hskip⟩ := hno
  have hmat := g.matrices_pos
  have hh := g.inout_h_pos
  have hreal := g.out_w_r_pos
  have hle := g.out_w_r_le
  have hne' : g.out_w_r.toNat ≠ g.out_w.toNat := fun heq => hne (UInt32.toNat_inj.mp heq)
  obtain ⟨copied, hcopied, hleft⟩ := h (fun _ => 0) (fun _ => 0) fun _ _ _ _ _ _ _ _ _ _ => by
    rw [lane_sum_const, mul_zero]
  obtain ⟨v, -, hemul⟩ := hleft (g.matrices - 1) (by omega) (g.inout_h.toNat - 1) (by omega)
    (g.out_w_r.toNat - 1) (by omega)
  obtain ⟨m, hm, j, hj, hplace, -⟩ := g.mem_copied hN hmem hcopied (mem_of_written hemul)
  rw [Nat.cast_inj] at hplace
  obtain ⟨M, hM⟩ : ∃ M, g.matrices = M + 1 := ⟨g.matrices - 1, by omega⟩
  obtain ⟨H, hH⟩ : ∃ H, g.inout_h.toNat = H + 1 := ⟨g.inout_h.toNat - 1, by omega⟩
  obtain ⟨D, hD⟩ : ∃ D, g.out_w.toNat = g.out_w_r.toNat + D :=
    ⟨g.out_w.toNat - g.out_w_r.toNat, by omega⟩
  have hend : (M * (H + 1) + H) * g.out_w.toNat + (g.out_w_r.toNat - 1) <
      M * ((H + 1) * g.out_w_r.toNat) + g.copied_len preloaded := by
    have hmle : m * ((H + 1) * g.out_w_r.toNat) ≤ M * ((H + 1) * g.out_w_r.toNat) :=
      Nat.mul_le_mul_right _ (by omega)
    rw [hM, hH, Nat.add_sub_cancel, Nat.add_sub_cancel] at hplace
    omega
  have hgap : (M * (H + 1) + H) * g.out_w.toNat = (M * (H + 1) + H) * g.out_w_r.toNat +
      (M * (H + 1) + H) * D := by
    rw [hD]; ring
  cases hpre : preloaded with
  | false =>
    have hlen : g.copied_len preloaded = (H + 1) * g.out_w_r.toNat := by
      rw [copied_len, hpre, hH, if_neg (by decide), Nat.mul_comm]
    have hsum : M * ((H + 1) * g.out_w_r.toNat) + (H + 1) * g.out_w_r.toNat =
        (M * (H + 1) + H) * g.out_w_r.toNat + g.out_w_r.toNat := by ring
    have hzero : (M * (H + 1) + H) * D = 0 := by omega
    have hM0 : M * (H + 1) + H = 0 := by
      rcases Nat.mul_eq_zero.mp hzero with hrow | hD0
      · exact hrow
      · omega
    exact (hskip (by
      have : M * 1 ≤ M * (H + 1) := Nat.mul_le_mul_left _ (by omega)
      omega)).2 (by omega)
  | true =>
    have hlen : g.copied_len preloaded = (H + 1) * g.out_w_r.toNat + (H + 1) * D := by
      rw [copied_len, hpre, hH, if_pos rfl, hD]; ring
    have hsum : M * ((H + 1) * g.out_w_r.toNat) + (H + 1) * g.out_w_r.toNat =
        (M * (H + 1) + H) * g.out_w_r.toNat + g.out_w_r.toNat := by ring
    have hsum' : (M * (H + 1) + H) * D + D = M * (H + 1) * D + (H + 1) * D := by ring
    have hle1 : M * (H + 1) ≤ 1 := by
      by_contra hbig
      have : 2 * D ≤ M * (H + 1) * D := Nat.mul_le_mul_right _ (by omega)
      omega
    have hM1 : M ≠ 0 := by
      rintro rfl
      exact (hskip hM).1 hpre
    have hM2 : M = 1 ∧ H = 0 := by
      have h1 : 1 * (H + 1) ≤ M * (H + 1) := Nat.mul_le_mul_right _ (by omega)
      have h2 : M * 1 ≤ M * (H + 1) := Nat.mul_le_mul_left _ (by omega)
      omega
    have hfalse := two_matrices h hne (by omega) (by omega)
    rw [hpre] at hfalse
    cases hfalse

end Conditions

end Agree

end PaddedGemm

/-- The two epilogues leave the same values at the same places exactly where the places agree. -/
theorem aligned_epilogues_iff (g : PaddedGemm) (order : PimGemmOrder) (preloaded : Bool)
    (mem_type : PimMemType)
    (bias : Option (ℤ → ℚ)) (act_func : PimActFunc) :
    AlignedEpilogues g order preloaded mem_type bias act_func ↔ g.PlacesAgree preloaded mem_type := by
  refine ⟨fun h => ?_, PaddedGemm.PlacesAgree.epilogues⟩
  obtain ⟨hN, hmem⟩ := PaddedGemm.size_of_epilogues h
  have hplace := PaddedGemm.places_of_epilogues h
  exact ⟨PaddedGemm.whole_of_epilogues h, hN, hmem, hplace, fun l hl =>
    PaddedGemm.passes_of_epilogues h hplace hl⟩

/-- Two matrices of 3000 outputs, padded to 4096. -/
def twoPadded : PaddedGemm := .of 2 1 1 256 3000 (by decide +kernel)

/-- The second matrix lands on the padding of the first. -/
theorem second_matrix_misplaced :
    ¬ AlignedEpilogues twoPadded .I_X_W true .MEM_TYPE_DEVICE none .NONE := by
  intro h
  rcases PaddedGemm.places_of_epilogues h with heq | ⟨hmat, -⟩
  · exact absurd heq (by decide +kernel)
  · exact absurd hmat (by decide)

end PimLibrary.Kernel
