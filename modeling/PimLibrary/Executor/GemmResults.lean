import PimLibrary.Executor.GemmRuns
import PimLibrary.Kernel.PartialSums

/-! The result of an aligned GEMM launch.

    Each channel's unit runs the GEMV program on what its block of the kernel shows it, and the threads of
    the block then add up what the unit left. A product of single output tiles whose partial sums fit their
    buffer, and whose matrices are below `2^31` bytes, ends with every output summed from the channel, block
    and lanes that own it, whatever the order of the channels and threads. With more output tiles the
    kernel goes on behind the operands and the outputs. -/

namespace PimLibrary.Executor
open Schemes.Word Schemes.Loop Schemes.Interleave Schemes.SharedMemory PimLibrary.Kernel PimLibrary.Device
open PimLibrary.Program PimLibrary.Program.PimCommand

attribute [local irreducible] int32

variable {R : Type*}

/-! ### Tiles of a product -/

section Product

variable (g : AlignedGemm)

/-- The session of a tile of partial sums. -/
def tileSession (L : ℕ) : Session :=
  aligned_session g.launch (aligned_state g.launch (L / g.out_tiles / g.rows) (L / g.out_tiles % g.rows))
    (L % g.out_tiles)

/-- The in-tiles that are multiplied from the even banks. -/
def evenTiles : List ℕ := forFrom 0 g.launch.n_in_tile 2

def oddTiles : List ℕ := forFrom 1 g.launch.n_in_tile 2

/-- The steps of a thread's sums, each with the index of its bias. -/
def aligned_sums (ch tid : ℕ) : List (ReduceStep × ℤ) :=
  (aligned_reduce g.launch ch tid).filterMap (Option.map fun step => (step, step.out))

/-- A launch of the product with the program that the executor makes for it. -/
def AlignedRuns (A : HalfArith R) (base : Buf → ℤ) (args : Epilogue) (cmds_ : List PimCommand)
    (u : List (LaunchEvent R)) : Prop :=
  GemmRuns A base args (loaded (create_pim_cmd false cmds_ .OP_GEMV (gemv_lc g.in_w)))
    (aligned_gemm_kernel g.launch) (aligned_sums g) u

/-- The second range begins where the first has ended, or the other way round. -/
def Beside (a len b len' : ℤ) : Prop := a + len ≤ b ∨ b + len' ≤ a

instance (a len b len' : ℤ) : Decidable (Beside a len b len') := inferInstanceAs (Decidable (_ ∨ _))

/-- The input rows of all matrices. -/
def inputRows : ℕ := matrices g.weight * g.inout_h.toNat

/-- A range that is beside both the outputs and the buffer of partial sums. -/
def Untouched (base : Buf → ℤ) (a len : ℤ) : Prop :=
  Beside a len (base .output) (2 * (inputRows g * g.out_w.toNat)) ∧
    Beside a len (base .pim_partial_sum) (2 ^ 18 * 64)

instance (base : Buf → ℤ) (a len : ℤ) : Decidable (Untouched g base a len) :=
  inferInstanceAs (Decidable (_ ∧ _))

/-- The iterations of the launch. -/
def iterations : ℕ := matrices g.weight * g.out_tiles % 2 ^ 20

/-- The product's buffers, as large as its operands, where the launch finds them. -/
structure AlignedBuffers (base : Buf → ℤ) (args : Epilogue) : Prop where
  weight_row : 2 ^ 21 ∣ base .weight
  partial_tile : 2 ^ 18 ∣ base .pim_partial_sum
  output : Beside (base .output) (2 * (inputRows g * g.out_w.toNat)) (base .pim_partial_sum) (2 ^ 18 * 64)
  input : Untouched g base (base .input) (2 * (inputRows g * g.in_w.toNat))
  weight : Untouched g base (base .weight) (2 * (matrices g.weight * (g.in_w.toNat * g.out_w.toNat)))
  bias : ∀ bias ∈ args.bias, Untouched g base bias (2 * (inputRows g * g.out_w.toNat))

/-- A product of one output tile for each input row, with a place for the partial sums of each. -/
structure SingleTiles : Prop where
  out_w : g.out_w.toNat = 4096
  rows : inputRows g ≤ 64

variable {g}

theorem mem_bankTiles {t : Side × ℕ} (ht : t ∈ bankTiles (evenTiles g) (oddTiles g)) :
    t.2 < 2 * g.in_pairs := by
  have htiles : ∀ lo ≤ 1, t.2 ∈ forFrom lo g.launch.n_in_tile 2 → t.2 < 2 * g.in_pairs := by
    intro lo hlo h
    rw [g.n_in_tile_eq, forFrom_two lo _ hlo] at h
    obtain ⟨i, hi, heq⟩ := List.mem_map.mp h
    have hi := List.mem_range.mp hi
    omega
  rcases List.mem_append.mp ht with h | h
  · obtain ⟨i, hi, rfl⟩ := List.mem_map.mp h
    exact htiles 0 (by norm_num) hi
  · obtain ⟨i, hi, rfl⟩ := List.mem_map.mp h
    exact htiles 1 (by norm_num) hi

theorem partialTiles_eq : g.partialTiles = iterations g * g.rows * g.out_tiles := rfl

/-- Iterations are matrices, and none is left out. -/
theorem SingleTiles.counts (h : SingleTiles g) : g.out_tiles = 1 ∧ iterations g = matrices g.weight ∧
    g.rows = g.inout_h.toNat := by
  obtain ⟨hout, hrows⟩ := h
  have htiles : g.out_tiles = 1 := by
    have := g.out_w_eq
    omega
  have hmatrices : matrices g.weight * 1 ≤ inputRows g := Nat.mul_le_mul_left _ g.inout_h_pos
  have hinout : 1 * g.inout_h.toNat ≤ inputRows g := Nat.mul_le_mul_right _ g.matrices_pos
  refine ⟨htiles, ?_, ?_⟩
  · rw [iterations, htiles]
    omega
  · rw [AlignedGemm.rows, int32_natCast (by omega), Int.toNat_natCast]

theorem SingleTiles.partialTiles_eq (h : SingleTiles g) : g.partialTiles = inputRows g := by
  obtain ⟨htiles, hiterations, hrows⟩ := h.counts
  rw [PimLibrary.Executor.partialTiles_eq, htiles, hiterations, hrows, Nat.mul_one, inputRows]

theorem SingleTiles.partialTiles_le (h : SingleTiles g) : g.partialTiles ≤ 64 :=
  h.partialTiles_eq.trans_le h.rows

/-- The rows of all iterations. -/
theorem row_lt {L : ℕ} (hL : L < g.partialTiles) : L / g.out_tiles < iterations g * g.rows := by
  rw [partialTiles_eq] at hL
  exact Nat.div_lt_of_lt_mul (by rwa [Nat.mul_comm])

/-- The iteration, the row and the output tile of a tile. -/
theorem tile_digits {L : ℕ} (hL : L < g.partialTiles) :
    L / g.out_tiles / g.rows < iterations g ∧ L / g.out_tiles % g.rows < g.rows ∧
      L / g.out_tiles / g.rows * g.rows + L / g.out_tiles % g.rows = L / g.out_tiles ∧
      L / g.out_tiles * g.out_tiles + L % g.out_tiles = L := by
  have hq := row_lt hL
  have hrows : 0 < g.rows := by
    rcases Nat.eq_zero_or_pos g.rows with h0 | hpos
    · simp [h0] at hq
    · exact hpos
  exact ⟨Nat.div_lt_of_lt_mul (by rwa [Nat.mul_comm]), Nat.mod_lt _ hrows, Nat.div_add_mod' _ _,
    Nat.div_add_mod' _ _⟩

theorem digits_at {i r o : ℕ} (hr : r < g.rows) (ho : o < g.out_tiles) :
    ((i * g.rows + r) * g.out_tiles + o) / g.out_tiles / g.rows = i ∧
      ((i * g.rows + r) * g.out_tiles + o) / g.out_tiles % g.rows = r ∧
      ((i * g.rows + r) * g.out_tiles + o) % g.out_tiles = o := by
  have hdiv : ((i * g.rows + r) * g.out_tiles + o) / g.out_tiles = i * g.rows + r := by
    rw [Nat.mul_comm, Nat.mul_add_div g.out_tiles_pos, Nat.div_eq_of_lt ho, Nat.add_zero]
  refine ⟨?_, ?_, ?_⟩
  · rw [hdiv, Nat.mul_comm, Nat.mul_add_div (by omega), Nat.div_eq_of_lt hr, Nat.add_zero]
  · rw [hdiv, Nat.mul_comm, Nat.mul_add_mod, Nat.mod_eq_of_lt hr]
  · rw [Nat.mul_comm, Nat.mul_add_mod, Nat.mod_eq_of_lt ho]

/-- The loops of the kernel, tile by tile. -/
theorem nest_eq_tiles {β : Type*} (f : ℕ → ℕ → ℕ → β) :
    ((List.range g.launch.iter_cnt.toNat).flatMap fun i =>
      (List.range g.launch.inout_h.toNat).flatMap fun r =>
        (List.range g.launch.n_out_tile.toNat).map (f i r)) = (List.range g.partialTiles).map fun L =>
        f (L / g.out_tiles / g.rows) (L / g.out_tiles % g.rows) (L % g.out_tiles) := by
  rw [partialTiles_eq, flatMap_range_nest, AlignedGemm.launch_iterations, AlignedGemm.launch_rows,
    g.n_out_tile_eq, Int.toNat_natCast]
  refine List.flatMap_congr fun i _ => List.flatMap_congr fun r hr => List.map_congr_left fun o ho => ?_
  obtain ⟨hi, hr, ho⟩ := digits_at (i := i) (List.mem_range.mp hr) (List.mem_range.mp ho)
  rw [hi, hr, ho]

theorem aligned_sessions_tiles :
    aligned_sessions g.launch = (List.range g.partialTiles).map (tileSession g) := by
  rw [aligned_sessions_eq, nest_eq_tiles fun i r => aligned_session g.launch (aligned_state g.launch i r)]
  rfl

section Fits

variable (hparts : g.partialTiles ≤ 64)
include hparts

/-- The row counter of a tile has not wrapped. -/
theorem tile_row {L : ℕ} (hL : L < g.partialTiles) :
    (aligned_state g.launch (L / g.out_tiles / g.rows) (L / g.out_tiles % g.rows)).gemv_cnt =
      ((L / g.out_tiles : ℕ) : ℤ) ∧ g.out_tiles ≤ 64 := by
  obtain ⟨-, -, hq, -⟩ := tile_digits hL
  have hle : L / g.out_tiles ≤ L := Nat.div_le_self _ _
  have hdvd : g.out_tiles ∣ g.partialTiles := Dvd.intro_left _ rfl
  have hout := Nat.le_of_dvd (by omega) hdvd
  refine ⟨?_, by omega⟩
  rw [aligned_state_cnt, AlignedGemm.launch_rows, hq, int32_natCast (by omega)]

/-- A tile's accumulators fill its chunk of the partial sums. -/
theorem tile_cell {L : ℕ} (hL : L < g.partialTiles) (ch : Fin 64) (j : Fin 8) :
    partial_addr ch (tileSession g L) j = (place ⟨ch, 0, .odd, j⟩ L : ℕ) := by
  obtain ⟨-, -, hq, hdigits⟩ := tile_digits hL
  have h := AlignedGemm.session_partial_addr (g := g) ch (i := L / g.out_tiles / g.rows)
    (r := L / g.out_tiles % g.rows) (o := L % g.out_tiles)
    (by rw [AlignedGemm.launch_rows, hq, hdigits]; omega) j.isLt
  rw [AlignedGemm.launch_rows, hq, hdigits, addr_gen_eq _ _ _ _ _ (by norm_num) (by norm_num)] at h
  rw [tileSession, h, place]
  simp [Side.num]

/-- A thread adds up one register of every tile. -/
theorem aligned_sums_tiles (ch tid : Fin 64) : aligned_sums g ch tid =
    (List.range g.partialTiles).map fun L =>
      (reduceAt (4096 * L + (64 * ch + tid)), ((4096 * L + (64 * ch + tid) : ℕ) : ℤ)) := by
  have hstep : ∀ L < g.partialTiles, aligned_reduce_step g.launch ch tid
      (aligned_state g.launch (L / g.out_tiles / g.rows) (L / g.out_tiles % g.rows)).gemv_cnt
      (L % g.out_tiles) = some (reduceAt (4096 * L + (64 * ch + tid))) := by
    intro L hL
    obtain ⟨-, -, hq, hdigits⟩ := tile_digits hL
    obtain ⟨hcnt, hout⟩ := tile_row hparts hL
    have hw := g.out_w_eq
    have hrow : (L / g.out_tiles + 1) * g.out_w.toNat =
        4096 * (L / g.out_tiles * g.out_tiles + g.out_tiles) := by
      rw [hw]
      ring
    have hsum : L / g.out_tiles * g.out_w.toNat = 4096 * (L / g.out_tiles * g.out_tiles) := by
      rw [hw]
      ring
    have hle : L / g.out_tiles * g.out_tiles ≤ L := Nat.div_mul_le_self _ _
    rw [hcnt, g.reduce_step_exact (Nat.mod_lt _ g.out_tiles_pos) ch.isLt tid.isLt (by omega) (by omega),
      hdigits,
      addr_gen_tile _ _ (by omega) (Nat.mod_lt _ (by norm_num)) (by omega),
      addr_gen_eq _ _ _ _ _ (by omega) (by norm_num), hsum]
    have hindex : 4096 * (L / g.out_tiles * g.out_tiles) +
        (4096 * (L % g.out_tiles) + (64 * (ch : ℕ) + tid)) = 4096 * L + (64 * ch + tid) := by omega
    have hchan := outChan_at L ch tid
    have htile : (4096 * L + (64 * (ch : ℕ) + tid)) / 4096 = L := by omega
    have hblock : (4096 * L + (64 * (ch : ℕ) + tid)) % 64 = tid := by omega
    have hidx : (4096 * L + (64 * (ch : ℕ) + tid)) % 8 = tid % 8 := by omega
    have hgroup : (tid : ℕ) / 8 / 2 = tid / 16 := by omega
    have hbank : 2 * ((tid : ℕ) / 8 % 2) + 1 = tid / 8 % 2 * 2 + 1 := by omega
    rw [hindex, reduceAt, htile, place, outCell, hchan]
    simp only [hblock, hidx, hgroup, Side.num, hbank]
  rw [aligned_sums, aligned_reduce_eq, nest_eq_tiles fun i r =>
    aligned_reduce_step g.launch ch tid (aligned_state g.launch i r).gemv_cnt, List.filterMap_map]
  exact filterMap_range fun L hL => by rw [Function.comp_apply, hstep L hL]; rfl

/-! ### What the sessions read -/

omit hparts in
theorem session_row (L : ℕ) : 2 ^ 21 ∣ (tileSession g L).weight := by
  rw [tileSession, g.session_weight]
  refine Dvd.dvd.mul_left (dvd_int32 (by norm_num) ?_) _
  exact ⟨(g.in_pairs * g.out_tiles : ℕ), by rw [g.matrix_bytes]; push_cast; ring⟩

omit hparts in
theorem untouched_free (hone : SingleTiles g) {base : Buf → ℤ} {a len x : ℤ} (h : Untouched g base a len)
    (hlo : a ≤ x) (hhi : x < a + len) : Free base g.partialTiles x := by
  obtain ⟨hout, hcell⟩ := h
  have hrows := hone.rows
  rw [hone.partialTiles_eq]
  rw [Beside, hone.out_w] at hout
  rw [Beside] at hcell
  constructor
  · rintro ⟨h0, h1, -⟩
    omega
  · rintro ⟨h0, h1, -⟩
    omega

variable (hfit : g.in_w.toNat * g.out_w.toNat * 2 < 2 ^ 31)
include hfit

omit hparts in
/-- The sides of a matrix below `2^31` bytes, in tiles. -/
theorem pairs_lt : g.in_pairs * g.out_tiles < 2 ^ 10 ∧ g.in_pairs < 2 ^ 10 := by
  have h := g.matrix_bytes
  have hle : g.in_pairs * 1 ≤ g.in_pairs * g.out_tiles := Nat.mul_le_mul_left _ g.out_tiles_pos
  rw [Nat.mul_assoc (2 ^ 21)] at h
  omega

/-- An in-tile loads from its input row. -/
theorem input_bounds {L : ℕ} (hL : L < g.partialTiles) {i_idx : ℕ} (hi : i_idx < 2 * g.in_pairs)
    (gidx : Fin 8) :
    0 ≤ (tileSession g L).input + i_addr (tileSession g L) i_idx gidx ∧
      (tileSession g L).input + i_addr (tileSession g L) i_idx gidx + 32 ≤
        (2 * (g.in_w.toNat * (iterations g * g.rows)) : ℕ) := by
  have hlast := row_lt hL
  have hrow := (tile_digits hL).2.2.1
  have hgroups : 16 * g.in_pairs < 2 ^ 14 := by have := (pairs_lt hfit).2; omega
  have hq64 : L / g.out_tiles < 64 := lt_of_le_of_lt (Nat.div_le_self _ _) (hL.trans_le hparts)
  have hsmall : L / g.out_tiles * (16 * g.in_pairs) < 64 * 2 ^ 14 := Nat.mul_lt_mul'' hq64 hgroups
  have hoffset : (tileSession g L).i_offset = ((L / g.out_tiles * (16 * g.in_pairs) : ℕ) : ℤ) := by
    rw [tileSession, g.session_i_offset, AlignedGemm.launch_rows, hrow, int32_natCast (by omega)]
  have hzero : (tileSession g L).input = 0 := rfl
  have hbytes : 2 * (g.in_w.toNat * (iterations g * g.rows)) =
      512 * (iterations g * g.rows * g.in_pairs) := by
    rw [g.in_w_eq]
    ring
  have hle : (L / g.out_tiles + 1) * g.in_pairs ≤ iterations g * g.rows * g.in_pairs :=
    Nat.mul_le_mul_right _ hlast
  have hstart : L / g.out_tiles * (16 * g.in_pairs) = 16 * (L / g.out_tiles * g.in_pairs) := by ring
  rw [Nat.add_mul, Nat.one_mul] at hle
  rw [i_addr, hoffset, hzero, hbytes, hstart]
  generalize iterations g * g.rows * g.in_pairs = total at hle
  generalize L / g.out_tiles * g.in_pairs = start at hle
  have hg := gidx.isLt
  push_cast
  omega

omit hparts hfit in
/-- The rows of an in-tile, below those of the matrix. -/
theorem row_bounds {i_idx k o t : ℕ} (hi : i_idx < 2 * k) (ho : o < t) (hmatrix : k * t < 2 ^ 10) :
    i_idx / 2 + o * k < 2 ^ 10 ∧ i_idx / 2 + o * k < k * t := by
  have hlast : o * k + k ≤ k * t :=
    calc o * k + k = k * (o + 1) := by ring
      _ ≤ k * t := Nat.mul_le_mul_left _ ho
  omega

omit hparts in
/-- The row that an in-tile reads for an accumulator. -/
theorem weight_row {L i_idx : ℕ} (hi : i_idx < 2 * g.in_pairs) (j : Fin 8) :
    toUint32 (if (j : ℕ) < 4 then even_row (tileSession g L) i_idx else odd_row (tileSession g L) i_idx) + 1 ≤
      2 * (g.in_pairs * g.out_tiles) := by
  obtain ⟨hmatrix, -⟩ := pairs_lt hfit
  have ho : L % g.out_tiles < g.out_tiles := Nat.mod_lt _ g.out_tiles_pos
  obtain ⟨hint, hrow⟩ := row_bounds hi ho hmatrix
  have hstart : L % g.out_tiles * (2 * g.in_pairs) = 2 * (L % g.out_tiles * g.in_pairs) := by ring
  have hoffset : (tileSession g L).r_offset = ((L % g.out_tiles * g.in_pairs : ℕ) : ℤ) := by
    rw [tileSession, g.session_r_offset, hstart, int32_natCast (by omega)]
    omega
  rw [read_row i_idx hoffset (by omega) j.isLt]
  omega

omit hparts in
/-- An in-tile multiplies by weights of its matrix. -/
theorem weight_bounds (base : ℤ) {L : ℕ} (hL : L < g.partialTiles) {i_idx : ℕ} (hi : i_idx < 2 * g.in_pairs)
    (ch : Fin 64) (b : Fin 8) (ti : Fin 16) (side : Side) (j gidx : Fin 8) :
    base ≤ laneAddr (base + weightAddr ch (tileSession g L) side i_idx j gidx) (.lane ch b ti) ∧
      laneAddr (base + weightAddr ch (tileSession g L) side i_idx j gidx) (.lane ch b ti) <
        base + (iterations g * (g.in_w.toNat * g.out_w.toNat * 2) : ℕ) := by
  have hrow := weight_row (L := L) hfit hi j
  set row := toUint32 (if (j : ℕ) < 4 then even_row (tileSession g L) i_idx else
    odd_row (tileSession g L) i_idx) with hrowdef
  have haddr : base + weightAddr ch (tileSession g L) side i_idx j gidx =
      base + (tileSession g L).weight + (place ⟨ch, 0, side, gidx⟩ (4 * row + (j : ℕ) % 4) : ℕ) := by
    rw [weightAddr, ← addr_gen_place ch side gidx (toUint32_lt _) (by omega), add_assoc]
  have hweight : (tileSession g L).weight = ((L / g.out_tiles / g.rows *
      (g.in_w.toNat * g.out_w.toNat * 2) : ℕ) : ℤ) := by
    rw [tileSession, g.session_weight, int32_natCast hfit, ← Nat.cast_mul]
  have hstep : (L / g.out_tiles / g.rows + 1) * (g.in_w.toNat * g.out_w.toNat * 2) ≤
      iterations g * (g.in_w.toNat * g.out_w.toNat * 2) := Nat.mul_le_mul_right _ (tile_digits hL).1
  have hbytes := g.matrix_bytes
  rw [Nat.mul_assoc (2 ^ 21)] at hbytes
  rw [haddr, laneAddr_place, hweight]
  rw [Nat.add_mul, Nat.one_mul, hbytes] at hstep
  rw [hbytes]
  clear_value row
  generalize L / g.out_tiles / g.rows * (2 ^ 21 * (g.in_pairs * g.out_tiles)) = start at *
  generalize iterations g * (2 ^ 21 * (g.in_pairs * g.out_tiles)) = total at *
  generalize g.in_pairs * g.out_tiles = rows at *
  obtain ⟨hlo, hhi⟩ := place_bounds ⟨ch, b, side, gidx⟩ (4 * row + (j : ℕ) % 4)
  have hdvd := dvd_place ⟨ch, b, side, gidx⟩ (4 * row + (j : ℕ) % 4)
  generalize place ⟨ch, b, side, gidx⟩ (4 * row + (j : ℕ) % 4) = p at hlo hhi hdvd
  have hti := ti.isLt
  clear hL hi hfit
  omega

omit hparts in
/-- Buffers that do not overlap serve the launch. -/
theorem AlignedBuffers.gemm (hone : SingleTiles g) {base : Buf → ℤ} {args : Epilogue}
    (h : AlignedBuffers g base args) :
    GemmBuffers base args (tileSession g) (evenTiles g) (oddTiles g) g.partialTiles where
  weight L _ := dvd_add h.weight_row (session_row L)
  partial_sum := h.partial_tile
  cell L hL ch j := tile_cell hone.partialTiles_le hL ch j
  apart x hout hcell := by
    obtain ⟨hlo, hhi, -⟩ := hout
    obtain ⟨hlo', hhi', -⟩ := hcell
    have hbeside := h.output
    have hrows := hone.rows
    rw [hone.partialTiles_eq] at hhi hhi'
    rw [Beside, hone.out_w] at hbeside
    omega
  input_free L hL k t ht j := by
    obtain ⟨hlo, hhi⟩ := input_bounds hone.partialTiles_le hfit hL (mem_bankTiles ht) j
    have hsize : 2 * (g.in_w.toNat * (iterations g * g.rows)) = 2 * (inputRows g * g.in_w.toNat) := by
      obtain ⟨-, hiterations, hrows⟩ := hone.counts
      rw [hiterations, hrows, inputRows, Nat.mul_comm g.in_w.toNat]
    have hlane : 0 ≤ laneOffset k ∧ laneOffset k < 32 := by
      cases k with
      | lane ch b ti =>
        rw [laneOffset]
        omega
      | thread ch tid => exact ⟨le_rfl, by norm_num [laneOffset]⟩
    rw [hsize] at hhi
    refine untouched_free hone h.input ?_ ?_ <;> rw [inputHalf]
    · omega
    · push_cast at hhi
      omega
  weight_free L hL ch b ti t ht j gidx := by
    obtain ⟨hlo, hhi⟩ := weight_bounds hfit (base .weight) hL (mem_bankTiles ht) ch b ti t.1 j gidx
    have hsize : iterations g * (g.in_w.toNat * g.out_w.toNat * 2) =
        2 * (matrices g.weight * (g.in_w.toNat * g.out_w.toNat)) := by
      rw [hone.counts.2.1]
      ring
    rw [hsize] at hhi
    refine untouched_free hone h.weight hlo ?_
    push_cast at hhi
    exact hhi
  bias_free bias hbias i hi := by
    rw [hone.partialTiles_eq] at hi
    refine untouched_free hone (h.bias bias hbias) (by omega) ?_
    rw [hone.out_w]
    omega

/-! ### The launch -/

omit hparts in
/-- The unit does the sessions of the product, tile by tile, whatever program the generator had before. -/
theorem unitRuns_tiles (cmds_ : List PimCommand) (base : Buf → ℤ) (ch : ℕ) (es : List UnitEvent) :
    UnitRuns (loaded (create_pim_cmd false cmds_ .OP_GEMV (gemv_lc g.in_w))) base
      (aligned_gemm_kernel g.launch ch) es ↔
      es = (List.range g.partialTiles).flatMap fun L =>
        sessionEvents base ch (tileSession g L) (evenTiles g) (oddTiles g) := by
  have hpairs := (pairs_lt hfit).2
  have hin := g.in_w_eq
  have hk := g.in_pairs_pos
  obtain ⟨-, heven, hodd⟩ := gemv_lc_eq hin (by omega)
  have hloaded := loaded_gemv cmds_ (gemv_lc g.in_w) (by omega) (by omega) (by omega) (by omega)
  rw [heven, hodd] at hloaded
  have hcount : ∀ lo ≤ 1, (forFrom lo g.launch.n_in_tile 2).length = g.in_pairs := by
    intro lo hlo
    rw [g.n_in_tile_eq, forFrom_two lo _ hlo, List.length_map, List.length_range]
  have hweight : ∀ s ∈ aligned_sessions g.launch, 2 ^ 14 ∣ s.weight := fun s hs => aligned_weight_dvd g hs
  have hpre : Silent (park_in ch 32 ++ change_sb_hab ch 2 ++ program_crf_mod ch (32 >>> 4)) := by simp
  have hpost : Silent (change_hab_sb ch 4 ++ park_out ch 32) := by simp
  have hruns := unitRuns_sessions base ch hk (hcount 0 (by norm_num)) (hcount 1 le_rfl) hweight hpre hpost es
  rw [hloaded, aligned_gemm_kernel_eq, pim_aligned_gemm_bias_relu_fp16, aligned_kernel,
    List.append_assoc (_ ++ _)]
  rw [hruns, aligned_sessions_tiles, List.flatMap_map]
  rfl

variable (A : HalfArith R) {base : Buf → ℤ} {args : Epilogue} (cmds_ : List PimCommand)

omit hparts in
theorem exists_alignedRuns : ∃ u, AlignedRuns g A base args cmds_ u :=
  ⟨_, _, _, fun ch => (unitRuns_tiles hfit cmds_ base ch _).mpr rfl,
    fun _ => shuffle_sequential (List.nodup_finRange 64) _, shuffle_sequential (List.nodup_finRange 64) _⟩

omit hparts in
theorem AlignedRuns.launch_mem (hone : SingleTiles g) (hbase : AlignedBuffers g base args)
    {unit : UnitEvent → GemmState R → GemmState R} (hunit : MacDocumented A base unit)
    {u : List (LaunchEvent R)} (hu : AlignedRuns g A base args cmds_ u) (s : GemmState R) :
    launch_mem unit u s =
      multiplied A base args (tileSession g) (evenTiles g) (oddTiles g) g.partialTiles s.mem :=
  gemm_runs_mem (hbase.gemm hfit hone) hunit
    (fun ch es h => (unitRuns_tiles hfit cmds_ base ch es).mp h) (aligned_sums_tiles hone.partialTiles_le)
    hu s

end Fits

end Product

/-- The result of an aligned GEMM launch with single output tiles: there are runs, and after each of them
    every output is the sum of the lanes that multiplied for it, with its bias and the activation; the partial
    sums are those of the lanes; and nothing else has changed. -/
theorem execute_aligned_gemm_result (A : HalfArith R) (g : AlignedGemm) (hone : SingleTiles g)
    (hfit : g.in_w.toNat * g.out_w.toNat * 2 < 2 ^ 31) {base : Buf → ℤ} {args : Epilogue}
    (hbase : AlignedBuffers g base args) {unit : UnitEvent → GemmState R → GemmState R}
    (hunit : MacDocumented A base unit) (cmds_ : List PimCommand) (s : GemmState R) :
    (∃ u, AlignedRuns g A base args cmds_ u) ∧ ∀ u, AlignedRuns g A base args cmds_ u →
      launch_mem unit u s =
        multiplied A base args (tileSession g) (evenTiles g) (oddTiles g) (inputRows g) s.mem := by
  refine ⟨exists_alignedRuns hfit A cmds_, fun u hu => ?_⟩
  rw [← hone.partialTiles_eq]
  exact hu.launch_mem hfit A cmds_ hone hbase hunit s

/-- Integers as halves. -/
def intHalves : HalfArith ℤ := ⟨0, (· + ·), fun acc x w => acc + x * w, fun x => x < 0⟩

/-- Two matrices with two input rows each. -/
def twoByTwo : AlignedGemm := .of 2 1 2 512 4096 (by decide)

theorem twoByTwo_single : SingleTiles twoByTwo := ⟨by decide, by decide⟩

/-- Buffers one after another; the bias lies at `2^24 + 2^18`. -/
def smallBuffers : Buf → ℤ
  | .output => 2 ^ 24
  | .input => 2 ^ 24 + 2 ^ 17
  | .weight => 2 ^ 25
  | _ => 0

def smallArgs : Epilogue := ⟨some (2 ^ 24 + 2 ^ 18), .ACT_RELU⟩

theorem smallBuffers_apart : AlignedBuffers twoByTwo smallBuffers smallArgs where
  weight_row := by decide
  partial_tile := by decide
  output := by decide +kernel
  input := by decide +kernel
  weight := by decide +kernel
  bias bias hbias := by
    obtain rfl := Option.mem_some_iff.mp hbias
    decide +kernel

/-- Registers that hold sevens, and memory that repeats after five halves. -/
def smallState : GemmState ℤ := ⟨fun _ => ⟨fun _ _ => 7, 7⟩, fun x => x / 2 % 5 - 1⟩

/-- The last output of the last input row of the second matrix. -/
theorem execute_aligned_gemm_small : ∃ u, AlignedRuns twoByTwo intHalves smallBuffers smallArgs [] u ∧
    launch_mem (fun e s => (laneOps intHalves smallBuffers e).foldl step s) u smallState
      (2 ^ 24 + 2 * (3 * 4096 + 4095)) = 454 := by
  obtain ⟨⟨u, hu⟩, hall⟩ := execute_aligned_gemm_result intHalves twoByTwo twoByTwo_single (by decide)
    smallBuffers_apart (documented_laneOps intHalves smallBuffers) [] smallState
  refine ⟨u, hu, ?_⟩
  rw [hall u hu]
  decide +kernel

end PimLibrary.Executor
