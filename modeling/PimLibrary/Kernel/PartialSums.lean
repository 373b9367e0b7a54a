import PimLibrary.Kernel.ChwiseTiling
import PimLibrary.Kernel.ReadOrder

/-! The partial sums and the buffer they go to.

    The accumulators of one tile fill one chunk of `2^18` bytes, and the chunks follow one another in
    the order of the sessions. The buffer has a fixed size of 64 chunks, so exactly the products of at
    most 64 tiles stay inside it. -/

namespace PimLibrary.Kernel
open Schemes.Word Schemes.Loop PimLibrary.Device PimLibrary.Layout

attribute [local irreducible] int32

/-- The bytes that `initialize` allocates for `pim_gemv_tmp_buffer_`. -/
def pim_gemv_tmp_size : ℤ := 8 * 2 * 1024 * 1024

def Inside (addr len : ℤ) : Prop := 0 ≤ addr ∧ addr + len ≤ pim_gemv_tmp_size

/-- All blocks write the accumulators of the session inside the buffer, 16 bytes a thread. -/
def WritesInside (ch : ℕ) (s : Session) : Prop :=
  ∀ t, t < 16 → ∀ b, b < 8 → Inside (broadcast b (partial_addr ch s (gidx t) + offset t)) 16

/-- The sixteen halves that a thread adds up are inside the buffer. -/
def ReadsInside (step : ReduceStep) : Prop := ∀ ti : ℕ, ti < 16 → Inside (2 * (step.cell + ti)) 2

def AlignedPartialSums (g : AlignedGemm) : Prop :=
  ∀ ch, ch < 64 → (∀ s ∈ aligned_sessions g.launch, WritesInside ch s) ∧
    ∀ tid, tid < 64 → ∀ step, some step ∈ aligned_reduce g.launch ch tid → ReadsInside step

def ChwisePartialSums (g : ChwiseGemm) : Prop :=
  ∀ by_zero p, g.launch = some p → ∀ ch, ch < 64 → ∀ sessions,
    chwise_sessions p by_zero ch = some sessions →
    (∀ s ∈ sessions, WritesInside ch s) ∧ ∀ tid, tid < 64 → ∀ step ∈ chwise_reduce p ch tid,
      ReadsInside step

/-! ### Chunks -/

/-- The cells of a tile are its chunk of `2^18` bytes. -/
theorem addr_gen_chunk (ch bg bank : ℕ) {c : ℕ} (hg : bg < 4) (hc : c < 8) :
    32 ∣ addr_gen ch 0 bg bank 0 c ∧ addr_gen ch 0 bg bank 0 c + 32 ≤ 2 ^ 18 := by
  have hlow : c % 2 + 2 * (ch % 2) + 4 * (c / 2 % 2) + 8 * (ch / 2 % 32) < 256 := by omega
  rw [addr_gen_eq _ _ _ _ _ hg (by norm_num), transaction]
  refine ⟨Dvd.intro _ rfl, ?_⟩
  generalize c % 2 + 2 * (ch % 2) + 4 * (c / 2 % 2) + 8 * (ch / 2 % 32) = low at hlow
  generalize hb : bank / 2 % 2 = b
  omega

/-- Tile `L` has the chunk numbered `L`. -/
theorem addr_gen_tile (ch bank : ℕ) {bg L c : ℕ} (hg : bg < 4) (hc : c < 8) (hL : L < 2 ^ 34) :
    addr_gen ch 0 bg bank (L / 4) (c + L % 4 * 8) = 2 ^ 18 * L + addr_gen ch 0 bg bank 0 c := by
  have h0 : (c + L % 4 * 8) % 2 = c % 2 := by omega
  have h1 : (c + L % 4 * 8) / 2 % 2 = c / 2 % 2 := by omega
  have h2 : (c + L % 4 * 8) / 4 % 8 = c / 4 % 8 + 2 * (L % 4) := by omega
  rw [addr_gen_eq _ _ _ _ _ hg (by omega), addr_gen_eq _ _ _ _ _ hg (by norm_num), transaction,
    transaction, h0, h1, h2]
  omega

/-- An access inside chunk `L` is inside the buffer exactly when the chunk is. -/
theorem inside_chunk {L y len : ℕ} (hlen : 0 < len) (hy : y + len ≤ 2 ^ 18) :
    Inside ((2 ^ 18 * L + y : ℕ) : ℤ) len ↔ L < 64 := by
  rw [Inside, pim_gemv_tmp_size]
  omega

/-- The copy of an accumulator in block `b`. -/
theorem broadcast_chunk (ch L j : ℕ) {b : ℕ} (hb : b < 8) :
    broadcast b ((2 ^ 18 * L + addr_gen ch 0 0 1 0 j : ℕ) : ℤ) =
      ((2 ^ 18 * L + addr_gen ch 0 (b / 2) (2 * (b % 2) + 1) 0 j : ℕ) : ℤ) := by
  rw [Nat.cast_add, broadcast_add, addr_gen_eq _ _ _ _ _ (by norm_num) (by norm_num),
    broadcast_transaction (by norm_num), ← addr_gen_eq _ _ _ _ _ (by omega) (by norm_num),
      ← Nat.cast_add]

/-- A session whose accumulators go to chunk `L` writes inside exactly when it is one of the first
    64. -/
theorem writesInside_iff {ch L : ℕ} {s : Session}
    (hs : ∀ j, j < 8 → partial_addr ch s j = ((2 ^ 18 * L + addr_gen ch 0 0 1 0 j : ℕ) : ℤ)) :
    WritesInside ch s ↔ L < 64 := by
  have haddr : ∀ t, t < 16 → ∀ b, b < 8 → ∃ y, y + 16 ≤ 2 ^ 18 ∧
      broadcast b (partial_addr ch s (gidx t) + offset t) = ((2 ^ 18 * L + y : ℕ) : ℤ) := by
    intro t ht b hb
    have hg : gidx t < 8 := by rw [gidx]; omega
    have ho : offset t ≤ 16 := by rw [offset]; omega
    obtain ⟨-, hlt⟩ := addr_gen_chunk ch (b / 2) (2 * (b % 2) + 1) (by omega) hg
    refine ⟨addr_gen ch 0 (b / 2) (2 * (b % 2) + 1) 0 (gidx t) + offset t, by omega, ?_⟩
    rw [add_comm, broadcast_add, hs _ hg, broadcast_chunk ch L _ hb]
    push_cast; ring
  constructor
  · intro h
    obtain ⟨y, hy, heq⟩ := haddr 0 (by norm_num) 0 (by norm_num)
    have hin := h 0 (by norm_num) 0 (by norm_num)
    rw [heq] at hin
    exact (inside_chunk (by norm_num) hy).mp hin
  · intro h t ht b hb
    obtain ⟨y, hy, heq⟩ := haddr t ht b hb
    rw [heq]
    exact (inside_chunk (by norm_num) hy).mpr h

/-- A thread that sums a cell of one of the first 64 chunks reads inside. -/
theorem readsInside_of (ch : ℕ) {step : ReduceStep} {tid L : ℕ} (htid : tid < 64) (hL : L < 64)
    (hcell : step.cell =
      ((2 ^ 18 * L + addr_gen ch 0 (tid / 16) (tid / 8 % 2 * 2 + 1) 0 (tid % 8)) / 2 : ℕ)) :
    ReadsInside step := by
  intro ti hti
  obtain ⟨hdvd, hlt⟩ := addr_gen_chunk ch (tid / 16) (tid / 8 % 2 * 2 + 1) (by omega)
    (Nat.mod_lt tid (by norm_num))
  generalize addr_gen ch 0 (tid / 16) (tid / 8 % 2 * 2 + 1) 0 (tid % 8) = a at hdvd hlt hcell
  have haddr : 2 * (step.cell + ti) = ((2 ^ 18 * L + (a + 2 * ti) : ℕ) : ℤ) := by
    rw [hcell]; omega
  have hlast : a + 2 * ti + 2 ≤ 2 ^ 18 := by omega
  rw [haddr]
  exact (inside_chunk (by norm_num) hlast).mpr hL

/-! ### Aligned products -/

namespace AlignedGemm

variable (g : AlignedGemm)

/-- The input rows that an iteration takes: the row count as an `int`. -/
def rows : ℕ := (int32 (g.inout_h.toNat : ℤ)).toNat

/-- How many tiles of partial sums the kernel writes. -/
def partialTiles : ℕ := matrices g.weight * g.out_tiles % 2 ^ 20 * g.rows * g.out_tiles

variable {g}

theorem launch_rows : g.launch.inout_h.toNat = g.rows := rfl

theorem launch_iterations : g.launch.iter_cnt.toNat = matrices g.weight * g.out_tiles % 2 ^ 20 := by
  rw [g.iter_cnt_eq, Int.toNat_natCast]

/-- Iterations, rows and output tiles count the tiles through. -/
theorem tile_lt {i r o : ℕ} (hi : i < g.launch.iter_cnt.toNat) (hr : r < g.launch.inout_h.toNat)
    (ho : o < g.launch.n_out_tile.toNat) : (i * g.launch.inout_h.toNat + r) * g.out_tiles + o <
      g.partialTiles := by
  rw [launch_iterations] at hi
  rw [launch_rows] at hr ⊢
  rw [g.n_out_tile_eq, Int.toNat_natCast] at ho
  have hrow : i * g.rows + r + 1 ≤ matrices g.weight * g.out_tiles % 2 ^ 20 * g.rows :=
    calc i * g.rows + r + 1 ≤ i * g.rows + g.rows := by omega
      _ = (i + 1) * g.rows := by ring
      _ ≤ matrices g.weight * g.out_tiles % 2 ^ 20 * g.rows := Nat.mul_le_mul_right _ hi
  calc (i * g.rows + r) * g.out_tiles + o < (i * g.rows + r) * g.out_tiles + g.out_tiles := by omega
    _ = (i * g.rows + r + 1) * g.out_tiles := by ring
    _ ≤ g.partialTiles := Nat.mul_le_mul_right _ hrow

/-- The accumulators of one of the first sessions. -/
theorem session_partial_addr (ch : ℕ) {i r o : ℕ}
    (hsmall : (i * g.launch.inout_h.toNat + r) * g.out_tiles + o ≤ 64)
    {j : ℕ} (hj : j < 8) :
    partial_addr ch (aligned_session g.launch (aligned_state g.launch i r) o) j =
      ((2 ^ 18 * ((i * g.launch.inout_h.toNat + r) * g.out_tiles + o) + addr_gen ch 0 0 1 0 j :
        ℕ) : ℤ) := by
  have hq : i * g.launch.inout_h.toNat + r ≤ (i * g.launch.inout_h.toNat + r) * g.out_tiles :=
    Nat.le_mul_of_pos_right _ g.out_tiles_pos
  have hcnt : (aligned_state g.launch i r).gemv_cnt = ((i * g.launch.inout_h.toNat + r : ℕ) : ℤ) := by
    rw [aligned_state_cnt, int32_natCast (by omega)]
  rw [partial_addr_exact g hcnt hj (by omega), addr_gen_tile _ _ (by norm_num) hj (by omega)]

theorem sessions_inside (h : g.partialTiles ≤ 64) {s : Session} (hs : s ∈ aligned_sessions g.launch)
    (ch : ℕ) :
    WritesInside ch s := by
  rw [aligned_sessions_eq] at hs
  simp only [List.mem_flatMap, List.mem_map, List.mem_range] at hs
  obtain ⟨i, hi, r, hr, o, ho, rfl⟩ := hs
  have hlt := tile_lt hi hr ho
  exact (writesInside_iff fun j hj => session_partial_addr ch (by omega) hj).mpr (by omega)

/-- The cell that a thread sums in row `q` for tile `o`, where it owns an output. -/
theorem reduce_step_cell {q o ch tid : ℕ} (hL : q * g.out_tiles + o < 2 ^ 31) {step : ReduceStep}
    (hstep : aligned_reduce_step g.launch ch tid (q : ℤ) o = some step) :
    step.cell = ((addr_gen ch 0 (tid / 16) (tid / 8 % 2 * 2 + 1) ((q * g.out_tiles + o) / 4)
      (tid % 8 + (q * g.out_tiles + o) % 4 * 8) / 2 : ℕ) : ℤ) := by
  have hli : int32 ((q : ℤ) * g.out_tiles + o) = ((q * g.out_tiles + o : ℕ) : ℤ) := by
    rw [← Nat.cast_mul, ← Nat.cast_add, int32_natCast hL]
  obtain ⟨hrow, hcol⟩ := reduce_place tid hL
  rw [aligned_reduce_step] at hstep
  simp only [n_out_tile_eq, hli, hrow, hcol] at hstep
  split_ifs at hstep
  rw [← Option.some.inj hstep]
  rfl

theorem reduce_inside (h : g.partialTiles ≤ 64) {ch tid : ℕ} (htid : tid < 64) {step : ReduceStep}
    (hstep : some step ∈ aligned_reduce g.launch ch tid) : ReadsInside step := by
  rw [aligned_reduce_eq] at hstep
  simp only [List.mem_flatMap, List.mem_map, List.mem_range] at hstep
  obtain ⟨i, hi, r, hr, o, ho, hstep⟩ := hstep
  have hlt := tile_lt hi hr ho
  have hq : i * g.launch.inout_h.toNat + r ≤ (i * g.launch.inout_h.toNat + r) * g.out_tiles :=
    Nat.le_mul_of_pos_right _ g.out_tiles_pos
  rw [aligned_state_cnt, int32_natCast (by omega)] at hstep
  have hcell := reduce_step_cell (by omega) hstep
  rw [addr_gen_tile _ _ (by omega) (Nat.mod_lt tid (by norm_num)) (by omega)] at hcell
  exact readsInside_of ch htid (by omega) hcell

/-- The session of tile 64 writes past the end. -/
theorem exists_outside (h : 64 < g.partialTiles) (ch : ℕ) :
    ∃ s ∈ aligned_sessions g.launch, ¬ WritesInside ch s := by
  have hrows : 0 < g.rows := by
    rcases Nat.eq_zero_or_pos g.rows with h0 | hpos
    · simp [partialTiles, h0] at h
    · exact hpos
  have ho := g.out_tiles_pos
  have hr : 64 / g.out_tiles % g.rows < g.rows := Nat.mod_lt _ hrows
  have hi : 64 / g.out_tiles / g.rows < matrices g.weight * g.out_tiles % 2 ^ 20 := by
    rw [Nat.div_div_eq_div_mul]
    refine Nat.div_lt_of_lt_mul ?_
    calc 64 < g.partialTiles := h
      _ = g.out_tiles * g.rows * (matrices g.weight * g.out_tiles % 2 ^ 20) := by
          rw [partialTiles]; ring
  have htile : (64 / g.out_tiles / g.rows * g.launch.inout_h.toNat + 64 / g.out_tiles % g.rows) *
    g.out_tiles +
      64 % g.out_tiles = 64 := by
    rw [launch_rows, Nat.mul_comm _ g.rows, Nat.div_add_mod, Nat.mul_comm, Nat.div_add_mod]
  refine ⟨aligned_session g.launch (aligned_state g.launch (64 / g.out_tiles / g.rows)
    (64 / g.out_tiles % g.rows))
    (64 % g.out_tiles), ?_, ?_⟩
  · rw [aligned_sessions_eq]
    simp only [List.mem_flatMap, List.mem_map, List.mem_range, launch_iterations, g.n_out_tile_eq,
      Int.toNat_natCast]
    exact ⟨_, hi, _, hr, _, Nat.mod_lt _ ho, rfl⟩
  · have hiff := writesInside_iff (L := 64) fun j hj => by
      have haddr := session_partial_addr ch (le_of_eq htile) hj
      rwa [htile] at haddr
    rw [hiff]
    omega

theorem partialSums_iff : AlignedPartialSums g ↔ g.partialTiles ≤ 64 := by
  constructor
  · intro h
    by_contra hlarge
    obtain ⟨s, hs, hout⟩ := exists_outside (g := g) (by omega) 0
    exact hout ((h 0 (by norm_num)).1 s hs)
  · exact fun h ch _ => ⟨fun s hs => sessions_inside h hs ch, fun tid htid step hstep =>
      reduce_inside h htid hstep⟩

end AlignedGemm

/-! ### Channel-wise products -/

namespace ChwiseGemm

variable {g : ChwiseGemm}

/-- The iterations of the kernel: how many groups of `4096 / w` matrices there are, as an `int`. -/
def iterations (g : ChwiseGemm) : ℕ :=
  (int32 ((uint32 (matrices g.weight) / (4096 / g.out_w.toNat) : ℕ) : ℤ)).toNat

/-- At most 64 iterations, unless there is no input row. -/
def SumsFit (g : ChwiseGemm) : Prop := int32 (g.inout_h.toNat : ℤ) ≤ 0 ∨ g.iterations ≤ 64

section Launch

variable {p : GemmLaunch} (hp : g.launch = some p)
include hp

theorem sessions_of_launch (by_zero : ByZero) (ch : ℕ) : ∃ input : ℤ,
    chwise_sessions p by_zero ch = some ((List.range g.iterations).flatMap fun i =>
      (List.range p.inout_h.toNat).map fun _ => chwise_session (chwise_state p input i)) := by
  have hiter : p.iter_cnt.toNat = g.iterations := by rw [(launch_eq hp).1]; rfl
  rw [← hiter]
  exact ⟨_, chwise_sessions_eq p by_zero (chs_per_op_eq hp) ch⟩

end Launch

theorem chwise_partial_addr (p : GemmLaunch) (input : ℤ) (ch i : ℕ) {j : ℕ} (hj : j < 8) :
    partial_addr ch (chwise_session (chwise_state p input i)) j =
      ((2 ^ 18 * i + addr_gen ch 0 0 1 0 j : ℕ) : ℤ) := by
  have hbase : (chwise_session (chwise_state p input i)).partial_sum = (i : ℤ) * 2 ^ 18 := rfl
  have hcell : (chwise_session (chwise_state p input i)).cell j = (0, j % 32) := rfl
  rw [partial_addr, hbase, hcell, Nat.mod_eq_of_lt (show j < 32 by omega)]
  push_cast; ring

theorem chwise_reads {ch tid i : ℕ} (htid : tid < 64) (hi : i < 64) :
    ReadsInside (chwise_reduce_step ch tid ⟨(i : ℤ) * 8192, (i : ℤ) * 2 ^ 18⟩) := by
  refine readsInside_of ch htid hi ?_
  simp only [chwise_reduce_step]
  generalize addr_gen ch 0 (tid / 16) (tid / 8 % 2 * 2 + 1) 0 (tid % 8) = a
  omega

theorem chwise_partialSums_iff : ChwisePartialSums g ↔ g.SumsFit := by
  constructor
  · intro h
    by_contra hfit
    simp only [SumsFit, not_or, not_le] at hfit
    obtain ⟨hrows, hiter⟩ := hfit
    -- without columns there are no iterations
    have hpos : 0 < g.out_w.toNat := by
      refine Nat.pos_of_ne_zero fun hzero => ?_
      rw [iterations, hzero, Nat.div_zero, int32_natCast (by norm_num)] at hiter
      exact absurd hiter (by decide)
    obtain ⟨p, hp⟩ := g.exists_launch hpos
    obtain ⟨input, hs⟩ := sessions_of_launch hp id 0
    have hin := (h id p hp 0 (by norm_num) _ hs).1 (chwise_session (chwise_state p input 64)) (by
      simp only [List.mem_flatMap, List.mem_map, List.mem_range]
      exact ⟨64, hiter, 0, by rw [(launch_eq hp).2.1]; omega, rfl⟩)
    rw [writesInside_iff fun j hj => chwise_partial_addr p input 0 64 hj] at hin
    omega
  · intro hfit by_zero p hp ch _ sessions hs
    obtain ⟨input, hlist⟩ := sessions_of_launch hp by_zero ch
    obtain rfl := Option.some.inj (hs.symm.trans hlist)
    have hfew : ∀ i, i < g.iterations → ∀ r, r < p.inout_h.toNat → i < 64 := by
      intro i hi r hr
      rw [(launch_eq hp).2.1] at hr
      rcases hfit with hnone | hiter <;> omega
    constructor
    · intro s hsmem
      simp only [List.mem_flatMap, List.mem_map, List.mem_range] at hsmem
      obtain ⟨i, hi, r, hr, rfl⟩ := hsmem
      exact (writesInside_iff fun j hj => chwise_partial_addr p input ch i hj).mpr (hfew i hi r hr)
    · intro tid htid step hstep
      rw [chwise_reduce_eq, (launch_eq hp).1] at hstep
      simp only [List.mem_flatMap, List.mem_map, List.mem_range] at hstep
      obtain ⟨i, hi, r, hr, rfl⟩ := hstep
      exact chwise_reads htid (hfew i hi r hr)

end ChwiseGemm

/-- The partial sums of a product stay inside the buffer exactly when there are at most 64 tiles of
    them. -/
theorem partial_sums_iff (g : AlignedGemm) (h : ChwiseGemm) :
    (AlignedPartialSums g ↔ matrices g.weight * g.out_tiles % 2 ^ 20 * (int32 (g.inout_h.toNat : ℤ)).toNat *
      g.out_tiles ≤ 64) ∧ (ChwisePartialSums h ↔ h.SumsFit) :=
  ⟨AlignedGemm.partialSums_iff, ChwiseGemm.chwise_partialSums_iff⟩

/-- One tile against 65 input rows. -/
def manyRows : AlignedGemm := .of 1 1 65 256 4096 (by decide)

/-- 65 pairs of half-tile matrices. -/
def manyMatrices : ChwiseGemm := .of 130 1 1 256 2048 (by decide)

theorem partial_sums_overflow : ¬ AlignedPartialSums manyRows ∧ ¬ ChwisePartialSums manyMatrices := by
  refine ⟨fun h => ?_, fun h => ?_⟩
  · exact absurd (AlignedGemm.partialSums_iff.mp h) (by decide +kernel)
  · have hfit := ChwiseGemm.chwise_partialSums_iff.mp h
    have hiter : manyMatrices.iterations = 65 := by decide +kernel
    have hrows : int32 (manyMatrices.inout_h.toNat : ℤ) = 1 := by decide +kernel
    rw [ChwiseGemm.SumsFit, hiter, hrows] at hfit
    omega

end PimLibrary.Kernel
