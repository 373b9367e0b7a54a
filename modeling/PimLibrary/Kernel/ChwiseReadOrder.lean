import PimLibrary.Kernel.ReadOrder
import PimLibrary.Kernel.ChwiseTiling

/-! The channel-wise kernel against the channel-wise conversion.

    A tile of the channel-wise layout is a matrix of one out-tile, so its steps are those of the
    aligned layout with the tile for the matrix. The kernel runs at least as many iterations as there
    are tiles, and its quotient of channels moves the input only. -/

namespace PimLibrary.Kernel
open Schemes.Word Schemes.Loop Schemes.Digits PimLibrary.Device PimLibrary.Layout

attribute [local irreducible] int32

/-- The channel-wise kernel against the channel-wise conversion; rows are those of all matrices. -/
def ChwiseReadOrder (g : ChwiseGemm) (by_zero : ByZero) : Prop :=
  ∀ i, i < g.tiles → ∀ r, r < g.inout_h.toNat → ∀ ch, ch < 64 →
    ∃ p sessions s, g.launch = some p ∧ chwise_sessions p by_zero ch = some sessions ∧
      sessions[i * g.inout_h.toNat + r]? = some s ∧
      StepsOrder (convert_data_layout_for_chwise_gemm_weight false .I_X_W (PimCreateBo g.weight))
        (heldAt g.in_w.toNat g.out_w.toNat 0 i) p.n_in_tile ch s ∧
      SumsPartials ch s (fun tid => (chwise_reduce p ch tid)[i * g.inout_h.toNat + r]?)
        (fun row => 4096 * i + row)

namespace ChwiseGemm

variable (g : ChwiseGemm)

/-- Nothing to multiply; or a row count that is an `int`, and every tile starts below `2^31`. -/
def ReadFits : Prop :=
  g.tiles = 0 ∨ g.inout_h.toNat < 2 ^ 31 ∧ g.in_w.toNat * 8192 ≤ 2 ^ 31 ∧
    (g.tiles - 1) * (g.in_w.toNat * 8192) < 2 ^ 31

section Align

variable {g} {k : ℕ} (hk : g.in_w.toNat = 256 * k)
include hk

theorem in_pairs_pos : 0 < k := by
  have := g.in_w_pos
  omega

theorem n_in_tile_of_launch {p : GemmLaunch} (hp : g.launch = some p) :
    p.n_in_tile = ((2 * k : ℕ) : ℤ) := by
  have hlt := g.in_w.toNat_lt
  simp only [launch, execute_chwise_gemm_tile_accum] at hp
  split_ifs at hp
  rw [← Option.some.inj hp]
  have hcnt : in_tile_cnt g.input = int32 (g.in_w.toNat * 2 / 32 / 8 : ℕ) := rfl
  have heq : g.in_w.toNat * 2 / 32 / 8 = 2 * k := by omega
  simp only [hcnt, heq]
  exact int32_natCast (by omega)

theorem tile_bytes : g.in_w.toNat * 8192 = 2 ^ 21 * k * 1 := by
  rw [hk]; ring

theorem heldAt_tile (i row group : ℕ) :
    heldAt g.in_w.toNat g.out_w.toNat 0 i row group =
      32 * ((4096 * (i * 1 + 0) + row) * (16 * k) + group) := by
  have hin : g.in_w.toNat / 16 = 16 * k := by omega
  rw [heldAt, hin, Nat.zero_mul, Nat.zero_add, Nat.mul_one, Nat.add_zero]

/-- The host's copies, once the byte count of a tile is an exact stride. -/
theorem copies_eq (hmat : g.in_w.toNat * 8192 ≤ 2 ^ 31) (htiles : g.tiles < 2 ^ 20) :
    convert_data_layout_for_chwise_gemm_weight false .I_X_W (PimCreateBo g.weight) =
      (List.range (65536 * (k * (g.tiles * 1)))).map (copyAt false k 1 (2 ^ 21 * k * 1)) := by
  have hin : inDim g.weight .I_X_W = 256 * k := hk
  have hin_lt : inDim g.weight .I_X_W < 2 ^ 31 := show g.in_w.toNat < 2 ^ 31 by omega
  have hrows : matrices g.weight * outDim g.weight .I_X_W = 4096 * g.tiles := g.rows_eq
  have hstride : uint32 (g.weight.h.toNat * 4096) * 2 = 2 ^ 21 * k * 1 := by
    have hh : g.weight.h.toNat = g.in_w.toNat := rfl
    rw [hh, uint32_of_lt (by omega), hk]
    ring
  rw [convert_chwise_eq _ hin hrows hin_lt (by omega), hstride,
    show g.tiles * 1 * (2 * k) * 32768 = 65536 * (k * (g.tiles * 1)) by ring]

end Align

/-! ### When the product fits -/

/-- The thread that stores row `4096 * i + row` of all rows sums the cell its block wrote. -/
theorem sums_of_session (p : GemmLaunch) (input : ℤ) (i : ℕ) {ch : ℕ} :
    SumsPartials ch (chwise_session (chwise_state p input i))
      (fun tid => some (chwise_reduce_step ch tid ⟨(i : ℤ) * 8192, (i : ℤ) * 2 ^ 18⟩))
      (fun row => 4096 * i + row) := by
  intro b hb j hj
  refine ⟨_, rfl, ?_, ?_⟩
  · simp only [chwise_reduce_step]
    have hhalf : (i : ℤ) * 8192 / 2 = ((4096 * i : ℕ) : ℤ) := by omega
    rw [hhalf, ← Nat.cast_add, Nat.cast_inj]
    omega
  · have hcell : (chwise_session (chwise_state p input i)).cell j = (0, j % 32) := rfl
    have hbase : (chwise_session (chwise_state p input i)).partial_sum = (i : ℤ) * 2 ^ 18 := rfl
    have hsum := sum_cell_eq ch 0 0 hb hj (by norm_num)
    have hhalf : 2 * ((i : ℤ) * 2 ^ 18 / 2) = (i : ℤ) * 2 ^ 18 := by omega
    rw [partial_addr, hcell, hbase, broadcast_add, Nat.mod_eq_of_lt (show j < 32 by omega)]
    simp only [chwise_reduce_step, mul_add, hhalf]
    exact congrArg _ hsum

theorem ReadFits.readOrder {g : ChwiseGemm} (hf : g.ReadFits) {k : ℕ} (hk : g.in_w.toNat = 256 * k)
    (by_zero : ByZero) : ChwiseReadOrder g by_zero := by
  intro i hi r hr ch hch
  rcases hf with hnone | ⟨hh, hmat, hlast⟩
  · omega
  have hk0 := in_pairs_pos hk
  have htiles : g.tiles < 2 ^ 20 := by
    have hle : (g.tiles - 1) * 2 ^ 21 ≤ (g.tiles - 1) * (g.in_w.toNat * 8192) :=
      Nat.mul_le_mul_left _ (by omega)
    omega
  have hpos : 0 < g.out_w.toNat := by
    refine Nat.pos_of_ne_zero fun hzero => ?_
    have hrows := g.rows_eq
    rw [hzero, Nat.mul_zero] at hrows
    omega
  obtain ⟨p, hp⟩ := g.exists_launch hpos
  obtain ⟨hiter, hrows, -⟩ := launch_eq hp
  have hpack : 0 < 4096 / g.out_w.toNat := Nat.div_pos (le_of_lt g.out_w_lt) hpos
  have hH : p.inout_h.toNat = g.inout_h.toNat := by rw [hrows, int32_natCast hh, Int.toNat_natCast]
  -- the executor may round the iterations up, never down
  have hcount : i < p.iter_cnt.toNat := by
    have hmat_lt : matrices g.weight < 2 ^ 32 := by
      have hrows := g.rows_eq
      have : matrices g.weight * 1 ≤ matrices g.weight * g.out_w.toNat := Nat.mul_le_mul_left _ hpos
      omega
    have hle : g.tiles ≤ matrices g.weight / (4096 / g.out_w.toNat) := by
      refine (Nat.le_div_iff_mul_le hpack).mpr (Nat.le_of_mul_le_mul_right ?_ hpos)
      rw [g.rows_eq, Nat.mul_assoc, Nat.mul_comm 4096]
      exact Nat.mul_le_mul_left _ (Nat.div_mul_le_self _ _)
    -- a tile has room for two matrices
    have htwo : 2 ≤ 4096 / g.out_w.toNat ∨ 2048 < g.out_w.toNat := by
      rcases Nat.lt_or_ge 2048 g.out_w.toNat with hlt | hge
      · exact Or.inr hlt
      · exact Or.inl ((Nat.le_div_iff_mul_le hpos).mpr (by omega))
    have hdiv : matrices g.weight / (4096 / g.out_w.toNat) < 2 ^ 31 := by
      rcases htwo with htwo | hwide
      · calc matrices g.weight / (4096 / g.out_w.toNat) ≤ matrices g.weight / 2 :=
            Nat.div_le_div_left htwo (by norm_num)
          _ < 2 ^ 31 := by omega
      · have hrows := g.rows_eq
        have : matrices g.weight * 2048 ≤ matrices g.weight * g.out_w.toNat :=
          Nat.mul_le_mul_left _ hwide.le
        exact (Nat.div_le_self _ _).trans_lt (by omega)
    rw [hiter, uint32_of_lt hmat_lt, int32_natCast hdiv, Int.toNat_natCast]
    omega
  obtain ⟨sessions, hs, -, hat⟩ := sessions_at hp by_zero ch
  obtain ⟨s, hget, ⟨input, rfl⟩, hsw, -⟩ := hat i hcount r (by omega)
  rw [hH] at hget
  refine ⟨p, sessions, _, hp, hs, hget, ?_, ?_⟩
  · have hweight : (chwise_session (chwise_state p input i)).weight =
        ((i * (2 ^ 21 * k * 1) : ℕ) : ℤ) := by
      rw [hsw, ← tile_bytes hk]
      rcases Nat.eq_zero_or_pos i with rfl | hpos
      · simp
      · have hle : 1 * (g.in_w.toNat * 8192) ≤ (g.tiles - 1) * (g.in_w.toNat * 8192) :=
          Nat.mul_le_mul_right _ (by omega)
        rw [int32_natCast (by omega), Nat.cast_mul i]
    rw [n_in_tile_of_launch hk hp, copies_eq hk hmat htiles]
    refine stepsOrder_of fun i_idx hi_idx => ?_
    rw [tile_bytes hk] at hmat hlast
    exact stepOrder_of (o := 0) hweight rfl
      (fun q hq => placedAt_target hk0 Nat.one_pos hmat hlast false hq) (heldAt_tile hk i) (by omega) hi
      Nat.one_pos hch hi_idx
  · have hstep : ∀ tid, (chwise_reduce p ch tid)[i * g.inout_h.toNat + r]? =
        some (chwise_reduce_step ch tid ⟨(i : ℤ) * 8192, (i : ℤ) * 2 ^ 18⟩) := by
      intro tid
      rw [chwise_reduce_eq, hH]
      exact getElem?_nest (fun i _ => chwise_reduce_step ch tid ⟨(i : ℤ) * 8192, (i : ℤ) * 2 ^ 18⟩)
        hcount hr
    simp only [hstep]
    exact sums_of_session p input i

/-! ### When the order is right -/

section Order

variable {g} {by_zero : ByZero} {k : ℕ} (hk : g.in_w.toNat = 256 * k) (h : ChwiseReadOrder g by_zero)
  (hsome : 0 < g.tiles)
include h hsome

/-- The kernel counts its input rows in an `int`. -/
theorem readOrder_rows : g.inout_h.toNat < 2 ^ 31 := by
  obtain ⟨p, sessions, s, hp, hs, hget, -⟩ := h 0 hsome 0 g.inout_h_pos 0 (by norm_num)
  by_contra hge
  obtain ⟨sessions', hs', hlen, -⟩ := sessions_at hp by_zero 0
  obtain rfl : sessions = sessions' := Option.some.inj (hs.symm.trans hs')
  have hbound := g.inout_h.toNat_lt
  have hneg : p.inout_h < 0 := by
    rw [(launch_eq hp).2.1]
    exact int32_neg (by omega) (by omega)
  rw [Int.toNat_of_nonpos (le_of_lt hneg), Nat.mul_zero, List.length_eq_zero_iff] at hlen
  rw [hlen] at hget
  exact absurd hget (by simp)

include hk in
/-- Some copy read the very last transaction. -/
theorem readOrder_last : ∃ c ∈ convert_data_layout_for_chwise_gemm_weight false .I_X_W
    (PimCreateBo g.weight),
    c.src = ((g.tiles * (2 ^ 21 * k * 1) - 32 : ℕ) : ℤ) := by
  have hk0 := in_pairs_pos hk
  obtain ⟨p, sessions, s, hp, -, -, hsteps, -⟩ :=
    h (g.tiles - 1) (by omega) 0 g.inout_h_pos 63 (by norm_num)
  have hmem : 2 * k - 1 ∈ forFrom 1 p.n_in_tile 2 := by
    rw [n_in_tile_of_launch hk hp]
    exact (mem_forFrom (by norm_num)).mpr ⟨by omega, ⟨k - 1, by omega⟩, by omega⟩
  obtain ⟨a, -, hread⟩ := (hsteps 1 (by norm_num) _ hmem).read 7 (by norm_num) 7 (by norm_num)
  obtain ⟨c, hc, -, hsrc⟩ := exists_copy_of_placedAt (hread 7 (by norm_num))
  refine ⟨c, hc, ?_⟩
  rw [hsrc, Nat.cast_inj, heldAt_tile hk]
  have hrow : 4096 * ((g.tiles - 1) * 1 + 0) + (64 * 63 + 8 * 7 + 7) + 1 = 4096 * g.tiles := by omega
  have hbytes : g.tiles * (2 ^ 21 * k * 1) =
      32 * ((4096 * ((g.tiles - 1) * 1 + 0) + (64 * 63 + 8 * 7 + 7)) * (16 * k) + 16 * k) := by
    rw [← Nat.succ_mul, Nat.succ_eq_add_one, hrow]
    ring
  rw [hbytes]
  omega

include hk in
theorem readOrder_tiles : g.in_w.toNat * 8192 ≤ 2 ^ 31 ∧ (g.tiles - 1) * (g.in_w.toNat * 8192) <
    2 ^ 31 := by
  have hk0 := in_pairs_pos hk
  obtain ⟨c, hc, hsrc⟩ := readOrder_last hk h hsome
  obtain ⟨hlt, hone⟩ := convert_chwise_src_lt hc
  have hcount : (chwise_counts .I_X_W (PimCreateBo g.weight)).1 = ((g.tiles % 2 ^ 20 : ℕ) : ℤ) :=
    g.host_count_eq .I_X_W
  rw [hcount, hsrc] at hone
  rw [hsrc] at hlt
  have hbytes : g.tiles * (2 ^ 21 * k * 1) = 2 ^ 21 * (g.tiles * k) := by ring
  have htiles : g.tiles ≤ g.tiles * k := Nat.le_mul_of_pos_right _ hk0
  have hsmall : g.tiles < 2 ^ 20 := by omega
  rw [Nat.mod_eq_of_lt hsmall] at hone
  have hmat : g.in_w.toNat * 8192 ≤ 2 ^ 31 := by
    rcases Nat.eq_or_lt_of_le (show 1 ≤ g.tiles from hsome) with hone_tile | htwo
    · have hlt' := hone (by omega)
      rw [← hone_tile] at hlt'
      omega
    · have hle : 2 * k ≤ g.tiles * k := Nat.mul_le_mul_right _ htwo
      omega
  refine ⟨hmat, ?_⟩
  rw [copies_eq hk hmat hsmall] at hc
  rw [tile_bytes hk] at hmat ⊢
  exact last_matrix_lt hk0 Nat.one_pos hsome hmat hc hsrc

end Order

/-- The channel-wise kernel reads what the conversion wrote exactly when its rows are an `int` and every
    tile starts below `2^31`. -/
theorem readOrder_iff (by_zero : ByZero) {k : ℕ} (hk : g.in_w.toNat = 256 * k) :
    ChwiseReadOrder g by_zero ↔ g.ReadFits := by
  refine ⟨fun h => ?_, fun hf => hf.readOrder hk by_zero⟩
  rcases Nat.eq_zero_or_pos g.tiles with hnone | hsome
  · exact Or.inl hnone
  · exact Or.inr ⟨readOrder_rows h hsome, readOrder_tiles hk h hsome⟩

end ChwiseGemm

/-- Both kernels read, step by step and block by block, what their conversion wrote, and sum the cells
    that were written for it, exactly when both products fit. -/
theorem read_order_iff (a : AlignedGemm) (g : ChwiseGemm) (by_zero : ByZero)
    (hin : 256 ∣ g.in_w.toNat) :
    (AlignedReadOrder a ↔ a.ReadFits) ∧ (ChwiseReadOrder g by_zero ↔ g.ReadFits) :=
  ⟨a.aligned_read_order_iff, g.readOrder_iff by_zero (Nat.mul_div_cancel' hin).symm⟩

/-- One tile of one matrix. -/
def oneTile : AlignedGemm := .of 1 1 1 256 4096 AlignedGemm.sides_smallest

/-- Two matrices that share a tile. -/
def twoHalves : ChwiseGemm := .of 2 1 1 256 2048 (by decide)

theorem read_order_one_tile : 256 ∣ twoHalves.in_w.toNat ∧ AlignedReadOrder oneTile ∧
    ChwiseReadOrder twoHalves id :=
  ⟨by decide, (read_order_iff oneTile twoHalves id (by decide)).1.mpr ⟨by decide, by decide, by decide⟩,
    (read_order_iff oneTile twoHalves id (by decide)).2.mpr
      (Or.inr ⟨by decide, by decide, by decide⟩)⟩

/-- A matrix of 4 GiB, whose upper half the host's `int` index does not reach. -/
def fourGiB : AlignedGemm := .of 1 1 1 262144 8192 (by decide)

/-- Two halves of a tile of 4 GiB. -/
def fourGiBTile : ChwiseGemm := .of 2 1 1 524288 2048 (by decide)

/-- The conversion of neither weight puts its last transaction anywhere. -/
theorem read_order_fails_at_four_gib :
    byteSize fourGiB.weight = 2 ^ 32 ∧ byteSize fourGiBTile.weight = 2 ^ 32 ∧
      ¬ AlignedReadOrder fourGiB ∧ ∀ by_zero, ¬ ChwiseReadOrder fourGiBTile by_zero := by
  refine ⟨by decide, by decide, fun h => ?_, fun by_zero h => ?_⟩
  · exact absurd (AlignedGemm.readOrder_fits h).1 (by decide)
  · have hk : fourGiBTile.in_w.toNat = 256 * 2048 := by decide
    exact absurd (ChwiseGemm.readOrder_tiles hk h (by decide)).1 (by decide)

end PimLibrary.Kernel
