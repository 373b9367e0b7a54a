import PimLibrary.Kernel.ReadStep

/-! The kernels read each weight where the host conversion put it, and sum what was written for it.

    Steps agree whenever the session's pointers are exact. What can go wrong is arithmetic only: the
    host's and the kernel's matrix offsets and the output indices are `int`s, so the agreement ends
    where a matrix starts or an output lies at `2^31` or beyond. -/

namespace PimLibrary.Kernel
open Schemes.Word Schemes.Loop Schemes.Digits Schemes.Scatter PimLibrary.Device PimLibrary.Layout

attribute [local irreducible] int32

/-- Where the `[out][in]` weights hold in-group `group` of row `row` of tile `o` of matrix `m`. -/
def heldAt (in_w out_w m o row group : ℕ) : ℕ :=
  m * (in_w * out_w * 2) + 32 * ((4096 * o + row) * (in_w / 16) + group)

/-- The thread that owns the output of row `64 * ch + 8 * b + j` sums the cell that block `b` wrote for
    accumulator `j` of the session. -/
def SumsPartials (ch : ℕ) (s : Session) (step : ℕ → Option ReduceStep) (out : ℕ → ℕ) : Prop :=
  ∀ b, b < 8 → ∀ j, j < 8 → ∃ sum, step (8 * b + j) = some sum ∧
    sum.out = (out (64 * ch + 8 * b + j) : ℤ) ∧ 2 * sum.cell = broadcast b (partial_addr ch s j)

/-- Every in-tile step of the generic kernel's two loops keeps the order. -/
def StepsOrder (copies : List Copy) (held : ℕ → ℕ → ℕ) (n_in_tile : ℤ) (ch : ℕ) (s : Session) : Prop :=
  ∀ bank, bank < 2 → ∀ i_idx ∈ forFrom bank n_in_tile 2, StepOrder (placedAt copies) held ch s
    bank i_idx

/-- The aligned kernel against the aligned conversion. -/
def AlignedReadOrder (g : AlignedGemm) : Prop :=
  ∃ copies, convert_data_layout_for_aligned_gemm_weight false .I_X_W (PimCreateBo g.weight) =
    .ok copies ∧
    ∀ m, m < matrices g.weight → ∀ r, r < g.inout_h.toNat → ∀ o, o < g.out_tiles → ∀ ch, ch < 64 →
      ∃ s, (aligned_sessions g.launch)[(m * g.inout_h.toNat + r) * g.out_tiles + o]? = some s ∧
        StepsOrder copies (heldAt g.in_w.toNat g.out_w.toNat m o) g.launch.n_in_tile ch s ∧
        SumsPartials ch s
          (fun tid => (aligned_reduce g.launch ch tid)[(m * g.inout_h.toNat + r) * g.out_tiles + o]?.join)
          (fun row => (m * g.inout_h.toNat + r) * g.out_w.toNat + (4096 * o + row))

/-- The steps of both loops, by parity of the in-tile. -/
theorem stepsOrder_of {copies : List Copy} {held : ℕ → ℕ → ℕ} {k ch : ℕ} {s : Session}
    (h : ∀ i_idx, i_idx < 2 * k → StepOrder (placedAt copies) held ch s (i_idx % 2) i_idx) :
    StepsOrder copies held ((2 * k : ℕ) : ℤ) ch s := by
  intro bank hbank i_idx hmem
  obtain ⟨hlo, hdvd, hlt⟩ := (mem_forFrom (by norm_num)).mp hmem
  have hpar : bank = i_idx % 2 := by omega
  rw [hpar]
  exact h i_idx (by exact_mod_cast hlt)

/-- The cell that thread `8 * b + j` of a channel sums is the one that block `b` writes for `j`. -/
theorem sum_cell_eq (ch row col : ℕ) {b j : ℕ} (hb : b < 8) (hj : j < 8) (hrow : row < 2 ^ 32) :
    2 * ((addr_gen ch 0 ((8 * b + j) / 16) ((8 * b + j) / 8 % 2 * 2 + 1) row
      ((8 * b + j) % 8 + col) / 2 : ℕ) : ℤ) =
      broadcast b ((addr_gen ch 0 0 1 row (j + col) : ℕ) : ℤ) := by
  have hbg : (8 * b + j) / 16 = b / 2 := by omega
  have hba : (8 * b + j) / 8 % 2 * 2 + 1 = 2 * (b % 2) + 1 := by omega
  have hcol : (8 * b + j) % 8 = j := by omega
  rw [hbg, hba, hcol, addr_gen_eq _ _ _ _ _ (by omega) hrow, addr_gen_eq _ _ _ _ _ (by norm_num) hrow,
    broadcast_transaction (by norm_num)]
  generalize transaction ch (b / 2) (2 * (b % 2) + 1) row (j + col) = T
  omega

namespace AlignedGemm

variable (g : AlignedGemm)

/-- Every matrix starts, and every output lies, below `2^31`. -/
def ReadFits : Prop :=
  g.in_w.toNat * g.out_w.toNat * 2 ≤ 2 ^ 31 ∧
    (matrices g.weight - 1) * (g.in_w.toNat * g.out_w.toNat * 2) < 2 ^ 31 ∧
    matrices g.weight * g.inout_h.toNat * g.out_w.toNat ≤ 2 ^ 31

theorem matrix_bytes : g.in_w.toNat * g.out_w.toNat * 2 = 2 ^ 21 * g.in_pairs * g.out_tiles := by
  rw [g.in_w_eq, g.out_w_eq]; ring

theorem heldAt_eq (m o row group : ℕ) :
    heldAt g.in_w.toNat g.out_w.toNat m o row group =
      32 * ((4096 * (m * g.out_tiles + o) + row) * (16 * g.in_pairs) + group) := by
  have hin : g.in_w.toNat / 16 = 16 * g.in_pairs := by rw [g.in_w_eq]; omega
  rw [heldAt, g.matrix_bytes, hin]
  ring

/-! ### The summation phase -/

/-- The row and column of a cell, from the position of its tile among all tiles. -/
theorem reduce_place {L : ℕ} (tid : ℕ) (hL : L < 2 ^ 31) :
    toUint32 ((L : ℤ) / 4) = L / 4 ∧
      toUint32 (((tid % 8 : ℕ) : ℤ) + Int.tmod (L : ℤ) 4 * 8) = tid % 8 + L % 4 * 8 := by
  have htmod : Int.tmod (L : ℤ) 4 = ((L % 4 : ℕ) : ℤ) := rfl
  have hrow : (L : ℤ) / 4 = ((L / 4 : ℕ) : ℤ) := rfl
  have hcol : ((tid % 8 : ℕ) : ℤ) + ((L % 4 : ℕ) : ℤ) * 8 = ((tid % 8 + L % 4 * 8 : ℕ) : ℤ) := by
    push_cast; ring
  constructor
  · rw [hrow, toUint32_natCast (by omega)]
  · rw [htmod, hcol, toUint32_natCast (by omega)]

/-- What a thread sums for row `q` and tile `o`, and where the sum goes. -/
theorem reduce_step_exact {q o ch tid : ℕ} (ho : o < g.out_tiles) (hch : ch < 64) (htid : tid < 64)
    (hout : (q + 1) * g.out_w.toNat ≤ 2 ^ 31) (hlt : g.out_w.toNat < 2 ^ 31) :
    aligned_reduce_step g.launch ch tid (q : ℤ) o =
      some ⟨((addr_gen ch 0 (tid / 16) (tid / 8 % 2 * 2 + 1) ((q * g.out_tiles + o) / 4)
          (tid % 8 + (q * g.out_tiles + o) % 4 * 8) / 2 : ℕ) : ℤ),
        ((q * g.out_w.toNat + (4096 * o + (64 * ch + tid)) : ℕ) : ℤ)⟩ := by
  have hw := g.out_w_eq
  have hrow : (q + 1) * g.out_w.toNat = q * g.out_w.toNat + g.out_w.toNat := by ring
  have htile : q * g.out_w.toNat = 4096 * (q * g.out_tiles) := by rw [hw]; ring
  have hidx_lt : o * 4096 + (ch * 64 + tid) < g.out_w.toNat := by omega
  have hL_lt : q * g.out_tiles + o < 2 ^ 31 := by omega
  have hsum_lt : q * g.out_w.toNat + (o * 4096 + (ch * 64 + tid)) < 2 ^ 31 := by omega
  have hlaunch : g.launch.out_w = (g.out_w.toNat : ℤ) := by
    have h : g.launch.out_w = int32 (g.out_w.toNat : ℤ) := rfl
    rw [h, int32_natCast hlt]
  have hidx : int32 ((o * 4096 + (ch * 64 + tid) : ℕ) : ℤ) = ((o * 4096 + (ch * 64 + tid) : ℕ) : ℤ) :=
    int32_natCast (lt_trans hidx_lt hlt)
  have hli : int32 ((q : ℤ) * g.out_tiles + o) = ((q * g.out_tiles + o : ℕ) : ℤ) := by
    rw [← Nat.cast_mul, ← Nat.cast_add, int32_natCast hL_lt]
  have hsum : int32 ((q : ℤ) * (g.out_w.toNat : ℤ) + ((o * 4096 + (ch * 64 + tid) : ℕ) : ℤ)) =
      ((q * g.out_w.toNat + (4096 * o + (64 * ch + tid)) : ℕ) : ℤ) := by
    rw [← Nat.cast_mul, ← Nat.cast_add, int32_natCast hsum_lt, Nat.mul_comm o, Nat.mul_comm ch]
  obtain ⟨hli_row, hli_col⟩ := reduce_place tid hL_lt
  have hguard : ((o * 4096 + (ch * 64 + tid) : ℕ) : ℤ) <
    (g.out_w.toNat : ℤ) := by exact_mod_cast hidx_lt
  rw [aligned_reduce_step]
  simp only [hidx, hlaunch, if_pos hguard, n_out_tile_eq, hli, hli_row, hli_col, hsum]
  rfl

/-- Where a session writes accumulator `j`, from the position of its tile among all tiles. -/
theorem partial_addr_exact {m r o q ch j : ℕ} (hq : (aligned_state g.launch m r).gemv_cnt = (q : ℤ))
    (hj : j < 8) (hL : 8 * (q * g.out_tiles + o) + 8 ≤ 2 ^ 31) :
    partial_addr ch (aligned_session g.launch (aligned_state g.launch m r) o) j =
      ((addr_gen ch 0 0 1 ((q * g.out_tiles + o) / 4) (j + (q * g.out_tiles + o) % 4 * 8) : ℕ) : ℤ) := by
  have hloc : (q : ℤ) * (g.out_tiles : ℤ) * 8 + (o : ℤ) * 8 + (j : ℤ) =
      ((8 * (q * g.out_tiles + o) + j : ℕ) : ℤ) := by
    push_cast; ring
  have hcell : (aligned_session g.launch (aligned_state g.launch m r) o).cell j =
      (toUint32 (int32 ((8 * (q * g.out_tiles + o) + j : ℕ) : ℤ) / 32),
        toUint32 (Int.tmod (int32 ((8 * (q * g.out_tiles + o) + j : ℕ) : ℤ)) 32)) := by
    rw [← hloc, ← hq, ← n_out_tile_eq]
    rfl
  have hbase : (aligned_session g.launch (aligned_state g.launch m r) o).partial_sum = 0 := rfl
  rw [partial_addr, hcell, hbase, zero_add]
  clear hcell hbase hloc hq
  generalize q * g.out_tiles + o = L at *
  have hrow : ((8 * L + j : ℕ) : ℤ) / 32 = (((8 * L + j) / 32 : ℕ) : ℤ) := rfl
  have hcol : Int.tmod ((8 * L + j : ℕ) : ℤ) 32 = (((8 * L + j) % 32 : ℕ) : ℤ) := rfl
  rw [int32_natCast (by omega), hrow, hcol, toUint32_natCast (by omega), toUint32_natCast (by omega),
    show (8 * L + j) / 32 = L / 4 by omega, show (8 * L + j) % 32 = j + L % 4 * 8 by omega]

/-! ### When the product fits -/

section Fits

variable {g} (hf : g.ReadFits)
include hf

theorem ReadFits.bounds : g.in_w.toNat < 2 ^ 31 ∧ g.out_w.toNat < 2 ^ 31 ∧
    matrices g.weight * g.out_tiles < 2 ^ 20 ∧ g.inout_h.toNat < 2 ^ 31 ∧
    g.in_pairs * g.out_tiles ≤ 2 ^ 10 := by
  obtain ⟨hmat, -, hout⟩ := hf
  have hin := g.in_w_pos
  have hin' := Nat.le_of_dvd hin g.in_w_align
  have hw := g.out_w_pos
  have hm := g.matrices_pos
  have hh := g.inout_h_pos
  have h1 : g.in_w.toNat * 1 ≤ g.in_w.toNat * g.out_w.toNat := Nat.mul_le_mul_left _ hw
  have h2 : 256 * g.out_w.toNat ≤ g.in_w.toNat * g.out_w.toNat := Nat.mul_le_mul_right _ hin'
  have h3 : matrices g.weight * 1 * g.out_w.toNat ≤ matrices g.weight * g.inout_h.toNat *
      g.out_w.toNat :=
    Nat.mul_le_mul_right _ (Nat.mul_le_mul_left _ hh)
  have h4 : 1 * g.inout_h.toNat * g.out_w.toNat ≤ matrices g.weight * g.inout_h.toNat * g.out_w.toNat :=
    Nat.mul_le_mul_right _ (Nat.mul_le_mul_right _ hm)
  have h5 : matrices g.weight * 1 * g.out_w.toNat = 4096 * (matrices g.weight * g.out_tiles) := by
    rw [g.out_w_eq]; ring
  have h6 : 1 * g.inout_h.toNat * 4096 ≤ 1 * g.inout_h.toNat * g.out_w.toNat :=
    Nat.mul_le_mul_left _ (Nat.le_of_dvd hw g.out_w_align)
  have h7 : g.in_w.toNat * g.out_w.toNat * 2 = 2 ^ 21 * (g.in_pairs * g.out_tiles) := by
    rw [g.matrix_bytes]; ring
  refine ⟨?_, ?_, ?_, ?_, ?_⟩ <;> omega

/-- The host's copies, none of which wraps. -/
theorem ReadFits.copies_eq :
    convert_data_layout_for_aligned_gemm_weight false .I_X_W (PimCreateBo g.weight) =
      .ok ((List.range (65536 * (g.in_pairs * (matrices g.weight * g.out_tiles)))).map
        (copyAt false g.in_pairs g.out_tiles (2 ^ 21 * g.in_pairs * g.out_tiles))) := by
  obtain ⟨hin, hout, hN, -, -⟩ := hf.bounds
  have hm : matrices g.weight * 1 ≤ matrices g.weight * g.out_tiles :=
    Nat.mul_le_mul_left _ g.out_tiles_pos
  have hstride : uint32 (g.weight.h.toNat * g.weight.w.toNat) * 2 = 2 ^ 21 * g.in_pairs *
      g.out_tiles := by
    have hmat := hf.1
    have h : g.weight.h.toNat * g.weight.w.toNat = g.in_w.toNat * g.out_w.toNat := rfl
    rw [h, uint32_of_lt (by omega), g.matrix_bytes]
  have hk : inDim g.weight .I_X_W = 256 * g.in_pairs := g.in_w_eq
  have hY : outDim g.weight .I_X_W = 4096 * g.out_tiles := g.out_w_eq
  rw [convert_aligned_eq (Y := g.out_tiles) hk (by omega) (by omega) hin hout, hstride,
    show matrices g.weight * g.out_tiles * (2 * g.in_pairs) * 32768 =
      65536 * (g.in_pairs * (matrices g.weight * g.out_tiles)) by ring]

theorem ReadFits.gemv_cnt_eq {m r : ℕ} (hm : m < matrices g.weight) (hr : r < g.inout_h.toNat) :
    (aligned_state g.launch m r).gemv_cnt = ((m * g.inout_h.toNat + r : ℕ) : ℤ) ∧
      (m * g.inout_h.toNat + r + 1) * g.out_w.toNat ≤ 2 ^ 31 := by
  obtain ⟨-, -, -, hh, -⟩ := hf.bounds
  have hlast : m * g.inout_h.toNat + r + 1 ≤ matrices g.weight * g.inout_h.toNat :=
    calc m * g.inout_h.toNat + r + 1 ≤ m * g.inout_h.toNat + g.inout_h.toNat := by omega
      _ = (m + 1) * g.inout_h.toNat := by ring
      _ ≤ _ := Nat.mul_le_mul_right _ hm
  have hle : (m * g.inout_h.toNat + r + 1) * g.out_w.toNat ≤ 2 ^ 31 :=
    le_trans (Nat.mul_le_mul_right _ hlast) hf.2.2
  have hone : (m * g.inout_h.toNat + r + 1) * 1 ≤ (m * g.inout_h.toNat + r + 1) * g.out_w.toNat :=
    Nat.mul_le_mul_left _ g.out_w_pos
  refine ⟨?_, hle⟩
  rw [aligned_state_cnt, g.inout_h_eq hh, int32_natCast (by omega)]

theorem ReadFits.session {m r o ch : ℕ} (hm : m < matrices g.weight)
    (ho : o < g.out_tiles) (hch : ch < 64) {copies : List Copy}
    (hcopies : copies = (List.range (65536 * (g.in_pairs * (matrices g.weight * g.out_tiles)))).map
      (copyAt false g.in_pairs g.out_tiles (2 ^ 21 * g.in_pairs * g.out_tiles))) :
    StepsOrder copies (heldAt g.in_w.toNat g.out_w.toNat m o) g.launch.n_in_tile ch
      (aligned_session g.launch (aligned_state g.launch m r) o) := by
  obtain ⟨-, -, -, -, hky⟩ := hf.bounds
  obtain ⟨hmat, hlast, -⟩ := hf
  have hoff : g.in_pairs * o < g.in_pairs * g.out_tiles := Nat.mul_lt_mul_of_pos_left ho g.in_pairs_pos
  have hweight : (aligned_session g.launch (aligned_state g.launch m r) o).weight =
      ((m * (2 ^ 21 * g.in_pairs * g.out_tiles) : ℕ) : ℤ) := by
    rw [g.session_weight, ← g.matrix_bytes]
    rcases Nat.eq_zero_or_pos m with rfl | hpos
    · simp
    · have hle : 1 * (g.in_w.toNat * g.out_w.toNat * 2) ≤
          (matrices g.weight - 1) * (g.in_w.toNat * g.out_w.toNat * 2) :=
            Nat.mul_le_mul_right _ (by omega)
      rw [int32_natCast (by omega), Nat.cast_mul m]
  have hr_offset : (aligned_session g.launch (aligned_state g.launch m r) o).r_offset =
      ((g.in_pairs * o : ℕ) : ℤ) := by
    have heq : o * (2 * g.in_pairs) = 2 * (g.in_pairs * o) := by ring
    rw [g.session_r_offset, heq, int32_natCast (by omega)]
    clear hweight
    omega
  rw [g.n_in_tile_eq]
  refine stepsOrder_of fun i_idx hi => ?_
  rw [g.matrix_bytes] at hmat hlast
  subst hcopies
  exact stepOrder_of hweight hr_offset
    (fun q hq => placedAt_target g.in_pairs_pos g.out_tiles_pos hmat hlast false hq) (g.heldAt_eq m o)
    (by omega) hm ho hch hi

theorem ReadFits.sums {m r o ch : ℕ} (hm : m < matrices g.weight) (hr : r < g.inout_h.toNat)
    (ho : o < g.out_tiles) (hch : ch < 64) :
    SumsPartials ch (aligned_session g.launch (aligned_state g.launch m r) o)
      (fun tid => aligned_reduce_step g.launch ch tid (aligned_state g.launch m r).gemv_cnt o)
      (fun row => (m * g.inout_h.toNat + r) * g.out_w.toNat + (4096 * o + row)) := by
  intro b hb j hj
  obtain ⟨hcnt, hout⟩ := hf.gemv_cnt_eq hm hr
  obtain ⟨-, hw, -⟩ := hf.bounds
  have htile : (m * g.inout_h.toNat + r + 1) * g.out_w.toNat =
      4096 * ((m * g.inout_h.toNat + r) * g.out_tiles + g.out_tiles) := by
    rw [g.out_w_eq]; ring
  simp only [hcnt, g.reduce_step_exact ho hch (show 8 * b + j < 64 by omega) hout hw]
  refine ⟨_, rfl, by rw [Nat.add_assoc (64 * ch)], ?_⟩
  rw [g.partial_addr_exact hcnt hj (by omega)]
  exact sum_cell_eq _ _ _ hb hj (by omega)

theorem ReadFits.readOrder : AlignedReadOrder g := by
  obtain ⟨-, -, hN, hh, -⟩ := hf.bounds
  refine ⟨_, hf.copies_eq, fun m hm r hr o ho ch hch => ?_⟩
  have hone : matrices g.weight * 1 ≤ matrices g.weight * g.out_tiles :=
    Nat.mul_le_mul_left _ g.out_tiles_pos
  have hi : m < g.launch.iter_cnt.toNat := by
    rw [g.iter_cnt_eq, Int.toNat_natCast, Nat.mod_eq_of_lt hN]
    omega
  have hH : g.launch.inout_h.toNat = g.inout_h.toNat := g.inout_h_eq hh
  have hT : g.launch.n_out_tile.toNat = g.out_tiles := by rw [g.n_out_tile_eq, Int.toNat_natCast]
  refine ⟨aligned_session g.launch (aligned_state g.launch m r) o, ?_, hf.session hm ho hch rfl, ?_⟩
  · rw [aligned_sessions_eq, hH, hT]
    exact getElem?_nest_nest (fun i r o => aligned_session g.launch (aligned_state g.launch i r) o) hi hr ho
  · have hstep : ∀ tid, (aligned_reduce g.launch ch tid)[(m * g.inout_h.toNat + r) * g.out_tiles +
      o]?.join =
        aligned_reduce_step g.launch ch tid (aligned_state g.launch m r).gemv_cnt o := by
      intro tid
      rw [aligned_reduce_eq, hH, hT, getElem?_nest_nest (fun i r o =>
        aligned_reduce_step g.launch ch tid (aligned_state g.launch i r).gemv_cnt o) hi hr ho,
          Option.join_some]
    simp only [hstep]
    exact hf.sums hm hr ho hch

end Fits

/-! ### When the order is right -/

section Order

variable {g} (h : AlignedReadOrder g)
include h

/-- The last output of the last row is stored, so its index is an `int`. -/
theorem readOrder_outputs : matrices g.weight * g.inout_h.toNat * g.out_w.toNat ≤ 2 ^ 31 := by
  obtain ⟨copies, -, hall⟩ := h
  have hm := g.matrices_pos
  have hh := g.inout_h_pos
  have ht := g.out_tiles_pos
  obtain ⟨s, -, -, hsums⟩ := hall (matrices g.weight - 1) (by omega) (g.inout_h.toNat - 1) (by omega)
    (g.out_tiles - 1) (by omega) 63 (by norm_num)
  obtain ⟨sum, hsum, hout, -⟩ := hsums 7 (by norm_num) 7 (by norm_num)
  have hlt := aligned_reduce_out_lt g.launch (List.mem_of_getElem? (Option.join_eq_some_iff.mp hsum))
  have hrows : (matrices g.weight - 1) * g.inout_h.toNat + (g.inout_h.toNat - 1) + 1 =
      matrices g.weight * g.inout_h.toNat := by
    have hle : 1 * g.inout_h.toNat ≤ matrices g.weight * g.inout_h.toNat := Nat.mul_le_mul_right _ hm
    rw [Nat.sub_mul]
    omega
  simp only at hout
  rw [hout] at hlt
  have hw := g.out_w_eq
  rw [← hrows, Nat.add_mul _ 1, Nat.one_mul]
  generalize ((matrices g.weight - 1) * g.inout_h.toNat + (g.inout_h.toNat - 1)) *
    g.out_w.toNat = Q at *
  omega

/-- Some copy read the very last transaction. -/
theorem readOrder_last : ∃ copies,
    convert_data_layout_for_aligned_gemm_weight false .I_X_W (PimCreateBo g.weight) = .ok copies ∧
      ∃ c ∈ copies, c.src = ((matrices g.weight * (g.in_w.toNat * g.out_w.toNat * 2) - 32 : ℕ) : ℤ) := by
  obtain ⟨copies, hcopies, hall⟩ := h
  have hm := g.matrices_pos
  have ht := g.out_tiles_pos
  have hk := g.in_pairs_pos
  obtain ⟨s, -, hsteps, -⟩ := hall (matrices g.weight - 1) (by omega) 0 g.inout_h_pos
    (g.out_tiles - 1) (by omega) 63 (by norm_num)
  have hmem : 2 * g.in_pairs - 1 ∈ forFrom 1 g.launch.n_in_tile 2 := by
    rw [g.n_in_tile_eq]
    exact (mem_forFrom (by norm_num)).mpr ⟨by omega, ⟨g.in_pairs - 1, by omega⟩, by omega⟩
  obtain ⟨a, -, hread⟩ := (hsteps 1 (by norm_num) _ hmem).read 7 (by norm_num) 7 (by norm_num)
  obtain ⟨c, hc, -, hsrc⟩ := exists_copy_of_placedAt (hread 7 (by norm_num))
  refine ⟨copies, hcopies, c, hc, ?_⟩
  rw [hsrc, Nat.cast_inj, g.heldAt_eq, g.matrix_bytes]
  have hrow : (matrices g.weight - 1) * g.out_tiles + (g.out_tiles - 1) + 1 = matrices g.weight *
      g.out_tiles := by
    have hle : 1 * g.out_tiles ≤ matrices g.weight * g.out_tiles := Nat.mul_le_mul_right _ hm
    rw [Nat.sub_mul]
    omega
  have hlast : 4096 * ((matrices g.weight - 1) * g.out_tiles + (g.out_tiles - 1)) +
    (64 * 63 + 8 * 7 + 7) + 1 =
      4096 * (matrices g.weight * g.out_tiles) := by omega
  have hbytes : matrices g.weight * (2 ^ 21 * g.in_pairs * g.out_tiles) =
      32 * ((4096 * ((matrices g.weight - 1) * g.out_tiles + (g.out_tiles - 1)) + (64 * 63 + 8 * 7 + 7)) *
        (16 * g.in_pairs) + 16 * g.in_pairs) := by
    rw [← Nat.succ_mul, Nat.succ_eq_add_one, hlast]
    ring
  rw [hbytes]
  omega

theorem readOrder_fits : g.ReadFits := by
  have hout := readOrder_outputs h
  obtain ⟨copies, hcopies, c, hc, hsrc⟩ := readOrder_last h
  have hin := g.in_w_pos
  have hin' := Nat.le_of_dvd hin g.in_w_align
  have hw := g.out_w_pos
  have hm := g.matrices_pos
  have hN : matrices g.weight ≤ 2 ^ 19 := by
    have h1 : matrices g.weight * 1 * 4096 ≤ matrices g.weight * g.inout_h.toNat * g.out_w.toNat :=
      Nat.mul_le_mul (Nat.mul_le_mul_left _ g.inout_h_pos) (Nat.le_of_dvd hw g.out_w_align)
    omega
  have hiter : int32 ((g.weight.n * g.weight.c).toNat : ℤ) = (matrices g.weight : ℤ) := by
    have hprod : (g.weight.n * g.weight.c).toNat = matrices g.weight := by
      rw [UInt32.toNat_mul, ← matrices, Nat.mod_eq_of_lt (by omega)]
    rw [hprod, int32_natCast (by omega)]
  obtain ⟨hsrc_lt, hsrc_one⟩ := convert_aligned_src_lt hcopies hc
  rw [hiter] at hsrc_one
  rw [hsrc] at hsrc_lt hsrc_one
  have hbytes : g.in_w.toNat * g.out_w.toNat * 2 = 2 ^ 21 * (g.in_pairs * g.out_tiles) := by
    rw [g.matrix_bytes]; ring
  have hmat : g.in_w.toNat * g.out_w.toNat * 2 ≤ 2 ^ 31 := by
    rcases Nat.eq_or_lt_of_le (show 1 ≤ matrices g.weight from hm) with hone | htwo
    · have hlt := hsrc_one (by omega)
      rw [← hone, Nat.one_mul] at hlt
      omega
    · have hle : 2 * (g.in_w.toNat * g.out_w.toNat * 2) ≤ matrices g.weight *
          (g.in_w.toNat * g.out_w.toNat * 2) :=
        Nat.mul_le_mul_right _ htwo
      generalize matrices g.weight * (g.in_w.toNat * g.out_w.toNat * 2) = total at *
      omega
  have h1 : g.in_w.toNat * 1 ≤ g.in_w.toNat * g.out_w.toNat := Nat.mul_le_mul_left _ hw
  have h2 : 256 * g.out_w.toNat ≤ g.in_w.toNat * g.out_w.toNat := Nat.mul_le_mul_right _ hin'
  have hk : inDim g.weight .I_X_W = 256 * g.in_pairs := g.in_w_eq
  have hY : outDim g.weight .I_X_W = 4096 * g.out_tiles := g.out_w_eq
  have hin_lt : inDim g.weight .I_X_W < 2 ^ 31 := show g.in_w.toNat < 2 ^ 31 by omega
  have hout_lt : outDim g.weight .I_X_W < 2 ^ 31 := show g.out_w.toNat < 2 ^ 31 by omega
  have hstride : uint32 (g.weight.h.toNat * g.weight.w.toNat) * 2 = 2 ^ 21 * g.in_pairs *
      g.out_tiles := by
    have hprod : g.weight.h.toNat * g.weight.w.toNat = g.in_w.toNat * g.out_w.toNat := rfl
    rw [hprod, uint32_of_lt (by omega), g.matrix_bytes]
  rw [convert_aligned_eq (Y := g.out_tiles) hk (by omega) (by omega) hin_lt hout_lt, hstride] at hcopies
  rw [← Except.ok.inj hcopies] at hc
  rw [g.matrix_bytes] at hsrc
  refine ⟨hmat, ?_, hout⟩
  rw [g.matrix_bytes]
  exact last_matrix_lt g.in_pairs_pos g.out_tiles_pos hm (g.matrix_bytes ▸ hmat) hc hsrc

end Order

/-- The aligned kernel reads what the conversion wrote exactly when every matrix and every output starts
    below `2^31`. -/
theorem aligned_read_order_iff : AlignedReadOrder g ↔ g.ReadFits :=
  ⟨readOrder_fits, ReadFits.readOrder⟩

end AlignedGemm

end PimLibrary.Kernel
