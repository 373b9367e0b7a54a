import PimLibrary.Layout.HostConvert

/-! The host loops in closed form.

    The running row and column only matter through the linear position `32 * row + col`: every copy
    advances it by one, every block restarts it at its parity's tile start, and the tile start moves
    by 64 per in-tile of that parity. With the block counters equal to the digits of the block number,
    each copy is a function of (iteration, out-tile, in-tile, block, position in the block). -/

namespace PimLibrary.Layout
open Schemes.Word Schemes.Loop Schemes.Digits PimLibrary.Device

/-- The row and column stand at linear position `p`, possibly with the carry still pending. -/
def AtPos (p row col : ℕ) : Prop :=
  row < 2 ^ 32 ∧ col ≤ 32 ∧ (32 * row + col) % 2 ^ 37 = p % 2 ^ 37

/-- The block counters are the digits of block `g`. -/
def AtBlock (g : ℕ) (st : Counters) : Prop :=
  st.cidx = g / 8 ∧ st.rank = 0 ∧ st.bg = g % 8 / 2 ∧ st.bank = 2 * (g % 2)

/-- The even and the odd in-tiles start at linear positions `pe` and `po`. -/
def Starts (pe po : ℕ) (st : Counters) : Prop :=
  AtPos pe st.even_s_row st.even_s_col ∧ AtPos po st.odd_s_row st.odd_s_col

/-- The source transaction of place `i` of block `g`: `i / 8` is `grfb_idx`, `i % 8` is `grfa_idx`. -/
def srcIndex (emulator : Bool) (in_cnt : ℤ) (y x g i : ℕ) : ℤ :=
  if emulator then ((y + 8 * g + i % 8 : ℕ) : ℤ) * in_cnt + x + (i / 8 : ℕ)
  else ((y + 8 * g + i / 8 : ℕ) : ℤ) * in_cnt + x + (i % 8 : ℕ)

/-- The copy at place `i` of block `g`, in a tile that starts at linear position `p`. -/
def placed (emulator : Bool) (data_offset in_cnt : ℤ) (y x odd p g i : ℕ) : Copy where
  dst := data_offset +
    (32 * transaction (g / 8) (g % 8 / 2) (2 * (g % 2) + odd) ((p + i) / 32 % 2 ^ 32) ((p + i) % 32) : ℕ)
  src := data_offset + int32 (srcIndex emulator in_cnt y x g i * 32)

section Loops

variable (emulator : Bool) (data_offset in_cnt : ℤ) (y x odd : ℕ) {g p : ℕ}

/-- One copy: it lands at the current position of the current block and advances by one. -/
theorem copy_step_spec {st : Counters} (hg : AtBlock g st) {grfb grfa : ℕ}
    (ha : grfa < 8) (hp : AtPos (p + (8 * grfb + grfa)) st.row st.col) :
    (copy_step emulator data_offset in_cnt y x odd (g * 8) grfb st grfa).2 =
        [placed emulator data_offset in_cnt y x odd p g (8 * grfb + grfa)] ∧
      AtPos (p + (8 * grfb + grfa + 1))
        (copy_step emulator data_offset in_cnt y x odd (g * 8) grfb st grfa).1.row
        (copy_step emulator data_offset in_cnt y x odd (g * 8) grfb st grfa).1.col ∧
      ∃ row col, (copy_step emulator data_offset in_cnt y x odd (g * 8) grfb st grfa).1 =
        { st with row := row, col := col } := by
  obtain ⟨hcidx, hrank, hbg, hbank⟩ := hg
  obtain ⟨hrow, hcol, hpos⟩ := hp
  have hdiv : (8 * grfb + grfa) / 8 = grfb := by omega
  have hmod : (8 * grfb + grfa) % 8 = grfa := by omega
  have hr : uint32 (st.row + st.col / 32) = (p + (8 * grfb + grfa)) / 32 % 2 ^ 32 := by
    unfold uint32; omega
  have hc : st.col % 32 = (p + (8 * grfb + grfa)) % 32 := by omega
  have haddr : addr_gen st.cidx 0 st.bg (st.bank + odd) (uint32 (st.row + st.col / 32)) (st.col % 32) =
      32 * transaction (g / 8) (g % 8 / 2) (2 * (g % 2) + odd)
        ((p + (8 * grfb + grfa)) / 32 % 2 ^ 32) ((p + (8 * grfb + grfa)) % 32) := by
    rw [addr_gen_eq _ _ _ _ _ (by omega) (uint32_lt _), hr, hc, hcidx, hbg, hbank]
  have hsrc : int32 (d_idx emulator in_cnt y x (g * 8) grfb grfa * (vega20_pbi.trans_size : ℤ)) =
      int32 (srcIndex emulator in_cnt y x g (8 * grfb + grfa) * 32) := by
    unfold d_idx srcIndex
    rw [hdiv, hmod]
    split_ifs <;> rw [int32_mul_int32'] <;> simp only [vega20_pbi] <;> push_cast <;> ring_nf
  have hcol' : uint32 (st.col % 32 + 1) = st.col % 32 + 1 := uint32_of_lt (by omega)
  simp only [copy_step, addr_gen_safe_eq _ _ _ _ _ _ hrow, hrank, haddr, hsrc, hcol']
  refine ⟨by simp [placed], ⟨uint32_lt _, by omega, ?_⟩, _, _, rfl⟩
  rw [hr]; omega

/-- The two `grf` loops of one block: 64 copies at consecutive positions. -/
theorem grf_loops_spec {st : Counters} (hg : AtBlock g st)
    (hp : AtPos p st.row st.col) :
    ∃ row col, AtPos (p + 64) row col ∧
      runLoop (fun st grfb_idx => runLoop
          (copy_step emulator data_offset in_cnt y x odd (g * 8) grfb_idx) st (List.range 8)) st
        (List.range 8) =
      ({ st with row := row, col := col },
        (List.range 64).map (placed emulator data_offset in_cnt y x odd p g)) := by
  -- at the start of row `b` of the loops the position is `p + 8 * b`
  let R : ℕ → Counters → Prop := fun k s =>
    (∃ row col, s = { st with row := row, col := col }) ∧ AtPos (p + k) s.row s.col
  have hinner : ∀ b, b < 8 → ∀ s, R (8 * b) s →
      R (8 * b + 8) (runLoop (copy_step emulator data_offset in_cnt y x odd (g * 8) b) s
          (List.range 8)).1 ∧
        (runLoop (copy_step emulator data_offset in_cnt y x odd (g * 8) b) s (List.range 8)).2 =
          (List.range 8).flatMap fun a =>
            [placed emulator data_offset in_cnt y x odd p g (8 * b + a)] := by
    intro b _ s hs
    refine runLoop_range (R := fun a s => R (8 * b + a) s) hs ?_
    rintro a ha s ⟨⟨row, col, rfl⟩, hpos⟩
    obtain ⟨hout, hpos', row', col', heq⟩ := copy_step_spec emulator data_offset in_cnt y x odd
      (g := g) (by exact hg) ha hpos
    exact ⟨⟨⟨row', col', heq⟩, hpos'⟩, hout⟩
  obtain ⟨⟨⟨row, col, heq⟩, hpos⟩, hout⟩ := runLoop_range (n := 8)
    (R := fun b s => R (8 * b) s) (o := fun b => (List.range 8).flatMap fun a =>
      [placed emulator data_offset in_cnt y x odd p g (8 * b + a)])
    (s := st) ⟨⟨st.row, st.col, rfl⟩, hp⟩ hinner
  refine ⟨row, col, by simpa [heq] using hpos, Prod.ext heq ?_⟩
  rw [hout]
  simp only [← List.map_eq_flatMap]
  rw [flatMap_range_map 8 8]
  refine List.map_congr_left fun i _ => ?_
  rw [show 8 * (i / 8) + i % 8 = i by omega]

/-- The counters roll to the next block; only the last block of a tile stores a new tile start. -/
theorem next_block_spec {st : Counters} (hg : AtBlock g st) (hlt : g < 512) :
    AtBlock ((g + 1) % 512) (next_block odd st) ∧
      (next_block odd st).even_s_row = (if g = 511 ∧ odd = 0 then st.row else st.even_s_row) ∧
      (next_block odd st).even_s_col = (if g = 511 ∧ odd = 0 then st.col else st.even_s_col) ∧
      (next_block odd st).odd_s_row = (if g = 511 ∧ odd ≠ 0 then st.row else st.odd_s_row) ∧
      (next_block odd st).odd_s_col = (if g = 511 ∧ odd ≠ 0 then st.col else st.odd_s_col) := by
  obtain ⟨hcidx, hrank, hbg, hbank⟩ := hg
  have hc : ¬ 64 ≤ g / 8 := by omega
  have hgb : ¬ 4 ≤ g % 8 / 2 := by omega
  by_cases h2 : g % 2 = 1
  · by_cases h8 : g % 8 / 2 = 3
    · by_cases h512 : g / 8 = 63
      · by_cases ho : odd = 0 <;>
        · simp [next_block, vega20_pbi, hcidx, hrank, hbg, hbank, h2, h8, h512, ho, AtBlock]
          omega
      · have hc' : ¬ 64 ≤ g / 8 + 1 := by omega
        have hg' : ¬ g = 511 := by omega
        simp [next_block, vega20_pbi, hcidx, hrank, hbg, hbank, h2, h8, hc', hg', AtBlock]
        omega
    · have hgb' : ¬ 4 ≤ g % 8 / 2 + 1 := by omega
      have hg' : ¬ g = 511 := by omega
      simp [next_block, vega20_pbi, hcidx, hrank, hbg, hbank, h2, hgb', hc, hg', AtBlock]
      omega
  · have h2' : g % 2 = 0 := by omega
    have hg' : ¬ g = 511 := by omega
    simp [next_block, vega20_pbi, hcidx, hrank, hbg, hbank, h2', hgb, hc, hg', AtBlock]
    omega

/-- One block: 64 copies from the tile start of its parity, then the roll-over. -/
theorem block_step_spec {st : Counters} {pe po : ℕ} (hg : AtBlock g st) (hlt : g < 512)
    (hs : Starts pe po st) :
    (block_step emulator data_offset in_cnt y x odd st (g * 8)).2 =
        (List.range 64).map
          (placed emulator data_offset in_cnt y x odd (if odd = 0 then pe else po) g) ∧
      AtBlock ((g + 1) % 512) (block_step emulator data_offset in_cnt y x odd st (g * 8)).1 ∧
      Starts (if g = 511 ∧ odd = 0 then pe + 64 else pe) (if g = 511 ∧ odd ≠ 0 then po + 64 else po)
        (block_step emulator data_offset in_cnt y x odd st (g * 8)).1 := by
  obtain ⟨he, ho⟩ := hs
  set st0 : Counters := if odd = 0 then { st with col := st.even_s_col, row := st.even_s_row }
    else { st with col := st.odd_s_col, row := st.odd_s_row } with hst0
  have hg0 : AtBlock g st0 := by rw [hst0]; split_ifs <;> exact hg
  have hp0 : AtPos (if odd = 0 then pe else po) st0.row st0.col := by
    rw [hst0]; split_ifs <;> assumption
  have hes : st0.even_s_row = st.even_s_row ∧ st0.even_s_col = st.even_s_col ∧
      st0.odd_s_row = st.odd_s_row ∧ st0.odd_s_col = st.odd_s_col := by
    rw [hst0]; split_ifs <;> exact ⟨rfl, rfl, rfl, rfl⟩
  obtain ⟨row, col, hpos, heq⟩ := grf_loops_spec emulator data_offset in_cnt y x odd hg0 hp0
  obtain ⟨hblk, her, hec, hor, hoc⟩ := next_block_spec odd
    (show AtBlock g { st0 with row := row, col := col } from hg0) hlt
  have hstep : block_step emulator data_offset in_cnt y x odd st (g * 8) =
      (next_block odd { st0 with row := row, col := col }, (List.range 64).map
        (placed emulator data_offset in_cnt y x odd (if odd = 0 then pe else po) g)) := by
    rw [block_step]
    simp only [← hst0]
    rw [show vega20_pbi.num_grf = 8 from rfl, heq]
  rw [hstep]
  obtain ⟨hes₁, hes₂, hes₃, hes₄⟩ := hes
  refine ⟨rfl, hblk, ?_, ?_⟩
  · dsimp only
    rw [her, hec]
    split_ifs with h
    · simpa [h.2] using hpos
    · simpa only [hes₁, hes₂] using he
  · dsimp only
    rw [hor, hoc]
    split_ifs with h
    · simpa [h.2] using hpos
    · simpa only [hes₃, hes₄] using ho

/-- One in-tile: 512 blocks, after which the tile start of its parity has moved by 64. -/
theorem tile_step_spec {st : Counters} {pe po X : ℕ} (hg : AtBlock 0 st) (hs : Starts pe po st) :
    (tile_step emulator data_offset in_cnt y st (X * 8)).2 =
        (List.range 512).flatMap (fun g => (List.range 64).map
          (placed emulator data_offset in_cnt y (X * 8) (X % 2) (if X % 2 = 0 then pe else po) g)) ∧
      AtBlock 0 (tile_step emulator data_offset in_cnt y st (X * 8)).1 ∧
      Starts (if X % 2 = 0 then pe + 64 else pe) (if X % 2 = 0 then po else po + 64)
        (tile_step emulator data_offset in_cnt y st (X * 8)).1 := by
  have hodd : X * 8 / vega20_pbi.num_grf % 2 = X % 2 := by simp [vega20_pbi]
  have hrange : forRange ((out_tile_size : ℕ) : ℤ) vega20_pbi.num_grf = (List.range 512).map (· * 8) :=
    forRange_mul 512 (by decide)
  rw [tile_step, hodd, hrange, runLoop_map]
  let R : ℕ → Counters → Prop := fun g s => AtBlock (g % 512) s ∧
    Starts (if g = 512 ∧ X % 2 = 0 then pe + 64 else pe) (if g = 512 ∧ X % 2 ≠ 0 then po + 64 else po) s
  have hloop := runLoop_range (R := R) (n := 512) (s := st)
    (f := fun s g => block_step emulator data_offset in_cnt y (X * 8) (X % 2) s (g * 8))
    (o := fun g => (List.range 64).map
      (placed emulator data_offset in_cnt y (X * 8) (X % 2) (if X % 2 = 0 then pe else po) g))
    ⟨by simpa using hg, by simpa using hs⟩ (by
      rintro g hglt s ⟨hblk, hst⟩
      rw [Nat.mod_eq_of_lt hglt] at hblk
      have hne : ¬ g = 512 := by omega
      simp only [hne, false_and, if_false] at hst
      obtain ⟨hout, hblk', hst'⟩ := block_step_spec emulator data_offset in_cnt y (X * 8) (X % 2)
        hblk hglt hst
      refine ⟨⟨hblk', ?_⟩, hout⟩
      simpa only [show g + 1 = 512 ↔ g = 511 by omega] using hst')
  obtain ⟨⟨hblk, hst⟩, hout⟩ := hloop
  refine ⟨hout, hblk, ?_⟩
  simp only [true_and] at hst
  convert hst using 1
  split_ifs <;> first | rfl | omega

/-- One out-tile of `2k` in-tiles: both tile starts move by `64 * k`. -/
theorem x_loop_spec {st : Counters} {k : ℕ} (hg : AtBlock 0 st) (hs : Starts p p st) :
    (x_loop emulator data_offset ((2 * k * 8 : ℕ) : ℤ) st y).2 =
        (List.range (2 * k)).flatMap (fun X => (List.range 512).flatMap fun g =>
          (List.range 64).map (placed emulator data_offset ((2 * k * 8 : ℕ) : ℤ) y (X * 8) (X % 2)
            (p + 64 * (X / 2)) g)) ∧
      AtBlock 0 (x_loop emulator data_offset ((2 * k * 8 : ℕ) : ℤ) st y).1 ∧
      Starts (p + 64 * k) (p + 64 * k) (x_loop emulator data_offset ((2 * k * 8 : ℕ) : ℤ) st y).1 := by
  have hrange : forRange ((2 * k * 8 : ℕ) : ℤ) vega20_pbi.num_grf = (List.range (2 * k)).map (· * 8) :=
    forRange_mul (2 * k) (by decide)
  rw [x_loop, hrange, runLoop_map]
  -- even in-tiles have run once more than odd ones after an odd number of tiles
  obtain ⟨⟨hblk, hst⟩, hout⟩ := runLoop_range (n := 2 * k)
    (R := fun X s => AtBlock 0 s ∧ Starts (p + 64 * ((X + 1) / 2)) (p + 64 * (X / 2)) s)
    (o := fun X => (List.range 512).flatMap fun g => (List.range 64).map
      (placed emulator data_offset ((2 * k * 8 : ℕ) : ℤ) y (X * 8) (X % 2) (p + 64 * (X / 2)) g))
    (f := fun s X => tile_step emulator data_offset ((2 * k * 8 : ℕ) : ℤ) y s (X * 8))
    (s := st) ⟨hg, by simpa using hs⟩ (by
      rintro X _ s ⟨hblk, hst⟩
      obtain ⟨hout, hblk', hst'⟩ := tile_step_spec emulator data_offset
        ((2 * k * 8 : ℕ) : ℤ) y (X := X) hblk hst
      rcases Nat.mod_two_eq_zero_or_one X with h | h
      · rw [if_pos h, if_pos h, show p + 64 * ((X + 1) / 2) + 64 = p + 64 * ((X + 1 + 1) / 2) by omega,
          show p + 64 * (X / 2) = p + 64 * ((X + 1) / 2) by omega] at hst'
        refine ⟨⟨hblk', hst'⟩, ?_⟩
        rw [hout, if_pos h, show (X + 1) / 2 = X / 2 by omega]
      · have h0 : ¬ X % 2 = 0 := by omega
        rw [if_neg h0, if_neg h0, show p + 64 * ((X + 1) / 2) = p + 64 * ((X + 1 + 1) / 2) by omega,
          show p + 64 * (X / 2) + 64 = p + 64 * ((X + 1) / 2) by omega] at hst'
        refine ⟨⟨hblk', hst'⟩, ?_⟩
        rw [hout, if_neg h0])
  refine ⟨hout, hblk, ?_⟩
  rwa [show (2 * k + 1) / 2 = k by omega, show 2 * k / 2 = k by omega] at hst

/-- One matrix of `Y` out-tiles. -/
theorem y_loop_spec (k Y : ℕ) :
    (runLoop (x_loop emulator data_offset ((2 * k * 8 : ℕ) : ℤ)) {}
        (forRange ((Y * 4096 : ℕ) : ℤ) out_tile_size)).2 =
      (List.range Y).flatMap fun y => (List.range (2 * k)).flatMap fun X =>
        (List.range 512).flatMap fun g => (List.range 64).map
          (placed emulator data_offset ((2 * k * 8 : ℕ) : ℤ) (y * 4096) (X * 8) (X % 2)
            (64 * (k * y) + 64 * (X / 2)) g) := by
  have hrange : forRange ((Y * 4096 : ℕ) : ℤ) out_tile_size = (List.range Y).map (· * 4096) :=
    forRange_mul Y (by decide)
  rw [hrange, runLoop_map]
  refine (runLoop_range (n := Y) (R := fun y s => AtBlock 0 s ∧ Starts (64 * (k * y)) (64 * (k * y)) s)
    ⟨⟨rfl, rfl, rfl, rfl⟩, ⟨by simp, by simp, rfl⟩, ⟨by simp, by simp, rfl⟩⟩ ?_).2
  rintro y _ s ⟨hblk, hst⟩
  obtain ⟨hout, hblk', hst'⟩ := x_loop_spec emulator data_offset (y * 4096) (k := k) hblk hst
  exact ⟨⟨hblk', by simpa only [Nat.mul_add, Nat.mul_one] using hst'⟩, hout⟩

end Loops

/-- The outer loop hands matrix `m` the offset `m * stride`, as an `int`. -/
theorem iter_loop_spec (matrix : ℤ → List Copy) (iter stride : ℕ) :
    iter_loop matrix iter stride =
      (List.range iter).flatMap fun m => matrix (int32 ((m * stride : ℕ) : ℤ)) := by
  have h0 : (0 : ℤ) = int32 ((0 * stride : ℕ) : ℤ) := by
    rw [Nat.zero_mul, int32_natCast (by norm_num), Nat.cast_zero]
  rw [iter_loop, Int.toNat_natCast]
  refine (runLoop_range (n := iter)
    (R := fun m data_offset => data_offset = int32 ((m * stride : ℕ) : ℤ)) h0 ?_).2
  intro m _ s hs
  have hs : s = int32 ((m * stride : ℕ) : ℤ) := hs
  have hnext : int32 (s + stride) = int32 (((m + 1) * stride : ℕ) : ℤ) := by
    rw [hs, int32_add_int32']; push_cast; ring_nf
  exact ⟨hnext, by rw [hs]⟩

section Sources

attribute [local irreducible] int32

/-- Whatever the counters and the counts are, a copy reads a wrapped index past its matrix's offset. -/
theorem copy_step_src {emulator : Bool} {data_offset in_cnt : ℤ} {y x odd tiled_y grfb_idx grfa_idx : ℕ}
    {st : Counters} :
    ∀ c ∈ (copy_step emulator data_offset in_cnt y x odd tiled_y grfb_idx st grfa_idx).2,
      ∃ x, c.src = data_offset + int32 x := by
  intro c hc
  rw [copy_step, List.mem_singleton] at hc
  exact ⟨_, by rw [hc]⟩

theorem x_loop_src {emulator : Bool} {data_offset in_cnt : ℤ} {st : Counters} {y : ℕ} :
    ∀ c ∈ (x_loop emulator data_offset in_cnt st y).2, ∃ x, c.src = data_offset + int32 x := by
  have hblock : ∀ x odd st tiled_y, ∀ c ∈ (block_step emulator data_offset in_cnt y x odd st tiled_y).2,
      ∃ x, c.src = data_offset + int32 x := by
    intro x odd st tiled_y c hc
    simp only [block_step] at hc
    refine forall_mem_runLoop (P := fun c : Copy => ∃ x, c.src = data_offset + int32 x) ?_ c hc
    intro st grfb_idx
    exact forall_mem_runLoop fun st grfa_idx => copy_step_src
  intro c hc
  rw [x_loop] at hc
  refine forall_mem_runLoop (P := fun c : Copy => ∃ x, c.src = data_offset + int32 x) ?_ c hc
  intro st x c hc
  rw [tile_step] at hc
  exact forall_mem_runLoop (P := fun c : Copy => ∃ x, c.src = data_offset + int32 x)
    (fun st tiled_y => hblock _ _ st tiled_y) c hc

/-- A copy of the outer loop is one of some matrix's copies. -/
theorem mem_iter_loop {matrix : ℤ → List Copy} {iter_cnt : ℤ} {stride : ℕ} {c : Copy}
    (hc : c ∈ iter_loop matrix iter_cnt stride) :
    ∃ m : ℕ, m < iter_cnt.toNat ∧ c ∈ matrix (int32 ((m * stride : ℕ) : ℤ)) := by
  have h : iter_loop matrix iter_cnt stride = iter_loop matrix (iter_cnt.toNat : ℤ) stride := by
    rw [iter_loop, iter_loop, Int.toNat_natCast]
  rw [h, iter_loop_spec] at hc
  obtain ⟨m, hm, hmem⟩ := List.mem_flatMap.mp hc
  exact ⟨m, List.mem_range.mp hm, hmem⟩

/-- A copy never reads at `2^32` or beyond, and that of a single matrix not at `2^31` or beyond. -/
theorem iter_loop_src_lt {matrix : ℤ → List Copy} {iter_cnt : ℤ} {stride : ℕ} {c : Copy}
    (hmatrix : ∀ data_offset, ∀ c ∈ matrix data_offset, ∃ x, c.src = data_offset + int32 x)
    (hc : c ∈ iter_loop matrix iter_cnt stride) : c.src < 2 ^ 32 ∧ (iter_cnt ≤ 1 → c.src < 2 ^ 31) := by
  obtain ⟨m, hm, hmem⟩ := mem_iter_loop hc
  obtain ⟨x, hx⟩ := hmatrix _ c hmem
  have hx_lt := int32_lt x
  refine ⟨?_, fun hone => ?_⟩
  · have hm_lt := int32_lt ((m * stride : ℕ) : ℤ)
    rw [hx]
    linarith
  · have hm0 : m = 0 := by omega
    rw [hx, hm0, Nat.zero_mul, int32_natCast (by norm_num), Nat.cast_zero, zero_add]
    exact hx_lt

theorem aligned_loops_src_lt {emulator : Bool} {in_cnt out_cnt iter_cnt : ℤ} {stride : ℕ} {c : Copy}
    (hc : c ∈ iter_loop (fun data_offset =>
      (runLoop (x_loop emulator data_offset in_cnt) {} (forRange out_cnt out_tile_size)).2) iter_cnt
        stride) :
    c.src < 2 ^ 32 ∧ (iter_cnt ≤ 1 → c.src < 2 ^ 31) :=
  iter_loop_src_lt (fun _ => forall_mem_runLoop fun _ _ => x_loop_src) hc

theorem convert_aligned_src_lt {emulator : Bool} {s : PimBShape} {copies : List Copy}
    (h : convert_data_layout_for_aligned_gemm_weight emulator .I_X_W (PimCreateBo s) = .ok copies)
    {c : Copy} (hc : c ∈ copies) :
    c.src < 2 ^ 32 ∧ (int32 ((s.n * s.c).toNat : ℤ) ≤ 1 → c.src < 2 ^ 31) := by
  have heq : convert_data_layout_for_aligned_gemm_weight emulator .I_X_W (PimCreateBo s) =
      .ok (iter_loop (fun data_offset => (runLoop (x_loop emulator data_offset
          (int32 (s.h * type_size (PimCreateBo s) / 32).toNat)) {}
          (forRange (int32 s.w.toNat) out_tile_size)).2)
        (int32 (s.n * s.c).toNat) ((s.h * s.w).toNat * 2)) := by
    rw [convert_data_layout_for_aligned_gemm_weight]
    exact if_neg (by simp [PimCreateBo])
  rw [heq] at h
  rw [← Except.ok.inj h] at hc
  exact aligned_loops_src_lt hc

theorem convert_chwise_src_lt {emulator : Bool} {order : PimGemmOrder} {s : PimBShape} {c : Copy}
    (hc : c ∈ convert_data_layout_for_chwise_gemm_weight emulator order (PimCreateBo s)) :
    c.src < 2 ^ 32 ∧ ((chwise_counts order (PimCreateBo s)).1 ≤ 1 → c.src < 2 ^ 31) := by
  rw [convert_data_layout_for_chwise_gemm_weight] at hc
  exact iter_loop_src_lt (fun data_offset => x_loop_src) hc

end Sources

/-! ### One loop over all transactions -/

/-- Copy number `q` of a conversion with `2k` in-tiles and `Y` out-tiles a matrix. -/
def copyAt (emulator : Bool) (k Y stride q : ℕ) : Copy :=
  let T := q / 32768
  let y := T / (2 * k) % Y
  let X := T % (2 * k)
  placed emulator (int32 ((T / (2 * k) / Y * stride : ℕ) : ℤ)) ((2 * k * 8 : ℕ) : ℤ) (y * 4096) (X * 8)
    (X % 2) (64 * (k * y) + 64 * (X / 2)) (q / 64 % 512) (q % 64)

/-- The whole nest is one loop whose index has the loop counters as digits. -/
theorem matrices_flatten (emulator : Bool) (iter k Y stride : ℕ) :
    ((List.range iter).flatMap fun m => (List.range Y).flatMap fun y =>
      (List.range (2 * k)).flatMap fun X => (List.range 512).flatMap fun g => (List.range 64).map
        (placed emulator (int32 ((m * stride : ℕ) : ℤ)) ((2 * k * 8 : ℕ) : ℤ) (y * 4096) (X * 8) (X % 2)
          (64 * (k * y) + 64 * (X / 2)) g)) =
      (List.range (iter * Y * (2 * k) * 32768)).map (copyAt emulator k Y stride) := by
  simp only [flatMap_range_map]
  have hlen : iter * (Y * (2 * k * (512 * 64))) = iter * Y * (2 * k) * 32768 := by ring
  rw [hlen]
  refine List.map_congr_left fun q _ => ?_
  have hm : q / (Y * (2 * k * (512 * 64))) = q / 32768 / (2 * k) / Y := by
    rw [Nat.div_div_eq_div_mul, Nat.div_div_eq_div_mul]; congr 1; ring
  have hy : q % (Y * (2 * k * (512 * 64))) / (2 * k * (512 * 64)) = q / 32768 / (2 * k) % Y := by
    rw [Nat.mod_mul_left_div_self, Nat.mul_comm (2 * k), ← Nat.div_div_eq_div_mul]
  have hX : q % (Y * (2 * k * (512 * 64))) % (2 * k * (512 * 64)) / (512 * 64) =
      q / 32768 % (2 * k) := by
    rw [Nat.mod_mul_left_mod, Nat.mod_mul_left_div_self]
  have hlow : q % (Y * (2 * k * (512 * 64))) % (2 * k * (512 * 64)) % (512 * 64) = q % 32768 := by
    rw [Nat.mod_mul_left_mod, ← Nat.mul_assoc, Nat.mod_mul_left_mod]
  rw [hm, hy, hX, hlow, show q % 32768 / 64 = q / 64 % 512 by omega, show q % 32768 % 64 =
    q % 64 by omega]
  rfl

end PimLibrary.Layout
