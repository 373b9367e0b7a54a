import PimLibrary.Device.AddrMap
import PimLibrary.Schemes.Loop

/-! The host loops of `convert_data_layout_for_aligned_gemm_weight` and
    `convert_data_layout_for_chwise_gemm_weight`.

    Both walk the `[out][in]` weight tile by tile and copy 32-byte transactions to the addresses a set
    of running counters points at: `cidx`, `bg` and `bank` roll over once per tile, the row and column
    once per 32 transactions, and the even and odd in-tiles keep a starting row and column each. The
    HIP and the OpenCL memory manager run the same loops. -/

namespace PimLibrary.Layout
open Schemes.Word Schemes.Loop Schemes.Digits PimLibrary.Device

/-- One `hipMemcpy` of `trans_size` bytes, as byte offsets into the two buffers. -/
structure Copy where
  dst : ℤ
  src : ℤ
  deriving DecidableEq, Repr

/-- The counters of the loop nest. -/
structure Counters where
  cidx : ℕ := 0
  rank : ℕ := 0
  bg : ℕ := 0
  bank : ℕ := 0
  col : ℕ := 0
  row : ℕ := 0
  even_s_row : ℕ := 0
  even_s_col : ℕ := 0
  odd_s_row : ℕ := 0
  odd_s_col : ℕ := 0
  deriving DecidableEq, Repr

section Loops

variable (emulator : Bool) (data_offset in_cnt : ℤ) (y x : ℕ)

/-- The index of the source transaction; `EMULATOR` swaps the two register-file indices. -/
def d_idx (tiled_y grfb_idx grfa_idx : ℕ) : ℤ :=
  if emulator then int32 ((y + tiled_y + grfa_idx) * in_cnt + x + grfb_idx)
  else int32 ((y + tiled_y + grfb_idx) * in_cnt + x + grfa_idx)

/-- The body of the two `grf` loops: one copy, then `col++`. -/
def copy_step (odd tiled_y grfb_idx : ℕ) (st : Counters) (grfa_idx : ℕ) : Counters × List Copy :=
  let (addr, row, col) := addr_gen_safe st.cidx st.rank st.bg (st.bank + odd) st.row st.col
  ({ st with row := row, col := uint32 (col + 1) },
    [{ dst := data_offset + addr
       src := data_offset + int32 (d_idx emulator in_cnt y x tiled_y grfb_idx grfa_idx
         * vega20_pbi.trans_size) }])

/-- The counters after one block of `num_grf_A * num_grf_B` transactions. -/
def next_block (odd : ℕ) (st : Counters) : Counters :=
  let pbi := vega20_pbi
  let st := { st with bank := st.bank + pbi.num_banks / pbi.num_pim_blocks }
  let st := if st.bank ≥ pbi.num_banks / pbi.num_bank_groups then
    { st with bg := st.bg + 1, bank := 0 } else st
  let st := if st.bg ≥ pbi.num_bank_groups then { st with bg := 0, rank := st.rank + 1 } else st
  let st := if st.rank ≥ pbi.num_pim_rank then { st with rank := 0, cidx := st.cidx + 1 } else st
  if st.cidx ≥ pbi.num_pim_chan then
    if odd = 0 then { st with cidx := 0, even_s_row := st.row, even_s_col := st.col }
    else { st with cidx := 0, odd_s_row := st.row, odd_s_col := st.col }
  else st

/-- One block: restart at the parity's row and column, run the `grf` loops, roll the counters. -/
def block_step (odd : ℕ) (st : Counters) (tiled_y : ℕ) : Counters × List Copy :=
  let st := if odd = 0 then { st with col := st.even_s_col, row := st.even_s_row }
    else { st with col := st.odd_s_col, row := st.odd_s_row }
  let r := runLoop (fun st grfb_idx =>
      runLoop (copy_step emulator data_offset in_cnt y x odd tiled_y grfb_idx) st
        (List.range vega20_pbi.num_grf)) st (List.range vega20_pbi.num_grf)
  (next_block odd r.1, r.2)

/-- `num_grf_B * num_pim_blocks * num_pim_chan * num_pim_rank`. -/
def out_tile_size : ℕ :=
  vega20_pbi.num_grf * vega20_pbi.num_pim_blocks * vega20_pbi.num_pim_chan * vega20_pbi.num_pim_rank

/-- One in-tile: the even or the odd copy of the `tiled_y` loop. -/
def tile_step (st : Counters) (x : ℕ) : Counters × List Copy :=
  runLoop (block_step emulator data_offset in_cnt y x (x / vega20_pbi.num_grf % 2)) st
    (forRange out_tile_size vega20_pbi.num_grf)

/-- The `x` loop over the in-tiles of one out-tile. -/
def x_loop (st : Counters) (y : ℕ) : Counters × List Copy :=
  runLoop (tile_step emulator data_offset in_cnt y) st (forRange in_cnt vega20_pbi.num_grf)

end Loops

/-- The outer loop: fresh counters for every iteration, `data_offset` advanced as an `int`. -/
def iter_loop (matrix : ℤ → List Copy) (iter_cnt : ℤ) (stride : ℕ) : List Copy :=
  (runLoop (fun (data_offset : ℤ) (_ : ℕ) =>
      (int32 (data_offset + stride), matrix data_offset)) 0 (List.range iter_cnt.toNat)).2

/-- The copies of the aligned conversion loop. A padded weight first goes through a temporary
    buffer and a `hipMemcpy` to the still null `src_data`, which fails. -/
def convert_data_layout_for_aligned_gemm_weight (emulator : Bool) (gemm_order : PimGemmOrder)
    (src : PimBo) : Except ℤ (List Copy) :=
  let iter_cnt := int32 (src.bshape.n * src.bshape.c).toNat
  let (out_cnt, in_cnt) := match gemm_order with
    | .I_X_W => (int32 src.bshape.w.toNat, int32 (src.bshape.h * type_size src / 32).toNat)
    | .W_X_I => (int32 src.bshape.h.toNat, int32 (src.bshape.w * type_size src / 32).toNat)
  if src.bshape.w ≠ src.bshape_r.w ∨ src.bshape.h ≠ src.bshape_r.h then .error (-1)
  else .ok (iter_loop (fun data_offset =>
      (runLoop (x_loop emulator data_offset in_cnt) {} (forRange out_cnt out_tile_size)).2)
    iter_cnt ((src.bshape.h * src.bshape.w).toNat * 2))

/-- `iter_cnt` and `in_cnt` of the channel-wise conversion. -/
def chwise_counts (gemm_order : PimGemmOrder) (src : PimBo) : ℤ × ℤ :=
  match gemm_order with
  | .I_X_W => (int32 (src.bshape.n * src.bshape.c * src.bshape.w / 4096).toNat,
      int32 (src.bshape.h * type_size src / 32).toNat)
  | .W_X_I => (int32 (src.bshape.n * src.bshape.c * src.bshape.h / 4096).toNat,
      int32 (src.bshape.w * type_size src / 32).toNat)

/-- The copies of the channel-wise conversion loop: one 4096-row tile per iteration. -/
def convert_data_layout_for_chwise_gemm_weight (emulator : Bool) (gemm_order : PimGemmOrder)
    (src : PimBo) : List Copy :=
  let (iter_cnt, in_cnt) := chwise_counts gemm_order src
  iter_loop (fun data_offset => (x_loop emulator data_offset in_cnt {} 0).2)
    iter_cnt ((src.bshape.h * 4096).toNat * 2)

end PimLibrary.Layout
