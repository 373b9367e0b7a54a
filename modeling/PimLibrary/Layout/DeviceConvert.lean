import PimLibrary.Layout.HostConvert
import PimLibrary.Schemes.Scatter

/-! Reordering a weight on the device, and the host pipeline it replaces.

    On the device every thread writes elements of the untransposed `[h][w]` weight straight to the
    index a closed formula gives. On the host the weight is transposed to `[w][h]` and then copied by
    the conversion loops. A memory is a function of the element offset, and a kernel is the list of the
    writes its threads issue; any order of them is a possible schedule. -/

namespace PimLibrary.Layout
open Schemes.Word Schemes.Loop Schemes.Scatter PimLibrary.Device

/-- The bits of a `half_float::half`. -/
abbrev Half : Type := UInt16

/-- The elements of a buffer, by element offset. -/
abbrev Mem : Type := ℤ → Half

/-! ### Index formulas -/

section Index

variable (emulator : Bool)

/-- `sizeof(half_float::half)`, the `type_size` both kernels pass. -/
abbrev type_size_half : ℕ := 2

/-- The end of both index functions: from the in-tile, the place of the element in it and
    `prev_el_count` to the element index. -/
def idx_of_prev_el_count (n_c_offset x_tile grfb_idx grfa_idx prev_el_count h_cord : ℕ) : ℕ :=
  let pbi := vega20_pbi
  let col_s := uint32 (prev_el_count / (pbi.num_grf_A * pbi.num_grf_B) /
    (pbi.num_banks * pbi.num_pim_chan * pbi.num_pim_rank))
  let row_s := uint32 (col_s * pbi.num_grf_A * pbi.num_grf_B) / (pbi.num_col / pbi.bl)
  let col_s := uint32 (col_s * pbi.num_grf_A * pbi.num_grf_B) % (pbi.num_col / pbi.bl)
  let col := uint32 (col_s + grfb_idx * pbi.num_grf_A + grfa_idx)
  let row := uint32 (row_s + col / (pbi.num_col / pbi.bl))
  let col := col % (pbi.num_col / pbi.bl)
  let prev_el_count_after_s := prev_el_count %
    (pbi.num_grf_A * pbi.num_grf_B * (pbi.num_banks / 2) * pbi.num_pim_chan * pbi.num_pim_rank)
  let prev_grf_count_after_s := prev_el_count_after_s / (pbi.num_grf_A * pbi.num_grf_B)
  let cidx := prev_grf_count_after_s / (pbi.num_banks / 2 * pbi.num_pim_rank)
  let prev_grf_count_after_s := prev_grf_count_after_s % (pbi.num_banks / 2 * pbi.num_pim_rank)
  let rank := prev_grf_count_after_s / (pbi.num_banks / 2)
  let prev_grf_count_after_s := prev_grf_count_after_s % (pbi.num_banks / 2)
  let bg := prev_grf_count_after_s / (pbi.num_banks / 2 / pbi.num_bank_groups)
  let is_odd := x_tile % 2
  let bank := prev_grf_count_after_s % (pbi.num_banks / 2 / pbi.num_bank_groups) * 2 + is_odd
  uint64 (n_c_offset + addr_gen cidx rank bg bank row col + h_cord * type_size_half % pbi.trans_size)
    / type_size_half

def convert_idx_from_raw_to_aligned_gemm_weight_layout (_n c h w n_cord c_cord h_cord w_cord : ℕ) : ℕ :=
  let pbi := vega20_pbi
  let in_cnt := uint32 (h * type_size_half / pbi.trans_size)
  let in_tile_size := pbi.num_grf_A
  let out_tile_size := pbi.num_grf_B * pbi.num_pim_blocks * pbi.num_pim_chan * pbi.num_pim_rank
  let n_c_offset := uint32 ((n_cord * c + c_cord) * h * w) * type_size_half
  let y_tile := w_cord / out_tile_size
  let x_tile := h_cord * type_size_half / pbi.trans_size / in_tile_size
  let y_tile_offset := w_cord % out_tile_size
  let y_tile_data_size := uint32 (out_tile_size * in_cnt * in_tile_size)
  let x_tile_data_size := out_tile_size * in_tile_size
  let (grfb_idx, grfa_idx) :=
    if emulator then (h_cord * type_size_half / pbi.trans_size % in_tile_size,
      y_tile_offset % pbi.num_grf_B)
    else (y_tile_offset % pbi.num_grf_B, h_cord * type_size_half / pbi.trans_size % in_tile_size)
  let y_block_idx := y_tile_offset / pbi.num_grf_B
  let prev_el_count := uint32 (y_tile * y_tile_data_size + x_tile * x_tile_data_size
    + y_block_idx * pbi.num_grf_B * pbi.num_grf_A + grfb_idx * pbi.num_grf_A + grfa_idx)
  idx_of_prev_el_count n_c_offset x_tile grfb_idx grfa_idx prev_el_count h_cord

def convert_idx_from_raw_to_chwise_gemm_weight_layout (_n c h w n_cord c_cord h_cord w_cord : ℕ) : ℕ :=
  let pbi := vega20_pbi
  let in_tile_size := pbi.num_grf_A
  let out_tile_size := PIM_GEMV_OUT_ALIGN
  let x_tile := h_cord * type_size_half / pbi.trans_size / in_tile_size
  let y_tile_offset := uint32 (n_cord * c * w + c_cord * w + w_cord) % out_tile_size
  let n_c_offset := uint32 (uint32 (n_cord * c * w + c_cord * w + w_cord) / out_tile_size
    * out_tile_size * h * 2)
  let x_tile_data_size := out_tile_size * in_tile_size
  let (grfb_idx, grfa_idx) :=
    if emulator then (h_cord * type_size_half / pbi.trans_size % in_tile_size,
      y_tile_offset % pbi.num_grf_B)
    else (y_tile_offset % pbi.num_grf_B, h_cord * type_size_half / pbi.trans_size % in_tile_size)
  let y_block_idx := y_tile_offset / pbi.num_grf_B
  let prev_el_count := uint32 (x_tile * x_tile_data_size
    + y_block_idx * pbi.num_grf_B * pbi.num_grf_A + grfb_idx * pbi.num_grf_A + grfa_idx)
  idx_of_prev_el_count n_c_offset x_tile grfb_idx grfa_idx prev_el_count h_cord

end Index

/-! ### Kernels -/

/-- `dim3`. -/
structure Dim3 where
  x : ℕ
  y : ℕ

/-- The writes of all threads of a fill kernel with the given index function. -/
def fill_gemm_weight (idx : ℕ → ℕ → ℕ → ℕ → ℕ → ℕ → ℕ → ℕ → ℕ) (gridDim blockDim : Dim3) (n c h w : ℤ)
    (src : Mem) : List (ℤ × Half) :=
  (List.range gridDim.x).flatMap fun blockIdx_x => (List.range gridDim.y).flatMap fun blockIdx_y =>
  (List.range blockDim.x).flatMap fun threadIdx_x => (List.range blockDim.y).flatMap fun threadIdx_y =>
    (forFrom blockIdx_x n gridDim.x).flatMap fun i => (forFrom blockIdx_y c gridDim.y).flatMap fun j =>
    (forFrom threadIdx_x h blockDim.x).flatMap fun k => (forFrom threadIdx_y w blockDim.y).map fun l =>
      (((idx (toUint32 n) (toUint32 c) (toUint32 h) (toUint32 w) i j k l : ℕ) : ℤ),
        src (int32 (i * c * h * w + j * h * w + k * w + l)))

def fill_gemm_weight_chwise (emulator : Bool) :=
  fill_gemm_weight (convert_idx_from_raw_to_chwise_gemm_weight_layout emulator)

def fill_gemm_weight_aligned (emulator : Bool) :=
  fill_gemm_weight (convert_idx_from_raw_to_aligned_gemm_weight_layout emulator)

/-- The launch an `on_device` branch makes, over the real shape. -/
def launch (threads : Dim3) (kernel : Dim3 → Dim3 → ℤ → ℤ → ℤ → ℤ → Mem → List (ℤ × Half)) (src : PimBo)
    (data : Mem) : List (ℤ × Half) :=
  kernel ⟨src.bshape_r.n.toNat, src.bshape_r.c.toNat⟩ threads (int32 src.bshape_r.n.toNat)
    (int32 src.bshape_r.c.toNat) (int32 src.bshape_r.h.toNat) (int32 src.bshape_r.w.toNat) data

/-- The launch of the channel-wise conversion: squares of 32 by 32 threads. -/
def launch_chwise (emulator : Bool) : PimBo → Mem → List (ℤ × Half) :=
  launch ⟨32, 32⟩ (fill_gemm_weight_chwise emulator)

/-- The launch of the aligned conversion: one row of 1024 threads. -/
def launch_aligned (emulator : Bool) : PimBo → Mem → List (ℤ × Half) :=
  launch ⟨1, 1024⟩ (fill_gemm_weight_aligned emulator)

/-! ### The host pipeline -/

/-- One matrix of `transpose_pimbo`; `offset` is how far `in` and `out` have moved. -/
def transpose_step (data : Mem) (row col offset : ℤ) (_ : ℕ) : ℤ × List (ℤ × Half) :=
  (offset + int32 (row * col),
    (forRange row 1).flatMap fun (ri : ℕ) => (forRange col 1).map fun (ci : ℕ) =>
      (offset + int32 (ci * row + ri), data (offset + int32 (ri * col + ci))))

def transpose_loop (data : Mem) (row col iter_cnt : ℤ) : List (ℤ × Half) :=
  (runLoop (transpose_step data row col) 0 (forRange iter_cnt 1)).2

/-- The element writes of `transpose_pimbo`. -/
def transpose_pimbo (src : PimBo) (data : Mem) : List (ℤ × Half) :=
  transpose_loop data (int32 src.bshape.h.toNat) (int32 src.bshape.w.toNat)
    (int32 (int32 src.bshape.n.toNat * int32 src.bshape.c.toNat))

/-- The element writes of one `trans_size`-byte copy. -/
def copy_halves (data : Mem) (cp : Copy) : List (ℤ × Half) :=
  (List.range 16).map fun (e : ℕ) => (cp.dst / 2 + e, data (cp.src / 2 + e))

/-- Transposing an untransposed `I_X_W` weight into `host_weight` and running a conversion from it
    into `host_reordered_weight`; both buffers start with arbitrary contents. -/
def reorder_on_host (copies : List Copy) (src : PimBo) (data host_weight host_reordered_weight : Mem) :
    Mem :=
  scatter host_reordered_weight
    (copies.flatMap (copy_halves (scatter host_weight (transpose_pimbo src data))))

/-- Whatever the schedule and whatever the buffers held, the device leaves the same elements as the
    host pipeline. -/
def SameBuffer (copies : List Copy) (writes : Mem → List (ℤ × Half)) (src : PimBo) : Prop :=
  ∀ (data dst host_weight host_reordered_weight : Mem) (schedule : List (ℤ × Half)),
    schedule.Perm (writes data) → ∀ e : ℕ, e < byteSize src.bshape / 2 →
      scatter dst schedule e = reorder_on_host copies src data host_weight host_reordered_weight e

end PimLibrary.Layout
