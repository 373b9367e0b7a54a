import PimLibrary.Kernel.Sessions
import PimLibrary.Schemes.Loop

/-! The element-wise, RELU, COPY and batch-normalisation kernels.

    They share a frame: all 32 threads park in, two threads switch to HAB mode, load the program and
    switch to HAB_PIM mode, 16 threads walk the tiles, four threads switch back, and all park out. Each
    tile accesses an even-bank row and the odd-bank row `0x2000` bytes above it. -/

namespace PimLibrary.Kernel
open Schemes.Word Schemes.Loop PimLibrary.Device

section Tile

variable (ch tile_idx : ℕ)

def addr_even (t : ℕ) : ℤ :=
  let loc := uint32 (tile_idx * 8 + gidx t)
  addr_gen ch 0 0 0 (loc / 32) (loc % 32)

def addr_odd (t : ℕ) : ℤ := addr_even ch tile_idx t + 0x2000

/-- One round of `elt_op_pim`'s loop. -/
def elt_op_tile : List Stmt :=
  [R_CMD 16 .operand0 (addr_even ch tile_idx), B_CMD 16 1,
    R_CMD 16 .operand1 (addr_even ch tile_idx), B_CMD 16 1,
    W_CMD 16 .output (addr_even ch tile_idx), W_CMD 16 .output (addr_even ch tile_idx),
    R_CMD 16 .output (addr_even ch tile_idx), B_CMD 16 1,
    R_CMD 16 .operand0 (addr_odd ch tile_idx), B_CMD 16 1,
    R_CMD 16 .operand1 (addr_odd ch tile_idx), B_CMD 16 1,
    W_CMD 16 .output (addr_odd ch tile_idx), W_CMD 16 .output (addr_odd ch tile_idx),
    R_CMD 16 .output (addr_odd ch tile_idx), B_CMD 16 1]

/-- One round of the loop of `relu_pim` and of `copy_pim`. -/
def move_tile : List Stmt :=
  [R_CMD 16 .pim_data (addr_even ch tile_idx), B_CMD 16 1,
    W_CMD 16 .output (addr_even ch tile_idx), R_CMD 16 .output (addr_even ch tile_idx), B_CMD 16 1,
    R_CMD 16 .pim_data (addr_odd ch tile_idx), B_CMD 16 1,
    W_CMD 16 .output (addr_odd ch tile_idx), R_CMD 16 .output (addr_odd ch tile_idx), B_CMD 16 1]

/-- One round of `bn_pim_nr_sip`'s loop. -/
def bn_tile : List Stmt :=
  [R_CMD 16 .pim_data (addr_even ch tile_idx), B_CMD 16 1,
    R_CMD 16 .pim_data (addr_even ch tile_idx), B_CMD 16 1,
    R_CMD 16 .pim_data (addr_even ch tile_idx), B_CMD 16 1,
    R_CMD 16 .pim_data (addr_even ch tile_idx), B_CMD 16 1,
    R_CMD 16 .pim_data (addr_odd ch tile_idx), B_CMD 16 1,
    R_CMD 16 .pim_data (addr_odd ch tile_idx), B_CMD 16 1,
    R_CMD 16 .pim_data (addr_odd ch tile_idx), B_CMD 16 1,
    W_CMD 16 .output (addr_even ch tile_idx), B_CMD 16 1,
    W_CMD 16 .output (addr_odd ch tile_idx), R_CMD 16 .output (addr_odd ch tile_idx), B_CMD 16 1]

end Tile

/-- The tail that switches back and parks out. -/
def leave_pim (ch : ℕ) : List Stmt := change_habpim_hab ch 4 ++ change_hab_sb ch 4 ++ park_out ch 32

/-- The frame of the kernels that load their program before HAB_PIM mode. -/
def crf_kernel (tile : ℕ → ℕ → List Stmt) (num_tile : ℤ) (ch : ℕ) : List Stmt :=
  park_in ch 32 ++ (change_sb_hab ch 2 ++ program_crf ch 2 ++ change_hab_habpim ch 2 ++ [B_CMD 2 1]) ++
    (forRange num_tile 1).flatMap (tile ch) ++ leave_pim ch

def elt_op_pim (num_tile : ℤ) (ch : ℕ) : List Stmt := crf_kernel elt_op_tile num_tile ch

/-- The tile count that `relu_pim` and `copy_pim` derive from the byte size. -/
def size_tiles (size : ℤ) : ℤ :=
  let out_dim := size.tdiv 32
  (out_dim.tdiv (8 * 64 * 8)).tdiv 2

def relu_pim (size : ℤ) (ch : ℕ) : List Stmt := crf_kernel move_tile (size_tiles size) ch

def copy_pim (size : ℤ) (ch : ℕ) : List Stmt := crf_kernel move_tile (size_tiles size) ch

/-- This one loads scalar registers first and the program after the switch to HAB_PIM mode. -/
def bn_pim_nr_sip (num_tile : ℤ) (crf_size : ℕ) (ch : ℕ) : List Stmt :=
  park_in ch 32 ++ (change_sb_hab ch 2 ++ program_srf ch 2 ++ change_hab_habpim ch 2 ++ [B_CMD 2 1]) ++
    program_crf_mod ch (crf_size >>> 4) ++ (forRange num_tile 1).flatMap (bn_tile ch) ++ leave_pim ch

/-! ### Sessions -/

theorem silent_elt_op_tile (ch i : ℕ) : Silent (elt_op_tile ch i) := by simp [elt_op_tile]

theorem silent_move_tile (ch i : ℕ) : Silent (move_tile ch i) := by simp [move_tile]

theorem silent_bn_tile (ch i : ℕ) : Silent (bn_tile ch i) := by simp [bn_tile]

/-- Around silent tiles the frame makes one session; what stands before the tiles adds nothing to it
    when it only touches the control row. -/
theorem sessions_of_tiles {pre program tiles : List Stmt} (ch : ℕ) (hpre : Silent pre)
    (hprogram : Silent program) (hidle : dataColumns program = []) (htiles : Silent tiles) :
    habPimSessions none (columns (pre ++ (change_hab_habpim ch 2 ++ [B_CMD 2 1]) ++ program ++ tiles ++
      leave_pim ch)) = [dataColumns tiles] := by
  have hbody : Silent ([R_CMD 2 .pim_ctr fun _ => addr_gen ch 0 0 0 0x3fff 0x0, B_CMD 2 1] ++
      program ++ tiles) := by
    simp [hprogram, htiles]
  have hrest : Silent ([R_CMD 4 .pim_ctr fun _ => addr_gen ch 0 0 0 0x3fff 0x0, B_CMD 4 1] ++
      change_hab_sb ch 4 ++ park_out ch 32) := by
    simp
  have hdata : dataColumns ([R_CMD 2 .pim_ctr fun _ => addr_gen ch 0 0 0 0x3fff 0x0, B_CMD 2 1] ++
    program ++
      tiles) = dataColumns tiles := by
    rw [dataColumns_append, dataColumns_append, hidle, dataColumns_cons,
      (idle_control ch 0 2 fun _ => 0).dataColumns, (idle_B_CMD 2 1).dataColumns]
    rfl
  have hshape : pre ++ (change_hab_habpim ch 2 ++ [B_CMD 2 1]) ++ program ++ tiles ++ leave_pim ch =
      pre ++ ((W_CMD_R 2 .pim_ctr (fun _ => addr_gen ch 0 0 0 0x3fff 0x0) fun _ => .hab_to_hab_pim) ::
        (([R_CMD 2 .pim_ctr fun _ => addr_gen ch 0 0 0 0x3fff 0x0, B_CMD 2 1] ++ program ++ tiles) ++
          [W_CMD_R 4 .pim_ctr (fun _ => addr_gen ch 0 0 0 0x3fff 0x0) fun _ => .hab_pim_to_hab]) ++
        ([R_CMD 4 .pim_ctr fun _ => addr_gen ch 0 0 0 0x3fff 0x0, B_CMD 4 1] ++ change_hab_sb ch 4 ++
          park_out ch 32)) := by
    simp [change_hab_habpim, leave_pim, change_habpim_hab]
  rw [hshape, columns_append, columns_append, habPimSessions_silent hpre,
    habPimSessions_stmts (switches_hab_habpim ch (by norm_num)) hbody
      (switches_habpim_hab ch (by norm_num)),
    habPimSessions_end hrest, hdata]

/-- A kernel that loads its program first shows the unit its tiles in one session. -/
theorem crf_kernel_sessions {tile : ℕ → ℕ → List Stmt} (htile : ∀ ch i, Silent (tile ch i))
    (num_tile : ℤ)
    (ch : ℕ) : habPimSessions none (columns (crf_kernel tile num_tile ch)) =
      [(List.range num_tile.toNat).flatMap fun i => dataColumns (tile ch i)] := by
  have hpre : Silent (park_in ch 32 ++ (change_sb_hab ch 2 ++ program_crf ch 2)) := by simp
  have hsessions := sessions_of_tiles ch hpre silent_nil dataColumns_nil
    (silent_flatMap (l := forRange num_tile 1) fun i _ => htile ch i)
  rw [dataColumns_flatMap] at hsessions
  simpa [crf_kernel, forRange, forFrom, List.append_assoc] using hsessions

theorem bn_pim_nr_sip_sessions (num_tile : ℤ) (crf_size ch : ℕ) :
    habPimSessions none (columns (bn_pim_nr_sip num_tile crf_size ch)) =
      [(List.range num_tile.toNat).flatMap fun i => dataColumns (bn_tile ch i)] := by
  have hpre : Silent (park_in ch 32 ++ (change_sb_hab ch 2 ++ program_srf ch 2)) := by simp
  have hidle : dataColumns (program_crf_mod ch (crf_size >>> 4)) = [] := by
    rw [program_crf_mod, dataColumns_cons,
      (idle_control_write ch 1 _ (fun t => 0x4 + gidx t) _).dataColumns, dataColumns_cons,
        (idle_control ch 1 _ fun t => 0x4 + gidx t).dataColumns,
        (idle_B_CMD _ 1).dataColumns]
    rfl
  have hsessions := sessions_of_tiles ch hpre (silent_program_crf_mod ch (crf_size >>> 4)) hidle
    (silent_flatMap (l := forRange num_tile 1) fun i _ => silent_bn_tile ch i)
  rw [dataColumns_flatMap] at hsessions
  simpa [bn_pim_nr_sip, forRange, forFrom, List.append_assoc] using hsessions

end PimLibrary.Kernel
