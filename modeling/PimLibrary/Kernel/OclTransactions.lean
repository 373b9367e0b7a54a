import PimLibrary.Kernel.GemmLoops
import PimLibrary.Kernel.OclGemm
import PimLibrary.Kernel.Transactions

/-! The data accesses of the two generic aligned GEMM kernels, thread by thread.

    Both kernels visit the in-tiles of the even bank and then those of the odd bank for each iteration,
    input row and output tile, so their accesses form runs of one shape. -/

namespace PimLibrary.Kernel
open Schemes.Word Schemes.Loop PimLibrary.Device

attribute [local irreducible] int32

/-- The arguments of a launch: any number of iterations and input rows, and sizes that hold at least one
    output tile and a positive even number of in-tiles. -/
structure TiledLaunch where
  iter_cnt : ℕ
  inout_h : ℕ
  in_w : UInt32
  out_w : UInt32
  iter_cnt_pos : 1 ≤ iter_cnt
  iter_cnt_lt : iter_cnt < 2 ^ 31
  inout_h_pos : 1 ≤ inout_h
  inout_h_lt : inout_h < 2 ^ 31
  in_tiles_pos : 1 ≤ in_w.toNat / 128
  in_tiles_even : 2 ∣ in_w.toNat / 128
  out_tiles_pos : 1 ≤ out_w.toNat / 4096

namespace TiledLaunch

variable (p : TiledLaunch)

def n_in_tile : ℕ := p.in_w.toNat / 128

def n_out_tile : ℕ := p.out_w.toNat / 4096

def in_pairs : ℕ := p.n_in_tile / 2

def launch : GemmLaunch where
  iter_cnt := p.iter_cnt
  inout_h := p.inout_h
  in_w := int32 p.in_w.toNat
  out_w := int32 p.out_w.toNat
  n_in_tile := p.n_in_tile
  n_out_tile := p.n_out_tile

theorem n_in_tile_eq : p.n_in_tile = 2 * p.in_pairs := by
  have := p.in_tiles_even
  rw [in_pairs, n_in_tile]
  omega

theorem in_pairs_pos : 0 < p.in_pairs := by
  have h := p.in_tiles_pos
  have heq := p.n_in_tile_eq
  rw [n_in_tile] at heq
  omega

theorem n_in_tile_lt : p.n_in_tile < 2 ^ 25 := by
  have := p.in_w.toNat_lt
  rw [n_in_tile]
  omega

theorem n_out_tile_lt : p.n_out_tile < 2 ^ 20 := by
  have := p.out_w.toNat_lt
  rw [n_out_tile]
  omega

/-- The tile counts are the ones the executor computes from the sizes. -/
theorem launch_eq (s : PimBShape) : p.launch =
    { execute_aligned_gemm_tile_accum ⟨s.n, s.c, s.h, p.out_w⟩ ⟨s.n, s.c, s.h, p.in_w⟩ s with
      iter_cnt := p.iter_cnt
      inout_h := p.inout_h } := by
  have hin : p.in_w.toNat * 2 / 32 / 8 = p.n_in_tile := by
    rw [n_in_tile]
    omega
  have hcount : in_tile_cnt ⟨s.n, s.c, s.h, p.in_w⟩ = p.n_in_tile := by
    rw [in_tile_cnt, ← int32_natCast (n := p.n_in_tile) (p.n_in_tile_lt.trans (by norm_num)), ← hin]
    rfl
  have hout : int32 (p.n_out_tile : ℤ) = p.n_out_tile :=
    int32_natCast (p.n_out_tile_lt.trans (by norm_num))
  rw [launch, execute_aligned_gemm_tile_accum, hcount]
  simp only [GemmLaunch.mk.injEq, true_and]
  exact hout.symm

theorem launch_counts : p.launch.iter_cnt.toNat = p.iter_cnt ∧ p.launch.inout_h.toNat = p.inout_h ∧
    p.launch.n_out_tile.toNat = p.n_out_tile := by
  simp [launch]

/-- The session of the HIP kernel at the given indices. -/
def hip_session (b r o : ℕ) : Session := aligned_session p.launch (aligned_state p.launch b r) o

variable (ch t : ℕ)

def hip_addrs : GemmAddrs where
  input b r bk i :=
    (p.hip_session b r 0).input + i_addr (p.hip_session b r 0) (bk + 2 * i) (gidx t) + offset t
  weight b r o bk i j := (p.hip_session b r o).weight + addr_gen ch 0 0 bk
    (toUint32 ((if j < 4 then even_row else odd_row) (p.hip_session b r o) (bk + 2 * i)))
      (gidx t + j % 4 * 8) + offset t
  sum b r o := partial_addr ch (p.hip_session b r o) (gidx t) + offset t

def ocl_addrs (emulator : Bool) : GemmAddrs where
  input b r bk i := Ocl.i_base p.launch b r bk i + (t * 16 : ℕ)
  weight b _ o bk i j := Ocl.addr_gen_s emulator ch 0 0 bk (j / 4) (j % 4 * 8)
    (toUint32 (Ocl.weight_base p.launch b o i + (t * 16 : ℕ)))
  sum b r o := Ocl.addr_gen_s emulator ch 0 0 1 0 0
    (toUint32 (Ocl.sum_base p.launch b r o + (t * 16 : ℕ) + gidx t))

theorem hip_tile (s : Session) (bk i_idx : ℕ) (ht : t < 16) : accesses t (mac_tile ch s bk i_idx) =
    ⟨false, .input, (s.input + i_addr s i_idx (gidx t) + offset t)⟩ :: (List.range 8).map fun j =>
      ⟨false, .weight, (s.weight + addr_gen ch 0 0 bk
        (toUint32 ((if j < 4 then even_row else odd_row) s i_idx)) (gidx t + j % 4 * 8) +
          offset t)⟩ := by
  have hin : accesses t [W_CMD_R 16 .pim_ctr (fun t => addr_gen ch 0 0 bk 0x3fff (0x8 + gidx t))
      fun t => .mem .input (s.input + i_addr s i_idx (gidx t) + offset t)] =
      [⟨false, .input, (s.input + i_addr s i_idx (gidx t) + offset t)⟩] := by
    rw [accesses_active t ht]
    simp [W_CMD_R, Cmd.accesses, Buf.isData]
  have hweight : ∀ row col, accesses t [weight_read ch s bk row col] =
      [⟨false, .weight, (s.weight + addr_gen ch 0 0 bk (toUint32 row) (gidx t + col) + offset t)⟩] := by
    intro row col
    rw [weight_read, accesses_active t ht]
    simp [R_CMD, Cmd.accesses, Buf.isData]
  rw [mac_tile]
  simp only [accesses_cons_cons, hin, hweight, accesses_R_CMD_ctr, accesses_B_CMD]
  rfl

/-- The HIP kernel runs over the even in-tiles first and then over the odd ones. -/
theorem hip_session_accesses (b r o : ℕ) (ht : t < 16) :
    accesses t (gemm_session ch (p.hip_session b r o) (forFrom 0 p.launch.n_in_tile 2)
      (forFrom 1 p.launch.n_in_tile 2)) = (p.hip_addrs ch t).session p.in_pairs b r o := by
  have hin : p.launch.n_in_tile = ((2 * p.in_pairs : ℕ) : ℤ) := by
    rw [← p.n_in_tile_eq]
    rfl
  have hW : accesses t [W_CMD 16 .pim_partial_sum fun t => partial_addr ch (p.hip_session b r o)
    (gidx t)] =
      [⟨true, .pim_partial_sum, (p.hip_addrs ch t).sum b r o⟩] := by
    rw [accesses_active t ht]
    simp [W_CMD, Cmd.accesses, Buf.isData, hip_addrs]
  have hR : accesses t [R_CMD 16 .pim_partial_sum fun t => partial_addr ch (p.hip_session b r o)
    (gidx t)] =
      [⟨false, .pim_partial_sum, (p.hip_addrs ch t).sum b r o⟩] := by
    rw [accesses_active t ht]
    simp [R_CMD, Cmd.accesses, Buf.isData, hip_addrs]
  have hbank : ∀ bk, ((List.range p.in_pairs).map (bk + 2 * ·)).flatMap
      (fun i_idx => accesses t (mac_tile ch (p.hip_session b r o) bk i_idx)) =
      (List.range p.in_pairs).flatMap ((p.hip_addrs ch t).tile b r o bk) := by
    intro bk
    rw [List.flatMap_map]
    refine List.flatMap_congr fun i _ => ?_
    rw [hip_tile ch t _ bk _ ht, GemmAddrs.tile]
    simp only [hip_addrs, i_addr, hip_session, aligned_session]
  rw [hin, forFrom_two 0 _ zero_le_one, forFrom_two 1 _ le_rfl, gemm_session, List.cons_append,
    accesses_cons, accesses_enter, session_body]
  simp only [accesses_append, accesses_cons_cons, accesses_flatMap,
    accesses_change_habpim_hab, accesses_R_CMD_ctr, accesses_B_CMD, hbank, hW, hR,
      List.append_nil, List.nil_append]
  simp [GemmAddrs.session, GemmAddrs.writeOut, List.range_succ]

/-- Outside the sessions only control rows are touched. -/
theorem hip_data (ch t : ℕ) : accesses t (pim_aligned_gemm_bias_relu_fp16 p.launch ch) =
    accesses t ((aligned_sessions p.launch).flatMap fun s =>
      gemm_session ch s (forFrom 0 p.launch.n_in_tile 2)
      (forFrom 1 p.launch.n_in_tile 2)) := by
  rw [pim_aligned_gemm_bias_relu_fp16, aligned_kernel]
  simp only [accesses_append, accesses_park_in, accesses_change_sb_hab,
    accesses_program_crf_mod, accesses_change_hab_sb, accesses_park_out,
      List.nil_append, List.append_nil]

theorem hip_accesses (ht : t < 16) : accesses t (pim_aligned_gemm_bias_relu_fp16 p.launch ch) =
    (p.hip_addrs ch t).run p.iter_cnt p.inout_h p.n_out_tile p.in_pairs := by
  obtain ⟨hiter, hrows, hout⟩ := p.launch_counts
  rw [hip_data, accesses_flatMap, aligned_sessions_eq, hiter, hrows, hout, GemmAddrs.run]
  simp only [List.flatMap_assoc, List.flatMap_map]
  refine List.flatMap_congr fun b _ => List.flatMap_congr fun r _ => List.flatMap_congr fun o _ => ?_
  exact p.hip_session_accesses ch t b r o ht

/-- Threads past the first sixteen access no data. -/
theorem hip_idle (ht : 16 ≤ t) : accesses t (pim_aligned_gemm_bias_relu_fp16 p.launch ch) = [] := by
  have hsession : ∀ s evens odds, Active 16 (gemm_session ch s evens odds) := by
    intro s evens odds
    simp [gemm_session, session_body, mac_tile, weight_read, change_habpim_hab, R_CMD, W_CMD,
      W_CMD_R, B_CMD]
  rw [hip_data]
  exact ((active_flatMap 16 _ _).mpr fun s _ => hsession s _ _).accesses t ht

variable (emulator : Bool)

theorem ocl_tile (b r o bk i : ℕ) (ht : t < 16) :
    accesses t (Ocl.mac_tile emulator p.launch ch b r o bk i) = (p.ocl_addrs ch t emulator).tile
      b r o bk i := by
  have hweight : ∀ j, accesses t [Ocl.weight_read emulator p.launch ch b o bk i j] =
      [⟨false, .weight, (p.ocl_addrs ch t emulator).weight b r o bk i j⟩] := by
    intro j
    rw [accesses_active t (s := Ocl.weight_read emulator p.launch ch b o bk i j) ht]
    simp [Ocl.weight_read, Cmd.accesses, Buf.isData, ocl_addrs]
  rw [Ocl.mac_tile]
  simp only [accesses_append, accesses_map, accesses_cons_cons, accesses_B_CMD, hweight]
  rw [accesses_active t ht, accesses_active t ht, ← List.map_eq_flatMap]
  simp [Cmd.accesses, Buf.isData, GemmAddrs.tile, ocl_addrs]

theorem ocl_write_out (b r o : ℕ) (ht : t < 16) :
    accesses t (Ocl.write_out emulator p.launch ch b r o) = (p.ocl_addrs ch t emulator).writeOut
      b r o := by
  rw [Ocl.write_out]
  simp only [accesses_cons_cons, accesses_B_CMD]
  rw [accesses_active t ht, accesses_active t ht]
  simp [Cmd.accesses, Buf.isData, GemmAddrs.writeOut, ocl_addrs]

theorem ocl_session_accesses (b r o : ℕ) (ht : t < 16) :
    accesses t (Ocl.gemm_session emulator p.launch ch b r o) =
      (p.ocl_addrs ch t emulator).session p.in_pairs b r o := by
  have hpairs : forRange (p.launch.n_in_tile.tdiv 2) 1 = List.range p.in_pairs := by
    have heq : p.launch.n_in_tile.tdiv 2 = p.in_pairs := by
      rw [in_pairs, launch]
      exact Int.ofNat_tdiv p.n_in_tile 2
    rw [heq, Schemes.Loop.forRange_one]
  have henter : accesses t (Ocl.change_gemv_hab_habpim emulator ch 16) = [] := by
    simp [Ocl.change_gemv_hab_habpim]
  have hleave : accesses t (Ocl.change_habpim_hab emulator ch 16) =
    [] := by simp [Ocl.change_habpim_hab]
  rw [Ocl.gemm_session, hpairs]
  have hbanks : accesses t ((List.range 2).flatMap fun bk =>
      (List.range p.in_pairs).flatMap (Ocl.mac_tile emulator p.launch ch b r o bk)) =
      (List.range 2).flatMap fun bk =>
        (List.range p.in_pairs).flatMap ((p.ocl_addrs ch t emulator).tile b r o bk) := by
    rw [accesses_flatMap]
    refine List.flatMap_congr fun bk _ => ?_
    rw [accesses_flatMap]
    exact List.flatMap_congr fun i _ => p.ocl_tile ch t emulator b r o bk i ht
  rw [accesses_append, accesses_append, accesses_append, henter, hleave, hbanks,
    p.ocl_write_out ch t emulator b r o ht, List.nil_append, List.append_nil, GemmAddrs.session]

theorem ocl_data (ch t : ℕ) :
    accesses t (Ocl.pim_aligned_gemm_bias_relu_fp16 emulator p.launch ch) =
    accesses t ((List.range p.iter_cnt).flatMap fun b => (List.range p.inout_h).flatMap fun in_idx =>
      (List.range p.n_out_tile).flatMap (Ocl.gemm_session emulator p.launch ch b in_idx)) := by
  have hiter : forRange p.launch.iter_cnt 1 = List.range p.iter_cnt := Schemes.Loop.forRange_one _
  have hrows : forRange p.launch.inout_h 1 = List.range p.inout_h := Schemes.Loop.forRange_one _
  have hout : forRange p.launch.n_out_tile 1 = List.range p.n_out_tile := Schemes.Loop.forRange_one _
  have hbefore : accesses t (Ocl.park_in emulator ch 32 ++ Ocl.change_sb_hab emulator ch 2 ++
      Ocl.program_crf_mod emulator ch (32 >>> 4)) = [] := by
    simp [Ocl.park_in, Ocl.change_sb_hab, Ocl.program_crf_mod]
  have hleave : accesses t (Ocl.change_hab_sb emulator ch 4) = [] := by simp [Ocl.change_hab_sb]
  have hafter : accesses t (Ocl.park_out emulator ch 32) = [] := by simp [Ocl.park_out]
  rw [Ocl.pim_aligned_gemm_bias_relu_fp16, hiter, hrows, hout, accesses_append, accesses_append,
    accesses_append, hbefore, hleave, hafter, List.nil_append, List.append_nil, List.append_nil]

theorem ocl_accesses (ht : t < 16) :
    accesses t (Ocl.pim_aligned_gemm_bias_relu_fp16 emulator p.launch ch) =
    (p.ocl_addrs ch t emulator).run p.iter_cnt p.inout_h p.n_out_tile p.in_pairs := by
  rw [ocl_data, accesses_flatMap, GemmAddrs.run]
  simp only [accesses_flatMap]
  refine List.flatMap_congr fun b _ => List.flatMap_congr fun r _ => List.flatMap_congr fun o _ => ?_
  exact p.ocl_session_accesses ch t emulator b r o ht

theorem ocl_idle (ht : 16 ≤ t) :
    accesses t (Ocl.pim_aligned_gemm_bias_relu_fp16 emulator p.launch ch) = [] := by
  have hsession : ∀ b r o, Active 16 (Ocl.gemm_session emulator p.launch ch b r o) := by
    intro b r o
    simp [Ocl.gemm_session, Ocl.change_gemv_hab_habpim, Ocl.mac_tile, Ocl.weight_read, Ocl.write_out,
      Ocl.change_habpim_hab, R_CMD, W_CMD_R, B_CMD]
  rw [ocl_data]
  refine Active.accesses t (n := 16) ?_ ht
  simp [hsession]

end TiledLaunch

end PimLibrary.Kernel
