import PimLibrary.Kernel.ChwiseTiling
import PimLibrary.Program.EltLockstep

/-! The GEMV program against the GEMM kernels.

    Every input row and output tile is one session: all weight reads of the even in-tiles, then those
    of the odd in-tiles, then the partial sums. The program spends its first loop on the former, its
    second on the latter, and its last NOP on the sums. -/

namespace PimLibrary.Program
open Schemes.Word Schemes.Lockstep Schemes.Loop PimLibrary.Kernel PimLibrary.Device
  PimLibrary.Program.PimCommand

attribute [local irreducible] int32

/-! ### The sessions of a kernel -/

section Session

variable (ch : ℕ) (s : Session)

theorem silent_mac_tile (bank i_idx : ℕ) : Silent (mac_tile ch s bank i_idx) := by
  simp [mac_tile, weight_read, Stmt.Silent, W_CMD_R, R_CMD, B_CMD, Cmd.modeWrite]

theorem silent_session_body (evens odds : List ℕ) : Silent (session_body ch s evens odds) := by
  have heven := silent_flatMap (l := evens) fun i _ => silent_mac_tile ch s 0 i
  have hodd := silent_flatMap (l := odds) fun i _ => silent_mac_tile ch s 1 i
  simp [session_body, heven, hodd]

theorem gemm_session_sessions (evens odds : List ℕ) (rest : List Cmd) :
    habPimSessions none (columns (gemm_session ch s evens odds) ++ rest) =
      dataColumns (session_body ch s evens odds) :: habPimSessions none rest := by
  have hshape : gemm_session ch s evens odds =
      ((W_CMD_R 16 .pim_ctr (fun _ => addr_gen ch 0 0 0 0x3fff 0x0) fun _ => .gemv_hab_to_hab_pim) ::
        (session_body ch s evens odds ++
          [W_CMD_R 16 .pim_ctr (fun _ => addr_gen ch 0 0 0 0x3fff 0x0) fun _ => .hab_pim_to_hab])) ++
        [R_CMD 16 .pim_ctr fun _ => addr_gen ch 0 0 0 0x3fff 0x0, B_CMD 16 1] := by
    simp [gemm_session, change_habpim_hab]
  have hquiet : Silent [R_CMD 16 .pim_ctr fun _ => addr_gen ch 0 0 0 0x3fff 0x0, B_CMD 16 1] := by simp
  rw [hshape, columns_append, List.append_assoc,
    habPimSessions_stmts (switches_gemv_hab_habpim ch (by norm_num))
      (silent_session_body ch s evens odds)
      (switches_habpim_hab ch (by norm_num)), habPimSessions_silent hquiet]

end Session

/-- A kernel that runs its sessions one after another shows the unit their data columns. -/
theorem habPimSessions_sessions (ch : ℕ) (evens odds : List ℕ) {pre post : List Stmt}
    (hpre : Silent pre)
    (hpost : Silent post) (sessions : List Session) :
    habPimSessions none
      (columns (pre ++ sessions.flatMap (fun s => gemm_session ch s evens odds) ++ post)) =
      sessions.map fun s => dataColumns (session_body ch s evens odds) := by
  rw [columns_append, columns_append, List.append_assoc, habPimSessions_silent hpre]
  induction sessions with
  | nil => exact habPimSessions_end hpost
  | cons s ss ih =>
    rw [List.flatMap_cons, columns_append, List.append_assoc, gemm_session_sessions, ih, List.map_cons]

/-! ### The data columns of a session -/

/-- The buffer a command accesses. -/
def bufOf : Cmd → Option Buf
  | .R buf _ | .W buf _ | .WR buf _ _ => some buf
  | .B _ => none

/-- MAC instructions are fed weights of their bank, NOP the partial sums. -/
def GemvAccepts (c : PimCommand) (x : Cmd) : Prop :=
  Accepts c x ∧ (c.type_ = .MAC → bufOf x = some .weight) ∧
    (c.type_ = .NOP → bufOf x = some .pim_partial_sum)

section Columns

variable (ch : ℕ) (s : Session)

theorem dataColumns_mac_tile (bank i_idx : ℕ) : dataColumns (mac_tile ch s bank i_idx) =
    dataColumns ((mac_tile ch s bank i_idx).drop 3) := by
  rw [mac_tile, dataColumns_cons, (idle_control_write ch bank 16 (fun t => 0x8 + gidx t) _).dataColumns,
    dataColumns_cons, (idle_control ch bank 16 fun t => 0x8 + gidx t).dataColumns, dataColumns_cons,
    (idle_B_CMD 16 1).dataColumns]
  rfl

theorem length_mac_tile (bank i_idx : ℕ) : (dataColumns (mac_tile ch s bank i_idx)).length = 64 := by
  rw [dataColumns_mac_tile]
  simp [mac_tile, weight_read]

/-- All that advances the unit in an in-tile is weight reads from its bank. -/
theorem mem_mac_tile {bank i_idx : ℕ} {x : Cmd} (hx : x ∈ dataColumns (mac_tile ch s bank i_idx)) :
    ∃ row col t, x = .R .weight (s.weight + (addr_gen ch 0 0 bank (toUint32 row) col : ℕ) +
      offset t) := by
  rw [dataColumns_mac_tile] at hx
  obtain ⟨stmt, hstmt, t, rfl, hdata⟩ := mem_dataColumns hx
  simp only [mac_tile, List.drop_succ_cons, List.drop_zero, List.mem_cons, List.not_mem_nil,
    or_false] at hstmt
  rcases hstmt with rfl | rfl | rfl | rfl | rfl | rfl | rfl | rfl | rfl
  · exact ⟨_, _, _, rfl⟩
  · exact ⟨_, _, _, rfl⟩
  · exact ⟨_, _, _, rfl⟩
  · exact ⟨_, _, _, rfl⟩
  · exact ⟨_, _, _, rfl⟩
  · exact ⟨_, _, _, rfl⟩
  · exact ⟨_, _, _, rfl⟩
  · exact ⟨_, _, _, rfl⟩
  · exact absurd hdata (by simp [B_CMD, Cmd.isData])

theorem bank_of_weight_read {weight : ℤ} (hweight : 2 ^ 14 ∣ weight) (bank col o : ℕ) (row : ℤ)
    (ho : o < 32) :
    (weight + (addr_gen ch 0 0 bank (toUint32 row) col : ℕ) + (o : ℤ)) / 2 ^ 13 % 2 =
      ((bank % 2 : ℕ) : ℤ) := by
  have hrow : toUint32 row < 2 ^ 32 := by unfold toUint32; omega
  have h := bank_of_addr_gen ch bank col o hrow ho
  obtain ⟨q, rfl⟩ := hweight
  rw [add_assoc]
  omega

theorem dataColumns_session_body (evens odds : List ℕ) :
    dataColumns (session_body ch s evens odds) =
      (evens.flatMap fun i => dataColumns (mac_tile ch s 0 i)) ++
        ((odds.flatMap fun i => dataColumns (mac_tile ch s 1 i)) ++
          dataColumns [W_CMD 16 .pim_partial_sum fun t => partial_addr ch s (gidx t),
            W_CMD 16 .pim_partial_sum fun t => partial_addr ch s (gidx t),
            R_CMD 16 .pim_partial_sum fun t => partial_addr ch s (gidx t), B_CMD 16 1]) := by
  rw [session_body, dataColumns_append, dataColumns_append, dataColumns_append, dataColumns_flatMap,
    dataColumns_flatMap, dataColumns_cons (R_CMD 16 .pim_ctr _), (idle_control ch 0 16 fun _ =>
      0).dataColumns,
    (idle_B_CMD 16 1).dataColumns]
  simp

end Columns

/-! ### The program -/

def mac (bank : PimOpdType) : PimCommand := binary .MAC .GRF_B .GRF_A bank 1 0 0 0

/-- The decoded program at two loop counts. -/
def gemvProgram (even_lc odd_lc : ℤ) : List PimCommand :=
  [mac .EVEN_BANK, jump .JUMP even_lc 2, mac .ODD_BANK, jump .JUMP odd_lc 2, ctrl .NOP 23, ctrl .EXIT 0,
    ctrl .NOP 0, ctrl .NOP 0]

theorem loaded_gemv (cmds_ : List PimCommand) (lc : ℤ) (he0 : 0 ≤ 8 * ceil_half lc - 1)
    (he : 8 * ceil_half lc - 1 < 2 ^ 17) (ho0 : 0 ≤ 8 * lc.tdiv 2 - 1) (ho : 8 * lc.tdiv 2 - 1 <
      2 ^ 17) :
    loaded (create_pim_cmd false cmds_ .OP_GEMV lc) =
      gemvProgram (8 * ceil_half lc - 1) (8 * lc.tdiv 2 - 1) := by
  have hoff : field 2 11 = 2 := field_eq (by norm_num) (by norm_num) (by norm_num)
  have heven := from_int_jump (8 * ceil_half lc - 1) 2
  have hodd := from_int_jump (8 * lc.tdiv 2 - 1) 2
  rw [field_eq he0 he (by norm_num), hoff] at heven
  rw [field_eq ho0 ho (by norm_num), hoff] at hodd
  have hcmds : create_pim_cmd false cmds_ .OP_GEMV lc =
      gemvProgram (8 * ceil_half lc - 1) (8 * lc.tdiv 2 - 1) := by
    simp [create_pim_cmd, assign_cmds, gemvProgram, mac, List.replicate]
  have hmac : ∀ bank ∈ [PimOpdType.EVEN_BANK, .ODD_BANK], from_int {} (to_int (mac bank)) =
    mac bank := by decide
  have hnop : ∀ k ∈ [(0 : ℤ), 23], from_int {} (to_int (ctrl .NOP k)) = ctrl .NOP k := by decide
  have hexit : from_int {} (to_int (ctrl .EXIT 0)) = ctrl .EXIT 0 := by decide
  rw [hcmds]
  simp only [loaded, change_to_binary, gemvProgram, List.map_cons, List.map_nil, heven, hodd, hexit,
    hmac .EVEN_BANK (by simp), hmac .ODD_BANK (by simp), hnop 0 (by simp), hnop 23 (by simp)]

/-- Both loops and the NOP, in the order of the program. -/
theorem gemvProgram_runs (ke ko : ℕ) : ∃ taken, Runs (unitStep (gemvProgram ke ko)) {}
    (((List.range (ke + 1)).flatMap fun _ => [(mac .EVEN_BANK, 8)]) ++
      (((List.range (ko + 1)).flatMap fun _ => [(mac .ODD_BANK, 8)]) ++ [(ctrl .NOP 23, 24)]))
        ⟨5, taken⟩ := by
  have hmac : ∀ bank, Straight [mac bank] [(mac bank, 8)] := fun bank => .cons ⟨rfl, rfl⟩ .nil
  have hnop : Straight [ctrl .NOP 23] [(ctrl .NOP 23, 24)] := .cons ⟨rfl, rfl⟩ .nil
  obtain ⟨taken, hkeep, heven⟩ := (hmac .EVEN_BANK).loop []
    [mac .ODD_BANK, jump .JUMP ko 2, ctrl .NOP 23, ctrl .EXIT 0, ctrl .NOP 0, ctrl .NOP 0] ke
      (fun _ => 0) rfl
  obtain ⟨taken', -, hodd⟩ := (hmac .ODD_BANK).loop [mac .EVEN_BANK, jump .JUMP ke 2]
    [ctrl .NOP 23, ctrl .EXIT 0, ctrl .NOP 0, ctrl .NOP 0] ko taken (hkeep 3 (by decide))
  have hlast := hnop.runs [mac .EVEN_BANK, jump .JUMP ke 2, mac .ODD_BANK, jump .JUMP ko 2]
    [ctrl .EXIT 0, ctrl .NOP 0, ctrl .NOP 0] taken'
  exact ⟨taken', heven.trans (hodd.trans hlast)⟩

/-! ### Lockstep -/

/-- The program consumes a session over `k` even and `k` odd in-tiles exactly. -/
theorem session_lockstep (ch : ℕ) {s : Session} (hweight : 2 ^ 14 ∣ s.weight) {k : ℕ} (hk : 0 < k)
    {evens odds : List ℕ} (he : evens.length = k) (ho : odds.length = k) :
    InLockstep (unitStep (gemvProgram (8 * k - 1) (8 * k - 1))) GemvAccepts {}
      (dataColumns (session_body ch s evens odds)) := by
  obtain ⟨n, hn⟩ : ∃ n, 8 * k = n + 1 := ⟨8 * k - 1, by omega⟩
  have hcount : (8 * (k : ℤ) - 1) = (n : ℤ) := by omega
  rw [hcount]
  obtain ⟨taken, hruns⟩ := gemvProgram_runs n n
  have hlen : ∀ (bank : ℕ) (tiles : List ℕ), tiles.length = k →
      (tiles.flatMap fun i => dataColumns (mac_tile ch s bank i)).length = (n + 1) * 8 := by
    intro bank tiles htiles
    rw [length_flatMap_const fun i _ => length_mac_tile ch s bank i, htiles, ← hn]
    ring
  refine hruns.lockstep (by simp [unitStep, gemvProgram, ctrl]) ?_
  rw [dataColumns_session_body]
  refine .append (.rounds (hlen 0 evens he) ?_) (.append (.rounds (hlen 1 odds ho) ?_) (.single ?_ ?_))
  · intro x hx
    obtain ⟨i, -, hx⟩ := List.mem_flatMap.mp hx
    obtain ⟨row, col, t, rfl⟩ := mem_mac_tile ch s hx
    refine ⟨⟨fun _ => ?_, fun h => absurd h (by decide)⟩, fun _ => rfl, fun h => absurd h (by decide)⟩
    exact bank_of_weight_read ch hweight 0 col _ row (offset_lt t)
  · intro x hx
    obtain ⟨i, -, hx⟩ := List.mem_flatMap.mp hx
    obtain ⟨row, col, t, rfl⟩ := mem_mac_tile ch s hx
    refine ⟨⟨fun h => absurd h (by decide), fun _ => ?_⟩, fun _ => rfl, fun h => absurd h (by decide)⟩
    exact bank_of_weight_read ch hweight 1 col _ row (offset_lt t)
  · simp
  · intro x hx
    refine ⟨accepts_free (by decide) (by decide) x, fun h => absurd h (by decide), fun _ => ?_⟩
    obtain ⟨stmt, hstmt, t, rfl, hdata⟩ := mem_dataColumns hx
    simp only [List.mem_cons, List.not_mem_nil, or_false] at hstmt
    rcases hstmt with rfl | rfl | rfl | rfl
    · rfl
    · rfl
    · rfl
    · exact absurd hdata (by simp [B_CMD, Cmd.isData])

/-- The loop counter for an input of `2 * in_w` bytes. -/
def gemv_lc (in_w : UInt32) : ℤ := get_loop_counter false .OP_GEMV (int32 (in_w.toNat * 2 : ℕ))

theorem gemv_lc_eq {in_w : UInt32} {k : ℕ} (hk : in_w.toNat = 256 * k) (hle : in_w.toNat ≤ 2 ^ 22) :
    gemv_lc in_w = ((2 * k : ℕ) : ℤ) ∧ 8 * ceil_half (gemv_lc in_w) - 1 = 8 * k - 1 ∧
      8 * (gemv_lc in_w).tdiv 2 - 1 = 8 * k - 1 := by
  have hlc : gemv_lc in_w = ((2 * k : ℕ) : ℤ) := by
    have hdiv : in_w.toNat * 2 / 32 / 8 = 2 * k := by omega
    have h : gemv_lc in_w = ((in_w.toNat * 2 / 32 / 8 : ℕ) : ℤ) := by
      rw [gemv_lc, int32_natCast (by omega)]
      rfl
    rw [h, hdiv]
  have hceil : ceil_half ((2 * k : ℕ) : ℤ) = k := by
    rw [ceil_half, if_pos (Int.natCast_nonneg _), Int.toNat_natCast, float32_of_lt (by omega),
      show (2 * k + 1) / 2 = k by omega]
  have hhalf : ((2 * k : ℕ) : ℤ).tdiv 2 = k := by
    have h : ((2 * k : ℕ) : ℤ).tdiv 2 = ((2 * k / 2 : ℕ) : ℤ) := rfl
    rw [h, Nat.mul_div_cancel_left k two_pos]
  exact ⟨hlc, by rw [hlc, hceil], by rw [hlc, hhalf]⟩

/-- The kernel stays in HAB_PIM mode `count` times, and every stay drives the program exactly to
    EXIT. -/
structure GemvLockstep (program : List PimCommand) (count : ℕ) (kernel : List Stmt) : Prop where
  stays : (habPimSessions none (columns kernel)).length = count
  lockstep : ∀ session ∈ habPimSessions none (columns kernel),
    InLockstep (unitStep program) GemvAccepts {} session

theorem gemvLockstep_of_sessions (ch : ℕ) {k : ℕ} (hk : 0 < k) {sessions : List Session}
    (hweight : ∀ s ∈ sessions, 2 ^ 14 ∣ s.weight) (pre post : List Stmt) (hpre : Silent pre)
      (hpost : Silent post) :
    GemvLockstep (gemvProgram (8 * k - 1) (8 * k - 1)) sessions.length
      (pre ++ sessions.flatMap (fun s => gemm_session ch s (forFrom 0 ((2 * k : ℕ) : ℤ) 2)
        (forFrom 1 ((2 * k : ℕ) : ℤ) 2)) ++ post) := by
  have heven := forFrom_two 0 k (by omega)
  have hodd := forFrom_two 1 k (by omega)
  have hstays := habPimSessions_sessions ch (forFrom 0 ((2 * k : ℕ) : ℤ) 2)
    (forFrom 1 ((2 * k : ℕ) : ℤ) 2) hpre hpost sessions
  refine ⟨by rw [hstays, List.length_map], fun session h => ?_⟩
  rw [hstays] at h
  obtain ⟨s, hs, rfl⟩ := List.mem_map.mp h
  exact session_lockstep ch (hweight s hs) hk (by rw [heven]; simp) (by rw [hodd]; simp)

/-- One session for each iteration, input row and output tile. -/
theorem length_aligned_sessions (p : GemmLaunch) : (aligned_sessions p).length =
    p.iter_cnt.toNat * (p.inout_h.toNat * p.n_out_tile.toNat) := by
  rw [aligned_sessions_eq, length_flatMap_const (c := p.inout_h.toNat * p.n_out_tile.toNat),
    List.length_range]
  intro i _
  rw [length_flatMap_const (c := p.n_out_tile.toNat) (fun r _ => by simp), List.length_range]

theorem aligned_weight_dvd (g : AlignedGemm) {s : Session} (hs : s ∈ aligned_sessions g.launch) :
    2 ^ 14 ∣ s.weight := by
  rw [aligned_sessions_eq] at hs
  simp only [List.mem_flatMap, List.mem_map] at hs
  obtain ⟨i, -, r, -, o, -, rfl⟩ := hs
  rw [g.session_weight]
  refine Dvd.dvd.mul_left (dvd_int32 (by norm_num) ?_) _
  have hsize : g.in_w.toNat * g.out_w.toNat * 2 = 2 ^ 14 * (2 ^ 7 * (g.in_pairs * g.out_tiles)) := by
    rw [g.in_w_eq, g.out_w_eq]; ring
  exact ⟨_, by rw [hsize, Nat.cast_mul]; rfl⟩

theorem chwise_weight_dvd {g : ChwiseGemm} (halign : 256 ∣ g.in_w.toNat) {p : GemmLaunch}
    (hp : g.launch = some p) (input : ℤ) (i : ℕ) :
    2 ^ 14 ∣ (chwise_session (chwise_state p input i)).weight := by
  have hdvd : (2 ^ 14 : ℤ) ∣ int32 (p.in_w * 2 ^ 13) := by
    rw [(ChwiseGemm.launch_eq hp).2.2, int32_mul_int32']
    refine dvd_int32 (by norm_num) ?_
    obtain ⟨q, hq⟩ := halign
    exact ⟨2 ^ 7 * q, by rw [hq]; push_cast; ring⟩
  exact hdvd.mul_left _

/-- The GEMV program runs in lockstep with the aligned and the channel-wise kernels, once for each
    input row and output tile of each iteration. -/
theorem gemv_lockstep (in_w : UInt32) (hpos : 0 < in_w.toNat) (halign : 256 ∣ in_w.toNat)
    (hle : in_w.toNat ≤ 2 ^ 22) (cmds_ : List PimCommand) (by_zero : ByZero) (ch : ℕ) :
    (0 ≤ 8 * ceil_half (gemv_lc in_w) - 1 ∧ 8 * ceil_half (gemv_lc in_w) - 1 < 2 ^ 17 ∧
      0 ≤ 8 * (gemv_lc in_w).tdiv 2 - 1 ∧ 8 * (gemv_lc in_w).tdiv 2 - 1 < 2 ^ 17) ∧
    (∀ g : AlignedGemm, g.in_w = in_w →
      GemvLockstep (loaded (create_pim_cmd false cmds_ .OP_GEMV (gemv_lc in_w)))
        (g.launch.iter_cnt.toNat * (g.launch.inout_h.toNat * g.launch.n_out_tile.toNat))
        (aligned_gemm_kernel g.launch ch)) ∧
    ∀ g : ChwiseGemm, g.in_w = in_w → ∀ p, g.launch = some p →
      ∃ kernel, chwise_gemm_kernel p by_zero ch = some kernel ∧
        GemvLockstep (loaded (create_pim_cmd false cmds_ .OP_GEMV (gemv_lc in_w)))
          (p.iter_cnt.toNat * p.inout_h.toNat) kernel := by
  obtain ⟨k, hk⟩ := halign
  obtain ⟨-, heven, hodd⟩ := gemv_lc_eq hk hle
  have hk0 : 0 < k := by omega
  have hloaded := loaded_gemv cmds_ (gemv_lc in_w) (by omega) (by omega) (by omega) (by omega)
  rw [heven, hodd] at hloaded
  refine ⟨by omega, ?_, ?_⟩
  · rintro g rfl
    have hpairs : g.in_pairs = k := by
      have := g.in_w_eq
      omega
    have htile := g.n_in_tile_eq
    rw [hpairs] at htile
    have h := gemvLockstep_of_sessions ch hk0 (fun s hs => aligned_weight_dvd g hs)
      (park_in ch 32 ++ change_sb_hab ch 2 ++ program_crf_mod ch (32 >>> 4)) (change_hab_sb ch 4 ++
        park_out ch 32)
      (by simp) (by simp)
    rw [aligned_gemm_kernel_eq, pim_aligned_gemm_bias_relu_fp16, aligned_kernel, htile, hloaded,
      ← length_aligned_sessions, List.append_assoc (_ ++ _)]
    exact h
  · rintro g rfl p hp
    have htile : p.n_in_tile = ((2 * k : ℕ) : ℤ) := by
      have hdiv : g.in_w.toNat * 2 / 32 / 8 = 2 * k := by omega
      have heq : p.n_in_tile = int32 ((g.in_w.toNat * 2 / 32 / 8 : ℕ) : ℤ) := by
        rw [ChwiseGemm.launch, execute_chwise_gemm_tile_accum] at hp
        split_ifs at hp
        rw [← Option.some.inj hp]
        rfl
      rw [heq, hdiv, int32_natCast (by omega)]
    have hsessions := chwise_sessions_eq p by_zero (ChwiseGemm.chs_per_op_eq hp) ch
    rw [chwise_gemm_kernel_eq, pim_chwise_gemm_bias_relu_fp16, chwise_kernel, htile, hsessions]
    generalize ((uint32 (block_op by_zero _ ch * toUint32 p.in_w * 2) : ℕ) : ℤ) = input
    set sessions : List Session := (List.range p.iter_cnt.toNat).flatMap fun i =>
      (List.range p.inout_h.toNat).map fun _ => chwise_session (chwise_state p input i) with hlist
    have hlen : sessions.length = p.iter_cnt.toNat * p.inout_h.toNat := by
      rw [hlist, length_flatMap_const (c := p.inout_h.toNat) (fun i _ => by simp), List.length_range]
    have hweight : ∀ s ∈ sessions, 2 ^ 14 ∣ s.weight := by
      intro s hs
      simp only [hlist, List.mem_flatMap, List.mem_map] at hs
      obtain ⟨i, -, r, -, rfl⟩ := hs
      exact chwise_weight_dvd ⟨k, hk⟩ hp input i
    have h := gemvLockstep_of_sessions ch hk0 hweight
      (park_in ch 32 ++ change_sb_hab ch 2 ++ program_crf_mod ch (32 >>> 4)) (change_hab_sb ch 4 ++
        park_out ch 32)
      (by simp) (by simp)
    refine ⟨_, rfl, ?_⟩
    beta_reduce
    rw [hloaded, ← hlen, List.append_assoc (_ ++ _)]
    exact h

/-- Two input rows against two tiles of four in-tiles. -/
def severalTiles : AlignedGemm := .of 1 1 2 512 8192 (by decide)

/-- Four matrices in two tiles, with three input rows each. -/
def severalMatrices : ChwiseGemm := .of 4 1 3 512 2048 (by decide)

theorem gemv_lockstep_several :
    GemvLockstep (loaded (create_pim_cmd false [] .OP_GEMV (gemv_lc 512))) 8
      (aligned_gemm_kernel severalTiles.launch 5) ∧
    ∃ p kernel, severalMatrices.launch = some p ∧ chwise_gemm_kernel p id 5 = some kernel ∧
      GemvLockstep (loaded (create_pim_cmd false [] .OP_GEMV (gemv_lc 512))) 6 kernel := by
  obtain ⟨-, haligned, hchwise⟩ := gemv_lockstep 512 (by decide) (by decide) (by decide) [] id 5
  constructor
  · have hcount : severalTiles.launch.iter_cnt.toNat * (severalTiles.launch.inout_h.toNat *
        severalTiles.launch.n_out_tile.toNat) = 8 := by decide +kernel
    have h := haligned severalTiles rfl
    rwa [hcount] at h
  · obtain ⟨p, hp⟩ := severalMatrices.exists_launch (by decide)
    have hcount : severalMatrices.launch.map (fun p => p.iter_cnt.toNat * p.inout_h.toNat) = some 6 := by
      decide +kernel
    obtain ⟨kernel, hkernel, h⟩ := hchwise severalMatrices rfl p hp
    rw [hp, Option.map_some, Option.some.injEq] at hcount
    rw [hcount] at h
    exact ⟨p, kernel, hp, hkernel, h⟩

end PimLibrary.Program
