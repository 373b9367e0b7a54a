import PimLibrary.Executor.EltData

/-! The result of an element-wise launch.

    Each channel's unit runs its program on the commands that its block of the kernel issues, and the
    channels take turns in any way. Whatever the order, the launch leaves the operation of the operands in
    every transaction of the output's tiles and everything else as it was. -/

namespace PimLibrary.Executor
open Schemes.Word Schemes.Interleave Schemes.SharedMemory Schemes.Lockstep PimLibrary.Device
open PimLibrary.Kernel PimLibrary.Program PimLibrary.Program.PimCommand

variable {B : Type*}

/-! ### Runs -/

/-- The accesses of a unit, each with the instruction that takes it. -/
def unitEvents (base : Buf → ℤ) (log : List (PimCommand × List Cmd)) : List (PimCommand × Access) :=
  log.flatMap fun e => (e.2.filterMap (Cmd.access base)).map fun x => (e.1, x)

/-- What a launch may do: in each channel the unit runs the program to its end on what the kernel shows
    it, and the channels take turns. -/
def EltRuns (l : EltLaunch) (program : List PimCommand) (base : Buf → ℤ)
    (u : List (PimCommand × Access)) : Prop :=
  ∃ log : Fin 64 → List (PimCommand × List Cmd),
    (∀ ch : Fin 64, ∃ session, habPimSessions none (columns (l.kernel ch)) = [session] ∧
      Serves (unitStep program) {} session (log ch)) ∧
    Shuffle (List.finRange 64) (fun ch => unitEvents base (log ch)) u

def execute (exec : PimCommand → Access → PimState B → PimState B) (u : List (PimCommand × Access))
    (s : PimState B) : PimState B := u.foldl (fun s e => exec e.1 e.2 s) s

/-- The launch's instructions with the commands they take, tile by tile. -/
theorem launch_serves (l : EltLaunch) (is_gemv_tile_tree_ : Bool) (cmds_ : List PimCommand) {k : ℕ}
    (hk : k < 2 ^ 17) (htiles : l.num_tile = k + 1) (ch : ℕ) :
    ∃ session, habPimSessions none (columns (l.kernel ch)) = [session] ∧
      Serves (unitStep (loaded (create_pim_cmd is_gemv_tile_tree_ cmds_ l.op_type k))) {} session
        ((List.range (k + 1)).flatMap (tileLog l ch)) := by
  obtain ⟨post, hloaded⟩ := l.loaded_eq is_gemv_tile_tree_ cmds_ k
  refine ⟨_, l.sessions ch, ?_⟩
  have hcount : l.num_tile.toNat = k + 1 := by omega
  obtain ⟨taken, -, hruns⟩ :=
    (feeds_of_covers (l.covers ch 0)).1.loop [] (ctrl .EXIT 0 :: post) k (fun _ => 0) rfl
  rw [hloaded, hcount, field_eq (Int.natCast_nonneg k) (by exact_mod_cast hk) (by norm_num)]
  refine Runs.serves hruns (by simp [unitStep, ctrl]) (serve_flatMap fun i _ => ?_)
  have hlen : l.body.length = ((l.groups ch i).map dataColumns).length := by
    rw [List.length_map]
    exact (l.covers ch i).length_eq
  have hcut : dataColumns (l.tile ch i) = ((l.groups ch i).map dataColumns).flatten := by
    rw [← l.groups_flatten, List.flatten_eq_flatMap, dataColumns_flatMap, List.flatMap_def]
    rfl
  rw [← l.groups_lengths ch i, hcut, tileLog, ← serve_zip hlen, List.map_map]
  rfl

/-! ### Memory after a launch -/

/-- A transaction of the tiles of the output. -/
def InTiles (base : Buf → ℤ) (n : ℕ) (x : ℤ) : Prop :=
  base .output ≤ x ∧ x < base .output + 2 ^ 18 * n ∧ 32 ∣ x - base .output

instance (base : Buf → ℤ) (n : ℕ) (x : ℤ) : Decidable (InTiles base n x) :=
  inferInstanceAs (Decidable (_ ∧ _ ∧ _))

/-- The operation of the operands over `n` tiles. -/
def computed (alu : Alu B) (base : Buf → ℤ) (l : EltLaunch) (n : ℕ) (m : ℤ → B) (x : ℤ) : B :=
  if InTiles base n x then elementwise alu l (m (base (operand_bufs l).1 + (x - base .output)))
    (m (base (operand_bufs l).2 + (x - base .output)))
  else m x

/-- The buffer is the output, or ends before it or begins after it. -/
def Clear (base : Buf → ℤ) (n : ℕ) (buf : Buf) : Prop :=
  base buf = base .output ∨ base buf + 2 ^ 18 * n ≤ base .output ∨ base .output + 2 ^ 18 * n ≤ base buf

instance (base : Buf → ℤ) (n : ℕ) (buf : Buf) : Decidable (Clear base n buf) :=
  inferInstanceAs (Decidable (_ ∨ _ ∨ _))

/-- Buffers for `n` tiles: they start at tiles, and what is read is the output itself or apart from it. -/
structure EltBuffers (l : EltLaunch) (base : Buf → ℤ) (n : ℕ) : Prop extends Aligned l base where
  first_clear : Clear base n (operand_bufs l).1
  second_clear : Clear base n (operand_bufs l).2

theorem inTiles_iff {base : Buf → ℤ} (hbase : 2 ^ 18 ∣ base .output) {n : ℕ} {x : ℤ} :
    InTiles base n x ↔ ∃ i < n, x = base .output + place (regOf x) i := by
  constructor
  · rintro ⟨hlo, hhi, hdvd⟩
    obtain ⟨r, i, hplace⟩ := exists_place (by omega : 0 ≤ x - base .output) hdvd
    have hbounds := place_bounds r i
    have hx : x = base .output + place r i := by omega
    have hr : regOf x = r := by rw [hx, regOf_place hbase]
    exact ⟨i, by omega, by rw [hr, ← hx]⟩
  · rintro ⟨i, hi, hx⟩
    have hbounds := place_bounds (regOf x) i
    have hdvd : 32 ∣ place (regOf x) i := by
      rw [place]
      omega
    rw [InTiles]
    generalize place (regOf x) i = p at hx hbounds hdvd
    omega

/-- The transactions of different tiles are apart. -/
theorem place_inj {r : Reg} {i j : ℕ} (h : place r i = place r j) : i = j := by
  rw [place, place] at h
  omega

/-- What is read for a tile is not what is written for another one. -/
theorem Clear.ne {base : Buf → ℤ} {n : ℕ} {buf : Buf} (h : Clear base n buf) (r : Reg) {i j : ℕ}
    (hi : i < n) (hj : j < n) (hij : i ≠ j) : base buf + place r i ≠ base .output + place r j := by
  have hbi := place_bounds r i
  have hbj := place_bounds r j
  intro heq
  rcases h with h | h | h
  · exact hij (place_inj (r := r) (by omega))
  · omega
  · omega

/-- One register, over all tiles, brings its own transactions up to date. -/
theorem tiles_mem (alu : Alu B) {base : Buf → ℤ} {l : EltLaunch} {n : ℕ} (h : EltBuffers l base n) (r : Reg)
    (s : PimState B) :
    ((by_thread r ((List.range n).flatMap fun i => tileOps alu base l (place r i))).foldl step s).mem =
      fun x => if regOf x = r then computed alu base l n s.mem x else s.mem x := by
  set loc : ℕ → ℤ := fun i => base .output + place r i with hloc
  set val : ℕ → (ℤ → B) → B := fun i m => elementwise alu l (m (base (operand_bufs l).1 + place r i))
    (m (base (operand_bufs l).2 + place r i)) with hval
  have hsplit : by_thread r ((List.range n).flatMap fun i => tileOps alu base l (place r i)) =
      (List.range n).flatMap fun i => by_thread r (tileOps alu base l (place r i)) := by
    simp [by_thread, List.map_flatMap]
  rw [hsplit, foldl_flatMap_mem (g := fun i m => Function.update m (loc i) (val i m)) fun i _ s =>
    tileOps_mem alu base l r (place r i) s]
  funext x
  by_cases hx : ∃ i < n, x = base .output + place r i
  · obtain ⟨i, hi, rfl⟩ := hx
    have hr : regOf (base .output + place r i) = r := regOf_place h.output r i
    have hin : InTiles base n (base .output + place r i) :=
      (inTiles_iff h.output).mpr ⟨i, hi, by rw [hr]⟩
    have hsub : base .output + place r i - base .output = place r i := add_sub_cancel_left _ _
    rw [if_pos hr, computed, if_pos hin, hsub]
    refine foldl_update List.nodup_range (fun i _ j _ hij => ?_) (fun i hi j hj hij m v => ?_) s.mem
      (List.mem_range.mpr hi)
    · exact place_inj (r := r) (by simpa [hloc] using hij)
    · have hi := List.mem_range.mp hi
      have hj := List.mem_range.mp hj
      simp only [hval, hloc, Function.update_of_ne (h.first_clear.ne r hi hj hij),
        Function.update_of_ne (h.second_clear.ne r hi hj hij)]
  · rw [foldl_update_frame fun i hi heq => hx ⟨i, List.mem_range.mp hi, heq.symm⟩]
    split_ifs with hr
    · refine (if_neg fun hin => hx ?_).symm
      obtain ⟨i, hi, heq⟩ := (inTiles_iff h.output).mp hin
      exact ⟨i, hi, by rw [← hr, ← heq]⟩
    · rfl

/-- A register's transactions depend on that register's transactions only. -/
theorem computed_local (alu : Alu B) {base : Buf → ℤ} {l : EltLaunch} (h : Aligned l base) (n : ℕ)
    (m m' : ℤ → B) (x : ℤ) (hm : ∀ y, some (regOf y) = none ∨ some (regOf y) = some (regOf x) → m y = m' y) :
    computed alu base l n m x = computed alu base l n m' x := by
  rw [computed, computed]
  split_ifs with hx
  · obtain ⟨i, -, heq⟩ := (inTiles_iff h.output).mp hx
    have hsub : x - base .output = place (regOf x) i := by omega
    rw [hsub, hm _ (.inr (congrArg some (regOf_place h.first _ i))),
      hm _ (.inr (congrArg some (regOf_place h.second _ i)))]
  · exact hm x (.inr rfl)

/-! ### The result -/

/-- An access acts on registers of its channel, and each goes through its own transaction. -/
theorem meant_ops {alu : Alu B} {ch : Fin 64} {e : PimCommand × Access} (h : Meant ch e)
    {o : Reg × RegOp B} (ho : o ∈ blockOps alu e.1 e.2) :
    o.1.chan = ch ∧ Keeps (fun a => some (regOf a)) o.1 o.2 := by
  obtain ⟨c, x⟩ := e
  obtain ⟨base, side, i, g, hbase, hi, haddr⟩ := h.placed
  have hblocks : ∀ {f : ℤ → RegOp B}, (∀ p a, (f p).Reads a ∨ (f p).Writes a → a = p) →
      o ∈ inBlocks x.addr f → o.1.chan = ch ∧ Keeps (fun a => some (regOf a)) o.1 o.2 := by
    intro f hf ho
    rw [haddr, inBlocks_tileAddr hbase side ch g hi] at ho
    obtain ⟨b, -, rfl⟩ := List.mem_map.mp ho
    have hown := congrArg some (regOf_place hbase ⟨ch, b, side, g⟩ i)
    exact ⟨rfl, fun a ha => .inr (by rw [hf _ a (.inl ha), hown]), fun a ha => by
      rw [hf _ a (.inr ha), hown]⟩
  cases x with
  | W a =>
    have hstore : ∀ p a, (Op.store p id : RegOp B).Reads a ∨ (Op.store p id : RegOp B).Writes a →
        a = p := by
      simp [Op.Reads, Op.Writes, eq_comm]
    exact hblocks hstore ho
  | R a =>
    rw [blockOps] at ho
    cases hop : readOp alu c (sideOf a) with
    | none => simp [hop] at ho
    | some f => exact hblocks (fun p a' ha => readOp_at hop ha) (by simpa [hop, Access.addr] using ho)

theorem unit_meant {base : Buf → ℤ} {l : EltLaunch} (h : Aligned l base) {n : ℕ} (hn : n ≤ 2 ^ 28)
    (ch : Fin 64) {e : PimCommand × Access}
    (he : e ∈ unitEvents base ((List.range n).flatMap (tileLog l ch))) : Meant ch e := by
  obtain ⟨d, hd, he⟩ := List.mem_flatMap.mp he
  obtain ⟨i, hi, hd⟩ := List.mem_flatMap.mp hd
  obtain ⟨x, hx, rfl⟩ := List.mem_map.mp he
  exact tile_meant h ch ((List.mem_range.mp hi).trans_le hn) d hd x hx

/-- What a register's channel does to it. -/
theorem unit_touches (alu : Alu B) {base : Buf → ℤ} {l : EltLaunch} (h : Aligned l base) (r : Reg) {n : ℕ}
    (hn : n ≤ 2 ^ 28) :
    (unitEvents base ((List.range n).flatMap (tileLog l r.chan))).flatMap
      (fun e => proj r (blockOps alu e.1 e.2)) =
        (List.range n).flatMap fun i => tileOps alu base l (place r i) := by
  have hunit : ∀ log, (unitEvents base log).flatMap (fun e => proj r (blockOps alu e.1 e.2)) =
      log.flatMap fun e => touch alu base r e.1 e.2 := by
    intro log
    simp only [unitEvents, List.flatMap_assoc, List.flatMap_map, touch]
  rw [hunit, List.flatMap_assoc]
  exact List.flatMap_congr fun i hi => tile_touches alu h r ((List.mem_range.mp hi).trans_le hn)

/-- Every run of a launch leaves the operation of the operands in every transaction of the output's tiles,
    and the rest of memory as it was. -/
theorem elt_runs_mem {alu : Alu B} {exec : PimCommand → Access → PimState B → PimState B}
    (hexec : Documented alu exec) {l : EltLaunch} {is_gemv_tile_tree_ : Bool} {cmds_ : List PimCommand}
    {lc : ℤ} (h0 : 0 ≤ lc) (hlc : lc < 2 ^ 17) (htiles : l.num_tile = lc + 1) {base : Buf → ℤ}
    (hbase : EltBuffers l base l.num_tile.toNat) {u : List (PimCommand × Access)}
    (hu : EltRuns l (loaded (create_pim_cmd is_gemv_tile_tree_ cmds_ l.op_type lc)) base u)
    (s : PimState B) :
    (execute exec u s).mem = computed alu base l l.num_tile.toNat s.mem := by
  obtain ⟨k, rfl⟩ := Int.eq_ofNat_of_zero_le h0
  obtain ⟨log, hlog, hu⟩ := hu
  have hk : k < 2 ^ 17 := by exact_mod_cast hlc
  have hcount : l.num_tile.toNat = k + 1 := by omega
  rw [hcount] at hbase ⊢
  have hlog : ∀ ch : Fin 64, log ch = (List.range (k + 1)).flatMap (tileLog l ch) := by
    intro ch
    obtain ⟨session, hsession, hserves⟩ := hlog ch
    obtain ⟨session', hsession', hserves'⟩ := launch_serves l is_gemv_tile_tree_ cmds_ hk htiles ch
    obtain rfl : session = session' := by
      rw [hsession] at hsession'
      exact (List.cons.inj hsession').1
    exact hserves.unique hserves'
  simp only [hlog] at hu
  have hmeant : ∀ ch : Fin 64, ∀ e ∈ unitEvents base ((List.range (k + 1)).flatMap (tileLog l ch)),
      Meant ch e := fun ch e he => unit_meant hbase.toAligned (by omega) ch he
  have hops : ∀ e ∈ u.flatMap fun e => blockOps alu e.1 e.2, Keeps (fun a => some (regOf a)) e.1 e.2 := by
    intro o ho
    obtain ⟨e, he, ho⟩ := List.mem_flatMap.mp ho
    obtain ⟨ch, -, he⟩ := hu.mem he
    exact (meant_ops (hmeant ch e he) ho).2
  have hblocks : execute exec u s = (u.flatMap fun e => blockOps alu e.1 e.2).foldl step s := by
    rw [execute, List.foldl_flatMap]
    refine List.foldl_ext _ _ s fun s e he => ?_
    obtain ⟨ch, -, he⟩ := hu.mem he
    exact hexec.exec_eq (hmeant ch e he).fits s
  rw [hblocks]
  funext x
  refine (run_owned (Finset.nodup_toList (Finset.univ : Finset Reg)) (by simp) hops
    (computed_local alu hbase.toAligned (k + 1)) (fun r _ s => ?_) s x).trans (if_pos (by simp))
  have hproj : proj r (u.flatMap fun e => blockOps alu e.1 e.2) =
      (List.range (k + 1)).flatMap fun i => tileOps alu base l (place r i) := by
    rw [proj_flatMap, hu.flatMap_eq (List.mem_finRange r.chan) fun ch _ hch e he => ?_]
    · exact unit_touches alu hbase.toAligned r (by omega)
    · refine List.eq_nil_iff_forall_not_mem.mpr fun o ho => hch ?_
      exact (meant_ops (hmeant ch e he) (mem_proj.mp ho)).1.symm
  rw [hproj]
  simpa only [Option.some.injEq] using tiles_mem alu hbase r s

/-! ### The entry points -/

/-- The counter that the program is built with, and the tiles that the kernel walks. -/
theorem entry_tiles (op : EltEntry) (is_gemv_tile_tree_ : Bool) {size : UInt64}
    (hsize : 262144 ≤ output_size size) (hwhole : op.roundsUp = true → 262144 ∣ output_size size) :
    get_loop_counter is_gemv_tile_tree_ (op.execute size).op_type (output_size size) =
      output_size size / 262144 - 1 ∧ (op.execute size).num_tile = output_size size / 262144 := by
  have hop : (op.execute size).op_type ≠ .OP_GEMV := by cases op <;> exact fun h => by cases h
  have hlt : output_size size < 2 ^ 31 := int32_lt _
  obtain ⟨m, hm⟩ := Int.eq_ofNat_of_zero_le (by omega : 0 ≤ output_size size)
  rw [num_tile_eq]
  rw [hm] at hsize hwhole hlt ⊢
  rw [loop_counter_of_nat hop _ (by omega)]
  refine ⟨by push_cast; norm_num, ?_⟩
  cases hup : op.roundsUp with
  | false => rfl
  | true =>
    have hdvd := hwhole hup
    rw [if_pos rfl, ← (round_up_iff (by omega)).mpr (by omega)]
    rfl

/-- The result of an element-wise call: over the whole tiles of the buffer, in whatever order the channels
    are served, the output holds the operation of the operands; what is left of the buffer behind the last
    whole tile is not written. -/
theorem execute_elt_result {alu : Alu B} {exec : PimCommand → Access → PimState B → PimState B}
    (hexec : Documented alu exec) (op : EltEntry) (is_gemv_tile_tree_ : Bool) (cmds_ : List PimCommand)
    (size : UInt64) (hsize : 262144 ≤ output_size size)
    (hwhole : op.roundsUp = true → 262144 ∣ output_size size) (base : Buf → ℤ)
    (hbase : EltBuffers (op.execute size) base (output_size size / 262144).toNat) (s : PimState B) :
    (∃ u, EltRuns (op.execute size) (loaded (op.crf is_gemv_tile_tree_ cmds_ size)) base u) ∧
      ∀ u, EltRuns (op.execute size) (loaded (op.crf is_gemv_tile_tree_ cmds_ size)) base u →
        (execute exec u s).mem =
          computed alu base (op.execute size) (output_size size / 262144).toNat s.mem := by
  obtain ⟨hlc, htiles⟩ := entry_tiles op is_gemv_tile_tree_ hsize hwhole
  have hlt : output_size size < 2 ^ 31 := int32_lt _
  obtain ⟨k, hk⟩ := Int.eq_ofNat_of_zero_le (by omega : 0 ≤ output_size size / 262144 - 1)
  rw [EltEntry.crf, hlc]
  rw [← htiles] at hbase ⊢
  constructor
  · have hserves := launch_serves (op.execute size) is_gemv_tile_tree_ cmds_ (k := k) (by omega) (by omega)
    rw [htiles, hk]
    exact ⟨_, _, fun ch => hserves ch, shuffle_sequential (List.nodup_finRange 64) _⟩
  · intro u hu
    exact elt_runs_mem hexec (by omega) (by omega) (by omega) hbase hu s

/-- Integers as vectors. -/
def intAlu : Alu ℤ := ⟨(· + ·), (· * ·), max 0, fun i x => i + x⟩

/-- Three buffers of one tile. -/
def threeTiles : Buf → ℤ
  | .operand1 => 2 ^ 18
  | .output => 2 ^ 19
  | _ => 0

/-- The sum of two tiles of ones. -/
theorem execute_elt_result_small : ∃ u, EltRuns (execute_add 262144)
    (loaded (EltEntry.add.crf false [] 262144)) threeTiles u ∧
      (execute (fun c x s => (blockOps intAlu c x).foldl step s) u ⟨fun _ => 0, fun _ => 1⟩).mem
        (2 ^ 19 + 32) = 2 := by
  have hsize : output_size 262144 = 262144 := by decide
  obtain ⟨⟨u, hu⟩, hall⟩ := execute_elt_result (documented_blockOps intAlu) .add false []
    262144 (by rw [hsize]) (fun _ => by rw [hsize]) threeTiles (by
      rw [hsize]
      refine ⟨⟨?_, ?_, ?_⟩, ?_, ?_⟩ <;> decide) ⟨fun _ => 0, fun _ => 1⟩
  refine ⟨u, hu, ?_⟩
  rw [hall u hu, hsize]
  decide

end PimLibrary.Executor
