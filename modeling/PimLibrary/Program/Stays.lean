import PimLibrary.Program.GemvLockstep
import PimLibrary.Program.MacPath

/-! What the units of a GEMM kernel do, event by event.

    A stay in HAB_PIM mode lasts from the switch to the switch back. In it the unit takes the writes to
    the control row as they come, and the accesses to data each with the instruction whose turn it is.
    The GEMV program turns every in-tile into eight loads of `GRF_A` and sixty-four MACs, and the partial
    sums into stores. -/

namespace PimLibrary.Program
open Schemes.Lockstep Schemes.Loop Schemes.Word PimLibrary.Kernel PimLibrary.Device
open PimLibrary.Program.PimCommand

attribute [local irreducible] int32

/-! ### Stays -/

/-- The commands of each stay, from the switch on. The first argument holds the ones of the current stay,
    if there is one. -/
def stays : Option (List Cmd) → List Cmd → List (List Cmd)
  | none, [] => []
  | some cur, [] => [cur]
  | none, c :: cs => stays (if c.modeWrite = some true then some [c] else none) cs
  | some cur, c :: cs =>
    if c.modeWrite = some false then cur :: stays none cs else stays (some (cur ++ [c])) cs

theorem stays_idle {cs rest : List Cmd} (h : ∀ c ∈ cs, c.modeWrite ≠ some true) :
    stays none (cs ++ rest) = stays none rest := by
  induction cs with
  | nil => rfl
  | cons c cs ih =>
    rw [List.cons_append, stays, if_neg (h c List.mem_cons_self),
      ih fun c' hc' => h c' (List.mem_cons_of_mem _ hc')]

theorem stays_stay {cur cs rest : List Cmd} (h : ∀ c ∈ cs, c.modeWrite ≠ some false) :
    stays (some cur) (cs ++ rest) = stays (some (cur ++ cs)) rest := by
  induction cs generalizing cur with
  | nil => simp
  | cons c cs ih =>
    rw [List.cons_append, stays, if_neg (h c List.mem_cons_self),
      ih fun c' hc' => h c' (List.mem_cons_of_mem _ hc')]
    simp

theorem stays_silent {pre : List Stmt} (h : Silent pre) (rest : List Cmd) :
    stays none (columns pre ++ rest) = stays none rest :=
  stays_idle fun c hc => by simp [h.columns hc]

/-- A stay begins with the first column of the switch and ends before the first one of the switch back. -/
theorem stays_stmts {enter leave : Stmt} {body : List Stmt} (henter : enter.Switches true)
    (hbody : Silent body) (hleave : leave.Switches false) (rest : List Cmd) :
    stays none (columns (enter :: (body ++ [leave])) ++ rest) =
      (columns (enter :: body)) :: stays none rest := by
  obtain ⟨ins, hin, hins⟩ := columns_of_active henter.1
  obtain ⟨outs, hout, houts⟩ := columns_of_active hleave.1
  have hsplit : columns (enter :: (body ++ [leave])) ++ rest =
      enter.cmd 0 :: ((ins ++ columns body) ++ leave.cmd 0 :: (outs ++ rest)) := by
    rw [← List.singleton_append, columns_append, columns_append, hin, hout]
    simp
  have hstay : ∀ c ∈ ins ++ columns body, c.modeWrite ≠ some false := by
    intro c hc
    rcases List.mem_append.mp hc with hc | hc
    · obtain ⟨t, rfl⟩ := hins c hc
      simp [henter.2.2]
    · simp [hbody.columns hc]
  have hquiet : ∀ c ∈ outs, c.modeWrite ≠ some true := by
    intro c hc
    obtain ⟨t, rfl⟩ := houts c hc
    simp [hleave.2.2]
  have hcur : columns (enter :: body) = [enter.cmd 0] ++ (ins ++ columns body) := by
    rw [← List.singleton_append, columns_append, hin]
    simp
  rw [hsplit, stays, if_pos (henter.2.2 0), stays_stay hstay, stays, if_pos (hleave.2.2 0),
    stays_idle hquiet, hcur]

/-! ### Events -/

/-- What the unit does on commands, the instructions in turn. -/
def stayEvents (base : Buf → ℤ) : List PimCommand → List Cmd → List UnitEvent
  | _, [] => []
  | cmds, c :: cs =>
    if c.isData then
      match cmds, Cmd.access base c with
      | cmd :: cmds, some x => .exec cmd x :: stayEvents base cmds cs
      | cmds, _ => stayEvents base cmds cs
    else
      match c with
      | .WR _ addr src => .control addr src :: stayEvents base cmds cs
      | _ => stayEvents base cmds cs

/-- In a stay the program runs from its start exactly to EXIT. -/
def StayRuns (program : List PimCommand) (base : Buf → ℤ) (stay : List Cmd) (es : List UnitEvent) : Prop :=
  ∃ log, Serves (unitStep program) {} (stay.filter Cmd.isData) log ∧
    es = stayEvents base (labels log) stay

/-- What the unit of a channel does in a kernel. -/
def UnitRuns (program : List PimCommand) (base : Buf → ℤ) (kernel : List Stmt) (es : List UnitEvent) :
    Prop :=
  ∃ ess, List.Forall₂ (StayRuns program base) (stays none (columns kernel)) ess ∧ es = ess.flatten

theorem stayEvents_append (base : Buf → ℤ) {cmds : List PimCommand} {cs : List Cmd}
    (h : cmds.length = (cs.filter Cmd.isData).length) (cmds' : List PimCommand) (cs' : List Cmd) :
    stayEvents base (cmds ++ cmds') (cs ++ cs') = stayEvents base cmds cs ++ stayEvents base cmds' cs' := by
  induction cs generalizing cmds with
  | nil =>
    obtain rfl : cmds = [] := List.length_eq_zero_iff.mp h
    rfl
  | cons c cs ih =>
    by_cases hdata : c.isData = true
    · rw [List.filter_cons_of_pos hdata, List.length_cons] at h
      obtain ⟨cmd, cmds, rfl⟩ := List.exists_cons_of_length_eq_add_one h
      have haccess : ∃ x, Cmd.access base c = some x := by
        cases c with
        | B => simp [Cmd.isData] at hdata
        | R => exact ⟨_, rfl⟩
        | W => exact ⟨_, rfl⟩
        | WR => exact ⟨_, rfl⟩
      obtain ⟨x, hx⟩ := haccess
      simp [stayEvents, hdata, hx, ih (Nat.succ.inj h)]
    · rw [List.filter_cons_of_neg hdata] at h
      cases c <;> simp [stayEvents, hdata, ih h]

/-- The statements use the instructions up, and the unit does `es` on them. -/
structure Takes (base : Buf → ℤ) (cmds : List PimCommand) (stmts : List Stmt) (es : List UnitEvent) :
    Prop where
  length : cmds.length = (dataColumns stmts).length
  events : stayEvents base cmds (columns stmts) = es

section Takes

variable {base : Buf → ℤ}

theorem Takes.nil : Takes base [] [] [] := ⟨rfl, rfl⟩

theorem Takes.of_eq {cmds : List PimCommand} {stmts : List Stmt} {es es' : List UnitEvent}
    (h : Takes base cmds stmts es) (he : es = es') : Takes base cmds stmts es' := he ▸ h

theorem Takes.append {cmds cmds' : List PimCommand} {stmts stmts' : List Stmt} {es es' : List UnitEvent}
    (h : Takes base cmds stmts es) (h' : Takes base cmds' stmts' es') :
    Takes base (cmds ++ cmds') (stmts ++ stmts') (es ++ es') := by
  constructor
  · rw [dataColumns_append, List.length_append, List.length_append, h.length, h'.length]
  · rw [columns_append, stayEvents_append base h.length, h.events, h'.events]

theorem Takes.flatMap {κ : Type*} {l : List κ} {cmds : κ → List PimCommand} {stmts : κ → List Stmt}
    {es : κ → List UnitEvent} (h : ∀ k ∈ l, Takes base (cmds k) (stmts k) (es k)) :
    Takes base (l.flatMap cmds) (l.flatMap stmts) (l.flatMap es) := by
  induction l with
  | nil => exact .nil
  | cons k l ih => exact (h k List.mem_cons_self).append (ih fun j hj => h j (List.mem_cons_of_mem k hj))

/-- The writes among commands that do not advance the unit. -/
def controlEvent : Cmd → Option UnitEvent
  | .WR _ addr src => some (.control addr src)
  | _ => none

theorem takes_idle {s : Stmt} (h : s.Idle) :
    Takes base [] [s] (s.columns.filterMap controlEvent) := by
  refine ⟨by rw [h.dataColumns]; rfl, ?_⟩
  have hcols : ∀ cs : List Cmd, (∀ c ∈ cs, c.isData = false) →
      stayEvents base [] cs = cs.filterMap controlEvent := by
    intro cs
    induction cs with
    | nil => exact fun _ => rfl
    | cons c cs ih =>
      intro hcs
      have hc := hcs c List.mem_cons_self
      have hrest := ih fun c' hc' => hcs c' (List.mem_cons_of_mem c hc')
      cases c <;> simp [stayEvents, controlEvent, List.filterMap_cons, hc, hrest]
  rw [columns_singleton]
  refine hcols _ fun c hc => ?_
  obtain ⟨g, -, rfl⟩ := List.mem_map.mp hc
  exact h _

theorem takes_data {s : Stmt} {n : ℕ} (h : ∀ t, (s.cmd t).isData = true) (hn : s.columns.length = n)
    (cmd : PimCommand) : Takes base (List.replicate n cmd) [s]
      ((s.columns.filterMap (Cmd.access base)).map (.exec cmd)) := by
  subst hn
  have hcols : ∀ cs : List Cmd, (∀ c ∈ cs, c.isData = true) →
      stayEvents base (List.replicate cs.length cmd) cs =
        (cs.filterMap (Cmd.access base)).map (.exec cmd) := by
    intro cs
    induction cs with
    | nil => exact fun _ => rfl
    | cons c cs ih =>
      intro hcs
      have hc := hcs c List.mem_cons_self
      have hrest := ih fun c' hc' => hcs c' (List.mem_cons_of_mem c hc')
      cases c with
      | B => simp [Cmd.isData] at hc
      | _ => simp [stayEvents, List.replicate_succ, Cmd.access, hc, hrest]
  refine ⟨?_, ?_⟩
  · rw [dataColumns_data h, List.length_replicate]
    rfl
  · rw [columns_singleton]
    refine hcols _ fun c hc => ?_
    obtain ⟨g, -, rfl⟩ := List.mem_map.mp hc
    exact h _

theorem columns_sixteen {s : Stmt} (h : s.active = 16) :
    s.columns = (List.finRange 8).map fun g : Fin 8 => s.cmd (2 * g) := by
  rw [Stmt.columns, h, show (List.range (16 / 2)) = (List.finRange 8).map Fin.val from
    (List.map_coe_finRange_eq_range).symm, List.map_map]
  rfl

theorem offset_even (g : ℕ) : offset (2 * g) = 0 := by simp [offset]

theorem takes_B (type : ℕ) : Takes base [] [B_CMD 16 type] [] :=
  (takes_idle (idle_B_CMD 16 type)).of_eq <| by
    rw [columns_sixteen rfl, List.filterMap_map]
    exact List.filterMap_eq_nil_iff.mpr fun g _ => rfl

theorem takes_control (ch bank : ℕ) (col : ℕ → ℕ) :
    Takes base [] [R_CMD 16 .pim_ctr fun t => addr_gen ch 0 0 bank 0x3fff (col t)] [] :=
  (takes_idle (idle_control ch bank 16 col)).of_eq <| by
    rw [columns_sixteen rfl, List.filterMap_map]
    exact List.filterMap_eq_nil_iff.mpr fun g _ => rfl

theorem takes_control_write (ch bank : ℕ) (col : ℕ → ℕ) (src : ℕ → Src) :
    Takes base [] [W_CMD_R 16 .pim_ctr (fun t => addr_gen ch 0 0 bank 0x3fff (col t)) src]
      ((List.finRange 8).map fun g : Fin 8 =>
        .control (addr_gen ch 0 0 bank 0x3fff (col (2 * g)) : ℕ) (src (2 * g))) :=
  (takes_idle (idle_control_write ch bank 16 col src)).of_eq <| by
    rw [columns_sixteen rfl, List.filterMap_map]
    simp [Function.comp_def, W_CMD_R, controlEvent, offset_even]

theorem takes_R {buf : Buf} (hbuf : buf ≠ .pim_ctr) (cmd : PimCommand) (a : ℕ → ℤ) :
    Takes base (List.replicate 8 cmd) [R_CMD 16 buf a]
      ((List.finRange 8).map fun g : Fin 8 => .exec cmd (.R (base buf + a (2 * g)))) := by
  have hdata : ∀ t, ((R_CMD 16 buf a).cmd t).isData = true := fun t => by
    cases buf <;> simp_all [R_CMD, Cmd.isData, Cmd.isControl]
  refine (takes_data hdata (by simp [Stmt.columns, R_CMD]) cmd).of_eq ?_
  rw [columns_sixteen rfl, List.filterMap_map]
  simp [Function.comp_def, R_CMD, Cmd.access, offset_even]

theorem takes_W {buf : Buf} (hbuf : buf ≠ .pim_ctr) (cmd : PimCommand) (a : ℕ → ℤ) :
    Takes base (List.replicate 8 cmd) [W_CMD 16 buf a]
      ((List.finRange 8).map fun g : Fin 8 => .exec cmd (.W (base buf + a (2 * g)))) := by
  have hdata : ∀ t, ((W_CMD 16 buf a).cmd t).isData = true := fun t => by
    cases buf <;> simp_all [W_CMD, Cmd.isData, Cmd.isControl]
  refine (takes_data hdata (by simp [Stmt.columns, W_CMD]) cmd).of_eq ?_
  rw [columns_sixteen rfl, List.filterMap_map]
  simp [Function.comp_def, W_CMD, Cmd.access, offset_even]

end Takes

/-! ### The events of a session -/

/-- The weight that accumulator `j` is multiplied with in block 0 when `gidx` is read. -/
def weightAddr (ch : ℕ) (s : Session) (side : Side) (i_idx j g : ℕ) : ℤ :=
  s.weight + addr_gen ch 0 0 side.num
    (toUint32 (if j < 4 then even_row s i_idx else odd_row s i_idx)) (g + 8 * (j % 4))

section Session

variable (base : Buf → ℤ) (ch : ℕ) (s : Session)

/-- An in-tile: eight registers of `GRF_A`, then eight products for each accumulator. -/
def tileEvents (side : Side) (i_idx : ℕ) : List UnitEvent :=
  ((List.finRange 8).map fun g : Fin 8 => .control (addr_gen ch 0 0 side.num 0x3fff (0x8 + g) : ℕ)
      (.mem .input (s.input + i_addr s i_idx g))) ++
    (List.finRange 8).flatMap fun j : Fin 8 => (List.finRange 8).map fun g : Fin 8 =>
      .exec (mac side.bank) (.R (base .weight + weightAddr ch s side i_idx j g))

/-- The accumulators, written out twice and read once. -/
def sumEvents : List UnitEvent :=
  ((List.finRange 8).map fun g : Fin 8 =>
      .exec (ctrl .NOP 23) (.W (base .pim_partial_sum + partial_addr ch s g))) ++
    ((List.finRange 8).map fun g : Fin 8 =>
      .exec (ctrl .NOP 23) (.W (base .pim_partial_sum + partial_addr ch s g))) ++
    (List.finRange 8).map fun g : Fin 8 =>
      .exec (ctrl .NOP 23) (.R (base .pim_partial_sum + partial_addr ch s g))

def sessionEvents (evens odds : List ℕ) : List UnitEvent :=
  ((List.finRange 8).map fun _ =>
      .control (addr_gen ch 0 0 0 0x3fff 0x0 : ℕ) .gemv_hab_to_hab_pim) ++
    evens.flatMap (tileEvents base ch s .even) ++ odds.flatMap (tileEvents base ch s .odd) ++
    sumEvents base ch s

theorem takes_weight_read (side : Side) (row : ℤ) (col : ℕ) :
    Takes base (List.replicate 8 (mac side.bank)) [weight_read ch s side.num row col]
      ((List.finRange 8).map fun g : Fin 8 => .exec (mac side.bank)
        (.R (base .weight + (s.weight + addr_gen ch 0 0 side.num (toUint32 row) (g + col))))) :=
  (takes_R (by simp) (mac side.bank) _).of_eq <| by simp [gidx]

theorem takes_mac_tile (side : Side) (i_idx : ℕ) :
    Takes base (List.replicate 64 (mac side.bank)) (mac_tile ch s side.num i_idx)
      (tileEvents base ch s side i_idx) := by
  have hload : Takes base [] [W_CMD_R 16 .pim_ctr
      (fun t => addr_gen ch 0 0 side.num 0x3fff (0x8 + gidx t))
      fun t => .mem .input (s.input + i_addr s i_idx (gidx t) + offset t)]
      ((List.finRange 8).map fun g : Fin 8 => .control (addr_gen ch 0 0 side.num 0x3fff (0x8 + g) : ℕ)
        (.mem .input (s.input + i_addr s i_idx g))) :=
    (takes_control_write ch side.num _ _).of_eq <| by simp [gidx, offset_even]
  have hread := takes_weight_read base ch s side
  have hall := hload.append ((takes_control ch side.num fun t => 0x8 + gidx t).append
    ((takes_B 1).append ((hread (even_row s i_idx) 0).append ((hread (even_row s i_idx) 8).append
    ((hread (even_row s i_idx) 16).append ((hread (even_row s i_idx) 24).append
    ((hread (odd_row s i_idx) 0).append ((hread (odd_row s i_idx) 8).append
    ((hread (odd_row s i_idx) 16).append ((hread (odd_row s i_idx) 24).append (takes_B 1)))))))))))
  exact hall

theorem takes_sums : Takes base (List.replicate 24 (ctrl .NOP 23))
    [W_CMD 16 .pim_partial_sum fun t => partial_addr ch s (gidx t),
      W_CMD 16 .pim_partial_sum fun t => partial_addr ch s (gidx t),
      R_CMD 16 .pim_partial_sum fun t => partial_addr ch s (gidx t), B_CMD 16 1]
    (sumEvents base ch s) := by
  have hwrite : Takes base (List.replicate 8 (ctrl .NOP 23))
      [W_CMD 16 .pim_partial_sum fun t => partial_addr ch s (gidx t)]
      ((List.finRange 8).map fun g : Fin 8 =>
        .exec (ctrl .NOP 23) (.W (base .pim_partial_sum + partial_addr ch s g))) :=
    (takes_W (by simp) _ _).of_eq <| by simp [gidx]
  have hread : Takes base (List.replicate 8 (ctrl .NOP 23))
      [R_CMD 16 .pim_partial_sum fun t => partial_addr ch s (gidx t)]
      ((List.finRange 8).map fun g : Fin 8 =>
        .exec (ctrl .NOP 23) (.R (base .pim_partial_sum + partial_addr ch s g))) :=
    (takes_R (by simp) _ _).of_eq <| by simp [gidx]
  exact hwrite.append (hwrite.append (hread.append (takes_B 1)))

/-- What the instructions of the program make of a session and its switch. -/
theorem takes_session (evens odds : List ℕ) :
    Takes base (List.replicate (evens.length * 64) (mac .EVEN_BANK) ++
        List.replicate (odds.length * 64) (mac .ODD_BANK) ++ List.replicate 24 (ctrl .NOP 23))
      (W_CMD_R 16 .pim_ctr (fun _ => addr_gen ch 0 0 0 0x3fff 0x0) (fun _ => .gemv_hab_to_hab_pim) ::
        session_body ch s evens odds)
      (sessionEvents base ch s evens odds) := by
  have htiles : ∀ (side : Side) (tiles : List ℕ), Takes base
      (List.replicate (tiles.length * 64) (mac side.bank)) (tiles.flatMap (mac_tile ch s side.num))
      (tiles.flatMap (tileEvents base ch s side)) := fun side tiles => by
    have h : Takes base (tiles.flatMap fun _ => _) _ _ :=
      .flatMap fun i _ => takes_mac_tile base ch s side i
    rwa [flatMap_replicate_const] at h
  have hswitch : Takes base [] [_] _ :=
    takes_control_write ch 0 (fun _ => 0x0) fun _ => .gemv_hab_to_hab_pim
  have henter := hswitch.append ((takes_control ch 0 fun _ => 0x0).append (takes_B 1))
  exact ((henter.append (htiles .even evens)).append (htiles .odd odds)).append (takes_sums base ch s)

theorem stays_gemm_session (evens odds : List ℕ) (rest : List Cmd) :
    stays none (columns (gemm_session ch s evens odds) ++ rest) =
      columns (W_CMD_R 16 .pim_ctr (fun _ => addr_gen ch 0 0 0 0x3fff 0x0) (fun _ => .gemv_hab_to_hab_pim) ::
        session_body ch s evens odds) :: stays none rest := by
  have hshape : gemm_session ch s evens odds =
      ((W_CMD_R 16 .pim_ctr (fun _ => addr_gen ch 0 0 0 0x3fff 0x0) fun _ => .gemv_hab_to_hab_pim) ::
        (session_body ch s evens odds ++
          [W_CMD_R 16 .pim_ctr (fun _ => addr_gen ch 0 0 0 0x3fff 0x0) fun _ => .hab_pim_to_hab])) ++
        [R_CMD 16 .pim_ctr fun _ => addr_gen ch 0 0 0 0x3fff 0x0, B_CMD 16 1] := by
    simp [gemm_session, change_habpim_hab]
  have hquiet : Silent [R_CMD 16 .pim_ctr fun _ => addr_gen ch 0 0 0 0x3fff 0x0, B_CMD 16 1] := by simp
  rw [hshape, columns_append, List.append_assoc, stays_stmts (switches_gemv_hab_habpim ch (by norm_num))
    (silent_session_body ch s evens odds) (switches_habpim_hab ch (by norm_num)), stays_silent hquiet]

/-- The program does one thing in a session, and gets to its end. -/
theorem stayRuns_session (hweight : 2 ^ 14 ∣ s.weight) {k : ℕ} (hk : 0 < k) {evens odds : List ℕ}
    (he : evens.length = k) (ho : odds.length = k) (es : List UnitEvent) :
    StayRuns (gemvProgram (8 * k - 1) (8 * k - 1)) base
      (columns (W_CMD_R 16 .pim_ctr (fun _ => addr_gen ch 0 0 0 0x3fff 0x0)
        (fun _ => .gemv_hab_to_hab_pim) :: session_body ch s evens odds)) es ↔
      es = sessionEvents base ch s evens odds := by
  have hdata : (columns (W_CMD_R 16 .pim_ctr (fun _ => addr_gen ch 0 0 0 0x3fff 0x0)
      (fun _ => .gemv_hab_to_hab_pim) :: session_body ch s evens odds)).filter Cmd.isData =
      dataColumns (session_body ch s evens odds) :=
    (dataColumns_cons _ _).trans <| by rw [(switches_gemv_hab_habpim ch (by norm_num)).2.1.dataColumns]; rfl
  have htakes := (takes_session base ch s evens odds).events
  have hlabels : ∀ log, Serves (unitStep (gemvProgram (8 * k - 1) (8 * k - 1))) {}
      (dataColumns (session_body ch s evens odds)) log → labels log =
        List.replicate (evens.length * 64) (mac .EVEN_BANK) ++
          List.replicate (odds.length * 64) (mac .ODD_BANK) ++ List.replicate 24 (ctrl .NOP 23) := by
    intro log hlog
    obtain ⟨n, hn⟩ : ∃ n, 8 * k = n + 1 := ⟨8 * k - 1, by omega⟩
    have hcount : (8 * (k : ℤ) - 1) = (n : ℤ) := by omega
    rw [hcount] at hlog
    obtain ⟨taken, hruns⟩ := gemvProgram_runs n n
    have hlen : k * 64 = (n + 1) * 8 := by omega
    rw [hlog.labels_eq hruns (by simp [unitStep, gemvProgram, ctrl]), he, ho, hlen]
    simp only [List.flatMap_append, List.flatMap_assoc, List.flatMap_singleton, List.append_assoc,
      flatMap_replicate_const, List.length_range]
  rw [StayRuns, hdata]
  constructor
  · rintro ⟨log, hlog, rfl⟩
    rw [hlabels log hlog, htakes]
  · rintro rfl
    obtain ⟨fuel, ds, log, hds, hlog, -⟩ := session_lockstep ch hweight hk he ho
    have hserves : Serves _ _ _ log := ⟨fuel, ds, hds, hlog⟩
    exact ⟨log, hserves, by rw [hlabels log hserves, htakes]⟩

end Session

/-- The unit of a channel does its sessions one after another. -/
theorem unitRuns_sessions (base : Buf → ℤ) (ch : ℕ) {k : ℕ} (hk : 0 < k) {evens odds : List ℕ}
    (he : evens.length = k) (ho : odds.length = k) {sessions : List Session}
    (hweight : ∀ s ∈ sessions, 2 ^ 14 ∣ s.weight) {pre post : List Stmt} (hpre : Silent pre)
    (hpost : Silent post) (es : List UnitEvent) :
    UnitRuns (gemvProgram (8 * k - 1) (8 * k - 1)) base
      (pre ++ sessions.flatMap (fun s => gemm_session ch s evens odds) ++ post) es ↔
      es = sessions.flatMap fun s => sessionEvents base ch s evens odds := by
  have hstays : ∀ l : List Session, stays none
      (columns (l.flatMap fun s => gemm_session ch s evens odds) ++ columns post) =
      l.map fun s => columns (W_CMD_R 16 .pim_ctr (fun _ => addr_gen ch 0 0 0 0x3fff 0x0)
        (fun _ => .gemv_hab_to_hab_pim) :: session_body ch s evens odds) := by
    intro l
    induction l with
    | nil =>
      have h := stays_silent hpost []
      rw [List.append_nil] at h
      exact h
    | cons s l ih => rw [List.flatMap_cons, columns_append, List.append_assoc, stays_gemm_session, ih,
        List.map_cons]
  have hall : ∀ (l : List Session) (ess : List (List UnitEvent)), (∀ s ∈ l, 2 ^ 14 ∣ s.weight) →
      (List.Forall₂ (StayRuns (gemvProgram (8 * k - 1) (8 * k - 1)) base)
        (l.map fun s => columns (W_CMD_R 16 .pim_ctr (fun _ => addr_gen ch 0 0 0 0x3fff 0x0)
          (fun _ => .gemv_hab_to_hab_pim) :: session_body ch s evens odds)) ess ↔
        ess = l.map fun s => sessionEvents base ch s evens odds) := by
    intro l
    induction l with
    | nil => simp
    | cons s l ih =>
      intro ess hl
      have hs := stayRuns_session base ch s (hl s List.mem_cons_self) hk he ho
      cases ess with
      | nil => simp
      | cons es ess =>
        simp only [List.map_cons, List.forall₂_cons, hs, List.cons.injEq,
          ih ess fun s' hs' => hl s' (List.mem_cons_of_mem s hs')]
  rw [UnitRuns, columns_append, columns_append, List.append_assoc, stays_silent hpre, hstays]
  simp [hall _ _ hweight, List.flatMap_def]

end PimLibrary.Program
