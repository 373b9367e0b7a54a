import PimLibrary.Kernel.Cmd

/-! What the column commands of a kernel's statements do: switch the mode, touch the control row, or
    advance the PIM unit. A kernel whose statements between two switches are silent shows the unit one
    session, the data columns of those statements. -/

namespace PimLibrary.Kernel
open PimLibrary.Device

/-- The row of an address inside a transaction. -/
theorem rowOf_addr_gen (ch bg bank row col o : ℕ) (hg : bg < 4) (hrow : row < 2 ^ 32) (ho : o < 32) :
    rowOf ((addr_gen ch 0 bg bank row col : ℕ) + (o : ℤ)) = row := by
  rw [addr_gen_eq _ _ _ _ _ hg hrow, rowOf, transaction]
  omega

theorem offset_lt (t : ℕ) : offset t < 32 := by
  rw [offset]; omega

theorem columns_singleton (s : Stmt) : columns [s] = s.columns := by simp [columns]

theorem columns_append (l l' : List Stmt) :
    columns (l ++ l') = columns l ++ columns l' := by simp [columns]

/-! ### Mode switches -/

/-- No thread of the statement writes a mode. -/
def Stmt.Silent (s : Stmt) : Prop := ∀ t, (s.cmd t).modeWrite = none

def Silent (stmts : List Stmt) : Prop := ∀ s ∈ stmts, s.Silent

@[simp] theorem silent_nil : Silent [] := by simp [Silent]

@[simp] theorem silent_cons (s : Stmt) (stmts : List Stmt) : Silent (s :: stmts) ↔ s.Silent ∧
    Silent stmts := by
  simp [Silent]

@[simp] theorem silent_append (l l' : List Stmt) : Silent (l ++ l') ↔ Silent l ∧ Silent l' := by
  simp only [Silent, List.mem_append, or_imp, forall_and]

theorem silent_flatMap {ι : Type*} {l : List ι} {f : ι → List Stmt} (h : ∀ i ∈ l, Silent (f i)) :
    Silent (l.flatMap f) := by
  intro s hs
  obtain ⟨i, hi, hs⟩ := List.mem_flatMap.mp hs
  exact h i hi s hs

@[simp] theorem silent_R_CMD (n : ℕ) (buf : Buf) (a : ℕ → ℤ) : (R_CMD n buf a).Silent := fun t => by
  simp [R_CMD, Cmd.modeWrite]

@[simp] theorem silent_W_CMD (n : ℕ) (buf : Buf) (a : ℕ → ℤ) : (W_CMD n buf a).Silent := fun t => by
  simp [W_CMD, Cmd.modeWrite]

@[simp] theorem silent_B_CMD (n type : ℕ) : (B_CMD n type).Silent :=
  fun t => by simp [B_CMD, Cmd.modeWrite]

@[simp] theorem silent_park_in (ch n : ℕ) : Silent (park_in ch n) := by simp [park_in]

@[simp] theorem silent_park_out (ch n : ℕ) : Silent (park_out ch n) := by simp [park_out]

@[simp] theorem silent_change_sb_hab (ch n : ℕ) : Silent (change_sb_hab ch n) := by simp [change_sb_hab]

@[simp] theorem silent_change_hab_sb (ch n : ℕ) : Silent (change_hab_sb ch n) := by simp [change_hab_sb]

@[simp] theorem silent_program_crf (ch n : ℕ) : Silent (program_crf ch n) := by
  simp [program_crf, Stmt.Silent, W_CMD_R, Cmd.modeWrite]

@[simp] theorem silent_program_crf_mod (ch n : ℕ) : Silent (program_crf_mod ch n) := by
  simp [program_crf_mod, Stmt.Silent, W_CMD_R, R_CMD, B_CMD, Cmd.modeWrite]

@[simp] theorem silent_program_srf (ch n : ℕ) : Silent (program_srf ch n) := by
  simp [program_srf, Stmt.Silent, W_CMD_R, Cmd.modeWrite]

theorem Silent.columns {stmts : List Stmt} (h : Silent stmts) {c : Cmd} (hc : c ∈ columns stmts) :
    c.modeWrite = none := by
  obtain ⟨s, hs, hc⟩ := List.mem_flatMap.mp hc
  obtain ⟨g, -, rfl⟩ := List.mem_map.mp hc
  exact h s hs _

/-! ### Data columns -/

/-- The column commands that advance the PIM unit. -/
def dataColumns (stmts : List Stmt) : List Cmd := (columns stmts).filter Cmd.isData

@[simp] theorem dataColumns_nil : dataColumns [] = [] := rfl

@[simp] theorem dataColumns_append (l l' : List Stmt) :
    dataColumns (l ++ l') = dataColumns l ++ dataColumns l' := by
  simp [dataColumns, columns]

theorem dataColumns_cons (s : Stmt) (l : List Stmt) : dataColumns (s :: l) = dataColumns
    [s] ++ dataColumns l :=
  dataColumns_append [s] l

theorem dataColumns_flatMap {ι : Type*} (l : List ι) (f : ι → List Stmt) :
    dataColumns (l.flatMap f) = l.flatMap fun i => dataColumns (f i) := by
  induction l with
  | nil => rfl
  | cons i is ih => rw [List.flatMap_cons, dataColumns_append, ih, List.flatMap_cons]

theorem mem_dataColumns {stmts : List Stmt} {x : Cmd} (hx : x ∈ dataColumns stmts) :
    ∃ s ∈ stmts, ∃ t, x = s.cmd t ∧ x.isData = true := by
  obtain ⟨hx, hdata⟩ := List.mem_filter.mp hx
  obtain ⟨s, hs, hx⟩ := List.mem_flatMap.mp hx
  obtain ⟨g, -, rfl⟩ := List.mem_map.mp hx
  exact ⟨s, hs, 2 * g, rfl, hdata⟩

/-- No column of the statement advances the unit. -/
def Stmt.Idle (s : Stmt) : Prop := ∀ t, (s.cmd t).isData = false

theorem Stmt.Idle.dataColumns {s : Stmt} (h : s.Idle) : dataColumns [s] = [] := by
  rw [Kernel.dataColumns, columns_singleton, List.filter_eq_nil_iff]
  intro c hc
  obtain ⟨g, -, rfl⟩ := List.mem_map.mp hc
  simp [h (2 * g)]

theorem idle_B_CMD (n type : ℕ) : (B_CMD n type).Idle := fun _ => rfl

/-- The columns of a statement on a data buffer. -/
theorem dataColumns_data {s : Stmt} (h : ∀ t, (s.cmd t).isData = true) :
    dataColumns [s] = (List.range (s.active / 2)).map fun g => s.cmd (2 * g) := by
  rw [dataColumns, columns_singleton]
  refine List.filter_eq_self.mpr fun c hc => ?_
  obtain ⟨g, -, rfl⟩ := List.mem_map.mp hc
  exact h _

theorem dataColumns_R_CMD {buf : Buf} (h : buf ≠ .pim_ctr) (n : ℕ) (a : ℕ → ℤ) :
    dataColumns [R_CMD n buf a] = (List.range (n / 2)).map fun g =>
      Cmd.R buf (a (2 * g) + offset (2 * g)) :=
  dataColumns_data fun t => by cases buf <;> simp_all [R_CMD, Cmd.isData, Cmd.isControl]

theorem dataColumns_W_CMD {buf : Buf} (h : buf ≠ .pim_ctr) (n : ℕ) (a : ℕ → ℤ) :
    dataColumns [W_CMD n buf a] = (List.range (n / 2)).map fun g =>
      Cmd.W buf (a (2 * g) + offset (2 * g)) :=
  dataColumns_data fun t => by cases buf <;> simp_all [W_CMD, Cmd.isData, Cmd.isControl]

/-- Accesses to the control row do not advance the unit. -/
theorem idle_control (ch bank n : ℕ) (col : ℕ → ℕ) :
    (R_CMD n .pim_ctr fun t => addr_gen ch 0 0 bank 0x3fff (col t)).Idle := fun t => by
  have h := rowOf_addr_gen ch 0 bank 0x3fff (col t) (offset t) (by norm_num) (by norm_num) (offset_lt t)
  simp only [R_CMD, Cmd.isData, Cmd.isControl, h]
  rfl

theorem idle_control_write (ch bank n : ℕ) (col : ℕ → ℕ) (src : ℕ → Src) :
    (W_CMD_R n .pim_ctr (fun t => addr_gen ch 0 0 bank 0x3fff (col t)) src).Idle := fun t => by
  have h := rowOf_addr_gen ch 0 bank 0x3fff (col t) (offset t) (by norm_num) (by norm_num) (offset_lt t)
  simp only [W_CMD_R, Cmd.isData, Cmd.isControl, h]
  rfl

/-! ### Sessions -/

/-- Statements that all enter, or all leave, HAB_PIM mode. -/
def Stmt.Switches (s : Stmt) (on : Bool) : Prop :=
  2 ≤ s.active ∧ s.Idle ∧ ∀ t, (s.cmd t).modeWrite = some on

theorem columns_of_active {s : Stmt} (h : 2 ≤ s.active) :
    ∃ cs, columns [s] = s.cmd 0 :: cs ∧ ∀ c ∈ cs, ∃ t, c = s.cmd t := by
  obtain ⟨n, hn⟩ : ∃ n, s.active / 2 = n + 1 := ⟨s.active / 2 - 1, by omega⟩
  refine ⟨(List.range n).map fun g => s.cmd (2 * (g + 1)), ?_, ?_⟩
  · rw [columns_singleton, Stmt.columns, hn, List.range_succ_eq_map, List.map_cons, List.map_map]
    rfl
  · intro c hc
    obtain ⟨g, -, rfl⟩ := List.mem_map.mp hc
    exact ⟨_, rfl⟩

/-- Silent statements outside HAB_PIM mode show the unit nothing. -/
theorem habPimSessions_silent {pre : List Stmt} (h : Silent pre) (rest : List Cmd) :
    habPimSessions none (columns pre ++ rest) = habPimSessions none rest :=
  habPimSessions_idle fun c hc => by simp [h.columns hc]

theorem habPimSessions_end {pre : List Stmt} (h : Silent pre) :
    habPimSessions none (columns pre) = [] := by
  have heq := habPimSessions_silent h []
  rwa [List.append_nil] at heq

/-- One stay in HAB_PIM mode: the unit sees the data columns of the silent statements in between. -/
theorem habPimSessions_stmts {enter leave : Stmt} {body : List Stmt} (henter : enter.Switches true)
    (hbody : Silent body) (hleave : leave.Switches false) (rest : List Cmd) :
    habPimSessions none (columns (enter :: (body ++ [leave])) ++ rest) =
      dataColumns body :: habPimSessions none rest := by
  obtain ⟨ins, hin, hins⟩ := columns_of_active henter.1
  obtain ⟨outs, hout, houts⟩ := columns_of_active hleave.1
  have hsplit : columns (enter :: (body ++ [leave])) ++ rest =
      enter.cmd 0 :: ((ins ++ columns body) ++ leave.cmd 0 :: (outs ++ rest)) := by
    rw [← List.singleton_append, columns_append, columns_append, hin, hout]
    simp
  have hstay : ∀ c ∈ ins ++ columns body, c.modeWrite ≠ some false := by
    intro c hc
    rcases List.mem_append.mp hc with hc | hc
    · obtain ⟨t, rfl⟩ := hins c hc
      simp [henter.2.2]
    · simp [hbody.columns hc]
  have hquiet : ins.filter Cmd.isData = [] := by
    rw [List.filter_eq_nil_iff]
    intro c hc
    obtain ⟨t, rfl⟩ := hins c hc
    simp [henter.2.1 t]
  rw [hsplit, habPimSessions_session (henter.2.2 0) hstay (hleave.2.2 0), List.filter_append, hquiet,
    List.nil_append, habPimSessions_idle]
  · rfl
  · intro c hc
    obtain ⟨t, rfl⟩ := houts c hc
    simp [hleave.2.2]

theorem switches_hab_habpim (ch : ℕ) {n : ℕ} (hn : 2 ≤ n) :
    (W_CMD_R n .pim_ctr (fun _ => addr_gen ch 0 0 0 0x3fff 0x0) fun _ => .hab_to_hab_pim).Switches true :=
  ⟨hn, idle_control_write ch 0 n (fun _ => 0) _, fun _ => rfl⟩

theorem switches_gemv_hab_habpim (ch : ℕ) {n : ℕ} (hn : 2 ≤ n) :
    (W_CMD_R n .pim_ctr (fun _ => addr_gen ch 0 0 0 0x3fff 0x0) fun _ =>
      .gemv_hab_to_hab_pim).Switches true :=
  ⟨hn, idle_control_write ch 0 n (fun _ => 0) _, fun _ => rfl⟩

theorem switches_habpim_hab (ch : ℕ) {n : ℕ} (hn : 2 ≤ n) :
    (W_CMD_R n .pim_ctr (fun _ => addr_gen ch 0 0 0 0x3fff 0x0) fun _ => .hab_pim_to_hab).Switches false :=
  ⟨hn, idle_control_write ch 0 n (fun _ => 0) _, fun _ => rfl⟩

end PimLibrary.Kernel
