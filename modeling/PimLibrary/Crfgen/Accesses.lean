import PimLibrary.Crfgen.Verdict
import PimLibrary.Crfgen.HazardScan
import PimLibrary.Schemes.Log

/-! What the validator reads.

    The validator again, with a log of every access to the vector and to the three tables. The
    hazard scan stays inside whatever the commands are. The pair table has no row for an operand
    that is no source, the JUMP rule looks only for targets before the vector, and the first command
    is read without asking whether there is one. -/

namespace PimLibrary.Crfgen
open Schemes.Word Schemes.Log PimLibrary.Program PimLibrary.Program.PimCommand

inductive Table where | cmds | src_pair_table | data_hazard_table | structual_hazard_table
  deriving DecidableEq, Repr

/-- The declared dimensions; the vector has `size` commands. -/
def Table.dims (size : ℕ) : Table → List ℕ
  | .cmds => [size]
  | .src_pair_table => [6, 6, 4]
  | .data_hazard_table => [2, 5]
  | .structual_hazard_table => [2, 4, 5, 5]

structure Access where
  table : Table
  idx : List ℤ

/-- Every subscript is below its dimension. -/
def Access.Inside (size : ℕ) (a : Access) : Prop :=
  List.Forall₂ (fun (d : ℕ) (i : ℤ) => 0 ≤ i ∧ i < d) (a.table.dims size) a.idx

abbrev Reads : Type → Type := Logged Access

/-- `l[i]`; `none` is outside. -/
def entry {α : Type} (l : List α) (i : ℤ) : Option α := if 0 ≤ i then l[i.toNat]? else none

namespace Reads

def cmd (cmds : List PimCommand) (i : ℤ) : Reads PimCommand := do
  record ⟨.cmds, [i]⟩
  deref (entry cmds i)

/-! ### Source pairs -/

/-- The table is read at one place, up to three times. -/
def check_validate_pair (pim_cmd : PimCommand) : Reads ℕ :=
  let cmd_type := change_cmd_type pim_cmd.type_
  if cmd_type = .ETC then pure 1
  else do
    record ⟨.src_pair_table,
      [(change_opd_type pim_cmd.src0_).toNat, (change_opd_type pim_cmd.src1_).toNat, cmd_type.toNat]⟩
    deref (Crfgen.check_validate_pair pim_cmd)

/-- The loop over `count` commands from index `i` on. -/
def check_cmd_validation_loop (cmds : List PimCommand) : ℕ → ℕ → ℕ → Reads ℕ
  | 0, _, ret => pure ret
  | count + 1, i, _ => do
    let c ← cmd cmds i
    let ret ← check_validate_pair c
    if ret = 0 then pure ret else check_cmd_validation_loop cmds count (i + 1) ret

def check_cmd_validation (cmds : List PimCommand) : Reads ℕ :=
  check_cmd_validation_loop cmds cmds.length 0 1

/-! ### Restrictions on JUMP and NOP -/

def restrict_jump (cmds : List PimCommand) (i : ℕ) (c : PimCommand) (is_valid : ℕ) : Reads ℕ :=
  let is_valid := if c.loop_counter_ = 0 then 0 else is_valid
  if target_idx i c.loop_offset_ < 0 then pure 0
  else do
    let target ← cmd cmds (target_idx i c.loop_offset_)
    let is_valid := if target.type_ = .NOP ∨ target.type_ = .JUMP then 0 else is_valid
    if i + 1 ≠ cmds.length then
      let next ← cmd cmds (i + 1)
      pure (if next.type_ = .NOP then 0 else is_valid)
    else pure is_valid

def restrict_nop (cmds : List PimCommand) (i : ℕ) (c : PimCommand) (is_valid : ℕ) : Reads ℕ := do
  let is_valid ←
    if i + 1 ≠ cmds.length ∧ c.loop_counter_ > 0 then do
      let next ← cmd cmds (i + 1)
      pure (if next.type_ = .JUMP then 0 else is_valid)
    else pure is_valid
  if i + 1 ≠ cmds.length then do
    let next ← cmd cmds (i + 1)
    if next.type_ = .NOP ∧ c.loop_counter_ > 0 then do
      let second ← cmd cmds 1
      pure (if second.loop_counter_ > 0 then 0 else is_valid)
    else pure is_valid
  else pure is_valid

/-- One round of the loop. -/
def restrict (cmds : List PimCommand) (i is_valid : ℕ) : Reads ℕ := do
  let c ← cmd cmds i
  if c.type_ = .JUMP then restrict_jump cmds i c is_valid
  else if c.type_ = .NOP then restrict_nop cmds i c is_valid
  else pure is_valid

def check_isa_restriction_loop (cmds : List PimCommand) : List ℕ → ℕ → Reads ℕ
  | [], is_valid => pure is_valid
  | i :: rest, is_valid => do
    let is_valid ← restrict cmds i is_valid
    check_isa_restriction_loop cmds rest is_valid

def check_isa_restriction (cmds : List PimCommand) : Reads ℕ := do
  let first ← cmd cmds 0
  check_isa_restriction_loop cmds (List.range cmds.length) (if first.type_ = .NOP then 0 else 1)

/-! ### Hazards -/

/-- `get_hazard_table_idx`, with its `-1`. -/
def op_idx (c : PimCommand) : ℤ := ((get_hazard_table_idx c).map Nat.cast).getD (-1)

def find_next_op_loop (cmds : List PimCommand) : ℕ → ℕ → ℤ → Reads (ℕ × ℤ)
  | 0, _, num_nop => pure (0, num_nop)
  | count + 1, i, num_nop => do
    let c ← cmd cmds i
    let num_nop := if c.type_ = .NOP then int32 (num_nop + int32 (c.loop_counter_ + 1)) else num_nop
    if op_idx c = -1 then find_next_op_loop cmds count (i + 1) num_nop else pure (i, num_nop)

def find_next_op (cmds : List PimCommand) (cur_idx : ℕ) : Reads (ℕ × ℤ) :=
  find_next_op_loop cmds (cmds.length - (cur_idx + 1)) (cur_idx + 1) 0

def detect_structural_hazard (cmds : List PimCommand) (cur_idx next_idx : ℕ) (num_nop : ℤ) :
    Reads ℤ := do
  let cur ← cmd cmds cur_idx
  let next ← cmd cmds next_idx
  let is_consecutive : ℕ := if cur.dst_ = next.dst_ then 1 else 0
  let r_nonr_idx : ℕ := (!is_read_register cur).toNat * 2 + (!is_read_register next).toNat
  record ⟨.structual_hazard_table, [is_consecutive, r_nonr_idx, op_idx next, op_idx cur]⟩
  let num_required_nop ← deref do
    let t ← entry structual_hazard_table is_consecutive
    let t ← entry t r_nonr_idx
    let t ← entry t (op_idx next)
    entry t (op_idx cur)
  pure (if num_required_nop = -1 then -1 else if num_nop < num_required_nop then 1 else 0)

def detect_data_hazard_loop (cmds : List PimCommand) (cur : PimCommand) (num_required_nop : ℤ) :
    ℕ → ℕ → ℤ → ℕ → Reads ℕ
  | 0, _, _, is_hazard => pure is_hazard
  | count + 1, i, num_nop, is_hazard =>
    if num_nop ≥ num_required_nop then pure is_hazard
    else do
      let c ← cmd cmds i
      if depends cur c then detect_data_hazard_loop cmds cur num_required_nop count (i + 1) num_nop 1
      else
        detect_data_hazard_loop cmds cur num_required_nop count (i + 1)
          (int32 (num_nop + int32 (1 + int32 (c.is_auto_ * 7)))) is_hazard

def detect_data_hazard (cmds : List PimCommand) (cur_idx next_idx : ℕ) (num_nop : ℤ) : Reads ℕ := do
  let cur ← cmd cmds cur_idx
  record ⟨.data_hazard_table, [(is_read_register cur).toNat, op_idx cur]⟩
  let num_required_nop ← deref do
    let t ← entry data_hazard_table (is_read_register cur).toNat
    entry t (op_idx cur)
  let max_idx : ℤ := if (cur_idx : ℤ) + num_required_nop + 1 < cmds.length then
    cur_idx + num_required_nop + 1 else cmds.length
  detect_data_hazard_loop cmds cur num_required_nop (max_idx - next_idx).toNat next_idx num_nop 0

def check_hazard_loop (cmds : List PimCommand) : ℕ → ℕ → ℕ → Reads ℕ
  | 0, _, num_hazard => pure num_hazard
  | fuel + 1, i, num_hazard =>
    if cmds.length ≤ i then pure num_hazard
    else do
      let c ← cmd cmds i
      if op_idx c = -1 then check_hazard_loop cmds fuel (i + 1) num_hazard
      else do
        let (next_idx, num_nop) ← find_next_op cmds i
        if next_idx = 0 then pure num_hazard
        else if num_nop ≥ 4 then check_hazard_loop cmds fuel next_idx num_hazard
        else do
          let is_structural_hazard ← detect_structural_hazard cmds i next_idx num_nop
          let is_data_hazard ← detect_data_hazard cmds i next_idx num_nop
          let num_hazard := if is_structural_hazard ≠ 0 then num_hazard + 1 else num_hazard
          let num_hazard := if is_data_hazard ≠ 0 then num_hazard + 1 else num_hazard
          check_hazard_loop cmds fuel (i + 1) num_hazard

def check_hazard (cmds : List PimCommand) : Reads ℕ := check_hazard_loop cmds cmds.length 0 0

def validation_check (pim_cmd_vec : List PimCommand) : Reads ℕ := do
  let ret ← check_cmd_validation pim_cmd_vec
  let isa ← check_isa_restriction pim_cmd_vec
  let hazard ← check_hazard pim_cmd_vec
  pure (ret &&& isa &&& hazard)

end Reads

/-- No access of the validator is outside the vector or a table. -/
def ReadsInside (cmds : List PimCommand) : Prop :=
  AllLog (Access.Inside cmds.length) (Reads.validation_check cmds)

variable {cmds : List PimCommand} {c : PimCommand} {i : ℕ}

/-! ### Commands and pairs -/

theorem inside_cmds (size : ℕ) (i : ℤ) : Access.Inside size ⟨.cmds, [i]⟩ ↔ 0 ≤ i ∧ i < size := by
  simp [Access.Inside, Table.dims]

theorem entry_natCast {α : Type} (l : List α) (i : ℕ) : entry l i = l[i]? := by
  rw [entry, if_pos (Int.natCast_nonneg i), Int.toNat_natCast]

theorem allLog_cmd (cmds : List PimCommand) (i : ℤ) :
    AllLog (Access.Inside cmds.length) (Reads.cmd cmds i) ↔ 0 ≤ i ∧ i < cmds.length := by
  simp [Reads.cmd, inside_cmds]

theorem ends_cmd (hi : i < cmds.length) : Ends (Access.Inside cmds.length) (Reads.cmd cmds i)
    (cmdAt cmds i) := by
  refine .bind (.record ((inside_cmds _ _).mpr ?_)) (.deref ?_)
  · omega
  · rw [entry_natCast, getElem?_eq_cmdAt hi]

theorem inside_src_pair (size : ℕ) (src0 src1 : PimOpdPairType) {t : PimCmdPairType} (ht : t ≠ .ETC) :
    Access.Inside size ⟨.src_pair_table, [src0.toNat, src1.toNat, t.toNat]⟩ ↔ src0 ≠ .ETC ∧
      src1 ≠ .ETC := by
  revert ht
  simp only [Access.Inside, Table.dims]
  cases src0 <;> cases src1 <;> cases t <;> decide

/-- A readable pair is looked up inside the table. -/
theorem ends_check_validate_pair (hread : PairReadable c) {flag : ℕ}
    (hflag : check_validate_pair c = some flag) (size : ℕ) :
    Ends (Access.Inside size) (Reads.check_validate_pair c) flag := by
  by_cases hetc : change_cmd_type c.type_ = .ETC
  · have hone : flag = 1 := by
      simp only [check_validate_pair, hetc, if_true] at hflag
      exact (Option.some.inj hflag).symm
    simp only [Reads.check_validate_pair, hetc, if_true, hone]
    exact .pure 1
  · simp only [Reads.check_validate_pair, hetc, if_false]
    refine .bind (.record ?_) (.deref hflag)
    exact (inside_src_pair size _ _ hetc).mpr (hread.resolve_left hetc)

theorem check_validate_pair_outside (hread : ¬ PairReadable c) (size : ℕ) :
    ¬ AllLog (Access.Inside size) (Reads.check_validate_pair c) := by
  intro hlog
  have hetc : change_cmd_type c.type_ ≠ .ETC := fun h => hread (Or.inl h)
  simp only [Reads.check_validate_pair, hetc, if_false] at hlog
  have hpair := (allLog_record _).mp hlog.of_bind
  exact hread (Or.inr ((inside_src_pair size _ _ hetc).mp hpair))

theorem drop_eq_cons (hi : i < cmds.length) : cmds.drop i = cmdAt cmds i :: cmds.drop (i + 1) := by
  rw [List.drop_eq_getElem_cons hi]
  congr 1
  exact Option.some.inj ((List.getElem?_eq_getElem hi).symm.trans (getElem?_eq_cmdAt hi))

/-- The pass over the pairs stays inside exactly when they are readable. -/
theorem check_cmd_validation_loop_reads {count i : ℕ} (hlen : i + count = cmds.length) (ret : ℕ) :
    Readable (cmds.drop i) ∧
      (∃ flag, Ends (Access.Inside cmds.length) (Reads.check_cmd_validation_loop cmds count i ret) flag ∧
        check_cmd_validation_loop ret (cmds.drop i) = some flag) ∨
      ¬ Readable (cmds.drop i) ∧
        ¬ AllLog (Access.Inside cmds.length) (Reads.check_cmd_validation_loop cmds count i ret) := by
  induction count generalizing i ret with
  | zero =>
    left
    have hnil : cmds.drop i = [] := List.drop_eq_nil_of_le (by omega)
    rw [hnil]
    exact ⟨trivial, ret, .pure ret, rfl⟩
  | succ count ih =>
    have hi : i < cmds.length := by omega
    rw [drop_eq_cons hi]
    rcases check_validate_pair_cases (cmdAt cmds i) with ⟨hread, flag, hle, hflag⟩ | ⟨hread, -⟩
    · have hpair := ends_check_validate_pair hread hflag cmds.length
      rcases Nat.le_one_iff_eq_zero_or_eq_one.mp hle with rfl | rfl
      · left
        have hfails : ¬ Passes (cmdAt cmds i) := by simp [Passes, hflag]
        refine ⟨⟨hread, fun h => absurd h hfails⟩, 0, ?_, by simp [check_cmd_validation_loop, hflag]⟩
        exact .bind (ends_cmd hi) (.bind hpair (.pure 0))
      · have hpasses : Passes (cmdAt cmds i) := hflag
        have hloop : check_cmd_validation_loop ret (cmdAt cmds i :: cmds.drop (i + 1)) =
            check_cmd_validation_loop 1 (cmds.drop (i + 1)) := by
          simp [check_cmd_validation_loop, hflag]
        rcases ih (i := i + 1) (by omega) 1 with ⟨hrest, flag, hends, hvalue⟩ | ⟨hrest, hout⟩
        · left
          refine ⟨⟨hread, fun _ => hrest⟩, flag, ?_, hloop.trans hvalue⟩
          exact .bind (ends_cmd hi) (.bind hpair hends)
        · right
          refine ⟨fun h => hrest (h.2 hpasses), fun hlog => hout ?_⟩
          rw [Reads.check_cmd_validation_loop, (ends_cmd hi).allLog_bind_iff, hpair.allLog_bind_iff] at hlog
          exact hlog
    · right
      refine ⟨fun h => hread h.1, fun hlog => check_validate_pair_outside hread cmds.length ?_⟩
      rw [Reads.check_cmd_validation_loop, (ends_cmd hi).allLog_bind_iff] at hlog
      exact hlog.of_bind

theorem check_cmd_validation_reads (cmds : List PimCommand) :
    Readable cmds ∧ (∃ flag, Ends (Access.Inside cmds.length) (Reads.check_cmd_validation cmds) flag ∧
        check_cmd_validation cmds = some flag) ∨
      ¬ Readable cmds ∧ ¬ AllLog (Access.Inside cmds.length) (Reads.check_cmd_validation cmds) := by
  have hloop := check_cmd_validation_loop_reads (Nat.zero_add cmds.length) 1
  rwa [List.drop_zero] at hloop

/-! ### Restrictions -/

theorem ends_next (hi : i < cmds.length) (hlast : i + 1 ≠ cmds.length) :
    Ends (Access.Inside cmds.length) (Reads.cmd cmds (i + 1)) (cmdAt cmds (i + 1)) := by
  have hnext : i + 1 < cmds.length := by omega
  exact_mod_cast ends_cmd hnext

/-- The rules on a JUMP read its target and the command behind it. -/
theorem restrict_jump_reads (hi : i < cmds.length) (hjump : (cmdAt cmds i).type_ = .JUMP)
    (hread : TargetRead cmds i)
    (is_valid : ℕ) :
    ∃ flag, Ends (Access.Inside cmds.length) (Reads.restrict_jump cmds i (cmdAt cmds i) is_valid) flag ∧
      restrict_jump cmds i is_valid = some flag := by
  have hlt := hread hjump
  by_cases hneg : target_idx i (cmdAt cmds i).loop_offset_ < 0
  · refine ⟨0, by simp only [Reads.restrict_jump, hneg, if_true]; exact .pure 0, ?_⟩
    simp [restrict_jump, hjump, hneg]
  · obtain ⟨k, hk⟩ := Int.eq_ofNat_of_zero_le (not_lt.mp hneg)
    have hklt : k < cmds.length := by omega
    have htarget : cmds[(target_idx i (cmdAt cmds i).loop_offset_).toNat]? = some (cmdAt cmds k) := by
      rw [hk, Int.toNat_natCast, getElem?_eq_cmdAt hklt]
    rw [Reads.restrict_jump, if_neg hneg, hk]
    by_cases hlast : i + 1 = cmds.length
    · refine ⟨_, .bind (ends_cmd hklt) (by
        simp only [hlast, ne_eq, not_true, if_false]; exact .pure _), ?_⟩
      simp [restrict_jump, hjump, htarget, hneg, hlast]
    · refine ⟨_, .bind (ends_cmd hklt) (by
        simp only [ne_eq, hlast, not_false_eq_true, if_true]
        exact .bind (ends_next hi hlast) (.pure _)), ?_⟩
      simp [restrict_jump, hjump, htarget, hneg, hlast]

/-- The rules on a NOP read the command behind it, and `cmds[1]` only where there are two. -/
theorem restrict_nop_reads (hi : i < cmds.length) (hnop : (cmdAt cmds i).type_ = .NOP) (is_valid : ℕ) :
    Ends (Access.Inside cmds.length) (Reads.restrict_nop cmds i (cmdAt cmds i) is_valid)
      (restrict_nop cmds i is_valid) := by
  by_cases hlast : i + 1 = cmds.length
  · simp only [Reads.restrict_nop, restrict_nop, hnop, hlast, ne_eq, not_true, false_and,
      if_false, if_true]
    exact .bind (.pure _) (.pure _)
  · have hsecond : 1 < cmds.length := by omega
    have hnext := ends_next hi hlast
    have hone : Ends (Access.Inside cmds.length) (Reads.cmd cmds 1) (cmdAt cmds 1) := by
      exact_mod_cast ends_cmd hsecond
    by_cases hcount : (cmdAt cmds i).loop_counter_ > 0
    · simp only [Reads.restrict_nop, restrict_nop, hnop, hlast, ne_eq, not_false_eq_true, hcount,
        and_true, true_and, if_true]
      refine .bind hnext (.bind (.pure _) (.bind hnext ?_))
      by_cases hnext_nop : (cmdAt cmds (i + 1)).type_ = .NOP
      · simp only [hnext_nop, if_true, true_and]
        exact .bind hone (.pure _)
      · simp only [hnext_nop, if_false, false_and]
        exact .pure _
    · simp only [Reads.restrict_nop, restrict_nop, hnop, hlast, ne_eq, not_false_eq_true,
        hcount, and_false, false_and, if_true, if_false]
      exact .bind (.pure _) (.bind hnext (.pure _))

/-- One round reads inside exactly when a JUMP's target is. -/
theorem restrict_reads (hi : i < cmds.length) (is_valid : ℕ) :
    TargetRead cmds i ∧ (∃ flag, Ends (Access.Inside cmds.length) (Reads.restrict cmds i is_valid) flag ∧
        (restrict_jump cmds i is_valid).map (restrict_nop cmds i) = some flag) ∨
      ¬ TargetRead cmds i ∧ ¬ AllLog (Access.Inside cmds.length) (Reads.restrict cmds i is_valid) := by
  have hc := ends_cmd hi
  by_cases hjump : (cmdAt cmds i).type_ = .JUMP
  · by_cases hread : TargetRead cmds i
    · left
      obtain ⟨flag, hends, hvalue⟩ := restrict_jump_reads hi hjump hread is_valid
      refine ⟨hread, flag, .bind hc (by simp only [hjump, if_true]; exact hends), ?_⟩
      rw [hvalue, Option.map_some]
      simp [restrict_nop, hjump]
    · right
      refine ⟨hread, fun hlog => hread fun _ => ?_⟩
      rw [Reads.restrict, hc.allLog_bind_iff, if_pos hjump] at hlog
      by_contra hout
      have hnonneg : ¬ target_idx i (cmdAt cmds i).loop_offset_ < 0 := by omega
      simp only [Reads.restrict_jump, hnonneg, if_false] at hlog
      exact hout ((allLog_cmd cmds _).mp hlog.of_bind).2
  · left
    refine ⟨fun h => absurd h hjump, ?_⟩
    have hkeep : restrict_jump cmds i is_valid = some is_valid := by simp [restrict_jump, hjump]
    rw [hkeep, Option.map_some]
    refine ⟨restrict_nop cmds i is_valid, .bind hc ?_, rfl⟩
    rw [if_neg hjump]
    by_cases hnop : (cmdAt cmds i).type_ = .NOP
    · rw [if_pos hnop]
      exact restrict_nop_reads hi hnop is_valid
    · have hsame : restrict_nop cmds i is_valid = is_valid := by simp [restrict_nop, hnop]
      rw [if_neg hnop, hsame]
      exact .pure is_valid

theorem check_isa_restriction_loop_reads {idx : List ℕ} (hidx : ∀ i ∈ idx, i < cmds.length)
    (is_valid : ℕ) :
    (∀ i ∈ idx, TargetRead cmds i) ∧
        (∃ flag, Ends (Access.Inside cmds.length) (Reads.check_isa_restriction_loop cmds idx
          is_valid) flag ∧
          check_isa_restriction_loop cmds idx is_valid = some flag) ∨
      ¬ (∀ i ∈ idx, TargetRead cmds i) ∧
        ¬ AllLog (Access.Inside cmds.length) (Reads.check_isa_restriction_loop cmds idx is_valid) := by
  induction idx generalizing is_valid with
  | nil => exact Or.inl ⟨by simp, is_valid, .pure is_valid, rfl⟩
  | cons i idx ih =>
    obtain ⟨hi, hrest⟩ := List.forall_mem_cons.mp hidx
    rw [List.forall_mem_cons]
    rcases restrict_reads hi is_valid with ⟨hread, flag, hends, hvalue⟩ | ⟨hread, hout⟩
    · rcases ih hrest flag with ⟨hreads, last, hlast, hloop⟩ | ⟨hreads, hout⟩
      · left
        refine ⟨⟨hread, hreads⟩, last, .bind hends hlast, ?_⟩
        obtain ⟨flag', hjump, rfl⟩ := Option.map_eq_some_iff.mp hvalue
        simp [check_isa_restriction_loop, hjump, hloop]
      · right
        refine ⟨fun h => hreads h.2, fun hlog => hout ?_⟩
        rw [Reads.check_isa_restriction_loop, hends.allLog_bind_iff] at hlog
        exact hlog
    · right
      refine ⟨fun h => hread h.1, fun hlog => hout ?_⟩
      rw [Reads.check_isa_restriction_loop] at hlog
      exact hlog.of_bind

/-- The restrictions read inside exactly when there is a first command and no target behind the end. -/
theorem check_isa_restriction_reads (cmds : List PimCommand) :
    (cmds ≠ [] ∧ ∀ i < cmds.length, TargetRead cmds i) ∧
        (∃ flag, Ends (Access.Inside cmds.length) (Reads.check_isa_restriction cmds) flag ∧
          check_isa_restriction cmds = some flag) ∨
      ¬ (cmds ≠ [] ∧ ∀ i < cmds.length, TargetRead cmds i) ∧
        ¬ AllLog (Access.Inside cmds.length) (Reads.check_isa_restriction cmds) := by
  rcases cmds with - | ⟨first, rest⟩
  · right
    refine ⟨by simp, fun hlog => ?_⟩
    have hfirst := (allLog_cmd [] 0).mp hlog.of_bind
    simp at hfirst
  · have hfirst : Ends (Access.Inside (first :: rest).length) (Reads.cmd (first :: rest) 0) first := by
      have hpos : 0 < (first :: rest).length := by simp
      exact_mod_cast ends_cmd hpos
    rw [and_iff_right (List.cons_ne_nil first rest)]
    have hidx : ∀ i ∈ List.range (first :: rest).length, i < (first :: rest).length :=
      fun i => List.mem_range.mp
    have hloop := check_isa_restriction_loop_reads hidx (if first.type_ = .NOP then 0 else 1)
    simp only [List.mem_range] at hloop
    rcases hloop with ⟨hreads, flag, hends, hvalue⟩ | ⟨hreads, hout⟩
    · exact Or.inl ⟨hreads, flag, .bind hfirst hends, hvalue⟩
    · right
      refine ⟨hreads, fun hlog => hout ?_⟩
      rw [Reads.check_isa_restriction, hfirst.allLog_bind_iff] at hlog
      exact hlog

/-! ### Hazards -/

theorem op_idx_eq_neg_one (c : PimCommand) : Reads.op_idx c = -1 ↔ get_hazard_table_idx c = none := by
  rw [Reads.op_idx]
  cases get_hazard_table_idx c with
  | none => simp
  | some k => simp

/-- An operation has one of the five columns. -/
theorem IsOp.column (h : IsOp c) : ∃ k < 5, get_hazard_table_idx c = some k ∧ Reads.op_idx c = k := by
  obtain ⟨k, hk⟩ := Option.ne_none_iff_exists'.mp h
  refine ⟨k, ?_, hk, by rw [Reads.op_idx, hk]; rfl⟩
  revert hk
  rw [get_hazard_table_idx]
  cases c.type_ <;> simp <;> omega

theorem structual_entry : ∀ a < 2, ∀ r < 4, ∀ k < 5, ∀ l < 5,
    (do
      let t ← entry structual_hazard_table (a : ℕ)
      let t ← entry t (r : ℕ)
      let t ← entry t (k : ℕ)
      entry t (l : ℕ)) =
        some ((((structual_hazard_table.getD a []).getD r []).getD k []).getD l 0) := by
  decide

theorem data_entry : ∀ a < 2, ∀ k < 5,
    (do
      let t ← entry data_hazard_table (a : ℕ)
      entry t (k : ℕ)) = some ((data_hazard_table.getD a []).getD k 0) := by
  decide

theorem ends_find_next_op_loop {count i : ℕ} (hlen : i + count = cmds.length) (num_nop : ℤ) :
    Ends (Access.Inside cmds.length) (Reads.find_next_op_loop cmds count i num_nop)
      (find_next_op_loop (cmds.drop i) i num_nop) := by
  induction count generalizing i num_nop with
  | zero =>
    rw [List.drop_eq_nil_of_le (by omega)]
    exact .pure _
  | succ count ih =>
    have hi : i < cmds.length := by omega
    rw [drop_eq_cons hi, find_next_op_loop]
    refine .bind (ends_cmd hi) ?_
    by_cases hop : get_hazard_table_idx (cmdAt cmds i) = none
    · simp only [op_idx_eq_neg_one, hop, if_true]
      exact ih (by omega) _
    · simp only [op_idx_eq_neg_one, hop, if_false]
      exact .pure _

theorem ends_find_next_op (hi : i < cmds.length) :
    Ends (Access.Inside cmds.length) (Reads.find_next_op cmds i) (find_next_op cmds i) :=
  ends_find_next_op_loop (by omega) 0

/-- The next operation is one, and in the vector. -/
theorem find_next_op_isOp (hi : i < cmds.length) (hnext : (find_next_op cmds i).1 ≠ 0) :
    (find_next_op cmds i).1 < cmds.length ∧ IsOp (cmdAt cmds (find_next_op cmds i).1) := by
  rcases find_next_op_loop_spec (cmds.drop (i + 1)) (i + 1) 0 with ⟨-, hzero⟩ | ⟨skipped, c, rest,
    heq, -, hc, hat⟩
  · exact absurd hzero hnext
  · have hsplit : cmds = cmds.take (i + 1) ++ skipped ++ c :: rest := by
      rw [List.append_assoc, ← heq, List.take_append_drop]
    have hlen : (cmds.take (i + 1) ++ skipped).length = (find_next_op cmds i).1 := by
      rw [find_next_op, hat, List.length_append, List.length_take, Nat.min_eq_left hi]
    have hdrop := congrArg List.length heq
    rw [List.length_drop, List.length_append, List.length_cons] at hdrop
    constructor
    · rw [find_next_op, hat]
      omega
    · rw [← hlen, cmdAt_eq hsplit]
      exact hc

theorem ends_detect_structural_hazard {next_idx : ℕ} (hi : i < cmds.length)
    (hnext : next_idx < cmds.length)
    (hcur : IsOp (cmdAt cmds i)) (hop : IsOp (cmdAt cmds next_idx)) (num_nop : ℤ) :
    Ends (Access.Inside cmds.length) (Reads.detect_structural_hazard cmds i next_idx num_nop)
      (detect_structural_hazard cmds i next_idx num_nop) := by
  obtain ⟨l, hl, hcol, hcol'⟩ := hcur.column
  obtain ⟨k, hk, hrow, hrow'⟩ := hop.column
  have hcons : (if (cmdAt cmds i).dst_ = (cmdAt cmds next_idx).dst_ then 1 else 0) < 2 := by
    split_ifs <;> norm_num
  have hread : (!is_read_register (cmdAt cmds i)).toNat * 2 +
      (!is_read_register (cmdAt cmds next_idx)).toNat < 4 := by
    have := Bool.toNat_lt (!is_read_register (cmdAt cmds i))
    have := Bool.toNat_lt (!is_read_register (cmdAt cmds next_idx))
    omega
  refine .bind (ends_cmd hi) (.bind (ends_cmd hnext) ?_)
  rw [hcol', hrow']
  refine .bind (.record ?_) (.bind (.deref (structual_entry _ hcons _ hread _ hk _ hl)) ?_)
  · simp only [Access.Inside, Table.dims, List.forall₂_cons, List.Forall₂.nil, and_true]
    omega
  · rw [detect_structural_hazard, hcol, hrow]
    exact .pure _

theorem ends_detect_data_hazard_loop {count j : ℕ} (hlen : j + count ≤ cmds.length)
    (cur : PimCommand) (req num_nop : ℤ)
    (is_hazard : ℕ) :
    Ends (Access.Inside cmds.length) (Reads.detect_data_hazard_loop cmds cur req count j num_nop is_hazard)
      (detect_data_hazard_loop cur req ((cmds.take (j + count)).drop j) num_nop is_hazard) := by
  induction count generalizing j num_nop is_hazard with
  | zero =>
    rw [List.drop_eq_nil_of_le (by simp)]
    exact .pure _
  | succ count ih =>
    have hj : j < cmds.length := by omega
    have hcons : (cmds.take (j + (count + 1))).drop j =
        cmdAt cmds j :: (cmds.take (j + 1 + count)).drop (j + 1) := by
      rw [List.drop_take, drop_eq_cons hj, List.drop_take]
      have hcount : j + (count + 1) - j = count + 1 := by omega
      have hcount' : j + 1 + count - (j + 1) = count := by omega
      rw [hcount, hcount', List.take_succ_cons]
    rw [hcons, Reads.detect_data_hazard_loop, detect_data_hazard_loop]
    by_cases hreq : num_nop ≥ req
    · rw [if_pos hreq, if_pos hreq]
      exact .pure _
    · rw [if_neg hreq, if_neg hreq]
      refine .bind (ends_cmd hj) ?_
      by_cases hdep : depends cur (cmdAt cmds j)
      · rw [if_pos hdep, if_pos hdep]
        exact ih (by omega) _ _
      · rw [if_neg hdep, if_neg hdep]
        exact ih (by omega) _ _

theorem ends_detect_data_hazard {next_idx : ℕ} (hi : i < cmds.length) (hnext : next_idx < cmds.length)
    (hcur : IsOp (cmdAt cmds i)) (num_nop : ℤ) :
    Ends (Access.Inside cmds.length) (Reads.detect_data_hazard cmds i next_idx num_nop)
      (detect_data_hazard cmds i next_idx num_nop) := by
  obtain ⟨k, hk, hcol, hcol'⟩ := hcur.column
  have hread := Bool.toNat_lt (is_read_register (cmdAt cmds i))
  refine .bind (ends_cmd hi) ?_
  rw [hcol']
  refine .bind (.record ?_) (.bind (.deref (data_entry _ hread _ hk)) ?_)
  · simp only [Access.Inside, Table.dims, List.forall₂_cons, List.Forall₂.nil, and_true]
    omega
  · have hreq : (data_hazard_table.getD (is_read_register (cmdAt cmds i)).toNat []).getD k 0 =
        required_nop (cmdAt cmds i) := by
      rw [required_nop, hcol, Option.getD_some]
    rw [hreq, detect_data_hazard]
    simp only
    generalize required_nop (cmdAt cmds i) = req
    set max_idx : ℕ := if (i : ℤ) + req + 1 < cmds.length then ((i : ℤ) + req + 1).toNat
      else cmds.length with hmax
    have hcount : ((if (i : ℤ) + req + 1 < cmds.length then (i : ℤ) + req + 1 else cmds.length) -
      next_idx).toNat =
        max_idx - next_idx := by
      rw [hmax]
      split_ifs <;> omega
    have hle : next_idx + (max_idx - next_idx) ≤ cmds.length := by
      rw [hmax]
      split_ifs <;> omega
    have hscan : (cmds.take (next_idx + (max_idx - next_idx))).drop next_idx =
        (cmds.take max_idx).drop next_idx := by
      rw [List.drop_take, List.drop_take, Nat.add_sub_cancel_left]
    rw [hcount, ← hscan]
    exact ends_detect_data_hazard_loop hle _ _ _ _

/-- The hazard scan reads inside on every vector. -/
theorem ends_check_hazard_loop (cmds : List PimCommand) (fuel i num_hazard : ℕ) :
    Ends (Access.Inside cmds.length) (Reads.check_hazard_loop cmds fuel i num_hazard)
      (check_hazard_loop cmds fuel i num_hazard) := by
  induction fuel generalizing i num_hazard with
  | zero => exact .pure _
  | succ fuel ih =>
    rw [Reads.check_hazard_loop, check_hazard_loop]
    by_cases hend : cmds.length ≤ i
    · rw [if_pos hend, if_pos hend]
      exact .pure _
    · rw [if_neg hend, if_neg hend]
      have hi : i < cmds.length := not_le.mp hend
      refine .bind (ends_cmd hi) ?_
      by_cases hop : get_hazard_table_idx (cmdAt cmds i) = none
      · simp only [op_idx_eq_neg_one, hop, if_true]
        exact ih _ _
      · simp only [op_idx_eq_neg_one, hop, if_false]
        have hisOp := find_next_op_isOp hi
        refine .bind (ends_find_next_op hi) ?_
        generalize find_next_op cmds i = next at hisOp ⊢
        obtain ⟨next_idx, num_nop⟩ := next
        simp only at hisOp ⊢
        by_cases hnone : next_idx = 0
        · rw [if_pos hnone, if_pos hnone]
          exact .pure _
        · rw [if_neg hnone, if_neg hnone]
          obtain ⟨hnext, hnextOp⟩ := hisOp hnone
          by_cases hnop : num_nop ≥ 4
          · rw [if_pos hnop, if_pos hnop]
            exact ih _ _
          · rw [if_neg hnop, if_neg hnop]
            refine .bind (ends_detect_structural_hazard hi hnext hop hnextOp num_nop) ?_
            exact .bind (ends_detect_data_hazard hi hnext hop num_nop) (ih _ _)

theorem ends_check_hazard (cmds : List PimCommand) :
    Ends (Access.Inside cmds.length) (Reads.check_hazard cmds) (check_hazard cmds) :=
  ends_check_hazard_loop cmds cmds.length 0 0

/-! ### The validator -/

/-- The validator reads inside exactly when it can look up every pair it comes to, has a first
    command, and finds no JUMP with a target behind the end. -/
theorem reads_inside_iff (cmds : List PimCommand) :
    ReadsInside cmds ↔ Readable cmds ∧ cmds ≠ [] ∧ ∀ i < cmds.length, TargetRead cmds i := by
  rcases check_cmd_validation_reads cmds with ⟨hread, flag, hflag, -⟩ | ⟨hread, hout⟩
  · rw [ReadsInside, Reads.validation_check, hflag.allLog_bind_iff, and_iff_right hread]
    rcases check_isa_restriction_reads cmds with ⟨hreads, flag', hflag', -⟩ | ⟨hreads, hout⟩
    · rw [hflag'.allLog_bind_iff, (ends_check_hazard cmds).allLog_bind_iff]
      exact iff_of_true (allLog_pure _) hreads
    · exact iff_of_false (fun hlog => hout hlog.of_bind) hreads
  · refine iff_of_false (fun hlog => hout ?_) fun h => hread h.1
    exact hlog.of_bind

/-- A sum with an operand that is no source is looked up outside the table. -/
theorem read_outside : ¬ ∀ cmds, ReadsInside cmds := by
  intro hall
  rcases check_cmd_validation_reads [binary .ADD .GRF_A .A_OUT .GRF_B, ctrl .EXIT 0] with ⟨hread,
    -⟩ | ⟨-, hout⟩
  · rcases hread.1 with hetc | ⟨hsrc, -⟩
    · exact absurd hetc (by decide)
    · exact hsrc rfl
  · exact hout (AllLog.of_bind (hall _))

/-- Where it reads inside, the validator with its accesses returns what the validator returns. -/
theorem reads_value (hread : Readable cmds) (hne : cmds ≠ [])
    (htargets : ∀ i < cmds.length, TargetRead cmds i) :
    (Reads.validation_check cmds).value = validation_check cmds := by
  obtain ⟨-, flag, hflag, hret⟩ := (check_cmd_validation_reads cmds).resolve_right fun h => h.1 hread
  obtain ⟨-, flag', hflag', hisa⟩ := (check_isa_restriction_reads cmds).resolve_right fun h =>
    h.1 ⟨hne, htargets⟩
  have hends : Ends (Access.Inside cmds.length) (Reads.validation_check cmds)
      (flag &&& flag' &&& check_hazard cmds) :=
    .bind hflag (.bind hflag' (.bind (ends_check_hazard cmds) (.pure _)))
  rw [validation_check, hret, hisa]
  exact hends.2

end PimLibrary.Crfgen
