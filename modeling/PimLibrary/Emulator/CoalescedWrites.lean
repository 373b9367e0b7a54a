import PimLibrary.Emulator.TraceCoalescer
import PimLibrary.Schemes.TwoSlots

/-! Any trace of 16-byte entries through `coalesce_trace`, and what its write records hold.

    The entries of a record are a run of the trace: accesses of one kind to one block with nothing in
    between. A write record gathers its run in two slots, so what it holds is the question which
    runs two slots keep. -/

namespace PimLibrary.Emulator
open Schemes.TwoSlots ParserState

/-! ### Halves of a block -/

namespace PimMemTraceData

/-- An entry of the tracer: one of the four kinds, at a half of a block. -/
structure Traced (e : PimMemTraceData) : Prop where
  cmd : e.cmd = 'R' ∨ e.cmd = 'W' ∨ e.cmd = 'O' ∨ e.cmd = 'B'
  aligned : 16 ∣ e.addr.toNat

/-- The block that the address is in. -/
def block (e : PimMemTraceData) : UInt64 := e.addr &&& MASK

/-- The address is the block's own. -/
def isLower (e : PimMemTraceData) : Bool := e.addr = e.block

/-- Sixteen bytes of the data. -/
def half (data : ℕ → UInt8) (off : ℕ) : Fin 16 → UInt8 := fun i => data (off + i)

/-- What the entry writes, and to which half. -/
def write (e : PimMemTraceData) : Bool × (Fin 16 → UInt8) := (e.isLower, half e.data 0)

/-- The record as two slots. -/
def slots (r : PimMemTraceData) : Slots (Fin 16 → UInt8) := ⟨r.isLower, half r.data 0, half r.data 16⟩

variable {e r : PimMemTraceData}

theorem half_memcpy_same (dst src : ℕ → UInt8) (off : ℕ) : half (memcpy dst off src 16) off =
    half src 0 := by
  funext i
  rw [half, memcpy_inside dst src off i.isLt, half, Nat.zero_add]

theorem half_memcpy_low (dst src : ℕ → UInt8) : half (memcpy dst 16 src 16) 0 = half dst 0 := by
  funext i
  exact memcpy_outside dst src (Or.inl (by omega))

theorem half_memcpy_high (dst src : ℕ → UInt8) : half (memcpy dst 0 src 16) 16 = half dst 16 := by
  funext i
  exact memcpy_outside dst src (Or.inr (by omega))

theorem block_toNat (e : PimMemTraceData) : e.block.toNat = e.addr.toNat / 32 * 32 :=
  toNat_and_mask e.addr

theorem block_ne (e : PimMemTraceData) : e.block ≠ -1 := by
  intro h
  have hblock := e.block_toNat
  rw [h] at hblock
  revert hblock
  generalize e.addr.toNat / 32 = q
  have hones : (-1 : UInt64).toNat = 18446744073709551615 := by decide
  omega

theorem upper_toNat (e : PimMemTraceData) : (e.block + 16).toNat = e.block.toNat + 16 := by
  have hlt := e.addr.toNat_lt
  have hblock := e.block_toNat
  rw [UInt64.toNat_add]
  exact Nat.mod_eq_of_lt (by change e.block.toNat + 16 < 2 ^ 64; omega)

theorem isLower_iff : e.isLower = true ↔ e.addr = e.block := by simp [isLower]

/-- The other half is 16 bytes on. -/
theorem addr_of_upper (h : 16 ∣ e.addr.toNat) (hupper : e.isLower = false) : e.addr = e.block + 16 := by
  have hne : e.addr.toNat ≠ e.block.toNat := by
    intro heq
    rw [isLower_iff.mpr (UInt64.toNat_inj.mp heq)] at hupper
    cases hupper
  have hblock := e.block_toNat
  rw [← UInt64.toNat_inj, e.upper_toNat]
  omega

/-- Within a block only a lower address is below an upper one. -/
theorem addr_lt_iff (he : 16 ∣ e.addr.toNat) (hr : 16 ∣ r.addr.toNat) (hblock : e.block = r.block) :
    e.addr < r.addr ↔ e.isLower = true ∧ r.isLower = false := by
  have hupper := r.upper_toNat
  rw [UInt64.lt_iff_toNat_lt]
  cases hel : e.isLower with
  | true =>
    rw [isLower_iff.mp hel, hblock]
    cases hrl : r.isLower with
    | true =>
      rw [isLower_iff.mp hrl]
      simp
    | false =>
      rw [addr_of_upper hr hrl, hupper]
      simp
  | false =>
    rw [addr_of_upper he hel, hblock, hupper]
    cases hrl : r.isLower with
    | true =>
      have haddr := congrArg UInt64.toNat (isLower_iff.mp hrl)
      simp [haddr]
    | false =>
      rw [addr_of_upper hr hrl, hupper]
      simp

end PimMemTraceData

open PimMemTraceData

/-! ### Runs of a trace -/

/-- Entries that follow each other. -/
structure Run where
  first : PimMemTraceData
  later : List PimMemTraceData

namespace Run

def entries (run : Run) : List PimMemTraceData := run.first :: run.later

/-- The entry goes on with the run: the same kind of access, to the same block. -/
def takes (run : Run) (e : PimMemTraceData) : Bool :=
  e.cmd ≠ 'B' ∧ run.first.cmd = e.cmd ∧ run.first.block = e.block

end Run

/-- The next entry joins the last run or starts one; the last run stands first. -/
def add_entry : List Run → PimMemTraceData → List Run
  | [], e => [⟨e, []⟩]
  | run :: runs, e => if run.takes e then ⟨run.first, run.later ++ [e]⟩ :: runs
    else ⟨e, []⟩ :: run :: runs

/-- The runs of a trace, in order. -/
def runs (fmtd16 : List PimMemTraceData) : List Run := (fmtd16.foldl add_entry []).reverse

/-! ### What is merged into a record -/

/-- A round of the loop, noting the record that the entry is in afterwards. -/
def merge_step (t : ParserState × List (ℕ × PimMemTraceData)) (e : PimMemTraceData) :
    ParserState × List (ℕ × PimMemTraceData) :=
  (coalesce_entry t.1 e, t.2 ++ [((coalesce_entry t.1 e).coalesced_trace_it - 1, e)])

/-- The entries noted for a record. -/
def notedFor (notes : List (ℕ × PimMemTraceData)) (k : ℕ) : List PimMemTraceData :=
  (notes.filter fun note => note.1 = k).map Prod.snd

/-- The entries merged into a record. -/
def merged (fmtd32 : ℕ → PimMemTraceData) (fmtd16 : List PimMemTraceData) (k : ℕ) :
    List PimMemTraceData :=
  notedFor (fmtd16.foldl merge_step ({ fmtd32 := fmtd32 }, [])).2 k

/-- Each half that the entries write is in its place in the record, with what was written last; a
    half of the record that they do not write is as it was before. -/
structure HoldsWrites (before : ℕ → UInt8) (r : PimMemTraceData) (entries : List PimMemTraceData) :
    Prop where
  last : ∀ a e, (entries.filter fun e => e.addr = a).getLast? = some e →
    r.addr ≤ a ∧ ∀ i < 16, r.data ((a - r.addr).toNat + i) = e.data i
  apart : ∀ a, a &&& MASK = r.block → 16 ∣ a.toNat → r.addr ≤ a → (∀ e ∈ entries, e.addr ≠ a) →
    ∀ i < 16, r.data ((a - r.addr).toNat + i) = before ((a - r.addr).toNat + i)

/-- Every write record holds the writes merged into it. -/
def WritesCoalesced (fmtd32 : ℕ → PimMemTraceData) (fmtd16 : List PimMemTraceData) : Prop :=
  ∀ k < (coalesce_trace fmtd32 fmtd16).2, ((coalesce_trace fmtd32 fmtd16).1 k).cmd = 'W' →
    HoldsWrites (fmtd32 k).data ((coalesce_trace fmtd32 fmtd16).1 k) (merged fmtd32 fmtd16 k)

/-- The bytes of each run of writes are kept. -/
def WritesKept (fmtd32 : ℕ → PimMemTraceData) (fmtd16 : List PimMemTraceData) : Prop :=
  ∀ k run, (runs fmtd16)[k]? = some run → run.first.cmd = 'W' →
    Kept (half (fmtd32 k).data 16) (run.entries.map write)

/-! ### One entry -/

/-- The record of a run. -/
structure Run.Recorded (before : PimMemTraceData) (run : Run) (r : PimMemTraceData) : Prop where
  traced : ∀ e ∈ run.entries, e.Traced
  same : ∀ e ∈ run.later, e.cmd = run.first.cmd ∧ e.block = run.first.block
  cmd : r.cmd = run.first.cmd
  block : run.first.cmd = 'W' → r.block = run.first.block
  aligned : run.first.cmd = 'W' → 16 ∣ r.addr.toNat
  slots : run.first.cmd = 'W' → r.slots = gather (half before.data 16) run.first.write
    (run.later.map write)

/-- The state, and the notes, after the runs. -/
structure Follows (fmtd32 : ℕ → PimMemTraceData) (runs : List Run) (s : ParserState)
    (notes : List (ℕ × PimMemTraceData)) : Prop where
  it : s.coalesced_trace_it = runs.length
  record : ∀ pre run post, runs = pre ++ run :: post →
    run.Recorded (fmtd32 post.length) (s.fmtd32 post.length) ∧ notedFor notes post.length = run.entries
  rest : ∀ k, runs.length ≤ k → s.fmtd32 k = fmtd32 k
  noted : ∀ note ∈ notes, note.1 < runs.length
  prev_cmd : s.prev_cmd = (runs.head?.map fun run => run.first.cmd).getD 'B'
  prev_addr : s.prev_addr = (runs.head?.map fun run => if run.first.cmd = 'B' then -1
    else run.first.block).getD (-1)

variable {fmtd32 : ℕ → PimMemTraceData} {s : ParserState} {notes : List (ℕ × PimMemTraceData)}
  {e : PimMemTraceData}

/-- The entry goes to a record of its own. -/
structure OpensAs (s s' : ParserState) (e : PimMemTraceData) : Prop where
  it : s'.coalesced_trace_it = s.coalesced_trace_it + 1
  frame : ∀ k ≠ s.coalesced_trace_it, s'.fmtd32 k = s.fmtd32 k
  cmd : (s'.fmtd32 s.coalesced_trace_it).cmd = e.cmd
  addr : e.cmd = 'W' → (s'.fmtd32 s.coalesced_trace_it).addr = e.addr
  slots : e.cmd = 'W' → (s'.fmtd32 s.coalesced_trace_it).slots = opened (half s.next.data 16) e.write
  prev_cmd : s'.prev_cmd = e.cmd
  prev_addr : s'.prev_addr = if e.cmd = 'B' then -1 else e.block

/-- The entry goes to the record before it. -/
structure Joins (s s' : ParserState) (e : PimMemTraceData) : Prop where
  it : s'.coalesced_trace_it = s.coalesced_trace_it
  frame : ∀ k ≠ s.coalesced_trace_it - 1, s'.fmtd32 k = s.fmtd32 k
  cmd : s'.last.cmd = s.last.cmd
  block : e.cmd = 'W' → s'.last.block = s.last.block ∧ 16 ∣ s'.last.addr.toNat
  slots : e.cmd = 'W' → s'.last.slots = place s.last.slots e.write
  prev_cmd : s'.prev_cmd = s.prev_cmd
  prev_addr : s'.prev_addr = s.prev_addr

theorem coalesce_read {cmd : Char} (hcmd : e.cmd = cmd) (hread : cmd = 'R' ∨ cmd = 'O') :
    coalesce_entry s e = read_entry cmd s e := by
  rcases hread with rfl | rfl <;> simp [coalesce_entry, hcmd]

theorem read_opens {cmd : Char} (hcmd : e.cmd = cmd) (hread : cmd = 'R' ∨ cmd = 'O')
    (h : ¬ Continues s cmd e) :
    OpensAs s (read_entry cmd s e) e := by
  have hne : e.cmd ≠ 'W' ∧ e.cmd ≠ 'B' := by
    rcases hread with rfl | rfl <;> rw [hcmd] <;> decide
  rw [read_entry_opens h]
  refine ⟨rfl, ?_, ?_, fun hw => absurd hw hne.1, fun hw => absurd hw hne.1, hcmd.symm, ?_⟩
  · intro k hk
    exact Function.update_of_ne hk _ _
  · simp [coalesced_update, put, hcmd]
  · rw [if_neg hne.2]
    rfl

theorem write_opens (hcmd : e.cmd = 'W') (h : ¬ Continues s 'W' e) : OpensAs s (write_entry s e) e := by
  rw [write_entry_opens h]
  refine ⟨rfl, ?_, ?_, fun _ => ?_, fun _ => ?_, hcmd.symm, ?_⟩
  · intro k hk
    simp [coalesced_update, put, Function.update_of_ne hk]
  · simp [coalesced_update, put, hcmd]
  · simp [coalesced_update, put]
  · simp [coalesced_update, put, next, PimMemTraceData.slots, opened, write, isLower, block,
      half_memcpy_same, half_memcpy_high]
    rfl
  · rw [if_neg (by rw [hcmd]; decide)]
    rfl

theorem barrier_opens (hcmd : e.cmd = 'B') : OpensAs s (coalesce_entry s e) e := by
  have hstep : coalesce_entry s e = barrier_entry s e := by simp [coalesce_entry, hcmd]
  have hne : e.cmd ≠ 'W' := by rw [hcmd]; decide
  rw [hstep]
  refine ⟨rfl, ?_, ?_, fun hw => absurd hw hne, fun hw => absurd hw hne, hcmd.symm, ?_⟩
  · intro k hk
    exact Function.update_of_ne hk _ _
  · simp [barrier_entry, put, hcmd]
  · rw [if_pos hcmd]
    rfl

theorem coalesce_opens (he : e.Traced) (h : e.cmd ≠ 'B' → ¬ Continues s e.cmd e) :
    OpensAs s (coalesce_entry s e) e := by
  have hread : ∀ cmd, cmd = 'R' ∨ cmd = 'O' → e.cmd = cmd → OpensAs s (coalesce_entry s e) e := by
    intro cmd hread hcmd
    rw [coalesce_read hcmd hread]
    exact read_opens hcmd hread (hcmd ▸ h (by rcases hread with rfl | rfl <;> rw [hcmd] <;> decide))
  rcases he.cmd with hcmd | hcmd | hcmd | hcmd
  · exact hread 'R' (Or.inl rfl) hcmd
  · have hstep : coalesce_entry s e = write_entry s e := by simp [coalesce_entry, hcmd]
    rw [hstep]
    exact write_opens hcmd (hcmd ▸ h (by rw [hcmd]; decide))
  · exact hread 'O' (Or.inr rfl) hcmd
  · exact barrier_opens hcmd

theorem read_joins {cmd : Char} (hcmd : e.cmd = cmd) (hread : cmd = 'R' ∨ cmd = 'O')
    (h : Continues s cmd e) :
    Joins s (read_entry cmd s e) e := by
  have hne : e.cmd ≠ 'W' := by rcases hread with rfl | rfl <;> rw [hcmd] <;> decide
  obtain ⟨hprev, haddr⟩ := h
  rw [read_entry, if_pos hprev, if_pos haddr]
  split_ifs
  · refine ⟨rfl, ?_, ?_, fun hw => absurd hw hne, fun hw => absurd hw hne, hprev.2.symm, rfl⟩
    · intro k hk
      exact Function.update_of_ne hk _ _
    · simp [put, last]
  · exact ⟨rfl, fun _ _ => rfl, rfl, fun hw => absurd hw hne, fun hw => absurd hw hne,
      hprev.2.symm, rfl⟩

theorem write_joins (he : e.Traced) (h : Continues s 'W' e) (hblock : s.last.block = e.block)
    (haligned : 16 ∣ s.last.addr.toNat) : Joins s (write_entry s e) e := by
  obtain ⟨hprev, haddr⟩ := h
  have hlt := addr_lt_iff he.aligned haligned hblock.symm
  have hframe : ∀ r, ∀ k ≠ s.coalesced_trace_it - 1, (s.put (s.coalesced_trace_it - 1) r).fmtd32 k =
      s.fmtd32 k :=
    fun r k hk => Function.update_of_ne hk _ _
  rw [write_entry, if_pos hprev, if_pos haddr]
  split_ifs with hmove
  · obtain ⟨hlower, hupper⟩ := hlt.mp hmove
    have haddr : e.block &&& MASK = s.last.block := by
      rw [hblock, ← UInt64.toNat_inj, toNat_and_mask, block_toNat]
      omega
    refine ⟨rfl, hframe _, by simp [put, last], fun _ => ⟨?_, ?_⟩, fun _ => ?_, hprev.2.symm, rfl⟩
    · simpa [put, last, block] using haddr
    · simp only [put, last, Function.update_self]
      rw [toNat_and_mask]
      omega
    · rw [place, if_pos ⟨hlower, hupper⟩]
      have haddr' : (e.addr &&& MASK) &&& MASK = e.addr &&& MASK := haddr.trans hblock
      simp [put, last, PimMemTraceData.slots, isLower, block, write, half_memcpy_same,
        half_memcpy_high, haddr']
  · have hstay : ¬ (e.write.1 = true ∧ s.last.slots.lower = false) := fun hw => hmove (hlt.mpr hw)
    refine ⟨rfl, hframe _, by simp [put, last], fun _ => ⟨?_, ?_⟩, fun _ => ?_, hprev.2.symm, rfl⟩
    · simp [put, last, block]
    · simpa [put, last] using haligned
    · rw [place, if_neg hstay]
      simp [put, last, PimMemTraceData.slots, isLower, block, write, half_memcpy_same, half_memcpy_low]
      rfl

theorem coalesce_joins (he : e.Traced) (hne : e.cmd ≠ 'B') (h : Continues s e.cmd e)
    (hlast : e.cmd = 'W' → s.last.block = e.block ∧ 16 ∣ s.last.addr.toNat) :
      Joins s (coalesce_entry s e) e := by
  rcases he.cmd with hcmd | hcmd | hcmd | hcmd
  · rw [coalesce_read hcmd (Or.inl rfl)]
    exact read_joins hcmd (Or.inl rfl) (hcmd ▸ h)
  · have hstep : coalesce_entry s e = write_entry s e := by simp [coalesce_entry, hcmd]
    rw [hstep]
    exact write_joins he (hcmd ▸ h) (hlast hcmd).1 (hlast hcmd).2
  · rw [coalesce_read hcmd (Or.inr rfl)]
    exact read_joins hcmd (Or.inr rfl) (hcmd ▸ h)
  · exact absurd hcmd hne

/-! ### The whole trace -/

theorem notedFor_concat (notes : List (ℕ × PimMemTraceData)) (j : ℕ) (e : PimMemTraceData) (k : ℕ) :
    notedFor (notes ++ [(j, e)]) k = notedFor notes k ++ if j = k then [e] else [] := by
  rw [notedFor, List.filter_append, List.map_append]
  by_cases hk : j = k <;> simp [notedFor, hk]

theorem notedFor_fresh {k : ℕ} (h : ∀ note ∈ notes, note.1 < k) : notedFor notes k = [] := by
  have hne : ∀ note ∈ notes, ¬ note.1 = k := fun note hnote => (h note hnote).ne
  simpa [notedFor] using hne

namespace Follows

variable {run : Run} {rs : List Run} {s' : ParserState}

theorem continues_iff (h : Follows fmtd32 (run :: rs) s notes) (hne : e.cmd ≠ 'B') :
    Continues s e.cmd e ↔ run.takes e = true := by
  have hcmd := h.prev_cmd
  have haddr := h.prev_addr
  simp only [List.head?_cons, Option.map_some, Option.getD_some] at hcmd haddr
  rw [Continues, hcmd, haddr, Run.takes]
  by_cases hsame : run.first.cmd = e.cmd
  · simp [hsame, hne, run.first.block_ne]
    rfl
  · simp [hsame]

theorem not_continues (h : Follows fmtd32 [] s notes) : ¬ Continues s e.cmd e :=
  fun hcont => hcont.1.1 h.prev_addr

theorem last_eq (h : Follows fmtd32 (run :: rs) s notes) : s.last = s.fmtd32 rs.length := by
  rw [ParserState.last, h.it, List.length_cons, Nat.add_sub_cancel]

theorem opens (h : Follows fmtd32 rs s notes) (he : e.Traced) (hs : OpensAs s s' e) :
    Follows fmtd32 (⟨e, []⟩ :: rs) s' (notes ++ [(s'.coalesced_trace_it - 1, e)]) := by
  have hindex : s'.coalesced_trace_it - 1 = rs.length := by rw [hs.it, h.it, Nat.add_sub_cancel]
  rw [hindex]
  refine ⟨by rw [hs.it, h.it, List.length_cons], ?_, ?_, ?_, hs.prev_cmd, hs.prev_addr⟩
  · intro pre run post hrs
    cases pre with
    | nil =>
      obtain ⟨rfl, rfl⟩ := List.cons.inj hrs
      have hbefore : s.next = fmtd32 rs.length := by rw [ParserState.next, h.it, h.rest _ le_rfl]
      have haddr := hs.addr
      have hslots := hs.slots
      have hcmd := hs.cmd
      rw [h.it] at haddr hslots hcmd
      refine ⟨⟨?_, by simp, hcmd, ?_, ?_, ?_⟩, ?_⟩
      · simpa [Run.entries] using he
      · intro hw
        rw [PimMemTraceData.block, haddr hw]
        rfl
      · intro hw
        rw [haddr hw]
        exact he.aligned
      · intro hw
        rw [hslots hw, hbefore]
        rfl
      · rw [notedFor_concat, notedFor_fresh h.noted, if_pos rfl]
        rfl
    | cons x pre =>
      rw [List.cons_append] at hrs
      obtain ⟨-, hrs⟩ := List.cons.inj hrs
      have hlt : post.length < rs.length := by
        rw [hrs, List.length_append, List.length_cons]
        omega
      obtain ⟨hrecord, hnotes⟩ := h.record pre run post hrs
      rw [hs.frame _ (by rw [h.it]; exact hlt.ne), notedFor_concat, if_neg hlt.ne', List.append_nil]
      exact ⟨hrecord, hnotes⟩
  · intro k hk
    rw [List.length_cons] at hk
    rw [hs.frame k (by rw [h.it]; omega), h.rest k (by omega)]
  · intro note hnote
    rw [List.length_cons]
    rcases List.mem_append.mp hnote with hold | hnew
    · exact Nat.lt_succ_of_lt (h.noted note hold)
    · rw [List.mem_singleton.mp hnew]
      exact Nat.lt_succ_self _

theorem joins (h : Follows fmtd32 (run :: rs) s notes) (he : e.Traced) (htakes : run.takes e = true)
    (hs : Joins s s' e) :
    Follows fmtd32 (⟨run.first, run.later ++ [e]⟩ :: rs) s'
      (notes ++ [(s'.coalesced_trace_it - 1, e)]) := by
  have hit : s.coalesced_trace_it - 1 = rs.length := by rw [h.it, List.length_cons, Nat.add_sub_cancel]
  have hindex : s'.coalesced_trace_it - 1 = rs.length := by rw [hs.it, hit]
  obtain ⟨-, hcmd, hblock⟩ : e.cmd ≠ 'B' ∧ run.first.cmd = e.cmd ∧ run.first.block = e.block := by
    simpa [Run.takes] using htakes
  rw [hindex]
  refine ⟨by rw [hs.it, h.it, List.length_cons, List.length_cons], ?_, ?_, ?_, ?_, ?_⟩
  · intro pre run' post hrs
    cases pre with
    | nil =>
      obtain ⟨rfl, rfl⟩ := List.cons.inj hrs
      obtain ⟨hrecord, hnotes⟩ := h.record [] run rs rfl
      have hlast : s'.last = s'.fmtd32 rs.length := by rw [ParserState.last, hindex]
      have hjoined := hs.block
      have hplaced := hs.slots
      have hkind := hs.cmd
      rw [hlast, h.last_eq] at hjoined hplaced hkind
      refine ⟨⟨?_, ?_, hkind.trans hrecord.cmd, ?_, ?_, ?_⟩, ?_⟩
      · intro e' he'
        rcases List.mem_append.mp (show e' ∈ run.entries ++ [e] from he') with hold | hnew
        · exact hrecord.traced e' hold
        · rwa [List.mem_singleton.mp hnew]
      · intro e' he'
        rcases List.mem_append.mp he' with hold | hnew
        · exact hrecord.same e' hold
        · rw [List.mem_singleton.mp hnew]
          exact ⟨hcmd.symm, hblock.symm⟩
      · intro hw
        exact (hjoined (hcmd ▸ hw)).1.trans (hrecord.block hw)
      · intro hw
        exact (hjoined (hcmd ▸ hw)).2
      · intro hw
        rw [hplaced (hcmd ▸ hw), hrecord.slots hw, List.map_append, gather, gather, List.foldl_append]
        rfl
      · rw [notedFor_concat, hnotes, if_pos rfl]
        rfl
    | cons x pre =>
      rw [List.cons_append] at hrs
      obtain ⟨-, hrs⟩ := List.cons.inj hrs
      have hlt : post.length < rs.length := by
        rw [hrs, List.length_append, List.length_cons]
        omega
      obtain ⟨hrecord, hnotes⟩ := h.record (run :: pre) run' post (by rw [hrs]; rfl)
      rw [hs.frame _ (by rw [hit]; exact hlt.ne), notedFor_concat, if_neg hlt.ne', List.append_nil]
      exact ⟨hrecord, hnotes⟩
  · intro k hk
    rw [List.length_cons] at hk
    rw [hs.frame k (by rw [hit]; omega), h.rest k (by rw [List.length_cons]; omega)]
  · intro note hnote
    rcases List.mem_append.mp hnote with hold | hnew
    · exact h.noted note hold
    · rw [List.mem_singleton.mp hnew]
      exact Nat.lt_succ_self _
  · rw [hs.prev_cmd, h.prev_cmd]
    rfl
  · rw [hs.prev_addr, h.prev_addr]
    rfl

end Follows

/-- One more entry. -/
theorem follows_step {rs : List Run} (h : Follows fmtd32 rs s notes) (he : e.Traced) :
    Follows fmtd32 (add_entry rs e) (merge_step (s, notes) e).1 (merge_step (s, notes) e).2 := by
  cases rs with
  | nil => exact h.opens he (coalesce_opens he fun _ => h.not_continues)
  | cons run rs =>
    rw [add_entry]
    split_ifs with htakes
    · obtain ⟨hne, hcmd, hblock⟩ : e.cmd ≠ 'B' ∧ run.first.cmd = e.cmd ∧ run.first.block = e.block := by
        simpa [Run.takes] using htakes
      obtain ⟨hrecord, -⟩ := h.record [] run rs rfl
      refine h.joins he htakes (coalesce_joins he hne ((h.continues_iff hne).mpr htakes) ?_)
      intro hw
      rw [h.last_eq, ← hblock]
      exact ⟨hrecord.block (hcmd.trans hw), hrecord.aligned (hcmd.trans hw)⟩
    · exact h.opens he (coalesce_opens he fun hne hcont => htakes ((h.continues_iff hne).mp hcont))

theorem follows_trace (fmtd16 : List PimMemTraceData) (htraced : ∀ e ∈ fmtd16, e.Traced) {rs : List Run}
    (h : Follows fmtd32 rs s notes) : Follows fmtd32 (fmtd16.foldl add_entry rs)
      (fmtd16.foldl merge_step (s, notes)).1 (fmtd16.foldl merge_step (s, notes)).2 := by
  induction fmtd16 generalizing rs s notes with
  | nil => exact h
  | cons e fmtd16 ih =>
    obtain ⟨he, hrest⟩ := List.forall_mem_cons.mp htraced
    exact ih hrest (follows_step h he)

/-- The notes do not disturb the loop. -/
theorem foldl_merge_step (fmtd16 : List PimMemTraceData) (s : ParserState)
    (notes : List (ℕ × PimMemTraceData)) :
    (fmtd16.foldl merge_step (s, notes)).1 = fmtd16.foldl coalesce_entry s := by
  induction fmtd16 generalizing s notes with
  | nil => rfl
  | cons e fmtd16 ih => exact ih _ _

/-- One record comes out for each run of the trace, with the entries of the run merged into it. -/
theorem coalesce_trace_runs (fmtd32 : ℕ → PimMemTraceData) (fmtd16 : List PimMemTraceData)
    (htraced : ∀ e ∈ fmtd16, e.Traced) : (coalesce_trace fmtd32 fmtd16).2 = (runs fmtd16).length ∧
      ∀ k run, (runs fmtd16)[k]? = some run →
        run.Recorded (fmtd32 k) ((coalesce_trace fmtd32 fmtd16).1 k) ∧ merged fmtd32 fmtd16 k =
          run.entries := by
  have hstart : Follows fmtd32 [] { fmtd32 := fmtd32 } [] := by
    refine ⟨rfl, ?_, fun _ _ => rfl, by simp, rfl, rfl⟩
    intro pre run post hrs
    simp at hrs
  have hend := follows_trace fmtd16 htraced hstart
  rw [foldl_merge_step] at hend
  refine ⟨by rw [coalesce_trace, hend.it, runs, List.length_reverse], ?_⟩
  intro k run hk
  obtain ⟨pre, post, hsplit, rfl⟩ : ∃ pre post, runs fmtd16 = pre ++ run :: post ∧ pre.length = k := by
    obtain ⟨hlt, rfl⟩ := List.getElem?_eq_some_iff.mp hk
    exact ⟨(runs fmtd16).take k, (runs fmtd16).drop (k + 1), by simp, by simpa using hlt.le⟩
  have hrev : fmtd16.foldl add_entry [] = post.reverse ++ run :: pre.reverse := by
    have hback := congrArg List.reverse hsplit
    rw [runs, List.reverse_reverse] at hback
    simpa using hback
  have hrecord := hend.record _ _ _ hrev
  rw [List.length_reverse] at hrecord
  exact hrecord

/-! ### What the records hold -/

section Records

variable {run : Run} {before r : PimMemTraceData}

theorem Run.Recorded.block_eq (h : run.Recorded before r) : ∀ e ∈ run.entries, e.block =
    run.first.block := by
  rintro e (_ | ⟨_, he⟩)
  · rfl
  · exact (h.same e he).2

theorem getLast?_side (lower : Bool) (entries : List PimMemTraceData) :
    (side lower (entries.map write)).getLast? =
      ((entries.filter fun e => e.isLower = lower).getLast?).map fun e => half e.data 0 := by
  rw [side, List.filter_map, List.map_map, List.getLast?_map]
  rfl

/-- The address of one of the two halves. -/
def halfAddr (block : UInt64) (lower : Bool) : UInt64 := if lower then block else block + 16

theorem addr_eq_halfAddr {e : PimMemTraceData} (h : 16 ∣ e.addr.toNat) :
    e.addr = halfAddr e.block e.isLower := by
  rw [halfAddr]
  cases hlower : e.isLower with
  | true => exact isLower_iff.mp hlower
  | false => exact addr_of_upper h hlower

theorem halfAddr_inj {e : PimMemTraceData} {lower lower' : Bool} :
    halfAddr e.block lower = halfAddr e.block lower' ↔ lower = lower' := by
  cases lower <;> cases lower' <;> simp [halfAddr]

/-- A half lies in the record unless it is below it; its place is first or second. -/
theorem halfAddr_place {r : PimMemTraceData} (h : 16 ∣ r.addr.toNat) (lower : Bool) :
    (r.addr ≤ halfAddr r.block lower ↔ (lower = true → r.isLower = true)) ∧
      ((lower = true → r.isLower = true) →
        (halfAddr r.block lower - r.addr).toNat = if lower = r.isLower then 0 else 16) := by
  have haddr := addr_eq_halfAddr h
  have hupper := r.upper_toNat
  by_cases hsame : lower = r.isLower
  · rw [hsame, ← haddr]
    simp
  · rw [if_neg hsame]
    cases hr : r.isLower with
    | true =>
      obtain rfl : lower = false := by simpa [hr] using hsame
      rw [hr] at haddr
      have hle : r.addr ≤ halfAddr r.block false := by
        rw [haddr, UInt64.le_iff_toNat_le]
        simp only [halfAddr, if_true, Bool.false_eq_true, if_false, hupper]
        omega
      refine ⟨by simp [hle], fun _ => ?_⟩
      rw [UInt64.toNat_sub_of_le _ _ hle, haddr]
      simp only [halfAddr, if_true, Bool.false_eq_true, if_false, hupper]
      omega
    | false =>
      obtain rfl : lower = true := by simpa [hr] using hsame
      rw [hr] at haddr
      have hnot : ¬ r.addr ≤ halfAddr r.block true := by
        rw [haddr, UInt64.le_iff_toNat_le]
        simp only [halfAddr, if_true, Bool.false_eq_true, if_false, hupper]
        omega
      simp [hnot]

/-- The bytes at the place of a half. -/
def placed (r : PimMemTraceData) (lower : Bool) : Fin 16 → UInt8 :=
  half r.data (if lower = r.isLower then 0 else 16)

theorem forall_bytes_iff {r : PimMemTraceData} (h : 16 ∣ r.addr.toNat) {lower : Bool}
    (hin : lower = true → r.isLower = true) (src : ℕ → UInt8) (off : ℕ) :
    (∀ i < 16, r.data ((halfAddr r.block lower - r.addr).toNat + i) = src (off + i)) ↔
      placed r lower = half src off := by
  rw [(halfAddr_place h lower).2 hin]
  constructor
  · intro hbytes
    funext i
    exact hbytes i i.isLt
  · intro heq i hi
    exact congrFun heq ⟨i, hi⟩

theorem slots_placed (r : PimMemTraceData) : (r.isLower = true → r.slots.first = placed r true) ∧
    (if r.slots.lower then r.slots.second else r.slots.first) = placed r false := by
  cases hr : r.isLower <;> simp [slots, placed, hr]

theorem halfAddr_block {e : PimMemTraceData} (lower : Bool) :
    halfAddr e.block lower &&& MASK = e.block ∧ 16 ∣ (halfAddr e.block lower).toNat := by
  have hblock := e.block_toNat
  have hupper := e.upper_toNat
  cases lower with
  | true =>
    refine ⟨?_, ?_⟩
    · rw [← UInt64.toNat_inj, toNat_and_mask, halfAddr, if_pos rfl]
      omega
    · rw [halfAddr, if_pos rfl]
      omega
  | false =>
    refine ⟨?_, ?_⟩
    · rw [← UInt64.toNat_inj, toNat_and_mask, halfAddr, if_neg Bool.false_ne_true]
      omega
    · rw [halfAddr, if_neg Bool.false_ne_true]
      omega

/-- An aligned address of the record's block is one of its halves. -/
theorem exists_halfAddr {r : PimMemTraceData} {a : UInt64} (hblock : a &&& MASK = r.block)
    (h : 16 ∣ a.toNat) :
    ∃ lower, a = halfAddr r.block lower := by
  have haddr := addr_eq_halfAddr (e := { r with addr := a }) h
  exact ⟨_, haddr.trans (by rw [← hblock]; rfl)⟩

/-- The same in terms of the two halves. -/
theorem holdsWrites_halves (h : run.Recorded before r) (hw : run.first.cmd = 'W') :
    HoldsWrites before.data r run.entries ↔
      (∀ lower e, (run.entries.filter fun e => e.isLower = lower).getLast? = some e →
        (lower = true → r.isLower = true) ∧ placed r lower = half e.data 0) ∧
      ∀ lower, (lower = true → r.isLower = true) → (∀ e ∈ run.entries, e.isLower ≠ lower) →
        placed r lower = half before.data (if lower = r.isLower then 0 else 16) := by
  have hblock : ∀ e ∈ run.entries, e.block = r.block :=
    fun e he => (h.block_eq e he).trans (h.block hw).symm
  have hr := h.aligned hw
  have haddr : ∀ e ∈ run.entries, ∀ lower, e.addr = halfAddr r.block lower ↔ e.isLower = lower := by
    intro e he lower
    rw [addr_eq_halfAddr (h.traced e he).aligned, hblock e he, halfAddr_inj]
  have hfilter : ∀ lower, (run.entries.filter fun e => e.addr = halfAddr r.block lower) =
      run.entries.filter fun e => e.isLower = lower := by
    intro lower
    exact List.filter_congr fun e he => decide_eq_decide.mpr (haddr e he lower)
  constructor
  · rintro ⟨hlast, hapart⟩
    refine ⟨?_, ?_⟩
    · intro lower e he
      rw [← hfilter] at he
      obtain ⟨hle, hbytes⟩ := hlast _ e he
      have hin := (halfAddr_place hr lower).1.mp hle
      exact ⟨hin, (forall_bytes_iff hr hin e.data 0).mp (by simpa using hbytes)⟩
    · intro lower hin hnone
      refine (forall_bytes_iff hr hin before.data _).mp fun i hi => ?_
      rw [hapart _ (halfAddr_block lower).1 (halfAddr_block lower).2 ((halfAddr_place hr lower).1.mpr hin)
        (fun e he heq => hnone e he ((haddr e he lower).mp heq)) i hi, (halfAddr_place hr lower).2 hin]
  · rintro ⟨hlast, hapart⟩
    refine ⟨?_, ?_⟩
    · intro a e he
      obtain ⟨hmem, ha⟩ := List.mem_filter.mp (List.mem_of_getLast? he)
      obtain ⟨lower, rfl⟩ : ∃ lower, a = halfAddr r.block lower :=
        ⟨e.isLower, by rw [← hblock e hmem, ← addr_eq_halfAddr (h.traced e hmem).aligned,
          of_decide_eq_true ha]⟩
      rw [hfilter] at he
      obtain ⟨hin, hplaced⟩ := hlast lower e he
      exact ⟨(halfAddr_place hr lower).1.mpr hin, by
        simpa using (forall_bytes_iff hr hin e.data 0).mpr hplaced⟩
    · intro a hmask haligned hle hnone i hi
      obtain ⟨lower, rfl⟩ := exists_halfAddr hmask haligned
      have hin := (halfAddr_place hr lower).1.mp hle
      have hplaced := hapart lower hin fun e he heq => hnone e he ((haddr e he lower).mpr heq)
      rw [(forall_bytes_iff hr hin before.data _).mpr hplaced i hi, (halfAddr_place hr lower).2 hin]

theorem side_eq_nil_iff {lower : Bool} {entries : List PimMemTraceData} :
    side lower (entries.map write) = [] ↔ ∀ e ∈ entries, e.isLower ≠ lower := by
  rw [← List.getLast?_eq_none_iff, getLast?_side, Option.map_eq_none_iff, List.getLast?_eq_none_iff,
    List.filter_eq_nil_iff]
  simp

/-- The record holds the writes of its run exactly when its slots are right. -/
theorem holdsWrites_iff (h : run.Recorded before r) (hw : run.first.cmd = 'W') :
    HoldsWrites before.data r run.entries ↔
      Right (half before.data 16) (run.entries.map write) r.slots := by
  have hlower : r.isLower = true ↔ ∃ e ∈ run.entries, e.isLower = true := by
    have hslots : r.slots.lower = true ↔ ∃ u ∈ run.first.write :: run.later.map write, u.1 = true := by
      rw [h.slots hw]
      exact gather_lower_iff
    simpa [Run.entries, slots, write] using hslots
  obtain ⟨hfirst, hupper⟩ := slots_placed r
  rw [holdsWrites_halves h hw]
  constructor
  · rintro ⟨hlast, hapart⟩
    refine ⟨?_, ?_, ?_⟩
    · intro v hv
      rw [getLast?_side] at hv
      obtain ⟨e, he, rfl⟩ := Option.map_eq_some_iff.mp hv
      obtain ⟨hin, hplaced⟩ := hlast true e he
      exact ⟨hin rfl, (hfirst (hin rfl)).trans hplaced⟩
    · intro v hv
      rw [getLast?_side] at hv
      obtain ⟨e, he, rfl⟩ := Option.map_eq_some_iff.mp hv
      exact hupper.trans (hlast false e he).2
    · intro hnone hside
      have hplaced := hapart false (fun h => absurd h Bool.false_ne_true) (side_eq_nil_iff.mp hnone)
      rw [← hupper, if_pos hside] at hplaced
      rw [hplaced, if_neg (by rw [show r.isLower = true from hside]; exact Bool.false_ne_true)]
  · intro hright
    refine ⟨?_, ?_⟩
    · intro lower e he
      have hvalue : (side lower (run.entries.map write)).getLast? = some (half e.data 0) := by
        rw [getLast?_side, he]
        rfl
      cases lower with
      | true =>
        obtain ⟨hside, hvalue⟩ := hright.lower _ hvalue
        exact ⟨fun _ => hside, (hfirst hside).symm.trans hvalue⟩
      | false => exact ⟨fun h => absurd h Bool.false_ne_true, hupper.symm.trans (hright.upper _ hvalue)⟩
    · intro lower hin hnone
      cases lower with
      | true =>
        obtain ⟨e, he, hlow⟩ := hlower.mp (hin rfl)
        exact absurd hlow (hnone e he)
      | false =>
        -- the first entry is not upper, so the record is on the lower side
        have hside : r.isLower = true := hlower.mpr
          ⟨run.first, List.mem_cons_self, by simpa using hnone run.first List.mem_cons_self⟩
        have happart := hright.apart (side_eq_nil_iff.mpr hnone) hside
        rw [← hupper, if_pos (show r.slots.lower = true from hside), happart, hside,
          if_neg Bool.false_ne_true]

end Records

/-- Write records hold what was merged into them exactly when the bytes of their runs are kept. -/
theorem writes_coalesced_iff (fmtd32 : ℕ → PimMemTraceData) (fmtd16 : List PimMemTraceData)
    (htraced : ∀ e ∈ fmtd16, e.Traced) : WritesCoalesced fmtd32 fmtd16 ↔ WritesKept fmtd32 fmtd16 := by
  obtain ⟨hcount, hrecords⟩ := coalesce_trace_runs fmtd32 fmtd16 htraced
  have hrun : ∀ k run, (runs fmtd16)[k]? = some run → run.first.cmd = 'W' →
      (HoldsWrites (fmtd32 k).data ((coalesce_trace fmtd32 fmtd16).1 k) (merged fmtd32 fmtd16 k) ↔
        Kept (half (fmtd32 k).data 16) (run.entries.map write)) := by
    intro k run hk hw
    obtain ⟨hrecord, hmerged⟩ := hrecords k run hk
    rw [hmerged, holdsWrites_iff hrecord hw, hrecord.slots hw]
    exact right_gather_iff
  constructor
  · intro h k run hk hw
    obtain ⟨hlt, -⟩ := List.getElem?_eq_some_iff.mp hk
    exact (hrun k run hk hw).mp (h k (hcount ▸ hlt) ((hrecords k run hk).1.cmd.trans hw))
  · intro h k hlt hcmd
    rw [hcount] at hlt
    have hk := List.getElem?_eq_getElem hlt
    have hw := (hrecords k _ hk).1.cmd.symm.trans hcmd
    exact (hrun k _ hk hw).mpr (h k _ hk hw)

/-- An upper half, the lower one, and the upper one again, all of block 64. -/
theorem writes_coalesced_upper_first :
    let write16 : UInt64 → UInt8 → PimMemTraceData := fun addr b => ⟨fun _ => b, addr, 0, 0, 'W'⟩
    WritesCoalesced (fun _ => ⟨fun _ => 0, 0, 0, 0, 'B'⟩) [write16 80 1, write16 64 2, write16 80 3] ↔
      WritesKept (fun _ => ⟨fun _ => 0, 0, 0, 0, 'B'⟩) [write16 80 1, write16 64 2, write16 80 3] :=
  writes_coalesced_iff _ _ (by
    intro e he
    simp only [List.mem_cons, List.not_mem_nil, or_false] at he
    rcases he with rfl | rfl | rfl <;> exact ⟨by decide, by decide⟩)

/-- The lower half of block 64 twice: the record keeps the first write, and takes the second for the
    upper half, which nothing wrote. -/
theorem lower_write_misplaced :
    let write16 : UInt64 → UInt8 → PimMemTraceData := fun addr b => ⟨fun _ => b, addr, 0, 0, 'W'⟩
    let out := coalesce_trace (fun _ => ⟨fun _ => 0, 0, 0, 0, 'B'⟩) [write16 64 7, write16 64 9]
    out.2 = 1 ∧ (out.1 0).addr = 64 ∧ (out.1 0).data 0 = 7 ∧ (out.1 0).data 16 = 9 ∧
      ¬ WritesCoalesced (fun _ => ⟨fun _ => 0, 0, 0, 0, 'B'⟩) [write16 64 7, write16 64 9] := by
  refine ⟨by decide, by decide, by decide, by decide, fun h => ?_⟩
  have hholds := h 0 (by decide) (by decide)
  obtain ⟨-, hbytes⟩ := hholds.last 64 ⟨fun _ => 9, 64, 0, 0, 'W'⟩ rfl
  exact absurd (hbytes 0 (by decide)) (by decide)

/-! ### Orderly traces -/

/-- The lower half is written at most once in a run, and the upper half once or last. -/
def WritesOrderly (fmtd16 : List PimMemTraceData) : Prop :=
  ∀ run ∈ runs fmtd16, run.first.cmd = 'W' → Orderly (run.entries.map write)

/-- An orderly trace is kept whatever its data and whatever was in the buffer. -/
theorem writesKept_of_orderly {fmtd16 : List PimMemTraceData} (h : WritesOrderly fmtd16)
    (fmtd32 : ℕ → PimMemTraceData) : WritesKept fmtd32 fmtd16 := fun _ run hk hw =>
  kept_of_orderly (h run (List.mem_of_getElem? hk) hw)

/-- With different data in every run and in the buffer, only orderly traces are kept. -/
theorem writesKept_iff_orderly (fmtd32 : ℕ → PimMemTraceData) (fmtd16 : List PimMemTraceData)
    (hdata : ∀ k run, (runs fmtd16)[k]? = some run → run.first.cmd = 'W' →
      (half (fmtd32 k).data 16 :: run.entries.map fun e => half e.data 0).Nodup) :
    WritesKept fmtd32 fmtd16 ↔ WritesOrderly fmtd16 := by
  refine ⟨?_, fun h => writesKept_of_orderly h fmtd32⟩
  intro h run hrun hw
  obtain ⟨k, hk⟩ := List.mem_iff_getElem?.mp hrun
  exact (kept_iff_orderly (by simpa [Function.comp_def, write] using hdata k run hk hw)).mp
    (h k run hk hw)

end PimLibrary.Emulator
