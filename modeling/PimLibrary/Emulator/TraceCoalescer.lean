import Mathlib.Tactic

/-! `TraceParser::coalesce_trace`: 16-byte trace entries joined to 32-byte transactions.

    The loop compares an entry with the command and the block of the one before it. On a trace of paired
    halves the first half of a pair opens a record and the second completes it, whichever comes first:
    when the lower half comes second, its thread and address replace those of the record and, for a
    write, the data moves up to make room. -/

namespace PimLibrary.Emulator

structure PimMemTraceData where
  data : ℕ → UInt8
  addr : UInt64
  block_id : ℤ
  thread_id : ℤ
  cmd : Char

abbrev TRANS_SIZE : UInt64 := 0x10

def MASK : UInt64 := ~~~((TRANS_SIZE <<< 1) - 1)

/-- `memcpy(dst + off, src, size)`. -/
def memcpy (dst : ℕ → UInt8) (off : ℕ) (src : ℕ → UInt8) (size : ℕ) : ℕ → UInt8 :=
  fun i => if off ≤ i ∧ i < off + size then src (i - off) else dst i

theorem memcpy_inside (dst src : ℕ → UInt8) (off : ℕ) {size i : ℕ} (hi : i < size) :
    memcpy dst off src size (off + i) = src i := by
  rw [memcpy, if_pos ⟨Nat.le_add_right off i, by omega⟩, Nat.add_sub_cancel_left]

theorem memcpy_outside (dst src : ℕ → UInt8) {off size i : ℕ} (hi : i < off ∨ off + size ≤ i) :
    memcpy dst off src size i = dst i := by
  rw [memcpy, if_neg (by omega)]

/-- The buffer written and the locals of the loop; `-1` is no address. -/
structure ParserState where
  fmtd32 : ℕ → PimMemTraceData
  coalesced_trace_it : ℕ := 0
  prev_addr : UInt64 := -1
  prev_cmd : Char := 'B'

namespace ParserState

/-- Write the record at an index. -/
def put (s : ParserState) (k : ℕ) (r : PimMemTraceData) : ParserState :=
  { s with fmtd32 := Function.update s.fmtd32 k r }

/-- `fmtd32[coalesced_trace_it - 1]`. -/
def last (s : ParserState) : PimMemTraceData := s.fmtd32 (s.coalesced_trace_it - 1)

/-- `fmtd32[coalesced_trace_it]`. -/
def next (s : ParserState) : PimMemTraceData := s.fmtd32 s.coalesced_trace_it

end ParserState

open ParserState

def coalesced_update (s : ParserState) (e : PimMemTraceData) (prev_cmd : Char) : ParserState :=
  let s := s.put s.coalesced_trace_it
    { s.next with cmd := prev_cmd, block_id := e.block_id, thread_id := e.thread_id, addr := e.addr }
  { s with coalesced_trace_it := s.coalesced_trace_it + 1, prev_addr := e.addr &&& MASK }

def barrier_entry (s : ParserState) (e : PimMemTraceData) : ParserState :=
  let s := s.put s.coalesced_trace_it
    { s.next with cmd := 'B', block_id := e.block_id, thread_id := e.thread_id, addr := 0 }
  { s with coalesced_trace_it := s.coalesced_trace_it + 1, prev_addr := -1, prev_cmd := 'B' }

/-- The branches of `R` and `O`. -/
def read_entry (cmd : Char) (s : ParserState) (e : PimMemTraceData) : ParserState :=
  let s :=
    if s.prev_addr ≠ -1 ∧ s.prev_cmd = cmd then
      if s.prev_addr = e.addr &&& MASK then
        if e.addr < s.last.addr then
          s.put (s.coalesced_trace_it - 1) { s.last with thread_id := e.thread_id, addr :=
            e.addr &&& MASK }
        else s
      else coalesced_update s e cmd
    else coalesced_update s e cmd
  { s with prev_cmd := cmd }

def write_entry (s : ParserState) (e : PimMemTraceData) : ParserState :=
  let opened := coalesced_update
    (s.put s.coalesced_trace_it { s.next with data := memcpy s.next.data 0 e.data 16 }) e 'W'
  let s :=
    if s.prev_addr ≠ -1 ∧ s.prev_cmd = 'W' then
      if s.prev_addr = e.addr &&& MASK then
        if e.addr < s.last.addr then
          let moved := memcpy s.last.data 16 s.last.data 16
          s.put (s.coalesced_trace_it - 1)
            { s.last with data := memcpy moved 0 e.data 16, thread_id := e.thread_id, addr :=
              e.addr &&& MASK }
        else s.put (s.coalesced_trace_it - 1) { s.last with data := memcpy s.last.data 16 e.data 16 }
      else opened
    else opened
  { s with prev_cmd := 'W' }

/-- One round of the loop. -/
def coalesce_entry (s : ParserState) (e : PimMemTraceData) : ParserState :=
  match e.cmd with
  | 'B' => barrier_entry s e
  | 'R' => read_entry 'R' s e
  | 'O' => read_entry 'O' s e
  | 'W' => write_entry s e
  | _ => s

/-- The buffer and `fmtd32_size[0]`. -/
def coalesce_trace (fmtd32 : ℕ → PimMemTraceData) (fmtd16 : List PimMemTraceData) :
    (ℕ → PimMemTraceData) × ℕ :=
  let s := fmtd16.foldl coalesce_entry { fmtd32 := fmtd32 }
  (s.fmtd32, s.coalesced_trace_it)

/-! ### Paired traces -/

/-- The two halves of an aligned 32-byte block. -/
structure Halves where
  cmd : Char
  block : UInt64
  lower : PimMemTraceData
  upper : PimMemTraceData
  lower_first : Bool
  is_access : cmd = 'R' ∨ cmd = 'W' ∨ cmd = 'O'
  aligned : 32 ∣ block.toNat
  lower_cmd : lower.cmd = cmd
  upper_cmd : upper.cmd = cmd
  lower_addr : lower.addr = block
  upper_addr : upper.addr = block + 16

inductive Item where
  | barrier (e : PimMemTraceData) (is_barrier : e.cmd = 'B')
  | halves (p : Halves)

def Halves.first (p : Halves) : PimMemTraceData := if p.lower_first then p.lower else p.upper

def Halves.second (p : Halves) : PimMemTraceData := if p.lower_first then p.upper else p.lower

def Item.entries : Item → List PimMemTraceData
  | .barrier e _ => [e]
  | .halves p => [p.first, p.second]

/-- Neighbouring pairs differ in the command or the block. -/
def Item.Apart : Item → Item → Prop
  | .halves p, .halves q => ¬ (p.cmd = q.cmd ∧ p.block = q.block)
  | _, _ => True

/-- The record of a barrier or a pair. -/
def Item.Recorded : Item → PimMemTraceData → Prop
  | .barrier e _, r => r.cmd = 'B' ∧ r.addr = 0 ∧ r.block_id = e.block_id ∧ r.thread_id = e.thread_id
  | .halves p, r => r.cmd = p.cmd ∧ r.addr = p.block ∧ r.thread_id = p.lower.thread_id ∧
      (p.cmd = 'W' → ∀ i < 16, r.data i = p.lower.data i ∧ r.data (16 + i) = p.upper.data i)

/-! ### Addresses -/

theorem toNat_and_mask (a : UInt64) : (a &&& MASK).toNat = a.toNat / 32 * 32 := by
  have hmask : MASK.toNat = (2 ^ 59 - 1) * 2 ^ 5 := by decide
  have hlt := a.toNat_lt
  rw [UInt64.toNat_and, hmask]
  refine Nat.eq_of_testBit_eq fun i => ?_
  change _ = (a.toNat / 2 ^ 5 * 2 ^ 5).testBit i
  rw [Nat.testBit_and, Nat.testBit_mul_two_pow, Nat.testBit_two_pow_sub_one, Nat.testBit_mul_two_pow,
    Nat.testBit_div_two_pow]
  by_cases hi : 5 ≤ i
  · rw [Nat.sub_add_cancel hi]
    by_cases hi' : i < 64
    · have hsub : i - 5 < 59 := by omega
      simp [hi, hsub]
    · have hzero : a.toNat.testBit i = false :=
        Nat.testBit_lt_two_pow (hlt.trans_le (Nat.pow_le_pow_right two_pos (not_lt.mp hi')))
      simp [hzero]
  · simp [hi]

variable {s : ParserState} {p : Halves} {e : PimMemTraceData}

theorem Halves.block_le (p : Halves) : p.block.toNat + 32 ≤ 2 ^ 64 := by
  have hlt := p.block.toNat_lt
  obtain ⟨k, hk⟩ := p.aligned
  omega

theorem Halves.upper_toNat (p : Halves) : (p.block + 16).toNat = p.block.toNat + 16 := by
  have hle := p.block_le
  rw [UInt64.toNat_add]
  exact Nat.mod_eq_of_lt (by change p.block.toNat + 16 < 2 ^ 64; omega)

theorem Halves.lower_mask (p : Halves) : p.lower.addr &&& MASK = p.block := by
  rw [p.lower_addr, ← UInt64.toNat_inj, toNat_and_mask, Nat.div_mul_cancel p.aligned]

theorem Halves.upper_mask (p : Halves) : p.upper.addr &&& MASK = p.block := by
  obtain ⟨k, hk⟩ := p.aligned
  rw [p.upper_addr, ← UInt64.toNat_inj, toNat_and_mask, p.upper_toNat]
  omega

theorem Halves.block_ne (p : Halves) : p.block ≠ -1 := by
  intro h
  have hle := p.block_le
  rw [h] at hle
  revert hle
  decide

theorem Halves.lower_lt_upper (p : Halves) : p.lower.addr < p.upper.addr := by
  rw [UInt64.lt_iff_toNat_lt, p.lower_addr, p.upper_addr, p.upper_toNat]
  omega

theorem Halves.first_cmd (p : Halves) : p.first.cmd = p.cmd := by
  rw [Halves.first]
  split_ifs
  · exact p.lower_cmd
  · exact p.upper_cmd

theorem Halves.second_cmd (p : Halves) : p.second.cmd = p.cmd := by
  rw [Halves.second]
  split_ifs
  · exact p.upper_cmd
  · exact p.lower_cmd

theorem Halves.first_mask (p : Halves) : p.first.addr &&& MASK = p.block := by
  rw [Halves.first]
  split_ifs
  · exact p.lower_mask
  · exact p.upper_mask

theorem Halves.second_mask (p : Halves) : p.second.addr &&& MASK = p.block := by
  rw [Halves.second]
  split_ifs
  · exact p.upper_mask
  · exact p.lower_mask

/-! ### One entry -/

/-- The tests that send an entry to the record before it. -/
def Continues (s : ParserState) (cmd : Char) (e : PimMemTraceData) : Prop :=
  (s.prev_addr ≠ -1 ∧ s.prev_cmd = cmd) ∧ s.prev_addr = e.addr &&& MASK

theorem read_entry_opens {cmd : Char} (h : ¬ Continues s cmd e) :
    read_entry cmd s e = { coalesced_update s e cmd with prev_cmd := cmd } := by
  rw [read_entry]
  rcases not_and_or.mp h with hprev | haddr
  · rw [if_neg hprev]
  · rw [if_neg haddr, ite_self]

theorem write_entry_opens (h : ¬ Continues s 'W' e) : write_entry s e =
    { coalesced_update (s.put s.coalesced_trace_it { s.next with data := memcpy s.next.data 0 e.data 16 }) e 'W' with
      prev_cmd := 'W' } := by
  rw [write_entry]
  rcases not_and_or.mp h with hprev | haddr
  · rw [if_neg hprev]
  · rw [if_neg haddr, ite_self]

/-! ### One pair -/

/-- The entry does not continue the record before it. -/
def Opens (s : ParserState) (p : Halves) : Prop := s.prev_cmd = p.cmd → s.prev_addr ≠ p.block

/-- What the loop has after an item: its record at the end, and the item as the previous entry. -/
structure After (s s' : ParserState) (item : Item) : Prop where
  it : s'.coalesced_trace_it = s.coalesced_trace_it + 1
  frame : ∀ k ≠ s.coalesced_trace_it, s'.fmtd32 k = s.fmtd32 k
  record : item.Recorded (s'.fmtd32 s.coalesced_trace_it)
  opens : ∀ q, item.Apart (.halves q) → Opens s' q

theorem barrier_after (s : ParserState) (he : e.cmd = 'B') :
    After s (coalesce_entry s e) (.barrier e he) := by
  have hstep : coalesce_entry s e = barrier_entry s e := by simp [coalesce_entry, he]
  rw [hstep]
  refine ⟨rfl, ?_, ?_, ?_⟩
  · intro k hk
    exact Function.update_of_ne hk _ _
  · simp [Item.Recorded, barrier_entry, put]
  · intro q _ hcmd
    exact q.block_ne.symm

theorem Opens.not_continues (h : Opens s p) : ¬ Continues s p.cmd p.first := by
  rintro ⟨⟨-, hcmd⟩, haddr⟩
  exact h hcmd (haddr.trans p.first_mask)

/-- The state after the first half of a pair. -/
structure Opened (s s' : ParserState) (p : Halves) : Prop where
  it : s'.coalesced_trace_it = s.coalesced_trace_it + 1
  frame : ∀ k ≠ s.coalesced_trace_it, s'.fmtd32 k = s.fmtd32 k
  addr : s'.last.addr = p.first.addr
  cmd : s'.last.cmd = p.cmd
  thread_id : s'.last.thread_id = p.first.thread_id
  data : p.cmd = 'W' → ∀ i < 16, s'.last.data i = p.first.data i
  prev_addr : s'.prev_addr = p.block
  prev_cmd : s'.prev_cmd = p.cmd

theorem read_opened (h : Opens s p) (hread : p.cmd ≠ 'W') :
    Opened s (read_entry p.cmd s p.first) p := by
  rw [read_entry_opens h.not_continues]
  refine ⟨rfl, ?_, ?_, ?_, ?_, ?_, p.first_mask, rfl⟩
  · intro k hk
    exact Function.update_of_ne hk _ _
  · simp [coalesced_update, put, last]
  · simp [coalesced_update, put, last]
  · simp [coalesced_update, put, last]
  · exact fun hwrite => absurd hwrite hread

theorem write_opened (h : Opens s p) (hwrite : p.cmd = 'W') : Opened s (write_entry s p.first) p := by
  rw [write_entry_opens (hwrite ▸ h.not_continues)]
  refine ⟨rfl, ?_, ?_, ?_, ?_, ?_, p.first_mask, hwrite.symm⟩
  · intro k hk
    simp [coalesced_update, put, Function.update_of_ne hk]
  · simp [coalesced_update, put, last]
  · simp [coalesced_update, put, last, hwrite]
  · simp [coalesced_update, put, last]
  · intro _ i hi
    have hlow := memcpy_inside s.next.data p.first.data 0 hi
    rw [Nat.zero_add] at hlow
    simpa [coalesced_update, put, last, next] using hlow

/-- The second half goes to the record the first one opened. -/
theorem Opened.continues {s' : ParserState} (h : Opened s s' p) : Continues s' p.cmd p.second := by
  rw [Continues, h.prev_addr, p.second_mask]
  exact ⟨⟨p.block_ne, h.prev_cmd⟩, rfl⟩

theorem Opened.lt_iff {s' : ParserState} (h : Opened s s' p) : p.second.addr < s'.last.addr ↔
    p.lower_first = false := by
  have hlt := p.lower_lt_upper
  rw [h.addr, Halves.first, Halves.second]
  cases p.lower_first
  · simpa using hlt
  · simpa using UInt64.not_lt.mpr (UInt64.le_of_lt hlt)

/-- After an item with the command and block of the pair, the next one opens if it is apart. -/
theorem opens_of_apart (haddr : s.prev_addr = p.block) (hcmd : s.prev_cmd = p.cmd) (q : Halves)
    (hapart : Item.Apart (.halves p) (.halves q)) : Opens s q := by
  intro hsame haddr'
  exact hapart ⟨hcmd.symm.trans hsame, haddr.symm.trans haddr'⟩

theorem Opened.read_after {s' : ParserState} (h : Opened s s' p) (hread : p.cmd ≠ 'W') :
    After s (read_entry p.cmd s' p.second) (.halves p) := by
  obtain ⟨hcont, haddr⟩ := h.continues
  have hlast : s'.coalesced_trace_it - 1 = s.coalesced_trace_it := by rw [h.it, Nat.add_sub_cancel]
  rw [read_entry, if_pos hcont, if_pos haddr]
  split_ifs with hlt
  · have hfirst := h.lt_iff.mp hlt
    have hsecond : p.second = p.lower := by simp [Halves.second, hfirst]
    refine ⟨h.it, ?_, ?_, opens_of_apart h.prev_addr rfl⟩
    · intro k hk
      rw [hlast]
      exact (Function.update_of_ne hk _ _).trans (h.frame k hk)
    · rw [hlast, hsecond, p.lower_mask]
      simp only [put, Function.update_self, Item.Recorded]
      exact ⟨h.cmd, trivial, trivial, fun hwrite => absurd hwrite hread⟩
  · have hfirst : p.lower_first = true := by simpa using mt h.lt_iff.mpr hlt
    have hsecond : p.first = p.lower := by simp [Halves.first, hfirst]
    refine ⟨h.it, h.frame, ?_, opens_of_apart h.prev_addr rfl⟩
    have hrec := h.addr
    have hthread := h.thread_id
    rw [hsecond] at hrec hthread
    rw [p.lower_addr] at hrec
    change Item.Recorded _ (s'.fmtd32 s.coalesced_trace_it)
    rw [← hlast]
    exact ⟨h.cmd, hrec, hthread, fun hwrite => absurd hwrite hread⟩

theorem Opened.write_after {s' : ParserState} (h : Opened s s' p) (hwrite : p.cmd = 'W') :
    After s (write_entry s' p.second) (.halves p) := by
  obtain ⟨hcont, haddr⟩ := h.continues
  have hlast : s'.coalesced_trace_it - 1 = s.coalesced_trace_it := by rw [h.it, Nat.add_sub_cancel]
  have hdata := h.data hwrite
  rw [hwrite] at hcont
  rw [write_entry, if_pos hcont, if_pos haddr]
  split_ifs with hlt
  · have hfirst := h.lt_iff.mp hlt
    have hlower : p.second = p.lower := by simp [Halves.second, hfirst]
    have hupper : p.first = p.upper := by simp [Halves.first, hfirst]
    refine ⟨h.it, ?_, ?_, opens_of_apart h.prev_addr hwrite.symm⟩
    · intro k hk
      rw [hlast]
      exact (Function.update_of_ne hk _ _).trans (h.frame k hk)
    · rw [hlast, hlower, p.lower_mask]
      rw [hupper] at hdata
      simp only [put, Function.update_self, Item.Recorded]
      refine ⟨h.cmd, trivial, trivial, fun _ i hi => ⟨?_, ?_⟩⟩
      · have hlow := memcpy_inside (memcpy s'.last.data 16 s'.last.data 16) p.lower.data 0 hi
        rwa [Nat.zero_add] at hlow
      · rw [memcpy_outside _ _ (Or.inr (by omega)), memcpy_inside _ _ 16 hi]
        exact hdata i hi
  · have hfirst : p.lower_first = true := by simpa using mt h.lt_iff.mpr hlt
    have hlower : p.first = p.lower := by simp [Halves.first, hfirst]
    have hupper : p.second = p.upper := by simp [Halves.second, hfirst]
    refine ⟨h.it, ?_, ?_, opens_of_apart h.prev_addr hwrite.symm⟩
    · intro k hk
      rw [hlast]
      exact (Function.update_of_ne hk _ _).trans (h.frame k hk)
    · have hrec := h.addr
      have hthread := h.thread_id
      rw [hlower] at hrec hthread hdata
      rw [p.lower_addr] at hrec
      rw [hlast, hupper]
      simp only [put, Function.update_self, Item.Recorded]
      refine ⟨h.cmd, hrec, hthread, fun _ i hi => ⟨?_, memcpy_inside _ _ 16 hi⟩⟩
      rw [memcpy_outside _ _ (Or.inl hi)]
      exact hdata i hi

theorem halves_after (h : Opens s p) : After s (coalesce_entry (coalesce_entry s p.first) p.second)
    (.halves p) := by
  have hread : p.cmd = 'R' ∨ p.cmd = 'O' →
      After s (coalesce_entry (coalesce_entry s p.first) p.second) (.halves p) := by
    intro hcmd
    have hne : p.cmd ≠ 'W' := by rcases hcmd with h | h <;> rw [h] <;> decide
    have hstep : ∀ s e, e.cmd = p.cmd → coalesce_entry s e = read_entry p.cmd s e := by
      intro s e he
      rcases hcmd with h | h <;> simp [coalesce_entry, he, h]
    rw [hstep _ _ p.first_cmd, hstep _ _ p.second_cmd]
    exact (read_opened h hne).read_after hne
  rcases p.is_access with hcmd | hcmd | hcmd
  · exact hread (Or.inl hcmd)
  · have hstep : ∀ s e, e.cmd = p.cmd → coalesce_entry s e = write_entry s e := by
      intro s e he
      simp [coalesce_entry, he, hcmd]
    rw [hstep _ _ p.first_cmd, hstep _ _ p.second_cmd]
    exact (write_opened h hcmd).write_after hcmd
  · exact hread (Or.inr hcmd)

/-! ### The whole trace -/

/-- The item's entries start a record of their own. -/
def Ready (s : ParserState) : Item → Prop
  | .barrier _ _ => True
  | .halves p => Opens s p

theorem item_after {item : Item} (h : Ready s item) :
    After s (item.entries.foldl coalesce_entry s) item := by
  cases item with
  | barrier e he => exact barrier_after s he
  | halves p => exact halves_after h

theorem After.ready {s' : ParserState} {item item' : Item} (h : After s s' item)
    (hapart : item.Apart item') : Ready s' item' := by
  cases item' with
  | barrier e he => trivial
  | halves q => exact h.opens q hapart

/-- What the loop has written after a list of items. -/
structure Written (s s' : ParserState) (items : List Item) : Prop where
  it : s'.coalesced_trace_it = s.coalesced_trace_it + items.length
  before : ∀ k < s.coalesced_trace_it, s'.fmtd32 k = s.fmtd32 k
  record : ∀ (k : ℕ) (item : Item), items[k]? = some item →
    item.Recorded (s'.fmtd32 (s.coalesced_trace_it + k))
  after : ∀ k, s.coalesced_trace_it + items.length ≤ k → s'.fmtd32 k = s.fmtd32 k

theorem items_written (items : List Item) (hchain : items.IsChain Item.Apart) :
    ∀ s, (∀ item ∈ items.head?, Ready s item) →
      Written s ((items.flatMap Item.entries).foldl coalesce_entry s) items := by
  induction items with
  | nil =>
    intro s _
    exact ⟨rfl, fun _ _ => rfl, by simp, fun _ _ => rfl⟩
  | cons item items ih =>
    intro s hready
    have hitem := item_after (hready item rfl)
    rw [List.flatMap_cons, List.foldl_append]
    set s' := item.entries.foldl coalesce_entry s
    have hrest := ih hchain.of_cons s' (by
      intro item' hhead
      obtain ⟨items', rfl⟩ := List.head?_eq_some_iff.mp hhead
      exact hitem.ready hchain.rel)
    refine ⟨?_, ?_, ?_, ?_⟩
    · rw [hrest.it, hitem.it, List.length_cons]
      omega
    · intro k hk
      rw [hrest.before k (by rw [hitem.it]; omega), hitem.frame k hk.ne]
    · intro k item' hk
      cases k with
      | zero =>
        obtain rfl : item = item' := by simpa using hk
        rw [Nat.add_zero, hrest.before _ (by rw [hitem.it]; omega)]
        exact hitem.record
      | succ k =>
        have hrec := hrest.record k item' (by simpa using hk)
        rwa [hitem.it, Nat.add_assoc, Nat.add_comm 1] at hrec
    · intro k hk
      rw [List.length_cons] at hk
      rw [hrest.after k (by rw [hitem.it]; omega), hitem.frame k (by omega)]

theorem Item.one_le_entries (item : Item) : 1 ≤ item.entries.length := by
  cases item <;> simp [Item.entries]

/-- On paired traces one record comes out for each barrier and each pair, in order, and no other
    element of the buffer changes. -/
theorem coalesce_trace_paired (fmtd32 : ℕ → PimMemTraceData) (items : List Item)
    (hchain : items.IsChain Item.Apart) :
    let out := coalesce_trace fmtd32 (items.flatMap Item.entries)
    out.2 = items.length ∧ out.2 ≤ (items.flatMap Item.entries).length ∧
      (∀ (k : ℕ) (item : Item), items[k]? = some item → item.Recorded (out.1 k)) ∧
      ∀ k, out.2 ≤ k → out.1 k = fmtd32 k := by
  have hwritten := items_written items hchain { fmtd32 := fmtd32 } (by
    intro item _
    cases item with
    | barrier e he => trivial
    | halves p => exact fun _ => p.block_ne.symm)
  have hcount : (coalesce_trace fmtd32 (items.flatMap Item.entries)).2 = items.length := by
    rw [coalesce_trace, hwritten.it, Nat.zero_add]
  refine ⟨hcount, ?_, ?_, ?_⟩
  · rw [hcount, List.length_flatMap]
    calc items.length = (items.map fun _ => 1).sum := by simp
      _ ≤ (items.map fun item => item.entries.length).sum :=
        List.sum_le_sum fun item _ => item.one_le_entries
  · intro k item hk
    have hrec := hwritten.record k item hk
    rwa [Nat.zero_add] at hrec
  · intro k hk
    rw [hcount] at hk
    exact hwritten.after k (by rw [Nat.zero_add]; exact hk)

/-- A barrier, a block written upper half first by threads 1 and 0, and read back. -/
def write_then_read : List Item :=
  [.barrier ⟨fun _ => 0, 0, 0, 0, 'B'⟩ rfl,
    .halves ⟨'W', 64, ⟨fun _ => 7, 64, 0, 0, 'W'⟩, ⟨fun _ => 9, 80, 0, 1, 'W'⟩, false, by decide, by
      decide, rfl, rfl, rfl, rfl⟩,
    .halves ⟨'R', 64, ⟨fun _ => 0, 64, 0, 0, 'R'⟩, ⟨fun _ => 0, 80, 0, 1, 'R'⟩, true, by decide, by
      decide, rfl, rfl, rfl, rfl⟩]

theorem coalesce_trace_write_then_read :
    (coalesce_trace (fun _ => ⟨fun _ => 0, 0, 0, 0, 'R'⟩)
      (write_then_read.flatMap Item.entries)).2 = 3 := by
  refine (coalesce_trace_paired _ write_then_read (.cons_cons trivial (.cons_cons ?_ (.singleton _)))).1
  rintro ⟨hcmd, -⟩
  revert hcmd
  decide

end PimLibrary.Emulator
