import PimLibrary.Device.AddrMap

/-! `addressMapping`, the debug decoder of addresses.

    It peels bit fields off an address from the bottom, with widths of its own, which are not those of
    the address map. Below the first field it drops two bits beyond the offset as low column bits,
    though one of them is a channel bit and it reads the low column bits again further up; and it takes
    the bank group's width out of the two bits of the bank. So every field is read off its neighbours:

        encoded  col[0] chan[0] col[1]  chan[1] chan[2] chan[5:3],bank[0],bankgroup[0]
        decoded  -      -       col[0]  chan[0] col[1]  chan[5:1]
        encoded  bankgroup[1],bank[1]   col[2]  col[4:3],row[11:0]  row[12]
        decoded  bank                   col[2]  row                 rank -/

namespace PimLibrary.Device
open Schemes.Word Schemes.Digits

/-- What `addressMapping` stores through its reference parameters. -/
structure NewTransaction where
  chan : ℕ
  rank : ℕ
  bank : ℕ
  row : ℕ
  column : ℕ
  deriving DecidableEq, Repr

/-- `tempA = a; a = a >> width; tempB = a << width`: the value of `tempA ^ tempB`, and `a`. -/
def peel (physicalAddress width : ℕ) : ℕ × ℕ :=
  let tempA := physicalAddress
  let physicalAddress := physicalAddress >>> width
  let tempB := uint64 (physicalAddress <<< width)
  (tempA ^^^ tempB, physicalAddress)

def addressMapping (physicalAddress : ℕ) : NewTransaction :=
  let channelBitWidth := 6
  let rankBitWidth := 1
  let bankBitWidth := 2
  let bankgroupBitWidth := 2
  let rowBitWidth := 14
  let colBitWidth := 5
  let byteOffsetWidth := 5
  let physicalAddress := physicalAddress >>> byteOffsetWidth
  let colLowBitWidth := 2
  let physicalAddress := physicalAddress >>> colLowBitWidth
  let colHighBitWidth := colBitWidth - colLowBitWidth
  let col_low_width := 2
  let ba_low_width := (bankBitWidth - bankgroupBitWidth) / 2
  let col_high_width := colHighBitWidth - col_low_width
  let ba_high_width := (bankBitWidth - bankgroupBitWidth) - ba_low_width
  let (bits, physicalAddress) := peel physicalAddress 1
  let newTransactionColumn := uint32 bits
  let (bits, physicalAddress) := peel physicalAddress 1
  let newTransactionChan := uint32 bits
  let (bits, physicalAddress) := peel physicalAddress (col_low_width - 1)
  let newTransactionColumn := uint32 (newTransactionColumn ||| uint64 (bits <<< 1))
  let (bits, physicalAddress) := peel physicalAddress (channelBitWidth - 1)
  let newTransactionChan := uint32 (newTransactionChan ||| uint64 (bits <<< 1))
  let (bits, physicalAddress) := peel physicalAddress ba_low_width
  let newTransactionBank := uint32 bits
  let (bits, physicalAddress) := peel physicalAddress bankgroupBitWidth
  let newTransactionBank :=
    uint32 (newTransactionBank ||| uint64 (bits <<< (bankBitWidth - bankgroupBitWidth)))
  let (bits, physicalAddress) := peel physicalAddress ba_high_width
  let newTransactionBank := uint32 (newTransactionBank ||| uint64 (bits <<< ba_low_width))
  let (bits, physicalAddress) := peel physicalAddress col_high_width
  let newTransactionColumn := uint32 (newTransactionColumn ||| uint64 (bits <<< col_low_width))
  let (bits, physicalAddress) := peel physicalAddress rowBitWidth
  let newTransactionRow := uint32 bits
  let (bits, _) := peel physicalAddress rankBitWidth
  let newTransactionRank := uint32 bits
  { chan := newTransactionChan
    rank := newTransactionRank
    bank := newTransactionBank
    row := newTransactionRow
    column := newTransactionColumn }

/-! ### Peeling -/

/-- The bits that a shift to the right and back loses are those below it. -/
theorem peel_eq {a : ℕ} (ha : a < 2 ^ 64) (width : ℕ) :
    peel a width = (a % 2 ^ width, a / 2 ^ width) := by
  have hlt : (a >>> width) <<< width < 2 ^ 64 := by
    rw [Nat.shiftRight_eq_div_pow, Nat.shiftLeft_eq]
    exact (Nat.div_mul_le_self a _).trans_lt ha
  have hxor : a ^^^ (a >>> width) <<< width = a % 2 ^ width := by
    refine Nat.eq_of_testBit_eq fun i => ?_
    rw [Nat.testBit_xor, Nat.testBit_shiftLeft, Nat.testBit_shiftRight, Nat.testBit_mod_two_pow]
    rcases Nat.lt_or_ge i width with hi | hi
    · simp [hi, Nat.not_le.mpr hi]
    · simp [hi, Nat.not_lt.mpr hi]
  rw [peel, uint64_of_lt hlt, hxor, Nat.shiftRight_eq_div_pow]

/-- A field joined in above the ones before it. -/
theorem join_eq {a b k m : ℕ} (ha : a < 2 ^ k) (hb : b < 2 ^ m) (hm : m + k ≤ 32) :
    uint32 (a ||| uint64 (b <<< k)) = a + 2 ^ k * b := by
  obtain ⟨heq, hlt⟩ := shift_or hb ha (by omega)
  rw [Nat.or_comm, heq, uint32, Nat.mod_eq_of_lt (hlt.trans_le (Nat.pow_le_pow_right two_pos hm))]

/-- Which bits of an address the fields are read from. -/
theorem addressMapping_eq {a : ℕ} (ha : a < 2 ^ 64) :
    addressMapping a =
      { chan := a / 2 ^ 8 % 2 + 2 * (a / 2 ^ 10 % 32)
        rank := a / 2 ^ 32 % 2
        bank := a / 2 ^ 15 % 4
        row := a / 2 ^ 18 % 2 ^ 14
        column := a / 2 ^ 7 % 2 + 2 * (a / 2 ^ 9 % 2) + 4 * (a / 2 ^ 17 % 2) } := by
  have hchan := join_eq (a := a / 256 % 2) (b := a / 1024 % 32) (k := 1) (m := 5)
    (by omega) (by omega) (by omega)
  have hcol := join_eq (a := a / 128 % 2) (b := a / 512 % 2) (k := 1) (m := 1)
    (by omega) (by omega) (by omega)
  have hcol' := join_eq (a := a / 128 % 2 + 2 * (a / 512 % 2)) (b := a / 131072 % 2) (k := 2) (m := 1)
    (by omega) (by omega) (by omega)
  have hbank := join_eq (a := 0) (b := a / 32768 % 4) (k := 0) (m := 2) (by omega) (by omega) (by omega)
  simp (disch := omega) only [addressMapping, Nat.reduceSub, Nat.reduceDiv, Nat.shiftRight_eq_div_pow,
    peel_eq, Nat.reducePow, Nat.div_div_eq_div_mul, Nat.reduceMul, Nat.mod_one, uint32_of_lt]
  simp only [Nat.reducePow, one_mul, Nat.zero_add] at hchan hcol hcol' hbank
  rw [hchan, hcol, hcol', hbank, Nat.zero_shiftLeft, uint64_of_lt (by omega), Nat.or_zero,
    uint32_of_lt (by omega)]

/-- The bit fields above the first two, as coarse as encoder and decoder both have them. -/
abbrev fineRadices : List ℕ := [2, 2, 2, 8, 2, 2, 2, 2, 2, 4, 4096, 4]

def fineFields (chan bankgroup bank row col : ℕ) : List ℕ :=
  [col / 2 % 2, chan / 2 % 2, chan / 4 % 2, chan / 8, bank % 2, bankgroup % 2, bankgroup / 2, bank / 2,
    col / 4 % 2, col / 8, row % 4096, row / 4096]

theorem transaction_fine {chan bankgroup bank row col : ℕ} (hc : chan < 64) (hb : bank < 4)
    (hk : col < 32) :
    transaction chan bankgroup bank row col / 4 =
      mix fineRadices (fineFields chan bankgroup bank row col) := by
  have hchan : chan / 2 % 32 = chan / 2 % 2 + 2 * (chan / 4 % 2) + 4 * (chan / 8) := by omega
  have hbg : bankgroup = bankgroup % 2 + 2 * (bankgroup / 2) := by omega
  have hbank : bank / 2 % 2 = bank / 2 := by omega
  have hcol : col / 4 % 8 = col / 4 % 2 + 2 * (col / 8) := by omega
  have hrow : row = row % 4096 + 4096 * (row / 4096) := by omega
  have hsum : transaction chan bankgroup bank row col =
      col % 2 + 2 * (chan % 2) + 4 * mix fineRadices (fineFields chan bankgroup bank row col) := by
    simp only [transaction, fineRadices, fineFields, mix, hchan, hbank, hcol]
    nth_rewrite 1 [hbg, hrow]
    ring
  omega

theorem fineFields_inRange {chan bankgroup bank row col : ℕ} (hc : chan < 64) (hg : bankgroup < 4)
    (hb : bank < 4)
    (hr : row < 2 ^ 14) (hk : col < 32) :
    InRange fineRadices (fineFields chan bankgroup bank row col) := by
  simp only [fineRadices, fineFields, List.forall₂_cons]
  refine ⟨?_, ?_, ?_, ?_, ?_, ?_, ?_, ?_, ?_, ?_, ?_, ?_, .nil⟩ <;> omega

/-- The bits of the coordinates that come back in place of each of them. -/
theorem addressMapping_addr_gen {chan bankgroup bank row col : ℕ} (hc : chan < 64) (hg : bankgroup < 4)
    (hb : bank < 4) (hr : row < 2 ^ 14) (hk : col < 32) :
    addressMapping (addr_gen chan 0 bankgroup bank row col) =
      { chan := chan / 2 % 2 + 2 * (chan / 8 + 8 * (bank % 2) + 16 * (bankgroup % 2))
        rank := row / 4096 % 2
        bank := bankgroup / 2 + 2 * (bank / 2)
        row := col / 8 + 4 * (row % 4096)
        column := col / 2 % 2 + 2 * (chan / 4 % 2) + 4 * (col / 4 % 2) } := by
  -- the fields that the decoder reads as one
  have hchan (n : ℕ) : n / 8 % 32 = n / 8 % 8 + 8 * (n / 64 % 2) + 16 * (n / 128 % 2) := by omega
  have hbank (n : ℕ) : n / 256 % 4 = n / 256 % 2 + 2 * (n / 512 % 2) := by omega
  have hrow (n : ℕ) : n / 2048 % 16384 = n / 2048 % 4 + 4 * (n / 8192 % 4096) := by omega
  have hrank (n : ℕ) : n / 33554432 % 2 = n / 33554432 % 4 % 2 := by omega
  have hlt := transaction_lt chan bank col hg hr
  have hfine := unmix_mix (fineFields_inRange hc hg hb hr hk)
  rw [← transaction_fine hc hb hk] at hfine
  rw [addr_gen_eq chan bankgroup bank row col hg (by omega), addressMapping_eq (by omega)]
  generalize transaction chan bankgroup bank row col = t at *
  have ht : ∀ k, 32 * t / 2 ^ (k + 7) = t / 4 / 2 ^ k := fun k => by
    rw [Nat.pow_add, Nat.mul_comm (2 ^ k), ← Nat.div_div_eq_div_mul]
    congr 1
    omega
  rw [ht 1, ht 3, ht 25, ht 8, ht 11, ht 0, ht 2, ht 10]
  generalize t / 4 = n at *
  simp only [fineFields, unmix, List.cons.injEq, Nat.div_div_eq_div_mul, Nat.reduceMul] at hfine
  obtain ⟨h0, h1, h2, h3, h4, h5, h6, h7, h8, h9, h10, h11, -⟩ := hfine
  simp only [Nat.reducePow, Nat.div_one, pow_one, hchan, hbank, hrow, hrank, h0, h1, h2, h3, h4, h5,
    h6, h7, h8, h9, h10, h11]

/-! ### What comes back -/

/-- The decoder returns the coordinates, and a bank value that no other bank group and bank have
    there. -/
structure Decodes (chan bankgroup bank row col : ℕ) : Prop where
  chan_eq : (addressMapping (addr_gen chan 0 bankgroup bank row col)).chan = chan
  rank_eq : (addressMapping (addr_gen chan 0 bankgroup bank row col)).rank = 0
  row_eq : (addressMapping (addr_gen chan 0 bankgroup bank row col)).row = row
  column_eq : (addressMapping (addr_gen chan 0 bankgroup bank row col)).column = col
  bank_unique : ∀ bankgroup' < 4, ∀ bank' < 4,
    (addressMapping (addr_gen chan 0 bankgroup' bank' row col)).bank =
      (addressMapping (addr_gen chan 0 bankgroup bank row col)).bank → bankgroup' = bankgroup ∧
        bank' = bank

/-- Two bank groups that differ in their low bit come back as one. -/
theorem bank_not_unique {chan bankgroup bank row col : ℕ} (hc : chan < 64) (hg : bankgroup < 4)
    (hb : bank < 4)
    (hr : row < 2 ^ 14) (hk : col < 32) :
    ∃ bankgroup' < 4, bankgroup' ≠ bankgroup ∧
      (addressMapping (addr_gen chan 0 bankgroup' bank row col)).bank =
        (addressMapping (addr_gen chan 0 bankgroup bank row col)).bank := by
  refine ⟨2 * (bankgroup / 2) + (1 - bankgroup % 2), by omega, by omega, ?_⟩
  rw [addressMapping_addr_gen hc (by omega) hb hr hk, addressMapping_addr_gen hc hg hb hr hk]
  simp only
  omega

theorem chan_returned_iff {chan b g : ℕ} (hc : chan < 64) (hb : b < 2) (hg : g < 2) :
    chan / 2 % 2 + 2 * (chan / 8 + 8 * b + 16 * g) = chan ↔ chan = 20 * b + 43 * g := by
  interval_cases b <;> interval_cases g <;> omega

theorem column_returned_iff {col b : ℕ} (hk : col < 32) (hb : b < 2) :
    col / 2 % 2 + 2 * b + 4 * (col / 4 % 2) = col ↔ col < 8 ∧ col % 4 = 3 * b := by
  interval_cases b <;> omega

theorem row_returned_iff {row : ℕ} (hr : row < 2 ^ 14) :
    row / 4096 % 2 = 0 ∧ 4 * (row % 4096) = row ↔ row = 0 := by
  omega

theorem chan_bit {b g : ℕ} (hb : b < 2) (hg : g < 2) : (20 * b + 43 * g) / 4 % 2 = b := by
  interval_cases b <;> interval_cases g <;> rfl

/-- The other coordinates come back only in row 0, on one channel and two columns for every bank. -/
theorem coordinates_returned_iff {chan bankgroup bank row col : ℕ} (hc : chan < 64) (hg : bankgroup < 4)
    (hb : bank < 4) (hr : row < 2 ^ 14) (hk : col < 32) :
    (∃ b, addressMapping (addr_gen chan 0 bankgroup bank row col) = ⟨chan, 0, b, row, col⟩) ↔
      chan = 20 * (bank % 2) + 43 * (bankgroup % 2) ∧ row = 0 ∧ col < 8 ∧ col % 4 = 3 * (bank % 2) := by
  have hb2 : bank % 2 < 2 := Nat.mod_lt _ two_pos
  have hg2 : bankgroup % 2 < 2 := Nat.mod_lt _ two_pos
  rw [addressMapping_addr_gen hc hg hb hr hk]
  simp only [NewTransaction.mk.injEq, chan_returned_iff hc hb2 hg2]
  constructor
  · rintro ⟨-, hchan, hrank, -, hrow, hcol⟩
    rw [hchan, chan_bit hb2 hg2, column_returned_iff hk hb2] at hcol
    rw [Nat.div_eq_of_lt hcol.1, Nat.zero_add] at hrow
    exact ⟨hchan, (row_returned_iff hr).mp ⟨hrank, hrow⟩, hcol⟩
  · rintro ⟨hchan, hrow, hcol⟩
    obtain ⟨hrank, hrow⟩ := (row_returned_iff hr).mpr hrow
    rw [Nat.div_eq_of_lt hcol.1, Nat.zero_add, hchan, chan_bit hb2 hg2, column_returned_iff hk hb2]
    exact ⟨_, rfl, hrank, rfl, hrow, hcol⟩

theorem not_decodes {chan bankgroup bank row col : ℕ} (hc : chan < 64) (hg : bankgroup < 4)
    (hb : bank < 4)
    (hr : row < 2 ^ 14) (hk : col < 32) : ¬ Decodes chan bankgroup bank row col := by
  intro h
  obtain ⟨bankgroup', hg', hne, hbank⟩ := bank_not_unique hc hg hb hr hk
  exact hne (h.bank_unique bankgroup' hg' bank hb hbank).1

theorem not_decodes_last : 16383 < 2 ^ 14 ∧ ¬ Decodes 63 3 3 16383 31 :=
  ⟨by decide, not_decodes (by decide) (by decide) (by decide) (by decide) (by decide)⟩

/-- Channel 0 comes back as channel 32, and bank group 1 as bank group 0 does. -/
theorem bankgroup_decoded :
    addressMapping (addr_gen 0 0 1 0 0 0) = ⟨32, 0, 0, 0, 0⟩ ∧
      addressMapping (addr_gen 0 0 0 0 0 0) = ⟨0, 0, 0, 0, 0⟩ ∧ ¬ Decodes 0 1 0 0 0 := by
  have hdec : addressMapping (addr_gen 0 0 1 0 0 0) = ⟨32, 0, 0, 0, 0⟩ := by decide
  refine ⟨hdec, by decide, fun h => ?_⟩
  have hchan := h.chan_eq
  rw [hdec] at hchan
  cases hchan

end PimLibrary.Device
