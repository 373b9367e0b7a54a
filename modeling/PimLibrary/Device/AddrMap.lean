import PimLibrary.Device.PimInfo
import PimLibrary.Schemes.Word
import PimLibrary.Schemes.Digits

/-! The address map of the device: `mask_by_bit`, `addr_gen` and `addr_gen_safe`.

    An address interleaves the channel, bank-group, bank, row and column bits. In a build without the
    RADEON7 mask it is 32 times a mixed-radix number whose digits are those bit fields, low to high

        col[0]  chan[0]  col[1]  chan[5:1]  bank[0]  bankgroup  bank[1]  col[4:2]  row

    so it is injective on in-range coordinates, and stepping the bank by one flips bit 13. -/

namespace PimLibrary.Device
open Schemes.Word Schemes.Digits

/-- Bits `start` down to `stop` of `value`. -/
def mask_by_bit (value start stop : ℕ) : ℕ :=
  (value >>> stop) &&& ((1 <<< (start - stop + 1)) - 1)

def addr_gen (chan rank bankgroup bank row col : ℕ) : ℕ :=
  let pbi := vega20_pbi
  let addr := rank
  let addr := uint64 (addr <<< pbi.num_row_bit)
  let addr := addr ||| row
  let addr := uint64 (addr <<< pbi.num_col_high_bit)
  let addr := addr ||| mask_by_bit col 4 2
  let addr := uint64 (addr <<< pbi.num_bank_high_bit)
  let addr := addr ||| mask_by_bit bank 1 1
  let addr := uint64 (addr <<< pbi.num_bankgroup_bit)
  let addr := addr ||| bankgroup
  let addr := uint64 (addr <<< pbi.num_bank_low_bit)
  let addr := addr ||| mask_by_bit bank 0 0
  let addr := uint64 (addr <<< (pbi.num_chan_bit - 1))
  let addr := addr ||| mask_by_bit chan (pbi.num_chan_bit - 1) 1
  let addr := uint64 (addr <<< 1)
  let addr := addr ||| mask_by_bit col 1 1
  let addr := uint64 (addr <<< 1)
  let addr := addr ||| mask_by_bit chan 0 0
  let addr := uint64 (addr <<< 1)
  let addr := addr ||| mask_by_bit col 0 0
  uint64 (addr <<< pbi.num_offset_bit)

/-- The `while (col >= num_col / bl)` loop. Every round lowers `col`, so `col` rounds are enough. -/
def addr_gen_safe_loop : ℕ → ℕ → ℕ → ℕ × ℕ
  | 0, row, col => (row, col)
  | fuel + 1, row, col =>
    if vega20_pbi.num_col / vega20_pbi.bl ≤ col then
      addr_gen_safe_loop fuel (uint32 (row + 1)) (col - vega20_pbi.num_col / vega20_pbi.bl)
    else (row, col)

/-- The address, with the row and column the reference parameters are left at. -/
def addr_gen_safe (chan rank bg bank row col : ℕ) : ℕ × ℕ × ℕ :=
  let (row, col) := addr_gen_safe_loop col row col
  (addr_gen chan rank bg bank row col, row, col)

/-! ### Closed forms -/

theorem mask_by_bit_eq (value start stop : ℕ) :
    mask_by_bit value start stop = value / 2 ^ stop % 2 ^ (start - stop + 1) := by
  rw [mask_by_bit, Nat.shiftRight_eq_div_pow, Nat.one_shiftLeft, Nat.and_two_pow_sub_one_eq_mod]

/-- A left shift that stays inside 64 bits is a multiplication. -/
theorem shift_eq {a k m : ℕ} (ha : a < 2 ^ m) (hm : m + k ≤ 64) : uint64 (a <<< k) = 2 ^ k * a := by
  have hlt : a * 2 ^ k < 2 ^ 64 :=
    calc a * 2 ^ k < 2 ^ m * 2 ^ k := Nat.mul_lt_mul_of_pos_right ha (by positivity)
      _ = 2 ^ (m + k) := (pow_add 2 m k).symm
      _ ≤ 2 ^ 64 := Nat.pow_le_pow_right two_pos hm
  rw [Nat.shiftLeft_eq, uint64_of_lt hlt, Nat.mul_comm]

/-- Shifting in a `k`-bit field below an `m`-bit value multiplies it and adds the field. -/
theorem shift_or {a b k m : ℕ} (ha : a < 2 ^ m) (hb : b < 2 ^ k) (hm : m + k ≤ 64) :
    uint64 (a <<< k) ||| b = b + 2 ^ k * a ∧ b + 2 ^ k * a < 2 ^ (m + k) := by
  constructor
  · rw [shift_eq ha hm, Nat.mul_comm, ← Nat.shiftLeft_eq, ← Nat.shiftLeft_add_eq_or_of_lt hb,
      Nat.add_comm]
  · calc b + 2 ^ k * a < 2 ^ k + 2 ^ k * a := by omega
      _ = 2 ^ k * (a + 1) := by ring
      _ ≤ 2 ^ k * 2 ^ m := Nat.mul_le_mul_left _ ha
      _ = 2 ^ (m + k) := by rw [← pow_add, Nat.add_comm]

/-- The radices of the address digits below the row, low to high. -/
abbrev fieldRadices : List ℕ := [2, 2, 2, 32, 2, 4, 2, 8]

/-- The digits of the transaction number at the given coordinates, the row on top. -/
def fields (chan bankgroup bank row col : ℕ) : List ℕ :=
  [col % 2, chan % 2, col / 2 % 2, chan / 2 % 32, bank % 2, bankgroup, bank / 2 % 2, col / 4 % 8, row]

/-- The transaction (32-byte unit) at the given coordinates. -/
def transaction (chan bankgroup bank row col : ℕ) : ℕ :=
  col % 2 + 2 * (chan % 2) + 4 * (col / 2 % 2) + 8 * (chan / 2 % 32) + 256 * (bank % 2)
    + 512 * bankgroup + 2048 * (bank / 2 % 2) + 4096 * (col / 4 % 8) + 32768 * row

theorem transaction_eq_mix (chan bankgroup bank row col radix : ℕ) :
    transaction chan bankgroup bank row col =
      mix (fieldRadices ++ [radix]) (fields chan bankgroup bank row col) := by
  simp only [transaction, fieldRadices, fields, mix, List.cons_append, List.nil_append]
  ring

/-- Every field is shifted in below the ones before it, so the result is their positional value. -/
theorem addr_gen_eq (chan bankgroup bank row col : ℕ) (hbg : bankgroup < 4) (hrow : row < 2 ^ 32) :
    addr_gen chan 0 bankgroup bank row col = 32 * transaction chan bankgroup bank row col := by
  have h0 : uint64 ((0 : ℕ) <<< 14) ||| row = row := by simp [uint64]
  obtain ⟨e1, l1⟩ := shift_or (k := 3) hrow (b := col / 4 % 8) (by omega) (by omega)
  obtain ⟨e2, l2⟩ := shift_or (k := 1) l1 (b := bank / 2 % 2) (by omega) (by omega)
  obtain ⟨e3, l3⟩ := shift_or (k := 2) l2 hbg (by omega)
  obtain ⟨e4, l4⟩ := shift_or (k := 1) l3 (b := bank % 2) (by omega) (by omega)
  obtain ⟨e5, l5⟩ := shift_or (k := 5) l4 (b := chan / 2 % 32) (by omega) (by omega)
  obtain ⟨e6, l6⟩ := shift_or (k := 1) l5 (b := col / 2 % 2) (by omega) (by omega)
  obtain ⟨e7, l7⟩ := shift_or (k := 1) l6 (b := chan % 2) (by omega) (by omega)
  obtain ⟨e8, l8⟩ := shift_or (k := 1) l7 (b := col % 2) (by omega) (by omega)
  simp only [addr_gen, vega20_pbi, mask_by_bit_eq, Nat.reduceSub, Nat.reduceAdd, Nat.reducePow,
    Nat.div_one, pow_one, pow_zero]
  rw [h0, e1, e2, e3, e4, e5, e6, e7, e8, shift_eq l8 (by omega), transaction]
  ring

theorem fields_inRange (chan bank col : ℕ) {bg row radix : ℕ} (hg : bg < 4) (hrow : row < radix) :
    InRange (fieldRadices ++ [radix]) (fields chan bg bank row col) := by
  simp only [fields, fieldRadices, List.cons_append, List.nil_append, List.forall₂_cons, hg, hrow]
  refine ⟨?_, ?_, ?_, ?_, ?_, trivial, ?_, ?_, trivial, .nil⟩ <;> omega

/-- In-range coordinates are recovered from their transaction number. -/
theorem transaction_inj {chan bg bank row col chan' bg' bank' row' col' : ℕ}
    (hc : chan < 64) (hg : bg < 4) (hb : bank < 4) (hk : col < 32)
    (hc' : chan' < 64) (hg' : bg' < 4) (hb' : bank' < 4) (hk' : col' < 32)
    (h : transaction chan bg bank row col = transaction chan' bg' bank' row' col') :
    chan = chan' ∧ bg = bg' ∧ bank = bank' ∧ row = row' ∧ col = col' := by
  rw [transaction_eq_mix _ _ _ _ _ (row + row' + 1),
    transaction_eq_mix _ _ _ _ _ (row + row' + 1)] at h
  have heq := mix_inj (fields_inRange _ _ _ hg (by omega)) (fields_inRange _ _ _ hg' (by omega)) h
  simp only [fields, List.cons.injEq, and_true] at heq
  omega

/-- Below row `R` lie exactly the transactions numbered below `2^15 R`. -/
theorem transaction_lt (chan bank col : ℕ) {bg row R : ℕ} (hg : bg < 4) (hrow : row < R) :
    transaction chan bg bank row col < 32768 * R := by
  have h := mix_lt (fields_inRange chan bank col hg hrow)
  rw [← transaction_eq_mix] at h
  simp only [fieldRadices, List.cons_append, List.nil_append, List.prod_cons, List.prod_nil] at h
  omega

/-- The bit fields of a transaction number are the coordinates it is for. -/
theorem transaction_surj {R t : ℕ} (ht : t < 32768 * R) :
    ∃ chan bg bank row col, chan < 64 ∧ bg < 4 ∧ bank < 4 ∧ row < R ∧ col < 32 ∧
      transaction chan bg bank row col = t := by
  have hprod : t < (fieldRadices ++ [R]).prod := by
    simp only [fieldRadices, List.cons_append, List.nil_append, List.prod_cons, List.prod_nil]
    omega
  have hpos : ∀ r ∈ fieldRadices ++ [R], 0 < r := by
    simp only [fieldRadices, List.cons_append, List.nil_append, List.mem_cons, forall_eq_or_imp]
    refine ⟨?_, ?_, ?_, ?_, ?_, ?_, ?_, ?_, ?_, ?_⟩ <;> first | omega | simp
  have hrange := unmix_inRange hpos t
  have hmix := mix_unmix hprod
  generalize unmix (fieldRadices ++ [R]) t = ds at hrange hmix
  simp only [InRange, fieldRadices, List.cons_append, List.nil_append, List.forall₂_cons_left_iff,
    List.forall₂_nil_left_iff] at hrange
  obtain ⟨col0, -, h0, ⟨chan0, -, h1, ⟨col1, -, h2, ⟨chan1, -, h3, ⟨bank0, -, h4, ⟨bg, -, h5, ⟨bank1, -, h6,
    ⟨col2, -, h7, ⟨row, -, h8, rfl, rfl⟩, rfl⟩, rfl⟩, rfl⟩, rfl⟩, rfl⟩, rfl⟩, rfl⟩, rfl⟩ := hrange
  refine ⟨chan0 + 2 * chan1, bg, bank0 + 2 * bank1, row, col0 + 2 * col1 + 4 * col2, by omega,
    h5, by omega, h8, by omega, ?_⟩
  rw [← hmix, transaction_eq_mix _ _ _ _ _ R, fields]
  refine congrArg (mix (fieldRadices ++ [R])) ?_
  simp only [List.cons.injEq, and_true, true_and]
  omega

/-- Coordinates of one byte of the device. -/
structure Coord where
  chan : ℕ
  bankgroup : ℕ
  bank : ℕ
  row : ℕ
  col : ℕ
  offset : ℕ

/-- The coordinates the device has. -/
structure Coord.Valid (x : Coord) : Prop where
  chan : x.chan < 64
  bankgroup : x.bankgroup < 4
  bank : x.bank < 4
  row : x.row < 2 ^ 14
  col : x.col < 32
  offset : x.offset < 32

def Coord.addr (x : Coord) : ℕ := addr_gen x.chan 0 x.bankgroup x.bank x.row x.col + x.offset

theorem Coord.Valid.addr_eq {x : Coord} (hx : x.Valid) :
    x.addr = transaction x.chan x.bankgroup x.bank x.row x.col * 32 + x.offset := by
  have hrow := hx.row
  rw [Coord.addr, addr_gen_eq _ _ _ _ _ hx.bankgroup (by omega), Nat.mul_comm]

/-- Every byte of the device has exactly one address. -/
theorem addr_bijOn : Set.BijOn Coord.addr {x | x.Valid} (Set.Iio (2 ^ 34)) := by
  refine ⟨?_, ?_, ?_⟩
  · intro x hx
    have hlt := transaction_lt x.chan x.bank x.col hx.bankgroup hx.row
    have hoff := hx.offset
    rw [Set.mem_Iio, Coord.Valid.addr_eq hx]
    omega
  · intro x hx y hy heq
    rw [Coord.Valid.addr_eq hx, Coord.Valid.addr_eq hy] at heq
    obtain ⟨htrans, hoff⟩ := flat_inj hx.offset hy.offset heq
    obtain ⟨hchan, hbg, hbank, hrow, hcol⟩ := transaction_inj hx.chan hx.bankgroup hx.bank hx.col
      hy.chan hy.bankgroup hy.bank hy.col htrans
    cases x
    cases y
    simp_all
  · intro a ha
    rw [Set.mem_Iio] at ha
    obtain ⟨chan, bg, bank, row, col, hc, hg, hb, hr, hk, htrans⟩ :=
      transaction_surj (R := 2 ^ 14) (t := a / 32) (by omega)
    have hx : (⟨chan, bg, bank, row, col, a % 32⟩ : Coord).Valid :=
      ⟨hc, hg, hb, hr, hk, Nat.mod_lt _ (by norm_num)⟩
    refine ⟨_, hx, ?_⟩
    rw [hx.addr_eq, htrans]
    exact Nat.div_add_mod' a 32

/-! ### The normalising loop -/

theorem addr_gen_safe_loop_eq : ∀ (fuel row col : ℕ), col / 32 ≤ fuel → row < 2 ^ 32 →
    addr_gen_safe_loop fuel row col = (uint32 (row + col / 32), col % 32)
  | 0, row, col, hf, hrow => by
    have hcol : col < 32 := by omega
    simp [addr_gen_safe_loop, Nat.div_eq_of_lt hcol, Nat.mod_eq_of_lt hcol, uint32_of_lt hrow]
  | fuel + 1, row, col, hf, hrow => by
    have hpbi : vega20_pbi.num_col / vega20_pbi.bl = 32 := rfl
    rw [addr_gen_safe_loop, hpbi]
    split_ifs with h
    · rw [addr_gen_safe_loop_eq fuel _ _ (by omega) (uint32_lt _)]
      unfold uint32
      ext <;> simp only <;> omega
    · have hcol : col < 32 := by omega
      rw [Nat.div_eq_of_lt hcol, Nat.mod_eq_of_lt hcol, Nat.add_zero, uint32_of_lt hrow]

/-- The loop ends with the column in range and the row advanced by the carry. -/
theorem addr_gen_safe_eq (chan rank bg bank row col : ℕ) (hrow : row < 2 ^ 32) :
    addr_gen_safe chan rank bg bank row col =
      (addr_gen chan rank bg bank (uint32 (row + col / 32)) (col % 32),
        uint32 (row + col / 32), col % 32) := by
  rw [addr_gen_safe, addr_gen_safe_loop_eq col row col (Nat.div_le_self _ _) hrow]

/-- The map is one-to-one on the device's bytes, and the normalising loop stops, after any number of
    rounds from `col / 32` on, at the coordinates with the carry moved into the row. -/
theorem address_map :
    Set.BijOn Coord.addr {x | x.Valid} (Set.Iio (2 ^ 34)) ∧
      ∀ chan rank bg bank row col, row + col / 32 < 2 ^ 14 →
        col % 32 < vega20_pbi.num_col / vega20_pbi.bl ∧
        (∀ fuel, col / 32 ≤ fuel → addr_gen_safe_loop fuel row col = (row + col / 32, col % 32)) ∧
        addr_gen_safe chan rank bg bank row col =
          (addr_gen chan rank bg bank (row + col / 32) (col % 32), row + col / 32, col % 32) := by
  refine ⟨addr_bijOn, ?_⟩
  intro chan rank bg bank row col hcarry
  have hword : uint32 (row + col / 32) = row + col / 32 := uint32_of_lt (by omega)
  refine ⟨Nat.mod_lt _ (by decide), ?_, ?_⟩
  · intro fuel hfuel
    rw [addr_gen_safe_loop_eq fuel row col hfuel (by omega), hword]
  · rw [addr_gen_safe_eq chan rank bg bank row col (by omega), hword]

theorem address_map_carry : addr_gen_safe 5 0 1 2 100 67 = (addr_gen 5 0 1 2 102 3, 102, 3) :=
  (address_map.2 5 0 1 2 100 67 (by decide)).2.2

end PimLibrary.Device
