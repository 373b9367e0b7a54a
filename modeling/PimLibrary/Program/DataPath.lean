import PimLibrary.Kernel.ReadStep
import PimLibrary.Program.PimUnit
import PimLibrary.Schemes.SharedMemory

/-! The registers and banks that a unit's instructions act on.

    A channel has eight blocks, each between an even and an odd bank with eight registers for each. In
    HAB_PIM mode an access to bank group 0 acts in every block of the channel, on the same row and
    column, and the column's low three bits select the register. What an instruction computes is not
    part of this library: it is a parameter, with the behaviour that the kernels' comments and the
    headers of the simulator document. -/

namespace PimLibrary.Program
open Schemes.SharedMemory PimLibrary.Kernel PimLibrary.Device PimLibrary.Program.PimCommand

/-! ### Accesses -/

/-- A data access at a physical address. -/
inductive Access where
  | R (addr : ℤ)
  | W (addr : ℤ)
  deriving DecidableEq, Repr

def Access.addr : Access → ℤ
  | .R addr | .W addr => addr

/-- The access of a command, with the buffers where they start. -/
def Cmd.access (base : Buf → ℤ) : Cmd → Option Access
  | .R buf addr => some (.R (base buf + addr))
  | .W buf addr | .WR buf addr _ => some (.W (base buf + addr))
  | .B _ => none

/-- The even bank with `GRF_A`, the odd one with `GRF_B`. -/
inductive Side where
  | even | odd
  deriving DecidableEq, Repr

instance : Fintype Side := ⟨{.even, .odd}, fun side => by cases side <;> simp⟩

def Side.bank : Side → PimOpdType
  | even => .EVEN_BANK
  | odd => .ODD_BANK

def Side.grf : Side → PimOpdType
  | even => .GRF_A
  | odd => .GRF_B

/-- The low bank bit. -/
def Side.num : Side → ℕ
  | even => 0
  | odd => 1

theorem Side.num_lt (side : Side) : side.num < 2 := by cases side <;> decide

/-! ### The bits of an address -/

def chanOf (a : ℤ) : Fin 64 := ⟨(a / 2 ^ 6 % 2 + 2 * (a / 2 ^ 8 % 32)).toNat, by omega⟩

/-- The block between the even and the odd bank of the address. -/
def blockOf (a : ℤ) : Fin 8 := ⟨(2 * (a / 2 ^ 14 % 4) + a / 2 ^ 16 % 2).toNat, by omega⟩

def sideOf (a : ℤ) : Side := if a / 2 ^ 13 % 2 = 0 then .even else .odd

/-- The low three bits of the column. -/
def getGrfIdx (a : ℤ) : Fin 8 :=
  ⟨(a / 2 ^ 5 % 2 + 2 * (a / 2 ^ 7 % 2) + 4 * (a / 2 ^ 17 % 2)).toNat, by omega⟩

/-- A vector register. -/
structure Reg where
  chan : Fin 64
  block : Fin 8
  side : Side
  idx : Fin 8
  deriving DecidableEq, Fintype

/-- The register that the transaction at an address goes through. -/
def regOf (a : ℤ) : Reg := ⟨chanOf a, blockOf a, sideOf a, getGrfIdx a⟩

/-- The register that an access selects in a block. -/
def selected (a : ℤ) (block : Fin 8) : Reg := ⟨chanOf a, block, sideOf a, getGrfIdx a⟩

/-! ### Instructions -/

/-- The vector operations. Scalar registers are loaded before the program runs, and `mad i` multiplies by
    the `i`-th one of `SRF_M` and adds the `i`-th one of `SRF_A`. -/
structure Alu (B : Type*) where
  add : B → B → B
  mul : B → B → B
  relu : B → B
  mad : ℤ → B → B

/-- Memory in transactions, by their address. -/
abbrev PimState (B : Type*) : Type _ := State Reg B fun _ : ℤ => B

abbrev RegOp (B : Type*) : Type _ := Op B fun _ : ℤ => B

/-- An access that acts in every block of the channel. -/
def inBlocks {B : Type*} (a : ℤ) (o : ℤ → RegOp B) : List (Reg × RegOp B) :=
  (List.finRange 8).map fun b => (selected a b, o (broadcast b a))

/-- What is documented of the instructions: FILL loads a register, with the activation applied if the
    instruction has it; an addition and a multiplication combine the register with the bank; MAD with the
    scalar registers takes the bank or the register; and NOP, which writes the register to the bank when
    the access is a write, does nothing when it is a read. -/
structure Documented {B : Type*} (alu : Alu B)
    (exec : PimCommand → Access → PimState B → PimState B) : Prop where
  fill : ∀ c a s, c.type_ = .FILL → c.dst_ = (sideOf a).grf → c.src0_ = (sideOf a).bank →
    exec c (.R a) s = (inBlocks a fun b => .load b fun v _ =>
      if c.is_relu_ = 1 then alu.relu v else v).foldl step s
  add : ∀ c a s, c.type_ = .ADD → c.is_auto_ = 1 → c.dst_ = (sideOf a).grf → c.src0_ = (sideOf a).grf →
    c.src1_ = (sideOf a).bank →
    exec c (.R a) s = (inBlocks a fun b => .load b fun v r => alu.add r v).foldl step s
  mul : ∀ c a s, c.type_ = .MUL → c.is_auto_ = 1 → c.dst_ = (sideOf a).grf → c.src0_ = (sideOf a).grf →
    c.src1_ = (sideOf a).bank →
    exec c (.R a) s = (inBlocks a fun b => .load b fun v r => alu.mul r v).foldl step s
  mad_bank : ∀ c a s, c.type_ = .MAD → c.is_auto_ = 1 → c.dst_ = (sideOf a).grf →
    c.src0_ = (sideOf a).bank → c.src1_ = .SRF_M → c.src2_ = .SRF_A →
    exec c (.R a) s = (inBlocks a fun b => .load b fun v _ => alu.mad c.src1_idx_ v).foldl step s
  mad_grf : ∀ c a s, c.type_ = .MAD → c.is_auto_ = 1 → c.dst_ = (sideOf a).grf →
    c.src0_ = (sideOf a).grf → c.src1_ = .SRF_M → c.src2_ = .SRF_A →
    exec c (.R a) s = (inBlocks a fun _ => .compute fun r => alu.mad c.src1_idx_ r).foldl step s
  nop_read : ∀ c a s, c.type_ = .NOP → exec c (.R a) s = s
  nop_write : ∀ c a s, c.type_ = .NOP →
    exec c (.W a) s = (inBlocks a fun b => .store b id).foldl step s

/-- The operation of a read in each block. -/
def readOp {B : Type*} (alu : Alu B) (c : PimCommand) (side : Side) : Option (ℤ → RegOp B) :=
  match c.type_ with
  | .FILL => some fun b => .load b fun v _ => if c.is_relu_ = 1 then alu.relu v else v
  | .ADD => some fun b => .load b fun v r => alu.add r v
  | .MUL => some fun b => .load b fun v r => alu.mul r v
  | .MAD =>
    some fun b => if c.src0_ = side.bank then .load b fun v _ => alu.mad c.src1_idx_ v
      else .compute fun r => alu.mad c.src1_idx_ r
  | _ => none

/-- What an instruction makes of an access, block by block. -/
def blockOps {B : Type*} (alu : Alu B) (c : PimCommand) : Access → List (Reg × RegOp B)
  | .R a => ((readOp alu c (sideOf a)).map (inBlocks a)).getD []
  | .W a => inBlocks a fun b => .store b id

/-- The operands with which a read of the bank is documented. -/
def ReadFits (c : PimCommand) (side : Side) : Prop :=
  match c.type_ with
  | .NOP => True
  | .FILL => c.dst_ = side.grf ∧ c.src0_ = side.bank
  | .ADD | .MUL => c.is_auto_ = 1 ∧ c.dst_ = side.grf ∧ c.src0_ = side.grf ∧ c.src1_ = side.bank
  | .MAD =>
    c.is_auto_ = 1 ∧ c.dst_ = side.grf ∧ (c.src0_ = side.bank ∨ c.src0_ = side.grf) ∧ c.src1_ = .SRF_M ∧
      c.src2_ = .SRF_A
  | _ => False

def AccessFits (c : PimCommand) : Access → Prop
  | .R a => ReadFits c (sideOf a)
  | .W _ => c.type_ = .NOP

/-- A documented instruction acts block by block. -/
theorem Documented.exec_eq {B : Type*} {alu : Alu B}
    {exec : PimCommand → Access → PimState B → PimState B} (h : Documented alu exec) {c : PimCommand}
    {x : Access} (hx : AccessFits c x) (s : PimState B) :
    exec c x s = (blockOps alu c x).foldl step s := by
  cases x with
  | W a => exact h.nop_write c a s hx
  | R a =>
    rw [AccessFits, ReadFits] at hx
    rw [blockOps, readOp]
    cases htype : c.type_ <;> simp only [htype] at hx ⊢
    case NOP => exact h.nop_read c a s htype
    case FILL => exact h.fill c a s htype hx.1 hx.2
    case ADD => exact h.add c a s htype hx.1 hx.2.1 hx.2.2.1 hx.2.2.2
    case MUL => exact h.mul c a s htype hx.1 hx.2.1 hx.2.2.1 hx.2.2.2
    case MAD =>
      obtain ⟨hauto, hdst, hsrc | hsrc, hmul, hadd⟩ := hx
      · simpa [hsrc] using h.mad_bank c a s htype hauto hdst hsrc hmul hadd
      · have hne : c.src0_ ≠ (sideOf a).bank := by
          rw [hsrc]
          cases sideOf a <;> decide
        simpa [hne] using h.mad_grf c a s htype hauto hdst hsrc hmul hadd

/-- Units that do what is documented, and nothing where nothing is. -/
theorem documented_blockOps {B : Type*} (alu : Alu B) :
    Documented alu fun c x s => (blockOps alu c x).foldl step s where
  fill c a s htype _ _ := by simp [blockOps, readOp, htype]
  add c a s htype _ _ _ _ := by simp [blockOps, readOp, htype]
  mul c a s htype _ _ _ _ := by simp [blockOps, readOp, htype]
  mad_bank c a s htype _ _ hsrc _ _ := by simp [blockOps, readOp, htype, hsrc]
  mad_grf c a s htype _ _ hsrc _ _ := by
    have hne : (sideOf a).grf ≠ (sideOf a).bank := by cases sideOf a <;> decide
    simp [blockOps, readOp, htype, hsrc, hne]
  nop_read c a s htype := by simp [blockOps, readOp, htype]
  nop_write c a s _ := rfl

/-- The operations of an access are at the address that they are given. -/
theorem readOp_at {B : Type*} {alu : Alu B} {c : PimCommand} {side : Side} {o : ℤ → RegOp B}
    (h : readOp alu c side = some o) {p a : ℤ} (ha : (o p).Reads a ∨ (o p).Writes a) : a = p := by
  rw [readOp] at h
  cases htype : c.type_ <;> simp only [htype, Option.some.injEq, reduceCtorEq] at h
  case MAD =>
    subst h
    by_cases hsrc : c.src0_ = side.bank <;> simp_all [Op.Reads, Op.Writes]
  all_goals
    subst h
    simp_all [Op.Reads, Op.Writes]

/-! ### Where a register's transactions lie -/

/-- The transaction of a register in a tile. -/
def place (r : Reg) (i : ℕ) : ℕ :=
  2 ^ 18 * i + 32 * transaction r.chan (r.block / 2) (2 * (r.block % 2) + r.side.num) 0 r.idx

/-- The tile of a row and column moves the transaction by whole tiles. -/
theorem transaction_of_tile (ch bg bank i : ℕ) {g : ℕ} (hg : g < 8) :
    32 * transaction ch bg bank ((i * 8 + g) / 32) ((i * 8 + g) % 32) =
      2 ^ 18 * i + 32 * transaction ch bg bank 0 g := by
  have h0 : (i * 8 + g) % 32 % 2 = g % 2 := by omega
  have h1 : (i * 8 + g) % 32 / 2 % 2 = g / 2 % 2 := by omega
  have h2 : (i * 8 + g) % 32 / 4 % 8 = 2 * (i % 4) + g / 4 := by omega
  have h3 : (i * 8 + g) / 32 = i / 4 := by omega
  have h4 : g / 4 % 8 = g / 4 := by omega
  rw [transaction, transaction, h0, h1, h2, h3, h4]
  omega

/-- The lowest digit, and the number that is left when it is divided off. -/
theorem peel_digit {x n r : ℤ} {d : ℕ} (hx : x = d + r * n) (hd : (d : ℤ) < r) : x % r = d ∧ x / r = n := by
  constructor
  · rw [hx, Int.add_mul_emod_self_left, Int.emod_eq_of_lt (Int.natCast_nonneg d) hd]
  · rw [hx, Int.add_mul_ediv_left _ _ (by omega), Int.ediv_eq_zero_of_lt (Int.natCast_nonneg d) hd, zero_add]

/-- The bits of an address with the given digits. -/
theorem bits_of_digits {a k : ℤ} {c0 h0 c1 h1 s bg bh c2 : ℕ} (hc0 : c0 < 2) (hh0 : h0 < 2) (hc1 : c1 < 2)
    (hh1 : h1 < 32) (hs : s < 2) (hbg : bg < 4) (hbh : bh < 2) (hc2 : c2 < 2) (ha : a =
      32 * (c0 + 2 * (h0 + 2 * (c1 + 2 * (h1 + 32 * (s + 2 * (bg + 4 * (bh + 2 * (c2 + 2 * k))))))))) :
    (a / 2 ^ 5 % 2 = c0 ∧ a / 2 ^ 6 % 2 = h0 ∧ a / 2 ^ 7 % 2 = c1 ∧ a / 2 ^ 8 % 32 = h1) ∧
      a / 2 ^ 13 % 2 = s ∧ a / 2 ^ 14 % 4 = bg ∧ a / 2 ^ 16 % 2 = bh ∧ a / 2 ^ 17 % 2 = c2 := by
  have h5 : a / 32 =
      c0 + 2 * (h0 + 2 * (c1 + 2 * (h1 + 32 * (s + 2 * (bg + 4 * (bh + 2 * (c2 + 2 * k))))))) := by
    rw [ha]
    exact Int.mul_ediv_cancel_left _ (by norm_num)
  obtain ⟨e5, h6⟩ := peel_digit h5 (by omega)
  obtain ⟨e6, h7⟩ := peel_digit h6 (by omega)
  obtain ⟨e7, h8⟩ := peel_digit h7 (by omega)
  obtain ⟨e8, h13⟩ := peel_digit h8 (by omega)
  obtain ⟨e13, h14⟩ := peel_digit h13 (by omega)
  obtain ⟨e14, h16⟩ := peel_digit h14 (by omega)
  obtain ⟨e16, h17⟩ := peel_digit h16 (by omega)
  obtain ⟨e17, -⟩ := peel_digit h17 (by omega)
  simp only [Int.ediv_ediv_of_nonneg, Int.reduceLE, Int.reduceMul] at e6 e7 e8 e13 e14 e16 e17
  exact ⟨⟨e5, e6, e7, e8⟩, e13, e14, e16, e17⟩

/-- In a buffer that starts at a tile, a register's transaction goes through it. -/
theorem regOf_place {base : ℤ} (hbase : 2 ^ 18 ∣ base) (r : Reg) (i : ℕ) :
    regOf (base + place r i) = r := by
  obtain ⟨k, rfl⟩ := hbase
  obtain ⟨⟨chan, hchan⟩, ⟨block, hblock⟩, side, ⟨idx, hidx⟩⟩ := r
  have hs := side.num_lt
  have hchan' : (((chan % 2 : ℕ) : ℤ) + 2 * ((chan / 2 % 32 : ℕ) : ℤ)).toNat = chan := by omega
  have hblock' : (2 * ((block / 2 : ℕ) : ℤ) + ((block % 2 : ℕ) : ℤ)).toNat = block := by omega
  have hidx' : (((idx % 2 : ℕ) : ℤ) + 2 * ((idx / 2 % 2 : ℕ) : ℤ) + 4 * ((idx / 4 % 8 : ℕ) : ℤ)).toNat =
    idx := by omega
  have hdigits : 2 ^ 18 * k + (place ⟨⟨chan, hchan⟩, ⟨block, hblock⟩, side, ⟨idx, hidx⟩⟩ i : ℤ) =
      32 * ((idx % 2 : ℕ) + 2 * ((chan % 2 : ℕ) + 2 * ((idx / 2 % 2 : ℕ) + 2 * ((chan / 2 % 32 : ℕ) +
        32 * (side.num + 2 * ((block / 2 : ℕ) + 4 * ((block % 2 : ℕ) + 2 * ((idx / 4 % 8 : ℕ) +
          2 * (k + i))))))))) := by
    have h0 : (2 * (block % 2) + side.num) % 2 = side.num := by omega
    have h1 : (2 * (block % 2) + side.num) / 2 % 2 = block % 2 := by omega
    simp only [place, transaction, h0, h1]
    push_cast
    ring
  obtain ⟨⟨e5, e6, e7, e8⟩, e13, e14, e16, e17⟩ := bits_of_digits (by omega) (by omega) (by omega)
    (by omega) hs (by omega) (by omega) (by omega) hdigits
  simp only [regOf, chanOf, blockOf, sideOf, getGrfIdx, Reg.mk.injEq, e5, e6, e7, e8, e13,
    e14, e16, e17, hchan', hblock', hidx', true_and, and_true]
  cases side <;> simp [Side.num]

/-- Every transaction of a buffer is the one of a register in a tile. -/
theorem exists_place {a : ℤ} (h0 : 0 ≤ a) (h : 32 ∣ a) : ∃ r i, (place r i : ℤ) = a := by
  obtain ⟨q, rfl⟩ := h
  obtain ⟨n, rfl⟩ := Int.eq_ofNat_of_zero_le (by omega : 0 ≤ q)
  obtain ⟨chan, bg, bank, row, col, hc, hg, hb, -, hk, htrans⟩ :=
    transaction_surj (R := n + 1) (t := n) (by omega)
  have hside : ∃ side : Side, side.num = bank % 2 := by
    rcases Nat.mod_two_eq_zero_or_one bank with h | h
    · exact ⟨.even, h.symm⟩
    · exact ⟨.odd, h.symm⟩
  obtain ⟨side, hside⟩ := hside
  refine ⟨⟨⟨chan, hc⟩, ⟨2 * bg + bank / 2, by omega⟩, side, ⟨col % 8, by omega⟩⟩, (32 * row + col) / 8, ?_⟩
  have hgroup : (2 * bg + bank / 2) / 2 = bg := by omega
  have hbank : 2 * ((2 * bg + bank / 2) % 2) + bank % 2 = bank := by omega
  have hcell : (32 * row + col) / 8 * 8 + col % 8 = 32 * row + col := by omega
  have hrow : (32 * row + col) / 32 = row ∧ (32 * row + col) % 32 = col := by omega
  rw [place, hside, hgroup, hbank, ← transaction_of_tile _ _ _ _ (Nat.mod_lt _ (by norm_num)), hcell, hrow.1,
    hrow.2, htrans]
  push_cast
  rfl

theorem place_bounds (r : Reg) (i : ℕ) : 2 ^ 18 * i ≤ place r i ∧ place r i < 2 ^ 18 * (i + 1) := by
  obtain ⟨chan, ⟨block, hblock⟩, side, ⟨idx, hidx⟩⟩ := r
  have hhigh : idx / 4 % 8 = idx / 4 := by omega
  simp only [place, transaction, hhigh]
  omega

end PimLibrary.Program
