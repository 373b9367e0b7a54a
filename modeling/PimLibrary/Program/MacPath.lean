import PimLibrary.Program.DataPath

/-! The lanes of the PIM blocks, and the threads that add up what they leave.

    A vector has sixteen halves, and the blocks treat each of them alike: a lane of a block has a half of
    every register. A switch to HAB_PIM mode with the GEMV table clears `GRF_B`, a write to columns 8 to
    15 of the control row loads `GRF_A`, and a MAC adds the product of `GRF_A` and the bank to the
    register of `GRF_B` that the row and the column select. As for the element-wise instructions, this
    behaviour is an assumption about a parameter. -/

namespace PimLibrary.Program
open Schemes.SharedMemory PimLibrary.Kernel PimLibrary.Device PimLibrary.Program.PimCommand

variable {R : Type*}

/-! ### Lanes and threads -/

/-- What has registers in a GEMM launch. -/
inductive Agent where
  | lane (chan : Fin 64) (block : Fin 8) (lane : Fin 16)
  | thread (hipBlockIdx_x hipThreadIdx_x : Fin 64)
  deriving DecidableEq

/-- A lane's halves of the vector registers, and a thread's running sum. -/
structure Regs (R : Type*) where
  grf : Side → Fin 8 → R
  t_output : R

/-- Half precision. Nothing is assumed about it. -/
structure HalfArith (R : Type*) where
  zero : R
  add : R → R → R
  /-- The accumulator, the register and the bank. -/
  mac : R → R → R → R
  negative : R → Bool

/-- Memory in halves, by the addresses of their first bytes. -/
abbrev GemmState (R : Type*) : Type _ := State Agent (Regs R) fun _ : ℤ => R

abbrev GemmOp (R : Type*) : Type _ := Op (Regs R) fun _ : ℤ => R

def Regs.set (r : Regs R) (side : Side) (idx : Fin 8) (v : R) : Regs R :=
  { r with grf := fun s i => if s = side ∧ i = idx then v else r.grf s i }

/-- Every register of the side. -/
def Regs.fill (r : Regs R) (side : Side) (v : R) : Regs R :=
  { r with grf := fun s i => if s = side then v else r.grf s i }

@[simp] theorem Regs.set_grf (r : Regs R) (side s : Side) (idx i : Fin 8) (v : R) :
    (r.set side idx v).grf s i = if s = side ∧ i = idx then v else r.grf s i := rfl

@[simp] theorem Regs.fill_grf (r : Regs R) (side s : Side) (i : Fin 8) (v : R) :
    (r.fill side v).grf s i = if s = side then v else r.grf s i := rfl

def Regs.output (r : Regs R) (t_output : R) : Regs R := { r with t_output := t_output }

@[simp] theorem Regs.output_t_output (r : Regs R) (v : R) : (r.output v).t_output = v := rfl

@[simp] theorem Regs.output_output (r : Regs R) (v w : R) : (r.output v).output w = r.output w := rfl

theorem Regs.ext_grf {r r' : Regs R} (h : ∀ side g, r.grf side g = r'.grf side g)
    (ht : r.t_output = r'.t_output) : r = r' := by
  cases r
  cases r'
  simp only [Regs.mk.injEq]
  exact ⟨funext fun side => funext fun g => h side g, ht⟩

/-- The lanes of a channel. -/
def lanes (ch : Fin 64) : List Agent :=
  (List.finRange 8 ×ˢ List.finRange 16).map fun i => .lane ch i.1 i.2

theorem nodup_lanes (ch : Fin 64) : (lanes ch).Nodup := by
  refine List.Nodup.map (fun i j h => ?_) ((List.nodup_finRange 8).product (List.nodup_finRange 16))
  simpa [Prod.ext_iff] using h

@[simp] theorem mem_lanes {ch : Fin 64} {k : Agent} : k ∈ lanes ch ↔ ∃ b ti, k = .lane ch b ti := by
  simp [lanes, eq_comm]

/-- Where a lane's half begins in a vector. -/
def laneOffset : Agent → ℤ
  | .lane _ _ lane => 2 * lane
  | .thread .. => 0

/-- The half that a lane accesses when the channel is accessed at `a`. -/
def laneAddr (a : ℤ) : Agent → ℤ
  | .lane _ block lane => broadcast block a + 2 * lane
  | .thread .. => a

/-! ### What a unit does -/

/-- The accumulator of a MAC: the low row bit over the high column bits. -/
def getGrfIdxHigh (a : ℤ) : Fin 8 := ⟨(a / 2 ^ 18 % 4 + 4 * (a / 2 ^ 20 % 2)).toNat, by omega⟩

/-- A unit takes writes to the control row, by their addresses from `pim_ctr`, and accesses to data, each
    with the instruction that it runs on. -/
inductive UnitEvent where
  | control (addr : ℤ) (src : Src)
  | exec (c : PimCommand) (x : Access)

/-- The operands with which the program multiplies. -/
structure IsMac (c : PimCommand) (side : Side) : Prop where
  type : c.type_ = .MAC
  auto : c.is_auto_ = 1
  dst : c.dst_ = .GRF_B
  src0 : c.src0_ = .GRF_A
  src1 : c.src1_ = side.bank

def macOp (A : HalfArith R) (a : ℤ) (k : Agent) : GemmOp R :=
  .load (laneAddr a k) fun w r => r.set .odd (getGrfIdxHigh a)
    (A.mac (r.grf .odd (getGrfIdxHigh a)) (r.grf .even (getGrfIdx a)) w)

/-- What is documented of the GEMV path. -/
structure MacDocumented (A : HalfArith R) (base : Buf → ℤ)
    (unit : UnitEvent → GemmState R → GemmState R) : Prop where
  enter : ∀ (ch : Fin 64) s,
    unit (.control (addr_gen ch 0 0 0 0x3fff 0x0 : ℕ) .gemv_hab_to_hab_pim) s =
      (together (lanes ch) fun _ => .compute fun r => r.fill .odd A.zero).foldl step s
  grf : ∀ (ch : Fin 64) (side : Side) (g : Fin 8) buf a s,
    unit (.control (addr_gen ch 0 0 side.num 0x3fff (0x8 + g) : ℕ) (.mem buf a)) s =
      (together (lanes ch) fun k => .load (base buf + a + laneOffset k) fun v r =>
        r.set .even g v).foldl step s
  mac : ∀ c a s, IsMac c (sideOf a) →
    unit (.exec c (.R a)) s = (together (lanes (chanOf a)) (macOp A a)).foldl step s
  nop_read : ∀ c a s, c.type_ = .NOP → unit (.exec c (.R a)) s = s
  nop_write : ∀ c a s, c.type_ = .NOP →
    unit (.exec c (.W a)) s = (together (lanes (chanOf a)) fun k =>
      .store (laneAddr a k) fun r => r.grf (sideOf a) (getGrfIdx a)).foldl step s

/-- The operations of the lanes. -/
def laneOps (A : HalfArith R) (base : Buf → ℤ) : UnitEvent → List (Agent × GemmOp R)
  | .control a .gemv_hab_to_hab_pim =>
    together (lanes (chanOf a)) fun _ => .compute fun r => r.fill .odd A.zero
  | .control a (.mem buf addr) =>
    together (lanes (chanOf a)) fun k => .load (base buf + addr + laneOffset k) fun v r =>
      r.set .even (getGrfIdx a) v
  | .control _ _ => []
  | .exec c (.R a) => if c.type_ = .MAC then together (lanes (chanOf a)) (macOp A a) else []
  | .exec _ (.W a) =>
    together (lanes (chanOf a)) fun k => .store (laneAddr a k) fun r => r.grf (sideOf a) (getGrfIdx a)

/-- The events that are documented. -/
inductive UnitFits : UnitEvent → Prop
  | enter (ch : Fin 64) : UnitFits (.control (addr_gen ch 0 0 0 0x3fff 0x0 : ℕ) .gemv_hab_to_hab_pim)
  | grf (ch : Fin 64) (side : Side) (g : Fin 8) (buf : Buf) (a : ℤ) :
    UnitFits (.control (addr_gen ch 0 0 side.num 0x3fff (0x8 + g) : ℕ) (.mem buf a))
  | mac {c : PimCommand} {a : ℤ} : IsMac c (sideOf a) → UnitFits (.exec c (.R a))
  | nop {c : PimCommand} {x : Access} : c.type_ = .NOP → UnitFits (.exec c x)

/-! ### Places -/

/-- An access to block 0 reaches the same place in every block. -/
theorem broadcast_place (ch : Fin 64) (b : Fin 8) (side : Side) (g : Fin 8) (i : ℕ) :
    broadcast b (place ⟨ch, 0, side, g⟩ i : ℕ) = (place ⟨ch, b, side, g⟩ i : ℕ) := by
  rw [place, Nat.cast_add, broadcast_add]
  have h := broadcast_transaction side.num_lt b ch 0 g
  simp only [Fin.val_zero, Nat.zero_div, Nat.zero_mod, Nat.mul_zero, Nat.zero_add, place]
  rw [h]
  push_cast
  ring

theorem addr_gen_place (ch : Fin 64) (side : Side) (g : Fin 8) {row col : ℕ} (hrow : row < 2 ^ 32)
    (hcol : col < 4) :
    addr_gen ch 0 0 side.num row (g + 8 * col) = place ⟨ch, 0, side, g⟩ (4 * row + col) := by
  have hplace := transaction_of_tile ch 0 side.num (4 * row + col) g.isLt
  have hrow' : ((4 * row + col) * 8 + (g : ℕ)) / 32 = row := by omega
  have hcol' : ((4 * row + col) * 8 + (g : ℕ)) % 32 = g + 8 * col := by omega
  rw [hrow', hcol'] at hplace
  rw [addr_gen_eq _ _ _ _ _ (by norm_num) hrow, hplace]
  simp [place]

/-- The bits of an access at a place. -/
theorem place_access {base : ℤ} (hbase : 2 ^ 18 ∣ base) (ch : Fin 64) (side : Side) (g : Fin 8) (i : ℕ) :
    chanOf (base + place ⟨ch, 0, side, g⟩ i) = ch ∧ sideOf (base + place ⟨ch, 0, side, g⟩ i) = side ∧
      getGrfIdx (base + place ⟨ch, 0, side, g⟩ i) = g := by
  have h := regOf_place hbase ⟨ch, 0, side, g⟩ i
  simp only [regOf, Reg.mk.injEq] at h
  exact ⟨h.1, h.2.2.1, h.2.2.2⟩

/-- The bits of an address in the control row. -/
theorem control_access (ch : Fin 64) (side : Side) (g : Fin 8) {col : ℕ} (hcol : col < 4) :
    chanOf (addr_gen ch 0 0 side.num 0x3fff (g + 8 * col) : ℕ) = ch ∧
      getGrfIdx (addr_gen ch 0 0 side.num 0x3fff (g + 8 * col) : ℕ) = g := by
  have hplace := place_access (dvd_zero _) ch side g (4 * 0x3fff + col)
  rw [zero_add] at hplace
  rw [addr_gen_place ch side g (by norm_num) hcol]
  exact ⟨hplace.1, hplace.2.2⟩

theorem enter_access (ch : Fin 64) : chanOf (addr_gen ch 0 0 0 0x3fff 0x0 : ℕ) = ch :=
  (control_access ch .even 0 (by norm_num : 0 < 4)).1

theorem grf_access (ch : Fin 64) (side : Side) (g : Fin 8) :
    chanOf (addr_gen ch 0 0 side.num 0x3fff (0x8 + g) : ℕ) = ch ∧
      getGrfIdx (addr_gen ch 0 0 side.num 0x3fff (0x8 + g) : ℕ) = g := by
  have h := control_access ch side g (by norm_num : 1 < 4)
  rwa [show (g : ℕ) + 8 * 1 = 0x8 + g from Nat.add_comm _ _] at h

/-- In a buffer that starts at a row, a MAC accumulates by the place's row and column. -/
theorem getGrfIdxHigh_place {base : ℤ} (hbase : 2 ^ 21 ∣ base) (r : Reg) (i : ℕ) :
    (getGrfIdxHigh (base + place r i) : ℕ) = i % 8 := by
  obtain ⟨hlo, hhi⟩ := place_bounds r i
  obtain ⟨q, rfl⟩ := hbase
  have hdiv : (2 ^ 21 * q + (place r i : ℤ)) / 2 ^ 18 = 8 * q + i := by omega
  have hrow : (2 ^ 21 * q + (place r i : ℤ)) / 2 ^ 20 = (8 * q + i) / 4 := by
    rw [← hdiv, Int.ediv_ediv_of_nonneg (by norm_num)]
    norm_num
  simp only [getGrfIdxHigh, hdiv, hrow]
  omega

/-- The half that a lane reaches. -/
theorem laneAddr_place (base : ℤ) (ch : Fin 64) (b : Fin 8) (side : Side) (g : Fin 8) (ti : Fin 16)
    (i : ℕ) : laneAddr (base + place ⟨ch, 0, side, g⟩ i) (.lane ch b ti) =
      base + place ⟨ch, b, side, g⟩ i + 2 * ti := by
  rw [laneAddr, broadcast_add, broadcast_place]

/-- A documented event acts lane by lane. -/
theorem MacDocumented.unit_eq {A : HalfArith R} {base : Buf → ℤ}
    {unit : UnitEvent → GemmState R → GemmState R} (h : MacDocumented A base unit) {e : UnitEvent}
    (he : UnitFits e) (s : GemmState R) : unit e s = (laneOps A base e).foldl step s := by
  cases he with
  | enter ch =>
    rw [h.enter, laneOps, enter_access]
  | grf ch side g buf a =>
    obtain ⟨hch, hg⟩ := grf_access ch side g
    rw [h.grf, laneOps, hch, hg]
  | mac hmac => rw [h.mac _ _ _ hmac, laneOps, if_pos hmac.type]
  | @nop c x hnop =>
    cases x with
    | R a => rw [h.nop_read _ _ _ hnop, laneOps, if_neg (by simp [hnop]), List.foldl_nil]
    | W a => rw [h.nop_write _ _ _ hnop, laneOps]

/-- There is hardware that behaves as documented: what acts lane by lane on every event. -/
theorem documented_laneOps (A : HalfArith R) (base : Buf → ℤ) :
    MacDocumented A base fun e s => (laneOps A base e).foldl step s where
  enter ch s := by rw [laneOps, enter_access]
  grf ch side g buf a s := by
    obtain ⟨hch, hg⟩ := grf_access ch side g
    rw [laneOps, hch, hg]
  mac c a s hmac := by rw [laneOps, if_pos hmac.type]
  nop_read c a s hnop := by rw [laneOps, if_neg (by simp [hnop]), List.foldl_nil]
  nop_write c a s _ := rfl

end PimLibrary.Program
