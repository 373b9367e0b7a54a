import PimLibrary.Program.Stays

/-! What a session of a GEMM kernel computes.

    Every lane of the channel starts from zero accumulators. An in-tile loads its half of eight
    in-groups and multiplies them, one after another, with the weights of each accumulator; the session
    ends when the accumulators are in the partial sums. The rounding of the products is that of the
    unit: they are added in the order in which the weights are read. -/

namespace PimLibrary.Executor
open Schemes.Word Schemes.SharedMemory PimLibrary.Kernel PimLibrary.Device PimLibrary.Program
open PimLibrary.Program.PimCommand

attribute [local irreducible] int32

variable {R : Type*}

/-! ### Registers -/

/-- The registers of `GRF_A` after their loads. -/
def loaded_regs (x : Fin 8 → R) (r : Regs R) : Regs R :=
  { r with grf := fun side g => match side with | .even => x g | .odd => r.grf .odd g }

/-- The products of a register each with eight weights, added to an accumulator. -/
def macTile (A : HalfArith R) (x w : Fin 8 → R) (acc : R) : R :=
  (List.finRange 8).foldl (fun acc g => A.mac acc (x g) (w g)) acc

/-- The registers after the MACs of an in-tile. -/
def mac_regs (A : HalfArith R) (w : Fin 8 → Fin 8 → R) (r : Regs R) : Regs R :=
  { r with grf := fun side j => match side with
      | .even => r.grf .even j
      | .odd => macTile A (r.grf .even) (w j) (r.grf .odd j) }

@[simp] theorem set_odd_even (r : Regs R) (j : Fin 8) (v : R) :
    (r.set .odd j v).grf .even = r.grf .even := by
  funext g
  simp

@[simp] theorem mac_regs_odd (A : HalfArith R) (w : Fin 8 → Fin 8 → R) (r : Regs R) (j : Fin 8) :
    (mac_regs A w r).grf .odd j = macTile A (r.grf .even) (w j) (r.grf .odd j) := rfl

theorem foldl_loads_regs (x : Fin 8 → R) (r : Regs R) :
    (List.finRange 8).foldl (fun r g => r.set .even g (x g)) r = loaded_regs x r := by
  have hall : ∀ (l : List (Fin 8)) (r : Regs R),
      (l.foldl (fun r g => r.set .even g (x g)) r).t_output = r.t_output ∧
        ∀ side g, (l.foldl (fun r g => r.set .even g (x g)) r).grf side g =
          if side = .even ∧ g ∈ l then x g else r.grf side g := by
    intro l
    induction l with
    | nil => simp
    | cons i l ih =>
      intro r
      obtain ⟨ht, hgrf⟩ := ih (r.set .even i (x i))
      refine ⟨ht, fun side g => ?_⟩
      rw [List.foldl_cons, hgrf]
      by_cases hside : side = .even <;> by_cases hg : g = i <;> simp [hside, hg]
  obtain ⟨ht, hgrf⟩ := hall (List.finRange 8) r
  refine Regs.ext_grf (fun side g => ?_) ht
  rw [hgrf]
  cases side <;> simp [loaded_regs]

/-- The MACs of one accumulator change that accumulator only. -/
theorem foldl_macs (A : HalfArith R) (w : Fin 8 → R) (j : Fin 8) (l : List (Fin 8)) (r : Regs R) :
    l.foldl (fun r g => r.set .odd j (A.mac (r.grf .odd j) (r.grf .even g) (w g))) r =
      r.set .odd j (l.foldl (fun acc g => A.mac acc (r.grf .even g) (w g)) (r.grf .odd j)) := by
  induction l generalizing r with
  | nil => exact Regs.ext_grf (fun side g => by by_cases h : side = .odd ∧ g = j <;> simp [h]) rfl
  | cons g l ih =>
    rw [List.foldl_cons, ih]
    refine Regs.ext_grf (fun side i => ?_) rfl
    by_cases h : side = .odd ∧ i = j <;> simp [h]

theorem foldl_macs_regs (A : HalfArith R) (w : Fin 8 → Fin 8 → R) (r : Regs R) :
    (List.finRange 8).foldl (fun r j => (List.finRange 8).foldl (fun r g =>
      r.set .odd j (A.mac (r.grf .odd j) (r.grf .even g) (w j g))) r) r = mac_regs A w r := by
  have hall : ∀ (l : List (Fin 8)), l.Nodup → ∀ r : Regs R,
      (l.foldl (fun r j => (List.finRange 8).foldl (fun r g =>
        r.set .odd j (A.mac (r.grf .odd j) (r.grf .even g) (w j g))) r) r).t_output = r.t_output ∧
      ∀ side i, (l.foldl (fun r j => (List.finRange 8).foldl (fun r g =>
        r.set .odd j (A.mac (r.grf .odd j) (r.grf .even g) (w j g))) r) r).grf side i =
          if side = .odd ∧ i ∈ l then macTile A (r.grf .even) (w i) (r.grf .odd i) else r.grf side i := by
    intro l
    induction l with
    | nil => simp
    | cons j l ih =>
      intro hnd r
      obtain ⟨hj, hnd⟩ := List.nodup_cons.mp hnd
      rw [List.foldl_cons, foldl_macs]
      obtain ⟨ht, hgrf⟩ := ih hnd (r.set .odd j (macTile A (r.grf .even) (w j) (r.grf .odd j)))
      refine ⟨ht, fun side i => (hgrf side i).trans ?_⟩
      rcases eq_or_ne i j with rfl | hi
      · cases side <;> simp [hj]
      · cases side <;> simp [hi]
  obtain ⟨ht, hgrf⟩ := hall (List.finRange 8) (List.nodup_finRange 8) r
  refine Regs.ext_grf (fun side g => ?_) ht
  rw [hgrf]
  cases side <;> simp [mac_regs]

/-! ### In-tiles -/

section Session

variable (A : HalfArith R) (base : Buf → ℤ) (ch : Fin 64) (s : Session)

/-- The half of an in-group that a lane loads. -/
def inputHalf (k : Agent) (i_idx : ℕ) (g : Fin 8) : ℤ :=
  base .input + (s.input + i_addr s i_idx g) + laneOffset k

/-- The weight that a lane multiplies it with for accumulator `j`. -/
def weightHalf (k : Agent) (side : Side) (i_idx : ℕ) (j g : Fin 8) : ℤ :=
  laneAddr (base .weight + weightAddr ch s side i_idx j g) k

/-- The in-tiles of a session with their banks, in order. -/
def bankTiles (evens odds : List ℕ) : List (Side × ℕ) :=
  evens.map (fun i => (.even, i)) ++ odds.map fun i => (.odd, i)

/-- What is in an accumulator after in-tiles. -/
def accumulated (m : ℤ → R) (k : Agent) (tiles : List (Side × ℕ)) (j : Fin 8) : R :=
  tiles.foldl (fun acc t => macTile A (fun g => m (inputHalf base s k t.2 g))
    (fun g => m (weightHalf base ch s k t.1 t.2 j g)) acc) A.zero

/-- The weights of the session begin at a row. -/
def RowAligned : Prop := 2 ^ 21 ∣ base .weight + s.weight

variable {base ch s}

/-- Each weight read selects the channel, the bank, the register and the accumulator that it is for. -/
theorem weight_access (h : RowAligned base s) (side : Side) (i_idx : ℕ) (j g : Fin 8) :
    (chanOf (base .weight + weightAddr ch s side i_idx j g) = ch ∧
      sideOf (base .weight + weightAddr ch s side i_idx j g) = side ∧
      getGrfIdx (base .weight + weightAddr ch s side i_idx j g) = g) ∧
      getGrfIdxHigh (base .weight + weightAddr ch s side i_idx j g) = j := by
  set row := toUint32 (if (j : ℕ) < 4 then even_row s i_idx else odd_row s i_idx) with hrow
  have hlt : row < 2 ^ 32 := toUint32_lt _
  have haddr : base .weight + weightAddr ch s side i_idx j g =
      base .weight + s.weight + (place ⟨ch, 0, side, g⟩ (4 * row + (j : ℕ) % 4) : ℕ) := by
    rw [weightAddr, ← addr_gen_place ch side g hlt (by omega), add_assoc]
  have hparity : row % 2 = (j : ℕ) / 4 := by
    have heven : 2 ∣ even_row s i_idx := dvd_int32 (by norm_num) (dvd_mul_left _ _)
    have hodd : odd_row s i_idx % 2 = 1 := by
      obtain ⟨q, hq⟩ := int32_eq_add_mul (even_row s i_idx + 1)
      rw [odd_row, hq]
      omega
    have hbit : ∀ x : ℤ, ((toUint32 x % 2 : ℕ) : ℤ) = x % 2 := fun x => by
      unfold toUint32
      omega
    have hj := j.isLt
    split_ifs at hrow with hj4
    · have := hbit (even_row s i_idx)
      omega
    · have := hbit (odd_row s i_idx)
      omega
  rw [haddr]
  refine ⟨place_access (dvd_trans (by norm_num) h) ch side g _, Fin.ext ?_⟩
  rw [getGrfIdxHigh_place h]
  omega

/-- An in-tile, in every lane of the channel. -/
theorem registers_tile (h : RowAligned base s) (side : Side) (i_idx : ℕ) :
    Registers (lanes ch) ((tileEvents base ch s side i_idx).flatMap (laneOps A base)) fun k m r =>
      mac_regs A (fun j g => m (weightHalf base ch s k side i_idx j g))
        (loaded_regs (fun g => m (inputHalf base s k i_idx g)) r) := by
  have hload : Registers (lanes ch) (((List.finRange 8).map fun g : Fin 8 =>
      UnitEvent.control (addr_gen ch 0 0 side.num 0x3fff (0x8 + g) : ℕ)
        (.mem .input (s.input + i_addr s i_idx g))).flatMap (laneOps A base)) fun k m r =>
      (List.finRange 8).foldl (fun r g => r.set .even g (m (inputHalf base s k i_idx g))) r := by
    rw [List.flatMap_map]
    refine .flatMap fun g _ => ?_
    obtain ⟨hch, hg⟩ := grf_access ch side g
    have h : Registers (lanes ch) (together (lanes ch) fun k =>
        (.load (inputHalf base s k i_idx g) fun v r => r.set .even g v : GemmOp R)) fun k m r =>
          r.set .even g (m (inputHalf base s k i_idx g)) :=
      registers_load (nodup_lanes ch) _ _
    rw [laneOps, hch, hg]
    exact h
  have hmac : Registers (lanes ch) (((List.finRange 8).flatMap fun j : Fin 8 =>
      (List.finRange 8).map fun g : Fin 8 => UnitEvent.exec (mac side.bank)
        (.R (base .weight + weightAddr ch s side i_idx j g))).flatMap (laneOps A base)) fun k m r =>
      (List.finRange 8).foldl (fun r j => (List.finRange 8).foldl (fun r g =>
        r.set .odd j (A.mac (r.grf .odd j) (r.grf .even g)
          (m (weightHalf base ch s k side i_idx j g)))) r) r := by
    rw [List.flatMap_assoc]
    refine .flatMap fun j _ => ?_
    rw [List.flatMap_map]
    refine .flatMap fun g _ => ?_
    obtain ⟨⟨hch, -, hg⟩, hj⟩ := @weight_access base ch s h side i_idx j g
    have htype : (mac side.bank).type_ = .MAC := rfl
    have hop : macOp A (base .weight + weightAddr ch s side i_idx j g) = fun k =>
        .load (weightHalf base ch s k side i_idx j g) fun v r =>
          r.set .odd j (A.mac (r.grf .odd j) (r.grf .even g) v) := by
      funext k
      rw [macOp, hg, hj]
      rfl
    rw [laneOps, if_pos htype, hch, hop]
    have h : Registers (lanes ch) (together (lanes ch) fun k =>
        (.load (weightHalf base ch s k side i_idx j g) fun v r =>
          r.set .odd j (A.mac (r.grf .odd j) (r.grf .even g) v) : GemmOp R)) fun k m r =>
          r.set .odd j (A.mac (r.grf .odd j) (r.grf .even g) (m (weightHalf base ch s k side i_idx j g))) :=
      registers_load (nodup_lanes ch) _ _
    exact h
  rw [tileEvents, List.flatMap_append]
  simpa only [foldl_loads_regs, foldl_macs_regs] using hload.append hmac

/-- The accumulators of a lane, in-tile by in-tile. -/
theorem foldl_tiles (m : ℤ → R) (k : Agent) (tiles : List (Side × ℕ)) (r : Regs R) (j : Fin 8) :
    (tiles.foldl (fun r t => mac_regs A (fun j g => m (weightHalf base ch s k t.1 t.2 j g))
      (loaded_regs (fun g => m (inputHalf base s k t.2 g)) r)) r).grf .odd j =
      tiles.foldl (fun acc t => macTile A (fun g => m (inputHalf base s k t.2 g))
        (fun g => m (weightHalf base ch s k t.1 t.2 j g)) acc) (r.grf .odd j) := by
  induction tiles generalizing r with
  | nil => rfl
  | cons t tiles ih =>
    rw [List.foldl_cons, List.foldl_cons, ih, mac_regs_odd]
    rfl

/-- The registers when the session writes them out. -/
theorem registers_macs (h : RowAligned base s) (evens odds : List ℕ) :
    Registers (lanes ch) ((((List.finRange 8).map fun _ : Fin 8 => UnitEvent.control
        (addr_gen ch 0 0 0 0x3fff 0x0 : ℕ) .gemv_hab_to_hab_pim) ++
        evens.flatMap (tileEvents base ch s .even) ++
        odds.flatMap (tileEvents base ch s .odd)).flatMap (laneOps A base)) fun k m r =>
      (bankTiles evens odds).foldl (fun r t => mac_regs A (fun j g => m (weightHalf base ch s k t.1 t.2 j g))
        (loaded_regs (fun g => m (inputHalf base s k t.2 g)) r))
        ((List.finRange 8).foldl (fun r _ => r.fill .odd A.zero) r) := by
  have henter : Registers (lanes ch) (((List.finRange 8).map fun _ : Fin 8 => UnitEvent.control
      (addr_gen ch 0 0 0 0x3fff 0x0 : ℕ) .gemv_hab_to_hab_pim).flatMap (laneOps A base)) fun k m r =>
      (List.finRange 8).foldl (fun r _ => r.fill .odd A.zero) r := by
    rw [List.flatMap_map]
    refine .flatMap fun _ _ => ?_
    rw [laneOps, enter_access]
    exact registers_compute (nodup_lanes ch) _
  have htiles : ∀ (side : Side) (tiles : List ℕ), Registers (lanes ch)
      ((tiles.flatMap (tileEvents base ch s side)).flatMap (laneOps A base)) fun k m r =>
        tiles.foldl (fun r i => mac_regs A (fun j g => m (weightHalf base ch s k side i j g))
          (loaded_regs (fun g => m (inputHalf base s k i g)) r)) r := by
    intro side tiles
    rw [List.flatMap_assoc]
    exact .flatMap fun i _ => registers_tile A h side i
  have hall := (henter.append (htiles .even evens)).append (htiles .odd odds)
  simpa only [List.flatMap_append, bankTiles, List.foldl_append, List.foldl_map] using hall

end Session

/-! ### Partial sums -/

/-- The half of the partial sums that a lane writes for a register of `GRF_B` in a tile. -/
def cellHalf (base : Buf → ℤ) (L : ℕ) (r : Reg) (ti : Fin 16) : ℤ :=
  base .pim_partial_sum + place r L + 2 * ti

/-- A half of the partial sums of `n` tiles. -/
def IsCell (base : Buf → ℤ) (n : ℕ) (x : ℤ) : Prop :=
  base .pim_partial_sum ≤ x ∧ x < base .pim_partial_sum + 2 ^ 18 * n ∧ sideOf x = .odd ∧
    2 ∣ x - base .pim_partial_sum

instance (base : Buf → ℤ) (n : ℕ) (x : ℤ) : Decidable (IsCell base n x) :=
  inferInstanceAs (Decidable (_ ∧ _ ∧ _ ∧ _))

/-- The tile of a partial sum. -/
def tileAt (base : Buf → ℤ) (x : ℤ) : ℕ := ((x - base .pim_partial_sum) / 2 ^ 18).toNat

/-- The lane that accesses a half. -/
def laneAt (x : ℤ) : Fin 16 := ⟨(x / 2 % 16).toNat, by omega⟩

theorem dvd_place (r : Reg) (i : ℕ) : 32 ∣ place r i := by
  rw [place]
  omega

/-- Inside a transaction the bits that select the register do not change. -/
theorem regOf_add {a d : ℤ} (ha : 32 ∣ a) (h0 : 0 ≤ d) (hd : d < 32) : regOf (a + d) = regOf a := by
  have hlow : (a + d) / 2 ^ 5 = a / 2 ^ 5 := by omega
  have hbits : ∀ n : ℕ, (a + d) / 2 ^ (5 + n) = a / 2 ^ (5 + n) := by
    intro n
    rw [pow_add, ← Int.ediv_ediv_of_nonneg (by positivity), hlow,
      Int.ediv_ediv_of_nonneg (by positivity)]
  simp only [regOf, chanOf, blockOf, sideOf, getGrfIdx, hbits 0, hbits 1, hbits 2, hbits 3, hbits 8,
    hbits 9, hbits 11, hbits 12]

section Cells

variable {base : Buf → ℤ} (hbase : 2 ^ 18 ∣ base .pim_partial_sum)
include hbase

theorem cellHalf_at (L : ℕ) (r : Reg) (ti : Fin 16) :
    regOf (cellHalf base L r ti) = r ∧ laneAt (cellHalf base L r ti) = ti ∧
      tileAt base (cellHalf base L r ti) = L := by
  have hdvd := dvd_place r L
  obtain ⟨hlo, hhi⟩ := place_bounds r L
  obtain ⟨q, hq⟩ := hbase
  have hti := ti.isLt
  refine ⟨?_, Fin.ext ?_, ?_⟩
  · rw [cellHalf, regOf_add (by omega) (by omega) (by omega), regOf_place ⟨q, hq⟩]
  · rw [laneAt, cellHalf]
    simp only
    omega
  · rw [tileAt, cellHalf]
    omega

theorem isCell_cellHalf {L n : ℕ} (hL : L < n) {r : Reg} (hr : r.side = .odd) (ti : Fin 16) :
    IsCell base n (cellHalf base L r ti) := by
  obtain ⟨hlo, hhi⟩ := place_bounds r L
  have hdvd := dvd_place r L
  have hside : sideOf (cellHalf base L r ti) = r.side := congrArg Reg.side (cellHalf_at hbase L r ti).1
  have hti := ti.isLt
  refine ⟨?_, ?_, hside.trans hr, ?_⟩ <;> rw [cellHalf] <;> omega

/-- Every partial sum is a half that a lane writes. -/
theorem IsCell.eq {n : ℕ} {x : ℤ} (h : IsCell base n x) :
    x = cellHalf base (tileAt base x) (regOf x) (laneAt x) ∧ (regOf x).side = .odd ∧
      tileAt base x < n := by
  obtain ⟨hlo, hhi, hside, hdvd⟩ := h
  set d := x - base .pim_partial_sum with hd
  obtain ⟨r, i, hplace⟩ := exists_place (a := d - d % 32) (by omega) (by omega)
  have hx : x = cellHalf base i r ⟨(d % 32 / 2).toNat, by omega⟩ := by
    rw [cellHalf]
    simp only
    omega
  obtain ⟨hreg, hlane, htile⟩ := cellHalf_at hbase i r ⟨(d % 32 / 2).toNat, by omega⟩
  rw [← hx] at hreg hlane htile
  refine ⟨by rw [hreg, hlane, htile, ← hx], hside, ?_⟩
  rw [tileAt, ← hd]
  omega

/-- A partial sum of one channel and tile. -/
theorem isCell_iff {L n : ℕ} (hL : L < n) {ch : Fin 64} {x : ℤ} :
    (IsCell base n x ∧ chanOf x = ch ∧ tileAt base x = L) ↔
      ∃ b g ti, x = cellHalf base L ⟨ch, b, .odd, g⟩ ti := by
  constructor
  · rintro ⟨hx, rfl, rfl⟩
    obtain ⟨heq, hside, -⟩ := hx.eq hbase
    have hreg : regOf x = ⟨chanOf x, blockOf x, .odd, getGrfIdx x⟩ := by rw [← hside]; rfl
    exact ⟨_, _, _, hreg ▸ heq⟩
  · rintro ⟨b, g, ti, rfl⟩
    obtain ⟨hreg, -, htile⟩ := cellHalf_at hbase L ⟨ch, b, .odd, g⟩ ti
    exact ⟨isCell_cellHalf hbase hL rfl ti, congrArg Reg.chan hreg, htile⟩

end Cells

/-- The lane that goes through a partial sum. -/
def laneOf (x : ℤ) : Agent := .lane (chanOf x) (blockOf x) (laneAt x)

section Sums

variable (A : HalfArith R) {base : Buf → ℤ} (hbase : 2 ^ 18 ∣ base .pim_partial_sum) {ch : Fin 64}
  {s : Session} {L : ℕ} (hcell : ∀ g : Fin 8, partial_addr ch s g = (place ⟨ch, 0, .odd, g⟩ L : ℕ))
include hbase hcell

/-- The session writes each accumulator of each lane to its place, and nothing else. -/
theorem mem_sum_ops {e : Agent × GemmOp R} :
    e ∈ (sumEvents base ch s).flatMap (laneOps A base) ↔ ∃ b g ti, e = (.lane ch b ti,
      .store (cellHalf base L ⟨ch, b, .odd, g⟩ ti) fun r => r.grf .odd g) := by
  have hwrite : ∀ g : Fin 8, laneOps A base (.exec (ctrl .NOP 23)
      (.W (base .pim_partial_sum + partial_addr ch s g))) = together (lanes ch) fun k =>
        .store (laneAddr (base .pim_partial_sum + place ⟨ch, 0, .odd, g⟩ L) k) fun r => r.grf .odd g := by
    intro g
    obtain ⟨hch, hside, hg⟩ := place_access hbase ch .odd g L
    rw [laneOps, hcell, hch, hside, hg]
  have hread : ∀ g : Fin 8, laneOps A base (.exec (ctrl .NOP 23)
      (.R (base .pim_partial_sum + partial_addr ch s g))) = [] := fun g => by
    have hne : (ctrl .NOP 23).type_ ≠ .MAC := by decide
    rw [laneOps, if_neg hne]
  have hmem : ∀ g : Fin 8, e ∈ together (lanes ch) (fun k =>
      (.store (laneAddr (base .pim_partial_sum + place ⟨ch, 0, .odd, g⟩ L) k) fun r =>
        r.grf .odd g : GemmOp R)) ↔ ∃ b ti, e = (.lane ch b ti,
          .store (cellHalf base L ⟨ch, b, .odd, g⟩ ti) fun r => r.grf .odd g) := by
    intro g
    simp only [together, List.mem_map, mem_lanes]
    constructor
    · rintro ⟨-, ⟨b, ti, rfl⟩, rfl⟩
      exact ⟨b, ti, by rw [laneAddr_place]; rfl⟩
    · rintro ⟨b, ti, rfl⟩
      exact ⟨_, ⟨b, ti, rfl⟩, by rw [laneAddr_place]; rfl⟩
  simp only [sumEvents, List.flatMap_append, List.flatMap_map, List.mem_append, List.mem_flatMap,
    List.mem_finRange, true_and, hwrite, hread, hmem, List.not_mem_nil, exists_false, or_false, or_self]
  constructor
  · rintro ⟨g, b, ti, rfl⟩
    exact ⟨b, g, ti, rfl⟩
  · rintro ⟨b, g, ti, rfl⟩
    exact ⟨g, b, ti, rfl⟩

/-- A session leaves the accumulators of its lanes in its partial sums. -/
theorem session_mem (hrow : RowAligned base s) (evens odds : List ℕ) {n : ℕ} (hL : L < n)
    (st : GemmState R) :
    (((sessionEvents base ch s evens odds).flatMap (laneOps A base)).foldl step st).mem = fun x =>
      if IsCell base n x ∧ chanOf x = ch ∧ tileAt base x = L then
        accumulated A base ch s st.mem (laneOf x) (bankTiles evens odds) (getGrfIdx x) else st.mem x := by
  rw [sessionEvents, List.flatMap_append, List.foldl_append, registers_macs A hrow]
  set st' : GemmState R := { st with reg := _ } with hst'
  have hacc : ∀ b ti j, (st'.reg (.lane ch b ti)).grf .odd j =
      accumulated A base ch s st.mem (.lane ch b ti) (bankTiles evens odds) j := by
    intro b ti j
    have hzero : ∀ (l : List (Fin 8)) (r : Regs R), l ≠ [] →
        (l.foldl (fun r _ => r.fill .odd A.zero) r).grf .odd j = A.zero := by
      intro l
      induction l with
      | nil => exact fun _ h => absurd rfl h
      | cons g l ih =>
        intro r _
        rcases eq_or_ne l [] with rfl | hl
        · simp
        · exact ih _ hl
    have hmem : Agent.lane ch b ti ∈ lanes ch := by simp
    rw [hst', accumulated]
    simp only [if_pos hmem]
    rw [foldl_tiles, hzero _ _ (by simp)]
  have hmem : st'.mem = st.mem := rfl
  clear_value st'
  have hstores := fun x => foldl_stores (fun x => (st'.reg (laneOf x)).grf .odd (getGrfIdx x))
    ((sumEvents base ch s).flatMap (laneOps A base)) st' (fun e he => by
      obtain ⟨b, g, ti, rfl⟩ := (mem_sum_ops A hbase hcell).mp he
      obtain ⟨hreg, hlane, -⟩ := cellHalf_at hbase L ⟨ch, b, .odd, g⟩ ti
      simp only [regOf, Reg.mk.injEq] at hreg
      exact ⟨_, _, rfl, by rw [laneOf, hreg.1, hreg.2.1, hreg.2.2.2, hlane]⟩) x
  have hwrites : ∀ x, (∃ e ∈ (sumEvents base ch s).flatMap (laneOps A base), e.2.Writes x) ↔
      IsCell base n x ∧ chanOf x = ch ∧ tileAt base x = L := by
    intro x
    rw [isCell_iff hbase hL]
    constructor
    · rintro ⟨e, he, hw⟩
      obtain ⟨b, g, ti, rfl⟩ := (mem_sum_ops A hbase hcell).mp he
      exact ⟨b, g, ti, hw.symm⟩
    · rintro ⟨b, g, ti, rfl⟩
      exact ⟨_, (mem_sum_ops A hbase hcell).mpr ⟨b, g, ti, rfl⟩, rfl⟩
  funext x
  obtain ⟨-, hset, hkeep⟩ := hstores x
  rw [hwrites] at hset hkeep
  by_cases hx : IsCell base n x ∧ chanOf x = ch ∧ tileAt base x = L
  · rw [if_pos hx]
    rw [hset hx, laneOf, hx.2.1, hacc]
  · rw [if_neg hx, hkeep hx, hmem]

end Sums

end PimLibrary.Executor
