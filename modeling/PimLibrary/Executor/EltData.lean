import PimLibrary.Executor.EltTiles
import PimLibrary.Program.DataPath

/-! What an element-wise launch does to memory.

    Every access of a launch acts on the registers at its place in the tile, one in each block of the
    channel, and every register goes through the transactions at its own place only. So the channels and
    the blocks in them do not interfere: what one register makes of its transactions, tile by tile, is
    what the launch leaves, however the channels take turns. -/

namespace PimLibrary.Executor
open Schemes.Word Schemes.Interleave Schemes.SharedMemory Schemes.Lockstep PimLibrary.Device
open PimLibrary.Kernel PimLibrary.Program PimLibrary.Program.PimCommand

variable {B : Type*}

/-! ### Addresses of a tile -/

def tileAddr : Side → ℕ → ℕ → ℕ → ℤ
  | .even => addr_even
  | .odd => addr_odd

/-- The registers of a row and column, one in each block, each at its place. -/
theorem broadcast_tileAddr (side : Side) (ch : Fin 64) (b g : Fin 8) {i : ℕ} (hi : i < 2 ^ 28) :
    broadcast b (tileAddr side ch i (2 * g) + offset (2 * g)) = (place ⟨ch, b, side, g⟩ i : ℕ) := by
  have hg : gidx (2 * (g : ℕ)) = g := by simp [gidx]
  have hoff : offset (2 * (g : ℕ)) = 0 := by simp [offset]
  have hloc : uint32 (i * 8 + g) = i * 8 + g := uint32_of_lt (by omega)
  have haddr : tileAddr side ch i (2 * g) = ((32 * transaction ch 0 side.num ((i * 8 + g) / 32)
      ((i * 8 + g) % 32) : ℕ) : ℤ) := by
    cases side with
    | even => rw [tileAddr, addr_even_eq, tile_addr_eq _ _ _ _ (by norm_num), hg, hloc]; rfl
    | odd => rw [tileAddr, addr_odd_eq, tile_addr_eq _ _ _ _ (by norm_num), hg, hloc]; rfl
  rw [hoff, haddr, Nat.cast_zero, add_zero, broadcast_transaction side.num_lt,
    transaction_of_tile _ _ _ _ g.isLt, place]

section Addresses

variable {base : ℤ} (hbase : 2 ^ 18 ∣ base) (side : Side) (ch : Fin 64) (g : Fin 8) {i : ℕ}
  (hi : i < 2 ^ 28)

include hbase hi

theorem selected_tileAddr (b : Fin 8) :
    selected (base + (tileAddr side ch i (2 * g) + offset (2 * g))) b = ⟨ch, b, side, g⟩ := by
  have hzero : tileAddr side ch i (2 * g) + offset (2 * g) = (place ⟨ch, 0, side, g⟩ i : ℕ) := by
    rw [← broadcast_tileAddr side ch 0 g hi]
    simp [broadcast]
  have h := regOf_place hbase ⟨ch, 0, side, g⟩ i
  rw [← hzero] at h
  simp only [regOf, Reg.mk.injEq] at h
  obtain ⟨hc, -, hs, hg⟩ := h
  rw [selected, hc, hs, hg]

theorem sideOf_tileAddr : sideOf (base + (tileAddr side ch i (2 * g) + offset (2 * g))) = side :=
  congrArg Reg.side (selected_tileAddr hbase side ch g hi 0)

/-- The access acts on the registers of its row and column. -/
theorem inBlocks_tileAddr (o : ℤ → RegOp B) :
    inBlocks (base + (tileAddr side ch i (2 * g) + offset (2 * g))) o =
      (List.finRange 8).map fun b => (⟨ch, b, side, g⟩, o (base + place ⟨ch, b, side, g⟩ i)) := by
  refine List.map_congr_left fun b _ => ?_
  rw [selected_tileAddr hbase side ch g hi, broadcast_add, broadcast_tileAddr side ch b g hi]

end Addresses

/-! ### What a register sees of an access -/

/-- Of the registers of a row and column over all columns of a tile, one is `r` if the channel and the
    bank are its own. -/
theorem proj_tile (r : Reg) (ch : Fin 64) (side : Side) (f : Reg → RegOp B) :
    ((List.finRange 8).flatMap fun g => proj r ((List.finRange 8).map fun b =>
      ((⟨ch, b, side, g⟩ : Reg), f ⟨ch, b, side, g⟩))) =
        if r.chan = ch ∧ r.side = side then [f r] else [] := by
  have hprod : ((List.finRange 8).flatMap fun g => (List.finRange 8).map fun b =>
      ((⟨ch, b, side, g⟩ : Reg), f ⟨ch, b, side, g⟩)) = (List.finRange 8 ×ˢ List.finRange 8).map
        fun x => ((⟨ch, x.2, side, x.1⟩ : Reg), f ⟨ch, x.2, side, x.1⟩) := by
    simp [SProd.sprod, List.product, List.map_flatMap, Function.comp_def]
  rw [← proj_flatMap, hprod]
  split_ifs with h
  · obtain ⟨rfl, rfl⟩ := h
    refine proj_map_of_mem ((List.nodup_finRange 8).product (List.nodup_finRange 8))
      (fun x : Fin 8 × Fin 8 => f ⟨r.chan, x.2, r.side, x.1⟩) (k := (r.idx, r.block)) (by simp) rfl ?_
    rintro ⟨g, b⟩ - hx
    rw [← hx]
  · refine proj_map_of_ne _ fun x _ hx => h ?_
    rw [← hx]
    exact ⟨rfl, rfl⟩

/-- The accesses that a statement makes. -/
theorem accesses_R (base : Buf → ℤ) {buf : Buf} (hbuf : buf ≠ .pim_ctr) (a : ℕ → ℤ) :
    (dataColumns [R_CMD 16 buf a]).filterMap (Cmd.access base) =
      (List.finRange 8).map fun g => .R (base buf + (a (2 * g) + offset (2 * (g : ℕ)))) := by
  rw [dataColumns_R_CMD hbuf, ← List.map_coe_finRange_eq_range, List.map_map, List.filterMap_map]
  exact congrFun List.filterMap_eq_map (List.finRange 8)

theorem accesses_W (base : Buf → ℤ) {buf : Buf} (hbuf : buf ≠ .pim_ctr) (a : ℕ → ℤ) :
    (dataColumns [W_CMD 16 buf a]).filterMap (Cmd.access base) =
      (List.finRange 8).map fun g => .W (base buf + (a (2 * g) + offset (2 * (g : ℕ)))) := by
  rw [dataColumns_W_CMD hbuf, ← List.map_coe_finRange_eq_range, List.map_map, List.filterMap_map]
  exact congrFun List.filterMap_eq_map (List.finRange 8)

/-- What an instruction does to one register when the unit takes the commands. -/
def touch (alu : Alu B) (base : Buf → ℤ) (r : Reg) (c : PimCommand) (xs : List Cmd) : List (RegOp B) :=
  (xs.filterMap (Cmd.access base)).flatMap fun x => proj r (blockOps alu c x)

section Touch

variable (alu : Alu B) (base : Buf → ℤ) (r : Reg) (c : PimCommand)

theorem touch_append (xs ys : List Cmd) :
    touch alu base r c (xs ++ ys) = touch alu base r c xs ++ touch alu base r c ys := by
  simp [touch]

@[simp] theorem touch_nil : touch alu base r c (dataColumns []) = [] := rfl

@[simp] theorem touch_B (n type : ℕ) (l : List Stmt) :
    touch alu base r c (dataColumns (B_CMD n type :: l)) = touch alu base r c (dataColumns l) := by
  rw [dataColumns_cons, (idle_B_CMD n type).dataColumns, List.nil_append]

variable {buf : Buf} (hbuf : buf ≠ .pim_ctr) (hbase : 2 ^ 18 ∣ base buf) (side : Side) (ch : Fin 64)
  {i : ℕ} (hi : i < 2 ^ 28) (l : List Stmt)

include hbuf hbase hi

theorem touch_R : touch alu base r c (dataColumns (R_CMD 16 buf (tileAddr side ch i) :: l)) =
    (if r.chan = ch ∧ r.side = side then ((readOp alu c side).map fun o =>
      o (base buf + place r i)).toList else []) ++ touch alu base r c (dataColumns l) := by
  rw [dataColumns_cons, touch_append, touch, accesses_R base hbuf, List.flatMap_map]
  simp only [blockOps, sideOf_tileAddr hbase side ch _ hi]
  cases readOp alu c side with
  | none => simp
  | some o =>
    simp only [Option.map_some, Option.getD_some, Option.toList_some, inBlocks_tileAddr hbase side ch _ hi,
      proj_tile r ch side fun r => o (base buf + place r i)]

theorem touch_W : touch alu base r c (dataColumns (W_CMD 16 buf (tileAddr side ch i) :: l)) =
    (if r.chan = ch ∧ r.side = side then [.store (base buf + place r i) id] else []) ++
      touch alu base r c (dataColumns l) := by
  rw [dataColumns_cons, touch_append, touch, accesses_W base hbuf, List.flatMap_map]
  simp only [blockOps, inBlocks_tileAddr hbase side ch _ hi,
    proj_tile r ch side fun r => .store (base buf + place r i) id]

end Touch

/-! ### One tile -/

/-- The buffers that a launch reads; the second one counts for additions and multiplications. -/
def operand_bufs : EltLaunch → Buf × Buf
  | .add _ | .mul _ => (.operand0, .operand1)
  | .relu _ | .copy _ | .bn _ _ => (.pim_data, .pim_data)

/-- What a launch makes of the elements of its operands. -/
def elementwise (alu : Alu B) : EltLaunch → B → B → B
  | .add _ => alu.add
  | .mul _ => alu.mul
  | .relu _ => fun x _ => alu.relu x
  | .copy _ => fun x _ => x
  | .bn _ _ => fun x _ => alu.mad 1 (alu.mad 0 x)

/-- What one register does in a tile. -/
def tileOps (alu : Alu B) (base : Buf → ℤ) (l : EltLaunch) (p : ℤ) : List (RegOp B) :=
  let out : RegOp B := .store (base .output + p) id
  match l with
  | .add _ => [.load (base .operand0 + p) fun v _ => v, .load (base .operand1 + p) fun v r => alu.add r v,
    out, out]
  | .mul _ => [.load (base .operand0 + p) fun v _ => v, .load (base .operand1 + p) fun v r => alu.mul r v,
    out, out]
  | .relu _ => [.load (base .pim_data + p) fun v _ => alu.relu v, out]
  | .copy _ => [.load (base .pim_data + p) fun v _ => v, out]
  | .bn _ _ => [.load (base .pim_data + p) fun v _ => alu.mad 0 v, .compute fun r => alu.mad 1 r, out]

/-- The buffers of a launch start at tiles. -/
structure Aligned (l : EltLaunch) (base : Buf → ℤ) : Prop where
  first : 2 ^ 18 ∣ base (operand_bufs l).1
  second : 2 ^ 18 ∣ base (operand_bufs l).2
  output : 2 ^ 18 ∣ base .output

/-- The instructions of a loop round, with the fields that their words keep. -/
def round : EltLaunch → List PimCommand
  | .add _ =>
    [move .FILL .GRF_A .EVEN_BANK, binary .ADD .GRF_A .GRF_A .EVEN_BANK 1, ctrl .NOP 23,
      move .FILL .GRF_B .ODD_BANK, binary .ADD .GRF_B .GRF_B .ODD_BANK 1, ctrl .NOP 23]
  | .mul _ =>
    [move .FILL .GRF_A .EVEN_BANK, binary .MUL .GRF_A .GRF_A .EVEN_BANK 1, ctrl .NOP 23,
      move .FILL .GRF_B .ODD_BANK, binary .MUL .GRF_B .GRF_B .ODD_BANK 1, ctrl .NOP 23]
  | .relu _ =>
    [move .FILL .GRF_A .EVEN_BANK 0 0 0 0 1, ctrl .NOP 15, move .FILL .GRF_B .ODD_BANK 0 0 0 0 1,
      ctrl .NOP 15]
  | .copy _ => [move .FILL .GRF_A .EVEN_BANK, ctrl .NOP 15, move .FILL .GRF_B .ODD_BANK, ctrl .NOP 15]
  | .bn _ _ =>
    [ternary .MAD .GRF_A .EVEN_BANK .SRF_M .SRF_A 1, ctrl .NOP 7,
      ternary .MAD .GRF_A .GRF_A .SRF_M .SRF_A 1 0 0 1, ctrl .NOP 7,
      ternary .MAD .GRF_B .ODD_BANK .SRF_M .SRF_A 1, ctrl .NOP 7,
      ternary .MAD .GRF_B .GRF_B .SRF_M .SRF_A 1 0 0 1, ctrl .NOP 23]

theorem body_eq (l : EltLaunch) : l.body = round l := by cases l <;> rfl

/-- The instructions of a tile, each with the commands it takes. -/
def tileLog (l : EltLaunch) (ch i : ℕ) : List (PimCommand × List Cmd) :=
  l.body.zip ((l.groups ch i).map dataColumns)

theorem operand_bufs_ne (l : EltLaunch) : (operand_bufs l).1 ≠ .pim_ctr ∧ (operand_bufs l).2 ≠ .pim_ctr := by
  cases l <;> simp [operand_bufs]

/-- Over a tile, a register of the channel does what is listed, in that order. -/
theorem tile_touches (alu : Alu B) {base : Buf → ℤ} {l : EltLaunch} (h : Aligned l base) (r : Reg) {i : ℕ}
    (hi : i < 2 ^ 28) :
    (tileLog l r.chan i).flatMap (fun e => touch alu base r e.1 e.2) =
      tileOps alu base l (place r i) := by
  have hnop : ∀ (k : ℤ) side, readOp alu (ctrl .NOP k) side = none := fun _ _ => rfl
  have heven : addr_even r.chan i = tileAddr .even r.chan i := rfl
  have hodd : addr_odd r.chan i = tileAddr .odd r.chan i := rfl
  have hout : Buf.output ≠ .pim_ctr := by decide
  have hfirst := fun c side => touch_R alu base r c (operand_bufs_ne l).1 h.first side r.chan hi
  have hsecond := fun c side => touch_R alu base r c (operand_bufs_ne l).2 h.second side r.chan hi
  have hread := fun c side => touch_R alu base r c hout h.output side r.chan hi
  have hwrite := fun c side => touch_W alu base r c hout h.output side r.chan hi
  cases l with
  | add _ | mul _ =>
    simp only [operand_bufs] at hfirst hsecond
    simp only [tileLog, body_eq, round, EltLaunch.groups, heven, hodd, List.map_cons, List.map_nil,
      List.zip_cons_cons, List.zip_nil_right, List.flatMap_cons, List.flatMap_nil, hfirst, hsecond, hread,
      hwrite, touch_B, touch_nil, hnop]
    cases hside : r.side <;> simp [tileOps, readOp, move, binary]
  | relu _ | copy _ | bn _ _ =>
    simp only [operand_bufs] at hfirst
    simp only [tileLog, body_eq, round, EltLaunch.groups, heven, hodd, List.map_cons, List.map_nil,
      List.zip_cons_cons, List.zip_nil_right, List.flatMap_cons, List.flatMap_nil, hfirst, hread, hwrite,
      touch_B, touch_nil, hnop]
    cases hside : r.side <;> simp [tileOps, readOp, move, ternary, Side.bank]

/-- What a register's tile leaves in memory. -/
theorem tileOps_mem (alu : Alu B) (base : Buf → ℤ) (l : EltLaunch) (r : Reg) (p : ℤ) (s : PimState B) :
    ((by_thread r (tileOps alu base l p)).foldl step s).mem = Function.update s.mem (base .output + p)
      (elementwise alu l (s.mem (base (operand_bufs l).1 + p)) (s.mem (base (operand_bufs l).2 + p))) := by
  cases l <;> simp [tileOps, by_thread, step, operand_bufs, elementwise]

/-! ### The accesses of a tile -/

/-- A documented instruction on an access to a bank group's first block in a tile of a buffer. -/
structure Meant (ch : Fin 64) (e : PimCommand × Access) : Prop where
  fits : AccessFits e.1 e.2
  placed : ∃ base side i, ∃ g : Fin 8, 2 ^ 18 ∣ base ∧ i < 2 ^ 28 ∧
    e.2.addr = base + (tileAddr side ch i (2 * g) + offset (2 * (g : ℕ)))

/-- All accesses of the commands are meant for the instruction. -/
def AllMeant (base : Buf → ℤ) (ch : Fin 64) (c : PimCommand) (xs : List Cmd) : Prop :=
  ∀ x ∈ xs.filterMap (Cmd.access base), Meant ch (c, x)

section Meant

variable {base : Buf → ℤ} (ch : Fin 64) {c : PimCommand}

theorem allMeant_nil : AllMeant base ch c [] := by simp [AllMeant]

theorem allMeant_B (n type : ℕ) (l : List Stmt) :
    AllMeant base ch c (dataColumns (B_CMD n type :: l)) ↔ AllMeant base ch c (dataColumns l) := by
  rw [dataColumns_cons, (idle_B_CMD n type).dataColumns, List.nil_append]

variable {buf : Buf} (hbuf : buf ≠ .pim_ctr) (hbase : 2 ^ 18 ∣ base buf) {i : ℕ} (hi : i < 2 ^ 28)
  (side : Side) (l : List Stmt)

include hbuf hbase hi

theorem allMeant_R : AllMeant base ch c (dataColumns (R_CMD 16 buf (tileAddr side ch i) :: l)) ↔
    ReadFits c side ∧ AllMeant base ch c (dataColumns l) := by
  rw [dataColumns_cons, AllMeant, List.filterMap_append, List.forall_mem_append, accesses_R base hbuf]
  refine and_congr_left fun _ => ⟨fun h => ?_, fun h x hx => ?_⟩
  · have hfits := (h _ (List.mem_map.mpr ⟨0, List.mem_finRange 0, rfl⟩)).fits
    rwa [AccessFits, sideOf_tileAddr hbase side ch 0 hi] at hfits
  · obtain ⟨g, -, rfl⟩ := List.mem_map.mp hx
    refine ⟨?_, base buf, side, i, g, hbase, hi, rfl⟩
    rw [AccessFits, sideOf_tileAddr hbase side ch g hi]
    exact h

theorem allMeant_W : AllMeant base ch c (dataColumns (W_CMD 16 buf (tileAddr side ch i) :: l)) ↔
    c.type_ = .NOP ∧ AllMeant base ch c (dataColumns l) := by
  rw [dataColumns_cons, AllMeant, List.filterMap_append, List.forall_mem_append, accesses_W base hbuf]
  refine and_congr_left fun _ => ⟨fun h => ?_, fun h x hx => ?_⟩
  · exact (h _ (List.mem_map.mpr ⟨0, List.mem_finRange 0, rfl⟩)).fits
  · obtain ⟨g, -, rfl⟩ := List.mem_map.mp hx
    exact ⟨h, base buf, side, i, g, hbase, hi, rfl⟩

end Meant

theorem tile_meant {base : Buf → ℤ} {l : EltLaunch} (h : Aligned l base) (ch : Fin 64) {i : ℕ}
    (hi : i < 2 ^ 28) : ∀ e ∈ tileLog l ch i, AllMeant base ch e.1 e.2 := by
  have heven : addr_even ch i = tileAddr .even ch i := rfl
  have hodd : addr_odd ch i = tileAddr .odd ch i := rfl
  have hout : Buf.output ≠ .pim_ctr := by decide
  have hfirst := fun {c} side => allMeant_R ch (c := c) (operand_bufs_ne l).1 h.first hi side
  have hsecond := fun {c} side => allMeant_R ch (c := c) (operand_bufs_ne l).2 h.second hi side
  have hread := fun {c} side => allMeant_R ch (c := c) hout h.output hi side
  have hwrite := fun {c} side => allMeant_W ch (c := c) hout h.output hi side
  cases l with
  | add _ | mul _ =>
    simp only [operand_bufs] at hfirst hsecond
    simp only [tileLog, body_eq, round, EltLaunch.groups, heven, hodd, List.map_cons, List.map_nil,
      List.zip_cons_cons, List.zip_nil_right, List.forall_mem_cons]
    simp [hfirst, hsecond, hread, hwrite, allMeant_B, allMeant_nil, ReadFits, move, binary, ctrl, Side.grf,
      Side.bank]
  | relu _ | copy _ | bn _ _ =>
    simp only [operand_bufs] at hfirst
    simp only [tileLog, body_eq, round, EltLaunch.groups, heven, hodd, List.map_cons, List.map_nil,
      List.zip_cons_cons, List.zip_nil_right, List.forall_mem_cons]
    simp [hfirst, hread, hwrite, allMeant_B, allMeant_nil, ReadFits, move, ternary, ctrl, Side.grf,
      Side.bank]

end PimLibrary.Executor
