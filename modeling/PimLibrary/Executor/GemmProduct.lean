import PimLibrary.Executor.GemmResults
import PimLibrary.Kernel.ReadOrder
import Mathlib.Algebra.BigOperators.Fin

/-! The matrix product that an aligned GEMM launch computes.

    The sums of a launch run over lanes, in-tiles and in-groups, and its weights lie where the host's
    conversion has put them. With the roundings left out these are the terms of a row of the matrix times a
    row of the input, each once. -/

namespace PimLibrary.Executor
open Schemes.Word Schemes.Loop Schemes.SharedMemory PimLibrary.Kernel PimLibrary.Device PimLibrary.Program PimLibrary.Layout

attribute [local irreducible] int32

/-! ### Sums -/

section Sums

variable {R : Type*} [CommRing R]

/-- Arithmetic without rounding. -/
def exactHalves (negative : R → Bool) : HalfArith R := ⟨0, (· + ·), fun acc x w => acc + x * w, negative⟩

theorem foldl_add {ι : Type*} (f : ι → R) (l : List ι) (acc : R) :
    l.foldl (fun acc i => acc + f i) acc = acc + (l.map f).sum := by
  induction l generalizing acc with
  | nil => simp
  | cons i l ih => rw [List.foldl_cons, ih, List.map_cons, List.sum_cons, add_assoc]

theorem macTile_exact (negative : R → Bool) (x w : Fin 8 → R) (acc : R) :
    macTile (exactHalves negative) x w acc = acc + ∑ g, x g * w g := by
  rw [Fin.sum_univ_def]
  exact foldl_add (fun g => x g * w g) (List.finRange 8) acc

theorem sum_lanes_exact (negative : R → Bool) (v : Fin 16 → R) :
    sum_lanes (exactHalves negative) v = ∑ ti, v ti := by
  rw [Fin.sum_univ_def, sum_lanes]
  exact (foldl_add v (List.finRange 16) 0).trans (zero_add _)

/-- What a lane adds to an accumulator in an in-tile. -/
def tileProduct (base : Buf → ℤ) (ch : Fin 64) (s : Session) (m : ℤ → R) (k : Agent) (j : Fin 8)
    (t : Side × ℕ) : R :=
  ∑ g, m (inputHalf base s k t.2 g) * m (weightHalf base ch s k t.1 t.2 j g)

theorem accumulated_exact (negative : R → Bool) (base : Buf → ℤ) (ch : Fin 64) (s : Session) (m : ℤ → R)
    (k : Agent) (tiles : List (Side × ℕ)) (j : Fin 8) :
    accumulated (exactHalves negative) base ch s m k tiles j =
      (tiles.map (tileProduct base ch s m k j)).sum := by
  rw [accumulated]
  simp only [macTile_exact]
  exact (foldl_add _ tiles 0).trans (zero_add _)

theorem sum_range_mul (f : ℕ → R) (a b : ℕ) :
    ∑ x ∈ Finset.range (a * b), f x = ∑ i ∈ Finset.range a, ∑ j ∈ Finset.range b, f (i * b + j) := by
  induction a with
  | zero => simp
  | succ a ih => rw [Nat.succ_mul, Finset.sum_range_add, ih, Finset.sum_range_succ]

theorem sum_map_range (f : ℕ → R) (k : ℕ) : ((List.range k).map f).sum = ∑ i ∈ Finset.range k, f i := by
  induction k with
  | zero => rfl
  | succ k ih => simp [List.range_succ, Finset.sum_range_succ, ih]

/-- The even and the odd in-tiles are the in-tiles. -/
theorem sum_even_odd (f : ℕ → R) (k : ℕ) :
    (∑ i ∈ Finset.range k, f (2 * i)) + ∑ i ∈ Finset.range k, f (1 + 2 * i) =
      ∑ i ∈ Finset.range (2 * k), f i := by
  induction k with
  | zero => simp
  | succ k ih =>
    rw [Nat.mul_succ, Finset.sum_range_succ, Finset.sum_range_succ, Finset.sum_range_succ,
      Finset.sum_range_succ, ← ih, Nat.add_comm 1 (2 * k)]
    ring

/-- Lanes, in-tiles and in-groups count a row of the input through. -/
theorem sum_row (f : ℕ → R) (k : ℕ) :
    ∑ ti : Fin 16, ∑ i ∈ Finset.range (2 * k), ∑ g : Fin 8, f (16 * (8 * i + g) + ti) =
      ∑ x ∈ Finset.range (256 * k), f x := by
  have hsize : 256 * k = 2 * k * (8 * 16) := by ring
  rw [hsize, sum_range_mul, Finset.sum_comm]
  refine Finset.sum_congr rfl fun i _ => ?_
  rw [sum_range_mul, Finset.sum_comm, Finset.sum_range]
  refine Finset.sum_congr rfl fun g _ => ?_
  rw [Finset.sum_range]
  refine Finset.sum_congr rfl fun ti _ => congrArg f ?_
  ring

end Sums

/-! ### Operands -/

section Operands

variable {g : AlignedGemm} (hf : g.ReadFits)
include hf

/-- The tile of an input row and an output tile. -/
theorem product_tile {m r o : ℕ} (hm : m < matrices g.weight) (hr : r < g.inout_h.toNat)
    (ho : o < g.out_tiles) :
    (m * g.inout_h.toNat + r) * g.out_tiles + o < g.partialTiles ∧
      tileSession g ((m * g.inout_h.toNat + r) * g.out_tiles + o) =
        aligned_session g.launch (aligned_state g.launch m r) o := by
  obtain ⟨-, -, hN, hh, -⟩ := hf.bounds
  have hrows : g.rows = g.inout_h.toNat := g.inout_h_eq hh
  have hone : matrices g.weight * 1 ≤ matrices g.weight * g.out_tiles := Nat.mul_le_mul_left _ g.out_tiles_pos
  have hi : m < g.launch.iter_cnt.toNat := by
    rw [AlignedGemm.launch_iterations, Nat.mod_eq_of_lt hN]
    omega
  have hlt := AlignedGemm.tile_lt hi (by rwa [AlignedGemm.launch_rows, hrows])
    (by rwa [g.n_out_tile_eq, Int.toNat_natCast] : o < g.launch.n_out_tile.toNat)
  rw [AlignedGemm.launch_rows] at hlt
  rw [← hrows] at hr ⊢
  obtain ⟨hi', hr', ho'⟩ := digits_at (i := m) hr ho
  exact ⟨hlt, by rw [tileSession, hi', hr', ho']⟩

/-- The half of the input that a lane loads for an in-group. -/
theorem product_input (base : Buf → ℤ) {m r o : ℕ}
    (hrow : (m * g.inout_h.toNat + r) * (16 * g.in_pairs) < 2 ^ 31) (ch : Fin 64) (b : Fin 8) (ti : Fin 16)
    (i : ℕ) (group : Fin 8) :
    inputHalf base (aligned_session g.launch (aligned_state g.launch m r) o) (.lane ch b ti) i group =
      base .input + 2 * ((m * g.inout_h.toNat + r) * g.in_w.toNat + (16 * (8 * i + group) + ti) : ℕ) := by
  obtain ⟨-, -, -, hh, -⟩ := hf.bounds
  have hzero : (aligned_session g.launch (aligned_state g.launch m r) o).input = 0 := rfl
  rw [inputHalf, i_addr, hzero, g.session_i_offset, g.inout_h_eq hh, int32_natCast hrow, g.in_w_eq,
    laneOffset]
  push_cast
  ring

/-- Device memory holds the weights, row by row of `in_w` halves, where the copies of the conversion have put
    their transactions. -/
def HoldsConverted {R : Type*} (g : AlignedGemm) (base : Buf → ℤ) (weights : ℕ → R) (m : ℤ → R) : Prop :=
  ∃ copies, convert_data_layout_for_aligned_gemm_weight false .I_X_W (PimCreateBo g.weight) = .ok copies ∧
    ∀ d (i : ℕ), placedAt copies d = some ((32 * i : ℕ) : ℤ) → ∀ ti : Fin 16,
      m (base .weight + d + 2 * ti) = weights (16 * i + ti)

omit hf in
/-- The copies of the conversion start at units. -/
theorem placed_unit (hf : g.ReadFits) {d src : ℤ}
    (h : placedAt ((List.range (65536 * (g.in_pairs * (matrices g.weight * g.out_tiles)))).map
      (copyAt false g.in_pairs g.out_tiles (2 ^ 21 * g.in_pairs * g.out_tiles))) d = some src) :
    ∃ i : ℕ, d = ((32 * i : ℕ) : ℤ) := by
  obtain ⟨-, -, -, -, hrows⟩ := hf.bounds
  obtain ⟨c, hc, rfl, -⟩ := exists_copy_of_placedAt h
  obtain ⟨q, hq, rfl⟩ := List.mem_map.mp hc
  have hmatrix : q / 32768 / (2 * g.in_pairs) / g.out_tiles < matrices g.weight := by
    have hsize : 65536 * (g.in_pairs * (matrices g.weight * g.out_tiles)) =
        matrices g.weight * (32768 * (2 * g.in_pairs) * g.out_tiles) := by ring
    rw [Nat.div_div_eq_div_mul, Nat.div_div_eq_div_mul, ← Nat.mul_assoc]
    rw [List.mem_range, hsize] at hq
    exact Nat.div_lt_of_lt_mul (by rwa [Nat.mul_comm])
  have hlast := hf.2.1
  rw [g.matrix_bytes] at hlast
  have hoff := (Nat.mul_le_mul_right (2 ^ 21 * g.in_pairs * g.out_tiles) (Nat.le_sub_one_of_lt hmatrix)).trans_lt
    hlast
  exact ⟨_, copyAt_dst false hoff (by omega) g.in_pairs_pos g.out_tiles_pos⟩

omit hf in
/-- Memory behind the weights' start can hold any weights. -/
theorem exists_holdsConverted {R : Type*} (hf : g.ReadFits) (base : Buf → ℤ) (weights : ℕ → R) (m : ℤ → R) :
    ∃ mem, HoldsConverted g base weights mem ∧ ∀ x < base .weight, mem x = m x := by
  set copies := (List.range (65536 * (g.in_pairs * (matrices g.weight * g.out_tiles)))).map
    (copyAt false g.in_pairs g.out_tiles (2 ^ 21 * g.in_pairs * g.out_tiles)) with hcopies
  refine ⟨fun x => if x < base .weight then m x else
    (placedAt copies (32 * ((x - base .weight) / 32))).elim (m x) fun src =>
      weights ((src + (x - base .weight) % 32) / 2).toNat,
    ⟨copies, hf.copies_eq, fun d i hplaced ti => ?_⟩, fun x hx => if_pos hx⟩
  obtain ⟨k, rfl⟩ := placed_unit hf hplaced
  have hunit : 32 * ((base .weight + ((32 * k : ℕ) : ℤ) + 2 * (ti : ℕ) - base .weight) / 32) =
      ((32 * k : ℕ) : ℤ) := by omega
  have hidx : ((((32 * i : ℕ) : ℤ) + (base .weight + ((32 * k : ℕ) : ℤ) + 2 * (ti : ℕ) - base .weight) % 32) /
      2).toNat = 16 * i + ti := by omega
  beta_reduce
  rw [if_neg (by omega), hunit, hplaced]
  exact congrArg weights hidx

/-- The weight that a lane multiplies an in-group with. -/
theorem product_weight {R : Type*} {base : Buf → ℤ} {weights : ℕ → R} {mem : ℤ → R}
    (hmem : HoldsConverted g base weights mem) {m r o : ℕ} (hm : m < matrices g.weight) (ho : o < g.out_tiles)
    (ch : Fin 64) (b : Fin 8) (ti : Fin 16) (side : Side) {i : ℕ}
    (hi : i ∈ forFrom side.num g.launch.n_in_tile 2) (j group : Fin 8) :
    mem (weightHalf base ch (aligned_session g.launch (aligned_state g.launch m r) o) (.lane ch b ti) side i j
      group) = weights ((m * g.out_w.toNat + (4096 * o + (64 * ch + 8 * b + j))) * g.in_w.toNat +
        (16 * (8 * i + group) + ti)) := by
  obtain ⟨copies, hcopies, hmem⟩ := hmem
  rw [hf.copies_eq] at hcopies
  have hsteps := hf.session (r := r) hm ho ch.isLt (Except.ok.inj hcopies).symm
  obtain ⟨a, ha, hplaced⟩ := (hsteps side.num side.num_lt i hi).read group group.isLt j j.isLt
  rw [step_read _ _ _ _ _ j.isLt, Option.some.injEq, Cmd.R.injEq] at ha
  have hindex : heldAt g.in_w.toNat g.out_w.toNat m o (64 * (ch : ℕ) + 8 * b + j) (8 * i + group) =
      32 * ((m * g.out_w.toNat + (4096 * o + (64 * ch + 8 * b + j))) * (16 * g.in_pairs) +
        (8 * i + group)) := by
    rw [g.heldAt_eq, g.out_w_eq]
    ring
  have hhalf := hmem _ _ ((hplaced b b.isLt).trans (by rw [hindex])) ti
  rw [weightHalf, laneAddr, broadcast_add, weightAddr, ha.2, hhalf, g.in_w_eq]
  congr 1
  ring

end Operands

/-! ### The product -/

section Product

variable {R : Type*} [CommRing R] (negative : R → Bool) {g : AlignedGemm} (hf : g.ReadFits)
  {base : Buf → ℤ} {weights : ℕ → R} {mem : ℤ → R} (hmem : HoldsConverted g base weights mem) {m r o : ℕ}
  (hm : m < matrices g.weight) (ho : o < g.out_tiles)
  (hrow : (m * g.inout_h.toNat + r) * (16 * g.in_pairs) < 2 ^ 31)

/-- The product of the `k`-th elements of an input row and a row of the weights. -/
def elementProduct (g : AlignedGemm) (base : Buf → ℤ) (weights : ℕ → R) (mem : ℤ → R) (q row k : ℕ) : R :=
  mem (base .input + 2 * (q * g.in_w.toNat + k : ℕ)) * weights (row * g.in_w.toNat + k)

include hf hmem hm ho hrow

theorem tileProduct_eq (reg : Reg) (ti : Fin 16) (side : Side) {i : ℕ}
    (hi : i ∈ forFrom side.num g.launch.n_in_tile 2) :
    tileProduct base reg.chan (aligned_session g.launch (aligned_state g.launch m r) o) mem
      (.lane reg.chan reg.block ti) reg.idx (side, i) = ∑ group : Fin 8,
        elementProduct g base weights mem (m * g.inout_h.toNat + r)
          (m * g.out_w.toNat + (4096 * o + (64 * reg.chan + 8 * reg.block + reg.idx)))
          (16 * (8 * i + group) + ti) := by
  refine Finset.sum_congr rfl fun group _ => ?_
  rw [product_input hf base hrow, product_weight hf hmem hm ho _ _ _ side hi, elementProduct]

/-- A lane adds up its part of a row of the input times a row of a matrix. -/
theorem partialAt_product (hr : r < g.inout_h.toNat) (reg : Reg) (ti : Fin 16) :
    partialAt (exactHalves negative) base (tileSession g) (evenTiles g) (oddTiles g) mem
      ((m * g.inout_h.toNat + r) * g.out_tiles + o) reg ti =
      ∑ i ∈ Finset.range (2 * g.in_pairs), ∑ group : Fin 8,
        elementProduct g base weights mem (m * g.inout_h.toNat + r)
          (m * g.out_w.toNat + (4096 * o + (64 * reg.chan + 8 * reg.block + reg.idx)))
          (16 * (8 * i + group) + ti) := by
  set term : ℕ → R := fun i => ∑ group : Fin 8,
    elementProduct g base weights mem (m * g.inout_h.toNat + r)
      (m * g.out_w.toNat + (4096 * o + (64 * reg.chan + 8 * reg.block + reg.idx)))
      (16 * (8 * i + group) + ti) with hterm
  have hbank : ∀ side : Side, (((forFrom side.num g.launch.n_in_tile 2).map fun i => (side, i)).map
      (tileProduct base reg.chan (aligned_session g.launch (aligned_state g.launch m r) o) mem
        (.lane reg.chan reg.block ti) reg.idx)).sum =
      ∑ i ∈ Finset.range g.in_pairs, term (side.num + 2 * i) := by
    intro side
    have hle : side.num ≤ 1 := by cases side <;> decide
    have hterms : ∀ i ∈ forFrom side.num g.launch.n_in_tile 2, (tileProduct base reg.chan
        (aligned_session g.launch (aligned_state g.launch m r) o) mem (.lane reg.chan reg.block ti) reg.idx ∘
          fun i => (side, i)) i = term i := fun i hi => tileProduct_eq hf hmem hm ho hrow reg ti side hi
    rw [List.map_map, List.map_congr_left hterms, g.n_in_tile_eq, forFrom_two side.num _ hle, List.map_map,
      ← sum_map_range]
    rfl
  have heven := hbank .even
  have hodd := hbank .odd
  simp only [Side.num, Nat.zero_add] at heven hodd
  rw [partialAt, (product_tile hf hm hr ho).2, accumulated_exact, ← sum_even_odd, ← heven, ← hodd, bankTiles,
    List.map_append, List.sum_append]
  rfl

end Product

/-- The product that a launch leaves when the roundings are left out and the weights are where the host's
    conversion puts them: the input rows times the matrices, with bias and activation, in every run. -/
theorem execute_aligned_gemm_product {R : Type*} [CommRing R] (negative : R → Bool) (g : AlignedGemm)
    (hf : g.ReadFits) (hone : SingleTiles g) (hfit : g.in_w.toNat * g.out_w.toNat * 2 < 2 ^ 31)
    {base : Buf → ℤ} {args : Epilogue} (hbase : AlignedBuffers g base args)
    {unit : UnitEvent → GemmState R → GemmState R} (hunit : MacDocumented (exactHalves negative) base unit)
    (cmds_ : List PimCommand) (s : GemmState R) {weights : ℕ → R} (hmem : HoldsConverted g base weights s.mem)
    {u : List (LaunchEvent R)} (hu : AlignedRuns g (exactHalves negative) base args cmds_ u) {m r row : ℕ}
    (hm : m < matrices g.weight) (hr : r < g.inout_h.toNat) (hrow : row < g.out_w.toNat) :
    launch_mem unit u s (base .output + 2 * ((m * g.inout_h.toNat + r) * g.out_w.toNat + row : ℕ)) =
      finish_sum (exactHalves negative) args s.mem ((m * g.inout_h.toNat + r) * g.out_w.toNat + row : ℕ)
        (∑ k ∈ Finset.range g.in_w.toNat,
          s.mem (base .input + 2 * ((m * g.inout_h.toNat + r) * g.in_w.toNat + k : ℕ)) *
            weights ((m * g.out_w.toNat + row) * g.in_w.toNat + k)) := by
  have hparts := hone.partialTiles_le
  have ho : row / 4096 < g.out_tiles := Nat.div_lt_of_lt_mul (g.out_w_eq ▸ hrow)
  obtain ⟨hL, -⟩ := product_tile hf hm hr ho
  have hq : (m * g.inout_h.toNat + r) * (16 * g.in_pairs) < 2 ^ 31 := by
    have hpairs := (pairs_lt hfit).2
    have hone : (m * g.inout_h.toNat + r) * 1 ≤ (m * g.inout_h.toNat + r) * g.out_tiles :=
      Nat.mul_le_mul_left _ g.out_tiles_pos
    calc (m * g.inout_h.toNat + r) * (16 * g.in_pairs) ≤ 64 * (16 * g.in_pairs) :=
          Nat.mul_le_mul_right _ (by omega)
      _ < 2 ^ 31 := by omega
  have hn : (m * g.inout_h.toNat + r) * g.out_w.toNat + row =
      4096 * ((m * g.inout_h.toNat + r) * g.out_tiles + row / 4096) + row % 4096 := by
    have hw : (m * g.inout_h.toNat + r) * g.out_w.toNat =
        4096 * ((m * g.inout_h.toNat + r) * g.out_tiles) := by
      rw [g.out_w_eq]
      ring
    omega
  generalize hnum : (m * g.inout_h.toNat + r) * g.out_w.toNat + row = n at *
  have hlt : n < 4096 * g.partialTiles := by omega
  have hdiv : n / 4096 = (m * g.inout_h.toNat + r) * g.out_tiles + row / 4096 := by omega
  have hcell : 4096 * (row / 4096) + (64 * ((outCell n).chan : ℕ) + 8 * (outCell n).block + (outCell n).idx) =
      row := by
    simp only [outCell, outChan]
    omega
  obtain ⟨hout, hidx⟩ := isOut_at base hlt
  rw [hu.launch_mem hfit _ cmds_ hone hbase hunit, multiplied, if_pos hout, hidx, sum_lanes_exact]
  congr 1
  rw [hdiv]
  simp only [partialAt_product negative hf hmem hm ho hq hr, hcell]
  have hsum := sum_row (elementProduct g base weights s.mem (m * g.inout_h.toNat + r)
    (m * g.out_w.toNat + row)) g.in_pairs
  rw [← g.in_w_eq] at hsum
  exact hsum

/-- The last output of the last input row of the second matrix. -/
theorem execute_aligned_gemm_product_small : ∃ s : GemmState ℤ,
    HoldsConverted twoByTwo smallBuffers (fun i => (i : ℤ) % 7 - 3) s.mem ∧
      (∀ x < smallBuffers .weight, s.mem x = smallState.mem x) ∧
      ∃ u, AlignedRuns twoByTwo (exactHalves fun x : ℤ => x < 0) smallBuffers smallArgs [] u ∧
        launch_mem (fun e s => (laneOps (exactHalves fun x : ℤ => x < 0) smallBuffers e).foldl step s) u s
          (2 ^ 24 + 2 * ((1 * 2 + 1) * 4096 + 4095 : ℕ)) = 13 := by
  have hf : twoByTwo.ReadFits := ⟨by decide, by decide, by decide⟩
  have hunit := documented_laneOps (exactHalves fun x : ℤ => x < 0) smallBuffers
  obtain ⟨mem, hmem, hrest⟩ := exists_holdsConverted hf smallBuffers (fun i => (i : ℤ) % 7 - 3) smallState.mem
  obtain ⟨u, hu⟩ : ∃ u, AlignedRuns twoByTwo (exactHalves fun x : ℤ => x < 0) smallBuffers smallArgs [] u :=
    exists_alignedRuns (by decide) _ _
  refine ⟨⟨smallState.reg, mem⟩, hmem, hrest, u, hu, (execute_aligned_gemm_product _ twoByTwo hf
    twoByTwo_single (by decide) smallBuffers_apart hunit [] ⟨smallState.reg, mem⟩ hmem hu
    (by decide : 1 < matrices twoByTwo.weight) (by decide : 1 < twoByTwo.inout_h.toNat)
    (by decide : 4095 < twoByTwo.out_w.toNat)).trans ?_⟩
  have hbias : ∀ bias ∈ smallArgs.bias, mem (bias + 2 * ((1 * twoByTwo.inout_h.toNat + 1) *
      twoByTwo.out_w.toNat + 4095 : ℕ)) = smallState.mem (bias + 2 * ((1 * twoByTwo.inout_h.toNat + 1) *
        twoByTwo.out_w.toNat + 4095 : ℕ)) := by
    intro bias hbias
    obtain rfl := Option.mem_some_iff.mp hbias
    exact hrest _ (by decide +kernel)
  have hin : (1 * twoByTwo.inout_h.toNat + 1) * twoByTwo.in_w.toNat = 1536 := by decide
  have hsum : ∀ k ∈ Finset.range twoByTwo.in_w.toNat, mem (smallBuffers .input +
      2 * ((1 * twoByTwo.inout_h.toNat + 1) * twoByTwo.in_w.toNat + k : ℕ)) * ((((1 *
        twoByTwo.out_w.toNat + 4095) * twoByTwo.in_w.toNat + k : ℕ) : ℤ) % 7 - 3) =
      smallState.mem (smallBuffers .input + 2 * (1536 + k : ℕ)) * ((((1 *
        twoByTwo.out_w.toNat + 4095) * twoByTwo.in_w.toNat + k : ℕ) : ℤ) % 7 - 3) := by
    intro k hk
    have hk : k < 512 := Finset.mem_range.mp hk
    have hinput : smallBuffers .input + 2 * ((1536 + k : ℕ) : ℤ) < smallBuffers .weight := by
      simp only [smallBuffers]
      omega
    rw [hin, hrest _ hinput]
  rw [finish_sum_congr hbias, Finset.sum_congr rfl hsum]
  decide +kernel

end PimLibrary.Executor
