import PimLibrary.Gpu.Entries

/-! The sums of a row in exact arithmetic.

    With the roundings left out, a block adds up one term for each entry: the threads' parts are the
    entries by their residue modulo the width of the block, and the tree or thread 0 adds up the
    parts. -/

namespace PimLibrary.Gpu
open Schemes.Loop Schemes.SharedMemory

/-- Arithmetic without rounding. -/
def exactArith (R : Type) [CommSemiring R] [LinearOrder R] : Arith R R where
  zero := 0
  up := id
  down := id
  mulH := (· * ·)
  add := (· + ·)
  mul := (· * ·)
  nonzero := fun x => x ≠ 0
  positive := fun x => 0 < x

variable {R : Type} [CommSemiring R] [LinearOrder R]

/-! ### The reductions -/

/-- The barrier tree adds up all entries of the block. -/
theorem treeSum_exact (j : ℕ) (x : ℕ → R) :
    treeSum (exactArith R) (2 ^ j) x = ∑ t ∈ Finset.range (2 ^ (j + 1)), x t := by
  induction j generalizing x with
  | zero =>
    rw [treeSum, if_neg (by norm_num), treeSum, if_pos (by norm_num)]
    simp [exactArith, Finset.sum_range_succ]
  | succ j ih =>
    have hhalf : 2 ^ (j + 1) / 2 = 2 ^ j := by rw [pow_succ, Nat.mul_div_cancel _ (by norm_num)]
    have hdouble : 2 ^ (j + 1 + 1) = 2 ^ (j + 1) + 2 ^ (j + 1) := by rw [pow_succ, mul_two]
    rw [treeSum, if_neg (by positivity), hhalf, ih, hdouble, Finset.sum_range_add,
      ← Finset.sum_add_distrib]
    refine Finset.sum_congr rfl fun t ht => ?_
    rw [if_pos (Finset.mem_range.mp ht), Nat.add_comm (2 ^ (j + 1)) t]
    rfl

/-- Thread 0 of a narrow block stops at the last entry that has a part. -/
theorem serialSum_exact {NB_X count : ℕ} (hpos : 0 < NB_X) {x : ℕ → R}
    (h : ∀ t, count ≤ t → x t = 0) :
    serialSum (exactArith R) NB_X count x = ∑ t ∈ Finset.range NB_X, x t := by
  have hloop : ∀ n, (forFrom 1 (n : ℕ) 1).foldl (fun res i => res + x i) (x 0) =
      ∑ t ∈ Finset.range (max 1 n), x t := by
    intro n
    have hrange : forFrom 1 (n : ℕ) 1 = (List.range (n - 1)).map (1 + ·) := by simp [forFrom]
    have hfold : ∀ l, ((List.range l).map (1 + ·)).foldl (fun res i => res + x i) (x 0) =
        ∑ t ∈ Finset.range (l + 1), x t := by
      intro l
      induction l with
      | zero => simp
      | succ l ih =>
        rw [List.range_succ, List.map_append, List.foldl_append, ih, Finset.sum_range_succ _ (l + 1)]
        simp [Nat.add_comm]
    rw [hrange, hfold]
    congr 2
    omega
  have hsub : Finset.range (max 1 (min count NB_X)) ⊆ Finset.range NB_X := by
    rw [Finset.range_subset_range]
    omega
  calc serialSum (exactArith R) NB_X count x
      = ∑ t ∈ Finset.range (max 1 (min count NB_X)), x t := hloop _
    _ = ∑ t ∈ Finset.range NB_X, x t := Finset.sum_subset hsub fun t ht hnot => h t (by
        rw [Finset.mem_range] at ht hnot
        omega)

/-- The widths of the blocks. -/
inductive MatVec.Width : ℕ → Prop
  | tree (j : ℕ) : Width (2 ^ (j + 5))
  | serial {n : ℕ} : 0 < n → n ≤ 16 → Width n

theorem rowSum_exact {K : MatVec R} (hw : MatVec.Width K.NB_X) {x : ℕ → R}
    (h : ∀ t, K.count ≤ t → x t = 0) :
    K.rowSum (exactArith R) x = ∑ t ∈ Finset.range K.NB_X, x t := by
  rw [MatVec.rowSum]
  generalize K.NB_X = n at hw
  cases hw with
  | tree j =>
    have hwide : 2 ^ (j + 5) > 16 :=
      calc 16 < 2 ^ 5 := by norm_num
        _ ≤ 2 ^ (j + 5) := Nat.pow_le_pow_right (by norm_num) (by omega)
    have hhalf : 2 ^ (j + 5) / 2 = 2 ^ (j + 4) := by
      rw [pow_succ, Nat.mul_div_cancel _ (by norm_num)]
    rw [if_pos hwide, hhalf, treeSum_exact]
  | serial hpos hle => rw [if_neg (by omega), serialSum_exact hpos h]

/-! ### The lanes -/

/-- Lane `t` has the entries below `count` that are `t` modulo the width. -/
structure Lanes (NB count : ℕ) (lane : ℕ → List ℕ) : Prop where
  nodup : ∀ t, (lane t).Nodup
  mem_iff : ∀ t, t < NB → ∀ i, i ∈ lane t ↔ i < count ∧ i % NB = t

/-- Every entry is in exactly one lane, so the lanes add up to the whole. -/
theorem Lanes.sum_eq {M : Type} [AddCommMonoid M] {NB count : ℕ} {lane : ℕ → List ℕ}
    (h : Lanes NB count lane) (hpos : 0 < NB) (f : ℕ → M) :
    ∑ t ∈ Finset.range NB, ((lane t).map f).sum = ∑ i ∈ Finset.range count, f i := by
  have hmaps : ∀ i ∈ Finset.range count, i % NB ∈ Finset.range NB := fun i _ =>
    Finset.mem_range.mpr (Nat.mod_lt i hpos)
  rw [← Finset.sum_fiberwise_of_maps_to hmaps]
  refine Finset.sum_congr rfl fun t ht => ?_
  rw [← List.sum_toFinset f (h.nodup t)]
  refine Finset.sum_congr ?_ fun i _ => rfl
  ext i
  rw [List.mem_toFinset, h.mem_iff t (Finset.mem_range.mp ht), Finset.mem_filter, Finset.mem_range]

theorem partialSum_exact (mem : Memory R R) (reads : List (ℤ × ℤ)) :
    partialSum (exactArith R) mem reads =
      (reads.map fun r => mem (.global r.1) * mem (.global r.2)).sum := by
  have hfold : ∀ (reads : List (ℤ × ℤ)) (res : R),
      reads.foldl (fun res r => res + mem (.global r.1) * mem (.global r.2)) res =
        res + (reads.map fun r => mem (.global r.1) * mem (.global r.2)).sum := by
    intro reads
    induction reads with
    | nil => simp
    | cons r reads ih => exact fun res => by rw [List.foldl_cons, ih, List.map_cons, List.sum_cons, add_assoc]
  exact (hfold reads 0).trans (zero_add _)

/-- `x > 0 ? x : 0`, where it is asked for. -/
def activated (relu : Bool) (x : R) : R := if relu then if 0 < x then x else 0 else x

/-- A term that is left out because its factor is zero changes nothing. -/
theorem entry_exact (K : MatVec R) (sum y : R) (b : Option R) :
    K.entry (exactArith R) sum y b = activated K.relu (K.alpha * sum + K.beta * y + b.getD 0) := by
  by_cases hbeta : K.beta = 0
  · cases b <;> simp [MatVec.entry, activated, exactArith, hbeta]
  · cases b <;> simp [MatVec.entry, activated, exactArith, hbeta]

/-- A row whose threads multiply along their lanes. -/
theorem out_exact {K : MatVec R} (hw : MatVec.Width K.NB_X) (hpos : 0 < K.NB_X) {lane : ℕ → List ℕ}
    (hl : Lanes K.NB_X K.count lane) {bid ty : ℕ} {p : ℕ → ℤ × ℤ}
    (hreads : ∀ tx, tx < K.NB_X → K.reads bid ty tx = (lane tx).map p) (mem : Memory R R) :
    K.out (exactArith R) mem bid ty = activated K.relu
      (K.alpha * ∑ i ∈ Finset.range K.count, mem (.global (p i).1) * mem (.global (p i).2) +
        K.beta * mem (.global (K.y bid ty)) + (K.b.map fun b => mem (.global (b bid ty))).getD 0) := by
  have hlane : K.rowSum (exactArith R) (fun tx => partialSum (exactArith R) mem (K.reads bid ty tx)) =
      K.rowSum (exactArith R) fun tx => if tx < K.NB_X then
        ((lane tx).map fun i => mem (.global (p i).1) * mem (.global (p i).2)).sum else 0 := by
    refine rowSum_congr _ hpos fun tx htx => ?_
    rw [hreads tx htx, partialSum_exact, if_pos htx, List.map_map]
    rfl
  rw [MatVec.out, entry_exact, hlane, rowSum_exact hw, ← hl.sum_eq hpos]
  · congr 4
    refine Finset.sum_congr rfl fun t ht => ?_
    rw [if_pos (Finset.mem_range.mp ht)]
  · intro t ht
    by_cases hlt : t < K.NB_X
    · have hnil : lane t = [] := List.eq_nil_iff_forall_not_mem.mpr fun i hi => by
        obtain ⟨hcount, hmod⟩ := (hl.mem_iff t hlt i).mp hi
        have := Nat.mod_le i K.NB_X
        omega
      simp [hnil]
    · rw [if_neg hlt]

end PimLibrary.Gpu
