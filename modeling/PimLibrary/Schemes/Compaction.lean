import Mathlib.Tactic

/-! Copies inside one buffer.

    A copy reads its whole source before it writes. When no copy reads or writes what an earlier one
    wrote, every destination ends up with what its source held at first. Sections moved down in
    ascending order to close the gaps between them are such copies, though a section may overlap the
    place it is moved to. -/

namespace Schemes.Compaction

structure Copy where
  dst : ℕ
  src : ℕ
  len : ℕ

variable {α : Type*} {c d : Copy} {cs : List Copy} {k n stride size : ℕ}

namespace Copy

def apply (c : Copy) (buf : ℕ → α) : ℕ → α :=
  fun k => if c.dst ≤ k ∧ k < c.dst + c.len then buf (c.src + (k - c.dst)) else buf k

/-- Source and destination do not overlap. -/
def Disjoint (c : Copy) : Prop := c.dst + c.len ≤ c.src ∨ c.src + c.len ≤ c.dst

instance (c : Copy) : Decidable c.Disjoint := inferInstanceAs (Decidable (_ ∨ _))

/-- `d` neither reads nor writes what `c` writes. -/
def Spares (c d : Copy) : Prop :=
  (c.dst + c.len ≤ d.src ∨ d.src + d.len ≤ c.dst) ∧ (c.dst + c.len ≤ d.dst ∨ d.dst + d.len ≤ c.dst)

theorem apply_inside (buf : ℕ → α) {j : ℕ} (hj : j < c.len) : c.apply buf (c.dst + j) = buf
    (c.src + j) := by
  rw [apply, if_pos ⟨Nat.le_add_right _ _, by omega⟩, Nat.add_sub_cancel_left]

theorem apply_outside (buf : ℕ → α) (hk : k < c.dst ∨ c.dst + c.len ≤ k) : c.apply buf k = buf k := by
  rw [apply, if_neg (by omega)]

end Copy

/-- The buffer after the copies, in order. -/
def run (buf : ℕ → α) (cs : List Copy) : ℕ → α := cs.foldl (fun buf c => c.apply buf) buf

@[simp] theorem run_nil (buf : ℕ → α) : run buf [] = buf := rfl

@[simp] theorem run_cons (buf : ℕ → α) (c : Copy) (cs : List Copy) :
    run buf (c :: cs) = run (c.apply buf) cs := rfl

theorem run_outside (buf : ℕ → α) (h : ∀ c ∈ cs, k < c.dst ∨ c.dst + c.len ≤ k) :
    run buf cs k = buf k := by
  induction cs generalizing buf with
  | nil => rfl
  | cons c cs ih =>
    obtain ⟨hc, hrest⟩ := List.forall_mem_cons.mp h
    rw [run_cons, ih _ hrest, Copy.apply_outside buf hc]

/-- Copies that spare what earlier ones wrote move what was there at first. -/
theorem run_inside (h : cs.Pairwise Copy.Spares) (buf : ℕ → α) :
    ∀ c ∈ cs, ∀ j < c.len, run buf cs (c.dst + j) = buf (c.src + j) := by
  induction cs generalizing buf with
  | nil => simp
  | cons c cs ih =>
    obtain ⟨hspares, hrest⟩ := List.pairwise_cons.mp h
    intro d hd j hj
    rw [run_cons]
    rcases List.mem_cons.mp hd with rfl | hmem
    · have houtside : ∀ e ∈ cs, d.dst + j < e.dst ∨ e.dst + e.len ≤ d.dst + j := by
        intro e he
        have := (hspares e he).2
        omega
      rw [run_outside _ houtside, Copy.apply_inside buf hj]
    · have hsource := (hspares d hmem).1
      rw [ih hrest _ d hmem j hj, Copy.apply_outside buf (by omega)]

/-! ### Closing gaps -/

/-- Move `n` sections of `size` entries, `stride` apart, together; the first one stays. -/
def closing (stride size n : ℕ) : List Copy :=
  (List.range' 1 (n - 1)).map fun i => ⟨i * size, i * stride, size⟩

theorem mem_closing : c ∈ closing stride size n ↔ ∃ i, 1 ≤ i ∧ i < n ∧
    c = ⟨i * size, i * stride, size⟩ := by
  simp only [closing, List.mem_map, List.mem_range'_1]
  constructor
  · rintro ⟨i, ⟨hlo, hhi⟩, rfl⟩
    exact ⟨i, hlo, by omega, rfl⟩
  · rintro ⟨i, hlo, hhi, rfl⟩
    exact ⟨i, ⟨hlo, by omega⟩, rfl⟩

/-- A later section starts behind the place of an earlier one. -/
theorem closing_spares (h : size ≤ stride) : (closing stride size n).Pairwise Copy.Spares := by
  refine List.pairwise_map.mpr (List.Pairwise.imp ?_ (List.pairwise_lt_range' 1))
  intro i j hij
  have hplace : i * size + size ≤ j * size :=
    calc i * size + size = (i + 1) * size := by ring
      _ ≤ j * size := Nat.mul_le_mul_right _ hij
  exact ⟨Or.inl (hplace.trans (Nat.mul_le_mul_left _ h)), Or.inl hplace⟩

/-- After closing the gaps the sections lie one behind the other. -/
theorem run_closing (h : size ≤ stride) (buf : ℕ → α) {i j : ℕ} (hi : i < n) (hj : j < size) :
    run buf (closing stride size n) (i * size + j) = buf (i * stride + j) := by
  rcases Nat.eq_zero_or_pos i with rfl | hpos
  · rw [Nat.zero_mul, Nat.zero_mul]
    refine run_outside buf fun c hc => Or.inl ?_
    obtain ⟨i, hlo, -, rfl⟩ := mem_closing.mp hc
    have := Nat.le_mul_of_pos_left size hlo
    simp only
    omega
  · exact run_inside (closing_spares h) buf _ (mem_closing.mpr ⟨i, hpos, hi, rfl⟩) j hj

/-- The copies are disjoint exactly when the second section is clear of its new place. -/
theorem closing_disjoint_iff (h : size ≤ stride) :
    (∀ c ∈ closing stride size n, c.Disjoint) ↔ n ≤ 1 ∨ size = 0 ∨ 2 * size ≤ stride := by
  constructor
  · intro hall
    by_contra hbad
    have hsecond := hall _ (mem_closing.mpr ⟨1, le_refl 1, by omega, rfl⟩)
    simp only [Copy.Disjoint, Nat.one_mul] at hsecond
    omega
  · intro hcond c hc
    obtain ⟨i, hlo, hhi, rfl⟩ := mem_closing.mp hc
    left
    rcases hcond with hn | rfl | hgap
    · omega
    · simp
    · calc i * size + size ≤ i * size + i * size :=
        Nat.add_le_add_left (Nat.le_mul_of_pos_left size hlo) _
        _ = i * (2 * size) := by ring
        _ ≤ i * stride := Nat.mul_le_mul_left _ hgap

end Schemes.Compaction
