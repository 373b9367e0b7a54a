import PimLibrary.Layout.DeviceConvert

/-! Weights whose bytes an `int` counts: the host transpose and the kernel launches in closed form.

    Below that size none of the `int` products of the two loop nests wraps, so `transpose_pimbo` writes
    every element of a matrix to its mirror image, and the threads of a launch together visit every
    element. -/

namespace PimLibrary.Layout
open Schemes.Word Schemes.Loop Schemes.Digits Schemes.Scatter PimLibrary.Device

/-- A weight that is not empty, with a byte size that an `int` holds. -/
structure SizedWeight (s : PimBShape) : Prop where
  size_pos : 0 < byteSize s
  size_lt : byteSize s < 2 ^ 31

theorem matrix_index_lt {s : PimBShape} {i j : ℕ} (hi : i < s.n.toNat) (hj : j < s.c.toNat) :
    i * s.c.toNat + j < matrices s := by
  calc i * s.c.toNat + j < (i + 1) * s.c.toNat := by rw [Nat.succ_mul]; omega
    _ ≤ s.n.toNat * s.c.toNat := Nat.mul_le_mul_right _ hi

/-- A place in one matrix, in either orientation, lies in the matrix. -/
theorem place_lt {s : PimBShape} {l a : ℕ} (hl : l < s.w.toNat) (ha : a < s.h.toNat) :
    l * s.h.toNat + a < s.h.toNat * s.w.toNat ∧ a * s.w.toNat + l < s.h.toNat * s.w.toNat := by
  constructor
  · calc l * s.h.toNat + a < (l + 1) * s.h.toNat := by rw [Nat.succ_mul]; omega
      _ ≤ s.w.toNat * s.h.toNat := Nat.mul_le_mul_right _ hl
      _ = s.h.toNat * s.w.toNat := Nat.mul_comm _ _
  · calc a * s.w.toNat + l < (a + 1) * s.w.toNat := by rw [Nat.succ_mul]; omega
      _ ≤ s.h.toNat * s.w.toNat := Nat.mul_le_mul_right _ ha

/-- A place of some matrix lies in the weight. -/
theorem elem_lt {s : PimBShape} {m p : ℕ} (hm : m < matrices s) (hp : p < s.h.toNat * s.w.toNat) :
    m * (s.h.toNat * s.w.toNat) + p < matrices s * s.h.toNat * s.w.toNat := by
  calc m * (s.h.toNat * s.w.toNat) + p < (m + 1) * (s.h.toNat * s.w.toNat) := by
        rw [Nat.succ_mul]; omega
    _ ≤ matrices s * (s.h.toNat * s.w.toNat) := Nat.mul_le_mul_right _ hm
    _ = matrices s * s.h.toNat * s.w.toNat := (Nat.mul_assoc _ _ _).symm

namespace SizedWeight

variable {s : PimBShape} (hs : SizedWeight s)
include hs

theorem w_pos : 0 < s.w.toNat := Nat.pos_of_mul_pos_left (Nat.pos_of_mul_pos_right hs.size_pos)

theorem h_pos : 0 < s.h.toNat :=
  Nat.pos_of_mul_pos_left (Nat.pos_of_mul_pos_right (Nat.pos_of_mul_pos_right hs.size_pos))

theorem matrices_pos : 0 < matrices s :=
  Nat.pos_of_mul_pos_right (Nat.pos_of_mul_pos_right (Nat.pos_of_mul_pos_right hs.size_pos))

theorem n_pos : 0 < s.n.toNat := Nat.pos_of_mul_pos_right hs.matrices_pos

theorem c_pos : 0 < s.c.toNat := Nat.pos_of_mul_pos_left hs.matrices_pos

theorem elems_lt : matrices s * s.h.toNat * s.w.toNat < 2 ^ 30 := by
  have h := hs.size_lt
  rw [byteSize] at h
  omega

theorem matrix_lt : s.h.toNat * s.w.toNat < 2 ^ 30 := by
  refine lt_of_le_of_lt ?_ hs.elems_lt
  rw [Nat.mul_assoc]
  exact Nat.le_mul_of_pos_left _ hs.matrices_pos

theorem h_lt : s.h.toNat < 2 ^ 30 := (Nat.le_mul_of_pos_right _ hs.w_pos).trans_lt hs.matrix_lt

theorem w_lt : s.w.toNat < 2 ^ 30 := (Nat.le_mul_of_pos_left _ hs.h_pos).trans_lt hs.matrix_lt

theorem matrices_lt : matrices s < 2 ^ 30 := by
  refine lt_of_le_of_lt ?_ hs.elems_lt
  rw [Nat.mul_assoc]
  exact Nat.le_mul_of_pos_right _ (Nat.mul_pos hs.h_pos hs.w_pos)

theorem n_lt : s.n.toNat < 2 ^ 30 := (Nat.le_mul_of_pos_right _ hs.c_pos).trans_lt hs.matrices_lt

theorem c_lt : s.c.toNat < 2 ^ 30 := (Nat.le_mul_of_pos_left _ hs.n_pos).trans_lt hs.matrices_lt

end SizedWeight

section Pipeline

variable {s : PimBShape} (hs : SizedWeight s) {data : Mem}
include hs

/-- `transpose_pimbo` writes element `(l, a)` of matrix `m` from element `(a, l)`. -/
theorem transpose_pimbo_eq :
    transpose_pimbo (PimCreateBo s) data = (List.range (matrices s)).flatMap fun m =>
      (List.range s.h.toNat).flatMap fun a => (List.range s.w.toNat).map fun l =>
        ((((m * s.w.toNat + l) * s.h.toNat + a : ℕ) : ℤ),
          data (((m * s.h.toNat + a) * s.w.toNat + l : ℕ) : ℤ)) := by
  have hcast : ∀ x : ℕ, x < 2 ^ 30 → int32 (x : ℤ) = (x : ℤ) := fun x hx => int32_natCast (by omega)
  have hmn : int32 (int32 s.n.toNat * int32 s.c.toNat) = ((matrices s : ℕ) : ℤ) := by
    rw [hcast _ hs.n_lt, hcast _ hs.c_lt, ← Nat.cast_mul, ← matrices, hcast _ hs.matrices_lt]
  have hstep : int32 ((s.h.toNat : ℤ) * s.w.toNat) = ((s.h.toNat * s.w.toNat : ℕ) : ℤ) := by
    rw [← Nat.cast_mul, hcast _ hs.matrix_lt]
  have hshape : (PimCreateBo s).bshape = s := rfl
  rw [transpose_pimbo, hshape, hmn, hcast _ hs.h_lt, hcast _ hs.w_lt, transpose_loop, forRange_one]
  have h0 : (0 : ℤ) = ((0 * (s.h.toNat * s.w.toNat) : ℕ) : ℤ) := by rw [Nat.zero_mul, Nat.cast_zero]
  refine (runLoop_range (n := matrices s)
    (R := fun m offset => offset = ((m * (s.h.toNat * s.w.toNat) : ℕ) : ℤ)) h0 ?_).2
  intro m _ offset hoff
  have hoff : offset = ((m * (s.h.toNat * s.w.toNat) : ℕ) : ℤ) := hoff
  simp only [transpose_step, hstep, forRange_one]
  refine ⟨by rw [hoff, ← Nat.cast_add, Nat.add_mul, Nat.one_mul], ?_⟩
  refine List.flatMap_congr fun a ha => List.map_congr_left fun l hl => ?_
  obtain ⟨hdst, hsrc⟩ := place_lt (List.mem_range.mp hl) (List.mem_range.mp ha)
  have hmat := hs.matrix_lt
  have h₁ : int32 ((l : ℤ) * s.h.toNat + a) = ((l * s.h.toNat + a : ℕ) : ℤ) := by
    rw [← Nat.cast_mul, ← Nat.cast_add, hcast _ (hdst.trans hmat)]
  have h₂ : int32 ((a : ℤ) * s.w.toNat + l) = ((a * s.w.toNat + l : ℕ) : ℤ) := by
    rw [← Nat.cast_mul, ← Nat.cast_add, hcast _ (hsrc.trans hmat)]
  have e₁ : m * (s.h.toNat * s.w.toNat) + (l * s.h.toNat + a) =
      (m * s.w.toNat + l) * s.h.toNat + a := by ring
  have e₂ : m * (s.h.toNat * s.w.toNat) + (a * s.w.toNat + l) =
      (m * s.h.toNat + a) * s.w.toNat + l := by ring
  rw [h₁, h₂, hoff, ← Nat.cast_add, ← Nat.cast_add, e₁, e₂]

/-- The transposed weight on the host. -/
theorem scatter_transpose {host_weight : Mem} {m a l : ℕ} (hm : m < matrices s) (ha : a < s.h.toNat)
    (hl : l < s.w.toNat) :
    scatter host_weight (transpose_pimbo (PimCreateBo s) data)
        (((m * s.w.toNat + l) * s.h.toNat + a : ℕ) : ℤ) =
      data (((m * s.h.toNat + a) * s.w.toNat + l : ℕ) : ℤ) := by
  rw [transpose_pimbo_eq hs]
  refine scatter_eq ?_ ?_
  · refine ⟨_, List.mem_flatMap.mpr ⟨m, List.mem_range.mpr hm, List.mem_flatMap.mpr
      ⟨a, List.mem_range.mpr ha, List.mem_map.mpr ⟨l, List.mem_range.mpr hl, rfl⟩⟩⟩, rfl⟩
  · intro w hw heq
    simp only [List.mem_flatMap, List.mem_map, List.mem_range] at hw
    obtain ⟨m', hm', a', ha', l', hl', rfl⟩ := hw
    obtain ⟨hR, rfl⟩ := flat_inj ha' ha (Nat.cast_inj.mp heq)
    obtain ⟨rfl, rfl⟩ := flat_inj hl' hl hR
    rfl

/-- The `int` element offset that a thread of a launch reads. -/
theorem launch_read {i j a l : ℕ} (hi : i < s.n.toNat) (hj : j < s.c.toNat) (ha : a < s.h.toNat)
    (hl : l < s.w.toNat) :
    int32 ((i : ℤ) * s.c.toNat * s.h.toNat * s.w.toNat + j * s.h.toNat * s.w.toNat + a *
      s.w.toNat + l) =
      ((((i * s.c.toNat + j) * s.h.toNat + a) * s.w.toNat + l : ℕ) : ℤ) := by
  have hlt : ((i * s.c.toNat + j) * s.h.toNat + a) * s.w.toNat + l < 2 ^ 31 := by
    have hplace := elem_lt (matrix_index_lt hi hj) (place_lt hl ha).2
    have hsize := hs.elems_lt
    calc ((i * s.c.toNat + j) * s.h.toNat + a) * s.w.toNat + l
        = (i * s.c.toNat + j) * (s.h.toNat * s.w.toNat) + (a * s.w.toNat + l) := by ring
      _ < 2 ^ 31 := by omega
  rw [← int32_natCast hlt]
  congr 1
  push_cast
  ring

/-- The threads of a launch together visit every element once per copy of the grid stride. -/
theorem mem_launch {threads : Dim3} (hx : 0 < threads.x) (hy : 0 < threads.y)
    {idx : ℕ → ℕ → ℕ → ℕ → ℕ → ℕ → ℕ → ℕ → ℕ} {w : ℤ × Half} :
    w ∈ launch threads (fill_gemm_weight idx) (PimCreateBo s) data ↔
      ∃ i j a l, i < s.n.toNat ∧ j < s.c.toNat ∧ a < s.h.toNat ∧ l < s.w.toNat ∧
        w = (((idx s.n.toNat s.c.toNat s.h.toNat s.w.toNat i j a l : ℕ) : ℤ),
          data ((((i * s.c.toNat + j) * s.h.toNat + a) * s.w.toNat + l : ℕ) : ℤ)) := by
  have hint : ∀ x : UInt32, x.toNat < 2 ^ 30 → int32 x.toNat = ((x.toNat : ℕ) : ℤ) ∧
      toUint32 ((x.toNat : ℕ) : ℤ) = x.toNat :=
    fun x hx => ⟨int32_natCast (by omega), toUint32_natCast (by omega)⟩
  have hshape : (PimCreateBo s).bshape_r = s := rfl
  obtain ⟨hni, hnt⟩ := hint s.n hs.n_lt
  obtain ⟨hci, hct⟩ := hint s.c hs.c_lt
  obtain ⟨hhi, hht⟩ := hint s.h hs.h_lt
  obtain ⟨hwi, hwt⟩ := hint s.w hs.w_lt
  rw [launch, hshape, hni, hci, hhi, hwi]
  simp only [fill_gemm_weight, hnt, hct, hht, hwt, List.mem_flatMap, List.mem_map, List.mem_range]
  clear hint hni hci hhi hwi hnt hct hht hwt
  constructor
  · rintro ⟨bx, hbx, b, hb, tx, htx, ty, hty, i, hi, j, hj, a, ha, l, hl, rfl⟩
    have hi := ((mem_forFrom hs.n_pos).mp hi).2.2
    have hj := ((mem_forFrom hs.c_pos).mp hj).2.2
    have ha := ((mem_forFrom hx).mp ha).2.2
    have hl := ((mem_forFrom hy).mp hl).2.2
    refine ⟨i, j, a, l, by omega, by omega, by omega, by omega, ?_⟩
    rw [launch_read hs (by omega) (by omega) (by omega) (by omega)]
  · rintro ⟨i, j, a, l, hi, hj, ha, hl, rfl⟩
    -- the thread of element `(a, l)` in the block of matrix `(i, j)`
    refine ⟨i, hi, j, hj, a % threads.x, Nat.mod_lt _ hx, l % threads.y, Nat.mod_lt _ hy, i, ?_, j,
      ?_, a, ?_, l, ?_, ?_⟩
    · exact (mem_forFrom hs.n_pos).mpr ⟨le_refl i, by simp, by omega⟩
    · exact (mem_forFrom hs.c_pos).mpr ⟨le_refl j, by simp, by omega⟩
    · exact (mem_forFrom hx).mpr ⟨Nat.mod_le _ _, Nat.dvd_sub_mod a, by omega⟩
    · exact (mem_forFrom hy).mpr ⟨Nat.mod_le _ _, Nat.dvd_sub_mod l, by omega⟩
    · rw [launch_read hs hi hj ha hl]

end Pipeline

end PimLibrary.Layout
