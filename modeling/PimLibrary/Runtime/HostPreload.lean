import PimLibrary.Device.BoSize
import PimLibrary.Layout.SizedWeight

/-! The host path of `get_preloaded_pim_gemm_weight` up to the conversion.

    The path copies the weight to `host_weight`, through `host_weight_t` and `transpose_pimbo` when the
    gemm order and the transposed flag ask for it. The conversion expects the logical weight as
    `[n][c][out][in]`. `transpose_pimbo` takes its rows and columns from the shape fields, which
    describe an untransposed weight; a transposed one is stored as `[w][h]`, so `W_X_I` transposes
    it the wrong way round. -/

namespace PimLibrary.Runtime
open Schemes.Word Schemes.Scatter PimLibrary.Device PimLibrary.Layout

attribute [local irreducible] int32

/-! ### The path -/

/-- A buffer: its size in bytes and the elements that start in it. -/
structure Buffer where
  size : ℕ
  data : Mem

/-- Memory is there for every size but one that was negative as an `int`. -/
def alloc_memory (size : ℕ) (held : Mem) : Option Buffer :=
  if size < 2 ^ 63 then some ⟨size, held⟩ else none

/-- The buffer of `PimCreateBo(bshape->n, bshape->c, bshape->h, bshape->w, PIM_FP16, ..)`. -/
def create_bo (s : PimBShape) (held : Mem) : Option Buffer :=
  alloc_memory (bo_size (int32 s.n.toNat) (int32 s.c.toNat) (int32 s.h.toNat) (int32 s.w.toNat)
    .PIM_FP16).toNat
    held

def check_need_for_transpose (gemm_order : PimGemmOrder) (transposed : Bool) : Bool :=
  match gemm_order with
  | .I_X_W => if transposed = false then true else false
  | .W_X_I => if transposed = false then false else true

/-- `copy_memory` copies as many bytes as the destination has. -/
def copy_memory (dst : Buffer) (src : Mem) : Buffer :=
  { dst with data := scatter dst.data ((List.range (dst.size / 2)).map fun e : ℕ => ((e : ℤ), src e)) }

/-- The `host_weight` that is passed to `convert_data_layout`; `held` and `held_t` are what the two new
    buffers hold. -/
def host_weight (gemm_order : PimGemmOrder) (transposed : Bool) (s : PimBShape)
    (data held held_t : Mem) :
    Option Buffer := do
  let host_weight ← create_bo s held
  let host_weight_t ← create_bo s held_t
  if check_need_for_transpose gemm_order transposed then
    let host_weight_t := copy_memory host_weight_t data
    return { host_weight with
      data := scatter host_weight.data (transpose_pimbo (PimCreateBo s) host_weight_t.data) }
  else return copy_memory host_weight data

/-! ### The logical weight -/

/-- Where a weight keeps element `(o, i)` of logical matrix `m`: a transposed one is stored as
    `[w][h]`. -/
def stored (gemm_order : PimGemmOrder) (transposed : Bool) (s : PimBShape) (m o i : ℕ) : ℕ :=
  let (y, x) := match gemm_order with
    | .I_X_W => (i, o)
    | .W_X_I => (o, i)
  m * (s.h.toNat * s.w.toNat) + if transposed then x * s.h.toNat + y else y * s.w.toNat + x

/-- Where `[n][c][out][in]` keeps it. -/
def logical (gemm_order : PimGemmOrder) (s : PimBShape) (m o i : ℕ) : ℕ :=
  (m * outDim s gemm_order + o) * inDim s gemm_order + i

/-- The memory holds the logical weight as `[n][c][out][in]`. -/
def HoldsLogical (gemm_order : PimGemmOrder) (transposed : Bool) (s : PimBShape)
    (data mem : Mem) : Prop :=
  ∀ m o i, m < matrices s → o < outDim s gemm_order → i < inDim s gemm_order →
    mem (logical gemm_order s m o i : ℕ) = data (stored gemm_order transposed s m o i : ℕ)

/-- Every element of the weight lies in the buffer. -/
def Fits (s : PimBShape) (buf : Buffer) : Prop := byteSize s ≤ buf.size

/-- Whatever the weight and the new buffers hold, the conversion is passed the logical weight. -/
def HostWeightOriented (gemm_order : PimGemmOrder) (transposed : Bool) (s : PimBShape) : Prop :=
  ∀ data held held_t, ∃ buf, host_weight gemm_order transposed s data held held_t = some buf ∧
    Fits s buf ∧ HoldsLogical gemm_order transposed s data buf.data

/-! ### Sizes -/

/-- The size of a new buffer is the byte size of the shape, wrapped to an `int`. -/
theorem bo_size_eq (s : PimBShape) :
    (bo_size (int32 s.n.toNat) (int32 s.c.toNat) (int32 s.h.toNat) (int32 s.w.toNat) .PIM_FP16).toNat =
      toUint64 (int32 (byteSize s : ℕ)) := plain_size_eq s .PIM_FP16

/-- Below `2^31` bytes the buffer has the size of the weight. -/
theorem create_bo_eq {s : PimBShape} (h : byteSize s < 2 ^ 31) (held : Mem) :
    create_bo s held = some ⟨byteSize s, held⟩ := by
  rw [create_bo, bo_size_eq, int32_natCast h, toUint64_natCast (by omega), alloc_memory,
    if_pos (by omega)]

/-- From `2^31` bytes on there is no buffer, or one too small for the weight. -/
theorem create_bo_large {s : PimBShape} (h : 2 ^ 31 ≤ byteSize s) {held : Mem} {buf : Buffer}
    (hbuf : create_bo s held = some buf) : ¬ Fits s buf := by
  have hlt := int32_lt (byteSize s : ℕ)
  have hlo := neg_le_int32 (byteSize s : ℕ)
  rw [create_bo, bo_size_eq, alloc_memory] at hbuf
  generalize int32 (byteSize s : ℕ) = x at hlt hlo hbuf
  split_ifs at hbuf with hmem
  obtain rfl := Option.some.inj hbuf
  unfold toUint64 at hmem
  simp only [Fits, toUint64]
  omega

/-! ### The paths -/

/-- An element below the size is copied. -/
theorem copy_memory_data {dst : Buffer} {src : Mem} {e : ℕ} (he : e < dst.size / 2) :
    (copy_memory dst src).data e = src e := by
  refine scatter_eq ⟨_, List.mem_map.mpr ⟨e, List.mem_range.mpr he, rfl⟩, rfl⟩ ?_
  intro w hw heq
  obtain ⟨e', -, rfl⟩ := List.mem_map.mp hw
  exact congrArg src heq

/-- Without the transpose `host_weight` is a copy. -/
theorem host_weight_copied {gemm_order : PimGemmOrder} {transposed : Bool} {s : PimBShape}
    (h : check_need_for_transpose gemm_order transposed = false) (hlt : byteSize s < 2 ^ 31)
    (data held held_t : Mem) :
    ∃ buf, host_weight gemm_order transposed s data held held_t = some buf ∧ Fits s buf ∧
      ∀ e : ℕ, e < byteSize s / 2 → buf.data e = data e := by
  refine ⟨copy_memory ⟨byteSize s, held⟩ data, ?_, le_refl _, fun e he => copy_memory_data he⟩
  simp [host_weight, create_bo_eq hlt, h]

/-- With it, element `(l, a)` of each `[w][h]` matrix comes from element `(a, l)` of the `[h][w]`
    one. -/
theorem host_weight_transposed {gemm_order : PimGemmOrder} {transposed : Bool} {s : PimBShape}
    (h : check_need_for_transpose gemm_order transposed = true) (hs : SizedWeight s)
    (data held held_t : Mem) :
    ∃ buf, host_weight gemm_order transposed s data held held_t = some buf ∧ Fits s buf ∧
      ∀ m a l, m < matrices s → a < s.h.toNat → l < s.w.toNat →
        buf.data (((m * s.w.toNat + l) * s.h.toNat + a : ℕ) : ℤ) =
          data (((m * s.h.toNat + a) * s.w.toNat + l : ℕ) : ℤ) := by
  refine ⟨⟨byteSize s, scatter held (transpose_pimbo (PimCreateBo s)
    (copy_memory ⟨byteSize s, held_t⟩ data).data)⟩, ?_, le_refl _, ?_⟩
  · simp [host_weight, create_bo_eq hs.size_lt, h]
  · intro m a l hm ha hl
    have hplace := elem_lt hm (place_lt hl ha).2
    have hidx : (m * s.h.toNat + a) * s.w.toNat + l =
        m * (s.h.toNat * s.w.toNat) + (a * s.w.toNat + l) := by ring
    dsimp only
    rw [scatter_transpose hs hm ha hl, copy_memory_data]
    rw [hidx, byteSize, Nat.mul_div_cancel _ two_pos]
    exact hplace

/-- A path that delivers a whole buffer had a size that an `int` holds. -/
theorem size_lt_of_fits {gemm_order : PimGemmOrder} {transposed : Bool} {s : PimBShape}
    {data held held_t : Mem}
    {buf : Buffer} (hbuf : host_weight gemm_order transposed s data held held_t = some buf)
      (hfit : Fits s buf) :
    byteSize s < 2 ^ 31 := by
  by_contra hge
  rw [not_lt] at hge
  have hbo : ∃ b b_t, create_bo s held = some b ∧ create_bo s held_t = some b_t ∧
      buf.size = b.size := by
    rcases hb : create_bo s held with - | b
    · simp [host_weight, hb] at hbuf
    rcases hbt : create_bo s held_t with - | b_t
    · simp [host_weight, hb, hbt] at hbuf
    refine ⟨b, b_t, rfl, rfl, ?_⟩
    simp only [host_weight, hb, hbt, Option.bind_eq_bind, Option.bind_some] at hbuf
    split_ifs at hbuf <;> obtain rfl := Option.some.inj hbuf <;> rfl
  obtain ⟨b, -, hb, -, hsize⟩ := hbo
  exact create_bo_large hge hb (by rw [Fits, ← hsize]; exact hfit)

/-! ### The exact condition -/

/-- The element offset of an untransposed weight under `W_X_I`, and of a transposed one under
    `I_X_W`, is that of the logical weight. -/
theorem stored_eq_logical {gemm_order : PimGemmOrder} {transposed : Bool} {s : PimBShape}
    (h : check_need_for_transpose gemm_order transposed = false) (m o i : ℕ) :
    stored gemm_order transposed s m o i = logical gemm_order s m o i := by
  cases gemm_order <;> cases transposed <;>
    simp [check_need_for_transpose, stored, logical, inDim, outDim] at h ⊢ <;> ring

theorem logical_lt {gemm_order : PimGemmOrder} {s : PimBShape} {m o i : ℕ} (hm : m < matrices s)
    (ho : o < outDim s gemm_order) (hi : i < inDim s gemm_order) :
    logical gemm_order s m o i < byteSize s / 2 := by
  rw [byteSize, Nat.mul_div_cancel _ two_pos]
  cases gemm_order <;> simp only [logical, inDim, outDim] at ho hi ⊢
  · refine lt_of_eq_of_lt ?_ (elem_lt hm (place_lt hi ho).2)
    ring
  · refine lt_of_eq_of_lt ?_ (elem_lt hm (place_lt ho hi).1)
    ring

/-- The transpose of an `[h][w]` matrix is its `[w][h]` matrix. Taken as `[w][h]` it is the mirror image
    only when the sides agree, or when there is one row or one column. -/
theorem transposed_place {s : PimBShape} {o i : ℕ} (ho : o < s.h.toNat) (hi : i < s.w.toNat)
    (h : s.h = s.w ∨ s.h = 1 ∨ s.w = 1) :
    ∃ l a, l < s.w.toNat ∧ a < s.h.toNat ∧ l * s.h.toNat + a = o * s.w.toNat + i ∧
      a * s.w.toNat + l = i * s.h.toNat + o := by
  rcases h with h | h | h
  · rw [h] at ho ⊢
    exact ⟨o, i, ho, hi, rfl, rfl⟩
  · have h1 : s.h.toNat = 1 := by rw [h]; rfl
    obtain rfl : o = 0 := by omega
    exact ⟨i, 0, hi, by omega, by rw [h1]; ring, by rw [h1]; ring⟩
  · have h1 : s.w.toNat = 1 := by rw [h]; rfl
    obtain rfl : i = 0 := by omega
    exact ⟨0, o, by omega, ho, by rw [h1]; ring, by rw [h1]; ring⟩

theorem oriented_of_cond {gemm_order : PimGemmOrder} {transposed : Bool} {s : PimBShape}
    (hs : SizedWeight s)
    (h : gemm_order = .I_X_W ∨ transposed = false ∨ s.h = s.w ∨ s.h = 1 ∨ s.w = 1) :
    HostWeightOriented gemm_order transposed s := by
  intro data held held_t
  rcases hneed : check_need_for_transpose gemm_order transposed with - | -
  · obtain ⟨buf, hbuf, hfit, hdata⟩ := host_weight_copied hneed hs.size_lt data held held_t
    refine ⟨buf, hbuf, hfit, fun m o i hm ho hi => ?_⟩
    rw [hdata _ (logical_lt hm ho hi), stored_eq_logical hneed]
  · obtain ⟨buf, hbuf, hfit, hdata⟩ := host_weight_transposed hneed hs data held held_t
    refine ⟨buf, hbuf, hfit, fun m o i hm ho hi => ?_⟩
    cases gemm_order
    · -- a transposed `W_X_I` weight
      have htr : transposed = true := by simpa [check_need_for_transpose] using hneed
      subst htr
      obtain ⟨l, a, hl, ha, hdst, hsrc⟩ := transposed_place ho hi (by simpa using h)
      have h₁ : logical .W_X_I s m o i = (m * s.w.toNat + l) * s.h.toNat + a := by
        calc logical .W_X_I s m o i = m * (s.h.toNat * s.w.toNat) + (o * s.w.toNat + i) := by
              simp only [logical, inDim, outDim]; ring
          _ = (m * s.w.toNat + l) * s.h.toNat + a := by rw [← hdst]; ring
      have h₂ : stored .W_X_I true s m o i = (m * s.h.toNat + a) * s.w.toNat + l := by
        calc stored .W_X_I true s m o i = m * (s.h.toNat * s.w.toNat) + (i * s.h.toNat + o) := rfl
          _ = (m * s.h.toNat + a) * s.w.toNat + l := by rw [← hsrc]; ring
      rw [h₁, h₂, hdata m a l hm ha hl]
    · -- an untransposed `I_X_W` weight
      have htr : transposed = false := by simpa [check_need_for_transpose] using hneed
      subst htr
      have h₂ : stored .I_X_W false s m o i = (m * s.h.toNat + i) * s.w.toNat + o := by
        calc stored .I_X_W false s m o i = m * (s.h.toNat * s.w.toNat) + (i * s.w.toNat + o) := rfl
          _ = (m * s.h.toNat + i) * s.w.toNat + o := by ring
      rw [h₂, ← hdata m i o hm hi ho]
      rfl

/-- A transposed `W_X_I` weight of two different sides, both more than one, has its second element taken
    from the wrong place. -/
theorem not_oriented_of_sides {s : PimBShape} (hs : SizedWeight s) (hne : s.h ≠ s.w) (hh : s.h ≠ 1)
    (hw : s.w ≠ 1) : ¬ HostWeightOriented .W_X_I true s := by
  intro horiented
  have hne' : s.h.toNat ≠ s.w.toNat := fun h => hne (UInt32.toNat_inj.mp h)
  have hh' : s.h.toNat ≠ 1 := fun h => hh (UInt32.toNat_inj.mp h)
  have hw' : s.w.toNat ≠ 1 := fun h => hw (UInt32.toNat_inj.mp h)
  have hh0 := hs.h_pos
  have hw0 := hs.w_pos
  let data : Mem := fun e => if e = s.h.toNat then 1 else 0
  obtain ⟨buf, hbuf, -, hholds⟩ := horiented data data data
  have hneed : check_need_for_transpose .W_X_I true = true := rfl
  obtain ⟨buf', hbuf', -, hdata⟩ := host_weight_transposed hneed hs data data data
  obtain rfl : buf = buf' := Option.some.inj (hbuf.symm.trans hbuf')
  have hwant := hholds 0 0 1 hs.matrices_pos hh0 (show 1 < s.w.toNat by omega)
  have hgot := hdata 0 1 0 hs.matrices_pos (by omega) hw0
  have hone : data (stored .W_X_I true s 0 0 1 : ℕ) = 1 := by simp [data, stored]
  have hzero : data (((0 * s.h.toNat + 1) * s.w.toNat + 0 : ℕ) : ℤ) = 0 := by
    simp [data, Ne.symm hne']
  have hplace : logical .W_X_I s 0 0 1 = (0 * s.w.toNat + 0) * s.h.toNat + 1 := by
    simp [logical]
  rw [hplace, hgot, hone, hzero] at hwant
  exact absurd hwant (by decide)

/-- A weight without elements is delivered whatever the flags. -/
theorem oriented_of_empty {gemm_order : PimGemmOrder} {transposed : Bool} {s : PimBShape}
    (h0 : byteSize s = 0) :
    HostWeightOriented gemm_order transposed s := by
  intro data held held_t
  have hbuf : ∃ buf, host_weight gemm_order transposed s data held held_t = some buf := by
    simp only [host_weight, create_bo_eq (s := s) (by omega), Option.bind_eq_bind, Option.bind_some]
    split_ifs <;> exact ⟨_, rfl⟩
  obtain ⟨buf, hbuf⟩ := hbuf
  refine ⟨buf, hbuf, by rw [Fits, h0]; exact Nat.zero_le _, fun m o i hm ho hi => ?_⟩
  have hlt := logical_lt hm ho hi
  omega

/-- The conversion is passed the logical weight exactly when the size fits an `int` and the shape fields
    describe the stored layout, or the mirror image cannot be told from it. -/
theorem host_weight_oriented_iff (gemm_order : PimGemmOrder) (transposed : Bool) (s : PimBShape) :
    HostWeightOriented gemm_order transposed s ↔ byteSize s = 0 ∨ byteSize s < 2 ^ 31 ∧
      (gemm_order = .I_X_W ∨ transposed = false ∨ s.h = s.w ∨ s.h = 1 ∨ s.w = 1) := by
  constructor
  · intro horiented
    rcases Nat.eq_zero_or_pos (byteSize s) with h0 | hpos
    · exact Or.inl h0
    obtain ⟨buf, hbuf, hfit, -⟩ := horiented (fun _ => 0) (fun _ => 0) (fun _ => 0)
    have hlt := size_lt_of_fits hbuf hfit
    refine Or.inr ⟨hlt, ?_⟩
    by_contra hcond
    simp only [not_or] at hcond
    obtain ⟨horder, htr, hne, hh, hw⟩ := hcond
    cases gemm_order
    · rw [Bool.not_eq_false] at htr
      subst htr
      exact not_oriented_of_sides ⟨hpos, hlt⟩ hne hh hw horiented
    · exact horder rfl
  · intro hcond
    rcases Nat.eq_zero_or_pos (byteSize s) with h0 | hpos
    · exact oriented_of_empty h0
    · rcases hcond with h0 | ⟨hlt, hcond⟩
      · omega
      · exact oriented_of_cond ⟨hpos, hlt⟩ hcond

/-- A transposed weight of 4096 outputs and 256 inputs is transposed once more instead of back. -/
theorem transposed_w_x_i_misoriented : ¬ HostWeightOriented .W_X_I true ⟨1, 1, 4096, 256⟩ :=
  not_oriented_of_sides ⟨by decide, by decide⟩ (by decide) (by decide) (by decide)

end PimLibrary.Runtime
