import PimLibrary.Device.PimInfo
import PimLibrary.Schemes.Word
import PimLibrary.Schemes.Scatter
import PimLibrary.Schemes.Loop

/-! Bias and activation, and the emulator's way of putting a product into the output buffer.

    Values are exact numbers in place of half precision. The simulator returns the raw sums of the
    padded output; the emulator adds the bias, applies the activation and copies one matrix at a
    time. -/

namespace PimLibrary.Emulator
open Schemes.Word Schemes.Scatter Schemes.Loop PimLibrary.Device

attribute [local irreducible] int32

/-- `x += bias[idx]`, then the rectifier, each where the flags ask for it. -/
def bias_act (bias : Option (ℤ → ℚ)) (act_func : PimActFunc) (idx : ℤ) (x : ℚ) : ℚ :=
  let x := match bias with
    | none => x
    | some b => x + b idx
  match act_func with
  | .NONE => x
  | .ACT_RELU => if x < 0 then 0 else x

/-- The elements of a buffer of the shape, as a `uint32_t` product. -/
def elements (bshape : PimBShape) : ℕ :=
  uint32 (bshape.n.toNat * bshape.c.toNat * bshape.h.toNat * bshape.w.toNat)

def out_dim (output : PimBo) : ℤ := int32 (elements output.bshape)

/-- The `int` offset of matrix `(n, c)` in a buffer of the shape, accumulated in two steps. -/
def matrix_offset (bshape : PimBShape) (n c : ℕ) : ℤ :=
  let offset := int32 (uint32 (n * bshape.c.toNat * bshape.h.toNat * bshape.w.toNat))
  int32 (offset + uint32 (c * bshape.h.toNat * bshape.w.toNat))

/-- One `hipMemcpy` out of `sim_output`, in elements. -/
structure CopyOut where
  dst : ℤ
  src : ℤ
  len : ℕ

def copy_outs (output pim_data : PimBo) : List CopyOut :=
  (List.range output.bshape.n.toNat).flatMap fun n => (List.range output.bshape.c.toNat).map fun c =>
    ⟨matrix_offset output.bshape_r n c, matrix_offset output.bshape n c,
      uint32 (pim_data.bshape_r.w.toNat * output.bshape_r.h.toNat)⟩

/-- The copy reads inside `sim_output`. -/
def CopyOut.Inside (copy : CopyOut) (out_dim : ℤ) : Prop :=
  copy.len = 0 ∨ 0 ≤ copy.src ∧ copy.src + copy.len ≤ out_dim

instance (copy : CopyOut) (out_dim : ℤ) : Decidable (copy.Inside out_dim) := by
  unfold CopyOut.Inside; infer_instance

/-- The writes of a copy. -/
def CopyOut.writes (copy : CopyOut) (data : ℤ → ℚ) : List (ℤ × ℚ) :=
  (List.range copy.len).map fun j : ℕ => (copy.dst + j, data (copy.src + j))

/-- The writes to the output buffer, given the raw sums that `read_result_gemv` returns. `none` is an
    array of negative size or a copy from outside of it. -/
def execute_gemm_bias_act (output pim_data : PimBo) (mem_type : PimMemType) (sums : ℤ → ℚ)
    (bias : Option (ℤ → ℚ)) (act_func : PimActFunc) : Option (List (ℤ × ℚ)) :=
  let sim_output := fun i => bias_act bias act_func i (sums i)
  if out_dim output < 0 then none
  else if mem_type = .MEM_TYPE_HOST then some []
  else if ∀ copy ∈ copy_outs output pim_data, copy.Inside (out_dim output) then
    some ((copy_outs output pim_data).flatMap fun copy => copy.writes sim_output)
  else none

/-! ### Values -/

/-- A large enough sum passes the rectifier. -/
theorem bias_act_some {b : ℤ → ℚ} {i : ℤ} {x : ℚ} (act_func : PimActFunc) (h : 0 ≤ x + b i) :
    bias_act (some b) act_func i x = x + b i := by
  cases act_func
  · rfl
  · exact if_neg (not_lt.mpr h)

/-- The result grows beyond every value. -/
theorem exists_bias_act_gt (bias : Option (ℤ → ℚ)) (act_func : PimActFunc) (i : ℤ) (v : ℚ) :
    ∃ x, v < bias_act bias act_func i x := by
  have hrelu : ∀ x : ℚ, x ≤ if x < 0 then 0 else x := by
    intro x
    split_ifs with h
    · exact le_of_lt h
    · exact le_refl x
  rcases bias with _ | b
  · refine ⟨v + 1, lt_of_lt_of_le (lt_add_one v) ?_⟩
    cases act_func
    · exact le_refl _
    · exact hrelu (v + 1)
  · refine ⟨v + 1 - b i, lt_of_lt_of_le (lt_add_one v) ?_⟩
    cases act_func
    · simp [bias_act]
    · have h := hrelu (v + 1 - b i + b i)
      rw [sub_add_cancel] at h
      simpa only [bias_act, sub_add_cancel] using h

/-! ### Offsets -/

/-- Both steps together wrap the exact offset. -/
theorem matrix_offset_eq (bshape : PimBShape) (n c : ℕ) : matrix_offset bshape n c =
    int32 (((n * bshape.c.toNat + c) * (bshape.h.toNat * bshape.w.toNat) : ℕ) : ℤ) := by
  rw [matrix_offset, int32_uint32, int32_add_int32', ← int32_add_int32, int32_uint32, int32_add_int32]
  congr 1
  push_cast
  ring

/-- The copies, numbered through. -/
theorem copy_outs_eq {output pim_data : PimBo} (hc : output.bshape_r.c = output.bshape.c) :
    copy_outs output pim_data = (List.range (matrices output.bshape)).map fun m =>
      ⟨int32 ((m * (output.bshape_r.h.toNat * output.bshape_r.w.toNat) : ℕ) : ℤ),
        int32 ((m * (output.bshape.h.toNat * output.bshape.w.toNat) : ℕ) : ℤ),
        uint32 (pim_data.bshape_r.w.toNat * output.bshape_r.h.toNat)⟩ := by
  have hindex : ∀ q, q / output.bshape.c.toNat * output.bshape.c.toNat +
      q % output.bshape.c.toNat = q :=
    fun q => Nat.div_add_mod' q _
  simp only [copy_outs, matrix_offset_eq, hc, flatMap_range_map, hindex]
  rfl

section Execute

variable {output pim_data : PimBo} {mem_type : PimMemType} {sums : ℤ → ℚ} {bias : Option (ℤ → ℚ)}
  {act_func : PimActFunc}

theorem execute_eq (hdim : 0 ≤ out_dim output) (hmem : mem_type ≠ .MEM_TYPE_HOST)
    (hin : ∀ copy ∈ copy_outs output pim_data, copy.Inside (out_dim output)) :
    execute_gemm_bias_act output pim_data mem_type sums bias act_func =
      some ((copy_outs output pim_data).flatMap fun copy =>
        copy.writes fun i => bias_act bias act_func i (sums i)) := by
  rw [execute_gemm_bias_act, if_neg (not_lt.mpr hdim), if_neg hmem, if_pos hin]

/-- What a run without a fault wrote. -/
theorem of_execute {copied : List (ℤ × ℚ)}
    (h : execute_gemm_bias_act output pim_data mem_type sums bias act_func = some copied) :
    0 ≤ out_dim output ∧ (mem_type = .MEM_TYPE_HOST → copied = []) ∧ (mem_type ≠ .MEM_TYPE_HOST →
      (∀ copy ∈ copy_outs output pim_data, copy.Inside (out_dim output)) ∧
        copied = (copy_outs output pim_data).flatMap fun copy =>
          copy.writes fun i => bias_act bias act_func i (sums i)) := by
  rw [execute_gemm_bias_act] at h
  split_ifs at h with hneg hhost hin
  · cases h
    exact ⟨not_lt.mp hneg, fun _ => rfl, fun hmem => absurd hhost hmem⟩
  · cases h
    exact ⟨not_lt.mp hneg, fun hmem => absurd hmem hhost, fun _ => ⟨hin, rfl⟩⟩

end Execute

theorem mem_writes {copy : CopyOut} {data : ℤ → ℚ} {w : ℤ × ℚ} :
    w ∈ copy.writes data ↔ ∃ j < copy.len, w = (copy.dst + j, data (copy.src + j)) := by
  simp only [CopyOut.writes, List.mem_map, List.mem_range, eq_comm]

/-- Copies that put what they read at the same place leave the data. -/
theorem written_same_place {copies : List CopyOut} {data : ℤ → ℚ} {a : ℤ}
    (hsame : ∀ copy ∈ copies, copy.dst = copy.src)
    (hmem : ∃ copy ∈ copies, copy.src ≤ a ∧ a < copy.src + copy.len) :
    written (copies.flatMap fun copy => copy.writes data) a = some (data a) := by
  obtain ⟨copy, hcopy, hlo, hhi⟩ := hmem
  obtain ⟨j, hj⟩ := Int.eq_ofNat_of_zero_le (sub_nonneg.mpr hlo)
  refine written_eq ⟨(copy.dst + j, data (copy.src + j)), ?_, ?_⟩ ?_
  · exact List.mem_flatMap.mpr ⟨copy, hcopy, mem_writes.mpr ⟨j, by omega, rfl⟩⟩
  · simp only [hsame copy hcopy]
    omega
  · intro w hw ha
    obtain ⟨copy', hcopy', hw'⟩ := List.mem_flatMap.mp hw
    obtain ⟨i, -, rfl⟩ := mem_writes.mp hw'
    rw [← ha, hsame copy' hcopy']

end PimLibrary.Emulator
