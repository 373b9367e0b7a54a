import PimLibrary.Device.EltDesc

/-! The byte sizes that the three `PimCreateBo` record.

    One shape is multiplied out as an `int`, as a `size_t`, or as a `uint32_t` that is doubled
    afterwards; the three products wrap at different sizes. -/

namespace PimLibrary.Device
open Schemes.Word

attribute [local irreducible] int32

def PimPrecision.type_size : PimPrecision → ℕ
  | .PIM_FP16 => 2
  | .PIM_INT8 => 1

/-- The bytes of a shape, exactly. -/
def PimBShape.bytes (s : PimBShape) (precision : PimPrecision) : ℕ := s.elements * precision.type_size

/-- `PimCreateBo(n, c, h, w, precision, ..)`, with the dimensions of the shape as `int`. -/
def plain_size (s : PimBShape) (precision : PimPrecision) : UInt64 :=
  bo_size (int32 s.n.toNat) (int32 s.c.toNat) (int32 s.h.toNat) (int32 s.w.toNat) precision

/-- The operand of a GEMM descriptor that a flag names. -/
def PimGemmDesc.operand (pim_gemm_desc : PimGemmDesc) : PimMemFlag → Option PimBShape
  | .GEMM_INPUT => some pim_gemm_desc.in_bshape
  | .GEMM_WEIGHT => some pim_gemm_desc.wei_bshape
  | .GEMM_OUTPUT => some pim_gemm_desc.out_bshape
  | .GEMM_BIAS => some pim_gemm_desc.bias_bshape
  | _ => none

/-- The size of `set_pimbo` for this operand: doubled after it is a `size_t`. -/
def operand_size (bshape : PimBShape) (precision : PimPrecision) : UInt64 :=
  let size := (bshape.n * bshape.c * bshape.h * bshape.w).toUInt64
  if precision = .PIM_FP16 then size * 2 else size

/-- With a flag of another kind of descriptor the size is not set. -/
def set_pimbo_size (pim_gemm_desc : PimGemmDesc) (precision : PimPrecision)
    (mem_flag : PimMemFlag) : Option UInt64 :=
  (pim_gemm_desc.operand mem_flag).map fun bshape => operand_size bshape precision

/-- Every way to create a buffer of this shape records its bytes. -/
structure SizesAgree (s : PimBShape) (precision : PimPrecision) : Prop where
  plain : (plain_size s precision).toNat = s.bytes precision
  desc : ∀ d : PimDesc, d.bshape = s → d.precision = precision → (desc_size d .ELT_OP).toNat =
    s.bytes precision
  gemm_desc : ∀ (d : PimGemmDesc) (mem_flag : PimMemFlag), d.operand mem_flag = some s →
    ∃ size, set_pimbo_size d precision mem_flag = some size ∧ size.toNat = s.bytes precision

variable {s : PimBShape} {precision : PimPrecision}

/-! ### The products -/

theorem PimBShape.elements_le_bytes : s.elements ≤ s.bytes precision := by
  cases precision <;> simp only [bytes, PimPrecision.type_size] <;> omega

/-- The `int` product is that of the bytes. -/
theorem plain_size_eq (s : PimBShape) (precision : PimPrecision) :
    (plain_size s precision).toNat = toUint64 (int32 (s.bytes precision : ℕ)) := by
  have hprod : ((s.bytes precision : ℕ) : ℤ) =
      s.n.toNat * s.c.toNat * s.h.toNat * s.w.toNat * if precision = .PIM_FP16 then 2 else 1 := by
    cases precision <;> simp [PimBShape.bytes, PimBShape.elements, PimPrecision.type_size]
  have hnc := int32_mul_congr (int32_int32 s.n.toNat) s.c.toNat
  have hnch := int32_mul_congr hnc s.h.toNat
  have hnchw := int32_mul_congr hnch s.w.toNat
  rw [plain_size, bo_size, ← int32_mul_int32', hnchw, int32_mul_int32', ← hprod]
  exact UInt64.toNat_ofNat_of_lt' (toUint64_lt _)

/-- An `int` product is exact below `2^31`. -/
theorem plain_size_exact_iff (hpool : s.bytes precision ≤ 2 ^ 34) :
    (plain_size s precision).toNat = s.bytes precision ↔ s.bytes precision < 2 ^ 31 := by
  rw [plain_size_eq]
  constructor
  · intro heq
    by_contra hlarge
    have hlt := int32_lt (s.bytes precision : ℕ)
    have hlo := neg_le_int32 (s.bytes precision : ℕ)
    generalize int32 (s.bytes precision : ℕ) = x at heq hlt hlo
    unfold toUint64 at heq
    omega
  · intro hlt
    rw [int32_natCast hlt, toUint64_natCast (by omega)]

/-- A `size_t` product is exact for every buffer that fits the pool. -/
theorem desc_size_exact {d : PimDesc} (hpool : d.bshape.bytes d.precision ≤ 2 ^ 34) :
    (desc_size d .ELT_OP).toNat = d.bshape.bytes d.precision := by
  have helements : d.bshape.elements < 2 ^ 64 :=
    d.bshape.elements_le_bytes.trans_lt (hpool.trans_lt (by norm_num))
  have hbytes : d.bshape.bytes d.precision < 2 ^ 64 := hpool.trans_lt (by norm_num)
  have hsize : (if d.precision = .PIM_FP16 then (2 : UInt64) else 1).toNat = d.precision.type_size := by
    cases d.precision <;> rfl
  rw [desc_size, UInt64.toNat_mul, get_aligned_size_elt, Nat.mod_eq_of_lt helements, hsize]
  exact Nat.mod_eq_of_lt hbytes

/-- A `uint32_t` product is exact while the number of elements is one. -/
theorem set_pimbo_size_exact_iff {d : PimGemmDesc} {mem_flag : PimMemFlag}
    (hd : d.operand mem_flag = some s)
    (hpool : s.bytes precision ≤ 2 ^ 34) :
    (∃ size, set_pimbo_size d precision mem_flag = some size ∧ size.toNat = s.bytes precision) ↔
      s.elements < 2 ^ 32 := by
  have hword : (s.n * s.c * s.h * s.w).toUInt64.toNat = s.elements % 2 ^ 32 := by
    simp only [PimBShape.elements, UInt32.toNat_toUInt64, UInt32.toNat_mul, Nat.mod_mul_mod]
  have hsize : ∃ size, set_pimbo_size d precision mem_flag = some size ∧
      size.toNat = s.elements % 2 ^ 32 * precision.type_size := by
    have hlt : s.elements % 2 ^ 32 < 2 ^ 32 := Nat.mod_lt _ (by norm_num)
    refine ⟨operand_size s precision, by rw [set_pimbo_size, hd, Option.map_some], ?_⟩
    cases precision with
    | PIM_FP16 =>
      have htwo : s.elements % 2 ^ 32 * 2 < 2 ^ 64 := by omega
      simp only [operand_size, if_true, UInt64.toNat_mul, hword]
      exact Nat.mod_eq_of_lt htwo
    | PIM_INT8 => simpa [operand_size, PimPrecision.type_size] using hword
  obtain ⟨size, hset, hsize⟩ := hsize
  have hpos : 0 < precision.type_size := by cases precision <;> decide
  simp only [hset, Option.some.injEq, exists_eq_left', hsize, PimBShape.bytes]
  rw [Nat.mul_right_cancel_iff hpos]
  exact uint32_eq_self_iff

/-- Within the pool the sizes agree exactly below `2^31` bytes. -/
theorem sizes_agree_iff (s : PimBShape) (precision : PimPrecision)
    (hpool : s.bytes precision ≤ 2 ^ 34) :
    SizesAgree s precision ↔ s.bytes precision < 2 ^ 31 := by
  constructor
  · intro h
    exact (plain_size_exact_iff hpool).mp h.plain
  · intro hlt
    refine ⟨(plain_size_exact_iff hpool).mpr hlt, ?_, ?_⟩
    · rintro d rfl rfl
      exact desc_size_exact hpool
    · intro d mem_flag hd
      exact (set_pimbo_size_exact_iff hd hpool).mpr (s.elements_le_bytes.trans_lt (hlt.trans (by norm_num)))

/-- A weight of 4096 by 4096 halves. -/
theorem sizes_agree_square :
    SizesAgree ⟨1, 1, 4096, 4096⟩ .PIM_FP16 ↔ (⟨1, 1, 4096, 4096⟩ : PimBShape).bytes .PIM_FP16 <
      2 ^ 31 :=
  sizes_agree_iff ⟨1, 1, 4096, 4096⟩ .PIM_FP16 (by decide)

/-- 4 GiB of halves, a quarter of the pool: the `int` product wraps to 0. -/
theorem sizes_disagree : (⟨1, 32, 8192, 8192⟩ : PimBShape).bytes .PIM_FP16 = 2 ^ 32 ∧
    (plain_size ⟨1, 32, 8192, 8192⟩ .PIM_FP16).toNat = 0 ∧
      ¬ SizesAgree ⟨1, 32, 8192, 8192⟩ .PIM_FP16 := by
  have hzero : (plain_size ⟨1, 32, 8192, 8192⟩ .PIM_FP16).toNat = 0 := by
    rw [plain_size_eq]
    decide +kernel
  refine ⟨by decide, hzero, fun h => ?_⟩
  have hplain := h.plain
  rw [hzero] at hplain
  exact absurd hplain (by decide)

end PimLibrary.Device
