import PimLibrary.Device.EltShape
import PimLibrary.Executor.LoopCount

/-! The tiles that an element-wise launch covers in a padded buffer.

    A tile is eight columns of every bank of every channel, which the address map places in `2^18`
    consecutive bytes. A buffer of whole tiles leaves nothing to round up, so no launch passes its
    end. -/

namespace PimLibrary.Executor
open Schemes.Word PimLibrary.Kernel PimLibrary.Device PimLibrary.Program

attribute [local irreducible] int32

/-! ### The bytes of a tile -/

/-- In HAB_PIM mode the access of thread `t` acts on the same column of every bank. -/
def tile_addr (ch tile_idx t bankgroup bank : ℕ) : ℕ :=
  let loc := uint32 (tile_idx * 8 + gidx t)
  addr_gen ch 0 bankgroup bank (loc / 32) (loc % 32)

theorem addr_even_eq (ch tile_idx t : ℕ) :
    addr_even ch tile_idx t = (tile_addr ch tile_idx t 0 0 : ℕ) := rfl

theorem tile_addr_eq (ch tile_idx t bank : ℕ) {bankgroup : ℕ} (hbg : bankgroup < 4) :
    tile_addr ch tile_idx t bankgroup bank = 32 * transaction ch bankgroup bank
      (uint32 (tile_idx * 8 + gidx t) / 32) (uint32 (tile_idx * 8 + gidx t) % 32) := by
  have hlt := uint32_lt (tile_idx * 8 + gidx t)
  exact addr_gen_eq ch bankgroup bank _ _ hbg (by omega)

theorem addr_odd_eq (ch tile_idx t : ℕ) :
    addr_odd ch tile_idx t = (tile_addr ch tile_idx t 0 1 : ℕ) := by
  rw [addr_odd, addr_even_eq, tile_addr_eq _ _ _ _ (by norm_num),
    tile_addr_eq _ _ _ _ (by norm_num), transaction, transaction]
  push_cast
  omega

/-- A tile ends before the next one begins. -/
theorem tile_addr_lt (ch bank : ℕ) {tile_idx t bankgroup : ℕ} (hbg : bankgroup < 4) (ht : t < 16)
    (htile : tile_idx < 2 ^ 28) : tile_addr ch tile_idx t bankgroup bank + 32 ≤ (tile_idx + 1) *
      2 ^ 18 := by
  have hg : gidx t < 8 := by
    rw [gidx]
    omega
  rw [tile_addr_eq _ _ _ _ hbg, uint32_of_lt (by omega), transaction]
  generalize gidx t = g at hg
  omega

/-! ### Whole tiles -/

/-- Without a part of a tile to round up, a launch covers no more than the size. -/
theorem num_tile_le (op : EltEntry) {size : UInt64} (hwhole : 262144 ∣ size.toNat) :
    (op.execute size).num_tile * 262144 ≤ size.toNat ∧ (op.execute size).num_tile * 262144 <
      2 ^ 31 := by
  have hword : (262144 : ℤ) ∣ output_size size := by
    rw [output_size]
    exact dvd_int32 (by norm_num) (by exact_mod_cast hwhole)
  have hlt : output_size size < 2 ^ 31 := int32_lt _
  have hle : output_size size ≤ size.toNat := int32_le_self (Int.natCast_nonneg _)
  rcases lt_or_ge (output_size size) 262144 with hsmall | hlarge
  · have hnone := num_tile_of_lt op hsmall
    split_ifs at hnone with hpos
    · constructor <;> omega
    · constructor <;> omega
  · obtain ⟨m, hm⟩ :=
      Int.eq_ofNat_of_zero_le (le_trans (by norm_num) hlarge : (0 : ℤ) ≤ output_size size)
    rw [hm] at hword hlt hle hlarge
    have htiles : (op.execute size).num_tile = ((m / 262144 : ℕ) : ℤ) := by
      rw [num_tile_eq, hm]
      cases hup : op.roundsUp with
      | false => rfl
      | true =>
        rw [if_pos rfl]
        exact ((round_up_iff (by omega)).mpr (by exact_mod_cast hword)).symm
    rw [htiles]
    constructor <;> omega

/-- The byte size of a padded buffer is whole tiles, in either precision. -/
theorem dvd_desc_size {d : PimDesc} (hwhole : PIM_ELTWISE_ALIGN ∣ d.bshape.elements) :
    262144 ∣ (desc_size d .ELT_OP).toNat := by
  have hsize : 262144 ∣ (get_aligned_size d .ELT_OP).toNat := by
    rw [get_aligned_size_elt]
    exact (Nat.dvd_mod_iff (by norm_num)).mpr hwhole
  rw [desc_size, UInt64.toNat_mul]
  exact (Nat.dvd_mod_iff (by norm_num)).mpr (hsize.mul_right _)

/-! ### Descriptors -/

/-- A padded descriptor, and tiles that stay within the buffer it describes. -/
structure EltCovered (d : PimDesc) : Prop where
  padded : EltPadded d
  tiles : ∀ (op : EltEntry) (tile_idx : ℕ), tile_idx < (op.execute (desc_size d .ELT_OP)).num_tile →
    ∀ ch t bankgroup bank, t < 16 → bankgroup < 4 →
      tile_addr ch tile_idx t bankgroup bank + 32 ≤ (desc_size d .ELT_OP).toNat

/-- Padding alone keeps the tiles within the buffer. -/
theorem eltCovered_of_padded {d : PimDesc} (h : EltPadded d) : EltCovered d := by
  refine ⟨h, fun op tile_idx htile ch t bankgroup bank ht hbg => ?_⟩
  have hle := num_tile_le op (dvd_desc_size h.whole)
  have hlt : tile_idx < 2 ^ 28 := by omega
  have hend := tile_addr_lt ch bank hbg ht hlt
  omega

/-- A descriptor of an element-wise operation covers its elements with whole tiles, which the executors
    then stay within, exactly where its rows are widened to the least width that covers whole tiles. -/
theorem elt_desc_covered_iff (n c h w : UInt32) (precision : PimPrecision) {op_type : PimOpType}
    (hop : op_type ≠ .OP_GEMV) (hn : 0 < n.toNat) (hc : 0 < c.toNat) (hh : 0 < h.toNat) (hw : 0 <
      w.toNat) :
    (∃ d, PimCreateDesc n c h w precision op_type = some d ∧ d.bshape_r = ⟨n, c, h, w⟩ ∧ EltCovered d) ↔
      Widens (n * h * c).toNat w.toNat := by
  have hiff := elt_padded_iff hop ⟨⟨n, c, h, w⟩, ⟨n, c, h, w⟩, precision, op_type⟩ hn hc hh
  constructor
  · rintro ⟨d, hd, -, hcovered⟩
    exact widens_of_widened (UInt32.toNat_lt _) hw (hiff.mp ⟨d, hd, hcovered.padded⟩)
  · intro hwidens
    obtain ⟨d, hd, hpadded⟩ := hiff.mpr (widened_of_widens (UInt32.toNat_lt _) hw hwidens)
    refine ⟨d, hd, ?_, eltCovered_of_padded hpadded⟩
    rw [((align_shape_eq_some_iff hop _ _).mp hd).2.2]

/-- One element fills a tile. -/
theorem elt_desc_covered_single : ∃ d, PimCreateDesc 1 1 1 1 .PIM_FP16 .OP_ELT_ADD = some d ∧
    d.bshape_r = ⟨1, 1, 1, 1⟩ ∧ EltCovered d :=
  (elt_desc_covered_iff 1 1 1 1 .PIM_FP16 (by decide) (by decide) (by decide) (by decide) (by decide)).mpr
    (by decide +kernel)

/-- Three rows of one element: the width is rounded up, and the last tile of an addition starts
    within the buffer and ends past it. -/
theorem three_rows_not_covered : ∃ d, PimCreateDesc 1 1 3 1 .PIM_FP16 .OP_ELT_ADD = some d ∧
    d.bshape.elements = 262146 ∧ ¬ PIM_ELTWISE_ALIGN ∣ d.bshape.elements ∧
      (desc_size d .ELT_OP).toNat = 524292 ∧
    (EltEntry.add.execute (desc_size d .ELT_OP)).num_tile = 3 ∧ addr_odd 0 2 0 = 532480 ∧
      ¬ EltCovered d := by
  refine ⟨⟨⟨1, 1, 3, 87382⟩, ⟨1, 1, 3, 1⟩, .PIM_FP16, .OP_ELT_ADD⟩, by decide +kernel, by
    decide +kernel, by decide +kernel, by decide +kernel, by decide +kernel,
      (addr_odd_eq 0 2 0).trans (by decide +kernel), fun hcovered => ?_⟩
  have hwhole := hcovered.padded.whole
  revert hwhole
  decide +kernel

end PimLibrary.Executor
