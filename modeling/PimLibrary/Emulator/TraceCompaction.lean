import PimLibrary.Emulator.TraceCoalescer
import PimLibrary.Schemes.Compaction
import PimLibrary.Schemes.Loop
import PimLibrary.Schemes.Word

/-! The traces of the channels, moved together.

    An EMULATOR build records a trace for each channel in a section of its own, and the executors
    move the sections together with one `memcpy` for each channel from the second one on. In order,
    no copy overwrites a section that is still to be moved. A copy whose ranges overlap, for which
    `memcpy` promises nothing, reads its source before it writes here. -/

namespace PimLibrary.Emulator
open Schemes.Word Schemes.Loop Schemes.Compaction

/-- The `memcpy`s of the loop, in entries. -/
def compaction_copies (size0 fmtd_size_per_ch blocks : ℕ) : List Copy :=
  (List.range' 1 (blocks - 1)).map fun i => ⟨i * size0, i * fmtd_size_per_ch, size0⟩

/-- `h_fmtd16_` after the loop; `size0` is `h_fmtd16_size_[0]`. -/
def compact_traces (h_fmtd16 : ℕ → PimMemTraceData) (size0 fmtd_size_per_ch blocks : ℕ) :
    ℕ → PimMemTraceData :=
  run h_fmtd16 (compaction_copies size0 fmtd_size_per_ch blocks)

/-- The end of `execute_add` and its siblings: `h_fmtd16_` and `h_fmtd16_size_[0]`, an `int`. -/
def Hip.trace_compaction (h_fmtd16 : ℕ → PimMemTraceData) (size0 fmtd_size_per_ch blocks : ℕ) :
    (ℕ → PimMemTraceData) × ℤ :=
  (compact_traces h_fmtd16 size0 fmtd_size_per_ch blocks, int32 (size0 * blocks : ℕ))

/-- The same, with a `size_t`. -/
def Ocl.emulator_trace_gen (h_fmtd16 : ℕ → PimMemTraceData) (size0 fmtd_size_per_ch block_size : ℕ) :
    (ℕ → PimMemTraceData) × ℕ :=
  (compact_traces h_fmtd16 size0 fmtd_size_per_ch block_size, uint64 (size0 * block_size))

/-- The first `blocks * size0` entries are the channels' first `size0` entries, channel by channel. -/
def Compacted (h_fmtd16 out : ℕ → PimMemTraceData) (size0 fmtd_size_per_ch blocks : ℕ) : Prop :=
  (List.range (blocks * size0)).map out =
    (List.range blocks).flatMap fun i => (List.range size0).map fun j =>
      h_fmtd16 (i * fmtd_size_per_ch + j)

/-- Both executors compact the traces, and with disjoint copies. -/
structure CompactionRight (size0 fmtd_size_per_ch blocks : ℕ) : Prop where
  hip : ∀ h_fmtd16, Compacted h_fmtd16 (Hip.trace_compaction h_fmtd16 size0 fmtd_size_per_ch blocks).1 size0
    fmtd_size_per_ch blocks
  ocl : ∀ h_fmtd16, Compacted h_fmtd16 (Ocl.emulator_trace_gen h_fmtd16 size0 fmtd_size_per_ch
    blocks).1 size0
    fmtd_size_per_ch blocks
  disjoint : ∀ c ∈ compaction_copies size0 fmtd_size_per_ch blocks, c.Disjoint

variable {size0 fmtd_size_per_ch blocks : ℕ}

theorem compact_traces_compacted (hle : size0 ≤ fmtd_size_per_ch) (h_fmtd16 : ℕ → PimMemTraceData) :
    Compacted h_fmtd16 (compact_traces h_fmtd16 size0 fmtd_size_per_ch blocks) size0
      fmtd_size_per_ch blocks := by
  rw [Compacted, flatMap_range_map blocks size0 fun i j => h_fmtd16 (i * fmtd_size_per_ch + j)]
  refine List.map_congr_left fun q hq => ?_
  have hq := List.mem_range.mp hq
  have hpos : 0 < size0 := Nat.pos_of_mul_pos_left (by omega : 0 < blocks * size0)
  have hi : q / size0 < blocks := (Nat.div_lt_iff_lt_mul hpos).mpr hq
  have hmoved := run_closing hle h_fmtd16 hi (Nat.mod_lt q hpos)
  rwa [Nat.div_add_mod'] at hmoved

/-- The traces come together whatever the sizes, but the copies are disjoint only while the second
    section is clear of its new place. -/
theorem compaction_right_iff (hle : size0 ≤ fmtd_size_per_ch) :
    CompactionRight size0 fmtd_size_per_ch blocks ↔ blocks ≤ 1 ∨ size0 = 0 ∨ 2 * size0 ≤
      fmtd_size_per_ch := by
  constructor
  · intro hright
    exact (closing_disjoint_iff hle).mp hright.disjoint
  · intro hcond
    exact ⟨compact_traces_compacted hle, compact_traces_compacted hle, (closing_disjoint_iff hle).mpr hcond⟩

/-- Half of the room for a channel. -/
theorem compaction_right_half : CompactionRight 50000 100000 64 :=
  (compaction_right_iff (by norm_num)).mpr (by norm_num)

/-- With more, the second section is copied onto a part of itself. -/
theorem compaction_overlaps : ¬ ∀ size0 fmtd_size_per_ch blocks, size0 ≤ fmtd_size_per_ch →
    CompactionRight size0 fmtd_size_per_ch blocks := by
  intro hall
  have hsecond := (hall 60000 100000 64 (by norm_num)).disjoint ⟨1 * 60000, 1 * 100000, 60000⟩
    (mem_closing.mpr ⟨1, le_refl 1, by norm_num, rfl⟩)
  revert hsecond
  decide

end PimLibrary.Emulator
