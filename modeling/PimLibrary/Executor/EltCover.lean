import PimLibrary.Executor.EltTiles
import PimLibrary.Kernel.ReadStep
import PimLibrary.Kernel.Unrolled

/-! The bytes that one tile of an element-wise launch writes.

    A thread names one 16-byte chunk in an even and one in an odd bank of bank group 0; in all-bank mode
    the access acts in the four bank groups and both upper banks at once. The fields of the address that
    the threads, the broadcast and the column count leave free are exactly the low 18 bits. -/

namespace PimLibrary.Executor
open Schemes.Word Schemes.Loop PimLibrary.Device PimLibrary.Kernel

/-! ### The accesses of a tile -/

/-- The addresses in `output` that the commands write. -/
def writesTo (buf : Buf) (cmds : List Cmd) : List ℤ :=
  cmds.filterMap fun
    | .W b addr => if b = buf then some addr else none
    | _ => none

def readsFrom (buf : Buf) (cmds : List Cmd) : List ℤ :=
  cmds.filterMap fun
    | .R b addr => if b = buf then some addr else none
    | _ => none

/-- `addr_even` and `addr_odd` of one thread, with its offset. -/
def elt_addrs (ch tile_idx t : ℕ) : List ℤ :=
  [addr_even ch tile_idx t + offset t, addr_even ch tile_idx t + offset t + 0x2000]

/-- A block, a thread, the even or the odd address, and one of the eight banks that it is broadcast
    to. -/
abbrev EltAccess : Type := Fin 64 × Fin 16 × Fin 2 × Fin 8

/-- The address of the 16-byte chunk that the access reaches. -/
def EltAccess.chunk (tile_idx : ℕ) : EltAccess → ℤ
  | (ch, t, odd, b) => broadcast b (addr_even ch tile_idx t + offset t + 0x2000 * odd)

/-- The chunks of a tile, by address. -/
def tileChunks (tile_idx : ℕ) : Set ℤ :=
  {a | 16 ∣ a ∧ tile_idx * 2 ^ 18 ≤ a ∧ a < (tile_idx + 1) * 2 ^ 18}

/-- The tile is a round of the launch; its threads write and read at the two addresses only, and
    with the broadcast these are all chunks of the tile, each once. -/
structure TileCovered (num_tile : ℤ) (tile_idx : ℕ) : Prop where
  round : ∀ ch, elt_op_tile ch tile_idx <:+: elt_op_pim num_tile ch
  writes : ∀ ch t, t < 16 → (writesTo .output (threadCmds t (elt_op_tile ch tile_idx))).dedup =
    elt_addrs ch tile_idx t
  reads : ∀ ch t, t < 16 → readsFrom .operand0 (threadCmds t (elt_op_tile ch tile_idx)) =
    elt_addrs ch tile_idx t ∧
    readsFrom .operand1 (threadCmds t (elt_op_tile ch tile_idx)) = elt_addrs ch tile_idx t
  cover : Set.BijOn (EltAccess.chunk tile_idx) Set.univ (tileChunks tile_idx)

/-! ### The chunks -/

/-- The chunk is half a transaction, whose row and column are those of the thread. -/
theorem chunk_eq {tile_idx : ℕ} (htile : tile_idx < 2 ^ 16) (ch : Fin 64) (t : Fin 16) (odd : Fin 2)
    (b : Fin 8) :
    EltAccess.chunk tile_idx (ch, t, odd, b) = ((16 * (2 * transaction ch (b / 2) (2 * (b % 2) + odd)
      ((tile_idx * 8 + t / 2) / 32) ((tile_idx * 8 + t / 2) % 32) + t % 2) : ℕ) : ℤ) := by
  have ht := t.isLt
  have heven : addr_even ch tile_idx t = ((32 * transaction ch 0 0 ((tile_idx * 8 + t / 2) / 32)
      ((tile_idx * 8 + t / 2) % 32) : ℕ) : ℤ) := by
    rw [addr_even_eq, tile_addr_eq _ _ _ _ (by norm_num), gidx, uint32_of_lt (by omega)]
  have hodd := odd.isLt
  have hbank : (2 * ((b : ℕ) % 2) + odd) % 2 = odd ∧ (2 * ((b : ℕ) % 2) + odd) / 2 % 2 =
    b % 2 := by omega
  simp only [EltAccess.chunk, heven, broadcast, offset, transaction, hbank]
  push_cast
  omega

/-- The tile of a transaction is the tile of its row and column. -/
theorem transaction_tile (ch bank row : ℕ) {bg col : ℕ} (hg : bg < 4) (hk : col < 32) :
    transaction ch bg bank row col / 8192 = (32 * row + col) / 8 := by
  have hlow : col % 2 + 2 * (ch % 2) + 4 * (col / 2 % 2) + 8 * (ch / 2 % 32) + 256 * (bank % 2) +
    512 * bg +
      2048 * (bank / 2 % 2) < 4096 := by
    omega
  rw [transaction]
  generalize col % 2 + 2 * (ch % 2) + 4 * (col / 2 % 2) + 8 * (ch / 2 % 32) + 256 * (bank % 2) +
    512 * bg +
    2048 * (bank / 2 % 2) = low at hlow
  omega

theorem chunk_mapsTo {tile_idx : ℕ} (htile : tile_idx < 2 ^ 16) :
    Set.MapsTo (EltAccess.chunk tile_idx) Set.univ (tileChunks tile_idx) := by
  rintro ⟨ch, t, odd, b⟩ -
  have ht := t.isLt
  have hb := b.isLt
  rw [chunk_eq htile]
  have hcell := transaction_tile ch (2 * (b % 2) + odd) ((tile_idx * 8 + t / 2) / 32)
    (by omega : (b : ℕ) / 2 < 4) (Nat.mod_lt (tile_idx * 8 + t / 2) (by norm_num : 0 < 32))
  rw [Nat.div_add_mod] at hcell
  generalize transaction ch (b / 2) (2 * (b % 2) + odd) ((tile_idx * 8 + t / 2) / 32)
    ((tile_idx * 8 + t / 2) % 32) = u at hcell
  have htile' : (tile_idx * 8 + (t : ℕ) / 2) / 8 = tile_idx := by omega
  refine ⟨⟨((2 * u + t % 2 : ℕ) : ℤ), by push_cast; ring⟩, ?_, ?_⟩ <;> omega

theorem chunk_injOn {tile_idx : ℕ} (htile : tile_idx < 2 ^ 16) :
    Set.InjOn (EltAccess.chunk tile_idx) Set.univ := by
  rintro ⟨ch, t, odd, b⟩ - ⟨ch', t', odd', b'⟩ - heq
  have ht := t.isLt
  have ht' := t'.isLt
  have hodd := odd.isLt
  have hodd' := odd'.isLt
  have hb := b.isLt
  have hb' := b'.isLt
  rw [chunk_eq htile, chunk_eq htile, Nat.cast_inj] at heq
  obtain ⟨htrans, hhalf⟩ : transaction ch (b / 2) (2 * (b % 2) + odd) ((tile_idx * 8 + t / 2) / 32)
        ((tile_idx * 8 + t / 2) % 32) = transaction ch' (b' / 2) (2 * (b' % 2) + odd')
        ((tile_idx * 8 + t' / 2) / 32) ((tile_idx * 8 + t' / 2) % 32) ∧ (t : ℕ) % 2 = t' % 2 := by
    omega
  obtain ⟨hch, hbg, hbank, hrow, hcol⟩ := transaction_inj ch.isLt (by omega) (by omega)
    (Nat.mod_lt _ (by norm_num)) ch'.isLt (by omega) (by omega) (Nat.mod_lt _ (by norm_num)) htrans
  have hthread : (t : ℕ) = t' := by omega
  have hblock : (b : ℕ) = b' := by omega
  have hside : (odd : ℕ) = odd' := by omega
  simp only [Prod.mk.injEq, Fin.ext_iff]
  exact ⟨hch, hthread, hside, hblock⟩

theorem chunk_surjOn {tile_idx : ℕ} (htile : tile_idx < 2 ^ 16) :
    Set.SurjOn (EltAccess.chunk tile_idx) Set.univ (tileChunks tile_idx) := by
  rintro a ⟨⟨k, rfl⟩, hlo, hhi⟩
  obtain ⟨n, rfl⟩ := Int.eq_ofNat_of_zero_le (by omega : 0 ≤ k)
  obtain ⟨chan, bg, bank, row, col, hc, hg, hb, -, hk, htrans⟩ :=
    transaction_surj (R := 2 ^ 14) (t := n / 2) (by omega)
  have hcell := transaction_tile chan bank row hg hk
  -- the thread is what the tile leaves of the row and column, and the half
  have hrange : tile_idx * 8 ≤ 32 * row + col ∧ 32 * row + col < tile_idx * 8 + 8 := by
    rw [htrans] at hcell
    omega
  refine ⟨(⟨chan, hc⟩, ⟨2 * (32 * row + col - tile_idx * 8) + n % 2, by omega⟩, ⟨bank % 2, by omega⟩,
    ⟨2 * bg + bank / 2, by omega⟩), trivial, ?_⟩
  have hrow : tile_idx * 8 + (2 * (32 * row + col - tile_idx * 8) + n % 2) / 2 =
    32 * row + col := by omega
  have hrow' : (32 * row + col) / 32 = row ∧ (32 * row + col) % 32 = col := by omega
  have hgroup : (2 * bg + bank / 2) / 2 = bg ∧ 2 * ((2 * bg + bank / 2) % 2) + bank % 2 =
    bank := by omega
  have hhalf : (2 * (32 * row + col - tile_idx * 8) + n % 2) % 2 = n % 2 := by omega
  rw [chunk_eq htile]
  simp only [hrow, hrow', hgroup, hhalf, htrans]
  push_cast
  omega

/-! ### The commands -/

/-- One round of the loop is part of the kernel. -/
theorem elt_op_tile_round {num_tile : ℤ} {tile_idx : ℕ} (ht : (tile_idx : ℤ) < num_tile) (ch : ℕ) :
    elt_op_tile ch tile_idx <:+: elt_op_pim num_tile ch := by
  have hmem : tile_idx ∈ forRange num_tile 1 := by
    rw [Kernel.forRange_one, List.mem_range]
    omega
  obtain ⟨pre, post, hloop⟩ := List.append_of_mem hmem
  refine ⟨park_in ch 32 ++ (change_sb_hab ch 2 ++ program_crf ch 2 ++ change_hab_habpim ch 2 ++
    [B_CMD 2 1]) ++
    pre.flatMap (elt_op_tile ch), post.flatMap (elt_op_tile ch) ++ leave_pim ch, ?_⟩
  simp [elt_op_pim, crf_kernel, hloop]

/-- For every tile of a launch, the writes of all blocks and threads cover the tile. -/
theorem elt_tile_covered (num_tile : ℤ) (hnum : num_tile ≤ 2 ^ 16) (tile_idx : ℕ)
    (htile : (tile_idx : ℤ) < num_tile) :
    TileCovered num_tile tile_idx := by
  have hlt : tile_idx < 2 ^ 16 := by omega
  have hodd : ∀ ch t, addr_odd ch tile_idx t + offset t = addr_even ch tile_idx t +
      offset t + 0x2000 := by
    intro ch t
    rw [addr_odd]
    ring
  refine ⟨elt_op_tile_round htile, ?_, ?_, chunk_mapsTo hlt, chunk_injOn hlt, chunk_surjOn hlt⟩
  · intro ch t ht
    simp [elt_op_tile, threadCmds, writesTo, R_CMD, W_CMD, B_CMD, ht, hodd, elt_addrs]
  · intro ch t ht
    constructor <;> simp [elt_op_tile, threadCmds, readsFrom, R_CMD, W_CMD, B_CMD, ht, hodd, elt_addrs]

theorem elt_tile_covered_last : TileCovered 65536 65535 :=
  elt_tile_covered 65536 (by norm_num) 65535 (by norm_num)

end PimLibrary.Executor
