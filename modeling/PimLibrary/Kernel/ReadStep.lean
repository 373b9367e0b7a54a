import PimLibrary.Kernel.GemmLoops
import PimLibrary.Layout.Bijection
import PimLibrary.Schemes.Scatter

/-! One in-tile step of a GEMM kernel against the host's weight layout.

    In all-bank mode an access to bank 0 or 1 of bank group 0 reaches the even or odd bank of each of
    the eight PIM blocks of the channel. The weight reads of one in-tile, seen from block `b`, are the
    transactions that the host loops wrote for eight rows and eight in-groups: their addresses have the
    digits of the host's copy numbers. -/

namespace PimLibrary.Kernel
open Schemes.Word Schemes.Loop Schemes.Digits Schemes.Scatter PimLibrary.Device PimLibrary.Layout

attribute [local irreducible] int32

/-! ### The hardware -/

/-- The address in block `b` that an access to bank 0 or 1 of bank group 0 reaches: bank group `b / 2`,
    upper bank bit `b % 2`. -/
def broadcast (b : ℕ) (addr : ℤ) : ℤ := addr + ((2 ^ 14 * (b / 2) + 2 ^ 16 * (b % 2) : ℕ) : ℤ)

theorem broadcast_add (b : ℕ) (base addr : ℤ) : broadcast b (base + addr) =
    base + broadcast b addr := by
  simp only [broadcast, add_assoc]

theorem broadcast_transaction {bank : ℕ} (hbank : bank < 2) (b ch row col : ℕ) :
    broadcast b ((32 * transaction ch 0 bank row col : ℕ) : ℤ) =
      ((32 * transaction ch (b / 2) (2 * (b % 2) + bank) row col : ℕ) : ℤ) := by
  rw [broadcast, ← Nat.cast_add, Nat.cast_inj, transaction, transaction]
  have hlow : (2 * (b % 2) + bank) % 2 = bank % 2 := by omega
  have hhigh : (2 * (b % 2) + bank) / 2 % 2 = b % 2 := by omega
  have hzero : bank / 2 % 2 = 0 := by omega
  rw [hlow, hhigh, hzero]
  ring

/-! ### What the host conversion leaves where -/

/-- The source transaction that lies at each address after the copies. -/
def placedAt (copies : List Copy) : ℤ → Option ℤ :=
  scatter (fun _ => none) (copies.map fun c => (c.dst, some c.src))

theorem exists_copy_of_placedAt {copies : List Copy} {a src : ℤ} (h : placedAt copies a = some src) :
    ∃ c ∈ copies, c.dst = a ∧ c.src = src := by
  rcases scatter_cases (fun _ : ℤ => (none : Option ℤ)) (copies.map fun c => (c.dst, some c.src)) a with
    hkeep | hmem
  · rw [placedAt, hkeep] at h
    exact absurd h (by simp)
  · rw [← placedAt, h] at hmem
    obtain ⟨c, hc, heq⟩ := List.mem_map.mp hmem
    exact ⟨c, hc, (Prod.ext_iff.mp heq).1, Option.some.inj (Prod.ext_iff.mp heq).2⟩

/-- If a conversion that steps by one matrix reads the last transaction of matrix `N - 1`, that matrix
    starts below `2^31`. -/
theorem last_matrix_lt {emulator : Bool} {k Y N n : ℕ} (hk : 0 < k) (hY : 0 < Y) (hN : 0 < N)
    (hmat : 2 ^ 21 * k * Y ≤ 2 ^ 31) {c : Copy}
    (hc : c ∈ (List.range n).map (copyAt emulator k Y (2 ^ 21 * k * Y)))
    (hsrc : c.src = ((N * (2 ^ 21 * k * Y) - 32 : ℕ) : ℤ)) : (N - 1) * (2 ^ 21 * k * Y) < 2 ^ 31 := by
  obtain ⟨q, -, rfl⟩ := List.mem_map.mp hc
  rw [copyAt_src_split hmat hk hY] at hsrc
  have hin := srcIndex_lt (Nat.mod_lt (q / 32768 / (2 * k)) hY)
    (Nat.mod_lt (q / 32768) (show 0 < 2 * k by omega)) (Nat.mod_lt (q / 64) (show 0 < 512 by omega))
    (rowDigit_lt emulator q) (groupDigit_lt emulator q)
  have hoff := int32_lt ((q / 32768 / (2 * k) / Y * (2 ^ 21 * k * Y) : ℕ) : ℤ)
  have hsplit : N * (2 ^ 21 * k * Y) = (N - 1) * (2 ^ 21 * k * Y) + 2 ^ 21 * k * Y := by
    rw [← Nat.succ_mul, Nat.succ_eq_add_one, Nat.sub_add_cancel hN]
  have hsize : 2 ^ 21 * k * Y = 32 * (2 ^ 16 * (k * Y)) := by ring
  rw [hsplit] at hsrc
  generalize int32 ((q / 32768 / (2 * k) / Y * (2 ^ 21 * k * Y) : ℕ) : ℤ) = d at hsrc hoff
  generalize (N - 1) * (2 ^ 21 * k * Y) = start at *
  omega

section Placement

variable {k Y N : ℕ} (hk : 0 < k) (hY : 0 < Y) (hmat : 2 ^ 21 * k * Y ≤ 2 ^ 31)
  (hlast : (N - 1) * (2 ^ 21 * k * Y) < 2 ^ 31)
include hk hY hmat hlast

/-- While every matrix starts below `2^31`, no copy wraps. -/
theorem copyAt_exact {q : ℕ} (hq : q < 65536 * (k * (N * Y))) (emulator : Bool) :
    copyAt emulator k Y (2 ^ 21 * k * Y) q =
      ⟨((32 * target q : ℕ) : ℤ), ((32 * source emulator k q : ℕ) : ℤ)⟩ := by
  have hm : q / 32768 / (2 * k) / Y < N := by
    rw [Nat.div_div_eq_div_mul, Nat.div_div_eq_div_mul]
    exact Nat.div_lt_of_lt_mul (lt_of_lt_of_eq hq (by ring))
  have hoff : q / 32768 / (2 * k) / Y * (2 ^ 21 * k * Y) < 2 ^ 31 :=
    lt_of_le_of_lt (Nat.mul_le_mul_right _ (by omega)) hlast
  have hrow : 2 * (k * Y) ≤ 2 ^ 32 := by
    have h : 2 ^ 21 * k * Y = 2 ^ 21 * (k * Y) := by ring
    omega
  have hdst := copyAt_dst emulator hoff hrow hk hY
  have hsrc := copyAt_src emulator hoff hmat hk hY
  rcases hc : copyAt emulator k Y (2 ^ 21 * k * Y) q with ⟨dst, src⟩
  rw [hc] at hdst hsrc
  simp only at hdst hsrc
  rw [hdst, hsrc]

/-- The transaction of copy number `q` lies at its target. -/
theorem placedAt_target (emulator : Bool) {q : ℕ} (hq : q < 65536 * (k * (N * Y))) :
    placedAt ((List.range (65536 * (k * (N * Y)))).map (copyAt emulator k Y (2 ^ 21 * k * Y)))
      ((32 * target q : ℕ) : ℤ) = some ((32 * source emulator k q : ℕ) : ℤ) := by
  refine scatter_eq ?_ ?_
  · refine ⟨_, List.mem_map_of_mem (List.mem_map_of_mem (List.mem_range.mpr hq)), ?_⟩
    simp only [copyAt_exact hk hY hmat hlast hq]
  · intro w hw hwa
    simp only [List.map_map, List.mem_map, List.mem_range, Function.comp_apply] at hw
    obtain ⟨q', hq', rfl⟩ := hw
    simp only [copyAt_exact hk hY hmat hlast hq'] at hwa ⊢
    have htarget : target q' = target q := by
      have := Nat.cast_inj.mp hwa
      omega
    rw [target_inj htarget]

end Placement

/-! ### One in-tile step -/

/-- The number of the copy that a read meets: its digits, low to high, are the GRF slot, the
    accumulator, the block, the channel, the in-tile and the tile. -/
def copyNumber (k tile i_idx ch b j gidx : ℕ) : ℕ :=
  gidx + 8 * j + 64 * (8 * ch + b) + 32768 * (i_idx + 2 * k * tile)

section CopyNumber

variable {k tile i_idx ch b j gidx : ℕ} (hi : i_idx < 2 * k) (hch : ch < 64) (hb : b < 8) (hj : j < 8)
  (hg : gidx < 8)
include hi hch hb hj hg

theorem copyNumber_lt {tiles : ℕ} (ht : tile < tiles) :
    copyNumber k tile i_idx ch b j gidx < 65536 * (k * tiles) :=
  calc copyNumber k tile i_idx ch b j gidx < 32768 * (2 * k + 2 * k * tile) := by
        simp only [copyNumber]; omega
    _ = 65536 * (k * (tile + 1)) := by ring
    _ ≤ 65536 * (k * tiles) := Nat.mul_le_mul_left _ (Nat.mul_le_mul_left _ ht)

omit hi in
theorem target_copyNumber :
    target (copyNumber k tile i_idx ch b j gidx) =
      transaction ch (b / 2) (2 * (b % 2) + i_idx % 2) (2 * (i_idx / 2 + k * tile) + j / 4)
        (gidx + 8 * (j % 4)) := by
  have hpair : 2 * k * tile = 2 * (k * tile) := by ring
  simp only [target, copyNumber, hpair]
  generalize k * tile = K
  have h1 : (gidx + 8 * j + 64 * (8 * ch + b) + 32768 * (i_idx + 2 * K)) / 512 % 64 = ch := by omega
  have h2 : (gidx + 8 * j + 64 * (8 * ch + b) + 32768 * (i_idx + 2 * K)) / 128 % 4 = b / 2 := by omega
  have h3 : (gidx + 8 * j + 64 * (8 * ch + b) + 32768 * (i_idx + 2 * K)) / 64 % 2 = b % 2 := by omega
  have h4 : (gidx + 8 * j + 64 * (8 * ch + b) + 32768 * (i_idx + 2 * K)) / 32768 % 2 = i_idx % 2 := by
    omega
  have h5 : (gidx + 8 * j + 64 * (8 * ch + b) + 32768 * (i_idx + 2 * K)) / 65536 = i_idx / 2 + K := by
    omega
  have h6 : (gidx + 8 * j + 64 * (8 * ch + b) + 32768 * (i_idx + 2 * K)) / 32 % 2 = j / 4 := by omega
  have h7 : (gidx + 8 * j + 64 * (8 * ch + b) + 32768 * (i_idx + 2 * K)) % 32 = gidx + 8 * (j % 4) := by
    omega
  rw [h1, h2, h3, h4, h5, h6, h7]

theorem source_copyNumber :
    source false k (copyNumber k tile i_idx ch b j gidx) =
      (4096 * tile + (64 * ch + 8 * b + j)) * (16 * k) + (8 * i_idx + gidx) := by
  have hin : copyNumber k tile i_idx ch b j gidx / 32768 = i_idx + 2 * k * tile := by
    simp only [copyNumber]; omega
  have hblock : copyNumber k tile i_idx ch b j gidx / 64 % 512 = 8 * ch + b := by
    simp only [copyNumber]; omega
  have hrow : rowDigit false (copyNumber k tile i_idx ch b j gidx) = j := by
    simp only [rowDigit, copyNumber, Bool.false_eq_true, if_false]; omega
  have hgroup : groupDigit false (copyNumber k tile i_idx ch b j gidx) = gidx := by
    simp only [groupDigit, copyNumber, Bool.false_eq_true, if_false]; omega
  have hmod : (i_idx + 2 * k * tile) % (2 * k) = i_idx := by
    rw [Nat.add_mul_mod_self_left, Nat.mod_eq_of_lt hi]
  have hdiv : (i_idx + 2 * k * tile) / (2 * k) = tile := by
    rw [Nat.add_mul_div_left _ _ (by omega), Nat.div_eq_of_lt hi, Nat.zero_add]
  simp only [source, sourceDigits, mix, hin, hblock, hrow, hgroup, hmod, hdiv]
  ring

end CopyNumber

/-- The command that the `n`-th statement of a step is for the first thread of each pair. -/
def stepCommand (ch : ℕ) (s : Session) (bank i_idx n gidx : ℕ) : Option Cmd :=
  (mac_tile ch s bank i_idx)[n]?.map fun stmt => stmt.cmd (2 * gidx)

/-- The step's order: GRF slot `gidx` gets in-group `8 * i_idx + gidx` of the session's input row, and
    the `j`-th weight read is, in block `b`, the same in-group of row `64 * ch + 8 * b + j`. -/
structure StepOrder (placed : ℤ → Option ℤ) (held : ℕ → ℕ → ℕ) (ch : ℕ) (s : Session)
    (bank i_idx : ℕ) : Prop where
  load : ∀ gidx, gidx < 8 → stepCommand ch s bank i_idx 0 gidx =
    some (.WR .pim_ctr (addr_gen ch 0 0 bank 0x3fff (0x8 + gidx))
      (.mem .input (s.input + s.i_offset * 32 + ((32 * (8 * i_idx + gidx) : ℕ) : ℤ))))
  read : ∀ gidx, gidx < 8 → ∀ j, j < 8 → ∃ a, stepCommand ch s bank i_idx (3 + j) gidx =
    some (.R .weight a) ∧
    ∀ b, b < 8 → placed (broadcast b a) = some ((held (64 * ch + 8 * b + j) (8 * i_idx + gidx) : ℕ) : ℤ)

theorem step_load (ch : ℕ) (s : Session) (bank i_idx gidx : ℕ) :
    stepCommand ch s bank i_idx 0 gidx =
      some (.WR .pim_ctr (addr_gen ch 0 0 bank 0x3fff (0x8 + gidx))
        (.mem .input (s.input + s.i_offset * 32 + ((32 * (8 * i_idx + gidx) : ℕ) : ℤ)))) := by
  have hg : 2 * gidx / 2 = gidx := by omega
  have ho : 2 * gidx % 2 * 16 = 0 := by omega
  simp only [stepCommand, mac_tile, W_CMD_R, Kernel.gidx, offset, i_addr, hg, ho,
    List.getElem?_cons_zero, Option.map_some, Nat.cast_zero, add_zero]
  congr 3
  push_cast
  ring

theorem step_read (ch : ℕ) (s : Session) (bank i_idx gidx : ℕ) {j : ℕ} (hj : j < 8) :
    stepCommand ch s bank i_idx (3 + j) gidx = some (.R .weight (s.weight + addr_gen ch 0 0 bank
      (toUint32 (if j < 4 then even_row s i_idx else odd_row s i_idx)) (gidx + 8 * (j % 4)))) := by
  have hg : 2 * gidx / 2 = gidx := by omega
  have ho : 2 * gidx % 2 * 16 = 0 := by omega
  have hstmt : ∀ row col, (weight_read ch s bank row col).cmd (2 * gidx) =
      .R .weight (s.weight + addr_gen ch 0 0 bank (toUint32 row) (gidx + col)) := by
    intro row col
    simp only [weight_read, R_CMD, Kernel.gidx, offset, hg, ho, Nat.cast_zero, add_zero]
  interval_cases j <;>
    simp only [stepCommand, mac_tile, Nat.reduceAdd, List.getElem?_cons_succ, List.getElem?_cons_zero,
      Option.map_some, hstmt] <;> norm_num only [if_true, if_false]

theorem transaction_add_row (chan bg bank row col R : ℕ) :
    transaction chan bg bank (row + R) col = transaction chan bg bank row col + 32768 * R := by
  simp only [transaction]
  ring

/-- The row of the `j`-th read. -/
theorem read_row {s : Session} (i_idx : ℕ) {R j : ℕ} (hr : s.r_offset = (R : ℤ))
    (hsmall : 2 * (i_idx / 2 + R) + 1 < 2 ^ 31)
    (hj : j < 8) :
    toUint32 (if j < 4 then even_row s i_idx else odd_row s i_idx) = 2 * (i_idx / 2 + R) + j / 4 := by
  have heven : even_row s i_idx = ((2 * (i_idx / 2 + R) : ℕ) : ℤ) := by
    have hexact : (((i_idx / 2 : ℕ) : ℤ) + R) * 2 = ((2 * (i_idx / 2 + R) : ℕ) : ℤ) := by
      push_cast; ring
    rw [even_row, hr, hexact, int32_natCast (by omega)]
  have hodd : odd_row s i_idx = ((2 * (i_idx / 2 + R) + 1 : ℕ) : ℤ) := by
    rw [odd_row, heven, ← Nat.cast_one, ← Nat.cast_add, int32_natCast hsmall]
  split_ifs with h
  · rw [heven, toUint32_natCast (by omega), Nat.div_eq_of_lt h, Nat.add_zero]
  · rw [hodd, toUint32_natCast (by omega), show j / 4 = 1 by omega]

/-- A step of a session that works on matrix `m` and tile `o` of it, over an exact placement. -/
theorem stepOrder_of {placed : ℤ → Option ℤ} {held : ℕ → ℕ → ℕ} {s : Session} {k Y N m o ch i_idx : ℕ}
    (hweight : s.weight = ((m * (2 ^ 21 * k * Y) : ℕ) : ℤ)) (hr : s.r_offset = ((k * o : ℕ) : ℤ))
    (hplaced : ∀ q, q < 65536 * (k * (N * Y)) →
      placed ((32 * target q : ℕ) : ℤ) = some ((32 * source false k q : ℕ) : ℤ))
    (hheld : ∀ row group, held row group = 32 * ((4096 * (m * Y + o) + row) * (16 * k) + group))
    (hsmall : 2 * (k * Y) < 2 ^ 31) (hm : m < N) (ho : o < Y) (hch : ch < 64) (hi : i_idx < 2 * k) :
    StepOrder placed held ch s (i_idx % 2) i_idx where
  load := fun gidx _ => step_load ch s (i_idx % 2) i_idx gidx
  read := by
    intro gidx hg j hj
    refine ⟨_, step_read ch s (i_idx % 2) i_idx gidx hj, fun b hb => ?_⟩
    have htile : m * Y + o < N * Y :=
      calc m * Y + o < m * Y + Y := by omega
        _ = (m + 1) * Y := by ring
        _ ≤ N * Y := Nat.mul_le_mul_right _ hm
    have hko : k * o + k ≤ k * Y :=
      calc k * o + k = k * (o + 1) := by ring
        _ ≤ k * Y := Nat.mul_le_mul_left _ ho
    have hrow := read_row i_idx hr (by omega) hj
    have htarget := @target_copyNumber k (m * Y + o) i_idx _ _ _ _ hch hb hj hg
    have hsplit : 2 * (i_idx / 2 + k * (m * Y + o)) + j / 4 =
        2 * (i_idx / 2 + k * o) + j / 4 + 2 * (k * (m * Y)) := by ring
    rw [hsplit, transaction_add_row] at htarget
    have haddr : broadcast b (s.weight + addr_gen ch 0 0 (i_idx % 2)
        (toUint32 (if j < 4 then even_row s i_idx else odd_row s i_idx)) (gidx + 8 * (j % 4))) =
        ((32 * target (copyNumber k (m * Y + o) i_idx ch b j gidx) : ℕ) : ℤ) := by
      rw [hrow, addr_gen_eq _ _ _ _ _ (by norm_num) (by omega), broadcast_add,
        broadcast_transaction (by omega), hweight, htarget]
      push_cast
      ring
    rw [haddr, hplaced _ (copyNumber_lt hi hch hb hj hg htile),
      source_copyNumber hi hch hb hj hg, hheld]

end PimLibrary.Kernel
