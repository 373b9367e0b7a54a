import PimLibrary.Kernel.PartialSums
import PimLibrary.Kernel.TileAccounting

/-! What the channel-wise kernel stores where.

    Sessions of one iteration share the input pointer and the accumulator cells, and the summation of
    one iteration stores to one place a thread, for every input row. So each product of a row and a
    matrix has a slot of its own exactly when there is one input row. -/

namespace PimLibrary.Kernel
open Schemes.Word Schemes.Loop PimLibrary.Device PimLibrary.Layout

attribute [local irreducible] int32

/-- One of the session's accumulators is written to the address. -/
def writes (ch : ℕ) (s : Session) (addr : ℤ) : Bool :=
  (List.range 8).any fun b => (List.range 8).any fun j => broadcast b (partial_addr ch s j) = addr

/-- What the thread sums is what its own accumulator held in the last session that wrote the cell, and
    that session multiplied weight tile `i` by input row `r` of matrix `m`. -/
def SumOf (g : ChwiseGemm) (by_zero : ByZero) (p : GemmLaunch) (ch tid : ℕ) (step : ReduceStep) (i m r : ℕ) : Prop :=
  ∃ sessions s, chwise_sessions p by_zero ch = some sessions ∧
    sessions.reverse.find? (fun s => writes ch s (2 * step.cell)) = some s ∧
    2 * step.cell = broadcast (tid / 8) (partial_addr ch s (tid % 8)) ∧ Feeds g s i m r

/-- The output indices that all threads store to, block by block. -/
def chwise_stores (p : GemmLaunch) : List ℤ :=
  (List.range 64).flatMap fun ch => (List.range 64).flatMap fun tid =>
    (chwise_reduce p ch tid).map ReduceStep.out

/-- Every output index is stored once, with the sum of its input row and weight row. -/
structure ChwiseOutputs (g : ChwiseGemm) (by_zero : ByZero) (p : GemmLaunch) : Prop where
  stores : (chwise_stores p).Perm
    ((List.range (matrices g.weight * g.inout_h.toNat * g.out_w.toNat)).map Nat.cast)
  sums : ∀ m, m < matrices g.weight → ∀ r, r < g.inout_h.toNat → ∀ k, k < g.out_w.toNat →
    ∃ step ∈ chwise_reduce p ((m * g.out_w.toNat + k) % 4096 / 64) ((m * g.out_w.toNat + k) % 64),
      step.out = (((m * g.inout_h.toNat + r) * g.out_w.toNat + k : ℕ) : ℤ) ∧
      SumOf g by_zero p ((m * g.out_w.toNat + k) % 4096 / 64) ((m * g.out_w.toNat + k) % 64) step
        ((m * g.out_w.toNat + k) / 4096) m r

/-! ### Stores and cells of an iteration -/

theorem chwise_reduce_out (p : GemmLaunch) (ch tid : ℕ) : (chwise_reduce p ch tid).map ReduceStep.out =
    (List.range p.iter_cnt.toNat).flatMap fun i => (List.range p.inout_h.toNat).map fun _ =>
      ((i * 4096 + (ch * 64 + tid) : ℕ) : ℤ) := by
  rw [chwise_reduce_eq, List.map_flatMap]
  refine List.flatMap_congr fun i _ => ?_
  rw [List.map_map]
  refine List.map_congr_left fun r _ => ?_
  simp only [Function.comp_def, chwise_reduce_step]
  omega

/-- With one input row there is one store an iteration. -/
theorem chwise_stores_eq {p : GemmLaunch} (hone : p.inout_h.toNat = 1) :
    chwise_stores p = threadStores p.iter_cnt.toNat := by
  refine List.flatMap_congr fun ch _ => List.flatMap_congr fun tid _ => ?_
  rw [chwise_reduce_out, hone, List.map_eq_flatMap]
  rfl

theorem length_chwise_stores (p : GemmLaunch) :
    (chwise_stores p).length = 4096 * (p.iter_cnt.toNat * p.inout_h.toNat) := by
  have hthread : ∀ ch tid, ((chwise_reduce p ch tid).map ReduceStep.out).length =
      p.iter_cnt.toNat * p.inout_h.toNat := by
    intro ch tid
    rw [chwise_reduce_out, length_flatMap_const (c := p.inout_h.toNat) (fun i _ => by simp),
      List.length_range]
  have hblock : ∀ ch, ((List.range 64).flatMap fun tid =>
    (chwise_reduce p ch tid).map ReduceStep.out).length =
      64 * (p.iter_cnt.toNat * p.inout_h.toNat) := by
    intro ch
    rw [length_flatMap_const fun tid _ => hthread ch tid, List.length_range]
  rw [chwise_stores, length_flatMap_const fun ch _ => hblock ch, List.length_range]
  ring

/-- Storing twice for two input rows is storing twice to one place. -/
theorem inout_h_le_one {p : GemmLaunch} (hnd : (chwise_stores p).Nodup) (hiter : 0 < p.iter_cnt.toNat) :
    p.inout_h.toNat ≤ 1 := by
  have hthread := (List.nodup_flatMap.mp ((List.nodup_flatMap.mp hnd).1 0 (by simp))).1 0 (by simp)
  rw [chwise_reduce_out] at hthread
  have hrows := (List.nodup_flatMap.mp hthread).1 0 (List.mem_range.mpr hiter)
  by_contra hmany
  have h01 := (List.nodup_map_iff_inj_on List.nodup_range).mp hrows 0 (List.mem_range.mpr (by omega)) 1
    (List.mem_range.mpr (by omega)) rfl
  omega

theorem chwise_cell {ch tid i : ℕ} (htid : tid < 64) :
    2 * (chwise_reduce_step ch tid ⟨(i : ℤ) * 8192, (i : ℤ) * 2 ^ 18⟩).cell =
      ((2 ^ 18 * i + addr_gen ch 0 (tid / 16) (tid / 8 % 2 * 2 + 1) 0 (tid % 8) : ℕ) : ℤ) := by
  obtain ⟨hdvd, -⟩ :=
    addr_gen_chunk ch (tid / 16) (tid / 8 % 2 * 2 + 1) (by omega) (Nat.mod_lt tid (by norm_num))
  simp only [chwise_reduce_step]
  generalize addr_gen ch 0 (tid / 16) (tid / 8 % 2 * 2 + 1) 0 (tid % 8) = a at hdvd
  omega

/-- The cell that a thread sums is the one its own accumulator was written to. -/
theorem chwise_cell_eq (p : GemmLaunch) (input : ℤ) {ch tid i : ℕ} (htid : tid < 64) :
    2 * (chwise_reduce_step ch tid ⟨(i : ℤ) * 8192, (i : ℤ) * 2 ^ 18⟩).cell =
      broadcast (tid / 8) (partial_addr ch (chwise_session (chwise_state p input i)) (tid % 8)) := by
  have hgroup : tid / 8 / 2 = tid / 16 := by omega
  have hbank : 2 * (tid / 8 % 2) + 1 = tid / 8 % 2 * 2 + 1 := by omega
  rw [ChwiseGemm.chwise_partial_addr p input ch i (Nat.mod_lt tid (by norm_num)),
    broadcast_chunk ch i _ (by omega), hgroup, hbank, chwise_cell htid]

/-- Only the sessions of an iteration write the cells that it sums. -/
theorem writes_iff (p : GemmLaunch) (input : ℤ) {ch tid i i' : ℕ} (htid : tid < 64) :
    writes ch (chwise_session (chwise_state p input i))
      (2 * (chwise_reduce_step ch tid ⟨(i' : ℤ) * 8192, (i' : ℤ) * 2 ^ 18⟩).cell) = true ↔ i = i' := by
  simp only [writes, List.any_eq_true, List.mem_range, decide_eq_true_eq]
  constructor
  · rintro ⟨b, hb, j, hj, heq⟩
    obtain ⟨-, hlt⟩ := addr_gen_chunk ch (b / 2) (2 * (b % 2) + 1) (by omega) hj
    obtain ⟨-, hlt'⟩ := addr_gen_chunk ch (tid / 16) (tid / 8 % 2 * 2 + 1) (by omega)
      (Nat.mod_lt tid (by norm_num))
    rw [ChwiseGemm.chwise_partial_addr p input ch i hj, broadcast_chunk ch i _ hb, chwise_cell htid,
      Nat.cast_inj] at heq
    omega
  · rintro rfl
    exact ⟨tid / 8, by omega, tid % 8, Nat.mod_lt _ (by norm_num), (chwise_cell_eq p input htid).symm⟩

theorem toNat_int32_le (n : ℕ) : (int32 (n : ℤ)).toNat ≤ n :=
  Int.toNat_le.mpr (int32_le_self (Int.natCast_nonneg n))

theorem find?_reverse_map_range {α : Type*} {f : ℕ → α} {P : α → Bool} {n i : ℕ}
    (h : ∀ j, P (f j) = true ↔ j = i) (hi : i < n) : ((List.range n).map f).reverse.find? P =
      some (f i) := by
  have hsome : (((List.range n).map f).reverse.find? P).isSome := by
    rw [List.find?_isSome]
    exact ⟨f i, by simpa using ⟨i, hi, rfl⟩, (h i).mpr rfl⟩
  obtain ⟨a, ha⟩ := Option.isSome_iff_exists.mp hsome
  have hmem := List.mem_of_find?_eq_some ha
  rw [List.mem_reverse] at hmem
  obtain ⟨j, -, rfl⟩ := List.mem_map.mp hmem
  have hj := (h j).mp (List.find?_some ha)
  rw [ha, hj]

namespace ChwiseGemm

variable {g : ChwiseGemm}

/-- Nothing to multiply, or one input row and every count and offset inside its type. -/
def OutputsFit (g : ChwiseGemm) : Prop :=
  matrices g.weight = 0 ∨ g.inout_h.toNat = 1 ∧ matrices g.weight < 2 ^ 32 ∧
    (4096 / g.out_w.toNat - 1) * (g.in_w.toNat * 2) < 2 ^ 32 ∧
      (1 < g.tiles → g.in_w.toNat * 8192 < 2 ^ 31)

section Launch

variable {by_zero : ByZero} {p : GemmLaunch} (hp : g.launch = some p)
include hp

/-- The sessions of a channel when there is one input row. -/
theorem sessions_of_one_row (hone : p.inout_h.toNat = 1) {ch : ℕ} {sessions : List Session}
    (hs : chwise_sessions p by_zero ch = some sessions) : ∃ input : ℤ,
      sessions = (List.range p.iter_cnt.toNat).map fun i =>
        chwise_session (chwise_state p input i) := by
  obtain ⟨input, hlist⟩ := sessions_of_launch hp by_zero ch
  obtain rfl := Option.some.inj (hs.symm.trans hlist)
  have hiter : p.iter_cnt.toNat = g.iterations := by rw [(launch_eq hp).1]; rfl
  exact ⟨input, by rw [hone, hiter, List.map_eq_flatMap]; rfl⟩

/-- With one input row and exact feeds, every output gets the sum of its row. -/
theorem sums_of_feeds (hone : p.inout_h.toNat = 1) (hiter : p.iter_cnt = (g.tiles : ℤ))
    {m k : ℕ} (hm : m < matrices g.weight) (hk : k < g.out_w.toNat)
    (hfeeds : ∀ ch, ch < 64 → ∃ sessions, chwise_sessions p by_zero ch = some sessions ∧ ∀ i, i < g.tiles →
      ∃ s, sessions[i]? = some s ∧ ∀ l, l < 64 →
        Feeds g s i ((4096 * i + 64 * ch + l) / g.out_w.toNat) 0) :
    ∃ step ∈ chwise_reduce p ((m * g.out_w.toNat + k) % 4096 / 64) ((m * g.out_w.toNat + k) % 64),
      step.out = ((m * g.out_w.toNat + k : ℕ) : ℤ) ∧
      SumOf g by_zero p ((m * g.out_w.toNat + k) % 4096 / 64) ((m * g.out_w.toNat + k) % 64) step
        ((m * g.out_w.toNat + k) / 4096) m 0 := by
  have hrow : m * g.out_w.toNat + k < 4096 * g.tiles := by
    rw [← g.rows_eq]
    calc m * g.out_w.toNat + k < m * g.out_w.toNat + g.out_w.toNat := by omega
      _ = (m + 1) * g.out_w.toNat := by ring
      _ ≤ matrices g.weight * g.out_w.toNat := Nat.mul_le_mul_right _ hm
  have hmatrix : (m * g.out_w.toNat + k) / g.out_w.toNat = m := by
    rw [Nat.mul_comm, Nat.mul_add_div (by omega), Nat.div_eq_of_lt hk, Nat.add_zero]
  generalize m * g.out_w.toNat + k = R at hrow hmatrix
  have hch : R % 4096 / 64 < 64 := by omega
  have htid : R % 64 < 64 := by omega
  have hi : R / 4096 < g.tiles := by omega
  have hsplit : 4096 * (R / 4096) + 64 * (R % 4096 / 64) + R % 64 = R := by omega
  have hcount : p.iter_cnt.toNat = g.tiles := by rw [hiter, Int.toNat_natCast]
  obtain ⟨sessions, hs, hat⟩ := hfeeds _ hch
  obtain ⟨s, hget, hfeed⟩ := hat _ hi
  obtain ⟨input, rfl⟩ := sessions_of_one_row hp hone hs
  rw [List.getElem?_map, List.getElem?_range (by omega), Option.map_some, Option.some.injEq] at hget
  subst hget
  have hrowfeed := hfeed _ htid
  rw [hsplit, hmatrix] at hrowfeed
  refine ⟨chwise_reduce_step (R % 4096 / 64) (R % 64) ⟨((R / 4096 : ℕ) : ℤ) * 8192,
    ((R / 4096 : ℕ) : ℤ) * 2 ^ 18⟩, ?_, ?_, _, _, hs,
      find?_reverse_map_range (fun j => writes_iff p input htid) (by omega),
    chwise_cell_eq p input htid, hrowfeed⟩
  · rw [chwise_reduce_eq, hone, hcount]
    simp only [List.mem_flatMap, List.mem_map, List.mem_range]
    exact ⟨_, hi, 0, by norm_num, rfl⟩
  · simp only [chwise_reduce_step]
    omega

/-- One input row and as many iterations as tiles, from the stores alone. -/
theorem outputs_rows (hsome : 0 < g.tiles) (h : ChwiseOutputs g by_zero p) :
    g.inout_h.toNat = 1 ∧ p.inout_h.toNat = 1 ∧ p.iter_cnt.toNat = g.tiles := by
  have hlen := h.stores.length_eq
  rw [length_chwise_stores, List.length_map, List.length_range, Nat.mul_right_comm, g.rows_eq,
    Nat.mul_assoc] at hlen
  have hprod : p.iter_cnt.toNat * p.inout_h.toNat = g.tiles * g.inout_h.toNat :=
    Nat.eq_of_mul_eq_mul_left (by norm_num) hlen
  have hpos : 0 < p.iter_cnt.toNat * p.inout_h.toNat := by
    rw [hprod]; exact Nat.mul_pos hsome g.inout_h_pos
  have hnd : (chwise_stores p).Nodup := by
    refine h.stores.nodup_iff.mpr (List.nodup_range.map ?_)
    exact Nat.cast_injective
  have hone : p.inout_h.toNat = 1 := by
    have hle := inout_h_le_one hnd (Nat.pos_of_mul_pos_right hpos)
    have := Nat.pos_of_mul_pos_left hpos
    omega
  have hrows : g.inout_h.toNat = 1 := by
    have hlaunch := (launch_eq hp).2.1
    have hlt := g.inout_h.toNat_lt
    rw [hlaunch] at hone
    rcases Nat.lt_or_ge g.inout_h.toNat (2 ^ 31) with hsmall | hlarge
    · rwa [int32_natCast hsmall, Int.toNat_natCast] at hone
    · have hneg : int32 (g.inout_h.toNat : ℤ) < 0 := int32_neg (by omega) (by omega)
      omega
  refine ⟨hrows, hone, ?_⟩
  rw [hone, hrows, Nat.mul_one, Nat.mul_one] at hprod
  exact hprod

/-- What the session of a row's tile works on, as the kernel computes it and exactly. -/
theorem outputs_feeds (hlo : 64 ≤ g.out_w.toNat) (hrows : g.inout_h.toNat = 1)
    (hone : p.inout_h.toNat = 1)
    (h : ChwiseOutputs g by_zero p) {R : ℕ} (hR : R < 4096 * g.tiles) :
    ((R / 4096 : ℕ) : ℤ) * int32 ((g.in_w.toNat * 8192 : ℕ) : ℤ) =
      ((R / 4096 * (g.in_w.toNat * 8192) : ℕ) : ℤ) ∧
      (uint32 (R % 4096 / 64 / (64 / (4096 / g.out_w.toNat)) * (g.in_w.toNat * 2)) : ℤ) +
        ((R / 4096 : ℕ) : ℤ) * int32 ((4096 / g.out_w.toNat * (g.in_w.toNat * 2) : ℕ) : ℤ) =
      ((R / g.out_w.toNat * g.in_w.toNat * 2 : ℕ) : ℤ) := by
  obtain ⟨-, hpos⟩ := out_w_of_launch hp
  have hR_eq : R / g.out_w.toNat * g.out_w.toNat + R % g.out_w.toNat = R := Nat.div_add_mod' _ _
  have hm : R / g.out_w.toNat < matrices g.weight :=
    Nat.div_lt_of_lt_mul (by rw [Nat.mul_comm, g.rows_eq]; exact hR)
  obtain ⟨step, hstep, hout, sessions, s, hs, hfind, -, hweight, hinput⟩ :=
    h.sums _ hm 0 g.inout_h_pos _ (Nat.mod_lt R hpos)
  rw [hR_eq] at hstep hs hfind hweight
  rw [hrows, Nat.mul_one, Nat.add_zero] at hout hinput
  rw [hR_eq] at hout
  -- the step is the one of the row's tile
  rw [chwise_reduce_eq, hone] at hstep
  simp only [List.mem_flatMap, List.mem_map, List.mem_range] at hstep
  obtain ⟨i, hi, -, -, rfl⟩ := hstep
  have htile : i = R / 4096 := by
    simp only [chwise_reduce_step] at hout
    omega
  subst htile
  -- and so is the session that wrote its cell
  have hpack : 4096 / g.out_w.toNat ≤ 64 := Nat.div_le_of_le_mul (by omega)
  have hpack' : 0 < 4096 / g.out_w.toNat := Nat.div_pos (le_of_lt g.out_w_lt) hpos
  obtain ⟨sessions', hs', -, hat⟩ := sessions_at hp by_zero (R % 4096 / 64)
  obtain rfl : sessions = sessions' := Option.some.inj (hs.symm.trans hs')
  obtain ⟨s', hget, -, hweight', hinput'⟩ := hat _ hi 0 (by omega)
  obtain ⟨input, rfl⟩ := sessions_of_one_row hp hone hs
  have hlast : ((List.range p.iter_cnt.toNat).map fun i =>
    chwise_session (chwise_state p input i)).reverse.find?
      (fun s => writes (R % 4096 / 64) s
        (2 * (chwise_reduce_step (R % 4096 / 64) (R % 64) ⟨((R / 4096 : ℕ) : ℤ) * 8192,
          ((R / 4096 : ℕ) : ℤ) * 2 ^ 18⟩).cell)) =
      some (chwise_session (chwise_state p input (R / 4096))) :=
    find?_reverse_map_range (fun j => writes_iff p input (Nat.mod_lt R (by norm_num))) hi
  rw [hfind, Option.some.injEq] at hlast
  rw [hone, Nat.mul_one, Nat.add_zero, List.getElem?_map, List.getElem?_range hi, Option.map_some, ← hlast,
    Option.some.injEq] at hget
  subst hget
  exact ⟨hweight'.symm.trans hweight, (hinput' (Nat.div_pos hpack hpack')).symm.trans hinput⟩

theorem fits_of_outputs (hlo : 64 ≤ g.out_w.toNat) (hdvd : g.out_w.toNat ∣ 4096)
    (h : ChwiseOutputs g by_zero p) :
    g.OutputsFit := by
  have htiles := g.rows_eq
  rcases Nat.eq_zero_or_pos (matrices g.weight) with hzero | hmat
  · exact Or.inl hzero
  right
  have hsome : 0 < g.tiles := by
    have : 0 < matrices g.weight * g.out_w.toNat := Nat.mul_pos hmat (by omega)
    omega
  obtain ⟨hrows, hone, hiter⟩ := outputs_rows hp hsome h
  obtain ⟨q, k, hw, hqk, hk, hq⟩ := packing hlo hdvd
  have hmul := packed_tiles hw hqk
  have hk0 : 0 < k := by
    rcases Nat.eq_zero_or_pos k with rfl | hpos <;> omega
  refine ⟨hrows, ?_, ?_, fun htwo => ?_⟩
  · -- the executor's count would miss matrices
    rw [(launch_eq hp).1, hk] at hiter
    have hle : g.tiles ≤ uint32 (matrices g.weight) / k := hiter ▸ toNat_int32_le _
    have hlt := uint32_lt (matrices g.weight)
    have hback : k * g.tiles ≤ uint32 (matrices g.weight) := by
      rw [Nat.mul_comm]; exact (Nat.le_div_iff_mul_le hk0).mp hle
    omega
  · obtain ⟨-, hlast⟩ := outputs_feeds hp hlo hrows hone h (R := 64 * 63) (by omega)
    have htile : 64 * 63 / 4096 = 0 := by norm_num
    have hch : 64 * 63 % 4096 / 64 = 63 := by norm_num
    have hrow : 64 * 63 / g.out_w.toNat = k - 1 := by
      rw [hw, Nat.mul_div_mul_left _ _ (by norm_num), last_channel hqk]
    rw [htile, hch, hrow, hk, hq, last_channel hqk, Nat.cast_zero, zero_mul, add_zero, Nat.cast_inj,
      Nat.mul_assoc] at hlast
    rw [hk]
    exact uint32_eq_self_iff.mp hlast
  · obtain ⟨hstep, -⟩ := outputs_feeds hp hlo hrows hone h (R := 4096) (by omega)
    rw [Nat.div_self (by norm_num), Nat.cast_one, one_mul, one_mul] at hstep
    have hlt := int32_lt ((g.in_w.toNat * 8192 : ℕ) : ℤ)
    rw [hstep] at hlt
    exact_mod_cast hlt

end Launch

theorem OutputsFit.outputs (hf : g.OutputsFit) (hlo : 64 ≤ g.out_w.toNat)
    (hdvd : g.out_w.toNat ∣ 4096) (by_zero : ByZero) :
    ∃ p, g.launch = some p ∧ ChwiseOutputs g by_zero p := by
  obtain ⟨p, hp⟩ := g.exists_launch (by omega)
  refine ⟨p, hp, ?_⟩
  rcases hf with hzero | ⟨hrows, hmat, hinput, hweight⟩
  · have hnone : p.iter_cnt.toNat = 0 := by
      rw [(launch_eq hp).1, hzero, uint32_of_lt (by norm_num), Nat.zero_div, int32_natCast (by norm_num)]
      rfl
    constructor
    · have hlen := length_chwise_stores p
      rw [hnone, Nat.zero_mul, Nat.mul_zero, List.length_eq_zero_iff] at hlen
      rw [hlen, hzero, Nat.zero_mul, Nat.zero_mul]
      rfl
    · exact fun m hm => absurd hm (by omega)
  · obtain ⟨hiter, hone, hfeeds⟩ := packed_feeds by_zero hp hlo hdvd hrows hmat hinput hweight
    constructor
    · rw [chwise_stores_eq hone, hiter, Int.toNat_natCast, hrows, Nat.mul_one, g.rows_eq]
      exact threadStores_perm _
    · intro m hm r hr k hk
      obtain rfl : r = 0 := by omega
      rw [hrows, Nat.mul_one, Nat.add_zero]
      exact sums_of_feeds hp hone hiter hm hk hfeeds

end ChwiseGemm

/-- With widths that pack, every output is stored once with its own sum exactly for one input row. -/
theorem chwise_outputs_iff (g : ChwiseGemm) (by_zero : ByZero) (hlo : 64 ≤ g.out_w.toNat)
    (hdvd : g.out_w.toNat ∣ 4096) :
    (∃ p, g.launch = some p ∧ ChwiseOutputs g by_zero p) ↔ g.OutputsFit :=
  ⟨fun ⟨_, hp, h⟩ => ChwiseGemm.fits_of_outputs hp hlo hdvd h, fun hf => hf.outputs hlo hdvd by_zero⟩

/-- Two half-tile matrices, and the same with two input rows. -/
def halves (inout_h : UInt32) (h : 0 < inout_h.toNat) : ChwiseGemm :=
  .of 2 1 inout_h 256 2048 ⟨h, by decide, by decide⟩

theorem chwise_outputs_halves : ∃ p, (halves 1 (by decide)).launch = some p ∧ ChwiseOutputs
    (halves 1 (by decide)) id p :=
  (chwise_outputs_iff (halves 1 (by decide)) id (by decide) (by decide)).mpr
    (Or.inr ⟨by decide, by decide, by decide, by decide⟩)

/-- Of the two input rows' 8192 outputs the first 4096 are stored twice and the others never. -/
theorem two_rows_uncovered :
    ¬ ∃ by_zero p, (halves 2 (by decide)).launch = some p ∧
      ChwiseOutputs (halves 2 (by decide)) by_zero p := by
  rintro ⟨by_zero, p, hp, h⟩
  have hrows := (ChwiseGemm.outputs_rows hp (by decide) h).1
  exact absurd hrows (by decide)

end PimLibrary.Kernel
