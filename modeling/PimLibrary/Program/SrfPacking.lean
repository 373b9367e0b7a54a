import PimLibrary.Device.PimInfo
import PimLibrary.Schemes.Loop
import PimLibrary.Schemes.Scatter

/-! `PimCrfBinGen::preprocess_srf`: the scalars of batch normalisation, packed for the SRF registers.

    The loop has taken `k / 64` strides in the registers of PIM channel `k % 64` when it reaches channel
    `k` of the model. Four strides fill the registers; the fifth runs into the shifts of the first. -/

namespace PimLibrary.Program
open Schemes.Word Schemes.Loop Schemes.Scatter PimLibrary.Device

/-! ### The loop -/

/-- The arrays of the layer and the floating-point expressions that are stored; `scale` is
    `1 / sqrt((float)var + epsilon)` and `shift` is `-(float)mean / sqrt((float)var + epsilon)`. -/
structure BnLayer (α : Type) where
  h_beta : ℤ → α
  h_gamma : ℤ → α
  h_mean : ℤ → α
  h_var : ℤ → α
  scale : α → α
  shift : α → α → α

inductive SrfEvent (α : Type) where
  | store (slot : ℤ) (value : α)
  | print (text : String)

structure SrfState where
  cidx : ℤ := 0
  rank : ℤ := 0
  burst_idx : ℤ := 0

variable {α : Type}

/-- One channel of the model. -/
def preprocess_srf_step (x : BnLayer α) (s : SrfState) (ch_model : ℤ) : SrfState × List (SrfEvent α) :=
  let num_pim_rank : ℤ := vega20_pbi.num_pim_rank
  let num_pim_chan : ℤ := vega20_pbi.num_pim_chan
  let num_stride_reg := 2
  let num_half_per_reg := 16
  let slot := s.cidx * num_pim_rank * num_half_per_reg + s.rank * num_half_per_reg + s.burst_idx
  let stores :=
    [SrfEvent.store slot (x.scale (x.h_var ch_model)), .store (slot + 1) (x.h_gamma ch_model),
      .store (slot + 8) (x.shift (x.h_mean ch_model) (x.h_var ch_model)),
        .store (slot + 9) (x.h_beta ch_model)]
  let s := { s with rank := s.rank + 1 }
  let s := if s.rank ≥ num_pim_rank then { s with rank := 0, cidx := s.cidx + 1 } else s
  let s := if s.cidx ≥ num_pim_chan then
    { s with cidx := 0, burst_idx := s.burst_idx + num_stride_reg } else s
  (s, stores ++ if s.burst_idx ≥ 8 then [.print "error: this is not defined"] else [])

/-- The return value, and what was stored and printed. The `int` counter is compared as a `uint32_t`. -/
def preprocess_srf (x : BnLayer α) (bshape_c : UInt32) : ℤ × List (SrfEvent α) :=
  (0, (runLoop (fun s (k : ℕ) => preprocess_srf_step x s (int32 k)) {} (List.range bshape_c.toNat)).2)

def SrfEvent.stored : SrfEvent α → Option (ℤ × α)
  | store slot value => some (slot, value)
  | print _ => none

/-- The stores, in order. -/
def srf_stores (x : BnLayer α) (bshape_c : UInt32) : List (ℤ × α) :=
  (preprocess_srf x bshape_c).2.filterMap SrfEvent.stored

/-! ### What the packing is for -/

/-- The scale, gamma, shift and beta of a channel. -/
def BnLayer.values (x : BnLayer α) (ch_model : ℤ) : List α :=
  [x.scale (x.h_var ch_model), x.h_gamma ch_model, x.shift (x.h_mean ch_model) (x.h_var ch_model),
    x.h_beta ch_model]

/-- `num_pim_chan * num_pim_rank * trans_size` bytes, in halves. -/
def srf_halves : ℤ :=
  (vega20_pbi.num_pim_chan * vega20_pbi.num_pim_rank * vega20_pbi.trans_size / 2 : ℕ)

/-- The values of all channels have slots of their own in the buffer, and are there in the end. -/
structure Packed (stores : List (ℤ × α)) (values : List α) : Prop where
  values : stores.map Prod.snd = values
  inside : ∀ w ∈ stores, 0 ≤ w.1 ∧ w.1 < srf_halves
  unshared : (stores.map Prod.fst).Nodup
  held : ∀ (srf_binary : ℤ → α), ∀ w ∈ stores, scatter srf_binary stores w.1 = w.2

/-- All channels are packed, or an error is returned. -/
def SrfPacked (x : BnLayer α) (bshape_c : UInt32) : Prop :=
  (preprocess_srf x bshape_c).1 ≠ 0 ∨
    Packed (srf_stores x bshape_c) ((List.range bshape_c.toNat).flatMap fun k : ℕ => x.values (int32 k))

/-! ### Closed form -/

/-- The slots of the `k`-th channel. -/
def srf_slots (k : ℕ) : List ℤ := [0, 1, 8, 9].map fun i => ((16 * (k % 64) + 2 * (k / 64) + i : ℕ) : ℤ)

/-- The counters before the `k`-th channel. -/
structure SrfState.At (k : ℕ) (s : SrfState) : Prop where
  cidx : s.cidx = (k % 64 : ℕ)
  rank : s.rank = 0
  burst_idx : s.burst_idx = (2 * (k / 64) : ℕ)

theorem SrfState.At.slot {k : ℕ} {s : SrfState} (h : s.At k) :
    s.cidx * (vega20_pbi.num_pim_rank : ℤ) * 16 + s.rank * 16 + s.burst_idx =
      (16 * (k % 64) + 2 * (k / 64) : ℕ) := by
  rw [h.cidx, h.rank, h.burst_idx]
  simp only [vega20_pbi]
  push_cast
  ring

theorem preprocess_srf_step_at (x : BnLayer α) {k : ℕ} {s : SrfState} (h : s.At k) (ch_model : ℤ) :
    (preprocess_srf_step x s ch_model).1.At (k + 1) ∧
      (preprocess_srf_step x s ch_model).2 =
        ((srf_slots k).zip (x.values ch_model)).map (fun w => SrfEvent.store w.1 w.2) ++
          if 256 ≤ k + 1 then [.print "error: this is not defined"] else [] := by
  have hstores : (preprocess_srf_step x s ch_model).2 =
      ((srf_slots k).zip (x.values ch_model)).map (fun w => SrfEvent.store w.1 w.2) ++
        if (preprocess_srf_step x s ch_model).1.burst_idx ≥ 8 then
          [.print "error: this is not defined"] else [] := by
    simp [preprocess_srf_step, h.slot, srf_slots, BnLayer.values]
  have hcounters : (preprocess_srf_step x s ch_model).1.At (k + 1) := by
    obtain ⟨hcidx, hrank, hburst⟩ := h
    have hrank' : s.rank + 1 ≥ 1 := by omega
    simp only [preprocess_srf_step, vega20_pbi, Nat.cast_one, hrank', if_true]
    -- the 64th channel of a stride sends the channel counter back
    by_cases hlast : k % 64 = 63
    · rw [if_pos (by rw [hcidx, hlast]; norm_num)]
      exact ⟨by simp only; omega, rfl, by simp only; omega⟩
    · rw [if_neg (by rw [hcidx]; push_cast; omega)]
      exact ⟨by simp only; omega, rfl, by simp only; omega⟩
  refine ⟨hcounters, ?_⟩
  rw [hstores, hcounters.burst_idx]
  congr 1
  exact if_congr (by omega) rfl rfl

theorem preprocess_srf_events (x : BnLayer α) (bshape_c : UInt32) : (preprocess_srf x bshape_c).2 =
    (List.range bshape_c.toNat).flatMap fun k : ℕ =>
      ((srf_slots k).zip (x.values (int32 k))).map (fun w => SrfEvent.store w.1 w.2) ++
        if 256 ≤ k + 1 then [.print "error: this is not defined"] else [] :=
  (runLoop_range (R := SrfState.At) (s := {}) ⟨rfl, rfl, rfl⟩ fun k _ _ h =>
    preprocess_srf_step_at x h (int32 k)).2

/-- The stores are those of the channels, each on its own slots. -/
theorem srf_stores_eq (x : BnLayer α) (bshape_c : UInt32) : srf_stores x bshape_c =
    (List.range bshape_c.toNat).flatMap fun k : ℕ => (srf_slots k).zip (x.values (int32 k)) := by
  rw [srf_stores, preprocess_srf_events, List.filterMap_flatMap]
  refine List.flatMap_congr fun k _ => ?_
  rw [List.filterMap_append, List.filterMap_map]
  split_ifs <;> simp [SrfEvent.stored, Function.comp_def]

theorem length_values (x : BnLayer α) (k : ℕ) (ch_model : ℤ) :
    (srf_slots k).length = (x.values ch_model).length := by
  simp [srf_slots, BnLayer.values]

theorem srf_stores_slots (x : BnLayer α) (bshape_c : UInt32) :
    (srf_stores x bshape_c).map Prod.fst = (List.range bshape_c.toNat).flatMap srf_slots := by
  rw [srf_stores_eq, List.map_flatMap]
  refine List.flatMap_congr fun k _ => ?_
  exact List.map_fst_zip (length_values x k _).le

theorem srf_stores_values (x : BnLayer α) (bshape_c : UInt32) : (srf_stores x bshape_c).map Prod.snd =
    (List.range bshape_c.toNat).flatMap fun k : ℕ => x.values (int32 k) := by
  rw [srf_stores_eq, List.map_flatMap]
  refine List.flatMap_congr fun k _ => ?_
  exact List.map_snd_zip (length_values x k _).ge

/-- The bound is announced by one channel too early: the message comes with the last channel that
    fits. -/
theorem srf_message_iff (x : BnLayer α) (bshape_c : UInt32) :
    .print "error: this is not defined" ∈ (preprocess_srf x bshape_c).2 ↔ 256 ≤ bshape_c.toNat := by
  rw [preprocess_srf_events, List.mem_flatMap]
  constructor
  · rintro ⟨k, hk, hmem⟩
    rw [List.mem_range] at hk
    rcases List.mem_append.mp hmem with hstore | hprint
    · simp at hstore
    · split_ifs at hprint with hlate
      · omega
      · simp at hprint
  · intro h
    exact ⟨255, List.mem_range.mpr (by omega), List.mem_append_right _ (by simp)⟩

/-! ### Four strides -/

theorem mem_srf_slots {k : ℕ} {a : ℤ} :
    a ∈ srf_slots k ↔ ∃ i ∈ [0, 1, 8, 9], a = ((16 * (k % 64) + 2 * (k / 64) + i : ℕ) : ℤ) := by
  simp [srf_slots]

theorem srf_slots_inside {k : ℕ} (hk : k < 256) : ∀ a ∈ srf_slots k, 0 ≤ a ∧ a < srf_halves := by
  intro a ha
  obtain ⟨i, hi, rfl⟩ := mem_srf_slots.mp ha
  simp only [List.mem_cons, List.not_mem_nil, or_false] at hi
  simp only [srf_halves, vega20_pbi]
  omega

theorem srf_slots_nodup (k : ℕ) : (srf_slots k).Nodup := by
  simp [srf_slots]

/-- Below four strides different channels have different slots. -/
theorem srf_slots_disjoint {k l : ℕ} (hk : k < 256) (hl : l < 256) (hne : k ≠ l) :
    (srf_slots k).Disjoint (srf_slots l) := by
  intro a hak hal
  obtain ⟨i, hi, rfl⟩ := mem_srf_slots.mp hak
  obtain ⟨j, hj, heq⟩ := mem_srf_slots.mp hal
  rw [Nat.cast_inj] at heq
  -- the half of the register, and the place in the stride
  have hplace : ∀ i ∈ [0, 1, 8, 9], ∃ a < 2, ∃ b < 2, i = 8 * a + b := by decide
  obtain ⟨a, ha, b, hb, rfl⟩ := hplace i hi
  obtain ⟨a', ha', b', hb', rfl⟩ := hplace j hj
  have hq : k / 64 < 4 := Nat.div_lt_of_lt_mul hk
  have hq' : l / 64 < 4 := Nat.div_lt_of_lt_mul hl
  have hk64 := Nat.div_add_mod k 64
  have hl64 := Nat.div_add_mod l 64
  generalize k / 64 = q, k % 64 = r, l / 64 = q', l % 64 = r' at heq hq hq' hk64 hl64
  have hchan : r = r' := by omega
  have hstride : q = q' := by omega
  exact hne (by rw [← hk64, ← hl64, hchan, hstride])

/-- The first channel beyond them takes the slot of the first channel's shift for its scale. -/
theorem srf_slots_collide : ¬ (srf_slots 0).Disjoint (srf_slots 256) := fun h =>
  h (a := 8) (by decide) (by decide)

theorem all_slots_nodup_iff (n : ℕ) : ((List.range n).flatMap srf_slots).Nodup ↔ n ≤ 256 := by
  rw [List.nodup_flatMap]
  constructor
  · rintro ⟨-, hpairs⟩
    by_contra hgt
    have hpair := List.pairwise_iff_getElem.mp hpairs 0 256 (by simp; omega) (by simp; omega)
      (by norm_num)
    rw [List.getElem_range, List.getElem_range] at hpair
    exact srf_slots_collide hpair
  · intro hle
    refine ⟨fun k _ => srf_slots_nodup k, ?_⟩
    refine List.nodup_range.imp_of_mem fun hk hl hne => ?_
    exact srf_slots_disjoint ((List.mem_range.mp hk).trans_le hle)
      ((List.mem_range.mp hl).trans_le hle) hne

/-- The layer is packed exactly if it has at most 256 channels. -/
theorem srf_packed_iff (x : BnLayer α) (bshape_c : UInt32) : SrfPacked x bshape_c ↔
    bshape_c.toNat ≤ 256 := by
  constructor
  · rintro (hret | hpacked)
    · exact absurd rfl hret
    · have hnodup := hpacked.unshared
      rwa [srf_stores_slots, all_slots_nodup_iff] at hnodup
  · intro hle
    have hnodup : ((srf_stores x bshape_c).map Prod.fst).Nodup := by
      rwa [srf_stores_slots, all_slots_nodup_iff]
    refine Or.inr ⟨srf_stores_values x bshape_c, ?_, hnodup, scatter_of_nodup hnodup⟩
    intro w hw
    have hslot := List.mem_map_of_mem (f := Prod.fst) hw
    rw [srf_stores_slots, List.mem_flatMap] at hslot
    obtain ⟨k, hk, hslot⟩ := hslot
    exact srf_slots_inside ((List.mem_range.mp hk).trans_le hle) _ hslot

/-- Values that tell by sign and size where they come from: gamma and beta of channel `k` are
    `2k + 1` and `2k + 2`, scale and shift their negatives. -/
def labelledLayer : BnLayer ℤ where
  h_beta k := 2 * k + 2
  h_gamma k := 2 * k + 1
  h_mean k := 2 * k + 2
  h_var k := 2 * k + 1
  scale v := -v
  shift m _ := -m

/-- 257 channels: the scale of the last is stored over the shift of the first, and 0 is returned. -/
theorem srf_not_packed : (preprocess_srf labelledLayer 257).1 = 0 ∧
    (8, -2) ∈ srf_stores labelledLayer 257 ∧
    (8, -513) ∈ srf_stores labelledLayer 257 ∧ ¬ SrfPacked labelledLayer 257 := by
  have hstored : ∀ k, k < 257 → ∀ w ∈ (srf_slots k).zip (labelledLayer.values (int32 k)),
      w ∈ srf_stores labelledLayer 257 := by
    intro k hk w hw
    rw [srf_stores_eq]
    exact List.mem_flatMap.mpr ⟨k, List.mem_range.mpr hk, hw⟩
  refine ⟨rfl, hstored 0 (by norm_num) _ (by decide), hstored 256 (by norm_num) _ (by decide), ?_⟩
  rintro (hret | hpacked)
  · exact hret rfl
  · have hnodup := hpacked.unshared
    rw [srf_stores_slots, all_slots_nodup_iff] at hnodup
    exact absurd hnodup (by decide)

end PimLibrary.Program
