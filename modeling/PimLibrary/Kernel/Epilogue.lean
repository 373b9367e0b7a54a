import PimLibrary.Kernel.ChwiseTiling
import PimLibrary.Emulator.GemmBiasAct

/-! The epilogues of the GEMM kernels, and of the channel-wise one against the emulator's.

    A thread adds up its sixteen lanes, adds the bias, applies the activation and stores. The
    channel-wise kernel moves its output pointer from one iteration to the next but reads the bias of
    the first iteration in all of them. -/

namespace PimLibrary.Kernel
open Schemes.Word Schemes.Loop Schemes.Scatter PimLibrary.Device PimLibrary.Layout PimLibrary.Emulator

attribute [local irreducible] int32

/-- The sum of the sixteen halves of a cell. -/
def lane_sum (partials : ℤ → ℚ) (cell : ℤ) : ℚ :=
  ((List.range 16).map fun ti : ℕ => partials (cell + ti)).sum

/-- The writes of the `REDUCE_SUM` phase, block by block and thread by thread. -/
def chwise_epilogue (p : GemmLaunch) (partials : ℤ → ℚ) (bias : Option (ℤ → ℚ))
    (act_func : PimActFunc) :
    List (ℤ × ℚ) :=
  (List.range 64).flatMap fun ch => (List.range 64).flatMap fun tid =>
    (chwise_reduce p ch tid).map fun step =>
      (step.out, bias_act bias act_func ((ch * 64 + tid : ℕ) : ℤ) (lane_sum partials step.cell))

def aligned_epilogue (p : GemmLaunch) (partials : ℤ → ℚ) (bias : Option (ℤ → ℚ))
    (act_func : PimActFunc) :
    List (ℤ × ℚ) :=
  (List.range 64).flatMap fun ch => (List.range 64).flatMap fun tid =>
    (aligned_reduce p ch tid).filterMap (Option.map fun step =>
      (step.out, bias_act bias act_func step.out (lane_sum partials step.cell)))

/-- `sums` are what the threads find in the cells. -/
def ChwiseRawSums (p : GemmLaunch) (partials sums : ℤ → ℚ) : Prop :=
  ∀ ch, ch < 64 → ∀ tid, tid < 64 → ∀ step ∈ chwise_reduce p ch tid, lane_sum partials step.cell =
    sums step.out

/-- Kernel and emulator leave the activated biased sum at every output index, for all raw sums. -/
def ChwiseEpilogues (g : ChwiseGemm) (mem_type : PimMemType) (bias : Option (ℤ → ℚ))
    (act_func : PimActFunc) :
    Prop :=
  ∃ p, g.launch = some p ∧ ∀ partials sums, ChwiseRawSums p partials sums → ∃ copied,
    execute_gemm_bias_act (PimCreateBo g.output) (PimCreateBo g.weight) mem_type sums bias
      act_func = some copied ∧
    ∀ k : ℕ, k < matrices g.weight * g.out_w.toNat →
      written (chwise_epilogue p partials bias act_func) k = some (bias_act bias act_func k (sums k)) ∧
      written copied k = some (bias_act bias act_func k (sums k))

/-! ### The kernel -/

theorem lane_sum_const (c : ℚ) (cell : ℤ) : lane_sum (fun _ => c) cell = 16 * c := by
  simp only [lane_sum, List.map_const', List.sum_replicate, List.length_range]
  norm_num

/-- One value at the start of a transaction, zero elsewhere. -/
def spike (t : ℕ) (x : ℚ) (a : ℤ) : ℚ := if a = 16 * t then x else 0

theorem lane_sum_spike (t t' : ℕ) (x : ℚ) :
    lane_sum (spike t x) ((16 * t' : ℕ) : ℤ) = if t' = t then x else 0 := by
  have hlate : ∀ ti : ℕ, ti < 15 → spike t x (((16 * t' : ℕ) : ℤ) + (ti + 1 : ℕ)) = 0 :=
    fun ti hti => if_neg (by omega)
  have hzero : ((List.range 15).map fun ti : ℕ =>
      spike t x (((16 * t' : ℕ) : ℤ) + (ti + 1 : ℕ))).sum = 0 := by
    refine List.sum_eq_zero fun y hy => ?_
    obtain ⟨ti, hti, rfl⟩ := List.mem_map.mp hy
    exact hlate ti (List.mem_range.mp hti)
  rw [lane_sum, List.range_succ_eq_map, List.map_cons, List.map_map, List.sum_cons]
  simp only [Function.comp_def, Nat.succ_eq_add_one, hzero, add_zero, Nat.cast_zero]
  have hstart : (((16 * t' : ℕ) : ℤ) = 16 * t) ↔ t' = t := by omega
  simp only [spike, hstart]

/-- The transaction that thread `u` of the launch adds up for cell `li`. -/
def laneCell (u : ℕ) (li : ℤ) : ℕ :=
  transaction (u / 64) (u % 64 / 16) (u % 64 / 8 % 2 * 2 + 1) (toUint32 (li / 4))
    (toUint32 ((u % 64 % 8 : ℕ) + li.tmod 4 * 8))

theorem aligned_reduce_step_eq (p : GemmLaunch) (ch : ℕ) {tid : ℕ} (htid : tid < 64) (gemv_cnt : ℤ)
    (oi : ℕ) :
    aligned_reduce_step p ch tid gemv_cnt oi =
      if int32 ((oi * 4096 + (ch * 64 + tid) : ℕ) : ℤ) < p.out_w then
        some ⟨((16 * laneCell (ch * 64 + tid) (int32 (gemv_cnt * p.n_out_tile + oi)) : ℕ) : ℤ),
          int32 (gemv_cnt * p.out_w + int32 ((oi * 4096 + (ch * 64 + tid) : ℕ) : ℤ))⟩
      else none := by
  have hch : (ch * 64 + tid) / 64 = ch := by omega
  have hlane : (ch * 64 + tid) % 64 = tid := by omega
  rw [aligned_reduce_step, laneCell, hch, hlane]
  have hhalf : ∀ t : ℕ, ((32 * t : ℕ) : ℤ) / 2 = ((16 * t : ℕ) : ℤ) := by omega
  split_ifs
  · simp only [addr_gen_eq ch (tid / 16) _ _ _ (by omega : tid / 16 < 4) (toUint32_lt _), hhalf]
  · rfl

/-- Different threads, and cells in different rows, are different transactions. -/
theorem laneCell_inj {u u' : ℕ} {li li' : ℤ} (hu : u < 4096) (hu' : u' < 4096)
    (h : laneCell u li = laneCell u' li') :
    u = u' ∧ toUint32 (li / 4) = toUint32 (li' / 4) := by
  have hcol : ∀ (v : ℕ) (l : ℤ), toUint32 ((v % 64 % 8 : ℕ) + l.tmod 4 * 8) % 32 % 8 = v % 8 := by
    intro v l
    generalize l.tmod 4 = x
    unfold toUint32
    omega
  have hmod : ∀ chan bg bank row col, transaction chan bg bank row col =
      transaction chan bg bank row (col % 32) := by
    intro chan bg bank row col
    have h0 : col % 32 % 2 = col % 2 := by omega
    have h1 : col % 32 / 2 % 2 = col / 2 % 2 := by omega
    have h2 : col % 32 / 4 % 8 = col / 4 % 8 := by omega
    rw [transaction, transaction, h0, h1, h2]
  have hc := hcol u li
  have hc' := hcol u' li'
  rw [laneCell, laneCell, hmod, hmod (u' / 64)] at h
  obtain ⟨hch, hbg, hbank, hrow, hlow⟩ :=
    transaction_inj (by omega) (by omega) (by omega) (by omega) (by omega)
    (by omega) (by omega) (by omega) h
  rw [hlow] at hc
  refine ⟨?_, hrow⟩
  omega

section Kernel

variable {p : GemmLaunch} (hone : p.inout_h.toNat = 1)
include hone

theorem mem_chwise_reduce {ch tid : ℕ} {step : ReduceStep} : step ∈ chwise_reduce p ch tid ↔
    ∃ i < p.iter_cnt.toNat, step = chwise_reduce_step ch tid ⟨(i : ℤ) * 8192, (i : ℤ) * 2 ^ 18⟩ := by
  rw [chwise_reduce_eq, hone]
  simp only [List.mem_flatMap, List.mem_map, List.mem_range, Nat.lt_one_iff, exists_eq_left, eq_comm]

/-- Every index below the last iteration's end gets its raw sum, with the bias of the first
    iteration. -/
theorem written_chwise_epilogue {partials sums : ℤ → ℚ} (hraw : ChwiseRawSums p partials sums)
    (bias : Option (ℤ → ℚ)) (act_func : PimActFunc) {k : ℕ} (hk : k < 4096 * p.iter_cnt.toNat) :
    written (chwise_epilogue p partials bias act_func) k =
      some (bias_act bias act_func ((k % 4096 : ℕ) : ℤ) (sums k)) := by
  have hout : ∀ ch tid i : ℕ, (chwise_reduce_step ch tid ⟨(i : ℤ) * 8192, (i : ℤ) * 2 ^ 18⟩).out =
      ((i * 4096 + (ch * 64 + tid) : ℕ) : ℤ) := by
    intro ch tid i
    simp only [chwise_reduce_step]
    omega
  refine written_eq ⟨(k, bias_act bias act_func ((k % 4096 : ℕ) : ℤ) (sums k)), ?_, rfl⟩ ?_
  · have hch : k % 4096 / 64 < 64 := by omega
    have htid : k % 64 < 64 := by omega
    have hlane : k % 4096 / 64 * 64 + k % 64 = k % 4096 := by omega
    have hstep : chwise_reduce_step (k % 4096 / 64) (k % 64) ⟨(k / 4096 : ℕ) * 8192,
      (k / 4096 : ℕ) * 2 ^ 18⟩ ∈
        chwise_reduce p (k % 4096 / 64) (k % 64) :=
          (mem_chwise_reduce hone).mpr ⟨k / 4096, by omega, rfl⟩
    have hindex := hout (k % 4096 / 64) (k % 64) (k / 4096)
    rw [hlane, Nat.div_add_mod' k 4096] at hindex
    refine List.mem_flatMap.mpr ⟨_, List.mem_range.mpr hch,
      List.mem_flatMap.mpr ⟨_, List.mem_range.mpr htid, List.mem_map.mpr ⟨_, hstep, ?_⟩⟩⟩
    rw [hraw _ hch _ htid _ hstep, hindex, hlane]
  · intro w hw ha
    simp only [chwise_epilogue, List.mem_flatMap, List.mem_map, List.mem_range] at hw
    obtain ⟨ch, hch, tid, htid, step, hstep, rfl⟩ := hw
    simp only at ha ⊢
    rw [hraw ch hch tid htid step hstep, ha]
    obtain ⟨i, -, rfl⟩ := (mem_chwise_reduce hone).mp hstep
    rw [hout, Nat.cast_inj] at ha
    have hlane : ch * 64 + tid = k % 4096 := by omega
    rw [hlane]

end Kernel

namespace ChwiseGemm

variable {g : ChwiseGemm}

/-- Nothing to store, or a product in device memory whose bias repeats from iteration to iteration. -/
def BiasRepeats (g : ChwiseGemm) (mem_type : PimMemType) (bias : Option (ℤ → ℚ)) : Prop :=
  matrices g.weight * g.out_w.toNat = 0 ∨
    matrices g.weight * g.out_w.toNat < 2 ^ 31 ∧ mem_type ≠ .MEM_TYPE_HOST ∧
      ∀ b ∈ bias, ∀ k : ℕ, k < matrices g.weight * g.out_w.toNat → b ((k % 4096 : ℕ) : ℤ) = b k

section Output

variable (hone : g.inout_h.toNat = 1)
include hone

theorem elements_output : elements (PimCreateBo g.output).bshape = uint32
    (matrices g.weight * g.out_w.toNat) := by
  have hh : (PimCreateBo g.output).bshape.h.toNat = 1 := hone
  rw [elements, hh, Nat.mul_one]
  rfl

theorem copy_outs_output : copy_outs (PimCreateBo g.output) (PimCreateBo g.weight) =
    (List.range (matrices g.weight)).map fun m =>
      ⟨int32 ((m * g.out_w.toNat : ℕ) : ℤ), int32 ((m * g.out_w.toNat : ℕ) : ℤ), g.out_w.toNat⟩ := by
  have hh : (PimCreateBo g.output).bshape.h.toNat = 1 := hone
  have hh' : (PimCreateBo g.output).bshape_r.h.toNat = 1 := hone
  rw [copy_outs_eq rfl, hh, hh', Nat.one_mul, Nat.one_mul, Nat.mul_one]
  have hw : uint32 (PimCreateBo g.weight).bshape_r.w.toNat = g.out_w.toNat :=
    uint32_of_lt g.out_w.toNat_lt
  rw [hw]
  rfl

/-- The emulator leaves the activated sums when the product's elements fit an `int`. -/
theorem emulator_writes (hsize : matrices g.weight * g.out_w.toNat < 2 ^ 31) {mem_type : PimMemType}
    (hmem : mem_type ≠ .MEM_TYPE_HOST) (sums : ℤ → ℚ) (bias : Option (ℤ → ℚ)) (act_func : PimActFunc) :
    ∃ copied, execute_gemm_bias_act (PimCreateBo g.output) (PimCreateBo g.weight) mem_type sums bias
      act_func =
      some copied ∧ ∀ k : ℕ, k < matrices g.weight * g.out_w.toNat →
        written copied k = some (bias_act bias act_func k (sums k)) := by
  have hdim : out_dim (PimCreateBo g.output) = ((matrices g.weight * g.out_w.toNat : ℕ) : ℤ) := by
    rw [out_dim, elements_output hone, uint32_of_lt (by omega), int32_natCast hsize]
  have hplace : ∀ m, m < matrices g.weight → m * g.out_w.toNat + g.out_w.toNat ≤ matrices g.weight *
      g.out_w.toNat := by
    intro m hm
    calc m * g.out_w.toNat + g.out_w.toNat = (m + 1) * g.out_w.toNat := by ring
      _ ≤ matrices g.weight * g.out_w.toNat := Nat.mul_le_mul_right _ hm
  have hcopies := copy_outs_output hone
  have hin : ∀ copy ∈ copy_outs (PimCreateBo g.output) (PimCreateBo g.weight),
      copy.Inside (out_dim (PimCreateBo g.output)) := by
    intro copy hcopy
    rw [hcopies] at hcopy
    obtain ⟨m, hm, rfl⟩ := List.mem_map.mp hcopy
    have hend := hplace m (List.mem_range.mp hm)
    rw [CopyOut.Inside, hdim, int32_natCast (by omega)]
    dsimp only
    omega
  have hdim0 : 0 ≤ out_dim (PimCreateBo g.output) := by rw [hdim]; omega
  refine ⟨_, execute_eq hdim0 hmem hin, fun k hk => ?_⟩
  refine written_same_place ?_ ?_
  · intro copy hcopy
    rw [hcopies] at hcopy
    obtain ⟨m, -, rfl⟩ := List.mem_map.mp hcopy
    rfl
  · have hw : 0 < g.out_w.toNat := by
      rcases Nat.eq_zero_or_pos g.out_w.toNat with hzero | hpos
      · rw [hzero] at hk; omega
      · exact hpos
    have hm : k / g.out_w.toNat < matrices g.weight := Nat.div_lt_of_lt_mul (by rwa [Nat.mul_comm])
    have hend := hplace _ hm
    have hdm := Nat.div_add_mod' k g.out_w.toNat
    have hmod := Nat.mod_lt k hw
    rw [hcopies]
    refine ⟨_, List.mem_map.mpr ⟨_, List.mem_range.mpr hm, rfl⟩, ?_⟩
    rw [int32_natCast (by omega)]
    dsimp only
    omega

end Output

section Agree

variable {mem_type : PimMemType} {bias : Option (ℤ → ℚ)} {act_func : PimActFunc}
  (hone : g.inout_h.toNat = 1)
  (hlo : 64 ≤ g.out_w.toNat) (hdvd : g.out_w.toNat ∣ 4096)
include hone hlo hdvd

theorem BiasRepeats.epilogues (h : g.BiasRepeats mem_type bias) :
    ChwiseEpilogues g mem_type bias act_func := by
  obtain ⟨p, hp⟩ := g.exists_launch (by omega)
  refine ⟨p, hp, fun partials sums hraw => ?_⟩
  have hrows : p.inout_h.toNat = 1 := by
    rw [(launch_eq hp).2.1, hone, int32_natCast (by norm_num), Int.toNat_natCast]
  rcases h with hzero | ⟨hsize, hmem, hbias⟩
  · have hmat : matrices g.weight = 0 := by
      rcases Nat.mul_eq_zero.mp hzero with hmat | hw
      · exact hmat
      · omega
    have hdim : out_dim (PimCreateBo g.output) = 0 := by
      rw [out_dim, elements_output hone, hzero, uint32_of_lt (by norm_num), int32_natCast (by norm_num)]
      rfl
    have hnone : copy_outs (PimCreateBo g.output) (PimCreateBo g.weight) = [] := by
      rw [copy_outs_output hone, hmat]
      rfl
    refine ⟨[], ?_, fun k hk => by omega⟩
    by_cases hmem : mem_type = .MEM_TYPE_HOST
    · rw [execute_gemm_bias_act, if_neg (by rw [hdim]; norm_num), if_pos hmem]
    · rw [execute_eq (le_of_eq hdim.symm) hmem (by simp [hnone]), hnone]
      rfl
  · have hmat : matrices g.weight < 2 ^ 32 := by
      have : matrices g.weight * 64 ≤ matrices g.weight * g.out_w.toNat := Nat.mul_le_mul_left _ hlo
      omega
    have hiter := packed_iterations hp hlo hdvd hmat
    obtain ⟨copied, hcopied, hemul⟩ := emulator_writes hone hsize hmem sums bias act_func
    refine ⟨copied, hcopied, fun k hk => ⟨?_, hemul k hk⟩⟩
    have htile : k < 4096 * p.iter_cnt.toNat := by
      rw [hiter, Int.toNat_natCast, ← g.rows_eq]
      exact hk
    rw [written_chwise_epilogue hrows hraw bias act_func htile]
    rcases bias with _ | b
    · rfl
    · simp only [bias_act, hbias b rfl k hk]

theorem ChwiseEpilogues.biasRepeats (h : ChwiseEpilogues g mem_type bias act_func) :
    g.BiasRepeats mem_type bias := by
  obtain ⟨p, hp, hall⟩ := h
  have hrows : p.inout_h.toNat = 1 := by
    rw [(launch_eq hp).2.1, hone, int32_natCast (by norm_num), Int.toNat_natCast]
  rcases Nat.eq_zero_or_pos (matrices g.weight * g.out_w.toNat) with hzero | hpos
  · exact Or.inl hzero
  right
  -- equal raw sums everywhere, high enough to pass the rectifier
  have hconst : ∀ c : ℚ, ChwiseRawSums p (fun _ => c) fun _ => 16 * c :=
    fun c _ _ _ _ _ _ => lane_sum_const c _
  obtain ⟨copied, hcopied, hleft⟩ := hall _ _ (hconst 0)
  obtain ⟨hdim, hhost, hcopy⟩ := of_execute hcopied
  have hmem : mem_type ≠ .MEM_TYPE_HOST := by
    intro hmem
    have := (hleft 0 hpos).2
    rw [hhost hmem] at this
    cases this
  have hsize : matrices g.weight * g.out_w.toNat < 2 ^ 31 := by
    obtain ⟨-, hcopied_eq⟩ := hcopy hmem
    -- the copy that reaches the last element ends at a multiple of the width
    have hlast := mem_of_written (hleft (matrices g.weight * g.out_w.toNat - 1) (by omega)).2
    rw [hcopied_eq, copy_outs_output hone] at hlast
    obtain ⟨copy, hin, hwrite⟩ := List.mem_flatMap.mp hlast
    obtain ⟨m, -, rfl⟩ := List.mem_map.mp hin
    obtain ⟨j, hj, heq⟩ := mem_writes.mp hwrite
    have hmul : (g.out_w.toNat : ℤ) ∣ int32 ((m * g.out_w.toNat : ℕ) : ℤ) :=
      dvd_int32 (Int.natCast_dvd_natCast.mpr (hdvd.trans (by norm_num)))
        (Int.natCast_dvd_natCast.mpr (Dvd.intro_left m rfl))
    have hend : (g.out_w.toNat : ℤ) ≤ 2 ^ 31 - int32 ((m * g.out_w.toNat : ℕ) : ℤ) :=
      Int.le_of_dvd (sub_pos.mpr (int32_lt _))
        (dvd_sub (Int.natCast_dvd_natCast.mpr (hdvd.trans (by norm_num))) hmul)
    have hplace : ((matrices g.weight * g.out_w.toNat - 1 : ℕ) : ℤ) =
        int32 ((m * g.out_w.toNat : ℕ) : ℤ) + j :=
      congrArg Prod.fst heq
    have hle : matrices g.weight * g.out_w.toNat ≤ 2 ^ 31 := by
      have hj' : (j : ℤ) < g.out_w.toNat := by exact_mod_cast hj
      generalize int32 ((m * g.out_w.toNat : ℕ) : ℤ) = dst at hend hplace
      omega
    refine lt_of_le_of_ne hle fun heq => ?_
    rw [out_dim, elements_output hone, heq, uint32_of_lt (by norm_num)] at hdim
    exact absurd (int32_neg (x := ((2 ^ 31 : ℕ) : ℤ)) (by norm_num) (by norm_num)) (not_lt.mpr hdim)
  refine ⟨hsize, hmem, fun b hb k hk => ?_⟩
  obtain rfl : bias = some b := hb
  have hmat : matrices g.weight < 2 ^ 32 := by
    have : matrices g.weight * 64 ≤ matrices g.weight * g.out_w.toNat := Nat.mul_le_mul_left _ hlo
    omega
  have htile : k < 4096 * p.iter_cnt.toNat := by
    rw [packed_iterations hp hlo hdvd hmat, Int.toNat_natCast, ← g.rows_eq]
    exact hk
  have hnonneg := fun i => neg_abs_le (b i)
  obtain ⟨_, _, hleft'⟩ := hall _ _ (hconst (|b k| + |b ((k % 4096 : ℕ) : ℤ)|))
  obtain ⟨hkernel, -⟩ := hleft' k hk
  have habs := abs_nonneg (b k)
  have habs' := abs_nonneg (b ((k % 4096 : ℕ) : ℤ))
  rw [written_chwise_epilogue hrows (hconst _) (some b) act_func htile, Option.some.injEq,
    bias_act_some act_func (by linarith [hnonneg ((k % 4096 : ℕ) : ℤ)]),
    bias_act_some act_func (by linarith [hnonneg k])] at hkernel
  exact add_left_cancel hkernel

end Agree

end ChwiseGemm

/-- With one input row the two epilogues agree on the biased sums exactly when the bias repeats. -/
theorem chwise_epilogues_iff (g : ChwiseGemm) (mem_type : PimMemType) (bias : Option (ℤ → ℚ))
    (act_func : PimActFunc)
    (hone : g.inout_h.toNat = 1) (hlo : 64 ≤ g.out_w.toNat) (hdvd : g.out_w.toNat ∣ 4096) :
    ChwiseEpilogues g mem_type bias act_func ↔ g.BiasRepeats mem_type bias :=
  ⟨ChwiseGemm.ChwiseEpilogues.biasRepeats hone hlo hdvd, ChwiseGemm.BiasRepeats.epilogues hone hlo hdvd⟩

/-- Two iterations over half-tile matrices. -/
def twoIterations : ChwiseGemm := .of 4 1 1 256 2048 (by decide)

theorem chwise_epilogues_unbiased : ChwiseEpilogues twoIterations .MEM_TYPE_DEVICE none .ACT_RELU :=
  (chwise_epilogues_iff twoIterations .MEM_TYPE_DEVICE none .ACT_RELU (by decide) (by decide)
    (by decide)).mpr
    (Or.inr ⟨by decide, by decide, fun b hb => nomatch hb⟩)

/-- Output 4096 gets the bias of output 0. -/
theorem second_iteration_misbiased :
    ¬ ChwiseEpilogues twoIterations .MEM_TYPE_DEVICE (some fun k => k) .NONE := by
  intro h
  have hbias := ChwiseGemm.ChwiseEpilogues.biasRepeats (by decide) (by decide) (by decide) h
  rcases hbias with hzero | ⟨-, -, hrep⟩
  · exact absurd hzero (by decide)
  · have h4096 := hrep _ rfl 4096 (by decide)
    norm_num at h4096

end PimLibrary.Kernel
