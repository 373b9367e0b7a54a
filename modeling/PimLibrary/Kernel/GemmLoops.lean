import PimLibrary.Kernel.Gemm

/-! The loop nests of the GEMM kernels in closed form.

    Both phases of both kernels advance their counters and pointers by constants, so what an iteration
    runs with is a function of its indices. Nothing is assumed about the launch parameters: a counter
    is the wrap of its exact value, and a trip count below one runs nothing. -/

namespace PimLibrary.Kernel
open Schemes.Word Schemes.Loop PimLibrary.Device

attribute [local irreducible] int32

theorem forRange_one (hi : ℤ) : forRange hi 1 = List.range hi.toNat := by
  simp [forRange, forFrom]

/-- A wrapping counter stepped once has wrapped the next exact value. -/
theorem int32_succ (k : ℕ) : int32 (int32 (k : ℤ) + 1) = int32 ((k + 1 : ℕ) : ℤ) := by
  rw [int32_add_int32', Nat.cast_succ]

/-! ### The aligned kernel -/

section Aligned

variable (p : GemmLaunch)

/-- The state in which iteration `i` reaches input row `r`. -/
def aligned_state (i r : ℕ) : AlignedState where
  gemv_cnt := int32 ((i * p.inout_h.toNat + r : ℕ) : ℤ)
  weight := i * int32 (p.in_w * p.out_w * 2)

theorem aligned_state_cnt (i r : ℕ) :
    (aligned_state p i r).gemv_cnt = int32 ((i * p.inout_h.toNat + r : ℕ) : ℤ) := rfl

theorem aligned_state_zero : ({} : AlignedState) = aligned_state p 0 0 := by
  simp [aligned_state, int32]

theorem aligned_state_row (i r : ℕ) :
    int32 ((aligned_state p i r).gemv_cnt + 1) = (aligned_state p i (r + 1)).gemv_cnt := by
  simp only [aligned_state, int32_succ, Nat.add_assoc]

theorem aligned_state_last (i : ℕ) :
    (aligned_state p i p.inout_h.toNat).gemv_cnt = (aligned_state p (i + 1) 0).gemv_cnt := by
  simp only [aligned_state, Nat.succ_mul, Nat.add_zero]

theorem aligned_state_next (i r : ℕ) :
    (aligned_state p i r).weight + int32 (p.in_w * p.out_w * 2) =
      (aligned_state p (i + 1) 0).weight := by
  simp only [aligned_state]
  push_cast
  ring

theorem aligned_iter_eq (i k : ℕ) :
    aligned_iter p (aligned_state p i 0) k = (aligned_state p (i + 1) 0,
      (List.range p.inout_h.toNat).flatMap fun r =>
        (List.range p.n_out_tile.toNat).map (aligned_session p (aligned_state p i r))) := by
  obtain ⟨hst, hout⟩ := runLoop_range (f := aligned_in_loop p) (n := p.inout_h.toNat)
    (R := fun r st => st = aligned_state p i r)
    (o := fun r => (List.range p.n_out_tile.toNat).map (aligned_session p (aligned_state p i r)))
    (s := aligned_state p i 0) rfl
    (by
      rintro r - st rfl
      refine ⟨?_, by rw [aligned_in_loop, forRange_one]⟩
      rw [aligned_in_loop, aligned_state_row]
      rfl)
  rw [aligned_iter, forRange_one]
  refine Prod.ext ?_ hout
  simp only [hst, aligned_state_next, aligned_state_last]

/-- One session for each iteration, input row and output tile. -/
theorem aligned_sessions_eq :
    aligned_sessions p = (List.range p.iter_cnt.toNat).flatMap fun i =>
      (List.range p.inout_h.toNat).flatMap fun r =>
        (List.range p.n_out_tile.toNat).map (aligned_session p (aligned_state p i r)) := by
  have hrun := runLoop_range (f := aligned_iter p) (n := p.iter_cnt.toNat)
    (R := fun i st => st = aligned_state p i 0)
    (o := fun i => (List.range p.inout_h.toNat).flatMap fun r =>
      (List.range p.n_out_tile.toNat).map (aligned_session p (aligned_state p i r)))
    (aligned_state_zero p) (by rintro i - st rfl; simp only [aligned_iter_eq, and_self])
  rw [aligned_sessions, forRange_one, hrun.2]

/-- The summation phase counts input rows as the sessions do. -/
theorem aligned_reduce_eq (ch tid : ℕ) :
    aligned_reduce p ch tid = (List.range p.iter_cnt.toNat).flatMap fun i =>
      (List.range p.inout_h.toNat).flatMap fun r => (List.range p.n_out_tile.toNat).map
        (aligned_reduce_step p ch tid (aligned_state p i r).gemv_cnt) := by
  have hin : ∀ i, runLoop (aligned_reduce_in_loop p ch tid) (aligned_state p i 0).gemv_cnt
      (List.range p.inout_h.toNat) = ((aligned_state p (i + 1) 0).gemv_cnt,
        (List.range p.inout_h.toNat).flatMap fun r => (List.range p.n_out_tile.toNat).map
          (aligned_reduce_step p ch tid (aligned_state p i r).gemv_cnt)) := by
    intro i
    obtain ⟨hcnt, hout⟩ := runLoop_range
      (f := aligned_reduce_in_loop p ch tid) (n := p.inout_h.toNat)
      (R := fun r cnt => cnt = (aligned_state p i r).gemv_cnt)
      (o := fun r => (List.range p.n_out_tile.toNat).map
        (aligned_reduce_step p ch tid (aligned_state p i r).gemv_cnt))
      (s := (aligned_state p i 0).gemv_cnt) rfl
      (by
        rintro r - cnt rfl
        refine ⟨?_, by rw [aligned_reduce_in_loop, forRange_one]⟩
        rw [aligned_reduce_in_loop, aligned_state_row])
    exact Prod.ext (hcnt.trans (aligned_state_last p i)) hout
  have h0 : (0 : ℤ) = (aligned_state p 0 0).gemv_cnt := by rw [← aligned_state_zero]
  have hrun := runLoop_range
    (f := fun gemv_cnt (_ : ℕ) =>
      runLoop (aligned_reduce_in_loop p ch tid) gemv_cnt (forRange p.inout_h 1))
    (n := p.iter_cnt.toNat) (R := fun i cnt => cnt = (aligned_state p i 0).gemv_cnt)
    (o := fun i => (List.range p.inout_h.toNat).flatMap fun r =>
      (List.range p.n_out_tile.toNat).map
        (aligned_reduce_step p ch tid (aligned_state p i r).gemv_cnt))
    h0 (by rintro i - cnt rfl; simp only [forRange_one, hin, and_self])
  rw [aligned_reduce, forRange_one p.iter_cnt, hrun.2]

/-- The index at which a thread stores the sum of one output tile, if it owns one there. -/
theorem aligned_reduce_out (ch tid : ℕ) (gemv_cnt : ℤ) (oi : ℕ) :
    (aligned_reduce_step p ch tid gemv_cnt oi).map ReduceStep.out =
      if int32 ((oi * 4096 + (ch * 64 + tid) : ℕ) : ℤ) < p.out_w then
        some (int32 (gemv_cnt * p.out_w + int32 ((oi * 4096 + (ch * 64 + tid) : ℕ) : ℤ)))
      else none := by
  rw [aligned_reduce_step]
  split_ifs <;> rfl

/-- Every index stored to is an `int`. -/
theorem aligned_reduce_out_lt {ch tid : ℕ} {sum : ReduceStep} (h : some sum ∈ aligned_reduce p ch tid) :
    sum.out < 2 ^ 31 := by
  rw [aligned_reduce_eq] at h
  simp only [List.mem_flatMap, List.mem_map] at h
  obtain ⟨i, -, r, -, oi, -, hstep⟩ := h
  have hout := aligned_reduce_out p ch tid (aligned_state p i r).gemv_cnt oi
  rw [hstep, Option.map_some] at hout
  split_ifs at hout
  rw [Option.some.inj hout]
  exact int32_lt _

end Aligned

/-! ### The channel-wise kernel -/

section Chwise

variable (p : GemmLaunch)

/-- The pointers of iteration `i` when the block starts at `input`. -/
def chwise_state (input : ℤ) (i : ℕ) : ChwiseState where
  input := input + i * int32 (p.in_w * Int.tdiv 4096 p.out_w * 2)
  weight := i * int32 (p.in_w * 2 ^ 13)
  t_pim_partial_sum := i * 2 ^ 18

theorem chwise_run_eq (input : ℤ) (n : ℕ) :
    (runLoop (chwise_iter p) { input := input } (List.range n)).2 =
      (List.range n).flatMap fun i => (List.range p.inout_h.toNat).map fun _ =>
        chwise_session (chwise_state p input i) := by
  have h0 : ({ input := input } : ChwiseState) = chwise_state p input 0 := by simp [chwise_state]
  refine (runLoop_range (R := fun i st => st = chwise_state p input i) h0 ?_).2
  rintro i - st rfl
  refine ⟨?_, by rw [chwise_iter, forRange_one]⟩
  simp only [chwise_iter, chwise_state, ChwiseState.mk.injEq]
  refine ⟨?_, ?_, ?_⟩ <;> push_cast <;> ring

/-- One session for each iteration and input row. -/
theorem chwise_sessions_eq (by_zero : ByZero) {chs : ℤ} (hchs : chs_per_op p = some chs) (ch : ℕ) :
    chwise_sessions p by_zero ch = some ((List.range p.iter_cnt.toNat).flatMap fun i =>
      (List.range p.inout_h.toNat).map fun _ => chwise_session
        (chwise_state p (uint32 (block_op by_zero chs ch * toUint32 p.in_w * 2) : ℕ) i)) := by
  simp only [chwise_sessions, hchs, Option.map_some, forRange_one, chwise_run_eq]

theorem chwise_reduce_eq (ch tid : ℕ) :
    chwise_reduce p ch tid = (List.range p.iter_cnt.toNat).flatMap fun (i : ℕ) =>
      (List.range p.inout_h.toNat).map fun _ =>
        chwise_reduce_step ch tid ⟨(i : ℤ) * 8192, (i : ℤ) * 2 ^ 18⟩ := by
  have hrun := runLoop_range
    (f := fun (st : ChwiseReduceState) (_ : ℕ) =>
      (({ output := st.output + 8192, t_pim_partial_sum := st.t_pim_partial_sum + 2 ^ 18 },
        (forRange p.inout_h 1).map fun _ => chwise_reduce_step ch tid st) :
          ChwiseReduceState × List ReduceStep))
    (n := p.iter_cnt.toNat)
    (R := fun i st => st = (⟨(i : ℤ) * 8192, (i : ℤ) * 2 ^ 18⟩ : ChwiseReduceState))
    (o := fun i => (List.range p.inout_h.toNat).map fun _ =>
      chwise_reduce_step ch tid ⟨(i : ℤ) * 8192, (i : ℤ) * 2 ^ 18⟩)
    (s := {}) (by simp)
    (by
      rintro i - st rfl
      refine ⟨?_, by rw [forRange_one]⟩
      simp only [ChwiseReduceState.mk.injEq]
      refine ⟨?_, ?_⟩ <;> push_cast <;> ring)
  rw [chwise_reduce, forRange_one p.iter_cnt, hrun.2]

end Chwise

/-! ### The sessions of an aligned product -/

namespace AlignedGemm

variable (g : AlignedGemm)

theorem inout_h_eq (h : g.inout_h.toNat < 2 ^ 31) : g.launch.inout_h.toNat = g.inout_h.toNat := by
  have heq : g.launch.inout_h = int32 (g.inout_h.toNat : ℤ) := rfl
  rw [heq, int32_natCast h, Int.toNat_natCast]

theorem session_i_offset (i r o : ℕ) :
    (aligned_session g.launch (aligned_state g.launch i r) o).i_offset =
      int32 (((i * g.launch.inout_h.toNat + r) * (16 * g.in_pairs) : ℕ) : ℤ) := by
  simp only [aligned_session, aligned_state_cnt, n_in_tile_eq]
  rw [int32_mul_int32, int32_mul_int32']
  push_cast
  ring_nf

theorem session_weight (i r o : ℕ) :
    (aligned_session g.launch (aligned_state g.launch i r) o).weight =
      i * int32 ((g.in_w.toNat * g.out_w.toNat * 2 : ℕ) : ℤ) := by
  have hin : g.launch.in_w = int32 (g.in_w.toNat : ℤ) := rfl
  have hout : g.launch.out_w = int32 (g.out_w.toNat : ℤ) := rfl
  simp only [aligned_session, aligned_state]
  rw [hin, hout, mul_assoc, int32_mul_int32', mul_left_comm, int32_mul_int32']
  push_cast
  ring_nf

theorem session_r_offset (i r o : ℕ) :
    (aligned_session g.launch (aligned_state g.launch i r) o).r_offset =
      int32 ((o * (2 * g.in_pairs) : ℕ) : ℤ) / 2 := by
  simp only [aligned_session, n_in_tile_eq, Nat.cast_mul]

end AlignedGemm

end PimLibrary.Kernel
