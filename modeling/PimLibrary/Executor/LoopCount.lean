import PimLibrary.Program.EltLockstep

/-! The loop counts of the element-wise entry points of the HIP executor.

    The program's counter is rounded down from the byte size, on the way through an unsigned division;
    the kernel's tile count is rounded up for additions and multiplications and down for the others. -/

namespace PimLibrary.Executor
open Schemes.Word PimLibrary.Kernel PimLibrary.Device PimLibrary.Program PimLibrary.Program.PimCommand

attribute [local irreducible] int32

/-! ### Entry points -/

/-- `int output_size = output->size`. -/
def output_size (size : UInt64) : ℤ := int32 (size.toNat : ℤ)

def align_size : ℤ := 131072 * 2

def execute_add (size : UInt64) : EltLaunch :=
  .add ((int32 (output_size size + align_size - 1)).tdiv align_size)

def execute_mul (size : UInt64) : EltLaunch :=
  .mul ((int32 (output_size size + align_size - 1)).tdiv align_size)

def execute_relu (size : UInt64) : EltLaunch := .relu (output_size size)

def execute_copy (size : UInt64) : EltLaunch := .copy (output_size size)

def execute_bn (size : UInt64) : EltLaunch := .bn ((output_size size).tdiv align_size) 64

/-- The entry points that launch an element-wise kernel. -/
inductive EltEntry where
  | add | mul | relu | copy | bn
  deriving DecidableEq, Repr

def EltEntry.execute : EltEntry → UInt64 → EltLaunch
  | add => execute_add
  | mul => execute_mul
  | relu => execute_relu
  | copy => execute_copy
  | bn => execute_bn

/-- Whether the tile count is rounded up. -/
def EltEntry.roundsUp : EltEntry → Bool
  | add | mul => true
  | relu | copy | bn => false

/-- The commands `make_crf_bin` assembles for the launch; the size reaches it as an `int`. -/
def EltEntry.crf (op : EltEntry) (is_gemv_tile_tree_ : Bool) (cmds_ : List PimCommand) (size : UInt64) :
    List PimCommand :=
  create_pim_cmd is_gemv_tile_tree_ cmds_ (op.execute size).op_type
    (get_loop_counter is_gemv_tile_tree_ (op.execute size).op_type (output_size size))

/-- The counter that the first JUMP of a program holds. -/
def encoded_counter (cmds : List PimCommand) : Option ℤ :=
  ((loaded cmds).find? fun c => c.type_ = .JUMP).map loop_counter_

/-- The program makes as many rounds as the kernel. -/
def LoopCountsAgree (op : EltEntry) (is_gemv_tile_tree_ : Bool) (cmds_ : List PimCommand)
    (size : UInt64) : Prop :=
  ∃ lc, encoded_counter (op.crf is_gemv_tile_tree_ cmds_ size) = some lc ∧ lc + 1 =
    (op.execute size).num_tile

/-! ### Closed forms -/

theorem align_size_eq : align_size = ((262144 : ℕ) : ℤ) := by norm_num [align_size]

/-- The program's counter, for a size that stays positive as an `int`. -/
theorem loop_counter_of_nat {op_type : PimOpType} (hop : op_type ≠ .OP_GEMV)
    (is_gemv_tile_tree_ : Bool) {m : ℕ}
    (hm : m < 2 ^ 31) : get_loop_counter is_gemv_tile_tree_ op_type m = ((m / 2 ^ 18 : ℕ) : ℤ) - 1 := by
  have h16 : (m : ℤ).tdiv 16 = ((m / 16 : ℕ) : ℤ) := rfl
  have hhalf : m / 16 / 2 < 2 ^ 31 := by omega
  have htiles : ((m / 16 / 2 : ℕ) : ℤ).tdiv 4096 = ((m / 16 / 2 / 4096 : ℕ) : ℤ) := rfl
  have hpairs : ((m / 16 / 2 / 4096 : ℕ) : ℤ).tdiv 2 = ((m / 16 / 2 / 4096 / 2 : ℕ) : ℤ) := rfl
  have hcount : get_loop_counter is_gemv_tile_tree_ op_type m =
      ((int32 ((toUint64 ((m : ℤ).tdiv 16) / 2 : ℕ) : ℤ)).tdiv 4096).tdiv 2 - 1 := by
    cases op_type with
    | OP_GEMV => exact absurd rfl hop
    | _ => rfl
  rw [hcount, h16, toUint64_natCast (by omega), int32_natCast hhalf, htiles, hpairs,
    show m / 16 / 2 / 4096 / 2 = m / 2 ^ 18 by omega]

theorem encoded_counter_eq (l : EltLaunch) (is_gemv_tile_tree_ : Bool) (cmds_ : List PimCommand)
    (lc : ℤ) :
    encoded_counter (create_pim_cmd is_gemv_tile_tree_ cmds_ l.op_type lc) = some (field lc 17) := by
  obtain ⟨post, hloaded⟩ := l.loaded_eq is_gemv_tile_tree_ cmds_ lc
  have hbody : l.body.find? (fun c => c.type_ = .JUMP) = none := by cases l <;> rfl
  rw [encoded_counter, hloaded, List.find?_append, hbody]
  rfl

theorem loopCountsAgree_iff (op : EltEntry) (is_gemv_tile_tree_ : Bool) (cmds_ : List PimCommand)
    (size : UInt64) :
    LoopCountsAgree op is_gemv_tile_tree_ cmds_ size ↔
      field (get_loop_counter is_gemv_tile_tree_ (op.execute size).op_type (output_size size)) 17 + 1 =
        (op.execute size).num_tile := by
  simp [LoopCountsAgree, EltEntry.crf, encoded_counter_eq]

theorem size_tiles_eq (n : ℤ) : size_tiles n = n.tdiv (262144 : ℕ) := by
  have hrow := tdiv_tdiv n 32 4096
  have hpair := tdiv_tdiv n 131072 2
  norm_num at hrow hpair ⊢
  rw [← hpair, ← hrow, size_tiles]
  norm_num

theorem num_tile_eq (op : EltEntry) (size : UInt64) :
    (op.execute size).num_tile = (if op.roundsUp then int32 (output_size size + 262143)
      else output_size size).tdiv (262144 : ℕ) := by
  have hadd : output_size size + ((262144 : ℕ) : ℤ) - 1 = output_size size + 262143 := by
    push_cast; ring
  cases op with
  | add | mul =>
    simp only [EltEntry.execute, execute_add, execute_mul, EltLaunch.num_tile, align_size_eq, hadd,
      EltEntry.roundsUp, if_true]
  | relu | copy =>
    simp only [EltEntry.execute, execute_relu, execute_copy, EltLaunch.num_tile, size_tiles_eq,
      EltEntry.roundsUp, Bool.false_eq_true, if_false]
  | bn =>
    simp only [EltEntry.execute, execute_bn, EltLaunch.num_tile, align_size_eq, EltEntry.roundsUp,
      Bool.false_eq_true, if_false]

/-- Without a whole tile the kernel runs nothing, or one tile where it rounds a positive size up. -/
theorem num_tile_of_lt (op : EltEntry) {size : UInt64} (h : output_size size < 262144) :
    (op.execute size).num_tile ≤ if 0 < output_size size then 1 else 0 := by
  rw [num_tile_eq]
  cases hop : op.roundsUp with
  | false =>
    have hle := tdiv_nonpos (n := 262144) (by exact_mod_cast h)
    rw [if_neg Bool.false_ne_true]
    split_ifs <;> omega
  | true =>
    have hlow : -2 ^ 31 ≤ output_size size := neg_le_int32 _
    rw [if_pos rfl, int32_of_bounds (by omega) (by omega)]
    split_ifs with hpos
    · obtain ⟨m, hm⟩ := Int.eq_ofNat_of_zero_le hpos.le
      rw [hm] at h ⊢
      have hdiv : ((m : ℤ) + 262143).tdiv (262144 : ℕ) = ((m + 262143) / 262144 : ℕ) := rfl
      rw [hdiv]
      omega
    · exact tdiv_nonpos (by push_cast; omega)

/-- From one tile on, rounding up meets rounding down exactly at whole tiles. -/
theorem round_up_iff {m : ℕ} (hm : m < 2 ^ 31) :
    ((m / 262144 : ℕ) : ℤ) = (int32 ((m : ℤ) + 262143)).tdiv (262144 : ℕ) ↔ 262144 ∣ m := by
  rcases lt_or_ge (m + 262143) (2 ^ 31) with hsmall | hlarge
  · have hexact : int32 ((m : ℤ) + 262143) = ((m + 262143 : ℕ) : ℤ) := int32_natCast hsmall
    rw [hexact, ← Int.ofNat_tdiv]
    omega
  · have hneg : int32 ((m : ℤ) + 262143) < 0 := int32_neg (by omega) (by omega)
    have hle := tdiv_nonpos (n := 262144) (x := int32 ((m : ℤ) + 262143)) (by push_cast; omega)
    have hpos : 0 < m / 262144 := by omega
    constructor
    · omega
    · omega

/-- The two counts agree exactly where the size is, as an `int`, at least one tile, and a whole number
    of tiles where the kernel rounds up. -/
theorem loop_counts_agree_iff (op : EltEntry) (is_gemv_tile_tree_ : Bool) (cmds_ : List PimCommand)
    (size : UInt64) :
    LoopCountsAgree op is_gemv_tile_tree_ cmds_ size ↔
      262144 ≤ output_size size ∧ (op.roundsUp = true → 262144 ∣ output_size size) := by
  have hop : (op.execute size).op_type ≠ .OP_GEMV := by cases op <;> exact fun h => by cases h
  have hlt : output_size size < 2 ^ 31 := int32_lt _
  rw [loopCountsAgree_iff]
  rcases lt_or_ge (output_size size) 262144 with hsmall | hlarge
  · have hle := num_tile_of_lt op hsmall
    have hfield : field (get_loop_counter is_gemv_tile_tree_ (op.execute size).op_type
      (output_size size)) 17 + 1 ≠
        (op.execute size).num_tile := by
      split_ifs at hle with hpos
      · obtain ⟨m, hm⟩ := Int.eq_ofNat_of_zero_le hpos.le
        have hm0 : m / 2 ^ 18 = 0 := Nat.div_eq_of_lt (by omega)
        have hwrap : field (((0 : ℕ) : ℤ) - 1) 17 = 2 ^ 17 - 1 := by decide
        rw [hm, loop_counter_of_nat hop _ (by omega), hm0, hwrap]
        omega
      · have := field_nonneg (get_loop_counter is_gemv_tile_tree_ (op.execute size).op_type
          (output_size size)) 17
        omega
    exact ⟨fun h => absurd h hfield, fun h => absurd h.1 (by omega)⟩
  · obtain ⟨m, hm⟩ :=
      Int.eq_ofNat_of_zero_le (le_trans (by norm_num) hlarge : (0 : ℤ) ≤ output_size size)
    have hcount : field (((m / 2 ^ 18 : ℕ) : ℤ) - 1) 17 + 1 = ((m / 262144 : ℕ) : ℤ) := by
      rw [field_eq (by omega) (by omega) (by norm_num)]
      omega
    rw [hm] at hlarge hlt
    rw [num_tile_eq, hm, loop_counter_of_nat hop _ (by omega), hcount]
    cases hup : op.roundsUp with
    | false => simp; omega
    | true =>
      rw [if_pos rfl, round_up_iff (by omega)]
      refine ⟨fun h => ⟨hlarge, fun _ => by omega⟩, fun h => ?_⟩
      have hdvd := h.2 rfl
      omega

/-- A buffer of one half-precision element, which the kernel loops over once and the program `2^17`
    times. -/
theorem loop_count_wraps : bo_size 1 1 1 1 .PIM_FP16 = 2 ∧
    encoded_counter (EltEntry.add.crf false [] 2) = some (2 ^ 17 - 1) ∧
    (EltEntry.add.execute 2).num_tile = 1 ∧ ¬ LoopCountsAgree .add false [] 2 := by
  have hcounter : encoded_counter (EltEntry.add.crf false [] 2) = some (2 ^ 17 - 1) := by decide +kernel
  have htiles : (EltEntry.add.execute 2).num_tile = 1 := by decide +kernel
  refine ⟨by decide +kernel, hcounter, htiles, ?_⟩
  rintro ⟨lc, hlc, hagree⟩
  rw [hcounter, Option.some.injEq] at hlc
  rw [htiles] at hagree
  omega

end PimLibrary.Executor
