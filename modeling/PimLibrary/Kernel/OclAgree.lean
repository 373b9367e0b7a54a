import PimLibrary.Kernel.OclTransactions

/-! The generic aligned GEMM kernels of the two backends against each other.

    The HIP kernel puts an in-tile two rows below the one before and moves the weight pointer on after
    each iteration; the OpenCL kernel scales one byte offset by `n_in_tile / 2`, which is two rows for
    eight in-tiles only. With two in-tiles, one output tile and one iteration every offset is zero. In
    between, an offset has to fit what it is computed in: an `int`, halved for the weight and taken as a
    `uint32_t` for the partial sums. The offset of a partial sum has `gidx` added once more, so that odd
    threads past the first reach into the next unit in every launch. -/

namespace PimLibrary.Kernel
open Schemes.Word Schemes.Loop PimLibrary.Device

attribute [local irreducible] int32

/-! ### Column numbers -/

/-- Four columns make one step of the digits above the interleaved ones. -/
theorem transaction_column (ch bank C : ℕ) : transaction ch 0 bank (C / 32) (C % 32) =
    transaction ch 0 bank 0 (C % 4) + 4096 * (C / 4) := by
  simp only [transaction]
  omega

/-- Four columns at a time; a build that is not for the emulator keeps 1 GB of them. -/
def Ocl.kept (emulator : Bool) (u : ℕ) : ℕ := if emulator then u else u % 2 ^ 13

theorem Ocl.kept_true (u : ℕ) : Ocl.kept true u = u := if_pos rfl

theorem Ocl.kept_false_lt (u : ℕ) : Ocl.kept false u < 2 ^ 13 := Nat.mod_lt _ (by norm_num)

theorem Ocl.kept_of_lt {emulator : Bool} {u : ℕ} (hu : u < 2 ^ 13) : Ocl.kept emulator u = u := by
  rw [Ocl.kept, Nat.mod_eq_of_lt hu, ite_self]

/-- `addr_gen_s` adds its offset to the column and carries into the row. -/
theorem addr_gen_s_eq (emulator : Bool) (ch bank : ℕ) {row col off : ℕ} (hrow : row < 2)
    (hcol : col < 32) (hoff : off < 2 ^ 32) : Ocl.addr_gen_s emulator ch 0 0 bank row col off =
      32 * (transaction ch 0 bank 0 ((32 * row + col + off / 32) % 4) +
        4096 * Ocl.kept emulator ((32 * row + col + off / 32) / 4)) + off % 32 := by
  have hnew : uint32 (col + off / 32) = col + off / 32 := uint32_of_lt (by omega)
  have hrow' : uint32 (row + (col + off / 32) / 32) = (32 * row + col + off / 32) / 32 :=
    (uint32_of_lt (by omega)).trans (by omega)
  have hcol' : (col + off / 32) % 32 = (32 * row + col + off / 32) % 32 := by omega
  have hlow : transaction ch 0 bank 0 ((32 * row + col + off / 32) % 4) < 4096 := by
    simp only [transaction]
    omega
  have haddr :=
    addr_gen_eq ch 0 bank ((32 * row + col + off / 32) / 32) ((32 * row + col + off / 32) % 32)
    (by norm_num) (by omega)
  rw [transaction_column] at haddr
  have hs : Ocl.addr_gen_s emulator ch 0 0 bank row col off =
      Ocl.addr_gen_ emulator ch 0 0 bank ((32 * row + col + off / 32) / 32)
        ((32 * row + col + off / 32) % 32) +
        off % 32 := by
    simp only [Ocl.addr_gen_s, vega20_pbi, Nat.reduceShiftLeft, Nat.reduceDiv, hnew, hrow', hcol']
  rw [hs, Ocl.addr_gen_, haddr, Ocl.kept]
  generalize transaction ch 0 bank 0 ((32 * row + col + off / 32) % 4) = low at hlow
  generalize (32 * row + col + off / 32) / 4 = u
  cases emulator with
  | true => rfl
  | false =>
    have hmask : 32 * (low + 4096 * u) &&& 0x3fffffff = 32 * (low + 4096 * u) % 2 ^ 30 :=
      Nat.and_two_pow_sub_one_eq_mod _ 30
    simp only [Bool.false_eq_true, if_false, hmask]
    omega

/-! ### The weight offset -/

/-- A byte offset that is computed as an `int`, halved, and taken as a `uint32_t`. -/
def halved (v : ℕ) : ℕ := toUint32 ((int32 ((256 * v : ℕ) : ℤ)).tdiv 2)

theorem halved_of_lt {v : ℕ} (hv : v < 2 ^ 23) : halved v = 128 * v := by
  have htdiv : ((256 * v : ℕ) : ℤ).tdiv 2 = ((128 * v : ℕ) : ℤ) := by
    rw [Int.tdiv_eq_ediv_of_nonneg (Int.natCast_nonneg _)]
    omega
  rw [halved, int32_natCast (by omega), htdiv, toUint32_natCast (by omega)]

/-- From `2^31` on the `int` is negative, and the halved offset is off by `2^31`. -/
theorem halved_of_mod {v : ℕ} (hv : 256 * v % 2 ^ 32 = 2 ^ 31) : halved v = 3 * 2 ^ 30 := by
  have hint : int32 ((256 * v : ℕ) : ℤ) = -2 ^ 31 := by
    obtain ⟨z, hz⟩ := int32_eq_add_mul ((256 * v : ℕ) : ℤ)
    have hlo := neg_le_int32 ((256 * v : ℕ) : ℤ)
    have hhi := int32_lt ((256 * v : ℕ) : ℤ)
    omega
  rw [halved, hint]
  rfl

theorem exists_halved {v : ℕ} (hv : 2 ∣ v) :
    ∃ k : ℤ, int32 ((256 * v : ℕ) : ℤ) = 512 * k ∧ halved v = toUint32 (256 * k) := by
  have hdvd : (512 : ℤ) ∣ int32 ((256 * v : ℕ) : ℤ) := by
    refine dvd_int32 (by norm_num) ?_
    obtain ⟨k, rfl⟩ := hv
    exact ⟨k, by push_cast; ring⟩
  obtain ⟨k, hk⟩ := hdvd
  refine ⟨k, hk, ?_⟩
  rw [halved, hk, show (512 : ℤ) * k = 256 * k * 2 by ring, Int.mul_tdiv_cancel _ two_ne_zero]

theorem dvd_halved {v : ℕ} (hv : 2 ∣ v) : 256 ∣ halved v := by
  obtain ⟨k, -, hk⟩ := exists_halved hv
  rw [hk, toUint32]
  omega

theorem halved_lt (v : ℕ) : halved v < 2 ^ 32 := toUint32_lt _

/-- A small halved offset tells `256 v` modulo `2^32`. -/
theorem mod_of_halved {v : ℕ} (hv : halved v = 2048) (heven : 2 ∣ v) : 256 * v % 2 ^ 32 = 4096 := by
  obtain ⟨k, hint, hk⟩ := exists_halved heven
  obtain ⟨z, hz⟩ := int32_eq_add_mul ((256 * v : ℕ) : ℤ)
  have hlo := neg_le_int32 ((256 * v : ℕ) : ℤ)
  have hhi := int32_lt ((256 * v : ℕ) : ℤ)
  rw [hk, toUint32] at hv
  omega

/-! ### The addresses of the two kernels -/

namespace TiledLaunch

variable (p : TiledLaunch) (emulator : Bool)

/-- How far the HIP kernel moves the weight pointer after each iteration. -/
def stride : ℤ := int32 ((p.in_w.toNat * p.out_w.toNat * 2 : ℕ) : ℤ)

/-- The place of an in-tile in the OpenCL kernel's offset. -/
def place (b o i : ℕ) : ℕ := p.n_in_tile * ((b * p.n_out_tile + o) * p.n_in_tile + 2 * i)

theorem weight_base_eq (b o i : ℕ) :
    Ocl.weight_base p.launch b o i = (int32 ((256 * p.place b o i : ℕ) : ℤ)).tdiv 2 := by
  rw [Ocl.weight_base, int32_mul_int32']
  congr 2
  simp only [launch, place]
  push_cast
  ring

theorem even_place (b o i : ℕ) : 2 ∣ p.place b o i := by
  rw [place, p.n_in_tile_eq, Nat.mul_assoc]
  exact Dvd.intro _ rfl

/-- The weight that the OpenCL kernel reads. -/
theorem ocl_weight (b r o bk i : ℕ) {ch j t : ℕ} (hj : j < 8) (ht : t < 16) :
    (p.ocl_addrs ch t emulator).weight b r o bk i j =
      32 * ((transaction ch 0 bk 0 (t / 2 % 4) +
        4096 * Ocl.kept emulator (2 * j + t / 8 + halved (p.place b o i) / 128) : ℕ) : ℤ) +
        offset t := by
  have hdvd := dvd_halved (p.even_place b o i)
  have hlt := halved_lt (p.place b o i)
  have hoff : toUint32 (Ocl.weight_base p.launch b o i + (t * 16 : ℕ)) = halved (p.place b o i) +
      16 * t := by
    rw [weight_base_eq]
    rw [halved, toUint32] at hdvd hlt ⊢
    rw [toUint32]
    omega
  have hrow : j / 4 < 2 := by omega
  have hcolumn : j % 4 * 8 < 32 := by omega
  have hword : halved (p.place b o i) + 16 * t < 2 ^ 32 := by omega
  have haddr := addr_gen_s_eq emulator ch bk hrow hcolumn hword
  have hhalf : (halved (p.place b o i) + 16 * t) % 32 = offset t := by
    rw [offset]
    omega
  have hcol : 32 * (j / 4) + j % 4 * 8 + (halved (p.place b o i) + 16 * t) / 32 =
      4 * (2 * j + t / 8 + halved (p.place b o i) / 128) + t / 2 % 4 := by
    omega
  rw [hcol, show ∀ A, (4 * A + t / 2 % 4) % 4 = t / 2 % 4 by omega,
    show ∀ A, (4 * A + t / 2 % 4) / 4 = A by omega, hhalf]
    at haddr
  simp only [ocl_addrs, hoff]
  exact_mod_cast haddr

/-- The rows of an in-tile in the HIP kernel. -/
theorem hip_row {b r o bk i j : ℕ} (hbk : bk < 2) (hj : j < 8) (ho : o * p.n_in_tile < 2 ^ 31)
    (hi : i + o * p.in_pairs < 2 ^ 29) :
    toUint32 ((if j < 4 then even_row else odd_row) (p.hip_session b r o) (bk + 2 * i)) =
      2 * (i + o * p.in_pairs) + j / 4 := by
  have hr : (p.hip_session b r o).r_offset = ((o * p.in_pairs : ℕ) : ℤ) := by
    have heq : (o : ℤ) * p.launch.n_in_tile = ((o * p.n_in_tile : ℕ) : ℤ) := by
      rw [Nat.cast_mul]
      rfl
    simp only [hip_session, aligned_session, heq, int32_natCast ho]
    rw [p.n_in_tile_eq, Nat.mul_left_comm]
    omega
  have heven : even_row (p.hip_session b r o) (bk + 2 * i) = ((2 * (i + o * p.in_pairs) : ℕ) : ℤ) := by
    rw [even_row, hr, ← int32_natCast (n := 2 * (i + o * p.in_pairs)) (by omega)]
    congr 1
    omega
  have hodd : odd_row (p.hip_session b r o) (bk + 2 * i) =
      ((2 * (i + o * p.in_pairs) + 1 : ℕ) : ℤ) := by
    rw [odd_row, heven, ← int32_natCast (n := 2 * (i + o * p.in_pairs) + 1) (by omega)]
    rfl
  split_ifs with hj4
  · rw [heven, toUint32_natCast (by omega)]
    omega
  · rw [hodd, toUint32_natCast (by omega)]
    omega

theorem hip_weight {b r o bk i ch j t : ℕ} (hbk : bk < 2) (hj : j < 8) (ht : t < 16)
    (ho : o * p.n_in_tile < 2 ^ 31) (hi : i + o * p.in_pairs < 2 ^ 29) :
    (p.hip_addrs ch t).weight b r o bk i j =
      32 * ((transaction ch 0 bk 0 (t / 2 % 4) +
        4096 * (2 * j + t / 8 + 16 * (i + o * p.in_pairs)) : ℕ) : ℤ) + (b * p.stride + offset t) := by
  have hptr : (p.hip_session b r o).weight = b * p.stride := by
    simp only [hip_session, aligned_session, aligned_state, launch, stride]
    rw [mul_assoc, int32_mul_int32', mul_left_comm, int32_mul_int32']
    push_cast
    ring_nf
  have hcol : 2 * (i + o * p.in_pairs) + j / 4 =
    (4 * (2 * j + t / 8 + 16 * (i + o * p.in_pairs)) + t / 2 % 4) / 32 ∧
      t / 2 + j % 4 * 8 = (4 * (2 * j + t / 8 + 16 * (i + o * p.in_pairs)) + t / 2 % 4) % 32 := by
    omega
  have haddr := addr_gen_eq ch 0 bk ((4 * (2 * j + t / 8 + 16 * (i + o * p.in_pairs)) + t / 2 % 4) / 32)
    ((4 * (2 * j + t / 8 + 16 * (i + o * p.in_pairs)) + t / 2 % 4) % 32) (by norm_num) (by omega)
  rw [transaction_column, show ∀ A, (4 * A + t / 2 % 4) % 4 = t / 2 % 4 by omega,
    show ∀ A, (4 * A + t / 2 % 4) / 4 = A by omega, ← hcol.1, ← hcol.2] at haddr
  simp only [hip_addrs, hptr, p.hip_row hbk hj ho hi, gidx, haddr]
  push_cast
  ring

/-- The in-tiles of the input in the order in which the kernels count them. -/
def in_tile (b r bk i : ℕ) : ℕ := (b * p.inout_h + r) * p.n_in_tile + (bk + 2 * i)

theorem ocl_input (b r bk i ch t : ℕ) : (p.ocl_addrs ch t emulator).input b r bk i =
    int32 ((256 * p.in_tile b r bk i : ℕ) : ℤ) + (16 * t : ℕ) := by
  have hbase : Ocl.i_base p.launch b r bk i = int32 ((256 * p.in_tile b r bk i : ℕ) : ℤ) := by
    rw [Ocl.i_base]
    congr 1
    simp only [launch, in_tile]
    push_cast
    ring
  simp only [ocl_addrs, hbase, Nat.mul_comm t 16]

theorem hip_input (b r bk i ch t : ℕ) : (p.hip_addrs ch t).input b r bk i =
    (int32 ((8 * ((b * p.inout_h + r) * p.n_in_tile) : ℕ) : ℤ) + ((bk + 2 * i) * 8 + t / 2 : ℕ)) *
      32 + offset t := by
  have hoff : (p.hip_session b r 0).i_offset =
      int32 ((8 * ((b * p.inout_h + r) * p.n_in_tile) : ℕ) : ℤ) := by
    simp only [hip_session, aligned_session, aligned_state_cnt, launch, Int.toNat_natCast]
    rw [int32_mul_int32, int32_mul_int32']
    congr 1
    push_cast
    ring
  have hinput : (p.hip_session b r 0).input = 0 := by simp only [hip_session, aligned_session]
  simp only [hip_addrs, i_addr, hoff, hinput, gidx, zero_add]

theorem input_agrees {b r bk i ch t : ℕ} (hT : p.in_tile b r bk i < 2 ^ 23) :
    (p.hip_addrs ch t).input b r bk i = (p.ocl_addrs ch t emulator).input b r bk i := by
  rw [hip_input, ocl_input]
  rw [in_tile] at hT ⊢
  rw [int32_natCast (by omega), int32_natCast (by omega), offset]
  omega

theorem input_differs {b r bk i ch t : ℕ} (hT : p.in_tile b r bk i = 2 ^ 23) :
    (p.hip_addrs ch t).input b r bk i / 32 ≠ (p.ocl_addrs ch t emulator).input b r bk i / 32 := by
  have hneg : int32 ((256 * 2 ^ 23 : ℕ) : ℤ) = -2 ^ 31 :=
    (int32_upper (by norm_num) (by norm_num)).trans (by norm_num)
  rw [hip_input, ocl_input, hT, hneg]
  rw [in_tile] at hT
  rw [int32_natCast (by omega), offset]
  omega

/-- The partial sums in the order in which the kernels count them. -/
def out_tile (b r o : ℕ) : ℕ := (b * p.inout_h + r) * p.n_out_tile + o

/-- The stray `gidx` moves the OpenCL kernel's access on in its unit. -/
theorem ocl_sum (b r o ch : ℕ) {t : ℕ} (ht : t < 16) : (p.ocl_addrs ch t emulator).sum b r o =
    32 * ((transaction ch 0 1 0 (t / 2 % 4) +
      4096 * Ocl.kept emulator (t / 8 + 256 * p.out_tile b r o % 2 ^ 32 / 128) : ℕ) : ℤ) +
        ((offset t + t / 2 : ℕ) : ℤ) := by
  have hbase : Ocl.sum_base p.launch b r o = int32 ((256 * p.out_tile b r o : ℕ) : ℤ) := by
    rw [Ocl.sum_base]
    congr 1
    simp only [launch, out_tile]
    push_cast
    ring
  generalize p.out_tile b r o = n at hbase
  have hoff : toUint32 (Ocl.sum_base p.launch b r o + (t * 16 : ℕ) + gidx t) =
      256 * n % 2 ^ 32 + (16 * t + t / 2) := by
    obtain ⟨z, hz⟩ := int32_eq_add_mul ((256 * n : ℕ) : ℤ)
    rw [hbase, hz, toUint32, gidx]
    omega
  have hword : 256 * n % 2 ^ 32 + (16 * t + t / 2) < 2 ^ 32 := by omega
  have haddr := addr_gen_s_eq emulator ch 1 Nat.two_pos (Nat.zero_lt_succ 31) hword
  obtain ⟨q, hq⟩ : 256 ∣ 256 * n % 2 ^ 32 := (Nat.dvd_mod_iff (by norm_num)).mpr (Dvd.intro n rfl)
  have hstray : (256 * n % 2 ^ 32 + (16 * t + t / 2)) % 32 = offset t + t / 2 := by
    rw [hq, offset]
    omega
  have hcol : 32 * 0 + 0 + (256 * n % 2 ^ 32 + (16 * t + t / 2)) / 32 =
      4 * (t / 8 + 256 * n % 2 ^ 32 / 128) + t / 2 % 4 := by
    have hthread : (16 * t + t / 2) / 32 = t / 2 := by omega
    have hquarter : t / 2 = 4 * (t / 8) + t / 2 % 4 := by omega
    rw [hq]
    omega
  rw [hcol, show ∀ A, (4 * A + t / 2 % 4) % 4 = t / 2 % 4 by omega,
    show ∀ A, (4 * A + t / 2 % 4) / 4 = A by omega, hstray]
    at haddr
  simp only [ocl_addrs, hoff]
  exact_mod_cast haddr

theorem hip_sum {b r o ch t : ℕ} (hP : p.out_tile b r o < 2 ^ 27) (ht : t < 16) :
    (p.hip_addrs ch t).sum b r o =
      32 * ((transaction ch 0 1 0 (t / 2 % 4) + 4096 * (t / 8 + 2 * p.out_tile b r o) : ℕ) : ℤ) +
        offset t := by
  have hloc : int32 ((aligned_state p.launch b r).gemv_cnt * p.launch.n_out_tile * 8 + o * 8 +
    (t / 2 : ℕ)) =
      ((8 * p.out_tile b r o + t / 2 : ℕ) : ℤ) := by
    rw [← int32_natCast (n := 8 * p.out_tile b r o + t / 2) (by omega), aligned_state_cnt,
      mul_assoc, add_assoc, ← int32_add_int32', int32_mul_int32', int32_add_int32']
    congr 1
    simp only [launch, out_tile, Int.toNat_natCast]
    push_cast
    ring
  have hrow : toUint32 (((8 * p.out_tile b r o + t / 2 : ℕ) : ℤ) / 32) =
      (8 * p.out_tile b r o + t / 2) / 32 := by
    rw [toUint32]
    omega
  have hcol : toUint32 (((8 * p.out_tile b r o + t / 2 : ℕ) : ℤ).tmod 32) =
      (8 * p.out_tile b r o + t / 2) % 32 := by
    rw [Int.tmod_eq_emod_of_nonneg (Int.natCast_nonneg _), toUint32]
    omega
  have hcell : ((p.hip_session b r o).cell (t / 2)) =
      ((8 * p.out_tile b r o + t / 2) / 32, (8 * p.out_tile b r o + t / 2) % 32) := by
    simp only [hip_session, aligned_session, hloc, hrow, hcol]
  have hsum : (p.hip_session b r o).partial_sum = 0 := by simp only [hip_session, aligned_session]
  have haddr :=
    addr_gen_eq ch 0 1 ((8 * p.out_tile b r o + t / 2) / 32) ((8 * p.out_tile b r o + t / 2) % 32)
    (by norm_num) (by omega)
  rw [transaction_column, show (8 * p.out_tile b r o + t / 2) % 4 = t / 2 % 4 by omega,
    show (8 * p.out_tile b r o + t / 2) / 4 = t / 8 + 2 * p.out_tile b r o by omega] at haddr
  simp only [hip_addrs, partial_addr, hcell, hsum, gidx, haddr, zero_add, Nat.cast_mul,
    Nat.cast_ofNat]

/-- How many partial-sum transactions the OpenCL kernel's offset reaches. -/
def sumLimit : ℕ := if emulator then 2 ^ 24 else 2 ^ 12

/-- The threads whose access to a partial sum the stray `gidx` leaves in its unit. -/
def InSum (t : ℕ) : Prop := t % 2 = 0 ∨ t = 1

theorem sum_agrees {b r o ch t : ℕ} (hP : p.out_tile b r o < sumLimit emulator) (ht : t < 16)
    (hin : InSum t) : SameUnits ((p.ocl_addrs ch t emulator).sum b r o) ((p.hip_addrs ch t).sum b r o) := by
  have hkept : Ocl.kept emulator (t / 8 + 256 * p.out_tile b r o % 2 ^ 32 / 128) =
      t / 8 + 2 * p.out_tile b r o := by
    cases emulator with
    | true =>
      have hP : p.out_tile b r o < 2 ^ 24 := hP
      rw [Ocl.kept_true]
      omega
    | false =>
      have hP : p.out_tile b r o < 2 ^ 12 := hP
      rw [Ocl.kept_of_lt (by omega)]
      omega
  have hlimit : sumLimit emulator ≤ 2 ^ 24 := by cases emulator <;> decide
  have hhalf : offset t + t / 2 ≤ 16 := by
    rw [InSum] at hin
    rw [offset]
    omega
  rw [p.hip_sum (by omega) ht, p.ocl_sum emulator b r o ch ht, hkept, SameUnits]
  generalize ((transaction ch 0 1 0 (t / 2 % 4) + 4096 * (t / 8 + 2 * p.out_tile b r o) : ℕ) : ℤ) = n
  omega

theorem sum_differs {b r o ch t : ℕ} (hP : p.out_tile b r o = sumLimit emulator) (ht : t < 16) :
    ¬SameUnits ((p.ocl_addrs ch t emulator).sum b r o) ((p.hip_addrs ch t).sum b r o) := by
  have hoff : offset t + t / 2 < 32 := by
    rw [offset]
    omega
  rw [SameUnits]
  rintro ⟨heq, -⟩
  cases emulator with
  | true =>
    have hP : p.out_tile b r o = 2 ^ 24 := hP
    rw [p.hip_sum (by omega) ht, p.ocl_sum true b r o ch ht, Ocl.kept, if_pos rfl, hP] at heq
    omega
  | false =>
    have hP : p.out_tile b r o = 2 ^ 12 := hP
    rw [p.hip_sum (by omega) ht, p.ocl_sum false b r o ch ht, hP, Ocl.kept,
      if_neg Bool.false_ne_true] at heq
    omega

/-! ### The units of an access -/

theorem offset_le (t : ℕ) : offset t ≤ 16 := by
  rw [offset]
  omega

theorem ocl_input_oneUnit (b r bk i ch t : ℕ) : OneUnit ((p.ocl_addrs ch t emulator).input b r bk i) := by
  obtain ⟨k, hk⟩ : (32 : ℤ) ∣ int32 ((256 * p.in_tile b r bk i : ℕ) : ℤ) :=
    dvd_int32 (by norm_num) ⟨8 * p.in_tile b r bk i, by push_cast; ring⟩
  rw [ocl_input, hk, OneUnit]
  omega

theorem ocl_weight_oneUnit (b r o bk i : ℕ) {ch j t : ℕ} (hj : j < 8) (ht : t < 16) :
    OneUnit ((p.ocl_addrs ch t emulator).weight b r o bk i j) := by
  rw [p.ocl_weight emulator b r o bk i hj ht]
  exact oneUnit_add _ (offset_le t)

/-- Odd threads past the first reach into the next unit. -/
theorem ocl_sum_oneUnit_iff (b r o ch : ℕ) {t : ℕ} (ht : t < 16) :
    OneUnit ((p.ocl_addrs ch t emulator).sum b r o) ↔ InSum t := by
  rw [p.ocl_sum emulator b r o ch ht, OneUnit, InSum, offset]
  omega

theorem hip_input_oneUnit (b r bk i ch t : ℕ) : OneUnit ((p.hip_addrs ch t).input b r bk i) := by
  rw [hip_input, mul_comm]
  exact oneUnit_add _ (offset_le t)

theorem ocl_firstTiles {ch t : ℕ} (ht : t < 16) :
    ∀ access ∈ (p.ocl_addrs ch t emulator).firstTiles p.in_pairs, OneUnit access.addr := by
  intro access h
  simp only [GemmAddrs.firstTiles, GemmAddrs.tile, List.mem_flatMap, List.mem_cons, List.mem_map,
    List.mem_range] at h
  obtain ⟨bk, -, i, -, rfl | ⟨j, hj, rfl⟩⟩ := h
  · exact p.ocl_input_oneUnit emulator 0 0 bk i ch t
  · exact p.ocl_weight_oneUnit emulator 0 0 0 bk i hj ht

theorem hip_firstTiles {ch t : ℕ} (ht : t < 16) :
    ∀ access ∈ (p.hip_addrs ch t).firstTiles p.in_pairs, OneUnit access.addr := by
  have hpairs := p.n_in_tile_eq
  have hlt := p.n_in_tile_lt
  intro access h
  simp only [GemmAddrs.firstTiles, GemmAddrs.tile, List.mem_flatMap, List.mem_cons, List.mem_map,
    List.mem_range] at h
  obtain ⟨bk, hbk, i, hi, rfl | ⟨j, hj, rfl⟩⟩ := h
  · exact p.hip_input_oneUnit 0 0 bk i ch t
  · have hweight := @hip_weight p 0 0 0 bk i ch j t hbk hj ht (by omega) (by omega)
    simp only [Nat.cast_zero, zero_mul, zero_add] at hweight
    rw [hweight]
    exact oneUnit_add _ (offset_le t)

/-! ### When the weights agree -/

/-- How many output tiles the OpenCL kernel's offset reaches with eight in-tiles. -/
def tileLimit : ℕ := if emulator then 2 ^ 17 else 2 ^ 7

/-- The weight pointer of the HIP kernel stays on the tiles. -/
def OnTiles : Prop :=
  p.n_in_tile = 8 ∧ (p.iter_cnt = 1 ∨
    p.in_w.toNat = 1024 ∧ p.out_w.toNat = 4096 * p.n_out_tile ∧ p.n_out_tile < 256) ∨
  p.n_in_tile = 2 ∧ p.n_out_tile = 1 ∧ p.iter_cnt = 1

theorem kept_halved {u v : ℕ} (hv : v < 2 ^ 23) (huv : u + v < 64 * tileLimit emulator) :
    Ocl.kept emulator (u + halved v / 128) = u + v := by
  rw [halved_of_lt hv, Nat.mul_div_cancel_left v (by norm_num)]
  cases emulator with
  | true => rfl
  | false => exact Ocl.kept_of_lt huv

/-- Past the limit the offset is lost. -/
theorem kept_limit : Ocl.kept emulator (halved (64 * tileLimit emulator) / 128) ≠ 64 *
    tileLimit emulator := by
  cases emulator with
  | true =>
    have hlimit : 64 * tileLimit true = 2 ^ 23 := rfl
    rw [hlimit, halved_of_mod (by norm_num)]
    decide
  | false =>
    have hlimit : 64 * tileLimit false = 2 ^ 13 := rfl
    rw [hlimit, halved_of_lt (by norm_num)]
    decide

theorem tileLimit_le : tileLimit emulator ≤ 2 ^ 17 := by
  cases emulator <;> decide

theorem stride_eq (hin : p.in_w.toNat = 1024) (hout : p.out_w.toNat = 4096 * p.n_out_tile)
    (hlt : p.n_out_tile < 256) : p.stride = ((2 ^ 23 * p.n_out_tile : ℕ) : ℤ) := by
  have hprod : p.in_w.toNat * p.out_w.toNat * 2 = 2 ^ 23 * p.n_out_tile := by
    rw [hin, hout]
    ring
  rw [stride, hprod, int32_natCast (by omega)]

theorem weight_agrees (h : p.OnTiles) (hlimit : p.iter_cnt * p.n_out_tile ≤ tileLimit emulator)
    {b r o bk i ch j t : ℕ} (hb : b < p.iter_cnt) (ho : o < p.n_out_tile) (hbk : bk < 2) (hi : i <
      p.in_pairs)
    (hj : j < 8) (ht : t < 16) :
    (p.hip_addrs ch t).weight b r o bk i j = (p.ocl_addrs ch t emulator).weight b r o bk i j := by
  have hpairs := p.n_in_tile_eq
  have hmax := tileLimit_le emulator
  have hq : b * p.n_out_tile + o < p.iter_cnt * p.n_out_tile :=
    calc b * p.n_out_tile + o < b * p.n_out_tile + p.n_out_tile := by omega
      _ = (b + 1) * p.n_out_tile := by ring
      _ ≤ p.iter_cnt * p.n_out_tile := Nat.mul_le_mul_right _ hb
  rcases h with ⟨hin, hstride⟩ | ⟨hin, hout, hiter⟩
  · have hm : p.in_pairs = 4 := by omega
    have hplace : p.place b o i = 64 * (b * p.n_out_tile + o) + 16 * i := by
      rw [place, hin]
      ring
    have hptr : (b : ℤ) * p.stride = 32 * ((2 ^ 18 * (b * p.n_out_tile) : ℕ) : ℤ) := by
      rcases hstride with hiter | ⟨hw, hout, hlt⟩
      · obtain rfl : b = 0 := by omega
        simp
      · rw [p.stride_eq hw hout hlt]
        push_cast
        ring
    have ho' : o * p.n_in_tile < 2 ^ 31 := by
      rw [hin]
      omega
    have hi' : i + o * p.in_pairs < 2 ^ 29 := by
      rw [hm]
      omega
    rw [p.hip_weight hbk hj ht ho' hi', p.ocl_weight emulator b r o bk i hj ht, hptr,
      kept_halved emulator (by omega) (by omega), hplace, hm]
    push_cast
    ring
  · have hm : p.in_pairs = 1 := by omega
    obtain ⟨rfl, rfl, rfl⟩ : b = 0 ∧ o = 0 ∧ i = 0 := by omega
    have hplace : p.place 0 0 0 = 0 := by simp [place]
    have hone : 1 ≤ tileLimit emulator := by
      rw [hout, hiter] at hlimit
      exact hlimit
    rw [p.hip_weight hbk hj ht (by omega) (by omega), p.ocl_weight emulator 0 r 0 bk 0 hj ht,
      kept_halved emulator (by omega) (by omega), hplace]
    simp

/-- The thread reads the first weight of every in-tile in the same units. -/
def FirstWeights (ch t : ℕ) : Prop := ∀ b < p.iter_cnt, ∀ o < p.n_out_tile, ∀ i < p.in_pairs,
  SameUnits ((p.ocl_addrs ch t emulator).weight b 0 o 0 i 0) ((p.hip_addrs ch t).weight b 0 o 0 i 0)

variable {p emulator} {ch t : ℕ}

/-- The HIP kernel's pointer and tile meet the OpenCL kernel's offset up to half a unit. -/
theorem FirstWeights.bounds (h : p.FirstWeights emulator ch t) (ht : t < 16) {b o i : ℕ}
    (hb : b < p.iter_cnt) (ho : o < p.n_out_tile) (hi : i < p.in_pairs) (ho' : o * p.n_in_tile < 2 ^ 31)
    (hi' : i + o * p.in_pairs < 2 ^ 29) :
    2 ^ 17 * (Ocl.kept emulator (halved (p.place b o i) / 128) : ℤ) - 16 ≤
        2 ^ 21 * ((i + o * p.in_pairs : ℕ) : ℤ) + b * p.stride ∧
      2 ^ 21 * ((i + o * p.in_pairs : ℕ) : ℤ) + b * p.stride ≤
        2 ^ 17 * (Ocl.kept emulator (halved (p.place b o i) / 128) : ℤ) + 16 := by
  have hsame := h b hb o ho i hi
  rw [p.hip_weight two_pos (by norm_num) ht ho' hi',
    p.ocl_weight emulator b 0 o 0 i (by norm_num) ht, SameUnits] at hsame
  -- the thread's part of the offset is less than the place's step
  have hkept : Ocl.kept emulator (2 * 0 + t / 8 + halved (p.place b o i) / 128) =
      t / 8 + Ocl.kept emulator (halved (p.place b o i) / 128) := by
    obtain ⟨k, hk⟩ := dvd_halved (p.even_place b o i)
    cases emulator with
    | true => simp only [Ocl.kept_true, Nat.mul_zero, Nat.zero_add]
    | false =>
      simp only [Ocl.kept, Bool.false_eq_true, if_false]
      omega
  have hoff : offset t = 0 ∨ offset t = 16 := by
    rw [offset]
    omega
  rw [hkept] at hsame
  generalize (b : ℤ) * p.stride = ptr at hsame ⊢
  omega

/-- Without a pointer to move, the OpenCL kernel has to scale as the HIP kernel does. -/
theorem FirstWeights.first (h : p.FirstWeights emulator ch t) (ht : t < 16) {o i : ℕ}
    (ho : o < p.n_out_tile) (hi : i < p.in_pairs) (ho' : o * p.n_in_tile < 2 ^ 31)
    (hi' : i + o * p.in_pairs < 2 ^ 29) :
    16 * (i + o * p.in_pairs) = Ocl.kept emulator (halved (p.place 0 o i) / 128) := by
  have hbounds := h.bounds ht p.iter_cnt_pos ho hi ho' hi'
  rw [Nat.cast_zero, zero_mul, add_zero] at hbounds
  omega

/-- The second iteration starts where the pointer was moved to. -/
theorem FirstWeights.second (h : p.FirstWeights emulator ch t) (ht : t < 16) (hiter : 2 ≤ p.iter_cnt) :
    2 ^ 17 * (Ocl.kept emulator (halved (p.place 1 0 0) / 128) : ℤ) - 16 ≤ p.stride ∧
      p.stride ≤ 2 ^ 17 * (Ocl.kept emulator (halved (p.place 1 0 0) / 128) : ℤ) + 16 := by
  have hbounds := h.bounds ht (b := 1) (o := 0) (i := 0) hiter p.out_tiles_pos p.in_pairs_pos
    (by simp) (by simp)
  rw [Nat.cast_one, one_mul] at hbounds
  omega

/-- More than one in-tile of a bank forces four of them. -/
theorem FirstWeights.in_pairs_eq (h : p.FirstWeights emulator ch t) (ht : t < 16) (hm : 2 ≤ p.in_pairs) :
    p.in_pairs = 4 := by
  have hplace : ∀ i, p.place 0 0 i = 4 * p.in_pairs * i := by
    intro i
    rw [place, p.n_in_tile_eq]
    ring
  have hfirst : ∀ i < p.in_pairs, i < 2 ^ 29 → 16 * i =
      Ocl.kept emulator (halved (4 * p.in_pairs * i) / 128) := by
    intro i hi hlt
    have heq := h.first ht p.out_tiles_pos hi (by simp) (by simpa using hlt)
    rwa [hplace, Nat.zero_mul, Nat.add_zero] at heq
  have hone := hfirst 1 hm (by norm_num)
  rw [Nat.mul_one, Nat.mul_one] at hone
  cases emulator with
  | true =>
    rw [Ocl.kept_true] at hone
    have heven : 2 ∣ 4 * p.in_pairs := ⟨2 * p.in_pairs, by ring⟩
    have hhalved : halved (4 * p.in_pairs) = 2048 := by
      obtain ⟨k, hk⟩ := dvd_halved heven
      omega
    have hmod := mod_of_halved hhalved heven
    rcases Nat.lt_or_ge (2 ^ 19) p.in_pairs with hlarge | hsmall
    · have hfar := hfirst (2 ^ 19) hlarge (by norm_num)
      rw [Ocl.kept_true, halved_of_mod (by omega)] at hfar
      omega
    · rw [halved_of_lt (by omega)] at hone
      omega
  | false =>
    rcases Nat.lt_or_ge 512 p.in_pairs with hlarge | hsmall
    · have hfar := hfirst 512 hlarge (by norm_num)
      have := Ocl.kept_false_lt (halved (4 * p.in_pairs * 512) / 128)
      omega
    · rw [halved_of_lt (by omega), Nat.mul_div_cancel_left _ (by norm_num),
        Ocl.kept_of_lt (by omega)] at hone
      omega

/-- One in-tile of each bank leaves no second offset: one output tile and one iteration. -/
theorem FirstWeights.single (h : p.FirstWeights emulator ch t) (ht : t < 16) (hm : p.in_pairs = 1) :
    p.n_out_tile = 1 ∧ p.iter_cnt = 1 := by
  have hin : p.n_in_tile = 2 := by rw [p.n_in_tile_eq, hm]
  have hkept : Ocl.kept emulator (halved 4 / 128) = 4 := by
    rw [halved_of_lt (by norm_num)]
    exact Ocl.kept_of_lt (by norm_num)
  have hout : p.n_out_tile = 1 := by
    by_contra hne
    have hpos : 0 < p.n_out_tile := p.out_tiles_pos
    have hplace : p.place 0 1 0 = 4 := by simp [place, hin]
    have heq := h.first ht (o := 1) (i := 0) (by omega) (by omega) (by omega) (by omega)
    rw [hplace, hkept, hm] at heq
    omega
  refine ⟨hout, ?_⟩
  by_contra hne
  have hpos := p.iter_cnt_pos
  have hplace : p.place 1 0 0 = 4 := by simp [place, hin, hout]
  have heq := h.second ht (by omega)
  rw [hplace, hkept] at heq
  have hin_w : 256 ≤ p.in_w.toNat ∧ p.in_w.toNat ≤ 383 := by
    rw [n_in_tile] at hin
    omega
  have hout_w : 4096 ≤ p.out_w.toNat ∧ p.out_w.toNat ≤ 8191 := by
    rw [n_out_tile] at hout
    omega
  have hlow := Nat.mul_le_mul hin_w.1 hout_w.1
  have hhigh := Nat.mul_le_mul hin_w.2 hout_w.2
  rw [stride, int32_natCast (by omega)] at heq
  omega

theorem in_w_eight (hin : p.n_in_tile = 8) : 1024 ≤ p.in_w.toNat ∧ p.in_w.toNat ≤ 1151 := by
  rw [n_in_tile] at hin
  omega

theorem out_w_bounds : 4096 * p.n_out_tile ≤ p.out_w.toNat ∧ p.out_w.toNat ≤
    4096 * p.n_out_tile + 4095 := by
  rw [n_out_tile]
  omega

theorem place_eight (hin : p.n_in_tile = 8) (b o : ℕ) :
    p.place b o 0 = 64 * (b * p.n_out_tile + o) := by
  rw [place, hin]
  ring

/-- At the limit the next iteration's offset is lost, and no pointer follows it there. -/
theorem FirstWeights.ne_limit (h : p.FirstWeights emulator ch t) (ht : t < 16) (hin : p.n_in_tile = 8)
    (hiter : 2 ≤ p.iter_cnt) :
    p.n_out_tile ≠ tileLimit emulator := by
  intro hlimit
  have hin_w := in_w_eight hin
  have hout_w := out_w_bounds (p := p)
  have hstride : p.stride < 2 ^ 31 := int32_lt _
  have heq := h.second ht hiter
  rw [place_eight hin, Nat.one_mul, Nat.add_zero, hlimit] at heq
  cases emulator with
  | true =>
    have h64 : 64 * tileLimit true = 2 ^ 23 := rfl
    rw [h64, halved_of_mod (by norm_num), Ocl.kept_true] at heq
    omega
  | false =>
    have h64 : 64 * tileLimit false = 2 ^ 13 := rfl
    have hkept : Ocl.kept false (2 ^ 13) = 0 := by decide
    have hn : p.n_out_tile = 128 := hlimit
    rw [hn] at hout_w
    have hlow := Nat.mul_le_mul hin_w.1 hout_w.1
    have hhigh := Nat.mul_le_mul hin_w.2 hout_w.2
    rw [h64, halved_of_lt (by norm_num), Nat.mul_div_cancel_left _ (by norm_num), hkept, stride,
      int32_natCast (by omega)] at heq
    omega

/-- A product that moves the pointer by `n` tiles, up to half a unit, has no remainders. -/
theorem remainders_eq_zero {n d e : ℕ} (hpos : 0 < n) (hn : n ≤ 256) (hd : d ≤ 127) (he : e ≤ 4095)
    (hlo : 2 ^ 23 * (n : ℤ) - 16 ≤ int32 (((1024 + d) * (4096 * n + e) * 2 : ℕ) : ℤ))
    (hhi : int32 (((1024 + d) * (4096 * n + e) * 2 : ℕ) : ℤ) ≤ 2 ^ 23 * (n : ℤ) + 16) :
    n < 256 ∧ d = 0 ∧ e = 0 := by
  have hprod : (1024 + d) * (4096 * n + e) * 2 =
    2 ^ 23 * n + (2048 * e + 8192 * (n * d) + 2 * (d * e)) := by ring
  have hnd : n * d ≤ 256 * 127 := Nat.mul_le_mul hn hd
  have hde : d * e ≤ 127 * 4095 := Nat.mul_le_mul hd he
  have hle : d ≤ n * d := Nat.le_mul_of_pos_left d hpos
  rw [hprod] at hlo hhi
  generalize n * d = x at hnd hle hlo hhi
  generalize d * e = y at hde hlo hhi
  rcases Nat.lt_or_ge (2 ^ 23 * n + (2048 * e + 8192 * x + 2 * y)) (2 ^ 31) with hsmall | hlarge
  · rw [int32_natCast hsmall] at hlo hhi
    omega
  · have hneg := int32_neg (x := ((2 ^ 23 * n + (2048 * e + 8192 * x + 2 * y) : ℕ) : ℤ)) (by omega)
      (by omega)
    omega

/-- With eight in-tiles the HIP kernel's pointer has to move by whole tiles. -/
theorem FirstWeights.stride_fits (h : p.FirstWeights emulator ch t) (ht : t < 16) (hin : p.n_in_tile = 8)
    (hiter : 2 ≤ p.iter_cnt)
    (hlimit : p.n_out_tile ≤ tileLimit emulator) :
    p.in_w.toNat = 1024 ∧ p.out_w.toNat = 4096 * p.n_out_tile ∧ p.n_out_tile < 256 := by
  have hpos : 0 < p.n_out_tile := p.out_tiles_pos
  have hmax := tileLimit_le emulator
  have hne := h.ne_limit ht hin hiter
  have hstride : p.stride < 2 ^ 31 := int32_lt _
  have heq := h.second ht hiter
  have hkept := kept_halved emulator (u := 0) (v := 64 * p.n_out_tile) (by omega) (by omega)
  rw [Nat.zero_add, Nat.zero_add] at hkept
  rw [place_eight hin, Nat.one_mul, Nat.add_zero, hkept] at heq
  have hn : p.n_out_tile ≤ 256 := by omega
  obtain ⟨d, hd⟩ := Nat.exists_eq_add_of_le (in_w_eight hin).1
  obtain ⟨e, he⟩ := Nat.exists_eq_add_of_le (out_w_bounds (p := p)).1
  have hd' := (in_w_eight hin).2
  have he' := (out_w_bounds (p := p)).2
  rw [stride, hd, he] at heq
  obtain ⟨hn, rfl, rfl⟩ := remainders_eq_zero (n := p.n_out_tile) hpos hn (d := d) (e := e) (by omega)
    (by omega) (by omega) (by omega)
  exact ⟨hd, he, hn⟩

/-- No offset of the weight leaves its range. -/
theorem FirstWeights.le_limit (h : p.FirstWeights emulator ch t) (ht : t < 16) (hin : p.n_in_tile = 8) :
    p.n_out_tile ≤ tileLimit emulator := by
  have hm := p.in_pairs_pos
  have hmax := tileLimit_le emulator
  by_contra hlt
  rw [not_le] at hlt
  have ho : tileLimit emulator * p.n_in_tile < 2 ^ 31 := by
    rw [hin]
    omega
  have hpairs : p.in_pairs = 4 := by
    have := p.n_in_tile_eq
    omega
  have heq := h.first ht hlt hm ho (by rw [hpairs]; omega)
  rw [place_eight hin, Nat.zero_mul, Nat.zero_add, Nat.zero_add, hpairs] at heq
  exact kept_limit emulator (heq.symm.trans (by ring))

theorem FirstWeights.tiles_le (h : p.FirstWeights emulator ch t) (ht : t < 16) (hin : p.n_in_tile = 8) :
    p.iter_cnt * p.n_out_tile ≤ tileLimit emulator := by
  have hm := p.in_pairs_pos
  have hmax := tileLimit_le emulator
  have hpos : 0 < p.n_out_tile := p.out_tiles_pos
  have hle := h.le_limit ht hin
  have hpairs : p.in_pairs = 4 := by
    have := p.n_in_tile_eq
    omega
  by_contra hlt
  rw [not_le] at hlt
  have hiter : 2 ≤ p.iter_cnt := by
    by_contra hone
    obtain hone : p.iter_cnt = 1 := by
      have := p.iter_cnt_pos
      omega
    rw [hone, Nat.one_mul] at hlt
    omega
  obtain ⟨hin_w, hout_w, hn⟩ := h.stride_fits ht hin hiter hle
  -- The tile at the limit, in the iteration it belongs to.
  have hdiv := Nat.div_add_mod' (tileLimit emulator) p.n_out_tile
  have ho := Nat.mod_lt (tileLimit emulator) hpos
  have hb : tileLimit emulator / p.n_out_tile < p.iter_cnt := (Nat.div_lt_iff_lt_mul hpos).mpr hlt
  generalize tileLimit emulator / p.n_out_tile = b at hdiv hb
  generalize tileLimit emulator % p.n_out_tile = o at hdiv ho
  have heq := h.bounds ht hb ho hm (by rw [hin]; omega) (by rw [hpairs]; omega)
  have hptr : (b : ℤ) * p.stride = 2 ^ 23 * ((b * p.n_out_tile : ℕ) : ℤ) := by
    rw [p.stride_eq hin_w hout_w hn]
    push_cast
    ring
  rw [place_eight hin, hdiv, hptr, hpairs, Nat.zero_add] at heq
  have hkept := kept_limit emulator
  generalize Ocl.kept emulator (halved (64 * tileLimit emulator) / 128) = k at heq hkept
  omega

/-- What agreement on one thread's weights amounts to. -/
theorem FirstWeights.onTiles (h : p.FirstWeights emulator ch t) (ht : t < 16) :
    p.OnTiles ∧ p.iter_cnt * p.n_out_tile ≤ tileLimit emulator := by
  have hm := p.in_pairs_pos
  have hin := p.n_in_tile_eq
  rcases Nat.lt_or_ge p.in_pairs 2 with hone | htwo
  · obtain hone : p.in_pairs = 1 := by omega
    obtain ⟨hout, hiter⟩ := h.single ht hone
    refine ⟨.inr ⟨by omega, hout, hiter⟩, ?_⟩
    rw [hout, hiter]
    cases emulator <;> decide
  · have hin : p.n_in_tile = 8 := by
      have := h.in_pairs_eq ht htwo
      omega
    refine ⟨.inl ⟨hin, ?_⟩, h.tiles_le ht hin⟩
    rcases Nat.lt_or_ge p.iter_cnt 2 with hiter | hiter
    · have := p.iter_cnt_pos
      exact .inl (by omega)
    · exact .inr (h.stride_fits ht hin hiter (h.le_limit ht hin))

end TiledLaunch

/-! ### When the kernels agree -/

/-- The launches for which the two kernels coincide: the weight pointer stays on the tiles, and no
    offset leaves its range. -/
structure Coincide (emulator : Bool) (p : TiledLaunch) : Prop where
  tiles : p.OnTiles
  weights : p.iter_cnt * p.n_out_tile ≤ TiledLaunch.tileLimit emulator
  inputs : p.iter_cnt * p.inout_h * p.n_in_tile ≤ 2 ^ 23
  sums : p.iter_cnt * p.inout_h * p.n_out_tile ≤ TiledLaunch.sumLimit emulator

variable {p : TiledLaunch} {emulator : Bool}

theorem Coincide.sameRun (h : Coincide emulator p) {ch t : ℕ} (ht : t < 16)
    (hin : TiledLaunch.InSum t) : (p.ocl_addrs ch t emulator).SameRun (p.hip_addrs ch t) p.iter_cnt
      p.inout_h p.n_out_tile p.in_pairs := by
  refine fun b hb r hr o ho => ⟨fun bk hbk i hi => ⟨?_, fun j hj => ?_⟩, ?_⟩
  · have hT : p.in_tile b r bk i < p.iter_cnt * p.inout_h * p.n_in_tile := by
      have hpairs := p.n_in_tile_eq
      exact exists_nest_iff.mpr ⟨b, hb, r, hr, bk + 2 * i, by omega, rfl⟩
    rw [p.input_agrees emulator (hT.trans_le h.inputs)]
    exact .refl _
  · rw [p.weight_agrees emulator h.tiles h.weights hb ho hbk hi hj ht]
    exact .refl _
  · have hP : p.out_tile b r o < p.iter_cnt * p.inout_h * p.n_out_tile :=
      exists_nest_iff.mpr ⟨b, hb, r, hr, o, ho, rfl⟩
    exact p.sum_agrees emulator (hP.trans_le h.sums) ht hin

/-- Each of the first sixteen threads tells. -/
theorem coincide_of_sameRun {ch t : ℕ} (ht : t < 16)
    (h : (p.ocl_addrs ch t emulator).SameRun (p.hip_addrs ch t) p.iter_cnt p.inout_h p.n_out_tile
      p.in_pairs) : Coincide emulator p := by
  have hfirst : p.FirstWeights emulator ch t := fun b hb o ho i hi =>
    ((h b hb 0 p.inout_h_pos o ho).1 0 two_pos i hi).2 0 (by norm_num)
  obtain ⟨htiles, hweights⟩ := hfirst.onTiles ht
  refine ⟨htiles, hweights, ?_, ?_⟩
  · by_contra hlt
    obtain ⟨b, hb, r, hr, tile, htile, heq⟩ := exists_nest_iff.mp (not_le.mp hlt)
    have hpairs := p.n_in_tile_eq
    have hT : p.in_tile b r (tile % 2) (tile / 2) = 2 ^ 23 := by
      rw [← heq, TiledLaunch.in_tile, Nat.mod_add_div]
    have hsame := ((h b hb r hr 0 p.out_tiles_pos).1 (tile % 2) (Nat.mod_lt _ two_pos) (tile / 2)
      (by omega)).1
    exact p.input_differs emulator hT hsame.1.symm
  · by_contra hlt
    obtain ⟨b, hb, r, hr, o, ho, heq⟩ := exists_nest_iff.mp (not_le.mp hlt)
    exact p.sum_differs emulator heq ht (h b hb r hr o ho).2

/-- A thread of a channel makes the same data transactions in both kernels, in the same order, exactly
    when it is one of the idle ones, or for these launches one of those whose partial sum stays in its
    unit. -/
theorem generic_kernels_agree_iff (emulator : Bool) (p : TiledLaunch) (ch t : ℕ) :
    transactions t (Ocl.pim_aligned_gemm_bias_relu_fp16 emulator p.launch ch) =
      transactions t (pim_aligned_gemm_bias_relu_fp16 p.launch ch) ↔
    16 ≤ t ∨ (t % 2 = 0 ∨ t = 1) ∧ Coincide emulator p := by
  rw [transactions, transactions]
  rcases Nat.lt_or_ge t 16 with ht | ht
  · rw [p.ocl_accesses ch t emulator ht, p.hip_accesses ch t ht, or_iff_right (Nat.not_le.mpr ht)]
    by_cases hin : TiledLaunch.InSum t
    · rw [GemmAddrs.run_transactions_iff _ _ (fun b r bk i => p.ocl_input_oneUnit emulator b r bk i ch t)
        (fun b r o bk i j hj => p.ocl_weight_oneUnit emulator b r o bk i hj ht)
        fun b r o => (p.ocl_sum_oneUnit_iff emulator b r o ch ht).mpr hin]
      exact ⟨fun h => ⟨hin, coincide_of_sameRun ht h⟩, fun h => h.2.sameRun ht hin⟩
    · refine iff_of_false ?_ fun h => hin h.1
      have hsum := mt (p.ocl_sum_oneUnit_iff emulator 0 0 0 ch ht).mp hin
      refine GemmAddrs.run_transactions_ne _ _ p.iter_cnt_pos p.inout_h_pos p.out_tiles_pos
        (p.ocl_firstTiles emulator ht) (p.hip_firstTiles ht) hsum ?_
      rw [p.hip_sum (by simp [TiledLaunch.out_tile]) ht]
      exact oneUnit_add _ (TiledLaunch.offset_le t)
  · exact iff_of_true (by rw [p.ocl_idle ch t emulator ht, p.hip_idle ch t ht]) (.inl ht)

/-- Four in-tiles, one output tile, one iteration and one input row. -/
def fourTiles : TiledLaunch where
  iter_cnt := 1
  inout_h := 1
  in_w := 512
  out_w := 4096
  iter_cnt_pos := le_rfl
  iter_cnt_lt := by norm_num
  inout_h_pos := le_rfl
  inout_h_lt := by norm_num
  in_tiles_pos := by decide
  in_tiles_even := by decide
  out_tiles_pos := by decide

/-- The second even in-tile starts in row 2 in one kernel and in row 1 in the other. -/
theorem four_tiles_differ :
    (transactions 0 (pim_aligned_gemm_bias_relu_fp16 fourTiles.launch 0))[10]? =
      some ⟨false, .weight, 65536⟩ ∧
      (transactions 0 (Ocl.pim_aligned_gemm_bias_relu_fp16 true fourTiles.launch 0))[10]? =
        some ⟨false, .weight, 32768⟩ ∧
      transactions 0 (Ocl.pim_aligned_gemm_bias_relu_fp16 true fourTiles.launch 0) ≠
        transactions 0 (pim_aligned_gemm_bias_relu_fp16 fourTiles.launch 0) := by
  refine ⟨?_, ?_, ?_⟩ <;> decide +kernel

end PimLibrary.Kernel
