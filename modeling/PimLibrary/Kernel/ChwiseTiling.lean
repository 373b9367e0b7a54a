import PimLibrary.Kernel.GemmLoops
import PimLibrary.Layout.HostConvert

/-! Which input vector each weight row of the channel-wise kernel meets.

    A tile packs the rows of `4096 / w` matrices. The kernel hands each channel one input vector, chosen
    by `64 / (4096 / w)` channels per matrix, so all 64 rows of a channel must belong to one matrix and
    the matrices must end where tiles do. That holds for the divisors `w` of 4096 from 64 on. The
    accepted widths only have to fill whole tiles. -/

namespace PimLibrary.Kernel
open Schemes.Word Schemes.Loop PimLibrary.Device PimLibrary.Layout

attribute [local irreducible] int32

/-- The session works on weight tile `i` with the input row `r` of matrix `m`. -/
def Feeds (g : ChwiseGemm) (s : Session) (i m r : ℕ) : Prop :=
  s.weight = ((i * (g.in_w.toNat * 8192) : ℕ) : ℤ) ∧
    s.input = (((m * g.inout_h.toNat + r) * g.in_w.toNat * 2 : ℕ) : ℤ)

/-- Host, executor and kernel agree on the tiles, and every row of every channel meets its matrix's
    input. -/
structure ChwiseTiling (g : ChwiseGemm) (order : PimGemmOrder) (by_zero : ByZero) (p : GemmLaunch) :
    Prop where
  host_iterations : (chwise_counts order (PimCreateBo (g.rawWeight order))).1 = (g.tiles : ℤ)
  iterations : p.iter_cnt = (g.tiles : ℤ)
  channels : ∃ chs, chs_per_op p = some chs ∧ 0 < chs
  feeds : ∀ ch, ch < 64 → ∃ sessions, chwise_sessions p by_zero ch = some sessions ∧
    ∀ i, i < g.tiles → ∀ r, r < g.inout_h.toNat → ∀ l, l < 64 →
      ∃ s, sessions[i * g.inout_h.toNat + r]? = some s ∧
        Feeds g s i ((4096 * i + 64 * ch + l) / g.out_w.toNat) r

namespace ChwiseGemm

variable (g : ChwiseGemm)

/-- At least 64 columns; and if there is anything to multiply, one input row, a width that divides the
    tile, and every count and offset inside its type. -/
def Fits : Prop :=
  64 ≤ g.out_w.toNat ∧ (matrices g.weight = 0 ∨ g.inout_h.toNat = 1 ∧ g.out_w.toNat ∣ 4096 ∧
    matrices g.weight * g.out_w.toNat < 2 ^ 32 ∧ (4096 / g.out_w.toNat - 1) *
      (g.in_w.toNat * 2) < 2 ^ 32 ∧
    (1 < g.tiles → g.in_w.toNat * 8192 < 2 ^ 31))

/-! ### What is launched -/

section Launch

variable {g} {p : GemmLaunch} (hp : g.launch = some p)
include hp

theorem out_w_of_launch : p.out_w = (g.out_w.toNat : ℤ) ∧ 0 < g.out_w.toNat := by
  have hlt := g.out_w_lt
  simp only [launch, execute_chwise_gemm_tile_accum] at hp
  split_ifs at hp with hzero
  have hw : g.out_w ≠ 0 := fun h => hzero (Or.inl h)
  refine ⟨?_, Nat.pos_of_ne_zero fun h => hw (UInt32.toNat_inj.mp h)⟩
  rw [← Option.some.inj hp]
  exact int32_natCast (lt_trans hlt (by norm_num))

theorem launch_eq : p.iter_cnt = int32 ((uint32 (matrices g.weight) / (4096 / g.out_w.toNat) : ℕ) : ℤ) ∧
    p.inout_h = int32 (g.inout_h.toNat : ℤ) ∧ p.in_w = int32 (g.in_w.toNat : ℤ) := by
  simp only [launch, execute_chwise_gemm_tile_accum] at hp
  split_ifs at hp with hzero
  rw [← Option.some.inj hp]
  refine ⟨?_, rfl, rfl⟩
  have hcount : (g.weight.n * g.weight.c / (4096 / g.weight.w)).toNat =
      uint32 (matrices g.weight) / (4096 / g.out_w.toNat) := by
    rw [UInt32.toNat_div, UInt32.toNat_mul, UInt32.toNat_div]
    rfl
  simp only [hcount]

/-- Channels a matrix takes, as the kernel divides. -/
theorem chs_per_op_eq : chs_per_op p = some ((64 / (4096 / g.out_w.toNat) : ℕ) : ℤ) := by
  obtain ⟨hw, hpos⟩ := out_w_of_launch hp
  have hlt := g.out_w_lt
  have hpack : 0 < 4096 / g.out_w.toNat := Nat.div_pos (le_of_lt hlt) hpos
  have htdiv : ∀ a b : ℕ, Int.tdiv (a : ℤ) (b : ℤ) = ((a / b : ℕ) : ℤ) := fun a b => rfl
  rw [chs_per_op, hw, show (4096 : ℤ) = ((4096 : ℕ) : ℤ) from rfl, show (64 : ℤ) =
    ((64 : ℕ) : ℤ) from rfl, htdiv, htdiv, if_neg]
  simp only [Nat.cast_eq_zero]
  omega

/-- The session of iteration `i` and input row `r`; a division by zero leaves only the input open. -/
theorem sessions_at (by_zero : ByZero) (ch : ℕ) :
    ∃ sessions, chwise_sessions p by_zero ch = some sessions ∧
      sessions.length = p.iter_cnt.toNat * p.inout_h.toNat ∧
      ∀ i, i < p.iter_cnt.toNat → ∀ r, r < p.inout_h.toNat →
        ∃ s, sessions[i * p.inout_h.toNat + r]? = some s ∧
          (∃ input, s = chwise_session (chwise_state p input i)) ∧ s.weight =
            i * int32 ((g.in_w.toNat * 8192 : ℕ) : ℤ) ∧
          (0 < 64 / (4096 / g.out_w.toNat) →
            s.input = (uint32 (ch / (64 / (4096 / g.out_w.toNat)) * (g.in_w.toNat * 2)) : ℕ) +
              i * int32 ((4096 / g.out_w.toNat * (g.in_w.toNat * 2) : ℕ) : ℤ)) := by
  obtain ⟨hw, hpos⟩ := out_w_of_launch hp
  obtain ⟨-, -, hin⟩ := launch_eq hp
  have hsmall : 64 / (4096 / g.out_w.toNat) < 2 ^ 32 :=
    lt_of_le_of_lt (Nat.div_le_self _ _) (by norm_num)
  have hptr : 0 < 64 / (4096 / g.out_w.toNat) →
      uint32 (block_op by_zero ((64 / (4096 / g.out_w.toNat) : ℕ) : ℤ) ch * toUint32 p.in_w * 2) =
        uint32 (ch / (64 / (4096 / g.out_w.toNat)) * (g.in_w.toNat * 2)) := by
    intro hchs
    have hne : ((64 / (4096 / g.out_w.toNat) : ℕ) : ℤ) ≠ 0 := by omega
    rw [block_op, if_neg hne, toUint32_natCast hsmall, hin, toUint32_int32, uint32_of_lt g.in_w.toNat_lt,
      Nat.mul_assoc]
  have htdiv : Int.tdiv 4096 p.out_w = ((4096 / g.out_w.toNat : ℕ) : ℤ) := by rw [hw]; rfl
  have hstep : int32 (p.in_w * Int.tdiv 4096 p.out_w * 2) =
      int32 ((4096 / g.out_w.toNat * (g.in_w.toNat * 2) : ℕ) : ℤ) := by
    rw [hin, htdiv, mul_assoc, int32_mul_int32']
    push_cast
    ring_nf
  have hwstep : int32 (p.in_w * 2 ^ 13) = int32 ((g.in_w.toNat * 8192 : ℕ) : ℤ) := by
    rw [hin, int32_mul_int32']
    push_cast
    norm_num only
  refine ⟨_, chwise_sessions_eq p by_zero (chs_per_op_eq hp) ch, ?_, ?_⟩
  · rw [length_flatMap_const (c := p.inout_h.toNat) (fun i _ => by simp), List.length_range]
  intro i hi r hr
  refine ⟨_, getElem?_nest _ hi hr, ⟨_, rfl⟩, ?_, fun hchs => ?_⟩
  · rw [← hwstep]; rfl
  · rw [← hptr hchs, ← hstep]; rfl

end Launch

theorem exists_launch (hw : 0 < g.out_w.toNat) : ∃ p, g.launch = some p := by
  have hlt := g.out_w_lt
  have hpack : 0 < 4096 / g.out_w.toNat := Nat.div_pos (le_of_lt hlt) hw
  have hzero : ¬(g.out_w = 0 ∨ 4096 / g.out_w = 0) := by
    rw [← UInt32.toNat_inj, ← UInt32.toNat_inj, UInt32.toNat_div]
    have h0 : (0 : UInt32).toNat = 0 := rfl
    have h4096 : (4096 : UInt32).toNat = 4096 := rfl
    rw [h0, h4096]
    omega
  exact ⟨_, if_neg hzero⟩

theorem host_count_eq (order : PimGemmOrder) :
    (chwise_counts order (PimCreateBo (g.rawWeight order))).1 = ((g.tiles % 2 ^ 20 : ℕ) : ℤ) := by
  have hcount : (g.n * g.c * g.out_w / 4096).toNat = g.tiles % 2 ^ 20 := by
    have h4096 : (4096 : UInt32).toNat = 4096 := rfl
    have hmat : matrices g.weight = g.n.toNat * g.c.toNat := rfl
    rw [UInt32.toNat_div, UInt32.toNat_mul, UInt32.toNat_mul, Nat.mod_mul_mod, h4096, ← hmat, g.rows_eq]
    omega
  have h : (chwise_counts order (PimCreateBo (g.rawWeight order))).1 =
      int32 ((g.n * g.c * g.out_w / 4096).toNat : ℤ) := by cases order <;> rfl
  rw [h, hcount, int32_natCast (by omega)]

/-! ### Packing matrices into tiles -/

/-- The divisors of 4096 from 64 on are 64 times the divisors of 64. -/
theorem packing {w : ℕ} (hlo : 64 ≤ w) (hdvd : w ∣ 4096) :
    ∃ q k, w = 64 * q ∧ q * k = 64 ∧ 4096 / w = k ∧ 64 / k = q := by
  obtain ⟨e, he, rfl⟩ := (Nat.dvd_prime_pow Nat.prime_two).mp (show w ∣ 2 ^ 12 from hdvd)
  have he6 : 6 ≤ e := by
    by_contra hlt
    have : 2 ^ e ≤ 2 ^ 5 := Nat.pow_le_pow_right two_pos (by omega)
    omega
  have h1 : 2 ^ e = 64 * 2 ^ (e - 6) := by rw [show 64 = 2 ^ 6 from rfl, ← pow_add]; congr 1; omega
  have h2 : 2 ^ (e - 6) * 2 ^ (12 - e) = 64 := by rw [← pow_add, show e - 6 + (12 - e) = 6 by omega]; rfl
  refine ⟨2 ^ (e - 6), 2 ^ (12 - e), h1, h2, ?_, ?_⟩
  · rw [h1, show 4096 = 64 * 64 from rfl, Nat.mul_div_mul_left _ _ (by norm_num)]
    exact Nat.div_eq_of_eq_mul_right (by positivity) h2.symm
  · exact Nat.div_eq_of_eq_mul_left (by positivity) h2.symm

/-- The last of 64 channels belongs to the last of `k` matrices. -/
theorem last_channel {q k : ℕ} (hqk : q * k = 64) : 63 / q = k - 1 := by
  have hq0 : 0 < q := by
    rcases Nat.eq_zero_or_pos q with rfl | hpos <;> omega
  have hk0 : 0 < k := by
    rcases Nat.eq_zero_or_pos k with rfl | hpos <;> omega
  have hsplit : q * k = q * (k - 1) + q := by rw [← Nat.mul_succ, Nat.succ_eq_add_one,
    Nat.sub_add_cancel hk0]
  have h63 : 63 = q * (k - 1) + (q - 1) := by omega
  calc 63 / q = (q * (k - 1) + (q - 1)) / q := by rw [← h63]
    _ = k - 1 := by rw [Nat.mul_add_div hq0, Nat.div_eq_of_lt (by omega), Nat.add_zero]

/-- With matrices of `64 q` columns, `q * k = 64`, the row's matrix depends on the channel only. -/
theorem matrix_of_row {q k : ℕ} (hqk : q * k = 64) (hq : 0 < q) (i ch : ℕ) {l : ℕ} (hl : l < 64) :
    (4096 * i + 64 * ch + l) / (64 * q) = i * k + ch / q := by
  have hrow : (4096 * i + 64 * ch + l) / 64 = q * (i * k) + ch := by
    have : q * (i * k) = 64 * i := by rw [← hqk]; ring
    omega
  rw [← Nat.div_div_eq_div_mul, hrow, Nat.mul_add_div hq]

/-! ### When the product fits -/

/-- Whole tiles and whole channels a matrix. -/
theorem packed_tiles {g : ChwiseGemm} {q k : ℕ} (hw : g.out_w.toNat = 64 * q) (hqk : q * k = 64) :
    matrices g.weight = k * g.tiles := by
  have htiles := g.rows_eq
  have hq0 : 0 < q := by
    rcases Nat.eq_zero_or_pos q with rfl | hpos <;> omega
  have h : q * matrices g.weight = q * (k * g.tiles) := by
    have : q * (k * g.tiles) = 64 * g.tiles := by rw [← hqk]; ring
    rw [hw] at htiles
    have : matrices g.weight * (64 * q) = 64 * (q * matrices g.weight) := by ring
    omega
  exact Nat.eq_of_mul_eq_mul_left hq0 h

/-- The executor counts the tiles. -/
theorem packed_iterations {g : ChwiseGemm} {p : GemmLaunch} (hp : g.launch = some p)
    (hlo : 64 ≤ g.out_w.toNat)
    (hdvd : g.out_w.toNat ∣ 4096) (hmat : matrices g.weight < 2 ^ 32) : p.iter_cnt = (g.tiles : ℤ) := by
  obtain ⟨q, k, hw, hqk, hk, -⟩ := packing hlo hdvd
  have hlt := g.out_w_lt
  have hk1 : 1 < k := by
    by_contra hle
    have hqk64 : q * k ≤ q * 1 := Nat.mul_le_mul_left _ (by omega)
    omega
  have hmul := packed_tiles hw hqk
  have htwo : 2 * g.tiles ≤ k * g.tiles := Nat.mul_le_mul_right _ hk1
  rw [(launch_eq hp).1, hk, uint32_of_lt hmat, hmul, Nat.mul_div_cancel_left _ (by omega),
    int32_natCast (by omega)]

/-- With packed widths, one input row and exact counts and offsets, the kernel makes one session for
    each tile, and its rows meet their matrices' inputs. -/
theorem packed_feeds (by_zero : ByZero) {g : ChwiseGemm} {p : GemmLaunch} (hp : g.launch = some p)
    (hlo : 64 ≤ g.out_w.toNat)
    (hdvd : g.out_w.toNat ∣ 4096) (hone : g.inout_h.toNat = 1) (hmat : matrices g.weight < 2 ^ 32)
    (hinput : (4096 / g.out_w.toNat - 1) * (g.in_w.toNat * 2) < 2 ^ 32)
    (hweight : 1 < g.tiles → g.in_w.toNat * 8192 < 2 ^ 31) :
    p.iter_cnt = (g.tiles : ℤ) ∧ p.inout_h.toNat = 1 ∧ ∀ ch, ch < 64 →
      ∃ sessions, chwise_sessions p by_zero ch = some sessions ∧ ∀ i, i < g.tiles → ∃ s, sessions[i]? = some s ∧
        ∀ l, l < 64 → Feeds g s i ((4096 * i + 64 * ch + l) / g.out_w.toNat) 0 := by
  obtain ⟨hiter, hrows, -⟩ := launch_eq hp
  obtain ⟨q, k, hw, hqk, hk, hq⟩ := packing hlo hdvd
  have hq0 : 0 < q := by omega
  have hcount := packed_iterations hp hlo hdvd hmat
  have hh : p.inout_h.toNat = 1 := by
    rw [hrows, hone, int32_natCast (by norm_num), Int.toNat_natCast]
  refine ⟨hcount, hh, fun ch hch => ?_⟩
  obtain ⟨sessions, hs, -, hat⟩ := sessions_at hp by_zero ch
  refine ⟨sessions, hs, fun i hi => ?_⟩
  obtain ⟨s, hget, -, hsw, hsi⟩ := hat i (by rw [hcount, Int.toNat_natCast]; exact hi) 0 (by omega)
  rw [hh, Nat.mul_one, Nat.add_zero] at hget
  refine ⟨s, hget, fun l hl => ⟨?_, ?_⟩⟩
  · rw [hsw]
    rcases Nat.eq_zero_or_pos i with rfl | hi0
    · simp
    · rw [int32_natCast (hweight (by omega)), Nat.cast_mul i]
  · have hblock : ch / q ≤ k - 1 := by
      have : ch / q < k := Nat.div_lt_of_lt_mul (by omega)
      omega
    have hfit : ch / q * (g.in_w.toNat * 2) < 2 ^ 32 :=
      lt_of_le_of_lt (Nat.mul_le_mul_right _ hblock) (hk ▸ hinput)
    have hpack : k ≤ 64 := by
      have : 1 * k ≤ q * k := Nat.mul_le_mul_right _ hq0
      omega
    have hstep : (i : ℤ) * int32 ((k * (g.in_w.toNat * 2) : ℕ) : ℤ) =
        ((i * (k * (g.in_w.toNat * 2)) : ℕ) : ℤ) := by
      rcases Nat.eq_zero_or_pos i with rfl | hi0
      · simp
      · have hin := hweight (by omega)
        have : k * (g.in_w.toNat * 2) ≤ 64 * (g.in_w.toNat * 2) := Nat.mul_le_mul_right _ hpack
        rw [int32_natCast (by omega), Nat.cast_mul i]
    have hrow : (i * k + ch / q) * 1 + 0 = ch / q + i * k := by omega
    rw [hsi (by rw [hk, hq]; exact hq0), hk, hq, uint32_of_lt hfit, hstep, ← Nat.cast_add, hw, matrix_of_row hqk hq0 i ch hl,
      hone, hrow]
    congr 1
    ring

theorem Fits.tiling {g : ChwiseGemm} (hf : g.Fits) (order : PimGemmOrder) (by_zero : ByZero) :
    ∃ p, g.launch = some p ∧ ChwiseTiling g order by_zero p := by
  obtain ⟨hlo, hrest⟩ := hf
  obtain ⟨p, hp⟩ := g.exists_launch (by omega)
  obtain ⟨hiter, -, -⟩ := launch_eq hp
  have hpack : 4096 / g.out_w.toNat ≤ 64 := Nat.div_le_of_le_mul (by omega)
  have hpack' : 0 < 4096 / g.out_w.toNat := Nat.div_pos (le_of_lt g.out_w_lt) (by omega)
  have hchs : 0 < 64 / (4096 / g.out_w.toNat) := Nat.div_pos hpack hpack'
  have hchannels : ∃ chs, chs_per_op p = some chs ∧ 0 < chs :=
    ⟨_, chs_per_op_eq hp, by exact_mod_cast hchs⟩
  refine ⟨p, hp, ?_⟩
  have htiles := g.rows_eq
  rcases hrest with hzero | ⟨hone, hdvd, hsize, hinput, hweight⟩
  · have hnone : g.tiles = 0 := by rw [hzero] at htiles; omega
    have hcount : p.iter_cnt = (g.tiles : ℤ) := by
      rw [hiter, hzero, hnone, uint32_of_lt (by norm_num), Nat.zero_div, int32_natCast (by norm_num)]
    refine ⟨by rw [g.host_count_eq, hnone]; rfl, hcount, hchannels, fun ch _ => ?_⟩
    obtain ⟨sessions, hs, -⟩ := sessions_at hp by_zero ch
    exact ⟨sessions, hs, fun i hi => absurd hi (by omega)⟩
  · have hmat_lt : matrices g.weight < 2 ^ 32 := by
      have : matrices g.weight * 1 ≤ matrices g.weight * g.out_w.toNat :=
        Nat.mul_le_mul_left _ (by omega)
      omega
    obtain ⟨hcount, -, hfeeds⟩ := packed_feeds by_zero hp hlo hdvd hone hmat_lt hinput hweight
    refine ⟨by rw [g.host_count_eq, Nat.mod_eq_of_lt (by omega)], hcount, hchannels, fun ch hch => ?_⟩
    obtain ⟨sessions, hs, hat⟩ := hfeeds ch hch
    refine ⟨sessions, hs, fun i hi r hr l hl => ?_⟩
    obtain ⟨s, hget, hfeed⟩ := hat i hi
    obtain rfl : r = 0 := by omega
    exact ⟨s, by rw [hone, Nat.mul_one]; exact hget, hfeed l hl⟩

/-! ### When the tiling is right -/

/-- The matrix of a channel's rows does not change inside the channel only if 64 divides the width. -/
theorem dvd_of_lanes {w : ℕ} (hlo : 64 ≤ w) (hlt : w < 4096)
    (h : ∀ ch, ch < 64 → (64 * ch + 0) / w = (64 * ch + 63) / w) : 64 ∣ w := by
  by_contra hndvd
  have hch := h (w / 64) (by omega)
  have hfirst : (64 * (w / 64) + 0) / w = 0 := Nat.div_eq_of_lt (by omega)
  have hlast : 0 < (64 * (w / 64) + 63) / w := Nat.div_pos (by omega) (by omega)
  omega

section Tiling

variable {g} {p : GemmLaunch} {order : PimGemmOrder} {by_zero : ByZero} (hp : g.launch = some p)
  (h : ChwiseTiling g order by_zero p)
include hp h

theorem tiling_out_w : 64 ≤ g.out_w.toNat ∧ 0 < 64 / (4096 / g.out_w.toNat) := by
  obtain ⟨-, hpos⟩ := out_w_of_launch hp
  obtain ⟨chs, heq, hchs⟩ := h.channels
  rw [chs_per_op_eq hp, Option.some.injEq] at heq
  have hpos' : 0 < 64 / (4096 / g.out_w.toNat) := by rw [← heq] at hchs; exact_mod_cast hchs
  refine ⟨?_, hpos'⟩
  by_contra hlt
  have hle : 4096 / 63 ≤ 4096 / g.out_w.toNat := Nat.div_le_div_left (by omega) hpos
  rw [Nat.div_eq_of_lt (by omega)] at hpos'
  omega

omit hp in
theorem tiling_size : matrices g.weight * g.out_w.toNat < 2 ^ 32 := by
  have hhost := h.host_iterations
  rw [g.host_count_eq, Nat.cast_inj] at hhost
  have := g.rows_eq
  omega

/-- What the session of an iteration and input row works on, as the kernel computes it and exactly. -/
theorem tiling_feeds {i : ℕ} (r ch l : ℕ) (hi : i < g.tiles) (hr : r < g.inout_h.toNat)
    (hch : ch < 64) (hl : l < 64) :
    (i : ℤ) * int32 ((g.in_w.toNat * 8192 : ℕ) : ℤ) = ((i * (g.in_w.toNat * 8192) : ℕ) : ℤ) ∧
      (uint32 (ch / (64 / (4096 / g.out_w.toNat)) * (g.in_w.toNat * 2)) : ℤ) +
        i * int32 ((4096 / g.out_w.toNat * (g.in_w.toNat * 2) : ℕ) : ℤ) =
      ((((4096 * i + 64 * ch + l) / g.out_w.toNat * g.inout_h.toNat + r) * g.in_w.toNat * 2 : ℕ) : ℤ) := by
  obtain ⟨-, hchs⟩ := tiling_out_w hp h
  obtain ⟨-, hrows, -⟩ := launch_eq hp
  obtain ⟨sessions, hs, hfeeds⟩ := h.feeds ch hch
  obtain ⟨sessions', hs', hlen, hat⟩ := sessions_at hp by_zero ch
  obtain rfl : sessions = sessions' := Option.some.inj (hs.symm.trans hs')
  obtain ⟨s, hget, hsw, hsi⟩ := hfeeds i hi r hr l hl
  have hh : p.inout_h.toNat = g.inout_h.toNat := by
    rw [hrows]
    rcases Nat.lt_or_ge g.inout_h.toNat (2 ^ 31) with hlt | hge
    · rw [int32_natCast hlt, Int.toNat_natCast]
    · have hbound := g.inout_h.toNat_lt
      have hneg : int32 (g.inout_h.toNat : ℤ) < 0 := int32_neg (by omega) (by omega)
      rw [hrows, Int.toNat_of_nonpos (le_of_lt hneg), Nat.mul_zero, List.length_eq_zero_iff] at hlen
      rw [hlen] at hget
      exact absurd hget (by simp)
  have hi' : i < p.iter_cnt.toNat := by rw [h.iterations, Int.toNat_natCast]; exact hi
  obtain ⟨s', hget', -, hsw', hsi'⟩ := hat i hi' r (by omega)
  rw [hh] at hget'
  obtain rfl : s = s' := Option.some.inj (hget.symm.trans hget')
  exact ⟨hsw'.symm.trans hsw, (hsi' hchs).symm.trans hsi⟩

/-- All input rows of an iteration meet the same vector, so there is only one. -/
theorem tiling_inout_h (hsome : 0 < g.tiles) : g.inout_h.toNat = 1 := by
  have hpos := g.inout_h_pos
  by_contra hne
  have h0 := (tiling_feeds hp h 0 0 0 hsome (by omega) (by omega) (by omega)).2
  have h1 := (tiling_feeds hp h 1 0 0 hsome (by omega) (by omega) (by omega)).2
  rw [h0, Nat.cast_inj] at h1
  have hin := g.in_w_pos
  have hlt : ∀ m : ℕ, (m * g.inout_h.toNat + 0) * g.in_w.toNat * 2 ≠
      (m * g.inout_h.toNat + 1) * g.in_w.toNat * 2 := by
    intro m
    have : (m * g.inout_h.toNat + 1) * g.in_w.toNat * 2 =
        (m * g.inout_h.toNat + 0) * g.in_w.toNat * 2 + g.in_w.toNat * 2 := by ring
    omega
  exact hlt _ h1

/-- In the first tile the channel's number alone chooses the vector. -/
theorem tiling_first (hsome : 0 < g.tiles) (ch l : ℕ) (hch : ch < 64) (hl : l < 64) :
    uint32 (ch / (64 / (4096 / g.out_w.toNat)) * (g.in_w.toNat * 2)) =
      (64 * ch + l) / g.out_w.toNat * (g.in_w.toNat * 2) := by
  have hone := tiling_inout_h hp h hsome
  have heq := (tiling_feeds hp h 0 ch l hsome (by omega) hch hl).2
  rw [Nat.cast_zero, zero_mul, add_zero, Nat.cast_inj, hone] at heq
  rw [heq, Nat.mul_zero, Nat.zero_add]
  ring

/-- The kernel's channels per matrix are the width's. -/
theorem tiling_channels (hsome : 0 < g.tiles) :
    ∃ q, g.out_w.toNat = 64 * q ∧ 0 < q ∧ 64 / (4096 / g.out_w.toNat) = q := by
  have hlt := g.out_w_lt
  have hin := g.in_w_pos
  obtain ⟨hlo, -⟩ := tiling_out_w hp h
  have hlanes : ∀ ch, ch < 64 → (64 * ch + 0) / g.out_w.toNat = (64 * ch + 63) / g.out_w.toNat := by
    intro ch hch
    have h0 := tiling_first hp h hsome _ 0 hch (by omega)
    have h63 := tiling_first hp h hsome _ 63 hch (by omega)
    exact Nat.eq_of_mul_eq_mul_right (by omega) (h0.symm.trans h63)
  obtain ⟨q, hq⟩ := dvd_of_lanes hlo hlt hlanes
  refine ⟨q, hq, by omega, ?_⟩
  have hdiv : 4096 / g.out_w.toNat = 64 / q := by
    rw [hq, show 4096 = 64 * 64 from rfl, Nat.mul_div_mul_left _ _ (by norm_num)]
  rw [hdiv]
  have hle : q ≤ 64 / (64 / q) :=
    (Nat.le_div_iff_mul_le (Nat.div_pos (by omega) (by omega))).mpr (Nat.mul_div_le 64 q)
  by_contra hne
  -- otherwise the first channel of the second matrix still gets the first vector
  have hsecond := tiling_first hp h hsome q 0 (by omega) (by omega)
  rw [hdiv, Nat.div_eq_of_lt (by omega), Nat.zero_mul, uint32_of_lt (by norm_num), hq, Nat.add_zero,
    Nat.div_self (by omega)] at hsecond
  omega

/-- The second tile starts with a new matrix, so matrices do not straddle tiles. -/
theorem tiling_dvd (hsome : 0 < g.tiles) : g.out_w.toNat ∣ 4096 := by
  have hlt := g.out_w_lt
  have hin := g.in_w_pos
  have hone := tiling_inout_h hp h hsome
  obtain ⟨q, hq, hq0, hchs⟩ := tiling_channels hp h hsome
  have hdiv : 4096 / g.out_w.toNat = 64 / q := by
    rw [hq, show 4096 = 64 * 64 from rfl, Nat.mul_div_mul_left _ _ (by norm_num)]
  rcases Nat.eq_zero_or_pos (64 % q) with h0 | hrem
  · rw [hq, show 4096 = 64 * 64 from rfl]
    exact Nat.mul_dvd_mul_left 64 (Nat.dvd_of_mod_eq_zero h0)
  · exfalso
    have htwo : 1 < g.tiles := by
      by_contra hle
      have hrows := g.rows_eq
      have htile : g.tiles = 1 := by omega
      have hmul : q * matrices g.weight = 64 := by
        have : matrices g.weight * (64 * q) = 64 * (q * matrices g.weight) := by ring
        rw [hq, htile] at hrows
        omega
      have : 64 % q = 0 := Nat.mod_eq_zero_of_dvd ⟨_, hmul.symm⟩
      omega
    have hmod := Nat.mod_lt 64 hq0
    have hdm := Nat.div_add_mod 64 q
    -- the channel at which the straddling matrix ends
    have h0 := (tiling_feeds hp h 0 0 0 htwo (by omega) (by omega) (by omega)).2
    have hx := (tiling_feeds hp h 0 (q - 64 % q) 0 htwo (by omega) (by omega) (by omega)).2
    have hm0 : (4096 * 1 + 64 * 0 + 0) / g.out_w.toNat = 64 / q := by rw [← hdiv]
    have hmx : (4096 * 1 + 64 * (q - 64 % q) + 0) / g.out_w.toNat = 64 / q + 1 := by
      have hsum : 4096 * 1 + 64 * (q - 64 % q) + 0 = 64 * (q * (64 / q + 1)) := by
        have : q * (64 / q + 1) = q * (64 / q) + q := by ring
        omega
      rw [hsum, hq, Nat.mul_div_mul_left _ _ (by norm_num), Nat.mul_div_cancel_left _ hq0]
    rw [hchs, Nat.zero_div, hm0] at h0
    rw [hchs, Nat.div_eq_of_lt (by omega), hmx, hdiv] at hx
    rw [h0, Nat.cast_inj, hone] at hx
    have hgap : ((64 / q + 1) * 1 + 0) * g.in_w.toNat * 2 = (64 / q * 1 + 0) * g.in_w.toNat * 2 +
        g.in_w.toNat * 2 := by
      ring
    omega

theorem tiling_fits : g.Fits := by
  obtain ⟨hlo, -⟩ := tiling_out_w hp h
  refine ⟨hlo, ?_⟩
  rcases Nat.eq_zero_or_pos (matrices g.weight) with hzero | hmat
  · exact Or.inl hzero
  right
  have hsome : 0 < g.tiles := by
    have hrows := g.rows_eq
    have : 0 < matrices g.weight * g.out_w.toNat := Nat.mul_pos hmat (by omega)
    omega
  have hdvd := tiling_dvd hp h hsome
  refine ⟨tiling_inout_h hp h hsome, hdvd, tiling_size h, ?_, fun htwo => ?_⟩
  · obtain ⟨q, k, hw, hqk, hk, hq⟩ := packing hlo hdvd
    have hlast := tiling_first hp h hsome 63 0 (by omega) (by omega)
    have hlast63 := last_channel hqk
    have hrow : (64 * 63 + 0) / g.out_w.toNat = 63 / q := by
      rw [hw, Nat.add_zero, Nat.mul_div_mul_left _ _ (by norm_num)]
    rw [hk, hq, hrow, hlast63] at hlast
    rw [hk]
    exact uint32_eq_self_iff.mp hlast
  · have hstep := (tiling_feeds hp h 0 0 0 htwo g.inout_h_pos (by omega) (by omega)).1
    rw [Nat.cast_one, one_mul, one_mul] at hstep
    have hlt := int32_lt ((g.in_w.toNat * 8192 : ℕ) : ℤ)
    rw [hstep] at hlt
    exact_mod_cast hlt

end Tiling

/-- The three formulas agree exactly on the widths that pack into tiles and channels. -/
theorem chwise_tiling_iff (order : PimGemmOrder) (by_zero : ByZero) :
    (∃ p, g.launch = some p ∧ ChwiseTiling g order by_zero p) ↔ g.Fits :=
  ⟨fun ⟨_, hp, h⟩ => tiling_fits hp h, fun hf => hf.tiling order by_zero⟩

end ChwiseGemm

/-- Eight matrices of 1536 columns, which fill three tiles. -/
def straddling : ChwiseGemm := .of 8 1 1 256 1536 (by decide)

/-- The executor runs four iterations on the host's three tiles, and the first row of the second matrix,
    in channel 24, meets the input of the first. -/
theorem straddling_mistiled :
    (∀ by_zero, ¬ ∃ p, straddling.launch = some p ∧ ChwiseTiling straddling .I_X_W by_zero p) ∧
    straddling.tiles = 3 ∧ (straddling.launch.map GemmLaunch.iter_cnt) = some 4 ∧
    (4096 * 0 + 64 * 24 + 0) / 1536 = 1 ∧
    ((straddling.launch.bind fun p => chwise_sessions p id 24).bind (·[0]?)).map Session.input =
      some 0 := by
  have hiter : straddling.launch.map GemmLaunch.iter_cnt = some 4 := by decide +kernel
  have htiles : straddling.tiles = 3 := by decide +kernel
  refine ⟨?_, htiles, hiter, by norm_num, by decide +kernel⟩
  rintro by_zero ⟨p, hp, h⟩
  have hcount := h.iterations
  rw [hp, Option.map_some, Option.some.injEq, hcount, htiles] at hiter
  omega

end PimLibrary.Kernel
