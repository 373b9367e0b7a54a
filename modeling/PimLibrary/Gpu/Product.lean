import PimLibrary.Gpu.CustomGemv
import PimLibrary.Gpu.ExactSum
import PimLibrary.Runtime.HostPreload

/-! The custom GPU path multiplies by the logical weight.

    Each kernel reads along lanes of the row that it computes, through `int` products that stay exact
    while the matrix has less than `2^31` elements. Which of the kernels is launched, and with which
    `m`, `n` and `k`, makes up for the order of the factors and for a transposed weight. -/

namespace PimLibrary.Gpu
open Schemes.Word Schemes.Loop Schemes.Interleave Schemes.SharedMemory PimLibrary.Device
  PimLibrary.Executor PimLibrary.Runtime

attribute [local irreducible] int32

/-! ### Lanes -/

/-- The entries of thread `tx`: full strides, then one more if the row has it. -/
def lane (NB count tx : ℕ) : List ℕ :=
  (List.range (count / NB)).map (fun q => q * NB + tx) ++
    if tx + count / NB * NB < count then [count / NB * NB + tx] else []

theorem mem_lane {NB count tx i : ℕ} : i ∈ lane NB count tx ↔
    (∃ q < count / NB, q * NB + tx = i) ∨ (tx + count / NB * NB < count ∧ i = count / NB * NB + tx) := by
  rw [lane, List.mem_append, List.mem_map]
  by_cases h : tx + count / NB * NB < count <;> simp [h]

theorem lanes_lane {NB : ℕ} (hNB : 0 < NB) (count : ℕ) : Lanes NB count (lane NB count) := by
  constructor
  · intro t
    have hinj : Function.Injective fun q => q * NB + t := fun a b h =>
      Nat.eq_of_mul_eq_mul_right hNB (Nat.add_right_cancel h)
    refine List.Nodup.append (List.nodup_range.map hinj) ?_ fun i hi hi' => ?_
    · by_cases h : t + count / NB * NB < count <;> simp [h]
    · obtain ⟨q, hq, rfl⟩ := List.mem_map.mp hi
      by_cases h : t + count / NB * NB < count
      · rw [if_pos h, List.mem_singleton] at hi'
        exact absurd (hinj hi') (List.mem_range.mp hq).ne
      · rw [if_neg h] at hi'
        simp at hi'
  · intro t ht i
    rw [mem_lane]
    have hfull : count / NB * NB ≤ count := Nat.div_mul_le_self count NB
    constructor
    · rintro (⟨q, hq, rfl⟩ | ⟨hlt, rfl⟩)
      · have hnext : (q + 1) * NB ≤ count / NB * NB := Nat.mul_le_mul_right NB hq
        rw [Nat.succ_mul] at hnext
        exact ⟨by omega, by rw [Nat.mul_add_mod_self_right, Nat.mod_eq_of_lt ht]⟩
      · exact ⟨by omega, by rw [Nat.mul_add_mod_self_right, Nat.mod_eq_of_lt ht]⟩
    · rintro ⟨hi, rfl⟩
      have hsplit : i / NB * NB + i % NB = i := by rw [Nat.mul_comm, Nat.div_add_mod]
      rcases (Nat.div_le_div_right hi.le : i / NB ≤ count / NB).lt_or_eq with hq | hq
      · exact .inl ⟨i / NB, hq, hsplit⟩
      · rw [← hq]
        exact .inr ⟨by omega, hsplit.symm⟩

/-! ### The addresses -/

theorem tdiv_mul_natCast (m NB : ℕ) : ((m : ℤ).tdiv NB * NB) = ((m / NB * NB : ℕ) : ℤ) := by
  rw [← Int.ofNat_tdiv, Nat.cast_mul]

/-- A thread behind the end of the row has nothing to read. -/
theorem lane_eq_nil {NB count tx : ℕ} (htx : tx < NB) (h : count ≤ tx) : lane NB count tx = [] := by
  refine List.eq_nil_iff_forall_not_mem.mpr fun i hi => ?_
  obtain ⟨hi, hmod⟩ := ((lanes_lane (by omega) count).mem_iff tx htx i).mp hi
  have := Nat.mod_le i NB
  omega

/-- A thread's loop and its last term, for addresses that depend on the entry. -/
theorem reads_eq_lane {NB count tx : ℕ} (hNB : 0 < NB) (htx : tx < NB) (hcount : count + NB ≤ 2 ^ 31)
    {f : ℕ → ℤ × ℤ} {g : ℤ × ℤ} {p : ℕ → ℤ × ℤ} (hf : ∀ i, i + tx < count → f i = p (i + tx))
    (hg : tx + count / NB * NB < count → g = p (count / NB * NB + tx)) :
    ((forRange (int32 ((count : ℤ).tdiv NB * NB)) NB).map f ++
      if int32 (tx + int32 ((count : ℤ).tdiv NB * NB)) < count then [g] else []) =
      (lane NB count tx).map p := by
  have hfull : count / NB * NB ≤ count := Nat.div_mul_le_self count NB
  rw [tdiv_mul_natCast, int32_natCast (by omega), forRange_mul _ hNB, lane, List.map_append,
    List.map_map, List.map_map]
  congr 1
  · refine List.map_congr_left fun q hq => ?_
    have hnext : (q + 1) * NB ≤ count / NB * NB := Nat.mul_le_mul_right NB (List.mem_range.mp hq)
    rw [Nat.succ_mul] at hnext
    exact hf (q * NB) (by omega)
  · rw [← Nat.cast_add, int32_natCast (by omega)]
    by_cases h : tx + count / NB * NB < count
    · rw [if_pos (by exact_mod_cast h), if_pos h, List.map_singleton, hg h]
    · rw [if_neg (by exact_mod_cast h), if_neg h, List.map_nil]

/-- Down a column of a matrix with rows of `incx` entries. -/
theorem reads_xAy_eq {NB m incx tx : ℕ} (hNB : 0 < NB) (htx : tx < NB) (hm : m + NB ≤ 2 ^ 31)
    (hsize : m * incx < 2 ^ 31) (x A : ℤ) :
    reads_xAy NB m incx x A tx = (lane NB m tx).map fun i : ℕ => (x + i, A + (i * incx : ℕ)) := by
  have hmul : ∀ i, i < m → int32 ((i : ℤ) * incx) = (i * incx : ℕ) := fun i hi => by
    rw [← Nat.cast_mul, int32_natCast ((Nat.mul_le_mul_right incx hi.le).trans_lt hsize)]
  rw [reads_xAy]
  by_cases h : tx < m
  · rw [if_pos (by exact_mod_cast h)]
    refine reads_eq_lane hNB htx hm (fun i hi => ?_) fun hlt => ?_
    · rw [← Nat.cast_add, int32_natCast (by omega), hmul tx h, hmul i (by omega), Nat.add_mul]
      push_cast
      ring_nf
    · rw [tdiv_mul_natCast, int32_natCast (n := m / NB * NB) (by omega), ← Nat.cast_add,
        int32_natCast (by omega), hmul tx h, hmul _ (by omega), Nat.add_mul]
      push_cast
      ring_nf
  · rw [if_neg (by exact_mod_cast h), lane_eq_nil htx (by omega), List.map_nil]
    exact (reads_eq_lane (p := fun _ => (0, 0)) hNB htx hm
      (fun i hi => absurd hi (by omega)) fun hlt => absurd hlt (by omega)).trans (by rw [lane_eq_nil htx (by omega), List.map_nil])

/-- Along a row, against a vector whose entries are `incx = 1` apart. -/
theorem reads_Axy_eq {NB n tx : ℕ} (hNB : 0 < NB) (htx : tx < NB) (hn : n + NB ≤ 2 ^ 31) (A x : ℤ) :
    reads_Axy NB n 1 A x tx = (lane NB n tx).map fun i : ℕ => (A + i, x + i) := by
  rw [reads_Axy]
  by_cases h : tx < n
  · rw [if_pos (by exact_mod_cast h)]
    refine reads_eq_lane hNB htx hn (fun i hi => ?_) fun hlt => ?_
    · rw [mul_one, ← Nat.cast_add, int32_natCast (by omega), int32_natCast (by omega)]
      push_cast
      ring_nf
    · rw [tdiv_mul_natCast, int32_natCast (n := n / NB * NB) (by omega), mul_one, ← Nat.cast_add,
        int32_natCast (by omega), int32_natCast (by omega)]
      push_cast
      ring_nf
  · rw [if_neg (by exact_mod_cast h), lane_eq_nil htx (by omega), List.map_nil]
    exact (reads_eq_lane (p := fun _ => (0, 0)) hNB htx hn
      (fun i hi => absurd hi (by omega)) fun hlt => absurd hlt (by omega)).trans (by rw [lane_eq_nil htx (by omega), List.map_nil])

/-! ### One launch -/

/-- The `n` halves from `p` on and the `n'` from `q` on have none in common. -/
def Separate (p : ℤ) (n : ℕ) (q : ℤ) (n' : ℕ) : Prop := p + n ≤ q ∨ q + n' ≤ p

instance (p : ℤ) (n : ℕ) (q : ℤ) (n' : ℕ) : Decidable (Separate p n q n') :=
  inferInstanceAs (Decidable (_ ∨ _))

theorem Separate.ne {p q : ℤ} {n n' : ℕ} (h : Separate p n q n') {i j : ℕ} (hi : i < n) (hj : j < n') :
    p + i ≠ q + j := by
  rcases h with h | h <;> omega

/-- Every launch has a run. -/
theorem exists_run {H F : Type} (A : Arith H F) (K : MatVec F) : ∃ u, K.Runs A u :=
  ⟨_, _, shuffle_sequential List.nodup_range _,
    fun bid _ => staged_sequential K.nodup_threads (K.stages A bid)⟩

/-- One row a block, along lanes that keep away from `y`. -/
theorem row_kernel_fits {F : Type} {NB grid count : ℕ} {reads : ℕ → ℕ → List (ℤ × ℤ)} {y : ℤ}
    {b : Option ℤ} {alpha beta : F} {relu : Bool} {p : ℕ → ℕ → ℤ × ℤ} (hNB : 0 < NB)
    (hreads : ∀ bid tx, bid < grid → tx < NB → reads bid tx = (lane NB count tx).map (p bid))
    (hp : ∀ bid i r, bid < grid → i < count → r < grid → (p bid i).1 ≠ y + r ∧ (p bid i).2 ≠ y + r)
    (hb : ∀ b', b = some b' → Separate b' grid y grid) :
    (row_kernel NB grid count reads y b alpha beta relu).Fits := by
  constructor
  · exact hNB
  · intro bid ty bid' ty' hrow hrow' heq
    have hty := hrow.ty_lt
    have hty' := hrow'.ty_lt
    simp only [row_kernel] at heq hty hty'
    omega
  · intro bid ty tx hrow htx r hr bid' ty' hrow'
    simp only [row_kernel] at hr htx
    rw [hreads bid tx hrow.bid_lt htx] at hr
    obtain ⟨i, hi, rfl⟩ := List.mem_map.mp hr
    have hcount := (((lanes_lane hNB count).mem_iff tx htx i).mp hi).1
    exact hp bid i bid' hrow.bid_lt hcount hrow'.bid_lt
  · intro b' hb' bid ty bid' ty' hrow hrow' heq
    obtain ⟨base, hbase, rfl⟩ := Option.map_eq_some_iff.mp hb'
    exact absurd heq ((hb base hbase).ne hrow.bid_lt hrow'.bid_lt)

/-- The operands of a product with `rows` rows of `inner` entries lie apart from the output. -/
structure Apart (rows inner : ℕ) (y : ℤ) (a : ℕ → ℕ → ℤ) (x : ℤ) (b : Option ℤ) : Prop where
  x_apart : Separate x inner y rows
  a_apart : ∀ r i r', r < rows → i < inner → r' < rows → a r i ≠ y + r'
  b_apart : ∀ b', b = some b' → Separate b' rows y rows

variable {F : Type} {R : Type} [CommSemiring R] [LinearOrder R]

/-- Every run of the launch leaves `alpha * Σ a[r][i] * x[i] + beta * y[r] + b[r]`, activated, in row `r`
    of `y`, and nothing else in global memory changes. -/
def Multiplies (K : MatVec R) (y : ℤ) (rows inner : ℕ) (a : ℕ → ℕ → ℤ) (x : ℤ) (b : Option ℤ)
    (alpha beta : R) (relu : Bool) : Prop :=
  ∀ u, K.Runs (exactArith R) u → ∀ s : GridState R R,
    (∀ r, r < rows → (u.foldl step s).mem (.global (y + r)) = activated relu
      (alpha * ∑ i ∈ Finset.range inner, s.mem (.global (a r i)) * s.mem (.global (x + i)) +
        beta * s.mem (.global (y + r)) + (b.map fun b => s.mem (.global (b + r))).getD 0)) ∧
    ∀ addr, (∀ r, r < rows → addr ≠ y + r) →
      (u.foldl step s).mem (.global addr) = s.mem (.global addr)

/-- A launch that fits, whose rows multiply along lanes. -/
theorem multiplies_of_lanes {K : MatVec R} (hK : K.Fits) (hw : MatVec.Width K.NB_X)
    {lane : ℕ → List ℕ} (hl : Lanes K.NB_X K.count lane) {y x : ℤ} {rows inner : ℕ}
    {a : ℕ → ℕ → ℤ} {b : Option ℤ} (hcount : K.count = inner)
    (hrows : ∀ bid ty, K.Row bid ty → ∃ r < rows, K.y bid ty = y + r)
    (hrow : ∀ r, r < rows → ∃ bid ty, K.Row bid ty ∧ K.y bid ty = y + r ∧
      (K.b.map fun b => b bid ty) = (b.map fun b => b + (r : ℤ)) ∧
      ∃ p : ℕ → ℤ × ℤ, (∀ tx, tx < K.NB_X → K.reads bid ty tx = (lane tx).map p) ∧
        ∀ i, p i = (a r i, x + i) ∨ p i = (x + i, a r i)) :
    Multiplies K y rows inner a x b K.alpha K.beta K.relu := by
  intro u hu s
  obtain ⟨hset, hkeep⟩ := hu.entries (exactArith R) hK s
  constructor
  · intro r hr
    obtain ⟨bid, ty, hRow, hy, hb, p, hreads, hp⟩ := hrow r hr
    have hbias : (K.b.map fun b => s.mem (.global (b bid ty))) =
        b.map fun b => s.mem (.global (b + r)) := by
      have := congrArg (Option.map fun addr : ℤ => s.mem (.global addr)) hb
      simpa [Option.map_map, Function.comp_def] using this
    rw [← hy, hset bid ty hRow, out_exact hw hK.lane_pos hl hreads, hbias, hcount]
    congr 4
    refine Finset.sum_congr rfl fun i _ => ?_
    rcases hp i with h | h
    · rw [h]
    · rw [h, mul_comm]
  · intro addr h
    refine hkeep addr fun bid ty hRow heq => ?_
    obtain ⟨r, hr, hy⟩ := hrows bid ty hRow
    exact h r hr (heq.symm.trans hy)

/-- Down the columns of a matrix with rows of `incx` entries. -/
def column_addr (A : ℤ) (incx r i : ℕ) : ℤ := A + (i * incx + r : ℕ)

theorem xAy_lanes {NB m incx : ℕ} (hNB : 0 < NB) (hm : m + NB ≤ 2 ^ 31) (hsize : m * incx < 2 ^ 31)
    (x A : ℤ) (bid tx : ℕ) (htx : tx < NB) :
    reads_xAy NB m incx x (A + bid) tx =
      (lane NB m tx).map fun i : ℕ => (x + i, column_addr A incx bid i) := by
  rw [reads_xAy_eq hNB htx hm hsize]
  refine List.map_congr_left fun i _ => ?_
  rw [column_addr]
  push_cast
  ring_nf

theorem kernel_xAy_fits {NB m incx : ℕ} (hNB : 0 < NB) (hm : m + NB ≤ 2 ^ 31)
    (hsize : m * incx < 2 ^ 31) {b : Option ℤ} {x A y : ℤ}
    (h : Apart incx m y (column_addr A incx) x b) (alpha beta : F) (relu : Bool) :
    (kernel_xAy NB incx m alpha b x A incx beta y relu).Fits :=
  row_kernel_fits hNB (fun bid tx _ htx => xAy_lanes hNB hm hsize x A bid tx htx)
    (fun bid i r hbid hi hr => ⟨h.x_apart.ne hi hr, h.a_apart bid i r hbid hi hr⟩) h.b_apart

theorem kernel_xAy_multiplies {NB m incx : ℕ} (hw : MatVec.Width NB) (hNB : 0 < NB)
    (hm : m + NB ≤ 2 ^ 31) (hsize : m * incx < 2 ^ 31) {b : Option ℤ} {x A y : ℤ}
    (h : Apart incx m y (column_addr A incx) x b) (alpha beta : R) (relu : Bool) :
    Multiplies (kernel_xAy NB incx m alpha b x A incx beta y relu) y incx m (column_addr A incx) x b
      alpha beta relu :=
  multiplies_of_lanes (kernel_xAy_fits hNB hm hsize h alpha beta relu) hw (lanes_lane hNB m) rfl
    (fun bid ty hrow => ⟨bid, hrow.bid_lt, rfl⟩)
    fun r hr => ⟨r, 0, ⟨hr, Nat.one_pos, rfl⟩, rfl, by cases b <;> rfl, _,
      fun tx htx => xAy_lanes hNB hm hsize x A r tx htx, fun i => .inr rfl⟩

/-- Along the rows of a matrix with rows of `n` entries. -/
def row_addr (A : ℤ) (n r i : ℕ) : ℤ := A + (r * n + i : ℕ)

theorem Axy_lanes {NB n rows : ℕ} (hNB : 0 < NB) (hn : n + NB ≤ 2 ^ 31) (hsize : rows * n < 2 ^ 31)
    (A x : ℤ) (bid tx : ℕ) (hbid : bid < rows) (htx : tx < NB) :
    reads_Axy NB n 1 (A + uint32 (bid * toUint32 (n : ℤ)) : ℤ) x tx =
      (lane NB n tx).map fun i : ℕ => (row_addr A n bid i, x + i) := by
  have hle : bid * n ≤ rows * n := Nat.mul_le_mul_right n hbid.le
  rw [toUint32_natCast (by omega), uint32_of_lt (by omega), reads_Axy_eq hNB htx hn]
  refine List.map_congr_left fun i _ => ?_
  rw [row_addr]
  push_cast
  ring_nf

theorem kernel_Axy_fits {NB n rows : ℕ} (hNB : 0 < NB) (hn : n + NB ≤ 2 ^ 31)
    (hsize : rows * n < 2 ^ 31) {b : Option ℤ} {x A y : ℤ} (h : Apart rows n y (row_addr A n) x b)
    (alpha beta : F) (relu : Bool) : (kernel_Axy NB rows n alpha b A x 1 beta y relu).Fits :=
  row_kernel_fits hNB (fun bid tx hbid htx => Axy_lanes hNB hn hsize A x bid tx hbid htx)
    (fun bid i r hbid hi hr => ⟨h.a_apart bid i r hbid hi hr, h.x_apart.ne hi hr⟩) h.b_apart

theorem kernel_Axy_multiplies {NB n rows : ℕ} (hw : MatVec.Width NB) (hNB : 0 < NB)
    (hn : n + NB ≤ 2 ^ 31) (hsize : rows * n < 2 ^ 31) {b : Option ℤ} {x A y : ℤ}
    (h : Apart rows n y (row_addr A n) x b) (alpha beta : R) (relu : Bool) :
    Multiplies (kernel_Axy NB rows n alpha b A x 1 beta y relu) y rows n (row_addr A n) x b alpha beta
      relu :=
  multiplies_of_lanes (kernel_Axy_fits hNB hn hsize h alpha beta relu) hw (lanes_lane hNB n) rfl
    (fun bid ty hrow => ⟨bid, hrow.bid_lt, rfl⟩)
    fun r hr => ⟨r, 0, ⟨hr, Nat.one_pos, rfl⟩, rfl, by cases b <;> rfl, _,
      fun tx htx => Axy_lanes hNB hn hsize A x r tx hr htx, fun i => .inl rfl⟩

/-! ### The executor -/

/-- Where element `(r, i)` of the logical weight lies: row `r` makes output `r`, from input `i`. -/
def weight_addr (gemm_order_ : PimGemmOrder) (weight : GpuBo) (r i : ℕ) : ℤ :=
  weight.data + stored gemm_order_ weight.transposed weight.bshape_r 0 r i

/-- The operands of a product that the custom path supports: a raw weight of one matrix, a raw vector, an
    output that overlaps neither, and sizes within an `int`. -/
structure GemvFits (gemm_order_ : PimGemmOrder) (output input weight : GpuBo) : Prop where
  single : input.bshape_r.n = 1
  raw_weight : weight.data_layout_type = .RAW
  raw_input : input.data_layout_type = .RAW
  size : weight.bshape_r.h.toNat * weight.bshape_r.w.toNat < 2 ^ 31
  inner : inDim weight.bshape_r gemm_order_ + 256 ≤ 2 ^ 31
  rows : outDim weight.bshape_r gemm_order_ < 2 ^ 31
  input_apart : Separate input.data (inDim weight.bshape_r gemm_order_) output.data
    (outDim weight.bshape_r gemm_order_)
  weight_apart : Separate weight.data (weight.bshape_r.h.toNat * weight.bshape_r.w.toNat) output.data
    (outDim weight.bshape_r gemm_order_)

theorem GemvFits.supported {gemm_order_ : PimGemmOrder} {output input weight : GpuBo}
    (h : GemvFits gemm_order_ output input weight) : gemm_not_supported input weight = false := by
  simp [gemm_not_supported, h.single, h.raw_weight, h.raw_input]

theorem width_256 : MatVec.Width 256 := .tree 3

theorem width_128 : MatVec.Width 128 := .tree 2

/-- The executor passes on a row-wise or a column-wise product, whichever the stored weight gives. -/
inductive Passed (gemm_order_ : PimGemmOrder) (weight : GpuBo) : Prop
  | rows : gemv_shape gemm_order_ weight = (.W_X_I, (outDim weight.bshape_r gemm_order_ : ℤ), 1,
      (inDim weight.bshape_r gemm_order_ : ℤ)) →
    weight_addr gemm_order_ weight = row_addr weight.data (inDim weight.bshape_r gemm_order_) →
    Passed gemm_order_ weight
  | columns : gemv_shape gemm_order_ weight = (.I_X_W, 1, (outDim weight.bshape_r gemm_order_ : ℤ),
      (inDim weight.bshape_r gemm_order_ : ℤ)) →
    weight_addr gemm_order_ weight = column_addr weight.data (outDim weight.bshape_r gemm_order_) →
    Passed gemm_order_ weight

theorem passed (gemm_order_ : PimGemmOrder) (weight : GpuBo)
    (hinner : inDim weight.bshape_r gemm_order_ < 2 ^ 31)
    (hrows : outDim weight.bshape_r gemm_order_ < 2 ^ 31) : Passed gemm_order_ weight := by
  have hhlt : weight.bshape_r.h.toNat < 2 ^ 31 := by
    cases gemm_order_ <;> simp only [inDim, outDim] at hinner hrows <;> omega
  have hwlt : weight.bshape_r.w.toNat < 2 ^ 31 := by
    cases gemm_order_ <;> simp only [inDim, outDim] at hinner hrows <;> omega
  have hh := int32_natCast hhlt
  have hw := int32_natCast hwlt
  cases htr : weight.transposed <;> cases gemm_order_
  · refine .rows (by simp [gemv_shape, htr, hh, hw, inDim, outDim]) ?_
    funext r i
    simp [weight_addr, row_addr, stored, htr, inDim]
  · refine .columns (by simp [gemv_shape, htr, hh, hw, inDim, outDim]) ?_
    funext r i
    simp [weight_addr, column_addr, stored, htr, outDim]
  · -- stored as `[w][h]`: the product changes sides
    refine .columns (by simp [gemv_shape, htr, hh, hw, inDim, outDim]) ?_
    funext r i
    simp [weight_addr, column_addr, stored, htr, outDim]
  · refine .rows (by simp [gemv_shape, htr, hh, hw, inDim, outDim]) ?_
    funext r i
    simp [weight_addr, row_addr, stored, htr, inDim]

theorem GemvFits.passed {gemm_order_ : PimGemmOrder} {output input weight : GpuBo}
    (h : GemvFits gemm_order_ output input weight) : Passed gemm_order_ weight :=
  Gpu.passed _ _ (by have := h.inner; omega) h.rows

theorem GemvFits.rows_mul_inner {gemm_order_ : PimGemmOrder} {output input weight : GpuBo}
    (h : GemvFits gemm_order_ output input weight) :
    outDim weight.bshape_r gemm_order_ * inDim weight.bshape_r gemm_order_ < 2 ^ 31 := by
  have hsize := h.size
  cases gemm_order_ with
  | W_X_I => exact hsize
  | I_X_W => rwa [Nat.mul_comm] at hsize

theorem GemvFits.apart {gemm_order_ : PimGemmOrder} {output input weight : GpuBo}
    (h : GemvFits gemm_order_ output input weight) {b : Option ℤ}
    (hb : ∀ b', b = some b' → Separate b' (outDim weight.bshape_r gemm_order_) output.data
      (outDim weight.bshape_r gemm_order_)) :
    Apart (outDim weight.bshape_r gemm_order_) (inDim weight.bshape_r gemm_order_) output.data
      (weight_addr gemm_order_ weight) input.data b := by
  refine ⟨h.input_apart, fun r i r' hr hi hr' => ?_, hb⟩
  have hsize : weight.bshape_r.h.toNat * weight.bshape_r.w.toNat =
      outDim weight.bshape_r gemm_order_ * inDim weight.bshape_r gemm_order_ := by
    cases gemm_order_ with
    | W_X_I => rfl
    | I_X_W => exact Nat.mul_comm _ _
  have hA := h.weight_apart
  rw [hsize] at hA
  obtain ⟨-, haddr⟩ | ⟨-, haddr⟩ := h.passed
  · rw [haddr, row_addr]
    refine hA.ne ?_ hr'
    calc r * inDim weight.bshape_r gemm_order_ + i
        < (r + 1) * inDim weight.bshape_r gemm_order_ := by rw [Nat.succ_mul]; omega
      _ ≤ _ := Nat.mul_le_mul_right _ hr
  · rw [haddr, column_addr]
    refine hA.ne ?_ hr'
    calc i * outDim weight.bshape_r gemm_order_ + r
        < (i + 1) * outDim weight.bshape_r gemm_order_ := by rw [Nat.succ_mul]; omega
      _ ≤ inDim weight.bshape_r gemm_order_ * outDim weight.bshape_r gemm_order_ :=
        Nat.mul_le_mul_right _ hi
      _ = _ := Nat.mul_comm _ _

/-- The kernel for the order of the factors that the executor passes on. -/
def gemv_kernel (one : F) (gemm_order_ : PimGemmOrder) (NB : ℕ) (output input weight : GpuBo)
    (b : Option ℤ) (beta : F) (relu : Bool) : MatVec F :=
  let rows := outDim weight.bshape_r gemm_order_
  let inner := inDim weight.bshape_r gemm_order_
  match (gemv_shape gemm_order_ weight).1 with
  | .W_X_I => kernel_Axy NB rows inner one b weight.data input.data 1 beta output.data relu
  | .I_X_W => kernel_xAy 256 rows inner one b input.data weight.data rows beta output.data relu

section Kernel

variable {gemm_order_ : PimGemmOrder} {output input weight : GpuBo}
  (h : GemvFits gemm_order_ output input weight) {b : Option ℤ} {NB : ℕ}

include h

theorem gemv_kernel_fits (one : F) (hb : ∀ b', b = some b' → Separate b'
      (outDim weight.bshape_r gemm_order_) output.data (outDim weight.bshape_r gemm_order_))
    (hNB : 0 < NB) (hle : NB ≤ 256) (beta : F) (relu : Bool) :
    (gemv_kernel one gemm_order_ NB output input weight b beta relu).Fits := by
  have hapart := h.apart hb
  have hinner := h.inner
  have hsize := h.rows_mul_inner
  rw [gemv_kernel]
  obtain ⟨hshape, haddr⟩ | ⟨hshape, haddr⟩ := h.passed
  · rw [haddr] at hapart
    rw [hshape]
    exact kernel_Axy_fits hNB (by omega) hsize hapart one beta relu
  · rw [haddr] at hapart
    rw [hshape]
    rw [Nat.mul_comm] at hsize
    exact kernel_xAy_fits (by norm_num) (by omega) hsize hapart one beta relu

theorem gemv_kernel_multiplies (hb : ∀ b', b = some b' → Separate b'
      (outDim weight.bshape_r gemm_order_) output.data (outDim weight.bshape_r gemm_order_))
    (hw : MatVec.Width NB) (hNB : 0 < NB) (hle : NB ≤ 256) (beta : R) (relu : Bool) :
    Multiplies (gemv_kernel 1 gemm_order_ NB output input weight b beta relu) output.data
      (outDim weight.bshape_r gemm_order_) (inDim weight.bshape_r gemm_order_)
      (weight_addr gemm_order_ weight) input.data b 1 beta relu := by
  have hapart := h.apart hb
  have hinner := h.inner
  have hsize := h.rows_mul_inner
  rw [gemv_kernel]
  obtain ⟨hshape, haddr⟩ | ⟨hshape, haddr⟩ := h.passed
  · rw [haddr] at hapart ⊢
    rw [hshape]
    exact kernel_Axy_multiplies hw hNB (by omega) hsize hapart 1 beta relu
  · rw [haddr] at hapart ⊢
    rw [hshape]
    rw [Nat.mul_comm] at hsize
    exact kernel_xAy_multiplies (.tree 3) (by norm_num) (by omega) hsize hapart 1 beta relu

theorem execute_custom_gemv_eq (one zero : F) (hdev : weight.mem_type ≠ .MEM_TYPE_HOST) (device : ℤ)
    (is_gemv_add : Bool) :
    execute_custom_gemv one zero gemm_order_ device output input weight is_gemv_add =
      ⟨0, none, some (gemv_kernel one gemm_order_ 128 output input weight none
        (if is_gemv_add then one else zero) false)⟩ := by
  have hrows := h.rows
  rw [execute_custom_gemv, if_neg (by simp [h.supported]), gemv_kernel]
  obtain ⟨hshape, -⟩ | ⟨hshape, -⟩ := h.passed
  · simp [hdev, hshape, rocblas_gemv_fp16_Axy, toUint32_natCast (show outDim weight.bshape_r
      gemm_order_ < 2 ^ 32 by omega)]
  · simp [hdev, hshape, rocblas_gemv_fp16_xAy, toUint32_natCast (show outDim weight.bshape_r
      gemm_order_ < 2 ^ 32 by omega)]

theorem execute_custom_gemv_add_eq (one zero : F) {bias : GpuBo}
    (hpanel : ¬ ((gemv_shape gemm_order_ weight).1 = .W_X_I ∧
      (gemv_shape gemm_order_ weight).2.1 = 32317)) (relu : Bool) :
    execute_custom_gemv_add one zero gemm_order_ output input weight bias relu =
      ⟨0, none, some (gemv_kernel one gemm_order_ 256 output input weight (some bias.data) zero
        relu)⟩ := by
  have hrows := h.rows
  rw [execute_custom_gemv_add, if_neg (by simp [h.supported]), gemv_kernel]
  obtain ⟨hshape, -⟩ | ⟨hshape, -⟩ := h.passed
  · have hne : (outDim weight.bshape_r gemm_order_ : ℤ) ≠ 32317 := by simpa [hshape] using hpanel
    simp [hshape, hne, rocblas_addmv_fp16_Axy, toUint32_natCast (show outDim weight.bshape_r
      gemm_order_ < 2 ^ 32 by omega)]
  · simp [hshape, rocblas_addmv_fp16_xAy, toUint32_natCast (show outDim weight.bshape_r
      gemm_order_ < 2 ^ 32 by omega)]

end Kernel

/-- Whether the bias goes through the kernels that add it. -/
def addsBias (output : GpuBo) : Option GpuBo → Bool
  | none => false
  | some bias => output.data ≠ bias.data

/-- Whether the kernel for a weight in panels is launched. -/
def usesPanels (gemm_order_ : PimGemmOrder) (output weight : GpuBo) (bias : Option GpuBo) : Bool :=
  addsBias output bias && (gemv_shape gemm_order_ weight).1 = .W_X_I &&
    (gemv_shape gemm_order_ weight).2.1 = 32317

/-- What `execute_gemv` owes row `r` of a product whose weight lies at `a`: the product, plus the bias;
    the activation is only there with a bias of its own. -/
def gemv_row (inner : ℕ) (a : ℕ → ℕ → ℤ) (output input : GpuBo) (bias : Option GpuBo)
    (act_func : PimActFunc) (mem : Memory R R) (r : ℕ) : R :=
  let dot := ∑ i ∈ Finset.range inner, mem (.global (a r i)) * mem (.global (input.data + i))
  match bias with
  | none => dot
  | some bias =>
    if output.data = bias.data then dot + mem (.global (output.data + r))
    else activated (act_func = .ACT_RELU) (dot + mem (.global (bias.data + r)))

end PimLibrary.Gpu
