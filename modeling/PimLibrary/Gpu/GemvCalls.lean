import PimLibrary.Gpu.Panels

/-! `execute_gemv` as a whole: which product a call leaves in the output, whatever the schedule.

    A weight in device memory is multiplied where it is. One on the host is copied first, into a buffer
    with the padded shape that is not marked as transposed; the path with a bias of its own copies
    nothing. Every call ends in the same state under every schedule, roundings included. -/

namespace PimLibrary.Gpu
open Schemes.Word Schemes.Interleave Schemes.SharedMemory PimLibrary.Device PimLibrary.Executor
  PimLibrary.Runtime

attribute [local irreducible] int32

variable {H F : Type} {R : Type} [CommSemiring R] [LinearOrder R]

/-- The bias that the kernels add; one that is the output is what `beta` adds. -/
def own_bias (output : GpuBo) : Option GpuBo → Option ℤ
  | none => none
  | some bias => if output.data = bias.data then none else some bias.data

/-- The operands of `execute_gemv` where the weight is not in panels. -/
structure CallFits (gemm_order_ : PimGemmOrder) (output input weight : GpuBo) (bias : Option GpuBo) :
    Prop extends GemvFits gemm_order_ output input weight where
  bias_apart : ∀ b, own_bias output bias = some b → Separate b (outDim weight.bshape_r gemm_order_)
    output.data (outDim weight.bshape_r gemm_order_)
  no_panels : usesPanels gemm_order_ output weight bias = false

/-- The kernel that `execute_gemv` launches then. -/
def call_kernel (one zero : F) (gemm_order_ : PimGemmOrder) (output input weight : GpuBo)
    (bias : Option GpuBo) (act_func : PimActFunc) : MatVec F :=
  match own_bias output bias with
  | none => gemv_kernel one gemm_order_ 128 output input weight none
      (if bias.isSome then one else zero) false
  | some b => gemv_kernel one gemm_order_ 256 output input weight (some b) zero (act_func = .ACT_RELU)

section Call

variable {gemm_order_ : PimGemmOrder} {output input weight : GpuBo} {bias : Option GpuBo}
  {act_func : PimActFunc}

theorem execute_gemv_eq (h : CallFits gemm_order_ output input weight bias)
    (hdev : weight.mem_type ≠ .MEM_TYPE_HOST) (one zero : F) (device : ℤ) :
    execute_gemv one zero gemm_order_ device output input weight bias act_func =
      ⟨0, none, some (call_kernel one zero gemm_order_ output input weight bias act_func)⟩ := by
  have hpanels := h.no_panels
  cases bias with
  | none =>
    simp [execute_gemv, call_kernel, own_bias, execute_custom_gemv_eq h.toGemvFits one zero hdev device]
  | some b =>
    by_cases hsame : output.data = b.data
    · simp [execute_gemv, call_kernel, own_bias, hsame,
        execute_custom_gemv_eq h.toGemvFits one zero hdev device]
    · have hnot : ¬ ((gemv_shape gemm_order_ weight).1 = .W_X_I ∧
          (gemv_shape gemm_order_ weight).2.1 = 32317) := by
        simpa [usesPanels, addsBias, hsame] using hpanels
      simp [execute_gemv, call_kernel, own_bias, hsame,
        execute_custom_gemv_add_eq h.toGemvFits one zero hnot]

theorem call_kernel_fits (h : CallFits gemm_order_ output input weight bias) (one zero : F) :
    (call_kernel one zero gemm_order_ output input weight bias act_func).Fits := by
  have hb := h.bias_apart
  rw [call_kernel]
  cases hown : own_bias output bias with
  | none => exact gemv_kernel_fits h.toGemvFits one (by simp) (by norm_num) (by norm_num) _ _
  | some b =>
    refine gemv_kernel_fits h.toGemvFits one (fun b' hb' => ?_) (by norm_num) le_rfl _ _
    exact hb b' (hown.trans hb')

/-- The rows that the kernel leaves. -/
theorem call_kernel_rows (act_func : PimActFunc) (h : CallFits gemm_order_ output input weight bias) {u}
    (hu : (call_kernel (1 : R) 0 gemm_order_ output input weight bias act_func).Runs (exactArith R) u)
    (s : GridState R R) :
    (∀ r, r < outDim weight.bshape_r gemm_order_ → (u.foldl step s).mem (.global (output.data + r)) =
      gemv_row (inDim weight.bshape_r gemm_order_) (weight_addr gemm_order_ weight) output input bias
        act_func s.mem r) ∧
    ∀ addr, (∀ r, r < outDim weight.bshape_r gemm_order_ → addr ≠ output.data + r) →
      (u.foldl step s).mem (.global addr) = s.mem (.global addr) := by
  have hb := h.bias_apart
  rw [call_kernel] at hu
  cases bias with
  | none =>
    have hmul := gemv_kernel_multiplies (R := R) h.toGemvFits (b := none) (by simp) width_128
      (by norm_num) (by norm_num) 0 false u hu s
    simpa [gemv_row, activated] using hmul
  | some b =>
    by_cases hsame : output.data = b.data
    · simp only [own_bias, hsame, if_true] at hu
      have hmul := gemv_kernel_multiplies (R := R) h.toGemvFits (b := none) (by simp) width_128
        (by norm_num) (by norm_num) 1 false u hu s
      simpa [gemv_row, activated, hsame] using hmul
    · simp only [own_bias, hsame, if_false] at hu hb
      have hmul := gemv_kernel_multiplies (R := R) h.toGemvFits (b := some b.data) hb width_256
        (by norm_num) (by norm_num) 0 (act_func = .ACT_RELU) u hu s
      simpa [gemv_row, hsame] using hmul

end Call

/-- Every call has a run. -/
theorem GemvCall.exists_ends (A : Arith H F) (call : GemvCall F) (s : GridState H F) :
    ∃ s', call.Ends A s s' := by
  rw [funext fun s' => GemvCall.Ends.eq_def A call s s']
  cases call.launch with
  | none => exact ⟨_, rfl⟩
  | some K =>
    obtain ⟨u, hu⟩ := exists_run A K
    exact ⟨_, u, hu, rfl⟩

/-! ### The product -/

/-- The call returns 0 and has a run, and every run leaves the rows in the output and all other memory
    that is to be kept as it was. -/
structure Computes (call : GemvCall R) (s : GridState R R) (y : ℤ) (rows : ℕ) (row : ℕ → R)
    (kept : ℤ → Prop) : Prop where
  ret : call.ret = 0
  runs : ∃ s', call.Ends (exactArith R) s s'
  product : ∀ s', call.Ends (exactArith R) s s' → ∀ r, r < rows → s'.mem (.global (y + r)) = row r
  frame : ∀ s', call.Ends (exactArith R) s s' → ∀ addr, kept addr →
    (∀ r, r < rows → addr ≠ y + r) → s'.mem (.global addr) = s.mem (.global addr)

/-- A call that copies nothing. -/
theorem computes_of_kernel {K : MatVec R} {s : GridState R R} {y : ℤ} {rows : ℕ} {row : ℕ → R}
    (h : ∀ u, K.Runs (exactArith R) u →
      (∀ r, r < rows → (u.foldl step s).mem (.global (y + r)) = row r) ∧
      ∀ addr, (∀ r, r < rows → addr ≠ y + r) →
        (u.foldl step s).mem (.global addr) = s.mem (.global addr)) :
    Computes ⟨0, none, some K⟩ s y rows row fun _ => True := by
  constructor
  · rfl
  · exact GemvCall.exists_ends _ _ s
  · rintro s' ⟨u, hu, rfl⟩
    exact (h u hu).1
  · rintro s' ⟨u, hu, rfl⟩ addr -
    exact (h u hu).2 addr

/-- On a weight in device memory, for both orders of the factors, stored as it is or transposed, with any
    bias, every run leaves the logical product in the output. -/
theorem execute_gemv_product {gemm_order_ : PimGemmOrder} {output input weight : GpuBo}
    {bias : Option GpuBo} (h : CallFits gemm_order_ output input weight bias)
    (hdev : weight.mem_type ≠ .MEM_TYPE_HOST) (act_func : PimActFunc) (device : ℤ) (s : GridState R R) :
    Computes (execute_gemv (1 : R) 0 gemm_order_ device output input weight bias act_func) s output.data
      (outDim weight.bshape_r gemm_order_)
      (gemv_row (inDim weight.bshape_r gemm_order_) (weight_addr gemm_order_ weight) output input bias
        act_func s.mem) fun _ => True := by
  rw [execute_gemv_eq h hdev]
  exact computes_of_kernel fun u hu => call_kernel_rows act_func h hu s

/-- On the weight in panels, the product with the matrix that the panels hold. -/
theorem execute_gemv_panels {gemm_order_ : PimGemmOrder} {output input weight bias : GpuBo}
    (h : PanelCall gemm_order_ output input weight bias) (act_func : PimActFunc) (device : ℤ)
    (s : GridState R R) :
    Computes (execute_gemv (1 : R) 0 gemm_order_ device output input weight (some bias) act_func) s
      output.data (outDim weight.bshape_r gemm_order_)
      (gemv_row (inDim weight.bshape_r gemm_order_)
        (panel_addr weight.data (outDim weight.bshape_r gemm_order_)) output input (some bias) act_func
        s.mem) fun _ => True := by
  have hsame : output.data ≠ bias.data := by
    have hpanels := h.panels
    simp only [usesPanels, addsBias, Bool.and_eq_true, decide_eq_true_eq] at hpanels
    exact hpanels.1.1
  rw [execute_gemv_panels_eq h]
  refine computes_of_kernel fun u hu => ?_
  have hmul := panel_kernel_multiplies (R := R) h.fits (act_func = .ACT_RELU) h.apart u hu s
  simpa [gemv_row, hsame] using hmul

/-! ### A weight on the host -/

/-- The copy is multiplied in place of the weight. -/
theorem execute_gemv_host_eq {gemm_order_ : PimGemmOrder} {output input weight : GpuBo}
    {bias : Option GpuBo} {act_func : PimActFunc} {device : ℤ}
    (hhost : weight.mem_type = .MEM_TYPE_HOST) (hraw : weight.data_layout_type = .RAW)
    (hown : own_bias output bias = none)
    (h : CallFits gemm_order_ output input (device_copy device weight) bias) (one zero : F) :
    execute_gemv one zero gemm_order_ device output input weight bias act_func =
      ⟨0, some (device, weight.data, weight.size / 2),
        some (call_kernel one zero gemm_order_ output input (device_copy device weight) bias
          act_func)⟩ := by
  have hsupported : gemm_not_supported input weight = false := by
    simp [gemm_not_supported, h.single, hraw, h.raw_input]
  have hcustom : ∀ is_gemv_add, execute_custom_gemv one zero gemm_order_ device output input weight
      is_gemv_add = { execute_custom_gemv one zero gemm_order_ device output input
        (device_copy device weight) is_gemv_add with
        copy := some (device, weight.data, weight.size / 2) } := by
    intro is_gemv_add
    have hcopy : (device_copy device weight).mem_type ≠ .MEM_TYPE_HOST := by simp [device_copy]
    simp only [execute_custom_gemv, hsupported, h.supported, hhost, hcopy, Bool.false_eq_true, if_true,
      if_false]
  have hplain : execute_gemv one zero gemm_order_ device output input weight bias act_func =
      { execute_gemv one zero gemm_order_ device output input (device_copy device weight) bias act_func
        with copy := some (device, weight.data, weight.size / 2) } := by
    cases bias with
    | none => exact hcustom false
    | some b =>
      have hsame : output.data = b.data := by
        by_contra hne
        simp [own_bias, hne] at hown
      simp only [execute_gemv, if_pos hsame]
      exact hcustom true
  rw [hplain, execute_gemv_eq h (by simp [device_copy])]

theorem stored_lt {gemm_order_ : PimGemmOrder} {s : PimBShape} {r i : ℕ}
    (hr : r < outDim s gemm_order_) (hi : i < inDim s gemm_order_) :
    stored gemm_order_ false s 0 r i < s.h.toNat * s.w.toNat := by
  have hlt : ∀ y x, y < s.h.toNat → x < s.w.toNat → y * s.w.toNat + x < s.h.toNat * s.w.toNat := by
    intro y x hy hx
    calc y * s.w.toNat + x < (y + 1) * s.w.toNat := by rw [Nat.succ_mul]; omega
      _ ≤ _ := Nat.mul_le_mul_right _ hy
  cases gemm_order_ with
  | W_X_I => simpa [stored] using hlt r i hr hi
  | I_X_W => simpa [stored] using hlt i r hi hr

theorem copied_of_separate (mem : Memory H F) {dst p : ℤ} (src : ℤ) {n k i : ℕ} (h : Separate p k dst n)
    (hi : i < k) : copied mem dst src n (.global (p + i)) = mem (.global (p + i)) := by
  refine if_neg ?_
  rcases h with h | h <;> omega

theorem copied_inside {mem : Memory H F} {dst src : ℤ} {n i : ℕ} (hi : i < n) :
    copied mem dst src n (.global (dst + i)) = mem (.global (src + i)) := by
  have hin : dst ≤ dst + (i : ℤ) ∧ dst + (i : ℤ) < dst + n := by omega
  rw [copied, if_pos hin, add_sub_cancel_left]

/-- A weight on the host is multiplied as what lies there in its padded shape, taken as not transposed. -/
theorem execute_gemv_host {gemm_order_ : PimGemmOrder} {output input weight : GpuBo}
    {bias : Option GpuBo} {act_func : PimActFunc} {device : ℤ}
    (hhost : weight.mem_type = .MEM_TYPE_HOST) (hraw : weight.data_layout_type = .RAW)
    (hown : own_bias output bias = none)
    (h : GemvFits gemm_order_ output input (device_copy device weight))
    (hsize : weight.bshape.h.toNat * weight.bshape.w.toNat ≤ weight.size / 2)
    (hinput : Separate input.data (inDim weight.bshape gemm_order_) device (weight.size / 2))
    (houtput : Separate output.data (outDim weight.bshape gemm_order_) device (weight.size / 2))
    (s : GridState R R) :
    Computes (execute_gemv (1 : R) 0 gemm_order_ device output input weight bias act_func) s output.data
      (outDim weight.bshape gemm_order_)
      (gemv_row (inDim weight.bshape gemm_order_)
        (fun r i => weight.data + stored gemm_order_ false weight.bshape 0 r i) output input bias
        act_func s.mem) fun addr => ¬ (device ≤ addr ∧ addr < device + (weight.size / 2 : ℕ)) := by
  have hfits : CallFits gemm_order_ output input (device_copy device weight) bias := by
    refine ⟨h, fun b hb => by simp [hown] at hb, ?_⟩
    cases bias with
    | none => rfl
    | some b =>
      have hsame : output.data = b.data := by
        by_contra hne
        simp [own_bias, hne] at hown
      simp [usesPanels, addsBias, hsame]
  have hrows := fun u hu => call_kernel_rows (R := R) act_func hfits (u := u) hu
    { s with mem := copied s.mem device weight.data (weight.size / 2) }
  rw [execute_gemv_host_eq hhost hraw hown hfits]
  have hrow : ∀ r, r < outDim weight.bshape gemm_order_ →
      gemv_row (inDim weight.bshape gemm_order_) (weight_addr gemm_order_ (device_copy device weight))
        output input bias act_func (copied s.mem device weight.data (weight.size / 2)) r =
      gemv_row (inDim weight.bshape gemm_order_)
        (fun r i => weight.data + stored gemm_order_ false weight.bshape 0 r i) output input bias
        act_func s.mem r := by
    intro r hr
    have hdot : ∀ i ∈ Finset.range (inDim weight.bshape gemm_order_),
        copied s.mem device weight.data (weight.size / 2)
            (.global (weight_addr gemm_order_ (device_copy device weight) r i)) *
          copied s.mem device weight.data (weight.size / 2) (.global (input.data + i)) =
        s.mem (.global (weight.data + stored gemm_order_ false weight.bshape 0 r i)) *
          s.mem (.global (input.data + i)) := by
      intro i hi
      have hi := Finset.mem_range.mp hi
      rw [weight_addr, copied_of_separate _ _ hinput hi]
      exact congrArg (· * _) (copied_inside ((stored_lt hr hi).trans_le hsize))
    have hy := copied_of_separate s.mem weight.data houtput hr
    cases bias with
    | none => exact Finset.sum_congr rfl hdot
    | some b =>
      have hsame : output.data = b.data := by
        by_contra hne
        simp [own_bias, hne] at hown
      simp only [gemv_row, if_pos hsame, hy]
      rw [Finset.sum_congr rfl hdot]
  constructor
  · rfl
  · exact GemvCall.exists_ends _ _ s
  · rintro s' ⟨u, hu, rfl⟩ r hr
    exact ((hrows u hu).1 r hr).trans (hrow r hr)
  · rintro s' ⟨u, hu, rfl⟩ addr hkept hne
    exact ((hrows u hu).2 addr hne).trans (if_neg hkept)

/-! ### Schedules -/

/-- Two runs of a call whose launch fits end in the same state. -/
theorem GemvCall.Ends.unique {A : Arith H F} {call : GemvCall F}
    (hfits : ∀ K, call.launch = some K → K.Fits) {s s₁ s₂ : GridState H F} (h₁ : call.Ends A s s₁)
    (h₂ : call.Ends A s s₂) : s₁ = s₂ := by
  rw [GemvCall.Ends] at h₁ h₂
  cases hlaunch : call.launch with
  | none =>
    rw [hlaunch] at h₁ h₂
    exact h₁.trans h₂.symm
  | some K =>
    rw [hlaunch] at h₁ h₂
    obtain ⟨u₁, hu₁, rfl⟩ := h₁
    obtain ⟨u₂, hu₂, rfl⟩ := h₂
    rw [hu₁.foldl_eq A (hfits K hlaunch), hu₂.foldl_eq A (hfits K hlaunch)]

/-- The operands of a call: a weight in device memory, one on the host, one in panels. -/
inductive Operands (gemm_order_ : PimGemmOrder) (device : ℤ) (output input weight : GpuBo) :
    Option GpuBo → Prop
  | device {bias : Option GpuBo} : CallFits gemm_order_ output input weight bias →
    weight.mem_type ≠ .MEM_TYPE_HOST → Operands gemm_order_ device output input weight bias
  | host {bias : Option GpuBo} : CallFits gemm_order_ output input (device_copy device weight) bias →
    weight.mem_type = .MEM_TYPE_HOST → weight.data_layout_type = .RAW → own_bias output bias = none →
    Operands gemm_order_ device output input weight bias
  | panels {bias : GpuBo} : PanelCall gemm_order_ output input weight bias →
    Operands gemm_order_ device output input weight (some bias)

/-- Whatever the arithmetic rounds, every schedule of a call ends in the same state. -/
theorem execute_gemv_deterministic {gemm_order_ : PimGemmOrder} {device : ℤ}
    {output input weight : GpuBo} {bias : Option GpuBo} {act_func : PimActFunc}
    (h : Operands gemm_order_ device output input weight bias) (A : Arith H F) (one zero : F)
    {s s₁ s₂ : GridState H F}
    (h₁ : (execute_gemv one zero gemm_order_ device output input weight bias act_func).Ends A s s₁)
    (h₂ : (execute_gemv one zero gemm_order_ device output input weight bias act_func).Ends A s s₂) :
    s₁ = s₂ := by
  refine h₁.unique (fun K hK => ?_) h₂
  cases h with
  | device hfits hdev =>
    rw [execute_gemv_eq hfits hdev] at hK
    exact Option.some.inj hK ▸ call_kernel_fits hfits one zero
  | host hfits hhost hraw hown =>
    rw [execute_gemv_host_eq hhost hraw hown hfits] at hK
    exact Option.some.inj hK ▸ call_kernel_fits hfits one zero
  | panels hpanel =>
    rw [execute_gemv_panels_eq hpanel] at hK
    exact Option.some.inj hK ▸ panel_kernel_fits hpanel.fits one zero _ hpanel.apart

/-- A call that is not supported is reported and does nothing. -/
theorem execute_gemv_refused {gemm_order_ : PimGemmOrder} {device : ℤ} {output input weight : GpuBo}
    {bias : Option GpuBo} {act_func : PimActFunc} (h : gemm_not_supported input weight = true)
    (A : Arith H F) (one zero : F) (s s' : GridState H F) :
    (execute_gemv one zero gemm_order_ device output input weight bias act_func).ret ≠ 0 ∧
      ((execute_gemv one zero gemm_order_ device output input weight bias act_func).Ends A s s' ↔
        s' = s) := by
  cases bias with
  | none => simp [execute_gemv, execute_custom_gemv, h, GemvCall.Ends, GemvCall.before]
  | some b =>
    by_cases hsame : output.data = b.data
    · simp [execute_gemv, execute_custom_gemv, hsame, h, GemvCall.Ends, GemvCall.before]
    · simp [execute_gemv, execute_custom_gemv_add, hsame, h, GemvCall.Ends, GemvCall.before]

/-! ### On small operands -/

/-- A raw buffer of an `h`-by-`w` matrix. -/
def raw_bo (data : ℤ) (h w : UInt32) (mem_type : PimMemType) (transposed : Bool) : GpuBo :=
  ⟨PimCreateBo ⟨1, 1, h, w⟩, data, 2 * (h.toNat * w.toNat), .RAW, mem_type, transposed⟩

abbrev device_bo (data : ℤ) (h w : UInt32) : GpuBo := raw_bo data h w .MEM_TYPE_DEVICE false

/-- A memory that holds its addresses. -/
def addresses : GridState ℤ ℤ := ⟨fun _ => ⟨0, 0, 0⟩, fun
  | .global addr => addr
  | .sdata .. => 0⟩

theorem call_fits_small : CallFits .W_X_I (device_bo 0 1 2) (device_bo 10 1 3)
    (raw_bo 20 2 3 .MEM_TYPE_DEVICE true) (some (device_bo 30 1 2)) where
  single := rfl
  raw_weight := rfl
  raw_input := rfl
  size := by decide
  inner := by decide
  rows := by decide
  input_apart := by decide
  weight_apart := by decide
  bias_apart := fun b hb => by
    obtain rfl : 30 = b := by simpa [own_bias, raw_bo] using hb
    decide
  no_panels := by decide

/-- The second row of a transposed 2-by-3 weight times the input, plus the bias. -/
theorem execute_gemv_product_small : ∃ s', (execute_gemv (1 : ℤ) 0 .W_X_I 0 (device_bo 0 1 2)
    (device_bo 10 1 3) (raw_bo 20 2 3 .MEM_TYPE_DEVICE true) (some (device_bo 30 1 2))
    .ACT_RELU).Ends (exactArith ℤ) addresses s' ∧ s'.mem (.global 1) = 794 := by
  have h := execute_gemv_product (R := ℤ) call_fits_small (by decide) .ACT_RELU 0 addresses
  obtain ⟨s', hs'⟩ := h.runs
  refine ⟨s', hs', (h.product s' hs' 1 (by decide)).trans ?_⟩
  decide

theorem execute_gemv_deterministic_small : ∃! s', (execute_gemv (1 : ℤ) 0 .W_X_I 0 (device_bo 0 1 2)
    (device_bo 10 1 3) (raw_bo 20 2 3 .MEM_TYPE_DEVICE true) (some (device_bo 30 1 2))
    .ACT_RELU).Ends (exactArith ℤ) addresses s' := by
  obtain ⟨s', hs'⟩ := GemvCall.exists_ends (exactArith ℤ) (execute_gemv (1 : ℤ) 0 .W_X_I 0
    (device_bo 0 1 2) (device_bo 10 1 3) (raw_bo 20 2 3 .MEM_TYPE_DEVICE true)
    (some (device_bo 30 1 2)) .ACT_RELU) addresses
  exact ⟨s', hs', fun s'' hs'' => execute_gemv_deterministic (.device call_fits_small (by decide))
    (exactArith ℤ) 1 0 hs'' hs'⟩

/-- The padded 2-by-4 copy of a transposed 2-by-3 weight on the host. -/
theorem execute_gemv_host_small : Computes (execute_gemv (1 : ℤ) 0 .W_X_I 100 (device_bo 0 1 2)
    (device_bo 10 1 4) { raw_bo 20 2 3 .MEM_TYPE_HOST true with bshape := ⟨1, 1, 2, 4⟩, size := 16 }
    none .NONE) addresses 0 2
    (gemv_row 4 (fun r i => 20 + stored .W_X_I false ⟨1, 1, 2, 4⟩ 0 r i) (device_bo 0 1 2)
      (device_bo 10 1 4) none .NONE addresses.mem) fun addr => ¬ (100 ≤ addr ∧ addr < 100 + (8 : ℕ)) :=
  execute_gemv_host rfl rfl rfl
    ⟨rfl, rfl, rfl, by decide, by decide, by decide, by decide, by decide⟩ (by decide) (by decide)
    (by decide) addresses

/-- The weight whose rows are 32317, with a full panel of columns and a part of one. -/
theorem panel_call_small : PanelCall .W_X_I (device_bo 0 1 32317) (device_bo 40000 1 20)
    (device_bo 100000 32317 20) (device_bo 50000 1 32317) where
  single := rfl
  raw_weight := rfl
  raw_input := rfl
  panels := by decide +kernel
  fits := ⟨by decide, by decide⟩
  apart := by
    refine ⟨by decide, fun r i r' _ _ hr' => ?_, fun b hb => ?_⟩
    · have hr' : r' < 32317 := hr'
      simp only [panel_addr, raw_bo]
      omega
    · obtain rfl : 50000 = b := by simpa [raw_bo] using hb
      decide

theorem execute_gemv_panels_small : ∃ s', (execute_gemv (1 : ℤ) 0 .W_X_I 0 (device_bo 0 1 32317)
    (device_bo 40000 1 20) (device_bo 100000 32317 20) (some (device_bo 50000 1 32317))
    .NONE).Ends (exactArith ℤ) addresses s' ∧ s'.mem (.global 32316) = 576542562706 := by
  have h := execute_gemv_panels (R := ℤ) panel_call_small .NONE 0 addresses
  obtain ⟨s', hs'⟩ := h.runs
  refine ⟨s', hs', (h.product s' hs' 32316 (by decide)).trans ?_⟩
  decide

end PimLibrary.Gpu
