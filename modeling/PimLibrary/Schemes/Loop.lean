import Mathlib.Tactic

/-! Counted loops that thread a state and emit output.

    A C loop that mutates counters and issues commands is a left fold whose step returns the next
    state and the commands of one iteration. `runLoop_range` is its invariant rule: a relation between
    the iteration number and the state, together with the output of each iteration in closed form.
    Nests of such closed forms flatten to one `map` over one range. -/

namespace Schemes.Loop

variable {σ ι κ β : Type*}

/-- Run the body over the indices, threading the state and appending the outputs. -/
def runLoop (body : σ → ι → σ × List β) : σ → List ι → σ × List β
  | s, [] => (s, [])
  | s, i :: is =>
    let now := body s i
    let rest := runLoop body now.1 is
    (rest.1, now.2 ++ rest.2)

/-- The indices of `for (i = lo; i < hi; i += step)`. -/
def forFrom (lo : ℕ) (hi : ℤ) (step : ℕ) : List ℕ :=
  (List.range ((hi.toNat - lo + step - 1) / step)).map (lo + · * step)

/-- The indices of `for (i = 0; i < hi; i += step)`. -/
def forRange (hi : ℤ) (step : ℕ) : List ℕ := forFrom 0 hi step

theorem runLoop_append (body : σ → ι → σ × List β) (s : σ) (l₁ l₂ : List ι) :
    runLoop body s (l₁ ++ l₂) =
      ((runLoop body (runLoop body s l₁).1 l₂).1,
        (runLoop body s l₁).2 ++ (runLoop body (runLoop body s l₁).1 l₂).2) := by
  induction l₁ generalizing s with
  | nil => simp [runLoop]
  | cons i is ih => simp [runLoop, ih, List.append_assoc]

theorem runLoop_map (body : σ → ι → σ × List β) (g : κ → ι) (s : σ) (l : List κ) :
    runLoop body s (l.map g) = runLoop (fun s k => body s (g k)) s l := by
  induction l generalizing s with
  | nil => rfl
  | cons k ks ih => simp [runLoop, ih]

/-- Invariant rule: if `R k` holds before iteration `k`, which then emits `o k` and establishes
    `R (k + 1)`, the whole loop establishes `R n` and emits the outputs in order. -/
theorem runLoop_range {f : σ → ℕ → σ × List β} {R : ℕ → σ → Prop} {o : ℕ → List β} {n : ℕ}
    {s : σ} (h0 : R 0 s)
    (hstep : ∀ k, k < n → ∀ s, R k s → R (k + 1) (f s k).1 ∧ (f s k).2 = o k) :
    R n (runLoop f s (List.range n)).1 ∧
      (runLoop f s (List.range n)).2 = (List.range n).flatMap o := by
  induction n with
  | zero => exact ⟨h0, rfl⟩
  | succ n ih =>
    obtain ⟨hR, hout⟩ := ih fun k hk => hstep k (Nat.lt_succ_of_lt hk)
    obtain ⟨hR', hout'⟩ := hstep n (Nat.lt_succ_self n) _ hR
    rw [List.range_succ, runLoop_append]
    simp only [runLoop, List.append_nil, List.flatMap_append, List.flatMap_cons, List.flatMap_nil]
    exact ⟨hR', by rw [hout, hout']⟩

/-- What every body emits, the loop emits. -/
theorem forall_mem_runLoop {body : σ → ι → σ × List β} {P : β → Prop} {s : σ} {l : List ι}
    (h : ∀ s i, ∀ c ∈ (body s i).2, P c) : ∀ c ∈ (runLoop body s l).2, P c := by
  induction l generalizing s with
  | nil => simp [runLoop]
  | cons i is ih =>
    intro c hc
    rcases List.mem_append.mp hc with hnow | hrest
    · exact h s i c hnow
    · exact ih c hrest

theorem forRange_mul (n : ℕ) {step : ℕ} (h : 0 < step) :
    forRange ((n * step : ℕ) : ℤ) step = (List.range n).map (· * step) := by
  have hn : (n * step + step - 1) / step = n := by
    rw [Nat.add_sub_assoc h, Nat.add_comm, Nat.add_mul_div_right _ _ h,
      Nat.div_eq_of_lt (Nat.sub_lt h Nat.one_pos), Nat.zero_add]
  simp only [forRange, forFrom, Int.toNat_natCast, Nat.sub_zero, Nat.zero_add, hn]

theorem forRange_of_nonpos {hi : ℤ} (h : hi ≤ 0) {step : ℕ} (hs : 0 < step) :
    forRange hi step = [] := by
  have h0 : hi.toNat = 0 := Int.toNat_eq_zero.mpr h
  simp [forRange, forFrom, h0, Nat.div_eq_of_lt (Nat.sub_lt hs Nat.one_pos)]

theorem forRange_one (n : ℕ) : forRange (n : ℤ) 1 = List.range n := by
  simp [forRange, forFrom]

theorem mem_forFrom {lo : ℕ} {hi : ℤ} {step : ℕ} (hs : 0 < step) {x : ℕ} :
    x ∈ forFrom lo hi step ↔ lo ≤ x ∧ step ∣ x - lo ∧ (x : ℤ) < hi := by
  have hlt : ∀ i, i < (hi.toNat - lo + step - 1) / step ↔ lo + i * step < hi.toNat := by
    intro i
    rw [Nat.lt_div_iff_mul_lt hs]
    omega
  simp only [forFrom, List.mem_map, List.mem_range, hlt]
  constructor
  · rintro ⟨i, hi, rfl⟩
    exact ⟨by omega, ⟨i, by rw [Nat.add_sub_cancel_left, Nat.mul_comm]⟩, by omega⟩
  · rintro ⟨hlo, ⟨i, hi⟩, hlt⟩
    have hx : lo + i * step = x := by rw [Nat.mul_comm, ← hi]; omega
    exact ⟨i, by omega, hx⟩

/-! ### Flattening nests -/

/-- Two nested counted loops are one loop over the product, the digits recovered by division. -/
theorem flatMap_range_map (a b : ℕ) (f : ℕ → ℕ → β) :
    (List.range a).flatMap (fun i => (List.range b).map (f i)) =
      (List.range (a * b)).map (fun q => f (q / b) (q % b)) := by
  rcases Nat.eq_zero_or_pos b with rfl | hb
  · simp
  induction a with
  | zero => simp
  | succ a ih =>
    have hlast : (List.range b).map (fun j => f ((a * b + j) / b) ((a * b + j) % b)) =
        (List.range b).map (f a) := by
      refine List.map_congr_left fun j hj => ?_
      have hj := List.mem_range.mp hj
      rw [Nat.mul_comm, Nat.mul_add_div hb, Nat.div_eq_of_lt hj, Nat.mul_add_mod, Nat.mod_eq_of_lt hj,
        Nat.add_zero]
    rw [List.range_succ, List.flatMap_append, ih, Nat.succ_mul, List.range_add, List.map_append,
      List.map_map]
    simp only [List.flatMap_cons, List.flatMap_nil, List.append_nil, Function.comp_def, hlast]

/-- The iteration of two nested loops at a position. -/
theorem getElem?_nest {a b : ℕ} (f : ℕ → ℕ → β) {i j : ℕ} (hi : i < a) (hj : j < b) :
    ((List.range a).flatMap fun i => (List.range b).map (f i))[i * b + j]? = some (f i j) := by
  have hb : 0 < b := by omega
  have hq : i * b + j < a * b :=
    calc i * b + j < i * b + b := by omega
      _ = (i + 1) * b := by ring
      _ ≤ a * b := Nat.mul_le_mul_right _ hi
  rw [flatMap_range_map, List.getElem?_map, List.getElem?_range hq, Option.map_some, Nat.mul_comm i b,
    Nat.mul_add_div hb, Nat.div_eq_of_lt hj, Nat.add_zero, Nat.mul_add_mod, Nat.mod_eq_of_lt hj]

/-- The iteration of three nested loops at a position. -/
theorem getElem?_nest_nest {a b c : ℕ} (f : ℕ → ℕ → ℕ → β) {i j k : ℕ} (hi : i < a) (hj : j < b)
    (hk : k < c) :
    ((List.range a).flatMap fun i => (List.range b).flatMap fun j =>
      (List.range c).map (f i j))[(i * b + j) * c + k]? = some (f i j k) := by
  have hjk : j * c + k < b * c :=
    calc j * c + k < j * c + c := by omega
      _ = (j + 1) * c := by ring
      _ ≤ b * c := Nat.mul_le_mul_right _ hj
  have hc : 0 < c := by omega
  simp only [flatMap_range_map b c]
  rw [show (i * b + j) * c + k = i * (b * c) + (j * c + k) by ring, getElem?_nest _ hi hjk,
    Nat.mul_comm j c, Nat.mul_add_div hc, Nat.div_eq_of_lt hk, Nat.add_zero, Nat.mul_add_mod,
    Nat.mod_eq_of_lt hk]

/-- A nest whose body depends on the position only is one loop over the positions. -/
theorem flatMap_range_flatMap (a b : ℕ) (f : ℕ → List β) :
    (List.range a).flatMap (fun i => (List.range b).flatMap fun j => f (i * b + j)) =
      (List.range (a * b)).flatMap f := by
  have h := flatMap_range_map a b fun i j => i * b + j
  have hid : (fun q => q / b * b + q % b) = id := by
    funext q
    rw [Nat.mul_comm, Nat.div_add_mod, id]
  rw [hid, List.map_id] at h
  rw [← h, List.flatMap_assoc]
  simp only [List.flatMap_map]

/-- Three nested loops whose body depends on the position only. -/
theorem flatMap_range_nest (a b c : ℕ) (f : ℕ → β) :
    (List.range (a * b * c)).map f = (List.range a).flatMap fun i => (List.range b).flatMap fun j =>
      (List.range c).map fun k => f ((i * b + j) * c + k) := by
  rw [flatMap_range_flatMap a b fun q => (List.range c).map fun k => f (q * c + k),
    flatMap_range_map (a * b) c fun q k => f (q * c + k)]
  refine List.map_congr_left fun q _ => ?_
  rw [Nat.div_add_mod']

/-- The positions of three nested loops. -/
theorem exists_nest_iff {a b c n : ℕ} : n < a * b * c ↔ ∃ i < a, ∃ j < b, ∃ k < c, (i * b + j) * c +
    k = n := by
  constructor
  · intro h
    have hc : 0 < c := Nat.pos_of_ne_zero fun h0 => by simp [h0] at h
    have hb : 0 < b := Nat.pos_of_ne_zero fun h0 => by simp [h0] at h
    have hq : n / c < a * b := (Nat.div_lt_iff_lt_mul hc).mpr h
    refine ⟨n / c / b, (Nat.div_lt_iff_lt_mul hb).mpr hq, n / c % b, Nat.mod_lt _ hb, n % c,
      Nat.mod_lt _ hc, ?_⟩
    rw [Nat.div_add_mod', Nat.div_add_mod']
  · rintro ⟨i, hi, j, hj, k, hk, rfl⟩
    calc (i * b + j) * c + k < (i * b + j) * c + c := by omega
      _ = (i * b + j + 1) * c := by ring
      _ ≤ (i * b + b) * c := Nat.mul_le_mul_right _ (by omega)
      _ = (i + 1) * b * c := by ring
      _ ≤ a * b * c := Nat.mul_le_mul_right _ (Nat.mul_le_mul_right _ hi)

theorem filterMap_range {f : ℕ → Option β} {g : ℕ → β} {n : ℕ} (h : ∀ i, i < n → f i = some (g i)) :
    (List.range n).filterMap f = (List.range n).map g := by
  rw [List.filterMap_congr (g := some ∘ g) fun i hi => h i (List.mem_range.mp hi), List.filterMap_eq_map]

theorem length_flatMap_const {l : List ι} {f : ι → List β} {c : ℕ}
    (h : ∀ i ∈ l, (f i).length = c) : (l.flatMap f).length = l.length * c := by
  induction l with
  | nil => simp
  | cons i is ih =>
    simp only [List.flatMap_cons, List.length_append, List.length_cons, h i (by simp),
      ih fun j hj => h j (List.mem_cons_of_mem _ hj)]
    ring

theorem flatMap_replicate_const (l : List ι) (n : ℕ) (b : β) :
    (l.flatMap fun _ => List.replicate n b) = List.replicate (l.length * n) b := by
  refine List.eq_replicate_iff.mpr ⟨length_flatMap_const fun i _ => List.length_replicate, fun x hx => ?_⟩
  obtain ⟨i, -, hx⟩ := List.mem_flatMap.mp hx
  exact List.eq_of_mem_replicate hx

/-- Lists that are cut the same way are equal piece by piece. -/
theorem flatMap_eq_flatMap_iff {l : List ι} {f g : ι → List β}
    (h : ∀ x ∈ l, (f x).length = (g x).length) : l.flatMap f = l.flatMap g ↔ ∀ x ∈ l, f x = g x := by
  induction l with
  | nil => simp
  | cons x xs ih =>
    rw [List.flatMap_cons, List.flatMap_cons, List.forall_mem_cons,
      ← ih fun y hy => h y (List.mem_cons_of_mem _ hy)]
    constructor
    · intro heq
      exact List.append_inj heq (h x List.mem_cons_self)
    · rintro ⟨hx, hxs⟩
      rw [hx, hxs]

/-- Where the parts of one side are single and those of the other are not empty, no part makes up for
    another. -/
theorem flatten_eq_flatten_iff {l l' : List (List β)} (hlen : l.length = l'.length)
    (hl : ∀ xs ∈ l, xs.length = 1) (hl' : ∀ ys ∈ l', ys ≠ []) : l.flatten = l'.flatten ↔ l = l' := by
  refine ⟨fun heq => ?_, congrArg _⟩
  induction l generalizing l' with
  | nil => exact (List.length_eq_zero_iff.mp hlen.symm).symm
  | cons xs l ih =>
    obtain ⟨ys, l', rfl⟩ : ∃ ys rest, l' = ys :: rest :=
      List.exists_cons_of_length_eq_add_one (by rw [← hlen, List.length_cons])
    rw [List.forall_mem_cons] at hl hl'
    rw [List.length_cons, List.length_cons, Nat.add_right_cancel_iff] at hlen
    rw [List.flatten_cons, List.flatten_cons] at heq
    have hys := List.length_pos_iff.mpr hl'.1
    have hsingle : l.flatten.length = l.length := by
      rw [← List.flatMap_id, length_flatMap_const (f := id) (c := 1) hl.2, Nat.mul_one]
    have hrest : l'.length ≤ l'.flatten.length := by
      rw [List.length_flatten, ← List.length_map (f := List.length)]
      refine List.length_le_sum_of_one_le _ fun n hn => ?_
      obtain ⟨zs, hzs, rfl⟩ := List.mem_map.mp hn
      exact List.length_pos_iff.mpr (hl'.2 zs hzs)
    have htotal := congrArg List.length heq
    rw [List.length_append, List.length_append, hl.1, hsingle] at htotal
    obtain ⟨hhead, htail⟩ := List.append_inj heq (by rw [hl.1]; omega)
    rw [hhead, ih hlen hl.2 hl'.2 htail]

end Schemes.Loop
