import Mathlib.Tactic

/-! Mixed-radix numbers and exact covers of a range.

    `mix rs ds` is the number with digits `ds`, least significant first, in the radices `rs`; `unmix`
    reads the digits back. The two are inverse on digits below their radices and on numbers below the
    product. An interleaved address map is such a number, so it is injective and onto. An index
    function that is injective and stays in range visits every index exactly once. -/

namespace Schemes.Digits

def mix : List ℕ → List ℕ → ℕ
  | r :: rs, d :: ds => d + r * mix rs ds
  | _, _ => 0

def unmix : List ℕ → ℕ → List ℕ
  | [], _ => []
  | r :: rs, n => n % r :: unmix rs (n / r)

/-- Every digit is below its radix. -/
abbrev InRange (rs ds : List ℕ) : Prop := List.Forall₂ (fun r d => d < r) rs ds

theorem unmix_mix {rs ds : List ℕ} (h : InRange rs ds) : unmix rs (mix rs ds) = ds := by
  induction h with
  | nil => rfl
  | @cons r d rs ds hd _ ih =>
    have hdiv : (d + r * mix rs ds) / r = mix rs ds := by
      rw [Nat.add_mul_div_left _ _ (by omega), Nat.div_eq_of_lt hd, Nat.zero_add]
    simp only [mix, unmix, hdiv, ih, Nat.add_mul_mod_self_left, Nat.mod_eq_of_lt hd]

theorem mix_unmix {rs : List ℕ} : ∀ {n : ℕ}, n < rs.prod → mix rs (unmix rs n) = n := by
  induction rs with
  | nil => intro n hn; simp only [List.prod_nil, Nat.lt_one_iff] at hn; simp [mix, hn]
  | cons r rs ih =>
    intro n hn
    rw [List.prod_cons] at hn
    have hlt : n / r < rs.prod := Nat.div_lt_of_lt_mul hn
    rw [unmix, mix, ih hlt, Nat.mod_add_div]

theorem unmix_inRange {rs : List ℕ} (h : ∀ r ∈ rs, 0 < r) : ∀ n, InRange rs (unmix rs n) := by
  induction rs with
  | nil => intro n; exact .nil
  | cons r rs ih =>
    intro n
    exact .cons (Nat.mod_lt _ (h r (by simp))) (ih (fun r' hr' => h r' (by simp [hr'])) _)

/-- Digits in range are determined by their number. -/
theorem mix_inj {rs ds ds' : List ℕ} (h : InRange rs ds) (h' : InRange rs ds')
    (heq : mix rs ds = mix rs ds') : ds = ds' := by
  rw [← unmix_mix h, heq, unmix_mix h']

theorem mix_lt {rs ds : List ℕ} (h : InRange rs ds) : mix rs ds < rs.prod := by
  induction h with
  | nil => simp [mix]
  | @cons r d rs ds hd _ ih =>
    rw [mix, List.prod_cons]
    calc d + r * mix rs ds < r + r * mix rs ds := by omega
      _ = r * (mix rs ds + 1) := by ring
      _ ≤ r * rs.prod := Nat.mul_le_mul_left r ih

/-- Flat offsets split uniquely into row and element. -/
theorem flat_inj {b R R' a a' : ℕ} (ha : a < b) (ha' : a' < b) (h : R * b + a = R' * b + a') :
    R = R' ∧ a = a' := by
  have hb : 0 < b := by omega
  have hdiv : ∀ R a, a < b → (R * b + a) / b = R := by
    intro R a ha
    rw [Nat.mul_comm, Nat.mul_add_div hb, Nat.div_eq_of_lt ha, Nat.add_zero]
  have hR : R = R' := by rw [← hdiv R a ha, h, hdiv R' a' ha']
  subst hR
  exact ⟨rfl, by omega⟩

/-! ### Exact covers -/

/-- A list without repetition, inside a range and as long as it, visits the range exactly once. -/
theorem perm_range_of_nodup {l : List ℕ} {n : ℕ} (hnd : l.Nodup) (hlt : ∀ i ∈ l, i < n)
    (hlen : l.length = n) : l.Perm (List.range n) := by
  have hsub : l.Subperm (List.range n) :=
    List.subperm_of_subset hnd fun i hi => List.mem_range.mpr (hlt i hi)
  exact hsub.perm_of_length_le (by rw [List.length_range, hlen])

/-- An injective index function into its own range is an exact cover of it. -/
theorem map_perm_range {n : ℕ} {f : ℕ → ℕ} (hlt : ∀ q, q < n → f q < n)
    (hinj : ∀ q, q < n → ∀ q', q' < n → f q = f q' → q = q') :
    ((List.range n).map f).Perm (List.range n) := by
  refine perm_range_of_nodup ?_ ?_ (by simp)
  · refine (List.nodup_map_iff_inj_on List.nodup_range).mpr ?_
    intro q hq q' hq' h
    exact hinj q (List.mem_range.mp hq) q' (List.mem_range.mp hq') h
  · intro i hi
    obtain ⟨q, hq, rfl⟩ := List.mem_map.mp hi
    exact hlt q (List.mem_range.mp hq)

end Schemes.Digits
