import Mathlib.Tactic

/-! Words made of bit fields.

    A format is a list of slots, each a field with its width and position. A word is the union of its
    fields, so slots that do not overlap can be read back one by one, and a word determines the low bits
    of every field it has a slot for. Putting back what the slots read keeps the bits of the format and
    clears the others. -/

namespace Schemes.BitFields

/-- A field with its width and its lowest bit. -/
structure Slot (ι : Type*) where
  field : ι
  len : ℕ
  pos : ℕ

variable {ι : Type*} {v v' : ι → ℕ} {s t : Slot ι} {slots : List (Slot ι)} {w : ℕ}

namespace Slot

/-- The bits of a value, shifted to the slot. -/
def put (s : Slot ι) (x : ℕ) : ℕ := x % 2 ^ s.len * 2 ^ s.pos

def read (s : Slot ι) (w : ℕ) : ℕ := w / 2 ^ s.pos % 2 ^ s.len

/-- Neither overlaps the other. -/
def Apart (s t : Slot ι) : Prop := s.pos + s.len ≤ t.pos ∨ t.pos + t.len ≤ s.pos

instance (s t : Slot ι) : Decidable (s.Apart t) := inferInstanceAs (Decidable (_ ∨ _))

theorem Apart.symm (h : s.Apart t) : t.Apart s := Or.symm h

theorem put_lt (s : Slot ι) (x : ℕ) : s.put x < 2 ^ (s.pos + s.len) := by
  rw [put, Nat.pow_add, Nat.mul_comm]
  exact Nat.mul_lt_mul_of_pos_left (Nat.mod_lt _ (Nat.two_pow_pos _)) (Nat.two_pow_pos _)

/-- Reading distributes over the union. -/
theorem read_or (s : Slot ι) (a b : ℕ) : s.read (a ||| b) = s.read a ||| s.read b := by
  simp only [read, ← Nat.and_two_pow_sub_one_eq_mod, ← Nat.shiftRight_eq_div_pow, Nat.shiftRight_or_distrib,
    Nat.and_or_distrib_right]

/-- A slot reads back what was put there. -/
theorem read_put (s : Slot ι) (x : ℕ) : s.read (s.put x) = x % 2 ^ s.len := by
  rw [read, put, Nat.mul_div_cancel _ (Nat.two_pow_pos _), Nat.mod_mod]

/-- Another slot reads nothing of it. -/
theorem read_put_apart (h : s.Apart t) (x : ℕ) : s.read (t.put x) = 0 := by
  rcases h with hle | hle
  · obtain ⟨d, hd⟩ := Nat.exists_eq_add_of_le hle
    rw [read, put, hd, Nat.pow_add, Nat.pow_add, Nat.mul_left_comm, Nat.mul_assoc,
      Nat.mul_div_cancel_left _ (Nat.two_pow_pos _), Nat.mul_mod_right]
  · have hlt : t.put x < 2 ^ s.pos := (put_lt t x).trans_le (Nat.pow_le_pow_right two_pos hle)
    rw [read, Nat.div_eq_of_lt hlt, Nat.zero_mod]

/-- The bits of the slot. -/
def mask (s : Slot ι) : ℕ := (2 ^ s.len - 1) * 2 ^ s.pos

/-- What a slot reads, put back, is the word's bits in the slot. -/
theorem put_read (s : Slot ι) (w : ℕ) : s.put (s.read w) = w &&& s.mask := by
  refine Nat.eq_of_testBit_eq fun i => ?_
  rw [put, read, mask, Nat.mod_mod, Nat.testBit_and, Nat.testBit_mul_two_pow, Nat.testBit_mul_two_pow,
    Nat.testBit_mod_two_pow, Nat.testBit_div_two_pow, Nat.testBit_two_pow_sub_one]
  by_cases hi : s.pos ≤ i
  · simp [hi, Bool.and_comm]
  · simp [hi]

end Slot

/-- No two slots overlap. -/
def Disjoint (slots : List (Slot ι)) : Prop := slots.Pairwise Slot.Apart

instance (slots : List (Slot ι)) : Decidable (Disjoint slots) :=
  inferInstanceAs (Decidable (List.Pairwise _ _))

/-- The word with the value of every field in its slot. -/
def pack (v : ι → ℕ) : List (Slot ι) → ℕ
  | [] => 0
  | s :: slots => s.put (v s.field) ||| pack v slots

/-- A slot apart from all others reads nothing of them. -/
theorem read_pack_apart (h : ∀ t ∈ slots, s.Apart t) : s.read (pack v slots) = 0 := by
  induction slots with
  | nil => simp [pack, Slot.read]
  | cons t slots ih =>
    rw [pack, Slot.read_or, Slot.read_put_apart (h t List.mem_cons_self),
      ih fun t' ht' => h t' (List.mem_cons_of_mem _ ht'), Nat.or_zero]

/-- Every field of a word without overlaps reads back its low bits. -/
theorem read_pack (hd : Disjoint slots) (hs : s ∈ slots) :
    s.read (pack v slots) = v s.field % 2 ^ s.len := by
  induction slots with
  | nil => cases hs
  | cons t slots ih =>
    obtain ⟨hhead, htail⟩ := List.pairwise_cons.mp hd
    rw [pack, Slot.read_or]
    rcases List.mem_cons.mp hs with rfl | hs
    · rw [Slot.read_put, read_pack_apart hhead, Nat.or_zero]
    · rw [Slot.read_put_apart (hhead s hs).symm, ih htail hs, Nat.zero_or]

/-- Two values give one word exactly when they agree on the bits of every slot. -/
theorem pack_eq_iff (hd : Disjoint slots) :
    pack v slots = pack v' slots ↔ ∀ s ∈ slots, v s.field % 2 ^ s.len = v' s.field % 2 ^ s.len := by
  constructor
  · intro heq s hs
    rw [← read_pack hd hs, heq, read_pack hd hs]
  · intro h
    clear hd
    induction slots with
    | nil => rfl
    | cons t slots ih =>
      rw [pack, pack, Slot.put, Slot.put, h t List.mem_cons_self, ih fun s hs =>
        h s (List.mem_cons_of_mem _ hs)]

/-- The bits that a format covers. -/
def mask : List (Slot ι) → ℕ
  | [] => 0
  | s :: slots => s.mask ||| mask slots

/-- A word packed from what the slots read of another is that other's bits in the format. -/
theorem pack_of_reads (h : ∀ s ∈ slots, v s.field % 2 ^ s.len = s.read w) :
    pack v slots = w &&& mask slots := by
  induction slots with
  | nil => rw [pack, mask, Nat.and_zero]
  | cons s slots ih =>
    have hput : s.put (v s.field) = s.put (s.read w) := by
      rw [Slot.put, h s List.mem_cons_self, Slot.put, Slot.read, Nat.mod_mod]
    rw [pack, mask, Nat.and_or_distrib_left, ih fun t ht => h t (List.mem_cons_of_mem _ ht), hput,
      Slot.put_read]

end Schemes.BitFields
