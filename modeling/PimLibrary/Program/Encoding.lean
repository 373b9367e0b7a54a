import PimLibrary.Program.PimCommand
import PimLibrary.Schemes.BitFields

/-! The formats of the command words.

    Every command type has a format, the slots of the fields its word carries. The encoder packs these
    fields and the decoder reads them back into an object; the other fields are not part of the
    word. So a command comes back as far as its format goes: a FILL has no slot for `is_auto`, and
    an addition none for a loop counter. A word comes back as far as the format of its type goes,
    whatever object it is decoded into. -/

namespace PimLibrary.Program
open Schemes.Word Schemes.BitFields PimCommand

/-- The fields of a command. -/
inductive Field where
  | type_ | dst_ | src0_ | src1_ | src2_ | loop_counter_ | loop_offset_ | is_auto_ |
    dst_idx_ | src0_idx_
  | src1_idx_ | is_relu_
  deriving DecidableEq, Repr

/-- A field's value, an enumerator as its number. -/
def PimCommand.value (c : PimCommand) : Field → ℤ
  | .type_ => c.type_.toInt
  | .dst_ => c.dst_.toInt
  | .src0_ => c.src0_.toInt
  | .src1_ => c.src1_.toInt
  | .src2_ => c.src2_.toInt
  | .loop_counter_ => c.loop_counter_
  | .loop_offset_ => c.loop_offset_
  | .is_auto_ => c.is_auto_
  | .dst_idx_ => c.dst_idx_
  | .src0_idx_ => c.src0_idx_
  | .src1_idx_ => c.src1_idx_
  | .is_relu_ => c.is_relu_

def arith_format : List (Slot Field) :=
  [⟨.dst_, 3, 25⟩, ⟨.src0_, 3, 22⟩, ⟨.src1_, 3, 19⟩, ⟨.is_auto_, 1, 15⟩, ⟨.dst_idx_, 4, 8⟩,
    ⟨.src0_idx_, 4, 4⟩,
    ⟨.src1_idx_, 4, 0⟩]

/-- The slots of a word of the given type. -/
def PimCmdType.format (t : PimCmdType) : List (Slot Field) :=
  ⟨.type_, 4, 28⟩ ::
    match t with
    | .NOP => [⟨.loop_counter_, 11, 0⟩]
    | .JUMP => [⟨.loop_counter_, 17, 11⟩, ⟨.loop_offset_, 11, 0⟩]
    | .FILL | .MOV =>
      [⟨.dst_, 3, 25⟩, ⟨.src0_, 3, 22⟩, ⟨.dst_idx_, 4, 8⟩, ⟨.src0_idx_, 4, 4⟩, ⟨.src1_idx_, 4, 0⟩,
        ⟨.is_relu_, 1, 12⟩]
    | .MAD => ⟨.src2_, 3, 16⟩ :: arith_format
    | .ADD | .MUL | .MAC => arith_format
    | _ => []

theorem format_disjoint (t : PimCmdType) : Disjoint t.format := by
  cases t <;> decide

/-- The width a field has in the formats that carry it. -/
def Field.width (t : PimCmdType) : Field → ℕ
  | .type_ => 4
  | .dst_ | .src0_ | .src1_ | .src2_ => 3
  | .dst_idx_ | .src0_idx_ | .src1_idx_ => 4
  | .is_auto_ | .is_relu_ => 1
  | .loop_counter_ => if t = .JUMP then 17 else 11
  | .loop_offset_ => 11

theorem format_width (t : PimCmdType) : ∀ s ∈ t.format, s.len = s.field.width t := by
  cases t <;> decide

theorem format_len_le (t : PimCmdType) : ∀ s ∈ t.format, s.len ≤ 32 := by
  cases t <;> decide

/-- Every field is within its width. -/
def PimCommand.Within (c : PimCommand) : Prop := ∀ f, 0 ≤ c.value f ∧ c.value f < 2 ^ f.width c.type_

theorem type_mem_format (t : PimCmdType) : ⟨.type_, 4, 28⟩ ∈ t.format := List.mem_cons_self

/-- The fields that a word of the given type carries. -/
def PimCmdType.carries (t : PimCmdType) : List Field := t.format.map Slot.field

/-! ### Encoding -/

/-- A command's word is the union of the fields of its format. -/
theorem to_int_eq_pack (c : PimCommand) :
    to_int c = pack (fun f => toUint32 (c.value f)) c.type_.format := by
  cases htype : c.type_ <;>
    simp only [to_int, htype, arith_bits, PimCmdType.format, arith_format, pack, Slot.put,
      PimCommand.value, to_bit_eq, Nat.reduceAdd, Nat.reduceLeDiff, Nat.or_zero, Nat.or_assoc]

/-! ### Decoding -/

theorem PimCmdType.toInt_ofVal {n : ℕ} (h : n < 16) : (PimCmdType.ofVal n).toInt = n := by
  revert n
  decide

theorem PimOpdType.toInt_ofVal {n : ℕ} (h : n < 8) : (PimOpdType.ofVal n).toInt = n := by
  revert n
  decide

theorem PimCmdType.ofVal_toInt (t : PimCmdType) : PimCmdType.ofVal t.toInt.toNat = t := by
  cases t <;> rfl

theorem from_bit_lt (val len pos : ℕ) : from_bit val len pos < 2 ^ len := by
  rw [from_bit_eq]
  exact Nat.mod_lt _ (Nat.two_pow_pos _)

/-- The type a word decodes to. -/
def typeOf (val : ℕ) : PimCmdType := .ofVal (from_bit val 4 28)

theorem toInt_opd (val pos : ℕ) : (PimOpdType.ofVal (from_bit val 3 pos)).toInt = from_bit val 3 pos :=
  PimOpdType.toInt_ofVal (from_bit_lt val 3 pos)

theorem toInt_cmd (val pos : ℕ) : (PimCmdType.ofVal (from_bit val 4 pos)).toInt = from_bit val 4 pos :=
  PimCmdType.toInt_ofVal (from_bit_lt val 4 pos)

theorem read_eq_from_bit (s : Slot Field) (val : ℕ) : s.read val = from_bit val s.len s.pos :=
  (from_bit_eq val s.len s.pos).symm

/-- Decoding reads the slots of the word's type. -/
theorem value_from_int_of_mem (c : PimCommand) (val : ℕ) :
    ∀ s ∈ (typeOf val).format, (from_int c val).value s.field = s.read val := by
  have htype4 := toInt_cmd val 28
  cases htype : typeOf val <;> rw [typeOf] at htype <;> rw [htype] at htype4 <;>
    simp only [PimCmdType.format, arith_format, List.forall_mem_cons, from_int, htype, arith_of,
      PimCommand.value, read_eq_from_bit, htype4, toInt_opd, and_self, List.not_mem_nil,
        false_imp_iff, implies_true]

/-- Decoding leaves the other fields as they were. -/
theorem value_from_int_of_not_mem (c : PimCommand) (val : ℕ) {f : Field}
    (hf : f ∉ (typeOf val).carries) :
    (from_int c val).value f = c.value f := by
  revert hf
  cases htype : typeOf val <;> rw [typeOf] at htype <;> cases f <;>
    simp [PimCmdType.carries, PimCmdType.format, arith_format, from_int, htype, arith_of,
      PimCommand.value]

/-! ### Round trip -/

theorem PimCommand.typeOf_to_int (c : PimCommand) : typeOf (to_int c) = c.type_ := by
  have hread :=
    read_pack (v := fun f => toUint32 (c.value f)) (format_disjoint c.type_) (type_mem_format c.type_)
  rw [← to_int_eq_pack, read_eq_from_bit] at hread
  have hval : toUint32 c.type_.toInt % 2 ^ 4 = c.type_.toInt.toNat := by
    cases c.type_ <;> rfl
  rw [typeOf, hread]
  change PimCmdType.ofVal (toUint32 c.type_.toInt % 2 ^ 4) = c.type_
  rw [hval, PimCmdType.ofVal_toInt]

/-- The value a slot of the word holds. -/
theorem PimCommand.Within.read_to_int {c : PimCommand} (hw : c.Within) {s : Slot Field}
    (hs : s ∈ c.type_.format) :
    (s.read (to_int c) : ℤ) = c.value s.field := by
  obtain ⟨hlo, hhi⟩ := hw s.field
  rw [← format_width c.type_ s hs] at hhi
  obtain ⟨n, hn⟩ := Int.eq_ofNat_of_zero_le hlo
  have hlt : n < 2 ^ s.len := by
    rw [hn] at hhi
    exact_mod_cast hhi
  have hword : n < 2 ^ 32 := hlt.trans_le (Nat.pow_le_pow_right two_pos (format_len_le c.type_ s hs))
  rw [to_int_eq_pack, read_pack (format_disjoint c.type_) hs, hn, toUint32_natCast hword,
    Nat.mod_eq_of_lt hlt]

/-- A decoded command has the encoded values in the fields of its format and keeps the others. -/
theorem PimCommand.Within.value_decode {c : PimCommand} (hw : c.Within) (c₀ : PimCommand) (f : Field) :
    (from_int c₀ (to_int c)).value f = if f ∈ c.type_.carries then c.value f else c₀.value f := by
  have htype := c.typeOf_to_int
  split_ifs with hf
  · obtain ⟨s, hs, rfl⟩ := List.mem_map.mp hf
    rw [value_from_int_of_mem c₀ _ s (htype ▸ hs), hw.read_to_int hs]
  · exact value_from_int_of_not_mem c₀ _ (htype ▸ hf)

/-! ### Canonical words -/

/-- The bits of a word of the given type that its format covers. -/
def PimCmdType.bits (t : PimCmdType) : ℕ := mask t.format

example : PimCmdType.bits .NOP = 0xf00007ff := by decide

/-- Encoding what a word was decoded to keeps the bits of its format. -/
theorem to_int_from_int (c : PimCommand) (w : ℕ) : to_int (from_int c w) = w &&& (typeOf w).bits := by
  have htype : (from_int c w).type_ = typeOf w := by
    rw [from_int, ← typeOf]
    cases typeOf w <;> rfl
  rw [to_int_eq_pack, htype, PimCmdType.bits]
  refine pack_of_reads fun s hs => ?_
  have hlt : s.read w < 2 ^ s.len := Nat.mod_lt _ (Nat.two_pow_pos _)
  have hword : s.read w < 2 ^ 32 := hlt.trans_le (Nat.pow_le_pow_right two_pos (format_len_le _ s hs))
  rw [value_from_int_of_mem c w s hs, toUint32_natCast hword, Nat.mod_eq_of_lt hlt]

/-- An encoded command has no other bits. -/
theorem PimCommand.to_int_and_bits (c : PimCommand) : to_int c &&& c.type_.bits = to_int c := by
  rw [to_int_eq_pack, PimCmdType.bits]
  symm
  refine pack_of_reads fun s hs => ?_
  rw [read_pack (format_disjoint c.type_) hs]

/-- Decoding and encoding clears the bits outside the format, does so once and for all, and leaves every
    encoded command alone, whatever the objects held before. -/
theorem word_canonical (w : ℕ) (c c' : PimCommand) :
    to_int (from_int c w) = w &&& (typeOf w).bits ∧
      to_int (from_int c' (to_int (from_int c w))) = to_int (from_int c w) ∧
      ∀ k : PimCommand, to_int (from_int c (to_int k)) = to_int k := by
  have hencoded : ∀ (c k : PimCommand), to_int (from_int c (to_int k)) = to_int k := by
    intro c k
    rw [to_int_from_int, k.typeOf_to_int, k.to_int_and_bits]
  exact ⟨to_int_from_int c w, hencoded c' _, hencoded c⟩

/-- `operator==`. -/
def PimCommand.beq (lhs rhs : PimCommand) : Bool := to_int lhs = to_int rhs

/-- Commands are equal to the runtime when they have one type and agree on its format. -/
theorem PimCommand.Within.beq_iff {c c' : PimCommand} (hw : c.Within) (hw' : c'.Within) :
    c.beq c' = true ↔ c.type_ = c'.type_ ∧ ∀ f ∈ c.type_.carries, c.value f = c'.value f := by
  rw [PimCommand.beq, decide_eq_true_iff]
  constructor
  · intro heq
    have htype : c.type_ = c'.type_ := by rw [← c.typeOf_to_int, heq, c'.typeOf_to_int]
    refine ⟨htype, fun f hf => ?_⟩
    obtain ⟨s, hs, rfl⟩ := List.mem_map.mp hf
    rw [← hw.read_to_int hs, heq, hw'.read_to_int (htype ▸ hs)]
  · rintro ⟨htype, hvalues⟩
    rw [to_int_eq_pack, to_int_eq_pack, ← htype, pack_eq_iff (format_disjoint c.type_)]
    intro s hs
    rw [hvalues s.field (List.mem_map_of_mem hs)]

end PimLibrary.Program
