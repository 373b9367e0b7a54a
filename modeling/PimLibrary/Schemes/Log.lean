import Mathlib.Tactic

/-! Computations that may stop for good, with a log of what they have done.

    A computation that stops (it dereferences a null pointer, or never ends) has no value but still the
    log up to that point. -/

namespace Schemes.Log

structure Logged (ε α : Type) where
  value : Option α
  log : List ε

variable {ε α β : Type}

instance : Monad (Logged ε) where
  pure a := ⟨some a, []⟩
  bind x f := match x.value with
    | none => ⟨none, x.log⟩
    | some a => ⟨(f a).value, x.log ++ (f a).log⟩

/-- One entry of the log. -/
def record (e : ε) : Logged ε Unit := ⟨some (), [e]⟩

/-- Stop at a null pointer. -/
def deref (p : Option α) : Logged ε α := ⟨p, []⟩

@[simp] theorem value_pure (a : α) : (pure a : Logged ε α).value = some a := rfl

@[simp] theorem log_pure (a : α) : (pure a : Logged ε α).log = [] := rfl

@[simp] theorem value_record (e : ε) : (record e).value = some () := rfl

@[simp] theorem log_record (e : ε) : (record e).log = [e] := rfl

@[simp] theorem value_deref (p : Option α) : (deref p : Logged ε α).value = p := rfl

@[simp] theorem log_deref (p : Option α) : (deref p : Logged ε α).log = [] := rfl

@[simp] theorem value_bind (x : Logged ε α) (f : α → Logged ε β) :
    (x >>= f).value = x.value.bind fun a => (f a).value := by
  rcases x with ⟨_ | a, log⟩ <;> rfl

theorem log_bind (x : Logged ε α) (f : α → Logged ε β) :
    (x >>= f).log = x.log ++ (x.value.elim [] fun a => (f a).log) := by
  rcases x with ⟨_ | a, log⟩
  · exact (List.append_nil _).symm
  · rfl

/-- Every entry of the log is of a kind. -/
def AllLog (P : ε → Prop) (x : Logged ε α) : Prop := ∀ e ∈ x.log, P e

variable {P : ε → Prop}

@[simp] theorem allLog_pure (a : α) : AllLog P (pure a : Logged ε α) := by simp [AllLog]

@[simp] theorem allLog_record (e : ε) : AllLog P (record e) ↔ P e := by simp [AllLog]

@[simp] theorem allLog_deref (p : Option α) : AllLog P (deref p : Logged ε α) := by simp [AllLog]

/-- What comes after a computation counts only where that has a value. -/
@[simp] theorem allLog_bind (x : Logged ε α) (f : α → Logged ε β) :
    AllLog P (x >>= f) ↔ AllLog P x ∧ ∀ a, x.value = some a → AllLog P (f a) := by
  rcases h : x.value with - | a <;> simp [AllLog, log_bind, h, or_imp, forall_and]

theorem AllLog.of_bind {x : Logged ε α} {f : α → Logged ε β} (h : AllLog P (x >>= f)) : AllLog P x :=
  ((allLog_bind x f).mp h).1

/-- The computation ends with a value, and every entry of its log is of a kind. -/
def Ends (P : ε → Prop) (x : Logged ε α) (a : α) : Prop := AllLog P x ∧ x.value = some a

theorem Ends.pure (a : α) : Ends P (pure a : Logged ε α) a := ⟨allLog_pure a, rfl⟩

theorem Ends.record {e : ε} (h : P e) : Ends P (record e) () := ⟨(allLog_record e).mpr h, rfl⟩

theorem Ends.deref {p : Option α} {a : α} (h : p = some a) : Ends P (deref p : Logged ε α) a :=
  ⟨allLog_deref p, h⟩

theorem Ends.bind {x : Logged ε α} {f : α → Logged ε β} {a : α} {b : β} (hx : Ends P x a)
    (hf : Ends P (f a) b) :
    Ends P (x >>= f) b := by
  obtain ⟨hlog, hvalue⟩ := hx
  refine ⟨(allLog_bind x f).mpr ⟨hlog, ?_⟩, by rw [value_bind, hvalue]; exact hf.2⟩
  intro a' ha'
  rw [hvalue] at ha'
  obtain rfl := Option.some.inj ha'
  exact hf.1

/-- What follows a computation that ends decides about the log. -/
theorem Ends.allLog_bind_iff {x : Logged ε α} {f : α → Logged ε β} {a : α} (hx : Ends P x a) :
    AllLog P (x >>= f) ↔ AllLog P (f a) := by
  rw [allLog_bind, and_iff_right hx.1, hx.2]
  simp

end Schemes.Log
