import Mathlib.Logic.Basic

namespace TorAndroid.Lib.Throwing

universe u v

variable {ε : Type u} {α β : Type v} {P : ε → Prop}

/-- Every exception that `x` ends with satisfies `P`. -/
def Throws (P : ε → Prop) (x : Except ε α) : Prop := ∀ e, x = .error e → P e

@[simp] theorem ok_bind (a : α) (f : α → Except ε β) : (Except.ok a >>= f) = f a := rfl

@[simp] theorem error_bind (e : ε) (f : α → Except ε β) :
    (Except.error e >>= f) = Except.error e := rfl

@[simp] theorem pure_eq_ok (a : α) : (pure a : Except ε α) = .ok a := rfl

theorem throws_ok (a : α) : Throws P (.ok a : Except ε α) := by
  intro e h
  cases h

theorem throws_error {e : ε} (h : P e) : Throws P (.error e : Except ε α) := by
  intro e' h'
  cases h'
  exact h

theorem throws_bind {x : Except ε α} {f : α → Except ε β} (hx : Throws P x)
    (hf : ∀ a, x = .ok a → Throws P (f a)) : Throws P (x >>= f) := by
  cases x with
  | ok a => exact hf a rfl
  | error e => exact throws_error (hx e rfl)

theorem bind_eq_ok {x : Except ε α} {f : α → Except ε β} {b : β} :
    (x >>= f) = .ok b ↔ ∃ a, x = .ok a ∧ f a = .ok b := by
  cases x with
  | ok a =>
      constructor
      · intro h
        exact ⟨a, rfl, h⟩
      · rintro ⟨a', ha', h⟩
        cases ha'
        exact h
  | error e =>
      constructor
      · intro h
        cases h
      · rintro ⟨a', ha', -⟩
        cases ha'

end TorAndroid.Lib.Throwing
