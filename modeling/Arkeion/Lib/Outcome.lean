import Mathlib.Tactic.Basic

/-!
How a computation that may fail ends: with a result of which something holds, or with one of
the errors that are allowed.
-/

namespace Arkeion.Lib

universe u v

variable {ε : Type v} {α β : Type u}

/-- The computation gives a result with the property, or an error that is allowed. -/
def Outcome (E : ε → Prop) (x : Except ε α) (Q : α → Prop) : Prop :=
  match x with
  | .error e => E e
  | .ok a => Q a

section Rules
variable {E : ε → Prop} {x : Except ε α} {Q R : α → Prop} {S : β → Prop}

lemma Outcome.ok {a : α} (h : Q a) : Outcome E (.ok a) Q := h

lemma Outcome.error {e : ε} (h : E e) : Outcome E (.error e) Q := h

lemma Outcome.imp (h : Outcome E x Q) (hQ : ∀ a, x = .ok a → Q a → R a) : Outcome E x R := by
  cases x with
  | error e => exact h
  | ok a => exact hQ a rfl h

lemma Outcome.weaken {E' : ε → Prop} (h : Outcome E x Q) (hE : ∀ e, E e → E' e) :
    Outcome E' x Q := by
  cases x with
  | error e => exact hE e h
  | ok a => exact h

/-- The rule of sequence. -/
lemma Outcome.bind {f : α → Except ε β} (h : Outcome E x Q)
    (hf : ∀ a, x = .ok a → Q a → Outcome E (f a) S) : Outcome E (x >>= f) S := by
  cases x with
  | error e => exact h
  | ok a => exact hf a rfl h

lemma Outcome.of_ok {a : α} (h : Outcome E x Q) (hx : x = .ok a) : Q a := by
  rw [hx] at h
  exact h

lemma Outcome.of_error {e : ε} (h : Outcome E x Q) (hx : x = .error e) : E e := by
  rw [hx] at h
  exact h

end Rules

end Arkeion.Lib
