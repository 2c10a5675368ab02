import Arkeion.Lib.Bytes

/-!
The errors of the engine, and the outcomes a debug build adds to them.

A `debug_assert`, an `expect` or an overflow of an integer ends the process; here it is the
error `panic` with the text of the source. A loop that walks pages takes fuel, and running
out of it is `outOfFuel`: the source would still be walking.
-/

namespace Arkeion

open Arkeion.Lib

/-- The point of history a read is pinned to; a timestamp is in milliseconds. -/
inductive AsOf where
  | head
  | version (v : ℕ)
  | timestamp (ms : ℕ)
  deriving DecidableEq, Repr

/-- A key two branches brought to different states, `none` being a deleted key. -/
structure MergeConflict where
  key : Bytes
  fromState : Option Bytes
  intoState : Option Bytes
  deriving DecidableEq, Repr

inductive Error where
  | io
  | corrupt (page : ℕ) (reason : String)
  | invalidInput (msg : String)
  | corruptRecord (msg : String)
  | versionNotFound (at_ : AsOf)
  | chainBroken (at_ : ℕ) (reason : String)
  | busy
  | wrongKey
  | branchNotFound (name : String)
  | branchExists (name : String)
  | conflict (conflicts : List MergeConflict)
  | constraint (msg : String)
  | sql (msg : String)
  | panic (msg : String)
  | outOfFuel
  deriving DecidableEq, Repr

abbrev Result := Except Error

/-- The process ended: a `debug_assert`, an `expect` or an overflow fired. -/
def Error.IsPanic : Error → Prop
  | .panic _ => True
  | _ => False

section Result
variable {α β : Type}

@[simp] lemma ok_bind (a : α) (f : α → Result β) : (Except.ok a >>= f : Result β) = f a := rfl
@[simp] lemma error_bind (e : Error) (f : α → Result β) :
    (Except.error e >>= f : Result β) = .error e := rfl

lemma bind_eq_ok {x : Result α} {f : α → Result β} {b : β} :
    (x >>= f) = .ok b ↔ ∃ a, x = .ok a ∧ f a = .ok b := by
  cases x <;> simp

lemma bind_eq_error {x : Result α} {f : α → Result β} {e : Error} :
    (x >>= f) = .error e ↔ x = .error e ∨ ∃ a, x = .ok a ∧ f a = .error e := by
  cases x <;> simp

lemma toOption_eq_some {x : Result α} {a : α} : x.toOption = some a ↔ x = .ok a := by
  cases x <;> simp [Except.toOption]

/-- `ok_or`: the value, or the given error. -/
def okOr (x : Option α) (e : Error) : Result α :=
  match x with
  | some a => .ok a
  | none => .error e

@[simp] lemma okOr_some (a : α) (e : Error) : okOr (some a) e = .ok a := rfl
@[simp] lemma okOr_none (e : Error) : okOr (none : Option α) e = .error e := rfl

lemma okOr_eq_ok {x : Option α} {e : Error} {a : α} : okOr x e = .ok a ↔ x = some a := by
  cases x <;> simp [okOr]

/-- Goes on when the condition holds, and fails with the given error otherwise. -/
def require (c : Prop) [Decidable c] (e : Error) : Result Unit := if c then .ok () else .error e

lemma require_eq_ok {c : Prop} [Decidable c] {e : Error} {u : Unit} :
    require c e = .ok u ↔ c := by
  unfold require; split <;> simp_all

lemma require_eq_error {c : Prop} [Decidable c] {e e' : Error} :
    require c e = .error e' ↔ ¬ c ∧ e = e' := by
  unfold require; split <;> simp_all

@[simp] lemma require_pos {c : Prop} [Decidable c] {e : Error} (h : c) : require c e = .ok () :=
  if_pos h

end Result

end Arkeion
