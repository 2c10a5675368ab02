import Arkeion.Lib.Decimal
import Arkeion.Sql.Scalar

/-!
Numbers as text: integers in decimal digits, and the text of doubles as far as a reader has to know
its shape.
-/

namespace Arkeion

/-- Neither infinite nor NaN. -/
def F64.Finite (f : F64) : Prop := f.magnitude < 2047 * 2 ^ 52

instance (f : F64) : Decidable f.Finite := inferInstanceAs (Decidable (_ < _))

namespace Sql

open Arkeion.Lib

/-! ### Integers -/

/-- `n.to_string()` -/
def i64Text (n : Int64) : List Char :=
  if n.toInt < 0 then '-' :: decimal n.toInt.natAbs else decimal n.toInt.natAbs

/-- The number, if it is one of 64 bits with its sign. -/
def int64? (n : ℤ) : Option Int64 :=
  if -2 ^ 63 ≤ n ∧ n < 2 ^ 63 then some (Int64.ofInt n) else none

/-- `text.parse::<i64>()` -/
def parseI64 (text : List Char) : Option Int64 :=
  match text with
  | '-' :: ds => if ds = [] then none else (readDigits ds).bind fun n => int64? (-n)
  | '+' :: ds => if ds = [] then none else (readDigits ds).bind fun n => int64? n
  | ds => if ds = [] then none else (readDigits ds).bind fun n => int64? n

/-- Digits, at least one. -/
def IsDigits (cs : List Char) : Prop := cs ≠ [] ∧ ∀ c ∈ cs, ∃ d, digit? c = some d

section Integers
variable {n : Int64} {ds : List Char}

lemma int64?_toInt (n : Int64) : int64? n.toInt = some n := by
  have hlo := n.le_toInt
  have hhi := n.toInt_lt
  rw [int64?, if_pos ⟨hlo, hhi⟩, Int64.ofInt_toInt]

lemma isDigits_decimal (n : ℕ) : IsDigits (decimal n) :=
  ⟨decimal_ne_nil n, fun _ => digit?_of_mem_decimal⟩

lemma IsDigits.head_ne (h : IsDigits ds) {c : Char} (hc : digit? c = none) : ∀ cs, ds ≠ c :: cs := by
  rintro cs rfl
  obtain ⟨d, hd⟩ := h.2 c List.mem_cons_self
  rw [hc] at hd
  cases hd

/-- Digits without a sign. -/
lemma parseI64_digits (h : IsDigits ds) :
    parseI64 ds = (readDigits ds).bind fun n => int64? (n : ℤ) := by
  unfold parseI64
  split
  next ds' => exact absurd rfl (h.head_ne (by decide) ds')
  next ds' => exact absurd rfl (h.head_ne (by decide) ds')
  next => rw [if_neg h.1]

lemma parseI64_minus (h : IsDigits ds) :
    parseI64 ('-' :: ds) = (readDigits ds).bind fun n => int64? (-(n : ℤ)) := by
  rw [parseI64, if_neg h.1]

/-- An integer is read back from its text. -/
lemma parseI64_text (n : Int64) : parseI64 (i64Text n) = some n := by
  unfold i64Text
  split_ifs with hneg
  · rw [parseI64_minus (isDigits_decimal _), readDigits_decimal, Option.bind_some]
    have habs : -(n.toInt.natAbs : ℤ) = n.toInt := by omega
    rw [habs, int64?_toInt]
  · rw [parseI64_digits (isDigits_decimal _), readDigits_decimal, Option.bind_some]
    have habs : (n.toInt.natAbs : ℤ) = n.toInt := by omega
    rw [habs, int64?_toInt]

end Integers

/-! ### Runs of digits -/

def isDigit (c : Char) : Bool := (digit? c).isSome

/-- The digits in front, and what follows them. -/
def spanDigits (cs : List Char) : List Char × List Char := (cs.takeWhile isDigit, cs.dropWhile isDigit)

section Runs
variable {ds rest : List Char}

/-- A run of digits ends where no digit follows. -/
lemma spanDigits_append (h : ∀ c ∈ ds, ∃ d, digit? c = some d) (hrest : ∀ c ∈ rest.head?, digit? c = none) :
    spanDigits (ds ++ rest) = (ds, rest) := by
  have hall : ∀ c ∈ ds, isDigit c = true := by
    intro c hc
    obtain ⟨d, hd⟩ := h c hc
    rw [isDigit, hd]
    rfl
  have hstop : rest.takeWhile isDigit = [] ∧ rest.dropWhile isDigit = rest := by
    cases rest with
    | nil => exact ⟨rfl, rfl⟩
    | cons c cs =>
      have hc : isDigit c = false := by
        rw [isDigit, hrest c rfl]
        rfl
      rw [List.takeWhile_cons, List.dropWhile_cons, hc]
      exact ⟨rfl, rfl⟩
  rw [spanDigits, List.takeWhile_append_of_pos hall, List.dropWhile_append_of_pos hall, hstop.1,
    hstop.2, List.append_nil]

end Runs

/-! ### Doubles -/

/-- Digits, and behind them a point with digits, an exponent, or both. -/
def RealDigits (cs : List Char) : Prop :=
  ∃ ds frac exp, cs = ds ++ (frac ++ exp) ∧ IsDigits ds
    ∧ (frac = [] ∨ ∃ fs, frac = '.' :: fs ∧ IsDigits fs)
    ∧ (exp = [] ∨ ∃ es, (exp = 'e' :: es ∨ exp = 'e' :: '-' :: es) ∧ IsDigits es)
    ∧ ¬ (frac = [] ∧ exp = [])

/-- Doubles as text: what `{:?}` prints, and what `parse` reads. -/
structure FloatText where
  debug : F64 → List Char
  parse : List Char → Option F64

/-- A finite double has a point or an exponent in its text and is read back from it. -/
structure FloatText.Lawful (F : FloatText) : Prop where
  debug_finite : ∀ f : F64, f.Finite → ∃ cs, RealDigits cs
    ∧ F.debug f = if f.Negative then '-' :: cs else cs
  parse_debug : ∀ f : F64, f.Finite → F.parse (F.debug f) = some f
  debug_infinite : ∀ f : F64, ¬ f.Finite → F.debug f = if f.IsNaN then ['N', 'a', 'N']
    else if f.Negative then ['-', 'i', 'n', 'f'] else ['i', 'n', 'f']
  parse_sign : F.parse ['-'] = none
  parse_neg : ∀ cs, RealDigits cs → F.parse ('-' :: cs) = (F.parse cs).map F64.neg

end Sql

end Arkeion
