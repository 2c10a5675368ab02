import Mathlib.Data.Nat.Digits.Lemmas
import Mathlib.Tactic.Ring

/-!
Decimal notation: how numbers are written in digits, with and without leading zeros, and read back.
-/

namespace Arkeion.Lib

def digitChar (d : ℕ) : Char := Char.ofNat (48 + d)

/-- A digit as a number. -/
def digit? (c : Char) : Option ℕ := if 48 ≤ c.toNat ∧ c.toNat ≤ 57 then some (c.toNat - 48) else none

/-- The digits of a number, the first one not zero unless it is the only one. -/
def decimal (n : ℕ) : List Char := if n = 0 then ['0'] else ((Nat.digits 10 n).reverse).map digitChar

/-- At least `width` digits, with zeros in front. -/
def padded (width n : ℕ) : List Char :=
  List.replicate (width - (decimal n).length) '0' ++ decimal n

/-- The number of a list of digits after those that make `n`. -/
def readFrom : ℕ → List Char → Option ℕ
  | n, [] => some n
  | n, c :: cs => (digit? c).bind fun d => readFrom (10 * n + d) cs

/-- The number written in digits; none if there is another character. -/
def readDigits (cs : List Char) : Option ℕ := readFrom 0 cs

section Decimal
variable {n m d width : ℕ} {cs ds : List Char} {c : Char}

lemma digitChar_toNat (h : d < 10) : (digitChar d).toNat = 48 + d := by
  interval_cases d <;> rfl

lemma digit?_digitChar (h : d < 10) : digit? (digitChar d) = some d := by
  rw [digit?, digitChar_toNat h, if_pos (by omega)]
  exact congrArg some (by omega)

lemma digit?_lt (h : digit? c = some d) : d < 10 := by
  unfold digit? at h
  split_ifs at h
  cases h
  omega

lemma char_of_digit? (h : digit? c = some d) : c = digitChar d := by
  have hlt := digit?_lt h
  unfold digit? at h
  split_ifs at h with hrange
  cases h
  refine Char.toNat_inj.1 ?_
  rw [digitChar_toNat hlt]
  omega

lemma readFrom_append : readFrom n (cs ++ ds) = (readFrom n cs).bind fun m => readFrom m ds := by
  induction cs generalizing n with
  | nil => rfl
  | cons c cs ih =>
    rw [List.cons_append, readFrom, readFrom]
    cases digit? c with
    | none => rfl
    | some d => exact ih

lemma readFrom_digits {l : List ℕ} (h : ∀ d ∈ l, d < 10) :
    readFrom n (l.reverse.map digitChar) = some (10 ^ l.length * n + Nat.ofDigits 10 l) := by
  induction l generalizing n with
  | nil => simp [readFrom]
  | cons d l ih =>
    rw [List.reverse_cons, List.map_append, readFrom_append,
      ih fun e he => h e (List.mem_cons_of_mem d he), Option.bind_some, List.map_singleton, readFrom,
      digit?_digitChar (h d List.mem_cons_self), Option.bind_some, readFrom, Nat.ofDigits_cons,
      List.length_cons, pow_succ]
    refine congrArg some ?_
    ring

/-- What is written is read back, after other digits too. -/
lemma readFrom_decimal : readFrom m (decimal n) = some (10 ^ (decimal n).length * m + n) := by
  unfold decimal
  split_ifs with h
  · rw [h]
    simp only [readFrom, digit?, List.length_singleton, pow_one, add_zero]
    rfl
  · rw [readFrom_digits fun d hd => Nat.digits_lt_base (by norm_num) hd, Nat.ofDigits_digits,
      List.length_map, List.length_reverse]

lemma readFrom_zeros (k : ℕ) : readFrom 0 (List.replicate k '0') = some 0 := by
  induction k with
  | zero => rfl
  | succ k ih =>
    rw [List.replicate_succ, readFrom]
    exact ih

lemma readDigits_decimal (n : ℕ) : readDigits (decimal n) = some n := by
  rw [readDigits, readFrom_decimal, mul_zero, zero_add]

lemma readDigits_padded (width n : ℕ) : readDigits (padded width n) = some n := by
  rw [readDigits, padded, readFrom_append, readFrom_zeros, Option.bind_some]
  exact readDigits_decimal n

lemma decimal_ne_nil (n : ℕ) : decimal n ≠ [] := by
  unfold decimal
  split_ifs with h
  · exact List.cons_ne_nil _ _
  · simpa using Nat.digits_ne_nil_iff_ne_zero.2 h

lemma length_decimal_le (h : n < 10 ^ width) (hwidth : 0 < width) : (decimal n).length ≤ width := by
  unfold decimal
  split_ifs
  · exact hwidth
  · rw [List.length_map, List.length_reverse]
    exact (Nat.digits_length_le_iff (by norm_num) n).2 h

lemma length_padded (h : n < 10 ^ width) (hwidth : 0 < width) : (padded width n).length = width := by
  have hle := length_decimal_le h hwidth
  rw [padded, List.length_append, List.length_replicate]
  omega

/-- Only digits are written. -/
lemma digit?_of_mem_decimal (h : c ∈ decimal n) : ∃ d, digit? c = some d := by
  unfold decimal at h
  split_ifs at h
  · rw [List.mem_singleton] at h
    exact ⟨0, by rw [h]; rfl⟩
  · obtain ⟨d, hd, rfl⟩ := List.mem_map.1 h
    exact ⟨d, digit?_digitChar (Nat.digits_lt_base (by norm_num) (List.mem_reverse.1 hd))⟩

lemma digit?_of_mem_padded (h : c ∈ padded width n) : ∃ d, digit? c = some d := by
  rcases List.mem_append.1 h with h | h
  · rw [List.eq_of_mem_replicate h]
    exact ⟨0, rfl⟩
  · exact digit?_of_mem_decimal h

end Decimal

end Arkeion.Lib
