import Mathlib.Data.List.Basic

/-!
Texts written as literals and as copies of what was written before.
-/

namespace Arkeion.Lib.Lz77

inductive Token (α : Type) where
  | lit (a : α)
  | copy (off len : ℕ)
  deriving DecidableEq, Repr

/-- How much a token writes. -/
def Token.size {α : Type} : Token α → ℕ
  | .lit _ => 1
  | .copy _ len => len

variable {α : Type} {text : List α} {pos e : ℕ} {ts us : List (Token α)} {t : Token α}

/-- Writes so many symbols again, from `start` on, one after the other: the copy may run into what
it writes itself. -/
def copyRun : ℕ → ℕ → List α → List α
  | _, 0, out => out
  | start, n + 1, out => copyRun (start + 1) n (out ++ out[start]?.toList)

/-- Writes what a token says; nothing, where it refers to before the beginning. -/
def write (out : List α) : Token α → Option (List α)
  | .lit a => some (out ++ [a])
  | .copy off len => if out.length < off then none else some (copyRun (out.length - off) len out)

/-- The token says what the text has at this place. -/
def Stands (text : List α) (pos : ℕ) : Token α → Prop
  | .lit a => text[pos]? = some a
  | .copy off len => 0 < off ∧ off ≤ pos ∧ pos + len ≤ text.length ∧
      ∀ k < len, text[pos - off + k]? = text[pos + k]?

/-- The tokens say the text from one place to another. -/
def Parses (text : List α) : ℕ → List (Token α) → ℕ → Prop
  | pos, [], e => pos = e
  | pos, t :: ts, e => Stands text pos t ∧ Parses text (pos + t.size) ts e

lemma take_succ_eq {a : α} (h : text[pos]? = some a) : text.take pos ++ [a] = text.take (pos + 1) := by
  rw [List.take_add_one, h]
  rfl

lemma copyRun_take {start len : ℕ} (hs : start < pos) (hle : pos + len ≤ text.length)
    (h : ∀ k < len, text[start + k]? = text[pos + k]?) :
    copyRun start len (text.take pos) = text.take (pos + len) := by
  induction len generalizing start pos with
  | zero => rfl
  | succ n ih =>
    have hlt : pos < text.length := by omega
    have h₀ : text[start]? = some text[pos] := by
      rw [← List.getElem?_eq_getElem hlt]
      exact h 0 (by omega)
    have hnext : ∀ k < n, text[start + 1 + k]? = text[pos + 1 + k]? := fun k hk => by
      have hk' := h (k + 1) (by omega)
      rwa [show start + (k + 1) = start + 1 + k by omega,
        show pos + (k + 1) = pos + 1 + k by omega] at hk'
    rw [copyRun, List.getElem?_take_of_lt hs, h₀, Option.toList_some,
      take_succ_eq (List.getElem?_eq_getElem hlt), ih (by omega) (by omega) hnext]
    congr 1
    omega

/-- A token that stands in the text writes the text on. -/
lemma write_take (h : Stands text pos t) : write (text.take pos) t = some (text.take (pos + t.size)) := by
  cases t with
  | lit a => exact congrArg some (take_succ_eq h)
  | copy off len =>
    obtain ⟨hoff, hle, hlen, heq⟩ := h
    have hpos : (text.take pos).length = pos := by
      rw [List.length_take]
      omega
    rw [write, hpos, if_neg (by omega), copyRun_take (by omega) hlen heq]
    rfl

lemma Stands.le_length (h : Stands text pos t) : pos + t.size ≤ text.length := by
  cases t with
  | lit a =>
    obtain ⟨hlt, -⟩ := List.getElem?_eq_some_iff.1 h
    exact hlt
  | copy off len => exact h.2.2.1

lemma Parses.le (h : Parses text pos ts e) : pos ≤ e := by
  induction ts generalizing pos with
  | nil => exact Nat.le_of_eq h
  | cons t ts ih =>
    have hle := ih h.2
    omega

lemma parses_append : Parses text pos (ts ++ us) e
    ↔ ∃ m, Parses text pos ts m ∧ Parses text m us e := by
  induction ts generalizing pos with
  | nil => simp [Parses]
  | cons t ts ih =>
    rw [List.cons_append, Parses, ih]
    constructor
    · rintro ⟨ht, m, hts, hus⟩
      exact ⟨m, ⟨ht, hts⟩, hus⟩
    · rintro ⟨m, ⟨ht, hts⟩, hus⟩
      exact ⟨ht, m, hts, hus⟩

lemma Parses.snoc (h : Parses text pos ts e) (ht : Stands text e t) :
    Parses text pos (ts ++ [t]) (e + t.size) :=
  parses_append.2 ⟨e, h, ht, rfl⟩

end Arkeion.Lib.Lz77
