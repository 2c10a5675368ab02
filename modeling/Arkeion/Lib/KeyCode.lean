import Arkeion.Lib.Bytes
import Mathlib.Order.Monotone.Basic

/-!
Codes that keep an order. A code maps what comes first to a string that is below at the first
byte where the two differ, so nothing written behind the codes can change their order, and no
code is a prefix of another one. Such codes can be written one after the other.
-/

namespace Arkeion.Lib

/-! ### Below at the first difference -/

/-- At the first byte where the strings differ, the first one has the smaller byte. -/
def Below (a b : Bytes) : Prop := ∃ p x y s t, a = p ++ x :: s ∧ b = p ++ y :: t ∧ x < y

section Below
variable {a b : Bytes}

lemma Below.cons {x y : UInt8} (h : x < y) (s t : Bytes) : Below (x :: s) (y :: t) :=
  ⟨[], x, y, s, t, rfl, rfl, h⟩

lemma Below.append (h : Below a b) (u v : Bytes) : Below (a ++ u) (b ++ v) := by
  obtain ⟨p, x, y, s, t, rfl, rfl, hxy⟩ := h
  exact ⟨p, x, y, s ++ u, t ++ v, by simp, by simp, hxy⟩

lemma Below.append_left (p : Bytes) (h : Below a b) : Below (p ++ a) (p ++ b) := by
  obtain ⟨q, x, y, s, t, rfl, rfl, hxy⟩ := h
  exact ⟨p ++ q, x, y, s, t, by simp, by simp, hxy⟩

lemma Below.cons_cons (x : UInt8) (h : Below a b) : Below (x :: a) (x :: b) :=
  h.append_left [x]

lemma Below.lt (h : Below a b) : a < b := by
  obtain ⟨p, x, y, s, t, rfl, rfl, hxy⟩ := h
  rw [append_lt_append_iff, List.cons_lt_cons_iff]
  exact Or.inl hxy

lemma Below.ne (h : Below a b) : a ≠ b := h.lt.ne

lemma Below.not_begins (h : Below a b) : ¬ a <+: b := by
  rintro ⟨u, hu⟩
  exact (h.append u []).ne (by simpa using hu)

lemma Below.not_begun (h : Below a b) : ¬ b <+: a := by
  rintro ⟨u, hu⟩
  exact (h.append [] u).ne (by simpa using hu.symm)

/-- What is below without being the beginning is below at a byte. -/
lemma Below.of_not_begins (h : a < b) (hp : ¬ a <+: b) : Below a b := by
  induction a generalizing b with
  | nil => exact absurd List.nil_prefix hp
  | cons x a ih =>
    cases b with
    | nil => cases h
    | cons y b =>
      rcases List.cons_lt_cons_iff.1 h with hxy | ⟨rfl, hab⟩
      · exact .cons hxy a b
      · exact (ih hab fun hp' => hp (List.cons_prefix_cons.2 ⟨rfl, hp'⟩)).cons_cons x

/-- Strings of one length cannot be in order in any other way. -/
lemma Below.of_lt (hl : a.length = b.length) (h : a < b) : Below a b :=
  .of_not_begins h fun hp => h.ne (hp.eq_of_length hl)

lemma Below.beBytes (n : ℕ) {v w : ℕ} (hw : w < 256 ^ n) (h : v < w) :
    Below (beBytes n v) (beBytes n w) :=
  .of_lt (by simp) (beBytes_lt n hw h)

/-- Complemented bytes are ordered the other way. -/
lemma Below.complement (h : Below a b) : Below (b.map fun x => ~~~x) (a.map fun x => ~~~x) := by
  obtain ⟨p, x, y, s, t, rfl, rfl, hxy⟩ := h
  refine ⟨p.map fun x => ~~~x, ~~~y, ~~~x, t.map fun x => ~~~x, s.map fun x => ~~~x,
    by simp, by simp, ?_⟩
  rw [UInt8.lt_iff_toNat_lt, UInt8.toNat_not, UInt8.toNat_not]
  have hlt : x.toNat < y.toNat := UInt8.lt_iff_toNat_lt.1 hxy
  have hy : y.toNat < 256 := y.toNat_lt
  have hsize : UInt8.size = 256 := rfl
  omega

end Below

/-! ### Codes -/

/-- The code of what comes before is below at the first difference. -/
def KeepsOrder {α : Type*} (r : α → α → Prop) (code : α → Bytes) : Prop :=
  ∀ ⦃a b⦄, r a b → Below (code a) (code b)

namespace KeepsOrder
variable {α β : Type*} {r : α → α → Prop} {q : β → β → Prop} {code : α → Bytes}
  {code' : β → Bytes} {a b : α}

lemma lt_iff (h : KeepsOrder r code) (htri : r a b ∨ a = b ∨ r b a) :
    code a < code b ↔ r a b := by
  refine ⟨fun hlt => ?_, fun hr => (h hr).lt⟩
  rcases htri with hr | rfl | hr
  · exact hr
  · exact absurd hlt (lt_irrefl _)
  · exact absurd (h hr).lt (lt_asymm hlt)

/-- Whatever is written behind the second code, the first is a prefix only of itself. -/
lemma eq_of_prefix (h : KeepsOrder r code) (htri : r a b ∨ a = b ∨ r b a) {u : Bytes}
    (hp : code a <+: code b ++ u) : a = b := by
  rcases htri with hr | heq | hr
  · exact absurd hp (by simpa using ((h hr).append [] u).not_begins)
  · exact heq
  · exact absurd hp (by simpa using ((h hr).append u []).not_begun)

lemma eq_iff (h : KeepsOrder r code) (htri : r a b ∨ a = b ∨ r b a) :
    code a = code b ↔ a = b := by
  refine ⟨fun heq => ?_, congrArg code⟩
  have hp : code a <+: code b ++ [] := heq ▸ List.prefix_append (code a) []
  exact h.eq_of_prefix htri hp

/-- Two codes one after the other keep the order by the first and then by the second. -/
lemma pair (h : KeepsOrder r code) (h' : KeepsOrder q code') :
    KeepsOrder (Prod.Lex r q) fun p => code p.1 ++ code' p.2 := by
  rintro ⟨a, b⟩ ⟨a', b'⟩ (⟨_, _, hr⟩ | ⟨_, hq⟩)
  · exact (h hr).append _ _
  · exact (h' hq).append_left _

/-- The codes of the members of a list, for lists of one length. -/
lemma flatMap (h : KeepsOrder r code) {l l' : List α} (hl : l.length = l'.length)
    (hlex : List.Lex r l l') : Below (l.flatMap code) (l'.flatMap code) := by
  induction hlex with
  | nil => simp at hl
  | rel hr =>
    rw [List.flatMap_cons, List.flatMap_cons]
    exact (h hr).append _ _
  | cons _ ih =>
    rw [List.flatMap_cons, List.flatMap_cons]
    exact (ih (by simpa using hl)).append_left _

end KeepsOrder

/-- Lists whose members can be compared one by one can be compared as a whole. -/
lemma lex_trichotomy {α : Type*} {r : α → α → Prop} {l l' : List α}
    (h : List.Forall₂ (fun a b => r a b ∨ a = b ∨ r b a) l l') :
    List.Lex r l l' ∨ l = l' ∨ List.Lex r l' l := by
  induction h with
  | nil => exact Or.inr (Or.inl rfl)
  | cons hab _ ih =>
    rcases hab with hr | rfl | hr
    · exact Or.inl (.rel hr)
    · rcases ih with hlex | rfl | hlex
      · exact Or.inl (.cons hlex)
      · exact Or.inr (Or.inl rfl)
      · exact Or.inr (Or.inr (.cons hlex))
    · exact Or.inr (Or.inr (.rel hr))

end Arkeion.Lib
