import Arkeion.Sql.Json

/-!
The text of a JSON value read back. It is refused if a number in it is not finite, and read as the
value itself otherwise.
-/

namespace Arkeion.Sql

open Arkeion.Lib

namespace Json

/-! ### Strings -/

section Strings
variable {c : Char} {cs rest : List Char} {d n : ℕ}

lemma hexDigit?_hexChar (h : d < 16) : hexDigit? (hexChar d) = some d := by
  interval_cases d <;> rfl

lemma unicodeEscape_hex4 (h : n.isValidChar) (hn : n < 65536) :
    unicodeEscape (hexChar (n / 4096 % 16)) (hexChar (n / 256 % 16)) (hexChar (n / 16 % 16))
      (hexChar (n % 16)) = some (Char.ofNat n) := by
  have hcode : ((n / 4096 % 16 * 16 + n / 256 % 16) * 16 + n / 16 % 16) * 16 + n % 16 = n := by
    omega
  rw [unicodeEscape, hexDigit?_hexChar (Nat.mod_lt _ (by decide)), Option.bind_some,
    hexDigit?_hexChar (Nat.mod_lt _ (by decide)), Option.bind_some,
    hexDigit?_hexChar (Nat.mod_lt _ (by decide)), Option.bind_some,
    hexDigit?_hexChar (Nat.mod_lt _ (by decide)), Option.bind_some]
  dsimp only
  rw [hcode, if_pos h]

/-- An escaped character is read as itself. -/
lemma stringBody_escape (c : Char) (cs : List Char) :
    stringBody (escape c ++ cs) = (stringBody cs).map fun p => (c :: p.1, p.2) := by
  unfold escape
  split_ifs with hquote hback hnl htab hcr hcontrol
  · rw [hquote]
    rfl
  · rw [hback]
    rfl
  · rw [hnl]
    rfl
  · rw [htab]
    rfl
  · rw [hcr]
    rfl
  · have hvalid : c.toNat.isValidChar := c.valid
    have hread := unicodeEscape_hex4 hvalid (by omega)
    rw [Char.ofNat_toNat] at hread
    rw [hex4]
    simp only [List.cons_append, List.nil_append]
    rw [stringBody, hread, Option.bind_some]
  · rw [List.singleton_append, stringBody]
    · exact hquote
    · exact fun _ _ _ _ _ h _ => hback h
    · exact fun _ _ h _ => hback h
    · exact fun h _ => hback h

lemma stringBody_text (cs rest : List Char) :
    stringBody (cs.flatMap escape ++ '"' :: rest) = some (cs, rest) := by
  induction cs with
  | nil => rfl
  | cons c cs ih =>
    rw [List.flatMap_cons, List.append_assoc, stringBody_escape, ih]
    rfl

end Strings

/-! ### Numbers -/

/-- What may follow a number: nothing that could be a part of it. -/
def Ends (rest : List Char) : Prop :=
  ∀ c ∈ rest.head?, digit? c = none ∧ c ≠ '.' ∧ c ≠ 'e' ∧ c ≠ 'E'

section Numbers
variable {F : FloatText} {cs ds rest : List Char} {c : Char} {n : ℕ}

lemma Ends.digits (h : Ends rest) : ∀ c ∈ rest.head?, digit? c = none := fun c hc => (h c hc).1

lemma takeFraction_ends (h : Ends rest) : takeFraction rest = ([], rest) := by
  unfold takeFraction
  split
  next cs => exact absurd rfl (h '.' rfl).2.1
  next => rfl

lemma takeExponent_ends (h : Ends rest) : takeExponent rest = ([], rest) := by
  unfold takeExponent
  split
  next cs => exact absurd rfl (h 'e' rfl).2.2.1
  next cs => exact absurd rfl (h 'E' rfl).2.2.2
  next => rfl

lemma takeMinus_digits (h : IsDigits ds) : takeMinus (ds ++ rest) = ([], ds ++ rest) := by
  unfold takeMinus
  split
  next cs heq =>
    cases ds with
    | nil => exact absurd rfl h.1
    | cons c ds =>
      cases heq
      exact absurd rfl (h.head_ne (by decide) ds)
  next => rfl

lemma spanDigits_ends (h : IsDigits ds) (hrest : Ends rest) : spanDigits (ds ++ rest) = (ds, rest) :=
  spanDigits_append h.2 hrest.digits

/-- A sign in front, or none. -/
def signed (neg : Bool) (cs : List Char) : List Char := if neg then '-' :: cs else cs

lemma takeMinus_signed (neg : Bool) (h : IsDigits ds) :
    takeMinus (signed neg (ds ++ rest)) = (signed neg [], ds ++ rest) := by
  cases neg with
  | true => rfl
  | false => exact takeMinus_digits h

lemma signed_append (neg : Bool) : signed neg [] ++ cs = signed neg cs := by
  cases neg <;> rfl

lemma signed_append_right (neg : Bool) : signed neg cs ++ rest = signed neg (cs ++ rest) := by
  cases neg <;> rfl

/-- Digits alone are tried as an integer. -/
lemma number_digits (neg : Bool) (h : IsDigits ds) (hrest : Ends rest) :
    number F (signed neg (ds ++ rest)) = (readNumber F (signed neg ds) false).map fun j => (j, rest) := by
  unfold number
  dsimp only
  rw [takeMinus_signed neg h, spanDigits_ends h hrest, takeFraction_ends hrest,
    takeExponent_ends hrest]
  simp [signed_append]

lemma takeSign_digits (h : IsDigits ds) : takeSign (ds ++ rest) = ([], ds ++ rest) := by
  cases ds with
  | nil => exact absurd rfl h.1
  | cons c ds =>
    rw [List.cons_append]
    unfold takeSign
    split
    next cs heq =>
      cases heq
      exact absurd rfl (h.head_ne (by decide) ds)
    next cs heq =>
      cases heq
      exact absurd rfl (h.head_ne (by decide) ds)
    next => rfl

lemma takeExponent_text {exp : List Char} (hrest : Ends rest)
    (hexp : exp = [] ∨ ∃ es, (exp = 'e' :: es ∨ exp = 'e' :: '-' :: es) ∧ IsDigits es) :
    takeExponent (exp ++ rest) = (exp, rest) := by
  rcases hexp with rfl | ⟨es, rfl | rfl, hes⟩
  · exact takeExponent_ends hrest
  · rw [List.cons_append, takeExponent, takeSign_digits hes, spanDigits_ends hes hrest]
    rfl
  · rw [List.cons_append, List.cons_append, takeExponent, takeSign, spanDigits_ends hes hrest]
    rfl

lemma takeFraction_text {frac tail : List Char} (htail : ∀ c ∈ tail.head?, digit? c = none ∧ c ≠ '.')
    (hfrac : frac = [] ∨ ∃ fs, frac = '.' :: fs ∧ IsDigits fs) :
    takeFraction (frac ++ tail) = (frac, tail) := by
  rcases hfrac with rfl | ⟨fs, rfl, hfs⟩
  · rw [List.nil_append]
    unfold takeFraction
    split
    next cs => exact absurd rfl (htail '.' rfl).2
    next => rfl
  · rw [List.cons_append, takeFraction, spanDigits_append hfs.2 fun c hc => (htail c hc).1]

/-- With a point or an exponent it is read as a double. -/
lemma number_real (neg : Bool) (h : RealDigits cs) (hrest : Ends rest) :
    number F (signed neg (cs ++ rest)) = (readNumber F (signed neg cs) true).map fun j => (j, rest) := by
  obtain ⟨ds, frac, exp, rfl, hds, hfrac, hexp, hne⟩ := h
  have htail : ∀ c ∈ (exp ++ rest).head?, digit? c = none ∧ c ≠ '.' := by
    rcases hexp with rfl | ⟨es, rfl | rfl, -⟩
    · exact fun c hc => ⟨(hrest c hc).1, (hrest c hc).2.1⟩
    · rintro c ⟨rfl⟩
      decide
    · rintro c ⟨rfl⟩
      decide
  have hstop : ∀ c ∈ (frac ++ (exp ++ rest)).head?, digit? c = none := by
    rcases hfrac with rfl | ⟨fs, rfl, -⟩
    · exact fun c hc => (htail c hc).1
    · rintro c ⟨rfl⟩
      decide
  have hflag : (!(frac ++ exp).isEmpty) = true := by
    rw [Bool.not_eq_true', ← Bool.not_eq_true, List.isEmpty_iff]
    exact fun hnil => hne (List.append_eq_nil_iff.1 hnil)
  unfold number
  dsimp only
  rw [List.append_assoc, List.append_assoc, takeMinus_signed neg hds, spanDigits_append hds.2 hstop,
    takeFraction_text htail hfrac, takeExponent_text hrest hexp, hflag, signed_append]

end Numbers

/-! ### Values -/

mutual

/-- No number in it is infinite or NaN. -/
def AllFinite : Json → Prop
  | float f => f.Finite
  | array js => ItemsFinite js
  | object ms => MembersFinite ms
  | null | bool _ | int _ | str _ => True

def ItemsFinite : List Json → Prop
  | [] => True
  | j :: js => AllFinite j ∧ ItemsFinite js

def MembersFinite : List (String × Json) → Prop
  | [] => True
  | m :: ms => AllFinite m.2 ∧ MembersFinite ms

end

section Heads
variable {F : FloatText} {cs rest : List Char} {c : Char} {n : ℕ}

lemma skipWs_cons (h : isWs c = false) : skipWs (c :: cs) = c :: cs := by
  rw [skipWs, List.dropWhile_cons, h]
  rfl

/-- A character a number begins with begins nothing else. -/
lemma number_head (h : c = '-' ∨ isDigit c = true) : isWs c = false ∧ c ≠ ']' ∧ c ≠ '\x7b' ∧ c ≠ '['
    ∧ c ≠ '"' ∧ c ≠ 't' ∧ c ≠ 'f' ∧ c ≠ 'n' := by
  rcases h with rfl | h
  · decide
  · obtain ⟨d, hd⟩ := Option.isSome_iff_exists.1 h
    have hlt := digit?_lt hd
    rw [char_of_digit? hd]
    interval_cases d <;> decide

lemma value_number (h : c = '-' ∨ isDigit c = true) :
    value F (n + 1) (c :: cs) = number F (c :: cs) := by
  obtain ⟨hws, -, hbrace, hbracket, hquote, ht, hf, hn⟩ := number_head h
  rw [value, skipWs_cons hws]
  dsimp only
  rw [if_neg hbrace, if_neg hbracket, if_neg hquote, if_neg ht, if_neg hf, if_neg hn, if_pos h]

lemma signed_head (neg : Bool) (h : IsDigits cs) (rest : List Char) :
    ∃ c ds, signed neg (cs ++ rest) = c :: ds ∧ (c = '-' ∨ isDigit c = true) := by
  cases neg with
  | true => exact ⟨'-', cs ++ rest, rfl, Or.inl rfl⟩
  | false =>
    cases cs with
    | nil => exact absurd rfl h.1
    | cons c cs =>
      obtain ⟨d, hd⟩ := h.2 c List.mem_cons_self
      exact ⟨c, cs ++ rest, rfl, Or.inr (by rw [isDigit, hd]; rfl)⟩

lemma realDigits_head (neg : Bool) (h : RealDigits cs) (rest : List Char) :
    ∃ c ds, signed neg (cs ++ rest) = c :: ds ∧ (c = '-' ∨ isDigit c = true) := by
  obtain ⟨ds, frac, exp, rfl, hds, -⟩ := h
  rw [List.append_assoc]
  exact signed_head neg hds _

lemma i64Text_eq (i : Int64) :
    i64Text i = signed (decide (i.toInt < 0)) (decimal i.toInt.natAbs) := by
  unfold i64Text signed
  simp only [decide_eq_true_eq]

/-- An integer is read back. -/
lemma value_int (i : Int64) (hrest : Ends rest) :
    value F (n + 1) (i64Text i ++ rest) = some (int i, rest) := by
  have hread : readNumber F (i64Text i) false = some (int i) := by
    rw [readNumber, if_neg Bool.false_ne_true, parseI64_text]
    rfl
  rw [i64Text_eq, signed_append_right]
  obtain ⟨c, ds, heq, hc⟩ := signed_head (decide (i.toInt < 0))
    (isDigits_decimal i.toInt.natAbs) rest
  rw [heq, value_number hc, ← heq, number_digits _ (isDigits_decimal _) hrest, ← i64Text_eq, hread]
  rfl

/-- A finite double is read back. -/
lemma value_float (hF : F.Lawful) {f : F64} (hf : f.Finite) (hrest : Ends rest) :
    value F (n + 1) (F.debug f ++ rest) = some (float f, rest) := by
  obtain ⟨cs, hcs, hdebug⟩ := hF.debug_finite f hf
  have hsigned : F.debug f = signed (decide f.Negative) cs := by
    rw [hdebug, signed]
    simp only [decide_eq_true_eq]
  have hread : readNumber F (F.debug f) true = some (float f) := by
    rw [readNumber, if_pos rfl, hF.parse_debug f hf]
    rfl
  rw [hsigned, signed_append_right]
  obtain ⟨c, ds, heq, hc⟩ := realDigits_head (decide f.Negative) hcs rest
  rw [heq, value_number hc, ← heq, number_real _ hcs hrest, ← hsigned, hread]
  rfl

/-- The text of a double that is not finite is refused. -/
lemma value_infinite (hF : F.Lawful) {f : F64} (hf : ¬ f.Finite) :
    value F (n + 1) (F.debug f ++ rest) = none := by
  rw [hF.debug_infinite f hf]
  split_ifs
  · rfl
  · have hnumber : number F ('-' :: 'i' :: 'n' :: 'f' :: rest) = none := by
      have hread : readNumber F ['-'] false = none := by
        rw [readNumber, if_neg Bool.false_ne_true, hF.parse_sign]
        rfl
      exact congrArg (Option.map _) hread
    exact (value_number (Or.inl rfl)).trans hnumber
  · rfl

/-- What a text begins with. -/
lemma write_head (hF : F.Lawful) (j : Json) :
    ∃ c cs, write F j = c :: cs ∧ isWs c = false ∧ c ≠ ']' := by
  cases j with
  | null => exact ⟨_, _, by rw [write], by decide⟩
  | bool b => cases b <;> exact ⟨_, _, by rw [write], by decide⟩
  | int i =>
    obtain ⟨c, ds, heq, hc⟩ := signed_head (decide (i.toInt < 0))
      (isDigits_decimal i.toInt.natAbs) []
    obtain ⟨hws, hne, -⟩ := number_head hc
    refine ⟨c, ds, ?_, hws, hne⟩
    rw [write, i64Text_eq, ← heq, List.append_nil]
  | float f =>
    by_cases hf : f.Finite
    · obtain ⟨cs, hcs, hdebug⟩ := hF.debug_finite f hf
      obtain ⟨c, ds, heq, hc⟩ := realDigits_head (decide f.Negative) hcs []
      obtain ⟨hws, hne, -⟩ := number_head hc
      refine ⟨c, ds, ?_, hws, hne⟩
      rw [write, hdebug, ← heq, List.append_nil, signed]
      simp only [decide_eq_true_eq]
    · rw [write, hF.debug_infinite f hf]
      split_ifs <;> exact ⟨_, _, rfl, by decide⟩
  | str s => exact ⟨_, _, by rw [write, writeStr], by decide⟩
  | array js => exact ⟨_, _, by rw [write], by decide⟩
  | object ms => exact ⟨_, _, by rw [write], by decide⟩

lemma items_head (hF : F.Lawful) (j : Json) (js : List Json) (rest : List Char) :
    ∃ c cs, writeItems F (j :: js) ++ rest = c :: cs ∧ isWs c = false ∧ c ≠ ']' := by
  obtain ⟨c, cs, hhead, hws, hne⟩ := write_head hF j
  cases js with
  | nil => exact ⟨c, cs ++ rest, by rw [writeItems, hhead, List.cons_append], hws, hne⟩
  | cons k js => exact ⟨c, _, by rw [writeItems, hhead, List.cons_append, List.cons_append], hws, hne⟩

lemma members_head (k : String) (j : Json) (ms : List (String × Json)) (rest : List Char) :
    ∃ cs, writeMembers F ((k, j) :: ms) ++ rest = '"' :: cs := by
  cases ms with
  | nil => exact ⟨_, by rw [writeMembers, writeStr, List.cons_append, List.cons_append]⟩
  | cons m ms => exact ⟨_, by rw [writeMembers, writeStr, List.cons_append, List.cons_append]⟩

end Heads

/-! ### Reading back -/

section Steps
variable {F : FloatText} {cs rest : List Char} {c : Char} {n : ℕ} {j : Json}

lemma ends_cons (h : digit? c = none ∧ c ≠ '.' ∧ c ≠ 'e' ∧ c ≠ 'E') : Ends (c :: rest) := by
  rintro c ⟨rfl⟩
  exact h

lemma ends_nil : Ends [] := fun _ h => by cases h

lemma value_array (hws : isWs c = false) (hne : c ≠ ']') : value F (n + 1) ('[' :: c :: cs)
    = (items F n (c :: cs)).map fun p => (array p.1, p.2) := by
  rw [value, skipWs_cons (by decide)]
  dsimp only
  rw [if_neg (by decide), if_pos rfl, skipWs_cons hws]
  split
  next _ rest heq =>
    cases heq
    exact absurd rfl hne
  next => rfl

lemma value_object : value F (n + 1) ('\x7b' :: '"' :: cs)
    = (members F n ('"' :: cs)).map fun p => (object p.1, p.2) := by
  rw [value, skipWs_cons (by decide)]
  simp [skipWs_cons (show isWs '"' = false by decide)]

lemma items_next (h : value F n cs = some (j, ',' :: rest)) :
    items F (n + 1) cs = (items F n rest).map fun q => (j :: q.1, q.2) := by
  simp [items, h, skipWs_cons (show isWs ',' = false by decide)]

lemma items_last (h : value F n cs = some (j, ']' :: rest)) :
    items F (n + 1) cs = some ([j], rest) := by
  simp [items, h, skipWs_cons (show isWs ']' = false by decide)]

lemma items_none (h : value F n cs = none) : items F (n + 1) cs = none := by
  rw [items, h, Option.bind_none]

lemma writeStr_append (k : String) (cs : List Char) :
    writeStr k ++ ':' :: cs = '"' :: (k.toList.flatMap escape ++ '"' :: ':' :: cs) := by
  simp [writeStr]

lemma members_next (k : String) (h : value F n cs = some (j, ',' :: rest)) :
    members F (n + 1) (writeStr k ++ ':' :: cs)
      = (members F n rest).map fun q => ((k, j) :: q.1, q.2) := by
  rw [writeStr_append, members]
  simp [skipWs_cons (show isWs '"' = false by decide), skipWs_cons (show isWs ':' = false by decide),
    skipWs_cons (show isWs ',' = false by decide), stringBody_text, h]

lemma members_last (k : String) (h : value F n cs = some (j, '\x7d' :: rest)) :
    members F (n + 1) (writeStr k ++ ':' :: cs) = some ([(k, j)], rest) := by
  rw [writeStr_append, members]
  simp [skipWs_cons (show isWs '"' = false by decide), skipWs_cons (show isWs ':' = false by decide),
    skipWs_cons (show isWs '\x7d' = false by decide), stringBody_text, h]

lemma members_none (k : String) (h : value F n cs = none) :
    members F (n + 1) (writeStr k ++ ':' :: cs) = none := by
  rw [writeStr_append, members]
  simp [skipWs_cons (show isWs '"' = false by decide), skipWs_cons (show isWs ':' = false by decide),
    stringBody_text, h]

end Steps

section Back
variable {F : FloatText}

mutual

/-- The text of a value whose numbers are finite is read as that value. -/
theorem value_write (hF : F.Lawful) : (j : Json) → AllFinite j → (n : ℕ) → (rest : List Char) →
    Ends rest → 2 * (write F j ++ rest).length ≤ n →
    value F (n + 1) (write F j ++ rest) = some (j, rest)
  | null, _, _, _, _, _ => rfl
  | bool true, _, _, _, _, _ => rfl
  | bool false, _, _, _, _, _ => rfl
  | int i, _, n, rest, hrest, _ => by
    rw [write]
    exact value_int i hrest
  | float f, hj, n, rest, hrest, _ => by
    rw [write]
    exact value_float hF hj hrest
  | str s, _, n, rest, _, _ => by
    rw [write, writeStr, List.cons_append, List.append_assoc, value, skipWs_cons (by decide)]
    simp [stringBody_text]
  | array [], _, _, _, _, _ => rfl
  | array (j :: js), hj, n, rest, _, hn => by
    obtain ⟨c, cs, hhead, hws, hne⟩ := items_head hF j js (']' :: rest)
    have htext : write F (array (j :: js)) ++ rest = '[' :: c :: cs := by
      rw [write, List.cons_append, List.append_assoc, List.singleton_append, hhead]
    rw [htext] at hn ⊢
    have hitems := items_write hF j js hj n rest (by
      rw [hhead]
      simp only [List.length_cons] at hn ⊢
      omega)
    rw [value_array hws hne, ← hhead, hitems]
    rfl
  | object [], _, _, _, _, _ => rfl
  | object ((k, j) :: ms), hj, n, rest, _, hn => by
    obtain ⟨cs, hhead⟩ := members_head k j ms ('\x7d' :: rest)
    have htext : write F (object ((k, j) :: ms)) ++ rest = '\x7b' :: '"' :: cs := by
      rw [write, List.cons_append, List.append_assoc, List.singleton_append, hhead]
    rw [htext] at hn ⊢
    have hmembers := members_write hF k j ms hj n rest (by
      rw [hhead]
      simp only [List.length_cons] at hn ⊢
      omega)
    rw [value_object, ← hhead, hmembers]
    rfl
  termination_by j => sizeOf j

theorem items_write (hF : F.Lawful) : (j : Json) → (js : List Json) → ItemsFinite (j :: js) →
    (n : ℕ) → (rest : List Char) → 2 * (writeItems F (j :: js) ++ ']' :: rest).length + 2 ≤ n →
    items F n (writeItems F (j :: js) ++ ']' :: rest) = some (j :: js, rest)
  | j, [], hj, n, rest, hn => by
    obtain ⟨n, rfl⟩ := Nat.exists_eq_add_of_le (show 2 ≤ n by omega)
    rw [Nat.add_comm, writeItems] at hn ⊢
    exact items_last (value_write hF j hj.1 n _ (ends_cons (by decide)) (by omega))
  | j, k :: js, hj, n, rest, hn => by
    obtain ⟨n, rfl⟩ := Nat.exists_eq_add_of_le (show 2 ≤ n by omega)
    rw [Nat.add_comm, writeItems, List.append_assoc, List.cons_append] at hn ⊢
    have hnext := items_write hF k js hj.2 (n + 1) rest (by
      simp only [List.length_append, List.length_cons] at hn ⊢
      omega)
    rw [items_next (value_write hF j hj.1 n _ (ends_cons (by decide)) (by omega)), hnext]
    rfl
  termination_by j js => sizeOf j + sizeOf js + 1

theorem members_write (hF : F.Lawful) : (k : String) → (j : Json) → (ms : List (String × Json)) →
    MembersFinite ((k, j) :: ms) → (n : ℕ) → (rest : List Char) →
    2 * (writeMembers F ((k, j) :: ms) ++ '\x7d' :: rest).length + 2 ≤ n →
    members F n (writeMembers F ((k, j) :: ms) ++ '\x7d' :: rest) = some ((k, j) :: ms, rest)
  | k, j, [], hj, n, rest, hn => by
    obtain ⟨n, rfl⟩ := Nat.exists_eq_add_of_le (show 2 ≤ n by omega)
    rw [Nat.add_comm, writeMembers, List.append_assoc, List.cons_append] at hn ⊢
    exact members_last k (value_write hF j hj.1 n _ (ends_cons (by decide)) (by
      simp only [List.length_append, List.length_cons] at hn ⊢
      omega))
  | k, j, (k', j') :: ms, hj, n, rest, hn => by
    obtain ⟨n, rfl⟩ := Nat.exists_eq_add_of_le (show 2 ≤ n by omega)
    rw [Nat.add_comm, writeMembers, List.append_assoc, List.cons_append, List.append_assoc,
      List.cons_append] at hn ⊢
    have hnext := members_write hF k' j' ms hj.2 (n + 1) rest (by
      simp only [List.length_append, List.length_cons] at hn ⊢
      omega)
    have hvalue := value_write hF j hj.1 n (',' :: (writeMembers F ((k', j') :: ms) ++ '\x7d' :: rest))
      (ends_cons (by decide)) (by
        simp only [List.length_append, List.length_cons] at hn ⊢
        omega)
    rw [members_next k hvalue, hnext]
    rfl
  termination_by _ j ms => sizeOf j + sizeOf ms + 1

end

mutual

/-- The text of a value with an infinite number or a NaN in it is refused. -/
theorem value_refused (hF : F.Lawful) : (j : Json) → ¬ AllFinite j → (n : ℕ) → (rest : List Char) →
    2 * (write F j ++ rest).length ≤ n → value F (n + 1) (write F j ++ rest) = none
  | null, hj, _, _, _ => absurd trivial hj
  | bool _, hj, _, _, _ => absurd trivial hj
  | int _, hj, _, _, _ => absurd trivial hj
  | str _, hj, _, _, _ => absurd trivial hj
  | float f, hj, n, rest, _ => by
    rw [write]
    exact value_infinite hF hj
  | array [], hj, _, _, _ => absurd trivial hj
  | array (j :: js), hj, n, rest, hn => by
    obtain ⟨c, cs, hhead, hws, hne⟩ := items_head hF j js (']' :: rest)
    have htext : write F (array (j :: js)) ++ rest = '[' :: c :: cs := by
      rw [write, List.cons_append, List.append_assoc, List.singleton_append, hhead]
    rw [htext] at hn ⊢
    have hitems := items_refused hF j js hj n rest (by
      rw [hhead]
      simp only [List.length_cons] at hn ⊢
      omega)
    rw [value_array hws hne, ← hhead, hitems]
    rfl
  | object [], hj, _, _, _ => absurd trivial hj
  | object ((k, j) :: ms), hj, n, rest, hn => by
    obtain ⟨cs, hhead⟩ := members_head k j ms ('\x7d' :: rest)
    have htext : write F (object ((k, j) :: ms)) ++ rest = '\x7b' :: '"' :: cs := by
      rw [write, List.cons_append, List.append_assoc, List.singleton_append, hhead]
    rw [htext] at hn ⊢
    have hmembers := members_refused hF k j ms hj n rest (by
      rw [hhead]
      simp only [List.length_cons] at hn ⊢
      omega)
    rw [value_object, ← hhead, hmembers]
    rfl
  termination_by j => sizeOf j

theorem items_refused (hF : F.Lawful) : (j : Json) → (js : List Json) → ¬ ItemsFinite (j :: js) →
    (n : ℕ) → (rest : List Char) → 2 * (writeItems F (j :: js) ++ ']' :: rest).length + 2 ≤ n →
    items F n (writeItems F (j :: js) ++ ']' :: rest) = none
  | j, [], hj, n, rest, hn => by
    obtain ⟨n, rfl⟩ := Nat.exists_eq_add_of_le (show 2 ≤ n by omega)
    rw [Nat.add_comm, writeItems] at hn ⊢
    exact items_none (value_refused hF j (fun h => hj ⟨h, trivial⟩) n _ (by omega))
  | j, k :: js, hj, n, rest, hn => by
    obtain ⟨n, rfl⟩ := Nat.exists_eq_add_of_le (show 2 ≤ n by omega)
    rw [Nat.add_comm, writeItems, List.append_assoc, List.cons_append] at hn ⊢
    by_cases hfirst : AllFinite j
    · have hnext := items_refused hF k js (fun h => hj ⟨hfirst, h⟩) (n + 1) rest (by
        simp only [List.length_append, List.length_cons] at hn ⊢
        omega)
      rw [items_next (value_write hF j hfirst n _ (ends_cons (by decide)) (by omega)), hnext]
      rfl
    · exact items_none (value_refused hF j hfirst n _ (by omega))
  termination_by j js => sizeOf j + sizeOf js + 1

theorem members_refused (hF : F.Lawful) : (k : String) → (j : Json) → (ms : List (String × Json)) →
    ¬ MembersFinite ((k, j) :: ms) → (n : ℕ) → (rest : List Char) →
    2 * (writeMembers F ((k, j) :: ms) ++ '\x7d' :: rest).length + 2 ≤ n →
    members F n (writeMembers F ((k, j) :: ms) ++ '\x7d' :: rest) = none
  | k, j, [], hj, n, rest, hn => by
    obtain ⟨n, rfl⟩ := Nat.exists_eq_add_of_le (show 2 ≤ n by omega)
    rw [Nat.add_comm, writeMembers, List.append_assoc, List.cons_append] at hn ⊢
    exact members_none k (value_refused hF j (fun h => hj ⟨h, trivial⟩) n _ (by
      simp only [List.length_append, List.length_cons] at hn ⊢
      omega))
  | k, j, (k', j') :: ms, hj, n, rest, hn => by
    obtain ⟨n, rfl⟩ := Nat.exists_eq_add_of_le (show 2 ≤ n by omega)
    rw [Nat.add_comm, writeMembers, List.append_assoc, List.cons_append, List.append_assoc,
      List.cons_append] at hn ⊢
    have hlen : 2 * (write F j ++ ',' :: (writeMembers F ((k', j') :: ms) ++ '\x7d' :: rest)).length
        ≤ n := by
      simp only [List.length_append, List.length_cons] at hn ⊢
      omega
    by_cases hfirst : AllFinite j
    · have hnext := members_refused hF k' j' ms (fun h => hj ⟨hfirst, h⟩) (n + 1) rest (by
        simp only [List.length_append, List.length_cons] at hn ⊢
        omega)
      rw [members_next k (value_write hF j hfirst n _ (ends_cons (by decide)) hlen), hnext]
      rfl
    · exact members_none k (value_refused hF j hfirst n _ hlen)
  termination_by _ j ms => sizeOf j + sizeOf ms + 1

end

/-- A value is read back from its text if and only if its numbers are finite. -/
lemma parse_toString (hF : F.Lawful) (j : Json) (hj : AllFinite j) : parse F (toString F j) = some j := by
  have hback := value_write hF j hj _ [] ends_nil le_rfl
  rw [List.append_nil] at hback
  rw [parse, toString, String.toList_ofList, parseChars, hback]
  rfl

lemma parse_refused (hF : F.Lawful) (j : Json) (hj : ¬ AllFinite j) : parse F (toString F j) = none := by
  have hback := value_refused hF j hj _ [] le_rfl
  rw [List.append_nil] at hback
  rw [parse, toString, String.toList_ofList, parseChars, hback]
  rfl

lemma parse_toString_iff (hF : F.Lawful) (j : Json) :
    parse F (toString F j) = some j ↔ AllFinite j := by
  by_cases hj : AllFinite j
  · exact iff_of_true (parse_toString hF j hj) hj
  · rw [parse_refused hF j hj]
    exact iff_of_false (fun h => by cases h) hj

end Back

end Json

end Arkeion.Sql
