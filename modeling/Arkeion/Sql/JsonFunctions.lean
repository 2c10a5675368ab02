import Arkeion.KeyencSpec
import Arkeion.Sql.JsonText

/-!
What the functions of SQL that make JSON guarantee about the text they return, and what the operator
`->` finds in it.
-/

namespace Arkeion.Sql

open Arkeion.Lib

/-! ### Members by key -/

namespace Json

section Members
variable {j v next : Json} {cs name : List Char} {key : String} {ms : List (String × Json)}

def IsScalar : Json → Prop
  | array _ => False
  | object _ => False
  | null | bool _ | int _ | float _ | str _ => True

/-- There is nothing below a scalar. -/
lemma extractFrom_scalar (h : IsScalar j) (hne : cs ≠ []) : extractFrom j cs = none := by
  have hmember : ∀ key, member? key j = none := by
    intro key
    cases j <;> first | rfl | exact h.elim
  have hitem : ∀ idx, item? idx j = none := by
    intro idx
    cases j <;> first | rfl | exact h.elim
  cases cs with
  | nil => exact absurd rfl hne
  | cons c cs =>
    rw [extractFrom]
    split_ifs
    · rw [hmember, Option.bind_none]
    · cases parseUsize (cs.takeWhile fun c => c != ']') with
      | none => rfl
      | some idx => rw [Option.bind_some, hitem, Option.bind_none]
    · rfl

/-- No character of a key ends a step of a path. -/
def PlainKey (key : String) : Prop := '.' ∉ key.toList ∧ '[' ∉ key.toList

instance (key : String) : Decidable (PlainKey key) := inferInstanceAs (Decidable (_ ∧ _))

lemma plainKey_iff : PlainKey key ↔ ∀ c ∈ key.toList, (!isStep c) = true := by
  constructor
  · rintro ⟨hdot, hbracket⟩ c hc
    rw [isStep, Bool.not_eq_true', Bool.or_eq_false_iff, beq_eq_false_iff_ne, beq_eq_false_iff_ne]
    exact ⟨fun h => hdot (h ▸ hc), fun h => hbracket (h ▸ hc)⟩
  · intro h
    exact ⟨fun hc => absurd (h _ hc) (by decide), fun hc => absurd (h _ hc) (by decide)⟩

lemma extract_plain (h : PlainKey key) :
    extract j ('$' :: '.' :: key.toList) = member? key j := by
  have hall := plainKey_iff.1 h
  rw [extract, extractFrom, if_pos rfl, List.takeWhile_eq_self_iff.2 hall,
    List.dropWhile_eq_nil_iff.2 hall, String.ofList_toList]
  cases member? key j with
  | none => rfl
  | some next => rw [Option.bind_some, extractFrom]

/-- With another key the path has more than one step, and finds nothing if the members are scalars. -/
lemma extract_steps (h : ¬ PlainKey key) (hms : ∀ m ∈ ms, IsScalar m.2) :
    extract (object ms) ('$' :: '.' :: key.toList) = none := by
  rw [extract, extractFrom, if_pos rfl]
  cases hfind : member? (String.ofList (key.toList.takeWhile fun c => !isStep c)) (object ms) with
  | none => rfl
  | some next =>
    rw [Option.bind_some]
    obtain ⟨m, hm, rfl⟩ := Option.map_eq_some_iff.1 hfind
    exact extractFrom_scalar (hms m (List.mem_of_find?_eq_some hm)) fun hnil =>
      h (plainKey_iff.2 (List.dropWhile_eq_nil_iff.1 hnil))

end Members

end Json

/-! ### What the functions build -/

section Build
variable {F : FloatText} {v : Value} {args : List Value} {j tree : Json} {ms : List (String × Json)}

lemma valueToJson_scalar (h : valueToJson v = .ok j) : j.IsScalar := by
  cases v <;> cases h <;> trivial

lemma objectMembers_scalar (h : objectMembers F args = .ok ms) : ∀ m ∈ ms, m.2.IsScalar := by
  induction args using objectMembers.induct generalizing ms with
  | case1 k v args ih =>
    rw [objectMembers] at h
    obtain ⟨key, -, h⟩ := bind_eq_ok.1 h
    obtain ⟨j, hj, h⟩ := bind_eq_ok.1 h
    obtain ⟨rest, hrest, h⟩ := bind_eq_ok.1 h
    cases h
    rw [List.forall_mem_cons]
    exact ⟨valueToJson_scalar hj, ih hrest⟩
  | case2 args hargs =>
    rw [objectMembers] at h
    · cases h
      exact fun m hm => by cases hm
    · exact hargs

lemma objectTree_scalar (h : objectTree F args = .ok (.object ms)) : ∀ m ∈ ms, m.2.IsScalar := by
  obtain ⟨-, -, h⟩ := bind_eq_ok.1 h
  obtain ⟨ms', hms, h⟩ := bind_eq_ok.1 h
  cases h
  exact objectMembers_scalar hms

/-- The values of the pairs of `json_object`. -/
def pairValues : List Value → List Value
  | _ :: v :: args => v :: pairValues args
  | _ => []

/-- None of the values is an infinite double or a NaN. -/
def FiniteReals (args : List Value) : Prop := ∀ f, .real f ∈ args → f.Finite

lemma valueToJson_finite (h : valueToJson v = .ok j) : j.AllFinite ↔ FiniteReals [v] := by
  have hother : (∀ f, v ≠ .real f) → FiniteReals [v] := by
    intro hne f hf
    exact absurd (List.mem_singleton.1 hf).symm (hne f)
  cases v with
  | real f =>
    cases h
    refine ⟨fun hf g hg => ?_, fun hall => hall f List.mem_cons_self⟩
    cases List.mem_singleton.1 hg
    exact hf
  | blob b => cases h
  | null | bool b | integer n | text s =>
    cases h
    exact iff_of_true trivial (hother fun f => by simp)

lemma finiteReals_cons : FiniteReals (v :: args) ↔ FiniteReals [v] ∧ FiniteReals args := by
  constructor
  · exact fun h => ⟨fun f hf => h f (List.mem_cons.2 (Or.inl (List.mem_singleton.1 hf))),
      fun f hf => h f (List.mem_cons_of_mem _ hf)⟩
  · rintro ⟨hv, hargs⟩ f hf
    rcases List.mem_cons.1 hf with hf | hf
    · exact hv f (List.mem_singleton.2 hf)
    · exact hargs f hf

lemma objectMembers_finite (h : objectMembers F args = .ok ms) :
    Json.MembersFinite ms ↔ FiniteReals (pairValues args) := by
  induction args using objectMembers.induct generalizing ms with
  | case1 k v args ih =>
    rw [objectMembers] at h
    obtain ⟨key, -, h⟩ := bind_eq_ok.1 h
    obtain ⟨j, hj, h⟩ := bind_eq_ok.1 h
    obtain ⟨rest, hrest, h⟩ := bind_eq_ok.1 h
    cases h
    rw [Json.MembersFinite, pairValues, finiteReals_cons, valueToJson_finite hj, ih hrest]
  | case2 args hargs =>
    rw [objectMembers] at h
    · cases h
      rw [pairValues]
      · exact iff_of_true trivial fun f hf => by cases hf
      · exact hargs
    · exact hargs

lemma objectTree_finite (h : objectTree F args = .ok tree) :
    tree.AllFinite ↔ FiniteReals (pairValues args) := by
  obtain ⟨-, -, h⟩ := bind_eq_ok.1 h
  obtain ⟨ms, hms, h⟩ := bind_eq_ok.1 h
  cases h
  exact objectMembers_finite hms

lemma arrayItems_finite {js : List Json} (h : arrayItems args = .ok js) :
    Json.ItemsFinite js ↔ FiniteReals args := by
  induction args generalizing js with
  | nil =>
    cases h
    exact iff_of_true trivial fun f hf => by cases hf
  | cons v args ih =>
    obtain ⟨j, hj, h⟩ := bind_eq_ok.1 h
    obtain ⟨rest, hrest, h⟩ := bind_eq_ok.1 h
    cases h
    rw [Json.ItemsFinite, finiteReals_cons, valueToJson_finite hj, ih hrest]

lemma arrayTree_finite (h : arrayTree args = .ok tree) : tree.AllFinite ↔ FiniteReals args := by
  obtain ⟨js, hjs, h⟩ := bind_eq_ok.1 h
  cases h
  exact arrayItems_finite hjs

lemma quoteTree_finite (h : quoteTree args = .ok tree) : tree.AllFinite ↔ FiniteReals args := by
  unfold quoteTree at h
  split at h
  · exact valueToJson_finite h
  · cases h

end Build

/-! ### Round trips -/

section RoundTrip
variable {F : FloatText} {args : List Value} {tree v : Json} {ms : List (String × Json)} {key : String}
  {doc : Value}

/-- What is made a text of is read back from it if its numbers are finite. -/
lemma jsonText_back (hF : F.Lawful) {made : Result Json} (h : jsonText F made = .ok doc) :
    ∃ tree text, made = .ok tree ∧ doc = .text text
      ∧ (Json.parse F text = some tree ↔ tree.AllFinite) := by
  obtain ⟨tree, hmade, h⟩ := bind_eq_ok.1 h
  cases h
  exact ⟨tree, _, hmade, rfl, Json.parse_toString_iff hF tree⟩

/-- The operator `->` finds the first member under a key without a dot and a bracket. -/
lemma jsonArrow_key (hF : F.Lawful) (htree : objectTree F args = .ok (.object ms))
    (hkey : key.toList.head? ≠ some '$') (hfirst : Json.member? key (.object ms) = some v) :
    jsonArrow F .jsonGet (.text ((Json.object ms).toString F)) (.text key)
        = .ok (.text (v.toString F))
      ↔ FiniteReals (pairValues args) ∧ Json.PlainKey key := by
  have hpath : arrowPath (.text key) = .ok ('$' :: '.' :: key.toList) := by
    rw [arrowPath, if_neg hkey]
  have hnull : ¬ (Value.text ((Json.object ms).toString F) = .null ∨ Value.text key = .null) := by
    simp
  have hfinite := objectTree_finite htree
  rw [jsonArrow, if_neg hnull, hpath]
  by_cases hall : FiniteReals (pairValues args)
  · have hparse := Json.parse_toString hF _ (hfinite.2 hall)
    by_cases hplain : Json.PlainKey key
    · refine iff_of_true ?_ ⟨hall, hplain⟩
      simp only [arrowText, ok_bind, hparse, okOr, Json.extract_plain hplain, hfirst]
      rfl
    · refine iff_of_false (fun h => ?_) fun h => hplain h.2
      simp only [arrowText, ok_bind, hparse, okOr,
        Json.extract_steps hplain (objectTree_scalar htree)] at h
      cases h
  · have hparse := Json.parse_refused hF _ fun h => hall (hfinite.1 h)
    refine iff_of_false (fun h => ?_) fun h => hall h.1
    simp only [arrowText, ok_bind, hparse, okOr] at h
    cases h

/-- The text of a value is read back if and only if no number in it is infinite or a NaN, and a key
finds the value stored first under it if and only if it is also without a dot and a bracket. -/
theorem json_functions_round_trip (F : FloatText) (hF : F.Lawful) :
    (∀ args doc, jsonObject F args = .ok doc → ∃ tree text, objectTree F args = .ok tree
      ∧ doc = .text text ∧ (Json.parse F text = some tree ↔ FiniteReals (pairValues args)))
    ∧ (∀ args doc, jsonArray F args = .ok doc → ∃ tree text, arrayTree args = .ok tree
      ∧ doc = .text text ∧ (Json.parse F text = some tree ↔ FiniteReals args))
    ∧ (∀ args doc, jsonQuote F args = .ok doc → ∃ tree text, quoteTree args = .ok tree
      ∧ doc = .text text ∧ (Json.parse F text = some tree ↔ FiniteReals args))
    ∧ (∀ s j, Json.parse F s = some j → (Json.parse F (j.toString F) = some j ↔ j.AllFinite))
    ∧ ∀ args doc ms key v, jsonObject F args = .ok doc → objectTree F args = .ok (.object ms) →
      key.toList.head? ≠ some '$' → Json.member? key (.object ms) = some v →
      (jsonArrow F .jsonGet doc (.text key) = .ok (.text (v.toString F))
        ↔ FiniteReals (pairValues args) ∧ Json.PlainKey key) := by
  refine ⟨fun args doc h => ?_, fun args doc h => ?_, fun args doc h => ?_,
    fun s j _ => Json.parse_toString_iff hF j, fun args doc ms key v h htree hkey hfirst => ?_⟩
  · obtain ⟨tree, text, htree, hdoc, hback⟩ := jsonText_back hF h
    exact ⟨tree, text, htree, hdoc, hback.trans (objectTree_finite htree)⟩
  · obtain ⟨tree, text, htree, hdoc, hback⟩ := jsonText_back hF h
    exact ⟨tree, text, htree, hdoc, hback.trans (arrayTree_finite htree)⟩
  · obtain ⟨tree, text, htree, hdoc, hback⟩ := jsonText_back hF h
    exact ⟨tree, text, htree, hdoc, hback.trans (quoteTree_finite htree)⟩
  · rw [jsonObject, htree] at h
    cases h
    exact jsonArrow_key hF htree hkey hfirst

end RoundTrip

/-! ### Doubles as digits of their bits -/

/-- The double with these bits, if it is finite and not negative. -/
def bitsReal (cs : List Char) : Option F64 :=
  if (spanDigits cs).1 ≠ [] ∧ (spanDigits cs).2 = ['.', '0'] then
    (readDigits (spanDigits cs).1).bind fun m =>
      if m < 2047 * 2 ^ 52 then some ⟨UInt64.ofNat m⟩ else none
  else none

/-- A text of doubles that is lawful: the magnitude, with `.0` behind it. -/
def FloatText.bits : FloatText where
  debug f :=
    if f.Finite then
      if f.Negative then '-' :: (decimal f.magnitude ++ ['.', '0']) else decimal f.magnitude ++ ['.', '0']
    else if f.IsNaN then ['N', 'a', 'N']
    else if f.Negative then ['-', 'i', 'n', 'f'] else ['i', 'n', 'f']
  parse
    | '-' :: cs => (bitsReal cs).map F64.neg
    | cs => bitsReal cs

section Bits
variable {f : F64} {cs : List Char}

lemma realDigits_bits (m : ℕ) : RealDigits (decimal m ++ ['.', '0']) :=
  ⟨decimal m, ['.', '0'], [], rfl, isDigits_decimal m,
    Or.inr ⟨['0'], rfl, List.cons_ne_nil _ _, fun c hc => ⟨0, by rw [List.mem_singleton.1 hc]; rfl⟩⟩,
    Or.inl rfl, fun h => by cases h.1⟩

lemma bitsReal_decimal {m : ℕ} (h : m < 2047 * 2 ^ 52) :
    bitsReal (decimal m ++ ['.', '0']) = some ⟨UInt64.ofNat m⟩ := by
  have hspan : spanDigits (decimal m ++ ['.', '0']) = (decimal m, ['.', '0']) :=
    spanDigits_append (isDigits_decimal m).2 (by rintro c ⟨rfl⟩; rfl)
  rw [bitsReal, hspan, if_pos ⟨decimal_ne_nil m, rfl⟩, readDigits_decimal, Option.bind_some, if_pos h]

lemma parse_bits_digits (h : RealDigits cs) : FloatText.bits.parse cs = bitsReal cs := by
  obtain ⟨ds, frac, exp, rfl, hds, -⟩ := h
  have hne : ∀ rest, ds ++ (frac ++ exp) ≠ '-' :: rest := by
    intro rest heq
    cases ds with
    | nil => exact hds.1 rfl
    | cons d ds =>
      cases heq
      exact hds.head_ne rfl ds rfl
  unfold FloatText.bits
  dsimp only
  split
  next rest heq => exact absurd heq (hne rest)
  next => rfl

lemma ofNat_magnitude (h : ¬ f.Negative) : (⟨UInt64.ofNat f.magnitude⟩ : F64) = f := by
  have hm : f.magnitude = f.bits.toNat := Nat.mod_eq_of_lt (not_le.1 h)
  rw [hm, UInt64.ofNat_toNat]

lemma neg_ofNat_magnitude (h : f.Negative) : (⟨UInt64.ofNat f.magnitude⟩ : F64).neg = f := by
  have hlt := f.bits.toNat_lt
  have hneg : 2 ^ 63 ≤ f.bits.toNat := h
  have hm : f.magnitude = f.bits.toNat - 2 ^ 63 := by
    unfold F64.magnitude
    omega
  have hbits : (UInt64.ofNat f.magnitude ^^^ SIGN).toNat = f.bits.toNat := by
    rw [UInt64.toNat_xor, toNat_SIGN, UInt64.toNat_ofNat_of_lt' (by rw [hm, UInt64.size]; omega),
      xor_two_pow_63 (by omega), if_pos (by omega), hm]
    omega
  unfold F64.neg
  rw [UInt64.toNat_inj.1 hbits]

lemma FloatText.bits_lawful : FloatText.bits.Lawful where
  debug_finite f hf := ⟨_, realDigits_bits f.magnitude, if_pos hf⟩
  parse_debug f hf := by
    have hdebug : FloatText.bits.debug f = if f.Negative then '-' :: (decimal f.magnitude ++ ['.', '0'])
        else decimal f.magnitude ++ ['.', '0'] := if_pos hf
    rw [hdebug]
    split_ifs with hneg
    · refine (congrArg (Option.map F64.neg) (bitsReal_decimal hf)).trans ?_
      rw [Option.map_some, neg_ofNat_magnitude hneg]
    · rw [parse_bits_digits (realDigits_bits _), bitsReal_decimal hf, ofNat_magnitude hneg]
  debug_infinite f hf := if_neg hf
  parse_sign := rfl
  parse_neg cs hcs := by
    rw [parse_bits_digits hcs]
    rfl

end Bits

/-- A plain key finds its number. -/
theorem json_functions_round_trip_plain :
    jsonArrow FloatText.bits .jsonGet
      (.text ((Json.object [("a", .int 1)]).toString FloatText.bits)) (.text "a")
      = .ok (.text "1") := by
  have hfinite : FiniteReals (pairValues [.text "a", .integer 1]) := by
    intro f hf
    cases List.mem_singleton.1 hf
  have harrow := (json_functions_round_trip FloatText.bits FloatText.bits_lawful).2.2.2.2
    [.text "a", .integer 1] _ [("a", .int 1)] "a" (.int 1) rfl rfl (by decide) rfl
  exact harrow.2 ⟨hfinite, by decide⟩

/-- A key with a dot in it does not find the member it names, and an infinite double makes a text
that is not JSON. -/
theorem json_functions_lose :
    (objectTree FloatText.bits [.text "a.b", .integer 1] = .ok (.object [("a.b", .int 1)])
      ∧ Json.member? "a.b" (.object [("a.b", .int 1)]) = some (.int 1)
      ∧ jsonArrow FloatText.bits .jsonGet
        (.text ((Json.object [("a.b", .int 1)]).toString FloatText.bits)) (.text "a.b") = .ok .null)
    ∧ jsonArray FloatText.bits [.real ⟨0x7FF0000000000000⟩] = .ok (.text "[inf]")
      ∧ Json.parse FloatText.bits "[inf]" = none := by
  have hlost : Json.extract (.object [("a.b", .int 1)]) ('$' :: '.' :: "a.b".toList) = none :=
    Json.extract_steps (by decide) fun m hm => by
      cases List.mem_singleton.1 hm
      trivial
  have hback : Json.parse FloatText.bits
      ((Json.object [("a.b", .int 1)]).toString FloatText.bits) = some (.object [("a.b", .int 1)]) :=
    Json.parse_toString FloatText.bits_lawful _ ⟨trivial, trivial⟩
  refine ⟨⟨rfl, rfl, ?_⟩, by decide +kernel, by decide +kernel⟩
  have hpath : arrowPath (.text "a.b") = .ok ('$' :: '.' :: "a.b".toList) := rfl
  rw [jsonArrow, if_neg (by simp), hpath]
  simp only [arrowText, ok_bind, hback, okOr, hlost]

end Arkeion.Sql
