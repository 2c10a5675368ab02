import Arkeion.Sql.JsonFunctions
import Arkeion.Sql.Parser
import Arkeion.Sql.StreamExact

/-!
`quote`: the text of a value as a literal, and what a query of that text gives.
-/

namespace Arkeion.Sql

open Arkeion.Lib

/-! ### Literals -/

def upperHex (d : ℕ) : Char := if d < 10 then Char.ofNat (48 + d) else Char.ofNat (55 + d)

/-- `{b:02X}` of each byte. -/
def toHex (b : Bytes) : List Char :=
  b.flatMap fun x => [upperHex (x.toNat / 16), upperHex (x.toNat % 16)]

def doubled (c : Char) : List Char := if c = '\'' then ['\'', '\''] else [c]

def sqlQuote (F : FloatText) : Value → List Char
  | .null => ['N', 'U', 'L', 'L']
  | .integer n => i64Text n
  | .real f => F.debug f
  | .bool true => ['T', 'R', 'U', 'E']
  | .bool false => ['F', 'A', 'L', 'S', 'E']
  | .text s => '\'' :: (s.toList.flatMap doubled ++ ['\''])
  | .blob b => 'X' :: '\'' :: (toHex b ++ ['\''])

/-- What a query gives, its text parsed first. -/
def queryText (F : FloatText) (X : Executor) (n : ℕ) (src : Source) (sql : String) :
    Result SelectOut := do
  let stmt ← parse F sql
  match stmt with
  | .select q => X.run [] n src q
  | _ => .error (.sql "solo SELECT devuelve filas: usa execute")

def SELECT : List Char := ['S', 'E', 'L', 'E', 'C', 'T', ' ']

def selectText (text : List Char) : String :=
  String.ofList (SELECT ++ text)

/-! ### Lexing a literal -/

section Quoted
variable {q c : Char} {cs : List Char} {b : Bytes} {d : ℕ}

lemma lexQuoted_doubled (cs : List Char) :
    lexQuoted '\'' (cs.flatMap doubled ++ ['\'']) = some (cs, []) := by
  induction cs with
  | nil => rfl
  | cons c cs ih =>
    obtain ⟨d, ds, hrest⟩ : ∃ d ds, cs.flatMap doubled ++ ['\''] = d :: ds :=
      List.exists_cons_of_ne_nil (by simp)
    rw [List.flatMap_cons, List.append_assoc, hrest, doubled]
    rw [hrest] at ih
    split_ifs with hc
    · rw [hc, List.cons_append, List.cons_append, List.nil_append, lexQuoted, if_pos rfl, if_pos rfl,
        ih]
      rfl
    · rw [List.singleton_append, lexQuoted, if_neg hc, ih]
      rfl

lemma hexDigit?_upperHex (h : d < 16) : Json.hexDigit? (upperHex d) = some d := by
  interval_cases d <;> rfl

lemma hexBytes_toHex (b : Bytes) : hexBytes (toHex b) = some b := by
  induction b with
  | nil => rfl
  | cons x b ih =>
    have hx := x.toNat_lt
    have hbyte : 16 * (x.toNat / 16) + x.toNat % 16 = x.toNat := by omega
    have htext : toHex (x :: b)
        = upperHex (x.toNat / 16) :: upperHex (x.toNat % 16) :: toHex b := rfl
    rw [htext, hexBytes, hexDigit?_upperHex (by omega), Option.bind_some,
      hexDigit?_upperHex (by omega), Option.bind_some, ih, Option.map_some, hbyte, UInt8.ofNat_toNat]

lemma toHex_plain (b : Bytes) : (toHex b).flatMap doubled = toHex b := by
  have hplain : ∀ d < 16, doubled (upperHex d) = [upperHex d] := by decide
  induction b with
  | nil => rfl
  | cons x b ih =>
    have hx := x.toNat_lt
    have htext : toHex (x :: b)
        = upperHex (x.toNat / 16) :: upperHex (x.toNat % 16) :: toHex b := rfl
    rw [htext, List.flatMap_cons, List.flatMap_cons, hplain _ (by omega), hplain _ (by omega), ih]
    rfl

end Quoted

section Numbers
variable {F : FloatText} {cs ds : List Char} {c : Char} {d : ℕ} {n : Int64} {f : F64}

lemma spanDigits_all (h : IsDigits ds) : spanDigits ds = (ds, []) := by
  have hspan := @spanDigits_append ds [] h.2 fun c hc => by cases hc
  rwa [List.append_nil] at hspan

lemma lexNumber_digits (h : IsDigits ds) (hn : parseI64 ds = some n) :
    lexNumber F ds = .ok (.int n, []) := by
  unfold lexNumber
  simp [spanDigits_all h, lexFraction, lexExponent, hn]

lemma lexNumber_range (h : IsDigits ds) (hn : parseI64 ds = none) :
    lexNumber F ds = .error (.sql "entero fuera de rango (i64)") := by
  unfold lexNumber
  simp [spanDigits_all h, lexFraction, lexExponent, hn]

lemma lexExponent_text {exp : List Char}
    (hexp : exp = [] ∨ ∃ es, (exp = 'e' :: es ∨ exp = 'e' :: '-' :: es) ∧ IsDigits es) :
    lexExponent exp = (exp, []) := by
  rcases hexp with rfl | ⟨es, rfl | rfl, hes⟩
  · rfl
  · have hsign := @Json.takeSign_digits es [] hes
    rw [List.append_nil] at hsign
    rw [lexExponent, hsign, spanDigits_all hes, if_pos ⟨Or.inl rfl, hes.1⟩]
    rfl
  · rw [lexExponent, Json.takeSign, spanDigits_all hes, if_pos ⟨Or.inl rfl, hes.1⟩]
    rfl

lemma not_isAlpha_digit (h : digit? c = some d) : c.isAlpha = false := by
  have hlt := digit?_lt h
  rw [char_of_digit? h]
  interval_cases d <;> rfl

lemma lexFraction_text {frac tail : List Char} (htail : ∀ c ∈ tail.head?, digit? c = none ∧ c ≠ '.')
    (hfrac : frac = [] ∨ ∃ fs, frac = '.' :: fs ∧ IsDigits fs) :
    lexFraction (frac ++ tail) = (frac, tail) := by
  rcases hfrac with rfl | ⟨fs, rfl, hfs⟩
  · rw [List.nil_append]
    unfold lexFraction
    split
    next cs => exact absurd rfl (htail '.' rfl).2
    next => rfl
  · obtain ⟨c, cs, rfl⟩ := List.exists_cons_of_ne_nil hfs.1
    obtain ⟨d, hd⟩ := hfs.2 c List.mem_cons_self
    have hletter : ¬ ((c :: cs ++ tail).head?.any Char.isAlpha = true) := by
      rw [List.cons_append, List.head?_cons, Option.any_some, not_isAlpha_digit hd]
      exact Bool.false_ne_true
    rw [List.cons_append, lexFraction, if_neg hletter,
      spanDigits_append hfs.2 fun c hc => (htail c hc).1]

/-- A number with a point or an exponent is read whole, as a double. -/
lemma lexNumber_real (h : RealDigits cs) (hf : F.parse cs = some f) :
    lexNumber F cs = .ok (.float f, []) := by
  obtain ⟨ds, frac, exp, rfl, hds, hfrac, hexp, hne⟩ := h
  have htail : ∀ c ∈ exp.head?, digit? c = none ∧ c ≠ '.' := by
    rcases hexp with rfl | ⟨es, rfl | rfl, -⟩
    · exact fun c hc => by cases hc
    · rintro c ⟨rfl⟩
      decide
    · rintro c ⟨rfl⟩
      decide
  have hstop : ∀ c ∈ (frac ++ exp).head?, digit? c = none := by
    rcases hfrac with rfl | ⟨fs, rfl, -⟩
    · exact fun c hc => (htail c hc).1
    · rintro c ⟨rfl⟩
      decide
  have hflag : ¬ (frac ++ exp = []) := fun hnil => hne (List.append_eq_nil_iff.1 hnil)
  unfold lexNumber
  dsimp only
  rw [spanDigits_append hds.2 hstop]
  dsimp only
  rw [lexFraction_text htail hfrac]
  dsimp only
  rw [lexExponent_text hexp, if_neg hflag, hf]
  rfl

/-- A text that begins with a digit is read as a number. -/
lemma lexToken_digit (h : isDigit c = true) :
    lexToken F c cs = asToken <$> lexNumber F (c :: cs) := by
  obtain ⟨d, hd⟩ := Option.isSome_iff_exists.1 h
  have hlt := digit?_lt hd
  have hc := char_of_digit? hd
  have hblank : isBlank c = false := by
    rw [hc]
    interval_cases d <;> rfl
  have hne : ∀ s, digit? s = none → c ≠ s := by
    rintro s hs rfl
    rw [hd] at hs
    cases hs
  unfold lexToken
  rw [hblank, if_neg Bool.false_ne_true, if_neg fun h => hne '-' rfl h.1, if_neg (hne '?' rfl),
    if_neg (hne ':' rfl), if_neg (hne '\'' rfl), if_neg (hne '"' rfl),
    if_neg fun h => h.1.elim (hne 'x' rfl) (hne 'X' rfl), if_pos h]

/-- A minus sign before a digit or a letter. -/
lemma lexToken_minus (hc : c ≠ '-' ∧ c ≠ '>') : lexToken F '-' (c :: cs) = .ok (some .minus, c :: cs) := by
  have hcomment : ¬ ('-' = '-' ∧ (c :: cs).head? = some '-') := fun h => hc.1 (Option.some.inj h.2)
  have hsign : lexSign '-' (c :: cs) = some (.minus, c :: cs) := by
    unfold lexSign
    split <;> simp_all
  have hblob : ¬ (('-' = 'x' ∨ '-' = 'X') ∧ (c :: cs).head? = some '\'') :=
    fun h => absurd h.1 (by decide)
  unfold lexToken
  rw [if_neg (by decide), if_neg hcomment, if_neg (by decide), if_neg (by decide), if_neg (by decide),
    if_neg (by decide), if_neg hblob, if_neg (by decide), if_neg (by decide), hsign]
  rfl

end Numbers

/-! ### A query of a literal -/

section Query
variable {F : FloatText} {cs : List Char} {c d : Char} {t : Tok} {toks : List Spanned} {n e : ℕ}

lemma lexFrom_some (h : lexToken F c cs = .ok (some t, [])) :
    lexFrom F e (n + 1) (c :: cs) = .ok [⟨t, e - charsLen (c :: cs)⟩] := by
  rw [lexFrom, h, ok_bind]
  cases n <;> rfl

lemma lexFrom_minus (hd : d ≠ '-' ∧ d ≠ '>') (h : lexFrom F e n (d :: cs) = .ok toks) :
    lexFrom F e (n + 1) ('-' :: d :: cs)
      = .ok (⟨.minus, e - charsLen ('-' :: d :: cs)⟩ :: toks) := by
  rw [lexFrom, lexToken_minus hd, ok_bind]
  dsimp only
  rw [h]
  rfl

lemma lexFrom_minus_error (hd : d ≠ '-' ∧ d ≠ '>') {err : Error}
    (h : lexFrom F e n (d :: cs) = .error err) :
    lexFrom F e (n + 1) ('-' :: d :: cs) = .error err := by
  rw [lexFrom, lexToken_minus hd, ok_bind]
  dsimp only
  rw [h]
  rfl

lemma lexToken_word (hw : isWordStart c = true) (hd : isDigit c = false) (hblank : isBlank c = false)
    (hx : ¬ ((c = 'x' ∨ c = 'X') ∧ cs.head? = some '\''))
    (hne : c ≠ '-' ∧ c ≠ '?' ∧ c ≠ ':' ∧ c ≠ '\'' ∧ c ≠ '"') :
    lexToken F c cs = .ok (asToken (lexWord (c :: cs))) := by
  unfold lexToken
  rw [hblank, hd, hw, if_neg Bool.false_ne_true, if_neg fun h => hne.1 h.1, if_neg hne.2.1,
    if_neg hne.2.2.1, if_neg hne.2.2.2.1, if_neg hne.2.2.2.2, if_neg hx, if_neg Bool.false_ne_true,
    if_pos rfl]

/-- The words of the texts below, looked up in the table. -/
lemma keyword_words : keyword ['S', 'E', 'L', 'E', 'C', 'T'] = some .select ∧
    keyword ['N', 'U', 'L', 'L'] = some .null ∧ keyword ['T', 'R', 'U', 'E'] = some .true_ ∧
    keyword ['F', 'A', 'L', 'S', 'E'] = some .false_ ∧ keyword ['N', 'O', 'T'] = some .not_ ∧
    keyword ['N', 'a', 'N'] = none ∧ keyword ['i', 'n', 'f'] = none := by
  decide +kernel

lemma lexWord_keyword {w : List Char} {k : Kw} (hw : cs.takeWhile isWordChar = w)
    (hk : keyword w = some k) : lexWord cs = (.kw k, cs.dropWhile isWordChar) := by
  rw [lexWord, hw, hk]

lemma lexWord_name {w : List Char} (hw : cs.takeWhile isWordChar = w) (hk : keyword w = none) :
    lexWord cs = (.ident (String.ofList w), cs.dropWhile isWordChar) := by
  rw [lexWord, hw, hk]

lemma lexToken_select (cs : List Char) : lexToken F 'S' (['E', 'L', 'E', 'C', 'T', ' '] ++ cs)
    = .ok (some (.kw .select), ' ' :: cs) := by
  have hword : lexWord ('S' :: (['E', 'L', 'E', 'C', 'T', ' '] ++ cs)) = (.kw .select, ' ' :: cs) :=
    lexWord_keyword rfl keyword_words.1
  rw [lexToken_word rfl rfl rfl (fun h => absurd h.1 (by decide)) (by decide), hword]
  rfl

/-- The word in front, and what the rest is lexed to. -/
lemma lexFrom_select (h : lexFrom F e n cs = .ok toks) :
    lexFrom F e (n + 2) (SELECT ++ cs) = .ok (⟨.kw .select, e - charsLen (SELECT ++ cs)⟩ :: toks) := by
  have htail : lexFrom F e (n + 1) (' ' :: cs) = .ok toks := by
    rw [lexFrom, lexToken, if_pos (by rfl), ok_bind]
    dsimp only
    rw [h]
    rfl
  refine (congrArg (fun r => r >>= _) (lexToken_select cs)).trans ?_
  rw [ok_bind]
  dsimp only
  rw [htail]
  rfl

lemma lexFrom_select_error {err : Error} (h : lexFrom F e n cs = .error err) :
    lexFrom F e (n + 2) (SELECT ++ cs) = .error err := by
  have htail : lexFrom F e (n + 1) (' ' :: cs) = .error err := by
    rw [lexFrom, lexToken, if_pos (by rfl), ok_bind]
    dsimp only
    rw [h]
    rfl
  refine (congrArg (fun r => r >>= _) (lexToken_select cs)).trans ?_
  rw [ok_bind]
  dsimp only
  rw [htail]
  rfl

lemma lexChars_select (h : lexFrom F (7 + charsLen cs) (cs.length + 5) cs = .ok toks) :
    lexChars F (SELECT ++ cs) = .ok (⟨.kw .select, 0⟩ :: toks) := by
  have hlen : charsLen (SELECT ++ cs) = 7 + charsLen cs := by
    rw [charsLen_append]
    rfl
  have hfuel : (SELECT ++ cs).length = cs.length + 5 + 2 := by
    rw [List.length_append, SELECT]
    simp only [List.length_cons, List.length_nil]
    omega
  rw [lexChars, hlen, hfuel, lexFrom_select h, hlen, Nat.sub_self]

/-- What is parsed is what the tokens are. -/
lemma parse_select {r : Statement × Parser}
    (h : lexFrom F (7 + charsLen cs) (cs.length + 5) cs = .ok toks)
    (hparse : Parse.whole (toks.length + 2) (.start (SELECT ++ cs) (⟨.kw .select, 0⟩ :: toks)) = .ok r) :
    parse F (selectText cs) = .ok r.1 := by
  have htoks : lex F (selectText cs) = .ok (⟨.kw .select, 0⟩ :: toks) := by
    rw [lex, selectText, String.toList_ofList]
    exact lexChars_select h
  have htext : (selectText cs).toList = SELECT ++ cs := String.toList_ofList
  rw [parse, parseFull, htoks, ok_bind, List.length_cons, htext, hparse]
  rfl

lemma parse_select_error {err : Error}
    (h : lexFrom F (7 + charsLen cs) (cs.length + 5) cs = .error err) :
    parse F (selectText cs) = .error err := by
  have htoks : lex F (selectText cs) = .error err := by
    have hfuel : (SELECT ++ cs).length = cs.length + 5 + 2 := by
      rw [List.length_append, SELECT]
      simp only [List.length_cons, List.length_nil]
      omega
    have hlen : charsLen (SELECT ++ cs) = 7 + charsLen cs := by
      rw [charsLen_append]
      rfl
    have htext : (selectText cs).toList = SELECT ++ cs := String.toList_ofList
    rw [lex, htext, lexChars, hlen, hfuel, lexFrom_select_error h]
  rw [parse, parseFull, htoks]
  rfl

/-- One expression and nothing else. -/
def constQuery (expr : Expr) : SelectStmt :=
  ⟨false, [.expr expr none], none, [], none, [], none, [], none, none, none, [], []⟩

/-- The token of a value, without a sign. -/
def literalTok : Value → Tok
  | .null => .kw .null
  | .bool true => .kw .true_
  | .bool false => .kw .false_
  | .integer n => .int n
  | .real f => .float f
  | .text s => .str s
  | .blob b => .blob b

def negated (e : Expr) : Expr := .node (.unary .neg) [e]

/-- Where the parser is when all is read. -/
def Parser.atEnd (cs : List Char) : Parser := ⟨cs, [], charsLen cs, [], false, 0⟩

variable {p q : ℕ}

lemma whole_literal (cs : List Char) (v : Value) :
    Parse.whole 3 (.start cs [⟨.kw .select, 0⟩, ⟨literalTok v, p⟩])
      = .ok (.select (constQuery (.literal v)), .atEnd cs) := by
  cases v with
  | bool b => cases b <;> rfl
  | null | integer n | real f | text s | blob b => rfl

lemma whole_negated (cs : List Char) (v : Value) :
    Parse.whole 4 (.start cs [⟨.kw .select, 0⟩, ⟨.minus, p⟩, ⟨literalTok v, q⟩])
      = .ok (.select (constQuery (negated (.literal v))), .atEnd cs) := by
  cases v with
  | bool b => cases b <;> rfl
  | null | integer n | real f | text s | blob b => rfl

lemma whole_name (cs : List Char) (name : String) :
    Parse.whole 3 (.start cs [⟨.kw .select, 0⟩, ⟨.ident name, p⟩])
      = .ok (.select (constQuery (.column none name)), .atEnd cs) := rfl

lemma whole_negated_name (cs : List Char) (name : String) :
    Parse.whole 4 (.start cs [⟨.kw .select, 0⟩, ⟨.minus, p⟩, ⟨.ident name, q⟩])
      = .ok (.select (constQuery (negated (.column none name))), .atEnd cs) := rfl

end Query

section Run
variable (X : Executor) (n : ℕ) (src : Source)

lemma run_literal (v : Value) :
    X.run [] (n + 1) src (constQuery (.literal v)) = .ok ⟨["col1"], [[v]]⟩ := rfl

/-- The one value of an expression that reads no data. -/
lemma run_const {expr : Expr} (hsub : exprHasSubquery expr = false) (hagg : expr.hasAggregate = false) :
    X.run [] (n + 1) src (constQuery expr) = (evalConst X.builtins expr []).map fun v =>
      ⟨[outputName 0 (.expr expr none)], [[v]]⟩ := by
  have hrows : List.take USIZE_MAX [([] : List Value)] = [[]] := rfl
  have hcolumns : Executor.noFromColumns [.expr expr none] 0
      = .ok [outputName 0 (.expr expr none)] := by
    simp [Executor.noFromColumns, hagg]
  have hnone : selectHasSubquery (constQuery expr) = false := by
    simp [selectHasSubquery, constQuery, SelectItem.any, hsub]
  have hnofrom : X.run [] (n + 1) src (constQuery expr) = X.runSelectNoFrom [] (constQuery expr) := by
    rw [constQuery] at hnone
    simp [Executor.run, Executor.select, Executor.withCtes, Executor.withDerived, Executor.runCore,
      hnone, constQuery, selectHasDerived]
  rw [hnofrom]
  cases h : evalConst X.builtins expr [] with
  | error err =>
    simp [Executor.runSelectNoFrom, constQuery, hcolumns, h, limitOffset, offsetOf, limitOf, itemExpr,
      hrows]
  | ok v =>
    simp [Executor.runSelectNoFrom, constQuery, hcolumns, h, limitOffset, offsetOf, limitOf, itemExpr,
      hrows]

lemma run_negated {v w : Value} (h : evalNeg v = .ok w) :
    X.run [] (n + 1) src (constQuery (negated (.literal v))) = .ok ⟨["col1"], [[w]]⟩ := by
  have heval : evalConst X.builtins (negated (.literal v)) [] = .ok w := h
  rw [run_const X n src rfl rfl, heval]
  rfl

/-- A name stands for no value where there is no table. -/
lemma run_name (name : String) :
    X.run [] (n + 1) src (constQuery (.column none name))
      = .error (.sql s!"aquí no se permiten columnas: {name}") := by
  rw [run_const X n src rfl rfl]
  rfl

lemma run_negated_name (name : String) :
    X.run [] (n + 1) src (constQuery (negated (.column none name)))
      = .error (.sql s!"aquí no se permiten columnas: {name}") := by
  rw [run_const X n src rfl rfl]
  rfl

end Run

/-! ### Quoting -/

section Faithful
variable {F : FloatText} (X : Executor) (n : ℕ) (src : Source) {cs : List Char} {c : Char} {t : Tok}

lemma query_literal {v : Value} (h : lexToken F c cs = .ok (some (literalTok v), [])) :
    queryText F X (n + 1) src (selectText (c :: cs)) = .ok ⟨["col1"], [[v]]⟩ := by
  rw [queryText, parse_select (lexFrom_some h) (whole_literal _ v), ok_bind]
  exact run_literal X n src v

lemma query_name {name : String} (h : lexToken F c cs = .ok (some (.ident name), [])) :
    queryText F X (n + 1) src (selectText (c :: cs))
      = .error (.sql s!"aquí no se permiten columnas: {name}") := by
  rw [queryText, parse_select (lexFrom_some h) (whole_name _ name), ok_bind]
  exact run_name X n src name

lemma query_negated {v w : Value} (hc : c ≠ '-' ∧ c ≠ '>')
    (h : lexToken F c cs = .ok (some (literalTok v), [])) (hw : evalNeg v = .ok w) :
    queryText F X (n + 1) src (selectText ('-' :: c :: cs)) = .ok ⟨["col1"], [[w]]⟩ := by
  rw [queryText, parse_select (lexFrom_minus hc (lexFrom_some h)) (whole_negated _ v), ok_bind]
  exact run_negated X n src hw

lemma query_negated_name {name : String} (hc : c ≠ '-' ∧ c ≠ '>')
    (h : lexToken F c cs = .ok (some (.ident name), [])) :
    queryText F X (n + 1) src (selectText ('-' :: c :: cs))
      = .error (.sql s!"aquí no se permiten columnas: {name}") := by
  rw [queryText, parse_select (lexFrom_minus hc (lexFrom_some h)) (whole_negated_name _ name), ok_bind]
  exact run_negated_name X n src name

/-- The first character of a number in digits. -/
lemma digits_cons {ds : List Char} (h : IsDigits ds) :
    ∃ c cs, ds = c :: cs ∧ isDigit c = true ∧ c ≠ '-' ∧ c ≠ '>' := by
  obtain ⟨c, cs, rfl⟩ := List.exists_cons_of_ne_nil h.1
  obtain ⟨d, hd⟩ := h.2 c List.mem_cons_self
  have hc : isDigit c = true := by
    rw [isDigit, hd]
    rfl
  exact ⟨c, cs, rfl, hc, fun hc => h.head_ne rfl cs (by rw [hc]), fun hc => h.head_ne rfl cs (by rw [hc])⟩

/-- The smallest integer has no literal: without its sign it is out of range. -/
lemma query_integer (v : Int64) :
    queryText F X (n + 1) src (selectText (i64Text v)) = .ok ⟨["col1"], [[.integer v]]⟩
      ↔ v.toInt ≠ -2 ^ 63 := by
  have hmin := v.le_toInt
  have hmax := v.toInt_lt
  have hdigits := isDigits_decimal v.toInt.natAbs
  obtain ⟨c, cs, hcs, hc, hminus⟩ := digits_cons hdigits
  have hparse := parseI64_digits hdigits
  rw [readDigits_decimal, Option.bind_some] at hparse
  have hlex : lexToken F c cs = asToken <$> lexNumber F (decimal v.toInt.natAbs) := by
    rw [hcs, lexToken_digit hc]
  rw [i64Text]
  split_ifs with hneg
  · by_cases hlow : v.toInt = -2 ^ 63
    · have hnone : int64? (v.toInt.natAbs : ℤ) = none := if_neg (by omega)
      rw [hnone] at hparse
      rw [lexNumber_range hdigits hparse] at hlex
      refine iff_of_false (fun h => ?_) (not_not.2 hlow)
      have herror : lexFrom F (7 + charsLen ('-' :: c :: cs)) (('-' :: c :: cs).length + 5)
          ('-' :: c :: cs) = .error (.sql "entero fuera de rango (i64)") := by
        refine lexFrom_minus_error hminus ?_
        rw [List.length_cons, lexFrom, hlex]
        rfl
      rw [hcs, queryText, parse_select_error herror] at h
      cases h
    · refine iff_of_true ?_ hlow
      have hsome : int64? (v.toInt.natAbs : ℤ) = some (Int64.ofInt v.toInt.natAbs) :=
        if_pos (by omega)
      rw [hsome] at hparse
      rw [lexNumber_digits hdigits hparse] at hlex
      have hvalue : evalNeg (.integer (Int64.ofInt v.toInt.natAbs)) = .ok (.integer v) := by
        have habs : -(Int64.ofInt v.toInt.natAbs).toInt = v.toInt := by
          rw [Int64.toInt_ofInt_of_le (by omega) (by omega)]
          omega
        rw [evalNeg, habs, checked, if_pos ⟨hmin, hmax⟩, Int64.ofInt_toInt]
      rw [hcs]
      exact query_negated X n src (v := .integer _) hminus hlex hvalue
  · refine iff_of_true ?_ (by omega)
    have hsome : int64? (v.toInt.natAbs : ℤ) = some v := by
      have habs : (v.toInt.natAbs : ℤ) = v.toInt := by omega
      rw [habs, int64?_toInt]
    rw [hsome] at hparse
    rw [lexNumber_digits hdigits hparse] at hlex
    rw [hcs]
    exact query_literal X n src (v := .integer v) hlex

lemma realDigits_cons {ds : List Char} (h : RealDigits ds) :
    ∃ c cs, ds = c :: cs ∧ isDigit c = true ∧ c ≠ '-' ∧ c ≠ '>' := by
  obtain ⟨ds, frac, exp, rfl, hds, -⟩ := h
  obtain ⟨c, cs, rfl, hc⟩ := digits_cons hds
  exact ⟨c, cs ++ (frac ++ exp), rfl, hc⟩

/-- A finite double is read back, the sign as a negation. -/
lemma query_finite (hF : F.Lawful) {f : F64} (hf : f.Finite) :
    queryText F X (n + 1) src (selectText (F.debug f)) = .ok ⟨["col1"], [[.real f]]⟩ := by
  obtain ⟨ds, hds, hdebug⟩ := hF.debug_finite f hf
  obtain ⟨c, cs, hcs, hc, hminus⟩ := realDigits_cons hds
  have hback := hF.parse_debug f hf
  have hlex : ∀ g, F.parse ds = some g → lexToken F c cs = .ok (some (.float g), []) := by
    intro g hg
    rw [lexToken_digit hc, ← hcs, lexNumber_real hds hg]
    rfl
  rw [hdebug] at hback ⊢
  split_ifs at hback ⊢ with hneg
  · rw [hF.parse_neg ds hds] at hback
    obtain ⟨g, hg, rfl⟩ := Option.map_eq_some_iff.1 hback
    rw [hcs]
    exact query_negated X n src (v := .real g) hminus (hlex g hg) rfl
  · rw [hcs]
    exact query_literal X n src (v := .real f) (hlex f hback)

/-- Infinities and NaN print as names. -/
lemma query_infinite (hF : F.Lawful) {f : F64} (hf : ¬ f.Finite) :
    ∃ name : String, queryText F X (n + 1) src (selectText (F.debug f))
      = .error (.sql s!"aquí no se permiten columnas: {name}") := by
  have hnan : lexToken F 'N' ['a', 'N'] = .ok (some (.ident "NaN"), []) := by
    have hword : lexWord ['N', 'a', 'N'] = (.ident "NaN", []) :=
      lexWord_name rfl keyword_words.2.2.2.2.2.1
    rw [lexToken_word rfl rfl rfl (fun h => absurd h.1 (by decide)) (by decide), hword]
    rfl
  have hinf : lexToken F 'i' ['n', 'f'] = .ok (some (.ident "inf"), []) := by
    have hword : lexWord ['i', 'n', 'f'] = (.ident "inf", []) :=
      lexWord_name rfl keyword_words.2.2.2.2.2.2
    rw [lexToken_word rfl rfl rfl (fun h => absurd h.1 (by decide)) (by decide), hword]
    rfl
  rw [hF.debug_infinite f hf]
  split_ifs
  · exact ⟨"NaN", query_name X n src hnan⟩
  · exact ⟨"inf", query_negated_name X n src (by decide) hinf⟩
  · exact ⟨"inf", query_name X n src hinf⟩

lemma query_text (s : String) :
    queryText F X (n + 1) src (selectText (sqlQuote F (.text s))) = .ok ⟨["col1"], [[.text s]]⟩ := by
  refine query_literal X n src (v := .text s) ?_
  have hstring : lexString (s.toList.flatMap doubled ++ ['\'']) = .ok (s.toList, []) := by
    rw [lexString, lexQuoted_doubled]
    rfl
  unfold lexToken
  rw [if_neg (by decide), if_neg fun h => absurd h.1 (by decide), if_neg (by decide),
    if_neg (by decide), if_pos rfl, hstring]
  exact congrArg (fun x => Except.ok (some (Tok.str x), [])) String.ofList_toList

lemma query_blob (b : Bytes) :
    queryText F X (n + 1) src (selectText (sqlQuote F (.blob b))) = .ok ⟨["col1"], [[.blob b]]⟩ := by
  refine query_literal X n src (v := .blob b) ?_
  have hstring : lexString (toHex b ++ ['\'']) = .ok (toHex b, []) := by
    have hquoted := lexQuoted_doubled (toHex b)
    rw [toHex_plain] at hquoted
    rw [lexString, hquoted]
    rfl
  have hblob : lexBlob (toHex b ++ ['\'']) = .ok (.blob b, []) := by
    rw [lexBlob, hstring, ok_bind, hexBytes_toHex]
    rfl
  unfold lexToken
  rw [if_neg (by decide), if_neg fun h => absurd h.1 (by decide), if_neg (by decide),
    if_neg (by decide), if_neg (by decide), if_neg (by decide), if_pos ⟨Or.inr rfl, rfl⟩, List.tail_cons,
    hblob]
  rfl

lemma query_word {v : Value} (hword : lexWord (c :: cs) = (literalTok v, []))
    (hw : isWordStart c = true) (hd : isDigit c = false) (hblank : isBlank c = false)
    (hx : c ≠ 'x' ∧ c ≠ 'X') (hne : c ≠ '-' ∧ c ≠ '?' ∧ c ≠ ':' ∧ c ≠ '\'' ∧ c ≠ '"') :
    queryText F X (n + 1) src (selectText (c :: cs)) = .ok ⟨["col1"], [[v]]⟩ := by
  refine query_literal X n src ?_
  rw [lexToken_word hw hd hblank (fun h => h.1.elim hx.1 hx.2) hne, hword]
  rfl

/-- The words that are literals. -/
lemma query_null :
    queryText F X (n + 1) src (selectText ['N', 'U', 'L', 'L']) = .ok ⟨["col1"], [[.null]]⟩ := by
  have hword : lexWord ['N', 'U', 'L', 'L'] = (literalTok .null, []) :=
    lexWord_keyword rfl keyword_words.2.1
  exact query_word X n src hword rfl rfl rfl (by decide) (by decide)

lemma query_true :
    queryText F X (n + 1) src (selectText ['T', 'R', 'U', 'E']) = .ok ⟨["col1"], [[.bool true]]⟩ := by
  have hword : lexWord ['T', 'R', 'U', 'E'] = (literalTok (.bool true), []) :=
    lexWord_keyword rfl keyword_words.2.2.1
  exact query_word X n src hword rfl rfl rfl (by decide) (by decide)

lemma query_false : queryText F X (n + 1) src (selectText ['F', 'A', 'L', 'S', 'E'])
    = .ok ⟨["col1"], [[.bool false]]⟩ := by
  have hword : lexWord ['F', 'A', 'L', 'S', 'E'] = (literalTok (.bool false), []) :=
    lexWord_keyword rfl keyword_words.2.2.2.1
  exact query_word X n src hword rfl rfl rfl (by decide) (by decide)

/-- A query of the literal of a value gives the value, unless it is the smallest integer, an infinite
double or a NaN. -/
theorem quote_faithful (F : FloatText) (hF : F.Lawful) (X : Executor) (n : ℕ) (src : Source)
    (v : Value) : queryText F X (n + 1) src (selectText (sqlQuote F v)) = .ok ⟨["col1"], [[v]]⟩
      ↔ v ≠ .integer Int64.minValue ∧ ∀ f, v = .real f → f.Finite := by
  have hother : (∀ i, v ≠ .integer i) → (∀ f, v ≠ .real f) →
      v ≠ .integer Int64.minValue ∧ ∀ f, v = .real f → f.Finite :=
    fun hint hreal => ⟨hint _, fun f hf => absurd hf (hreal f)⟩
  cases v with
  | null =>
    rw [sqlQuote]
    exact iff_of_true (query_null X n src) (hother (fun i => by simp) fun f => by simp)
  | bool b =>
    refine iff_of_true ?_ (hother (fun i => by simp) fun f => by simp)
    cases b with
    | true =>
      rw [sqlQuote]
      exact query_true X n src
    | false =>
      rw [sqlQuote]
      exact query_false X n src
  | integer i =>
    refine (query_integer X n src i).trans ?_
    have hmin : Int64.minValue.toInt = -2 ^ 63 := Int64.toInt_minValue
    constructor
    · intro hne
      refine ⟨fun h => hne ?_, fun f hf => by cases hf⟩
      rw [Value.integer.inj h, hmin]
    · rintro ⟨hne, -⟩ h
      exact hne (congrArg Value.integer (Int64.toInt_inj.1 (h.trans hmin.symm)))
  | real f =>
    by_cases hf : f.Finite
    · refine iff_of_true (query_finite X n src hF hf) ⟨by simp, ?_⟩
      rintro g ⟨rfl⟩
      exact hf
    · refine iff_of_false (fun h => ?_) fun h => hf (h.2 f rfl)
      obtain ⟨name, herror⟩ := query_infinite X n src hF hf
      rw [sqlQuote, herror] at h
      cases h
  | text s => exact iff_of_true (query_text X n src s) (hother (fun i => by simp) fun f => by simp)
  | blob b => exact iff_of_true (query_blob X n src b) (hother (fun i => by simp) fun f => by simp)

end Faithful

/-- A source without tables. -/
def noTables : DataSource where
  table _ := .ok none
  get_row _ _ := .ok none
  scan_rows _ := .ok []
  index_lookup _ _ _ := .ok []
  index_range _ _ _ _ := .ok []
  view _ := .ok none
  fts_search _ _ _ := .ok []
  fts_stats _ _ := .ok ([], 0, 0)
  fts_bm25_topk _ _ _ _ := .ok []
  vector_search _ _ _ _ := .ok []
  knn_exact _ _ _ _ _ := .ok []
  get_col_blob _ _ _ := .ok none

/-- A text with a quote in it. -/
theorem quote_faithful_text :
    queryText .bits (engine noBuiltins) 1 (.base noTables)
      (selectText (sqlQuote .bits (.text "it's"))) = .ok ⟨["col1"], [[.text "it's"]]⟩ :=
  (quote_faithful .bits FloatText.bits_lawful (engine noBuiltins) 0 (.base noTables)
    (.text "it's")).2 ⟨by simp, fun f hf => by cases hf⟩

/-- The smallest integer and an infinite double are not read back. -/
theorem quote_loses_extremes :
    queryText .bits (engine noBuiltins) 1 (.base noTables)
        (selectText (sqlQuote .bits (.integer Int64.minValue)))
      = .error (.sql "entero fuera de rango (i64)")
    ∧ queryText .bits (engine noBuiltins) 1 (.base noTables)
        (selectText (sqlQuote .bits (.real ⟨0x7FF0000000000000⟩)))
      = .error (.sql "aquí no se permiten columnas: inf") := by
  decide +kernel

end Arkeion.Sql
