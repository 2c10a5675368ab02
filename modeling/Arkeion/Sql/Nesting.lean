import Arkeion.Fts.QueryParser
import Arkeion.Sql.AstMeasure
import Arkeion.Sql.Quote

/-!
Texts as deep as one likes that the parsers accept: a chain of `NOT` or of signs, which is not an
expression within another for the guard, an array within an array, and a column in front of another.
-/

namespace Arkeion.Sql

open Arkeion.Lib

/-! ### Chains of an operator -/

section Lexing
variable {F : FloatText} {c : Char} {cs rest : List Char} {t : Tok} {ts : List Tok} {e : ℕ}

/-- The tokens of a text, wherever it stands. -/
def Lexes (F : FloatText) (e : ℕ) (cs : List Char) (ts : List Tok) : Prop :=
  ∀ n, cs.length ≤ n → ∃ toks, lexFrom F e n cs = .ok toks ∧ toks.map Spanned.tok = ts

lemma lexes_nil : Lexes F e [] [] := by
  intro n _
  cases n <;> exact ⟨[], rfl, rfl⟩

lemma Lexes.cons (h : Lexes F e rest ts) (ht : lexToken F c cs = .ok (some t, rest))
    (hlen : rest.length ≤ cs.length) : Lexes F e (c :: cs) (t :: ts) := by
  intro n hn
  obtain ⟨n, rfl⟩ := Nat.exists_eq_succ_of_ne_zero (show n ≠ 0 by rintro rfl; cases hn)
  rw [List.length_cons] at hn
  obtain ⟨toks, hlex, htoks⟩ := h n (by omega)
  refine ⟨⟨t, e - charsLen (c :: cs)⟩ :: toks, ?_, by rw [List.map_cons, htoks]⟩
  rw [lexFrom, ht, ok_bind]
  dsimp only
  rw [hlex]
  rfl

lemma Lexes.blank (h : Lexes F e cs ts) : Lexes F e (' ' :: cs) ts := by
  intro n hn
  obtain ⟨n, rfl⟩ := Nat.exists_eq_succ_of_ne_zero (show n ≠ 0 by rintro rfl; cases hn)
  rw [List.length_cons] at hn
  obtain ⟨toks, hlex, htoks⟩ := h n (by omega)
  refine ⟨toks, ?_, htoks⟩
  rw [lexFrom, lexToken, if_pos (by rfl), ok_bind]
  dsimp only
  rw [hlex]
  rfl

end Lexing

/-- `NOT NOT … 1` -/
def nots : ℕ → List Char
  | 0 => ['1']
  | k + 1 => 'N' :: 'O' :: 'T' :: ' ' :: nots k

def notToks (k : ℕ) : List Tok := List.replicate k (.kw .not_) ++ [.int 1]

def notExprs : ℕ → Expr
  | 0 => .literal (.integer 1)
  | k + 1 => .node (.unary .not) [notExprs k]

lemma lexes_nots (F : FloatText) (e k : ℕ) : Lexes F e (nots k) (notToks k) := by
  induction k with
  | zero =>
    have hone : lexToken F '1' [] = .ok (some (.int 1), []) := by
      rw [lexToken_digit rfl]
      rfl
    exact lexes_nil.cons hone le_rfl
  | succ k ih =>
    have hword : lexToken F 'N' ('O' :: 'T' :: ' ' :: nots k) = .ok (some (.kw .not_), ' ' :: nots k) := by
      have hnot : lexWord ('N' :: 'O' :: 'T' :: ' ' :: nots k) = (.kw .not_, ' ' :: nots k) :=
        lexWord_keyword rfl keyword_words.2.2.2.2.1
      rw [lexToken_word rfl rfl rfl (fun h => absurd h.1 (by decide)) (by decide), hnot]
      rfl
    exact ih.blank.cons hword (by simp only [List.length_cons]; omega)

namespace Parse

section Chains
variable {op? : Tok → Option BinOp} {e : Parse Expr} {p : Parser} {a : Expr} {G : Grammar} {t : Tok}
  {op : UnOp} {n : ℕ} {k : Spanned} {ks : List Spanned}

lemma run_bind {α β : Type} {x : Parse α} {f : α → Parse β} {b : α} {p' : Parser}
    (h : x p = .ok (b, p')) : (x >>= f) p = f b p' := by
  change (x p >>= fun r => f r.1 r.2) = _
  rw [h]
  rfl

lemma run_map {α β : Type} {x : Parse α} {f : α → β} {b : α} {p' : Parser}
    (h : x p = .ok (b, p')) : (f <$> x) p = .ok (f b, p') := by
  change (x p >>= _) = _
  rw [h]
  rfl

/-- All that is left is read as the expression. -/
def Reads (e : Parse Expr) (p : Parser) (a : Expr) : Prop := e p = .ok (a, { p with toks := [] })

lemma Reads.leftAssoc (h : Reads e p a) (op? : Tok → Option BinOp) : Reads (leftAssoc op? e) p a :=
  run_bind h

lemma eat_head (hk : k.tok = t) : eat t { p with toks := k :: ks } = .ok (true, { p with toks := ks }) := by
  refine run_map (b := some t) ?_
  rw [eatAs]
  simp only [List.head?_cons, Option.map_some, Option.bind_some, hk, if_true, List.tail_cons]

lemma eat_other (hk : k.tok ≠ t) :
    eat t { p with toks := k :: ks } = .ok (false, { p with toks := k :: ks }) := by
  refine run_map (b := none) ?_
  rw [eatAs]
  simp only [List.head?_cons, Option.map_some, Option.bind_some, hk, if_false]

lemma Reads.unary (h : Reads (unaryLoop t op e n) { p with toks := ks } a) (hk : k.tok = t) :
    Reads (unaryLoop t op e (n + 1)) { p with toks := k :: ks } (.node (.unary op) [a]) :=
  (run_bind (eat_head hk)).trans (run_map h)

lemma Reads.operand (h : Reads e { p with toks := k :: ks } a) (hk : k.tok ≠ t) :
    Reads (unaryLoop t op e (n + 1)) { p with toks := k :: ks } a :=
  (run_bind (eat_other hk)).trans h

/-- No operator and no bound is in the way of a chain of `NOT`. -/
lemma reads_nots {j : ℕ} (hks : ks.map Spanned.tok = notToks j) (hn : j < n) :
    Reads (unaryLoop (.kw .not_) .not (cmpExpr G) n) { p with toks := ks } (notExprs j) := by
  induction j generalizing ks n with
  | zero =>
    obtain ⟨n, rfl⟩ := Nat.exists_eq_succ_of_ne_zero (show n ≠ 0 by omega)
    obtain ⟨s, rest, rfl, hs, hrest⟩ := List.map_eq_cons_iff.1 hks
    rw [List.map_eq_nil_iff] at hrest
    subst hrest
    refine Reads.operand ?_ (by rw [hs]; decide)
    obtain ⟨tok, at_⟩ := s
    cases hs
    rfl
  | succ j ih =>
    obtain ⟨n, rfl⟩ := Nat.exists_eq_succ_of_ne_zero (show n ≠ 0 by omega)
    rw [notToks, List.replicate_succ, List.cons_append] at hks
    obtain ⟨s, rest, rfl, hs, hrest⟩ := List.map_eq_cons_iff.1 hks
    exact (ih hrest (by omega)).unary hs

end Chains

/-! ### A query of one expression -/

section Query
variable {cs : List Char} {s : Spanned} {ks : List Spanned} {a : Expr} {m q : ℕ}

/-- The guard counts the expression, and whatever is in it that is no expression in parentheses is
not counted. -/
lemma whole_expr (hdistinct : s.tok ≠ .kw .distinct) (hstar : s.tok ≠ .star)
    (h : Reads (orExpr (grammar m)) ⟨cs, s :: ks, charsLen cs, [], false, 1⟩ a) :
    whole (m + 2) (.start cs (⟨.kw .select, q⟩ :: s :: ks))
      = .ok (.select (constQuery a), .atEnd cs) := by
  have hexpr : (grammar (m + 1)).expr (.start cs (s :: ks)) = .ok (a, .atEnd cs) := by
    change nested (orExpr (grammar m)) (.start cs (s :: ks)) = _
    have hguard : ¬ MAX_EXPR_DEPTH < (Parser.start cs (s :: ks)).depth + 1 := Nat.not_lt.2 (Nat.le_add_left 1 255)
    unfold nested
    rw [if_neg hguard]
    change (orExpr (grammar m) ⟨cs, s :: ks, charsLen cs, [], false, 1⟩ >>= _) = _
    rw [h]
    rfl
  have hitem : selectItem (grammar (m + 1)) (.start cs (s :: ks)) = .ok (.expr a none, .atEnd cs) :=
    (run_bind (eat_other (p := .start cs []) hstar)).trans (run_bind hexpr)
  have hitems : commaSep (selectItem (grammar (m + 1))) (.start cs (s :: ks))
      = .ok ([.expr a none], .atEnd cs) := run_bind hitem
  have hword : expectKw .select "SELECT" (.start cs (⟨.kw .select, q⟩ :: s :: ks))
      = .ok ((), .start cs (s :: ks)) := rfl
  have hcore : selectCore (grammar (m + 1)) (.start cs (⟨.kw .select, q⟩ :: s :: ks))
      = .ok (constQuery a, .atEnd cs) :=
    (run_bind hword).trans ((run_bind (eat_other (p := .start cs []) hdistinct)).trans (run_bind hitems))
  have hselect : (grammar (m + 2)).select (.start cs (⟨.kw .select, q⟩ :: s :: ks))
      = .ok (constQuery a, .atEnd cs) := run_bind hcore
  have hstatement : statements (m + 2) (.start cs (⟨.kw .select, q⟩ :: s :: ks))
      = .ok (.select (constQuery a), .atEnd cs) := run_map hselect
  exact run_bind hstatement

end Query

end Parse

lemma parse_nots (F : FloatText) (k : ℕ) :
    parse F (selectText (nots k)) = .ok (.select (constQuery (notExprs k))) := by
  obtain ⟨toks, hlex, htoks⟩ := lexes_nots F (7 + charsLen (nots k)) k ((nots k).length + 5)
    (Nat.le_add_right _ _)
  have hlen : toks.length = k + 1 := by
    have hlen := congrArg List.length htoks
    rw [List.length_map, notToks, List.length_append, List.length_replicate] at hlen
    exact hlen
  have hnot : ∀ p : Parser, Parse.Reads (Parse.notExpr (Parse.grammar toks.length))
      { p with toks } (notExprs k) := fun p =>
    Parse.reads_nots (p := p) (n := toks.length + 1) htoks (by omega)
  have hreads : ∀ p : Parser, Parse.Reads (Parse.orExpr (Parse.grammar toks.length))
      { p with toks } (notExprs k) := fun p =>
    ((hnot p).leftAssoc Parse.andOp?).leftAssoc Parse.orOp?
  obtain ⟨s, ks, rfl⟩ := List.exists_cons_of_length_eq_add_one hlen
  have hhead : s.tok ≠ .kw .distinct ∧ s.tok ≠ .star := by
    rw [List.map_cons] at htoks
    cases k with
    | zero =>
      rw [(List.cons.inj htoks).1]
      decide
    | succ k =>
      rw [(List.cons.inj htoks).1]
      decide
  exact parse_select hlex (Parse.whole_expr hhead.1 hhead.2 (hreads ⟨_, [], _, [], false, 1⟩))

lemma depth_nots (k : ℕ) : (Statement.select (constQuery (notExprs k))).depth = k + 4 := by
  have hexpr : (notExprs k).measure max = k + 1 := by
    induction k with
    | zero => rfl
    | succ k ih =>
      rw [notExprs, Expr.measure, measureList, measureList, ih]
      omega
  rw [Statement.depth, Statement.measure, constQuery, SelectStmt.measure, measureItems, measureItems,
    hexpr]
  simp only [measureFrom, measureJoins, measureOpt, measureList, measureOrder, measureCompound,
    measureCtes]
  omega

/-! ### Arrays within arrays -/

namespace Json

mutual

def depth : Json → ℕ
  | array js => 1 + depthItems js
  | object ms => 1 + depthMembers ms
  | _ => 1

def depthItems : List Json → ℕ
  | [] => 0
  | j :: js => max j.depth (depthItems js)

def depthMembers : List (String × Json) → ℕ
  | [] => 0
  | (_, j) :: ms => max j.depth (depthMembers ms)

end

/-- `[[…]]` in front of a text. -/
def brackets : ℕ → List Char → List Char
  | 0, rest => '[' :: ']' :: rest
  | k + 1, rest => '[' :: brackets k (']' :: rest)

def arrays : ℕ → Json
  | 0 => array []
  | k + 1 => array [arrays k]

lemma depth_arrays (k : ℕ) : (arrays k).depth = k + 1 := by
  induction k with
  | zero => rfl
  | succ k ih =>
    rw [arrays, depth, depthItems, depthItems, ih]
    omega

lemma length_brackets (k : ℕ) (rest : List Char) : (brackets k rest).length = 2 * k + 2 + rest.length := by
  induction k generalizing rest with
  | zero =>
    rw [brackets, List.length_cons, List.length_cons]
    omega
  | succ k ih =>
    rw [brackets, List.length_cons, ih, List.length_cons]
    omega

lemma value_brackets (F : FloatText) (n k : ℕ) (rest : List Char) :
    value F (n + 2 * k + 1) (brackets k rest) = some (arrays k, rest) := by
  induction k generalizing rest with
  | zero => rfl
  | succ k ih =>
    have hitems : items F (n + 2 * k + 2) (brackets k (']' :: rest)) = some ([arrays k], rest) := by
      rw [items, ih]
      rfl
    have hstep : value F (n + 2 * k + 3) ('[' :: brackets k (']' :: rest))
        = (items F (n + 2 * k + 2) (brackets k (']' :: rest))).map fun p => (array p.1, p.2) := by
      cases k <;> rfl
    have hfuel : n + 2 * (k + 1) + 1 = n + 2 * k + 3 := by omega
    rw [hfuel, brackets, hstep, hitems]
    rfl

lemma parse_brackets (F : FloatText) (k : ℕ) :
    parse F (String.ofList (brackets k [])) = some (arrays k) := by
  have hfuel : 2 * (brackets k []).length + 1 = 2 * k + 4 + 2 * k + 1 := by
    rw [length_brackets, List.length_nil]
    omega
  rw [parse, String.toList_ofList, parseChars, hfuel, value_brackets]
  rfl

end Json

/-! ### No bound -/

/-- Whatever the bound, each of the three parsers accepts a text that is deeper. -/
theorem nesting_unbounded (F : FloatText) (bound : ℕ) :
    (∃ sql stmt, parse F sql = .ok stmt ∧ bound < stmt.depth) ∧
    (∃ text j, Json.parse F text = some j ∧ bound < j.depth) ∧
    (∃ text q, Fts.parseQuery text = .ok q ∧ bound < q.depth) := by
  refine ⟨⟨_, _, parse_nots F bound, ?_⟩, ⟨_, _, Json.parse_brackets F bound, ?_⟩,
    ⟨_, _, Fts.parseQuery_columns bound, ?_⟩⟩
  · rw [depth_nots]
    omega
  · rw [Json.depth_arrays]
    omega
  · rw [Fts.depth_columnQuery]
    omega

theorem nesting_no_bound : ¬ ∃ bound,
    (∀ sql stmt, parse FloatText.bits sql = .ok stmt → stmt.depth ≤ bound) ∧
    (∀ text j, Json.parse FloatText.bits text = some j → j.depth ≤ bound) ∧
    (∀ text q, Fts.parseQuery text = .ok q → q.depth ≤ bound) := by
  rintro ⟨bound, hsql, -, -⟩
  have hdepth := hsql _ _ (parse_nots FloatText.bits bound)
  rw [depth_nots] at hdepth
  omega

end Arkeion.Sql
