import Arkeion.Fts.Query
import Arkeion.Sql.Parser

/-!
The text of a full text search read as a query, and how deep it is.

The parser has no bound of its own: each parenthesis and each column in front of another is a call
within the call. The fuel of the model is the number of tokens.
-/

namespace Arkeion.Fts

open Arkeion.Lib

inductive QTok where
  | word (w : String)
  | phrase (content : String)
  | lParen | rParen | comma | colon | star | and_ | or_ | not_ | near
  deriving DecidableEq, Repr

def DEFAULT_NEAR : ℕ := 10

section Parser
variable {α : Type}

def err (msg : String) : Result α := .error (.sql s!"consulta MATCH inválida: {msg}")

/-! ### Tokens -/

def mark? (c : Char) : Option QTok :=
  if c = '(' then some .lParen
  else if c = ')' then some .rParen
  else if c = ',' then some .comma
  else if c = ':' then some .colon
  else if c = '*' then some .star
  else none

/-- What cuts a word, besides blanks. -/
def isSpecial (c : Char) : Bool := (mark? c).isSome || c == '"'

def inWord (c : Char) : Bool := !Sql.Parse.isWhitespace c && !isSpecial c

/-- Operators are in capitals. -/
def wordTok (w : List Char) : QTok :=
  if w = ['A', 'N', 'D'] then .and_
  else if w = ['O', 'R'] then .or_
  else if w = ['N', 'O', 'T'] then .not_
  else if w = ['N', 'E', 'A', 'R'] then .near
  else .word (String.ofList w)

def lexQuery : ℕ → List Char → Result (List QTok)
  | _, [] => .ok []
  | 0, _ => .error .outOfFuel
  | n + 1, c :: cs =>
    if Sql.Parse.isWhitespace c then lexQuery n cs
    else match mark? c with
      | some t => List.cons t <$> lexQuery n cs
      | none =>
        if c = '"' then
          match cs.dropWhile (· ≠ '"') with
          | [] => err "comilla de frase sin cerrar"
          | _ :: rest => List.cons (.phrase (String.ofList (cs.takeWhile (· ≠ '"')))) <$> lexQuery n rest
        else List.cons (wordTok ((c :: cs).takeWhile inWord)) <$> lexQuery n ((c :: cs).dropWhile inWord)

/-! ### Operators -/

abbrev Read := List QTok → Result (Query × List QTok)

section Loops
variable (e : Read)

def notLoop : ℕ → Query → Read
  | 0, _, _ => .error .outOfFuel
  | n + 1, left, .not_ :: ts => do
    let r ← e ts
    notLoop n (.not left r.1) r.2
  | _ + 1, left, ts => .ok (left, ts)

def notExpr : Read := fun ts => do
  let r ← e ts
  notLoop e (r.2.length + 1) r.1 r.2

def startsPrimary : List QTok → Bool
  | .word _ :: _ | .phrase _ :: _ | .lParen :: _ | .near :: _ => true
  | _ => false

/-- Two in a row are a conjunction as well. -/
def andLoop : ℕ → Query → Read
  | 0, _, _ => .error .outOfFuel
  | n + 1, left, .and_ :: ts => do
    let r ← notExpr e ts
    andLoop n (.and left r.1) r.2
  | n + 1, left, ts =>
    if startsPrimary ts then do
      let r ← notExpr e ts
      andLoop n (.and left r.1) r.2
    else .ok (left, ts)

def andExpr : Read := fun ts => do
  let r ← notExpr e ts
  andLoop e (r.2.length + 1) r.1 r.2

def orLoop : ℕ → Query → Read
  | 0, _, _ => .error .outOfFuel
  | n + 1, left, .or_ :: ts => do
    let r ← andExpr e ts
    orLoop n (.or left r.1) r.2
  | _ + 1, left, ts => .ok (left, ts)

def orExpr : Read := fun ts => do
  let r ← andExpr e ts
  orLoop e (r.2.length + 1) r.1 r.2

end Loops

/-! ### Terms -/

/-- `parse::<u32>()` -/
def parseU32 (text : List Char) : Option ℕ :=
  let ds := match text with
    | '+' :: ds => ds
    | ds => ds
  if ds = [] then none else (readDigits ds).bind fun n => if n < 2 ^ 32 then some n else none

/-- The words in front. -/
def words : List QTok → List String × List QTok
  | .word w :: ts => (w :: (words ts).1, (words ts).2)
  | ts => ([], ts)

def nearDistance : List QTok → Result (ℕ × List QTok)
  | .comma :: .word w :: ts => match parseU32 w.toList with
    | some n => .ok (n, ts)
    | none => err "la distancia de NEAR debe ser un entero"
  | .comma :: _ => err "se esperaba la distancia tras ',' en NEAR"
  | ts => .ok (DEFAULT_NEAR, ts)

/-- Behind `NEAR`. -/
def near : Read
  | .lParen :: ts => do
    let terms := words ts
    if terms.1.length < 2 then err "NEAR necesita al menos dos términos"
    else do
      let d ← nearDistance terms.2
      match d.2 with
      | .rParen :: ts => .ok (.near terms.1 d.1, ts)
      | _ => err "falta ')' en NEAR"
  | _ => err "NEAR requiere '(' "

/-- `split_whitespace` -/
def splitWhitespace : List Char → List (List Char)
  | [] => []
  | c :: cs =>
    if Sql.Parse.isWhitespace c then splitWhitespace cs
    else match splitWhitespace cs, cs.head? with
      | w :: ws, some d => if Sql.Parse.isWhitespace d then [c] :: w :: ws else (c :: w) :: ws
      | ws, _ => [c] :: ws

def primary : ℕ → Read
  | 0, _ => .error .outOfFuel
  | n + 1, .lParen :: ts => do
    let r ← orExpr (primary n) ts
    match r.2 with
    | .rParen :: ts => .ok (r.1, ts)
    | _ => err "falta ')'"
  | _ + 1, .near :: ts => near ts
  | _ + 1, .phrase content :: ts =>
    .ok (.phrase ((splitWhitespace content.toList).map String.ofList), ts)
  | n + 1, .word w :: .colon :: ts => do
    let r ← primary n ts
    .ok (.column w r.1, r.2)
  | _ + 1, .word w :: .star :: ts => .ok (.term w true, ts)
  | _ + 1, .word w :: ts => .ok (.term w false, ts)
  | _ + 1, _ => err "se esperaba un término"

def parseQuery (input : String) : Result Query := do
  let toks ← lexQuery input.toList.length input.toList
  let r ← orExpr (primary (toks.length + 1)) toks
  if r.2 = [] then .ok r.1 else err "token inesperado al final de la consulta MATCH"

end Parser

example : parseQuery "a OR b c*" = .ok (.or (.term "a" false) (.and (.term "b" false) (.term "c" true))) := by
  decide +kernel

/-! ### Depth -/

def Query.depth : Query → ℕ
  | .term .. | .phrase _ | .near .. => 1
  | .column _ q => 1 + q.depth
  | .and a b | .or a b | .not a b => 1 + max a.depth b.depth

/-- A column in front of a column, and so on. -/
def columns : ℕ → List Char
  | 0 => ['a']
  | k + 1 => 'a' :: ':' :: columns k

def columnToks : ℕ → List QTok
  | 0 => [.word "a"]
  | k + 1 => .word "a" :: .colon :: columnToks k

def columnQuery : ℕ → Query
  | 0 => .term "a" false
  | k + 1 => .column "a" (columnQuery k)

section Columns
variable {k n : ℕ}

lemma length_columns (k : ℕ) : (columns k).length = 2 * k + 1 := by
  induction k with
  | zero => rfl
  | succ k ih =>
    rw [columns, List.length_cons, List.length_cons, ih]
    omega

lemma length_columnToks (k : ℕ) : (columnToks k).length = 2 * k + 1 := by
  induction k with
  | zero => rfl
  | succ k ih =>
    rw [columnToks, List.length_cons, List.length_cons, ih]
    omega

lemma depth_columnQuery (k : ℕ) : (columnQuery k).depth = k + 1 := by
  induction k with
  | zero => rfl
  | succ k ih =>
    rw [columnQuery, Query.depth, ih]
    omega

lemma lexQuery_columns (h : 2 * k + 1 ≤ n) : lexQuery n (columns k) = .ok (columnToks k) := by
  induction k generalizing n with
  | zero =>
    obtain ⟨n, rfl⟩ := Nat.exists_eq_add_of_le h
    rw [Nat.add_comm]
    cases n <;> rfl
  | succ k ih =>
    obtain ⟨n, rfl⟩ := Nat.exists_eq_add_of_le (show 2 ≤ n by omega)
    have hrest := ih (n := n) (by omega)
    have hcolon : lexQuery (n + 1) (':' :: columns k) = List.cons .colon <$> lexQuery n (columns k) := rfl
    have hword : lexQuery (n + 2) ('a' :: ':' :: columns k)
        = List.cons (.word "a") <$> lexQuery (n + 1) (':' :: columns k) := rfl
    rw [Nat.add_comm, columns, hword, hcolon, hrest]
    rfl

lemma primary_columns (h : k < n) : primary n (columnToks k) = .ok (columnQuery k, []) := by
  induction k generalizing n with
  | zero =>
    obtain ⟨n, rfl⟩ := Nat.exists_eq_add_of_le h
    rw [Nat.add_comm]
    rfl
  | succ k ih =>
    obtain ⟨n, rfl⟩ := Nat.exists_eq_succ_of_ne_zero (show n ≠ 0 by omega)
    rw [columnToks, primary, ih (by omega)]
    rfl

/-- What is left behind it is nothing, so that no operator follows. -/
lemma parseQuery_columns (k : ℕ) : parseQuery (String.ofList (columns k)) = .ok (columnQuery k) := by
  have hlex := lexQuery_columns (k := k) (length_columns k).ge
  have hprimary := primary_columns (k := k) (n := (columnToks k).length + 1) (by
    rw [length_columnToks]
    omega)
  have hnot : notExpr (primary ((columnToks k).length + 1)) (columnToks k) = .ok (columnQuery k, []) := by
    rw [notExpr, hprimary]
    rfl
  have hand : andExpr (primary ((columnToks k).length + 1)) (columnToks k) = .ok (columnQuery k, []) := by
    rw [andExpr, hnot]
    rfl
  have hor : orExpr (primary ((columnToks k).length + 1)) (columnToks k) = .ok (columnQuery k, []) := by
    rw [orExpr, hand]
    rfl
  rw [parseQuery, String.toList_ofList, hlex, ok_bind, hor]
  rfl

end Columns

end Arkeion.Fts
