import Arkeion.Lib.Utf8
import Arkeion.Sql.Json

/-!
The tokens of a statement. A character outside ASCII counts as a letter.
-/

namespace Arkeion.Sql

open Arkeion.Lib

inductive Kw where
  | add | after | all | alter | and_ | as_ | asc | before | begin_ | between | blob | boolean | by_
  | cascade | case_ | cast | check | column | columns | commit | conflict | create | current
  | default_ | do_ | delete | desc | distinct | drop | each | else_ | end_ | except | exists_
  | false_ | first | for_ | foreign | from_ | fulltext | group | having | if_ | in_ | index | inner
  | insert | instead | integer | intersect | into | is_ | join | key | left | like | limit | lists
  | match_ | move | not_ | nothing | null | following | of_ | offset | on_ | or_ | order | over
  | partition | preceding | primary | probes | real | rebuild | recursive | rerank | references
  | release | rename | reorder | restrict | returning | rollback | row | rows | savepoint | select
  | set | statement | table | text | then_ | timestamp | to_ | trigger | true_ | unbounded | union
  | unique | update | using_ | values | vector | version | view | when | where_ | with_
  deriving DecidableEq, Repr

inductive Tok where
  | ident (name : String)
  | kw (k : Kw)
  | int (n : Int64)
  | float (f : F64)
  | str (s : String)
  | blob (b : Bytes)
  | param (n : ℕ)
  | namedParam (name : String)
  | eq | ne | lt | le | gt | ge | plus | minus | star | slash | percent | concat | arrow | arrowArrow
  | lParen | rParen | comma | semi | dot
  deriving DecidableEq, Repr

def keywords : List (String × Kw) :=
  [("ADD", .add), ("AFTER", .after), ("ALL", .all), ("ALTER", .alter), ("AND", .and_),
   ("AS", .as_), ("ASC", .asc), ("BEFORE", .before), ("BEGIN", .begin_), ("BETWEEN", .between),
   ("BLOB", .blob), ("BOOLEAN", .boolean), ("BY", .by_), ("CASCADE", .cascade), ("CASE", .case_),
   ("CAST", .cast), ("CHECK", .check), ("COLUMN", .column), ("COLUMNS", .columns),
   ("COMMIT", .commit), ("CONFLICT", .conflict), ("CREATE", .create), ("CURRENT", .current),
   ("DEFAULT", .default_), ("DO", .do_), ("DELETE", .delete), ("DESC", .desc),
   ("DISTINCT", .distinct), ("DROP", .drop), ("EACH", .each), ("ELSE", .else_), ("END", .end_),
   ("EXCEPT", .except), ("EXISTS", .exists_), ("FALSE", .false_), ("FIRST", .first),
   ("FOLLOWING", .following), ("FOR", .for_), ("FOREIGN", .foreign), ("FROM", .from_),
   ("FULLTEXT", .fulltext), ("GROUP", .group), ("HAVING", .having), ("IF", .if_), ("IN", .in_),
   ("INDEX", .index), ("INNER", .inner), ("INSERT", .insert), ("INSTEAD", .instead),
   ("INTEGER", .integer), ("INTERSECT", .intersect), ("INTO", .into), ("IS", .is_),
   ("JOIN", .join), ("KEY", .key), ("LEFT", .left), ("LIKE", .like), ("LIMIT", .limit),
   ("LISTS", .lists), ("MATCH", .match_), ("MOVE", .move), ("NOT", .not_), ("NOTHING", .nothing),
   ("NULL", .null), ("OF", .of_), ("OFFSET", .offset), ("ON", .on_), ("OR", .or_),
   ("ORDER", .order), ("OVER", .over), ("PARTITION", .partition), ("PRECEDING", .preceding),
   ("PRIMARY", .primary), ("PROBES", .probes), ("REAL", .real), ("REBUILD", .rebuild),
   ("RECURSIVE", .recursive), ("RERANK", .rerank), ("REFERENCES", .references),
   ("RELEASE", .release), ("RENAME", .rename), ("REORDER", .reorder), ("RESTRICT", .restrict),
   ("RETURNING", .returning), ("ROLLBACK", .rollback), ("ROW", .row), ("ROWS", .rows),
   ("SAVEPOINT", .savepoint), ("SELECT", .select), ("SET", .set), ("STATEMENT", .statement),
   ("TABLE", .table), ("TEXT", .text), ("THEN", .then_), ("TIMESTAMP", .timestamp), ("TO", .to_),
   ("TRIGGER", .trigger), ("TRUE", .true_), ("UNBOUNDED", .unbounded), ("UNION", .union),
   ("UNIQUE", .unique), ("UPDATE", .update), ("USING", .using_), ("VALUES", .values),
   ("VECTOR", .vector), ("VERSION", .version), ("VIEW", .view), ("WHEN", .when),
   ("WHERE", .where_), ("WITH", .with_)]

/-- The keyword a word is, in any case. -/
def keyword (word : List Char) : Option Kw :=
  (keywords.find? fun k => k.1.toList == word.map Char.toUpper).map Prod.snd

structure Spanned where
  tok : Tok
  pos : ℕ
  deriving DecidableEq, Repr

/-! ### Classes of characters -/

def isBlank (c : Char) : Bool := c == ' ' || c == '\t' || c == '\r' || c == '\n'

def isWordStart (c : Char) : Bool := c.isAlpha || c == '_' || 0x80 ≤ c.toNat

def isWordChar (c : Char) : Bool := c.isAlphanum || c == '_' || 0x80 ≤ c.toNat

/-- Of a named parameter: without the characters outside ASCII. -/
def isNameChar (c : Char) : Bool := c.isAlphanum || c == '_'

/-! ### Quoted texts -/

/-- Up to the closing quote; a doubled one stands for itself. -/
def lexQuoted (q : Char) : List Char → Option (List Char × List Char)
  | c :: d :: cs =>
    if c = q then
      if d = q then (lexQuoted q cs).map fun p => (q :: p.1, p.2) else some ([], d :: cs)
    else (lexQuoted q (d :: cs)).map fun p => (c :: p.1, p.2)
  | [c] => if c = q then some ([], []) else none
  | [] => none

def lexString (cs : List Char) : Result (List Char × List Char) :=
  okOr (lexQuoted '\'' cs) (.sql "cadena sin cerrar")

def lexQuotedIdent (cs : List Char) : Result (Tok × List Char) := do
  let p ← okOr (lexQuoted '"' cs) (.sql "identificador entre comillas sin cerrar")
  require (p.1 ≠ []) (.sql "identificador entre comillas vacío")
  .ok (.ident (String.ofList p.1), p.2)

/-- Pairs of hexadecimal digits. -/
def hexBytes : List Char → Option Bytes
  | [] => some []
  | [_] => none
  | a :: b :: cs => (Json.hexDigit? a).bind fun a => (Json.hexDigit? b).bind fun b =>
    (hexBytes cs).map fun bs => UInt8.ofNat (16 * a + b) :: bs

def lexBlob (cs : List Char) : Result (Tok × List Char) := do
  let p ← lexString cs
  let b ← okOr (hexBytes p.1) (.sql "literal de blob inválido: usa x'AABB…'")
  .ok (.blob b, p.2)

/-! ### Numbers, parameters and words -/

/-- A point with the digits behind it; a letter behind it is left to stand. -/
def lexFraction : List Char → List Char × List Char
  | '.' :: cs =>
    if cs.head?.any Char.isAlpha then ([], '.' :: cs)
    else ('.' :: (spanDigits cs).1, (spanDigits cs).2)
  | cs => ([], cs)

/-- An exponent, if it has digits. -/
def lexExponent : List Char → List Char × List Char
  | [] => ([], [])
  | c :: cs =>
    if (c = 'e' ∨ c = 'E') ∧ (spanDigits (Json.takeSign cs).2).1 ≠ [] then
      (c :: ((Json.takeSign cs).1 ++ (spanDigits (Json.takeSign cs).2).1),
        (spanDigits (Json.takeSign cs).2).2)
    else ([], c :: cs)

def lexParam (cs : List Char) : Result (Tok × List Char) := do
  require ((spanDigits cs).1 ≠ []) (.sql "parámetro sin número: usa ?1, ?2, …")
  let n ← okOr (Json.parseUsize (spanDigits cs).1) (.sql "número de parámetro demasiado grande")
  require (n ≠ 0) (.sql "los parámetros empiezan en ?1")
  .ok (.param n, (spanDigits cs).2)

def lexNamedParam (cs : List Char) : Result (Tok × List Char) := do
  require (cs.head?.any fun c => c.isAlpha || c == '_') (.sql "parámetro nombrado sin nombre: usa :nombre")
  .ok (.namedParam (String.ofList (cs.takeWhile isNameChar)), cs.dropWhile isNameChar)

def lexWord (cs : List Char) : Tok × List Char :=
  (match keyword (cs.takeWhile isWordChar) with
    | some k => .kw k
    | none => .ident (String.ofList (cs.takeWhile isWordChar)),
  cs.dropWhile isWordChar)

section Lex
variable (F : FloatText)

def lexNumber (cs : List Char) : Result (Tok × List Char) :=
  let digits := spanDigits cs
  let frac := lexFraction digits.2
  let exp := lexExponent frac.2
  let text := digits.1 ++ (frac.1 ++ exp.1)
  if frac.1 ++ exp.1 = [] then do
    let n ← okOr (parseI64 text) (.sql "entero fuera de rango (i64)")
    .ok (.int n, exp.2)
  else do
    let f ← okOr (F.parse text) (.sql "literal real inválido")
    .ok (.float f, exp.2)

/-! ### Tokens -/

/-- The signs, the longer ones first. -/
def lexSign (c : Char) (cs : List Char) : Option (Tok × List Char) :=
  match c, cs with
  | '-', '>' :: '>' :: cs => some (.arrowArrow, cs)
  | '-', '>' :: cs => some (.arrow, cs)
  | '(', cs => some (.lParen, cs)
  | ')', cs => some (.rParen, cs)
  | ',', cs => some (.comma, cs)
  | ';', cs => some (.semi, cs)
  | '.', cs => some (.dot, cs)
  | '+', cs => some (.plus, cs)
  | '-', cs => some (.minus, cs)
  | '*', cs => some (.star, cs)
  | '/', cs => some (.slash, cs)
  | '%', cs => some (.percent, cs)
  | '=', cs => some (.eq, cs)
  | '|', '|' :: cs => some (.concat, cs)
  | '!', '=' :: cs => some (.ne, cs)
  | '<', '=' :: cs => some (.le, cs)
  | '<', '>' :: cs => some (.ne, cs)
  | '<', cs => some (.lt, cs)
  | '>', '=' :: cs => some (.ge, cs)
  | '>', cs => some (.gt, cs)
  | _, _ => none

def asToken (p : Tok × List Char) : Option Tok × List Char := (some p.1, p.2)

/-- What a text begins with: a token, or a blank or a comment. -/
def lexToken (c : Char) (cs : List Char) : Result (Option Tok × List Char) :=
  if isBlank c then .ok (none, cs)
  else if c = '-' ∧ cs.head? = some '-' then .ok (none, cs.dropWhile fun c => c != '\n')
  else if c = '?' then asToken <$> lexParam cs
  else if c = ':' then asToken <$> lexNamedParam cs
  else if c = '\'' then (fun p => (some (.str (String.ofList p.1)), p.2)) <$> lexString cs
  else if c = '"' then asToken <$> lexQuotedIdent cs
  else if (c = 'x' ∨ c = 'X') ∧ cs.head? = some '\'' then asToken <$> lexBlob cs.tail
  else if isDigit c then asToken <$> lexNumber F (c :: cs)
  else if isWordStart c then .ok (asToken (lexWord (c :: cs)))
  else asToken <$> okOr (lexSign c cs) (.sql "carácter inesperado")

/-- The loop of `lex`; a token stands where the rest of the text begins. -/
def lexFrom (end_ : ℕ) : ℕ → List Char → Result (List Spanned)
  | _, [] => .ok []
  | 0, _ :: _ => .error .outOfFuel
  | n + 1, c :: cs => do
    let p ← lexToken F c cs
    let toks ← lexFrom end_ n p.2
    .ok ((p.1.map fun t => ⟨t, end_ - charsLen (c :: cs)⟩).toList ++ toks)

def lexChars (cs : List Char) : Result (List Spanned) := lexFrom F (charsLen cs) cs.length cs

def lex (sql : String) : Result (List Spanned) := lexChars F sql.toList

end Lex

end Arkeion.Sql
