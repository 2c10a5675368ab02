import Arkeion.Sql.NumberText

/-!
JSON: values, their text, the parser, and the functions of SQL that make and read JSON.

The parser takes fuel, of which the length of a text is enough.
-/

namespace Arkeion.Sql

open Arkeion.Lib

/-- An object keeps its members in order, also those with the same key. -/
inductive Json where
  | null
  | bool (b : Bool)
  | int (n : Int64)
  | float (f : F64)
  | str (s : String)
  | array (items : List Json)
  | object (members : List (String × Json))

namespace Json

/-! ### Writing -/

def hexChar (d : ℕ) : Char := if d < 10 then Char.ofNat (48 + d) else Char.ofNat (87 + d)

/-- `{:04x}` -/
def hex4 (n : ℕ) : List Char :=
  [hexChar (n / 4096 % 16), hexChar (n / 256 % 16), hexChar (n / 16 % 16), hexChar (n % 16)]

def escape (c : Char) : List Char :=
  if c = '"' then ['\\', '"']
  else if c = '\\' then ['\\', '\\']
  else if c = '\n' then ['\\', 'n']
  else if c = '\t' then ['\\', 't']
  else if c = '\r' then ['\\', 'r']
  else if c.toNat < 0x20 then '\\' :: 'u' :: hex4 c.toNat
  else [c]

def writeStr (s : String) : List Char := '"' :: (s.toList.flatMap escape ++ ['"'])

section Write
variable (F : FloatText)

mutual

def write : Json → List Char
  | null => ['n', 'u', 'l', 'l']
  | bool true => ['t', 'r', 'u', 'e']
  | bool false => ['f', 'a', 'l', 's', 'e']
  | int n => i64Text n
  | float f => F.debug f
  | str s => writeStr s
  | array items => '[' :: (writeItems items ++ [']'])
  | object members => '\x7b' :: (writeMembers members ++ ['\x7d'])

def writeItems : List Json → List Char
  | [] => []
  | [j] => write j
  | j :: k :: js => write j ++ ',' :: writeItems (k :: js)

def writeMembers : List (String × Json) → List Char
  | [] => []
  | [(k, j)] => writeStr k ++ ':' :: write j
  | (k, j) :: m :: ms => writeStr k ++ ':' :: (write j ++ ',' :: writeMembers (m :: ms))

end

def toString (j : Json) : String := String.ofList (write F j)

end Write

/-! ### The parser -/

def isWs (c : Char) : Bool := c == ' ' || c == '\t' || c == '\n' || c == '\r'

def skipWs (cs : List Char) : List Char := cs.dropWhile isWs

/-- `lit`: the word in front is the value. -/
def lit : List Char → Json → List Char → Option (Json × List Char)
  | [], val, cs => some (val, cs)
  | _ :: _, _, [] => none
  | ch :: word, val, c :: cs => if c = ch then lit word val cs else none

/-- `to_digit(16)` -/
def hexDigit? (c : Char) : Option ℕ :=
  if 48 ≤ c.toNat ∧ c.toNat ≤ 57 then some (c.toNat - 48)
  else if 97 ≤ c.toNat ∧ c.toNat ≤ 102 then some (c.toNat - 87)
  else if 65 ≤ c.toNat ∧ c.toNat ≤ 70 then some (c.toNat - 55)
  else none

/-- `char::from_u32` of four hexadecimal digits. -/
def unicodeEscape (a b c d : Char) : Option Char :=
  (hexDigit? a).bind fun a => (hexDigit? b).bind fun b => (hexDigit? c).bind fun c =>
    (hexDigit? d).bind fun d =>
      let code := ((a * 16 + b) * 16 + c) * 16 + d
      if code.isValidChar then some (Char.ofNat code) else none

def unescape? (e : Char) : Option Char :=
  if e = '"' then some '"'
  else if e = '\\' then some '\\'
  else if e = '/' then some '/'
  else if e = 'n' then some '\n'
  else if e = 't' then some '\t'
  else if e = 'r' then some '\r'
  else if e = 'b' then some (Char.ofNat 8)
  else if e = 'f' then some (Char.ofNat 12)
  else none

/-- `string`, behind the opening quote. -/
def stringBody : List Char → Option (List Char × List Char)
  | [] => none
  | '"' :: cs => some ([], cs)
  | '\\' :: 'u' :: w :: x :: y :: z :: cs => (unicodeEscape w x y z).bind fun ch =>
    (stringBody cs).map fun p => (ch :: p.1, p.2)
  | '\\' :: e :: cs => (unescape? e).bind fun ch => (stringBody cs).map fun p => (ch :: p.1, p.2)
  | ['\\'] => none
  | c :: cs => (stringBody cs).map fun p => (c :: p.1, p.2)

def takeMinus : List Char → List Char × List Char
  | '-' :: cs => (['-'], cs)
  | cs => ([], cs)

def takeFraction : List Char → List Char × List Char
  | '.' :: cs => ('.' :: (spanDigits cs).1, (spanDigits cs).2)
  | cs => ([], cs)

def takeSign : List Char → List Char × List Char
  | '+' :: cs => (['+'], cs)
  | '-' :: cs => (['-'], cs)
  | cs => ([], cs)

def takeExponent : List Char → List Char × List Char
  | 'e' :: cs => ('e' :: ((takeSign cs).1 ++ (spanDigits (takeSign cs).2).1),
    (spanDigits (takeSign cs).2).2)
  | 'E' :: cs => ('E' :: ((takeSign cs).1 ++ (spanDigits (takeSign cs).2).1),
    (spanDigits (takeSign cs).2).2)
  | cs => ([], cs)

section Parser
variable (F : FloatText)

def readNumber (text : List Char) (is_float : Bool) : Option Json :=
  if is_float then (F.parse text).map float
  else ((parseI64 text).map int).or ((F.parse text).map float)

def number (cs : List Char) : Option (Json × List Char) :=
  let minus := takeMinus cs
  let digits := spanDigits minus.2
  let frac := takeFraction digits.2
  let exp := takeExponent frac.2
  (readNumber F (minus.1 ++ (digits.1 ++ (frac.1 ++ exp.1))) (!(frac.1 ++ exp.1).isEmpty)).map
    fun j => (j, exp.2)

mutual

def value : ℕ → List Char → Option (Json × List Char)
  | 0, _ => none
  | n + 1, cs =>
    match skipWs cs with
    | [] => none
    | c :: cs =>
      if c = '\x7b' then
        match skipWs cs with
        | '\x7d' :: rest => some (object [], rest)
        | cs => (members n cs).map fun p => (object p.1, p.2)
      else if c = '[' then
        match skipWs cs with
        | ']' :: rest => some (array [], rest)
        | cs => (items n cs).map fun p => (array p.1, p.2)
      else if c = '"' then (stringBody cs).map fun p => (str (String.ofList p.1), p.2)
      else if c = 't' then lit ['t', 'r', 'u', 'e'] (bool true) (c :: cs)
      else if c = 'f' then lit ['f', 'a', 'l', 's', 'e'] (bool false) (c :: cs)
      else if c = 'n' then lit ['n', 'u', 'l', 'l'] null (c :: cs)
      else if c = '-' ∨ isDigit c then number F (c :: cs)
      else none

/-- The loop of `array`. -/
def items : ℕ → List Char → Option (List Json × List Char)
  | 0, _ => none
  | n + 1, cs => (value n cs).bind fun p =>
    match skipWs p.2 with
    | ',' :: cs => (items n cs).map fun q => (p.1 :: q.1, q.2)
    | ']' :: cs => some ([p.1], cs)
    | _ => none

/-- The loop of `object`. -/
def members : ℕ → List Char → Option (List (String × Json) × List Char)
  | 0, _ => none
  | n + 1, cs =>
    match skipWs cs with
    | '"' :: cs => (stringBody cs).bind fun k =>
      match skipWs k.2 with
      | ':' :: cs => (value n cs).bind fun p =>
        match skipWs p.2 with
        | ',' :: cs => (members n cs).map fun q => ((String.ofList k.1, p.1) :: q.1, q.2)
        | '\x7d' :: cs => some ([(String.ofList k.1, p.1)], cs)
        | _ => none
      | _ => none
    | _ => none

end

def parseChars (cs : List Char) : Option Json :=
  (value F (2 * cs.length + 1) cs).bind fun p => if skipWs p.2 = [] then some p.1 else none

def parse (s : String) : Option Json := parseChars F s.toList

end Parser

/-! ### Paths -/

/-- `parse::<usize>()` -/
def parseUsize (text : List Char) : Option ℕ :=
  let ds := match text with
    | '+' :: ds => ds
    | ds => ds
  if ds = [] then none else (readDigits ds).bind fun n => if n < 2 ^ 64 then some n else none

def isStep (c : Char) : Bool := c == '.' || c == '['

def member? (key : String) : Json → Option Json
  | object ms => (ms.find? fun m => m.1 == key).map Prod.snd
  | _ => none

def item? (idx : ℕ) : Json → Option Json
  | array js => js[idx]?
  | _ => none

/-- The loop of `extract`. -/
def extractFrom (cur : Json) : List Char → Option Json
  | [] => some cur
  | c :: cs =>
    if c = '.' then
      (member? (String.ofList (cs.takeWhile fun c => !isStep c)) cur).bind fun next =>
        extractFrom next (cs.dropWhile fun c => !isStep c)
    else if c = '[' then
      (parseUsize (cs.takeWhile fun c => c != ']')).bind fun idx => (item? idx cur).bind fun next =>
        extractFrom next ((cs.dropWhile fun c => c != ']').drop 1)
    else none
  termination_by cs => cs.length
  decreasing_by
    · exact Nat.lt_succ_of_le (cs.dropWhile_sublist _).length_le
    · rw [List.length_drop]
      exact Nat.lt_succ_of_le ((Nat.sub_le _ _).trans (cs.dropWhile_sublist _).length_le)

def extract (root : Json) (path : List Char) : Option Json :=
  match path with
  | '$' :: cs => extractFrom root cs
  | _ => none

end Json

/-! ### The functions of SQL -/

def valueToJson : Value → Result Json
  | .null => .ok .null
  | .bool b => .ok (.bool b)
  | .integer n => .ok (.int n)
  | .real f => .ok (.float f)
  | .text s => .ok (.str s)
  | .blob _ => .error (.sql "JSON no admite BLOB")

section Functions
variable (F : FloatText)

/-- `value_text`: a cast to TEXT. -/
def valueText : Value → Option String
  | .null => none
  | .bool b => some (if b then "TRUE" else "FALSE")
  | .integer n => some (String.ofList (i64Text n))
  | .real f => some (String.ofList (F.debug f))
  | .text s => some s
  | .blob b => fromUtf8 b

def jsonToValue : Json → Value
  | .null => .null
  | .bool b => .integer (if b then 1 else 0)
  | .int n => .integer n
  | .float f => .real f
  | .str s => .text s
  | j => .text (j.toString F)

def objectKey : Value → Result String
  | .null => .error (.sql "json_object(): la clave no puede ser NULL")
  | v => okOr (valueText F v) (.sql s!"json_object() requiere TEXT, no {v.typeName}")

/-- The pairs of `json_object`. -/
def objectMembers : List Value → Result (List (String × Json))
  | k :: v :: args => do
    let key ← objectKey F k
    let j ← valueToJson v
    let rest ← objectMembers args
    .ok ((key, j) :: rest)
  | _ => .ok []

/-- What `json_object` makes a text of. -/
def objectTree (args : List Value) : Result Json := do
  require (args.length % 2 = 0) (.sql "json_object() requiere pares clave/valor")
  let ms ← objectMembers F args
  .ok (.object ms)

def arrayItems : List Value → Result (List Json)
  | [] => .ok []
  | v :: args => do
    let j ← valueToJson v
    let rest ← arrayItems args
    .ok (j :: rest)

/-- What `json_array` makes a text of. -/
def arrayTree (args : List Value) : Result Json := do
  let js ← arrayItems args
  .ok (.array js)

/-- What `json_quote` makes a text of. -/
def quoteTree : List Value → Result Json
  | [v] => valueToJson v
  | _ => .error (.sql "número de argumentos inválido para json_quote()")

def jsonText (tree : Result Json) : Result Value := do
  let j ← tree
  .ok (.text (j.toString F))

def jsonObject (args : List Value) : Result Value := jsonText F (objectTree F args)

def jsonArray (args : List Value) : Result Value := jsonText F (arrayTree args)

def jsonQuote (args : List Value) : Result Value := jsonText F (quoteTree args)

/-- A key is a path, or stands for the path of one step to it. -/
def arrowPath : Value → Result (List Char)
  | .integer n => .ok ('$' :: '[' :: (i64Text n ++ [']']))
  | .text s => .ok (if s.toList.head? = some '$' then s.toList else '$' :: '.' :: s.toList)
  | v => .error (.sql s!"la clave de ->/->> debe ser texto o entero, no {v.typeName}")

def arrowText : Value → Result String
  | .text s => .ok s
  | v => .error (.sql s!"->/->> requieren TEXT JSON a la izquierda, no {v.typeName}")

def jsonArrow (op : BinOp) (doc key : Value) : Result Value :=
  if doc = .null ∨ key = .null then .ok .null
  else do
    let text ← arrowText doc
    let path ← arrowPath key
    let root ← okOr (Json.parse F text) (.sql "->/->>: JSON inválido")
    match root.extract path with
    | none => .ok .null
    | some node => .ok (if op = .jsonGet then .text (node.toString F) else jsonToValue F node)

end Functions

end Arkeion.Sql
