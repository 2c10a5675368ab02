import Arkeion.Fts.MinWindow
import Arkeion.Sql.DatetimeChecked
import Arkeion.Sql.Quote

/-!
The scalar functions of a query, with the checks that a debug build makes: a sum out of the range of
its word, a place outside of a slice, a number of characters that no text can have, and a branch that
is said not to be reached end the process.

The functions of doubles, the case of letters and the clock are taken from elsewhere.
-/

namespace Arkeion.Sql.Scalar

open Arkeion.Lib Catalog

/-- What the scalar functions take from the machine: doubles as text, a double as an integer, the
functions of one and of two doubles by their names, letters in the other case, the clock, a random
number, and the arithmetic of the components of vectors. -/
structure Host where
  text : FloatText
  toInt : F64 → Int64
  fixed : ℕ → F64 → List Char
  roundTo : F64 → ℕ → F64
  math : String → F64 → F64
  math2 : String → F64 → F64 → F64
  uppercase : String → String
  lowercase : String → String
  now_ms : Int64
  random : Int64
  realF32 : F64 → UInt32
  intF32 : Int64 → UInt32
  scale : List UInt32 → UInt32
  quantized : UInt32 → UInt32 → UInt8
  scaled : UInt32 → UInt8 → UInt32
  distance : String → List (UInt32 × UInt32) → F64

/-- `to_ascii_lowercase` -/
def asciiLower (name : String) : String := String.ofList (name.toList.map Char.toLower)


def zeroReal : F64 := ⟨0⟩

/-- `x < 0.0` -/
def negReal (x : F64) : Bool := x.partialCmp zeroReal == some .lt

def posReal (x : F64) : Bool := x.partialCmp zeroReal == some .gt

section Cast
variable (B : Builtins) (H : Host)

/-! ### Casts -/

def colTypeName : ColType → String
  | .integer => "INTEGER"
  | .real => "REAL"
  | .text => "TEXT"
  | .blob => "BLOB"
  | .boolean => "BOOLEAN"

/-- An integer, or a finite double cut towards zero. -/
def parseInt (s : String) : Option Value :=
  let t := Parse.trimmed s.toList
  match parseI64 t with
  | some n => some (.integer n)
  | none => match H.text.parse t with
    | some f => if f.Finite then some (.integer (H.toInt f)) else none
    | none => none

def castError (v : Value) (to_ : ColType) : Error :=
  .sql s!"no se puede convertir {v.typeName} a {colTypeName to_}"

def castInteger : Value → Result Value
  | .integer n => .ok (.integer n)
  | .bool b => .ok (.integer (if b then 1 else 0))
  | .real f =>
    if f.IsNaN then .error (.sql "no se puede convertir NaN a INTEGER")
    else .ok (.integer (H.toInt f))
  | .text s => okOr (parseInt H s) (castError (.text s) .integer)
  | .blob b => .error (castError (.blob b) .integer)
  | .null => unreachable

def castReal : Value → Result Value
  | .real f => .ok (.real f)
  | .integer n => .ok (.real (B.ofInt n))
  | .bool b => .ok (.real (B.ofInt (if b then 1 else 0)))
  | .text s => do
    let f ← okOr (H.text.parse (Parse.trimmed s.toList)) (castError (.text s) .real)
    .ok (.real f)
  | .blob b => .error (castError (.blob b) .real)
  | .null => unreachable

def castText : Value → Result Value
  | .text s => .ok (.text s)
  | .integer n => .ok (.text (String.ofList (i64Text n)))
  | .real f => .ok (.text (String.ofList (H.text.debug f)))
  | .bool b => .ok (.text (if b then "TRUE" else "FALSE"))
  | .blob b => do
    let s ← okOr (fromUtf8 b) (.sql "CAST de BLOB no-UTF-8 a TEXT")
    .ok (.text s)
  | .null => unreachable

def castBlob : Value → Result Value
  | .blob b => .ok (.blob b)
  | .text s => .ok (.blob (utf8 s))
  | v => .error (castError v .blob)

def castBool : Value → Result Value
  | .bool b => .ok (.bool b)
  | .integer n => .ok (.bool (n != 0))
  | .real f => .ok (.bool (f.magnitude != 0))
  | .text s =>
    let word := asciiLower (String.ofList (Parse.trimmed s.toList))
    if word = "true" ∨ word = "1" then .ok (.bool true)
    else if word = "false" ∨ word = "0" then .ok (.bool false)
    else .error (castError (.text s) .boolean)
  | .blob b => .error (castError (.blob b) .boolean)
  | .null => unreachable

/-- `CAST`. NULL stays NULL. -/
def castValue (v : Value) (to_ : ColType) : Result Value :=
  if v = .null then .ok .null
  else match to_ with
    | .integer => castInteger H v
    | .real => castReal B H v
    | .text => castText H v
    | .blob => castBlob v
    | .boolean => castBool v

def numF64 : Value → Option F64
  | .integer n => some (B.ofInt n)
  | .real f => some f
  | _ => none

end Cast

/-! ### Errors -/

def badArity (lname : String) : Error := .sql s!"número de argumentos inválido para {lname}()"

def needNum (lname : String) (v : Value) : Error :=
  .sql s!"{lname}() requiere un número, no {v.typeName}"

def needText (lname : String) (v : Value) : Error :=
  .sql s!"{lname}() requiere TEXT, no {v.typeName}"

/-! ### Text -/

section Text
variable (B : Builtins) (H : Host) (lname : String)

def caseFn : List Value → Result Value
  | [.null] => .ok .null
  | [.text s] => .ok (.text (if lname = "upper" then H.uppercase s else H.lowercase s))
  | [v] => .error (needText lname v)
  | _ => .error (badArity lname)

def lengthFn : List Value → Result Value
  | [.null] => .ok .null
  | [.text s] => .ok (.integer (Int64.ofNat s.toList.length))
  | [.blob b] => .ok (.integer (Int64.ofNat b.length))
  | [v] => .error (.sql s!"length() requiere TEXT o BLOB, no {v.typeName}")
  | _ => .error (badArity lname)

def trimFn : List Value → Result Value
  | [.null] => .ok .null
  | [.text s] =>
    let left := s.toList.dropWhile Parse.isWhitespace
    let right := (s.toList.reverse.dropWhile Parse.isWhitespace).reverse
    .ok (.text (String.ofList (if lname = "ltrim" then left
      else if lname = "rtrim" then right else Parse.trimmed s.toList)))
  | [v] => .error (needText lname v)
  | _ => .error (badArity lname)

/-- The place of the first character: counted from one, or from the end. -/
def substrFirst (n start : ℤ) : Result ℤ := if start < 0 then addI64 n start else subI64 start 1

/-- The place behind the last. -/
def substrLast (n first : ℤ) : Option ℤ → Result ℤ
  | none => .ok n
  | some l => do
    let last ← addI64 first (max l 0)
    .ok (min last n)

def substr (s : String) (start : ℤ) (len : Option ℤ) : Result Value := do
  let chars := s.toList
  let first ← substrFirst chars.length start
  let last ← substrLast chars.length (max first 0) len
  let out ← slice chars (min (max first 0) (chars.length : ℤ)).toNat
    (min (max last (max first 0)) (chars.length : ℤ)).toNat
  .ok (.text (String.ofList out))

def substrFn : List Value → Result Value
  | .null :: _ => .ok .null
  | [.text s, .integer start] => substr s start.toInt none
  | [.text s, .integer start, .integer len] => substr s start.toInt (some len.toInt)
  | _ => .error (.sql "substr(texto, inicio [, largo]) con enteros")

/-- Each place of `from_`, from the left, replaced by `to_`; `skip` characters of the last place are
still to come. -/
def replaceFrom (from_ to_ : List Char) : ℕ → List Char → List Char
  | _, [] => []
  | skip + 1, _ :: cs => replaceFrom from_ to_ skip cs
  | 0, c :: cs =>
    if from_.isPrefixOf (c :: cs) then to_ ++ replaceFrom from_ to_ (from_.length - 1) cs
    else c :: replaceFrom from_ to_ 0 cs

def replaceFn : List Value → Result Value
  | [.null, _, _] | [_, .null, _] | [_, _, .null] => .ok .null
  | [.text s, .text from_, .text to_] =>
    .ok (.text (if from_ = "" then s
      else String.ofList (replaceFrom from_.toList to_.toList 0 s.toList)))
  | [_, _, _] => .error (.sql "replace(texto, de, a) requiere TEXT")
  | _ => .error (badArity lname)

/-- How many characters come before the first place of `needle`. -/
def findText (needle : List Char) : List Char → Option ℕ
  | [] => if needle = [] then some 0 else none
  | c :: cs => if needle.isPrefixOf (c :: cs) then some 0 else (findText needle cs).map (· + 1)

def instrFn : List Value → Result Value
  | [.null, _] | [_, .null] => .ok .null
  | [.text hay, .text needle] =>
    if needle = "" then .ok (.integer 1)
    else match findText needle.toList hay.toList with
      | none => .ok (.integer 0)
      | some before => do
        let pos ← addI64 before 1
        .ok (.integer (Int64.ofInt pos))
  | [_, _] => .error (.sql "instr(texto, sub) requiere TEXT")
  | _ => .error (badArity lname)

def reverseFn : List Value → Result Value
  | [.null] => .ok .null
  | [.text s] => .ok (.text (String.ofList s.toList.reverse))
  | [v] => .error (needText lname v)
  | _ => .error (badArity lname)

def hexFn : List Value → Result Value
  | [.null] => .ok .null
  | [.text s] => .ok (.text (String.ofList (toHex (utf8 s))))
  | [.blob b] => .ok (.text (String.ofList (toHex b)))
  | [v] => .error (.sql s!"hex() requiere TEXT o BLOB, no {v.typeName}")
  | _ => .error (badArity lname)

def textArg (v : Value) : Result String := okOr (valueText H.text v) (needText lname v)

def concatTexts : List Value → Result String
  | [] => .ok ""
  | v :: args =>
    if v = .null then concatTexts args
    else do
      let s ← textArg H lname v
      let rest ← concatTexts args
      .ok (s ++ rest)

def concatFn (args : List Value) : Result Value :=
  if args = [] then .error (badArity lname)
  else do
    let s ← concatTexts H lname args
    .ok (.text s)

def concatWsFn : List Value → Result Value
  | [] => .error (badArity lname)
  | .null :: _ => .ok .null
  | sep :: rest => do
    let sep ← textArg H lname sep
    let parts ← (rest.filter (· ≠ .null)).mapM (textArg H lname)
    .ok (.text (sep.intercalate parts))

/-- `pad.chars().cycle().take(n)` -/
def cycled (pad : List Char) (n : ℕ) : List Char :=
  (List.range n).map fun i => pad.getD (i % pad.length) ' '

/-- A text of `len` characters, filled up or cut. -/
def padTo (s : String) (len : ℤ) (pad : String) (left : Bool) : Result String := do
  let target := (max len 0).toNat
  let chars := s.toList
  if target ≤ chars.length then do
    let cut ← slice chars 0 target
    .ok (String.ofList cut)
  else if pad = "" then .ok s
  else do
    let missing ← Fts.checkedSub target chars.length
    let padding := String.ofList (cycled pad.toList missing)
    .ok (if left then padding ++ s else s ++ padding)

/-- The text, the length and what to fill up with. -/
def padArgs : List Value → Result (Value × Int64 × String)
  | [s, .integer n] => .ok (s, n, " ")
  | [s, .integer n, p] => do
    let pad ← textArg H lname p
    .ok (s, n, pad)
  | _ :: v :: _ => .error (needNum lname v)
  | _ => .error (badArity lname)

def padFn (args : List Value) : Result Value :=
  if args.head? = some .null then .ok .null
  else do
    let (s, len, pad) ← padArgs H lname args
    let s ← textArg H lname s
    let out ← padTo s len.toInt pad (lname = "lpad")
    .ok (.text out)

def unicodeFn : List Value → Result Value
  | [.null] => .ok .null
  | [.text s] => .ok ((s.toList.head?.map fun c => .integer (Int64.ofNat c.toNat)).getD .null)
  | [v] => .error (needText lname v)
  | _ => .error (badArity lname)

/-- `u32::try_from` and `char::from_u32` -/
def charOf (n : Int64) : Option Char :=
  if 0 ≤ n.toInt ∧ n.toInt.toNat.isValidChar then some (Char.ofNat n.toInt.toNat) else none

def charTexts : List Value → Result (List Char)
  | [] => .ok []
  | .integer n :: args => do
    let c ← okOr (charOf n) (.sql s!"char(): punto de código inválido: {String.ofList (i64Text n)}")
    let rest ← charTexts args
    .ok (c :: rest)
  | v :: _ => .error (needNum lname v)

def charFn (args : List Value) : Result Value := do
  let cs ← charTexts lname args
  .ok (.text (String.ofList cs))

def quoteFn : List Value → Result Value
  | [v] => .ok (.text (String.ofList (sqlQuote H.text v)))
  | _ => .error (badArity lname)

end Text

/-! ### Patterns -/

section Glob

/-- Two characters behind the one at `i` there is the end of a range. -/
def rangeAt (p : List Char) (i : ℕ) : Result Bool :=
  if i + 2 < p.length then do
    let dash ← index p (i + 1)
    if dash = '-' then do
      let hi ← index p (i + 2)
      .ok (hi != ']')
    else .ok false
  else .ok false

/-- The loop over a class from the place `i` on. -/
def classLoop (p : List Char) (ch : Char) : ℕ → ℕ → Bool → Result (ℕ × Bool)
  | 0, _, _ => .error .outOfFuel
  | n + 1, i, matched =>
    if i < p.length then do
      let lo ← index p i
      if lo = ']' then .ok (i, matched)
      else do
        let range ← rangeAt p i
        if range then do
          let hi ← index p (i + 2)
          classLoop p ch n (i + 3) (matched || (lo ≤ ch && ch ≤ hi))
        else classLoop p ch n (i + 1) (matched || lo == ch)
    else .ok (i, matched)

/-- Whether a class has the character, and the pattern behind it. -/
def globClass (p : List Char) (ch : Char) : Result (Bool × List Char) := do
  let negate := p.head? == some '^'
  let (i, matched) ← classLoop p ch (p.length + 1) (if negate then 1 else 0) false
  let rest ← slice p (if i < p.length then i + 1 else i) p.length
  .ok (matched ^^ negate, rest)

/-- `any` over the ends of a text, the whole of it first. -/
def anyTail (f : List Char → Result Bool) : List Char → Result Bool
  | [] => f []
  | c :: s => do
    let hit ← f (c :: s)
    if hit then .ok true else anyTail f s

/-- `*` stands for any characters, `?` for one, a class in brackets for one of it. The fuel is the
length of the pattern. -/
def globMatch : ℕ → List Char → List Char → Result Bool
  | _, [], s => .ok s.isEmpty
  | 0, _ :: _, _ => .error .outOfFuel
  | n + 1, c :: p, s =>
    if c = '*' then anyTail (globMatch n p) s
    else if c = '?' then
      match s with
      | [] => .ok false
      | _ :: s => globMatch n p s
    else if c = '[' then
      match s with
      | [] => .ok false
      | ch :: s => do
        let (matched, rest) ← globClass p ch
        if matched then globMatch n rest s else .ok false
    else if s.head? = some c then globMatch n p s.tail
    else .ok false

def globFn (lname : String) : List Value → Result Value
  | [.null, _] | [_, .null] => .ok .null
  | [.text pat, .text s] => do
    let hit ← globMatch pat.toList.length pat.toList s.toList
    .ok (.bool hit)
  | [_, _] => .error (.sql "glob(patrón TEXT, texto TEXT)")
  | _ => .error (badArity lname)

end Glob

/-! ### `printf` -/

section Printf
variable (B : Builtins) (H : Host)

/-- The flags `-` and `0`, and what follows them. -/
def flags : Bool × Bool → List Char → (Bool × Bool) × List Char
  | (left, zero), c :: cs =>
    if c = '-' then flags (true, zero) cs
    else if c = '0' then flags (left, true) cs
    else ((left, zero), c :: cs)
  | f, [] => (f, [])

/-- A number in digits behind those that make `n`. -/
def digitsFrom : ℕ → List Char → Result (ℕ × List Char)
  | n, [] => .ok (n, [])
  | n, c :: cs =>
    match digit? c with
    | none => .ok (n, c :: cs)
    | some d => do
      let n ← mulU64 n 10
      let n ← addU64 n d
      digitsFrom n cs

def precision (cs : List Char) : Result (Option ℕ × List Char) :=
  if cs.head? = some '.' then do
    let (p, cs) ← digitsFrom 0 cs.tail
    .ok (some p, cs)
  else .ok (none, cs)

def asInt (v : Value) : Result Int64 := do
  let v ← castValue B H v .integer
  match v with
  | .integer n => .ok n
  | _ => .ok 0

/-- An argument by its conversion, and whether it is a number. A precision has 16 bits. -/
def printfOne (conv : Char) (arg : Value) (prec : Option ℕ) : Result (List Char × Bool) :=
  if conv = 'd' ∨ conv = 'i' then do
    let n ← asInt B H arg
    .ok (i64Text n, true)
  else if conv = 'x' then do
    let n ← asInt B H arg
    .ok (Nat.toDigits 16 n.toUInt64.toNat, true)
  else if conv = 'X' then do
    let n ← asInt B H arg
    .ok ((Nat.toDigits 16 n.toUInt64.toNat).map Char.toUpper, true)
  else if conv = 'o' then do
    let n ← asInt B H arg
    .ok (Nat.toDigits 8 n.toUInt64.toNat, true)
  else if conv = 'f' then do
    require (prec.getD 6 < 2 ^ 16) (.panic "Formatting argument out of range")
    .ok (H.fixed (prec.getD 6) ((numF64 B arg).getD zeroReal), true)
  else if conv = 's' then
    let s := ((valueText H.text arg).getD "").toList
    .ok ((prec.map fun p => s.take p).getD s, false)
  else .error (.sql s!"printf(): conversión desconocida %{conv}")

/-- A text of at least `width` characters; zeros come behind the sign. -/
def printfPad (body : List Char) (width : ℕ) (left zero : Bool) : Result (List Char) :=
  if width ≤ body.length then .ok body
  else do
    let fill ← Fts.checkedSub width body.length
    if left then do
      let blanks ← repeatChar ' ' fill
      .ok (body ++ blanks)
    else if zero then do
      let zeros ← repeatChar '0' fill
      .ok (match body with
        | '-' :: digits => '-' :: (zeros ++ digits)
        | '+' :: digits => '+' :: (zeros ++ digits)
        | _ => zeros ++ body)
    else do
      let blanks ← repeatChar ' ' fill
      .ok (blanks ++ body)

/-- The conversion and its argument: the text they give, with the rest of the format and of the
arguments. -/
def printfArg (f : Bool × Bool) (width : ℕ) (prec : Option ℕ) :
    List Char → List Value → Result (List Char × List Char × List Value)
  | [], _ => .error (.sql "printf(): especificador incompleto")
  | _ :: _, [] => .error (.sql "printf(): faltan argumentos para el formato")
  | conv :: cs, arg :: args => do
    let (body, numeric) ← printfOne B H conv arg prec
    let out ← printfPad body width f.1 (f.2 && numeric)
    .ok (out, cs, args)

/-- What stands behind `%`. -/
def printfSpec (cs : List Char) (args : List Value) :
    Result (List Char × List Char × List Value) := do
  let (f, cs) := flags (false, false) cs
  let (width, cs) ← digitsFrom 0 cs
  let (prec, cs) ← precision cs
  printfArg B H f width prec cs args

/-- The loop over the format; its length is fuel enough. -/
def printfLoop : ℕ → List Char → List Value → Result (List Char)
  | _, [], _ => .ok []
  | 0, _ :: _, _ => .error .outOfFuel
  | n + 1, c :: cs, args =>
    if c ≠ '%' then do
      let rest ← printfLoop n cs args
      .ok (c :: rest)
    else if cs.head? = some '%' then do
      let rest ← printfLoop n cs.tail args
      .ok ('%' :: rest)
    else do
      let (out, cs, args) ← printfSpec B H cs args
      let rest ← printfLoop n cs args
      .ok (out ++ rest)

def sqlPrintf (fmt : String) (args : List Value) : Result String := do
  let out ← printfLoop B H fmt.toList.length fmt.toList args
  .ok (String.ofList out)

def printfFn (lname : String) : List Value → Result Value
  | [] => .error (badArity lname)
  | .null :: _ => .ok .null
  | fmt :: rest => do
    let f ← textArg H lname fmt
    let s ← sqlPrintf B H f rest
    .ok (.text s)

end Printf

/-! ### Numbers -/

section Numbers
variable (B : Builtins) (H : Host) (lname : String)

def absFn : List Value → Result Value
  | [.null] => .ok .null
  | [.integer n] =>
    if n.toInt = -2 ^ 63 then .error (.sql "desbordamiento de entero en abs()")
    else .ok (.integer (Int64.ofInt |n.toInt|))
  | [.real f] => .ok (.real (H.math "abs" f))
  | [v] => .error (needNum lname v)
  | _ => .error (badArity lname)

def roundArgs : List Value → Result (Value × ℤ)
  | [x] => .ok (x, 0)
  | [x, .integer d] => .ok (x, d.toInt)
  | [_, v] => .error (.sql s!"round(): el 2º argumento debe ser un entero, no {v.typeName}")
  | _ => .error (badArity lname)

/-- To a number of digits between none and 15. -/
def roundFn (args : List Value) : Result Value := do
  let (x, digits) ← roundArgs lname args
  match x with
  | .null => .ok .null
  | .integer n => .ok (.real (B.ofInt n))
  | .real f => .ok (.real (H.roundTo f (min (max digits 0) 15).toNat))
  | v => .error (needNum lname v)

def ceilFn : List Value → Result Value
  | [.null] => .ok .null
  | [.integer n] => .ok (.integer n)
  | [.real f] => .ok (.real (H.math (if lname = "floor" then "floor" else "ceil") f))
  | [v] => .error (needNum lname v)
  | _ => .error (badArity lname)

/-- The root of a number below zero is NULL. -/
def sqrtFn : List Value → Result Value
  | [.null] => .ok .null
  | [.integer n] => .ok (if n.toInt < 0 then .null else .real (H.math "sqrt" (B.ofInt n)))
  | [.real f] => .ok (if negReal f then .null else .real (H.math "sqrt" f))
  | [v] => .error (needNum lname v)
  | _ => .error (badArity lname)

def numArg (v : Value) : Result F64 := okOr (numF64 B v) (needNum lname v)

/-- A function of two doubles, called by its name in the machine. -/
def math2Fn (op : String) : List Value → Result Value
  | [.null, _] | [_, .null] => .ok .null
  | [a, b] => do
    let x ← numArg B lname a
    let y ← numArg B lname b
    .ok (.real (H.math2 op x y))
  | _ => .error (badArity lname)

def modFn : List Value → Result Value
  | [a, b] => arith B .mod a b
  | _ => .error (badArity lname)

def signFn : List Value → Result Value
  | [.null] => .ok .null
  | [.integer n] => .ok (.integer (if n.toInt < 0 then -1 else if n.toInt = 0 then 0 else 1))
  | [.real f] => .ok (if f.IsNaN then .null else if posReal f then .integer 1
      else if negReal f then .integer (-1) else .integer 0)
  | [v] => .error (needNum lname v)
  | _ => .error (badArity lname)

def randomFn : List Value → Result Value
  | [] => .ok (.integer H.random)
  | _ => .error (badArity lname)

def piFn : List Value → Result Value
  | [] => .ok (.real (H.math "pi" zeroReal))
  | _ => .error (badArity lname)

/-- The functions of one double that are called by their names. -/
def MATH_NAMES : List String :=
  ["exp", "ln", "log10", "log2", "sin", "cos", "tan", "asin", "acos", "atan", "radians", "degrees",
    "trunc"]

/-- The branches of the inner choice among them. -/
def mathOp (x : F64) : Result F64 :=
  if lname = "exp" then .ok (H.math "exp" x)
  else if lname = "ln" then .ok (H.math "ln" x)
  else if lname = "log10" then .ok (H.math "log10" x)
  else if lname = "log2" then .ok (H.math "log2" x)
  else if lname = "sin" then .ok (H.math "sin" x)
  else if lname = "cos" then .ok (H.math "cos" x)
  else if lname = "tan" then .ok (H.math "tan" x)
  else if lname = "asin" then .ok (H.math "asin" x)
  else if lname = "acos" then .ok (H.math "acos" x)
  else if lname = "atan" then .ok (H.math "atan" x)
  else if lname = "radians" then .ok (H.math "to_radians" x)
  else if lname = "degrees" then .ok (H.math "to_degrees" x)
  else if lname = "trunc" then .ok (H.math "trunc" x)
  else unreachable

def mathFn : List Value → Result Value
  | [.null] => .ok .null
  | [v] => do
    let x ← numArg B lname v
    let y ← mathOp H lname x
    .ok (.real y)
  | _ => .error (badArity lname)

/-- To the base 10, or to the base that comes first. -/
def logFn : List Value → Result Value
  | [.null] | [.null, _] | [_, .null] => .ok .null
  | [v] => do
    let x ← numArg B lname v
    .ok (.real (H.math "log10" x))
  | [b, v] => do
    let base ← numArg B lname b
    let x ← numArg B lname v
    .ok (.real (H.math2 "log" x base))
  | _ => .error (badArity lname)

end Numbers

/-! ### Choices -/

section Choices
variable (B : Builtins) (lname : String)

def coalesceFn (args : List Value) : Result Value :=
  if args = [] then .error (badArity lname) else .ok ((args.find? (· ≠ .null)).getD .null)

def ifnullFn : List Value → Result Value
  | [a, b] => .ok (if a = .null then b else a)
  | _ => .error (badArity lname)

def typeofFn : List Value → Result Value
  | [v] => .ok (.text v.typeName)
  | _ => .error (badArity lname)

def nullifFn : List Value → Result Value
  | [a, b] => do
    let o ← cmpValues B a b
    .ok (if o = some .eq then .null else a)
  | _ => .error (badArity lname)

/-- The best of the values so far against the others. -/
def bestOf (want : Ordering) : Value → List Value → Result Value
  | best, [] => .ok best
  | best, v :: vs => do
    let o ← cmpValues B v best
    bestOf want (if o = some want then v else best) vs

/-- `min` and `max` of two values or more. -/
def bestFn (args : List Value) : Result Value :=
  if args.length < 2 then .error (badArity lname)
  else if .null ∈ args then .ok .null
  else do
    let first ← index args 0
    let others ← slice args 1 args.length
    bestOf B (if lname = "max" then .gt else .lt) first others

end Choices

/-! ### JSON -/

section JsonFn
variable (F : FloatText) (lname : String)

def typeNameOf : Json → String
  | .null => "null"
  | .bool true => "true"
  | .bool false => "false"
  | .int _ => "integer"
  | .float _ => "real"
  | .str _ => "text"
  | .array _ => "array"
  | .object _ => "object"

def jsonFn : List Value → Result Value
  | [.null] => .ok .null
  | [.text s] => do
    let j ← okOr (Json.parse F s) (.sql "json(): texto JSON inválido")
    .ok (.text (j.toString F))
  | [v] => .error (.sql s!"json() espera TEXT, no {v.typeName}")
  | _ => .error (badArity lname)

def jsonValidFn : List Value → Result Value
  | [.null] => .ok .null
  | [.text s] => .ok (.bool (Json.parse F s).isSome)
  | [_] => .ok (.bool false)
  | _ => .error (badArity lname)

/-- The node of a document at a path, and what it gives; nothing for NULL. -/
def atPath (usage invalid : String) (give : Option Json → Value) : List Value → Result Value
  | [.null] | [.null, _] | [_, .null] => .ok .null
  | [.text s] => do
    let root ← okOr (Json.parse F s) (.sql invalid)
    .ok (give (some root))
  | [.text s, .text p] => do
    let root ← okOr (Json.parse F s) (.sql invalid)
    .ok (give (root.extract p.toList))
  | _ => .error (.sql usage)

def jsonTypeFn : List Value → Result Value :=
  atPath F "json_type(json TEXT [, path TEXT])" "json_type(): JSON inválido" fun node =>
    (node.map fun j => .text (typeNameOf j)).getD .null

def arrayLength : Option Json → Value
  | some (.array js) => .integer (Int64.ofNat js.length)
  | _ => .integer 0

def jsonArrayLengthFn : List Value → Result Value :=
  atPath F "json_array_length(json TEXT [, path TEXT])" "json_array_length(): JSON inválido"
    arrayLength

def jsonPath : Value → Result String
  | .text s => .ok s
  | _ => .error (.sql "la ruta de json_extract debe ser TEXT (p. ej. '$.a')")

/-- One path gives its value, several of them an array. -/
def jsonExtractFn : List Value → Result Value
  | .null :: _ => .ok .null
  | [.text s, p] => do
    let root ← okOr (Json.parse F s) (.sql "json_extract(): JSON inválido")
    let path ← jsonPath p
    .ok (((root.extract path.toList).map (jsonToValue F)).getD .null)
  | .text s :: p :: paths => do
    let root ← okOr (Json.parse F s) (.sql "json_extract(): JSON inválido")
    let items ← (p :: paths).mapM fun p => do
      let path ← jsonPath p
      .ok ((root.extract path.toList).getD .null)
    .ok (.text ((Json.array items).toString F))
  | _ => .error (.sql "json_extract(json TEXT, path TEXT, …)")

end JsonFn

/-! ### Instants -/

section Time
variable (lname : String)

def fmtTime (fmt : List Char) : List Value → Result Value
  | [.null] => .ok .null
  | [.integer ms] => do
    let out ← Datetime.strftimeChecked fmt ms.toInt
    .ok (.text (String.ofList out))
  | [v] => .error (.sql s!"se esperaba epoch ms (INTEGER), no {v.typeName}")
  | _ => .error (.sql "se esperaba 1 argumento (epoch ms INTEGER)")

def strftimeFn : List Value → Result Value
  | [.null, _] | [_, .null] => .ok .null
  | [.text f, .integer ms] => do
    let out ← Datetime.strftimeChecked f.toList ms.toInt
    .ok (.text (String.ofList out))
  | [_, _] => .error (.sql "strftime(formato TEXT, epoch_ms INTEGER)")
  | _ => .error (badArity lname)

/-- A function of an instant that is not a text. -/
def instantFn (give : Int64 → Value) : List Value → Result Value
  | [.null] => .ok .null
  | [.integer ms] => .ok (give ms)
  | [v] => .error (.sql s!"{lname}() espera epoch ms (INTEGER), no {v.typeName}")
  | _ => .error (badArity lname)

def juliandayFn (H : Host) (B : Builtins) : List Value → Result Value :=
  instantFn lname fun ms => .real (H.math "julian_day" (B.ofInt ms))

/-- `div_euclid` -/
def unixepochFn : List Value → Result Value :=
  instantFn lname fun ms => .integer (Int64.ofInt (ms.toInt / 1000))

def nowFn (H : Host) : List Value → Result Value
  | [] => .ok (.integer H.now_ms)
  | _ => .error (badArity lname)

end Time

/-! ### Vectors -/

section Vectors
variable (H : Host) (lname : String)

def le32 (n : UInt32) : Bytes := leBytes 4 n.toNat

def packF32 (vals : List UInt32) : Bytes := 0 :: vals.flatMap le32

def packI8 (vals : List UInt32) : Bytes :=
  1 :: (le32 (H.scale vals) ++ vals.map (H.quantized (H.scale vals)))

/-- The components of a constructor; none if one of them is NULL. -/
def components : List Value → Result (Option (List UInt32))
  | [] => .ok (some [])
  | .real f :: args => do
    let rest ← components args
    .ok (rest.map (H.realF32 f :: ·))
  | .integer n :: args => do
    let rest ← components args
    .ok (rest.map (H.intF32 n :: ·))
  | .null :: _ => .ok none
  | v :: _ => .error (needNum lname v)

def vectorFn (args : List Value) : Result Value := do
  let vals ← components H lname args
  .ok ((vals.map fun vals =>
    .blob (if lname = "vector_i8" then packI8 H vals else packF32 vals)).getD .null)

/-- The payload of a vector: doubles of 32 bits, or bytes with a scale. -/
inductive VecFmt where
  | f32 (b : Bytes)
  | i8 (scale : UInt32) (q : Bytes)
  deriving DecidableEq, Repr

/-- `from_le_bytes` of the four bytes from `i` on. -/
def f32At (b : Bytes) (i : ℕ) : Result UInt32 := do
  let b0 ← index b i
  let b1 ← index b (i + 1)
  let b2 ← index b (i + 2)
  let b3 ← index b (i + 3)
  .ok (UInt32.ofNat (leNat [b0, b1, b2, b3]))

/-- The number of components of a vector, and its payload. -/
def parseFmt : Bytes → Result (ℕ × VecFmt)
  | [] => .error (.invalidInput "BLOB de vector con tag desconocido")
  | tag :: rest =>
    if tag = 0 then
      if rest.length % 4 ≠ 0 then .error (.invalidInput "BLOB de vector f32 mal formado")
      else .ok (rest.length / 4, .f32 rest)
    else if tag = 1 then
      if rest.length < 4 then .error (.invalidInput "BLOB de vector int8 sin escala")
      else do
        let scale ← f32At (rest.take 4) 0
        let dim ← Fts.checkedSub rest.length 4
        let q ← slice rest 4 rest.length
        .ok (dim, .i8 scale q)
    else .error (.invalidInput "BLOB de vector con tag desconocido")

def VecFmt.at (i : ℕ) : VecFmt → Result UInt32
  | .f32 b => f32At b (i * 4)
  | .i8 scale q => do
    let x ← index q i
    .ok (H.scaled scale x)

def vecPairs (a b : Bytes) : Result (List (UInt32 × UInt32)) := do
  let (da, fa) ← parseFmt a
  let (db, fb) ← parseFmt b
  require (da = db) (.invalidInput "vectores de distinta dimensión")
  (List.range da).mapM fun i => do
    let x ← fa.at H i
    let y ← fb.at H i
    .ok (x, y)

def distanceFn : List Value → Result Value
  | [.null, _] | [_, .null] => .ok .null
  | [.blob a, .blob b] => do
    let pairs ← vecPairs H a b
    .ok (.real (H.distance lname pairs))
  | [_, _] => .error (.sql s!"{lname}() requiere dos BLOB de vector")
  | _ => .error (badArity lname)

end Vectors

/-! ### All of them -/

section Call
variable (B : Builtins) (H : Host)

/-- A function by its name, in letters of any case. -/
def callFunction (name : String) (args : List Value) : Result Value :=
  let lname := asciiLower name
  if lname = "upper" ∨ lname = "lower" then caseFn H lname args
  else if lname = "length" ∨ lname = "char_length" then lengthFn lname args
  else if lname = "trim" ∨ lname = "ltrim" ∨ lname = "rtrim" then trimFn lname args
  else if lname = "abs" then absFn H lname args
  else if lname = "round" then roundFn B H lname args
  else if lname = "coalesce" then coalesceFn lname args
  else if lname = "ifnull" then ifnullFn lname args
  else if lname = "typeof" then typeofFn lname args
  else if lname = "substr" ∨ lname = "substring" then substrFn args
  else if lname = "nullif" then nullifFn B lname args
  else if lname = "replace" then replaceFn lname args
  else if lname = "instr" then instrFn lname args
  else if lname = "reverse" then reverseFn lname args
  else if lname = "hex" then hexFn lname args
  else if lname = "ceil" ∨ lname = "ceiling" ∨ lname = "floor" then ceilFn H lname args
  else if lname = "sqrt" then sqrtFn B H lname args
  else if lname = "pow" ∨ lname = "power" then math2Fn B H lname "powf" args
  else if lname = "mod" then modFn B lname args
  else if lname = "sign" then signFn lname args
  else if lname = "random" then randomFn H lname args
  else if lname = "pi" then piFn H lname args
  else if lname ∈ MATH_NAMES then mathFn B H lname args
  else if lname = "log" then logFn B H lname args
  else if lname = "atan2" then math2Fn B H lname "atan2" args
  else if lname = "min" ∨ lname = "max" then bestFn B lname args
  else if lname = "concat" then concatFn H lname args
  else if lname = "concat_ws" then concatWsFn H lname args
  else if lname = "lpad" ∨ lname = "rpad" then padFn H lname args
  else if lname = "unicode" then unicodeFn lname args
  else if lname = "char" then charFn lname args
  else if lname = "quote" then quoteFn H lname args
  else if lname = "glob" then globFn lname args
  else if lname = "printf" ∨ lname = "format" then printfFn B H lname args
  else if lname = "julianday" then juliandayFn lname H B args
  else if lname = "unixepoch" then unixepochFn lname args
  else if lname = "json" then jsonFn H.text lname args
  else if lname = "json_valid" then jsonValidFn H.text lname args
  else if lname = "json_type" then jsonTypeFn H.text args
  else if lname = "json_extract" then jsonExtractFn H.text args
  else if lname = "json_array_length" then jsonArrayLengthFn H.text args
  else if lname = "json_object" then jsonObject H.text args
  else if lname = "json_array" then jsonArray H.text args
  else if lname = "json_quote" then jsonQuote H.text args
  else if lname = "now" then nowFn lname H args
  else if lname = "date" then fmtTime "%Y-%m-%d".toList args
  else if lname = "time" then fmtTime "%H:%M:%S".toList args
  else if lname = "datetime" then fmtTime "%Y-%m-%d %H:%M:%S".toList args
  else if lname = "strftime" then strftimeFn lname args
  else if lname = "vector" ∨ lname = "vector_i8" then vectorFn H lname args
  else if lname = "cosine_distance" ∨ lname = "l2_distance" ∨ lname = "dot" then
    distanceFn H lname args
  else .error (.sql s!"función desconocida: {name}()")

/-- What a query calls, with these functions. -/
def withFunctions : Builtins :=
  { B with
    callFunction := callFunction B H
    castValue := castValue B H
    jsonArrow := jsonArrow H.text }

end Call

end Arkeion.Sql.Scalar
