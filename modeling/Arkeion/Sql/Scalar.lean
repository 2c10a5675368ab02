import Arkeion.Fts.Query
import Arkeion.Sql.Ast
import Arkeion.TableScan

/-!
Values in a query: three-valued truth, comparison and arithmetic.

What a query takes from elsewhere is gathered in `Builtins`: the arithmetic of doubles, the
scalar functions, and the parts of the full text search that look at one row.
-/

namespace Arkeion

open Arkeion.Lib

def Value.typeName : Value → String
  | .null => "NULL"
  | .bool _ => "BOOLEAN"
  | .integer _ => "INTEGER"
  | .real _ => "REAL"
  | .text _ => "TEXT"
  | .blob _ => "BLOB"

namespace F64

instance (f : F64) : Decidable f.Negative := inferInstanceAs (Decidable (_ ≤ _))
instance (f : F64) : Decidable f.IsNaN := inferInstanceAs (Decidable (_ < _))

def neg (f : F64) : F64 := ⟨f.bits ^^^ SIGN⟩

/-- A number in the order of the doubles that are not NaN; both zeros have the same. -/
def rank (f : F64) : ℤ := if f.Negative then -f.magnitude else f.magnitude

def partialCmp (x y : F64) : Option Ordering :=
  if x.IsNaN ∨ y.IsNaN then none else some (compare x.rank y.rank)

end F64

namespace Sql

open Catalog

/-- The weights of the words of a query and the mean length of a document. -/
structure FtsRankCtx where
  idf : List (String × F64)
  avgdl : F64
  deriving DecidableEq, Repr

/-- What the execution of a query calls: arithmetic of doubles, the scalar functions by their
names, casts, JSON, and what full text search and the search for vectors compute from the values
of one row. The distance of two vectors is given by its place in the order of distances; there is
none if their dimensions differ. -/
structure Builtins where
  ofInt : Int64 → F64
  realOp : BinOp → F64 → F64 → F64
  callFunction : String → List Value → Result Value
  castValue : Value → ColType → Result Value
  jsonArrow : BinOp → Value → Value → Result Value
  tokenizerFor : String → Result Unit
  parseQuery : String → Result Fts.Query
  queryTerms : Fts.Query → String → List String
  bm25Idf : ℕ → ℕ → F64
  avgdl : ℕ → ℕ → F64
  rowMatches : TableDef → FtsIndexDef → Row → Fts.Query → Result Bool
  highlight : String → Fts.Query → String → String → String → String
  snippet : String → Fts.Query → String → String → String → String → ℕ → String
  bm25 : FtsRankCtx → String → List (Option Value) → F64
  toF32 : Bytes → Result Unit
  distance : VectorMetric → Bytes → Bytes → Result (Option ℤ)

/-- `a == b` of values: that of doubles for reals. -/
def Value.same : Value → Value → Bool
  | .real x, .real y => x.partialCmp y == some .eq
  | a, b => a == b

def Row.same (a b : Row) : Bool := a.length == b.length && (a.zip b).all fun p => Value.same p.1 p.2

def truthy3 : Value → Result (Option Bool)
  | .bool b => .ok (some b)
  | .null => .ok none
  | v => .error (.sql s!"se esperaba BOOLEAN, no {v.typeName}")

/-- A condition; unknown counts as false. -/
def truthy (v : Value) : Result Bool := do
  let b ← truthy3 v
  .ok (b.getD false)

section Compare
variable (B : Builtins)

/-- `none` is unknown: one of them is NULL or NaN. -/
def cmpValues : Value → Value → Result (Option Ordering)
  | .null, _ => .ok none
  | _, .null => .ok none
  | .integer x, .integer y => .ok (some (compare x y))
  | .integer x, .real y => .ok ((B.ofInt x).partialCmp y)
  | .real x, .integer y => .ok (x.partialCmp (B.ofInt y))
  | .real x, .real y => .ok (x.partialCmp y)
  | .text x, .text y => .ok (some (compare x y))
  | .blob x, .blob y => .ok (some (cmpBytes x y))
  | .bool x, .bool y => .ok (some (compare x y))
  | a, b => .error (.sql s!"tipos incomparables: {a.typeName} y {b.typeName}")

/-- The order of `ORDER BY`: NULL comes first. -/
def cmpNullsFirst (a b : Value) : Result Ordering :=
  match a, b with
  | .null, .null => .ok .eq
  | .null, _ => .ok .lt
  | _, .null => .ok .gt
  | a, b => do
    let o ← cmpValues B a b
    .ok (o.getD .eq)

def compares (op : BinOp) (o : Ordering) : Bool :=
  match op with
  | .eq => o == .eq
  | .ne => o != .eq
  | .lt => o == .lt
  | .le => o != .gt
  | .gt => o == .gt
  | _ => o != .lt

def checked (n : ℤ) : Result Value :=
  if -2 ^ 63 ≤ n ∧ n < 2 ^ 63 then .ok (.integer (Int64.ofInt n))
  else .error (.sql "desbordamiento de entero")

/-- Division and remainder by zero are NULL; the remainder by `-1` is zero. -/
def arithInt (op : BinOp) (x y : ℤ) : Result Value :=
  match op with
  | .add => checked (x + y)
  | .sub => checked (x - y)
  | .mul => checked (x * y)
  | .div => if y = 0 then .ok .null else checked (x.tdiv y)
  | _ => if y = 0 then .ok .null else checked (x.tmod y)

def arithReal (op : BinOp) (x y : F64) : Result Value :=
  if (op = .div ∨ op = .mod) ∧ y.magnitude = 0 then .ok .null
  else if (B.realOp op x y).IsNaN then .ok .null
  else .ok (.real (B.realOp op x y))

def arith (op : BinOp) : Value → Value → Result Value
  | .null, _ => .ok .null
  | _, .null => .ok .null
  | .integer x, .integer y => arithInt op x.toInt y.toInt
  | .integer x, .real y => arithReal B op (B.ofInt x) y
  | .real x, .integer y => arithReal B op x (B.ofInt y)
  | .real x, .real y => arithReal B op x y
  | a, b => .error (.sql s!"aritmética sobre {a.typeName} y {b.typeName}")

end Compare

/-- `%` stands for any characters, `_` for one. -/
def likeMatch : List Char → List Char → Bool
  | [], s => s.isEmpty
  | c :: p, s =>
    if c = '%' then s.tails.any (likeMatch p)
    else if c = '_' then !s.isEmpty && likeMatch p s.tail
    else s.head? == some c && likeMatch p s.tail

end Sql

end Arkeion
