import Arkeion.Sql.Aggregate

/-!
Window functions: a value for every row, from the rows of its partition in their order.
-/

namespace Arkeion.Sql

open Catalog

/-- `args[i]`. -/
def argAt (args : List Expr) (i : ℕ) : Result Expr := okOr args[i]? (.panic "index out of bounds")

/-- The columns `*` stands for, in the row of the statement. -/
def starMap : List SchemaTable → ℕ → List ℕ
  | [], _ => []
  | t :: ts, base => t.def_.shown.map (base + ·) ++ starMap ts (base + t.def_.columns.length)

/-- Their names. -/
def starColumns (tables : List SchemaTable) : List String :=
  tables.flatMap fun t => t.def_.shown.filterMap fun i => (t.def_.columns[i]?).map ColumnDef.name

/-- The values at some positions of a row. -/
def rowAt (row : Row) (positions : List ℕ) : Result Row :=
  positions.mapM fun i => okOr row[i]? (.panic "index out of bounds")

section Frame

/-- A word with a sign. -/
def isize (n : ℤ) (overflow : String) : Result ℤ := do
  require (-2 ^ 63 ≤ n ∧ n < 2 ^ 63) (.panic overflow)
  .ok n

/-- The bound of a frame in a partition of `m` rows, for the row `k`. -/
def boundAt (k m : ℕ) (is_start : Bool) : FrameBound → Result ℤ
  | .unboundedPreceding => .ok (if is_start then 0 else -1)
  | .preceding n => isize (k - n) "attempt to subtract with overflow"
  | .currentRow => .ok k
  | .following n => isize (k + n) "attempt to add with overflow"
  | .unboundedFollowing => .ok (if is_start then m else m - 1)

/-- The frame of a window; without one, all rows up to this one, or all if there is no order. -/
def frameOr (frame : Option WindowFrame) (has_order : Bool) : WindowFrame :=
  frame.getD ⟨.unboundedPreceding, if has_order then .currentRow else .unboundedFollowing⟩

/-- The first and the last row of a frame in a partition of `m` rows, for the row `k`. -/
def frameRange (frame : Option WindowFrame) (k m : ℕ) (has_order : Bool) :
    Result (Option (ℕ × ℕ)) := do
  let start ← boundAt k m true (frameOr frame has_order).start
  let end_ ← boundAt k m false (frameOr frame has_order).end_
  let start := max start 0
  let end_ := min end_ (m - 1)
  .ok (if start ≤ end_ then some (start.toNat, end_.toNat) else none)

/-- The rows of a frame. -/
def framed (rows : List Row) : Option (ℕ × ℕ) → List Row
  | none => []
  | some (s, e) => (rows.drop s).take (e + 1 - s)

end Frame

section Window
variable (B : Builtins) (schema : QuerySchema) (params : List Value)

def evalOn (e : Expr) (row : Row) : Result Value := eval B (some (schema, row)) params e

/-- The rank of each row by its keys, with or without gaps. -/
def ranksOf (dense has_order : Bool) : List (List Value) → ℕ → ℕ → Option (List Value) → List Value
  | [], _, _, _ => []
  | key :: keys, k, rank, prev =>
    let new := !has_order || !prev.any (Row.same key)
    let rank := if new then (if dense then rank + 1 else k + 1) else rank
    .integer (Int64.ofNat rank) :: ranksOf dense has_order keys (k + 1) rank (some key)

/-- The tile of the row `p` of `m` in `k` tiles, the first of them one larger. -/
def tileOf (m k p : ℕ) : ℕ :=
  let base := m / k
  let rem := m % k
  let big := (base + 1) * rem
  if p < big then p / (base + 1) + 1 else rem + (p - big) / max base 1 + 1

/-! ### Aggregates of a frame -/

/-- The argument on one row after the other, each value taken before the next is evaluated. NULL
does not count. -/
def foldArg {α : Type} (args : List Expr) (step : α → Value → Result α) : α → List Row → Result α
  | acc, [] => .ok acc
  | acc, row :: rows => do
    let arg ← argAt args 0
    let v ← evalOn B schema params arg row
    let acc ← if v = .null then .ok acc else step acc v
    foldArg args step acc rows

/-- Whether all values are integers, their sum, which wraps around, the sum of all as reals, and
their number. -/
structure WindowSum where
  all_int : Bool
  isum : Int64
  fsum : F64
  cnt : ℕ

def windowSumStep (acc : WindowSum) : Value → Result WindowSum
  | .integer n => .ok ⟨acc.all_int, acc.isum + n, B.realOp .add acc.fsum (B.ofInt n), acc.cnt + 1⟩
  | .real f => .ok ⟨false, acc.isum, B.realOp .add acc.fsum f, acc.cnt + 1⟩
  | v => .error (.sql s!"SUM/AVG requieren números, no {v.typeName}")

/-- An aggregate over the rows of a frame. -/
def windowAggregate (func : WindowFunc) (args : List Expr) (rows : List Row) : Result Value :=
  match func with
  | .count =>
    if args.isEmpty then .ok (.integer (Int64.ofNat rows.length))
    else do
      let c ← foldArg B schema params args (fun c _ => .ok (c + 1)) 0 rows
      .ok (.integer (Int64.ofNat c))
  | .sum => do
    let s ← foldArg B schema params args (windowSumStep B) ⟨true, 0, ⟨0⟩, 0⟩ rows
    .ok (if s.cnt = 0 then .null else if s.all_int then .integer s.isum else .real s.fsum)
  | .avg => do
    let s ← foldArg B schema params args (windowSumStep B) ⟨true, 0, ⟨0⟩, 0⟩ rows
    .ok (if s.cnt = 0 then .null
      else .real (B.realOp .div s.fsum (B.ofInt (Int64.ofNat s.cnt))))
  | .min => do
    let best ← foldArg B schema params args (bestStep B .lt) none rows
    .ok (best.getD .null)
  | .max => do
    let best ← foldArg B schema params args (bestStep B .gt) none rows
    .ok (best.getD .null)
  | _ => .error (.panic "window_aggregate solo agregados")

/-! ### One partition -/

section Partition
variable (args : List Expr) (frame : Option WindowFrame) (has_order : Bool) (part : List Row)

def lagOffset : Result ℤ :=
  match args[1]? with
  | none => .ok 1
  | some e => do
    let v ← evalConst B e params
    match v with
    | .integer n => .ok n.toInt
    | _ => .error (.sql "el desplazamiento de LAG/LEAD debe ser entero")

/-- The place `LAG` or `LEAD` reads. -/
def lagTarget (func : WindowFunc) (offset : ℤ) (k : ℕ) : Result ℤ :=
  if func = .lag then isize (k - offset) "attempt to subtract with overflow"
  else isize (k + offset) "attempt to add with overflow"

/-- The argument on the row at a place, or the default on this row. -/
def valueAt (target : ℤ) (row : Row) : Result Value :=
  if 0 ≤ target ∧ target < part.length then do
    let arg ← argAt args 0
    let r ← okOr part[target.toNat]? (.panic "index out of bounds")
    evalOn B schema params arg r
  else match args[2]? with
    | some e => evalOn B schema params e row
    | none => .ok .null

def lagOf (func : WindowFunc) (offset : ℤ) (k : ℕ) (row : Row) : Result Value := do
  let target ← lagTarget func offset k
  valueAt B schema params args part target row

/-- `FIRST_VALUE` or `LAST_VALUE` of the row `k`. -/
def edgeOf (func : WindowFunc) (k : ℕ) : Result Value := do
  let range ← frameRange frame k part.length has_order
  match range with
  | none => .ok .null
  | some (s, e) => do
    let arg ← argAt args 0
    let r ← okOr part[if func = .firstValue then s else e]? (.panic "index out of bounds")
    evalOn B schema params arg r

/-- An aggregate over the frame of the row `k`. -/
def aggregateAt (func : WindowFunc) (k : ℕ) : Result Value := do
  let range ← frameRange frame k part.length has_order
  windowAggregate B schema params func args (framed part range)

end Partition

/-- The values of a window function on the rows of a partition, in their order. -/
def windowPartition (func : WindowFunc) (args : List Expr) (frame : Option WindowFrame)
    (has_order : Bool) (part : List (List Value × Row)) : Result (List Value) :=
  let rows := part.map Prod.snd
  let keys := part.map Prod.fst
  let m := part.length
  match func with
  | .rowNumber => .ok ((List.range m).map fun k => .integer (Int64.ofNat (k + 1)))
  | .rank => .ok (ranksOf false has_order keys 0 0 none)
  | .denseRank => .ok (ranksOf true has_order keys 0 0 none)
  | .ntile => do
    let arg ← argAt args 0
    let v ← evalConst B arg params
    match v with
    | .integer n =>
      if 1 ≤ n then
        .ok ((List.range m).map fun p => .integer (Int64.ofNat (tileOf m n.toNatClampNeg p)))
      else .error (.sql "NTILE() requiere un entero positivo")
    | _ => .error (.sql "NTILE() requiere un entero positivo")
  | .lag | .lead => do
    let offset ← lagOffset B params args
    rows.zipIdx.mapM fun r => lagOf B schema params args rows func offset r.2 r.1
  | .firstValue | .lastValue =>
    (List.range m).mapM (edgeOf B schema params args frame has_order rows func)
  | .sum | .count | .avg | .min | .max =>
    (List.range m).mapM (aggregateAt B schema params args frame has_order rows func)

/-- The rows by the value of the partition keys, with their places. -/
def partitionRows (partition_by : List Expr) : List (Row × ℕ) →
    List (List UInt8 × List (Row × ℕ)) → Result (List (List UInt8 × List (Row × ℕ)))
  | [], parts => .ok parts
  | r :: rows, parts => do
    let key ← partition_by.mapM (evalOn B schema params · r.1)
    partitionRows partition_by rows (addToGroup (encodeValues key) r parts)

/-- The values of one partition, with the places of their rows; `order_keys` are the keys of all
rows. -/
def windowOfPart (func : WindowFunc) (args : List Expr) (order_by : List OrderBy)
    (frame : Option WindowFrame) (order_keys : List (List Value)) (part : List (Row × ℕ)) :
    Result (List (ℕ × Value)) := do
  let keyed := part.map fun r => (order_keys.getD r.2 [], order_keys.getD r.2 [], r)
  let sorted ← sortKeyed B (order_by.map OrderBy.desc) keyed
  let values ← windowPartition B schema params func args frame (!order_by.isEmpty)
    (sorted.map fun r => (r.1, r.2.1))
  .ok ((sorted.map fun r => r.2.2).zip values)

/-- A window function on all rows: one value for each, in the order of the rows. -/
def computeWindow (rows : List Row) : Expr → Result (List Value)
  | .window func args partition_by order_by frame => do
    let parts ← partitionRows B schema params partition_by rows.zipIdx []
    let order_keys ← rows.mapM fun row => order_by.mapM fun o => evalOn B schema params o.expr row
    let values ← parts.mapM fun p =>
      windowOfPart B schema params func args order_by frame order_keys p.2
    .ok ((List.range rows.length).map fun i => (values.flatten.lookup i).getD .null)
  | _ => .error (.panic "compute_window recibe un Window")

mutual

/-- The windows of an expression; those in a `MATCH` or an aggregate are not looked for. -/
def collectWindows : Expr → List Expr
  | .window func args partition_by order_by frame => [.window func args partition_by order_by frame]
  | .node (.match_ _) _ => []
  | .node _ args => collectWindowsList args
  | .literal _ | .column .. | .param _ | .aggregate .. | .scalarSubquery _ | .exists_ _
  | .inSubquery .. => []

def collectWindowsList : List Expr → List Expr
  | [] => []
  | e :: es => collectWindows e ++ collectWindowsList es

end

section Subst
variable (values : Expr → Result (List Value)) (i : ℕ)

mutual

/-- Each window replaced by its value in the row `i`. -/
def substWindows : Expr → Expr
  | .window func args partition_by order_by frame =>
    match values (.window func args partition_by order_by frame) with
    | .ok col => .literal (col.getD i .null)
    | .error _ => .window func args partition_by order_by frame
  | .node (.match_ negated) args => .node (.match_ negated) args
  | .node op args => .node op (substWindowsList args)
  | .literal v => .literal v
  | .column table name => .column table name
  | .param n => .param n
  | .aggregate func arg distinct sep => .aggregate func arg distinct sep
  | .scalarSubquery q => .scalarSubquery q
  | .exists_ q => .exists_ q
  | .inSubquery e q negated => .inSubquery e q negated

def substWindowsList : List Expr → List Expr
  | [] => []
  | e :: es => substWindows e :: substWindowsList es

end

end Subst

/-- What a row of a statement with windows is ordered by: its output or its own columns. -/
inductive WindowKey where
  | out (i : ℕ)
  | schema (i : ℕ)
  deriving DecidableEq, Repr

def windowKey (columns : List String) (o : OrderBy) : Result WindowKey :=
  match o.expr with
  | .column none name =>
    match columns.findIdx? (· == name) with
    | some i => .ok (.out i)
    | none => do
      let i ← schema.resolve none name
      .ok (.schema i)
  | .column table name => do
    let i ← schema.resolve table name
    .ok (.schema i)
  | .literal (.integer n) =>
    if 1 ≤ n ∧ n.toNatClampNeg ≤ columns.length then .ok (.out (n.toNatClampNeg - 1))
    else .error (.sql "ORDER BY con ventanas solo admite una columna o su posición")
  | _ => .error (.sql "ORDER BY con ventanas solo admite una columna o su posición")

def windowKeyValue (out row : Row) : WindowKey → Result Value
  | .out i => okOr out[i]? (.panic "index out of bounds")
  | .schema i => okOr row[i]? (.panic "index out of bounds")

/-- One item of the row at place `i`. -/
def windowItem (rows : List Row) (i : ℕ) (row : Row) : SelectItem → Result Row
  | .star => rowAt row (starMap schema.tables 0)
  | .expr e _ => do
    let v ← evalOn B schema params (substWindows (computeWindow B schema params rows) i e) row
    .ok [v]

def windowColumns (i : ℕ) : SelectItem → List String
  | .star => starColumns schema.tables
  | item => [outputName i item]

/-- The rows in the order of the statement, if it has one. -/
def sortWindowed (stmt : SelectStmt) (columns : List String) (outs : List (Row × Row)) :
    Result (List Row) :=
  if stmt.order_by.isEmpty then .ok (outs.map Prod.fst)
  else do
    let keys ← stmt.order_by.mapM (windowKey schema columns)
    let keyed ← outs.mapM fun r => do
      let ks ← keys.mapM (windowKeyValue r.1 r.2)
      .ok (ks, r.1)
    sortKeyed B (stmt.order_by.map OrderBy.desc) keyed

def runWindowed (stmt : SelectStmt) (rows : List Row) : Result SelectOut := do
  validateList schema (stmt.projection.filterMap itemExpr)
  let windows := (stmt.projection.filterMap itemExpr).flatMap collectWindows
  let _ ← windows.mapM (computeWindow B schema params rows)
  let columns := (stmt.projection.mapIdx (windowColumns schema)).flatten
  let outs ← rows.zipIdx.mapM fun r => do
    let out ← stmt.projection.mapM (windowItem B schema params rows r.2 r.1)
    .ok (out.flatten, r.1)
  let sorted ← sortWindowed B schema stmt columns outs
  let limited ← limitOffset B (if stmt.distinct then dedupPreserving sorted else sorted) stmt params
  .ok ⟨columns, limited⟩

end Window

end Arkeion.Sql
