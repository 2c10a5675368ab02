import Arkeion.RecordCodec
import Arkeion.Sql.Rows

/-!
Aggregates, over all rows or over the rows of each group.
-/

namespace Arkeion.Sql

open Catalog

/-! ### Columns of an expression -/

mutual

/-- The first column that is not in an aggregate. -/
def colOutsideAgg : Expr → Option String
  | .column _ name => some name
  | .literal _ | .param _ | .aggregate .. | .scalarSubquery _ | .exists_ _ | .window .. => none
  | .node _ args => listOutsideAgg args
  | .inSubquery e _ _ => colOutsideAgg e

def listOutsideAgg : List Expr → Option String
  | [] => none
  | e :: es => (colOutsideAgg e).orElse fun _ => listOutsideAgg es

end

mutual

/-- The columns of an expression, without those in an aggregate if `skip_agg`. -/
def collectColumns (skip_agg : Bool) : Expr → List (Option String × String)
  | .column table name => [(table, name)]
  | .literal _ | .param _ | .scalarSubquery _ | .exists_ _ => []
  | .node _ args => collectList skip_agg args
  | .aggregate _ arg _ _ => if skip_agg then [] else collectOpt skip_agg arg
  | .inSubquery e _ _ => collectColumns skip_agg e
  | .window _ args partition_by _ _ => collectList skip_agg args ++ collectList skip_agg partition_by

def collectList (skip_agg : Bool) : List Expr → List (Option String × String)
  | [] => []
  | e :: es => collectColumns skip_agg e ++ collectList skip_agg es

def collectOpt (skip_agg : Bool) : Option Expr → List (Option String × String)
  | none => []
  | some e => collectColumns skip_agg e

end

section Aggregate
variable (B : Builtins) (schema : QuerySchema) (rows : List Row) (params : List Value)

/-! ### One aggregate -/

/-- The sum so far, as an integer until the first real. -/
def sumStep (acc : Value) (v : Value) : Result Value :=
  match acc, v with
  | .integer s, .integer n =>
    if -2 ^ 63 ≤ s.toInt + n.toInt ∧ s.toInt + n.toInt < 2 ^ 63 then .ok (.integer (s + n))
    else .error (.sql "desbordamiento de entero en SUM")
  | .real s, .integer n => .ok (.real (B.realOp .add s (B.ofInt n)))
  | .integer s, .real f => .ok (.real (B.realOp .add (B.ofInt s) f))
  | .real s, .real f => .ok (.real (B.realOp .add s f))
  | _, v => .error (.sql s!"SUM requiere valores numéricos, no {v.typeName}")

def avgStep (sum : F64) (v : Value) : Result F64 :=
  match v with
  | .integer n => .ok (B.realOp .add sum (B.ofInt n))
  | .real f => .ok (B.realOp .add sum f)
  | v => .error (.sql s!"AVG requiere valores numéricos, no {v.typeName}")

/-- The smallest or the greatest value so far. -/
def bestStep (wanted : Ordering) (best : Option Value) (v : Value) : Result (Option Value) :=
  match best with
  | none => .ok (some v)
  | some b => do
    let o ← cmpValues B v b
    .ok (some (if o = some wanted then v else b))

def textOf : Value → Result String
  | .text s => .ok s
  | v => .error (.sql s!"GROUP_CONCAT requiere TEXT, no {v.typeName} (usa CAST)")

def sepOf (sep : Option Expr) : Result String :=
  match sep with
  | none => .ok ","
  | some e => do
    let v ← evalConst B e params
    match v with
    | .text s => .ok s
    | .null => .ok ","
    | v => .error (.sql s!"GROUP_CONCAT: el separador debe ser TEXT, no {v.typeName}")

/-- An aggregate of the values that are not NULL. -/
def aggregateOf (func : AggFunc) (sep : Option Expr) (values : List Value) : Result Value :=
  match func with
  | .count => .ok (.integer (Int64.ofNat values.length))
  | .sum => do
    let s ← values.foldlM (sumStep B) (.integer 0)
    .ok (if values.isEmpty then .null else s)
  | .avg => do
    let s ← values.foldlM (avgStep B) ⟨0⟩
    .ok (if values.isEmpty then .null
      else .real (B.realOp .div s (B.ofInt (Int64.ofNat values.length))))
  | .min => do
    let best ← values.foldlM (bestStep B .lt) none
    .ok (best.getD .null)
  | .max => do
    let best ← values.foldlM (bestStep B .gt) none
    .ok (best.getD .null)
  | .groupConcat =>
    if values.isEmpty then .ok .null
    else do
      let sep ← sepOf B params sep
      let texts ← values.mapM textOf
      .ok (.text (sep.intercalate texts))

/-- The values of the argument of an aggregate that are not NULL. -/
def argValues (arg : Expr) : Result (List Value) := do
  let vs ← rows.mapM fun row => eval B (some (schema, row)) params arg
  .ok (vs.filter (· != .null))

/-- The first occurrence of each value. -/
def dedupValues (vs : List Value) : List Value :=
  vs.foldl (fun out v => if out.any (Value.same · v) then out else out ++ [v]) []

def computeAggregate (func : AggFunc) (arg : Option Expr) (distinct : Bool) (sep : Option Expr) :
    Result Value :=
  match arg with
  | none => .ok (.integer (Int64.ofNat rows.length))
  | some arg => do
    require (arg.hasAggregate = false) (.sql "agregados anidados")
    let values ← argValues B schema rows params arg
    aggregateOf B params func sep (if distinct then dedupValues values else values)

mutual

/-- The aggregates of an expression replaced by their values. -/
def foldAggregates : Expr → Result Expr
  | .aggregate func arg distinct sep => do
    let v ← computeAggregate B schema rows params func arg distinct sep
    .ok (.literal v)
  | .node op args => do
    let args ← foldList args
    .ok (.node op args)
  | .literal v => .ok (.literal v)
  | .column table name => .ok (.column table name)
  | .param n => .ok (.param n)
  | .scalarSubquery q => .ok (.scalarSubquery q)
  | .exists_ q => .ok (.exists_ q)
  | .inSubquery e q negated => .ok (.inSubquery e q negated)
  | .window func args partition_by order_by frame =>
    .ok (.window func args partition_by order_by frame)

def foldList : List Expr → Result (List Expr)
  | [] => .ok []
  | e :: es => do
    let e ← foldAggregates e
    let es ← foldList es
    .ok (e :: es)

end

end Aggregate

/-! ### Without `GROUP BY` -/

section Projection
variable (B : Builtins) (schema : QuerySchema) (rows : List Row) (params : List Value)

/-- The value of one item on all rows. -/
def aggregateItem (e : Expr) : Result Value := do
  require (colOutsideAgg e = none) (.sql
    s!"sin GROUP BY, la columna {(colOutsideAgg e).getD default} debe ir dentro de un agregado")
  validateColumns schema e
  let folded ← foldAggregates B schema rows params e
  evalConst B folded params

/-- The names and the values of the one row, the items counted from `i` on. -/
def aggregateProjection : List SelectItem → ℕ → Result (List String × Row)
  | [], _ => .ok ([], [])
  | .star :: _, _ => .error (.sql "'*' no se puede combinar con agregados")
  | .expr e alias_ :: items, i => do
    let v ← aggregateItem B schema rows params e
    let (columns, out) ← aggregateProjection items (i + 1)
    .ok (alias_.getD s!"col{i + 1}" :: columns, v :: out)

/-- The answer of a statement with aggregates and no groups: one row, if `HAVING` lets it. -/
def runAggregated (stmt : SelectStmt) : Result SelectOut := do
  let (columns, row) ← aggregateProjection B schema rows params stmt.projection 0
  let keep ← match stmt.having with
    | none => .ok true
    | some h => do
      validateColumns schema h
      let folded ← foldAggregates B schema rows params h
      let v ← evalConst B folded params
      truthy v
  if keep then do
    let rows ← limitOffset B [row] stmt params
    .ok ⟨columns, rows⟩
  else .ok ⟨columns, []⟩

end Projection

/-! ### With `GROUP BY` -/

section Group
variable (B : Builtins) (schema : QuerySchema) (params : List Value)

def inGroup (group_cols : List (Option String × String)) (c : Option String × String) : Bool :=
  group_cols.any fun g => g.2 == c.2 && (g.1.isNone || c.1.isNone || g.1 == c.1)

/-- Every column outside of an aggregate is one of the groups. -/
def checkGrouped (group_cols : List (Option String × String)) (e : Expr) : Result Unit := do
  validateColumns schema e
  match (collectColumns true e).find? fun c => !inGroup group_cols c with
  | some c => .error (.sql s!"la columna {c.2} debe ir en GROUP BY o dentro de un agregado")
  | none => .ok ()

def checkItems (group_cols : List (Option String × String)) : List SelectItem → Result Unit
  | [] => .ok ()
  | .star :: _ => .error (.sql "'*' no se puede combinar con GROUP BY")
  | .expr e _ :: items => do
    checkGrouped schema group_cols e
    checkItems group_cols items

/-- A row added to its group, behind the rows that are there; a new group comes last. -/
def addToGroup {α : Type} (key : List UInt8) (r : α) :
    List (List UInt8 × List α) → List (List UInt8 × List α)
  | [] => [(key, [r])]
  | (k, group) :: groups =>
    if k = key then (k, group ++ [r]) :: groups else (k, group) :: addToGroup key r groups

def groupRows (group_by : List Expr) : List Row → List (List UInt8 × List Row) →
    Result (List (List UInt8 × List Row))
  | [], groups => .ok groups
  | row :: rows, groups => do
    let key ← group_by.mapM (eval B (some (schema, row)) params)
    groupRows group_by rows (addToGroup (encodeValues key) row groups)

def outputName (i : ℕ) : SelectItem → String
  | .star => s!"col{i + 1}"
  | .expr _ (some a) => a
  | .expr (.column _ name) none => name
  | .expr _ none => s!"col{i + 1}"

/-- An expression on a group: its aggregates over the group, the rest on its first row. -/
def evalGroup (group : List Row) (e : Expr) : Result Value := do
  let folded ← foldAggregates B schema group params e
  eval B (group.head?.map fun rep => (schema, rep)) params folded

def itemExpr : SelectItem → Option Expr
  | .star => none
  | .expr e _ => some e

/-- The row of a group, if `HAVING` lets it. -/
def groupRow (stmt : SelectStmt) (group : List Row) : Result (Option Row) := do
  let keep ← match stmt.having with
    | none => .ok true
    | some h => do
      let v ← evalGroup B schema params group h
      truthy v
  if keep then do
    let out ← (stmt.projection.filterMap itemExpr).mapM (evalGroup B schema params group)
    .ok (some out)
  else .ok none

def runGrouped (stmt : SelectStmt) (rows : List Row) : Result SelectOut := do
  validateList schema stmt.group_by
  let group_cols := collectList false stmt.group_by
  checkItems schema group_cols stmt.projection
  match stmt.having with
    | none => .ok ()
    | some h => checkGrouped schema group_cols h
  let groups ← groupRows B schema params stmt.group_by rows []
  let columns := stmt.projection.mapIdx outputName
  let out ← groups.mapM fun g => groupRow B schema params stmt g.2
  let sorted ← sortOutput B stmt.order_by columns (out.filterMap id)
  let limited ← limitOffset B sorted stmt params
  .ok ⟨columns, limited⟩

end Group

end Arkeion.Sql
