import Arkeion.Sql.Plan
import Arkeion.Sql.Window

/-!
The execution of a SELECT.

The tables a statement brings itself (its `WITH`, the subqueries of its `FROM`) are materialised
first and laid over the source as one more layer. Then its subqueries are resolved, and its rows
go through the joins, the `WHERE`, the groups or the order, and the projection.

What executes the other statements is a parameter, so that one statement can be compared with
another way to execute it; `Executor.run` closes the recursion. An executor also says how a layer
is read, how the rows of a single table are found, and which conditions are evaluated before the
joins.
-/

namespace Arkeion.Sql

open Arkeion.Lib Catalog

/-! ### Layers of tables -/

/-- A source with layers of tables over it. -/
inductive Source where
  | base (src : DataSource)
  | cte (inner : Source) (ctes : List CteEntry)

/-- Tables over a source. The first of a name or of an id is the one that is found. -/
def CteSource.source (inner : DataSource) (ctes : List CteEntry) : DataSource :=
  { inner with
    table := fun name =>
      match ctes.find? fun e => e.name == name with
      | some e => .ok (some e.def_)
      | none => inner.table name
    get_row := fun d rowid =>
      if ctes.any fun e => e.def_.table_id == d.table_id then .ok none else inner.get_row d rowid
    scan_rows := fun d =>
      match ctes.find? fun e => e.def_.table_id == d.table_id with
      | some e => .ok e.rows
      | none => inner.scan_rows d }

def Source.read : Source → DataSource
  | .base src => src
  | .cte inner ctes => CteSource.source inner.read ctes

def syntheticColumn (name : String) : ColumnDef := ⟨name, .integer, false, none, false⟩

lemma none_alias_lt {n : ℕ} : ∀ i, (none : Option ℕ) = some i → i < n := nofun

lemma range_logical {columns : List String} : (List.range columns.length).Perm
    (List.range (columns.map syntheticColumn).length) := by
  rw [List.length_map]

/-- The definition of a table of a statement. Its columns have no types. -/
def syntheticDef (name : String) (columns : List String) (table_id : UInt32) : TableDef where
  name := name
  table_id := table_id
  rowid_alias := none
  columns := columns.map syntheticColumn
  indexes := []
  fts_indexes := []
  vector_indexes := []
  logical_order := List.range columns.length
  foreign_keys := []
  checks := []
  alias_lt := none_alias_lt
  logical := range_logical

/-- `u32::MAX - idx`. -/
def syntheticCteDef (name : String) (columns : List String) (idx : ℕ) : TableDef :=
  syntheticDef name columns (0xFFFFFFFF - UInt32.ofNat idx)

def lookup (src : DataSource) (name : String) : Result TableDef := do
  let d ← src.table name
  okOr d (.sql s!"tabla desconocida: {name}")

/-! ### Rows of a join -/

/-- The rows for which the condition is true; it is evaluated on all of them. -/
def keepRows (p : Row → Result Bool) : List Row → Result (List Row)
  | [] => .ok []
  | row :: rows => do
    let keep ← p row
    let rest ← keepRows p rows
    .ok (if keep then row :: rest else rest)

/-- All conditions are true, looked at up to the first that is not. -/
def allHold (B : Builtins) (schema : QuerySchema) (row : Row) (params : List Value) :
    List Expr → Result Bool
  | [] => .ok true
  | e :: es => do
    let b ← holds B schema row params e
    if b then allHold B schema row params es else .ok false

def splitAnd : Expr → List Expr
  | .node (.binary .and) [a, b] => splitAnd a ++ splitAnd b
  | e => [e]

mutual

/-- The qualifiers of the columns; `none` if one has none, or what cannot be moved is there. -/
def qualsOf : Expr → Option (List String)
  | .column (some q) _ => some [q]
  | .column none _ => none
  | .literal _ | .param _ => some []
  | .node (.match_ _) _ => none
  | .node _ args => qualsOfList args
  | .aggregate .. | .scalarSubquery _ | .exists_ _ | .inSubquery .. | .window .. => none

def qualsOfList : List Expr → Option (List String)
  | [] => some []
  | e :: es => do
    let qs ← qualsOf e
    let rest ← qualsOfList es
    some (qs ++ rest)

end

/-- The one qualifier of the columns of a condition. -/
def conjunctQualifier (e : Expr) : Option String :=
  match qualsOf e with
  | some (q :: qs) => if qs.all (· == q) then some q else none
  | _ => none

/-- The conditions of the `WHERE`, each with the table it is on. -/
def pushdownOf (stmt : SelectStmt) : List (Expr × Option String) :=
  if stmt.joins.isEmpty then []
  else match stmt.where_clause with
    | none => []
    | some w => (splitAnd w).map fun c => (c, conjunctQualifier c)

/-- The conditions on a table. -/
def conjunctsOf (pushdown : List (Expr × Option String)) (q : String) : List Expr :=
  (pushdown.filter fun c => c.2 == some q).map Prod.fst

def prefilter (B : Builtins) (rows : List Row) (d : TableDef) (q : String)
    (pushdown : List (Expr × Option String)) (params : List Value) : Result (List Row) :=
  if (conjunctsOf pushdown q).isEmpty then .ok rows
  else keepRows (fun row => allHold B (.single q d) row params (conjunctsOf pushdown q)) rows

/-- `resize` with NULL. -/
def resizeRow (row : Row) (width : ℕ) : Row :=
  row.take width ++ List.replicate (width - row.length) .null

/-- Each left row with the right rows that go with it; alone if there are none in a `LEFT JOIN`. -/
def joinRows (p : Row → Result Bool) (kind : JoinKind) (width : ℕ) (right : List Row) :
    List Row → Result (List Row)
  | [] => .ok []
  | left :: lefts => do
    let matched ← keepRows p (right.map (left ++ ·))
    let rest ← joinRows p kind width right lefts
    .ok ((if matched.isEmpty && kind == .left then [resizeRow left width] else matched) ++ rest)

/-- How statements are executed. -/
structure Executor where
  builtins : Builtins
  read : Source → DataSource
  access : DataSource → TableDef → String → SelectStmt → List Value → Result (List Row)
  pushdown : SelectStmt → List (Expr × Option String)

namespace Executor

variable (X : Executor)

section Joins
variable (src : DataSource) (params : List Value) (pushdown : List (Expr × Option String))

/-- The rows of the table of a join. -/
def rightRows (join : Join) (d : TableDef) : Result (List Row) := do
  let rows ← src.scan_rows d
  if join.kind = .inner ∧ pushdown ≠ [] then
    prefilter X.builtins rows d join.table.qualifier pushdown params
  else .ok rows

def runJoins : List Join → QuerySchema → List Row → Result (QuerySchema × List Row)
  | [], schema, rows => .ok (schema, rows)
  | join :: joins, schema, rows => do
    let right_def ← lookup src join.table.name
    let right_rows ← X.rightRows src params pushdown join right_def
    let schema ← schema.push join.table.qualifier right_def
    noAggregates join.on "ON"
    validateColumns schema join.on
    let joined ← joinRows (fun row => holds X.builtins schema row params join.on) join.kind
      schema.width right_rows rows
    runJoins joins schema joined

end Joins

/-! ### One statement -/

section Step
variable (rec : Source → SelectStmt → Result SelectOut) (src : Source) (params : List Value)
  (schema : QuerySchema)

/-- The condition on a row; what subqueries are left in it are resolved for the row. -/
def whereHolds (cond : Expr) (row : Row) : Result Bool := do
  let cond ← if exprHasSubquery cond then resolveCorrelatedExpr (rec src) schema row cond
    else .ok cond
  holds X.builtins schema row params cond

def runWhere (stmt : SelectStmt) (rows : List Row) : Result (List Row) :=
  match stmt.where_clause with
  | none => .ok rows
  | some cond => do
    noAggregates cond "WHERE"
    validateColumns schema cond
    keepRows (X.whereHolds rec src params schema cond) rows

def orderKeys (projection : List SelectItem) (row : Row) (o : OrderBy) : Result Value := do
  let e ← orderKeyExpr o projection
  validateColumns schema e
  eval X.builtins (some (schema, row)) params e

def orderRows (stmt : SelectStmt) (rows : List Row) : Result (List Row) :=
  if stmt.order_by.isEmpty then .ok rows
  else do
    let keyed ← rows.mapM fun row => do
      let keys ← stmt.order_by.mapM (X.orderKeys params schema stmt.projection row)
      .ok (keys, row)
    sortKeyed X.builtins (stmt.order_by.map OrderBy.desc) keyed

/-- The names of the columns, counted from `i` on. -/
def outColumns : List SelectItem → ℕ → Result (List String)
  | [], _ => .ok []
  | .star :: items, i => do
    let rest ← outColumns items (i + 1)
    .ok (starColumns schema.tables ++ rest)
  | .expr e alias_ :: items, i => do
    validateColumns schema e
    let rest ← outColumns items (i + 1)
    .ok (outputName i (.expr e alias_) :: rest)

/-- What one item gives for a row. -/
def projectItem (row : Row) : SelectItem → Result Row
  | .star => rowAt row (starMap schema.tables 0)
  | .expr e _ => do
    let e ← if exprHasSubquery e then resolveCorrelatedExpr (rec src) schema row e else .ok e
    let v ← eval X.builtins (some (schema, row)) params e
    .ok [v]

def projectRow (projection : List SelectItem) (row : Row) : Result Row := do
  let out ← projection.mapM (X.projectItem rec src params schema row)
  .ok out.flatten

/-- `*` stands for the columns at their own places. -/
def starIdentity : Bool := (starMap schema.tables 0).zipIdx.all fun p => p.2 == p.1

def isStar : List SelectItem → Bool
  | [.star] => true
  | _ => false

/-- The projection. A `*` alone takes the rows as they are. -/
def project (stmt : SelectStmt) (rows : List Row) : Result SelectOut := do
  let columns ← outColumns schema stmt.projection 0
  if !stmt.distinct && starIdentity schema && isStar stmt.projection then .ok ⟨columns, rows⟩
  else do
    let out ← rows.mapM (X.projectRow rec src params schema stmt.projection)
    if stmt.distinct then do
      let out ← limitOffset X.builtins (dedupPreserving out) stmt params
      .ok ⟨columns, out⟩
    else .ok ⟨columns, out⟩

/-- Order, limit and projection of rows that are neither grouped nor in windows. -/
def runPlain (stmt : SelectStmt) (rows : List Row) : Result SelectOut := do
  let rows ← X.orderRows params schema stmt rows
  let rows ← if stmt.distinct then .ok rows else limitOffset X.builtins rows stmt params
  X.project rec src params schema stmt rows

/-- What follows the `WHERE`. -/
def runTail (stmt : SelectStmt) (rows : List Row) : Result SelectOut :=
  if ¬ stmt.group_by.isEmpty then runGrouped X.builtins schema params stmt rows
  else if stmt.projection.any (·.any Expr.hasAggregate) || stmt.having.any Expr.hasAggregate then
    runAggregated X.builtins schema rows params stmt
  else if stmt.having.isSome then .error (.sql "HAVING requiere GROUP BY o agregados")
  else if stmt.projection.any (·.any Expr.hasWindow) then
    runWindowed X.builtins schema params stmt rows
  else X.runPlain rec src params schema stmt rows

end Step

section Select
variable (rec : Source → SelectStmt → Result SelectOut) (src : Source) (params : List Value)

/-- The rows of the first table. -/
def fromRows (from_ : TableRef) (d : TableDef) (stmt : SelectStmt) : Result (List Row) := do
  let rows ← if stmt.joins.isEmpty then X.access (X.read src) d from_.qualifier stmt params
    else (X.read src).scan_rows d
  if X.pushdown stmt ≠ [] then
    prefilter X.builtins rows d from_.qualifier (X.pushdown stmt) params
  else .ok rows

def runFrom (from_ : TableRef) (stmt : SelectStmt) : Result SelectOut := do
  let from_def ← lookup (X.read src) from_.name
  let schema ← precomputeBm25 X.builtins (X.read src) params (.single from_.qualifier from_def) stmt
  let rows ← X.fromRows src params from_ from_def stmt
  let (schema, rows) ← X.runJoins (X.read src) params (X.pushdown stmt) stmt.joins schema rows
  let rows ← X.runWhere rec src params schema stmt rows
  X.runTail rec src params schema stmt rows

/-- The names of a statement without tables. -/
def noFromColumns : List SelectItem → ℕ → Result (List String)
  | [], _ => .ok []
  | .star :: _, _ => .error (.sql "SELECT * requiere FROM")
  | .expr e alias_ :: items, i => do
    require (e.hasAggregate = false) (.sql "un agregado requiere FROM")
    let rest ← noFromColumns items (i + 1)
    .ok (outputName i (.expr e alias_) :: rest)

def runSelectNoFrom (stmt : SelectStmt) : Result SelectOut := do
  require (stmt.joins.isEmpty = true) (.sql "JOIN requiere FROM")
  require (stmt.group_by.isEmpty = true) (.sql "GROUP BY requiere FROM")
  require (stmt.having.isNone = true) (.sql "HAVING requiere FROM")
  require (stmt.order_by.isEmpty = true) (.sql "ORDER BY requiere FROM")
  require (stmt.as_of = none) (.sql "AS OF requiere FROM")
  let columns ← noFromColumns stmt.projection 0
  let keep ← match stmt.where_clause with
    | none => .ok true
    | some cond => do
      let v ← evalConst X.builtins cond params
      truthy v
  let rows ← limitOffset X.builtins (if keep then [[]] else []) stmt params
  let rows ← rows.mapM fun _ : Row => (stmt.projection.filterMap itemExpr).mapM fun e =>
    evalConst X.builtins e params
  .ok ⟨columns, rows⟩

/-- The rows of the statements of a set operation so far, with those of one more. -/
def combine (op : SetOp) (rows part : List Row) : List Row :=
  match op with
  | .unionAll => rows ++ part
  | .union => dedupPreserving (rows ++ part)
  | .intersect => (dedupPreserving rows).filter fun r => part.any (Row.same · r)
  | .except => (dedupPreserving rows).filter fun r => !part.any (Row.same · r)

def runArms (columns : List String) : List CompoundSelect → List Row → Result (List Row)
  | [], rows => .ok rows
  | arm :: arms, rows => do
    let part ← rec src arm.select
    require (part.columns.length = columns.length) (.sql
      s!"operador de conjunto: los SELECT tienen distinto número de columnas ({columns.length} vs {part.columns.length})")
    runArms columns arms (combine arm.op rows part.rows)

def runCompound (stmt : SelectStmt) : Result SelectOut := do
  let lead ← rec src { stmt with compound := [], order_by := [], limit := none, offset := none }
  let rows ← runArms rec src lead.columns stmt.compound lead.rows
  let rows ← sortOutput X.builtins stmt.order_by lead.columns rows
  let rows ← limitOffset X.builtins rows stmt params
  .ok ⟨lead.columns, rows⟩

/-- A statement whose tables are all in the source. -/
def runCore (stmt : SelectStmt) : Result SelectOut := do
  let stmt ← if selectHasSubquery stmt then
      resolveSelectSubqueries (rec src) (outerQualifiers stmt) stmt
    else .ok stmt
  if ¬ stmt.compound.isEmpty then X.runCompound rec src params stmt
  else match stmt.from_ with
    | none => X.runSelectNoFrom params stmt
    | some from_ => X.runFrom rec src params from_ stmt

/-! ### The tables of the statement -/

mutual

/-- A statement or one it is combined with reads the name in its `FROM` or a join. -/
def refsName (name : String) : SelectStmt → Bool
  | ⟨_, _, from_, joins, _, _, _, _, _, _, _, compound, _⟩ =>
    from_.any (fun t => t.subquery.isNone && t.name == name)
      || joins.any (fun j => j.table.subquery.isNone && j.table.name == name)
      || armsRefName name compound

def armsRefName (name : String) : List CompoundSelect → Bool
  | [] => false
  | ⟨_, q⟩ :: cs => refsName name q || armsRefName name cs

end

def cteIsRecursive (cte : Cte) : Bool := refsName cte.name cte.query

def MAX_ROWS : ℕ := 1000000

/-- The rows of a recursive table: `all` so far, those of the last step in `working`. -/
def recursiveRows (step : List Row → Result SelectOut) (ncols : ℕ) (union_all : Bool) :
    ℕ → List Row → List Row → Result (List Row)
  | 0, _, _ => .error .outOfFuel
  | k + 1, all, working => do
    let out ← step working
    require (out.columns.length = ncols)
      (.sql "CTE recursiva: el término tiene distinto número de columnas que la semilla")
    let fresh := if union_all then out.rows
      else (dedupPreserving out.rows).filter fun r => !all.any (Row.same · r)
    if fresh.isEmpty then .ok all
    else do
      require ((all ++ fresh).length ≤ MAX_ROWS)
        (.sql "CTE recursiva: demasiadas filas (¿recursión sin caso base?)")
      recursiveRows step ncols union_all k (all ++ fresh) fresh

def materializeRecursive (ctes : List CteEntry) (cte : Cte) (idx : ℕ) : Result CteEntry :=
  match cte.query.compound with
  | [arm] => do
    let seed ← rec (.cte src ctes)
      { cte.query with compound := [], order_by := [], limit := none, offset := none }
    let entry := fun rows => CteEntry.mk cte.name (syntheticCteDef cte.name seed.columns idx) rows
    let rows ← recursiveRows (fun working => rec (.cte src (ctes ++ [entry working])) arm.select)
      seed.columns.length (arm.op == .unionAll) (MAX_ROWS + 1) seed.rows seed.rows
    .ok (entry rows)
  | _ => .error (.sql "CTE recursiva: usa exactamente «semilla UNION [ALL] término»")

/-- The tables of a `WITH`; each sees those before it. -/
def materializeCtes : List Cte → List CteEntry → Result (List CteEntry)
  | [], ctes => .ok ctes
  | cte :: rest, ctes => do
    let entry ← if cteIsRecursive cte then materializeRecursive rec src ctes cte ctes.length
      else do
        let out ← rec (.cte src ctes) cte.query
        .ok ⟨cte.name, syntheticCteDef cte.name out.columns ctes.length, out.rows⟩
    materializeCtes rest (ctes ++ [entry])

/-- A subquery of the `FROM` as a table of its alias. -/
def materializeDerived (t : TableRef) (entries : List CteEntry) :
    Result (TableRef × List CteEntry) :=
  match t.subquery with
  | none => .ok (t, entries)
  | some sub => do
    let out ← rec (.cte src []) sub
    let alias_ ← okOr t.alias_ (.panic "una derivada siempre lleva alias")
    require (UInt32.ofNat entries.length ≤ 0xFFFE0000) (.panic "attempt to subtract with overflow")
    let d := syntheticDef alias_ out.columns (0xFFFE0000 - UInt32.ofNat entries.length)
    .ok (⟨alias_, some alias_, none⟩, entries ++ [⟨alias_, d, out.rows⟩])

def materializeJoins : List Join → List CteEntry → Result (List Join × List CteEntry)
  | [], entries => .ok ([], entries)
  | j :: joins, entries => do
    let (table, entries) ← materializeDerived rec src j.table entries
    let (joins, entries) ← materializeJoins joins entries
    .ok ({ j with table := table } :: joins, entries)

/-- The statement over the tables of its `WITH`. -/
def withCtes (stmt : SelectStmt) : Result (Source × SelectStmt) :=
  if stmt.with_.isEmpty then .ok (src, stmt)
  else do
    let ctes ← materializeCtes rec src stmt.with_ []
    .ok (.cte src ctes, { stmt with with_ := [] })

def derivedFrom (t : Option TableRef) : Result (Option TableRef × List CteEntry) :=
  match t with
  | none => .ok (none, [])
  | some t => do
    let (t, entries) ← materializeDerived rec src t []
    .ok (some t, entries)

/-- The statement over the subqueries of its `FROM`. -/
def withDerived (stmt : SelectStmt) : Result (Source × SelectStmt) :=
  if ¬ selectHasDerived stmt then .ok (src, stmt)
  else do
    let (from_, entries) ← derivedFrom rec src stmt.from_
    let (joins, entries) ← materializeJoins rec src stmt.joins entries
    .ok (.cte src entries, { stmt with from_, joins })

def select (stmt : SelectStmt) : Result SelectOut := do
  let (src, stmt) ← withCtes rec src stmt
  let (src, stmt) ← withDerived rec src stmt
  X.runCore rec src params stmt

end Select

def run (params : List Value) : ℕ → Source → SelectStmt → Result SelectOut
  | 0, _, _ => .error .outOfFuel
  | n + 1, src, stmt => X.select (run params n) src params stmt

end Executor

/-! ### The executor of the engine -/

section Access
variable (B : Builtins) (src : DataSource) (params : List Value) (d : TableDef)

/-- The first of the plans that fits, by the order they are tried in. -/
def searchRows (stmt : SelectStmt) : Result (List Row) := do
  let topk ← ftsTopkPlan B src params d stmt
  match topk with
  | some rows => .ok rows
  | none => do
    let fts ← ftsPlan B src params d stmt.where_clause
    match fts with
    | some rows => .ok rows
    | none => do
      let vec ← vectorPlan B src params d stmt
      match vec with
      | some rows => .ok rows
      | none => do
        let knn ← exactKnnPlan B src params d stmt
        match knn with
        | some rows => .ok rows
        | none => src.scan_rows d

def planRows (qualifier : String) (stmt : SelectStmt) : Result (List Row) :=
  match pointLookupKey ⟨qualifier, d, 0⟩ stmt.where_clause with
  | some key => do
    let v ← evalConst B key params
    match v with
    | .integer rowid => do
      let row ← src.get_row d rowid
      .ok row.toList
    | _ => src.scan_rows d
  | none =>
    match indexEqPlan ⟨qualifier, d, 0⟩ stmt.where_clause with
    | some (idx, exprs) => indexEqRows B src params d idx exprs
    | none =>
      match indexRangePlan ⟨qualifier, d, 0⟩ stmt.where_clause with
      | some (idx, op, e) => indexRangeRows B src params d idx op e
      | none => searchRows B src params d stmt

end Access

def engine (B : Builtins) : Executor where
  builtins := B
  read := Source.read
  access := fun src d qualifier stmt params => planRows B src params d qualifier stmt
  pushdown := pushdownOf

/-! ### Views -/

section Views
variable (X : Executor) (parse : String → Result SelectStmt) (inner : DataSource)
  (materialised : List String)

/-- The id of a view, by its place among those that are materialised. -/
def viewId (name : String) : UInt32 := 0xFFFF0000 - UInt32.ofNat (materialised.idxOf name)

/-- The answer of a view from a source that sees it as being resolved. -/
def viewAnswer (src : DataSource) (resolving : List String) (n : ℕ) (name sql : String) :
    Result SelectOut := do
  require (name ∉ resolving) (.sql s!"vista recursiva: {name}")
  let stmt ← parse sql
  X.run [] n (.base src) stmt

/-- The view of an id. -/
def viewOf (d : TableDef) : Option String :=
  materialised.find? fun name => viewId materialised name == d.table_id

/-- Views over a source. They are found behind its own tables, and are materialised when they are
looked up. -/
def viewSource : ℕ → List String → DataSource
  | 0, _ => { inner with table := fun _ => .error .outOfFuel }
  | n + 1, resolving =>
    { inner with
      table := fun name => do
        let d ← inner.table name
        match d with
        | some d => .ok (some d)
        | none => do
          let sql ← inner.view name
          match sql with
          | none => .ok none
          | some sql => do
            let out ← viewAnswer X parse (viewSource n (name :: resolving)) resolving n name sql
            .ok (some (syntheticDef name out.columns (viewId materialised name)))
      get_row := fun d rowid =>
        if (viewOf materialised d).isSome then .ok none else inner.get_row d rowid
      scan_rows := fun d =>
        match viewOf materialised d with
        | none => inner.scan_rows d
        | some name => do
          let sql ← inner.view name
          let sql ← okOr sql (.sql s!"tabla desconocida: {name}")
          let out ← viewAnswer X parse (viewSource n (name :: resolving)) resolving n name sql
          .ok out.rows }

def runQuery (n : ℕ) (stmt : SelectStmt) (params : List Value) : Result SelectOut :=
  X.run params n (.base (viewSource X parse inner materialised n [])) stmt

end Views

end Arkeion.Sql
