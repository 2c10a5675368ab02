import Arkeion.Lib.DepthGuard
import Arkeion.Sql.Resolve
import Arkeion.Sql.Window

/-!
INSERT, UPDATE and DELETE with their triggers.

The statements of a trigger are executed for a row or for a statement, with the values of the row in
place of `OLD` and `NEW`, and may fire triggers themselves; how deep is counted in the transaction.
What reads and writes the tables is a parameter: it may change the transaction, but not how deep it
is.
-/

namespace Arkeion.Sql

open Arkeion.Lib Catalog

/-! ### Statements -/

inductive TriggerTiming where
  | before
  | after
  | insteadOf
  deriving DecidableEq, Repr

inductive TriggerEvent where
  | insert
  | update
  | delete
  deriving DecidableEq, Repr

inductive TriggerForEach where
  | row
  | statement
  deriving DecidableEq, Repr

structure TriggerDef where
  name : String
  timing : TriggerTiming
  event : TriggerEvent
  for_each : TriggerForEach
  table : String
  body : String
  deriving DecidableEq, Repr

inductive InsertSource where
  | values (rows : List (List Expr))
  | select (query : SelectStmt)

/-- What an INSERT does with a row that meets another one. -/
inductive ConflictAction where
  | nothing
  | update (sets : List (String × Expr)) (where_clause : Option Expr)

/-- The statements; those that change the schema are of the type `Ω`. -/
inductive Stmt (Ω : Type) where
  | insert (table : String) (columns : Option (List String)) (source : InsertSource)
      (on_conflict : Option ConflictAction) (returning : Option (List SelectItem))
  | update (table : String) (sets : List (String × Expr)) (where_clause : Option Expr)
      (returning : Option (List SelectItem))
  | delete (table : String) (where_clause : Option Expr) (returning : Option (List SelectItem))
  | select (query : SelectStmt)
  | transaction
  | schema (o : Ω)

/-- What a transaction reads and writes, and how texts are parsed. -/
structure Storage (σ Ω : Type) where
  builtins : Builtins
  run_query : σ → SelectStmt → List Value → Result SelectOut
  table_cached : String → σ → Result (Option TableDef) × σ
  view : σ → String → Result (Option String)
  all_triggers : σ → Result (List TriggerDef) × σ
  view_table : σ → String → Result (Option TableDef)
  view_rows : σ → TableDef → Result (List Row)
  candidate_rows : σ → TableDef → QuerySchema → Option Expr → List Value → Result (List (Int64 × Row))
  get_row : σ → TableDef → Int64 → Result (Option Row)
  index_lookup : σ → IndexDef → List Value → Result (List Int64)
  insert_row : TableDef → Row → σ → Result Int64 × σ
  update_row : TableDef → Int64 → Row → σ → Result Unit × σ
  delete_row : TableDef → Int64 → σ → Result Unit × σ
  execute_schema : Ω → List Value → σ → Result ℕ × σ
  parse : String → Result (Stmt Ω)
  parse_many : String → Result (List (Stmt Ω))

/-! ### OLD and NEW -/

section Subst
variable (table : TableDef) (old new : Option Row)

def substSets : List (String × Expr) → Result (List (String × Expr))
  | [] => .ok []
  | (name, e) :: sets => do
    let e ← substExpr table old new e
    let sets ← substSets sets
    .ok ((name, e) :: sets)

/-- A statement for a row. An INSERT of a query is left as it is. -/
def substStmt {Ω : Type} : Stmt Ω → Result (Stmt Ω)
  | .insert t columns (.values rows) on_conflict returning => do
    let rows ← rows.mapM (substList table old new)
    .ok (.insert t columns (.values rows) on_conflict returning)
  | .update t sets where_clause returning => do
    let sets ← substSets table old new sets
    let where_clause ← substOpt table old new where_clause
    .ok (.update t sets where_clause returning)
  | .delete t where_clause returning => do
    let where_clause ← substOpt table old new where_clause
    .ok (.delete t where_clause returning)
  | other => .ok other

end Subst

/-! ### Rows of a statement -/

section Values
variable (B : Builtins) (d : TableDef) (params : List Value)

/-- A row without values: the defaults, and NULL for the alias of the rowid. -/
def defaultRow : Row :=
  d.columns.mapIdx fun i c => if d.rowid_alias = some i then .null else c.default.getD .null

/-- `names` are all names of the statement. -/
def setNamed (names : List String) : List (String × Expr) → Row → Result Row
  | [], row => .ok row
  | (name, e) :: rest, row => do
    let i ← colIndex d name
    require (names.count name ≤ 1) (.sql s!"columna repetida en INSERT: {name}")
    let v ← evalConst B e params
    setNamed names rest (row.set i v)

def setPositions : List (ℕ × Expr) → Row → Result Row
  | [], row => .ok row
  | (i, e) :: rest, row => do
    let v ← evalConst B e params
    setPositions rest (row.set i v)

/-- `insert_values_into`: a row from the values of a statement. -/
def insertValues (columns : Option (List String)) (exprs : List Expr) : Result Row :=
  match columns with
  | none => do
    require (exprs.length = d.shown.length)
      (.sql s!"la tabla tiene {d.shown.length} columnas pero se dieron {exprs.length} valores")
    setPositions B params (d.shown.zip exprs) (List.replicate d.columns.length .null)
  | some names => do
    require (names.length = exprs.length) (.sql "número distinto de columnas y de valores")
    setNamed B d params names (names.zip exprs) (defaultRow d)

/-- The values of a row of a view. -/
def setViewColumns : List (String × Expr) → Row → Result Row
  | [], row => .ok row
  | (name, e) :: rest, row => do
    let i ← okOr (d.named name) (.sql s!"columna desconocida en la vista: {name}")
    let v ← evalConst B e params
    setViewColumns rest (row.set i v)

def viewValues (columns : Option (List String)) (exprs : List Expr) : Result Row :=
  match columns with
  | some names => do
    require (names.length = exprs.length) (.sql "número distinto de columnas y de valores")
    setViewColumns B d params (names.zip exprs) (List.replicate d.columns.length .null)
  | none => do
    require (exprs.length = d.columns.length)
      (.sql s!"la vista tiene {d.columns.length} columnas pero se dieron {exprs.length} valores")
    exprs.mapM fun e => evalConst B e params

section Rows
variable (schema : QuerySchema)

/-- No CHECK is false on the row. -/
def checkRow (row : Row) : List Expr → Result Unit
  | [] => .ok ()
  | e :: es => do
    validateColumns schema e
    let v ← eval B (some (schema, row)) params e
    if v = .null then checkRow row es
    else do
      let ok ← truthy v
      if ok then checkRow row es else .error (.constraint "violación de restricción CHECK")

/-- The row with some columns set; all expressions are read on one row. -/
def setColumns (read : Row) : List (ℕ × Expr) → Row → Result Row
  | [], row => .ok row
  | (i, e) :: sets, row => do
    let v ← eval B (some (schema, read)) params e
    setColumns read sets (row.set i v)

/-- The condition on a row, if there is one. -/
def rowMatches (where_clause : Option Expr) (row : Row) : Result Bool :=
  match where_clause with
  | none => .ok true
  | some cond => holds B schema row params cond

def validateWhere (where_clause : Option Expr) : Result Unit :=
  match where_clause with
  | none => .ok ()
  | some cond => do
    noAggregates cond "WHERE"
    validateColumns schema cond

/-- The rows of an UPDATE: rowid, old and new. -/
def updatesOf (sets : List (ℕ × Expr)) (where_clause : Option Expr) :
    List (Int64 × Row) → Result (List (Int64 × Row × Row))
  | [] => .ok []
  | (rowid, row) :: rows => do
    let keep ← rowMatches B params schema where_clause row
    if keep then do
      let new_row ← setColumns B params schema row sets row
      let rest ← updatesOf sets where_clause rows
      .ok ((rowid, row, new_row) :: rest)
    else updatesOf sets where_clause rows

/-- The rows of a DELETE. -/
def doomedOf (where_clause : Option Expr) : List (Int64 × Row) → Result (List (Int64 × Row))
  | [] => .ok []
  | (rowid, row) :: rows => do
    let keep ← rowMatches B params schema where_clause row
    let rest ← doomedOf where_clause rows
    .ok (if keep then (rowid, row) :: rest else rest)

end Rows

/-- The columns of a SET, each with its expression; the primary key is not one of them. -/
def setIndexes (schema : QuerySchema) : List (String × Expr) → Result (List (ℕ × Expr))
  | [] => .ok []
  | (name, e) :: sets => do
    let i ← colIndex d name
    require (d.rowid_alias ≠ some i) (.sql s!"no se puede actualizar la PRIMARY KEY: {name}")
    noAggregates e "SET"
    validateColumns schema e
    let rest ← setIndexes schema sets
    .ok ((i, e) :: rest)

/-- The columns of a SET of a view. -/
def setViewIndexes (schema : QuerySchema) : List (String × Expr) → Result (List (ℕ × Expr))
  | [] => .ok []
  | (name, e) :: sets => do
    let i ← okOr (d.named name) (.sql s!"columna desconocida en la vista: {name}")
    noAggregates e "SET"
    validateColumns schema e
    let rest ← setViewIndexes schema sets
    .ok ((i, e) :: rest)

/-- The row of an upsert; what it is set to is read on the row that is there. -/
def upsertRowOf (schema : QuerySchema) (existing proposed : Row) :
    List (String × Expr) → Row → Result Row
  | [], row => .ok row
  | (name, e) :: sets, row => do
    let i ← colIndex d name
    require (d.rowid_alias ≠ some i) (.sql "ON CONFLICT DO UPDATE no puede cambiar la PRIMARY KEY")
    let e ← substExpr d none (some proposed) e
    noAggregates e "SET"
    validateColumns schema e
    let v ← eval B (some (schema, existing)) params e
    upsertRowOf schema existing proposed sets (row.set i v)

/-- The names of what `RETURNING` shows, the items counted from `i` on. -/
def returningColumns (schema : QuerySchema) : List SelectItem → ℕ → Result (List String)
  | [], _ => .ok []
  | .star :: items, i => do
    let rest ← returningColumns schema items (i + 1)
    .ok ((d.shown.filterMap fun p => (d.columns[p]?).map ColumnDef.name) ++ rest)
  | .expr e alias_ :: items, i => do
    noAggregates e "RETURNING"
    validateColumns schema e
    let rest ← returningColumns schema items (i + 1)
    .ok (outputName i (.expr e alias_) :: rest)

def returningItem (schema : QuerySchema) (row : Row) : SelectItem → Result Row
  | .star => rowAt row d.shown
  | .expr e _ => do
    let v ← eval B (some (schema, row)) params e
    .ok [v]

def evalReturning (table : String) (items : List SelectItem) (rows : List Row) :
    Result SelectOut := do
  let columns ← returningColumns d (.single table d) items 0
  let out ← rows.mapM fun row => do
    let parts ← items.mapM (returningItem B d params (.single table d) row)
    .ok parts.flatten
  .ok ⟨columns, out⟩

end Values

/-! ### Firing -/

def MAX_TRIGGER_DEPTH : ℕ := 32

abbrev Run (σ : Type) := Guarded MAX_TRIGGER_DEPTH σ Error

section Run
variable {σ Ω : Type} (S : Storage σ Ω) (rec : Stmt Ω → List Value → Run σ ℕ)

/-- Row triggers and statement triggers. -/
def splitForEach (triggers : List TriggerDef) : List TriggerDef × List TriggerDef :=
  triggers.partition fun t => t.for_each = .row

def triggersFor (table : String) (event : TriggerEvent) (timing : TriggerTiming) :
    Run σ (List TriggerDef) := do
  let all ← .act S.all_triggers
  pure (all.filter fun t => t.table = table ∧ t.event = event ∧ t.timing = timing)

/-- A statement of a trigger, for a row. -/
def fireStmt (table : TableDef) (old new : Option Row) (stmt : Stmt Ω) : Run σ Unit := do
  let sub ← .lift (substStmt table old new stmt)
  let _ ← rec sub []
  pure ()

def fireInner (table : TableDef) (triggers : List TriggerDef) (old new : Option Row) : Run σ Unit :=
  .forEach (fun trig => do
    let stmts ← .lift (S.parse_many trig.body)
    .forEach (fireStmt rec table old new) stmts) triggers

/-- The triggers of an event and a moment, for one row. -/
def fire (table : TableDef) (triggers : List TriggerDef) (old new : Option Row) : Run σ Unit :=
  if triggers.isEmpty then pure ()
  else .nested (.constraint "recursión de triggers demasiado profunda")
    (fireInner S rec table triggers old new)

def parseChecks (d : TableDef) : Result (List Expr) :=
  d.checks.mapM fun text => do
    let stmt ← S.parse s!"SELECT {text}"
    match stmt with
    | .select q =>
      match q.projection with
      | .expr e _ :: _ => .ok e
      | _ => .error (.sql "CHECK debe ser una expresión")
    | _ => .error (.sql "CHECK debe ser una expresión")

/-! ### Views -/

section Views
variable (view : String) (params : List Value)

def materializeView (s : σ) : Result (TableDef × List Row) := do
  let d ← S.view_table s view
  let d ← okOr d (.sql s!"vista desconocida: {view}")
  let rows ← S.view_rows s d
  .ok (d, rows)

/-- The triggers that take the place of an event on a view. -/
def insteadOf (event : TriggerEvent) (msg : String) : Run σ (List TriggerDef) := do
  let trigs ← triggersFor S view event .insteadOf
  .lift (require (trigs.isEmpty = false) (.sql msg))
  pure trigs

def runInsteadOfInsert (columns : Option (List String)) (rows : List (List Expr)) : Run σ ℕ := do
  let trigs ← insteadOf S view .insert "no se puede INSERT en una vista sin un trigger INSTEAD OF"
  let (vdef, _) ← .read (materializeView S view)
  .forEach (fun row => do
    let new ← .lift (viewValues S.builtins vdef params columns row)
    fire S rec vdef trigs none (some new)) rows
  pure rows.length

/-- The count of the rows so far, with one more if the condition holds and its triggers have been
fired. -/
def insteadOfRow (schema : QuerySchema) (where_clause : Option Expr)
    (body : Row → Run σ Unit) (n : ℕ) (row : Row) : Run σ ℕ := do
  let keep ← .lift (rowMatches S.builtins params schema where_clause row)
  if keep then do
    body row
    pure (n + 1)
  else pure n

def runInsteadOfUpdate (sets : List (String × Expr)) (where_clause : Option Expr) : Run σ ℕ := do
  let trigs ← insteadOf S view .update "no se puede UPDATE una vista sin un trigger INSTEAD OF"
  let (vdef, rows) ← .read (materializeView S view)
  let schema := QuerySchema.single view vdef
  let sets ← .lift (setViewIndexes vdef schema sets)
  .lift (validateWhere schema where_clause)
  .fold (insteadOfRow S params schema where_clause fun row => do
    let new_row ← .lift (setColumns S.builtins params schema row sets row)
    fire S rec vdef trigs (some row) (some new_row)) rows 0

def runInsteadOfDelete (where_clause : Option Expr) : Run σ ℕ := do
  let trigs ← insteadOf S view .delete "no se puede DELETE en una vista sin un trigger INSTEAD OF"
  let (vdef, rows) ← .read (materializeView S view)
  let schema := QuerySchema.single view vdef
  .lift (validateWhere schema where_clause)
  .fold (insteadOfRow S params schema where_clause fun row =>
    fire S rec vdef trigs (some row) none) rows 0

end Views

/-! ### INSERT -/

section Insert
variable (d : TableDef) (table : String) (params : List Value)

/-- The primary key of the row, when a row has it. -/
def pkMet (values : Row) (s : σ) : Result (Option Int64) :=
  match d.rowid_alias.bind fun pk => values[pk]? with
  | some (.integer n) => do
    let row ← S.get_row s d n
    .ok (if row.isSome then some n else none)
  | _ => .ok none

/-- The first row that one of the indexes has the values of the row for. -/
def indexMet (values : Row) (s : σ) : List IndexDef → Result (Option Int64)
  | [] => .ok none
  | idx :: indexes =>
    if idx.unique = false then indexMet values s indexes
    else do
      let key ← rowAt values idx.columns
      if key.any fun v => v = .null then indexMet values s indexes
      else do
        let rowids ← S.index_lookup s idx key
        match rowids with
        | rid :: _ => .ok (some rid)
        | [] => indexMet values s indexes

/-- `find_conflict`. -/
def findMet (values : Row) (s : σ) : Result (Option Int64) := do
  let rid ← pkMet S d values s
  match rid with
  | some rid => .ok (some rid)
  | none => indexMet S values s d.indexes

/-- The triggers and checks of an INSERT. -/
structure InsertPlan where
  checks : List Expr
  ins_before : List TriggerDef
  ins_after : List TriggerDef
  upd_before : List TriggerDef
  upd_after : List TriggerDef
  returning : Bool

def upsertUpdate (plan : InsertPlan) (rid : Int64) (sets : List (String × Expr))
    (where_clause : Option Expr) (proposed : Row) : Run σ (Option Row) := do
  let schema := QuerySchema.single table d
  let existing ← .read fun s => S.get_row s d rid
  let existing ← .lift (okOr existing (.sql "la fila en conflicto desapareció"))
  let cond ← .lift (substOpt d none (some proposed) where_clause)
  .lift (match cond with
    | none => .ok ()
    | some c => validateColumns schema c)
  let keep ← .lift (rowMatches S.builtins params schema cond existing)
  if keep then do
    let new_row ← .lift (upsertRowOf S.builtins d params schema existing proposed sets existing)
    .lift (checkRow S.builtins params schema new_row plan.checks)
    fire S rec d plan.upd_before (some existing) (some new_row)
    .act (S.update_row d rid new_row)
    fire S rec d plan.upd_after (some existing) (some new_row)
    pure (some new_row)
  else pure none

/-- The row with the rowid it was given. -/
def newAfter (values : Row) (rowid : Int64) : Row :=
  match d.rowid_alias with
  | some i => values.set i (.integer rowid)
  | none => values

/-- A row that meets no other. -/
def insertNew (plan : InsertPlan) (values : Row) : Run σ Row := do
  .lift (checkRow S.builtins params (.single table d) values plan.checks)
  fire S rec d plan.ins_before none (some values)
  let rowid ← .act (S.insert_row d values)
  if plan.ins_after.isEmpty && !plan.returning then pure values
  else do
    fire S rec d plan.ins_after none (some (newAfter d values rowid))
    pure (newAfter d values rowid)

/-- The rows that were written, with one more. -/
def insertOne (plan : InsertPlan) (columns : Option (List String))
    (on_conflict : Option ConflictAction) (written : List Row) (row : List Expr) :
    Run σ (List Row) := do
  let values ← .lift (insertValues S.builtins d params columns row)
  let met ← .read fun s => if on_conflict.isSome then findMet S d values s else .ok none
  match on_conflict, met with
  | some .nothing, some _ => pure written
  | some (.update sets where_clause), some rid => do
    let new_row ← upsertUpdate S rec d table params plan rid sets where_clause values
    pure (written ++ new_row.toList)
  | _, _ => do
    let new_row ← insertNew S rec d table params plan values
    pure (written ++ [new_row])

/-- Row triggers of an UPDATE, if there is an upsert. -/
def upsertTriggers (on_conflict : Option ConflictAction) (timing : TriggerTiming) :
    Run σ (List TriggerDef) := do
  if on_conflict.isSome then do
    let trigs ← triggersFor S d.name .update timing
    pure (splitForEach trigs).1
  else pure []

def insertInto (columns : Option (List String)) (rows : List (List Expr))
    (on_conflict : Option ConflictAction) (returning : Option (List SelectItem)) :
    Run σ (ℕ × Option SelectOut) := do
  let before ← triggersFor S d.name .insert .before
  let after ← triggersFor S d.name .insert .after
  let upd_before ← upsertTriggers S d on_conflict .before
  let upd_after ← upsertTriggers S d on_conflict .after
  let checks ← .lift (parseChecks S d)
  let plan := InsertPlan.mk checks (splitForEach before).1 (splitForEach after).1 upd_before upd_after
    returning.isSome
  fire S rec d (splitForEach before).2 none none
  let written ← .fold (insertOne S rec d table params plan columns on_conflict) rows []
  fire S rec d (splitForEach after).2 none none
  let out ← .lift (match returning with
    | none => .ok none
    | some items => do
      let out ← evalReturning S.builtins d params table items written
      .ok (some out))
  pure (written.length, out)

end Insert

/-- The rows of an INSERT, those of a query as literals. -/
def sourceRows (source : InsertSource) (params : List Value) (s : σ) : Result (List (List Expr)) :=
  match source with
  | .values rows => .ok rows
  | .select q => do
    let out ← S.run_query s q params
    .ok (out.rows.map fun r => r.map Expr.literal)

section Statements
variable (table : String) (params : List Value) (returning : Option (List SelectItem))

/-- The table of a statement, or the view that has its name. -/
def onTable {α : Type} (f : TableDef → Run σ α) (g : Run σ α) : Run σ α := do
  let d ← .act (S.table_cached table)
  match d with
  | some d => f d
  | none => do
    let view ← .read fun s => S.view s table
    if view.isSome then g else .lift (.error (.sql s!"tabla desconocida: {table}"))

def runInsert (columns : Option (List String)) (source : InsertSource)
    (on_conflict : Option ConflictAction) : Run σ (ℕ × Option SelectOut) := do
  let rows ← .read (sourceRows S source params)
  onTable S table (fun d => insertInto S rec d table params columns rows on_conflict returning) (do
    .lift (require (returning.isNone ∧ on_conflict.isNone)
      (.sql "RETURNING / ON CONFLICT no se admiten al escribir en una vista"))
    let n ← runInsteadOfInsert S rec table params columns rows
    pure (n, none))

/-! ### UPDATE and DELETE -/

def returningOut (d : TableDef) (rows : List Row) : Result (Option SelectOut) :=
  match returning with
  | none => .ok none
  | some items => do
    let out ← evalReturning S.builtins d params table items rows
    .ok (some out)

/-- One row of an UPDATE. -/
def updateOne (d : TableDef) (checks : List Expr) (before after : List TriggerDef)
    (u : Int64 × Row × Row) : Run σ Unit := do
  .lift (checkRow S.builtins params (.single table d) u.2.2 checks)
  fire S rec d before (some u.2.1) (some u.2.2)
  .act (S.update_row d u.1 u.2.2)
  fire S rec d after (some u.2.1) (some u.2.2)

def updateTable (sets : List (String × Expr)) (where_clause : Option Expr) (d : TableDef) :
    Run σ (ℕ × Option SelectOut) := do
  let schema := QuerySchema.single table d
  let sets ← .lift (setIndexes d schema sets)
  .lift (validateWhere schema where_clause)
  let before ← triggersFor S d.name .update .before
  let after ← triggersFor S d.name .update .after
  let rows ← .read fun s => S.candidate_rows s d schema where_clause params
  let updates ← .lift (updatesOf S.builtins params schema sets where_clause rows)
  let checks ← .lift (parseChecks S d)
  fire S rec d (splitForEach before).2 none none
  .forEach (updateOne S rec table params d checks (splitForEach before).1 (splitForEach after).1)
    updates
  fire S rec d (splitForEach after).2 none none
  let out ← .lift (returningOut S table params returning d (updates.map fun u => u.2.2))
  pure (updates.length, out)

def runUpdate (sets : List (String × Expr)) (where_clause : Option Expr) :
    Run σ (ℕ × Option SelectOut) :=
  onTable S table (updateTable S rec table params returning sets where_clause) (do
    .lift (require (returning.isNone = true) (.sql "RETURNING no se admite al escribir en una vista"))
    let n ← runInsteadOfUpdate S rec table params sets where_clause
    pure (n, none))

/-- One row of a DELETE. -/
def deleteOne (d : TableDef) (before after : List TriggerDef) (r : Int64 × Row) : Run σ Unit := do
  fire S rec d before (some r.2) none
  .act (S.delete_row d r.1)
  fire S rec d after (some r.2) none

def deleteFrom (where_clause : Option Expr) (d : TableDef) : Run σ (ℕ × Option SelectOut) := do
  let schema := QuerySchema.single table d
  .lift (validateWhere schema where_clause)
  let before ← triggersFor S d.name .delete .before
  let after ← triggersFor S d.name .delete .after
  let rows ← .read fun s => S.candidate_rows s d schema where_clause params
  let doomed ← .lift (doomedOf S.builtins params schema where_clause rows)
  fire S rec d (splitForEach before).2 none none
  .forEach (deleteOne S rec d (splitForEach before).1 (splitForEach after).1) doomed
  fire S rec d (splitForEach after).2 none none
  let out ← .lift (returningOut S table params returning d (doomed.map Prod.snd))
  pure (doomed.length, out)

def runDelete (where_clause : Option Expr) : Run σ (ℕ × Option SelectOut) :=
  onTable S table (deleteFrom S rec table params returning where_clause) (do
    .lift (require (returning.isNone = true) (.sql "RETURNING no se admite al escribir en una vista"))
    let n ← runInsteadOfDelete S rec table params where_clause
    pure (n, none))

end Statements

/-- A statement that writes, with what `RETURNING` shows. -/
def execStmt (stmt : Stmt Ω) (params : List Value) : Run σ (ℕ × Option SelectOut) :=
  match stmt with
  | .insert table columns source on_conflict returning =>
    runInsert S rec table params returning columns source on_conflict
  | .update table sets where_clause returning =>
    runUpdate S rec table params returning sets where_clause
  | .delete table where_clause returning => runDelete S rec table params returning where_clause
  | .select _ => .lift (.error (.sql "SELECT devuelve filas: usa query, no execute"))
  | .transaction => .lift (.error (.sql
      "las sentencias de transacción/savepoint las gestiona la conexión"))
  | .schema o => do
    let n ← .act (S.execute_schema o params)
    pure (n, none)

end Run

section Execute
variable {σ Ω : Type} (S : Storage σ Ω)

/-- `run_execute`, with fuel for so many statements within one another. -/
def runExecute : ℕ → Stmt Ω → List Value → Run σ ℕ
  | 0, _, _ => .never
  | n + 1, stmt, params => do
    let out ← execStmt S (runExecute n) stmt params
    pure out.1

end Execute

end Arkeion.Sql
