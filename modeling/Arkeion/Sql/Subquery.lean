import Arkeion.Sql.Eval

/-!
Subqueries: which of them refer to the statement they are in, and how they are replaced by what
they give.

A subquery that names no table of the statement is run once, before anything else. The others
are run for every row, with the columns of the row put into them as literals.
-/

namespace Arkeion.Sql

open Catalog

structure SelectOut where
  columns : List String
  rows : List Row
  deriving DecidableEq, Repr

/-- The names of the tables of a statement. -/
def outerQualifiers (stmt : SelectStmt) : List String :=
  (stmt.from_.map TableRef.qualifier).toList ++ stmt.joins.map fun j => j.table.qualifier

section Refs
variable (quals : List String)

mutual

/-- A column is written with one of the names. -/
def exprRefsQuals : Expr → Bool
  | .column (some q) _ => quals.contains q
  | .column none _ | .literal _ | .param _ => false
  | .node _ args => listRefsQuals args
  | .aggregate _ arg _ sep => optRefsQuals arg || optRefsQuals sep
  | .scalarSubquery q => stmtRefsQuals q
  | .exists_ q => stmtRefsQuals q
  | .inSubquery e q _ => exprRefsQuals e || stmtRefsQuals q
  | .window _ args partition_by order_by _ =>
    listRefsQuals args || listRefsQuals partition_by || orderRefsQuals order_by

def listRefsQuals : List Expr → Bool
  | [] => false
  | e :: es => exprRefsQuals e || listRefsQuals es

def optRefsQuals : Option Expr → Bool
  | none => false
  | some e => exprRefsQuals e

def orderRefsQuals : List OrderBy → Bool
  | [] => false
  | ⟨e, _⟩ :: os => exprRefsQuals e || orderRefsQuals os

def itemsRefsQuals : List SelectItem → Bool
  | [] => false
  | .star :: is => itemsRefsQuals is
  | .expr e _ :: is => exprRefsQuals e || itemsRefsQuals is

def joinsRefsQuals : List Join → Bool
  | [] => false
  | ⟨_, _, on⟩ :: js => exprRefsQuals on || joinsRefsQuals js

def compoundRefsQuals : List CompoundSelect → Bool
  | [] => false
  | ⟨_, q⟩ :: cs => stmtRefsQuals q || compoundRefsQuals cs

/-- An expression of the statement is written with one of the names. -/
def stmtRefsQuals : SelectStmt → Bool
  | ⟨_, projection, _, joins, where_clause, group_by, having, _, _, _, _, compound, _⟩ =>
    optRefsQuals where_clause || optRefsQuals having || itemsRefsQuals projection
      || joinsRefsQuals joins || listRefsQuals group_by || compoundRefsQuals compound

end

end Refs

/-! ### What a subquery stands for -/

/-- The value of a scalar subquery: NULL without a row. -/
def scalarOf (out : SelectOut) : Result Value :=
  if out.columns.length ≠ 1 then
    .error (.sql "una subconsulta escalar debe devolver exactamente una columna")
  else match out.rows with
    | [] => .ok .null
    | [row] => okOr row.head? (.panic "removal index (is 0) should be < len (is 0)")
    | _ => .error (.sql "una subconsulta escalar devolvió más de una fila")

def existsOf (out : SelectOut) : Value := .bool !out.rows.isEmpty

/-- The rows of an `IN` subquery as a list of literals. -/
def listOf (out : SelectOut) : Result (List Expr) :=
  if out.columns.length ≠ 1 then .error (.sql "IN (SELECT …) requiere exactamente una columna")
  else out.rows.mapM fun row => do
    let v ← okOr row.head? (.panic "removal index (is 0) should be < len (is 0)")
    .ok (.literal v)

section Resolve
variable (run : SelectStmt → Result SelectOut) (outer : List String)

mutual

/-- The subqueries that do not refer to the statement replaced by what they give. -/
def resolveExpr : Expr → Result Expr
  | .scalarSubquery q =>
    if stmtRefsQuals outer q then .ok (.scalarSubquery q)
    else do
      let out ← run q
      let v ← scalarOf out
      .ok (.literal v)
  | .exists_ q =>
    if stmtRefsQuals outer q then .ok (.exists_ q)
    else do
      let out ← run q
      .ok (.literal (existsOf out))
  | .inSubquery e q negated =>
    if stmtRefsQuals outer q then do
      let e ← resolveExpr e
      .ok (.inSubquery e q negated)
    else do
      let out ← run q
      let list ← listOf out
      let e ← resolveExpr e
      .ok (.node (.in_ negated) (e :: list))
  | .literal v => .ok (.literal v)
  | .column table name => .ok (.column table name)
  | .param n => .ok (.param n)
  | .node op args => do
    let args ← resolveList args
    .ok (.node op args)
  | .aggregate func arg distinct sep => do
    let arg ← resolveOpt arg
    let sep ← resolveOpt sep
    .ok (.aggregate func arg distinct sep)
  | .window func args partition_by order_by frame => do
    let args ← resolveList args
    let partition_by ← resolveList partition_by
    .ok (.window func args partition_by order_by frame)

def resolveList : List Expr → Result (List Expr)
  | [] => .ok []
  | e :: es => do
    let e ← resolveExpr e
    let es ← resolveList es
    .ok (e :: es)

def resolveOpt : Option Expr → Result (Option Expr)
  | none => .ok none
  | some e => do
    let e ← resolveExpr e
    .ok (some e)

end

def resolveItems : List SelectItem → Result (List SelectItem)
  | [] => .ok []
  | .star :: items => do
    let items ← resolveItems items
    .ok (.star :: items)
  | .expr e alias_ :: items => do
    let e ← resolveExpr run outer e
    let items ← resolveItems items
    .ok (.expr e alias_ :: items)

def resolveJoins : List Join → Result (List Join)
  | [] => .ok []
  | j :: joins => do
    let on ← resolveExpr run outer j.on
    let joins ← resolveJoins joins
    .ok ({ j with on := on } :: joins)

def resolveSelectSubqueries (stmt : SelectStmt) : Result SelectStmt := do
  let where_clause ← resolveOpt run outer stmt.where_clause
  let having ← resolveOpt run outer stmt.having
  let projection ← resolveItems run outer stmt.projection
  let joins ← resolveJoins run outer stmt.joins
  let group_by ← resolveList run outer stmt.group_by
  .ok { stmt with where_clause, having, projection, joins, group_by }

end Resolve

section Subst
variable (schema : QuerySchema) (row : Row)

mutual

/-- The qualified columns of the schema as literals, also inside subqueries. -/
def substOuterExpr : Expr → Result Expr
  | .column (some q) name =>
    match schema.resolve (some q) name with
    | .ok i => do
      let v ← okOr row[i]? (.panic "index out of bounds")
      .ok (.literal v)
    | .error _ => .ok (.column (some q) name)
  | .column none name => .ok (.column none name)
  | .literal v => .ok (.literal v)
  | .param n => .ok (.param n)
  | .node op args => do
    let args ← substOuterList args
    .ok (.node op args)
  | .aggregate func arg distinct sep => do
    let arg ← substOuterOpt arg
    let sep ← substOuterOpt sep
    .ok (.aggregate func arg distinct sep)
  | .scalarSubquery q => do
    let q ← substOuterStmt q
    .ok (.scalarSubquery q)
  | .exists_ q => do
    let q ← substOuterStmt q
    .ok (.exists_ q)
  | .inSubquery e q negated => do
    let e ← substOuterExpr e
    let q ← substOuterStmt q
    .ok (.inSubquery e q negated)
  | .window func args partition_by order_by frame => do
    let args ← substOuterList args
    let partition_by ← substOuterList partition_by
    .ok (.window func args partition_by order_by frame)

def substOuterList : List Expr → Result (List Expr)
  | [] => .ok []
  | e :: es => do
    let e ← substOuterExpr e
    let es ← substOuterList es
    .ok (e :: es)

def substOuterOpt : Option Expr → Result (Option Expr)
  | none => .ok none
  | some e => do
    let e ← substOuterExpr e
    .ok (some e)

def substOuterItems : List SelectItem → Result (List SelectItem)
  | [] => .ok []
  | .star :: items => do
    let items ← substOuterItems items
    .ok (.star :: items)
  | .expr e alias_ :: items => do
    let e ← substOuterExpr e
    let items ← substOuterItems items
    .ok (.expr e alias_ :: items)

def substOuterJoins : List Join → Result (List Join)
  | [] => .ok []
  | ⟨kind, table, on⟩ :: joins => do
    let on ← substOuterExpr on
    let joins ← substOuterJoins joins
    .ok (⟨kind, table, on⟩ :: joins)

def substOuterCompound : List CompoundSelect → Result (List CompoundSelect)
  | [] => .ok []
  | ⟨op, q⟩ :: cs => do
    let q ← substOuterStmt q
    let cs ← substOuterCompound cs
    .ok (⟨op, q⟩ :: cs)

/-- `ORDER BY`, `LIMIT` and the subqueries of `FROM` are left as they are. -/
def substOuterStmt : SelectStmt → Result SelectStmt
  | ⟨distinct, projection, from_, joins, where_clause, group_by, having, order_by, limit, offset,
      as_of, compound, with_⟩ => do
    let where_clause ← substOuterOpt where_clause
    let having ← substOuterOpt having
    let projection ← substOuterItems projection
    let joins ← substOuterJoins joins
    let group_by ← substOuterList group_by
    let compound ← substOuterCompound compound
    .ok ⟨distinct, projection, from_, joins, where_clause, group_by, having, order_by, limit,
      offset, as_of, compound, with_⟩

end

end Subst

section Correlated
variable (run : SelectStmt → Result SelectOut) (schema : QuerySchema) (row : Row)

mutual

/-- The subqueries of an expression replaced by what they give for a row. -/
def resolveCorrelatedExpr : Expr → Result Expr
  | .scalarSubquery q => do
    let q ← substOuterStmt schema row q
    let out ← run q
    let v ← scalarOf out
    .ok (.literal v)
  | .exists_ q => do
    let q ← substOuterStmt schema row q
    let out ← run q
    .ok (.literal (existsOf out))
  | .inSubquery e q negated => do
    let q ← substOuterStmt schema row q
    let out ← run q
    let list ← listOf out
    let e ← resolveCorrelatedExpr e
    .ok (.node (.in_ negated) (e :: list))
  | .literal v => .ok (.literal v)
  | .column table name => .ok (.column table name)
  | .param n => .ok (.param n)
  | .node op args => do
    let args ← resolveCorrelatedList args
    .ok (.node op args)
  | .aggregate func arg distinct sep => do
    let arg ← resolveCorrelatedOpt arg
    let sep ← resolveCorrelatedOpt sep
    .ok (.aggregate func arg distinct sep)
  | .window func args partition_by order_by frame => do
    let args ← resolveCorrelatedList args
    let partition_by ← resolveCorrelatedList partition_by
    .ok (.window func args partition_by order_by frame)

def resolveCorrelatedList : List Expr → Result (List Expr)
  | [] => .ok []
  | e :: es => do
    let e ← resolveCorrelatedExpr e
    let es ← resolveCorrelatedList es
    .ok (e :: es)

def resolveCorrelatedOpt : Option Expr → Result (Option Expr)
  | none => .ok none
  | some e => do
    let e ← resolveCorrelatedExpr e
    .ok (some e)

end

end Correlated

end Arkeion.Sql
