import Arkeion.Record

/-!
The statements of a query.

An expression whose operands are all read in its own scope is an operator with its operands, in
the order they are written in; those of a `CASE` are the operand, each condition with its
result, and the `ELSE`. Aggregates, windows and subqueries stand apart.
-/

namespace Arkeion.Sql

inductive UnOp where
  | neg
  | not
  deriving DecidableEq, Repr

inductive BinOp where
  | eq | ne | lt | le | gt | ge
  | and | or
  | add | sub | mul | div | mod
  | concat | jsonGet | jsonGetText
  deriving DecidableEq, Repr

inductive AggFunc where
  | count | sum | avg | min | max | groupConcat
  deriving DecidableEq, Repr

inductive WindowFunc where
  | rowNumber | rank | denseRank | ntile | lag | lead | firstValue | lastValue
  | sum | count | avg | min | max
  deriving DecidableEq, Repr

inductive FrameBound where
  | unboundedPreceding
  | preceding (n : ℕ)
  | currentRow
  | following (n : ℕ)
  | unboundedFollowing
  deriving DecidableEq, Repr

structure WindowFrame where
  start : FrameBound
  end_ : FrameBound
  deriving DecidableEq, Repr

inductive JoinKind where
  | inner
  | left
  deriving DecidableEq, Repr

inductive SetOp where
  | union
  | unionAll
  | intersect
  | except
  deriving DecidableEq, Repr

inductive AsOfClause where
  | version (v : ℕ)
  | timestamp (ms : ℕ)
  deriving DecidableEq, Repr

inductive Op where
  | unary (op : UnOp)
  | binary (op : BinOp)
  | isNull (negated : Bool)
  | like (negated : Bool)
  | match_ (negated : Bool)
  | function (name : String)
  | in_ (negated : Bool)
  | cast (to_ : ColType)
  | case_ (operand else_ : Bool)
  deriving DecidableEq, Repr

mutual

inductive Expr where
  | literal (v : Value)
  | column (table : Option String) (name : String)
  | param (n : ℕ)
  | node (op : Op) (args : List Expr)
  | aggregate (func : AggFunc) (arg : Option Expr) (distinct : Bool) (sep : Option Expr)
  | scalarSubquery (query : SelectStmt)
  | exists_ (query : SelectStmt)
  | inSubquery (expr : Expr) (query : SelectStmt) (negated : Bool)
  | window (func : WindowFunc) (args partition_by : List Expr) (order_by : List OrderBy)
      (frame : Option WindowFrame)

structure OrderBy where
  expr : Expr
  desc : Bool

inductive SelectItem where
  | star
  | expr (expr : Expr) (alias_ : Option String)

structure TableRef where
  name : String
  alias_ : Option String
  subquery : Option SelectStmt

structure Join where
  kind : JoinKind
  table : TableRef
  on : Expr

structure CompoundSelect where
  op : SetOp
  select : SelectStmt

structure Cte where
  name : String
  query : SelectStmt

structure SelectStmt where
  distinct : Bool
  projection : List SelectItem
  from_ : Option TableRef
  joins : List Join
  where_clause : Option Expr
  group_by : List Expr
  having : Option Expr
  order_by : List OrderBy
  limit : Option Expr
  offset : Option Expr
  as_of : Option AsOfClause
  compound : List CompoundSelect
  with_ : List Cte

end

/-- The name of the table in the statement: its alias or its own. -/
def TableRef.qualifier (t : TableRef) : String := t.alias_.getD t.name

/-! ### What an expression contains -/

mutual

/-- No column is read. Subqueries and windows depend on the data. -/
def Expr.isConst : Expr → Bool
  | .literal _ | .param _ => true
  | .node _ args => allConst args
  | .column .. | .aggregate .. | .scalarSubquery _ | .exists_ _ | .inSubquery .. | .window .. => false

def allConst : List Expr → Bool
  | [] => true
  | e :: es => e.isConst && allConst es

end

mutual

/-- An aggregate of this statement; one in a subquery is of the subquery. -/
def Expr.hasAggregate : Expr → Bool
  | .aggregate .. => true
  | .node _ args => anyAggregate args
  | .literal _ | .column .. | .param _ | .scalarSubquery _ | .exists_ _ | .inSubquery ..
  | .window .. => false

def anyAggregate : List Expr → Bool
  | [] => false
  | e :: es => e.hasAggregate || anyAggregate es

end

mutual

def Expr.hasWindow : Expr → Bool
  | .window .. => true
  | .node _ args => anyWindow args
  | .aggregate _ arg _ _ => optWindow arg
  | .literal _ | .column .. | .param _ | .scalarSubquery _ | .exists_ _ | .inSubquery .. => false

def anyWindow : List Expr → Bool
  | [] => false
  | e :: es => e.hasWindow || anyWindow es

def optWindow : Option Expr → Bool
  | none => false
  | some e => e.hasWindow

end

mutual

def exprHasSubquery : Expr → Bool
  | .scalarSubquery _ | .exists_ _ | .inSubquery .. => true
  | .literal _ | .column .. | .param _ => false
  | .node _ args => anySubquery args
  | .aggregate _ arg _ sep => optSubquery arg || optSubquery sep
  | .window _ args partition_by _ _ => anySubquery args || anySubquery partition_by

def anySubquery : List Expr → Bool
  | [] => false
  | e :: es => exprHasSubquery e || anySubquery es

def optSubquery : Option Expr → Bool
  | none => false
  | some e => exprHasSubquery e

end

def SelectItem.any (p : Expr → Bool) : SelectItem → Bool
  | .star => false
  | .expr e _ => p e

/-- An expression of the statement itself has a subquery. -/
def selectHasSubquery (stmt : SelectStmt) : Bool :=
  stmt.where_clause.any exprHasSubquery || stmt.projection.any (·.any exprHasSubquery)
    || stmt.having.any exprHasSubquery || stmt.joins.any (fun j => exprHasSubquery j.on)
    || stmt.group_by.any exprHasSubquery

def selectHasDerived (stmt : SelectStmt) : Bool :=
  stmt.from_.any (·.subquery.isSome) || stmt.joins.any (·.table.subquery.isSome)

end Arkeion.Sql
