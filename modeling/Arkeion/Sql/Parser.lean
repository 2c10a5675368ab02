import Arkeion.Sql.Datetime
import Arkeion.Sql.Lexer
import Arkeion.Sql.Trigger

/-!
The parser of statements: recursive descent over the tokens.

What is recursive in the grammar is gathered in `Grammar`: an expression within an expression and a
query within another. Each of them is read with less fuel than what it stands in; a loop takes the
number of tokens as its fuel.
-/

namespace Arkeion.Sql

open Arkeion.Lib Catalog

/-! ### Statements -/

structure ColumnFk where
  parent : String
  parent_column : Option String
  on_delete : FkAction
  on_update : FkAction
  deriving DecidableEq, Repr

/-- The condition of a CHECK is kept as text. -/
structure ColumnAst where
  name : String
  col_type : ColType
  not_null : Bool
  primary_key : Bool
  default_ : Option Expr
  references : Option ColumnFk
  unique : Bool
  check : Option String

/-- All statements; the query of a view and the body of a trigger are kept as text. -/
inductive Statement where
  | createTable (if_not_exists : Bool) (name : String) (columns : List ColumnAst)
      (foreign_keys : List ForeignKeySpec) (uniques : List (List String)) (checks : List String)
  | createTableAs (if_not_exists : Bool) (name : String) (query : SelectStmt)
  | dropTable (if_exists : Bool) (name : String)
  | createView (if_not_exists : Bool) (name select_sql : String)
  | dropView (if_exists : Bool) (name : String)
  | createTrigger (if_not_exists : Bool) (trigger : TriggerDef)
  | dropTrigger (if_exists : Bool) (name : String)
  | createIndex (if_not_exists unique : Bool) (name table : String) (columns : List String)
  | dropIndex (if_exists : Bool) (name : String)
  | createFtsIndex (if_not_exists : Bool) (name table : String) (columns : List String)
      (tokenizer : Option String)
  | dropFtsIndex (if_exists : Bool) (name : String)
  | createVectorIndex (if_not_exists : Bool) (name table column : String) (metric : Option String)
      (lists probes : Option ℕ) (rerank_i8 : Bool)
  | dropVectorIndex (if_exists : Bool) (name : String)
  | rebuildVectorIndex (name : String)
  | insert (table : String) (columns : Option (List String)) (source : InsertSource)
      (on_conflict : Option ConflictAction) (returning : Option (List SelectItem))
  | select (query : SelectStmt)
  | alterTableAddColumn (table : String) (column : ColumnAst)
  | alterTableMoveColumn (table column : String) (pos : ColumnPos)
  | alterTableReorderColumns (table : String) (order : List String)
  | alterTableRenameColumn (table old new : String)
  | alterTableDropColumn (table column : String)
  | update (table : String) (sets : List (String × Expr)) (where_clause : Option Expr)
      (returning : Option (List SelectItem))
  | delete (table : String) (where_clause : Option Expr) (returning : Option (List SelectItem))
  | begin_
  | commit
  | rollback
  | savepoint (name : String)
  | releaseSavepoint (name : String)
  | rollbackTo (name : String)

/-! ### The parser -/

/-- The tokens are those that are left. -/
structure Parser where
  src : List Char
  toks : List Spanned
  end_ : ℕ
  param_names : List String
  positional_seen : Bool
  depth : ℕ

def MAX_EXPR_DEPTH : ℕ := 256

abbrev Parse (α : Type) := StateT Parser Result α

namespace Parse

section Tokens
variable {α : Type}

def fail (msg : String) : Parse α := fun _ => .error (.sql msg)

def outOfFuel : Parse α := fun _ => .error .outOfFuel

/-- A loop, with a step for each token that is left. -/
def loop (step : ℕ → Parse α) : Parse α := fun p => step (p.toks.length + 1) p

def peek : Parse (Option Tok) := fun p => .ok (p.toks.head?.map Spanned.tok, p)

/-- The next two tokens are these. -/
def ahead (t u : Tok) : Parse Bool := fun p =>
  .ok ((p.toks.map Spanned.tok).take 2 == [t, u], p)

def pos : Parse ℕ := fun p => .ok ((p.toks.head?.map Spanned.pos).getD p.end_, p)

def next : Parse (Option Tok) := fun p =>
  .ok (p.toks.head?.map Spanned.tok, { p with toks := p.toks.tail })

/-- The next token, if it is of the kind. -/
def eatAs (f : Tok → Option α) : Parse (Option α) := fun p =>
  match (p.toks.head?.map Spanned.tok).bind f with
  | some a => .ok (some a, { p with toks := p.toks.tail })
  | none => .ok (none, p)

def eat (t : Tok) : Parse Bool := Option.isSome <$> eatAs fun u => if u = t then some u else none

def eatKw (k : Kw) : Parse Bool := eat (.kw k)

/-- `[NOT] k`: negated or not, if it is there. -/
def eatNot (k : Kw) : Parse (Option Bool) := fun p =>
  if (p.toks.map Spanned.tok).take 2 = [.kw .not_, .kw k] then
    .ok (some true, { p with toks := p.toks.drop 2 })
  else if p.toks.head?.map Spanned.tok = some (.kw k) then
    .ok (some false, { p with toks := p.toks.tail })
  else .ok (none, p)

/-- Both tokens, if they are the next ones. -/
def eatBoth (t u : Tok) : Parse Bool := fun p =>
  if (p.toks.map Spanned.tok).take 2 = [t, u] then .ok (true, { p with toks := p.toks.drop 2 })
  else .ok (false, p)

def expect (t : Tok) (what : String) : Parse Unit := do
  if ← eat t then pure () else fail s!"se esperaba {what}"

def expectKw (k : Kw) (what : String) : Parse Unit := expect (.kw k) what

def identOf : Tok → Option String
  | .ident name => some name
  | _ => none

def ident (what : String) : Parse String := do
  match ← eatAs identOf with
  | some name => pure name
  | none => fail s!"se esperaba {what}"

/-- What follows a keyword, if the keyword is there. -/
def ifKw (k : Kw) (p : Parse α) : Parse (Option α) := do
  if ← eatKw k then some <$> p else pure none

/-- `p, p, …` -/
def commaLoop (p : Parse α) : ℕ → Parse (List α)
  | 0 => outOfFuel
  | n + 1 => do
    let a ← p
    if ← eat .comma then List.cons a <$> commaLoop p n else pure [a]

def commaSep (p : Parse α) : Parse (List α) := loop (commaLoop p)

def parens (open_ : String) (p : Parse α) : Parse α := do
  expect .lParen open_
  let a ← p
  expect .rParen "')'"
  pure a

end Tokens

/-! ### The recursion of the grammar -/

structure Grammar where
  expr : Parse Expr
  select : Parse SelectStmt

/-- One level of nesting: at most `MAX_EXPR_DEPTH` of them. -/
def nested (e : Parse Expr) : Parse Expr := fun p =>
  if MAX_EXPR_DEPTH < p.depth + 1 then .error (.sql "expresión demasiado anidada")
  else do
    let r ← e { p with depth := p.depth + 1 }
    .ok (r.1, { r.2 with depth := r.2.depth - 1 })

/-! ### Operators -/

/-- `e op e op …`, to the left. -/
def leftLoop (op? : Tok → Option BinOp) (e : Parse Expr) : ℕ → Expr → Parse Expr
  | 0, _ => outOfFuel
  | n + 1, left => do
    match ← eatAs op? with
    | none => pure left
    | some op => do
      let right ← e
      leftLoop op? e n (.node (.binary op) [left, right])

def leftAssoc (op? : Tok → Option BinOp) (e : Parse Expr) : Parse Expr := do
  let left ← e
  loop fun n => leftLoop op? e n left

/-- `t t … e` -/
def unaryLoop (t : Tok) (op : UnOp) (e : Parse Expr) : ℕ → Parse Expr
  | 0 => outOfFuel
  | n + 1 => do
    if ← eat t then (fun a => .node (.unary op) [a]) <$> unaryLoop t op e n else e

def orOp? : Tok → Option BinOp
  | .kw .or_ => some .or
  | _ => none

def andOp? : Tok → Option BinOp
  | .kw .and_ => some .and
  | _ => none

def cmpOp? : Tok → Option BinOp
  | .eq => some .eq
  | .ne => some .ne
  | .lt => some .lt
  | .le => some .le
  | .gt => some .gt
  | .ge => some .ge
  | _ => none

def addOp? : Tok → Option BinOp
  | .plus => some .add
  | .minus => some .sub
  | _ => none

def mulOp? : Tok → Option BinOp
  | .star => some .mul
  | .slash => some .div
  | .percent => some .mod
  | _ => none

def concatOp? : Tok → Option BinOp
  | .concat => some .concat
  | .arrow => some .jsonGet
  | .arrowArrow => some .jsonGetText
  | _ => none

/-! ### Names and types -/

def upper (name : String) : String := String.ofList (name.toList.map Char.toUpper)

def typeOf? : Tok → Option ColType
  | .kw .integer => some .integer
  | .kw .real => some .real
  | .kw .text => some .text
  | .kw .blob => some .blob
  | .kw .boolean => some .boolean
  | _ => none

def coltype : Parse ColType := do
  match (← next).bind typeOf? with
  | some t => pure t
  | none => fail "se esperaba un tipo: INTEGER, REAL, TEXT, BLOB o BOOLEAN"

/-- A number that is not negative. -/
def natOf? : Tok → Option ℕ
  | .int n => if n.toInt < 0 then none else some n.toInt.toNat
  | _ => none

def MIX_PARAMS : String :=
  "no se pueden mezclar parámetros posicionales (?N) y nombrados (:nombre)"

def positionalParam (n : ℕ) : Parse Expr := fun p =>
  if p.param_names = [] then .ok (.param n, { p with positional_seen := true })
  else .error (.sql MIX_PARAMS)

/-- The first time it is named a parameter takes the next number. -/
def namedParam (name : String) : Parse Expr := fun p =>
  if p.positional_seen then .error (.sql MIX_PARAMS)
  else match p.param_names.idxOf? name with
    | some i => .ok (.param (i + 1), p)
    | none => .ok (.param (p.param_names.length + 1),
        { p with param_names := p.param_names ++ [name] })

/-- What an expression without operators begins with. -/
inductive Start where
  | literal (v : Value)
  | cast
  | case_
  | param (n : ℕ)
  | namedParam (name : String)
  | vector
  | ident (name : String)
  | exists_
  | lParen

def startOf? : Tok → Option Start
  | .int n => some (.literal (.integer n))
  | .float f => some (.literal (.real f))
  | .str s => some (.literal (.text s))
  | .blob b => some (.literal (.blob b))
  | .kw .null => some (.literal .null)
  | .kw .true_ => some (.literal (.bool true))
  | .kw .false_ => some (.literal (.bool false))
  | .kw .cast => some .cast
  | .kw .case_ => some .case_
  | .param n => some (.param n)
  | .namedParam name => some (.namedParam name)
  | .kw .vector => some .vector
  | .ident name => some (.ident name)
  | .kw .exists_ => some .exists_
  | .lParen => some .lParen
  | _ => none

/-! ### Windows -/

/-- `n` as a row count, `PRECEDING` or `FOLLOWING`. -/
def frameBound : Parse FrameBound := do
  if ← eatKw .unbounded then
    if ← eatKw .preceding then pure .unboundedPreceding
    else do
      expectKw .following "FOLLOWING"
      pure .unboundedFollowing
  else if ← eatKw .current then do
    expectKw .row "ROW"
    pure .currentRow
  else
    match (← next).bind natOf? with
    | some n =>
      if ← eatKw .preceding then pure (.preceding n)
      else if ← eatKw .following then pure (.following n)
      else fail "se esperaba PRECEDING o FOLLOWING"
    | none => fail "se esperaba un entero, UNBOUNDED o CURRENT"

def frameBounds : Parse WindowFrame := do
  if ← eatKw .between then
    let start ← frameBound
    expectKw .and_ "AND"
    let end_ ← frameBound
    pure ⟨start, end_⟩
  else
    let start ← frameBound
    pure ⟨start, .currentRow⟩

def windowFrame : Parse (Option WindowFrame) := ifKw .rows frameBounds

def windowFunc? (name : String) : Option WindowFunc :=
  match upper name with
  | "ROW_NUMBER" => some .rowNumber
  | "RANK" => some .rank
  | "DENSE_RANK" => some .denseRank
  | "NTILE" => some .ntile
  | "LAG" => some .lag
  | "LEAD" => some .lead
  | "FIRST_VALUE" => some .firstValue
  | "LAST_VALUE" => some .lastValue
  | _ => none

def windowAgg? : AggFunc → Option WindowFunc
  | .sum => some .sum
  | .count => some .count
  | .avg => some .avg
  | .min => some .min
  | .max => some .max
  | .groupConcat => none

/-- The function and the arguments of a call that has `OVER` behind it. -/
def windowCall : Expr → Result (WindowFunc × List Expr)
  | .aggregate func arg distinct sep =>
    if distinct then .error (.sql "DISTINCT no se admite en una ventana")
    else match windowAgg? func with
      | some f =>
        if sep.isSome then .error (.sql "GROUP_CONCAT no se admite como ventana")
        else .ok (f, arg.toList)
      | none => .error (.sql "GROUP_CONCAT no se admite como ventana")
  | .node (.function name) args => do
    let f ← okOr (windowFunc? name) (.sql s!"«{upper name}» no es una función de ventana")
    .ok (f, args)
  | _ => .error (.sql "OVER solo puede seguir a una función")

section Expressions
variable (G : Grammar)

def orderByItem : Parse OrderBy := do
  let expr ← G.expr
  if ← eatKw .desc then pure ⟨expr, true⟩
  else do
    let _ ← eatKw .asc
    pure ⟨expr, false⟩

def orderByItems : Parse (List OrderBy) := commaSep (orderByItem G)

/-- `k BY p`, if it is there. -/
def clauseBy {α : Type} (k : Kw) (p : Parse (List α)) : Parse (List α) := do
  if ← eatKw k then do
    expectKw .by_ "BY"
    p
  else pure []

def windowOver (call : Expr) : Parse Expr := do
  let c ← liftM (windowCall call)
  parens "'(' tras OVER" do
    let partition_by ← clauseBy .partition (commaSep G.expr)
    let order_by ← clauseBy .order (orderByItems G)
    let frame ← windowFrame
    pure (.window c.1 c.2 partition_by order_by frame)

def finishCall (call : Expr) : Parse Expr := do
  if ← eatKw .over then windowOver G call else pure call

/-! ### Expressions -/

/-- None or several. -/
def exprList : Parse (List Expr) := do
  if (← peek) = some .rParen then pure [] else commaSep G.expr

/-- The arguments of a call up to the parenthesis. -/
def callArgs : Parse (List Expr) := do
  let args ← exprList G
  expect .rParen "')'"
  pure args

def whenClause : Parse (Expr × Expr) := do
  let cond ← G.expr
  expectKw .then_ "THEN"
  let result ← G.expr
  pure (cond, result)

def whenLoop : ℕ → Parse (List (Expr × Expr))
  | 0 => outOfFuel
  | n + 1 => do
    match ← ifKw .when (whenClause G) with
    | some w => List.cons w <$> whenLoop n
    | none => pure []

/-- A `CASE`, with its operand and its `ELSE` where they are there. -/
def caseNode (operand : Option Expr) (whens : List (Expr × Expr)) (else_ : Option Expr) : Expr :=
  .node (.case_ operand.isSome else_.isSome)
    (operand.toList ++ ((whens.flatMap fun w => [w.1, w.2]) ++ else_.toList))

def caseOperand : Parse (Option Expr) := do
  if (← peek) = some (.kw .when) then pure none else some <$> G.expr

def caseExpr : Parse Expr := do
  let operand ← caseOperand G
  let whens ← loop (whenLoop G)
  if whens.isEmpty then fail "CASE necesita al menos un WHEN … THEN"
  else
    let else_ ← ifKw .else_ G.expr
    expectKw .end_ "END"
    pure (caseNode operand whens else_)

def extremeOf? (name : String) : Option AggFunc :=
  match upper name with
  | "MIN" => some .min
  | "MAX" => some .max
  | _ => none

def aggregateOf? (name : String) : Option AggFunc :=
  match upper name with
  | "COUNT" => some .count
  | "SUM" => some .sum
  | "AVG" => some .avg
  | "GROUP_CONCAT" => some .groupConcat
  | _ => none

/-- `MIN` and `MAX` are aggregates of one argument and functions of several. -/
def extremeCall (func : AggFunc) (name : String) : Parse Expr := do
  if ← eatKw .distinct then
    let arg ← G.expr
    expect .rParen "')'"
    finishCall G (.aggregate func (some arg) true none)
  else
    match ← callArgs G with
    | [arg] => finishCall G (.aggregate func (some arg) false none)
    | args => finishCall G (.node (.function name) args)

def aggregateArg (func : AggFunc) (distinct : Bool) : Parse (Option Expr) := do
  if ← eat .star then
    if distinct then fail "DISTINCT no admite '*'"
    else if func ≠ .count then fail "solo COUNT admite '*'"
    else pure none
  else some <$> G.expr

def aggregateSep (func : AggFunc) : Parse (Option Expr) := do
  if func = .groupConcat then
    if ← eat .comma then some <$> G.expr else pure none
  else pure none

def aggregateCall (func : AggFunc) : Parse Expr := do
  let distinct ← eatKw .distinct
  let arg ← aggregateArg G func distinct
  let sep ← aggregateSep G func
  expect .rParen "')'"
  finishCall G (.aggregate func arg distinct sep)

def functionCall (name : String) : Parse Expr := do
  let args ← callArgs G
  if upper name = "IIF" then
    match args with
    | [cond, yes, no] => pure (caseNode none [(cond, yes)] (some no))
    | _ => fail "iif() requiere exactamente 3 argumentos"
  else finishCall G (.node (.function name) args)

/-- Behind a name: a column of it, the arguments of a call, or nothing. -/
def nameExpr (name : String) : Parse Expr := do
  if ← eat .dot then
    let col ← ident "un nombre de columna"
    pure (.column (some name) col)
  else if ← eat .lParen then
    match extremeOf? name with
    | some func => extremeCall G func name
    | none =>
      match aggregateOf? name with
      | some func => aggregateCall G func
      | none => functionCall G name
  else pure (.column none name)

def castExpr : Parse Expr := parens "'(' tras CAST" do
  let inner ← G.expr
  expectKw .as_ "AS"
  let to_ ← coltype
  pure (.node (.cast to_) [inner])

def vectorCall : Parse Expr := do
  expect .lParen "'(' tras vector"
  let args ← callArgs G
  finishCall G (.node (.function "vector") args)

/-- A query or an expression. -/
def parenBody : Parse Expr := do
  if (← peek) = some (.kw .select) then .scalarSubquery <$> G.select else G.expr

/-- Behind an opening parenthesis. -/
def parenExpr : Parse Expr := do
  let e ← parenBody G
  expect .rParen "')'"
  pure e

def primary : Parse Expr := do
  match (← next).bind startOf? with
  | some (.literal v) => pure (.literal v)
  | some .cast => castExpr G
  | some .case_ => caseExpr G
  | some (.param n) => positionalParam n
  | some (.namedParam name) => namedParam name
  | some .vector => vectorCall G
  | some (.ident name) => nameExpr G name
  | some .exists_ => .exists_ <$> parens "'(' tras EXISTS" G.select
  | some .lParen => parenExpr G
  | none => fail "se esperaba una expresión"

def unaryExpr : Parse Expr := loop (unaryLoop .minus .neg (primary G))

def concatExpr : Parse Expr := leftAssoc concatOp? (unaryExpr G)

def mulExpr : Parse Expr := leftAssoc mulOp? (concatExpr G)

def addExpr : Parse Expr := leftAssoc addOp? (mulExpr G)

/-- What is behind `IN`: a query or a list, which may be empty. -/
def inRest (left : Expr) (negated : Bool) : Parse Expr := do
  expect .lParen "'(' tras IN"
  if (← peek) = some (.kw .select) then
    let sub ← G.select
    expect .rParen "')'"
    pure (.inSubquery left sub negated)
  else
    let list ← callArgs G
    pure (.node (.in_ negated) (left :: list))

def cmp (l : Expr) (op : BinOp) (r : Expr) : Expr := .node (.binary op) [l, r]

/-- `BETWEEN` is two comparisons, each with the operand. -/
def betweenRest (left : Expr) (negated : Bool) : Parse Expr := do
  let lo ← addExpr G
  expectKw .and_ "AND"
  let hi ← addExpr G
  pure (if negated then cmp (cmp left .lt lo) .or (cmp left .gt hi)
    else cmp (cmp left .ge lo) .and (cmp left .le hi))

def compareRest (left : Expr) : Parse Expr := do
  match ← eatAs cmpOp? with
  | some op => cmp left op <$> addExpr G
  | none => pure left

/-- What may follow the first operand. -/
def cmpRest (left : Expr) : Parse Expr := do
  if ← eatKw .is_ then
    let negated ← eatKw .not_
    expectKw .null "NULL"
    pure (.node (.isNull negated) [left])
  else match ← eatNot .like with
  | some negated => (fun pattern => .node (.like negated) [left, pattern]) <$> addExpr G
  | none => match ← eatNot .match_ with
    | some negated => (fun query => .node (.match_ negated) [left, query]) <$> addExpr G
    | none => match ← eatNot .in_ with
      | some negated => inRest G left negated
      | none => match ← eatNot .between with
        | some negated => betweenRest G left negated
        | none => compareRest G left

def cmpExpr : Parse Expr := do
  let left ← addExpr G
  cmpRest G left

def notExpr : Parse Expr := loop (unaryLoop (.kw .not_) .not (cmpExpr G))

def andExpr : Parse Expr := leftAssoc andOp? (notExpr G)

def orExpr : Parse Expr := leftAssoc orOp? (andExpr G)

end Expressions

/-! ### Queries -/

section Queries
variable (G : Grammar)

/-- `AS name`; `AS OF` is not a name. -/
def columnAlias : Parse (Option String) := do
  if ← ahead (.kw .as_) (.kw .of_) then pure none
  else ifKw .as_ (ident "un alias de columna tras AS")

def selectItem : Parse SelectItem := do
  if ← eat .star then pure .star
  else
    let expr ← G.expr
    let alias_ ← columnAlias
    pure (.expr expr alias_)

/-- `AS name`, or a name alone. -/
def tableAlias : Parse (Option String) := do
  if ← ahead (.kw .as_) (.kw .of_) then pure none
  else if ← eatKw .as_ then some <$> ident "un alias de tabla"
  else eatAs identOf

def tableRef : Parse TableRef := do
  if ← ahead .lParen (.kw .select) then
    let sub ← parens "'('" G.select
    let _ ← eatKw .as_
    let alias_ ← ident "un alias para la subconsulta del FROM"
    pure ⟨"", some alias_, some sub⟩
  else
    let name ← ident "un nombre de tabla"
    let alias_ ← tableAlias
    pure ⟨name, alias_, none⟩

def joinKind : Parse (Option JoinKind) := do
  if ← eatKw .inner then do
    expectKw .join "JOIN"
    pure (some .inner)
  else if ← eatKw .left then do
    expectKw .join "JOIN"
    pure (some .left)
  else if ← eatKw .join then pure (some .inner)
  else pure none

def joinLoop : ℕ → Parse (List Join)
  | 0 => outOfFuel
  | n + 1 => do
    match ← joinKind with
    | none => pure []
    | some kind => do
      let table ← tableRef G
      expectKw .on_ "ON"
      let on ← G.expr
      List.cons ⟨kind, table, on⟩ <$> joinLoop n

/-- Joins, if there is a table to join to. -/
def joins (from_ : Option TableRef) : Parse (List Join) :=
  if from_.isSome then loop (joinLoop G) else pure []

/-- From `SELECT` to `HAVING`. -/
def selectCore : Parse SelectStmt := do
  expectKw .select "SELECT"
  let distinct ← eatKw .distinct
  let projection ← commaSep (selectItem G)
  let from_ ← ifKw .from_ (tableRef G)
  let joins ← joins G from_
  let where_clause ← ifKw .where_ G.expr
  let group_by ← clauseBy .group (commaSep G.expr)
  let having ← ifKw .having G.expr
  pure ⟨distinct, projection, from_, joins, where_clause, group_by, having, [], none, none, none,
    [], []⟩

def setOp : Parse (Option SetOp) := do
  if ← eatKw .union then
    if ← eatKw .all then pure (some .unionAll) else pure (some .union)
  else if ← eatKw .intersect then pure (some .intersect)
  else if ← eatKw .except then pure (some .except)
  else pure none

def compoundLoop : ℕ → Parse (List CompoundSelect)
  | 0 => outOfFuel
  | n + 1 => do
    match ← setOp with
    | none => pure []
    | some op => do
      let select ← selectCore G
      List.cons ⟨op, select⟩ <$> compoundLoop n

def asOfVersion : Parse AsOfClause := do
  match (← next).bind natOf? with
  | some n => pure (.version n)
  | none => fail "se esperaba un número de versión entero no negativo"

def strOf? : Tok → Option String
  | .str s => some s
  | _ => none

def asOfTimestamp : Parse AsOfClause := do
  match (← next).bind strOf? with
  | some s =>
    match Datetime.parseRfc3339Ms (encodeChars s.toList) with
    | some ms => pure (.timestamp ms)
    | none => fail "timestamp RFC 3339 inválido"
  | none => fail "se esperaba un literal de timestamp RFC 3339 entre comillas"

def asOf : Parse (Option AsOfClause) := do
  if ← eatBoth (.kw .as_) (.kw .of_) then
    if ← eatKw .version then some <$> asOfVersion
    else if ← eatKw .timestamp then some <$> asOfTimestamp
    else fail "se esperaba VERSION o TIMESTAMP tras AS OF"
  else pure none

/-- A query: its parts, and what applies to all of them. -/
def selectStmt : Parse SelectStmt := do
  let lead ← selectCore G
  let compound ← loop (compoundLoop G)
  let order_by ← clauseBy .order (orderByItems G)
  let limit ← ifKw .limit G.expr
  let offset ← ifKw .offset G.expr
  let as_of ← asOf
  pure { lead with compound, order_by, limit, offset, as_of }

def cte : Parse Cte := do
  let name ← ident "un nombre de CTE"
  expectKw .as_ "AS"
  let query ← parens "'(' tras AS" G.select
  pure ⟨name, query⟩

def withCtes : Parse (List Cte) := do
  expectKw .with_ "WITH"
  let _ ← eatKw .recursive
  commaSep (cte G)

def withQuery : Parse SelectStmt := do
  let ctes ← withCtes G
  let sel ← G.select
  pure { sel with with_ := ctes }

/-- The query of INSERT and of CREATE TABLE. `WITH` is eaten before it is read. -/
def sourceQuery : Parse SelectStmt := do
  if ← eatKw .with_ then withQuery G else G.select

end Queries

/-- The grammar to a depth. -/
def grammar : ℕ → Grammar
  | 0 => ⟨outOfFuel, outOfFuel⟩
  | n + 1 => ⟨nested (orExpr (grammar n)), selectStmt (grammar n)⟩

/-! ### Tables and indexes -/

def ifNotExists : Parse Bool := do
  if ← eatKw .if_ then do
    expectKw .not_ "NOT"
    expectKw .exists_ "EXISTS"
    pure true
  else pure false

def ifExists : Parse Bool := do
  if ← eatKw .if_ then do
    expectKw .exists_ "EXISTS"
    pure true
  else pure false

def idents (open_ what : String) : Parse (List String) := parens open_ (commaSep (ident what))

def fkAction : Parse FkAction := do
  if ← eatKw .cascade then pure .cascade
  else if ← eatKw .restrict then pure .restrict
  else if ← eatKw .set then do
    expectKw .null "NULL"
    pure .setNull
  else fail "se esperaba CASCADE, RESTRICT o SET NULL"

/-- `ON DELETE` and `ON UPDATE`, in any order; the last of each counts. -/
def fkActionsLoop : ℕ → FkAction → FkAction → Parse (FkAction × FkAction)
  | 0, _, _ => outOfFuel
  | n + 1, on_delete, on_update => do
    if ← eatKw .on_ then
      if ← eatKw .delete then
        let action ← fkAction
        fkActionsLoop n action on_update
      else if ← eatKw .update then
        let action ← fkAction
        fkActionsLoop n on_delete action
      else fail "se esperaba DELETE o UPDATE tras ON"
    else pure (on_delete, on_update)

def fkActions : Parse (FkAction × FkAction) := loop fun n => fkActionsLoop n .restrict .restrict

/-- `(e)`, if the parenthesis is there. -/
def ifParens {α : Type} (e : Parse α) : Parse (Option α) := do
  if ← eat .lParen then do
    let a ← e
    expect .rParen "')'"
    pure (some a)
  else pure none

def fkReference : Parse ColumnFk := do
  let parent ← ident "una tabla padre"
  let parent_column ← ifParens (ident "una columna del padre")
  let actions ← fkActions
  pure ⟨parent, parent_column, actions.1, actions.2⟩

def tableFk : Parse ForeignKeySpec := do
  expectKw .foreign "FOREIGN"
  expectKw .key "KEY"
  let columns ← idents "'('" "una columna"
  expectKw .references "REFERENCES"
  let parent ← ident "una tabla padre"
  let parent_columns ← ifParens (commaSep (ident "una columna del padre"))
  let actions ← fkActions
  pure ⟨columns, parent, parent_columns.getD [], actions.1, actions.2⟩

/-- `trim`: blanks are those of Unicode. -/
def isWhitespace (c : Char) : Bool :=
  (9 ≤ c.toNat && c.toNat ≤ 13) || (0x2000 ≤ c.toNat && c.toNat ≤ 0x200A)
    || [0x20, 0x85, 0xA0, 0x1680, 0x2028, 0x2029, 0x202F, 0x205F, 0x3000].contains c.toNat

def trimmed (cs : List Char) : List Char :=
  ((cs.dropWhile isWhitespace).reverse.dropWhile isWhitespace).reverse

def bytesFrom : ℕ → List Char → List Char
  | _, [] => []
  | n, c :: cs => if n = 0 then c :: cs else bytesFrom (n - c.utf8Size) cs

def bytesTo : ℕ → List Char → List Char
  | _, [] => []
  | n, c :: cs => if n = 0 then [] else c :: bytesTo (n - c.utf8Size) cs

/-- The text from a position to the next token. -/
def textFrom (start : ℕ) : Parse String := do
  let stop ← pos
  fun p => .ok (String.ofList (trimmed (bytesTo (stop - start) (bytesFrom start p.src))), p)

/-- What a parser reads, as text. -/
def captured {α : Type} (e : Parse α) : Parse String := do
  let start ← pos
  let _ ← e
  textFrom start

section Tables
variable (G : Grammar)

def checkClause : Parse String := parens "'(' tras CHECK" (captured G.expr)

def columnLoop : ℕ → ColumnAst → Parse ColumnAst
  | 0, _ => outOfFuel
  | n + 1, col => do
    if ← eatKw .primary then
      expectKw .key "KEY"
      columnLoop n { col with primary_key := true }
    else if ← eatKw .not_ then
      expectKw .null "NULL"
      columnLoop n { col with not_null := true }
    else if ← eatKw .default_ then
      let e ← G.expr
      columnLoop n { col with default_ := some e }
    else if ← eatKw .references then
      let fk ← fkReference
      columnLoop n { col with references := some fk }
    else if ← eatKw .unique then columnLoop n { col with unique := true }
    else if ← eatKw .check then
      let text ← checkClause G
      columnLoop n { col with check := some text }
    else pure col

def columnDef : Parse ColumnAst := do
  let name ← ident "un nombre de columna"
  let col_type ← coltype
  loop fun n => columnLoop G n ⟨name, col_type, false, false, none, none, false, none⟩

/-- A column or a constraint of the table. -/
inductive TableItem where
  | column (c : ColumnAst)
  | foreignKey (fk : ForeignKeySpec)
  | unique (columns : List String)
  | check (text : String)

def TableItem.column? : TableItem → Option ColumnAst
  | .column c => some c
  | _ => none

def TableItem.foreignKey? : TableItem → Option ForeignKeySpec
  | .foreignKey fk => some fk
  | _ => none

def TableItem.unique? : TableItem → Option (List String)
  | .unique columns => some columns
  | _ => none

def TableItem.check? : TableItem → Option String
  | .check text => some text
  | _ => none

def tableItem : Parse TableItem := do
  if (← peek) = some (.kw .foreign) then .foreignKey <$> tableFk
  else if ← eatKw .unique then .unique <$> idents "'('" "una columna"
  else if ← eatKw .check then .check <$> checkClause G
  else .column <$> columnDef G

def createTable : Parse Statement := do
  expectKw .table "TABLE"
  let if_not_exists ← ifNotExists
  let name ← ident "un nombre de tabla"
  if ← eatKw .as_ then .createTableAs if_not_exists name <$> sourceQuery G
  else
    let its ← parens "'('" (commaSep (tableItem G))
    pure (.createTable if_not_exists name (its.filterMap TableItem.column?)
      (its.filterMap TableItem.foreignKey?) (its.filterMap TableItem.unique?)
      (its.filterMap TableItem.check?))

def createIndex : Parse Statement := do
  let unique ← eatKw .unique
  expectKw .index "INDEX"
  let if_not_exists ← ifNotExists
  let name ← ident "un nombre de índice"
  expectKw .on_ "ON"
  let table ← ident "un nombre de tabla"
  let columns ← idents "'('" "un nombre de columna"
  pure (.createIndex if_not_exists unique name table columns)

def createFtsIndex : Parse Statement := do
  expectKw .fulltext "FULLTEXT"
  expectKw .index "INDEX"
  let if_not_exists ← ifNotExists
  let name ← ident "un nombre de índice"
  expectKw .on_ "ON"
  let table ← ident "un nombre de tabla"
  let columns ← idents "'('" "un nombre de columna"
  let tokenizer ← ifKw .using_ (ident "un nombre de tokenizer")
  pure (.createFtsIndex if_not_exists name table columns tokenizer)

/-- A positive number, cut to 32 bits. -/
def positive (what : String) : Parse ℕ := do
  match (← next).bind natOf? with
  | some n =>
    if 0 < n then pure (n % 2 ^ 32) else fail s!"se esperaba un entero positivo tras {what}"
  | none => fail s!"se esperaba un entero positivo tras {what}"

def rerankMode : Parse Unit := do
  let mode ← ident "el modo de re-rank (int8)"
  if upper mode = "INT8" then pure () else fail "RERANK solo admite `int8`"

def createVectorIndex : Parse Statement := do
  expectKw .vector "VECTOR"
  expectKw .index "INDEX"
  let if_not_exists ← ifNotExists
  let name ← ident "un nombre de índice"
  expectKw .on_ "ON"
  let table ← ident "un nombre de tabla"
  let column ← parens "'('" (ident "un nombre de columna")
  let metric ← ifKw .using_ (ident "una métrica (cosine|l2)")
  let lists ← ifKw .lists (positive "LISTS")
  let probes ← ifKw .probes (positive "PROBES")
  let rerank ← ifKw .rerank rerankMode
  pure (.createVectorIndex if_not_exists name table column metric lists probes rerank.isSome)

def createView : Parse Statement := do
  expectKw .view "VIEW"
  let if_not_exists ← ifNotExists
  let name ← ident "un nombre de vista"
  expectKw .as_ "AS"
  let select_sql ← captured G.select
  pure (.createView if_not_exists name select_sql)

def columnPos : Parse ColumnPos := do
  if ← eatKw .first then pure .first
  else if ← eatKw .before then .before <$> ident "un nombre de columna"
  else if ← eatKw .after then .after <$> ident "un nombre de columna"
  else fail "se esperaba FIRST, BEFORE o AFTER"

def alterTable : Parse Statement := do
  expectKw .alter "ALTER"
  expectKw .table "TABLE"
  let table ← ident "un nombre de tabla"
  if ← eatKw .add then
    let _ ← eatKw .column
    .alterTableAddColumn table <$> columnDef G
  else if ← eatKw .move then
    expectKw .column "COLUMN"
    let column ← ident "un nombre de columna"
    .alterTableMoveColumn table column <$> columnPos
  else if ← eatKw .reorder then
    expectKw .columns "COLUMNS"
    .alterTableReorderColumns table <$> idents "'('" "un nombre de columna"
  else if ← eatKw .rename then
    let _ ← eatKw .column
    let old ← ident "un nombre de columna"
    expectKw .to_ "TO"
    .alterTableRenameColumn table old <$> ident "un nombre de columna"
  else if ← eatKw .drop then
    let _ ← eatKw .column
    .alterTableDropColumn table <$> ident "un nombre de columna"
  else fail "se esperaba ADD, DROP, RENAME, MOVE o REORDER tras ALTER TABLE"

/-! ### Rows -/

def setClause : Parse (String × Expr) := do
  let col ← ident "un nombre de columna"
  expect .eq "'='"
  let e ← G.expr
  pure (col, e)

def updateSets : Parse (List (String × Expr)) := do
  expectKw .set "SET"
  commaSep (setClause G)

def onConflict : Parse (Option ConflictAction) := do
  if ← eatBoth (.kw .on_) (.kw .conflict) then
    -- the columns of the target are read and dropped
    let _ ← ifParens (commaSep (ident "una columna"))
    expectKw .do_ "DO"
    if ← eatKw .nothing then pure (some .nothing)
    else
      expectKw .update "UPDATE"
      let sets ← updateSets G
      let where_clause ← ifKw .where_ G.expr
      pure (some (.update sets where_clause))
  else pure none

def returningClause : Parse (Option (List SelectItem)) := ifKw .returning (commaSep (selectItem G))

def insertSource : Parse InsertSource := do
  if (← peek) = some (.kw .select) ∨ (← peek) = some (.kw .with_) then .select <$> sourceQuery G
  else
    expectKw .values "VALUES"
    .values <$> commaSep (parens "'('" (commaSep G.expr))

def insert : Parse Statement := do
  expectKw .insert "INSERT"
  expectKw .into "INTO"
  let table ← ident "un nombre de tabla"
  let columns ← ifParens (commaSep (ident "un nombre de columna"))
  let source ← insertSource G
  let on_conflict ← onConflict G
  let returning ← returningClause G
  pure (.insert table columns source on_conflict returning)

def update : Parse Statement := do
  expectKw .update "UPDATE"
  let table ← ident "un nombre de tabla"
  let sets ← updateSets G
  let where_clause ← ifKw .where_ G.expr
  let returning ← returningClause G
  pure (.update table sets where_clause returning)

def delete : Parse Statement := do
  expectKw .delete "DELETE"
  expectKw .from_ "FROM"
  let table ← ident "un nombre de tabla"
  let where_clause ← ifKw .where_ G.expr
  let returning ← returningClause G
  pure (.delete table where_clause returning)

end Tables

/-! ### Dropping -/

def drop : Parse Statement := do
  expectKw .drop "DROP"
  if ← eatKw .fulltext then
    expectKw .index "INDEX"
    let if_exists ← ifExists
    .dropFtsIndex if_exists <$> ident "un nombre de índice"
  else if ← eatKw .vector then
    expectKw .index "INDEX"
    let if_exists ← ifExists
    .dropVectorIndex if_exists <$> ident "un nombre de índice"
  else if ← eatKw .index then
    let if_exists ← ifExists
    .dropIndex if_exists <$> ident "un nombre de índice"
  else if ← eatKw .view then
    let if_exists ← ifExists
    .dropView if_exists <$> ident "un nombre de vista"
  else if ← eatKw .trigger then
    let if_exists ← ifExists
    .dropTrigger if_exists <$> ident "un nombre de trigger"
  else
    expectKw .table "TABLE"
    let if_exists ← ifExists
    .dropTable if_exists <$> ident "un nombre de tabla"

def rebuildVectorIndex : Parse Statement := do
  expectKw .rebuild "REBUILD"
  expectKw .vector "VECTOR"
  expectKw .index "INDEX"
  .rebuildVectorIndex <$> ident "un nombre de índice"

/-! ### Triggers and statements -/

def triggerTiming : Parse TriggerTiming := do
  if ← eatKw .before then pure .before
  else if ← eatKw .after then pure .after
  else if ← eatKw .instead then do
    expectKw .of_ "OF"
    pure .insteadOf
  else fail "se esperaba BEFORE, AFTER o INSTEAD OF"

def triggerEvent : Parse TriggerEvent := do
  if ← eatKw .insert then pure .insert
  else if ← eatKw .update then pure .update
  else if ← eatKw .delete then pure .delete
  else fail "se esperaba INSERT, UPDATE o DELETE"

def triggerForEach : Parse TriggerForEach := do
  if ← eatKw .for_ then
    expectKw .each "EACH"
    if ← eatKw .row then pure .row
    else if ← eatKw .statement then pure .statement
    else fail "se esperaba ROW o STATEMENT"
  else pure .row

/-- The statements up to `END` or the end of the tokens. -/
def bodyLoop (statement : Parse Statement) : ℕ → Parse (List Statement)
  | 0 => outOfFuel
  | n + 1 => do
    let t ← peek
    if t = some (.kw .end_) ∨ t = none then pure []
    else
      let stmt ← statement
      let _ ← eat .semi
      List.cons stmt <$> bodyLoop statement n

def createTrigger (statement : Parse Statement) : Parse Statement := do
  expectKw .trigger "TRIGGER"
  let if_not_exists ← ifNotExists
  let name ← ident "un nombre de trigger"
  let timing ← triggerTiming
  let event ← triggerEvent
  expectKw .on_ "ON"
  let table ← ident "una tabla"
  let for_each ← triggerForEach
  expectKw .begin_ "BEGIN"
  let body_sql ← captured (loop (bodyLoop statement))
  expectKw .end_ "END"
  pure (.createTrigger if_not_exists ⟨name, timing, event, for_each, table, body_sql⟩)

section Statements
variable (G : Grammar) (rec : Parse Statement)

def create : Parse Statement := do
  expectKw .create "CREATE"
  let t ← peek
  if t = some (.kw .fulltext) then createFtsIndex
  else if t = some (.kw .vector) then createVectorIndex
  else if t = some (.kw .unique) ∨ t = some (.kw .index) then createIndex
  else if t = some (.kw .view) then createView G
  else if t = some (.kw .trigger) then createTrigger rec
  else createTable G

/-- `ROLLBACK` of the transaction or to a savepoint. -/
def rollbackRest : Parse Statement := do
  if ← eatKw .to_ then
    let _ ← eatKw .savepoint
    .rollbackTo <$> ident "un nombre de savepoint"
  else pure .rollback

def releaseRest : Parse Statement := do
  let _ ← eatKw .savepoint
  .releaseSavepoint <$> ident "un nombre de savepoint"

def statement : Parse Statement := do
  let t ← peek
  if t = some (.kw .with_) then .select <$> withQuery G
  else if t = some (.kw .create) then create G rec
  else if t = some (.kw .alter) then alterTable G
  else if t = some (.kw .drop) then drop
  else if t = some (.kw .rebuild) then rebuildVectorIndex
  else if t = some (.kw .insert) then insert G
  else if t = some (.kw .select) then .select <$> G.select
  else if t = some (.kw .update) then update G
  else if t = some (.kw .delete) then delete G
  else if ← eatKw .begin_ then pure .begin_
  else if ← eatKw .commit then pure .commit
  else if ← eatKw .rollback then rollbackRest
  else if ← eatKw .savepoint then .savepoint <$> ident "un nombre de savepoint"
  else if ← eatKw .release then releaseRest
  else fail ("se esperaba CREATE, DROP, INSERT, SELECT, UPDATE, DELETE, BEGIN, COMMIT, "
    ++ "ROLLBACK, SAVEPOINT o RELEASE")

end Statements

/-- Statements, those of triggers nested to a depth. -/
def statements : ℕ → Parse Statement
  | 0 => outOfFuel
  | n + 1 => statement (grammar (n + 1)) (statements n)

end Parse

/-! ### Parsing a text -/

section Parsing
variable (F : FloatText)

def Parser.start (cs : List Char) (toks : List Spanned) : Parser :=
  ⟨cs, toks, charsLen cs, [], false, 0⟩

/-- The statement and the end of the text behind it. -/
def Parse.whole (n : ℕ) : Parse Statement := do
  let stmt ← Parse.statements n
  let _ ← Parse.eat .semi
  if (← Parse.peek).isSome then Parse.fail "se esperaba el final de la sentencia" else pure stmt

/-- `parse_full`: the statement, and the names of the parameters. -/
def parseFull (sql : String) : Result (Statement × List String) := do
  let toks ← lex F sql
  let r ← Parse.whole (toks.length + 1) (.start sql.toList toks)
  .ok (r.1, r.2.param_names)

def parse (sql : String) : Result Statement := Prod.fst <$> parseFull F sql

/-- Of `parse_many`: statements up to the end; `END` is not one of them. -/
def Parse.many (stmt : Parse Statement) : ℕ → Parse (List Statement)
  | 0 => Parse.outOfFuel
  | n + 1 => do
    if (← Parse.peek).isSome then
      let s ← stmt
      let _ ← Parse.eat .semi
      List.cons s <$> Parse.many stmt n
    else pure []

def parseMany (sql : String) : Result (List Statement) := do
  let toks ← lex F sql
  let r ← Parse.loop (Parse.many (Parse.statements (toks.length + 1))) (.start sql.toList toks)
  .ok r.1

end Parsing

end Arkeion.Sql
