import Arkeion.Sql.Scalar

/-!
The tables of a statement, and expressions on one of its rows.

The row of a statement is that of its tables one after the other. Of the operands of an operator
only the value matters, or their error where they are looked at; the first operand of a text
search is looked at as a column.
-/

namespace Arkeion.Sql

open Arkeion.Lib Catalog

structure SchemaTable where
  qualifier : String
  def_ : TableDef
  offset : ℕ

structure QuerySchema where
  tables : List SchemaTable
  fts_rank : List ((UInt32 × String) × FtsRankCtx)

namespace QuerySchema

def width (q : QuerySchema) : ℕ :=
  match q.tables.getLast? with
  | none => 0
  | some t => t.offset + t.def_.columns.length

def push (q : QuerySchema) (qualifier : String) (d : TableDef) : Result QuerySchema :=
  if q.tables.any (·.qualifier == qualifier) then
    .error (.sql s!"alias de tabla duplicado: {qualifier}")
  else .ok { q with tables := q.tables ++ [⟨qualifier, d, q.width⟩] }

def single (qualifier : String) (d : TableDef) : QuerySchema := ⟨[⟨qualifier, d, 0⟩], []⟩

/-- The table of a column, and the position of the column in it. Without a qualifier only one
table may have the column. -/
def ownerOf (q : QuerySchema) (table : Option String) (name : String) : Result (SchemaTable × ℕ) :=
  match table with
  | some qual => do
    let t ← okOr (q.tables.find? (·.qualifier == qual))
      (.sql s!"tabla desconocida en la consulta: {qual}")
    let i ← okOr (t.def_.visible name) (.sql s!"columna desconocida: {qual}.{name}")
    .ok (t, i)
  | none =>
    match q.tables.filterMap fun t => (t.def_.visible name).map fun i => (t, i) with
    | [] => .error (.sql s!"columna desconocida: {name}")
    | [hit] => .ok hit
    | _ => .error (.sql s!"columna ambigua: {name}")

/-- The position of a column in the row of the statement. -/
def resolve (q : QuerySchema) (table : Option String) (name : String) : Result ℕ := do
  let (t, i) ← q.ownerOf table name
  .ok (t.offset + i)

end QuerySchema

/-- The row an expression is read on, with its columns. -/
abbrev Scope := Option (QuerySchema × Row)

section Nodes
variable (B : Builtins)

/-- The text of an operand that a text search takes, at position `i`. -/
def strArg (fname : String) (vals : List (Result Value)) (i : ℕ) (default : String) : Result String :=
  match vals[i]? with
  | none => .ok default
  | some v => do
    let v ← v
    match v with
    | .text s => .ok s
    | _ => .error (.sql s!"{fname}(): el argumento {i} debe ser texto")

/-- The full text index of a column, with the table and the position of the column. -/
def ftsOf (schema : QuerySchema) (table : Option String) (name : String) :
    Result (SchemaTable × ℕ × FtsIndexDef) := do
  let (t, i) ← schema.ownerOf table name
  let fts ← okOr (t.def_.fts_indexes.find? fun f => f.columns.contains i)
    (.sql s!"la columna «{name}» no tiene un índice FULLTEXT")
  .ok (t, i, fts)

/-- The part of the row that is of one table. -/
def SchemaTable.part (t : SchemaTable) (row : Row) : Row :=
  (row.drop t.offset).take t.def_.columns.length

/-- The number of words of a snippet. -/
def maxTokens (vals : List (Result Value)) : Result ℕ :=
  match vals[5]? with
  | none => .ok 15
  | some v => do
    let v ← v
    match v with
    | .integer n =>
      if 0 < n then .ok n.toNatClampNeg
      else .error (.sql "snippet(): max_tokens debe ser un entero positivo")
    | _ => .error (.sql "snippet(): max_tokens debe ser un entero positivo")

/-- The excerpt of a text for a query. -/
def excerptOf (fname tokenizer text q : String) (vals : List (Result Value)) : Result Value := do
  let q ← B.parseQuery q
  let open_ ← strArg fname vals 2 "["
  let close ← strArg fname vals 3 "]"
  if fname = "highlight" then return .text (B.highlight text q tokenizer open_ close)
  let ellipsis ← strArg fname vals 4 "…"
  let max_tokens ← maxTokens vals
  return .text (B.snippet text q tokenizer open_ close ellipsis max_tokens)

def evalExcerpt (fname : String) (args : List Expr) (vals : List (Result Value)) (row : Scope) :
    Result Value := do
  let (schema, full_row) ← okOr row (.sql s!"{fname}() necesita una fila")
  require (2 ≤ args.length) (.sql s!"{fname}(columna, consulta, …) requiere al menos 2 argumentos")
  match args.head? with
  | some (.column tq col) => do
    let (t, i, fts) ← ftsOf schema tq col
    B.tokenizerFor fts.tokenizer
    let v ← okOr full_row[t.offset + i]? (.panic "index out of bounds")
    match v with
    | .null => .ok .null
    | .text text => do
      let q ← vals.getD 1 (.ok .null)
      match q with
      | .null => .ok .null
      | .text q => excerptOf B fname fts.tokenizer text q vals
      | _ => .error (.sql s!"{fname}(): la consulta debe ser texto")
    | _ => .error (.sql s!"{fname}() solo aplica a columnas TEXT")
  | _ => .error (.sql s!"{fname}(): el primer argumento debe ser una columna indexada")

def evalBm25 (args : List Expr) (vals : List (Result Value)) (row : Scope) : Result Value := do
  let (schema, full_row) ← okOr row (.sql "bm25() necesita una fila")
  match args with
  | [.column tq name, _] => do
    let q ← vals.getD 1 (.ok .null)
    match q with
    | .null => .ok .null
    | .text q => do
      let (t, _, fts) ← ftsOf schema tq name
      let ctx ← okOr (schema.fts_rank.lookup (fts.fts_id, q))
        (.sql "bm25() solo se admite en un SELECT directo (sin join/subconsulta)")
      B.tokenizerFor fts.tokenizer
      .ok (.real (B.bm25 ctx fts.tokenizer (fts.columns.map fun c => (t.part full_row)[c]?)))
    | _ => .error (.sql "bm25(): la consulta debe ser texto")
  | [_, _] => .error (.sql "bm25(): el primer argumento debe ser una columna indexada")
  | _ => .error (.sql "bm25(columna, consulta) requiere 2 argumentos")

def evalMatch (negated : Bool) (args : List Expr) (vals : List (Result Value)) (row : Scope) :
    Result Value :=
  match args.head? with
  | some (.column tq name) => do
    let (schema, full_row) ← okOr row (.sql "MATCH no puede evaluarse fuera de una fila")
    let (t, _, fts) ← ftsOf schema tq name
    let q ← vals.getD 1 (.ok .null)
    match q with
    | .null => .ok .null
    | .text q => do
      let q ← B.parseQuery q
      let matched ← B.rowMatches t.def_ fts (t.part full_row) q
      .ok (.bool (matched != negated))
    | _ => .error (.sql "la consulta MATCH debe ser texto")
  | _ => .error (.sql "MATCH requiere una columna indexada a la izquierda")

def evalNeg : Value → Result Value
  | .null => .ok .null
  | .integer n => checked (-n.toInt)
  | .real f => .ok (.real f.neg)
  | v => .error (.sql s!"no se puede negar un {v.typeName}")

def evalNot : Value → Result Value
  | .null => .ok .null
  | .bool b => .ok (.bool !b)
  | v => .error (.sql s!"NOT requiere BOOLEAN, no {v.typeName}")

/-- `NULL` for unknown. -/
def ofTruth : Option Bool → Value
  | none => .null
  | some b => .bool b

/-- `AND` and `OR` look at their right side only if the left one does not decide; `b` is the
truth value that decides. -/
def evalLogic (b : Bool) (left right : Result Value) : Result Value := do
  let l ← left
  let l ← truthy3 l
  if l = some b then .ok (.bool b)
  else do
    let r ← right
    let r ← truthy3 r
    .ok (ofTruth (if r = some b then some b else if l = none then none else r))

def evalConcat (a b : Value) : Result Value :=
  match a, b with
  | .null, _ => .ok .null
  | _, .null => .ok .null
  | .text a, .text b => .ok (.text (a ++ b))
  | a, b => .error (.sql s!"|| requiere TEXT, no {a.typeName} y {b.typeName} (usa CAST)")

def evalBinary (op : BinOp) (left right : Result Value) : Result Value :=
  match op with
  | .and => evalLogic false left right
  | .or => evalLogic true left right
  | .add | .sub | .mul | .div | .mod => do
    let l ← left
    let r ← right
    arith B op l r
  | .concat => do
    let l ← left
    let r ← right
    evalConcat l r
  | .jsonGet | .jsonGetText => do
    let l ← left
    let r ← right
    B.jsonArrow op l r
  | .eq | .ne | .lt | .le | .gt | .ge => do
    let l ← left
    let r ← right
    let o ← cmpValues B l r
    .ok (ofTruth (o.map (compares op)))

def evalLike (negated : Bool) (s p : Value) : Result Value :=
  match s, p with
  | .null, _ => .ok .null
  | _, .null => .ok .null
  | .text s, .text p => .ok (.bool (likeMatch p.toList s.toList != negated))
  | a, b => .error (.sql s!"LIKE requiere TEXT, no {a.typeName} y {b.typeName}")

/-- The items of an `IN` up to the first that is equal; NULL among those before makes it
unknown. -/
def evalIn (v : Value) (negated : Bool) : List (Result Value) → Bool → Result Value
  | [], saw_null => .ok (if saw_null then .null else .bool negated)
  | item :: items, saw_null => do
    let iv ← item
    let o ← cmpValues B v iv
    match o with
    | some .eq => .ok (.bool !negated)
    | some _ => evalIn v negated items saw_null
    | none => evalIn v negated items true

/-- The result of the first condition that holds; `ov` is the operand the conditions are compared
with. -/
def evalWhens (ov : Option Value) : List (Result Value) → Result Value
  | [] => .ok .null
  | [else_] => else_
  | cond :: res :: rest => do
    let c ← cond
    let hit ← match ov with
      | none => truthy c
      | some ov => do
        let o ← cmpValues B ov c
        .ok (o == some .eq)
    if hit then res else evalWhens ov rest

def nodeValue (op : Op) (args : List Expr) (vals : List (Result Value)) (row : Scope) : Result Value :=
  match op, vals with
  | .unary .neg, [v] => v >>= evalNeg
  | .unary .not, [v] => v >>= evalNot
  | .binary op, [left, right] => evalBinary B op left right
  | .isNull negated, [v] => do
    let v ← v
    .ok (.bool ((v == .null) != negated))
  | .like negated, [s, p] => do
    let s ← s
    let p ← p
    evalLike negated s p
  | .match_ negated, vals => evalMatch B negated args vals row
  | .function name, vals =>
    if name = "snippet" ∨ name = "highlight" then evalExcerpt B name args vals row
    else if name = "bm25" then evalBm25 B args vals row
    else do
      let vs ← vals.mapM id
      B.callFunction name vs
  | .in_ negated, v :: items => do
    let v ← v
    if v = .null then .ok .null else evalIn B v negated items false
  | .cast to_, [v] => do
    let v ← v
    B.castValue v to_
  | .case_ true _, operand :: whens => do
    let ov ← operand
    evalWhens B (some ov) whens
  | .case_ false _, whens => evalWhens B none whens
  | _, _ => .error (.panic "index out of bounds")

end Nodes

section Eval
variable (B : Builtins) (row : Scope) (params : List Value)

mutual

def eval : Expr → Result Value
  | .literal v => .ok v
  | .param 0 => .error (.panic "attempt to subtract with overflow")
  | .param (n + 1) => okOr params[n]? (.sql s!"falta el parámetro ?{n + 1}")
  | .column table name => do
    let (schema, values) ← okOr row (.sql s!"aquí no se permiten columnas: {name}")
    let i ← schema.resolve table name
    okOr values[i]? (.panic "index out of bounds")
  | .aggregate .. => .error (.sql "los agregados solo se permiten en la lista del SELECT")
  | .window .. => .error
      (.sql "las funciones de ventana (OVER) solo se permiten en la lista del SELECT")
  | .node op args => nodeValue B op args (evalList args) row
  | .scalarSubquery _ | .exists_ _ | .inSubquery .. => .error
      (.sql "subconsulta sin resolver (las correlacionadas no se soportan en v1)")

def evalList : List Expr → List (Result Value)
  | [] => []
  | e :: es => eval e :: evalList es

end

end Eval

def evalConst (B : Builtins) (e : Expr) (params : List Value) : Result Value := eval B none params e

/-- A condition on a row. -/
def holds (B : Builtins) (schema : QuerySchema) (row : Row) (params : List Value) (e : Expr) :
    Result Bool := do
  let v ← eval B (some (schema, row)) params e
  truthy v

/-! ### Checks of a statement -/

section Validate
variable (schema : QuerySchema)

mutual

/-- Every column is one of the schema, whether there are rows or not. -/
def validateColumns : Expr → Result Unit
  | .column table name => do
    let _ ← schema.resolve table name
    .ok ()
  | .literal _ | .param _ | .scalarSubquery _ | .exists_ _ => .ok ()
  | .node _ args => validateList args
  | .aggregate _ arg _ _ => validateOpt arg
  | .inSubquery e _ _ => validateColumns e
  | .window _ args partition_by order_by _ => do
    validateList args
    validateList partition_by
    validateOrder order_by

def validateList : List Expr → Result Unit
  | [] => .ok ()
  | e :: es => do
    validateColumns e
    validateList es

def validateOpt : Option Expr → Result Unit
  | none => .ok ()
  | some e => validateColumns e

def validateOrder : List OrderBy → Result Unit
  | [] => .ok ()
  | ⟨e, _⟩ :: os => do
    validateColumns e
    validateOrder os

end

end Validate

def noAggregates (e : Expr) (clause : String) : Result Unit :=
  require (e.hasAggregate = false) (.sql s!"los agregados no se permiten en {clause}")

/-- The output column an `ORDER BY` names: by its name or by its position from one on. -/
def orderOutputIndex (o : OrderBy) (columns : List String) : Result ℕ :=
  match o.expr with
  | .column none name => okOr (columns.findIdx? (· == name))
      (.sql s!"ORDER BY: «{name}» no está en la proyección")
  | .literal (.integer n) =>
    if 1 ≤ n ∧ n.toNatClampNeg ≤ columns.length then .ok (n.toNatClampNeg - 1)
    else .error (.sql "ORDER BY aquí solo admite una columna de salida o su posición")
  | _ => .error (.sql "ORDER BY aquí solo admite una columna de salida o su posición")

def SelectItem.named (name : String) : SelectItem → Option Expr
  | .expr e (some a) => if a = name then some e else none
  | _ => none

/-- The expression to order the rows by: that of a position, of an alias, or the one written. -/
def orderKeyExpr (o : OrderBy) (projection : List SelectItem) : Result Expr :=
  match o.expr with
  | .literal (.integer n) =>
    if 1 ≤ n then
      match projection[n.toNatClampNeg - 1]? with
      | some (.expr e _) => .ok e
      | _ => .error (.sql "ORDER BY: posición fuera de rango o sobre '*'")
    else .ok o.expr
  | .column none name => .ok ((projection.findSome? (SelectItem.named name)).getD o.expr)
  | e => .ok e

end Arkeion.Sql
