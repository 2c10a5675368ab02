import Arkeion.Sql.Rows
import Arkeion.Sql.Subquery

/-!
Where a query finds its tables: a snapshot or a transaction, and over it the tables that a
statement has brought itself. A table is found by its name, and its rows afterwards by the id in its
definition.

The rows of a table without joins are found by the rowid, by an index, by full text or vector
search, or by a scan of the table.
-/

namespace Arkeion.Sql

open Arkeion.Lib Catalog

structure DataSource where
  table : String → Result (Option TableDef)
  get_row : TableDef → Int64 → Result (Option Row)
  scan_rows : TableDef → Result (List Row)
  index_lookup : TableDef → IndexDef → List Value → Result (List Int64)
  index_range : TableDef → IndexDef → Option (Value × Bool) → Option (Value × Bool) →
    Result (List Int64)
  view : String → Result (Option String)
  fts_search : TableDef → FtsIndexDef → Fts.Query → Result (List Int64)
  fts_stats : UInt32 → List String → Result (List ℕ × ℕ × ℕ)
  fts_bm25_topk : TableDef → FtsIndexDef → Fts.Query → ℕ → Result (List Int64)
  vector_search : VectorIndexDef → Bytes → ℕ → ℕ → Result (List Int64)
  knn_exact : TableDef → ℕ → Bytes → VectorMetric → ℕ → Result (List Int64)
  get_col_blob : TableDef → ℕ → Int64 → Result (Option Bytes)

/-- A table of the statement itself, with its rows. -/
structure CteEntry where
  name : String
  def_ : TableDef
  rows : List Row

section Columns
variable (t : SchemaTable)

/-- The column may be one of the table by the way it is written. -/
def qualifies (table : Option String) : Bool := table.all (· == t.qualifier)

def isAlias (alias_name : String) : Expr → Bool
  | .column table name => name == alias_name && qualifies t table
  | _ => false

/-- `alias = constant`, in either order: the constant. -/
def pointLookupKey (where_clause : Option Expr) : Option Expr := do
  let alias_ ← t.def_.rowid_alias
  let c ← t.def_.columns[alias_]?
  match where_clause with
  | some (.node (.binary .eq) [left, right]) =>
    if isAlias t c.name left && right.isConst then some right
    else if isAlias t c.name right && left.isConst then some left
    else none
  | _ => none

def colPos : Expr → Option ℕ
  | .column table name => if qualifies t table then t.def_.named name else none
  | _ => none

/-- The equations of a column with a constant that a condition is made of by `AND`. -/
def collectEqualities : Expr → List (ℕ × Expr)
  | .node (.binary .and) [l, r] => collectEqualities l ++ collectEqualities r
  | .node (.binary .eq) [l, r] =>
    match colPos t l, colPos t r with
    | some c, some c' =>
      if r.isConst then [(c, r)] else if l.isConst then [(c', l)] else []
    | some c, none => if r.isConst then [(c, r)] else []
    | none, some c => if l.isConst then [(c, l)] else []
    | none, none => []
  | _ => []

/-- The constants of all columns of an index. -/
def coveredBy (eqs : List (ℕ × Expr)) (idx : IndexDef) : Option (List Expr) :=
  idx.columns.mapM fun c => eqs.lookup c

/-- An index all columns of which are given, one with the most columns. -/
def indexEqPlan (where_clause : Option Expr) : Option (IndexDef × List Expr) := do
  let w ← where_clause
  let eqs := collectEqualities t w
  if eqs.isEmpty then none
  else t.def_.indexes.foldl (fun best idx =>
    match coveredBy eqs idx with
    | some exprs =>
      if best.all fun b => b.1.columns.length < idx.columns.length then some (idx, exprs) else best
    | none => best) none

def flipOp : BinOp → BinOp
  | .lt => .gt
  | .le => .ge
  | .gt => .lt
  | .ge => .le
  | op => op

/-- A comparison of a column with a constant, turned so that the column is on the left. -/
def rangeOf : Expr → Option (ℕ × BinOp × Expr)
  | .node (.binary op) [left, right] =>
    if op = .lt ∨ op = .le ∨ op = .gt ∨ op = .ge then
      match colPos t left, colPos t right with
      | some c, some c' =>
        if right.isConst then some (c, op, right)
        else if left.isConst then some (c', flipOp op, left) else none
      | some c, none => if right.isConst then some (c, op, right) else none
      | none, some c => if left.isConst then some (c, flipOp op, left) else none
      | none, none => none
    else none
  | _ => none

def indexRangePlan (where_clause : Option Expr) : Option (IndexDef × BinOp × Expr) := do
  let w ← where_clause
  let (col, op, e) ← rangeOf t w
  if t.def_.rowid_alias = some col then none
  else do
    let idx ← t.def_.indexes.find? (·.columns == [col])
    some (idx, op, e)

end Columns

section Fetch
variable (B : Builtins) (src : DataSource) (params : List Value)

/-- The value as a column of the type stores it. -/
def coerceValue (v : Value) (col_type : ColType) : Option Value :=
  match col_type, v with
  | _, .null => some .null
  | .integer, .integer n => some (.integer n)
  | .real, .integer n => some (.real (B.ofInt n))
  | .real, .real f => some (.real f)
  | .text, .text s => some (.text s)
  | .blob, .blob b => some (.blob b)
  | .boolean, .bool b => some (.bool b)
  | _, _ => none

/-- The rows of the rowids that are there. -/
def getRows (d : TableDef) : List Int64 → Result (List Row)
  | [] => .ok []
  | rowid :: rowids => do
    let row ← src.get_row d rowid
    let rest ← getRows d rowids
    .ok (row.toList ++ rest)

/-- The constants as the columns of the index store them; `none` if one is NULL or of another
type. -/
def indexValues (d : TableDef) : List (ℕ × Expr) → Result (Option (List Value))
  | [] => .ok (some [])
  | (col, e) :: rest => do
    let v ← evalConst B e params
    let c ← okOr d.columns[col]? (.panic "index out of bounds")
    match coerceValue B v c.col_type with
    | none | some .null => .ok none
    | some v => do
      let vs ← indexValues d rest
      .ok (vs.map (v :: ·))

def indexEqRows (d : TableDef) (idx : IndexDef) (const_exprs : List Expr) : Result (List Row) := do
  let values ← indexValues B params d (idx.columns.zip const_exprs)
  match values with
  | none => src.scan_rows d
  | some values => do
    let rowids ← src.index_lookup d idx values
    getRows src d rowids

def indexRangeRows (d : TableDef) (idx : IndexDef) (op : BinOp) (e : Expr) : Result (List Row) := do
  let values ← indexValues B params d [(idx.columns.headD 0, e)]
  match values with
  | some [v] => do
    let rowids ← src.index_range d idx
      (if op = .gt then some (v, false) else if op = .ge then some (v, true) else none)
      (if op = .lt then some (v, false) else if op = .le then some (v, true) else none)
    getRows src d rowids
  | _ => src.scan_rows d

/-! ### Full text -/

/-- The first `MATCH` among the conditions joined by `AND`. -/
def findMatchConjunct : Expr → Option Expr
  | .node (.match_ negated) args => some (.node (.match_ negated) args)
  | .node (.binary .and) [a, b] => (findMatchConjunct a).orElse fun _ => findMatchConjunct b
  | _ => none

/-- The index of a `MATCH` that is not negated, and its query. -/
def matchPlan (d : TableDef) : Expr → Option (FtsIndexDef × Expr)
  | .node (.match_ false) [.column _ name, query] => do
    let i ← d.visible name
    let fts ← d.fts_indexes.find? fun f => f.columns.contains i
    some (fts, query)
  | _ => none

def ftsPlan (d : TableDef) (where_clause : Option Expr) : Result (Option (List Row)) :=
  match (where_clause.bind findMatchConjunct).bind (matchPlan d) with
  | none => .ok none
  | some (fts, query) => do
    let q ← evalConst B query params
    match q with
    | .text q => do
      let q ← B.parseQuery q
      let rowids ← src.fts_search d fts q
      let rows ← getRows src d rowids
      .ok (some rows)
    | _ => .ok none

/-- The statement reads one table and gives one row for each of its rows, in one order, from the
first row on. -/
def oneOrder (stmt : SelectStmt) : Bool :=
  stmt.limit.isSome && stmt.order_by.length == 1 && stmt.joins.isEmpty && stmt.group_by.isEmpty
    && stmt.having.isNone && !stmt.distinct && stmt.offset.isNone && stmt.compound.isEmpty

def ftsTopkPlan (d : TableDef) (stmt : SelectStmt) : Result (Option (List Row)) :=
  match stmt.order_by with
  | [⟨.node (.function fname) [.column _ ob_col, ob_query], true⟩] =>
    if oneOrder stmt && fname == "bm25" then do
      let ob_q ← evalConst B ob_query params
      match ob_q, stmt.where_clause with
      | .text ob_q, some (.node (.match_ false) [.column tq m_col, query]) => do
        let m_q ← evalConst B query params
        match m_q with
        | .text m_q =>
          if m_col ≠ ob_col ∨ m_q ≠ ob_q then .ok none
          else match matchPlan d (.node (.match_ false) [.column tq m_col, query]) with
            | none => .ok none
            | some (fts, _) => do
              let k ← limitOf B stmt params
              let q ← B.parseQuery m_q
              let rowids ← src.fts_bm25_topk d fts q (max (min (k * 8) USIZE_MAX) 64)
              let rows ← getRows src d rowids
              .ok (some rows)
        | _ => .ok none
      | _, _ => .ok none
    else .ok none
  | _ => .ok none

/-! ### Vectors -/

def metricOf (fname : String) : Option VectorMetric :=
  if fname = "cosine_distance" then some .cosine
  else if fname = "l2_distance" then some .l2
  else none

/-- The column, the metric and the query of an ascending order by distance. -/
def distanceOrder (d : TableDef) (order_by : List OrderBy) : Option (ℕ × VectorMetric × Expr) :=
  match order_by with
  | [⟨.node (.function fname) [.column _ name, query], false⟩] => do
    let metric ← metricOf fname
    let col ← d.visible name
    some (col, metric, query)
  | _ => none

/-- The `k` rowids of the least distances. -/
def nearest (k : ℕ) (scored : List (ℤ × Int64)) : List Int64 :=
  ((scored.insertionSort fun a b => a.1 ≤ b.1).take k).map Prod.snd

/-- The distances of the rows that have a vector of the dimension of the query. -/
def rerank (d : TableDef) (col : ℕ) (metric : VectorMetric) (query : Bytes) :
    List Int64 → Result (List (ℤ × Int64))
  | [] => .ok []
  | rowid :: rowids => do
    let blob ← src.get_col_blob d col rowid
    let dist ← match blob with
      | none => .ok none
      | some blob => B.distance metric blob query
    let rest ← rerank d col metric query rowids
    .ok ((dist.map fun x => (x, rowid)).toList ++ rest)

def vectorPlan (d : TableDef) (stmt : SelectStmt) : Result (Option (List Row)) :=
  match stmt.where_clause, stmt.limit, distanceOrder d stmt.order_by with
  | none, some _, some (col, metric, query) =>
    match d.vector_indexes.find? fun v => v.column == col && v.metric == metric with
    | none => .ok none
    | some vidx => do
      let q ← evalConst B query params
      match q with
      | .blob q => do
        B.toF32 q
        let k ← limitOf B stmt params
        let nprobe := max vidx.nprobe 1
        let rowids ←
          if vidx.rerank_i8 ∧ oneOrder stmt then src.vector_search vidx q nprobe (max k 1)
          else src.vector_search vidx q nprobe (max (min (k * 32) USIZE_MAX) 64)
        let sorted := rowids.insertionSort (· ≤ ·)
        let chosen ←
          if ¬ vidx.rerank_i8 ∧ oneOrder stmt then do
            let scored ← rerank B src d col metric q sorted
            .ok (nearest (max k 1) scored)
          else .ok sorted
        let rows ← getRows src d chosen
        .ok (some rows)
      | _ => .ok none
  | _, _, _ => .ok none

def exactKnnPlan (d : TableDef) (stmt : SelectStmt) : Result (Option (List Row)) :=
  match stmt.where_clause, distanceOrder d stmt.order_by with
  | none, some (col, metric, query) =>
    if oneOrder stmt then do
      let q ← evalConst B query params
      match q with
      | .blob q => do
        let k ← limitOf B stmt params
        let rowids ← src.knn_exact d col q metric k
        let rows ← getRows src d rowids
        .ok (some rows)
      | _ => .ok none
    else .ok none
  | _, _ => .ok none

end Fetch

/-! ### The weights of a ranking -/

mutual

/-- The calls of `bm25` with a column and a query. -/
def collectBm25 : Expr → List (Expr × Expr)
  | .node (.function fname) [col, query] =>
    if fname = "bm25" then [(col, query)] else collectBm25 col ++ collectBm25 query
  | .node _ args => collectBm25List args
  | .aggregate _ arg _ _ => collectBm25Opt arg
  | .window _ args partition_by order_by _ =>
    collectBm25List args ++ collectBm25List partition_by ++ collectBm25Order order_by
  | .literal _ | .column .. | .param _ | .scalarSubquery _ | .exists_ _ | .inSubquery .. => []

def collectBm25List : List Expr → List (Expr × Expr)
  | [] => []
  | e :: es => collectBm25 e ++ collectBm25List es

def collectBm25Opt : Option Expr → List (Expr × Expr)
  | none => []
  | some e => collectBm25 e

def collectBm25Order : List OrderBy → List (Expr × Expr)
  | [] => []
  | ⟨e, _⟩ :: os => collectBm25 e ++ collectBm25Order os

end

def collectBm25Items : List SelectItem → List (Expr × Expr)
  | [] => []
  | .star :: items => collectBm25Items items
  | .expr e _ :: items => collectBm25 e ++ collectBm25Items items

section Rank
variable (B : Builtins) (src : DataSource) (params : List Value)

/-- The weights of one call, if they are not there yet. -/
def rankCall (schema : QuerySchema) (call : Expr × Expr) : Result QuerySchema :=
  match call.1 with
  | .column tq name => do
    let q ← evalConst B call.2 params
    match q with
    | .text q_str => do
      let (_, _, fts) ← ftsOf schema tq name
      if (schema.fts_rank.lookup (fts.fts_id, q_str)).isSome then .ok schema
      else do
        B.tokenizerFor fts.tokenizer
        let q ← B.parseQuery q_str
        let terms := B.queryTerms q fts.tokenizer
        let (df, n, total) ← src.fts_stats fts.fts_id terms
        let ctx : FtsRankCtx := ⟨terms.zip (df.map (B.bm25Idf n)), B.avgdl n total⟩
        .ok { schema with fts_rank := ((fts.fts_id, q_str), ctx) :: schema.fts_rank }
    | _ => .error (.sql "bm25(): la consulta debe ser texto constante")
  | _ => .error (.sql "bm25(): el primer argumento debe ser una columna indexada")

def precomputeBm25 (schema : QuerySchema) (stmt : SelectStmt) : Result QuerySchema :=
  (collectBm25Items stmt.projection ++ collectBm25Order stmt.order_by).foldlM
    (rankCall B src params) schema

end Rank

end Arkeion.Sql
