import Arkeion.Sql.Plan
import Arkeion.TableHistory

/-!
How each part of the engine finds the column a name stands for: expressions on a row, the planner,
the statements that write and index, the rows of a trigger and the filters of a text search. They
all find the column shown under the name, as long as every column that was dropped stands behind one
that took its name.
-/

namespace Arkeion.Sql

open Arkeion.Lib Catalog

/-! ### Written columns and rows of triggers -/

/-- The column to write of an insertion or an update. -/
def colIndex (d : TableDef) (name : String) : Result ℕ :=
  okOr (d.visible name) (.sql s!"columna desconocida: {name}")

/-- The names of the row before and after; the proposed row of an insertion counts as the latter. -/
def rowName (q : String) : Bool :=
  q.toUpper == "OLD" || q.toUpper == "NEW" || q.toUpper == "EXCLUDED"

section Substitute
variable (d : TableDef) (old new : Option Row)

def substColumn (q name : String) : Result Expr := do
  let vals ← okOr (if q.toUpper = "OLD" then old else new)
    (.sql s!"{q.toUpper} no está disponible aquí")
  let i ← okOr (d.named name) (.sql s!"columna desconocida: {q}.{name}")
  let v ← okOr vals[i]? (.panic "index out of bounds")
  .ok (.literal v)

mutual

/-- The expression with the values of the rows of a trigger in it. -/
def substExpr : Expr → Result Expr
  | .column (some q) name =>
    if rowName q then substColumn d old new q name else .ok (.column (some q) name)
  | .node op args => do
    let args ← substList args
    .ok (.node op args)
  | .aggregate func arg distinct sep => do
    let arg ← substOpt arg
    let sep ← substOpt sep
    .ok (.aggregate func arg distinct sep)
  | .window func args partition_by order_by frame => do
    let args ← substList args
    let partition_by ← substList partition_by
    .ok (.window func args partition_by order_by frame)
  | .literal v => .ok (.literal v)
  | .column none name => .ok (.column none name)
  | .param n => .ok (.param n)
  | .scalarSubquery query => .ok (.scalarSubquery query)
  | .exists_ query => .ok (.exists_ query)
  | .inSubquery expr query negated => .ok (.inSubquery expr query negated)

def substList : List Expr → Result (List Expr)
  | [] => .ok []
  | e :: es => do
    let e ← substExpr e
    let es ← substList es
    .ok (e :: es)

def substOpt : Option Expr → Result (Option Expr)
  | none => .ok none
  | some e => do
    let e ← substExpr e
    .ok (some e)

end

end Substitute

/-! ### Filters of a text search -/

/-- Two ascending lists as one, of what is in the first only, in both and in the second only. -/
def mergeSorted (first both second : Bool) : List Int64 → List Int64 → List Int64
  | [], bs => if second then bs else []
  | as, [] => if first then as else []
  | a :: as, b :: bs =>
    if a < b then
      if first then a :: mergeSorted first both second as (b :: bs)
      else mergeSorted first both second as (b :: bs)
    else if b < a then
      if second then b :: mergeSorted first both second (a :: as) bs
      else mergeSorted first both second (a :: as) bs
    else if both then a :: mergeSorted first both second as bs
    else mergeSorted first both second as bs
termination_by as bs => as.length + bs.length

def intersectSorted : List Int64 → List Int64 → List Int64 := mergeSorted false true false
def unionSorted : List Int64 → List Int64 → List Int64 := mergeSorted true true true
def differenceSorted : List Int64 → List Int64 → List Int64 := mergeSorted true false false

/-- The rowids a query finds in an index, over those that its words, phrases and `NEAR` find in a
column or in all of them. -/
def evalQuery (leaf : Fts.Query → Option UInt8 → Result (List Int64)) (d : TableDef)
    (fts : FtsIndexDef) : Fts.Query → Option UInt8 → Result (List Int64)
  | .column column query, _ => do
    let pos ← okOr (d.named column) (.sql s!"columna «{column}» desconocida en filtro MATCH")
    require (pos ∈ fts.columns) (.sql s!"la columna «{column}» no está en el índice FTS")
    evalQuery leaf d fts query (some (UInt8.ofNat pos))
  | .and a b, field => do
    let ra ← evalQuery leaf d fts a field
    let rb ← evalQuery leaf d fts b field
    .ok (intersectSorted ra rb)
  | .or a b, field => do
    let ra ← evalQuery leaf d fts a field
    let rb ← evalQuery leaf d fts b field
    .ok (unionSorted ra rb)
  | .not a b, field => do
    let ra ← evalQuery leaf d fts a field
    let rb ← evalQuery leaf d fts b field
    .ok (differenceSorted ra rb)
  | .term text prefix_, field => leaf (.term text prefix_) field
  | .phrase words, field => leaf (.phrase words) field
  | .near terms distance, field => leaf (.near terms distance) field

/-- Whether a document matches a query, over its words, phrases and `NEAR`. -/
def evalDoc (leaf : Fts.Query → Option UInt8 → Bool) (columns : List (String × UInt8)) :
    Fts.Query → Option UInt8 → Result Bool
  | .column column query, _ => do
    let f ← okOr (columns.find? fun c => c.1 == column)
      (.sql s!"la columna «{column}» no está en el índice FTS")
    evalDoc leaf columns query (some f.2)
  | .and a b, field => do
    let ra ← evalDoc leaf columns a field
    if ra then evalDoc leaf columns b field else .ok false
  | .or a b, field => do
    let ra ← evalDoc leaf columns a field
    if ra then .ok true else evalDoc leaf columns b field
  | .not a b, field => do
    let ra ← evalDoc leaf columns a field
    if ra then do
      let rb ← evalDoc leaf columns b field
      .ok !rb
    else .ok false
  | .term text prefix_, field => .ok (leaf (.term text prefix_) field)
  | .phrase words, field => .ok (leaf (.phrase words) field)
  | .near terms distance, field => .ok (leaf (.near terms distance) field)

/-- The names of the columns of an index. -/
def docColumns (d : TableDef) : List ℕ → Result (List (String × UInt8))
  | [] => .ok []
  | c :: cs => do
    let col ← okOr d.columns[c]? (.panic "index out of bounds")
    let rest ← docColumns d cs
    .ok ((col.name, UInt8.ofNat c) :: rest)

def ftsRowMatches (leaf : Fts.Query → Option UInt8 → Bool) (d : TableDef) (fts : FtsIndexDef)
    (query : Fts.Query) : Result Bool := do
  let columns ← docColumns d fts.columns
  evalDoc leaf columns query none

/-! ### Agreement -/

/-- The column shown under a name, if it is in the index. -/
def inIndex (d : TableDef) (fts : FtsIndexDef) (name : String) : Option ℕ :=
  (d.visible name).filter fun i => i ∈ fts.columns

/-- Every part takes a name for the column shown under it, and rejects the name if there is none. -/
structure ResolversAgree (d : TableDef) : Prop where
  visible : ∀ i c, d.Shows i c → d.visible c.name = some i
  select : ∀ q n, (QuerySchema.single q d).resolve none n
    = okOr (d.visible n) (.sql s!"columna desconocida: {n}")
  select_qualified : ∀ (schema : QuerySchema) t q n,
    schema.tables.find? (·.qualifier == q) = some t → t.def_ = d → schema.resolve (some q) n
      = (okOr (d.visible n) (.sql s!"columna desconocida: {q}.{n}")).map (t.offset + ·)
  planner : ∀ t table n, t.def_ = d →
    colPos t (.column table n) = if qualifies t table then d.visible n else none
  point : ∀ t table n a c, t.def_ = d → d.rowid_alias = some a → d.columns[a]? = some c →
    isAlias t c.name (.column table n) = (qualifies t table && d.visible n == some a)
  assigned : ∀ n, colIndex d n = okOr (d.visible n) (.sql s!"columna desconocida: {n}")
  indexed : ∀ names, (d.indexColumns names).toOption = names.mapM d.visible
  vector : ∀ name vidx_id n metric lists probes dim rerank_i8 d',
    d.createVectorIndex name vidx_id n metric lists probes dim rerank_i8 = .ok d' →
      ∃ v, d'.vector_indexes = d.vector_indexes ++ [v] ∧ d.visible n = some v.column
  substituted : ∀ q n old new, rowName q → old.length = d.columns.length →
    new.length = d.columns.length → (substExpr d (some old) (some new) (.column (some q) n)).toOption
      = ((d.visible n).bind fun i => (if q.toUpper = "OLD" then old else new)[i]?).map .literal
  filtered : ∀ fts ∈ d.fts_indexes, ∀ leaf n query field,
    (∀ i, inIndex d fts n = some i → evalQuery leaf d fts (.column n query) field
      = evalQuery leaf d fts query (some (UInt8.ofNat i))) ∧
    (inIndex d fts n = none → ∃ e, evalQuery leaf d fts (.column n query) field = .error e)
  matched : ∀ fts ∈ d.fts_indexes, ∀ columns, docColumns d fts.columns = .ok columns →
    ∀ leaf n query field, (∀ i, inIndex d fts n = some i → evalDoc leaf columns (.column n query) field
      = evalDoc leaf columns query (some (UInt8.ofNat i))) ∧
    (inIndex d fts n = none → ∃ e, evalDoc leaf columns (.column n query) field = .error e)

/-- Every dropped column stands behind one shown under its name. -/
def Covered (columns : List ColumnDef) : Prop :=
  ∀ (i : ℕ) (c : ColumnDef), columns[i]? = some c → c.dropped = true →
    ∃ j < i, ∃ c' : ColumnDef, columns[j]? = some c' ∧ c'.dropped = false ∧ c'.name = c.name

/-- The names of dropped columns are taken again, in the table and in its text indexes. -/
structure NamesTaken (d : TableDef) : Prop where
  columns : Covered d.columns
  fts : ∀ fts ∈ d.fts_indexes, Covered (fts.columns.filterMap fun i => d.columns[i]?)

section Names
variable {d : TableDef} {name : String} {columns : List ColumnDef} {fts : FtsIndexDef}

lemma covered_iff : Covered columns ↔
    ∀ name c, columns.find? (·.name == name) = some c → c.dropped = false := by
  constructor
  · intro h name c hfind
    obtain ⟨hc, i, hlt, rfl, hbefore⟩ := List.find?_eq_some_iff_getElem.1 hfind
    by_contra hdropped
    obtain ⟨j, hj, c', hc', -, hname⟩ := h i _ (List.getElem?_eq_getElem hlt)
      (Bool.not_eq_false _ ▸ hdropped)
    obtain ⟨hjlt, rfl⟩ := List.getElem?_eq_some_iff.1 hc'
    have hnot := hbefore j hj
    rw [hname] at hnot
    simp [hc] at hnot
  · intro h i c hi hdropped
    cases hfind : columns.find? (·.name == c.name) with
    | none => simpa using List.find?_eq_none.1 hfind c (List.mem_of_getElem? hi)
    | some c' =>
      have hshown := h c.name c' hfind
      obtain ⟨hname, j, hlt, rfl, hbefore⟩ := List.find?_eq_some_iff_getElem.1 hfind
      refine ⟨j, ?_, _, List.getElem?_eq_getElem hlt, hshown, by simpa using hname⟩
      obtain ⟨hilt, rfl⟩ := List.getElem?_eq_some_iff.1 hi
      rcases Nat.lt_trichotomy j i with hji | rfl | hij
      · exact hji
      · rw [hshown] at hdropped
        cases hdropped
      · simpa using hbefore i hij

/-- Of a name, the first column is the one shown. -/
lemma named_eq_visible (h : Covered d.columns) (name : String) : d.named name = d.visible name := by
  cases hn : d.named name with
  | none =>
    exact (TableDef.visible_eq_none.2 fun c hc _ => TableDef.named_eq_none.1 hn c hc).symm
  | some i =>
    obtain ⟨⟨c, hc, hname⟩, hbefore⟩ := TableDef.named_eq_some.1 hn
    obtain ⟨hlt, rfl⟩ := List.getElem?_eq_some_iff.1 hc
    have hshown : d.columns[i].dropped = false := by
      by_contra hdropped
      obtain ⟨j, hj, c', hc', -, hname'⟩ := h i _ hc (Bool.not_eq_false _ ▸ hdropped)
      exact hbefore j hj c' hc' (hname'.trans hname)
    refine (List.findIdx?_eq_some_iff_getElem.2 ⟨hlt, by simp [hshown, hname], fun j hj => ?_⟩).symm
    simp [hbefore j hj _ (List.getElem?_eq_getElem _)]

lemma covered_of_named (h : ∀ name, d.named name = d.visible name) : Covered d.columns := by
  intro i c hi hdropped
  cases hn : d.named c.name with
  | none => exact absurd rfl (TableDef.named_eq_none.1 hn c (List.mem_of_getElem? hi))
  | some j =>
    obtain ⟨c', ⟨hj, hshown⟩, hname⟩ := TableDef.shows_of_visible ((h c.name).symm.trans hn)
    obtain ⟨-, hbefore⟩ := TableDef.named_eq_some.1 hn
    refine ⟨j, ?_, c', hj, hshown, hname⟩
    rcases Nat.lt_trichotomy j i with hji | rfl | hij
    · exact hji
    · rw [hi] at hj
      cases hj
      rw [hshown] at hdropped
      cases hdropped
    · exact absurd rfl (hbefore i hij c hi)

/-- The first column of an index with the name. -/
def docColumn (d : TableDef) (fts : FtsIndexDef) (name : String) : Option ℕ :=
  fts.columns.find? fun i => d.columns[i]?.any fun c => c.name == name

lemma docColumns_find (name : String) {cs : List ℕ} {cols : List (String × UInt8)}
    (h : docColumns d cs = .ok cols) :
    (cols.find? fun c => c.1 == name).map Prod.snd
      = (cs.find? fun i => d.columns[i]?.any fun c => c.name == name).map UInt8.ofNat := by
  induction cs generalizing cols with
  | nil =>
    cases h
    rfl
  | cons c cs ih =>
    obtain ⟨col, hcol, h⟩ := bind_eq_ok.1 h
    obtain ⟨rest, hrest, h⟩ := bind_eq_ok.1 h
    cases h
    rw [okOr_eq_ok] at hcol
    by_cases hname : col.name == name
    · simp [hcol, hname]
    · simp only [List.find?_cons, hcol, hname, Option.any_some]
      exact ih hrest

lemma docColumns_isOk {cs : List ℕ} (h : ∀ i ∈ cs, i < d.columns.length) :
    ∃ cols, docColumns d cs = .ok cols := by
  induction cs with
  | nil => exact ⟨[], rfl⟩
  | cons c cs ih =>
    obtain ⟨hc, hcs⟩ := List.forall_mem_cons.1 h
    obtain ⟨rest, hrest⟩ := ih hcs
    exact ⟨(d.columns[c].name, UInt8.ofNat c) :: rest, by
      rw [docColumns, List.getElem?_eq_getElem hc, hrest]
      rfl⟩

/-- In an index whose dropped columns are covered a name denotes the column shown. -/
lemma docColumn_eq (hd : d.WellNamed)
    (h : Covered (fts.columns.filterMap fun i => d.columns[i]?)) (name : String) :
    docColumn d fts name = inIndex d fts name := by
  rw [covered_iff] at h
  cases hfind : docColumn d fts name with
  | none =>
    have hnone := List.find?_eq_none.1 hfind
    refine (Option.filter_eq_none_iff.2 fun i hi hmem => ?_).symm
    obtain ⟨c, ⟨hc, -⟩, hname⟩ := TableDef.shows_of_visible hi
    exact hnone i (by simpa using hmem) (by simp [hc, hname])
  | some i =>
    have hi := List.find?_some hfind
    have hmem := List.mem_of_find?_eq_some hfind
    obtain ⟨c, hc, hname⟩ := (Option.any_eq_true _ _).1 hi
    have hshown : c.dropped = false := by
      refine h name c ?_
      rw [List.find?_filterMap]
      rw [docColumn] at hfind
      rw [hfind]
      exact hc
    have hvisible := hd.visible_eq ⟨hc, hshown⟩
    rw [beq_iff_eq] at hname
    rw [hname] at hvisible
    rw [inIndex, hvisible, Option.filter_some, if_pos (by simpa using hmem)]

lemma resolve_single (q : String) (d : TableDef) (name : String) :
    (QuerySchema.single q d).resolve none name
      = okOr (d.visible name) (.sql s!"columna desconocida: {name}") := by
  simp only [QuerySchema.resolve, QuerySchema.ownerOf, QuerySchema.single, List.filterMap_cons,
    List.filterMap_nil]
  cases d.visible name with
  | none => rfl
  | some i => simp [okOr]

lemma resolve_qualified {schema : QuerySchema} {t : SchemaTable} {q : String}
    (ht : schema.tables.find? (·.qualifier == q) = some t) (name : String) :
    schema.resolve (some q) name
      = (okOr (t.def_.visible name) (.sql s!"columna desconocida: {q}.{name}")).map
        (t.offset + ·) := by
  simp only [QuerySchema.resolve, QuerySchema.ownerOf, ht, okOr, ok_bind]
  cases t.def_.visible name <;> rfl

/-- The point lookup goes by the name of the column of the rowid, which is always shown. -/
lemma isAlias_eq (hd : d.WellNamed) {t : SchemaTable} {a : ℕ} {c : ColumnDef}
    (ha : d.rowid_alias = some a) (hc : d.columns[a]? = some c) (table : Option String)
    (name : String) : isAlias t c.name (.column table name)
      = (qualifies t table && d.visible name == some a) := by
  obtain ⟨c', hc', hshown⟩ := hd.alias_shown a ha
  rw [hc] at hc'
  cases hc'
  have hname : name = c.name ↔ d.visible name = some a := by
    constructor
    · rintro rfl
      exact hd.visible_eq ⟨hc, hshown⟩
    · intro hv
      obtain ⟨c', ⟨hc', -⟩, hname⟩ := TableDef.shows_of_visible hv
      rw [hc] at hc'
      cases hc'
      exact hname.symm
  rw [isAlias, Bool.and_comm]
  congr 1
  rw [Bool.eq_iff_iff, beq_iff_eq, beq_iff_eq]
  exact hname

lemma indexColumns_toOption (h : ∀ name, d.named name = d.visible name) (names : List String) :
    (d.indexColumns names).toOption = names.mapM d.visible := by
  induction names with
  | nil => rfl
  | cons name names ih =>
    rw [TableDef.indexColumns, List.mapM_cons, ← ih, h name]
    cases d.visible name with
    | none => rfl
    | some i => cases d.indexColumns names <;> rfl

lemma createVectorIndex_column (h : ∀ name, d.named name = d.visible name) {index : String}
    {vidx_id dim : UInt32} {metric : Option String} {lists probes : Option ℕ} {rerank_i8 : Bool}
    {d' : TableDef}
    (hc : d.createVectorIndex index vidx_id name metric lists probes dim rerank_i8 = .ok d') :
    ∃ v, d'.vector_indexes = d.vector_indexes ++ [v] ∧ d.visible name = some v.column := by
  simp only [TableDef.createVectorIndex, bind_eq_ok, okOr_eq_ok] at hc
  obtain ⟨pos, hpos, m, -, -, -, col, -, -, -, hc⟩ := hc
  cases hc
  exact ⟨_, rfl, (h name).symm.trans hpos⟩

lemma substExpr_column (h : ∀ name, d.named name = d.visible name) {q : String} {old new : Row}
    (hq : rowName q) :
    (substExpr d (some old) (some new) (.column (some q) name)).toOption
      = ((d.visible name).bind fun i => (if q.toUpper = "OLD" then old else new)[i]?).map
        .literal := by
  have hvals : (if q.toUpper = "OLD" then some old else some new)
      = some (if q.toUpper = "OLD" then old else new) := by split_ifs <;> rfl
  rw [substExpr, if_pos hq, substColumn, hvals, h name]
  generalize (if q.toUpper = "OLD" then old else new) = vals
  cases d.visible name with
  | none => rfl
  | some i =>
    change (okOr vals[i]? _ >>= fun v => Except.ok (Expr.literal v)).toOption
      = (vals[i]?).map Expr.literal
    cases vals[i]? <;> rfl

lemma evalQuery_column (h : ∀ name, d.named name = d.visible name)
    (leaf : Fts.Query → Option UInt8 → Result (List Int64)) (query : Fts.Query)
    (field : Option UInt8) :
    (∀ i, inIndex d fts name = some i → evalQuery leaf d fts (.column name query) field
      = evalQuery leaf d fts query (some (UInt8.ofNat i))) ∧
    (inIndex d fts name = none → ∃ e, evalQuery leaf d fts (.column name query) field = .error e) := by
  rw [evalQuery, h name, inIndex]
  constructor
  · intro i hi
    obtain ⟨hv, hmem⟩ := Option.filter_eq_some_iff.1 hi
    have hmem : i ∈ fts.columns := by simpa using hmem
    simp only [hv, okOr, ok_bind, require, if_pos hmem]
  · intro hnone
    cases hv : d.visible name with
    | none => exact ⟨_, rfl⟩
    | some i =>
      have hmem : ¬ i ∈ fts.columns := by simpa using Option.filter_eq_none_iff.1 hnone i hv
      simp only [okOr, ok_bind, require, if_neg hmem]
      exact ⟨_, rfl⟩

lemma evalDoc_column (hfind : docColumn d fts name = inIndex d fts name)
    {columns : List (String × UInt8)} (hc : docColumns d fts.columns = .ok columns)
    (leaf : Fts.Query → Option UInt8 → Bool) (query : Fts.Query) (field : Option UInt8) :
    (∀ i, inIndex d fts name = some i → evalDoc leaf columns (.column name query) field
      = evalDoc leaf columns query (some (UInt8.ofNat i))) ∧
    (inIndex d fts name = none → ∃ e, evalDoc leaf columns (.column name query) field = .error e) := by
  have hdoc := docColumns_find name hc
  rw [← hfind, evalDoc]
  constructor
  · intro i hi
    rw [docColumn] at hi
    rw [hi] at hdoc
    obtain ⟨c, hcol, hf⟩ := Option.map_eq_some_iff.1 hdoc
    rw [hcol, ← hf]
    rfl
  · intro hnone
    rw [docColumn] at hnone
    rw [hnone] at hdoc
    rw [Option.map_eq_none_iff.1 hdoc]
    exact ⟨_, rfl⟩

end Names

/-- In every definition a table can come to have, the parts agree if and only if every dropped
column stands behind one that took its name. -/
theorem resolvers_agree_iff (d : TableDef) (h : d.Reachable) : ResolversAgree d ↔ NamesTaken d := by
  have hd := h.wellNamed
  constructor
  · intro hagree
    have hnamed (name : String) : d.named name = d.visible name :=
      hagree.planner ⟨"", d, 0⟩ none name rfl
    refine ⟨covered_of_named hnamed, fun fts hf => covered_iff.2 fun name c hfind => ?_⟩
    obtain ⟨columns, hcols⟩ := docColumns_isOk (hd.fts_lt fts hf)
    rw [List.find?_filterMap] at hfind
    obtain ⟨i, hi, hc⟩ := Option.bind_eq_some_iff.1 hfind
    have hdoc := docColumns_find name hcols
    rw [hi] at hdoc
    obtain ⟨col, hcol, hfield⟩ := Option.map_eq_some_iff.1 hdoc
    -- A query that is true of the column the filter means, and of no other.
    have hval : evalDoc (fun _ f => f == some (UInt8.ofNat i)) columns
        (.column name (.term "" false)) none = .ok true := by
      rw [evalDoc, hcol]
      simp [okOr, evalDoc, hfield]
    obtain ⟨hsome, hnone⟩ := hagree.matched fts hf columns hcols
      (fun _ f => f == some (UInt8.ofNat i)) name (.term "" false) none
    cases hin : inIndex d fts name with
    | none =>
      obtain ⟨e, he⟩ := hnone hin
      rw [hval] at he
      cases he
    | some j =>
      have heq := hsome j hin
      rw [hval, evalDoc] at heq
      have hij : UInt8.ofNat j = UInt8.ofNat i := by simpa using heq
      obtain ⟨hv, -⟩ := Option.filter_eq_some_iff.1 hin
      obtain ⟨c', ⟨hc', hshown⟩, -⟩ := TableDef.shows_of_visible hv
      have hlt := (List.getElem?_eq_some_iff.1 hc').1
      have hlt' := (List.getElem?_eq_some_iff.1 hc).1
      have hsize := hd.size
      rw [show MAX_COLUMNS = 255 from rfl] at hsize
      have hmod := congrArg UInt8.toNat hij
      rw [UInt8.toNat_ofNat', UInt8.toNat_ofNat', Nat.mod_eq_of_lt (by omega),
        Nat.mod_eq_of_lt (by omega)] at hmod
      rw [hmod, hc] at hc'
      cases hc'
      exact hshown
  · rintro ⟨hcolumns, hfts⟩
    have hnamed := named_eq_visible hcolumns
    exact {
      visible := fun i c hc => hd.visible_eq hc
      select := fun q n => resolve_single q d n
      select_qualified := fun schema t q n ht hdef => by
        subst hdef
        exact resolve_qualified ht n
      planner := fun t table n ht => by rw [colPos, ht, hnamed n]
      point := fun t table n a c _ ha hc => isAlias_eq hd ha hc table n
      assigned := fun n => rfl
      indexed := fun names => indexColumns_toOption hnamed names
      vector := fun name vidx_id n metric lists probes dim rerank_i8 d' hc =>
        createVectorIndex_column hnamed hc
      substituted := fun q n old new hq _ _ => substExpr_column hnamed hq
      filtered := fun fts hf leaf n query field => evalQuery_column hnamed leaf query field
      matched := fun fts hf columns hc leaf n query field =>
        evalDoc_column (docColumn_eq hd (hfts fts hf) n) hc leaf query field }

/-- Two columns of integers. -/
def twoColumns : Result TableDef :=
  createTable (fun _ => .ok none) "t" 1
    [⟨"a", .integer, false, false, none⟩, ⟨"b", .integer, false, false, none⟩] [] []

/-- The theorem at a new table. -/
theorem resolvers_agree_iff_new : ∃ d, twoColumns = .ok d ∧ (ResolversAgree d ↔ NamesTaken d) := by
  have hnew : twoColumns.toOption.map TableDef.name = some "t" := by decide +kernel
  obtain ⟨d, hd, -⟩ := Option.map_eq_some_iff.1 hnew
  rw [toOption_eq_some] at hd
  exact ⟨d, hd, resolvers_agree_iff d (.create hd)⟩

/-- Where the column behind a dropped one takes its name, a condition on it is planned for the
dropped one. -/
theorem name_taken_behind : ∃ d, d.Reachable ∧
    (QuerySchema.single "t" d).resolve none "a" = .ok 1 ∧
    colPos ⟨"t", d, 0⟩ (.column none "a") = some 0 ∧ ¬ ResolversAgree d := by
  have hrun : (twoColumns >>= fun d => d.apply (.dropColumn "a") >>= fun d =>
      d.apply (.renameColumn "b" "a")).toOption.map (fun d => (d.visible "a", d.named "a"))
      = some (some 1, some 0) := by
    decide +kernel
  obtain ⟨d, hd, heq⟩ := Option.map_eq_some_iff.1 hrun
  obtain ⟨d₀, hcreate, hd⟩ := bind_eq_ok.1 (toOption_eq_some.1 hd)
  obtain ⟨d₁, hdrop, hrename⟩ := bind_eq_ok.1 hd
  obtain ⟨hvisible, hnamed⟩ := Prod.mk.inj heq
  have hplan : colPos ⟨"t", d, 0⟩ (.column none "a") = some 0 := hnamed
  refine ⟨d, .change (.change (.create hcreate) hdrop) hrename, ?_, hplan, fun hagree => ?_⟩
  · rw [resolve_single, hvisible]
    rfl
  · have h := hagree.planner ⟨"t", d, 0⟩ none "a" rfl
    rw [hplan, hvisible] at h
    cases h

end Arkeion.Sql
