import Arkeion.BtreeMap
import Arkeion.Sql.Select
import Arkeion.TableScanSpec

/-!
The answer of a SELECT in a stream: the rows of one table, each decoded when it is asked for.

A stream gives the answer of the executor, except where the executor shows columns that were
dropped: a `*` alone takes the rows as they are if the columns it stands for are the first ones.
-/

namespace Arkeion.Sql

open Arkeion.Lib Catalog

/-! ### The plan -/

structure StreamSelect where
  def_ : TableDef
  columns : List String
  cols : List ℕ
  offset : ℕ
  limit : ℕ

/-- The names and the columns of the table that an item stands for. -/
def streamItem (d : TableDef) (qualifier : String) : SelectItem → Option (List String × List ℕ)
  | .star => some (d.shown.filterMap fun i => (d.columns[i]?).map ColumnDef.name, d.shown)
  | .expr (.column table name) alias_ =>
    if table.any (· != qualifier) then none
    else (d.visible name).map fun c => ([alias_.getD name], [c])
  | .expr _ _ => none

def streamItems (d : TableDef) (qualifier : String) :
    List SelectItem → Option (List String × List ℕ)
  | [] => some ([], [])
  | item :: items => do
    let (names, cols) ← streamItem d qualifier item
    let (names', cols') ← streamItems d qualifier items
    some (names ++ names', cols ++ cols')

/-- The statement is of one table and takes its rows as they come. -/
def streamable (stmt : SelectStmt) : Bool :=
  stmt.joins.isEmpty && stmt.where_clause.isNone && stmt.group_by.isEmpty && stmt.having.isNone
    && stmt.order_by.isEmpty && !stmt.distinct && stmt.compound.isEmpty && stmt.with_.isEmpty

def streamSelect (B : Builtins) (src : DataSource) (stmt : SelectStmt) (params : List Value) :
    Result (Option StreamSelect) :=
  match stmt.from_ with
  | none => .ok none
  | some from_ =>
    if ¬ streamable stmt then .ok none
    else do
      let d ← src.table from_.name
      match d with
      | none => .ok none
      | some d =>
        match streamItems d from_.qualifier stmt.projection with
        | none => .ok none
        | some (columns, cols) => do
          let offset ← offsetOf B stmt params
          let limit ← limitOf B stmt params
          .ok (some ⟨d, columns, cols, offset, limit⟩)

/-! ### The rows -/

section Rows
variable {σ : Type} [NodeSource σ] (s : σ) (n : ℕ) (d : TableDef) (proj : ScanProjection)

/-- The next row after those still to be skipped, and the state behind it. -/
def nextRow (st : ScanState) : ℕ → Result (Option Row × ScanState)
  | 0 => ScanState.nextInto s n d proj st
  | skip + 1 => do
    let (row, st) ← ScanState.nextInto s n d proj st
    match row with
    | none => .ok (none, st)
    | some _ => nextRow st skip

/-- All rows that are left, `remaining` of them at most; `k` bounds the number of calls. -/
def drainRows : ℕ → ScanState → ℕ → ℕ → Result (List Row)
  | 0, _, _, _ => .error .outOfFuel
  | _ + 1, _, _, 0 => .ok []
  | k + 1, st, skip, remaining + 1 => do
    let (row, st) ← nextRow s n d proj st skip
    match row with
    | none => .ok []
    | some row => do
      let rest ← drainRows k st 0 remaining
      .ok (row :: rest)

end Rows

section Answer
variable {σ : Type} [NodeSource σ] (s : σ) (n root : ℕ)

/-- The columns and the rows of a stream that is read to its end. -/
def streamRows (plan : StreamSelect) : Result SelectOut := do
  let st ← ScanState.start s n root plan.def_
  let rows ← drainRows s n plan.def_ (.new plan.def_ plan.cols) n st plan.offset plan.limit
  .ok ⟨plan.columns, rows⟩

/-- A snapshot, given the tree of its rows. -/
def snapshotSource (other : DataSource) : DataSource :=
  { other with
    get_row := fun d rowid => getRow s n root d rowid
    scan_rows := fun d => do
      let rows ← scanTable s n root d
      .ok (rows.map Prod.snd) }

end Answer

open Btree NodeSource

/-! ### The rows of a stream -/

section Rows
variable {σ : Type} [NodeStore σ] {s : σ} {m n k : ℕ} {d : TableDef} {cols : List ℕ}
  {stored : List (Int64 × Row)} {st : ScanState}

/-- A row in the columns of the answer. -/
def cut (d : TableDef) (cols : List ℕ) (r : Int64 × Row) : Row :=
  cols.map (columnValue d r.1 r.2)

lemma nextRow_nil (h : st.Gives s m n d stored) (hm : m ≤ k) (hn : n + 2 ≤ k)
    (hcols : ∀ c ∈ cols, c < d.columns.length) {skip : ℕ} (hskip : stored.drop skip = []) :
    ∃ st', nextRow s k d (.new d cols) st skip = .ok (none, st') := by
  induction skip generalizing stored st with
  | zero =>
    obtain rfl : stored = [] := hskip
    exact h.finish hm hn
  | succ skip ih =>
    cases stored with
    | nil =>
      obtain ⟨st', hst'⟩ : ∃ st', ScanState.nextInto s k d (.new d cols) st = .ok (none, st') :=
        h.finish hm hn
      exact ⟨st', by rw [nextRow, hst']; rfl⟩
    | cons r stored =>
      obtain ⟨st', hst', hgives⟩ := h.next hm hn hcols
      obtain ⟨st'', hst''⟩ := ih hgives hskip
      exact ⟨st'', by rw [nextRow, hst']; exact hst''⟩

lemma nextRow_cons (h : st.Gives s m n d stored) (hm : m ≤ k) (hn : n + 2 ≤ k)
    (hcols : ∀ c ∈ cols, c < d.columns.length) {skip : ℕ} {r : Int64 × Row}
    {rest : List (Int64 × Row)} (hskip : stored.drop skip = r :: rest) :
    ∃ st', nextRow s k d (.new d cols) st skip = .ok (some (cut d cols r), st') ∧
      st'.Gives s m n d rest := by
  induction skip generalizing stored st with
  | zero =>
    obtain rfl : stored = r :: rest := hskip
    exact h.next hm hn hcols
  | succ skip ih =>
    cases stored with
    | nil => cases hskip
    | cons r' stored =>
      obtain ⟨st', hst', hgives⟩ := h.next hm hn hcols
      obtain ⟨st'', hst'', hrest⟩ := ih hgives hskip
      exact ⟨st'', by rw [nextRow, hst']; exact hst'', hrest⟩

/-- What a stream still gives is what `OFFSET` and `LIMIT` leave of the rows. -/
lemma drainRows_eq {j skip remaining : ℕ} (h : st.Gives s m n d stored) (hm : m ≤ k)
    (hn : n + 2 ≤ k) (hj : stored.length < j) (hcols : ∀ c ∈ cols, c < d.columns.length) :
    drainRows s k d (.new d cols) j st skip remaining
      = .ok (((stored.drop skip).take remaining).map (cut d cols)) := by
  induction j generalizing stored st skip remaining with
  | zero => omega
  | succ j ih =>
    cases remaining with
    | zero => simp [drainRows]
    | succ remaining =>
      cases hrest : stored.drop skip with
      | nil =>
        obtain ⟨st', hst'⟩ := nextRow_nil h hm hn hcols hrest
        simp [drainRows, hst']
      | cons r rest =>
        obtain ⟨st', hst', hgives⟩ := nextRow_cons h hm hn hcols hrest
        have hlen : rest.length < j := by
          have := congrArg List.length hrest
          simp only [List.length_drop, List.length_cons] at this
          omega
        simp [drainRows, hst', ih hgives hlen]

end Rows

/-! ### The plan -/

section Plan
variable {B : Builtins} {src : DataSource} {stmt : SelectStmt} {params : List Value}
  {plan : StreamSelect} {d : TableDef} {q : String}

lemma streamSelect_some (h : streamSelect B src stmt params = .ok (some plan)) :
    ∃ from_, stmt.from_ = some from_ ∧ streamable stmt = true ∧
      src.table from_.name = .ok (some plan.def_) ∧
      streamItems plan.def_ from_.qualifier stmt.projection = some (plan.columns, plan.cols) ∧
      offsetOf B stmt params = .ok plan.offset ∧ limitOf B stmt params = .ok plan.limit := by
  unfold streamSelect at h
  cases hf : stmt.from_ with
  | none => simp [hf] at h
  | some from_ =>
    rw [hf] at h
    dsimp only at h
    split_ifs at h with hs
    · obtain ⟨t, ht, h⟩ := bind_eq_ok.1 h
      cases t with
      | none => cases h
      | some d =>
        dsimp only at h
        cases hi : streamItems d from_.qualifier stmt.projection with
        | none => simp [hi] at h
        | some items =>
          obtain ⟨columns, cols⟩ := items
          rw [hi] at h
          obtain ⟨offset, ho, h⟩ := bind_eq_ok.1 h
          obtain ⟨limit, hl, h⟩ := bind_eq_ok.1 h
          cases h
          exact ⟨from_, rfl, hs, ht, hi, ho, hl⟩
    · cases h

/-- A plan by its items: what holds of the items of a plan holds of all its columns. -/
lemma streamItems_cons {item : SelectItem} {items : List SelectItem} {columns : List String}
    {cols : List ℕ} (h : streamItems d q (item :: items) = some (columns, cols)) :
    ∃ names cs names' cs', streamItem d q item = some (names, cs) ∧
      streamItems d q items = some (names', cs') ∧ columns = names ++ names' ∧ cols = cs ++ cs' := by
  simp only [streamItems, Option.bind_eq_bind, Option.bind_eq_some_iff, Option.some.injEq] at h
  obtain ⟨⟨names, cs⟩, hitem, ⟨names', cs'⟩, hitems, h⟩ := h
  cases h
  exact ⟨names, cs, names', cs', hitem, hitems, rfl, rfl⟩

/-- The items a stream takes: `*` and columns of the table. -/
lemma streamItem_some {item : SelectItem} {names : List String} {cs : List ℕ}
    (h : streamItem d q item = some (names, cs)) :
    (item = .star ∧ names = starColumns [⟨q, d, 0⟩] ∧ cs = d.shown) ∨
    ∃ table name alias_ c, item = .expr (.column table name) alias_ ∧ (∀ t ∈ table, t = q) ∧
      d.visible name = some c ∧ names = [alias_.getD name] ∧ cs = [c] := by
  cases item with
  | star =>
    simp only [streamItem, Option.some.injEq, Prod.mk.injEq] at h
    exact .inl ⟨rfl, by simp [starColumns, h.1], h.2.symm⟩
  | expr e alias_ =>
    cases e with
    | column table name =>
      simp only [streamItem] at h
      split_ifs at h with ht
      obtain ⟨c, hc, h⟩ := Option.map_eq_some_iff.1 h
      cases h
      refine .inr ⟨table, name, alias_, c, rfl, fun t hmem => ?_, hc, rfl, rfl⟩
      obtain rfl : table = some t := hmem
      simpa using ht
    | literal _ => cases h
    | param _ => cases h
    | node _ _ => cases h
    | aggregate _ _ _ _ => cases h
    | scalarSubquery _ => cases h
    | exists_ _ => cases h
    | inSubquery _ _ _ => cases h
    | window _ _ _ _ _ => cases h

lemma mem_shown {c : ℕ} : c ∈ d.shown → c < d.columns.length := fun h =>
  d.logical_lt (List.mem_of_mem_filter h)

lemma streamItems_lt {items : List SelectItem} {columns : List String} {cols : List ℕ}
    (h : streamItems d q items = some (columns, cols)) : ∀ c ∈ cols, c < d.columns.length := by
  induction items generalizing columns cols with
  | nil =>
    cases h
    simp
  | cons item items ih =>
    obtain ⟨names, cs, names', cs', hitem, hitems, -, rfl⟩ := streamItems_cons h
    intro c hc
    rcases List.mem_append.1 hc with hc | hc
    · rcases streamItem_some hitem with ⟨-, -, rfl⟩ | ⟨_, _, _, c', -, -, hvis, -, rfl⟩
      · exact mem_shown hc
      · rw [List.mem_singleton.1 hc]
        exact TableDef.visible_lt hvis
    · exact ih hitems c hc

/-- An expression of a plan is a column. -/
lemma streamItems_any {p : Expr → Bool} (hp : ∀ table name, p (.column table name) = false)
    {items : List SelectItem} {columns : List String} {cols : List ℕ}
    (h : streamItems d q items = some (columns, cols)) :
    items.any (·.any p) = false := by
  induction items generalizing columns cols with
  | nil => rfl
  | cons item items ih =>
    obtain ⟨names, cs, names', cs', hitem, hitems, -, -⟩ := streamItems_cons h
    have hi : item.any p = false := by
      rcases streamItem_some hitem with ⟨rfl, -⟩ | ⟨_, _, _, _, rfl, -⟩
      · rfl
      · exact hp _ _
    rw [List.any_cons, hi, ih hitems]
    rfl

lemma streamItems_bm25 {items : List SelectItem} {columns : List String} {cols : List ℕ}
    (h : streamItems d q items = some (columns, cols)) : collectBm25Items items = [] := by
  induction items generalizing columns cols with
  | nil => rfl
  | cons item items ih =>
    obtain ⟨names, cs, names', cs', hitem, hitems, -, -⟩ := streamItems_cons h
    rcases streamItem_some hitem with ⟨rfl, -⟩ | ⟨_, _, _, _, rfl, -⟩
    · exact ih hitems
    · exact ih hitems

end Plan

/-! ### The executor on the statement of a plan -/

section Single
variable {d : TableDef} {q : String}

lemma single_resolve {table : Option String} {name : String} {c : ℕ} (ht : ∀ t ∈ table, t = q)
    (hc : d.visible name = some c) : (QuerySchema.single q d).resolve table name = .ok c := by
  cases table with
  | none =>
    simp [QuerySchema.single, QuerySchema.resolve, QuerySchema.ownerOf, hc]
  | some t =>
    obtain rfl := ht t rfl
    simp [QuerySchema.single, QuerySchema.resolve, QuerySchema.ownerOf, hc]

lemma single_starMap : starMap (QuerySchema.single q d).tables 0 = d.shown := by
  simp [QuerySchema.single, starMap]

lemma outColumns_eq {items : List SelectItem} {columns : List String} {cols : List ℕ}
    (h : streamItems d q items = some (columns, cols)) (i : ℕ) :
    Executor.outColumns (.single q d) items i = .ok columns := by
  induction items generalizing columns cols i with
  | nil =>
    cases h
    rfl
  | cons item items ih =>
    obtain ⟨names, cs, names', cs', hitem, hitems, rfl, -⟩ := streamItems_cons h
    rcases streamItem_some hitem with ⟨rfl, rfl, -⟩ | ⟨table, name, alias_, c, rfl, ht, hc, rfl, -⟩
    · rw [Executor.outColumns, ih hitems]
      rfl
    · rw [Executor.outColumns, validateColumns, single_resolve ht hc, ih hitems]
      cases alias_ <;> rfl

end Single

section Answer
variable {B : Builtins} {rec : Source → SelectStmt → Result SelectOut} {src : Source}
  {params : List Value} {d : TableDef} {q : String} {r : Int64 × Row}

lemma rowAt_fullRow (h : r.2.length ≤ d.columns.length) {cols : List ℕ}
    (hcols : ∀ c ∈ cols, c < d.columns.length) :
    rowAt (fullRow d r.1 r.2) cols = .ok (cut d cols r) := by
  induction cols with
  | nil => rfl
  | cons c cols ih =>
    obtain ⟨hc, hcols⟩ := List.forall_mem_cons.1 hcols
    rw [rowAt, List.mapM_cons, getElem?_fullRow h hc]
    have := ih hcols
    rw [rowAt] at this
    rw [this]
    rfl

lemma projectItems_eq (h : r.2.length ≤ d.columns.length) {items : List SelectItem}
    {columns : List String} {cols : List ℕ} (hi : streamItems d q items = some (columns, cols)) :
    ∃ out, items.mapM ((engine B).projectItem rec src params (.single q d) (fullRow d r.1 r.2))
      = .ok out ∧ out.flatten = cut d cols r := by
  induction items generalizing columns cols with
  | nil =>
    cases hi
    exact ⟨[], rfl, rfl⟩
  | cons item items ih =>
    obtain ⟨names, cs, names', cs', hitem, hitems, -, rfl⟩ := streamItems_cons hi
    obtain ⟨out, hout, hflat⟩ := ih hitems
    have hone : (engine B).projectItem rec src params (.single q d) (fullRow d r.1 r.2) item
        = .ok (cut d cs r) := by
      rcases streamItem_some hitem with ⟨rfl, -, rfl⟩ | ⟨table, name, _, c, rfl, ht, hc, -, rfl⟩
      · rw [Executor.projectItem, single_starMap, rowAt_fullRow h fun c hc => mem_shown hc]
      · simp [Executor.projectItem, exprHasSubquery, eval, single_resolve ht hc,
          getElem?_fullRow h (TableDef.visible_lt hc), cut]
    refine ⟨cut d cs r :: out, ?_, ?_⟩
    · rw [List.mapM_cons, hone, hout]
      rfl
    · rw [List.flatten_cons, hflat, cut, cut, cut, List.map_append]

lemma projectRows_eq {rows : List (Int64 × Row)} (h : ∀ r ∈ rows, r.2.length ≤ d.columns.length)
    {items : List SelectItem} {columns : List String} {cols : List ℕ}
    (hi : streamItems d q items = some (columns, cols)) :
    (rows.map fun r => fullRow d r.1 r.2).mapM
        ((engine B).projectRow rec src params (.single q d) items)
      = .ok (rows.map (cut d cols)) := by
  induction rows with
  | nil => rfl
  | cons r rows ih =>
    obtain ⟨hr, h⟩ := List.forall_mem_cons.1 h
    obtain ⟨out, hout, hflat⟩ : ∃ out, items.mapM ((engine B).projectItem rec src params
        (.single q d) (fullRow d r.1 r.2)) = .ok out ∧ out.flatten = cut d cols r :=
      projectItems_eq hr hi
    rw [List.map_cons, List.mapM_cons, Executor.projectRow, hout, ih h]
    dsimp only [ok_bind]
    rw [hflat]
    rfl

/-- Without a condition and without an order there is nothing to search for. -/
lemma planRows_eq_scan {src : DataSource} {stmt : SelectStmt} (hw : stmt.where_clause = none)
    (ho : stmt.order_by = []) : planRows B src params d q stmt = src.scan_rows d := by
  have hkey : pointLookupKey ⟨q, d, 0⟩ none = none := by
    unfold pointLookupKey
    cases d.rowid_alias with
    | none => rfl
    | some i => cases hc : d.columns[i]? <;> simp
  have htopk : ftsTopkPlan B src params d stmt = .ok none := by simp [ftsTopkPlan, ho]
  have hfts : ftsPlan B src params d none = .ok none := rfl
  have hvec : vectorPlan B src params d stmt = .ok none := by
    simp [vectorPlan, hw, ho, distanceOrder]
  have hknn : exactKnnPlan B src params d stmt = .ok none := by
    simp [exactKnnPlan, hw, ho, distanceOrder]
  rw [planRows, hw, hkey]
  simp only [indexEqPlan, indexRangePlan, searchRows, htopk, hw, hfts, hvec, hknn, ok_bind,
    Option.bind_eq_bind, Option.bind_none]

end Answer

/-! ### The two answers -/

section Exact
variable {B : Builtins} {params : List Value} {parse : String → Result SelectStmt}
  {inner : DataSource} {stmt : SelectStmt} {plan : StreamSelect}

lemma starIdentity_iff {q : String} {d : TableDef} :
    Executor.starIdentity (.single q d) = true ↔ d.shown = List.range d.shown.length := by
  rw [Executor.starIdentity, single_starMap, List.all_eq_true]
  constructor
  · intro h
    refine List.ext_getElem (by simp) fun i hi _ => ?_
    have hmem : (d.shown[i], i) ∈ d.shown.zipIdx := by
      rw [List.mem_zipIdx_iff_getElem?, List.getElem?_eq_getElem hi]
    simpa using (beq_iff_eq.1 (h _ hmem)).symm
  · intro h p hp
    obtain ⟨c, i⟩ := p
    rw [List.mem_zipIdx_iff_getElem?, h, List.getElem?_eq_some_iff] at hp
    obtain ⟨_, hp⟩ := hp
    simpa using hp

/-- The rows a `*` alone shows. -/
def shownRow (stmt : SelectStmt) (plan : StreamSelect) (r : Int64 × Row) : Row :=
  if Executor.isStar stmt.projection ∧ plan.def_.shown = List.range plan.def_.shown.length
  then fullRow plan.def_ r.1 r.2 else cut plan.def_ plan.cols r

lemma project_plan {rec : Source → SelectStmt → Result SelectOut} {src : Source} {q : String}
    {rows : List (Int64 × Row)} (hd : stmt.distinct = false)
    (hi : streamItems plan.def_ q stmt.projection = some (plan.columns, plan.cols))
    (hwide : ∀ r ∈ rows, r.2.length ≤ plan.def_.columns.length) :
    (engine B).project rec src params (.single q plan.def_) stmt
        (rows.map fun r => fullRow plan.def_ r.1 r.2)
      = .ok ⟨plan.columns, rows.map (shownRow stmt plan)⟩ := by
  rw [Executor.project, outColumns_eq hi, ok_bind, hd]
  by_cases hstar : Executor.isStar stmt.projection ∧
      plan.def_.shown = List.range plan.def_.shown.length
  · have hid : Executor.starIdentity (.single q plan.def_) = true := starIdentity_iff.2 hstar.2
    rw [if_pos (by rw [hid, hstar.1]; rfl)]
    unfold shownRow
    simp only [if_pos hstar]
  · rw [if_neg, projectRows_eq hwide hi]
    · unfold shownRow
      simp only [if_neg hstar]
      rfl
    · intro h
      simp only [Bool.not_false, Bool.true_and, Bool.and_eq_true] at h
      exact hstar ⟨h.2, starIdentity_iff.1 h.1⟩

lemma runFrom_plan {rec : Source → SelectStmt → Result SelectOut} {src : Source}
    {from_ : TableRef} {rows : List (Int64 × Row)} (hs : streamable stmt = true)
    (ht : src.read.table from_.name = .ok (some plan.def_))
    (hi : streamItems plan.def_ from_.qualifier stmt.projection = some (plan.columns, plan.cols))
    (ho : offsetOf B stmt params = .ok plan.offset) (hl : limitOf B stmt params = .ok plan.limit)
    (hscan : src.read.scan_rows plan.def_ = .ok (rows.map fun r => fullRow plan.def_ r.1 r.2))
    (hwide : ∀ r ∈ rows, r.2.length ≤ plan.def_.columns.length) :
    (engine B).runFrom rec src params from_ stmt = .ok ⟨plan.columns,
      ((rows.drop plan.offset).take plan.limit).map (shownRow stmt plan)⟩ := by
  simp only [streamable, Bool.and_eq_true, List.isEmpty_iff, Option.isNone_iff_eq_none,
    Bool.not_eq_true'] at hs
  obtain ⟨⟨⟨⟨⟨⟨⟨hj, hw⟩, hg⟩, hh⟩, hob⟩, hd⟩, hc⟩, hwith⟩ := hs
  have hlookup : lookup src.read from_.name = .ok plan.def_ := by rw [lookup, ht]; rfl
  have hbm : precomputeBm25 B src.read params (.single from_.qualifier plan.def_) stmt
      = .ok (.single from_.qualifier plan.def_) := by
    rw [precomputeBm25, streamItems_bm25 hi, hob]
    rfl
  have hrows : (engine B).fromRows src params from_ plan.def_ stmt
      = .ok (rows.map fun r => fullRow plan.def_ r.1 r.2) := by
    have haccess : planRows B src.read params plan.def_ from_.qualifier stmt
        = src.read.scan_rows plan.def_ := planRows_eq_scan hw hob
    simp only [Executor.fromRows, hj, List.isEmpty_nil, if_true, engine, haccess, hscan, ok_bind,
      pushdownOf, ne_eq, not_true, if_false]
  have hplain : ∀ rows', (engine B).runTail rec src params (.single from_.qualifier plan.def_) stmt
      rows' = (engine B).runPlain rec src params (.single from_.qualifier plan.def_) stmt rows' := by
    intro rows'
    have hagg := streamItems_any (p := Expr.hasAggregate) (fun _ _ => rfl) hi
    have hwin := streamItems_any (p := Expr.hasWindow) (fun _ _ => rfl) hi
    simp [Executor.runTail, hg, hh, hagg, hwin]
  have htail : (engine B).runPlain rec src params (.single from_.qualifier plan.def_) stmt
      (rows.map fun r => fullRow plan.def_ r.1 r.2) = .ok ⟨plan.columns,
        ((rows.drop plan.offset).take plan.limit).map (shownRow stmt plan)⟩ := by
    have hlim : limitOffset B (rows.map fun r => fullRow plan.def_ r.1 r.2) stmt params
        = .ok (((rows.drop plan.offset).take plan.limit).map
            fun r => fullRow plan.def_ r.1 r.2) := by
      rw [limitOffset, ho, ok_bind, hl, ok_bind, List.map_take, List.map_drop]
    simp only [Executor.runPlain, Executor.orderRows, hob, List.isEmpty_nil, if_true, ok_bind, hd,
      Bool.false_eq_true, if_false, engine, hlim]
    exact project_plan hd hi fun r hr => hwide r (List.mem_of_mem_drop (List.mem_of_mem_take hr))
  rw [Executor.runFrom]
  simp only [engine] at hrows hplain htail ⊢
  simp only [hlookup, ok_bind, hbm, hrows, hj, Executor.runJoins, Executor.runWhere, hw, hplain,
    htail]

/-- The executor on the statement of a plan: the rows between `OFFSET` and `LIMIT`, projected. -/
lemma runQuery_plan {k : ℕ} {rows : List (Int64 × Row)}
    (hplan : streamSelect B inner stmt params = .ok (some plan))
    (hsub : ∀ t ∈ stmt.from_, t.subquery = none)
    (hscan : inner.scan_rows plan.def_ = .ok (rows.map fun r => fullRow plan.def_ r.1 r.2))
    (hwide : ∀ r ∈ rows, r.2.length ≤ plan.def_.columns.length) :
    runQuery (engine B) parse inner [] (k + 1) stmt params = .ok ⟨plan.columns,
      ((rows.drop plan.offset).take plan.limit).map (shownRow stmt plan)⟩ := by
  obtain ⟨from_, hf, hs, ht, hi, ho, hl⟩ := streamSelect_some hplan
  have htable : (viewSource (engine B) parse inner [] (k + 1) []).table from_.name
      = .ok (some plan.def_) := by
    simp only [viewSource, ht, ok_bind]
  have hfrom : (engine B).runFrom ((engine B).run params k)
      (.base (viewSource (engine B) parse inner [] (k + 1) [])) params from_ stmt
      = .ok ⟨plan.columns, ((rows.drop plan.offset).take plan.limit).map (shownRow stmt plan)⟩ :=
    runFrom_plan hs htable hi ho hl hscan hwide
  simp only [streamable, Bool.and_eq_true, List.isEmpty_iff, Option.isNone_iff_eq_none,
    Bool.not_eq_true'] at hs
  obtain ⟨⟨⟨⟨⟨⟨⟨hj, hw⟩, hg⟩, hh⟩, hob⟩, hd⟩, hc⟩, hwith⟩ := hs
  have hderived : selectHasDerived stmt = false := by
    simp [selectHasDerived, hf, hj, hsub from_ hf]
  have hsubquery : selectHasSubquery stmt = false := by
    simp [selectHasSubquery, hw, hh, hj, hg, streamItems_any (p := exprHasSubquery)
      (fun _ _ => rfl) hi]
  simp only [runQuery, Executor.run, Executor.select, Executor.withCtes, hwith, List.isEmpty_nil,
    if_true, ok_bind, Executor.withDerived, hderived, Bool.false_eq_true, not_false_iff,
    Executor.runCore, hsubquery, if_false, hc, not_true, hf, hfrom]

lemma isStar_iff {items : List SelectItem} : Executor.isStar items = true ↔ items = [.star] := by
  constructor
  · intro h
    match items, h with
    | [.star], _ => rfl
  · rintro rfl
    rfl

/-- A `*` alone, of columns that are the first ones but not all. -/
def ShowsDropped (stmt : SelectStmt) (d : TableDef) : Prop :=
  stmt.projection = [.star] ∧ d.shown = List.range d.shown.length ∧
    d.shown.length ≠ d.columns.length

lemma streamItems_star {d : TableDef} {q : String} {columns : List String} {cols : List ℕ}
    (h : streamItems d q [.star] = some (columns, cols)) : cols = d.shown := by
  obtain ⟨_, _, _, _, hitem, hitems, -, rfl⟩ := streamItems_cons h
  cases hitem
  cases hitems
  exact List.append_nil _

lemma shownRow_eq_cut {q : String} {r : Int64 × Row} (hwide : r.2.length ≤ plan.def_.columns.length)
    (hi : streamItems plan.def_ q stmt.projection = some (plan.columns, plan.cols))
    (h : ¬ ShowsDropped stmt plan.def_) : shownRow stmt plan r = cut plan.def_ plan.cols r := by
  unfold shownRow
  split_ifs with hstar
  · have hproj := isStar_iff.1 hstar.1
    have hlen : plan.def_.shown.length = plan.def_.columns.length := by
      by_contra hne
      exact h ⟨hproj, hstar.2, hne⟩
    have hcols : plan.cols = List.range plan.def_.columns.length := by
      rw [hproj] at hi
      rw [streamItems_star hi, hstar.2, hlen]
    refine List.ext_getElem? fun i => ?_
    rw [cut, hcols, List.getElem?_map]
    rcases Nat.lt_or_ge i plan.def_.columns.length with hlt | hge
    · rw [getElem?_fullRow hwide hlt, List.getElem?_range hlt]
      rfl
    · rw [List.getElem?_eq_none (by rw [length_fullRow hwide]; exact hge),
        List.getElem?_eq_none (by simpa using hge)]
      rfl
  · rfl

/-- Shown as they are, the rows have more columns than names. -/
lemma shownRow_ne_cut {q : String} {r : Int64 × Row} (hwide : r.2.length ≤ plan.def_.columns.length)
    (hi : streamItems plan.def_ q stmt.projection = some (plan.columns, plan.cols))
    (h : ShowsDropped stmt plan.def_) : shownRow stmt plan r ≠ cut plan.def_ plan.cols r := by
  obtain ⟨hproj, hshown, hne⟩ := h
  have hcols : plan.cols = plan.def_.shown := by
    rw [hproj] at hi
    exact streamItems_star hi
  intro heq
  have hlen := congrArg List.length heq
  rw [shownRow, if_pos ⟨isStar_iff.2 hproj, hshown⟩, length_fullRow hwide, cut, List.length_map,
    hcols] at hlen
  exact hne hlen.symm

end Exact

section Claim
variable {σ : Type} [NodeStore σ] {s : σ} {m n k root : ℕ} {kvs : Entries} {F : List ℕ}
  {stored : List (Int64 × Row)} {B : Builtins} {other : DataSource} {stmt : SelectStmt}
  {params : List Value} {plan : StreamSelect}

/-- A stream that is read to its end gives the names and the rows of the executor on the same
snapshot, if and only if there is no row left or no column is shown that was dropped. -/
theorem streamRows_eq_runQuery_iff (parse : String → Result SelectStmt) (j : ℕ)
    (h : TreeHolds s m n root kvs F) (hm : m ≤ k) (hn : n + 2 ≤ k) (hk : kvs.length < k)
    (hplan : streamSelect B (snapshotSource s k root other) stmt params = .ok (some plan))
    (hstored : ScansAs plan.def_ (fromKey (rowPrefix plan.def_.table_id) kvs) stored)
    (hderived : ∀ t ∈ stmt.from_, t.subquery.isSome → t.name = "")
    (hunnamed : other.table "" = .ok none) :
    streamRows s k root plan
        = runQuery (engine B) parse (snapshotSource s k root other) [] (j + 1) stmt params ↔
      ¬ (ShowsDropped stmt plan.def_ ∧ plan.offset < stored.length ∧ 0 < plan.limit) := by
  obtain ⟨from_, hf, -, ht, hi, -⟩ := streamSelect_some hplan
  have hsub : ∀ t ∈ stmt.from_, t.subquery = none := by
    intro t hmem
    by_contra hne
    have hname := hderived t hmem (Option.isSome_iff_ne_none.2 hne)
    obtain rfl : from_ = t := Option.some_injective _ (hf.symm.trans hmem)
    rw [hname] at ht
    cases ht.symm.trans hunnamed
  have hwide : ∀ r ∈ stored, r.2.length ≤ plan.def_.columns.length := fun r hr =>
    (hstored.1 r hr).1
  have hscan : (snapshotSource s k root other).scan_rows plan.def_
      = .ok (stored.map fun r => fullRow plan.def_ r.1 r.2) := by
    change (scanTable s k root plan.def_ >>= fun rows => .ok (rows.map Prod.snd)) = _
    rw [scanTable_eq h hm hn hk hstored, ok_bind, fullRows, List.map_map]
    rfl
  have hlen : stored.length < k := by
    obtain ⟨-, rest, hkvs, -⟩ := hstored
    have hle : (fromKey (rowPrefix plan.def_.table_id) kvs).length ≤ kvs.length :=
      List.length_filter_le ..
    rw [hkvs, List.length_append, List.length_map] at hle
    omega
  obtain ⟨st, hstart, hgives⟩ := ScanState.start_gives (k := k) h hn hstored
  rw [runQuery_plan hplan hsub hscan hwide, streamRows, hstart, ok_bind,
    drainRows_eq hgives hm hn hlen (streamItems_lt hi), ok_bind, Except.ok.injEq,
    SelectOut.mk.injEq, and_iff_right rfl]
  have hleft : ∀ r ∈ (stored.drop plan.offset).take plan.limit,
      r.2.length ≤ plan.def_.columns.length := fun r hr =>
    hwide r (List.mem_of_mem_drop (List.mem_of_mem_take hr))
  constructor
  · rintro heq ⟨hshows, hoff, hlim⟩
    obtain ⟨r, rest, hrest⟩ : ∃ r rest, (stored.drop plan.offset).take plan.limit = r :: rest := by
      refine List.exists_cons_of_length_pos ?_
      rw [List.length_take, List.length_drop]
      omega
    rw [hrest, List.map_cons, List.map_cons, List.cons.injEq] at heq
    exact shownRow_ne_cut (hleft r (by rw [hrest]; exact List.mem_cons_self)) hi hshows heq.1.symm
  · intro hnot
    refine List.map_congr_left fun r hr => ?_
    refine (shownRow_eq_cut (hleft r hr) hi fun hshows => hnot ⟨hshows, ?_⟩).symm
    have hpos := List.length_pos_of_mem hr
    rw [List.length_take, List.length_drop] at hpos
    omega

end Claim

/-! ### One table -/

section OneTable

/-- No function of the engine is called by a statement that shows columns. -/
def noBuiltins : Builtins where
  ofInt _ := ⟨0⟩
  realOp _ _ y := y
  callFunction _ _ := .ok .null
  castValue v _ := .ok v
  jsonArrow _ _ _ := .ok .null
  tokenizerFor _ := .ok ()
  parseQuery s := .ok (.term s false)
  queryTerms _ _ := []
  bm25Idf _ _ := ⟨0⟩
  avgdl _ _ := ⟨0⟩
  rowMatches _ _ _ _ := .ok false
  highlight s _ _ _ _ := s
  snippet s _ _ _ _ _ _ := s
  bm25 _ _ _ := ⟨0⟩
  toF32 _ := .ok ()
  distance _ _ _ := .ok none

/-- A source without tables but one. -/
def oneTable (d : TableDef) : DataSource where
  table name := .ok (if name = d.name then some d else none)
  get_row _ _ := .ok none
  scan_rows _ := .ok []
  index_lookup _ _ _ := .ok []
  index_range _ _ _ _ := .ok []
  view _ := .ok none
  fts_search _ _ _ := .ok []
  fts_stats _ _ := .ok ([], 0, 0)
  fts_bm25_topk _ _ _ _ := .ok []
  vector_search _ _ _ _ := .ok []
  knn_exact _ _ _ _ _ := .ok []
  get_col_blob _ _ _ := .ok none

/-- `SELECT * FROM t`. -/
def selectAll : SelectStmt :=
  ⟨false, [.star], some ⟨"t", none, none⟩, [], none, [], none, [], none, none, none, [], []⟩

def columnSpec (name : String) : ColumnSpec := ⟨name, .integer, false, false, none⟩

/-- The answers in a stream and by the executor, of a table `t(a, b)` with the row `(1, 2)` and the
second column dropped. -/
def droppedAnswers : Result (Option SelectOut × SelectOut) := do
  let d ← createTable (fun _ => .ok none) "t" 1 [columnSpec "a", columnSpec "b"] [] []
  let d ← d.dropColumn "b"
  let (root, s) ← insert 8 CowMemStore.new NO_ROOT (rowKey 1 1)
    (encodeValues [.integer 1, .integer 2])
  let src := snapshotSource s 8 root (oneTable d)
  let plan ← streamSelect noBuiltins src selectAll []
  let stream ← plan.mapM (streamRows s 8 root)
  let query ← runQuery (engine noBuiltins) (fun _ => .error (.sql "")) src [] 2 selectAll []
  .ok (stream, query)

/-- The stream shows one column, the executor also the one that was dropped. -/
theorem stream_hides_dropped :
    droppedAnswers = .ok (some ⟨["a"], [[.integer 1]]⟩, ⟨["a"], [[.integer 1, .integer 2]]⟩) := by
  decide +kernel

/-- A table `t(a)`. -/
def plainTable : TableDef := syntheticDef "t" ["a"] 1

def plainPlan : StreamSelect := ⟨plainTable, ["a"], [0], 0, USIZE_MAX⟩

/-- The theorem at a table of one row. -/
theorem streamRows_eq_runQuery_one : ∃ root s,
    insert 8 CowMemStore.new NO_ROOT (rowKey 1 1) (encodeValues [.integer 1]) = .ok (root, s) ∧
    (streamRows s 8 root plainPlan = runQuery (engine noBuiltins) (fun _ => .error (.sql ""))
        (snapshotSource s 8 root (oneTable plainTable)) [] 2 selectAll [] ↔
      ¬ (ShowsDropped selectAll plainTable ∧ 0 < 1 ∧ 0 < USIZE_MAX)) := by
  have hop : (MapOp.insert (rowKey 1 1) (encodeValues [.integer 1])).Ok := by
    have hkey : 0 < (rowKey 1 1).length ∧ (rowKey 1 1).length ≤ MAX_KEY_LEN ∧
        (encodeValues [.integer 1]).length < 2 ^ 64 := by decide +kernel
    simpa [MapOp.Ok] using hkey
  obtain ⟨root, s, hrun, F, htree, -⟩ :=
    @treeOf_insert_new 8 _ _ hop (by decide) (by decide +kernel)
  have hsize : ([Value.integer 1].length ≤ plainTable.columns.length) ∧
      (encodeValues [.integer 1]).length < 2 ^ 64 := by decide +kernel
  have hstored : ScansAs plainTable
      (fromKey (rowPrefix 1) [(rowKey 1 1, encodeValues [.integer 1])]) [(1, [.integer 1])] :=
    ⟨by simpa [Storable] using hsize, [], by decide +kernel, by simp⟩
  have hplan : streamSelect noBuiltins (snapshotSource s 8 root (oneTable plainTable)) selectAll []
      = .ok (some plainPlan) := rfl
  exact ⟨root, s, hrun, streamRows_eq_runQuery_iff _ 1 htree (by decide) (by decide) (by decide)
    hplan hstored (by decide +kernel) rfl⟩

end OneTable

end Arkeion.Sql
