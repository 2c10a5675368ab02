import Arkeion.Sql.GrammarSize
import Arkeion.Sql.JsonFunctions

/-!
The size of a statement, in terms of its tokens: linear.

What is kept as text, the query of a view and the body of a trigger, is parsed and left out again.
-/

namespace Arkeion.Sql

open Arkeion.Lib Catalog

/-! ### Sizes -/

def ColumnAst.size (col : ColumnAst) : ℕ := col.measure (· + ·)

lemma ColumnAst.size_eq (col : ColumnAst) : col.size = 1 + sizeOpt col.default_ := rfl

def sizeConflict (r : Option ConflictAction) : ℕ := measureConflict (· + ·) r

def sizeReturning (r : Option (List SelectItem)) : ℕ := measureReturning (· + ·) r

lemma measureLeaves_eq {α : Type} (as : List α) : measureLeaves (· + ·) as = as.length := by
  induction as with
  | nil => rfl
  | cons a as ih =>
    rw [measureLeaves, ih, List.length_cons]
    omega

lemma sizeSets_eq (sets : List (String × Expr)) :
    measureSets (· + ·) sets = (sets.map fun s => s.2.size).sum := by
  rw [measureSets, ← sizeList, sizeList_eq, List.map_map]
  rfl

lemma sizeRows_eq (rows : List (List Expr)) :
    measureRows (· + ·) rows = (rows.map sizeList).sum := by
  induction rows with
  | nil => rfl
  | cons row rows ih => rw [measureRows, ih, List.map_cons, List.sum_cons, sizeList]

lemma sizeReturning_elim (r : Option (List SelectItem)) : sizeReturning r = r.elim 0 sizeItems := by
  cases r <;> rfl

/-! ### Items of a table -/

namespace Parse

def TableItem.size : TableItem → ℕ
  | .column col => col.size
  | .foreignKey fk => 1 + (fk.columns.length + fk.parent_columns.length)
  | .unique columns => 1 + columns.length
  | .check _ => 1

/-- What a table is made of is its items, by their kinds. -/
lemma sizeTable_items (its : List TableItem) :
    measureColumns (· + ·) (its.filterMap TableItem.column?)
      + (measureForeignKeys (· + ·) (its.filterMap TableItem.foreignKey?)
        + (measureUniques (· + ·) (its.filterMap TableItem.unique?)
          + measureLeaves (· + ·) (its.filterMap TableItem.check?)))
      = (its.map TableItem.size).sum := by
  induction its with
  | nil => rfl
  | cons it its ih =>
    rw [List.map_cons, List.sum_cons, ← ih]
    cases it with
    | column col =>
      simp only [TableItem.column?, TableItem.foreignKey?, TableItem.unique?, TableItem.check?,
        List.filterMap_cons, measureColumns, TableItem.size, ColumnAst.size]
      omega
    | foreignKey fk =>
      simp only [TableItem.column?, TableItem.foreignKey?, TableItem.unique?, TableItem.check?,
        List.filterMap_cons, measureForeignKeys, measureLeaves_eq, TableItem.size]
      omega
    | unique columns =>
      simp only [TableItem.column?, TableItem.foreignKey?, TableItem.unique?, TableItem.check?,
        List.filterMap_cons, measureUniques, measureLeaves_eq, TableItem.size]
      omega
    | check text =>
      simp only [TableItem.column?, TableItem.foreignKey?, TableItem.unique?, TableItem.check?,
        List.filterMap_cons, measureLeaves, TableItem.size]
      omega

/-! ### Queries -/

section Queries
variable {K d w c : ℕ} {G G' : Grammar}

lemma cte_fits (h : Agree K d w G G') :
    Fits (K + 1) d w c (cte G) (cte G') fun t => c + (1 + t.query.size) := by
  have hw := h.price
  refine (ident_fits _).bind fun name => (expectKw_fits _ _).bind fun _ =>
    (parens_fits _ (h.select _ (by omega))).bind fun q => .pure _ ?_
  dsimp only
  omega

lemma withCtes_fits (h : Agree K d w G G') :
    Fits (K + 1) d w c (withCtes G) (withCtes G') fun ctes => c + w + sizeCtes ctes := by
  have hw := h.price
  refine (expectKw_fits _ _).bind fun _ => (eatAny_fits _).bind fun _ => ?_
  refine (commaSep_fits (fun _ _ => cte_fits h) (by omega)).weaken le_rfl fun ctes => ?_
  rw [sizeCtes_eq]

lemma withQuery_fits (h : Agree K d w G G') :
    Fits (K + 1) d w c (withQuery G) (withQuery G') fun q => c + (q.size + 1) := by
  have hw := h.price
  refine (withCtes_fits h).bind fun ctes => (h.select _ (by omega)).bind fun q => .pure _ ?_
  obtain ⟨distinct, projection, from_, js, where_clause, group_by, having, os, l, o, a, cs, wth⟩ := q
  dsimp only
  rw [size_select, size_select]
  omega

lemma sourceQuery_fits (h : Agree K d w G G') (hc : 1 ≤ c) :
    Fits (K + 1) d w c (sourceQuery G) (sourceQuery G') fun q => c + (q.size + 1) :=
  onEat_fits ((withQuery_fits h).weaken le_rfl fun q => by omega) (h.select _ hc)

end Queries

/-! ### Parts of definitions -/

section Parts
variable {α : Type} {K d w c : ℕ} {e e' : Parse α}

lemma ifNotExists_fits : Fits K d w c ifNotExists ifNotExists fun _ => c :=
  onEat_fits ((expectKw_fits _ _).bind fun _ => (expectKw_fits _ _).bind fun _ => .pure _ (by omega))
    (.pure _ le_rfl)

lemma ifExists_fits : Fits K d w c ifExists ifExists fun _ => c :=
  onEat_fits ((expectKw_fits _ _).bind fun _ => .pure _ (by omega)) (.pure _ le_rfl)

lemma identSep_fits (hw : 1 ≤ w) (what : String) (hc : 1 ≤ c) :
    Fits K d w c (commaSep (ident what)) (commaSep (ident what)) fun names => c + names.length :=
  (names_fits (f := fun _ => 1) (fun _ => hw) (fun _ => ident_fits what) hc).weaken le_rfl
    fun names => by simp

lemma idents_fits (hw : 1 ≤ w) (open_ what : String) :
    Fits K d w c (idents open_ what) (idents open_ what) fun names => c + names.length :=
  (parens_fits open_ (identSep_fits hw what (by omega))).weaken le_rfl fun names => by omega

lemma ifParens_fits {f : α → ℕ} (he : Fits K d w (c + w) e e' fun a => c + f a) :
    Fits K d w c (ifParens e) (ifParens e') fun r => c + r.elim 0 f := by
  refine onEat_fits (he.bind fun a => (expect_fits _ _).bind fun _ => .pure (some a) ?_)
    (.pure none le_rfl)
  rw [Option.elim_some]
  omega

lemma fkAction_fits : Fits K d w c fkAction fkAction fun _ => c :=
  onEat_fits (.pure _ (by omega)) (onEat_fits (.pure _ (by omega)) (onEat_fits
    ((expectKw_fits _ _).bind fun _ => .pure _ (by omega)) (fail_fits _)))

lemma fkActions_fits : Fits K d w c fkActions fkActions fun _ => c := by
  have hstep : ∀ n a b, Fits K d w c (fkActionsLoop n a b) (fkActionsLoop n a b) fun _ => c := by
    intro n
    induction n with
    | zero => exact fun _ _ => outOfFuel_fits
    | succ n ih =>
      intro a b
      refine onEat_fits (onEat_fits ?_ (onEat_fits ?_ (fail_fits _))) (.pure _ le_rfl)
      · exact fkAction_fits.bind fun action => (ih action b).weaken (by omega) fun _ => le_rfl
      · exact fkAction_fits.bind fun action => (ih a action).weaken (by omega) fun _ => le_rfl
  exact loop_fits fun n => hstep n _ _

lemma fkReference_fits : Fits K d w c fkReference fkReference fun _ => c := by
  refine (ident_fits _).bind fun parent => (ifParens_fits (f := fun _ => 0) ?_).bind fun r => ?_
  · exact (ident_fits _).weaken le_rfl fun _ => by omega
  · exact fkActions_fits.bind fun actions => .pure _ (by omega)

lemma tableFk_fits (hw : 1 ≤ w) : Fits K d w c tableFk tableFk fun fk =>
    c + (1 + (fk.columns.length + fk.parent_columns.length)) := by
  refine (expectKw_fits _ _).bind fun _ => (expectKw_fits _ _).bind fun _ =>
    (idents_fits hw _ _).bind fun columns => (expectKw_fits _ _).bind fun _ =>
    (ident_fits _).bind fun parent => ?_
  refine (ifParens_fits (f := List.length) ?_).bind fun r => fkActions_fits.bind fun actions =>
    .pure _ ?_
  · exact (identSep_fits hw _ (by omega)).weaken le_rfl fun names => by omega
  · cases r with
    | none =>
      simp only [Option.elim_none, Option.getD_none, List.length_nil]
      omega
    | some parents =>
      simp only [Option.elim_some, Option.getD_some]
      omega

lemma textFrom_fits (start : ℕ) : Fits K d w c (textFrom start) (textFrom start) fun _ => c := by
  refine pos_fits.bind fun stop => ?_
  rintro k - s hs hc a s' hrun
  cases hrun
  exact ⟨rfl, hs, hc⟩

/-- The text is one thing, however large what it is the text of. -/
lemma captured_fits (he : Fits K d w c e e' fun _ => c) :
    Fits K d w c (captured e) (captured e') fun _ => c :=
  pos_fits.bind fun start => he.bind fun _ => textFrom_fits start

end Parts

/-! ### Tables -/

section Tables
variable {K d w c : ℕ} {G G' : Grammar}

lemma checkClause_fits (h : Agree K d w G G') :
    Fits (K + 1) d w c (checkClause G) (checkClause G') fun _ => c := by
  have hw := h.price
  refine (parens_fits (q := fun _ => c + w) _ ?_).weaken le_rfl fun _ => by omega
  exact captured_fits ((h.expr _ (by omega)).weaken le_rfl fun e => by omega)

lemma columnLoop_fits (h : Agree K d w G G') (n : ℕ) (col : ColumnAst) :
    Fits (K + 1) d w (c + col.size) (columnLoop G n col) (columnLoop G' n col)
      fun t => c + t.size := by
  have hw := h.price
  induction n generalizing c col with
  | zero => exact outOfFuel_fits
  | succ n ih =>
    refine onEat_fits ?_ (onEat_fits ?_ (onEat_fits ?_ (onEat_fits ?_ (onEat_fits ?_
      (onEat_fits ?_ (.pure col le_rfl))))))
    · exact (expectKw_fits _ _).bind fun _ => (ih _).weaken (by simp only [ColumnAst.size_eq]; omega)
        fun _ => le_rfl
    · exact (expectKw_fits _ _).bind fun _ => (ih _).weaken (by simp only [ColumnAst.size_eq]; omega)
        fun _ => le_rfl
    · refine (h.expr _ (by omega)).bind fun e => (ih _).weaken ?_ fun _ => le_rfl
      simp only [ColumnAst.size_eq, sizeOpt_some]
      omega
    · exact fkReference_fits.bind fun fk => (ih _).weaken (by simp only [ColumnAst.size_eq]; omega)
        fun _ => le_rfl
    · exact (ih _).weaken (by simp only [ColumnAst.size_eq]; omega) fun _ => le_rfl
    · exact (checkClause_fits h).bind fun text => (ih _).weaken
        (by simp only [ColumnAst.size_eq]; omega) fun _ => le_rfl

lemma columnDef_fits (h : Agree K d w G G') :
    Fits (K + 1) d w c (columnDef G) (columnDef G') fun col => c + col.size := by
  have hw := h.price
  refine (ident_fits _).bind fun name => coltype_fits.bind fun ty => loop_fits fun n => ?_
  refine (columnLoop_fits h n _).weaken ?_ fun _ => le_rfl
  rw [ColumnAst.size_eq, sizeOpt_none]
  omega

lemma tableItem_fits (h : Agree K d w G G') :
    Fits (K + 1) d w c (tableItem G) (tableItem G') fun it => c + it.size := by
  have hw := h.price
  refine peek_fits.bind fun t => .ite (fun _ => (tableFk_fits (by omega)).map fun fk => ?_)
    fun _ => onEat_fits ((idents_fits (by omega) _ _).map fun columns => ?_)
      (onEat_fits ((checkClause_fits h).map fun text => ?_) ((columnDef_fits h).map fun col => ?_))
  · exact le_rfl
  · rw [TableItem.size]
    omega
  · rw [TableItem.size]
    omega
  · exact le_rfl

lemma createTable_fits (h : Agree K d w G G') :
    Fits (K + 1) d w c (createTable G) (createTable G') fun s => c + s.size := by
  have hw := h.price
  refine (expectKw_fits _ _).bind fun _ => ifNotExists_fits.bind fun b => (ident_fits _).bind
    fun name => onEat_fits ((sourceQuery_fits h (by omega)).map fun q => ?_) ?_
  · rw [Statement.size, Statement.measure, ← SelectStmt.size]
    omega
  · refine (parens_fits _ (commaSep_fits (fun _ _ => tableItem_fits h) (by omega))).bind
      fun its => .pure _ ?_
    rw [Statement.size, Statement.measure, sizeTable_items]
    omega

lemma createIndex_fits (hw : 1 ≤ w) : Fits K d w c createIndex createIndex fun s => c + s.size := by
  refine (eatAny_fits _).bind fun unique => (expectKw_fits _ _).bind fun _ => ifNotExists_fits.bind
    fun b => (ident_fits _).bind fun name => (expectKw_fits _ _).bind fun _ => (ident_fits _).bind
    fun table => (idents_fits hw _ _).bind fun columns => .pure _ ?_
  rw [Statement.size, Statement.measure, measureLeaves_eq]
  omega

lemma createFtsIndex_fits (hw : 1 ≤ w) :
    Fits K d w c createFtsIndex createFtsIndex fun s => c + s.size := by
  refine (expectKw_fits _ _).bind fun _ => (expectKw_fits _ _).bind fun _ => ifNotExists_fits.bind
    fun b => (ident_fits _).bind fun name => (expectKw_fits _ _).bind fun _ => (ident_fits _).bind
    fun table => (idents_fits hw _ _).bind fun columns => ?_
  refine (ifKw_fits (f := fun _ => 0) _ ((ident_fits _).weaken le_rfl fun _ => by omega)).bind
    fun tokenizer => .pure _ ?_
  rw [Statement.size, Statement.measure, measureLeaves_eq]
  omega

lemma positive_fits (what : String) : Fits K d w c (positive what) (positive what) fun _ => c := by
  refine next_any.bind fun t => ?_
  cases t.bind natOf? with
  | none => exact fail_fits _
  | some n => exact .ite (fun _ => .pure _ le_rfl) fun _ => fail_fits _

lemma rerankMode_fits : Fits K d w c rerankMode rerankMode fun _ => c :=
  (ident_fits _).bind fun mode => .ite (fun _ => .pure _ (by omega)) fun _ => fail_fits _

lemma createVectorIndex_fits (hw : 1 ≤ w) :
    Fits K d w c createVectorIndex createVectorIndex fun s => c + s.size := by
  refine (expectKw_fits _ _).bind fun _ => (expectKw_fits _ _).bind fun _ => ifNotExists_fits.bind
    fun b => (ident_fits _).bind fun name => (expectKw_fits _ _).bind fun _ => (ident_fits _).bind
    fun table => (parens_fits _ (ident_fits _)).bind fun column => ?_
  refine (ifKw_fits (f := fun _ => 0) _ ((ident_fits _).weaken le_rfl fun _ => by omega)).bind
    fun metric => ?_
  refine (ifKw_fits (f := fun _ => 0) _ ((positive_fits _).weaken le_rfl fun _ => by omega)).bind
    fun lists => ?_
  refine (ifKw_fits (f := fun _ => 0) _ ((positive_fits _).weaken le_rfl fun _ => by omega)).bind
    fun probes => ?_
  refine (ifKw_fits (f := fun _ => 0) _ (rerankMode_fits.weaken le_rfl fun _ => by omega)).bind
    fun rerank => .pure _ ?_
  rw [Statement.size, Statement.measure]
  omega

lemma createView_fits (h : Agree K d w G G') :
    Fits (K + 1) d w c (createView G) (createView G') fun s => c + s.size := by
  have hw := h.price
  refine (expectKw_fits _ _).bind fun _ => ifNotExists_fits.bind fun b => (ident_fits _).bind
    fun name => (expectKw_fits _ _).bind fun _ => ?_
  refine (captured_fits ((h.select _ (by omega)).weaken le_rfl fun q => by omega)).bind
    fun text => .pure _ ?_
  rw [Statement.size, Statement.measure]
  omega

lemma columnPos_fits : Fits K d w c columnPos columnPos fun _ => c :=
  onEat_fits (.pure _ (by omega)) (onEat_fits ((ident_fits _).map fun _ => by omega)
    (onEat_fits ((ident_fits _).map fun _ => by omega) (fail_fits _)))

lemma alterTable_fits (h : Agree K d w G G') :
    Fits (K + 1) d w c (alterTable G) (alterTable G') fun s => c + s.size := by
  have hw := h.price
  refine (expectKw_fits _ _).bind fun _ => (expectKw_fits _ _).bind fun _ => (ident_fits _).bind
    fun table => onEat_fits ?_ (onEat_fits ?_ (onEat_fits ?_ (onEat_fits ?_ (onEat_fits ?_
      (fail_fits _)))))
  · refine (eatAny_fits _).bind fun _ => (columnDef_fits h).map fun col => ?_
    rw [Statement.size, Statement.measure, ← ColumnAst.size]
    omega
  · refine (expectKw_fits _ _).bind fun _ => (ident_fits _).bind fun column => columnPos_fits.map
      fun at_ => ?_
    rw [Statement.size, Statement.measure]
    omega
  · refine (expectKw_fits _ _).bind fun _ => (idents_fits (by omega) _ _).map fun order => ?_
    rw [Statement.size, Statement.measure, measureLeaves_eq]
    omega
  · refine (eatAny_fits _).bind fun _ => (ident_fits _).bind fun old => (expectKw_fits _ _).bind
      fun _ => (ident_fits _).map fun new => ?_
    rw [Statement.size, Statement.measure]
    omega
  · refine (eatAny_fits _).bind fun _ => (ident_fits _).map fun column => ?_
    rw [Statement.size, Statement.measure]
    omega

end Tables

/-! ### Rows -/

section Rows
variable {K d w c : ℕ} {G G' : Grammar}

lemma updateSets_fits (h : Agree K d w G G') :
    Fits (K + 1) d w c (updateSets G) (updateSets G') fun sets => c + measureSets (· + ·) sets := by
  have hw := h.price
  have hset : ∀ c, 1 ≤ c → Fits (K + 1) d w c (setClause G) (setClause G') fun s => c + s.2.size := by
    intro c hc
    refine (ident_fits _).bind fun col => (expect_fits _ _).bind fun _ =>
      (h.expr _ (by omega)).bind fun e => .pure _ ?_
    dsimp only
    omega
  refine (expectKw_fits _ _).bind fun _ => (commaSep_fits hset (by omega)).weaken le_rfl fun sets => ?_
  rw [sizeSets_eq]
  omega

lemma onConflict_fits (h : Agree K d w G G') :
    Fits (K + 1) d w c (onConflict G) (onConflict G') fun r => c + sizeConflict r := by
  have hw := h.price
  refine onBoth_fits ?_ (.pure none le_rfl)
  refine (ifParens_fits (f := fun _ => 0) ?_).bind fun _ => (expectKw_fits _ _).bind fun _ =>
    onEat_fits (.pure _ ?_) ?_
  · exact (identSep_fits (by omega) _ (by omega)).weaken le_rfl fun names => by omega
  · rw [sizeConflict, measureConflict, ConflictAction.measure]
    omega
  · refine (expectKw_fits _ _).bind fun _ => (updateSets_fits h).bind fun sets =>
      (ifKw_expr h _ (by omega)).bind fun where_clause => .pure _ ?_
    rw [sizeConflict, measureConflict, ConflictAction.measure, ← sizeOpt]
    omega

lemma returningClause_fits (h : Agree K d w G G') :
    Fits (K + 1) d w c (returningClause G) (returningClause G') fun r => c + sizeReturning r := by
  have hw := h.price
  refine (ifKw_fits (f := sizeItems) _ ?_).weaken le_rfl fun r =>
    (congrArg (c + ·) (sizeReturning_elim r)).le
  refine (commaSep_fits (fun _ hc => selectItem_fits h hc) (by omega)).weaken le_rfl fun its => ?_
  rw [sizeItems_eq]
  omega

lemma insertSource_fits (h : Agree K d w G G') (hc : 1 ≤ c) :
    Fits (K + 1) d w c (insertSource G) (insertSource G') fun s => c + s.measure (· + ·) := by
  have hw := h.price
  have hrow : ∀ c, 1 ≤ c → Fits (K + 1) d w c (parens "'('" (commaSep G.expr))
      (parens "'('" (commaSep G'.expr)) fun row => c + sizeList row := fun c _ =>
    (parens_fits _ (h.exprs (by omega))).weaken le_rfl fun row => by omega
  refine peek_fits.bind fun t => peek_fits.bind fun u => .ite
    (fun _ => (sourceQuery_fits h hc).map fun q => ?_)
    fun _ => (expectKw_fits _ _).bind fun _ => (commaSep_fits hrow (by omega)).map fun rows => ?_
  · rw [InsertSource.measure, ← SelectStmt.size]
    omega
  · rw [InsertSource.measure, sizeRows_eq]
    omega

lemma insert_fits (h : Agree K d w G G') :
    Fits (K + 1) d w c (insert G) (insert G') fun s => c + s.size := by
  have hw := h.price
  refine (expectKw_fits _ _).bind fun _ => (expectKw_fits _ _).bind fun _ => (ident_fits _).bind
    fun table => (ifParens_fits (f := List.length) ?_).bind fun columns => ?_
  · exact (identSep_fits (by omega) _ (by omega)).weaken le_rfl fun names => by omega
  refine (insertSource_fits h (by omega)).bind fun source => (onConflict_fits h).bind fun action =>
    (returningClause_fits h).bind fun r => .pure _ ?_
  have hnames : measureNames (· + ·) columns = columns.elim 0 List.length := by
    cases columns with
    | none => rfl
    | some names => exact measureLeaves_eq names
  rw [Statement.size, Statement.measure, hnames, ← sizeConflict, ← sizeReturning]
  omega

lemma update_fits (h : Agree K d w G G') :
    Fits (K + 1) d w c (update G) (update G') fun s => c + s.size := by
  have hw := h.price
  refine (expectKw_fits _ _).bind fun _ => (ident_fits _).bind fun table => (updateSets_fits h).bind
    fun sets => (ifKw_expr h _ (by omega)).bind fun where_clause => (returningClause_fits h).bind
    fun r => .pure _ ?_
  rw [Statement.size, Statement.measure, ← sizeOpt, ← sizeReturning]
  omega

lemma delete_fits (h : Agree K d w G G') :
    Fits (K + 1) d w c (delete G) (delete G') fun s => c + s.size := by
  have hw := h.price
  refine (expectKw_fits _ _).bind fun _ => (expectKw_fits _ _).bind fun _ => (ident_fits _).bind
    fun table => (ifKw_expr h _ (by omega)).bind fun where_clause => (returningClause_fits h).bind
    fun r => .pure _ ?_
  rw [Statement.size, Statement.measure, ← sizeOpt, ← sizeReturning]
  omega

end Rows

/-! ### Triggers and statements -/

section Statements
variable {K d w c : ℕ} {G G' : Grammar} {rec rec' : Parse Statement}

/-- A name behind `IF EXISTS`. -/
lemma dropped_fits (hw : 1 ≤ w) {mk : Bool → String → Statement} (hmk : ∀ b name, (mk b name).size = 1)
    (what : String) :
    Fits K d w c (ifExists >>= fun b => mk b <$> ident what) (ifExists >>= fun b => mk b <$> ident what)
      fun s => c + s.size :=
  ifExists_fits.bind fun b => (ident_fits what).map fun name => by rw [hmk]; omega

lemma drop_fits (hw : 1 ≤ w) : Fits K d w c drop drop fun s => c + s.size := by
  refine (expectKw_fits _ _).bind fun _ => onEat_fits ?_ (onEat_fits ?_ (onEat_fits ?_ (onEat_fits ?_
    (onEat_fits ?_ ?_))))
  · exact (expectKw_fits _ _).bind fun _ => (dropped_fits hw (fun _ _ => rfl) _).weaken le_rfl
      fun s => by omega
  · exact (expectKw_fits _ _).bind fun _ => (dropped_fits hw (fun _ _ => rfl) _).weaken le_rfl
      fun s => by omega
  · exact (dropped_fits hw (fun _ _ => rfl) _).weaken le_rfl fun s => by omega
  · exact (dropped_fits hw (fun _ _ => rfl) _).weaken le_rfl fun s => by omega
  · exact (dropped_fits hw (fun _ _ => rfl) _).weaken le_rfl fun s => by omega
  · exact (expectKw_fits _ _).bind fun _ => (dropped_fits hw (fun _ _ => rfl) _).weaken le_rfl
      fun s => by omega

lemma rebuildVectorIndex_fits (hw : 1 ≤ w) :
    Fits K d w c rebuildVectorIndex rebuildVectorIndex fun s => c + s.size := by
  refine (expectKw_fits _ _).bind fun _ => (expectKw_fits _ _).bind fun _ =>
    (expectKw_fits _ _).bind fun _ => (ident_fits _).map fun name => ?_
  rw [Statement.size, Statement.measure]
  omega

lemma triggerTiming_fits : Fits K d w c triggerTiming triggerTiming fun _ => c :=
  onEat_fits (.pure _ (by omega)) (onEat_fits (.pure _ (by omega)) (onEat_fits
    ((expectKw_fits _ _).bind fun _ => .pure _ (by omega)) (fail_fits _)))

lemma triggerEvent_fits : Fits K d w c triggerEvent triggerEvent fun _ => c :=
  onEat_fits (.pure _ (by omega)) (onEat_fits (.pure _ (by omega)) (onEat_fits (.pure _ (by omega))
    (fail_fits _)))

lemma triggerForEach_fits : Fits K d w c triggerForEach triggerForEach fun _ => c :=
  onEat_fits ((expectKw_fits _ _).bind fun _ => onEat_fits (.pure _ (by omega)) (onEat_fits
    (.pure _ (by omega)) (fail_fits _))) (.pure _ le_rfl)

lemma bodyLoop_fits (hrec : Fits K d w 0 rec rec' Statement.size) (n : ℕ) (hc : 1 ≤ c) :
    Fits (K + 1) d w c (bodyLoop rec n) (bodyLoop rec' n) fun _ => c := by
  induction n generalizing c with
  | zero => exact outOfFuel_fits
  | succ n ih =>
    refine peek_fits.bind fun t => .ite (fun _ => .pure [] le_rfl) fun _ => ?_
    refine (hrec.later (by omega)).bind fun s => (eatAny_fits _).bind fun _ =>
      (ih (by omega)).map fun _ => ?_
    omega

lemma createTrigger_fits (hw : 1 ≤ w) (hrec : Fits K d w 0 rec rec' Statement.size) :
    Fits (K + 1) d w c (createTrigger rec) (createTrigger rec') fun s => c + s.size := by
  refine (expectKw_fits _ _).bind fun _ => ifNotExists_fits.bind fun b => (ident_fits _).bind
    fun name => triggerTiming_fits.bind fun timing => triggerEvent_fits.bind fun event =>
    (expectKw_fits _ _).bind fun _ => (ident_fits _).bind fun table => triggerForEach_fits.bind
    fun each_ => (expectKw_fits _ _).bind fun _ => ?_
  refine (captured_fits (loop_fits fun n => bodyLoop_fits hrec n (by omega))).bind fun text =>
    (expectKw_fits _ _).bind fun _ => .pure _ ?_
  rw [Statement.size, Statement.measure]
  omega

lemma create_fits (h : Agree K d w G G') (hrec : Fits K d w 0 rec rec' Statement.size) :
    Fits (K + 1) d w c (create G rec) (create G' rec') fun s => c + s.size := by
  have hw := h.price
  refine ((expectKw_fits _ _).bind fun _ => peek_fits.bind fun t => ?_).weaken le_rfl
    (q := fun s => c + w + s.size) fun s => by omega
  refine .ite (fun _ => createFtsIndex_fits (by omega)) fun _ => .ite
    (fun _ => createVectorIndex_fits (by omega)) fun _ => .ite
    (fun _ => createIndex_fits (by omega)) fun _ => .ite (fun _ => createView_fits h) fun _ => .ite
    (fun _ => createTrigger_fits (by omega) hrec) fun _ => createTable_fits h

lemma rollbackRest_fits : Fits K d w (c + 1) rollbackRest rollbackRest fun s => c + s.size :=
  onEat_fits ((eatAny_fits _).bind fun _ => (ident_fits _).map fun name => by
    rw [Statement.size, Statement.measure]; omega) (.pure _ le_rfl)

lemma releaseRest_fits : Fits K d w (c + 1) releaseRest releaseRest fun s => c + s.size :=
  (eatAny_fits _).bind fun _ => (ident_fits _).map fun name => by
    rw [Statement.size, Statement.measure]; omega

/-- The query is read where no token is eaten yet. -/
lemma statement_fits (h : Agree K d w G G')
    (hquery : Fits (K + 1) d w 0 G.select G'.select fun q => q.size + 1)
    (hrec : Fits K d w 0 rec rec' Statement.size) :
    Fits (K + 1) d w 0 (statement G rec) (statement G' rec') Statement.size := by
  have hw := h.price
  have hselect : ∀ q : SelectStmt, (Statement.select q).size = q.size + 1 := fun q => by
    rw [Statement.size, Statement.measure, SelectStmt.size, Nat.add_comm]
  have hplain : ∀ {e e' : Parse Statement}, Fits (K + 1) d w 0 e e' (fun s => 0 + s.size) →
      Fits (K + 1) d w 0 e e' Statement.size := fun he => he.weaken le_rfl fun s => by omega
  refine peek_fits.bind fun t => .ite (fun _ => (withQuery_fits h).map fun q => ?_) fun _ => .ite
    (fun _ => hplain (create_fits h hrec)) fun _ => .ite (fun _ => hplain (alterTable_fits h))
    fun _ => .ite (fun _ => hplain (drop_fits (by omega))) fun _ => .ite
    (fun _ => hplain (rebuildVectorIndex_fits (by omega))) fun _ => .ite
    (fun _ => hplain (insert_fits h)) fun _ => .ite (fun _ => hquery.map fun q => ?_) fun _ => .ite
    (fun _ => hplain (update_fits h)) fun _ => .ite (fun _ => hplain (delete_fits h)) fun _ => ?_
  · rw [hselect]
    omega
  · rw [hselect]
  · refine onEat_fits (.pure _ ?_) (onEat_fits (.pure _ ?_) (onEat_fits ?_ (onEat_fits
      ((ident_fits _).map fun name => ?_) (onEat_fits ?_ (fail_fits _)))))
    · rw [Statement.size, Statement.measure]
      omega
    · rw [Statement.size, Statement.measure]
      omega
    · exact rollbackRest_fits.weaken (c := 0 + 1) (by omega) fun s => by omega
    · rw [Statement.size, Statement.measure]
      omega
    · exact releaseRest_fits.weaken (c := 0 + 1) (by omega) fun s => by omega

end Statements

/-! ### Whole texts -/

section Whole
variable {K : ℕ}

lemma Agree.upto {k d w : ℕ} {G G' : Grammar} (h : Agree K d w G G') (hle : k ≤ K) :
    Agree k d w G G' := ⟨h.price, h.expr_pays.upto hle, h.select_pays.upto hle⟩

/-- As for the grammar: where the tokens are fewer than `K`, fuel for `K` is enough. -/
lemma statements_enough (n K d : ℕ) : Fits K d (price (MAX_EXPR_DEPTH - d)) 0 (statements n)
    (statements K) Statement.size := by
  induction K generalizing n with
  | zero => exact .zero
  | succ K ih =>
    cases n with
    | zero => exact outOfFuel_fits
    | succ n =>
      have hlevel := grammar_enough (n + 1) (K + 1) d
      exact statement_fits (hlevel.upto (Nat.le_succ K)) hlevel.select_pays (ih n)

lemma whole_enough (n K d : ℕ) : Fits K d (price (MAX_EXPR_DEPTH - d)) 0 (whole n) (whole K)
    Statement.size := by
  refine (statements_enough n K d).bind fun stmt => (eatAny_fits _).bind fun _ => peek_fits.bind
    fun t => .ite (fun _ => fail_fits _) fun _ => .pure stmt le_rfl

/-- A text that is accepted is so with no more fuel than it has tokens, and its size is linear. -/
lemma whole_start {n : ℕ} {cs : List Char} {toks : List Spanned} {stmt : Statement} {p : Parser}
    (h : whole n (.start cs toks) = .ok (stmt, p)) :
    whole (toks.length + 1) (.start cs toks) = .ok (stmt, p) ∧
      stmt.size ≤ price MAX_EXPR_DEPTH * toks.length := by
  obtain ⟨hrun, -, hpay⟩ := whole_enough n (toks.length + 1) 0 toks.length (Nat.lt_succ_self _)
    (.start cs toks) rfl (Nat.zero_add _).le stmt p h
  exact ⟨hrun, le_trans (Nat.le_add_right _ _) hpay⟩

end Whole

end Parse

/-! ### Accepted texts -/

section Linear
variable {F : FloatText} {sql : String} {toks : List Spanned}

/-- The statement of a text, from its tokens. -/
lemma parse_eq_ok (hlex : lex F sql = .ok toks) {stmt : Statement} : parse F sql = .ok stmt ↔
    ∃ p, Parse.whole (toks.length + 1) (.start sql.toList toks) = .ok (stmt, p) := by
  rw [parse, parseFull, hlex, ok_bind]
  cases Parse.whole (toks.length + 1) (.start sql.toList toks) with
  | error e =>
    constructor
    · intro h
      cases h
    · rintro ⟨p, hp⟩
      cases hp
  | ok r =>
    constructor
    · intro h
      cases h
      exact ⟨r.2, rfl⟩
    · rintro ⟨p, hp⟩
      cases hp
      rfl

end Linear

end Arkeion.Sql
