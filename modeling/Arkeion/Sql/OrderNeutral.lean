import Arkeion.Sql.GroupOrders

/-!
The conditions under which statements with aggregates and groups do not depend on the order of the
rows: settled aggregates, expressions of one value, and nothing that is cut between the groups.
-/

namespace Arkeion.Sql

open Arkeion.Lib Catalog

/-! ### Sums that are exact -/

section Exact
variable (B : Builtins) (schema : QuerySchema) (params : List Value) (func : AggFunc)
  (arg : Option Expr) (d : Bool) (sep : Option Expr) (rows : List Row)

/-- The integers that the aggregate sums up. -/
def SumsUp (ns : List Int64) : Prop := ∃ e, arg = some e ∧ e.hasAggregate = false ∧
  (∀ r ∈ evalsOf B schema params e rows, ∃ v, r = .ok v) ∧
  valuesOf (evalsOf B schema params e rows) = integers ns

/-- The integers without those that `DISTINCT` leaves out. -/
def summands (ns : List Int64) : List Int64 := if d then firsts (· == ·) ns else ns

/-- A sum of integers that is in the range is the answer in every order. -/
def SumSettles : Prop := func = .sum → ∀ ns, SumsUp B schema params arg rows ns →
  InRange (summands d ns) → ∀ rows', rows'.Perm rows →
    computeAggregate B schema rows' params func arg d sep = .ok (sumValue (summands d ns))

variable {B schema params func arg d sep rows}

lemma SumsUp.values {ns : List Int64} {e : Expr} {rows' : List Row}
    (hok : ∀ r ∈ evalsOf B schema params e rows, ∃ v, r = .ok v)
    (hvalues : valuesOf (evalsOf B schema params e rows) = integers ns) (hperm : rows'.Perm rows) :
    failureOf (evalsOf B schema params e rows') = none ∧
      (valuesOf (evalsOf B schema params e rows')).Perm (integers ns) := by
  have hevals : (evalsOf B schema params e rows').Perm (evalsOf B schema params e rows) := hperm.map _
  have hok' : ∀ r ∈ evalsOf B schema params e rows', ∃ v, r = .ok v :=
    fun r hr => hok r (hevals.subset hr)
  rw [← hvalues, valuesOf_eq hok, valuesOf_eq hok']
  exact ⟨failureOf_none.2 hok', hevals.filterMap _⟩

lemma sumSettles_of_settled (h : AggregateSettled B schema params func arg d rows) :
    SumSettles B schema params func arg d sep rows := by
  rintro rfl ns ⟨e, rfl, hplain, hok, hvalues⟩ hin rows' hperm
  have hsettled : SumSettled (summands d ns) := by
    rcases h with hnested | ⟨row, hrow, err, herr⟩ | hsettled
    · rw [hplain] at hnested
      cases hnested
    · obtain ⟨v, hv⟩ := hok _ (List.mem_map_of_mem hrow)
      rw [herr] at hv
      cases hv
    · rw [hvalues] at hsettled
      rcases hsettled with ⟨v, hv, hkind⟩ | hsettled
      · exact absurd (integers_number ns v hv) hkind
      · rwa [thinIntegers, thin_integers, filterMap_integers] at hsettled
  have hvals := SumsUp.values hok hvalues hperm
  rw [computeAggregate_some hplain, hvals.1]
  have hall := thin_orders (P := fun vs => sumAll B vs = .ok (sumValue (summands d ns))).2
    fun ms hms => sum_exact_iff.2 hsettled ms hms hin
  exact hall _ hvals.2

end Exact

/-! ### Every expression of a statement -/

section Expressions
variable {P Q : AggFunc → Option Expr → Bool → Option Expr → Prop}

mutual

lemma EachAggregate.imp₂ {R : AggFunc → Option Expr → Bool → Option Expr → Prop}
    (himp : ∀ func arg d sep, P func arg d sep → Q func arg d sep → R func arg d sep) (e : Expr)
    (hp : EachAggregate P e) (hq : EachAggregate Q e) : EachAggregate R e := by
  cases e with
  | aggregate func arg d sep => exact himp func arg d sep hp hq
  | node op args => exact EachAggregateOf.imp₂ himp args hp hq
  | _ => trivial

lemma EachAggregateOf.imp₂ {R : AggFunc → Option Expr → Bool → Option Expr → Prop}
    (himp : ∀ func arg d sep, P func arg d sep → Q func arg d sep → R func arg d sep) (es : List Expr)
    (hp : EachAggregateOf P es) (hq : EachAggregateOf Q es) : EachAggregateOf R es := by
  cases es with
  | nil => trivial
  | cons e es => exact ⟨EachAggregate.imp₂ himp e hp.1 hq.1, EachAggregateOf.imp₂ himp es hp.2 hq.2⟩

end

lemma EachAggregate.imp {e : Expr} (h : EachAggregate P e)
    (himp : ∀ func arg d sep, P func arg d sep → Q func arg d sep) : EachAggregate Q e :=
  EachAggregate.imp₂ (fun func arg d sep hp _ => himp func arg d sep hp) e h h

/-- The expressions that are computed on a group. -/
def exprsOf (stmt : SelectStmt) : List Expr :=
  stmt.having.toList ++ stmt.projection.filterMap itemExpr

end Expressions

section Whole
variable (X : Executor) (params : List Value) (schema : QuerySchema) (stmt : SelectStmt)
  (rows : List Row)

/-- Every group and every expression that is computed on it. -/
def OnGroups (P : List Row → Expr → Prop) : Prop :=
  ∀ groups, groupsOf X params schema stmt rows = .ok groups →
    ∀ g ∈ groups, ∀ e ∈ exprsOf stmt, P g.2 e

/-- Without `AVG`, `GROUP_CONCAT` and sums of reals. -/
def IntegralExpr (rows : List Row) (e : Expr) : Prop :=
  EachAggregate (fun func arg _ _ => IntegralOn X.builtins schema params func arg rows) e

/-- The aggregates of the expression are one in every order of the rows, and its sums exact. -/
structure AggregatesHold (rows : List Row) (e : Expr) : Prop where
  free : EachAggregate (fun func arg d sep => AggregateFree X.builtins schema params func arg d sep rows) e
  sums : EachAggregate (fun func arg d sep => SumSettles X.builtins schema params func arg d sep rows) e

/-- A statement with groups does not depend on the order of the rows: nor does its answer, nor an
aggregate of a group, nor an expression on the group by the row it is computed on. -/
structure GroupedHolds : Prop where
  answer : GroupedFree X params schema stmt rows
  aggregates : OnGroups X params schema stmt rows (AggregatesHold X params schema)
  values : OnGroups X params schema stmt rows (EvalFree X.builtins schema params)

/-- Aggregates are settled, expressions have one value on the rows of a group, and no groups are cut
that would not be in another order. -/
structure GroupedSettled : Prop where
  aggregates : OnGroups X params schema stmt rows (AggregatesSettled X.builtins schema params)
  values : OnGroups X params schema stmt rows (OneValue X.builtins schema params)
  cut : CutFree X params schema stmt rows

/-- The row of a statement without groups. -/
def ProjectionFree : Prop := ∀ rows', rows'.Perm rows →
  Agree (aggregateProjection X.builtins schema rows' params stmt.projection 0)
    (aggregateProjection X.builtins schema rows params stmt.projection 0)

structure AggregatedHolds : Prop where
  answer : ProjectionFree X params schema stmt rows
  aggregates : ∀ e ∈ stmt.projection.filterMap itemExpr, AggregatesHold X params schema rows e

variable {X params schema stmt rows} {group : List Row} {e : Expr}

lemma aggregatesHold_iff (hin : IntegralExpr X params schema group e) :
    AggregatesHold X params schema group e ↔ AggregatesSettled X.builtins schema params group e := by
  constructor
  · intro h
    refine EachAggregate.imp₂ (fun func arg d sep hin hfree => ?_) e hin h.free
    exact ⟨hin, (aggregateFree_iff hin).1 hfree⟩
  · intro h
    exact ⟨h.imp fun func arg d sep h => (aggregateFree_iff h.1).2 h.2,
      h.imp fun func arg d sep h => sumSettles_of_settled h.2⟩

/-- A group gives one row if the expressions on it have one value each. -/
lemma groupFree_of_values (h : ∀ e ∈ exprsOf stmt, EvalFree X.builtins schema params group e) :
    GroupFree X params schema stmt group := by
  intro group' hperm
  have hitems : Agree
      ((stmt.projection.filterMap itemExpr).mapM (evalGroup X.builtins schema params group'))
      ((stmt.projection.filterMap itemExpr).mapM (evalGroup X.builtins schema params group)) :=
    Agree.mapM fun e he => h e (List.mem_append_right _ he) group' hperm
  unfold groupRow
  cases hhaving : stmt.having with
  | none => exact hitems.bind fun _ _ => Agree.self _
  | some having =>
    have hmem : having ∈ exprsOf stmt := by
      rw [exprsOf, hhaving]
      exact List.mem_append_left _ (List.mem_singleton_self having)
    refine (h having hmem group' hperm).bind fun v _ => (Agree.self (truthy v)).bind fun keep _ => ?_
    cases keep with
    | false => exact Agree.self _
    | true => exact hitems.bind fun _ _ => Agree.self _

lemma groupedHolds_iff (hin : OnGroups X params schema stmt rows (IntegralExpr X params schema)) :
    GroupedHolds X params schema stmt rows ↔ GroupedSettled X params schema stmt rows := by
  have hgroups (h : OnGroups X params schema stmt rows (EvalFree X.builtins schema params)) :
      GroupsFree X params schema stmt rows :=
    fun groups hgroups g hg => groupFree_of_values (h groups hgroups g hg)
  constructor
  · intro h
    have hsettled : OnGroups X params schema stmt rows (AggregatesSettled X.builtins schema params) :=
      fun groups hgroups g hg e he => (aggregatesHold_iff (hin groups hgroups g hg e he)).1
        (h.aggregates groups hgroups g hg e he)
    exact {
      aggregates := hsettled
      values := fun groups hgroups g hg e he =>
        (evalFree_iff (hsettled groups hgroups g hg e he)).1 (h.values groups hgroups g hg e he)
      cut := (groupedFree_iff_cut (hgroups h.values)).1 h.answer }
  · intro h
    have hvalues : OnGroups X params schema stmt rows (EvalFree X.builtins schema params) :=
      fun groups hgroups g hg e he => (evalFree_iff (h.aggregates groups hgroups g hg e he)).2
        (h.values groups hgroups g hg e he)
    exact {
      answer := (groupedFree_iff_cut (hgroups hvalues)).2 h.cut
      aggregates := fun groups hgroups g hg e he =>
        (aggregatesHold_iff (hin groups hgroups g hg e he)).2 (h.aggregates groups hgroups g hg e he)
      values := hvalues }

/-- The one row of a statement without groups, from the item at `i` on. -/
lemma projection_agree {items : List SelectItem} {rows' : List Row} {i : ℕ}
    (h : ∀ e ∈ items.filterMap itemExpr, AggregatesSettled X.builtins schema params rows e)
    (hperm : rows'.Perm rows) :
    Agree (aggregateProjection X.builtins schema rows' params items i)
      (aggregateProjection X.builtins schema rows params items i) := by
  induction items generalizing i with
  | nil => exact Agree.self _
  | cons item items ih =>
    cases item with
    | star => exact Agree.self _
    | expr e name =>
      have hitem : Agree (aggregateItem X.builtins schema rows' params e)
          (aggregateItem X.builtins schema rows params e) := by
        refine (Agree.self _).bind fun _ _ => (Agree.self _).bind fun _ _ => ?_
        exact (foldAggregates_agree e (h e List.mem_cons_self) hperm).bind fun _ _ => Agree.self _
      have hrest := ih (i := i + 1) fun e he => h e (List.mem_cons_of_mem _ he)
      exact hitem.bind fun _ _ => hrest.bind fun _ _ => Agree.self _

lemma aggregatedHolds_iff
    (hin : ∀ e ∈ stmt.projection.filterMap itemExpr, IntegralExpr X params schema rows e) :
    AggregatedHolds X params schema stmt rows
      ↔ ∀ e ∈ stmt.projection.filterMap itemExpr, AggregatesSettled X.builtins schema params rows e := by
  constructor
  · exact fun h e he => (aggregatesHold_iff (hin e he)).1 (h.aggregates e he)
  · intro h
    exact {
      answer := fun rows' hperm => projection_agree h hperm
      aggregates := fun e he => (aggregatesHold_iff (hin e he)).2 (h e he) }

end Whole

/-- The greatest integer, minus one, and one: the sum is the greatest integer, but one cannot come
before minus one. -/
def extremeRows : List Row :=
  [[.integer Int64.maxValue, .null], [.integer (-1), .null], [.integer 1, .null]]

def selectSum : SelectStmt :=
  { selectAll with projection := [.expr (.aggregate .sum (some (.column none "a")) false none) none] }

/-- `SELECT a FROM t GROUP BY a + b`. -/
def selectPart : SelectStmt :=
  { selectAll with
    projection := [.expr (.column none "a") none]
    group_by := [.node (.binary .add) [.column none "a", .column none "b"]] }

/-- `SELECT MIN(a) FROM t GROUP BY b`. -/
def selectLeast : SelectStmt :=
  { selectAll with
    projection := [.expr (.aggregate .min (some (.column none "a")) false none) none]
    group_by := [.column none "b"] }

/-- The rows of a statement with groups over `t`. -/
def groupedRows (stmt : SelectStmt) (rows : List Row) : Option (List Row) :=
  (runGrouped roundBuiltins (.single "t" pairTable) [] stmt rows).toOption.map SelectOut.rows

lemma not_groupedHolds {stmt : SelectStmt} {a b : Row} {out out' : List Row}
    (h : groupedRows stmt [a, b] = some out) (h' : groupedRows stmt [b, a] = some out')
    (hne : ¬ out'.Perm out) : ¬ GroupedHolds (engine roundBuiltins) [] (.single "t" pairTable) stmt [a, b] := by
  intro hholds
  obtain ⟨answer, hrun, rfl⟩ := Option.map_eq_some_iff.1 h
  obtain ⟨answer', hrun', rfl⟩ := Option.map_eq_some_iff.1 h'
  rcases hholds.answer [b, a] (List.Perm.swap a b []) with ⟨-, ⟨e, he⟩⟩ | ⟨x, y, hx, hy, hsame⟩
  · change runGrouped roundBuiltins _ _ _ _ = _ at he
    rw [he] at hrun
    cases hrun
  · change runGrouped roundBuiltins _ _ _ _ = _ at hx
    change runGrouped roundBuiltins _ _ _ _ = _ at hy
    rw [hx] at hrun'
    rw [hy] at hrun
    cases hrun
    cases hrun'
    exact hne hsame.2

/-- `SELECT COUNT(*) FROM t GROUP BY b`, which leaves all groups. -/
def selectCount : SelectStmt :=
  { selectAll with
    projection := [.expr (.aggregate .count none false none) none]
    group_by := [.column none "b"] }

end Arkeion.Sql
