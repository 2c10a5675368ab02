import Arkeion.Sql.AggregateOrder
import Arkeion.Sql.DistinctGroups

/-!
Aggregates and groups of the same rows in another order.

The answer is the same up to its order if each group gives one row in every order of its rows. For
that its aggregates must be settled, and what stands outside of them must have one value on all
rows of the group, not just on the first.
-/

namespace Arkeion.Sql

open Arkeion.Lib Catalog

/-! ### One aggregate -/

section Aggregates
variable (B : Builtins) (schema : QuerySchema) (params : List Value) (func : AggFunc)
  (arg : Option Expr) (d : Bool) (sep : Option Expr) (rows : List Row)

/-- The aggregate is one in every order of the rows. -/
def AggregateFree : Prop := ∀ rows', rows'.Perm rows →
  Agree (computeAggregate B schema rows' params func arg d sep)
    (computeAggregate B schema rows params func arg d sep)

/-- Without `AVG` and `GROUP_CONCAT`, and without sums of reals. -/
def IntegralOn : Prop :=
  match arg with
  | none => True
  | some arg => Integral func (valuesOf (evalsOf B schema params arg rows))

/-- The argument is refused, or fails on a row, or its values are settled. -/
def AggregateSettled : Prop :=
  match arg with
  | none => True
  | some arg => arg.hasAggregate = true ∨
      (∃ row ∈ rows, ∃ e, evalOn B schema params arg row = .error e) ∨
      ValuesSettled B func d (valuesOf (evalsOf B schema params arg rows))

variable {B schema params func arg d sep rows}

/-- A value that counts. -/
def counted : Result Value → Option Value
  | .ok v => if v = .null then none else some v
  | .error _ => none

lemma failureOf_none {rs : List (Result Value)} : failureOf rs = none ↔ ∀ r ∈ rs, ∃ v, r = .ok v := by
  induction rs with
  | nil => simp [failureOf]
  | cons r rs ih =>
    cases r with
    | error e => simp [failureOf]
    | ok v => simp [failureOf, ih]

lemma valuesOf_eq {rs : List (Result Value)} (h : ∀ r ∈ rs, ∃ v, r = .ok v) :
    valuesOf rs = rs.filterMap counted := by
  induction rs with
  | nil => rfl
  | cons r rs ih =>
    have hrest := ih fun s hs => h s (List.mem_cons_of_mem r hs)
    obtain ⟨v, rfl⟩ := h r List.mem_cons_self
    rw [valuesOf, hrest]
    by_cases hnull : v = .null
    · have hcounted : counted (.ok v) = none := if_pos hnull
      rw [if_pos hnull, List.filterMap_cons_none hcounted]
    · have hcounted : counted (.ok v) = some v := if_neg hnull
      rw [if_neg hnull, List.filterMap_cons_some hcounted]

lemma valuesOf_not_null {rs : List (Result Value)} : ∀ v ∈ valuesOf rs, v ≠ .null := by
  induction rs with
  | nil => intro v hv; cases hv
  | cons r rs ih =>
    cases r with
    | error e => intro v hv; cases hv
    | ok u =>
      rw [valuesOf]
      split_ifs with hu
      · exact ih
      · intro v hv
        rcases List.mem_cons.1 hv with rfl | hv
        · exact hu
        · exact ih v hv

lemma computeAggregate_some {arg : Expr} (h : arg.hasAggregate = false) :
    computeAggregate B schema rows params func (some arg) d sep
      = failWith (failureOf (evalsOf B schema params arg rows)) >>= fun _ =>
        aggregateOf B params func sep (thin d (valuesOf (evalsOf B schema params arg rows))) := by
  change (require (arg.hasAggregate = false) _ >>= fun _ => argValues B schema rows params arg >>=
    fun values => aggregateOf B params func sep (thin d values)) = _
  rw [require_pos h, ok_bind, argValues_eq, bind_assoc]
  rfl

/-- A row on which the argument fails fails the aggregate. -/
lemma computeAggregate_fails {arg : Expr} (h : arg.hasAggregate = true ∨
    ∃ row ∈ rows, ∃ e, evalOn B schema params arg row = .error e) :
    ∃ e, computeAggregate B schema rows params func (some arg) d sep = .error e := by
  by_cases hnested : arg.hasAggregate = true
  · refine ⟨.sql "agregados anidados", ?_⟩
    change (require (arg.hasAggregate = false) _ >>= _) = _
    rw [require_eq_error.2 ⟨by simp [hnested], rfl⟩]
    rfl
  · obtain ⟨row, hrow, e, he⟩ := h.resolve_left hnested
    rw [computeAggregate_some (by simpa using hnested)]
    cases hfail : failureOf (evalsOf B schema params arg rows) with
    | some e => exact ⟨e, rfl⟩
    | none =>
      obtain ⟨v, hv⟩ := failureOf_none.1 hfail _ (List.mem_map_of_mem hrow)
      rw [he] at hv
      cases hv

/-- An aggregate is one in every order of the rows exactly if it is settled. -/
theorem aggregateFree_iff (hfunc : IntegralOn B schema params func arg rows) :
    AggregateFree B schema params func arg d sep rows
      ↔ AggregateSettled B schema params func arg d rows := by
  cases arg with
  | none =>
    refine iff_of_true (fun rows' hperm => ?_) trivial
    rw [computeAggregate, computeAggregate, hperm.length_eq]
    exact Agree.self _
  | some arg =>
    by_cases hnested : arg.hasAggregate = true
    · refine iff_of_true (fun rows' _ => Or.inr ⟨?_, ?_⟩) (Or.inl hnested)
      · exact computeAggregate_fails (Or.inl hnested)
      · exact computeAggregate_fails (Or.inl hnested)
    by_cases hfails : ∃ row ∈ rows, ∃ e, evalOn B schema params arg row = .error e
    · refine iff_of_true (fun rows' hperm => Or.inr ⟨?_, ?_⟩) (Or.inr (Or.inl hfails))
      · obtain ⟨row, hrow, hrest⟩ := hfails
        exact computeAggregate_fails (Or.inr ⟨row, hperm.symm.subset hrow, hrest⟩)
      · exact computeAggregate_fails (Or.inr hfails)
    have hsettled : AggregateSettled B schema params func (some arg) d rows
        ↔ ValuesSettled B func d (valuesOf (evalsOf B schema params arg rows)) :=
      (or_iff_right hnested).trans (or_iff_right hfails)
    rw [hsettled, ← values_orders_iff hfunc valuesOf_not_null]
    have hok {rows' : List Row} (h : rows'.Perm rows) :
        ∀ r ∈ evalsOf B schema params arg rows', ∃ v, r = .ok v := by
      intro r hr
      obtain ⟨row, hrow, rfl⟩ := List.mem_map.1 hr
      cases hv : evalOn B schema params arg row with
      | ok v => exact ⟨v, rfl⟩
      | error e => exact absurd ⟨row, h.subset hrow, e, hv⟩ hfails
    have hcompute {rows' : List Row} (h : rows'.Perm rows) :
        computeAggregate B schema rows' params func (some arg) d sep
          = aggregateOf B params func sep (thin d ((evalsOf B schema params arg rows').filterMap counted)) := by
      rw [computeAggregate_some (by simpa using hnested), failureOf_none.2 (hok h), valuesOf_eq (hok h)]
      rfl
    rw [valuesOf_eq (hok (List.Perm.refl rows))]
    constructor
    · intro h vs hvs
      rw [evalsOf, List.filterMap_map] at hvs
      obtain ⟨rows', hperm, hrows'⟩ := exists_perm_filterMap hvs
      have hagree := h rows' hperm
      rw [hcompute hperm, hcompute (List.Perm.refl rows), evalsOf, List.filterMap_map, hrows'] at hagree
      exact hagree
    · intro h rows' hperm
      rw [hcompute hperm, hcompute (List.Perm.refl rows)]
      exact h _ ((hperm.map _).filterMap _)

end Aggregates

/-! ### Expressions on a group -/

section Expressions
variable (B : Builtins) (schema : QuerySchema) (params : List Value) (rows : List Row)

mutual

/-- What is said of every aggregate that is folded. -/
def EachAggregate (P : AggFunc → Option Expr → Bool → Option Expr → Prop) : Expr → Prop
  | .aggregate func arg distinct sep => P func arg distinct sep
  | .node _ args => EachAggregateOf P args
  | .literal _ | .column .. | .param _ | .scalarSubquery _ | .exists_ _ | .inSubquery ..
  | .window .. => True

def EachAggregateOf (P : AggFunc → Option Expr → Bool → Option Expr → Prop) : List Expr → Prop
  | [] => True
  | e :: es => EachAggregate P e ∧ EachAggregateOf P es

end

/-- Every aggregate of the expression is settled on the rows. -/
def AggregatesSettled (e : Expr) : Prop := EachAggregate (fun func arg d _ =>
  IntegralOn B schema params func arg rows ∧ AggregateSettled B schema params func arg d rows) e

/-- With its aggregates computed, the expression has one value on all rows. -/
def OneValue (e : Expr) : Prop := ∀ folded, foldAggregates B schema rows params e = .ok folded →
  ∀ r ∈ rows, ∀ s ∈ rows, Agree (evalOn B schema params folded r) (evalOn B schema params folded s)

/-- The expression on the group is one in every order of its rows. -/
def EvalFree (e : Expr) : Prop := ∀ rows', rows'.Perm rows →
  Agree (evalGroup B schema params rows' e) (evalGroup B schema params rows e)

variable {B schema params rows} {rows' : List Row}

mutual

lemma foldAggregates_agree (e : Expr) (h : AggregatesSettled B schema params rows e)
    (hperm : rows'.Perm rows) : Agree (foldAggregates B schema rows' params e)
      (foldAggregates B schema rows params e) := by
  cases e with
  | aggregate func arg distinct sep =>
    exact ((aggregateFree_iff h.1).2 h.2 rows' hperm).bind fun _ _ => Agree.self _
  | node op args => exact (foldList_agree args h hperm).bind fun _ _ => Agree.self _
  | _ => exact Agree.self _

lemma foldList_agree (es : List Expr) (h : EachAggregateOf (fun func arg d _ =>
    IntegralOn B schema params func arg rows ∧ AggregateSettled B schema params func arg d rows) es)
    (hperm : rows'.Perm rows) : Agree (foldList B schema rows' params es)
      (foldList B schema rows params es) := by
  cases es with
  | nil => exact Agree.self _
  | cons e es =>
    refine (foldAggregates_agree e h.1 hperm).bind fun _ _ => ?_
    exact (foldList_agree es h.2 hperm).bind fun _ _ => Agree.self _

end

lemma evalGroup_cons (r : Row) (rest : List Row) (e : Expr) :
    evalGroup B schema params (r :: rest) e = foldAggregates B schema (r :: rest) params e >>=
      fun folded => evalOn B schema params folded r := rfl

/-- With its aggregates settled, an expression is one in every order of the group exactly if it has
one value on all rows. -/
theorem evalFree_iff {e : Expr} (h : AggregatesSettled B schema params rows e) :
    EvalFree B schema params rows e ↔ OneValue B schema params rows e := by
  constructor
  · intro hfree folded hfolded r hr s hs
    have heval {r : Row} (hr : r ∈ rows) :
        Agree (evalOn B schema params folded r) (evalGroup B schema params rows e) := by
      have hperm := (List.perm_cons_erase hr).symm
      have hsame := (foldAggregates_agree e h hperm).ok_iff.2 hfolded
      have hagree := hfree _ hperm
      rwa [evalGroup_cons, hsame, ok_bind] at hagree
    refine Agree.of_ok_iff fun v => ?_
    rw [(heval hr).ok_iff, (heval hs).ok_iff]
  · intro hone rows' hperm
    cases rows' with
    | nil =>
      rw [List.nil_perm.1 hperm]
      exact Agree.self _
    | cons r rest =>
      cases hrows : rows with
      | nil =>
        rw [hrows, List.perm_nil] at hperm
        cases hperm
      | cons s rest' =>
        rw [← hrows]
        have hfold := foldAggregates_agree e h hperm
        rw [evalGroup_cons]
        have hrep : evalGroup B schema params rows e = foldAggregates B schema rows params e >>=
            fun folded => evalOn B schema params folded s := by
          rw [hrows]
          rfl
        rw [hrep]
        refine hfold.bind fun folded hfolded => ?_
        refine hone folded (hfold.ok_iff.1 hfolded) r (hperm.subset List.mem_cons_self) s ?_
        rw [hrows]
        exact List.mem_cons_self

end Expressions

end Arkeion.Sql
