import Arkeion.RecordSpec
import Arkeion.Sql.Distinct
import Arkeion.Sql.WindowExact

/-!
`DISTINCT` in set operations, and beside a `GROUP BY` of the same expressions.

A set operation keeps the first of the rows that are the same, a `GROUP BY` the first of those whose
keys have one encoding.
-/

namespace Arkeion.Sql

open Arkeion.Lib Catalog

/-! ### Set operations -/

section Compound

/-- The rows of which a set operation keeps one are the same if they are equal. -/
def OperandsSame (B : Builtins) (op : SetOp) (rows part : List Row) : Prop :=
  match op with
  | .unionAll => Apart B (rows ++ part)
  | .union => EqualAreSame B (rows ++ part)
  | .intersect => EqualAreSame B (rows.filter fun r => part.any (Row.same · r))
  | .except => EqualAreSame B (rows.filter fun r => !part.any (Row.same · r))

variable {B : Builtins} {rows part : List Row} {a b : Row}

lemma any_same_congr (h : Row.same a b = true) :
    part.any (Row.same · a) = part.any (Row.same · b) := by
  rw [Bool.eq_iff_iff, List.any_eq_true, List.any_eq_true]
  exact exists_congr fun c => and_congr_right fun _ =>
    ⟨fun hc => row_same_trans hc h, fun hc => row_same_trans hc (row_same_symm h)⟩

lemma filter_apart_iff {p : Row → Bool} (hp : ∀ {a b}, Row.same a b = true → p a = p b) :
    Apart B ((dedupPreserving rows).filter p) ↔ EqualAreSame B (rows.filter p) := by
  refine (firsts_unequal_iff (narrower_same (B := B)) hp).trans ?_
  unfold EqualAreSame
  simp only [List.mem_filter]
  exact ⟨fun h a ha b hb => h a ha.1 b hb.1 ha.2 hb.2,
    fun h a ha b hb hpa hpb => h a ⟨ha, hpa⟩ b ⟨hb, hpb⟩⟩

lemma combine_apart_iff (op : SetOp) :
    Apart B (Executor.combine op rows part) ↔ OperandsSame B op rows part := by
  cases op with
  | unionAll => exact Iff.rfl
  | union => exact dedup_apart_iff
  | intersect => exact filter_apart_iff any_same_congr
  | except => exact filter_apart_iff fun h => congrArg not (any_same_congr h)

variable (X : Executor) (rec : Source → SelectStmt → Result SelectOut) (src : Source)
  (params : List Value) (stmt : SelectStmt) (arms : List CompoundSelect) (arm : CompoundSelect)

/-- The first statement of a set operation. -/
def leadOf : SelectStmt :=
  { stmt with compound := [], order_by := [], limit := none, offset := none }

/-- Whatever the order and the limits, no two rows of the answer are equal. -/
def CompoundApart : Prop := ∀ order_by limit offset out,
  X.runCompound rec src params { stmt with order_by, limit, offset } = .ok out →
    Apart X.builtins out.rows

/-- The last operation meets no rows that are equal and not the same. -/
def CompoundCondition : Prop := ∀ lead rows part, rec src (leadOf stmt) = .ok lead →
  Executor.runArms rec src lead.columns arms lead.rows = .ok rows →
  rec src arm.select = .ok part → part.columns.length = lead.columns.length →
  OperandsSame X.builtins arm.op rows part.rows

/-- A list of rows is in memory. -/
def CompoundFits : Prop := ∀ lead rows, rec src (leadOf stmt) = .ok lead →
  Executor.runArms rec src lead.columns stmt.compound lead.rows = .ok rows → rows.length < 2 ^ 63

variable {X rec src params stmt arms arm}

lemma runArms_concat {columns : List String} : Executor.runArms rec src columns (arms ++ [arm]) rows
    = Executor.runArms rec src columns arms rows >>= fun rows => rec src arm.select >>= fun part =>
      require (part.columns.length = columns.length) (.sql
        s!"operador de conjunto: los SELECT tienen distinto número de columnas ({columns.length} vs {part.columns.length})")
        >>= fun _ => .ok (Executor.combine arm.op rows part.rows) := by
  induction arms generalizing rows with
  | nil => rfl
  | cons a arms ih =>
    rw [List.cons_append]
    unfold Executor.runArms
    simp only [ih, bind_assoc]

lemma compoundApart_iff (hstmt : stmt.compound = arms ++ [arm]) (hfits : CompoundFits rec src stmt) :
    CompoundApart X rec src params stmt ↔ CompoundCondition X rec src stmt arms arm := by
  constructor
  · intro h lead rows part hlead hrows hpart hwidth
    have hall : Executor.runArms rec src lead.columns stmt.compound lead.rows
        = .ok (Executor.combine arm.op rows part.rows) := by
      rw [hstmt, runArms_concat, hrows, ok_bind, hpart, ok_bind, require_pos hwidth, ok_bind]
    refine (combine_apart_iff _).1 (h [] none none ⟨lead.columns, _⟩ ?_)
    refine bind_eq_ok.2 ⟨lead, hlead, bind_eq_ok.2 ⟨_, hall, bind_eq_ok.2 ⟨_, rfl, ?_⟩⟩⟩
    exact bind_eq_ok.2 ⟨_, limitOffset_all rfl rfl (hfits lead _ hlead hall), rfl⟩
  · intro h order_by limit offset out hrun
    obtain ⟨lead, hlead, hrun⟩ := bind_eq_ok.1 hrun
    obtain ⟨rows, hrows, hrun⟩ := bind_eq_ok.1 hrun
    obtain ⟨sorted, hsorted, hrun⟩ := bind_eq_ok.1 hrun
    obtain ⟨limited, hlimited, hrun⟩ := bind_eq_ok.1 hrun
    cases hrun
    change Executor.runArms rec src lead.columns stmt.compound lead.rows = .ok rows at hrows
    rw [hstmt, runArms_concat] at hrows
    obtain ⟨before, hbefore, hrows⟩ := bind_eq_ok.1 hrows
    obtain ⟨part, hpart, hrows⟩ := bind_eq_ok.1 hrows
    obtain ⟨_, hwidth, hrows⟩ := bind_eq_ok.1 hrows
    cases hrows
    have hsame := h lead before part hlead hbefore hpart (require_eq_ok.1 hwidth)
    exact ((combine_apart_iff _).2 hsame |>.perm (sortOutput_perm hsorted)).sublist
      (limitOffset_sublist hlimited)

end Compound

/-! ### Expressions of a row -/

/-- Neither an aggregate nor a window nor a subquery, which a `GROUP BY` does not evaluate. -/
structure Scalar (e : Expr) : Prop where
  no_aggregate : e.hasAggregate = false
  no_window : e.hasWindow = false
  no_subquery : exprHasSubquery e = false

section Fold
variable {B : Builtins} {schema : QuerySchema} {rows : List Row} {params : List Value}

mutual

/-- Without aggregates nothing is folded. -/
lemma foldAggregates_scalar (e : Expr) (h : e.hasAggregate = false) :
    foldAggregates B schema rows params e = .ok e := by
  cases e with
  | node op args =>
    rw [foldAggregates, foldList_scalar args h]
    rfl
  | aggregate => cases h
  | _ => rfl

lemma foldList_scalar (es : List Expr) (h : anyAggregate es = false) :
    foldList B schema rows params es = .ok es := by
  cases es with
  | nil => rfl
  | cons e es =>
    obtain ⟨he, hes⟩ := Bool.or_eq_false_iff.1 h
    rw [foldList, foldAggregates_scalar e he, ok_bind, foldList_scalar es hes]
    rfl

end

lemma append_subset_append {α : Type} {a b c d : List α} (h : a ⊆ b) (h' : c ⊆ d) :
    a ++ c ⊆ b ++ d :=
  List.append_subset.2 ⟨List.Subset.trans h (List.subset_append_left b d),
    List.Subset.trans h' (List.subset_append_right b d)⟩

mutual

lemma collectColumns_subset (e : Expr) : collectColumns true e ⊆ collectColumns false e := by
  cases e with
  | node op args => exact collectList_subset args
  | aggregate func arg distinct sep => exact List.nil_subset _
  | inSubquery e q negated => exact collectColumns_subset e
  | window func args partition_by order_by frame =>
    exact append_subset_append (collectList_subset args) (collectList_subset partition_by)
  | _ => exact List.Subset.refl _

lemma collectList_subset (es : List Expr) : collectList true es ⊆ collectList false es := by
  cases es with
  | nil => exact List.Subset.refl _
  | cons e es => exact append_subset_append (collectColumns_subset e) (collectList_subset es)

end

lemma collect_of_mem {e : Expr} {es : List Expr} (h : e ∈ es) :
    collectColumns false e ⊆ collectList false es := by
  induction es with
  | nil => cases h
  | cons a es ih =>
    rcases List.mem_cons.1 h with rfl | h
    · exact List.subset_append_left _ _
    · exact List.Subset.trans (ih h) (List.subset_append_right _ _)

lemma inGroup_of_mem {cols : List (Option String × String)} {c : Option String × String}
    (h : c ∈ cols) : inGroup cols c = true :=
  List.any_eq_true.2 ⟨c, h, by simp⟩

/-- The grouped expressions pass the check for columns outside of the groups. -/
lemma checkGrouped_self {e : Expr} {es : List Expr} (h : e ∈ es) (hvalid : validateColumns schema e = .ok ()) :
    checkGrouped schema (collectList false es) e = .ok () := by
  have hnone : (collectColumns true e).find? (fun c => !inGroup (collectList false es) c) = none := by
    refine List.find?_eq_none.2 fun c hc => ?_
    rw [inGroup_of_mem (collect_of_mem h (collectColumns_subset e hc))]
    simp
  rw [checkGrouped, hvalid, ok_bind, hnone]

lemma validate_of_mem {e : Expr} {es : List Expr} (hvalid : validateList schema es = .ok ())
    (h : e ∈ es) : validateColumns schema e = .ok () := by
  induction es with
  | nil => cases h
  | cons a es ih =>
    obtain ⟨_, ha, hes⟩ := bind_eq_ok.1 hvalid
    rcases List.mem_cons.1 h with rfl | h
    · exact ha
    · exact ih hes h

lemma checkItems_self {es : List Expr} (hvalid : validateList schema es = .ok ()) (l : List Expr)
    (h : l ⊆ es) : checkItems schema (collectList false es) (l.map (.expr · none)) = .ok () := by
  induction l with
  | nil => rfl
  | cons e l ih =>
    have he : e ∈ es := h List.mem_cons_self
    rw [List.map_cons, checkItems, checkGrouped_self he (validate_of_mem hvalid he), ok_bind]
    exact ih fun a ha => h (List.mem_cons_of_mem e ha)

end Fold

/-! ### The keys of the groups -/

section Keys
variable (B : Builtins) (schema : QuerySchema) (params : List Value) (es : List Expr)

/-- The values of the expressions on a row. -/
def keyOf (row : Row) : Result Row := es.mapM (evalOn B schema params · row)

/-- A group with the key of its first row. -/
structure GroupOf (g : List UInt8 × List Row) (k : Row) : Prop where
  code : g.1 = encodeValues k
  rep : ∃ row, g.2.head? = some row ∧ keyOf B schema params es row = .ok k
  short : (encodeValues k).length < 2 ^ 64

def keyEq (a b : Row) : Bool := decide (a = b)

variable {B schema params es} {groups : List (List UInt8 × List Row)} {keys ks : List Row}
  {rows : List Row} {row k : Row}

lemma encode_inj {a b : Row} (ha : (encodeValues a).length < 2 ^ 64)
    (hb : (encodeValues b).length < 2 ^ 64) (h : encodeValues a = encodeValues b) : a = b := by
  have hdec := decodeValues_encode ha
  rw [h, decodeValues_encode hb, Except.ok.injEq] at hdec
  exact hdec.symm

/-- A row goes into the group of its key, or makes a new one. -/
lemma addToGroup_step (h : List.Forall₂ (GroupOf B schema params es) groups keys)
    (hrow : keyOf B schema params es row = .ok k) (hshort : (encodeValues k).length < 2 ^ 64) :
    List.Forall₂ (GroupOf B schema params es) (addToGroup (encodeValues k) row groups)
      (if keys.any (keyEq · k) then keys else keys ++ [k]) := by
  induction h with
  | nil => exact .cons ⟨rfl, ⟨row, rfl, hrow⟩, hshort⟩ .nil
  | @cons g k' groups keys hg hgroups ih =>
    obtain ⟨code, group⟩ := g
    rw [addToGroup, List.any_cons]
    by_cases heq : code = encodeValues k
    · have hkey : k' = k := encode_inj hg.short hshort (hg.code.symm.trans heq)
      have htrue : keyEq k' k = true := decide_eq_true hkey
      rw [if_pos heq, htrue, Bool.true_or, if_pos rfl]
      obtain ⟨rep, hrep, hk⟩ := hg.rep
      refine .cons ⟨hg.code, ⟨rep, ?_, hk⟩, hg.short⟩ hgroups
      rw [List.head?_append, hrep]
      rfl
    · have hkey : k' ≠ k := fun hkey => heq (hkey ▸ hg.code)
      have hfalse : keyEq k' k = false := decide_eq_false hkey
      rw [if_neg heq, hfalse, Bool.false_or]
      split_ifs at ih ⊢
      · exact .cons hg ih
      · exact .cons hg ih

lemma groupRows_error {e : Error} (h : rows.mapM (keyOf B schema params es) = .error e) :
    groupRows B schema params es rows groups = .error e := by
  induction rows generalizing groups with
  | nil => cases h
  | cons row rows ih =>
    rw [List.mapM_cons] at h
    change (keyOf B schema params es row >>= _) = _
    rcases bind_eq_error.1 h with hkey | ⟨k, hkey, h⟩
    · rw [hkey]
      rfl
    · rw [hkey, ok_bind]
      rcases bind_eq_error.1 h with hrest | ⟨_, _, h⟩
      · exact ih hrest
      · cases h

/-- The groups stand for the first occurrences of the keys. -/
lemma groupRows_keys (h : List.Forall₂ (GroupOf B schema params es) groups keys)
    (hks : rows.mapM (keyOf B schema params es) = .ok ks)
    (hshort : ∀ k ∈ ks, (encodeValues k).length < 2 ^ 64) :
    ∃ out, groupRows B schema params es rows groups = .ok out ∧
      List.Forall₂ (GroupOf B schema params es) out
        (ks.foldl (fun out k => if out.any (keyEq · k) then out else out ++ [k]) keys) := by
  induction rows generalizing groups keys ks with
  | nil =>
    cases hks
    exact ⟨groups, rfl, h⟩
  | cons row rows ih =>
    rw [List.mapM_cons] at hks
    obtain ⟨k, hkey, hks⟩ := bind_eq_ok.1 hks
    obtain ⟨rest, hrest, hks⟩ := bind_eq_ok.1 hks
    cases hks
    have hstep := addToGroup_step h hkey (hshort k List.mem_cons_self)
    obtain ⟨out, hout, hall⟩ := ih hstep hrest fun a ha => hshort a (List.mem_cons_of_mem k ha)
    refine ⟨out, ?_, hall⟩
    change (keyOf B schema params es row >>= _) = _
    rw [hkey]
    exact hout

end Keys

/-! ### Both statements -/

section Statements
variable (stmt : SelectStmt) (es : List Expr)

/-- `SELECT DISTINCT e1, …, en`. -/
def distinctOf : SelectStmt :=
  { stmt with distinct := true, projection := es.map (.expr · none), group_by := [], having := none,
              order_by := [], limit := none, offset := none }

/-- `SELECT e1, …, en GROUP BY e1, …, en`. -/
def groupedOf : SelectStmt := { distinctOf stmt es with distinct := false, group_by := es }

/-- The rows are one for each class of equal keys. -/
structure OnePerClass (B : Builtins) (keys rows : List Row) : Prop where
  of_key : ∀ r ∈ rows, r ∈ keys
  all : ∀ k ∈ keys, ∃ r ∈ rows, r = k ∨ RowsEqual B r k
  apart : Apart B rows

/-- Two statements fail alike, or return the same rows, one for each class of equal keys. -/
def AnswersAgree (B : Builtins) (keys : Result (List Row)) (d g : Result SelectOut) : Prop :=
  (∃ e, d = .error e ∧ g = .error e) ∨ ∃ ks a b, keys = .ok ks ∧ d = .ok a ∧ g = .ok b ∧
    a.rows.Perm b.rows ∧ OnePerClass B ks a.rows

variable (X : Executor) (rec : Source → SelectStmt → Result SelectOut) (src : Source)
  (params : List Value) (schema : QuerySchema) (rows : List Row)

def GroupsAgree : Prop := AnswersAgree X.builtins
  (rows.mapM (keyOf X.builtins schema params es))
  (X.runTail rec src params schema (distinctOf stmt es) rows)
  (X.runTail rec src params schema (groupedOf stmt es) rows)

/-- The keys of two rows are equal exactly if they are identical. -/
def KeysExact : Prop := validateList schema es = .ok () →
  ∀ ks, rows.mapM (keyOf X.builtins schema params es) = .ok ks →
    ks.Pairwise fun a b => RowsEqual X.builtins a b ↔ a = b

variable {stmt es X rec src params schema rows}

lemma outColumns_exprs (i : ℕ) : ∃ columns, Executor.outColumns schema (es.map (.expr · none)) i
    = validateList schema es >>= fun _ => .ok columns := by
  induction es generalizing i with
  | nil => exact ⟨[], rfl⟩
  | cons e es ih =>
    obtain ⟨columns, hcolumns⟩ := ih (i + 1)
    refine ⟨outputName i (.expr e none) :: columns, ?_⟩
    rw [List.map_cons, Executor.outColumns, hcolumns, validateList, bind_assoc]
    simp only [bind_assoc, ok_bind]

lemma projectRow_exprs (h : ∀ e ∈ es, Scalar e) (row : Row) :
    X.projectRow rec src params schema (es.map (.expr · none)) row
      = keyOf X.builtins schema params es row := by
  induction es with
  | nil => rfl
  | cons e es ih =>
    have hrest := ih fun a ha => h a (List.mem_cons_of_mem e ha)
    have hitem : X.projectItem rec src params schema row (.expr e none)
        = evalOn X.builtins schema params e row >>= fun v => .ok [v] := by
      rw [Executor.projectItem, if_neg (by simp [(h e List.mem_cons_self).no_subquery])]
      rfl
    unfold Executor.projectRow at hrest ⊢
    rw [List.map_cons, List.mapM_cons, hitem, keyOf, List.mapM_cons]
    change _ = evalOn X.builtins schema params e row >>= fun v =>
      keyOf X.builtins schema params es row >>= fun vs => .ok (v :: vs)
    rw [← hrest]
    cases evalOn X.builtins schema params e row with
    | error e => rfl
    | ok v => cases List.mapM (X.projectItem rec src params schema row) (es.map (.expr · none)) <;> rfl

lemma any_exprs {p : Expr → Bool} (h : ∀ e ∈ es, p e = false) :
    (es.map (SelectItem.expr · none)).any (·.any p) = false := by
  rw [List.any_map, List.any_eq_false]
  intro e he
  change ¬ p e = true
  rw [h e he]
  exact Bool.false_ne_true

lemma distinctOf_eq (h : ∀ e ∈ es, Scalar e) (hlen : rows.length < 2 ^ 63) :
    ∃ columns, X.runTail rec src params schema (distinctOf stmt es) rows
      = validateList schema es >>= fun _ =>
        rows.mapM (keyOf X.builtins schema params es) >>= fun ks =>
        .ok ⟨columns, dedupPreserving ks⟩ := by
  obtain ⟨columns, hcols⟩ : ∃ columns,
      Executor.outColumns schema (distinctOf stmt es).projection 0
        = validateList schema es >>= fun _ => .ok columns := outColumns_exprs 0
  refine ⟨columns, ?_⟩
  have hagg : (distinctOf stmt es).projection.any (·.any Expr.hasAggregate) = false :=
    any_exprs fun e he => (h e he).no_aggregate
  have hwin : (distinctOf stmt es).projection.any (·.any Expr.hasWindow) = false :=
    any_exprs fun e he => (h e he).no_window
  have hplain : X.runTail rec src params schema (distinctOf stmt es) rows
      = X.runPlain rec src params schema (distinctOf stmt es) rows := by
    unfold Executor.runTail
    rw [hagg, hwin]
    rfl
  have hrun : X.runPlain rec src params schema (distinctOf stmt es) rows
      = Executor.outColumns schema (distinctOf stmt es).projection 0 >>= fun columns =>
        rows.mapM (X.projectRow rec src params schema (distinctOf stmt es).projection) >>= fun out =>
        limitOffset X.builtins (dedupPreserving out) (distinctOf stmt es) params >>= fun out =>
        .ok ⟨columns, out⟩ :=
    @runPlain_eq X rec src params schema (distinctOf stmt es) rows rfl [] none none
  have hrow : X.projectRow rec src params schema (distinctOf stmt es).projection
      = keyOf X.builtins schema params es := funext (projectRow_exprs h)
  rw [hplain, hrun, hrow, hcols]
  cases validateList schema es with
  | error e => rfl
  | ok u =>
    change (rows.mapM (keyOf X.builtins schema params es) >>= _) = _
    cases hks : rows.mapM (keyOf X.builtins schema params es) with
    | error e => rfl
    | ok ks =>
      have hshort : (dedupPreserving ks).length < 2 ^ 63 := by
        have hle := (firsts_sublist (r := Row.same) (l := ks)).length_le
        rw [← (mapM_eq_ok.1 hks).length_eq] at hle
        exact hle.trans_lt hlen
      rw [ok_bind, limitOffset_all rfl rfl hshort]
      rfl

lemma itemExpr_exprs : (es.map (SelectItem.expr · none)).filterMap itemExpr = es := by
  rw [List.filterMap_map]
  exact List.filterMap_some

lemma groupRow_key {g : List UInt8 × List Row} {k : Row} (h : ∀ e ∈ es, Scalar e)
    (hg : GroupOf X.builtins schema params es g k) :
    groupRow X.builtins schema params (groupedOf stmt es) g.2 = .ok (some k) := by
  obtain ⟨row, hrow, hk⟩ := hg.rep
  have heval {e : Expr} (he : e ∈ es) : evalGroup X.builtins schema params g.2 e
      = evalOn X.builtins schema params e row := by
    rw [evalGroup, foldAggregates_scalar e (h e he).no_aggregate, ok_bind, hrow]
    rfl
  have hall : es.mapM (evalGroup X.builtins schema params g.2) = .ok k := by
    obtain ⟨hlen, hvals⟩ := List.forall₂_iff_zip.1 (mapM_eq_ok.1 hk)
    refine mapM_eq_ok.2 (List.forall₂_iff_zip.2 ⟨hlen, fun {e v} hev => ?_⟩)
    rw [heval (List.of_mem_zip hev).1]
    exact hvals hev
  have hitems : (groupedOf stmt es).projection.filterMap itemExpr = es := itemExpr_exprs
  change ((groupedOf stmt es).projection.filterMap itemExpr).mapM
    (evalGroup X.builtins schema params g.2) >>= (fun out => .ok (some out)) = _
  rw [hitems, hall]
  rfl

lemma groupedOf_eq (hes : es ≠ []) (h : ∀ e ∈ es, Scalar e) (hlen : rows.length < 2 ^ 63)
    (hshort : ∀ ks, rows.mapM (keyOf X.builtins schema params es) = .ok ks →
      ∀ k ∈ ks, (encodeValues k).length < 2 ^ 64) :
    ∃ columns, X.runTail rec src params schema (groupedOf stmt es) rows
      = validateList schema es >>= fun _ =>
        rows.mapM (keyOf X.builtins schema params es) >>= fun ks =>
        .ok ⟨columns, firsts keyEq ks⟩ := by
  refine ⟨(groupedOf stmt es).projection.mapIdx outputName, ?_⟩
  have hgroup : X.runTail rec src params schema (groupedOf stmt es) rows
      = runGrouped X.builtins schema params (groupedOf stmt es) rows := by
    unfold Executor.runTail
    refine if_pos ?_
    change ¬ es.isEmpty = true
    rwa [List.isEmpty_iff]
  rw [hgroup, runGrouped_eq, groupsOf]
  change (validateList schema es >>= fun _ => checkItems schema (collectList false es)
    (es.map (.expr · none)) >>= fun _ => (Except.ok () : Result Unit) >>= fun _ =>
    groupRows X.builtins schema params es rows []) >>= _ = _
  cases hvalid : validateList schema es with
  | error e => rfl
  | ok u =>
    rw [ok_bind, ok_bind, checkItems_self hvalid es (List.Subset.refl es), ok_bind, ok_bind]
    cases hks : rows.mapM (keyOf X.builtins schema params es) with
    | error e =>
      rw [groupRows_error hks]
      rfl
    | ok ks =>
      obtain ⟨groups, hgroups, hall⟩ := groupRows_keys .nil hks (hshort ks hks)
      have hout : (groups.mapM fun g => groupRow X.builtins schema params (groupedOf stmt es) g.2)
          = .ok ((firsts keyEq ks).map some) := by
        refine mapM_eq_ok.2 (List.forall₂_map_right_iff.2 ?_)
        exact hall.imp fun _ _ hg => groupRow_key h hg
      have hrows : ((firsts keyEq ks).map some).filterMap id = firsts keyEq ks := by
        rw [List.filterMap_map]
        exact List.filterMap_some
      have hsmall : (firsts keyEq ks).length < 2 ^ 63 := by
        have hle := (firsts_sublist (r := keyEq) (l := ks)).length_le
        rw [← (mapM_eq_ok.1 hks).length_eq] at hle
        exact hle.trans_lt hlen
      rw [hgroups, ok_bind, hout, ok_bind, hrows]
      have hsorted : sortOutput X.builtins (groupedOf stmt es).order_by
          ((groupedOf stmt es).projection.mapIdx outputName) (firsts keyEq ks)
          = .ok (firsts keyEq ks) := rfl
      rw [hsorted, ok_bind, limitOffset_all rfl rfl hsmall]
      rfl

/-- The first occurrences are among the keys, and each key is one of them or the same as one. -/
lemma onePerClass_dedup {B : Builtins} {ks : List Row} :
    OnePerClass B ks (dedupPreserving ks) ↔ Apart B (dedupPreserving ks) := by
  refine ⟨fun h => h.apart, fun h => ⟨fun r hr => firsts_sublist.subset hr, fun k hk => ?_, h⟩⟩
  rcases mem_firsts (r := Row.same) hk with hin | ⟨o, ho, hsame⟩
  · exact ⟨k, hin, Or.inl rfl⟩
  · exact ⟨o, ho, Or.inr (narrower_same.wide hsame)⟩

lemma groupsAgree_iff (hes : es ≠ []) (h : ∀ e ∈ es, Scalar e) (hlen : rows.length < 2 ^ 63)
    (hshort : ∀ ks, rows.mapM (keyOf X.builtins schema params es) = .ok ks →
      ∀ k ∈ ks, (encodeValues k).length < 2 ^ 64) :
    GroupsAgree stmt es X rec src params schema rows ↔ KeysExact es X params schema rows := by
  obtain ⟨dcols, hd⟩ := @distinctOf_eq stmt es X rec src params schema rows h hlen
  obtain ⟨gcols, hg⟩ := @groupedOf_eq stmt es X rec src params schema rows hes h hlen hshort
  unfold GroupsAgree KeysExact
  rw [hd, hg]
  cases validateList schema es with
  | error e => exact iff_of_true (Or.inl ⟨e, rfl, rfl⟩) fun h => by cases h
  | ok u =>
    cases rows.mapM (keyOf X.builtins schema params es) with
    | error e => exact iff_of_true (Or.inl ⟨e, rfl, rfl⟩) fun _ ks hks => by cases hks
    | ok ks =>
      have hfirsts := firsts_perm_iff (l := ks) (narrower_same (B := X.builtins))
      constructor
      · rintro (⟨e, he, -⟩ | ⟨ks', a, b, hks, ha, hb, hperm, hone⟩) _ ks'' hks''
        · cases he
        · cases hks
          cases hks''
          cases ha
          cases hb
          exact hfirsts.1 ⟨hperm, hone.apart⟩
      · intro hall
        obtain ⟨hperm, hapart⟩ := hfirsts.2 (hall rfl ks rfl)
        exact Or.inr ⟨ks, _, _, rfl, rfl, rfl, hperm, onePerClass_dedup.2 hapart⟩

end Statements

/-- `DISTINCT` leaves no equal rows exactly under the condition of its route, a set operation exactly
if it meets no rows that are equal and not the same, and `DISTINCT` is `GROUP BY` exactly for keys
that are equal where they are identical. -/
theorem distinct_equality (X : Executor) (rec : Source → SelectStmt → Result SelectOut) (src : Source)
    (params : List Value) (stmt : SelectStmt) :
    (∀ schema rows, stmt.distinct = true → rows.length < 2 ^ 63 →
      (DistinctApart X rec src params schema stmt rows
        ↔ DistinctCondition X rec src params schema stmt rows)) ∧
    (∀ arms arm, stmt.compound = arms ++ [arm] → arm.op ≠ .unionAll → CompoundFits rec src stmt →
      (CompoundApart X rec src params stmt ↔ CompoundCondition X rec src stmt arms arm)) ∧
    ∀ schema es rows, es ≠ [] → (∀ e ∈ es, Scalar e) → rows.length < 2 ^ 63 →
      (∀ ks, rows.mapM (keyOf X.builtins schema params es) = .ok ks →
        ∀ k ∈ ks, (encodeValues k).length < 2 ^ 64) →
      (GroupsAgree stmt es X rec src params schema rows ↔ KeysExact es X params schema rows) :=
  ⟨fun _ _ hd hlen => distinctApart_iff hd hlen,
    fun _ _ hstmt _ hfits => compoundApart_iff hstmt hfits,
    fun _ _ _ hes h hlen hshort => groupsAgree_iff hes h hlen hshort⟩

/-! ### One and `1.0`, groups of one value, and the two zeros -/

/-- A table `t(a, b)`. -/
def pairTable : TableDef := syntheticDef "t" ["a", "b"] 1

/-- `CASE WHEN a = 1 THEN 1 ELSE 1.0 END`. -/
def oneOrReal : Expr := .node (.case_ false true)
  [.node (.binary .eq) [.column none "a", .literal (.integer 1)], .literal (.integer 1),
    .literal (.real oneAsReal)]

def negativeZero : F64 := ⟨0x8000000000000000⟩

/-- The rows of a statement over `t` whose FROM and WHERE have been done. -/
def tailRows (stmt : SelectStmt) (rows : List Row) : Option (List Row) :=
  ((engine roundBuiltins).runTail (fun _ _ => .error .outOfFuel) (.base (oneTable pairTable)) []
    (.single "t" pairTable) stmt rows).toOption.map SelectOut.rows

/-- `SELECT DISTINCT` of `1` and `1.0` returns both, with groups it returns a value twice, and `0.0`
and `-0.0` are one row for `DISTINCT` and two groups. -/
theorem distinct_repeats :
    (∃ rows, tailRows (distinctOf selectAll [oneOrReal]) [[.integer 1, .null], [.integer 2, .null]]
      = some rows ∧ ¬ Apart roundBuiltins rows) ∧
    (∃ rows, tailRows { distinctOf selectAll [.column none "a"] with
        group_by := [.column none "a", .column none "b"] }
        [[.integer 1, .integer 1], [.integer 1, .integer 2]] = some rows ∧
      ¬ Apart roundBuiltins rows) ∧
    ∃ d g, tailRows (distinctOf selectAll [.column none "a"])
        [[.real ⟨0⟩, .null], [.real negativeZero, .null]] = some d ∧
      tailRows (groupedOf selectAll [.column none "a"])
        [[.real ⟨0⟩, .null], [.real negativeZero, .null]] = some g ∧ ¬ d.Perm g := by
  have hequal {a b : Value} (h : cmpValues roundBuiltins a b = .ok (some .eq)) :
      ¬ Apart roundBuiltins [[a], [b]] := fun hapart =>
    (List.pairwise_pair.1 hapart) (.cons (Or.inr h) .nil)
  refine ⟨⟨[[.integer 1], [.real oneAsReal]], by decide +kernel, hequal (by decide +kernel)⟩,
    ⟨[[.integer 1], [.integer 1]], by decide +kernel, hequal (by decide +kernel)⟩,
    ⟨[[.real ⟨0⟩]], [[.real ⟨0⟩], [.real negativeZero]], by decide +kernel, by decide +kernel, ?_⟩⟩
  exact fun hperm => absurd hperm.length_eq (by decide)

/-- A statement that takes the rows of `t` once more. -/
def unionTwice : SelectStmt := { selectAll with distinct := true, compound := [⟨.union, selectAll⟩] }

/-- Every statement returns one row. -/
def oneRow (_ : Source) (_ : SelectStmt) : Result SelectOut := .ok ⟨["a"], [[.integer 1]]⟩

theorem distinct_equality_one :
    (DistinctApart (engine roundBuiltins) oneRow (.base (oneTable pairTable)) [] (.single "t" pairTable)
        unionTwice [[.integer 1, .null]]
      ↔ DistinctCondition (engine roundBuiltins) oneRow (.base (oneTable pairTable)) []
        (.single "t" pairTable) unionTwice [[.integer 1, .null]]) ∧
    (CompoundApart (engine roundBuiltins) oneRow (.base (oneTable pairTable)) [] unionTwice
      ↔ CompoundCondition (engine roundBuiltins) oneRow (.base (oneTable pairTable)) unionTwice []
        ⟨.union, selectAll⟩) ∧
    (GroupsAgree unionTwice [.column none "a"] (engine roundBuiltins) oneRow
        (.base (oneTable pairTable)) [] (.single "t" pairTable) [[.integer 1, .null]]
      ↔ KeysExact [.column none "a"] (engine roundBuiltins) [] (.single "t" pairTable)
        [[.integer 1, .null]]) := by
  have hall := distinct_equality (engine roundBuiltins) oneRow (.base (oneTable pairTable)) [] unionTwice
  refine ⟨hall.1 _ _ rfl (by decide), hall.2.1 [] ⟨.union, selectAll⟩ rfl (by decide) ?_,
    hall.2.2 _ _ _ (by simp) ?_ (by decide) ?_⟩
  · intro lead rows hlead hrows
    cases hlead
    cases hrows
    decide
  · intro e he
    rw [List.mem_singleton.1 he]
    exact ⟨rfl, rfl, rfl⟩
  · intro ks hks k hk
    cases hks
    rw [List.mem_singleton.1 hk]
    decide +kernel

end Arkeion.Sql
