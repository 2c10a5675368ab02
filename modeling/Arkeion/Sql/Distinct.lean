import Arkeion.Lib.Firsts
import Arkeion.Sql.WindowRank

/-!
Repetitions in the answer of a `SELECT DISTINCT`.

Rows repeat if `=` is true of their values one by one, NULL counting as equal to NULL. The engine
keeps the first of the rows that are the same value by value, which is narrower, and of the rows of
groups it keeps all.
-/

namespace Arkeion.Sql

open Arkeion.Lib Catalog

/-! ### Rows that are equal -/

/-- `=` is true of the values, or both are NULL. -/
def ValuesEqual (B : Builtins) (a b : Value) : Prop :=
  (a = .null ∧ b = .null) ∨ cmpValues B a b = .ok (some .eq)

def RowsEqual (B : Builtins) : Row → Row → Prop := List.Forall₂ (ValuesEqual B)

/-- No two rows are equal. -/
def Apart (B : Builtins) (rows : List Row) : Prop := rows.Pairwise fun a b => ¬ RowsEqual B a b

/-- Rows that are equal are the same value by value. -/
def EqualAreSame (B : Builtins) (rows : List Row) : Prop :=
  ∀ a ∈ rows, ∀ b ∈ rows, RowsEqual B a b → Row.same a b = true

section Equal
variable {B : Builtins} {a b c : Value} {rows out : List Row}

/-- Values that are the same compare alike. -/
lemma cmpValues_same (h : Value.same a b = true) :
    cmpValues B a c = cmpValues B b c ∧ cmpValues B c a = cmpValues B c b := by
  rcases value_same_iff.1 h with ⟨x, y, rfl, rfl, hnan, hrank⟩ | ⟨rfl, -⟩
  · cases c <;> simp only [cmpValues, (partialCmp_same hnan hrank).1,
      (partialCmp_same hnan hrank).2, Value.typeName, and_self]
  · exact ⟨rfl, rfl⟩

lemma partialCmp_self {x y : F64} (hnan : ¬ (x.IsNaN ∨ y.IsNaN)) (hrank : x.rank = y.rank) :
    x.partialCmp y = some .eq := by
  rw [F64.partialCmp, if_neg hnan, hrank, compare_eq_iff_eq.2 rfl]

lemma valuesEqual_of_same (h : Value.same a b = true) : ValuesEqual B a b := by
  rcases value_same_iff.1 h with ⟨x, y, rfl, rfl, hnan, hrank⟩ | ⟨rfl, hreal⟩
  · exact Or.inr (congrArg Except.ok (partialCmp_self hnan hrank))
  · cases a with
    | null => exact Or.inl ⟨rfl, rfl⟩
    | real x => exact absurd rfl (hreal x)
    | blob u => exact Or.inr (by rw [cmpValues, cmpBytes_eq_eq.2 rfl])
    | _ => exact Or.inr (by simp only [cmpValues, Std.ReflCmp.compare_self])

lemma partialCmp_eq_swap {x y : F64} (h : x.partialCmp y = some .eq) :
    y.partialCmp x = some .eq := by
  obtain ⟨hnan, hrank⟩ := partialCmp_eq.1 (beq_iff_eq.2 h)
  exact partialCmp_self (fun h => hnan h.symm) hrank.symm

lemma valuesEqual_symm (h : ValuesEqual B a b) : ValuesEqual B b a := by
  rcases h with ⟨ha, hb⟩ | h
  · exact Or.inl ⟨hb, ha⟩
  · refine Or.inr ?_
    cases a <;> cases b <;> simp only [cmpValues, Except.ok.injEq, Option.some.injEq, reduceCtorEq,
      compare_eq_iff_eq, cmpBytes_eq_eq] at h ⊢ <;>
    first | exact partialCmp_eq_swap h | exact h.symm | exact Std.OrientedCmp.eq_symm h

lemma same_self_of_equal (h : ValuesEqual B a b) : Value.same a a = true := by
  cases a with
  | real x =>
    have hx : ¬ x.IsNaN := by
      intro hnan
      rcases h with ⟨h, -⟩ | h
      · cases h
      · cases b <;> simp [cmpValues, F64.partialCmp, hnan] at h
    exact value_same_iff.2 (Or.inl ⟨x, x, rfl, rfl, fun h => h.elim hx hx, rfl⟩)
  | _ => exact value_same_iff.2 (Or.inr ⟨rfl, by simp⟩)

lemma narrower_same : Narrower Row.same (RowsEqual B) where
  symm := row_same_symm
  trans := row_same_trans
  left := fun {a b c} hr he => by
    have hall := row_same_iff.1 hr
    clear hr
    induction hall generalizing c with
    | nil => exact he
    | cons hv _ ih =>
      cases he with
      | cons hvc hrest =>
        refine .cons ?_ (ih hrest)
        rcases hvc with ⟨rfl, rfl⟩ | hvc
        · exact valuesEqual_symm (valuesEqual_of_same hv)
        · exact Or.inr ((cmpValues_same hv).1 ▸ hvc)
  wide := fun hr => (row_same_iff.1 hr).imp fun _ _ => valuesEqual_of_same
  equal_symm := fun he => he.flip.imp fun _ _ => valuesEqual_symm
  refl := fun {a b} he => by
    refine row_same_iff.2 ?_
    induction he with
    | nil => exact .nil
    | cons hv _ ih => exact .cons (same_self_of_equal hv) ih

/-- `DISTINCT` leaves no repetitions exactly if rows that are equal are the same. -/
lemma dedup_apart_iff : Apart B (dedupPreserving rows) ↔ EqualAreSame B rows := by
  have hfirsts := firsts_unequal_iff (l := rows) (narrower_same (B := B)) (p := fun _ => true)
    fun _ => rfl
  simp only [List.filter_true, true_imp_iff] at hfirsts
  exact hfirsts

lemma Apart.perm (h : Apart B rows) (hperm : out.Perm rows) : Apart B out :=
  List.Pairwise.perm h hperm.symm fun hne he => hne (narrower_same.equal_symm he)

lemma EqualAreSame.perm (h : EqualAreSame B rows) (hperm : out.Perm rows) : EqualAreSame B out :=
  fun a ha b hb => h a (hperm.subset ha) b (hperm.subset hb)

end Equal

/-! ### Order and limits -/

section Limits
variable {B : Builtins} {params : List Value} {stmt : SelectStmt} {α : Type}

lemma limitOffset_sublist {rows out : List α} (h : limitOffset B rows stmt params = .ok out) :
    out.Sublist rows := by
  obtain ⟨offset, -, h⟩ := bind_eq_ok.1 h
  obtain ⟨limit, -, h⟩ := bind_eq_ok.1 h
  cases h
  exact (List.take_sublist _ _).trans (List.drop_sublist _ _)

lemma limitOffset_all {rows : List α} (hlimit : stmt.limit = none) (hoffset : stmt.offset = none)
    (hlen : rows.length < 2 ^ 63) : limitOffset B rows stmt params = .ok rows := by
  have hoff : offsetOf B stmt params = .ok 0 := by
    rw [offsetOf, hoffset]
  have hlim : limitOf B stmt params = .ok USIZE_MAX := by
    rw [limitOf, hlimit]
  rw [limitOffset, hoff, ok_bind, hlim, ok_bind, List.drop_zero, List.take_of_length_le]
  unfold USIZE_MAX
  omega

lemma sortKeyed_perm {descs : List Bool} {keyed : List (List Value × α)} {out : List α}
    (h : sortKeyed B descs keyed = .ok out) : out.Perm (keyed.map Prod.snd) := by
  obtain ⟨_, -, h⟩ := bind_eq_ok.1 h
  cases h
  exact (List.perm_insertionSort _ keyed).map _

lemma orderRows_perm {X : Executor} {schema : QuerySchema} {rows out : List Row}
    (h : X.orderRows params schema stmt rows = .ok out) : out.Perm rows := by
  rw [Executor.orderRows] at h
  split_ifs at h
  · cases h
    exact .refl _
  · obtain ⟨keyed, hkeyed, h⟩ := bind_eq_ok.1 h
    have hrows := (mapM_keyed (g := id) hkeyed).1
    rw [List.map_id] at hrows
    exact hrows ▸ sortKeyed_perm h

lemma sortOutput_perm {order_by : List OrderBy} {columns : List String} {rows out : List Row}
    (h : sortOutput B order_by columns rows = .ok out) : out.Perm rows := by
  rw [sortOutput] at h
  split_ifs at h
  · cases h
    exact .refl _
  · obtain ⟨idxs, -, h⟩ := bind_eq_ok.1 h
    obtain ⟨keyed, hkeyed, h⟩ := bind_eq_ok.1 h
    have hrows := (mapM_keyed (g := id) hkeyed).1
    rw [List.map_id] at hrows
    exact hrows ▸ sortKeyed_perm h

lemma sortWindowed_perm {schema : QuerySchema} {columns : List String} {outs : List (Row × Row)}
    {out : List Row} (h : sortWindowed B schema stmt columns outs = .ok out) :
    out.Perm (outs.map Prod.fst) := by
  rw [sortWindowed] at h
  split_ifs at h
  · cases h
    exact .refl _
  · obtain ⟨keys, -, h⟩ := bind_eq_ok.1 h
    obtain ⟨keyed, hkeyed, h⟩ := bind_eq_ok.1 h
    exact (mapM_keyed hkeyed).1 ▸ sortKeyed_perm h

/-- What is worked out for the elements in another order. -/
lemma mapM_perm {β : Type} {f : α → Result β} {l l' : List α} {bs : List β} (hperm : l.Perm l')
    (h : l'.mapM f = .ok bs) : ∃ bs', l.mapM f = .ok bs' ∧ bs'.Perm bs := by
  obtain ⟨bs', hbs', hperm'⟩ := List.perm_comp_forall₂ hperm (mapM_eq_ok.1 h)
  exact ⟨bs', mapM_eq_ok.2 hbs', hperm'⟩

end Limits

/-! ### Rows of a statement -/

section Given
variable (B : Builtins) {α : Type} (l : List α)

/-- If there is a row for each element, those that are equal are the same. -/
def GivesSame (give : α → Result Row) : Prop :=
  (∀ a ∈ l, ∃ r, give a = .ok r) → ∀ a ∈ l, ∀ b ∈ l, ∀ r s, give a = .ok r → give b = .ok s →
    RowsEqual B r s → Row.same r s = true

/-- If every element is looked at, the rows of any two that give one are not equal. -/
def GivesApart (give : α → Result (Option Row)) : Prop :=
  (∀ a ∈ l, ∃ r, give a = .ok r) → l.Pairwise fun a b => ∀ r s, give a = .ok (some r) →
    give b = .ok (some s) → ¬ RowsEqual B r s

variable {B l}

section Mem
variable {β : Type} {f : α → Result β} {bs : List β} {a : α} {b : β}

lemma mapM_mem_left (h : l.mapM f = .ok bs) (ha : a ∈ l) : ∃ b ∈ bs, f a = .ok b := by
  have hall := mapM_eq_ok.1 h
  obtain ⟨i, hi, rfl⟩ := List.getElem_of_mem ha
  have hib : i < bs.length := hall.length_eq ▸ hi
  exact ⟨bs[i], List.getElem_mem hib, (List.forall₂_iff_get.1 hall).2 i hi hib⟩

lemma mapM_mem_right (h : l.mapM f = .ok bs) (hb : b ∈ bs) : ∃ a ∈ l, f a = .ok b := by
  obtain ⟨i, hi, rfl⟩ := List.getElem_of_mem hb
  obtain ⟨a, ha, hab⟩ := mapM_getElem? h (List.getElem?_eq_getElem hi)
  exact ⟨a, List.mem_of_getElem? ha, hab⟩

lemma mapM_all_ok (h : l.mapM f = .ok bs) : ∀ a ∈ l, ∃ b, f a = .ok b := fun a ha => by
  obtain ⟨b, -, hb⟩ := mapM_mem_left h ha
  exact ⟨b, hb⟩

end Mem

lemma givesSame_iff {give : α → Result Row} :
    GivesSame B l give ↔ ∀ out, l.mapM give = .ok out → EqualAreSame B out := by
  constructor
  · intro h out hout r hr s hs
    obtain ⟨a, ha, har⟩ := mapM_mem_right hout hr
    obtain ⟨b, hb, hbs⟩ := mapM_mem_right hout hs
    exact h (mapM_all_ok hout) a ha b hb r s har hbs
  · intro h hall a ha b hb r s har hbs
    obtain ⟨out, hout⟩ := mapM_exists_ok hall
    obtain ⟨r', hr', har'⟩ := mapM_mem_left hout ha
    obtain ⟨s', hs', hbs'⟩ := mapM_mem_left hout hb
    rw [har, Except.ok.injEq] at har'
    rw [hbs, Except.ok.injEq] at hbs'
    exact h out hout r (har' ▸ hr') s (hbs' ▸ hs')

/-- The rows there are, for elements that are all looked at. -/
lemma apart_filterMap {give : α → Result (Option Row)} {out : List (Option Row)}
    (h : l.mapM give = .ok out) : Apart B (out.filterMap id) ↔ l.Pairwise fun a b => ∀ r s,
      give a = .ok (some r) → give b = .ok (some s) → ¬ RowsEqual B r s := by
  unfold Apart
  rw [List.pairwise_filterMap]
  have hall := mapM_eq_ok.1 h
  clear h
  induction hall with
  | nil => exact iff_of_true List.Pairwise.nil List.Pairwise.nil
  | @cons a o l out ha hrest ih =>
    have hmap : l.mapM give = .ok out := mapM_eq_ok.2 hrest
    rw [List.pairwise_cons, List.pairwise_cons]
    refine and_congr ⟨fun h b hb r s har hbs => ?_, fun h o' ho' r hr s hs => ?_⟩ ih
    · rw [ha, Except.ok.injEq] at har
      obtain ⟨o', ho', hbo⟩ := mapM_mem_left hmap hb
      rw [hbs, Except.ok.injEq] at hbo
      exact h o' ho' r har s hbo.symm
    · obtain ⟨b, hb, hbo⟩ := mapM_mem_right hmap ho'
      refine h b hb r s ?_ ?_
      · rw [ha]
        exact congrArg Except.ok hr
      · rw [hbo]
        exact congrArg Except.ok hs

lemma givesApart_iff {give : α → Result (Option Row)} :
    GivesApart B l give ↔ ∀ out, l.mapM give = .ok out → Apart B (out.filterMap id) := by
  constructor
  · intro h out hmap
    exact (apart_filterMap hmap).2 (h (mapM_all_ok hmap))
  · intro h hall
    obtain ⟨out, hmap⟩ := mapM_exists_ok hall
    exact (apart_filterMap hmap).1 (h out hmap)

end Given

/-! ### The routes of a statement -/

section Routes
variable (X : Executor) (rec : Source → SelectStmt → Result SelectOut) (src : Source)
  (params : List Value) (schema : QuerySchema) (stmt : SelectStmt) (rows : List Row)

def checkHaving (group_cols : List (Option String × String)) : Option Expr → Result Unit
  | none => .ok ()
  | some h => checkGrouped schema group_cols h

/-- The groups of a statement that passes the checks. -/
def groupsOf : Result (List (List UInt8 × List Row)) := do
  validateList schema stmt.group_by
  checkItems schema (collectList false stmt.group_by) stmt.projection
  checkHaving schema (collectList false stmt.group_by) stmt.having
  groupRows X.builtins schema params stmt.group_by rows []

/-- The columns are there, and the windows can be computed. -/
def checkWindows : Result (List (List Value)) := do
  validateList schema (stmt.projection.filterMap itemExpr)
  ((stmt.projection.filterMap itemExpr).flatMap collectWindows).mapM
    (computeWindow X.builtins schema params rows)

/-- The row of a statement with windows for the row at a place. -/
def windowRow (r : Row × ℕ) : Result Row := do
  let out ← stmt.projection.mapM (windowItem X.builtins schema params rows r.2 r.1)
  .ok out.flatten

/-- Whatever the order and the limits, no two rows of the answer are equal. -/
def DistinctApart : Prop := ∀ order_by limit offset out,
  X.runTail rec src params schema { stmt with order_by, limit, offset } rows = .ok out →
    Apart X.builtins out.rows

/-- With groups, of which all are kept: any two that `HAVING` keeps give rows that are not equal.
Otherwise: rows that are equal are the same. -/
def DistinctCondition : Prop :=
  if ¬ stmt.group_by.isEmpty then ∀ groups, groupsOf X params schema stmt rows = .ok groups →
    GivesApart X.builtins groups fun g => groupRow X.builtins schema params stmt g.2
  else if stmt.projection.any (·.any Expr.hasAggregate) || stmt.having.any Expr.hasAggregate then
    True
  else if stmt.having.isSome then True
  else if stmt.projection.any (·.any Expr.hasWindow) then
    (∃ values, checkWindows X params schema stmt rows = .ok values) →
      GivesSame X.builtins rows.zipIdx (windowRow X params schema stmt rows)
  else (∃ columns, Executor.outColumns schema stmt.projection 0 = .ok columns) →
    GivesSame X.builtins rows (X.projectRow rec src params schema stmt.projection)

variable {X rec src params schema stmt rows}

lemma addToGroup_length {α : Type} (key : List UInt8) (r : α)
    (groups : List (List UInt8 × List α)) :
    (addToGroup key r groups).length ≤ groups.length + 1 := by
  induction groups with
  | nil => exact le_rfl
  | cons g groups ih =>
    rw [addToGroup]
    split_ifs
    · exact Nat.le_succ _
    · exact Nat.succ_le_succ ih

lemma groupRows_length {B : Builtins} {group_by : List Expr} {groups out : List (List UInt8 × List Row)}
    (h : groupRows B schema params group_by rows groups = .ok out) :
    out.length ≤ groups.length + rows.length := by
  induction rows generalizing groups with
  | nil =>
    cases h
    exact le_rfl
  | cons row rows ih =>
    obtain ⟨key, -, h⟩ := bind_eq_ok.1 h
    have hadd := addToGroup_length (encodeValues key) row groups
    have hrest := ih h
    rw [List.length_cons]
    omega

lemma runGrouped_eq : runGrouped X.builtins schema params stmt rows
    = groupsOf X params schema stmt rows >>= fun groups =>
      (groups.mapM fun g => groupRow X.builtins schema params stmt g.2) >>= fun out =>
      sortOutput X.builtins stmt.order_by (stmt.projection.mapIdx outputName) (out.filterMap id)
        >>= fun sorted => limitOffset X.builtins sorted stmt params >>= fun limited =>
      .ok ⟨stmt.projection.mapIdx outputName, limited⟩ := by
  unfold runGrouped groupsOf
  cases hhaving : stmt.having <;> simp only [checkHaving, bind_assoc, ok_bind]

/-- Rows of groups are only put in order and cut. -/
lemma grouped_apart (hlen : rows.length < 2 ^ 63) :
    (∀ order_by limit offset out, runGrouped X.builtins schema params
        { stmt with order_by, limit, offset } rows = .ok out → Apart X.builtins out.rows)
      ↔ ∀ groups, groupsOf X params schema stmt rows = .ok groups →
        GivesApart X.builtins groups fun g => groupRow X.builtins schema params stmt g.2 := by
  constructor
  · intro h groups hgroups
    refine givesApart_iff.2 fun out hout => ?_
    have hshort : (out.filterMap id).length < 2 ^ 63 := by
      obtain ⟨_, -, hrows⟩ := bind_eq_ok.1 hgroups
      obtain ⟨_, -, hrows⟩ := bind_eq_ok.1 hrows
      obtain ⟨_, -, hrows⟩ := bind_eq_ok.1 hrows
      have hle := groupRows_length hrows
      have hsome := List.length_filterMap_le id out
      rw [← (mapM_eq_ok.1 hout).length_eq] at hsome
      rw [List.length_nil] at hle
      omega
    refine h [] none none ⟨stmt.projection.mapIdx outputName, out.filterMap id⟩ ?_
    rw [runGrouped_eq]
    refine bind_eq_ok.2 ⟨groups, hgroups, bind_eq_ok.2 ⟨out, hout, bind_eq_ok.2 ⟨_, rfl, ?_⟩⟩⟩
    exact bind_eq_ok.2 ⟨_, limitOffset_all rfl rfl hshort, rfl⟩
  · intro h order_by limit offset out hrun
    rw [runGrouped_eq] at hrun
    obtain ⟨groups, hgroups, hrun⟩ := bind_eq_ok.1 hrun
    obtain ⟨outs, houts, hrun⟩ := bind_eq_ok.1 hrun
    obtain ⟨sorted, hsorted, hrun⟩ := bind_eq_ok.1 hrun
    obtain ⟨limited, hlimited, hrun⟩ := bind_eq_ok.1 hrun
    cases hrun
    have hapart := givesApart_iff.1 (h groups hgroups) outs houts
    exact (hapart.perm (sortOutput_perm hsorted)).sublist (limitOffset_sublist hlimited)

/-- Without groups there is one row at most. -/
lemma aggregated_apart {B : Builtins} {out : SelectOut}
    (h : runAggregated B schema rows params stmt = .ok out) : Apart B out.rows := by
  have hone {keep : Bool} {columns : List String} {row : Row} (h : (if keep then
      limitOffset B [row] stmt params >>= fun rows => .ok ⟨columns, rows⟩
      else .ok ⟨columns, []⟩) = .ok out) : Apart B out.rows := by
    split_ifs at h
    · obtain ⟨limited, hlimited, h⟩ := bind_eq_ok.1 h
      cases h
      exact (List.pairwise_singleton _ row).sublist (limitOffset_sublist hlimited)
    · cases h
      exact List.Pairwise.nil
  obtain ⟨⟨columns, row⟩, -, h⟩ := bind_eq_ok.1 h
  cases hhaving : stmt.having with
  | none =>
    simp only [hhaving, ok_bind] at h
    exact @hone true columns row h
  | some e =>
    simp only [hhaving] at h
    obtain ⟨_, -, h⟩ := bind_eq_ok.1 h
    obtain ⟨folded, -, h⟩ := bind_eq_ok.1 h
    obtain ⟨v, -, h⟩ := bind_eq_ok.1 h
    obtain ⟨keep, -, h⟩ := bind_eq_ok.1 h
    exact hone h

/-- Rows that are worked out, each with what stands beside it. -/
lemma mapM_zip {α β γ : Type} {f : α → Result β} {g : α → γ} (l : List α) :
    (l.mapM fun a => f a >>= fun b => .ok (b, g a))
      = l.mapM f >>= fun bs => .ok (bs.zip (l.map g)) := by
  induction l with
  | nil => rfl
  | cons a l ih =>
    rw [List.mapM_cons, List.mapM_cons, ih]
    cases f a with
    | error e => rfl
    | ok b => cases l.mapM f <;> rfl

lemma runWindowed_eq (hd : stmt.distinct = true) (order_by : List OrderBy)
    (limit offset : Option Expr) :
    runWindowed X.builtins schema params { stmt with order_by, limit, offset } rows
      = checkWindows X params schema stmt rows >>= fun _ =>
        rows.zipIdx.mapM (windowRow X params schema stmt rows) >>= fun outs =>
        sortWindowed X.builtins schema { stmt with order_by, limit, offset }
          (stmt.projection.mapIdx (windowColumns schema)).flatten
          (outs.zip (rows.zipIdx.map Prod.fst)) >>= fun sorted =>
        limitOffset X.builtins (dedupPreserving sorted) { stmt with order_by, limit, offset } params
          >>= fun limited =>
        .ok ⟨(stmt.projection.mapIdx (windowColumns schema)).flatten, limited⟩ := by
  have houts : (rows.zipIdx.mapM fun r =>
        stmt.projection.mapM (windowItem X.builtins schema params rows r.2 r.1) >>= fun out =>
          .ok (out.flatten, r.1))
      = rows.zipIdx.mapM (windowRow X params schema stmt rows) >>= fun outs =>
        .ok (outs.zip (rows.zipIdx.map Prod.fst)) := by
    rw [← mapM_zip]
    refine congrArg (fun f => List.mapM f rows.zipIdx) (funext fun r => ?_)
    rw [windowRow, bind_assoc]
    rfl
  unfold runWindowed checkWindows
  simp only [bind_assoc, hd, if_true, houts, ok_bind]

lemma windowed_apart (hd : stmt.distinct = true) (hlen : rows.length < 2 ^ 63) :
    (∀ order_by limit offset out, runWindowed X.builtins schema params
        { stmt with order_by, limit, offset } rows = .ok out → Apart X.builtins out.rows)
      ↔ ((∃ values, checkWindows X params schema stmt rows = .ok values) →
        GivesSame X.builtins rows.zipIdx (windowRow X params schema stmt rows)) := by
  have hfst {outs : List Row} (h : rows.zipIdx.mapM (windowRow X params schema stmt rows) = .ok outs) :
      (outs.zip (rows.zipIdx.map Prod.fst)).map Prod.fst = outs := by
    rw [List.map_fst_zip]
    rw [List.length_map, (mapM_eq_ok.1 h).length_eq]
  constructor
  · rintro h ⟨values, hvalues⟩
    refine givesSame_iff.2 fun outs houts => dedup_apart_iff.1 ?_
    have hshort : (dedupPreserving outs).length < 2 ^ 63 := by
      have hle := (firsts_sublist (r := Row.same) (l := outs)).length_le
      rw [← (mapM_eq_ok.1 houts).length_eq, List.length_zipIdx] at hle
      exact hle.trans_lt hlen
    refine h [] none none ⟨(stmt.projection.mapIdx (windowColumns schema)).flatten, _⟩ ?_
    rw [runWindowed_eq hd]
    refine bind_eq_ok.2 ⟨values, hvalues, bind_eq_ok.2 ⟨outs, houts, bind_eq_ok.2 ⟨outs, ?_, ?_⟩⟩⟩
    · exact congrArg Except.ok (hfst houts)
    · exact bind_eq_ok.2 ⟨_, limitOffset_all rfl rfl hshort, rfl⟩
  · intro h order_by limit offset out hrun
    rw [runWindowed_eq hd] at hrun
    obtain ⟨values, hvalues, hrun⟩ := bind_eq_ok.1 hrun
    obtain ⟨outs, houts, hrun⟩ := bind_eq_ok.1 hrun
    obtain ⟨sorted, hsorted, hrun⟩ := bind_eq_ok.1 hrun
    obtain ⟨limited, hlimited, hrun⟩ := bind_eq_ok.1 hrun
    cases hrun
    have hsame := givesSame_iff.1 (h ⟨values, hvalues⟩) outs houts
    have hperm := sortWindowed_perm hsorted
    rw [hfst houts] at hperm
    exact (dedup_apart_iff.2 (hsame.perm hperm)).sublist (limitOffset_sublist hlimited)

lemma runPlain_eq (hd : stmt.distinct = true) (order_by : List OrderBy)
    (limit offset : Option Expr) :
    X.runPlain rec src params schema { stmt with order_by, limit, offset } rows
      = X.orderRows params schema { stmt with order_by, limit, offset } rows >>= fun rows =>
        Executor.outColumns schema stmt.projection 0 >>= fun columns =>
        rows.mapM (X.projectRow rec src params schema stmt.projection) >>= fun out =>
        limitOffset X.builtins (dedupPreserving out) { stmt with order_by, limit, offset } params
          >>= fun out => .ok ⟨columns, out⟩ := by
  unfold Executor.runPlain Executor.project
  simp only [hd, if_true, ok_bind, Bool.not_true, Bool.false_and, Bool.false_eq_true, if_false]

lemma plain_apart (hd : stmt.distinct = true) (hlen : rows.length < 2 ^ 63) :
    (∀ order_by limit offset out, X.runPlain rec src params schema
        { stmt with order_by, limit, offset } rows = .ok out → Apart X.builtins out.rows)
      ↔ ((∃ columns, Executor.outColumns schema stmt.projection 0 = .ok columns) →
        GivesSame X.builtins rows (X.projectRow rec src params schema stmt.projection)) := by
  constructor
  · rintro h ⟨columns, hcolumns⟩
    refine givesSame_iff.2 fun outs houts => dedup_apart_iff.1 ?_
    have hshort : (dedupPreserving outs).length < 2 ^ 63 := by
      have hle := (firsts_sublist (r := Row.same) (l := outs)).length_le
      rw [← (mapM_eq_ok.1 houts).length_eq] at hle
      exact hle.trans_lt hlen
    refine h [] none none ⟨columns, _⟩ ?_
    rw [runPlain_eq hd]
    refine bind_eq_ok.2 ⟨rows, rfl, bind_eq_ok.2 ⟨columns, hcolumns, bind_eq_ok.2 ⟨outs, houts, ?_⟩⟩⟩
    exact bind_eq_ok.2 ⟨_, limitOffset_all rfl rfl hshort, rfl⟩
  · intro h order_by limit offset out hrun
    rw [runPlain_eq hd] at hrun
    obtain ⟨ordered, hordered, hrun⟩ := bind_eq_ok.1 hrun
    obtain ⟨columns, hcolumns, hrun⟩ := bind_eq_ok.1 hrun
    obtain ⟨outs, houts, hrun⟩ := bind_eq_ok.1 hrun
    obtain ⟨limited, hlimited, hrun⟩ := bind_eq_ok.1 hrun
    cases hrun
    -- the order of the rows does not matter
    obtain ⟨outs', houts', hperm⟩ := mapM_perm (orderRows_perm hordered).symm houts
    have hsame := givesSame_iff.1 (h ⟨columns, hcolumns⟩) outs' houts'
    exact (dedup_apart_iff.2 (hsame.perm hperm.symm)).sublist (limitOffset_sublist hlimited)

/-- Each route on its own condition. -/
lemma distinctApart_iff (hd : stmt.distinct = true) (hlen : rows.length < 2 ^ 63) :
    DistinctApart X rec src params schema stmt rows
      ↔ DistinctCondition X rec src params schema stmt rows := by
  unfold DistinctApart DistinctCondition Executor.runTail
  simp only []
  split_ifs with hgroup hagg hhaving hwindow
  · exact iff_of_true (fun _ _ _ _ h => aggregated_apart h) trivial
  · exact iff_of_true (fun _ _ _ _ h => by cases h) trivial
  · exact windowed_apart hd hlen
  · exact plain_apart hd hlen
  · exact grouped_apart hlen

end Routes

end Arkeion.Sql
