import Arkeion.Sql.GroupedOrder

/-!
A statement with groups on the same rows in another order.

The rows of the answer are the same exactly if each group gives the same row in every order of its
rows, or something fails in every order.
-/

namespace Arkeion.Sql

open Arkeion.Lib Catalog

/-! ### Answers in another order -/

/-- Both fail, or neither does and the results stand in the relation. -/
def Related {α β : Type} (R : α → β → Prop) (x : Result α) (y : Result β) : Prop :=
  ((∃ e, x = .error e) ∧ ∃ e, y = .error e) ∨ ∃ a b, x = .ok a ∧ y = .ok b ∧ R a b

namespace Related
variable {α β γ δ : Type} {R : α → β → Prop} {S : γ → δ → Prop} {x : Result α} {y : Result β}
  {f : α → Result γ} {g : β → Result δ}

lemma fail {e e' : Error} : Related R (.error e) (.error e') := Or.inl ⟨⟨e, rfl⟩, ⟨e', rfl⟩⟩

lemma of_ok {a : α} {b : β} (h : R a b) : Related R (.ok a) (.ok b) := Or.inr ⟨a, b, rfl, rfl, h⟩

lemma ok_right (h : Related R x y) {a : α} (hx : x = .ok a) : ∃ b, y = .ok b ∧ R a b := by
  rcases h with ⟨⟨e, he⟩, -⟩ | ⟨a', b, ha, hb, hab⟩
  · rw [hx] at he
    cases he
  · rw [hx] at ha
    cases ha
    exact ⟨b, hb, hab⟩

lemma ok_left (h : Related R x y) {b : β} (hy : y = .ok b) : ∃ a, x = .ok a ∧ R a b := by
  rcases h with ⟨-, ⟨e, he⟩⟩ | ⟨a, b', ha, hb, hab⟩
  · rw [hy] at he
    cases he
  · rw [hy] at hb
    cases hb
    exact ⟨a, ha, hab⟩

lemma of_agree {y : Result α} (h : Agree x y) : Related Eq x y := by
  rcases h with rfl | ⟨⟨e, rfl⟩, ⟨e', rfl⟩⟩
  · cases x with
    | ok a => exact of_ok rfl
    | error e => exact fail
  · exact fail

lemma bind (h : Related R x y) (hf : ∀ a b, x = .ok a → y = .ok b → R a b → Related S (f a) (g b)) :
    Related S (x >>= f) (y >>= g) := by
  rcases h with ⟨⟨e, rfl⟩, ⟨e', rfl⟩⟩ | ⟨a, b, rfl, rfl, hab⟩
  · exact fail
  · exact hf a b rfl rfl hab

/-- What is worked out for the elements in another order. -/
lemma mapM_perm {f : α → Result β} {l l' : List α} (h : l'.Perm l) :
    Related List.Perm (l'.mapM f) (l.mapM f) := by
  cases hl : l.mapM f with
  | ok bs =>
    obtain ⟨bs', hbs', hperm⟩ := Sql.mapM_perm h hl
    exact hbs' ▸ of_ok hperm
  | error e =>
    cases hl' : l'.mapM f with
    | error e' => exact fail
    | ok bs' =>
      obtain ⟨bs, hbs, -⟩ := Sql.mapM_perm h.symm hl'
      rw [hl] at hbs
      cases hbs

end Related

section Sorted
variable {B : Builtins} {descs : List Bool} {keys keys' : List (List Value)} {α : Type}
  {keyed keyed' : List (List Value × α)} {order_by : List OrderBy} {columns : List String}
  {rows rows' : List Row}

lemma checkKeys_iff : checkKeys B descs keys = .ok ()
    ↔ keys.Pairwise fun a b => ∃ o, cmpKeys B descs a b = .ok o := by
  induction keys with
  | nil => exact iff_of_true rfl List.Pairwise.nil
  | cons a keys ih =>
    rw [List.pairwise_cons, ← ih]
    constructor
    · intro h
      obtain ⟨os, hos, h⟩ := bind_eq_ok.1 h
      exact ⟨mapM_all_ok hos, h⟩
    · rintro ⟨hall, h⟩
      obtain ⟨os, hos⟩ := mapM_exists_ok hall
      exact bind_eq_ok.2 ⟨os, hos, h⟩

lemma checkKeys_perm (h : keys'.Perm keys) :
    checkKeys B descs keys' = .ok () ↔ checkKeys B descs keys = .ok () := by
  rw [checkKeys_iff, checkKeys_iff]
  refine h.pairwise_iff fun {a b} hab => ?_
  obtain ⟨o, ho⟩ := hab
  exact ⟨o.swap, cmpKeys_swap ho⟩

lemma sortKeyed_related (h : keyed'.Perm keyed) :
    Related List.Perm (sortKeyed B descs keyed') (sortKeyed B descs keyed) := by
  have hcheck : checkKeys B descs (keyed'.map Prod.fst) = .ok ()
      ↔ checkKeys B descs (keyed.map Prod.fst) = .ok () := checkKeys_perm (h.map Prod.fst)
  have hperm : ((keyed'.insertionSort (InOrder B descs)).map Prod.snd).Perm
      ((keyed.insertionSort (InOrder B descs)).map Prod.snd) :=
    ((List.perm_insertionSort _ keyed').trans (h.trans (List.perm_insertionSort _ keyed).symm)).map _
  unfold sortKeyed
  cases hok : checkKeys B descs (keyed.map Prod.fst) with
  | ok u =>
    rw [hcheck.2 hok]
    exact Related.of_ok hperm
  | error e =>
    cases hok' : checkKeys B descs (keyed'.map Prod.fst) with
    | error e' => exact Related.fail
    | ok u =>
      rw [hcheck.1 hok'] at hok
      cases hok

lemma sortOutput_related (h : rows'.Perm rows) : Related List.Perm
    (sortOutput B order_by columns rows') (sortOutput B order_by columns rows) := by
  unfold sortOutput
  split_ifs
  · exact Related.of_ok h
  · refine (Related.of_agree (Agree.self _)).bind fun idxs _ _ _ hidxs => ?_
    subst hidxs
    exact (Related.mapM_perm h).bind fun _ _ _ _ hkeyed => sortKeyed_related hkeyed

end Sorted

/-! ### The groups -/

section Groups
variable (X : Executor) (params : List Value) (schema : QuerySchema) (stmt : SelectStmt)
  (rows : List Row)

/-- The encoded key of a row. -/
def codeOf (row : Row) : List UInt8 :=
  match keyOf X.builtins schema params stmt.group_by row with
  | .ok key => encodeValues key
  | .error _ => []

/-- What is checked before the rows are looked at. -/
def groupChecks : Result Unit := do
  validateList schema stmt.group_by
  checkItems schema (collectList false stmt.group_by) stmt.projection
  checkHaving schema (collectList false stmt.group_by) stmt.having

/-- Every row has a key. -/
def KeysOk : Prop := ∀ row ∈ rows, ∃ k, keyOf X.builtins schema params stmt.group_by row = .ok k

variable {X params schema stmt rows} {rows' : List Row}

lemma addToGroup_eq {α : Type} (key : List UInt8) (r : α) (groups : List (List UInt8 × List α)) :
    addToGroup key r groups = addTo key r groups := by
  induction groups with
  | nil => rfl
  | cons g groups ih =>
    obtain ⟨k, group⟩ := g
    rw [addToGroup, addTo, ih]

lemma groupRows_groupedBy (h : KeysOk X params schema stmt rows) (before : List Row) :
    groupRows X.builtins schema params stmt.group_by rows
        (groupedBy (codeOf X params schema stmt) before)
      = .ok (groupedBy (codeOf X params schema stmt) (before ++ rows)) := by
  induction rows generalizing before with
  | nil => rw [List.append_nil, groupRows]
  | cons row rows ih =>
    obtain ⟨k, hk⟩ := h row List.mem_cons_self
    have hcode : codeOf X params schema stmt row = encodeValues k := by
      rw [codeOf, hk]
    change (keyOf X.builtins schema params stmt.group_by row >>= _) = _
    rw [hk, ok_bind, addToGroup_eq, ← hcode, addTo_groupedBy,
      ih (fun r hr => h r (List.mem_cons_of_mem row hr)), List.append_assoc]
    rfl

lemma keysOk_perm (h : rows'.Perm rows) :
    KeysOk X params schema stmt rows' ↔ KeysOk X params schema stmt rows :=
  forall_congr' fun _ => imp_congr_left h.mem_iff

lemma groupsOf_ok (hchecks : groupChecks schema stmt = .ok ()) (h : KeysOk X params schema stmt rows) :
    groupsOf X params schema stmt rows = .ok (groupedBy (codeOf X params schema stmt) rows) := by
  have hgroups := groupRows_groupedBy h []
  have hsplit : groupsOf X params schema stmt rows = groupChecks schema stmt >>= fun _ =>
      groupRows X.builtins schema params stmt.group_by rows [] := by
    simp only [groupsOf, groupChecks, bind_assoc]
  rw [hsplit, hchecks]
  exact hgroups

lemma groupsOf_fails (h : groupChecks schema stmt ≠ .ok () ∨ ¬ KeysOk X params schema stmt rows) :
    ∃ e, groupsOf X params schema stmt rows = .error e := by
  have hsplit : groupsOf X params schema stmt rows = groupChecks schema stmt >>= fun _ =>
      groupRows X.builtins schema params stmt.group_by rows [] := by
    simp only [groupsOf, groupChecks, bind_assoc]
  rw [hsplit]
  cases hchecks : groupChecks schema stmt with
  | error e => exact ⟨e, rfl⟩
  | ok u =>
    rw [ok_bind]
    cases hks : rows.mapM (keyOf X.builtins schema params stmt.group_by) with
    | error e => exact ⟨e, groupRows_error hks⟩
    | ok ks =>
      rcases h with h | h
      · exact absurd hchecks h
      · exact absurd (mapM_all_ok hks) h

end Groups

/-! ### The whole statement -/

section Whole
variable (X : Executor) (params : List Value) (schema : QuerySchema) (stmt : SelectStmt)
  (rows : List Row)

/-- The same columns and, in some order, the same rows. -/
def SameAnswer (out' out : SelectOut) : Prop := out'.columns = out.columns ∧ out'.rows.Perm out.rows

/-- The answer is one in every order of the rows, up to the order of its own rows. -/
def GroupedFree : Prop := ∀ rows', rows'.Perm rows → Related SameAnswer
  (runGrouped X.builtins schema params stmt rows') (runGrouped X.builtins schema params stmt rows)

def FailsAlways : Prop := ∀ rows', rows'.Perm rows →
  ∃ e, runGrouped X.builtins schema params stmt rows' = .error e

/-- The group gives one row in every order of its rows. -/
def GroupFree (group : List Row) : Prop := ∀ group', group'.Perm group →
  Agree (groupRow X.builtins schema params stmt group') (groupRow X.builtins schema params stmt group)

def GroupsFree : Prop := ∀ groups, groupsOf X params schema stmt rows = .ok groups →
  ∀ g ∈ groups, GroupFree X params schema stmt g.2

/-- `OFFSET` and `LIMIT` leave as many rows as there are. -/
def Uncut : Prop := offsetOf X.builtins stmt params = .ok 0 ∧
  ∃ limit, limitOf X.builtins stmt params = .ok limit ∧ rows.length ≤ limit

/-- The rows that the groups give, in order and cut. -/
def finishGroups (out : List (Option Row)) : Result (List Row) := do
  let sorted ← sortOutput X.builtins stmt.order_by (stmt.projection.mapIdx outputName) (out.filterMap id)
  limitOffset X.builtins sorted stmt params

/-- In another order, the groups' rows are cut to the same ones. -/
def CutFree : Prop := ∀ groups out, groupsOf X params schema stmt rows = .ok groups →
  (groups.mapM fun g => groupRow X.builtins schema params stmt g.2) = .ok out →
  ∀ out', out'.Perm out →
    Related List.Perm (finishGroups X params stmt out') (finishGroups X params stmt out)

variable {X params schema stmt rows} {rows' : List Row}

/-- The rows of the groups. -/
def groupRowsOf (X : Executor) (params : List Value) (schema : QuerySchema) (stmt : SelectStmt)
    (groups : List (List UInt8 × List Row)) : Result (List (Option Row)) :=
  groups.mapM fun g => groupRow X.builtins schema params stmt g.2

lemma runGrouped_finish : runGrouped X.builtins schema params stmt rows
    = groupsOf X params schema stmt rows >>= fun groups => groupRowsOf X params schema stmt groups >>=
      fun out => finishGroups X params stmt out >>= fun limited =>
        .ok ⟨stmt.projection.mapIdx outputName, limited⟩ := by
  rw [runGrouped_eq]
  simp only [groupRowsOf, finishGroups, bind_assoc]

/-- The groups of a statement that passes its checks, in every order of the rows. -/
lemma groupsOf_orders {groups : List (List UInt8 × List Row)}
    (h : groupsOf X params schema stmt rows = .ok groups) :
    groups = groupedBy (codeOf X params schema stmt) rows ∧ ∀ rows', rows'.Perm rows →
      groupsOf X params schema stmt rows' = .ok (groupedBy (codeOf X params schema stmt) rows') := by
  have hchecks : groupChecks schema stmt = .ok () ∧ KeysOk X params schema stmt rows := by
    by_contra hno
    obtain ⟨e, he⟩ := groupsOf_fails (not_and_or.1 hno)
    rw [h] at he
    cases he
  refine ⟨?_, fun rows' hperm => groupsOf_ok hchecks.1 ((keysOk_perm hperm).2 hchecks.2)⟩
  rw [groupsOf_ok hchecks.1 hchecks.2] at h
  exact (Except.ok.inj h).symm

lemma groupsOf_error (h : ∀ groups, groupsOf X params schema stmt rows ≠ .ok groups) :
    FailsAlways X params schema stmt rows := by
  intro rows' hperm
  rw [runGrouped_finish]
  cases hgroups : groupsOf X params schema stmt rows' with
  | error e => exact ⟨e, rfl⟩
  | ok groups => exact absurd ((groupsOf_orders hgroups).2 rows hperm.symm) (h _)

/-- Groups that give one row each, in another order, give the same rows in another order. -/
lemma groupRowsOf_perm (hfree : ∀ g ∈ groupedBy (codeOf X params schema stmt) rows,
    GroupFree X params schema stmt g.2) (hperm : rows'.Perm rows) :
    Related List.Perm (groupRowsOf X params schema stmt (groupedBy (codeOf X params schema stmt) rows'))
      (groupRowsOf X params schema stmt (groupedBy (codeOf X params schema stmt) rows)) := by
  obtain ⟨gs, hgs, hsame⟩ := groupedBy_perm (f := codeOf X params schema stmt) hperm
  have hagree : Agree (groupRowsOf X params schema stmt gs)
      (groupRowsOf X params schema stmt (groupedBy (codeOf X params schema stmt) rows)) := by
    clear hgs
    generalize groupedBy (codeOf X params schema stmt) rows = groups at hsame hfree
    induction hsame with
    | nil => exact Agree.self _
    | @cons g g' _ _ hg _ ih =>
      have hfirst := hfree g' List.mem_cons_self g.2 hg.2
      have hrest := ih fun g hg => hfree g (List.mem_cons_of_mem g' hg)
      rw [groupRowsOf, groupRowsOf, List.mapM_cons, List.mapM_cons]
      exact hfirst.bind fun _ _ => hrest.bind fun _ _ => Agree.self _
  have horder : Related List.Perm
      (groupRowsOf X params schema stmt (groupedBy (codeOf X params schema stmt) rows'))
      (groupRowsOf X params schema stmt gs) := Related.mapM_perm hgs.symm
  rcases hagree with heq | ⟨⟨e, he⟩, ⟨e', he'⟩⟩
  · rwa [← heq]
  · rw [he] at horder
    rw [he']
    rcases horder with ⟨⟨e'', he''⟩, -⟩ | ⟨a, b, -, hb, -⟩
    · rw [he'']
      exact Related.fail
    · cases hb

lemma finish_uncut {out : List (Option Row)} (h : Uncut X params stmt rows)
    (hlen : out.length ≤ rows.length) : finishGroups X params stmt out
      = sortOutput X.builtins stmt.order_by (stmt.projection.mapIdx outputName) (out.filterMap id) := by
  obtain ⟨hoffset, limit, hlimit, hle⟩ := h
  unfold finishGroups limitOffset
  rw [hoffset, hlimit]
  cases hsorted : sortOutput X.builtins stmt.order_by (stmt.projection.mapIdx outputName)
      (out.filterMap id) with
  | error e => rfl
  | ok sorted =>
    have hsome := List.length_filterMap_le id out
    have hperm := (sortOutput_perm hsorted).length_eq
    have htake : (sorted.drop 0).take limit = sorted := by
      rw [List.drop_zero]
      exact List.take_of_length_le (by omega)
    exact congrArg Except.ok htake

lemma groupRowsOf_length {out : List (Option Row)}
    (h : groupRowsOf X params schema stmt (groupedBy (codeOf X params schema stmt) rows) = .ok out) :
    out.length ≤ rows.length := by
  have hlen : (groupedBy (codeOf X params schema stmt) rows).length ≤ rows.length := by
    rw [groupedBy, List.length_map]
    exact firsts_sublist.length_le.trans_eq (List.length_map _)
  rw [← (mapM_eq_ok.1 h).length_eq]
  exact hlen

/-- What one statement gives for its groups, in any order of the rows. -/
lemma runGrouped_ok {answer : SelectOut} (h : runGrouped X.builtins schema params stmt rows = .ok answer) :
    ∃ out, groupsOf X params schema stmt rows = .ok (groupedBy (codeOf X params schema stmt) rows) ∧
      groupRowsOf X params schema stmt (groupedBy (codeOf X params schema stmt) rows) = .ok out ∧
      finishGroups X params stmt out = .ok answer.rows := by
  rw [runGrouped_finish] at h
  obtain ⟨groups, hgroups, h⟩ := bind_eq_ok.1 h
  obtain ⟨out, hout, h⟩ := bind_eq_ok.1 h
  obtain ⟨limited, hlimited, h⟩ := bind_eq_ok.1 h
  cases h
  have hgrouped := (groupsOf_orders hgroups).1
  rw [hgrouped] at hgroups hout
  exact ⟨out, hgroups, hout, hlimited⟩

lemma perm_middle {o o' : Option Row} {l r : List (Option Row)}
    (h : ((l ++ o' :: r).filterMap id).Perm ((l ++ o :: r).filterMap id)) : o' = o := by
  have hcons (o : Option Row) : (l ++ o :: r).filterMap id
      = l.filterMap id ++ (o.toList ++ r.filterMap id) := by
    rw [List.filterMap_append]
    cases o <;> rfl
  rw [hcons, hcons, List.perm_append_left_iff, List.perm_append_right_iff] at h
  cases o with
  | none => cases o' with
    | none => rfl
    | some row' => exact absurd h.length_eq (by simp)
  | some row => cases o' with
    | none => exact absurd h.length_eq (by simp)
    | some row' => exact congrArg some (List.singleton_perm_singleton.1 h)

/-- If nothing is cut, what is seen of a group is its row. -/
lemma groupsFree_of_uncut (huncut : Uncut X params stmt rows)
    (hfree : GroupedFree X params schema stmt rows)
    (hok : ¬ FailsAlways X params schema stmt rows) : GroupsFree X params schema stmt rows := by
  intro groups hgroups g hg group' hgroup'
  obtain ⟨answer, hanswer⟩ : ∃ answer, runGrouped X.builtins schema params stmt rows = .ok answer := by
    cases hrun : runGrouped X.builtins schema params stmt rows with
    | ok answer => exact ⟨answer, rfl⟩
    | error e =>
      refine absurd (fun rows' hperm => ?_) hok
      rcases hfree rows' hperm with ⟨hfails, -⟩ | ⟨_, _, -, hrun', -⟩
      · exact hfails
      · rw [hrun] at hrun'
        cases hrun'
  obtain ⟨out, -, hout, hfinish⟩ := runGrouped_ok hanswer
  rw [(groupsOf_orders hgroups).1] at hg
  obtain ⟨left, right, hsplit⟩ := List.append_of_mem hg
  -- the same rows, with those of one group in another order
  have hsame : List.Forall₂ SameGroup (left ++ (g.1, group') :: right)
      (groupedBy (codeOf X params schema stmt) rows) := by
    have hself (gs : List (List UInt8 × List Row)) : List.Forall₂ SameGroup gs gs :=
      List.forall₂_same.2 fun _ _ => ⟨rfl, List.Perm.refl _⟩
    rw [hsplit]
    exact List.rel_append (hself left) (.cons ⟨rfl, hgroup'⟩ (hself right))
  obtain ⟨hgrouped, hperm⟩ := groupedBy_of_same hsame
  obtain ⟨answer', hanswer', hrows⟩ : ∃ answer', runGrouped X.builtins schema params stmt
      ((left ++ (g.1, group') :: right).flatMap Prod.snd) = .ok answer' ∧ SameAnswer answer' answer :=
    (hfree _ hperm).ok_left hanswer
  obtain ⟨out', -, hout', hfinish'⟩ := runGrouped_ok hanswer'
  have hlen := groupRowsOf_length hout
  have hlen' : out'.length ≤ rows.length := hperm.length_eq ▸ groupRowsOf_length hout'
  rw [finish_uncut huncut hlen] at hfinish
  rw [finish_uncut huncut hlen'] at hfinish'
  have hgiven : (out'.filterMap id).Perm (out.filterMap id) :=
    (sortOutput_perm hfinish').symm.trans (hrows.2.trans (sortOutput_perm hfinish))
  rw [hgrouped, groupRowsOf, List.mapM_append, List.mapM_cons] at hout'
  rw [hsplit, groupRowsOf, List.mapM_append, List.mapM_cons] at hout
  obtain ⟨l', hl', hout'⟩ := bind_eq_ok.1 hout'
  obtain ⟨mr', hmr', hout'⟩ := bind_eq_ok.1 hout'
  obtain ⟨o', ho', hmr'⟩ := bind_eq_ok.1 hmr'
  obtain ⟨r', hr', hmr'⟩ := bind_eq_ok.1 hmr'
  obtain ⟨l, hl, hout⟩ := bind_eq_ok.1 hout
  obtain ⟨mr, hmr, hout⟩ := bind_eq_ok.1 hout
  obtain ⟨o, ho, hmr⟩ := bind_eq_ok.1 hmr
  obtain ⟨r, hr, hmr⟩ := bind_eq_ok.1 hmr
  rw [hl] at hl'
  rw [hr] at hr'
  cases hl'
  cases hr'
  cases hmr
  cases hmr'
  cases hout
  cases hout'
  rw [perm_middle hgiven] at ho'
  rw [ho', ho]
  exact Agree.self _

lemma related_answer {columns : List String} {x y : Result (List Row)} :
    Related SameAnswer (x >>= fun rows => .ok ⟨columns, rows⟩) (y >>= fun rows => .ok ⟨columns, rows⟩)
      ↔ Related List.Perm x y := by
  constructor
  · intro h
    cases x with
    | error e => cases y with
      | error e' => exact Related.fail
      | ok rows =>
        obtain ⟨_, hfails, -⟩ := h.ok_left rfl
        cases hfails
    | ok rows' =>
      obtain ⟨answer, hanswer, -, hperm⟩ := h.ok_right rfl
      obtain ⟨rows, rfl, hrows⟩ := bind_eq_ok.1 hanswer
      cases hrows
      exact Related.of_ok hperm
  · exact fun h => h.bind fun _ _ _ _ hperm => Related.of_ok ⟨rfl, hperm⟩

/-- If each group gives one row, only what is cut depends on the order. -/
theorem groupedFree_iff_cut (hfree : GroupsFree X params schema stmt rows) :
    GroupedFree X params schema stmt rows ↔ CutFree X params schema stmt rows := by
  constructor
  · intro h groups out hgroups hout out' hperm
    obtain ⟨groups', hout', hgroups'⟩ := List.perm_comp_forall₂ hperm (mapM_eq_ok.1 hout).flip
    have hgroup := (groupsOf_orders hgroups).1
    rw [hgroup] at hgroups'
    obtain ⟨hgrouped, hrows⟩ := groupedBy_of_perm hgroups'
    have hrelated := h _ hrows
    rw [runGrouped_finish, runGrouped_finish, (groupsOf_orders hgroups).2 _ hrows, hgroups, ok_bind,
      ok_bind, hgrouped, groupRowsOf, groupRowsOf, hout, mapM_eq_ok.2 hout'.flip, ok_bind, ok_bind,
      related_answer] at hrelated
    exact hrelated
  · intro hcut rows' hperm
    by_cases hok : ∃ groups, groupsOf X params schema stmt rows = .ok groups
    · obtain ⟨groups, hgroups⟩ := hok
      obtain ⟨hgrouped, hall⟩ := groupsOf_orders hgroups
      have hrest := hcut groups
      rw [runGrouped_finish, runGrouped_finish, hall rows' hperm, hgroups, ok_bind, ok_bind]
      subst hgrouped
      refine (groupRowsOf_perm (hfree _ hgroups) hperm).bind fun out' out _ hout hperm' => ?_
      exact related_answer.2 (hrest out hgroups hout out' hperm')
    · have hfails := groupsOf_error (not_exists.1 hok)
      exact Or.inl ⟨hfails rows' hperm, hfails rows (List.Perm.refl rows)⟩

/-- If nothing is cut, the answer is one in every order of the rows exactly if each group gives one
row, unless the statement fails in every order. -/
theorem groupedFree_iff_uncut (huncut : Uncut X params stmt rows) :
    GroupedFree X params schema stmt rows
      ↔ FailsAlways X params schema stmt rows ∨ GroupsFree X params schema stmt rows := by
  constructor
  · intro h
    by_cases hfails : FailsAlways X params schema stmt rows
    · exact Or.inl hfails
    · exact Or.inr (groupsFree_of_uncut huncut h hfails)
  · rintro (hfails | hfree)
    · exact fun rows' hperm => Or.inl ⟨hfails rows' hperm, hfails rows (List.Perm.refl rows)⟩
    · rw [groupedFree_iff_cut hfree]
      intro groups out hgroups hout out' hperm
      rw [(groupsOf_orders hgroups).1] at hout
      have hlen : out.length ≤ rows.length := groupRowsOf_length hout
      rw [finish_uncut huncut hlen, finish_uncut huncut (hperm.length_eq ▸ hlen)]
      exact sortOutput_related (hperm.filterMap id)

end Whole

end Arkeion.Sql
