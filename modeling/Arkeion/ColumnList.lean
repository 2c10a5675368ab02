import Arkeion.SchemaHistory
import Arkeion.TableScanSpec

/-!
The columns of a table as a list of names.

What is seen of a table is the names of the columns that are not dropped, in their logical order. A
statement that changes the columns should succeed exactly if it makes sense on that list, and then
the list is the one it describes.
-/

namespace Arkeion.Catalog

open Arkeion.Lib

namespace TableDef

/-! ### The names that are seen -/

section Names
variable (d : TableDef)

/-- The name of a column that is not dropped. -/
def shownName (i : ℕ) : Option String :=
  d.columns[i]?.bind fun c => if c.dropped then none else some c.name

/-- The names in their logical order. -/
def names : List String := d.logical_order.filterMap d.shownName

variable {d} {d' : TableDef} {i j : ℕ} {name : String} {c : ColumnDef}

lemma shownName_eq_some : d.shownName i = some name ↔ ∃ c, d.Shows i c ∧ c.name = name := by
  rw [shownName, Option.bind_eq_some_iff]
  constructor
  · rintro ⟨c, hc, hname⟩
    by_cases hdropped : c.dropped = true
    · rw [if_pos hdropped] at hname
      cases hname
    · rw [if_neg hdropped, Option.some.injEq] at hname
      exact ⟨c, ⟨hc, by simpa using hdropped⟩, hname⟩
  · rintro ⟨c, hc, hname⟩
    refine ⟨c, hc.1, ?_⟩
    rw [hc.2, hname]
    rfl

/-- A name is that of one column at most. -/
lemma WellNamed.shownName_inj (hd : d.WellNamed) (hi : d.shownName i = some name)
    (hj : d.shownName j = some name) : i = j := by
  obtain ⟨c, hc, hname⟩ := shownName_eq_some.1 hi
  obtain ⟨c', hc', hname'⟩ := shownName_eq_some.1 hj
  exact hd.unique i j c c' hc hc' (hname.trans hname'.symm)

lemma WellNamed.visible_iff (hd : d.WellNamed) : d.visible name = some i ↔ d.shownName i = some name := by
  rw [shownName_eq_some]
  constructor
  · exact shows_of_visible
  · rintro ⟨c, hc, rfl⟩
    exact hd.visible_eq hc

lemma shownName_lt (h : d.shownName i = some name) : i < d.columns.length := by
  obtain ⟨c, hc, -⟩ := shownName_eq_some.1 h
  exact (List.getElem?_eq_some_iff.1 hc.1).1

lemma WellNamed.mem_names (hd : d.WellNamed) : name ∈ d.names ↔ ∃ i, d.visible name = some i := by
  simp only [names, List.mem_filterMap, hd.visible_iff]
  constructor
  · rintro ⟨i, -, hi⟩
    exact ⟨i, hi⟩
  · rintro ⟨i, hi⟩
    exact ⟨i, d.mem_logical (shownName_lt hi), hi⟩

lemma WellNamed.not_mem_names (hd : d.WellNamed) : name ∉ d.names ↔ d.visible name = none := by
  rw [hd.mem_names, Option.eq_none_iff_forall_ne_some, not_exists]

lemma WellNamed.names_nodup (hd : d.WellNamed) : d.names.Nodup :=
  d.logical_nodup.filterMap fun _ _ _ hi hj => hd.shownName_inj hi hj

/-- The names in any order of the columns are those that are seen. -/
lemma names_perm {order : List ℕ} (h : order.Perm (List.range d.columns.length)) :
    (order.filterMap d.shownName).Perm d.names :=
  (h.trans d.logical.symm).filterMap _

/-- What the elements of a list give, by their positions. -/
lemma filterMap_range {α β : Type} (g : α → Option β) (l : List α) :
    ((List.range l.length).filterMap fun i => l[i]?.bind g) = l.filterMap g := by
  induction l using List.reverseRecOn with
  | nil => rfl
  | append_singleton l a ih =>
    have hbefore : ∀ i ∈ List.range l.length, (l ++ [a])[i]?.bind g = l[i]?.bind g := fun i hi => by
      rw [List.getElem?_append_left (List.mem_range.1 hi)]
    rw [List.length_append, List.length_singleton, List.range_succ, List.filterMap_append,
      List.filterMap_congr hbefore, ih, List.filterMap_append]
    refine congrArg (l.filterMap g ++ ·) ?_
    rw [List.filterMap_cons, List.filterMap_cons, List.getElem?_concat_length]
    rfl

lemma length_names (d : TableDef) : d.names.length = d.columns.countP fun c => !c.dropped := by
  have hlength (l : List ColumnDef) :
      (l.filterMap fun c => if c.dropped then none else some c.name).length
        = l.countP fun c => !c.dropped := by
    induction l with
    | nil => rfl
    | cons c l ih =>
      rw [List.countP_cons, ← ih]
      cases hc : c.dropped <;> simp [hc]
  rw [← (names_perm (List.Perm.refl _)).length_eq, ← hlength,
    ← filterMap_range (fun c : ColumnDef => if c.dropped then none else some c.name) d.columns]
  rfl

/-- The first column of a name is seen exactly if the name denotes it. -/
lemma WellNamed.named_shown (hd : d.WellNamed) (h : d.named name = some i) :
    (∃ c, d.Shows i c) ↔ d.visible name = some i := by
  obtain ⟨⟨c, hc, rfl⟩, -⟩ := named_eq_some.1 h
  constructor
  · rintro ⟨c', hc'⟩
    have hsame : c = c' := Option.some.inj (hc.symm.trans hc'.1)
    subst hsame
    exact hd.visible_eq hc'
  · intro hvisible
    obtain ⟨c', hc', -⟩ := shows_of_visible hvisible
    exact ⟨c', hc'⟩

/-- Without dropped columns, a name is looked up among those that are seen. -/
lemma WellNamed.named_eq_visible (hd : d.WellNamed) (h : ∀ c ∈ d.columns, c.dropped = false) :
    d.named name = d.visible name := by
  cases hnamed : d.named name with
  | none => exact (visible_eq_none.2 fun c hc _ => named_eq_none.1 hnamed c hc).symm
  | some i =>
    obtain ⟨⟨c, hc, -⟩, -⟩ := named_eq_some.1 hnamed
    exact ((hd.named_shown hnamed).1 ⟨c, hc, h c (List.mem_of_getElem? hc)⟩).symm

end Names

/-! ### Statements on the list -/

/-- The column stands in an index of any kind. -/
def Indexed (d : TableDef) (i : ℕ) : Prop :=
  (∃ idx ∈ d.indexes, i ∈ idx.columns) ∨ (∃ fts ∈ d.fts_indexes, i ∈ fts.columns) ∨
    ∃ vi ∈ d.vector_indexes, vi.column = i

/-- The column must stay: it is the primary key, or in an index or a foreign key. -/
def Bound (d : TableDef) (name : String) : Prop := ∃ i, d.visible name = some i ∧
  (d.rowid_alias = some i ∨ d.Indexed i ∨ ∃ fk ∈ d.foreign_keys, i ∈ fk.columns)

end TableDef

/-- The column that a place is next to. -/
def ColumnPos.reference : ColumnPos → Option String
  | .first => none
  | .before name | .after name => some name

namespace TableChange

/-- The statements that change the columns. -/
def OnColumns : TableChange → Prop
  | .addColumn _ | .moveColumn .. | .reorderColumns _ | .renameColumn .. | .dropColumn _ => True
  | _ => False

def NameOk (name : String) : Prop := name ≠ "" ∧ (utf8 name).length ≤ MAX_NAME_LEN

/-- The statement makes sense on the columns that are seen. -/
def Meaningful (d : TableDef) : TableChange → Prop
  | .addColumn column => column.primary_key = false ∧ NameOk column.name ∧ column.name ∉ d.names ∧
    d.names.length < MAX_COLUMNS ∧ ¬ (column.not_null = true ∧ column.default = none)
  | .moveColumn column pos => column ∈ d.names ∧ ∀ name ∈ pos.reference, name ∈ d.names ∧ name ≠ column
  | .reorderColumns order => order.Perm d.names
  | .renameColumn old new => NameOk new ∧ old ∈ d.names ∧ new ∉ d.names
  | .dropColumn column => column ∈ d.names ∧ 1 < d.names.length ∧ ¬ d.Bound column
  | _ => False

/-- The list that the statement describes. -/
def described (names : List String) : TableChange → List String
  | .addColumn column => names ++ [column.name]
  | .moveColumn column .first => column :: names.filter (· ≠ column)
  | .moveColumn column (.before name) =>
    (names.filter (· ≠ column)).insertIdx ((names.filter (· ≠ column)).idxOf name) column
  | .moveColumn column (.after name) =>
    (names.filter (· ≠ column)).insertIdx ((names.filter (· ≠ column)).idxOf name + 1) column
  | .reorderColumns order => order
  | .renameColumn old new => names.map fun name => if name = old then new else name
  | .dropColumn column => names.filter (· ≠ column)
  | _ => names

end TableChange

namespace TableDef
variable {d d' : TableDef} {i j phys : ℕ} {name col old new : String}

/-! ### One statement after the other -/

lemma apply_addColumn {c : ColumnSpec} : d.apply (.addColumn c) = .ok d' ↔
    (c.primary_key = false ∧ TableChange.NameOk c.name ∧ (∀ c' ∈ d.columns, c'.name ≠ c.name) ∧
      d.columns.length < MAX_COLUMNS ∧ ¬ (c.not_null = true ∧ c.default = none)) ∧
    d' = { d with
      columns := d.columns ++ [c.toDef]
      logical_order := d.logical_order ++ [d.columns.length]
      alias_lt := d.alias_append c.toDef
      logical := d.logical_append c.toDef } := by
  simp only [apply, addColumn, validateName, bind_eq_ok, require_eq_ok]
  constructor
  · rintro ⟨-, hkey, -, hname, -, hnew, -, hsize, -, hnull, h⟩
    cases h
    refine ⟨⟨hkey, hname, hnew, hsize, ?_⟩, rfl⟩
    rwa [ColumnSpec.toDef, hkey, Bool.or_false] at hnull
  · rintro ⟨⟨hkey, hname, hnew, hsize, hnull⟩, rfl⟩
    refine ⟨(), hkey, (), hname, (), hnew, (), hsize, (), ?_, rfl⟩
    rwa [ColumnSpec.toDef, hkey, Bool.or_false]

lemma names_addColumn {c : ColumnSpec} (h : d.apply (.addColumn c) = .ok d') :
    d'.names = d.names ++ [c.name] := by
  obtain ⟨-, rfl⟩ := apply_addColumn.1 h
  have hold : ∀ i ∈ d.logical_order, shownName { d with
      columns := d.columns ++ [c.toDef]
      logical_order := d.logical_order ++ [d.columns.length]
      alias_lt := d.alias_append c.toDef
      logical := d.logical_append c.toDef } i = d.shownName i := by
    intro i hi
    rw [shownName, shownName, List.getElem?_append_left (d.logical_lt hi)]
  rw [names, List.filterMap_append, List.filterMap_congr hold]
  refine congrArg (d.names ++ ·) ?_
  rw [List.filterMap_cons, shownName, List.getElem?_concat_length]
  rfl

/-- The column at a position is seen as it is, or not at all, after it is changed. -/
lemma shownName_change {f : ColumnDef → ColumnDef} : (d.change phys f).shownName i
    = if phys = i then (d.columns[i]?.map f).bind fun c => if c.dropped then none else some c.name
      else d.shownName i := by
  rw [shownName, change, List.getElem?_modify]
  split_ifs with h
  · rfl
  · rw [shownName]
    cases d.columns[i]? <;> rfl

lemma apply_renameColumn : d.apply (.renameColumn old new) = .ok d' ↔
    TableChange.NameOk new ∧ ∃ phys, d.visible old = some phys ∧ d.visible new = none ∧
      d' = d.change phys fun c => { c with name := new } := by
  simp only [apply, renameColumn, validateName, bind_eq_ok, require_eq_ok, okOr_eq_ok]
  constructor
  · rintro ⟨-, hname, phys, hphys, -, hnew, h⟩
    cases h
    exact ⟨hname, phys, hphys, hnew, rfl⟩
  · rintro ⟨hname, phys, hphys, hnew, rfl⟩
    exact ⟨(), hname, phys, hphys, (), hnew, rfl⟩

lemma names_renameColumn (hd : d.WellNamed) (h : d.apply (.renameColumn old new) = .ok d') :
    d'.names = d.names.map fun name => if name = old then new else name := by
  obtain ⟨-, phys, hphys, -, rfl⟩ := apply_renameColumn.1 h
  have hname : ∀ i ∈ d.logical_order, (d.change phys fun c => { c with name := new }).shownName i
      = (d.shownName i).map fun name => if name = old then new else name := by
    intro i _
    rw [shownName_change]
    split_ifs with hi
    · subst hi
      obtain ⟨c, hc, rfl⟩ := shownName_eq_some.1 (hd.visible_iff.1 hphys)
      rw [hd.visible_iff.1 hphys, hc.1]
      simp [hc.2]
    · cases hshown : d.shownName i with
      | none => rfl
      | some name =>
        have hne : name ≠ old := by
          rintro rfl
          exact hi (hd.shownName_inj (hd.visible_iff.1 hphys) hshown)
        rw [Option.map_some, if_neg hne]
  have hmap := List.map_filterMap (f := d.shownName) (g := fun name => if name = old then new else name)
    (l := d.logical_order)
  rw [names, names, hmap]
  exact List.filterMap_congr hname

/-- The names without one are those of the columns without that of the name. -/
lemma WellNamed.names_without (hd : d.WellNamed) (hphys : d.visible col = some phys) :
    (d.logical_order.filter (· != phys)).filterMap d.shownName = d.names.filter (· ≠ col) := by
  rw [names, List.filter_filterMap, List.filterMap_filter]
  refine List.filterMap_congr fun i _ => ?_
  cases hshown : d.shownName i with
  | none => simp
  | some name =>
    by_cases hi : i = phys
    · subst hi
      have hname : name = col := by
        rw [hd.visible_iff.1 hphys] at hshown
        exact (Option.some.inj hshown).symm
      simp [Option.filter, hname]
    · have hname : name ≠ col := by
        rintro rfl
        exact hi (hd.shownName_inj hshown (hd.visible_iff.1 hphys))
      simp [Option.filter, hi, hname]

lemma apply_dropColumn : d.apply (.dropColumn col) = .ok d' ↔ ∃ phys, d.visible col = some phys ∧
    d.rowid_alias ≠ some phys ∧ 1 < d.names.length ∧ (∀ idx ∈ d.indexes, phys ∉ idx.columns) ∧
    (∀ fk ∈ d.foreign_keys, phys ∉ fk.columns) ∧ d' = d.change phys fun c => { c with dropped := true } := by
  rw [length_names]
  simp only [apply, dropColumn, bind_eq_ok, require_eq_ok, okOr_eq_ok]
  constructor
  · rintro ⟨phys, hphys, -, hkey, -, hmany, -, hindexes, -, hkeys, h⟩
    cases h
    exact ⟨phys, hphys, hkey, hmany, hindexes, hkeys, rfl⟩
  · rintro ⟨phys, hphys, hkey, hmany, hindexes, hkeys, rfl⟩
    exact ⟨phys, hphys, (), hkey, (), hmany, (), hindexes, (), hkeys, rfl⟩

lemma names_dropColumn (hd : d.WellNamed) (h : d.apply (.dropColumn col) = .ok d') :
    d'.names = d.names.filter (· ≠ col) := by
  obtain ⟨phys, hphys, -, -, -, -, rfl⟩ := apply_dropColumn.1 h
  rw [← hd.names_without hphys, List.filterMap_filter]
  refine List.filterMap_congr fun i _ => ?_
  rw [shownName_change]
  by_cases hi : phys = i
  · rw [if_pos hi, if_neg (by simp [hi])]
    cases d.columns[i]? <;> rfl
  · rw [if_neg hi, if_pos (by simpa using Ne.symm hi)]

/-! ### Moving -/

/-- An element put in before another one, or behind it. -/
def nextTo {α : Type} (a b : α) (past : ℕ) (l r : List α) : List α :=
  if past = 0 then l ++ a :: b :: r else l ++ b :: a :: r

lemma insertIdx_next {α : Type} [DecidableEq α] {a b : α} {l r : List α} (h : b ∉ l) {past : ℕ}
    (hpast : past ≤ 1) : (l ++ b :: r).insertIdx ((l ++ b :: r).idxOf b + past) a = nextTo a b past l r := by
  have hidx : (l ++ b :: r).idxOf b = l.length := by
    rw [List.idxOf_append_of_notMem h, List.idxOf_cons_self, Nat.add_zero]
  rw [hidx, nextTo]
  clear hidx h
  induction l with
  | nil =>
    obtain rfl | rfl : past = 0 ∨ past = 1 := by omega
    · rfl
    · rfl
  | cons c l ih =>
    rw [List.length_cons, Nat.add_right_comm, List.cons_append, List.insertIdx_succ_cons, ih]
    split_ifs <;> rfl

/-- A column put in before or behind another one is so on the list of names. -/
lemma names_next (hd : d.WellNamed) (hphys : d.visible col = some phys) (hname : d.visible name = some i)
    (hne : i ≠ phys) {past : ℕ} (hpast : past ≤ 1) :
    (d.moved phys ((d.logical_order.filter (· != phys)).idxOf i + past)).filterMap d.shownName
      = (d.names.filter (· ≠ col)).insertIdx ((d.names.filter (· ≠ col)).idxOf name + past) col := by
  have hin : i ∈ d.logical_order.filter (· != phys) := List.mem_filter.2
    ⟨d.mem_logical (visible_lt hname), by simpa using hne⟩
  obtain ⟨l, r, hsplit, hnot⟩ := List.eq_append_cons_of_mem hin
  have hi := hd.visible_iff.1 hname
  have hcol := hd.visible_iff.1 hphys
  have hnames : d.names.filter (· ≠ col) = l.filterMap d.shownName ++ name :: r.filterMap d.shownName := by
    rw [← hd.names_without hphys, hsplit, List.filterMap_append, List.filterMap_cons_some hi]
  have hfresh : name ∉ l.filterMap d.shownName := by
    intro hmem
    obtain ⟨j, hj, hjn⟩ := List.mem_filterMap.1 hmem
    exact hnot (hd.shownName_inj hjn hi ▸ hj)
  rw [moved, hsplit, insertIdx_next hnot hpast, hnames, insertIdx_next hfresh hpast, nextTo, nextTo]
  split_ifs
  · rw [List.filterMap_append, List.filterMap_cons_some hcol, List.filterMap_cons_some hi]
  · rw [List.filterMap_append, List.filterMap_cons_some hi, List.filterMap_cons_some hcol]

lemma idxOf?_of_mem {α : Type} [DecidableEq α] {a : α} {l : List α} (h : a ∈ l) :
    l.idxOf? a = some (l.idxOf a) := by
  induction l with
  | nil => cases h
  | cons b l ih =>
    rw [List.idxOf?_cons, List.idxOf_cons]
    by_cases hb : (b == a) = true
    · rw [if_pos hb, hb]
      rfl
    · rw [if_neg hb, ih ((List.mem_cons.1 h).resolve_left fun heq => hb (by simp [heq])),
        Bool.eq_false_iff.2 hb]
      rfl

/-- The place of a reference that is a column, and not the one that is moved. -/
lemma placeOf_eq {past at_ : ℕ} (hcol : d.named col = some phys) :
    d.placeOf col phys name past = .ok at_ ↔ name ≠ col ∧ ∃ i, d.named name = some i ∧ i ≠ phys ∧
      at_ = (d.logical_order.filter (· != phys)).idxOf i + past := by
  have hmem {i : ℕ} (hi : d.named name = some i) (hne : i ≠ phys) :
      i ∈ d.logical_order.filter (· != phys) :=
    List.mem_filter.2 ⟨d.mem_logical (named_lt hi), by simpa using hne⟩
  have hother {i : ℕ} (hi : d.named name = some i) (hne : name ≠ col) : i ≠ phys := by
    rintro rfl
    obtain ⟨⟨c, hc, rfl⟩, -⟩ := named_eq_some.1 hi
    obtain ⟨⟨c', hc', rfl⟩, -⟩ := named_eq_some.1 hcol
    exact hne (congrArg ColumnDef.name (Option.some.inj (hc.symm.trans hc')))
  simp only [placeOf, bind_eq_ok, require_eq_ok, okOr_eq_ok]
  constructor
  · rintro ⟨-, hne, i, hi, idx, hidx, h⟩
    cases h
    rw [idxOf?_of_mem (hmem hi (hother hi hne))] at hidx
    cases hidx
    exact ⟨hne, i, hi, hother hi hne, rfl⟩
  · rintro ⟨hne, i, hi, hiphys, rfl⟩
    exact ⟨(), hne, i, hi, _, idxOf?_of_mem (hmem hi hiphys), rfl⟩

lemma names_of_columns (hcolumns : d'.columns = d.columns) :
    d'.names = d'.logical_order.filterMap d.shownName := by
  refine List.filterMap_congr fun i _ => ?_
  rw [shownName, shownName, hcolumns]

/-- There is a place next to any column but the one that is moved. -/
lemma place_exists {pos : ColumnPos} (hcol : d.named col = some phys) :
    (∃ at_, d.place col phys pos = .ok at_)
      ↔ ∀ name ∈ pos.reference, name ≠ col ∧ d.named name ≠ none := by
  have hplace {name : String} {past : ℕ} : (∃ at_, d.placeOf col phys name past = .ok at_)
      ↔ ∀ name' ∈ some name, name' ≠ col ∧ d.named name' ≠ none := by
    simp only [Option.mem_def, Option.some.injEq, forall_eq', placeOf_eq hcol]
    constructor
    · rintro ⟨at_, hne, i, hi, -, -⟩
      exact ⟨hne, by rw [hi]; exact Option.some_ne_none i⟩
    · rintro ⟨hne, hnamed⟩
      obtain ⟨i, hi⟩ := Option.ne_none_iff_exists'.1 hnamed
      refine ⟨_, hne, i, hi, ?_, rfl⟩
      rintro rfl
      obtain ⟨⟨c, hc, rfl⟩, -⟩ := named_eq_some.1 hi
      obtain ⟨⟨c', hc', rfl⟩, -⟩ := named_eq_some.1 hcol
      exact hne (congrArg ColumnDef.name (Option.some.inj (hc.symm.trans hc')))
  cases pos with
  | first => exact iff_of_true ⟨0, rfl⟩ fun name hname => by cases hname
  | before name => exact hplace
  | after name => exact hplace

lemma place_le {pos : ColumnPos} {at_ : ℕ} (hcol : d.named col = some phys)
    (h : d.place col phys pos = .ok at_) : at_ ≤ (d.logical_order.filter (· != phys)).length := by
  have hplace {name : String} {past : ℕ} (hpast : past ≤ 1) (h : d.placeOf col phys name past = .ok at_) :
      at_ ≤ (d.logical_order.filter (· != phys)).length := by
    obtain ⟨-, i, hi, hne, rfl⟩ := (placeOf_eq hcol).1 h
    have hin : i ∈ d.logical_order.filter (· != phys) :=
      List.mem_filter.2 ⟨d.mem_logical (named_lt hi), by simpa using hne⟩
    have hlt := List.idxOf_lt_length_of_mem hin
    omega
  cases pos with
  | first =>
    cases h
    exact Nat.zero_le _
  | before name => exact hplace (Nat.zero_le 1) h
  | after name => exact hplace le_rfl h

lemma moveColumn_ok {pos : ColumnPos} (h : d.apply (.moveColumn col pos) = .ok d') :
    ∃ phys at_, d.named col = some phys ∧ d.place col phys pos = .ok at_ ∧ d'.columns = d.columns ∧
      d'.logical_order = d.moved phys at_ := by
  rw [apply, moveColumn_eq] at h
  simp only [bind_eq_ok, okOr_eq_ok] at h
  obtain ⟨phys, hphys, at_, hat, h⟩ := h
  split_ifs at h
  cases h
  exact ⟨phys, at_, hphys, hat, rfl, rfl⟩

/-- A column is moved if there is one of its name, dropped or not, and so is the reference. -/
lemma moveColumn_exists {pos : ColumnPos} : (∃ d', d.apply (.moveColumn col pos) = .ok d')
    ↔ d.named col ≠ none ∧ ∀ name ∈ pos.reference, name ≠ col ∧ d.named name ≠ none := by
  constructor
  · rintro ⟨d', h⟩
    obtain ⟨phys, at_, hphys, hat, -, -⟩ := moveColumn_ok h
    exact ⟨by rw [hphys]; exact Option.some_ne_none phys, (place_exists hphys).1 ⟨at_, hat⟩⟩
  · rintro ⟨hcol, hreference⟩
    obtain ⟨phys, hphys⟩ := Option.ne_none_iff_exists'.1 hcol
    obtain ⟨at_, hat⟩ := (place_exists hphys).2 hreference
    have hbounds := And.intro (named_lt hphys) (place_le hphys hat)
    refine ⟨{ d with
      logical_order := d.moved phys at_
      logical := d.moved_perm hbounds.1 hbounds.2 }, ?_⟩
    rw [apply, moveColumn_eq, hphys, okOr_some, ok_bind, hat, ok_bind, dif_pos hbounds]

/-- If the names denote columns that are seen, the list is the one that is described. -/
lemma names_moveColumn {pos : ColumnPos} (hd : d.WellNamed)
    (hseen : ∀ name ∈ col :: pos.reference.toList, d.named name = d.visible name)
    (h : d.apply (.moveColumn col pos) = .ok d') :
    d'.names = TableChange.described d.names (.moveColumn col pos) := by
  obtain ⟨phys, at_, hphys, hat, hcolumns, horder⟩ := moveColumn_ok h
  rw [names_of_columns hcolumns, horder]
  have hvisible : d.visible col = some phys := by rw [← hseen col List.mem_cons_self, hphys]
  have hnext {name : String} {past : ℕ} (hpast : past ≤ 1) (hname : d.named name = d.visible name)
      (hat : d.placeOf col phys name past = .ok at_) :
      (d.moved phys at_).filterMap d.shownName = (d.names.filter (· ≠ col)).insertIdx
        ((d.names.filter (· ≠ col)).idxOf name + past) col := by
    obtain ⟨-, i, hi, hne, rfl⟩ := (placeOf_eq hphys).1 hat
    exact names_next hd hvisible (hname ▸ hi) hne hpast
  cases pos with
  | first =>
    cases hat
    rw [moved, List.insertIdx_zero, List.filterMap_cons_some (hd.visible_iff.1 hvisible),
      hd.names_without hvisible]
    rfl
  | before name => exact hnext (Nat.zero_le 1) (hseen name (by simp [ColumnPos.reference])) hat
  | after name => exact hnext le_rfl (hseen name (by simp [ColumnPos.reference])) hat

/-! ### Reordering -/

/-- The names denote columns, one after the other, none of them twice. -/
def Lists (d : TableDef) (order : List String) (ps : List ℕ) : Prop :=
  List.Forall₂ (fun name p => d.named name = some p) order ps ∧ ps.Nodup

lemma reordered_iff {order : List String} {before r : List ℕ} : d.reordered order before = .ok r ↔
    ∃ ps, d.Lists order ps ∧ (∀ p ∈ ps, p ∉ before) ∧ r = before ++ ps := by
  induction order generalizing before with
  | nil =>
    constructor
    · intro h
      cases h
      exact ⟨[], ⟨.nil, List.nodup_nil⟩, by simp, (List.append_nil _).symm⟩
    · rintro ⟨ps, ⟨hps, -⟩, -, rfl⟩
      cases hps
      rw [List.append_nil]
      rfl
  | cons name order ih =>
    simp only [reordered, bind_eq_ok, okOr_eq_ok, require_eq_ok, ih]
    constructor
    · rintro ⟨p, hp, -, hnew, ps, ⟨hps, hnodup⟩, hfresh, rfl⟩
      refine ⟨p :: ps, ⟨.cons hp hps, List.nodup_cons.2 ⟨fun hmem => ?_, hnodup⟩⟩, ?_, by simp⟩
      · exact hfresh p hmem (by simp)
      · exact List.forall_mem_cons.2 ⟨hnew, fun q hq hmem => hfresh q hq (List.mem_append_left _ hmem)⟩
    · rintro ⟨ps, ⟨hps, hnodup⟩, hfresh, rfl⟩
      cases hps with
      | @cons _ p _ ps hp hps =>
        obtain ⟨hnot, hnodup⟩ := List.nodup_cons.1 hnodup
        obtain ⟨hnew, hfresh⟩ := List.forall_mem_cons.1 hfresh
        refine ⟨p, hp, (), hnew, ps, ⟨hps, hnodup⟩, fun q hq hmem => ?_, by simp⟩
        rcases List.mem_append.1 hmem with hmem | hmem
        · exact hfresh q hq hmem
        · rw [List.mem_singleton.1 hmem] at hq
          exact hnot hq

lemma apply_reorderColumns {order : List String} (h : d.apply (.reorderColumns order) = .ok d') :
    order.length = d.columns.length ∧ d.Lists order d'.logical_order ∧ d'.columns = d.columns := by
  simp only [apply, reorderColumns] at h
  split_ifs at h with hlen
  split at h
  · cases h
  · rename_i r hr
    cases h
    obtain ⟨ps, hps, -, rfl⟩ := reordered_iff.1 hr
    exact ⟨hlen, hps, rfl⟩

lemma reorderColumns_exists {order : List String} : (∃ d', d.apply (.reorderColumns order) = .ok d')
    ↔ order.length = d.columns.length ∧ ∃ ps, d.Lists order ps := by
  constructor
  · rintro ⟨d', h⟩
    obtain ⟨hlen, hlists, -⟩ := apply_reorderColumns h
    exact ⟨hlen, _, hlists⟩
  · rintro ⟨hlen, ps, hlists⟩
    have hr : d.reordered order [] = .ok ps :=
      reordered_iff.2 ⟨ps, hlists, fun _ _ => List.not_mem_nil, rfl⟩
    simp only [apply, reorderColumns, dif_pos hlen]
    split
    · rename_i e he
      rw [hr] at he
      cases he
    · exact ⟨_, rfl⟩

end TableDef

end Arkeion.Catalog
