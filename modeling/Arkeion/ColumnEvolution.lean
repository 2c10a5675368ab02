import Arkeion.ColumnList

/-!
Statements that change the columns of a table, against what they describe.

Some of them look a name up among all columns, the dropped ones too, or ask for as many names as
there are columns. Those do what they describe exactly if no dropped column comes into it.
-/

namespace Arkeion.Catalog

open Arkeion.Lib

/-! ### What is wanted of a statement -/

namespace TableChange

/-- The columns that a statement is about, as it finds them. -/
def found (d : TableDef) : TableChange → List ℕ
  | .moveColumn column pos => (column :: pos.reference.toList).filterMap d.named
  | .reorderColumns order => order.filterMap d.named
  | .renameColumn old _ => (d.visible old).toList
  | .dropColumn column => (d.visible column).toList
  | _ => []

/-- The statement does what it describes: it succeeds exactly if it makes sense, it is about columns
that are seen, the new definition can be read back, and the rows keep their values. -/
structure Follows (d : TableDef) (change : TableChange) : Prop where
  succeeds : (∃ d', d.apply change = .ok d') ↔ change.Meaningful d
  names : ∀ d', d.apply change = .ok d' → d'.names = change.described d.names
  seen : ∀ d', d.apply change = .ok d' → ∀ i ∈ change.found d, ∃ c, d.Shows i c
  stored : ∀ d', d.apply change = .ok d' → (encodeDef d').length < 2 ^ 64 →
    decodeDef d'.name (encodeDef d') = .ok d'
  values : ∀ d', d.apply change = .ok d' → ∀ rowid row full, finishRow d rowid row = .ok full →
    ∃ full', finishRow d' rowid row = .ok full' ∧
      ∀ i < d.columns.length, full'[i]? = full[i]?

/-- Dropped columns do not come into the statement, nor indexes that it does not look at. -/
def Meets (d : TableDef) : TableChange → Prop
  | .addColumn column => Meaningful d (.addColumn column) →
    d.columns.length < MAX_COLUMNS ∧ ∀ c ∈ d.columns, c.dropped = true → c.name ≠ column.name
  | .moveColumn column pos => d.named column = none ∨
    (∃ name ∈ pos.reference, name = column ∨ d.named name = none) ∨
    ∀ name ∈ column :: pos.reference.toList, d.named name = d.visible name
  | .reorderColumns order => (∀ c ∈ d.columns, c.dropped = false) ∨
    ¬ order.Perm d.names ∧ ¬ (order.length = d.columns.length ∧ ∃ ps, d.Lists order ps)
  | .dropColumn column => ∀ i, d.visible column = some i → 1 < d.names.length →
    d.rowid_alias ≠ some i → (∀ idx ∈ d.indexes, i ∉ idx.columns) →
    (∀ fk ∈ d.foreign_keys, i ∉ fk.columns) →
    (∀ fts ∈ d.fts_indexes, i ∉ fts.columns) ∧ ∀ vi ∈ d.vector_indexes, vi.column ≠ i
  | _ => True

end TableChange

namespace TableDef
variable {d d' : TableDef} {i phys : ℕ} {name col old new : String} {change : TableChange}

/-! ### Rows -/

/-- The columns there were are filled as before, and the alias is the same. -/
structure Extends (d d' : TableDef) : Prop where
  alias_eq : d'.rowid_alias = d.rowid_alias
  longer : d.columns.length ≤ d'.columns.length
  fill : ∀ i < d.columns.length, d'.columns[i]?.map ColumnDef.fill = d.columns[i]?.map ColumnDef.fill

lemma Extends.of_columns (ha : d'.rowid_alias = d.rowid_alias) (hc : d'.columns = d.columns) :
    d.Extends d' := ⟨ha, by rw [hc], fun i _ => by rw [hc]⟩

lemma Extends.of_change {f : ColumnDef → ColumnDef} (hf : ∀ c, (f c).fill = c.fill) :
    d.Extends (d.change phys f) where
  alias_eq := rfl
  longer := (length_change d phys f).ge
  fill i _ := by
    rw [change, List.getElem?_modify]
    cases d.columns[i]? with
    | none => rfl
    | some c =>
      rw [Option.map_eq_map, Option.map_some, Option.map_some, Option.map_some]
      split_ifs
      · rw [hf]
      · rfl

lemma extends_of_apply (hchange : change.OnColumns) (h : d.apply change = .ok d') : d.Extends d' := by
  cases change with
  | addColumn c =>
    obtain ⟨-, rfl⟩ := apply_addColumn.1 h
    have hlength : (d.columns ++ [c.toDef]).length = d.columns.length + 1 := by simp
    refine ⟨rfl, hlength ▸ Nat.le_succ _, fun i hi => ?_⟩
    rw [List.getElem?_append_left hi]
  | moveColumn column pos =>
    rw [apply, moveColumn_eq] at h
    obtain ⟨phys, -, h⟩ := bind_eq_ok.1 h
    obtain ⟨at_, -, h⟩ := bind_eq_ok.1 h
    split_ifs at h
    cases h
    exact .of_columns rfl rfl
  | reorderColumns order =>
    simp only [apply, reorderColumns] at h
    split_ifs at h
    split at h
    · cases h
    · cases h
      exact .of_columns rfl rfl
  | renameColumn old new =>
    obtain ⟨-, phys, -, -, rfl⟩ := apply_renameColumn.1 h
    exact .of_change fun _ => rfl
  | dropColumn column =>
    obtain ⟨phys, -, -, -, -, -, rfl⟩ := apply_dropColumn.1 h
    exact .of_change fun _ => rfl
  | _ => exact hchange.elim

/-- A row keeps its values in the columns there were. -/
lemma Extends.values (h : d.Extends d') {rowid : Int64} {row full : Row}
    (hfull : finishRow d rowid row = .ok full) : ∃ full', finishRow d' rowid row = .ok full' ∧
      ∀ i < d.columns.length, full'[i]? = full[i]? := by
  have hlen : row.length ≤ d.columns.length := by
    by_contra hlong
    rw [finishRow, if_pos (not_le.1 hlong)] at hfull
    cases hfull
  rw [finishRow_eq hlen, Except.ok.injEq] at hfull
  subst hfull
  refine ⟨_, finishRow_eq (hlen.trans h.longer), fun i hi => ?_⟩
  rw [getElem?_fullRow hlen hi, getElem?_fullRow (hlen.trans h.longer) (hi.trans_le h.longer),
    columnValue, columnValue, h.alias_eq, h.fill i hi]

end TableDef

section Statements
open TableDef
variable {d d' : TableDef} {i phys : ℕ} {name col old new : String} {change : TableChange}

/-! ### Each statement -/

lemma Declared.wellNamed (hd : Declared d) : d.WellNamed := hd.reachable.wellNamed

lemma Declared.of_apply (hd : Declared d) (h : d.apply change = .ok d') : Declared d' := .change hd h

/-- What is stored, and the rows, are as they should be anyway. -/
lemma Declared.follows (hd : Declared d) (hchange : change.OnColumns)
    (hsucceeds : (∃ d', d.apply change = .ok d') ↔ change.Meaningful d)
    (hnames : ∀ d', d.apply change = .ok d' → d'.names = change.described d.names)
    (hseen : ∀ d', d.apply change = .ok d' → ∀ i ∈ change.found d, ∃ c, d.Shows i c) :
    change.Follows d where
  succeeds := hsucceeds
  names := hnames
  seen := hseen
  stored _ h hlen := (hd.of_apply h).decodeDef_encodeDef hlen
  values _ h _ _ _ hfull := (extends_of_apply hchange h).values hfull

lemma names_length_le (d : TableDef) : d.names.length ≤ d.columns.length := by
  rw [length_names]
  exact List.countP_le_length

lemma visible_of_named_none (h : d.named name = none) : d.visible name = none :=
  visible_eq_none.2 fun c hc _ => named_eq_none.1 h c hc

lemma follows_addColumn (hd : Declared d) (c : ColumnSpec) :
    TableChange.Follows d (.addColumn c) ↔ TableChange.Meets d (.addColumn c) := by
  constructor
  · intro h hmeaning
    obtain ⟨d', h'⟩ := h.succeeds.2 hmeaning
    obtain ⟨⟨-, -, hnew, hsize, -⟩, -⟩ := apply_addColumn.1 h'
    exact ⟨hsize, fun c' hc' _ => hnew c' hc'⟩
  · intro h
    refine hd.follows trivial ⟨?_, fun hmeaning => ?_⟩ (fun _ => names_addColumn) fun _ _ i hi => ?_
    · rintro ⟨d', h'⟩
      obtain ⟨⟨hkey, hname, hnew, hsize, hnull⟩, -⟩ := apply_addColumn.1 h'
      refine ⟨hkey, hname, ?_, (names_length_le d).trans_lt hsize, hnull⟩
      rw [hd.wellNamed.not_mem_names, visible_eq_none]
      exact fun c' hc' _ => hnew c' hc'
    · obtain ⟨hsize, hdropped⟩ := h hmeaning
      obtain ⟨hkey, hname, hfresh, -, hnull⟩ := hmeaning
      rw [hd.wellNamed.not_mem_names, visible_eq_none] at hfresh
      refine ⟨_, apply_addColumn.2 ⟨⟨hkey, hname, fun c' hc' => ?_, hsize, hnull⟩, rfl⟩⟩
      cases hc : c'.dropped with
      | true => exact hdropped c' hc' hc
      | false => exact hfresh c' hc' hc
    · cases hi

lemma follows_renameColumn (hd : Declared d) (old new : String) :
    TableChange.Follows d (.renameColumn old new) := by
  refine hd.follows trivial ⟨?_, ?_⟩ (fun _ => names_renameColumn hd.wellNamed) fun _ _ i hi => ?_
  · rintro ⟨d', h'⟩
    obtain ⟨hname, phys, hphys, hnew, -⟩ := apply_renameColumn.1 h'
    exact ⟨hname, hd.wellNamed.mem_names.2 ⟨phys, hphys⟩, hd.wellNamed.not_mem_names.2 hnew⟩
  · rintro ⟨hname, hold, hnew⟩
    obtain ⟨phys, hphys⟩ := hd.wellNamed.mem_names.1 hold
    exact ⟨_, apply_renameColumn.2 ⟨hname, phys, hphys, hd.wellNamed.not_mem_names.1 hnew, rfl⟩⟩
  · obtain ⟨c, hc, -⟩ := shows_of_visible (Option.mem_toList.1 hi)
    exact ⟨c, hc⟩

lemma follows_dropColumn (hd : Declared d) (col : String) :
    TableChange.Follows d (.dropColumn col) ↔ TableChange.Meets d (.dropColumn col) := by
  constructor
  · intro h i hi hmany hkey hindexes hkeys
    have hok := h.succeeds.1 ⟨_, apply_dropColumn.2 ⟨i, hi, hkey, hmany, hindexes, hkeys, rfl⟩⟩
    obtain ⟨-, -, hfree⟩ := hok
    refine ⟨fun fts hfts hin => hfree ⟨i, hi, ?_⟩, fun vi hvi hin => hfree ⟨i, hi, ?_⟩⟩
    · exact Or.inr (Or.inl (Or.inr (Or.inl ⟨fts, hfts, hin⟩)))
    · exact Or.inr (Or.inl (Or.inr (Or.inr ⟨vi, hvi, hin⟩)))
  · intro h
    refine hd.follows trivial ⟨?_, ?_⟩ (fun _ => names_dropColumn hd.wellNamed) fun _ _ i hi => ?_
    · rintro ⟨d', h'⟩
      obtain ⟨phys, hphys, hkey, hmany, hindexes, hkeys, -⟩ := apply_dropColumn.1 h'
      obtain ⟨hfts, hvectors⟩ := h phys hphys hmany hkey hindexes hkeys
      refine ⟨hd.wellNamed.mem_names.2 ⟨phys, hphys⟩, hmany, ?_⟩
      rintro ⟨i, hi, hbound⟩
      obtain rfl : phys = i := Option.some.inj (hphys.symm.trans hi)
      rcases hbound with hkey' | (⟨idx, hidx, hin⟩ | ⟨fts, hf, hin⟩ | ⟨vi, hvi, hin⟩) | ⟨fk, hfk, hin⟩
      · exact hkey hkey'
      · exact hindexes idx hidx hin
      · exact hfts fts hf hin
      · exact hvectors vi hvi hin
      · exact hkeys fk hfk hin
    · rintro ⟨hin, hmany, hfree⟩
      obtain ⟨phys, hphys⟩ := hd.wellNamed.mem_names.1 hin
      refine ⟨_, apply_dropColumn.2 ⟨phys, hphys, fun hkey => hfree ⟨phys, hphys, Or.inl hkey⟩, hmany,
        fun idx hidx hmem => hfree ⟨phys, hphys, ?_⟩, fun fk hfk hmem => hfree ⟨phys, hphys, ?_⟩, rfl⟩⟩
      · exact Or.inr (Or.inl (Or.inl ⟨idx, hidx, hmem⟩))
      · exact Or.inr (Or.inr ⟨fk, hfk, hmem⟩)
    · obtain ⟨c, hc, -⟩ := shows_of_visible (Option.mem_toList.1 hi)
      exact ⟨c, hc⟩

lemma follows_moveColumn (hd : Declared d) (col : String) (pos : ColumnPos) :
    TableChange.Follows d (.moveColumn col pos) ↔ TableChange.Meets d (.moveColumn col pos) := by
  constructor
  · intro h
    by_cases hcol : d.named col = none
    · exact Or.inl hcol
    by_cases hreference : ∃ name ∈ pos.reference, name = col ∨ d.named name = none
    · exact Or.inr (Or.inl hreference)
    refine Or.inr (Or.inr fun name hname => ?_)
    have hother : ∀ name ∈ pos.reference, name ≠ col ∧ d.named name ≠ none := fun name hname =>
      not_or.1 fun hbad => hreference ⟨name, hname, hbad⟩
    obtain ⟨d', h'⟩ := moveColumn_exists.2 ⟨hcol, hother⟩
    have hsome : d.named name ≠ none := by
      rcases List.mem_cons.1 hname with rfl | hname
      · exact hcol
      · exact (hother name (Option.mem_toList.1 hname)).2
    obtain ⟨i, hi⟩ := Option.ne_none_iff_exists'.1 hsome
    rw [hi, (hd.wellNamed.named_shown hi).1 (h.seen d' h' i (List.mem_filterMap.2 ⟨name, hname, hi⟩))]
  · intro h
    have hseen {d' : TableDef} (h' : d.apply (.moveColumn col pos) = .ok d') :
        ∀ name ∈ col :: pos.reference.toList, d.named name = d.visible name := by
      obtain ⟨hcol, hreference⟩ := moveColumn_exists.1 ⟨d', h'⟩
      rcases h with hnone | ⟨name, hname, hbad⟩ | hall
      · exact absurd hnone hcol
      · exact absurd hbad (not_or.2 (hreference name hname))
      · exact hall
    refine hd.follows trivial ⟨?_, ?_⟩ (fun d' h' => names_moveColumn hd.wellNamed (hseen h') h')
      fun d' h' i hi => ?_
    · rintro ⟨d', h'⟩
      obtain ⟨hcol, hreference⟩ := moveColumn_exists.1 ⟨d', h'⟩
      have hin {name : String} (hname : name ∈ col :: pos.reference.toList) (hsome : d.named name ≠ none) :
          name ∈ d.names := by
        rw [hseen h' name hname] at hsome
        exact hd.wellNamed.mem_names.2 (Option.ne_none_iff_exists'.1 hsome)
      exact ⟨hin List.mem_cons_self hcol, fun name hname =>
        ⟨hin (List.mem_cons_of_mem _ (Option.mem_toList.2 hname)) (hreference name hname).2,
          (hreference name hname).1⟩⟩
    · rintro ⟨hcol, hreference⟩
      have hsome {name : String} (hname : name ∈ d.names) : d.named name ≠ none := by
        intro hnone
        exact hd.wellNamed.not_mem_names.2 (visible_of_named_none hnone) hname
      exact moveColumn_exists.2 ⟨hsome hcol, fun name hname =>
        ⟨(hreference name hname).2, hsome (hreference name hname).1⟩⟩
    · obtain ⟨name, hname, hnamed⟩ := List.mem_filterMap.1 hi
      obtain ⟨c, hc, -⟩ := shows_of_visible ((hseen h' name hname).symm.trans hnamed)
      exact ⟨c, hc⟩

lemma lists_of_nodup {order : List String} (hall : ∀ name ∈ order, ∃ p, d.named name = some p)
    (hnodup : order.Nodup) : ∃ ps, d.Lists order ps := by
  induction order with
  | nil => exact ⟨[], .nil, List.nodup_nil⟩
  | cons name order ih =>
    obtain ⟨hnot, hnodup⟩ := List.nodup_cons.1 hnodup
    obtain ⟨⟨p, hp⟩, hall⟩ := List.forall_mem_cons.1 hall
    obtain ⟨ps, hps, hfresh⟩ := ih hall hnodup
    refine ⟨p :: ps, .cons hp hps, List.nodup_cons.2 ⟨fun hmem => ?_, hfresh⟩⟩
    obtain ⟨j, hj, hjp⟩ := List.getElem_of_mem hmem
    have hj' : j < order.length := hps.length_eq ▸ hj
    have hnamed := (List.forall₂_iff_get.1 hps).2 j hj' hj
    rw [List.get_eq_getElem, List.get_eq_getElem, hjp] at hnamed
    obtain ⟨⟨c, hc, rfl⟩, -⟩ := named_eq_some.1 hp
    obtain ⟨⟨c', hc', hname⟩, -⟩ := named_eq_some.1 hnamed
    obtain rfl : c = c' := Option.some.inj (hc.symm.trans hc')
    exact hnot (hname ▸ List.getElem_mem hj')

/-- Without dropped columns, the columns in the order of the names have them. -/
lemma TableDef.Lists.names_eq {order : List String} {ps : List ℕ} (hd : d.WellNamed)
    (hnone : ∀ c ∈ d.columns, c.dropped = false) (h : d.Lists order ps) :
    ps.filterMap d.shownName = order := by
  obtain ⟨h, -⟩ := h
  induction h with
  | nil => rfl
  | cons hname _ ih =>
    rw [hd.named_eq_visible hnone] at hname
    rw [List.filterMap_cons_some (hd.visible_iff.1 hname), ih]

lemma reordered_iff_perm {order : List String} (hd : d.WellNamed)
    (hnone : ∀ c ∈ d.columns, c.dropped = false) :
    (∃ d', d.apply (.reorderColumns order) = .ok d') ↔ order.Perm d.names := by
  constructor
  · rintro ⟨d', h⟩
    obtain ⟨-, hlists, hcolumns⟩ := apply_reorderColumns h
    rw [← hlists.names_eq hd hnone]
    exact names_perm (hcolumns ▸ d'.logical)
  · intro h
    have hall : ∀ name ∈ order, ∃ p, d.named name = some p := fun name hname => by
      rw [hd.named_eq_visible hnone]
      exact hd.mem_names.1 (h.subset hname)
    refine reorderColumns_exists.2 ⟨?_, lists_of_nodup hall (h.nodup_iff.2 hd.names_nodup)⟩
    rw [h.length_eq, length_names, List.countP_eq_length]
    intro c hc
    rw [hnone c hc]
    rfl

lemma follows_reorderColumns (hd : Declared d) (order : List String) :
    TableChange.Follows d (.reorderColumns order) ↔ TableChange.Meets d (.reorderColumns order) := by
  constructor
  · intro h
    by_cases hnone : ∀ c ∈ d.columns, c.dropped = false
    · exact Or.inl hnone
    obtain ⟨c, hc, hdropped⟩ : ∃ c ∈ d.columns, c.dropped = true := by simpa using hnone
    refine Or.inr ⟨fun hperm => ?_, fun hlists => ?_⟩
    · obtain ⟨d', h'⟩ := h.succeeds.2 hperm
      have hlen := (apply_reorderColumns h').1
      rw [hperm.length_eq, length_names, List.countP_eq_length] at hlen
      have hshown := hlen c hc
      rw [hdropped] at hshown
      cases hshown
    · obtain ⟨d', h'⟩ := reorderColumns_exists.2 hlists
      obtain ⟨-, hall, hcolumns⟩ := apply_reorderColumns h'
      obtain ⟨i, hi, hic⟩ := List.getElem_of_mem hc
      obtain ⟨j, hj, hji⟩ := List.getElem_of_mem (d'.mem_logical (hcolumns ▸ hi))
      have hj' : j < order.length := hall.1.length_eq ▸ hj
      have hnamed := (List.forall₂_iff_get.1 hall.1).2 j hj' hj
      rw [List.get_eq_getElem, List.get_eq_getElem, hji] at hnamed
      obtain ⟨c', hc', hshown⟩ := h.seen d' h' i (List.mem_filterMap.2 ⟨_, List.getElem_mem hj', hnamed⟩)
      rw [List.getElem?_eq_getElem hi, hic, Option.some.injEq] at hc'
      rw [← hc', hdropped] at hshown
      cases hshown
  · rintro (hnone | ⟨hperm, hlists⟩)
    · refine hd.follows trivial (reordered_iff_perm hd.wellNamed hnone) (fun d' h' => ?_)
        fun d' h' i hi => ?_
      · obtain ⟨-, hall, hcolumns⟩ := apply_reorderColumns h'
        rw [names_of_columns hcolumns, hall.names_eq hd.wellNamed hnone]
        rfl
      · obtain ⟨name, -, hnamed⟩ := List.mem_filterMap.1 hi
        obtain ⟨⟨c, hc, -⟩, -⟩ := named_eq_some.1 hnamed
        exact ⟨c, hc, hnone c (List.mem_of_getElem? hc)⟩
    · have hfails : ¬ ∃ d', d.apply (.reorderColumns order) = .ok d' := fun hok =>
        hlists (reorderColumns_exists.1 hok)
      exact hd.follows trivial (iff_of_false hfails hperm) (fun d' h' => absurd ⟨d', h'⟩ hfails)
        fun d' h' => absurd ⟨d', h'⟩ hfails

/-- A statement does what it describes exactly under its condition. -/
lemma follows_iff (hd : Declared d) (hchange : change.OnColumns) : change.Follows d ↔ change.Meets d := by
  cases change with
  | addColumn c => exact follows_addColumn hd c
  | moveColumn column pos => exact follows_moveColumn hd column pos
  | reorderColumns order => exact follows_reorderColumns hd order
  | renameColumn old new => exact iff_of_true (follows_renameColumn hd old new) trivial
  | dropColumn column => exact follows_dropColumn hd column
  | _ => exact hchange.elim

end Statements

/-! ### Any number of statements -/

/-- Statements one after the other; one that fails leaves the table as it is. -/
def TableDef.after (d : TableDef) : List TableChange → TableDef
  | [] => d
  | change :: changes => ((d.apply change).toOption.getD d).after changes

section Runs
open TableDef
variable {d d' : TableDef} {change : TableChange} {changes : List TableChange}

lemma after_cons_ok (h : d.apply change = .ok d') : d.after (change :: changes) = d'.after changes := by
  rw [after, h]
  rfl

lemma after_cons_error (h : ∀ d', d.apply change ≠ .ok d') :
    d.after (change :: changes) = d.after changes := by
  rw [after]
  cases hrun : d.apply change with
  | ok d' => exact absurd hrun (h d')
  | error e => rfl

lemma after_append (before changes : List TableChange) :
    d.after (before ++ changes) = (d.after before).after changes := by
  induction before generalizing d with
  | nil => rfl
  | cons change before ih => exact ih

lemma Declared.after (hd : Declared d) (changes : List TableChange) : Declared (d.after changes) := by
  induction changes generalizing d with
  | nil => exact hd
  | cons change changes ih =>
    cases hrun : d.apply change with
    | ok d' =>
      rw [after_cons_ok hrun]
      exact ih (hd.of_apply hrun)
    | error e =>
      rw [after_cons_error fun d' h => by rw [hrun] at h; cases h]
      exact ih hd

/-- What a statement does that follows its description, to the list. -/
lemma TableChange.Follows.list (h : change.Follows d) :
    (change.Meaningful d → (d.after [change]).names = change.described d.names) ∧
      (¬ change.Meaningful d → d.after [change] = d) := by
  constructor
  · intro hmeaning
    obtain ⟨d', hrun⟩ := h.succeeds.2 hmeaning
    rw [after_cons_ok hrun]
    exact h.names d' hrun
  · intro hmeaning
    exact after_cons_error fun d' hrun => hmeaning (h.succeeds.1 ⟨d', hrun⟩)

end Runs

/-- A statement on the columns does what it describes exactly under its condition, and if all
statements of a run meet it, the names go through the list operations one after the other. -/
theorem columns_refine_list (d : TableDef) (hd : Declared d) :
    (∀ change : TableChange, change.OnColumns → (change.Follows d ↔ change.Meets d)) ∧
    ∀ changes, (∀ before change later, changes = before ++ change :: later → change.OnColumns →
        change.Meets (d.after before)) →
      ∀ before change later, changes = before ++ change :: later → change.OnColumns →
        change.Follows (d.after before) ∧
        (change.Meaningful (d.after before) →
          (d.after (before ++ [change])).names = change.described (d.after before).names) ∧
        (¬ change.Meaningful (d.after before) → d.after (before ++ [change]) = d.after before) := by
  refine ⟨fun change => follows_iff hd, fun changes hmeets before change later hsplit hchange => ?_⟩
  have hfollows := (follows_iff (hd.after before) hchange).2 (hmeets before change later hsplit hchange)
  rw [after_append]
  exact ⟨hfollows, hfollows.list⟩

/-! ### After a column was dropped -/

def textColumn (name : String) : ColumnSpec := ⟨name, .text, false, false, none⟩

/-- A table `t(a, b, c)` with an index for full text on `b`. -/
def threeColumns : Result TableDef := do
  let d ← createTable (fun _ => .ok none) "t" 1 [textColumn "a", textColumn "b", textColumn "c"] [] []
  d.apply (.createFtsIndex "words" 1 ["b"] none)

/-- The table without its first column, and then with the name given to the second. -/
def withoutFirst : Result TableDef := do
  let d ← threeColumns
  d.apply (.dropColumn "a")

def renamedSecond : Result TableDef := do
  let d ← withoutFirst
  d.apply (.renameColumn "b" "a")

lemma declared_threeColumns {d : TableDef} (h : threeColumns = .ok d) : Declared d := by
  obtain ⟨d₀, hcreate, hindex⟩ := bind_eq_ok.1 h
  exact .change (.create (fun name p hp => by cases hp) hcreate) hindex

lemma declared_withoutFirst {d : TableDef} (h : withoutFirst = .ok d) : Declared d := by
  obtain ⟨d₀, h₀, hdrop⟩ := bind_eq_ok.1 h
  exact (declared_threeColumns h₀).of_apply hdrop

lemma declared_renamedSecond {d : TableDef} (h : renamedSecond = .ok d) : Declared d := by
  obtain ⟨d₀, h₀, hrename⟩ := bind_eq_ok.1 h
  exact (declared_withoutFirst h₀).of_apply hrename

lemma exists_seen (x : Result TableDef) (p : TableDef → Prop) [DecidablePred p]
    (h : x.toOption.map (fun d => decide (p d)) = some true) : ∃ d, x = .ok d ∧ p d := by
  cases x with
  | error e => cases h
  | ok d => exact ⟨d, rfl, of_decide_eq_true (Option.some.inj h)⟩

/-- A column in an index for full text can be dropped. A name that was dropped cannot be given again,
and the columns that are seen cannot be reordered. A name that is given again moves the column that
was dropped. -/
theorem columns_not_list :
    (∃ d, threeColumns = .ok d ∧ Declared d ∧ ¬ (TableChange.dropColumn "b").Follows d) ∧
    (∃ d, withoutFirst = .ok d ∧ Declared d ∧ ¬ (TableChange.addColumn (textColumn "a")).Follows d ∧
      ¬ (TableChange.reorderColumns ["c", "b"]).Follows d) ∧
    ∃ d, renamedSecond = .ok d ∧ Declared d ∧ ¬ (TableChange.moveColumn "a" (.after "c")).Follows d := by
  refine ⟨?_, ?_, ?_⟩
  · obtain ⟨d, hd, hvisible, halias, hnames, hindexes, hkeys, hfts⟩ := exists_seen threeColumns
      (fun d => d.visible "b" = some 1 ∧ d.rowid_alias = none ∧ d.names = ["a", "b", "c"] ∧
        d.indexes.length = 0 ∧ d.foreign_keys.length = 0 ∧
        d.fts_indexes.map FtsIndexDef.columns = [[1]]) (by decide +kernel)
    rw [List.length_eq_zero_iff] at hindexes hkeys
    refine ⟨d, hd, declared_threeColumns hd, fun h => ?_⟩
    have hmeets := (follows_dropColumn (declared_threeColumns hd) "b").1 h 1 hvisible (by rw [hnames]; decide)
      (by rw [halias]; decide) (by rw [hindexes]; simp) (by rw [hkeys]; simp)
    obtain ⟨fts, hmem, hcolumns⟩ := List.mem_map.1 (hfts ▸ List.mem_singleton_self [1])
    exact hmeets.1 fts hmem (by rw [hcolumns]; exact List.mem_singleton_self 1)
  · obtain ⟨d, hd, hnames, hcolumns⟩ := exists_seen withoutFirst (fun d => d.names = ["b", "c"] ∧
      d.columns.map (fun c => (c.name, c.dropped)) = [("a", true), ("b", false), ("c", false)])
      (by decide +kernel)
    obtain ⟨c, hc, hname⟩ : ∃ c ∈ d.columns, (c.name, c.dropped) = ("a", true) :=
      List.mem_map.1 (hcolumns ▸ List.mem_cons_self)
    simp only [Prod.mk.injEq] at hname
    refine ⟨d, hd, declared_withoutFirst hd, fun h => ?_, fun h => ?_⟩
    · have hmeaning : TableChange.Meaningful d (.addColumn (textColumn "a")) := by
        refine ⟨rfl, ⟨by decide, by decide⟩, ?_, ?_, by decide⟩
        · rw [hnames]
          decide
        · rw [hnames]
          decide
      exact ((follows_addColumn (declared_withoutFirst hd) _).1 h hmeaning).2 c hc hname.2 hname.1
    · rcases (follows_reorderColumns (declared_withoutFirst hd) _).1 h with hnone | ⟨hperm, -⟩
      · have hdropped := hnone c hc
        rw [hname.2] at hdropped
        cases hdropped
      · rw [hnames] at hperm
        exact hperm (List.Perm.swap "b" "c" [])
  · obtain ⟨d, hd, hnamed, hvisible, hother⟩ := exists_seen renamedSecond (fun d =>
      d.named "a" = some 0 ∧ d.visible "a" = some 1 ∧ d.named "c" = some 2) (by decide +kernel)
    refine ⟨d, hd, declared_renamedSecond hd, fun h => ?_⟩
    rcases (follows_moveColumn (declared_renamedSecond hd) "a" (.after "c")).1 h with
      hnone | ⟨name, hname, heq | hnone⟩ | hall
    · rw [hnamed] at hnone
      cases hnone
    · cases hname
      exact absurd heq (by decide)
    · cases hname
      rw [hother] at hnone
      cases hnone
    · have hsame := hall "a" List.mem_cons_self
      rw [hnamed, hvisible] at hsame
      cases hsame

/-- The table `t(a, b, c)` after its first column was dropped and the second renamed. -/
theorem columns_refine_list_three : ∃ d, threeColumns = .ok d ∧
    ((TableChange.moveColumn "c" .first).Follows d ↔ (TableChange.moveColumn "c" .first).Meets d) ∧
    (TableChange.renameColumn "a" "d").Follows (d.after []) := by
  obtain ⟨d, hd, -⟩ := exists_seen threeColumns (fun d => d.names = ["a", "b", "c"]) (by decide +kernel)
  have hall := columns_refine_list d (declared_threeColumns hd)
  have hmeets : ∀ before change later, [TableChange.renameColumn "a" "d"] = before ++ change :: later →
      change.OnColumns → change.Meets (d.after before) := by
    intro before change later hsplit _
    cases before with
    | nil =>
      cases hsplit
      trivial
    | cons c before => simp at hsplit
  exact ⟨d, hd, hall.1 _ trivial, (hall.2 _ hmeets [] _ [] rfl trivial).1⟩

end Arkeion.Catalog
