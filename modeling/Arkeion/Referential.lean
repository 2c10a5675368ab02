import Arkeion.Database

/-!
Referential integrity over whole runs. A row dangles while the row it refers to is gone; an update
leaves rows dangling only until the foreign keys have done their work, and a deletion never does.

What the foreign keys change on the way to a deletion only becomes `NULL`, so a row that does not
refer to the one that leaves does not come to do so.
-/

namespace Arkeion

open Arkeion.Lib Btree MapProgram

namespace Catalog

/-! ### Rows that refer to others -/

/-- The row has the values that a foreign key refers to. -/
def Holds (fk : ForeignKey) (vals : List Value) (rowid : Int64) (row : Row) : Prop :=
  if fk.parent_columns = [] then vals = [.integer rowid]
  else fk.parent_columns.map (row[·]?) = vals.map some

/-- The row that the values refer to is there. -/
def HasParent (tables : List TableDef) (kvs : Entries) (fk : ForeignKey) (vals : List Value) : Prop :=
  ∃ p ∈ tables, p.name = fk.parent ∧ ∃ rowid row, HasRow p kvs rowid row ∧ Holds fk vals rowid row

/-- The row refers to one that is not there. -/
structure Dangling (tables : List TableDef) (kvs : Entries) (d : TableDef) (fk : ForeignKey)
    (rowid : Int64) (vals : List Value) : Prop where
  table : d ∈ tables
  key : fk ∈ d.foreign_keys
  row : ∃ row, HasRow d kvs rowid row ∧ childValues row fk.columns = some vals
  orphan : ¬ HasParent tables kvs fk vals

/-- All rows that dangle are among these. -/
def DangleIn (tables : List TableDef) (X : TableDef → ForeignKey → Int64 → List Value → Prop)
    (kvs : Entries) : Prop :=
  ∀ d fk rowid vals, Dangling tables kvs d fk rowid vals → X d fk rowid vals

/-- The columns of a foreign key are not the rowid and not REAL, and they have the types of those
they refer to. -/
structure KeyFits (tables : List TableDef) (d : TableDef) (fk : ForeignKey) : Prop where
  columns : ∀ c ∈ fk.columns, d.rowid_alias ≠ some c ∧
    ∃ col, d.columns[c]? = some col ∧ col.col_type ≠ .real
  arity : fk.columns.length = if fk.parent_columns = [] then 1 else fk.parent_columns.length
  distinct : fk.parent_columns.Nodup
  parents : ∀ p ∈ tables, p.name = fk.parent → ∀ (k c pc : ℕ), fk.columns[k]? = some c →
    fk.parent_columns[k]? = some pc → p.rowid_alias ≠ some pc ∧
      p.columns[pc]?.map ColumnDef.col_type = d.columns[c]?.map ColumnDef.col_type

/-- A row that leaves out a column of a foreign key leaves it `NULL`. -/
def Given (d : TableDef) (values : Row) : Prop :=
  ∀ fk ∈ d.foreign_keys, ∀ c ∈ fk.columns, ∀ col, d.columns[c]? = some col →
    c < values.length ∨ col.fill = .null

section Values
variable {d : TableDef} {fk : ForeignKey} {row values record vals : Row} {cols : List ℕ} {rowid : Int64}

lemma childValues_eq_some : childValues row cols = some vals ↔
    cols.map (row[·]?) = vals.map some ∧ .null ∉ vals := by
  induction cols generalizing vals with
  | nil =>
    cases vals with
    | nil => simp [childValues]
    | cons v vals => simp [childValues]
  | cons c cols ih =>
    rw [childValues, List.map_cons]
    cases hv : row[c]? with
    | none => cases vals <;> simp
    | some v =>
      cases vals with
      | nil => cases v <;> simp
      | cons w vals =>
        have hiff : ((childValues row cols).map fun vs => v :: vs) = some (w :: vals) ↔
            v = w ∧ childValues row cols = some vals := by
          rw [Option.map_eq_some_iff]
          constructor
          · rintro ⟨vs, hvs, heq⟩
            cases heq
            exact ⟨rfl, hvs⟩
          · rintro ⟨rfl, hvs⟩
            exact ⟨vals, hvs, rfl⟩
        cases v with
        | null =>
          simp only [List.map_cons, List.cons.injEq, Option.some.injEq, List.mem_cons, not_or]
          refine iff_of_false (by simp) ?_
          rintro ⟨⟨rfl, -⟩, hne, -⟩
          exact hne rfl
        | _ =>
          simp only [hiff, ih, List.map_cons, List.cons.injEq, Option.some.injEq, List.mem_cons, not_or]
          constructor
          · rintro ⟨rfl, h, hn⟩
            exact ⟨⟨rfl, h⟩, by simp, hn⟩
          · rintro ⟨⟨rfl, h⟩, -, hn⟩
            exact ⟨rfl, h, hn⟩

lemma value_at (h : cols.map (row[·]?) = vals.map some) {k c : ℕ} (hk : cols[k]? = some c) :
    ∃ v, vals[k]? = some v ∧ row[c]? = some v := by
  have hnth := congrArg (·[k]?) h
  simp only [List.getElem?_map, hk, Option.map_some] at hnth
  cases hv : vals[k]? with
  | none => simp [hv] at hnth
  | some v =>
    rw [hv] at hnth
    exact ⟨v, rfl, Option.some.inj hnth⟩

lemma same_iff {v w : Value} (h : ∀ f, v ≠ .real f) : Sql.Value.same v w = true ↔ v = w := by
  cases v with
  | real f => exact absurd rfl (h f)
  | _ => simp [Sql.Value.same]

lemma coerce_eq {t : ColType} {v v' : Value} (h : coerce t v = some v') (ht : t ≠ .real) : v' = v := by
  cases t <;> cases v <;> first | (cases h; done) | (cases h; rfl) | exact absurd rfl ht

lemma notReal_of_fits {t : ColType} {v : Value} (h : v.Fits t) (ht : t ≠ .real) (f : F64) :
    v ≠ .real f := by
  rintro rfl
  cases t <;> first | exact ht rfl | exact h

/-- A value of a column that is not REAL is stored as it is given. -/
lemma stored_iff (hrec : validatedRecord d values = .ok record) {c : ℕ} {col : ColumnDef}
    (hcol : d.columns[c]? = some col) (ht : col.col_type ≠ .real) (ha : d.rowid_alias ≠ some c)
    {v : Value} :
    (fullRow d rowid record)[c]? = some v ↔ values[c]?.getD col.fill = v := by
  have hlen := length_validatedRecord hrec
  have hc : c < d.columns.length := (List.getElem?_eq_some_iff.1 hcol).1
  obtain ⟨w, hw, hresolve⟩ := validatedRecord_getElem? hrec hc
  rw [getElem?_fullRow hlen.le hc, columnValue, if_neg ha, hw, Option.getD_some, Option.some.injEq]
  rw [resolveCol, if_neg ha, hcol, okOr_some, ok_bind] at hresolve
  split at hresolve
  · next hnull =>
    split_ifs at hresolve
    cases hresolve
    rw [hnull]
  · rw [coerce_eq (okOr_eq_ok.1 hresolve) ht]

/-- What a row refers to was given. -/
lemma given_of_stored {tables : List TableDef} (hk : KeyFits tables d fk) (hfk : fk ∈ d.foreign_keys)
    (hgiven : Given d values) (hrec : validatedRecord d values = .ok record)
    (h : childValues (fullRow d rowid record) fk.columns = some vals) :
    childValues values fk.columns = some vals := by
  obtain ⟨hmap, hnull⟩ := childValues_eq_some.1 h
  refine childValues_eq_some.2 ⟨?_, hnull⟩
  rw [← hmap]
  refine List.map_congr_left fun c hc => ?_
  obtain ⟨ha, col, hcol, ht⟩ := hk.columns c hc
  obtain ⟨k, hkc⟩ := List.getElem?_of_mem hc
  obtain ⟨v, hv, hrow⟩ := value_at hmap hkc
  have hne : v ≠ .null := fun heq => hnull (heq ▸ List.mem_of_getElem? hv)
  have hgiv := (stored_iff hrec hcol ht ha).1 hrow
  rw [hrow]
  rcases hgiven fk hfk c hc col hcol with hlt | hfill
  · rw [List.getElem?_eq_getElem hlt, Option.getD_some] at hgiv
    rw [List.getElem?_eq_getElem hlt, hgiv]
  · cases hval : values[c]? with
    | none =>
      rw [hval, Option.getD_none, hfill] at hgiv
      exact absurd hgiv.symm hne
    | some w =>
      rw [hval, Option.getD_some] at hgiv
      rw [hgiv]

/-- A value of a foreign key is of the type of its column. -/
lemma fits_at (hw : RowFits d row) (h : cols.map (row[·]?) = vals.map some) {k c : ℕ}
    (hk : cols[k]? = some c) {col : ColumnDef} (hcol : d.columns[c]? = some col) :
    ∃ v, vals[k]? = some v ∧ row[c]? = some v ∧ v.Fits col.col_type := by
  obtain ⟨v, hv, hrow⟩ := value_at h hk
  obtain ⟨v', hv', hfits, -⟩ := hw.2 c col hcol
  rw [hrow] at hv'
  cases hv'
  exact ⟨v, hv, hrow, hfits⟩

/-- What a foreign key refers to is not REAL. -/
lemma notReal_of_childValues {tables : List TableDef} (hk : KeyFits tables d fk) (hw : RowFits d row)
    (h : childValues row fk.columns = some vals) : ∀ v ∈ vals, ∀ f, v ≠ .real f := by
  obtain ⟨hmap, -⟩ := childValues_eq_some.1 h
  intro v hv
  obtain ⟨k, hkv⟩ := List.getElem?_of_mem hv
  have hlen : fk.columns.length = vals.length := by simpa using congrArg List.length hmap
  have hlt : k < fk.columns.length := hlen ▸ (List.getElem?_eq_some_iff.1 hkv).1
  obtain ⟨-, col, hcol, ht⟩ := hk.columns _ (List.getElem_mem hlt)
  obtain ⟨v', hv', -, hfits⟩ := fits_at hw hmap (List.getElem?_eq_getElem hlt) hcol
  rw [hkv] at hv'
  cases hv'
  exact notReal_of_fits hfits ht

end Values

/-! ### Looking for the parent -/

section Parent
variable {tokenize : String → String → List Token} {tables : List TableDef} {d p : TableDef}
  {fk : ForeignKey} {kvs m : Entries} {values row vals : Row} {caches : UInt32 → Option Int64}

lemma decodeDef_name {name : String} {bytes : Bytes} (h : decodeDef name bytes = .ok d) :
    d.name = name := by
  obtain ⟨r, -, h⟩ := bind_eq_ok.1 h
  obtain ⟨u, -, h⟩ := bind_eq_ok.1 h
  split_ifs at h
  cases h
  rfl

lemma mem_decodeTables {kvs : Entries} {tables : List TableDef} (h : decodeTables kvs = .ok tables)
    {name : String} {bytes : Bytes} (hmem : (tableKey name, bytes) ∈ kvs) (hd : decodeDef name bytes = .ok d) :
    d ∈ tables := by
  induction kvs generalizing tables with
  | nil => cases hmem
  | cons kv kvs ih =>
    obtain ⟨name', hname, h⟩ := bind_eq_ok.1 h
    obtain ⟨d', hd', h⟩ := bind_eq_ok.1 h
    obtain ⟨ds, hds, h⟩ := bind_eq_ok.1 h
    cases h
    rcases List.mem_cons.1 hmem with rfl | hmem
    · rw [okOr_eq_ok, fromUtf8_tableKey, Option.some.injEq] at hname
      rw [← hname, hd] at hd'
      cases hd'
      exact List.mem_cons_self
    · exact List.mem_cons_of_mem _ (ih hds hmem)

/-- A table that is found by its name is one of the tables. -/
lemma getTable_mem (hs : SortedMap kvs) (hlist : listTables.onMap kvs = .ok (tables, kvs))
    {name : String} (h : (getTable name).onMap kvs = .ok (some p, m)) : p ∈ tables ∧ p.name = name := by
  obtain ⟨bytes, l, hread, h⟩ := run_bind_eq_ok.1 h
  cases hread
  cases hval : valueOf (tableKey name) kvs with
  | none =>
    rw [hval] at h
    cases h
  | some bytes =>
    rw [hval] at h
    obtain ⟨p', l, hdec, h⟩ := run_bind_eq_ok.1 h
    cases h
    obtain ⟨hdec, -⟩ := run_lift_eq_ok.1 hdec
    refine ⟨?_, decodeDef_name hdec⟩
    simp only [listTables, TreeM.onMap_bind, TreeM.onMap_readFrom, ok_bind, TreeM.onMap_lift] at hlist
    obtain ⟨ts, hts, hlist⟩ := bind_eq_ok.1 hlist
    cases hlist
    rw [takeWhile_fromKey hs] at hts
    refine mem_decodeTables hts (List.mem_filter.2 ⟨(mem_iff_valueOf hs).2 hval, ?_⟩) hdec
    exact decide_eq_true (List.prefix_append _ _)

lemma fkLookupKey_spec {cols key : List _} (h : fkLookupKey fk values cols = .ok key) :
    List.Forall₂ (fun ic v => ∃ k c : ℕ, fk.parent_columns.findIdx? (· == ic) = some k ∧
      fk.columns[k]? = some c ∧ values[c]? = some v) cols key := by
  induction cols generalizing key with
  | nil =>
    cases h
    exact .nil
  | cons ic cols ih =>
    obtain ⟨k, hk, h⟩ := bind_eq_ok.1 h
    obtain ⟨c, hc, h⟩ := bind_eq_ok.1 h
    obtain ⟨v, hv, h⟩ := bind_eq_ok.1 h
    obtain ⟨vs, hvs, h⟩ := bind_eq_ok.1 h
    cases h
    exact .cons ⟨k, c, okOr_eq_ok.1 hk, okOr_eq_ok.1 hc, okOr_eq_ok.1 hv⟩ (ih hvs)

/-- A row of the parent that stands in the index under the values has them. -/
lemma holds_of_entry (hp : TableOk tokenize p kvs) (hpfit : IndexesFit p) (hk : KeyFits tables d fk)
    (hpt : p ∈ tables) (hpn : p.name = fk.parent) (hw : RowFits d row)
    (hstored : childValues row fk.columns = some vals) (hgiven : childValues values fk.columns = some vals)
    (hne : fk.parent_columns ≠ []) {idx : IndexDef} (hidx : idx ∈ p.indexes)
    (hcover : ∀ pc ∈ fk.parent_columns, pc ∈ idx.columns) {key : List Value}
    (hkey : fkLookupKey fk values idx.columns = .ok key) {rowid : Int64} {prow : Row}
    (hrow : HasRow p kvs rowid prow) (hpre : indexValuePrefix idx key <+: entryOf idx prow rowid) :
    Holds fk vals rowid prow := by
  obtain ⟨hmap, -⟩ := childValues_eq_some.1 hstored
  obtain ⟨hmap', -⟩ := childValues_eq_some.1 hgiven
  have hprow := hp.typed rowid prow hrow
  have hspec := fkLookupKey_spec hkey
  -- the value behind a column of the index is that of the foreign key for it
  have hat {ic : ℕ} {v : Value} (h : ∃ k c : ℕ, fk.parent_columns.findIdx? (· == ic) = some k ∧
      fk.columns[k]? = some c ∧ values[c]? = some v) : ∃ k : ℕ, fk.parent_columns[k]? = some ic ∧
        vals[k]? = some v ∧ v.Fits ((p.columns.map ColumnDef.col_type).getD ic .integer) := by
    obtain ⟨k, c, hfind, hc, hv⟩ := h
    have hpc : fk.parent_columns[k]? = some ic := by
      obtain ⟨hlt, hic, -⟩ := List.findIdx?_eq_some_iff_getElem.1 hfind
      rw [List.getElem?_eq_getElem hlt, beq_iff_eq.1 hic]
    obtain ⟨-, col, hcol, -⟩ := hk.columns c (List.mem_of_getElem? hc)
    obtain ⟨v', hv', -, hfits⟩ := fits_at hw hmap hc hcol
    obtain ⟨v'', hv'', hvalue⟩ := value_at hmap' hc
    rw [hv'] at hv''
    cases hv''
    rw [hv] at hvalue
    cases hvalue
    refine ⟨k, hpc, hv', ?_⟩
    obtain ⟨-, htype⟩ := hk.parents p hpt hpn k c ic hc hpc
    rw [List.getD_eq_getElem?_getD, List.getElem?_map, htype, hcol]
    exact hfits
  have hkeyed : KeyOf p idx key := by
    refine List.forall₂_map_left_iff.2 (hspec.imp fun ic v h => ?_)
    obtain ⟨k, -, -, hfits⟩ := hat h
    exact hfits
  have heq : key = indexed idx prow := ((prefix_entry_iff hpfit hidx hprow hkeyed rowid).1 hpre).symm
  rw [Holds, if_neg hne]
  refine List.ext_getElem? fun k => ?_
  rw [List.getElem?_map, List.getElem?_map]
  have hlens : fk.columns.length = vals.length := by simpa using congrArg List.length hmap
  have harity := hk.arity
  rw [if_neg hne] at harity
  cases hpc : fk.parent_columns[k]? with
  | none =>
    rw [List.getElem?_eq_none (by rw [← hlens, harity]; exact List.getElem?_eq_none_iff.1 hpc)]
    rfl
  | some pc =>
    obtain ⟨j, hj⟩ := List.getElem?_of_mem (hcover pc (List.mem_of_getElem? hpc))
    obtain ⟨hlen, hall⟩ := List.forall₂_iff_get.1 hspec
    have hjlt := (List.getElem?_eq_some_iff.1 hj).1
    obtain ⟨k', hpc', hv, -⟩ := hat (hall j hjlt (hlen ▸ hjlt))
    have hjc : idx.columns.get ⟨j, hjlt⟩ = pc := by
      rw [List.get_eq_getElem]
      exact (List.getElem?_eq_some_iff.1 hj).2
    rw [hjc] at hpc'
    have hkk : k' = k := by
      have hlt := (List.getElem?_eq_some_iff.1 hpc').1
      have hlt' := (List.getElem?_eq_some_iff.1 hpc).1
      have hsame : fk.parent_columns[k'] = fk.parent_columns[k] :=
        ((List.getElem?_eq_some_iff.1 hpc').2).trans (List.getElem?_eq_some_iff.1 hpc).2.symm
      exact hk.distinct.getElem_inj_iff.1 hsame
    rw [← hkk, hv, Option.map_some, Option.map_some, Option.some.injEq]
    -- what the index holds there is the value of the row
    have hpclt : pc < prow.length := hprow.1 ▸ (hpfit.columns idx hidx pc (List.mem_of_getElem? hj)).1
    have hindexed : key.get ⟨j, hlen ▸ hjlt⟩ = prow.getD pc .null := by
      have hget : key[j]? = (indexed idx prow)[j]? := by rw [heq]
      rw [List.getElem?_eq_getElem (hlen ▸ hjlt), indexed, List.getElem?_map, hj] at hget
      exact Option.some.inj hget
    rw [hindexed, List.getD_eq_getElem _ _ hpclt, List.getElem?_eq_getElem hpclt]

lemma parentExists_sound (hs : TablesFit tokenize tables) (h : Coherent tokenize tables caches kvs)
    (hk : KeyFits tables d fk) (hw : RowFits d row) (hstored : childValues row fk.columns = some vals)
    (hgiven : childValues values fk.columns = some vals)
    (hrun : (parentExists fk values vals).onMap kvs = .ok (true, m)) : HasParent tables kvs fk vals := by
  obtain ⟨parent, l, hget, hr₁⟩ := run_bind_eq_ok.1 hrun
  obtain rfl := readOnly_getTable _ _ _ _ hget
  obtain ⟨p, l', hsome, hr₂⟩ := run_bind_eq_ok.1 hr₁
  obtain ⟨hparent, rfl⟩ := run_lift_eq_ok.1 hsome
  obtain rfl := okOr_eq_ok.1 hparent
  obtain ⟨hpt, hpn⟩ := getTable_mem h.sorted h.listed hget
  refine ⟨p, hpt, hpn, ?_⟩
  by_cases hpk : fk.parent_columns = []
  · rw [if_pos hpk] at hr₂
    have hlen : vals.length = 1 := by
      have hmap := congrArg List.length (childValues_eq_some.1 hstored).1
      rw [List.length_map, List.length_map, hk.arity, if_pos hpk] at hmap
      exact hmap.symm
    split at hr₂
    · cases hlen
    · next n rest =>
      obtain rfl : rest = [] := List.length_eq_zero_iff.1 (Nat.succ.inj hlen)
      obtain ⟨prow, l, hread, hr₃⟩ := run_bind_eq_ok.1 hr₂
      rcases onMap_readRow (h.ok p hpt).order n with ⟨prow', hrow, hread'⟩ | ⟨-, hread'⟩
      · exact ⟨n, prow', hrow, by rw [Holds, if_pos hpk]⟩
      · rw [TreeM.onMap, hread] at hread'
        cases hread'
        cases hr₃
    · cases hr₂
  · rw [if_neg hpk] at hr₂
    obtain ⟨idx, l', hidx', hr₃⟩ := run_bind_eq_ok.1 hr₂
    obtain ⟨hindex, rfl⟩ := run_lift_eq_ok.1 hidx'
    obtain ⟨key, l'', hkey', hr₄⟩ := run_bind_eq_ok.1 hr₃
    obtain ⟨hkey, rfl⟩ := run_lift_eq_ok.1 hkey'
    obtain ⟨rids, l', hscan, hr₅⟩ := run_bind_eq_ok.1 hr₄
    have hfind := okOr_eq_ok.1 hindex
    have hidx : idx ∈ p.indexes := List.mem_of_find?_eq_some hfind
    have hcovers := List.find?_some hfind
    simp only [Bool.and_eq_true, decide_eq_true_eq, List.all_eq_true, List.contains_iff_mem] at hcovers
    obtain ⟨rids', hscan', hempty, -⟩ := indexScanEq_onMap (h.ok p hpt).order hidx key
    rw [TreeM.onMap, hscan] at hscan'
    cases hscan'
    have hne : rids ≠ [] := of_decide_eq_true (congrArg Prod.fst (Except.ok.inj hr₅))
    obtain ⟨rid, prow, hrow, hpre⟩ := not_not.1 (mt hempty.2 hne)
    exact ⟨rid, prow, hrow, holds_of_entry (h.ok p hpt) (hs.fits p hpt).toIndexesFit hk hpt hpn hw hstored
      hgiven hpk hidx hcovers.2 hkey hrow hpre⟩

/-- A row that passes the check refers to rows that are there. -/
lemma fkCheck_sound (hs : TablesFit tokenize tables) (h : Coherent tokenize tables caches kvs)
    (hkeys : ∀ fk ∈ d.foreign_keys, KeyFits tables d fk) (hw : RowFits d row)
    (hgiven : ∀ fk ∈ d.foreign_keys, ∀ vals, childValues row fk.columns = some vals →
      childValues values fk.columns = some vals) {fks : List ForeignKey} (hsub : ∀ fk ∈ fks, fk ∈ d.foreign_keys)
    (hr : (fkCheckParentsExist values fks).onMap kvs = .ok ((), kvs)) :
    ∀ fk ∈ fks, ∀ vals, childValues row fk.columns = some vals → HasParent tables kvs fk vals := by
  induction fks with
  | nil => exact fun fk hfk => (by cases hfk)
  | cons fk fks ih =>
    obtain ⟨hfk, hsub⟩ := List.forall_mem_cons.1 hsub
    have hhere := hgiven fk hfk
    rw [fkCheckParentsExist] at hr
    cases hvals : childValues values fk.columns with
    | none =>
      rw [hvals] at hr
      refine List.forall_mem_cons.2 ⟨fun vals hv => ?_, ih hsub hr⟩
      rw [hhere vals hv] at hvals
      cases hvals
    | some given =>
      rw [hvals] at hr
      obtain ⟨b, l, hparent, hr₁⟩ := run_bind_eq_ok.1 hr
      obtain rfl := readOnly_parentExists _ _ _ _ _ hparent
      obtain ⟨u, l', hreq, hr₂⟩ := run_bind_eq_ok.1 hr₁
      obtain ⟨hexists, rfl⟩ := run_lift_eq_ok.1 hreq
      obtain rfl := require_eq_ok.1 hexists
      refine List.forall_mem_cons.2 ⟨fun vals hv => ?_, ih hsub hr₂⟩
      have hv' := hhere vals hv
      rw [hvals] at hv'
      cases hv'
      exact parentExists_sound hs h (hkeys fk hfk) hw hv hvals hparent

end Parent

/-! ### Looking for the children -/

section Children
variable {tokenize : String → String → List Token} {tables : List TableDef} {d : TableDef}
  {fk : ForeignKey} {kvs m : Entries} {row vals : Row}

/-- The rows that are looked up are those that refer to the values. -/
lemma refersTo_iff (hk : KeyFits tables d fk) (hw : RowFits d row) (hlen : vals.length = fk.columns.length)
    (hnull : .null ∉ vals) : refersTo fk vals row = true ↔ childValues row fk.columns = some vals := by
  rw [childValues_eq_some, and_iff_left hnull, refersTo, List.all_eq_true]
  have hat {k c : ℕ} (hc : fk.columns[k]? = some c) {v : Value} :
      (row[c]?.any fun w => Sql.Value.same w v) = true ↔ row[c]? = some v := by
    obtain ⟨-, col, hcol, ht⟩ := hk.columns c (List.mem_of_getElem? hc)
    obtain ⟨w, hw', hfits, -⟩ := hw.2 c col hcol
    rw [hw', Option.any_some, same_iff (notReal_of_fits hfits ht), Option.some.injEq]
  constructor
  · intro hall
    refine List.ext_getElem? fun k => ?_
    rw [List.getElem?_map, List.getElem?_map]
    cases hc : fk.columns[k]? with
    | none =>
      rw [List.getElem?_eq_none (hlen ▸ List.getElem?_eq_none_iff.1 hc)]
      rfl
    | some c =>
      have hlt : k < vals.length := hlen ▸ (List.getElem?_eq_some_iff.1 hc).1
      have hzip : (fk.columns.zip vals)[k]? = some (c, vals[k]) :=
        List.getElem?_zip_eq_some.2 ⟨hc, List.getElem?_eq_getElem hlt⟩
      rw [Option.map_some, (hat hc).1 (hall _ (List.mem_of_getElem? hzip)), List.getElem?_eq_getElem hlt]
      rfl
  · rintro hmap ⟨c, v⟩ hmem
    obtain ⟨k, hk'⟩ := List.getElem?_of_mem hmem
    obtain ⟨hc, hv⟩ := List.getElem?_zip_eq_some.1 hk'
    obtain ⟨v', hv', hrow⟩ := value_at hmap hc
    rw [hv] at hv'
    cases hv'
    exact (hat hc).2 hrow

lemma fkChildrenMatching_onMap (h : TableOk tokenize d kvs) (hk : KeyFits tables d fk)
    (hlen : vals.length = fk.columns.length) {hits : List (Int64 × Row)}
    (hr : (fkChildrenMatching d fk vals).onMap kvs = .ok (hits, m)) :
    m = kvs ∧ ∀ r w, (r, w) ∈ hits ↔ HasRow d kvs r w ∧ childValues w fk.columns = some vals := by
  rw [fkChildrenMatching] at hr
  split_ifs at hr with hnull
  · cases hr
    refine ⟨rfl, fun r w => iff_of_false List.not_mem_nil ?_⟩
    rintro ⟨-, hvals⟩
    exact (childValues_eq_some.1 hvals).2 (any_null.1 hnull)
  · obtain ⟨rows, hscan, hmem, -⟩ := scanRows_onMap h
    rw [TreeM.onMap_bind, hscan] at hr
    cases hr
    refine ⟨rfl, fun r w => ?_⟩
    rw [List.mem_filter, hmem]
    refine and_congr_right fun hw => ?_
    exact refersTo_iff hk (h.typed r w hw) hlen fun hin => hnull (any_null.2 hin)

end Children

/-! ### Updating -/

/-- What is checked when foreign keys are made, and two restrictions on their columns. -/
def KeysFit (tables : List TableDef) : Prop :=
  ∀ d ∈ tables, ∀ fk ∈ d.foreign_keys, KeyFits tables d fk

/-- The entries of one row. -/
def AtRow (d : TableDef) (rowid : Int64) : TableDef → ForeignKey → Int64 → List Value → Prop :=
  fun d' _ r _ => d' = d ∧ r = rowid

/-- What rows refer to by these foreign keys, as a row has it that is to have other values. -/
def Changed (refs : List (TableDef × ForeignKey)) (rowid : Int64) (old new : Row) :
    TableDef → ForeignKey → Int64 → List Value → Prop :=
  fun d fk _ vals => (d, fk) ∈ refs ∧ Holds fk vals rowid old ∧
    ∀ vals', Holds fk vals' rowid new → Sql.Row.same vals vals' ≠ true

/-- No row refers to the values by the foreign key. -/
def Unreferred (child : TableDef) (fk : ForeignKey) (vals : List Value) (l : Entries) : Prop :=
  ∀ r w, HasRow child l r w → childValues w fk.columns ≠ some vals

section Update
variable {M : VectorMath} {tokenize : String → String → List Token} {tables : List TableDef}
  {caches : UInt32 → Option Int64} {d child : TableDef} {fk : ForeignKey} {l l' m : Entries}
  {old values record : Row} {rowid : Int64} {refs : List (TableDef × ForeignKey)}
  {X Y : TableDef → ForeignKey → Int64 → List Value → Prop}

lemma DangleIn.mono (h : DangleIn tables X l)
    (hXY : ∀ d fk r vals, Dangling tables l d fk r vals → X d fk r vals → Y d fk r vals) :
    DangleIn tables Y l :=
  fun d fk r vals hdang => hXY d fk r vals hdang (h d fk r vals hdang)

lemma columnsOf_eq_ok {row vals : Row} {cols : List ℕ} :
    columnsOf row cols = .ok vals ↔ cols.map (row[·]?) = vals.map some := by
  induction cols generalizing vals with
  | nil => cases vals <;> simp [columnsOf]
  | cons c cols ih =>
    rw [columnsOf]
    cases hv : row[c]? with
    | none => cases vals <;> simp [okOr, hv]
    | some v =>
      simp only [okOr_some, ok_bind, bind_eq_ok, Except.ok.injEq, List.map_cons, hv]
      cases vals with
      | nil => simp
      | cons w vals =>
        simp only [List.cons.injEq, Option.some.injEq, List.map_cons, ← ih]
        constructor
        · rintro ⟨vs, hvs, rfl, rfl⟩
          exact ⟨rfl, hvs⟩
        · rintro ⟨rfl, hvs⟩
          exact ⟨vals, hvs, rfl, rfl⟩

lemma referenced_iff {row vals : Row} :
    referenced fk rowid (some row) = .ok (some vals) ↔ Holds fk vals rowid row := by
  rw [referenced, Holds]
  split_ifs with hpk
  · rw [Except.ok.injEq, Option.some.injEq, eq_comm]
  · rw [← columnsOf_eq_ok, bind_eq_ok]
    constructor
    · rintro ⟨vs, hvs, heq⟩
      cases heq
      exact hvs
    · exact fun h => ⟨vals, h, rfl⟩

lemma referenced_some {row : Row} {r : Option (List Value)}
    (h : referenced fk rowid (some row) = .ok r) : ∃ vals, r = some vals ∧ Holds fk vals rowid row := by
  cases r with
  | some vals => exact ⟨vals, rfl, referenced_iff.1 h⟩
  | none =>
    rw [referenced] at h
    split_ifs at h
    · cases h
    · obtain ⟨vs, -, h⟩ := bind_eq_ok.1 h
      cases h

lemma Holds.length {vals row : Row} (hk : KeyFits tables d fk) (h : Holds fk vals rowid row) :
    vals.length = fk.columns.length := by
  rw [Holds] at h
  rw [hk.arity]
  split_ifs at h ⊢ with hpk
  · rw [h]
    rfl
  · simpa using (congrArg List.length h).symm

lemma Holds.unique {vals vals' row : Row} (h : Holds fk vals rowid row) (h' : Holds fk vals' rowid row) :
    vals = vals' := by
  rw [Holds] at h h'
  split_ifs at h h'
  · rw [h, h']
  · exact List.map_injective_iff.2 (Option.some_injective _) (h.symm.trans h')

lemma fkReferencing_onMap {name : String} (hlist : listTables.onMap l = .ok (tables, l))
    (hr : (fkReferencing name).onMap l = .ok (refs, m)) :
    m = l ∧ ∀ t fk, (t, fk) ∈ refs ↔ t ∈ tables ∧ fk ∈ t.foreign_keys ∧ fk.parent = name := by
  rw [fkReferencing, TreeM.onMap_bind, hlist] at hr
  cases hr
  refine ⟨rfl, fun t fk => ?_⟩
  simp only [List.mem_flatMap, List.mem_map, List.mem_filter, beq_iff_eq, Prod.mk.injEq]
  constructor
  · rintro ⟨t', ht, fk', ⟨hfk, hname⟩, rfl, rfl⟩
    exact ⟨ht, hfk, hname⟩
  · rintro ⟨ht, hfk, hname⟩
    exact ⟨t, ht, fk, ⟨hfk, hname⟩, rfl, rfl⟩

/-- Before a row is written its children are only looked at. -/
lemma readOnly_onUpdateAll (up : TableDef → Int64 → Row → TreeM Unit) :
    ReadOnly TreeM.keyCheck (onUpdateAll up rowid old values true refs) := by
  induction refs with
  | nil => exact .pure ()
  | cons p refs ih =>
    refine .bind (.bind (.lift _) fun old_ref => .bind (.lift _) fun new_ref => ?_) fun _ => ih
    by_cases hsame : Sql.Row.same (old_ref.getD []) (new_ref.getD []) = true
    · rw [if_pos hsame]
      exact .pure ()
    · rw [if_neg hsame]
      refine .bind (readOnly_fkChildrenMatching p.2 _) fun hits => ?_
      by_cases hhits : hits = []
      · rw [if_pos hhits]
        exact .pure ()
      · rw [if_neg hhits]
        cases p.2.on_update with
        | restrict => exact .lift _
        | cascade => exact .pure ()
        | setNull => exact .pure ()

/-- The rows of the other tables stay. -/
lemma other_rows (hs : TablesFit tokenize tables) (hd : d ∈ tables)
    (hagree : ∀ key, ¬ WrittenKey d key → valueOf key m = valueOf key l) {d' : TableDef}
    (hd' : d' ∈ tables) (hne : d' ≠ d) (r : Int64) (w : Row) : HasRow d' m r w ↔ HasRow d' l r w :=
  hasRow_congr (hagree _ fun hw => hw.apart (hs.apart.forall hd hd' hne.symm)
    (Or.inl (rowPrefix_rowKey _ _)))

/-- A value that is the same is kept by a row that is written. -/
lemma Holds.stored (hk : KeyFits tables child fk) (hd : d ∈ tables) (hname : d.name = fk.parent)
    (hrec : validatedRecord d values = .ok record) {row vals new : Row} (hrow : RowFits child row)
    (hvals : childValues row fk.columns = some vals) (h : Holds fk new rowid values)
    (hsame : Sql.Row.same vals new = true) : Holds fk vals rowid (fullRow d rowid record) := by
  have hreal := notReal_of_childValues hk hrow hvals
  obtain ⟨hmap, hnull⟩ := childValues_eq_some.1 hvals
  simp only [Sql.Row.same, Bool.and_eq_true, beq_iff_eq, List.all_eq_true] at hsame
  obtain ⟨hlen, hall⟩ := hsame
  have heq : vals = new := by
    refine List.ext_getElem hlen fun k hk₁ hk₂ => ?_
    have hzip : (vals[k], new[k]) ∈ vals.zip new :=
      List.mem_of_getElem? (List.getElem?_zip_eq_some.2
        ⟨List.getElem?_eq_getElem hk₁, List.getElem?_eq_getElem hk₂⟩)
    exact (same_iff (hreal _ (List.getElem_mem hk₁))).1 (hall _ hzip)
  subst heq
  rw [Holds] at h ⊢
  split_ifs at h ⊢ with hpk
  · exact h
  · rw [← h]
    refine List.map_congr_left fun pc hpc => ?_
    obtain ⟨k, hkpc⟩ := List.getElem?_of_mem hpc
    obtain ⟨v, hv, hvalue⟩ := value_at h hkpc
    have harity := hk.arity
    rw [if_neg hpk] at harity
    have hlt : k < fk.columns.length := harity ▸ (List.getElem?_eq_some_iff.1 hkpc).1
    obtain ⟨-, col, hcol, ht⟩ := hk.columns _ (List.getElem_mem hlt)
    obtain ⟨ha, htype⟩ := hk.parents d hd hname k _ pc (List.getElem?_eq_getElem hlt) hkpc
    rw [hcol, Option.map_some, Option.map_eq_some_iff] at htype
    obtain ⟨pcol, hpcol, htype⟩ := htype
    rw [hvalue]
    exact (stored_iff hrec hpcol (htype ▸ ht) ha).2 (by rw [hvalue, Option.getD_some])

/-- A row that was there has been written, and the rows that refer to what it had are to follow. -/
structure Overwritten (tokenize : String → String → List Token) (tables : List TableDef)
    (caches : UInt32 → Option Int64) (d : TableDef) (rowid : Int64) (values old record : Row)
    (refs : List (TableDef × ForeignKey)) (l l' : Entries) : Prop where
  was : HasRow d l rowid old
  check : (fkCheckParentsExist values d.foreign_keys).onMap l = .ok ((), l)
  coherent : Coherent tokenize tables caches l'
  validated : validatedRecord d values = .ok record
  rows : ∀ r w, HasRow d l' r w ↔ if r = rowid then w = fullRow d rowid record else HasRow d l r w
  others : ∀ d' ∈ tables, d' ≠ d → ∀ r w, HasRow d' l' r w ↔ HasRow d' l r w
  refs : ∀ t fk, (t, fk) ∈ refs ↔ t ∈ tables ∧ fk ∈ t.foreign_keys ∧ fk.parent = d.name

/-- When a row is written, no more than the rows that refer to what it had come to dangle. -/
lemma Overwritten.dangle (h : Overwritten tokenize tables caches d rowid values old record refs l l')
    (hkeys : KeysFit tables) (hfit : TablesFit tokenize tables) (hco : Coherent tokenize tables caches l)
    (hd : d ∈ tables) (hgiven : Given d values) (hbefore : DangleIn tables (X ⊔ AtRow d rowid) l) :
    DangleIn tables (X ⊔ Changed refs rowid old values) l' := by
  have hself : HasRow d l' rowid (fullRow d rowid record) := (h.rows _ _).2 (by rw [if_pos rfl])
  intro d' fk r vals hdang
  obtain ⟨w, hw, hvals⟩ := hdang.row
  have hk := hkeys d' hdang.table fk hdang.key
  by_contra hnot
  change ¬ (X d' fk r vals ∨ Changed refs rowid old values d' fk r vals) at hnot
  rw [not_or] at hnot
  -- the parent was there before
  have hparent : HasParent tables l fk vals := by
    by_cases hrow : d' = d ∧ r = rowid
    · obtain ⟨rfl, rfl⟩ := hrow
      rw [h.rows, if_pos rfl] at hw
      subst hw
      exact fkCheck_sound hfit hco (hkeys d' hd) ((h.coherent.ok d' hd).typed r _ hself)
        (fun fk hfk vals => given_of_stored (hkeys d' hd fk hfk) hfk hgiven h.validated) (fun _ => id) h.check
        fk hdang.key vals hvals
    · by_contra horphan
      have hw' : HasRow d' l r w := by
        by_cases hd' : d' = d
        · subst hd'
          rw [h.rows, if_neg fun heq => hrow ⟨rfl, heq⟩] at hw
          exact hw
        · exact (h.others d' hdang.table hd' r w).1 hw
      rcases hbefore d' fk r vals ⟨hdang.table, hdang.key, ⟨w, hw', hvals⟩, horphan⟩ with hX | hat
      · exact hnot.1 hX
      · exact hrow hat
  obtain ⟨p, hp, hname, rid, prow, hprow, hholds⟩ := hparent
  by_cases hsame : p = d ∧ rid = rowid
  · obtain ⟨rfl, rfl⟩ := hsame
    obtain rfl := hprow.unique h.was
    refine hnot.2 ⟨(h.refs d' fk).2 ⟨hdang.table, hdang.key, hname.symm⟩, hholds, fun new hnew hsame => ?_⟩
    exact hdang.orphan ⟨p, hp, hname, rid, _, hself,
      hnew.stored hk hd hname h.validated ((h.coherent.ok d' hdang.table).typed r w hw) hvals hsame⟩
  · refine hdang.orphan ⟨p, hp, hname, rid, prow, ?_, hholds⟩
    by_cases hpd : p = d
    · subst hpd
      rw [h.rows, if_neg fun heq => hsame ⟨rfl, heq⟩]
      exact hprow
    · exact (h.others p hp hpd rid prow).2 hprow

/-- The update of a row that refers to another. -/
abbrev updateChild (M : VectorMath) (tokenize : String → String → List Token) (n : ℕ) (child : TableDef)
    (id : Int64) (vals : Row) : TreeM Unit := do
  let _ ← updateRow M tokenize n child id vals
  pure ()

/-- An update finds no row, or writes it and has the rows that refer to it follow. -/
lemma updateRow_cases {n : ℕ} {b : Bool} (hfit : TablesFit tokenize tables) (hd : d ∈ tables)
    (hco : Coherent tokenize tables caches l)
    (hfits : ∀ q ∈ (updateRow M tokenize (n + 1) d rowid values).inserted l, Fits q.2)
    (hrun : (updateRow M tokenize (n + 1) d rowid values).onMap l = .ok (b, m)) :
    ((∀ w, ¬ HasRow d l rowid w) ∧ m = l) ∨ ∃ old record refs l',
      Overwritten tokenize tables caches d rowid values old record refs l l' ∧
      (∀ q ∈ (onUpdateAll (updateChild M tokenize n) rowid old values false refs).inserted l', Fits q.2) ∧
      (onUpdateAll (updateChild M tokenize n) rowid old values false refs).onMap l' = .ok ((), m) := by
  rw [updateRow] at hfits hrun
  obtain ⟨u, l₁, hcheck, hrun₁⟩ := run_bind_eq_ok.1 hrun
  rw [inserted_bind hcheck] at hfits
  obtain rfl := readOnly_fkCheckParentsExist _ _ _ _ hcheck
  obtain ⟨old, l₂, hread, hrun₂⟩ := run_bind_eq_ok.1 hrun₁
  rw [inserted_bind hread] at hfits
  obtain rfl := readOnly_readRow _ _ _ hread
  have hfits₂ := fun q hq => hfits q (List.mem_append_right _ (List.mem_append_right _ hq))
  rcases onMap_readRow (hco.ok d hd).order rowid with ⟨old', hold, hread'⟩ | ⟨hnone, hread'⟩
  · right
    rw [TreeM.onMap, hread] at hread'
    cases hread'
    dsimp only at hrun₂ hfits₂
    obtain ⟨refs, l₃, hrefs, hrun₃⟩ := run_bind_eq_ok.1 hrun₂
    rw [inserted_bind hrefs] at hfits₂
    obtain ⟨rfl, -⟩ := fkReferencing_onMap hco.listed hrefs
    obtain ⟨u', l₄, hfirst, hrun₄⟩ := run_bind_eq_ok.1 hrun₃
    rw [inserted_bind hfirst] at hfits₂
    obtain rfl := readOnly_onUpdateAll _ _ _ _ hfirst
    obtain ⟨ok, l₅, hover, hrun₅⟩ := run_bind_eq_ok.1 hrun₄
    rw [inserted_bind hover] at hfits₂
    have hco₅ := keeps_overwriteRow hfit hd l₄ ok l₅ hco (fun q hq => hfits₂ q (by simp [hq])) hover
    obtain ⟨-, ⟨-, hnone, -⟩ | ⟨rfl, -, record, hrec, hiff⟩⟩ := overwriteRow_triple (hco.ok d hd)
      (hfit.fits d hd) l₄ ok l₅ rfl (fun q hq => hfits₂ q (by simp [hq])) hover
    · exact absurd hold (hnone old')
    rw [if_pos rfl] at hrun₅ hfits₂
    obtain ⟨refs', l₆, hrefs', hrun₆⟩ := run_bind_eq_ok.1 hrun₅
    rw [inserted_bind hrefs'] at hfits₂
    obtain ⟨rfl, hmem⟩ := fkReferencing_onMap hco₅.listed hrefs'
    obtain ⟨u'', l₇, hlast, hrun₇⟩ := run_bind_eq_ok.1 hrun₆
    rw [inserted_bind hlast] at hfits₂
    cases hrun₇
    exact ⟨old', record, refs', l₆, ⟨hold, hcheck, hco₅, hrec, hiff, fun d' hd' hne => other_rows hfit hd
      (fun key hkey => localTo_overwriteRow.keeps hco.sorted hover hkey) hd' hne, hmem⟩,
      fun q hq => hfits₂ q (by simp [hq]), hlast⟩
  · left
    rw [TreeM.onMap, hread] at hread'
    cases hread'
    dsimp only at hrun₂ hfits₂
    obtain ⟨-, ⟨-, -, rfl⟩ | ⟨-, ⟨w, hw⟩, -⟩⟩ := overwriteRow_triple (hco.ok d hd) (hfit.fits d hd) l₂ b m
      rfl hfits₂ hrun₂
    · exact ⟨hnone, rfl⟩
    · exact absurd hw (hnone w)

/-- The row of an update no longer dangles, and no other has come to. -/
abbrev Settles (M : VectorMath) (tokenize : String → String → List Token) (tables : List TableDef)
    (caches : UInt32 → Option Int64) (n : ℕ) : Prop :=
  ∀ d ∈ tables, ∀ rowid values, Given d values → ∀ X, Triple TreeM.keyCheck Fits
    (fun l => Coherent tokenize tables caches l ∧ DangleIn tables (X ⊔ AtRow d rowid) l)
    (updateRow M tokenize n d rowid values)
    fun _ l => Coherent tokenize tables caches l ∧ DangleIn tables X l

lemma setColumns_length {row row' : Row} {sets : List (ℕ × Value)} (h : setColumns row sets = .ok row') :
    row'.length = row.length := by
  induction sets generalizing row with
  | nil =>
    cases h
    rfl
  | cons s sets ih =>
    obtain ⟨u, -, h⟩ := bind_eq_ok.1 h
    rw [ih h, List.length_set]

lemma given_of_length (h : d.columns.length ≤ values.length) : Given d values := by
  intro fk _ c _ col hcol
  exact Or.inl ((List.getElem?_eq_some_iff.1 hcol).1.trans_le h)

/-- Rows that are written one after the other settle one after the other. -/
lemma updateHits_settle {n : ℕ} (hup : Settles M tokenize tables caches n) (hchild : child ∈ tables)
    (sets : List (ℕ × Value)) (hits : List (Int64 × Row))
    (hlen : ∀ h ∈ hits, child.columns.length ≤ h.2.length) :
    Triple TreeM.keyCheck Fits (fun l => Coherent tokenize tables caches l ∧
        DangleIn tables (X ⊔ fun d' _ r _ => d' = child ∧ r ∈ hits.map Prod.fst) l)
      (updateHits (updateChild M tokenize n) child sets hits)
      fun _ l => Coherent tokenize tables caches l ∧ DangleIn tables X l := by
  induction hits with
  | nil =>
    refine .pure fun l hl => ⟨hl.1, hl.2.mono ?_⟩
    rintro d' fk r vals - (h | ⟨-, h⟩)
    · exact h
    · cases h
  | cons hit hits ih =>
    obtain ⟨hhere, hlen⟩ := List.forall_mem_cons.1 hlen
    refine .bind (.lift (Q := fun vals l => setColumns hit.2 sets = .ok vals ∧
      Coherent tokenize tables caches l ∧ DangleIn tables ((X ⊔ fun d' _ r _ => d' = child ∧
        r ∈ hits.map Prod.fst) ⊔ AtRow child hit.1) l) fun l vals hl hvals => ⟨hvals, hl.1, hl.2.mono ?_⟩)
      fun vals => .of_fact (fun _ hl => hl.1) fun hvals => ?_
    · rintro d' fk r vals - (h | ⟨rfl, h⟩)
      · exact Or.inl (Or.inl h)
      · rcases List.mem_cons.1 h with heq | h
        · exact Or.inr ⟨rfl, heq⟩
        · exact Or.inl (Or.inr ⟨rfl, h⟩)
    · have hgiven : Given child vals := given_of_length (setColumns_length hvals ▸ hhere)
      refine .bind (.bind ((hup child hchild hit.1 vals hgiven _).conseq (fun _ hl => hl.2) fun _ _ => id)
        fun _ => .pure fun _ => id) fun _ => ih hlen

/-- A foreign key leaves an update alone, or has the rows that refer to what was there written. -/
lemma onUpdate_cases {n : ℕ} {u : Unit} (hco : Coherent tokenize tables caches l)
    (hchild : child ∈ tables) (hk : KeyFits tables child fk)
    (hfits : ∀ q ∈ (onUpdate (updateChild M tokenize n) rowid old values false child fk).inserted l, Fits q.2)
    (hrun : (onUpdate (updateChild M tokenize n) rowid old values false child fk).onMap l = .ok (u, m)) :
    ∃ vals vals', Holds fk vals rowid old ∧ Holds fk vals' rowid values ∧
      (((Sql.Row.same vals vals' = true ∨ Unreferred child fk vals l) ∧ m = l) ∨ ∃ hits sets,
        (∀ r w, (r, w) ∈ hits ↔ HasRow child l r w ∧ childValues w fk.columns = some vals) ∧
        (sets = cascaded fk vals' ∨ sets = nulled fk) ∧
        (∀ q ∈ (updateHits (updateChild M tokenize n) child sets hits).inserted l, Fits q.2) ∧
        (updateHits (updateChild M tokenize n) child sets hits).onMap l = .ok (u, m)) := by
  obtain ⟨r, l₁, hr, hrun₁⟩ := run_bind_eq_ok.1 hrun
  rw [onUpdate, inserted_bind hr] at hfits
  obtain ⟨hold, rfl⟩ := run_lift_eq_ok.1 hr
  obtain ⟨vals, rfl, hholds⟩ := referenced_some hold
  obtain ⟨r', l₂, hr', hrun₂⟩ := run_bind_eq_ok.1 hrun₁
  rw [inserted_bind hr'] at hfits
  obtain ⟨hnew, rfl⟩ := run_lift_eq_ok.1 hr'
  obtain ⟨vals', rfl, hholds'⟩ := referenced_some hnew
  refine ⟨vals, vals', hholds, hholds', ?_⟩
  rw [Option.getD_some, Option.getD_some] at hrun₂ hfits
  by_cases hsame : Sql.Row.same vals vals' = true
  · rw [if_pos hsame] at hrun₂
    cases hrun₂
    exact Or.inl ⟨Or.inl hsame, rfl⟩
  rw [if_neg hsame] at hrun₂ hfits
  obtain ⟨hits, l₃, hfind, hrun₃⟩ := run_bind_eq_ok.1 hrun₂
  rw [inserted_bind hfind] at hfits
  obtain ⟨rfl, hhits⟩ := fkChildrenMatching_onMap (hco.ok child hchild) hk (hholds.length hk) hfind
  by_cases hnone : hits = []
  · rw [if_pos hnone] at hrun₃
    cases hrun₃
    subst hnone
    exact Or.inl ⟨Or.inr fun r w hw hvals => List.not_mem_nil ((hhits r w).2 ⟨hw, hvals⟩), rfl⟩
  rw [if_neg hnone] at hrun₃ hfits
  right
  cases hact : fk.on_update with
  | restrict =>
    rw [hact] at hrun₃
    cases hrun₃
  | cascade =>
    rw [hact] at hrun₃ hfits
    exact ⟨hits, _, hhits, Or.inl rfl, fun q hq => hfits q (by simp [hq]), hrun₃⟩
  | setNull =>
    rw [hact] at hrun₃ hfits
    exact ⟨hits, _, hhits, Or.inr rfl, fun q hq => hfits q (by simp [hq]), hrun₃⟩

/-- After the foreign keys of one table have done their work no row refers to what was there. -/
lemma onUpdate_settles {n : ℕ} (hkeys : KeysFit tables) (hup : Settles M tokenize tables caches n)
    (hmem : child ∈ tables ∧ fk ∈ child.foreign_keys) :
    Triple TreeM.keyCheck Fits (fun l => Coherent tokenize tables caches l ∧
        DangleIn tables (X ⊔ Changed ((child, fk) :: refs) rowid old values) l)
      (onUpdate (updateChild M tokenize n) rowid old values false child fk)
      fun _ l => Coherent tokenize tables caches l ∧
        DangleIn tables (X ⊔ Changed refs rowid old values) l := by
  obtain ⟨hchild, hfk⟩ := hmem
  rintro l u m ⟨hco, hl⟩ hfits hrun
  obtain ⟨vals, vals', hholds, hholds', hcases⟩ :=
    onUpdate_cases hco hchild (hkeys child hchild fk hfk) hfits hrun
  -- rows that dangle by this foreign key refer to the old values
  have hsplit {Z : TableDef → ForeignKey → Int64 → List Value → Prop} (hhere : ∀ r,
      Dangling tables l child fk r vals → Sql.Row.same vals vals' ≠ true → Z child fk r vals) :
      DangleIn tables ((X ⊔ Changed refs rowid old values) ⊔ Z) l := by
    refine hl.mono ?_
    rintro d' fk' r w hdang (hX | ⟨hmem, hold, hne⟩)
    · exact Or.inl (Or.inl hX)
    · rcases List.mem_cons.1 hmem with heq | hmem
      · cases heq
        obtain rfl := hold.unique hholds
        exact Or.inr (hhere r hdang (hne vals' hholds'))
      · exact Or.inl (Or.inr ⟨hmem, hold, hne⟩)
  rcases hcases with ⟨hleft, rfl⟩ | ⟨hits, sets, hhits, -, hfits', hrun'⟩
  · refine ⟨hco, (hsplit (Z := ⊥) fun r hdang hne => ?_).mono ?_⟩
    · rcases hleft with hsame | hnone
      · exact hne hsame
      · obtain ⟨w, hw, hvals⟩ := hdang.row
        exact hnone r w hw hvals
    · rintro d' fk' r w - (h | h)
      · exact h
      · exact h.elim
  · refine updateHits_settle hup hchild sets hits (fun h hh => ?_) l u m
      ⟨hco, hsplit fun r hdang _ => ?_⟩ hfits' hrun'
    · rw [((hco.ok child hchild).typed h.1 h.2 ((hhits h.1 h.2).1 hh).1).1]
    · obtain ⟨w, hw⟩ := hdang.row
      exact ⟨rfl, List.mem_map.2 ⟨(r, w), (hhits r w).2 hw, rfl⟩⟩

lemma onUpdateAll_settles {n : ℕ} (hkeys : KeysFit tables) (hup : Settles M tokenize tables caches n)
    (hmem : ∀ t fk, (t, fk) ∈ refs → t ∈ tables ∧ fk ∈ t.foreign_keys) :
    Triple TreeM.keyCheck Fits (fun l => Coherent tokenize tables caches l ∧
        DangleIn tables (X ⊔ Changed refs rowid old values) l)
      (onUpdateAll (updateChild M tokenize n) rowid old values false refs)
      fun _ l => Coherent tokenize tables caches l ∧ DangleIn tables X l := by
  induction refs with
  | nil =>
    refine .pure fun l hl => ⟨hl.1, hl.2.mono ?_⟩
    rintro d' fk r vals - (h | ⟨h, -⟩)
    · exact h
    · cases h
  | cons p refs ih =>
    exact .bind (onUpdate_settles hkeys hup (hmem p.1 p.2 List.mem_cons_self))
      fun _ => ih fun t fk h => hmem t fk (List.mem_cons_of_mem _ h)

/-- An update may take a row that dangles, and leaves no more rows dangling than there were without
it. -/
lemma updateRow_settles (hfit : TablesFit tokenize tables) (hkeys : KeysFit tables) (n : ℕ) :
    Settles M tokenize tables caches n := by
  induction n with
  | zero =>
    intro d hd rowid values hgiven X
    exact .lift fun l b hl hb => by cases hb
  | succ n ih =>
    rintro d hd rowid values hgiven X l b m ⟨hco, hdang⟩ hfits hrun
    rcases updateRow_cases hfit hd hco hfits hrun with ⟨hnone, rfl⟩ | ⟨old, record, refs, l', hover, hfits', hlast⟩
    · refine ⟨hco, hdang.mono ?_⟩
      rintro d' fk r vals hd' (h | ⟨rfl, rfl⟩)
      · exact h
      · obtain ⟨w, hw, -⟩ := hd'.row
        exact absurd hw (hnone w)
    · refine onUpdateAll_settles hkeys ih (fun t fk h => ?_) l' () m
        ⟨hover.coherent, hover.dangle hkeys hfit hco hd hgiven hdang⟩ hfits' hlast
      obtain ⟨ht, hfk, -⟩ := (hover.refs t fk).1 h
      exact ⟨ht, hfk⟩

end Update

/-! ### Rows that only lose values -/

/-- Some values have become `NULL`. -/
def Nulled (w w' : Row) : Prop :=
  w'.length = w.length ∧ ∀ c : ℕ, w'[c]? = w[c]? ∨ w'[c]? = some .null

/-- The row stands in the table as it is. -/
structure AsStored (d : TableDef) (rowid : Int64) (w : Row) : Prop where
  length : w.length = d.columns.length
  fits : ∀ (c : ℕ) col, d.columns[c]? = some col → ∃ v, w[c]? = some v ∧ v.Fits col.col_type
  alias_ : ∀ i, d.rowid_alias = some i → w[i]? = some (.integer rowid)

/-- Rows that were there at some time. -/
structure Bound where
  row : TableDef → Int64 → Row → Prop
  unique : ∀ {d r w w'}, row d r w → row d r w' → w = w'

def boundOf (l : Entries) : Bound := ⟨fun d r w => HasRow d l r w, HasRow.unique⟩

/-- No rows have come since, and they have only lost values. -/
def Within (tables : List TableDef) (β : Bound) (l : Entries) : Prop :=
  ∀ d ∈ tables, ∀ r w, HasRow d l r w → ∃ w₀, β.row d r w₀ ∧ Nulled w₀ w

section Nulled
variable {tokenize : String → String → List Token} {tables : List TableDef} {d : TableDef}
  {fk : ForeignKey} {l : Entries} {w w' w'' values record vals vals' : Row} {rowid : Int64}
  {sets : List (ℕ × Value)}

lemma Nulled.refl (w : Row) : Nulled w w := ⟨rfl, fun _ => Or.inl rfl⟩

lemma Nulled.trans (h : Nulled w w') (h' : Nulled w' w'') : Nulled w w'' := by
  refine ⟨h'.1.trans h.1, fun c => ?_⟩
  rcases h'.2 c with heq | hnull
  · rw [heq]
    exact h.2 c
  · exact Or.inr hnull

lemma within_boundOf (l : Entries) : Within tables (boundOf l) l :=
  fun _ _ _ w hw => ⟨w, hw, .refl w⟩

/-- A value that is left is the one that was there. -/
lemma Nulled.of_value (h : Nulled w w') {c : ℕ} {v : Value} (hv : w'[c]? = some v) (hne : v ≠ .null) :
    w[c]? = some v := by
  rcases h.2 c with heq | hnull
  · rw [← heq, hv]
  · rw [hv, Option.some.injEq] at hnull
    exact absurd hnull hne

lemma Nulled.childValues {cols : List ℕ} (h : Nulled w w') (hvals : childValues w' cols = some vals) :
    childValues w cols = some vals := by
  obtain ⟨hmap, hnull⟩ := childValues_eq_some.1 hvals
  refine childValues_eq_some.2 ⟨?_, hnull⟩
  rw [← hmap]
  refine List.map_congr_left fun c hc => ?_
  obtain ⟨k, hk⟩ := List.getElem?_of_mem hc
  obtain ⟨v, hv, hrow⟩ := value_at hmap hk
  rw [hrow]
  exact h.of_value hrow fun heq => hnull (heq ▸ List.mem_of_getElem? hv)

lemma Nulled.holds (h : Nulled w w') (hnull : .null ∉ vals) (hholds : Holds fk vals rowid w') :
    Holds fk vals rowid w := by
  rw [Holds] at hholds ⊢
  split_ifs at hholds ⊢
  · exact hholds
  · exact (childValues_eq_some.1 (h.childValues (childValues_eq_some.2 ⟨hholds, hnull⟩))).1

/-- What two rows that come of one refer to is the same but for values that are lost. -/
lemma Nulled.refers (h : Nulled w w') (h' : Nulled w w'') (hvals : Holds fk vals rowid w')
    (hvals' : Holds fk vals' rowid w'') (hnull : .null ∉ vals) {k : ℕ} {v : Value}
    (hv : vals'[k]? = some v) : v = .null ∨ vals[k]? = some v := by
  rw [Holds] at hvals hvals'
  split_ifs at hvals hvals'
  · rw [hvals, ← hvals']
    exact Or.inr hv
  · have hlen : k < fk.parent_columns.length := by
      have heq := congrArg List.length hvals'
      rw [List.length_map, List.length_map] at heq
      exact heq ▸ (List.getElem?_eq_some_iff.1 hv).1
    obtain ⟨v₁, hv₁, hrow₁⟩ := value_at hvals (List.getElem?_eq_getElem hlen)
    obtain ⟨v₂, hv₂, hrow₂⟩ := value_at hvals' (List.getElem?_eq_getElem hlen)
    rw [hv] at hv₂
    cases hv₂
    have hw := h.of_value hrow₁ fun heq => hnull (heq ▸ List.mem_of_getElem? hv₁)
    rcases h'.2 (fk.parent_columns[k]) with heq | hnull'
    · rw [hrow₂, hw] at heq
      rw [heq]
      exact Or.inr hv₁
    · rw [hrow₂] at hnull'
      exact Or.inl (Option.some.inj hnull')

lemma coerce_of_fits {t : ColType} {v v' : Value} (h : coerce t v = some v') (hv : v.Fits t) : v' = v := by
  cases t <;> cases v <;> first | (cases h; done) | (cases h; rfl) | exact hv.elim

/-- A row that stands in a table is written as it is. -/
lemma AsStored.full (h : AsStored d rowid values) (hrec : validatedRecord d values = .ok record) :
    fullRow d rowid record = values := by
  have hlen := length_validatedRecord hrec
  refine List.ext_getElem? fun c => ?_
  rcases Nat.lt_or_ge c d.columns.length with hc | hc
  · obtain ⟨v, hv, hresolve⟩ := validatedRecord_getElem? hrec hc
    rw [getElem?_fullRow hlen.le hc, columnValue, hv, Option.getD_some]
    split_ifs with ha
    · exact (h.alias_ c ha).symm
    · obtain ⟨v', hv', hfits⟩ := h.fits c _ (List.getElem?_eq_getElem hc)
      rw [resolveCol, if_neg ha, List.getElem?_eq_getElem hc, okOr_some, ok_bind, hv',
        Option.getD_some] at hresolve
      rw [hv']
      split at hresolve
      · split_ifs at hresolve
        cases hresolve
        rfl
      · rw [coerce_of_fits (okOr_eq_ok.1 hresolve) hfits]
  · rw [List.getElem?_eq_none (length_fullRow hlen.le ▸ hc), List.getElem?_eq_none (h.length ▸ hc)]

lemma HasRow.asStored (h : TableOk tokenize d l) (hw : HasRow d l rowid w) : AsStored d rowid w := by
  obtain ⟨hlen, hfits⟩ := h.typed rowid w hw
  refine ⟨hlen, fun c col hcol => ?_, fun i hi => ?_⟩
  · obtain ⟨v, hv, hfit, -⟩ := hfits c col hcol
    exact ⟨v, hv, hfit⟩
  · obtain ⟨record, hst, -, rfl⟩ := hw
    rw [getElem?_fullRow hst.1 (d.alias_lt i hi), columnValue, if_pos hi]

lemma setColumns_spec (h : setColumns w sets = .ok w') (c : ℕ) :
    w'[c]? = w[c]? ∧ c ∉ sets.map Prod.fst ∨ ∃ v, (c, v) ∈ sets ∧ w'[c]? = some v := by
  induction sets generalizing w with
  | nil =>
    cases h
    exact Or.inl ⟨rfl, List.not_mem_nil⟩
  | cons s sets ih =>
    obtain ⟨u, hlt, h⟩ := bind_eq_ok.1 h
    have hlt := require_eq_ok.1 hlt
    rcases ih h with ⟨heq, hout⟩ | ⟨v, hv, heq⟩
    · rw [heq]
      by_cases hc : c = s.1
      · refine Or.inr ⟨s.2, by simp [hc], ?_⟩
        rw [hc, List.getElem?_set_self hlt]
      · refine Or.inl ⟨List.getElem?_set_ne (Ne.symm hc), ?_⟩
        rw [List.map_cons, List.mem_cons, not_or]
        exact ⟨hc, hout⟩
    · exact Or.inr ⟨v, List.mem_cons_of_mem _ hv, heq⟩

lemma setColumns_nulled (h : setColumns w sets = .ok w')
    (hsets : ∀ p ∈ sets, p.2 = .null ∨ w[p.1]? = some p.2) : Nulled w w' := by
  refine ⟨setColumns_length h, fun c => ?_⟩
  rcases setColumns_spec h c with ⟨heq, -⟩ | ⟨v, hv, heq⟩
  · exact Or.inl heq
  · rcases hsets _ hv with hnull | hsame
    · exact Or.inr (heq.trans (congrArg some hnull))
    · exact Or.inl (heq.trans hsame.symm)

lemma AsStored.nulled (h : AsStored d rowid w) (hsets : ∀ p ∈ sets, d.rowid_alias ≠ some p.1)
    (hset : setColumns w sets = .ok w') (hnulled : Nulled w w') : AsStored d rowid w' := by
  refine ⟨hnulled.1.trans h.length, fun c col hcol => ?_, fun i hi => ?_⟩
  · obtain ⟨v, hv, hfits⟩ := h.fits c col hcol
    rcases hnulled.2 c with heq | heq
    · exact ⟨v, heq.trans hv, hfits⟩
    · exact ⟨.null, heq, by cases col.col_type <;> trivial⟩
  · rcases setColumns_spec hset i with ⟨heq, -⟩ | ⟨v, hv, -⟩
    · exact heq.trans (h.alias_ i hi)
    · exact absurd hi (hsets _ hv)

end Nulled

section Lower
variable {M : VectorMath} {tokenize : String → String → List Token} {tables : List TableDef}
  {caches : UInt32 → Option Int64} {d child : TableDef} {fk : ForeignKey} {l : Entries}
  {old values : Row} {rowid : Int64} {refs : List (TableDef × ForeignKey)} {B : Bound → Prop}
  {sets : List (ℕ × Value)} {hits : List (Int64 × Row)} {n : ℕ}

/-- The database is in order, and has come of others by losing rows and values. -/
def Below (tokenize : String → String → List Token) (tables : List TableDef)
    (caches : UInt32 → Option Int64) (B : Bound → Prop) (l : Entries) : Prop :=
  Coherent tokenize tables caches l ∧ ∀ β, B β → Within tables β l

lemma Below.add (h : Below tokenize tables caches B l) {β : Bound} (hβ : Within tables β l) :
    Below tokenize tables caches (fun γ => B γ ∨ γ = β) l := by
  refine ⟨h.1, ?_⟩
  rintro γ (hγ | rfl)
  · exact h.2 γ hγ
  · exact hβ

/-- A row is written with values that may stand where it was, and stays below them. -/
abbrev Lowers (M : VectorMath) (tokenize : String → String → List Token) (tables : List TableDef)
    (caches : UInt32 → Option Int64) (n : ℕ) : Prop :=
  ∀ d ∈ tables, ∀ rowid values, AsStored d rowid values → ∀ B : Bound → Prop, (∃ β, B β) →
    (∀ β, B β → ∀ w, β.row d rowid w → Nulled w values) →
    Triple TreeM.keyCheck Fits (Below tokenize tables caches B) (updateRow M tokenize n d rowid values)
      fun _ l => Below tokenize tables caches B l ∧ ∀ w, HasRow d l rowid w → Nulled values w

/-- The rows a foreign key found, some of them written, and the others as the last one left them. -/
def mixed (child : TableDef) (hits : List (Int64 × Row))
    (hone : ∀ r w w', (r, w) ∈ hits → (r, w') ∈ hits → w = w') (l : Entries) : Bound where
  row d r w := (d = child ∧ (r, w) ∈ hits) ∨ (¬ (d = child ∧ r ∈ hits.map Prod.fst) ∧ HasRow d l r w)
  unique := by
    rintro d r w w' (⟨rfl, h⟩ | ⟨hnot, h⟩) (⟨hd, h'⟩ | ⟨hnot', h'⟩)
    · exact hone r w w' h h'
    · exact absurd ⟨rfl, List.mem_map_of_mem h⟩ hnot'
    · exact absurd ⟨hd, List.mem_map_of_mem h'⟩ hnot
    · exact h.unique h'

/-- Each row is written over what it was when all of them were found, and nothing comes back by it. -/
lemma updateHits_lowers (hup : Lowers M tokenize tables caches n) (hchild : child ∈ tables)
    (halias : ∀ p ∈ sets, child.rowid_alias ≠ some p.1)
    (hone : ∀ r w w', (r, w) ∈ hits → (r, w') ∈ hits → w = w')
    (hstored : ∀ h ∈ hits, AsStored child h.1 h.2)
    (hsets : ∀ h ∈ hits, ∀ p ∈ sets, p.2 = .null ∨ h.2[p.1]? = some p.2)
    (hfound : ∃ γ, B γ ∧ ∀ h ∈ hits, γ.row child h.1 h.2)
    (hbelow : ∀ β, B β → ∀ h ∈ hits, ∀ w, β.row child h.1 w → Nulled w h.2) :
    Triple TreeM.keyCheck Fits (Below tokenize tables caches B)
      (updateHits (updateChild M tokenize n) child sets hits)
      fun _ l => Below tokenize tables caches B l ∧ ∀ h ∈ hits, ∃ vals, setColumns h.2 sets = .ok vals ∧
        ∀ w, HasRow child l h.1 w → Nulled vals w := by
  induction hits generalizing B with
  | nil => exact .pure fun l hl => ⟨hl, fun h hh => (by cases hh)⟩
  | cons hit hits ih =>
    obtain ⟨hhere, hstored⟩ := List.forall_mem_cons.1 hstored
    obtain ⟨hsetsHere, hsets⟩ := List.forall_mem_cons.1 hsets
    obtain ⟨γ, hγ, hrows⟩ := hfound
    have hone' : ∀ r w w', (r, w) ∈ hits → (r, w') ∈ hits → w = w' := fun r w w' h h' =>
      hone r w w' (List.mem_cons_of_mem _ h) (List.mem_cons_of_mem _ h')
    rintro l u m hl hfits hrun
    obtain ⟨vals, l₀, hvals, hrun₁⟩ := run_bind_eq_ok.1 hrun
    rw [updateHits, inserted_bind hvals] at hfits
    obtain ⟨hset, rfl⟩ := run_lift_eq_ok.1 hvals
    obtain ⟨u', l₁, hhit, hrun₂⟩ := run_bind_eq_ok.1 hrun₁
    rw [inserted_bind hhit] at hfits
    have hnulled := setColumns_nulled hset hsetsHere
    obtain ⟨hl₁, hwritten⟩ := Triple.bind (R := fun _ l => Below tokenize tables caches B l ∧
      ∀ w, HasRow child l hit.1 w → Nulled vals w) (hup child hchild hit.1 vals (hhere.nulled halias hset hnulled) B
      ⟨γ, hγ⟩ fun β hβ w hw => (hbelow β hβ hit List.mem_cons_self w hw).trans hnulled)
      (fun _ => Triple.pure fun _ => id) l₀ u' l₁ hl (fun q hq => hfits q (by simp [hq])) hhit
    -- what the others were found to be still bounds them
    have hmixed : Within tables (mixed child hits hone' l₁) l₁ := by
      intro d hd r w hw
      by_cases hrest : d = child ∧ r ∈ hits.map Prod.fst
      · obtain ⟨rfl, hr⟩ := hrest
        obtain ⟨h, hh, rfl⟩ := List.mem_map.1 hr
        obtain ⟨w₀, hw₀, hle⟩ := hl₁.2 γ hγ d hd h.1 w hw
        obtain rfl := γ.unique hw₀ (hrows h (List.mem_cons_of_mem _ hh))
        exact ⟨h.2, Or.inl ⟨rfl, hh⟩, hle⟩
      · exact ⟨w, Or.inr ⟨hrest, hw⟩, .refl w⟩
    obtain ⟨hm, hpost⟩ := ih hone' hstored hsets
      ⟨γ, Or.inl hγ, fun h hh => hrows h (List.mem_cons_of_mem _ hh)⟩ (by
        rintro β (hβ | rfl) h hh w hw
        · exact hbelow β hβ h (List.mem_cons_of_mem _ hh) w hw
        · rcases hw with ⟨-, hw⟩ | ⟨hnot, -⟩
          · rw [hone' h.1 w h.2 hw hh]
            exact .refl _
          · exact absurd ⟨rfl, List.mem_map_of_mem hh⟩ hnot)
      l₁ u m (hl₁.add hmixed) (fun q hq => hfits q (by simp [hq])) hrun₂
    refine ⟨⟨hm.1, fun β hβ => hm.2 β (Or.inl hβ)⟩, List.forall_mem_cons.2 ⟨?_, hpost⟩⟩
    by_cases hagain : hit.1 ∈ hits.map Prod.fst
    · obtain ⟨h, hh, heq⟩ := List.mem_map.1 hagain
      have hrow : h.2 = hit.2 := hone h.1 h.2 hit.2 (List.mem_cons_of_mem _ hh) (heq ▸ List.mem_cons_self)
      rw [← heq, ← hrow]
      exact hpost h hh
    · refine ⟨vals, hset, fun w hw => ?_⟩
      obtain ⟨w₁, hw₁, hle⟩ := hm.2 _ (Or.inr rfl) child hchild hit.1 w hw
      rcases hw₁ with ⟨-, hw₁⟩ | ⟨-, hw₁⟩
      · exact absurd (List.mem_map_of_mem hw₁) hagain
      · exact (hwritten w₁ hw₁).trans hle

/-- The rows a foreign key finds have its columns set to `NULL` or to what stands there. -/
lemma hits_lower (hup : Lowers M tokenize tables caches n) (hchild : child ∈ tables)
    (hk : KeyFits tables child fk) (hcols : ∀ p ∈ sets, p.1 ∈ fk.columns)
    (hl : Below tokenize tables caches B l) (hhits : ∀ r w, (r, w) ∈ hits → HasRow child l r w)
    (hsets : ∀ h ∈ hits, ∀ p ∈ sets, p.2 = .null ∨ h.2[p.1]? = some p.2) :
    Triple TreeM.keyCheck Fits (· = l)
      (updateHits (updateChild M tokenize n) child sets hits)
      fun _ m => Below tokenize tables caches (fun β => B β ∨ β = boundOf l) m ∧
        ∀ h ∈ hits, ∃ vals, setColumns h.2 sets = .ok vals ∧ ∀ w, HasRow child m h.1 w → Nulled vals w := by
  rintro l' u m rfl hfits hrun
  refine updateHits_lowers hup hchild (fun p hp => (hk.columns _ (hcols p hp)).1)
    (fun r w w' h h' => (hhits r w h).unique (hhits r w' h'))
    (fun h hh => (hhits h.1 h.2 hh).asStored (hl.1.ok child hchild)) hsets
    ⟨_, Or.inr rfl, fun h hh => hhits h.1 h.2 hh⟩ ?_ l' u m (hl.add (within_boundOf l')) hfits hrun
  rintro β (hβ | rfl) h hh w hw
  · obtain ⟨w₀, hw₀, hle⟩ := hl.2 β hβ child hchild h.1 h.2 (hhits h.1 h.2 hh)
    rwa [β.unique hw hw₀]
  · rw [HasRow.unique hw (hhits h.1 h.2 hh)]
    exact .refl _

/-- A row that loses values makes those that refer to it lose them. -/
lemma onUpdate_lowers (hkeys : KeysFit tables) (hup : Lowers M tokenize tables caches n)
    (hmem : child ∈ tables ∧ fk ∈ child.foreign_keys) {w₀ : Row} (hold : Nulled w₀ old)
    (hnew : Nulled w₀ values) :
    Keeps TreeM.keyCheck Fits (Below tokenize tables caches B)
      (onUpdate (updateChild M tokenize n) rowid old values false child fk) := by
  obtain ⟨hchild, hfk⟩ := hmem
  have hk := hkeys child hchild fk hfk
  rintro l u m hl hfits hrun
  obtain ⟨vals, vals', hholds, hholds', ⟨-, rfl⟩ | ⟨hits, sets, hhits, hsets, hfits', hrun'⟩⟩ :=
    onUpdate_cases hl.1 hchild hk hfits hrun
  · exact hl
  have hwritten : (∀ p ∈ sets, p.1 ∈ fk.columns) ∧
      ∀ h ∈ hits, ∀ p ∈ sets, p.2 = .null ∨ h.2[p.1]? = some p.2 := by
    rcases hsets with rfl | rfl
    · refine ⟨fun p hp => (List.of_mem_zip hp).1, ?_⟩
      rintro h hh ⟨c, v⟩ hp
      obtain ⟨hmap, hnull⟩ := childValues_eq_some.1 ((hhits h.1 h.2).1 hh).2
      obtain ⟨k, hk'⟩ := List.getElem?_of_mem hp
      obtain ⟨hc, hv⟩ := List.getElem?_zip_eq_some.1 hk'
      rcases hold.refers hnew hholds hholds' hnull hv with heq | hv'
      · exact Or.inl heq
      · obtain ⟨v', hv'', hrow⟩ := value_at hmap hc
        rw [hv'] at hv''
        cases hv''
        exact Or.inr hrow
    · refine ⟨fun p hp => ?_, fun h _ p hp => Or.inl ?_⟩
      all_goals obtain ⟨c, hc, rfl⟩ := List.mem_map.1 hp
      · exact hc
      · rfl
  obtain ⟨hm, -⟩ := hits_lower hup hchild hk hwritten.1 hl (fun r w h => ((hhits r w).1 h).1) hwritten.2
    l u m rfl hfits' hrun'
  exact ⟨hm.1, fun β hβ => hm.2 β (Or.inl hβ)⟩

lemma onUpdateAll_lowers (hkeys : KeysFit tables) (hup : Lowers M tokenize tables caches n)
    (hmem : ∀ t fk, (t, fk) ∈ refs → t ∈ tables ∧ fk ∈ t.foreign_keys) {w₀ : Row} (hold : Nulled w₀ old)
    (hnew : Nulled w₀ values) :
    Keeps TreeM.keyCheck Fits (Below tokenize tables caches B)
      (onUpdateAll (updateChild M tokenize n) rowid old values false refs) := by
  induction refs with
  | nil => exact .pure ()
  | cons p refs ih =>
    exact .bind (onUpdate_lowers hkeys hup (hmem p.1 p.2 List.mem_cons_self) hold hnew)
      fun _ => ih fun t fk h => hmem t fk (List.mem_cons_of_mem _ h)

lemma updateRow_lowers (hfit : TablesFit tokenize tables) (hkeys : KeysFit tables) (n : ℕ) :
    Lowers M tokenize tables caches n := by
  induction n with
  | zero =>
    intro d hd rowid values hstored B hsome hB
    exact .lift fun l b hl hb => by cases hb
  | succ n ih =>
    rintro d hd rowid values hstored B ⟨β₀, hβ₀⟩ hB l b m ⟨hco, hwithin⟩ hfits hrun
    rcases updateRow_cases hfit hd hco hfits hrun with ⟨hnone, rfl⟩ | ⟨old, record, refs, l', hover, hfits', hlast⟩
    · exact ⟨⟨hco, hwithin⟩, fun w hw => absurd hw (hnone w)⟩
    have hrows := hover.rows
    rw [hstored.full hover.validated] at hrows
    have hself : HasRow d l' rowid values := (hrows _ _).2 (by rw [if_pos rfl])
    have hwithin' (β : Bound) (hβ : B β) : Within tables β l' := by
      intro d' hd' r w hw
      by_cases hne : d' = d
      · subst hne
        rw [hrows] at hw
        split_ifs at hw with heq
        · rw [heq, hw]
          obtain ⟨w₀, hw₀, -⟩ := hwithin β hβ d' hd' rowid old hover.was
          exact ⟨w₀, hw₀, hB β hβ w₀ hw₀⟩
        · exact hwithin β hβ d' hd' r w hw
      · exact hwithin β hβ d' hd' r w ((hover.others d' hd' hne r w).1 hw)
    obtain ⟨w₀, hw₀, hle⟩ := hwithin β₀ hβ₀ d hd rowid old hover.was
    have hm := onUpdateAll_lowers hkeys ih (B := fun β => B β ∨ β = boundOf l') (fun t fk h =>
      ⟨((hover.refs t fk).1 h).1, ((hover.refs t fk).1 h).2.1⟩) hle (hB β₀ hβ₀ w₀ hw₀) l' () m
      (Below.add ⟨hover.coherent, hwithin'⟩ (within_boundOf l')) hfits' hlast
    refine ⟨⟨hm.1, fun β hβ => hm.2 β (Or.inl hβ)⟩, fun w hw => ?_⟩
    obtain ⟨w₁, hw₁, hle₁⟩ := hm.2 _ (Or.inr rfl) d hd rowid w hw
    rwa [HasRow.unique hself hw₁]

end Lower

/-! ### Deleting -/

section Delete
variable {M : VectorMath} {tokenize : String → String → List Token} {tables : List TableDef}
  {caches : UInt32 → Option Int64} {d child : TableDef} {fk : ForeignKey} {l m : Entries}
  {parent : Option Row} {rowid : Int64} {refs : List (TableDef × ForeignKey)} {B : Bound → Prop}
  {hits : List (Int64 × Row)} {n : ℕ}

/-- The database is in order and no row dangles. -/
def Whole (tokenize : String → String → List Token) (tables : List TableDef)
    (caches : UInt32 → Option Int64) (B : Bound → Prop) (l : Entries) : Prop :=
  Below tokenize tables caches B l ∧ DangleIn tables ⊥ l

lemma Whole.add (h : Whole tokenize tables caches B l) {β : Bound} (hβ : Within tables β l) :
    Whole tokenize tables caches (fun γ => B γ ∨ γ = β) l := ⟨h.1.add hβ, h.2⟩

lemma Whole.mono (h : Whole tokenize tables caches B l) {B' : Bound → Prop} (hB : ∀ β, B' β → B β) :
    Whole tokenize tables caches B' l := ⟨⟨h.1.1, fun β hβ => h.1.2 β (hB β hβ)⟩, h.2⟩

/-- Rows that only lose values do not come to refer to anything. -/
lemma Unreferred.within {vals : List Value} (h : Unreferred child fk vals l) (hchild : child ∈ tables)
    (hm : Within tables (boundOf l) m) : Unreferred child fk vals m := by
  intro r w hw hvals
  obtain ⟨w₀, hw₀, hle⟩ := hm child hchild r w hw
  exact h r w₀ hw₀ (hle.childValues hvals)

/-- The deletion of a row that refers to another. -/
abbrev deleteChild (M : VectorMath) (tokenize : String → String → List Token) (n : ℕ) (child : TableDef)
    (id : Int64) : TreeM Unit := do
  let _ ← deleteRow M tokenize n child id
  pure ()

/-- A row is deleted with what goes with it. -/
abbrev Clears (M : VectorMath) (tokenize : String → String → List Token) (tables : List TableDef)
    (caches : UInt32 → Option Int64) (n : ℕ) : Prop :=
  ∀ d ∈ tables, ∀ rowid, ∀ B : Bound → Prop,
    Triple TreeM.keyCheck Fits (Whole tokenize tables caches B) (deleteRow M tokenize n d rowid)
      fun _ l => Whole tokenize tables caches B l ∧ ∀ w, ¬ HasRow d l rowid w

lemma deleteHits_clears (hdel : Clears M tokenize tables caches n) (hchild : child ∈ tables) :
    Triple TreeM.keyCheck Fits (Whole tokenize tables caches B)
      (deleteHits (deleteChild M tokenize n) child hits)
      fun _ l => Whole tokenize tables caches B l ∧ ∀ h ∈ hits, ∀ w, ¬ HasRow child l h.1 w := by
  induction hits generalizing B with
  | nil => exact .pure fun l hl => ⟨hl, fun h hh => (by cases hh)⟩
  | cons hit hits ih =>
    rintro l u m hl hfits hrun
    obtain ⟨u', l₁, hhit, hrun₁⟩ := run_bind_eq_ok.1 hrun
    rw [deleteHits, inserted_bind hhit] at hfits
    obtain ⟨hl₁, hgone⟩ := Triple.bind (R := fun _ l => Whole tokenize tables caches B l ∧
      ∀ w, ¬ HasRow child l hit.1 w) (hdel child hchild hit.1 B) (fun _ => Triple.pure fun _ => id)
      l u' l₁ hl (fun q hq => hfits q (by simp [hq])) hhit
    obtain ⟨hm, hrest⟩ := ih l₁ u m (hl₁.add (within_boundOf l₁)) (fun q hq => hfits q (by simp [hq])) hrun₁
    refine ⟨hm.mono fun β => Or.inl, List.forall_mem_cons.2 ⟨fun w hw => ?_, hrest⟩⟩
    obtain ⟨w₁, hw₁, -⟩ := hm.1.2 _ (Or.inr rfl) child hchild hit.1 w hw
    exact hgone w₁ hw₁

lemma referenced_length (hk : KeyFits tables child fk) {vals : List Value}
    (h : referenced fk rowid parent = .ok (some vals)) : vals.length = fk.columns.length := by
  cases parent with
  | some row => exact (referenced_iff.1 h).length hk
  | none =>
    rw [referenced] at h
    split_ifs at h with hpk
    · cases h
      rw [hk.arity, if_pos hpk]
      rfl
    · cases h

/-- A row whose columns of the foreign key have been set to `NULL` refers to nothing. -/
lemma unreferred_of_nulled (hk : KeyFits tables child fk) {row row' w vals : Row}
    (hset : setColumns row (nulled fk) = .ok row') (hle : Nulled row' w) :
    childValues w fk.columns ≠ some vals := by
  intro hvals
  have hpos : 0 < fk.columns.length := by
    rw [hk.arity]
    split_ifs with hpk
    · exact Nat.one_pos
    · exact List.length_pos_of_ne_nil hpk
  have hc := List.getElem_mem hpos
  obtain ⟨hmap, hnull⟩ := childValues_eq_some.1 (hle.childValues hvals)
  obtain ⟨v, hv, hrow⟩ := value_at hmap (List.getElem?_eq_getElem hpos)
  rcases setColumns_spec hset (fk.columns[0]) with ⟨-, hout⟩ | ⟨v', hv', hrow'⟩
  · exact hout (List.mem_map.2 ⟨_, List.mem_map_of_mem hc, rfl⟩)
  · obtain ⟨c, -, heq⟩ := List.mem_map.1 hv'
    cases heq
    rw [hrow'] at hrow
    cases hrow
    exact hnull (List.mem_of_getElem? hv)

/-- After the foreign keys of one table have done their work no row refers to the one that leaves. -/
lemma onDelete_clears (hfit : TablesFit tokenize tables) (hkeys : KeysFit tables)
    (hdel : Clears M tokenize tables caches n) (hmem : child ∈ tables ∧ fk ∈ child.foreign_keys) :
    Triple TreeM.keyCheck Fits (Whole tokenize tables caches B)
      (onDelete (updateChild M tokenize n) (deleteChild M tokenize n) rowid parent child fk)
      fun _ l => Whole tokenize tables caches B l ∧ ∀ vals, referenced fk rowid parent = .ok (some vals) →
        Unreferred child fk vals l := by
  obtain ⟨hchild, hfk⟩ := hmem
  have hk := hkeys child hchild fk hfk
  refine .bind (.lift (Q := fun r l => referenced fk rowid parent = .ok r ∧ _) fun l r hl hr => ⟨hr, hl⟩)
    fun r => .of_fact (fun _ hl => hl.1) fun hr => ?_
  rw [hr]
  cases r with
  | none => exact .pure fun l hl => ⟨hl.2, fun vals heq => (by cases heq)⟩
  | some ref_vals =>
    rintro l u m ⟨-, hl⟩ hfits hrun
    obtain ⟨hits, l', hfind, hrun₁⟩ := run_bind_eq_ok.1 hrun
    rw [inserted_bind hfind] at hfits
    obtain ⟨rfl, hhits⟩ := fkChildrenMatching_onMap (hl.1.1.ok child hchild) hk
      (referenced_length hk hr) hfind
    have hdone {m : Entries} (hm : Whole tokenize tables caches (fun β => B β ∨ β = boundOf l') m)
        (hgone : ∀ h ∈ hits, ∀ w, HasRow child m h.1 w → childValues w fk.columns ≠ some ref_vals) :
        Whole tokenize tables caches B m ∧ ∀ vals, Except.ok (some ref_vals) = (.ok (some vals) : Result _) →
          Unreferred child fk vals m := by
      refine ⟨hm.mono fun β => Or.inl, ?_⟩
      rintro vals heq r w hw hvals
      cases heq
      obtain ⟨w₀, hw₀, hle⟩ := hm.1.2 _ (Or.inr rfl) child hchild r w hw
      exact hgone _ ((hhits r w₀).2 ⟨hw₀, hle.childValues hvals⟩) w hw hvals
    have hnow := hl.add (within_boundOf l')
    by_cases hnone : hits = []
    · rw [if_pos hnone] at hrun₁
      cases hrun₁
      exact hdone hnow fun h hh => (by rw [hnone] at hh; cases hh)
    rw [if_neg hnone] at hrun₁ hfits
    cases hact : fk.on_delete with
    | restrict =>
      rw [hact] at hrun₁
      cases hrun₁
    | cascade =>
      rw [hact] at hrun₁ hfits
      obtain ⟨hm, hgone⟩ := deleteHits_clears hdel hchild l' u m hnow
        (fun q hq => hfits q (List.mem_append_right _ hq)) hrun₁
      exact hdone hm fun h hh w hw => absurd hw (hgone h hh w)
    | setNull =>
      rw [hact] at hrun₁ hfits
      have hfits' := fun q hq => hfits q (List.mem_append_right _ hq)
      obtain ⟨hm, hset⟩ := hits_lower (updateRow_lowers hfit hkeys n) hchild hk (fun p hp => by
        obtain ⟨c, hc, rfl⟩ := List.mem_map.1 hp
        exact hc) hl.1 (fun r w h => ((hhits r w).1 h).1) (fun h _ p hp => Or.inl (by
        obtain ⟨c, hc, rfl⟩ := List.mem_map.1 hp
        rfl)) l' u m rfl hfits' hrun₁
      obtain ⟨-, hdang⟩ := updateHits_settle (X := ⊥) (updateRow_settles hfit hkeys n) hchild (nulled fk)
        hits (fun h hh => by
          rw [((hl.1.1.ok child hchild).typed h.1 h.2 ((hhits h.1 h.2).1 hh).1).1])
        l' u m ⟨hl.1.1, hl.2.mono fun _ _ _ _ _ h => h.elim⟩ hfits' hrun₁
      refine hdone ⟨hm, hdang⟩ fun h hh w hw => ?_
      obtain ⟨row', hrow', hle⟩ := hset h hh
      exact unreferred_of_nulled hk hrow' (hle w hw)

lemma onDeleteAll_clears (hfit : TablesFit tokenize tables) (hkeys : KeysFit tables)
    (hdel : Clears M tokenize tables caches n)
    (hmem : ∀ t fk, (t, fk) ∈ refs → t ∈ tables ∧ fk ∈ t.foreign_keys) :
    Triple TreeM.keyCheck Fits (Whole tokenize tables caches B)
      (onDeleteAll (updateChild M tokenize n) (deleteChild M tokenize n) rowid parent refs)
      fun _ l => Whole tokenize tables caches B l ∧ ∀ t fk, (t, fk) ∈ refs → ∀ vals,
        referenced fk rowid parent = .ok (some vals) → Unreferred t fk vals l := by
  induction refs generalizing B with
  | nil => exact .pure fun l hl => ⟨hl, fun t fk h => (by cases h)⟩
  | cons p refs ih =>
    obtain ⟨child, fk⟩ := p
    have hhere := hmem child fk List.mem_cons_self
    rintro l u m hl hfits hrun
    obtain ⟨u', l₁, hfirst, hrun₁⟩ := run_bind_eq_ok.1 hrun
    rw [onDeleteAll, inserted_bind hfirst] at hfits
    obtain ⟨hl₁, hout⟩ := onDelete_clears hfit hkeys hdel hhere l u' l₁ hl
      (fun q hq => hfits q (by simp [hq])) hfirst
    obtain ⟨hm, hrest⟩ := ih (fun t fk h => hmem t fk (List.mem_cons_of_mem _ h)) l₁ u m
      (hl₁.add (within_boundOf l₁)) (fun q hq => hfits q (by simp [hq])) hrun₁
    refine ⟨hm.mono fun β => Or.inl, fun t fk' h vals hvals => ?_⟩
    rcases List.mem_cons.1 h with heq | h
    · cases heq
      exact (hout vals hvals).within hhere.1 (hm.1.2 _ (Or.inr rfl))
    · exact hrest t fk' h vals hvals

/-- The row leaves when nothing refers to it any more. -/
lemma erase_clears (hfit : TablesFit tokenize tables) (hd : d ∈ tables)
    (hl : Whole tokenize tables caches B l) (hfree : ∀ w, HasRow d l rowid w → ∀ t ∈ tables,
      ∀ fk ∈ t.foreign_keys, fk.parent = d.name → ∀ vals, .null ∉ vals → Holds fk vals rowid w →
        Unreferred t fk vals l) :
    Triple TreeM.keyCheck Fits (· = l) (eraseRow M tokenize d rowid)
      fun _ m => Whole tokenize tables caches B m ∧ ∀ w, ¬ HasRow d m rowid w := by
  rintro l' b m rfl hfits hrun
  obtain ⟨-, -, hiff⟩ := eraseRow_triple (hl.1.1.ok d hd) (hfit.fits d hd) l' b m rfl hfits hrun
  have hother (d' : TableDef) (hd' : d' ∈ tables) (hne : d' ≠ d) := other_rows hfit hd
    (fun key hkey => localTo_eraseRow.keeps hl.1.1.sorted hrun hkey) hd' hne
  have hbefore (d' : TableDef) (hd' : d' ∈ tables) (r : Int64) (w : Row) (hw : HasRow d' m r w) :
      HasRow d' l' r w := by
    by_cases hne : d' = d
    · subst hne
      exact ((hiff r w).1 hw).2
    · exact (hother d' hd' hne r w).1 hw
  refine ⟨⟨⟨keeps_eraseRow hfit hd l' b m hl.1.1 hfits hrun, fun β hβ d' hd' r w hw =>
    hl.1.2 β hβ d' hd' r w (hbefore d' hd' r w hw)⟩, ?_⟩, fun w hw => ((hiff rowid w).1 hw).1 rfl⟩
  intro d' fk r vals hdang
  obtain ⟨w, hw, hvals⟩ := hdang.row
  have hw' := hbefore d' hdang.table r w hw
  by_contra
  -- the parent was there before, and was not the row that has left
  obtain ⟨p, hp, hname, rid, prow, hprow, hholds⟩ : HasParent tables l' fk vals := by
    by_contra horphan
    exact hl.2 d' fk r vals ⟨hdang.table, hdang.key, ⟨w, hw', hvals⟩, horphan⟩
  refine hdang.orphan ⟨p, hp, hname, rid, prow, ?_, hholds⟩
  by_cases hne : p = d
  · subst hne
    refine (hiff rid prow).2 ⟨?_, hprow⟩
    rintro rfl
    exact hfree prow hprow d' hdang.table fk hdang.key hname.symm vals (childValues_eq_some.1 hvals).2
      hholds r w hw' hvals
  · exact (hother p hp hne rid prow).2 hprow

lemma deleteRow_clears (hfit : TablesFit tokenize tables) (hkeys : KeysFit tables) (n : ℕ) :
    Clears M tokenize tables caches n := by
  induction n with
  | zero =>
    intro d hd rowid B
    exact .lift fun l b hl hb => by cases hb
  | succ n ih =>
    rintro d hd rowid B l b m hl hfits hrun
    rw [deleteRow] at hfits hrun
    obtain ⟨parent, l₁, hread, hrun₁⟩ := run_bind_eq_ok.1 hrun
    rw [inserted_bind hread] at hfits
    obtain rfl := readOnly_readRow _ _ _ hread
    obtain ⟨refs, l₂, hrefs, hrun₂⟩ := run_bind_eq_ok.1 hrun₁
    rw [inserted_bind hrefs] at hfits
    obtain ⟨rfl, hmem⟩ := fkReferencing_onMap hl.1.1.listed hrefs
    obtain ⟨u, l₃, hall, hrun₃⟩ := run_bind_eq_ok.1 hrun₂
    rw [inserted_bind hall] at hfits
    obtain ⟨hl₃, hfree⟩ := onDeleteAll_clears hfit hkeys ih (fun t fk h =>
      ⟨((hmem t fk).1 h).1, ((hmem t fk).1 h).2.1⟩) l₂ u l₃ (hl.add (within_boundOf l₂))
      (fun q hq => hfits q (by simp [hq])) hall
    have hnobody (w : Row) (hw : HasRow d l₃ rowid w) (t : TableDef) (ht : t ∈ tables) (fk : ForeignKey)
        (hfk : fk ∈ t.foreign_keys) (hname : fk.parent = d.name) (vals : List Value) (hnull : .null ∉ vals)
        (hholds : Holds fk vals rowid w) : Unreferred t fk vals l₃ := by
      -- the row that was read has only lost values since
      obtain ⟨w₀, hw₀, hle⟩ := hl₃.1.2 _ (Or.inr rfl) d hd rowid w hw
      refine hfree t fk ((hmem t fk).2 ⟨ht, hfk, hname⟩) vals ?_
      rcases onMap_readRow (hl.1.1.ok d hd).order rowid with ⟨old, hold, hread'⟩ | ⟨hnone, -⟩
      · rw [TreeM.onMap, hread] at hread'
        cases hread'
        rw [HasRow.unique hold hw₀]
        exact referenced_iff.2 (hle.holds hnull hholds)
      · exact absurd hw₀ (hnone w₀)
    obtain ⟨hm, hgone⟩ := erase_clears hfit hd hl₃ hnobody l₃ b m rfl (fun q hq => hfits q (by simp [hq])) hrun₃
    exact ⟨hm.mono fun β => Or.inl, hgone⟩

end Delete

/-! ### Whole runs -/

/-- Every row refers to rows that are there. -/
def Referential (tables : List TableDef) (kvs : Entries) : Prop :=
  ∀ d ∈ tables, ∀ fk ∈ d.foreign_keys, ∀ rowid row vals, HasRow d kvs rowid row →
    childValues row fk.columns = some vals → HasParent tables kvs fk vals

section Runs
variable {M : VectorMath} {tokenize : String → String → List Token} {tables : List TableDef}
  {caches : UInt32 → Option Int64} {d : TableDef} {values : Row} {kvs m : Entries} {s s' : Session}

lemma referential_iff : Referential tables kvs ↔ DangleIn tables ⊥ kvs := by
  constructor
  · rintro h d fk r vals ⟨hd, hfk, ⟨row, hrow, hvals⟩, horphan⟩
    exact absurd (h d hd fk hfk r row vals hrow hvals) horphan
  · intro h d hd fk hfk r row vals hrow hvals
    by_contra horphan
    exact h d fk r vals ⟨hd, hfk, ⟨row, hrow, hvals⟩, horphan⟩

/-- Where the rows are the same, so is what they refer to. -/
lemma Referential.congr (h : Referential tables kvs)
    (hrows : ∀ d ∈ tables, ∀ r w, HasRow d m r w ↔ HasRow d kvs r w) : Referential tables m := by
  intro d hd fk hfk r row vals hrow hvals
  obtain ⟨p, hp, hname, rid, prow, hprow, hholds⟩ := h d hd fk hfk r row vals ((hrows d hd r row).1 hrow) hvals
  exact ⟨p, hp, hname, rid, prow, (hrows p hp rid prow).2 hprow, hholds⟩

/-- A new row refers to rows that were there. -/
lemma Referential.insert (hfit : TablesFit tokenize tables) (hkeys : KeysFit tables)
    (hco : Coherent tokenize tables caches kvs) (h : Referential tables kvs) (hd : d ∈ tables)
    (hgiven : Given d values) {r : Int64 × Option Int64}
    (hfits : ∀ q ∈ (insertRow M tokenize d values (caches d.table_id)).inserted kvs, Fits q.2)
    (hrun : (insertRow M tokenize d values (caches d.table_id)).onMap kvs = .ok (r, m)) :
    Referential tables m := by
  obtain ⟨hco', hnew, ⟨record, hrec, hiff⟩, hcheck, hagree⟩ :=
    insertRow_triple hfit hd hco _ _ _ rfl hfits hrun
  have hstay (d' : TableDef) (hd' : d' ∈ tables) (r' : Int64) (w : Row) (hw : HasRow d' kvs r' w) :
      HasRow d' m r' w := by
    by_cases hne : d' = d
    · subst hne
      rw [hiff, if_neg]
      · exact hw
      · rintro rfl
        exact hnew w hw
    · exact (other_rows hfit hd hagree hd' hne r' w).2 hw
  have hparents {fk : ForeignKey} {vals : List Value} (hp : HasParent tables kvs fk vals) :
      HasParent tables m fk vals := by
    obtain ⟨p, hp, hname, rid, prow, hprow, hholds⟩ := hp
    exact ⟨p, hp, hname, rid, prow, hstay p hp rid prow hprow, hholds⟩
  intro d' hd' fk hfk r' row vals hrow hvals
  by_cases hself : d' = d ∧ r' = r.1
  · obtain ⟨rfl, rfl⟩ := hself
    have hrow' := hrow
    rw [hiff, if_pos rfl] at hrow'
    subst hrow'
    exact hparents (fkCheck_sound hfit hco (hkeys d' hd) ((hco'.ok d' hd).typed _ _ hrow)
      (fun fk hfk vals => given_of_stored (hkeys d' hd fk hfk) hfk hgiven hrec) (fun _ => id) hcheck
      fk hfk vals hvals)
  · refine hparents (h d' hd' fk hfk r' row vals ?_ hvals)
    by_cases hne : d' = d
    · subst hne
      rwa [hiff, if_neg fun heq => hself ⟨rfl, heq⟩] at hrow
    · exact (other_rows hfit hd hagree hd' hne r' row).1 hrow

lemma referential_step (hfit : TablesFit tokenize tables) (hkeys : KeysFit tables)
    (h : SessionOk tokenize tables s) (href : Referential tables s.kvs) (hcom : Referential tables s.committed)
    (hstep : RowStep M tokenize tables Given s s') :
    Referential tables s'.kvs ∧ Referential tables s'.committed := by
  cases hstep with
  | insert hd hgiven hfits hrun =>
    exact ⟨href.insert hfit hkeys h.current hd hgiven hfits hrun, hcom⟩
  | @update d rowid values n b m hd hgiven hfits hrun =>
    refine ⟨referential_iff.2 (updateRow_settles hfit hkeys n d hd rowid values hgiven ⊥ _ _ _
      ⟨h.current, (referential_iff.1 href).mono fun _ _ _ _ _ h => h.elim⟩ hfits hrun).2, hcom⟩
  | @delete d rowid n b m hd hfits hrun =>
    obtain ⟨hm, -⟩ := deleteRow_clears hfit hkeys n d hd rowid (fun _ => False) _ _ _
      ⟨⟨h.current, fun β hβ => hβ.elim⟩, referential_iff.1 href⟩ hfits hrun
    exact ⟨referential_iff.2 hm.2, hcom⟩
  | @commit counters m hall hrun =>
    have hm : Referential tables m := href.congr fun d hd r w => hasRow_congr ?_
    · exact ⟨hm, hm⟩
    · refine (writeCounters_onMap h.current.sorted (fun t next next' hmem hmem' => ?_) hrun).2 _ ?_
      · exact Option.some.inj (((hall t next).1 hmem).symm.trans ((hall t next').1 hmem'))
      · exact fun t next _ heq => counterKey_not_own d t (heq ▸ Or.inl (rowPrefix_rowKey _ _))
  | rollback => exact ⟨hcom, hcom⟩

end Runs

section Example

lemma twoTables_keys : KeysFit [childTable, parentTable] := by
  refine List.forall_mem_cons.2 ⟨List.forall_mem_singleton.2 ⟨?_, rfl, List.nodup_singleton _, ?_⟩,
    List.forall_mem_singleton.2 fun fk hfk => (by cases hfk)⟩
  · exact List.forall_mem_singleton.2 ⟨nofun, _, rfl, nofun⟩
  · intro p hp hname k c pc hc hpc
    rcases List.mem_pair.1 hp with rfl | rfl
    · exact absurd hname (by decide)
    · obtain _ | k := k
      · cases hc
        cases hpc
        exact ⟨by decide, rfl⟩
      · cases hc

/-- The map that a program leaves. -/
def leaves {α : Type} (p : TreeM α) (kvs : Entries) : Entries := (p.onMap kvs).toOption.elim kvs Prod.snd

lemma onMap_leaves {α : Type} {p : TreeM α} {l : Entries} (h : (p.onMap l).toOption.isSome = true) :
    ∃ a, p.onMap l = .ok (a, leaves p l) := by
  obtain ⟨⟨a, m⟩, heq⟩ := Option.isSome_iff_exists.1 h
  refine ⟨a, ?_⟩
  rw [leaves, heq, toOption_eq_some.1 heq]
  rfl

end Example

end Catalog

end Arkeion
