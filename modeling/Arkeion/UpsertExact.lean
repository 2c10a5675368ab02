import Arkeion.Fts.Backfill
import Arkeion.ForeignKeys
import Arkeion.TableRows

/-!
`INSERT ... ON CONFLICT`: before a row is inserted a row is looked for that has its primary key or
its values in a UNIQUE index. Where there is one, the proposed row is left out, or that one is
updated. What `SET`, `WHERE` and `CHECK` evaluate to are functions of the rows.

The row in the way is looked for by the values as they are given, the insertion goes by the record
they become. Both look for entries that begin with the codes of the values, so they agree unless a
column of a UNIQUE index gets an INTEGER that is stored as a REAL.
-/

namespace Arkeion

open Arkeion.Lib Btree MapProgram

namespace Catalog

/-- `SET` and `WHERE` of `DO UPDATE`, by the row that is there and the proposed one. -/
structure UpdateClause where
  sets : List (String × (Row → Row → Result Value))
  where_clause : Option (Row → Row → Result Bool)

inductive OnConflict where
  | nothing
  | update (clause : UpdateClause)

/-- What became of a proposed row. -/
inductive Upserted where
  | inserted (rowid : Int64)
  | updated (row : Row)
  | skipped
  deriving DecidableEq, Repr

/-! ### Looking for the row it meets -/

section Find
variable (d : TableDef) (values : Row)

/-- The primary key the row is given, when a row has it. -/
def pkConflict : TreeM (Option Int64) :=
  match d.rowid_alias.bind fun pk => values[pk]? with
  | some (.integer n) => do
    let row ← readRow d n
    pure (if row.isSome then some n else none)
  | _ => pure none

/-- The first row that the values of the row, as they are given, are found for in an index. -/
def indexConflict : List IndexDef → TreeM (Option Int64)
  | [] => pure none
  | idx :: indexes =>
    if idx.unique = false then indexConflict indexes
    else do
      let key ← columnsOf values idx.columns
      if key.any fun v => v = .null then indexConflict indexes
      else do
        let rowids ← indexScanEq idx key
        match rowids with
        | rid :: _ => pure (some rid)
        | [] => indexConflict indexes

def findConflict : TreeM (Option Int64) := do
  let rid ← pkConflict d values
  match rid with
  | some rid => pure (some rid)
  | none => indexConflict values d.indexes

end Find

/-! ### Inserting or updating -/

section Write
variable (M : VectorMath) (tokenize : String → String → List Token) (check : Row → Result Unit)
  (n : ℕ) (d : TableDef)

/-- The expressions all see the row as it was. -/
def setColumnsOf (existing proposed : Row) :
    List (String × (Row → Row → Result Value)) → Row → Result Row
  | [], row => .ok row
  | (name, expr) :: sets, row => do
    let i ← okOr (d.visible name) (.sql s!"columna desconocida: {name}")
    require (d.rowid_alias ≠ some i) (.sql "ON CONFLICT DO UPDATE no puede cambiar la PRIMARY KEY")
    let v ← expr existing proposed
    require (i < row.length) (.panic "index out of bounds")
    setColumnsOf existing proposed sets (row.set i v)

/-- The row after the update; `none` when `WHERE` leaves it out. -/
def updatedRow (clause : UpdateClause) (existing proposed : Row) : Result (Option Row) := do
  let wanted ← match clause.where_clause with
    | none => .ok true
    | some cond => cond existing proposed
  if wanted then do
    let row ← setColumnsOf d existing proposed clause.sets existing
    check row
    .ok (some row)
  else .ok none

def upsertUpdate (clause : UpdateClause) (rid : Int64) (proposed : Row) :
    TreeM (Option Row) := do
  let existing ← readRow d rid
  let existing ← okOr existing (.sql "la fila en conflicto desapareció")
  let row ← updatedRow check d clause existing proposed
  match row with
  | none => pure none
  | some row => do
    let _ ← updateRow M tokenize n d rid row
    pure (some row)

/-- A row that meets no other. -/
def insertChecked (values : Row) (cache : Option Int64) : TreeM (Upserted × Option Int64) := do
  check values
  let (rowid, cache) ← insertRow M tokenize d values cache
  pure (.inserted rowid, cache)

/-- A row that meets another one. -/
def onConflict (oc : OnConflict) (rid : Int64) (values : Row) : TreeM Upserted :=
  match oc with
  | .nothing => pure .skipped
  | .update clause => do
    let row ← upsertUpdate M tokenize check n d clause rid values
    pure (row.elim .skipped .updated)

/-- `run_insert` with `ON CONFLICT`, for one row. -/
def upsertRow (oc : OnConflict) (values : Row) (cache : Option Int64) :
    TreeM (Upserted × Option Int64) := do
  let rid ← findConflict d values
  match rid with
  | none => insertChecked M tokenize check d values cache
  | some rid => do
    let out ← onConflict M tokenize check n d oc rid values
    pure (out, cache)

/-- The rows of a statement one after the other. -/
def upsertRows (oc : OnConflict) :
    List Row → Option Int64 → TreeM (List Upserted × Option Int64)
  | [], cache => pure ([], cache)
  | values :: rows, cache => do
    let (out, cache) ← upsertRow M tokenize check n d oc values cache
    let (outs, cache) ← upsertRows oc rows cache
    pure (out :: outs, cache)

end Write

/-! ### Refusals -/

/-- A primary key or the values of a UNIQUE index are taken. -/
def Duplicate (e : Error) : Prop := e = .constraint "rowid duplicado" ∨ e = UNIQUE_VIOLATION

/-- The result is an error about a duplicate. -/
def Refuses {α : Type} (x : Result α) : Prop := ∃ e, x = .error e ∧ Duplicate e

section Refuses
variable {α β : Type} {x : Result α} {f : α → Result β}

lemma refuses_ok (a : α) : ¬ Refuses (.ok a : Result α) := by
  rintro ⟨e, he, -⟩
  cases he

lemma refuses_error {e : Error} : Refuses (.error e : Result α) ↔ Duplicate e := by
  constructor
  · rintro ⟨e', he, hdup⟩
    cases he
    exact hdup
  · exact fun h => ⟨e, rfl, h⟩

lemma refuses_bind : Refuses (x >>= f) ↔ Refuses x ∨ ∃ a, x = .ok a ∧ Refuses (f a) := by
  cases x with
  | error e =>
    have herr : (Except.error e >>= f : Result β) = .error e := rfl
    rw [herr, refuses_error, refuses_error]
    refine ⟨Or.inl, ?_⟩
    rintro (h | ⟨a, ha, -⟩)
    · exact h
    · cases ha
  | ok a =>
    constructor
    · exact fun h => Or.inr ⟨a, rfl, h⟩
    · rintro (h | ⟨a', ha, h⟩)
      · exact absurd h (refuses_ok a)
      · cases ha
        exact h

lemma not_duplicate {e : Error} (h : e.NotConstraint) : ¬ Duplicate e := by
  rintro (rfl | rfl)
  · exact h
  · exact h

lemma not_refuses_of_fails {p : TreeM α} (h : FailsWith TreeM.keyCheck Error.NotConstraint p)
    (kvs : Entries) : ¬ Refuses (p.onMap kvs) := by
  rintro ⟨e, he, hdup⟩
  exact not_duplicate (h kvs e he) hdup

end Refuses

/-! ### Rows in the way -/

section Rows
variable (d : TableDef) (kvs : Entries) (values record : Row) (explicit : Option Int64) (next : Int64)

/-- The row stands in the index under the values. -/
def HeldBy (idx : IndexDef) (vs : List Value) (rid : Int64) : Prop :=
  ∃ row, HasRow d kvs rid row ∧ indexValuePrefix idx vs <+: entryOf idx row rid

/-- It is the first of these. -/
def FirstIn (idx : IndexDef) (vs : List Value) (rid : Int64) : Prop :=
  ∃ row, HasRow d kvs rid row ∧ indexValuePrefix idx vs <+: entryOf idx row rid ∧
    ∀ rid' row', HasRow d kvs rid' row' → indexValuePrefix idx vs <+: entryOf idx row' rid' →
      entryOf idx row rid ≤ entryOf idx row' rid'

/-- The index is UNIQUE and no value is `NULL`. -/
def Sought (idx : IndexDef) (row : Row) : Prop := idx.unique = true ∧ .null ∉ indexed idx row

/-- A row stands in the index under the values of this one. -/
def HeldIn (row : Row) (idx : IndexDef) : Prop :=
  Sought idx row ∧ ∃ rid, HeldBy d kvs idx (indexed idx row) rid

/-- The primary key the row is given is that of a row. -/
def PkTaken (n : Int64) : Prop :=
  (d.rowid_alias.bind fun pk => values[pk]?) = some (.integer n) ∧ ∃ row, HasRow d kvs n row

/-- The first row of the first index that holds the values as they are given. -/
def FoundIn (rid : Int64) : List IndexDef → Prop
  | [] => False
  | idx :: indexes => Sought idx values ∧ FirstIn d kvs idx (indexed idx values) rid ∨
      ¬ HeldIn d kvs values idx ∧ FoundIn rid indexes

/-- The row that is found in the way of the values as they are given. -/
def Found (rid : Int64) : Prop :=
  PkTaken d kvs values rid ∨ (¬ ∃ n, PkTaken d kvs values n) ∧ FoundIn d kvs values rid d.indexes

/-- The entry is not too long to be written. -/
def EntryFits (idx : IndexDef) : Prop :=
  (indexValuePrefix idx (indexed idx record)).length + 8 ≤ MAX_KEY_LEN

/-- The record comes to an index that holds its values. -/
def RefusedIn : List IndexDef → Prop
  | [] => False
  | idx :: indexes => HeldIn d kvs record idx ∨ EntryFits record idx ∧ RefusedIn indexes

/-- The insertion meets its primary key, or the values of a UNIQUE index. -/
def Refused : Prop :=
  (∃ n, PkTaken d kvs values n) ∨
    (explicit = none → next ≠ Int64.maxValue) ∧ RefusedIn d kvs record d.indexes

/-- The row has the primary key of the proposed one, or the values of its record in a UNIQUE
index. -/
def Conflicts (rid : Int64) : Prop := PkTaken d kvs values rid ∨
  ∃ idx ∈ d.indexes, Sought idx record ∧ HeldBy d kvs idx (indexed idx record) rid

end Rows

/-! ### Looking in an index -/

section Lookup
variable {d : TableDef} {kvs m : Entries} {idx : IndexDef} {vs : List Value} {p q : Bytes}

lemma prefix_valuePrefix (vs : List Value) : indexIdPrefix idx.index_id <+: indexValuePrefix idx vs := by
  rw [indexValuePrefix_eq]
  exact List.prefix_append _ _

/-- The keys with a prefix, in a map that agrees with another one on them. -/
lemma keysWithPrefix_onMap (hs : SortedMap kvs) (hm : SortedMap m) (hq : q <+: p)
    (hagree : ∀ key, q <+: key → valueOf key m = valueOf key kvs) : (keysWithPrefix p).onMap m
      = .ok ((kvs.filter fun kv => decide (p <+: kv.1)).map Prod.fst, m) := by
  have hsame : m.filter (fun kv => decide (p <+: kv.1)) = kvs.filter fun kv => decide (p <+: kv.1) :=
    filter_eq_of_agree hm hs fun k hk => hagree k (hq.trans hk)
  unfold keysWithPrefix
  rw [TreeM.onMap_bind, TreeM.onMap_readFrom, ok_bind]
  dsimp only
  rw [takeWhile_fromKey hm, hsame]
  rfl

/-- The keys of an index under some values are those of rows. -/
lemma InOrder.mem_keys (h : InOrder d kvs) (hidx : idx ∈ d.indexes) (vs : List Value) (key : Bytes) :
    key ∈ (kvs.filter fun kv => decide (indexValuePrefix idx vs <+: kv.1)).map Prod.fst ↔
      ∃ rid row, HasRow d kvs rid row ∧ key = entryOf idx row rid ∧
        indexValuePrefix idx vs <+: entryOf idx row rid := by
  simp only [List.mem_map, List.mem_filter, decide_eq_true_eq, Prod.exists, exists_and_right,
    exists_eq_right]
  constructor
  · rintro ⟨⟨v, hmem⟩, hp⟩
    have hsome : (valueOf key kvs).isSome := by
      rw [(mem_iff_valueOf h.sorted).1 hmem]
      rfl
    obtain ⟨rid, row, hrow, rfl⟩ := (h.entries idx hidx key ((prefix_valuePrefix vs).trans hp)).1 hsome
    exact ⟨rid, row, hrow, rfl, hp⟩
  · rintro ⟨rid, row, hrow, rfl, hp⟩
    obtain ⟨v, hv⟩ := Option.isSome_iff_exists.1
      ((h.entries idx hidx _ prefix_entryOf).2 ⟨rid, row, hrow, rfl⟩)
    exact ⟨⟨v, (mem_iff_valueOf h.sorted).2 hv⟩, hp⟩

/-- The rowids of keys that are those of rows. -/
lemma rowidsOf_eq {keys : List Bytes} (h : ∀ key ∈ keys, ∃ rid row, HasRow d kvs rid row ∧
    key = entryOf idx row rid ∧ indexValuePrefix idx vs <+: entryOf idx row rid) :
    ∃ rids, rowidsOf keys = .ok rids ∧ (∀ rid, rid ∈ rids ↔ ∃ key ∈ keys, rowidFromIndexKey key = .ok rid) ∧
      rids.head? = keys.head?.bind fun key => (rowidFromIndexKey key).toOption := by
  induction keys with
  | nil => exact ⟨[], rfl, by simp, rfl⟩
  | cons key keys ih =>
    obtain ⟨⟨rid, row, -, rfl, -⟩, hkeys⟩ := List.forall_mem_cons.1 h
    obtain ⟨rids, hrids, hmem, -⟩ := ih hkeys
    refine ⟨rid :: rids, ?_, ?_, ?_⟩
    · rw [rowidsOf, rowidFromIndexKey_entryOf, ok_bind, hrids]
      rfl
    · intro r
      simp [hmem, rowidFromIndexKey_entryOf, eq_comm]
    · simp [rowidFromIndexKey_entryOf, Except.toOption]

/-- The first row of some values is one row. -/
lemma FirstIn.unique {rid rid' : Int64} (h : FirstIn d kvs idx vs rid) (h' : FirstIn d kvs idx vs rid') :
    rid = rid' := by
  obtain ⟨row, hrow, hp, hfirst⟩ := h
  obtain ⟨row', hrow', hp', hfirst'⟩ := h'
  exact rowid_of_entry (le_antisymm (hfirst rid' row' hrow' hp') (hfirst' rid row hrow hp))

lemma indexScanEq_onMap (h : InOrder d kvs) (hidx : idx ∈ d.indexes) (vs : List Value) :
    ∃ rids, (indexScanEq idx vs).onMap kvs = .ok (rids, kvs) ∧
      (rids = [] ↔ ¬ ∃ rid, HeldBy d kvs idx vs rid) ∧ ∀ rid ∈ rids.head?, FirstIn d kvs idx vs rid := by
  have hkeys := keysWithPrefix_onMap h.sorted h.sorted (List.prefix_refl (indexValuePrefix idx vs))
    fun _ _ => rfl
  have hmem := h.mem_keys hidx vs
  have hsorted : ((kvs.filter fun kv => decide (indexValuePrefix idx vs <+: kv.1)).map Prod.fst).Pairwise
      (· < ·) := List.pairwise_map.2 (h.sorted.filter _)
  generalize (kvs.filter fun kv => decide (indexValuePrefix idx vs <+: kv.1)).map Prod.fst = keys
    at hkeys hmem hsorted
  obtain ⟨rids, hrids, hall, hhead⟩ := rowidsOf_eq fun key hkey => (hmem key).1 hkey
  refine ⟨rids, ?_, ?_, ?_⟩
  · rw [indexScanEq, TreeM.onMap_bind, hkeys, ok_bind, TreeM.onMap_lift, hrids]
    rfl
  · cases keys with
    | nil =>
      cases hrids
      refine iff_of_true rfl ?_
      rintro ⟨rid, row, hrow, hp⟩
      simpa using (hmem _).2 ⟨rid, row, hrow, rfl, hp⟩
    | cons key keys =>
      obtain ⟨rid, row, hrow, rfl, hp⟩ := (hmem key).1 List.mem_cons_self
      refine iff_of_false ?_ (not_not.2 ⟨rid, row, hrow, hp⟩)
      rintro rfl
      rw [List.head?_cons, Option.bind_some, rowidFromIndexKey_entryOf] at hhead
      cases hhead
  · intro rid hrid
    rw [hhead] at hrid
    cases keys with
    | nil => cases hrid
    | cons key keys =>
      obtain ⟨rid', row, hrow, rfl, hp⟩ := (hmem key).1 List.mem_cons_self
      rw [List.head?_cons, Option.bind_some, rowidFromIndexKey_entryOf] at hrid
      cases hrid
      refine ⟨row, hrow, hp, fun rid'' row'' hrow'' hp'' => ?_⟩
      rcases List.mem_cons.1 ((hmem _).2 ⟨rid'', row'', hrow'', rfl, hp''⟩) with heq | hlater
      · exact heq.ge
      · exact ((List.pairwise_cons.1 hsorted).1 _ hlater).le

/-- Whether a row that is not there yet would share its values with another. -/
lemma valueHeldByOther_onMap (h : InOrder d kvs) (hidx : idx ∈ d.indexes) (vs : List Value)
    {rowid : Int64} (hnew : ∀ row, ¬ HasRow d kvs rowid row) (hm : SortedMap m)
    (hagree : ∀ key, indexIdPrefix idx.index_id <+: key → valueOf key m = valueOf key kvs) :
    ∃ held, (valueHeldByOther (indexValuePrefix idx vs) rowid).onMap m = .ok (held, m) ∧
      (held = true ↔ ∃ rid, HeldBy d kvs idx vs rid) := by
  have hkeys := keysWithPrefix_onMap h.sorted hm (prefix_valuePrefix vs) hagree
  have hmem := h.mem_keys hidx vs
  generalize (kvs.filter fun kv => decide (indexValuePrefix idx vs <+: kv.1)).map Prod.fst = keys
    at hkeys hmem
  obtain ⟨rids, hrids, hall, -⟩ := rowidsOf_eq fun key hkey => (hmem key).1 hkey
  refine ⟨rids.any fun r => r ≠ rowid, ?_, ?_⟩
  · rw [valueHeldByOther, TreeM.onMap_bind, hkeys, ok_bind]
    dsimp only
    rw [TreeM.onMap_bind, TreeM.onMap_lift, hrids]
    rfl
  · rw [List.any_eq_true]
    constructor
    · rintro ⟨rid, hrid, -⟩
      obtain ⟨key, hkey, hread⟩ := (hall rid).1 hrid
      obtain ⟨rid', row, hrow, rfl, hp⟩ := (hmem key).1 hkey
      exact ⟨rid', row, hrow, hp⟩
    · rintro ⟨rid, row, hrow, hp⟩
      refine ⟨rid, (hall rid).2 ⟨_, (hmem _).2 ⟨rid, row, hrow, rfl, hp⟩, rowidFromIndexKey_entryOf⟩, ?_⟩
      rw [decide_eq_true_eq]
      rintro rfl
      exact hnew row hrow

end Lookup

/-! ### The row in the way -/

section Find
variable {d : TableDef} {kvs : Entries} {values : Row}

lemma columnsOf_eq {row : Row} {cols : List ℕ} (h : ∀ c ∈ cols, c < row.length) :
    columnsOf row cols = .ok (cols.map fun c => row.getD c .null) := by
  induction cols with
  | nil => rfl
  | cons c cols ih =>
    obtain ⟨hc, hcols⟩ := List.forall_mem_cons.1 h
    rw [columnsOf, List.getElem?_eq_getElem hc, okOr_some, ok_bind, ih hcols, ok_bind, List.map_cons,
      List.getD_eq_getElem _ _ hc]

lemma indexConflict_onMap (h : InOrder d kvs) (hd : IndexesFit d) (hlen : values.length = d.columns.length)
    (indexes : List IndexDef) (hsub : ∀ idx ∈ indexes, idx ∈ d.indexes) :
    ∃ found, (indexConflict values indexes).onMap kvs = .ok (found, kvs) ∧
      ∀ rid, found = some rid ↔ FoundIn d kvs values rid indexes := by
  induction indexes with
  | nil => exact ⟨none, rfl, fun rid => iff_of_false (by simp) id⟩
  | cons idx indexes ih =>
    obtain ⟨hidx, hsub⟩ := List.forall_mem_cons.1 hsub
    obtain ⟨found, hrun, hfound⟩ := ih hsub
    have hskip : ¬ Sought idx values → ∀ rid, found = some rid ↔ FoundIn d kvs values rid (idx :: indexes) := by
      intro hnot rid
      rw [hfound, FoundIn]
      exact ⟨fun hf => Or.inr ⟨fun hs => hnot hs.1, hf⟩, fun hf => hf.elim (fun hs => absurd hs.1 hnot) And.right⟩
    rw [indexConflict]
    by_cases hunique : idx.unique = false
    · rw [if_pos hunique]
      exact ⟨found, hrun, hskip fun hs => by rw [hs.1] at hunique; cases hunique⟩
    rw [if_neg hunique, TreeM.onMap_bind, TreeM.onMap_lift,
      columnsOf_eq fun c hc => hlen ▸ (hd.columns idx hidx c hc).1, ok_bind, ok_bind]
    dsimp only
    rw [← show indexed idx values = idx.columns.map fun c => values.getD c .null from rfl]
    by_cases hnull : ((indexed idx values).any fun v => v = .null) = true
    · rw [if_pos hnull]
      refine ⟨found, hrun, hskip fun hs => hs.2 ?_⟩
      simpa using hnull
    rw [if_neg hnull]
    have hsought : Sought idx values := ⟨by simpa using hunique, by simpa using hnull⟩
    obtain ⟨rids, hscan, hnone, hfirst⟩ := indexScanEq_onMap h hidx (indexed idx values)
    rw [TreeM.onMap_bind, hscan, ok_bind]
    dsimp only
    cases rids with
    | nil =>
      refine ⟨found, hrun, fun rid => ?_⟩
      have hfree := hnone.1 rfl
      rw [hfound, FoundIn]
      refine ⟨fun hf => Or.inr ⟨fun hs => hfree hs.2, hf⟩, ?_⟩
      rintro (⟨-, row, hrow, hp, -⟩ | ⟨-, hf⟩)
      · exact absurd ⟨rid, row, hrow, hp⟩ hfree
      · exact hf
    | cons rid rids =>
      have hrid : FirstIn d kvs idx (indexed idx values) rid := hfirst rid rfl
      refine ⟨some rid, rfl, fun rid' => ?_⟩
      rw [Option.some.injEq, FoundIn]
      constructor
      · rintro rfl
        exact Or.inl ⟨hsought, hrid⟩
      · rintro (⟨-, hfirst'⟩ | ⟨hnot, -⟩)
        · exact hrid.unique hfirst'
        · obtain ⟨row, hrow, hp, -⟩ := hrid
          exact absurd ⟨hsought, rid, row, hrow, hp⟩ hnot

lemma pkConflict_onMap (values : Row) (h : InOrder d kvs) : ∃ found, (pkConflict d values).onMap kvs = .ok (found, kvs) ∧
    ∀ rid, found = some rid ↔ PkTaken d kvs values rid := by
  unfold pkConflict
  split
  · next n hn =>
    rcases onMap_readRow h n with ⟨row, hrow, hread⟩ | ⟨hnone, hread⟩
    · refine ⟨some n, ?_, fun rid => ?_⟩
      · rw [TreeM.onMap_bind, hread]
        rfl
      · rw [Option.some.injEq, PkTaken, hn]
        constructor
        · rintro rfl
          exact ⟨rfl, row, hrow⟩
        · rintro ⟨heq, -⟩
          cases heq
          rfl
    · refine ⟨none, ?_, fun rid => iff_of_false (by simp) ?_⟩
      · rw [TreeM.onMap_bind, hread]
        rfl
      · rintro ⟨heq, row, hrow⟩
        rw [hn] at heq
        cases heq
        exact hnone row hrow
  · next hother =>
    refine ⟨none, rfl, fun rid => iff_of_false (by simp) ?_⟩
    rintro ⟨heq, -⟩
    exact hother rid heq

lemma findConflict_onMap (h : InOrder d kvs) (hd : IndexesFit d) (hlen : values.length = d.columns.length) :
    ∃ found, (findConflict d values).onMap kvs = .ok (found, kvs) ∧
      ∀ rid, found = some rid ↔ Found d kvs values rid := by
  obtain ⟨pk, hpk, hpkfound⟩ := pkConflict_onMap values h
  rw [findConflict, TreeM.onMap_bind, hpk, ok_bind]
  cases pk with
  | some n =>
    refine ⟨some n, rfl, fun rid => ?_⟩
    have htaken := (hpkfound n).1 rfl
    rw [hpkfound, Found]
    refine ⟨Or.inl, ?_⟩
    rintro (ht | ⟨hnot, -⟩)
    · exact ht
    · exact absurd ⟨n, htaken⟩ hnot
  | none =>
    obtain ⟨found, hrun, hfound⟩ := indexConflict_onMap h hd hlen d.indexes fun _ hidx => hidx
    refine ⟨found, hrun, fun rid => ?_⟩
    have hfree : ¬ ∃ n, PkTaken d kvs values n := by
      rintro ⟨n, hn⟩
      cases (hpkfound n).2 hn
    rw [hfound, Found]
    exact ⟨fun hf => Or.inr ⟨hfree, hf⟩, fun hf => hf.elim (fun ht => absurd ⟨rid, ht⟩ hfree) And.right⟩

end Find

/-! ### Inserting the entries of a row -/

section Insert
variable {d : TableDef} {kvs m : Entries} {record : Row} {idx : IndexDef} {rowid : Int64}

lemma anyIndexedNull_eq {cols : List ℕ} (h : ∀ c ∈ cols, c < record.length) :
    anyIndexedNull record cols = .ok ((cols.map fun c => record.getD c .null).any fun v => v = .null) := by
  induction cols with
  | nil => rfl
  | cons c cols ih =>
    obtain ⟨hc, hcols⟩ := List.forall_mem_cons.1 h
    rw [anyIndexedNull, List.getElem?_eq_getElem hc, okOr_some, ok_bind, ih hcols, List.map_cons,
      List.any_cons, List.getD_eq_getElem _ _ hc]
    split_ifs with hnull
    · simp [hnull]
    · simp [hnull]

lemma any_null {vs : List Value} : (vs.any fun v => v = .null) = true ↔ .null ∈ vs := by
  simp

lemma checkUnique_onMap (h : InOrder d kvs) (hidx : idx ∈ d.indexes) (hunique : idx.unique = true)
    (hcols : ∀ c ∈ idx.columns, c < record.length) (hnew : ∀ row, ¬ HasRow d kvs rowid row)
    (hm : SortedMap m)
    (hagree : ∀ key, indexIdPrefix idx.index_id <+: key → valueOf key m = valueOf key kvs) :
    (HeldIn d kvs record idx → (checkUnique idx rowid record).onMap m = .error UNIQUE_VIOLATION) ∧
      (¬ HeldIn d kvs record idx → (checkUnique idx rowid record).onMap m = .ok ((), m)) := by
  have hnull : anyIndexedNull record idx.columns = .ok ((indexed idx record).any fun v => v = .null) :=
    anyIndexedNull_eq hcols
  have hpush : pushColumns record idx.columns (indexIdPrefix idx.index_id)
      = .ok (indexValuePrefix idx (indexed idx record)) := by
    rw [pushColumns_eq hcols, indexValuePrefix_eq]
    rfl
  unfold checkUnique
  rw [TreeM.onMap_bind, TreeM.onMap_lift, hnull, ok_bind, ok_bind]
  dsimp only
  by_cases hno : (indexed idx record).any (fun v => v = .null) = false
  · have hsought : Sought idx record :=
      ⟨hunique, fun hmem => by rw [any_null.2 hmem] at hno; cases hno⟩
    obtain ⟨held, hrun, hheld⟩ := valueHeldByOther_onMap h hidx (indexed idx record) hnew hm hagree
    rw [if_pos hno, TreeM.onMap_bind, TreeM.onMap_lift, hpush, ok_bind, ok_bind]
    dsimp only
    rw [TreeM.onMap_bind, hrun, ok_bind]
    dsimp only
    rw [TreeM.onMap_lift]
    constructor
    · rintro ⟨-, hrid⟩
      rw [hheld.2 hrid]
      rfl
    · intro hnot
      have hfree : held = false := by
        rw [← Bool.not_eq_true, hheld]
        exact fun hrid => hnot ⟨hsought, hrid⟩
      rw [hfree]
      rfl
  · rw [if_neg hno]
    exact ⟨fun hin => absurd (any_null.1 (Bool.not_eq_false _ ▸ hno)) hin.1.2, fun _ => rfl⟩

lemma insertIndexEntry_onMap (h : InOrder d kvs) (hidx : idx ∈ d.indexes)
    (hcols : ∀ c ∈ idx.columns, c < record.length) (hnew : ∀ row, ¬ HasRow d kvs rowid row)
    (hm : SortedMap m)
    (hagree : ∀ key, indexIdPrefix idx.index_id <+: key → valueOf key m = valueOf key kvs) :
    (HeldIn d kvs record idx → (insertIndexEntry idx rowid record).onMap m = .error UNIQUE_VIOLATION) ∧
      (¬ HeldIn d kvs record idx → (insertIndexEntry idx rowid record).onMap m
        = TreeM.keyCheck (entryOf idx record rowid) >>= fun _ =>
          .ok ((), insertKey (entryOf idx record rowid) [] m)) := by
  have hwrite : (do
      let key ← liftM (indexEntryKey idx record rowid)
      MapProgram.write key [] : TreeM Unit).onMap m = TreeM.keyCheck (entryOf idx record rowid) >>= fun _ =>
        .ok ((), insertKey (entryOf idx record rowid) [] m) := by
    rw [TreeM.onMap_bind, TreeM.onMap_lift, indexEntryKey_eq hcols]
    rfl
  unfold insertIndexEntry
  by_cases hunique : idx.unique = true
  · obtain ⟨hbad, hgood⟩ := checkUnique_onMap h hidx hunique hcols hnew hm hagree
    rw [if_pos hunique, TreeM.onMap_bind]
    constructor
    · intro hin
      rw [hbad hin]
      rfl
    · intro hin
      rw [hgood hin, ok_bind]
      exact hwrite
  · rw [if_neg hunique]
    exact ⟨fun hin => absurd hin.1.1 hunique, fun _ => hwrite⟩

lemma keyCheck_entryOf : TreeM.keyCheck (entryOf idx record rowid) = .ok () ↔ EntryFits record idx := by
  have hlen : (entryOf idx record rowid).length = (indexValuePrefix idx (indexed idx record)).length + 8 := by
    rw [indexValuePrefix_eq, entryOf, entryCode, ← List.append_assoc, List.length_append, length_rowidBe]
  rw [TreeM.keyCheck, require_eq_ok, hlen, EntryFits]
  refine and_iff_right ?_
  rintro hnil
  rw [hnil] at hlen
  simp at hlen

/-- An entry of one index is none of another. -/
lemma valueOf_insertEntry {idx' : IndexDef} (hne : idx.index_id ≠ idx'.index_id) (hm : SortedMap m)
    {key : Bytes} (hkey : indexIdPrefix idx'.index_id <+: key) :
    valueOf key (insertKey (entryOf idx record rowid) [] m) = valueOf key m := by
  refine valueOf_insertKey_of_ne hm ?_
  rintro rfl
  exact hne <| index_of_prefix prefix_entryOf hkey

/-- Index by index: the insertion is refused at the first that holds the values of the record, unless
an entry before it is too long. -/
lemma insertIndexEntries_refuses (h : InOrder d kvs) (hd : IndexesFit d)
    (hlen : record.length = d.columns.length) (hnew : ∀ row, ¬ HasRow d kvs rowid row)
    (indexes : List IndexDef) (hsub : ∀ idx ∈ indexes, idx ∈ d.indexes)
    (hids : indexes.Pairwise fun idx idx' => idx.index_id ≠ idx'.index_id) (hm : SortedMap m)
    (hagree : ∀ idx ∈ indexes, ∀ key, indexIdPrefix idx.index_id <+: key → valueOf key m = valueOf key kvs) :
    Refuses ((insertIndexEntries rowid record indexes).onMap m) ↔ RefusedIn d kvs record indexes := by
  induction indexes generalizing m with
  | nil => exact iff_of_false (refuses_ok _) id
  | cons idx indexes ih =>
    obtain ⟨hidx, hsub⟩ := List.forall_mem_cons.1 hsub
    obtain ⟨hne, hids⟩ := List.pairwise_cons.1 hids
    obtain ⟨hthis, hagree⟩ := List.forall_mem_cons.1 hagree
    obtain ⟨hbad, hgood⟩ := insertIndexEntry_onMap h hidx
      (fun c hc => hlen ▸ (hd.columns idx hidx c hc).1) hnew hm hthis
    rw [insertIndexEntries, TreeM.onMap_bind, RefusedIn]
    by_cases hin : HeldIn d kvs record idx
    · rw [hbad hin]
      exact iff_of_true (refuses_error.2 (Or.inr rfl)) (Or.inl hin)
    · rw [hgood hin, or_iff_right hin]
      by_cases hfits : EntryFits record idx
      · rw [keyCheck_entryOf.2 hfits, ok_bind, ok_bind, and_iff_right hfits]
        refine ih hsub hids hm.insertKey fun idx' hidx' key hkey => ?_
        rw [valueOf_insertEntry (hne idx' hidx') hm hkey]
        exact hagree idx' hidx' key hkey
      · refine iff_of_false ?_ fun hr => hfits hr.1
        cases hcheck : TreeM.keyCheck (entryOf idx record rowid) with
        | ok u => exact absurd (keyCheck_entryOf.1 hcheck) hfits
        | error e =>
          rintro ⟨e', he, hdup⟩
          cases he
          rw [TreeM.keyCheck, require_eq_error] at hcheck
          have he : Error.NotConstraint e := by
            rw [← hcheck.2]
            trivial
          exact not_duplicate he hdup

end Insert

/-! ### Inserting a row -/

section Row
variable {M : VectorMath} {tokenize : String → String → List Token} {d : TableDef} {kvs : Entries}
  {values record : Row} {explicit cache : Option Int64} {next rowid : Int64}

lemma length_resolveCols {cols : List ℕ} {vs : List Value} (h : resolveCols d values cols = .ok vs) :
    vs.length = cols.length := by
  induction cols generalizing vs with
  | nil =>
    cases h
    rfl
  | cons c cols ih =>
    obtain ⟨v, -, h⟩ := bind_eq_ok.1 h
    obtain ⟨vs', hvs, h⟩ := bind_eq_ok.1 h
    cases h
    rw [List.length_cons, List.length_cons, ih hvs]

lemma length_validatedRecord (h : validatedRecord d values = .ok record) :
    record.length = d.columns.length := by
  obtain ⟨u, -, h⟩ := bind_eq_ok.1 h
  rw [length_resolveCols h, List.length_range]

lemma keyCheck_rowKey (t : UInt32) (rowid : Int64) : TreeM.keyCheck (rowKey t rowid) = .ok () := by
  have hlen : (rowKey t rowid).length ≤ 9 + 9 := by
    rw [rowKey, List.length_append, rowPrefix]
    exact Nat.add_le_add (length_encodeOint_le _) (length_encodeOint_le _)
  refine require_eq_ok.2 ⟨fun hnil => ?_, hlen.trans (by decide)⟩
  obtain ⟨b, hb, -⟩ := head_rowKey t rowid
  rw [hnil] at hb
  cases hb

/-- The entries of full text and vectors, which are written last, refuse nothing. -/
lemma putRowBuffered_refuses (h : InOrder d kvs) (hd : IndexesFit d)
    (hrec : validatedRecord d values = .ok record) (hnew : ∀ row, ¬ HasRow d kvs rowid row) :
    Refuses ((putRowBuffered M tokenize d rowid values).onMap kvs) ↔ RefusedIn d kvs record d.indexes := by
  unfold putRowBuffered
  split_ifs with hnone
  · rw [hnone.1, putRowData, TreeM.onMap_bind, TreeM.onMap_lift, hrec, ok_bind, ok_bind,
      TreeM.onMap_write, keyCheck_rowKey, ok_bind]
    exact iff_of_false (refuses_ok _) id
  · have hentries := insertIndexEntries_refuses h hd (length_validatedRecord hrec) hnew d.indexes
      (fun _ hidx => hidx) hd.ids (h.sorted.insertKey (k := rowKey d.table_id rowid)
        (v := encodeValues record)) fun idx _ key hkey => by
          refine valueOf_insertKey_of_ne h.sorted ?_
          rintro rfl
          obtain ⟨rest, hrest⟩ := hkey
          have hne : (rowKey d.table_id rowid).head? ≠ some KS_INDEX := head_rowKey_ne (by decide)
          rw [← hrest] at hne
          exact hne rfl
    rw [putRow, TreeM.onMap_bind, TreeM.onMap_lift, hrec, ok_bind, ok_bind]
    dsimp only
    rw [TreeM.onMap_bind, TreeM.onMap_write, keyCheck_rowKey, ok_bind, ok_bind]
    dsimp only
    rw [TreeM.onMap_bind, refuses_bind, hentries, or_iff_left]
    rintro ⟨r, -, hlast⟩
    rw [TreeM.onMap_bind, refuses_bind] at hlast
    rcases hlast with hfts | ⟨r', -, hvec⟩
    · exact not_refuses_of_fails (keepsTo_applyFtsEntries tokenize record d.fts_indexes).fails _ hfts
    · exact not_refuses_of_fails (keepsTo_applyVectorEntries M record d.vector_indexes).fails _ hvec

lemma explicitRowid_eq (h : explicitRowid d values = .ok explicit) (n : Int64) :
    explicit = some n ↔ (d.rowid_alias.bind fun pk => values[pk]?) = some (.integer n) := by
  unfold explicitRowid at h
  cases hpk : d.rowid_alias with
  | none =>
    rw [hpk] at h
    cases h
    simp
  | some pk =>
    rw [hpk] at h
    dsimp only at h
    rw [Option.bind_some]
    split at h
    · next hv =>
      cases h
      simp [hv]
    · next hv =>
      cases h
      simp [hv]
    · next n' hv =>
      cases h
      simp [hv]
    · cases h

/-- A rowid that is taken is refused, and the one that is given is free. -/
lemma resolveRowid_onMap (explicit : Option Int64) (h : InOrder d kvs) (hcount : Counted d kvs next) :
    (Refuses ((resolveRowid d.table_id explicit next).onMap kvs) ↔
      ∃ n, explicit = some n ∧ ∃ row, HasRow d kvs n row) ∧
    ((¬ ∃ n, explicit = some n ∧ ∃ row, HasRow d kvs n row) → (explicit = none → next ≠ Int64.maxValue) →
      ∃ r, (resolveRowid d.table_id explicit next).onMap kvs = .ok (r, kvs)) ∧
    ∀ r m, (resolveRowid d.table_id explicit next).onMap kvs = .ok (r, m) →
      m = kvs ∧ (∀ row, ¬ HasRow d kvs r.1 row) ∧ (explicit = none → next ≠ Int64.maxValue) := by
  cases explicit with
  | none =>
    rw [resolveRowid, TreeM.onMap_bind, TreeM.onMap_lift]
    by_cases hend : next = Int64.maxValue
    · have hfull : require (next ≠ Int64.maxValue) (.constraint "rowids agotados")
          = .error (.constraint "rowids agotados") := require_eq_error.2 ⟨not_not.2 hend, rfl⟩
      rw [hfull]
      refine ⟨iff_of_false ?_ (by simp), fun _ hnext => absurd hend (hnext rfl), fun r m hr => by cases hr⟩
      rintro ⟨e, he, hdup⟩
      cases he
      rcases hdup with hdup | hdup
      · simp at hdup
      · simp [UNIQUE_VIOLATION] at hdup
    · rw [require_pos hend]
      refine ⟨iff_of_false (refuses_ok _) (by simp), fun _ _ => ⟨_, rfl⟩, fun r m hr => ?_⟩
      cases hr
      refine ⟨rfl, fun row hrow => ?_, fun _ => hend⟩
      rcases hcount next row hrow with hlt | hmax
      · exact Int64.lt_irrefl hlt
      · exact hend hmax
  | some n =>
    have htaken : (∃ n', some n = some n' ∧ ∃ row, HasRow d kvs n' row) ↔ ∃ row, HasRow d kvs n row := by
      simp
    rw [htaken]
    have hread : (valueOf (rowKey d.table_id n) kvs).isSome = true ↔ ∃ row, HasRow d kvs n row := by
      refine ⟨h.rows n, ?_⟩
      rintro ⟨row, record, -, hval, -⟩
      rw [hval]
      rfl
    rw [resolveRowid]
    by_cases hlook : n < next ∨ next = Int64.maxValue
    · rw [if_pos hlook, TreeM.onMap_bind, TreeM.onMap_read, ok_bind]
      dsimp only
      rw [TreeM.onMap_bind, TreeM.onMap_lift]
      by_cases hrow : ∃ row, HasRow d kvs n row
      · have hdup : require ((valueOf (rowKey d.table_id n) kvs).isSome = false) (.constraint "rowid duplicado")
            = .error (.constraint "rowid duplicado") :=
          require_eq_error.2 ⟨by rw [hread.2 hrow]; simp, rfl⟩
        rw [hdup]
        exact ⟨iff_of_true (refuses_error.2 (Or.inl rfl)) hrow, fun hnot => absurd hrow hnot,
          fun r m hr => by cases hr⟩
      · have hfree : (valueOf (rowKey d.table_id n) kvs).isSome = false := by
          rw [← Bool.not_eq_true, hread]
          exact hrow
        rw [require_pos hfree]
        refine ⟨iff_of_false (refuses_ok _) hrow, fun _ _ => ⟨_, rfl⟩, fun r m hr => ?_⟩
        cases hr
        exact ⟨rfl, fun row hrow' => hrow ⟨row, hrow'⟩, fun hnone => by cases hnone⟩
    · have hrow : ¬ ∃ row, HasRow d kvs n row := by
        rintro ⟨row, hrow⟩
        exact hlook (hcount n row hrow)
      rw [if_neg hlook]
      refine ⟨iff_of_false (refuses_ok _) hrow, fun _ _ => ⟨_, rfl⟩, fun r m hr => ?_⟩
      cases hr
      exact ⟨rfl, fun row hrow' => hrow ⟨row, hrow'⟩, fun hnone => by cases hnone⟩

/-- Without foreign keys, an insertion is refused exactly where it meets a row. -/
lemma insertRow_refuses (h : InOrder d kvs) (hd : IndexesFit d) (hfks : d.foreign_keys = [])
    (hnext : (nextCounter d cache).onMap kvs = .ok (next, kvs)) (hcount : Counted d kvs next)
    (hrec : validatedRecord d values = .ok record) (hexp : explicitRowid d values = .ok explicit) :
    Refuses ((insertRow M tokenize d values cache).onMap kvs) ↔
      Refused d kvs values record explicit next := by
  obtain ⟨hrefuses, hgives, hok⟩ := resolveRowid_onMap explicit h hcount
  have htaken : (∃ n, explicit = some n ∧ ∃ row, HasRow d kvs n row) ↔ ∃ n, PkTaken d kvs values n :=
    exists_congr fun n => and_congr_left fun _ => explicitRowid_eq hexp n
  rw [htaken] at hrefuses hgives
  have hrun : (insertRow M tokenize d values cache).onMap kvs
      = (resolveRowid d.table_id explicit next).onMap kvs >>= fun r =>
        (putRowBuffered M tokenize d r.1.1 values).onMap r.2 >>= fun u =>
          .ok ((r.1.1, some r.1.2), u.2) := by
    rw [insertRow, hfks, TreeM.onMap_bind, fkCheckParentsExist, TreeM.onMap_pure, ok_bind]
    dsimp only
    rw [TreeM.onMap_bind, TreeM.onMap_lift, hexp, ok_bind, ok_bind]
    dsimp only
    rw [TreeM.onMap_bind, hnext, ok_bind]
    dsimp only
    rw [TreeM.onMap_bind]
    congr 1
    funext r
    rw [TreeM.onMap_bind]
    rfl
  rw [hrun, refuses_bind, hrefuses, Refused]
  constructor
  · rintro (hpk | ⟨r, hr, hput⟩)
    · exact Or.inl hpk
    · obtain ⟨hsame, hnew, hend⟩ := hok r.1 r.2 hr
      rw [refuses_bind, hsame, putRowBuffered_refuses h hd hrec hnew] at hput
      rcases hput with hput | ⟨u, -, hlast⟩
      · exact Or.inr ⟨hend, hput⟩
      · exact absurd hlast (refuses_ok _)
  · rintro (hpk | ⟨hend, hin⟩)
    · exact Or.inl hpk
    · by_cases hpk : ∃ n, PkTaken d kvs values n
      · exact Or.inl hpk
      · obtain ⟨r, hr⟩ := hgives hpk hend
        obtain ⟨-, hnew, -⟩ := hok r kvs hr
        exact Or.inr ⟨(r, kvs), hr, refuses_bind.2 (Or.inl ((putRowBuffered_refuses h hd hrec hnew).2 hin))⟩

end Row

/-! ### Inserting or not -/

section Upsert
variable (M : VectorMath) (tokenize : String → String → List Token) (check : Row → Result Unit) (n : ℕ)
  (d : TableDef) (kvs : Entries) (values record : Row) (explicit cache : Option Int64) (next : Int64)

/-- `DO NOTHING` does what the insertion does, or nothing where it is not possible, and `DO UPDATE`
updates a row in the way exactly where the insertion is refused. -/
structure UpsertMatches : Prop where
  no_violation : ¬ Refuses ((upsertRow M tokenize check n d .nothing values cache).onMap kvs)
  inserts : ∀ rowid cache' m, (insertRow M tokenize d values cache).onMap kvs = .ok ((rowid, cache'), m) →
    (upsertRow M tokenize check n d .nothing values cache).onMap kvs = .ok ((.inserted rowid, cache'), m)
  unchanged : (∀ r, (insertRow M tokenize d values cache).onMap kvs ≠ .ok r) →
    ∀ r, (upsertRow M tokenize check n d .nothing values cache).onMap kvs = .ok r → r = ((.skipped, cache), kvs)
  updates : Refuses ((insertRow M tokenize d values cache).onMap kvs) → ∃ rid,
    (findConflict d values).onMap kvs = .ok (some rid, kvs) ∧ Conflicts d kvs values record rid ∧
      ∀ clause, (upsertRow M tokenize check n d (.update clause) values cache).onMap kvs
        = (upsertUpdate M tokenize check n d clause rid values).onMap kvs >>= fun r =>
          .ok ((r.1.elim .skipped .updated, cache), r.2)
  leaves : ¬ Refuses ((insertRow M tokenize d values cache).onMap kvs) →
    ∀ clause, (upsertRow M tokenize check n d (.update clause) values cache).onMap kvs
      = (insertRow M tokenize d values cache).onMap kvs >>= fun r => .ok ((.inserted r.1.1, r.1.2), r.2)

/-- A row is found in the way exactly where the insertion meets one, and it is in its way. -/
def FoundMatches : Prop := ((∃ rid, Found d kvs values rid) ↔ Refused d kvs values record explicit next) ∧
  ∀ rid, Found d kvs values rid → Conflicts d kvs values record rid

variable {M tokenize check n d kvs values record explicit cache next}

lemma upsertRow_none (hcheck : check values = .ok ())
    (hfind : (findConflict d values).onMap kvs = .ok (none, kvs)) (oc : OnConflict) :
    (upsertRow M tokenize check n d oc values cache).onMap kvs
      = (insertRow M tokenize d values cache).onMap kvs >>= fun r => .ok ((.inserted r.1.1, r.1.2), r.2) := by
  rw [upsertRow, TreeM.onMap_bind, hfind, ok_bind]
  dsimp only
  rw [insertChecked, TreeM.onMap_bind, TreeM.onMap_lift, hcheck, ok_bind, ok_bind, TreeM.onMap_bind]
  rfl

lemma upsertRow_some {rid : Int64} (hfind : (findConflict d values).onMap kvs = .ok (some rid, kvs))
    (oc : OnConflict) : (upsertRow M tokenize check n d oc values cache).onMap kvs
      = (onConflict M tokenize check n d oc rid values).onMap kvs >>= fun r => .ok ((r.1, cache), r.2) := by
  rw [upsertRow, TreeM.onMap_bind, hfind, ok_bind]
  dsimp only
  rw [TreeM.onMap_bind]
  rfl

/-- An update that leaves every row out. -/
def idleClause : UpdateClause := ⟨[], some fun _ _ => .ok false⟩

lemma FoundIn.hasRow {rid : Int64} {indexes : List IndexDef} (h : FoundIn d kvs values rid indexes) :
    ∃ row, HasRow d kvs rid row := by
  induction indexes with
  | nil => exact h.elim
  | cons idx indexes ih =>
    rcases h with ⟨-, row, hrow, -⟩ | ⟨-, h⟩
    · exact ⟨row, hrow⟩
    · exact ih h

lemma Found.hasRow {rid : Int64} (h : Found d kvs values rid) : ∃ row, HasRow d kvs rid row := by
  rcases h with h | ⟨-, h⟩
  · exact h.2
  · exact h.hasRow

lemma onConflict_idle {rid : Int64} (h : InOrder d kvs) (hrow : ∃ row, HasRow d kvs rid row) :
    (onConflict M tokenize check n d (.update idleClause) rid values).onMap kvs = .ok (.skipped, kvs) := by
  rcases onMap_readRow h rid with ⟨row, -, hread⟩ | ⟨hnone, -⟩
  · rw [onConflict, upsertUpdate, TreeM.onMap_bind, TreeM.onMap_bind, hread, ok_bind]
    rfl
  · obtain ⟨row, hrow⟩ := hrow
    exact absurd hrow (hnone row)

/-- No row is found in the way: the statement is an insertion. -/
lemma matches_none (hcheck : check values = .ok ())
    (hfind : (findConflict d values).onMap kvs = .ok (none, kvs)) :
    UpsertMatches M tokenize check n d kvs values record cache ↔
      ¬ Refuses ((insertRow M tokenize d values cache).onMap kvs) := by
  have hrun : ∀ oc, (upsertRow M tokenize check n d oc values cache).onMap kvs
      = (insertRow M tokenize d values cache).onMap kvs >>= fun r => .ok ((.inserted r.1.1, r.1.2), r.2) :=
    upsertRow_none hcheck hfind
  constructor
  · intro hmatch hbad
    refine hmatch.no_violation ?_
    rw [hrun]
    exact refuses_bind.2 (Or.inl hbad)
  · intro hfree
    refine ⟨?_, ?_, ?_, fun hbad => absurd hbad hfree, fun _ clause => hrun _⟩
    · rw [hrun, refuses_bind]
      rintro (hbad | ⟨r, -, hlast⟩)
      · exact hfree hbad
      · exact refuses_ok _ hlast
    · intro rowid cache' m hins
      rw [hrun, hins]
      rfl
    · intro hnot r hr
      rw [hrun] at hr
      obtain ⟨r', hins, -⟩ := bind_eq_ok.1 hr
      exact absurd hins (hnot r')

/-- A row is found in the way: the statement inserts nothing. -/
lemma matches_some {rid : Int64} (h : InOrder d kvs) (hrow : ∃ row, HasRow d kvs rid row)
    (hfind : (findConflict d values).onMap kvs = .ok (some rid, kvs)) :
    UpsertMatches M tokenize check n d kvs values record cache ↔
      Refuses ((insertRow M tokenize d values cache).onMap kvs) ∧ Conflicts d kvs values record rid := by
  have hrun : ∀ oc, (upsertRow M tokenize check n d oc values cache).onMap kvs
      = (onConflict M tokenize check n d oc rid values).onMap kvs >>= fun r => .ok ((r.1, cache), r.2) :=
    upsertRow_some hfind
  constructor
  · intro hmatch
    have hbad : Refuses ((insertRow M tokenize d values cache).onMap kvs) := by
      by_contra hfree
      have hidle := hmatch.leaves hfree idleClause
      rw [hrun, onConflict_idle h hrow, ok_bind] at hidle
      obtain ⟨r, -, hr⟩ := bind_eq_ok.1 hidle.symm
      cases hr
    obtain ⟨rid', hfind', hconf, -⟩ := hmatch.updates hbad
    rw [hfind] at hfind'
    cases hfind'
    exact ⟨hbad, hconf⟩
  · rintro ⟨hbad, hconf⟩
    refine ⟨?_, ?_, ?_, fun _ => ⟨rid, hfind, hconf, fun clause => ?_⟩, fun hfree => absurd hbad hfree⟩
    · rw [hrun]
      exact refuses_ok _
    · intro rowid cache' m hins
      rw [hins] at hbad
      exact absurd hbad (refuses_ok _)
    · intro _ r hr
      rw [hrun] at hr
      cases hr
      rfl
    · rw [hrun, onConflict, TreeM.onMap_bind, bind_assoc]
      rfl

/-- Where the values of UNIQUE indexes are stored as they are given, a number is left to give and no
entry is too long, the two agree. -/
lemma foundMatches_of_same (h : InOrder d kvs)
    (hsame : ∀ idx ∈ d.indexes, idx.unique = true → indexed idx values = indexed idx record)
    (hfits : ∀ idx ∈ d.indexes, EntryFits record idx) (hend : explicit = none → next ≠ Int64.maxValue) :
    FoundMatches d kvs values record explicit next := by
  have hheld : ∀ idx ∈ d.indexes, HeldIn d kvs values idx ↔ HeldIn d kvs record idx := by
    intro idx hidx
    unfold HeldIn Sought
    by_cases hunique : idx.unique = true
    · rw [hsame idx hidx hunique]
    · simp [hunique]
  have hrefused : ∀ indexes : List IndexDef, (∀ idx ∈ indexes, idx ∈ d.indexes) →
      ((∃ rid, FoundIn d kvs values rid indexes) ↔ RefusedIn d kvs record indexes) := by
    intro indexes hsub
    induction indexes with
    | nil => exact iff_of_false (not_exists.2 fun _ => id) id
    | cons idx indexes ih =>
      obtain ⟨hidx, hsub⟩ := List.forall_mem_cons.1 hsub
      rw [RefusedIn, ← hheld idx hidx, and_iff_right (hfits idx hidx), ← ih hsub]
      constructor
      · rintro ⟨rid, ⟨hsought, row, hrow, hp, -⟩ | ⟨-, hlater⟩⟩
        · exact Or.inl ⟨hsought, rid, row, hrow, hp⟩
        · exact Or.inr ⟨rid, hlater⟩
      · intro hor
        by_cases hin : HeldIn d kvs values idx
        · obtain ⟨rids, -, hnone, hfirst⟩ := indexScanEq_onMap h hidx (indexed idx values)
          cases rids with
          | nil => exact absurd hin.2 (hnone.1 rfl)
          | cons rid rids => exact ⟨rid, Or.inl ⟨hin.1, hfirst rid rfl⟩⟩
        · obtain ⟨rid, hlater⟩ := hor.resolve_left hin
          exact ⟨rid, Or.inr ⟨hin, hlater⟩⟩
  have hconf : ∀ (indexes : List IndexDef) (rid : Int64), (∀ idx ∈ indexes, idx ∈ d.indexes) →
      FoundIn d kvs values rid indexes →
        ∃ idx ∈ d.indexes, Sought idx record ∧ HeldBy d kvs idx (indexed idx record) rid := by
    intro indexes rid hsub hfound
    induction indexes with
    | nil => exact hfound.elim
    | cons idx indexes ih =>
      obtain ⟨hidx, hsub⟩ := List.forall_mem_cons.1 hsub
      rcases hfound with ⟨hsought, row, hrow, hp, -⟩ | ⟨-, hlater⟩
      · refine ⟨idx, hidx, ?_⟩
        have heq := hsame idx hidx hsought.1
        rw [Sought, ← heq]
        exact ⟨hsought, row, hrow, hp⟩
      · exact ih hsub hlater
  constructor
  · rw [Refused, and_iff_right hend, ← hrefused d.indexes fun _ hidx => hidx]
    constructor
    · rintro ⟨rid, hpk | ⟨-, hin⟩⟩
      · exact Or.inl ⟨rid, hpk⟩
      · exact Or.inr ⟨rid, hin⟩
    · intro hor
      by_cases hpk : ∃ n, PkTaken d kvs values n
      · obtain ⟨n, hn⟩ := hpk
        exact ⟨n, Or.inl hn⟩
      · obtain ⟨rid, hin⟩ := hor.resolve_left hpk
        exact ⟨rid, Or.inr ⟨hpk, hin⟩⟩
  · rintro rid (hpk | ⟨-, hin⟩)
    · exact Or.inl hpk
    · exact Or.inr (hconf d.indexes rid (fun _ hidx => hidx) hin)

end Upsert

/-! ### A REAL column -/

section OneReal

/-- A computation with vectors that no row below asks for. -/
def plainMath : VectorMath where
  scaled bits _ := bits
  normalize v := v
  nearestCentroid _ _ := 0
  pqEncode _ := none
  packI8 _ := []

def realIndex : IndexDef := ⟨"uq_t_0", 1, [0], true⟩

/-- `CREATE TABLE t (a REAL UNIQUE)` -/
def realTable : TableDef where
  name := "t"
  table_id := 1
  rowid_alias := none
  columns := [⟨"a", .real, false, none, false⟩]
  indexes := [realIndex]
  fts_indexes := []
  vector_indexes := []
  logical_order := [0]
  foreign_keys := []
  checks := []
  alias_lt i h := by cases h
  logical := List.Perm.refl _

def oneReal : Row := [.real (.ofInt64 1)]

/-- The table with the row 1.0. -/
def oneRealMap : Entries :=
  [(counterKey 1, leBytes 8 2), (entryOf realIndex oneReal 1, []), (rowKey 1 1, encodeValues oneReal)]

def noTokens (_ _ : String) : List Token := []

lemma oneReal_sorted : SortedMap oneRealMap := by
  unfold SortedMap
  decide +kernel

lemma mem_oneReal {key : Bytes} (h : (valueOf key oneRealMap).isSome) :
    key = counterKey 1 ∨ key = entryOf realIndex oneReal 1 ∨ key = rowKey 1 1 := by
  obtain ⟨v, hv⟩ := Option.isSome_iff_exists.1 h
  have hmem := (mem_iff_valueOf oneReal_sorted).2 hv
  simp only [oneRealMap, List.mem_cons, Prod.mk.injEq, List.not_mem_nil, or_false] at hmem
  exact hmem.imp And.left (Or.imp And.left And.left)

lemma rowid_oneReal {rowid : Int64} (h : (valueOf (rowKey 1 rowid) oneRealMap).isSome) : rowid = 1 := by
  rcases mem_oneReal h with heq | heq | heq
  · exact absurd (congrArg List.head? heq) (head_rowKey_ne (by decide))
  · exact absurd (congrArg List.head? heq) (head_rowKey_ne (by decide))
  · exact rowKey_inj.1 heq

lemma hasRow_oneReal {rowid : Int64} {row : Row} :
    HasRow realTable oneRealMap rowid row ↔ rowid = 1 ∧ row = oneReal := by
  have hone : HasRow realTable oneRealMap 1 oneReal := ⟨oneReal, ⟨by decide, by decide +kernel⟩, rfl, rfl⟩
  constructor
  · intro hrow
    obtain ⟨record, -, hval, -⟩ := id hrow
    have h1 : rowid = 1 := by
      refine rowid_oneReal ?_
      rw [show rowKey 1 rowid = rowKey realTable.table_id rowid from rfl, hval]
      rfl
    rw [h1] at hrow
    exact ⟨h1, hrow.unique hone⟩
  · rintro ⟨rfl, rfl⟩
    exact hone

lemma oneReal_inOrder : InOrder realTable oneRealMap where
  sorted := oneReal_sorted
  rows rowid h := ⟨oneReal, hasRow_oneReal.2 ⟨rowid_oneReal h, rfl⟩⟩
  entries idx hidx key hkey := by
    rw [List.mem_singleton.1 hidx] at hkey ⊢
    constructor
    · intro h
      rcases mem_oneReal h with rfl | rfl | rfl
      · exact absurd hkey (by decide)
      · exact ⟨1, oneReal, hasRow_oneReal.2 ⟨rfl, rfl⟩, rfl⟩
      · exact absurd hkey (by decide)
    · rintro ⟨rid, row, hhas, rfl⟩
      obtain ⟨rfl, rfl⟩ := hasRow_oneReal.1 hhas
      rfl

lemma realTable_fits : IndexesFit realTable where
  columns idx hidx c hc := by
    rw [List.mem_singleton.1 hidx] at hc
    rw [List.mem_singleton.1 hc]
    exact ⟨by decide, by simp [realTable]⟩
  ids := List.pairwise_singleton _ _

lemma oneReal_counted : Counted realTable oneRealMap 2 := by
  intro rowid row hrow
  rw [(hasRow_oneReal.1 hrow).1]
  exact Or.inl (by decide)

end OneReal

end Catalog

end Arkeion
