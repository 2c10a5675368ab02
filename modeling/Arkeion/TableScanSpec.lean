import Arkeion.KeyOrder
import Arkeion.TableScan

/-!
What the scans of a table give: every row whole, or the wanted columns of every row.
-/

namespace Arkeion

open Arkeion.Lib

namespace Catalog

open Btree NodeSource

/-! ### A row as it is read -/

section FullRow
variable (d : TableDef) (rowid : Int64) (values : Row)

/-- The row a record stands for. -/
def fullRow : Row :=
  match d.rowid_alias with
  | none => values ++ (d.columns.drop values.length).map ColumnDef.fill
  | some i => (values ++ (d.columns.drop values.length).map ColumnDef.fill).set i (.integer rowid)

/-- The value in one column. -/
def columnValue (c : ℕ) : Value :=
  if d.rowid_alias = some c then .integer rowid
  else values[c]?.getD ((d.columns[c]?.map ColumnDef.fill).getD .null)

variable {d rowid values}

lemma finishRow_eq (h : values.length ≤ d.columns.length) :
    finishRow d rowid values = .ok (fullRow d rowid values) := by
  have hlong : ¬ d.columns.length < values.length := by omega
  cases ha : d.rowid_alias with
  | none => simp only [finishRow, fullRow, ha, if_neg hlong]
  | some i => simp only [finishRow, fullRow, ha, if_neg hlong]

lemma length_fullRow (h : values.length ≤ d.columns.length) :
    (fullRow d rowid values).length = d.columns.length := by
  unfold fullRow
  split <;> simp <;> omega

lemma getElem?_fullRow (h : values.length ≤ d.columns.length) {c : ℕ} (hc : c < d.columns.length) :
    (fullRow d rowid values)[c]? = some (columnValue d rowid values c) := by
  have hfilled : (values ++ (d.columns.drop values.length).map ColumnDef.fill)[c]?
      = some (values[c]?.getD ((d.columns[c]?.map ColumnDef.fill).getD .null)) := by
    rcases Nat.lt_or_ge c values.length with hlt | hge
    · rw [List.getElem?_append_left hlt, List.getElem?_eq_getElem hlt]
      rfl
    · rw [List.getElem?_append_right hge, List.getElem?_map, List.getElem?_drop,
        List.getElem?_eq_none hge, Nat.add_sub_cancel' hge, List.getElem?_eq_getElem hc]
      rfl
  unfold fullRow columnValue
  cases ha : d.rowid_alias with
  | none => simpa using hfilled
  | some i =>
    dsimp only
    rw [List.getElem?_set]
    rcases eq_or_ne i c with rfl | hne
    · have hi : i < (values ++ (d.columns.drop values.length).map ColumnDef.fill).length := by
        simp
        omega
      rw [if_pos rfl, if_pos rfl, if_pos hi]
    · rw [if_neg hne, if_neg (by simpa using hne), hfilled]

end FullRow

/-! ### The records of a table -/

/-- The entry of a row. -/
def rowEntry (d : TableDef) (r : Int64 × Row) : Bytes × Bytes :=
  (rowKey d.table_id r.1, encodeValues r.2)

/-- The row is no wider than the table, and its record fits into memory. -/
def Storable (d : TableDef) (r : Int64 × Row) : Prop :=
  r.2.length ≤ d.columns.length ∧ (encodeValues r.2).length < 2 ^ 64

/-- All entries under the prefix of the table are rows of it. -/
def HoldsRows (d : TableDef) (kvs : Entries) : Prop :=
  ∀ p ∈ kvs, rowPrefix d.table_id <+: p.1 → ∃ r, Storable d r ∧ p = rowEntry d r

/-- The entries a scan of the table passes over, and what it then stops at. -/
def ScansAs (d : TableDef) (kvs : Entries) (stored : List (Int64 × Row)) : Prop :=
  (∀ r ∈ stored, Storable d r) ∧ ∃ rest, kvs = stored.map (rowEntry d) ++ rest ∧
    ∀ p ∈ rest.head?, ¬ rowPrefix d.table_id <+: p.1

lemma HoldsRows.scansAs {d : TableDef} {kvs : Entries} (h : HoldsRows d kvs) :
    ∃ stored, ScansAs d kvs stored := by
  induction kvs with
  | nil => exact ⟨[], by simp, [], rfl, by simp⟩
  | cons p kvs ih =>
    by_cases hp : rowPrefix d.table_id <+: p.1
    · obtain ⟨r, hr, rfl⟩ := h p List.mem_cons_self hp
      obtain ⟨stored, hall, rest, rfl, hrest⟩ := ih fun q hq => h q (List.mem_cons_of_mem _ hq)
      exact ⟨r :: stored, List.forall_mem_cons.2 ⟨hr, hall⟩, rest, rfl, hrest⟩
    · exact ⟨[], by simp, p :: kvs, rfl, by simpa using hp⟩

lemma rowPrefix_rowKey (table_id : UInt32) (rowid : Int64) :
    rowPrefix table_id <+: rowKey table_id rowid := List.prefix_append ..

lemma rowidOf_rowKey (table_id : UInt32) (rowid : Int64) :
    rowidOf (rowKey table_id rowid) = .ok rowid := by
  rw [rowidOf, decodeRowKey_rowKey, okOr_some, ok_bind]

section Whole
variable {d : TableDef} {kvs : Entries} {stored : List (Int64 × Row)}

/-- The whole rows of records. -/
def fullRows (d : TableDef) (stored : List (Int64 × Row)) : List (Int64 × Row) :=
  stored.map fun r => (r.1, fullRow d r.1 r.2)

lemma loopOver_scanStep (h : ScansAs d kvs stored) (acc : List (Int64 × Row)) :
    loopOver (scanStep d) kvs acc = .ok (acc ++ fullRows d stored) := by
  induction stored generalizing kvs acc with
  | nil =>
    obtain ⟨-, rest, rfl, hrest⟩ := h
    cases kvs with
    | nil => simp [loopOver, fullRows]
    | cons p rest =>
      have hp := hrest p rfl
      simp [loopOver, scanStep, hp, fullRows]
  | cons r stored ih =>
    obtain ⟨hall, rest, rfl, hrest⟩ := h
    obtain ⟨⟨hwide, hsize⟩, hall⟩ := List.forall_mem_cons.1 hall
    have hstep : scanStep d (rowEntry d r) acc = .ok (some (acc ++ [(r.1, fullRow d r.1 r.2)])) := by
      simp only [scanStep, rowEntry, not_true, rowPrefix_rowKey, if_false, rowidOf_rowKey, ok_bind,
        decodeValues_encode hsize, finishRow_eq hwide]
    rw [List.map_cons, List.cons_append, loopOver, hstep, ok_bind]
    dsimp only
    rw [ih ⟨hall, rest, rfl, hrest⟩]
    simp [fullRows]

end Whole

/-! ### The columns of one row -/

section Project
variable {d : TableDef} {rowid : Int64} {values : Row} {cols : List ℕ}

open ScanProjection

lemma mem_storedOf {c : ℕ} : c ∈ storedOf d cols ↔ c ∈ cols ∧ d.rowid_alias ≠ some c := by
  rw [storedOf, List.mem_dedup, (List.perm_insertionSort _ _).mem_iff]
  simp

lemma storedOf_rising : (storedOf d cols).Pairwise (· < ·) := by
  have hsorted := List.pairwise_insertionSort (· ≤ ·)
    (cols.filter fun c => d.rowid_alias != some c)
  have hle := hsorted.sublist (List.dedup_sublist _)
  exact hle.imp₂ (fun _ _ hle hne => lt_of_le_of_ne hle hne) (List.nodup_dedup _)

/-- The slots of the columns that are left find their values where they were decoded: a value
moved out is of a column that does not come again. -/
lemma fillSlots_eq {stored : List ℕ} {scratch : List (Option Value)}
    (hcols : ∀ c ∈ cols, c < d.columns.length)
    (hs : ∀ c ∈ cols, d.rowid_alias ≠ some c → c ∈ stored ∧
      scratch[stored.idxOf c]? = some values[c]?) :
    fillSlots d rowid (slotsOf d stored cols) scratch
      = .ok (cols.map (columnValue d rowid values)) := by
  induction cols generalizing scratch with
  | nil => rfl
  | cons c cols ih =>
    obtain ⟨hc, hcols⟩ := List.forall_mem_cons.1 hcols
    obtain ⟨hsc, hs'⟩ := List.forall_mem_cons.1 hs
    by_cases ha : d.rowid_alias = some c
    · simp only [slotsOf, if_pos ha, fillSlots, ih hcols hs', ok_bind, List.map_cons, columnValue]
    · obtain ⟨hmem, hat⟩ := hsc ha
      have hrest : ∀ last_use : Bool, last_use = decide (c ∉ cols) →
          fillSlots d rowid (slotsOf d stored cols)
            (if last_use then scratch.set (stored.idxOf c) none else scratch)
          = .ok (cols.map (columnValue d rowid values)) := by
        intro last_use hlast
        cases last_use with
        | false => exact ih hcols hs'
        | true =>
          have hnot : c ∉ cols := of_decide_eq_true hlast.symm
          refine ih hcols fun c' hc' ha' => ⟨(hs' c' hc' ha').1, ?_⟩
          have hne : stored.idxOf c ≠ stored.idxOf c' := fun he =>
            hnot ((List.idxOf_inj hmem).1 he ▸ hc')
          rw [if_pos rfl, List.getElem?_set_ne hne]
          exact (hs' c' hc' ha').2
      have hcol : d.columns[c]? = some d.columns[c] := List.getElem?_eq_getElem hc
      simp only [slotsOf, if_neg ha, fillSlots, hat, hcol, okOr_some, ok_bind, hrest _ rfl,
        List.map_cons, columnValue, Option.map_some, Option.getD_some]

end Project

/-! ### Scans of a tree -/

section Tree
variable {σ : Type} [NodeStore σ] {s : σ} {m n k : ℕ} {d : TableDef} {kvs : Entries} {F : List ℕ}
  {stored : List (Int64 × Row)}

lemma scanTable_eq {root : ℕ} (h : TreeHolds s m n root kvs F) (hm : m ≤ k) (hn : n + 2 ≤ k)
    (hk : kvs.length < k) (hs : ScansAs d (fromKey (rowPrefix d.table_id) kvs) stored) :
    scanTable s k root d = .ok (fullRows d stored) := by
  rw [scanTable, forScan_eq _ _ h hm hn hk]
  exact loopOver_scanStep hs []

namespace ScanState

/-- A scan that has still to give the rows. -/
def Gives (s : σ) (m n : ℕ) (d : TableDef) (st : ScanState) (stored : List (Int64 × Row)) : Prop :=
  st.done = false ∧ st.prefix_ = rowPrefix d.table_id ∧
    ∃ kvs, Rest s m n st.cur kvs ∧ ScansAs d kvs stored

lemma start_gives {root : ℕ} (h : TreeHolds s m n root kvs F) (hn : n + 2 ≤ k)
    (hs : ScansAs d (fromKey (rowPrefix d.table_id) kvs) stored) :
    ∃ st, start s k root d = .ok st ∧ st.Gives s m n d stored := by
  obtain ⟨cur, hcur, hrest⟩ := scanState_rest h (show n ≤ k by omega) (some (rowPrefix d.table_id))
  exact ⟨⟨cur, rowPrefix d.table_id, false⟩, by rw [start, hcur, ok_bind], rfl, rfl, _, hrest, hs⟩

variable {st : ScanState} {cols : List ℕ}

lemma Gives.next {r : Int64 × Row} (h : st.Gives s m n d (r :: stored)) (hm : m ≤ k)
    (hn : n + 2 ≤ k) (hcols : ∀ c ∈ cols, c < d.columns.length) :
    ∃ st', nextInto s k d (.new d cols) st = .ok (some (cols.map (columnValue d r.1 r.2)), st') ∧
      st'.Gives s m n d stored := by
  obtain ⟨cur, prefix_, done⟩ := st
  obtain ⟨rfl, rfl, kvs, hrest, hall, rest, rfl, hstop⟩ := h
  obtain ⟨⟨hwide, hsize⟩, hall⟩ := List.forall_mem_cons.1 hall
  have hstack : cur.stack.length + 2 ≤ k := by
    obtain ⟨h, -, -, -, -, -, hlen⟩ := hrest
    exact (Nat.add_le_add_right (Nat.le_add_left _ h |>.trans_eq hlen) 2).trans hn
  rcases advance_rest hrest hm (by omega) hstack with ⟨hnil, -⟩ | ⟨p, kvs', cur', hp, hadv, hrest'⟩
  · cases hnil
  · cases hp
    refine ⟨⟨cur', rowPrefix d.table_id, false⟩, ?_, rfl, rfl, _, hrest', hall, rest, rfl, hstop⟩
    have hdecoded : decodeColsSorted (encodeValues r.2) (ScanProjection.storedOf d cols)
        = .ok ((ScanProjection.storedOf d cols).map fun w => r.2[w]?) :=
      decodeColsSorted_encode hsize storedOf_rising
    have hfill : fillSlots d r.1 (ScanProjection.slotsOf d (ScanProjection.storedOf d cols) cols)
        ((ScanProjection.storedOf d cols).map fun w => r.2[w]?)
        = .ok (cols.map (columnValue d r.1 r.2)) := by
      refine fillSlots_eq hcols fun c hc ha => ?_
      have hmem := mem_storedOf.2 ⟨hc, ha⟩
      refine ⟨hmem, ?_⟩
      rw [List.getElem?_map, List.getElem?_idxOf hmem]
      rfl
    simp only [nextInto, Bool.false_eq_true, if_false, hadv, ok_bind, view, rowEntry, not_true,
      rowPrefix_rowKey, rowidOf_rowKey, ScanProjection.new, hdecoded, hfill]

lemma Gives.finish {proj : ScanProjection} (h : st.Gives s m n d []) (hm : m ≤ k) (hn : n + 2 ≤ k) :
    ∃ st', nextInto s k d proj st = .ok (none, st') := by
  obtain ⟨cur, prefix_, done⟩ := st
  obtain ⟨rfl, rfl, kvs, hrest, -, rest, rfl, hstop⟩ := h
  have hstack : cur.stack.length + 2 ≤ k := by
    obtain ⟨h, -, -, -, -, -, hlen⟩ := hrest
    exact (Nat.add_le_add_right (Nat.le_add_left _ h |>.trans_eq hlen) 2).trans hn
  rcases advance_rest hrest hm (by omega) hstack with ⟨-, hadv⟩ | ⟨p, kvs', cur', hp, hadv, -⟩
  · exact ⟨_, by simp only [nextInto, Bool.false_eq_true, if_false, hadv, ok_bind]; rfl⟩
  · have hout := hstop p (by rw [hp]; rfl)
    refine ⟨⟨cur', rowPrefix d.table_id, true⟩, ?_⟩
    simp only [nextInto, Bool.false_eq_true, if_false, hadv, ok_bind, view, hout, not_false_iff,
      if_true]

end ScanState

end Tree

end Catalog

end Arkeion
