import Arkeion.ForeignKeys
import Arkeion.SearchEntries
import Arkeion.TableScanSpec

/-!
A table as a set of rows: every record is a row, and the indexes hold an entry for each row and no
others. What is looked up in an index are then rows, and writing a row keeps this.
-/

namespace Arkeion

open Arkeion.Lib Btree MapProgram

namespace Catalog

/-! ### Tables that are in order -/

/-- The row of a rowid. -/
def HasRow (d : TableDef) (kvs : Entries) (rowid : Int64) (row : Row) : Prop :=
  ∃ record, Storable d (rowid, record) ∧
    valueOf (rowKey d.table_id rowid) kvs = some (encodeValues record) ∧
    row = fullRow d rowid record

/-- The key of the entry of a row. -/
def entryOf (idx : IndexDef) (row : Row) (rowid : Int64) : Bytes :=
  indexIdPrefix idx.index_id ++ entryCode (indexed idx row, rowid)

/-- What `create_index` checks: the columns are there and none is the primary key, and every index
has a number of its own. -/
structure IndexesFit (d : TableDef) : Prop where
  columns : ∀ idx ∈ d.indexes, ∀ c ∈ idx.columns, c < d.columns.length ∧ d.rowid_alias ≠ some c
  ids : d.indexes.Pairwise fun idx idx' => idx.index_id ≠ idx'.index_id

/-- The records are rows, and the indexes are those of the rows. -/
structure InOrder (d : TableDef) (kvs : Entries) : Prop where
  sorted : SortedMap kvs
  rows : ∀ rowid, (valueOf (rowKey d.table_id rowid) kvs).isSome → ∃ row, HasRow d kvs rowid row
  entries : ∀ idx ∈ d.indexes, ∀ key, indexIdPrefix idx.index_id <+: key →
    ((valueOf key kvs).isSome ↔ ∃ rowid row, HasRow d kvs rowid row ∧ key = entryOf idx row rowid)

/-- No row has a rowid that the counter still has to give, unless it stands at its end. -/
def Counted (d : TableDef) (kvs : Entries) (next : Int64) : Prop :=
  ∀ rowid row, HasRow d kvs rowid row → rowid < next ∨ next = Int64.maxValue

section Rows
variable {d : TableDef} {kvs : Entries} {rowid rowid' : Int64} {row row' : Row}

lemma HasRow.unique (h : HasRow d kvs rowid row) (h' : HasRow d kvs rowid row') : row = row' := by
  obtain ⟨record, hst, hval, rfl⟩ := h
  obtain ⟨record', hst', hval', rfl⟩ := h'
  rw [hval, Option.some.injEq] at hval'
  have hdec := decodeValues_encode hst.2
  rw [hval', decodeValues_encode hst'.2, Except.ok.injEq] at hdec
  exact congrArg (fullRow d rowid) hdec.symm

lemma HasRow.length (h : HasRow d kvs rowid row) : row.length = d.columns.length := by
  obtain ⟨record, hst, -, rfl⟩ := h
  exact length_fullRow hst.1

lemma hasRow_congr {kvs' : Entries}
    (h : valueOf (rowKey d.table_id rowid) kvs' = valueOf (rowKey d.table_id rowid) kvs) :
    HasRow d kvs' rowid row ↔ HasRow d kvs rowid row := by
  rw [HasRow, HasRow, h]

/-- `get_row`. -/
lemma onMap_readRow (h : InOrder d kvs) (rowid : Int64) : (∃ row, HasRow d kvs rowid row ∧
    (readRow d rowid).onMap kvs = .ok (some row, kvs)) ∨
      (∀ row, ¬ HasRow d kvs rowid row) ∧ (readRow d rowid).onMap kvs = .ok (none, kvs) := by
  cases hval : valueOf (rowKey d.table_id rowid) kvs with
  | none =>
    refine Or.inr ⟨?_, by simp [readRow, hval]⟩
    rintro row ⟨record, -, hval', -⟩
    rw [hval] at hval'
    cases hval'
  | some bytes =>
    obtain ⟨row, hrow⟩ := h.rows rowid (by rw [hval]; rfl)
    obtain ⟨record, hst, hval', rfl⟩ := id hrow
    refine Or.inl ⟨_, hrow, ?_⟩
    simp [readRow, hval', decodeValues_encode hst.2, finishRow_eq hst.1]

/-- Only the last value of a row and of its record differ, where the alias is. -/
lemma indexed_fullRow (hd : IndexesFit d) {idx : IndexDef} (hidx : idx ∈ d.indexes)
    {record : Row} (hlen : record.length = d.columns.length) :
    indexed idx (fullRow d rowid record) = indexed idx record := by
  refine List.map_congr_left fun c hc => ?_
  obtain ⟨hlt, halias⟩ := hd.columns idx hidx c hc
  have hfull : (fullRow d rowid record)[c]? = some (columnValue d rowid record c) :=
    getElem?_fullRow hlen.le hlt
  obtain ⟨v, hvalue⟩ : ∃ v, record[c]? = some v := ⟨_, List.getElem?_eq_getElem (hlen ▸ hlt)⟩
  rw [columnValue, if_neg halias, hvalue, Option.getD_some] at hfull
  rw [List.getD_eq_getElem?_getD, List.getD_eq_getElem?_getD, hfull, hvalue]

lemma indexEntryKey_full (hd : IndexesFit d) {idx : IndexDef} (hidx : idx ∈ d.indexes)
    (hlen : row.length = d.columns.length) (rowid : Int64) :
    indexEntryKey idx row rowid = .ok (entryOf idx row rowid) :=
  indexEntryKey_eq (fun c hc => hlen ▸ (hd.columns idx hidx c hc).1) rowid

end Rows

/-! ### The keys of entries -/

section Keys
variable {idx idx' : IndexDef} {row row' : Row} {rowid rowid' : Int64}

lemma length_indexIdPrefix (index_id : UInt32) : (indexIdPrefix index_id).length = 5 := by
  rw [indexIdPrefix, List.length_cons, length_beBytes]

lemma indexIdPrefix_inj {a b : UInt32} (h : indexIdPrefix a = indexIdPrefix b) : a = b := by
  have hbytes := congrArg beNat (List.cons.inj h).2
  rw [beNat_beBytes 4 a.toNat_lt, beNat_beBytes 4 b.toNat_lt] at hbytes
  exact UInt32.toNat_inj.1 hbytes

/-- The indexes are apart. -/
lemma index_of_prefix {a b : UInt32} {key : Bytes} (ha : indexIdPrefix a <+: key)
    (hb : indexIdPrefix b <+: key) : a = b := by
  refine indexIdPrefix_inj ?_
  have hlen : (indexIdPrefix a).length = (indexIdPrefix b).length := by
    rw [length_indexIdPrefix, length_indexIdPrefix]
  rw [List.prefix_iff_eq_take.1 ha, List.prefix_iff_eq_take.1 hb, hlen]

lemma prefix_entryOf : indexIdPrefix idx.index_id <+: entryOf idx row rowid :=
  List.prefix_append _ _

lemma length_rowidBe (rowid : Int64) : (rowidBe rowid).length = 8 := length_beBytes ..

/-- The rowid of an entry can be read off. -/
lemma rowid_of_entry (h : entryOf idx row rowid = entryOf idx' row' rowid') : rowid = rowid' := by
  rw [entryOf, entryOf, entryCode, entryCode, ← List.append_assoc, ← List.append_assoc] at h
  have hlen : (rowidBe rowid).length = (rowidBe rowid').length := by
    rw [length_rowidBe, length_rowidBe]
  have hbe := List.append_inj_right' h hlen
  have hread := rowidFromBe_rowidBe rowid
  rw [hbe, rowidFromBe_rowidBe] at hread
  exact (Option.some.inj hread).symm

lemma rowidFromIndexKey_append (k : Bytes) (rowid : Int64) :
    rowidFromIndexKey (k ++ rowidBe rowid) = .ok rowid := by
  have hlen : (k ++ rowidBe rowid).length = k.length + 8 := by
    rw [List.length_append, length_rowidBe]
  rw [rowidFromIndexKey, hlen, if_pos (Nat.le_add_left ..), Nat.add_sub_cancel, List.drop_left,
    rowidFromBe_rowidBe, okOr_some]

lemma rowidFromIndexKey_entryOf : rowidFromIndexKey (entryOf idx row rowid) = .ok rowid := by
  rw [entryOf, entryCode, ← List.append_assoc]
  exact rowidFromIndexKey_append _ _

lemma head_entryOf : (entryOf idx row rowid).head? = some KS_INDEX := rfl

lemma head_rowKey (t : UInt32) (rowid : Int64) : ∃ b, (rowKey t rowid).head? = some b ∧ 0x80 ≤ b := by
  obtain ⟨b, rest, heq, hb⟩ := rowPrefix_head t
  exact ⟨b, by rw [rowKey, heq]; rfl, hb⟩

lemma head_rowKey_ne {t : UInt32} {space : UInt8} (h : space < 0x80) :
    (rowKey t rowid).head? ≠ some space := by
  obtain ⟨b, hb, hge⟩ := head_rowKey t rowid
  rw [hb]
  rintro heq
  cases heq
  exact absurd h (UInt8.not_lt.2 hge)

lemma rowKey_inj {t : UInt32} : rowKey t rowid = rowKey t rowid' ↔ rowid = rowid' := by
  refine ⟨fun h => ?_, fun h => h ▸ rfl⟩
  have hrow := decodeRowKey_rowKey t rowid
  rw [h, decodeRowKey_rowKey, Option.some.injEq] at hrow
  exact (Prod.mk.inj hrow).2.symm

end Keys

end Catalog

end Arkeion
