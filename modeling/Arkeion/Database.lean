import Arkeion.CommitWrite
import Arkeion.Fts.SearchExact
import Arkeion.SchemaHistory
import Arkeion.TableSteps
import Mathlib.Data.Set.List

/-!
The tables of a database over whole runs: inserting, updating and deleting rows with all that foreign
keys make of it, committing and rolling back.

What a program may write to belongs to one table; the others stand apart from it.
-/

namespace Arkeion

open Arkeion.Lib Btree MapProgram

namespace Catalog

/-! ### Programs that only read -/

section Reading
variable {d : TableDef} {rowid : Int64} {values : Row}

lemma readOnly_readRow : ReadOnly TreeM.keyCheck (readRow d rowid) := by
  refine .bind .read fun bytes => ?_
  cases bytes with
  | none => exact .pure _
  | some b => exact .bind (.lift _) fun _ => .bind (.lift _) fun _ => .pure _

lemma readOnly_getTable (name : String) : ReadOnly TreeM.keyCheck (getTable name) := by
  refine .bind .read fun bytes => ?_
  cases bytes with
  | none => exact .pure _
  | some b => exact .bind (.lift _) fun _ => .pure _

lemma readOnly_indexScanEq (idx : IndexDef) (vs : Row) :
    ReadOnly TreeM.keyCheck (indexScanEq idx vs) :=
  .bind (.bind .readFrom fun _ => .pure _) fun _ => .lift _

lemma readOnly_parentExists (fk : ForeignKey) (vs : Row) :
    ReadOnly TreeM.keyCheck (parentExists fk values vs) := by
  refine .bind (readOnly_getTable _) fun parent => .bind (.lift _) fun parent => ?_
  split_ifs
  · split
    · exact .lift _
    · exact .bind readOnly_readRow fun _ => .pure _
    · exact .lift _
  · exact .bind (.lift _) fun idx => .bind (.lift _) fun key =>
      .bind (readOnly_indexScanEq _ _) fun _ => .pure _

lemma readOnly_fkCheckParentsExist (fks : List ForeignKey) :
    ReadOnly TreeM.keyCheck (fkCheckParentsExist values fks) := by
  induction fks with
  | nil => exact .pure ()
  | cons fk fks ih =>
    rw [fkCheckParentsExist]
    split
    · exact ih
    · exact .bind (readOnly_parentExists fk _) fun _ => .bind (.lift _) fun _ => ih

lemma readOnly_listTables : ReadOnly TreeM.keyCheck listTables := .bind .readFrom fun _ => .lift _

lemma readOnly_scanRows (d : TableDef) : ReadOnly TreeM.keyCheck (scanRows d) :=
  .bind .readFrom fun _ => .lift _

lemma readOnly_fkChildrenMatching (fk : ForeignKey) (vs : Row) :
    ReadOnly TreeM.keyCheck (fkChildrenMatching d fk vs) := by
  rw [fkChildrenMatching]
  split_ifs
  · exact .pure _
  · exact .bind (readOnly_scanRows d) fun _ => .pure _

lemma readOnly_nextCounter (cache : Option Int64) : ReadOnly TreeM.keyCheck (nextCounter d cache) := by
  cases cache with
  | some next => exact .pure _
  | none =>
    refine .bind .read fun v => ?_
    cases v with
    | none => exact .pure _
    | some v => exact .bind (.lift _) fun _ => .pure _

end Reading

/-! ### Writing one row -/

section Row
variable {M : VectorMath} {tokenize : String → String → List Token} {d : TableDef}
  {kvs : Entries} {rowid : Int64} {values : Row}

/-- The value fits into memory. -/
def Fits (value : Bytes) : Prop := value.length < 2 ^ 64

/-- The keys a table has a part in. -/
def WrittenKey (d : TableDef) (key : Bytes) : Prop := OwnKey d key ∨ key.head? = some KS_VECTOR

lemma EntryKey.written {key : Bytes} (h : EntryKey d key) : WrittenKey d key := by
  rcases h with h | h | h
  · exact Or.inl (Or.inr (Or.inl h))
  · exact Or.inl (Or.inr (Or.inr h))
  · exact Or.inr h

lemma rowKey_written : WrittenKey d (rowKey d.table_id rowid) := Or.inl (Or.inl (rowPrefix_rowKey _ _))

/-- The row with this rowid is the one of the values, and all others are as they were. -/
def Written (d : TableDef) (rowid : Int64) (values : Row) (kvs m : Entries) : Prop :=
  ∃ record, validatedRecord d values = .ok record ∧ ∀ r w, HasRow d m r w ↔
    if r = rowid then w = fullRow d rowid record else HasRow d kvs r w

/-- A table without indexes has no entries. -/
lemma indexRow_none {record : Row}
    (h : d.indexes = [] ∧ d.fts_indexes = [] ∧ d.vector_indexes = []) :
    indexRow M tokenize d rowid record = pure () ∧ unindexRow M tokenize d rowid record = pure () := by
  obtain ⟨h₁, h₂, h₃⟩ := h
  constructor
  · rw [indexRow, h₁, h₂, h₃]
    rfl
  · rw [unindexRow, h₁, h₂, h₃]
    rfl

lemma putRowBuffered_eq (h : d.indexes = [] ∧ d.fts_indexes = [] ∧ d.vector_indexes = []) :
    putRowBuffered M tokenize d rowid values = putRow M tokenize d rowid values := by
  obtain ⟨h₁, h₂, h₃⟩ := h
  rw [putRowBuffered, if_pos ⟨h₁, h₂, h₃⟩, putRow, putRowData, h₁, h₂, h₃]
  rfl

lemma putRowBuffered_putRow : putRowBuffered M tokenize d rowid values = putRow M tokenize d rowid values := by
  by_cases hnone : d.indexes = [] ∧ d.fts_indexes = [] ∧ d.vector_indexes = []
  · exact putRowBuffered_eq hnone
  · rw [putRowBuffered, if_neg hnone]

/-- A new row. -/
lemma putRow_triple (h : TableOk tokenize d kvs) (hd : TableFits tokenize d)
    (hnew : ∀ w, ¬ HasRow d kvs rowid w) :
    Triple TreeM.keyCheck Fits (· = kvs) (putRowBuffered M tokenize d rowid values)
      fun _ m => TableOk tokenize d m ∧ Written d rowid values kvs m := by
  rw [putRowBuffered_putRow]
  refine .bind (.lift (Q := fun record l => validatedRecord d values = .ok record ∧ l = kvs)
    fun l record hl hrec => ⟨hrec, hl⟩) fun record => .of_fact (fun _ h => h.1) fun hrec => ?_
  refine .bind (.write (Q := fun _ l => Fits (encodeValues record) ∧
    l = insertKey (rowKey d.table_id rowid) (encodeValues record) kvs) ?_) fun _ => ?_
  · rintro l ⟨-, rfl⟩ - hfits
    exact ⟨hfits, rfl⟩
  · rintro l u m ⟨hfits, rfl⟩ - hrun
    obtain ⟨hok, hiff⟩ := h.put hd hrec hfits hnew h.order.sorted.insertKey
      (valueOf_insertKey_self h.order.sorted)
      (fun key hne => valueOf_insertKey_of_ne h.order.sorted hne) hrun
    exact ⟨hok, record, hrec, hiff⟩

/-- The row with this rowid is gone, and all others are as they were. -/
def Removed (d : TableDef) (rowid : Int64) (kvs m : Entries) : Prop :=
  ∀ r w, HasRow d m r w ↔ r ≠ rowid ∧ HasRow d kvs r w

/-- Its entries are taken out and those of the values put in, if the row is there. -/
lemma overwriteRow_triple (h : TableOk tokenize d kvs) (hd : TableFits tokenize d) :
    Triple TreeM.keyCheck Fits (· = kvs) (overwriteRow M tokenize d rowid values)
      fun b m => TableOk tokenize d m ∧ (b = false ∧ (∀ w, ¬ HasRow d kvs rowid w) ∧ m = kvs ∨
        b = true ∧ (∃ w, HasRow d kvs rowid w) ∧ Written d rowid values kvs m) := by
  refine .bind (.read (Q := fun old l => old = valueOf (rowKey d.table_id rowid) kvs ∧ l = kvs)
    fun l hl => ⟨by rw [hl], hl⟩) fun old => .of_fact (fun _ hl => hl.1) fun hold => ?_
  cases old with
  | none =>
    refine .pure fun l hl => ?_
    rw [hl.2]
    refine ⟨h, Or.inl ⟨rfl, ?_, rfl⟩⟩
    rintro w ⟨record, -, hval, -⟩
    rw [← hold] at hval
    cases hval
  | some bytes =>
    obtain ⟨row, hrow⟩ := h.order.rows rowid (by rw [← hold]; rfl)
    obtain ⟨old, hst, hval, rfl⟩ := id hrow
    rw [← hold, Option.some.injEq] at hval
    subst hval
    refine .bind (.lift (Q := fun record l => validatedRecord d values = .ok record ∧ l = kvs)
      fun l record hl hrec => ⟨hrec, hl.2⟩) fun record => .of_fact (fun _ hl => hl.1) fun hrec => ?_
    -- what is left once the entries of the old row are out
    have hrest : Triple TreeM.keyCheck Fits
        (fun l => (unindexRow M tokenize d rowid (fullRow d rowid old)).onMap kvs = .ok ((), l))
        (do
          MapProgram.write (rowKey d.table_id rowid) (encodeValues record)
          insertIndexEntries rowid record d.indexes
          applyFtsEntries tokenize rowid record true d.fts_indexes
          applyVectorEntries M rowid record true d.vector_indexes
          pure true)
        fun b m => TableOk tokenize d m ∧ (b = false ∧ (∀ w, ¬ HasRow d kvs rowid w) ∧ m = kvs ∨
          b = true ∧ (∃ w, HasRow d kvs rowid w) ∧ Written d rowid values kvs m) := by
      have hindex : (do
          insertIndexEntries rowid record d.indexes
          applyFtsEntries tokenize rowid record true d.fts_indexes
          applyVectorEntries M rowid record true d.vector_indexes
          pure true : TreeM Bool)
          = indexRow M tokenize d rowid record >>= fun _ => pure true := by
        simp only [indexRow, bind_bind]
      rw [hindex]
      refine .bind (.write (Q := fun _ l => Fits (encodeValues record) ∧ ∃ m₁,
        (unindexRow M tokenize d rowid (fullRow d rowid old)).onMap kvs = .ok ((), m₁) ∧
          l = insertKey (rowKey d.table_id rowid) (encodeValues record) m₁)
        fun l hl _ hfits => ⟨hfits, l, hl, rfl⟩) fun _ => ?_
      rintro l b m ⟨hfits, m₁, hout, rfl⟩ - hrun
      obtain ⟨u, m', hin, hrun⟩ := run_bind_eq_ok.1 hrun
      cases hrun
      have hm₁ := TreeM.onMap_sorted hout h.order.sorted
      obtain ⟨hok, hgone⟩ := h.take hd hrow h.order.sorted (fun _ _ => rfl) hout hm₁.eraseKey
        (valueOf_eraseKey_self _) fun key hne => valueOf_eraseKey_of_ne _ hne
      obtain ⟨hok', hiff⟩ := hok.put hd hrec hfits (fun w hw => ((hgone rowid w).1 hw).1 rfl)
        hm₁.insertKey (valueOf_insertKey_self hm₁) (fun key hne => by
          rw [valueOf_insertKey_of_ne hm₁ hne, valueOf_eraseKey_of_ne _ hne]) hin
      refine ⟨hok', Or.inr ⟨rfl, ⟨_, hrow⟩, record, hrec, fun r w => (hiff r w).trans ?_⟩⟩
      split_ifs with heq
      · exact Iff.rfl
      · exact (hgone r w).trans (and_iff_right heq)
    split_ifs with hnone
    · refine hrest.conseq (fun l hl => ?_) fun _ _ => id
      rw [(indexRow_none hnone).2, hl.2]
      rfl
    · rw [decodeValues_encode hst.2]
      refine .bind (.lift (Q := fun x l => x = old ∧ l = kvs) fun l x hl hx => ?_) fun x =>
        .of_fact (fun _ hl => hl.1) fun hx => ?_
      · cases hx
        exact ⟨rfl, hl.2⟩
      subst hx
      rw [finishRow_eq hst.1]
      refine .bind (.lift (Q := fun x' l => x' = fullRow d rowid x ∧ l = kvs) fun l x' hl hx' => ?_)
        fun x' => .of_fact (fun _ hl => hl.1) fun hx' => ?_
      · cases hx'
        exact ⟨rfl, hl.2⟩
      subst hx'
      refine .bind (Q := fun _ l => (deleteIndexEntries rowid (fullRow d rowid x) d.indexes).onMap kvs
        = .ok ((), l)) ?_ fun _ => .bind (Q := fun _ l => (deleteIndexEntries rowid (fullRow d rowid x) d.indexes >>=
          fun _ => applyFtsEntries tokenize rowid (fullRow d rowid x) false d.fts_indexes).onMap kvs
        = .ok ((), l)) ?_ fun _ => .bind ?_ fun _ => hrest
      · rintro l u m ⟨-, rfl⟩ - hrun
        exact hrun
      · rintro l u m hl - hrun
        exact run_bind_eq_ok.2 ⟨(), l, hl, hrun⟩
      · rintro l u m hl - hrun
        obtain ⟨u', l', hdel, hfts⟩ := run_bind_eq_ok.1 hl
        exact run_bind_eq_ok.2 ⟨(), l', hdel, run_bind_eq_ok.2 ⟨(), l, hfts, hrun⟩⟩

/-- The row is taken out with its entries, if it is there. -/
lemma eraseRow_triple (h : TableOk tokenize d kvs) (hd : TableFits tokenize d) :
    Triple TreeM.keyCheck Fits (· = kvs) (eraseRow M tokenize d rowid)
      fun b m => TableOk tokenize d m ∧ (b = true ↔ ∃ w, HasRow d kvs rowid w) ∧
        Removed d rowid kvs m := by
  have hs := h.order.sorted
  have hrow {w : Row} (hw : HasRow d kvs rowid w) {m : Entries}
      (hout : (unindexRow M tokenize d rowid w).onMap (eraseKey (rowKey d.table_id rowid) kvs)
        = .ok ((), m)) : TableOk tokenize d m ∧ (true = true ↔ ∃ w, HasRow d kvs rowid w) ∧
          Removed d rowid kvs m := by
    obtain ⟨hok, hgone⟩ := h.take hd hw hs.eraseKey (fun key hne => valueOf_eraseKey_of_ne _ hne) hout
      (TreeM.onMap_sorted hout hs.eraseKey)
      ((rows_of_local localTo_unindexRow hs.eraseKey hout (rowPrefix_rowKey _ _)).trans
        (valueOf_eraseKey_self _)) fun _ _ => rfl
    exact ⟨hok, iff_of_true rfl ⟨w, hw⟩, hgone⟩
  have hsome {bytes : Bytes} (hval : valueOf (rowKey d.table_id rowid) kvs = some bytes) :
      ∃ record, Storable d (rowid, record) ∧ bytes = encodeValues record ∧
        HasRow d kvs rowid (fullRow d rowid record) := by
    obtain ⟨row, hrow⟩ := h.order.rows rowid (by rw [hval]; rfl)
    obtain ⟨record, hst, hval', rfl⟩ := id hrow
    rw [hval, Option.some.injEq] at hval'
    exact ⟨record, hst, hval', hrow⟩
  have hnone (hval : valueOf (rowKey d.table_id rowid) kvs = none) (w : Row) :
      ¬ HasRow d kvs rowid w := by
    rintro ⟨record, -, hval', -⟩
    rw [hval] at hval'
    cases hval'
  have hsame (hval : valueOf (rowKey d.table_id rowid) kvs = none) : Removed d rowid kvs kvs := by
    refine fun r w => (and_iff_right_of_imp fun hw => ?_).symm
    rintro rfl
    exact hnone hval w hw
  rw [eraseRow]
  split_ifs with hindexes
  · refine .erase fun l hl => ?_
    rw [hl]
    cases hval : valueOf (rowKey d.table_id rowid) kvs with
    | none =>
      have herase : eraseKey (rowKey d.table_id rowid) kvs = kvs := by
        refine SortedMap.ext hs.eraseKey hs fun key => ?_
        by_cases heq : key = rowKey d.table_id rowid
        · rw [heq, valueOf_eraseKey_self, hval]
        · exact valueOf_eraseKey_of_ne _ heq
      rw [herase]
      exact ⟨h, by simp [hnone hval], hsame hval⟩
    | some bytes =>
      obtain ⟨record, -, -, hw⟩ := hsome hval
      exact hrow hw (by rw [(indexRow_none hindexes).2]; rfl)
  · refine .bind (.read (Q := fun old l => old = valueOf (rowKey d.table_id rowid) kvs ∧ l = kvs)
      fun l hl => ⟨by rw [hl], hl⟩) fun old => .of_fact (fun _ hl => hl.1) fun hold => ?_
    cases old with
    | none =>
      refine .pure fun l hl => ?_
      rw [hl.2]
      exact ⟨h, by simp [hnone hold.symm], hsame hold.symm⟩
    | some bytes =>
      obtain ⟨record, hst, rfl, hw⟩ := hsome hold.symm
      dsimp only
      rw [decodeValues_encode hst.2]
      rintro l b m ⟨-, rfl⟩ - hrun
      obtain ⟨x, l', hx, hrun⟩ := run_bind_eq_ok.1 hrun
      cases hx
      rw [finishRow_eq hst.1] at hrun
      obtain ⟨x', l', hx', hrun⟩ := run_bind_eq_ok.1 hrun
      cases hx'
      obtain ⟨b', l', herase, hrun⟩ := run_bind_eq_ok.1 hrun
      cases herase
      obtain ⟨u₁, l₁, hdel, hrun⟩ := run_bind_eq_ok.1 hrun
      obtain ⟨u₂, l₂, hfts, hrun⟩ := run_bind_eq_ok.1 hrun
      obtain ⟨u₃, l₃, hvec, hrun⟩ := run_bind_eq_ok.1 hrun
      cases hrun
      exact hrow hw (run_bind_eq_ok.2 ⟨(), l₁, hdel, run_bind_eq_ok.2 ⟨(), l₂, hfts, hvec⟩⟩)

/-! ### The keys that are written -/

lemma localTo_putRow : LocalTo TreeM.keyCheck (WrittenKey d) (putRowBuffered M tokenize d rowid values) := by
  rw [putRowBuffered_putRow]
  exact .bind (.lift _) fun record => .bind (.write rowKey_written) fun _ =>
    localTo_indexRow.mono fun _ => EntryKey.written

lemma localTo_overwriteRow : LocalTo TreeM.keyCheck (WrittenKey d) (overwriteRow M tokenize d rowid values) := by
  refine .bind (.read rowKey_written) fun old => ?_
  cases old with
  | none => exact .pure _
  | some bytes =>
    refine .bind (.lift _) fun record => ?_
    have hrest : LocalTo TreeM.keyCheck (WrittenKey d) (do
        MapProgram.write (rowKey d.table_id rowid) (encodeValues record)
        insertIndexEntries rowid record d.indexes
        applyFtsEntries tokenize rowid record true d.fts_indexes
        applyVectorEntries M rowid record true d.vector_indexes
        pure true) := by
      have hindex : LocalTo TreeM.keyCheck (WrittenKey d) (indexRow M tokenize d rowid record) :=
        localTo_indexRow.mono fun _ => EntryKey.written
      have hwrite : LocalTo TreeM.keyCheck (WrittenKey d)
          (MapProgram.write (rowKey d.table_id rowid) (encodeValues record) : TreeM Unit) := .write rowKey_written
      have := hwrite.bind fun _ => LocalTo.bind hindex fun _ => .pure true
      simpa only [indexRow, bind_bind] using this
    split_ifs
    · exact hrest
    · refine .bind (.lift _) fun old => .bind (.lift _) fun old => ?_
      have hout : LocalTo TreeM.keyCheck (WrittenKey d) (unindexRow M tokenize d rowid old) :=
        localTo_unindexRow.mono fun _ => EntryKey.written
      have := LocalTo.bind hout fun _ => hrest
      simpa only [unindexRow, bind_bind] using this

lemma localTo_eraseRow : LocalTo TreeM.keyCheck (WrittenKey d) (eraseRow M tokenize d rowid) := by
  rw [eraseRow]
  split_ifs
  · exact .erase rowKey_written
  · refine .bind (.read rowKey_written) fun bytes => ?_
    cases bytes with
    | none => exact .pure _
    | some bytes =>
      refine .bind (.lift _) fun old => .bind (.lift _) fun row => .bind (.erase rowKey_written) fun _ => ?_
      have hout : LocalTo TreeM.keyCheck (WrittenKey d) (unindexRow M tokenize d rowid row) :=
        localTo_unindexRow.mono fun _ => EntryKey.written
      have := LocalTo.bind hout fun _ => LocalTo.pure true
      simpa only [unindexRow, bind_bind] using this

end Row

/-! ### Tables side by side -/

/-- The tables have different names, and no key belongs to both. -/
structure Apart (d d' : TableDef) : Prop where
  name : d.name ≠ d'.name
  table : d.table_id ≠ d'.table_id
  indexes : ∀ idx ∈ d.indexes, ∀ idx' ∈ d'.indexes, idx.index_id ≠ idx'.index_id
  texts : ∀ fts ∈ d.fts_indexes, ∀ fts' ∈ d'.fts_indexes, fts.fts_id ≠ fts'.fts_id

/-- The tables of a database, each with keys of its own. -/
structure TablesFit (tokenize : String → String → List Token) (tables : List TableDef) : Prop where
  fits : ∀ d ∈ tables, TableFits tokenize d
  apart : tables.Pairwise Apart

/-- What belongs to the tables goes with their rows. -/
structure Coherent (tokenize : String → String → List Token) (tables : List TableDef)
    (caches : UInt32 → Option Int64) (kvs : Entries) : Prop where
  sorted : SortedMap kvs
  listed : listTables.onMap kvs = .ok (tables, kvs)
  ok : ∀ d ∈ tables, TableOk tokenize d kvs
  counted : ∀ d ∈ tables, ∃ next, (nextCounter d (caches d.table_id)).onMap kvs = .ok (next, kvs) ∧
    Counted d kvs next

section Tables
variable {M : VectorMath} {tokenize : String → String → List Token} {tables : List TableDef}
  {d d' : TableDef} {caches : UInt32 → Option Int64} {kvs m : Entries} {rowid : Int64} {values : Row}
  {key : Bytes}

instance : Std.Symm Apart where
  symm _ _ h := ⟨h.name.symm, h.table.symm, fun idx hidx idx' hidx' => (h.indexes idx' hidx' idx hidx).symm,
    fun fts hfts fts' hfts' => (h.texts fts' hfts' fts hfts).symm⟩

lemma table_of_rowPrefix {t t' : UInt32} (h : rowPrefix t <+: key) (h' : rowPrefix t' <+: key) :
    t = t' := by
  rcases List.prefix_or_prefix_of_prefix h h' with hp | hp
  · rcases lt_trichotomy t.toNat t'.toNat with hlt | heq | hlt
    · exact absurd hp (rowPrefix_keepsOrder (UInt32.lt_iff_toNat_lt.2 hlt)).not_begins
    · exact UInt32.toNat_inj.1 heq
    · exact absurd hp (rowPrefix_keepsOrder (UInt32.lt_iff_toNat_lt.2 hlt)).not_begun
  · rcases lt_trichotomy t.toNat t'.toNat with hlt | heq | hlt
    · exact absurd hp (rowPrefix_keepsOrder (UInt32.lt_iff_toNat_lt.2 hlt)).not_begun
    · exact UInt32.toNat_inj.1 heq
    · exact absurd hp (rowPrefix_keepsOrder (UInt32.lt_iff_toNat_lt.2 hlt)).not_begins

lemma rowPrefix_not_head {t : UInt32} {space : UInt8} (h : rowPrefix t <+: key) (hlt : space < 0x80) :
    key.head? ≠ some space := by
  obtain ⟨b, rest, heq, hb⟩ := rowPrefix_head t
  rw [heq] at h
  rw [ head_of_prefix h]
  rintro hspace
  cases hspace
  exact absurd hlt (UInt8.not_lt.2 hb)

lemma WrittenKey.apart (hne : Apart d d') (h : WrittenKey d key) : ¬ OwnKey d' key := by
  rintro (h' | ⟨idx', hidx', h'⟩ | ⟨fts', hfts', h'⟩)
  · rcases h with (h | ⟨idx, -, h⟩ | ⟨fts, -, h⟩) | h
    · exact hne.table (table_of_rowPrefix h h')
    · exact rowPrefix_not_head h' (by decide) ( head_of_prefix h)
    · exact rowPrefix_not_head h' (by decide) ( head_of_prefix h)
    · exact rowPrefix_not_head h' (by decide) h
  · rcases h with (h | ⟨idx, hidx, h⟩ | ⟨fts, -, h⟩) | h
    · exact rowPrefix_not_head h (by decide) ( head_of_prefix h')
    · exact hne.indexes idx hidx idx' hidx' ( index_of_prefix h h')
    · exact index_not_fts h' h
    · rw [ head_of_prefix h'] at h
      cases h
  · rcases h with (h | ⟨idx, -, h⟩ | ⟨fts, hfts, h⟩) | h
    · exact rowPrefix_not_head h (by decide) ( head_of_prefix h')
    · exact index_not_fts h h'
    · exact hne.texts fts hfts fts' hfts' ( fts_of_prefix h h')
    · rw [ head_of_prefix h'] at h
      cases h

lemma WrittenKey.not_catalog (h : WrittenKey d key) : key.head? ≠ some KS_CATALOG := by
  rcases h with (h | ⟨idx, -, h⟩ | ⟨fts, -, h⟩) | h
  · exact rowPrefix_not_head h (by decide)
  · rw [ head_of_prefix h]
    decide
  · rw [ head_of_prefix h]
    decide
  · rw [h]
    decide

lemma localTo_listTables :
    LocalTo TreeM.keyCheck (fun key => [KS_CATALOG, CAT_TABLE] <+: key) listTables :=
  localTo_prefixWalk (f := fun kvs => liftM (decodeTables kvs)) (fun _ => id) fun _ => .lift _

lemma localTo_nextCounter (cache : Option Int64) :
    LocalTo TreeM.keyCheck (· = counterKey d.table_id) (nextCounter d cache) := by
  cases cache with
  | some next => exact .pure _
  | none =>
    refine .bind (.read rfl) fun v => ?_
    cases v with
    | none => exact .pure _
    | some v => exact .bind (.lift _) fun _ => .pure _

/-- One table changes, with the counter it then has. -/
lemma Coherent.step (hs : TablesFit tokenize tables) (h : Coherent tokenize tables caches kvs)
    (hd : d ∈ tables) (hm : SortedMap m) (hagree : ∀ key, ¬ WrittenKey d key → valueOf key m = valueOf key kvs)
    (hok : TableOk tokenize d m) {caches' : UInt32 → Option Int64}
    (hcaches : ∀ t, t ≠ d.table_id → caches' t = caches t)
    (hcount : ∃ next, (nextCounter d (caches' d.table_id)).onMap m = .ok (next, m) ∧ Counted d m next) :
    Coherent tokenize tables caches' m := by
  have hcatalog {key : Bytes} (hkey : key.head? = some KS_CATALOG) : valueOf key m = valueOf key kvs :=
    hagree key fun hw => hw.not_catalog hkey
  refine ⟨hm, ?_, fun d' hd' => ?_, fun d' hd' => ?_⟩
  · exact readOnly_listTables.run_congr localTo_listTables h.sorted hm
      (fun key hkey => (hcatalog ( head_of_prefix hkey)).symm) h.listed
  · by_cases heq : d' = d
    · rwa [heq]
    · refine (h.ok d' hd').congr hm fun key hkey => hagree key fun hw => ?_
      exact hw.apart (hs.apart.forall hd hd' (Ne.symm heq)) hkey
  · by_cases heq : d' = d
    · rwa [heq]
    · have hne := hs.apart.forall hd hd' (Ne.symm heq)
      obtain ⟨next, hnext, hcounted⟩ := h.counted d' hd'
      rw [← hcaches _ hne.table.symm] at hnext
      refine ⟨next, (readOnly_nextCounter _).run_congr (localTo_nextCounter _) h.sorted hm ?_ hnext, ?_⟩
      · rintro _ rfl
        exact (hcatalog rfl).symm
      · intro r w hrow
        have hrow' : HasRow d' kvs r w := by
          refine (hasRow_congr (hagree _ fun hw => ?_)).1 hrow
          exact hw.apart hne (Or.inl (rowPrefix_rowKey _ _))
        exact hcounted r w hrow'

/-- Rows may be changed and taken out without the counter. -/
lemma Coherent.within (hs : TablesFit tokenize tables) (h : Coherent tokenize tables caches kvs)
    (hd : d ∈ tables) (hm : SortedMap m) (hagree : ∀ key, ¬ WrittenKey d key → valueOf key m = valueOf key kvs)
    (hok : TableOk tokenize d m) (hrows : ∀ r w, HasRow d m r w → ∃ w', HasRow d kvs r w') :
    Coherent tokenize tables caches m := by
  obtain ⟨next, hnext, hcounted⟩ := h.counted d hd
  refine h.step hs hd hm hagree hok (fun _ _ => rfl) ⟨next, ?_, fun r w hrow => ?_⟩
  · refine (readOnly_nextCounter _).run_congr (localTo_nextCounter _) h.sorted hm ?_ hnext
    rintro _ rfl
    exact (hagree _ fun hw => hw.not_catalog rfl).symm
  · obtain ⟨w', hrow'⟩ := hrows r w hrow
    exact hcounted r w' hrow'

lemma keeps_overwriteRow (hs : TablesFit tokenize tables) (hd : d ∈ tables) :
    Keeps TreeM.keyCheck Fits (Coherent tokenize tables caches) (overwriteRow M tokenize d rowid values) := by
  intro l b m h hfits hrun
  obtain ⟨hok, hcases⟩ := overwriteRow_triple (h.ok d hd) (hs.fits d hd) l b m rfl hfits hrun
  refine h.within hs hd (TreeM.onMap_sorted hrun h.sorted)
    (fun key hkey => localTo_overwriteRow.keeps h.sorted hrun hkey) hok fun r w hrow => ?_
  rcases hcases with ⟨-, -, rfl⟩ | ⟨-, ⟨w', hw'⟩, record, -, hiff⟩
  · exact ⟨w, hrow⟩
  · rw [hiff] at hrow
    split_ifs at hrow with heq
    · exact ⟨w', heq ▸ hw'⟩
    · exact ⟨w, hrow⟩

lemma keeps_eraseRow (hs : TablesFit tokenize tables) (hd : d ∈ tables) :
    Keeps TreeM.keyCheck Fits (Coherent tokenize tables caches) (eraseRow M tokenize d rowid) := by
  intro l b m h hfits hrun
  obtain ⟨hok, -, hiff⟩ := eraseRow_triple (h.ok d hd) (hs.fits d hd) l b m rfl hfits hrun
  exact h.within hs hd (TreeM.onMap_sorted hrun h.sorted)
    (fun key hkey => localTo_eraseRow.keeps h.sorted hrun hkey) hok
    fun r w hrow => ⟨w, ((hiff r w).1 hrow).2⟩

/-! ### Inserting -/

lemma int64_lt_succ {n : Int64} (h : n ≠ Int64.maxValue) : n < n + 1 := by
  have hlt : n.toInt < 2 ^ 63 - 1 := by
    have hle := n.toInt_le
    have hne : n.toInt ≠ Int64.maxValue.toInt := fun heq => h (Int64.toInt_inj.1 heq)
    have hmax : Int64.maxValue.toInt = 2 ^ 63 - 1 := by decide
    omega
  have hge := n.le_toInt
  have hone : (1 : Int64).toInt = 1 := by decide
  rw [Int64.lt_iff_toInt_lt, Int64.toInt_add, hone, Int.bmod_eq_of_le (by omega) (by omega)]
  omega

/-- The rowid that is given and the rows there were are behind the counter. -/
lemma resolveRowid_counts {explicit : Option Int64} {next next' : Int64}
    (hr : (resolveRowid d.table_id explicit next).onMap kvs = .ok ((rowid, next'), m)) :
    (rowid < next' ∨ next' = Int64.maxValue) ∧
      ∀ r, r < next ∨ next = Int64.maxValue → r < next' ∨ next' = Int64.maxValue := by
  cases explicit with
  | none =>
    obtain ⟨u, l, hreq, hr⟩ := run_bind_eq_ok.1 hr
    have hne := require_eq_ok.1 (run_lift_eq_ok.1 hreq).1
    cases hr
    refine ⟨Or.inl (int64_lt_succ hne), fun r hr => Or.inl ?_⟩
    exact Int64.lt_trans (hr.resolve_right hne) (int64_lt_succ hne)
  | some n =>
    have hr' : ∃ l, (pure (n, if n < next then next else if n = Int64.maxValue then n else n + 1) :
        TreeM (Int64 × Int64)).onMap l = .ok ((rowid, next'), m) := by
      rw [resolveRowid] at hr
      by_cases hlook : n < next ∨ next = Int64.maxValue
      · rw [if_pos hlook] at hr
        obtain ⟨row, l, -, hr⟩ := run_bind_eq_ok.1 hr
        obtain ⟨u, l', -, hr⟩ := run_bind_eq_ok.1 hr
        exact ⟨l', hr⟩
      · rw [if_neg hlook] at hr
        exact ⟨kvs, hr⟩
    obtain ⟨l, hr⟩ := hr'
    cases hr
    split_ifs with hlt hmax
    · exact ⟨Or.inl hlt, fun r => id⟩
    · exact ⟨Or.inr hmax, fun r _ => Or.inr hmax⟩
    · refine ⟨Or.inl (int64_lt_succ hmax), fun r hr => Or.inl ?_⟩
      have hle : next ≤ rowid := Int64.not_lt.1 hlt
      rcases hr with hr | rfl
      · exact Int64.lt_trans (Int64.lt_of_lt_of_le hr hle) (int64_lt_succ hmax)
      · exact absurd (Int64.le_antisymm (Int64.le_maxValue rowid) hle) hmax

/-- The rowid is new, the counter is behind it, and the rows are the ones before with this one. -/
lemma insertRow_triple (hs : TablesFit tokenize tables) (hd : d ∈ tables)
    (h : Coherent tokenize tables caches kvs) :
    Triple TreeM.keyCheck Fits (· = kvs) (insertRow M tokenize d values (caches d.table_id))
      fun r m => Coherent tokenize tables (Function.update caches d.table_id r.2) m ∧
        (∀ w, ¬ HasRow d kvs r.1 w) ∧ Written d r.1 values kvs m ∧
        (fkCheckParentsExist values d.foreign_keys).onMap kvs = .ok ((), kvs) ∧
        ∀ key, ¬ WrittenKey d key → valueOf key m = valueOf key kvs := by
  rintro l r m rfl hfits hrun
  obtain ⟨next, hnext, hcounted⟩ := h.counted d hd
  rw [insertRow] at hfits hrun
  obtain ⟨u, l', hcheck, hrest₁⟩ := run_bind_eq_ok.1 hrun
  rw [inserted_bind hcheck] at hfits
  obtain rfl := readOnly_fkCheckParentsExist _ _ _ _ hcheck
  obtain ⟨explicit, l'', hexp, hrest₂⟩ := run_bind_eq_ok.1 hrest₁
  rw [inserted_bind hexp] at hfits
  obtain ⟨-, rfl⟩ := run_lift_eq_ok.1 hexp
  obtain ⟨next', l', hnext', hrest₃⟩ := run_bind_eq_ok.1 hrest₂
  rw [inserted_bind hnext'] at hfits
  rw [TreeM.onMap, hnext'] at hnext
  cases hnext
  obtain ⟨⟨rowid, new_next⟩, l', hres, hrest₄⟩ := run_bind_eq_ok.1 hrest₃
  rw [inserted_bind hres] at hfits
  obtain ⟨rfl, hnew, -⟩ := (resolveRowid_onMap explicit (h.ok d hd).order hcounted).2.2 _ _ hres
  dsimp only at hfits hrest₄
  obtain ⟨u', m', hput, hdone⟩ := run_bind_eq_ok.1 hrest₄
  rw [inserted_bind hput] at hfits
  cases hdone
  obtain ⟨hok, hwritten⟩ := putRow_triple (h.ok d hd) (hs.fits d hd) hnew _ _ _ rfl
    (fun q hq => hfits q (by simp [hq])) hput
  have hagree (key : Bytes) (hkey : ¬ WrittenKey d key) : valueOf key m = valueOf key l' :=
    localTo_putRow.keeps h.sorted hput hkey
  refine ⟨h.step hs hd (TreeM.onMap_sorted hput h.sorted) hagree hok
    (fun t ht => Function.update_of_ne ht _ _) ⟨new_next, ?_, fun r w hrow => ?_⟩, hnew, hwritten,
    hcheck, hagree⟩
  · rw [Function.update_self]
    rfl
  · obtain ⟨record, -, hiff⟩ := hwritten
    obtain ⟨hself, hbefore⟩ := resolveRowid_counts hres
    rw [hiff] at hrow
    split_ifs at hrow with heq
    · exact heq ▸ hself
    · exact hbefore r (hcounted r w hrow)

/-! ### What foreign keys make of it -/

section Cascade
variable {I : Entries → Prop} {updateChild : TableDef → Int64 → Row → TreeM Unit}
  {deleteChild : TableDef → Int64 → TreeM Unit} {child : TableDef} {fk : ForeignKey}

lemma keeps_updateHits (hup : ∀ id vals, Keeps TreeM.keyCheck Fits I (updateChild child id vals))
    (sets : List (ℕ × Value)) (hits : List (Int64 × Row)) :
    Keeps TreeM.keyCheck Fits I (updateHits updateChild child sets hits) := by
  induction hits with
  | nil => exact .pure ()
  | cons hit hits ih => exact .bind (.lift _) fun vals => .bind (hup _ _) fun _ => ih

lemma keeps_deleteHits (hdel : ∀ id, Keeps TreeM.keyCheck Fits I (deleteChild child id))
    (hits : List (Int64 × Row)) : Keeps TreeM.keyCheck Fits I (deleteHits deleteChild child hits) := by
  induction hits with
  | nil => exact .pure ()
  | cons hit hits ih => exact .bind (hdel _) fun _ => ih

lemma keeps_onDelete (hup : ∀ id vals, Keeps TreeM.keyCheck Fits I (updateChild child id vals))
    (hdel : ∀ id, Keeps TreeM.keyCheck Fits I (deleteChild child id)) (parent : Option Row) :
    Keeps TreeM.keyCheck Fits I (onDelete updateChild deleteChild rowid parent child fk) := by
  refine .bind (.lift _) fun ref_vals => ?_
  cases ref_vals with
  | none => exact .pure ()
  | some vs =>
    refine .bind (readOnly_fkChildrenMatching fk vs).keeps fun hits => ?_
    split_ifs
    · exact .pure ()
    · cases fk.on_delete with
      | restrict => exact .lift _
      | cascade => exact keeps_deleteHits hdel hits
      | setNull => exact keeps_updateHits hup _ hits

lemma keeps_onUpdate (hup : ∀ id vals, Keeps TreeM.keyCheck Fits I (updateChild child id vals))
    (old new : Row) (restrict_only : Bool) :
    Keeps TreeM.keyCheck Fits I (onUpdate updateChild rowid old new restrict_only child fk) := by
  refine .bind (.lift _) fun old_ref => .bind (.lift _) fun new_ref => ?_
  by_cases hsame : Sql.Row.same (old_ref.getD []) (new_ref.getD []) = true
  · rw [if_pos hsame]
    exact .pure ()
  · rw [if_neg hsame]
    refine .bind (readOnly_fkChildrenMatching fk _).keeps fun hits => ?_
    by_cases hhits : hits = []
    · rw [if_pos hhits]
      exact .pure ()
    · rw [if_neg hhits]
      cases fk.on_update with
      | restrict => exact .lift _
      | cascade =>
        dsimp only
        split_ifs
        · exact .pure ()
        · exact keeps_updateHits hup _ hits
      | setNull =>
        dsimp only
        split_ifs
        · exact .pure ()
        · exact keeps_updateHits hup _ hits

lemma keeps_onDeleteAll {refs : List (TableDef × ForeignKey)} (href : ∀ p ∈ refs, p.1 ∈ tables)
    (hup : ∀ child ∈ tables, ∀ id vals, Keeps TreeM.keyCheck Fits I (updateChild child id vals))
    (hdel : ∀ child ∈ tables, ∀ id, Keeps TreeM.keyCheck Fits I (deleteChild child id))
    (parent : Option Row) :
    Keeps TreeM.keyCheck Fits I (onDeleteAll updateChild deleteChild rowid parent refs) := by
  induction refs with
  | nil => exact .pure ()
  | cons p refs ih =>
    obtain ⟨hp, href⟩ := List.forall_mem_cons.1 href
    exact .bind (keeps_onDelete (hup _ hp) (hdel _ hp) parent) fun _ => ih href

lemma keeps_onUpdateAll {refs : List (TableDef × ForeignKey)} (href : ∀ p ∈ refs, p.1 ∈ tables)
    (hup : ∀ child ∈ tables, ∀ id vals, Keeps TreeM.keyCheck Fits I (updateChild child id vals))
    (old new : Row) (restrict_only : Bool) :
    Keeps TreeM.keyCheck Fits I (onUpdateAll updateChild rowid old new restrict_only refs) := by
  induction refs with
  | nil => exact .pure ()
  | cons p refs ih =>
    obtain ⟨hp, href⟩ := List.forall_mem_cons.1 href
    exact .bind (keeps_onUpdate (hup _ hp) old new restrict_only) fun _ => ih href

/-- The tables that refer to one are tables of the database. -/
lemma fkReferencing_triple (name : String) :
    Triple TreeM.keyCheck Fits (fun l => I l ∧ listTables.onMap l = .ok (tables, l))
      (fkReferencing name) fun refs l => (∀ p ∈ refs, p.1 ∈ tables) ∧ I l := by
  rintro l refs m ⟨hI, hlist⟩ - hrun
  obtain ⟨ts, l', hts, hrun⟩ := run_bind_eq_ok.1 hrun
  rw [TreeM.onMap, hts] at hlist
  cases hlist
  cases hrun
  refine ⟨fun p hp => ?_, hI⟩
  obtain ⟨t, ht, hp⟩ := List.mem_flatMap.1 hp
  obtain ⟨fk, -, rfl⟩ := List.mem_map.1 hp
  exact ht

/-- What every writing of a row keeps, an update keeps with all it brings about. -/
lemma keeps_updateRow (hI : ∀ l, I l → listTables.onMap l = .ok (tables, l))
    (hover : ∀ d ∈ tables, ∀ rowid values,
      Keeps TreeM.keyCheck Fits I (overwriteRow M tokenize d rowid values))
    (n : ℕ) (hd : d ∈ tables) (rowid : Int64) (values : Row) :
    Keeps TreeM.keyCheck Fits I (updateRow M tokenize n d rowid values) := by
  induction n generalizing d rowid values with
  | zero => exact .lift _
  | succ n ih =>
    have hchild : ∀ child ∈ tables, ∀ id vals, Keeps TreeM.keyCheck Fits I
        (updateRow M tokenize n child id vals >>= fun _ => pure ()) :=
      fun child hchild id vals => .bind (ih hchild id vals) fun _ => .pure ()
    have hrefs : Triple TreeM.keyCheck Fits I (fkReferencing d.name)
        fun refs l => (∀ p ∈ refs, p.1 ∈ tables) ∧ I l :=
      (fkReferencing_triple d.name).conseq (fun l hl => ⟨hl, hI l hl⟩) fun _ _ => id
    refine .bind (readOnly_fkCheckParentsExist _).keeps fun _ => .bind readOnly_readRow.keeps fun old => ?_
    cases old with
    | none => exact hover d hd rowid values
    | some old =>
      refine Triple.bind hrefs fun refs => .of_fact (fun _ hl => hl.1) fun href => ?_
      refine .bind ((keeps_onUpdateAll href hchild old values true).conseq (fun _ hl => hl.2) fun _ _ => id)
        fun _ => .bind (hover d hd rowid values) fun ok => ?_
      split_ifs
      · refine Triple.bind hrefs fun refs => .of_fact (fun _ hl => hl.1) fun href => ?_
        exact .bind ((keeps_onUpdateAll href hchild old values false).conseq (fun _ hl => hl.2)
          fun _ _ => id) fun _ => .pure fun _ => id
      · exact .pure fun _ => id

lemma keeps_deleteRow (hI : ∀ l, I l → listTables.onMap l = .ok (tables, l))
    (hover : ∀ d ∈ tables, ∀ rowid values,
      Keeps TreeM.keyCheck Fits I (overwriteRow M tokenize d rowid values))
    (herase : ∀ d ∈ tables, ∀ rowid, Keeps TreeM.keyCheck Fits I (eraseRow M tokenize d rowid))
    (n : ℕ) (hd : d ∈ tables) (rowid : Int64) :
    Keeps TreeM.keyCheck Fits I (deleteRow M tokenize n d rowid) := by
  induction n generalizing d rowid with
  | zero => exact .lift _
  | succ n ih =>
    refine .bind readOnly_readRow.keeps fun parent => Triple.bind (Q := fun refs l =>
      (∀ p ∈ refs, p.1 ∈ tables) ∧ I l) ((fkReferencing_triple d.name).conseq
        (fun l hl => ⟨hl, hI l hl⟩) fun _ _ => id) fun refs => .of_fact (fun _ hl => hl.1) fun href => ?_
    refine .bind ((keeps_onDeleteAll href (fun child hchild id vals => ?_)
      (fun child hchild id => ?_) parent).conseq (fun _ hl => hl.2) fun _ _ => id)
        fun _ => herase d hd rowid
    · exact .bind (keeps_updateRow hI hover n hchild id vals) fun _ => .pure ()
    · exact .bind (ih hchild id) fun _ => .pure ()

end Cascade

end Tables

/-! ### Looking rows up -/

section Lookup
variable {tokenize : String → String → List Token} {d : TableDef} {kvs m : Entries} {row vs : Row}
  {idx : IndexDef}

lemma RowFits.rowOf (h : RowFits d row) : RowOf (d.columns.map ColumnDef.col_type) row := by
  refine List.forall₂_iff_get.2 ⟨by rw [List.length_map, h.1], fun i hi hi' => ?_⟩
  obtain ⟨v, hv, hfits, -⟩ := h.2 i _ (List.getElem?_eq_getElem (by simpa using hi))
  rw [List.getElem?_eq_getElem hi', Option.some.injEq] at hv
  simpa [← hv] using hfits

/-- Values for the columns of an index, of their types. -/
def KeyOf (d : TableDef) (idx : IndexDef) (vs : Row) : Prop :=
  RowOf (idx.columns.map fun c => (d.columns.map ColumnDef.col_type).getD c .integer) vs

/-- The entry of a row begins with the codes of some values when these are its values. -/
lemma prefix_entry_iff (hd : IndexesFit d) (hidx : idx ∈ d.indexes) (hrow : RowFits d row)
    (hvs : KeyOf d idx vs) (rowid : Int64) :
    indexValuePrefix idx vs <+: entryOf idx row rowid ↔ indexed idx row = vs := by
  constructor
  · intro hpre
    have hembed : IndexKeysEmbed idx (d.columns.map ColumnDef.col_type) := indexKeysEmbed fun c hc => by
      rw [List.length_map]
      exact (hd.columns idx hidx c hc).1
    have heq := hembed.value_prefix vs row rowid _ hvs hrow.rowOf (indexEntryKey_full hd hidx hrow.1 rowid) hpre
    exact heq.symm
  · rintro rfl
    rw [indexValuePrefix_eq, entryOf, entryCode, ← List.append_assoc]
    exact List.prefix_append _ _

lemma rowidsOf_append (p : Bytes) (rids : List Int64) :
    rowidsOf (rids.map fun r => p ++ rowidBe r) = .ok rids := by
  induction rids with
  | nil => rfl
  | cons r rids ih =>
    rw [List.map_cons, rowidsOf, rowidFromIndexKey_append, ok_bind, ih]
    rfl

/-- An index gives the rows with the values, in the order of their rowids. -/
lemma indexScanEq_typed (h : TableOk tokenize d kvs) (hd : IndexesFit d) (hidx : idx ∈ d.indexes)
    (hvs : KeyOf d idx vs) : ∃ rids, (indexScanEq idx vs).onMap kvs = .ok (rids, kvs) ∧
      (∀ r, r ∈ rids ↔ ∃ w, HasRow d kvs r w ∧ indexed idx w = vs) ∧ rids.Pairwise (· < ·) := by
  have hs := h.order.sorted
  have hkeys := keysWithPrefix_onMap hs hs (List.prefix_refl (indexValuePrefix idx vs)) fun _ _ => rfl
  have hmem := h.order.mem_keys hidx vs
  have hsorted : ((kvs.filter fun kv => decide (indexValuePrefix idx vs <+: kv.1)).map Prod.fst).Pairwise
      (· < ·) := List.pairwise_map.2 (hs.filter _)
  have hentry {r : Int64} {w : Row} (hw : indexed idx w = vs) :
      entryOf idx w r = indexValuePrefix idx vs ++ rowidBe r := by
    rw [entryOf, entryCode, indexValuePrefix_eq, hw, List.append_assoc]
  obtain ⟨rids, hrids⟩ : ∃ rids : List Int64, (rids.map fun r => indexValuePrefix idx vs ++ rowidBe r)
      = (kvs.filter fun kv => decide (indexValuePrefix idx vs <+: kv.1)).map Prod.fst := by
    refine (Set.ext_iff.1 (Set.range_list_map fun r => indexValuePrefix idx vs ++ rowidBe r) _).2 ?_
    intro key hkey
    obtain ⟨r, w, hrow, rfl, hpre⟩ := (hmem key).1 hkey
    exact ⟨r, (hentry ((prefix_entry_iff hd hidx (h.typed r w hrow) hvs r).1 hpre)).symm⟩
  rw [← hrids] at hkeys hmem hsorted
  have hbe {r r' : Int64} : rowidBe r < rowidBe r' ↔ r < r' := by
    refine rowidBe_keepsOrder.lt_iff ?_
    rcases lt_trichotomy r.toInt r'.toInt with hlt | heq | hlt
    · exact Or.inl (Int64.lt_iff_toInt_lt.2 hlt)
    · exact Or.inr (Or.inl (Int64.toInt_inj.1 heq))
    · exact Or.inr (Or.inr (Int64.lt_iff_toInt_lt.2 hlt))
  refine ⟨rids, ?_, fun r => ?_, ?_⟩
  · rw [indexScanEq, TreeM.onMap_bind, hkeys, ok_bind, TreeM.onMap_lift, rowidsOf_append]
    rfl
  · constructor
    · intro hr
      obtain ⟨r', w, hrow, heq, hpre⟩ := (hmem _).1 (List.mem_map_of_mem hr)
      have hw := (prefix_entry_iff hd hidx (h.typed r' w hrow) hvs r').1 hpre
      rw [hentry hw, List.append_cancel_left_eq] at heq
      have hr' := congrArg rowidFromBe heq
      rw [rowidFromBe_rowidBe, rowidFromBe_rowidBe, Option.some.injEq] at hr'
      exact ⟨w, hr' ▸ hrow, hw⟩
    · rintro ⟨w, hrow, hw⟩
      obtain ⟨r', hr', heq⟩ := List.mem_map.1 ((hmem _).2
        ⟨r, w, hrow, rfl, (prefix_entry_iff hd hidx (h.typed r w hrow) hvs r).2 hw⟩)
      rw [hentry hw, List.append_cancel_left_eq] at heq
      have hr := congrArg rowidFromBe heq
      rw [rowidFromBe_rowidBe, rowidFromBe_rowidBe, Option.some.injEq] at hr
      exact hr ▸ hr'
  · refine (List.pairwise_map.1 hsorted).imp fun {r r'} hlt => ?_
    exact hbe.1 ((append_lt_append_iff _).1 hlt)

/-- A scan of a table gives its rows, in the order of their rowids. -/
lemma scanRows_onMap (h : TableOk tokenize d kvs) : ∃ rows, (scanRows d).onMap kvs = .ok (rows, kvs) ∧
    (∀ r w, (r, w) ∈ rows ↔ HasRow d kvs r w) ∧ rows.Pairwise fun a b => a.1 < b.1 := by
  have hs := h.order.sorted
  have hholds : HoldsRows d (fromKey (rowPrefix d.table_id) kvs) := by
    rintro ⟨key, value⟩ hmem hp
    have hval := (mem_iff_valueOf hs).1 (List.mem_of_mem_filter hmem)
    obtain ⟨rowid, rfl⟩ := h.keys key hp (by rw [hval]; rfl)
    obtain ⟨w, record, hst, hval', -⟩ := h.order.rows rowid (by rw [hval]; rfl)
    rw [hval, Option.some.injEq] at hval'
    exact ⟨(rowid, record), hst, by rw [rowEntry, hval']⟩
  obtain ⟨stored, hscan⟩ := hholds.scansAs
  obtain ⟨hall, rest, heq, hrest⟩ := id hscan
  have hrows : kvs.filter (fun kv => decide (rowPrefix d.table_id <+: kv.1)) = stored.map (rowEntry d) := by
    have hstored : ∀ kv ∈ stored.map (rowEntry d), decide (rowPrefix d.table_id <+: kv.1) = true := by
      intro kv hkv
      obtain ⟨r, -, rfl⟩ := List.mem_map.1 hkv
      exact decide_eq_true (rowPrefix_rowKey _ _)
    have hstop : rest.takeWhile (fun kv => decide (rowPrefix d.table_id <+: kv.1)) = [] := by
      cases rest with
      | nil => rfl
      | cons p rest => rw [List.takeWhile_cons_of_neg (by simpa using hrest p rfl)]
    rw [← takeWhile_fromKey hs, heq, List.takeWhile_append_of_pos hstored, hstop, List.append_nil]
  refine ⟨fullRows d stored, ?_, fun r w => ?_, ?_⟩
  · simp only [scanRows, TreeM.onMap_bind, TreeM.onMap_readFrom, ok_bind, TreeM.onMap_lift,
      loopOver_scanStep hscan, List.nil_append]
  · constructor
    · intro hmem
      obtain ⟨r', hr', heq'⟩ := List.mem_map.1 hmem
      cases heq'
      have hmem' : rowEntry d r' ∈ kvs := by
        refine List.mem_of_mem_filter (p := fun kv => decide (rowPrefix d.table_id <+: kv.1)) ?_
        rw [hrows]
        exact List.mem_map_of_mem hr'
      exact ⟨r'.2, hall r' hr', (mem_iff_valueOf hs).1 hmem', rfl⟩
    · rintro ⟨record, hst, hval, rfl⟩
      have hmem : (rowKey d.table_id r, encodeValues record) ∈ stored.map (rowEntry d) := by
        rw [← hrows]
        exact List.mem_filter.2 ⟨(mem_iff_valueOf hs).2 hval, decide_eq_true (rowPrefix_rowKey _ _)⟩
      obtain ⟨r', hr', heq'⟩ := List.mem_map.1 hmem
      obtain ⟨hkey, hvalue⟩ := Prod.mk.inj heq'
      obtain rfl := rowKey_inj.1 hkey
      refine List.mem_map.2 ⟨r', hr', ?_⟩
      have hrecord := decodeValues_encode (hall r' hr').2
      rw [hvalue, decodeValues_encode hst.2, Except.ok.injEq] at hrecord
      exact congrArg (fun w => (r'.1, fullRow d r'.1 w)) hrecord.symm
  · have hsorted : (stored.map (rowEntry d)).Pairwise fun p q => p.1 < q.1 := by
      rw [← hrows]
      exact hs.filter _
    refine List.pairwise_map.2 ((List.pairwise_map.1 hsorted).imp fun {a b} hlt => ?_)
    rcases (rowKeysEmbed.order _ _ _ _).1 hlt with hlt | ⟨-, hlt⟩
    · exact absurd hlt (UInt32.lt_irrefl _)
    · exact hlt

/-- Rowids in order are those of the rows of a scan that have a property. -/
lemma eq_scanned {rows : List (Int64 × Row)} {rids : List Int64} {p : Int64 × Row → Bool}
    (hrows : rows.Pairwise fun a b => a.1 < b.1) (hrids : rids.Pairwise (· < ·))
    (h : ∀ r, r ∈ rids ↔ ∃ w, (r, w) ∈ rows ∧ p (r, w) = true) : rids = (rows.filter p).map Prod.fst := by
  have hfound : ((rows.filter p).map Prod.fst).Pairwise (· < ·) := List.pairwise_map.2 (hrows.filter _)
  refine List.Perm.eq_of_pairwise (fun a b _ _ hab hba => absurd hab (Int64.lt_asymm hba)) hrids hfound
    ((List.perm_ext_iff_of_nodup (hrids.imp Int64.ne_of_lt) (hfound.imp Int64.ne_of_lt)).2 fun r => ?_)
  rw [h]
  simp only [List.mem_map, List.mem_filter, Prod.exists, exists_and_right, exists_eq_right]

/-- A look-up in an index is a scan of the table for the values. -/
lemma indexScanEq_scan (h : TableOk tokenize d kvs) (hd : IndexesFit d) (hidx : idx ∈ d.indexes)
    (hvs : KeyOf d idx vs) : ∃ rows, (scanRows d).onMap kvs = .ok (rows, kvs) ∧
      (indexScanEq idx vs).onMap kvs
        = .ok ((rows.filter fun row => decide (indexed idx row.2 = vs)).map Prod.fst, kvs) := by
  obtain ⟨rows, hscan, hrows, hasc⟩ := scanRows_onMap h
  obtain ⟨rids, hlook, hrids, hasc'⟩ := indexScanEq_typed h hd hidx hvs
  refine ⟨rows, hscan, ?_⟩
  rw [hlook, eq_scanned hasc hasc' fun r => ?_]
  simp only [hrids, hrows, decide_eq_true_eq]

/-- A search in a text index is a scan of the table for what matches. -/
lemma ftsSearch_scan (h : TableOk tokenize d kvs) (hd : TableFits tokenize d) {fts : FtsIndexDef}
    (hfts : fts ∈ d.fts_indexes) (hcols : ∀ i ∈ fts.columns, i < d.columns.length) {query : Fts.Query}
    (hquery : FiltersKnown d fts query) : ∃ rows, (scanRows d).onMap kvs = .ok (rows, kvs) ∧
      (ftsSearch tokenize d fts query).onMap kvs = .ok ((rows.filter fun row =>
        decide (ftsRowMatches tokenize d fts row.2 query = .ok true)).map Prod.fst, kvs) := by
  obtain ⟨rows, hscan, hrows, hasc⟩ := scanRows_onMap h
  obtain ⟨rows', hrows', hindex⟩ := h.texts fts hfts
  have htk := hd.tokenizers fts hfts
  obtain ⟨columns, hcolumns⟩ := Sql.docColumns_isOk hcols
  obtain ⟨ids, hsearch, hasc', hmem⟩ := finds_query hindex hcolumns hquery none
  refine ⟨rows, hscan, ?_⟩
  rw [ftsSearch, TreeM.onMap_bind, TreeM.onMap_lift, htk, ok_bind, ok_bind, hsearch,
    eq_scanned hasc hasc' fun r => ?_]
  simp only [hmem, hrows', hrows, decide_eq_true_eq, ftsRowMatches, htk, hcolumns, ok_bind]

end Lookup

/-! ### Runs -/

/-- A database within a transaction: its map, the counters the transaction keeps, and the map of the
last commit. -/
structure Session where
  kvs : Entries
  caches : UInt32 → Option Int64
  committed : Entries

/-- The counters of a transaction, in the order they come. -/
def writeCounters : List (UInt32 × Int64) → TreeM Unit
  | [] => pure ()
  | (table_id, next) :: counters => do
    writeCounter table_id next
    writeCounters counters

/-- What a client does with rows, where it succeeds; a transaction ends with a commit or without one.
The rows that are given have a property. -/
inductive RowStep (M : VectorMath) (tokenize : String → String → List Token) (tables : List TableDef)
    (given : TableDef → Row → Prop) : Session → Session → Prop
  | insert {s : Session} {d : TableDef} {values : Row} {r : Int64 × Option Int64} {m : Entries}
      (hd : d ∈ tables) (hgiven : given d values)
      (hfits : ∀ q ∈ (insertRow M tokenize d values (s.caches d.table_id)).inserted s.kvs, Fits q.2)
      (h : (insertRow M tokenize d values (s.caches d.table_id)).onMap s.kvs = .ok (r, m)) :
      RowStep M tokenize tables given s ⟨m, Function.update s.caches d.table_id r.2, s.committed⟩
  | update {s : Session} {d : TableDef} {rowid : Int64} {values : Row} {n : ℕ} {b : Bool} {m : Entries}
      (hd : d ∈ tables) (hgiven : given d values)
      (hfits : ∀ q ∈ (updateRow M tokenize n d rowid values).inserted s.kvs, Fits q.2)
      (h : (updateRow M tokenize n d rowid values).onMap s.kvs = .ok (b, m)) :
      RowStep M tokenize tables given s ⟨m, s.caches, s.committed⟩
  | delete {s : Session} {d : TableDef} {rowid : Int64} {n : ℕ} {b : Bool} {m : Entries}
      (hd : d ∈ tables)
      (hfits : ∀ q ∈ (deleteRow M tokenize n d rowid).inserted s.kvs, Fits q.2)
      (h : (deleteRow M tokenize n d rowid).onMap s.kvs = .ok (b, m)) :
      RowStep M tokenize tables given s ⟨m, s.caches, s.committed⟩
  | commit {s : Session} {counters : List (UInt32 × Int64)} {m : Entries}
      (hall : ∀ t next, (t, next) ∈ counters ↔ s.caches t = some next)
      (h : (writeCounters counters).onMap s.kvs = .ok ((), m)) :
      RowStep M tokenize tables given s ⟨m, fun _ => none, m⟩
  | rollback {s : Session} : RowStep M tokenize tables given s ⟨s.committed, fun _ => none, s.committed⟩

/-- Both maps are coherent, the one of the last commit without any counters in memory. -/
structure SessionOk (tokenize : String → String → List Token) (tables : List TableDef) (s : Session) :
    Prop where
  current : Coherent tokenize tables s.caches s.kvs
  committed : Coherent tokenize tables (fun _ => none) s.committed

section Runs
variable {M : VectorMath} {tokenize : String → String → List Token} {tables : List TableDef}
  {given : TableDef → Row → Prop} {kvs m : Entries} {caches : UInt32 → Option Int64} {s s' : Session}

lemma counterKey_inj {t t' : UInt32} (h : counterKey t = counterKey t') : t = t' := by
  have hbytes := congrArg beNat (List.cons.inj (List.cons.inj h).2).2
  rw [beNat_beBytes 4 t.toNat_lt, beNat_beBytes 4 t'.toNat_lt] at hbytes
  exact UInt32.toNat_inj.1 hbytes

lemma writeCounters_onMap {counters : List (UInt32 × Int64)} (hs : SortedMap kvs)
    (hone : ∀ t next next', (t, next) ∈ counters → (t, next') ∈ counters → next = next')
    (h : (writeCounters counters).onMap kvs = .ok ((), m)) :
    (∀ t next, (t, next) ∈ counters →
      valueOf (counterKey t) m = some (leBytes 8 next.toUInt64.toNat)) ∧
    ∀ key, (∀ t next, (t, next) ∈ counters → key ≠ counterKey t) → valueOf key m = valueOf key kvs := by
  induction counters generalizing kvs with
  | nil =>
    cases h
    exact ⟨fun t next hmem => (by cases hmem), fun key _ => rfl⟩
  | cons c counters ih =>
    obtain ⟨t, next⟩ := c
    rw [writeCounters, TreeM.onMap_bind] at h
    obtain ⟨⟨u, l⟩, hwrite, h⟩ := bind_eq_ok.1 h
    obtain ⟨u', -, hwrite⟩ := bind_eq_ok.1 hwrite
    cases hwrite
    obtain ⟨hin, hout⟩ := ih hs.insertKey (fun t next next' h h' =>
      hone t next next' (List.mem_cons_of_mem _ h) (List.mem_cons_of_mem _ h')) h
    refine ⟨fun t' next' hmem => ?_, fun key hkey => ?_⟩
    · by_cases hlater : (t', next') ∈ counters
      · exact hin t' next' hlater
      · cases (List.mem_cons.1 hmem).resolve_right hlater
        -- no later counter is that of this table
        rw [hout _ fun t₂ next₂ hmem₂ heq => hlater ?_, valueOf_insertKey_self hs]
        obtain rfl := counterKey_inj heq
        rwa [hone t next next₂ List.mem_cons_self (List.mem_cons_of_mem _ hmem₂)]
    · rw [hout key fun t₂ next₂ hmem₂ => hkey t₂ next₂ (List.mem_cons_of_mem _ hmem₂)]
      exact valueOf_insertKey_of_ne hs (hkey t next List.mem_cons_self)

lemma counterKey_not_own (d : TableDef) (t : UInt32) : ¬ OwnKey d (counterKey t) :=
  fun h => WrittenKey.not_catalog (Or.inl h) rfl

/-- The counters are then read as the transaction had them. -/
lemma Coherent.commit (h : Coherent tokenize tables caches kvs) {counters : List (UInt32 × Int64)}
    (hall : ∀ t next, (t, next) ∈ counters ↔ caches t = some next)
    (hrun : (writeCounters counters).onMap kvs = .ok ((), m)) :
    Coherent tokenize tables (fun _ => none) m := by
  have hm := TreeM.onMap_sorted hrun h.sorted
  obtain ⟨hin, hout⟩ := writeCounters_onMap h.sorted (fun t next next' hmem hmem' =>
    Option.some.inj (((hall t next).1 hmem).symm.trans ((hall t next').1 hmem'))) hrun
  have hother {d : TableDef} {key : Bytes} (hkey : OwnKey d key) : valueOf key m = valueOf key kvs :=
    hout key fun t next _ heq => counterKey_not_own d t (heq ▸ hkey)
  refine ⟨hm, ?_, fun d hd => (h.ok d hd).congr hm fun key => hother, fun d hd => ?_⟩
  · refine readOnly_listTables.run_congr localTo_listTables h.sorted hm (fun key hkey => ?_) h.listed
    refine (hout key fun t next _ heq => ?_).symm
    rw [heq] at hkey
    obtain ⟨rest, hrest⟩ := hkey
    cases hrest
  · obtain ⟨next, hnext, hcounted⟩ := h.counted d hd
    refine ⟨next, ?_, fun r w hrow => hcounted r w ?_⟩
    · cases hcache : caches d.table_id with
      | none =>
        rw [hcache] at hnext
        refine (readOnly_nextCounter none).run_congr (localTo_nextCounter none) h.sorted hm ?_ hnext
        rintro _ rfl
        refine (hout _ fun t next hmem heq => ?_).symm
        rw [counterKey_inj heq, (hall t next).1 hmem] at hcache
        cases hcache
      | some next' =>
        rw [hcache] at hnext
        cases hnext
        have hlt := next.toUInt64.toNat_lt
        simp only [nextCounter, readCounter, TreeM.onMap_bind, TreeM.onMap_read,
          hin _ _ ((hall _ _).2 hcache), ok_bind, TreeM.onMap_lift, require_pos (length_leBytes ..),
          leNat_leBytes 8 hlt, UInt64.ofNat_toNat]
        rfl
    · exact (hasRow_congr (hother (Or.inl (rowPrefix_rowKey _ _)))).1 hrow

/-! ### New tables -/

/-- A database whose tables have just been made. -/
def freshMap (tables : List TableDef) : Entries := tables.map fun d => (tableKey d.name, encodeDef d)

lemma fromUtf8_tableKey (name : String) : fromUtf8 ((tableKey name).drop 2) = some name :=
  CommitHeader.fromUtf8_utf8 name

lemma listTables_fresh (hsorted : SortedMap (freshMap tables))
    (hcode : ∀ d ∈ tables, Codable d ∧ (encodeDef d).length < 2 ^ 64) :
    listTables.onMap (freshMap tables) = .ok (tables, freshMap tables) := by
  have hall : (freshMap tables).filter (fun kv => decide ([KS_CATALOG, CAT_TABLE] <+: kv.1))
      = freshMap tables := by
    refine List.filter_eq_self.2 fun kv hkv => decide_eq_true ?_
    obtain ⟨d, -, rfl⟩ := List.mem_map.1 hkv
    exact List.prefix_append _ _
  have hdecode : decodeTables (freshMap tables) = .ok tables := by
    clear hall hsorted
    induction tables with
    | nil => rfl
    | cons d tables ih =>
      obtain ⟨⟨hd, hlen⟩, hcode⟩ := List.forall_mem_cons.1 hcode
      rw [freshMap, List.map_cons, decodeTables, fromUtf8_tableKey, okOr_some, ok_bind,
        decodeDef_encodeDef hd hlen, ok_bind, ← freshMap, ih hcode, ok_bind]
  simp only [listTables, TreeM.onMap_bind, TreeM.onMap_readFrom, ok_bind, TreeM.onMap_lift,
    takeWhile_fromKey hsorted, hall, hdecode]

lemma freshMap_rows (hsorted : SortedMap (freshMap tables)) {d : TableDef} {r : Int64} {w : Row} :
    ¬ HasRow d (freshMap tables) r w := by
  rintro ⟨record, -, hval, -⟩
  obtain ⟨d', -, heq⟩ := List.mem_map.1 ((mem_iff_valueOf hsorted).2 hval)
  have hhead : (rowKey d.table_id r).head? = some KS_CATALOG := congrArg List.head? (Prod.mk.inj heq).1.symm
  exact head_rowKey_ne (by decide) hhead

/-- A table none of whose keys are there is empty. -/
lemma TableOk.fresh {d : TableDef} (hs : SortedMap kvs) (hnone : ∀ key, OwnKey d key → valueOf key kvs = none) :
    TableOk tokenize d kvs := by
  have hrow (r : Int64) (w : Row) : ¬ HasRow d kvs r w := by
    rintro ⟨record, -, hval, -⟩
    rw [hnone _ (Or.inl (rowPrefix_rowKey _ _))] at hval
    cases hval
  refine ⟨⟨hs, fun r hsome => ?_, fun idx hidx key hkey => ?_⟩, fun key hkey hsome => ?_,
    fun r w hw => absurd hw (hrow r w), fun idx _ _ r w _ _ hw => absurd hw (hrow r w), fun fts hfts => ?_⟩
  · rw [hnone _ (Or.inl (rowPrefix_rowKey _ _))] at hsome
    cases hsome
  · rw [hnone key (Or.inr (Or.inl ⟨idx, hidx, hkey⟩))]
    refine iff_of_false Bool.false_ne_true ?_
    rintro ⟨r, w, hw, -⟩
    exact hrow r w hw
  · rw [hnone key (Or.inl hkey)] at hsome
    cases hsome
  · refine ⟨[], fun r w => iff_of_false List.not_mem_nil (hrow r w), .empty hs fun key hkey => ?_⟩
    exact hnone key (Or.inr (Or.inr ⟨fts, hfts, hkey⟩))

/-- New tables are in order. -/
lemma SessionOk.fresh (hsorted : SortedMap (freshMap tables))
    (hcode : ∀ d ∈ tables, Codable d ∧ (encodeDef d).length < 2 ^ 64) :
    SessionOk tokenize tables ⟨freshMap tables, fun _ => none, freshMap tables⟩ := by
  have hkey {key : Bytes} (hval : valueOf key (freshMap tables) ≠ none) :
      [KS_CATALOG, CAT_TABLE] <+: key := by
    obtain ⟨v, hv⟩ := Option.ne_none_iff_exists'.1 hval
    obtain ⟨d, -, heq⟩ := List.mem_map.1 ((mem_iff_valueOf hsorted).2 hv)
    cases heq
    exact List.prefix_append _ _
  have hok (d : TableDef) : TableOk tokenize d (freshMap tables) := by
    refine .fresh hsorted fun key hown => by_contra fun hval => ?_
    exact WrittenKey.not_catalog (Or.inl hown) ( head_of_prefix (hkey hval))
  have hco : Coherent tokenize tables (fun _ => none) (freshMap tables) := by
    refine ⟨hsorted, listTables_fresh hsorted hcode, fun d _ => hok d, fun d _ => ⟨1, ?_, ?_⟩⟩
    · have hval : valueOf (counterKey d.table_id) (freshMap tables) = none := by
        by_contra hval
        obtain ⟨rest, hrest⟩ := hkey hval
        cases hrest
      simp [nextCounter, readCounter, hval]
    · exact fun r w hrow => absurd hrow (freshMap_rows hsorted)
  exact ⟨hco, hco⟩

/-! ### Whole runs -/

lemma SessionOk.step (hs : TablesFit tokenize tables) (h : SessionOk tokenize tables s)
    (hstep : RowStep M tokenize tables given s s') : SessionOk tokenize tables s' := by
  cases hstep with
  | insert hd _ hfits hrun =>
    exact ⟨(insertRow_triple hs hd h.current _ _ _ rfl hfits hrun).1, h.committed⟩
  | update hd _ hfits hrun =>
    exact ⟨keeps_updateRow (fun l hl => hl.listed) (fun d hd _ _ => keeps_overwriteRow hs hd) _ hd _ _
      _ _ _ h.current hfits hrun, h.committed⟩
  | delete hd hfits hrun =>
    exact ⟨keeps_deleteRow (fun l hl => hl.listed) (fun d hd _ _ => keeps_overwriteRow hs hd)
      (fun d hd _ => keeps_eraseRow hs hd) _ hd _ _ _ _ h.current hfits hrun, h.committed⟩
  | commit hall hrun =>
    have hcommit := h.current.commit hall hrun
    exact ⟨hcommit, hcommit⟩
  | rollback => exact ⟨h.committed, h.committed⟩

lemma SessionOk.run (hs : TablesFit tokenize tables) (h : SessionOk tokenize tables s)
    (hrun : Relation.ReflTransGen (RowStep M tokenize tables given) s s') : SessionOk tokenize tables s' := by
  induction hrun with
  | refl => exact h
  | tail _ hstep ih => exact ih.step hs hstep

end Runs

section Example

/-- `CREATE TABLE p (id INTEGER PRIMARY KEY, t TEXT UNIQUE)` -/
def parentTable : TableDef where
  name := "p"
  table_id := 1
  rowid_alias := some 0
  columns := [⟨"id", .integer, true, none, false⟩, ⟨"t", .text, false, none, false⟩]
  indexes := [⟨"uq_p_1", 1, [1], true⟩]
  fts_indexes := []
  vector_indexes := []
  logical_order := [0, 1]
  foreign_keys := []
  checks := []
  alias_lt i h := by
    cases h
    decide
  logical := List.Perm.refl _

/-- `CREATE TABLE c (x TEXT REFERENCES p (t) ON DELETE SET NULL ON UPDATE CASCADE)` -/
def childTable : TableDef where
  name := "c"
  table_id := 2
  rowid_alias := none
  columns := [⟨"x", .text, false, none, false⟩]
  indexes := []
  fts_indexes := []
  vector_indexes := []
  logical_order := [0]
  foreign_keys := [⟨[0], "p", [1], .setNull, .cascade⟩]
  checks := []
  alias_lt i h := by cases h
  logical := by decide

/-- Tables without full text, with what is checked of them. -/
lemma twoTables_fit : TablesFit noTokens [childTable, parentTable] where
  fits := by
    refine List.forall_mem_cons.2 ⟨⟨⟨fun idx hidx => (by cases hidx), .nil⟩, fun i col h => (by cases h),
      .nil, fun fts hfts => (by cases hfts)⟩, List.forall_mem_singleton.2 ⟨⟨?_, List.pairwise_singleton _ _⟩,
      ?_, .nil, fun fts hfts => (by cases hfts)⟩⟩
    · intro idx hidx c hc
      rw [List.mem_singleton.1 hidx] at hc
      rw [List.mem_singleton.1 hc]
      exact ⟨by decide, by decide⟩
    · intro i col hi hcol
      cases hi
      cases hcol
      rfl
  apart := by
    refine List.pairwise_pair.2 ⟨by decide, by decide, fun idx hidx => (by cases hidx),
      fun fts hfts => (by cases hfts)⟩

lemma twoTables_codable : ∀ d ∈ [childTable, parentTable], Codable d ∧ (encodeDef d).length < 2 ^ 64 := by
  refine List.forall_mem_cons.2 ⟨⟨⟨by decide, ?_, ?_, ?_, by decide⟩, by decide +kernel⟩,
    List.forall_mem_singleton.2 ⟨⟨by decide, by decide, ?_, ?_, ?_⟩, by decide +kernel⟩⟩
  all_goals exact fun x hx => (by cases hx)

lemma twoTables_sorted : SortedMap (freshMap [childTable, parentTable]) :=
  List.pairwise_pair.2 (by decide)

/-- Two new tables, and a transaction that inserts a row into one of them. -/
lemma twoTables_run : ∃ s', Relation.ReflTransGen
    (RowStep plainMath noTokens [childTable, parentTable] fun _ _ => True)
      ⟨freshMap [childTable, parentTable], fun _ => none, freshMap [childTable, parentTable]⟩ s' ∧
    HasRow parentTable s'.kvs 1 [.integer 1, .text "a"] := by
  have hd : parentTable ∈ [childTable, parentTable] := by simp
  obtain ⟨r, m, hr⟩ : ∃ r m, (insertRow plainMath noTokens parentTable [.null, .text "a"] none).onMap
      (freshMap [childTable, parentTable]) = .ok (r, m) := ⟨_, _, rfl⟩
  have hfits : ∀ q ∈ (insertRow plainMath noTokens parentTable [.null, .text "a"] none).inserted
      (freshMap [childTable, parentTable]), Fits q.2 := by
    unfold Fits
    decide +kernel
  have hrow : HasRow parentTable m 1 [.integer 1, .text "a"] := by
    cases hr
    exact ⟨[.null, .text "a"], ⟨by decide, by decide +kernel⟩, rfl, rfl⟩
  exact ⟨_, .single (RowStep.insert (s :=
    ⟨freshMap [childTable, parentTable], fun _ => none, freshMap [childTable, parentTable]⟩) hd trivial
    hfits hr), hrow⟩

end Example

end Catalog

end Arkeion
