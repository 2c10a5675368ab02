import Arkeion.Fts.Upkeep
import Arkeion.Lib.MapDiff
import Arkeion.UpsertExact

/-!
What writing a row does to its table: the rows are those before with this one put in, put in place
of another or taken out, and the indexes of all kinds are those of the rows.

The entries of a row in the indexes are written and erased apart from the row itself.
-/

namespace Arkeion

open Arkeion.Lib Btree MapProgram

namespace Catalog

/-! ### The keys of a table -/

/-- The keys of the entries of a table in its indexes. -/
def EntryKey (d : TableDef) (key : Bytes) : Prop :=
  (∃ idx ∈ d.indexes, indexIdPrefix idx.index_id <+: key) ∨
    (∃ fts ∈ d.fts_indexes, ftsIdPrefix fts.fts_id <+: key) ∨ key.head? = some KS_VECTOR

/-- The keys of a table that the others have no part in. -/
def OwnKey (d : TableDef) (key : Bytes) : Prop :=
  rowPrefix d.table_id <+: key ∨ (∃ idx ∈ d.indexes, indexIdPrefix idx.index_id <+: key) ∨
    ∃ fts ∈ d.fts_indexes, ftsIdPrefix fts.fts_id <+: key

section Keys
variable {d : TableDef} {key p : Bytes}

lemma head_of_prefix {space : UInt8} {rest : Bytes} (h : space :: rest <+: key) :
    key.head? = some space := by
  obtain ⟨z, rfl⟩ := h
  rfl

lemma EntryKey.head (h : EntryKey d key) : ∃ space < 0x80, key.head? = some space := by
  rcases h with ⟨idx, -, hp⟩ | ⟨fts, -, hp⟩ | h
  · exact ⟨KS_INDEX, by decide, head_of_prefix hp⟩
  · exact ⟨KS_FTS, by decide, head_of_prefix hp⟩
  · exact ⟨KS_VECTOR, by decide, h⟩

end Keys

/-! ### Programs that go by the keys of entries -/

section Local
variable {α β : Type} {P : Bytes → Prop} {rowid : Int64} {record : List Value}

lemma localTo_lift_bind {x : Result α} {f : α → TreeM β}
    (hf : ∀ a, x = .ok a → LocalTo TreeM.keyCheck P (f a)) :
    LocalTo TreeM.keyCheck P (liftM x >>= f) := by
  cases x with
  | error e => exact fun l l' _ _ _ => Or.inl ⟨e, rfl, rfl⟩
  | ok a => exact hf a rfl

lemma prefix_pushColumns {cols : List ℕ} {k k' : Bytes} (h : pushColumns record cols k = .ok k') :
    k <+: k' := by
  induction cols generalizing k with
  | nil =>
    cases h
    exact List.prefix_rfl
  | cons c cols ih =>
    obtain ⟨v, -, h⟩ := bind_eq_ok.1 h
    exact (List.prefix_append k _).trans (ih h)

lemma prefix_indexEntryKey {idx : IndexDef} {key : Bytes}
    (h : indexEntryKey idx record rowid = .ok key) : indexIdPrefix idx.index_id <+: key := by
  obtain ⟨k, hk, h⟩ := bind_eq_ok.1 h
  cases h
  exact (prefix_pushColumns hk).trans (List.prefix_append _ _)

lemma localTo_checkUnique {idx : IndexDef} (hP : ∀ key, indexIdPrefix idx.index_id <+: key → P key) :
    LocalTo TreeM.keyCheck P (checkUnique idx rowid record) := by
  refine .bind (.lift _) fun null => ?_
  split_ifs
  · refine localTo_lift_bind fun p hp => ?_
    have hwalk : LocalTo TreeM.keyCheck P (keysWithPrefix p) :=
      localTo_prefixWalk (f := fun kvs => pure (kvs.map Prod.fst))
        (fun k hk => hP k ((prefix_pushColumns hp).trans hk)) fun l => .pure _
    exact .bind (.bind hwalk fun keys => .bind (.lift _) fun rowids => .pure _) fun held => .lift _
  · exact .pure ()

lemma localTo_insertIndexEntries (indexes : List IndexDef)
    (hP : ∀ idx ∈ indexes, ∀ key, indexIdPrefix idx.index_id <+: key → P key) :
    LocalTo TreeM.keyCheck P (insertIndexEntries rowid record indexes) := by
  induction indexes with
  | nil => exact .pure ()
  | cons idx indexes ih =>
    obtain ⟨hidx, hrest⟩ := List.forall_mem_cons.1 hP
    have hwrite : LocalTo TreeM.keyCheck P
        (liftM (indexEntryKey idx record rowid) >>= fun key => MapProgram.write key []) :=
      localTo_lift_bind fun key hkey => .write (hidx key (prefix_indexEntryKey hkey))
    refine .bind ?_ fun _ => ih hrest
    unfold insertIndexEntry
    split_ifs
    · exact .bind (localTo_checkUnique hidx) fun _ => hwrite
    · exact hwrite

lemma localTo_deleteIndexEntries (indexes : List IndexDef)
    (hP : ∀ idx ∈ indexes, ∀ key, indexIdPrefix idx.index_id <+: key → P key) :
    LocalTo TreeM.keyCheck P (deleteIndexEntries rowid record indexes) := by
  induction indexes with
  | nil => exact .pure ()
  | cons idx indexes ih =>
    obtain ⟨hidx, hrest⟩ := List.forall_mem_cons.1 hP
    exact localTo_lift_bind fun key hkey =>
      .bind (.erase (hidx key (prefix_indexEntryKey hkey))) fun _ => ih hrest

lemma localTo_applyFtsEntries {tokenize : String → String → List Token} {add : Bool}
    (indexes : List FtsIndexDef) (hP : ∀ fts ∈ indexes, ∀ key, ftsIdPrefix fts.fts_id <+: key → P key) :
    LocalTo TreeM.keyCheck P (applyFtsEntries tokenize rowid record add indexes) := by
  induction indexes with
  | nil => exact .pure ()
  | cons fts indexes ih =>
    obtain ⟨hfts, hrest⟩ := List.forall_mem_cons.1 hP
    exact .bind ((localTo_applyFtsRow add).mono fun key hkey =>
      hfts key (hkey.elim TermKey.begins LengthKey.begins)) fun _ => ih hrest

end Local

/-! ### The entries of a row -/

section Entries
variable (M : VectorMath) (tokenize : String → String → List Token) (d : TableDef) (rowid : Int64)
  (record : List Value)

/-- The entries of a row in all indexes. -/
def indexRow : TreeM Unit := do
  insertIndexEntries rowid record d.indexes
  applyFtsEntries tokenize rowid record true d.fts_indexes
  applyVectorEntries M rowid record true d.vector_indexes

def unindexRow : TreeM Unit := do
  deleteIndexEntries rowid record d.indexes
  applyFtsEntries tokenize rowid record false d.fts_indexes
  applyVectorEntries M rowid record false d.vector_indexes

variable {M tokenize d rowid record}

lemma localTo_indexRow : LocalTo TreeM.keyCheck (EntryKey d) (indexRow M tokenize d rowid record) :=
  .bind (localTo_insertIndexEntries _ fun idx hidx _ hkey => Or.inl ⟨idx, hidx, hkey⟩) fun _ =>
    .bind (localTo_applyFtsEntries _ fun fts hfts _ hkey => Or.inr (Or.inl ⟨fts, hfts, hkey⟩)) fun _ =>
      (keepsTo_applyVectorEntries M record d.vector_indexes).local_.mono fun _ h => Or.inr (Or.inr h)

lemma localTo_unindexRow : LocalTo TreeM.keyCheck (EntryKey d) (unindexRow M tokenize d rowid record) :=
  .bind (localTo_deleteIndexEntries _ fun idx hidx _ hkey => Or.inl ⟨idx, hidx, hkey⟩) fun _ =>
    .bind (localTo_applyFtsEntries _ fun fts hfts _ hkey => Or.inr (Or.inl ⟨fts, hfts, hkey⟩)) fun _ =>
      (keepsTo_applyVectorEntries M record d.vector_indexes).local_.mono fun _ h => Or.inr (Or.inr h)

/-- Keys of full text and of vectors are none of indexes. -/
lemma index_not_fts {index_id fts_id : UInt32} {key : Bytes} (h : indexIdPrefix index_id <+: key) :
    ¬ ftsIdPrefix fts_id <+: key := by
  intro h'
  have hhead := head_of_prefix h
  rw [ head_of_prefix h'] at hhead
  cases hhead

/-- What the entries for full text and vectors leave of those of an index. -/
lemma keeps_index {m m' : Entries} {add : Bool} {u : Unit} (hm : SortedMap m)
    (hr : (applyFtsEntries tokenize rowid record add d.fts_indexes >>= fun _ =>
      applyVectorEntries M rowid record add d.vector_indexes).onMap m = .ok (u, m'))
    {index_id : UInt32} {key : Bytes} (hkey : indexIdPrefix index_id <+: key) :
    valueOf key m' = valueOf key m := by
  have hhead := head_of_prefix hkey
  have hlocal : LocalTo TreeM.keyCheck (fun key => key.head? = some KS_FTS ∨ key.head? = some KS_VECTOR)
      (applyFtsEntries tokenize rowid record add d.fts_indexes >>= fun _ =>
        applyVectorEntries M rowid record add d.vector_indexes) :=
    .bind ((keepsTo_applyFtsEntries tokenize record d.fts_indexes).local_.mono fun _ => Or.inl)
      fun _ => (keepsTo_applyVectorEntries M record d.vector_indexes).local_.mono fun _ => Or.inr
  refine hlocal.keeps hm hr ?_
  rw [hhead]
  rintro (h | h) <;> cases h

end Entries

/-! ### The entries of an index -/

section Index
variable {d : TableDef} {kvs m m' : Entries} {rowid : Int64} {record : Row}

lemma insertIndexEntries_ok (h : InOrder d kvs) (hd : IndexesFit d)
    (hlen : record.length = d.columns.length) (hnew : ∀ row, ¬ HasRow d kvs rowid row)
    (indexes : List IndexDef) (hsub : ∀ idx ∈ indexes, idx ∈ d.indexes)
    (hids : indexes.Pairwise fun idx idx' => idx.index_id ≠ idx'.index_id) (hm : SortedMap m)
    (hagree : ∀ idx ∈ indexes, ∀ key, indexIdPrefix idx.index_id <+: key →
      valueOf key m = valueOf key kvs)
    (hr : (insertIndexEntries rowid record indexes).onMap m = .ok ((), m')) :
    ∀ idx ∈ indexes, ¬ HeldIn d kvs record idx ∧ ∀ key, indexIdPrefix idx.index_id <+: key →
      valueOf key m' = if key = entryOf idx record rowid then some [] else valueOf key kvs := by
  induction indexes generalizing m with
  | nil => exact fun idx hidx => (by cases hidx)
  | cons idx indexes ih =>
    obtain ⟨hidx, hsub⟩ := List.forall_mem_cons.1 hsub
    obtain ⟨hne, hids⟩ := List.pairwise_cons.1 hids
    obtain ⟨hhere, hrest⟩ := List.forall_mem_cons.1 hagree
    have hcols : ∀ c ∈ idx.columns, c < record.length := fun c hc => hlen ▸ (hd.columns idx hidx c hc).1
    obtain ⟨hheld, hfree⟩ := insertIndexEntry_onMap h hidx hcols hnew hm hhere
    rw [insertIndexEntries, TreeM.onMap_bind] at hr
    have hnot : ¬ HeldIn d kvs record idx := fun hin => by
      rw [hheld hin] at hr
      cases hr
    rw [hfree hnot] at hr
    obtain ⟨⟨u, m₁⟩, hwrite, hr⟩ := bind_eq_ok.1 hr
    obtain ⟨u', -, hwrite⟩ := bind_eq_ok.1 hwrite
    cases hwrite
    have hagree' : ∀ idx' ∈ indexes, ∀ key, indexIdPrefix idx'.index_id <+: key →
        valueOf key (insertKey (entryOf idx record rowid) [] m) = valueOf key kvs := by
      intro idx' hidx' key hkey
      rw [valueOf_insertEntry (hne idx' hidx') hm hkey]
      exact hrest idx' hidx' key hkey
    refine List.forall_mem_cons.2 ⟨⟨hnot, fun key hkey => ?_⟩, ih hsub hids hm.insertKey hagree' hr⟩
    -- the entries of the other indexes leave this one
    have hlater : valueOf key m' = valueOf key (insertKey (entryOf idx record rowid) [] m) := by
      have hlocal : LocalTo TreeM.keyCheck (fun key => ∃ idx' ∈ indexes, indexIdPrefix idx'.index_id <+: key)
          (insertIndexEntries rowid record indexes) :=
        localTo_insertIndexEntries indexes fun idx' hidx' _ hp => ⟨idx', hidx', hp⟩
      refine hlocal.keeps hm.insertKey hr ?_
      rintro ⟨idx', hidx', hp⟩
      exact hne idx' hidx' ( index_of_prefix hkey hp)
    rw [hlater]
    split_ifs with heq
    · rw [heq, valueOf_insertKey_self hm]
    · rw [valueOf_insertKey_of_ne hm heq, hhere key hkey]

lemma deleteIndexEntries_ok (hd : IndexesFit d) (hlen : record.length = d.columns.length)
    (indexes : List IndexDef) (hsub : ∀ idx ∈ indexes, idx ∈ d.indexes)
    (hids : indexes.Pairwise fun idx idx' => idx.index_id ≠ idx'.index_id) (hm : SortedMap m)
    (hr : (deleteIndexEntries rowid record indexes).onMap m = .ok ((), m')) :
    ∀ idx ∈ indexes, ∀ key, indexIdPrefix idx.index_id <+: key →
      valueOf key m' = if key = entryOf idx record rowid then none else valueOf key m := by
  induction indexes generalizing m with
  | nil => exact fun idx hidx => (by cases hidx)
  | cons idx indexes ih =>
    obtain ⟨hidx, hsub⟩ := List.forall_mem_cons.1 hsub
    obtain ⟨hne, hids⟩ := List.pairwise_cons.1 hids
    rw [deleteIndexEntries, TreeM.onMap_bind, TreeM.onMap_lift, indexEntryKey_full hd hidx hlen,
      ok_bind, ok_bind, TreeM.onMap_bind, TreeM.onMap_erase, ok_bind] at hr
    have hrest := ih hsub hids hm.eraseKey hr
    refine List.forall_mem_cons.2 ⟨fun key hkey => ?_, fun idx' hidx' key hkey => ?_⟩
    · have hlocal : LocalTo TreeM.keyCheck (fun key => ∃ idx' ∈ indexes, indexIdPrefix idx'.index_id <+: key)
          (deleteIndexEntries rowid record indexes) :=
        localTo_deleteIndexEntries indexes fun idx' hidx' _ hp => ⟨idx', hidx', hp⟩
      rw [hlocal.keeps hm.eraseKey hr fun ⟨idx', hidx', hp⟩ =>
        hne idx' hidx' ( index_of_prefix hkey hp)]
      split_ifs with heq
      · rw [heq, valueOf_eraseKey_self]
      · rw [valueOf_eraseKey_of_ne _ heq]
    · rw [hrest idx' hidx' key hkey]
      split_ifs with heq
      · rfl
      · refine valueOf_eraseKey_of_ne _ ?_
        rintro rfl
        exact hne idx' hidx' ( index_of_prefix prefix_entryOf hkey)

/-- The rows and entries with those of a new row. -/
lemma InOrder.added (h : InOrder d kvs) (hd : IndexesFit d) (hlen : record.length = d.columns.length)
    (henc : (encodeValues record).length < 2 ^ 64) (hm : SortedMap m)
    (hrows : ∀ r, valueOf (rowKey d.table_id r) m = if r = rowid then some (encodeValues record)
      else valueOf (rowKey d.table_id r) kvs)
    (hentries : ∀ idx ∈ d.indexes, ∀ key, indexIdPrefix idx.index_id <+: key →
      valueOf key m = if key = entryOf idx record rowid then some [] else valueOf key kvs)
    (hnew : ∀ row, ¬ HasRow d kvs rowid row) :
    InOrder d m ∧ ∀ r w, HasRow d m r w ↔
      if r = rowid then w = fullRow d rowid record else HasRow d kvs r w := by
  have hrow : HasRow d m rowid (fullRow d rowid record) :=
    ⟨record, ⟨hlen.le, henc⟩, by rw [hrows, if_pos rfl], rfl⟩
  have hiff (r : Int64) (w : Row) : HasRow d m r w ↔
      if r = rowid then w = fullRow d rowid record else HasRow d kvs r w := by
    split_ifs with heq
    · subst heq
      exact ⟨fun hw => hw.unique hrow, fun hw => hw ▸ hrow⟩
    · exact hasRow_congr (by rw [hrows, if_neg heq])
  have hentry {idx : IndexDef} (hidx : idx ∈ d.indexes) :
      entryOf idx (fullRow d rowid record) rowid = entryOf idx record rowid := by
    rw [entryOf, entryOf, indexed_fullRow hd hidx hlen]
  refine ⟨⟨hm, fun r hsome => ?_, fun idx hidx key hkey => ?_⟩, hiff⟩
  · rw [hrows] at hsome
    split_ifs at hsome with heq
    · exact ⟨_, heq ▸ hrow⟩
    · obtain ⟨w, hw⟩ := h.rows r hsome
      exact ⟨w, (hiff r w).2 (by rwa [if_neg heq])⟩
  · rw [hentries idx hidx key hkey]
    split_ifs with heq
    · exact iff_of_true rfl ⟨rowid, _, hrow, by rw [hentry hidx, heq]⟩
    · rw [h.entries idx hidx key hkey]
      constructor
      · rintro ⟨r, w, hw, rfl⟩
        have hne : r ≠ rowid := by
          rintro rfl
          exact hnew w hw
        exact ⟨r, w, (hiff r w).2 (by rwa [if_neg hne]), rfl⟩
      · rintro ⟨r, w, hw, rfl⟩
        have hw' := (hiff r w).1 hw
        split_ifs at hw' with hr
        · subst hr hw'
          exact absurd (hentry hidx) heq
        · exact ⟨r, w, hw', rfl⟩

/-- The rows and entries without those of a row. -/
lemma InOrder.erased (h : InOrder d kvs) {row : Row} (hrow : HasRow d kvs rowid row)
    (hm : SortedMap m)
    (hrows : ∀ r, valueOf (rowKey d.table_id r) m = if r = rowid then none
      else valueOf (rowKey d.table_id r) kvs)
    (hentries : ∀ idx ∈ d.indexes, ∀ key, indexIdPrefix idx.index_id <+: key →
      valueOf key m = if key = entryOf idx row rowid then none else valueOf key kvs) :
    InOrder d m ∧ ∀ r w, HasRow d m r w ↔ r ≠ rowid ∧ HasRow d kvs r w := by
  have hiff (r : Int64) (w : Row) : HasRow d m r w ↔ r ≠ rowid ∧ HasRow d kvs r w := by
    by_cases heq : r = rowid
    · refine iff_of_false ?_ fun hw => hw.1 heq
      rintro ⟨record, -, hval, -⟩
      rw [hrows, if_pos heq] at hval
      cases hval
    · have hsame : HasRow d m r w ↔ HasRow d kvs r w := hasRow_congr (by rw [hrows, if_neg heq])
      exact hsame.trans (and_iff_right heq).symm
  refine ⟨⟨hm, fun r hsome => ?_, fun idx hidx key hkey => ?_⟩, hiff⟩
  · rw [hrows] at hsome
    split_ifs at hsome with heq
    · cases hsome
    · obtain ⟨w, hw⟩ := h.rows r hsome
      exact ⟨w, (hiff r w).2 ⟨heq, hw⟩⟩
  · rw [hentries idx hidx key hkey]
    split_ifs with heq
    · refine iff_of_false Bool.false_ne_true ?_
      rintro ⟨r, w, hw, hkey'⟩
      exact ((hiff r w).1 hw).1 (rowid_of_entry (hkey'.symm.trans heq))
    · rw [h.entries idx hidx key hkey]
      constructor
      · rintro ⟨r, w, hw, rfl⟩
        have hne : r ≠ rowid := by
          rintro rfl
          exact heq (by rw [hw.unique hrow])
        exact ⟨r, w, (hiff r w).2 ⟨hne, hw⟩, rfl⟩
      · rintro ⟨r, w, hw, rfl⟩
        exact ⟨r, w, ((hiff r w).1 hw).2, rfl⟩

end Index

/-! ### The entries for full text -/

section Text
variable {tokenize : String → String → List Token} {d : TableDef} {kvs m m' : Entries} {rowid : Int64}
  {record : Row} {R : Int64 → Row → Prop}

/-- The text indexes are those of the rows. -/
def TextsOf (tokenize : String → String → List Token) (R : Int64 → Row → Prop)
    (indexes : List FtsIndexDef) (kvs : Entries) : Prop :=
  ∀ fts ∈ indexes, ∃ rows, (∀ rid row, (rid, row) ∈ rows ↔ R rid row) ∧
    TextIndex (tokenize fts.tokenizer) fts rows kvs

lemma TextsOf.congr {indexes : List FtsIndexDef} {R' : Int64 → Row → Prop}
    (h : TextsOf tokenize R indexes kvs) (hs : SortedMap m) (hR : ∀ rid row, R rid row ↔ R' rid row)
    (heq : ∀ fts ∈ indexes, ∀ key, ftsIdPrefix fts.fts_id <+: key → valueOf key m = valueOf key kvs) :
    TextsOf tokenize R' indexes m := by
  intro fts hfts
  obtain ⟨rows, hmem, hindex⟩ := h fts hfts
  exact ⟨rows, fun rid row => (hmem rid row).trans (hR rid row), hindex.congr hs (heq fts hfts)⟩

/-- A key is in one text index only. -/
lemma fts_of_prefix {a b : UInt32} {key : Bytes} (ha : ftsIdPrefix a <+: key)
    (hb : ftsIdPrefix b <+: key) : a = b := by
  have hlen (c : UInt32) : (ftsIdPrefix c).length = 5 := by
    rw [ftsIdPrefix, List.length_cons, length_beBytes]
  have heq : ftsIdPrefix a = ftsIdPrefix b := by
    rw [List.prefix_iff_eq_take.1 ha, List.prefix_iff_eq_take.1 hb, hlen, hlen]
  have hbytes := congrArg beNat (List.cons.inj heq).2
  rw [beNat_beBytes 4 a.toNat_lt, beNat_beBytes 4 b.toNat_lt] at hbytes
  exact UInt32.toNat_inj.1 hbytes

/-- Index by index: what happens to one leaves the others. -/
lemma applyFtsEntries_texts {add : Bool} {R' : Int64 → Row → Prop}
    (hstep : ∀ fts m m', (∃ rows, (∀ rid row, (rid, row) ∈ rows ↔ R rid row) ∧
        TextIndex (tokenize fts.tokenizer) fts rows m) →
      tokenizerFor tokenize fts.tokenizer = .ok (tokenize fts.tokenizer) →
      (applyFtsRow tokenize fts rowid record add).onMap m = .ok ((), m') →
      ∃ rows, (∀ rid row, (rid, row) ∈ rows ↔ R' rid row) ∧
        TextIndex (tokenize fts.tokenizer) fts rows m')
    {indexes : List FtsIndexDef} (hids : indexes.Pairwise fun a b => a.fts_id ≠ b.fts_id)
    (htok : ∀ fts ∈ indexes, tokenizerFor tokenize fts.tokenizer = .ok (tokenize fts.tokenizer))
    (hm : SortedMap m) (h : TextsOf tokenize R indexes m)
    (hr : (applyFtsEntries tokenize rowid record add indexes).onMap m = .ok ((), m')) :
    TextsOf tokenize R' indexes m' := by
  induction indexes generalizing m with
  | nil => exact fun fts hfts => (by cases hfts)
  | cons fts indexes ih =>
    obtain ⟨hne, hids⟩ := List.pairwise_cons.1 hids
    obtain ⟨hfts, htok⟩ := List.forall_mem_cons.1 htok
    obtain ⟨hhere, hrest⟩ := List.forall_mem_cons.1 h
    rw [applyFtsEntries, TreeM.onMap_bind] at hr
    obtain ⟨⟨u, m₁⟩, hrow, hr⟩ := bind_eq_ok.1 hr
    have hm₁ := TreeM.onMap_sorted hrow hm
    have hrest' : TextsOf tokenize R indexes m₁ := by
      refine TextsOf.congr hrest hm₁ (fun _ _ => Iff.rfl) fun fts' hfts' key hkey => ?_
      refine (localTo_applyFtsRow add).keeps hm hrow fun hk => ?_
      exact hne fts' hfts' ( fts_of_prefix (hk.elim TermKey.begins LengthKey.begins) hkey)
    refine List.forall_mem_cons.2 ⟨?_, ih hids htok hm₁ hrest' hr⟩
    obtain ⟨rows, hmem, hindex⟩ := hstep fts m m₁ hhere hfts hrow
    refine ⟨rows, hmem, hindex.congr (TreeM.onMap_sorted hr hm₁) fun key hkey => ?_⟩
    have hlocal : LocalTo TreeM.keyCheck (fun key => ∃ fts' ∈ indexes, ftsIdPrefix fts'.fts_id <+: key)
        (applyFtsEntries tokenize rowid record add indexes) :=
      localTo_applyFtsEntries indexes fun fts' hfts' _ hp => ⟨fts', hfts', hp⟩
    exact hlocal.keeps hm₁ hr fun ⟨fts', hfts', hp⟩ => hne fts' hfts' ( fts_of_prefix hkey hp)

end Text

/-! ### The text of a record and of its row -/

section Full
variable {d : TableDef} {values record : Row} {rowid : Int64} {tk : String → List Token}

lemma groupRecord_congr {record' : Row}
    (h : ∀ c : ℕ, record[c]?.map (tokensOf tk) = record'[c]?.map (tokensOf tk)) (cols : List ℕ)
    (st : PerTerm × ℕ) : groupRecord tk record cols st = groupRecord tk record' cols st := by
  induction cols generalizing st with
  | nil => rfl
  | cons c cols ih =>
    have hc := h c
    rw [groupRecord, groupRecord]
    cases hv : record[c]? with
    | none =>
      cases hv' : record'[c]? with
      | none => rfl
      | some v' => simp [hv, hv'] at hc
    | some v =>
      cases hv' : record'[c]? with
      | none => simp [hv, hv'] at hc
      | some v' =>
        rw [hv, hv', Option.map_some, Option.map_some, Option.some.injEq] at hc
        simp only [okOr_some, ok_bind, hc, ih]

lemma resolveCols_getElem? {cols : List ℕ} {vs : Row} (h : resolveCols d values cols = .ok vs)
    {i c : ℕ} (hi : cols[i]? = some c) : ∃ v, vs[i]? = some v ∧ resolveCol d values c = .ok v := by
  induction cols generalizing vs i with
  | nil => cases hi
  | cons c' cols ih =>
    obtain ⟨v, hv, h⟩ := bind_eq_ok.1 h
    obtain ⟨vs', hvs, h⟩ := bind_eq_ok.1 h
    cases h
    cases i with
    | zero =>
      cases hi
      exact ⟨v, rfl, hv⟩
    | succ i => exact ih hvs hi

lemma validatedRecord_getElem? (h : validatedRecord d values = .ok record) {c : ℕ}
    (hc : c < d.columns.length) : ∃ v, record[c]? = some v ∧ resolveCol d values c = .ok v := by
  obtain ⟨u, -, h⟩ := bind_eq_ok.1 h
  exact resolveCols_getElem? h (List.getElem?_range hc)

/-- The rowid in a row is no text, nor is what its record has there. -/
lemma groupRecord_full (rowid : Int64) (h : validatedRecord d values = .ok record) (cols : List ℕ)
    (st : PerTerm × ℕ) :
    groupRecord tk record cols st = groupRecord tk (fullRow d rowid record) cols st := by
  have hlen := length_validatedRecord h
  refine groupRecord_congr (fun c => ?_) cols st
  rcases Nat.lt_or_ge c d.columns.length with hc | hc
  · obtain ⟨v, hv, hresolve⟩ := validatedRecord_getElem? h hc
    rw [getElem?_fullRow hlen.le hc, columnValue, hv, Option.getD_some]
    split_ifs with ha
    · rw [resolveCol, if_pos ha] at hresolve
      cases hresolve
      rfl
    · rfl
  · rw [List.getElem?_eq_none (hlen ▸ hc), List.getElem?_eq_none (length_fullRow hlen.le ▸ hc)]

lemma applyFtsEntries_full {tokenize : String → String → List Token} {add : Bool}
    (h : validatedRecord d values = .ok record) (indexes : List FtsIndexDef) :
    applyFtsEntries tokenize rowid record add indexes
      = applyFtsEntries tokenize rowid (fullRow d rowid record) add indexes := by
  induction indexes with
  | nil => rfl
  | cons fts indexes ih =>
    simp only [applyFtsEntries, ih, applyFtsRow, groupRecord_full rowid h]

end Full

/-! ### Tables -/

/-- What is checked when the indexes of a table are made. -/
structure TableFits (tokenize : String → String → List Token) (d : TableDef) : Prop
    extends IndexesFit d where
  alias_integer : ∀ i col, d.rowid_alias = some i → d.columns[i]? = some col → col.col_type = .integer
  fts_ids : d.fts_indexes.Pairwise fun a b => a.fts_id ≠ b.fts_id
  tokenizers : ∀ fts ∈ d.fts_indexes, tokenizerFor tokenize fts.tokenizer = .ok (tokenize fts.tokenizer)

/-- Each column has a value of its type, and one that is not `NULL` where it must have one. -/
def RowFits (d : TableDef) (row : Row) : Prop :=
  row.length = d.columns.length ∧ ∀ (c : ℕ) (col : ColumnDef), d.columns[c]? = some col →
    ∃ v, row[c]? = some v ∧ v.Fits col.col_type ∧ (col.not_null = true → v ≠ .null)

/-- No two rows have the same values in a UNIQUE index, `NULL` apart. -/
def UniqueRows (d : TableDef) (kvs : Entries) : Prop :=
  ∀ idx ∈ d.indexes, idx.unique = true → ∀ r w r' w', HasRow d kvs r w → HasRow d kvs r' w' →
    .null ∉ indexed idx w → indexed idx w = indexed idx w' → r = r'

/-- A table with all that belongs to it. -/
structure TableOk (tokenize : String → String → List Token) (d : TableDef) (kvs : Entries) : Prop where
  order : InOrder d kvs
  keys : ∀ key, rowPrefix d.table_id <+: key → (valueOf key kvs).isSome →
    ∃ rowid, key = rowKey d.table_id rowid
  typed : ∀ rowid row, HasRow d kvs rowid row → RowFits d row
  unique : UniqueRows d kvs
  texts : TextsOf tokenize (HasRow d kvs) d.fts_indexes kvs

section Table
variable {M : VectorMath} {tokenize : String → String → List Token} {d : TableDef}
  {kvs m m' m'' : Entries} {rowid : Int64} {values record row : Row}

lemma EntryKey.not_rowPrefix {key : Bytes} (h : EntryKey d key) (t : UInt32) :
    ¬ rowPrefix t <+: key := by
  intro hp
  obtain ⟨space, hlt, hhead⟩ := h.head
  obtain ⟨b, rest, heq, hb⟩ := rowPrefix_head t
  rw [heq] at hp
  rw [ head_of_prefix hp, Option.some.injEq] at hhead
  exact absurd hlt (UInt8.not_lt.2 (hhead ▸ hb))

lemma coerce_fits {t : ColType} {v v' : Value} (h : coerce t v = some v') : v'.Fits t := by
  cases t <;> cases v <;> first | (cases h; done) | (cases h; trivial)

lemma coerce_not_null {t : ColType} {v v' : Value} (h : coerce t v = some v') : v' ≠ .null := by
  cases t <;> cases v <;> cases h <;> exact Value.noConfusion

/-- A record that was checked is a row of the table. -/
lemma rowFits_full (hd : TableFits tokenize d) (hrec : validatedRecord d values = .ok record) :
    RowFits d (fullRow d rowid record) := by
  have hlen := length_validatedRecord hrec
  refine ⟨length_fullRow hlen.le, fun c col hcol => ?_⟩
  have hc : c < d.columns.length := (List.getElem?_eq_some_iff.1 hcol).1
  obtain ⟨v, hv, hresolve⟩ := validatedRecord_getElem? hrec hc
  rw [getElem?_fullRow hlen.le hc, columnValue, hv, Option.getD_some]
  refine ⟨_, rfl, ?_⟩
  split_ifs with ha
  · rw [hd.alias_integer c col ha hcol]
    exact ⟨trivial, fun _ => Value.noConfusion⟩
  · rw [resolveCol, if_neg ha, hcol, okOr_some, ok_bind] at hresolve
    split at hresolve
    · split_ifs at hresolve with hnull
      cases hresolve
      exact ⟨by cases col.col_type <;> trivial, fun h => absurd h hnull⟩
    · have hcoerce := okOr_eq_ok.1 hresolve
      exact ⟨coerce_fits hcoerce, fun _ => coerce_not_null hcoerce⟩

/-- A table is one of its keys. -/
lemma TableOk.congr (h : TableOk tokenize d kvs) (hm : SortedMap m)
    (heq : ∀ key, OwnKey d key → valueOf key m = valueOf key kvs) : TableOk tokenize d m := by
  have hrow (r : Int64) (w : Row) : HasRow d m r w ↔ HasRow d kvs r w :=
    hasRow_congr (heq _ (Or.inl (rowPrefix_rowKey _ _)))
  refine ⟨⟨hm, fun r hsome => ?_, fun idx hidx key hkey => ?_⟩, fun key hp hsome => ?_, ?_, ?_, ?_⟩
  · rw [heq _ (Or.inl (rowPrefix_rowKey _ _))] at hsome
    obtain ⟨w, hw⟩ := h.order.rows r hsome
    exact ⟨w, (hrow r w).2 hw⟩
  · rw [heq key (Or.inr (Or.inl ⟨idx, hidx, hkey⟩))]
    simp only [h.order.entries idx hidx key hkey, hrow]
  · exact h.keys key hp (heq key (Or.inl hp) ▸ hsome)
  · exact fun r w hw => h.typed r w ((hrow r w).1 hw)
  · intro idx hidx hunique r w r' w' hw hw'
    exact h.unique idx hidx hunique r w r' w' ((hrow r w).1 hw) ((hrow r' w').1 hw')
  · exact h.texts.congr hm (fun r w => (hrow r w).symm) fun fts hfts key hkey =>
      heq key (Or.inr (Or.inr ⟨fts, hfts, hkey⟩))

/-- What the entries of a row leave of the keys of rows. -/
lemma rows_of_local {p : TreeM Unit} (hp : LocalTo TreeM.keyCheck (EntryKey d) p) (hm : SortedMap m)
    (hr : p.onMap m = .ok ((), m')) {key : Bytes} {t : UInt32} (hkey : rowPrefix t <+: key) :
    valueOf key m' = valueOf key m := hp.keeps hm hr fun h => h.not_rowPrefix t hkey

/-- The entries of a new row. -/
lemma TableOk.put (h : TableOk tokenize d kvs) (hd : TableFits tokenize d)
    (hrec : validatedRecord d values = .ok record) (henc : (encodeValues record).length < 2 ^ 64)
    (hnew : ∀ w, ¬ HasRow d kvs rowid w) (hm : SortedMap m)
    (hval : valueOf (rowKey d.table_id rowid) m = some (encodeValues record))
    (hagree : ∀ key, key ≠ rowKey d.table_id rowid → valueOf key m = valueOf key kvs)
    (hr : (indexRow M tokenize d rowid record).onMap m = .ok ((), m')) :
    TableOk tokenize d m' ∧ ∀ r w, HasRow d m' r w ↔
      if r = rowid then w = fullRow d rowid record else HasRow d kvs r w := by
  have hlen := length_validatedRecord hrec
  have hkeep {key : Bytes} (hkey : rowPrefix d.table_id <+: key) : valueOf key m' = valueOf key m :=
    rows_of_local localTo_indexRow hm hr hkey
  have hm' := TreeM.onMap_sorted hr hm
  have hother {key : Bytes} (hk : ∃ space < 0x80, key.head? = some space) :
      valueOf key m = valueOf key kvs := by
    refine hagree key ?_
    rintro rfl
    obtain ⟨space, hlt, hhead⟩ := hk
    exact head_rowKey_ne hlt hhead
  rw [indexRow, TreeM.onMap_bind] at hr
  obtain ⟨⟨u, m₁⟩, hindexes, hr⟩ := bind_eq_ok.1 hr
  have hm₁ := TreeM.onMap_sorted hindexes hm
  have hok := insertIndexEntries_ok h.order hd.toIndexesFit hlen hnew d.indexes (fun _ => id) hd.ids hm
    (fun idx _ key hkey => hother ⟨KS_INDEX, by decide, head_of_prefix hkey⟩) hindexes
  obtain ⟨horder, hiff⟩ := h.order.added hd.toIndexesFit hlen henc hm' (fun r => by
      rw [hkeep (rowPrefix_rowKey _ _)]
      split_ifs with heq
      · rw [heq, hval]
      · exact hagree _ fun hkey => heq (rowKey_inj.1 hkey)) (fun idx hidx key hkey => by
      rw [keeps_index hm₁ hr hkey]
      exact (hok idx hidx).2 key hkey) hnew
  refine ⟨⟨horder, fun key hkey hsome => ?_, fun r w hw => ?_, ?_, ?_⟩, hiff⟩
  · by_cases heq : key = rowKey d.table_id rowid
    · exact ⟨rowid, heq⟩
    · rw [hkeep hkey, hagree key heq] at hsome
      exact h.keys key hkey hsome
  · rw [hiff] at hw
    split_ifs at hw
    · exact hw ▸ rowFits_full hd hrec
    · exact h.typed r w hw
  · -- another row with the values of the new one would have been met
    have hfree {idx : IndexDef} (hidx : idx ∈ d.indexes) (hunique : idx.unique = true) {r : Int64}
        {w : Row} (hw : HasRow d kvs r w) (hnull : .null ∉ indexed idx record) :
        indexed idx w ≠ indexed idx record := fun heq =>
      (hok idx hidx).1 ⟨⟨hunique, hnull⟩, r, w, hw, by
        rw [indexValuePrefix_eq, entryOf, heq, entryCode, ← List.append_assoc]
        exact List.prefix_append _ _⟩
    intro idx hidx hunique r w r' w' hw hw' hnull heq
    have hfull : indexed idx (fullRow d rowid record) = indexed idx record :=
      indexed_fullRow hd.toIndexesFit hidx hlen
    rw [hiff] at hw hw'
    split_ifs at hw hw' with hrow hrow' hrow'
    · rw [hrow, hrow']
    · rw [hw, hfull] at hnull heq
      exact absurd heq.symm (hfree hidx hunique hw' hnull)
    · rw [hw', hfull] at heq
      exact absurd heq (hfree hidx hunique hw (heq ▸ hnull))
    · exact h.unique idx hidx hunique r w r' w' hw hw' hnull heq
  · rw [TreeM.onMap_bind] at hr
    obtain ⟨⟨u', m₂⟩, htexts, hr⟩ := bind_eq_ok.1 hr
    have hbefore : TextsOf tokenize (HasRow d kvs) d.fts_indexes m₁ := by
      refine h.texts.congr hm₁ (fun _ _ => Iff.rfl) fun fts hfts key hkey => ?_
      have hindex : LocalTo TreeM.keyCheck (fun key => key.head? = some KS_INDEX)
          (insertIndexEntries rowid record d.indexes) :=
        localTo_insertIndexEntries d.indexes fun _ _ _ hp => head_of_prefix hp
      rw [hindex.keeps hm hindexes (by rw [ head_of_prefix hkey]; decide)]
      exact hother ⟨KS_FTS, by decide, head_of_prefix hkey⟩
    rw [applyFtsEntries_full hrec] at htexts
    have hafter : TextsOf tokenize (HasRow d m') d.fts_indexes m₂ := by
      refine applyFtsEntries_texts (fun fts l l' hindex htok hrun => ?_) hd.fts_ids hd.tokenizers hm₁
        hbefore htexts
      obtain ⟨rows, hmem, hindex⟩ := hindex
      have hnew' : rowid ∉ rows.map Prod.fst := by
        intro hin
        obtain ⟨p, hp, rfl⟩ := List.mem_map.1 hin
        exact hnew p.2 ((hmem p.1 p.2).1 hp)
      refine ⟨_, fun r w => ?_, hindex.addRow htok hnew' hrun⟩
      rw [List.mem_cons, Prod.mk.injEq, hmem, hiff]
      split_ifs with heq
      · subst heq
        simp [hnew]
      · simp [heq]
    refine hafter.congr hm' (fun _ _ => Iff.rfl) fun fts hfts key hkey => ?_
    refine ((keepsTo_applyVectorEntries M record d.vector_indexes).local_).keeps
      (TreeM.onMap_sorted htexts hm₁) hr ?_
    rw [ head_of_prefix hkey]
    decide

/-- The entries of a row that leaves. -/
lemma TableOk.take (h : TableOk tokenize d kvs) (hd : TableFits tokenize d)
    (hrow : HasRow d kvs rowid row) (hm : SortedMap m)
    (hagree : ∀ key, key ≠ rowKey d.table_id rowid → valueOf key m = valueOf key kvs)
    (hr : (unindexRow M tokenize d rowid row).onMap m = .ok ((), m')) (hs : SortedMap m'')
    (hgone : valueOf (rowKey d.table_id rowid) m'' = none)
    (hagree' : ∀ key, key ≠ rowKey d.table_id rowid → valueOf key m'' = valueOf key m') :
    TableOk tokenize d m'' ∧ ∀ r w, HasRow d m'' r w ↔ r ≠ rowid ∧ HasRow d kvs r w := by
  have hkeep {key : Bytes} (hkey : rowPrefix d.table_id <+: key) : valueOf key m' = valueOf key m :=
    rows_of_local localTo_unindexRow hm hr hkey
  have hm' := TreeM.onMap_sorted hr hm
  have hne {key : Bytes} (hk : ∃ space < 0x80, key.head? = some space) :
      key ≠ rowKey d.table_id rowid := by
    rintro rfl
    obtain ⟨space, hlt, hhead⟩ := hk
    exact head_rowKey_ne hlt hhead
  rw [unindexRow, TreeM.onMap_bind] at hr
  obtain ⟨⟨u, m₁⟩, hindexes, hr⟩ := bind_eq_ok.1 hr
  have hm₁ := TreeM.onMap_sorted hindexes hm
  have hok := deleteIndexEntries_ok hd.toIndexesFit hrow.length d.indexes (fun _ => id) hd.ids hm
    hindexes
  obtain ⟨horder, hiff⟩ := h.order.erased hrow hs (fun r => by
      split_ifs with heq
      · rw [heq, hgone]
      · have hkey : rowKey d.table_id r ≠ rowKey d.table_id rowid := fun hkey => heq (rowKey_inj.1 hkey)
        rw [hagree' _ hkey, hkeep (rowPrefix_rowKey _ _), hagree _ hkey]) (fun idx hidx key hkey => by
      have hspace := hne ⟨KS_INDEX, by decide, head_of_prefix hkey⟩
      rw [hagree' key hspace, keeps_index hm₁ hr hkey, hok idx hidx key hkey, hagree key hspace])
  refine ⟨⟨horder, fun key hkey hsome => ?_, fun r w hw => ?_, ?_, ?_⟩, hiff⟩
  · by_cases heq : key = rowKey d.table_id rowid
    · exact ⟨rowid, heq⟩
    · rw [hagree' key heq, hkeep hkey, hagree key heq] at hsome
      exact h.keys key hkey hsome
  · exact h.typed r w ((hiff r w).1 hw).2
  · intro idx hidx hunique r w r' w' hw hw'
    exact h.unique idx hidx hunique r w r' w' ((hiff r w).1 hw).2 ((hiff r' w').1 hw').2
  · rw [TreeM.onMap_bind] at hr
    obtain ⟨⟨u', m₂⟩, htexts, hr⟩ := bind_eq_ok.1 hr
    have hbefore : TextsOf tokenize (HasRow d kvs) d.fts_indexes m₁ := by
      refine h.texts.congr hm₁ (fun _ _ => Iff.rfl) fun fts hfts key hkey => ?_
      have hindex : LocalTo TreeM.keyCheck (fun key => key.head? = some KS_INDEX)
          (deleteIndexEntries rowid row d.indexes) :=
        localTo_deleteIndexEntries d.indexes fun _ _ _ hp => head_of_prefix hp
      rw [hindex.keeps hm hindexes (by rw [ head_of_prefix hkey]; decide)]
      exact hagree key (hne ⟨KS_FTS, by decide, head_of_prefix hkey⟩)
    have hafter : TextsOf tokenize (HasRow d m'') d.fts_indexes m₂ := by
      refine applyFtsEntries_texts (fun fts l l' hindex htok hrun => ?_) hd.fts_ids hd.tokenizers hm₁
        hbefore htexts
      obtain ⟨rows, hmem, hindex⟩ := hindex
      have hperm := List.perm_cons_erase ((hmem rowid row).2 hrow)
      obtain ⟨l'', hrun', hindex'⟩ := (hindex.perm hperm).removeRow htok
      rw [hrun'] at hrun
      cases hrun
      refine ⟨_, fun r w => ?_, hindex'⟩
      have hnodup : rows.Nodup := .of_map Prod.fst hindex.rowids
      rw [hnodup.mem_erase_iff, hmem, hiff, ne_eq, Prod.mk.injEq, not_and]
      refine and_congr_left fun hw => ⟨fun hne heq => ?_, fun hne heq => absurd heq hne⟩
      subst heq
      exact hne rfl (hw.unique hrow)
    refine hafter.congr hs (fun _ _ => Iff.rfl) fun fts hfts key hkey => ?_
    rw [hagree' key (hne ⟨KS_FTS, by decide, head_of_prefix hkey⟩)]
    refine ((keepsTo_applyVectorEntries M row d.vector_indexes).local_).keeps
      (TreeM.onMap_sorted htexts hm₁) hr ?_
    rw [ head_of_prefix hkey]
    decide

end Table

end Catalog

end Arkeion
