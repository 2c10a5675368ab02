import Arkeion.CatalogKeys
import Mathlib.Data.List.GetD

/-!
The keys are in the order of what they stand for, and those of different kinds never meet.
-/

namespace Arkeion

open Arkeion.Lib

namespace Catalog

/-! ### The keys of an index -/

/-- The values of a row in the columns of an index. -/
def indexed (idx : IndexDef) (record : List Value) : List Value :=
  idx.columns.map fun col => record.getD col .null

/-- The record has a value for each column, of its type or `NULL`. -/
def RowOf (types : List ColType) (record : List Value) : Prop :=
  List.Forall₂ Value.Fits types record

/-- The order of the entries of an index: by the values, then by the rowid. -/
def EntryBefore (q : F64 → F64 → Prop) : List Value × Int64 → List Value × Int64 → Prop :=
  Prod.Lex (List.Lex (Value.Precedes q)) (· < ·)

def entryCode (e : List Value × Int64) : Bytes := e.1.flatMap encodeIndexValue ++ rowidBe e.2

section Index
variable {idx : IndexDef} {types : List ColType} {r r' : List Value}

lemma pushColumns_eq {cols : List ℕ} (h : ∀ c ∈ cols, c < r.length) (k : Bytes) :
    pushColumns r cols k
      = .ok (k ++ (cols.map fun col => r.getD col .null).flatMap encodeIndexValue) := by
  induction cols generalizing k with
  | nil => rw [pushColumns, List.map_nil, List.flatMap_nil, List.append_nil]
  | cons c cols ih =>
    have hc : r[c]? = some (r.getD c .null) := by
      rw [List.getElem?_eq_getElem (h c (by simp)), List.getD_eq_getElem _ _ (h c (by simp))]
    rw [pushColumns, hc, okOr_some, ok_bind, ih fun c' hc' => h c' (by simp [hc']),
      List.map_cons, List.flatMap_cons, List.append_assoc]

lemma indexEntryKey_eq (h : ∀ c ∈ idx.columns, c < r.length) (rowid : Int64) :
    indexEntryKey idx r rowid
      = .ok (indexIdPrefix idx.index_id ++ entryCode (indexed idx r, rowid)) := by
  rw [indexEntryKey, pushColumns_eq h, ok_bind, entryCode, List.append_assoc]
  rfl

lemma indexValuePrefix_eq (values : List Value) : indexValuePrefix idx values
    = indexIdPrefix idx.index_id ++ values.flatMap encodeIndexValue := by
  rw [indexValuePrefix]
  generalize indexIdPrefix idx.index_id = k
  induction values generalizing k with
  | nil => rw [List.foldl_nil, List.flatMap_nil, List.append_nil]
  | cons v values ih => rw [List.foldl_cons, ih, List.flatMap_cons, List.append_assoc]

lemma RowOf.getD (h : RowOf types r) {c : ℕ} (hc : c < types.length) :
    (r.getD c .null).Fits (types.getD c .integer) := by
  have hlen := h.length_eq
  rw [List.getD_eq_getElem _ _ hc, List.getD_eq_getElem _ _ (hlen ▸ hc)]
  exact List.forall₂_iff_get.1 h |>.2 c hc (hlen ▸ hc)

lemma RowOf.indexed (h : RowOf types r) (hcols : ∀ c ∈ idx.columns, c < types.length) :
    RowOf (idx.columns.map fun c => types.getD c .integer) (indexed idx r) := by
  rw [RowOf, Catalog.indexed, List.forall₂_map_left_iff, List.forall₂_map_right_iff,
    List.forall₂_same]
  exact fun c hc => h.getD (hcols c hc)

/-- Two rows of one signature can be compared. -/
lemma RowOf.trichotomy (h : RowOf types r) (h' : RowOf types r') :
    List.Lex (Value.Precedes F64.CodeBefore) r r' ∨ r = r' ∨
      List.Lex (Value.Precedes F64.CodeBefore) r' r := by
  refine lex_trichotomy (List.forall₂_iff_get.2 ⟨h.length_eq.symm.trans h'.length_eq, ?_⟩)
  intro i hi hi'
  have ht : i < types.length := h.length_eq ▸ hi
  exact Value.precedes_trichotomy ((List.forall₂_iff_get.1 h).2 i ht hi)
    ((List.forall₂_iff_get.1 h').2 i ht hi')

lemma entry_trichotomy (h : RowOf types r) (h' : RowOf types r') (i i' : Int64) :
    EntryBefore F64.CodeBefore (r, i) (r', i') ∨ (r, i) = (r', i') ∨
      EntryBefore F64.CodeBefore (r', i') (r, i) := by
  rcases h.trichotomy h' with hlt | rfl | hgt
  · exact Or.inl (.left _ _ hlt)
  · rcases lt_trichotomy i.toInt i'.toInt with hi | hi | hi
    · exact Or.inl (.right _ (Int64.lt_iff_toInt_lt.2 hi))
    · rw [Int64.toInt_inj.1 hi]
      exact Or.inr (Or.inl rfl)
    · exact Or.inr (Or.inr (.right _ (Int64.lt_iff_toInt_lt.2 hi)))
  · exact Or.inr (Or.inr (.left _ _ hgt))

lemma entryCode_below {e e' : List Value × Int64} (hl : e.1.length = e'.1.length)
    (h : EntryBefore F64.CodeBefore e e') : Below (entryCode e) (entryCode e') := by
  cases h with
  | left _ _ hlex => exact (Value.encodeIndexValue_keepsOrder.flatMap hl hlex).append _ _
  | right _ hi => exact (rowidBe_keepsOrder hi).append_left _

lemma lex_congr {q q' : Value → Value → Prop} (hq : ∀ v ∈ r, ∀ w ∈ r', q v w → q' v w)
    (h : List.Lex q r r') : List.Lex q' r r' := by
  induction h with
  | nil => exact .nil
  | rel h => exact .rel (hq _ (by simp) _ (by simp) h)
  | cons _ ih => exact .cons (ih fun v hv w hw => hq v (by simp [hv]) w (by simp [hw]))

/-- No value of the tuple is a NaN. -/
def Numbers (tuple : List Value) : Prop := ∀ v ∈ tuple, v.IsNumber

lemma entryBefore_congr (h : Numbers r) (h' : Numbers r') (i i' : Int64) :
    EntryBefore F64.CodeBefore (r, i) (r', i') ↔ EntryBefore F64.Before (r, i) (r', i') := by
  constructor
  · rintro (⟨_, _, hlex⟩ | ⟨_, hi⟩)
    · exact .left _ _ (lex_congr (fun v hv w hw => (Value.precedes_codeBefore (h v hv) (h' w hw)).1) hlex)
    · exact .right _ hi
  · rintro (⟨_, _, hlex⟩ | ⟨_, hi⟩)
    · exact .left _ _ (lex_congr (fun v hv w hw => (Value.precedes_codeBefore (h v hv) (h' w hw)).2) hlex)
    · exact .right _ hi

end Index

/-! ### The keys of rows -/

section Row
variable (t : UInt32) (rowid : Int64)

lemma toInt_table (t : UInt32) : (Int64.ofNat t.toNat).toInt = t.toNat :=
  Int64.toInt_ofNat_of_lt (t.toNat_lt.trans (by decide))

lemma rowPrefix_keepsOrder : KeepsOrder (· < ·) rowPrefix := by
  intro t t' hlt
  refine encodeOint_keepsOrder (Int64.lt_iff_toInt_lt.2 ?_)
  rw [toInt_table, toInt_table]
  exact Nat.cast_lt.2 (UInt32.lt_iff_toNat_lt.1 hlt)

/-- The order of the rows: by the table, then by the rowid. -/
def RowBefore : UInt32 × Int64 → UInt32 × Int64 → Prop := Prod.Lex (· < ·) (· < ·)

lemma rowKey_keepsOrder : KeepsOrder RowBefore fun p => rowKey p.1 p.2 :=
  rowPrefix_keepsOrder.pair encodeOint_keepsOrder

lemma row_trichotomy (p p' : UInt32 × Int64) : RowBefore p p' ∨ p = p' ∨ RowBefore p' p := by
  obtain ⟨t, i⟩ := p
  obtain ⟨t', i'⟩ := p'
  rcases lt_trichotomy t.toNat t'.toNat with h | h | h
  · exact Or.inl (.left _ _ (UInt32.lt_iff_toNat_lt.2 h))
  · obtain rfl := UInt32.toNat_inj.1 h
    rcases lt_trichotomy i.toInt i'.toInt with hi | hi | hi
    · exact Or.inl (.right _ (Int64.lt_iff_toInt_lt.2 hi))
    · rw [Int64.toInt_inj.1 hi]
      exact Or.inr (Or.inl rfl)
    · exact Or.inr (Or.inr (.right _ (Int64.lt_iff_toInt_lt.2 hi)))
  · exact Or.inr (Or.inr (.left _ _ (UInt32.lt_iff_toNat_lt.2 h)))

/-- The first byte of a row key is above those of all other keys. -/
lemma rowPrefix_head : ∃ b rest, rowPrefix t = b :: rest ∧ 0x80 ≤ b := by
  have hnonneg : 0 ≤ Int64.ofNat t.toNat := by
    rw [nonneg_iff, toInt_table]
    exact Int.natCast_nonneg _
  refine ⟨_, _, by rw [rowPrefix, encodeOint_eq, if_pos hnonneg, ointAbove], ?_⟩
  rw [UInt8.le_iff_toNat_le, header_nonneg (ointLen_le _)]
  exact Nat.le_add_right _ _

lemma tryU32_table : tryU32 (Int64.ofNat t.toNat) = some t := by
  have hlt : (t.toNat : ℤ) < 2 ^ 32 := by exact_mod_cast t.toNat_lt
  rw [tryU32, toInt_table, if_pos ⟨Int.natCast_nonneg _, hlt⟩, Int.toNat_natCast,
    UInt32.ofNat_toNat]

lemma decodeRowKey_rowKey : decodeRowKey (rowKey t rowid) = some (t, rowid) := by
  obtain ⟨b, rest, heq, hb⟩ := rowPrefix_head t
  have hfirst : (rowKey t rowid)[0]? = some b := by
    rw [rowKey, heq]
    rfl
  have htable := decodeOint_encodeOint [] (encodeOint rowid) (Int64.ofNat t.toNat)
  have hrowid := decodeOint_encodeOint (rowPrefix t) [] rowid
  rw [List.nil_append, ← rowPrefix, List.length_nil, Nat.zero_add, ← rowKey] at htable
  rw [List.append_nil, ← rowKey] at hrowid
  rw [decodeRowKey, hfirst, Option.bind_eq_bind, Option.bind_some, if_neg (not_lt.2 hb), htable]
  dsimp only [Option.bind_eq_bind, Option.bind_some]
  rw [hrowid]
  dsimp only [Option.bind_some]
  rw [tryU32_table]
  rfl

end Row

/-! ### The kinds of keys -/

inductive Key where
  | meta_
  | table (name : String)
  | counter (table_id : UInt32)
  | indexCounter
  | indexRef (name : String)
  | view (name : String)
  | trigger (name : String)
  | ftsCounter
  | ftsRef (name : String)
  | vectorCounter
  | vectorRef (name : String)
  | row (table_id : UInt32) (rowid : Int64)
  | index (idx : IndexDef) (values : List Value) (rowid : Int64)
  | ftsPosting (fts_id term_id : UInt32) (rowid : Int64)
  | ftsDoclen (fts_id : UInt32) (rowid : Int64)
  | ftsGlobal (fts_id : UInt32)
  | ftsDf (fts_id : UInt32) (term : String)
  | ftsTermDict (fts_id : UInt32) (term : String)
  | ftsTermCounter (fts_id : UInt32)
  | vecCentroid (vidx_id : UInt32) (cid : UInt16)
  | vecPosting (vidx_id : UInt32) (cid : UInt16) (rowid : Int64)
  | vecPq (vidx_id : UInt32)

inductive KeySpace where
  | meta_ | table | counter | indexCounter | indexRef | view | trigger | ftsCounter | ftsRef
  | vectorCounter | vectorRef | row | index | ftsPosting | ftsDoclen | ftsGlobal | ftsDf
  | ftsTermDict | ftsTermCounter | vecCentroid | vecPosting | vecPq
  deriving DecidableEq, Repr

def Key.space : Key → KeySpace
  | .meta_ => .meta_
  | .table _ => .table
  | .counter _ => .counter
  | .indexCounter => .indexCounter
  | .indexRef _ => .indexRef
  | .view _ => .view
  | .trigger _ => .trigger
  | .ftsCounter => .ftsCounter
  | .ftsRef _ => .ftsRef
  | .vectorCounter => .vectorCounter
  | .vectorRef _ => .vectorRef
  | .row _ _ => .row
  | .index _ _ _ => .index
  | .ftsPosting _ _ _ => .ftsPosting
  | .ftsDoclen _ _ => .ftsDoclen
  | .ftsGlobal _ => .ftsGlobal
  | .ftsDf _ _ => .ftsDf
  | .ftsTermDict _ _ => .ftsTermDict
  | .ftsTermCounter _ => .ftsTermCounter
  | .vecCentroid _ _ => .vecCentroid
  | .vecPosting _ _ _ => .vecPosting
  | .vecPq _ => .vecPq

def Key.bytes : Key → Bytes
  | .meta_ => metaKey
  | .table name => tableKey name
  | .counter table_id => counterKey table_id
  | .indexCounter => indexCounterKey
  | .indexRef name => indexRefKey name
  | .view name => viewKey name
  | .trigger name => triggerKey name
  | .ftsCounter => ftsCounterKey
  | .ftsRef name => ftsRefKey name
  | .vectorCounter => vectorCounterKey
  | .vectorRef name => vectorRefKey name
  | .row table_id rowid => rowKey table_id rowid
  | .index idx values rowid => indexValuePrefix idx values ++ rowidBe rowid
  | .ftsPosting fts_id term_id rowid => ftsPostingKey fts_id term_id rowid
  | .ftsDoclen fts_id rowid => ftsDoclenKey fts_id rowid
  | .ftsGlobal fts_id => ftsGlobalKey fts_id
  | .ftsDf fts_id term => ftsDfKey fts_id term
  | .ftsTermDict fts_id term => ftsTermDictKey fts_id term
  | .ftsTermCounter fts_id => ftsTermCounterKey fts_id
  | .vecCentroid vidx_id cid => vecCentroidKey vidx_id cid
  | .vecPosting vidx_id cid rowid => vecPostingKey vidx_id cid rowid
  | .vecPq vidx_id => vecPqKey vidx_id

/-- The kind of a key of the catalog, by its second byte. -/
def catalogSpaces : List KeySpace :=
  [.meta_, .table, .counter, .indexCounter, .indexRef, .view, .trigger, .ftsCounter, .ftsRef,
    .vectorCounter, .vectorRef]

def ftsSpaces : List KeySpace :=
  [.ftsPosting, .ftsDoclen, .ftsGlobal, .ftsDf, .ftsTermDict, .ftsTermCounter]

def vecSpaces : List KeySpace := [.vecCentroid, .vecPosting, .vecPq]

/-- The kind of a key, read off its bytes. -/
def spaceOf (key : Bytes) : Option KeySpace := do
  let first ← key[0]?
  if 0x80 ≤ first then some .row
  else if first = KS_CATALOG then do
    let sub ← key[1]?
    catalogSpaces[sub.toNat]?
  else if first = KS_INDEX then some .index
  else do
    let sub ← key[5]?
    (if first = KS_FTS then ftsSpaces else vecSpaces)[sub.toNat]?

lemma beBytes_four (v : ℕ) : ∃ a b c d, beBytes 4 v = [a, b, c, d] := ⟨_, _, _, _, rfl⟩

lemma spaceOf_fts (fts_id : UInt32) (sub : UInt8) (rest : Bytes) :
    spaceOf (ftsSubPrefix fts_id sub ++ rest) = ftsSpaces[sub.toNat]? := by
  obtain ⟨a, b, c, d, h⟩ := beBytes_four fts_id.toNat
  rw [ftsSubPrefix, h]
  rfl

lemma spaceOf_vec (vidx_id : UInt32) (sub : UInt8) (rest : Bytes) :
    spaceOf (vecSubPrefix vidx_id sub ++ rest) = vecSpaces[sub.toNat]? := by
  obtain ⟨a, b, c, d, h⟩ := beBytes_four vidx_id.toNat
  rw [vecSubPrefix, h]
  rfl

lemma spaceOf_bytes (k : Key) : spaceOf k.bytes = some k.space := by
  have hfts (fts_id : UInt32) (sub : UInt8) :
      spaceOf (ftsSubPrefix fts_id sub) = ftsSpaces[sub.toNat]? := by
    have h := spaceOf_fts fts_id sub []
    rwa [List.append_nil] at h
  cases k with
  | row t rowid =>
    obtain ⟨b, rest, heq, hb⟩ := rowPrefix_head t
    rw [Key.bytes, rowKey, heq, spaceOf]
    simp [hb, Key.space]
  | index idx values rowid =>
    rw [Key.bytes, indexValuePrefix_eq]
    rfl
  | ftsPosting fts_id term_id rowid =>
    rw [Key.bytes, ftsPostingKey, ftsTermPostingPrefix, List.append_assoc, spaceOf_fts]
    rfl
  | ftsDoclen fts_id rowid => exact (spaceOf_fts ..).trans rfl
  | ftsGlobal fts_id => exact (hfts ..).trans rfl
  | ftsDf fts_id term => exact (spaceOf_fts ..).trans rfl
  | ftsTermDict fts_id term => exact (spaceOf_fts ..).trans rfl
  | ftsTermCounter fts_id => exact (hfts ..).trans rfl
  | vecCentroid vidx_id cid => exact (spaceOf_vec ..).trans rfl
  | vecPosting vidx_id cid rowid =>
    rw [Key.bytes, vecPostingKey, List.append_assoc, spaceOf_vec]
    rfl
  | vecPq vidx_id =>
    have h := spaceOf_vec vidx_id VEC_PQ []
    rw [List.append_nil] at h
    exact h
  | _ => rfl

/-! ### What the keys promise -/

/-- The entries of an index over a table with columns of these types. -/
structure IndexKeysEmbed (idx : IndexDef) (types : List ColType) : Prop where
  total : ∀ r i, RowOf types r →
    indexEntryKey idx r i = .ok (Key.index idx (indexed idx r) i).bytes
  order : ∀ r r' i i' key key', RowOf types r → RowOf types r' → Numbers (indexed idx r) →
    Numbers (indexed idx r') → indexEntryKey idx r i = .ok key →
    indexEntryKey idx r' i' = .ok key' →
    (key < key' ↔ EntryBefore F64.Before (indexed idx r, i) (indexed idx r', i'))
  equal : ∀ r r' i i' key key', RowOf types r → RowOf types r' →
    indexEntryKey idx r i = .ok key → indexEntryKey idx r' i' = .ok key' →
    (key = key' ↔ indexed idx r = indexed idx r' ∧ i = i')
  value_prefix : ∀ tuple r i key, RowOf (idx.columns.map fun c => types.getD c .integer) tuple →
    RowOf types r → indexEntryKey idx r i = .ok key → indexValuePrefix idx tuple <+: key →
    tuple = indexed idx r

/-- The keys of rows are in the order of the tables and the rowids, and can be read back. -/
structure RowKeysEmbed : Prop where
  order : ∀ t t' i i', rowKey t i < rowKey t' i' ↔ t < t' ∨ t = t' ∧ i < i'
  decode : ∀ t i, decodeRowKey (rowKey t i) = some (t, i)

section Embed
variable {idx : IndexDef} {types : List ColType}

lemma indexKeysEmbed (hcols : ∀ c ∈ idx.columns, c < types.length) : IndexKeysEmbed idx types := by
  have hentry {r : List Value} (hr : RowOf types r) (i : Int64) := indexEntryKey_eq
    (fun c hc => hr.length_eq ▸ hcols c hc : ∀ c ∈ idx.columns, c < r.length) i
  refine ⟨fun r i hr => ?_, fun r r' i i' key key' hr hr' hn hn' hk hk' => ?_,
    fun r r' i i' key key' hr hr' hk hk' => ?_, fun tuple r i key ht hr hk hp => ?_⟩
  · rw [hentry hr, Key.bytes, indexValuePrefix_eq, entryCode, List.append_assoc]
  · rw [hentry hr] at hk
    rw [hentry hr'] at hk'
    cases hk
    cases hk'
    rw [append_lt_append_iff, ← entryBefore_congr hn hn']
    have hl := (hr.indexed hcols).length_eq.symm.trans (hr'.indexed hcols).length_eq
    refine ⟨fun hlt => ?_, fun h => (entryCode_below hl h).lt⟩
    rcases entry_trichotomy (hr.indexed hcols) (hr'.indexed hcols) i i' with h | h | h
    · exact h
    · rw [h] at hlt
      exact absurd hlt (lt_irrefl _)
    · exact absurd (entryCode_below hl.symm h).lt (lt_asymm hlt)
  · rw [hentry hr] at hk
    rw [hentry hr'] at hk'
    cases hk
    cases hk'
    rw [List.append_cancel_left_eq, ← Prod.mk.injEq]
    have hl := (hr.indexed hcols).length_eq.symm.trans (hr'.indexed hcols).length_eq
    refine ⟨fun heq => ?_, fun h => by rw [h]⟩
    rcases entry_trichotomy (hr.indexed hcols) (hr'.indexed hcols) i i' with h | h | h
    · exact absurd heq (entryCode_below hl h).ne
    · exact h
    · exact absurd heq.symm (entryCode_below hl.symm h).ne
  · rw [hentry hr] at hk
    cases hk
    rw [indexValuePrefix_eq, List.prefix_append_right_inj, entryCode] at hp
    have hl := ht.length_eq.symm.trans (hr.indexed hcols).length_eq
    rcases ht.trichotomy (hr.indexed hcols) with h | h | h
    · have hb := Value.encodeIndexValue_keepsOrder.flatMap hl h
      exact absurd hp (by simpa using (hb.append [] (rowidBe i)).not_begins)
    · exact h
    · have hb := Value.encodeIndexValue_keepsOrder.flatMap hl.symm h
      exact absurd hp (by simpa using (hb.append (rowidBe i) []).not_begun)

lemma rowKeysEmbed : RowKeysEmbed where
  order t t' i i' := by
    rw [rowKey_keepsOrder.lt_iff (row_trichotomy (t, i) (t', i')), RowBefore, Prod.lex_iff]
  decode := decodeRowKey_rowKey

/-- The keys of an index and of rows embed the order of what they stand for, and keys of
different kinds are different. -/
theorem keys_embed_order (hcols : ∀ c ∈ idx.columns, c < types.length) :
    IndexKeysEmbed idx types ∧ RowKeysEmbed ∧
      ∀ k k' : Key, k.space ≠ k'.space → k.bytes ≠ k'.bytes := by
  refine ⟨indexKeysEmbed hcols, rowKeysEmbed, fun k k' hne heq => hne ?_⟩
  have hspace := congrArg spaceOf heq
  rw [spaceOf_bytes, spaceOf_bytes] at hspace
  exact Option.some.inj hspace

/-- The theorem at an index over a text and a number. -/
theorem keys_embed_order_two :
    IndexKeysEmbed ⟨"i", 1, [1, 0], false⟩ [.integer, .text, .real] ∧ RowKeysEmbed ∧
    ∀ k k' : Key, k.space ≠ k'.space → k.bytes ≠ k'.bytes :=
  keys_embed_order (by decide)

example : indexEntryKey ⟨"i", 1, [1, 0], false⟩ [.integer 5, .text "a"] 2 = .ok
    [2, 0, 0, 0, 1, 1, 97, 0, 0, 1, 128, 0, 0, 0, 0, 0, 0, 5, 128, 0, 0, 0, 0, 0, 0, 2] := by
  decide +kernel

end Embed

end Catalog

end Arkeion
