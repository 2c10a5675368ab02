import Arkeion.Lib.Codec
import Arkeion.RecordSpec
import Arkeion.TableHistory

/-!
The definition of a table as the catalog stores it, in the tenth version of its format; the versions
from the second on are still read. What is written is read back.
-/

namespace Arkeion

open Arkeion.Lib

namespace Catalog

def SCHEMA_VERSION : UInt8 := 10
def NO_ALIAS : UInt8 := 0xFF

/-! ### Bytes of enumerations -/

def colTypeByte : ColType → UInt8
  | .integer => 1
  | .real => 2
  | .text => 3
  | .blob => 4
  | .boolean => 5

def colTypeOf (b : UInt8) : Option ColType :=
  if b = 1 then some .integer
  else if b = 2 then some .real
  else if b = 3 then some .text
  else if b = 4 then some .blob
  else if b = 5 then some .boolean
  else none

def FkAction.asU8 : FkAction → UInt8
  | .restrict => 0
  | .cascade => 1
  | .setNull => 2

def FkAction.fromU8 (b : UInt8) : Option FkAction :=
  if b = 0 then some .restrict
  else if b = 1 then some .cascade
  else if b = 2 then some .setNull
  else none

def VectorMetric.asU8 : VectorMetric → UInt8
  | .cosine => 0
  | .l2 => 1

def VectorMetric.fromU8 (b : UInt8) : Option VectorMetric :=
  if b = 0 then some .cosine
  else if b = 1 then some .l2
  else none

@[simp] lemma colTypeOf_byte (t : ColType) : colTypeOf (colTypeByte t) = some t := by
  cases t <;> rfl

@[simp] lemma FkAction.fromU8_asU8 (a : FkAction) : FkAction.fromU8 a.asU8 = some a := by
  cases a <;> rfl

@[simp] lemma VectorMetric.fromU8_asU8 (m : VectorMetric) :
    VectorMetric.fromU8 m.asU8 = some m := by
  cases m <;> rfl

/-! ### Writing -/

def putText (s : String) : Bytes := putVarint (utf8 s).length ++ utf8 s

def putFlag (b : Bool) : Bytes := [if b then 1 else 0]

def putPositions (columns : List ℕ) : Bytes :=
  putVarint columns.length ++ columns.flatMap putVarint

def putDefault : Option Value → Bytes
  | none => [0]
  | some v => [1] ++ (putVarint (encodeValues [v]).length ++ encodeValues [v])

def putColumn (col : ColumnDef) : Bytes :=
  putText col.name ++ ([colTypeByte col.col_type] ++ (putFlag col.not_null
    ++ (putDefault col.default ++ putFlag col.dropped)))

def putIndex (idx : IndexDef) : Bytes :=
  leBytes 4 idx.index_id.toNat ++ (putFlag idx.unique ++ (putPositions idx.columns
    ++ putText idx.name))

/-- The identity is written as such. -/
def putOrder (order : List ℕ) : Bytes :=
  if order = List.range order.length then [0] else [1] ++ order.flatMap putVarint

def putForeignKey (fk : ForeignKey) : Bytes :=
  putPositions fk.columns ++ ([fk.on_delete.asU8] ++ ([fk.on_update.asU8] ++ (putText fk.parent
    ++ putPositions fk.parent_columns)))

def putFtsIndex (fts : FtsIndexDef) : Bytes :=
  leBytes 4 fts.fts_id.toNat ++ (putPositions fts.columns ++ (putText fts.name
    ++ putText fts.tokenizer))

def putVectorIndex (vi : VectorIndexDef) : Bytes :=
  leBytes 4 vi.vidx_id.toNat ++ (putVarint vi.column ++ (putVarint vi.lists.toNat
    ++ ([vi.metric.asU8] ++ (leBytes 4 vi.dim.toNat ++ (putVarint vi.nprobe ++ (putText vi.name
    ++ putFlag vi.rerank_i8))))))

def putList {α : Type} (put : α → Bytes) (as : List α) : Bytes :=
  putVarint as.length ++ as.flatMap put

def encodeDef (d : TableDef) : Bytes :=
  [SCHEMA_VERSION] ++ (leBytes 4 d.table_id.toNat
    ++ ([(d.rowid_alias.map UInt8.ofNat).getD NO_ALIAS] ++ (putList putColumn d.columns
    ++ (putList putIndex d.indexes ++ (putOrder d.logical_order
    ++ (putList putForeignKey d.foreign_keys ++ (putList putText d.checks
    ++ (putList putFtsIndex d.fts_indexes ++ putList putVectorIndex d.vector_indexes))))))))

/-! ### Reading -/

abbrev SchemaReader := Reader UInt8 Error

def bad (reason : String) : Error := .corruptRecord reason

def takeBytes (n : ℕ) : SchemaReader Bytes := fun buf pos => do
  let b ← getRange buf pos n "esquema truncado"
  .ok (b, pos + n)

def takeByte : SchemaReader UInt8 := do
  let b ← takeBytes 1
  pure (b.headD 0)

def takeFlag : SchemaReader Bool := do
  let b ← takeByte
  pure (b != 0)

def takeU32 : SchemaReader UInt32 := do
  let b ← takeBytes 4
  pure (UInt32.ofNat (leNat b))

def takeCount : SchemaReader ℕ := fun buf pos => takeLen buf pos "esquema truncado"

def takeText (reason : String) : SchemaReader String := do
  let n ← takeCount
  let b ← takeBytes n
  .lift (okOr (fromUtf8 b) (bad reason))

/-- A position below the number of columns. -/
def takePosition (ncols : ℕ) (reason : String) : SchemaReader ℕ := do
  let c ← takeCount
  if c < ncols then pure c else .lift (.error (bad reason))

def takeDefault : SchemaReader (Option Value) := do
  let marker ← takeByte
  if marker = 0 then pure none
  else if marker = 1 then do
    let dlen ← takeCount
    let b ← takeBytes dlen
    let values ← .lift (decodeValues b)
    let v ← .lift (okOr values.head? (bad "default vacío"))
    pure (some v)
  else .lift (.error (bad "marcador de default inválido"))

/-- A flag that earlier versions have not. -/
def takeFlagSince (version since : UInt8) : SchemaReader Bool :=
  if since ≤ version then takeFlag else pure false

def takeColumn (version : UInt8) : SchemaReader ColumnDef := do
  let name ← takeText "nombre de columna no UTF-8"
  let b ← takeByte
  let col_type ← .lift (okOr (colTypeOf b) (bad "tipo de columna desconocido"))
  let not_null ← takeFlag
  let default ← takeDefault
  let dropped ← takeFlagSince version 5
  pure ⟨name, col_type, not_null, default, dropped⟩

/-- Between one and 255 positions of columns. -/
def takePositions (ncols : ℕ) (count range : String) : SchemaReader (List ℕ) := do
  let icols ← takeCount
  if icols = 0 ∨ MAX_COLUMNS < icols then .lift (.error (bad count))
  else (takePosition ncols range).many icols

def takeIndex (ncols : ℕ) : SchemaReader IndexDef := do
  let index_id ← takeU32
  let unique ← takeFlag
  let columns ← takePositions ncols "número de columnas de índice inválido"
    "columna de índice fuera de rango"
  let name ← takeText "nombre de índice no UTF-8"
  pure ⟨name, index_id, columns, unique⟩

/-- Positions below `n`, none of them seen before or twice. -/
def allNew (n : ℕ) : List ℕ → List ℕ → Bool
  | _, [] => true
  | seen, p :: order => decide (p < n) && decide (p ∉ seen) && allNew n (p :: seen) order

def isPermutation (order : List ℕ) (n : ℕ) : Bool := decide (order.length = n) && allNew n [] order

lemma allNew_iff {n : ℕ} {seen order : List ℕ} : allNew n seen order = true ↔
    (∀ p ∈ order, p < n ∧ p ∉ seen) ∧ order.Nodup := by
  induction order generalizing seen with
  | nil => simp [allNew]
  | cons p order ih =>
    rw [allNew, Bool.and_eq_true, Bool.and_eq_true, decide_eq_true_eq, decide_eq_true_eq, ih,
      List.forall_mem_cons, List.nodup_cons]
    simp only [List.mem_cons, not_or, and_assoc]
    constructor
    · rintro ⟨hlt, hseen, hrest, hn⟩
      exact ⟨hlt, hseen, fun q hq => ⟨(hrest q hq).1, (hrest q hq).2.2⟩,
        fun hmem => (hrest p hmem).2.1 rfl, hn⟩
    · rintro ⟨hlt, hseen, hrest, hnew, hn⟩
      exact ⟨hlt, hseen, fun q hq => ⟨(hrest q hq).1, fun heq => hnew (heq ▸ hq), (hrest q hq).2⟩, hn⟩

lemma isPermutation_iff {n : ℕ} {order : List ℕ} :
    isPermutation order n = true ↔ order.Perm (List.range n) := by
  simp only [isPermutation, Bool.and_eq_true, decide_eq_true_eq, allNew_iff, List.not_mem_nil,
    not_false_eq_true, and_true]
  constructor
  · rintro ⟨hlen, hlt, hn⟩
    refine (List.subperm_of_subset hn fun p hp => List.mem_range.2 (hlt p hp)).perm_of_length_le ?_
    rw [List.length_range, hlen]
  · intro h
    exact ⟨h.length_eq.trans List.length_range, fun p hp => List.mem_range.1 (h.mem_iff.1 hp),
      h.nodup_iff.2 List.nodup_range⟩

/-- An order of the columns. -/
abbrev LogicalOrder (n : ℕ) := { order : List ℕ // order.Perm (List.range n) }

def identityOrder (n : ℕ) : LogicalOrder n := ⟨List.range n, List.Perm.refl _⟩

def takeOrder (version : UInt8) (n : ℕ) : SchemaReader (LogicalOrder n) :=
  if 3 ≤ version then do
    let marker ← takeByte
    if marker = 0 then pure (identityOrder n)
    else if marker = 1 then do
      let lo ← takeCount.many n
      if h : isPermutation lo n = true then pure ⟨lo, isPermutation_iff.1 h⟩
      else .lift (.error (bad "orden lógico de columnas inválido"))
    else .lift (.error (bad "marcador de orden lógico inválido"))
  else pure (identityOrder n)

def takeAction : SchemaReader FkAction := do
  let b ← takeByte
  .lift (okOr (FkAction.fromU8 b) (bad "acción de FK desconocida"))

/-- Up to the fifth version a foreign key is one column and the rowid of the parent. -/
def takeForeignKey (version : UInt8) (ncols : ℕ) : SchemaReader ForeignKey :=
  if version ≤ 5 then do
    let column ← takePosition ncols "columna de FK fuera de rango"
    let on_delete ← takeAction
    let parent ← takeText "nombre de padre de FK no UTF-8"
    pure ⟨[column], parent, [], on_delete, .restrict⟩
  else do
    let n ← takeCount
    let columns ← (takePosition ncols "columna de FK fuera de rango").many n
    let on_delete ← takeAction
    let on_update ← takeAction
    let parent ← takeText "nombre de padre de FK no UTF-8"
    let nparent ← takeCount
    let parent_columns ← takeCount.many nparent
    pure ⟨columns, parent, parent_columns, on_delete, on_update⟩

def takeFtsIndex (ncols : ℕ) : SchemaReader FtsIndexDef := do
  let fts_id ← takeU32
  let columns ← takePositions ncols "número de columnas de índice FTS inválido"
    "columna de índice FTS fuera de rango"
  let name ← takeText "nombre de índice FTS no UTF-8"
  let tokenizer ← takeText "nombre de tokenizer no UTF-8"
  pure ⟨name, fts_id, columns, tokenizer⟩

def takeVectorIndex (version : UInt8) (ncols : ℕ) : SchemaReader VectorIndexDef := do
  let vidx_id ← takeU32
  let column ← takePosition ncols "columna de índice vectorial fuera de rango"
  let lists ← takeCount
  let b ← takeByte
  let metric ← .lift (okOr (VectorMetric.fromU8 b) (bad "métrica vectorial desconocida"))
  let dim ← takeU32
  let nprobe ← takeCount
  let name ← takeText "nombre de índice vectorial no UTF-8"
  let rerank_i8 ← takeFlagSince version 10
  pure ⟨name, vidx_id, column, UInt16.ofNat lists, metric, dim, nprobe % 2 ^ 16, rerank_i8⟩

/-- A list behind its length; versions before `since` have none. -/
def takeListSince {α : Type} (version since : UInt8) (item : SchemaReader α) :
    SchemaReader (List α) :=
  if since ≤ version then do
    let n ← takeCount
    item.many n
  else pure []

/-- What is stored of a definition, with the byte for the alias. -/
structure Schema where
  table_id : UInt32
  alias_ : UInt8
  columns : List ColumnDef
  indexes : List IndexDef
  logical_order : LogicalOrder columns.length
  foreign_keys : List ForeignKey
  checks : List String
  fts_indexes : List FtsIndexDef
  vector_indexes : List VectorIndexDef

def takeSchema : SchemaReader Schema := do
  let version ← takeByte
  if 2 ≤ version ∧ version ≤ 10 then do
    let table_id ← takeU32
    let alias_ ← takeByte
    let ncols ← takeCount
    if ncols ≤ MAX_COLUMNS then do
      let columns ← (takeColumn version).many ncols
      let indexes ← takeListSince version 2 (takeIndex columns.length)
      let logical_order ← takeOrder version columns.length
      let foreign_keys ← takeListSince version 4 (takeForeignKey version columns.length)
      let checks ← takeListSince version 7 (takeText "texto de CHECK no UTF-8")
      let fts_indexes ← takeListSince version 8 (takeFtsIndex columns.length)
      let vector_indexes ← takeListSince version 9 (takeVectorIndex version columns.length)
      pure ⟨table_id, alias_, columns, indexes, logical_order, foreign_keys, checks, fts_indexes,
        vector_indexes⟩
    else .lift (.error (bad "demasiadas columnas"))
  else .lift (.error (bad "versión de esquema desconocida"))

def aliasOf (b : UInt8) : Option ℕ := if b = NO_ALIAS then none else some b.toNat

def decodeDef (name : String) (buf : Bytes) : Result TableDef := do
  let (s, pos) ← takeSchema buf 0
  require (pos = buf.length) (bad "bytes sobrantes tras el esquema")
  if h : ∀ i ∈ aliasOf s.alias_, i < s.columns.length then
    .ok ⟨name, s.table_id, aliasOf s.alias_, s.columns, s.indexes, s.fts_indexes, s.vector_indexes,
      s.logical_order.1, s.foreign_keys, s.checks, h, s.logical_order.2⟩
  else .error (bad "alias de rowid fuera de rango")

/-! ### What is written is read back -/

section RoundTrip
variable {ncols : ℕ}

lemma reads_bytes (b : Bytes) : ReadsBack (2 ^ 64) (takeBytes b.length) b b := fun x z hlen => by
  rw [takeBytes, getRange_at rfl hlen]
  rfl

lemma reads_byte (b : UInt8) : ReadsBack (2 ^ 64) takeByte [b] b :=
  ((reads_bytes [b]).bind (.pure b)).of_eq (List.append_nil _)

lemma reads_flag (b : Bool) : ReadsBack (2 ^ 64) takeFlag (putFlag b) b := by
  refine ((reads_byte (if b then 1 else 0)).bind ?_).of_eq (List.append_nil _)
  have h : ((if b then (1 : UInt8) else 0) != 0) = b := by cases b <;> rfl
  rw [h]
  exact .pure b

lemma reads_u32 (v : UInt32) : ReadsBack (2 ^ 64) takeU32 (leBytes 4 v.toNat) v := by
  have hb := reads_bytes (leBytes 4 v.toNat)
  rw [length_leBytes] at hb
  refine (hb.bind ?_).of_eq (List.append_nil _)
  have h : UInt32.ofNat (leNat (leBytes 4 v.toNat)) = v := by
    rw [leNat_leBytes 4 v.toNat_lt, UInt32.ofNat_toNat]
  rw [h]
  exact .pure v

lemma reads_count {v : ℕ} (h : v < 2 ^ 64) : ReadsBack (2 ^ 64) takeCount (putVarint v) v :=
  fun x z _ => takeLen_at rfl h "esquema truncado"

lemma putVarint_ne_nil (v : ℕ) : putVarint v ≠ [] := by
  rw [putVarint, putVarintAux]
  split_ifs <;> simp

lemma reads_text (s : String) (reason : String) :
    ReadsBack (2 ^ 64) (takeText reason) (putText s) s := by
  refine .of_length fun hlen => ?_
  rw [putText, List.length_append] at hlen
  refine ((reads_count (by omega)).bind ((reads_bytes (utf8 s)).bind (.lift ?_))).of_eq (by
    rw [List.append_nil, putText])
  rw [CommitHeader.fromUtf8_utf8, okOr_some]

lemma reads_position {c : ℕ} (hc : c < ncols) (hn : ncols ≤ MAX_COLUMNS) (reason : String) :
    ReadsBack (2 ^ 64) (takePosition ncols reason) (putVarint c) c := by
  rw [show MAX_COLUMNS = 255 from rfl] at hn
  refine ((reads_count (by omega)).bind ?_).of_eq (List.append_nil _)
  rw [if_pos hc]
  exact .pure c

/-- A list behind its length. -/
lemma reads_list {α : Type} {item : SchemaReader α} {put : α → Bytes} {as : List α}
    (h : ∀ a ∈ as, ReadsBack (2 ^ 64) item (put a) a) (hne : ∀ a ∈ as, put a ≠ []) :
    ReadsBack (2 ^ 64) (takeCount >>= item.many) (putList put as) as := by
  refine .of_length fun hlen => ?_
  rw [putList, List.length_append] at hlen
  have := length_le_flatMap hne
  exact (reads_count (by omega)).bind (.many h)

lemma reads_listSince {α : Type} {item : SchemaReader α} {put : α → Bytes} {as : List α}
    {since : UInt8} (hs : since ≤ SCHEMA_VERSION) (h : ∀ a ∈ as, ReadsBack (2 ^ 64) item (put a) a)
    (hne : ∀ a ∈ as, put a ≠ []) :
    ReadsBack (2 ^ 64) (takeListSince SCHEMA_VERSION since item) (putList put as) as := by
  rw [takeListSince, if_pos hs]
  exact reads_list h hne

lemma reads_positions {columns : List ℕ} (hne : columns ≠ []) (hlen : columns.length ≤ MAX_COLUMNS)
    (hlt : ∀ c ∈ columns, c < ncols) (hn : ncols ≤ MAX_COLUMNS) (count range : String) :
    ReadsBack (2 ^ 64) (takePositions ncols count range) (putPositions columns) columns := by
  have hpos := List.length_pos_iff.2 hne
  have hbound := hlen
  rw [show MAX_COLUMNS = 255 from rfl] at hbound
  refine (reads_count (by omega)).bind ?_
  rw [if_neg (by omega)]
  exact .many fun c hc => reads_position (hlt c hc) hn range

lemma reads_default (v : Option Value) : ReadsBack (2 ^ 64) takeDefault (putDefault v) v := by
  cases v with
  | none =>
    refine ((reads_byte 0).bind ?_).of_eq (List.append_nil _)
    rw [if_pos rfl]
    exact .pure none
  | some v =>
    refine .of_length fun hlen => ?_
    simp only [putDefault, List.length_append] at hlen
    refine (reads_byte 1).bind ?_
    have hmarker : ¬ (1 : UInt8) = 0 := by decide
    rw [if_neg hmarker, if_pos rfl]
    have hvalues : decodeValues (encodeValues [v]) = .ok [v] := decodeValues_encode (by omega)
    refine ((reads_count (by omega)).bind ((reads_bytes (encodeValues [v])).bind
      ((ReadsBack.lift hvalues).bind ((ReadsBack.lift rfl).bind (.pure (some v)))))).of_eq ?_
    simp

lemma reads_flagSince {since : UInt8} (hs : since ≤ SCHEMA_VERSION) (b : Bool) :
    ReadsBack (2 ^ 64) (takeFlagSince SCHEMA_VERSION since) (putFlag b) b := by
  rw [takeFlagSince, if_pos hs]
  exact reads_flag b

lemma reads_column (col : ColumnDef) :
    ReadsBack (2 ^ 64) (takeColumn SCHEMA_VERSION) (putColumn col) col := by
  have htype : okOr (colTypeOf (colTypeByte col.col_type)) (bad "tipo de columna desconocido")
      = .ok col.col_type := by rw [colTypeOf_byte, okOr_some]
  have hsince : (5 : UInt8) ≤ SCHEMA_VERSION := by decide
  refine ((reads_text col.name _).bind ((reads_byte (colTypeByte col.col_type)).bind
    ((ReadsBack.lift htype).bind ((reads_flag col.not_null).bind ((reads_default col.default).bind
      ((reads_flagSince hsince col.dropped).bind (.pure col))))))).of_eq ?_
  simp [putColumn]

lemma reads_action (a : FkAction) : ReadsBack (2 ^ 64) takeAction [a.asU8] a := by
  refine ((reads_byte a.asU8).bind (.lift ?_)).of_eq (List.append_nil _)
  rw [FkAction.fromU8_asU8, okOr_some]

/-- The positions and counts in a definition are as its reader asks. -/
structure Codable (d : TableDef) : Prop where
  size : d.columns.length ≤ MAX_COLUMNS
  indexes : ∀ idx ∈ d.indexes, idx.columns ≠ [] ∧ idx.columns.length ≤ MAX_COLUMNS ∧
    ∀ c ∈ idx.columns, c < d.columns.length
  fts : ∀ fts ∈ d.fts_indexes, fts.columns ≠ [] ∧ fts.columns.length ≤ MAX_COLUMNS ∧
    ∀ c ∈ fts.columns, c < d.columns.length
  vectors : ∀ vi ∈ d.vector_indexes, vi.column < d.columns.length ∧ vi.nprobe < 2 ^ 16
  foreign_keys : ∀ fk ∈ d.foreign_keys, (∀ c ∈ fk.columns, c < d.columns.length) ∧
    ∀ c ∈ fk.parent_columns, c < MAX_COLUMNS

lemma leBytes_ne_nil (v : ℕ) (b : Bytes) : leBytes 4 v ++ b ≠ [] := by
  intro h
  have hlen := congrArg List.length h
  simp at hlen

lemma reads_index {idx : IndexDef} (hne : idx.columns ≠ []) (hlen : idx.columns.length ≤ MAX_COLUMNS)
    (hlt : ∀ c ∈ idx.columns, c < ncols) (hn : ncols ≤ MAX_COLUMNS) :
    ReadsBack (2 ^ 64) (takeIndex ncols) (putIndex idx) idx := by
  refine ((reads_u32 idx.index_id).bind ((reads_flag idx.unique).bind
    ((reads_positions hne hlen hlt hn _ _).bind ((reads_text idx.name _).bind
      (.pure idx))))).of_eq ?_
  simp [putIndex]

lemma reads_ftsIndex {fts : FtsIndexDef} (hne : fts.columns ≠ [])
    (hlen : fts.columns.length ≤ MAX_COLUMNS) (hlt : ∀ c ∈ fts.columns, c < ncols)
    (hn : ncols ≤ MAX_COLUMNS) : ReadsBack (2 ^ 64) (takeFtsIndex ncols) (putFtsIndex fts) fts := by
  refine ((reads_u32 fts.fts_id).bind ((reads_positions hne hlen hlt hn _ _).bind
    ((reads_text fts.name _).bind ((reads_text fts.tokenizer _).bind (.pure fts))))).of_eq ?_
  simp [putFtsIndex]

lemma reads_vectorIndex {vi : VectorIndexDef} (hcol : vi.column < ncols) (hprobe : vi.nprobe < 2 ^ 16)
    (hn : ncols ≤ MAX_COLUMNS) :
    ReadsBack (2 ^ 64) (takeVectorIndex SCHEMA_VERSION ncols) (putVectorIndex vi) vi := by
  have hmetric : okOr (VectorMetric.fromU8 vi.metric.asU8) (bad "métrica vectorial desconocida")
      = .ok vi.metric := by rw [VectorMetric.fromU8_asU8, okOr_some]
  have hlists : vi.lists.toNat < 2 ^ 64 := vi.lists.toNat_lt.trans (by decide)
  have hend : ReadsBack (2 ^ 64) (pure ⟨vi.name, vi.vidx_id, vi.column, UInt16.ofNat vi.lists.toNat,
      vi.metric, vi.dim, vi.nprobe % 2 ^ 16, vi.rerank_i8⟩ : SchemaReader VectorIndexDef) [] vi := by
    rw [UInt16.ofNat_toNat, Nat.mod_eq_of_lt hprobe]
    exact .pure vi
  have hsince : (10 : UInt8) ≤ SCHEMA_VERSION := by decide
  refine ((reads_u32 vi.vidx_id).bind ((reads_position hcol hn _).bind ((reads_count hlists).bind
    ((reads_byte vi.metric.asU8).bind ((ReadsBack.lift hmetric).bind ((reads_u32 vi.dim).bind
      ((reads_count (hprobe.trans (by decide))).bind ((reads_text vi.name _).bind
        ((reads_flagSince hsince vi.rerank_i8).bind hend))))))))).of_eq ?_
  simp [putVectorIndex]

lemma reads_foreignKey {fk : ForeignKey} (hlt : ∀ c ∈ fk.columns, c < ncols)
    (hparent : ∀ c ∈ fk.parent_columns, c < MAX_COLUMNS) (hn : ncols ≤ MAX_COLUMNS) :
    ReadsBack (2 ^ 64) (takeForeignKey SCHEMA_VERSION ncols) (putForeignKey fk) fk := by
  have hversion : ¬ SCHEMA_VERSION ≤ 5 := by decide
  rw [takeForeignKey, if_neg hversion]
  refine .of_length fun hlen => ?_
  have hcols := @length_le_flatMap _ _ putVarint fk.columns fun c _ => putVarint_ne_nil c
  have hparents := @length_le_flatMap _ _ putVarint fk.parent_columns fun c _ => putVarint_ne_nil c
  simp only [putForeignKey, putPositions, List.length_append] at hlen
  have hvalue {c : ℕ} (hc : c < MAX_COLUMNS) : c < 2 ^ 64 := hc.trans (by decide)
  refine ((reads_count (by omega)).bind ((ReadsBack.many fun c hc => reads_position (hlt c hc) hn _).bind
    ((reads_action fk.on_delete).bind ((reads_action fk.on_update).bind
      ((reads_text fk.parent _).bind ((reads_count (by omega)).bind
        ((ReadsBack.many fun c hc => reads_count (hvalue (hparent c hc))).bind (.pure fk)))))))).of_eq ?_
  simp [putForeignKey, putPositions]

lemma reads_order {order : List ℕ} (h : order.Perm (List.range ncols)) (hn : ncols ≤ MAX_COLUMNS) :
    ReadsBack (2 ^ 64) (takeOrder SCHEMA_VERSION ncols) (putOrder order) ⟨order, h⟩ := by
  have hlen : order.length = ncols := h.length_eq.trans List.length_range
  have hsince : (3 : UInt8) ≤ SCHEMA_VERSION := by decide
  rw [takeOrder, if_pos hsince, putOrder, hlen]
  split_ifs with hid
  · refine ((reads_byte 0).bind ?_).of_eq (List.append_nil _)
    subst hid
    exact .pure _
  · refine ((reads_byte 1).bind ?_)
    have hmarker : ¬ (1 : UInt8) = 0 := by decide
    rw [if_neg hmarker, if_pos rfl]
    have hvalue (p : ℕ) (hp : p ∈ order) : p < 2 ^ 64 := by
      have hlt := List.mem_range.1 (h.mem_iff.1 hp)
      rw [show MAX_COLUMNS = 255 from rfl] at hn
      omega
    have hmany := ReadsBack.many fun p hp => reads_count (hvalue p hp)
    rw [hlen] at hmany
    refine (hmany.bind ?_).of_eq (List.append_nil _)
    rw [dif_pos (isPermutation_iff.2 h)]
    exact .pure _

end RoundTrip

end Catalog

end Arkeion
