import Arkeion.Fts.Index
import Arkeion.SchemaCodec
import Arkeion.TableScan

/-!
Writing the rows of a table: one row with its entries in all indexes of the table, and many rows
at once, whose index entries are put off and written in the order of their keys.

The parts that compute with floats, the distances of vectors and their codes, are parameters.
-/

namespace Arkeion

open Arkeion.Lib

/-- The bits of the double closest to a natural number, the even one of two. -/
def F64.bitsOfNat (m : ℕ) : ℕ :=
  if m = 0 then 0
  else
    let e := Nat.log2 m
    let mantissa :=
      if e ≤ 52 then m * 2 ^ (52 - e)
      else
        let unit := 2 ^ (e - 52)
        let q := m / unit
        if unit < 2 * (m % unit) ∨ 2 * (m % unit) = unit ∧ q % 2 = 1 then q + 1 else q
    (e + 1022) * 2 ^ 52 + mantissa

/-- `n as f64`. -/
def F64.ofInt64 (n : Int64) : F64 :=
  ⟨UInt64.ofNat (F64.bitsOfNat n.toInt.natAbs) ||| if n < 0 then SIGN else 0⟩

namespace Catalog

/-! ### The record of a row -/

/-- A value in a column of a type; an integer becomes a double. -/
def coerce : ColType → Value → Option Value
  | .integer, .integer n => some (.integer n)
  | .real, .integer n => some (.real (.ofInt64 n))
  | .real, .real f => some (.real f)
  | .text, .text s => some (.text s)
  | .blob, .blob b => some (.blob b)
  | .boolean, .bool b => some (.bool b)
  | _, _ => none

/-- What stands in a column for the values of a row: nothing in that of the rowid, the default
where there is no value. -/
def resolveCol (d : TableDef) (values : List Value) (i : ℕ) : Result Value :=
  if d.rowid_alias = some i then .ok .null
  else do
    let col ← okOr d.columns[i]? (.panic "index out of bounds")
    match values[i]?.getD col.fill with
    | .null =>
      if col.not_null then .error (.constraint "NULL en columna NOT NULL") else .ok .null
    | v => okOr (coerce col.col_type v) (.constraint "tipo de valor incompatible con la columna")

def resolveCols (d : TableDef) (values : List Value) : List ℕ → Result (List Value)
  | [] => .ok []
  | i :: cols => do
    let v ← resolveCol d values i
    let vs ← resolveCols d values cols
    .ok (v :: vs)

def validatedRecord (d : TableDef) (values : List Value) : Result (List Value) := do
  require (values.length ≤ d.columns.length) (.invalidInput "más valores que columnas")
  resolveCols d values (List.range d.columns.length)

/-! ### The rowid of a row -/

def explicitRowid (d : TableDef) (values : List Value) : Result (Option Int64) :=
  match d.rowid_alias with
  | none => .ok none
  | some i =>
    match values[i]? with
    | none => .ok none
    | some .null => .ok none
    | some (.integer n) => .ok (some n)
    | some _ => .error (.constraint "la PRIMARY KEY debe ser un entero")

def readCounter (table_id : UInt32) : TreeM Int64 := do
  let v ← MapProgram.read (counterKey table_id)
  match v with
  | some v => do
    require (v.length = 8) (.corruptRecord "contador de rowid")
    pure (UInt64.ofNat (leNat v)).toInt64
  | none => pure 1

/-- The rowid and the next number of the counter. The rows there are have smaller ones, unless
the counter stands at its end. -/
def resolveRowid (table_id : UInt32) (explicit : Option Int64) (next : Int64) :
    TreeM (Int64 × Int64) :=
  match explicit with
  | none => do
    require (next ≠ Int64.maxValue) (.constraint "rowids agotados")
    pure (next, next + 1)
  | some n => do
    if n < next ∨ next = Int64.maxValue then do
      let row ← MapProgram.read (rowKey table_id n)
      require (row.isSome = false) (.constraint "rowid duplicado")
    pure (n, if n < next then next else if n = Int64.maxValue then n else n + 1)

def writeCounter (table_id : UInt32) (next : Int64) : TreeM Unit :=
  MapProgram.write (counterKey table_id) (leBytes 8 next.toUInt64.toNat)

/-! ### The entries of indexes -/

/-- `for_each_prefix`: the keys with a prefix, in order. -/
def keysWithPrefix (p : Bytes) : TreeM (List Bytes) := do
  let kvs ← MapProgram.readFrom p
  pure ((kvs.takeWhile fun kv => decide (p <+: kv.1)).map Prod.fst)

def rowidFromIndexKey (key : Bytes) : Result Int64 :=
  okOr (if 8 ≤ key.length then rowidFromBe (key.drop (key.length - 8)) else none)
    (.corruptRecord "rowid en entrada de índice")

def rowidsOf : List Bytes → Result (List Int64)
  | [] => .ok []
  | key :: keys => do
    let rowid ← rowidFromIndexKey key
    let rowids ← rowidsOf keys
    .ok (rowid :: rowids)

def indexScanEq (idx : IndexDef) (values : List Value) : TreeM (List Int64) := do
  let keys ← keysWithPrefix (indexValuePrefix idx values)
  rowidsOf keys

/-- Whether a row other than this one has the values of the prefix. -/
def valueHeldByOther (p : Bytes) (rowid : Int64) : TreeM Bool := do
  let keys ← keysWithPrefix p
  let rowids ← rowidsOf keys
  pure (rowids.any fun r => r ≠ rowid)

def anyIndexedNull (record : List Value) : List ℕ → Result Bool
  | [] => .ok false
  | c :: cols => do
    let v ← okOr record[c]? (.panic "index out of bounds")
    if v = .null then .ok true else anyIndexedNull record cols

def UNIQUE_VIOLATION : Error := .constraint "violación de restricción UNIQUE"

/-- `NULL` is not held against another one. -/
def checkUnique (idx : IndexDef) (rowid : Int64) (record : List Value) : TreeM Unit := do
  let null ← anyIndexedNull record idx.columns
  if null = false then do
    let p ← pushColumns record idx.columns (indexIdPrefix idx.index_id)
    let held ← valueHeldByOther p rowid
    require (held = false) UNIQUE_VIOLATION

def insertIndexEntry (idx : IndexDef) (rowid : Int64) (record : List Value) : TreeM Unit := do
  if idx.unique then checkUnique idx rowid record
  let key ← indexEntryKey idx record rowid
  MapProgram.write key []

def insertIndexEntries (rowid : Int64) (record : List Value) : List IndexDef → TreeM Unit
  | [] => pure ()
  | idx :: indexes => do
    insertIndexEntry idx rowid record
    insertIndexEntries rowid record indexes

def deleteIndexEntries (rowid : Int64) (record : List Value) : List IndexDef → TreeM Unit
  | [] => pure ()
  | idx :: indexes => do
    let key ← indexEntryKey idx record rowid
    let _ ← MapProgram.erase key
    deleteIndexEntries rowid record indexes

/-! ### The entries of vectors -/

/-- What is computed with vectors; their components are the bits of floats. -/
structure VectorMath where
  scaled : UInt32 → UInt8 → UInt32
  normalize : List UInt32 → List UInt32
  nearestCentroid : List (List UInt32) → List UInt32 → ℕ
  pqEncode : Bytes → Option (List UInt32 → Bytes)
  packI8 : List UInt32 → Bytes

def TAG_F32 : UInt8 := 0x00
def TAG_I8 : UInt8 := 0x01

section Entries
variable (M : VectorMath) (tokenize : String → String → List Token)

/-- The components of a vector: of four bytes each, or of one that a factor before them scales. -/
def unpack : Bytes → Result (List UInt32)
  | [] => .error (.invalidInput "BLOB de vector con tag desconocido")
  | tag :: rest =>
    if tag = TAG_F32 then do
      require (rest.length % 4 = 0) (.invalidInput "BLOB de vector f32 mal formado")
      .ok ((Btree.chunks 4 rest).map fun c => UInt32.ofNat (leNat c))
    else if tag = TAG_I8 then do
      let scale ← okOr (slice? rest 0 4) (.invalidInput "BLOB de vector int8 sin escala")
      .ok ((rest.drop 4).map (M.scaled (UInt32.ofNat (leNat scale))))
    else .error (.invalidInput "BLOB de vector con tag desconocido")

def rowVector (record : List Value) (column : ℕ) (metric : VectorMetric) :
    Result (Option (List UInt32)) :=
  match record[column]? with
  | some (.blob b) => do
    let v ← unpack M b
    .ok (some (if metric = .cosine then M.normalize v else v))
  | _ => .ok none

def unpackAll : List Bytes → Result (List (List UInt32))
  | [] => .ok []
  | b :: bs => do
    let v ← unpack M b
    let vs ← unpackAll bs
    .ok (v :: vs)

def readCentroids (vidx_id : UInt32) : TreeM (List (List UInt32)) := do
  let kvs ← MapProgram.readFrom (vecSubPrefix vidx_id VEC_CENTROID)
  unpackAll M ((kvs.takeWhile fun kv =>
    decide (vecSubPrefix vidx_id VEC_CENTROID <+: kv.1)).map Prod.snd)

/-- `read_pq`, and the code of a vector. -/
def vectorCode (vidx_id : UInt32) (v : List UInt32) : TreeM Bytes := do
  let pq ← MapProgram.read (vecPqKey vidx_id)
  pure (match pq.bind M.pqEncode with
    | some encode => encode v
    | none => M.packI8 v)

def applyVectorRow (vidx : VectorIndexDef) (rowid : Int64) (record : List Value) (add : Bool) :
    TreeM Unit := do
  let v ← rowVector M record vidx.column vidx.metric
  match v with
  | none => pure ()
  | some v => do
    let centroids ← readCentroids M vidx.vidx_id
    if centroids = [] then pure ()
    else do
      let key := vecPostingKey vidx.vidx_id (UInt16.ofNat (M.nearestCentroid centroids v)) rowid
      if add then do
        let value ← vectorCode M vidx.vidx_id v
        MapProgram.write key value
      else do
        let _ ← MapProgram.erase key
        pure ()

/-- `insert_vector_entries` and `delete_vector_entries`. -/
def applyVectorEntries (rowid : Int64) (record : List Value) (add : Bool) :
    List VectorIndexDef → TreeM Unit
  | [] => pure ()
  | vidx :: indexes => do
    applyVectorRow M vidx rowid record add
    applyVectorEntries rowid record add indexes

/-- `insert_fts_entries` and `delete_fts_entries`. -/
def applyFtsEntries (rowid : Int64) (record : List Value) (add : Bool) :
    List FtsIndexDef → TreeM Unit
  | [] => pure ()
  | fts :: indexes => do
    applyFtsRow tokenize fts rowid record add
    applyFtsEntries rowid record add indexes

/-! ### One row -/

variable (d : TableDef)

/-- Only the row. -/
def putRowData (rowid : Int64) (values : List Value) : TreeM Unit := do
  let record ← validatedRecord d values
  MapProgram.write (rowKey d.table_id rowid) (encodeValues record)

/-- The row and its entries in all indexes. -/
def putRow (rowid : Int64) (values : List Value) : TreeM Unit := do
  let record ← validatedRecord d values
  MapProgram.write (rowKey d.table_id rowid) (encodeValues record)
  insertIndexEntries rowid record d.indexes
  applyFtsEntries tokenize rowid record true d.fts_indexes
  applyVectorEntries M rowid record true d.vector_indexes

def putRowBuffered (rowid : Int64) (values : List Value) : TreeM Unit :=
  if d.indexes = [] ∧ d.fts_indexes = [] ∧ d.vector_indexes = [] then putRowData d rowid values
  else putRow M tokenize d rowid values

/-- `catalog::update_row`: whether the row was there. -/
def overwriteRow (rowid : Int64) (values : List Value) : TreeM Bool := do
  let old ← MapProgram.read (rowKey d.table_id rowid)
  match old with
  | none => pure false
  | some bytes => do
    let record ← validatedRecord d values
    if ¬ (d.indexes = [] ∧ d.fts_indexes = [] ∧ d.vector_indexes = []) then do
      let old ← decodeValues bytes
      let old ← finishRow d rowid old
      deleteIndexEntries rowid old d.indexes
      applyFtsEntries tokenize rowid old false d.fts_indexes
      applyVectorEntries M rowid old false d.vector_indexes
    MapProgram.write (rowKey d.table_id rowid) (encodeValues record)
    insertIndexEntries rowid record d.indexes
    applyFtsEntries tokenize rowid record true d.fts_indexes
    applyVectorEntries M rowid record true d.vector_indexes
    pure true

/-- `get_row`. -/
def readRow (rowid : Int64) : TreeM (Option Row) := do
  let bytes ← MapProgram.read (rowKey d.table_id rowid)
  match bytes with
  | none => pure none
  | some bytes => do
    let values ← decodeValues bytes
    let row ← finishRow d rowid values
    pure (some row)

/-! ### Foreign keys -/

def getTable (name : String) : TreeM (Option TableDef) := do
  let bytes ← MapProgram.read (tableKey name)
  match bytes with
  | none => pure none
  | some bytes => do
    let def_ ← decodeDef name bytes
    pure (some def_)

def coveringUniqueIndex (parent : TableDef) (parent_cols : List ℕ) : Option IndexDef :=
  parent.indexes.find? fun ix => ix.unique && decide (ix.columns.length = parent_cols.length) &&
    parent_cols.all fun p => ix.columns.contains p

/-- The values of the child in the order of the columns of the index. -/
def fkLookupKey (fk : ForeignKey) (values : List Value) : List ℕ → Result (List Value)
  | [] => .ok []
  | ic :: cols => do
    let k ← okOr (fk.parent_columns.findIdx? fun p => p == ic)
      (.panic "el índice cubre las columnas de la FK")
    let c ← okOr fk.columns[k]? (.panic "index out of bounds")
    let v ← okOr values[c]? (.panic "index out of bounds")
    let vs ← fkLookupKey fk values cols
    .ok (v :: vs)

/-- The values of the columns of a foreign key, `none` when one of them is `NULL`. -/
def childValues (values : List Value) : List ℕ → Option (List Value)
  | [] => some []
  | c :: cols =>
    match values[c]? with
    | none => none
    | some .null => none
    | some v => (childValues values cols).map fun vs => v :: vs

/-- Whether the row a foreign key refers to is there. -/
def parentExists (fk : ForeignKey) (values child_vals : List Value) : TreeM Bool := do
  let parent ← getTable fk.parent
  let parent ← okOr parent (.constraint "tabla padre de FK desconocida")
  if fk.parent_columns = [] then
    match child_vals with
    | [] => liftM (.error (.panic "index out of bounds") : Result Bool)
    | .integer n :: _ => do
      let row ← readRow parent n
      pure row.isSome
    | _ => liftM (.error (.constraint "una columna FK a la PK debe ser INTEGER") : Result Bool)
  else do
    let idx ← okOr (coveringUniqueIndex parent fk.parent_columns)
      (.constraint "la FK referencia columnas sin índice UNIQUE")
    let key ← fkLookupKey fk values idx.columns
    let rowids ← indexScanEq idx key
    pure (rowids ≠ [])

def fkCheckParentsExist (values : List Value) : List ForeignKey → TreeM Unit
  | [] => pure ()
  | fk :: fks => do
    match childValues values fk.columns with
    | none => pure ()
    | some child_vals => do
      let exists_ ← parentExists fk values child_vals
      require (exists_ = true)
        (.constraint "violación de clave foránea: la fila padre no existe")
    fkCheckParentsExist values fks

/-! ### Inserting -/

/-- The next rowid: that of the transaction, or the one of the tree. -/
def nextCounter (cache : Option Int64) : TreeM Int64 :=
  match cache with
  | some next => pure next
  | none => readCounter d.table_id

/-- The rowid, and the counter the transaction keeps from then on. -/
def insertRow (values : List Value) (cache : Option Int64) : TreeM (Int64 × Option Int64) := do
  fkCheckParentsExist values d.foreign_keys
  let explicit ← explicitRowid d values
  let next ← nextCounter d cache
  let (rowid, new_next) ← resolveRowid d.table_id explicit next
  putRowBuffered M tokenize d rowid values
  pure (rowid, some new_next)

/-- Rows one after the other. -/
def insertEach : List (List Value) → Option Int64 → TreeM (Option Int64)
  | [], cache => pure cache
  | values :: rows, cache => do
    let (_, cache) ← insertRow M tokenize d values cache
    insertEach rows cache

/-- The counter of the transaction is written when it commits. -/
def flushCounter (cache : Option Int64) : TreeM Unit :=
  match cache with
  | none => pure ()
  | some next => writeCounter d.table_id next

/-! ### Many rows at once -/

/-- The key of an entry, and whether one of its values is `NULL`. -/
def resolvedIndexEntry (values : List Value) (idx : IndexDef) (rowid : Int64) :
    Result (Bytes × Bool) := do
  let vs ← resolveCols d values idx.columns
  .ok (indexValuePrefix idx vs ++ rowidBe rowid, vs.any fun v => v = .null)

/-- The entries of a row, one behind those of each index. -/
def pushEntries (values : List Value) (rowid : Int64) :
    List IndexDef → List (List (Bytes × Bool)) → Result (List (List (Bytes × Bool)))
  | idx :: indexes, entries :: pending => do
    let e ← resolvedIndexEntry d values idx rowid
    let pending ← pushEntries values rowid indexes pending
    .ok ((entries ++ [e]) :: pending)
  | _, pending => .ok pending

/-- The rows, with their entries for full text and vectors; the entries of the other indexes are
gathered. The vectors are those of the values as they are given. -/
def bulkRows : List (List Value) → Int64 → List (List (Bytes × Bool)) →
    TreeM (Int64 × List (List (Bytes × Bool)))
  | [], next, pending => pure (next, pending)
  | values :: rows, next, pending => do
    let explicit ← explicitRowid d values
    let (rowid, next) ← resolveRowid d.table_id explicit next
    putRowData d rowid values
    let pending ← pushEntries d values rowid d.indexes pending
    if d.fts_indexes ≠ [] then do
      let record ← validatedRecord d values
      applyFtsEntries tokenize rowid record true d.fts_indexes
    if d.vector_indexes ≠ [] then
      applyVectorEntries M rowid values true d.vector_indexes
    bulkRows rows next pending

/-- A key without its rowid. -/
def valuePart (key : Bytes) : Bytes := key.take (key.length - 8)

/-- No two entries next to each other have the same values. -/
def checkAdjacent : List (Bytes × Bool) → Result Unit
  | a :: b :: entries => do
    require (¬ (a.2 = false ∧ b.2 = false ∧ valuePart a.1 = valuePart b.1)) UNIQUE_VIOLATION
    checkAdjacent (b :: entries)
  | _ => .ok ()

/-- No value is held by a row that was there, each being looked for once. -/
def probeEntries : List (Bytes × Bool) → Option Bytes → TreeM Unit
  | [], _ => pure ()
  | (key, has_null) :: entries, prev => do
    if has_null = true ∨ prev = some (valuePart key) then probeEntries entries prev
    else do
      let rowid ← rowidFromIndexKey key
      let held ← valueHeldByOther (valuePart key) rowid
      require (held = false) UNIQUE_VIOLATION
      probeEntries entries (some (valuePart key))

def writeKeys : List (Bytes × Bool) → TreeM Unit
  | [] => pure ()
  | (key, _) :: entries => do
    MapProgram.write key []
    writeKeys entries

/-- `sort_unstable` of pairs. -/
def sortEntries (entries : List (Bytes × Bool)) : List (Bytes × Bool) :=
  entries.mergeSort fun a b => decide (a.1 < b.1 ∨ a.1 = b.1 ∧ a.2 ≤ b.2)

/-- The entries of one index that were put off. -/
def flushIndexEntries (idx : IndexDef) (entries : List (Bytes × Bool)) : TreeM Unit := do
  let entries := sortEntries entries
  if idx.unique then do
    checkAdjacent entries
    probeEntries entries none
  writeKeys entries

def flushAll : List IndexDef → List (List (Bytes × Bool)) → TreeM Unit
  | idx :: indexes, entries :: pending => do
    flushIndexEntries idx entries
    flushAll indexes pending
  | _, _ => pure ()

/-- `WriteTx::insert_rows`: the number of rows, and the counter the transaction keeps. -/
def insertRows (rows : List (List Value)) (cache : Option Int64) : TreeM (ℕ × Option Int64) := do
  let next ← nextCounter d cache
  let (next, pending) ← bulkRows M tokenize d rows next (d.indexes.map fun _ => [])
  flushAll d.indexes pending
  pure (rows.length, some next)

end Entries

end Catalog

end Arkeion
