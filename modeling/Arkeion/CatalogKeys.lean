import Arkeion.KeyencSpec

/-!
The keys of the catalog, of rows and of indexes.

A key says by its first bytes what it is the key of. The keys of an index are in the order of the
indexed values and then of the rowids, those of rows in the order of the tables and then of the
rowids.
-/

namespace Arkeion

open Arkeion.Lib

namespace Catalog

/-! ### The keys as the code builds them -/

def KS_CATALOG : UInt8 := 0x00
def KS_INDEX : UInt8 := 0x02
def KS_FTS : UInt8 := 0x03
def KS_VECTOR : UInt8 := 0x04
def CAT_META : UInt8 := 0x00
def CAT_TABLE : UInt8 := 0x01
def CAT_COUNTER : UInt8 := 0x02
def CAT_INDEX_COUNTER : UInt8 := 0x03
def CAT_INDEX_REF : UInt8 := 0x04
def CAT_VIEW : UInt8 := 0x05
def CAT_TRIGGER : UInt8 := 0x06
def CAT_FTS_COUNTER : UInt8 := 0x07
def CAT_FTS_REF : UInt8 := 0x08
def CAT_VECTOR_COUNTER : UInt8 := 0x09
def CAT_VECTOR_REF : UInt8 := 0x0A
def FTS_POSTING : UInt8 := 0x00
def FTS_DOCLEN : UInt8 := 0x01
def FTS_GLOBAL : UInt8 := 0x02
def FTS_DF : UInt8 := 0x03
def FTS_TERM_DICT : UInt8 := 0x04
def FTS_TERM_COUNTER : UInt8 := 0x05
def VEC_CENTROID : UInt8 := 0x00
def VEC_POSTING : UInt8 := 0x01
def VEC_PQ : UInt8 := 0x02

def metaKey : Bytes := [KS_CATALOG, CAT_META]
def tableKey (name : String) : Bytes := KS_CATALOG :: CAT_TABLE :: utf8 name
def counterKey (table_id : UInt32) : Bytes := KS_CATALOG :: CAT_COUNTER :: beBytes 4 table_id.toNat
def indexCounterKey : Bytes := [KS_CATALOG, CAT_INDEX_COUNTER]
def indexRefKey (name : String) : Bytes := KS_CATALOG :: CAT_INDEX_REF :: utf8 name
def viewKey (name : String) : Bytes := KS_CATALOG :: CAT_VIEW :: utf8 name
def triggerKey (name : String) : Bytes := KS_CATALOG :: CAT_TRIGGER :: utf8 name
def ftsCounterKey : Bytes := [KS_CATALOG, CAT_FTS_COUNTER]
def ftsRefKey (name : String) : Bytes := KS_CATALOG :: CAT_FTS_REF :: utf8 name
def vectorCounterKey : Bytes := [KS_CATALOG, CAT_VECTOR_COUNTER]
def vectorRefKey (name : String) : Bytes := KS_CATALOG :: CAT_VECTOR_REF :: utf8 name

def rowPrefix (table_id : UInt32) : Bytes := encodeOint (Int64.ofNat table_id.toNat)

def rowKey (table_id : UInt32) (rowid : Int64) : Bytes := rowPrefix table_id ++ encodeOint rowid

/-- `u32::try_from` of a `i64`. -/
def tryU32 (v : Int64) : Option UInt32 :=
  if 0 ≤ v.toInt ∧ v.toInt < 2 ^ 32 then some (UInt32.ofNat v.toInt.toNat) else none

def decodeRowKey (key : Bytes) : Option (UInt32 × Int64) := do
  let first ← key[0]?
  if first < 0x80 then none
  else do
    let (table_id, pos) ← decodeOint key 0
    let (rowid, _) ← decodeOint key pos
    let table_id ← tryU32 table_id
    some (table_id, rowid)

structure IndexDef where
  name : String
  index_id : UInt32
  columns : List ℕ
  unique : Bool
  deriving DecidableEq, Repr

def indexIdPrefix (index_id : UInt32) : Bytes := KS_INDEX :: beBytes 4 index_id.toNat

def indexValuePrefix (idx : IndexDef) (values : List Value) : Bytes :=
  values.foldl (fun k v => k ++ encodeIndexValue v) (indexIdPrefix idx.index_id)

/-- The codes of columns of a record, behind what is there. -/
def pushColumns (record : List Value) : List ℕ → Bytes → Result Bytes
  | [], k => .ok k
  | col :: cols, k => do
    let v ← okOr record[col]? (.panic "index out of bounds")
    pushColumns record cols (k ++ encodeIndexValue v)

def indexEntryKey (idx : IndexDef) (record : List Value) (rowid : Int64) : Result Bytes := do
  let k ← pushColumns record idx.columns (indexIdPrefix idx.index_id)
  .ok (k ++ rowidBe rowid)

def ftsSubPrefix (fts_id : UInt32) (sub : UInt8) : Bytes :=
  KS_FTS :: beBytes 4 fts_id.toNat ++ [sub]

def ftsTermPostingPrefix (fts_id term_id : UInt32) : Bytes :=
  ftsSubPrefix fts_id FTS_POSTING ++ encodeOint (Int64.ofNat term_id.toNat)

def ftsPostingKey (fts_id term_id : UInt32) (rowid : Int64) : Bytes :=
  ftsTermPostingPrefix fts_id term_id ++ encodeOint rowid

def ftsTermDictKey (fts_id : UInt32) (term : String) : Bytes :=
  ftsSubPrefix fts_id FTS_TERM_DICT ++ encodeIndexValue (.text term)

def ftsTermCounterKey (fts_id : UInt32) : Bytes := ftsSubPrefix fts_id FTS_TERM_COUNTER

def ftsDoclenKey (fts_id : UInt32) (rowid : Int64) : Bytes :=
  ftsSubPrefix fts_id FTS_DOCLEN ++ rowidBe rowid

def ftsDfKey (fts_id : UInt32) (term : String) : Bytes :=
  ftsSubPrefix fts_id FTS_DF ++ encodeIndexValue (.text term)

def ftsGlobalKey (fts_id : UInt32) : Bytes := ftsSubPrefix fts_id FTS_GLOBAL

def vecSubPrefix (vidx_id : UInt32) (sub : UInt8) : Bytes :=
  KS_VECTOR :: beBytes 4 vidx_id.toNat ++ [sub]

def vecCentroidKey (vidx_id : UInt32) (cid : UInt16) : Bytes :=
  vecSubPrefix vidx_id VEC_CENTROID ++ beBytes 2 cid.toNat

def vecPostingKey (vidx_id : UInt32) (cid : UInt16) (rowid : Int64) : Bytes :=
  vecSubPrefix vidx_id VEC_POSTING ++ beBytes 2 cid.toNat ++ rowidBe rowid

def vecPqKey (vidx_id : UInt32) : Bytes := vecSubPrefix vidx_id VEC_PQ

end Catalog

end Arkeion
