import Arkeion.CommitWrite
import Arkeion.Record

/-!
Rows as records: the number of columns, a tag for each and the payloads behind them.

A record is read back whole, or only in some columns; columns behind the end of a record were
added to the table after the row was written.
-/

namespace Arkeion

open Arkeion.Lib

def TAG_NULL : UInt8 := 0
def TAG_FALSE : UInt8 := 1
def TAG_TRUE : UInt8 := 2
def TAG_INT : UInt8 := 3
def TAG_REAL : UInt8 := 4
def TAG_TEXT : UInt8 := 5
def TAG_BLOB : UInt8 := 6

def zigzag (v : Int64) : UInt64 := ((v <<< 1) ^^^ (v >>> 63)).toUInt64

def unzigzag (u : UInt64) : Int64 := (u >>> 1).toInt64 ^^^ -(u &&& 1).toInt64

/-! ### Writing -/

def tagOf : Value → UInt8
  | .null => TAG_NULL
  | .bool false => TAG_FALSE
  | .bool true => TAG_TRUE
  | .integer _ => TAG_INT
  | .real _ => TAG_REAL
  | .text _ => TAG_TEXT
  | .blob _ => TAG_BLOB

def payloadOf : Value → Bytes
  | .null => []
  | .bool _ => []
  | .integer n => putVarint (zigzag n).toNat
  | .real f => leBytes 8 f.bits.toNat
  | .text s => putVarint (utf8 s).length ++ utf8 s
  | .blob b => putVarint b.length ++ b

def encodeValues (values : List Value) : Bytes :=
  putVarint values.length ++ values.map tagOf ++ values.flatMap payloadOf

/-! ### Reading -/

/-- `buf.get(pos..pos + len)`. -/
def getRange (buf : Bytes) (pos len : ℕ) (reason : String) : Result Bytes :=
  if 2 ^ 64 ≤ pos + len then .error (.panic "attempt to add with overflow")
  else okOr (slice? buf pos len) (.corruptRecord reason)

def takeLen (buf : Bytes) (pos : ℕ) (reason : String) : Result (ℕ × ℕ) :=
  okOr (takeVarint buf pos) (.corruptRecord reason)

/-- The value of a tag and the position behind its payload. -/
def decodePayload (buf : Bytes) (pos : ℕ) (tag : UInt8) : Result (Value × ℕ) :=
  if tag = TAG_NULL then .ok (.null, pos)
  else if tag = TAG_FALSE then .ok (.bool false, pos)
  else if tag = TAG_TRUE then .ok (.bool true, pos)
  else if tag = TAG_INT then do
    let (u, pos) ← takeLen buf pos "entero truncado"
    .ok (.integer (unzigzag (UInt64.ofNat u)), pos)
  else if tag = TAG_REAL then do
    let bytes ← getRange buf pos 8 "real truncado"
    .ok (.real ⟨UInt64.ofNat (leNat bytes)⟩, pos + 8)
  else if tag = TAG_TEXT then do
    let (len, pos) ← takeLen buf pos "longitud de texto truncada"
    let bytes ← getRange buf pos len "texto truncado"
    let s ← okOr (fromUtf8 bytes) (.corruptRecord "texto no UTF-8")
    .ok (.text s, pos + len)
  else if tag = TAG_BLOB then do
    let (len, pos) ← takeLen buf pos "longitud de blob truncada"
    let bytes ← getRange buf pos len "blob truncado"
    .ok (.blob bytes, pos + len)
  else .error (.corruptRecord "tag de valor desconocido")

def skipPayload (buf : Bytes) (pos : ℕ) (tag : UInt8) : Result ℕ :=
  if tag = TAG_NULL ∨ tag = TAG_FALSE ∨ tag = TAG_TRUE then .ok pos
  else if tag = TAG_INT then do
    let (_, pos) ← takeLen buf pos "entero truncado"
    .ok pos
  else if tag = TAG_REAL then do
    let _ ← getRange buf pos 8 "real truncado"
    .ok (pos + 8)
  else if tag = TAG_TEXT ∨ tag = TAG_BLOB then do
    let (len, pos) ← takeLen buf pos "longitud truncada"
    let _ ← getRange buf pos len "payload truncado"
    .ok (pos + len)
  else .error (.corruptRecord "tag de valor desconocido")

/-- The number of columns, their tags and the position of the payloads. -/
def takeHeader (buf : Bytes) : Result (List UInt8 × ℕ) := do
  let (ncols, pos) ← takeLen buf 0 "cabecera de registro truncada"
  let tags ← getRange buf pos ncols "tags truncados"
  .ok (tags, pos + ncols)

def decodePayloads (buf : Bytes) : List UInt8 → ℕ → Result (List Value × ℕ)
  | [], pos => .ok ([], pos)
  | tag :: tags, pos => do
    let (v, pos) ← decodePayload buf pos tag
    let (vs, pos) ← decodePayloads buf tags pos
    .ok (v :: vs, pos)

def decodeValues (buf : Bytes) : Result (List Value) := do
  let (tags, pos) ← takeHeader buf
  let (values, pos) ← decodePayloads buf tags pos
  if pos = buf.length then .ok values
  else .error (.corruptRecord "bytes sobrantes tras el registro")

/-- The loop of `decode_cols_sorted` from the column `i` on, for what is still wanted. -/
def decodeWanted (buf : Bytes) : List UInt8 → ℕ → ℕ → List ℕ → Result (List (Option Value))
  | _, _, _, [] => .ok []
  | [], _, _, wanted => .ok (wanted.map fun _ => none)
  | tag :: tags, pos, i, w :: wanted =>
    if w = i then do
      let (v, pos) ← decodePayload buf pos tag
      let out ← decodeWanted buf tags pos (i + 1) wanted
      .ok (some v :: out)
    else do
      let pos ← skipPayload buf pos tag
      decodeWanted buf tags pos (i + 1) (w :: wanted)

def decodeColsSorted (buf : Bytes) (wanted : List ℕ) : Result (List (Option Value)) := do
  let (tags, pos) ← takeHeader buf
  decodeWanted buf tags pos 0 wanted

def skipPayloads (buf : Bytes) : List UInt8 → ℕ → Result ℕ
  | [], pos => .ok pos
  | tag :: tags, pos => do
    let pos ← skipPayload buf pos tag
    skipPayloads buf tags pos

/-- The bytes of the column if it is a blob. -/
def colBlobBytes (buf : Bytes) (col : ℕ) : Result (Option Bytes) := do
  let (ncols, pos) ← takeLen buf 0 "cabecera de registro truncada"
  if ncols ≤ col then .ok none
  else do
    let tags ← getRange buf pos ncols "tags truncados"
    let pos ← skipPayloads buf (tags.take col) (pos + ncols)
    if tags[col]? = some TAG_BLOB then do
      let (len, pos) ← takeLen buf pos "longitud de blob truncada"
      let bytes ← getRange buf pos len "blob truncado"
      .ok (some bytes)
    else .ok none

end Arkeion
