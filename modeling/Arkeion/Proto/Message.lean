import Arkeion.Lib.Codec
import Arkeion.RecordCodec

/-!
The messages of a client and its server, as they go over the wire: a tag and the fields behind it,
each message in a frame that says how long it is.

The decoders are put together from operations, so that besides reading a message they can say which
numbers it announces.
-/

namespace Arkeion.Proto

open Arkeion.Lib

def MAX_FRAME : ℕ := 64 * 1024 * 1024

def REQ_HELLO : UInt8 := 1
def REQ_USE_BRANCH : UInt8 := 2
def REQ_EXECUTE : UInt8 := 3
def REQ_QUERY : UInt8 := 4
def REQ_VERIFY : UInt8 := 5
def REQ_DIFF : UInt8 := 6
def REQ_MERGE : UInt8 := 7
def REQ_AUTH : UInt8 := 8

def RES_WELCOME : UInt8 := 1
def RES_AFFECTED : UInt8 := 2
def RES_ROWS : UInt8 := 3
def RES_AUDIT : UInt8 := 4
def RES_ERROR : UInt8 := 5
def RES_DIFF : UInt8 := 6
def RES_MERGED : UInt8 := 7

inductive ProtoError where
  | io
  | truncated
  | badTag (tag : UInt8)
  | badValue
  | frameTooLarge (n : ℕ)
  | panic (msg : String)
  deriving DecidableEq, Repr

/-! ### Messages -/

/-- A time, from the epoch on: whole seconds, and nanoseconds behind them. -/
structure SystemTime where
  secs : Int64
  nanos : ℕ
  nanos_lt : nanos < 1000000000
  deriving DecidableEq, Repr

inductive AsOf where
  | head
  | version (v : UInt64)
  | timestamp (t : SystemTime)
  deriving DecidableEq, Repr

inductive ChangeKind where
  | added
  | removed
  | modified
  deriving DecidableEq, Repr

structure SchemaChange where
  table : String
  kind : ChangeKind
  deriving DecidableEq, Repr

structure RowChange where
  table_id : UInt32
  rowid : Int64
  kind : ChangeKind
  deriving DecidableEq, Repr

structure Diff where
  schema : List SchemaChange
  rows : List RowChange
  deriving DecidableEq, Repr

inductive Request where
  | hello (version : UInt32)
  | useBranch (name : String)
  | execute (sql : String) (params : List Value)
  | query (sql : String) (params : List Value) (as_of : AsOf)
  | verify
  | diff (from_ to_ : String)
  | merge (from_ into_ : String)
  | auth (user password : String)
  deriving DecidableEq, Repr

abbrev ChainHash := { b : Bytes // b.length = 32 }

inductive Response where
  | welcome (version : UInt32) (branch : String)
  | affected (n : UInt64)
  | rows (columns : List String) (values : List (List Value))
  | audit (head commits : UInt64) (chain_ok : Bool) (chain_hash : ChainHash)
  | error (msg : String)
  | diff (d : Diff)
  | merged (version applied : UInt64)
  deriving DecidableEq, Repr

/-! ### Writing -/

def putStr (s : String) : Bytes := putVarint (utf8 s).length ++ utf8 s

def putVals (vals : List Value) : Bytes := putVarint (encodeValues vals).length ++ encodeValues vals

/-- `duration_since(UNIX_EPOCH)`; there is none before the epoch, which counts as zero. -/
def SystemTime.sinceEpoch (t : SystemTime) : ℕ × ℕ :=
  if 0 ≤ t.secs then (t.secs.toUInt64.toNat, t.nanos) else (0, 0)

def putAsof : AsOf → Bytes
  | .head => [0]
  | .version v => 1 :: putVarint v.toNat
  | .timestamp t => 2 :: (putVarint t.sinceEpoch.1 ++ putVarint t.sinceEpoch.2)

def putKind : ChangeKind → Bytes
  | .added => [0]
  | .removed => [1]
  | .modified => [2]

def putSchemaChange (sc : SchemaChange) : Bytes := putStr sc.table ++ putKind sc.kind

def putRowChange (rc : RowChange) : Bytes :=
  putVarint rc.table_id.toNat ++ (leBytes 8 rc.rowid.toUInt64.toNat ++ putKind rc.kind)

def putDiff (d : Diff) : Bytes :=
  putVarint d.schema.length ++ (d.schema.flatMap putSchemaChange ++
    (putVarint d.rows.length ++ d.rows.flatMap putRowChange))

def Request.encode : Request → Bytes
  | .hello version => REQ_HELLO :: leBytes 4 version.toNat
  | .useBranch name => REQ_USE_BRANCH :: putStr name
  | .execute sql params => REQ_EXECUTE :: (putStr sql ++ putVals params)
  | .query sql params as_of => REQ_QUERY :: (putStr sql ++ (putVals params ++ putAsof as_of))
  | .verify => [REQ_VERIFY]
  | .diff from_ to_ => REQ_DIFF :: (putStr from_ ++ putStr to_)
  | .merge from_ into_ => REQ_MERGE :: (putStr from_ ++ putStr into_)
  | .auth user password => REQ_AUTH :: (putStr user ++ putStr password)

def Response.encode : Response → Bytes
  | .welcome version branch => RES_WELCOME :: (leBytes 4 version.toNat ++ putStr branch)
  | .affected n => RES_AFFECTED :: putVarint n.toNat
  | .rows columns values => RES_ROWS :: (putVarint columns.length ++ (columns.flatMap putStr ++
      (putVarint values.length ++ values.flatMap putVals)))
  | .audit head commits chain_ok chain_hash => RES_AUDIT :: (putVarint head.toNat ++
      (putVarint commits.toNat ++ ([if chain_ok then 1 else 0] ++ chain_hash.val)))
  | .error msg => RES_ERROR :: putStr msg
  | .diff d => RES_DIFF :: putDiff d
  | .merged version applied => RES_MERGED :: (putVarint version.toNat ++ putVarint applied.toNat)

/-! ### The decoders -/

/-- What the decoders are put together from. A capacity is asked for a number of elements, of which
each takes at least so many bytes. -/
structure Ops (m : Type → Type) where
  u8 : m UInt8
  u32 : m UInt32
  varint : m ℕ
  str : m String
  vals : m (List Value)
  rowid : m Int64
  hash : m ChainHash
  systemTime : ℕ → UInt32 → m SystemTime
  capacity : ℕ → ℕ → m Unit
  error : {α : Type} → ProtoError → m α

section Decoders
variable {m : Type → Type} [Monad m] (P : Ops m)

def times {α : Type} (item : m α) : ℕ → m (List α)
  | 0 => pure []
  | n + 1 => do
    let a ← item
    let as ← times item n
    pure (a :: as)

/-- So many elements, in a vector of that capacity. -/
def takeList {α : Type} (least : ℕ) (item : m α) : m (List α) := do
  let n ← P.varint
  P.capacity n least
  times item n

def takeAsof : m AsOf := do
  let tag ← P.u8
  if tag = 0 then pure .head
  else if tag = 1 then do
    let v ← P.varint
    pure (.version (UInt64.ofNat v))
  else if tag = 2 then do
    let secs ← P.varint
    let nanos ← P.varint
    let t ← P.systemTime secs (UInt32.ofNat nanos)
    pure (.timestamp t)
  else P.error (.badTag tag)

def takeKind : m ChangeKind := do
  let tag ← P.u8
  if tag = 0 then pure .added
  else if tag = 1 then pure .removed
  else if tag = 2 then pure .modified
  else P.error (.badTag tag)

def takeSchemaChange : m SchemaChange := do
  let table ← P.str
  let kind ← takeKind P
  pure ⟨table, kind⟩

def takeRowChange : m RowChange := do
  let table_id ← P.varint
  if 2 ^ 32 ≤ table_id then P.error .badValue
  else do
    let rowid ← P.rowid
    let kind ← takeKind P
    pure ⟨UInt32.ofNat table_id, rowid, kind⟩

def takeDiff : m Diff := do
  let schema ← takeList P 2 (takeSchemaChange P)
  let rows ← takeList P 10 (takeRowChange P)
  pure ⟨schema, rows⟩

/-- What stands behind the tag of a request. -/
def requestFields (tag : UInt8) : m Request :=
  if tag = REQ_HELLO then do
    let version ← P.u32
    pure (.hello version)
  else if tag = REQ_USE_BRANCH then do
    let name ← P.str
    pure (.useBranch name)
  else if tag = REQ_EXECUTE then do
    let sql ← P.str
    let params ← P.vals
    pure (.execute sql params)
  else if tag = REQ_QUERY then do
    let sql ← P.str
    let params ← P.vals
    let as_of ← takeAsof P
    pure (.query sql params as_of)
  else if tag = REQ_VERIFY then pure .verify
  else if tag = REQ_DIFF then do
    let from_ ← P.str
    let to_ ← P.str
    pure (.diff from_ to_)
  else if tag = REQ_MERGE then do
    let from_ ← P.str
    let into_ ← P.str
    pure (.merge from_ into_)
  else if tag = REQ_AUTH then do
    let user ← P.str
    let password ← P.str
    pure (.auth user password)
  else P.error (.badTag tag)

def takeRequest : m Request := do
  let tag ← P.u8
  requestFields P tag

def responseFields (tag : UInt8) : m Response :=
  if tag = RES_WELCOME then do
    let version ← P.u32
    let branch ← P.str
    pure (.welcome version branch)
  else if tag = RES_AFFECTED then do
    let n ← P.varint
    pure (.affected (UInt64.ofNat n))
  else if tag = RES_ROWS then do
    let columns ← takeList P 1 P.str
    let rows ← takeList P 2 P.vals
    pure (.rows columns rows)
  else if tag = RES_AUDIT then do
    let head ← P.varint
    let commits ← P.varint
    let chain_ok ← P.u8
    let chain_hash ← P.hash
    pure (.audit (UInt64.ofNat head) (UInt64.ofNat commits) (chain_ok != 0) chain_hash)
  else if tag = RES_ERROR then do
    let msg ← P.str
    pure (.error msg)
  else if tag = RES_DIFF then do
    let d ← takeDiff P
    pure (.diff d)
  else if tag = RES_MERGED then do
    let version ← P.varint
    let applied ← P.varint
    pure (.merged (UInt64.ofNat version) (UInt64.ofNat applied))
  else P.error (.badTag tag)

def takeResponse : m Response := do
  let tag ← P.u8
  responseFields P tag

end Decoders

/-! ### Reading -/

abbrev WireReader := Reader UInt8 ProtoError

/-- What becomes of a capacity that is asked for: for a number of elements, of which each takes at
least so many bytes, where so many bytes are left. -/
abbrev WithCapacity := ℕ → ℕ → ℕ → Except ProtoError Unit

/-- A capacity that the bytes left justify is granted. -/
def Grants (A : WithCapacity) : Prop :=
  ∀ count least left, count * least ≤ left → A count least left = .ok ()

/-- `ok_or`. -/
def orError {α : Type} (x : Option α) (e : ProtoError) : Except ProtoError α :=
  match x with
  | some a => .ok a
  | none => .error e

/-- `buf.get(*pos..*pos + n)`, and behind it. -/
def takeBytes (n : ℕ) : WireReader Bytes := fun buf pos =>
  if 2 ^ 64 ≤ pos + n then .error (.panic "attempt to add with overflow")
  else do
    let bytes ← orError (slice? buf pos n) .truncated
    .ok (bytes, pos + n)

def takeU8 : WireReader UInt8 := fun buf pos => do
  let b ← orError buf[pos]? .truncated
  .ok (b, pos + 1)

def takeU32 : WireReader UInt32 := do
  let bytes ← takeBytes 4
  pure (UInt32.ofNat (leNat bytes))

def takeVarintE : WireReader ℕ := fun buf pos => orError (takeVarint buf pos) .truncated

def takeStr : WireReader String := do
  let n ← takeVarintE
  let bytes ← takeBytes n
  .lift (orError (fromUtf8 bytes) .badValue)

/-- `map_err(|_| BadValue)`; the end of the process stays it. -/
def ofRecord {α : Type} : Result α → Except ProtoError α
  | .ok a => .ok a
  | .error (.panic msg) => .error (.panic msg)
  | .error _ => .error .badValue

/-- The capacity for the values of a record, asked for when its tags are known to be there. -/
def recordCapacity (A : WithCapacity) (bytes : Bytes) : Except ProtoError Unit :=
  match takeHeader bytes with
  | .ok (tags, _) => A tags.length 1 bytes.length
  | .error _ => .ok ()

def takeVals (A : WithCapacity) : WireReader (List Value) := do
  let n ← takeVarintE
  let bytes ← takeBytes n
  .lift (recordCapacity A bytes)
  .lift (ofRecord (decodeValues bytes))

def takeRowid : WireReader Int64 := do
  let bytes ← takeBytes 8
  pure (UInt64.ofNat (leNat bytes)).toInt64

def takeHash : WireReader ChainHash := do
  let bytes ← takeBytes 32
  if h : bytes.length = 32 then pure ⟨bytes, h⟩ else .lift (.error .truncated)

/-- `UNIX_EPOCH + Duration::new(secs, nanos)`. -/
def systemTime (secs : ℕ) (nanos : UInt32) : Except ProtoError SystemTime :=
  if 2 ^ 64 ≤ secs + nanos.toNat / 1000000000 then
    .error (.panic "overflow in Duration::new")
  else if 2 ^ 63 ≤ secs + nanos.toNat / 1000000000 then
    .error (.panic "overflow when adding duration to instant")
  else .ok ⟨Int64.ofNat (secs + nanos.toNat / 1000000000), nanos.toNat % 1000000000,
    Nat.mod_lt _ (Nat.succ_pos _)⟩

def takeCapacity (A : WithCapacity) (count least : ℕ) : WireReader Unit := fun buf pos => do
  A count least (buf.length - pos)
  .ok ((), pos)

def wire (A : WithCapacity) : Ops WireReader where
  u8 := takeU8
  u32 := takeU32
  varint := takeVarintE
  str := takeStr
  vals := takeVals A
  rowid := takeRowid
  hash := takeHash
  systemTime := fun secs nanos => .lift (systemTime secs nanos)
  capacity := takeCapacity A
  error := fun e => .lift (.error e)

def Request.decode (A : WithCapacity) (buf : Bytes) : Except ProtoError Request := do
  let (req, _) ← takeRequest (wire A) buf 0
  .ok req

def Response.decode (A : WithCapacity) (buf : Bytes) : Except ProtoError Response := do
  let (res, _) ← takeResponse (wire A) buf 0
  .ok res

/-! ### Frames -/

/-- `write_frame`: what a stream gets. -/
def writeFrame (payload : Bytes) : Bytes := leBytes 4 payload.length ++ payload

/-- `read_exact`, and the rest of the stream. -/
def readExact (n : ℕ) (stream : Bytes) : Except ProtoError (Bytes × Bytes) :=
  if n ≤ stream.length then .ok (stream.take n, stream.drop n) else .error .io

/-- The payload, and the rest of the stream. -/
def readFrame (stream : Bytes) : Except ProtoError (Bytes × Bytes) := do
  let (len, stream) ← readExact 4 stream
  let n := leNat len
  if MAX_FRAME < n then .error (.frameTooLarge n)
  else readExact n stream

end Arkeion.Proto
