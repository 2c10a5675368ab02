import Arkeion.CommitWrite
import Mathlib.Data.List.DropRight

/-!
The pager: from the bytes of the append zone to verified page bodies.

A page is stored as a record: its length, the sealed payload, and parity if the file has
error correction. Records follow one another; a page's place is found by walking over their
lengths when the file is opened. Offsets here count from the start of the append zone.
Sealing, compression and error correction are given by their interfaces; the cache, which
only spares reads, is left out.
-/

namespace Arkeion

open Arkeion.Lib

def METHOD_RAW : UInt8 := 0

/-- `trait CryptoProvider`: seals a body under a page id and a nonce counter. -/
structure CryptoProvider where
  sealBytes : Bytes → ℕ → ℕ → Bytes
  /-- the body, or the reason why the payload is corrupt -/
  openBytes : Bytes → ℕ → Except String Bytes
  length_sealBytes : ∀ b id c, (sealBytes b id c).length = CRYPTO_RESERVE + b.length
  openBytes_sealBytes : ∀ b id c, openBytes (sealBytes b id c) id = .ok b

/-- `trait Compressor` -/
structure Compressor where
  compress : Bytes → Option Bytes
  decompress : Bytes → Option Bytes
  method : UInt8
  decompress_compress : ∀ b c, b.length < 2 ^ 64 → compress b = some c → decompress c = some b
  length_compress : ∀ b c, compress b = some c → c.length < b.length
  raw : method = METHOD_RAW → ∀ b, compress b = none

/-- Error correction with the file's number of parity bytes. -/
structure Ecc where
  parityLen : ℕ → ℕ
  parity : Bytes → Bytes
  correct : Bytes → Bytes → Option Bytes
  length_parity : ∀ b, (parity b).length = parityLen b.length

/-- What the header of the file fixes. -/
structure PagerConfig where
  fileId : Bytes
  encrypted : Bool
  crypto : CryptoProvider
  compressor : Option Compressor
  ecc : Option Ecc
  length_fileId : fileId.length = 16

/-- Where the sealed payload of a page lies. -/
structure PhysLoc where
  offset : ℕ
  len : ℕ
  deriving DecidableEq, Repr

structure AppendState where
  next_page : ℕ
  nonce_counter : ℕ
  write_offset : ℕ
  dir : List PhysLoc
  deriving DecidableEq, Repr

namespace AppendState

def new : AppendState where
  next_page := FIRST_DATA_PAGE
  nonce_counter := 0
  write_offset := 0
  dir := []

def loc (st : AppendState) (id : ℕ) : Option PhysLoc :=
  if id < FIRST_DATA_PAGE then none else st.dir[id - FIRST_DATA_PAGE]?

end AppendState

/-! ### The provider without encryption -/

def plainTag (sha : Sha256) (id : ℕ) (body : Bytes) : Bytes :=
  (sha.digest (leBytes 8 id ++ body)).take TAG_LEN

def plainSeal (sha : Sha256) (body : Bytes) (id _counter : ℕ) : Bytes :=
  List.replicate NONCE_LEN 0 ++ plainTag sha id body ++ body

def plainOpen (sha : Sha256) (stored : Bytes) (id : ℕ) : Except String Bytes :=
  if stored.length < CRYPTO_RESERVE then .error "registro más corto que la reserva criptográfica"
  else
    let body := stored.drop CRYPTO_RESERVE
    if (stored.take NONCE_LEN).any (· != 0) then .error "nonce no nulo sin cifrado"
    else if sub stored NONCE_LEN TAG_LEN ≠ plainTag sha id body then
      .error "tag de integridad inválido"
    else .ok body

lemma length_plainTag (sha : Sha256) (id : ℕ) (body : Bytes) :
    (plainTag sha id body).length = TAG_LEN := by
  simp [plainTag, sha.length_digest, TAG_LEN]

/-- Integrity only: a truncated digest over the page id and the body. -/
def CryptoProvider.plain (sha : Sha256) : CryptoProvider where
  sealBytes := plainSeal sha
  openBytes := plainOpen sha
  length_sealBytes b id c := by
    simp only [plainSeal, List.length_append, List.length_replicate, length_plainTag,
      CRYPTO_RESERVE]
  openBytes_sealBytes b id c := by
    have htag := length_plainTag sha id b
    have hlen : (List.replicate NONCE_LEN (0 : UInt8) ++ plainTag sha id b).length
        = CRYPTO_RESERVE := by
      simp [htag, CRYPTO_RESERVE]
    have hbody : (plainSeal sha b id c).drop CRYPTO_RESERVE = b := by
      rw [plainSeal, ← hlen, List.drop_left]
    have hnonce : (plainSeal sha b id c).take NONCE_LEN = List.replicate NONCE_LEN 0 := by
      rw [plainSeal, List.append_assoc, List.take_left' (by simp)]
    have hsub : sub (plainSeal sha b id c) NONCE_LEN TAG_LEN = plainTag sha id b :=
      sub_append _ _ _ (by simp) htag.symm
    have hge : ¬ (plainSeal sha b id c).length < CRYPTO_RESERVE := by
      rw [plainSeal, List.length_append, hlen]; omega
    have hany : (List.replicate NONCE_LEN (0 : UInt8)).any (· != 0) = false := by decide
    simp only [plainOpen, if_neg hge, hbody, hnonce, hsub, hany]
    simp

/-! ### Records -/

/-- The body without the zeros at its end. -/
def trimTrailingZeros (body : Bytes) : Bytes := body.rdropWhile (· == 0)

def frame (stored : Bytes) : Bytes := leBytes LEN_PREFIX_LEN stored.length ++ stored

namespace PagerConfig

def parityLen (cfg : PagerConfig) (len : ℕ) : ℕ :=
  match cfg.ecc with
  | none => 0
  | some e => e.parityLen len

def framedRecord (cfg : PagerConfig) (stored : Bytes) : Bytes :=
  match cfg.ecc with
  | none => frame stored
  | some e => frame stored ++ e.parity stored

/-- What is sealed for a page: the trimmed body, behind a byte for the method if the file is
compressed. -/
def bodyToSeal (cfg : PagerConfig) (trimmed : Bytes) : Bytes :=
  match cfg.compressor with
  | none => trimmed
  | some c =>
    match c.compress trimmed with
    | some comp => c.method :: comp
    | none => METHOD_RAW :: trimmed

def decodeBody (cfg : PagerConfig) (opened : Bytes) (id : ℕ) : Result Bytes :=
  match cfg.compressor with
  | none => .ok opened
  | some c =>
    match opened with
    | [] => .error (.corrupt id "página de datos comprimida vacía")
    | method :: payload =>
      if method = METHOD_RAW then .ok payload
      else if method = c.method then
        okOr (c.decompress payload) (.corrupt id "descompresión de página fallida")
      else .error (.corrupt id "método de compresión desconocido")

/-- The payload of a page: trimmed, perhaps compressed, and sealed. -/
def sealPage (cfg : PagerConfig) (id counter : ℕ) (body : Bytes) : Bytes :=
  cfg.crypto.sealBytes (cfg.bodyToSeal (trimTrailingZeros body)) id counter

/-- Opens a payload; where that fails, tries the payload corrected by its parity. -/
def openWithEcc (cfg : PagerConfig) (zone : Bytes) (payload : Bytes) (id : ℕ) (loc : PhysLoc) :
    Result Bytes :=
  match cfg.crypto.openBytes payload id with
  | .ok body => .ok body
  | .error reason =>
    match cfg.ecc with
    | none => .error (.corrupt id reason)
    | some e => do
      let parity ← okOr (slice? zone (loc.offset + loc.len) (e.parityLen payload.length)) .io
      let fixed ← okOr (e.correct payload parity) (.corrupt id reason)
      match cfg.crypto.openBytes fixed id with
      | .ok body => .ok body
      | .error reason => .error (.corrupt id reason)

/-- The logical body: what was sealed, filled up with zeros. -/
def fillBody (body : Bytes) : Result Bytes := do
  require (body.length ≤ BODY_SIZE) (.panic "range end index out of range for slice")
  .ok (body ++ List.replicate (BODY_SIZE - body.length) 0)

def readLoc (cfg : PagerConfig) (zone : Bytes) (id : ℕ) (loc : PhysLoc) : Result Bytes := do
  let stored ← okOr (slice? zone loc.offset loc.len) .io
  let opened ← cfg.openWithEcc zone stored id loc
  let body ← cfg.decodeBody opened id
  fillBody body

def readPage (cfg : PagerConfig) (zone : Bytes) (st : AppendState) (id : ℕ) : Result Bytes := do
  require (FIRST_DATA_PAGE ≤ id)
    (.panic "las páginas estructurales no pasan por read_page")
  require (id < st.next_page) (.corrupt id "página fuera de rango")
  let loc ← okOr (st.loc id) (.corrupt id "página sin entrada en el directorio")
  cfg.readLoc zone id loc

/-- The walk over the records from `offset` on: their places, and where the walk ends. The
first argument bounds the number of records; the zone's length is always enough. -/
def sweepFrom (cfg : PagerConfig) (zone : Bytes) : ℕ → ℕ → List PhysLoc × ℕ
  | 0, offset => ([], offset)
  | n + 1, offset =>
    match slice? zone offset LEN_PREFIX_LEN with
    | none => ([], offset)
    | some lenBytes =>
      let stored_len := leNat lenBytes
      let payload := offset + LEN_PREFIX_LEN
      let next := payload + stored_len + cfg.parityLen stored_len
      if stored_len < CRYPTO_RESERVE ∨ next > zone.length then ([], offset)
      else
        let rest := sweepFrom cfg zone n next
        (⟨payload, stored_len⟩ :: rest.1, rest.2)

/-- The directory rebuilt from the bytes of the zone. -/
def sweepAppendRegion (cfg : PagerConfig) (zone : Bytes) : AppendState :=
  let swept := cfg.sweepFrom zone zone.length 0
  { next_page := FIRST_DATA_PAGE + swept.1.length
    nonce_counter := 0
    write_offset := swept.2
    dir := swept.1 }

/-- Drops everything after the head: the next append overwrites it. -/
def truncateToHead (cfg : PagerConfig) (st : AppendState) (head : Head) : AppendState :=
  let keep := head.n_pages - FIRST_DATA_PAGE
  let write_offset :=
    match keep with
    | 0 => 0
    | i + 1 =>
      match st.dir[i]? with
      | some last => last.offset + last.len + cfg.parityLen last.len
      | none => 0
  { st with dir := st.dir.take keep, write_offset := write_offset, next_page := head.n_pages }

end PagerConfig

/-- A record that is written for a page. -/
structure PageRecord where
  id : ℕ
  counter : ℕ
  offset : ℕ
  bytes : Bytes
  loc : PhysLoc
  deriving DecidableEq, Repr

namespace PagerConfig

/-- `write_record_at`: what it writes, and where. -/
def recordAt (cfg : PagerConfig) (id counter offset : ℕ) (body : Bytes) : PageRecord :=
  let stored := cfg.sealPage id counter body
  { id := id
    counter := counter
    offset := offset
    bytes := cfg.framedRecord stored
    loc := ⟨offset + LEN_PREFIX_LEN, stored.length⟩ }

/-- The records of consecutive pages, one after the other. -/
def layRecords (cfg : PagerConfig) : ℕ → ℕ → ℕ → List Bytes → List PageRecord
  | _, _, _, [] => []
  | id, counter, offset, body :: bodies =>
    let r := cfg.recordAt id counter offset body
    r :: layRecords cfg (id + 1) (counter + 1) (offset + r.bytes.length) bodies

end PagerConfig

/-- `install_commit`: publishes the records of a commit. -/
def AppendState.install (st : AppendState) (rs : List PageRecord) (counter offset n_pages : ℕ) :
    AppendState where
  next_page := n_pages
  nonce_counter := counter
  write_offset := offset
  dir := st.dir ++ rs.map PageRecord.loc

end Arkeion
