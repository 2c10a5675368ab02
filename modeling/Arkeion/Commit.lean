import Arkeion.Format
import Arkeion.Lib.Sha2

/-!
Commit pages, the hash chain over them, and its audit.

A commit page lists what its transaction wrote; `chain_hash` ties it to the commit before.
The audit walks back from the head along `prev_page` and then checks the chain forward,
page by page. The results hold of any hash with digests of 32 bytes, SHA-256 among them.
-/

namespace Arkeion

open Arkeion.Lib

/-- A hash function as the engine uses it. -/
structure Sha256 where
  digest : Bytes → Bytes
  length_digest : ∀ m, (digest m).length = 32

/-- SHA-256 itself. -/
def Sha256.std : Sha256 := ⟨sha256, length_sha256⟩

def BRANCH_MAX : ℕ := 64
def COMMIT_FLAG_CHECKPOINT : ℕ := 1

/-- The bytes of a name. -/
def utf8 (s : String) : Bytes := s.toUTF8.data.toList

/-- `str::from_utf8` -/
def fromUtf8 (b : Bytes) : Option String := String.fromUTF8? ⟨b.toArray⟩

structure CommitHeader where
  flags : ℕ
  version : ℕ
  parent_page : ℕ
  prev_page : ℕ
  timestamp_ms : ℕ
  data_root : ℕ
  meta_root : ℕ
  nonce_counter : ℕ
  pages_written : ℕ
  branch : String
  content_hash : Bytes
  prev_chain : Bytes
  chain_hash : Bytes
  deriving DecidableEq, Repr

/-- The live end of the chain. -/
structure Head where
  version : ℕ
  commit_page : ℕ
  data_root : ℕ
  meta_root : ℕ
  chain_hash : Bytes
  nonce_counter : ℕ
  n_pages : ℕ
  deriving DecidableEq, Repr

/-- A branch name in its field of 64 bytes. -/
def branchField (s : String) : Bytes :=
  utf8 s ++ List.replicate (BRANCH_MAX - (utf8 s).length) 0

namespace CommitHeader

/-- The bytes of a commit page up to the end of its fields. -/
def fields (h : CommitHeader) : Bytes :=
  MAGIC_COMMIT ++ leBytes 4 h.flags ++ List.replicate 4 0 ++ leBytes 8 h.version
    ++ leBytes 8 h.parent_page ++ leBytes 8 h.prev_page ++ leBytes 8 h.timestamp_ms
    ++ leBytes 8 h.data_root ++ leBytes 8 h.meta_root ++ leBytes 8 h.nonce_counter
    ++ leBytes 8 h.pages_written ++ branchField h.branch ++ h.content_hash ++ h.prev_chain
    ++ h.chain_hash

/-- Writes the header over the start of a body. -/
def encodeInto (h : CommitHeader) (body : Bytes) : Bytes := writeAt body 0 h.fields

/-- The bytes up to the first zero, or all of them. -/
def upToZero (raw : Bytes) : Bytes := raw.takeWhile (· ≠ 0)

/-- `none` if the body is not a commit page. -/
def decode (body : Bytes) : Option CommitHeader :=
  if sub body 0 8 ≠ MAGIC_COMMIT then none
  else
    let u64At (off : ℕ) : ℕ := leNat (sub body off 8)
    let arr32 (off : ℕ) : Bytes := sub body off 32
    match fromUtf8 (upToZero (sub body 80 BRANCH_MAX)) with
    | none => none
    | some branch => some
      { flags := leNat (sub body 8 4)
        version := u64At 16
        parent_page := u64At 24
        prev_page := u64At 32
        timestamp_ms := u64At 40
        data_root := u64At 48
        meta_root := u64At 56
        nonce_counter := u64At 64
        pages_written := u64At 72
        branch := branch
        content_hash := arr32 144
        prev_chain := arr32 176
        chain_hash := arr32 208 }

/-- What the chain hash is taken of. -/
def chainMessage (h : CommitHeader) : Bytes :=
  h.prev_chain ++ h.content_hash ++ leBytes 8 h.version ++ leBytes 8 h.timestamp_ms
    ++ leBytes 8 h.data_root ++ leBytes 8 h.meta_root ++ branchField h.branch

def computeChain (sha : Sha256) (h : CommitHeader) : Bytes := sha.digest h.chainMessage

def selfConsistent (sha : Sha256) (h : CommitHeader) : Bool :=
  h.chain_hash == h.computeChain sha

/-- Whether the checkpoint bit is set. -/
def isCheckpoint (h : CommitHeader) : Bool := h.flags &&& COMMIT_FLAG_CHECKPOINT != 0

end CommitHeader

def genesisMessage (fileId : Bytes) : Bytes := MAGIC_HEADER ++ fileId

/-- The link before the first, bound to the file. -/
def genesisChain (sha : Sha256) (fileId : Bytes) : Bytes := sha.digest (genesisMessage fileId)

def genesisHead (sha : Sha256) (fileId : Bytes) : Head where
  version := 0
  commit_page := 0
  data_root := 0
  meta_root := 0
  chain_hash := genesisChain sha fileId
  nonce_counter := 0
  n_pages := FIRST_DATA_PAGE

def headFrom (h : CommitHeader) (page : ℕ) : Head where
  version := h.version
  commit_page := page
  data_root := h.data_root
  meta_root := h.meta_root
  chain_hash := h.chain_hash
  nonce_counter := h.nonce_counter
  n_pages := page + 1

/-- The meta slot of a head. -/
def metaFor (head : Head) : MetaSlot where
  version := head.version
  last_commit_page := head.commit_page
  n_pages := head.n_pages

end Arkeion
