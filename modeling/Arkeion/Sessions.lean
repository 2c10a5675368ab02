import Arkeion.OpenSpec
import Mathlib.Data.Nat.Find
import Mathlib.Logic.Relation

/-!
Sessions on one file: commits, failed attempts, fsyncs, crashes and reopenings.

Every write into the file is pending until an fsync that started after it completes. A crash
lets any of the pending writes reach the disk, in any combination; a write that is lost
leaves the bytes that were there before.
-/

namespace Arkeion

open Arkeion.Lib

inductive FileWrite where
  | bytes (offset : ℕ) (b : Bytes)
  | slot (m : MetaSlot)
  deriving DecidableEq, Repr

/-- Writes into the zone; a gap before the offset is filled with zeros. -/
def writeZone (zone : Bytes) (offset : ℕ) (b : Bytes) : Bytes :=
  if b = [] then zone
  else zone.take offset ++ List.replicate (offset - zone.length) 0 ++ b
    ++ zone.drop (offset + b.length)

namespace Disk

def apply (d : Disk) : FileWrite → Disk
  | .bytes offset b => { d with zone := writeZone d.zone offset b }
  | .slot m =>
    if MetaSlot.slotPage m.version = META_PAGE_A then { d with slotA := some m }
    else { d with slotB := some m }

def applyAll (d : Disk) (ws : List FileWrite) : Disk := ws.foldl apply d

/-- The disk after a crash that let the marked writes through. -/
def applyLanded (d : Disk) : List FileWrite → List Bool → Disk
  | w :: ws, landed :: ls => (if landed then d.apply w else d).applyLanded ws ls
  | _, _ => d

end Disk

/-- What a transaction brings to its commit: `dirty` are its pages in the order of their ids. -/
structure CommitInput where
  branch : String
  parent_page : ℕ
  data : CommitData
  dirty : List Bytes
  deriving DecidableEq, Repr

namespace OpenFile

/-- The header the commit page gets. -/
def header (sha : Sha256) (f : OpenFile) (c : CommitInput) : CommitHeader :=
  commitHeader sha (.after f.head c.branch c.parent_page) c.data
    (f.st.nonce_counter + c.dirty.length) c.dirty

/-- The records `write_commit_pages` writes. -/
def records (cfg : PagerConfig) (sha : Sha256) (f : OpenFile) (c : CommitInput) :
    List PageRecord :=
  cfg.layRecords f.st.next_page f.st.nonce_counter f.st.write_offset
    (c.dirty ++ [commitBody (f.header sha c)])

/-- The pager's state when the commit is installed. -/
def installed (cfg : PagerConfig) (sha : Sha256) (f : OpenFile) (c : CommitInput) : AppendState :=
  let rs := f.records cfg sha c
  f.st.install rs (f.st.nonce_counter + rs.length)
    (f.st.write_offset + (rs.map PageRecord.bytes).flatten.length)
    (f.st.next_page + c.dirty.length + 1)

/-- The open file when the commit is its head. -/
def committed (cfg : PagerConfig) (sha : Sha256) (f : OpenFile) (c : CommitInput) : OpenFile where
  st := f.installed cfg sha c
  head := headFrom (f.header sha c) (f.st.next_page + c.dirty.length)

end OpenFile

/-- What the code makes sure of: pages are full bodies of the tree or of overflow chains,
none of which begins like a commit page, and the numbers of the header fit their types. -/
structure CommitInput.Ok (sha : Sha256) (f : OpenFile) (c : CommitInput) : Prop where
  sized : (f.header sha c).Sized
  full : ∀ b ∈ c.dirty, b.length = BODY_SIZE
  nodes : ∀ b ∈ c.dirty, CommitHeader.decode b = none

inductive Event where
  /-- the write phase of a commit succeeds and its head is published -/
  | commit (c : CommitInput)
  /-- writing the record number `i` fails after `part` of its bytes -/
  | writeError (c : CommitInput) (i part : ℕ)
  /-- all is written and installed, but the sync of a branch operation or a merge fails: the
  head is not published -/
  | syncError (c : CommitInput)
  /-- an fsync completes that had started after the first `k` pending writes -/
  | fsync (k : ℕ)
  /-- the meta slot of the `n`th commit is written -/
  | writeMeta (n : ℕ)
  /-- `commit` returns `Ok` for the `n`th commit -/
  | ack (n : ℕ)
  /-- `commit` returns the error of its fsync for the `n`th commit; nothing is taken back -/
  | unsealed (n : ℕ)
  /-- a crash that lets the marked writes through, and the reopening -/
  | crash (landed : List Bool)
  deriving DecidableEq, Repr

/-- A file and its session. The last fields only record what has happened: the commits the
head follows, how many writes there were when each was complete, how many there were in
all, the commits reported as durable, and the counters handed out, newest first. -/
structure Session where
  disk : Disk
  pending : List FileWrite
  file : OpenFile
  chain : List Written
  ends : List ℕ
  issued : ℕ
  acked : List Written
  used : List ℕ

namespace Session

/-- A file that was just created. -/
def created (cfg : PagerConfig) (sha : Sha256) : Session where
  disk := .created
  pending := []
  file := ⟨.new, genesisHead sha cfg.fileId⟩
  chain := []
  ends := []
  issued := 0
  acked := []
  used := []

/-- Every write up to the `n`th commit is on the disk for good. -/
def Sealed (s : Session) (n : ℕ) : Prop :=
  n ≤ s.chain.length ∧ ∀ e ∈ s.ends.take n, e + s.pending.length ≤ s.issued

/-- What reads see: the pending writes are in the file, if not yet on the disk. -/
def view (s : Session) : Disk := s.disk.applyAll s.pending

def crashed (s : Session) (landed : List Bool) : Disk := s.disk.applyLanded s.pending landed

/-- The bytes of a history in the append zone. -/
def chainBytes (cfg : PagerConfig) (ws : List Written) : Bytes :=
  cfg.layout FIRST_DATA_PAGE (chainPages ws)

/-- How many of the commits are in the zone just as they were written. -/
def intactCommits (cfg : PagerConfig) (ws : List Written) (zone : Bytes) : ℕ :=
  Nat.findGreatest (fun n => chainBytes cfg (ws.take n) <+: zone) ws.length

/-- The commits that are intact on the disk. -/
def intactChain (cfg : PagerConfig) (s : Session) (d : Disk) : List Written :=
  s.chain.take (intactCommits cfg s.chain d.zone)

def recordWrites (rs : List PageRecord) : List FileWrite :=
  rs.map fun r => .bytes r.offset r.bytes

/-- The writes of an attempt that fails at record `i`. -/
def partialWrites (rs : List PageRecord) (i part : ℕ) : List FileWrite :=
  recordWrites (rs.take i)
    ++ (rs[i]?.map fun r => FileWrite.bytes r.offset (r.bytes.take part)).toList

/-- All pages are written and the head is published. -/
def afterCommit (cfg : PagerConfig) (sha : Sha256) (s : Session) (c : CommitInput) : Session :=
  let rs := s.file.records cfg sha c
  { s with
    pending := s.pending ++ recordWrites rs
    file := s.file.committed cfg sha c
    chain := s.chain ++ [⟨s.file.header sha c, c.dirty⟩]
    ends := s.ends ++ [s.issued + rs.length]
    issued := s.issued + rs.length
    used := (rs.map PageRecord.counter).reverse ++ s.used }

/-- Record `i` fails: only the counters are spent. -/
def afterWriteError (cfg : PagerConfig) (sha : Sha256) (s : Session) (c : CommitInput)
    (i part : ℕ) : Session :=
  let rs := s.file.records cfg sha c
  { s with
    pending := s.pending ++ partialWrites rs i part
    file := ⟨{ s.file.st with nonce_counter := s.file.st.nonce_counter + (i + 1) }, s.file.head⟩
    issued := s.issued + (i + 1)
    used := ((rs.take (i + 1)).map PageRecord.counter).reverse ++ s.used }

/-- All pages are written and installed, but the head is not published. -/
def afterSyncError (cfg : PagerConfig) (sha : Sha256) (s : Session) (c : CommitInput) : Session :=
  let rs := s.file.records cfg sha c
  { s with
    pending := s.pending ++ recordWrites rs
    file := ⟨s.file.installed cfg sha c, s.file.head⟩
    issued := s.issued + rs.length
    used := (rs.map PageRecord.counter).reverse ++ s.used }

def afterFsync (s : Session) (k : ℕ) : Session :=
  { s with disk := s.disk.applyAll (s.pending.take k), pending := s.pending.drop k }

def afterMeta (cfg : PagerConfig) (sha : Sha256) (s : Session) (n : ℕ) : Session :=
  { s with
    pending := s.pending
      ++ [.slot (metaFor (headOf (genesisHead sha cfg.fileId) (s.chain.take n)))]
    issued := s.issued + 1 }

/-- The file is opened again after a crash. -/
def afterCrash (cfg : PagerConfig) (s : Session) (landed : List Bool) (f : OpenFile) : Session :=
  { s with
    disk := s.crashed landed
    pending := []
    file := f
    chain := s.intactChain cfg (s.crashed landed)
    ends := s.ends.take (intactCommits cfg s.chain (s.crashed landed).zone) }

inductive Step (cfg : PagerConfig) (sha : Sha256) : Session → Event → Session → Prop
  | commit {s : Session} {c : CommitInput} : c.Ok sha s.file →
      Step cfg sha s (.commit c) (s.afterCommit cfg sha c)
  | writeError {s : Session} {c : CommitInput} {i part : ℕ} {r : PageRecord} : c.Ok sha s.file →
      (s.file.records cfg sha c)[i]? = some r → part < r.bytes.length →
      Step cfg sha s (.writeError c i part) (s.afterWriteError cfg sha c i part)
  | syncError {s : Session} {c : CommitInput} : c.Ok sha s.file →
      Step cfg sha s (.syncError c) (s.afterSyncError cfg sha c)
  | fsync {s : Session} {k : ℕ} : k ≤ s.pending.length →
      Step cfg sha s (.fsync k) (s.afterFsync k)
  | writeMeta {s : Session} {n : ℕ} : 0 < n → s.Sealed n →
      Step cfg sha s (.writeMeta n) (s.afterMeta cfg sha n)
  | ack {s : Session} {n : ℕ} {w : Written} : s.chain[n]? = some w → s.Sealed (n + 1) →
      Step cfg sha s (.ack n) { s with acked := w :: s.acked }
  | unsealed {s : Session} {n : ℕ} : n < s.chain.length → Step cfg sha s (.unsealed n) s
  | crash {s : Session} {landed : List Bool} {f : OpenFile} :
      cfg.openStore sha (s.crashed landed) = .ok f →
      Step cfg sha s (.crash landed) (s.afterCrash cfg landed f)

/-- No write fails, and no sync does. -/
def NoFault : Event → Prop
  | .writeError .. => False
  | .syncError _ => False
  | .unsealed _ => False
  | _ => True

/-- The sessions reached from a fresh file by steps that meet a condition. -/
def Reaches (cfg : PagerConfig) (sha : Sha256) (ok : Session → Event → Prop) (s : Session) : Prop :=
  Relation.ReflTransGen (fun s s' => ∃ e, ok s e ∧ Step cfg sha s e s') (created cfg sha) s

end Session

end Arkeion
