import Arkeion.Pager

/-!
Opening a file: the directory is swept together from the records, and the head recovered
from the meta slots and a scan forward over the commit pages after it.
-/

namespace Arkeion

open Arkeion.Lib

/-- What is on the disk: the append zone and the two meta slots, `none` where a slot does not
validate. -/
structure Disk where
  zone : Bytes
  slotA : Option MetaSlot
  slotB : Option MetaSlot
  deriving DecidableEq, Repr

/-- The valid slots, A first. -/
def Disk.metaSlots (d : Disk) : List MetaSlot := d.slotA.toList ++ d.slotB.toList

/-- The header of a file that was just created: both slots at version 0. -/
def Disk.created : Disk where
  zone := []
  slotA := some ⟨0, 0, FIRST_DATA_PAGE⟩
  slotB := some ⟨0, 0, FIRST_DATA_PAGE⟩

/-- What `recover` asks of the pager. -/
structure RecoverySource where
  sha : Sha256
  fileId : Bytes
  readPage : ℕ → Result Bytes
  n_pages : ℕ
  slots : List MetaSlot

namespace RecoverySource

/-- The head a commit page gives, if it is one and self-consistent; a panic of the read is
passed on. -/
def tryHeadAt (src : RecoverySource) (page : ℕ) : Result (Option Head) :=
  match src.readPage page with
  | .error (.panic m) => .error (.panic m)
  | .error _ => .ok none
  | .ok buf =>
    match CommitHeader.decode buf with
    | none => .ok none
    | some h => .ok (if h.selfConsistent src.sha then some (headFrom h page) else none)

/-- `find_map` over the slots. -/
def firstHead (src : RecoverySource) : List MetaSlot → Result (Option Head)
  | [] => .ok none
  | m :: ms => do
    let head ← src.tryHeadAt m.last_commit_page
    match head with
    | some h => .ok (some h)
    | none => firstHead src ms

/-- Whether the scan takes the commit page for the one after `head`: it is chained to it, or
starts a compacted file. -/
def adopts (src : RecoverySource) (head : Head) (h : CommitHeader) : Bool :=
  let chained := h.version == head.version + 1 && h.prev_chain == head.chain_hash
  let checkpoint_start := head.commit_page == 0 && h.isCheckpoint && h.prev_chain == head.chain_hash
  (chained || checkpoint_start) && h.selfConsistent src.sha

/-- The scan over `n` pages from `pid` on. -/
def forwardScan (src : RecoverySource) : ℕ → ℕ → Head → Result Head
  | 0, _, head => .ok head
  | n + 1, pid, head =>
    match src.readPage pid with
    | .error (.panic m) => .error (.panic m)
    | .error _ => .ok head
    | .ok buf =>
      match CommitHeader.decode buf with
      | none => forwardScan src n (pid + 1) head
      | some h => if src.adopts head h then forwardScan src n (pid + 1) (headFrom h pid) else .ok head

/-- Newest slot first; the sort is stable. -/
def sortedSlots (slots : List MetaSlot) : List MetaSlot :=
  slots.mergeSort fun a b => decide (b.version ≤ a.version)

def recover (src : RecoverySource) : Result Head := do
  let found ← src.firstHead
    ((sortedSlots src.slots).filter fun m => decide (FIRST_DATA_PAGE ≤ m.last_commit_page))
  let head := found.getD (genesisHead src.sha src.fileId)
  src.forwardScan (src.n_pages - head.n_pages) head.n_pages head

end RecoverySource

/-- An open file: the pager's state and the live head. -/
structure OpenFile where
  st : AppendState
  head : Head
  deriving DecidableEq, Repr

namespace PagerConfig

def source (cfg : PagerConfig) (sha : Sha256) (d : Disk) (st : AppendState) : RecoverySource where
  sha := sha
  fileId := cfg.fileId
  readPage := cfg.readPage d.zone st
  n_pages := st.next_page
  slots := d.metaSlots

/-- `div_ceil` -/
def divCeil (a b : ℕ) : ℕ := (a + b - 1) / b

/-- The key of an encrypted file must open the first data page. -/
def checkKey (cfg : PagerConfig) (zone : Bytes) (st : AppendState) : Result Unit :=
  if cfg.encrypted ∧ FIRST_DATA_PAGE < st.next_page then
    match cfg.readPage zone st FIRST_DATA_PAGE with
    | .ok _ => .ok ()
    | .error (.panic m) => .error (.panic m)
    | .error _ => .error .wrongKey
  else .ok ()

/-- `Pager::open` and `Store::open`: sweep, check the key, recover, drop the torn tail, and
set the nonce counter past all the tail can have used. -/
def openStore (cfg : PagerConfig) (sha : Sha256) (d : Disk) : Result OpenFile := do
  require (d.metaSlots ≠ []) (.corrupt META_PAGE_A "ningún meta slot válido")
  let swept := cfg.sweepAppendRegion d.zone
  cfg.checkKey d.zone swept
  let head ← (cfg.source sha d swept).recover
  let st := cfg.truncateToHead swept head
  let torn_bytes := d.zone.length - st.write_offset
  .ok ⟨{ st with nonce_counter := head.nonce_counter + divCeil torn_bytes MIN_RECORD_LEN }, head⟩

end PagerConfig

end Arkeion
