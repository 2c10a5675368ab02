import Arkeion.Recovery
import Arkeion.VersionStore

/-!
Compacting a store: a new file begins with a checkpoint of the oldest version to keep, and the
versions after it are written again, each from the difference to the one before.

The rename that puts the new file in the place of the old one does not fail here.
-/

namespace Arkeion

open Arkeion.Lib Btree

/-- Which versions are kept. -/
inductive Retention where
  | keepAll
  | keepLast (count : ℕ)
  | keepSince (ms : ℕ)
  deriving DecidableEq, Repr

structure VacuumReport where
  kept_from : ℕ
  head : ℕ
  reclaimed_versions : ℕ
  pages_before : ℕ
  pages_after : ℕ
  deriving DecidableEq, Repr

lemma length_page_nil : ∀ b ∈ ([] : List Bytes), b.length = BODY_SIZE := List.forall_mem_nil _

/-- A file without pages. -/
def PageLog.new (fileId : { b : Bytes // b.length = 16 }) : PageLog :=
  ⟨fileId.1, [], fileId.2, length_page_nil⟩

/-- A store on a file that is being written, with the meta slots of the file. -/
structure NewFile where
  store : Store
  slotA : Option MetaSlot
  slotB : Option MetaSlot

/-- A file without commits whose pages are sealed from a count on. -/
def NewFile.create (sha : Sha256) (pager : PageLog) (nonce : ℕ) : NewFile where
  store := ⟨pager, genesisHead sha pager.fileId, nonce, false⟩
  slotA := some ⟨0, 0, FIRST_DATA_PAGE⟩
  slotB := some ⟨0, 0, FIRST_DATA_PAGE⟩

/-- A commit, and the meta slot that points to it. -/
def NewFile.publish (f : NewFile) (pager : PageLog) (head : Head) : NewFile where
  store := f.store.install pager head
  slotA := if MetaSlot.slotPage head.version = META_PAGE_A then some (metaFor head) else f.slotA
  slotB := if MetaSlot.slotPage head.version = META_PAGE_A then f.slotB else some (metaFor head)

/-- What opening the file would find. -/
def NewFile.source (sha : Sha256) (f : NewFile) : RecoverySource where
  sha := sha
  fileId := f.store.pager.fileId
  readPage := f.store.pager.readPage
  n_pages := f.store.pager.nPages
  slots := f.slotA.toList ++ f.slotB.toList

namespace Store

section Frontier
variable (n : ℕ) (s : Store)

/-- The loop for `KeepSince` over the versions from `v` on. -/
def sinceLoop (ms : ℕ) : ℕ → ℕ → Result ℕ
  | 0, _ => .ok s.head.version
  | m + 1, v => do
    let hist ← readHist n s.pager s.head.meta_root v
    if ms ≤ hist.2.1 then .ok v else sinceLoop ms m (v + 1)

/-- The oldest version to keep. -/
def vacuumFrontier : Retention → Result ℕ
  | .keepAll => .ok 1
  | .keepLast count => .ok (max (s.head.version - (count - 1)) 1)
  | .keepSince ms => sinceLoop n s ms s.head.version 1

/-- The loop goes on until it has seen another branch than the main one, or all refs. -/
def hasOnlyMainBranch : Result Bool :=
  forScan s.pager n s.head.meta_root (some [META_REF]) (fun entry only =>
    .ok (if only = true ∧ entry.1.head? = some META_REF then
      some (decide (entry.1.tail = utf8 MAIN_BRANCH)) else none)) true

end Frontier

section Build
variable (sha : Sha256) (n : ℕ) (s : Store)

/-- `publish_commit` -/
def publishCommit (f : NewFile) (ts : TxStore) (params : CommitParams)
    (data_root meta_root timestamp_ms : ℕ) : Result NewFile := do
  let (pager, head) ← writeCommitPages sha f.store.nonce_counter ts params data_root meta_root
    timestamp_ms
  .ok (f.publish pager head)

/-- The whole state of version `k` as the first commit of the new file. -/
def checkpoint (f : NewFile) (k : ℕ) : Result NewFile := do
  let snap_k ← snapshotAtVersion n s k
  let items ← snap_k.scan n
  let (data_root, ts) ← applyTargets n (items.map fun item => (item.1, some item.2))
    (TxStore.new f.store.pager) NO_ROOT
  let hist ← readHist n s.pager s.head.meta_root k
  let ts_k := hist.2.1
  let (meta_root, ts) ← writeMetaIndices n ts NO_ROOT k data_root ts_k MAIN_BRANCH 0
  publishCommit sha f ts (.checkpoint k (genesisChain sha f.store.pager.fileId) MAIN_BRANCH)
    data_root meta_root ts_k

/-- Version `v` again, on the new file that has the version before. -/
def replayVersion (f : NewFile) (v : ℕ) : Result NewFile := do
  let prev_root ← readDataRoot n s.pager s.head.meta_root (v - 1)
  let cur_root ← readDataRoot n s.pager s.head.meta_root v
  let diffs ← Btree.diff s.pager n prev_root cur_root
  let (data_root, ts) ← applyTargets n (diffs.map fun d => (d.1, d.2.target))
    (TxStore.new f.store.pager) f.store.head.data_root
  let hist ← readHist n s.pager s.head.meta_root v
  let ts_v := hist.2.1
  let (meta_root, ts) ← writeMetaIndices n ts f.store.head.meta_root v data_root ts_v MAIN_BRANCH
    (v - 1)
  publishCommit sha f ts (.after f.store.head MAIN_BRANCH f.store.head.commit_page) data_root
    meta_root ts_v

def replay : ℕ → ℕ → NewFile → Result NewFile
  | 0, _, f => .ok f
  | m + 1, v, f => do
    let f ← replayVersion sha n s f v
    replay m (v + 1) f

/-- The new file, and the oldest version that is kept. -/
def buildCompacted (f : NewFile) (retention : Retention) : Result (NewFile × ℕ) :=
  if s.head.version = 0 then .ok (f, 0)
  else do
    let k ← vacuumFrontier n s retention
    let f ← checkpoint sha n s f k
    let f ← replay sha n s (s.head.version - k) (k + 1) f
    .ok (f, k)

/-- `vacuum`; the new file gets the identity `fileId`. The store goes on with it. -/
def vacuum (retention : Retention) (fileId : { b : Bytes // b.length = 16 }) :
    Result (VacuumReport × NewFile) := do
  require (s.held = false) .busy
  let only_main ← if s.head.version ≠ 0 then hasOnlyMainBranch n s else .ok true
  require (only_main = true) (.invalidInput
    "vacuum requiere una sola rama: fusiona o borra las demás antes de compactar")
  let (f, kept_from) ← buildCompacted sha n s (.create sha (.new fileId) s.nonce_counter) retention
  .ok (⟨kept_from, s.head.version, kept_from - 1, s.head.n_pages, f.store.head.n_pages⟩, f)

end Build

end Store

end Arkeion
