import Arkeion.ReadMono
import Arkeion.TxStore

/-!
The versioned store over one file: branches, versions, transactions and merges.

Each commit records in the meta tree its version with the data root, the time and the parent
version, and moves the ref of its branch to it. There is one writer at a time. The file does
not fail here; what a commit takes from outside is the hash, the time and the pager's count of
sealed pages.
-/

namespace Arkeion

open Arkeion.Lib Btree

def META_REF : UInt8 := 1
def META_HIST : UInt8 := 2
def MAIN_BRANCH : String := "main"

def ADD_OVERFLOW : Error := .panic "attempt to add with overflow"

def histKey (version : ℕ) : Bytes := META_HIST :: beBytes 8 version

def refKey (branch : String) : Bytes := META_REF :: utf8 branch

/-- The data root of `genesis_head`. -/
def GENESIS_ROOT : ℕ := 0

/-- `PagerSource`: the pages of the file. -/
instance instPagerSource : NodeSource PageLog where
  body := PageLog.readPage

/-- `DbState` with the gate of the writer; `nonce_counter` is the pager's. -/
structure Store where
  pager : PageLog
  head : Head
  nonce_counter : ℕ
  held : Bool

structure Snapshot where
  pager : PageLog
  version : ℕ
  data_root : ℕ

structure BranchHead where
  version : ℕ
  data_root : ℕ
  commit_page : ℕ
  deriving DecidableEq, Repr

structure Revision where
  version : ℕ
  timestamp : ℕ
  parent : ℕ
  deriving DecidableEq, Repr

namespace Store

/-! ### The meta tree -/

section Meta
variable (n : ℕ) (pager : PageLog) (meta_root : ℕ)

/-- The version a branch points to, if it has one. -/
def readRef (branch : String) : Result (Option ℕ) := do
  let found ← get pager n meta_root (refKey branch)
  match found with
  | none => .ok none
  | some raw => do
    let b ← okOr (slice? raw 0 8) (.corruptRecord "ref de rama truncada")
    .ok (some (leNat b))

/-- The data root, the time and the parent of a version. -/
def readHist (version : ℕ) : Result (ℕ × ℕ × ℕ) := do
  let found ← get pager n meta_root (histKey version)
  let raw ← okOr found (.versionNotFound (.version version))
  let data_root ← okOr (slice? raw 0 8) (.corruptRecord "entrada histórica truncada")
  let ts ← okOr (slice? raw 8 8) (.corruptRecord "entrada histórica truncada")
  .ok (leNat data_root, leNat ts, ((slice? raw 16 8).map leNat).getD 0)

def readDataRoot (version : ℕ) : Result ℕ :=
  if version = 0 then .ok GENESIS_ROOT
  else do
    let hist ← readHist n pager meta_root version
    .ok hist.1

def readParentVersion (version : ℕ) : Result ℕ :=
  if version = 0 then .ok 0
  else do
    let hist ← readHist n pager meta_root version
    .ok hist.2.2

/-- The first loop of `merge_base`: the version and its ancestors. -/
def ancestors : ℕ → ℕ → Result (List ℕ)
  | 0, _ => .error .outOfFuel
  | k + 1, v =>
    if v = 0 then .ok [0]
    else do
      let parent ← readParentVersion n pager meta_root v
      let rest ← ancestors k parent
      .ok (v :: rest)

/-- The second loop: the first of the version and its ancestors that was seen. -/
def firstAmong (seen : List ℕ) : ℕ → ℕ → Result ℕ
  | 0, _ => .error .outOfFuel
  | k + 1, v =>
    if v ∈ seen then .ok v
    else if v = 0 then .ok 0
    else do
      let parent ← readParentVersion n pager meta_root v
      firstAmong seen k parent

def mergeBase (vf vi : ℕ) : Result ℕ := do
  let seen ← ancestors n pager meta_root n vf
  firstAmong n pager meta_root seen n vi

end Meta

/-! ### Reading -/

section Read
variable (n : ℕ) (s : Store)

def resolveBranchHead (branch : String) : Result BranchHead := do
  let found ← readRef n s.pager s.head.meta_root branch
  match found with
  | some version =>
    if version = s.head.version then .ok ⟨version, s.head.data_root, s.head.commit_page⟩
    else do
      let data_root ← readDataRoot n s.pager s.head.meta_root version
      .ok ⟨version, data_root, 0⟩
  | none =>
    -- `main` is there before its first commit
    if branch = MAIN_BRANCH then .ok ⟨0, GENESIS_ROOT, 0⟩ else .error (.branchNotFound branch)

def snapshot : Snapshot := ⟨s.pager, s.head.version, s.head.data_root⟩

def snapshotOn (branch : String) : Result Snapshot := do
  let bh ← resolveBranchHead n s branch
  .ok ⟨s.pager, bh.version, bh.data_root⟩

def genesisSnapshot : Snapshot := ⟨s.pager, 0, GENESIS_ROOT⟩

def snapshotAtVersion (v : ℕ) : Result Snapshot :=
  if v = s.head.version then .ok s.snapshot
  else if s.head.version < v then .error (.versionNotFound (.version v))
  else if v = 0 then .ok s.genesisSnapshot
  else do
    let data_root ← readDataRoot n s.pager s.head.meta_root v
    .ok ⟨s.pager, v, data_root⟩

/-- A key of the history: its prefix and eight bytes. -/
def isHistKey (key : Bytes) : Bool := key.head? == some META_HIST && key.length == 1 + 8

/-- The last version in the scan with a time not after `ms`. -/
def snapshotAtTimestamp (ms : ℕ) : Result Snapshot := do
  let best ← forScan s.pager n s.head.meta_root (some [META_HIST]) (fun entry best =>
    if isHistKey entry.1 then do
      let ts ← okOr (slice? entry.2 8 8) (.corruptRecord "entrada histórica truncada")
      .ok (some (if leNat ts ≤ ms then some (beNat (entry.1.drop 1)) else best))
    else .ok none) none
  match best with
  | none => .ok s.genesisSnapshot
  | some v => snapshotAtVersion n s v

def snapshotAt : AsOf → Result Snapshot
  | .head => .ok s.snapshot
  | .version v => snapshotAtVersion n s v
  | .timestamp ms => snapshotAtTimestamp n s ms

def diffBranches (a b : String) : Result (List KeyDiff) := do
  let from_head ← resolveBranchHead n s a
  let to_head ← resolveBranchHead n s b
  Btree.diff s.pager n from_head.data_root to_head.data_root

def diffVersions (a b : ℕ) : Result (List KeyDiff) := do
  let from_root ← readDataRoot n s.pager s.head.meta_root a
  let to_root ← readDataRoot n s.pager s.head.meta_root b
  Btree.diff s.pager n from_root to_root

def history : Result (List Revision) :=
  forScan s.pager n s.head.meta_root (some [META_HIST]) (fun entry out =>
    if isHistKey entry.1 then do
      let ts ← okOr (slice? entry.2 8 8) (.corruptRecord "entrada histórica truncada")
      let parent := ((slice? entry.2 16 8).map leNat).getD 0
      .ok (some (out ++ [⟨beNat (entry.1.drop 1), leNat ts, parent⟩]))
    else .ok none) []

end Read

end Store

namespace Snapshot

def get (n : ℕ) (s : Snapshot) (key : Bytes) : Result (Option Bytes) :=
  Btree.get s.pager n s.data_root key

def scan (n : ℕ) (s : Snapshot) : Result Entries := Btree.scan s.pager n s.data_root

end Snapshot

/-! ### Writing a commit -/

/-- The bodies of the pages a transaction was given, in order of their ids; a freed one is a page
of zeros. -/
def TxPages.bodies (p : TxPages) : List Bytes :=
  (List.range (p.alloc_next - p.alloc_base)).map fun i =>
    (valueOf (p.alloc_base + i) p.dirty).getD zeroBody

/-- The file with more pages; that a page has its size is a matter of types in the source. -/
def PageLog.extend (l : PageLog) (bodies : List Bytes) : Result PageLog :=
  if h : ∀ b ∈ bodies, b.length = BODY_SIZE then
    .ok ⟨l.fileId, l.pages ++ bodies, l.length_fileId, fun b hb =>
      (List.mem_append.1 hb).elim (l.length_page b) (h b)⟩
  else .error (.panic "página de otro tamaño")

namespace Store

section Commit
variable (sha : Sha256) (n : ℕ)

def histVal (data_root timestamp_ms parent_version : ℕ) : Bytes :=
  leBytes 8 data_root ++ leBytes 8 timestamp_ms ++ leBytes 8 parent_version

def writeMetaIndices (ts : TxStore) (meta_root version data_root timestamp_ms : ℕ)
    (branch : String) (parent_version : ℕ) : Result (ℕ × TxStore) := do
  let (root, ts) ← insert n ts meta_root (histKey version)
    (histVal data_root timestamp_ms parent_version)
  insert n ts root (refKey branch) (leBytes 8 version)

/-- The file with the pages of the transaction and the commit page behind them, and the new
head. -/
def writeCommitPages (nonce : ℕ) (ts : TxStore) (params : CommitParams)
    (data_root meta_root timestamp_ms : ℕ) : Result (PageLog × Head) := do
  let bodies := ts.bodies
  require (ts.alloc_next + 1 < 2 ^ 64 ∧ nonce + bodies.length + 1 < 2 ^ 64) ADD_OVERFLOW
  let header := commitHeader sha params ⟨data_root, meta_root, timestamp_ms⟩
    (nonce + bodies.length) bodies
  let pager ← ts.pager.extend (bodies ++ [commitBody header])
  .ok (pager, headFrom header ts.alloc_next)

/-- The store after a commit was installed, with the gate open. -/
def install (s : Store) (pager : PageLog) (head : Head) : Store :=
  { s with pager := pager, head := head, nonce_counter := head.nonce_counter, held := false }

end Commit

end Store

/-! ### Transactions -/

/-- A point to return to inside a transaction. -/
structure Savepoint where
  name : String
  data_root : ℕ
  rowid_cache : List (ℕ × ℤ)
  dirty : List (ℕ × Bytes)
  freed : List ℕ
  alloc_next : ℕ

/-- A transaction that writes on a branch. `base` is the head of the store when it began; the
roots and the parent are those of the branch. -/
structure WriteTx where
  base : Head
  branch : String
  parent_page : ℕ
  parent_version : ℕ
  data_root : ℕ
  meta_root : ℕ
  ts : TxStore
  rowid_cache : List (ℕ × ℤ)
  savepoints : List Savepoint

/-- A signed 64-bit integer in little-endian bytes. -/
def i64Bytes (i : ℤ) : Bytes := leBytes 8 (i % 2 ^ 64).toNat

/-- The key of the rowid counter of a table. -/
def counterKey (table_id : ℕ) : Bytes := [0, 2] ++ beBytes 4 table_id

/-- `write_counter` -/
def writeCounter (n : ℕ) (ts : TxStore) (root table_id : ℕ) (next : ℤ) : Result (ℕ × TxStore) :=
  insert n ts root (counterKey table_id) (i64Bytes next)

/-- The rowid counters of the transaction, written to the data tree one after the other. -/
def writeCounters (n : ℕ) : List (ℕ × ℤ) → TxStore → ℕ → Result (ℕ × TxStore)
  | [], ts, root => .ok (root, ts)
  | (table_id, next) :: counters, ts, root => do
    let (root, ts) ← writeCounter n ts root table_id next
    writeCounters n counters ts root

namespace WriteTx

/-- `begin_on` -/
def beginOn (n : ℕ) (s : Store) (branch : String) : Result (WriteTx × Store) := do
  require (s.held = false) .busy
  let bh ← s.resolveBranchHead n branch
  .ok (⟨s.head, branch, bh.commit_page, bh.version, bh.data_root, s.head.meta_root,
    TxStore.new s.pager, [], []⟩, { s with held := true })

section Ops
variable (n : ℕ) (tx : WriteTx)

def get (key : Bytes) : Result (Option Bytes) := Btree.get tx.ts n tx.data_root key

def scan : Result Entries := Btree.scan tx.ts n tx.data_root

def put (key value : Bytes) : Result WriteTx := do
  let (root, ts) ← insert n tx.ts tx.data_root key value
  .ok { tx with ts := ts, data_root := root }

/-- Whether the key existed, and the transaction after it. -/
def delete (key : Bytes) : Result (Bool × WriteTx) := do
  let (root, existed, ts) ← Btree.delete n tx.ts tx.data_root key
  .ok (existed, { tx with ts := ts, data_root := root })

/-- The new version, or the head of the branch if nothing was touched. -/
def commit (sha : Sha256) (now : ℕ) (s : Store) : Result (ℕ × Store) :=
  if tx.ts.dirty = [] ∧ tx.data_root = tx.base.data_root then
    .ok (tx.parent_version, { s with held := false })
  else do
    let (data_root, ts) ← writeCounters n tx.rowid_cache tx.ts tx.data_root
    let version := tx.base.version + 1
    require (version < 2 ^ 64) ADD_OVERFLOW
    let (meta_root, ts) ← Store.writeMetaIndices n ts tx.meta_root version data_root now tx.branch
      tx.parent_version
    let (pager, head) ← Store.writeCommitPages sha s.nonce_counter ts
      (.after tx.base tx.branch tx.parent_page) data_root meta_root now
    .ok (version, s.install pager head)

end Ops

/-! ### Savepoints -/

section Savepoints
variable (tx : WriteTx) (name : String)

def savepoint : WriteTx :=
  { tx with savepoints := tx.savepoints
      ++ [⟨name, tx.data_root, tx.rowid_cache, tx.ts.dirty, tx.ts.freed, tx.ts.alloc_next⟩] }

/-- `rposition`: the last savepoint of the name. -/
def lastSavepoint : Option ℕ :=
  (List.range tx.savepoints.length).reverse.find? fun pos =>
    (tx.savepoints[pos]?.map Savepoint.name) == some name

/-- `rollback_to_savepoint`; the savepoint itself stays. -/
def rollbackToSavepoint : Result WriteTx := do
  let pos ← okOr (tx.lastSavepoint name) (.invalidInput "savepoint desconocido")
  let sp ← okOr tx.savepoints[pos]? (.panic "index out of bounds")
  .ok { tx with
    data_root := sp.data_root
    rowid_cache := sp.rowid_cache
    ts := { tx.ts with
      dirty := sp.dirty, freed := sp.freed, alloc_next := sp.alloc_next, append_cursor := none }
    savepoints := tx.savepoints.take (pos + 1) }

def releaseSavepoint : Result WriteTx := do
  let pos ← okOr (tx.lastSavepoint name) (.invalidInput "savepoint desconocido")
  .ok { tx with savepoints := tx.savepoints.take pos }

end Savepoints

end WriteTx

/-! ### Branches -/

namespace Store

section Branches
variable (sha : Sha256) (n now : ℕ) (s : Store)

def createBranch (name : String) (start : AsOf) : Result Store := do
  require ((utf8 name) ≠ [] ∧ (utf8 name).length ≤ BRANCH_MAX)
    (.invalidInput "nombre de rama vacío o de más de 64 bytes")
  require (s.held = false) .busy
  let found ← readRef n s.pager s.head.meta_root name
  require (found = none) (.branchExists name)
  let snap ← snapshotAt n s start
  let from_root ← readDataRoot n s.pager s.head.meta_root snap.version
  let version := s.head.version + 1
  require (version < 2 ^ 64) ADD_OVERFLOW
  let (meta_root, ts) ← writeMetaIndices n (TxStore.new s.pager) s.head.meta_root version from_root
    now name snap.version
  let (pager, head) ← writeCommitPages sha s.nonce_counter ts (.after s.head name s.head.commit_page)
    from_root meta_root now
  .ok (s.install pager head)

def dropBranch (name : String) : Result Store := do
  require (name ≠ MAIN_BRANCH) (.invalidInput "no se puede borrar la rama principal")
  require (s.held = false) .busy
  let found ← readRef n s.pager s.head.meta_root name
  require (found ≠ none) (.branchNotFound name)
  let main ← resolveBranchHead n s MAIN_BRANCH
  let version := s.head.version + 1
  require (version < 2 ^ 64) ADD_OVERFLOW
  let (meta_root, _, ts) ← Btree.delete n (TxStore.new s.pager) s.head.meta_root (refKey name)
  let (meta_root, ts) ← writeMetaIndices n ts meta_root version main.data_root now MAIN_BRANCH
    main.version
  let (pager, head) ← writeCommitPages sha s.nonce_counter ts
    (.after s.head MAIN_BRANCH main.commit_page) main.data_root meta_root now
  .ok (s.install pager head)

end Branches

/-! ### Merging -/

structure MergeReport where
  version : ℕ
  applied : ℕ
  deriving DecidableEq, Repr

/-- The first eight bytes as a signed integer, little-endian; missing ones are zero. -/
def decodeI64Le (b : Bytes) : ℤ :=
  let v := leNat (b.take 8)
  if v < 2 ^ 63 then v else v - 2 ^ 64

/-- The rowid counters of the catalog. -/
def isCounterKey : Bytes → Bool
  | 0 :: 2 :: _ => true
  | _ => false

def maxCounter (a b : Bytes) : Bytes := if decodeI64Le b ≤ decodeI64Le a then a else b

/-- The loop of `merge_locked`: what is to be applied, and the conflicts. -/
def planMerge (into_targets : List (Bytes × Option Bytes)) :
    List KeyDiff → List (Bytes × Option Bytes) × List MergeConflict
  | [] => ([], [])
  | c :: cs =>
    let rest := planMerge into_targets cs
    let tf := c.2.target
    match valueOf c.1 into_targets with
    | none => ((c.1, tf) :: rest.1, rest.2)
    | some ti =>
      if isCounterKey c.1 ∧ tf.isSome ∧ ti.isSome then
        ((c.1, some (maxCounter (tf.getD []) (ti.getD []))) :: rest.1, rest.2)
      else if tf = ti then rest
      else (rest.1, ⟨c.1, tf, ti⟩ :: rest.2)

/-- Keys taken to their states in a tree. -/
def applyTargets (n : ℕ) : List (Bytes × Option Bytes) → TxStore → ℕ → Result (ℕ × TxStore)
  | [], ts, root => .ok (root, ts)
  | (key, some v) :: targets, ts, root => do
    let (root, ts) ← insert n ts root key v
    applyTargets n targets ts root
  | (key, none) :: targets, ts, root => do
    let (root, _, ts) ← Btree.delete n ts root key
    applyTargets n targets ts root

section Merge
variable (sha : Sha256) (n now : ℕ) (s : Store) (src dst : String)

/-- What `merge_locked` is to apply and the conflicts it finds, with the root and the version of
the branch it merges into. -/
def mergePlan : Result ((List (Bytes × Option Bytes) × List MergeConflict) × ℕ × ℕ) := do
  let found ← readRef n s.pager s.head.meta_root src
  let vf ← okOr found (.branchNotFound src)
  let found ← readRef n s.pager s.head.meta_root dst
  let vi ← okOr found (.branchNotFound dst)
  let base_v ← mergeBase n s.pager s.head.meta_root vf vi
  let base_root ← readDataRoot n s.pager s.head.meta_root base_v
  let from_root ← readDataRoot n s.pager s.head.meta_root vf
  let into_root ← readDataRoot n s.pager s.head.meta_root vi
  let from_changes ← Btree.diff s.pager n base_root from_root
  let into_changes ← Btree.diff s.pager n base_root into_root
  let into_targets := into_changes.map fun c => (c.1, c.2.target)
  .ok (planMerge into_targets from_changes, into_root, vi)

def merge : Result (MergeReport × Store) := do
  require (s.held = false) .busy
  let (plan, into_root, vi) ← mergePlan n s src dst
  require (plan.2 = []) (.conflict plan.2)
  if plan.1 = [] then .ok (⟨vi, 0⟩, s)
  else do
    let (data_root, ts) ← applyTargets n plan.1 (TxStore.new s.pager) into_root
    let version := s.head.version + 1
    require (version < 2 ^ 64) ADD_OVERFLOW
    let into_commit_page := if vi = s.head.version then s.head.commit_page else 0
    let (meta_root, ts) ← writeMetaIndices n ts s.head.meta_root version data_root now dst vi
    let (pager, head) ← writeCommitPages sha s.nonce_counter ts
      (.after s.head dst into_commit_page) data_root meta_root now
    .ok (⟨version, plan.1.length⟩, s.install pager head)

end Merge

/-- A store over a file without commits. -/
def create (sha : Sha256) (pager : PageLog) : Store :=
  ⟨pager, genesisHead sha pager.fileId, 0, false⟩

end Store

end Arkeion
