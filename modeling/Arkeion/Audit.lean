import Arkeion.Commit

/-!
The audit of the hash chain: walking back from the head, then checking every commit forward.
-/

namespace Arkeion

open Arkeion.Lib

/-- A file as the audit sees it: an identity and pages that can be read or not. -/
structure PageReader where
  fileId : Bytes
  readPage : ℕ → Result Bytes
  length_fileId : fileId.length = 16
  length_body : ∀ p b, readPage p = .ok b → b.length = BODY_SIZE

structure AuditReport where
  head : ℕ
  commits : ℕ
  chain_ok : Bool
  chain_hash : Bytes
  deriving DecidableEq, Repr

/-- A version and the chain hash it had. -/
structure AuditAnchor where
  version : ℕ
  chain_hash : Bytes
  deriving DecidableEq, Repr

def AuditReport.anchor (r : AuditReport) : AuditAnchor := ⟨r.head, r.chain_hash⟩

/-- `map_err`: any error of the read becomes `e`; a panic is not an error value. -/
def orBroken {α : Type} (x : Result α) (e : Error) : Result α :=
  match x with
  | .ok a => .ok a
  | .error (.panic m) => .error (.panic m)
  | .error _ => .error e

/-- Collects the headers from `page` back to the start of the chain, oldest first. -/
def walkBack (r : PageReader) (headVersion : ℕ) :
    ℕ → ℕ → List (ℕ × CommitHeader) → Result (List (ℕ × CommitHeader))
  | 0, _, _ => .error .outOfFuel
  | n + 1, page, headers =>
    if page = 0 then .ok headers
    else do
      let at_ := headVersion - headers.length
      let buf ← orBroken (r.readPage page)
        (.chainBroken at_ "página de commit ilegible o corrupta")
      let header ← okOr (CommitHeader.decode buf) (.chainBroken at_ "página de commit mal formada")
      walkBack r headVersion n header.prev_page ((page, header) :: headers)

/-- The bodies of `n` pages from `p` on. -/
def readRun (r : PageReader) (e : Error) : ℕ → ℕ → Result (List Bytes)
  | _, 0 => .ok []
  | p, n + 1 => do
    let b ← orBroken (r.readPage p) e
    let bs ← readRun r e (p + 1) n
    .ok (b :: bs)

structure AuditState where
  prev_chain : Bytes
  expected_version : ℕ
  anchor_seen : Bool
  deriving DecidableEq, Repr

/-- The anchor against one commit: whether it has been met by now. -/
def checkAnchor (anchor : Option AuditAnchor) (seen : Bool) (header : CommitHeader) : Result Bool :=
  match anchor with
  | none => .ok seen
  | some a =>
    if header.version = a.version then do
      require (header.chain_hash = a.chain_hash)
        (.chainBroken header.version "el ancla no coincide: la historia fue reescrita")
      .ok true
    else .ok seen

/-- The forward check of one commit. -/
def auditCommit (sha : Sha256) (r : PageReader) (anchor : Option AuditAnchor) (st : AuditState)
    (c : ℕ × CommitHeader) : Result AuditState := do
  let (pid, header) := c
  let broken (reason : String) : Error := .chainBroken header.version reason
  require (st.expected_version + 1 < 2 ^ 64) (.panic "attempt to add with overflow")
  let expected_version := st.expected_version + 1
  require (header.version = expected_version) (broken "versión fuera de secuencia")
  let data_count := header.pages_written - 1
  require (data_count ≤ pid) (broken "pages_written inválido")
  let bodies ← readRun r (broken "página de datos ilegible o corrupta") (pid - data_count) data_count
  require (sha.digest bodies.flatten = header.content_hash) (broken "content_hash no coincide")
  require (header.prev_chain = st.prev_chain) (broken "prev_chain no enlaza")
  require (header.chain_hash = header.computeChain sha) (broken "chain_hash inconsistente")
  let anchor_seen ← checkAnchor anchor st.anchor_seen header
  .ok ⟨header.chain_hash, expected_version, anchor_seen⟩

/-- An anchor that was given must have been met. -/
def checkSeen (head : Head) (anchor : Option AuditAnchor) (seen : Bool) : Result Unit :=
  match anchor with
  | none => .ok ()
  | some a =>
    require seen
      (if head.version < a.version then
        .chainBroken head.version "el ancla apunta a una versión futura: faltan commits"
      else .chainBroken a.version "la versión del ancla ya no está (compactada por vacuum)")

/-- The version before the first commit of the walk. -/
def startVersion : List (ℕ × CommitHeader) → ℕ
  | [] => 0
  | (_, h) :: _ => if h.isCheckpoint then h.version - 1 else 0

def verifyAnchored (sha : Sha256) (fuel : ℕ) (r : PageReader) (head : Head)
    (anchor : Option AuditAnchor) : Result AuditReport := do
  let headers ← walkBack r head.version fuel head.commit_page []
  let st ← headers.foldlM (auditCommit sha r anchor)
    ⟨genesisChain sha r.fileId, startVersion headers, false⟩
  require (st.expected_version = head.version)
    (.chainBroken st.expected_version "el recorrido no llega al head")
  require (st.prev_chain = head.chain_hash)
    (.chainBroken head.version "el chain_hash del head no coincide")
  checkSeen head anchor st.anchor_seen
  .ok ⟨head.version, headers.length, true, head.chain_hash⟩

def verify (sha : Sha256) (fuel : ℕ) (r : PageReader) (head : Head) : Result AuditReport :=
  verifyAnchored sha fuel r head none

end Arkeion
