import Arkeion.CommitWrite
import Arkeion.AuditSpec

/-!
The file as a list of page bodies, and the histories the engine writes into it.

Every commit appends its dirty pages and its commit page after them. What a history wrote is
kept beside it as a list of headers and bodies, so that a file can be compared with it.
-/

namespace Arkeion

open Arkeion.Lib

/-- A file by its identity and its page bodies; the first has the id `FIRST_DATA_PAGE`. -/
structure PageLog where
  fileId : Bytes
  pages : List Bytes
  length_fileId : fileId.length = 16
  length_page : ∀ b ∈ pages, b.length = BODY_SIZE

namespace PageLog

def nPages (l : PageLog) : ℕ := FIRST_DATA_PAGE + l.pages.length

def readPage (l : PageLog) (id : ℕ) : Result Bytes :=
  if id < FIRST_DATA_PAGE then .error (.panic "las páginas estructurales no pasan por read_page")
  else okOr l.pages[id - FIRST_DATA_PAGE]? (.corrupt id "página fuera de rango")

def reader (l : PageLog) : PageReader where
  fileId := l.fileId
  readPage := l.readPage
  length_fileId := l.length_fileId
  length_body := by
    intro p b h
    unfold readPage at h
    split at h
    · cases h
    · rw [okOr_eq_ok] at h
      exact l.length_page b (List.mem_of_getElem? h)

end PageLog

/-- A commit as the engine wrote it: its header and the bodies of its data pages. -/
structure Written where
  header : CommitHeader
  bodies : List Bytes
  deriving DecidableEq, Repr

/-- The files the engine builds, with their live head and all they were written with. -/
inductive Built (sha : Sha256) : PageLog → Head → List Written → Prop
  | genesis {l : PageLog} : l.pages = [] → Built sha l (genesisHead sha l.fileId) []
  /-- the first commit of a compacted file -/
  | checkpoint {l l' : PageLog} {version : ℕ} {branch : String} {d : CommitData} {nonce : ℕ}
      {dirty : List Bytes} {h : CommitHeader} :
      l.pages = [] → 0 < version →
      h = commitHeader sha (.checkpoint version (genesisChain sha l.fileId) branch) d nonce dirty →
      h.Sized → l'.fileId = l.fileId → l'.pages = dirty ++ [commitBody h] →
      Built sha l' (headFrom h (l.nPages + dirty.length)) [⟨h, dirty⟩]
  | commit {l l' : PageLog} {head : Head} {ws : List Written} {branch : String} {parent_page : ℕ}
      {d : CommitData} {nonce : ℕ} {dirty : List Bytes} {h : CommitHeader} :
      Built sha l head ws →
      h = commitHeader sha (.after head branch parent_page) d nonce dirty →
      h.Sized → l'.fileId = l.fileId → l'.pages = l.pages ++ dirty ++ [commitBody h] →
      Built sha l' (headFrom h (l.nPages + dirty.length)) (ws ++ [⟨h, dirty⟩])

/-- What holds of a commit written after version `v` and digest `prev`. -/
structure WrittenOk (sha : Sha256) (prev : Bytes) (v : ℕ) (w : Written) : Prop where
  sized : w.header.Sized
  version : w.header.version = v + 1
  length_body : ∀ b ∈ w.bodies, b.length = BODY_SIZE
  content : w.header.content_hash = sha.digest w.bodies.flatten
  prev_chain : w.header.prev_chain = prev
  chain_hash : w.header.chain_hash = w.header.computeChain sha

/-- A history written commit by commit. -/
def WrittenFrom (sha : Sha256) : Bytes → ℕ → List Written → Prop
  | _, _, [] => True
  | prev, v, w :: ws => WrittenOk sha prev v w ∧ WrittenFrom sha w.header.chain_hash (v + 1) ws

/-- The digest after the last commit. -/
def writtenEnd (prev : Bytes) (ws : List Written) : Bytes :=
  ws.foldl (fun _ w => w.header.chain_hash) prev

lemma WrittenFrom.snoc {sha : Sha256} {prev : Bytes} {v : ℕ} {ws : List Written} {w : Written}
    (h : WrittenFrom sha prev v ws) (hw : WrittenOk sha (writtenEnd prev ws) (v + ws.length) w) :
    WrittenFrom sha prev v (ws ++ [w]) := by
  induction ws generalizing prev v with
  | nil => exact ⟨hw, trivial⟩
  | cons x xs ih =>
    refine ⟨h.1, ih h.2 ?_⟩
    rwa [List.length_cons, show v + (xs.length + 1) = v + 1 + xs.length by omega] at hw

lemma commitHeader_chain (sha : Sha256) (p : CommitParams) (d : CommitData) (nonce : ℕ)
    (bodies : List Bytes) :
    (commitHeader sha p d nonce bodies).chain_hash
      = (commitHeader sha p d nonce bodies).computeChain sha := rfl

/-- The engine's histories are written from the genesis link on, and end at the head. -/
theorem Built.written {sha : Sha256} {l : PageLog} {head : Head} {ws : List Written}
    (h : Built sha l head ws) :
    ∃ v, WrittenFrom sha (genesisChain sha l.fileId) v ws ∧ v + ws.length = head.version ∧
      writtenEnd (genesisChain sha l.fileId) ws = head.chain_hash := by
  induction h with
  | genesis _ => exact ⟨0, trivial, rfl, rfl⟩
  | @checkpoint l l' version branch d nonce dirty hd _ hv hh hs hid hp =>
    have hlen : ∀ b ∈ dirty, b.length = BODY_SIZE := fun b hb => l'.length_page b (by simp [hp, hb])
    refine ⟨version - 1, ⟨⟨hs, ?_, hlen, ?_, ?_, ?_⟩, trivial⟩, ?_, ?_⟩
    · simp only [hh, commitHeader, CommitParams.checkpoint]; omega
    · rw [hh]; rfl
    · rw [hh, hid]; rfl
    · simp only [hh]; rfl
    · simp only [headFrom, hh, commitHeader, CommitParams.checkpoint, List.length_singleton]; omega
    · rfl
  | @commit l l' head ws branch parent d nonce dirty hd _ hh hs hid hp ih =>
    obtain ⟨v, hfrom, hv, hend⟩ := ih
    have hlen : ∀ b ∈ dirty, b.length = BODY_SIZE := fun b hb => l'.length_page b (by simp [hp, hb])
    rw [hid]
    refine ⟨v, hfrom.snoc ⟨hs, ?_, hlen, ?_, ?_, ?_⟩, ?_, by simp [writtenEnd, headFrom]⟩
    · simp only [hh, commitHeader, CommitParams.after]; omega
    · rw [hh]; rfl
    · rw [hend, hh]; rfl
    · simp only [hh]; rfl
    · simp only [headFrom, hh, commitHeader, CommitParams.after, List.length_append,
        List.length_singleton]
      omega

lemma Built.version_of_nil {sha : Sha256} {l : PageLog} {head : Head} {ws : List Written}
    (h : Built sha l head ws) (hw : ws = []) : head.version = 0 := by
  cases h with
  | genesis _ => rfl
  | checkpoint _ _ _ _ _ _ => simp at hw
  | commit _ _ _ _ _ => simp at hw

end Arkeion
