import Arkeion.PagerSpec
import Arkeion.PageLog

/-!
What recovery finds when the pages of a history can be read.

A history is linked when every commit follows the head before it and its page decodes to a
self-consistent header. The scan forward adopts the commits of a linked history one by one,
up to where the readable pages no longer lead to a commit that follows.
-/

namespace Arkeion

open Arkeion.Lib

/-- The head after a commit. -/
def nextHead (head : Head) (w : Written) : Head := headFrom w.header (head.n_pages + w.bodies.length)

def headOf (head : Head) (ws : List Written) : Head := ws.foldl nextHead head

/-- What a commit after `head` is, for recovery to adopt it. -/
structure LinkOk (sha : Sha256) (head : Head) (w : Written) : Prop where
  sized : w.header.Sized
  version : w.header.version = head.version + 1
  prev_chain : w.header.prev_chain = head.chain_hash
  full : ∀ b ∈ w.bodies, b.length = BODY_SIZE
  nodes : ∀ b ∈ w.bodies, CommitHeader.decode b = none
  decodes : ∃ h, CommitHeader.decode (commitBody w.header) = some h ∧ h.selfConsistent sha = true

def Linked (sha : Sha256) : Head → List Written → Prop
  | _, [] => True
  | head, w :: ws => LinkOk sha head w ∧ Linked sha (nextHead head w) ws

/-- The pages of a commit, with the counters its header tells they were sealed under. -/
def sealedFrom : ℕ → List Bytes → List SealedPage
  | _, [] => []
  | counter, b :: bs => ⟨counter, b⟩ :: sealedFrom (counter + 1) bs

def Written.pages (w : Written) : List SealedPage :=
  sealedFrom (w.header.nonce_counter - 1 - w.bodies.length) (w.bodies ++ [commitBody w.header])

def chainPages (ws : List Written) : List SealedPage := ws.flatMap Written.pages

section Lists
variable {sha : Sha256} {head : Head} {w : Written} {ws vs : List Written}

@[simp] lemma length_sealedFrom (c : ℕ) (bs : List Bytes) : (sealedFrom c bs).length = bs.length := by
  induction bs generalizing c with
  | nil => rfl
  | cons b bs ih => simp [sealedFrom, ih]

lemma sealedFrom_body (c : ℕ) (bs : List Bytes) : (sealedFrom c bs).map SealedPage.body = bs := by
  induction bs generalizing c with
  | nil => rfl
  | cons b bs ih => simp [sealedFrom, ih]

@[simp] lemma Written.length_pages (w : Written) : w.pages.length = w.bodies.length + 1 := by
  simp [pages]

lemma headOf_append : headOf head (ws ++ vs) = headOf (headOf head ws) vs := by
  simp [headOf]

lemma Linked.append : Linked sha head (ws ++ vs) ↔
    Linked sha head ws ∧ Linked sha (headOf head ws) vs := by
  induction ws generalizing head with
  | nil => simp [Linked, headOf]
  | cons w ws ih => simp [Linked, ih, headOf, and_assoc]

lemma chainPages_append : chainPages (ws ++ vs) = chainPages ws ++ chainPages vs := by
  simp [chainPages]

/-- The head's page count is that of the pages before and its commits'. -/
lemma headOf_n_pages : (headOf head ws).n_pages = head.n_pages + (chainPages ws).length := by
  induction ws generalizing head with
  | nil => rfl
  | cons w ws ih =>
    have h := @ih (nextHead head w)
    simp only [headOf, List.foldl_cons] at h ⊢
    rw [h]
    simp only [nextHead, headFrom, chainPages, List.flatMap_cons, List.length_append,
      Written.length_pages]
    omega

lemma headOf_snoc : headOf head (ws ++ [w]) = nextHead (headOf head ws) w := by
  simp [headOf]

lemma Linked.full (h : Linked sha head ws) : FullPages (chainPages ws) := by
  induction ws generalizing head with
  | nil => simp [chainPages, FullPages]
  | cons w ws ih =>
    intro p hp
    simp only [chainPages, List.flatMap_cons, List.mem_append] at hp
    rcases hp with hp | hp
    · have hbody : p.body ∈ w.bodies ++ [commitBody w.header] := by
        have := List.mem_map_of_mem (f := SealedPage.body) hp
        rwa [Written.pages, sealedFrom_body] at this
      rcases List.mem_append.1 hbody with hb | hb
      · exact h.1.full _ hb
      · rw [List.mem_singleton.1 hb]
        exact CommitHeader.length_encodeInto h.1.sized (by simp [zeroBody])
    · exact ih h.2 p hp

end Lists

/-- The head a decoded commit page gives is the one the written header gives. -/
lemma headFrom_decoded {h h' : CommitHeader} (hs : h.Sized)
    (hd : CommitHeader.decode (commitBody h) = some h') (page : ℕ) :
    headFrom h' page = headFrom h page := by
  rw [CommitHeader.decode_fields hs hd]
  rfl

namespace RecoverySource
variable {src : RecoverySource} {head : Head} {ws : List Written} {w : Written}

/-- The pages from `pid` on can be read, and have these bodies. -/
def HoldsFrom (src : RecoverySource) (pid : ℕ) (bodies : List Bytes) : Prop :=
  ∀ i b, bodies[i]? = some b → src.readPage (pid + i) = .ok b

lemma HoldsFrom.append {pid : ℕ} {a b : List Bytes} (h : src.HoldsFrom pid (a ++ b)) :
    src.HoldsFrom pid a ∧ src.HoldsFrom (pid + a.length) b := by
  constructor
  · intro i b hb
    exact h i b (by rw [List.getElem?_append_left (List.getElem?_eq_some_iff.1 hb).1, hb])
  · intro i b hb
    rw [Nat.add_assoc]
    exact h _ b (by rw [List.getElem?_append_right (by omega), Nat.add_sub_cancel_left, hb])

/-- Data pages are passed over. -/
lemma forwardScan_skip {pid n : ℕ} {bodies : List Bytes} (h : src.HoldsFrom pid bodies)
    (hn : ∀ b ∈ bodies, CommitHeader.decode b = none) :
    src.forwardScan (bodies.length + n) pid head
      = src.forwardScan n (pid + bodies.length) head := by
  induction bodies generalizing pid with
  | nil => simp
  | cons b bs ih =>
    have hb := h 0 b rfl
    rw [Nat.add_zero] at hb
    have hrest : src.HoldsFrom (pid + 1) bs := (HoldsFrom.append (a := [b]) (b := bs) h).2
    rw [List.length_cons, show bs.length + 1 + n = bs.length + n + 1 by omega, forwardScan, hb]
    simp only [hn b (by simp)]
    rw [ih hrest fun c hc => hn c (by simp [hc])]
    congr 1
    omega

/-- The scan takes a commit that follows. -/
lemma adopts_of_linkOk (h : LinkOk src.sha head w) {hd : CommitHeader}
    (hdec : CommitHeader.decode (commitBody w.header) = some hd)
    (hself : hd.selfConsistent src.sha = true) : src.adopts head hd = true := by
  have hfields := CommitHeader.decode_fields h.sized hdec
  have hv : hd.version = head.version + 1 := by rw [hfields]; exact h.version
  have hp : hd.prev_chain = head.chain_hash := by rw [hfields]; exact h.prev_chain
  simp [adopts, hv, hp, hself]

lemma forwardScan_commit {n : ℕ} (h : LinkOk src.sha head w)
    (hold : src.HoldsFrom head.n_pages (w.pages.map SealedPage.body)) :
    src.forwardScan (w.pages.length + n) head.n_pages head
      = src.forwardScan n (nextHead head w).n_pages (nextHead head w) := by
  rw [Written.pages, sealedFrom_body] at hold
  obtain ⟨hdata, hcommit⟩ := hold.append
  obtain ⟨hd, hdec, hself⟩ := h.decodes
  have hread := hcommit 0 _ rfl
  rw [Nat.add_zero] at hread
  rw [Written.length_pages, Nat.add_assoc, forwardScan_skip hdata h.nodes, Nat.add_comm 1 n,
    forwardScan, hread]
  simp only [hdec, adopts_of_linkOk h hdec hself, if_true, headFrom_decoded h.sized hdec]
  rfl

/-- The scan goes through a linked history whose pages can be read. -/
theorem forwardScan_linked {n : ℕ} (h : Linked src.sha head ws)
    (hold : src.HoldsFrom head.n_pages ((chainPages ws).map SealedPage.body)) :
    src.forwardScan ((chainPages ws).length + n) head.n_pages head
      = src.forwardScan n (headOf head ws).n_pages (headOf head ws) := by
  induction ws generalizing head with
  | nil => simp [chainPages, headOf]
  | cons w ws ih =>
    have hpages : chainPages (w :: ws) = w.pages ++ chainPages ws := rfl
    rw [hpages, List.map_append] at hold
    obtain ⟨hw, hws⟩ := hold.append
    have hnext : head.n_pages + (w.pages.map SealedPage.body).length
        = (nextHead head w).n_pages := by
      simp only [List.length_map, Written.length_pages, nextHead, headFrom]
      omega
    rw [hnext] at hws
    rw [hpages, List.length_append, Nat.add_assoc, forwardScan_commit h.1 hw, ih h.2 hws]
    rfl

/-- From `pid` on, the readable pages do not lead to a commit that follows `head`. -/
def ScanStops (src : RecoverySource) (head : Head) : ℕ → ℕ → Prop
  | 0, _ => True
  | n + 1, pid =>
    match src.readPage pid with
    | .error e => ¬ e.IsPanic
    | .ok buf =>
      match CommitHeader.decode buf with
      | none => ScanStops src head n (pid + 1)
      | some h => src.adopts head h = false

lemma forwardScan_of_stops {n pid : ℕ} (h : src.ScanStops head n pid) :
    src.forwardScan n pid head = .ok head := by
  induction n generalizing pid with
  | zero => rfl
  | succ n ih =>
    unfold ScanStops at h
    unfold forwardScan
    cases hr : src.readPage pid with
    | error e =>
      rw [hr] at h
      cases e <;> first | rfl | exact absurd trivial h
    | ok buf =>
      rw [hr] at h
      simp only at h ⊢
      cases hd : CommitHeader.decode buf with
      | none => rw [hd] at h; exact ih h
      | some hd' => rw [hd] at h; simp [h]

/-- A slot that points at a commit of the history gives the head of that commit. -/
lemma tryHeadAt_linked {gen : Head} (hws : Linked src.sha gen ws) (hne : ws ≠ [])
    (hold : src.HoldsFrom gen.n_pages ((chainPages ws).map SealedPage.body)) :
    src.tryHeadAt (headOf gen ws).commit_page = .ok (some (headOf gen ws)) := by
  obtain ⟨vs, w, rfl⟩ := List.eq_nil_or_concat' ws |>.resolve_left hne
  obtain ⟨-, hw, -⟩ := Linked.append.1 hws
  have hpage : (headOf gen (vs ++ [w])).commit_page
      = gen.n_pages + ((chainPages vs).length + w.bodies.length) := by
    rw [headOf_snoc]
    simp only [nextHead, headFrom, headOf_n_pages]
    omega
  have hread := hold ((chainPages vs).length + w.bodies.length) (commitBody w.header) (by
    rw [chainPages_append, List.map_append, List.getElem?_append_right (by simp)]
    simp [chainPages, Written.pages, sealedFrom_body])
  obtain ⟨hd, hdec, hself⟩ := hw.decodes
  rw [tryHeadAt, hpage, hread]
  simp only [hdec, hself, if_true, headFrom_decoded hw.sized hdec, headOf_snoc, nextHead]
  rw [headOf_n_pages, Nat.add_assoc]

/-- The slots only know commits of the history, or the empty file. -/
def SlotsKnow (src : RecoverySource) (gen : Head) (ws : List Written) : Prop :=
  ∀ m ∈ src.slots, m.last_commit_page < FIRST_DATA_PAGE ∨
    ∃ vs us, vs ≠ [] ∧ ws = vs ++ us ∧ m.last_commit_page = (headOf gen vs).commit_page

lemma firstHead_known {gen : Head} (slots : List MetaSlot) (hws : Linked src.sha gen ws)
    (hold : src.HoldsFrom gen.n_pages ((chainPages ws).map SealedPage.body))
    (hslots : ∀ m ∈ slots, ∃ vs us, vs ≠ [] ∧ ws = vs ++ us ∧
      m.last_commit_page = (headOf gen vs).commit_page) :
    src.firstHead slots = .ok none ∨
      ∃ vs us, ws = vs ++ us ∧ src.firstHead slots = .ok (some (headOf gen vs)) := by
  cases slots with
  | nil => exact Or.inl rfl
  | cons m ms =>
    obtain ⟨vs, us, hne, rfl, hm⟩ := hslots m (by simp)
    rw [chainPages_append, List.map_append] at hold
    have htry := tryHeadAt_linked (Linked.append.1 hws).1 hne hold.append.1
    refine Or.inr ⟨vs, us, rfl, ?_⟩
    rw [firstHead, hm, htry]
    rfl

/-- Recovery finds the end of a linked history whose pages can be read, when nothing that
follows them can be taken for the next commit. -/
theorem recover_linked (src : RecoverySource) (ws : List Written)
    (hws : Linked src.sha (genesisHead src.sha src.fileId) ws)
    (hold : src.HoldsFrom FIRST_DATA_PAGE ((chainPages ws).map SealedPage.body))
    (hslots : src.SlotsKnow (genesisHead src.sha src.fileId) ws)
    (hpages : FIRST_DATA_PAGE + (chainPages ws).length ≤ src.n_pages)
    (hstop : src.ScanStops (headOf (genesisHead src.sha src.fileId) ws)
      (src.n_pages - (headOf (genesisHead src.sha src.fileId) ws).n_pages)
      (headOf (genesisHead src.sha src.fileId) ws).n_pages) :
    src.recover = .ok (headOf (genesisHead src.sha src.fileId) ws) := by
  set gen := genesisHead src.sha src.fileId
  have hscan : ∀ vs us, ws = vs ++ us →
      src.forwardScan (src.n_pages - (headOf gen vs).n_pages) (headOf gen vs).n_pages
        (headOf gen vs) = .ok (headOf gen ws) := by
    rintro vs us rfl
    rw [chainPages_append, List.map_append] at hold
    have hus := hold.append.2
    have hn : (headOf gen vs).n_pages
        = FIRST_DATA_PAGE + ((chainPages vs).map SealedPage.body).length := by
      rw [headOf_n_pages, List.length_map]
      rfl
    rw [← hn] at hus
    have hcount : src.n_pages - (headOf gen vs).n_pages
        = (chainPages us).length + (src.n_pages - (headOf gen (vs ++ us)).n_pages) := by
      rw [chainPages_append, List.length_append] at hpages
      rw [headOf_append, @headOf_n_pages _ us, hn, List.length_map]
      omega
    rw [hcount, forwardScan_linked (Linked.append.1 hws).2 hus, ← headOf_append,
      forwardScan_of_stops hstop]
  have hfirst := firstHead_known ((sortedSlots src.slots).filter
    fun m => decide (FIRST_DATA_PAGE ≤ m.last_commit_page)) hws hold (by
      intro m hm
      rw [List.mem_filter, sortedSlots, List.mem_mergeSort, decide_eq_true_iff] at hm
      exact (hslots m hm.1).resolve_left (by omega))
  rw [recover]
  rcases hfirst with hnone | ⟨vs, us, hvs, hsome⟩
  · rw [hnone]
    exact hscan [] ws rfl
  · rw [hsome]
    exact hscan vs us hvs

end RecoverySource

end Arkeion
