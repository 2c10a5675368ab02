import Arkeion.AuditOutcome
import Arkeion.PageLog
import Mathlib.Data.Set.Function

/-!
What the audit notices of a file whose pages were replaced.

The chain covers of every commit its version, time, roots, branch field and hashes and the
bodies of its data pages, in the order of the walk along `prev_page`. It does not cover the
rest of the commit page (flags, `parent_page`, `nonce_counter`, reserved bytes), nor where
in the file the commits lie.
-/

namespace Arkeion

open Arkeion.Lib

/-- What the chain covers of one commit. -/
structure Covered where
  version : ℕ
  timestamp_ms : ℕ
  data_root : ℕ
  meta_root : ℕ
  branch : Bytes
  content_hash : Bytes
  prev_chain : Bytes
  chain_hash : Bytes
  bodies : List Bytes
  deriving DecidableEq, Repr

def coveredBy (h : CommitHeader) (bodies : List Bytes) : Covered where
  version := h.version
  timestamp_ms := h.timestamp_ms
  data_root := h.data_root
  meta_root := h.meta_root
  branch := branchField h.branch
  content_hash := h.content_hash
  prev_chain := h.prev_chain
  chain_hash := h.chain_hash
  bodies := bodies

/-- The data pages of a commit, when its header gives a range of readable pages. -/
def readBodies (r : PageReader) (c : ℕ × CommitHeader) : Option (List Bytes) :=
  if c.2.dataCount ≤ c.1 then (readRun r .io (c.1 - c.2.dataCount) c.2.dataCount).toOption
  else none

/-- The commits of a walk are, in all the chain covers, those that were written. -/
structure SameHistory (r : PageReader) (hs : List (ℕ × CommitHeader)) (ws : List Written) :
    Prop where
  covered : hs.map (fun c => (readBodies r c).map (coveredBy c.2))
    = ws.map fun w => some (coveredBy w.header w.bodies)
  start : ∀ c ∈ hs.head?, c.2.version = 1 ∨ c.2.isCheckpoint = true

/-- The messages that were hashed to write a history. -/
def writtenMessages (fileId : Bytes) (ws : List Written) : Set Bytes :=
  {m | m = genesisMessage fileId ∨
    ∃ w ∈ ws, m = w.header.chainMessage ∨ m = w.bodies.flatten}

/-- The messages the audit of a file hashes. -/
def auditMessages (r : PageReader) (head : Head) : Set Bytes :=
  {m | m = genesisMessage r.fileId ∨ ∃ hs, Walk r head.commit_page hs ∧
    ∃ c ∈ hs, m = c.2.chainMessage ∨ m = (dataBodies r c).flatten}

/-! ### The chain over the covered fields -/

namespace CommitHeader

/-- The hashed message after the digest before. -/
def tail (h : CommitHeader) : Bytes :=
  h.content_hash ++ leBytes 8 h.version ++ leBytes 8 h.timestamp_ms
    ++ leBytes 8 h.data_root ++ leBytes 8 h.meta_root ++ branchField h.branch

lemma chainMessage_tail (h : CommitHeader) : h.chainMessage = h.prev_chain ++ h.tail := by
  simp [chainMessage, tail]

/-- What the tail needs to be taken apart again. -/
structure Plain (h : CommitHeader) : Prop where
  content : h.content_hash.length = 32
  version : h.version < 2 ^ 64
  timestamp : h.timestamp_ms < 2 ^ 64
  data : h.data_root < 2 ^ 64
  meta_ : h.meta_root < 2 ^ 64
  len : (utf8 h.branch).length ≤ BRANCH_MAX
  prev : h.prev_chain.length = 32

lemma Sized.plain {h : CommitHeader} (hs : h.Sized) : h.Plain :=
  ⟨hs.content, hs.version, hs.timestamp, hs.data, hs.meta_, hs.branch, hs.prev⟩

lemma Plain.length_chainMessage {h : CommitHeader} (hp : h.Plain) :
    h.chainMessage.length = 160 := by
  simp [chainMessage, length_branchField hp.len, hp.content, hp.prev, BRANCH_MAX]

/-- Headers with one tail agree in the fields it is made of. -/
lemma tail_inj {h k : CommitHeader} (hh : h.Plain) (hk : k.Plain) (he : h.tail = k.tail) :
    h.content_hash = k.content_hash ∧ h.version = k.version ∧ h.timestamp_ms = k.timestamp_ms ∧
      h.data_root = k.data_root ∧ h.meta_root = k.meta_root ∧
      branchField h.branch = branchField k.branch := by
  unfold tail at he
  obtain ⟨he, hbr⟩ := List.append_inj' he
    (by rw [length_branchField hh.len, length_branchField hk.len])
  obtain ⟨he, hm⟩ := List.append_inj' he (by simp)
  obtain ⟨he, hd⟩ := List.append_inj' he (by simp)
  obtain ⟨he, ht⟩ := List.append_inj' he (by simp)
  obtain ⟨hc, hv⟩ := List.append_inj' he (by simp)
  exact ⟨hc, leBytes_inj hh.version hk.version hv, leBytes_inj hh.timestamp hk.timestamp ht,
    leBytes_inj hh.data hk.data hd, leBytes_inj hh.meta_ hk.meta_ hm, hbr⟩

/-- What the chain covers determines the hashed message. -/
lemma chainMessage_of_covered {h k : CommitHeader} {bs cs : List Bytes}
    (he : coveredBy h bs = coveredBy k cs) : h.chainMessage = k.chainMessage := by
  simp only [coveredBy, Covered.mk.injEq] at he
  obtain ⟨hv, ht, hd, hm, hb, hc, hp, -, -⟩ := he
  simp only [chainMessage, hv, ht, hd, hm, hb, hc, hp]

end CommitHeader

/-- The digest after a tail. -/
def linkTail (sha : Sha256) (prev tail : Bytes) : Bytes := sha.digest (prev ++ tail)

lemma walk_plain {r : PageReader} {p : ℕ} {hs : List (ℕ × CommitHeader)}
    (h : Walk r p hs) : ∀ c ∈ hs, c.2.Plain := by
  intro c hc
  obtain ⟨n, hn⟩ := (@walkBack_eq_ok _ 0 _ [] _).2 ⟨hs, h, rfl⟩
  rw [List.append_nil] at hn
  obtain ⟨hf, hp⟩ := walkBack_fits hn c hc
  exact ⟨hf.content, hf.version, hf.timestamp, hf.data, hf.meta_, hf.len, hp⟩

section Chains
variable {sha : Sha256} {r : PageReader} {prev : Bytes} {v : ℕ}
  {cs : List (ℕ × CommitHeader)} {ws : List Written}

lemma Checked.endHash_tail (h : Checked sha r prev v cs) :
    endHash prev cs = chainEnd (linkTail sha) prev (cs.map (·.2.tail)) ∧
      ∀ p ∈ links (linkTail sha) prev (cs.map (·.2.tail)),
        ∃ c ∈ cs, p = (c.2.prev_chain, c.2.tail) := by
  induction cs generalizing prev v with
  | nil => simp [endHash, links]
  | cons c cs ih =>
    have hc : c.2.chain_hash = linkTail sha prev c.2.tail := by
      rw [h.1.chain_hash, CommitHeader.computeChain, c.2.chainMessage_tail, h.1.prev_chain]
      rfl
    obtain ⟨hend, hlinks⟩ := ih h.2
    refine ⟨by simpa [endHash, ← hc] using hend, ?_⟩
    intro p hp
    simp only [List.map_cons, links, List.mem_cons, ← hc] at hp
    rcases hp with rfl | hp
    · exact ⟨c, by simp, by rw [h.1.prev_chain]⟩
    · obtain ⟨d, hd, rfl⟩ := hlinks p hp
      exact ⟨d, by simp [hd], rfl⟩

lemma WrittenFrom.writtenEnd_tail (h : WrittenFrom sha prev v ws) :
    writtenEnd prev ws = chainEnd (linkTail sha) prev (ws.map (·.header.tail)) ∧
      ∀ p ∈ links (linkTail sha) prev (ws.map (·.header.tail)),
        ∃ w ∈ ws, p = (w.header.prev_chain, w.header.tail) := by
  induction ws generalizing prev v with
  | nil => simp [writtenEnd, links]
  | cons w ws ih =>
    have hw : w.header.chain_hash = linkTail sha prev w.header.tail := by
      rw [h.1.chain_hash, CommitHeader.computeChain, w.header.chainMessage_tail, h.1.prev_chain]
      rfl
    obtain ⟨hend, hlinks⟩ := ih h.2
    refine ⟨by simpa [writtenEnd, ← hw] using hend, ?_⟩
    intro p hp
    simp only [List.map_cons, links, List.mem_cons, ← hw] at hp
    rcases hp with rfl | hp
    · exact ⟨w, by simp, by rw [h.1.prev_chain]⟩
    · obtain ⟨d, hd, rfl⟩ := hlinks p hp
      exact ⟨d, by simp [hd], rfl⟩

lemma WrittenFrom.mem {w : Written} (h : WrittenFrom sha prev v ws) (hw : w ∈ ws) :
    ∃ prev v, WrittenOk sha prev v w := by
  induction ws generalizing prev v with
  | nil => simp at hw
  | cons x xs ih =>
    rcases List.mem_cons.1 hw with rfl | hw
    · exact ⟨_, _, h.1⟩
    · exact ih h.2 hw

lemma Checked.readBodies {c : ℕ × CommitHeader} (h : CommitOk sha r prev v c) :
    readBodies r c = some (dataBodies r c) := by
  have hrun := (readRun_eq_ok (e := .io)).2 ⟨h.count, h.reads⟩
  rw [Arkeion.readBodies, if_pos h.fits, hrun]
  rfl

/-- A checked walk with the tails of a written history covers what was written. -/
lemma covered_of_tails (hc : Checked sha r prev v cs) {v' : ℕ}
    (hw : WrittenFrom sha prev v' ws) (htail : cs.map (·.2.tail) = ws.map (·.header.tail))
    (hplain : ∀ c ∈ cs, c.2.Plain)
    (hinj : ∀ c ∈ cs, ∀ w ∈ ws,
      sha.digest (dataBodies r c).flatten = sha.digest w.bodies.flatten →
        (dataBodies r c).flatten = w.bodies.flatten) :
    cs.map (fun c => (readBodies r c).map (coveredBy c.2))
      = ws.map fun w => some (coveredBy w.header w.bodies) := by
  induction cs generalizing prev v v' ws with
  | nil =>
    cases ws with
    | nil => rfl
    | cons w ws => simp at htail
  | cons c cs ih =>
    cases ws with
    | nil => simp at htail
    | cons w ws =>
      simp only [List.map_cons, List.cons.injEq] at htail
      obtain ⟨ht, htail⟩ := htail
      obtain ⟨hch, hv, hts, hd, hm, hb⟩ :=
        CommitHeader.tail_inj (hplain c (by simp)) hw.1.sized.plain ht
      have hchain : c.2.chain_hash = w.header.chain_hash := by
        rw [hc.1.chain_hash, hw.1.chain_hash, CommitHeader.computeChain,
          CommitHeader.computeChain, c.2.chainMessage_tail, w.header.chainMessage_tail, ht,
          hc.1.prev_chain, hw.1.prev_chain]
      have hbodies : dataBodies r c = w.bodies := by
        refine flatten_inj (by decide : 0 < BODY_SIZE) hc.1.reads.length_body hw.1.length_body
          (hinj c (by simp) w (by simp) ?_)
        rw [hc.1.content, hch, hw.1.content]
      have hcov : coveredBy c.2 (dataBodies r c) = coveredBy w.header w.bodies := by
        simp only [coveredBy, hv, hts, hd, hm, hb, hch, hchain, hbodies, hc.1.prev_chain,
          hw.1.prev_chain]
      have hrest := hw.2
      rw [← hchain] at hrest
      rw [List.map_cons, List.map_cons, Checked.readBodies hc.1, Option.map_some, hcov,
        ih hc.2 hrest htail (fun c hc => hplain c (by simp [hc]))
          (fun c hc w hw => hinj c (by simp [hc]) w (by simp [hw]))]

/-- A walk that covers what was written passes every check. -/
lemma checked_of_covered (hw : WrittenFrom sha prev v ws)
    (hcov : cs.map (fun c => (readBodies r c).map (coveredBy c.2))
      = ws.map fun w => some (coveredBy w.header w.bodies)) :
    Checked sha r prev v cs ∧ endHash prev cs = writtenEnd prev ws := by
  induction cs generalizing prev v ws with
  | nil =>
    cases ws with
    | nil => exact ⟨trivial, rfl⟩
    | cons w ws => simp at hcov
  | cons c cs ih =>
    cases ws with
    | nil => simp at hcov
    | cons w ws =>
      simp only [List.map_cons, List.cons.injEq, Option.map_eq_some_iff] at hcov
      obtain ⟨⟨bs, hbs, hcov⟩, hrest⟩ := hcov
      have hmsg := CommitHeader.chainMessage_of_covered hcov
      simp only [coveredBy, Covered.mk.injEq] at hcov
      obtain ⟨hv, -, -, -, -, hch, hp, hchain, hb⟩ := hcov
      unfold readBodies at hbs
      split at hbs
      case isFalse => cases hbs
      rename_i hfit
      have hrun : readRun r .io (c.1 - c.2.dataCount) c.2.dataCount = .ok bs := by
        cases hr : readRun r .io (c.1 - c.2.dataCount) c.2.dataCount with
        | error e => rw [hr] at hbs; cases hbs
        | ok b => rw [hr] at hbs; cases hbs; rfl
      obtain ⟨hl, hreads⟩ := readRun_eq_ok.1 hrun
      have hdata : dataBodies r c = bs := dataBodies_eq hl hreads
      have hok : CommitOk sha r prev v c :=
        { lt := by have := hw.1.sized.version; rw [hw.1.version] at this; exact this
          version := by rw [hv, hw.1.version]
          fits := hfit
          count := by rw [hdata, hl]
          reads := by rw [hdata]; exact hreads
          content := by rw [hdata, hb, hch, hw.1.content]
          prev_chain := by rw [hp, hw.1.prev_chain]
          chain_hash := by
            rw [hchain, hw.1.chain_hash, CommitHeader.computeChain, CommitHeader.computeChain,
              hmsg] }
      have hw2 := hw.2
      rw [← hchain] at hw2
      obtain ⟨hck, hend⟩ := ih hw2 hrest
      refine ⟨⟨hok, hck⟩, ?_⟩
      simp only [endHash, writtenEnd, List.foldl_cons, hchain] at hend ⊢
      exact hend

end Chains

lemma startVersion_of {hs : List (ℕ × CommitHeader)} {v : ℕ}
    (hstart : ∀ c ∈ hs.head?, c.2.version = 1 ∨ c.2.isCheckpoint = true)
    (hv : ∀ c ∈ hs.head?, c.2.version = v + 1) (hne : hs ≠ []) : startVersion hs = v := by
  obtain ⟨c, cs, rfl⟩ := List.exists_cons_of_ne_nil hne
  have hc := hv c rfl
  unfold startVersion
  split
  · cases ‹_›
  · rename_i h _ heq
    cases heq
    rcases hstart _ rfl with h1 | h1
    · simp only at hc h1
      split <;> omega
    · simp only at hc h1
      rw [if_pos h1]
      omega

/-- A walk that covers the history of a built file passes the audit. -/
lemma accepted_of_same {sha : Sha256} {l l' : PageLog} {head : Head} {ws : List Written}
    (hb : Built sha l head ws) (hid : l'.fileId = l.fileId) {hs : List (ℕ × CommitHeader)}
    (hsame : SameHistory l'.reader hs ws) : Accepted sha l'.reader head none hs := by
  obtain ⟨v, hfrom, hversion, hend⟩ := hb.written
  have hseed : genesisChain sha l'.reader.fileId = genesisChain sha l.fileId := by
    rw [show l'.reader.fileId = l.fileId from hid]
  obtain ⟨hcov, hstart⟩ := hsame
  have hlen' : hs.length = ws.length := by
    simpa using congrArg List.length hcov
  obtain ⟨hck, he⟩ := checked_of_covered hfrom hcov
  have hsv : startVersion hs + hs.length = head.version ∧
      Checked sha l'.reader (genesisChain sha l.fileId) (startVersion hs) hs := by
    cases hs with
    | nil =>
      cases ws with
      | nil => exact ⟨(hb.version_of_nil rfl).symm, trivial⟩
      | cons w ws => simp at hlen'
    | cons d ds =>
      have hv : startVersion (d :: ds) = v :=
        startVersion_of hstart (by intro c hc; cases hc; exact hck.1.version) (by simp)
      rw [hv]
      exact ⟨by rw [hlen', hversion], hck⟩
  exact
    { checked := by rw [hseed]; exact hsv.2
      anchor_ok := by simp [AnchorOk]
      version := hsv.1
      chain_hash := by rw [hseed, he, hend]
      seen := by simp }

/-- On a file with the identity of a built one, an audited walk from the built head is
accepted exactly when it covers the history that was written. -/
lemma accepted_iff_same {sha : Sha256} {l l' : PageLog} {head : Head} {ws : List Written}
    (hb : Built sha l head ws) (hid : l'.fileId = l.fileId)
    (hinj : Set.InjOn sha.digest (writtenMessages l.fileId ws ∪ auditMessages l'.reader head))
    {hs : List (ℕ × CommitHeader)} (hwalk : Walk l'.reader head.commit_page hs) :
    Accepted sha l'.reader head none hs ↔ SameHistory l'.reader hs ws := by
  obtain ⟨v, hfrom, hversion, hend⟩ := hb.written
  have hseed : genesisChain sha l'.reader.fileId = genesisChain sha l.fileId := by
    rw [show l'.reader.fileId = l.fileId from hid]
  have hplain := walk_plain hwalk
  have hin₁ {m : Bytes} (hm : m ∈ writtenMessages l.fileId ws) :
      m ∈ writtenMessages l.fileId ws ∪ auditMessages l'.reader head := Or.inl hm
  have hin₂ {m : Bytes} (hm : m ∈ auditMessages l'.reader head) :
      m ∈ writtenMessages l.fileId ws ∪ auditMessages l'.reader head := Or.inr hm
  have hgen : genesisMessage l.fileId ∈ writtenMessages l.fileId ws := Or.inl rfl
  have hwmsg {w : Written} (hw : w ∈ ws) : w.header.chainMessage ∈ writtenMessages l.fileId ws :=
    Or.inr ⟨w, hw, Or.inl rfl⟩
  have hcmsg {c : ℕ × CommitHeader} (hc : c ∈ hs) :
      c.2.chainMessage ∈ auditMessages l'.reader head := Or.inr ⟨hs, hwalk, c, hc, Or.inl rfl⟩
  have hlen {h : CommitHeader} (hp : h.Plain) : h.chainMessage ≠ genesisMessage l.fileId := by
    intro heq
    have hl := congrArg List.length heq
    have hg : (genesisMessage l.fileId).length = 24 := length_genesisMessage l.reader
    rw [hp.length_chainMessage, hg] at hl
    omega
  constructor
  · intro hacc
    have hck := hacc.checked
    rw [hseed] at hck
    obtain ⟨hce, hcl⟩ := hck.endHash_tail
    obtain ⟨hwe, hwl⟩ := hfrom.writtenEnd_tail
    have hends : chainEnd (linkTail sha) (genesisChain sha l.fileId) (hs.map (·.2.tail))
        = chainEnd (linkTail sha) (genesisChain sha l.fileId) (ws.map (·.header.tail)) := by
      rw [← hce, ← hwe, hend, ← hacc.chain_hash, hseed]
    have hplain_w : ∀ w ∈ ws, w.header.Plain := fun w hw => by
      obtain ⟨prev, v, hok⟩ := hfrom.mem hw
      exact hok.sized.plain
    have htails : hs.map (·.2.tail) = ws.map (·.header.tail) := by
      refine eq_of_chainEnd_eq (linkTail sha) ?_ ?_ ?_ hends
      · intro p hp q hq hpq
        obtain ⟨c, hc, rfl⟩ := hcl p hp
        obtain ⟨w, hw, rfl⟩ := hwl q hq
        simp only [linkTail, ← CommitHeader.chainMessage_tail] at hpq
        have hmsg := hinj (hin₂ (hcmsg hc)) (hin₁ (hwmsg hw)) hpq
        rw [CommitHeader.chainMessage_tail, CommitHeader.chainMessage_tail] at hmsg
        obtain ⟨h1, h2⟩ := List.append_inj hmsg
          (by rw [(hplain c hc).prev, (hplain_w w hw).prev])
        rw [h1, h2]
      · intro q hq hseed
        obtain ⟨w, hw, rfl⟩ := hwl q hq
        simp only [linkTail, ← CommitHeader.chainMessage_tail] at hseed
        exact hlen (hplain_w w hw) (hinj (hin₁ (hwmsg hw)) (hin₁ hgen) hseed)
      · intro p hp hseed
        obtain ⟨c, hc, rfl⟩ := hcl p hp
        simp only [linkTail, ← CommitHeader.chainMessage_tail] at hseed
        exact hlen (hplain c hc) (hinj (hin₂ (hcmsg hc)) (hin₁ hgen) hseed)
    refine ⟨covered_of_tails hck hfrom htails hplain ?_, ?_⟩
    · intro c hc w hw
      exact hinj (hin₂ (Or.inr ⟨hs, hwalk, c, hc, Or.inr rfl⟩))
        (hin₁ (Or.inr ⟨w, hw, Or.inr rfl⟩))
    · intro c hc
      cases hs with
      | nil => cases hc
      | cons d ds =>
        cases hc
        have hv := hck.1.version
        simp only [startVersion] at hv
        split at hv
        · rename_i hck'
          exact Or.inr hck'
        · exact Or.inl hv
  · exact accepted_of_same hb hid

/-- The audit of a file with the identity of a built one, under the built head: when it is
accepted, and when a broken chain is reported. -/
theorem tamper_evidence {sha : Sha256} {l l' : PageLog} {head : Head} {ws : List Written}
    (hb : Built sha l head ws) (hid : l'.fileId = l.fileId)
    (hinj : Set.InjOn sha.digest (writtenMessages l.fileId ws ∪ auditMessages l'.reader head)) :
    ((∃ fuel e, verify sha fuel l'.reader head = .error e ∧ e.IsBroken) ↔
      Stops l'.reader head.commit_page ∨
        ∃ hs, Walk l'.reader head.commit_page hs ∧ ¬ SameHistory l'.reader hs ws ∧
          ¬ TripsIn sha l'.reader (genesisChain sha l.fileId) (startVersion hs) hs) ∧
    ((∃ fuel rep, verify sha fuel l'.reader head = .ok rep) ↔
      ∃ hs, Walk l'.reader head.commit_page hs ∧ SameHistory l'.reader hs ws) := by
  have hseed : genesisChain sha l'.reader.fileId = genesisChain sha l.fileId := by
    rw [show l'.reader.fileId = l.fileId from hid]
  constructor
  · rw [verify_broken_iff, hseed]
    refine or_congr_right (exists_congr fun hs => and_congr_right fun hw => ?_)
    rw [accepted_iff_same hb hid hinj hw]
  · rw [verify_ok_iff]
    exact exists_congr fun hs => and_congr_right fun hw => accepted_iff_same hb hid hinj hw

/-! ### A commit page altered outside of what the chain covers -/

namespace TamperSample

def fileId : Bytes := List.replicate 16 7

def body : Bytes := 1 :: List.replicate (BODY_SIZE - 1) 0

def header : CommitHeader :=
  commitHeader .std (.after (genesisHead .std fileId) "main" 0) ⟨3, 3, 1000⟩ 1 [body]

def head : Head := headFrom header 4

/-- The page with another `parent_page`. -/
def altered : CommitHeader := { header with parent_page := 77 }

def file : PageLog := ⟨fileId, [body, commitBody header], by decide, by decide +kernel⟩

def alteredFile : PageLog := ⟨fileId, [body, commitBody altered], by decide, by decide +kernel⟩

lemma header_sized : header.Sized where
  flags := by decide
  version := by decide
  parent_page := by decide
  prev_page := by decide
  timestamp := by decide
  data := by decide
  meta_ := by decide
  nonce := by decide
  pages := by decide
  branch := by decide +kernel
  content := Sha256.std.length_digest _
  prev := Sha256.std.length_digest _
  chain := Sha256.std.length_digest _

lemma built : Built .std file head [⟨header, [body]⟩] :=
  .commit (l := ⟨fileId, [], by decide, by simp⟩) (d := ⟨3, 3, 1000⟩) (.genesis rfl) rfl
    header_sized rfl rfl

lemma same_id : alteredFile.fileId = file.fileId := rfl

lemma nul_free : 0 ∉ utf8 "main" := by decide +kernel

lemma altered_sized : altered.Sized := { header_sized with parent_page := by decide }

lemma walk_altered : Walk alteredFile.reader 4 [(4, altered)] :=
  @Walk.step _ _ (commitBody altered) altered [] (by decide) rfl
    (CommitHeader.decode_encodeInto altered_sized nul_free zeroBody) .start

lemma readBodies_altered : readBodies alteredFile.reader (4, altered) = some [body] := rfl

lemma dataBodies_altered : dataBodies alteredFile.reader (4, altered) = [body] := rfl

lemma same_altered : SameHistory alteredFile.reader [(4, altered)] [⟨header, [body]⟩] :=
  ⟨by rw [List.map_singleton, readBodies_altered]; rfl, by intro c hc; cases hc; exact Or.inl rfl⟩

/-- Three messages are hashed for the file, as it was written and as it was altered. -/
lemma messages : writtenMessages file.fileId [⟨header, [body]⟩] ∪ auditMessages alteredFile.reader head
    ⊆ {m | m = genesisMessage fileId ∨ m = header.chainMessage ∨ m = [body].flatten} := by
  rintro m ((rfl | ⟨w, hw, hm⟩) | (rfl | ⟨hs, hwalk, c, hc, hm⟩))
  · exact Or.inl rfl
  · rw [List.mem_singleton] at hw
    subst hw
    exact Or.inr hm
  · exact Or.inl rfl
  · cases hwalk.unique walk_altered
    rw [List.mem_singleton] at hc
    subst hc
    rw [dataBodies_altered] at hm
    exact Or.inr hm

/-- The three digests begin with different bytes. -/
lemma digests : (Sha256.std.digest (genesisMessage fileId)).head? = some 168 ∧
    (Sha256.std.digest header.chainMessage).head? = some 98 ∧
    (Sha256.std.digest [body].flatten).head? = some 150 := by
  decide +kernel

lemma injOn : Set.InjOn Sha256.std.digest
    (writtenMessages file.fileId [⟨header, [body]⟩] ∪ auditMessages alteredFile.reader head) := by
  obtain ⟨hg, hc, hb⟩ := digests
  have hne {m n : Bytes} {x y : UInt8} (hm : (Sha256.std.digest m).head? = some x)
      (hn : (Sha256.std.digest n).head? = some y) (hxy : x ≠ y)
      (he : Sha256.std.digest m = Sha256.std.digest n) : m = n := by
    rw [he, hn, Option.some.injEq] at hm
    exact absurd hm.symm hxy
  intro m hm n hn he
  rcases messages hm with rfl | rfl | rfl <;> rcases messages hn with rfl | rfl | rfl
  · rfl
  · exact hne hg hc (by decide) he
  · exact hne hg hb (by decide) he
  · exact hne hc hg (by decide) he
  · rfl
  · exact hne hc hb (by decide) he
  · exact hne hb hg (by decide) he
  · exact hne hb hc (by decide) he
  · rfl

end TamperSample

open TamperSample in
/-- A built file whose one commit page got another `parent_page` is still accepted. -/
theorem parent_page_not_covered :
    Built .std file head [⟨header, [body]⟩] ∧ alteredFile.fileId = file.fileId ∧
      alteredFile.pages.length = file.pages.length ∧
      file.readPage head.commit_page = .ok (commitBody header) ∧
      alteredFile.readPage head.commit_page = .ok (commitBody altered) ∧
      commitBody altered ≠ commitBody header ∧
      Set.InjOn Sha256.std.digest
        (writtenMessages file.fileId [⟨header, [body]⟩] ∪ auditMessages alteredFile.reader head) ∧
      ∃ fuel rep, verify .std fuel alteredFile.reader head = .ok rep := by
  refine ⟨built, rfl, rfl, rfl, rfl, ?_, injOn, ?_⟩
  · intro h
    have hd := congrArg CommitHeader.decode h
    rw [commitBody, commitBody, CommitHeader.decode_encodeInto altered_sized nul_free,
      CommitHeader.decode_encodeInto header_sized nul_free, Option.some.injEq] at hd
    exact absurd (congrArg CommitHeader.parent_page hd) (by decide)
  · exact verify_ok_iff.2 ⟨_, walk_altered, accepted_of_same built same_id same_altered⟩

open TamperSample in
/-- The altered file under the head of the built one. -/
theorem tamper_evidence_altered :
    ((∃ fuel e, verify .std fuel alteredFile.reader head = .error e ∧ e.IsBroken) ↔
      Stops alteredFile.reader head.commit_page ∨
        ∃ hs, Walk alteredFile.reader head.commit_page hs ∧
          ¬ SameHistory alteredFile.reader hs [⟨header, [body]⟩] ∧
          ¬ TripsIn .std alteredFile.reader (genesisChain .std file.fileId) (startVersion hs) hs) ∧
    ((∃ fuel rep, verify .std fuel alteredFile.reader head = .ok rep) ↔
      ∃ hs, Walk alteredFile.reader head.commit_page hs ∧
        SameHistory alteredFile.reader hs [⟨header, [body]⟩]) :=
  tamper_evidence built same_id injOn

end Arkeion
