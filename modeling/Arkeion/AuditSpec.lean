import Arkeion.ChainItem

/-!
What an accepted audit says of the pages it has read.
-/

namespace Arkeion

open Arkeion.Lib

/-- The pages from `p` on can be read, and these are their bodies. -/
def Reads (r : PageReader) : ℕ → List Bytes → Prop
  | _, [] => True
  | p, b :: bs => r.readPage p = .ok b ∧ Reads r (p + 1) bs

lemma orBroken_eq_ok {α : Type} {x : Result α} {e : Error} {a : α} :
    orBroken x e = .ok a ↔ x = .ok a := by
  rcases x with e' | b
  · cases e' <;> simp [orBroken]
  · simp [orBroken]

lemma readRun_eq_ok {r : PageReader} {e : Error} {p n : ℕ} {bs : List Bytes} :
    readRun r e p n = .ok bs ↔ bs.length = n ∧ Reads r p bs := by
  induction n generalizing p bs with
  | zero =>
    cases bs <;> simp [readRun, Reads]
  | succ n ih =>
    simp only [readRun, bind_eq_ok, orBroken_eq_ok, ih, Except.ok.injEq]
    constructor
    · rintro ⟨b, hb, cs, ⟨hl, hr⟩, rfl⟩
      exact ⟨by simp [hl], hb, hr⟩
    · rintro ⟨hl, hr⟩
      cases bs with
      | nil => simp at hl
      | cons b cs => exact ⟨b, hr.1, cs, ⟨by simpa using hl, hr.2⟩, rfl⟩

lemma Reads.length_body {r : PageReader} {p : ℕ} {bs : List Bytes} (h : Reads r p bs) :
    ∀ b ∈ bs, b.length = BODY_SIZE := by
  induction bs generalizing p with
  | nil => simp
  | cons b bs ih =>
    intro c hc
    rcases List.mem_cons.1 hc with rfl | hc
    · exact r.length_body _ _ h.1
    · exact ih h.2 c hc

lemma Reads.eq {r : PageReader} {p : ℕ} {bs cs : List Bytes} (hb : Reads r p bs)
    (hc : Reads r p cs) (hl : bs.length = cs.length) : bs = cs := by
  induction bs generalizing p cs with
  | nil => exact (List.length_eq_zero_iff.1 hl.symm).symm
  | cons b bs ih =>
    cases cs with
    | nil => simp at hl
    | cons c cs =>
      have hbc : Except.ok b = (Except.ok c : Result Bytes) := hb.1.symm.trans hc.1
      cases hbc
      rw [ih hb.2 hc.2 (by simpa using hl)]

lemma length_genesisMessage (r : PageReader) : (genesisMessage r.fileId).length = 24 := by
  simp [genesisMessage, MAGIC_HEADER, r.length_fileId]

/-- The number of data pages of a commit. -/
def CommitHeader.dataCount (h : CommitHeader) : ℕ := h.pages_written - 1

/-- The bodies of the data pages of a commit, as the audit reads them. -/
def dataBodies (r : PageReader) (c : ℕ × CommitHeader) : List Bytes :=
  match readRun r .io (c.1 - c.2.dataCount) c.2.dataCount with
  | .ok bs => bs
  | .error _ => []

lemma dataBodies_eq {r : PageReader} {c : ℕ × CommitHeader} {bs : List Bytes}
    (hl : bs.length = c.2.dataCount) (h : Reads r (c.1 - c.2.dataCount) bs) :
    dataBodies r c = bs := by
  unfold dataBodies
  rw [(readRun_eq_ok (e := .io)).2 ⟨hl, h⟩]

/-- What the forward pass checks of a commit after version `v` and digest `prev`. -/
structure CommitOk (sha : Sha256) (r : PageReader) (prev : Bytes) (v : ℕ)
    (c : ℕ × CommitHeader) : Prop where
  lt : v + 1 < 2 ^ 64
  version : c.2.version = v + 1
  fits : c.2.dataCount ≤ c.1
  count : (dataBodies r c).length = c.2.dataCount
  reads : Reads r (c.1 - c.2.dataCount) (dataBodies r c)
  content : sha.digest (dataBodies r c).flatten = c.2.content_hash
  prev_chain : c.2.prev_chain = prev
  chain_hash : c.2.chain_hash = c.2.computeChain sha

/-- The forward pass over a list of commits. -/
def Checked (sha : Sha256) (r : PageReader) :
    Bytes → ℕ → List (ℕ × CommitHeader) → Prop
  | _, _, [] => True
  | prev, v, c :: cs => CommitOk sha r prev v c ∧ Checked sha r c.2.chain_hash (v + 1) cs

/-- The commits at the anchored version have the anchored hash. -/
def AnchorOk (anchor : Option AuditAnchor) (cs : List (ℕ × CommitHeader)) : Prop :=
  ∀ a ∈ anchor, ∀ c ∈ cs, c.2.version = a.version → c.2.chain_hash = a.chain_hash

lemma anchorOk_cons {anchor : Option AuditAnchor} {c : ℕ × CommitHeader}
    {cs : List (ℕ × CommitHeader)} :
    AnchorOk anchor (c :: cs) ↔ AnchorOk anchor [c] ∧ AnchorOk anchor cs := by
  simp only [AnchorOk, List.forall_mem_cons, List.mem_singleton, forall_eq]
  exact ⟨fun h => ⟨fun a ha => (h a ha).1, fun a ha => (h a ha).2⟩,
    fun h a ha => ⟨h.1 a ha, h.2 a ha⟩⟩

/-- Whether the commit is at the anchored version. -/
def anchored (anchor : Option AuditAnchor) (c : ℕ × CommitHeader) : Bool :=
  anchor.any fun a => c.2.version == a.version

lemma checkAnchor_eq_ok {anchor : Option AuditAnchor} {seen s : Bool} {c : ℕ × CommitHeader} :
    checkAnchor anchor seen c.2 = .ok s ↔
      AnchorOk anchor [c] ∧ s = (seen || anchored anchor c) := by
  cases anchor with
  | none => simp [checkAnchor, AnchorOk, anchored, eq_comm]
  | some a =>
    by_cases hv : c.2.version = a.version
    · have hany : anchored (some a) c = true := by simp [anchored, hv]
      have hok : AnchorOk (some a) [c] ↔ c.2.chain_hash = a.chain_hash := by
        simp [AnchorOk, hv]
      rw [hany, hok, checkAnchor, if_pos hv, bind_eq_ok, Bool.or_true]
      simp only [require_eq_ok, Except.ok.injEq]
      exact ⟨fun ⟨_, hc, hs⟩ => ⟨hc, hs.symm⟩, fun ⟨hc, hs⟩ => ⟨(), hc, hs.symm⟩⟩
    · have hany : anchored (some a) c = false := by simp [anchored, hv]
      have hok : AnchorOk (some a) [c] := by simp [AnchorOk, hv]
      rw [hany, checkAnchor, if_neg hv]
      simp [hok, eq_comm]

lemma checkSeen_eq_ok {head : Head} {anchor : Option AuditAnchor} {seen : Bool} {u : Unit} :
    checkSeen head anchor seen = .ok u ↔ (anchor.isSome → seen = true) := by
  cases anchor with
  | none => simp [checkSeen]
  | some a => simp [checkSeen, require_eq_ok]

lemma auditCommit_eq_ok {sha : Sha256} {r : PageReader} {anchor : Option AuditAnchor}
    {st st' : AuditState} {c : ℕ × CommitHeader} :
    auditCommit sha r anchor st c = .ok st' ↔
      CommitOk sha r st.prev_chain st.expected_version c ∧ AnchorOk anchor [c] ∧
        st' = ⟨c.2.chain_hash, st.expected_version + 1, st.anchor_seen || anchored anchor c⟩ := by
  obtain ⟨pid, h⟩ := c
  simp only [auditCommit, bind_eq_ok, require_eq_ok, readRun_eq_ok, Except.ok.injEq]
  constructor
  · rintro ⟨-, hlt, -, hv, -, hfit, bs, ⟨hl, hr⟩, -, hc, -, hp, -, hh, s, hs, rfl⟩
    obtain ⟨ha, rfl⟩ := checkAnchor_eq_ok (c := (pid, h)).1 hs
    have hbs : dataBodies r (pid, h) = bs := dataBodies_eq hl hr
    exact ⟨⟨hlt, hv, hfit, by rw [hbs]; exact hl, by rw [hbs]; exact hr, by rw [hbs]; exact hc,
      hp, hh⟩, ha, rfl⟩
  · rintro ⟨⟨hlt, hv, hfit, hl, hr, hc, hp, hh⟩, ha, rfl⟩
    exact ⟨(), hlt, (), hv, (), hfit, _, ⟨hl, hr⟩, (), hc, (), hp, (), hh, _,
      checkAnchor_eq_ok (c := (pid, h)).2 ⟨ha, rfl⟩, rfl⟩

/-- The digest after the last commit of a walk. -/
def endHash (prev : Bytes) (cs : List (ℕ × CommitHeader)) : Bytes :=
  cs.foldl (fun _ c => c.2.chain_hash) prev

lemma audit_eq_ok {sha : Sha256} {r : PageReader} {anchor : Option AuditAnchor}
    {st st' : AuditState} {cs : List (ℕ × CommitHeader)} :
    cs.foldlM (auditCommit sha r anchor) st = .ok st' ↔
      Checked sha r st.prev_chain st.expected_version cs ∧ AnchorOk anchor cs ∧
        st' = ⟨endHash st.prev_chain cs, st.expected_version + cs.length,
          st.anchor_seen || cs.any (anchored anchor)⟩ := by
  induction cs generalizing st with
  | nil => simp [Checked, AnchorOk, endHash, pure, Except.pure, eq_comm]
  | cons c cs ih =>
    simp only [List.foldlM_cons, bind_eq_ok, auditCommit_eq_ok, ih, Checked]
    rw [@anchorOk_cons anchor c cs]
    constructor
    · rintro ⟨st1, ⟨hc, ha, rfl⟩, hcs, has, rfl⟩
      exact ⟨⟨hc, hcs⟩, ⟨ha, has⟩, by simp [endHash, Nat.add_comm, Nat.add_left_comm,
        Bool.or_assoc]⟩
    · rintro ⟨⟨hc, hcs⟩, ⟨ha, has⟩, rfl⟩
      exact ⟨_, ⟨hc, ha, rfl⟩, hcs, has, by simp [endHash, Nat.add_comm, Nat.add_left_comm,
        Bool.or_assoc]⟩

/-- Everything an audit that succeeds has established. -/
structure Accepted (sha : Sha256) (r : PageReader) (head : Head) (anchor : Option AuditAnchor)
    (hs : List (ℕ × CommitHeader)) : Prop where
  checked : Checked sha r (genesisChain sha r.fileId) (startVersion hs) hs
  anchor_ok : AnchorOk anchor hs
  version : startVersion hs + hs.length = head.version
  chain_hash : endHash (genesisChain sha r.fileId) hs = head.chain_hash
  seen : ∀ a ∈ anchor, ∃ c ∈ hs, c.2.version = a.version

theorem verifyAnchored_eq_ok {sha : Sha256} {fuel : ℕ} {r : PageReader} {head : Head}
    {anchor : Option AuditAnchor} {rep : AuditReport} :
    verifyAnchored sha fuel r head anchor = .ok rep ↔
      ∃ hs, walkBack r head.version fuel head.commit_page [] = .ok hs ∧
        Accepted sha r head anchor hs ∧ rep = ⟨head.version, hs.length, true, head.chain_hash⟩ := by
  have hseen (hs : List (ℕ × CommitHeader)) :
      (anchor.isSome → (false || hs.any (anchored anchor)) = true)
        ↔ ∀ a ∈ anchor, ∃ c ∈ hs, c.2.version = a.version := by
    cases anchor <;> simp [anchored]
  simp only [verifyAnchored, bind_eq_ok, audit_eq_ok, require_eq_ok, checkSeen_eq_ok]
  constructor
  · rintro ⟨hs, hw, st, ⟨hc, ha, rfl⟩, -, hv, -, hh, -, hse, h⟩
    cases h
    exact ⟨hs, hw, ⟨hc, ha, hv, hh, (hseen hs).1 hse⟩, rfl⟩
  · rintro ⟨hs, hw, ⟨hc, ha, hv, hh, hse⟩, rfl⟩
    exact ⟨hs, hw, _, ⟨hc, ha, rfl⟩, (), hv, (), hh, (), (hseen hs).2 hse, rfl⟩

/-! ### The walk -/

lemma walkBack_mem {r : PageReader} {v n : ℕ} {page : ℕ}
    {acc hs : List (ℕ × CommitHeader)} (h : walkBack r v n page acc = .ok hs) :
    ∀ c ∈ hs, c ∈ acc ∨ ∃ b, r.readPage c.1 = .ok b ∧ CommitHeader.decode b = some c.2 := by
  induction n generalizing page acc with
  | zero => cases h
  | succ n ih =>
    unfold walkBack at h
    split at h
    · cases h
      exact fun c hc => Or.inl hc
    · simp only [bind_eq_ok, orBroken_eq_ok, okOr_eq_ok] at h
      obtain ⟨b, hb, hd, hdec, h⟩ := h
      intro c hc
      rcases ih h c hc with hm | hm
      · rcases List.mem_cons.1 hm with rfl | hm
        · exact Or.inr ⟨b, hb, hdec⟩
        · exact Or.inl hm
      · exact Or.inr hm

lemma walkBack_fits {r : PageReader} {v n : ℕ} {page : ℕ} {hs : List (ℕ × CommitHeader)}
    (h : walkBack r v n page [] = .ok hs) :
    ∀ c ∈ hs, c.2.item.Fits ∧ c.2.prev_chain.length = 32 := by
  intro c hc
  rcases walkBack_mem h c hc with hm | ⟨b, hb, hd⟩
  · simp at hm
  · exact decode_fits (r.length_body _ _ hb) hd

/-! ### The chain of an accepted walk -/

lemma Checked.endHash_eq {sha : Sha256} {r : PageReader} {prev : Bytes} {v : ℕ}
    {cs : List (ℕ × CommitHeader)} (h : Checked sha r prev v cs) :
    endHash prev cs = chainEnd (ChainItem.link sha) prev (cs.map (·.2.item)) := by
  induction cs generalizing prev v with
  | nil => rfl
  | cons c cs ih =>
    have hc : c.2.chain_hash = ChainItem.link sha prev c.2.item := by
      rw [h.1.chain_hash, c.2.computeChain_eq, h.1.prev_chain]
    simp only [List.map_cons, chainEnd_cons, ← hc]
    exact ih h.2

lemma Checked.append {sha : Sha256} {r : PageReader} {prev : Bytes} {v : ℕ}
    {xs ys : List (ℕ × CommitHeader)} :
    Checked sha r prev v (xs ++ ys) ↔
      Checked sha r prev v xs ∧ Checked sha r (endHash prev xs) (v + xs.length) ys := by
  induction xs generalizing prev v with
  | nil => simp [Checked, endHash]
  | cons x xs ih =>
    simp only [List.cons_append, Checked, ih, and_assoc, List.length_cons, endHash,
      List.foldl_cons]
    rw [show v + 1 + xs.length = v + (xs.length + 1) by omega]

lemma Checked.version_bounds {sha : Sha256} {r : PageReader} {prev : Bytes} {v : ℕ}
    {cs : List (ℕ × CommitHeader)} (h : Checked sha r prev v cs) :
    ∀ c ∈ cs, v < c.2.version ∧ c.2.version ≤ v + cs.length := by
  induction cs generalizing prev v with
  | nil => simp
  | cons c cs ih =>
    intro d hd
    have hv := h.1.version
    rcases List.mem_cons.1 hd with rfl | hd
    · simp; omega
    · have := ih h.2 d hd
      simp; omega

/-- The links of a checked walk are hashed of the messages of its headers. -/
lemma Checked.mem_links {sha : Sha256} {r : PageReader} {prev : Bytes} {v : ℕ}
    {cs : List (ℕ × CommitHeader)} (h : Checked sha r prev v cs) :
    ∀ p ∈ links (ChainItem.link sha) prev (cs.map (·.2.item)),
      ∃ c ∈ cs, p = (c.2.prev_chain, c.2.item) := by
  induction cs generalizing prev v with
  | nil => simp [links]
  | cons c cs ih =>
    have hc : c.2.chain_hash = ChainItem.link sha prev c.2.item := by
      rw [h.1.chain_hash, c.2.computeChain_eq, h.1.prev_chain]
    intro p hp
    simp only [List.map_cons, links, List.mem_cons, ← hc] at hp
    rcases hp with rfl | hp
    · exact ⟨c, by simp, by rw [h.1.prev_chain]⟩
    · obtain ⟨d, hd, rfl⟩ := ih h.2 p hp
      exact ⟨d, by simp [hd], rfl⟩

end Arkeion
