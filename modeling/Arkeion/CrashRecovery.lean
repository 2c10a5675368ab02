import Arkeion.NonceUnique
import Arkeion.ZoneWrites

/-!
What a crash leaves of the commits, and what recovery makes of it.

The bytes of a commit are settled once all its writes are on the disk; every later write
goes behind them. So the commits reported as durable are intact on the disk after any
crash. Recovery returns the last intact commit, if what lies behind it on the disk cannot be
taken for the next one: it checks that pages open and that the chain hashes fit, but not
what the commit says of its pages.
-/

namespace Arkeion

open Arkeion.Lib

namespace Session

variable {cfg : PagerConfig} {sha : Sha256}

/-- The first `n` commits are complete once the first `j` pending writes are on the disk. -/
def Complete (s : Session) (j n : ℕ) : Prop :=
  ∀ e ∈ s.ends.take n, e + s.pending.length ≤ s.issued + j

/-- The bytes of the commits are where they were written, and stay there: whatever is
written once a commit is complete is written behind it. -/
structure Kept (cfg : PagerConfig) (s : Session) : Prop where
  ends_length : s.ends.length = s.chain.length
  ends_le : ∀ e ∈ s.ends, e ≤ s.issued
  settled : ∀ j ≤ s.pending.length, ∀ n, s.Complete j n →
    chainBytes cfg (s.chain.take n) <+: (s.disk.applyAll (s.pending.take j)).zone
  behind : ∀ j w, s.pending[j]? = some w → ∀ n, s.Complete j n →
    w.Past (chainBytes cfg (s.chain.take n)).length

lemma chainBytes_append (ws vs : List Written) : chainBytes cfg (ws ++ vs)
    = chainBytes cfg ws ++ cfg.layout (FIRST_DATA_PAGE + (chainPages ws).length) (chainPages vs) := by
  rw [chainBytes, chainPages_append, PagerConfig.layout_append]
  rfl

lemma chainBytes_take_isPrefix (ws : List Written) (n : ℕ) :
    chainBytes cfg (ws.take n) <+: chainBytes cfg ws := by
  conv_rhs => rw [← List.take_append_drop n ws, chainBytes_append]
  exact List.prefix_append _ _

namespace Kept

lemma complete_all {s : Session} (h : Kept cfg s) (n : ℕ) : s.Complete s.pending.length n :=
  fun e he => by
    have := h.ends_le e (List.mem_of_mem_take he)
    omega

/-- Reads see all commits. -/
lemma view_isPrefix {s : Session} (h : Kept cfg s) : chainBytes cfg s.chain <+: s.view.zone := by
  have := h.settled s.pending.length le_rfl s.chain.length (h.complete_all _)
  rwa [List.take_length, List.take_length] at this

/-- Writes behind all commits. -/
lemma write {s : Session} (h : Kept cfg s) {ws : List FileWrite} {file : OpenFile} {used : List ℕ}
    (hws : ∀ w ∈ ws, w.Past (chainBytes cfg s.chain).length) :
    Kept cfg { s with
      pending := s.pending ++ ws
      issued := s.issued + ws.length
      file := file
      used := used } := by
  have hpast : ∀ n, ∀ w ∈ ws, w.Past (chainBytes cfg (s.chain.take n)).length := fun n w hw =>
    (hws w hw).mono (chainBytes_take_isPrefix s.chain n).length_le
  refine ⟨h.ends_length, fun e he => (h.ends_le e he).trans (Nat.le_add_right _ _), ?_, ?_⟩
  · intro j hj n hn
    simp only [Complete, List.length_append] at hj hn
    rcases Nat.lt_or_ge s.pending.length j with hlt | hle
    · rw [List.take_append, List.take_of_length_le hlt.le, Disk.applyAll_append]
      refine Disk.applyAll_isPrefix ?_ fun w hw => hpast n w (List.mem_of_mem_take hw)
      have := h.settled s.pending.length le_rfl n (h.complete_all n)
      rwa [List.take_length] at this
    · rw [List.take_append_of_le_length hle]
      exact h.settled j hle n fun e he => by have := hn e he; omega
  · intro j w hw n hn
    simp only [Complete, List.length_append] at hn
    rcases Nat.lt_or_ge j s.pending.length with hlt | hge
    · rw [List.getElem?_append_left hlt] at hw
      exact h.behind j w hw n fun e he => by have := hn e he; omega
    · rw [List.getElem?_append_right hge] at hw
      exact hpast n w (List.mem_of_getElem? hw)

/-- A commit is complete when everything issued before is on the disk. -/
lemma extend {s : Session} (h : Kept cfg s) {w : Written}
    (hview : chainBytes cfg (s.chain ++ [w]) <+: s.view.zone) :
    Kept cfg { s with chain := s.chain ++ [w], ends := s.ends ++ [s.issued] } := by
  have hlen := h.ends_length
  have hold {n : ℕ} (hn : n ≤ s.chain.length) :
      (s.chain ++ [w]).take n = s.chain.take n ∧ (s.ends ++ [s.issued]).take n = s.ends.take n :=
    ⟨List.take_append_of_le_length hn, List.take_append_of_le_length (by omega)⟩
  have hnew {j n : ℕ} (hn : s.chain.length < n)
      (hc : ∀ e ∈ (s.ends ++ [s.issued]).take n, e + s.pending.length ≤ s.issued + j) :
      s.pending.length ≤ j := by
    have := hc s.issued (by rw [List.take_of_length_le (by simp; omega)]; simp)
    omega
  refine ⟨by simp [hlen], ?_, ?_, ?_⟩
  · intro e he
    rcases List.mem_append.1 he with he | he
    · exact h.ends_le e he
    · exact (List.mem_singleton.1 he).le
  · intro j hj n hn
    rcases Nat.lt_or_ge s.chain.length n with hlt | hle
    · have hj' : j = s.pending.length := le_antisymm hj (hnew hlt hn)
      subst hj'
      rw [List.take_of_length_le (by simp; omega), List.take_length]
      exact hview
    · simp only [Complete, hold hle] at hn ⊢
      exact h.settled j hj n hn
  · intro j v hv n hn
    rcases Nat.lt_or_ge s.chain.length n with hlt | hle
    · have hge : s.pending.length ≤ j := hnew hlt hn
      have hj : j < s.pending.length := (List.getElem?_eq_some_iff.1 hv).1
      omega
    · simp only [Complete, hold hle] at hn ⊢
      exact h.behind j v hv n hn

/-- The first `k` pending writes are on the disk for good. -/
lemma fsync {s : Session} (h : Kept cfg s) {k : ℕ} (hk : k ≤ s.pending.length) :
    Kept cfg (s.afterFsync k) := by
  refine ⟨h.ends_length, h.ends_le, ?_, ?_⟩
  · intro j hj n hn
    simp only [Complete, afterFsync, List.length_drop] at hj hn ⊢
    rw [← Disk.applyAll_append, ← List.take_add]
    exact h.settled (k + j) (by omega) n fun e he => by have := hn e he; omega
  · intro j w hw n hn
    simp only [Complete, afterFsync, List.length_drop] at hn hw
    rw [List.getElem?_drop] at hw
    exact h.behind (k + j) w hw n fun e he => by have := hn e he; omega

/-- The sealed commits are on the disk whatever a crash does to the pending writes. -/
lemma crashed_isPrefix {s : Session} (h : Kept cfg s) (landed : List Bool) {n : ℕ}
    (hn : s.Sealed n) : chainBytes cfg (s.chain.take n) <+: (s.crashed landed).zone := by
  have hc : s.Complete 0 n := hn.2
  refine Disk.applyLanded_isPrefix (h.settled 0 (Nat.zero_le _) n hc) fun w hw => ?_
  obtain ⟨j, hj⟩ := List.getElem?_of_mem hw
  exact h.behind j w hj n fun e he => by have := hc e he; omega

end Kept

lemma intact_isPrefix (ws : List Written) (zone : Bytes) :
    chainBytes cfg (ws.take (intactCommits cfg ws zone)) <+: zone :=
  Nat.findGreatest_spec (P := fun n => chainBytes cfg (ws.take n) <+: zone) (Nat.zero_le _)
    (by simp [chainBytes, chainPages, PagerConfig.layout])

lemma intactCommits_le (ws : List Written) (zone : Bytes) :
    intactCommits cfg ws zone ≤ ws.length := Nat.findGreatest_le _

lemma Kept.sealed_le {s : Session} (h : Kept cfg s) (landed : List Bool) {n : ℕ}
    (hn : s.Sealed n) : n ≤ intactCommits cfg s.chain (s.crashed landed).zone :=
  Nat.le_findGreatest hn.1 (h.crashed_isPrefix landed hn)

/-- The bytes are kept by the crash as far as they are intact. -/
lemma Kept.crash {s : Session} (h : Kept cfg s) (landed : List Bool) (file : OpenFile) :
    Kept cfg (s.afterCrash cfg landed file) := by
  refine ⟨?_, fun e he => h.ends_le e (List.mem_of_mem_take he), ?_, ?_⟩
  · have := h.ends_length
    simp only [afterCrash, intactChain, List.length_take, this]
  · intro j hj n hn
    simp only [afterCrash, List.take_nil, intactChain]
    exact (chainBytes_take_isPrefix _ n).trans (intact_isPrefix s.chain (s.crashed landed).zone)
  · intro j w hw
    simp [afterCrash] at hw

/-- What holds in every session whose steps meet `RecoveryOk`. -/
structure Sound (cfg : PagerConfig) (sha : Sha256) (s : Session) : Prop where
  kept : Kept cfg s
  linked : Linked sha (genesisHead sha cfg.fileId) s.chain
  contents : ∀ w ∈ s.chain, w.header.content_hash = sha.digest w.bodies.flatten
  head : s.file.head = headOf (genesisHead sha cfg.fileId) s.chain
  next_page : s.file.st.next_page = FIRST_DATA_PAGE + (chainPages s.chain).length
  write_offset : s.file.st.write_offset = (chainBytes cfg s.chain).length
  dir : s.file.st.dir = cfg.layoutLocs FIRST_DATA_PAGE 0 (chainPages s.chain)
  slots_ne : s.disk.metaSlots ≠ []
  slots : ∀ m, m ∈ s.disk.metaSlots ∨ FileWrite.slot m ∈ s.pending →
    m.last_commit_page < FIRST_DATA_PAGE ∨ ∃ n, 0 < n ∧ s.Sealed n ∧
      m.last_commit_page = (headOf (genesisHead sha cfg.fileId) (s.chain.take n)).commit_page
  acked : ∀ w ∈ s.acked, ∃ n, s.chain[n]? = some w ∧ s.Sealed (n + 1)

/-- The condition on a step: a commit page is read back as a self-consistent one, no sync
fails after the install, and what a crash leaves behind the intact commits cannot be taken
for the commit after them. -/
def RecoveryOk (cfg : PagerConfig) (sha : Sha256) (s : Session) : Event → Prop
  | .commit c => ∃ h, CommitHeader.decode (commitBody (s.file.header sha c)) = some h ∧
      h.selfConsistent sha = true
  | .syncError _ => False
  | .crash landed => TailOk cfg sha (s.crashed landed)
      (headOf (genesisHead sha cfg.fileId) (s.intactChain cfg (s.crashed landed)))
  | _ => True

lemma sound_created : Sound cfg sha (created cfg sha) where
  kept :=
    { ends_length := rfl
      ends_le := by simp [created]
      settled := by simp [created, chainBytes, chainPages, PagerConfig.layout]
      behind := by simp [created] }
  linked := trivial
  contents := by simp [created]
  head := rfl
  next_page := rfl
  write_offset := rfl
  dir := rfl
  slots_ne := by simp [created, Disk.created, Disk.metaSlots]
  slots := by
    intro m hm
    refine Or.inl ?_
    simp only [created, Disk.created, Disk.metaSlots, Option.toList_some, List.mem_append,
      List.mem_singleton, List.not_mem_nil, or_false, or_self] at hm
    rw [hm]
    decide
  acked := by simp [created]

/-- Writes behind the commits, the slots among them known. -/
lemma Sound.write {s : Session} (h : Sound cfg sha s) (ws : List FileWrite) (nonce : ℕ)
    (used : List ℕ) (hws : ∀ w ∈ ws, w.Past (chainBytes cfg s.chain).length)
    (hslots : ∀ m, FileWrite.slot m ∈ ws → ∃ n, 0 < n ∧ s.Sealed n ∧
      m.last_commit_page = (headOf (genesisHead sha cfg.fileId) (s.chain.take n)).commit_page) :
    Sound cfg sha { s with
      pending := s.pending ++ ws
      issued := s.issued + ws.length
      file := ⟨{ s.file.st with nonce_counter := nonce }, s.file.head⟩
      used := used } := by
  have hsealed : ∀ n, s.Sealed n → Sealed { s with
      pending := s.pending ++ ws
      issued := s.issued + ws.length
      file := ⟨{ s.file.st with nonce_counter := nonce }, s.file.head⟩
      used := used } n := fun n hn => ⟨hn.1, fun e he => by
    have := hn.2 e he
    simp only [List.length_append]
    omega⟩
  refine ⟨h.kept.write hws, h.linked, h.contents, h.head, h.next_page, h.write_offset, h.dir,
    h.slots_ne, ?_, ?_⟩
  · intro m hm
    simp only [List.mem_append] at hm
    rcases hm with hm | hm | hm
    · rcases h.slots m (Or.inl hm) with hlow | ⟨n, h0, hn, hpage⟩
      · exact Or.inl hlow
      · exact Or.inr ⟨n, h0, hsealed n hn, hpage⟩
    · rcases h.slots m (Or.inr hm) with hlow | ⟨n, h0, hn, hpage⟩
      · exact Or.inl hlow
      · exact Or.inr ⟨n, h0, hsealed n hn, hpage⟩
    · obtain ⟨n, h0, hn, hpage⟩ := hslots m hm
      exact Or.inr ⟨n, h0, hsealed n hn, hpage⟩
  · intro w hw
    obtain ⟨n, hn, hs⟩ := h.acked w hw
    exact ⟨n, hn, hsealed _ hs⟩

/-- The commit a transaction makes follows the head. -/
lemma linkOk_header {f : OpenFile} {c : CommitInput} (hc : c.Ok sha f)
    (hdec : ∃ h, CommitHeader.decode (commitBody (f.header sha c)) = some h ∧
      h.selfConsistent sha = true) : LinkOk sha f.head ⟨f.header sha c, c.dirty⟩ where
  sized := hc.sized
  version := rfl
  prev_chain := rfl
  full := hc.full
  nodes := hc.nodes
  decodes := hdec

/-- The pages of the commit, as the records are sealed. -/
lemma pages_header {f : OpenFile} {c : CommitInput} :
    (Written.mk (f.header sha c) c.dirty).pages
      = sealedFrom f.st.nonce_counter (c.dirty ++ [commitBody (f.header sha c)]) := by
  have hnonce : (f.header sha c).nonce_counter - 1 - c.dirty.length = f.st.nonce_counter := by
    simp only [OpenFile.header, commitHeader]
    omega
  rw [Written.pages, hnonce]

lemma mem_recordWrites_past {f : OpenFile} {c : CommitInput} {w : FileWrite} {n : ℕ}
    (hn : n ≤ f.st.write_offset) (h : w ∈ recordWrites (f.records cfg sha c)) : w.Past n := by
  simp only [recordWrites, List.mem_map] at h
  obtain ⟨r, hr, rfl⟩ := h
  exact hn.trans (layRecords_offset_le cfg hr)

lemma length_recordWrites (rs : List PageRecord) : (recordWrites rs).length = rs.length := by
  simp [recordWrites]

lemma not_slot_mem_recordWrites {rs : List PageRecord} {m : MetaSlot} :
    FileWrite.slot m ∉ recordWrites rs := by simp [recordWrites]

@[simp] lemma afterCommit_chain (s : Session) (c : CommitInput) :
    (s.afterCommit cfg sha c).chain = s.chain ++ [⟨s.file.header sha c, c.dirty⟩] := rfl

@[simp] lemma afterCommit_file (s : Session) (c : CommitInput) :
    (s.afterCommit cfg sha c).file = s.file.committed cfg sha c := rfl

lemma Sound.commit {s : Session} (h : Sound cfg sha s) {c : CommitInput} (hc : c.Ok sha s.file)
    (hdec : ∃ h, CommitHeader.decode (commitBody (s.file.header sha c)) = some h ∧
      h.selfConsistent sha = true) : Sound cfg sha (s.afterCommit cfg sha c) := by
  set w : Written := ⟨s.file.header sha c, c.dirty⟩ with hw
  have hpages : w.pages = sealedFrom s.file.st.nonce_counter
      (c.dirty ++ [commitBody (s.file.header sha c)]) := pages_header
  have hbytes : chainBytes cfg (s.chain ++ [w]) = chainBytes cfg s.chain
      ++ cfg.layout s.file.st.next_page w.pages := by
    rw [chainBytes_append, h.next_page]
    simp [chainPages]
  have hwrite := h.write (recordWrites (s.file.records cfg sha c)) s.file.st.nonce_counter s.used
    (fun v hv => mem_recordWrites_past h.write_offset.ge hv)
    (fun m hm => absurd hm not_slot_mem_recordWrites)
  rw [length_recordWrites] at hwrite
  have hview : chainBytes cfg (s.chain ++ [w])
      <+: (s.disk.applyAll (s.pending ++ recordWrites (s.file.records cfg sha c))).zone := by
    rw [Disk.applyAll_append, hbytes, hpages, OpenFile.records, h.write_offset]
    exact applyAll_layRecords cfg h.kept.view_isPrefix _ _ _
  have hkept := hwrite.kept.extend hview
  have hlen := h.kept.ends_length
  have hsealed : ∀ n, s.Sealed n →
      (s.afterCommit cfg sha c).Sealed n ∧ (s.chain ++ [w]).take n = s.chain.take n := by
    intro n hn
    refine ⟨⟨?_, ?_⟩, List.take_append_of_le_length hn.1⟩
    · simp only [afterCommit, List.length_append]
      exact hn.1.trans (Nat.le_add_right _ _)
    · intro e he
      simp only [afterCommit, List.take_append_of_le_length (hn.1.trans hlen.ge)] at he
      have := hn.2 e he
      simp only [afterCommit, List.length_append, length_recordWrites]
      omega
  have hn : (headOf (genesisHead sha cfg.fileId) s.chain).n_pages = s.file.st.next_page := by
    rw [headOf_n_pages, h.next_page]
    rfl
  have hlocs : (s.file.records cfg sha c).map PageRecord.loc
      = cfg.layoutLocs s.file.st.next_page s.file.st.write_offset w.pages := by
    rw [OpenFile.records, layRecords_locs, hpages]
  have hlength : ((s.file.records cfg sha c).map PageRecord.bytes).flatten
      = cfg.layout s.file.st.next_page w.pages := by
    rw [OpenFile.records, layRecords_bytes, hpages]
  refine
    { kept := ⟨hkept.ends_length, hkept.ends_le, hkept.settled, hkept.behind⟩
      linked := Linked.append.2 ⟨h.linked, ?_, trivial⟩
      contents := ?_
      head := ?_
      next_page := ?_
      write_offset := ?_
      dir := ?_
      slots_ne := h.slots_ne
      slots := ?_
      acked := ?_ }
  · rw [← h.head]
    exact linkOk_header hc hdec
  · intro v hv
    rcases List.mem_append.1 hv with hv | hv
    · exact h.contents v hv
    · rw [List.mem_singleton.1 hv]
      rfl
  · rw [afterCommit_chain, headOf_snoc, nextHead, hn]
    rfl
  · simp only [afterCommit_chain, afterCommit_file, OpenFile.committed, OpenFile.installed,
      AppendState.install, chainPages_append, List.length_append, h.next_page]
    simp only [chainPages, List.flatMap_cons, List.flatMap_nil, List.append_nil,
      Written.length_pages]
    omega
  · simp only [afterCommit_chain, afterCommit_file, OpenFile.committed, OpenFile.installed,
      AppendState.install, ← hw, hbytes, List.length_append, hlength, h.write_offset]
  · simp only [afterCommit_chain, afterCommit_file, OpenFile.committed, OpenFile.installed,
      AppendState.install, ← hw, chainPages_append, hlocs, h.dir, PagerConfig.layoutLocs_append,
      h.next_page, h.write_offset, Nat.zero_add]
    simp only [chainPages, chainBytes, List.flatMap_cons, List.flatMap_nil, List.append_nil]
  · intro m hm
    rcases hwrite.slots m hm with hlow | ⟨n, h0, hs, hpage⟩
    · exact Or.inl hlow
    · have hs' : s.Sealed n := ⟨hs.1, fun e he => by
        have := hs.2 e he
        simp only [List.length_append, length_recordWrites] at this
        omega⟩
      obtain ⟨hnew, htake⟩ := hsealed n hs'
      exact Or.inr ⟨n, h0, hnew, by rw [hpage, afterCommit_chain, htake]⟩
  · intro v hv
    obtain ⟨n, hget, hs⟩ := h.acked v hv
    obtain ⟨hnew, -⟩ := hsealed _ hs
    exact ⟨n, by rw [afterCommit_chain, List.getElem?_append_left hs.1, hget], hnew⟩

lemma Sound.fsync {s : Session} (h : Sound cfg sha s) {k : ℕ} (hk : k ≤ s.pending.length) :
    Sound cfg sha (s.afterFsync k) := by
  have hsealed : ∀ n, s.Sealed n → (s.afterFsync k).Sealed n := fun n hn => ⟨hn.1, fun e he => by
    have := hn.2 e he
    simp only [afterFsync, List.length_drop]
    omega⟩
  refine ⟨h.kept.fsync hk, h.linked, h.contents, h.head, h.next_page, h.write_offset, h.dir, ?_,
    ?_, ?_⟩
  · simp only [afterFsync, Disk.applyAll_eq_applyLanded]
    exact Disk.metaSlots_applyLanded_ne h.slots_ne
  · intro m hm
    have hold : m ∈ s.disk.metaSlots ∨ FileWrite.slot m ∈ s.pending := by
      rcases hm with hm | hm
      · simp only [afterFsync, Disk.applyAll_eq_applyLanded] at hm
        exact (Disk.mem_metaSlots_applyLanded hm).imp id List.mem_of_mem_take
      · exact Or.inr (List.mem_of_mem_drop hm)
    rcases h.slots m hold with hlow | ⟨n, h0, hn, hpage⟩
    · exact Or.inl hlow
    · exact Or.inr ⟨n, h0, hsealed n hn, hpage⟩
  · intro w hw
    obtain ⟨n, hn, hs⟩ := h.acked w hw
    exact ⟨n, hn, hsealed _ hs⟩

/-- What the open after a crash finds. -/
lemma Sound.openStore_crashed {s : Session} (h : Sound cfg sha s) {landed : List Bool}
    (htail : RecoveryOk cfg sha s (.crash landed)) :
    ∃ f, cfg.openStore sha (s.crashed landed) = .ok f ∧
      f.head = headOf (genesisHead sha cfg.fileId) (s.intactChain cfg (s.crashed landed)) ∧
      f.st.next_page = FIRST_DATA_PAGE + (chainPages (s.intactChain cfg (s.crashed landed))).length ∧
      f.st.write_offset = (chainBytes cfg (s.intactChain cfg (s.crashed landed))).length ∧
      f.st.dir = cfg.layoutLocs FIRST_DATA_PAGE 0
        (chainPages (s.intactChain cfg (s.crashed landed))) := by
  set ws := s.intactChain cfg (s.crashed landed) with hws
  obtain ⟨rest, hrest⟩ := @intact_isPrefix cfg s.chain (s.crashed landed).zone
  have hlinked : Linked sha (genesisHead sha cfg.fileId) ws := by
    have hchain := h.linked
    rw [← List.take_append_drop (intactCommits cfg s.chain (s.crashed landed).zone) s.chain] at hchain
    exact (Linked.append.1 hchain).1
  have hknow : ∀ m ∈ (s.crashed landed).metaSlots, m.last_commit_page < FIRST_DATA_PAGE ∨
      ∃ vs us, vs ≠ [] ∧ ws = vs ++ us ∧
        m.last_commit_page = (headOf (genesisHead sha cfg.fileId) vs).commit_page := by
    intro m hm
    rcases h.slots m (Disk.mem_metaSlots_applyLanded hm) with hlow | ⟨n, h0, hn, hpage⟩
    · exact Or.inl hlow
    · have hle := h.kept.sealed_le landed hn
      have htake : ws.take n = s.chain.take n := by
        rw [hws, intactChain, List.take_take, min_eq_left hle]
      refine Or.inr ⟨ws.take n, ws.drop n, ?_, (List.take_append_drop _ _).symm, by rw [htake, hpage]⟩
      rw [htake]
      have := hn.1
      intro hnil
      have := congrArg List.length hnil
      simp only [List.length_take, List.length_nil] at this
      omega
  exact ⟨_, cfg.openStore_linked _ _ _ hlinked rfl hrest.symm
    (Disk.metaSlots_applyLanded_ne h.slots_ne) hknow htail, rfl, rfl, rfl, rfl⟩

lemma Sound.crash {s : Session} (h : Sound cfg sha s) {landed : List Bool}
    (htail : RecoveryOk cfg sha s (.crash landed)) {f : OpenFile}
    (hopen : cfg.openStore sha (s.crashed landed) = .ok f) :
    Sound cfg sha (s.afterCrash cfg landed f) := by
  obtain ⟨f', hf', hhead, hnext, hoff, hdir⟩ := h.openStore_crashed htail
  rw [hopen, Except.ok.injEq] at hf'
  subst hf'
  set N := intactCommits cfg s.chain (s.crashed landed).zone with hN
  have hsealed : ∀ n, s.Sealed n → n ≤ N ∧ (s.afterCrash cfg landed f).Sealed n ∧
      (s.afterCrash cfg landed f).chain.take n = s.chain.take n := by
    intro n hn
    have hle := h.kept.sealed_le landed hn
    refine ⟨hle, ⟨?_, fun e he => ?_⟩, ?_⟩
    · have := hn.1
      simp only [afterCrash, intactChain, List.length_take]
      omega
    · exact h.kept.ends_le e (List.mem_of_mem_take (List.mem_of_mem_take he))
    · simp only [afterCrash, intactChain]
      rw [List.take_take, min_eq_left hle]
  refine ⟨h.kept.crash landed f, ?_, fun w hw => h.contents w (List.mem_of_mem_take hw), hhead,
    hnext, hoff, hdir, Disk.metaSlots_applyLanded_ne h.slots_ne, ?_, ?_⟩
  · have hchain := h.linked
    rw [← List.take_append_drop N s.chain] at hchain
    exact (Linked.append.1 hchain).1
  · intro m hm
    have hold : m ∈ s.disk.metaSlots ∨ FileWrite.slot m ∈ s.pending :=
      hm.elim Disk.mem_metaSlots_applyLanded (by simp [afterCrash])
    rcases h.slots m hold with hlow | ⟨n, h0, hn, hpage⟩
    · exact Or.inl hlow
    · obtain ⟨-, hnew, htake⟩ := hsealed n hn
      exact Or.inr ⟨n, h0, hnew, by rw [hpage, htake]⟩
  · intro w hw
    obtain ⟨n, hn, hs⟩ := h.acked w hw
    obtain ⟨hle, hnew, -⟩ := hsealed _ hs
    refine ⟨n, ?_, hnew⟩
    simp only [afterCrash, intactChain]
    rw [List.getElem?_take, if_pos (by omega), hn]

lemma length_partialWrites {rs : List PageRecord} {i part : ℕ} {r : PageRecord}
    (hr : rs[i]? = some r) : (partialWrites rs i part).length = i + 1 := by
  have hlt := (List.getElem?_eq_some_iff.1 hr).1
  simp only [partialWrites, hr, Option.map_some, Option.toList_some, List.length_append,
    length_recordWrites, List.length_take, List.length_singleton]
  omega

lemma Sound.writeError {s : Session} (h : Sound cfg sha s) {c : CommitInput} {i part : ℕ}
    {r : PageRecord} (hr : (s.file.records cfg sha c)[i]? = some r) :
    Sound cfg sha (s.afterWriteError cfg sha c i part) := by
  have hwrites := h.write (partialWrites (s.file.records cfg sha c) i part)
    (s.file.st.nonce_counter + (i + 1))
    ((((s.file.records cfg sha c).take (i + 1)).map PageRecord.counter).reverse ++ s.used) ?_ ?_
  · rw [length_partialWrites hr] at hwrites
    exact hwrites
  · intro w hw
    rcases List.mem_append.1 hw with hw | hw
    · have hmem : w ∈ recordWrites (s.file.records cfg sha c) := by
        rw [recordWrites, List.map_take] at hw
        exact List.mem_of_mem_take hw
      exact mem_recordWrites_past h.write_offset.ge hmem
    · rw [hr, Option.map_some, Option.toList_some, List.mem_singleton] at hw
      rw [hw]
      exact h.write_offset.ge.trans (layRecords_offset_le cfg (List.mem_of_getElem? hr))
  · intro m hm
    rcases List.mem_append.1 hm with hm | hm
    · exact absurd hm not_slot_mem_recordWrites
    · simp [hr] at hm

lemma Sound.step {s s' : Session} {e : Event} (h : Sound cfg sha s) (hok : RecoveryOk cfg sha s e)
    (hstep : Step cfg sha s e s') : Sound cfg sha s' := by
  cases hstep with
  | commit hc => exact h.commit hc hok
  | writeError hc hr hpart => exact h.writeError hr
  | syncError hc => exact absurd hok id
  | fsync hk => exact h.fsync hk
  | @writeMeta n hn hs =>
    refine h.write _ s.file.st.nonce_counter s.used ?_ ?_
    · intro w hw
      rw [List.mem_singleton.1 hw]
      trivial
    · intro m hm
      rw [List.mem_singleton, FileWrite.slot.injEq] at hm
      exact ⟨n, hn, hs, by rw [hm]; rfl⟩
  | @ack n w hw hs =>
    refine ⟨⟨h.kept.ends_length, h.kept.ends_le, h.kept.settled, h.kept.behind⟩, h.linked,
      h.contents, h.head, h.next_page, h.write_offset, h.dir, h.slots_ne, h.slots, ?_⟩
    intro v hv
    rcases List.mem_cons.1 hv with rfl | hv
    · exact ⟨n, hw, hs⟩
    · exact h.acked v hv
  | unsealed hn => exact h
  | crash hopen => exact h.crash hok hopen

lemma Reaches.sound {s : Session} (h : Reaches cfg sha (RecoveryOk cfg sha) s) :
    Sound cfg sha s := by
  induction h with
  | refl => exact sound_created
  | tail _ hstep ih =>
    obtain ⟨e, hok, hst⟩ := hstep
    exact ih.step hok hst

/-- In every run whose steps meet the condition, every crash that meets it is recovered from:
the file opens, its head is the last commit intact on the disk, the commits before it are
the ones written, all those reported as durable among them, and every page of theirs reads
back as it was written and as the commit says. -/
theorem crash_recovery {s : Session} (h : Reaches cfg sha (RecoveryOk cfg sha) s)
    {landed : List Bool} (hok : RecoveryOk cfg sha s (.crash landed)) :
    ∃ f ws, cfg.openStore sha (s.crashed landed) = .ok f ∧
      ws = s.intactChain cfg (s.crashed landed) ∧ ws <+: s.chain ∧
      f.head = headOf (genesisHead sha cfg.fileId) ws ∧
      Linked sha (genesisHead sha cfg.fileId) ws ∧
      (∀ w ∈ s.acked, w ∈ ws) ∧
      (∀ i p, (chainPages ws)[i]? = some p →
        cfg.readPage (s.crashed landed).zone f.st (FIRST_DATA_PAGE + i) = .ok p.body) ∧
      ∀ w ∈ ws, w.header.content_hash = sha.digest w.bodies.flatten := by
  have hs := h.sound
  obtain ⟨f, hf, hhead, hnext, hoff, hdir⟩ := hs.openStore_crashed hok
  have hcrash := hs.crash hok hf
  refine ⟨f, _, hf, rfl, List.take_prefix _ _, hhead, hcrash.linked, ?_, ?_, hcrash.contents⟩
  · intro w hw
    obtain ⟨n, hn, -⟩ := hcrash.acked w hw
    exact List.mem_of_getElem? hn
  · intro i p hp
    obtain ⟨rest, hrest⟩ := @intact_isPrefix cfg s.chain (s.crashed landed).zone
    exact cfg.readPage_layout _ [] hcrash.linked.full hrest.symm
      (by rw [List.append_nil, hdir]; rfl) (by rw [hnext, hdir, PagerConfig.length_layoutLocs]) hp

/-- A commit page whose branch name has no zero byte is read back as it was written. -/
lemma decodes_header {f : OpenFile} {c : CommitInput} (hc : c.Ok sha f) (hnul : 0 ∉ utf8 c.branch) :
    ∃ h, CommitHeader.decode (commitBody (f.header sha c)) = some h ∧
      h.selfConsistent sha = true :=
  ⟨f.header sha c, CommitHeader.decode_encodeInto hc.sized hnul _, by
    simp [CommitHeader.selfConsistent, OpenFile.header, commitHeader_chain]⟩

lemma intactCommits_of_prefix {ws : List Written} {zone : Bytes}
    (h : chainBytes cfg ws <+: zone) : intactCommits cfg ws zone = ws.length :=
  le_antisymm (intactCommits_le ws zone)
    (Nat.le_findGreatest le_rfl (by rwa [List.take_length]))

namespace NonceSample

lemma nul_free (b : UInt8) : 0 ∉ utf8 (input b).branch := by
  change 0 ∉ utf8 "main"
  decide +kernel

/-- The disk of the second crash, with the first record of one commit and the second record
of another. -/
lemma open_mixed {s : Session} (h : Empty (.plain .std) false s)
    (hz : s.disk.zone = firstRecord (.plain .std) false 0 1) :
    ∃ f, (config (.plain .std) false).openStore .std
        { s.disk with zone := s.disk.zone ++ secondRecord (.plain .std) false s.file 2 } = .ok f ∧
      f.head = headFrom (s.file.header .std (input 2)) (FIRST_DATA_PAGE + 1) ∧
      (config (.plain .std) false).readPage
        (s.disk.zone ++ secondRecord (.plain .std) false s.file 2) f.st FIRST_DATA_PAGE
        = .ok (page 1) := by
  obtain ⟨n, hn, hf⟩ := h.file
  set cfg := config (.plain .std) false with hcfg
  set hd := s.file.header .std (input 2) with hhd
  have hok : (input 2).Ok .std s.file := input_ok (by decide) (by rw [hf]) (by rw [hf]; exact hn)
  have hlink := linkOk_header hok (decodes_header hok (nul_free 2))
  rw [← hhd, hf] at hlink
  have hws : Linked .std (genesisHead .std cfg.fileId) [⟨hd, [page 1]⟩] :=
    ⟨⟨hlink.sized, hlink.version, hlink.prev_chain, by simp [length_page],
      by simp [decode_page (b := 1) (by decide)], hlink.decodes⟩, trivial⟩
  set ps : List SealedPage := [⟨0, page 1⟩, ⟨s.file.st.nonce_counter + 1, commitBody hd⟩] with hps
  have hfull : FullPages ps := by
    have hcommit : (commitBody hd).length = BODY_SIZE :=
      CommitHeader.length_encodeInto hlink.sized (by simp [zeroBody])
    simp [FullPages, hps, length_page, hcommit]
  have hlay : s.disk.zone ++ secondRecord (.plain .std) false s.file 2
      = cfg.layout FIRST_DATA_PAGE ps := by
    rw [hz, hps]
    simp only [PagerConfig.layout, List.append_nil]
    rfl
  have hslots : ({ s.disk with zone := s.disk.zone ++ secondRecord (.plain .std) false s.file 2 }
      : Disk).metaSlots = [⟨0, 0, FIRST_DATA_PAGE⟩, ⟨0, 0, FIRST_DATA_PAGE⟩] := by
    simp only [Disk.metaSlots, h.slotA, h.slotB]
    rfl
  have hopen := cfg.openStore_linked
    (d := { s.disk with zone := s.disk.zone ++ secondRecord (.plain .std) false s.file 2 })
    _ ps [] hws (by rfl) (by rw [List.append_nil]; exact hlay)
    (by rw [hslots]; simp) (by rw [hslots]; simp [FIRST_DATA_PAGE])
    (TailOk.of_clean hfull (by rfl) hlay)
  refine ⟨_, hopen, rfl, ?_⟩
  exact cfg.readPage_layout [] [] (i := 0) (p := ⟨0, page 1⟩) hfull
    (by rw [List.append_nil]; exact hlay) (by simp) (by simp) rfl

end NonceSample

/-- A commit of a session whose zone holds nothing but its commits. -/
lemma Sound.view_commit {s : Session} (h : Sound cfg sha s) {c : CommitInput}
    (hz : s.view.zone = chainBytes cfg s.chain) :
    (s.afterCommit cfg sha c).view.zone = chainBytes cfg (s.afterCommit cfg sha c).chain := by
  have hoff : s.file.st.write_offset = (s.disk.applyAll s.pending).zone.length := by
    rw [h.write_offset, ← hz]
    rfl
  have hzone : (s.disk.applyAll s.pending).zone = chainBytes cfg s.chain := hz
  simp only [view, afterCommit]
  rw [Disk.applyAll_append, OpenFile.records, hoff, applyAll_layRecords_end, chainBytes_append]
  simp only [hzone, h.next_page, chainPages, List.flatMap_cons, List.flatMap_nil, List.append_nil,
    pages_header]

/-- A crash that lets everything through, when there is nothing else in the zone. -/
lemma Sound.crash_all {s : Session} (h : Sound cfg sha s)
    (hz : s.view.zone = chainBytes cfg s.chain) :
    RecoveryOk cfg sha s (.crash (List.replicate s.pending.length true)) ∧
      s.intactChain cfg (s.crashed (List.replicate s.pending.length true)) = s.chain := by
  have hview : s.crashed (List.replicate s.pending.length true) = s.view :=
    (Disk.applyAll_eq_applyLanded s.disk s.pending).symm
  have hintact : s.intactChain cfg s.view = s.chain := by
    rw [intactChain, hz, intactCommits_of_prefix List.prefix_rfl, List.take_length]
  rw [RecoveryOk, hview, hintact]
  exact ⟨TailOk.of_clean h.linked.full rfl hz, rfl⟩

/-- A commit of which both records have landed is recovered. -/
theorem crash_recovery_landed : ∃ (s : Session) (f : OpenFile) (ws : List Written),
    s.chain.length = 1 ∧
      (NonceSample.config (.plain .std) false).openStore .std (s.crashed [true, true]) = .ok f ∧
      ws <+: s.chain ∧
      f.head = headOf (genesisHead .std (NonceSample.config (.plain .std) false).fileId) ws ∧
      f.head.version = 1 := by
  set cfg := NonceSample.config (.plain .std) false with hcfg
  have hok : (NonceSample.input 1).Ok .std (created cfg .std).file :=
    NonceSample.input_ok (by decide) rfl (Nat.zero_le _)
  have hdec := decodes_header hok (NonceSample.nul_free 1)
  have hreach := Relation.ReflTransGen.tail (r := fun s s' => ∃ e, RecoveryOk cfg .std s e ∧
    Step cfg .std s e s') .refl ⟨.commit (NonceSample.input 1), hdec, .commit hok⟩
  have hsound : Sound cfg .std (afterCommit cfg .std (created cfg .std) (NonceSample.input 1)) :=
    sound_created.commit hok hdec
  have hview := (@sound_created cfg .std).view_commit (c := NonceSample.input 1) rfl
  obtain ⟨hcrash, hintact⟩ := hsound.crash_all hview
  obtain ⟨f, ws, hopen, hws, hpre, hhead, -, -, -, -⟩ := crash_recovery hreach hcrash
  have hall : ws = ((created cfg .std).afterCommit cfg .std (NonceSample.input 1)).chain :=
    hws.trans hintact
  refine ⟨_, f, ws, rfl, hopen, hpre, hhead, ?_⟩
  rw [hhead, hall]
  rfl

/-- A crash loses the data page of a commit but not its commit page, and an earlier crash has
left a record of the same length in the place of the data page: the commit is recovered with
the page of another. -/
theorem recovered_with_lost_page : ∃ s s' landed f,
    Reaches (NonceSample.config (.plain .std) false) .std (fun _ => NoFault) s ∧
      s.file.st.next_page = FIRST_DATA_PAGE ∧
      Step (NonceSample.config (.plain .std) false) .std s (.commit (NonceSample.input 2)) s' ∧
      (NonceSample.config (.plain .std) false).openStore .std (s'.crashed landed) = .ok f ∧
      f.head = s'.file.head ∧
      (NonceSample.config (.plain .std) false).readPage (s'.crashed landed).zone f.st
        FIRST_DATA_PAGE = .ok (NonceSample.page 1) ∧
      NonceSample.page 1 ∉ (NonceSample.input 2).dirty := by
  obtain ⟨s1, h1, hp1, hd1, -, -⟩ := NonceSample.commit_step (.plain .std) false
    (NonceSample.empty_created _ _) (b := 1) (by decide)
  obtain ⟨s2, h2, he2, hz2, -, -⟩ := NonceSample.crash_step (.plain .std) false (s := s1)
    (by rw [hd1]; rfl) (by rw [hd1]; rfl) (by rw [hd1]; simp [created, Disk.created])
    (by decide) (by decide) hp1
  obtain ⟨s3, h3, hp3, hd3, hf3, -⟩ :=
    NonceSample.commit_step (.plain .std) false he2 (b := 2) (by decide)
  have hz : s2.disk.zone = NonceSample.firstRecord (.plain .std) false 0 1 := hz2
  obtain ⟨f, hopen, hhead, hread⟩ := NonceSample.open_mixed he2 hz
  obtain ⟨n, hn, hf⟩ := he2.file
  have hlen : (NonceSample.firstRecord (.plain .std) false s2.file.st.nonce_counter 2).length
      = s2.disk.zone.length := by
    rw [hz]
    exact (NonceSample.length_record _ _ (by decide) _).trans
      (NonceSample.length_record _ _ (by decide) _).symm
  have hdisk : s3.crashed [false, true] = { s2.disk with
      zone := s2.disk.zone ++ NonceSample.secondRecord (.plain .std) false s2.file 2 } := by
    rw [crashed, hp3, hd3, hlen]
    simp only [Disk.applyLanded, Disk.apply, Bool.false_eq_true, if_false, if_true, writeZone_end]
  refine ⟨s2, s3, [false, true], f, ?_, by rw [hf]; rfl, h3, by rw [hdisk]; exact hopen, ?_,
    by rw [hdisk]; exact hread, by simp [NonceSample.input, NonceSample.page]⟩
  · exact .tail (.tail .refl ⟨.commit (NonceSample.input 1), trivial, h1⟩)
      ⟨.crash [true, false], trivial, h2⟩
  · rw [hhead, hf3, hf]
    rfl

end Session

end Arkeion
