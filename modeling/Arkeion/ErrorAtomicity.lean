import Arkeion.CrashRecovery
import Mathlib.Data.List.Forall2

/-!
Failed commits, and the run without them.

An attempt that fails while its pages are written leaves bytes behind the head and spends
counters, no more. Every run with such attempts has a run without them that goes through the
same commits: its fsyncs and crashes stop at the ends of commits, so that nothing ever lies
behind the head. The two differ in nothing but nonce counters.
-/

namespace Arkeion

open Arkeion.Lib

namespace Session

variable {cfg : PagerConfig} {sha : Sha256}

/-! ### Which commits are durable after a step -/

lemma length_records {f : OpenFile} {c : CommitInput} :
    (f.records cfg sha c).length = c.dirty.length + 1 := by
  rw [OpenFile.records, length_layRecords, List.length_append, List.length_singleton]

lemma sealed_mono {s : Session} {m n : ℕ} (hmn : m ≤ n) (h : s.Sealed n) : s.Sealed m :=
  ⟨hmn.trans h.1, fun e he => h.2 e ((List.take_prefix_take_left hmn).subset he)⟩

lemma sealed_afterCommit {s : Session} (h : Kept cfg s) (c : CommitInput) (n : ℕ) :
    (s.afterCommit cfg sha c).Sealed n ↔ s.Sealed n := by
  have hlen := h.ends_length
  have hrec := @length_records cfg sha s.file c
  unfold Sealed
  simp only [afterCommit, List.length_append, length_recordWrites, List.length_singleton]
  constructor
  · rintro ⟨hn, he⟩
    have hle : n ≤ s.chain.length := by
      by_contra hlt
      have := he (s.issued + (s.file.records cfg sha c).length)
        (by rw [List.take_of_length_le (by simp; omega)]; simp)
      omega
    rw [List.take_append_of_le_length (by omega)] at he
    exact ⟨hle, fun e hmem => by have := he e hmem; omega⟩
  · rintro ⟨hn, he⟩
    rw [List.take_append_of_le_length (by omega)]
    exact ⟨by omega, fun e hmem => by have := he e hmem; omega⟩

lemma sealed_afterFsync {s : Session} {k : ℕ} (hk : k ≤ s.pending.length) (n : ℕ) :
    (s.afterFsync k).Sealed n ↔ n ≤ s.chain.length ∧ s.Complete k n := by
  unfold Sealed Complete
  simp only [afterFsync, List.length_drop]
  refine and_congr_right fun _ => forall₂_congr fun e _ => ?_
  omega

lemma sealed_afterMeta {s : Session} (k n : ℕ) :
    (s.afterMeta cfg sha k).Sealed n ↔ s.Sealed n := by
  unfold Sealed
  simp only [afterMeta, List.length_append, List.length_singleton]
  refine and_congr_right fun _ => forall₂_congr fun e _ => ?_
  omega

lemma sealed_afterWriteError {s : Session} {c : CommitInput} {i part : ℕ} {r : PageRecord}
    (hr : (s.file.records cfg sha c)[i]? = some r) (n : ℕ) :
    (s.afterWriteError cfg sha c i part).Sealed n ↔ s.Sealed n := by
  unfold Sealed
  simp only [afterWriteError, List.length_append, length_partialWrites hr]
  refine and_congr_right fun _ => forall₂_congr fun e _ => ?_
  omega

lemma sealed_afterCrash {s : Session} (h : Kept cfg s) (landed : List Bool) (f : OpenFile) (n : ℕ) :
    (s.afterCrash cfg landed f).Sealed n
      ↔ n ≤ intactCommits cfg s.chain (s.crashed landed).zone := by
  have hle := @intactCommits_le cfg s.chain (s.crashed landed).zone
  unfold Sealed
  simp only [afterCrash, intactChain, List.length_take, List.length_nil, Nat.add_zero]
  constructor
  · rintro ⟨hn, -⟩
    omega
  · intro hn
    exact ⟨by omega, fun e he => h.ends_le e (List.mem_of_mem_take (List.mem_of_mem_take he))⟩

/-! ### Runs that leave nothing behind the head -/

/-- A commit takes room in the zone. -/
lemma length_chainBytes_lt {ws vs : List Written} (h : vs ≠ []) :
    (chainBytes cfg ws).length < (chainBytes cfg (ws ++ vs)).length := by
  obtain ⟨v, vs, rfl⟩ := List.exists_cons_of_ne_nil h
  have hge := cfg.length_layout_ge (FIRST_DATA_PAGE + (chainPages ws).length) (chainPages (v :: vs))
  have hpos : 0 < (chainPages (v :: vs)).length := by
    simp only [chainPages, List.flatMap_cons, List.length_append, Written.length_pages]
    omega
  rw [chainBytes_append, List.length_append]
  have : 0 < (chainPages (v :: vs)).length * MIN_RECORD_LEN := Nat.mul_pos hpos (by decide)
  omega

lemma intactCommits_of_take {ws : List Written} {n : ℕ} (hn : n ≤ ws.length) :
    intactCommits cfg ws (chainBytes cfg (ws.take n)) = n := by
  refine le_antisymm ?_ (Nat.le_findGreatest hn List.prefix_rfl)
  by_contra hlt
  set m := intactCommits cfg ws (chainBytes cfg (ws.take n)) with hm
  have hle := @intactCommits_le cfg ws (chainBytes cfg (ws.take n))
  have hpre := (@intact_isPrefix cfg ws (chainBytes cfg (ws.take n))).length_le
  rw [← hm] at hle hpre
  have hsplit : ws.take m = ws.take n ++ (ws.take m).drop n := by
    conv_lhs => rw [← List.take_append_drop n (ws.take m), List.take_take, min_eq_left (by omega)]
  have hne : (ws.take m).drop n ≠ [] := by
    rw [← List.length_pos_iff, List.length_drop, List.length_take]
    omega
  have := @length_chainBytes_lt cfg (ws.take n) _ hne
  rw [← hsplit] at this
  omega

/-- The zone is the commits', and can be cut off at the end of any that is not durable yet. -/
structure Tidy (cfg : PagerConfig) (t : Session) : Prop where
  view : t.view.zone = chainBytes cfg t.chain
  cut : ∀ n ≤ t.chain.length, ¬ t.Sealed (n + 1) → ∃ k ≤ t.pending.length,
    (t.disk.applyAll (t.pending.take k)).zone = chainBytes cfg (t.chain.take n) ∧
      ∀ m ≤ t.chain.length, t.Complete k m ↔ m ≤ n

namespace Tidy

lemma created : Tidy cfg (created cfg sha) where
  view := rfl
  cut := by
    intro n hn _
    refine ⟨0, le_rfl, ?_, ?_⟩
    · simp [Session.created, Disk.created, Disk.applyAll, chainBytes, chainPages,
        PagerConfig.layout]
    · intro m hm
      simp only [Session.created, List.length_nil, Nat.le_zero] at hm hn
      simp [Complete, Session.created, hm, hn]

lemma commit {t : Session} (h : Tidy cfg t) (hs : Sound cfg sha t) (c : CommitInput) :
    Tidy cfg (t.afterCommit cfg sha c) := by
  have hlen := hs.kept.ends_length
  have hrec := @length_records cfg sha t.file c
  refine ⟨hs.view_commit h.view, fun n hn hnot => ?_⟩
  rw [sealed_afterCommit hs.kept] at hnot
  simp only [afterCommit_chain, List.length_append, List.length_singleton] at hn ⊢
  rcases Nat.lt_or_ge t.chain.length n with hlt | hle
  · refine ⟨(t.afterCommit cfg sha c).pending.length, le_rfl, ?_, fun m hm => ?_⟩
    · rw [List.take_length, List.take_of_length_le (by simp; omega)]
      exact hs.view_commit h.view
    · refine ⟨fun _ => by omega, fun _ e he => ?_⟩
      have he' := List.mem_of_mem_take he
      simp only [afterCommit, List.mem_append, List.mem_singleton, List.length_append,
        length_recordWrites] at he' ⊢
      rcases he' with he' | he'
      · have := hs.kept.ends_le e he'
        omega
      · omega
  · obtain ⟨k, hk, hzone, hcomplete⟩ := h.cut n hle hnot
    refine ⟨k, ?_, ?_, fun m hm => ?_⟩
    · simp only [afterCommit, List.length_append]
      omega
    · rw [List.take_append_of_le_length hle, ← hzone]
      simp only [afterCommit]
      rw [List.take_append_of_le_length hk]
    · unfold Complete at hcomplete ⊢
      simp only [afterCommit, List.length_append, length_recordWrites]
      rcases Nat.lt_or_ge t.chain.length m with hlt | hge
      · rw [List.take_of_length_le (by simp; omega)]
        refine ⟨fun hall => ?_, fun hmn => by omega⟩
        have := hall (t.issued + (t.file.records cfg sha c).length) (by simp)
        omega
      · rw [List.take_append_of_le_length (by omega), ← hcomplete m hge]
        refine forall₂_congr fun e _ => ?_
        omega

/-- An fsync that ends with a commit. -/
lemma fsync {t : Session} (h : Tidy cfg t) {n k : ℕ} (hn : n ≤ t.chain.length)
    (hk : k ≤ t.pending.length)
    (hzone : (t.disk.applyAll (t.pending.take k)).zone = chainBytes cfg (t.chain.take n))
    (hcomplete : ∀ m ≤ t.chain.length, t.Complete k m ↔ m ≤ n) : Tidy cfg (t.afterFsync k) := by
  constructor
  · rw [show (t.afterFsync k).chain = t.chain from rfl, ← h.view]
    simp only [Session.view, afterFsync]
    rw [← Disk.applyAll_append, List.take_append_drop]
  · intro n' hn' hnot
    rw [sealed_afterFsync hk] at hnot
    have hge : n ≤ n' := by
      by_contra hlt
      exact hnot ⟨by omega, (hcomplete (n' + 1) (by omega)).2 (by omega)⟩
    rcases Nat.eq_or_lt_of_le hge with rfl | hlt
    · refine ⟨0, Nat.zero_le _, hzone, fun m hm => ?_⟩
      rw [← hcomplete m hm]
      unfold Complete
      simp only [afterFsync, List.length_drop]
      refine forall₂_congr fun e _ => ?_
      omega
    · obtain ⟨k', hk', hzone', hcomplete'⟩ := h.cut n' hn' fun hs =>
        hnot ⟨hs.1, fun e he => by have := hs.2 e he; omega⟩
      have hkk : k ≤ k' := by
        by_contra hlt'
        have h1 := (hcomplete' n' hn').2 le_rfl
        have h2 : t.Complete k n' := fun e he => by have := h1 e he; omega
        have := (hcomplete n' hn').1 h2
        omega
      refine ⟨k' - k, ?_, ?_, fun m hm => ?_⟩
      · simp only [afterFsync, List.length_drop]
        omega
      · simp only [afterFsync]
        rw [← Disk.applyAll_append, ← List.take_add, Nat.add_sub_cancel' hkk]
        exact hzone'
      · rw [← hcomplete' m hm]
        unfold Complete
        simp only [afterFsync, List.length_drop]
        refine forall₂_congr fun e _ => ?_
        omega

lemma writeMeta {t : Session} (h : Tidy cfg t) (n : ℕ) :
    Tidy cfg (t.afterMeta cfg sha n) := by
  constructor
  · rw [show (t.afterMeta cfg sha n).chain = t.chain from rfl, ← h.view]
    simp only [Session.view, afterMeta]
    rw [Disk.applyAll_append]
    simp only [Disk.applyAll, List.foldl_cons, List.foldl_nil, Disk.apply]
    split <;> rfl
  · intro n' hn' hnot
    rw [sealed_afterMeta] at hnot
    obtain ⟨k, hk, hzone, hcomplete⟩ := h.cut n' hn' hnot
    refine ⟨k, ?_, ?_, fun m hm => ?_⟩
    · simp only [afterMeta, List.length_append]
      omega
    · rw [show (t.afterMeta cfg sha n).chain = t.chain from rfl, ← hzone]
      simp only [afterMeta]
      rw [List.take_append_of_le_length hk]
    · rw [← hcomplete m hm]
      unfold Complete
      simp only [afterMeta, List.length_append, List.length_singleton]
      refine forall₂_congr fun e _ => ?_
      omega

/-- A crash that ends with a commit. -/
lemma crash {t : Session} (hs : Kept cfg t) {n k : ℕ} (hn : n ≤ t.chain.length)
    (hzone : (t.disk.applyAll (t.pending.take k)).zone = chainBytes cfg (t.chain.take n))
    (f : OpenFile) : t.crashed (List.replicate k true) = t.disk.applyAll (t.pending.take k) ∧
      intactCommits cfg t.chain (t.crashed (List.replicate k true)).zone = n ∧
      Tidy cfg (t.afterCrash cfg (List.replicate k true) f) := by
  have hcrashed : t.crashed (List.replicate k true) = t.disk.applyAll (t.pending.take k) :=
    Disk.applyLanded_replicate _ _ _
  have hintact : intactCommits cfg t.chain (t.crashed (List.replicate k true)).zone = n := by
    rw [hcrashed, hzone]
    exact intactCommits_of_take hn
  have hafter : (t.afterCrash cfg (List.replicate k true) f).disk.zone
      = chainBytes cfg (t.afterCrash cfg (List.replicate k true) f).chain := by
    simp only [afterCrash, intactChain, hintact]
    rw [hcrashed, hzone]
  have hlen : (t.afterCrash cfg (List.replicate k true) f).chain.length = n := by
    simp only [afterCrash, intactChain, hintact, List.length_take]
    omega
  refine ⟨hcrashed, hintact, hafter, fun n' hn' hnot => ⟨0, le_rfl, ?_, fun m hm => ?_⟩⟩ <;>
    rw [sealed_afterCrash hs, hintact] at hnot
  · rw [List.take_of_length_le (l := (t.afterCrash cfg (List.replicate k true) f).chain) (by omega)]
    exact hafter
  · refine ⟨fun _ => by omega, fun _ e he => ?_⟩
    exact hs.ends_le e (List.mem_of_mem_take (List.mem_of_mem_take he))

end Tidy

/-! ### The same store but for nonce counters -/

/-- The same head, with a counter that is no larger. -/
def SameHead (h g : Head) : Prop :=
  g = { h with nonce_counter := g.nonce_counter } ∧ g.nonce_counter ≤ h.nonce_counter

/-- The same header, with a counter that is no larger. -/
def SameHeader (h g : CommitHeader) : Prop :=
  g = { h with nonce_counter := g.nonce_counter } ∧ g.nonce_counter ≤ h.nonce_counter

def SameCommit (w v : Written) : Prop := v.bodies = w.bodies ∧ SameHeader w.header v.header

/-- The same page, up to the counter in a commit page. -/
def SameBody (b b' : Bytes) : Prop :=
  b' = b ∨ ∃ h g, SameHeader h g ∧ b = commitBody h ∧ b' = commitBody g

lemma SameHead.headFrom {h g : CommitHeader} (hg : SameHeader h g) (page : ℕ) :
    SameHead (headFrom h page) (headFrom g page) := by
  refine ⟨?_, hg.2⟩
  rw [hg.1]
  rfl

lemma SameHead.headOf {h g : Head} (hg : SameHead h g) {ws vs : List Written}
    (hws : List.Forall₂ SameCommit ws vs) : SameHead (headOf h ws) (headOf g vs) := by
  induction hws generalizing h g with
  | nil => exact hg
  | @cons w v ws vs hw hws ih =>
    refine ih ?_
    have hn : g.n_pages = h.n_pages := by rw [hg.1]
    rw [nextHead, nextHead, hn, hw.1]
    exact SameHead.headFrom hw.2 _

lemma SameHeader.decodes {h g : CommitHeader} (hg : SameHeader h g) (hs : h.Sized)
    (hs' : g.Sized) (hdec : ∃ k, CommitHeader.decode (commitBody h) = some k ∧
      k.selfConsistent sha = true) :
    ∃ k, CommitHeader.decode (commitBody g) = some k ∧ k.selfConsistent sha = true := by
  obtain ⟨k, hk, hself⟩ := hdec
  rw [commitBody, CommitHeader.decode_encodeInto_eq hs, Option.map_eq_some_iff] at hk
  obtain ⟨b, hb, rfl⟩ := hk
  have hbranch : g.branch = h.branch := by rw [hg.1]
  refine ⟨{ g with branch := b }, ?_, ?_⟩
  · rw [commitBody, CommitHeader.decode_encodeInto_eq hs', hbranch, hb]
    rfl
  · rw [hg.1]
    exact hself

/-- The commit of the same transaction on the same head. -/
lemma SameHeader.header {f g : OpenFile} (hh : SameHead f.head g.head)
    (hn : g.st.nonce_counter ≤ f.st.nonce_counter) (c : CommitInput) :
    SameHeader (f.header sha c) (g.header sha c) := by
  refine ⟨?_, ?_⟩
  · simp only [OpenFile.header]
    rw [hh.1]
    rfl
  · simp only [OpenFile.header, commitHeader]
    omega

lemma SameHeader.sized {h g : CommitHeader} (hg : SameHeader h g) (hs : h.Sized) : g.Sized := by
  have hnonce := hs.nonce.trans_le' hg.2
  rw [hg.1]
  exact { hs with nonce := hnonce }

lemma bodies_chainPages_same {ws vs : List Written} (h : List.Forall₂ SameCommit ws vs) :
    List.Forall₂ SameBody ((chainPages ws).map SealedPage.body)
      ((chainPages vs).map SealedPage.body) := by
  induction h with
  | nil => exact .nil
  | @cons w v ws vs hw _ ih =>
    simp only [chainPages, List.flatMap_cons, List.map_append, Written.pages, sealedFrom_body] at ih ⊢
    refine List.rel_append (List.rel_append ?_ ?_) ih
    · rw [hw.1]
      exact List.forall₂_same.2 fun b _ => Or.inl rfl
    · exact .cons (Or.inr ⟨_, _, hw.2, rfl, rfl⟩) .nil

/-! ### The run without the failed attempts -/

/-- The condition on a step: an attempt fails, if at all, while its pages are written, and
recovery is not led astray. -/
def AtomicOk (cfg : PagerConfig) (sha : Sha256) (s : Session) : Event → Prop
  | .unsealed _ => False
  | e => RecoveryOk cfg sha s e

/-- The events of a run from a fresh file, oldest first, and where it leads. -/
inductive Runs (cfg : PagerConfig) (sha : Sha256) (ok : Session → Event → Prop) :
    List Event → Session → Prop
  | nil : Runs cfg sha ok [] (created cfg sha)
  | snoc {es : List Event} {e : Event} {s s' : Session} : Runs cfg sha ok es s → ok s e →
      Step cfg sha s e s' → Runs cfg sha ok (es ++ [e]) s'

/-- The same event, up to which writes an fsync covers and a crash lets through. -/
inductive SameEvent : Event → Event → Prop
  | commit (c : CommitInput) : SameEvent (.commit c) (.commit c)
  | fsync (k k' : ℕ) : SameEvent (.fsync k) (.fsync k')
  | writeMeta (n : ℕ) : SameEvent (.writeMeta n) (.writeMeta n)
  | ack (n : ℕ) : SameEvent (.ack n) (.ack n)
  | crash (landed landed' : List Bool) : SameEvent (.crash landed) (.crash landed')

/-- The second run's events are the first's without the failed attempts. -/
inductive Without : List Event → List Event → Prop
  | nil : Without [] []
  | keep {es es' : List Event} {e e' : Event} : Without es es' → SameEvent e e' →
      Without (es ++ [e]) (es' ++ [e'])
  | drop {es es' : List Event} (c : CommitInput) (i part : ℕ) : Without es es' →
      Without (es ++ [.writeError c i part]) es'

/-- What ties a session to the one of the run without the failed attempts. -/
structure Erased (cfg : PagerConfig) (sha : Sha256) (s t : Session) : Prop where
  left : Sound cfg sha s
  right : Sound cfg sha t
  tidy : Tidy cfg t
  chain : List.Forall₂ SameCommit s.chain t.chain
  acked : List.Forall₂ SameCommit s.acked t.acked
  durable : ∀ n, s.Sealed n ↔ t.Sealed n
  nonce : t.file.st.nonce_counter ≤ s.file.st.nonce_counter

namespace Erased

variable {s t : Session}

lemma created : Erased cfg sha (created cfg sha) (created cfg sha) where
  left := sound_created
  right := sound_created
  tidy := .created
  chain := .nil
  acked := .nil
  durable _ := Iff.rfl
  nonce := le_rfl

lemma head (h : Erased cfg sha s t) : SameHead s.file.head t.file.head := by
  rw [h.left.head, h.right.head]
  exact SameHead.headOf ⟨rfl, le_rfl⟩ h.chain

lemma length_chain (h : Erased cfg sha s t) : t.chain.length = s.chain.length :=
  h.chain.length_eq.symm

/-- The same transaction can be committed. -/
lemma commit_ok (h : Erased cfg sha s t) {c : CommitInput} (hc : c.Ok sha s.file) :
    c.Ok sha t.file where
  sized := (SameHeader.header h.head h.nonce c).sized hc.sized
  full := hc.full
  nodes := hc.nodes

lemma commit (h : Erased cfg sha s t) {c : CommitInput} (hc : c.Ok sha s.file)
    (hok : RecoveryOk cfg sha s (.commit c)) :
    RecoveryOk cfg sha t (.commit c) ∧
      Erased cfg sha (s.afterCommit cfg sha c) (t.afterCommit cfg sha c) := by
  have hsame := @SameHeader.header sha _ _ h.head h.nonce c
  have hc' := h.commit_ok hc
  have hok' : RecoveryOk cfg sha t (.commit c) := hsame.decodes hc.sized hc'.sized hok
  refine ⟨hok', h.left.commit hc hok, h.right.commit hc' hok', h.tidy.commit h.right c, ?_, h.acked,
    fun n => ?_, ?_⟩
  · exact List.rel_append h.chain (.cons ⟨rfl, hsame⟩ .nil)
  · rw [sealed_afterCommit h.left.kept, sealed_afterCommit h.right.kept, h.durable]
  · simp only [afterCommit_file, OpenFile.committed, OpenFile.installed, AppendState.install,
      length_records]
    have := h.nonce
    omega

/-- The fsync of the other run ends with the last commit that this one makes durable. -/
lemma fsync (h : Erased cfg sha s t) {k : ℕ} (hk : k ≤ s.pending.length) :
    ∃ k' ≤ t.pending.length, Erased cfg sha (s.afterFsync k) (t.afterFsync k') := by
  classical
  set n := Nat.findGreatest (fun n => (s.afterFsync k).Sealed n) s.chain.length with hn
  have hle : n ≤ s.chain.length := Nat.findGreatest_le _
  have hspec : (s.afterFsync k).Sealed n :=
    Nat.findGreatest_spec (P := fun n => (s.afterFsync k).Sealed n) (Nat.zero_le _)
      ⟨Nat.zero_le _, by simp⟩
  have hiff : ∀ m, (s.afterFsync k).Sealed m ↔ m ≤ n :=
    fun m => ⟨fun hm => Nat.le_findGreatest hm.1 hm, fun hm => sealed_mono hm hspec⟩
  have hnot : ¬ t.Sealed (n + 1) := by
    rw [← h.durable]
    intro hs
    have hs' : (s.afterFsync k).Sealed (n + 1) :=
      (sealed_afterFsync hk _).2 ⟨hs.1, fun e he => by have := hs.2 e he; omega⟩
    have := (hiff _).1 hs'
    omega
  obtain ⟨k', hk', hzone, hcomplete⟩ := h.tidy.cut n (by rw [h.length_chain]; exact hle) hnot
  refine ⟨k', hk', h.left.fsync hk, h.right.fsync hk', ?_, h.chain, h.acked, fun m => ?_, h.nonce⟩
  · exact h.tidy.fsync (by rw [h.length_chain]; exact hle) hk' hzone hcomplete
  · rw [hiff, sealed_afterFsync hk', h.length_chain]
    refine ⟨fun hm => ⟨by omega, (hcomplete m (by rw [h.length_chain]; omega)).2 hm⟩, ?_⟩
    rintro ⟨hm, hc⟩
    exact (hcomplete m (by rw [h.length_chain]; omega)).1 hc

/-- The crash of the other run lets exactly the commits through that this one leaves intact. -/
lemma crash (h : Erased cfg sha s t) {landed : List Bool}
    (hok : RecoveryOk cfg sha s (.crash landed)) {f : OpenFile}
    (hopen : cfg.openStore sha (s.crashed landed) = .ok f) :
    ∃ landed' f', RecoveryOk cfg sha t (.crash landed') ∧
      cfg.openStore sha (t.crashed landed') = .ok f' ∧
      Erased cfg sha (s.afterCrash cfg landed f) (t.afterCrash cfg landed' f') := by
  set n := intactCommits cfg s.chain (s.crashed landed).zone with hn
  have hle : n ≤ t.chain.length := by
    rw [h.length_chain]
    exact intactCommits_le _ _
  have hnot : ¬ t.Sealed (n + 1) := by
    rw [← h.durable]
    intro hs
    have := h.left.kept.sealed_le landed hs
    omega
  obtain ⟨k, hk, hzone, -⟩ := h.tidy.cut n hle hnot
  obtain ⟨hcrashed, hintact, -⟩ := Tidy.crash h.right.kept hle hzone t.file
  have hchain : t.intactChain cfg (t.crashed (List.replicate k true)) = t.chain.take n := by
    rw [intactChain, hintact]
  have hlinked : Linked sha (genesisHead sha cfg.fileId) (t.chain.take n) := by
    have hlinked := h.right.linked
    rw [← List.take_append_drop n t.chain] at hlinked
    exact (Linked.append.1 hlinked).1
  have hok' : RecoveryOk cfg sha t (.crash (List.replicate k true)) := by
    rw [RecoveryOk, hchain]
    exact TailOk.of_clean hlinked.full rfl (by rw [hcrashed, hzone]; rfl)
  obtain ⟨f', hf', hhead', hnext', hoff', hdir'⟩ := h.right.openStore_crashed hok'
  have hsound := h.left.crash hok hopen
  have hsound' := h.right.crash hok' hf'
  have hsame : List.Forall₂ SameCommit (s.afterCrash cfg landed f).chain
      (t.afterCrash cfg (List.replicate k true) f').chain := by
    simp only [afterCrash, hchain]
    exact List.forall₂_take n h.chain
  refine ⟨_, f', hok', hf', hsound, hsound', ?_, hsame, h.acked, fun m => ?_, ?_⟩
  · exact (Tidy.crash h.right.kept hle hzone f').2.2
  · rw [sealed_afterCrash h.left.kept, sealed_afterCrash h.right.kept, hintact]
  · have hheads : SameHead f.head f'.head := by
      have h1 : f.head = _ := hsound.head
      have h2 : f'.head = _ := hsound'.head
      rw [h1, h2]
      exact SameHead.headOf ⟨rfl, le_rfl⟩ hsame
    have hnonce := (openStore_nonce hopen).2
    have hnonce' := (openStore_nonce hf').2
    have htorn : tornBytes cfg (t.crashed (List.replicate k true)) f'.head = 0 := by
      rw [tornBytes_openStore hf', hoff', hchain, hcrashed, hzone, Nat.sub_self]
    have hle := hheads.2
    rw [htorn] at hnonce'
    simp only [afterCrash, hnonce, hnonce']
    have : PagerConfig.divCeil 0 MIN_RECORD_LEN = 0 := by decide
    omega

/-- What a step of the run with failed attempts is in the run without them. -/
lemma step (h : Erased cfg sha s t) {e : Event} {s' : Session} (hok : AtomicOk cfg sha s e)
    (hstep : Step cfg sha s e s') :
    (∃ c i part, e = .writeError c i part ∧ Erased cfg sha s' t) ∨
      ∃ e' t', SameEvent e e' ∧ (RecoveryOk cfg sha t e' ∧ NoFault e') ∧ Step cfg sha t e' t' ∧
        Erased cfg sha s' t' := by
  cases hstep with
  | @commit c hc =>
    obtain ⟨hok', hs'⟩ := h.commit hc hok
    exact Or.inr ⟨_, _, .commit c, ⟨hok', trivial⟩, .commit (h.commit_ok hc), hs'⟩
  | @writeError c i part r hc hr hpart =>
    refine Or.inl ⟨c, i, part, rfl, h.left.writeError hr, h.right, h.tidy, h.chain, h.acked,
      fun n => ?_, ?_⟩
    · rw [sealed_afterWriteError hr, h.durable]
    · exact h.nonce.trans (Nat.le_add_right _ _)
  | syncError hc => exact absurd hok id
  | @fsync k hk =>
    obtain ⟨k', hk', hs'⟩ := h.fsync hk
    exact Or.inr ⟨_, _, .fsync k k', ⟨trivial, trivial⟩, .fsync hk', hs'⟩
  | @writeMeta n hn hs =>
    have hs' := (h.durable n).1 hs
    refine Or.inr ⟨_, _, .writeMeta n, ⟨trivial, trivial⟩, .writeMeta hn hs',
      h.left.step (e := .writeMeta n) trivial (.writeMeta hn hs),
      h.right.step (e := .writeMeta n) trivial (.writeMeta hn hs'), h.tidy.writeMeta n, h.chain,
      h.acked, fun m => ?_, h.nonce⟩
    rw [sealed_afterMeta, sealed_afterMeta, h.durable]
  | @ack n w hw hs =>
    have hs' := (h.durable (n + 1)).1 hs
    obtain ⟨v, hv⟩ : ∃ v, t.chain[n]? = some v :=
      ⟨_, List.getElem?_eq_getElem (Nat.lt_of_succ_le hs'.1)⟩
    have hwv : SameCommit w v := by
      obtain ⟨h1, rfl⟩ := List.getElem?_eq_some_iff.1 hw
      obtain ⟨h2, rfl⟩ := List.getElem?_eq_some_iff.1 hv
      exact h.chain.get h1 h2
    exact Or.inr ⟨_, _, .ack n, ⟨trivial, trivial⟩, .ack hv hs',
      h.left.step (e := .ack n) trivial (.ack hw hs),
      h.right.step (e := .ack n) trivial (.ack hv hs'), ⟨h.tidy.view, h.tidy.cut⟩, h.chain,
      .cons hwv h.acked, h.durable, h.nonce⟩
  | unsealed hn => exact absurd hok id
  | @crash landed f hopen =>
    obtain ⟨landed', f', hok', hf', hs'⟩ := h.crash hok hopen
    exact Or.inr ⟨_, _, .crash landed landed', ⟨hok', trivial⟩, .crash hf', hs'⟩

end Erased

/-- The same answer to a read. -/
def SameRead (r r' : Result Bytes) : Prop :=
  (∃ b b', r = .ok b ∧ r' = .ok b' ∧ SameBody b b') ∨ ∃ e, r = .error e ∧ r' = .error e

/-- What can be told of two sessions: their heads, the commits, those reported as durable,
and what every page reads as. -/
structure SameStore (cfg : PagerConfig) (s t : Session) : Prop where
  head : SameHead s.file.head t.file.head
  chain : List.Forall₂ SameCommit s.chain t.chain
  acked : List.Forall₂ SameCommit s.acked t.acked
  reads : ∀ id, SameRead (cfg.readPage s.view.zone s.file.st id)
    (cfg.readPage t.view.zone t.file.st id)

/-- What a session reads. -/
lemma Sound.readPage_view {s : Session} (h : Sound cfg sha s) (i : ℕ) :
    cfg.readPage s.view.zone s.file.st (FIRST_DATA_PAGE + i)
      = okOr (((chainPages s.chain).map SealedPage.body)[i]?)
        (.corrupt (FIRST_DATA_PAGE + i) "página fuera de rango") := by
  have hnext : s.file.st.next_page = FIRST_DATA_PAGE + s.file.st.dir.length := by
    rw [h.next_page, h.dir, PagerConfig.length_layoutLocs]
  cases hp : (chainPages s.chain)[i]? with
  | none =>
    have hge := List.getElem?_eq_none_iff.1 hp
    rw [List.getElem?_map, hp, Option.map_none, okOr_none, PagerConfig.readPage,
      require_pos (by omega), ok_bind, h.next_page, require, if_neg (by omega)]
    rfl
  | some p =>
    obtain ⟨rest, hrest⟩ := h.kept.view_isPrefix
    rw [List.getElem?_map, hp, Option.map_some, okOr_some]
    exact cfg.readPage_layout _ [] h.linked.full hrest.symm
      (by rw [List.append_nil, h.dir]) hnext hp

lemma Erased.sameStore {s t : Session} (h : Erased cfg sha s t) : SameStore cfg s t where
  head := h.head
  chain := h.chain
  acked := h.acked
  reads id := by
    rcases Nat.lt_or_ge id FIRST_DATA_PAGE with hlt | hge
    · have hpanic : ∀ zone st, cfg.readPage zone st id
          = .error (.panic "las páginas estructurales no pasan por read_page") := fun zone st => by
        rw [PagerConfig.readPage, require, if_neg (by omega), error_bind]
      exact Or.inr ⟨_, hpanic _ _, hpanic _ _⟩
    · obtain ⟨i, rfl⟩ := Nat.exists_eq_add_of_le hge
      rw [h.left.readPage_view, h.right.readPage_view]
      have hbodies := bodies_chainPages_same h.chain
      rcases Nat.lt_or_ge i ((chainPages s.chain).map SealedPage.body).length with hi | hi
      · have hi' := hbodies.length_eq ▸ hi
        rw [List.getElem?_eq_getElem hi, List.getElem?_eq_getElem hi']
        exact Or.inl ⟨_, _, rfl, rfl, hbodies.get hi hi'⟩
      · have hi' := hbodies.length_eq ▸ hi
        rw [List.getElem?_eq_none hi, List.getElem?_eq_none hi']
        exact Or.inr ⟨_, rfl, rfl⟩

end Session

end Arkeion
