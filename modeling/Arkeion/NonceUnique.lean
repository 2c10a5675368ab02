import Arkeion.Sessions

/-!
When no nonce counter is handed out twice.

A session hands its counters out in order. At reopening the counter starts at the recovered
head's plus one for every 32 bytes of torn tail. That is past all earlier counters exactly
when the counters spent since the recovered head, those skipped at earlier openings
included, are no more than the tail can hold. It fails after two crashes: the second
session overwrites the tail of the first in place, so the tail gets no longer.
-/

namespace Arkeion

open Arkeion.Lib

namespace Session

variable {cfg : PagerConfig} {sha : Sha256}

/-- The bytes after the recovered head. -/
def tornBytes (cfg : PagerConfig) (d : Disk) (head : Head) : ℕ :=
  d.zone.length - (cfg.truncateToHead (cfg.sweepAppendRegion d.zone) head).write_offset

/-- The tail of the disk has room, at 32 bytes a record, for all counters spent since the
head that will be recovered. -/
def TailHolds (cfg : PagerConfig) (sha : Sha256) (spentTo : ℕ) (d : Disk) : Prop :=
  ∀ head, (cfg.source sha d (cfg.sweepAppendRegion d.zone)).recover = .ok head →
    spentTo - head.nonce_counter ≤ PagerConfig.divCeil (tornBytes cfg d head) MIN_RECORD_LEN

/-- The condition on a step: at every crash, the tail left holds the counters spent. -/
def MarginOk (cfg : PagerConfig) (sha : Sha256) (s : Session) : Event → Prop
  | .crash landed => TailHolds cfg sha s.file.st.nonce_counter (s.crashed landed)
  | _ => True

/-- The counters handed out, newest first, are strictly decreasing, and the next is larger. -/
structure Fresh (s : Session) : Prop where
  sorted : s.used.Pairwise (· > ·)
  below : ∀ c ∈ s.used, c < s.file.st.nonce_counter

lemma layRecords_counters (id counter offset : ℕ) (bs : List Bytes) :
    (cfg.layRecords id counter offset bs).map PageRecord.counter
      = List.range' counter bs.length := by
  induction bs generalizing id counter offset with
  | nil => rfl
  | cons b bs ih =>
    simp only [PagerConfig.layRecords, List.map_cons, ih, List.length_cons, List.range'_succ]
    rfl

@[simp] lemma length_layRecords (id counter offset : ℕ) (bs : List Bytes) :
    (cfg.layRecords id counter offset bs).length = bs.length := by
  have h := congrArg List.length (@layRecords_counters cfg id counter offset bs)
  simpa using h

lemma layRecords_take (id counter offset n : ℕ) (bs : List Bytes) :
    (cfg.layRecords id counter offset bs).take n = cfg.layRecords id counter offset (bs.take n) := by
  induction bs generalizing id counter offset n with
  | nil => simp [PagerConfig.layRecords]
  | cons b bs ih =>
    cases n with
    | zero => simp [PagerConfig.layRecords]
    | succ n => simp [PagerConfig.layRecords, ih]

/-- Handing out the next counters of a session. -/
lemma Fresh.hand_out {s s' : Session} (h : s.Fresh) {n : ℕ}
    (hu : s'.used = (List.range' s.file.st.nonce_counter n).reverse ++ s.used)
    (hn : s'.file.st.nonce_counter = s.file.st.nonce_counter + n) : s'.Fresh := by
  constructor
  · rw [hu, List.pairwise_append]
    refine ⟨?_, h.sorted, ?_⟩
    · rw [List.pairwise_reverse]
      exact List.pairwise_lt_range'
    · intro a ha b hb
      have h1 := h.below b hb
      rw [List.mem_reverse, List.mem_range'_1] at ha
      omega
  · intro c hc
    rw [hu, List.mem_append, List.mem_reverse, List.mem_range'_1] at hc
    rw [hn]
    rcases hc with hc | hc
    · omega
    · have := h.below c hc
      omega

/-- Opening sets the counter past the recovered head's by one for every 32 bytes of tail. -/
lemma openStore_nonce {d : Disk} {f : OpenFile} (h : cfg.openStore sha d = .ok f) :
    (cfg.source sha d (cfg.sweepAppendRegion d.zone)).recover = .ok f.head ∧
      f.st.nonce_counter
        = f.head.nonce_counter + PagerConfig.divCeil (tornBytes cfg d f.head) MIN_RECORD_LEN := by
  simp only [PagerConfig.openStore, bind_eq_ok, Except.ok.injEq] at h
  obtain ⟨-, -, -, -, head, hrec, rfl⟩ := h
  exact ⟨hrec, rfl⟩

lemma tornBytes_openStore {d : Disk} {f : OpenFile} (h : cfg.openStore sha d = .ok f) :
    tornBytes cfg d f.head = d.zone.length - f.st.write_offset := by
  simp only [PagerConfig.openStore, bind_eq_ok, Except.ok.injEq] at h
  obtain ⟨-, -, -, -, head, -, rfl⟩ := h
  rfl

/-- A crash meets the condition exactly when the counter does not fall. -/
lemma marginOk_iff {s s' : Session} {landed : List Bool}
    (h : Step cfg sha s (.crash landed) s') :
    MarginOk cfg sha s (.crash landed) ↔ s.file.st.nonce_counter ≤ s'.file.st.nonce_counter := by
  cases h with
  | @crash _ f hopen =>
    obtain ⟨hrec, hnonce⟩ := openStore_nonce hopen
    constructor
    · intro hok
      have hspent := hok f.head hrec
      simp only [afterCrash, hnonce]
      omega
    · intro hle head hhead
      rw [hrec, Except.ok.injEq] at hhead
      simp only [afterCrash, hnonce] at hle
      rw [← hhead]
      omega

lemma Fresh.step {s s' : Session} {e : Event} (h : s.Fresh) (hok : MarginOk cfg sha s e)
    (hstep : Step cfg sha s e s') : s'.Fresh := by
  cases hstep with
  | @commit c hc =>
    exact h.hand_out (n := (s.file.records cfg sha c).length)
      (by simp only [afterCommit, OpenFile.records, layRecords_counters, length_layRecords]) rfl
  | @writeError c i part r hc hr hpart =>
    refine h.hand_out (n := i + 1) ?_ rfl
    have hlt := (List.getElem?_eq_some_iff.1 hr).1
    rw [OpenFile.records, length_layRecords] at hlt
    simp only [afterWriteError, OpenFile.records, layRecords_take, layRecords_counters]
    rw [List.length_take, min_eq_left (by omega)]
  | @syncError c hc =>
    exact h.hand_out (n := (s.file.records cfg sha c).length)
      (by simp only [afterSyncError, OpenFile.records, layRecords_counters, length_layRecords]) rfl
  | fsync hk => exact ⟨h.sorted, h.below⟩
  | writeMeta hn hs => exact ⟨h.sorted, h.below⟩
  | ack hw hs => exact ⟨h.sorted, h.below⟩
  | unsealed hn => exact h
  | crash hopen =>
    have hle := (marginOk_iff (.crash hopen)).1 hok
    exact ⟨h.sorted, fun c hc => (h.below c hc).trans_le hle⟩

/-- In every run whose crashes all leave a tail that holds the counters spent, the counters
are handed out in strictly increasing order over all sessions: none seals two records. -/
theorem nonce_unique {s : Session} (h : Reaches cfg sha (MarginOk cfg sha) s) :
    s.used.Pairwise (· > ·) ∧ ∀ c ∈ s.used, c < s.file.st.nonce_counter := by
  suffices hf : s.Fresh from ⟨hf.sorted, hf.below⟩
  induction h with
  | refl => exact ⟨by simp [created], by simp [created]⟩
  | tail _ hstep ih =>
    obtain ⟨e, hok, hst⟩ := hstep
    exact ih.step hok hst

/-! ### Two crashes in a row -/

namespace NonceSample

variable (crypto : CryptoProvider) (encrypted : Bool)

/-- A file without compression and error correction. -/
def config : PagerConfig where
  fileId := List.replicate 16 7
  encrypted := encrypted
  crypto := crypto
  compressor := none
  ecc := none
  length_fileId := by decide

/-- A page with one byte in it. -/
def page (b : UInt8) : Bytes := b :: List.replicate (BODY_SIZE - 1) 0

def input (b : UInt8) : CommitInput where
  branch := "main"
  parent_page := 0
  data := ⟨3, 3, 1000⟩
  dirty := [page b]

/-- The file as it is opened when the first record of a session is all there is. -/
def opened (sha : Sha256) : OpenFile :=
  ⟨{ AppendState.new with nonce_counter := 2 }, genesisHead sha (List.replicate 16 7)⟩

lemma length_page (b : UInt8) : (page b).length = BODY_SIZE := by
  rw [page, List.length_cons, List.length_replicate]
  rfl

lemma decode_page {b : UInt8} (hb : b ≠ 0x41) : CommitHeader.decode (page b) = none := by
  rw [CommitHeader.decode, if_pos]
  intro h
  have := congrArg List.head? h
  simp only [sub, page, MAGIC_COMMIT, List.drop_zero, List.take_succ_cons, List.head?_cons,
    Option.some.injEq] at this
  exact hb this

lemma trim_page {b : UInt8} (hb : b ≠ 0) : trimTrailingZeros (page b) = [b] := by
  have hsplit : page b = [b] ++ List.replicate (BODY_SIZE - 1) 0 := rfl
  have hzeros (n : ℕ) : ([b] ++ List.replicate n (0 : UInt8)).rdropWhile (· == 0) = [b] := by
    induction n with
    | zero => simp [List.rdropWhile_singleton, hb]
    | succ n ih =>
      rw [List.replicate_succ', ← List.append_assoc, List.rdropWhile_concat_pos _ _ _ (by simp), ih]
  rw [trimTrailingZeros, hsplit, hzeros]

/-- The record of such a page takes 33 bytes. -/
lemma length_record {b : UInt8} (hb : b ≠ 0) (counter : ℕ) :
    ((config crypto encrypted).recordBytes FIRST_DATA_PAGE ⟨counter, page b⟩).length = 33 := by
  rw [PagerConfig.recordBytes, PagerConfig.length_framedRecord, PagerConfig.length_sealPage,
    trim_page hb]
  rfl

/-- A disk with nothing but the record of one data page is opened as an empty file. -/
lemma open_one (sha : Sha256) {b : UInt8} (counter : ℕ) (h0 : b ≠ 0) (hb : b ≠ 0x41) {d : Disk}
    (hz : d.zone = (config crypto encrypted).recordBytes FIRST_DATA_PAGE ⟨counter, page b⟩)
    (ha : d.slotA = Disk.created.slotA) (hslotB : d.slotB = Disk.created.slotB) :
    (config crypto encrypted).openStore sha d = .ok (opened sha) := by
  set cfg := config crypto encrypted
  have hfull : FullPages [⟨counter, page b⟩] := by simp [FullPages, length_page]
  have hlay : d.zone = cfg.layout FIRST_DATA_PAGE [⟨counter, page b⟩] := by
    rw [hz]
    simp [PagerConfig.layout]
  have hdir := cfg.sweep_layout_exact hfull hlay
  have hn : (cfg.sweepAppendRegion d.zone).next_page = FIRST_DATA_PAGE + 1 := by
    rw [cfg.sweep_next_page, hdir, PagerConfig.length_layoutLocs]
    rfl
  have hread : cfg.readPage d.zone (cfg.sweepAppendRegion d.zone) FIRST_DATA_PAGE
      = .ok (page b) :=
    cfg.readPage_layout [] [] (i := 0) (p := ⟨counter, page b⟩) hfull
      (by rw [List.append_nil]; exact hlay) (by rw [List.append_nil]; exact hdir)
      (cfg.sweep_next_page _) rfl
  have htail : TailOk cfg sha d (headOf (genesisHead sha cfg.fileId) []) := by
    constructor
    · rw [hn]
      change RecoverySource.ScanStops _ _ 1 FIRST_DATA_PAGE
      have hread' : (cfg.source sha d (cfg.sweepAppendRegion d.zone)).readPage FIRST_DATA_PAGE
          = .ok (page b) := hread
      simp only [RecoverySource.ScanStops, hread', decode_page hb]
    · rw [PagerConfig.checkKey, hread]
      split <;> rfl
  have hslots : d.metaSlots = [⟨0, 0, FIRST_DATA_PAGE⟩, ⟨0, 0, FIRST_DATA_PAGE⟩] := by
    rw [Disk.metaSlots, ha, hslotB]
    rfl
  have hopen := cfg.openStore_linked (d := d) [] [] d.zone trivial rfl rfl
    (by simp [hslots]) (by simp [hslots, FIRST_DATA_PAGE]) htail
  have hlen : d.zone.length = 33 := by
    rw [hz]
    exact length_record crypto encrypted h0 counter
  rw [hopen, hlen]
  rfl

lemma input_ok {sha : Sha256} {b : UInt8} (hb : b ≠ 0x41) {f : OpenFile}
    (hh : f.head = genesisHead sha (List.replicate 16 7)) (hn : f.st.nonce_counter ≤ 2) :
    (input b).Ok sha f where
  sized :=
    { flags := by simp [OpenFile.header, commitHeader, CommitParams.after]
      version := by simp [OpenFile.header, commitHeader, CommitParams.after, hh, genesisHead]
      parent_page := by simp [OpenFile.header, commitHeader, CommitParams.after, input]
      prev_page := by simp [OpenFile.header, commitHeader, CommitParams.after, hh, genesisHead]
      timestamp := by simp [OpenFile.header, commitHeader, input]
      data := by simp [OpenFile.header, commitHeader, input]
      meta_ := by simp [OpenFile.header, commitHeader, input]
      nonce := by
        simp only [OpenFile.header, commitHeader, input, List.length_singleton]
        omega
      pages := by simp [OpenFile.header, commitHeader, input]
      branch := by
        change (utf8 "main").length ≤ BRANCH_MAX
        decide +kernel
      content := sha.length_digest _
      prev := by
        simp only [OpenFile.header, commitHeader, CommitParams.after, hh, genesisHead, genesisChain]
        exact sha.length_digest _
      chain := sha.length_digest _ }
  full := by simp [input, length_page]
  nodes := by simp [input, decode_page hb]

/-- A file that no commit of has survived. -/
structure Empty (crypto : CryptoProvider) (encrypted : Bool) (s : Session) : Prop where
  slotA : s.disk.slotA = Disk.created.slotA
  slotB : s.disk.slotB = Disk.created.slotB
  zone : s.disk.zone.length ≤ 33
  pending : s.pending = []
  file : ∃ n ≤ 2, s.file = ⟨{ AppendState.new with nonce_counter := n },
    genesisHead Sha256.std (List.replicate 16 7)⟩

/-- The first record of the next commit on such a file. -/
def firstRecord (n : ℕ) (b : UInt8) : Bytes :=
  (config crypto encrypted).recordBytes FIRST_DATA_PAGE ⟨n, page b⟩

/-- Its second one, of the commit page. -/
def secondRecord (f : OpenFile) (b : UInt8) : Bytes :=
  (config crypto encrypted).recordBytes (FIRST_DATA_PAGE + 1)
    ⟨f.st.nonce_counter + 1, commitBody (f.header .std (input b))⟩

/-- The next commit's first write goes to the start of the zone, under the next counter. -/
lemma commit_step {s : Session} (h : Empty crypto encrypted s) {b : UInt8} (hb : b ≠ 0x41) :
    ∃ s', Step (config crypto encrypted) .std s (.commit (input b)) s' ∧
      s'.pending = [.bytes 0 (firstRecord crypto encrypted s.file.st.nonce_counter b),
        .bytes (firstRecord crypto encrypted s.file.st.nonce_counter b).length
          (secondRecord crypto encrypted s.file b)] ∧
      s'.disk = s.disk ∧ s'.file = s.file.committed (config crypto encrypted) .std (input b) ∧
      s'.used = [s.file.st.nonce_counter + 1, s.file.st.nonce_counter] ++ s.used := by
  obtain ⟨n, hn, hf⟩ := h.file
  have hok : (input b).Ok .std s.file := input_ok hb (by rw [hf]) (by rw [hf]; exact hn)
  refine ⟨_, .commit hok, ?_, rfl, rfl, ?_⟩
  · have hzero : (firstRecord crypto encrypted n b).length
        = 0 + (firstRecord crypto encrypted n b).length := (Nat.zero_add _).symm
    simp only [afterCommit, h.pending, hf]
    rw [hzero]
    rfl
  · simp only [afterCommit, hf]
    rfl

/-- A crash that lets only the first of the two writes through leaves an empty file, with the
counters of the session counted from the start again. -/
lemma crash_step {s : Session} (ha : s.disk.slotA = Disk.created.slotA)
    (hslotB : s.disk.slotB = Disk.created.slotB) (hz : s.disk.zone.length ≤ 33) {n : ℕ} {b : UInt8}
    (h0 : b ≠ 0) (hb : b ≠ 0x41) {w : FileWrite}
    (hp : s.pending = [.bytes 0 (firstRecord crypto encrypted n b), w]) :
    ∃ s', Step (config crypto encrypted) .std s (.crash [true, false]) s' ∧
      Empty crypto encrypted s' ∧ s'.disk.zone = firstRecord crypto encrypted n b ∧
      s'.file = opened .std ∧ s'.used = s.used := by
  have hlen : (firstRecord crypto encrypted n b).length = 33 :=
    length_record crypto encrypted h0 n
  have hne : firstRecord crypto encrypted n b ≠ [] := List.ne_nil_of_length_pos (by omega)
  have hdisk : s.crashed [true, false]
      = { s.disk with zone := firstRecord crypto encrypted n b } := by
    have hdrop : s.disk.zone.drop (firstRecord crypto encrypted n b).length = [] :=
      List.drop_of_length_le (by omega)
    rw [crashed, hp]
    simp [Disk.applyLanded, Disk.apply, writeZone, hne, hdrop]
  have hopen := open_one crypto encrypted .std n h0 hb
    (d := s.crashed [true, false]) (by rw [hdisk]; rfl) (by rw [hdisk]; exact ha)
    (by rw [hdisk]; exact hslotB)
  refine ⟨_, .crash hopen, ⟨?_, ?_, ?_, rfl, 2, le_rfl, rfl⟩, ?_, rfl, rfl⟩
  · simp only [afterCrash, hdisk, ha]
  · simp only [afterCrash, hdisk, hslotB]
  · simp only [afterCrash, hdisk, hlen, le_refl]
  · simp only [afterCrash, hdisk]

lemma empty_created : Empty crypto encrypted (created (config crypto encrypted) .std) :=
  ⟨rfl, rfl, by simp [created, Disk.created], rfl, 0, by omega, rfl⟩

/-- The run of the second crash: the record on the disk and the one about to be written over
it are sealed under the same counter, and hold different pages. -/
lemma two_crashes : ∃ s w, Reaches (config crypto encrypted) .std (fun _ _ => True) s ∧
    s.used = [3, 2, 3, 2, 1, 0] ∧ s.disk.zone = firstRecord crypto encrypted 2 2 ∧
    s.pending = [.bytes 0 (firstRecord crypto encrypted 2 3), w] := by
  obtain ⟨s1, h1, hp1, hd1, -, hu1⟩ :=
    commit_step crypto encrypted (empty_created crypto encrypted) (b := 1) (by decide)
  obtain ⟨s2, h2, he2, -, hf2, hu2⟩ := crash_step crypto encrypted (s := s1) (by rw [hd1]; rfl)
    (by rw [hd1]; rfl) (by rw [hd1]; simp [created, Disk.created]) (by decide) (by decide) hp1
  obtain ⟨s3, h3, hp3, hd3, -, hu3⟩ :=
    commit_step crypto encrypted he2 (b := 2) (by decide)
  obtain ⟨s4, h4, he4, hz4, hf4, hu4⟩ := crash_step crypto encrypted (s := s3)
    (by rw [hd3]; exact he2.slotA) (by rw [hd3]; exact he2.slotB) (by rw [hd3]; exact he2.zone)
    (by decide) (by decide) hp3
  obtain ⟨s5, h5, hp5, hd5, -, hu5⟩ :=
    commit_step crypto encrypted he4 (b := 3) (by decide)
  rw [hf2] at hz4 hu3
  rw [hf4] at hp5 hu5
  refine ⟨s5, _, ?_, ?_, ?_, hp5⟩
  · exact .tail (.tail (.tail (.tail (.tail .refl ⟨_, trivial, h1⟩) ⟨_, trivial, h2⟩)
      ⟨_, trivial, h3⟩) ⟨_, trivial, h4⟩) ⟨_, trivial, h5⟩
  · rw [hu5, hu4, hu3, hu2, hu1]
    rfl
  · rw [hd5, hz4]
    rfl

end NonceSample

/-- One crash after one commit of which the first record has landed. -/
theorem nonce_unique_one_crash :
    ∃ s : Session, s.disk.zone = NonceSample.firstRecord (.plain .std) false 0 1 ∧
      s.used.Pairwise (· > ·) ∧ ∀ c ∈ s.used, c < s.file.st.nonce_counter := by
  obtain ⟨s1, h1, hp1, hd1, hn1, -⟩ := NonceSample.commit_step (.plain .std) false
    (NonceSample.empty_created _ _) (b := 1) (by decide)
  obtain ⟨s2, h2, -, hz2, hf2, -⟩ := NonceSample.crash_step (.plain .std) false (s := s1)
    (by rw [hd1]; rfl) (by rw [hd1]; rfl) (by rw [hd1]; simp [created, Disk.created])
    (by decide) (by decide) hp1
  have hle : s1.file.st.nonce_counter ≤ s2.file.st.nonce_counter := by
    rw [hn1, hf2]
    rfl
  exact ⟨s2, hz2, nonce_unique
    (.tail (.tail .refl ⟨.commit (NonceSample.input 1), trivial, h1⟩)
      ⟨_, (marginOk_iff h2).2 hle, h2⟩)⟩

/-- Under no encryption are the counters unique: the second of two crashes in a row brings the
session back to the counter its predecessor had, and its records are sealed a second time. -/
theorem nonce_reused_after_two_crashes :
    ¬ ∃ crypto : CryptoProvider, ∀ s,
      Reaches (NonceSample.config crypto true) .std (fun _ _ => True) s → s.used.Nodup := by
  rintro ⟨crypto, h⟩
  obtain ⟨s, w, hs, hu, -, -⟩ := NonceSample.two_crashes crypto true
  have := h s hs
  rw [hu] at this
  exact absurd this (by decide)

end Session

end Arkeion
