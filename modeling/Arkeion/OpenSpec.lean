import Arkeion.RecoverySpec

/-!
Opening a file whose zone begins with the pages of a linked history.
-/

namespace Arkeion

open Arkeion.Lib

namespace PagerConfig

variable (cfg : PagerConfig)

lemma sweep_layout {zone rest : Bytes} {ps : List SealedPage} (hps : FullPages ps)
    (hz : zone = cfg.layout FIRST_DATA_PAGE ps ++ rest) :
    ∃ more, (cfg.sweepAppendRegion zone).dir = cfg.layoutLocs FIRST_DATA_PAGE 0 ps ++ more := by
  have hge := cfg.length_layout_ge FIRST_DATA_PAGE ps
  have hfuel : zone.length = ps.length + (zone.length - ps.length) := by
    have : ps.length ≤ zone.length := by
      rw [hz, List.length_append]
      have : ps.length ≤ ps.length * MIN_RECORD_LEN := Nat.le_mul_of_pos_right _ (by decide)
      omega
    omega
  have hsweep := cfg.sweepFrom_layout [] rest FIRST_DATA_PAGE (zone.length - ps.length) hps
  simp only [List.nil_append, ← hz, List.length_nil] at hsweep
  refine ⟨(cfg.sweepFrom zone (zone.length - ps.length)
    (cfg.layout FIRST_DATA_PAGE ps).length).1, ?_⟩
  have hdir : (cfg.sweepAppendRegion zone).dir = (cfg.sweepFrom zone zone.length 0).1 := rfl
  rw [← hfuel] at hsweep
  rw [hdir, hsweep]

/-- A zone of laid pages and nothing after them. -/
lemma sweep_layout_exact {zone : Bytes} {ps : List SealedPage} (hps : FullPages ps)
    (hz : zone = cfg.layout FIRST_DATA_PAGE ps) :
    (cfg.sweepAppendRegion zone).dir = cfg.layoutLocs FIRST_DATA_PAGE 0 ps := by
  have hend (n : ℕ) : cfg.sweepFrom zone n zone.length = ([], zone.length) := by
    cases n with
    | zero => rfl
    | succ n =>
      have hnone : slice? zone zone.length LEN_PREFIX_LEN = none := by
        rw [slice?, if_neg (by simp [LEN_PREFIX_LEN])]
      rw [sweepFrom, hnone]
  have hge := cfg.length_layout_ge FIRST_DATA_PAGE ps
  have hfuel : ps.length + (zone.length - ps.length) = zone.length := by
    have : ps.length ≤ ps.length * MIN_RECORD_LEN := Nat.le_mul_of_pos_right _ (by decide)
    rw [hz]
    omega
  have hsweep := cfg.sweepFrom_layout [] [] FIRST_DATA_PAGE (zone.length - ps.length) hps
  simp only [List.nil_append, List.append_nil, ← hz, List.length_nil, hend, hfuel] at hsweep
  exact congrArg Prod.fst hsweep

lemma sweep_next_page (zone : Bytes) :
    (cfg.sweepAppendRegion zone).next_page
      = FIRST_DATA_PAGE + (cfg.sweepAppendRegion zone).dir.length := rfl

/-- The directory of laid pages leads to their bodies. -/
lemma readPage_layout {zone : Bytes} (rest : Bytes) {ps : List SealedPage}
    {st : AppendState} (more : List PhysLoc) (hps : FullPages ps)
    (hz : zone = cfg.layout FIRST_DATA_PAGE ps ++ rest)
    (hdir : st.dir = cfg.layoutLocs FIRST_DATA_PAGE 0 ps ++ more)
    (hnext : st.next_page = FIRST_DATA_PAGE + st.dir.length) {i : ℕ} {p : SealedPage}
    (hi : ps[i]? = some p) : cfg.readPage zone st (FIRST_DATA_PAGE + i) = .ok p.body := by
  have hlt := (List.getElem?_eq_some_iff.1 hi).1
  obtain ⟨l, hl, hread⟩ := cfg.readLoc_layout [] rest FIRST_DATA_PAGE hps hi
  simp only [List.nil_append, ← hz, List.length_nil] at hl hread
  have hloc : st.loc (FIRST_DATA_PAGE + i) = some l := by
    rw [AppendState.loc, if_neg (by omega), Nat.add_sub_cancel_left, hdir,
      List.getElem?_append_left (by simpa using hlt), hl]
  have hlen : i < st.dir.length := by rw [hdir]; simp; omega
  rw [readPage, require_pos (by omega), ok_bind, require_pos (by omega), ok_bind, hloc, okOr_some,
    ok_bind, hread]

/-- Truncating to a head keeps exactly the pages laid up to it. -/
lemma truncateToHead_layout {ps : List SealedPage} {st : AppendState} {more : List PhysLoc}
    {head : Head} (hdir : st.dir = cfg.layoutLocs FIRST_DATA_PAGE 0 ps ++ more)
    (hn : head.n_pages = FIRST_DATA_PAGE + ps.length) :
    cfg.truncateToHead st head
      = { st with
          dir := cfg.layoutLocs FIRST_DATA_PAGE 0 ps
          write_offset := (cfg.layout FIRST_DATA_PAGE ps).length
          next_page := FIRST_DATA_PAGE + ps.length } := by
  have hkeep : head.n_pages - FIRST_DATA_PAGE = ps.length := by omega
  have htake : st.dir.take ps.length = cfg.layoutLocs FIRST_DATA_PAGE 0 ps := by
    rw [hdir, List.take_left' (by simp)]
  rw [truncateToHead, hkeep, htake, hn]
  rcases List.eq_nil_or_concat' ps with rfl | ⟨qs, q, rfl⟩
  · rfl
  · obtain ⟨l, hl, hend⟩ := cfg.layoutLocs_last FIRST_DATA_PAGE 0 qs q
    have hget : st.dir[qs.length]? = some l := by
      rw [hdir, List.getElem?_append_left (by simp), hl]
    rw [Nat.zero_add] at hend
    simp only [List.length_append, List.length_singleton, hget, hend]

end PagerConfig

/-- What must hold of the disk past the intact history for the open to be the one after it:
no commit there can be taken for the next one, and the key check passes. -/
structure TailOk (cfg : PagerConfig) (sha : Sha256) (d : Disk) (head : Head) : Prop where
  stops : (cfg.source sha d (cfg.sweepAppendRegion d.zone)).ScanStops head
    ((cfg.sweepAppendRegion d.zone).next_page - head.n_pages) head.n_pages
  key : cfg.checkKey d.zone (cfg.sweepAppendRegion d.zone) = .ok ()

/-- Opening a disk that holds the page bodies of a linked history, sealed under whatever
counters, finds its last commit, and every page of it. -/
theorem PagerConfig.openStore_linked (cfg : PagerConfig) {sha : Sha256} {d : Disk}
    (ws : List Written) (ps : List SealedPage) (rest : Bytes)
    (hws : Linked sha (genesisHead sha cfg.fileId) ws)
    (hps : ps.map SealedPage.body = (chainPages ws).map SealedPage.body)
    (hz : d.zone = cfg.layout FIRST_DATA_PAGE ps ++ rest)
    (hslot : d.metaSlots ≠ [])
    (hknow : ∀ m ∈ d.metaSlots, m.last_commit_page < FIRST_DATA_PAGE ∨
      ∃ vs us, vs ≠ [] ∧ ws = vs ++ us ∧
        m.last_commit_page = (headOf (genesisHead sha cfg.fileId) vs).commit_page)
    (htail : TailOk cfg sha d (headOf (genesisHead sha cfg.fileId) ws)) :
    cfg.openStore sha d = .ok
      ⟨{ next_page := FIRST_DATA_PAGE + ps.length
         nonce_counter := (headOf (genesisHead sha cfg.fileId) ws).nonce_counter
           + divCeil rest.length MIN_RECORD_LEN
         write_offset := (cfg.layout FIRST_DATA_PAGE ps).length
         dir := cfg.layoutLocs FIRST_DATA_PAGE 0 ps },
       headOf (genesisHead sha cfg.fileId) ws⟩ := by
  have hfull : FullPages ps := by
    intro p hp
    have hbody : p.body ∈ (chainPages ws).map SealedPage.body := by
      rw [← hps]
      exact List.mem_map_of_mem hp
    obtain ⟨q, hq, hqp⟩ := List.mem_map.1 hbody
    rw [← hqp]
    exact hws.full q hq
  have hlen : ps.length = (chainPages ws).length := by simpa using congrArg List.length hps
  obtain ⟨more, hdir⟩ := cfg.sweep_layout hfull hz
  have hn : (headOf (genesisHead sha cfg.fileId) ws).n_pages = FIRST_DATA_PAGE + ps.length := by
    rw [headOf_n_pages, hlen]
    rfl
  have hrec : (cfg.source sha d (cfg.sweepAppendRegion d.zone)).recover
      = .ok (headOf (genesisHead sha cfg.fileId) ws) := RecoverySource.recover_linked
    (cfg.source sha d (cfg.sweepAppendRegion d.zone)) ws hws
    (by
      intro i b hb
      rw [← hps, List.getElem?_map, Option.map_eq_some_iff] at hb
      obtain ⟨p, hp, rfl⟩ := hb
      exact cfg.readPage_layout rest more hfull hz hdir (cfg.sweep_next_page _) hp)
    hknow
    (by
      change _ ≤ (cfg.sweepAppendRegion d.zone).next_page
      rw [cfg.sweep_next_page, hdir, List.length_append, length_layoutLocs]
      omega)
    htail.stops
  have htorn : d.zone.length - (cfg.layout FIRST_DATA_PAGE ps).length = rest.length := by
    rw [hz, List.length_append]
    omega
  rw [openStore, require_pos hslot, ok_bind]
  simp only [htail.key, ok_bind, hrec]
  rw [cfg.truncateToHead_layout hdir hn]
  simp only [htorn]

/-- When nothing lies behind the history there is nothing to be taken for a commit. -/
lemma TailOk.of_clean {cfg : PagerConfig} {sha : Sha256} {d : Disk} {ws : List Written}
    {ps : List SealedPage} (hws : FullPages ps) (hlen : ps.length = (chainPages ws).length)
    (hz : d.zone = cfg.layout FIRST_DATA_PAGE ps) :
    TailOk cfg sha d (headOf (genesisHead sha cfg.fileId) ws) := by
  have hdir := cfg.sweep_layout_exact hws hz
  have hn : (cfg.sweepAppendRegion d.zone).next_page = FIRST_DATA_PAGE + ps.length := by
    rw [cfg.sweep_next_page, hdir, PagerConfig.length_layoutLocs]
  have hhead : (headOf (genesisHead sha cfg.fileId) ws).n_pages = FIRST_DATA_PAGE + ps.length := by
    rw [headOf_n_pages, hlen]
    rfl
  constructor
  · rw [hn, hhead, Nat.sub_self]
    trivial
  · unfold PagerConfig.checkKey
    split_ifs with hkey
    · obtain ⟨p, hp⟩ : ∃ p, ps[0]? = some p := by
        rw [hn] at hkey
        exact ⟨_, List.getElem?_eq_getElem (by omega)⟩
      have hread := cfg.readPage_layout [] [] hws
        (hz.trans (List.append_nil _).symm) (by rw [List.append_nil]; exact hdir)
        (cfg.sweep_next_page _) hp
      rw [Nat.add_zero] at hread
      rw [hread]
    · rfl

end Arkeion
