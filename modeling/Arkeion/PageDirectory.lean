import Arkeion.Densa
import Arkeion.EccPages
import Arkeion.NonceUnique
import Arkeion.ZoneWrites

/-!
The directory of the pages is not stored: a sweep over the lengths of the records rebuilds it, also
where the file is cut.
-/

namespace Arkeion

open Arkeion.Lib

/-- A number of parity bytes for each block of 255. -/
structure ParityBudget where
  nsym : ℕ
  two_le : 2 ≤ nsym
  le : nsym ≤ 254
  even : nsym % 2 = 0

def ParityBudget.ecc (budget : ParityBudget) : Ecc where
  parityLen len := ReedSolomon.parityLen len budget.nsym
  parity data := ReedSolomon.parity data budget.nsym
  correct data parity := ReedSolomon.correct data parity budget.nsym
  length_parity data := ReedSolomon.length_parity (Nat.lt_succ_of_le budget.le) data

namespace PagerConfig

/-- `create_with_crypto`: what a new file is set up with. -/
def create (fileId : Bytes) (length_fileId : fileId.length = 16) (encrypted : Bool)
    (crypto : CryptoProvider) (compress : Bool) (budget : Option ParityBudget) : PagerConfig where
  fileId := fileId
  encrypted := encrypted
  crypto := crypto
  compressor := if compress then some Compressor.densa else none
  ecc := budget.map ParityBudget.ecc
  length_fileId := length_fileId

/-- Where the record of a page ends, its parity included. -/
def recordEnd (cfg : PagerConfig) (l : PhysLoc) : ℕ := l.offset + l.len + cfg.parityLen l.len

end PagerConfig

/-! ### Writing -/

/-- The append zone of a file, and what the pager keeps in memory about it. -/
structure PageFile where
  zone : Bytes
  st : AppendState
  deriving DecidableEq, Repr

inductive PageWrite where
  /-- `append_page` -/
  | append (body : Bytes)
  /-- `write_record_at` for each page of a commit, and `install_commit` -/
  | commit (bodies : List Bytes)
  deriving DecidableEq, Repr

def PageWrite.bodies : PageWrite → List Bytes
  | .append body => [body]
  | .commit bodies => bodies

namespace PageFile

def new : PageFile where
  zone := []
  st := AppendState.new

def appendPage (cfg : PagerConfig) (f : PageFile) (body : Bytes) : PageFile :=
  let r := cfg.recordAt f.st.next_page f.st.nonce_counter f.st.write_offset body
  { zone := writeZone f.zone r.offset r.bytes
    st := {
      next_page := f.st.next_page + 1
      nonce_counter := f.st.nonce_counter + 1
      write_offset := f.st.write_offset + r.bytes.length
      dir := f.st.dir ++ [r.loc] } }

def commitPages (cfg : PagerConfig) (f : PageFile) (bodies : List Bytes) : PageFile :=
  let rs := cfg.layRecords f.st.next_page f.st.nonce_counter f.st.write_offset bodies
  { zone := rs.foldl (fun zone r => writeZone zone r.offset r.bytes) f.zone
    st := f.st.install rs (f.st.nonce_counter + rs.length)
      (f.st.write_offset + (rs.map PageRecord.bytes).flatten.length)
      (f.st.next_page + rs.length) }

def write (cfg : PagerConfig) (f : PageFile) : PageWrite → PageFile
  | .append body => f.appendPage cfg body
  | .commit bodies => f.commitPages cfg bodies

def run (cfg : PagerConfig) (ws : List PageWrite) : PageFile := ws.foldl (write cfg) new

/-- The zone holds the records of the pages, and the state says so. -/
structure Holds (cfg : PagerConfig) (f : PageFile) (bodies : List Bytes) : Prop where
  zone : f.zone = cfg.layout FIRST_DATA_PAGE (sealedFrom 0 bodies)
  next_page : f.st.next_page = FIRST_DATA_PAGE + bodies.length
  nonce_counter : f.st.nonce_counter = bodies.length
  write_offset : f.st.write_offset = f.zone.length
  dir : f.st.dir = cfg.layoutLocs FIRST_DATA_PAGE 0 (sealedFrom 0 bodies)

section Run
variable (cfg : PagerConfig) {f : PageFile} {bodies : List Bytes}

lemma sealedFrom_append (c : ℕ) (bs cs : List Bytes) :
    sealedFrom c (bs ++ cs) = sealedFrom c bs ++ sealedFrom (c + bs.length) cs := by
  induction bs generalizing c with
  | nil => rfl
  | cons b bs ih =>
    rw [List.cons_append, sealedFrom, sealedFrom, ih, List.cons_append, List.length_cons,
      Nat.add_assoc, Nat.add_comm 1]

/-- Records that are written from the end of the zone on are appended to it. -/
lemma foldl_layRecords (id counter : ℕ) (zone : Bytes) (bs : List Bytes) :
    (cfg.layRecords id counter zone.length bs).foldl
        (fun zone r => writeZone zone r.offset r.bytes) zone
      = zone ++ cfg.layout id (sealedFrom counter bs) := by
  induction bs generalizing id counter zone with
  | nil => rw [sealedFrom, PagerConfig.layout, List.append_nil]; rfl
  | cons b bs ih =>
    have hone : writeZone zone zone.length (cfg.recordAt id counter zone.length b).bytes
        = zone ++ (cfg.recordAt id counter zone.length b).bytes := writeZone_end _ _
    have hrest := ih (id + 1) (counter + 1) (zone ++ (cfg.recordAt id counter zone.length b).bytes)
    rw [List.length_append, List.append_assoc] at hrest
    rw [PagerConfig.layRecords, List.foldl_cons, show
      (cfg.recordAt id counter zone.length b).offset = zone.length from rfl, hone, hrest]
    rfl

lemma Holds.commitPages (h : f.Holds cfg bodies) (bs : List Bytes) :
    (f.commitPages cfg bs).Holds cfg (bodies ++ bs) := by
  have hlen : (cfg.layRecords f.st.next_page f.st.nonce_counter f.st.write_offset bs).length
      = bs.length := Session.length_layRecords _ _ _ _
  have hzone : (f.commitPages cfg bs).zone
      = f.zone ++ cfg.layout f.st.next_page (sealedFrom f.st.nonce_counter bs) := by
    rw [PageFile.commitPages, h.write_offset, foldl_layRecords]
  have hbytes := layRecords_bytes cfg f.st.next_page f.st.nonce_counter f.st.write_offset bs
  refine ⟨?_, ?_, ?_, ?_, ?_⟩
  · rw [hzone, h.zone, h.next_page, h.nonce_counter, sealedFrom_append, Nat.zero_add,
      PagerConfig.layout_append, length_sealedFrom]
  · rw [PageFile.commitPages, AppendState.install, hlen, h.next_page, List.length_append,
      Nat.add_assoc]
  · rw [PageFile.commitPages, AppendState.install, hlen, h.nonce_counter, List.length_append]
  · rw [hzone, List.length_append, ← h.write_offset, ← hbytes]
    rfl
  · rw [PageFile.commitPages, AppendState.install, layRecords_locs, h.dir, h.next_page,
      h.nonce_counter, h.write_offset, h.zone, sealedFrom_append, Nat.zero_add,
      PagerConfig.layoutLocs_append, length_sealedFrom, Nat.zero_add]

/-- A page alone is a commit of one page. -/
lemma appendPage_eq (f : PageFile) (body : Bytes) :
    f.appendPage cfg body = f.commitPages cfg [body] := by
  rw [appendPage, PageFile.commitPages, AppendState.install]
  simp only [PagerConfig.layRecords, List.foldl_cons, List.foldl_nil, List.map_cons, List.map_nil,
    List.flatten_cons, List.flatten_nil, List.append_nil, List.length_singleton]

lemma Holds.write (h : f.Holds cfg bodies) (w : PageWrite) :
    (f.write cfg w).Holds cfg (bodies ++ w.bodies) := by
  cases w with
  | append body =>
    rw [PageFile.write, appendPage_eq]
    exact h.commitPages cfg [body]
  | commit bs => exact h.commitPages cfg bs

lemma new_holds : PageFile.new.Holds cfg [] := ⟨rfl, rfl, rfl, rfl, rfl⟩

lemma run_holds (ws : List PageWrite) :
    (run cfg ws).Holds cfg (ws.flatMap PageWrite.bodies) := by
  induction ws using List.reverseRecOn with
  | nil => exact new_holds cfg
  | append_singleton ws w ih =>
    rw [run, List.foldl_concat, List.flatMap_append, List.flatMap_singleton]
    exact ih.write cfg w

end Run

end PageFile

/-! ### Sweeping -/

namespace PagerConfig

section Sweep
variable (cfg : PagerConfig) {id m n offset : ℕ} {ps : List SealedPage}

lemma offset_lt_recordEnd {l : PhysLoc} (h : l ∈ cfg.layoutLocs id offset ps) :
    offset < cfg.recordEnd l := by
  induction ps generalizing id offset with
  | nil => exact absurd h List.not_mem_nil
  | cons p ps ih =>
    rw [layoutLocs, List.mem_cons] at h
    rcases h with rfl | h
    · simp only [recordEnd, LEN_PREFIX_LEN]
      omega
    · have hlt := ih h
      omega

lemma recordEnd_record (id offset : ℕ) (p : SealedPage) :
    cfg.recordEnd ⟨offset + LEN_PREFIX_LEN, (cfg.sealPage id p.counter p.body).length⟩
      = offset + (cfg.recordBytes id p).length := by
  simp only [recordEnd, recordBytes, length_framedRecord]
  omega

/-- The complete records are the first ones, and the next one is cut. -/
lemma exists_complete (id offset m : ℕ) (ps : List SealedPage) : ∃ k ≤ ps.length,
    (cfg.layoutLocs id offset ps).filter (fun l => cfg.recordEnd l ≤ offset + m)
        = cfg.layoutLocs id offset (ps.take k) ∧
      (cfg.layout id (ps.take k)).length ≤ m ∧
      ∀ p ∈ ps[k]?, m < (cfg.layout id (ps.take k)).length + (cfg.recordBytes (id + k) p).length := by
  induction ps generalizing id offset m with
  | nil => exact ⟨0, le_refl _, rfl, Nat.zero_le _, fun p hp => by cases hp⟩
  | cons p ps ih =>
    have hend := cfg.recordEnd_record id offset p
    by_cases hm : (cfg.recordBytes id p).length ≤ m
    · obtain ⟨k, hk, hfilter, hlen, hnext⟩ := ih (id + 1) (offset + (cfg.recordBytes id p).length)
        (m - (cfg.recordBytes id p).length)
      have hsum : offset + (cfg.recordBytes id p).length + (m - (cfg.recordBytes id p).length)
          = offset + m := by omega
      rw [hsum] at hfilter
      refine ⟨k + 1, Nat.succ_le_succ hk, ?_, ?_, fun q hq => ?_⟩
      · rw [layoutLocs, List.filter_cons_of_pos (by rw [decide_eq_true_eq, hend]; omega), hfilter,
          List.take_succ_cons, layoutLocs]
      · rw [List.take_succ_cons, layout, List.length_append]
        omega
      · have hlt := hnext q hq
        rw [List.take_succ_cons, layout, List.length_append, show id + (k + 1) = id + 1 + k by omega]
        omega
    · refine ⟨0, Nat.zero_le _, List.filter_eq_nil_iff.2 fun l hl => ?_, Nat.zero_le _,
        fun q hq => ?_⟩
      · rw [decide_eq_true_eq, not_le]
        rw [layoutLocs, List.mem_cons] at hl
        rcases hl with rfl | hl
        · omega
        · have hlt := cfg.offset_lt_recordEnd hl
          omega
      · obtain rfl : p = q := Option.some.inj hq
        exact Nat.lt_of_lt_of_eq (not_le.1 hm) (Nat.zero_add _).symm

/-- A record that is cut ends the sweep. -/
lemma sweepFrom_cut (pre tail : Bytes) (id n : ℕ) {p : SealedPage} (hp : p.body.length = BODY_SIZE)
    (hm : m < (cfg.recordBytes id p).length) :
    cfg.sweepFrom (pre ++ (cfg.recordBytes id p ++ tail).take m) n pre.length
      = ([], pre.length) := by
  cases n with
  | zero => rfl
  | succ n =>
    set stored := cfg.sealPage id p.counter p.body with hstored
    have hhi : stored.length < 256 ^ LEN_PREFIX_LEN := (cfg.sealPage_bounds id p.counter hp).2
    obtain ⟨parity, hparity⟩ := cfg.framedRecord_eq stored
    have hlen : (pre ++ (cfg.recordBytes id p ++ tail).take m).length = pre.length + m := by
      rw [List.length_append, List.length_take, List.length_append]
      omega
    by_cases hprefix : LEN_PREFIX_LEN ≤ m
    · have hslice : slice? (pre ++ (cfg.recordBytes id p ++ tail).take m) pre.length LEN_PREFIX_LEN
          = some (leBytes LEN_PREFIX_LEN stored.length) := by
        have hz : pre ++ (cfg.recordBytes id p ++ tail).take m
            = pre ++ leBytes LEN_PREFIX_LEN stored.length
              ++ (stored ++ parity ++ tail).take (m - LEN_PREFIX_LEN) := by
          have hbytes : cfg.recordBytes id p ++ tail
              = leBytes LEN_PREFIX_LEN stored.length ++ (stored ++ parity ++ tail) := by
            rw [recordBytes, ← hstored, hparity]
            simp only [List.append_assoc]
          rw [hbytes, List.take_append, length_leBytes, List.take_of_length_le (by simpa using hprefix),
            ← List.append_assoc]
        rw [hz]
        exact slice?_append _ _ _ rfl (length_leBytes _ _).symm
      have hout : stored.length < CRYPTO_RESERVE ∨
          pre.length + LEN_PREFIX_LEN + stored.length + cfg.parityLen stored.length
            > pre.length + m := by
        rw [recordBytes, ← hstored, length_framedRecord] at hm
        omega
      rw [sweepFrom, hslice]
      simp only [leNat_leBytes LEN_PREFIX_LEN hhi, hlen, if_pos hout]
    · have hnone : slice? (pre ++ (cfg.recordBytes id p ++ tail).take m) pre.length LEN_PREFIX_LEN
          = none := by
        rw [slice?, if_neg (by rw [hlen]; omega)]
      rw [sweepFrom, hnone]

/-- The end of a zone ends the sweep. -/
lemma sweepFrom_end (zone : Bytes) (n : ℕ) : cfg.sweepFrom zone n zone.length = ([], zone.length) := by
  cases n with
  | zero => rfl
  | succ n =>
    have hnone : slice? zone zone.length LEN_PREFIX_LEN = none := by
      rw [slice?, if_neg (by rw [LEN_PREFIX_LEN]; omega)]
    rw [sweepFrom, hnone]

/-- What is swept of a zone that is cut anywhere. -/
lemma sweep_take (hps : FullPages ps) (m : ℕ) : ∃ k ≤ ps.length,
    (cfg.layoutLocs FIRST_DATA_PAGE 0 ps).filter (fun l => cfg.recordEnd l ≤ m)
        = cfg.layoutLocs FIRST_DATA_PAGE 0 (ps.take k) ∧
      (∃ rest, (cfg.layout FIRST_DATA_PAGE ps).take m
        = cfg.layout FIRST_DATA_PAGE (ps.take k) ++ rest) ∧
      cfg.sweepAppendRegion ((cfg.layout FIRST_DATA_PAGE ps).take m) = {
        next_page := FIRST_DATA_PAGE + k
        nonce_counter := 0
        write_offset := (cfg.layout FIRST_DATA_PAGE (ps.take k)).length
        dir := cfg.layoutLocs FIRST_DATA_PAGE 0 (ps.take k) } := by
  obtain ⟨k, hk, hfilter, hlen, hnext⟩ := cfg.exists_complete FIRST_DATA_PAGE 0 m ps
  rw [Nat.zero_add] at hfilter
  have hsplit : cfg.layout FIRST_DATA_PAGE ps = cfg.layout FIRST_DATA_PAGE (ps.take k)
      ++ cfg.layout (FIRST_DATA_PAGE + k) (ps.drop k) := by
    conv_lhs => rw [← List.take_append_drop k ps, layout_append, List.length_take,
      Nat.min_eq_left hk]
  set kept := cfg.layout FIRST_DATA_PAGE (ps.take k) with hkept
  have hzone : (cfg.layout FIRST_DATA_PAGE ps).take m
      = kept ++ (cfg.layout (FIRST_DATA_PAGE + k) (ps.drop k)).take (m - kept.length) := by
    rw [hsplit, List.take_append, List.take_of_length_le hlen]
  set zone := (cfg.layout FIRST_DATA_PAGE ps).take m
  refine ⟨k, hk, hfilter, ⟨_, hzone⟩, ?_⟩
  have hstop (n : ℕ) : cfg.sweepFrom zone n kept.length = ([], kept.length) := by
    rw [hzone]
    rcases Nat.lt_or_ge k ps.length with hlt | hge
    · have hcut := hnext ps[k] (List.getElem?_eq_getElem hlt)
      rw [List.drop_eq_getElem_cons hlt, layout]
      exact cfg.sweepFrom_cut kept _ _ n (hps _ (List.getElem_mem hlt)) (by omega)
    · rw [List.drop_of_length_le hge, layout, List.take_nil, List.append_nil]
      exact cfg.sweepFrom_end kept n
  have hfull : FullPages (ps.take k) := fun p hp => hps p (List.mem_of_mem_take hp)
  have htake : (ps.take k).length = k := by
    rw [List.length_take, Nat.min_eq_left hk]
  have hge := cfg.length_layout_ge FIRST_DATA_PAGE (ps.take k)
  rw [htake, ← hkept] at hge
  have hfuel : k + (zone.length - k) = zone.length := by
    have hpos : k ≤ k * MIN_RECORD_LEN := Nat.le_mul_of_pos_right _ (by decide)
    rw [hzone, List.length_append]
    omega
  have hsweep := cfg.sweepFrom_layout [] ((cfg.layout (FIRST_DATA_PAGE + k) (ps.drop k)).take
    (m - kept.length)) FIRST_DATA_PAGE (zone.length - k) hfull
  simp only [List.nil_append, ← hkept, ← hzone, htake, hfuel, List.length_nil, hstop,
    List.append_nil] at hsweep
  rw [sweepAppendRegion, hsweep]
  simp only [length_layoutLocs, htake, hkept]

lemma getLast_recordEnd (ps : List SealedPage) :
    (((cfg.layoutLocs FIRST_DATA_PAGE 0 ps).getLast?).map cfg.recordEnd).getD 0
      = (cfg.layout FIRST_DATA_PAGE ps).length := by
  rcases List.eq_nil_or_concat' ps with rfl | ⟨qs, q, rfl⟩
  · rfl
  · obtain ⟨l, hl, hend⟩ := cfg.layoutLocs_last FIRST_DATA_PAGE 0 qs q
    have hlast : (cfg.layoutLocs FIRST_DATA_PAGE 0 (qs ++ [q])).getLast? = some l := by
      rw [List.getLast?_eq_getElem?, length_layoutLocs, List.length_append, List.length_singleton,
        Nat.add_sub_cancel, hl]
    rw [hlast, Option.map_some, Option.getD_some, recordEnd, hend, Nat.zero_add]

end Sweep

end PagerConfig

/-! ### Files -/

namespace PageFile

variable {cfg : PagerConfig} {f : PageFile} {bodies : List Bytes}

lemma fullPages_sealedFrom (hfull : ∀ b ∈ bodies, b.length = BODY_SIZE) (c : ℕ) :
    FullPages (sealedFrom c bodies) := fun p hp => by
  refine hfull p.body ?_
  rw [← sealedFrom_body c bodies]
  exact List.mem_map_of_mem hp

lemma sealedFrom_getElem? {i : ℕ} {b : Bytes} (hb : bodies[i]? = some b) (c : ℕ) :
    ∃ p, (sealedFrom c bodies)[i]? = some p ∧ p.body = b := by
  rw [← sealedFrom_body c bodies, List.getElem?_map, Option.map_eq_some_iff] at hb
  exact hb

lemma Holds.sweep_take (h : f.Holds cfg bodies) (hfull : ∀ b ∈ bodies, b.length = BODY_SIZE)
    (m : ℕ) :
    (cfg.sweepAppendRegion (f.zone.take m)).dir
        = f.st.dir.filter (fun l => cfg.recordEnd l ≤ m) ∧
      (cfg.sweepAppendRegion (f.zone.take m)).write_offset
        = (((cfg.sweepAppendRegion (f.zone.take m)).dir.getLast?).map cfg.recordEnd).getD 0 ∧
      ∀ i b, i < (cfg.sweepAppendRegion (f.zone.take m)).dir.length → bodies[i]? = some b →
        cfg.readPage (f.zone.take m) (cfg.sweepAppendRegion (f.zone.take m)) (FIRST_DATA_PAGE + i)
          = .ok b := by
  have hps := fullPages_sealedFrom hfull 0
  obtain ⟨k, hk, hfilter, ⟨rest, hrest⟩, hsweep⟩ := cfg.sweep_take hps m
  rw [← h.zone] at hrest hsweep
  rw [← h.dir] at hfilter
  have hfullk : FullPages ((sealedFrom 0 bodies).take k) := fun p hp =>
    hps p (List.mem_of_mem_take hp)
  have hlen : ((sealedFrom 0 bodies).take k).length = k := by
    rw [List.length_take, Nat.min_eq_left hk]
  refine ⟨by rw [hsweep, hfilter], by rw [hsweep, cfg.getLast_recordEnd], fun i b hi hb => ?_⟩
  obtain ⟨p, hp, rfl⟩ := sealedFrom_getElem? hb 0
  rw [hsweep] at hi ⊢
  rw [PagerConfig.length_layoutLocs, hlen] at hi
  refine cfg.readPage_layout rest [] hfullk hrest (List.append_nil _).symm ?_ ?_
  · rw [PagerConfig.length_layoutLocs, hlen]
  · rwa [List.getElem?_take_of_lt hi]

/-- A zone that is not cut. -/
lemma Holds.sweep (h : f.Holds cfg bodies) (hfull : ∀ b ∈ bodies, b.length = BODY_SIZE) :
    (cfg.sweepAppendRegion f.zone).dir = f.st.dir ∧
      (cfg.sweepAppendRegion f.zone).next_page = f.st.next_page ∧
      (cfg.sweepAppendRegion f.zone).write_offset = f.st.write_offset := by
  have hdir := cfg.sweep_layout_exact (fullPages_sealedFrom hfull 0) h.zone
  have hoff := (h.sweep_take hfull f.zone.length).2.1
  rw [List.take_length, hdir, cfg.getLast_recordEnd, ← h.zone, ← h.write_offset] at hoff
  refine ⟨by rw [hdir, h.dir], ?_, hoff⟩
  rw [cfg.sweep_next_page, hdir, PagerConfig.length_layoutLocs, length_sealedFrom, h.next_page]

lemma Holds.readPage (h : f.Holds cfg bodies) (hfull : ∀ b ∈ bodies, b.length = BODY_SIZE) {i : ℕ}
    {b : Bytes} (hb : bodies[i]? = some b) :
    cfg.readPage f.zone f.st (FIRST_DATA_PAGE + i) = .ok b := by
  obtain ⟨p, hp, rfl⟩ := sealedFrom_getElem? hb 0
  refine cfg.readPage_layout [] [] (fullPages_sealedFrom hfull 0) ?_ ?_ ?_ hp
  · rw [List.append_nil, h.zone]
  · rw [List.append_nil, h.dir]
  · rw [h.next_page, h.dir, PagerConfig.length_layoutLocs, length_sealedFrom]

end PageFile

/-- Whatever pages were written, the sweep finds the directory again and each page reads as it was
written; a file that is cut keeps exactly the records that end before the cut. -/
theorem directory_rebuilt {fileId : Bytes} (length_fileId : fileId.length = 16) (encrypted : Bool)
    (crypto : CryptoProvider) (compress : Bool) (budget : Option ParityBudget)
    {ws : List PageWrite} (hfull : ∀ w ∈ ws, ∀ b ∈ w.bodies, b.length = BODY_SIZE) :
    let cfg := PagerConfig.create fileId length_fileId encrypted crypto compress budget
    let f := PageFile.run cfg ws
    let bodies := ws.flatMap PageWrite.bodies
    ((cfg.sweepAppendRegion f.zone).dir = f.st.dir ∧
      (cfg.sweepAppendRegion f.zone).next_page = f.st.next_page ∧
      (cfg.sweepAppendRegion f.zone).write_offset = f.st.write_offset) ∧
    (f.st.next_page = FIRST_DATA_PAGE + bodies.length ∧
      ∀ i b, bodies[i]? = some b → cfg.readPage f.zone f.st (FIRST_DATA_PAGE + i) = .ok b) ∧
    ∀ m, let cut := cfg.sweepAppendRegion (f.zone.take m)
      cut.dir = f.st.dir.filter (fun l => cfg.recordEnd l ≤ m) ∧
      cut.next_page = FIRST_DATA_PAGE + cut.dir.length ∧
      cut.write_offset = ((cut.dir.getLast?).map cfg.recordEnd).getD 0 ∧
      ∀ i b, i < cut.dir.length → bodies[i]? = some b →
        cfg.readPage (f.zone.take m) cut (FIRST_DATA_PAGE + i) = .ok b := by
  intro cfg f bodies
  have hbodies : ∀ b ∈ bodies, b.length = BODY_SIZE := fun b hb => by
    obtain ⟨w, hw, hb⟩ := List.mem_flatMap.1 hb
    exact hfull w hw b hb
  have h : f.Holds cfg bodies := PageFile.run_holds cfg ws
  refine ⟨h.sweep hbodies, ⟨h.next_page, fun i b hb => h.readPage hbodies hb⟩, fun m => ?_⟩
  obtain ⟨hdir, hoff, hread⟩ := h.sweep_take hbodies m
  exact ⟨hdir, cfg.sweep_next_page _, hoff, hread⟩

/-- Two pages in one commit, the second one empty, and one page on its own. -/
def threePages : List PageWrite :=
  [.commit [List.replicate BODY_SIZE 1, List.replicate BODY_SIZE 0],
    .append (List.replicate BODY_SIZE 2)]

def compressedFile : PagerConfig :=
  .create (List.replicate 16 0) List.length_replicate false (.plain Sha256.std) true
    (some ⟨16, Nat.le_add_left 2 14, Nat.le_add_left 16 238, rfl⟩)

theorem directory_rebuilt_three :
    (compressedFile.sweepAppendRegion (PageFile.run compressedFile threePages).zone).dir
        = (PageFile.run compressedFile threePages).st.dir ∧
      compressedFile.readPage (PageFile.run compressedFile threePages).zone
        (PageFile.run compressedFile threePages).st (FIRST_DATA_PAGE + 1)
          = .ok (List.replicate BODY_SIZE 0) := by
  have hfull : ∀ w ∈ threePages, ∀ b ∈ w.bodies, b.length = BODY_SIZE := by
    simp [threePages, PageWrite.bodies]
  have hsecond : (threePages.flatMap PageWrite.bodies)[1]? = some (List.replicate BODY_SIZE 0) := by
    rw [threePages, List.flatMap_cons, PageWrite.bodies]
    rfl
  have hid : (List.replicate 16 (0 : UInt8)).length = 16 := List.length_replicate
  have hall := directory_rebuilt hid false
    (.plain Sha256.std) true (some ⟨16, Nat.le_add_left 2 14, Nat.le_add_left 16 238, rfl⟩) hfull
  rw [← compressedFile] at hall
  exact ⟨hall.1.1, hall.2.1.2 1 _ hsecond⟩

end Arkeion
