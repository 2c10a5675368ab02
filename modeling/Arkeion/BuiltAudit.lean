import Arkeion.TamperEvidence

/-!
A file the engine built passes its own audit, as long as no branch name has a zero byte.
-/

namespace Arkeion

open Arkeion.Lib

/-- The pages of one file can be read in another, with the same bodies. -/
def PageLog.Extends (l' l : PageLog) : Prop :=
  ∀ p b, l.readPage p = .ok b → l'.readPage p = .ok b

lemma PageLog.readPage_eq_ok {l : PageLog} {p : ℕ} {b : Bytes} :
    l.readPage p = .ok b ↔ FIRST_DATA_PAGE ≤ p ∧ l.pages[p - FIRST_DATA_PAGE]? = some b := by
  unfold readPage
  split
  · simp; omega
  · rw [okOr_eq_ok]; simp; omega

lemma PageLog.extends_of_prefix {l l' : PageLog} (h : l.pages <+: l'.pages) : l'.Extends l := by
  intro p b hb
  obtain ⟨hp, hget⟩ := readPage_eq_ok.1 hb
  obtain ⟨ys, hys⟩ := h
  rw [readPage_eq_ok, ← hys]
  refine ⟨hp, ?_⟩
  rw [List.getElem?_append_left (List.getElem?_eq_some_iff.1 hget).1, hget]

lemma Walk.extend {l l' : PageLog} (h : l'.Extends l) {p : ℕ}
    {hs : List (ℕ × CommitHeader)} (hw : Walk l.reader p hs) : Walk l'.reader p hs := by
  induction hw with
  | start => exact .start
  | step h0 hb hd _ ih => exact .step h0 (h _ _ hb) hd ih

lemma Reads.extend {l l' : PageLog} (h : l'.Extends l) {p : ℕ} {bs : List Bytes}
    (hr : Reads l.reader p bs) : Reads l'.reader p bs := by
  induction bs generalizing p with
  | nil => trivial
  | cons b bs ih => exact ⟨h _ _ hr.1, ih hr.2⟩

/-- A run of pages in the middle of a file. -/
lemma reads_of_pages {l : PageLog} {xs bs ys : List Bytes} (h : l.pages = xs ++ bs ++ ys) :
    Reads l.reader (FIRST_DATA_PAGE + xs.length) bs := by
  induction bs generalizing xs with
  | nil => trivial
  | cons b bs ih =>
    have hrest := @ih (xs ++ [b]) (by simp [h])
    rw [List.length_append, List.length_singleton, ← Nat.add_assoc] at hrest
    refine ⟨PageLog.readPage_eq_ok.2 ⟨by omega, ?_⟩, hrest⟩
    rw [h, Nat.add_sub_cancel_left, List.append_assoc, List.getElem?_append_right le_rfl]
    simp

lemma readBodies_eq_some {r : PageReader} {c : ℕ × CommitHeader} {bs : List Bytes} :
    readBodies r c = some bs ↔
      c.2.dataCount ≤ c.1 ∧ bs.length = c.2.dataCount ∧ Reads r (c.1 - c.2.dataCount) bs := by
  unfold readBodies
  split
  · rename_i h
    rw [← readRun_eq_ok (e := .io)]
    cases readRun r .io (c.1 - c.2.dataCount) c.2.dataCount <;> simp [Except.toOption, h]
  · rename_i h
    simp [h]

lemma commitHeader_dataCount (sha : Sha256) (p : CommitParams) (d : CommitData) (nonce : ℕ)
    (bodies : List Bytes) : (commitHeader sha p d nonce bodies).dataCount = bodies.length := rfl

/-- One commit more: the walk from its page covers it after what the walk covered before. -/
lemma walk_commit {l l' : PageLog} {sha : Sha256} {p : CommitParams} {d : CommitData} {nonce : ℕ}
    {dirty : List Bytes} {h : CommitHeader} {hs : List (ℕ × CommitHeader)}
    (hh : h = commitHeader sha p d nonce dirty) (hsized : h.Sized) (hnul : 0 ∉ utf8 h.branch)
    (hp : l'.pages = l.pages ++ dirty ++ [commitBody h]) (hw : Walk l.reader h.prev_page hs) :
    Walk l'.reader (l.nPages + dirty.length) (hs ++ [(l.nPages + dirty.length, h)]) ∧
      readBodies l'.reader (l.nPages + dirty.length, h) = some dirty := by
  have hext : l'.Extends l := PageLog.extends_of_prefix ⟨dirty ++ [commitBody h], by simp [hp]⟩
  constructor
  · refine .step ?_ ?_ (CommitHeader.decode_encodeInto hsized hnul zeroBody) (hw.extend hext)
    · simp [PageLog.nPages, FIRST_DATA_PAGE]
    · refine PageLog.readPage_eq_ok.2 ⟨by simp only [PageLog.nPages]; omega, ?_⟩
      have hidx : l.nPages + dirty.length - FIRST_DATA_PAGE = (l.pages ++ dirty).length := by
        simp only [PageLog.nPages, List.length_append]; omega
      rw [hidx, hp, List.getElem?_append_right le_rfl]
      simp [commitBody]
  · have hcount : h.dataCount = dirty.length := by rw [hh, commitHeader_dataCount]
    rw [readBodies_eq_some, hcount, Nat.add_sub_cancel]
    exact ⟨by simp only; omega, rfl, reads_of_pages hp⟩

lemma readBodies_extend {l l' : PageLog} (h : l'.Extends l) {c : ℕ × CommitHeader}
    {bs : List Bytes} (hr : readBodies l.reader c = some bs) : readBodies l'.reader c = some bs := by
  rw [readBodies_eq_some] at hr ⊢
  exact ⟨hr.1, hr.2.1, hr.2.2.extend h⟩

lemma covered_extend {l l' : PageLog} (h : l'.Extends l) {hs : List (ℕ × CommitHeader)}
    {ws : List Written}
    (hc : hs.map (fun c => (readBodies l.reader c).map (coveredBy c.2))
      = ws.map fun w => some (coveredBy w.header w.bodies)) :
    hs.map (fun c => (readBodies l'.reader c).map (coveredBy c.2))
      = ws.map fun w => some (coveredBy w.header w.bodies) := by
  induction hs generalizing ws with
  | nil => simpa using hc
  | cons c cs ih =>
    cases ws with
    | nil => simp at hc
    | cons w ws =>
      simp only [List.map_cons, List.cons.injEq, Option.map_eq_some_iff] at hc ⊢
      obtain ⟨⟨bs, hbs, hcov⟩, hrest⟩ := hc
      exact ⟨⟨bs, readBodies_extend h hbs, hcov⟩, ih hrest⟩

/-- The walk from the built head covers exactly the history that was written. -/
theorem Built.same {sha : Sha256} {l : PageLog} {head : Head} {ws : List Written}
    (h : Built sha l head ws) (hnul : ∀ w ∈ ws, 0 ∉ utf8 w.header.branch) :
    ∃ hs, Walk l.reader head.commit_page hs ∧ SameHistory l.reader hs ws := by
  induction h with
  | genesis _ => exact ⟨[], .start, rfl, by simp⟩
  | @checkpoint l l' version branch d nonce dirty hd hempty _ hh hs _ hp =>
    have hprev : hd.prev_page = 0 := by rw [hh]; rfl
    have hw : Walk l.reader hd.prev_page [] := by rw [hprev]; exact .start
    have hp' : l'.pages = l.pages ++ dirty ++ [commitBody hd] := by simp [hp, hempty]
    have hn : 0 ∉ utf8 hd.branch := hnul ⟨hd, dirty⟩ (by simp)
    obtain ⟨hwalk, hbodies⟩ := walk_commit hh hs hn hp' hw
    refine ⟨_, hwalk, by simp [hbodies], ?_⟩
    intro c hc
    cases hc
    exact Or.inr (by simp [hh, CommitHeader.isCheckpoint, commitHeader, CommitParams.checkpoint,
      COMMIT_FLAG_CHECKPOINT])
  | @commit l l' head ws branch parent d nonce dirty hd hb hh hs _ hp ih =>
    obtain ⟨cs, hwalk, hsame⟩ := ih fun w hw => hnul w (by simp [hw])
    have hw : Walk l.reader hd.prev_page cs := by rw [hh]; exact hwalk
    have hn : 0 ∉ utf8 hd.branch := hnul ⟨hd, dirty⟩ (by simp)
    obtain ⟨hwalk', hbodies⟩ := walk_commit hh hs hn hp hw
    have hext : l'.Extends l := PageLog.extends_of_prefix ⟨dirty ++ [commitBody hd], by simp [hp]⟩
    refine ⟨_, hwalk', ?_, ?_⟩
    · rw [List.map_append, List.map_append, covered_extend hext hsame.covered]
      simp [hbodies]
    · intro c hc
      cases cs with
      | nil =>
        cases hc
        have hws : ws = [] := by simpa using hsame.covered.symm
        have hv : head.version = 0 := hb.version_of_nil hws
        exact Or.inl (by rw [hh]; simp [commitHeader, CommitParams.after, hv])
      | cons x xs =>
        cases hc
        exact hsame.start _ rfl

/-- The audit accepts every file the engine built with names free of zero bytes. -/
theorem Built.verify_ok {sha : Sha256} {l : PageLog} {head : Head} {ws : List Written}
    (h : Built sha l head ws) (hnul : ∀ w ∈ ws, 0 ∉ utf8 w.header.branch) :
    ∃ fuel rep, verify sha fuel l.reader head = .ok rep := by
  obtain ⟨hs, hw, hsame⟩ := h.same hnul
  exact verify_ok_iff.2 ⟨hs, hw, accepted_of_same h rfl hsame⟩

end Arkeion
