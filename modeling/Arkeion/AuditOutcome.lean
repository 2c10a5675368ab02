import Arkeion.AuditSpec

/-!
Every outcome of the audit.

The walk back ends at the start of the chain, stops at a page that is no commit page, runs
into a structural page, or never ends. What the forward pass finds of a walk that ended is a
success, a broken chain, or a debug check that fires.
-/

namespace Arkeion

open Arkeion.Lib

/-- The walk back from a page ends at the start of the chain with these commits. -/
inductive Walk (r : PageReader) : ℕ → List (ℕ × CommitHeader) → Prop
  | start : Walk r 0 []
  | step {p : ℕ} {b : Bytes} {h : CommitHeader} {hs : List (ℕ × CommitHeader)} :
      p ≠ 0 → r.readPage p = .ok b → CommitHeader.decode b = some h → Walk r h.prev_page hs →
      Walk r p (hs ++ [(p, h)])

lemma Walk.unique {r : PageReader} {p : ℕ} {hs hs' : List (ℕ × CommitHeader)} (h : Walk r p hs)
    (h' : Walk r p hs') : hs = hs' := by
  induction h generalizing hs' with
  | start =>
    cases h' with
    | start => rfl
    | step h0 _ _ _ => exact absurd rfl h0
  | step h0 hb hd _ ih =>
    cases h' with
    | start => exact absurd rfl h0
    | step _ hb' hd' hw =>
      cases hb.symm.trans hb'
      cases hd.symm.trans hd'
      rw [ih hw]

/-- The page can't be read, or is no commit page. -/
def NoCommit (r : PageReader) (p : ℕ) : Prop :=
  (∃ e, r.readPage p = .error e ∧ ¬ e.IsPanic) ∨
    ∃ b, r.readPage p = .ok b ∧ CommitHeader.decode b = none

/-- The walk back from a page stops at one that is no commit page. -/
inductive Stops (r : PageReader) : ℕ → Prop
  | here {p : ℕ} : p ≠ 0 → NoCommit r p → Stops r p
  | step {p : ℕ} {b : Bytes} {h : CommitHeader} :
      p ≠ 0 → r.readPage p = .ok b → CommitHeader.decode b = some h → Stops r h.prev_page →
      Stops r p

def Error.IsBroken : Error → Prop
  | .chainBroken _ _ => True
  | _ => False

lemma orBroken_eq_error {α : Type} {x : Result α} {e e' : Error} :
    orBroken x e = .error e' ↔ (∃ m, x = .error (.panic m) ∧ e' = .panic m) ∨
      ∃ e₀, x = .error e₀ ∧ ¬ e₀.IsPanic ∧ e' = e := by
  rcases x with e₀ | a
  · cases e₀ <;> simp [orBroken, Error.IsPanic, eq_comm]
  · simp [orBroken]

lemma walkBack_eq_ok {r : PageReader} {v : ℕ} {page : ℕ}
    {acc hs : List (ℕ × CommitHeader)} :
    (∃ n, walkBack r v n page acc = .ok hs) ↔ ∃ hs', Walk r page hs' ∧ hs = hs' ++ acc := by
  constructor
  · rintro ⟨n, h⟩
    induction n generalizing page acc with
    | zero => cases h
    | succ n ih =>
      unfold walkBack at h
      split at h
      · rename_i h0
        cases h
        subst h0
        exact ⟨[], .start, rfl⟩
      · rename_i h0
        simp only [bind_eq_ok, orBroken_eq_ok, okOr_eq_ok] at h
        obtain ⟨b, hb, hd, hdec, h⟩ := h
        obtain ⟨hs', hw, rfl⟩ := ih h
        exact ⟨hs' ++ [(page, hd)], .step h0 hb hdec hw, by simp⟩
  · rintro ⟨hs', hw, rfl⟩
    induction hw generalizing acc with
    | start => exact ⟨1, by simp [walkBack]⟩
    | @step p b h hs' h0 hb hdec _ ih =>
      obtain ⟨n, hn⟩ := @ih ((p, h) :: acc)
      exact ⟨n + 1, by simp [walkBack, h0, hb, hdec, orBroken, hn]⟩

lemma walkBack_broken {r : PageReader} {v : ℕ} {page : ℕ}
    {acc : List (ℕ × CommitHeader)} :
    (∃ n e, walkBack r v n page acc = .error e ∧ e.IsBroken) ↔ Stops r page := by
  constructor
  · rintro ⟨n, e, h, he⟩
    induction n generalizing page acc with
    | zero => cases h; exact he.elim
    | succ n ih =>
      unfold walkBack at h
      split at h
      · cases h
      · rename_i h0
        simp only [bind_eq_error, orBroken_eq_ok] at h
        rcases h with h | ⟨b, hb, h | ⟨hd, hdec, h⟩⟩
        · rcases orBroken_eq_error.1 h with ⟨m, -, rfl⟩ | ⟨e₀, he₀, hp, -⟩
          · exact he.elim
          · exact .here h0 (Or.inl ⟨e₀, he₀, hp⟩)
        · cases hdec : CommitHeader.decode b with
          | none => exact .here h0 (Or.inr ⟨b, hb, hdec⟩)
          | some hd => rw [hdec] at h; cases h
        · exact .step h0 hb (okOr_eq_ok.1 hdec) (ih h)
  · intro hst
    induction hst generalizing acc with
    | here h0 hno =>
      rcases hno with ⟨e, he, hp⟩ | ⟨b, hb, hdec⟩
      · refine ⟨1, .chainBroken (v - acc.length) "página de commit ilegible o corrupta", ?_, trivial⟩
        rw [walkBack, if_neg h0, he]
        dsimp only
        rw [orBroken_eq_error.2 (Or.inr ⟨e, rfl, hp, rfl⟩), error_bind]
      · refine ⟨1, .chainBroken (v - acc.length) "página de commit mal formada", ?_, trivial⟩
        rw [walkBack, if_neg h0, hb]
        dsimp only
        rw [orBroken_eq_ok.2 rfl, ok_bind, hdec, okOr_none, error_bind]
    | @step p b h h0 hb hdec _ ih =>
      obtain ⟨n, e, hn, he⟩ := @ih ((p, h) :: acc)
      exact ⟨n + 1, e, by simp [walkBack, h0, hb, hdec, orBroken, hn], he⟩

/-! ### The forward pass -/

/-- Reading the run of pages fires a debug check. -/
def ReadPanics (r : PageReader) (p n : ℕ) : Prop :=
  ∃ i < n, (∀ j < i, ∃ b, r.readPage (p + j) = .ok b) ∧ ∃ m, r.readPage (p + i) = .error (.panic m)

/-- The check of one commit after version `v` fires a debug check: the next version has no
64 bits any more, or a data page would be a structural one. -/
def Trips (r : PageReader) (v : ℕ) (c : ℕ × CommitHeader) : Prop :=
  2 ^ 64 ≤ v + 1 ∨
    c.2.version = v + 1 ∧ c.2.dataCount ≤ c.1 ∧ ReadPanics r (c.1 - c.2.dataCount) c.2.dataCount

/-- The commits before some commit are in order, and its own check fires a debug check. -/
def TripsIn (sha : Sha256) (r : PageReader) (prev : Bytes) (v : ℕ)
    (cs : List (ℕ × CommitHeader)) : Prop :=
  ∃ xs c ys, cs = xs ++ c :: ys ∧ Checked sha r prev v xs ∧ Trips r (v + xs.length) c

lemma readPanics_succ {r : PageReader} {p n : ℕ} :
    ReadPanics r p (n + 1) ↔ (∃ m, r.readPage p = .error (.panic m)) ∨
      ∃ b, r.readPage p = .ok b ∧ ReadPanics r (p + 1) n := by
  constructor
  · rintro ⟨i, hi, hbefore, hm⟩
    cases i with
    | zero => exact Or.inl hm
    | succ i =>
      obtain ⟨b, hb⟩ := hbefore 0 (by omega)
      refine Or.inr ⟨b, hb, i, by omega, fun j hj => ?_, ?_⟩
      · have := hbefore (j + 1) (by omega)
        rwa [show p + (j + 1) = p + 1 + j by omega] at this
      · rwa [show p + (i + 1) = p + 1 + i by omega] at hm
  · rintro (hm | ⟨b, hb, i, hi, hbefore, hm⟩)
    · exact ⟨0, by omega, by simp, hm⟩
    · refine ⟨i + 1, by omega, fun j hj => ?_, ?_⟩
      · cases j with
        | zero => exact ⟨b, hb⟩
        | succ j =>
          have := hbefore j (by omega)
          rwa [show p + (j + 1) = p + 1 + j by omega]
      · rwa [show p + (i + 1) = p + 1 + i by omega]

lemma readRun_panics {r : PageReader} {e : Error} (he : ¬ e.IsPanic) {p n : ℕ} :
    (∃ e', readRun r e p n = .error e' ∧ e'.IsPanic) ↔ ReadPanics r p n := by
  induction n generalizing p with
  | zero => simp [readRun, ReadPanics]
  | succ n ih =>
    rw [readPanics_succ, ← ih]
    simp only [readRun, bind_eq_error, orBroken_eq_ok]
    constructor
    · rintro ⟨e', h | ⟨b, hb, h | ⟨bs, -, h⟩⟩, hp⟩
      · rcases orBroken_eq_error.1 h with ⟨m, hm, -⟩ | ⟨-, -, -, rfl⟩
        · exact Or.inl ⟨m, hm⟩
        · exact absurd hp he
      · exact Or.inr ⟨b, hb, e', h, hp⟩
      · cases h
    · rintro (⟨m, hm⟩ | ⟨b, hb, e', h, hp⟩)
      · exact ⟨.panic m, Or.inl (orBroken_eq_error.2 (Or.inl ⟨m, hm, rfl⟩)), trivial⟩
      · exact ⟨e', Or.inr ⟨b, hb, Or.inl h⟩, hp⟩

lemma readRun_error {r : PageReader} {e e' : Error} {p n : ℕ}
    (h : readRun r e p n = .error e') : e' = e ∨ e'.IsPanic := by
  induction n generalizing p with
  | zero => cases h
  | succ n ih =>
    simp only [readRun, bind_eq_error, orBroken_eq_ok] at h
    rcases h with h | ⟨b, -, h | ⟨bs, -, h⟩⟩
    · rcases orBroken_eq_error.1 h with ⟨m, -, rfl⟩ | ⟨-, -, -, rfl⟩
      · exact Or.inr trivial
      · exact Or.inl rfl
    · exact ih h
    · cases h

/-- As `TripsIn`, and the commits before are at peace with an anchor. -/
def TripsUnder (sha : Sha256) (r : PageReader) (anchor : Option AuditAnchor) (prev : Bytes) (v : ℕ)
    (cs : List (ℕ × CommitHeader)) : Prop :=
  ∃ xs c ys, cs = xs ++ c :: ys ∧ Checked sha r prev v xs ∧ AnchorOk anchor xs ∧
    Trips r (v + xs.length) c

lemma tripsUnder_none {sha : Sha256} {r : PageReader} {prev : Bytes} {v : ℕ}
    {cs : List (ℕ × CommitHeader)} :
    TripsUnder sha r none prev v cs ↔ TripsIn sha r prev v cs := by
  simp [TripsUnder, TripsIn, AnchorOk]

lemma checkAnchor_error {anchor : Option AuditAnchor} {seen : Bool} {h : CommitHeader} {e : Error}
    (he : checkAnchor anchor seen h = .error e) : e.IsBroken := by
  cases anchor with
  | none => cases he
  | some a =>
    rw [checkAnchor] at he
    split at he
    · simp only [bind_eq_error, require_eq_error, require_eq_ok] at he
      rcases he with ⟨-, rfl⟩ | ⟨-, -, he⟩
      · trivial
      · cases he
    · cases he

lemma Error.IsBroken.not_panic {e : Error} (he : e.IsBroken) : ¬ e.IsPanic := by
  cases e <;> simp_all [Error.IsBroken, Error.IsPanic]

section Forward
variable {sha : Sha256} {r : PageReader} {anchor : Option AuditAnchor} {st : AuditState}
  {c : ℕ × CommitHeader}

lemma auditCommit_panics :
    (∃ e, auditCommit sha r anchor st c = .error e ∧ e.IsPanic)
      ↔ Trips r st.expected_version c := by
  obtain ⟨pid, h⟩ := c
  have hread (reason : String) := readRun_panics (r := r)
    (e := .chainBroken h.version reason) (p := pid - (h.pages_written - 1))
    (n := h.pages_written - 1) id
  simp only [auditCommit, bind_eq_error, require_eq_error, require_eq_ok]
  constructor
  · rintro ⟨e, ⟨hlt, rfl⟩ | ⟨-, -, ⟨-, rfl⟩ | ⟨-, hv, ⟨-, rfl⟩ | ⟨-, hfit, hr | ⟨bs, -, ⟨-, rfl⟩ |
      ⟨-, -, ⟨-, rfl⟩ | ⟨-, -, ⟨-, rfl⟩ | ⟨-, -, ha | ⟨_, -, ho⟩⟩⟩⟩⟩⟩⟩⟩, hp⟩
    · exact Or.inl (by omega)
    · exact hp.elim
    · exact hp.elim
    · exact Or.inr ⟨hv, hfit, (hread _).1 ⟨e, hr, hp⟩⟩
    · exact hp.elim
    · exact hp.elim
    · exact hp.elim
    · exact absurd hp (checkAnchor_error ha).not_panic
    · cases ho
  · rintro (hlt | ⟨hv, hfit, hr⟩)
    · exact ⟨_, Or.inl ⟨by omega, rfl⟩, trivial⟩
    · by_cases hlt : st.expected_version + 1 < 2 ^ 64
      · obtain ⟨e, he, hp⟩ := (hread "página de datos ilegible o corrupta").2 hr
        exact ⟨e, Or.inr ⟨(), hlt, Or.inr ⟨(), hv, Or.inr ⟨(), hfit, Or.inl he⟩⟩⟩, hp⟩
      · exact ⟨_, Or.inl ⟨hlt, rfl⟩, trivial⟩

lemma auditCommit_error {e : Error} (h : auditCommit sha r anchor st c = .error e) :
    e.IsBroken ∨ e.IsPanic := by
  obtain ⟨pid, hd⟩ := c
  simp only [auditCommit, bind_eq_error, require_eq_error, require_eq_ok] at h
  rcases h with ⟨-, rfl⟩ | ⟨-, -, ⟨-, rfl⟩ | ⟨-, -, ⟨-, rfl⟩ | ⟨-, -, hr | ⟨-, -, ⟨-, rfl⟩ | ⟨-, -,
    ⟨-, rfl⟩ | ⟨-, -, ⟨-, rfl⟩ | ⟨-, -, ha | ⟨_, -, ho⟩⟩⟩⟩⟩⟩⟩⟩
  · exact Or.inr trivial
  · exact Or.inl trivial
  · exact Or.inl trivial
  · rcases readRun_error hr with rfl | hp
    · exact Or.inl trivial
    · exact Or.inr hp
  · exact Or.inl trivial
  · exact Or.inl trivial
  · exact Or.inl trivial
  · exact Or.inl (checkAnchor_error ha)
  · cases ho

lemma audit_panics {cs : List (ℕ × CommitHeader)} :
    (∃ e, cs.foldlM (auditCommit sha r anchor) st = .error e ∧ e.IsPanic)
      ↔ TripsUnder sha r anchor st.prev_chain st.expected_version cs := by
  induction cs generalizing st with
  | nil => simp [TripsUnder, pure, Except.pure]
  | cons c cs ih =>
    simp only [List.foldlM_cons, bind_eq_error]
    constructor
    · rintro ⟨e, he | ⟨st1, hst, he⟩, hp⟩
      · exact ⟨[], c, cs, rfl, trivial, fun _ _ _ hc => (List.not_mem_nil hc).elim,
          auditCommit_panics.1 ⟨e, he, hp⟩⟩
      · obtain ⟨hok, ha, rfl⟩ := auditCommit_eq_ok.1 hst
        obtain ⟨xs, d, ys, rfl, hxs, hxa, hd⟩ := ih.1 ⟨e, he, hp⟩
        refine ⟨c :: xs, d, ys, rfl, ⟨hok, hxs⟩, anchorOk_cons.2 ⟨ha, hxa⟩, ?_⟩
        rwa [List.length_cons, show st.expected_version + (xs.length + 1)
          = st.expected_version + 1 + xs.length by omega]
    · rintro ⟨xs, d, ys, hcs, hxs, hxa, hd⟩
      cases xs with
      | nil =>
        cases hcs
        obtain ⟨e, he, hp⟩ := auditCommit_panics.2 hd
        exact ⟨e, Or.inl he, hp⟩
      | cons x xs =>
        cases hcs
        rw [List.length_cons, show st.expected_version + (xs.length + 1)
          = st.expected_version + 1 + xs.length by omega] at hd
        obtain ⟨hc, hxa⟩ := anchorOk_cons.1 hxa
        have hstep := auditCommit_eq_ok.2 ⟨hxs.1, hc, rfl⟩
        obtain ⟨e, he, hp⟩ := (@ih ⟨c.2.chain_hash, st.expected_version + 1,
          st.anchor_seen || anchored anchor c⟩).2 ⟨xs, d, ys, rfl, hxs.2, hxa, hd⟩
        exact ⟨e, Or.inr ⟨_, hstep, he⟩, hp⟩

lemma audit_error {cs : List (ℕ × CommitHeader)} {e : Error}
    (h : cs.foldlM (auditCommit sha r anchor) st = .error e) : e.IsBroken ∨ e.IsPanic := by
  induction cs generalizing st with
  | nil => cases h
  | cons c cs ih =>
    simp only [List.foldlM_cons, bind_eq_error] at h
    rcases h with h | ⟨st1, -, h⟩
    · exact auditCommit_error h
    · exact ih h

end Forward

/-- The audit accepts exactly the walks that end and pass every check. -/
theorem verify_ok_iff {sha : Sha256} {r : PageReader} {head : Head} :
    (∃ fuel rep, verify sha fuel r head = .ok rep) ↔
      ∃ hs, Walk r head.commit_page hs ∧ Accepted sha r head none hs := by
  simp only [verify, verifyAnchored_eq_ok]
  constructor
  · rintro ⟨fuel, rep, hs, hw, hacc, -⟩
    obtain ⟨hs', hw', rfl⟩ := walkBack_eq_ok.1 ⟨fuel, hw⟩
    rw [List.append_nil] at hacc
    exact ⟨hs', hw', hacc⟩
  · rintro ⟨hs, hw, hacc⟩
    obtain ⟨fuel, hf⟩ := (@walkBack_eq_ok _ head.version _ [] _).2 ⟨hs, hw, rfl⟩
    rw [List.append_nil] at hf
    exact ⟨fuel, _, hs, hf, hacc, rfl⟩

/-- The audit reports a broken chain exactly when the walk stops at a page that is no commit
page, or ends and fails a check before any debug check fires. -/
theorem verify_broken_iff {sha : Sha256} {r : PageReader} {head : Head} :
    (∃ fuel e, verify sha fuel r head = .error e ∧ e.IsBroken) ↔
      Stops r head.commit_page ∨
        ∃ hs, Walk r head.commit_page hs ∧ ¬ Accepted sha r head none hs ∧
          ¬ TripsIn sha r (genesisChain sha r.fileId) (startVersion hs) hs := by
  have hsplit (fuel : ℕ) (hs : List (ℕ × CommitHeader))
      (hw : walkBack r head.version fuel head.commit_page [] = .ok hs)
      {x : Result AuditReport} (hx : verify sha fuel r head = x) :
      ((∃ rep, x = .ok rep) ↔ Accepted sha r head none hs) ∧
      ((∃ e, x = .error e ∧ e.IsPanic)
        ↔ TripsIn sha r (genesisChain sha r.fileId) (startVersion hs) hs) ∧
      ∀ e, x = .error e → e.IsBroken ∨ e.IsPanic := by
    subst hx
    refine ⟨?_, ?_, ?_⟩
    · simp only [verify, verifyAnchored_eq_ok, hw, Except.ok.injEq]
      constructor
      · rintro ⟨rep, hs', rfl, h, -⟩
        exact h
      · intro h
        exact ⟨_, hs, rfl, h, rfl⟩
    · rw [← tripsUnder_none, ← @audit_panics _ _ _ ⟨genesisChain sha r.fileId, startVersion hs, false⟩]
      simp only [verify, verifyAnchored, hw, ok_bind, bind_eq_error, require_eq_error, checkSeen]
      constructor
      · rintro ⟨e, he | ⟨st, -, ⟨-, rfl⟩ | ⟨-, -, ⟨-, rfl⟩ | ⟨-, -, h⟩⟩⟩, hp⟩
        · exact ⟨e, he, hp⟩
        · exact hp.elim
        · exact hp.elim
        · simp at h
      · rintro ⟨e, he, hp⟩
        exact ⟨e, Or.inl he, hp⟩
    · intro e
      simp only [verify, verifyAnchored, hw, ok_bind, bind_eq_error, require_eq_error, checkSeen]
      rintro (he | ⟨st, -, ⟨-, rfl⟩ | ⟨-, -, ⟨-, rfl⟩ | ⟨-, -, h⟩⟩⟩)
      · exact audit_error he
      · exact Or.inl trivial
      · exact Or.inl trivial
      · simp at h
  constructor
  · rintro ⟨fuel, e, h, hb⟩
    cases hw : walkBack r head.version fuel head.commit_page [] with
    | error e' =>
      have : verify sha fuel r head = .error e' := by simp [verify, verifyAnchored, hw]
      rw [this] at h
      cases h
      exact Or.inl (walkBack_broken.1 ⟨fuel, e, hw, hb⟩)
    | ok hs =>
      obtain ⟨hok, hpanic, -⟩ := hsplit fuel hs hw h
      obtain ⟨hs', hw', rfl⟩ := walkBack_eq_ok.1 ⟨fuel, hw⟩
      rw [List.append_nil] at hok hpanic
      refine Or.inr ⟨hs', hw', fun hacc => ?_, fun htrip => ?_⟩
      · obtain ⟨rep, hrep⟩ := hok.2 hacc
        cases hrep
      · obtain ⟨e', he', hp⟩ := hpanic.2 htrip
        cases he'
        exact hb.not_panic hp
  · rintro (hst | ⟨hs, hw, hacc, htrip⟩)
    · obtain ⟨fuel, e, he, hb⟩ := (@walkBack_broken _ head.version _ []).2 hst
      exact ⟨fuel, e, by simp [verify, verifyAnchored, he], hb⟩
    · obtain ⟨fuel, hf⟩ := (@walkBack_eq_ok _ head.version _ [] _).2 ⟨hs, hw, rfl⟩
      rw [List.append_nil] at hf
      obtain ⟨hok, hpanic, herr⟩ := hsplit fuel hs hf rfl
      cases hv : verify sha fuel r head with
      | ok rep => exact absurd (hok.1 ⟨rep, hv⟩) hacc
      | error e =>
        rcases herr e hv with hb | hp
        · exact ⟨fuel, e, hv, hb⟩
        · exact absurd (hpanic.1 ⟨e, hv, hp⟩) htrip

end Arkeion
