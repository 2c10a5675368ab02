import Arkeion.AuditOutcome
import Arkeion.TamperEvidence
import Arkeion.Lib.Orbit

/-!
Whether the audit comes to an end.

The walk back follows `prev_page` from commit page to commit page and nothing makes the ids
descend, so it ends exactly when it never comes back to a page. The forward pass always ends.
-/

namespace Arkeion

open Arkeion.Lib

/-- The audit ends with a report or with an error of its own. -/
def Ends {α : Type} : Result α → Prop
  | .ok _ => True
  | .error e => e ≠ .outOfFuel ∧ ¬ e.IsPanic

/-- The page that a commit page names as the one before. -/
def prevOf (r : PageReader) (page : ℕ) : Option ℕ :=
  if page = 0 then none
  else match r.readPage page with
    | .error _ => none
    | .ok b => (CommitHeader.decode b).map (·.prev_page)

/-- The walk from the page reaches one whose read fires a debug check. -/
def RunsInto (r : PageReader) (page : ℕ) : Prop :=
  ∃ n q m, orbit (prevOf r) n page = some q ∧ q ≠ 0 ∧ r.readPage q = .error (.panic m)

section Walk
variable {r : PageReader} {v n m page q : ℕ} {acc : List (ℕ × CommitHeader)}

lemma prevOf_eq_some :
    prevOf r page = some q ↔ page ≠ 0 ∧
      ∃ b h, r.readPage page = .ok b ∧ CommitHeader.decode b = some h ∧ h.prev_page = q := by
  unfold prevOf
  split
  · rename_i h0
    simp [h0]
  · rename_i h0
    cases hb : r.readPage page <;> simp [h0]

lemma decode_prev_page_lt {b : Bytes} {h : CommitHeader} (hb : b.length = BODY_SIZE)
    (hd : CommitHeader.decode b = some h) : h.prev_page < 2 ^ 64 := by
  unfold CommitHeader.decode at hd
  split at hd
  · cases hd
  · dsimp only at hd
    split at hd
    · cases hd
    · cases hd
      have hlt := leNat_lt (sub b 32 8)
      rw [length_sub, hb] at hlt
      exact hlt

/-- `prev_page` is a field of eight bytes. -/
lemma finite_prevOf (r : PageReader) : {q | ∃ page, prevOf r page = some q}.Finite := by
  refine (Set.finite_Iio (2 ^ 64)).subset ?_
  rintro q ⟨page, hq⟩
  obtain ⟨-, b, h, hb, hd, rfl⟩ := prevOf_eq_some.1 hq
  exact decode_prev_page_lt (r.length_body _ _ hb) hd

lemma walkBack_of_prevOf (h : prevOf r page = some q) :
    ∃ hd, ∀ n, walkBack r v (n + 1) page acc = walkBack r v n q ((page, hd) :: acc) := by
  obtain ⟨h0, b, hd, hb, hdec, rfl⟩ := prevOf_eq_some.1 h
  exact ⟨hd, fun n => by simp [walkBack, h0, hb, hdec, orBroken]⟩

/-- Where there is no page before, one round settles the walk. -/
lemma walkBack_of_none (h : prevOf r page = none) :
    walkBack r v (n + 1) page acc = walkBack r v 1 page acc ∧
      walkBack r v 1 page acc ≠ .error .outOfFuel := by
  simp only [walkBack]
  split
  · exact ⟨rfl, by simp⟩
  · rename_i h0
    cases hb : r.readPage page with
    | error e => cases e <;> simp [orBroken]
    | ok b =>
      have hdec : CommitHeader.decode b = none := by simpa [prevOf, h0, hb] using h
      simp [orBroken, hdec]

/-- As long as there are pages before, the walk goes on. -/
lemma walkBack_outOfFuel (h : orbit (prevOf r) n page ≠ none) :
    walkBack r v n page acc = .error .outOfFuel := by
  induction n generalizing page acc with
  | zero => rfl
  | succ n ih =>
    cases hp : prevOf r page with
    | none => exact absurd (by rw [orbit_succ, hp]; rfl) h
    | some q =>
      obtain ⟨hd, hround⟩ := @walkBack_of_prevOf r v page q acc hp
      rw [hround]
      exact ih (by rwa [orbit_succ, hp] at h)

/-- Once there is none, the walk has settled. -/
lemma walkBack_settles (h : orbit (prevOf r) n page = none) (hnm : n ≤ m) :
    walkBack r v m page acc = walkBack r v n page acc ∧
      walkBack r v n page acc ≠ .error .outOfFuel := by
  induction n generalizing m page acc with
  | zero => cases h
  | succ n ih =>
    obtain ⟨m, rfl⟩ : ∃ k, m = k + 1 := ⟨m - 1, by omega⟩
    cases hp : prevOf r page with
    | none =>
      obtain ⟨hm, -⟩ := @walkBack_of_none r v m page acc hp
      obtain ⟨hn, hne⟩ := @walkBack_of_none r v n page acc hp
      rw [hm, hn]
      exact ⟨rfl, hne⟩
    | some q =>
      obtain ⟨hd, hround⟩ := @walkBack_of_prevOf r v page q acc hp
      rw [hround, hround]
      exact ih (by rwa [orbit_succ, hp] at h) (by omega)

lemma walkBack_mono {x : Result (List (ℕ × CommitHeader))} (h : walkBack r v n page acc = x)
    (hx : x ≠ .error .outOfFuel) (hnm : n ≤ m) : walkBack r v m page acc = x := by
  have hn : orbit (prevOf r) n page = none := by
    by_contra hn
    exact hx (h.symm.trans (walkBack_outOfFuel hn))
  rw [(walkBack_settles hn hnm).1, h]

lemma walkBack_panics :
    (∃ k e, walkBack r v k page acc = .error e ∧ e.IsPanic) ↔ RunsInto r page := by
  constructor
  · rintro ⟨k, e, hw, he⟩
    induction k generalizing page acc with
    | zero => cases hw; exact he.elim
    | succ k ih =>
      cases hp : prevOf r page with
      | some q =>
        obtain ⟨hd, hround⟩ := @walkBack_of_prevOf r v page q acc hp
        rw [hround] at hw
        obtain ⟨n, p, m, hn, h0, hm⟩ := ih hw
        exact ⟨n + 1, p, m, by rw [orbit_succ, hp]; exact hn, h0, hm⟩
      | none =>
        unfold walkBack at hw
        split at hw
        · cases hw
        · rename_i h0
          simp only [bind_eq_error, orBroken_eq_ok] at hw
          rcases hw with hw | ⟨b, hb, hw | ⟨hd, hdec, -⟩⟩
          · rcases orBroken_eq_error.1 hw with ⟨m, hm, rfl⟩ | ⟨-, -, -, rfl⟩
            · exact ⟨0, page, m, rfl, h0, hm⟩
            · exact he.elim
          · cases hdec : CommitHeader.decode b with
            | some hd => rw [hdec] at hw; cases hw
            | none => rw [hdec] at hw; cases hw; exact he.elim
          · rw [okOr_eq_ok] at hdec
            simp [prevOf, h0, hb, hdec] at hp
  · rintro ⟨n, q, m, hn, h0, hm⟩
    induction n generalizing page acc with
    | zero =>
      cases hn
      exact ⟨1, .panic m, by simp [walkBack, h0, hm, orBroken], trivial⟩
    | succ n ih =>
      rw [orbit_succ, Option.bind_eq_some_iff] at hn
      obtain ⟨p, hp, hn⟩ := hn
      obtain ⟨hd, hround⟩ := @walkBack_of_prevOf r v page p acc hp
      obtain ⟨k, e, hk, he⟩ := @ih p ((page, hd) :: acc) hn
      exact ⟨k + 1, e, by rw [hround, hk], he⟩

lemma walkBack_error {e : Error} (h : walkBack r v n page acc = .error e) :
    e = .outOfFuel ∨ e.IsBroken ∨ e.IsPanic := by
  induction n generalizing page acc with
  | zero => cases h; exact Or.inl rfl
  | succ n ih =>
    unfold walkBack at h
    split at h
    · cases h
    · simp only [bind_eq_error, orBroken_eq_ok] at h
      rcases h with h | ⟨b, -, h | ⟨hd, -, h⟩⟩
      · rcases orBroken_eq_error.1 h with ⟨m, -, rfl⟩ | ⟨-, -, -, rfl⟩
        · exact Or.inr (Or.inr trivial)
        · exact Or.inr (Or.inl trivial)
      · cases hdec : CommitHeader.decode b with
        | some hd => rw [hdec] at h; cases h
        | none => rw [hdec] at h; cases h; exact Or.inr (Or.inl trivial)
      · exact ih h

end Walk

section Audit
variable {sha : Sha256} {r : PageReader} {head : Head} {anchor : Option AuditAnchor} {fuel : ℕ}

lemma Error.IsBroken.ends {α : Type} {e : Error} (he : e.IsBroken) :
    Ends (.error e : Result α) :=
  ⟨by rintro rfl; exact he.elim, he.not_panic⟩

lemma checkSeen_error {seen : Bool} {e : Error} (h : checkSeen head anchor seen = .error e) :
    e.IsBroken := by
  cases anchor with
  | none => cases h
  | some a =>
    rw [checkSeen, require_eq_error] at h
    obtain ⟨-, rfl⟩ := h
    split <;> trivial

/-- The forward pass ends unless a debug check fires. -/
lemma forward_ends {hs : List (ℕ × CommitHeader)}
    (hw : walkBack r head.version fuel head.commit_page [] = .ok hs) :
    Ends (verifyAnchored sha fuel r head anchor) ↔
      ¬ TripsUnder sha r anchor (genesisChain sha r.fileId) (startVersion hs) hs := by
  rw [← @audit_panics sha r anchor ⟨genesisChain sha r.fileId, startVersion hs, false⟩ hs]
  cases hv : verifyAnchored sha fuel r head anchor with
  | ok rep =>
    rw [verifyAnchored, hw, ok_bind, bind_eq_ok] at hv
    obtain ⟨st, hf, -⟩ := hv
    simp [Ends, hf]
  | error e =>
    rw [verifyAnchored, hw, ok_bind] at hv
    simp only [bind_eq_error, require_eq_error] at hv
    rcases hv with hf | ⟨st, hf, ht⟩
    · rcases audit_error hf with hb | hp
      · refine iff_of_true hb.ends ?_
        rintro ⟨e', he', hp⟩
        cases hf.symm.trans he'
        exact hb.not_panic hp
      · exact iff_of_false (fun he => he.2 hp) fun hno => hno ⟨e, hf, hp⟩
    · have hb : e.IsBroken := by
        rcases ht with ⟨-, rfl⟩ | ⟨-, -, ⟨-, rfl⟩ | ⟨-, -, hs | ⟨_, -, ho⟩⟩⟩
        · trivial
        · trivial
        · exact checkSeen_error hs
        · cases ho
      refine iff_of_true hb.ends ?_
      rintro ⟨e', he', -⟩
      cases hf.symm.trans he'

/-- A walk that has not ended keeps the audit from ending, one that failed ends it so. -/
lemma verifyAnchored_of_error {e : Error}
    (hw : walkBack r head.version fuel head.commit_page [] = .error e) :
    verifyAnchored sha fuel r head anchor = .error e := by
  rw [verifyAnchored, hw, error_bind]

/-- The audit ends exactly on the files where the walk from the head never comes back to a page
and no debug check fires. -/
theorem audit_ends_iff :
    (∃ least, ∀ fuel ≥ least, Ends (verifyAnchored sha fuel r head anchor)) ↔
      ¬ ComesBack (prevOf r) head.commit_page ∧ ¬ RunsInto r head.commit_page ∧
        ∀ hs, Walk r head.commit_page hs →
          ¬ TripsUnder sha r anchor (genesisChain sha r.fileId) (startVersion hs) hs := by
  constructor
  · rintro ⟨least, hends⟩
    refine ⟨fun hback => ?_, fun hruns => ?_, fun hs hwalk htrips => ?_⟩
    · have hw := @walkBack_outOfFuel r head.version least _ [] (hback.orbit_ne_none least)
      have hend := hends least le_rfl
      rw [verifyAnchored_of_error hw] at hend
      exact hend.1 rfl
    · obtain ⟨k, e, hw, hp⟩ := (@walkBack_panics r head.version _ []).2 hruns
      have hne : (.error e : Result (List (ℕ × CommitHeader))) ≠ .error .outOfFuel := by
        rintro ⟨⟩
        exact hp
      have hend := hends (max k least) (le_max_right _ _)
      rw [verifyAnchored_of_error (walkBack_mono hw hne (le_max_left _ _))] at hend
      exact hend.2 hp
    · obtain ⟨k, hw⟩ := (@walkBack_eq_ok r head.version _ [] _).2 ⟨hs, hwalk, rfl⟩
      rw [List.append_nil] at hw
      have hlong := walkBack_mono hw (by simp) (le_max_left k least)
      exact (forward_ends hlong).1 (hends (max k least) (le_max_right _ _)) htrips
  · rintro ⟨hback, hruns, htrips⟩
    obtain ⟨n, hn⟩ := (orbit_ends_iff (finite_prevOf r)).2 hback
    refine ⟨n, fun fuel hfuel => ?_⟩
    obtain ⟨hsettled, hne⟩ := @walkBack_settles r head.version n fuel _ [] hn hfuel
    cases hw : walkBack r head.version fuel head.commit_page [] with
    | ok hs =>
      rw [forward_ends hw]
      obtain ⟨hs', hwalk, rfl⟩ := walkBack_eq_ok.1 ⟨fuel, hw⟩
      rw [List.append_nil]
      exact htrips hs' hwalk
    | error e =>
      rw [verifyAnchored_of_error hw]
      rw [← hsettled, hw] at hne
      rcases walkBack_error hw with rfl | hb | hp
      · exact absurd rfl hne
      · exact hb.ends
      · exact absurd (walkBack_panics.1 ⟨fuel, e, hw, hp⟩) hruns

end Audit

/-! ### A commit page that names itself as the one before -/

namespace LoopSample

open TamperSample

/-- The link before is no part of the chain hash, so the page keeps its hashes. -/
def selfLinked : CommitHeader := { header with prev_page := 4 }

def loopFile : PageLog :=
  ⟨fileId, [body, commitBody selfLinked], file.length_fileId, by decide +kernel⟩

lemma selfLinked_sized : selfLinked.Sized := { header_sized with prev_page := by decide }

lemma prevOf_selfLinked : prevOf loopFile.reader head.commit_page = some head.commit_page :=
  prevOf_eq_some.2 ⟨by decide, commitBody selfLinked, selfLinked, rfl,
    CommitHeader.decode_encodeInto selfLinked_sized nul_free zeroBody, rfl⟩

end LoopSample

/-- The audit of a file whose last commit names itself as the one before never ends. -/
theorem self_linked_never_ends :
    ¬ ∀ (sha : Sha256) (r : PageReader) (head : Head) (anchor : Option AuditAnchor),
      ∃ least, ∀ fuel ≥ least, Ends (verifyAnchored sha fuel r head anchor) := by
  intro hall
  obtain ⟨least, hends⟩ := hall .std LoopSample.loopFile.reader TamperSample.head none
  have hback : ComesBack (prevOf LoopSample.loopFile.reader) TamperSample.head.commit_page := by
    refine ⟨0, 1, TamperSample.head.commit_page, rfl, Nat.one_pos, ?_⟩
    rw [orbit_succ, LoopSample.prevOf_selfLinked]
    rfl
  have hw := @walkBack_outOfFuel _ TamperSample.head.version least _ [] (hback.orbit_ne_none least)
  have hend := hends least le_rfl
  rw [verifyAnchored_of_error hw] at hend
  exact hend.1 rfl

end Arkeion
