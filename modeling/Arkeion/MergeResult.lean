import Arkeion.StoreHistory

/-!
What a merge in a reachable store answers and leaves: conflicts or a version with the merged map;
and what the same merge does when it is made again.
-/

namespace Arkeion

open Arkeion.Lib Btree

/-! ### Between two versions -/

section Graph
variable {g : Versions} {b : String} {r : Rev} {u v c : ℕ}

lemma Versions.Ok.ancestor_commit (h : g.Ok) (hv : g.Known v) :
    Ancestor (g.commit b r).parentOf u v ↔ Ancestor g.parentOf u v := by
  induction v using Nat.strong_induction_on with
  | _ v ih =>
    have hsame := h.parentOf_commit (b := b) (r := r) hv
    cases hp : g.parentOf v with
    | none => rw [Ancestor.of_root hp, Ancestor.of_root (hsame.trans hp)]
    | some p =>
      obtain ⟨hknown, hlt⟩ := h.parentOf_known hv hp
      rw [Ancestor.of_parent hp, Ancestor.of_parent (hsame.trans hp), ih p hlt hknown]

/-- A new version has the merge bases of its parent. -/
lemma Versions.Ok.mergeBase_commit (h : g.Ok) (hu : g.Known u) (hv : g.Known v)
    (hr : r.parent = v) (hbase : IsMergeBase g.parentOf u v c) :
    IsMergeBase (g.commit b r).parentOf u (g.head + 1) c := by
  have hparent : (g.commit b r).parentOf (g.head + 1) = some v := by
    rw [Versions.parentOf, if_neg (Nat.succ_ne_zero _), Versions.rev_commit_self, ← hr]
    rfl
  refine IsMergeBase.of_parent hparent (fun ha => ?_) ⟨?_, ?_, fun d hd hd' => ?_⟩
  · have hle := (h.ancestor_known hu ((h.ancestor_commit hu).1 ha)).2
    have := h.known_le hu
    omega
  · exact (h.ancestor_commit hu).2 hbase.left
  · exact (h.ancestor_commit hv).2 hbase.right
  · have hc := (h.ancestor_known hu hbase.left).1
    exact (h.ancestor_commit hc).2
      (hbase.nearest d ((h.ancestor_commit hu).1 hd) ((h.ancestor_commit hv).1 hd'))

end Graph

/-! ### The result of a merge -/

/-- A key that two versions brought from their base to different states. -/
def Versions.ClashesAt (g : Versions) (c vf vi : ℕ) (key : Bytes) : Prop :=
  Clashes key (valueOf key (g.entries c)) (valueOf key (g.entries vf)) (valueOf key (g.entries vi))

/-- After a merge the branch has the merged map, in a version behind its old head if it is a new
one; nothing else has changed. -/
structure Merged (w w' : World) (dst : String) (c vf vi : ℕ) (report : Store.MergeReport) :
    Prop where
  head : w'.versions.branch dst = some report.version
  map : ∀ key, Merges key (valueOf key (w.versions.entries c)) (valueOf key (w.versions.entries vf))
    (valueOf key (w.versions.entries vi)) (valueOf key (w'.versions.entries report.version))
  parent : report.version = vi ∨ w.versions.rev report.version = none ∧
    ∃ r, w'.versions.rev report.version = some r ∧ r.parent = vi
  branches : ∀ b, b ≠ dst → w'.versions.refs b = w.versions.refs b
  versions : ∀ v r, w.versions.rev v = some r → w'.versions.rev v = some r

/-- What a merge is to do: it answers the conflicts and changes nothing if there are any, and
merges otherwise. A panic is no answer. -/
structure MergeCorrect (sha : Sha256) (n : ℕ) (e : Engine) (w : World) (src dst : String)
    (now c vf vi : ℕ) : Prop where
  conflict : (∃ key, w.versions.ClashesAt c vf vi key) → ∃ cs,
    e.step sha n (.merge src dst now) = some (.error (.conflict cs), e) ∧
    (cs.Pairwise fun x y => x.key < y.key) ∧
    ∀ x, x ∈ cs ↔ w.versions.ClashesAt c vf vi x.key ∧
      x.fromState = valueOf x.key (w.versions.entries vf) ∧
      x.intoState = valueOf x.key (w.versions.entries vi)
  merged : (∀ key, ¬ w.versions.ClashesAt c vf vi key) → ∀ answer e',
    e.step sha n (.merge src dst now) = some (answer, e') →
    (∃ err, answer = .error err ∧ Refused TxStore err) ∨ ∃ report w',
      answer = .ok (.merged report) ∧ e'.Reads n w' ∧ Merged w w' dst c vf vi report

/-- The run leads to a store with versions in which the merge of the two branches is correct. -/
def MergeRight (sha : Sha256) (n : ℕ) (pager : PageLog) (ops : List StoreOp) (src dst : String)
    (now : ℕ) : Prop :=
  ∀ answers e, Engine.run sha n ops (.create sha pager) = some (answers, e) → e.tx = none →
    ∃ w, World.Run World.Next .genesis ops answers w ∧ e.Reads n w ∧ ∀ vf vi,
      w.versions.branch src = some vf → w.versions.branch dst = some vi →
      ∃ c, IsMergeBase w.versions.parentOf vf vi c ∧ MergeCorrect sha n e w src dst now c vf vi

namespace Engine
section Merge
variable {k n now c vf vi : ℕ} {e : Engine} {w : World} {roots : ℕ → ℕ} {mkvs : Entries}
  {sha : Sha256} {src dst : String}

/-- The plan has a conflict for each key that clashes. -/
lemma conflicts_iff (h : e.Shows k w roots mkvs) (hm : MergeOf w.versions src dst vf vi c)
    (x : MergeConflict) : x ∈ (w.versions.plan vf vi c).2 ↔ w.versions.ClashesAt c vf vi x.key ∧
      x.fromState = valueOf x.key (w.versions.entries vf) ∧
      x.intoState = valueOf x.key (w.versions.entries vi) := by
  have hf := h.store.ok.known_of_refs hm.src
  have hi := h.store.ok.known_of_refs hm.dst
  have hc := (h.store.ok.ancestor_known hf hm.base.left).1
  exact mem_conflicts (h.store.sorted hc) (h.store.sorted hf) (h.store.sorted hi) x

lemma noConflict_iff (h : e.Shows k w roots mkvs) (hm : MergeOf w.versions src dst vf vi c) :
    (w.versions.plan vf vi c).2 = [] ↔ ∀ key, ¬ w.versions.ClashesAt c vf vi key := by
  rw [List.eq_nil_iff_forall_not_mem]
  constructor
  · intro hno key hkey
    exact hno ⟨key, valueOf key _, valueOf key _⟩ ((conflicts_iff h hm _).2 ⟨hkey, rfl, rfl⟩)
  · intro hno x hx
    exact hno x.key ((conflicts_iff h hm x).1 hx).1

lemma mergeOf_unique {vf' vi' c' : ℕ} (h : e.Shows k w roots mkvs)
    (hm : MergeOf w.versions src dst vf vi c) (hm' : MergeOf w.versions src dst vf' vi' c') :
    vf' = vf ∧ vi' = vi ∧ c' = c := by
  obtain rfl : vf' = vf := Option.some.inj (hm'.src.symm.trans hm.src)
  obtain rfl : vi' = vi := Option.some.inj (hm'.dst.symm.trans hm.dst)
  exact ⟨rfl, rfl, h.store.ok.base_unique (h.store.ok.known_of_refs hm.src) hm'.base hm.base⟩

/-- A merge without conflicts is refused, has nothing to do, or makes the version of the plan. -/
lemma Shows.next_merge {w' : World} {answer : Result Answer} (h : e.Shows k w roots mkvs)
    (hview : w.view = none) (hm : MergeOf w.versions src dst vf vi c)
    (hno : (w.versions.plan vf vi c).2 = []) (hnext : w.Next (.merge src dst now) answer w') :
    (∃ err, answer = .error err ∧ Refused TxStore err) ∨
    ((w.versions.plan vf vi c).1 = [] ∧ answer = .ok (.merged ⟨vi, 0⟩) ∧ w' = w) ∨
    ((w.versions.plan vf vi c).1 ≠ [] ∧
      answer = .ok (.merged ⟨w.versions.head + 1, (w.versions.plan vf vi c).1.length⟩) ∧
      w' = { w with versions := w.versions.commit dst (w.versions.mergeRev vf vi c now) }) := by
  cases hnext with
  | merge _ hm' _ hp =>
    obtain ⟨rfl, rfl, rfl⟩ := mergeOf_unique h hm hm'
    exact Or.inr (Or.inr ⟨hp, rfl, rfl⟩)
  | mergeNothing _ hm' _ hp =>
    obtain ⟨rfl, rfl, rfl⟩ := mergeOf_unique h hm hm'
    exact Or.inr (Or.inl ⟨hp, rfl, rfl⟩)
  | failed hf =>
    cases hf with
    | mergeBusy hsome =>
      rw [hview] at hsome
      cases hsome
    | mergeBranch hb hnone =>
      rcases hb with rfl | rfl
      · rw [hm.src] at hnone
        cases hnone
      · rw [hm.dst] at hnone
        cases hnone
    | conflict hm' hp =>
      obtain ⟨rfl, rfl, rfl⟩ := mergeOf_unique h hm hm'
      exact absurd hno hp
    | refused hr => exact Or.inl ⟨_, rfl, hr⟩

/-- With refs for both branches a merge is correct. -/
theorem Shows.mergeCorrect (h : e.Shows k w roots mkvs) (hview : w.view = none)
    (hm : MergeOf w.versions src dst vf vi c) (hnow : now < 2 ^ 64)
    (hn : 2 * (3 * k + 34) + 2 ≤ n) : MergeCorrect sha n e w src dst now c vf vi := by
  obtain ⟨hheld, htx⟩ := h.view_none hview
  have hf := h.store.ok.known_of_refs hm.src
  have hi := h.store.ok.known_of_refs hm.dst
  have hc := (h.store.ok.ancestor_known hf hm.base.left).1
  have hmap := merges_plan (h.store.sorted hc) (h.store.sorted hf) (h.store.sorted hi)
  refine ⟨?_, fun hno answer e' hstep => ?_⟩
  · rintro ⟨key, hkey⟩
    have hne : (w.versions.plan vf vi c).2 ≠ [] := fun hnil => (noConflict_iff h hm).1 hnil key hkey
    refine ⟨_, ?_, conflicts_sorted (h.store.sorted hc) (h.store.sorted hf), conflicts_iff h hm⟩
    change some (e.settle (.merge src dst now) (e.execStore sha n (.merge src dst now))) = _
    rw [execStore, h.store.merge_conflict hm (by omega) hheld hne]
    rfl
  obtain ⟨w', hnext, roots', mkvs', hshows⟩ := @Shows.step _ _ _ _ _ _ _ (.merge src dst now) _ h hnow trivial hn
    hstep
  have hreads : e'.Reads n w' := hshows.reads (show 3 * k + 34 + 2 ≤ n by omega)
  rcases h.next_merge hview hm ((noConflict_iff h hm).2 hno) hnext with hr | ⟨hp, rfl, rfl⟩ |
      ⟨-, rfl, rfl⟩
  · exact Or.inl hr
  · refine Or.inr ⟨_, w', rfl, hreads, ?_, fun key => ?_, Or.inl rfl, fun _ _ => rfl,
      fun _ _ hr => hr⟩
    · rw [Versions.branch, hm.dst]
      rfl
    · have hkey := hmap key
      rwa [show (planOf _ _ _).1 = [] from hp] at hkey
  · have hnone : w.versions.rev (w.versions.head + 1) = none := by
      cases hrev : w.versions.rev (w.versions.head + 1) with
      | none => rfl
      | some r => exact absurd (h.store.ok.rev_le _ _ hrev) (by omega)
    refine Or.inr ⟨_, _, rfl, hreads, ?_, fun key => ?_,
      Or.inr ⟨hnone, _, Versions.rev_commit_self, rfl⟩, fun b hb => ?_, fun v r hr => ?_⟩
    · rw [Versions.branch, Versions.refs_commit_self]
      rfl
    · rw [Versions.entries_of_rev Versions.rev_commit_self]
      exact hmap key
    · rw [Versions.refs_commit, if_neg hb]
    · exact (h.store.ok.rev_commit (Or.inr (by rw [hr]; rfl))).trans hr

/-- Without a ref for one of them it is not: the branch is not found. -/
lemma Shows.merge_noRef (h : e.Shows k w roots mkvs) (hview : w.view = none)
    (hno : w.versions.refs src = none ∨ w.versions.refs dst = none) (hn : k ≤ n) :
    ¬ MergeCorrect sha n e w src dst now c vf vi := by
  intro hcorrect
  obtain ⟨b, -, -, hmerge⟩ := @Represents.merge_no_ref _ n now _ _ _ _ src dst sha h.store hn
    (h.view_none hview).1 hno
  have hstep : e.step sha n (.merge src dst now) = some (.error (.branchNotFound b), e) := by
    change some (e.settle (.merge src dst now) (e.execStore sha n (.merge src dst now))) = _
    rw [execStore, hmerge]
    rfl
  by_cases hkey : ∃ key, w.versions.ClashesAt c vf vi key
  · obtain ⟨cs, hcs, -⟩ := hcorrect.conflict hkey
    rw [hstep] at hcs
    cases hcs
  · rcases hcorrect.merged (not_exists.1 hkey) _ _ hstep with ⟨err, herr, hr⟩ | ⟨report, w', hok, -⟩
    · cases herr
      exact refused_isPanic hr
    · cases hok

lemma Shows.exists_base (h : e.Shows k w roots mkvs) (hsrc : w.versions.branch src = some vf)
    (hdst : w.versions.branch dst = some vi) : ∃ c, IsMergeBase w.versions.parentOf vf vi c := by
  obtain ⟨c, -, hbase⟩ := h.store.indexed.mergeBase_eq (n := k + 1) le_rfl (h.store.ok.branch_known hsrc)
    (h.store.ok.branch_known hdst)
  exact ⟨c, hbase⟩

end Merge
end Engine

/-! ### In every reachable store -/

namespace BranchWithoutRef

/-- A branch is made before the first version of the main branch. -/
def ops : List StoreOp := [.createBranch "dev" .head 1]

/-- The heads of the two branches, and what the merge of them answers. -/
structure Seen where
  dev : Result ℕ
  main : Result ℕ
  open_tx : Bool
  answer : Result Answer
  deriving DecidableEq

def seen : Option (Seen × Engine) := do
  let (_, e) ← Engine.run .std 400 ops (.create .std noPages)
  let (answer, _) ← e.step .std 400 (.merge "dev" "main" 2)
  some (⟨(e.store.snapshotOn 400 "dev").map Snapshot.version,
    (e.store.snapshotOn 400 "main").map Snapshot.version, e.tx.isSome, answer⟩, e)

lemma seen_eq : seen.map Prod.fst
    = some ⟨.ok 1, .ok 0, false, .error (.branchNotFound "main")⟩ := by
  decide +kernel

end BranchWithoutRef

/-! ### Merging again -/

section Again

/-- A key that was merged without a conflict is merged again: it is in none, and it is planned
only if it counts, and the branch merged from changed it and has it. -/
lemma merges_again {key : Bytes} {base src dst state : Option Bytes}
    (hno : ¬ Clashes key base src dst) (hstate : Merges key base src dst state) :
    ¬ Clashes key base src state ∧
      (base = src ∨ base ≠ state ∧ ¬ BothCount key src state ↔
        (Store.isCounterKey key = true → base ≠ src → src = none)) := by
  by_cases hsrc : base = src
  · exact ⟨fun h => h.1 hsrc, iff_of_true (Or.inl hsrc) fun _ h => absurd hsrc h⟩
  -- after the merge the state is the one merged from, or a counter
  have hcases : state = src ∨ BothCount key src state := by
    by_cases hdst : base = dst
    · exact Or.inl (hstate.1 hsrc hdst)
    · by_cases hboth : BothCount key src dst
      · refine Or.inr ⟨hboth.1, hboth.2.1, ?_⟩
        rw [hstate.2.1 hsrc hdst hboth]
        rfl
      · have heq : src = dst := by
          by_contra hne
          exact hno ⟨hsrc, hdst, hne, hboth⟩
        rw [hstate.2.2 (Or.inr ⟨hdst, hboth⟩)]
        exact Or.inl heq.symm
  refine ⟨fun h => ?_, ?_⟩
  · rcases hcases with heq | hboth
    · exact h.2.2.1 heq.symm
    · exact h.2.2.2 hboth
  rw [or_iff_right hsrc]
  constructor
  · rintro ⟨-, hboth⟩ hcount -
    by_contra hsome
    rcases hcases with rfl | hcounted
    · have := Option.isSome_iff_ne_none.2 hsome
      exact hboth ⟨hcount, this, this⟩
    · exact hboth hcounted
  · intro hnone
    have hboth : ¬ BothCount key src state := fun h => by
      have hsome := h.2.1
      rw [hnone h.1 hsrc] at hsome
      cases hsome
    rw [hcases.resolve_right hboth]
    exact ⟨hsrc, hcases.resolve_right hboth ▸ hboth⟩

variable {base src dst : Entries}

lemma plan_again (hb : SortedMap base) (hs : SortedMap src) (hd : SortedMap dst)
    (hno : (planOf base src dst).2 = []) :
    (planOf base src (patch dst (planOf base src dst).1)).2 = [] ∧
    ((planOf base src (patch dst (planOf base src dst).1)).1 = [] ↔ ∀ key,
      Store.isCounterKey key = true → valueOf key base ≠ valueOf key src →
      valueOf key src = none) := by
  set dst' := patch dst (planOf base src dst).1 with hdst'
  have hd' : SortedMap dst' := hd.patch
  have hagain (key : Bytes) := @merges_again key (valueOf key base) (valueOf key src)
    (valueOf key dst) (valueOf key dst') (fun hclash => by
      have hmem := (mem_conflicts hb hs hd ⟨key, valueOf key src, valueOf key dst⟩).2
        ⟨hclash, rfl, rfl⟩
      rw [hno] at hmem
      cases hmem) (merges_plan hb hs hd key)
  constructor
  · rw [List.eq_nil_iff_forall_not_mem]
    intro x hx
    exact (hagain x.key).1 ((mem_conflicts hb hs hd' x).1 hx).1
  · have hnil : (planOf base src dst').1 = [] ↔ ∀ key, valueOf key (planOf base src dst').1 = none := by
      constructor
      · intro hnil key
        rw [hnil]
        rfl
      · intro hnone
        rw [List.eq_nil_iff_forall_not_mem]
        intro p hp
        have hsome := valueOf_isSome_of_mem hp
        rw [hnone] at hsome
        cases hsome
    rw [hnil]
    refine forall_congr' fun key => ?_
    rw [← (hagain key).2, valueOf_plan hb hs hd']
    split_ifs with hsrc hdst hboth
    · exact iff_of_true rfl (Or.inl hsrc)
    · exact iff_of_false (by simp) fun h => h.elim hsrc fun h => h.1 hdst
    · exact iff_of_false (by simp) fun h => h.elim hsrc fun h => h.2 hboth
    · exact iff_of_true rfl (Or.inr ⟨hdst, hboth⟩)

end Again

namespace Engine
section Again
variable {k n now c vf vi : ℕ} {e : Engine} {w : World} {roots : ℕ → ℕ} {mkvs : Entries}
  {sha : Sha256} {src dst : String}

/-- A merge without conflicts makes no version if and only if there is nothing to apply. -/
lemma Shows.merge_idle (h : e.Shows k w roots mkvs) (hview : w.view = none)
    (hm : MergeOf w.versions src dst vf vi c) (hno : (w.versions.plan vf vi c).2 = [])
    (hnow : now < 2 ^ 64) (hn : 2 * (3 * k + 34) + 2 ≤ n) :
    (∃ v, e.step sha n (.merge src dst now) = some (.ok (.merged ⟨v, 0⟩), e)) ↔
      (w.versions.plan vf vi c).1 = [] := by
  constructor
  · rintro ⟨v, hstep⟩
    obtain ⟨w', hnext, -⟩ := @Shows.step _ _ _ _ _ _ _ (.merge src dst now) _ h hnow trivial hn hstep
    rcases h.next_merge hview hm hno hnext with ⟨err, herr, -⟩ | ⟨hp, -⟩ | ⟨-, hanswer, -⟩
    · cases herr
    · exact hp
    · simp only [Except.ok.injEq, Answer.merged.injEq, Store.MergeReport.mk.injEq] at hanswer
      exact List.eq_nil_of_length_eq_zero hanswer.2.symm
  · intro hp
    refine ⟨vi, ?_⟩
    change some (e.settle (.merge src dst now) (e.execStore sha n (.merge src dst now))) = _
    rw [execStore, h.store.merge_nothing hm (by omega) (h.view_none hview).1 hno hp]
    rfl

/-- After a merge the two branches have the same merge base, and the map of the one merged into is
the merged one. -/
lemma Shows.after_merge {e' : Engine} {report : Store.MergeReport} (h : e.Shows k w roots mkvs)
    (hnow : now < 2 ^ 64) (hn : 2 * (3 * k + 34) + 2 ≤ n)
    (hstep : e.step sha n (.merge src dst now) = some (.ok (.merged report), e')) :
    ∃ w' vf vi vi' c roots' mkvs', MergeOf w.versions src dst vf vi c ∧
      (w.versions.plan vf vi c).2 = [] ∧ e'.Shows (3 * k + 34) w' roots' mkvs' ∧ w'.view = none ∧
      MergeOf w'.versions src dst vf vi' c ∧ w'.versions.plan vf vi' c
        = planOf (w.versions.entries c) (w.versions.entries vf)
          (patch (w.versions.entries vi) (w.versions.plan vf vi c).1) := by
  obtain ⟨w', hnext, roots', mkvs', hshows⟩ := @Shows.step _ _ _ _ _ _ _ (.merge src dst now) _ h hnow trivial hn
    hstep
  generalize hanswer : (Except.ok (Answer.merged report) : Result Answer) = answer at hnext
  cases hnext with
  | failed => cases hanswer
  | @mergeNothing _ _ _ vf vi c hview hm hno hp =>
    refine ⟨w, vf, vi, vi, c, roots', mkvs', hm, hno, hshows, hview, hm, ?_⟩
    rw [hp]
    rfl
  | @merge _ _ _ vf vi c hview hm hno hp =>
    have hf := h.store.ok.known_of_refs hm.src
    have hi := h.store.ok.known_of_refs hm.dst
    have hc := (h.store.ok.ancestor_known hf hm.base.left).1
    have hne : src ≠ dst := by
      rintro rfl
      have heq : vf = vi := Option.some.inj (hm.src.symm.trans hm.dst)
      subst heq
      have hbase := h.store.ok.base_unique hf hm.base (.self vf)
      subst hbase
      apply hp
      rw [Versions.plan, planOf, planMerge_eq, diffMaps_self (h.store.sorted hf)]
      rfl
    refine ⟨_, vf, vi, w.versions.head + 1, c, roots', mkvs', hm, hno, hshows, hview, ⟨?_, ?_, ?_⟩, ?_⟩
    · exact (Versions.refs_commit src).trans (by rw [if_neg hne, hm.src])
    · exact Versions.refs_commit_self
    · exact h.store.ok.mergeBase_commit hf hi rfl hm.base
    · rw [Versions.plan, h.store.ok.entries_commit hc, h.store.ok.entries_commit hf,
        Versions.entries_of_rev Versions.rev_commit_self]
      rfl

end Again
end Engine

/-- A merge that answered has no effect when it is made again. -/
def MergeIdle (sha : Sha256) (n : ℕ) (pager : PageLog) (ops : List StoreOp) (src dst : String)
    (now now' : ℕ) : Prop :=
  ∀ answers e report e', Engine.run sha n ops (.create sha pager) = some (answers, e) →
    e.step sha n (.merge src dst now) = some (.ok (.merged report), e') →
    ∃ v, e'.step sha n (.merge src dst now') = some (.ok (.merged ⟨v, 0⟩), e')

namespace CountedTwice

/-- The key of a counter. -/
def counter : Bytes := counterKey 1

/-- A counter on the main branch, and a branch that begins before it. -/
def ops : List StoreOp :=
  [.beginOn "main", .put counter (i64Bytes 1), .commit 1, .createBranch "dev" (.version 0) 2]

def seen : Option (List (Result Answer) × Engine × Engine) := do
  let (_, e) ← Engine.run .std 400 ops (.create .std noPages)
  let (first, e') ← e.step .std 400 (.merge "main" "dev" 3)
  let (again, _) ← e'.step .std 400 (.merge "main" "dev" 4)
  some ([first, again], e, e')

lemma seen_eq : seen.map Prod.fst
    = some [.ok (.merged ⟨3, 1⟩), .ok (.merged ⟨4, 1⟩)] := by
  decide +kernel

end CountedTwice

end Arkeion
