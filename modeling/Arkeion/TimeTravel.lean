import Arkeion.VersionMerge
import Arkeion.StoreHistory

/-!
Reading a branch at an earlier point of its history: only versions of its own line are read, by the
parents the store records.
-/

namespace Arkeion

open Arkeion.Lib Btree

namespace Store

section Walk
variable (n : ℕ) (pager : PageLog) (meta_root : ℕ)

/-- The loop of `is_ancestor`. -/
def isAncestor (target : ℕ) : ℕ → ℕ → Result Bool
  | 0, _ => .error .outOfFuel
  | k + 1, v =>
    if v = 0 then .ok (target == 0)
    else if v = target then .ok true
    else do
      let parent ← readParentVersion n pager meta_root v
      isAncestor target k parent

/-- The walk to the first version that is not after the time; behind the last one is genesis. -/
def walkToTime (ms : ℕ) : ℕ → ℕ → Result Snapshot
  | 0, _ => .error .outOfFuel
  | k + 1, v =>
    if v = 0 then .ok ⟨pager, 0, GENESIS_ROOT⟩
    else do
      let (data_root, ts, parent) ← readHist n pager meta_root v
      if ts ≤ ms then .ok ⟨pager, v, data_root⟩ else walkToTime ms k parent

end Walk

/-- `snapshot_at_on` -/
def snapshotAtOn (n : ℕ) (s : Store) (branch : String) (at_ : AsOf) : Result Snapshot := do
  let bh ← resolveBranchHead n s branch
  match at_ with
  | .head => .ok ⟨s.pager, bh.version, bh.data_root⟩
  | .version v =>
    if v = bh.version then .ok ⟨s.pager, bh.version, bh.data_root⟩
    else if bh.version < v then .error (.versionNotFound (.version v))
    else do
      let found ← isAncestor n s.pager s.head.meta_root v n bh.version
      require (found = true) (.versionNotFound (.version v))
      if v = 0 then .ok s.genesisSnapshot
      else do
        let data_root ← readDataRoot n s.pager s.head.meta_root v
        .ok ⟨s.pager, v, data_root⟩
  | .timestamp ms => walkToTime n s.pager s.head.meta_root ms n bh.version

end Store

/-! ### What is to hold -/

namespace Versions
variable (g : Versions) (head t : ℕ)

/-- All versions of the line of a head are after the time. -/
def AllAfter : Prop := ∀ v r, Ancestor g.parentOf v head → g.rev v = some r → t < r.time

/-- The last version of the line that is not after the time. -/
structure NewestAt (v : ℕ) : Prop where
  onLine : Ancestor g.parentOf v head
  inTime : ∃ r, g.rev v = some r ∧ r.time ≤ t
  newest : ∀ u r, Ancestor g.parentOf u head → g.rev u = some r → r.time ≤ t → u ≤ v

end Versions

/-- A branch is read at the versions of its line and at no others: at a time, at the last of them
that is not after it. Before all of them it is empty. -/
structure Store.TravelsOn (n : ℕ) (s : Store) (g : Versions) (b : String) (head : ℕ) : Prop where
  version : ∀ v, (∃ snap, s.snapshotAtOn n b (.version v) = .ok snap)
    ↔ v = 0 ∨ ((g.rev v).isSome ∧ Ancestor g.parentOf v head)
  versionMap : ∀ v snap, s.snapshotAtOn n b (.version v) = .ok snap →
    snap.version = v ∧ ReadsMap n snap (g.entries v)
  timestamp : ∀ t v, g.NewestAt head t v → ∃ snap, s.snapshotAtOn n b (.timestamp t) = .ok snap
    ∧ snap.version = v ∧ ReadsMap n snap (g.entries v)
  beforeAll : ∀ t, g.AllAfter head t → ∃ snap, s.snapshotAtOn n b (.timestamp t) = .ok snap
    ∧ snap.version = 0 ∧ ReadsMap n snap []

/-- After the rest of the run nothing is read of a branch before all its versions, if the rest took
versions from its line. -/
def LostIsError (sha : Sha256) (n : ℕ) (pager : PageLog) (ops₁ ops₂ : List StoreOp) : Prop :=
  ∀ answers₁ e₁ answers₂ e₂, Engine.run sha n ops₁ (.create sha pager) = some (answers₁, e₁) →
    Engine.run sha n ops₂ e₁ = some (answers₂, e₂) → ∃ w₁ w₂,
      World.Run World.Next .genesis ops₁ answers₁ w₁ ∧ World.Run World.Next w₁ ops₂ answers₂ w₂ ∧
      e₁.Reads n w₁ ∧ e₂.Reads n w₂ ∧ ∀ b h₁ h₂ t, w₁.versions.branch b = some h₁ →
        w₂.versions.branch b = some h₂ →
        (∃ v, 0 < v ∧ Ancestor w₁.versions.parentOf v h₁ ∧ w₂.versions.rev v = none) →
        w₂.versions.AllAfter h₂ t → ∃ err, e₂.store.snapshotAtOn n b (.timestamp t) = .error err

/-! ### The walks -/

section Walks
variable {k n m v w t target : ℕ} {s : Store} {g : Versions} {roots : ℕ → ℕ} {mkvs : Entries}
  {b : String}

/-- Each version but the first one has its parent, known and before it. -/
lemma Versions.Ok.parent (h : g.Ok) (hv : g.Known v) (hzero : v ≠ 0) :
    ∃ p r, g.rev v = some r ∧ r.parent = p ∧ g.parentOf v = some p ∧ g.Known p ∧ p < v := by
  obtain ⟨r, hr⟩ := Option.isSome_iff_exists.1 (hv.resolve_left hzero)
  have hp : g.parentOf v = some r.parent := by
    rw [Versions.parentOf, if_neg hzero, hr]
    rfl
  obtain ⟨hknown, hlt⟩ := h.parentOf_known hv hp
  exact ⟨_, r, hr, rfl, hp, hknown, hlt⟩

lemma Represents.isAncestor_eq (h : Represents k s g roots mkvs) (hn : k ≤ n) (hm : v < m)
    (hv : g.Known v) (target : ℕ) :
    ∃ found, Store.isAncestor n s.pager s.head.meta_root target m v = .ok found
      ∧ (found = true ↔ Ancestor g.parentOf target v) := by
  induction m generalizing v with
  | zero => omega
  | succ m ih =>
    rw [Store.isAncestor]
    by_cases hzero : v = 0
    · rw [if_pos hzero, hzero]
      refine ⟨_, rfl, ?_⟩
      rw [Ancestor.of_root (Versions.parentOf_eq_none.2 rfl), beq_iff_eq]
    · rw [if_neg hzero]
      by_cases htarget : v = target
      · rw [if_pos htarget, htarget]
        exact ⟨true, rfl, iff_of_true rfl (Ancestor.refl target)⟩
      · obtain ⟨p, -, -, -, hp, hknown, hlt⟩ := h.ok.parent hv hzero
        obtain ⟨found, hfound, hiff⟩ := ih (by omega) hknown
        rw [if_neg htarget, h.indexed.readParentVersion_eq hn hv, ok_bind, hp, Option.getD_some]
        refine ⟨found, hfound, ?_⟩
        rw [hiff, Ancestor.of_parent hp]
        exact (or_iff_right (Ne.symm htarget)).symm

/-- The walk ends at the newest version in time, or behind them all. -/
lemma Represents.walkToTime_eq (h : Represents k s g roots mkvs) (hn : k ≤ n) (hm : v < m)
    (hv : g.Known v) (t : ℕ) :
    (∃ u, g.NewestAt v t u ∧ g.Known u
      ∧ Store.walkToTime n s.pager s.head.meta_root t m v = .ok ⟨s.pager, u, roots u⟩)
    ∨ (g.AllAfter v t
      ∧ Store.walkToTime n s.pager s.head.meta_root t m v = .ok ⟨s.pager, 0, roots 0⟩) := by
  induction m generalizing v with
  | zero => omega
  | succ m ih =>
    rw [Store.walkToTime]
    by_cases hzero : v = 0
    · rw [if_pos hzero]
      refine Or.inr ⟨fun u r hu hr => ?_, by rw [h.zero]⟩
      rw [hzero, Ancestor.of_root (Versions.parentOf_eq_none.2 rfl)] at hu
      rw [hu, h.ok.rev_zero] at hr
      cases hr
    · obtain ⟨p, r, hr, rfl, hp, hknown, hlt⟩ := h.ok.parent hv hzero
      rw [if_neg hzero, h.readHist_eq hn hr, ok_bind]
      dsimp only
      by_cases htime : r.time ≤ t
      · rw [if_pos htime]
        refine Or.inl ⟨v, ⟨.refl v, ⟨r, hr, htime⟩, fun u r' hu _ _ => ?_⟩, hv, rfl⟩
        exact (h.ok.ancestor_known hv hu).2
      · rw [if_neg htime]
        rcases ih (by omega) hknown with ⟨u, hu, hku, hwalk⟩ | ⟨hafter, hwalk⟩
        · refine Or.inl ⟨u, ⟨(Ancestor.of_parent hp).2 (Or.inr hu.onLine), hu.inTime, ?_⟩, hku, hwalk⟩
          intro x r' hx hr' htime'
          rcases (Ancestor.of_parent hp).1 hx with rfl | hx
          · rw [hr] at hr'
            cases hr'
            exact absurd htime' htime
          · exact hu.newest x r' hx hr' htime'
        · refine Or.inr ⟨fun x r' hx hr' => ?_, hwalk⟩
          rcases (Ancestor.of_parent hp).1 hx with rfl | hx
          · rw [hr] at hr'
            cases hr'
            exact not_le.1 htime
          · exact hafter x r' hx hr'

lemma Represents.snapshotAtOn_version (h : Represents k s g roots mkvs) (hn : k < n)
    (hb : g.branch b = some w) (hv : g.Known v) (ha : Ancestor g.parentOf v w) :
    s.snapshotAtOn n b (.version v) = .ok ⟨s.pager, v, roots v⟩ := by
  have hw := h.ok.branch_known hb
  have hlt : w < n := ((h.ok.known_le hw).trans h.head_le).trans_lt hn
  obtain ⟨page, hhead, -⟩ := h.resolveBranchHead_eq (n := n) hn.le hb
  obtain ⟨found, hfound, hiff⟩ := h.isAncestor_eq hn.le hlt hw v
  rw [Store.snapshotAtOn, hhead, ok_bind]
  dsimp only
  by_cases hself : v = w
  · rw [if_pos hself, hself]
  · rw [if_neg hself, if_neg (not_lt.2 (h.ok.ancestor_known hw ha).2), hfound, ok_bind,
      require_pos (hiff.2 ha), ok_bind]
    by_cases hzero : v = 0
    · rw [if_pos hzero, Store.genesisSnapshot, hzero, h.zero]
    · rw [if_neg hzero, h.readDataRoot_eq hn.le hv, ok_bind]

/-- What is not on the line is not found. -/
lemma Represents.snapshotAtOn_none (h : Represents k s g roots mkvs) (hn : k < n)
    (hb : g.branch b = some w) (ha : ¬ Ancestor g.parentOf v w) :
    s.snapshotAtOn n b (.version v) = .error (.versionNotFound (.version v)) := by
  have hw := h.ok.branch_known hb
  have hlt : w < n := ((h.ok.known_le hw).trans h.head_le).trans_lt hn
  obtain ⟨page, hhead, -⟩ := h.resolveBranchHead_eq (n := n) hn.le hb
  obtain ⟨found, hfound, hiff⟩ := h.isAncestor_eq hn.le hlt hw v
  have hself : v ≠ w := by
    rintro rfl
    exact ha (Ancestor.refl v)
  rw [Store.snapshotAtOn, hhead, ok_bind]
  dsimp only
  rw [if_neg hself]
  by_cases hlater : w < v
  · rw [if_pos hlater]
  · rw [if_neg hlater, hfound, ok_bind, require, if_neg fun hf => ha (hiff.1 hf)]
    rfl

lemma Represents.snapshotAtOn_time (h : Represents k s g roots mkvs) (hn : k < n)
    (hb : g.branch b = some w) (t : ℕ) :
    (∃ u, g.NewestAt w t u ∧ g.Known u
      ∧ s.snapshotAtOn n b (.timestamp t) = .ok ⟨s.pager, u, roots u⟩)
    ∨ (g.AllAfter w t ∧ s.snapshotAtOn n b (.timestamp t) = .ok ⟨s.pager, 0, roots 0⟩) := by
  have hw := h.ok.branch_known hb
  have hlt : w < n := ((h.ok.known_le hw).trans h.head_le).trans_lt hn
  obtain ⟨page, hhead, -⟩ := h.resolveBranchHead_eq (n := n) hn.le hb
  have heq : s.snapshotAtOn n b (.timestamp t)
      = Store.walkToTime n s.pager s.head.meta_root t n w := by
    rw [Store.snapshotAtOn, hhead, ok_bind]
  rw [heq]
  exact h.walkToTime_eq hn.le hlt hw t

lemma Versions.NewestAt.unique {u : ℕ} (h : g.NewestAt w t u) (h' : g.NewestAt w t v) : u = v := by
  obtain ⟨r, hr, htime⟩ := h.inTime
  obtain ⟨r', hr', htime'⟩ := h'.inTime
  exact le_antisymm (h'.newest u r h.onLine hr htime) (h.newest v r' h'.onLine hr' htime')

lemma Versions.NewestAt.not_allAfter (h : g.NewestAt w t v) : ¬ g.AllAfter w t := by
  obtain ⟨r, hr, htime⟩ := h.inTime
  exact fun hafter => absurd htime (not_le.2 (hafter v r h.onLine hr))

/-- A store that represents versions travels on their lines. -/
lemma Represents.travelsOn (h : Represents k s g roots mkvs) (hn : k + 2 ≤ n)
    (hb : g.branch b = some w) : s.TravelsOn n g b w where
  version v := by
    have hw := h.ok.branch_known hb
    constructor
    · rintro ⟨snap, hsnap⟩
      by_cases ha : Ancestor g.parentOf v w
      · exact (h.ok.ancestor_known hw ha).1.imp_right fun hsome => ⟨hsome, ha⟩
      · rw [h.snapshotAtOn_none (by omega) hb ha] at hsnap
        cases hsnap
    · rintro (rfl | ⟨hsome, ha⟩)
      · exact ⟨_, h.snapshotAtOn_version (by omega) hb (Or.inl rfl) (h.ok.zero_ancestor hw)⟩
      · exact ⟨_, h.snapshotAtOn_version (by omega) hb (Or.inr hsome) ha⟩
  versionMap v snap hsnap := by
    by_cases ha : Ancestor g.parentOf v w
    · have hv := (h.ok.ancestor_known (h.ok.branch_known hb) ha).1
      rw [h.snapshotAtOn_version (by omega) hb hv ha] at hsnap
      cases hsnap
      exact ⟨rfl, h.readsMap hn hv v⟩
    · rw [h.snapshotAtOn_none (by omega) hb ha] at hsnap
      cases hsnap
  timestamp t v hnewest := by
    have hlt : k < n := by omega
    rcases h.snapshotAtOn_time hlt hb t with ⟨u, hu, hknown, hsnap⟩ | ⟨hafter, -⟩
    · rw [hu.unique hnewest] at hsnap hknown
      exact ⟨_, hsnap, rfl, h.readsMap hn hknown v⟩
    · exact absurd hafter hnewest.not_allAfter
  beforeAll t hafter := by
    have hlt : k < n := by omega
    rcases h.snapshotAtOn_time hlt hb t with ⟨u, hu, -, -⟩ | ⟨-, hsnap⟩
    · exact absurd hafter hu.not_allAfter
    · have hmap := h.readsMap hn (Or.inl rfl) 0
      rw [h.ok.entries_zero] at hmap
      exact ⟨_, hsnap, rfl, hmap⟩

end Walks

namespace CutLine

/-- Two versions, of the times 10 and 20. -/
def ops : List StoreOp :=
  [.beginOn "main", .put [1] [], .commit 10, .beginOn "main", .put [2] [], .commit 20]

def newId : { b : Bytes // b.length = 16 } := ⟨List.replicate 16 1, rfl⟩

/-- The history, the head of the main branch, and the version and the map it has at time 15. -/
structure Seen where
  history : Result (List Revision)
  head : Result ℕ
  version : Result ℕ
  map : Result Entries
  deriving DecidableEq

def seenIn (e : Engine) : Seen where
  history := e.store.history 400
  head := (e.store.snapshotOn 400 "main").map Snapshot.version
  version := (e.store.snapshotAtOn 400 "main" (.timestamp 15)).map Snapshot.version
  map := e.store.snapshotAtOn 400 "main" (.timestamp 15) >>= fun snap => snap.scan 400

def seen : Option ((Seen × Seen) × Engine × Engine) := do
  let (_, e₁) ← Engine.run .std 400 ops (.create .std noPages)
  let (_, e₂) ← Engine.run .std 400 [.vacuum (.keepLast 1) newId] e₁
  some ((seenIn e₁, seenIn e₂), e₁, e₂)

lemma seen_eq : seen.map Prod.fst
    = some (⟨.ok [⟨1, 10, 0⟩, ⟨2, 20, 1⟩], .ok 2, .ok 1, .ok [([1], [])]⟩,
      ⟨.ok [⟨2, 20, 0⟩], .ok 2, .ok 0, .ok []⟩) := by
  decide +kernel

lemma branch_of_seen {e : Engine} {w : World} {v : ℕ} (h : e.Reads 400 w)
    (hv : (e.store.snapshotOn 400 "main").map Snapshot.version = .ok v) :
    w.versions.branch "main" = some v := by
  cases hb : w.versions.branch "main" with
  | none =>
    rw [h.noBranch "main" hb] at hv
    cases hv
  | some u =>
    obtain ⟨snap, hsnap, hu, -⟩ := h.branch "main" u hb
    rw [hsnap] at hv
    rw [← hu]
    exact congrArg some (Except.ok.inj hv)

lemma rev_of_seen {e : Engine} {w : World} {out : List Revision} (h : e.Reads 400 w)
    (hout : e.store.history 400 = .ok out) {v : ℕ} {r : Rev} (hr : w.versions.rev v = some r) :
    ⟨v, r.time, r.parent⟩ ∈ out := by
  obtain ⟨out', hout', -, hmem⟩ := h.history
  rw [hout] at hout'
  cases hout'
  exact (hmem _).2 ⟨r, hr, rfl, rfl⟩

end CutLine

end Arkeion
