import Arkeion.MergeSpec
import Arkeion.VersionCommit

/-!
Merging two branches of a store that represents versions: the base is the nearest common
ancestor, and a merge without conflicts makes the version that the plan describes.
-/

namespace Arkeion

open Arkeion.Lib Btree

/-! ### The merge base -/

section Base
variable {k n m : ℕ} {s : Store} {g : Versions} {roots : ℕ → ℕ} {mkvs : Entries} {v u : ℕ}

/-- The empty version is where all began. -/
lemma Versions.Ok.zero_ancestor (h : g.Ok) (hv : g.Known v) : Ancestor g.parentOf 0 v := by
  induction v using Nat.strong_induction_on with
  | _ v ih =>
    cases hp : g.parentOf v with
    | none =>
      rw [Versions.parentOf_eq_none.1 hp]
      exact .refl 0
    | some p =>
      obtain ⟨hknown, hlt⟩ := h.parentOf_known hv hp
      exact (Ancestor.of_parent hp).2 (Or.inr (ih p hlt hknown))

/-- The first loop collects the ancestors. -/
lemma Indexed.ancestors_eq (h : Indexed k s g roots mkvs) (hn : k ≤ n) (hm : v < m)
    (hv : g.Known v) : ∃ seen, Store.ancestors n s.pager s.head.meta_root m v = .ok seen ∧
      ∀ w, w ∈ seen ↔ Ancestor g.parentOf w v := by
  induction m generalizing v with
  | zero => omega
  | succ m ih =>
    rw [Store.ancestors]
    split_ifs with hzero
    · subst hzero
      exact ⟨[0], rfl, fun w => by rw [Ancestor.of_root (Versions.parentOf_eq_none.2 rfl)]; simp⟩
    · obtain ⟨p, hp⟩ := Option.ne_none_iff_exists'.1 (mt Versions.parentOf_eq_none.1 hzero)
      obtain ⟨hknown, hlt⟩ := h.ok.parentOf_known hv hp
      obtain ⟨seen, hseen, hmem⟩ := ih (v := p) (by omega) hknown
      rw [h.readParentVersion_eq hn hv, ok_bind, hp, Option.getD_some, hseen, ok_bind]
      refine ⟨v :: seen, rfl, fun w => ?_⟩
      rw [List.mem_cons, hmem, Ancestor.of_parent hp]

/-- The second loop stops at the nearest one of them. -/
lemma Indexed.firstAmong_eq (h : Indexed k s g roots mkvs) (hn : k ≤ n) (hm : v < m)
    (hv : g.Known v) (hu : g.Known u) {seen : List ℕ}
    (hseen : ∀ w, w ∈ seen ↔ Ancestor g.parentOf w u) :
    ∃ c, Store.firstAmong n s.pager s.head.meta_root seen m v = .ok c ∧
      IsMergeBase g.parentOf u v c := by
  induction m generalizing v with
  | zero => omega
  | succ m ih =>
    rw [Store.firstAmong]
    split_ifs with hmem hzero
    · exact ⟨v, rfl, .of_ancestor ((hseen v).1 hmem)⟩
    · rw [hzero, hseen] at hmem
      exact absurd (h.ok.zero_ancestor hu) hmem
    · obtain ⟨p, hp⟩ := Option.ne_none_iff_exists'.1 (mt Versions.parentOf_eq_none.1 hzero)
      obtain ⟨hknown, hlt⟩ := h.ok.parentOf_known hv hp
      obtain ⟨c, hc, hbase⟩ := ih (v := p) (by omega) hknown
      rw [h.readParentVersion_eq hn hv, ok_bind, hp, Option.getD_some]
      exact ⟨c, hc, hbase.of_parent hp fun ha => hmem ((hseen v).2 ha)⟩

lemma Indexed.mergeBase_eq (h : Indexed k s g roots mkvs) (hn : k + 1 ≤ n)
    (hu : g.Known u) (hv : g.Known v) : ∃ c,
      Store.mergeBase n s.pager s.head.meta_root u v = .ok c ∧ IsMergeBase g.parentOf u v c := by
  have hlt {w : ℕ} (hw : g.Known w) : w < n := by
    have := h.ok.known_le hw
    have := h.head_le
    omega
  obtain ⟨seen, hseen, hmem⟩ := h.ancestors_eq (n := n) (by omega) (hlt hu) hu
  obtain ⟨c, hc, hbase⟩ := h.firstAmong_eq (n := n) (by omega) (hlt hv) hv hu hmem
  refine ⟨c, ?_, hbase⟩
  rw [Store.mergeBase, hseen, ok_bind, hc]

end Base

/-! ### The plan and what becomes of it -/

section Merge
variable {k n now : ℕ} {s : Store} {g : Versions} {roots : ℕ → ℕ} {mkvs : Entries}
  {vf vi c : ℕ} {src dst : String} {sha : Sha256}

/-- The versions of a merge: the heads of the two branches and their merge base. -/
structure MergeOf (g : Versions) (src dst : String) (vf vi c : ℕ) : Prop where
  src : g.refs src = some vf
  dst : g.refs dst = some vi
  base : IsMergeBase g.parentOf vf vi c

/-- What is applied and what is in conflict. -/
def Versions.plan (g : Versions) (vf vi c : ℕ) : List (Bytes × Option Bytes) × List MergeConflict :=
  planOf (g.entries c) (g.entries vf) (g.entries vi)

lemma Represents.exists_mergeOf (h : Represents k s g roots mkvs) (hn : k + 1 ≤ n)
    (hsrc : g.refs src = some vf) (hdst : g.refs dst = some vi) : ∃ c, MergeOf g src dst vf vi c := by
  obtain ⟨c, -, hbase⟩ :=
    h.indexed.mergeBase_eq hn (h.ok.known_of_refs hsrc) (h.ok.known_of_refs hdst)
  exact ⟨c, hsrc, hdst, hbase⟩

lemma Versions.Ok.base_unique {c' : ℕ} (h : g.Ok) (hu : g.Known vf)
    (hc : IsMergeBase g.parentOf vf vi c) (hc' : IsMergeBase g.parentOf vf vi c') : c = c' :=
  IsMergeBase.unique (K := g.Known) (fun _ hv _ hp => h.parentOf_known hv hp) hu hc hc'

lemma Represents.mergePlan_eq (h : Represents k s g roots mkvs) (hn : k + 2 ≤ n)
    (hm : MergeOf g src dst vf vi c) :
    Store.mergePlan n s src dst = .ok (g.plan vf vi c, roots vi, vi) := by
  have hf := h.ok.known_of_refs hm.src
  have hi := h.ok.known_of_refs hm.dst
  obtain ⟨c', hc', hbase⟩ := h.indexed.mergeBase_eq (n := n) (by omega) hf hi
  have heq := h.ok.base_unique hf hbase hm.base
  subst heq
  have hc := (h.ok.ancestor_known hf hbase.left).1
  rw [Store.mergePlan, h.readRef_eq (by omega), ok_bind, hm.src, okOr_some, ok_bind,
    h.readRef_eq (by omega), ok_bind, hm.dst, okOr_some, ok_bind, hc', ok_bind,
    h.readDataRoot_eq (by omega) hc, ok_bind, h.readDataRoot_eq (by omega) hf, ok_bind,
    h.readDataRoot_eq (by omega) hi, ok_bind, h.diff_eq hn hc hf, ok_bind, h.diff_eq hn hc hi,
    ok_bind]
  rfl

/-- The version a merge makes. -/
def Versions.mergeRev (g : Versions) (vf vi c now : ℕ) : Rev where
  entries := patch (g.entries vi) (g.plan vf vi c).1
  time := now
  parent := vi

section Result
variable (h : Represents k s g roots mkvs) (hm : MergeOf g src dst vf vi c)
include h hm

lemma Represents.merge_conflict (hn : k + 2 ≤ n) (hheld : s.held = false)
    (hc : (g.plan vf vi c).2 ≠ []) :
    Store.merge sha n now s src dst = .error (.conflict (g.plan vf vi c).2) := by
  rw [Store.merge, require_pos hheld, ok_bind, h.mergePlan_eq hn hm, ok_bind]
  dsimp only
  rw [require, if_neg hc]
  rfl

lemma Represents.merge_nothing (hn : k + 2 ≤ n) (hheld : s.held = false)
    (hc : (g.plan vf vi c).2 = []) (hp : (g.plan vf vi c).1 = []) :
    Store.merge sha n now s src dst = .ok (⟨vi, 0⟩, s) := by
  rw [Store.merge, require_pos hheld, ok_bind, h.mergePlan_eq hn hm, ok_bind]
  dsimp only
  rw [require_pos hc, ok_bind, if_pos hp]

/-- A merge with something to apply makes the version of the plan, on the branch it goes into. -/
lemma Represents.merge_outcome (hheld : s.held = false) (hc : (g.plan vf vi c).2 = [])
    (hp : (g.plan vf vi c).1 ≠ []) (htime : now < 2 ^ 64) (hn : 2 * (3 * k + 34) + 2 ≤ n) :
    Outcome (Refused TxStore) (Store.merge sha n now s src dst) fun r =>
      r.1 = ⟨g.head + 1, (g.plan vf vi c).1.length⟩ ∧ r.2.held = false ∧ ∃ roots' mkvs',
        Represents (3 * k + 34) r.2 (g.commit dst (g.mergeRev vf vi c now)) roots' mkvs' := by
  have hf := h.ok.known_of_refs hm.src
  have hi := h.ok.known_of_refs hm.dst
  have hb := (h.ok.ancestor_known hf hm.base.left).1
  have hsb := h.sorted hb
  have hsf := h.sorted hf
  have hsi := h.sorted hi
  have hgrowth : targetsGrowth (planOf (g.entries c) (g.entries vf) (g.entries vi)).1 ≤ k + k :=
    (growth_plan_le hsb hsf hsi).trans (Nat.add_le_add (h.weight_le vf hf) (h.weight_le vi hi))
  have hvalues : ∀ p ∈ (g.plan vf vi c).1, ∀ v ∈ p.2, (MapOp.insert p.1 v).Ok := by
    rintro ⟨key, t⟩ hmem v hv
    cases (show t = some v from hv)
    rcases plan_values hsb hsf hsi hmem with hs | hd
    · exact (h.trees vf hf).insert_ok _ hs
    · exact (h.trees vi hi).insert_ok _ hd
  rw [Store.merge, require_pos hheld, ok_bind, h.mergePlan_eq (by omega) hm, ok_bind]
  dsimp only
  rw [require_pos hc, ok_bind, if_neg hp]
  refine (applyTargets_outcome (sortedMap_plan hsb hsf) (h.txHolds hi) hvalues
    (fun p hmem hnone => plan_deletes hsb hsf hsi hmem hnone) (fun _ _ cur hcur => by cases hcur)
    (fun cur hcur => by cases hcur) (by omega)).bind ?_
  rintro ⟨root, ts⟩ - ⟨htx, hsound⟩
  dsimp only at htx ⊢
  rw [h.version]
  by_cases hlt : g.head + 1 < 2 ^ 64
  · rw [require_pos hlt, ok_bind]
    refine h.record (r := g.mergeRev vf vi c now) h.ok rfl rfl h.indexes htx
      (hsound.insertFits _ _ _) hi htime (h.ok.refs_name dst vi hm.dst) hlt (by omega) (by omega)
      fun p hp _ => ?_
    exact ⟨rfl, rfl, _, _, hp.mono (by omega)⟩
  · rw [require, if_neg hlt]
    exact refused_overflow

end Result

/-- A branch without a ref is none to merge, not even the main branch. -/
lemma Represents.merge_no_ref (h : Represents k s g roots mkvs) (hn : k ≤ n)
    (hheld : s.held = false) (hno : g.refs src = none ∨ g.refs dst = none) :
    ∃ b, (b = src ∨ b = dst) ∧ g.refs b = none ∧
      Store.merge sha n now s src dst = .error (.branchNotFound b) := by
  rw [Store.merge, require_pos hheld, ok_bind, Store.mergePlan, h.readRef_eq hn, ok_bind]
  cases hsrc : g.refs src with
  | none => exact ⟨src, Or.inl rfl, hsrc, rfl⟩
  | some vf =>
    rw [okOr_some, ok_bind, h.readRef_eq hn, ok_bind]
    cases hdst : g.refs dst with
    | none => exact ⟨dst, Or.inr rfl, hdst, rfl⟩
    | some vi =>
      rw [hsrc, hdst] at hno
      simp at hno

end Merge

end Arkeion
