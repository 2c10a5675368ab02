import Arkeion.AppendCursor
import Arkeion.VersionForest
import Arkeion.VersionMerge

/-!
The merge base in every store that calls can lead to: the lowest common ancestor of two versions by
the parents that the store records.
-/

namespace Arkeion

open Arkeion.Lib Btree

/-! ### Calls keep the history recorded -/

section Calls
variable {sha : Sha256} {k n : ℕ} {e e' : Engine} {g : Versions} {roots : ℕ → ℕ} {mkvs : Entries}

/-- By how much a call can let the history grow. -/
def Call.bound (k : ℕ) : Call → ℕ
  | .op o => o.bound k
  | .savepoint _ | .rollbackTo _ | .release _ => k

lemma Call.le_bound (k : ℕ) (c : Call) : k ≤ c.bound k := by
  cases c with
  | op o => exact o.le_bound k
  | _ => exact le_rfl

/-- By how much the calls of a run can let the history grow. -/
def callsBound (cs : List Call) : ℕ := cs.foldl Call.bound 0

namespace Engine

lemma Records.hasHistory {k' : ℕ} (h : e.Records k g roots mkvs) (hk : k ≤ k') :
    e.HasHistory k' :=
  ⟨g, roots, mkvs, h.store.mono hk, h.held, h.tx⟩

lemma Records.closed (h : e.Records k g roots mkvs) : e.closed.Records k g roots mkvs :=
  (h.store.held false).records rfl

/-- The gate of the writers is open where there is no transaction. -/
lemma Records.no_tx (h : e.Records k g roots mkvs) (hheld : e.store.held = false) : e.tx = none := by
  rw [h.held] at hheld
  exact Option.not_isSome_iff_eq_none.1 (by rw [hheld]; exact Bool.false_ne_true)

/-- Whatever a call did to the transaction, as long as it left the file alone. -/
lemma Records.withTx {tx : WriteTx} (h : e.Records k g roots mkvs) (hold : e.tx.isSome)
    (htx : tx.Beside e.store g) :
    ({ e with tx := some tx } : Engine).Records k g roots mkvs where
  store := h.store
  held := h.held.trans hold
  tx _ htx' := by
    cases htx'
    exact htx

/-- A version that was made with no transaction about. -/
lemma hasHistory_of_indexed {s : Store}
    (h : ∃ g' roots' mkvs', Indexed k s g' roots' mkvs' ∧ s.held = false) {k' : ℕ} (hk : k ≤ k') :
    (⟨s, none⟩ : Engine).HasHistory k' := by
  obtain ⟨g', roots', mkvs', hs, hheld⟩ := h
  exact (hs.records hheld).hasHistory hk

/-- What an error leaves behind. -/
lemma Records.settle {K : ℕ} {op : StoreOp} {x : Result (Answer × Engine)}
    (h : e.Records k g roots mkvs) (hk : k ≤ K)
    (hok : ∀ answer e', x = .ok (answer, e') → e'.HasHistory K) : (e.settle op x).2.HasHistory K := by
  match x with
  | .ok (answer, e') => exact hok answer e' rfl
  | .error err =>
    rw [Engine.settle]
    split_ifs
    · exact h.closed.hasHistory hk
    · exact h.hasHistory hk

lemma Records.execTx {op : StoreOp} {tx : WriteTx} {answer : Answer} (h : e.Records k g roots mkvs)
    (htx : e.tx = some tx) (hop : op.Sized) (hn : 2 * op.bound k + 2 ≤ n)
    (hexec : e.execTx sha n tx op = .ok (answer, e')) : e'.HasHistory (op.bound k) := by
  have hk := op.le_bound k
  have hbeside := h.tx tx htx
  have hsome : e.tx.isSome := by rw [htx]; rfl
  cases op with
  | put key value =>
    obtain ⟨tx', hput, hexec⟩ := bind_eq_ok.1 hexec
    cases hexec
    exact (h.withTx hsome (hbeside.put hop hput)).hasHistory hk
  | delete key =>
    obtain ⟨⟨existed, tx'⟩, hdel, hexec⟩ := bind_eq_ok.1 hexec
    cases hexec
    exact (h.withTx hsome (hbeside.delete hdel)).hasHistory hk
  | commit now =>
    obtain ⟨⟨v, s'⟩, hcommit, hexec⟩ := bind_eq_ok.1 hexec
    cases hexec
    rw [StoreOp.bound] at hn
    exact hasHistory_of_indexed (h.store.commit hbeside hop (by omega) hcommit) le_rfl
  | _ =>
    cases hexec
    exact h.closed.hasHistory hk

/-- The calls on the store that make a version want the gate of the writers open. -/
lemma Records.execStore {op : StoreOp} {answer : Answer} (h : e.Records k g roots mkvs)
    (hop : op.Sized) (hn : 2 * op.bound k + 2 ≤ n)
    (hexec : e.execStore sha n op = .ok (answer, e')) : e'.HasHistory (op.bound k) := by
  have hk := op.le_bound k
  cases op with
  | beginOn branch =>
    obtain ⟨⟨tx, s'⟩, hbegin, hexec⟩ := bind_eq_ok.1 hexec
    cases hexec
    exact (h.store.beginOn (by rw [StoreOp.bound] at hn; omega) hbegin).hasHistory hk
  | createBranch name start now =>
    obtain ⟨s', hcreate, hexec⟩ := bind_eq_ok.1 hexec
    cases hexec
    have hheld : e.store.held = false := by
      obtain ⟨_, -, hrun⟩ := bind_eq_ok.1 hcreate
      obtain ⟨_, hheld, -⟩ := bind_eq_ok.1 hrun
      exact require_eq_ok.1 hheld
    rw [h.no_tx hheld]
    rw [StoreOp.bound] at hn
    exact hasHistory_of_indexed (h.store.createBranch hop (by omega) hcreate) le_rfl
  | dropBranch name now =>
    obtain ⟨s', hdrop, hexec⟩ := bind_eq_ok.1 hexec
    cases hexec
    have hheld : e.store.held = false := by
      obtain ⟨_, -, hrun⟩ := bind_eq_ok.1 hdrop
      obtain ⟨_, hheld, -⟩ := bind_eq_ok.1 hrun
      exact require_eq_ok.1 hheld
    rw [h.no_tx hheld]
    rw [StoreOp.bound] at hn
    exact hasHistory_of_indexed (h.store.dropBranch hop (by omega) hdrop) le_rfl
  | merge src dst now =>
    obtain ⟨⟨report, s'⟩, hmerge, hexec⟩ := bind_eq_ok.1 hexec
    cases hexec
    have hheld : e.store.held = false := by
      obtain ⟨_, hheld, -⟩ := bind_eq_ok.1 hmerge
      exact require_eq_ok.1 hheld
    rw [h.no_tx hheld]
    rw [StoreOp.bound] at hn ⊢
    exact hasHistory_of_indexed (h.store.merge hop (by omega) hheld hmerge) (by omega)
  | vacuum retention fileId =>
    obtain ⟨⟨report, f⟩, hvacuum, hexec⟩ := bind_eq_ok.1 hexec
    cases hexec
    have hheld : e.store.held = false := by
      obtain ⟨_, hheld, -⟩ := bind_eq_ok.1 hvacuum
      exact require_eq_ok.1 hheld
    rw [h.no_tx hheld]
    rw [StoreOp.bound] at hn
    exact hasHistory_of_indexed (h.store.vacuum (by omega) hvacuum) le_rfl
  | _ =>
    cases hexec
    exact h.hasHistory hk

lemma Records.step {op : StoreOp} {r : Result Answer × Engine} (h : e.Records k g roots mkvs)
    (hop : op.Sized) (hn : 2 * op.bound k + 2 ≤ n) (hstep : e.step sha n op = some r) :
    r.2.HasHistory (op.bound k) := by
  rw [Engine.step, Option.map_eq_some_iff] at hstep
  obtain ⟨x, hexec, rfl⟩ := hstep
  refine h.settle (op.le_bound k) fun answer e' hx => ?_
  subst hx
  cases op with
  | put | delete | commit | rollback =>
    obtain ⟨tx, htx, hexec⟩ := Option.map_eq_some_iff.1 hexec
    exact h.execTx htx hop hn hexec
  | beginOn | createBranch | dropBranch | merge | vacuum =>
    exact h.execStore hop hn (Option.some_inj.1 hexec)

/-- What a call that may be refused leaves of the transaction. -/
lemma Records.settleTx {tx : WriteTx} {x : Result WriteTx} (h : e.Records k g roots mkvs)
    (htx : e.tx = some tx) (hok : ∀ tx', x = .ok tx' → tx'.Beside e.store g) :
    (e.settleTx x).2.HasHistory k := by
  match x with
  | .ok tx' => exact (h.withTx (by rw [htx]; rfl) (hok tx' rfl)).hasHistory le_rfl
  | .error err => exact h.hasHistory le_rfl

lemma Records.call {c : Call} {r : Result Answer × Engine} (h : e.Records k g roots mkvs)
    (hc : c.Sized) (hn : 2 * c.bound k + 2 ≤ n) (hcall : e.call sha n c = some r) :
    r.2.HasHistory (c.bound k) := by
  cases c with
  | op o => exact h.step hc hn hcall
  | savepoint name =>
    obtain ⟨tx, htx, rfl⟩ := Option.map_eq_some_iff.1 hcall
    refine h.settleTx htx fun tx' htx' => ?_
    cases htx'
    exact (h.tx tx htx).savepoint
  | rollbackTo name =>
    obtain ⟨tx, htx, rfl⟩ := Option.map_eq_some_iff.1 hcall
    exact h.settleTx htx fun tx' htx' => (h.tx tx htx).rollbackToSavepoint htx'
  | release name =>
    obtain ⟨tx, htx, rfl⟩ := Option.map_eq_some_iff.1 hcall
    exact h.settleTx htx fun tx' htx' => (h.tx tx htx).releaseSavepoint htx'

lemma le_foldl_call_bound (k : ℕ) (cs : List Call) : k ≤ cs.foldl Call.bound k := by
  induction cs generalizing k with
  | nil => exact le_rfl
  | cons c cs ih => exact (c.le_bound k).trans (ih _)

/-- A run of calls keeps the history recorded. -/
theorem HasHistory.runCalls {cs : List Call} (h : e.HasHistory k) (hcs : ∀ c ∈ cs, c.Sized)
    (hn : 2 * cs.foldl Call.bound k + 2 ≤ n) (hrun : Engine.runCalls sha n cs e = some e') :
    e'.HasHistory (cs.foldl Call.bound k) := by
  induction cs generalizing k e with
  | nil =>
    cases hrun
    exact h
  | cons c cs ih =>
    obtain ⟨g, roots, mkvs, h⟩ := h
    obtain ⟨r, hcall, hrun⟩ := Option.bind_eq_some_iff.1 hrun
    obtain ⟨hc, hcs⟩ := List.forall_mem_cons.1 hcs
    have hle := le_foldl_call_bound (c.bound k) cs
    rw [List.foldl_cons] at hn ⊢
    exact ih (h.call hc (by omega) hcall) hcs hn hrun

lemma hasHistory_create (sha : Sha256) {pager : PageLog} (hempty : pager.pages = []) :
    (Engine.create sha pager).HasHistory 0 :=
  ⟨_, _, _, ((Represents.create sha hempty).indexed).records rfl⟩

end Engine

end Calls

/-! ### The lowest common ancestor -/

section MergeBase
variable {sha : Sha256} {k n : ℕ} {s : Store} {g : Versions} {roots : ℕ → ℕ} {mkvs : Entries}
  {v w : ℕ}

/-- The version is the empty one or has its entry in the store. -/
def Store.HasVersion (n : ℕ) (s : Store) (v : ℕ) : Prop :=
  v = 0 ∨ v < 2 ^ 64 ∧ ∃ hist, readHist n s.pager s.head.meta_root v = .ok hist

/-- The parent that the store records; the empty version has none. -/
def Store.recordedParent (n : ℕ) (s : Store) (v : ℕ) : Option ℕ :=
  if v = 0 then none else (readParentVersion n s.pager s.head.meta_root v).toOption

lemma Indexed.hasVersion_iff (h : Indexed k s g roots mkvs) (hn : k ≤ n) :
    s.HasVersion n v ↔ g.Known v := by
  refine or_congr_right ⟨fun ⟨hv, hist, hr⟩ => ?_, fun hv => ?_⟩
  · refine Option.isSome_iff_ne_none.2 fun hnone => ?_
    rw [h.readHist_none hn hv hnone] at hr
    cases hr
  · obtain ⟨r, hr⟩ := Option.isSome_iff_exists.1 hv
    exact ⟨h.known_lt (Or.inr hv), _, h.readHist_eq hn hr⟩

lemma Indexed.recordedParent_eq (h : Indexed k s g roots mkvs) (hn : k ≤ n) (hv : g.Known v) :
    s.recordedParent n v = g.parentOf v := by
  rw [Store.recordedParent]
  split_ifs with hzero
  · exact (Versions.parentOf_eq_none.2 hzero).symm
  · rw [h.readParentVersion_eq hn hv]
    obtain ⟨p, hp⟩ := Option.ne_none_iff_exists'.1 (mt Versions.parentOf_eq_none.1 hzero)
    rw [hp]
    rfl

/-- The merge base of the recorded parents, found with the arguments in either order. -/
lemma Indexed.mergeBase_comm (h : Indexed k s g roots mkvs) (hn : k + 1 ≤ n)
    (hv : s.HasVersion n v) (hw : s.HasVersion n w) : ∃ c,
      Store.mergeBase n s.pager s.head.meta_root v w = .ok c ∧
      Store.mergeBase n s.pager s.head.meta_root w v = .ok c ∧
      IsMergeBase (s.recordedParent n) v w c := by
  have hkn : k ≤ n := by omega
  rw [h.hasVersion_iff hkn] at hv hw
  obtain ⟨c, hc, hbase⟩ := h.mergeBase_eq hn hv hw
  obtain ⟨c', hc', hbase'⟩ := h.mergeBase_eq hn hw hv
  have hsame : c = c' := h.ok.base_unique hv hbase hbase'.swap
  subst hsame
  exact ⟨c, hc, hc', hbase.congr (K := g.Known) (fun _ hx _ hp => (h.ok.parentOf_known hx hp).1)
    (fun _ hx => h.recordedParent_eq hkn hx) hv hw⟩

/-- However a new store was used, savepoints and compactions included: for two versions that it
records, the merge base is found, it is their lowest common ancestor by the recorded parents, and
it is the same in either order. -/
theorem merge_base_lowest (sha : Sha256) (n : ℕ) {pager : PageLog} (hempty : pager.pages = [])
    (cs : List Call) (hcs : ∀ c ∈ cs, c.Sized) (hn : 2 * callsBound cs + 2 ≤ n) (e : Engine)
    (hrun : Engine.runCalls sha n cs (.create sha pager) = some e) (vf vi : ℕ)
    (hf : e.store.HasVersion n vf) (hi : e.store.HasVersion n vi) : ∃ c,
      Store.mergeBase n e.store.pager e.store.head.meta_root vf vi = .ok c ∧
      Store.mergeBase n e.store.pager e.store.head.meta_root vi vf = .ok c ∧
      IsMergeBase (e.store.recordedParent n) vf vi c := by
  obtain ⟨g, roots, mkvs, h⟩ := (Engine.hasHistory_create sha hempty).runCalls hcs hn hrun
  exact h.store.mergeBase_comm (by rw [callsBound] at hn; omega) hf hi

/-- The theorem at two branches from a version that a compaction has kept. -/
theorem merge_base_lowest_branches : ∃ e c,
    Engine.runCalls .std 8000 [.op (.beginOn "main"), .op (.put [1] [2]), .op (.commit 1),
      .op (.vacuum .keepAll ⟨StaleCursor.noPages.fileId, StaleCursor.noPages.length_fileId⟩),
      .op (.createBranch "dev" .head 2), .op (.createBranch "b" (.version 1) 3)] (.create .std StaleCursor.noPages) = some e ∧
    Store.mergeBase 8000 e.store.pager e.store.head.meta_root 2 3 = .ok c ∧
    IsMergeBase (e.store.recordedParent 8000) 2 3 c := by
  have hseen : ((Engine.runCalls .std 8000 [.op (.beginOn "main"), .op (.put [1] [2]),
      .op (.commit 1),
      .op (.vacuum .keepAll ⟨StaleCursor.noPages.fileId, StaleCursor.noPages.length_fileId⟩),
      .op (.createBranch "dev" .head 2), .op (.createBranch "b" (.version 1) 3)]
      (.create .std StaleCursor.noPages)).map fun e =>
        (Store.readHist 8000 e.store.pager e.store.head.meta_root 2,
          Store.readHist 8000 e.store.pager e.store.head.meta_root 3))
      = some (.ok (3, 2, 1), .ok (3, 3, 1)) := by
    decide +kernel
  obtain ⟨e, hrun, hhist⟩ := Option.map_eq_some_iff.1 hseen
  rw [Prod.mk.injEq] at hhist
  obtain ⟨c, hc, -, hbase⟩ := merge_base_lowest .std 8000 rfl _ (by simp [Call.Sized, StoreOp.Sized])
    (by decide) e hrun 2 3 (Or.inr ⟨by decide, _, hhist.1⟩) (Or.inr ⟨by decide, _, hhist.2⟩)
  exact ⟨e, c, hrun, hc, hbase⟩

end MergeBase

end Arkeion
