import Arkeion.StoreHistory

/-!
What compacting a reachable store leaves of its history, and when it fails.
-/

namespace Arkeion

open Arkeion.Lib Btree

/-! ### What is to hold -/

/-- The compacted file has the head and the versions that the policy asks for, of those that were
there, as they were, and no others; it opens at its head and passes the audit. -/
structure VacuumFaithful (sha : Sha256) (n : ℕ) (w : World) (p : Retention) (f : NewFile) :
    Prop where
  head : f.store.head.version = w.versions.head
  headMap : ∃ snap, f.store.snapshotAt n .head = .ok snap ∧
    ReadsMap n snap (w.versions.entries w.versions.head)
  kept : ∀ v r, w.versions.rev v = some r → p.Asks w.versions v →
    (∃ snap, f.store.snapshotAt n (.version v) = .ok snap ∧ ReadsMap n snap r.entries) ∧
    ∃ root parent, Store.readHist n f.store.pager f.store.head.meta_root v = .ok (root, r.time, parent)
  gone : ∀ v, 1 ≤ v → ¬ ((w.versions.rev v).isSome ∧ p.Asks w.versions v) →
    f.store.snapshotAt n (.version v) = .error (.versionNotFound (.version v))
  recovers : (f.source sha).recover = .ok f.store.head
  audited : ∃ fuel rep, verify sha fuel f.store.pager.reader f.store.head = .ok rep

/-- The run leads to a store whose compaction succeeds and is faithful, if it has no other branch. -/
def VacuumRight (sha : Sha256) (n : ℕ) (pager : PageLog) (ops : List StoreOp) (p : Retention)
    (fileId : { b : Bytes // b.length = 16 }) : Prop :=
  ∀ answers e, Engine.run sha n ops (.create sha pager) = some (answers, e) → e.tx = none →
    ∃ w, World.Run World.Next .genesis ops answers w ∧ e.Reads n w ∧
      (e.store.hasOnlyMainBranch n = .ok true → ∃ report f,
        e.store.vacuum sha n p fileId = .ok (report, f) ∧ VacuumFaithful sha n w p f)

/-- While the new file was written a page was refused, or an assertion on a node fired. -/
def RebuildRefused (sha : Sha256) (n : ℕ) (s : Store) (p : Retention)
    (fileId : { b : Bytes // b.length = 16 }) : Prop :=
  ∃ err, Refused TxStore err ∧ Store.buildCompacted sha n s
    (.create sha (.new fileId) s.nonce_counter) p = .error err

/-! ### Why it holds -/

section Vacuum
variable {k n first : ℕ} {s : Store} {g : Versions} {roots : ℕ → ℕ} {mkvs : Entries} {w : World}
  {sha : Sha256} {p : Retention} {fileId : { b : Bytes // b.length = 16 }} {f : NewFile}
  {report : VacuumReport}

/-- The versions a compaction is to keep are those from the frontier on. -/
lemma Compacted.faithful (h : Compacted (k := k) sha w.versions w.first p (report, f)) (hw : w.Ok)
    (hn : (k + 1) * (k + 34) + 2 ≤ n) : VacuumFaithful sha n w p f := by
  obtain ⟨roots, mkvs, hrep⟩ := h.represents
  have hknown {v : ℕ} (hv : (w.versions.rev v).isSome) : w.first ≤ v ∧ v ≤ w.versions.head :=
    (hw.gapless.rev v).1 hv
  refine ⟨hrep.version, ⟨_, rfl, ?_⟩, fun v r hr hasks => ?_, fun v hv hno => ?_, h.recovers,
    h.audited⟩
  · have hmap := hrep.readsMap hn hrep.ok.head_known f.store.head.version
    rw [← hrep.data_root] at hmap
    rwa [← Versions.compactTo_entries h.le_head le_rfl]
  · obtain ⟨hge, hle⟩ := hknown (by rw [hr]; rfl)
    have hrev := Versions.compactTo_rev hr ((h.frontier v hge hle).2 hasks) hle
    have hv : Versions.Known _ v := Or.inr (by rw [hrev]; rfl)
    have hmap := hrep.readsMap hn hv v
    rw [Versions.entries_of_rev hrev] at hmap
    have hhist := hrep.readHist_eq (n := n) (by omega) hrev
    exact ⟨⟨_, hrep.snapshotAtVersion_eq (by omega) hv, hmap⟩, _, _, hhist⟩
  · refine hrep.snapshotAtVersion_none (by omega) ?_
    rintro (hzero | hsome)
    · omega
    · obtain ⟨hge, -, hsome⟩ := Versions.compactTo_isSome.1 hsome
      obtain ⟨hfirst, hle⟩ := hknown hsome
      exact hno ⟨hsome, (h.frontier v hfirst hle).1 hge⟩

/-- A compaction that may begin answers what writing the new file answers. -/
lemma Represents.vacuum_of_built (h : Represents k s g roots mkvs) (hheld : s.held = false)
    (hmain : g.OnlyMain) (hn : k + 2 ≤ n) {err : Error} :
    s.vacuum sha n p fileId = .error err ↔ Store.buildCompacted sha n s
      (.create sha (.new fileId) s.nonce_counter) p = .error err := by
  obtain ⟨only, honly, hiff⟩ := h.hasOnlyMainBranch_eq hn
  have hbuild : s.vacuum sha n p fileId = Store.buildCompacted sha n s
      (.create sha (.new fileId) s.nonce_counter) p >>= fun r =>
        .ok (⟨r.2, s.head.version, r.2 - 1, s.head.n_pages, r.1.store.head.n_pages⟩, r.1) := by
    rw [Store.vacuum, require_pos hheld, ok_bind]
    by_cases hzero : s.head.version ≠ 0
    · rw [if_pos hzero, honly, ok_bind]
      dsimp only
      rw [require_pos (hiff.2 hmain)]
      rfl
    · rw [if_neg hzero, ok_bind]
      dsimp only
      rw [require_pos rfl]
      rfl
  rw [hbuild, bind_eq_error]
  constructor
  · rintro (herr | ⟨r, -, hr⟩)
    · exact herr
    · cases hr
  · exact Or.inl

end Vacuum

namespace CompactedTwice

lemma length_ones : (List.replicate 16 (1 : UInt8)).length = 16 := List.length_replicate

def newId : { b : Bytes // b.length = 16 } := ⟨List.replicate 16 1, length_ones⟩

/-- Two versions, of which a compaction keeps the last. -/
def ops : List StoreOp :=
  [.createBranch "main" .head 1, .beginOn "main", .put [1] [], .commit 2, .vacuum (.keepLast 1) newId]

/-- What is seen then, and what a compaction that keeps all answers. -/
structure Seen where
  head : ℕ
  open_tx : Bool
  only_main : Result Bool
  answer : Option Error
  deriving DecidableEq

def errorOf {α : Type} : Result α → Option Error
  | .ok _ => none
  | .error e => some e

def seen : Option (Seen × Engine) := do
  let (_, e) ← Engine.run .std 400 ops (.create .std noPages)
  some (⟨e.store.head.version, e.tx.isSome, e.store.hasOnlyMainBranch 400,
    errorOf (e.store.vacuum .std 400 .keepAll newId)⟩, e)

lemma seen_eq : seen.map Prod.fst
    = some ⟨2, false, .ok true, some (.versionNotFound (.version 1))⟩ := by
  decide +kernel

end CompactedTwice

end Arkeion
