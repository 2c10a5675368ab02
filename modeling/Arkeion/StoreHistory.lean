import Arkeion.EngineSpec

/-!
The store as versions with branches: in any run, what was committed is a version that stays what
it was, and only the branch of the commit moves to it.
-/

namespace Arkeion

open Arkeion.Lib Btree

/-! ### What is to hold -/

/-- A commit that changed the map of the branch makes a version, and one of a transaction that
touched nothing makes none. -/
def World.Right (w : World) (op : StoreOp) (answer : Result Answer) (w' : World) : Prop :=
  ∀ now view v, op = .commit now → w.view = some view → answer = .ok (.version v) →
    (view.entries ≠ w.versions.entries view.parent → v = w.versions.head + 1 ∧
      w'.versions = w.versions.commit view.branch (view.rev now)) ∧
    (view.touched = false → v = view.parent ∧ w'.versions = w.versions)

/-- What a call does, and is right to do. -/
def World.Intended (w : World) (op : StoreOp) (answer : Result Answer) (w' : World) : Prop :=
  w.Next op answer w' ∧ w.Right op answer w'

/-- What is read of the store are the versions, and of the transaction its view. -/
structure Engine.Reads (n : ℕ) (e : Engine) (w : World) : Prop where
  head : e.store.head.version = w.versions.head
  version : ∀ v, w.versions.Known v → ∃ snap, e.store.snapshotAt n (.version v) = .ok snap ∧
    ReadsMap n snap (w.versions.entries v)
  noVersion : ∀ v, ¬ w.versions.Known v →
    e.store.snapshotAt n (.version v) = .error (.versionNotFound (.version v))
  diff : ∀ v u, w.versions.Known v → w.versions.Known u →
    e.store.diffVersions n v u = .ok (diffMaps (w.versions.entries v) (w.versions.entries u))
  branch : ∀ b v, w.versions.branch b = some v → ∃ snap, e.store.snapshotOn n b = .ok snap ∧
    snap.version = v ∧ ReadsMap n snap (w.versions.entries v)
  noBranch : ∀ b, w.versions.branch b = none → e.store.snapshotOn n b = .error (.branchNotFound b)
  history : ∃ out, e.store.history n = .ok out ∧ (out.map Revision.version).Pairwise (· < ·) ∧
    ∀ x, x ∈ out ↔
      ∃ r, w.versions.rev x.version = some r ∧ x.timestamp = r.time ∧ x.parent = r.parent
  tx : ∀ tx ∈ e.tx, ∃ view, w.view = some view ∧ tx.branch = view.branch ∧
    w.versions.branch view.branch = some view.parent ∧ tx.scan n = .ok view.entries ∧
    ∀ key, tx.get n key = .ok (valueOf key view.entries)

/-- After any part of the run and after its rest the reads are those of versions that came of the
calls, and the rest has left the versions that were there as they were. -/
def HistoryKept (sha : Sha256) (n : ℕ) (pager : PageLog) (ops₁ ops₂ : List StoreOp) : Prop :=
  ∀ answers₁ e₁ answers₂ e₂, Engine.run sha n ops₁ (.create sha pager) = some (answers₁, e₁) →
    Engine.run sha n ops₂ e₁ = some (answers₂, e₂) → ∃ w₁ w₂,
      World.Run World.Intended .genesis ops₁ answers₁ w₁ ∧
      World.Run World.Intended w₁ ops₂ answers₂ w₂ ∧ e₁.Reads n w₁ ∧ e₂.Reads n w₂ ∧
      ∀ v r, w₁.versions.rev v = some r → w₂.versions.rev v = some r

def StoreOp.compacts : StoreOp → Bool
  | vacuum .. => true
  | _ => false

/-- Without dirty pages a transaction is taken for one that did nothing exactly if its root is the
one of the store's head; it has to be so only if its branch has the map, and always if its root is
that of the branch. -/
def Engine.ShortcutFits (n : ℕ) (e : Engine) : StoreOp → Prop
  | .commit _ => ∀ tx ∈ e.tx, tx.ts.dirty = [] → ∀ snap, e.store.snapshotOn n tx.branch = .ok snap →
      (tx.data_root = tx.base.data_root → snap.scan n = tx.scan n) ∧
      (tx.data_root = snap.data_root → tx.data_root = tx.base.data_root)
  | _ => True

/-! ### Why it holds -/

section World
variable {w w' : World} {op : StoreOp} {answer : Result Answer} {answers : List (Result Answer)}
  {ops : List StoreOp} {v : ℕ} {r : Rev}

/-- The answer of a commit says whether it made a version. -/
lemma World.Next.of_commit {now : ℕ} {view : TxView}
    (hnext : w.Next (.commit now) (.ok (.version v)) w') (hview : w.view = some view) (hparent : view.parent ≤ w.versions.head) :
    (v = w.versions.head + 1 → w'.versions = w.versions.commit view.branch (view.rev now)) ∧
      (v = view.parent → w'.versions = w.versions) := by
  generalize hanswer : (Except.ok (Answer.version v) : Result Answer) = answer at hnext
  cases hnext with
  | commit hview' =>
    cases hanswer
    rw [hview] at hview'
    cases hview'
    exact ⟨fun _ => rfl, fun heq => by omega⟩
  | commitNothing hview' =>
    cases hanswer
    rw [hview] at hview'
    cases hview'
    exact ⟨fun heq => by omega, fun _ => rfl⟩
  | failed => cases hanswer

/-- A call that makes nothing compact leaves the versions that are there as they are. -/
lemma World.Next.rev_eq (hnext : w.Next op answer w')
    (hok : w.Ok) (hop : op.compacts = false) (hr : w.versions.rev v = some r) :
    w'.versions.rev v = some r := by
  have hle : v ≤ w.versions.head := ((hok.gapless.rev v).1 (by rw [hr]; rfl)).2
  have hne : v ≠ w.versions.head + 1 := by omega
  cases hnext with
  | beginOn | put | delete | commitNothing | rollback | mergeNothing | vacuumNothing => exact hr
  | commit | merge | createBranch => exact (Versions.rev_commit_of_ne hne).trans hr
  | @dropBranch name now u => exact (Versions.rev_commit_of_ne (g := w.versions.dropRef name) hne).trans hr
  | vacuum => cases hop
  | failed =>
    split_ifs
    · exact hr
    · exact hr

lemma World.Run.rev_eq (hrun : World.Run World.Intended w ops answers w') (hok : w.Ok)
    (hops : ∀ op ∈ ops, op.compacts = false) (hr : w.versions.rev v = some r) :
    w'.versions.rev v = some r := by
  induction hrun with
  | nil => exact hr
  | cons hstep _ ih =>
    exact ih (hok.next hstep.1) (fun op hop => hops op (by simp [hop]))
      (hstep.1.rev_eq hok (hops _ (by simp)) hr)

end World

namespace Engine

section Shows
variable {k n : ℕ} {e : Engine} {w w' : World} {roots : ℕ → ℕ} {mkvs : Entries} {sha : Sha256}
  {op : StoreOp} {r : Result Answer × Engine}

lemma Shows.reads (h : e.Shows k w roots mkvs) (hn : k + 2 ≤ n) : e.Reads n w where
  head := h.store.version
  version v hv := ⟨_, h.store.snapshotAtVersion_eq (by omega) hv, h.store.readsMap hn hv v⟩
  noVersion v hv := h.store.snapshotAtVersion_none (by omega) hv
  diff v u hv hu := by
    rw [Store.diffVersions, h.store.readDataRoot_eq (by omega) hv, ok_bind,
      h.store.readDataRoot_eq (by omega) hu, ok_bind]
    exact h.store.diff_eq hn hv hu
  branch b v hb := by
    obtain ⟨page, hhead, -⟩ := h.store.resolveBranchHead_eq (n := n) (by omega) hb
    refine ⟨⟨e.store.pager, v, roots v⟩, ?_, rfl, h.store.readsMap hn
      (h.store.ok.branch_known hb) v⟩
    rw [Store.snapshotOn, hhead]
    rfl
  noBranch b hb := by
    rw [Store.snapshotOn, h.store.resolveBranchHead_none (by omega) hb]
    rfl
  history := h.store.history_eq hn
  tx tx htx := by
    obtain ⟨view, hview, hrep⟩ := h.view_some htx
    exact ⟨view, hview, hrep.branch, hrep.onBranch, hrep.scan_eq hn, hrep.get_eq (by omega)⟩

/-- Where the shortcut fits, a commit is right. -/
lemma Shows.right (h : e.Shows k w roots mkvs) (hop : op.Sized) (hfits : e.ShortcutFits n op)
    (hn : 2 * op.bound k + 2 ≤ n) (hstep : e.step sha n op = some r)
    (hnext : w.Next op r.1 w') : w.Right op r.1 w' := by
  rintro now view v rfl hview hanswer
  rw [Engine.step, Option.map_eq_some_iff] at hstep
  obtain ⟨x, hexec, rfl⟩ := hstep
  obtain ⟨tx, htx, rfl⟩ := Option.map_eq_some_iff.1 hexec
  obtain ⟨view', hview', hrep⟩ := h.view_some htx
  rw [hview] at hview'
  cases hview'
  have hbranch := hrep.onBranch
  have hknown := hrep.store.ok.branch_known hbranch
  have hparent := hrep.store.ok.known_le hknown
  have hbound : 2 * (k + 34) + 2 ≤ n := hn
  obtain ⟨page, hhead, -⟩ := h.store.resolveBranchHead_eq (n := n) (by omega) hbranch
  have hsnap : e.store.snapshotOn n tx.branch = .ok ⟨e.store.pager, view.parent, roots view.parent⟩ := by
    rw [Store.snapshotOn, hrep.branch, hhead]
    rfl
  have hfits' := fun hd => hfits tx htx hd _ hsnap
  rw [hanswer] at hnext
  obtain ⟨hcommit, hkeep⟩ := hnext.of_commit hview hparent
  by_cases hnothing : tx.ts.dirty = [] ∧ tx.data_root = tx.base.data_root
  · have hv : v = view.parent := by
      rw [execTx, hrep.commit_shortcut hnothing.1 hnothing.2] at hanswer
      cases hanswer
      rfl
    refine ⟨fun hchanged => absurd ?_ hchanged, fun _ => ⟨hv, hkeep hv⟩⟩
    -- the shortcut fits, so the branch has the map
    have hscan := (hfits' hnothing.1).1 hnothing.2
    rw [hrep.scan_eq (by omega), (h.store.readsMap (by omega) hknown _).scan] at hscan
    exact (Except.ok.inj hscan).symm
  · have hv : v = w.versions.head + 1 := by
      have houtcome := @WriteTx.Represents.commit_outcome k n _ _ _ _ _ _ now sha hrep hnothing hop
        (by omega)
      rw [execTx] at hanswer
      cases hrun : tx.commit n sha now e.store with
      | error err =>
        rw [hrun] at hanswer
        cases hanswer
      | ok res =>
        rw [hrun] at hanswer
        cases hanswer
        exact (houtcome.of_ok hrun).1
    refine ⟨fun _ => ⟨hv, hcommit hv⟩, fun htouched => absurd ?_ hnothing⟩
    obtain ⟨hdirty, hroot⟩ := hrep.untouched htouched
    exact ⟨hdirty, (hfits' hdirty).2 hroot⟩

end Shows

section Run
variable {ops₁ ops₂ : List StoreOp}

lemma Meets.append {P : Engine → StoreOp → Prop} {sha : Sha256} {n : ℕ} {e : Engine}
    (h : Meets P sha n (ops₁ ++ ops₂) e) : Meets P sha n ops₁ e ∧
      ∀ answers e', run sha n ops₁ e = some (answers, e') → Meets P sha n ops₂ e' := by
  induction ops₁ generalizing e with
  | nil =>
    refine ⟨trivial, fun answers e' hrun => ?_⟩
    cases hrun
    exact h
  | cons op ops ih =>
    refine ⟨⟨h.1, fun r hr => (ih (h.2 r hr)).1⟩, fun answers e' hrun => ?_⟩
    obtain ⟨⟨answer, e₁⟩, he₁, hrest⟩ := Option.bind_eq_some_iff.1 hrun
    obtain ⟨⟨answers', e₂⟩, he₂, heq⟩ := Option.bind_eq_some_iff.1 hrest
    cases heq
    exact (ih (h.2 _ he₁)).2 _ _ he₂

end Run
end Engine

/-- In a run without compactions whose insertions fit the cursor and whose commits fit the
shortcut, the history is kept. -/
theorem history_kept (sha : Sha256) (n : ℕ) (pager : PageLog) (hempty : pager.pages = [])
    (ops₁ ops₂ : List StoreOp) (hops : ∀ op ∈ ops₁ ++ ops₂, op.Sized ∧ op.compacts = false)
    (hmeets : Engine.Meets (fun e op => e.PutFits n op ∧ e.ShortcutFits n op) sha n (ops₁ ++ ops₂)
      (.create sha pager)) (hn : 2 * runBound (ops₁ ++ ops₂) + 2 ≤ n) :
    HistoryKept sha n pager ops₁ ops₂ := by
  intro answers₁ e₁ answers₂ e₂ hrun₁ hrun₂
  have hstep {k : ℕ} {e : Engine} {w : World} {roots : ℕ → ℕ} {mkvs : Entries} {op : StoreOp}
      {r : Result Answer × Engine} (h : e.Shows k w roots mkvs) (hop : op.Sized)
      (hfits : e.PutFits n op ∧ e.ShortcutFits n op) (hn : 2 * op.bound k + 2 ≤ n)
      (hr : e.step sha n op = some r) : ∃ w', w.Intended op r.1 w' ∧
        ∃ roots mkvs, r.2.Shows (op.bound k) w' roots mkvs := by
    obtain ⟨w', hnext, hshows⟩ := h.step hop hfits.1 hn hr
    exact ⟨w', ⟨hnext, h.right hop hfits.2 hn hr hnext⟩, hshows⟩
  obtain ⟨hmeets₁, hmeets₂⟩ := hmeets.append
  rw [runBound, List.foldl_append] at hn
  have hle := le_foldl_bound (ops₁.foldl StoreOp.bound 0) ops₂
  obtain ⟨w₁, hw₁, roots₁, mkvs₁, hshows₁⟩ := (Engine.shows_create sha hempty).run_of_step hstep
    (fun op hop => (hops op (by simp [hop])).1) hmeets₁ (by omega) hrun₁
  obtain ⟨w₂, hw₂, roots₂, mkvs₂, hshows₂⟩ := hshows₁.run_of_step hstep
    (fun op hop => (hops op (by simp [hop])).1) (hmeets₂ _ _ hrun₁) hn hrun₂
  exact ⟨w₁, w₂, hw₁, hw₂, hshows₁.reads (by omega), hshows₂.reads (by omega), fun v r hr =>
    hw₂.rev_eq hshows₁.ok (fun op hop => (hops op (by simp [hop])).2) hr⟩

/-- Without a cursor insertions fit, and with dirty pages the shortcut does. -/
def Engine.Plain (e : Engine) : StoreOp → Bool
  | .put .. => e.tx.all fun tx => tx.ts.append_cursor.isNone
  | .commit _ => e.tx.all fun tx => !tx.ts.dirty.isEmpty
  | _ => true

lemma Engine.Plain.fits {n : ℕ} {e : Engine} {op : StoreOp} (h : e.Plain op = true) :
    e.PutFits n op ∧ e.ShortcutFits n op := by
  cases op with
  | put key value =>
    refine ⟨fun tx htx cur hcur => ?_, trivial⟩
    have hnone : tx.ts.append_cursor.isNone := (Option.all_eq_true ..).1 h tx htx
    change tx.ts.append_cursor = some cur at hcur
    rw [hcur] at hnone
    cases hnone
  | commit now =>
    refine ⟨trivial, fun tx htx hdirty => ?_⟩
    have hsome := (Option.all_eq_true ..).1 h tx htx
    rw [hdirty] at hsome
    cases hsome
  | _ => exact ⟨trivial, trivial⟩

/-! ### A lost update -/

lemma length_zeros : (List.replicate 16 (0 : UInt8)).length = 16 := rfl

/-- A file to begin with. -/
def noPages : PageLog := .new ⟨_, length_zeros⟩

namespace LostUpdate

/-- A key on the main branch, a branch that begins before it, and the deletion of the key. -/
def ops : List StoreOp :=
  [.beginOn "main", .put [1] [], .commit 1, .createBranch "dev" (.version 0) 2, .beginOn "main",
    .delete [1]]

/-- What is seen then, and what a commit answers. -/
structure Seen where
  head : ℕ
  branch : String
  version : Result ℕ
  map : Result Entries
  view : Result Entries
  answer : Result Answer
  deriving DecidableEq

def seen : Option (Seen × Engine × Engine) := do
  let (_, e) ← Engine.run .std 400 ops (.create .std noPages)
  let tx ← e.tx
  let (answer, e') ← e.step .std 400 (.commit 3)
  let snap := e.store.snapshotOn 400 "main"
  some (⟨e.store.head.version, tx.branch, snap.map Snapshot.version,
    snap >>= fun snap => snap.scan 400, tx.scan 400, answer⟩, e, e')

lemma seen_eq : seen.map Prod.fst
    = some ⟨2, "main", .ok 1, .ok [([1], [])], .ok [], .ok (.version 1)⟩ := by
  decide +kernel

/-- The new branch has the empty tree of version 0, and so has the head of the store. The commit
takes the deletion of the last key of the main branch for nothing. -/
theorem deletion_lost : ¬ HistoryKept .std 400 noPages ops [.commit 3] := by
  intro h
  obtain ⟨⟨what, e₁, e₂⟩, hseen, hwhat⟩ := Option.map_eq_some_iff.1 seen_eq
  rw [seen, Option.bind_eq_bind, Option.bind_eq_some_iff] at hseen
  obtain ⟨⟨answers₁, e⟩, hrun₁, hrest⟩ := hseen
  rw [Option.bind_eq_bind, Option.bind_eq_some_iff] at hrest
  obtain ⟨tx, htx, hrest⟩ := hrest
  rw [Option.bind_eq_bind, Option.bind_eq_some_iff] at hrest
  obtain ⟨⟨answer, e'⟩, hstep, hrest⟩ := hrest
  cases hrest
  simp only [Seen.mk.injEq] at hwhat
  obtain ⟨hhead, hbranch, hversion, hmap, hview, hanswer⟩ := hwhat
  have hrun₂ : Engine.run .std 400 [.commit 3] e₁ = some ([answer], e₂) := by
    rw [Engine.run, hstep]
    rfl
  obtain ⟨w₁, w₂, -, hw, hreads, -⟩ := h _ _ _ _ hrun₁ hrun₂
  obtain ⟨view, hwview, htxbranch, hparent, hscan, -⟩ := hreads.tx tx htx
  rw [hbranch] at htxbranch
  obtain ⟨snap, hsnap, hparent', hsnapmap⟩ := hreads.branch _ _ hparent
  rw [← htxbranch] at hsnap
  rw [hsnap] at hversion hmap
  have hentries : w₁.versions.entries view.parent = [([1], [])] :=
    Except.ok.inj (hsnapmap.scan.symm.trans hmap)
  have hempty : view.entries = [] := Except.ok.inj (hscan.symm.trans hview)
  cases hw with
  | cons hright _ =>
    obtain ⟨hmade, -⟩ := hright.2 3 view 1 rfl hwview hanswer
    have hv := (hmade (by rw [hentries, hempty]; simp)).1
    rw [← hreads.head, hhead] at hv
    cases hv

/-- The theorem at a commit on the main branch, and a branch that is made after it. -/
theorem history_kept_branch : HistoryKept .std 400 noPages [.beginOn "main", .put [1] [], .commit 1]
    [.createBranch "dev" .head 2] := by
  refine history_kept .std 400 noPages rfl _ _ (by simp [StoreOp.Sized, StoreOp.compacts])
    (Engine.Meets.imp (P := fun e op => e.Plain op = true) ?_ fun e op => Engine.Plain.fits)
    (by decide)
  decide +kernel

end LostUpdate

end Arkeion
