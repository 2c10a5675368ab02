import Mathlib.Data.Option.Defs
import Arkeion.Engine
import Arkeion.VacuumSpec
import Arkeion.VersionMerge
import Arkeion.VersionTx

/-!
What the calls on a store do to the versions it represents and to the map that the open
transaction sees. One lemma says it for each call, and carries over to runs.
-/

namespace Arkeion

open Arkeion.Lib Btree

/-! ### Versions and a view -/

/-- The versions, what the open transaction sees, and the first version that is kept. -/
structure World where
  versions : Versions
  view : Option TxView
  first : ℕ

namespace World

/-- A store without commits. -/
def genesis : World := ⟨.genesis, none, 1⟩

/-- The versions are those from the first kept one to the head, which is the head of a branch. -/
structure Ok (w : World) : Prop where
  gapless : w.versions.Gapless w.first
  branch_head : w.versions.head = 0 ∨ ∃ b, w.versions.refs b = some w.versions.head

/-- Why a call fails. -/
inductive Fails (w : World) : StoreOp → Error → Prop
  | busy {b : String} : w.view.isSome → Fails w (.beginOn b) .busy
  | branchNotFound {b : String} : w.versions.branch b = none → Fails w (.beginOn b) (.branchNotFound b)
  | key {key value : Bytes} : ¬ (key ≠ [] ∧ key.length ≤ MAX_KEY_LEN) → Fails w (.put key value)
      (.invalidInput "clave vacía o de más de 1024 bytes")
  | createBranch {name : String} {start : AsOf} {now : ℕ} {e : Error} :
      CreateError w.versions w.view.isSome name start e → Fails w (.createBranch name start now) e
  | dropBranch {name : String} {now : ℕ} {e : Error} :
      DropError w.versions w.view.isSome name e → Fails w (.dropBranch name now) e
  | mergeBusy {src dst : String} {now : ℕ} : w.view.isSome → Fails w (.merge src dst now) .busy
  | mergeBranch {src dst b : String} {now : ℕ} : b = src ∨ b = dst → w.versions.refs b = none →
      Fails w (.merge src dst now) (.branchNotFound b)
  | conflict {src dst : String} {vf vi c now : ℕ} : MergeOf w.versions src dst vf vi c →
      (w.versions.plan vf vi c).2 ≠ [] →
      Fails w (.merge src dst now) (.conflict (w.versions.plan vf vi c).2)
  | vacuumBusy {p : Retention} {fileId : { b : Bytes // b.length = 16 }} : w.view.isSome →
      Fails w (.vacuum p fileId) .busy
  | branches {p : Retention} {fileId : { b : Bytes // b.length = 16 }} : ¬ w.versions.OnlyMain →
      Fails w (.vacuum p fileId) (.invalidInput
        "vacuum requiere una sola rama: fusiona o borra las demás antes de compactar")
  | gone {p : Retention} {fileId : { b : Bytes // b.length = 16 }} :
      ¬ w.first ≤ p.reads w.versions →
      Fails w (.vacuum p fileId) (.versionNotFound (.version (p.reads w.versions)))
  | refused {op : StoreOp} {e : Error} : Refused TxStore e → Fails w op e

/-- What calls answer and what they do. A commit takes what was done for a change, or for none. -/
inductive Next (w : World) : StoreOp → Result Answer → World → Prop
  | beginOn {b : String} {v : ℕ} : w.view = none → w.versions.branch b = some v →
      Next w (.beginOn b) (.ok .done) { w with view := some (.new w.versions b v) }
  | put {view : TxView} {key value : Bytes} : w.view = some view →
      Next w (.put key value) (.ok .done) { w with view := some (view.put key value) }
  | delete {view : TxView} {key : Bytes} : w.view = some view →
      Next w (.delete key) (.ok (.existed (valueOf key view.entries).isSome))
        { w with view := some (view.delete key) }
  | commit {view : TxView} {now : ℕ} : w.view = some view →
      Next w (.commit now) (.ok (.version (w.versions.head + 1)))
        { w with versions := w.versions.commit view.branch (view.rev now), view := none }
  | commitNothing {view : TxView} {now : ℕ} : w.view = some view →
      Next w (.commit now) (.ok (.version view.parent)) { w with view := none }
  | rollback {view : TxView} : w.view = some view →
      Next w .rollback (.ok .done) { w with view := none }
  | createBranch {name : String} {start : AsOf} {now v : ℕ} : w.view = none →
      w.versions.refs name = none → w.versions.At start v →
      Next w (.createBranch name start now) (.ok .done)
        { w with versions := w.versions.createBranch name v now }
  | dropBranch {name : String} {now v : ℕ} : w.view = none → name ≠ MAIN_BRANCH →
      (w.versions.refs name).isSome → w.versions.branch MAIN_BRANCH = some v →
      Next w (.dropBranch name now) (.ok .done)
        { w with versions := w.versions.dropBranch name v now }
  | merge {src dst : String} {now vf vi c : ℕ} : w.view = none →
      MergeOf w.versions src dst vf vi c → (w.versions.plan vf vi c).2 = [] →
      (w.versions.plan vf vi c).1 ≠ [] →
      Next w (.merge src dst now)
        (.ok (.merged ⟨w.versions.head + 1, (w.versions.plan vf vi c).1.length⟩))
        { w with versions := w.versions.commit dst (w.versions.mergeRev vf vi c now) }
  | mergeNothing {src dst : String} {now vf vi c : ℕ} : w.view = none →
      MergeOf w.versions src dst vf vi c → (w.versions.plan vf vi c).2 = [] →
      (w.versions.plan vf vi c).1 = [] → Next w (.merge src dst now) (.ok (.merged ⟨vi, 0⟩)) w
  | vacuum {p : Retention} {fileId : { b : Bytes // b.length = 16 }} {report : VacuumReport} :
      w.view = none → w.versions.OnlyMain → w.first ≤ report.kept_from →
      report.kept_from ≤ w.versions.head →
      (∀ v, w.first ≤ v → v ≤ w.versions.head → (report.kept_from ≤ v ↔ p.Asks w.versions v)) →
      Next w (.vacuum p fileId) (.ok (.vacuumed report))
        ⟨w.versions.compactTo report.kept_from w.versions.head, none, report.kept_from⟩
  | vacuumNothing {p : Retention} {fileId : { b : Bytes // b.length = 16 }}
      {report : VacuumReport} : w.view = none → w.versions.head = 0 →
      Next w (.vacuum p fileId) (.ok (.vacuumed report)) w
  | failed {op : StoreOp} {e : Error} : Fails w op e →
      Next w op (.error e) (if op.consumes = true ∨ e.IsPanic then { w with view := none } else w)

section Lemmas
variable {w w' : World} {op : StoreOp} {answer : Result Answer}

lemma ok_genesis : genesis.Ok where
  gapless := ⟨le_rfl, le_rfl, fun v => by
    constructor
    · intro h
      cases h
    · rintro ⟨hv, hle⟩
      exact absurd (hv.trans hle) (by decide)⟩
  branch_head := Or.inl rfl

lemma Ok.commit (h : w.Ok) (b : String) (r : Rev) (view : Option TxView) :
    World.Ok { w with versions := w.versions.commit b r, view := view } where
  gapless := h.gapless.commit b r
  branch_head := Or.inr ⟨b, Versions.refs_commit_self⟩

lemma Ok.of_versions (h : w.Ok) (view : Option TxView) : World.Ok { w with view := view } :=
  ⟨h.gapless, h.branch_head⟩

theorem Ok.next (h : w.Ok) (hn : w.Next op answer w') : w'.Ok := by
  cases hn with
  | beginOn | put | delete | commitNothing | rollback => exact h.of_versions _
  | commit | merge => exact h.commit ..
  | createBranch => exact h.commit ..
  | dropBranch => exact ⟨(h.gapless.dropRef _).commit .., Or.inr ⟨_, Versions.refs_commit_self⟩⟩
  | mergeNothing | vacuumNothing => exact h
  | @vacuum p fileId report _ hmain hle hhead hasks =>
    have hpos := h.gapless.pos
    refine ⟨⟨by dsimp only; omega, by dsimp only [Versions.compactTo]; omega, fun v => ?_⟩,
      Or.inr ⟨MAIN_BRANCH, ?_⟩⟩
    · change ((w.versions.compactTo _ _).rev v).isSome ↔ report.kept_from ≤ v ∧ v ≤ w.versions.head
      by_cases hv : report.kept_from ≤ v ∧ v ≤ w.versions.head
      · obtain ⟨r, hr⟩ := h.gapless.known (hle.trans hv.1) hv.2
        rw [Versions.compactTo_rev hr hv.1 hv.2]
        exact iff_of_true rfl hv
      · rw [Versions.compactTo_rev_none hv]
        exact iff_of_false (by simp) hv
    · exact if_pos ⟨rfl, by omega⟩
  | failed =>
    split_ifs
    · exact h.of_versions _
    · exact h

end Lemmas

end World

/-! ### An engine and what it shows -/

/-- By how much a call can let the trees and the history grow. -/
def StoreOp.bound (k : ℕ) : StoreOp → ℕ
  | put _ value => k + (value.length + 1)
  | commit _ | createBranch .. | dropBranch .. => k + 34
  | merge .. => 3 * k + 34
  | vacuum .. => (k + 1) * (k + 34)
  | beginOn _ | delete _ | rollback => k

lemma StoreOp.le_bound (k : ℕ) (op : StoreOp) : k ≤ op.bound k := by
  cases op with
  | vacuum p fileId =>
    calc k ≤ k + 34 := Nat.le_add_right ..
      _ ≤ (k + 1) * (k + 34) := Nat.le_mul_of_pos_left _ (Nat.succ_pos k)
  | _ =>
    simp only [StoreOp.bound]
    omega

/-- The engine is a store that represents the versions, and a transaction with the view. -/
structure Engine.Shows (k : ℕ) (e : Engine) (w : World) (roots : ℕ → ℕ) (mkvs : Entries) :
    Prop where
  ok : w.Ok
  store : Represents k e.store w.versions roots mkvs
  held : e.store.held = e.tx.isSome
  tx : Option.Rel (fun tx view => tx.Represents k e.store w.versions roots mkvs view) e.tx w.view

/-- Insertions that go by the cursor of the transaction find it to fit. -/
def Engine.PutFits (n : ℕ) (e : Engine) : StoreOp → Prop
  | .put key value => ∀ tx ∈ e.tx, InsertFits n tx.ts tx.data_root key value
  | _ => True

lemma refused_isPanic {e : Error} (h : Refused TxStore e) : e.IsPanic := by
  rcases h with h | h | h | h <;> rw [h] <;> trivial

lemma WriteTx.put_key {n : ℕ} {tx : WriteTx} {key value : Bytes}
    (h : ¬ (key ≠ [] ∧ key.length ≤ MAX_KEY_LEN)) : tx.put n key value
      = .error (.invalidInput "clave vacía o de más de 1024 bytes") := by
  rw [WriteTx.put, Btree.insert, require, if_neg h]
  rfl

lemma createBranch_held {sha : Sha256} {n now : ℕ} {s s' : Store} {name : String} {start : AsOf}
    (h : s.createBranch sha n now name start = .ok s') : s.held = false := by
  obtain ⟨_, -, h⟩ := bind_eq_ok.1 h
  obtain ⟨_, hheld, _⟩ := bind_eq_ok.1 h
  exact require_eq_ok.1 hheld

lemma dropBranch_held {sha : Sha256} {n now : ℕ} {s s' : Store} {name : String}
    (h : s.dropBranch sha n now name = .ok s') : s.held = false := by
  obtain ⟨_, -, h⟩ := bind_eq_ok.1 h
  obtain ⟨_, hheld, _⟩ := bind_eq_ok.1 h
  exact require_eq_ok.1 hheld

namespace Engine
section Shows
variable {k k' n : ℕ} {e : Engine} {w : World} {roots : ℕ → ℕ} {mkvs : Entries} {sha : Sha256}
  {op : StoreOp} {r : Result Answer × Engine}

/-- A new store. -/
lemma shows_create (sha : Sha256) {pager : PageLog} (hempty : pager.pages = []) :
    (Engine.create sha pager).Shows 0 .genesis (fun _ => NO_ROOT) [] :=
  ⟨World.ok_genesis, .create sha hempty, rfl, .none⟩

namespace Shows
variable (h : e.Shows k w roots mkvs)
include h

lemma held_eq : e.store.held = w.view.isSome := by
  have htx := h.tx
  rw [h.held]
  generalize e.tx = tx at htx
  generalize w.view = view at htx
  cases htx <;> rfl

lemma closed : e.closed.Shows k { w with view := none } roots mkvs :=
  ⟨h.ok.of_versions _, h.store.held_mono, rfl, .none⟩

lemma view_none (hview : w.view = none) : e.store.held = false ∧ e.tx = none := by
  have htx : e.tx = none := by
    have := h.tx
    rw [hview] at this
    generalize e.tx = tx at this ⊢
    cases this
    rfl
  exact ⟨by rw [h.held, htx]; rfl, htx⟩

lemma view_none_of_held (hheld : e.store.held = false) : w.view = none ∧ e.tx = none := by
  have hview : w.view = none := by
    rw [h.held_eq] at hheld
    simpa using hheld
  exact ⟨hview, (h.view_none hview).2⟩

lemma view_some {tx : WriteTx} (htx : e.tx = some tx) :
    ∃ view, w.view = some view ∧ tx.Represents k e.store w.versions roots mkvs view := by
  have := h.tx
  rw [htx] at this
  generalize w.view = view at this
  cases this with
  | some hrep => exact ⟨_, rfl, hrep⟩

lemma mono (hk : k ≤ k') : e.Shows k' w roots mkvs where
  ok := h.ok
  store := h.store.mono hk
  held := h.held
  tx := by
    have htx := h.tx
    generalize e.tx = tx at htx ⊢
    generalize w.view = view at htx ⊢
    cases htx with
    | some hrep => exact .some { hrep with store := hrep.store.mono hk, holds := hrep.holds.mono hk }
    | none => exact .none

end Shows

/-- After the call the engine shows what the versions and the view have become. -/
def ShowsNext (K : ℕ) (w : World) (op : StoreOp) (r : Result Answer × Engine) : Prop :=
  ∃ w', w.Next op r.1 w' ∧ ∃ roots mkvs, r.2.Shows K w' roots mkvs

/-- After an error the engine shows what it showed, without the transaction if that is gone. -/
lemma Shows.settle (h : e.Shows k w roots mkvs) (hk : k ≤ k') {x : Result (Answer × Engine)}
    (hx : Outcome (w.Fails op) x fun p => ShowsNext k' w op (.ok p.1, p.2)) :
    ShowsNext k' w op (e.settle op x) := by
  cases x with
  | ok p => exact hx
  | error err =>
    refine ⟨_, .failed hx, roots, mkvs, ?_⟩
    change (if op.consumes = true ∨ err.IsPanic then e.closed else e).Shows _ _ _ _
    split_ifs
    · exact h.closed.mono hk
    · exact h.mono hk

/-! ### One lemma for each call -/

section Calls
variable (h : e.Shows k w roots mkvs)
include h

lemma Shows.beginOn {b : String} (hn : k ≤ n) : Outcome (w.Fails (.beginOn b))
    (e.execStore sha n (.beginOn b)) fun p => ShowsNext k w (.beginOn b) (.ok p.1, p.2) := by
  rw [execStore]
  cases hview : w.view with
  | some view =>
    have hheld := h.held_eq
    rw [hview] at hheld
    rw [WriteTx.beginOn, require, if_neg (by rw [hheld]; simp)]
    exact World.Fails.busy (by rw [hview]; rfl)
  | none =>
    obtain ⟨hheld, -⟩ := h.view_none hview
    cases hb : w.versions.branch b with
    | none =>
      rw [h.store.beginOn_none hn hheld hb]
      exact World.Fails.branchNotFound hb
    | some v =>
      obtain ⟨tx, hbegin, hrep⟩ := h.store.beginOn_eq hn hheld hb
      rw [hbegin]
      exact ⟨_, .beginOn hview hb, roots, mkvs, h.ok.of_versions _, h.store.held_mono, rfl,
        .some hrep⟩

lemma Shows.put {tx : WriteTx} (htx : e.tx = some tx) {key value : Bytes}
    (hvalue : value.length < 2 ^ 64) (hfits : InsertFits n tx.ts tx.data_root key value)
    (hn : 2 * (k + (value.length + 1)) ≤ n) : Outcome (w.Fails (.put key value))
      (e.execTx sha n tx (.put key value)) fun p =>
        ShowsNext (k + (value.length + 1)) w (.put key value) (.ok p.1, p.2) := by
  obtain ⟨view, hview, hrep⟩ := h.view_some htx
  rw [execTx]
  by_cases hkey : key ≠ [] ∧ key.length ≤ MAX_KEY_LEN
  swap
  · rw [WriteTx.put_key hkey]
    exact World.Fails.key hkey
  have hok : (MapOp.insert key value).Ok := ⟨List.length_pos_iff.2 hkey.1, hkey.2, hvalue⟩
  refine Outcome.bind ((hrep.put_outcome hok hn hfits).weaken fun err => .refused) fun tx' _ hrep' =>
    ⟨_, .put hview, roots, mkvs, h.ok.of_versions _, h.store.mono (Nat.le_add_right ..), ?_,
      .some hrep'⟩
  rw [h.held, htx]
  rfl

lemma Shows.delete {tx : WriteTx} (htx : e.tx = some tx) {key : Bytes} (hn : 2 * k ≤ n) :
    Outcome (w.Fails (.delete key)) (e.execTx sha n tx (.delete key)) fun p =>
      ShowsNext k w (.delete key) (.ok p.1, p.2) := by
  obtain ⟨view, hview, hrep⟩ := h.view_some htx
  rw [execTx]
  refine Outcome.bind ((hrep.delete_outcome hn).weaken fun err => .refused) ?_
  rintro ⟨existed, tx'⟩ - ⟨rfl, hrep'⟩
  refine ⟨_, .delete hview, roots, mkvs, h.ok.of_versions _, h.store, ?_, .some hrep'⟩
  change e.store.held = _
  rw [h.held, htx]
  rfl

lemma Shows.commit {tx : WriteTx} (htx : e.tx = some tx) {now : ℕ} (hnow : now < 2 ^ 64)
    (hn : 2 * (k + 34) ≤ n) : Outcome (w.Fails (.commit now)) (e.execTx sha n tx (.commit now))
      fun p => ShowsNext (k + 34) w (.commit now) (.ok p.1, p.2) := by
  obtain ⟨view, hview, hrep⟩ := h.view_some htx
  rw [execTx]
  by_cases hnothing : tx.ts.dirty = [] ∧ tx.data_root = tx.base.data_root
  · rw [hrep.commit_shortcut hnothing.1 hnothing.2]
    exact ⟨_, .commitNothing hview, roots, mkvs, h.ok.of_versions _,
      (h.store.mono (Nat.le_add_right ..)).held_mono, rfl, .none⟩
  · refine Outcome.bind ((hrep.commit_outcome hnothing hnow hn).weaken fun err => .refused) ?_
    rintro ⟨version, store⟩ - ⟨rfl, hheld, roots', mkvs', hstore⟩
    exact ⟨_, .commit hview, roots', mkvs', h.ok.commit .., hstore, hheld, .none⟩

lemma Shows.createBranch {name : String} {start : AsOf} {now : ℕ} (hnow : now < 2 ^ 64)
    (hn : 2 * (k + 34) ≤ n) : Outcome (w.Fails (.createBranch name start now))
      (e.execStore sha n (.createBranch name start now)) fun p =>
        ShowsNext (k + 34) w (.createBranch name start now) (.ok p.1, p.2) := by
  rw [execStore]
  have hcreate := @Represents.createBranch_outcome _ _ _ _ _ _ _ name sha start h.store hnow hn
  rw [h.held_eq] at hcreate
  refine Outcome.bind (hcreate.weaken fun err => .createBranch) ?_
  rintro store hrun ⟨hheld, href, v, hv, roots', mkvs', hstore⟩
  obtain ⟨hview, htx⟩ := h.view_none_of_held (createBranch_held hrun)
  refine ⟨_, .createBranch hview href hv, roots', mkvs', h.ok.commit .., hstore, ?_, ?_⟩
  · change store.held = e.tx.isSome
    rw [hheld, htx]
    rfl
  · change Option.Rel _ e.tx w.view
    rw [htx, hview]
    exact .none

lemma Shows.dropBranch {name : String} {now : ℕ} (hnow : now < 2 ^ 64) (hn : 2 * (k + 34) ≤ n) :
    Outcome (w.Fails (.dropBranch name now)) (e.execStore sha n (.dropBranch name now)) fun p =>
      ShowsNext (k + 34) w (.dropBranch name now) (.ok p.1, p.2) := by
  rw [execStore]
  have hdrop := @Represents.dropBranch_outcome _ _ _ _ _ _ _ name sha h.store hnow hn
  rw [h.held_eq] at hdrop
  refine Outcome.bind (hdrop.weaken fun err => .dropBranch) ?_
  rintro store hrun ⟨hheld, hname, href, v, hv, roots', mkvs', hstore⟩
  obtain ⟨hview, htx⟩ := h.view_none_of_held (dropBranch_held hrun)
  have hnext : w.Next (.dropBranch name now) (.ok .done) _ := .dropBranch hview hname href hv
  refine ⟨_, hnext, roots', mkvs', h.ok.next hnext, hstore, ?_, ?_⟩
  · change store.held = e.tx.isSome
    rw [hheld, htx]
    rfl
  · change Option.Rel _ e.tx w.view
    rw [htx, hview]
    exact .none

lemma Shows.merge {src dst : String} {now : ℕ} (hnow : now < 2 ^ 64)
    (hn : 2 * (3 * k + 34) + 2 ≤ n) : Outcome (w.Fails (.merge src dst now))
      (e.execStore sha n (.merge src dst now)) fun p =>
        ShowsNext (3 * k + 34) w (.merge src dst now) (.ok p.1, p.2) := by
  rw [execStore]
  cases hview : w.view with
  | some view =>
    have hheld := h.held_eq
    rw [hview] at hheld
    rw [Store.merge, require, if_neg (by rw [hheld]; simp)]
    exact World.Fails.mergeBusy (by rw [hview]; rfl)
  | none =>
    obtain ⟨hheld, htx⟩ := h.view_none hview
    by_cases hrefs : ∃ vf vi, w.versions.refs src = some vf ∧ w.versions.refs dst = some vi
    swap
    · have hno : w.versions.refs src = none ∨ w.versions.refs dst = none := by
        by_contra hsome
        rw [not_or, ← ne_eq, ← ne_eq, Option.ne_none_iff_exists', Option.ne_none_iff_exists'] at hsome
        obtain ⟨⟨vf, hvf⟩, vi, hvi⟩ := hsome
        exact hrefs ⟨vf, vi, hvf, hvi⟩
      obtain ⟨b, hb, hbnone, hmerge⟩ := @Represents.merge_no_ref _ n now _ _ _ _ src dst sha
        h.store (by omega) hheld hno
      rw [hmerge]
      exact World.Fails.mergeBranch hb hbnone
    obtain ⟨vf, vi, hvf, hvi⟩ := hrefs
    obtain ⟨c, hm⟩ := h.store.exists_mergeOf (n := n) (by omega) hvf hvi
    by_cases hc : (w.versions.plan vf vi c).2 = []
    swap
    · rw [h.store.merge_conflict hm (by omega) hheld hc]
      exact World.Fails.conflict hm hc
    by_cases hp : (w.versions.plan vf vi c).1 = []
    · rw [h.store.merge_nothing hm (by omega) hheld hc hp]
      exact ⟨_, .mergeNothing hview hm hc hp, roots, mkvs, h.mono (by omega)⟩
    · refine Outcome.bind ((h.store.merge_outcome hm hheld hc hp hnow hn).weaken fun err =>
        .refused) ?_
      rintro ⟨report, store⟩ - ⟨rfl, hheld', roots', mkvs', hstore⟩
      refine ⟨_, .merge hview hm hc hp, roots', mkvs', h.ok.commit .., hstore, ?_, ?_⟩
      · change store.held = e.tx.isSome
        rw [hheld', htx]
        rfl
      · change Option.Rel _ e.tx w.view
        rw [htx, hview]
        exact .none

lemma Shows.vacuum {p : Retention} {fileId : { b : Bytes // b.length = 16 }}
    (hn : 2 * ((k + 1) * (k + 34)) + 2 ≤ n) : Outcome (w.Fails (.vacuum p fileId))
      (e.execStore sha n (.vacuum p fileId)) fun r =>
        ShowsNext ((k + 1) * (k + 34)) w (.vacuum p fileId) (.ok r.1, r.2) := by
  have hk : k + 34 ≤ (k + 1) * (k + 34) := Nat.le_mul_of_pos_left _ (Nat.succ_pos k)
  rw [execStore]
  cases hview : w.view with
  | some view =>
    have hheld := h.held_eq
    rw [hview] at hheld
    rw [Store.vacuum, require, if_neg (by rw [hheld]; simp)]
    exact World.Fails.vacuumBusy (by rw [hview]; rfl)
  | none =>
    obtain ⟨hheld, htx⟩ := h.view_none hview
    by_cases hmain : w.versions.OnlyMain
    swap
    · rw [h.store.vacuum_branches hheld hmain (by omega)]
      exact World.Fails.branches hmain
    by_cases hreads : w.versions.head = 0 ∨ w.first ≤ p.reads w.versions
    swap
    · rw [not_or] at hreads
      rw [h.store.vacuum_gone h.ok.gapless hheld hmain (Nat.pos_of_ne_zero hreads.1) hreads.2
        (by omega)]
      exact World.Fails.gone hreads.2
    refine Outcome.bind ((h.store.vacuum_outcome h.ok.gapless hheld hmain hreads hn).weaken
      fun err => .refused) ?_
    rintro ⟨report, file⟩ - hcompacted
    obtain ⟨roots', mkvs', hstore⟩ := hcompacted.represents
    have hheld' : file.store.held = e.tx.isSome := by
      rw [hcompacted.held, htx]
      rfl
    have hnone {g : Versions} : Option.Rel (fun tx view =>
        WriteTx.Represents ((k + 1) * (k + 34)) file.store g roots' mkvs' tx view) e.tx none := by
      rw [htx]
      exact .none
    by_cases hzero : w.versions.head = 0
    · have hgenesis := h.store.ok.eq_genesis hzero
      have hsame : w.versions.compactTo report.kept_from w.versions.head = w.versions := by
        rw [hzero, hgenesis]
        exact Versions.compactTo_zero rfl
      rw [hsame] at hstore
      exact ⟨_, .vacuumNothing hview hzero, roots', mkvs', h.ok, hstore, hheld', hview ▸ hnone⟩
    · have hnext : w.Next (.vacuum p fileId) (.ok (.vacuumed report)) _ :=
        .vacuum hview hmain (hcompacted.first_le.resolve_right hzero) hcompacted.le_head
          hcompacted.frontier
      exact ⟨_, hnext, roots', mkvs', h.ok.next hnext, hstore, hheld', hnone⟩

end Calls

/-- One lemma for all calls. -/
theorem Shows.step (h : e.Shows k w roots mkvs) (hop : op.Sized) (hfits : e.PutFits n op)
    (hn : 2 * op.bound k + 2 ≤ n) (hstep : e.step sha n op = some r) :
    ShowsNext (op.bound k) w op r := by
  have hk := op.le_bound k
  rw [Engine.step, Option.map_eq_some_iff] at hstep
  obtain ⟨x, hexec, rfl⟩ := hstep
  cases op with
  | put key value =>
    obtain ⟨tx, htx, rfl⟩ := Option.map_eq_some_iff.1 hexec
    exact h.settle hk (h.put htx hop (hfits tx htx) (Nat.le_of_add_right_le hn))
  | delete key =>
    obtain ⟨tx, htx, rfl⟩ := Option.map_eq_some_iff.1 hexec
    exact h.settle hk (h.delete htx (Nat.le_of_add_right_le hn))
  | commit now =>
    obtain ⟨tx, htx, rfl⟩ := Option.map_eq_some_iff.1 hexec
    exact h.settle hk (h.commit htx hop (Nat.le_of_add_right_le hn))
  | rollback =>
    obtain ⟨tx, htx, rfl⟩ := Option.map_eq_some_iff.1 hexec
    obtain ⟨view, hview, -⟩ := h.view_some htx
    exact ⟨_, .rollback hview, roots, mkvs, h.closed⟩
  | beginOn b =>
    cases hexec
    rw [StoreOp.bound] at hn
    exact h.settle hk (h.beginOn (by omega))
  | createBranch name start now =>
    cases hexec
    exact h.settle hk (h.createBranch hop (Nat.le_of_add_right_le hn))
  | dropBranch name now =>
    cases hexec
    exact h.settle hk (h.dropBranch hop (Nat.le_of_add_right_le hn))
  | merge src dst now =>
    cases hexec
    exact h.settle hk (h.merge hop hn)
  | vacuum p fileId =>
    cases hexec
    exact h.settle hk (h.vacuum hn)

end Shows

/-! ### Runs -/

/-- All calls of a run meet a condition in the state they are made in. -/
def Meets (P : Engine → StoreOp → Prop) (sha : Sha256) (n : ℕ) : List StoreOp → Engine → Prop
  | [], _ => True
  | op :: ops, e => P e op ∧ ∀ r, e.step sha n op = some r → Meets P sha n ops r.2

instance (P : Engine → StoreOp → Prop) [∀ e op, Decidable (P e op)] (sha : Sha256) (n : ℕ)
    (ops : List StoreOp) (e : Engine) : Decidable (Meets P sha n ops e) :=
  go ops e
where
  go : (ops : List StoreOp) → (e : Engine) → Decidable (Meets P sha n ops e)
    | [], _ => .isTrue trivial
    | op :: ops, e =>
      match hstep : e.step sha n op with
      | none => decidable_of_iff (P e op) ⟨fun h => ⟨h, fun r hr => by rw [hstep] at hr; cases hr⟩,
          fun h => h.1⟩
      | some r =>
        have := go ops r.2
        decidable_of_iff (P e op ∧ Meets P sha n ops r.2) ⟨fun h => ⟨h.1, fun r' hr => by
          rw [hstep] at hr; cases hr; exact h.2⟩, fun h => ⟨h.1, h.2 r hstep⟩⟩

lemma Meets.imp {P Q : Engine → StoreOp → Prop} {sha : Sha256} {n : ℕ} {ops : List StoreOp}
    {e : Engine} (h : Meets P sha n ops e) (hPQ : ∀ e op, P e op → Q e op) : Meets Q sha n ops e := by
  induction ops generalizing e with
  | nil => trivial
  | cons op ops ih => exact ⟨hPQ e op h.1, fun r hr => ih (h.2 r hr)⟩

end Engine

/-- The calls one after the other, each as the relation says. -/
inductive World.Run (R : World → StoreOp → Result Answer → World → Prop) :
    World → List StoreOp → List (Result Answer) → World → Prop
  | nil (w : World) : World.Run R w [] [] w
  | cons {w w' w'' : World} {op : StoreOp} {ops : List StoreOp} {answer : Result Answer}
      {answers : List (Result Answer)} : R w op answer w' → World.Run R w' ops answers w'' →
      World.Run R w (op :: ops) (answer :: answers) w''

/-- By how much the calls of a run can let the trees and the history grow. -/
def runBound (ops : List StoreOp) : ℕ := ops.foldl StoreOp.bound 0

lemma le_foldl_bound (k : ℕ) (ops : List StoreOp) : k ≤ ops.foldl StoreOp.bound k := by
  induction ops generalizing k with
  | nil => exact le_rfl
  | cons op ops ih => exact (op.le_bound k).trans (ih _)

namespace Engine

section Run
variable {sha : Sha256} {n : ℕ} {P : Engine → StoreOp → Prop}
  {R : World → StoreOp → Result Answer → World → Prop} {k : ℕ} {e e' : Engine} {w : World}
  {roots : ℕ → ℕ} {mkvs : Entries} {ops : List StoreOp} {answers : List (Result Answer)}

/-- A step whose effect is known under a condition gives the effect of the runs whose steps meet
the condition. -/
theorem Shows.run_of_step (h : e.Shows k w roots mkvs)
    (hstep : ∀ {k e w roots mkvs op r}, Shows k e w roots mkvs → op.Sized → P e op →
      2 * op.bound k + 2 ≤ n → e.step sha n op = some r → ∃ w', R w op r.1 w' ∧
        ∃ roots mkvs, r.2.Shows (op.bound k) w' roots mkvs)
    (hops : ∀ op ∈ ops, op.Sized) (hmeets : Meets P sha n ops e)
    (hn : 2 * ops.foldl StoreOp.bound k + 2 ≤ n) (hrun : run sha n ops e = some (answers, e')) :
    ∃ w', World.Run R w ops answers w' ∧
      ∃ roots mkvs, e'.Shows (ops.foldl StoreOp.bound k) w' roots mkvs := by
  induction ops generalizing k e w roots mkvs answers with
  | nil =>
    cases hrun
    exact ⟨w, .nil w, roots, mkvs, h⟩
  | cons op ops ih =>
    obtain ⟨⟨answer, e₁⟩, he₁, hrest⟩ := Option.bind_eq_some_iff.1 hrun
    obtain ⟨⟨answers', e₂⟩, he₂, heq⟩ := Option.bind_eq_some_iff.1 hrest
    cases heq
    have hle := le_foldl_bound (op.bound k) ops
    rw [List.foldl_cons] at hn ⊢
    obtain ⟨w₁, hR, roots₁, mkvs₁, h₁⟩ :=
      hstep h (hops op (by simp)) hmeets.1 (by omega) he₁
    obtain ⟨w₂, hrun', hshows⟩ :=
      ih h₁ (fun op' hop' => hops op' (by simp [hop'])) (hmeets.2 _ he₁) hn he₂
    exact ⟨w₂, .cons hR hrun', hshows⟩

/-- Whatever is done on a new store with insertions that fit the cursor, the engine shows the
versions and the view that come of it. -/
theorem run_shows {pager : PageLog} (hempty : pager.pages = []) (hops : ∀ op ∈ ops, op.Sized)
    (hmeets : Meets (PutFits n) sha n ops (.create sha pager)) (hn : 2 * runBound ops + 2 ≤ n)
    (hrun : run sha n ops (.create sha pager) = some (answers, e')) :
    ∃ w', World.Run World.Next .genesis ops answers w' ∧
      ∃ roots mkvs, e'.Shows (runBound ops) w' roots mkvs :=
  (shows_create sha hempty).run_of_step (fun h => h.step) hops hmeets hn hrun

end Run
end Engine

end Arkeion
