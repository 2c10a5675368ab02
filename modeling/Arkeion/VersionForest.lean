import Arkeion.AnyTree
import Arkeion.EngineSpec

/-!
The recorded history of every store that calls can lead to, whatever became of its data trees.

A transaction writes on new pages only, so the pages of the meta tree are as they were until the
commit, and its cursor never comes to stand on the meta tree. So every call that makes a version
records it, with a parent that was recorded before.
-/

namespace Arkeion

open Arkeion.Lib Btree

/-! ### The meta tree beside a transaction -/

/-- The pages of the trees of a file; the root of no tree is one of them. -/
def treePages (pager : PageLog) : Set ℕ :=
  {id | id = NO_ROOT ∨ ∃ m n lo hi kvs F, Holds (TxPages.new pager) m n (lo, hi, id) kvs F}

section Beside
variable {pager : PageLog} {k n root : ℕ} {s : TxStore} {mkvs : Entries}

lemma closed_treePages (pager : PageLog) : TxPages.Closed pager (treePages pager) := by
  have hread {id : ℕ} {b : Bytes} (hb : NodeSource.body (TxPages.new pager) id = .ok b) :
      pager.readPage id = .ok b := sees_pager pager id b hb
  rintro id (rfl | ⟨m, n, lo, hi, kvs, F, h⟩)
  · refine ⟨Nat.lt_of_lt_of_le (show 0 < FIRST_DATA_PAGE by decide) (Nat.le_add_right ..), ?_⟩
    intro b key child hb
    cases hb
  · cases n with
    | zero => exact absurd h (fun h => h)
    | succ n =>
      obtain ⟨-, -, b, F', hb, -, hnode⟩ := h
      refine ⟨?_, fun b' key child hb' ht hc => ?_⟩
      · have hpage := hread hb
        rw [PageLog.readPage] at hpage
        split_ifs at hpage with hid
        have := (List.getElem?_eq_some_iff.1 (okOr_eq_ok.1 hpage)).1
        rw [PageLog.nPages]
        omega
      · cases (hread hb).symm.trans hb'
        rcases hnode with ⟨cells, hl⟩ | ⟨cells, rightmost, hi'⟩
        · obtain ⟨z, pfx, hshape⟩ := hl.leaf
          rw [hshape.nodeType_eq] at ht
          exact absurd ht (by decide)
        · obtain ⟨pre, post, ha⟩ := exists_around hi'.inner.sorted key
          obtain ⟨-, kc, -, -, Fc, -, -, -, -, hchild, -⟩ := hi'.around ha
          rw [hi'.inner.innerChild_eq, ha.childAt_eq] at hc
          cases hc
          exact Or.inr ⟨m, n, _, _, kc, Fc, hchild⟩

lemma Btree.TreeHolds.mem_treePages {m : ℕ} {F : List ℕ}
    (h : TreeHolds (TxPages.new pager) m n root mkvs F) : root ∈ treePages pager := by
  rcases h with ⟨rfl, -⟩ | h
  · exact Or.inl rfl
  · exact Or.inr ⟨m, n, none, none, mkvs, F, h⟩

/-- The transaction is in order, and the cursor is on no tree of the file. -/
def TxStore.Apart (pager : PageLog) (s : TxStore) : Prop := s.Clear pager (treePages pager)

/-- To a transaction in order the trees of the file are what they were. -/
lemma TxStore.Apart.frame (h : s.Apart pager) :
    Frame (TxStore.new pager) s [] (s.dirty.map Prod.fst) := by
  have hv := h.sound.2
  have hbase : s.alloc_base = pager.nPages := h.sound.1.2
  have hclean (id : ℕ) (b : Bytes) (hb : NodeSource.body (TxStore.new pager) id = .ok b) :
      id < pager.nPages ∧ pager.readPage id = .ok b := by
    rcases TxPages.body_cases hb with hd | ⟨-, hid, hread⟩
    · cases hd
    · exact ⟨hid, hread⟩
  have hnone (id : ℕ) (hid : id < pager.nPages) : valueOf id s.dirty = none := by
    refine valueOf_eq_none fun p hp heq => ?_
    have := (hv.dirty p hp).1.1
    omega
  refine ⟨hv, fun id b hb _ => ?_, fun id hid => Or.inr fun b hb => ?_, fun _ id hown => ?_⟩
  · obtain ⟨hid, hread⟩ := hclean id b hb
    refine ⟨?_, ?_⟩
    · change TxPages.body s.toTxPages id = _
      rw [TxPages.body, hnone id hid]
      dsimp only
      rw [if_neg (by omega), h.sound.1.1, hread]
    · change (valueOf id s.dirty).isSome = false
      rw [hnone id hid]
      rfl
  · obtain ⟨p, hp, rfl⟩ := List.mem_map.1 hid
    have := (hv.dirty p hp).1.1
    have := (hclean p.1 b hb).1
    omega
  · obtain ⟨b, hb⟩ := Option.isSome_iff_exists.1 hown.1
    exact Or.inl (List.mem_map.2 ⟨(id, b), (mem_iff_valueOf hv.sorted).2 hb, rfl⟩)

lemma TxStore.Apart.txHolds (h : s.Apart pager)
    (htree : TreeHolds (TxPages.new pager) k k root mkvs []) (hweight : weight mkvs ≤ k) :
    TxHolds pager k s (fun _ : Unit => root) fun _ => mkvs where
  valid := h.sound.2
  file := h.sound.1
  trees := by
    have hsees : Sees (TxPages.new pager) (TxStore.new pager) := fun _ _ hb => hb
    obtain ⟨G, hG⟩ := htree.sees hsees
    have hnil := hG.owns_nothing fun _ => rfl
    subst hnil
    exact ⟨fun _ => [], fun _ => hG.frame h.frame (by simp), fun _ => List.nodup_nil, by simp⟩
  weight_le _ := hweight

/-- No insertion into the meta tree goes by the cursor of the transaction. -/
lemma TxStore.Apart.insertFits (h : s.Apart pager) {key value : Bytes}
    (htree : TreeHolds (TxPages.new pager) k k root mkvs []) : InsertFits n s root key value := by
  intro cur hcur hroot
  exact absurd (hroot ▸ htree.mem_treePages) (h.cursor cur hcur)

end Beside

/-! ### A version that is recorded -/

section Record
variable {sha : Sha256} {k n : ℕ} {s : Store} {g : Versions} {roots : ℕ → ℕ} {mkvs : Entries}
  {ts ts' : TxStore} {pager : PageLog} {params : CommitParams} {nonce root mroot mroot' : ℕ} {r : Rev}
  {p : PageLog × Head}

lemma update_unit {α : Type} (x y : α) : Function.update (fun _ : Unit => x) () y = fun _ => y := by
  funext _
  exact Function.update_self ..

/-- A root as its eight bytes record it. -/
def recorded (root : ℕ) : ℕ := leNat (leBytes 8 root)

lemma histVal_recorded (root time parent : ℕ) :
    Store.histVal (recorded root) time parent = Store.histVal root time parent := by
  have hback := leBytes_leNat (leBytes 8 root)
  rw [length_leBytes] at hback
  rw [Store.histVal, Store.histVal, recorded, hback]

lemma recorded_lt (root : ℕ) : recorded root < 2 ^ 64 := by
  have hlt := leNat_lt (leBytes 8 root)
  rwa [length_leBytes] at hlt

lemma Indexed.record (hok : (g.commit params.branch r).Ok) (hidx : IndexesOf g roots mkvs)
    (htx : TxHolds pager k ts (fun _ : Unit => mroot) fun _ => mkvs)
    (hfits : InsertFits n ts mroot (histKey (g.head + 1)) (Store.histVal root r.time r.parent))
    (hroots : ∀ v, g.Known v → roots v < 2 ^ 64) (hname : (utf8 params.branch).length ≤ BRANCH_MAX)
    (hprev : params.prev_chain.length = 32) (hversion : params.version = g.head + 1)
    (hlt : g.head + 1 < 2 ^ 64) (hk : g.head + 1 ≤ k + 34) (hn : 2 * (k + 34) ≤ n)
    (hw : Store.writeMetaIndices n ts mroot (g.head + 1) root r.time params.branch r.parent
      = .ok (mroot', ts'))
    (hp : Store.writeCommitPages sha nonce ts' params root mroot' r.time = .ok p) :
    Indexed (k + 34) (s.install p.1 p.2) (g.commit params.branch r)
      (Function.update roots (g.head + 1) (recorded root))
      (withVersion (g.head + 1) (recorded root) params.branch r mkvs) := by
  have hsorted : SortedMap mkvs := htx.sorted ()
  have hwritten : TxHolds pager (k + 34) ts' (fun _ : Unit => mroot') fun _ =>
      withVersion (g.head + 1) (recorded root) params.branch r mkvs := by
    have hwrite := htx.writeMetaIndices (i := ()) hfits hname hn
    rw [hw] at hwrite
    rw [withVersion, histVal_recorded]
    simpa only [Outcome, update_unit] using hwrite
  have happend := @TxHolds.append sha pager (k + 34) nonce params ⟨root, mroot', r.time⟩ ts' Unit _ _ _
    hwritten hname hprev
  rw [hp] at happend
  obtain ⟨happ, htree⟩ := happend
  obtain ⟨hver, hdata, hmeta, hchain⟩ := happ.head_eq
  refine
    { ok := hok
      version := hver.trans hversion
      head_lt := hlt
      head_le := hk
      pages_lt := happ.pages_lt
      chain := hchain
      metaTree := ?_
      weight_meta := hwritten.weight_le ()
      root_lt := fun v hv => ?_
      indexes := ?_ }
  · change TreeHolds (TxPages.new p.1) (k + 34) (k + 34) p.2.meta_root _ []
    rw [hmeta]
    exact htree ()
  · rcases eq_or_ne v (g.head + 1) with rfl | hne
    · rw [Function.update_self]
      exact recorded_lt root
    · rw [Function.update_of_ne hne]
      rw [Versions.Known, Versions.rev_commit_of_ne hne] at hv
      exact hroots v hv
  · exact hidx.commit hsorted hlt

end Record

/-! ### Many keys at once -/

section Many
variable {pager : PageLog} {n root : ℕ} {s : TxStore} {r : ℕ × TxStore}

lemma TxStore.Apart.applyTargets {targets : List (Bytes × Option Bytes)} (h : s.Apart pager)
    (hsized : TargetsSized targets) (hrun : Store.applyTargets n targets s root = .ok r) :
    r.2.Apart pager := by
  induction targets generalizing s root with
  | nil =>
    cases hrun
    exact h
  | cons p targets ih =>
    obtain ⟨hp, hrest⟩ := List.forall_mem_cons.1 hsized
    obtain ⟨key, _ | v⟩ := p
    · obtain ⟨⟨root', existed, s'⟩, hdel, hrun⟩ := bind_eq_ok.1 hrun
      exact ih (h.delete (closed_treePages pager) hdel) hrest hrun
    · obtain ⟨⟨root', s'⟩, hins, hrun⟩ := bind_eq_ok.1 hrun
      exact ih (h.insert (closed_treePages pager) (hp v rfl) hins) hrest hrun

lemma TxStore.Apart.writeCounters {counters : List (ℕ × ℤ)} (h : s.Apart pager)
    (hrun : Arkeion.writeCounters n counters s root = .ok r) : r.2.Apart pager := by
  induction counters generalizing s root with
  | nil =>
    cases hrun
    exact h
  | cons c counters ih =>
    obtain ⟨⟨root', s'⟩, hins, hrun⟩ := bind_eq_ok.1 hrun
    exact ih (h.insert (closed_treePages pager) (by simp [i64Bytes]) hins) hrun

lemma planMerge_sized {into : List (Bytes × Option Bytes)} {cs : List KeyDiff}
    (hinto : TargetsSized into) (hcs : ChangesSized cs) :
    TargetsSized (Store.planMerge into cs).1 := by
  induction cs with
  | nil => exact List.forall_mem_nil _
  | cons c cs ih =>
    obtain ⟨hc, hrest⟩ := List.forall_mem_cons.1 hcs
    have ih := ih hrest
    rw [Store.planMerge]
    cases hv : valueOf c.1 into with
    | none => exact List.forall_mem_cons.2 ⟨hc, ih⟩
    | some ti =>
      have hti : ∀ v ∈ ti, v.length < 2 ^ 64 := hinto _ (mem_of_valueOf hv)
      dsimp only
      split_ifs with hcounter
      · refine List.forall_mem_cons.2 ⟨fun v hmax => ?_, ih⟩
        obtain ⟨-, hsome, hsome'⟩ := hcounter
        obtain ⟨a, ha⟩ := Option.isSome_iff_exists.1 hsome
        obtain ⟨b, hb⟩ := Option.isSome_iff_exists.1 hsome'
        cases hmax
        rw [ha, hb, Option.getD_some, Option.getD_some, Store.maxCounter]
        split_ifs
        · exact hc a ha
        · exact hti b hb
      · exact ih
      · exact ih

end Many

/-! ### The calls -/

/-- A transaction on a store whose history is recorded. -/
structure WriteTx.Beside (s : Store) (g : Versions) (tx : WriteTx) : Prop where
  base : tx.base = s.head
  meta_root : tx.meta_root = s.head.meta_root
  apart : tx.ts.Apart s.pager
  parent : g.Known tx.parent_version
  name : (utf8 tx.branch).length ≤ BRANCH_MAX
  savepoints : ∀ sp ∈ tx.savepoints,
    TxPages.Sound s.pager ⟨s.pager, sp.dirty, sp.freed, s.pager.nPages, sp.alloc_next⟩

/-- The store of the engine records the history, and its transaction has left the file alone. -/
structure Engine.Records (k : ℕ) (e : Engine) (g : Versions) (roots : ℕ → ℕ) (mkvs : Entries) :
    Prop where
  store : Indexed k e.store g roots mkvs
  held : e.store.held = e.tx.isSome
  tx : ∀ tx ∈ e.tx, tx.Beside e.store g

/-- The engine records some history. -/
def Engine.HasHistory (k : ℕ) (e : Engine) : Prop := ∃ g roots mkvs, e.Records k g roots mkvs

section Calls
variable {sha : Sha256} {k n now : ℕ} {e : Engine} {s s' : Store} {g : Versions} {roots : ℕ → ℕ}
  {mkvs : Entries} {tx tx' : WriteTx} {name : String} {v : ℕ}

lemma Indexed.held (h : Indexed k s g roots mkvs) (held : Bool) :
    Indexed k { s with held := held } g roots mkvs :=
  { h with }

lemma Indexed.records (h : Indexed k s g roots mkvs) (hheld : s.held = false) :
    (⟨s, none⟩ : Engine).Records k g roots mkvs :=
  ⟨h, hheld, fun _ htx => by cases htx⟩

/-- A version whose entry can be read is there. -/
lemma Indexed.known_of_readDataRoot (h : Indexed k s g roots mkvs) (hn : k ≤ n) (hv : v < 2 ^ 64)
    {root : ℕ} (hr : Store.readDataRoot n s.pager s.head.meta_root v = .ok root) : g.Known v := by
  rw [Store.readDataRoot] at hr
  split_ifs at hr with hzero
  · exact Or.inl hzero
  · refine Or.inr (Option.isSome_iff_ne_none.2 fun hnone => ?_)
    rw [h.readHist_none hn hv hnone] at hr
    cases hr

lemma Indexed.known_of_resolve (h : Indexed k s g roots mkvs) (hn : k ≤ n) {bh : BranchHead}
    (hr : Store.resolveBranchHead n s name = .ok bh) :
    g.Known bh.version ∧ (utf8 name).length ≤ BRANCH_MAX := by
  rw [Store.resolveBranchHead, h.readRef_eq hn, ok_bind] at hr
  cases href : g.refs name with
  | some w =>
    rw [href] at hr
    dsimp only at hr
    have hver : bh.version = w := by
      split_ifs at hr
      · cases hr
        rfl
      · obtain ⟨root, -, hr⟩ := bind_eq_ok.1 hr
        cases hr
        rfl
    rw [hver]
    exact ⟨h.ok.known_of_refs href, h.ok.refs_name _ _ href⟩
  | none =>
    rw [href] at hr
    dsimp only at hr
    split_ifs at hr with hmain
    cases hr
    exact ⟨Or.inl rfl, by rw [hmain]; decide⟩

lemma Indexed.known_of_snapshotAtVersion (h : Indexed k s g roots mkvs) (hn : k ≤ n)
    {snap : Snapshot} (hs : Store.snapshotAtVersion n s v = .ok snap) : g.Known snap.version := by
  rw [Store.snapshotAtVersion] at hs
  split_ifs at hs with hhead hgt hzero
  · cases hs
    change g.Known s.head.version
    rw [h.version]
    exact h.ok.head_known
  · cases hs
    exact Or.inl rfl
  · obtain ⟨root, hroot, hs⟩ := bind_eq_ok.1 hs
    cases hs
    have hlt := h.head_lt
    rw [← h.version] at hlt
    exact h.known_of_readDataRoot hn ((not_lt.1 hgt).trans_lt hlt) hroot

lemma Indexed.known_of_snapshotAt (h : Indexed k s g roots mkvs) (hn : k ≤ n) {at_ : AsOf}
    {snap : Snapshot} (hs : Store.snapshotAt n s at_ = .ok snap) : g.Known snap.version := by
  cases at_ with
  | head =>
    cases hs
    change g.Known s.head.version
    rw [h.version]
    exact h.ok.head_known
  | version v => exact h.known_of_snapshotAtVersion hn hs
  | timestamp ms =>
    obtain ⟨best, -, hs⟩ := bind_eq_ok.1 hs
    cases best with
    | none =>
      cases hs
      exact Or.inl rfl
    | some v => exact h.known_of_snapshotAtVersion hn hs

/-! #### Inside a transaction -/

lemma Indexed.beginOn (h : Indexed k s g roots mkvs) (hn : k ≤ n)
    (hrun : WriteTx.beginOn n s name = .ok (tx, s')) :
    (⟨s', some tx⟩ : Engine).Records k g roots mkvs := by
  obtain ⟨-, -, hrun⟩ := bind_eq_ok.1 hrun
  obtain ⟨bh, hbh, hrun⟩ := bind_eq_ok.1 hrun
  cases hrun
  obtain ⟨hknown, hname⟩ := h.known_of_resolve hn hbh
  refine ⟨h.held true, rfl, fun tx htx => ?_⟩
  cases htx
  exact ⟨rfl, rfl, TxStore.clear_new h.pages_lt, hknown, hname, List.forall_mem_nil _⟩

namespace WriteTx.Beside
variable (h : tx.Beside s g)
include h

lemma put {key value : Bytes} (hvalue : value.length < 2 ^ 64)
    (hrun : tx.put n key value = .ok tx') : tx'.Beside s g := by
  obtain ⟨⟨root, ts⟩, hins, hrun⟩ := bind_eq_ok.1 hrun
  cases hrun
  exact { h with apart := h.apart.insert (closed_treePages s.pager) hvalue hins }

lemma delete {key : Bytes} {existed : Bool} (hrun : tx.delete n key = .ok (existed, tx')) :
    tx'.Beside s g := by
  obtain ⟨⟨root, existed, ts⟩, hdel, hrun⟩ := bind_eq_ok.1 hrun
  cases hrun
  exact { h with apart := h.apart.delete (closed_treePages s.pager) hdel }

lemma savepoint : (tx.savepoint name).Beside s g := by
  refine { h with savepoints := fun sp hsp => ?_ }
  rcases List.mem_append.1 hsp with hsp | hsp
  · exact h.savepoints sp hsp
  · rw [List.mem_singleton.1 hsp]
    have hsound := h.apart.sound
    obtain ⟨hpager, hbase⟩ := hsound.1
    have heq : (⟨s.pager, tx.ts.dirty, tx.ts.freed, s.pager.nPages, tx.ts.alloc_next⟩ : TxPages)
        = tx.ts.toTxPages := by
      rw [← hbase, ← hpager]
    rw [heq]
    exact hsound

lemma rollbackToSavepoint (hrun : tx.rollbackToSavepoint name = .ok tx') : tx'.Beside s g := by
  obtain ⟨pos, -, hrun⟩ := bind_eq_ok.1 hrun
  obtain ⟨sp, hsp, hrun⟩ := bind_eq_ok.1 hrun
  cases hrun
  have hsaved := h.savepoints sp (List.mem_of_getElem? (okOr_eq_ok.1 hsp))
  obtain ⟨hpager, hbase⟩ := h.apart.sound.1
  refine
    { h with
      apart := ⟨?_, fun cur hcur => by cases hcur⟩
      savepoints := fun sp hsp => h.savepoints sp (List.mem_of_mem_take hsp) }
  change TxPages.Sound s.pager ⟨tx.ts.pager, sp.dirty, sp.freed, tx.ts.alloc_base, sp.alloc_next⟩
  rw [hpager, hbase]
  exact hsaved

lemma releaseSavepoint (hrun : tx.releaseSavepoint name = .ok tx') : tx'.Beside s g := by
  obtain ⟨pos, -, hrun⟩ := bind_eq_ok.1 hrun
  cases hrun
  exact { h with savepoints := fun sp hsp => h.savepoints sp (List.mem_of_mem_take hsp) }

end WriteTx.Beside

/-! #### Calls that make a version -/

/-- A version after the head of the store, whose pages leave the meta tree alone. -/
lemma Indexed.after (h : Indexed k s g roots mkvs) {ts ts' : TxStore}
    {root mroot parent parent_page : ℕ} {p : PageLog × Head} (hts : ts.Apart s.pager)
    (hparent : g.Known parent) (hnow : now < 2 ^ 64) (hname : (utf8 name).length ≤ BRANCH_MAX)
    (hlt : s.head.version + 1 < 2 ^ 64) (hn : 2 * (k + 34) ≤ n)
    (hw : Store.writeMetaIndices n ts s.head.meta_root (s.head.version + 1) root now name parent
      = .ok (mroot, ts'))
    (hp : Store.writeCommitPages sha s.nonce_counter ts' (.after s.head name parent_page) root mroot
      now = .ok p) : ∃ g' roots' mkvs', Indexed (k + 34) (s.install p.1 p.2) g' roots' mkvs' ∧
        g'.head = g.head + 1 := by
  rw [h.version] at hw hlt
  have hhead := h.head_le
  exact ⟨_, _, _, @Indexed.record sha k n s g roots mkvs ts ts' s.pager (.after s.head name parent_page)
    s.nonce_counter root s.head.meta_root mroot ⟨[], now, parent⟩ p (h.ok.commit hparent hnow hname)
    h.indexes (hts.txHolds h.metaTree h.weight_meta) (hts.insertFits h.metaTree) h.root_lt hname
    h.chain (congrArg (· + 1) h.version) hlt (by omega) hn hw hp, rfl⟩

lemma Indexed.commit (h : Indexed k s g roots mkvs) (htx : tx.Beside s g) (hnow : now < 2 ^ 64)
    (hn : 2 * (k + 34) ≤ n) (hrun : tx.commit n sha now s = .ok (v, s')) :
    ∃ g' roots' mkvs', Indexed (k + 34) s' g' roots' mkvs' ∧ s'.held = false := by
  rw [WriteTx.commit] at hrun
  split_ifs at hrun
  · cases hrun
    exact ⟨g, roots, mkvs, (h.held false).mono (Nat.le_add_right ..), rfl⟩
  · obtain ⟨⟨data_root, ts⟩, hcounters, hrun⟩ := bind_eq_ok.1 hrun
    obtain ⟨u, hlt, hrun⟩ := bind_eq_ok.1 hrun
    obtain ⟨⟨meta_root, ts'⟩, hw, hrun⟩ := bind_eq_ok.1 hrun
    obtain ⟨p, hp, hrun⟩ := bind_eq_ok.1 hrun
    cases hrun
    rw [require_eq_ok, htx.base] at hlt
    rw [htx.base, htx.meta_root] at hw
    rw [htx.base] at hp
    obtain ⟨g', roots', mkvs', h', -⟩ := h.after (htx.apart.writeCounters hcounters) htx.parent hnow
      htx.name hlt hn hw hp
    exact ⟨g', roots', mkvs', h', rfl⟩

lemma Indexed.createBranch (h : Indexed k s g roots mkvs) (hnow : now < 2 ^ 64)
    (hn : 2 * (k + 34) ≤ n) {start : AsOf}
    (hrun : s.createBranch sha n now name start = .ok s') :
    ∃ g' roots' mkvs', Indexed (k + 34) s' g' roots' mkvs' ∧ s'.held = false := by
  obtain ⟨_, hname, hrun⟩ := bind_eq_ok.1 hrun
  obtain ⟨_, -, hrun⟩ := bind_eq_ok.1 hrun
  obtain ⟨_, -, hrun⟩ := bind_eq_ok.1 hrun
  obtain ⟨_, -, hrun⟩ := bind_eq_ok.1 hrun
  obtain ⟨snap, hsnap, hrun⟩ := bind_eq_ok.1 hrun
  obtain ⟨from_root, -, hrun⟩ := bind_eq_ok.1 hrun
  obtain ⟨_, hlt, hrun⟩ := bind_eq_ok.1 hrun
  obtain ⟨⟨meta_root, ts⟩, hw, hrun⟩ := bind_eq_ok.1 hrun
  obtain ⟨p, hp, hrun⟩ := bind_eq_ok.1 hrun
  cases hrun
  obtain ⟨g', roots', mkvs', h', -⟩ := h.after (TxStore.clear_new h.pages_lt)
    (h.known_of_snapshotAt (n := n) (by omega) hsnap) hnow (require_eq_ok.1 hname).2
    (require_eq_ok.1 hlt) hn hw hp
  exact ⟨g', roots', mkvs', h', rfl⟩

lemma Indexed.dropBranch (h : Indexed k s g roots mkvs) (hnow : now < 2 ^ 64)
    (hn : 2 * (k + 34) ≤ n) (hrun : s.dropBranch sha n now name = .ok s') :
    ∃ g' roots' mkvs', Indexed (k + 34) s' g' roots' mkvs' ∧ s'.held = false := by
  obtain ⟨_, -, hrun⟩ := bind_eq_ok.1 hrun
  obtain ⟨_, -, hrun⟩ := bind_eq_ok.1 hrun
  obtain ⟨_, -, hrun⟩ := bind_eq_ok.1 hrun
  obtain ⟨_, -, hrun⟩ := bind_eq_ok.1 hrun
  obtain ⟨main, hmain, hrun⟩ := bind_eq_ok.1 hrun
  obtain ⟨_, hlt, hrun⟩ := bind_eq_ok.1 hrun
  obtain ⟨⟨mroot, existed, ts⟩, hdel, hrun⟩ := bind_eq_ok.1 hrun
  obtain ⟨⟨meta_root, ts'⟩, hw, hrun⟩ := bind_eq_ok.1 hrun
  obtain ⟨p, hp, hrun⟩ := bind_eq_ok.1 hrun
  cases hrun
  have hapart : (TxStore.new s.pager).Apart s.pager := TxStore.clear_new h.pages_lt
  have hdeleted := (hapart.txHolds h.metaTree h.weight_meta).delete (i := ()) (refKey name)
    (show 2 * k ≤ n by omega)
  rw [hdel] at hdeleted
  obtain ⟨htx, -, hcursor⟩ := hdeleted
  rw [update_unit, update_unit] at htx
  have hfits {key value : Bytes} : InsertFits n ts mroot key value := by
    intro cur hcur
    change cur ∈ ts.append_cursor at hcur
    rw [hcursor] at hcur
    cases hcur
  have hlt := require_eq_ok.1 hlt
  rw [h.version] at hw hlt
  have hhead := h.head_le
  have hok : ((g.dropRef name).commit MAIN_BRANCH ⟨[], now, main.version⟩).Ok :=
    (h.ok.dropRef name).commit (h.known_of_resolve (n := n) (by omega) hmain).1 hnow (by decide)
  exact ⟨_, _, _, @Indexed.record sha k n s (g.dropRef name) roots _ ts ts' s.pager
    (.after s.head MAIN_BRANCH main.commit_page) s.nonce_counter main.data_root mroot meta_root
    ⟨[], now, main.version⟩ p hok (h.indexes.dropRef name) htx hfits h.root_lt
    (show (utf8 MAIN_BRANCH).length ≤ BRANCH_MAX by decide) h.chain
    (congrArg (· + 1) h.version) hlt (by change g.head + 1 ≤ _; omega) hn hw hp, rfl⟩

/-- What a merge is to apply has its lengths, and it goes onto a branch that is there. -/
lemma Indexed.mergePlan_ok (h : Indexed k s g roots mkvs) (hn : k ≤ n) {src dst : String}
    {plan : List (Bytes × Option Bytes) × List MergeConflict} {into_root : ℕ}
    (hrun : Store.mergePlan n s src dst = .ok (plan, into_root, v)) :
    g.Known v ∧ (utf8 dst).length ≤ BRANCH_MAX ∧ TargetsSized plan.1 := by
  obtain ⟨_, -, hrun⟩ := bind_eq_ok.1 hrun
  obtain ⟨_, -, hrun⟩ := bind_eq_ok.1 hrun
  obtain ⟨found, hfound, hrun⟩ := bind_eq_ok.1 hrun
  obtain ⟨vi, hvi, hrun⟩ := bind_eq_ok.1 hrun
  obtain ⟨_, -, hrun⟩ := bind_eq_ok.1 hrun
  obtain ⟨_, -, hrun⟩ := bind_eq_ok.1 hrun
  obtain ⟨_, -, hrun⟩ := bind_eq_ok.1 hrun
  obtain ⟨_, -, hrun⟩ := bind_eq_ok.1 hrun
  obtain ⟨from_changes, hfrom, hrun⟩ := bind_eq_ok.1 hrun
  obtain ⟨into_changes, hinto, hrun⟩ := bind_eq_ok.1 hrun
  cases hrun
  rw [h.readRef_eq hn] at hfound
  cases hfound
  have href := okOr_eq_ok.1 hvi
  refine ⟨h.ok.known_of_refs href, h.ok.refs_name _ _ href,
    planMerge_sized (fun c hc w hw => ?_) (diffRange_sized hfrom)⟩
  obtain ⟨d, hd, rfl⟩ := List.mem_map.1 hc
  exact diffRange_sized hinto d hd w hw

lemma Indexed.merge (h : Indexed k s g roots mkvs) (hnow : now < 2 ^ 64)
    (hn : 2 * (k + 34) ≤ n) {src dst : String} {report : Store.MergeReport}
    (hheld : s.held = false) (hrun : s.merge sha n now src dst = .ok (report, s')) :
    ∃ g' roots' mkvs', Indexed (k + 34) s' g' roots' mkvs' ∧ s'.held = false := by
  obtain ⟨_, -, hrun⟩ := bind_eq_ok.1 hrun
  obtain ⟨⟨plan, into_root, vi⟩, hplan, hrun⟩ := bind_eq_ok.1 hrun
  obtain ⟨_, -, hrun⟩ := bind_eq_ok.1 hrun
  obtain ⟨hknown, hname, hsized⟩ := h.mergePlan_ok (show k ≤ n by omega) hplan
  dsimp only at hrun
  split at hrun
  · cases hrun
    exact ⟨g, roots, mkvs, h.mono (Nat.le_add_right ..), hheld⟩
  · obtain ⟨⟨data_root, ts⟩, happly, hrun⟩ := bind_eq_ok.1 hrun
    obtain ⟨_, hlt, hrun⟩ := bind_eq_ok.1 hrun
    obtain ⟨⟨meta_root, ts'⟩, hw, hrun⟩ := bind_eq_ok.1 hrun
    obtain ⟨p, hp, hrun⟩ := bind_eq_ok.1 hrun
    cases hrun
    have hapart : (TxStore.new s.pager).Apart s.pager := TxStore.clear_new h.pages_lt
    obtain ⟨g', roots', mkvs', h', -⟩ := h.after (hapart.applyTargets hsized happly) hknown hnow hname
      (require_eq_ok.1 hlt) hn hw hp
    exact ⟨g', roots', mkvs', h', rfl⟩

/-! #### Compactions -/

lemma Indexed.rev_of_readHist (h : Indexed k s g roots mkvs) (hn : k ≤ n) (hv : v < 2 ^ 64)
    {hist : ℕ × ℕ × ℕ} (hr : Store.readHist n s.pager s.head.meta_root v = .ok hist) :
    hist.2.1 < 2 ^ 64 := by
  cases hrev : g.rev v with
  | none =>
    rw [h.readHist_none hn hv hrev] at hr
    cases hr
  | some r =>
    rw [h.readHist_eq hn hrev] at hr
    cases hr
    exact h.ok.time_lt v r hrev

lemma sinceLoop_pos {ms m w : ℕ} (hhead : 0 < s.head.version) (hv : 0 < v)
    (hrun : Store.sinceLoop n s ms m v = .ok w) : 0 < w := by
  induction m generalizing v with
  | zero =>
    cases hrun
    exact hhead
  | succ m ih =>
    obtain ⟨hist, -, hrun⟩ := bind_eq_ok.1 hrun
    split_ifs at hrun
    · cases hrun
      exact hv
    · exact ih (Nat.succ_pos v) hrun

lemma vacuumFrontier_pos {retention : Retention} (hhead : 0 < s.head.version)
    (hrun : Store.vacuumFrontier n s retention = .ok v) : 0 < v := by
  cases retention with
  | keepAll =>
    cases hrun
    exact Nat.one_pos
  | keepLast count =>
    cases hrun
    exact lt_max_of_lt_right Nat.one_pos
  | keepSince ms => exact sinceLoop_pos hhead Nat.one_pos hrun

/-- No version, where the next one has the number `v`. -/
def Versions.upTo (v : ℕ) : Versions := ⟨v - 1, fun _ => none, fun _ => none⟩

/-- A checkpoint as the only version. -/
lemma Versions.ok_checkpoint {time : ℕ} (hv : 0 < v) (htime : time < 2 ^ 64) :
    ((upTo v).commit MAIN_BRANCH ⟨[], time, 0⟩).Ok := by
  have hhead : (upTo v).head + 1 = v := Nat.succ_pred_eq_of_pos hv
  have hrev {w : ℕ} {r : Rev} (hw : ((upTo v).commit MAIN_BRANCH ⟨[], time, 0⟩).rev w = some r) :
      w = v ∧ r = ⟨[], time, 0⟩ := by
    rcases eq_or_ne w ((upTo v).head + 1) with rfl | hne
    · rw [Versions.rev_commit_self] at hw
      cases hw
      exact ⟨hhead, rfl⟩
    · rw [Versions.rev_commit_of_ne hne] at hw
      cases hw
  have hself : ((upTo v).commit MAIN_BRANCH ⟨[], time, 0⟩).rev ((upTo v).head + 1)
      = some ⟨[], time, 0⟩ := Versions.rev_commit_self
  refine
    { rev_zero := ?_
      rev_le := fun w r hw => (hrev hw).1.trans hhead.symm |>.le
      head_known := Or.inr (by rw [show ((upTo v).commit MAIN_BRANCH ⟨[], time, 0⟩).head
        = (upTo v).head + 1 from rfl, hself]; rfl)
      parent_lt := fun w r hw => ?_
      parent_known := fun w r hw => Or.inl (by rw [(hrev hw).2])
      time_lt := fun w r hw => by rw [(hrev hw).2]; exact htime
      refs_known := fun b w hb => ?_
      refs_name := fun b w hb => ?_ }
  · exact Versions.rev_commit_of_ne (Nat.succ_ne_zero _).symm
  · obtain ⟨rfl, rfl⟩ := hrev hw
    exact hv
  · rw [Versions.refs_commit] at hb
    split_ifs at hb with hmain
    · cases hb
      rw [hself]
      rfl
    · cases hb
  · rw [Versions.refs_commit] at hb
    split_ifs at hb with hmain
    · rw [hmain]
      decide
    · cases hb

variable {f f' : NewFile}

lemma Indexed.checkpoint (h : Indexed k s g roots mkvs) (hv : 0 < v)
    (hempty : f.store.pager.pages = []) (hn : 2 * (k + 34) ≤ n)
    (hrun : Store.checkpoint sha n s f v = .ok f') :
    ∃ g' roots' mkvs', Indexed (k + 34) f'.store g' roots' mkvs' ∧ g'.head = v ∧
      v ≤ s.head.version ∧ f'.store.held = false := by
  obtain ⟨snap, hsnap, hrun⟩ := bind_eq_ok.1 hrun
  obtain ⟨items, hitems, hrun⟩ := bind_eq_ok.1 hrun
  obtain ⟨⟨data_root, ts⟩, happly, hrun⟩ := bind_eq_ok.1 hrun
  obtain ⟨hist, hhist, hrun⟩ := bind_eq_ok.1 hrun
  obtain ⟨⟨meta_root, ts'⟩, hw, hrun⟩ := bind_eq_ok.1 hrun
  obtain ⟨p, hp, hrun⟩ := bind_eq_ok.1 hrun
  cases hrun
  have hle : v ≤ s.head.version := by
    rw [Store.snapshotAtVersion] at hsnap
    split_ifs at hsnap with hhead hgt hzero
    · exact hhead.le
    · exact not_lt.1 hgt
    · exact not_lt.1 hgt
  have hhead : (Versions.upTo v).head + 1 = v := Nat.succ_pred_eq_of_pos hv
  have hbound : v ≤ k := (hle.trans_eq h.version).trans h.head_le
  have hlt : v < 2 ^ 64 := (hle.trans_eq h.version).trans_lt h.head_lt
  have htime := h.rev_of_readHist (n := n) (by omega) hlt hhist
  have hpages : f.store.pager.nPages < 2 ^ 64 := by
    rw [PageLog.nPages, hempty]
    decide
  have hapart : (TxStore.new f.store.pager).Apart f.store.pager := TxStore.clear_new hpages
  have hts : ts.Apart f.store.pager := by
    refine hapart.applyTargets (fun q hq w hw => ?_) happly
    obtain ⟨item, hitem, rfl⟩ := List.mem_map.1 hq
    cases hw
    exact scan_sized hitems item hitem
  have htree : TreeHolds (TxPages.new f.store.pager) k k NO_ROOT [] [] := Or.inl ⟨rfl, rfl, rfl⟩
  refine ⟨_, _, _, @Indexed.record sha k n f.store (Versions.upTo v) (fun _ => 0) [] ts ts'
    f.store.pager (.checkpoint v (genesisChain sha f.store.pager.fileId) MAIN_BRANCH)
    f.store.nonce_counter data_root NO_ROOT meta_root ⟨[], hist.2.1, 0⟩ p
    (Versions.ok_checkpoint hv htime) ⟨fun _ _ => rfl, fun _ => rfl, by simp⟩
    (hts.txHolds htree (Nat.zero_le _)) (hts.insertFits htree) (fun _ _ => by decide)
    (show (utf8 MAIN_BRANCH).length ≤ BRANCH_MAX by decide) (sha.length_digest _) hhead.symm
    (by rwa [hhead]) (by omega) hn (by rw [hhead]; exact hw) hp, hhead, hle, rfl⟩

/-- The version after the last one of the new file. -/
lemma Indexed.replayVersion {K : ℕ} {g' : Versions} {roots' : ℕ → ℕ} {mkvs' : Entries}
    (h : Indexed k s g roots mkvs) (hf : Indexed K f.store g' roots' mkvs') (hK : k ≤ n)
    (hv : g'.head + 1 ≤ s.head.version) (hn : 2 * (K + 34) ≤ n)
    (hrun : Store.replayVersion sha n s f (g'.head + 1) = .ok f') :
    ∃ g'' roots'' mkvs'', Indexed (K + 34) f'.store g'' roots'' mkvs'' ∧ g''.head = g'.head + 1 ∧
      f'.store.held = false := by
  obtain ⟨prev_root, -, hrun⟩ := bind_eq_ok.1 hrun
  obtain ⟨cur_root, -, hrun⟩ := bind_eq_ok.1 hrun
  obtain ⟨diffs, hdiffs, hrun⟩ := bind_eq_ok.1 hrun
  obtain ⟨⟨data_root, ts⟩, happly, hrun⟩ := bind_eq_ok.1 hrun
  obtain ⟨hist, hhist, hrun⟩ := bind_eq_ok.1 hrun
  obtain ⟨⟨meta_root, ts'⟩, hw, hrun⟩ := bind_eq_ok.1 hrun
  obtain ⟨p, hp, hrun⟩ := bind_eq_ok.1 hrun
  cases hrun
  have hlt : g'.head + 1 < 2 ^ 64 := (hv.trans_eq h.version).trans_lt h.head_lt
  have htime := h.rev_of_readHist (n := n) hK hlt hhist
  have hapart : (TxStore.new f.store.pager).Apart f.store.pager := TxStore.clear_new hf.pages_lt
  have hts : ts.Apart f.store.pager := by
    refine hapart.applyTargets (fun q hq w hw => ?_) happly
    obtain ⟨d, hd, rfl⟩ := List.mem_map.1 hq
    exact diffRange_sized hdiffs d hd w hw
  rw [← hf.version] at hw hlt
  obtain ⟨g'', roots'', mkvs'', h', hhead⟩ := hf.after hts hf.ok.head_known htime
    (show (utf8 MAIN_BRANCH).length ≤ BRANCH_MAX by decide) hlt hn
    (by rw [← hf.version]; exact hw) hp
  exact ⟨g'', roots'', mkvs'', h', hhead, rfl⟩

lemma Indexed.replay {K m : ℕ} {g' : Versions} {roots' : ℕ → ℕ} {mkvs' : Entries}
    (h : Indexed k s g roots mkvs) (hf : Indexed K f.store g' roots' mkvs') (hK : k ≤ n)
    (hheld : f.store.held = false) (hv : g'.head + m ≤ s.head.version)
    (hn : 2 * (K + 34 * m) ≤ n) (hrun : Store.replay sha n s m (g'.head + 1) f = .ok f') :
    ∃ g'' roots'' mkvs'', Indexed (K + 34 * m) f'.store g'' roots'' mkvs'' ∧
      f'.store.held = false := by
  induction m generalizing K f g' roots' mkvs' with
  | zero =>
    cases hrun
    exact ⟨g', roots', mkvs', hf, hheld⟩
  | succ m ih =>
    obtain ⟨f₁, hone, hrun⟩ := bind_eq_ok.1 hrun
    obtain ⟨g₁, roots₁, mkvs₁, hf₁, hhead, hheld₁⟩ :=
      h.replayVersion hf hK (by omega) (by omega) hone
    rw [← hhead] at hrun
    have hrest := ih hf₁ hheld₁ (by omega) (by omega) hrun
    rwa [show K + 34 + 34 * m = K + 34 * (m + 1) by omega] at hrest

lemma Indexed.vacuum (h : Indexed k s g roots mkvs) (hn : 2 * ((k + 1) * (k + 34)) ≤ n)
    {retention : Retention} {fileId : { b : Bytes // b.length = 16 }} {report : VacuumReport}
    (hrun : s.vacuum sha n retention fileId = .ok (report, f)) :
    ∃ g' roots' mkvs', Indexed ((k + 1) * (k + 34)) f.store g' roots' mkvs' ∧
      f.store.held = false := by
  obtain ⟨_, -, hrun⟩ := bind_eq_ok.1 hrun
  have hbuilt : ∃ kept_from, Store.buildCompacted sha n s
      (.create sha (.new fileId) s.nonce_counter) retention = .ok (f, kept_from) := by
    dsimp only at hrun
    split at hrun
    all_goals
      obtain ⟨_, -, hrun⟩ := bind_eq_ok.1 hrun
      obtain ⟨_, -, hrun⟩ := bind_eq_ok.1 hrun
      obtain ⟨⟨f₁, kept_from⟩, hbuild, hrun⟩ := bind_eq_ok.1 hrun
      cases hrun
      exact ⟨kept_from, hbuild⟩
  obtain ⟨kept_from, hbuild⟩ := hbuilt
  rw [Store.buildCompacted] at hbuild
  have hprod : (k + 1) * (k + 34) = k * k + 35 * k + 34 := by ring
  have hhead := h.head_le
  rw [← h.version] at hhead
  split_ifs at hbuild with hzero
  · cases hbuild
    have hcreate := (@Represents.create sha (.new fileId) rfl).indexed
    refine ⟨.genesis, fun _ => NO_ROOT, [], ?_, rfl⟩
    exact Indexed.mono (k := 0) { hcreate with } (Nat.zero_le _)
  · obtain ⟨v, hfrontier, hbuild⟩ := bind_eq_ok.1 hbuild
    obtain ⟨f₀, hcheck, hbuild⟩ := bind_eq_ok.1 hbuild
    obtain ⟨f₂, hreplay, hbuild⟩ := bind_eq_ok.1 hbuild
    cases hbuild
    have hpos := vacuumFrontier_pos (Nat.pos_of_ne_zero hzero) hfrontier
    obtain ⟨g₀, roots₀, mkvs₀, hf₀, hv, hle, hheld₀⟩ := h.checkpoint hpos rfl (by omega) hcheck
    rw [← hv] at hreplay hle hpos
    obtain ⟨g', roots', mkvs', h', hheld'⟩ :=
      h.replay hf₀ (by omega) hheld₀ (by omega) (by omega) hreplay
    exact ⟨g', roots', mkvs', h'.mono (by omega), hheld'⟩

end Calls

end Arkeion
