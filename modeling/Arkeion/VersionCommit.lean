import Arkeion.VersionSpec

/-!
Publishing: what a transaction wrote becomes pages of the file, and the store represents one
version more. Nothing that was there before reads differently.
-/

namespace Arkeion

open Arkeion.Lib Btree

/-! ### The pages that are written -/

section Pages
variable {pager pager' : PageLog} {p : TxPages} {id : ℕ} {b : Bytes}

lemma PageLog.extend_eq {bodies : List Bytes} (h : ∀ b ∈ bodies, b.length = BODY_SIZE) :
    ∃ l, pager.extend bodies = .ok l ∧ l.fileId = pager.fileId ∧ l.pages = pager.pages ++ bodies :=
  ⟨_, dif_pos h, rfl, rfl⟩

lemma PageLog.readPage_eq (hid : FIRST_DATA_PAGE ≤ id) :
    pager.readPage id = okOr pager.pages[id - FIRST_DATA_PAGE]? (.corrupt id "página fuera de rango") :=
  if_neg (not_lt.2 hid)

lemma TxPages.length_bodies (p : TxPages) : p.bodies.length = p.alloc_next - p.alloc_base := by
  rw [bodies, List.length_map, List.length_range]

lemma TxPages.Valid.length_of_bodies (h : p.Valid) : ∀ b ∈ p.bodies, b.length = BODY_SIZE := by
  intro b hb
  obtain ⟨i, -, rfl⟩ := List.mem_map.1 hb
  cases hd : valueOf (p.alloc_base + i) p.dirty with
  | none => exact List.length_replicate ..
  | some c => exact (h.dirty (p.alloc_base + i, c) (mem_of_valueOf hd)).2

/-- A longer file has the pages of the shorter one. -/
lemma sees_append {bodies : List Bytes} (h : pager'.pages = pager.pages ++ bodies) :
    Sees (TxPages.new pager) (TxPages.new pager') := by
  intro id b hb
  rcases TxPages.body_cases hb with hd | ⟨-, hlt, hread⟩
  · cases hd
  · change TxPages.body _ id = _
    change pager.readPage id = _ at hread
    rw [PageLog.readPage] at hread
    split_ifs at hread with hid
    have hpage := okOr_eq_ok.1 hread
    have hlt' : id < pager'.nPages := by
      obtain ⟨hi, -⟩ := List.getElem?_eq_some_iff.1 hpage
      rw [PageLog.nPages, h, List.length_append]
      omega
    change (if pager'.nPages ≤ id then _ else pager'.readPage id) = _
    rw [if_neg (not_le.2 hlt'), PageLog.readPage_eq (not_lt.1 hid), h]
    rw [List.getElem?_append_left (List.getElem?_eq_some_iff.1 hpage).1, hpage]
    rfl

/-- Behind them come those of the transaction. -/
lemma TxPages.Valid.sees_published (h : p.Valid) {bodies : List Bytes}
    (hpages : pager'.pages = p.pager.pages ++ (p.bodies ++ bodies)) :
    Sees p (TxPages.new pager') := by
  intro id b hb
  rcases body_cases hb with hd | ⟨-, hlt, hread⟩
  · obtain ⟨⟨hge, hlt⟩, -⟩ := h.dirty (id, b) (mem_of_valueOf hd)
    have hbase : p.alloc_base = FIRST_DATA_PAGE + p.pager.pages.length := h.base
    have hlt' : id < pager'.nPages := by
      rw [PageLog.nPages, hpages, List.length_append, List.length_append, length_bodies]
      omega
    have hpage : pager'.pages[id - FIRST_DATA_PAGE]? = some b := by
      rw [hpages, List.getElem?_append_right (by omega), List.getElem?_append_left (by
        rw [length_bodies]; omega), TxPages.bodies, List.getElem?_map, List.getElem?_range (by omega)]
      have hi : p.alloc_base + (id - FIRST_DATA_PAGE - p.pager.pages.length) = id := by omega
      rw [Option.map_some, hi, hd]
      rfl
    change (if pager'.nPages ≤ id then _ else pager'.readPage id) = _
    rw [if_neg (not_le.2 hlt'), PageLog.readPage_eq (by omega), hpage]
    rfl
  · have hnew : NodeSource.body (TxPages.new p.pager) id = .ok b := by
      change (if p.pager.nPages ≤ id then _ else p.pager.readPage id) = _
      rw [if_neg (by rw [← h.base]; exact not_le.2 hlt), hread]
    exact sees_append hpages id b hnew

end Pages

/-! ### The commit page -/

section Write
variable {sha : Sha256} {pager : PageLog} {ts : TxStore} {params : CommitParams}
  {nonce data_root meta_root now : ℕ}

lemma length_commitBody (hbranch : (utf8 params.branch).length ≤ BRANCH_MAX)
    (hprev : params.prev_chain.length = 32) (d : CommitData) (bodies : List Bytes) :
    (commitBody (commitHeader sha params d nonce bodies)).length = BODY_SIZE := by
  have hfields : (commitHeader sha params d nonce bodies).fields.length = 240 := by
    have hcontent := sha.length_digest bodies.flatten
    simp [CommitHeader.fields, commitHeader, MAGIC_COMMIT, length_branchField hbranch, hprev,
      hcontent, CommitHeader.computeChain, sha.length_digest, BRANCH_MAX]
  rw [commitBody, CommitHeader.encodeInto, length_writeAt]
  · exact List.length_replicate ..
  · rw [hfields, zeroBody, List.length_replicate]
    decide

/-- The pages of the transaction are behind those of the file, and the commit page behind them. -/
lemma writeCommitPages_outcome (hv : LawfulNodeStore.Valid ts)
    (hbranch : (utf8 params.branch).length ≤ BRANCH_MAX) (hprev : params.prev_chain.length = 32) :
    Outcome (· = ADD_OVERFLOW) (Store.writeCommitPages sha nonce ts params data_root meta_root now)
      fun r => (ts.alloc_next + 1 < 2 ^ 64 ∧ nonce + ts.bodies.length + 1 < 2 ^ 64) ∧
        r.1.fileId = ts.pager.fileId ∧
        ∃ header, header = commitHeader sha params ⟨data_root, meta_root, now⟩
            (nonce + ts.bodies.length) ts.bodies ∧
          r.1.pages = ts.pager.pages ++ (ts.bodies ++ [commitBody header]) ∧
          r.2 = headFrom header ts.alloc_next := by
  rw [Store.writeCommitPages]
  dsimp only
  by_cases hlt : ts.alloc_next + 1 < 2 ^ 64 ∧ nonce + ts.bodies.length + 1 < 2 ^ 64
  · rw [require_pos hlt, ok_bind]
    set header := commitHeader sha params ⟨data_root, meta_root, now⟩ (nonce + ts.bodies.length)
      ts.bodies with hheader
    have hlen : ∀ b ∈ ts.bodies ++ [commitBody header], b.length = BODY_SIZE := by
      intro b hb
      rcases List.mem_append.1 hb with hb | hb
      · exact TxPages.Valid.length_of_bodies hv b hb
      · rw [List.mem_singleton.1 hb]
        exact length_commitBody hbranch hprev _ _
    obtain ⟨l, hl, hid, hpages⟩ := @PageLog.extend_eq ts.pager _ hlen
    rw [hl, ok_bind]
    exact ⟨hlt, hid, header, rfl, hpages, rfl⟩
  · rw [require, if_neg hlt]
    exact rfl

/-- A commit page points into the file. -/
lemma Built.commit_page_lt {l : PageLog} {head : Head} {ws : List Written}
    (h : Built sha l head ws) : head.commit_page < l.nPages := by
  cases h with
  | genesis hempty =>
    exact Nat.lt_of_lt_of_le (show 0 < FIRST_DATA_PAGE by decide) (Nat.le_add_right ..)
  | @checkpoint l _ _ _ _ _ _ hd hempty _ hh hs hid hp =>
    change l.nPages + _ < FIRST_DATA_PAGE + _
    rw [hp, PageLog.nPages, hempty, List.length_append, List.length_singleton, List.length_nil]
    omega
  | @commit l _ _ _ _ _ _ _ _ hd hb hh hs hid hp =>
    change l.nPages + _ < FIRST_DATA_PAGE + _
    rw [hp, PageLog.nPages, List.length_append, List.length_append, List.length_singleton]
    omega

/-- The numbers of a commit fit their fields. -/
structure CommitFits (params : CommitParams) (d : CommitData) : Prop where
  flags : params.flags < 2 ^ 32
  version : params.version < 2 ^ 64
  prev_page : params.prev_page < 2 ^ 64
  parent_page : params.parent_page < 2 ^ 64
  branch : (utf8 params.branch).length ≤ BRANCH_MAX
  prev_chain : params.prev_chain.length = 32
  time : d.timestamp_ms < 2 ^ 64
  data_root : d.data_root < 2 ^ 64
  meta_root : d.meta_root < 2 ^ 64

lemma CommitFits.sized {d : CommitData} (h : CommitFits params d) {bodies : List Bytes}
    (hnonce : nonce + 1 < 2 ^ 64) (hlen : bodies.length + 1 < 2 ^ 64) :
    (commitHeader sha params d nonce bodies).Sized :=
  ⟨h.flags, h.version, h.parent_page, h.prev_page, h.time, h.data_root, h.meta_root, hnonce, hlen,
    h.branch, sha.length_digest _, h.prev_chain, sha.length_digest _⟩

end Write

/-! ### A tree that was published -/

section Trees
variable {pager pager' : PageLog} {ts : TxStore} {k m n root : ℕ} {kvs : Entries} {F : List ℕ}

lemma TxPages.isDirty_new (id : ℕ) : NodeStore.isDirty (TxPages.new pager) id = false := rfl

lemma Btree.TreeHolds.root_lt {σ : Type} [NodeStore σ] {s : σ} (h : TreeHolds s m n root kvs F) :
    root < 2 ^ 64 := by
  rcases h with ⟨hroot, -, -⟩ | hholds
  · rw [hroot]
    decide
  · cases n with
    | zero => exact absurd hholds (fun h => h)
    | succ n => exact hholds.2.1

lemma Btree.TreeHolds.committed {σ : Type} [NodeStore σ] {s : σ} (h : TreeHolds s m n root kvs F)
    (hs : Sees s (TxPages.new pager)) : TreeHolds (TxPages.new pager) m n root kvs [] := by
  obtain ⟨G, hG⟩ := h.sees hs
  have hnil := hG.owns_nothing TxPages.isDirty_new
  exact hnil ▸ hG

/-- A transaction begins with trees of the file, and none of their pages is its own. -/
lemma txHolds_new {ι : Type} [DecidableEq ι] {roots : ι → ℕ} {maps : ι → Entries}
    (hlt : pager.nPages < 2 ^ 64)
    (h : ∀ i, TreeHolds (TxPages.new pager) k k (roots i) (maps i) [])
    (hweight : ∀ i, weight (maps i) ≤ k) : TxHolds pager k (TxStore.new pager) roots maps where
  valid := TxStore.valid_new hlt
  file := TxPages.over_new pager
  trees := by
    refine ⟨fun _ => [], fun i => ?_, fun _ => List.nodup_nil, by simp⟩
    have hsees : Sees (TxPages.new pager) (TxStore.new pager) := fun _ _ hb => hb
    obtain ⟨G, hG⟩ := (h i).sees hsees
    have hnil := hG.owns_nothing fun _ => rfl
    exact hnil ▸ hG
  weight_le := hweight

end Trees

/-! ### What was published -/

/-- The file and the head after the pages of a transaction with two trees were written. -/
structure Published (sha : Sha256) (pager : PageLog) (k : ℕ) (params : CommitParams) (nonce : ℕ)
    (d : CommitData) (kvs mkvs : Entries) (p : PageLog × Head) : Prop where
  old : Sees (TxPages.new pager) (TxPages.new p.1)
  data : TreeHolds (TxPages.new p.1) k k d.data_root kvs []
  indices : TreeHolds (TxPages.new p.1) k k d.meta_root mkvs []
  pages_lt : p.1.nPages < 2 ^ 64
  fileId : p.1.fileId = pager.fileId
  written : ∃ header bodies, header = commitHeader sha params d (nonce + bodies.length) bodies ∧
    p.1.pages = pager.pages ++ bodies ++ [commitBody header] ∧
    p.2 = headFrom header (pager.nPages + bodies.length) ∧
    nonce + bodies.length + 1 < 2 ^ 64 ∧ bodies.length + 1 < 2 ^ 64

section Published
variable {sha : Sha256} {pager : PageLog} {k nonce : ℕ} {params : CommitParams} {d : CommitData}
  {kvs mkvs : Entries} {p : PageLog × Head} {ts : TxStore}

/-- The pages of a transaction in the file, whatever trees it holds. -/
structure Appended (sha : Sha256) (pager : PageLog) (params : CommitParams) (nonce : ℕ)
    (d : CommitData) (p : PageLog × Head) : Prop where
  old : Sees (TxPages.new pager) (TxPages.new p.1)
  pages_lt : p.1.nPages < 2 ^ 64
  fileId : p.1.fileId = pager.fileId
  written : ∃ header bodies, header = commitHeader sha params d (nonce + bodies.length) bodies ∧
    p.1.pages = pager.pages ++ bodies ++ [commitBody header] ∧
    p.2 = headFrom header (pager.nPages + bodies.length) ∧
    nonce + bodies.length + 1 < 2 ^ 64 ∧ bodies.length + 1 < 2 ^ 64

lemma TxHolds.append {ι : Type} [DecidableEq ι] {roots : ι → ℕ} {maps : ι → Entries}
    (h : TxHolds pager k ts roots maps) (hbranch : (utf8 params.branch).length ≤ BRANCH_MAX)
    (hprev : params.prev_chain.length = 32) :
    Outcome (· = ADD_OVERFLOW)
      (Store.writeCommitPages sha nonce ts params d.data_root d.meta_root d.timestamp_ms)
      fun p => Appended sha pager params nonce d p ∧
        ∀ i, TreeHolds (TxPages.new p.1) k k (roots i) (maps i) [] := by
  refine (writeCommitPages_outcome h.valid hbranch hprev).imp ?_
  rintro ⟨pager', head'⟩ - ⟨⟨hnext, hnonce⟩, hid, header, hheader, hpages, hhead⟩
  dsimp only at hpages hhead hid
  obtain ⟨hover, hbase⟩ := h.file
  rw [hover] at hpages hid
  have hsees : Sees ts (TxPages.new pager') :=
    TxPages.Valid.sees_published (p := ts.toTxPages) h.valid (by rw [hover]; exact hpages)
  have hle : ts.alloc_base ≤ ts.alloc_next := TxPages.Valid.base_le h.valid
  have hlen : ts.bodies.length = ts.alloc_next - ts.alloc_base := ts.length_bodies
  have hnext' : ts.alloc_next = pager.nPages + ts.bodies.length := by omega
  refine ⟨⟨sees_append hpages, ?_, hid, header, ts.bodies, hheader,
    by rw [hpages, List.append_assoc], hnext' ▸ hhead, hnonce, by omega⟩, fun i => ?_⟩
  · have hn : pager.nPages = FIRST_DATA_PAGE + pager.pages.length := rfl
    change FIRST_DATA_PAGE + pager'.pages.length < 2 ^ 64
    rw [hpages, List.length_append, List.length_append, List.length_singleton]
    omega
  · obtain ⟨F, htree⟩ := h.tree i
    exact htree.committed hsees

lemma Appended.head_eq (h : Appended sha pager params nonce d p) : p.2.version = params.version ∧
    p.2.data_root = d.data_root ∧ p.2.meta_root = d.meta_root ∧ p.2.chain_hash.length = 32 := by
  obtain ⟨header, bodies, rfl, -, hhead, -⟩ := h.written
  rw [hhead]
  exact ⟨rfl, rfl, rfl, sha.length_digest _⟩

lemma TxHolds.publish
    (h : TxHolds pager k ts (Arkeion.trees d.data_root d.meta_root) (Arkeion.trees kvs mkvs))
    (hbranch : (utf8 params.branch).length ≤ BRANCH_MAX) (hprev : params.prev_chain.length = 32) :
    Outcome (· = ADD_OVERFLOW)
      (Store.writeCommitPages sha nonce ts params d.data_root d.meta_root d.timestamp_ms)
      (Published sha pager k params nonce d kvs mkvs) := by
  refine (h.append hbranch hprev).imp ?_
  rintro p - ⟨happ, htree⟩
  exact ⟨happ.old, htree .data, htree .indices, happ.pages_lt, happ.fileId, happ.written⟩

namespace Published
variable (h : Published sha pager k params nonce d kvs mkvs p)
include h

lemma head_eq : p.2.version = params.version ∧ p.2.data_root = d.data_root ∧
    p.2.meta_root = d.meta_root ∧ p.2.chain_hash.length = 32 := by
  obtain ⟨header, bodies, rfl, -, hhead, -⟩ := h.written
  rw [hhead]
  exact ⟨rfl, rfl, rfl, sha.length_digest _⟩

/-- The header of the commit fits its page when the numbers given fit their fields. -/
lemma sized (hfits : CommitFits params d) : ∃ header bodies,
    header = commitHeader sha params d (nonce + bodies.length) bodies ∧ header.Sized ∧
    p.1.pages = pager.pages ++ bodies ++ [commitBody header] ∧
    p.2 = headFrom header (pager.nPages + bodies.length) := by
  obtain ⟨header, bodies, hheader, hpages, hhead, hnonce, hlen⟩ := h.written
  refine ⟨header, bodies, hheader, ?_, hpages, hhead⟩
  rw [hheader]
  exact hfits.sized hnonce hlen

end Published

end Published

/-! ### One version more -/

/-- Where the file was built by the engine it still is, with one commit more, on the branch. -/
def BuiltOn (sha : Sha256) (s : Store) (b : String) (parent_page : ℕ) (p : PageLog × Head) : Prop :=
  parent_page < 2 ^ 64 → ∀ ws, Built sha s.pager s.head ws →
    ∃ w, w.header.branch = b ∧ Built sha p.1 p.2 (ws ++ [w])

section Publish
variable {sha : Sha256} {k k' : ℕ} {s : Store} {g g₀ : Versions} {roots : ℕ → ℕ}
  {mkvs mkvs₀ : Entries} {ts : TxStore} {root mroot parent_page : ℕ} {b : String} {r : Rev}
  {p : PageLog × Head}

lemma Represents.txHolds (h : Represents k s g roots mkvs) {v : ℕ} (hv : g.Known v) :
    TxHolds s.pager k (TxStore.new s.pager) (Arkeion.trees (roots v) s.head.meta_root)
      (Arkeion.trees (g.entries v) mkvs) := by
  refine txHolds_new h.pages_lt (fun i => ?_) fun i => ?_
  · cases i with
    | data => exact h.trees v hv
    | indices => exact h.metaTree
  · cases i with
    | data => exact h.weight_le v hv
    | indices => exact h.weight_meta

lemma Published.builtOn (hp : Published sha s.pager k (.after s.head b parent_page) s.nonce_counter
      ⟨root, mroot, r.time⟩ r.entries mkvs p) (hversion : s.head.version + 1 < 2 ^ 64)
    (hpages : s.pager.nPages < 2 ^ 64) (hchain : s.head.chain_hash.length = 32)
    (htime : r.time < 2 ^ 64) (hname : (utf8 b).length ≤ BRANCH_MAX) :
    BuiltOn sha s b parent_page p := by
  intro hparent ws hbuilt
  obtain ⟨header, bodies, hheader, hsized, hlog, hhead⟩ := hp.sized
    ⟨show 0 < 2 ^ 32 by decide, hversion, hbuilt.commit_page_lt.trans hpages, hparent, hname, hchain,
      htime, hp.data.root_lt, hp.indices.root_lt⟩
  refine ⟨⟨header, bodies⟩, by rw [hheader]; rfl, ?_⟩
  rw [hhead]
  exact hbuilt.commit hheader hsized hp.fileId hlog

/-- A transaction that holds the map of a new version and the meta tree with it, published. The
versions may have lost a branch in between. -/
lemma Represents.publish (h : Represents k s g roots mkvs) (hok : g₀.Ok) (hhead : g₀.head = g.head)
    (hrev : g₀.rev = g.rev) (hidx : IndexesOf g₀ roots mkvs₀) (hsorted : SortedMap mkvs₀)
    (htx : TxHolds s.pager k' ts (Arkeion.trees root mroot) (Arkeion.trees r.entries
      (withVersion (g.head + 1) root b r mkvs₀)))
    (hparent : g.Known r.parent) (htime : r.time < 2 ^ 64) (hname : (utf8 b).length ≤ BRANCH_MAX)
    (hlt : g.head + 1 < 2 ^ 64) (hk : k + 1 ≤ k') :
    Outcome (· = ADD_OVERFLOW) (Store.writeCommitPages sha s.nonce_counter ts
        (.after s.head b parent_page) root mroot r.time) fun p =>
      Represents k' (s.install p.1 p.2) (g₀.commit b r) (Function.update roots (g.head + 1) root)
        (withVersion (g.head + 1) root b r mkvs₀) ∧
      BuiltOn sha s b parent_page p := by
  have hknown {v : ℕ} : g₀.Known v ↔ g.Known v := by rw [Versions.Known, Versions.Known, hrev]
  have hentries (v : ℕ) : g₀.entries v = g.entries v := by
    rw [Versions.entries, Versions.entries, hrev]
  have hpublish := @TxHolds.publish sha s.pager k' s.nonce_counter (.after s.head b parent_page)
    ⟨root, mroot, r.time⟩ _ _ ts htx hname h.chain
  refine hpublish.imp fun p _ hp => ⟨?_, hp.builtOn (by rwa [h.version]) h.pages_lt h.chain htime
    hname⟩
  obtain ⟨hversion, hdata, hmeta, hchain⟩ := hp.head_eq
  have hupdate {v : ℕ} (hv : g.Known v) :
      Function.update roots (g.head + 1) root v = roots v :=
    Function.update_of_ne (h.ok.known_ne hv) ..
  have hself : (g₀.commit b r).entries (g.head + 1) = r.entries := by
    rw [← hhead]
    exact Versions.entries_of_rev Versions.rev_commit_self
  -- a version of the new store is an old one or the new one
  have hcases {v : ℕ} (hv : (g₀.commit b r).Known v) : g.Known v ∨ v = g.head + 1 := by
    rcases eq_or_ne v (g.head + 1) with heq | hne
    · exact Or.inr heq
    · refine Or.inl (hknown.1 ?_)
      rw [Versions.Known, Versions.rev_commit_of_ne (by rw [hhead]; exact hne)] at hv
      exact hv
  refine
    { ok := hok.commit (hknown.2 hparent) htime hname
      version := ?_
      head_lt := ?_
      head_le := ?_
      pages_lt := hp.pages_lt
      chain := hchain
      zero := (hupdate (Or.inl rfl)).trans h.zero
      data_root := ?_
      metaTree := ?_
      trees := fun v hv => ?_
      weight_meta := htx.weight_le .indices
      weight_le := fun v hv => ?_
      indexes := ?_ }
  · change p.2.version = g₀.head + 1
    rw [hversion, hhead, ← h.version]
    rfl
  · change g₀.head + 1 < 2 ^ 64
    rwa [hhead]
  · change g₀.head + 1 ≤ k'
    rw [hhead]
    exact (Nat.succ_le_succ h.head_le).trans hk
  · change p.2.data_root = Function.update roots (g.head + 1) root (g₀.head + 1)
    rw [hhead, Function.update_self, hdata]
  · change TreeHolds (TxPages.new p.1) k' k' p.2.meta_root _ []
    rw [hmeta]
    exact hp.indices
  · rcases hcases hv with hold | rfl
    · rw [hupdate hold, hok.entries_commit (hknown.2 hold), hentries]
      exact ((h.trees v hold).committed hp.old).mono (by omega) (by omega)
    · rw [Function.update_self, hself]
      exact hp.data
  · rcases hcases hv with hold | rfl
    · rw [hok.entries_commit (hknown.2 hold), hentries]
      exact (h.weight_le v hold).trans (by omega)
    · rw [hself]
      exact htx.weight_le .data
  · have := @IndexesOf.commit g₀ roots mkvs₀ b r root hidx hsorted (by rwa [hhead])
    rwa [hhead] at this

lemma refused_overflow : Refused TxStore ADD_OVERFLOW := Or.inl rfl

/-- The end of every operation that makes a version: its entries in the meta tree, and the pages.
What is done after that is done with a store that represents one version more. -/
lemma Represents.record {α : Type} {n : ℕ} {f : PageLog × Head → Result α} {Q : α → Prop}
    (h : Represents k s g roots mkvs) (hok : g₀.Ok) (hhead : g₀.head = g.head)
    (hrev : g₀.rev = g.rev) (hidx : IndexesOf g₀ roots mkvs₀)
    (htx : TxHolds s.pager k' ts (Arkeion.trees root mroot) (Arkeion.trees r.entries mkvs₀))
    (hfits : InsertFits n ts mroot (histKey (g.head + 1)) (Store.histVal root r.time r.parent))
    (hparent : g.Known r.parent) (htime : r.time < 2 ^ 64) (hname : (utf8 b).length ≤ BRANCH_MAX)
    (hlt : g.head + 1 < 2 ^ 64) (hk : k ≤ k') (hn : 2 * (k' + 34) ≤ n)
    (hf : ∀ p, Represents (k' + 34) (s.install p.1 p.2) (g₀.commit b r)
      (Function.update roots (g.head + 1) root) (withVersion (g.head + 1) root b r mkvs₀) →
      BuiltOn sha s b parent_page p → Outcome (Refused TxStore) (f p) Q) :
    Outcome (Refused TxStore)
      (Store.writeMetaIndices n ts mroot (g.head + 1) root r.time b r.parent >>= fun m =>
        Store.writeCommitPages sha s.nonce_counter m.2 (.after s.head b parent_page) root m.1
          r.time >>= f) Q := by
  have hsorted : SortedMap mkvs₀ := htx.sorted .indices
  refine (writeMetaIndices_outcome htx hfits hname hn).bind ?_
  rintro ⟨mroot', ts'⟩ - htx'
  have hpublish := @Represents.publish sha k (k' + 34) s g g₀ roots mkvs mkvs₀ ts' root mroot'
    parent_page b r h hok hhead hrev hidx hsorted htx' hparent htime hname hlt (by omega)
  refine Outcome.bind (hpublish.weaken ?_) fun p _ hp => hf p hp.1 hp.2
  rintro e rfl
  exact refused_overflow

end Publish

end Arkeion
