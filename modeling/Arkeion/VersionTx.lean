import Arkeion.VersionCommit

/-!
A transaction on a branch of a store that represents versions. It sees the map of the branch
with its own changes; a commit makes them a version, unless it takes the transaction to have
changed nothing.
-/

namespace Arkeion

open Arkeion.Lib Btree Node

/-! ### Deleting what is not there -/

section Delete
variable {σ : Type} [NodeStore σ]

lemma rewriteInner_existed {s s' : σ} {id r : ℕ} {cells : List InnerCell} {e e' : Bool}
    {new : Option ℕ} (h : rewriteInner s id cells r e = .ok (new, e', s')) : e' = e := by
  obtain ⟨⟨id', s₁⟩, -, h⟩ := bind_eq_ok.1 h
  obtain ⟨⟨ok, s₂⟩, -, h⟩ := bind_eq_ok.1 h
  obtain ⟨-, -, h⟩ := bind_eq_ok.1 h
  cases h
  rfl

lemma deleteInner_existed {s s' : σ} {id : ℕ} {key : Bytes} {child new : Option ℕ} {e e' : Bool}
    (h : deleteInner s id key child e = .ok (new, e', s')) : e' = e := by
  obtain ⟨b, -, h⟩ := bind_eq_ok.1 h
  obtain ⟨⟨cells, r⟩, -, h⟩ := bind_eq_ok.1 h
  cases child with
  | some child => exact rewriteInner_existed h
  | none =>
    dsimp only at h
    cases hr : removeChild cells r (childIndex cells key) with
    | none =>
      rw [hr] at h
      cases h
      rfl
    | some placed =>
      rw [hr] at h
      dsimp only at h
      split_ifs at h
      · cases h
        rfl
      · exact rewriteInner_existed h

/-- Where the key was not found nothing changed. -/
lemma deleteRec_absent {key : Bytes} {n id : ℕ} {s s' : σ} {new : Option ℕ}
    (h : deleteRec key n s id = .ok (new, false, s')) : new = some id ∧ s' = s := by
  induction n generalizing s id new s' with
  | zero => cases h
  | succ n ih =>
    obtain ⟨b, -, h⟩ := bind_eq_ok.1 h
    split_ifs at h with hleaf hinner
    · obtain ⟨cells, -, h⟩ := bind_eq_ok.1 h
      cases hb : binarySearch cells key with
      | error i =>
        rw [hb] at h
        cases h
        exact ⟨rfl, rfl⟩
      | ok i =>
        rw [hb] at h
        obtain ⟨s₁, -, h⟩ := bind_eq_ok.1 h
        dsimp only at h
        split_ifs at h
        · cases h
        · obtain ⟨⟨id', s₂⟩, -, h⟩ := bind_eq_ok.1 h
          obtain ⟨⟨ok, s₃⟩, -, h⟩ := bind_eq_ok.1 h
          obtain ⟨-, -, h⟩ := bind_eq_ok.1 h
          cases h
    · obtain ⟨child, -, h⟩ := bind_eq_ok.1 h
      obtain ⟨⟨child', existed, s₁⟩, hrec, h⟩ := bind_eq_ok.1 h
      dsimp only at h
      split_ifs at h with hsame
      · cases h
        exact ⟨rfl, (ih hrec).2⟩
      · rw [← deleteInner_existed h] at hrec
        exact absurd (ih hrec).1 hsame

lemma delete_absent {key : Bytes} {n root root' : ℕ} {s s' : σ}
    (h : Btree.delete n s root key = .ok (root', false, s')) : root' = root ∧ s' = s := by
  rw [Btree.delete] at h
  split_ifs at h with hroot
  · cases h
    exact ⟨hroot.symm, rfl⟩
  · obtain ⟨⟨new, existed, s₁⟩, hrec, h⟩ := bind_eq_ok.1 h
    cases h
    obtain ⟨hnew, hs⟩ := deleteRec_absent hrec
    rw [hnew]
    exact ⟨rfl, hs⟩

end Delete

/-! ### The cursor and the meta tree -/

section Cursor
variable {pager : PageLog} {ts : TxStore} {k n root meta_root : ℕ} {kvs : Entries} {key : Bytes}

/-- The pages of the file are those of the transaction that are not dirty. -/
lemma TxHolds.sees_file {ι : Type} {roots : ι → ℕ} {maps : ι → Entries}
    (h : TxHolds pager k ts roots maps) : Sees (TxPages.new pager) ts ∧
      ∀ id b, NodeSource.body (TxPages.new pager) id = .ok b → NodeStore.isDirty ts id = false := by
  obtain ⟨hover, hbase⟩ := h.file
  have hclean {id : ℕ} (hlt : id < pager.nPages) : valueOf id ts.dirty = none := by
    refine valueOf_eq_none fun p hp heq => ?_
    have := (TxPages.Valid.dirty h.valid p hp).1.1
    omega
  have hfile {id : ℕ} {b : Bytes} (hb : NodeSource.body (TxPages.new pager) id = .ok b) :
      id < pager.nPages ∧ pager.readPage id = .ok b := by
    rcases TxPages.body_cases hb with hd | ⟨-, hlt, hread⟩
    · cases hd
    · exact ⟨hlt, hread⟩
  refine ⟨fun id b hb => ?_, fun id b hb => ?_⟩
  · obtain ⟨hlt, hread⟩ := hfile hb
    change TxPages.body ts.toTxPages id = _
    rw [TxPages.body, hclean hlt]
    dsimp only
    rw [if_neg (by rw [hbase]; exact not_le.2 hlt), hover, hread]
  · change (valueOf id ts.dirty).isSome = false
    rw [hclean (hfile hb).1]
    rfl

lemma Btree.Sees.rightmostLeaf {σ τ : Type} [NodeSource σ] [NodeSource τ] {s : σ} {t : τ}
    (h : Sees s t) (n id : ℕ) : Leads (rightmostLeaf s n id) (rightmostLeaf t n id) := by
  induction n generalizing id with
  | zero => exact .refl _
  | succ n ih => exact .bind (h id) fun b => .ite (ih _) (.refl _)

/-- A cursor stands in a page of the transaction, so its tree is none of the file. -/
lemma CursorOn.root_ne {ι : Type} {roots : ι → ℕ} {maps : ι → Entries}
    (hon : CursorOn n ts root key) (h : TxHolds pager k ts roots maps) {m : ℕ}
    (hmeta : TreeHolds (TxPages.new pager) m m meta_root kvs []) :
    ∀ cur ∈ ts.append_cursor, cur.root ≠ meta_root := by
  rintro cur hcur rfl
  obtain ⟨-, -, hdirty, hne, b, hright, -⟩ := hon cur hcur
  obtain ⟨hsees, hclean⟩ := h.sees_file
  rcases hmeta with ⟨hnone, -, -⟩ | hholds
  · exact hne hnone
  · have hlt : pager.nPages < 2 ^ 64 := by
      obtain ⟨hover, hbase⟩ := h.file
      have hle := TxPages.Valid.base_le h.valid
      have hlt := TxPages.Valid.next_lt h.valid
      omega
    obtain ⟨leaf, b', -, -, -, hleaf, -⟩ :=
      insertRec_edge (TxPages.valid_new hlt) hholds le_rfl
    have hsame := rightmostLeaf_mono (show m ≤ max m n by omega)
      (hsees.rightmostLeaf m cur.root _ hleaf)
    rw [rightmostLeaf_mono (show n ≤ max m n by omega) hright] at hsame
    cases hsame
    rw [hclean cur.leaf b (rightmostLeaf_body hleaf)] at hdirty
    cases hdirty

end Cursor

/-! ### The view of a transaction -/

/-- What a transaction sees: its branch, the version it began with, the map, and whether an
operation changed something. -/
structure TxView where
  branch : String
  parent : ℕ
  entries : Entries
  touched : Bool

/-- The transaction has the view, on a store that represents versions. -/
structure WriteTx.Represents (k : ℕ) (s : Store) (g : Versions) (roots : ℕ → ℕ) (mkvs : Entries)
    (tx : WriteTx) (view : TxView) : Prop where
  store : Arkeion.Represents k s g roots mkvs
  base : tx.base = s.head
  branch : tx.branch = view.branch
  parent : tx.parent_version = view.parent
  onBranch : g.branch view.branch = some view.parent
  meta_root : tx.meta_root = s.head.meta_root
  counters : tx.rowid_cache = []
  holds : TxHolds s.pager k tx.ts (trees tx.data_root tx.meta_root) (trees view.entries mkvs)
  cursor : ∀ cur ∈ tx.ts.append_cursor, cur.root ≠ tx.meta_root
  untouched : view.touched = false → tx.ts.dirty = [] ∧ tx.data_root = roots view.parent

/-- A transaction on a branch begins with the map of the branch. -/
def TxView.new (g : Versions) (branch : String) (v : ℕ) : TxView := ⟨branch, v, g.entries v, false⟩

def TxView.put (view : TxView) (key value : Bytes) : TxView :=
  { view with entries := insertKey key value view.entries, touched := true }

def TxView.delete (view : TxView) (key : Bytes) : TxView :=
  { view with
    entries := eraseKey key view.entries
    touched := view.touched || (valueOf key view.entries).isSome }

/-- The version a transaction makes. -/
def TxView.rev (view : TxView) (now : ℕ) : Rev := ⟨view.entries, now, view.parent⟩

section View
variable {k n : ℕ} {s : Store} {g : Versions} {roots : ℕ → ℕ} {mkvs : Entries} {tx : WriteTx}
  {view : TxView} {b : String} {v now : ℕ} {key value : Bytes} {sha : Sha256}

lemma Represents.held_mono {held : Bool} (h : Represents k s g roots mkvs) :
    Represents k { s with held := held } g roots mkvs :=
  { h with }

lemma Represents.beginOn_eq (h : Represents k s g roots mkvs) (hn : k ≤ n) (hheld : s.held = false)
    (hb : g.branch b = some v) : ∃ tx, WriteTx.beginOn n s b = .ok (tx, { s with held := true }) ∧
      tx.Represents k { s with held := true } g roots mkvs (.new g b v) := by
  obtain ⟨page, hhead, -⟩ := h.resolveBranchHead_eq hn hb
  rw [WriteTx.beginOn, require_pos hheld, ok_bind, hhead, ok_bind]
  exact ⟨_, rfl, h.held_mono, rfl, rfl, rfl, hb, rfl, rfl, h.txHolds (h.ok.branch_known hb),
    (fun cur hcur => by cases hcur), fun _ => ⟨rfl, rfl⟩⟩

lemma Represents.beginOn_none (h : Represents k s g roots mkvs) (hn : k ≤ n)
    (hheld : s.held = false) (hb : g.branch b = none) :
    WriteTx.beginOn n s b = .error (.branchNotFound b) := by
  rw [WriteTx.beginOn, require_pos hheld, ok_bind, h.resolveBranchHead_none hn hb]
  rfl

namespace WriteTx.Represents
variable (h : tx.Represents k s g roots mkvs view)
include h

lemma sorted : SortedMap view.entries := h.holds.sorted .data

lemma get_eq (hn : k ≤ n) (key : Bytes) : tx.get n key = .ok (valueOf key view.entries) := by
  obtain ⟨F, htree⟩ := h.holds.tree .data
  exact Btree.get_eq htree hn hn key

lemma scan_eq (hn : k + 2 ≤ n) : tx.scan n = .ok view.entries := by
  obtain ⟨F, htree⟩ := h.holds.tree .data
  have hlen := (length_le_weight view.entries).trans (h.holds.weight_le .data)
  exact Btree.scan_eq htree (by omega) hn (by omega)

lemma put_outcome (hop : (MapOp.insert key value).Ok) (hn : 2 * (k + (value.length + 1)) ≤ n)
    (hfits : InsertFits n tx.ts tx.data_root key value) :
    Outcome (Refused TxStore) (tx.put n key value) fun tx' =>
      tx'.Represents (k + (value.length + 1)) s g roots mkvs (view.put key value) := by
  have hfits' : InsertFits n tx.ts (trees tx.data_root tx.meta_root .data) key value := hfits
  rw [WriteTx.put]
  refine (h.holds.insert hop hn hfits').bind ?_
  rintro ⟨root, ts⟩ - ⟨htx, hon⟩
  simp only [trees_data, update_trees_data] at htx hon ⊢
  have hmeta := h.meta_root ▸ h.store.metaTree
  exact ⟨h.store.mono (by omega), h.base, h.branch, h.parent, h.onBranch, h.meta_root, h.counters,
    htx, hon.root_ne htx hmeta, fun htouched => by cases htouched⟩

/-- A deletion says whether the key was there. -/
lemma delete_outcome (hn : 2 * k ≤ n) : Outcome (Refused TxStore) (tx.delete n key) fun r =>
    r.1 = (valueOf key view.entries).isSome ∧
      r.2.Represents k s g roots mkvs (view.delete key) := by
  rw [WriteTx.delete]
  refine (h.holds.delete (i := .data) key hn).bind ?_
  rintro ⟨root, existed, ts⟩ hrun ⟨htx, hexisted, hcursor⟩
  simp only [trees_data, update_trees_data] at hrun htx hexisted hcursor ⊢
  refine ⟨hexisted, h.store, h.base, h.branch, h.parent, h.onBranch, h.meta_root, h.counters, htx,
    fun cur hcur => ?_, fun htouched => ?_⟩
  · change cur ∈ ts.append_cursor at hcur
    rw [hcursor] at hcur
    exact h.cursor cur hcur
  · change (view.touched || (valueOf key view.entries).isSome) = false at htouched
    rw [Bool.or_eq_false_iff] at htouched
    rw [htouched.2] at hexisted
    subst hexisted
    obtain ⟨rfl, rfl⟩ := delete_absent hrun
    exact h.untouched htouched.1

/-- What a commit does when it takes the transaction to have changed nothing. -/
lemma commit_shortcut (hd : tx.ts.dirty = []) (hroot : tx.data_root = tx.base.data_root) :
    tx.commit n sha now s = .ok (view.parent, { s with held := false }) := by
  rw [WriteTx.commit, if_pos ⟨hd, hroot⟩, h.parent]

/-- What it does otherwise: a version with the map of the transaction, on its branch. -/
lemma commit_outcome (hchanged : ¬ (tx.ts.dirty = [] ∧ tx.data_root = tx.base.data_root))
    (htime : now < 2 ^ 64) (hn : 2 * (k + 34) ≤ n) :
    Outcome (Refused TxStore) (tx.commit n sha now s) fun r =>
      r.1 = g.head + 1 ∧ r.2.held = false ∧ ∃ roots' mkvs',
        Arkeion.Represents (k + 34) r.2 (g.commit view.branch (view.rev now)) roots' mkvs' := by
  rw [WriteTx.commit, if_neg hchanged, h.counters, writeCounters, ok_bind]
  dsimp only
  rw [h.base, h.store.version, h.branch, h.parent]
  by_cases hlt : g.head + 1 < 2 ^ 64
  · rw [require_pos hlt, ok_bind]
    exact h.store.record (r := view.rev now) h.store.ok rfl rfl h.store.indexes h.holds
      (fun cur hcur hroot => absurd hroot (h.cursor cur hcur))
      (h.store.ok.branch_known h.onBranch) htime (h.store.ok.branch_name h.onBranch) hlt le_rfl hn
      fun p hp _ => ⟨rfl, rfl, _, _, hp⟩
  · rw [require, if_neg hlt]
    exact refused_overflow

end WriteTx.Represents

end View

end Arkeion
