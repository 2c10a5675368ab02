import Arkeion.TxTrees
import Arkeion.VersionGraph

/-!
A store that represents versions and branches: its meta tree records them, and each version has
a tree with its map among the pages of the file. Reading a version gives the map.
-/

namespace Arkeion

open Arkeion.Lib Btree

/-! ### The keys of the meta tree -/

lemma histKey_inj {v w : ℕ} (hv : v < 2 ^ 64) (hw : w < 2 ^ 64) (h : histKey v = histKey w) :
    v = w := by
  have hb : beBytes 8 v = beBytes 8 w := List.tail_eq_of_cons_eq h
  rw [← beNat_beBytes 8 (show v < 256 ^ 8 from hv), hb, beNat_beBytes 8 (show w < 256 ^ 8 from hw)]

lemma refKey_inj {b c : String} (h : refKey b = refKey c) : b = c :=
  utf8_inj (List.tail_eq_of_cons_eq h)

lemma histKey_ne_refKey (v : ℕ) (b : String) : histKey v ≠ refKey b := by
  intro h
  exact absurd (List.head_eq_of_cons_eq h) (by decide)

/-- The meta tree records the versions with their roots, and the branches. -/
structure IndexesOf (g : Versions) (roots : ℕ → ℕ) (mkvs : Entries) : Prop where
  hist : ∀ v < 2 ^ 64, valueOf (histKey v) mkvs
    = (g.rev v).map fun r => Store.histVal (roots v) r.time r.parent
  refs : ∀ b, valueOf (refKey b) mkvs = (g.refs b).map (leBytes 8)
  keys : ∀ p ∈ mkvs, (∃ v < 2 ^ 64, p.1 = histKey v) ∨ ∃ b, p.1 = refKey b

section Indexes
variable {g : Versions} {roots : ℕ → ℕ} {mkvs : Entries} {b : String} {r : Rev} {root : ℕ}

lemma indexesOf_genesis : IndexesOf Versions.genesis roots [] :=
  ⟨fun _ _ => rfl, fun _ => rfl, by simp⟩

/-- What a commit makes of the meta tree. -/
def withVersion (version root : ℕ) (b : String) (r : Rev) (mkvs : Entries) : Entries :=
  insertKey (refKey b) (leBytes 8 version)
    (insertKey (histKey version) (Store.histVal root r.time r.parent) mkvs)

lemma IndexesOf.commit (h : IndexesOf g roots mkvs) (hs : SortedMap mkvs)
    (hv : g.head + 1 < 2 ^ 64) : IndexesOf (g.commit b r) (Function.update roots (g.head + 1) root)
      (withVersion (g.head + 1) root b r mkvs) where
  hist v hlt := by
    rw [withVersion, valueOf_insertKey_of_ne hs.insertKey (histKey_ne_refKey v b)]
    rcases eq_or_ne v (g.head + 1) with rfl | hne
    · rw [valueOf_insertKey_self hs, Versions.rev_commit_self, Function.update_self]
      rfl
    · rw [valueOf_insertKey_of_ne hs fun heq => hne (histKey_inj hlt hv heq), h.hist v hlt,
        Versions.rev_commit_of_ne hne, Function.update_of_ne hne]
  refs c := by
    rw [withVersion, Versions.refs_commit]
    split_ifs with hc
    · rw [hc, valueOf_insertKey_self hs.insertKey]
      rfl
    · rw [valueOf_insertKey_of_ne hs.insertKey fun heq => hc (refKey_inj heq),
        valueOf_insertKey_of_ne hs (histKey_ne_refKey (g.head + 1) c).symm, h.refs c]
  keys p hp := by
    rcases mem_insertKey hp with rfl | hp
    · exact Or.inr ⟨b, rfl⟩
    · rcases mem_insertKey hp with rfl | hp
      · exact Or.inl ⟨g.head + 1, hv, rfl⟩
      · exact h.keys p hp

lemma IndexesOf.dropRef (h : IndexesOf g roots mkvs) (b : String) :
    IndexesOf (g.dropRef b) roots (eraseKey (refKey b) mkvs) where
  hist v hlt := by
    rw [valueOf_eraseKey_of_ne mkvs (histKey_ne_refKey v b)]
    exact h.hist v hlt
  refs c := by
    rw [Versions.refs_dropRef]
    split_ifs with hc
    · rw [hc, valueOf_eraseKey_self]
      rfl
    · rw [valueOf_eraseKey_of_ne mkvs fun heq => hc (refKey_inj heq)]
      exact h.refs c
  keys p hp := h.keys p (List.mem_of_mem_filter hp)

end Indexes

/-! ### The refinement relation -/

/-- The meta tree of the store records the versions; nothing is said of their data trees. `k` bounds
what it takes to read it. -/
structure Indexed (k : ℕ) (s : Store) (g : Versions) (roots : ℕ → ℕ) (mkvs : Entries) : Prop where
  ok : g.Ok
  version : s.head.version = g.head
  head_lt : g.head < 2 ^ 64
  head_le : g.head ≤ k
  pages_lt : s.pager.nPages < 2 ^ 64
  chain : s.head.chain_hash.length = 32
  metaTree : TreeHolds (TxPages.new s.pager) k k s.head.meta_root mkvs []
  weight_meta : weight mkvs ≤ k
  root_lt : ∀ v, g.Known v → roots v < 2 ^ 64
  indexes : IndexesOf g roots mkvs

/-- The store has all versions: the pages of their trees, with their roots, and the entries of
the meta tree; `k` bounds what it takes to read them. -/
structure Represents (k : ℕ) (s : Store) (g : Versions) (roots : ℕ → ℕ) (mkvs : Entries) :
    Prop where
  ok : g.Ok
  version : s.head.version = g.head
  head_lt : g.head < 2 ^ 64
  head_le : g.head ≤ k
  pages_lt : s.pager.nPages < 2 ^ 64
  chain : s.head.chain_hash.length = 32
  zero : roots 0 = GENESIS_ROOT
  data_root : s.head.data_root = roots g.head
  metaTree : TreeHolds (TxPages.new s.pager) k k s.head.meta_root mkvs []
  trees : ∀ v, g.Known v → TreeHolds (TxPages.new s.pager) k k (roots v) (g.entries v) []
  weight_meta : weight mkvs ≤ k
  weight_le : ∀ v, g.Known v → weight (g.entries v) ≤ k
  indexes : IndexesOf g roots mkvs

lemma sees_pager (pager : PageLog) : Sees (TxPages.new pager) pager := by
  intro id b hb
  rcases TxPages.body_cases hb with h | ⟨-, -, h⟩
  · cases h
  · exact h

/-- A new store represents no version. -/
lemma Represents.create (sha : Sha256) {pager : PageLog} (hempty : pager.pages = []) :
    Represents 0 (Store.create sha pager) .genesis (fun _ => NO_ROOT) [] where
  ok := Versions.ok_genesis
  version := rfl
  head_lt := by decide
  head_le := le_rfl
  pages_lt := by
    change pager.nPages < _
    rw [PageLog.nPages, hempty]
    decide
  chain := sha.length_digest _
  zero := rfl
  data_root := rfl
  metaTree := Or.inl ⟨rfl, rfl, rfl⟩
  trees v hv := Or.inl ⟨rfl, rfl, rfl⟩
  weight_meta := le_rfl
  weight_le v hv := le_rfl
  indexes := indexesOf_genesis

section Reading
variable {k n : ℕ} {s : Store} {g : Versions} {roots : ℕ → ℕ} {mkvs : Entries} {v w : ℕ} {r : Rev}
  {b : String}

namespace Indexed

lemma mono {k' : ℕ} (h : Indexed k s g roots mkvs) (hk : k ≤ k') : Indexed k' s g roots mkvs :=
  { h with
    head_le := h.head_le.trans hk
    metaTree := h.metaTree.mono hk hk
    weight_meta := h.weight_meta.trans hk }

lemma known_lt (h : Indexed k s g roots mkvs) (hv : g.Known v) : v < 2 ^ 64 :=
  (h.ok.known_le hv).trans_lt h.head_lt

lemma get_meta (h : Indexed k s g roots mkvs) (hn : k ≤ n) (key : Bytes) :
    get s.pager n s.head.meta_root key = .ok (valueOf key mkvs) :=
  (sees_pager s.pager).get n s.head.meta_root key _ (get_eq h.metaTree hn hn key)

lemma readRef_eq (h : Indexed k s g roots mkvs) (hn : k ≤ n) (b : String) :
    Store.readRef n s.pager s.head.meta_root b = .ok (g.refs b) := by
  rw [Store.readRef, h.get_meta hn, ok_bind, h.indexes.refs b]
  cases hb : g.refs b with
  | none => rfl
  | some v =>
    have hlt : v < 256 ^ 8 := h.known_lt (h.ok.known_of_refs hb)
    have hslice : slice? (leBytes 8 v) 0 8 = some (leBytes 8 v) := by
      have : slice? ([] ++ leBytes 8 v ++ []) 0 8 = some (leBytes 8 v) :=
        slice?_append _ _ _ rfl (by simp)
      simpa using this
    simp only [Option.map_some, hslice, okOr_some, ok_bind, leNat_leBytes 8 hlt]

lemma readHist_eq (h : Indexed k s g roots mkvs) (hn : k ≤ n) (hr : g.rev v = some r) :
    Store.readHist n s.pager s.head.meta_root v = .ok (roots v, r.time, r.parent) := by
  have hknown : g.Known v := Or.inr (by rw [hr]; rfl)
  have hroot : roots v < 256 ^ 8 := h.root_lt v hknown
  have htime : r.time < 256 ^ 8 := h.ok.time_lt v r hr
  have hparent : r.parent < 256 ^ 8 := (h.ok.parent_lt v r hr).trans (h.known_lt hknown)
  have hval : valueOf (histKey v) mkvs = some (Store.histVal (roots v) r.time r.parent) := by
    rw [h.indexes.hist v (h.known_lt hknown), hr]
    rfl
  have h₁ : slice? (Store.histVal (roots v) r.time r.parent) 0 8 = some (leBytes 8 (roots v)) := by
    have : slice? ([] ++ leBytes 8 (roots v) ++ (leBytes 8 r.time ++ leBytes 8 r.parent)) 0 8
        = some (leBytes 8 (roots v)) := slice?_append _ _ _ rfl (by simp)
    simpa [Store.histVal] using this
  have h₂ : slice? (Store.histVal (roots v) r.time r.parent) 8 8 = some (leBytes 8 r.time) :=
    slice?_append _ _ _ (by simp) (by simp)
  have h₃ : slice? (Store.histVal (roots v) r.time r.parent) 16 8 = some (leBytes 8 r.parent) := by
    have : slice? (leBytes 8 (roots v) ++ leBytes 8 r.time ++ leBytes 8 r.parent ++ []) 16 8
        = some (leBytes 8 r.parent) := slice?_append _ _ _ (by simp) (by simp)
    simpa [Store.histVal] using this
  rw [Store.readHist, h.get_meta hn, ok_bind, hval]
  simp only [okOr_some, ok_bind, h₁, h₂, h₃, Option.map_some, Option.getD_some,
    leNat_leBytes 8 hroot, leNat_leBytes 8 htime, leNat_leBytes 8 hparent]

/-- Of a version that is not kept nothing is found. -/
lemma readHist_none (h : Indexed k s g roots mkvs) (hn : k ≤ n) (hv : v < 2 ^ 64)
    (hr : g.rev v = none) :
    Store.readHist n s.pager s.head.meta_root v = .error (.versionNotFound (.version v)) := by
  rw [Store.readHist, h.get_meta hn, ok_bind, h.indexes.hist v hv, hr]
  rfl

lemma readParentVersion_eq (h : Indexed k s g roots mkvs) (hn : k ≤ n) (hv : g.Known v) :
    Store.readParentVersion n s.pager s.head.meta_root v = .ok ((g.parentOf v).getD 0) := by
  rw [Store.readParentVersion, Versions.parentOf]
  split_ifs with hzero
  · rfl
  · obtain ⟨r, hr⟩ := Option.isSome_iff_exists.1 (hv.resolve_left hzero)
    rw [h.readHist_eq hn hr, hr]
    rfl

end Indexed

lemma Represents.mono {k' : ℕ} (h : Represents k s g roots mkvs) (hk : k ≤ k') :
    Represents k' s g roots mkvs :=
  { h with
    head_le := h.head_le.trans hk
    metaTree := h.metaTree.mono hk hk
    trees := fun v hv => (h.trees v hv).mono hk hk
    weight_meta := h.weight_meta.trans hk
    weight_le := fun v hv => (h.weight_le v hv).trans hk }

lemma Represents.known_lt (h : Represents k s g roots mkvs) (hv : g.Known v) : v < 2 ^ 64 :=
  (h.ok.known_le hv).trans_lt h.head_lt

lemma Represents.root_lt (h : Represents k s g roots mkvs) (hv : g.Known v) :
    roots v < 2 ^ 64 := by
  rcases h.trees v hv with ⟨hroot, -, -⟩ | hholds
  · rw [hroot]
    decide
  · cases k with
    | zero => exact absurd hholds (fun h => h)
    | succ k => exact hholds.2.1

lemma Represents.sorted (h : Represents k s g roots mkvs) (hv : g.Known v) :
    SortedMap (g.entries v) := (h.trees v hv).sorted

lemma Represents.indexed (h : Represents k s g roots mkvs) : Indexed k s g roots mkvs where
  ok := h.ok
  version := h.version
  head_lt := h.head_lt
  head_le := h.head_le
  pages_lt := h.pages_lt
  chain := h.chain
  metaTree := h.metaTree
  weight_meta := h.weight_meta
  root_lt _ hv := h.root_lt hv
  indexes := h.indexes

/-! ### The entries of the meta tree -/

lemma Represents.readRef_eq (h : Represents k s g roots mkvs) (hn : k ≤ n) (b : String) :
    Store.readRef n s.pager s.head.meta_root b = .ok (g.refs b) := h.indexed.readRef_eq hn b

lemma Represents.readHist_eq (h : Represents k s g roots mkvs) (hn : k ≤ n)
    (hr : g.rev v = some r) :
    Store.readHist n s.pager s.head.meta_root v = .ok (roots v, r.time, r.parent) :=
  h.indexed.readHist_eq hn hr

lemma Represents.readHist_none (h : Represents k s g roots mkvs) (hn : k ≤ n) (hv : v < 2 ^ 64)
    (hr : g.rev v = none) :
    Store.readHist n s.pager s.head.meta_root v = .error (.versionNotFound (.version v)) :=
  h.indexed.readHist_none hn hv hr

lemma Represents.readDataRoot_eq (h : Represents k s g roots mkvs) (hn : k ≤ n)
    (hv : g.Known v) : Store.readDataRoot n s.pager s.head.meta_root v = .ok (roots v) := by
  rw [Store.readDataRoot]
  split_ifs with hzero
  · rw [hzero, h.zero]
  · obtain ⟨r, hr⟩ := Option.isSome_iff_exists.1 (hv.resolve_left hzero)
    rw [h.readHist_eq hn hr]
    rfl

lemma Represents.readDataRoot_none (h : Represents k s g roots mkvs) (hn : k ≤ n)
    (hlt : v < 2 ^ 64) (hv : ¬ g.Known v) :
    Store.readDataRoot n s.pager s.head.meta_root v = .error (.versionNotFound (.version v)) := by
  obtain ⟨hzero, hrev⟩ := not_or.1 hv
  rw [Store.readDataRoot, if_neg hzero,
    h.readHist_none hn hlt (by simpa using hrev)]
  rfl

/-! ### Branches and versions -/

lemma Represents.resolveBranchHead_eq (h : Represents k s g roots mkvs) (hn : k ≤ n)
    (hb : g.branch b = some v) : ∃ page, Store.resolveBranchHead n s b = .ok ⟨v, roots v, page⟩ ∧
      (page = s.head.commit_page ∨ page = 0) := by
  rw [Store.resolveBranchHead, h.readRef_eq hn, ok_bind]
  rw [Versions.branch] at hb
  cases href : g.refs b with
  | some w =>
    rw [href] at hb
    cases hb
    dsimp only
    split_ifs with hhead
    · refine ⟨s.head.commit_page, ?_, Or.inl rfl⟩
      rw [h.data_root, hhead, h.version]
    · rw [h.readDataRoot_eq hn (h.ok.known_of_refs href)]
      exact ⟨0, rfl, Or.inr rfl⟩
  | none =>
    rw [href, Option.none_or] at hb
    split_ifs at hb with hmain
    cases hb
    refine ⟨0, ?_, Or.inr rfl⟩
    dsimp only
    rw [if_pos hmain, h.zero]

lemma Represents.resolveBranchHead_none (h : Represents k s g roots mkvs) (hn : k ≤ n)
    (hb : g.branch b = none) :
    Store.resolveBranchHead n s b = .error (.branchNotFound b) := by
  rw [Versions.branch, Option.or_eq_none_iff] at hb
  obtain ⟨href, hmain⟩ := hb
  rw [Store.resolveBranchHead, h.readRef_eq hn, ok_bind, href]
  split_ifs at hmain with hb
  simp only [if_neg hb]

lemma Represents.snapshotAtVersion_eq (h : Represents k s g roots mkvs) (hn : k ≤ n)
    (hv : g.Known v) : Store.snapshotAtVersion n s v = .ok ⟨s.pager, v, roots v⟩ := by
  have hle := h.ok.known_le hv
  rw [Store.snapshotAtVersion, h.version]
  split_ifs with hhead hgt hzero
  · rw [Store.snapshot, h.version, h.data_root, hhead]
  · omega
  · rw [Store.genesisSnapshot, hzero, h.zero]
  · rw [h.readDataRoot_eq hn hv]
    rfl

/-- Versions that were never made, or not kept, are not found. -/
lemma Represents.snapshotAtVersion_none (h : Represents k s g roots mkvs) (hn : k ≤ n)
    (hv : ¬ g.Known v) :
    Store.snapshotAtVersion n s v = .error (.versionNotFound (.version v)) := by
  rw [Store.snapshotAtVersion, h.version]
  split_ifs with hhead hgt hzero
  · exact absurd (hhead ▸ h.ok.head_known) hv
  · rfl
  · exact absurd (Or.inl hzero) hv
  · have hle : v ≤ g.head := not_lt.1 hgt
    rw [h.readDataRoot_none hn (hle.trans_lt h.head_lt) hv]
    rfl

/-- What a snapshot of a version reads is its map. -/
structure ReadsMap (n : ℕ) (snap : Snapshot) (kvs : Entries) : Prop where
  get : ∀ key, snap.get n key = .ok (valueOf key kvs)
  scan : snap.scan n = .ok kvs

lemma Represents.readsMap (h : Represents k s g roots mkvs) (hn : k + 2 ≤ n) (hv : g.Known v)
    (w : ℕ) : ReadsMap n ⟨s.pager, w, roots v⟩ (g.entries v) where
  get key := (sees_pager s.pager).get n (roots v) key _
    (get_eq (h.trees v hv) (by omega) (by omega) key)
  scan := by
    have hlen := (length_le_weight (g.entries v)).trans (h.weight_le v hv)
    exact (sees_pager s.pager).scan n (roots v) _
      (scan_eq (h.trees v hv) (by omega) hn (by omega))

lemma Represents.diff_eq (h : Represents k s g roots mkvs) (hn : k + 2 ≤ n) (hv : g.Known v)
    (hw : g.Known w) : Btree.diff s.pager n (roots v) (roots w)
      = .ok (diffMaps (g.entries v) (g.entries w)) := by
  have hlv := (length_le_weight (g.entries v)).trans (h.weight_le v hv)
  have hlw := (length_le_weight (g.entries w)).trans (h.weight_le w hw)
  exact (sees_pager s.pager).diff n (roots v) (roots w) _
    (Btree.diff_eq (h.trees v hv) (h.trees w hw) (by omega) (by omega) (by omega) (by omega)
      (by omega))

end Reading

end Arkeion
