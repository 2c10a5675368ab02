import Mathlib.Algebra.Order.BigOperators.Group.List
import Mathlib.Data.List.Perm.Subperm
import Arkeion.AppendCursor
import Arkeion.CursorTail
import Arkeion.VersionStore

/-!
The trees of a transaction: what its insertions and deletions do to their entries, to the file
and to the cursor. Keys that are put in ascending order are not misled by the cursor, as long as
the keys taken out are there; so merges and the rewriting of histories are sound.
-/

namespace Arkeion

open Arkeion.Lib Btree

/-! ### How much entries can weigh -/

/-- The lengths of the values, with one for each entry. -/
def weight (kvs : Entries) : ℕ := (kvs.map fun p => p.2.length + 1).sum

lemma weight_append (l r : Entries) : weight (l ++ r) = weight l + weight r := by
  rw [weight, List.map_append, List.sum_append]
  rfl

lemma weight_cons (p : Bytes × Bytes) (l : Entries) : weight (p :: l) = p.2.length + 1 + weight l :=
  rfl

lemma length_le_weight (kvs : Entries) : kvs.length ≤ weight kvs := by
  induction kvs with
  | nil => exact le_rfl
  | cons p kvs ih =>
    rw [weight_cons, List.length_cons]
    omega

lemma weight_filter_le (P : Bytes × Bytes → Bool) (kvs : Entries) :
    weight (kvs.filter P) ≤ weight kvs := by
  induction kvs with
  | nil => exact le_rfl
  | cons p kvs ih =>
    rw [List.filter_cons]
    split_ifs
    · rw [weight_cons, weight_cons]
      omega
    · rw [weight_cons]
      omega

lemma weight_insertKey_le (key value : Bytes) (kvs : Entries) :
    weight (insertKey key value kvs) ≤ weight kvs + (value.length + 1) := by
  induction kvs with
  | nil => simp [insertKey, weight]
  | cons p kvs ih =>
    rw [insertKey]
    split_ifs
    · simp only [weight_cons]
      omega
    · simp only [weight_cons]
      omega
    · simp only [weight_cons]
      omega

lemma weight_eraseKey_le (key : Bytes) (kvs : Entries) : weight (eraseKey key kvs) ≤ weight kvs :=
  weight_filter_le _ kvs

/-! ### Insertions and deletions -/

section Trees
variable {ι : Type} [DecidableEq ι] {pager : PageLog} {n k : ℕ} {s : TxStore} {roots : ι → ℕ}
  {maps : ι → Entries} {i : ι}

/-- The transaction over the file holds a tree of entries under each root; `k` bounds what it
takes to read them. -/
structure TxHolds (pager : PageLog) (k : ℕ) (s : TxStore) (roots : ι → ℕ) (maps : ι → Entries) :
    Prop where
  valid : LawfulNodeStore.Valid s
  file : s.Over pager
  trees : TreesOf s k roots maps
  weight_le : ∀ i, weight (maps i) ≤ k

/-- The cursor after a key was put into the tree under a root. -/
def CursorOn (n : ℕ) (s : TxStore) (root : ℕ) (key : Bytes) : Prop :=
  ∀ cur ∈ s.append_cursor, cur.root = root ∧ cur.last_key = key ∧
    NodeStore.isDirty s cur.leaf = true ∧ CursorFits n s cur

omit [DecidableEq ι] in
lemma TxHolds.tree (h : TxHolds pager k s roots maps) (i : ι) :
    ∃ F, TreeHolds s k k (roots i) (maps i) F := by
  obtain ⟨F, htree, -, -⟩ := h.trees
  exact ⟨F i, htree i⟩

omit [DecidableEq ι] in
lemma TxHolds.mono {k' : ℕ} (h : TxHolds pager k s roots maps) (hk : k ≤ k') :
    TxHolds pager k' s roots maps where
  valid := h.valid
  file := h.file
  trees := by
    obtain ⟨F, htree, hnd, hdisj⟩ := h.trees
    exact ⟨F, fun i => (htree i).mono hk hk, hnd, hdisj⟩
  weight_le i := (h.weight_le i).trans hk

omit [DecidableEq ι] in
lemma TxHolds.sorted (h : TxHolds pager k s roots maps) (i : ι) : SortedMap (maps i) := by
  obtain ⟨F, htree⟩ := h.tree i
  exact htree.sorted

lemma weight_update_le {k' : ℕ} {kvs : Entries} (h : ∀ i, weight (maps i) ≤ k) (hk : k ≤ k')
    (hkvs : weight kvs ≤ k') (j : ι) : weight (Function.update maps i kvs j) ≤ k' := by
  rw [Function.update_apply]
  split_ifs
  · exact hkvs
  · exact (h j).trans hk

lemma TxHolds.insert (h : TxHolds pager k s roots maps) {key value : Bytes}
    (hop : (MapOp.insert key value).Ok) (hn : 2 * (k + (value.length + 1)) ≤ n)
    (hfits : InsertFits n s (roots i) key value) :
    Outcome (Refused TxStore) (insert n s (roots i) key value) fun r =>
      TxHolds pager (k + (value.length + 1)) r.2 (Function.update roots i r.1)
        (Function.update maps i (insertKey key value (maps i))) ∧ CursorOn n r.2 r.1 key := by
  have hstep := stepTrees_outcome h.valid h.trees hop hn fun _ _ heq => by
    cases heq
    exact hfits
  obtain ⟨F, htree, hnd, hdisj⟩ := h.trees
  obtain ⟨hpos, hkey, hvalue⟩ := hop
  cases hrun : Btree.insert n s (roots i) key value with
  | error e =>
    rw [stepTrees, hrun] at hstep
    exact hstep
  | ok r =>
    rw [stepTrees, hrun] at hstep
    have hf := CursorApart.take h.valid
    rw [insert_eq_down h.valid (htree i) (by omega) hpos hkey hvalue hfits] at hrun
    have hover := TxStore.insertDown_over (s := (NodeStore.takeAppendCursor s).2) h.file hrun
    refine ⟨⟨hstep.1, hover, hstep.2, ?_⟩, fun cur hcur => ?_⟩
    · exact weight_update_le h.weight_le (by omega)
        ((weight_insertKey_le key value (maps i)).trans (Nat.add_le_add_right (h.weight_le i) _))
    · exact insertDown_cursor hf.valid ((htree i).frame hf (by simp)) (hnd i) hpos hkey hvalue
        (by omega) hrun hcur

lemma TxHolds.delete (h : TxHolds pager k s roots maps) (key : Bytes) (hn : 2 * k ≤ n) :
    Outcome (Refused TxStore) (delete n s (roots i) key) fun r =>
      TxHolds pager k r.2.2 (Function.update roots i r.1)
        (Function.update maps i (eraseKey key (maps i))) ∧
      r.2.1 = (valueOf key (maps i)).isSome ∧ r.2.2.append_cursor = s.append_cursor := by
  have hstep := @stepTrees_outcome _ _ _ _ _ _ k n roots maps _ h.valid h.trees i (.delete key)
    trivial hn (by simp)
  obtain ⟨F, htree, hnd, hdisj⟩ := h.trees
  have hdel := @delete_outcome _ _ _ _ _ _ _ _ key _ _ h.valid (htree i) (hnd i) (show k + k ≤ n by omega)
  cases hrun : Btree.delete n s (roots i) key with
  | error e =>
    rw [stepTrees, hrun] at hstep
    exact hstep
  | ok r =>
    rw [stepTrees, hrun] at hstep
    rw [hrun] at hdel
    obtain ⟨F', -, -, -, hexisted⟩ := hdel
    exact ⟨⟨hstep.1, TxStore.delete_over h.file hrun, hstep.2, weight_update_le h.weight_le le_rfl
      ((weight_eraseKey_le key (maps i)).trans (h.weight_le i))⟩, hexisted,
      TxStore.delete_cursor hrun⟩

end Trees

/-! ### The two trees of a commit -/

inductive TreeId where
  | data
  | indices
  deriving DecidableEq, Repr

/-- Something for the data tree and something for the meta tree. -/
def trees {α : Type} (d m : α) : TreeId → α
  | .data => d
  | .indices => m

section Two
variable {α : Type} (d m x : α)

@[simp] lemma trees_data : trees d m .data = d := rfl

@[simp] lemma trees_indices : trees d m .indices = m := rfl

@[simp] lemma update_trees_data : Function.update (trees d m) .data x = trees x m := by
  funext i
  cases i <;> simp

@[simp] lemma update_trees_indices : Function.update (trees d m) .indices x = trees d x := by
  funext i
  cases i <;> simp

end Two

section Commit
variable {pager : PageLog} {n k root meta_root : ℕ} {s : TxStore} {kvs mkvs : Entries}

lemma CursorOn.sound {key : Bytes} (h : CursorOn n s root key) : CursorSound n s :=
  fun cur hcur => (h cur hcur).2.2.2

/-- By how much keys taken to their states can let a tree grow. -/
def targetsGrowth (targets : List (Bytes × Option Bytes)) : ℕ :=
  (targets.map fun p => (p.2.map fun v => v.length + 1).getD 0).sum

lemma targetsGrowth_eq (targets : List (Bytes × Option Bytes)) : targetsGrowth targets
    = weight (targets.filterMap fun p => p.2.map fun v => (p.1, v)) := by
  induction targets with
  | nil => rfl
  | cons p targets ih =>
    rw [List.filterMap_cons]
    cases hp : p.2 with
    | none =>
      rw [targetsGrowth, List.map_cons, List.sum_cons, hp]
      exact (Nat.zero_add _).trans ih
    | some v =>
      rw [targetsGrowth, List.map_cons, List.sum_cons, hp]
      simp only [Option.map_some, Option.getD_some, weight_cons]
      rw [← ih]
      rfl

/-- Entries of a map that are put in weigh no more than the map. -/
lemma targetsGrowth_le {targets : List (Bytes × Option Bytes)} {l : Entries}
    (hs : SortedMap targets) (h : ∀ key v, (key, some v) ∈ targets → (key, v) ∈ l) :
    targetsGrowth targets ≤ weight l := by
  have hput : SortedMap (targets.filterMap fun p => p.2.map fun v => (p.1, v)) :=
    hs.filterMap fun _ t => t
  have hsub : (targets.filterMap fun p => p.2.map fun v => (p.1, v)) ⊆ l := by
    intro q hq
    obtain ⟨p, hp, hpq⟩ := List.mem_filterMap.1 hq
    obtain ⟨v, hv, rfl⟩ := Option.map_eq_some_iff.1 hpq
    refine h p.1 v ?_
    rw [← hv]
    exact hp
  have hnodup : (targets.filterMap fun p => p.2.map fun v => (p.1, v)).Nodup :=
    hput.imp fun hlt heq => absurd hlt (by rw [heq]; exact lt_irrefl _)
  obtain ⟨l', hperm, hsublist⟩ := List.subperm_of_subset hnodup hsub
  rw [targetsGrowth_eq, weight, ← (hperm.map _).sum_eq]
  exact (hsublist.map _).sum_le_sum fun _ _ => Nat.zero_le _

/-- Keys in ascending order taken to their states: those put in are not misled by the cursor,
since one that was put in before is the last key of the tree, and no key behind it is there to
be taken out. -/
lemma applyTargets_outcome {targets : List (Bytes × Option Bytes)} (hs : SortedMap targets)
    (h : TxHolds pager k s (trees root meta_root) (trees kvs mkvs))
    (hok : ∀ p ∈ targets, ∀ v ∈ p.2, (MapOp.insert p.1 v).Ok)
    (hdel : ∀ p ∈ targets, p.2 = none → (valueOf p.1 kvs).isSome)
    (hcur : ∀ p ∈ targets, ∀ cur ∈ s.append_cursor, cur.root = root ∧ CursorFits n s cur ∧
      cur.last_key < p.1)
    (hsound : CursorSound n s) (hn : 2 * (k + targetsGrowth targets) ≤ n) :
    Outcome (Refused TxStore) (Store.applyTargets n targets s root) fun r =>
      TxHolds pager (k + targetsGrowth targets) r.2 (trees r.1 meta_root)
        (trees (patch kvs targets) mkvs) ∧ CursorSound n r.2 := by
  induction targets generalizing k s root kvs with
  | nil => exact ⟨h, hsound⟩
  | cons p targets ih =>
    obtain ⟨key, t⟩ := p
    obtain ⟨hlt, hs'⟩ := sortedMap_cons.1 hs
    have hsorted : SortedMap kvs := h.sorted .data
    cases t with
    | some v =>
      have hgrowth : k + targetsGrowth ((key, some v) :: targets)
          = k + (v.length + 1) + targetsGrowth targets := by
        rw [targetsGrowth, List.map_cons, List.sum_cons, ← Nat.add_assoc]
        rfl
      rw [hgrowth] at hn ⊢
      rw [Store.applyTargets, patch]
      refine (h.insert (i := .data) (hok (key, some v) (by simp) v rfl) (by omega)
        (hsound.insertFits _ _ _)).bind ?_
      rintro ⟨root', s'⟩ - ⟨h', hon⟩
      simp only [trees_data, update_trees_data] at h' hon ⊢
      refine ih hs' h' (fun q hq => hok q (by simp [hq])) (fun q hq hnone => ?_)
        (fun q hq cur hcur => ?_) hon.sound (by omega)
      · have hne : q.1 ≠ key := (hlt q hq).ne'
        rw [valueOf_insertKey_of_ne hsorted hne]
        exact hdel q (by simp [hq]) hnone
      · obtain ⟨hroot, hkey, -, hfits⟩ := hon cur hcur
        exact ⟨hroot, hfits, hkey ▸ hlt q hq⟩
    | none =>
      have hgrowth : targetsGrowth ((key, none) :: targets) = targetsGrowth targets := by
        simp [targetsGrowth]
      rw [hgrowth] at hn ⊢
      rw [Store.applyTargets, patch]
      -- a key that is there is not behind the last one, so there is no cursor
      have hnone : s.append_cursor = none := by
        by_contra hne
        obtain ⟨cur, hcur'⟩ := Option.ne_none_iff_exists'.1 hne
        obtain ⟨rfl, ⟨hno, b, hright, hend⟩, hlast⟩ := hcur (key, none) (by simp) cur hcur'
        obtain ⟨F, htree⟩ := h.tree .data
        obtain ⟨hroot, -, -⟩ | hholds := htree
        · exact hno hroot
        · obtain ⟨v, hv⟩ := Option.isSome_iff_exists.1 (hdel (key, none) (by simp) rfl)
          have hmem : (key, v) ∈ kvs := (mem_iff_valueOf hsorted).2 hv
          exact absurd ((hholds.le_last hright hend).2 _ hmem) (not_le.2 hlast)
      refine (h.delete (i := .data) key (show 2 * k ≤ n by omega)).bind ?_
      rintro ⟨root', existed, s'⟩ - ⟨h', -, hcursor⟩
      simp only [trees_data, update_trees_data] at h' hcursor ⊢
      rw [hnone] at hcursor
      refine ih hs' h' (fun q hq => hok q (by simp [hq])) (fun q hq hq' => ?_)
        (fun q _ cur hcur => ?_) (fun cur hcur => ?_) hn
      · have hne : q.1 ≠ key := (hlt q hq).ne'
        rw [valueOf_eraseKey_of_ne kvs hne]
        exact hdel q (by simp [hq]) hq'
      · rw [hcursor] at hcur
        cases hcur
      · rw [hcursor] at hcur
        cases hcur

/-- The entries of a commit in the meta tree, which is one of the trees. -/
lemma TxHolds.writeMetaIndices {ι : Type} [DecidableEq ι] {roots : ι → ℕ} {maps : ι → Entries}
    {i : ι} (h : TxHolds pager k s roots maps) {version data_root now parent : ℕ} {branch : String}
    (hfits : InsertFits n s (roots i) (histKey version) (Store.histVal data_root now parent))
    (hbranch : (utf8 branch).length ≤ BRANCH_MAX) (hn : 2 * (k + 34) ≤ n) :
    Outcome (Refused TxStore) (Store.writeMetaIndices n s (roots i) version data_root now branch
      parent) fun r => TxHolds pager (k + 34) r.2 (Function.update roots i r.1)
        (Function.update maps i (insertKey (refKey branch) (leBytes 8 version)
          (insertKey (histKey version) (Store.histVal data_root now parent) (maps i)))) := by
  have hhist : (Store.histVal data_root now parent).length = 24 := by simp [Store.histVal]
  have hokHist : (MapOp.insert (histKey version) (Store.histVal data_root now parent)).Ok := by
    refine ⟨by simp [histKey], ?_, ?_⟩
    · simp [histKey, MAX_KEY_LEN]
    · rw [hhist]
      decide
  have hokRef : (MapOp.insert (refKey branch) (leBytes 8 version)).Ok := by
    refine ⟨by simp [refKey], ?_, by simp⟩
    rw [refKey, List.length_cons]
    exact (Nat.succ_le_succ hbranch).trans (by decide)
  rw [Store.writeMetaIndices]
  refine (h.insert hokHist (by rw [hhist]; omega) hfits).bind ?_
  rintro ⟨root₁, s₁⟩ - ⟨h₁, hon⟩
  simp only [hhist] at h₁ hon ⊢
  have hfits₁ : InsertFits n s₁ (Function.update roots i root₁ i) (refKey branch)
      (leBytes 8 version) := hon.sound.insertFits _ _ _
  have hins := h₁.insert hokRef (by rw [length_leBytes]; omega) hfits₁
  rw [Function.update_self] at hins
  refine hins.imp ?_
  rintro ⟨root₂, s₂⟩ - ⟨h₂, -⟩
  simpa only [length_leBytes, Function.update_idem, Function.update_self] using h₂

lemma writeMetaIndices_outcome (h : TxHolds pager k s (trees root meta_root) (trees kvs mkvs))
    {version data_root now parent : ℕ} {branch : String}
    (hfits : InsertFits n s meta_root (histKey version) (Store.histVal data_root now parent))
    (hbranch : (utf8 branch).length ≤ BRANCH_MAX) (hn : 2 * (k + 34) ≤ n) :
    Outcome (Refused TxStore) (Store.writeMetaIndices n s meta_root version data_root now branch
      parent) fun r => TxHolds pager (k + 34) r.2 (trees root r.1) (trees kvs
        (insertKey (refKey branch) (leBytes 8 version)
          (insertKey (histKey version) (Store.histVal data_root now parent) mkvs))) := by
  have hwrite := h.writeMetaIndices (i := .indices) hfits hbranch hn
  simpa only [update_trees_indices, trees_indices] using hwrite

end Commit

end Arkeion
