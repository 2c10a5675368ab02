import Arkeion.BtreeDiff
import Arkeion.BtreeMap

/-!
The difference of two trees is the difference of what can be read from them: one entry for each
key whose value is not the same, in ascending order, and no other entry.
-/

namespace Arkeion

open Arkeion.Lib

namespace Btree

section Exact
variable {σ : Type} [NodeStore σ] {s : σ} {m m' n n' : ℕ} {a b : ℕ} {kvsA kvsB : Entries}
  {F G : List ℕ}

/-- The entries are those of the keys that read differently under the two roots. -/
structure DiffExact (s : σ) (n a b : ℕ) (out : List KeyDiff) : Prop where
  ascending : out.Pairwise fun d d' => d.1 < d'.1
  changes : ∀ key, ∃ x y, get s n a key = .ok x ∧ get s n b key = .ok y ∧
    ∀ change, (key, change) ∈ out ↔ changeOf x y = some change

lemma diffMaps_exact (hA : TreeHolds s m n a kvsA F) (hB : TreeHolds s m n' b kvsB G) {k : ℕ}
    (hm : m ≤ k) (hn : n ≤ k) (hn' : n' ≤ k) : DiffExact s k a b (diffMaps kvsA kvsB) where
  ascending := sortedMap_diffMaps hA.sorted hB.sorted
  changes key := by
    refine ⟨_, _, get_eq hA hn hm key, get_eq hB hn' hm key, fun change => ?_⟩
    rw [mem_iff_valueOf (sortedMap_diffMaps hA.sorted hB.sorted),
      valueOf_diffMaps hA.sorted hB.sorted]

/-- The difference of any two trees in one store is exact, whatever pages they share. -/
theorem diff_exact (hA : TreeHolds s m n a kvsA F) (hB : TreeHolds s m' n' b kvsB G) :
    ∃ N, ∀ k, N ≤ k → ∃ out, diff s k a b = .ok out ∧ DiffExact s k a b out := by
  refine ⟨m + m' + n + n' + kvsA.length + kvsB.length + 2, fun k hk => ?_⟩
  have hA' : TreeHolds s (m + m') n a kvsA F := hA.mono (by omega) le_rfl
  have hB' : TreeHolds s (m + m') n' b kvsB G := hB.mono (by omega) le_rfl
  refine ⟨_, diff_eq hA' hB' ?_ ?_ ?_ ?_ ?_, diffMaps_exact hA' hB' ?_ ?_ ?_⟩
  all_goals omega

end Exact

/-- The theorem at a tree of one key, against no tree. -/
theorem diff_exact_one : ∃ root s, insert 8 CowMemStore.new NO_ROOT [2] [7] = .ok (root, s) ∧
    ∃ N, ∀ k, N ≤ k → ∃ out, diff s k NO_ROOT root = .ok out ∧ DiffExact s k NO_ROOT root out := by
  obtain ⟨root, s, hrun, F, htree, -⟩ := @treeOf_insert_new 8 [2] [7]
    (by simp [MapOp.Ok, show MAX_KEY_LEN = 1024 from rfl]) (by decide) (by decide +kernel)
  exact ⟨root, s, hrun, diff_exact (Or.inl ⟨rfl, rfl, rfl⟩ : TreeHolds s 0 0 NO_ROOT [] []) htree⟩

end Btree

end Arkeion
