import Arkeion.BtreeDelete
import Arkeion.BtreeRead
import Arkeion.CowMemStore

/-!
The B-tree as a finite map: after any sequence of insertions and deletions, starting without a
root, every reading operation gives what the map subjected to the same operations gives.
-/

namespace Arkeion

open Arkeion.Lib

namespace Btree

open NodeSource NodeStore Node LawfulNodeStore

inductive MapOp where
  | insert (key value : Bytes)
  | delete (key : Bytes)
  deriving DecidableEq, Repr

namespace MapOp

/-- Keys to insert are of 1 to 1024 bytes, values of a length in 64 bits. -/
def Ok : MapOp → Prop
  | insert key value => 0 < key.length ∧ key.length ≤ MAX_KEY_LEN ∧ value.length < 2 ^ 64
  | delete _ => True

/-- The operation on a finite map. -/
def onMap (kvs : Entries) : MapOp → Entries
  | insert key value => insertKey key value kvs
  | delete key => eraseKey key kvs

/-- By how much the operation can raise the height of the tree, the number of its entries and
the length of its chains. -/
def growth : MapOp → ℕ
  | insert _ value => value.length + 1
  | delete _ => 0

end MapOp

/-- The map after some operations. -/
def mapAfter (kvs : Entries) (ops : List MapOp) : Entries := ops.foldl MapOp.onMap kvs

/-- What the deletions among some operations say: whether their key was in the map. -/
def deletedKeys : Entries → List MapOp → List Bool
  | _, [] => []
  | kvs, .insert key value :: ops => deletedKeys (insertKey key value kvs) ops
  | kvs, .delete key :: ops => (valueOf key kvs).isSome :: deletedKeys (eraseKey key kvs) ops

/-- A fuel that is enough for the operations and for reading what they leave. -/
def fuelFor (ops : List MapOp) : ℕ := 2 * (ops.map MapOp.growth).sum + 2

section Entries
variable {σ : Type} [NodeStore σ] {s : σ} {m n root : ℕ} {kvs : Entries} {F : List ℕ}

/-- The entries of a tree are such as can be put into one. -/
lemma Holds.insert_ok {x : Option Bytes × Option Bytes × ℕ} (h : Holds s m n x kvs F) :
    ∀ p ∈ kvs, (MapOp.insert p.1 p.2).Ok := by
  induction n generalizing x kvs F with
  | zero => exact absurd h (fun h => h)
  | succ n ih =>
    obtain ⟨lo, hi, id⟩ := x
    obtain ⟨-, -, b, F', -, -, ⟨cells, hl⟩ | ⟨cells, r, hin⟩⟩ := h
    · obtain ⟨z, pfx, hshape⟩ := hl.leaf
      refine hl.cells.forall_entries fun c hc k G hcell p hp => ?_
      obtain ⟨v, rfl, -, hpayload⟩ := hcell
      obtain ⟨hpos, hle, hsized⟩ := hshape.sized c hc
      rw [List.mem_singleton.1 hp]
      refine ⟨hpos, hle, ?_⟩
      cases hpl : c.payload with
      | inline w =>
        rw [hpl] at hpayload hsized
        rw [hpayload.1]
        exact hsized
      | overflow total_len first =>
        rw [hpl] at hpayload hsized
        rw [hpayload.1]
        exact hsized.1
    · exact hin.kids.forall_entries fun _ _ _ _ hkid => ih hkid

lemma TreeHolds.insert_ok (h : TreeHolds s m n root kvs F) :
    ∀ p ∈ kvs, (MapOp.insert p.1 p.2).Ok := by
  rcases h with ⟨-, rfl, -⟩ | h
  · simp
  · exact h.insert_ok

end Entries

section Run
variable {σ : Type} [NodeStore σ]

/-- The operations on a tree one after the other: what the deletions return, the root and the
store. -/
def runOps (n : ℕ) : List MapOp → σ → ℕ → Result (List Bool × ℕ × σ)
  | [], s, root => .ok ([], root, s)
  | .insert key value :: ops, s, root => do
    let (root, s) ← insert n s root key value
    runOps n ops s root
  | .delete key :: ops, s, root => do
    let (root, existed, s) ← delete n s root key
    let (deleted, root, s) ← runOps n ops s root
    .ok (existed :: deleted, root, s)

/-- All reading operations on the tree give what the map gives. -/
structure ReadsAs (s : σ) (n root : ℕ) (kvs : Entries) : Prop where
  sorted : SortedMap kvs
  get : ∀ key, get s n root key = .ok (valueOf key kvs)
  contains : ∀ key, contains s n root key = .ok (valueOf key kvs).isSome
  scan : scan s n root = .ok kvs
  scanFrom : ∀ start, scanFrom s n root start = .ok (fromKey start kvs)

/-- The store holds a tree with the entries; `k` bounds its height, the length of its chains and
the number of its entries. -/
def TreeOf (s : σ) (k root : ℕ) (kvs : Entries) : Prop :=
  ∃ F, TreeHolds s k k root kvs F ∧ F.Nodup ∧ kvs.length ≤ k

lemma TreeOf.readsAs {s : σ} {k n root : ℕ} {kvs : Entries} (h : TreeOf s k root kvs)
    (hn : k + 2 ≤ n) : ReadsAs s n root kvs := by
  obtain ⟨F, htree, -, hlen⟩ := h
  exact ⟨htree.sorted, fun key => get_eq htree (by omega) (by omega) key,
    fun key => contains_eq htree (by omega) key, scan_eq htree (by omega) hn (by omega),
    fun start => scanFrom_eq htree (by omega) hn (by omega) start⟩

section Steps
variable [LawfulNodeStore σ] {s : σ} {k n root : ℕ} {kvs : Entries}

lemma insert_step [NoCursor σ] (hv : Valid s) (h : TreeOf s k root kvs) {key value : Bytes}
    (hop : (MapOp.insert key value).Ok) (hn : 2 * (k + (value.length + 1)) ≤ n) :
    Outcome (Refused σ) (insert n s root key value) fun r => Valid r.2 ∧
      TreeOf r.2 (k + (value.length + 1)) r.1 (insertKey key value kvs) := by
  obtain ⟨F, htree, hnodup, hlen⟩ := h
  obtain ⟨hpos, hkey, hvalue⟩ := hop
  have hne : key ≠ [] := List.length_pos_iff.1 hpos
  rw [insert, require_pos ⟨hne, hkey⟩]
  simp only [ok_bind, NoCursor.take, appendAtCursor]
  refine (insertDown_outcome hv htree hnodup hpos hkey hvalue (by omega)).imp ?_
  rintro r - ⟨F', hframe, hnodup', hholds⟩
  exact ⟨hframe.valid, F', Or.inr (hholds.mono (by omega) (by omega)), hnodup',
    (length_insertKey_le key value kvs).trans (by omega)⟩

lemma delete_step (hv : Valid s) (h : TreeOf s k root kvs) (key : Bytes) (hn : 2 * k ≤ n) :
    Outcome (Refused σ) (delete n s root key) fun r => Valid r.2.2 ∧
      TreeOf r.2.2 k r.1 (eraseKey key kvs) ∧ r.2.1 = (valueOf key kvs).isSome := by
  obtain ⟨F, htree, hnodup, hlen⟩ := h
  refine (delete_outcome hv htree hnodup (by omega)).imp ?_
  rintro r - ⟨F', hframe, hnodup', hholds, hexisted⟩
  exact ⟨hframe.valid, ⟨F', hholds, hnodup', (List.length_filter_le _ _).trans hlen⟩, hexisted⟩

/-- A run of operations, from any tree on. -/
lemma runOps_outcome [NoCursor σ] {ops : List MapOp} (hops : ∀ op ∈ ops, op.Ok) (hv : Valid s)
    (h : TreeOf s k root kvs) (hn : 2 * (k + (ops.map MapOp.growth).sum) ≤ n) :
    Outcome (Refused σ) (runOps n ops s root) fun r => r.1 = deletedKeys kvs ops ∧
      TreeOf r.2.2 (k + (ops.map MapOp.growth).sum) r.2.1 (mapAfter kvs ops) := by
  induction ops generalizing s k root kvs with
  | nil => exact ⟨rfl, h⟩
  | cons op ops ih =>
    have hrest : ∀ op ∈ ops, op.Ok := fun o ho => hops o (by simp [ho])
    rw [List.map_cons, List.sum_cons, ← Nat.add_assoc] at hn ⊢
    cases op with
    | insert key value =>
      rw [runOps]
      rw [MapOp.growth] at hn ⊢
      refine (insert_step hv h (hops _ (by simp)) (by omega)).bind ?_
      rintro ⟨root', s'⟩ - ⟨hv', h'⟩
      exact ih hrest hv' h' hn
    | delete key =>
      rw [runOps]
      rw [MapOp.growth, Nat.add_zero] at hn ⊢
      refine (delete_step hv h key (by omega)).bind ?_
      rintro ⟨root', existed, s'⟩ - ⟨hv', h', hexisted⟩
      refine (ih hrest hv' h' hn).bind ?_
      rintro ⟨deleted, root'', s''⟩ - ⟨hdeleted, h''⟩
      rw [deletedKeys, ← hexisted, ← hdeleted]
      exact ⟨rfl, h''⟩

/-- A tree built by insertions and deletions, starting without a root, reads as the map that
the same operations build: after every prefix of the operations, unless the store refuses a
page or an assertion on the size of a node fires. -/
theorem tree_refines_map [NoCursor σ] (s : σ) (hv : Valid s) (ops : List MapOp)
    (hops : ∀ op ∈ ops, op.Ok) (n : ℕ) (hn : fuelFor ops ≤ n) (done : List MapOp)
    (hdone : done <+: ops) :
    (∀ e, runOps n done s NO_ROOT = .error e → Refused σ e) ∧
    ∀ deleted root s', runOps n done s NO_ROOT = .ok (deleted, root, s') →
      deleted = deletedKeys [] done ∧ ReadsAs s' n root (mapAfter [] done) := by
  have hsum : (done.map MapOp.growth).sum ≤ (ops.map MapOp.growth).sum := by
    obtain ⟨rest, rfl⟩ := hdone
    rw [List.map_append, List.sum_append]
    omega
  have hempty : TreeOf s 0 NO_ROOT [] := ⟨[], Or.inl ⟨rfl, rfl, rfl⟩, List.nodup_nil, le_rfl⟩
  rw [fuelFor] at hn
  have h := runOps_outcome (n := n) (fun op hop => hops op (hdone.subset hop)) hv hempty (by omega)
  refine ⟨fun e he => h.of_error he, fun deleted root s' hrun => ?_⟩
  obtain ⟨hdeleted, htree⟩ := h.of_ok hrun
  exact ⟨hdeleted, htree.readsAs (by omega)⟩

/-- The theorem at a small run in a store in memory. -/
theorem tree_refines_map_memory :
    (∀ e, runOps 8 [.insert [2] [7], .insert [1] [], .delete [2]] CowMemStore.new NO_ROOT
      = .error e → Refused CowMemStore e) ∧
    ∀ deleted root s', runOps 8 [.insert [2] [7], .insert [1] [], .delete [2]] CowMemStore.new
      NO_ROOT = .ok (deleted, root, s') → deleted = [true] ∧ ReadsAs s' 8 root [([1], [])] :=
  tree_refines_map CowMemStore.new CowMemStore.lawful_new
    [.insert [2] [7], .insert [1] [], .delete [2]]
    (by simp [MapOp.Ok, show MAX_KEY_LEN = 1024 from rfl]) 8 (by decide)
    [.insert [2] [7], .insert [1] [], .delete [2]] (List.prefix_refl _)

/-- The tree of one insertion in a new store. -/
lemma treeOf_insert_new {n : ℕ} {key value : Bytes} (hop : (MapOp.insert key value).Ok)
    (hn : 2 * (value.length + 1) ≤ n)
    (hok : (insert n CowMemStore.new NO_ROOT key value).toOption.isSome) :
    ∃ root s, insert n CowMemStore.new NO_ROOT key value = .ok (root, s) ∧
      TreeOf s (value.length + 1) root [(key, value)] := by
  have hempty : TreeOf CowMemStore.new 0 NO_ROOT [] :=
    ⟨[], Or.inl ⟨rfl, rfl, rfl⟩, List.nodup_nil, le_rfl⟩
  have hstep := insert_step CowMemStore.lawful_new hempty hop (by omega : 2 * (0 + (value.length + 1)) ≤ n)
  cases hrun : insert n CowMemStore.new NO_ROOT key value with
  | error e =>
    rw [hrun] at hok
    cases hok
  | ok r =>
    have htree := (hstep.of_ok hrun).2
    rw [Nat.zero_add] at htree
    exact ⟨r.1, r.2, rfl, htree⟩

end Steps

end Run

end Btree

end Arkeion
