import Arkeion.BtreeMap
import Arkeion.TxTrees
import Arkeion.Lib.MapProgram

/-!
Code that is generic over the store and goes by the operations of the tree alone. On a tree it
does what it does on the map the tree holds.
-/

namespace Arkeion

open Arkeion.Lib

/-- Code over a tree: `btree::get`, `scan_from`, `insert` and `delete` and what it computes. -/
abbrev TreeM := MapProgram Bytes Bytes Error

namespace TreeM

open Btree NodeSource NodeStore LawfulNodeStore

variable {α : Type}

def keyCheck (key : Bytes) : Result Unit :=
  require (key ≠ [] ∧ key.length ≤ MAX_KEY_LEN)
    (.invalidInput "clave vacía o de más de 1024 bytes")

/-- The code on the map a tree holds. -/
def onMap (p : TreeM α) (kvs : Entries) : Result (α × Entries) := p.run keyCheck kvs

section OnMap
variable {β : Type} {kvs kvs' : Entries} {key value : Bytes}

@[simp] lemma onMap_pure (a : α) : (pure a : TreeM α).onMap kvs = .ok (a, kvs) := rfl

@[simp] lemma onMap_lift (x : Result α) :
    (liftM x : TreeM α).onMap kvs = x >>= fun a => .ok (a, kvs) := MapProgram.run_lift x

@[simp] lemma onMap_read :
    onMap (MapProgram.read key) kvs = .ok (valueOf key kvs, kvs) := rfl

@[simp] lemma onMap_readFrom :
    onMap (MapProgram.readFrom key) kvs = .ok (fromKey key kvs, kvs) := rfl

@[simp] lemma onMap_write : onMap (MapProgram.write key value) kvs
    = keyCheck key >>= fun _ => .ok ((), insertKey key value kvs) := rfl

@[simp] lemma onMap_erase : onMap (MapProgram.erase key) kvs
    = .ok ((valueOf key kvs).isSome, eraseKey key kvs) := rfl

@[simp] lemma onMap_bind (p : TreeM α) (f : α → TreeM β) :
    (p >>= f).onMap kvs = p.onMap kvs >>= fun r => (f r.1).onMap r.2 := MapProgram.run_bind p f

lemma onMap_sorted {p : TreeM α} {a : α} (h : p.onMap kvs = .ok (a, kvs')) (hs : SortedMap kvs) :
    SortedMap kvs' := MapProgram.run_sorted h hs

end OnMap

/-- The code on the tree at a root. -/
def onTree {σ : Type} [NodeStore σ] (n : ℕ) : TreeM α → σ → ℕ → Result (α × ℕ × σ)
  | .done a, s, root => .ok (a, root, s)
  | .fail e, _, _ => .error e
  | .get key next, s, root => do
    let v ← Btree.get s n root key
    onTree n (next v) s root
  | .scanFrom start next, s, root => do
    let kvs ← Btree.scanFrom s n root start
    onTree n (next kvs) s root
  | .insert key value next, s, root => do
    let (root, s) ← Btree.insert n s root key value
    onTree n next s root
  | .delete key next, s, root => do
    let (root, existed, s) ← Btree.delete n s root key
    onTree n (next existed) s root

section Refines
variable {σ : Type} [NodeStore σ] [LawfulNodeStore σ] [NoCursor σ]

/-- The code on a tree returns what it returns on the map and leaves a tree of the map it leaves
there, unless the store refuses a page. -/
theorem onTree_refines (p : TreeM α) {s : σ} {k n root : ℕ} {kvs : Entries} (hv : Valid s)
    (h : TreeOf s k root kvs) (hvalues : ∀ q ∈ p.inserted kvs, q.2.length < 2 ^ 64)
    (hn : 2 * (k + weight (p.inserted kvs)) + 2 ≤ n) :
    Outcome (fun e => Refused σ e ∨ p.onMap kvs = .error e) (p.onTree n s root) fun r =>
      ∃ kvs', p.onMap kvs = .ok (r.1, kvs') ∧ Valid r.2.2 ∧
        TreeOf r.2.2 (k + weight (p.inserted kvs)) r.2.1 kvs' := by
  induction p generalizing s k root kvs with
  | done a => exact ⟨kvs, rfl, hv, h⟩
  | fail e => exact Or.inr rfl
  | get key next ih =>
    rw [onTree, (h.readsAs (by omega)).get]
    exact ih _ hv h hvalues hn
  | scanFrom start next ih =>
    rw [onTree, (h.readsAs (by omega)).scanFrom]
    exact ih _ hv h hvalues hn
  | insert key value next ih =>
    rw [MapProgram.inserted, weight_cons] at hn ⊢
    dsimp only at hn ⊢
    rw [MapProgram.inserted, List.forall_mem_cons] at hvalues
    by_cases hkey : key ≠ [] ∧ key.length ≤ MAX_KEY_LEN
    · have hmap : onMap (.insert key value next) kvs = onMap next (insertKey key value kvs) := by
        rw [onMap, MapProgram.run, keyCheck, require_pos hkey, ok_bind]
        rfl
      have hop : (MapOp.insert key value).Ok :=
        ⟨List.length_pos_iff.2 hkey.1, hkey.2, hvalues.1⟩
      rw [onTree, hmap]
      refine ((insert_step hv h hop (by omega)).weaken fun e he => Or.inl he).bind ?_
      rintro ⟨root', s'⟩ - ⟨hv', h'⟩
      rw [← Nat.add_assoc] at hn ⊢
      exact ih hv' h' hvalues.2 hn
    · have herr {β : Type} (f : Unit → Result β) : (require (key ≠ [] ∧ key.length ≤ MAX_KEY_LEN)
          (.invalidInput "clave vacía o de más de 1024 bytes") >>= f)
          = .error (.invalidInput "clave vacía o de más de 1024 bytes") := by
        rw [require, if_neg hkey]
        rfl
      rw [onTree, Btree.insert, herr]
      refine Or.inr ?_
      rw [onMap, MapProgram.run, keyCheck, herr]
  | delete key next ih =>
    rw [onTree]
    refine ((delete_step hv h key (by omega)).weaken fun e he => Or.inl he).bind ?_
    rintro ⟨root', existed, s'⟩ - ⟨hv', h', hexisted⟩
    obtain rfl : existed = (valueOf key kvs).isSome := hexisted
    exact ih _ hv' h' hvalues hn

end Refines

end TreeM

end Arkeion
