import Arkeion.BtreeMap
import Arkeion.CursorSpec
import Arkeion.TxKeeps

/-!
The append cursor of a transaction: several trees share the store and its one cursor, as the
data and the meta tree do in a commit.

As long as every insertion that goes by the cursor finds it to describe the rightmost leaf as
it is, the store with the cursor and the store without it do the same. A deletion does not
adjust the cursor, so after one the condition can fail.
-/

namespace Arkeion

open Arkeion.Lib

namespace Btree

open NodeSource NodeStore Node LawfulNodeStore

variable {ι : Type} [DecidableEq ι]

/-! ### Runs over several trees -/

section Run
variable {σ : Type} [NodeStore σ]

/-- An operation on the tree under an index. -/
def stepTrees (n : ℕ) (s : σ) (roots : ι → ℕ) (i : ι) : MapOp → Result ((ι → ℕ) × σ)
  | .insert key value => do
    let (root, s) ← insert n s (roots i) key value
    .ok (Function.update roots i root, s)
  | .delete key => do
    let (root, _, s) ← delete n s (roots i) key
    .ok (Function.update roots i root, s)

def runTrees (n : ℕ) : List (ι × MapOp) → σ → (ι → ℕ) → Result ((ι → ℕ) × σ)
  | [], s, roots => .ok (roots, s)
  | (i, op) :: ops, s, roots => do
    let (roots, s) ← stepTrees n s roots i op
    runTrees n ops s roots

/-- Every insertion of the run that goes by the cursor finds it to fit. -/
def CursorsFit (n : ℕ) : List (ι × MapOp) → σ → (ι → ℕ) → Prop
  | [], _, _ => True
  | (i, op) :: ops, s, roots =>
    (∀ key value, op = .insert key value → InsertFits n s (roots i) key value) ∧
    ∀ roots' s', stepTrees n s roots i op = .ok (roots', s') → CursorsFit n ops s' roots'

/-- The nodes of a tree. -/
inductive Reaches (s : σ) (root : ℕ) : ℕ → Prop
  | root : root ≠ NO_ROOT → Reaches s root root
  | child {id child : ℕ} {b : Bytes} {cells : List InnerCell} {rightmost : ℕ} :
      Reaches s root id → body s id = .ok b → parseInner id b = .ok (cells, rightmost) →
      child = rightmost ∨ (∃ c ∈ cells, c.child = child) → Reaches s root child

/-- The leaf parses, to the cells its pointers lead to. -/
def LeafParses (page : ℕ) (b : Bytes) : Prop :=
  ∃ cells, parseLeaf page b = .ok cells ∧ cells.length = leafNcells b ∧
    ∀ i c, cells[i]? = some c → leafCellAt page b i = .ok (c.key, c.payload)

/-- The tree of the first store reads as the one of the second, and its leaves parse. -/
structure SameTree {τ : Type} [NodeStore τ] (n : ℕ) (s : σ) (root : ℕ) (t : τ) (root' : ℕ) :
    Prop where
  get : ∀ key, get s n root key = get t n root' key
  scan : scan s n root = scan t n root'
  scanFrom : ∀ start, scanFrom s n root start = scanFrom t n root' start
  leaves : ∀ id b, Reaches s root id → body s id = .ok b → nodeType b = TYPE_LEAF →
    LeafParses id b

end Run

/-- The trees that a run builds with the cursor are those it builds without it. -/
def CursorTransparent (n : ℕ) (ops : List (ι × MapOp)) (s : TxStore) (roots : ι → ℕ) : Prop :=
  ∀ done, done <+: ops →
    (∀ e, runTrees n done s roots = .error e ↔ runTrees n done s.toTxPages roots = .error e) ∧
    ∀ roots₁ s₁ roots₂ s₂, runTrees n done s roots = .ok (roots₁, s₁) →
      runTrees n done s.toTxPages roots = .ok (roots₂, s₂) →
      ∀ i, SameTree n s₁ (roots₁ i) s₂ (roots₂ i)

/-! ### The leaves of a tree parse -/

section Leaves
variable {σ : Type} [NodeStore σ] {s : σ} {m n : ℕ} {kvs : Entries} {F : List ℕ}

omit [DecidableEq ι] in
lemma Cat.exists_of_mem {α : Type} {P : α → Entries → List ℕ → Prop} {as : List α}
    (h : Cat P as kvs F) {a : α} (ha : a ∈ as) : ∃ k G, P a k G := by
  induction as generalizing kvs F with
  | nil => simp at ha
  | cons b as ih =>
    obtain ⟨k₁, k₂, F₁, F₂, -, -, hb, hrest⟩ := h
    rcases List.mem_cons.1 ha with rfl | ha
    · exact ⟨k₁, F₁, hb⟩
    · exact ih hrest ha

lemma exists_range_of_child (lo hi : Option Bytes) (cells : List InnerCell) {r child : ℕ}
    (h : child = r ∨ ∃ c ∈ cells, c.child = child) :
    ∃ l u, (l, u, child) ∈ childRanges lo hi cells r := by
  induction cells generalizing lo with
  | nil =>
    rcases h with rfl | ⟨c, hc, -⟩
    · exact ⟨lo, hi, by simp [childRanges]⟩
    · simp at hc
  | cons c cells ih =>
    have hrec (h : child = r ∨ ∃ c ∈ cells, c.child = child) :
        ∃ l u, (l, u, child) ∈ childRanges lo hi (c :: cells) r := by
      obtain ⟨l, u, hmem⟩ := ih (some c.key) h
      exact ⟨l, u, List.mem_cons_of_mem _ hmem⟩
    rcases h with rfl | ⟨d, hd, rfl⟩
    · exact hrec (Or.inl rfl)
    · rcases List.mem_cons.1 hd with rfl | hd
      · exact ⟨lo, some d.key, by simp [childRanges]⟩
      · exact hrec (Or.inr ⟨d, hd, rfl⟩)

/-- Every node of a tree is the root of a tree. -/
lemma Reaches.holds {root id : ℕ} (hr : Reaches s root id) (h : TreeHolds s m n root kvs F) :
    ∃ n' lo hi kvs' F', Holds s m n' (lo, hi, id) kvs' F' := by
  induction hr with
  | root hne =>
    rcases h with ⟨hnone, -, -⟩ | h
    · exact absurd hnone hne
    · exact ⟨n, none, none, kvs, F, h⟩
  | @child id child b cells r _ hb hp hc ih =>
    obtain ⟨n', lo, hi, kvs', F', hid⟩ := ih
    cases n' with
    | zero => exact absurd hid (fun h => h)
    | succ n' =>
      obtain ⟨-, -, b', G, hb', -, ⟨lcells, hl⟩ | ⟨icells, r', hin⟩⟩ := hid
      · rw [hb] at hb'
        cases hb'
        obtain ⟨z, pfx, hshape⟩ := hl.leaf
        have hneq : ¬ nodeType b = TYPE_INNER := by
          rw [hshape.nodeType_eq]
          decide
        rw [parseInner, require, if_neg hneq] at hp
        cases hp
      · rw [hb] at hb'
        cases hb'
        rw [hin.inner.parseInner_eq] at hp
        cases hp
        obtain ⟨l, u, hmem⟩ := exists_range_of_child lo hi cells hc
        obtain ⟨k, G', hk⟩ := hin.kids.exists_of_mem hmem
        exact ⟨n', l, u, k, G', hk⟩

lemma TreeHolds.leaves {root : ℕ} (h : TreeHolds s m n root kvs F) {id : ℕ} {b : Bytes}
    (hr : Reaches s root id) (hb : body s id = .ok b) (ht : nodeType b = TYPE_LEAF) :
    LeafParses id b := by
  obtain ⟨n', lo, hi, kvs', F', hid⟩ := hr.holds h
  cases n' with
  | zero => exact absurd hid (fun h => h)
  | succ n' =>
    obtain ⟨-, -, b', G, hb', -, ⟨cells, hl⟩ | ⟨cells, r, hin⟩⟩ := hid
    · rw [hb] at hb'
      cases hb'
      obtain ⟨z, pfx, hshape⟩ := hl.leaf
      exact ⟨cells, hshape.parseLeaf_eq id, hshape.leafNcells_eq.symm,
        fun i c hc => hshape.leafCellAt_eq id hc⟩
    · rw [hb] at hb'
      cases hb'
      rw [hin.inner.nodeType_eq] at ht
      exact absurd ht (by decide)

end Leaves

/-! ### Several trees in one store -/

section Trees
variable {σ : Type} [NodeStore σ]

/-- The store holds a tree of entries under each root, and no two own the same page; `k` bounds
the heights, the lengths of chains and the numbers of entries. -/
def TreesOf (s : σ) (k : ℕ) (roots : ι → ℕ) (maps : ι → Entries) : Prop :=
  ∃ F : ι → List ℕ, (∀ i, TreeHolds s k k (roots i) (maps i) (F i)) ∧ (∀ i, (F i).Nodup) ∧
    ∀ i j, i ≠ j → ∀ id ∈ F i, id ∉ F j

variable [LawfulNodeStore σ] {s : σ} {k n : ℕ} {roots : ι → ℕ} {maps : ι → Entries}

/-- A tree exchanged for another one that took its pages. -/
lemma TreesOf.update {s' : σ} {k' root : ℕ} {kvs : Entries} {i : ι} {F : ι → List ℕ}
    {F' : List ℕ} (htree : ∀ i, TreeHolds s k k (roots i) (maps i) (F i))
    (hnd : ∀ i, (F i).Nodup) (hdisj : ∀ i j, i ≠ j → ∀ id ∈ F i, id ∉ F j)
    (hframe : Frame s s' (F i) F') (hnd' : F'.Nodup) (hk : k ≤ k')
    (hnew : TreeHolds s' k' k' root kvs F') :
    TreesOf s' k' (Function.update roots i root) (Function.update maps i kvs) := by
  have hnot : ∀ j, j ≠ i → ∀ id ∈ F j, id ∉ F' := by
    intro j hj id hid
    obtain ⟨-, b, hb⟩ := (htree j).owned id hid
    exact hframe.not_mem hb (hdisj j i hj id hid)
  refine ⟨Function.update F i F', fun j => ?_, fun j => ?_, fun j l hjl id hid => ?_⟩
  · rcases eq_or_ne j i with rfl | hj
    · simpa using hnew
    · simp only [Function.update_of_ne hj]
      exact ((htree j).frame hframe (hdisj j i hj)).mono hk hk
  · rcases eq_or_ne j i with rfl | hj
    · simpa using hnd'
    · simpa only [Function.update_of_ne hj] using hnd j
  · rcases eq_or_ne j i with rfl | hj
    · rw [Function.update_self] at hid
      rw [Function.update_of_ne hjl.symm]
      exact fun hid' => hnot l hjl.symm id hid' hid
    · rw [Function.update_of_ne hj] at hid
      rcases eq_or_ne l i with rfl | hl
      · rw [Function.update_self]
        exact hnot j hj id hid
      · rw [Function.update_of_ne hl]
        exact hdisj j l hjl id hid

/-- One operation on one of the trees. -/
lemma stepTrees_outcome [CursorApart σ] (hv : Valid s) (h : TreesOf s k roots maps) {i : ι}
    {op : MapOp} (hop : op.Ok) (hn : 2 * (k + op.growth) ≤ n)
    (hfits : ∀ key value, op = .insert key value → InsertFits n s (roots i) key value) :
    Outcome (Refused σ) (stepTrees n s roots i op) fun r => Valid r.2 ∧
      TreesOf r.2 (k + op.growth) r.1 (Function.update maps i (op.onMap (maps i))) := by
  obtain ⟨F, htree, hnd, hdisj⟩ := h
  cases op with
  | insert key value =>
    obtain ⟨hpos, hkey, hvalue⟩ := hop
    have hf := CursorApart.take hv
    rw [MapOp.growth] at hn ⊢
    rw [stepTrees, insert_eq_down hv (htree i) (by omega) hpos hkey hvalue (hfits key value rfl)]
    refine (insertDown_outcome hf.valid ((htree i).frame hf (by simp)) (hnd i) hpos hkey hvalue
      (by omega)).bind ?_
    rintro ⟨root, s'⟩ - ⟨F', hframe, hnd', hholds⟩
    have hframe' := (hf.append_right (F i)).trans hframe
    exact ⟨hframe.valid, .update htree hnd hdisj hframe' hnd' (by omega)
      (Or.inr (hholds.mono (by omega) (by omega)))⟩
  | delete key =>
    rw [MapOp.growth] at hn ⊢
    rw [stepTrees]
    refine (delete_outcome hv (htree i) (hnd i) (by omega)).bind ?_
    rintro ⟨root, existed, s'⟩ - ⟨F', hframe, hnd', hholds, -⟩
    exact ⟨hframe.valid, .update htree hnd hdisj hframe hnd' (by omega) hholds⟩

/-- A run over the trees, as long as the cursor fits. -/
lemma runTrees_outcome [CursorApart σ] {ops : List (ι × MapOp)} (hops : ∀ p ∈ ops, p.2.Ok)
    (hv : Valid s) (h : TreesOf s k roots maps)
    (hn : 2 * (k + (ops.map fun p => p.2.growth).sum) ≤ n) (hfits : CursorsFit n ops s roots) :
    Outcome (Refused σ) (runTrees n ops s roots) fun r =>
      ∃ maps', TreesOf r.2 (k + (ops.map fun p => p.2.growth).sum) r.1 maps' := by
  induction ops generalizing s k roots maps with
  | nil => exact ⟨maps, h⟩
  | cons p ops ih =>
    obtain ⟨i, op⟩ := p
    rw [List.map_cons, List.sum_cons, ← Nat.add_assoc] at hn ⊢
    rw [runTrees]
    refine (stepTrees_outcome hv h (hops (i, op) (by simp)) (by omega) hfits.1).bind ?_
    rintro ⟨roots', s'⟩ hstep ⟨hv', h'⟩
    exact ih (fun q hq => hops q (by simp [hq])) hv' h' hn (hfits.2 roots' s' hstep)

end Trees

/-! ### With the cursor and without -/

section Transparent
variable {s : TxStore} {k n : ℕ} {roots : ι → ℕ} {maps : ι → Entries}

/-- An insertion in the store without the cursor, while the cursor fits. -/
lemma insert_toTxPages (hv : Valid s) {m root : ℕ} {kvs : Entries} {F : List ℕ}
    (h : TreeHolds s m k root kvs F) (hk : k ≤ n) {key value : Bytes}
    (hop : (MapOp.insert key value).Ok) (hfits : InsertFits n s root key value) :
    insert n s.toTxPages root key value
      = (insert n s root key value).map (Prod.map (fun i => i) TxStore.toTxPages) := by
  obtain ⟨hpos, hkey, hvalue⟩ := hop
  have hne : key ≠ [] := List.length_pos_iff.1 hpos
  rw [insert_eq_down hv h hk hpos hkey hvalue hfits, ← TxStore.pageHom_toTxPages.insertDown,
    TxStore.pageHom_toTxPages.take, insert, require_pos ⟨hne, hkey⟩]
  simp only [ok_bind, NoCursor.take, appendAtCursor]

lemma stepTrees_toTxPages (hv : Valid s) (h : TreesOf s k roots maps) {i : ι} {op : MapOp}
    (hop : op.Ok) (hn : k ≤ n)
    (hfits : ∀ key value, op = .insert key value → InsertFits n s (roots i) key value) :
    stepTrees n s.toTxPages roots i op
      = (stepTrees n s roots i op).map (Prod.map (fun r => r) TxStore.toTxPages) := by
  obtain ⟨F, htree, -, -⟩ := h
  cases op with
  | insert key value =>
    simp only [stepTrees, insert_toTxPages hv (htree i) hn hop (hfits key value rfl), map_bind,
      bind_map]
    rfl
  | delete key =>
    simp only [stepTrees, TxStore.pageHom_toTxPages.delete, map_bind, bind_map]
    rfl

lemma runTrees_toTxPages {ops : List (ι × MapOp)} (hops : ∀ p ∈ ops, p.2.Ok) (hv : Valid s)
    (h : TreesOf s k roots maps) (hn : 2 * (k + (ops.map fun p => p.2.growth).sum) ≤ n)
    (hfits : CursorsFit n ops s roots) : runTrees n ops s.toTxPages roots
      = (runTrees n ops s roots).map (Prod.map (fun r => r) TxStore.toTxPages) := by
  induction ops generalizing s k roots maps with
  | nil => rfl
  | cons p ops ih =>
    obtain ⟨i, op⟩ := p
    rw [List.map_cons, List.sum_cons, ← Nat.add_assoc] at hn
    have hop := hops (i, op) (by simp)
    have hstep := stepTrees_outcome hv h hop (by omega) hfits.1
    rw [runTrees, runTrees, stepTrees_toTxPages hv h hop (by omega) hfits.1]
    cases hrun : stepTrees n s roots i op with
    | error e => rfl
    | ok r =>
      obtain ⟨roots', s'⟩ := r
      obtain ⟨hv', h'⟩ := hstep.of_ok hrun
      exact ih (fun q hq => hops q (by simp [hq])) hv' h' hn (hfits.2 roots' s' hrun)

lemma CursorsFit.of_append {σ : Type} [NodeStore σ] {s : σ} {done rest : List (ι × MapOp)}
    (h : CursorsFit n (done ++ rest) s roots) : CursorsFit n done s roots := by
  induction done generalizing s roots with
  | nil => trivial
  | cons p done ih => exact ⟨h.1, fun roots' s' hstep => ih (h.2 roots' s' hstep)⟩

/-- As long as the cursor fits where an insertion goes by it, the trees are those of the store
without a cursor, and all their leaves parse. -/
theorem cursor_transparent (s : TxStore) (hv : Valid s) (roots : ι → ℕ) (maps : ι → Entries)
    (k : ℕ) (h : TreesOf s k roots maps) (ops : List (ι × MapOp)) (hops : ∀ p ∈ ops, p.2.Ok)
    (n : ℕ) (hn : 2 * (k + (ops.map fun p => p.2.growth).sum) ≤ n)
    (hfits : CursorsFit n ops s roots) : CursorTransparent n ops s roots := by
  rintro done ⟨rest, rfl⟩
  rw [List.map_append, List.sum_append] at hn
  have hdone : ∀ p ∈ done, p.2.Ok := fun p hp => hops p (by simp [hp])
  have hrun := runTrees_outcome hdone hv h (by omega) hfits.of_append
  rw [runTrees_toTxPages hdone hv h (by omega) hfits.of_append]
  refine ⟨fun e => ?_, fun roots₁ s₁ roots₂ s₂ h₁ h₂ i => ?_⟩
  · cases runTrees n done s roots <;> simp
  · rw [h₁] at h₂
    cases h₂
    obtain ⟨maps', F, htree, -, -⟩ := hrun.of_ok h₁
    exact ⟨fun key => (TxStore.pageHom_toTxPages.get s₁ n (roots₁ i) key).symm,
      (TxStore.pageHom_toTxPages.scan s₁ n (roots₁ i)).symm,
      fun start => (TxStore.pageHom_toTxPages.scanFrom s₁ n (roots₁ i) start).symm,
      fun id b hr hb ht => (htree i).leaves hr hb ht⟩

end Transparent

namespace StaleCursor

/-- A file without pages. -/
def noPages : PageLog := ⟨List.replicate 16 0, [], rfl, by simp⟩

/-- Two insertions, the deletion of the first key, and one more insertion. -/
def ops : List (Unit × MapOp) :=
  [((), .insert [1] []), ((), .insert [2] []), ((), .delete [1]), ((), .insert [3] [])]

/-- The root after operations on an empty tree, its type, and what parsing it as a leaf gives. -/
def lastRoot {σ : Type} [NodeStore σ] (s : σ) : Result (ℕ × UInt8 × Result (List LeafCell)) := do
  let (roots, s) ← runTrees 8 ops s fun _ => NO_ROOT
  let b ← body s (roots ())
  .ok (roots (), nodeType b, parseLeaf (roots ()) b)

lemma lastRoot_stale : lastRoot (TxStore.new noPages)
    = .ok (3, TYPE_LEAF, .error (.corrupt 3 "claves de hoja desordenadas o vacías")) := by
  decide +kernel

lemma lastRoot_without : lastRoot (TxPages.new noPages)
    = .ok (3, TYPE_LEAF, .ok [⟨[2], .inline []⟩, ⟨[3], .inline []⟩]) := by
  decide +kernel

/-- After the deletion the cursor still points behind both cells: the third insertion leaves a gap
in the leaf, which is read as damaged. -/
theorem cursor_leaves_gap :
    ¬ CursorTransparent 8 ops (TxStore.new noPages) (fun _ => NO_ROOT) := by
  intro h
  obtain ⟨⟨roots, s⟩, hrun, hlast⟩ := bind_eq_ok.1 lastRoot_stale
  obtain ⟨b, hb, hlast⟩ := bind_eq_ok.1 hlast
  simp only [Except.ok.injEq, Prod.mk.injEq] at hlast
  obtain ⟨hroot, hleaf, hparse⟩ := hlast
  obtain ⟨⟨roots', s'⟩, hrun', -⟩ := bind_eq_ok.1 lastRoot_without
  have hsame := ((h ops (List.prefix_refl _)).2 roots s roots' s' hrun hrun') ()
  obtain ⟨cells, hcells, -⟩ := hsame.leaves (roots ()) b
    (.root (by rw [hroot]; decide)) hb hleaf
  rw [hparse] at hcells
  cases hcells

/-- After operations on an empty tree: the root, the cursor, the rightmost leaf and its end. -/
def lastLeaf (ops : List (Unit × MapOp)) :
    Result (ℕ × Option AppendCursor × ℕ × Bytes × ℕ) := do
  let (roots, s) ← runTrees 8 ops (TxStore.new noPages) fun _ => NO_ROOT
  let (leaf, b) ← rightmostLeaf s 8 (roots ())
  let (last, fin) ← leafEnd leaf b
  .ok (roots (), s.append_cursor, leaf, last.getD [], fin)

lemma lastLeaf_one : lastLeaf [((), .insert [1] [])] = .ok (3, none, 3, [1], 8) := by
  decide +kernel

lemma lastLeaf_two : lastLeaf [((), .insert [1] []), ((), .insert [2] [])]
    = .ok (3, some ⟨3, 3, 12, [2]⟩, 3, [2], 12) := by
  decide +kernel

/-- The theorem at a run whose third insertion goes by the cursor. -/
theorem cursor_transparent_append : CursorTransparent 8
    [((), .insert [1] []), ((), .insert [2] []), ((), .insert [3] [])] (TxStore.new noPages)
    (fun _ => NO_ROOT) := by
  refine cursor_transparent (TxStore.new noPages) (TxStore.valid_new (by decide))
    (fun _ => NO_ROOT) (fun _ => []) 0 ⟨fun _ => [], fun _ => Or.inl ⟨rfl, rfl, rfl⟩, by simp,
      by simp⟩ _ (by simp [MapOp.Ok, show MAX_KEY_LEN = 1024 from rfl]) 8 (by decide) ⟨?_, ?_⟩
  · rintro key value - cur hcur
    cases hcur
  rintro roots₁ s₁ hone
  refine ⟨?_, fun roots₂ s₂ htwo => ⟨?_, fun _ _ _ => trivial⟩⟩
  · rintro key value - cur hcur
    obtain ⟨⟨roots, s⟩, hrun, hrest⟩ := bind_eq_ok.1 lastLeaf_one
    simp only [runTrees, hone, ok_bind, Except.ok.injEq, Prod.mk.injEq] at hrun
    obtain ⟨rfl, rfl⟩ := hrun
    obtain ⟨⟨leaf, b⟩, hleaf, hrest⟩ := bind_eq_ok.1 hrest
    obtain ⟨⟨last, fin⟩, hend, hrest⟩ := bind_eq_ok.1 hrest
    simp only [Except.ok.injEq, Prod.mk.injEq] at hrest
    change s₁.append_cursor = _ at hcur
    rw [hrest.2.1] at hcur
    cases hcur
  · rintro key value - cur hcur hroot - - -
    obtain ⟨⟨roots, s⟩, hrun, hrest⟩ := bind_eq_ok.1 lastLeaf_two
    simp only [runTrees, hone, htwo, ok_bind, Except.ok.injEq, Prod.mk.injEq] at hrun
    obtain ⟨rfl, rfl⟩ := hrun
    obtain ⟨⟨leaf, b⟩, hleaf, hrest⟩ := bind_eq_ok.1 hrest
    obtain ⟨⟨last, fin⟩, hend, hrest⟩ := bind_eq_ok.1 hrest
    simp only [Except.ok.injEq, Prod.mk.injEq] at hrest
    obtain ⟨hroots, hcursor, rfl, hlast, rfl⟩ := hrest
    have hsome : last = some [2] := by
      cases last with
      | none => cases hlast
      | some last => rw [← hlast, Option.getD_some]
    change s₂.append_cursor = _ at hcur
    rw [hcursor] at hcur
    cases hcur
    rw [hroots] at hleaf
    rw [hsome] at hend
    exact ⟨by decide, b, hleaf, hend⟩

end StaleCursor

end Btree

end Arkeion
