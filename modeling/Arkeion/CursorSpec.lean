import Arkeion.BtreeInsert
import Arkeion.StoreHom

/-!
When the remembered end of a leaf is still its end, appending there is what the way down from
the root would do.
-/

namespace Arkeion

open Arkeion.Lib

namespace Btree

open NodeSource NodeStore Node LawfulNodeStore LeafShape

/-! ### What a cursor should describe -/

section Defs
variable {σ : Type}

/-- The leaf at the end of the rightmost children. -/
def rightmostLeaf [NodeSource σ] (s : σ) : ℕ → ℕ → Result (ℕ × Bytes)
  | 0, _ => .error .outOfFuel
  | n + 1, id => do
    let b ← body s id
    if nodeType b = TYPE_INNER then rightmostLeaf s n (innerRightmost b) else .ok (id, b)

/-- The cursor describes the rightmost leaf of its tree as it is. -/
def CursorFits [NodeSource σ] (n : ℕ) (s : σ) (cur : AppendCursor) : Prop :=
  cur.root ≠ NO_ROOT ∧ ∃ b, rightmostLeaf s n cur.root = .ok (cur.leaf, b) ∧
    leafEnd cur.leaf b = .ok (some cur.last_key, cur.fin)

/-- Where an insertion goes by the cursor, the cursor fits. -/
def InsertFits [NodeStore σ] (n : ℕ) (s : σ) (root : ℕ) (key value : Bytes) : Prop :=
  ∀ cur, (takeAppendCursor s).1 = some cur → cur.root = root → cur.last_key < key →
    isDirty (takeAppendCursor s).2 cur.leaf = true →
    inlineCellSize key value.length ≤ MAX_INLINE_CELL → CursorFits n (takeAppendCursor s).2 cur

end Defs

/-! ### Down the right edge -/

section Edge
variable {σ : Type} [NodeStore σ] {s : σ} {m n : ℕ} {lo hi : Option Bytes} {kvs : Entries}
  {F : List ℕ}

omit [NodeStore σ] in
lemma rightmostLeaf_body [NodeSource σ] {k id leaf : ℕ} {b : Bytes}
    (h : rightmostLeaf s k id = .ok (leaf, b)) : body s leaf = .ok b := by
  induction k generalizing id with
  | zero => cases h
  | succ k ih =>
    obtain ⟨b', hb, h⟩ := bind_eq_ok.1 h
    split_ifs at h
    · exact ih h
    · cases h
      exact hb

/-- The way down for a key behind all others ends in the rightmost leaf. If it can be appended
there, nothing else changes. -/
lemma insertRec_edge [LawfulNodeStore σ] (hv : Valid s) {k id : ℕ}
    (h : Holds s m n (lo, hi, id) kvs F) (hk : n ≤ k) :
    ∃ leaf b z pfx cells, rightmostLeaf s k id = .ok (leaf, b) ∧ LeafShape z pfx cells b ∧
      cells ≠ [] ∧ (∀ c ∈ cells, ∀ l ∈ lo, l ≤ c.key) ∧
      ∀ key payload b' fin', (∀ c ∈ cells, c.key < key) → isDirty s leaf = true →
        leafAppend leaf b key payload = .ok (some (b', fin')) →
        insertRec key payload k s id
          = .ok (⟨id, none, some ⟨leaf, fin', key⟩⟩, setBody s leaf b') := by
  induction n generalizing k lo hi id kvs F with
  | zero => exact absurd h (fun h => h)
  | succ n ih =>
    obtain ⟨k, rfl⟩ : ∃ k', k = k' + 1 := ⟨k - 1, by omega⟩
    obtain ⟨-, -, b, F', hb, rfl, ⟨cells, hl⟩ | ⟨cells, r, hi'⟩⟩ := h
    · obtain ⟨z, pfx, hshape⟩ := hl.leaf
      have hneq : ¬ TYPE_LEAF = TYPE_INNER := by decide
      refine ⟨id, b, z, pfx, cells, ?_, hshape, hl.ne_nil, fun c hc => (hl.range c hc).1,
        fun key payload b' fin' hlast hdirty happ => ?_⟩
      · simp only [rightmostLeaf, hb, ok_bind, hshape.nodeType_eq, if_neg hneq]
      · simp only [insertRec, hb, ok_bind, hshape.nodeType_eq, if_true, insertLeaf,
          makeDirty_dirty hv hb hdirty, bodyMut_eq hv hb hdirty, happ]
    · have hneq : ¬ TYPE_INNER = TYPE_LEAF := by decide
      have hranges := childRanges_append lo hi cells [] r
      rw [List.append_nil] at hranges
      obtain ⟨k₁, k₂, F₁, F₂, rfl, rfl, -, hlast⟩ := cat_append.1 (hranges ▸ hi'.kids)
      obtain ⟨leaf, b₂, z, pfx, lcells, hright, hshape, hne, hlo, hins⟩ :=
        ih (k := k) (cat_singleton.1 hlast) (by omega)
      have hkeys : ∀ c ∈ cells, ∀ d ∈ lcells, c.key ≤ d.key := by
        rcases List.eq_nil_or_concat' cells with rfl | ⟨qs, q, rfl⟩
        · simp
        · intro c hc d hd
          have hq := hlo d hd q.key (by rw [lastKey_snoc]; rfl)
          have hs := hi'.inner.sorted
          rw [List.map_append, List.pairwise_append] at hs
          rcases List.mem_append.1 hc with hc | hc
          · exact (hs.2.2 _ (List.mem_map_of_mem hc) q.key (by simp)).le.trans hq
          · rw [List.mem_singleton.1 hc]
            exact hq
      refine ⟨leaf, b₂, z, pfx, lcells, ?_, hshape, hne, fun d hd l hl => ?_,
        fun key payload b' fin' hkey hdirty happ => ?_⟩
      · simp only [rightmostLeaf, hb, ok_bind, hi'.inner.nodeType_eq, if_true,
          hi'.inner.innerRightmost_eq, hright]
      · cases cells with
        | nil => exact hlo d hd l hl
        | cons c cells =>
          exact ((hi'.inside c (by simp)).1 l hl).le.trans (hkeys c (by simp) d hd)
      · obtain ⟨d, hd⟩ := List.exists_mem_of_ne_nil lcells hne
        have hidx : childIndex cells key = cells.length := by
          have hall := partitionPoint_append (p := fun c : InnerCell => decide (c.key ≤ key))
            (l := cells) (r := []) (fun c hc => decide_eq_true
              ((hkeys c hc d hd).trans (hkey d hd).le)) (by simp)
          rwa [List.append_nil] at hall
        have hchild : childAt cells r (childIndex cells key) = r := by
          rw [hidx, childAt, List.getElem?_length]
          rfl
        simp only [insertRec, hb, ok_bind, hi'.inner.nodeType_eq, if_neg hneq, if_true,
          hi'.inner.innerChild_eq, hchild, hins key payload b' fin' hkey hdirty happ,
          hi'.inner.innerRightmost_eq, and_self]

/-- An insertion by a cursor that fits is the insertion from the root. -/
lemma insert_eq_down [LawfulNodeStore σ] [CursorApart σ] (hv : Valid s) {k root : ℕ}
    (h : TreeHolds s m n root kvs F) (hk : n ≤ k) {key value : Bytes} (hpos : 0 < key.length)
    (hkey : key.length ≤ MAX_KEY_LEN) (hvalue : value.length < 2 ^ 64)
    (hfits : InsertFits k s root key value) :
    insert k s root key value = insertDown k (takeAppendCursor s).2 root key value := by
  have hne : key ≠ [] := List.length_pos_iff.1 hpos
  have hframe := CursorApart.take hv
  rw [insert, require_pos ⟨hne, hkey⟩, ok_bind]
  generalize htake : takeAppendCursor s = t at hfits hframe ⊢
  obtain ⟨c, s₀⟩ := t
  dsimp only at hfits hframe ⊢
  cases c with
  | none => simp only [appendAtCursor, ok_bind]
  | some cur =>
    rw [appendAtCursor]
    split_ifs with hcur
    · obtain ⟨hroot, hlt, hdirty, hsize⟩ := hcur
      rw [InsertFits, htake] at hfits
      obtain ⟨hnoroot, b, hright, hend⟩ := hfits cur rfl hroot hlt hdirty hsize
      have h₀ : Holds s₀ m n (none, none, root) kvs F := by
        rcases h.frame hframe (by simp) with ⟨hnone, -, -⟩ | h
        · exact absurd (hroot.trans hnone) hnoroot
        · exact h
      obtain ⟨leaf, b', z, pfx, cells, hright', hshape, hcells, -, hins⟩ :=
        insertRec_edge hframe.valid h₀ hk
      dsimp only at hright hend hdirty
      rw [hroot, hright'] at hright
      cases hright
      rw [hshape.leafEnd_eq] at hend
      simp only [Except.ok.injEq, Prod.mk.injEq, Option.map_eq_some_iff] at hend
      obtain ⟨⟨l, hl, hlk⟩, hfin⟩ := hend
      have hbody := bodyMut_eq hframe.valid (rightmostLeaf_body hright') hdirty
      have hall : ∀ c ∈ cells, c.key < key := fun c hc =>
        (hshape.le_getLast hl hc).trans_lt (hlk ▸ hlt)
      simp only [hbody, ok_bind, ← hfin]
      rcases hshape.appendInlineAt_cases value hall with
        happ | ⟨-, r, happ, hleaf⟩
      · simp only [happ, ok_bind]
      · simp only [happ, ok_bind]
        have hnr : root ≠ NO_ROOT := hroot ▸ hnoroot
        have hpay : makePayload s₀ key value = .ok (.inline value, s₀) := if_pos hsize
        simp only [insertDown, hpay, ok_bind, if_neg hnr,
          hins key (.inline value) r.1 r.2 hall hdirty (hleaf _), Option.map_some]
        rw [← hroot]
    · simp only [ok_bind]

end Edge

end Btree

end Arkeion
