import Arkeion.BtreeDiff
import Arkeion.CursorSpec
import Arkeion.TxStore

/-!
What an insertion remembers is right: the cursor it leaves behind fits. So only a deletion can
make a cursor stale, and while keys are put in without one no insertion is misled.
-/

namespace Arkeion

open Arkeion.Lib

namespace Btree

open NodeSource NodeStore Node LawfulNodeStore

/-! ### The right edge of a tree -/

section Edge
variable {σ : Type} [NodeStore σ] {s s' : σ} {m n : ℕ} {lo hi : Option Bytes} {kvs : Entries}
  {F : List ℕ}

omit [NodeStore σ] in
lemma rightmostLeaf_mono [NodeSource σ] {k k' id : ℕ} {r : ℕ × Bytes} (hk : k ≤ k')
    (h : rightmostLeaf s k id = .ok r) : rightmostLeaf s k' id = .ok r := by
  induction k generalizing k' id with
  | zero => cases h
  | succ k ih =>
    obtain ⟨k', rfl⟩ : ∃ j, k' = j + 1 := ⟨k' - 1, by omega⟩
    obtain ⟨b, hb, h⟩ := bind_eq_ok.1 h
    rw [rightmostLeaf, hb, ok_bind]
    split_ifs at h ⊢ with hinner
    · exact ih (by omega) h
    · exact h

omit [NodeStore σ] in
/-- One step down the right edge. -/
lemma rightmostLeaf_inner [NodeSource σ] {k id r : ℕ} {b : Bytes} {cells : List InnerCell}
    (hb : body s id = .ok b) (hi : IsInner cells r b) :
    rightmostLeaf s (k + 1) id = rightmostLeaf s k r := by
  rw [rightmostLeaf, hb, ok_bind, hi.nodeType_eq, if_pos rfl, hi.innerRightmost_eq]

/-- The last of the children. -/
lemma cat_childRanges_last {P : Option Bytes × Option Bytes × ℕ → Entries → List ℕ → Prop}
    {cells : List InnerCell} {r : ℕ} (h : Cat P (childRanges lo hi cells r) kvs F) :
    ∃ k G, G ⊆ F ∧ k <:+ kvs ∧ P (lastKey lo cells, hi, r) k G := by
  have hranges := childRanges_append lo hi cells [] r
  rw [List.append_nil] at hranges
  obtain ⟨k₁, k₂, F₁, F₂, rfl, rfl, -, hlast⟩ := cat_append.1 (hranges ▸ h)
  exact ⟨k₂, F₂, List.subset_append_right .., List.suffix_append .., cat_singleton.1 hlast⟩

/-- The right edge of a tree whose pages were not changed. -/
lemma Holds.rightmostLeaf_frame [LawfulNodeStore σ] {G G' : List ℕ} (hf : Frame s s' G G')
    {id : ℕ} (h : Holds s m n (lo, hi, id) kvs F) (hd : ∀ j ∈ F, j ∉ G) (k : ℕ) :
    rightmostLeaf s' k id = rightmostLeaf s k id := by
  induction n generalizing lo hi id kvs F k with
  | zero => exact absurd h (fun h => h)
  | succ n ih =>
    cases k with
    | zero => rfl
    | succ k =>
      obtain ⟨-, -, b, F', hb, rfl, ⟨cells, hl⟩ | ⟨cells, r, hin⟩⟩ := h
      · obtain ⟨hb', -⟩ := ownPages_frame hf hb fun j hj => hd j (List.mem_append_left _ hj)
        obtain ⟨z, pfx, hshape⟩ := hl.leaf
        have hneq : ¬ TYPE_LEAF = TYPE_INNER := by decide
        simp only [rightmostLeaf, hb, hb', ok_bind, hshape.nodeType_eq, if_neg hneq]
      · obtain ⟨hb', -⟩ := ownPages_frame hf hb fun j hj => hd j (List.mem_append_left _ hj)
        obtain ⟨kl, G₂, hsub, -, hlast⟩ := cat_childRanges_last hin.kids
        rw [rightmostLeaf_inner hb hin.inner, rightmostLeaf_inner hb' hin.inner]
        exact ih hlast (fun j hj => hd j (List.mem_append_right _ (hsub hj))) k

/-- The rightmost leaf is a page of the tree. -/
lemma Holds.rightmostLeaf_mem {id k leaf : ℕ} {b : Bytes} (h : Holds s m n (lo, hi, id) kvs F)
    (hr : rightmostLeaf s k id = .ok (leaf, b)) (hd : isDirty s leaf = true) : leaf ∈ F := by
  induction n generalizing lo hi id kvs F k with
  | zero => exact absurd h (fun h => h)
  | succ n ih =>
    cases k with
    | zero => cases hr
    | succ k =>
      obtain ⟨-, -, b', F', hb, rfl, ⟨cells, hl⟩ | ⟨cells, r, hin⟩⟩ := h
      · obtain ⟨z, pfx, hshape⟩ := hl.leaf
        have hneq : ¬ TYPE_LEAF = TYPE_INNER := by decide
        simp only [rightmostLeaf, hb, ok_bind, hshape.nodeType_eq, if_neg hneq, Except.ok.injEq,
          Prod.mk.injEq] at hr
        obtain ⟨rfl, -⟩ := hr
        simp [ownPages, hd]
      · obtain ⟨kl, G, hsub, -, hlast⟩ := cat_childRanges_last hin.kids
        rw [rightmostLeaf_inner hb hin.inner] at hr
        exact List.mem_append_right _ (hsub (ih hlast hr))

/-- The last key of the rightmost leaf is the last key of the tree. -/
lemma Holds.le_last {id k leaf fin : ℕ} {b last : Bytes} (h : Holds s m n (lo, hi, id) kvs F)
    (hr : rightmostLeaf s k id = .ok (leaf, b)) (he : leafEnd leaf b = .ok (some last, fin)) :
    (∃ p ∈ kvs, p.1 = last) ∧ ∀ p ∈ kvs, p.1 ≤ last := by
  induction n generalizing lo hi id kvs F k with
  | zero => exact absurd h (fun h => h)
  | succ n ih =>
    have hsorted := h.ordered.sorted
    cases k with
    | zero => cases hr
    | succ k =>
      obtain ⟨-, -, b', F', hb, rfl, ⟨cells, hl⟩ | ⟨cells, r, hin⟩⟩ := h
      · obtain ⟨z, pfx, hshape⟩ := hl.leaf
        have hneq : ¬ TYPE_LEAF = TYPE_INNER := by decide
        simp only [rightmostLeaf, hb, ok_bind, hshape.nodeType_eq, if_neg hneq, Except.ok.injEq,
          Prod.mk.injEq] at hr
        obtain ⟨rfl, rfl⟩ := hr
        rw [hshape.leafEnd_eq] at he
        simp only [Except.ok.injEq, Prod.mk.injEq, Option.map_eq_some_iff] at he
        obtain ⟨⟨l, hlast, rfl⟩, -⟩ := he
        have hkeys := cat_cells_keys hl.cells
        refine ⟨?_, fun p hp => ?_⟩
        · have hmem : l.key ∈ kvs.map Prod.fst :=
            hkeys ▸ List.mem_map_of_mem (List.mem_of_getLast? hlast)
          exact List.mem_map.1 hmem
        · have hmem : p.1 ∈ cells.map LeafCell.key := hkeys ▸ List.mem_map_of_mem hp
          obtain ⟨c, hc, hcp⟩ := List.mem_map.1 hmem
          exact hcp ▸ hshape.le_getLast hlast hc
      · obtain ⟨kl, G, -, ⟨k₁, rfl⟩, hlast⟩ := cat_childRanges_last hin.kids
        rw [rightmostLeaf_inner hb hin.inner] at hr
        obtain ⟨⟨q, hq, hql⟩, hle⟩ := ih hlast hr
        refine ⟨⟨q, List.mem_append_right _ hq, hql⟩, fun p hp => ?_⟩
        rcases List.mem_append.1 hp with hp | hp
        · exact hql ▸ ((sortedMap_append.1 hsorted).2.2 p hp q hq).le
        · exact hle p hp

lemma Holds.ne_nil {x : Option Bytes × Option Bytes × ℕ} (h : Holds s m n x kvs F) :
    kvs ≠ [] := by
  induction n generalizing x kvs F with
  | zero => exact absurd h (fun h => h)
  | succ n ih =>
    obtain ⟨lo, hi, id⟩ := x
    obtain ⟨-, -, b, F', -, rfl, ⟨cells, hl⟩ | ⟨cells, r, hin⟩⟩ := h
    · rintro rfl
      have hkeys := cat_cells_keys hl.cells
      exact hl.ne_nil (by simpa using hkeys.symm)
    · obtain ⟨k, G, -, hsuf, hlast⟩ := cat_childRanges_last hin.kids
      rintro rfl
      exact ih hlast (List.suffix_nil.1 hsuf)

/-- One page is not a node in two ranges, one below the other. -/
lemma Holds.one_range {m' n' id : ℕ} {lo' hi' : Option Bytes} {kvs' : Entries} {F' : List ℕ}
    (h : Holds s m n (lo, hi, id) kvs F) (h' : Holds s m' n' (lo', hi', id) kvs' F') {k : Bytes}
    (hk : k ∈ hi) (hk' : ∃ l ∈ lo', k ≤ l) : False := by
  have hopen : TreeHolds s m n id kvs F := Or.inr (h.widen (by simp [LowerLe]) (by simp [UpperLe]))
  have hopen' : TreeHolds s m' n' id kvs' F' :=
    Or.inr (h'.widen (by simp [LowerLe]) (by simp [UpperLe]))
  obtain rfl := hopen.unique hopen'
  obtain ⟨p, hp⟩ := List.exists_mem_of_ne_nil kvs h.ne_nil
  obtain ⟨l, hl, hle⟩ := hk'
  exact absurd ((h.ordered.range p hp).2 k hk) (not_lt.2 (hle.trans ((h'.ordered.range p hp).1 l hl)))

/-- The child under the key is the page of the rightmost one only if it is the rightmost one. -/
lemma Around.post_nil {cells pre post : List InnerCell} {r : ℕ} {key : Bytes} {kc k₂ : Entries}
    {Fc F₂ : List ℕ} (ha : Around cells key pre post)
    (hs : (cells.map InnerCell.key).Pairwise (· < ·))
    (hchild : Holds s m n (lastKey lo pre, headUp hi post, headChild r post) kc Fc)
    (h₂ : Cat (Holds s m n) (tailRanges hi r post) k₂ F₂) (hr : headChild r post = r) :
    post = [] := by
  cases post with
  | nil => rfl
  | cons c cs =>
    exfalso
    obtain ⟨k, G, -, -, hlast⟩ := cat_childRanges_last h₂
    rw [hr] at hchild
    refine hchild.one_range hlast rfl ?_
    rcases List.eq_nil_or_concat' cs with rfl | ⟨ds, d, rfl⟩
    · exact ⟨c.key, rfl, le_rfl⟩
    · refine ⟨d.key, by rw [lastKey_snoc]; rfl, ?_⟩
      rw [ha.eq, List.map_append, List.pairwise_append, List.map_cons, List.pairwise_cons] at hs
      exact (hs.2.1.1 _ (List.mem_map_of_mem (by simp))).le

end Edge

/-! ### The tail of an insertion -/

section Tail
variable {σ : Type} [NodeStore σ] {s s' : σ} {m n : ℕ} {lo hi : Option Bytes} {kvs : Entries}
  {F : List ℕ} {key v : Bytes} {payload : Payload}

/-- The node at the right edge of what an insertion gives. -/
def rightPiece (out : InsertOutcome) : ℕ := (out.split.map Prod.snd).getD out.id

/-- The tail is the rightmost leaf under the node, dirty, and with the key as the last one. -/
def TailFits (k : ℕ) (s : σ) (key : Bytes) (id : ℕ) (t : Tail) : Prop :=
  t.last_key = key ∧ isDirty s t.leaf = true ∧ ∃ b, rightmostLeaf s k id = .ok (t.leaf, b) ∧
    leafEnd t.leaf b = .ok (some key, t.fin)

lemma splitLeaf_tail {id : ℕ} {cells : List LeafCell} {appended : Bool}
    {r : InsertOutcome × σ} (h : splitLeaf s id cells appended = .ok r) : r.1.tail = none := by
  obtain ⟨sep, -, h⟩ := bind_eq_ok.1 h
  obtain ⟨w, -, h⟩ := bind_eq_ok.1 h
  cases h
  rfl

variable [LawfulNodeStore σ]

/-- A leaf is remembered when the key was appended to it. -/
lemma insertLeaf_tail (hv : Valid s) {id : ℕ} {b : Bytes} (hne : id ≠ NO_ROOT)
    (hlt : id < 2 ^ 64) (hb : body s id = .ok b) {cells : List LeafCell} (hl : IsLeaf cells b)
    (hc : CellSized ⟨key, payload⟩) {k : ℕ} {r : InsertOutcome × σ}
    (hrun : insertLeaf k s id key payload = .ok r) {t : Tail} (ht : r.1.tail = some t) :
    TailFits (n + 1) r.2 key (rightPiece r.1) t := by
  rw [insertLeaf] at hrun
  rcases makeDirty_cases hv hb hne hlt with ⟨e, he, -⟩ | ⟨id', s₁, he, hown, hf₁⟩
  · rw [he] at hrun
    cases hrun
  · obtain ⟨z, pfx, hshape⟩ := hl
    simp only [he, ok_bind, bodyMut_eq hf₁.valid hown.body_eq hown.dirty] at hrun
    rcases hshape.leafAppend_cases id' hc with hnone | ⟨b', happ, hshape', -⟩
    · simp only [hnone, ok_bind] at hrun
      obtain ⟨b₂, -, hrun⟩ := bind_eq_ok.1 hrun
      obtain ⟨cells₂, -, hrun⟩ := bind_eq_ok.1 hrun
      obtain ⟨p, -, hrun⟩ := bind_eq_ok.1 hrun
      obtain ⟨q, -, hrun⟩ := bind_eq_ok.1 hrun
      split_ifs at hrun
      · cases hrun
        cases ht
      · rw [splitLeaf_tail hrun] at ht
        cases ht
    · simp only [happ, ok_bind, Except.ok.injEq] at hrun
      subst hrun
      cases ht
      have hneq : ¬ TYPE_LEAF = TYPE_INNER := by decide
      obtain ⟨hown', -⟩ := hown.setBody hf₁.valid hshape'.layout.length
      refine ⟨rfl, hown'.dirty, b', ?_, ?_⟩
      · change rightmostLeaf _ (n + 1) id' = _
        simp only [rightmostLeaf, hown'.body_eq, ok_bind, hshape'.nodeType_eq, if_neg hneq]
      · rw [hshape'.leafEnd_eq]
        simp

/-- An inner node written again: the tail is kept, only its own page is changed, and its
rightmost child, or that of its right half, is the one given. -/
lemma insertInner_edge (hv : Valid s) {id : ℕ} {b : Bytes} (hne : id ≠ NO_ROOT)
    (hlt : id < 2 ^ 64) (hb : body s id = .ok b) {cells : List InnerCell} {r cid : ℕ}
    {split : Option (Bytes × ℕ)} (hi' : IsInner cells r b)
    (h : KidsOk s m n lo hi (placeChild cells r key cid split).1
      (placeChild cells r key cid split).2 kvs F)
    (hd : ∀ j ∈ F, j ∉ ownPages s id) (tail : Option Tail) :
    Outcome (Refused σ) (insertInner s id key cid split tail) fun o => o.1.tail = tail ∧
      (∃ G, Frame s o.2 (ownPages s id) G) ∧ ∃ b' cells', body o.2 (rightPiece o.1) = .ok b' ∧
        IsInner cells' (placeChild cells r key cid split).2 b' := by
  rw [insertInner]
  simp only [hb, ok_bind, hi'.parseInner_eq]
  rcases makeDirty_cases hv hb hne hlt with ⟨e, he, hrefused⟩ | ⟨id', s₁, he, hown, hf₁⟩
  · rw [he]
    exact Or.inl hrefused
  · simp only [he, ok_bind]
    have h₁ := h.frame hf₁ hd
    rcases encodeInto_cases hf₁.valid hown (fun b' hb' => h₁.length_encoded hb') with
      ⟨hfull, henc⟩ | ⟨b', s₂, hfit, henc, hown₂, hf₂⟩
    · simp only [henc, ok_bind, Bool.false_eq_true, if_false]
      generalize placeChild cells r key cid split = placed at h₁ hfull ⊢
      have hcells : placed.1 ≠ [] := by
        intro hnil
        simp [hnil, encodeInner, BODY_SIZE_eq, INNER_HDR] at hfull
      have hsp := splitPoint_lt innerCellSize hcells
      rw [splitInner]
      set sp := splitPoint innerCellSize placed.1
      have hsplit : placed.1 = placed.1.take sp ++ placed.1[sp] :: placed.1.drop (sp + 1) := by
        rw [List.getElem_cons_drop, List.take_append_drop]
      obtain ⟨-, -, k₁, k₂, F₁, F₂, -, -, hl, hr⟩ := (hsplit ▸ h₁ : KidsOk s₁ m n lo hi
        (placed.1.take sp ++ placed.1[sp] :: placed.1.drop (sp + 1)) placed.2 kvs F).split
      simp only [List.getElem?_eq_getElem hsp, okOr_some, ok_bind]
      refine (writeHalves_outcome hf₁.valid hown (fun b' hb' => hr.length_encoded hb')
        (fun b' hb' => hl.length_encoded hb')).bind ?_
      rintro ⟨right, s₂⟩ - ⟨br, bl, hbr, -, hownr, -, -, hf₂⟩
      exact ⟨rfl, ⟨_, hf₁.trans hf₂⟩, br, _, hownr.body_eq, hr.isInner hbr⟩
    · simp only [henc, ok_bind, if_true]
      exact ⟨rfl, ⟨_, hf₁.trans hf₂⟩, b', _, hown₂.body_eq, h₁.isInner hfit⟩

omit [LawfulNodeStore σ] in
/-- The right edge of the pieces is in the tree. -/
lemma holds_rightPiece {l h : Option Bytes} {out : InsertOutcome}
    (hp : Cat (Holds s m n) (pieces l h out.id out.split) kvs F) :
    ∃ l' k G, G ⊆ F ∧ Holds s m n (l', h, rightPiece out) k G := by
  rw [rightPiece]
  cases hsplit : out.split with
  | none =>
    rw [hsplit] at hp
    exact ⟨l, kvs, F, List.Subset.refl F, cat_singleton.1 hp⟩
  | some x =>
    obtain ⟨sep, right⟩ := x
    rw [hsplit] at hp
    obtain ⟨k₁, k₂, F₁, F₂, -, rfl, -, h₂⟩ := cat_cons.1 hp
    exact ⟨some sep, k₂, F₂, List.subset_append_right .., cat_singleton.1 h₂⟩

/-- The tail of an insertion is the leaf at the right edge, on every level. -/
lemma insertRec_tail {k id : ℕ} (hv : Valid s) (h : Holds s m n (lo, hi, id) kvs F)
    {Fp : List ℕ} (hp : PayloadHolds s m payload v Fp) (hnodup : (F ++ Fp).Nodup)
    (hc : CellSized ⟨key, payload⟩) (hsize : leafCellSize ⟨key, payload⟩ ≤ MAX_INLINE_CELL)
    (hrange : InRange lo hi key) (hk : n + m ≤ k) {r : InsertOutcome × σ}
    (hrun : insertRec key payload k s id = .ok r) {t : Tail} (ht : r.1.tail = some t) :
    TailFits n r.2 key (rightPiece r.1) t := by
  induction n generalizing k lo hi id kvs F r with
  | zero => exact absurd h (fun h => h)
  | succ n ih =>
    obtain ⟨k, rfl⟩ : ∃ k', k = k' + 1 := ⟨k - 1, by omega⟩
    rw [insertRec] at hrun
    obtain ⟨hne, hlt, b, F', hb, rfl, ⟨cells, hl⟩ | ⟨cells, q, hi'⟩⟩ := h
    · obtain ⟨z, pfx, hshape⟩ := hl.leaf
      simp only [hb, ok_bind, hshape.nodeType_eq, if_true] at hrun
      exact insertLeaf_tail hv hne hlt hb hl.leaf hc hrun ht
    · obtain ⟨pre, post, ha⟩ := exists_around hi'.inner.sorted key
      obtain ⟨k₁, kc, k₂, F₁, Fc, F₂, rfl, rfl, h₁, hchild, h₂, hlt₁, hgt₂⟩ := hi'.around ha
      have hnodupc : (Fc ++ Fp).Nodup := by grind [List.nodup_append]
      have hneq : ¬ TYPE_INNER = TYPE_LEAF := by decide
      simp only [hb, ok_bind, hi'.inner.nodeType_eq, if_neg hneq, if_true,
        hi'.inner.innerChild_eq, ha.childAt_eq, hi'.inner.innerRightmost_eq] at hrun
      obtain ⟨⟨out, s₁⟩, hout, hrun⟩ := bind_eq_ok.1 hrun
      obtain ⟨F'', hf, hnd, hok, hpieces⟩ := (insertRec_outcome hv hchild hp hnodupc hc hsize
        (ha.inRange hrange) (show n + m ≤ k by omega)).of_ok hout
      dsimp only at hf hok hpieces hrun
      have howned : ∀ j ∈ ownPages s id ++ (F₁ ++ F₂), Owned s j := by
        intro j hj
        rcases List.mem_append.1 hj with hj | hj
        · exact owned_ownPages hb j hj
        · rcases List.mem_append.1 hj with hj | hj
          · exact h₁.forall_pages (fun _ _ _ _ hc => hc.owned) j hj
          · exact h₂.forall_pages (fun _ _ _ _ hc => hc.owned) j hj
      obtain ⟨-, hnd', hdisj⟩ := exchange_frame hnodup howned hf hnd
      obtain ⟨hb', hown'⟩ := ownPages_frame hf hb fun j hj => hdisj j (by simp [hj])
      -- the node keeps the tail, and leads to the right edge of what is under it
      generalize htl : (if headChild q post = q then out.tail else none) = tl at hrun
      have hnode : r.1.tail = tl ∧ (∃ G, Frame s₁ r.2 (ownPages s₁ id) G) ∧ ∃ b' cells' q',
          body r.2 (rightPiece r.1) = .ok b' ∧ IsInner cells' q' b' ∧
          (post = [] → q' = rightPiece out) := by
        split_ifs at hrun with hsame
        · simp only [Except.ok.injEq] at hrun
          subst hrun
          refine ⟨rfl, ⟨_, .refl hf.valid _⟩, b, cells, q, hb', hi'.inner, ?_⟩
          rintro rfl
          rw [rightPiece, hsame.1]
          exact hsame.2.symm
        · obtain ⟨hsz, hr, hs, hin⟩ := ha.placed_ok hi'.inner hi'.inside hok
          have hkids := cat_exchange h₁ h₂ hf
            (fun j hj => hdisj j (List.mem_append_right _ hj)) hpieces
          have hkids' : KidsOk s₁ m n lo hi (placeChild cells q key out.id out.split).1
              (placeChild cells q key out.id out.split).2 (k₁ ++ (insertKey key v kc ++ k₂))
              (F₁ ++ (F'' ++ F₂)) := by
            rw [ha.placeChild_eq]
            exact ⟨hsz, hr, hs, hin, by rw [childRanges_placed]; exact hkids⟩
          have hown : ∀ j ∈ F₁ ++ (F'' ++ F₂), j ∉ ownPages s₁ id := fun j hj hj' =>
            (List.nodup_append.1 hnd').2.2 j (hown' ▸ hj') j hj rfl
          obtain ⟨htail, hframe, b', cells', hb₂, hinner⟩ :=
            (insertInner_edge hf.valid hne hlt hb' hi'.inner hkids' hown tl).of_ok hrun
          refine ⟨htail, hframe, b', cells', _, hb₂, hinner, ?_⟩
          rintro rfl
          rw [ha.placeChild_eq]
          rfl
      obtain ⟨htail, ⟨G, hf₂⟩, b', cells', q', hb₂, hinner, hedge⟩ := hnode
      rw [htail, ← htl] at ht
      -- the tail was passed on only from the rightmost child
      split_ifs at ht with hright
      have hpost := ha.post_nil hi'.inner.sorted hchild h₂ hright
      obtain ⟨hkey, hdirty, b₂, hleaf, hend⟩ :=
        ih hchild hnodupc (ha.inRange hrange) (by omega) hout ht
      obtain ⟨l', kr, G', hsub, hpiece⟩ := holds_rightPiece hpieces
      have hapart : ∀ j ∈ G', j ∉ ownPages s₁ id := fun j hj hj' =>
        (List.nodup_append.1 hnd').2.2 j (hown' ▸ hj') j (by simp [hsub hj]) rfl
      refine ⟨hkey, ?_, b₂, ?_, hend⟩
      · have hkeep := hf₂.keep t.leaf b₂ (rightmostLeaf_body hleaf) fun _ =>
          hapart _ (hpiece.rightmostLeaf_mem hleaf hdirty)
        exact hkeep.2.trans hdirty
      · rw [rightmostLeaf_inner hb₂ hinner, hedge hpost, hpiece.rightmostLeaf_frame hf₂ hapart]
        exact hleaf

end Tail

/-! ### The cursor of a transaction -/

section Cursor
variable {s s' : TxStore} {m n k root root' : ℕ} {kvs : Entries} {F : List ℕ} {key value : Bytes}

lemma rightmostLeaf_congr (h : s'.toTxPages = s.toTxPages) (k id : ℕ) :
    rightmostLeaf s' k id = rightmostLeaf s k id := by
  have hbody (id : ℕ) : body s' id = body s id := by
    change NodeSource.body s'.toTxPages id = NodeSource.body s.toTxPages id
    rw [h]
  induction k generalizing id with
  | zero => rfl
  | succ k ih => simp only [rightmostLeaf, hbody, ih]

/-- The cursor, if there is one, fits. -/
def CursorSound (k : ℕ) (s : TxStore) : Prop := ∀ cur ∈ s.append_cursor, CursorFits k s cur

lemma CursorSound.insertFits (h : CursorSound k s) (root : ℕ) (key value : Bytes) :
    InsertFits k s root key value := by
  intro cur hcur _ _ _ _
  obtain ⟨hne, b, hright, hend⟩ := h cur hcur
  exact ⟨hne, b, (@rightmostLeaf_congr s (takeAppendCursor s).2 rfl k cur.root).trans hright, hend⟩

/-- The cursor after the way down to the leaf, if there is one, is on the key. -/
lemma insertDown_cursor (hv : Valid s) (h : TreeHolds s m n root kvs F) (hnodup : F.Nodup)
    (hpos : 0 < key.length) (hkey : key.length ≤ MAX_KEY_LEN) (hvalue : value.length < 2 ^ 64)
    (hk : n + 1 + max m value.length ≤ k) (hrun : insertDown k s root key value = .ok (root', s'))
    {cur : AppendCursor} (hcur : cur ∈ s'.append_cursor) :
    cur.root = root' ∧ cur.last_key = key ∧ isDirty s' cur.leaf = true ∧ CursorFits k s' cur := by
  rw [insertDown] at hrun
  obtain ⟨⟨payload, s₁⟩, hpay, hrun⟩ := bind_eq_ok.1 hrun
  obtain ⟨Fp, hp, hnodup₁, h₁, hf₁, hc, hsize⟩ :=
    (makePayload_above hv h hnodup hpos hkey hvalue).of_ok hpay
  dsimp only at hp h₁ hf₁ hrun
  split_ifs at hrun with hroot
  · obtain ⟨r₂, -, hrun⟩ := bind_eq_ok.1 hrun
    obtain ⟨r₃, -, hrun⟩ := bind_eq_ok.1 hrun
    obtain ⟨-, -, hrun⟩ := bind_eq_ok.1 hrun
    cases hrun
    cases hcur
  · have h₀ : Holds s₁ (max m value.length) n (none, none, root) kvs F := by
      rcases h₁ with ⟨hnone, -, -⟩ | h₁
      · exact absurd hnone hroot
      · exact h₁
    have hrange : InRange none none key := ⟨by simp, by simp⟩
    obtain ⟨⟨out, s₂⟩, hout, hrun⟩ := bind_eq_ok.1 hrun
    obtain ⟨F', hf₂, hnd₂, hok, hpieces⟩ := (insertRec_outcome hf₁.valid h₀ hp hnodup₁ hc hsize
      hrange (show n + max m value.length ≤ k by omega)).of_ok hout
    obtain ⟨l, kr, G, hsub, hpiece⟩ := holds_rightPiece hpieces
    have htail {t : Tail} (ht : out.tail = some t) : TailFits n s₂ key (rightPiece out) t :=
      insertRec_tail hf₁.valid h₀ hp hnodup₁ hc hsize hrange (by omega) hout ht
    dsimp only at hf₂ hok hpieces hrun
    cases hsplit : out.split with
    | none =>
      rw [hsplit] at hrun
      cases hrun
      obtain ⟨t, ht, rfl⟩ := Option.map_eq_some_iff.1 hcur
      obtain ⟨rfl, hdirty, b, hright, hend⟩ := htail ht
      have hid : rightPiece out = out.id := by rw [rightPiece, hsplit]; rfl
      rw [hid] at hright hpiece
      refine ⟨rfl, rfl, hdirty, ?_, b, ?_, hend⟩
      · cases n with
        | zero => exact absurd hpiece (fun h => h)
        | succ n => exact hpiece.1
      · have hsame := @rightmostLeaf_congr s₂ (setAppendCursor s₂ (out.tail.map fun t =>
          ⟨out.id, t.leaf, t.fin, t.last_key⟩)) rfl k out.id
        exact hsame.trans (rightmostLeaf_mono (by omega) hright)
    | some x =>
      obtain ⟨sep, right⟩ := x
      rw [hsplit] at hrun hpieces hok
      rcases alloc_cases hf₂.valid with ⟨e, he, -⟩ | ⟨id, s₃, b₀, he, hown, hf₃⟩
      · simp only [he] at hrun
        cases hrun
      · have hcell : InnerCell.Sized ⟨sep, out.id⟩ :=
          ⟨hok.key_pos _ rfl, hok.key_le _ rfl, hok.cid_lt⟩
        have hinner (b : Bytes) (hb : encodeInner [⟨sep, out.id⟩] right BODY_SIZE = some b) :
            IsInner [⟨sep, out.id⟩] right b :=
          isInner_of_encodeInner (by simpa using hcell) (hok.right_lt _ rfl) (by simp) hb
        rcases encodeInto_cases hf₃.valid hown (fun b hb => (hinner b hb).layout.length) with
          ⟨-, henc⟩ | ⟨b', s₄, hfit, henc, hown₄, hf₄⟩
        · simp only [he, ok_bind, henc] at hrun
          cases hrun
        · simp only [he, ok_bind, henc, require_pos] at hrun
          obtain ⟨rfl, rfl⟩ := Prod.mk.inj (Except.ok.inj hrun)
          obtain ⟨t, ht, rfl⟩ := Option.map_eq_some_iff.1 hcur
          obtain ⟨rfl, hdirty, b, hright, hend⟩ := htail ht
          have hid : rightPiece out = right := by rw [rightPiece, hsplit]; rfl
          rw [hid] at hright hpiece
          have hf : Frame s₂ s₄ [] [id] := hf₃.trans hf₄
          have hkeep := hf.keep t.leaf b (rightmostLeaf_body hright) (by simp)
          refine ⟨rfl, rfl, hkeep.2.trans hdirty, hown₄.ne_root, b, ?_, hend⟩
          have hsame := @rightmostLeaf_congr s₄ (setAppendCursor s₄ (out.tail.map fun t =>
            ⟨id, t.leaf, t.fin, t.last_key⟩)) rfl k id
          refine hsame.trans (@rightmostLeaf_mono _ s₄ _ (n + 1) k id _ (by omega) ?_)
          rw [rightmostLeaf_inner hown₄.body_eq (hinner b' hfit),
            hpiece.rightmostLeaf_frame hf (by simp), hright]

end Cursor

end Btree

end Arkeion
