import Arkeion.Lib.Pointers
import Arkeion.BtreeSpec

/-!
What the pages of a tree point to: a leaf to the chains of its values, an inner node to its
children, a page of a chain to the next one. A tree is walked along these pointers, and the
dirty pages met on the walk are those it owns.
-/

namespace Arkeion

open Arkeion.Lib

namespace Btree

open NodeSource NodeStore Node

/-- A pointer to a page; there is none to page 0. -/
def pointerTo (id : ℕ) : List ℕ := if id = NO_ROOT then [] else [id]

def payloadPointers : Payload → List ℕ
  | .inline _ => []
  | .overflow _ first => pointerTo first

/-- The pointers in a page, in the order in which it keeps them. -/
def pagePointers (id : ℕ) (b : Bytes) : List ℕ :=
  if nodeType b = TYPE_LEAF then
    match parseLeaf id b with
    | .ok cells => cells.flatMap fun c => payloadPointers c.payload
    | .error _ => []
  else if nodeType b = TYPE_INNER then
    match parseInner id b with
    | .ok (cells, rightmost) => cells.map InnerCell.child ++ [rightmost]
    | .error _ => []
  else
    match parseOverflow id b with
    | .ok (_, next) => pointerTo next
    | .error _ => []

/-- The pointers in a page of a store. -/
def pointers {σ : Type} [NodeSource σ] (s : σ) (id : ℕ) : List ℕ :=
  match body s id with
  | .ok b => pagePointers id b
  | .error _ => []

section Pages
variable {σ : Type} [NodeStore σ] {s : σ} {m n id : ℕ} {b : Bytes} {kvs : Entries} {F : List ℕ}

lemma pointers_eq (hb : body s id = .ok b) : pointers s id = pagePointers id b := by
  rw [pointers, hb]

lemma pagePointers_leaf {cells : List LeafCell} (h : IsLeaf cells b) :
    pagePointers id b = cells.flatMap fun c => payloadPointers c.payload := by
  obtain ⟨z, pfx, hshape⟩ := h
  rw [pagePointers, hshape.nodeType_eq, if_pos rfl, hshape.parseLeaf_eq]

lemma pagePointers_inner {cells : List InnerCell} {r : ℕ} (h : IsInner cells r b) :
    pagePointers id b = cells.map InnerCell.child ++ [r] := by
  rw [pagePointers, h.nodeType_eq, if_neg (by decide), if_pos rfl, h.parseInner_eq]

lemma pagePointers_overflow {chunk : Bytes} {next : ℕ} (h : IsOverflow chunk next b) :
    pagePointers id b = pointerTo next := by
  rw [pagePointers, h.nodeType_eq, if_neg (by decide), if_neg (by decide), h.parseOverflow_eq]

/-! ### Walks -/

/-- A walk from the pages meets pages that are all there, and of these the dirty ones are `F`. -/
def Spans (s : σ) (as F : List ℕ) : Prop :=
  ∃ W, Visits (pointers s) as W ∧ F = dirtyOf s W ∧ ∀ j ∈ W, ∃ b, body s j = .ok b

lemma Spans.nil : Spans s [] [] := ⟨[], .nil, rfl, by simp⟩

lemma Spans.append {as bs F₁ F₂ : List ℕ} (h₁ : Spans s as F₁) (h₂ : Spans s bs F₂) :
    Spans s (as ++ bs) (F₁ ++ F₂) := by
  obtain ⟨V, hV, rfl, hreadV⟩ := h₁
  obtain ⟨W, hW, rfl, hreadW⟩ := h₂
  refine ⟨V ++ W, hV.append hW, List.filter_append .. |>.symm, fun j hj => ?_⟩
  rcases List.mem_append.1 hj with hj | hj
  · exact hreadV j hj
  · exact hreadW j hj

/-- From a page on to what it points to. -/
lemma Spans.page (hb : body s id = .ok b) (h : Spans s (pagePointers id b) F) :
    Spans s [id] (ownPages s id ++ F) := by
  obtain ⟨W, hW, rfl, hread⟩ := h
  rw [← pointers_eq hb] at hW
  refine ⟨id :: W, hW.single, ?_, fun j hj => ?_⟩
  · rw [dirtyOf, dirtyOf, List.filter_cons, ownPages]
    split_ifs <;> rfl
  · rcases List.mem_cons.1 hj with rfl | hj
    · exact ⟨b, hb⟩
    · exact hread j hj

lemma Cat.spans {α : Type} {P : α → Entries → List ℕ → Prop} {as : List α} {ptrs : α → List ℕ}
    (h : Cat P as kvs F) (hP : ∀ a ∈ as, ∀ k G, P a k G → Spans s (ptrs a) G) :
    Spans s (as.flatMap ptrs) F := by
  induction as generalizing kvs F with
  | nil =>
    rw [h.2]
    exact .nil
  | cons a as ih =>
    obtain ⟨k₁, k₂, F₁, F₂, rfl, rfl, ha, hrest⟩ := h
    rw [List.flatMap_cons]
    exact (hP a (by simp) k₁ F₁ ha).append (ih hrest fun c hc => hP c (by simp [hc]))

lemma ChainHolds.spans {ids : List ℕ} {first : ℕ} {data : Bytes} (h : ChainHolds s ids first data) :
    Spans s (pointerTo first) (dirtyOf s ids) := by
  induction ids generalizing first data with
  | nil =>
    rw [h.1]
    exact .nil
  | cons i ids ih =>
    obtain ⟨rfl, hne, b, chunk, next, rest, hb, hov, -, hrest⟩ := h
    have hnext : Spans s (pagePointers first b) (dirtyOf s ids) := by
      rw [pagePointers_overflow hov]
      exact ih hrest
    have hpage := Spans.page hb hnext
    rw [pointerTo, if_neg hne, dirtyOf, List.filter_cons]
    rw [ownPages] at hpage
    split_ifs with hd
    · rwa [if_pos hd] at hpage
    · rwa [if_neg hd] at hpage

lemma CellHolds.spans {c : LeafCell} (h : CellHolds s m c kvs F) :
    Spans s (payloadPointers c.payload) F := by
  obtain ⟨v, -, -, hp⟩ := h
  cases hc : c.payload with
  | inline w =>
    rw [hc] at hp
    rw [hp.2]
    exact .nil
  | overflow total_len first =>
    rw [hc] at hp
    obtain ⟨-, ids, -, hchain, rfl⟩ := hp
    exact hchain.spans

lemma childRanges_ids (lo hi : Option Bytes) (cells : List InnerCell) (r : ℕ) :
    (childRanges lo hi cells r).flatMap (fun x => [x.2.2]) = cells.map InnerCell.child ++ [r] := by
  induction cells generalizing lo with
  | nil => rfl
  | cons c cells ih =>
    rw [childRanges, List.flatMap_cons, ih]
    rfl

/-- The pages a tree owns are the dirty ones a walk from its root meets. -/
lemma Holds.spans {x : Option Bytes × Option Bytes × ℕ} (h : Holds s m n x kvs F) :
    Spans s [x.2.2] F := by
  induction n generalizing x kvs F with
  | zero => exact absurd h (fun h => h)
  | succ n ih =>
    obtain ⟨lo, hi, id⟩ := x
    obtain ⟨-, -, b, F', hb, rfl, ⟨cells, hl⟩ | ⟨cells, r, hin⟩⟩ := h
    · refine Spans.page hb ?_
      rw [pagePointers_leaf hl.leaf]
      exact hl.cells.spans fun c _ k G hc => hc.spans
    · refine Spans.page hb ?_
      rw [pagePointers_inner hin.inner, ← childRanges_ids lo hi]
      exact hin.kids.spans fun x _ k G hx => ih hx

lemma TreeHolds.spans {root : ℕ} (h : TreeHolds s m n root kvs F) : Spans s (pointerTo root) F := by
  rcases h with ⟨rfl, -, rfl⟩ | h
  · exact .nil
  · have hspans := h.spans
    cases n with
    | zero => exact absurd h (fun h => h)
    | succ n => rwa [pointerTo, if_neg h.1]

end Pages

/-! ### Another store with the pages of a tree -/

section Agree
variable {σ τ : Type} [NodeStore σ] [NodeStore τ] {s : σ} {t : τ} {m n : ℕ} {kvs : Entries}
  {F W : List ℕ}

/-- The stores do not differ in the pages. -/
def AgreeOn (s : σ) (t : τ) (W : List ℕ) : Prop :=
  ∀ id ∈ W, body t id = body s id ∧ isDirty t id = isDirty s id

lemma AgreeOn.ownPages (h : AgreeOn s t W) {id : ℕ} (hid : id ∈ W) :
    ownPages t id = ownPages s id := by
  rw [Btree.ownPages, Btree.ownPages, (h id hid).2]

lemma AgreeOn.pointers (h : AgreeOn s t W) {id : ℕ} (hid : id ∈ W) :
    pointers t id = pointers s id := by
  rw [Btree.pointers, Btree.pointers, (h id hid).1]

/-- Pages with all that they point to. -/
def ClosedIn (s : σ) (W : List ℕ) : Prop := ∀ p ∈ W, ∀ q ∈ Btree.pointers s p, q ∈ W

lemma ClosedIn.page (h : ClosedIn s W) {id : ℕ} {b : Bytes} (hid : id ∈ W)
    (hb : body s id = .ok b) {q : ℕ} (hq : q ∈ pagePointers id b) : q ∈ W :=
  h id hid q (by rwa [pointers_eq hb])

lemma ChainHolds.agree (h : AgreeOn s t W) (hclosed : ClosedIn s W) {ids : List ℕ} {first : ℕ}
    {data : Bytes} (hc : ChainHolds s ids first data) (hfirst : ∀ q ∈ pointerTo first, q ∈ W) :
    ChainHolds t ids first data ∧ dirtyOf t ids = dirtyOf s ids := by
  induction ids generalizing first data with
  | nil => exact ⟨hc, rfl⟩
  | cons i ids ih =>
    obtain ⟨rfl, hne, b, chunk, next, rest, hb, hov, hdata, hrest⟩ := hc
    have hmem : first ∈ W := hfirst first (by rw [pointerTo, if_neg hne]; exact List.mem_singleton_self _)
    obtain ⟨hb', hd'⟩ := h first hmem
    obtain ⟨hchain, hdirty⟩ := ih hrest fun q hq =>
      hclosed.page hmem hb (by rwa [pagePointers_overflow hov])
    refine ⟨⟨rfl, hne, b, chunk, next, rest, hb'.trans hb, hov, hdata, hchain⟩, ?_⟩
    rw [dirtyOf, dirtyOf] at hdirty
    rw [dirtyOf, dirtyOf, List.filter_cons, List.filter_cons, hd', hdirty]

lemma CellHolds.agree (h : AgreeOn s t W) (hclosed : ClosedIn s W) {c : LeafCell}
    (hc : CellHolds s m c kvs F) (hptr : ∀ q ∈ payloadPointers c.payload, q ∈ W) :
    CellHolds t m c kvs F := by
  obtain ⟨v, hk, hsize, hp⟩ := hc
  refine ⟨v, hk, hsize, ?_⟩
  cases hcp : c.payload with
  | inline w => rwa [hcp] at hp
  | overflow total_len first =>
    rw [hcp] at hp hptr
    obtain ⟨hlen, ids, hids, hchain, rfl⟩ := hp
    obtain ⟨hchain', hdirty⟩ := hchain.agree h hclosed hptr
    exact ⟨hlen, ids, hids, hchain', hdirty.symm⟩

lemma mem_childRanges_id {lo hi : Option Bytes} {cells : List InnerCell} {r : ℕ}
    {x : Option Bytes × Option Bytes × ℕ} (hx : x ∈ childRanges lo hi cells r) :
    x.2.2 ∈ cells.map InnerCell.child ++ [r] := by
  rw [← childRanges_ids lo hi]
  exact List.mem_flatMap.2 ⟨x, hx, List.mem_singleton_self _⟩

/-- A tree is there, with the same pages, in every store that does not differ in them. -/
lemma Holds.agree (h : AgreeOn s t W) (hclosed : ClosedIn s W)
    {x : Option Bytes × Option Bytes × ℕ} (hx : Holds s m n x kvs F) (hid : x.2.2 ∈ W) :
    Holds t m n x kvs F := by
  induction n generalizing x kvs F with
  | zero => exact absurd hx (fun h => h)
  | succ n ih =>
    obtain ⟨lo, hi, id⟩ := x
    obtain ⟨hne, hlt, b, F', hb, rfl, ⟨cells, hl⟩ | ⟨cells, r, hin⟩⟩ := hx
    · rw [← h.ownPages hid]
      refine holds_leaf hne hlt ((h id hid).1.trans hb) ⟨hl.leaf, hl.ne_nil, hl.range, ?_⟩
      refine hl.cells.imp fun c hc k G _ hcell => hcell.agree h hclosed fun q hq =>
        hclosed.page hid hb ?_
      rw [pagePointers_leaf hl.leaf]
      exact List.mem_flatMap.2 ⟨c, hc, hq⟩
    · rw [← h.ownPages hid]
      refine holds_inner hne hlt ((h id hid).1.trans hb) ⟨hin.inner, hin.inside, ?_⟩
      refine hin.kids.imp fun y hy k G _ hy' => ih hy' (hclosed.page hid hb ?_)
      rw [pagePointers_inner hin.inner]
      exact mem_childRanges_id hy

lemma TreeHolds.agree (h : AgreeOn s t W) (hclosed : ClosedIn s W) {root : ℕ}
    (ht : TreeHolds s m n root kvs F) (hroot : ∀ q ∈ pointerTo root, q ∈ W) :
    TreeHolds t m n root kvs F := by
  rcases ht with hempty | ht
  · exact Or.inl hempty
  · cases n with
    | zero => exact absurd ht (fun h => h)
    | succ n =>
      refine Or.inr (ht.agree h hclosed (hroot root ?_))
      rw [pointerTo, if_neg ht.1]
      exact List.mem_singleton_self _

end Agree

end Btree

end Arkeion
