import Arkeion.NodeSpec
import Mathlib.Algebra.Order.BigOperators.Group.List

/-!
Inner nodes and overflow pages: the bodies that hold given cells or data, and what reading
finds in them.
-/

namespace Arkeion

open Arkeion.Lib

namespace Node

/-- A separator is a key as the tree takes it. -/
structure InnerCell.Sized (c : InnerCell) : Prop where
  key_pos : 0 < c.key.length
  key_le : c.key.length ≤ MAX_KEY_LEN
  child_lt : c.child < 2 ^ 64

/-- The body holds the cells and the rightmost child; the separators are not empty, but may be
longer than the keys of the tree. -/
structure InnerBody (cells : List InnerCell) (rightmost : ℕ) (body : Bytes) : Prop where
  layout : NodeLayout (innerHeader cells.length rightmost) (cells.map encodeInnerCell) body
  keyed : ∀ c ∈ cells, c.key ≠ []
  child_lt : ∀ c ∈ cells, c.child < 2 ^ 64
  rightmost_lt : rightmost < 2 ^ 64
  sorted : (cells.map InnerCell.key).Pairwise (· < ·)

/-- The body is an inner node with the cells and the rightmost child. -/
structure IsInner (cells : List InnerCell) (rightmost : ℕ) (body : Bytes) : Prop
    extends InnerBody cells rightmost body where
  sized : ∀ c ∈ cells, InnerCell.Sized c

namespace InnerBody

variable {cells : List InnerCell} {rightmost : ℕ} {body : Bytes} (page : ℕ)

lemma count_lt (h : InnerBody cells rightmost body) : cells.length < 2 ^ 16 := by
  have hroom := h.layout.room
  rw [List.length_map, BODY_SIZE_eq] at hroom
  omega

lemma body_eq (h : InnerBody cells rightmost body) : ∃ rest,
    body = [TYPE_INNER, 0] ++ leBytes 2 cells.length ++ (leBytes 8 rightmost ++ rest) := by
  obtain ⟨gap, hgap⟩ := h.layout.eq
  exact ⟨_, by rw [hgap, innerHeader]; simp only [List.append_assoc]; rfl⟩

lemma nodeType_eq (h : InnerBody cells rightmost body) : nodeType body = TYPE_INNER := by
  obtain ⟨rest, hrest⟩ := h.body_eq
  rw [hrest]
  rfl

lemma innerNcells_eq (h : InnerBody cells rightmost body) : innerNcells body = cells.length := by
  obtain ⟨rest, hrest⟩ := h.body_eq
  rw [hrest, innerNcells, u16At_header h.count_lt]

lemma innerRightmost_eq (h : InnerBody cells rightmost body) : innerRightmost body = rightmost := by
  obtain ⟨rest, hrest⟩ := h.body_eq
  have hlt : rightmost < 256 ^ 8 := h.rightmost_lt
  rw [innerRightmost, hrest, ← List.append_assoc, sub_append _ _ _ (by simp) (by simp),
    leNat_leBytes 8 hlt]

lemma length_header (n rightmost : ℕ) : (innerHeader n rightmost).length = INNER_HDR := by
  simp [innerHeader, INNER_HDR]

/-- The position of a cell. -/
def cellPos (cells : List InnerCell) (i : ℕ) : ℕ :=
  INNER_HDR + ((cells.take i).map encodeInnerCell).flatten.length

lemma cellPtr_eq (h : InnerBody cells rightmost body) {i : ℕ} (hi : i < cells.length) :
    cellPtr body i = .ok (cellPos cells i) := by
  rw [h.layout.cellPtr_eq (by simpa using hi), cellPos, List.map_take, length_header]

/-- The key and the child of a cell. -/
lemma innerKeyAt_eq (h : InnerBody cells rightmost body) {i : ℕ} {c : InnerCell}
    (hc : cells[i]? = some c) : ∃ pos,
      innerKeyAt page body (cellPos cells i) = .ok (c.key, pos) ∧
      getU64 page body pos = .ok (c.child, cellPos cells (i + 1)) := by
  obtain ⟨z, hz⟩ := h.layout.split (i := i) (c := encodeInnerCell c) (by simp [hc])
  set x := innerHeader cells.length rightmost ++ ((cells.map encodeInnerCell).take i).flatten
    with hx
  have hpos : cellPos cells i = x.length := by
    rw [hx, List.length_append, length_header, cellPos, List.map_take]
  have hlen : (x ++ encodeInnerCell c ++ z).length = BODY_SIZE := by rw [← hz, h.layout.length]
  rw [BODY_SIZE_eq] at hlen
  have hk : c.key.length < 2 ^ 64 := by
    simp only [encodeInnerCell, List.length_append] at hlen
    omega
  have hlt : (x ++ encodeInnerCell c ++ z).length < 2 ^ 64 := by omega
  have hkey := innerKeyAt_at page (c := c) hpos hk hlt
  have hchild := getU64_innerCell page hpos (h.child_lt c (List.mem_of_getElem? hc)) hlt
  rw [← hz] at hkey hchild
  refine ⟨_, hkey, hchild.trans ?_⟩
  congr 2
  obtain ⟨hi, rfl⟩ := List.getElem?_eq_some_iff.1 hc
  rw [cellPos, cellPos, List.take_add_one, List.getElem?_eq_getElem hi, Option.toList_some,
    List.map_append, List.flatten_append, List.length_append]
  simp [Nat.add_assoc]

lemma parseInnerCells_eq (h : InnerBody cells rightmost body) (pre rest : List InnerCell)
    (hcells : cells = pre ++ rest) :
    parseInnerCells page body rest.length (cellPos cells pre.length)
      (pre.getLast?.map InnerCell.key) = .ok rest := by
  induction rest generalizing pre with
  | nil => rfl
  | cons c rest ih =>
    have hget : cells[pre.length]? = some c := by simp [hcells]
    obtain ⟨pos, hkey, hchild⟩ := h.innerKeyAt_eq page hget
    have hlast : ∀ p ∈ pre.getLast?.map InnerCell.key, p < c.key := by
      intro p hp
      obtain ⟨l, hl, rfl⟩ := Option.map_eq_some_iff.1 (Option.mem_def.1 hp)
      have hs := h.sorted
      rw [hcells, List.map_append, List.pairwise_append] at hs
      exact hs.2.2 _ (List.mem_map_of_mem (List.mem_of_getLast? hl)) _ (by simp)
    have hne := h.keyed c (List.mem_of_getElem? hget)
    have hrest := ih (pre ++ [c]) (by simp [hcells])
    simp only [List.length_append, List.length_singleton, List.getLast?_append,
      List.getLast?_singleton, Option.some_or, Option.map_some] at hrest
    have hreq : require (c.key ≠ [] ∧ ∀ p ∈ pre.getLast?.map InnerCell.key, p < c.key)
        (.corrupt page "separadores desordenados o vacíos") = .ok () := require_pos ⟨hne, hlast⟩
    simp only [List.length_cons, parseInnerCells, hkey, ok_bind, hreq, hchild, hrest]

lemma parseInner_eq (h : InnerBody cells rightmost body) :
    parseInner page body = .ok (cells, rightmost) := by
  have hparse := h.parseInnerCells_eq page [] cells rfl
  rw [parseInner, require_pos h.nodeType_eq, ok_bind, h.innerNcells_eq, h.innerRightmost_eq]
  simp only [List.length_nil, cellPos, List.take_zero, List.map_nil, List.flatten_nil,
    List.getLast?_nil, Option.map_none, Nat.add_zero] at hparse
  rw [hparse, ok_bind]

lemma innerChildValueAt_eq (h : InnerBody cells rightmost body) (idx : ℕ) :
    innerChildValueAt page body idx = .ok (childAt cells rightmost idx) := by
  rw [innerChildValueAt, h.innerNcells_eq, childAt]
  split_ifs with hi
  · obtain ⟨pos, hkey, hchild⟩ := h.innerKeyAt_eq page (List.getElem?_eq_getElem hi)
    simp only [h.cellPtr_eq hi, ok_bind, hkey, hchild, List.getElem?_eq_getElem hi,
      Option.map_some, Option.getD_some]
  · rw [List.getElem?_eq_none (by omega), h.innerRightmost_eq]
    rfl

/-- The child a search for the key goes on in. -/
lemma innerChildIndexed_eq (h : InnerBody cells rightmost body) (key : Bytes) :
    innerChildIndexed page body key
      = .ok (childAt cells rightmost (childIndex cells key), childIndex cells key) := by
  have hanti : cells.Pairwise fun a b => decide (b.key ≤ key) = true → decide (a.key ≤ key) = true := by
    refine (List.pairwise_map.1 h.sorted).imp fun {a b} hab hb => ?_
    rw [decide_eq_true_eq] at hb ⊢
    exact hab.le.trans hb
  have hsearch : lowerBound (innerKeyLe page body key) cells.length 0 cells.length
      = .ok (childIndex cells key) := by
    refine lowerBound_list hanti fun i c hi => ?_
    obtain ⟨pos, hkey, -⟩ := h.innerKeyAt_eq page hi
    simp only [innerKeyLe, h.cellPtr_eq (List.getElem?_eq_some_iff.1 hi).1, ok_bind, hkey]
  simp only [innerChildIndexed, require_pos h.nodeType_eq, ok_bind, h.innerNcells_eq]
  rw [hsearch, ok_bind, h.innerChildValueAt_eq, ok_bind]

lemma innerChild_eq (h : InnerBody cells rightmost body) (key : Bytes) :
    innerChild page body key = .ok (childAt cells rightmost (childIndex cells key)) := by
  rw [innerChild, h.innerChildIndexed_eq, ok_bind]

end InnerBody

section Encode
variable {cells : List InnerCell} {rightmost : ℕ} {body : Bytes}

lemma length_encodeInnerCell {c : InnerCell} (h : c.key.length < 2 ^ 64) :
    (encodeInnerCell c).length = innerCellSize c := by
  simp [encodeInnerCell, innerCellSize, length_putVarint h, Nat.add_assoc]

lemma length_encodeInnerCells (h : ∀ c ∈ cells, c.key.length < 2 ^ 64) :
    (cells.map encodeInnerCell).flatten.length = (cells.map innerCellSize).sum := by
  rw [List.length_flatten, List.map_map]
  exact congrArg List.sum (List.map_congr_left fun c hc => length_encodeInnerCell (h c hc))

/-- Cells whose sizes fit into a body are laid out within it. -/
lemma innerFits (hfit : INNER_HDR + (cells.map innerCellSize).sum + 2 * cells.length ≤ BODY_SIZE) :
    (innerHeader cells.length rightmost).length + (cells.map encodeInnerCell).flatten.length
      + 2 * (cells.map encodeInnerCell).length ≤ BODY_SIZE := by
  have hlen (c : InnerCell) (hc : c ∈ cells) : c.key.length < 2 ^ 64 := by
    have hle : innerCellSize c ≤ (cells.map innerCellSize).sum :=
      List.single_le_sum (fun _ _ => Nat.zero_le _) _ (List.mem_map_of_mem hc)
    rw [innerCellSize] at hle
    rw [BODY_SIZE_eq] at hfit
    omega
  rw [length_encodeInnerCells hlen, List.length_map, InnerBody.length_header]
  omega

lemma innerBody_of_encodeInner (hkey : ∀ c ∈ cells, c.key ≠ [])
    (hchild : ∀ c ∈ cells, c.child < 2 ^ 64) (hr : rightmost < 2 ^ 64)
    (hs : (cells.map InnerCell.key).Pairwise (· < ·))
    (h : encodeInner cells rightmost BODY_SIZE = some body) : InnerBody cells rightmost body := by
  simp only [encodeInner] at h
  split_ifs at h with hfit
  cases h
  exact ⟨layNode_layout (innerFits (by omega)), hkey, hchild, hr, hs⟩

lemma length_encodeInner (h : encodeInner cells rightmost BODY_SIZE = some body) :
    body.length = BODY_SIZE := by
  simp only [encodeInner] at h
  split_ifs at h with hfit
  cases h
  exact length_layNode (innerFits (by omega))

lemma isInner_of_encodeInner (hsz : ∀ c ∈ cells, InnerCell.Sized c) (hr : rightmost < 2 ^ 64)
    (hs : (cells.map InnerCell.key).Pairwise (· < ·))
    (h : encodeInner cells rightmost BODY_SIZE = some body) : IsInner cells rightmost body :=
  ⟨innerBody_of_encodeInner (fun c hc => List.length_pos_iff.1 (hsz c hc).key_pos)
    (fun c hc => (hsz c hc).child_lt) hr hs h, hsz⟩

/-- A root with one cell always fits. -/
lemma encodeInner_single {c : InnerCell} (h : InnerCell.Sized c) :
    ∃ body, encodeInner [c] rightmost BODY_SIZE = some body := by
  have hk := h.key_le
  rw [show MAX_KEY_LEN = 1024 from rfl] at hk
  have hv : varintLen c.key.length ≤ 2 := varintLen_le (n := 1) (by omega)
  have hfit : ¬ INNER_HDR + ([c].map innerCellSize).sum + 2 * [c].length > BODY_SIZE := by
    rw [BODY_SIZE_eq, show INNER_HDR = 12 from rfl]
    simp [innerCellSize]
    omega
  exact ⟨_, if_neg hfit⟩

end Encode

/-! ### Overflow pages -/

/-- The body is an overflow page with the data, before the page `next`. -/
structure IsOverflow (chunk : Bytes) (next : ℕ) (body : Bytes) : Prop where
  eq : ∃ rest, body = [TYPE_OVERFLOW, 0] ++ leBytes 2 chunk.length ++ leBytes 8 next ++ chunk ++ rest
  length_le : chunk.length ≤ OVERFLOW_DATA
  next_lt : next < 2 ^ 64

section Overflow
variable {chunk body : Bytes} {next : ℕ} (page : ℕ)

lemma isOverflow_encodeOverflow (hc : chunk.length ≤ OVERFLOW_DATA) (hn : next < 2 ^ 64) :
    IsOverflow chunk next (encodeOverflow chunk next BODY_SIZE) :=
  ⟨⟨_, rfl⟩, hc, hn⟩

lemma length_encodeOverflow (hc : chunk.length ≤ OVERFLOW_DATA) :
    (encodeOverflow chunk next BODY_SIZE).length = BODY_SIZE := by
  rw [OVERFLOW_DATA] at hc
  simp only [encodeOverflow, List.length_append, length_leBytes, List.length_replicate,
    List.length_cons, List.length_nil]
  rw [BODY_SIZE_eq, show OVERFLOW_HDR = 12 from rfl] at *
  omega

lemma IsOverflow.nodeType_eq (h : IsOverflow chunk next body) : nodeType body = TYPE_OVERFLOW := by
  obtain ⟨rest, hrest⟩ := h.eq
  rw [hrest]
  rfl

lemma IsOverflow.parseOverflow_eq (h : IsOverflow chunk next body) :
    parseOverflow page body = .ok (chunk, next) := by
  obtain ⟨rest, hrest⟩ := h.eq
  have hle := h.length_le
  rw [OVERFLOW_DATA, BODY_SIZE_eq] at hle
  have hlen : u16At body 2 = chunk.length := by
    have : body = [TYPE_OVERFLOW, 0] ++ leBytes 2 chunk.length ++ (leBytes 8 next ++ chunk ++ rest) := by
      rw [hrest]
      simp only [List.append_assoc]
    rw [this, u16At_header (by omega)]
  have hnext : leNat (sub body 4 8) = next := by
    have hlt : next < 256 ^ 8 := h.next_lt
    rw [hrest, List.append_assoc, sub_append _ _ _ (by simp) (by simp), leNat_leBytes 8 hlt]
  rw [parseOverflow, require_pos h.nodeType_eq, ok_bind, hlen, hnext]
  rw [hrest, slice?_append _ _ _ (by simp [OVERFLOW_HDR]) rfl]
  rfl

end Overflow

end Node

end Arkeion
