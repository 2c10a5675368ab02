import Arkeion.BtreeInsert

/-!
Pages as the engine writes them: encoded, and leaves then appended to in place. They are parsed
to the cells that were written, and what is looked up in them is what a search of these cells
finds.
-/

namespace Arkeion

open Arkeion.Lib

namespace Node

open Btree LeafShape

/-! ### Leaves that are appended to -/

/-- A leaf and the end of its cells. -/
structure OpenLeaf where
  body : Bytes
  fin : ℕ

inductive AppendOp where
  | append (c : LeafCell)
  | appendAt (key value : Bytes)

namespace AppendOp

def cell : AppendOp → LeafCell
  | append c => c
  | appendAt key value => ⟨key, .inline value⟩

/-- The call is made of bytes with a key, at the end of the cells with a key behind theirs. -/
def Legal (cells : List LeafCell) : AppendOp → Prop
  | append c => c.key ≠ [] ∧ PayloadSized c.payload
  | appendAt key _ => key ≠ [] ∧ ∀ d ∈ cells, d.key < key

end AppendOp

/-- The leaf behind a call, and whether the cell was accepted. What is refused writes nothing. -/
def OpenLeaf.step (page : ℕ) (st : OpenLeaf) (op : AppendOp) : Result (OpenLeaf × Bool) := do
  let done ← match op with
    | .append c => leafAppend page st.body c.key c.payload
    | .appendAt key value => appendInlineAt st.body st.fin key value
  match done with
  | some (body, fin) => .ok (⟨body, fin⟩, true)
  | none => .ok (st, false)

/-- The leaves with their cells: one that was encoded, and what appending makes of one. -/
inductive Written (page : ℕ) : List LeafCell → OpenLeaf → Prop
  | encoded {cells : List LeafCell} {last : Option Bytes} {st : OpenLeaf}
      (keyed : ∀ c ∈ cells, c.key ≠ []) (sized : ∀ c ∈ cells, PayloadSized c.payload)
      (sorted : (cells.map LeafCell.key).Pairwise (· < ·))
      (enc : encodeLeaf cells BODY_SIZE = some st.body)
      (ends : leafEnd page st.body = .ok (last, st.fin)) : Written page cells st
  | step {cells : List LeafCell} {st st' : OpenLeaf} {op : AppendOp} {accepted : Bool}
      (h : Written page cells st) (legal : op.Legal cells)
      (run : st.step page op = .ok (st', accepted)) :
      Written page (if accepted then cells ++ [op.cell] else cells) st'

section Leaf
variable {page : ℕ} {cells : List LeafCell} {st : OpenLeaf} {z : Bool} {pfx : Bytes}

/-- A call on a leaf is refused, or it adds the cell as the last one. -/
lemma LeafBody.step_cases (h : LeafBody z pfx cells st.body) (hfin : st.fin = fin z pfx cells)
    {op : AppendOp} (hop : op.Legal cells) : st.step page op = .ok (st, false) ∨
      ∃ st', st.step page op = .ok (st', true) ∧ LeafBody z pfx (cells ++ [op.cell]) st'.body ∧
        st'.fin = fin z pfx (cells ++ [op.cell]) := by
  cases op with
  | append c =>
    rcases h.leafAppend_body page hop.1 hop.2 with hnone | ⟨body, happ, hbody, -⟩
    · exact Or.inl (by simp [OpenLeaf.step, hnone])
    · exact Or.inr ⟨⟨body, fin z pfx (cells ++ [c])⟩, by simp [OpenLeaf.step, happ], hbody, rfl⟩
  | appendAt key value =>
    rcases h.appendInlineAt_cases value hop.2 with hnone | ⟨hv, r, happ, hleaf⟩
    · exact Or.inl (by simp [OpenLeaf.step, hfin, hnone])
    · have hp : PayloadSized (⟨key, .inline value⟩ : LeafCell).payload := hv
      rcases h.leafAppend_body page hop.1 hp with hnone | ⟨body, happ', hbody, -⟩
      · cases (hleaf page).symm.trans hnone
      · have hr := (hleaf page).symm.trans happ'
        rw [Except.ok.injEq, Option.some.injEq] at hr
        rw [hr] at happ
        refine Or.inr ⟨⟨body, fin z pfx (cells ++ [AppendOp.cell (.appendAt key value)])⟩, ?_,
          hbody, rfl⟩
        simp only [OpenLeaf.step, hfin, happ, ok_bind]
        rfl

lemma Written.body (h : Written page cells st) :
    ∃ z pfx, LeafBody z pfx cells st.body ∧ st.fin = fin z pfx cells := by
  induction h with
  | encoded keyed sized sorted enc ends =>
    obtain ⟨z, pfx, hbody, -⟩ := leafBody_of_encodeLeaf keyed sized sorted enc
    refine ⟨z, pfx, hbody, ?_⟩
    rw [hbody.leafEnd_eq, Except.ok.injEq, Prod.mk.injEq] at ends
    exact ends.2.symm
  | step h legal run ih =>
    obtain ⟨z, pfx, hbody, hfin⟩ := ih
    rcases hbody.step_cases hfin legal with hno | ⟨st', hyes, hbody', hfin'⟩
    · cases hno.symm.trans run
      exact ⟨z, pfx, hbody, hfin⟩
    · cases hyes.symm.trans run
      exact ⟨z, pfx, hbody', hfin'⟩

lemma exists_written {body : Bytes} (keyed : ∀ c ∈ cells, c.key ≠ [])
    (sized : ∀ c ∈ cells, PayloadSized c.payload) (sorted : (cells.map LeafCell.key).Pairwise (· < ·))
    (enc : encodeLeaf cells BODY_SIZE = some body) : ∃ fin, Written page cells ⟨body, fin⟩ := by
  obtain ⟨z, pfx, hbody, -⟩ := leafBody_of_encodeLeaf keyed sized sorted enc
  exact ⟨fin z pfx cells, .encoded keyed sized sorted enc (hbody.leafEnd_eq page)⟩

/-- Every leaf is parsed to its cells, also through the pointers. A further call never fails; it
leaves the leaf as it is, or adds its cell behind the others. -/
theorem written_parses (h : Written page cells st) :
    parseLeaf page st.body = .ok cells ∧
    (∀ i c, cells[i]? = some c → leafCellAt page st.body i = .ok (c.key, c.payload)) ∧
    ∀ op : AppendOp, op.Legal cells → ∃ st' accepted, st.step page op = .ok (st', accepted) ∧
      (accepted = false → st' = st) ∧
      (accepted = true → parseLeaf page st'.body = .ok (cells ++ [op.cell])) := by
  obtain ⟨z, pfx, hbody, hfin⟩ := h.body
  refine ⟨hbody.parseLeaf_eq page, fun i c hc => hbody.leafCellAt_eq page hc, fun op hop => ?_⟩
  rcases hbody.step_cases hfin hop with hno | ⟨st', hyes, hbody', -⟩
  · exact ⟨st, false, hno, fun _ => rfl, nofun⟩
  · exact ⟨st', true, hyes, nofun, fun _ => hbody'.parseLeaf_eq page⟩

/-- The theorem at a leaf of one cell, and a call on it. -/
theorem written_parses_one : ∃ st, Written 3 [⟨[7], .inline [1, 2]⟩] st ∧
    parseLeaf 3 st.body = .ok [⟨[7], .inline [1, 2]⟩] ∧
    ∃ st' accepted, st.step 3 (.appendAt [8] [3]) = .ok (st', accepted) := by
  have hcell : leafCellSize ⟨[7], .inline [1, 2]⟩ ≤ MAX_INLINE_CELL := by decide
  obtain ⟨body, henc⟩ := encodeLeaf_single hcell
  obtain ⟨fin, hw⟩ : ∃ fin, Written 3 [⟨[7], .inline [1, 2]⟩] ⟨body, fin⟩ :=
    exists_written (by simp) (by simp [PayloadSized]) (by simp) henc
  obtain ⟨hparse, -, hstep⟩ := written_parses hw
  have hlt : ([7] : Bytes) < [8] := by decide
  obtain ⟨st', accepted, hrun, -⟩ := hstep (.appendAt [8] [3]) ⟨by simp, by simpa using hlt⟩
  exact ⟨_, hw, hparse, st', accepted, hrun⟩

/-! ### Searches -/

/-- The payload a binary search of the cells finds. -/
def foundPayload (cells : List LeafCell) (key : Bytes) : Option Payload :=
  (binarySearch cells key).toOption.bind fun i => cells[i]?.map LeafCell.payload

/-- The index a binary search ends at, be the key there or not. -/
def searchIndex (cells : List LeafCell) (key : Bytes) : ℕ :=
  match binarySearch cells key with
  | .ok i => i
  | .error i => i

/-- Searches in a page of a leaf are those of the cells. -/
structure LeafAgrees (page : ℕ) (cells : List LeafCell) (body : Bytes) : Prop where
  parsed : parseLeaf page body = .ok cells
  find : ∀ key, leafFind page body key = .ok (foundPayload cells key)
  contains : ∀ key, leafContains page body key = .ok (binarySearch cells key).isOk
  lowerBound : ∀ key, leafLowerBound page body key = .ok (searchIndex cells key)
  cellAt : ∀ i c, cells[i]? = some c → leafCellAt page body i = .ok (c.key, c.payload)
  viewInto : ∀ i c, cells[i]? = some c → leafCellViewInto page body i = .ok (c.key, c.payload)
  view : leafIsCompressed body = false → ∀ i c, cells[i]? = some c →
    leafCellView page body i = .ok (c.key, c.payload)

/-- Searches in a page of an inner node are those of the cells. -/
structure InnerAgrees (page : ℕ) (cells : List InnerCell) (rightmost : ℕ) (body : Bytes) : Prop where
  parsed : parseInner page body = .ok (cells, rightmost)
  child : ∀ key, innerChild page body key
    = .ok (childAt cells rightmost (partitionPoint (fun c => decide (c.key ≤ key)) cells))
  indexed : ∀ key, innerChildIndexed page body key
    = .ok (childAt cells rightmost (partitionPoint (fun c => decide (c.key ≤ key)) cells),
      partitionPoint (fun c => decide (c.key ≤ key)) cells)

/-- What a binary search finds is the value of the key. -/
lemma search_eq (hs : (cells.map LeafCell.key).Pairwise (· < ·)) (key : Bytes) :
    foundPayload cells key = valueOf key (cells.map fun c => (c.key, c.payload)) ∧
    (binarySearch cells key).isOk = (foundPayload cells key).isSome ∧
    searchIndex cells key = partitionPoint (fun c => decide (c.key < key)) cells := by
  obtain ⟨pre, post, rfl, hpre, hcase⟩ := binarySearch_cases hs key
  have hbefore : ∀ p ∈ pre.map fun c => (c.key, c.payload), p.1 < key := by
    simpa using hpre
  have hpoint (hpost : ∀ d ∈ post.head?, key ≤ d.key) :
      partitionPoint (fun c : LeafCell => decide (c.key < key)) (pre ++ post) = pre.length :=
    partitionPoint_append (fun d hd => decide_eq_true (hpre d hd))
      fun d hd => decide_eq_false (not_lt.2 (hpost d hd))
  rcases hcase with ⟨c, rest, rfl, rfl, hrest, hsearch⟩ | ⟨hpost, hsearch⟩
  · have hbehind : ∀ p ∈ rest.map fun c => (c.key, c.payload), c.key < p.1 := by
      simpa using hrest
    have hfound : foundPayload (pre ++ c :: rest) c.key = some c.payload := by
      simp only [foundPayload, hsearch, Except.toOption, Option.bind_some,
        List.getElem?_append_right le_rfl, Nat.sub_self, List.getElem?_cons_zero, Option.map_some]
    refine ⟨?_, by rw [hfound, hsearch]; rfl, ?_⟩
    · rw [hfound, List.map_append, List.map_cons]
      exact ((valueOf_middle (c := [(c.key, c.payload)]) hbefore hbehind).trans
        valueOf_singleton).symm
    · rw [searchIndex, hsearch]
      exact (hpoint (by simp)).symm
  · have hnone : foundPayload (pre ++ post) key = none := by rw [foundPayload, hsearch]; rfl
    refine ⟨?_, by rw [hnone, hsearch]; rfl, ?_⟩
    · rw [hnone, valueOf_eq_none]
      intro p hp
      obtain ⟨d, hd, rfl⟩ := List.mem_map.1 hp
      rcases List.mem_append.1 hd with hd | hd
      · exact (hpre d hd).ne
      · exact (hpost d hd).ne'
    · rw [searchIndex, hsearch]
      exact (hpoint fun d hd => (hpost d (List.mem_of_head? hd)).le).symm

lemma LeafBody.leafCellView_eq (h : LeafBody z pfx cells st.body)
    (hplain : leafIsCompressed st.body = false) {i : ℕ} {c : LeafCell} (hc : cells[i]? = some c) :
    leafCellView page st.body i = .ok (c.key, c.payload) := by
  obtain ⟨pos, hkey, hpayload⟩ := h.leafKeyAt_eq page hc
  rw [h.leafIsCompressed_eq] at hplain
  subst hplain
  have hnil := h.plain rfl
  subst hnil
  simp only [leafCellView, h.cellPtr_eq (List.getElem?_eq_some_iff.1 hc).1, ok_bind, hkey, hpayload,
    List.length_nil, List.drop_zero]

lemma Written.agrees (h : Written page cells st) : LeafAgrees page cells st.body := by
  obtain ⟨z, pfx, hbody, -⟩ := h.body
  refine ⟨hbody.parseLeaf_eq page, fun key => ?_, fun key => ?_, fun key => ?_,
    fun i c hc => hbody.leafCellAt_eq page hc, fun i c hc => hbody.leafCellAt_eq page hc,
    fun hplain i c hc => hbody.leafCellView_eq hplain hc⟩
  · rw [hbody.leafFind_eq, (search_eq hbody.sorted key).1]
  · rw [hbody.leafContains_eq, (search_eq hbody.sorted key).2.1, (search_eq hbody.sorted key).1]
  · rw [hbody.leafLowerBound_eq, (search_eq hbody.sorted key).2.2]

end Leaf

section Inner
variable {page rightmost : ℕ} {cells : List InnerCell} {body : Bytes}

lemma InnerBody.agrees (h : InnerBody cells rightmost body) :
    InnerAgrees page cells rightmost body where
  parsed := h.parseInner_eq page
  child := h.innerChild_eq page
  indexed := h.innerChildIndexed_eq page

end Inner

section Search
variable {page rightmost : ℕ} {cells : List LeafCell} {st : OpenLeaf} {inner : List InnerCell}
  {body : Bytes}

/-- Searches that look only at the bytes they need find what searches of the parsed cells find: in
every leaf that was encoded and appended to, and in every inner node that was encoded. -/
theorem search_agrees (hleaf : Written page cells st) (keyed : ∀ c ∈ inner, c.key ≠ [])
    (children : ∀ c ∈ inner, c.child < 2 ^ 64) (hr : rightmost < 2 ^ 64)
    (sorted : (inner.map InnerCell.key).Pairwise (· < ·))
    (enc : encodeInner inner rightmost BODY_SIZE = some body) :
    LeafAgrees page cells st.body ∧ InnerAgrees page inner rightmost body :=
  ⟨hleaf.agrees, (innerBody_of_encodeInner keyed children hr sorted enc).agrees⟩

/-- The theorem at a leaf and an inner node of one cell. -/
theorem search_agrees_one : ∃ st body, Written 3 [⟨[7], .inline [1, 2]⟩] st ∧
    encodeInner [⟨[7], 5⟩] 6 BODY_SIZE = some body ∧
    LeafAgrees 3 [⟨[7], .inline [1, 2]⟩] st.body ∧ InnerAgrees 3 [⟨[7], 5⟩] 6 body := by
  have hcell : leafCellSize ⟨[7], .inline [1, 2]⟩ ≤ MAX_INLINE_CELL := by decide
  obtain ⟨leaf, henc⟩ := encodeLeaf_single hcell
  obtain ⟨fin, hw⟩ : ∃ fin, Written 3 [⟨[7], .inline [1, 2]⟩] ⟨leaf, fin⟩ :=
    exists_written (by simp) (by simp [PayloadSized]) (by simp) henc
  have hsized : InnerCell.Sized ⟨[7], 5⟩ := ⟨by decide, by decide, by decide⟩
  obtain ⟨body, hinner⟩ : ∃ body, encodeInner [⟨[7], 5⟩] 6 BODY_SIZE = some body :=
    encodeInner_single hsized
  exact ⟨_, body, hw, hinner, search_agrees hw (by simp) (by simp) (by decide) (by simp) hinner⟩

end Search

end Node

end Arkeion
