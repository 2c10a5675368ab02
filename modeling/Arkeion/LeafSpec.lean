import Arkeion.Lib.SortedMap
import Arkeion.NodeSpec
import Mathlib.Algebra.Order.BigOperators.Group.List

/-!
Leaves: the bodies that hold given cells, and what reading and appending does with them.
-/

namespace Arkeion

open Arkeion.Lib

namespace Node

/-- The header of a leaf, with its prefix if it is compressed. -/
def leafHead (compressed : Bool) (n : ℕ) (pfx : Bytes) : Bytes :=
  leafHeader (if compressed then LEAF_PREFIX_FLAG else 0) n
    ++ if compressed then putVarint pfx.length ++ pfx else []

/-- The bytes of a cell in a leaf with this prefix. -/
def storedCell (pfx : Bytes) (c : LeafCell) : Bytes :=
  encodeLeafCell (c.key.drop pfx.length) c.payload

/-- A key as the tree takes it, with a payload of the machine's sizes. -/
structure CellSized (c : LeafCell) : Prop where
  key_pos : 0 < c.key.length
  key_le : c.key.length ≤ MAX_KEY_LEN
  payload : PayloadSized c.payload

/-- The body holds the cells, with this common prefix taken out; their keys are not empty, but may
be longer than those of the tree. -/
structure LeafBody (compressed : Bool) (pfx : Bytes) (cells : List LeafCell) (body : Bytes) :
    Prop where
  layout : NodeLayout (leafHead compressed cells.length pfx) (cells.map (storedCell pfx)) body
  plain : compressed = false → pfx = []
  shares : ∀ c ∈ cells, pfx <+: c.key
  keyed : ∀ c ∈ cells, c.key ≠ []
  payload : ∀ c ∈ cells, PayloadSized c.payload
  sorted : (cells.map LeafCell.key).Pairwise (· < ·)

/-- The body holds the cells of a leaf of the tree, with this common prefix taken out. -/
structure LeafShape (compressed : Bool) (pfx : Bytes) (cells : List LeafCell) (body : Bytes) :
    Prop extends LeafBody compressed pfx cells body where
  pfx_le : pfx.length ≤ MAX_KEY_LEN
  sized : ∀ c ∈ cells, CellSized c

/-- The last key of a leaf and the position behind its cells, found by walking over them. -/
def leafEnd (page : ℕ) (b : Bytes) : Result (Option Bytes × ℕ) := do
  let (pfx, start) ← leafPrefixAndStart page b
  let (last, fin) ← skipLeafCells page b (leafNcells b) start none
  .ok (last.map fun stored => pfx ++ stored, fin)

/-- The body is a leaf with the cells. -/
def IsLeaf (cells : List LeafCell) (body : Bytes) : Prop := ∃ z pfx, LeafShape z pfx cells body

/-! ### A target and a prefix -/

section Prefix
variable {pfx k : Bytes}

lemma lt_of_cmpPrefix_below (h : cmpPrefix pfx k = .below) (x : Bytes) : k < pfx ++ x := by
  unfold cmpPrefix at h
  have hk := List.take_append_drop (min pfx.length k.length) k
  have hp := List.take_append_drop (min pfx.length k.length) pfx
  cases hc : cmpBytes (k.take (min pfx.length k.length)) (pfx.take (min pfx.length k.length)) with
  | lt =>
    have hlt := append_lt_append_of_lt (by simp) (cmpBytes_eq_lt.1 hc)
      (k.drop (min pfx.length k.length)) (pfx.drop (min pfx.length k.length) ++ x)
    rwa [hk, ← List.append_assoc, hp] at hlt
  | gt => simp [hc] at h
  | eq =>
    have heq := cmpBytes_eq_eq.1 hc
    simp only [hc] at h
    split_ifs at h with hlen
    rw [min_eq_right hlen.le, List.take_length] at heq
    have hsplit : pfx ++ x = k ++ (pfx.drop k.length ++ x) := by
      conv_lhs => rw [← List.take_append_drop k.length pfx, ← heq]
      rw [List.append_assoc]
    have hpos : [] < pfx.drop k.length ++ x := by
      have hne : pfx.drop k.length ++ x ≠ [] := by
        simp only [ne_eq, List.append_eq_nil_iff, List.drop_eq_nil_iff]
        omega
      obtain ⟨b, l, hl⟩ := List.exists_cons_of_ne_nil hne
      rw [hl]
      exact List.nil_lt_cons b l
    rw [hsplit]
    conv_lhs => rw [← List.append_nil k]
    exact (append_lt_append_iff k).2 hpos
  
lemma lt_of_cmpPrefix_above (h : cmpPrefix pfx k = .above) (x : Bytes) : pfx ++ x < k := by
  unfold cmpPrefix at h
  have hk := List.take_append_drop (min pfx.length k.length) k
  have hp := List.take_append_drop (min pfx.length k.length) pfx
  cases hc : cmpBytes (k.take (min pfx.length k.length)) (pfx.take (min pfx.length k.length)) with
  | lt => simp [hc] at h
  | gt =>
    have hlt := append_lt_append_of_lt (by simp) (cmpBytes_eq_gt.1 hc)
      (pfx.drop (min pfx.length k.length) ++ x) (k.drop (min pfx.length k.length))
    rwa [hk, ← List.append_assoc, hp] at hlt
  | eq =>
    simp only [hc] at h
    split_ifs at h

lemma eq_of_cmpPrefix_within {rest : Bytes} (h : cmpPrefix pfx k = .within rest) :
    k = pfx ++ rest := by
  unfold cmpPrefix at h
  cases hc : cmpBytes (k.take (min pfx.length k.length)) (pfx.take (min pfx.length k.length)) with
  | lt => simp [hc] at h
  | gt => simp [hc] at h
  | eq =>
    have heq := cmpBytes_eq_eq.1 hc
    simp only [hc] at h
    split_ifs at h with hlen
    obtain rfl := PrefixCmp.within.inj h
    rw [min_eq_left (not_lt.1 hlen), List.take_length] at heq
    conv_lhs => rw [← List.take_append_drop pfx.length k, heq]

end Prefix

section Shape
variable {compressed : Bool} {pfx body : Bytes} {cells : List LeafCell} (page : ℕ)

lemma leafHead_eq (compressed : Bool) (n : ℕ) (pfx : Bytes) :
    leafHead compressed n pfx = [TYPE_LEAF, if compressed then LEAF_PREFIX_FLAG else 0]
      ++ leBytes 2 n ++ if compressed then putVarint pfx.length ++ pfx else [] := rfl

namespace LeafShape

/-- The position of a cell. -/
def cellPos (compressed : Bool) (pfx : Bytes) (cells : List LeafCell) (i : ℕ) : ℕ :=
  (leafHead compressed cells.length pfx).length
    + ((cells.take i).map (storedCell pfx)).flatten.length

/-- Where the cells end. -/
def fin (compressed : Bool) (pfx : Bytes) (cells : List LeafCell) : ℕ :=
  cellPos compressed pfx cells cells.length

end LeafShape

open LeafShape

namespace LeafBody

lemma count_lt (h : LeafBody compressed pfx cells body) : cells.length < 2 ^ 16 := by
  have hroom := h.layout.room
  rw [List.length_map, BODY_SIZE_eq] at hroom
  omega

lemma body_eq (h : LeafBody compressed pfx cells body) : ∃ rest,
    body = [TYPE_LEAF, if compressed then LEAF_PREFIX_FLAG else 0] ++ leBytes 2 cells.length
      ++ ((if compressed then putVarint pfx.length ++ pfx else []) ++ rest) := by
  obtain ⟨gap, hgap⟩ := h.layout.eq
  exact ⟨_, by rw [hgap, leafHead_eq]; simp only [List.append_assoc]; rfl⟩

lemma nodeType_eq (h : LeafBody compressed pfx cells body) : nodeType body = TYPE_LEAF := by
  obtain ⟨rest, hrest⟩ := h.body_eq
  rw [hrest]
  rfl

lemma leafNcells_eq (h : LeafBody compressed pfx cells body) :
    leafNcells body = cells.length := by
  obtain ⟨rest, hrest⟩ := h.body_eq
  rw [hrest, leafNcells, u16At_header h.count_lt]

lemma leafIsCompressed_eq (h : LeafBody compressed pfx cells body) :
    leafIsCompressed body = compressed := by
  obtain ⟨rest, hrest⟩ := h.body_eq
  rw [hrest]
  cases compressed with
  | false =>
    change ((0 : UInt8) &&& LEAF_PREFIX_FLAG != 0) = false
    decide
  | true =>
    change (LEAF_PREFIX_FLAG &&& LEAF_PREFIX_FLAG != 0) = true
    decide

lemma pfx_lt (h : LeafBody compressed pfx cells body) : pfx.length < 2 ^ 16 := by
  have hroom := h.layout.room
  rw [BODY_SIZE_eq] at hroom
  cases compressed with
  | false =>
    rw [h.plain rfl]
    decide
  | true =>
    simp only [leafHead_eq, if_true, List.length_append] at hroom
    omega

lemma leafPrefixAndStart_eq (h : LeafBody compressed pfx cells body) :
    leafPrefixAndStart page body
      = .ok (pfx, (leafHead compressed cells.length pfx).length) := by
  rw [leafPrefixAndStart, h.leafIsCompressed_eq]
  have hle := h.pfx_lt
  cases compressed with
  | false =>
    rw [h.plain rfl]
    rfl
  | true =>
    obtain ⟨rest, hrest⟩ := h.body_eq
    simp only [if_true] at hrest ⊢
    have hv : getVarint page body LEAF_HDR
        = .ok (pfx.length, LEAF_HDR + (putVarint pfx.length).length) := by
      have := getVarint_at page
        (x := [TYPE_LEAF, LEAF_PREFIX_FLAG] ++ leBytes 2 cells.length) (z := pfx ++ rest)
        (n := LEAF_HDR) (v := pfx.length) (by simp [LEAF_HDR]) (by omega)
      rw [hrest]
      simpa only [List.append_assoc] using this
    have hs : getSlice page body (LEAF_HDR + (putVarint pfx.length).length) pfx.length
        = .ok (pfx, LEAF_HDR + (putVarint pfx.length).length + pfx.length) := by
      have := getSlice_at page
        (x := [TYPE_LEAF, LEAF_PREFIX_FLAG] ++ leBytes 2 cells.length ++ putVarint pfx.length)
        (y := pfx) (z := rest) (n := LEAF_HDR + (putVarint pfx.length).length)
        (by simp [LEAF_HDR]; omega)
        rfl (by
          have := h.layout.length
          rw [hrest, BODY_SIZE_eq] at this
          simp only [List.length_append] at this ⊢
          omega)
      rw [hrest]
      simpa only [List.append_assoc] using this
    rw [hv, ok_bind]
    simp only [hs]
    simp [leafHead_eq, LEAF_HDR]
    omega

lemma cellPtr_eq (h : LeafBody compressed pfx cells body) {i : ℕ} (hi : i < cells.length) :
    cellPtr body i = .ok (cellPos compressed pfx cells i) := by
  rw [h.layout.cellPtr_eq (by simpa using hi), cellPos, List.map_take]

lemma split (h : LeafBody compressed pfx cells body) {i : ℕ} {c : LeafCell}
    (hc : cells[i]? = some c) : ∃ x z, body = x ++ storedCell pfx c ++ z ∧
      x.length = cellPos compressed pfx cells i := by
  obtain ⟨z, hz⟩ := h.layout.split (i := i) (c := storedCell pfx c) (by simp [hc])
  exact ⟨_, z, hz, by rw [List.length_append, cellPos, List.map_take]⟩

lemma stored_lt (h : LeafBody compressed pfx cells body) {c : LeafCell} (hc : c ∈ cells) :
    (c.key.drop pfx.length).length < 2 ^ 64 := by
  have hroom := h.layout.room
  rw [BODY_SIZE_eq] at hroom
  have hsub := (List.sublist_flatten_of_mem (List.mem_map_of_mem (f := storedCell pfx) hc)).length_le
  rw [storedCell, encodeLeafCell_eq] at hsub
  simp only [List.length_append] at hsub
  omega

/-- The key of a cell, as it is stored. -/
lemma leafKeyAt_eq (h : LeafBody compressed pfx cells body) {i : ℕ} {c : LeafCell}
    (hc : cells[i]? = some c) : ∃ pos, leafKeyAt page body (cellPos compressed pfx cells i)
        = .ok (payloadFlags c.payload, c.key.drop pfx.length, pos) ∧
      readLeafPayload page body pos (payloadFlags c.payload)
        = .ok (c.payload, cellPos compressed pfx cells (i + 1)) := by
  obtain ⟨x, z, hbody, hx⟩ := h.split hc
  have hmem := List.mem_of_getElem? hc
  have hlt : (x ++ encodeLeafCell (c.key.drop pfx.length) c.payload ++ z).length < 2 ^ 64 := by
    have := h.layout.length
    rw [hbody, BODY_SIZE_eq] at this
    rw [show encodeLeafCell (c.key.drop pfx.length) c.payload = storedCell pfx c from rfl, this]
    omega
  have hkey := leafKeyAt_at page hx.symm (h.stored_lt hmem) hlt
  have hpayload := readLeafPayload_cell page hx.symm (h.payload c hmem) hlt
  refine ⟨_, by rw [hbody]; exact hkey, ?_⟩
  rw [hbody]
  refine hpayload.trans ?_
  congr 2
  obtain ⟨hi, rfl⟩ := List.getElem?_eq_some_iff.1 hc
  rw [cellPos, cellPos, List.take_add_one, List.getElem?_eq_getElem hi]
  simp only [Option.toList_some, List.map_append, List.map_cons, List.map_nil, List.flatten_append,
    List.flatten_cons, List.flatten_nil, List.append_nil, List.length_append, storedCell]
  omega

lemma key_eq (h : LeafBody compressed pfx cells body) {c : LeafCell} (hc : c ∈ cells) :
    pfx ++ c.key.drop pfx.length = c.key := by
  obtain ⟨rest, hrest⟩ := h.shares c hc
  rw [← hrest, List.drop_left]

lemma leafCellAt_eq (h : LeafBody compressed pfx cells body) {i : ℕ} {c : LeafCell}
    (hc : cells[i]? = some c) : leafCellAt page body i = .ok (c.key, c.payload) := by
  obtain ⟨pos, hkey, hpayload⟩ := h.leafKeyAt_eq page hc
  have hi := (List.getElem?_eq_some_iff.1 hc).1
  simp only [leafCellAt, h.cellPtr_eq hi, ok_bind, hkey, h.leafPrefixAndStart_eq, hpayload,
    h.key_eq (List.mem_of_getElem? hc)]

/-- A cell's pair of key and payload. -/
lemma sortedMap_pairs (h : LeafBody compressed pfx cells body) :
    SortedMap (cells.map fun c => (c.key, c.payload)) := by
  have := h.sorted
  rw [List.pairwise_map] at this
  rw [SortedMap, List.pairwise_map]
  exact this

/-! ### Parsing -/

lemma parseLeafCells_eq (h : LeafBody compressed pfx cells body) (pre rest : List LeafCell)
    (hcells : cells = pre ++ rest) :
    parseLeafCells page body pfx rest.length (cellPos compressed pfx cells pre.length)
      (pre.getLast?.map LeafCell.key) = .ok rest := by
  induction rest generalizing pre with
  | nil => rfl
  | cons c rest ih =>
    have hget : cells[pre.length]? = some c := by simp [hcells]
    obtain ⟨pos, hkey, hpayload⟩ := h.leafKeyAt_eq page hget
    have hmem := List.mem_of_getElem? hget
    have hlast : ∀ p ∈ pre.getLast?.map LeafCell.key, p < c.key := by
      intro p hp
      obtain ⟨l, hl, rfl⟩ := Option.map_eq_some_iff.1 (Option.mem_def.1 hp)
      have hs := h.sorted
      rw [hcells, List.map_append, List.pairwise_append] at hs
      exact hs.2.2 _ (List.mem_map_of_mem (List.mem_of_getLast? hl)) _ (by simp)
    have hne := h.keyed c hmem
    have hrest := ih (pre ++ [c]) (by simp [hcells])
    simp only [List.length_append, List.length_singleton, List.getLast?_append,
      List.getLast?_singleton, Option.some_or, Option.map_some] at hrest
    have hreq : require (c.key ≠ [] ∧ ∀ p ∈ pre.getLast?.map LeafCell.key, p < c.key)
        (.corrupt page "claves de hoja desordenadas o vacías") = .ok () := require_pos ⟨hne, hlast⟩
    simp only [List.length_cons, parseLeafCells, hkey, ok_bind, h.key_eq hmem, hreq, hpayload,
      hrest]

lemma parseLeaf_eq (h : LeafBody compressed pfx cells body) : parseLeaf page body = .ok cells := by
  have hparse := h.parseLeafCells_eq page [] cells rfl
  rw [parseLeaf, require_pos h.nodeType_eq, ok_bind, h.leafPrefixAndStart_eq, ok_bind,
    h.leafNcells_eq]
  simpa [cellPos] using hparse

/-! ### Searching -/

lemma lt_antitone (h : LeafBody compressed pfx cells body) (k : Bytes) :
    cells.Pairwise fun a b => decide (b.key < k) = true → decide (a.key < k) = true := by
  refine (List.pairwise_map.1 h.sorted).imp fun {a b} hab hb => ?_
  rw [decide_eq_true_eq] at hb ⊢
  exact hab.trans hb

/-- The search among the stored keys, for a target that begins with the common prefix. -/
lemma lowerBound_stored (h : LeafBody compressed pfx cells body) {k krest : Bytes}
    (hk : k = pfx ++ krest) : lowerBound (leafKeyLt page body krest) cells.length 0 cells.length
      = .ok (partitionPoint (fun c : LeafCell => decide (c.key < k)) cells) := by
  refine lowerBound_list (h.lt_antitone k) fun i c hi => ?_
  obtain ⟨pos, hkey, -⟩ := h.leafKeyAt_eq page hi
  have hmem := List.mem_of_getElem? hi
  simp only [leafKeyLt, h.cellPtr_eq (List.getElem?_eq_some_iff.1 hi).1, ok_bind, hkey]
  congr 2
  rw [hk]
  conv_rhs => rw [← h.key_eq hmem]
  rw [append_lt_append_iff]

/-- The first cell whose key is not before the target. -/
lemma leafLowerBound_eq (h : LeafBody compressed pfx cells body) (k : Bytes) :
    leafLowerBound page body k
      = .ok (partitionPoint (fun c : LeafCell => decide (c.key < k)) cells) := by
  simp only [leafLowerBound, h.leafPrefixAndStart_eq, ok_bind, h.leafNcells_eq]
  cases hc : cmpPrefix pfx k with
  | below =>
    have : partitionPoint (fun c : LeafCell => decide (c.key < k)) ([] ++ cells) = 0 := by
      refine partitionPoint_append (by simp) fun c hc' => decide_eq_false (not_lt.2 ?_)
      have hmem := List.mem_of_head? hc'
      rw [← h.key_eq hmem]
      exact (lt_of_cmpPrefix_below hc _).le
    exact congrArg _ this.symm
  | above =>
    have : partitionPoint (fun c : LeafCell => decide (c.key < k)) (cells ++ [])
        = cells.length := by
      refine partitionPoint_append (fun c hmem => decide_eq_true ?_) (by simp)
      rw [← h.key_eq hmem]
      exact lt_of_cmpPrefix_above hc _
    rw [List.append_nil] at this
    exact congrArg _ this.symm
  | within krest => exact h.lowerBound_stored page (eq_of_cmpPrefix_within hc)

/-- What is found is the position of the payload of the key's cell. -/
lemma leafSeek_eq (h : LeafBody compressed pfx cells body) (k : Bytes) :
    (leafSeek page body k = .ok none ∧ ∀ c ∈ cells, c.key ≠ k) ∨
    ∃ c pos fin, c ∈ cells ∧ c.key = k ∧
      leafSeek page body k = .ok (some (pos, payloadFlags c.payload)) ∧
      readLeafPayload page body pos (payloadFlags c.payload) = .ok (c.payload, fin) := by
  simp only [leafSeek, require_pos h.nodeType_eq, ok_bind, h.leafPrefixAndStart_eq,
    h.leafNcells_eq]
  cases hc : cmpPrefix pfx k with
  | below =>
    refine Or.inl ⟨rfl, fun c hmem => ?_⟩
    rw [← h.key_eq hmem]
    exact (lt_of_cmpPrefix_below hc _).ne'
  | above =>
    refine Or.inl ⟨rfl, fun c hmem => ?_⟩
    rw [← h.key_eq hmem]
    exact (lt_of_cmpPrefix_above hc _).ne
  | within krest =>
    have hk := eq_of_cmpPrefix_within hc
    have hsorted : cells.Pairwise fun a b =>
        cmpBytes b.key k ≠ .gt → cmpBytes a.key k = .lt := by
      refine (List.pairwise_map.1 h.sorted).imp fun {a b} hab hb => cmpBytes_eq_lt.2 ?_
      exact hab.trans_le (not_lt.1 fun hlt => hb (cmpBytes_eq_gt.2 hlt))
    have hprobe (i : ℕ) (c : LeafCell) (hi : cells[i]? = some c) : ∃ a : ℕ × UInt8,
        leafKeyCmp page body krest i = .ok (cmpBytes c.key k, a) ∧
        a.2 = payloadFlags c.payload ∧
          ∃ fin, readLeafPayload page body a.1 a.2 = .ok (c.payload, fin) := by
      obtain ⟨pos, hkey, hpayload⟩ := h.leafKeyAt_eq page hi
      refine ⟨(pos, payloadFlags c.payload), ?_, rfl, _, hpayload⟩
      have hcmp : cmpBytes (c.key.drop pfx.length) krest = cmpBytes c.key k := by
        conv_rhs => rw [← h.key_eq (List.mem_of_getElem? hi), hk]
        exact (cmpBytes_append pfx).symm
      simp only [leafKeyCmp, h.cellPtr_eq (List.getElem?_eq_some_iff.1 hi).1, ok_bind, hkey, hcmp]
    rcases search_list hsorted hprobe with
      ⟨hs, hne⟩ | ⟨c, ⟨pos, flags⟩, hmem, heq, ⟨rfl, fin, hread⟩, hs⟩
    · exact Or.inl ⟨hs, fun c hmem heq => hne c hmem (cmpBytes_eq_eq.2 heq)⟩
    · exact Or.inr ⟨c, pos, fin, hmem, cmpBytes_eq_eq.1 heq, hs, hread⟩

lemma leafFind_eq (h : LeafBody compressed pfx cells body) (k : Bytes) : leafFind page body k
    = .ok (valueOf k (cells.map fun c => (c.key, c.payload))) := by
  rw [leafFind]
  rcases h.leafSeek_eq page k with ⟨hs, hne⟩ | ⟨c, pos, fin, hmem, rfl, hs, hread⟩
  · have hnone : valueOf k (cells.map fun c => (c.key, c.payload)) = none :=
      valueOf_eq_none fun p hp => by
        obtain ⟨c, hc, rfl⟩ := List.mem_map.1 hp
        exact hne c hc
    rw [hs, hnone]
    rfl
  · have hsome : valueOf c.key (cells.map fun c => (c.key, c.payload)) = some c.payload :=
      (mem_iff_valueOf h.sortedMap_pairs).1 (List.mem_map.2 ⟨c, hmem, rfl⟩)
    simp only [hs, ok_bind, hread, hsome]

lemma leafContains_eq (h : LeafBody compressed pfx cells body) (k : Bytes) :
    leafContains page body k
      = .ok (valueOf k (cells.map fun c => (c.key, c.payload))).isSome := by
  have hfind := h.leafFind_eq page k
  rw [leafFind] at hfind
  rw [leafContains]
  rcases h.leafSeek_eq page k with ⟨hs, -⟩ | ⟨c, pos, fin, -, -, hs, hread⟩
  · simp only [hs, ok_bind, Except.ok.injEq] at hfind ⊢
    rw [← hfind]
    rfl
  · simp only [hs, ok_bind, hread, Except.ok.injEq] at hfind ⊢
    rw [← hfind]
    rfl

/-! ### Appending -/

lemma skipLeafCells_eq (h : LeafBody compressed pfx cells body) (pre rest : List LeafCell)
    (hcells : cells = pre ++ rest) :
    skipLeafCells page body rest.length (cellPos compressed pfx cells pre.length)
        (pre.getLast?.map fun c => c.key.drop pfx.length)
      = .ok (cells.getLast?.map fun c => c.key.drop pfx.length, fin compressed pfx cells) := by
  induction rest generalizing pre with
  | nil =>
    rw [List.append_nil] at hcells
    subst hcells
    rfl
  | cons c rest ih =>
    obtain ⟨pos, hkey, hpayload⟩ := h.leafKeyAt_eq page (i := pre.length) (c := c)
      (by simp [hcells])
    have hrest := ih (pre ++ [c]) (by simp [hcells])
    simp only [List.length_append, List.length_singleton, List.getLast?_append,
      List.getLast?_singleton, Option.some_or, Option.map_some] at hrest
    simp only [List.length_cons, skipLeafCells, hkey, ok_bind, hpayload, hrest]

lemma room (h : LeafBody compressed pfx cells body) :
    fin compressed pfx cells + 2 * cells.length ≤ BODY_SIZE := by
  have := h.layout.room
  rw [List.length_map] at this
  rw [fin, cellPos, List.take_length]
  exact this

lemma fin_snoc (c : LeafCell) :
    fin compressed pfx (cells ++ [c]) = fin compressed pfx cells + (storedCell pfx c).length := by
  have hhead : (leafHead compressed (cells ++ [c]).length pfx).length
      = (leafHead compressed cells.length pfx).length := by
    simp [leafHead_eq]
  rw [fin, fin, cellPos, cellPos, hhead, List.take_length, List.take_length, List.map_append,
    List.flatten_append, List.length_append, ← Nat.add_assoc]
  simp

lemma four_le_fin : 4 ≤ fin compressed pfx cells := by
  simp only [fin, cellPos, leafHead_eq, List.length_append, List.length_cons, List.length_nil,
    length_leBytes]
  omega

/-- The cell behind the last one, in a body with room for it. -/
lemma putLastCell_body (h : LeafBody compressed pfx cells body) {c : LeafCell}
    (hpfx : pfx <+: c.key) (hkey : c.key ≠ []) (hp : PayloadSized c.payload)
    (hlast : ∀ d ∈ cells, d.key < c.key)
    (hfit : fin compressed pfx cells + (storedCell pfx c).length
      ≤ BODY_SIZE - 2 * (cells.length + 1)) :
    LeafBody compressed pfx (cells ++ [c])
      (putLastCell body (fin compressed pfx cells) (storedCell pfx c)) where
  layout := by
    have hroom := h.room
    have hlen : (cells.map (storedCell pfx)).length = cells.length := List.length_map ..
    have hfour : 4 ≤ fin compressed pfx cells := four_le_fin
    have hl := h.layout
    rw [leafHead_eq] at hl
    have := putLastCell_layout (c := storedCell pfx c) (hlen.symm ▸ hl)
      (hlen.symm ▸ h.count_lt) (by
        rw [hlen, ← leafHead_eq]
        simpa only [fin, cellPos, List.take_length] using hfit) (by rw [hlen]; omega)
    rw [hlen, ← leafHead_eq, ← leafHead_eq] at this
    simpa only [List.length_append, List.length_singleton, List.map_append, List.map_cons,
      List.map_nil, fin, cellPos, List.take_length] using this
  plain := h.plain
  shares d hd := by
    rcases List.mem_append.1 hd with hd | hd
    · exact h.shares d hd
    · rwa [List.mem_singleton.1 hd]
  keyed d hd := by
    rcases List.mem_append.1 hd with hd | hd
    · exact h.keyed d hd
    · rwa [List.mem_singleton.1 hd]
  payload d hd := by
    rcases List.mem_append.1 hd with hd | hd
    · exact h.payload d hd
    · rwa [List.mem_singleton.1 hd]
  sorted := by
    rw [List.map_append, List.pairwise_append]
    refine ⟨h.sorted, List.pairwise_singleton .., fun a ha b hb => ?_⟩
    obtain ⟨d, hd, rfl⟩ := List.mem_map.1 ha
    rw [List.map_singleton, List.mem_singleton] at hb
    rw [hb]
    exact hlast d hd

lemma le_getLast (h : LeafBody compressed pfx cells body) {l : LeafCell}
    (hl : cells.getLast? = some l) {d : LeafCell} (hd : d ∈ cells) : d.key ≤ l.key := by
  obtain ⟨ys, rfl⟩ := List.getLast?_eq_some_iff.1 hl
  rcases List.mem_append.1 hd with hd | hd
  · have hs := h.sorted
    rw [List.map_append, List.pairwise_append] at hs
    exact (hs.2.2 _ (List.mem_map_of_mem hd) _ (by simp)).le
  · rw [List.mem_singleton.1 hd]

/-- What an append adds, where it is not refused. -/
lemma leafAppend_body (h : LeafBody compressed pfx cells body) {c : LeafCell} (hkey : c.key ≠ [])
    (hp : PayloadSized c.payload) : leafAppend page body c.key c.payload = .ok none ∨
      ∃ body', leafAppend page body c.key c.payload
          = .ok (some (body', fin compressed pfx (cells ++ [c]))) ∧
        LeafBody compressed pfx (cells ++ [c]) body' ∧ ∀ d ∈ cells, d.key < c.key := by
  have hskip := h.skipLeafCells_eq page [] cells rfl
  have hstart : cellPos compressed pfx cells 0
      = (leafHead compressed cells.length pfx).length := by simp [cellPos]
  simp only [List.length_nil, List.getLast?_nil, Option.map_none, hstart] at hskip
  have hroom := h.room
  have hfour : 4 ≤ fin compressed pfx cells := four_le_fin
  have hreq : require (2 * (cells.length + 1) ≤ BODY_SIZE)
      (.panic "attempt to subtract with overflow") = .ok () := require_pos (by omega)
  simp only [leafAppend, require_pos h.nodeType_eq, ok_bind, h.leafPrefixAndStart_eq,
    h.leafNcells_eq, hskip, h.layout.length, hreq]
  split_ifs with hpfx hlast hfit
  · exact Or.inl rfl
  · exact Or.inl rfl
  · have hsplit : pfx ++ c.key.drop pfx.length = c.key := by
      obtain ⟨r, hr⟩ := hpfx
      rw [← hr, List.drop_left]
    have hbefore : ∀ d ∈ cells, d.key < c.key := by
      intro d hd
      have hl := List.getLast?_eq_getLast_of_ne_nil (List.ne_nil_of_mem hd)
      set l := cells.getLast (List.ne_nil_of_mem hd)
      refine (h.le_getLast hl hd).trans_lt ?_
      have hlt : ¬ c.key.drop pfx.length ≤ l.key.drop pfx.length := fun hle =>
        hlast ⟨_, by simp [hl], hle⟩
      rw [← h.key_eq (List.mem_of_getLast? hl), ← hsplit, append_lt_append_iff]
      exact not_le.1 hlt
    refine Or.inr ⟨_, ?_, h.putLastCell_body hpfx hkey hp hbefore (not_lt.1 hfit), hbefore⟩
    rw [fin_snoc]
    rfl
  · exact Or.inl rfl

lemma leafEnd_eq (h : LeafBody compressed pfx cells body) :
    leafEnd page body = .ok (cells.getLast?.map LeafCell.key, fin compressed pfx cells) := by
  have hskip := h.skipLeafCells_eq page [] cells rfl
  have hstart : cellPos compressed pfx cells 0
      = (leafHead compressed cells.length pfx).length := by simp [cellPos]
  simp only [List.length_nil, List.getLast?_nil, Option.map_none, hstart] at hskip
  simp only [leafEnd, h.leafPrefixAndStart_eq, ok_bind, h.leafNcells_eq, hskip, Option.map_map]
  congr 2
  cases hl : cells.getLast? with
  | none => rfl
  | some l =>
    simp only [Option.map_some, Function.comp_apply, h.key_eq (List.mem_of_getLast? hl)]

/-- Appending at the end without looking is refused, or it gives what looking gives. -/
lemma appendInlineAt_cases (h : LeafBody compressed pfx cells body) {key : Bytes} (value : Bytes)
    (hlast : ∀ d ∈ cells, d.key < key) :
    appendInlineAt body (fin compressed pfx cells) key value = .ok none ∨
    value.length < 2 ^ 64 ∧
      ∃ r, appendInlineAt body (fin compressed pfx cells) key value = .ok (some r) ∧
        ∀ page, leafAppend page body key (.inline value) = .ok (some r) := by
  have hroom := h.room
  have hfour : 4 ≤ fin compressed pfx cells := four_le_fin
  have hreq : require (2 * (cells.length + 1) ≤ BODY_SIZE)
      (.panic "attempt to subtract with overflow") = .ok () := require_pos (by omega)
  have heq : appendInlineAt body (fin compressed pfx cells) key value =
      if pfx <+: key then
        if fin compressed pfx cells + storedCellSize (key.drop pfx.length).length (.inline value)
            > BODY_SIZE - 2 * (cells.length + 1) then .ok none
        else .ok (some (putLastCell body (fin compressed pfx cells)
            (encodeLeafCell (key.drop pfx.length) (.inline value)),
          fin compressed pfx cells + storedCellSize (key.drop pfx.length).length (.inline value)))
      else .ok none := by
    rw [appendInlineAt, h.leafIsCompressed_eq, h.leafNcells_eq, h.layout.length]
    cases compressed with
    | true =>
      simp only [if_true, h.leafPrefixAndStart_eq, ok_bind]
      by_cases hpfx : pfx <+: key
      · simp only [if_pos hpfx, hreq, ok_bind]
      · simp only [if_neg hpfx]
    | false =>
      have hpfx := h.plain rfl
      subst hpfx
      simp only [Bool.false_eq_true, if_false, ok_bind, hreq, List.nil_prefix, if_true,
        List.length_nil, List.drop_zero]
  rw [heq]
  split_ifs with hpfx hfit
  · exact Or.inl rfl
  · have hsize := not_lt.1 hfit
    rw [BODY_SIZE_eq, storedCellSize, payloadSize] at hsize
    have hv : value.length < 2 ^ 64 := by omega
    refine Or.inr ⟨hv, _, rfl, fun page => ?_⟩
    have hlen : (encodeLeafCell (key.drop pfx.length) (.inline value)).length
        = storedCellSize (key.drop pfx.length).length (.inline value) :=
      length_encodeLeafCell (by omega) hv
    have hskip := h.skipLeafCells_eq page [] cells rfl
    have hstart : cellPos compressed pfx cells 0
        = (leafHead compressed cells.length pfx).length := by simp [cellPos]
    simp only [List.length_nil, List.getLast?_nil, Option.map_none, hstart] at hskip
    have hkey : pfx ++ key.drop pfx.length = key := by
      obtain ⟨r, hr⟩ := hpfx
      rw [← hr, List.drop_left]
    have hnot : ¬ ∃ p ∈ cells.getLast?.map fun c => c.key.drop pfx.length,
        key.drop pfx.length ≤ p := by
      rintro ⟨p, hp, hle⟩
      obtain ⟨l, hl, rfl⟩ := Option.map_eq_some_iff.1 (Option.mem_def.1 hp)
      have hmem := List.mem_of_getLast? hl
      have hlt := hlast l hmem
      rw [← h.key_eq hmem, ← hkey, append_lt_append_iff] at hlt
      exact absurd hle (not_le.2 hlt)
    have hpfx' : ¬ ¬ pfx <+: key := not_not.2 hpfx
    simp only [leafAppend, require_pos h.nodeType_eq, ok_bind, h.leafPrefixAndStart_eq,
      h.leafNcells_eq, if_neg hpfx', hskip, if_neg hnot, h.layout.length, hreq, hlen, if_neg hfit]
  · exact Or.inl rfl

end LeafBody

namespace LeafShape

/-- An append is refused, or it adds the cell as the last one. -/
lemma leafAppend_cases (h : LeafShape compressed pfx cells body) {c : LeafCell}
    (hc : CellSized c) : leafAppend page body c.key c.payload = .ok none ∨
      ∃ body', leafAppend page body c.key c.payload
          = .ok (some (body', fin compressed pfx (cells ++ [c]))) ∧
        LeafShape compressed pfx (cells ++ [c]) body' ∧ ∀ d ∈ cells, d.key < c.key := by
  rcases h.leafAppend_body page (List.length_pos_iff.1 hc.key_pos) hc.payload with
    hrefused | ⟨body', happ, hbody, hlast⟩
  · exact Or.inl hrefused
  · refine Or.inr ⟨body', happ, ⟨hbody, h.pfx_le, fun d hd => ?_⟩, hlast⟩
    rcases List.mem_append.1 hd with hd | hd
    · exact h.sized d hd
    · rwa [List.mem_singleton.1 hd]

end LeafShape

end Shape

/-! ### Encoding -/

lemma lcpLen_le_left (a b : Bytes) : lcpLen a b ≤ a.length := by
  induction a generalizing b with
  | nil => simp [lcpLen]
  | cons x a ih =>
    cases b with
    | nil => simp [lcpLen]
    | cons y b =>
      rw [lcpLen]
      split_ifs
      · simpa using ih b
      · simp

lemma take_lcpLen_isPrefix (a b : Bytes) : a.take (lcpLen a b) <+: b := by
  induction a generalizing b with
  | nil => simp
  | cons x a ih =>
    cases b with
    | nil => simp [lcpLen]
    | cons y b =>
      rw [lcpLen]
      split_ifs with hxy
      · rw [List.take_succ_cons]
        exact List.cons_prefix_cons.2 ⟨hxy, ih b⟩
      · simp

section Encode
variable {cells : List LeafCell} {body : Bytes}

/-- What the first and the last key share, all keys share. -/
lemma keysLcp_isPrefix (hs : (cells.map LeafCell.key).Pairwise (· < ·)) {first : LeafCell}
    (hf : cells.head? = some first) {c : LeafCell} (hc : c ∈ cells) :
    first.key.take (keysLcp cells) <+: c.key := by
  obtain ⟨rest, rfl⟩ := List.head?_eq_some_iff.1 hf
  have hlast := List.getLast?_eq_getLast_of_ne_nil (List.cons_ne_nil first rest)
  set last := (first :: rest).getLast (List.cons_ne_nil first rest)
  have hlcp : keysLcp (first :: rest) = lcpLen first.key last.key := by
    simp only [keysLcp, List.head?_cons, hlast]
  have hfirst : first.key ≤ c.key := by
    rw [List.map_cons, List.pairwise_cons] at hs
    rcases List.mem_cons.1 hc with rfl | hc
    · exact le_rfl
    · exact (hs.1 _ (List.mem_map_of_mem hc)).le
  have hle : c.key ≤ last.key := by
    obtain ⟨ys, hys⟩ := List.getLast?_eq_some_iff.1 hlast
    rw [hys] at hc hs
    rcases List.mem_append.1 hc with hc | hc
    · rw [List.map_append, List.pairwise_append] at hs
      exact (hs.2.2 _ (List.mem_map_of_mem hc) _ (by simp)).le
    · rw [List.mem_singleton.1 hc]
  rw [hlcp]
  exact prefix_of_le_of_le (List.take_prefix ..) (take_lcpLen_isPrefix ..) hfirst hle

/-- The keys of cells that fit into a body are not longer than it. -/
lemma stored_lt_of_sum {plen : ℕ} (hsum : (cells.map (leafSuffixCellSize plen)).sum ≤ BODY_SIZE)
    {c : LeafCell} (hc : c ∈ cells) : c.key.length - plen < 2 ^ 64 := by
  have hle : leafSuffixCellSize plen c ≤ (cells.map (leafSuffixCellSize plen)).sum :=
    List.single_le_sum (fun _ _ => Nat.zero_le _) _ (List.mem_map_of_mem hc)
  rw [leafSuffixCellSize, storedCellSize] at hle
  rw [BODY_SIZE_eq] at hsum
  omega

lemma length_storedCells {pfx : Bytes} (hp : ∀ c ∈ cells, PayloadSized c.payload)
    (hk : ∀ c ∈ cells, c.key.length - pfx.length < 2 ^ 64) :
    (cells.map (storedCell pfx)).flatten.length
      = (cells.map (leafSuffixCellSize pfx.length)).sum := by
  rw [List.length_flatten, List.map_map]
  refine congrArg List.sum (List.map_congr_left fun c hc => ?_)
  have hlt : (c.key.drop pfx.length).length < 2 ^ 64 := by
    rw [List.length_drop]
    exact hk c hc
  rw [Function.comp_apply, storedCell, length_encodeLeafCell hlt (hp c hc), List.length_drop]
  rfl

/-- A prefix is only taken out where it is long, and never in the vector space. -/
def PrefixPays (compressed : Bool) (pfx : Bytes) : Prop :=
  compressed = true → LEAF_MIN_PREFIX ≤ pfx.length ∧ pfx.head? ≠ some 0x04

/-- An encoded body is laid out of the cells without a prefix of their keys. -/
lemma encodeLeaf_eq_layNode (hp : ∀ c ∈ cells, PayloadSized c.payload)
    (h : encodeLeaf cells BODY_SIZE = some body) : ∃ z pfx,
      body = layNode (leafHead z cells.length pfx) (cells.map (storedCell pfx)) BODY_SIZE ∧
      (leafHead z cells.length pfx).length + (cells.map (storedCell pfx)).flatten.length
        + 2 * (cells.map (storedCell pfx)).length ≤ BODY_SIZE ∧
      (z = false → pfx = []) ∧ (cells = [] → pfx = []) ∧
      ((cells.map LeafCell.key).Pairwise (· < ·) → ∀ c ∈ cells, pfx <+: c.key) ∧
      PrefixPays z pfx := by
  simp only [encodeLeaf] at h
  generalize hplen : (if 2 ≤ cells.length then keysLcp cells else 0) = plen at h
  split_ifs at h with hz hfit hfit
  · obtain ⟨hmin, hvector⟩ := hz
    rw [show LEAF_MIN_PREFIX = 6 from rfl] at hmin
    have htwo : 2 ≤ cells.length := by
      by_contra hlt
      rw [if_neg hlt] at hplen
      omega
    rw [if_pos htwo] at hplen
    subst hplen
    obtain ⟨first, rest, rfl⟩ := List.exists_cons_of_length_pos (l := cells) (by omega)
    simp only [List.head?_cons, Option.map_some, Option.getD_some] at h
    set pfx := first.key.take (keysLcp (first :: rest)) with hpfx
    have hle : keysLcp (first :: rest) ≤ first.key.length := by
      unfold keysLcp
      cases (first :: rest).getLast? <;> simp [lcpLen_le_left]
    have hlen : pfx.length = keysLcp (first :: rest) := by
      rw [hpfx, List.length_take, min_eq_left hle]
    rw [← hlen] at h hfit
    have hk (c : LeafCell) (hc : c ∈ first :: rest) : c.key.length - pfx.length < 2 ^ 64 :=
      stored_lt_of_sum (by omega) hc
    have hv : (putVarint pfx.length).length = varintLen pfx.length :=
      length_putVarint (by rw [BODY_SIZE_eq] at hfit; omega)
    cases h
    have hpays : PrefixPays true pfx := by
      refine fun _ => ⟨by rw [hlen]; exact hmin, fun hhead => hvector ?_⟩
      rw [hpfx, List.head?_take, if_neg (by omega)] at hhead
      exact hhead
    refine ⟨true, pfx, ?_, ?_, by simp, by simp, fun hs c hc => keysLcp_isPrefix hs (by simp) hc,
      hpays⟩
    · have hcells : (first :: rest).map (storedCell pfx) = (first :: rest).map fun c =>
          encodeLeafCell (c.key.drop pfx.length) c.payload := rfl
      simp only [leafHead, if_true, List.append_assoc, hcells]
    · rw [length_storedCells hp hk, List.length_map]
      simp only [leafHead, leafHeader, if_true, List.length_append, List.length_cons,
        List.length_nil, length_leBytes, hv] at hfit ⊢
      rw [show LEAF_HDR = 4 from rfl] at hfit
      omega
  · cases h
    have hk (c : LeafCell) (hc : c ∈ cells) : c.key.length - ([] : Bytes).length < 2 ^ 64 := by
      refine stored_lt_of_sum ?_ hc
      have hsum : (cells.map (leafSuffixCellSize 0)).sum = (cells.map leafCellSize).sum := rfl
      rw [List.length_nil, hsum]
      omega
    refine ⟨false, [], ?_, ?_, fun _ => rfl, fun _ => rfl, fun _ c _ => List.nil_prefix,
      fun hz => by cases hz⟩
    · have hcells : cells.map (storedCell []) = cells.map fun c => encodeLeafCell c.key c.payload :=
        rfl
      simp only [leafHead, Bool.false_eq_true, if_false, List.append_nil, hcells]
    · have hsize : (cells.map (storedCell [])).flatten.length = (cells.map leafCellSize).sum :=
        length_storedCells hp hk
      rw [hsize, List.length_map]
      rw [show LEAF_HDR = 4 from rfl] at hfit
      simp only [leafHead, leafHeader, Bool.false_eq_true, if_false, List.length_append,
        List.length_cons, List.length_nil, length_leBytes]
      omega

lemma length_encodeLeaf (hp : ∀ c ∈ cells, PayloadSized c.payload)
    (h : encodeLeaf cells BODY_SIZE = some body) : body.length = BODY_SIZE := by
  obtain ⟨z, pfx, rfl, hfit, -⟩ := encodeLeaf_eq_layNode hp h
  exact length_layNode hfit

/-- A body that was encoded holds the cells. -/
lemma leafBody_of_encodeLeaf (hkey : ∀ c ∈ cells, c.key ≠ [])
    (hp : ∀ c ∈ cells, PayloadSized c.payload)
    (hs : (cells.map LeafCell.key).Pairwise (· < ·))
    (h : encodeLeaf cells BODY_SIZE = some body) :
    ∃ z pfx, LeafBody z pfx cells body ∧ (cells = [] → pfx = []) ∧ PrefixPays z pfx := by
  obtain ⟨z, pfx, rfl, hfit, hplain, hnil, hshares, hpays⟩ := encodeLeaf_eq_layNode hp h
  exact ⟨z, pfx, ⟨layNode_layout hfit, hplain, hshares hs, hkey, hp, hs⟩, hnil, hpays⟩

/-- A body that was encoded is a leaf with the cells. -/
lemma isLeaf_of_encodeLeaf (hsz : ∀ c ∈ cells, CellSized c)
    (hs : (cells.map LeafCell.key).Pairwise (· < ·))
    (h : encodeLeaf cells BODY_SIZE = some body) : IsLeaf cells body := by
  obtain ⟨z, pfx, hbody, hnil, -⟩ := leafBody_of_encodeLeaf
    (fun c hc => List.length_pos_iff.1 (hsz c hc).key_pos) (fun c hc => (hsz c hc).payload) hs h
  refine ⟨z, pfx, hbody, ?_, hsz⟩
  cases cells with
  | nil =>
    rw [hnil rfl]
    exact Nat.zero_le _
  | cons c cells => exact (hbody.shares c (by simp)).length_le.trans (hsz c (by simp)).key_le

/-- A cell that is not too large to be kept inline fits into an empty leaf. -/
lemma encodeLeaf_single {c : LeafCell} (h : leafCellSize c ≤ MAX_INLINE_CELL) :
    ∃ body, encodeLeaf [c] BODY_SIZE = some body := by
  rw [show MAX_INLINE_CELL = 1280 from rfl] at h
  have hfit : ¬ LEAF_HDR + ([c].map leafCellSize).sum + 2 * [c].length > BODY_SIZE := by
    rw [BODY_SIZE_eq, show LEAF_HDR = 4 from rfl]
    simp
    omega
  have hz : ¬ LEAF_MIN_PREFIX ≤ 0 := by decide
  simp only [encodeLeaf, List.length_singleton, if_neg (show ¬ 2 ≤ 1 by decide), hz, false_and,
    if_false]
  exact ⟨_, if_neg hfit⟩

end Encode

end Node

end Arkeion
