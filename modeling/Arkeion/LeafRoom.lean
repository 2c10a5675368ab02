import Arkeion.AnyTree
import Arkeion.BtreeMap
import Mathlib.Data.Nat.Log

/-!
How many bytes a leaf takes. The cells of a page, and any part of them, fit into a page again when
they are encoded anew, whatever prefix was taken out of their keys before.
-/

namespace Arkeion

open Arkeion.Lib

namespace Node

/-! ### Sizes -/

lemma one_le_varintLen (v : ℕ) : 1 ≤ varintLen v := by
  rw [varintLen]
  omega

lemma varintLen_mono {v w : ℕ} (h : v ≤ w) : varintLen v ≤ varintLen w := by
  rw [varintLen, varintLen]
  have hlog : (if v = 0 then 0 else Nat.log2 v + 1) ≤ if w = 0 then 0 else Nat.log2 w + 1 := by
    split_ifs with hv hw hw
    · exact le_rfl
    · exact Nat.zero_le _
    · omega
    · rw [Nat.log2_eq_log_two, Nat.log2_eq_log_two]
      exact Nat.succ_le_succ (Nat.log_mono_right h)
  omega

lemma varintLen_le_two {v : ℕ} (h : v < 2 ^ 14) : varintLen v ≤ 2 :=
  (varintLen_mono (Nat.le_of_lt_succ h)).trans (by decide)

/-- The bytes that the cells take as a leaf, as `encode_leaf` counts them. -/
def leafBytes (cells : List LeafCell) : ℕ :=
  let n := cells.length
  let plen := if 2 ≤ n then keysLcp cells else 0
  let firstKey := (cells.head?.map LeafCell.key).getD []
  if LEAF_MIN_PREFIX ≤ plen ∧ ¬ firstKey.head? = some 0x04 then
    LEAF_HDR + (varintLen plen + plen + (cells.map (leafSuffixCellSize plen)).sum) + 2 * n
  else LEAF_HDR + (cells.map leafCellSize).sum + 2 * n

section Sizes
variable {cells sub : List LeafCell} {pfx : Bytes} {p q : ℕ} {z : Bool}

lemma isSome_encodeLeaf (cells : List LeafCell) (len : ℕ) :
    (encodeLeaf cells len).isSome ↔ leafBytes cells ≤ len := by
  simp only [encodeLeaf, leafBytes]
  generalize (if 2 ≤ cells.length then keysLcp cells else 0) = plen
  split_ifs with hz hfit hfit <;> simp <;> omega

lemma leafSuffixCellSize_le {c : LeafCell} (hpq : p ≤ q) (hq : q ≤ c.key.length) :
    leafSuffixCellSize q c + (q - p) ≤ leafSuffixCellSize p c := by
  have hvar : varintLen (c.key.length - q) ≤ varintLen (c.key.length - p) :=
    varintLen_mono (by omega)
  simp only [leafSuffixCellSize, storedCellSize]
  omega

/-- A longer prefix saves its bytes in every cell. -/
lemma sum_leafSuffixCellSize_le (hpq : p ≤ q) (hq : ∀ c ∈ cells, q ≤ c.key.length) :
    (cells.map (leafSuffixCellSize q)).sum + cells.length * (q - p)
      ≤ (cells.map (leafSuffixCellSize p)).sum := by
  induction cells with
  | nil => simp
  | cons c cells ih =>
    have hc := leafSuffixCellSize_le hpq (hq c (by simp))
    have hrest := ih fun d hd => hq d (by simp [hd])
    simp only [List.map_cons, List.sum_cons, List.length_cons, Nat.succ_mul]
    omega

lemma sum_size_le (size : LeafCell → ℕ) (h : sub.Sublist cells) :
    (sub.map size).sum ≤ (cells.map size).sum :=
  (h.map size).sum_le_sum fun _ _ => Nat.zero_le _

lemma le_lcpLen {a b : Bytes} (ha : pfx <+: a) (hb : pfx <+: b) : pfx.length ≤ lcpLen a b := by
  induction pfx generalizing a b with
  | nil => exact Nat.zero_le _
  | cons x pfx ih =>
    obtain ⟨a, rfl⟩ := ha
    obtain ⟨b, rfl⟩ := hb
    simpa [lcpLen] using ih (List.prefix_append pfx a) (List.prefix_append pfx b)

/-- The bytes in front of the cells. -/
def headBytes (compressed : Bool) (pfx : Bytes) : ℕ :=
  if compressed then LEAF_HDR + varintLen pfx.length + pfx.length else LEAF_HDR

/-- Encoding anew takes no more than a page with some prefix taken out. -/
lemma leafBytes_le (htwo : 2 ≤ cells.length) (hs : (cells.map LeafCell.key).Pairwise (· < ·))
    (hshares : ∀ c ∈ cells, pfx <+: c.key) (hplain : z = false → pfx = []) (hpays : PrefixPays z pfx)
    (hkey : ∀ c ∈ cells, c.key.length < 2 ^ 14) :
    leafBytes cells ≤ headBytes z pfx + (cells.map (leafSuffixCellSize pfx.length)).sum
      + 2 * cells.length := by
  obtain ⟨first, rest, rfl⟩ := List.exists_cons_of_length_pos (l := cells) (by omega)
  set last := (first :: rest).getLast (List.cons_ne_nil first rest) with hlast
  have hlcp : keysLcp (first :: rest) = lcpLen first.key last.key := by
    simp only [keysLcp, List.head?_cons, List.getLast?_eq_getLast_of_ne_nil (List.cons_ne_nil _ _),
      ← hlast]
  have hge : pfx.length ≤ keysLcp (first :: rest) := by
    rw [hlcp]
    exact le_lcpLen (hshares first (by simp)) (hshares last (List.getLast_mem _))
  have hle : ∀ c ∈ first :: rest, keysLcp (first :: rest) ≤ c.key.length := by
    intro c hc
    have hpre := (keysLcp_isPrefix hs rfl hc).length_le
    rw [List.length_take, hlcp] at hpre
    have := lcpLen_le_left first.key last.key
    omega
  have hsum := sum_leafSuffixCellSize_le hge hle
  have hmul : 2 * (keysLcp (first :: rest) - pfx.length)
      ≤ (first :: rest).length * (keysLcp (first :: rest) - pfx.length) :=
    Nat.mul_le_mul_right _ htwo
  have hq : varintLen (keysLcp (first :: rest)) ≤ 2 :=
    varintLen_le_two ((hle first (by simp)).trans_lt (hkey first (by simp)))
  have hone := one_le_varintLen pfx.length
  simp only [leafBytes, if_pos htwo, List.head?_cons, Option.map_some, Option.getD_some, headBytes]
  generalize keysLcp (first :: rest) = q at *
  rw [show LEAF_MIN_PREFIX = 6 from rfl]
  cases z with
  | false =>
    obtain rfl := hplain rfl
    have hplainSize : ((first :: rest).map (leafSuffixCellSize ([] : Bytes).length)).sum
        = ((first :: rest).map leafCellSize).sum := rfl
    rw [hplainSize] at hsum ⊢
    rw [List.length_nil, Nat.sub_zero] at hsum hmul
    rw [if_neg Bool.false_ne_true]
    split_ifs with hz
    · omega
    · omega
  | true =>
    obtain ⟨hmin, hvector⟩ := hpays rfl
    rw [show LEAF_MIN_PREFIX = 6 from rfl] at hmin
    have hhead : first.key.head? = pfx.head? := by
      obtain ⟨x, hx⟩ := hshares first (by simp)
      rw [← hx, List.head?_append_of_ne_nil _ (List.length_pos_iff.1 (by omega))]
    rw [if_pos ⟨by omega, by rwa [hhead]⟩, if_pos rfl]
    rcases hge.eq_or_lt with heq | hlt
    · rw [heq] at hsum ⊢
      omega
    · omega

lemma leafBytes_le_plain (hs : (cells.map LeafCell.key).Pairwise (· < ·))
    (hkey : ∀ c ∈ cells, c.key.length < 2 ^ 14) :
    leafBytes cells ≤ LEAF_HDR + (cells.map leafCellSize).sum + 2 * cells.length := by
  rcases Nat.lt_or_ge cells.length 2 with hlt | hge
  · have hshort : ¬ LEAF_MIN_PREFIX ≤ 0 := by decide
    simp only [leafBytes, if_neg (not_le.2 hlt), hshort, false_and, if_false, le_refl]
  · have hle := @leafBytes_le cells [] false hge hs (fun _ _ => List.nil_prefix) (fun _ => rfl)
      (fun h => absurd h Bool.false_ne_true) hkey
    exact hle

lemma key_lt_of_size {c : LeafCell} (h : leafCellSize c ≤ MAX_INLINE_CELL) :
    c.key.length < 2 ^ 14 := by
  rw [leafCellSize, storedCellSize, show MAX_INLINE_CELL = 1280 from rfl] at h
  omega

lemma leafBytes_single {c : LeafCell} (h : leafCellSize c ≤ MAX_INLINE_CELL) :
    leafBytes [c] ≤ BODY_SIZE := by
  obtain ⟨b, hb⟩ := encodeLeaf_single h
  rw [← isSome_encodeLeaf, hb]
  rfl

end Sizes

/-! ### Parts of a page -/

section Page
variable {cells sub : List LeafCell} {pfx body : Bytes} {z : Bool}

namespace LeafBody

lemma bytes_le (h : LeafBody z pfx cells body) :
    headBytes z pfx + (cells.map (leafSuffixCellSize pfx.length)).sum + 2 * cells.length
      ≤ BODY_SIZE := by
  have hroom := h.layout.room
  have hkey : ∀ c ∈ cells, c.key.length - pfx.length < 2 ^ 64 := fun c hc => by
    have hlt := h.stored_lt hc
    rw [List.length_drop] at hlt
    omega
  have hpfx := h.pfx_lt
  have hhead : (leafHead z cells.length pfx).length = headBytes z pfx := by
    rw [leafHead_eq, headBytes]
    cases z with
    | false => simp [LEAF_HDR]
    | true =>
      simp only [if_true, List.length_append, List.length_cons, List.length_nil, length_leBytes,
        length_putVarint (show pfx.length < 2 ^ 64 by omega), LEAF_HDR]
      omega
  rw [hhead, length_storedCells h.payload hkey, List.length_map] at hroom
  exact hroom

/-- What a leaf holds, or a part of it, fits into a leaf. -/
lemma leafBytes_sublist (h : LeafBody z pfx cells body) (hpays : PrefixPays z pfx)
    (hsize : ∀ c ∈ cells, leafCellSize c ≤ MAX_INLINE_CELL) (hsub : sub.Sublist cells) :
    leafBytes sub ≤ BODY_SIZE := by
  have hmem : ∀ c ∈ sub, c ∈ cells := fun c hc => hsub.subset hc
  match sub, hsub with
  | [], _ => decide
  | [c], _ => exact leafBytes_single (hsize c (hmem c (by simp)))
  | c :: d :: rest, hsub =>
    have hle := leafBytes_le (show 2 ≤ (c :: d :: rest).length by simp)
      (h.sorted.sublist (hsub.map _)) (fun e he => h.shares e (hmem e he)) h.plain hpays
      fun e he => key_lt_of_size (hsize e (hmem e he))
    have hsum := sum_size_le (leafSuffixCellSize pfx.length) hsub
    have hlen := hsub.length_le
    have hpage := h.bytes_le
    omega

end LeafBody

/-- A page as insertions and deletions write them: a leaf has a prefix taken out where that pays. -/
structure PageWritten (b : Bytes) : Prop where
  length : b.length = BODY_SIZE
  leaf : nodeType b = TYPE_LEAF → ∃ z pfx cells, LeafBody z pfx cells b ∧ PrefixPays z pfx

/-- Cells in order. -/
structure CellsInOrder (cells : List LeafCell) : Prop where
  keyed : ∀ c ∈ cells, c.key ≠ []
  payload : ∀ c ∈ cells, PayloadSized c.payload
  sorted : (cells.map LeafCell.key).Pairwise (· < ·)

lemma CellsInOrder.nil : CellsInOrder [] :=
  ⟨List.forall_mem_nil _, List.forall_mem_nil _, .nil⟩

lemma CellsInOrder.middle {pre post : List LeafCell} {c : LeafCell} (hpre : CellsInOrder pre)
    (hpost : CellsInOrder post) (hkey : c.key ≠ []) (hp : PayloadSized c.payload)
    (hlt : ∀ d ∈ pre, d.key < c.key) (hgt : ∀ d ∈ post, c.key < d.key) :
    CellsInOrder (pre ++ c :: post) where
  keyed d hd := by
    rcases List.mem_append.1 hd with hd | hd
    · exact hpre.keyed d hd
    · rcases List.mem_cons.1 hd with rfl | hd
      · exact hkey
      · exact hpost.keyed d hd
  payload d hd := by
    rcases List.mem_append.1 hd with hd | hd
    · exact hpre.payload d hd
    · rcases List.mem_cons.1 hd with rfl | hd
      · exact hp
      · exact hpost.payload d hd
  sorted := by
    rw [List.map_append, List.map_cons, List.pairwise_append, List.pairwise_cons]
    refine ⟨hpre.sorted, ⟨List.forall_mem_map.2 hgt, hpost.sorted⟩, ?_⟩
    refine List.forall_mem_map.2 fun d hd x hx => ?_
    rcases List.mem_cons.1 hx with rfl | hx
    · exact hlt d hd
    · obtain ⟨e, he, rfl⟩ := List.mem_map.1 hx
      exact (hlt d hd).trans (hgt e he)

lemma CellsInOrder.sublist (h : CellsInOrder cells) (hsub : sub.Sublist cells) :
    CellsInOrder sub :=
  ⟨fun c hc => h.keyed c (hsub.subset hc), fun c hc => h.payload c (hsub.subset hc),
    h.sorted.sublist (hsub.map _)⟩

end Page

end Node

namespace Btree

open NodeSource NodeStore Node

/-- The cells below the key, the new one, and the cells above. -/
lemma putCell_eq {σ : Type} [NodeStore σ] {n : ℕ} {s s' : σ} {cells cells' : List LeafCell}
    {key : Bytes} {payload : Payload} {appended : Bool}
    (hs : (cells.map LeafCell.key).Pairwise (· < ·))
    (hput : putCell n s cells key payload = .ok (cells', appended, s')) :
    ∃ pre old post, cells = pre ++ old ++ post ∧ (∀ c ∈ pre, c.key < key) ∧
      (∀ c ∈ post, key < c.key) ∧ (∀ c ∈ old, c.key = key) ∧ old.length ≤ 1 ∧
      cells' = pre ++ ⟨key, payload⟩ :: post ∧ (appended = true ↔ old = [] ∧ post = []) := by
  obtain ⟨pre, post, rfl, hpre, hcase⟩ := binarySearch_cases hs key
  rw [putCell] at hput
  rcases hcase with ⟨c, rest, rfl, rfl, hrest, hx⟩ | ⟨hpost, hx⟩
  · rw [hx] at hput
    obtain ⟨s₁, -, hput⟩ := bind_eq_ok.1 hput
    cases hput
    exact ⟨pre, [c], rest, by simp, hpre, hrest, by simp, le_rfl, modify_length .., by simp⟩
  · rw [hx] at hput
    cases hput
    refine ⟨pre, [], post, by simp, hpre, hpost, List.forall_mem_nil _, Nat.zero_le _,
      insertIdx_length .., ?_⟩
    rw [decide_eq_true_eq, List.length_append]
    constructor
    · intro h
      exact ⟨rfl, List.length_eq_zero_iff.1 (by omega)⟩
    · rintro ⟨-, rfl⟩
      rfl

/-- Insertions and deletions write such pages. -/
lemma pageRule_written : PageRule PageWritten CellsInOrder
    fun key p => key ≠ [] ∧ PayloadSized p where
  length h := h.length
  parse {page b cells} h hp := by
    have ht : nodeType b = TYPE_LEAF := by
      obtain ⟨_, ht, -⟩ := bind_eq_ok.1 hp
      exact require_eq_ok.1 ht
    obtain ⟨z, pfx, cells', hbody, -⟩ := h.leaf ht
    rw [hbody.parseLeaf_eq] at hp
    cases hp
    exact ⟨hbody.keyed, hbody.payload, hbody.sorted⟩
  single h := CellsInOrder.nil.middle .nil h.1 h.2 (List.forall_mem_nil _) (List.forall_mem_nil _)
  insert {cells key p i} h hp hx := by
    obtain ⟨pre, post, rfl, hpre, hcase⟩ := binarySearch_cases h.sorted key
    rcases hcase with ⟨-, -, -, -, -, hx'⟩ | ⟨hpost, hx'⟩
    · rw [hx] at hx'
      cases hx'
    · rw [hx] at hx'
      cases hx'
      rw [insertIdx_length]
      exact (h.sublist (List.sublist_append_left ..)).middle (h.sublist (List.sublist_append_right ..))
        hp.1 hp.2 hpre hpost
  modify {cells key p i} h hp hx := by
    obtain ⟨pre, post, rfl, hpre, hcase⟩ := binarySearch_cases h.sorted key
    rcases hcase with ⟨c, rest, rfl, rfl, hrest, hx'⟩ | ⟨-, hx'⟩
    · rw [hx] at hx'
      cases hx'
      rw [modify_length]
      exact (h.sublist (List.sublist_append_left ..)).middle
        (h.sublist ((List.sublist_cons_self ..).trans (List.sublist_append_right ..))) hp.1 hp.2 hpre
        hrest
    · rw [hx] at hx'
      cases hx'
  sublist h hsub := h.sublist hsub
  leaf {cells b} h he := by
    obtain ⟨z, pfx, hbody, -, hpays⟩ := leafBody_of_encodeLeaf h.keyed h.payload h.sorted he
    exact ⟨hbody.layout.length, fun _ => ⟨z, pfx, cells, hbody, hpays⟩⟩
  inner {cells r b} he := by
    refine ⟨length_encodeInner he, fun ht => ?_⟩
    simp only [encodeInner] at he
    split_ifs at he
    cases he
    exact absurd ht (show TYPE_INNER ≠ TYPE_LEAF by decide)
  overflow {chunk next} hc := by
    refine ⟨length_encodeOverflow hc, fun ht => absurd ht ?_⟩
    exact (by decide : TYPE_OVERFLOW ≠ TYPE_LEAF)
  append {page b key p b' fin} h hp ha := by
    have ht : nodeType b = TYPE_LEAF := by
      obtain ⟨_, ht, -⟩ := bind_eq_ok.1 ha
      exact require_eq_ok.1 ht
    obtain ⟨z, pfx, cells, hbody, hpays⟩ := h.leaf ht
    rcases hbody.leafAppend_body page (c := ⟨key, p⟩) hp.1 hp.2 with hnone | ⟨body', hsome, hbody', -⟩
    · rw [hnone] at ha
      cases ha
    · rw [hsome] at ha
      cases ha
      exact ⟨hbody'.layout.length, fun _ => ⟨z, pfx, _, hbody', hpays⟩⟩

/-! ### A store in memory -/

namespace CowMemStore

/-- All pages are such pages. -/
def Written (s : CowMemStore) : Prop := ∀ id b, s.pages id = some b → PageWritten b

variable {s s' : CowMemStore} {n root root' : ℕ} {key value : Bytes}

lemma Written.insertPage (h : s.Written) {id : ℕ} {c : Option Bytes} (hc : ∀ b ∈ c, PageWritten b) :
    (s.insertPage id c).Written := by
  intro j b hb
  rcases eq_or_ne j id with rfl | hne
  · rw [body_insertPage_self] at hb
    exact hc b hb
  · rw [body_insertPage_ne c hne] at hb
    exact h j b hb

lemma pageWritten_zeros : PageWritten (List.replicate BODY_SIZE 0) :=
  ⟨List.length_replicate, fun ht => absurd ht (show (0 : UInt8) ≠ TYPE_LEAF by decide)⟩

lemma Written.alloc {id : ℕ} (h : s.Written) (ha : s.alloc = .ok (id, s')) :
    s'.Written ∧ id < 2 ^ 64 := by
  obtain ⟨_, hlt, ha⟩ := bind_eq_ok.1 ha
  have hlt := require_eq_ok.1 hlt
  cases ha
  refine ⟨?_, by omega⟩
  have h' : ({ s with next := s.next + 1 } : CowMemStore).Written := h
  exact h'.insertPage fun b hb => by
    cases hb
    exact pageWritten_zeros

lemma guarded : Guarded Written ∅ PageWritten CellsInOrder fun key p => key ≠ [] ∧ PayloadSized p where
  rule := pageRule_written
  page h hb := h _ _ (okOr_eq_ok.1 hb)
  lent h hb := h _ _ (okOr_eq_ok.1 hb)
  alloc h ha := ⟨(h.alloc ha).1, fun hid => hid, (h.alloc ha).2⟩
  makeDirty {s i id s'} h hm := by
    refine ⟨?_, fun hid => hid⟩
    change s.makeDirty i = _ at hm
    rw [CowMemStore.makeDirty] at hm
    split_ifs at hm
    · cases hm
      exact h
    · obtain ⟨content, hcontent, hm⟩ := bind_eq_ok.1 hm
      obtain ⟨⟨new, s₁⟩, ha, hm⟩ := bind_eq_ok.1 hm
      cases hm
      exact (h.alloc ha).1.insertPage fun b hb => by
        cases hb
        exact h _ _ (okOr_eq_ok.1 hcontent)
  setBody h _ hb' := h.insertPage fun b hb => by
    cases hb
    exact hb'
  free {s} id h := by
    change CowMemStore.Written (if s.frozen_below ≤ id then s.insertPage id none else s)
    split_ifs
    · exact h.insertPage fun b hb => by cases hb
    · exact h
  child _ hid := absurd hid fun hid => hid

lemma Written.insert (h : s.Written) (hop : (MapOp.insert key value).Ok)
    (hrun : Btree.insert n s root key value = .ok (root', s')) : s'.Written := by
  obtain ⟨hpos, -, hvalue⟩ := hop
  obtain ⟨-, -, hrun⟩ := bind_eq_ok.1 hrun
  exact (guarded.insertDown h (fun _ h => h) hvalue
    (fun p hp => ⟨List.length_pos_iff.1 hpos, hp⟩) hrun).1

/-- Every run from a new store writes such pages only. -/
lemma Written.runOps {ops : List MapOp} {r : List Bool × ℕ × CowMemStore} (h : s.Written)
    (hops : ∀ op ∈ ops, op.Ok) (hrun : Btree.runOps n ops s root = .ok r) : r.2.2.Written := by
  induction ops generalizing s root r with
  | nil =>
    cases hrun
    exact h
  | cons op ops ih =>
    obtain ⟨hop, hrest⟩ := List.forall_mem_cons.1 hops
    cases op with
    | insert key value =>
      obtain ⟨⟨root₁, s₁⟩, hins, hrun⟩ := bind_eq_ok.1 hrun
      have h₁ : s₁.Written := h.insert hop hins
      exact ih h₁ hrest hrun
    | delete key =>
      obtain ⟨⟨root₁, existed, s₁⟩, hdel, hrun⟩ := bind_eq_ok.1 hrun
      obtain ⟨r₁, hrun₁, hrun⟩ := bind_eq_ok.1 hrun
      cases hrun
      have h₁ : s₁.Written := guarded.delete h hdel
      have h₂ : r₁.2.2.Written := ih h₁ hrest hrun₁
      exact h₂

lemma written_new : new.Written := fun _ _ hb => by cases hb

end CowMemStore

end Btree

end Arkeion
