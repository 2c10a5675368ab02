import Arkeion.AppendCursor
import Arkeion.LeafRoom
import Mathlib.Algebra.Group.Action.Defs

/-!
Whether the halves of a split fit. The halves of an inner node always do. A leaf is cut where half
of the sizes is reached, but these are not the sizes the halves are encoded with: the common prefix
is counted in every cell and the pointers in none. So the half that takes the new cell may not fit.
-/

namespace Arkeion

open Arkeion.Lib

namespace Btree

open NodeSource NodeStore Node

/-! ### The middle cell -/

section Middle
variable {α : Type} {size : α → ℕ} {l r cells : List α} {c : α}

/-- The cell with which half of the sizes is reached. -/
structure Middle (size : α → ℕ) (l : List α) (c : α) (r : List α) : Prop where
  before : 2 * (l.map size).sum < ((l ++ c :: r).map size).sum
  reached : ((l ++ c :: r).map size).sum ≤ 2 * ((l.map size).sum + size c)

lemma exists_middle_of {total acc : ℕ} (hacc : 2 * acc < total)
    (h : total ≤ 2 * (acc + (cells.map size).sum)) : ∃ l c r, cells = l ++ c :: r ∧
      2 * (acc + (l.map size).sum) < total ∧ total ≤ 2 * (acc + (l.map size).sum + size c) := by
  induction cells generalizing acc with
  | nil =>
    rw [List.map_nil, List.sum_nil] at h
    omega
  | cons a cells ih =>
    rw [List.map_cons, List.sum_cons, ← Nat.add_assoc] at h
    by_cases ha : total ≤ 2 * (acc + size a)
    · exact ⟨[], a, cells, rfl, by simpa using hacc, by simpa using ha⟩
    · obtain ⟨l, c, r, rfl, hl, hc⟩ := ih (not_le.1 ha) h
      refine ⟨a :: l, c, r, rfl, ?_, ?_⟩
      · rw [List.map_cons, List.sum_cons, ← Nat.add_assoc]
        exact hl
      · rw [List.map_cons, List.sum_cons, ← Nat.add_assoc]
        exact hc

lemma exists_middle (h : 0 < (cells.map size).sum) :
    ∃ l c r, cells = l ++ c :: r ∧ Middle size l c r := by
  obtain ⟨l, c, r, rfl, hl, hc⟩ :=
    @exists_middle_of α size cells (cells.map size).sum 0 (by omega) (by omega)
  rw [Nat.zero_add] at hl hc
  exact ⟨l, c, r, rfl, hl, hc⟩

lemma splitPointAux_middle {total n i acc : ℕ} (hl : 2 * (acc + (l.map size).sum) < total)
    (hc : total ≤ 2 * (acc + (l.map size).sum + size c)) :
    splitPointAux size total n i acc (l ++ c :: r) = min (i + l.length + 1) (n - 1) := by
  induction l generalizing i acc with
  | nil =>
    rw [List.nil_append, splitPointAux, if_pos]
    · rfl
    · simp only [List.map_nil, List.sum_nil] at hc
      omega
  | cons a l ih =>
    rw [List.map_cons, List.sum_cons, ← Nat.add_assoc] at hl hc
    rw [List.cons_append, splitPointAux, if_neg (by omega), ih hl hc, List.length_cons]
    congr 1
    omega

/-- The cut is behind the middle cell, or before it where it is the last one. -/
lemma splitPoint_eq (h : Middle size l c r) :
    splitPoint size (l ++ c :: r) = if r = [] then l.length else l.length + 1 := by
  have hl := h.before
  have hc := h.reached
  rw [splitPoint, splitPointAux_middle (by omega) (by omega), List.length_append, List.length_cons]
  cases r with
  | nil => simp
  | cons d r =>
    rw [if_neg (List.cons_ne_nil d r), List.length_cons]
    omega

/-- There is one such cell. -/
lemma Middle.unique {l' r' : List α} {c' : α} (h : Middle size l c r) (h' : Middle size l' c' r')
    (heq : l ++ c :: r = l' ++ c' :: r') : l = l' ∧ c = c' ∧ r = r' := by
  have hle {l l' r r' : List α} {c c' : α} (h : Middle size l c r) (h' : Middle size l' c' r')
      (heq : l ++ c :: r = l' ++ c' :: r') : l'.length ≤ l.length := by
    by_contra hlt
    have htake : (l ++ [c]) <+: l' := by
      refine List.prefix_of_prefix_length_le (⟨r, (List.append_cons l c r).symm⟩) ?_ ?_
      · rw [heq]
        exact List.prefix_append _ _
      · rw [List.length_append, List.length_singleton]
        omega
    obtain ⟨x, rfl⟩ := htake
    have hbefore := h'.before
    have hreached := h.reached
    rw [← heq] at hbefore
    rw [List.map_append, List.map_append, List.sum_append, List.sum_append, List.map_singleton,
      List.sum_singleton] at hbefore
    omega
  have hlen : l.length = l'.length := le_antisymm (hle h' h heq.symm) (hle h h' heq)
  obtain ⟨hl, hcr⟩ := List.append_inj heq hlen
  obtain ⟨hc, hr⟩ := List.cons.inj hcr
  exact ⟨hl, hc, hr⟩

lemma sum_middle (l r : List α) (c : α) : ((l ++ c :: r).map size).sum
    = (l.map size).sum + size c + (r.map size).sum := by
  rw [List.map_append, List.sum_append, List.map_cons, List.sum_cons, Nat.add_assoc]

/-- So many cells of at least a size take at least so much. -/
lemma length_mul_le {k : ℕ} (h : ∀ c ∈ cells, k ≤ size c) :
    cells.length * k ≤ (cells.map size).sum := by
  have hle := List.card_nsmul_le_sum (cells.map size) k (List.forall_mem_map.2 h)
  rwa [List.length_map, smul_eq_mul] at hle

end Middle

/-! ### Inner nodes -/

section Inner
variable {cells : List InnerCell} {r : ℕ}

/-- Both halves of an inner node fit; the cell between goes up. -/
def InnerSplits (cells : List InnerCell) (rightmost : ℕ) : Prop :=
  let sp := splitPoint innerCellSize cells
  ∃ c, cells[sp]? = some c ∧ (encodeInner (cells.drop (sp + 1)) rightmost BODY_SIZE).isSome ∧
    (encodeInner (cells.take sp) c.child BODY_SIZE).isSome

def innerBytes (cells : List InnerCell) : ℕ :=
  INNER_HDR + (cells.map innerCellSize).sum + 2 * cells.length

lemma isSome_encodeInner (cells : List InnerCell) (r len : ℕ) :
    (encodeInner cells r len).isSome ↔ innerBytes cells ≤ len := by
  simp only [encodeInner, innerBytes]
  split_ifs with hfit <;> simp <;> omega

/-- Cells of a page and one more can be cut into halves that fit. -/
lemma innerSplits_of_bytes (hne : cells ≠ []) (hkey : ∀ c ∈ cells, 0 < c.key.length)
    (hle : ∀ c ∈ cells, innerCellSize c ≤ 1034) (hbytes : innerBytes cells ≤ BODY_SIZE + 1036) :
    InnerSplits cells r := by
  have hten : ∀ c ∈ cells, 10 ≤ innerCellSize c := by
    intro c hc
    have := hkey c hc
    have := one_le_varintLen c.key.length
    rw [innerCellSize]
    omega
  have hpos : 0 < (cells.map innerCellSize).sum := by
    have := length_mul_le hten
    have := List.length_pos_iff.2 hne
    omega
  obtain ⟨l, c, rest, rfl, hm⟩ := exists_middle hpos
  have hl := hm.before
  have hc := hm.reached
  have hleft := length_mul_le fun d (hd : d ∈ l) => hten d (by simp [hd])
  have hright := length_mul_le fun d (hd : d ∈ rest) => hten d (by simp [hd])
  have hmiddle := hle c (by simp)
  rw [innerBytes, List.length_append, List.length_cons] at hbytes
  rw [sum_middle] at hl hc hbytes
  rw [BODY_SIZE_eq, show INNER_HDR = 12 from rfl] at hbytes
  simp only [InnerSplits, splitPoint_eq hm, isSome_encodeInner, innerBytes]
  rw [BODY_SIZE_eq, show INNER_HDR = 12 from rfl]
  by_cases hrest : rest = []
  · subst hrest
    simp only [if_true]
    refine ⟨c, by simp, ?_, ?_⟩
    · simp
    · simp only [List.take_left', List.map_nil, List.sum_nil] at *
      omega
  · rw [if_neg hrest]
    obtain ⟨d, rest, rfl⟩ := List.exists_cons_of_ne_nil hrest
    have htake : (l ++ c :: d :: rest).take (l.length + 1) = l ++ [c] := by
      rw [List.take_append, List.take_of_length_le (Nat.le_succ _), Nat.add_sub_cancel_left]
      rfl
    have hdrop : (l ++ c :: d :: rest).drop (l.length + 1 + 1) = rest := by
      rw [List.drop_append, List.drop_of_length_le (by omega),
        show l.length + 1 + 1 - l.length = 2 by omega]
      rfl
    refine ⟨d, by simp, ?_, ?_⟩
    · rw [hdrop]
      simp only [List.map_cons, List.sum_cons, List.length_cons] at *
      omega
    · rw [htake]
      simp only [List.map_append, List.map_cons, List.map_nil, List.sum_append, List.sum_cons,
        List.sum_nil, List.length_append, List.length_cons, List.length_nil] at *
      omega

lemma innerBytes_le {b : Bytes} (h : IsInner cells r b) : innerBytes cells ≤ BODY_SIZE := by
  have hroom := h.layout.room
  have hkey : ∀ c ∈ cells, c.key.length < 2 ^ 64 := fun c hc =>
    (h.sized c hc).key_le.trans_lt (by decide)
  rw [InnerBody.length_header, length_encodeInnerCells hkey, List.length_map] at hroom
  exact hroom

lemma innerCellSize_le {c : InnerCell} (h : c.key.length ≤ MAX_KEY_LEN) :
    innerCellSize c ≤ 1034 := by
  rw [show MAX_KEY_LEN = 1024 from rfl] at h
  have hvar := @varintLen_le_two c.key.length (by omega)
  rw [innerCellSize]
  omega

/-- An inner node, with a child in place of another and a separator more at most, has halves that
fit. -/
lemma innerSplits_placeChild {b key : Bytes} {cid : ℕ} {split : Option (Bytes × ℕ)}
    (h : IsInner cells r b) (hkey : ∀ x ∈ split, 0 < x.1.length ∧ x.1.length ≤ MAX_KEY_LEN)
    (hover : encodeInner (placeChild cells r key cid split).1 (placeChild cells r key cid split).2
      BODY_SIZE = none) :
    InnerSplits (placeChild cells r key cid split).1 (placeChild cells r key cid split).2 := by
  obtain ⟨pre, post, ha⟩ := exists_around h.sorted key
  have hbytes := innerBytes_le h
  rw [ha.placeChild_eq] at hover ⊢
  dsimp only at hover ⊢
  have hpre : ∀ c ∈ pre, 0 < c.key.length ∧ c.key.length ≤ MAX_KEY_LEN := fun c hc =>
    have hs := h.sized c (by simp [ha.eq, hc])
    ⟨hs.key_pos, hs.key_le⟩
  have hpost : ∀ c ∈ post, 0 < c.key.length ∧ c.key.length ≤ MAX_KEY_LEN := fun c hc =>
    have hs := h.sized c (by simp [ha.eq, hc])
    ⟨hs.key_pos, hs.key_le⟩
  have hne : pre ++ placedPost cid split post ≠ [] := by
    intro hnil
    rw [hnil] at hover
    simp [encodeInner, INNER_HDR, BODY_SIZE_eq] at hover
  have hkeys : ∀ c ∈ pre ++ placedPost cid split post,
      0 < c.key.length ∧ c.key.length ≤ MAX_KEY_LEN := by
    intro c hc
    rcases List.mem_append.1 hc with hc | hc
    · exact hpre c hc
    · rcases split with _ | ⟨sep, right⟩ <;> cases post <;>
        simp only [placedPost, List.mem_cons, List.not_mem_nil, or_false, Option.mem_some_iff,
          forall_eq'] at hc hkey hpost <;> grind
  refine innerSplits_of_bytes hne (fun c hc => (hkeys c hc).1)
    (fun c hc => innerCellSize_le (hkeys c hc).2) ?_
  rw [innerBytes, ha.eq, BODY_SIZE_eq] at hbytes
  rw [innerBytes, BODY_SIZE_eq]
  have hsep : ∀ x ∈ split, innerCellSize ⟨x.1, cid⟩ ≤ 1034 := fun x hx =>
    innerCellSize_le (hkey x hx).2
  rcases split with _ | ⟨sep, right⟩ <;> cases post <;>
    simp only [placedPost, List.map_append, List.map_cons, List.map_nil, List.sum_append,
      List.sum_cons, List.sum_nil, List.length_append, List.length_cons, List.length_nil,
      innerCellSize, Option.mem_some_iff, forall_eq'] at hbytes hsep ⊢ <;> omega

end Inner

/-! ### Leaves -/

section Leaf
variable {cells cells' : List LeafCell} {key : Bytes} {payload : Payload} {appended : Bool}

/-- The cut of an overfull leaf leaves two halves, and both fit. -/
def SplitsWell (cells : List LeafCell) (appended : Bool) : Prop :=
  let sp := if appended then cells.length - 1 else splitPoint leafCellSize cells
  0 < sp ∧ sp < cells.length ∧ (encodeLeaf (cells.drop sp) BODY_SIZE).isSome ∧
    (encodeLeaf (cells.take sp) BODY_SIZE).isSome

instance (cells : List LeafCell) (appended : Bool) : Decidable (SplitsWell cells appended) :=
  inferInstanceAs (Decidable (_ ∧ _ ∧ _ ∧ _))

/-- The cells with one more, in place of the one with the same key. -/
def cellsWith (cells : List LeafCell) (c : LeafCell) : List LeafCell :=
  (cells.filter fun d => d.key < c.key) ++ c :: cells.filter fun d => c.key < d.key

/-- The cell is the last one, or the half it falls into fits where the cells are cut behind the
middle one. Nothing is asked where the middle one is the last. -/
def NewHalfFits (cells : List LeafCell) (new : LeafCell) : Prop :=
  (∀ c ∈ cells, c.key < new.key) ∨ ∀ l c r, l ++ c :: r = cellsWith cells new →
    Middle leafCellSize l c r → r ≠ [] →
      leafBytes (if new.key ≤ c.key then l ++ [c] else r) ≤ BODY_SIZE

lemma cellsWith_eq {pre old post : List LeafCell} {c : LeafCell} (hpre : ∀ d ∈ pre, d.key < c.key)
    (hpost : ∀ d ∈ post, c.key < d.key) (hold : ∀ d ∈ old, d.key = c.key) :
    cellsWith (pre ++ old ++ post) c = pre ++ c :: post := by
  have hlow : (pre ++ old ++ post).filter (fun d => d.key < c.key) = pre := by
    have h₁ : pre.filter (fun d => d.key < c.key) = pre :=
      List.filter_eq_self.2 (by simpa using hpre)
    have h₂ : old.filter (fun d => d.key < c.key) = [] :=
      List.filter_eq_nil_iff.2 (by simpa using fun d hd => (hold d hd).ge)
    have h₃ : post.filter (fun d => d.key < c.key) = [] :=
      List.filter_eq_nil_iff.2 (by simpa using fun d hd => (hpost d hd).le)
    rw [List.filter_append, List.filter_append, h₁, h₂, h₃, List.append_nil, List.append_nil]
  have hhigh : (pre ++ old ++ post).filter (fun d => c.key < d.key) = post := by
    have h₁ : pre.filter (fun d => c.key < d.key) = [] :=
      List.filter_eq_nil_iff.2 (by simpa using fun d hd => (hpre d hd).le)
    have h₂ : old.filter (fun d => c.key < d.key) = [] :=
      List.filter_eq_nil_iff.2 (by simpa using fun d hd => (hold d hd).le)
    have h₃ : post.filter (fun d => c.key < d.key) = post :=
      List.filter_eq_self.2 (by simpa using hpost)
    rw [List.filter_append, List.filter_append, h₁, h₂, h₃, List.nil_append]
    rfl
  rw [cellsWith, hlow, hhigh]

/-- Behind whichever cell the leaf is cut, one half has old cells only. -/
lemma old_half {pre post l r : List LeafCell} {new c : LeafCell} (hpre : ∀ d ∈ pre, d.key < new.key)
    (hpost : ∀ d ∈ post, new.key < d.key) (heq : l ++ c :: r = pre ++ new :: post) :
    (new.key ≤ c.key ∧ r.Sublist (pre ++ post)) ∨
      (c.key < new.key ∧ (l ++ [c]).Sublist (pre ++ post)) := by
  rw [List.append_cons] at heq
  rcases List.append_eq_append_iff.1 heq with ⟨a, rfl, -⟩ | ⟨a, hl, ha⟩
  · exact Or.inr ⟨hpre c (by simp), (List.sublist_append_left _ _).trans (List.sublist_append_left _ _)⟩
  · cases a with
    | nil =>
      rw [List.append_nil] at hl
      subst hl
      exact Or.inr ⟨hpre c (by simp), List.sublist_append_left _ _⟩
    | cons d a =>
      obtain ⟨rfl, rfl⟩ := List.cons.inj ha
      refine Or.inl ⟨?_, (List.sublist_append_right _ _).trans (List.sublist_append_right _ _)⟩
      have hlast := congrArg List.getLast? hl
      rw [List.getLast?_append_cons, List.getLast?_append_cons, List.getLast?_singleton] at hlast
      rcases List.mem_cons.1 (List.mem_of_getLast? hlast.symm) with rfl | hc
      · exact le_rfl
      · exact (hpost c (List.mem_append_left r hc)).le

lemma one_le_leafCellSize (c : LeafCell) : 1 ≤ leafCellSize c := by
  have := one_le_varintLen c.key.length
  simp only [leafCellSize, storedCellSize]
  omega

/-- Cells in front of a middle one that is the last: they take less than it. -/
lemma leafBytes_front {l : List LeafCell} {c : LeafCell} (hm : Middle leafCellSize l c [])
    (hs : ((l ++ [c]).map LeafCell.key).Pairwise (· < ·))
    (hsize : ∀ d ∈ l ++ [c], leafCellSize d ≤ MAX_INLINE_CELL) : leafBytes l ≤ BODY_SIZE := by
  have hplain := leafBytes_le_plain (hs.sublist ((List.sublist_append_left l [c]).map _))
    fun d hd => key_lt_of_size (hsize d (List.mem_append_left _ hd))
  have hlen := length_mul_le fun d (_ : d ∈ l) => one_le_leafCellSize d
  have hc := hsize c (by simp)
  have hbefore := hm.before
  rw [sum_middle, List.map_nil, List.sum_nil] at hbefore
  rw [show MAX_INLINE_CELL = 1280 from rfl] at hc
  rw [show LEAF_HDR = 4 from rfl] at hplain
  rw [BODY_SIZE_eq]
  omega

/-- Where one cell alone fits, a cut before the last one leaves cells in front. -/
lemma front_ne_nil {l : List LeafCell} {c : LeafCell} (hc : leafCellSize c ≤ MAX_INLINE_CELL)
    (hover : encodeLeaf (l ++ [c]) BODY_SIZE = none) : l ≠ [] := by
  rintro rfl
  have hfits := (isSome_encodeLeaf [c] BODY_SIZE).2 (leafBytes_single hc)
  rw [List.nil_append] at hover
  rw [hover] at hfits
  cases hfits

/-- A cut with cells on both sides, in bytes. -/
lemma splitsWell_cut {l r : List LeafCell} (hl : l ≠ []) (hr : r ≠ [])
    (hsp : (if appended then (l ++ r).length - 1 else splitPoint leafCellSize (l ++ r)) = l.length) :
    SplitsWell (l ++ r) appended ↔ leafBytes r ≤ BODY_SIZE ∧ leafBytes l ≤ BODY_SIZE := by
  have hlpos := List.length_pos_iff.2 hl
  have hrpos := List.length_pos_iff.2 hr
  simp only [SplitsWell, hsp, List.drop_left, List.take_left, isSome_encodeLeaf]
  rw [List.length_append]
  constructor
  · rintro ⟨-, -, h⟩
    exact h
  · intro h
    exact ⟨hlpos, by omega, h⟩

/-- A leaf that one more cell overfills is cut into halves that fit, unless the half with that cell
does not. -/
lemma splitsWell_iff {σ : Type} [NodeStore σ] {n : ℕ} {s s' : σ} {z : Bool} {pfx b : Bytes}
    (hb : LeafBody z pfx cells b) (hpays : PrefixPays z pfx)
    (hsize : ∀ c ∈ cells, leafCellSize c ≤ MAX_INLINE_CELL) (hnew : CellSized ⟨key, payload⟩)
    (hinline : leafCellSize ⟨key, payload⟩ ≤ MAX_INLINE_CELL)
    (hput : putCell n s cells key payload = .ok (cells', appended, s'))
    (hover : encodeLeaf cells' BODY_SIZE = none) :
    SplitsWell cells' appended ↔ NewHalfFits cells ⟨key, payload⟩ := by
  have hin : CellsInOrder cells := ⟨hb.keyed, hb.payload, hb.sorted⟩
  obtain ⟨pre, old, post, rfl, hpre, hpost, hold, -, rfl, happ⟩ := putCell_eq hb.sorted hput
  have hwith : cellsWith (pre ++ old ++ post) ⟨key, payload⟩ = pre ++ ⟨key, payload⟩ :: post :=
    cellsWith_eq hpre hpost hold
  have hsub : (pre ++ post).Sublist (pre ++ old ++ post) :=
    (List.sublist_append_left pre old).append_right post
  have hold_fits {sub : List LeafCell} (h : sub.Sublist (pre ++ post)) : leafBytes sub ≤ BODY_SIZE :=
    hb.leafBytes_sublist hpays hsize (h.trans hsub)
  have hsorted : ((pre ++ ⟨key, payload⟩ :: post).map LeafCell.key).Pairwise (· < ·) :=
    ((hin.sublist ((List.sublist_append_left pre post).trans hsub)).middle
      (hin.sublist (List.sublist_append_right (pre ++ old) post))
      (List.length_pos_iff.1 hnew.key_pos) hnew.payload hpre hpost).sorted
  have hsizes : ∀ c ∈ pre ++ (⟨key, payload⟩ : LeafCell) :: post, leafCellSize c ≤ MAX_INLINE_CELL := by
    intro c hc
    rcases List.mem_append.1 hc with hc | hc
    · exact hsize c (by simp [hc])
    · rcases List.mem_cons.1 hc with rfl | hc
      · exact hinline
      · exact hsize c (by simp [hc])
  cases appended with
  | true =>
    obtain ⟨rfl, rfl⟩ := happ.1 rfl
    refine iff_of_true ?_ (Or.inl fun c hc => hpre c (by simpa using hc))
    exact (splitsWell_cut (front_ne_nil hinline hover) (List.cons_ne_nil _ _) (by simp)).2
      ⟨leafBytes_single hinline, hold_fits (List.sublist_append_left _ _)⟩
  | false =>
    have hlast : ¬ ∀ c ∈ pre ++ old ++ post, c.key < key := by
      intro hall
      have hnot : old = [] ∧ post = [] := by
        refine ⟨List.eq_nil_iff_forall_not_mem.2 fun c hc => ?_,
          List.eq_nil_iff_forall_not_mem.2 fun c hc => ?_⟩
        · exact (hall c (by simp [hc])).ne (hold c hc)
        · exact lt_asymm (hall c (by simp [hc])) (hpost c hc)
      cases happ.2 hnot
    have hpos : 0 < ((pre ++ (⟨key, payload⟩ : LeafCell) :: post).map leafCellSize).sum := by
      have := one_le_leafCellSize ⟨key, payload⟩
      rw [sum_middle]
      omega
    obtain ⟨l, c, r, heq, hm⟩ := exists_middle hpos
    have hsp := splitPoint_eq hm
    rw [NewHalfFits, hwith, or_iff_right hlast]
    rw [heq] at hover hsorted hsizes ⊢
    by_cases hr : r = []
    · subst hr
      rw [if_pos rfl] at hsp
      refine iff_of_true ?_ fun l' c' r' heq' hm' hr' => ?_
      · exact (splitsWell_cut (front_ne_nil (hsizes c (by simp)) hover) (List.cons_ne_nil _ _)
          ((if_neg Bool.false_ne_true).trans hsp)).2 ⟨leafBytes_single (hsizes c (by simp)), leafBytes_front hm hsorted hsizes⟩
      · obtain ⟨-, -, rfl⟩ := hm'.unique hm heq'
        exact absurd rfl hr'
    · rw [if_neg hr] at hsp
      have hcut : SplitsWell (l ++ c :: r) false
          ↔ leafBytes r ≤ BODY_SIZE ∧ leafBytes (l ++ [c]) ≤ BODY_SIZE := by
        rw [List.append_cons] at hsp ⊢
        exact splitsWell_cut (by simp) hr (by simpa using hsp)
      have hnewHalf : (∀ l' c' r', l' ++ c' :: r' = l ++ c :: r → Middle leafCellSize l' c' r' →
          r' ≠ [] → leafBytes (if key ≤ c'.key then l' ++ [c'] else r') ≤ BODY_SIZE)
          ↔ leafBytes (if key ≤ c.key then l ++ [c] else r) ≤ BODY_SIZE := by
        refine ⟨fun h => h l c r rfl hm hr, fun h l' c' r' heq' hm' _ => ?_⟩
        obtain ⟨rfl, rfl, rfl⟩ := hm'.unique hm heq'
        exact h
      rw [hcut, hnewHalf]
      rcases old_half hpre hpost heq.symm with ⟨hle, hright⟩ | ⟨hlt, hleft⟩
      · rw [if_pos hle, and_iff_right (hold_fits hright)]
      · rw [if_neg (not_le.2 hlt), and_iff_left (hold_fits hleft)]

end Leaf

/-! ### Pages of a tree -/

section Pages
variable {σ : Type} [NodeStore σ] {s : σ} {m n root id : ℕ} {kvs : Entries} {F : List ℕ} {b : Bytes}

lemma TreeHolds.inner_page (h : TreeHolds s m n root kvs F) (hr : Reaches s root id)
    (hb : body s id = .ok b) {cells : List InnerCell} {r : ℕ}
    (hp : parseInner id b = .ok (cells, r)) : IsInner cells r b := by
  obtain ⟨n', lo, hi, kvs', F', hid⟩ := hr.holds h
  cases n' with
  | zero => exact absurd hid (fun h => h)
  | succ n' =>
    obtain ⟨-, -, b', G, hb', -, hpage⟩ := hid
    rw [hb] at hb'
    cases hb'
    obtain ⟨lcells, hl⟩ | ⟨icells, r', hin⟩ := hpage
    · obtain ⟨z, pfx, hshape⟩ := hl.leaf
      have hneq : ¬ nodeType b = TYPE_INNER := by
        rw [hshape.nodeType_eq]
        decide
      rw [parseInner, require, if_neg hneq] at hp
      cases hp
    · rw [hin.inner.parseInner_eq] at hp
      cases hp
      exact hin.inner

lemma TreeHolds.leaf_sizes (h : TreeHolds s m n root kvs F) (hr : Reaches s root id)
    (hb : body s id = .ok b) {cells : List LeafCell} (hp : parseLeaf id b = .ok cells) :
    ∀ c ∈ cells, leafCellSize c ≤ MAX_INLINE_CELL := by
  obtain ⟨n', lo, hi, kvs', F', hid⟩ := hr.holds h
  cases n' with
  | zero => exact absurd hid (fun h => h)
  | succ n' =>
    obtain ⟨-, -, b', G, hb', -, hpage⟩ := hid
    rw [hb] at hb'
    cases hb'
    obtain ⟨lcells, hl⟩ | ⟨icells, r', hin⟩ := hpage
    · obtain ⟨z, pfx, hshape⟩ := hl.leaf
      rw [hshape.parseLeaf_eq] at hp
      cases hp
      intro c hc
      obtain ⟨k, G', v, -, hsize, -⟩ := hl.cells.exists_of_mem hc
      exact hsize
    · have ht : nodeType b = TYPE_LEAF := by
        obtain ⟨_, ht, -⟩ := bind_eq_ok.1 hp
        exact require_eq_ok.1 ht
      rw [hin.inner.nodeType_eq] at ht
      exact absurd ht (by decide)

end Pages

/-! ### Runs -/

/-- After any run a leaf that an insertion overfills is cut into two halves that fit if and only if
the cell is the last one or the half it falls into fits; the halves of an inner node always fit. -/
theorem split_fits_iff (ops : List MapOp) (hops : ∀ op ∈ ops, op.Ok) (n : ℕ) (hn : fuelFor ops ≤ n)
    (deleted : List Bool) (root : ℕ) (s : CowMemStore)
    (hrun : runOps n ops CowMemStore.new NO_ROOT = .ok (deleted, root, s)) (id : ℕ) (b : Bytes)
    (hid : Reaches s root id) (hb : body s id = .ok b) :
    (∀ cells key payload m cells' appended s', parseLeaf id b = .ok cells →
      CellSized ⟨key, payload⟩ → leafCellSize ⟨key, payload⟩ ≤ MAX_INLINE_CELL →
      putCell m s cells key payload = .ok (cells', appended, s') →
      encodeLeaf cells' BODY_SIZE = none →
        (SplitsWell cells' appended ↔ NewHalfFits cells ⟨key, payload⟩)) ∧
    ∀ cells rightmost key cid split, parseInner id b = .ok (cells, rightmost) →
      (∀ x ∈ split, 0 < x.1.length ∧ x.1.length ≤ MAX_KEY_LEN) →
      encodeInner (placeChild cells rightmost key cid split).1
        (placeChild cells rightmost key cid split).2 BODY_SIZE = none →
      InnerSplits (placeChild cells rightmost key cid split).1
        (placeChild cells rightmost key cid split).2 := by
  have hempty : TreeOf CowMemStore.new 0 NO_ROOT [] :=
    ⟨[], Or.inl ⟨rfl, rfl, rfl⟩, List.nodup_nil, le_rfl⟩
  rw [fuelFor] at hn
  obtain ⟨-, F, htree, -⟩ := (runOps_outcome hops CowMemStore.lawful_new hempty (by omega)).of_ok hrun
  have hwritten : s.Written := CowMemStore.written_new.runOps hops hrun
  refine ⟨?_, ?_⟩
  · intro cells key payload m cells' appended s' hp hnew hinline hput hover
    have ht : nodeType b = TYPE_LEAF := by
      obtain ⟨_, ht, -⟩ := bind_eq_ok.1 hp
      exact require_eq_ok.1 ht
    obtain ⟨z, pfx, cells₀, hbody, hpays⟩ := (hwritten id b (okOr_eq_ok.1 hb)).leaf ht
    have hsizes := htree.leaf_sizes hid hb hp
    rw [hbody.parseLeaf_eq] at hp
    cases hp
    exact splitsWell_iff hbody hpays hsizes hnew hinline hput hover
  · intro cells rightmost key cid split hp hkey hover
    exact innerSplits_placeChild (htree.inner_page hid hb hp) hkey hover

/-- The theorem at the leaf of one insertion. -/
theorem split_fits_iff_one : ∃ root s b,
    runOps 8 [.insert [1] [7]] CowMemStore.new NO_ROOT = .ok ([], root, s) ∧
    body s root = .ok b ∧
    (∀ cells key payload m cells' appended s', parseLeaf root b = .ok cells →
      CellSized ⟨key, payload⟩ → leafCellSize ⟨key, payload⟩ ≤ MAX_INLINE_CELL →
      putCell m s cells key payload = .ok (cells', appended, s') →
      encodeLeaf cells' BODY_SIZE = none →
        (SplitsWell cells' appended ↔ NewHalfFits cells ⟨key, payload⟩)) ∧
    ∀ cells rightmost key cid split, parseInner root b = .ok (cells, rightmost) →
      (∀ x ∈ split, 0 < x.1.length ∧ x.1.length ≤ MAX_KEY_LEN) →
      encodeInner (placeChild cells rightmost key cid split).1
        (placeChild cells rightmost key cid split).2 BODY_SIZE = none →
      InnerSplits (placeChild cells rightmost key cid split).1
        (placeChild cells rightmost key cid split).2 := by
  have hop : (MapOp.insert [1] [7]).Ok := by simp [MapOp.Ok, show MAX_KEY_LEN = 1024 from rfl]
  obtain ⟨root, s, hins, F, htree, -⟩ := @treeOf_insert_new 8 _ _ hop (by decide) (by decide +kernel)
  have hrun : runOps 8 [.insert [1] [7]] CowMemStore.new NO_ROOT = .ok ([], root, s) := by
    rw [runOps, hins]
    rfl
  rcases htree with ⟨-, hnil, -⟩ | hholds
  · cases hnil
  · obtain ⟨hne, -, b, -, hb, -⟩ := hholds
    exact ⟨root, s, b, hrun, hb, split_fits_iff [.insert [1] [7]] (by simpa using hop) 8 (by decide)
      [] root s hrun root b (.root hne) hb⟩

/-- Seven keys that differ in the last one of 1024 bytes. -/
def sevenKeys : List Bytes := (List.range 7).map fun i => List.replicate 1023 7 ++ [UInt8.ofNat i]

def sevenCells : List LeafCell := sevenKeys.map fun key => ⟨key, .inline []⟩

/-- As one leaf they share their prefix. A shorter key below takes it away: the half it falls into
does not fit, and the insertion ends in the assertion. -/
theorem split_overflows : ∃ root s b,
    runOps 16 (sevenKeys.map fun key => .insert key []) CowMemStore.new NO_ROOT
      = .ok ([], root, s) ∧
    insert 16 s root [0] [] = .error SPLIT_FITS ∧ body s root = .ok b ∧
    parseLeaf root b = .ok sevenCells ∧
    putCell 16 s sevenCells [0] (.inline []) = .ok (⟨[0], .inline []⟩ :: sevenCells, false, s) ∧
    encodeLeaf (⟨[0], .inline []⟩ :: sevenCells) BODY_SIZE = none ∧
    ¬ SplitsWell (⟨[0], .inline []⟩ :: sevenCells) false := by
  have hrun : (runOps 16 (sevenKeys.map fun key => .insert key []) CowMemStore.new
        NO_ROOT).toOption.map (fun r => (r.1, (body r.2.2 r.2.1 >>= fun b => parseLeaf r.2.1 b),
          (insert 16 r.2.2 r.2.1 [0] []).map fun _ => ()))
      = some ([], .ok sevenCells, .error SPLIT_FITS) := by
    decide +kernel
  obtain ⟨⟨deleted, root, s⟩, hr, heq⟩ := Option.map_eq_some_iff.1 hrun
  simp only [Prod.mk.injEq] at heq
  obtain ⟨rfl, hparse, hins⟩ := heq
  obtain ⟨b, hb, hparse⟩ := bind_eq_ok.1 hparse
  refine ⟨root, s, b, ?_, ?_, hb, hparse, ?_, by decide +kernel, by decide +kernel⟩
  · exact toOption_eq_some.1 hr
  · cases hx : insert 16 s root [0] [] with
    | error e =>
      rw [hx] at hins
      cases hins
      rfl
    | ok r =>
      rw [hx] at hins
      cases hins
  · have hsearch : binarySearch sevenCells [0] = .error 0 := by decide +kernel
    rw [putCell, hsearch]
    rfl

end Btree

end Arkeion
