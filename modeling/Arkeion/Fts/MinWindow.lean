import Arkeion.Error
import Arkeion.Lib.SlidingWindow
import Mathlib.Data.Finset.Card
import Mathlib.Data.List.Sort

/-!
The window of positions that `NEAR` looks for: the narrowest with a position of each group.

The items are the positions with the numbers of their groups, sorted, and the window is counted by
groups. Positions are numbers of 32 bits; a difference below zero ends the process.
-/

namespace Arkeion.Fts

open Arkeion.Lib

/-! ### The window -/

def checkedSub (a b : ℕ) : Result ℕ :=
  if b ≤ a then .ok (a - b) else .error (.panic "attempt to subtract with overflow")

/-- The positions, each with the number of its group. -/
def itemsOf (groups : List (List ℕ)) : List (ℕ × ℕ) :=
  groups.zipIdx.flatMap fun g => g.1.map fun p => (p, g.2)

/-- Pairs are compared by the position first. -/
def InOrder (a b : ℕ × ℕ) : Prop := a.1 < b.1 ∨ a.1 = b.1 ∧ a.2 ≤ b.2

instance : DecidableRel InOrder := fun _ _ => inferInstanceAs (Decidable (_ ∨ _))

/-- How many items of each group are in the window, and of how many groups there are some. -/
structure WindowState where
  have_ : List ℕ
  covered : ℕ
  best : Option ℕ

def enter (item : ℕ × ℕ) (w : WindowState) : Result WindowState := do
  let k ← okOr w.have_[item.2]? (.panic "index out of bounds")
  .ok { w with
    have_ := w.have_.set item.2 (k + 1)
    covered := if k = 0 then w.covered + 1 else w.covered }

/-- The first item leaves the window, which is measured before. -/
def leave (pos : ℕ) (item : ℕ × ℕ) (w : WindowState) : Result WindowState := do
  let span ← checkedSub pos item.1
  let k ← okOr w.have_[item.2]? (.panic "index out of bounds")
  let k ← checkedSub k 1
  let covered ← checkedSub w.covered (if k = 0 then 1 else 0)
  .ok ⟨w.have_.set item.2 k, covered, better w.best span⟩

/-- The loop over `l`, with the items from `l` on. -/
def shrink (n pos : ℕ) : List (ℕ × ℕ) → WindowState → Result (List (ℕ × ℕ) × WindowState)
  | [], w => if w.covered = n then .error (.panic "index out of bounds") else .ok ([], w)
  | item :: left, w =>
    if w.covered = n then do
      let w ← leave pos item w
      shrink n pos left w
    else .ok (item :: left, w)

/-- The loop over `r`, with the items from `r` on and those from `l` on. -/
def slide (n : ℕ) : List (ℕ × ℕ) → List (ℕ × ℕ) → WindowState → Result (Option ℕ)
  | [], _, w => .ok w.best
  | item :: right, left, w => do
    let w ← enter item w
    let r ← shrink n item.1 left w
    slide n right r.1 r.2

def minWindowSpan (groups : List (List ℕ)) : Result (Option ℕ) :=
  if groups.any List.isEmpty then .ok none
  else
    let items := (itemsOf groups).insertionSort InOrder
    slide groups.length items items ⟨List.replicate groups.length 0, 0, none⟩

/-! ### Counting -/

/-- There is an item of every group. -/
def Covers (n : ℕ) (c : List (ℕ × ℕ)) : Prop := ∀ g < n, ∃ a ∈ c, a.2 = g

/-- The groups are those there are. -/
def Numbered (n : ℕ) (c : List (ℕ × ℕ)) : Prop := ∀ a ∈ c, a.2 < n

/-- The counts are those of the items in the window. -/
structure Counted (n : ℕ) (mid : List (ℕ × ℕ)) (w : WindowState) : Prop where
  count : ∀ g < n, w.have_[g]? = some ((mid.map Prod.snd).count g)
  covered : w.covered = (mid.map Prod.snd).toFinset.card

section Counting
variable {n pos : ℕ} {mid left : List (ℕ × ℕ)} {item : ℕ × ℕ} {w : WindowState}

/-- All groups are covered if as many are as there are. -/
lemma Counted.covers_iff (h : Counted n mid w) (hn : Numbered n mid) : w.covered = n ↔ Covers n mid := by
  have hsub : (mid.map Prod.snd).toFinset ⊆ Finset.range n := by
    intro g hg
    obtain ⟨a, ha, rfl⟩ := List.mem_map.1 (List.mem_toFinset.1 hg)
    exact Finset.mem_range.2 (hn a ha)
  have hmem : Covers n mid ↔ Finset.range n ⊆ (mid.map Prod.snd).toFinset := by
    simp only [Covers, Finset.subset_iff, Finset.mem_range, List.mem_toFinset, List.mem_map]
  rw [h.covered, hmem]
  constructor
  · intro hcard
    rw [Finset.eq_of_subset_of_card_le hsub (by rw [hcard, Finset.card_range])]
  · intro hall
    rw [hsub.antisymm hall, Finset.card_range]

/-- One group more, unless it was there. -/
lemma card_cons (cs : List ℕ) (g : ℕ) :
    (g :: cs).toFinset.card = cs.toFinset.card + if cs.count g = 0 then 1 else 0 := by
  rw [List.toFinset_cons]
  by_cases hg : g ∈ cs
  · rw [if_neg (List.count_pos_iff.2 hg).ne', Finset.insert_eq_of_mem (List.mem_toFinset.2 hg),
      Nat.add_zero]
  · rw [if_pos (List.count_eq_zero.2 hg), Finset.card_insert_of_notMem fun h => hg (List.mem_toFinset.1 h)]

lemma card_append (cs : List ℕ) (g : ℕ) :
    (cs ++ [g]).toFinset.card = cs.toFinset.card + if cs.count g = 0 then 1 else 0 := by
  have hsame : (cs ++ [g]).toFinset = (g :: cs).toFinset := by
    ext a
    rw [List.mem_toFinset, List.mem_toFinset, List.mem_append, List.mem_singleton, List.mem_cons]
    exact or_comm
  rw [hsame, card_cons]

/-- The counts when that of one group is set to what it is in another window. -/
lemma Counted.set {mid' : List (ℕ × ℕ)} {i v : ℕ} (h : Counted n mid w)
    (hi : v = (mid'.map Prod.snd).count i)
    (hother : ∀ g, g ≠ i → (mid'.map Prod.snd).count g = (mid.map Prod.snd).count g) :
    ∀ g < n, (w.have_.set i v)[g]? = some ((mid'.map Prod.snd).count g) := by
  intro g hg
  have hlen : g < w.have_.length := List.getElem?_eq_some_iff.1 (h.count g hg) |>.1
  rw [List.getElem?_set]
  split_ifs with heq hlt
  · rw [hi, heq]
  · omega
  · rw [h.count g hg, hother g (Ne.symm heq)]

lemma enter_counted (h : Counted n mid w) (hitem : item.2 < n) :
    ∃ w', enter item w = .ok w' ∧ Counted n (mid ++ [item]) w' ∧ w'.best = w.best := by
  have hrun : enter item w = .ok { w with
      have_ := w.have_.set item.2 ((mid.map Prod.snd).count item.2 + 1)
      covered := if (mid.map Prod.snd).count item.2 = 0 then w.covered + 1 else w.covered } := by
    rw [enter, h.count item.2 hitem]
    rfl
  refine ⟨_, hrun, ⟨h.set ?_ fun g hg => ?_, ?_⟩, rfl⟩
  · rw [List.map_append, List.count_append, List.map_singleton, List.count_singleton_self]
  · have hnone : [item.2].count g = 0 := List.count_eq_zero.2 fun h => hg (List.mem_singleton.1 h)
    rw [List.map_append, List.count_append, List.map_singleton, hnone, Nat.add_zero]
  · rw [List.map_append, List.map_singleton, card_append, ← h.covered]
    dsimp only
    split_ifs <;> rfl

lemma leave_counted (h : Counted n (item :: mid) w) (hitem : item.2 < n) (hpos : item.1 ≤ pos) :
    ∃ w', leave pos item w = .ok w' ∧ Counted n mid w' ∧ w'.best = better w.best (pos - item.1) := by
  have hone : (mid.map Prod.snd).count item.2 + 1 = ((item :: mid).map Prod.snd).count item.2 := by
    rw [List.map_cons, List.count_cons_self]
  have hcard := h.covered
  rw [List.map_cons, card_cons] at hcard
  have hrun : leave pos item w = .ok ⟨w.have_.set item.2 ((mid.map Prod.snd).count item.2),
      (mid.map Prod.snd).toFinset.card, better w.best (pos - item.1)⟩ := by
    rw [leave, checkedSub, if_pos hpos, ok_bind, h.count item.2 hitem, okOr_some, ok_bind, ← hone,
      checkedSub, if_pos (Nat.le_add_left 1 _), ok_bind, Nat.add_sub_cancel, checkedSub, hcard,
      if_pos (Nat.le_add_left _ _), ok_bind, Nat.add_sub_cancel]
  refine ⟨_, hrun, ⟨h.set rfl fun g hg => ?_, rfl⟩, rfl⟩
  rw [List.map_cons, List.count_cons_of_ne (Ne.symm hg)]

lemma shrink_stop (h : w.covered ≠ n) : shrink n pos left w = .ok (left, w) := by
  cases left with
  | nil => rw [shrink, if_neg h]
  | cons item left => rw [shrink, if_neg h]

end Counting

/-! ### The loops -/

section Loops
variable {n : ℕ} {all seen done mid late : List (ℕ × ℕ)} {y : ℕ × ℕ} {w : WindowState}

/-- Items are numbered, and sorted by their positions. -/
structure Sorted (n : ℕ) (items : List (ℕ × ℕ)) : Prop where
  numbered : Numbered n items
  inOrder : items.Pairwise fun a b => a.1 ≤ b.1

lemma covers_mono (n : ℕ) (c c' : List (ℕ × ℕ)) (h : c ⊆ c') (hc : Covers n c) : Covers n c' := by
  intro g hg
  obtain ⟨a, ha, hag⟩ := hc g hg
  exact ⟨a, h ha, hag⟩

/-- The window is made as small as it can be without an item leaving that it needs. -/
lemma shrink_swept (hn : 0 < n) (hsorted : Sorted n all) (hall : all = seen ++ y :: late)
    (hmid : done ++ mid = seen ++ [y]) (hcount : Counted n mid w)
    (h : Swept Prod.fst (Covers n) all seen done w.best) :
    ∃ done' mid' w', shrink n y.1 (mid ++ late) w = .ok (mid' ++ late, w') ∧
      done' ++ mid' = seen ++ [y] ∧ Counted n mid' w' ∧
      Swept Prod.fst (Covers n) all (seen ++ [y]) done' w'.best := by
  have hpart : seen ++ [y] ⊆ all := by
    rw [hall]
    exact List.append_subset.2 ⟨List.subset_append_left _ _, by simp⟩
  induction mid generalizing done w with
  | nil =>
    have hnone : w.covered ≠ n := by
      rw [hcount.covered]
      exact hn.ne
    have hcovers : ¬ Covers n [] := fun hc => by
      obtain ⟨a, ha, -⟩ := hc 0 hn
      cases ha
    exact ⟨done, [], w, shrink_stop hnone, hmid, hcount, h.enter (covers_mono n) hmid hcovers⟩
  | cons x mid ih =>
    have hnumbered : Numbered n (x :: mid) := fun a ha =>
      hsorted.numbered a (hpart (hmid ▸ List.mem_append_right done ha))
    by_cases hcov : w.covered = n
    · have hcovers := (hcount.covers_iff hnumbered).1 hcov
      have hle : x.1 ≤ y.1 := by
        have hwindow : (done ++ x :: mid).Pairwise fun a b => a.1 ≤ b.1 := by
          rw [hmid]
          refine hsorted.inOrder.sublist ?_
          rw [hall]
          exact (List.Sublist.refl seen).append (List.singleton_sublist.2 List.mem_cons_self)
        have hx : x ∈ seen ++ [y] := hmid ▸ List.mem_append_right done List.mem_cons_self
        rw [hmid, List.pairwise_append] at hwindow
        rcases List.mem_append.1 hx with hx | hx
        · exact hwindow.2.2 x hx y List.mem_cons_self
        · rw [List.mem_singleton.1 hx]
      obtain ⟨w', hleave, hcount', hbest⟩ := leave_counted hcount (hnumbered x List.mem_cons_self) hle
      have hswept := h.leave hall hsorted.inOrder hmid hcovers
      rw [← hbest] at hswept
      have hrest : (done ++ [x]) ++ mid = seen ++ [y] := by
        rw [List.append_assoc, List.singleton_append, hmid]
      obtain ⟨done', mid', w'', hrun, hswept'⟩ := ih hrest hcount' hswept
      refine ⟨done', mid', w'', ?_, hswept'⟩
      rw [List.cons_append, shrink, if_pos hcov, hleave, ok_bind, hrun]
    · exact ⟨done, x :: mid, w, shrink_stop hcov, hmid, hcount, h.enter (covers_mono n) hmid
        fun hc => hcov ((hcount.covers_iff hnumbered).2 hc)⟩

/-- At the end every choice has been settled. -/
lemma slide_swept (hn : 0 < n) (hsorted : Sorted n all) (hall : all = seen ++ late)
    (hmid : done ++ mid = seen) (hcount : Counted n mid w)
    (h : Swept Prod.fst (Covers n) all seen done w.best) :
    ∃ best done', slide n late (mid ++ late) w = .ok best ∧
      Swept Prod.fst (Covers n) all all done' best := by
  induction late generalizing seen done mid w with
  | nil =>
    rw [List.append_nil] at hall
    subst hall
    exact ⟨w.best, done, rfl, h⟩
  | cons y late ih =>
    have hy : y.2 < n := hsorted.numbered y (by rw [hall]; simp)
    obtain ⟨w', henter, hcount', hbest⟩ := enter_counted hcount hy
    rw [← hbest] at h
    have hgrown : done ++ (mid ++ [y]) = seen ++ [y] := by rw [← List.append_assoc, hmid]
    have hrest : all = (seen ++ [y]) ++ late := by
      rw [List.append_assoc, List.singleton_append, hall]
    obtain ⟨done', mid', w'', hshrink, hmid', hcount'', hswept⟩ :=
      shrink_swept hn hsorted hall hgrown hcount' h
    rw [List.append_assoc, List.singleton_append] at hshrink
    obtain ⟨best, done'', hrun, hfinal⟩ := ih hrest hmid' hcount'' hswept
    refine ⟨best, done'', ?_, hfinal⟩
    rw [slide, henter, ok_bind, hshrink, ok_bind, hrun]

end Loops

/-! ### One position of each group -/

/-- The greatest of the positions less the smallest. -/
def spanOf (c : List ℕ) : ℕ := c.max?.getD 0 - c.min?.getD 0

/-- The spans of all choices of one position from each group. -/
def spans (groups : List (List ℕ)) : Set ℕ :=
  {d | ∃ c, List.Forall₂ (fun p g => p ∈ g) c groups ∧ spanOf c = d}

section Choices
variable {groups : List (List ℕ)} {c : List ℕ} {d : ℕ} {items : List (ℕ × ℕ)}

lemma mem_itemsOf {p g : ℕ} : (p, g) ∈ itemsOf groups ↔ ∃ ps, groups[g]? = some ps ∧ p ∈ ps := by
  simp only [itemsOf, List.mem_flatMap, List.mem_map, Prod.mk.injEq]
  constructor
  · rintro ⟨⟨ps, i⟩, hps, q, hq, rfl, rfl⟩
    exact ⟨ps, List.mem_zipIdx_iff_getElem?.1 hps, hq⟩
  · rintro ⟨ps, hps, hp⟩
    exact ⟨(ps, g), List.mem_zipIdx_iff_getElem?.2 hps, p, hp, rfl, rfl⟩

lemma exists_extremes (h : c ≠ []) :
    ∃ lo ∈ c, ∃ hi ∈ c, spanOf c = hi - lo ∧ ∀ a ∈ c, lo ≤ a ∧ a ≤ hi := by
  obtain ⟨lo, hlo⟩ := Option.ne_none_iff_exists'.1 fun hnone => h (List.min?_eq_none_iff.1 hnone)
  obtain ⟨hi, hhi⟩ := Option.ne_none_iff_exists'.1 fun hnone => h (List.max?_eq_none_iff.1 hnone)
  have hspan : spanOf c = hi - lo := by rw [spanOf, hlo, hhi, Option.getD_some, Option.getD_some]
  rw [List.min?_eq_some_iff] at hlo
  rw [List.max?_eq_some_iff] at hhi
  exact ⟨lo, hlo.1, hi, hhi.1, hspan, fun a ha => ⟨hlo.2 a ha, hhi.2 a ha⟩⟩

lemma spanOf_within : Within id (spanOf c) c := by
  intro a ha b hb
  obtain ⟨lo, -, hi, -, hspan, hall⟩ := exists_extremes (List.ne_nil_of_mem ha)
  have hlo := (hall a ha).1
  have hhi := (hall b hb).2
  rw [hspan, id_eq, id_eq]
  omega

lemma spanOf_le (h : Within id d c) : spanOf c ≤ d := by
  cases c with
  | nil => exact Nat.zero_le d
  | cons p c =>
    obtain ⟨lo, hlo, hi, hhi, hspan, -⟩ := exists_extremes (List.cons_ne_nil p c)
    have happart := h lo hlo hi hhi
    rw [id_eq, id_eq] at happart
    rw [hspan]
    omega

/-- A choice, as items. -/
lemma items_of_choice (h : List.Forall₂ (fun p g => p ∈ g) c groups) :
    c.zipIdx ⊆ itemsOf groups ∧ Covers groups.length c.zipIdx ∧ Within Prod.fst (spanOf c) c.zipIdx := by
  obtain ⟨hlen, hget⟩ := List.forall₂_iff_get.1 h
  refine ⟨?_, fun g hg => ?_, fun a ha b hb => ?_⟩
  · rintro ⟨p, g⟩ hp
    obtain ⟨hg, hcg⟩ := List.getElem?_eq_some_iff.1 (List.mem_zipIdx_iff_getElem?.1 hp)
    have hmem := hget g hg (hlen ▸ hg)
    rw [List.get_eq_getElem, List.get_eq_getElem] at hmem
    dsimp only at hcg hmem
    rw [hcg] at hmem
    exact mem_itemsOf.2 ⟨_, List.getElem?_eq_getElem _, hmem⟩
  · have hgc : g < c.length := hlen ▸ hg
    exact ⟨(c.get ⟨g, hgc⟩, g), List.mem_zipIdx_iff_getElem?.2 (List.getElem?_eq_getElem hgc), rfl⟩
  · exact spanOf_within a.1 (List.mem_of_getElem? (List.mem_zipIdx_iff_getElem?.1 ha)) b.1
      (List.mem_of_getElem? (List.mem_zipIdx_iff_getElem?.1 hb))

/-- Items of every group make a choice that is no wider. -/
lemma choice_of_items (hitems : items ⊆ itemsOf groups) (hcov : Covers groups.length items)
    (hd : Within Prod.fst d items) :
    ∃ c, List.Forall₂ (fun p g => p ∈ g) c groups ∧ spanOf c ≤ d := by
  choose f hf hgroup using hcov
  refine ⟨List.ofFn fun g : Fin groups.length => (f g g.2).1, ?_, spanOf_le ?_⟩
  · refine List.forall₂_iff_get.2 ⟨List.length_ofFn, fun g hg hg' => ?_⟩
    obtain ⟨ps, hps, hp⟩ := mem_itemsOf.1 (hitems (hf g hg'))
    rw [hgroup g hg', List.getElem?_eq_getElem hg', Option.some.injEq] at hps
    rw [List.get_ofFn, List.get_eq_getElem, hps]
    exact hp
  · intro a ha b hb
    obtain ⟨g, rfl⟩ := List.mem_ofFn.1 ha
    obtain ⟨g', rfl⟩ := List.mem_ofFn.1 hb
    exact hd _ (hf g g.2) _ (hf g' g'.2)

/-- There is a choice exactly if no group is empty. -/
lemma exists_choice_iff : (∃ c, List.Forall₂ (fun p g => p ∈ g) c groups) ↔ ∀ g ∈ groups, g ≠ [] := by
  induction groups with
  | nil => exact iff_of_true ⟨[], List.Forall₂.nil⟩ (by simp)
  | cons g groups ih =>
    rw [List.forall_mem_cons, ← ih]
    constructor
    · rintro ⟨c, hc⟩
      obtain ⟨p, c, hp, hrest, rfl⟩ := List.forall₂_cons_right_iff.1 hc
      exact ⟨List.ne_nil_of_mem hp, c, hrest⟩
    · rintro ⟨hne, c, hc⟩
      exact ⟨g.head hne :: c, List.Forall₂.cons (List.head_mem hne) hc⟩

end Choices

section Exact
variable {groups : List (List ℕ)}

lemma sorted_items (groups : List (List ℕ)) :
    Sorted groups.length ((itemsOf groups).insertionSort InOrder) where
  numbered := by
    rintro ⟨p, g⟩ hp
    obtain ⟨ps, hps, -⟩ := mem_itemsOf.1 (((itemsOf groups).perm_insertionSort InOrder).subset hp)
    exact (List.getElem?_eq_some_iff.1 hps).1
  inOrder := by
    have : Std.Total InOrder := ⟨fun a b => by unfold InOrder; omega⟩
    have : IsTrans (ℕ × ℕ) InOrder := ⟨fun a b c hab hbc => by unfold InOrder at *; omega⟩
    refine (List.pairwise_insertionSort InOrder (itemsOf groups)).imp fun {a b} h => ?_
    unfold InOrder at h
    omega

end Exact

/-- Of groups, at least one, there is a span exactly if none is empty, and it is the least of the
spans of all choices of one position from each. -/
theorem min_window_span_least (groups : List (List ℕ)) (hgroups : groups ≠ []) :
    ∃ best, minWindowSpan groups = .ok best ∧ ((∃ d, best = some d) ↔ ∀ g ∈ groups, g ≠ []) ∧
      ∀ d, best = some d → IsLeast (spans groups) d := by
  by_cases hempty : groups.any List.isEmpty = true
  · refine ⟨none, if_pos hempty, ?_, fun d hd => by cases hd⟩
    obtain ⟨g, hg, hnil⟩ := List.any_eq_true.1 hempty
    refine iff_of_false ?_ fun hall => hall g hg (List.isEmpty_iff.1 hnil)
    rintro ⟨d, hd⟩
    cases hd
  have hall : ∀ g ∈ groups, g ≠ [] := fun g hg hnil =>
    hempty (List.any_eq_true.2 ⟨g, hg, List.isEmpty_iff.2 hnil⟩)
  have hn : 0 < groups.length := List.length_pos_iff.2 hgroups
  have hperm := (itemsOf groups).perm_insertionSort InOrder
  have hnone : ¬ Covers groups.length [] := fun hc => by
    obtain ⟨a, ha, -⟩ := hc 0 hn
    cases ha
  have hcount : Counted groups.length [] ⟨List.replicate groups.length 0, 0, none⟩ :=
    ⟨fun g hg => List.getElem?_replicate_of_lt hg, rfl⟩
  have hitems := List.nil_append ((itemsOf groups).insertionSort InOrder)
  obtain ⟨best, done, hrun, hswept⟩ := slide_swept hn (sorted_items groups) hitems.symm
    (List.nil_append []) hcount (.start hnone)
  have hchoice {c : List ℕ} (hc : List.Forall₂ (fun p g => p ∈ g) c groups) :
      c.zipIdx ⊆ (itemsOf groups).insertionSort InOrder :=
    fun a ha => hperm.symm.subset ((items_of_choice hc).1 ha)
  refine ⟨best, (if_neg hempty).trans hrun, iff_of_true ?_ hall, ?_⟩
  · obtain ⟨c, hc⟩ := exists_choice_iff.2 hall
    obtain ⟨-, hcov, hwithin⟩ := items_of_choice hc
    exact hswept.found (hchoice hc) hcov hwithin
  · rintro d rfl
    obtain ⟨⟨items, hitems, hcov, hwithin⟩, hleast⟩ := hswept.least
    have hlower : ∀ e ∈ spans groups, d ≤ e := by
      rintro e ⟨c, hc, rfl⟩
      obtain ⟨-, hcovers, hspan⟩ := items_of_choice hc
      exact hleast ⟨_, hchoice hc, hcovers, hspan⟩
    obtain ⟨c, hc, hle⟩ := choice_of_items (fun a ha => hperm.subset (hitems ha)) hcov hwithin
    have hspan : d = spanOf c := le_antisymm (hlower _ ⟨c, hc, rfl⟩) hle
    exact ⟨⟨c, hc, hspan.symm⟩, hlower⟩

/-- Of three terms, the closest positions are 9, 10 and 7. -/
theorem min_window_span_three : minWindowSpan [[1, 9], [4, 10], [7]] = .ok (some 3) ∧
    IsLeast (spans [[1, 9], [4, 10], [7]]) 3 := by
  obtain ⟨best, hrun, -, hleast⟩ := min_window_span_least [[1, 9], [4, 10], [7]] (by simp)
  have heval : minWindowSpan [[1, 9], [4, 10], [7]] = .ok (some 3) := by decide
  rw [heval] at hrun
  exact ⟨heval, hleast 3 (Except.ok.inj hrun).symm⟩

end Arkeion.Fts
