import Mathlib.Data.List.Basic
import Mathlib.Data.List.Pairwise
import Mathlib.Order.Bounds.Basic
import Mathlib.Order.MinMax

/-!
The narrowest choice of elements that covers, found by moving the two ends of a window over a sorted
list.

What covers is left open: more of a list covers where less does. A choice is settled once one of its
elements has left the window, or all of them have entered it.
-/

namespace Arkeion.Lib

section SlidingWindow
variable {α : Type*} (pos : α → ℕ) (Covers : List α → Prop)

/-- No two elements are more than `d` apart. -/
def Within (d : ℕ) (c : List α) : Prop := ∀ a ∈ c, ∀ b ∈ c, pos b ≤ pos a + d

/-- The elements `seen` have entered the window and those in `done` have left it. -/
structure Swept (all seen done : List α) (best : Option ℕ) : Prop where
  lower : ∀ c d, c ⊆ all → Covers c → Within pos d c → (∃ a ∈ c, a ∈ done) ∨ c ⊆ seen →
    ∃ b ∈ best, b ≤ d
  reached : ∀ b ∈ best, ∃ c, c ⊆ all ∧ Covers c ∧ Within pos b c

/-- The smaller one of the best so far and another. -/
def better (best : Option ℕ) (d : ℕ) : Option ℕ := some (best.elim d fun b => min b d)

variable {pos Covers} {all seen done w late : List α} {best : Option ℕ} {x y : α} {b d : ℕ}

lemma better_le (hb : b ∈ best) : ∃ b' ∈ better best d, b' ≤ b := by
  rw [Option.mem_def] at hb
  subst hb
  exact ⟨min b d, rfl, min_le_left b d⟩

lemma better_le_new (best : Option ℕ) (d : ℕ) : ∃ b ∈ better best d, b ≤ d := by
  cases best with
  | none => exact ⟨d, rfl, le_rfl⟩
  | some b => exact ⟨min b d, rfl, min_le_right b d⟩

lemma mem_better (hb : b ∈ better best d) : b ∈ best ∨ b = d := by
  cases best with
  | none =>
    cases hb
    exact Or.inr rfl
  | some b' =>
    cases hb
    rcases min_choice b' d with h | h
    · exact Or.inl (congrArg some h.symm)
    · exact Or.inr h

/-- Nothing has entered yet. -/
lemma Swept.start (h : ¬ Covers []) : Swept pos Covers all [] [] none where
  lower c d _ hc _ hsettled := by
    rcases hsettled with ⟨a, -, ha⟩ | hnil
    · cases ha
    · rw [List.subset_nil.1 hnil] at hc
      exact absurd hc h
  reached b hb := by cases hb

/-- The first element of a window that covers leaves it. Another choice with it has an element from
the last one of the window on. -/
lemma Swept.leave (h : Swept pos Covers all seen done best) (hall : all = seen ++ y :: late)
    (hsorted : all.Pairwise fun a b => pos a ≤ pos b) (hw : done ++ x :: w = seen ++ [y])
    (hcovers : Covers (x :: w)) :
    Swept pos Covers all seen (done ++ [x]) (better best (pos y - pos x)) where
  lower c d hc hcov hd hsettled := by
    by_cases hold : (∃ a ∈ c, a ∈ done) ∨ c ⊆ seen
    · obtain ⟨b, hb, hbd⟩ := h.lower c d hc hcov hd hold
      obtain ⟨b', hb', hle⟩ := better_le (d := pos y - pos x) hb
      exact ⟨b', hb', hle.trans hbd⟩
    · rw [not_or] at hold
      have hx : x ∈ c := by
        obtain ⟨a, ha, hin⟩ := hsettled.resolve_right hold.2
        rcases List.mem_append.1 hin with hin | hin
        · exact absurd ⟨a, ha, hin⟩ hold.1
        · rwa [List.mem_singleton.1 hin] at ha
      obtain ⟨z, hz, hout⟩ : ∃ z ∈ c, z ∉ seen := by simpa [List.subset_def] using hold.2
      have hlate : pos y ≤ pos z := by
        rw [hall, List.pairwise_append, List.pairwise_cons] at hsorted
        have hin := hc hz
        rw [hall, List.mem_append, List.mem_cons] at hin
        rcases hin.resolve_left hout with rfl | hin
        · exact le_rfl
        · exact hsorted.2.1.1 z hin
      have hapart := hd x hx z hz
      obtain ⟨b, hb, hle⟩ := better_le_new best (pos y - pos x)
      exact ⟨b, hb, by omega⟩
  reached b hb := by
    rcases mem_better hb with hb | rfl
    · exact h.reached b hb
    · have hsub : seen ++ [y] ⊆ all := by
        rw [hall]
        exact List.append_subset.2 ⟨List.subset_append_left _ _, by simp⟩
      refine ⟨x :: w, fun a ha => hsub (hw ▸ List.mem_append_right done ha), hcovers, ?_⟩
      have hwindow : (done ++ x :: w).Pairwise fun a b => pos a ≤ pos b := by
        rw [hw]
        refine hsorted.sublist ?_
        rw [hall]
        exact (List.Sublist.refl seen).append (List.singleton_sublist.2 List.mem_cons_self)
      have hlast : ∀ a ∈ x :: w, pos a ≤ pos y := by
        intro a ha
        have hin : a ∈ seen ++ [y] := hw ▸ List.mem_append_right done ha
        rw [hw, List.pairwise_append] at hwindow
        rcases List.mem_append.1 hin with hin | hin
        · exact hwindow.2.2 a hin y List.mem_cons_self
        · rw [List.mem_singleton.1 hin]
      have hfirst : ∀ a ∈ x :: w, pos x ≤ pos a := by
        intro a ha
        have hpart := (List.pairwise_append.1 hwindow).2.1
        rcases List.mem_cons.1 ha with rfl | ha
        · exact le_rfl
        · exact (List.pairwise_cons.1 hpart).1 a ha
      intro a ha c hc
      have hac := hfirst a ha
      have hcy := hlast c hc
      omega

/-- The window has the element that entered last and covers no more. -/
lemma Swept.enter (h : Swept pos Covers all seen done best)
    (hmono : ∀ c w : List α, c ⊆ w → Covers c → Covers w) (hw : done ++ w = seen ++ [y])
    (hcovers : ¬ Covers w) : Swept pos Covers all (seen ++ [y]) done best where
  lower c d hc hcov hd hsettled := by
    by_cases hdone : ∃ a ∈ c, a ∈ done
    · exact h.lower c d hc hcov hd (Or.inl hdone)
    · have hin : c ⊆ w := by
        intro a ha
        have hseen := hsettled.resolve_left hdone ha
        rw [← hw] at hseen
        exact (List.mem_append.1 hseen).resolve_left fun hout => hdone ⟨a, ha, hout⟩
      exact absurd (hmono c w hin hcov) hcovers
  reached := h.reached

/-- When all have entered, the best is the least width of a choice that covers. -/
lemma Swept.least (h : Swept pos Covers all all done (some b)) :
    IsLeast {d | ∃ c, c ⊆ all ∧ Covers c ∧ Within pos d c} b := by
  refine ⟨h.reached b rfl, ?_⟩
  rintro d ⟨c, hc, hcov, hd⟩
  obtain ⟨b', hb', hle⟩ := h.lower c d hc hcov hd (Or.inr hc)
  cases hb'
  exact hle

lemma Swept.found (h : Swept pos Covers all all done best) {c : List α} (hc : c ⊆ all)
    (hcov : Covers c) (hd : Within pos d c) : ∃ b, best = some b := by
  obtain ⟨b, hb, -⟩ := h.lower c d hc hcov hd (Or.inr hc)
  exact ⟨b, hb⟩

end SlidingWindow

end Arkeion.Lib
