import Mathlib.Data.List.Basic
import Mathlib.Data.Set.Lattice
import Mathlib.Order.Bounds.Basic

/-!
The least set that contains some elements and is closed under an operation on lists, which stand for
finite sets up to an equivalence. An operation that distributes over unions need only be applied to
what is new.
-/

namespace Arkeion.Lib

variable {α : Type*}

/-- The elements like one of the list. -/
def span (R : α → α → Prop) (l : List α) : Set α := {a | ∃ b ∈ l, R b a}

/-- With an element, all that are like it. -/
def Saturated (R : α → α → Prop) (X : Set α) : Prop := ∀ a b, R a b → a ∈ X → b ∈ X

/-- The set contains what the operation makes of its elements. -/
def Closed (T : List α → List α) (X : Set α) : Prop :=
  ∀ l, (∀ a ∈ l, a ∈ X) → ∀ b ∈ T l, b ∈ X

/-- The operation is one on sets, and distributes over unions. -/
structure Distributes (R : α → α → Prop) (T : List α → List α) : Prop where
  congr : ∀ l l', span R l = span R l' → span R (T l) = span R (T l')
  union : ∀ l l', span R (T (l ++ l')) = span R (T l) ∪ span R (T l')

/-- The set is the least one that contains the elements and is closed under the operation. -/
def IsLeastClosed (R : α → α → Prop) (T : List α → List α) (seed : List α) (X : Set α) : Prop :=
  IsLeast {Y | Saturated R Y ∧ (∀ a ∈ seed, a ∈ Y) ∧ Closed T Y} X

section Span
variable {R : α → α → Prop} {l l' : List α}

lemma subset_span (hR : Equivalence R) {a : α} (h : a ∈ l) : a ∈ span R l := ⟨a, h, hR.refl a⟩

lemma saturated_span (hR : Equivalence R) : Saturated R (span R l) :=
  fun _ _ hab ⟨c, hc, hca⟩ => ⟨c, hc, hR.trans hca hab⟩

/-- A set that is saturated contains the span with the elements. -/
lemma span_subset {X : Set α} (hX : Saturated R X) (h : ∀ a ∈ l, a ∈ X) : span R l ⊆ X :=
  fun _ ⟨b, hb, hba⟩ => hX b _ hba (h b hb)

lemma span_append : span R (l ++ l') = span R l ∪ span R l' := by
  ext a
  simp only [span, Set.mem_setOf_eq, List.mem_append, Set.mem_union, or_and_right, exists_or]

end Span

section NewOnly
variable {R : α → α → Prop} {T : List α → List α} {seed all working fresh : List α}

/-- How far the least closed set is built: all elements so far belong to it, and the operation has
been applied to all of them but those of the last step. -/
structure Building (R : α → α → Prop) (T : List α → List α) (seed all working : List α) : Prop where
  contains : ∀ a ∈ seed, a ∈ span R all
  below : ∀ Y, Saturated R Y → (∀ a ∈ seed, a ∈ Y) → Closed T Y → ∀ a ∈ all, a ∈ Y
  recent : ∀ a ∈ working, a ∈ all
  applied : span R all = span R working ∨
    ∃ old, span R all = span R (old ++ working) ∧ span R (T old) ⊆ span R all

lemma Building.start (hR : Equivalence R) : Building R T seed seed seed where
  contains := fun _ h => subset_span hR h
  below := fun _ _ h _ => h
  recent := fun _ h => h
  applied := Or.inl rfl

/-- What the operation makes of all elements is among them and what it makes of the last. -/
lemma Building.apply_all (h : Building R T seed all working) (hT : Distributes R T) :
    span R (T all) ⊆ span R all ∪ span R (T working) := by
  rcases h.applied with heq | ⟨old, heq, hold⟩
  · rw [hT.congr _ _ heq]
    exact Set.subset_union_right
  · rw [hT.congr _ _ heq, hT.union]
    exact Set.union_subset_union hold (Set.Subset.refl _)

/-- One step: what the operation makes of the last elements is old or new. -/
lemma Building.next (hR : Equivalence R) (hT : Distributes R T) (h : Building R T seed all working)
    (hnew : ∀ a ∈ fresh, a ∈ T working) (hall : ∀ a ∈ T working, a ∈ span R (all ++ fresh)) :
    Building R T seed (all ++ fresh) fresh where
  contains := fun a ha => by
    rw [span_append]
    exact Or.inl (h.contains a ha)
  below := fun Y hY hseed hclosed a ha => by
    have hold := h.below Y hY hseed hclosed
    rcases List.mem_append.1 ha with ha | ha
    · exact hold a ha
    · exact hclosed working (fun b hb => hold b (h.recent b hb)) a (hnew a ha)
  recent := fun _ ha => List.mem_append_right _ ha
  applied := by
    refine Or.inr ⟨all, rfl, (h.apply_all hT).trans (Set.union_subset ?_ ?_)⟩
    · rw [span_append]
      exact Set.subset_union_left
    · exact span_subset (saturated_span hR) hall

/-- Where nothing is new, the set is built. -/
lemma Building.finish (hR : Equivalence R) (hT : Distributes R T)
    (h : Building R T seed all working) (hall : ∀ a ∈ T working, a ∈ span R all) :
    IsLeastClosed R T seed (span R all) := by
  refine ⟨⟨saturated_span hR, h.contains, fun l hl b hb => ?_⟩, fun Y hY => ?_⟩
  · have hsame : span R (l ++ all) = span R all := by
      rw [span_append]
      exact Set.union_eq_right.2 (span_subset (saturated_span hR) hl)
    have hmem : b ∈ span R (T all) := by
      rw [← hT.congr _ _ hsame, hT.union]
      exact Or.inl (subset_span hR hb)
    rcases h.apply_all hT hmem with hb | hb
    · exact hb
    · exact span_subset (saturated_span hR) hall hb
  · exact span_subset hY.1 (h.below Y hY.1 hY.2.1 hY.2.2)

end NewOnly

end Arkeion.Lib
