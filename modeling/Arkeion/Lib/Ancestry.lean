import Mathlib.Logic.Relation
import Mathlib.Order.Basic

/-!
Nodes with at most one parent each. The ancestors of a node form a chain, so two nodes that have
a common ancestor have a nearest one.
-/

namespace Arkeion.Lib

variable {α : Type*} (parent : α → Option α)

/-- The node is reached from the other one by going to the parent, any number of times. -/
def Ancestor (a v : α) : Prop := Relation.ReflTransGen (fun x y => parent x = some y) v a

/-- The common ancestor that all common ancestors are ancestors of. -/
structure IsMergeBase (u v c : α) : Prop where
  left : Ancestor parent c u
  right : Ancestor parent c v
  nearest : ∀ d, Ancestor parent d u → Ancestor parent d v → Ancestor parent d c

variable {parent} {a b c u v w p : α}

namespace Ancestor

lemma refl (v : α) : Ancestor parent v v := Relation.ReflTransGen.refl

lemma trans (h : Ancestor parent a b) (h' : Ancestor parent b c) : Ancestor parent a c :=
  Relation.ReflTransGen.trans h' h

/-- The ancestors of a node are itself and those of its parent. -/
lemma of_parent (hp : parent v = some p) : Ancestor parent a v ↔ a = v ∨ Ancestor parent a p := by
  constructor
  · intro h
    rcases h.cases_head with rfl | ⟨q, hq, h⟩
    · exact Or.inl rfl
    · rw [hp] at hq
      cases hq
      exact Or.inr h
  · rintro (rfl | h)
    · exact refl a
    · exact Relation.ReflTransGen.head hp h

lemma of_root (hp : parent v = none) : Ancestor parent a v ↔ a = v := by
  constructor
  · intro h
    rcases h.cases_head with rfl | ⟨q, hq, -⟩
    · rfl
    · rw [hp] at hq
      cases hq
  · rintro rfl
    exact refl a

/-- Ancestors stay among nodes that are closed under parents. -/
lemma mem {K : Set α} (hK : ∀ v ∈ K, ∀ p, parent v = some p → p ∈ K) (hv : v ∈ K)
    (h : Ancestor parent a v) : a ∈ K := by
  induction h with
  | refl => exact hv
  | tail _ hp ih => exact hK _ ih _ hp

/-- Parents that agree on such nodes give them the same ancestors. -/
lemma congr {K : Set α} {parent' : α → Option α} (hK : ∀ v ∈ K, ∀ p, parent v = some p → p ∈ K)
    (heq : ∀ v ∈ K, parent' v = parent v) (hv : v ∈ K) :
    Ancestor parent' a v ↔ Ancestor parent a v := by
  constructor
  · intro h
    suffices a ∈ K ∧ Ancestor parent a v from this.2
    induction h with
    | refl => exact ⟨hv, refl v⟩
    | tail _ hp ih =>
      rw [heq _ ih.1] at hp
      exact ⟨hK _ ih.1 _ hp, ih.2.tail hp⟩
  · intro h
    induction h with
    | refl => exact refl v
    | @tail x y hx hp ih =>
      refine Relation.ReflTransGen.tail ih ?_
      rwa [heq x (mem hK hv hx)]

end Ancestor

namespace IsMergeBase

lemma congr {K : Set α} {parent' : α → Option α} (hK : ∀ v ∈ K, ∀ p, parent v = some p → p ∈ K)
    (heq : ∀ v ∈ K, parent' v = parent v) (hu : u ∈ K) (hv : v ∈ K)
    (h : IsMergeBase parent u v c) : IsMergeBase parent' u v c where
  left := (Ancestor.congr hK heq hu).2 h.left
  right := (Ancestor.congr hK heq hv).2 h.right
  nearest d hdu hdv := (Ancestor.congr hK heq (Ancestor.mem hK hu h.left)).2
    (h.nearest d ((Ancestor.congr hK heq hu).1 hdu) ((Ancestor.congr hK heq hv).1 hdv))

/-- A node and one of its ancestors. -/
lemma of_ancestor (h : Ancestor parent v u) : IsMergeBase parent u v v :=
  ⟨h, .refl v, fun _ _ hd => hd⟩

/-- Below a node that is no ancestor the parent is in question. -/
lemma of_parent (hp : parent v = some p) (hv : ¬ Ancestor parent v u)
    (h : IsMergeBase parent u p c) : IsMergeBase parent u v c where
  left := h.left
  right := (Ancestor.of_parent hp).2 (Or.inr h.right)
  nearest d hu hd := by
    rcases (Ancestor.of_parent hp).1 hd with rfl | hd
    · exact absurd hu hv
    · exact h.nearest d hu hd

lemma self (v : α) : IsMergeBase parent v v v := of_ancestor (.refl v)

lemma swap (h : IsMergeBase parent u v c) : IsMergeBase parent v u c :=
  ⟨h.right, h.left, fun d hv hu => h.nearest d hu hv⟩

/-- Where parents come earlier, the merge base is the only one. -/
lemma unique [PartialOrder α] {K : Set α}
    (hK : ∀ v ∈ K, ∀ p, parent v = some p → p ∈ K ∧ p < v) (hu : u ∈ K)
    (h : IsMergeBase parent u v a) (h' : IsMergeBase parent u v b) : a = b := by
  have hmem {x : α} (hx : Ancestor parent x u) : x ∈ K :=
    Ancestor.mem (fun v hv p hp => (hK v hv p hp).1) hu hx
  have hle {x y : α} (hy : y ∈ K) (hxy : Ancestor parent x y) : x ≤ y := by
    suffices x ∈ K ∧ x ≤ y from this.2
    induction hxy with
    | refl => exact ⟨hy, le_rfl⟩
    | tail _ hp ih =>
      obtain ⟨hmem, hlt⟩ := hK _ ih.1 _ hp
      exact ⟨hmem, hlt.le.trans ih.2⟩
  exact le_antisymm (hle (hmem h'.left) (h'.nearest a h.left h.right))
    (hle (hmem h.left) (h.nearest b h'.left h'.right))

end IsMergeBase

end Arkeion.Lib
