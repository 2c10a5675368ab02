import Mathlib.Data.List.Count
import Mathlib.Data.List.Perm.Basic
import Mathlib.Logic.Relation

/-!
Things that point to one another, and walks over everything that can be reached from some of
them. A walk that ends shows what is reachable and how many pointers lead to each thing.
-/

namespace Arkeion.Lib

variable {α : Type}

/-- What is reached by following pointers. -/
def ReachesBy (next : α → List α) : α → α → Prop :=
  Relation.ReflTransGen fun a b => b ∈ next a

/-- Visiting some things, and after each what it points to, gives the list. -/
inductive Visits (next : α → List α) : List α → List α → Prop
  | nil : Visits next [] []
  | cons {a : α} {as V W : List α} (below : Visits next (next a) V) (rest : Visits next as W) :
    Visits next (a :: as) (a :: (V ++ W))

namespace Visits
variable {next next' : α → List α} {as bs V W : List α}

lemma append (h : Visits next as V) (h' : Visits next bs W) : Visits next (as ++ bs) (V ++ W) := by
  induction h with
  | nil => exact h'
  | cons below _ _ ih =>
    rw [List.cons_append, List.cons_append, List.append_assoc]
    exact .cons below ih

lemma single {a : α} (h : Visits next (next a) V) : Visits next [a] (a :: V) := by
  have hcons : Visits next [a] (a :: (V ++ [])) := .cons h .nil
  rwa [List.append_nil] at hcons

/-- Every visit to a thing but the first ones is along a pointer of a visited thing. -/
lemma perm (h : Visits next as W) : W.Perm (as ++ W.flatMap next) := by
  induction h with
  | nil => rfl
  | @cons a as V W _ _ ihbelow ihrest =>
    rw [List.flatMap_cons, List.flatMap_append, List.cons_append]
    refine List.Perm.cons a ?_
    have hsplit := ihbelow.append ihrest
    have hswap : ((next a ++ V.flatMap next) ++ (as ++ W.flatMap next)).Perm
        ((as ++ W.flatMap next) ++ (next a ++ V.flatMap next)) := List.perm_append_comm
    have hrest : (W.flatMap next ++ (next a ++ V.flatMap next)).Perm
        ((next a ++ V.flatMap next) ++ W.flatMap next) := List.perm_append_comm
    rw [List.append_assoc as] at hswap
    rw [List.append_assoc (next a)] at hrest
    exact hsplit.trans (hswap.trans (hrest.append_left as))

lemma of_mem (h : Visits next as W) {a : α} (ha : a ∈ as) : a ∈ W :=
  h.perm.symm.subset (List.mem_append_left _ ha)

/-- What was visited points to what was visited. -/
lemma closed (h : Visits next as W) {a b : α} (ha : a ∈ W) (hb : b ∈ next a) : b ∈ W :=
  h.perm.symm.subset (List.mem_append_right _ (List.mem_flatMap.2 ⟨a, ha, hb⟩))

lemma reached (h : Visits next as W) {b : α} (hb : b ∈ W) : ∃ a ∈ as, ReachesBy next a b := by
  induction h with
  | nil => cases hb
  | @cons a as V W _ _ ihbelow ihrest =>
    rcases List.mem_cons.1 hb with rfl | hb
    · exact ⟨b, List.mem_cons_self .., .refl⟩
    rcases List.mem_append.1 hb with hb | hb
    · obtain ⟨c, hc, hcb⟩ := ihbelow hb
      exact ⟨a, List.mem_cons_self .., .head hc hcb⟩
    · obtain ⟨c, hc, hcb⟩ := ihrest hb
      exact ⟨c, List.mem_cons_of_mem _ hc, hcb⟩

/-- A walk visits what is reachable, and nothing else. -/
lemma mem_iff {a b : α} (h : Visits next [a] W) : b ∈ W ↔ ReachesBy next a b := by
  constructor
  · intro hb
    obtain ⟨c, hc, hcb⟩ := h.reached hb
    rwa [List.mem_singleton.1 hc] at hcb
  · intro hb
    induction hb with
    | refl => exact h.of_mem (List.mem_singleton_self a)
    | tail _ hstep ih => exact h.closed ih hstep

/-- Only the pointers of what is visited matter. -/
lemma congr (h : Visits next as W) (hn : ∀ a ∈ W, next' a = next a) : Visits next' as W := by
  induction h with
  | nil => exact .nil
  | @cons a as V W _ _ ihbelow ihrest =>
    have hbelow := ihbelow fun b hb => hn b (by simp [hb])
    rw [← hn a (by simp)] at hbelow
    exact .cons hbelow (ihrest fun b hb => hn b (by simp [hb]))

end Visits

/-! ### One pointer -/

section Count
variable [DecidableEq α] {next : α → List α} {W : List α}

lemma count_eq_two {l : List α} {x : α} {i j : ℕ} (hij : i < j) (hi : l[i]? = some x)
    (hj : l[j]? = some x) : 2 ≤ l.count x := by
  obtain ⟨hlt, hget⟩ := List.getElem?_eq_some_iff.1 hj
  have htake : x ∈ l.take j := List.mem_of_getElem? (i := i) (by rw [List.getElem?_take, if_pos hij, hi])
  have hdrop : x ∈ l.drop j := List.mem_of_getElem? (i := 0) (by rw [List.getElem?_drop, Nat.add_zero, hj])
  calc 2 ≤ (l.take j).count x + (l.drop j).count x :=
        Nat.add_le_add (List.count_pos_iff.2 htake) (List.count_pos_iff.2 hdrop)
    _ = l.count x := by rw [← List.count_append, List.take_append_drop]

/-- If the things hold one pointer to `x` in all, there is one place where it is. -/
lemma place_unique {x a b : α} {i j : ℕ} (hone : (W.flatMap next).count x ≤ 1) (ha : a ∈ W)
    (hb : b ∈ W) (hi : (next a)[i]? = some x) (hj : (next b)[j]? = some x) : a = b ∧ i = j := by
  have hxa : x ∈ next a := List.mem_of_getElem? hi
  have hxb : x ∈ next b := List.mem_of_getElem? hj
  have hab : a = b := by
    by_contra hne
    have hperm := List.perm_cons_erase ha
    have hb' : b ∈ W.erase a := (List.mem_erase_of_ne (Ne.symm hne)).2 hb
    have hflat := (hperm.flatMap_right next).count_eq x
    rw [List.flatMap_cons, List.count_append] at hflat
    have h₁ := List.count_pos_iff.2 hxa
    have h₂ := List.count_pos_iff.2 (List.mem_flatMap.2 ⟨b, hb', hxb⟩)
    omega
  subst hab
  have hle : (next a).count x ≤ (W.flatMap next).count x := by
    rw [((List.perm_cons_erase ha).flatMap_right next).count_eq x, List.flatMap_cons,
      List.count_append]
    exact Nat.le_add_right _ _
  refine ⟨rfl, ?_⟩
  rcases Nat.lt_trichotomy i j with hlt | heq | hgt
  · have := count_eq_two hlt hi hj
    omega
  · exact heq
  · have := count_eq_two hgt hj hi
    omega

end Count

end Arkeion.Lib
