import Mathlib.Data.List.Basic
import Mathlib.Data.List.Pairwise
import Mathlib.Order.Lattice
import Mathlib.Logic.Function.Basic

/-!
Finite maps as lists of pairs in ascending order of their keys.

Inserting and erasing a key in the middle part of a list only changes that part, when the
keys before and after it lie on their sides.
-/

namespace Arkeion.Lib

variable {K V : Type*} [LinearOrder K]

/-- The keys are strictly ascending. -/
def SortedMap (l : List (K × V)) : Prop := l.Pairwise fun a b => a.1 < b.1

/-- The value of a key. -/
def valueOf (k : K) : List (K × V) → Option V
  | [] => none
  | (k', v) :: l => if k' = k then some v else valueOf k l

def insertKey (k : K) (v : V) : List (K × V) → List (K × V)
  | [] => [(k, v)]
  | (k', v') :: l =>
    if k' < k then (k', v') :: insertKey k v l
    else if k' = k then (k, v) :: l
    else (k, v) :: (k', v') :: l

def eraseKey (k : K) (l : List (K × V)) : List (K × V) := l.filter fun p => p.1 ≠ k

/-- The pairs from a key on. -/
def fromKey (k : K) (l : List (K × V)) : List (K × V) := l.filter fun p => k ≤ p.1

section Append
variable {k : K} {v : V} {l r : List (K × V)}

lemma valueOf_append (h : valueOf k l = none) : valueOf k (l ++ r) = valueOf k r := by
  induction l with
  | nil => rfl
  | cons p l ih =>
    obtain ⟨k', v'⟩ := p
    simp only [List.cons_append, valueOf] at h ⊢
    split_ifs at h ⊢
    exact ih h

lemma valueOf_append_of_none (h : valueOf k r = none) : valueOf k (l ++ r) = valueOf k l := by
  induction l with
  | nil => exact h
  | cons p l ih =>
    obtain ⟨k', v'⟩ := p
    simp only [List.cons_append, valueOf, ih]

lemma valueOf_eq_none (h : ∀ p ∈ l, p.1 ≠ k) : valueOf k l = none := by
  induction l with
  | nil => rfl
  | cons p l ih =>
    rw [valueOf, if_neg (h p (by simp))]
    exact ih fun q hq => h q (by simp [hq])

lemma insertKey_append (h : ∀ p ∈ l, p.1 < k) :
    insertKey k v (l ++ r) = l ++ insertKey k v r := by
  induction l with
  | nil => rfl
  | cons p l ih =>
    rw [List.cons_append, insertKey, if_pos (h p (by simp)), ih fun q hq => h q (by simp [hq])]
    rfl

lemma insertKey_append_of_gt (h : ∀ p ∈ r, k < p.1) :
    insertKey k v (l ++ r) = insertKey k v l ++ r := by
  induction l with
  | nil =>
    cases r with
    | nil => rfl
    | cons p r =>
      obtain ⟨kp, vp⟩ := p
      have hp : k < kp := h (kp, vp) (by simp)
      simp only [List.nil_append, insertKey, if_neg (not_lt_of_gt hp), if_neg (ne_of_gt hp),
        List.cons_append]
  | cons p l ih =>
    rw [List.cons_append, insertKey, insertKey, ih]
    split_ifs <;> rfl

lemma insertKey_cons_eq (v' : V) : insertKey k v ((k, v') :: l) = (k, v) :: l := by
  rw [insertKey, if_neg (lt_irrefl k), if_pos rfl]

lemma insertKey_insertKey (w : V) : insertKey k w (insertKey k v l) = insertKey k w l := by
  induction l with
  | nil => simp [insertKey]
  | cons p l ih =>
    obtain ⟨k', v'⟩ := p
    simp only [insertKey]
    split_ifs with h1 h2
    · rw [insertKey, if_pos h1, ih]
    · exact insertKey_cons_eq ..
    · exact insertKey_cons_eq ..

lemma insertKey_of_gt (h : ∀ p ∈ r, k < p.1) : insertKey k v r = (k, v) :: r := by
  simpa [insertKey] using insertKey_append_of_gt (v := v) (l := []) h

lemma eraseKey_append : eraseKey k (l ++ r) = eraseKey k l ++ eraseKey k r := List.filter_append ..

lemma eraseKey_of_ne (h : ∀ p ∈ l, p.1 ≠ k) : eraseKey k l = l :=
  List.filter_eq_self.2 fun p hp => by simpa using h p hp

/-! Between keys below and keys above only the middle part changes. -/

lemma valueOf_middle {c : List (K × V)} (h₁ : ∀ p ∈ l, p.1 < k) (h₂ : ∀ p ∈ r, k < p.1) :
    valueOf k (l ++ (c ++ r)) = valueOf k c := by
  rw [valueOf_append (valueOf_eq_none fun p hp => (h₁ p hp).ne),
    valueOf_append_of_none (valueOf_eq_none fun p hp => (h₂ p hp).ne')]

lemma insertKey_middle {c : List (K × V)} (h₁ : ∀ p ∈ l, p.1 < k) (h₂ : ∀ p ∈ r, k < p.1) :
    insertKey k v (l ++ (c ++ r)) = l ++ (insertKey k v c ++ r) := by
  rw [insertKey_append h₁, insertKey_append_of_gt h₂]

lemma eraseKey_middle {c : List (K × V)} (h₁ : ∀ p ∈ l, p.1 < k) (h₂ : ∀ p ∈ r, k < p.1) :
    eraseKey k (l ++ (c ++ r)) = l ++ (eraseKey k c ++ r) := by
  rw [eraseKey_append, eraseKey_append, eraseKey_of_ne fun p hp => (h₁ p hp).ne,
    eraseKey_of_ne fun p hp => (h₂ p hp).ne']

lemma fromKey_append : fromKey k (l ++ r) = fromKey k l ++ fromKey k r := List.filter_append ..

@[simp] lemma valueOf_singleton : valueOf k [(k, v)] = some v := by simp [valueOf]

@[simp] lemma eraseKey_singleton : eraseKey k [(k, v)] = [] := by simp [eraseKey]

lemma fromKey_of_ge (h : ∀ p ∈ l, k ≤ p.1) : fromKey k l = l :=
  List.filter_eq_self.2 fun p hp => by simpa using h p hp

lemma fromKey_of_lt (h : ∀ p ∈ l, p.1 < k) : fromKey k l = [] :=
  List.filter_eq_nil_iff.2 fun p hp => by simpa using h p hp

end Append

section Order
variable {k : K} {v : V} {l r : List (K × V)}

lemma sortedMap_append : SortedMap (l ++ r) ↔
    SortedMap l ∧ SortedMap r ∧ ∀ p ∈ l, ∀ q ∈ r, p.1 < q.1 := List.pairwise_append

lemma sortedMap_cons {p : K × V} : SortedMap (p :: l) ↔ (∀ q ∈ l, p.1 < q.1) ∧ SortedMap l :=
  List.pairwise_cons

lemma mem_insertKey {p : K × V} (h : p ∈ insertKey k v l) : p = (k, v) ∨ p ∈ l := by
  induction l with
  | nil => simpa [insertKey] using h
  | cons q l ih =>
    rw [insertKey] at h
    split_ifs at h
    · rcases List.mem_cons.1 h with rfl | h
      · exact Or.inr (by simp)
      · exact (ih h).imp id fun h => by simp [h]
    · rcases List.mem_cons.1 h with rfl | h
      · exact Or.inl rfl
      · exact Or.inr (by simp [h])
    · rcases List.mem_cons.1 h with rfl | h
      · exact Or.inl rfl
      · exact Or.inr h

lemma SortedMap.insertKey (h : SortedMap l) : SortedMap (insertKey k v l) := by
  induction l with
  | nil => simp [Lib.insertKey, SortedMap]
  | cons p l ih =>
    obtain ⟨hp, hl⟩ := sortedMap_cons.1 h
    rw [Lib.insertKey]
    split_ifs with hlt heq
    · refine sortedMap_cons.2 ⟨fun q hq => ?_, ih hl⟩
      rcases mem_insertKey hq with rfl | hq
      · exact hlt
      · exact hp q hq
    · subst heq
      exact sortedMap_cons.2 ⟨hp, hl⟩
    · have hgt : k < p.1 := lt_of_le_of_ne (not_lt.1 hlt) fun h => heq h.symm
      refine sortedMap_cons.2 ⟨fun q hq => ?_, h⟩
      rcases List.mem_cons.1 hq with rfl | hq
      · exact hgt
      · exact hgt.trans (hp q hq)

lemma length_insertKey_le (k : K) (v : V) (l : List (K × V)) :
    (Lib.insertKey k v l).length ≤ l.length + 1 := by
  induction l with
  | nil => simp [Lib.insertKey]
  | cons p l ih =>
    rw [Lib.insertKey]
    split_ifs <;> simp [ih]

lemma SortedMap.eraseKey (h : SortedMap l) : SortedMap (eraseKey k l) := h.filter _

/-- Inserting a key gives it its value and leaves the other keys theirs. -/
theorem valueOf_insertKey (h : SortedMap l) (k' : K) :
    valueOf k' (insertKey k v l) = Function.update (fun k' => valueOf k' l) k (some v) k' := by
  induction l with
  | nil =>
    rcases eq_or_ne k' k with rfl | hne
    · simp [insertKey, valueOf]
    · simp [insertKey, valueOf, hne, hne.symm]
  | cons p l ih =>
    obtain ⟨kp, vp⟩ := p
    obtain ⟨hp, hl⟩ := sortedMap_cons.1 h
    have hnone (hk : k ≤ kp) : valueOf k l = none :=
      valueOf_eq_none fun q hq => ne_of_gt (hk.trans_lt (hp q hq))
    rw [insertKey]
    split_ifs with hlt heq
    · rw [valueOf, ih hl]
      rcases eq_or_ne k' k with rfl | hne
      · simp [hlt.ne]
      · simp [valueOf, hne]
    · subst heq
      rcases eq_or_ne k' kp with rfl | hne
      · simp [valueOf]
      · simp [valueOf, hne, hne.symm]
    · rcases eq_or_ne k' k with rfl | hne
      · simp [valueOf]
      · simp [valueOf, hne, hne.symm]

/-- Erasing a key takes it out and leaves the other keys their values. -/
theorem valueOf_eraseKey (l : List (K × V)) (k' : K) :
    valueOf k' (eraseKey k l) = Function.update (fun k' => valueOf k' l) k none k' := by
  induction l with
  | nil =>
    rcases eq_or_ne k' k with rfl | hne
    · simp [eraseKey, valueOf]
    · simp [eraseKey, valueOf, hne]
  | cons p l ih =>
    obtain ⟨kp, vp⟩ := p
    rcases eq_or_ne kp k with rfl | hne
    · have hstep : eraseKey kp ((kp, vp) :: l) = eraseKey kp l := by simp [eraseKey]
      rw [hstep, ih]
      rcases eq_or_ne k' kp with rfl | hne'
      · simp
      · simp [valueOf, hne', hne'.symm]
    · have hstep : eraseKey k ((kp, vp) :: l) = (kp, vp) :: eraseKey k l := by
        simp [eraseKey, hne]
      rw [hstep, valueOf, ih]
      rcases eq_or_ne k' k with rfl | hne'
      · simp [hne]
      · simp [valueOf, hne']

lemma valueOf_insertKey_self (h : SortedMap l) : valueOf k (insertKey k v l) = some v := by
  rw [valueOf_insertKey h, Function.update_self]

lemma valueOf_insertKey_of_ne (h : SortedMap l) {k' : K} (hne : k' ≠ k) :
    valueOf k' (insertKey k v l) = valueOf k' l := by
  rw [valueOf_insertKey h, Function.update_of_ne hne]

lemma valueOf_eraseKey_self (l : List (K × V)) : valueOf k (eraseKey k l) = none := by
  rw [valueOf_eraseKey, Function.update_self]

lemma valueOf_eraseKey_of_ne (l : List (K × V)) {k' : K} (hne : k' ≠ k) :
    valueOf k' (eraseKey k l) = valueOf k' l := by
  rw [valueOf_eraseKey, Function.update_of_ne hne]

lemma mem_iff_valueOf (h : SortedMap l) : (k, v) ∈ l ↔ valueOf k l = some v := by
  induction l with
  | nil => simp [valueOf]
  | cons p l ih =>
    obtain ⟨kp, vp⟩ := p
    obtain ⟨hp, hl⟩ := sortedMap_cons.1 h
    rw [List.mem_cons, ih hl, valueOf, Prod.mk.injEq]
    split_ifs with heq
    · subst heq
      have hnone : valueOf kp l = none := valueOf_eq_none fun q hq => ne_of_gt (hp q hq)
      simp [hnone, eq_comm]
    · simp [Ne.symm heq]

end Order

end Arkeion.Lib
