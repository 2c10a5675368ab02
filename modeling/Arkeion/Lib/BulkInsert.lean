import Arkeion.Lib.SortedMap
import Mathlib.Data.List.Sort
import Mathlib.Data.List.Perm.Basic

/-!
Inserting the pairs of a list into an ordered map one after the other. Of pairs with one key the
last one stays, and a stable sort by the keys beforehand changes nothing.
-/

namespace Arkeion.Lib

variable {K V : Type*} [LinearOrder K]

def insertAll (l kvs : List (K × V)) : List (K × V) :=
  l.foldl (fun kvs p => insertKey p.1 p.2 kvs) kvs

/-- The value of the last pair of a key. -/
def lastOf (k : K) (l : List (K × V)) : Option V := valueOf k l.reverse

variable {k : K} {v : V} {l r kvs : List (K × V)}

lemma valueOf_append_or : valueOf k (l ++ r) = (valueOf k l).or (valueOf k r) := by
  cases h : valueOf k l with
  | none => rw [valueOf_append h, Option.none_or]
  | some v =>
    rw [Option.some_or]
    induction l with
    | nil => cases h
    | cons p l ih =>
      obtain ⟨k', v'⟩ := p
      rw [List.cons_append, valueOf]
      rw [valueOf] at h
      split_ifs at h ⊢ with hk
      · exact h
      · exact ih h

@[simp] lemma lastOf_nil : lastOf k ([] : List (K × V)) = none := rfl

lemma lastOf_append : lastOf k (l ++ r) = (lastOf k r).or (lastOf k l) := by
  rw [lastOf, List.reverse_append, valueOf_append_or]
  rfl

lemma lastOf_singleton (k' : K) : lastOf k [(k', v)] = if k' = k then some v else none := by
  rw [lastOf, List.reverse_singleton, valueOf, valueOf]

lemma lastOf_eq_none (h : ∀ p ∈ l, p.1 ≠ k) : lastOf k l = none :=
  valueOf_eq_none fun p hp => h p (List.mem_reverse.1 hp)

lemma SortedMap.insertAll (h : SortedMap kvs) : SortedMap (insertAll l kvs) := by
  induction l generalizing kvs with
  | nil => exact h
  | cons p l ih => exact ih h.insertKey

/-- Every key has the value of its last pair, or the one it had. -/
theorem valueOf_insertAll (h : SortedMap kvs) :
    valueOf k (insertAll l kvs) = (lastOf k l).or (valueOf k kvs) := by
  induction l generalizing kvs with
  | nil => rw [lastOf_nil, Option.none_or, insertAll, List.foldl_nil]
  | cons p l ih =>
    obtain ⟨k', v'⟩ := p
    have hsorted : SortedMap (insertKey k' v' kvs) := h.insertKey
    rw [insertAll, List.foldl_cons, ← insertAll, ih hsorted, ← List.singleton_append, lastOf_append,
      lastOf_singleton, Option.or_assoc, valueOf_insertKey h]
    congr 1
    rcases eq_or_ne k k' with rfl | hne
    · rw [Function.update_self, if_pos rfl, Option.some_or]
    · rw [Function.update_of_ne hne, if_neg hne.symm, Option.none_or]

/-- The last pair of a key is the last one of the pairs of the key. -/
lemma lastOf_filter (k : K) (l : List (K × V)) :
    lastOf k l = lastOf k (l.filter fun p => p.1 = k) := by
  induction l with
  | nil => rfl
  | cons p l ih =>
    rw [← List.singleton_append, lastOf_append, ih, List.filter_append, lastOf_append]
    congr 1
    obtain ⟨k', v'⟩ := p
    rcases eq_or_ne k' k with rfl | hne
    · simp
    · rw [lastOf_singleton, if_neg hne]
      simp [hne]

/-- The order of the keys, as a sort asks for it. -/
def keyLe (a b : K × V) : Bool := decide (a.1 ≤ b.1)

lemma filter_mergeSort (k : K) (l : List (K × V)) :
    (l.mergeSort keyLe).filter (fun p => p.1 = k) = l.filter fun p => p.1 = k := by
  have htrans : ∀ a b c : K × V, keyLe a b → keyLe b c → keyLe a c := fun a b c hab hbc =>
    decide_eq_true ((of_decide_eq_true hab).trans (of_decide_eq_true hbc))
  have htotal : ∀ a b : K × V, (keyLe a b || keyLe b a) = true := fun a b => by
    simpa [keyLe] using le_total a.1 b.1
  have hequal : (l.filter fun p => p.1 = k).Pairwise fun a b => keyLe a b := by
    refine List.pairwise_of_forall_mem_list fun a ha b hb => decide_eq_true (le_of_eq ?_)
    rw [of_decide_eq_true (List.mem_filter.1 ha).2, of_decide_eq_true (List.mem_filter.1 hb).2]
  have hsub := (List.sublist_mergeSort htrans htotal hequal List.filter_sublist).filter
    fun p => decide (p.1 = k)
  rw [List.filter_filter] at hsub
  simp only [Bool.and_self] at hsub
  refine (hsub.eq_of_length ?_).symm
  exact ((List.mergeSort_perm l keyLe).filter fun p => decide (p.1 = k)).length_eq.symm

/-- A stable sort by the keys keeps the last pair of each key. -/
theorem lastOf_mergeSort (k : K) (l : List (K × V)) :
    lastOf k (l.mergeSort keyLe) = lastOf k l := by
  rw [lastOf_filter, filter_mergeSort, ← lastOf_filter]

/-- When all pairs of a key are one, it is the last. -/
lemma lastOf_eq_some (h : (k, v) ∈ l) (hone : ∀ p ∈ l, p.1 = k → p.2 = v) :
    lastOf k l = some v := by
  induction l with
  | nil => cases h
  | cons p l ih =>
    rw [← List.singleton_append, lastOf_append]
    by_cases hl : ∃ q ∈ l, q.1 = k
    · obtain ⟨⟨k', v'⟩, hq, rfl⟩ := hl
      obtain rfl : v' = v := hone _ (List.mem_cons_of_mem p hq) rfl
      rw [ih hq fun q hq => hone q (List.mem_cons_of_mem p hq), Option.some_or]
    · have hnone : lastOf k l = none := lastOf_eq_none fun q hq heq => hl ⟨q, hq, heq⟩
      rcases List.mem_cons.1 h with rfl | h
      · rw [hnone, Option.none_or, lastOf_singleton, if_pos rfl]
      · exact absurd ⟨_, h, rfl⟩ hl

end Arkeion.Lib
