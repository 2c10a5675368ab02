import Mathlib.Data.List.Basic
import Mathlib.Data.List.Induction

/-!
Chains of digests: every item is hashed together with the digest before it.

When the hash does not collide on the pairs two chains are made of, and never gives back a
seed, the digest at the end determines the whole list of items.
-/

namespace Arkeion.Lib

variable {D α : Type*} (f : D → α → D)

/-- The digest after the items. -/
def chainEnd (seed : D) (xs : List α) : D := xs.foldl f seed

/-- Every item with the digest before it. -/
def links (seed : D) : List α → List (D × α)
  | [] => []
  | x :: xs => (seed, x) :: links (f seed x) xs

@[simp] lemma chainEnd_nil (s : D) : chainEnd f s [] = s := rfl
@[simp] lemma chainEnd_cons (s : D) (x : α) (xs : List α) :
    chainEnd f s (x :: xs) = chainEnd f (f s x) xs := rfl

lemma chainEnd_append (s : D) (xs ys : List α) :
    chainEnd f s (xs ++ ys) = chainEnd f (chainEnd f s xs) ys := by
  simp [chainEnd]

lemma links_append (s : D) (xs ys : List α) :
    links f s (xs ++ ys) = links f s xs ++ links f (chainEnd f s xs) ys := by
  induction xs generalizing s with
  | nil => rfl
  | cons x xs ih => simp [links, ih]

lemma links_snoc (s : D) (xs : List α) (x : α) :
    links f s (xs ++ [x]) = links f s xs ++ [(chainEnd f s xs, x)] := by
  simp [links_append, links]

/-- The end determines the chain. -/
theorem eq_of_chainEnd_eq {s t : D} {xs ys : List α}
    (hinj : ∀ p ∈ links f s xs, ∀ q ∈ links f t ys, f p.1 p.2 = f q.1 q.2 → p = q)
    (hs : ∀ q ∈ links f t ys, f q.1 q.2 ≠ s) (ht : ∀ p ∈ links f s xs, f p.1 p.2 ≠ t)
    (h : chainEnd f s xs = chainEnd f t ys) : xs = ys := by
  induction xs using List.reverseRecOn generalizing ys with
  | nil =>
    rcases List.eq_nil_or_concat' ys with rfl | ⟨ys, y, rfl⟩
    · rfl
    · have hy := hs (chainEnd f t ys, y) (by simp [links_snoc])
      rw [chainEnd_append] at h
      exact absurd h.symm hy
  | append_singleton xs x ih =>
    rcases List.eq_nil_or_concat' ys with rfl | ⟨ys, y, rfl⟩
    · have hx := ht (chainEnd f s xs, x) (by simp [links_snoc])
      rw [chainEnd_append] at h
      exact absurd h hx
    · simp only [links_snoc, List.mem_append, List.mem_singleton] at hinj hs ht
      rw [chainEnd_append, chainEnd_append] at h
      have hp := hinj _ (Or.inr rfl) _ (Or.inr rfl) h
      rw [Prod.mk.injEq] at hp
      obtain ⟨hend, rfl⟩ := hp
      rw [ih (fun p hp q hq => hinj p (Or.inl hp) q (Or.inl hq)) (fun q hq => hs q (Or.inl hq))
        (fun p hp => ht p (Or.inl hp)) hend]

/-- Pieces of one length can be read back off their concatenation. -/
lemma flatten_inj {n : ℕ} (hn : 0 < n) {xs ys : List (List α)} (hx : ∀ x ∈ xs, x.length = n)
    (hy : ∀ y ∈ ys, y.length = n) (h : xs.flatten = ys.flatten) : xs = ys := by
  induction xs generalizing ys with
  | nil =>
    cases ys with
    | nil => rfl
    | cons y ys =>
      have hl := congrArg List.length h
      have := hy y (by simp)
      simp only [List.flatten_nil, List.flatten_cons, List.length_nil, List.length_append] at hl
      omega
  | cons x xs ih =>
    cases ys with
    | nil =>
      have hl := congrArg List.length h
      have := hx x (by simp)
      simp only [List.flatten_nil, List.flatten_cons, List.length_nil, List.length_append] at hl
      omega
    | cons y ys =>
      rw [List.flatten_cons, List.flatten_cons] at h
      have hlen : x.length = y.length := by rw [hx x (by simp), hy y (by simp)]
      obtain ⟨rfl, hrest⟩ := List.append_inj h hlen
      rw [ih (fun z hz => hx z (by simp [hz])) (fun z hz => hy z (by simp [hz])) hrest]

end Arkeion.Lib
