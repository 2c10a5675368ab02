import Mathlib.Data.List.Basic

/-!
Readers of a string of symbols that go on from a position, and what it means that one finds a value
there. Each way to put readers together comes with a rule that says what is read back.
-/

namespace Arkeion.Lib

/-- ReadsBack a value from a position on, and goes behind it. -/
def Reader (β ε α : Type) := List β → ℕ → Except ε (α × ℕ)

namespace Reader

variable {β ε α γ : Type}

instance : Monad (Reader β ε) where
  pure a := fun _ pos => .ok (a, pos)
  bind r f := fun buf pos => r buf pos >>= fun p => f p.1 buf p.2

/-- What was worked out without reading on. -/
def lift (x : Except ε α) : Reader β ε α := fun _ pos => x >>= fun a => .ok (a, pos)

/-- So many values one after the other. -/
def many (item : Reader β ε α) : ℕ → Reader β ε (List α)
  | 0 => pure []
  | n + 1 => item >>= fun a => many item n >>= fun as => pure (a :: as)

end Reader

section ReadsBack
variable {β ε α γ δ : Type} {N : ℕ} {r : Reader β ε α} {f : α → Reader β ε γ} {b b' c : List β}
  {a : α} {d : γ}

/-- Wherever these symbols stand in a string of less than `N`, the reader finds the value in
them. -/
def ReadsBack (N : ℕ) (r : Reader β ε α) (b : List β) (a : α) : Prop :=
  ∀ x z, (x ++ b ++ z).length < N → r (x ++ b ++ z) x.length = .ok (a, x.length + b.length)

lemma ReadsBack.of_eq (h : ReadsBack N r b a) (heq : b = b') : ReadsBack N r b' a := heq ▸ h

/-- At the beginning of the string. -/
lemma ReadsBack.run (h : ReadsBack N r b a) (hlen : b.length < N) : r b 0 = .ok (a, b.length) := by
  have hall := h [] [] (by simpa using hlen)
  simpa using hall

lemma ReadsBack.pure (a : α) : ReadsBack N (pure a : Reader β ε α) [] a := fun x z _ => by
  rw [List.append_nil, List.length_nil, Nat.add_zero]
  rfl

lemma ReadsBack.lift {x : Except ε α} (h : x = .ok a) : ReadsBack N (.lift x : Reader β ε α) [] a := by
  subst h
  exact .pure a

lemma ReadsBack.bind (h : ReadsBack N r b a) (hf : ReadsBack N (f a) c d) : ReadsBack N (r >>= f) (b ++ c) d := by
  intro x z hlen
  have hfirst : x ++ (b ++ c) ++ z = x ++ b ++ (c ++ z) := by simp
  have hthen : x ++ (b ++ c) ++ z = x ++ b ++ c ++ z := by simp
  have hr := h x (c ++ z) (by rwa [← hfirst])
  have hd := hf (x ++ b) z (by rwa [← hthen])
  rw [← hfirst] at hr
  rw [← hthen, List.length_append] at hd
  change (r (x ++ (b ++ c) ++ z) x.length >>= fun p => f p.1 (x ++ (b ++ c) ++ z) p.2) = _
  rw [hr]
  change f a (x ++ (b ++ c) ++ z) (x.length + b.length) = _
  rw [hd, List.length_append, Nat.add_assoc]

/-- A reader that needs to know the bound. -/
lemma ReadsBack.of_length (h : b.length < N → ReadsBack N r b a) : ReadsBack N r b a := by
  intro x z hlen
  refine h ?_ x z hlen
  simp only [List.length_append] at hlen
  omega

lemma ReadsBack.many {item : Reader β ε α} {enc : α → List β} {as : List α}
    (h : ∀ a ∈ as, ReadsBack N item (enc a) a) :
    ReadsBack N (item.many as.length) (as.flatMap enc) as := by
  induction as with
  | nil => exact .pure []
  | cons a as ih =>
    have hrest := ih fun c hc => h c (by simp [hc])
    refine ((h a (by simp)).bind (hrest.bind (.pure (a :: as)))).of_eq ?_
    rw [List.append_nil, List.flatMap_cons]

lemma length_le_flatMap {enc : α → List β} {as : List α} (h : ∀ a ∈ as, enc a ≠ []) :
    as.length ≤ (as.flatMap enc).length := by
  induction as with
  | nil => exact Nat.le_refl _
  | cons a as ih =>
    have ha := List.length_pos_iff.2 (h a (by simp))
    have hrest := ih fun c hc => h c (by simp [hc])
    rw [List.flatMap_cons, List.length_append, List.length_cons]
    omega

end ReadsBack

end Arkeion.Lib
