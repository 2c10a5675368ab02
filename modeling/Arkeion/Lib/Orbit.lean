import Mathlib.Data.Set.Finite.Basic
import Mathlib.Data.Fintype.EquivFin
import Mathlib.Tactic

/-!
Following a partial function from a start.

Where the function has finitely many values, the steps come to an end exactly when they never
come back to where they have been.
-/

namespace Arkeion.Lib

variable {α : Type*} {f : α → Option α} {a b c : α} {m n : ℕ}

/-- The value after `n` steps, if there is one. -/
def orbit (f : α → Option α) : ℕ → α → Option α
  | 0, a => some a
  | n + 1, a => (f a).bind (orbit f n)

@[simp] lemma orbit_zero : orbit f 0 a = some a := rfl

lemma orbit_succ : orbit f (n + 1) a = (f a).bind (orbit f n) := rfl

lemma orbit_add (m n : ℕ) (a : α) : orbit f (m + n) a = (orbit f m a).bind (orbit f n) := by
  induction m generalizing a with
  | zero => simp
  | succ m ih =>
    rw [show m + 1 + n = m + n + 1 by omega, orbit_succ, orbit_succ]
    cases f a with
    | none => rfl
    | some b => exact ih b

lemma orbit_of_some (hm : orbit f m a = some b) : orbit f (m + n) a = orbit f n b := by
  rw [orbit_add, hm, Option.bind_some]

lemma orbit_none_of_le (h : orbit f m a = none) (hmn : m ≤ n) : orbit f n a = none := by
  rw [show n = m + (n - m) by omega, orbit_add, h, Option.bind_none]

/-- The steps come back to a place where they have been. -/
def ComesBack (f : α → Option α) (a : α) : Prop :=
  ∃ m n b, orbit f m a = some b ∧ 0 < n ∧ orbit f n b = some b

lemma orbit_mul (h : orbit f n b = some b) (k : ℕ) : orbit f (k * n) b = some b := by
  induction k with
  | zero => simp
  | succ k ih => rw [Nat.succ_mul, orbit_of_some ih, h]

lemma ComesBack.orbit_ne_none (h : ComesBack f a) (k : ℕ) : orbit f k a ≠ none := by
  obtain ⟨m, n, b, hm, hn, hb⟩ := h
  intro hk
  have hle : k ≤ m + k * n := by nlinarith
  have hnone := orbit_none_of_le hk hle
  rw [orbit_of_some hm, orbit_mul hb] at hnone
  cases hnone

/-- Finitely many values: a start whose steps never end comes back. -/
lemma comesBack_of_forall (hfin : {b | ∃ a, f a = some b}.Finite) (h : ∀ n, orbit f n a ≠ none) :
    ComesBack f a := by
  choose g hg using fun n => Option.ne_none_iff_exists'.1 (h n)
  have hval (n : ℕ) : g (n + 1) ∈ {b | ∃ a, f a = some b} := by
    have hn := hg (n + 1)
    rw [orbit_of_some (hg n), orbit_succ, Option.bind_eq_some_iff] at hn
    obtain ⟨b, hb, hn⟩ := hn
    rw [orbit_zero, Option.some.injEq] at hn
    exact ⟨g n, hn ▸ hb⟩
  have := hfin.to_subtype
  obtain ⟨i, j, hij, he⟩ := Finite.exists_ne_map_eq_of_infinite
    fun n => (⟨g (n + 1), hval n⟩ : {b | ∃ a, f a = some b})
  have hg' : g (i + 1) = g (j + 1) := congrArg Subtype.val he
  have hback {i j : ℕ} (hlt : i < j) (he : g (i + 1) = g (j + 1)) : ComesBack f a := by
    refine ⟨i + 1, j - i, g (i + 1), hg (i + 1), by omega, ?_⟩
    rw [← orbit_of_some (hg (i + 1)), show i + 1 + (j - i) = j + 1 by omega, hg, he]
  rcases Nat.lt_or_gt_of_ne hij with hlt | hlt
  · exact hback hlt hg'
  · exact hback hlt hg'.symm

theorem orbit_ends_iff (hfin : {b | ∃ a, f a = some b}.Finite) :
    (∃ n, orbit f n a = none) ↔ ¬ ComesBack f a := by
  constructor
  · rintro ⟨n, hn⟩ hback
    exact hback.orbit_ne_none n hn
  · intro hback
    by_contra hno
    exact hback (comesBack_of_forall hfin fun n hn => hno ⟨n, hn⟩)

end Arkeion.Lib
