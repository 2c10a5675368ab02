import Arkeion.Lib.BerlekampMassey
import Mathlib.Algebra.Polynomial.BigOperators
import Mathlib.Algebra.Ring.GeomSum

/-!
Sums of powers as a fraction: the denominator knows whose powers they are, and the numerator with
which values (Forney).
-/

namespace Arkeion.Lib

open Polynomial

variable {F ι : Type*} [Field F] {s : Finset ι} {x y : ι → F} {S : F[X]} {N : ℕ}
  {i : ι} {b : F}

/-- The inverses of the `x i` are its roots. -/
noncomputable def locator (s : Finset ι) (x : ι → F) : F[X] := ∏ i ∈ s, (1 - C (x i) * X)

lemma locator_coeff_zero (s : Finset ι) (x : ι → F) : (locator s x).coeff 0 = 1 := by
  rw [coeff_zero_eq_eval_zero, locator, eval_prod]
  refine Finset.prod_eq_one fun i _ => ?_
  simp

lemma natDegree_factor_le (b : F) : (1 - C b * X).natDegree ≤ 1 :=
  (natDegree_sub_le _ _).trans (max_le (natDegree_one.le.trans zero_le_one) ((natDegree_C_mul_le _ _).trans natDegree_X_le))

lemma natDegree_factor (hb : b ≠ 0) : (1 - C b * X).natDegree = 1 := by
  refine le_antisymm (natDegree_factor_le b) (le_natDegree_of_ne_zero ?_)
  rw [coeff_sub, coeff_C_mul_X, if_pos rfl, coeff_one, if_neg one_ne_zero, zero_sub]
  exact neg_ne_zero.2 hb

lemma natDegree_locator_le (s : Finset ι) (x : ι → F) : (locator s x).natDegree ≤ s.card := by
  refine (natDegree_prod_le _ _).trans ((Finset.sum_le_card_nsmul _ _ 1 fun i _ => ?_).trans ?_)
  · exact natDegree_factor_le (x i)
  · rw [smul_eq_mul, mul_one]

lemma natDegree_locator (hx : ∀ i ∈ s, x i ≠ 0) : (locator s x).natDegree = s.card := by
  have hne : ∀ i ∈ s, (1 - C (x i) * X : F[X]) ≠ 0 := fun i hi h0 => by
    have hdeg := natDegree_factor (hx i hi)
    rw [h0, natDegree_zero] at hdeg
    exact zero_ne_one hdeg
  rw [locator, natDegree_prod _ _ hne, Finset.card_eq_sum_ones]
  exact Finset.sum_congr rfl fun i hi => natDegree_factor (hx i hi)

lemma eval_locator (s : Finset ι) (x : ι → F) (b : F) :
    (locator s x).eval b = ∏ i ∈ s, (1 - x i * b) := by
  rw [locator, eval_prod]
  refine Finset.prod_congr rfl fun i _ => ?_
  simp

lemma factor_eq_zero (hb : b ≠ 0) (a : F) : 1 - a * b⁻¹ = 0 ↔ a = b := by
  rw [sub_eq_zero, eq_comm, mul_inv_eq_one₀ hb]

/-- The roots of the locator. -/
lemma eval_locator_eq_zero (hb : b ≠ 0) :
    (locator s x).eval b⁻¹ = 0 ↔ ∃ i ∈ s, x i = b := by
  rw [eval_locator, Finset.prod_eq_zero_iff]
  simp only [factor_eq_zero hb]

section Fraction
variable [DecidableEq ι]

noncomputable def evaluator (s : Finset ι) (x y : ι → F) : F[X] :=
  ∑ i ∈ s, C (y i) * locator (s.erase i) x

lemma evaluator_coeff_eq_zero {k : ℕ} (hk : s.card ≤ k) : (evaluator s x y).coeff k = 0 := by
  rw [evaluator, finsetSum_coeff]
  refine Finset.sum_eq_zero fun i hi => ?_
  rw [coeff_C_mul, coeff_eq_zero_of_natDegree_lt, mul_zero]
  refine (natDegree_locator_le _ _).trans_lt ?_
  exact (Finset.card_erase_lt_of_mem hi).trans_le hk

/-- The sums of powers are the terms of the fraction. -/
lemma dvd_locator_mul_sub (hS : ∀ k < N, S.coeff k = ∑ i ∈ s, y i * x i ^ k) :
    X ^ N ∣ locator s x * S - evaluator s x y := by
  set T : F[X] := ∑ i ∈ s, C (y i) * ∑ k ∈ Finset.range N, (C (x i) * X) ^ k with hT
  have hfirst : X ^ N ∣ S - T := by
    refine X_pow_dvd_iff.2 fun k hk => ?_
    rw [coeff_sub, hS k hk, hT, finsetSum_coeff, sub_eq_zero]
    refine Finset.sum_congr rfl fun i _ => ?_
    rw [coeff_C_mul, finsetSum_coeff, Finset.sum_eq_single k]
    · rw [mul_pow, ← C_pow, coeff_C_mul_X_pow, if_pos rfl]
    · intro j _ hj
      rw [mul_pow, ← C_pow, coeff_C_mul_X_pow, if_neg (Ne.symm hj)]
    · exact fun hk' => absurd (Finset.mem_range.2 hk) hk'
  have hrest : X ^ N ∣ locator s x * T - evaluator s x y := by
    rw [hT, evaluator, Finset.mul_sum, ← Finset.sum_sub_distrib]
    refine Finset.dvd_sum fun i hi => ?_
    have hsplit : locator s x = (1 - C (x i) * X) * locator (s.erase i) x :=
      (Finset.mul_prod_erase s _ hi).symm
    have hgeom : (1 - C (x i) * X) * ∑ k ∈ Finset.range N, (C (x i) * X) ^ k
        = 1 - (C (x i) * X) ^ N := mul_neg_geom_sum _ _
    have hterm : locator s x * (C (y i) * ∑ k ∈ Finset.range N, (C (x i) * X) ^ k)
          - C (y i) * locator (s.erase i) x
        = X ^ N * -(C (y i) * locator (s.erase i) x * C (x i) ^ N) := by
      rw [hsplit]
      calc (1 - C (x i) * X) * locator (s.erase i) x
              * (C (y i) * ∑ k ∈ Finset.range N, (C (x i) * X) ^ k)
            - C (y i) * locator (s.erase i) x
          = C (y i) * locator (s.erase i) x
              * ((1 - C (x i) * X) * ∑ k ∈ Finset.range N, (C (x i) * X) ^ k)
            - C (y i) * locator (s.erase i) x := by ring
        _ = X ^ N * -(C (y i) * locator (s.erase i) x * C (x i) ^ N) := by
            rw [hgeom]
            ring
    rw [hterm]
    exact dvd_mul_right _ _
  have hsum : locator s x * S - evaluator s x y
      = locator s x * (S - T) + (locator s x * T - evaluator s x y) := by ring
  rw [hsum]
  exact dvd_add (hfirst.mul_left _) hrest

lemma eval_erase_ne_zero (hinj : Set.InjOn x s) (hi : i ∈ s) (hx : x i ≠ 0) :
    (locator (s.erase i) x).eval (x i)⁻¹ ≠ 0 := by
  rw [ne_eq, eval_locator_eq_zero hx]
  rintro ⟨j, hj, heq⟩
  obtain ⟨hne, hj⟩ := Finset.mem_erase.1 hj
  exact hne (hinj hj hi heq)

/-- At a root, the numerator has the value that belongs to it. -/
lemma eval_evaluator (hi : i ∈ s) (hx : x i ≠ 0) :
    (evaluator s x y).eval (x i)⁻¹ = y i * (locator (s.erase i) x).eval (x i)⁻¹ := by
  rw [evaluator, eval_finsetSum, Finset.sum_eq_single i]
  · rw [eval_mul, eval_C]
  · intro j _ hj
    have hroot : (locator (s.erase j) x).eval (x i)⁻¹ = 0 :=
      (eval_locator_eq_zero hx).2 ⟨i, Finset.mem_erase.2 ⟨Ne.symm hj, hi⟩, rfl⟩
    rw [eval_mul, hroot, mul_zero]
  · exact fun h => absurd hi h

/-- The fraction is reduced. -/
lemma isCoprime_locator_evaluator (hinj : Set.InjOn x s) (hx : ∀ i ∈ s, x i ≠ 0)
    (hy : ∀ i ∈ s, y i ≠ 0) : IsCoprime (locator s x) (evaluator s x y) := by
  refine IsCoprime.prod_left fun i hi => ?_
  have hxi := hx i hi
  have hfactor : (1 - C (x i) * X : F[X]) = C (-x i) * (X - C (x i)⁻¹) := by
    rw [mul_sub, ← C_mul, neg_mul, mul_inv_cancel₀ hxi, C_neg, C_neg, C_1]
    ring
  rw [hfactor]
  refine (isCoprime_mul_unit_left_left (isUnit_C.2 (IsUnit.mk0 _ (neg_ne_zero.2 hxi))) _ _).2 ?_
  rw [(irreducible_X_sub_C (x i)⁻¹).coprime_iff_not_dvd, dvd_iff_isRoot, IsRoot,
    eval_evaluator hi hxi]
  exact mul_ne_zero (hy i hi) (eval_erase_ne_zero hinj hi hxi)

/-- Fewer values than sums of powers: where all sums vanish, so do the values. -/
lemma values_eq_zero (hinj : Set.InjOn x s) (hx : ∀ i ∈ s, x i ≠ 0) (hcard : s.card ≤ N)
    (h : ∀ k < N, ∑ i ∈ s, y i * x i ^ k = 0) (hi : i ∈ s) : y i = 0 := by
  have hdvd : X ^ N ∣ locator s x * (0 : F[X]) - evaluator s x y :=
    dvd_locator_mul_sub fun k hk => by rw [h k hk, coeff_zero]
  rw [mul_zero, zero_sub, dvd_neg] at hdvd
  have hzero : evaluator s x y = 0 := by
    ext k
    rw [coeff_zero]
    by_cases hk : k < N
    · exact X_pow_dvd_iff.1 hdvd k hk
    · exact evaluator_coeff_eq_zero (by omega)
  have heval := eval_evaluator (y := y) hi (hx i hi)
  rw [hzero, eval_zero] at heval
  exact (mul_eq_zero.1 heval.symm).resolve_right (eval_erase_ne_zero hinj hi (hx i hi))

/-- The denominator is the recurrence that is found. -/
theorem run_eq_locator [DecidableEq F] (hinj : Set.InjOn x s) (hx : ∀ i ∈ s, x i ≠ 0)
    (hy : ∀ i ∈ s, y i ≠ 0) (hN : 2 * s.card ≤ N)
    (hS : ∀ k < N, S.coeff k = ∑ i ∈ s, y i * x i ^ k) :
    (Recurrence.run S N).cur = locator s x := by
  have hdvd := dvd_locator_mul_sub hS
  have hgen : Generates S (locator s x) s.card N := by
    refine ⟨locator_coeff_zero s x, natDegree_locator_le s x, fun k hk hkN => ?_⟩
    have hlow := X_pow_dvd_iff.1 hdvd k hkN
    rwa [coeff_sub, evaluator_coeff_eq_zero hk, sub_zero] at hlow
  exact (Recurrence.run_sound S N).gen.eq_of_reduced (Recurrence.run_len_le hgen)
    (locator_coeff_zero s x) (natDegree_locator hx) (fun k hk => evaluator_coeff_eq_zero hk) hdvd
    (isCoprime_locator_evaluator hinj hx hy) hN

end Fraction

end Arkeion.Lib
