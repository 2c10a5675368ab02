import Mathlib.Algebra.Polynomial.Div
import Mathlib.Algebra.Polynomial.FieldDivision
import Mathlib.Tactic.LinearCombination

/-!
The shortest linear recurrence of a sequence over a field, found term by term (Berlekamp and
Massey). The terms of the sequence are the coefficients of a polynomial, and so are the coefficients
of a recurrence.
-/

namespace Arkeion.Lib

open Polynomial

variable {F : Type*} [Field F] {S A D P : F[X]} {len n N : ℕ}

/-- The coefficients of `A` are a recurrence for the terms from `len` on, below `n`. -/
structure Generates (S A : F[X]) (len n : ℕ) : Prop where
  const : A.coeff 0 = 1
  degree : A.natDegree ≤ len
  zero : ∀ k, len ≤ k → k < n → (A * S).coeff k = 0

/-- A recurrence that fails at a term is at least as far from any that holds there as the term is
from the beginning. -/
lemma Generates.le_add (hA : Generates S A len n) (hD : Generates S D N (n + 1))
    (hne : (A * S).coeff n ≠ 0) : n + 1 ≤ len + N := by
  by_contra hlt
  have hone : (D * (A * S)).coeff n = (A * S).coeff n := by
    rw [coeff_mul, Finset.sum_eq_single (0, n)]
    · rw [hD.const, one_mul]
    · rintro ⟨i, j⟩ hij hne'
      obtain rfl : i + j = n := Finset.HasAntidiagonal.mem_antidiagonal.1 hij
      by_cases hi : i ≤ N
      · have hi0 : i ≠ 0 := by
          rintro rfl
          simp at hne'
        rw [hA.zero j (by omega) (by omega), mul_zero]
      · rw [coeff_eq_zero_of_natDegree_lt (hD.degree.trans_lt (by omega)), zero_mul]
    · intro h
      simp at h
  have hother : (A * (D * S)).coeff n = 0 := by
    rw [coeff_mul]
    refine Finset.sum_eq_zero fun p hp => ?_
    obtain ⟨i, j⟩ := p
    obtain rfl : i + j = n := Finset.HasAntidiagonal.mem_antidiagonal.1 hp
    by_cases hi : i ≤ len
    · rw [hD.zero j (by omega) (by omega), mul_zero]
    · rw [coeff_eq_zero_of_natDegree_lt (hA.degree.trans_lt (by omega)), zero_mul]
  rw [mul_left_comm, hone] at hother
  exact hne hother

/-! ### The algorithm -/

/-- The recurrence at hand, and the one before the last change of length, shifted and scaled. -/
structure Recurrence (F : Type*) [Field F] where
  cur : F[X]
  old : F[X]
  len : ℕ

namespace Recurrence

variable {r : Recurrence F}

noncomputable def start : Recurrence F where
  cur := 1
  old := 1
  len := 0

/-- The next term is taken in; `n` is its place. -/
noncomputable def step [DecidableEq F] (S : F[X]) (r : Recurrence F) (n : ℕ) : Recurrence F :=
  let δ := (r.cur * S).coeff n
  if δ = 0 then { r with old := X * r.old }
  else if 2 * r.len ≤ n then
    { cur := r.cur - C δ * (X * r.old)
      old := C δ⁻¹ * r.cur
      len := n + 1 - r.len }
  else { r with cur := r.cur - C δ * (X * r.old), old := X * r.old }

/-- What holds when the terms below `n` are taken in. -/
structure Sound (S : F[X]) (n : ℕ) (r : Recurrence F) : Prop where
  gen : Generates S r.cur r.len n
  le : r.len ≤ n
  degree : r.old.natDegree ≤ n - r.len
  old : r.len = 0 ∨ (∀ k, n - r.len ≤ k → k + 1 < n → (r.old * S).coeff k = 0) ∧
    (r.old * S).coeff (n - 1) = 1

lemma start_sound (S : F[X]) : (start : Recurrence F).Sound S 0 where
  gen := ⟨coeff_one_zero, natDegree_one.le, fun k _ hk => absurd hk (Nat.not_lt_zero k)⟩
  le := le_refl 0
  degree := natDegree_one.le
  old := Or.inl rfl

/-- The recurrence that was shifted fails at the next term, and only there. -/
lemma Sound.shifted (h : r.Sound S n) : (X * r.old).natDegree ≤ n + 1 - r.len ∧
    (r.len = 0 ∨ (∀ k, n + 1 - r.len ≤ k → k < n → (X * r.old * S).coeff k = 0) ∧
      (X * r.old * S).coeff n = 1) := by
  have hle := h.le
  constructor
  · refine natDegree_mul_le.trans ?_
    have hdeg := h.degree
    rw [natDegree_X]
    omega
  · by_cases hlen : r.len = 0
    · exact Or.inl hlen
    · obtain ⟨hzero, hone⟩ := h.old.resolve_left hlen
      refine Or.inr ⟨fun k hk hkn => ?_, ?_⟩
      · obtain ⟨k, rfl⟩ : ∃ j, k = j + 1 := ⟨k - 1, by omega⟩
        rw [mul_assoc, coeff_X_mul]
        exact hzero k (by omega) hkn
      · obtain ⟨n, rfl⟩ : ∃ j, n = j + 1 := ⟨n - 1, by omega⟩
        rw [mul_assoc, coeff_X_mul]
        exact hone

/-- With a multiple of the shifted recurrence taken off, the recurrence holds at the next term too. -/
lemma Sound.corrected (h : r.Sound S n) {len' : ℕ} (hlen : r.len ≤ len') (hn : n + 1 - r.len ≤ len')
    (hzero : r.len = 0 → n < len') :
    Generates S (r.cur - C ((r.cur * S).coeff n) * (X * r.old)) len' (n + 1) := by
  obtain ⟨hdeg, hshift⟩ := h.shifted
  refine ⟨?_, ?_, fun k hk hkn => ?_⟩
  · rw [coeff_sub, coeff_C_mul, coeff_X_mul_zero, mul_zero, sub_zero, h.gen.const]
  · refine (natDegree_sub_le _ _).trans (max_le (h.gen.degree.trans hlen) ?_)
    exact (natDegree_C_mul_le _ _).trans (hdeg.trans hn)
  · obtain ⟨hold, hone⟩ := hshift.resolve_left fun hl => by
      have hlt := hzero hl
      omega
    rw [sub_mul, coeff_sub, mul_assoc, coeff_C_mul]
    rcases Nat.lt_succ_iff_lt_or_eq.1 hkn with hlt | rfl
    · rw [h.gen.zero k (by omega) hlt, hold k (by omega) hlt, mul_zero, sub_zero]
    · rw [hone, mul_one, sub_self]

variable [DecidableEq F]

/-- What one term does. -/
lemma Sound.step (h : r.Sound S n) : (r.step S n).Sound S (n + 1) := by
  obtain ⟨hdeg, hshift⟩ := h.shifted
  have hle := h.le
  rw [Recurrence.step]
  split_ifs with hδ hlen
  · refine ⟨⟨h.gen.const, h.gen.degree, fun k hk hkn => ?_⟩, hle.trans n.le_succ, hdeg,
      hshift.imp_right fun hs => ⟨fun k hk hkn => hs.1 k hk (by omega), hs.2⟩⟩
    rcases Nat.lt_succ_iff_lt_or_eq.1 hkn with hlt | rfl
    · exact h.gen.zero k hk hlt
    · exact hδ
  · have hgen : Generates S (r.cur - C ((r.cur * S).coeff n) * (X * r.old)) (n + 1 - r.len) (n + 1) :=
      h.corrected (by omega) (le_refl _) (by omega)
    refine ⟨hgen, by simp only; omega, ?_, Or.inr ?_⟩
    · refine (natDegree_C_mul_le _ _).trans (h.gen.degree.trans ?_)
      simp only
      omega
    · simp only
      refine ⟨fun k hk hkn => ?_, ?_⟩
      · rw [mul_assoc, coeff_C_mul, h.gen.zero k (by omega) (by omega), mul_zero]
      · rw [mul_assoc, coeff_C_mul, Nat.add_sub_cancel, inv_mul_cancel₀ hδ]
  · have hgen : Generates S (r.cur - C ((r.cur * S).coeff n) * (X * r.old)) r.len (n + 1) :=
      h.corrected (le_refl _) (by omega) (by omega)
    exact ⟨hgen, hle.trans n.le_succ, hdeg,
      hshift.imp_right fun hs => ⟨fun k hk hkn => hs.1 k hk (by omega), hs.2⟩⟩

/-- The terms below `n`, one after the other. -/
noncomputable def run (S : F[X]) (n : ℕ) : Recurrence F := (List.range n).foldl (step S) start

lemma run_succ (S : F[X]) (n : ℕ) : run S (n + 1) = (run S n).step S n := by
  rw [run, List.range_succ, List.foldl_concat]
  rfl

lemma run_sound (S : F[X]) (n : ℕ) : (run S n).Sound S n := by
  induction n with
  | zero => exact start_sound S
  | succ n ih =>
    rw [run_succ]
    exact ih.step

/-- The recurrence that is found is no longer than any other. -/
lemma run_len_le (h : Generates S D N n) : (run S n).len ≤ N := by
  induction n with
  | zero => exact Nat.zero_le N
  | succ n ih =>
    have hsound := run_sound S n
    have hle := ih ⟨h.const, h.degree, fun k hk hkn => h.zero k hk (by omega)⟩
    rw [run_succ, step]
    split_ifs with hδ hlen
    · exact hle
    · have hadd := hsound.gen.le_add h hδ
      simp only
      omega
    · exact hle

end Recurrence

/-! ### The recurrence of a fraction -/

/-- Where the coefficients from `len` on vanish below `N`, the first ones are all, up to `X ^ N`. -/
lemma exists_low (h : ∀ k, len ≤ k → k < N → P.coeff k = 0) :
    ∃ Q : F[X], (∀ k, len ≤ k → Q.coeff k = 0) ∧ X ^ N ∣ P - Q := by
  refine ⟨P %ₘ X ^ len, fun k hk => ?_, X_pow_dvd_iff.2 fun k hk => ?_⟩
  · refine coeff_eq_zero_of_degree_lt ((degree_modByMonic_lt P (monic_X_pow len)).trans_le ?_)
    rw [degree_X_pow]
    exact_mod_cast hk
  · have hdvd : X ^ len ∣ P - P %ₘ X ^ len := by
      rw [modByMonic_eq_sub_mul_div P (X ^ len), sub_sub_cancel]
      exact dvd_mul_right _ _
    by_cases hlen : k < len
    · exact X_pow_dvd_iff.1 hdvd k hlen
    · have hlow : (P %ₘ X ^ len).coeff k = 0 := by
        refine coeff_eq_zero_of_degree_lt ((degree_modByMonic_lt P (monic_X_pow len)).trans_le ?_)
        rw [degree_X_pow]
        exact_mod_cast Nat.le_of_not_lt hlen
      rw [coeff_sub, h k (Nat.le_of_not_lt hlen) hk, hlow, sub_zero]

lemma coeff_mul_eq_zero {B : F[X]} {a b k : ℕ} (hA : ∀ i, a < i → A.coeff i = 0)
    (hB : ∀ j, b ≤ j → B.coeff j = 0) (hk : a + b ≤ k) : (A * B).coeff k = 0 := by
  rw [coeff_mul]
  refine Finset.sum_eq_zero fun p hp => ?_
  obtain ⟨i, j⟩ := p
  obtain rfl : i + j = k := Finset.HasAntidiagonal.mem_antidiagonal.1 hp
  by_cases hi : i ≤ a
  · rw [hB j (by omega), mul_zero]
  · rw [hA i (by omega), zero_mul]

/-- Of the fractions with a reduced denominator of half the length at most, only one has these
terms: the denominator is the shortest recurrence. -/
theorem Generates.eq_of_reduced {n' : ℕ} {Ω : F[X]} (hA : Generates S A len N) (hlen : len ≤ n')
    (hD : D.coeff 0 = 1) (hdeg : D.natDegree = n') (hΩ : ∀ k, n' ≤ k → Ω.coeff k = 0)
    (hfrac : X ^ N ∣ D * S - Ω) (hred : IsCoprime D Ω) (hN : 2 * n' ≤ N) : A = D := by
  obtain ⟨P, hP, hPS⟩ := exists_low hA.zero
  have hhigh {B : F[X]} {a : ℕ} (ha : B.natDegree ≤ a) : ∀ i, a < i → B.coeff i = 0 :=
    fun i hi => coeff_eq_zero_of_natDegree_lt (ha.trans_lt hi)
  have hdvd : X ^ N ∣ A * Ω - D * P := by
    have hsum : A * Ω - D * P = D * (A * S - P) - A * (D * S - Ω) := by ring
    rw [hsum]
    exact dvd_sub (hPS.mul_left D) (hfrac.mul_left A)
  have hcross : A * Ω = D * P := by
    rw [← sub_eq_zero]
    ext k
    rw [coeff_zero]
    by_cases hk : k < N
    · exact X_pow_dvd_iff.1 hdvd k hk
    · rw [coeff_sub, coeff_mul_eq_zero (hhigh hA.degree) hΩ (by omega),
        coeff_mul_eq_zero (hhigh hdeg.le) hP (by omega), sub_zero]
  have hmul : D ∣ A * Ω := ⟨P, hcross⟩
  obtain ⟨Q, hQ⟩ := hred.dvd_of_dvd_mul_right hmul
  have hA0 : A ≠ 0 := by
    rintro rfl
    simpa using hA.const
  have hDne : D ≠ 0 := left_ne_zero_of_mul (hQ ▸ hA0)
  have hQne : Q ≠ 0 := right_ne_zero_of_mul (hQ ▸ hA0)
  have hdegQ : Q.natDegree = 0 := by
    have hsum := natDegree_mul hDne hQne
    have hle := hA.degree
    rw [hQ] at hle
    omega
  obtain ⟨q, rfl⟩ := natDegree_eq_zero.1 hdegQ
  have hconst := hA.const
  rw [hQ, mul_coeff_zero, hD, one_mul, coeff_C_zero] at hconst
  rw [hQ, hconst, map_one, mul_one]

end Arkeion.Lib
