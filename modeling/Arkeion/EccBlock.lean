import Arkeion.EccPoly
import Mathlib.LinearAlgebra.Lagrange

/-!
A block of data with its parity is a multiple of the generator polynomial, and the locator that the
loop of Berlekamp and Massey finds is the shortest recurrence of the syndromes.
-/

namespace Arkeion.ReedSolomon

open Arkeion.Lib Polynomial

lemma add_self_poly (p : GF[X]) : p + p = 0 := CharTwo.add_self_eq_zero p

/-! ### Encoding -/

/-- The long division leaves quotient and remainder. -/
lemma divLoop_eq {ds : Bytes} {n : ℕ} {out : Bytes} (h : out.length = n + ds.length) :
    (divLoop (1 :: ds) n out).length = out.length ∧
      toPoly out = toPoly ((divLoop (1 :: ds) n out).take n) * toPoly (1 :: ds)
        + toPoly ((divLoop (1 :: ds) n out).drop n) := by
  induction n generalizing out with
  | zero => exact ⟨rfl, by rw [divLoop, List.take_zero, toPoly_nil, zero_mul, zero_add, List.drop_zero]⟩
  | succ n ih =>
    cases out with
    | nil =>
      rw [List.length_nil] at h
      omega
    | cons coef out =>
      have hlen : out.length = n + ds.length := by
        rw [List.length_cons] at h
        omega
      set next := if coef = 0 then out else xorFront out ((1 :: ds).tail.map fun d => mul d coef)
        with hnext
      have hscale : toPoly (ds.map fun d => mul d coef) = toPoly ds * C ⟨coef⟩ :=
        toPoly_polyScale ds coef
      have hstep : next.length = out.length ∧
          toPoly next = toPoly out + toPoly ds * C ⟨coef⟩ * X ^ n := by
        rw [hnext]
        split_ifs with h0
        · rw [h0, C_zero_byte, mul_zero, zero_mul, add_zero]
          exact ⟨rfl, rfl⟩
        · have hle : (ds.map fun d => mul d coef).length ≤ out.length := by
            rw [List.length_map]
            omega
          refine ⟨length_xorFront _ _, ?_⟩
          rw [List.tail_cons, toPoly_xorFront hle, hscale, List.length_map, hlen, Nat.add_sub_cancel]
      obtain ⟨hlen', hpoly⟩ := ih (hstep.1.trans hlen)
      rw [divLoop, ← hnext]
      refine ⟨by rw [List.length_cons, List.length_cons, hlen', hstep.1], ?_⟩
      have hone : (C (⟨1⟩ : GF)) = 1 := C_1
      have htake : ((divLoop (1 :: ds) n next).take n).length = n := by
        rw [List.length_take, hlen', hstep.1]
        omega
      rw [List.take_succ_cons, List.drop_succ_cons, toPoly_cons, toPoly_cons, htake, hlen]
      have hout : toPoly out = toPoly next + toPoly ds * C ⟨coef⟩ * X ^ n := by
        rw [hstep.2, add_assoc, add_self_poly, add_zero]
      rw [hout, hpoly, toPoly_cons, hone, pow_add]
      ring

/-- The polynomial with the first powers of the generator as its roots. -/
noncomputable def generator (nsym : ℕ) : GF[X] := ∏ i ∈ Finset.range nsym, (X + C (alpha i))

lemma genPoly_succ (n : ℕ) : genPoly (n + 1) = polyMul (genPoly n) [1, pow (n : ℤ)] := by
  rw [genPoly, List.range_succ, List.foldl_concat]
  rfl

lemma toPoly_genPoly (nsym : ℕ) :
    (genPoly nsym).length = nsym + 1 ∧ toPoly (genPoly nsym) = generator nsym := by
  induction nsym with
  | zero =>
    have hgen : genPoly 0 = [1] := rfl
    refine ⟨rfl, ?_⟩
    rw [hgen, toPoly_singleton, generator, Finset.prod_range_zero]
    exact C_1
  | succ n ih =>
    have hfactor : toPoly [1, pow (n : ℤ)] = X + C (alpha n) := by
      have hone : (C (⟨1⟩ : GF)) = 1 := C_1
      rw [toPoly_cons, toPoly_singleton, pow_natCast, hone, one_mul, List.length_singleton, pow_one]
    have hmul := toPoly_polyMul (p := genPoly n) (q := [1, pow (n : ℤ)]) (by rw [ih.1]; omega)
      (by simp)
    rw [genPoly_succ, hmul.1, hmul.2, ih.1, ih.2, hfactor, generator, generator,
      Finset.prod_range_succ]
    exact ⟨by simp, rfl⟩

lemma generator_monic (nsym : ℕ) : (generator nsym).Monic :=
  monic_prod_of_monic _ _ fun i _ => monic_X_add_C (alpha i)

lemma natDegree_generator (nsym : ℕ) : (generator nsym).natDegree = nsym := by
  rw [generator, natDegree_prod_of_monic _ _ fun i _ => monic_X_add_C (alpha i)]
  simp

lemma eval_generator {nsym i : ℕ} (hi : i < nsym) : (generator nsym).eval (alpha i) = 0 := by
  rw [generator, eval_prod]
  refine Finset.prod_eq_zero (Finset.mem_range.2 hi) ?_
  rw [eval_add, eval_X, eval_C, CharTwo.add_self_eq_zero]

/-- The first coefficient is one. -/
lemma genPoly_eq (nsym : ℕ) : ∃ ds, genPoly nsym = 1 :: ds ∧ ds.length = nsym := by
  obtain ⟨hlen, hpoly⟩ := toPoly_genPoly nsym
  cases hg : genPoly nsym with
  | nil =>
    rw [hg] at hlen
    cases hlen
  | cons a ds =>
    rw [hg] at hlen hpoly
    have hds : ds.length = nsym := Nat.succ.inj hlen
    have hlead := (generator_monic nsym).coeff_natDegree
    rw [natDegree_generator, ← hpoly, toPoly_cons, coeff_add, coeff_C_mul_X_pow, hds, if_pos rfl,
      coeff_toPoly_of_le hds.le, add_zero] at hlead
    obtain rfl : a = 1 := congrArg GF.byte hlead
    exact ⟨ds, rfl, hds⟩

/-- All syndromes of the word vanish. -/
def IsCodeword (nsym : ℕ) (w : Bytes) : Prop := ∀ i < nsym, (toPoly w).eval (alpha i) = 0

lemma encodeBlock_codeword (data : Bytes) (nsym : ℕ) :
    (encodeBlock data nsym).length = nsym ∧ IsCodeword nsym (data ++ encodeBlock data nsym) := by
  obtain ⟨ds, hg, hds⟩ := genPoly_eq nsym
  have hout : (data ++ List.replicate nsym 0).length = data.length + ds.length := by
    rw [List.length_append, List.length_replicate, hds]
  obtain ⟨hlen, hpoly⟩ := divLoop_eq hout
  rw [← hg] at hlen hpoly
  have hparity : (encodeBlock data nsym).length = nsym := by
    rw [encodeBlock, List.length_drop, hlen, hout, hds]
    omega
  refine ⟨hparity, fun i hi => ?_⟩
  rw [toPoly_append, toPoly_replicate, List.length_replicate, add_zero, ← encodeBlock] at hpoly
  rw [toPoly_append, hparity, hpoly, add_assoc, add_self_poly, add_zero, eval_mul,
    (toPoly_genPoly nsym).2, eval_generator hi, mul_zero]

/-- The parity is the only one that makes a codeword of the data. -/
lemma eq_encodeBlock {data p : Bytes} {nsym : ℕ} (hn : nsym ≤ 255) (hp : p.length = nsym)
    (h : IsCodeword nsym (data ++ p)) : p = encodeBlock data nsym := by
  obtain ⟨hlen, hcode⟩ := encodeBlock_codeword data nsym
  refine toPoly_inj (hp.trans hlen.symm) ?_
  rw [← sub_eq_zero]
  have hinj : Set.InjOn alpha (Finset.range nsym) := by
    intro i hi j hj heq
    exact alpha_inj ((Finset.mem_range.1 hi).trans_le hn) ((Finset.mem_range.1 hj).trans_le hn) heq
  have hroot : ∀ i ∈ Finset.range nsym,
      (toPoly p - toPoly (encodeBlock data nsym)).eval (alpha i) = 0 := by
    intro i hi
    have h₁ := h i (Finset.mem_range.1 hi)
    have h₂ := hcode i (Finset.mem_range.1 hi)
    rw [toPoly_append, hp, eval_add] at h₁
    rw [toPoly_append, hlen, eval_add] at h₂
    rw [eval_sub, eq_neg_of_add_eq_zero_right h₁, eq_neg_of_add_eq_zero_right h₂, sub_self]
  refine eq_zero_of_degree_lt_of_eval_index_eq_zero _ hinj ?_ hroot
  rw [Finset.card_range]
  refine (degree_lt_iff_coeff_zero _ _).2 fun k hk => ?_
  rw [coeff_sub, coeff_toPoly_of_le (by omega), coeff_toPoly_of_le (by omega), sub_zero]

/-! ### The locator -/

/-- The syndromes as the terms of a sequence. -/
noncomputable def syndromePoly (synd : Bytes) : GF[X] := toPoly synd.tail.reverse

lemma coeff_syndromePoly (synd : Bytes) (k : ℕ) :
    (syndromePoly synd).coeff k = ⟨synd.getD (k + 1) 0⟩ := by
  rw [syndromePoly, coeff_toPoly, List.reverse_reverse]
  cases synd with
  | nil => rfl
  | cons a synd => rw [List.tail_cons, List.getD_cons_succ]

lemma reverse_getD {p : Bytes} {j : ℕ} (h : j < p.length) :
    p.reverse.getD j 0 = p.getD (p.length - 1 - j) 0 := by
  have hlt : p.length - 1 - j < p.length := by omega
  rw [List.getD_eq_getElem _ _ (by rwa [List.length_reverse]), List.getD_eq_getElem _ _ hlt,
    List.getElem_reverse]

lemma foldl_xor (f : ℕ → UInt8) (init : UInt8) (m : ℕ) :
    (⟨(List.range' 1 m).foldl (fun d j => d ^^^ f j) init⟩ : GF)
      = ∑ j ∈ Finset.range m, ⟨f (j + 1)⟩ + ⟨init⟩ := by
  induction m with
  | zero =>
    rw [Finset.sum_range_zero, zero_add]
    rfl
  | succ m ih =>
    have hadd (a b : UInt8) : (⟨a ^^^ b⟩ : GF) = ⟨a⟩ + ⟨b⟩ := rfl
    rw [List.range'_concat, List.foldl_concat, hadd, ih, Finset.sum_range_succ, mul_comm,
      Nat.mul_one, Nat.add_comm 1 m]
    ring

namespace Locators

variable {s : Locators} {synd : Bytes} {i : ℕ}

/-- The lists are those polynomials, with the lengths that go with them. -/
structure Refines (s : Locators) (r : Recurrence GF) (i : ℕ) : Prop where
  cur : toPoly s.err_loc = r.cur
  curLength : s.err_loc.length = r.len + 1
  old : toPoly s.old_loc = r.old
  oldLength : s.old_loc.length + r.len = i + 1

/-- The indices of the sum stay in their lists. -/
lemma discrepancy_eq (hlen : s.err_loc.length ≤ i + 1) (hconst : (toPoly s.err_loc).coeff 0 = 1) :
    (⟨s.discrepancy synd (i + 1)⟩ : GF)
      = (toPoly s.err_loc * syndromePoly synd).coeff i := by
  have hpos : 0 < s.err_loc.length := by
    by_contra h0
    rw [List.length_eq_zero_iff.1 (Nat.eq_zero_of_not_pos h0), toPoly_nil, coeff_zero] at hconst
    exact zero_ne_one hconst
  obtain ⟨m, hm⟩ : ∃ m, s.err_loc.length = m + 1 := ⟨s.err_loc.length - 1, by omega⟩
  have hsubset : Finset.range (m + 1) ⊆ Finset.range (i + 1) :=
    Finset.range_subset_range.2 (by omega)
  rw [discrepancy, foldl_xor, coeff_mul, Finset.Nat.sum_antidiagonal_eq_sum_range_succ_mk,
    ← Finset.sum_subset hsubset, Finset.sum_range_succ', hconst, one_mul, coeff_syndromePoly, hm,
    Nat.add_sub_cancel]
  · refine congrArg (· + _) (Finset.sum_congr rfl fun j hj => ?_)
    have hj' := Finset.mem_range.1 hj
    rw [coeff_toPoly, reverse_getD (by omega), coeff_syndromePoly, hm, Nat.add_sub_cancel,
      show i + 1 - (j + 1) = i - (j + 1) + 1 by omega]
    rfl
  · intro j _ hj
    rw [Finset.mem_range, not_lt] at hj
    rw [coeff_toPoly_of_le (by omega), zero_mul]

lemma toPoly_shift (p : Bytes) : toPoly (p ++ [0]) = X * toPoly p := by
  rw [toPoly_append, toPoly_singleton, C_zero_byte, add_zero, List.length_singleton, pow_one,
    mul_comm]

lemma Refines.step {r : Recurrence GF} (h : s.Refines r i) (hr : r.Sound (syndromePoly synd) i) :
    (s.step synd (i + 1)).Refines (r.step (syndromePoly synd) i) (i + 1) := by
  have hle := hr.le
  have hδ : (⟨s.discrepancy synd (i + 1)⟩ : GF) = (r.cur * syndromePoly synd).coeff i := by
    rw [discrepancy_eq (by rw [h.curLength]; omega) (by rw [h.cur, hr.gen.const]), h.cur]
  have hold : (s.old_loc ++ [0]).length = s.old_loc.length + 1 := by simp
  have hcur := h.curLength
  have holdl := h.oldLength
  rw [Locators.step, Recurrence.step, ← hδ]
  set δ := s.discrepancy synd (i + 1)
  by_cases h0 : δ = 0
  · have h0' : (⟨δ⟩ : GF) = 0 := by
      rw [h0]
      rfl
    rw [if_pos h0, if_pos h0']
    refine ⟨h.cur, h.curLength, ?_, ?_⟩
    · rw [toPoly_shift, h.old]
    · simp only [hold]
      omega
  · have h0' : ¬ (⟨δ⟩ : GF) = 0 := fun hz => h0 (congrArg GF.byte hz)
    have hinv : (⟨inv δ⟩ : GF) = (⟨δ⟩ : GF)⁻¹ := inv_byte (a := ⟨δ⟩) h0'
    rw [if_neg h0, if_neg h0']
    by_cases hlen : 2 * r.len ≤ i
    · rw [if_pos hlen, if_pos (by rw [hold]; omega)]
      constructor
      · have hback : (C (⟨δ⟩ : GF)⁻¹ * C ⟨δ⟩ : GF[X]) = 1 := by
          rw [← C_mul, inv_mul_cancel₀ h0', C_1]
        rw [toPoly_polyAdd, toPoly_polyScale, toPoly_polyScale, toPoly_polyScale, toPoly_shift, h.old,
          h.cur, hinv, mul_assoc r.cur, hback, CharTwo.sub_eq_add]
        ring
      · simp only [length_polyAdd, polyScale, List.length_map, hold]
        omega
      · rw [toPoly_polyScale, h.cur, hinv, mul_comm]
      · simp only [polyScale, List.length_map]
        omega
    · rw [if_neg hlen, if_neg (by rw [hold]; omega)]
      constructor
      · rw [toPoly_polyAdd, toPoly_polyScale, toPoly_shift, h.old, h.cur, CharTwo.sub_eq_add]
        ring
      · simp only [length_polyAdd, polyScale, List.length_map, hold]
        omega
      · rw [toPoly_shift, h.old]
      · simp only [hold]
        omega

lemma run_refines (synd : Bytes) (n : ℕ) :
    ((List.range n).foldl (fun s i => s.step synd (i + 1)) start).Refines
      (Recurrence.run (syndromePoly synd) n) n := by
  induction n with
  | zero =>
    have hone : toPoly [1] = 1 := (toPoly_singleton 1).trans C_1
    exact ⟨hone, rfl, hone, rfl⟩
  | succ n ih =>
    rw [List.range_succ, List.foldl_concat, Recurrence.run_succ]
    exact ih.step (Recurrence.run_sound _ n)

end Locators

end Arkeion.ReedSolomon
