import Arkeion.EccBlock

/-!
Every corruption of at most half as many bytes of a block as it has parity is undone, and what is
taken for corrected is never further from what was read.
-/

namespace Arkeion.ReedSolomon

open Arkeion.Lib Polynomial

/-! ### Errors -/

/-- The places where two words differ. -/
def errorSet (w r : Bytes) : Finset ℕ := (Finset.range r.length).filter fun p => r.getD p 0 ≠ w.getD p 0

/-- In how many bytes two words differ. -/
def distance (w r : Bytes) : ℕ := (errorSet w r).card

/-- What a place stands for: the power of the generator with the degree of its coefficient. -/
def place (n p : ℕ) : GF := alpha (n - 1 - p)

/-- What was added at a place. -/
def errorValue (w r : Bytes) (p : ℕ) : GF := ⟨r.getD p 0⟩ + ⟨w.getD p 0⟩

section Errors
variable {w r : Bytes} {n nsym p : ℕ}

lemma place_ne_zero (n p : ℕ) : place n p ≠ 0 := alpha_ne_zero _

lemma mem_errorSet : p ∈ errorSet w r ↔ p < r.length ∧ r.getD p 0 ≠ w.getD p 0 := by
  rw [errorSet, Finset.mem_filter, Finset.mem_range]

lemma errorValue_ne_zero (h : p ∈ errorSet w r) : errorValue w r p ≠ 0 := by
  intro h0
  have heq : (⟨r.getD p 0⟩ : GF) = ⟨w.getD p 0⟩ := by
    rw [errorValue, CharTwo.add_eq_zero] at h0
    exact h0
  exact (mem_errorSet.1 h).2 (congrArg GF.byte heq)

lemma place_injOn (hn : n ≤ 255) : Set.InjOn (place n) {p | p < n} := by
  intro p hp q hq h
  rw [Set.mem_ofPred_eq] at hp hq
  have heq := alpha_inj (by omega) (by omega) h
  omega

lemma place_injOn_errors (hn : r.length ≤ 255) : Set.InjOn (place r.length) (errorSet w r) :=
  (place_injOn hn).mono fun _ hp => (mem_errorSet.1 (Finset.mem_coe.1 hp)).1

lemma eval_toPoly (p : Bytes) (x : GF) :
    (toPoly p).eval x = ∑ j ∈ Finset.range p.length, ⟨p.getD j 0⟩ * x ^ (p.length - 1 - j) := by
  induction p with
  | nil => rw [toPoly_nil, eval_zero, List.length_nil, Finset.sum_range_zero]
  | cons a p ih =>
    rw [toPoly_cons, eval_add, ih, List.length_cons, Finset.sum_range_succ', Nat.add_sub_cancel,
      Nat.sub_zero, List.getD_cons_zero, eval_mul, eval_C, eval_pow, eval_X, add_comm]
    refine congrArg (· + _) (Finset.sum_congr rfl fun j _ => ?_)
    rw [List.getD_cons_succ, Nat.sub_sub, Nat.add_comm 1 j]

/-- The syndromes are the sums of the powers of the places of the errors, with their values. -/
lemma eval_received (hlen : w.length = r.length) (hw : IsCodeword nsym w) {i : ℕ} (hi : i < nsym) :
    (toPoly r).eval (alpha i)
      = ∑ p ∈ errorSet w r, errorValue w r p * place r.length p ^ i := by
  have hzero := hw i hi
  rw [← add_zero ((toPoly r).eval _), ← hzero, eval_toPoly, eval_toPoly, hlen,
    ← Finset.sum_add_distrib, errorSet, Finset.sum_filter]
  refine Finset.sum_congr rfl fun p _ => ?_
  rw [place, alpha_pow, alpha_pow, Nat.mul_comm i, ← add_mul]
  split_ifs with hp
  · rfl
  · rw [not_not.1 hp, CharTwo.add_self_eq_zero, zero_mul]

lemma length_syndromes (r : Bytes) (nsym : ℕ) : (syndromes r nsym).length = nsym + 1 := by
  rw [syndromes, List.length_cons, List.length_map, List.length_range]

lemma syndromes_getD {i : ℕ} (hi : i < nsym) :
    (⟨(syndromes r nsym).getD (i + 1) 0⟩ : GF) = (toPoly r).eval (alpha i) := by
  have hlt : i < ((List.range nsym).map fun (i : ℕ) => polyEval r (pow (i : ℤ))).length := by
    rwa [List.length_map, List.length_range]
  rw [syndromes, List.getD_cons_succ, List.getD_eq_getElem _ _ hlt, List.getElem_map,
    List.getElem_range, polyEval_eq, pow_natCast]

/-- All syndromes vanish exactly for a codeword. -/
lemma syndromes_all : (∀ s ∈ syndromes r nsym, s = 0) ↔ IsCodeword nsym r := by
  have hbyte (i : ℕ) : polyEval r (pow (i : ℤ)) = 0 ↔ (toPoly r).eval (alpha i) = 0 := by
    rw [polyEval_eq_zero, pow_natCast]
  rw [syndromes]
  simp only [List.mem_cons, List.mem_map, List.mem_range, forall_eq_or_imp, true_and,
    forall_exists_index, and_imp, forall_apply_eq_imp_iff₂, hbyte, IsCodeword]

lemma coeff_syndromes (hlen : w.length = r.length) (hw : IsCodeword nsym w) :
    ∀ k < nsym, (syndromePoly (syndromes r nsym)).coeff k
      = ∑ p ∈ errorSet w r, errorValue w r p * place r.length p ^ k := fun k hk => by
  rw [coeff_syndromePoly, syndromes_getD hk, eval_received hlen hw hk]

end Errors

/-! ### Locator and places -/

section Places
variable {w r : Bytes} {nsym : ℕ}

lemma toPoly_dropWhile (p : Bytes) : toPoly (p.dropWhile (· == 0)) = toPoly p := by
  induction p with
  | nil => rfl
  | cons a p ih =>
    by_cases ha : a = 0
    · rw [List.dropWhile_cons_of_pos (by simpa using ha), ih, toPoly_cons, ha, C_zero_byte, zero_mul,
        zero_add]
    · rw [List.dropWhile_cons_of_neg (by simpa using ha)]

/-- Without zeros in front, the length says the degree. -/
lemma length_dropWhile (p : Bytes) :
    (p.dropWhile (· == 0)).length - 1 = (toPoly p).natDegree := by
  induction p with
  | nil => rw [toPoly_nil, natDegree_zero]; rfl
  | cons a p ih =>
    by_cases ha : a = 0
    · rw [List.dropWhile_cons_of_pos (by simpa using ha), ih, toPoly_cons, ha, C_zero_byte, zero_mul,
        zero_add]
    · have hne : (⟨a⟩ : GF) ≠ 0 := fun h => ha (congrArg GF.byte h)
      rw [List.dropWhile_cons_of_neg (by simpa using ha), List.length_cons, Nat.add_sub_cancel]
      refine (natDegree_eq_of_le_of_coeff_ne_zero ?_ ?_).symm
      · exact natDegree_toPoly_le (a :: p)
      · rwa [toPoly_cons, coeff_add, coeff_C_mul_X_pow, if_pos rfl, coeff_toPoly_of_le (le_refl _),
          add_zero]

/-- Few errors: the locator that is found is theirs. -/
lemma errorLocator_eq (hn : r.length ≤ 255) (hlen : w.length = r.length) (hw : IsCodeword nsym w)
    (hfew : 2 * distance w r ≤ nsym) : ∃ err_loc,
      errorLocator (syndromes r nsym) nsym = some err_loc ∧
      toPoly err_loc = locator (errorSet w r) (place r.length) ∧
      err_loc.length - 1 = distance w r := by
  have hrun := Locators.run_refines (syndromes r nsym) nsym
  have hcur := hrun.cur
  rw [run_eq_locator (place_injOn_errors hn) (fun p _ => place_ne_zero _ _)
    (fun p hp => errorValue_ne_zero hp) hfew (coeff_syndromes hlen hw)] at hcur
  set s := (List.range nsym).foldl (fun s i => s.step (syndromes r nsym) (i + 1)) Locators.start
  have hdeg : (s.err_loc.dropWhile (· == 0)).length - 1 = distance w r := by
    rw [length_dropWhile, hcur, natDegree_locator fun p _ => place_ne_zero _ _, distance]
  refine ⟨s.err_loc.dropWhile (· == 0), ?_, by rw [toPoly_dropWhile, hcur], hdeg⟩
  have hshift : (syndromes r nsym).length - nsym = 1 := by
    rw [length_syndromes, Nat.add_sub_cancel_left]
  have hok : ¬ nsym < (s.err_loc.dropWhile (· == 0)).length.pred * 2 := by
    rw [Nat.pred_eq_sub_one, hdeg]
    omega
  rw [errorLocator, hshift]
  exact if_neg hok

/-- The places that are found are those of the errors. -/
lemma errorPositions_eq (hn : r.length ≤ 255) {err_loc : Bytes}
    (hloc : toPoly err_loc = locator (errorSet w r) (place r.length))
    (hdeg : err_loc.length - 1 = distance w r) :
    ∃ pos, errorPositions err_loc r.length = some pos ∧ pos.Nodup ∧
      ∀ p, p ∈ pos ↔ p ∈ errorSet w r := by
  set pos := (List.range r.length).filter fun (p : ℕ) =>
    polyEval err_loc (pow (-((r.length - 1 - p : ℕ) : ℤ))) == 0 with hpos
  have hnodup : pos.Nodup := List.nodup_range.filter _
  have hmem : ∀ p, p ∈ pos ↔ p ∈ errorSet w r := by
    intro p
    have hroot (hp : p < r.length) :
        polyEval err_loc (pow (-((r.length - 1 - p : ℕ) : ℤ))) = 0 ↔ p ∈ errorSet w r := by
      rw [polyEval_eq_zero, pow_neg, hloc, ← place, eval_locator_eq_zero (place_ne_zero _ _)]
      constructor
      · rintro ⟨q, hq, heq⟩
        rwa [← place_injOn hn (mem_errorSet.1 hq).1 hp heq]
      · exact fun hp' => ⟨p, hp', rfl⟩
    rw [hpos, List.mem_filter, List.mem_range, beq_iff_eq]
    constructor
    · exact fun h => (hroot h.1).1 h.2
    · exact fun h => ⟨(mem_errorSet.1 h).1, (hroot (mem_errorSet.1 h).1).2 h⟩
  refine ⟨pos, ?_, hnodup, hmem⟩
  have hcard : pos.length = err_loc.length - 1 := by
    rw [hdeg, distance, ← List.toFinset_card_of_nodup hnodup]
    congr 1
    ext p
    rw [List.mem_toFinset, hmem]
  exact if_pos hcard

end Places

end Arkeion.ReedSolomon
