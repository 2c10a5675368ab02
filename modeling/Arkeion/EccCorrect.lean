import Arkeion.EccSpec

/-!
The values of the errors, taken off at their places: Forney's fraction of evaluator and locator.
-/

namespace Arkeion.ReedSolomon

open Arkeion.Lib Polynomial

/-! ### The evaluator -/

section Evaluator
variable {p q : Bytes}

lemma xorFront_zeros (p : Bytes) (n : ℕ) (x : UInt8) :
    xorFront p ((List.replicate n 0).map fun d => mul d x) = p := by
  induction p generalizing n with
  | nil => cases n <;> rfl
  | cons a p ih =>
    cases n with
    | zero => rfl
    | succ n =>
      have hzero : a ^^^ (0 : UInt8) = a := UInt8.xor_zero
      rw [List.replicate_succ, List.map_cons, mul_zero_left, xorFront, ih, hzero]

/-- A power of `x` takes nothing off. -/
lemma divLoop_power (m n : ℕ) (p : Bytes) : divLoop (1 :: List.replicate m 0) n p = p := by
  induction n generalizing p with
  | zero => rfl
  | succ n ih =>
    cases p with
    | nil => rfl
    | cons coef p =>
      rw [divLoop, List.tail_cons, xorFront_zeros, ite_self, ih]

/-- The remainder by a power of `x` keeps the last coefficients. -/
lemma polyDiv_power (p : Bytes) (m : ℕ) :
    (polyDiv p (1 :: List.replicate m 0)).2 = p.drop (p.length - m) := by
  rw [polyDiv, divLoop_power, List.splitAt_eq, List.length_cons, List.length_replicate,
    Nat.add_sub_cancel]

lemma coeff_drop (p : Bytes) {k j : ℕ} (hjk : j < p.length - k) :
    (toPoly (p.drop k)).coeff j = (toPoly p).coeff j := by
  have hsplit : toPoly p = toPoly (p.take k) * X ^ (p.drop k).length + toPoly (p.drop k) := by
    rw [← toPoly_append, List.take_append_drop]
  have hlow : ¬ (p.drop k).length ≤ j := by
    rw [List.length_drop]
    omega
  rw [hsplit, coeff_add, coeff_mul_X_pow', if_neg hlow, zero_add]

lemma toPoly_reverse_syndromes (r : Bytes) (nsym : ℕ) :
    toPoly (syndromes r nsym).reverse = X * syndromePoly (syndromes r nsym) := by
  rw [syndromePoly, syndromes, List.reverse_cons, List.tail_cons]
  exact Locators.toPoly_shift _

/-- The locator from the places. -/
lemma eLoc_foldl (l : List ℕ) {e : Bytes} (he : 0 < e.length) :
    (l.foldl (fun e (i : ℕ) => polyMul e (polyAdd [1] [pow (i : ℤ), 0])) e).length
        = e.length + l.length ∧
      toPoly (l.foldl (fun e (i : ℕ) => polyMul e (polyAdd [1] [pow (i : ℤ), 0])) e)
        = toPoly e * (l.map fun i => 1 - C (alpha i) * X).prod := by
  induction l generalizing e with
  | nil => exact ⟨rfl, by rw [List.map_nil, List.prod_nil, mul_one]; rfl⟩
  | cons i l ih =>
    have hlen : (polyAdd [1] [pow (i : ℤ), 0]).length = 2 := length_polyAdd _ _
    have hfactor : toPoly (polyAdd [1] [pow (i : ℤ), 0]) = 1 - C (alpha i) * X := by
      have hone : (C (⟨1⟩ : GF)) = 1 := C_1
      rw [toPoly_polyAdd, toPoly_singleton, toPoly_cons, toPoly_singleton, pow_natCast, hone,
        C_zero_byte, add_zero, List.length_singleton, pow_one, CharTwo.sub_eq_add]
    obtain ⟨hmulLen, hmul⟩ := toPoly_polyMul he (show 0 < _ by rw [hlen]; omega)
    obtain ⟨hlen', hpoly⟩ := ih (e := polyMul e (polyAdd [1] [pow (i : ℤ), 0]))
      (by rw [hmulLen, hlen]; omega)
    rw [List.foldl_cons, hlen', hpoly, hmulLen, hmul, hfactor, hlen, List.map_cons, List.prod_cons,
      List.length_cons]
    exact ⟨by omega, by ring⟩

end Evaluator

/-! ### The values -/

section Values
variable {w r : Bytes} {nsym n : ℕ} {pos : List ℕ}

/-- What `correctErrata` divides for its places. -/
def errEval (synd : Bytes) (coef_pos : List ℕ) : Bytes :=
  let e_loc := coef_pos.foldl (fun e (i : ℕ) => polyMul e (polyAdd [1] [pow (i : ℤ), 0])) [1]
  (polyDiv (polyMul synd.reverse e_loc) (1 :: List.replicate e_loc.length 0)).2

lemma locator_eq_prod (hnodup : pos.Nodup) (n : ℕ) :
    ((pos.map fun p => n - 1 - p).map fun i => 1 - C (alpha i) * X).prod
      = locator pos.toFinset (place n) := by
  rw [locator, List.prod_toFinset _ hnodup, List.map_map]
  rfl

/-- The list is the evaluator, shifted by one. -/
lemma toPoly_errEval (hlen : w.length = r.length) (hw : IsCodeword nsym w)
    (hfew : distance w r ≤ nsym) (hnodup : pos.Nodup) (hpos : pos.toFinset = errorSet w r) :
    toPoly (errEval (syndromes r nsym) (pos.map fun p => r.length - 1 - p))
      = X * evaluator (errorSet w r) (place r.length) (errorValue w r) := by
  have hcard : pos.length = (errorSet w r).card := by
    rw [← hpos, List.toFinset_card_of_nodup hnodup]
  obtain ⟨helen, heloc⟩ := eLoc_foldl (pos.map fun p => r.length - 1 - p) (e := [1]) Nat.one_pos
  have hone : toPoly [1] = 1 := (toPoly_singleton 1).trans C_1
  rw [hone, one_mul, locator_eq_prod hnodup, hpos] at heloc
  rw [List.length_singleton, List.length_map, hcard] at helen
  rw [errEval]
  set e_loc := (pos.map fun p => r.length - 1 - p).foldl
    (fun e (i : ℕ) => polyMul e (polyAdd [1] [pow (i : ℤ), 0])) [1]
  obtain ⟨hmulLen, hmul⟩ := toPoly_polyMul (p := (syndromes r nsym).reverse) (q := e_loc)
    (by rw [List.length_reverse, length_syndromes]; omega) (by omega)
  rw [List.length_reverse, length_syndromes, helen] at hmulLen
  rw [toPoly_reverse_syndromes, heloc, mul_assoc] at hmul
  rw [distance] at hfew
  have hdvd := dvd_locator_mul_sub (coeff_syndromes hlen hw)
  rw [polyDiv_power, hmulLen, helen]
  ext k
  by_cases hk : k < 1 + (errorSet w r).card
  · rw [coeff_drop _ (by omega), hmul]
    cases k with
    | zero => rw [coeff_X_mul_zero, coeff_X_mul_zero]
    | succ k =>
      have hlow := X_pow_dvd_iff.1 hdvd k (by omega)
      rw [coeff_sub, sub_eq_zero, mul_comm] at hlow
      rw [coeff_X_mul, coeff_X_mul, hlow]
  · obtain ⟨k, rfl⟩ : ∃ j, k = j + 1 := ⟨k - 1, by omega⟩
    rw [coeff_X_mul, evaluator_coeff_eq_zero (by omega), coeff_toPoly_of_le]
    rw [List.length_drop, hmulLen]
    omega

/-- The product over the other places. -/
lemma prime_foldl {α : Type*} (c : α → Prop) [DecidablePred c] (f : α → UInt8) (l : List α)
    (init : UInt8) :
    (⟨l.foldl (fun prime x => if c x then prime else mul prime (f x)) init⟩ : GF)
      = ⟨init⟩ * (l.map fun x => if c x then 1 else ⟨f x⟩).prod := by
  induction l generalizing init with
  | nil => rw [List.map_nil, List.prod_nil, mul_one]; rfl
  | cons x l ih =>
    rw [List.foldl_cons, ih, List.map_cons, List.prod_cons]
    split_ifs with hc
    · rw [one_mul]
    · rw [← mul_assoc]
      rfl

lemma prime_eq (hnodup : pos.Nodup) {i : ℕ} (hi : i < pos.length) {x : ℕ → UInt8}
    (hx : ∀ p, (⟨x p⟩ : GF) = place n p) (b : UInt8) :
    (⟨((pos.map x).zipIdx).foldl
        (fun prime xj => if xj.2 = i then prime else mul prime (1 ^^^ mul b xj.1)) 1⟩ : GF)
      = (locator (pos.toFinset.erase pos[i]) (place n)).eval ⟨b⟩ := by
  have hone : (⟨1⟩ : GF) = 1 := rfl
  have hvalue (a : UInt8) : (⟨1 ^^^ mul b a⟩ : GF) = 1 - ⟨a⟩ * ⟨b⟩ := by
    have hbyte : (⟨1 ^^^ mul b a⟩ : GF) = ⟨1⟩ + ⟨b⟩ * ⟨a⟩ := rfl
    rw [hbyte, CharTwo.sub_eq_add, mul_comm, hone]
  have hzip : ((pos.map x).zipIdx).map
        (fun xj => if xj.2 = i then (1 : GF) else ⟨1 ^^^ mul b xj.1⟩)
      = pos.map fun p => if p = pos[i] then 1 else 1 - place n p * ⟨b⟩ := by
    refine List.ext_getElem (by simp only [List.length_map, List.length_zipIdx]) fun j h₁ h₂ => ?_
    have hj : j < pos.length := by rwa [List.length_map] at h₂
    have hsame : pos[j] = pos[i] ↔ j = i := hnodup.getElem_inj_iff
    simp only [List.getElem_map, List.getElem_zipIdx, Nat.zero_add, hsame, hvalue, hx]
  rw [prime_foldl (fun xj : UInt8 × ℕ => xj.2 = i), hone, one_mul, hzip,
    ← List.prod_toFinset _ hnodup, eval_locator]
  have hmem : pos[i] ∈ pos.toFinset := List.mem_toFinset.2 (List.getElem_mem hi)
  rw [← Finset.mul_prod_erase _ _ hmem, if_pos rfl, one_mul]
  exact Finset.prod_congr rfl fun p hp => if_neg (Finset.ne_of_mem_erase hp)

/-- The value that is found is the one that was added. -/
lemma magnitude_eq (hn : r.length ≤ 255) (hlen : w.length = r.length) (hw : IsCodeword nsym w)
    (hfew : distance w r ≤ nsym) (hnodup : pos.Nodup) (hpos : pos.toFinset = errorSet w r)
    {i : ℕ} (hi : i < pos.length) {x : ℕ → UInt8}
    (hx : ∀ p, (⟨x p⟩ : GF) = place r.length p) :
    (⟨magnitude (errEval (syndromes r nsym) (pos.map fun p => r.length - 1 - p))
        (pos.map x) i⟩ : GF) = errorValue w r pos[i] := by
  have hmem : pos[i] ∈ errorSet w r := by
    rw [← hpos]
    exact List.mem_toFinset.2 (List.getElem_mem hi)
  have hne := place_ne_zero r.length pos[i]
  have hxi : (pos.map x).getD i 0 = (place r.length pos[i]).byte := by
    rw [List.getD_eq_getElem _ _ (by rwa [List.length_map]), List.getElem_map]
    exact congrArg GF.byte (hx _)
  have hinv : (⟨inv (place r.length pos[i]).byte⟩ : GF) = (place r.length pos[i])⁻¹ := inv_byte hne
  have hprime := prime_eq hnodup hi hx (inv (place r.length pos[i]).byte)
  have hden := eval_erase_ne_zero (place_injOn_errors hn) hmem hne
  have heval := eval_evaluator (y := errorValue w r) hmem hne
  rw [hpos, hinv] at hprime
  have hnum (b : UInt8) : (⟨mul (place r.length pos[i]).byte b⟩ : GF)
      = place r.length pos[i] * ⟨b⟩ := rfl
  rw [magnitude, hxi]
  refine (div_byte (a := ⟨mul _ _⟩) (b := ⟨_⟩) ?_).trans ?_
  · rw [hprime]
    exact hden
  · rw [hprime, hnum, polyEval_eq, toPoly_errEval hlen hw hfew hnodup hpos, hinv, eval_mul, eval_X,
      heval, mul_inv_cancel_left₀ hne, mul_div_cancel_right₀ _ hden]

end Values

/-! ### Blocks -/

section Blocks
variable {w r : Bytes} {nsym : ℕ} {pos : List ℕ}

lemma getD_modify (p : Bytes) (i j : ℕ) (x : UInt8) :
    (p.modify i (· ^^^ x)).getD j 0
      = if i = j ∧ j < p.length then p.getD j 0 ^^^ x else p.getD j 0 := by
  rw [List.getD_eq_getElem?_getD, List.getElem?_modify, List.getD_eq_getElem?_getD]
  rcases Nat.lt_or_ge j p.length with hj | hj
  · rw [List.getElem?_eq_getElem hj]
    simp only [hj, and_true]
    split_ifs <;> rfl
  · rw [List.getElem?_eq_none hj, if_neg fun h => absurd h.2 (not_lt.2 hj)]
    rfl

lemma ext_getD (hlen : w.length = r.length) (h : ∀ j < r.length, r.getD j 0 = w.getD j 0) :
    r = w := by
  refine List.ext_getElem hlen.symm fun j h₁ h₂ => ?_
  have hj := h j h₁
  rwa [List.getD_eq_getElem _ _ h₁, List.getD_eq_getElem _ _ h₂] at hj

lemma length_modify_foldl (m : ℕ → UInt8) (l : List (ℕ × ℕ)) (r : Bytes) :
    (l.foldl (fun msg pi => msg.modify pi.1 (· ^^^ m pi.2)) r).length = r.length := by
  induction l generalizing r with
  | nil => rfl
  | cons pi l ih => rw [List.foldl_cons, ih, List.length_modify]

/-- The other places stay as they are. -/
lemma getD_modify_foldl (m : ℕ → UInt8) {l : List (ℕ × ℕ)} {q : ℕ}
    (hq : q ∉ l.map Prod.fst) (r : Bytes) :
    (l.foldl (fun msg pi => msg.modify pi.1 (· ^^^ m pi.2)) r).getD q 0 = r.getD q 0 := by
  induction l generalizing r with
  | nil => rfl
  | cons pi l ih =>
    rw [List.map_cons, List.mem_cons, not_or] at hq
    rw [List.foldl_cons, ih hq.2, getD_modify, if_neg fun h => hq.1 h.1.symm]

lemma modify_foldl_eq (m : ℕ → UInt8) {l : List (ℕ × ℕ)} (hl : (l.map Prod.fst).Nodup)
    (hlen : w.length = r.length)
    (hin : ∀ pi ∈ l, pi.1 < r.length ∧ r.getD pi.1 0 ^^^ m pi.2 = w.getD pi.1 0)
    (hout : ∀ q < r.length, q ∉ l.map Prod.fst → r.getD q 0 = w.getD q 0) :
    l.foldl (fun msg pi => msg.modify pi.1 (· ^^^ m pi.2)) r = w := by
  refine ext_getD (by rw [hlen, length_modify_foldl]) fun q hq => ?_
  rw [length_modify_foldl] at hq
  induction l generalizing r with
  | nil => exact hout q hq List.not_mem_nil
  | cons pi l ih =>
    rw [List.map_cons, List.nodup_cons] at hl
    have hpi := hin pi List.mem_cons_self
    rw [List.foldl_cons]
    by_cases hmem : q ∈ l.map Prod.fst
    · refine ih hl.2 (by rwa [List.length_modify]) ?_ ?_ (by rwa [List.length_modify])
      · intro pj hpj
        have hne : pi.1 ≠ pj.1 := fun h => hl.1 (h ▸ List.mem_map_of_mem hpj)
        rw [List.length_modify, getD_modify, if_neg fun h => hne h.1]
        exact hin pj (List.mem_cons_of_mem _ hpj)
      · intro q' hq' hq'l
        rw [List.length_modify] at hq'
        rw [getD_modify]
        split_ifs with heq
        · rw [← heq.1]
          exact hpi.2
        · refine hout q' hq' ?_
          rw [List.map_cons, List.mem_cons, not_or]
          exact ⟨fun h => heq ⟨h.symm, hq'⟩, hq'l⟩
    · rw [getD_modify_foldl m hmem, getD_modify]
      split_ifs with heq
      · rw [← heq.1]
        exact hpi.2
      · refine hout q hq ?_
        rw [List.map_cons, List.mem_cons, not_or]
        exact ⟨fun h => heq ⟨h.symm, hq⟩, hmem⟩

/-- The errors are taken off. -/
lemma correctErrata_eq (hn : r.length ≤ 255) (hlen : w.length = r.length) (hw : IsCodeword nsym w)
    (hfew : distance w r ≤ nsym) (hnodup : pos.Nodup) (hpos : ∀ p, p ∈ pos ↔ p ∈ errorSet w r) :
    correctErrata r (syndromes r nsym) pos = w := by
  have hset : pos.toFinset = errorSet w r := by
    ext p
    rw [List.mem_toFinset, hpos]
  set x : ℕ → UInt8 := (fun (p : ℕ) => pow (p : ℤ)) ∘ fun p => r.length - 1 - p with hx
  have hplace (p : ℕ) : (⟨x p⟩ : GF) = place r.length p := by
    rw [hx, Function.comp_apply, pow_natCast, place]
  have hfst : pos.zipIdx.map Prod.fst = pos := List.zipIdx_map_fst 0 pos
  have hfold : correctErrata r (syndromes r nsym) pos
      = pos.zipIdx.foldl (fun msg pi => msg.modify pi.1 (· ^^^ magnitude
          (errEval (syndromes r nsym) (pos.map fun p => r.length - 1 - p))
          ((pos.map fun p => r.length - 1 - p).map fun (p : ℕ) => pow (p : ℤ)) pi.2)) r := rfl
  rw [hfold, List.map_map, ← hx]
  refine modify_foldl_eq _ (by rwa [hfst]) hlen ?_ ?_
  · rintro ⟨p, i⟩ hpi
    obtain ⟨hi, hp⟩ := List.mem_zipIdx' hpi
    simp only [hp]
    have hmem := (hpos _).1 (List.getElem_mem hi)
    have hvalue := magnitude_eq hn hlen hw hfew hnodup hset hi hplace
    refine ⟨(mem_errorSet.1 hmem).1, ?_⟩
    have hsum : (⟨r.getD pos[i] 0⟩ : GF) + errorValue w r pos[i] = ⟨w.getD pos[i] 0⟩ := by
      rw [errorValue, ← add_assoc, CharTwo.add_self_eq_zero, zero_add]
    rw [← hvalue] at hsum
    exact congrArg GF.byte hsum
  · intro q hq hqpos
    rw [hfst, hpos, mem_errorSet, not_and, not_not] at hqpos
    exact hqpos hq

/-- Words at most as far apart as there are syndromes are not both codewords. -/
lemma eq_of_codewords (hn : r.length ≤ 255) (hlen : w.length = r.length) (hw : IsCodeword nsym w)
    (hr : IsCodeword nsym r) (hfew : distance w r ≤ nsym) : r = w := by
  refine ext_getD hlen fun p hp => ?_
  by_contra hne
  have hmem := mem_errorSet.2 ⟨hp, hne⟩
  refine errorValue_ne_zero hmem (values_eq_zero (place_injOn_errors hn)
    (fun p _ => place_ne_zero _ _) hfew (fun k hk => ?_) hmem)
  rw [← eval_received hlen hw hk]
  exact hr k hk

lemma syndromes_all_iff : (syndromes r nsym).all (· == 0) = true ↔ IsCodeword nsym r := by
  rw [← syndromes_all, List.all_eq_true]
  simp only [beq_iff_eq]

lemma syndromes_any_iff : (syndromes r nsym).any (· != 0) = true ↔ ¬ IsCodeword nsym r := by
  rw [← syndromes_all, List.any_eq_true]
  simp only [bne_iff_ne, ne_eq, not_forall, exists_prop]

/-- Half as many errors as there are parity bytes are undone. -/
lemma decodeBlock_restores {data data' parity' : Bytes} (hnsym : parity'.length = nsym)
    (hn : data.length + nsym ≤ 255) (hlen : data'.length = data.length)
    (hfew : 2 * distance (data ++ encodeBlock data nsym) (data' ++ parity') ≤ nsym) :
    decodeBlock data' parity' = some data := by
  obtain ⟨hparity, hw⟩ := encodeBlock_codeword data nsym
  have hwr : (data ++ encodeBlock data nsym).length = (data' ++ parity').length := by
    rw [List.length_append, List.length_append, hparity, hnsym, hlen]
  have hr : (data' ++ parity').length ≤ 255 := by
    rwa [List.length_append, hnsym, hlen]
  rw [decodeBlock, hnsym]
  by_cases hzero : IsCodeword nsym (data' ++ parity')
  · have heq := eq_of_codewords hr hwr hw hzero (by omega)
    rw [if_pos (syndromes_all_iff.2 hzero), (List.append_inj heq hlen).1]
  · obtain ⟨err_loc, hloc, hpoly, hdeg⟩ := errorLocator_eq hr hwr hw hfew
    obtain ⟨pos, hfound, hnodup, hpos⟩ := errorPositions_eq hr hpoly hdeg
    have hfix := correctErrata_eq hr hwr hw (by omega) hnodup hpos
    rw [if_neg fun h => hzero (syndromes_all_iff.1 h), hloc, Option.bind_eq_bind, Option.bind_some,
      hfound, Option.bind_eq_bind, Option.bind_some, hfix,
      if_neg fun h => syndromes_any_iff.1 h hw, hlen]
    exact congrArg some List.take_left

lemma distance_self (w : Bytes) : distance w w = 0 := by
  rw [distance, errorSet]
  exact Finset.card_eq_zero.2 (Finset.filter_eq_empty_iff.2 fun p _ => not_not.2 rfl)

/-- No more bytes change than there are places. -/
lemma distance_correctErrata_le (r synd : Bytes) (pos : List ℕ) :
    (correctErrata r synd pos).length = r.length ∧
      distance (correctErrata r synd pos) r ≤ pos.length := by
  have hfst : pos.zipIdx.map Prod.fst = pos := List.zipIdx_map_fst 0 pos
  refine ⟨length_modify_foldl _ _ _, ?_⟩
  refine (Finset.card_le_card (t := pos.toFinset) fun p hp => ?_).trans (List.toFinset_card_le pos)
  by_contra hout
  rw [List.mem_toFinset, ← hfst] at hout
  exact (mem_errorSet.1 hp).2 (getD_modify_foldl _ hout r).symm

/-- What is accepted is close to what was read. -/
lemma decodeBlock_close {data' parity' d : Bytes} (hnsym : parity'.length = nsym) (hn : nsym ≤ 255)
    (h : decodeBlock data' parity' = some d) :
    d.length = data'.length ∧
      2 * distance (d ++ encodeBlock d nsym) (data' ++ parity') ≤ nsym := by
  rw [decodeBlock, hnsym] at h
  by_cases hzero : IsCodeword nsym (data' ++ parity')
  · rw [if_pos (syndromes_all_iff.2 hzero), Option.some.injEq] at h
    rw [← h, ← eq_encodeBlock hn hnsym hzero, distance_self]
    exact ⟨rfl, by omega⟩
  · rw [if_neg fun h => hzero (syndromes_all_iff.1 h)] at h
    obtain ⟨err_loc, hloc, h⟩ := Option.bind_eq_some_iff.1 h
    obtain ⟨pos, hfound, h⟩ := Option.bind_eq_some_iff.1 h
    obtain ⟨hlen, hdist⟩ := distance_correctErrata_le (data' ++ parity')
      (syndromes (data' ++ parity') nsym) pos
    set msg := correctErrata (data' ++ parity') (syndromes (data' ++ parity') nsym) pos
    have hcode : IsCodeword nsym msg := by
      by_contra hbad
      rw [if_pos (syndromes_any_iff.2 hbad)] at h
      cases h
    rw [if_neg fun h => syndromes_any_iff.1 h hcode, Option.some.injEq] at h
    have hsplit : msg = d ++ msg.drop data'.length := by rw [← h, List.take_append_drop]
    have hrest : (msg.drop data'.length).length = nsym := by
      rw [List.length_drop, hlen, List.length_append, Nat.add_sub_cancel_left, hnsym]
    have hparity := eq_encodeBlock hn hrest (hsplit ▸ hcode)
    have hcount : pos.length * 2 ≤ nsym := by
      have hpos : pos.length = err_loc.length - 1 := by
        rw [errorPositions] at hfound
        split_ifs at hfound with hcard
        rwa [← Option.some.inj hfound]
      rw [errorLocator] at hloc
      split_ifs at hloc with hmany
      rw [hpos, ← Option.some.inj hloc]
      exact not_lt.1 hmany
    refine ⟨?_, ?_⟩
    · rw [← h, List.length_take, hlen, List.length_append]
      omega
    · rw [← hparity, ← hsplit]
      omega

end Blocks

end Arkeion.ReedSolomon
