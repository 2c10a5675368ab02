import Arkeion.GaloisField
import Arkeion.Lib.ErrorLocator

/-!
The lists of the error correction as polynomials over the field.
-/

namespace Arkeion.ReedSolomon

open Arkeion.Lib Polynomial

/-- A list of coefficients, the highest one first. -/
noncomputable def toPoly : Bytes → GF[X]
  | [] => 0
  | a :: p => C ⟨a⟩ * X ^ p.length + toPoly p

/-- A byte of the field: a power of the generator. -/
def alpha (n : ℕ) : GF := ⟨gen n⟩

section Lists
variable {p q : Bytes} {a b x : UInt8}

@[simp] lemma toPoly_nil : toPoly [] = 0 := rfl

lemma toPoly_cons (a : UInt8) (p : Bytes) : toPoly (a :: p) = C ⟨a⟩ * X ^ p.length + toPoly p := rfl

lemma toPoly_append (p q : Bytes) : toPoly (p ++ q) = toPoly p * X ^ q.length + toPoly q := by
  induction p with
  | nil => rw [List.nil_append, toPoly_nil, zero_mul, zero_add]
  | cons a p ih =>
    rw [List.cons_append, toPoly_cons, toPoly_cons, ih, List.length_append, pow_add]
    ring

lemma toPoly_singleton (a : UInt8) : toPoly [a] = C ⟨a⟩ := by
  rw [toPoly_cons, toPoly_nil, List.length_nil, pow_zero, mul_one, add_zero]

lemma C_zero_byte : (C (⟨0⟩ : GF)) = 0 := C_0

lemma toPoly_replicate (n : ℕ) : toPoly (List.replicate n 0) = 0 := by
  induction n with
  | zero => rfl
  | succ n ih => rw [List.replicate_succ, toPoly_cons, ih, C_zero_byte, zero_mul, add_zero]

/-- The coefficient of a degree, from the right end of the list. -/
lemma coeff_toPoly (p : Bytes) (k : ℕ) : (toPoly p).coeff k = ⟨p.reverse.getD k 0⟩ := by
  induction p with
  | nil =>
    rw [toPoly_nil, coeff_zero]
    rfl
  | cons a p ih =>
    rw [toPoly_cons, coeff_add, coeff_C_mul_X_pow, ih, List.reverse_cons]
    rcases lt_trichotomy k p.length with hk | rfl | hk
    · rw [if_neg hk.ne, zero_add, List.getD_append _ _ _ _ (by simpa using hk)]
    · have hout : p.reverse.getD p.length 0 = 0 := List.getD_eq_default _ _ (by simp)
      rw [if_pos rfl, hout, List.getD_append_right _ _ _ _ (by simp)]
      simp only [List.length_reverse, Nat.sub_self, List.getD_cons_zero]
      exact add_zero _
    · rw [if_neg hk.ne', zero_add, List.getD_eq_default _ _ (by simp; omega),
        List.getD_eq_default _ _ (by simp; omega)]

lemma coeff_toPoly_of_le {k : ℕ} (h : p.length ≤ k) : (toPoly p).coeff k = 0 := by
  rw [coeff_toPoly, List.getD_eq_default _ _ (by simpa using h)]
  rfl

lemma natDegree_toPoly_le (p : Bytes) : (toPoly p).natDegree ≤ p.length - 1 := by
  refine natDegree_le_iff_coeff_eq_zero.2 fun k hk => coeff_toPoly_of_le (by omega)

lemma toPoly_inj (hlen : p.length = q.length) (h : toPoly p = toPoly q) : p = q := by
  induction p generalizing q with
  | nil => exact (List.length_eq_zero_iff.1 hlen.symm).symm
  | cons a p ih =>
    cases q with
    | nil => cases hlen
    | cons b q =>
      have hlen' : p.length = q.length := Nat.succ.inj hlen
      have hcoeff := congrArg (fun r => r.coeff p.length) h
      simp only [toPoly_cons, coeff_add, coeff_C_mul_X_pow, coeff_toPoly_of_le (le_refl _), ← hlen',
        if_true, add_zero, coeff_toPoly_of_le hlen'.ge] at hcoeff
      obtain rfl : a = b := congrArg GF.byte hcoeff
      rw [toPoly_cons, toPoly_cons, hlen', add_right_inj] at h
      rw [ih hlen' h]

lemma toPoly_polyScale (p : Bytes) (x : UInt8) : toPoly (polyScale p x) = toPoly p * C ⟨x⟩ := by
  induction p with
  | nil => rw [polyScale, List.map_nil, toPoly_nil, zero_mul]
  | cons a p ih =>
    have hmul : (⟨mul a x⟩ : GF) = ⟨a⟩ * ⟨x⟩ := rfl
    rw [polyScale, List.map_cons, toPoly_cons, List.length_map, hmul, C_mul, ← polyScale, ih,
      toPoly_cons]
    ring

lemma length_xorFront (p q : Bytes) : (xorFront p q).length = p.length := by
  induction p generalizing q with
  | nil => cases q <;> rfl
  | cons a p ih =>
    cases q with
    | nil => rfl
    | cons b q => rw [xorFront, List.length_cons, List.length_cons, ih]

/-- To add to the first coefficients is to add a multiple by a power. -/
lemma toPoly_xorFront (h : q.length ≤ p.length) :
    toPoly (xorFront p q) = toPoly p + toPoly q * X ^ (p.length - q.length) := by
  induction p generalizing q with
  | nil =>
    cases q with
    | nil => rw [xorFront, toPoly_nil, zero_mul, add_zero]
    | cons b q => cases h
  | cons a p ih =>
    cases q with
    | nil => rw [xorFront, toPoly_nil, zero_mul, add_zero]
    | cons b q =>
      have hle : q.length ≤ p.length := Nat.le_of_succ_le_succ h
      have hadd : (⟨a ^^^ b⟩ : GF) = ⟨a⟩ + ⟨b⟩ := rfl
      have hpow : (X : GF[X]) ^ p.length = X ^ q.length * X ^ (p.length - q.length) := by
        rw [← pow_add, Nat.add_sub_cancel' hle]
      rw [xorFront, toPoly_cons, length_xorFront, ih hle, toPoly_cons, toPoly_cons, hadd, C_add,
        List.length_cons, List.length_cons, Nat.add_sub_add_right, hpow]
      ring

lemma length_polyAdd (p q : Bytes) : (polyAdd p q).length = max p.length q.length := by
  rw [polyAdd, length_xorFront, List.length_append, List.length_replicate]
  omega

lemma toPoly_polyAdd (p q : Bytes) : toPoly (polyAdd p q) = toPoly p + toPoly q := by
  have hlen : (List.replicate (max p.length q.length - p.length) 0 ++ p).length
      = (List.replicate (max p.length q.length - q.length) 0 ++ q).length := by
    simp only [List.length_append, List.length_replicate]
    omega
  rw [polyAdd, toPoly_xorFront hlen.ge, hlen, Nat.sub_self, pow_zero, mul_one, toPoly_append,
    toPoly_append, toPoly_replicate, toPoly_replicate, zero_mul, zero_mul, zero_add, zero_add]

lemma polyEval_eq (p : Bytes) (x : UInt8) : (⟨polyEval p x⟩ : GF) = (toPoly p).eval ⟨x⟩ := by
  have hfold (cs : Bytes) (y : UInt8) :
      (⟨cs.foldl (fun y c => mul y x ^^^ c) y⟩ : GF) = (toPoly (y :: cs)).eval ⟨x⟩ := by
    induction cs generalizing y with
    | nil =>
      rw [toPoly_singleton, eval_C]
      rfl
    | cons c cs ih =>
      have hstep : (⟨mul y x ^^^ c⟩ : GF) = ⟨y⟩ * ⟨x⟩ + ⟨c⟩ := rfl
      rw [List.foldl_cons, ih, toPoly_cons, toPoly_cons, toPoly_cons, hstep]
      simp only [eval_add, eval_mul, eval_C, eval_pow, eval_X, List.length_cons, pow_succ]
      ring
  cases p with
  | nil =>
    rw [toPoly_nil, eval_zero]
    rfl
  | cons y cs => exact hfold cs y

lemma polyEval_eq_zero : polyEval p x = 0 ↔ (toPoly p).eval ⟨x⟩ = 0 := by
  rw [← polyEval_eq]
  exact ⟨fun h => by rw [h]; rfl, fun h => congrArg GF.byte h⟩

end Lists

/-! ### Products -/

section Product
variable {p q : Bytes}

/-- One coefficient of the second factor is multiplied in. -/
def mulAt (p : Bytes) (r : Bytes) (qj : UInt8 × ℕ) : Bytes :=
  r.take qj.2 ++ xorFront (r.drop qj.2) (p.map fun pi => mul pi qj.1)

lemma length_mulAt (r : Bytes) (qj : UInt8 × ℕ) : (mulAt p r qj).length = r.length := by
  rw [mulAt, List.length_append, length_xorFront, ← List.length_append, List.take_append_drop]

lemma toPoly_mulAt {r : Bytes} {c : UInt8} {j : ℕ} (h : j + p.length ≤ r.length) :
    toPoly (mulAt p r (c, j))
      = toPoly r + toPoly p * C ⟨c⟩ * X ^ (r.length - j - p.length) := by
  have hsplit : toPoly r = toPoly (r.take j) * X ^ (r.drop j).length + toPoly (r.drop j) := by
    rw [← toPoly_append, List.take_append_drop]
  have hle : (p.map fun pi => mul pi c).length ≤ (r.drop j).length := by
    rw [List.length_map, List.length_drop]
    omega
  have hscale : toPoly (p.map fun pi => mul pi c) = toPoly p * C ⟨c⟩ := toPoly_polyScale p c
  rw [mulAt, toPoly_append, length_xorFront, toPoly_xorFront hle, hscale, List.length_map,
    List.length_drop, hsplit, List.length_drop]
  ring

lemma mulAt_foldl {n j : ℕ} {r : Bytes} (hr : r.length = n)
    (hn : n + 1 = j + q.length + p.length) :
    ((q.zipIdx j).foldl (mulAt p) r).length = n ∧
      toPoly ((q.zipIdx j).foldl (mulAt p) r) = toPoly r + toPoly p * toPoly q := by
  induction q generalizing j r with
  | nil => exact ⟨hr, by rw [toPoly_nil, mul_zero, add_zero]; rfl⟩
  | cons c q ih =>
    rw [List.length_cons] at hn
    rw [List.zipIdx_cons, List.foldl_cons]
    obtain ⟨hlen, hpoly⟩ := ih (j := j + 1) (r := mulAt p r (c, j)) (by rw [length_mulAt, hr])
      (by omega)
    refine ⟨hlen, ?_⟩
    rw [hpoly, toPoly_mulAt (by omega), toPoly_cons, hr, show n - j - p.length = q.length by omega]
    ring

lemma toPoly_polyMul (hp : 0 < p.length) (hq : 0 < q.length) :
    (polyMul p q).length = p.length + q.length - 1 ∧
      toPoly (polyMul p q) = toPoly p * toPoly q := by
  have h := mulAt_foldl (p := p) (q := q) (j := 0)
    (r := List.replicate (p.length + q.length - 1) 0) List.length_replicate (by omega)
  rw [toPoly_replicate, zero_add] at h
  exact h

end Product

/-! ### The generator -/

lemma alpha_ne_zero (n : ℕ) : alpha n ≠ 0 := fun h => gen_ne_zero n (congrArg GF.byte h)

lemma alpha_add (m n : ℕ) : alpha (m + n) = alpha m * alpha n := by
  rw [alpha, ← mul_gen]
  rfl

lemma alpha_pow (n k : ℕ) : alpha n ^ k = alpha (n * k) := by
  induction k with
  | zero => rfl
  | succ k ih => rw [pow_succ, ih, Nat.mul_succ, alpha_add]

lemma alpha_inj {m n : ℕ} (hm : m < 255) (hn : n < 255) (h : alpha m = alpha n) : m = n := by
  have hmod := gen_inj (congrArg GF.byte h)
  rwa [Nat.mod_eq_of_lt hm, Nat.mod_eq_of_lt hn] at hmod

lemma pow_natCast (n : ℕ) : (⟨pow (n : ℤ)⟩ : GF) = alpha n := by
  rw [pow_eq_gen, alpha]
  exact congrArg GF.mk (gen_congr (by omega))

lemma inv_byte {a : GF} (ha : a ≠ 0) : (⟨inv a.byte⟩ : GF) = a⁻¹ := by
  have hne : a.byte ≠ 0 := fun h => ha (GF.ext h)
  have hmul : (a * ⟨inv a.byte⟩ : GF) = 1 := by
    ext
    rw [GF.byte_mul, mul_inv' hne, GF.byte_one]
  exact eq_inv_of_mul_eq_one_right hmul

lemma div_byte {a b : GF} (hb : b ≠ 0) : (⟨div a.byte b.byte⟩ : GF) = a / b := by
  have hne : b.byte ≠ 0 := fun h => hb (GF.ext h)
  rw [div_eq_mul hne, div_eq_mul_inv, ← inv_byte hb]
  ext
  rw [GF.byte_mul]

lemma pow_neg (n : ℕ) : (⟨pow (-(n : ℤ))⟩ : GF) = (alpha n)⁻¹ := by
  have hgen (k : ℕ) : (⟨gen k⟩ : GF) = alpha k := rfl
  have hone : (1 : GF) = ⟨gen 0⟩ := rfl
  refine eq_inv_of_mul_eq_one_right ?_
  rw [pow_eq_gen, hgen, ← alpha_add, hone, alpha]
  exact congrArg GF.mk (gen_congr (by omega))

end Arkeion.ReedSolomon
