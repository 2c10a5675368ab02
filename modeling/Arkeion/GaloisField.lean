import Arkeion.ReedSolomon
import Mathlib.Algebra.Field.Basic
import Mathlib.Algebra.CharP.Two
import Mathlib.Logic.Function.Iterate
import Mathlib.Data.List.GetD
import Mathlib.Data.Nat.Bitwise

/-!
The tables of the error correction make the bytes a field: a product of powers of the generator is
the power with the sum of the exponents, and doubling is linear.
-/

namespace Arkeion.ReedSolomon

open Arkeion.Lib

/-- A byte doubled. -/
def twice (a : UInt8) : UInt8 := UInt8.ofNat (double a.toNat)

/-- A power of the generator. -/
def gen (n : ℕ) : UInt8 := twice^[n] 1

/-! ### The tables -/

lemma log_exp : ∀ n < 255, exp n ≠ 0 ∧ log (exp n) = n := by decide +kernel

lemma exp_log : ∀ n < 256, n ≠ 0 → log (UInt8.ofNat n) < 255 ∧
    exp (log (UInt8.ofNat n)) = UInt8.ofNat n := by decide +kernel

lemma double_eq : ∀ x < 256, double x = (x <<< 1) ^^^ (if x.testBit 7 then PRIM else 0) ∧
    double x < 256 := by decide +kernel

lemma gen_period (n : ℕ) : gen (n + 255) = gen n := by
  have h : twice^[255] 1 = 1 := by decide +kernel
  rw [gen, Function.iterate_add_apply, h]
  rfl

lemma length_powersFrom (n x : ℕ) : (powersFrom n x).length = n := by
  induction n generalizing x with
  | zero => rfl
  | succ n ih => rw [powersFrom, List.length_cons, ih]

lemma powersFrom_getD {m i x : ℕ} (hi : i < m) (hx : x < 256) :
    UInt8.ofNat ((powersFrom m x).getD i 0) = twice^[i] (UInt8.ofNat x) := by
  induction m generalizing i x with
  | zero => exact absurd hi (Nat.not_lt_zero i)
  | succ m ih =>
    rw [powersFrom]
    cases i with
    | zero => rfl
    | succ i =>
      have htwice : twice (UInt8.ofNat x) = UInt8.ofNat (double x) := by
        rw [twice, UInt8.toNat_ofNat', Nat.mod_eq_of_lt hx]
      rw [List.getD_cons_succ, ih (Nat.lt_of_succ_lt_succ hi) (double_eq x hx).2,
        Function.iterate_succ_apply, htwice]

/-- The table has the powers, twice. -/
lemma exp_eq_gen {n : ℕ} (h : n < 510) : exp n = gen n := by
  have hlen : powers.length = 255 := length_powersFrom 255 1
  have hone : (1 : ℕ) < 256 := by decide
  have hmap : exp n = UInt8.ofNat ((powers ++ (powers ++ [0, 0])).getD n 0) := by
    rw [exp, expTable, List.append_assoc]
    exact List.getD_map _ _ UInt8.ofNat
  rw [hmap]
  by_cases hn : n < 255
  · rw [List.getD_append _ _ _ _ (by omega), powers, powersFrom_getD hn hone]
    rfl
  · rw [List.getD_append_right _ _ _ _ (by omega), List.getD_append _ _ _ _ (by omega), hlen, powers,
      powersFrom_getD (by omega) hone]
    change gen (n - 255) = gen n
    rw [← gen_period, Nat.sub_add_cancel (by omega)]

lemma gen_mod (n : ℕ) : gen (n % 255) = gen n := by
  conv_rhs => rw [← Nat.mod_add_div n 255]
  induction n / 255 with
  | zero => rw [Nat.mul_zero, Nat.add_zero]
  | succ k ih => rw [Nat.mul_succ, ← Nat.add_assoc, gen_period, ih]

lemma gen_congr {m n : ℕ} (h : m % 255 = n % 255) : gen m = gen n := by
  rw [← gen_mod m, h, gen_mod]

lemma gen_eq_exp (n : ℕ) : gen n = exp (n % 255) := by
  rw [exp_eq_gen (by omega), gen_mod]

lemma gen_ne_zero (n : ℕ) : gen n ≠ 0 := by
  rw [gen_eq_exp]
  exact (log_exp _ (by omega)).1

lemma log_gen (n : ℕ) : log (gen n) = n % 255 := by
  rw [gen_eq_exp]
  exact (log_exp _ (by omega)).2

lemma gen_inj {m n : ℕ} (h : gen m = gen n) : m % 255 = n % 255 := by
  rw [← log_gen m, h, log_gen]

lemma log_lt {a : UInt8} (h : a ≠ 0) : log a < 255 ∧ gen (log a) = a := by
  have hne : a.toNat ≠ 0 := fun h0 => h (UInt8.toNat_inj.1 h0)
  have ha := exp_log a.toNat (UInt8.toNat_lt a) hne
  rw [UInt8.ofNat_toNat] at ha
  exact ⟨ha.1, by rw [← exp_eq_gen (by omega), ha.2]⟩

lemma mul_gen (m n : ℕ) : mul (gen m) (gen n) = gen (m + n) := by
  rw [mul, if_neg (by simp [gen_ne_zero]), log_gen, log_gen, exp_eq_gen (by omega)]
  exact gen_congr (by omega)

lemma inv_gen (n : ℕ) : inv (gen n) = gen (255 - n % 255) := by
  rw [inv, log_gen, exp_eq_gen (by omega)]

lemma pow_eq_gen (n : ℤ) : pow n = gen (n % 255).toNat := by
  have hlog : log GEN = 1 := by decide +kernel
  have hlt : (n % 255).toNat < 510 := by omega
  rw [pow, hlog, Nat.cast_one, one_mul, exp_eq_gen hlt]

/-! ### Doubling is linear -/

lemma double_xor {x y : ℕ} (hx : x < 256) (hy : y < 256) :
    double (x ^^^ y) = double x ^^^ double y := by
  have hxy : x ^^^ y < 256 := Nat.xor_lt_two_pow (n := 8) hx hy
  have hprim : ∀ p q : Bool, (if (p ^^ q) then PRIM else 0)
      = (if p then PRIM else 0) ^^^ (if q then PRIM else 0) := by decide
  rw [(double_eq _ hxy).1, (double_eq x hx).1, (double_eq y hy).1, Nat.testBit_xor,
    Nat.shiftLeft_xor_distrib, hprim, Nat.xor_assoc, Nat.xor_assoc, ← Nat.xor_assoc (y <<< 1),
    Nat.xor_comm (y <<< 1), Nat.xor_assoc]

lemma twice_xor (a b : UInt8) : twice (a ^^^ b) = twice a ^^^ twice b := by
  have ha := double_eq a.toNat (UInt8.toNat_lt a)
  have hb := double_eq b.toNat (UInt8.toNat_lt b)
  rw [twice, UInt8.toNat_xor, double_xor (UInt8.toNat_lt a) (UInt8.toNat_lt b)]
  apply UInt8.toNat_inj.1
  rw [UInt8.toNat_xor, twice, twice, UInt8.toNat_ofNat', UInt8.toNat_ofNat', UInt8.toNat_ofNat',
    Nat.mod_eq_of_lt ha.2, Nat.mod_eq_of_lt hb.2,
    Nat.mod_eq_of_lt (Nat.xor_lt_two_pow (n := 8) ha.2 hb.2)]

lemma twice_zero : twice 0 = 0 := by decide +kernel

lemma mul_zero_left (a : UInt8) : mul 0 a = 0 := if_pos (Or.inl rfl)

lemma mul_zero_right (a : UInt8) : mul a 0 = 0 := if_pos (Or.inr rfl)

/-- To multiply by a power of the generator is to double so often. -/
lemma gen_mul (n : ℕ) (a : UInt8) : mul (gen n) a = twice^[n] a := by
  by_cases ha : a = 0
  · rw [ha, mul_zero_right, Function.iterate_fixed twice_zero]
  · rw [← (log_lt ha).2, mul_gen, gen, gen, Function.iterate_add_apply]

lemma mul_xor (a b c : UInt8) : mul a (b ^^^ c) = mul a b ^^^ mul a c := by
  by_cases ha : a = 0
  · rw [ha, mul_zero_left, mul_zero_left, mul_zero_left, UInt8.xor_self]
  · rw [← (log_lt ha).2, gen_mul, gen_mul, gen_mul]
    induction log a with
    | zero => rfl
    | succ n ih =>
      rw [Function.iterate_succ_apply', Function.iterate_succ_apply',
        Function.iterate_succ_apply', ih, twice_xor]

lemma mul_comm' (a b : UInt8) : mul a b = mul b a :=
  if_congr or_comm rfl (congrArg exp (Nat.add_comm _ _))

lemma mul_assoc' (a b c : UInt8) : mul (mul a b) c = mul a (mul b c) := by
  by_cases ha : a = 0
  · rw [ha, mul_zero_left, mul_zero_left, mul_zero_left]
  by_cases hb : b = 0
  · rw [hb, mul_zero_right, mul_zero_left, mul_zero_right]
  by_cases hc : c = 0
  · rw [hc, mul_zero_right, mul_zero_right, mul_zero_right]
  rw [← (log_lt ha).2, ← (log_lt hb).2, ← (log_lt hc).2, mul_gen, mul_gen, mul_gen, mul_gen,
    Nat.add_assoc]

lemma one_mul' (a : UInt8) : mul 1 a = a := gen_mul 0 a

lemma mul_inv' {a : UInt8} (ha : a ≠ 0) : mul a (inv a) = 1 := by
  obtain ⟨hlt, hgen⟩ := log_lt ha
  rw [← hgen, inv_gen, mul_gen, Nat.mod_eq_of_lt hlt, Nat.add_sub_cancel' (by omega)]
  exact gen_period 0

lemma div_eq_mul {a b : UInt8} (hb : b ≠ 0) : div a b = mul a (inv b) := by
  by_cases ha : a = 0
  · rw [div, if_pos ha, ha, mul_zero_left]
  · obtain ⟨hlta, hgena⟩ := log_lt ha
    obtain ⟨hltb, hgenb⟩ := log_lt hb
    rw [div, if_neg ha, exp_eq_gen (by omega)]
    conv_rhs => rw [← hgena, ← hgenb, inv_gen, mul_gen]
    refine gen_congr ?_
    omega

/-! ### The field -/

/-- A byte as a number of the field. -/
@[ext] structure GF where
  byte : UInt8
  deriving DecidableEq, Repr

namespace GF

instance : Add GF := ⟨fun a b => ⟨a.byte ^^^ b.byte⟩⟩
instance : Zero GF := ⟨⟨0⟩⟩
instance : Neg GF := ⟨id⟩
instance : Mul GF := ⟨fun a b => ⟨mul a.byte b.byte⟩⟩
instance : One GF := ⟨⟨1⟩⟩
instance : Inv GF := ⟨fun a => ⟨if a.byte = 0 then 0 else inv a.byte⟩⟩

instance : Field GF where
  add_assoc a b c := GF.ext (UInt8.xor_assoc _ _ _)
  zero_add a := GF.ext UInt8.zero_xor
  add_zero a := GF.ext UInt8.xor_zero
  add_comm a b := GF.ext (UInt8.xor_comm _ _)
  neg_add_cancel a := GF.ext UInt8.xor_self
  mul_assoc a b c := GF.ext (mul_assoc' _ _ _)
  mul_comm a b := GF.ext (mul_comm' _ _)
  one_mul a := GF.ext (one_mul' _)
  mul_one a := GF.ext ((mul_comm' _ _).trans (one_mul' a.byte))
  zero_mul a := GF.ext (mul_zero_left a.byte)
  mul_zero a := GF.ext (mul_zero_right a.byte)
  left_distrib a b c := GF.ext (mul_xor _ _ _)
  right_distrib a b c := GF.ext (by
    change mul (a.byte ^^^ b.byte) c.byte = mul a.byte c.byte ^^^ mul b.byte c.byte
    rw [mul_comm' _ c.byte, mul_comm' _ c.byte, mul_comm' _ c.byte, mul_xor])
  nsmul := nsmulRec
  zsmul := zsmulRec
  exists_pair_ne := ⟨⟨0⟩, ⟨1⟩, fun h => by cases h⟩
  mul_inv_cancel a ha := by
    have hne : a.byte ≠ 0 := fun h => ha (GF.ext h)
    change (⟨mul a.byte (if a.byte = 0 then 0 else inv a.byte)⟩ : GF) = ⟨1⟩
    rw [if_neg hne, mul_inv' hne]
  inv_zero := rfl
  nnqsmul := _
  nnqsmul_def _ _ := rfl
  qsmul := _
  qsmul_def _ _ := rfl

@[simp] lemma byte_add (a b : GF) : (a + b).byte = a.byte ^^^ b.byte := rfl
@[simp] lemma byte_mul (a b : GF) : (a * b).byte = mul a.byte b.byte := rfl
@[simp] lemma byte_zero : (0 : GF).byte = 0 := rfl
@[simp] lemma byte_one : (1 : GF).byte = 1 := rfl

instance : CharP GF 2 := CharTwo.of_one_ne_zero_of_two_eq_zero one_ne_zero (by
  have htwo : (1 + 1 : GF) = 0 := GF.ext UInt8.xor_self
  rw [← one_add_one_eq_two, htwo])

end GF

end Arkeion.ReedSolomon
