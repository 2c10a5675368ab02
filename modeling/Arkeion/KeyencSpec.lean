import Arkeion.Keyenc
import Arkeion.Lib.KeyCode
import Mathlib.Data.EReal.Operations
import Mathlib.Tactic.IntervalCases

/-!
The codes keep the order of the values, and what is written can be read again.
-/

namespace Arkeion

open Arkeion.Lib

/-! ### The sign bit -/

section Sign
variable {x : ℕ}

lemma div_two_pow_63 (h : x < 2 ^ 64) : x / 2 ^ 63 = if x < 2 ^ 63 then 0 else 1 := by
  split_ifs <;> omega

lemma xor_two_pow_63 (h : x < 2 ^ 64) :
    x ^^^ 2 ^ 63 = if x < 2 ^ 63 then x + 2 ^ 63 else x - 2 ^ 63 := by
  have hd : (x ^^^ 2 ^ 63) / 2 ^ 63 = x / 2 ^ 63 ^^^ 1 := Nat.xor_div_two_pow
  have hm : (x ^^^ 2 ^ 63) % 2 ^ 63 = x % 2 ^ 63 ^^^ 0 := Nat.xor_mod_two_pow
  rw [div_two_pow_63 h] at hd
  rw [Nat.xor_zero] at hm
  have hsplit := Nat.div_add_mod (x ^^^ 2 ^ 63) (2 ^ 63)
  split_ifs at hd ⊢ with hx
  · rw [Nat.zero_xor] at hd
    omega
  · rw [Nat.xor_self] at hd
    omega

lemma or_two_pow_63 (h : x < 2 ^ 64) : x ||| 2 ^ 63 = x % 2 ^ 63 + 2 ^ 63 := by
  have hd : (x ||| 2 ^ 63) / 2 ^ 63 = x / 2 ^ 63 ||| 1 := Nat.or_div_two_pow
  have hm : (x ||| 2 ^ 63) % 2 ^ 63 = x % 2 ^ 63 ||| 0 := Nat.or_mod_two_pow
  have hone : x / 2 ^ 63 ||| 1 = 1 := by
    rw [div_two_pow_63 h]
    split_ifs <;> rfl
  rw [Nat.or_zero] at hm
  have hsplit := Nat.div_add_mod (x ||| 2 ^ 63) (2 ^ 63)
  omega

lemma and_two_pow_63 (h : x < 2 ^ 64) : x &&& 2 ^ 63 = if x < 2 ^ 63 then 0 else 2 ^ 63 := by
  have hd : (x &&& 2 ^ 63) / 2 ^ 63 = x / 2 ^ 63 &&& 1 := Nat.and_div_two_pow
  have hm : (x &&& 2 ^ 63) % 2 ^ 63 = x % 2 ^ 63 &&& 0 := Nat.and_mod_two_pow
  rw [div_two_pow_63 h] at hd
  rw [Nat.and_zero] at hm
  have hsplit := Nat.div_add_mod (x &&& 2 ^ 63) (2 ^ 63)
  split_ifs at hd ⊢ with hx
  · rw [Nat.zero_and] at hd
    omega
  · rw [Nat.and_self] at hd
    omega

end Sign

lemma toNat_SIGN : SIGN.toNat = 2 ^ 63 := rfl

/-- The bits of an integer are the number itself, or the number above all others. -/
lemma toNat_toUInt64 (v : Int64) :
    (v.toUInt64.toNat : ℤ) = if 0 ≤ v.toInt then v.toInt else v.toInt + 2 ^ 64 := by
  have hv : v.toInt = v.toBitVec.toInt := rfl
  have hn : v.toUInt64.toNat = v.toBitVec.toNat := rfl
  have hlt := v.toBitVec.isLt
  rw [hv, hn, BitVec.toInt_eq_toNat_cond]
  split_ifs <;> omega

lemma toNat_rowid (v : Int64) : ((v.toUInt64 ^^^ SIGN).toNat : ℤ) = v.toInt + 2 ^ 63 := by
  have hu := toNat_toUInt64 v
  have hlt := v.toUInt64.toNat_lt
  have hmax := v.toInt_lt
  have hmin := v.le_toInt
  rw [UInt64.toNat_xor, toNat_SIGN, xor_two_pow_63 hlt]
  split_ifs at hu ⊢ <;> omega

/-! ### Integers of eight bytes -/

lemma rowidBe_keepsOrder : KeepsOrder (· < ·) rowidBe := by
  intro m n hlt
  refine .beBytes 8 (UInt64.toNat_lt _) ?_
  have hm := toNat_rowid m
  have hn := toNat_rowid n
  have hmn := Int64.lt_iff_toInt_lt.1 hlt
  omega

lemma rowidFromBe_rowidBe (v : Int64) : rowidFromBe (rowidBe v) = some v := by
  have hlt : (v.toUInt64 ^^^ SIGN).toNat < 256 ^ 8 := UInt64.toNat_lt _
  rw [rowidFromBe, rowidBe, if_pos (by simp), beNat_beBytes 8 hlt, UInt64.ofNat_toNat,
    UInt64.xor_assoc, UInt64.xor_self, UInt64.xor_zero]
  rfl

/-! ### Strings -/

lemma escapeByte_below {x y : UInt8} (h : x < y) (s t : Bytes) :
    Below (escapeByte x ++ s) (escapeByte y ++ t) := by
  have hy : y ≠ 0 := by
    rintro rfl
    exact absurd h (by simp)
  rw [escapeByte, escapeByte, if_neg hy]
  split_ifs with hx
  · exact .cons h _ _
  · exact .cons h _ _

/-- The terminator is below what any byte is written as. -/
lemma terminator_below (y : UInt8) (t : Bytes) : Below [0x00, 0x00] (escapeByte y ++ t) := by
  rw [escapeByte]
  split_ifs with hy
  · subst hy
    exact (Below.cons (by decide) _ _).cons_cons 0
  · refine .cons ?_ _ _
    rw [UInt8.lt_iff_toNat_lt]
    have hne : y.toNat ≠ 0 := fun h0 => hy (UInt8.toNat_inj.1 h0)
    exact Nat.pos_of_ne_zero hne

lemma encodeBytes_cons (x : UInt8) (a : Bytes) :
    encodeBytes (x :: a) = escapeByte x ++ encodeBytes a := by
  rw [encodeBytes, List.flatMap_cons, List.append_assoc]
  rfl

lemma encodeBytes_keepsOrder : KeepsOrder (· < ·) encodeBytes := by
  intro a b hlt
  induction a generalizing b with
  | nil =>
    cases b with
    | nil => exact absurd hlt (lt_irrefl _)
    | cons y b =>
      rw [encodeBytes_cons]
      exact terminator_below y _
  | cons x a ih =>
    cases b with
    | nil => exact absurd hlt (by simp)
    | cons y b =>
      rw [encodeBytes_cons, encodeBytes_cons]
      rcases List.cons_lt_cons_iff.1 hlt with hxy | ⟨rfl, hab⟩
      · exact escapeByte_below hxy _ _
      · exact (ih hab).append_left _

/-! ### Integers that say how long they are -/

section Oint
variable {u w : UInt64}

lemma ointLen_le (u : UInt64) : ointLen u ≤ 8 := Nat.sub_le _ _

lemma size_le_ointLen (u : UInt64) : u.toNat.size ≤ 8 * ointLen u := by
  have hsize : u.toNat.size ≤ 64 := Nat.size_le.2 u.toNat_lt
  rw [ointLen, leadingZeros]
  omega

lemma lt_ointLen (u : UInt64) : u.toNat < 256 ^ ointLen u := by
  have h := Nat.size_le.1 (size_le_ointLen u)
  rwa [pow_mul] at h

/-- The first of the bytes is not zero. -/
lemma ointLen_ge {k : ℕ} (h : k < ointLen u) : 256 ^ k ≤ u.toNat := by
  have hsize : 8 * k < u.toNat.size := by
    rw [ointLen, leadingZeros] at h
    omega
  have hle := Nat.lt_size.1 hsize
  rwa [pow_mul] at hle

lemma lt_of_ointLen_lt (h : ointLen u < ointLen w) : u.toNat < w.toNat :=
  (lt_ointLen u).trans_le (ointLen_ge h)

lemma leBytes_take {n m : ℕ} (h : n ≤ m) (v : ℕ) : (leBytes m v).take n = leBytes n v := by
  induction m generalizing n v with
  | zero =>
    obtain rfl := Nat.le_zero.1 h
    rfl
  | succ m ih =>
    cases n with
    | zero => rfl
    | succ n => rw [leBytes, leBytes, List.take_succ_cons, ih (by omega)]

lemma ointBytes_eq (u : UInt64) :
    (beBytes 8 u.toNat).drop (8 - ointLen u) = beBytes (ointLen u) u.toNat := by
  have hlen := ointLen_le u
  rw [beBytes, List.drop_reverse, length_leBytes, Nat.sub_sub_self hlen, leBytes_take hlen]
  rfl

lemma header_nonneg {n : ℕ} (h : n ≤ 8) : ((0x80 : UInt8) ||| UInt8.ofNat n).toNat = 128 + n := by
  interval_cases n <;> rfl

lemma header_neg {n : ℕ} (h : n ≤ 8) : ((0x7F : UInt8) - UInt8.ofNat n).toNat = 127 - n := by
  interval_cases n <;> rfl

/-- The codes of numbers that are not negative, without the sign. -/
def ointAbove (u : UInt64) : Bytes :=
  (0x80 ||| UInt8.ofNat (ointLen u)) :: beBytes (ointLen u) u.toNat

/-- The codes of negative numbers, by the complement. -/
def ointBelow (c : UInt64) : Bytes :=
  (0x7F - UInt8.ofNat (ointLen c)) :: (beBytes (ointLen c) c.toNat).map fun b => ~~~b

lemma encodeOint_eq (v : Int64) :
    encodeOint v = if 0 ≤ v then ointAbove v.toUInt64 else ointBelow (~~~v.toUInt64) := by
  simp only [encodeOint, ointBytes_eq, ointAbove, ointBelow]

lemma ointAbove_keepsOrder : KeepsOrder (fun u w => u.toNat < w.toNat) ointAbove := by
  intro u w h
  rcases lt_trichotomy (ointLen u) (ointLen w) with hlt | heq | hgt
  · refine .cons ?_ _ _
    rw [UInt8.lt_iff_toNat_lt, header_nonneg (ointLen_le u), header_nonneg (ointLen_le w)]
    omega
  · rw [ointAbove, ointAbove, heq]
    exact (Below.beBytes _ (lt_ointLen w) h).cons_cons _
  · exact absurd (lt_of_ointLen_lt hgt) (lt_asymm h)

lemma ointBelow_keepsOrder : KeepsOrder (fun c d => d.toNat < c.toNat) ointBelow := by
  intro c d h
  rcases lt_trichotomy (ointLen d) (ointLen c) with hlt | heq | hgt
  · refine .cons ?_ _ _
    have hc := ointLen_le c
    rw [UInt8.lt_iff_toNat_lt, header_neg hc, header_neg (ointLen_le d)]
    omega
  · rw [ointBelow, ointBelow, heq]
    exact (Below.beBytes _ (lt_ointLen c) h).complement.cons_cons _
  · exact absurd (lt_of_ointLen_lt hgt) (lt_asymm h)

lemma ointBelow_below_above (c u : UInt64) : Below (ointBelow c) (ointAbove u) := by
  refine .cons ?_ _ _
  rw [UInt8.lt_iff_toNat_lt, header_neg (ointLen_le c), header_nonneg (ointLen_le u)]
  omega

lemma toNat_not_toUInt64 {v : Int64} (h : v.toInt < 0) :
    ((~~~v.toUInt64).toNat : ℤ) = -v.toInt - 1 := by
  have hu := toNat_toUInt64 v
  have hlt := v.toUInt64.toNat_lt
  have hsize : UInt64.size = 2 ^ 64 := rfl
  rw [if_neg (by omega)] at hu
  rw [UInt64.toNat_not]
  omega

lemma nonneg_iff (v : Int64) : 0 ≤ v ↔ 0 ≤ v.toInt := Int64.le_iff_toInt_le

lemma encodeOint_keepsOrder : KeepsOrder (· < ·) encodeOint := by
  intro v w hlt
  have hvw := Int64.lt_iff_toInt_lt.1 hlt
  rw [encodeOint_eq, encodeOint_eq]
  split_ifs with hv hw hw
  · refine ointAbove_keepsOrder ?_
    have hv' := toNat_toUInt64 v
    have hw' := toNat_toUInt64 w
    rw [if_pos ((nonneg_iff v).1 hv)] at hv'
    rw [if_pos ((nonneg_iff w).1 hw)] at hw'
    omega
  · exact absurd ((nonneg_iff w).2 (((nonneg_iff v).1 hv).trans hvw.le)) hw
  · exact ointBelow_below_above _ _
  · refine ointBelow_keepsOrder ?_
    have hv' := toNat_not_toUInt64 (not_le.1 fun h => hv ((nonneg_iff v).2 h))
    have hw' := toNat_not_toUInt64 (not_le.1 fun h => hw ((nonneg_iff w).2 h))
    omega

/-! ### Reading an integer -/

lemma leNat_append_zeros (a : Bytes) (n : ℕ) : leNat (a ++ List.replicate n 0) = leNat a := by
  induction a with
  | nil =>
    induction n with
    | zero => rfl
    | succ n ih =>
      rw [List.nil_append] at ih ⊢
      change 0 + 256 * leNat (List.replicate n 0) = leNat []
      rw [ih]
      rfl
  | cons x a ih => rw [List.cons_append, leNat, leNat, ih]

lemma ointNumber_beBytes (u : UInt64) : ointNumber (beBytes (ointLen u) u.toNat) = u := by
  have hnat : beNat (beBytes (ointLen u) u.toNat) = u.toNat := beNat_beBytes _ (lt_ointLen u)
  rw [ointNumber, beNat, List.reverse_append, List.reverse_replicate, leNat_append_zeros, ← beNat,
    hnat, UInt64.ofNat_toNat]

/-- What is written at a position is read there, whatever follows. -/
lemma decodeOint_encodeOint (p t : Bytes) (v : Int64) :
    decodeOint (p ++ encodeOint v ++ t) p.length = some (v, p.length + (encodeOint v).length) := by
  rw [encodeOint_eq]
  split_ifs with hv
  · generalize hu : v.toUInt64 = u
    have hhead := header_nonneg (ointLen_le u)
    have hge : (0x80 : UInt8) ≤ 0x80 ||| UInt8.ofNat (ointLen u) := by
      rw [UInt8.le_iff_toNat_le, hhead]
      exact Nat.le_add_right _ _
    have hn : ((0x80 ||| UInt8.ofNat (ointLen u)) - 0x80 : UInt8).toNat = ointLen u := by
      rw [UInt8.toNat_sub_of_le _ _ hge, hhead]
      exact Nat.add_sub_cancel_left ..
    have hslice : slice? (p ++ ointAbove u ++ t) (p.length + 1) (ointLen u)
        = some (beBytes (ointLen u) u.toNat) := by
      have h : slice? (p ++ [0x80 ||| UInt8.ofNat (ointLen u)] ++ beBytes (ointLen u) u.toNat ++ t)
          (p.length + 1) (ointLen u) = some (beBytes (ointLen u) u.toNat) :=
        slice?_append _ _ _ (by simp) (length_beBytes ..).symm
      simpa [ointAbove] using h
    have hfirst : (p ++ ointAbove u ++ t)[p.length]? = some (0x80 ||| UInt8.ofNat (ointLen u)) := by
      simp [ointAbove]
    have hvu : u.toInt64 = v := by rw [← hu]; rfl
    rw [decodeOint, hfirst]
    simp only [Option.bind_eq_bind, Option.bind_some, if_pos hge, hn, ointBytes,
      if_neg (not_lt.2 (ointLen_le u)), hslice, ointNumber_beBytes, hvu]
    rw [ointAbove, List.length_cons, length_beBytes, Nat.add_right_comm, Nat.add_assoc]
  · generalize hc : ~~~v.toUInt64 = c
    have hhead := header_neg (ointLen_le c)
    have hlen := ointLen_le c
    have hlt : ¬ (0x80 : UInt8) ≤ 0x7F - UInt8.ofNat (ointLen c) := by
      rw [UInt8.le_iff_toNat_le, hhead, not_le]
      exact Nat.lt_succ_of_le (Nat.sub_le _ _)
    have hn : (0x7F - (0x7F - UInt8.ofNat (ointLen c)) : UInt8).toNat = ointLen c := by
      generalize ointLen c = k at hlen
      interval_cases k <;> rfl
    have hslice : slice? (p ++ ointBelow c ++ t) (p.length + 1) (ointLen c)
        = some ((beBytes (ointLen c) c.toNat).map fun b => ~~~b) := by
      have h : slice? (p ++ [0x7F - UInt8.ofNat (ointLen c)]
          ++ (beBytes (ointLen c) c.toNat).map (fun b => ~~~b) ++ t) (p.length + 1) (ointLen c)
          = some ((beBytes (ointLen c) c.toNat).map fun b => ~~~b) :=
        slice?_append _ _ _ (by simp) (by simp)
      simpa [ointBelow] using h
    have hfirst : (p ++ ointBelow c ++ t)[p.length]? = some (0x7F - UInt8.ofNat (ointLen c)) := by
      simp [ointBelow]
    have hback : ((beBytes (ointLen c) c.toNat).map fun b => ~~~b).map (fun b => ~~~b)
        = beBytes (ointLen c) c.toNat := by
      rw [List.map_map]
      exact List.map_id'' (fun b => UInt8.not_not) _
    have hvc : (~~~c).toInt64 = v := by rw [← hc, UInt64.not_not]; rfl
    rw [decodeOint, hfirst]
    simp only [Option.bind_eq_bind, Option.bind_some, if_neg hlt, hn, ointBytes,
      if_neg (not_lt.2 hlen), hslice, hback, ointNumber_beBytes, hvc]
    rw [ointBelow, List.length_cons, List.length_map, length_beBytes, Nat.add_right_comm,
      Nat.add_assoc]

end Oint

/-! ### Reals -/

namespace F64

/-- The bits without the sign. -/
def magnitude (f : F64) : ℕ := f.bits.toNat % 2 ^ 63

def Negative (f : F64) : Prop := 2 ^ 63 ≤ f.bits.toNat

/-- All bits of the exponent are set, and one of the mantissa. -/
def IsNaN (f : F64) : Prop := 2047 * 2 ^ 52 < f.magnitude

/-- What a finite magnitude stands for, in units of the smallest positive double. -/
def units (m : ℕ) : ℕ :=
  if m / 2 ^ 52 = 0 then m % 2 ^ 52 else (2 ^ 52 + m % 2 ^ 52) * 2 ^ (m / 2 ^ 52 - 1)

noncomputable def absValue (m : ℕ) : EReal :=
  if m = 2047 * 2 ^ 52 then ⊤ else ((units m / 2 ^ 1074 : ℝ) : EReal)

open Classical in
/-- The number a double stands for that is not a NaN. -/
noncomputable def value (f : F64) : EReal :=
  if f.Negative then -absValue f.magnitude else absValue f.magnitude

/-- The numeric order, with the negative zero before the other one. -/
def Before (x y : F64) : Prop := x.value < y.value ∨ x.value = y.value ∧ x.Negative ∧ ¬ y.Negative

lemma units_lt {m m' : ℕ} (h : m < m') : units m < units m' := by
  have hm := Nat.div_add_mod m (2 ^ 52)
  have hm' := Nat.div_add_mod m' (2 ^ 52)
  have hr := Nat.mod_lt m (Nat.two_pow_pos 52)
  have hr' := Nat.mod_lt m' (Nat.two_pow_pos 52)
  unfold units
  generalize m / 2 ^ 52 = e at *
  generalize m % 2 ^ 52 = r at *
  generalize m' / 2 ^ 52 = e' at *
  generalize m' % 2 ^ 52 = r' at *
  rcases lt_trichotomy e e' with hlt | rfl | hgt
  · obtain ⟨k, rfl⟩ : ∃ k, e' = k + 1 := ⟨e' - 1, by omega⟩
    rw [if_neg (Nat.succ_ne_zero k), Nat.add_sub_cancel]
    have hbig : 2 ^ 52 * 2 ^ k ≤ (2 ^ 52 + r') * 2 ^ k := Nat.mul_le_mul_right _ (by omega)
    refine lt_of_lt_of_le ?_ hbig
    split_ifs with he
    · exact hr.trans_le (Nat.le_mul_of_pos_right _ (Nat.two_pow_pos k))
    · have hk : 2 ^ k = 2 ^ (e - 1) * 2 ^ (k - (e - 1)) := by
        rw [← pow_add]
        congr 1
        omega
      have htwo : 2 ≤ 2 ^ (k - (e - 1)) := Nat.le_self_pow (by omega) 2
      have hpos := Nat.two_pow_pos (e - 1)
      calc (2 ^ 52 + r) * 2 ^ (e - 1) < (2 ^ 52 * 2) * 2 ^ (e - 1) :=
            Nat.mul_lt_mul_of_pos_right (by omega) hpos
        _ ≤ (2 ^ 52 * 2 ^ (k - (e - 1))) * 2 ^ (e - 1) :=
            Nat.mul_le_mul_right _ (Nat.mul_le_mul_left _ htwo)
        _ = 2 ^ 52 * 2 ^ k := by rw [hk, Nat.mul_assoc, Nat.mul_comm (2 ^ (k - (e - 1)))]
  · have hrr : r < r' := by omega
    split_ifs with he
    · exact hrr
    · exact Nat.mul_lt_mul_of_pos_right (by omega) (Nat.two_pow_pos _)
  · have hle : e' + 1 ≤ e := hgt
    have := Nat.mul_le_mul_left (2 ^ 52) hle
    omega

lemma absValue_lt {m m' : ℕ} (h : m < m') (hm' : m' ≤ 2047 * 2 ^ 52) :
    absValue m < absValue m' := by
  unfold absValue
  rw [if_neg (by omega)]
  split_ifs with hinf
  · exact EReal.coe_lt_top _
  · rw [EReal.coe_lt_coe_iff]
    exact div_lt_div_of_pos_right (Nat.cast_lt.2 (units_lt h)) (by positivity)

lemma absValue_nonneg (m : ℕ) : 0 ≤ absValue m := by
  unfold absValue
  split_ifs
  · exact le_top
  · exact EReal.coe_nonneg.2 (by positivity)

lemma absValue_lt_iff {x y : F64} (hx : ¬ x.IsNaN) (hy : ¬ y.IsNaN) :
    absValue x.magnitude < absValue y.magnitude ↔ x.magnitude < y.magnitude := by
  refine ⟨fun h => ?_, fun h => absValue_lt h (not_lt.1 hy)⟩
  rcases lt_trichotomy x.magnitude y.magnitude with hlt | heq | hgt
  · exact hlt
  · rw [heq] at h
    exact absurd h (lt_irrefl _)
  · exact absurd (absValue_lt hgt (not_lt.1 hx)) (lt_asymm h)

lemma toNat_transformed (f : F64) [Decidable f.Negative] : f.transformed.toNat
    = if f.Negative then 2 ^ 63 - 1 - f.magnitude else 2 ^ 63 + f.magnitude := by
  have hlt := f.bits.toNat_lt
  have hand : (f.bits &&& SIGN).toNat = if f.bits.toNat < 2 ^ 63 then 0 else 2 ^ 63 := by
    rw [UInt64.toNat_and, toNat_SIGN, and_two_pow_63 hlt]
  have hiff : f.bits &&& SIGN ≠ 0 ↔ f.Negative := by
    rw [Negative, ne_eq, ← UInt64.toNat_inj, hand]
    split_ifs with h
    · simpa using h
    · simpa using h
  have hsize : UInt64.size = 2 ^ 64 := rfl
  rw [transformed]
  by_cases hn : f.Negative
  · rw [if_pos (hiff.2 hn), if_pos hn, UInt64.toNat_not, magnitude]
    rw [Negative] at hn
    omega
  · rw [if_neg fun h => hn (hiff.1 h), if_neg hn, UInt64.toNat_or, toNat_SIGN, or_two_pow_63 hlt,
      magnitude, Nat.add_comm]

/-- The order of the codes of doubles, on NaNs as well. -/
def CodeBefore (x y : F64) : Prop := x.transformed.toNat < y.transformed.toNat

lemma realBe_keepsOrder : KeepsOrder CodeBefore realBe := fun _ y h =>
  .beBytes 8 (UInt64.toNat_lt y.transformed) h

lemma transformed_inj {x y : F64} (h : x.transformed.toNat = y.transformed.toNat) : x = y := by
  classical
  have hx := x.bits.toNat_lt
  have hy := y.bits.toNat_lt
  rw [toNat_transformed, toNat_transformed] at h
  have hbits : x.bits = y.bits := by
    apply UInt64.toNat_inj.1
    unfold Negative magnitude at h
    split_ifs at h <;> omega
  cases x
  cases y
  exact congrArg F64.mk hbits

/-- On numbers the codes are in numeric order. -/
lemma codeBefore_iff {x y : F64} (hx : ¬ x.IsNaN) (hy : ¬ y.IsNaN) : CodeBefore x y ↔ x.Before y := by
  classical
  have hxm : x.magnitude < 2 ^ 63 := Nat.mod_lt _ (by decide)
  have hym : y.magnitude < 2 ^ 63 := Nat.mod_lt _ (by decide)
  rw [CodeBefore, Before, toNat_transformed, toNat_transformed, value, value]
  by_cases hxn : x.Negative <;> by_cases hyn : y.Negative
  · rw [if_pos hxn, if_pos hyn, if_pos hxn, if_pos hyn, EReal.neg_lt_neg_iff, absValue_lt_iff hy hx]
    simp only [hyn, not_true_eq_false, and_false, or_false]
    omega
  · rw [if_pos hxn, if_neg hyn, if_pos hxn, if_neg hyn]
    have hle : -absValue x.magnitude ≤ absValue y.magnitude :=
      (EReal.neg_le_zero.2 (absValue_nonneg _)).trans (absValue_nonneg _)
    simp only [hxn, hyn, not_false_eq_true, and_true]
    exact iff_of_true (by omega) (lt_or_eq_of_le hle)
  · rw [if_neg hxn, if_pos hyn, if_neg hxn, if_pos hyn]
    have hle : -absValue y.magnitude ≤ absValue x.magnitude :=
      (EReal.neg_le_zero.2 (absValue_nonneg _)).trans (absValue_nonneg _)
    simp only [hxn, false_and, and_false, or_false]
    exact iff_of_false (by omega) (not_lt.2 hle)
  · rw [if_neg hxn, if_neg hyn, if_neg hxn, if_neg hyn, absValue_lt_iff hx hy]
    simp only [hxn, false_and, and_false, or_false]
    omega

end F64

/-! ### Values of a column -/

namespace Value

/-- The value may stand in a column of the type. -/
def Fits : ColType → Value → Prop
  | _, .null => True
  | .integer, .integer _ => True
  | .real, .real _ => True
  | .text, .text _ => True
  | .blob, .blob _ => True
  | .boolean, .bool _ => True
  | _, _ => False

/-- The order of the values of a column over an order of the doubles: `NULL` before all others,
numbers and booleans as such, text by its bytes and blobs by theirs. -/
inductive Precedes (q : F64 → F64 → Prop) : Value → Value → Prop
  | null {v : Value} (h : v ≠ .null) : Precedes q .null v
  | bool : Precedes q (.bool false) (.bool true)
  | integer {m n : Int64} (h : m < n) : Precedes q (.integer m) (.integer n)
  | real {x y : F64} (h : q x y) : Precedes q (.real x) (.real y)
  | text {s t : String} (h : utf8 s < utf8 t) : Precedes q (.text s) (.text t)
  | blob {a b : Bytes} (h : a < b) : Precedes q (.blob a) (.blob b)

/-- The value is not a NaN. -/
def IsNumber : Value → Prop
  | .real f => ¬ f.IsNaN
  | _ => True

variable {q : F64 → F64 → Prop} {v w : Value}

lemma Precedes.congr {q' : F64 → F64 → Prop} (hv : v.IsNumber) (hw : w.IsNumber)
    (hq : ∀ x y : F64, ¬ x.IsNaN → ¬ y.IsNaN → q x y → q' x y) (h : Precedes q v w) :
    Precedes q' v w := by
  cases h with
  | null h => exact .null h
  | bool => exact .bool
  | integer h => exact .integer h
  | real h => exact .real (hq _ _ hv hw h)
  | text h => exact .text h
  | blob h => exact .blob h

lemma precedes_codeBefore (hv : v.IsNumber) (hw : w.IsNumber) :
    Precedes F64.CodeBefore v w ↔ Precedes F64.Before v w :=
  ⟨.congr hv hw fun _ _ hx hy => (F64.codeBefore_iff hx hy).1,
    .congr hv hw fun _ _ hx hy => (F64.codeBefore_iff hx hy).2⟩

lemma encodeIndexValue_keepsOrder : KeepsOrder (Precedes F64.CodeBefore) encodeIndexValue := by
  rintro v w (h | _ | h | h | h | h)
  · cases w with
    | null => exact absurd rfl h
    | _ => exact .cons (by decide) _ _
  · exact (Below.cons (by decide) _ _).cons_cons _
  · exact (rowidBe_keepsOrder h).cons_cons _
  · exact (F64.realBe_keepsOrder h).cons_cons _
  · exact (encodeBytes_keepsOrder h).cons_cons _
  · exact (encodeBytes_keepsOrder h).cons_cons _

/-- Any two values of one column can be compared. -/
lemma precedes_trichotomy {t : ColType} (hv : v.Fits t) (hw : w.Fits t) :
    Precedes F64.CodeBefore v w ∨ v = w ∨ Precedes F64.CodeBefore w v := by
  cases v with
  | null =>
    cases w with
    | null => exact Or.inr (Or.inl rfl)
    | _ => exact Or.inl (.null (by simp))
  | bool b =>
    cases w with
    | null => exact Or.inr (Or.inr (.null (by simp)))
    | bool c =>
      cases b <;> cases c
      · exact Or.inr (Or.inl rfl)
      · exact Or.inl .bool
      · exact Or.inr (Or.inr .bool)
      · exact Or.inr (Or.inl rfl)
    | _ => cases t <;> first | exact hv.elim | exact hw.elim
  | integer m =>
    cases w with
    | null => exact Or.inr (Or.inr (.null (by simp)))
    | integer n =>
      rcases lt_trichotomy m.toInt n.toInt with h | h | h
      · exact Or.inl (.integer (Int64.lt_iff_toInt_lt.2 h))
      · rw [Int64.toInt_inj.1 h]
        exact Or.inr (Or.inl rfl)
      · exact Or.inr (Or.inr (.integer (Int64.lt_iff_toInt_lt.2 h)))
    | _ => cases t <;> first | exact hv.elim | exact hw.elim
  | real x =>
    cases w with
    | null => exact Or.inr (Or.inr (.null (by simp)))
    | real y =>
      rcases lt_trichotomy x.transformed.toNat y.transformed.toNat with h | h | h
      · exact Or.inl (.real h)
      · rw [F64.transformed_inj h]
        exact Or.inr (Or.inl rfl)
      · exact Or.inr (Or.inr (.real h))
    | _ => cases t <;> first | exact hv.elim | exact hw.elim
  | text s =>
    cases w with
    | null => exact Or.inr (Or.inr (.null (by simp)))
    | text t =>
      rcases lt_trichotomy (utf8 s) (utf8 t) with h | h | h
      · exact Or.inl (.text h)
      · rw [utf8_inj h]
        exact Or.inr (Or.inl rfl)
      · exact Or.inr (Or.inr (.text h))
    | _ => cases t <;> first | exact hv.elim | exact hw.elim
  | blob a =>
    cases w with
    | null => exact Or.inr (Or.inr (.null (by simp)))
    | blob b =>
      rcases lt_trichotomy a b with h | rfl | h
      · exact Or.inl (.blob h)
      · exact Or.inr (Or.inl rfl)
      · exact Or.inr (Or.inr (.blob h))
    | _ => cases t <;> first | exact hv.elim | exact hw.elim

end Value

end Arkeion
