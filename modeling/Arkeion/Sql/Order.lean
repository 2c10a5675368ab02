import Arkeion.Sql.StreamExact
import Arkeion.TableWrite

/-!
The order of `ORDER BY`. Integers are compared with reals by the doubles closest to them, and NaN
counts as equal to every number; where neither of these matters, values are in a total preorder, and
rows are sorted by it.
-/

namespace Arkeion

open Arkeion.Lib

/-! ### The double of an integer -/

namespace F64

section Mantissa
variable {m m' : ℕ}

/-- The leading bits of a natural number, rounded to the closest, the even one of two. -/
def mantissaOf (m : ℕ) : ℕ :=
  if Nat.log2 m ≤ 52 then m * 2 ^ (52 - Nat.log2 m)
  else if 2 ^ (Nat.log2 m - 52) < 2 * (m % 2 ^ (Nat.log2 m - 52)) ∨
      2 * (m % 2 ^ (Nat.log2 m - 52)) = 2 ^ (Nat.log2 m - 52) ∧ m / 2 ^ (Nat.log2 m - 52) % 2 = 1
    then m / 2 ^ (Nat.log2 m - 52) + 1 else m / 2 ^ (Nat.log2 m - 52)

lemma bitsOfNat_pos (hm : m ≠ 0) :
    bitsOfNat m = (Nat.log2 m + 1022) * 2 ^ 52 + mantissaOf m := by
  rw [bitsOfNat, if_neg hm]
  rfl

lemma two_pow_log2_mul {e k : ℕ} (h : k ≤ e) : 2 ^ k * 2 ^ (e - k) = 2 ^ e := by
  rw [← Nat.pow_add, Nat.add_sub_cancel' h]

lemma mantissaOf_bounds (hm : m ≠ 0) : 2 ^ 52 ≤ mantissaOf m ∧ mantissaOf m ≤ 2 ^ 53 := by
  have hle := Nat.log2_self_le hm
  have hlt : m < 2 ^ (Nat.log2 m + 1) := Nat.lt_log2_self
  rw [mantissaOf]
  split_ifs with hsmall hup
  · have hpow := two_pow_log2_mul hsmall
    have hscale := Nat.mul_le_mul_right (2 ^ (52 - Nat.log2 m)) hle
    have hscale' := Nat.mul_le_mul_right (2 ^ (52 - Nat.log2 m)) hlt.le
    rw [Nat.pow_succ, Nat.mul_right_comm, hpow] at hscale'
    rw [hpow] at hscale
    omega
  all_goals
    have hpow := two_pow_log2_mul (not_le.1 hsmall).le
    have hpos : 0 < 2 ^ (Nat.log2 m - 52) := Nat.two_pow_pos _
    have hlow : 2 ^ 52 ≤ m / 2 ^ (Nat.log2 m - 52) := by
      rw [Nat.le_div_iff_mul_le hpos, hpow]
      exact hle
    have hhigh : m / 2 ^ (Nat.log2 m - 52) < 2 ^ 53 := by
      rw [Nat.div_lt_iff_lt_mul hpos, Nat.pow_succ 2 52, Nat.mul_right_comm, hpow, ← Nat.pow_succ]
      exact hlt
    omega

lemma mantissaOf_mono (hlog : Nat.log2 m = Nat.log2 m') (hle : m ≤ m') :
    mantissaOf m ≤ mantissaOf m' := by
  rw [mantissaOf, mantissaOf, hlog]
  split_ifs with hsmall hup hup' hup'
  · exact Nat.mul_le_mul_right _ hle
  all_goals
    have hdiv := Nat.div_le_div_right (c := 2 ^ (Nat.log2 m' - 52)) hle
    have hm := Nat.div_add_mod m (2 ^ (Nat.log2 m' - 52))
    have hm' := Nat.div_add_mod m' (2 ^ (Nat.log2 m' - 52))
  · omega
  · -- the smaller one is rounded up and the larger one is not, so that they differ before
    rcases Nat.lt_or_eq_of_le hdiv with hlt | heq
    · exact hlt
    · rw [heq] at hm hup
      omega
  · omega
  · exact hdiv

lemma bitsOfNat_mono (hle : m ≤ m') : bitsOfNat m ≤ bitsOfNat m' := by
  by_cases hm : m = 0
  · rw [bitsOfNat, if_pos hm]
    exact Nat.zero_le _
  have hm' : m' ≠ 0 := by omega
  have hlog : Nat.log2 m ≤ Nat.log2 m' := (Nat.le_log2 hm').2 ((Nat.log2_self_le hm).trans hle)
  have hb := mantissaOf_bounds hm
  have hb' := mantissaOf_bounds hm'
  rw [bitsOfNat_pos hm, bitsOfNat_pos hm']
  rcases Nat.lt_or_eq_of_le hlog with hlt | heq
  · have hexp : (Nat.log2 m + 1022 + 1) * 2 ^ 52 ≤ (Nat.log2 m' + 1022) * 2 ^ 52 :=
      Nat.mul_le_mul_right _ (by omega)
    calc (Nat.log2 m + 1022) * 2 ^ 52 + mantissaOf m
        ≤ (Nat.log2 m + 1022) * 2 ^ 52 + (2 ^ 52 + 2 ^ 52) := Nat.add_le_add_left hb.2 _
      _ = (Nat.log2 m + 1022 + 1) * 2 ^ 52 + 2 ^ 52 := by
        rw [Nat.succ_mul (Nat.log2 m + 1022), Nat.add_assoc]
      _ ≤ (Nat.log2 m' + 1022) * 2 ^ 52 + mantissaOf m' := Nat.add_le_add hexp hb'.1
  · rw [heq]
    exact Nat.add_le_add_left (mantissaOf_mono heq hle) _

lemma bitsOfNat_lt (hm : m ≤ 2 ^ 63) : bitsOfNat m < 2047 * 2 ^ 52 := by
  refine (bitsOfNat_mono hm).trans_lt ?_
  decide +kernel

end Mantissa

section OfInt
variable {i j : Int64}

lemma natAbs_le (i : Int64) : i.toInt.natAbs ≤ 2 ^ 63 := by
  have hlt := i.toInt_lt
  have hle := i.le_toInt
  omega

lemma ofInt64_bits (i : Int64) : (ofInt64 i).bits.toNat
    = bitsOfNat i.toInt.natAbs + if i < 0 then 2 ^ 63 else 0 := by
  have hlt := bitsOfNat_lt (natAbs_le i)
  have hof : (UInt64.ofNat (bitsOfNat i.toInt.natAbs)).toNat = bitsOfNat i.toInt.natAbs :=
    UInt64.toNat_ofNat_of_lt' (hlt.trans (by decide))
  rw [ofInt64, UInt64.toNat_or, hof]
  split_ifs
  · have hor := Nat.two_pow_add_eq_or_of_lt (i := 63) (hlt.trans (by decide)) 1
    rw [toNat_SIGN, Nat.or_comm]
    rw [Nat.mul_one] at hor
    rw [← hor, Nat.add_comm]
  · exact Nat.or_zero _

lemma ofInt64_magnitude (i : Int64) : (ofInt64 i).magnitude = bitsOfNat i.toInt.natAbs := by
  have hlt := bitsOfNat_lt (natAbs_le i)
  rw [magnitude, ofInt64_bits]
  split_ifs <;> omega

lemma ofInt64_negative (i : Int64) : (ofInt64 i).Negative ↔ i < 0 := by
  have hlt := bitsOfNat_lt (natAbs_le i)
  rw [Negative, ofInt64_bits]
  split_ifs with h
  · exact iff_of_true (by omega) h
  · exact iff_of_false (by omega) h

lemma ofInt64_not_nan (i : Int64) : ¬ (ofInt64 i).IsNaN := by
  rw [IsNaN, ofInt64_magnitude]
  exact not_lt.2 (bitsOfNat_lt (natAbs_le i)).le

lemma ofInt64_rank (i : Int64) : (ofInt64 i).rank
    = if i < 0 then -(bitsOfNat i.toInt.natAbs : ℤ) else bitsOfNat i.toInt.natAbs := by
  rw [rank, ofInt64_magnitude]
  simp only [ofInt64_negative]

/-- Rounding keeps the order of the integers. -/
lemma ofInt64_rank_mono (h : i ≤ j) : (ofInt64 i).rank ≤ (ofInt64 j).rank := by
  have hint := Int64.le_iff_toInt_le.1 h
  have hi : i < 0 ↔ i.toInt < 0 := Int64.lt_iff_toInt_lt
  have hj : j < 0 ↔ j.toInt < 0 := Int64.lt_iff_toInt_lt
  rw [ofInt64_rank, ofInt64_rank]
  simp only [hi, hj]
  split_ifs with hneg hneg' hneg'
  · have hmono := bitsOfNat_mono (show j.toInt.natAbs ≤ i.toInt.natAbs by omega)
    omega
  · omega
  · omega
  · have hmono := bitsOfNat_mono (show i.toInt.natAbs ≤ j.toInt.natAbs by omega)
    omega

end OfInt

end F64

namespace Sql

open Catalog

/-! ### Values in order -/

/-- Any two of the values can be compared. -/
def Comparable (B : Builtins) (S : Set Value) : Prop :=
  ∀ a ∈ S, ∀ b ∈ S, ∃ o, cmpNullsFirst B a b = .ok o

/-- On these values the order of `ORDER BY` is a total preorder. -/
structure TotalPreorder (B : Builtins) (S : Set Value) : Prop where
  refl : ∀ a ∈ S, cmpNullsFirst B a a = .ok .eq
  swap : ∀ a ∈ S, ∀ b ∈ S, ∀ o, cmpNullsFirst B a b = .ok o → cmpNullsFirst B b a = .ok o.swap
  trans : ∀ a ∈ S, ∀ b ∈ S, ∀ c ∈ S, cmpNullsFirst B a b ≠ .ok .gt → cmpNullsFirst B b c ≠ .ok .gt →
    cmpNullsFirst B a c ≠ .ok .gt

/-- NaN does not stand beside two values that differ, NULL apart, and no real is the double of two
integers. -/
structure Steady (B : Builtins) (S : Set Value) : Prop where
  nan : ∀ f, .real f ∈ S → f.IsNaN → ∀ a ∈ S, ∀ b ∈ S, a ≠ .null → cmpNullsFirst B a b ≠ .ok .lt
  round : ∀ m n f, .integer m ∈ S → .integer n ∈ S → .real f ∈ S → ¬ f.IsNaN →
    (F64.ofInt64 m).rank = f.rank → (F64.ofInt64 n).rank = f.rank → m = n

section Values
variable {B : Builtins} {a b c : Value} {m n : Int64} {x y : F64} {o : Ordering}

lemma partialCmp_swap : (x.partialCmp y).getD .eq = ((y.partialCmp x).getD .eq).swap := by
  unfold F64.partialCmp
  simp only [or_comm (a := y.IsNaN)]
  split_ifs
  · rfl
  · have hswap : compare x.rank y.rank = (compare y.rank x.rank).swap := Std.OrientedCmp.eq_swap
    exact hswap

instance cmpBytes_trans : Std.TransCmp cmpBytes where
  eq_swap := fun {u v} => by
    cases h : cmpBytes v u with
    | lt => exact cmpBytes_eq_gt.2 (cmpBytes_eq_lt.1 h)
    | eq => exact cmpBytes_eq_eq.2 (cmpBytes_eq_eq.1 h).symm
    | gt => exact cmpBytes_eq_lt.2 (cmpBytes_eq_gt.1 h)
  isLE_trans := fun {u v w} huv hvw => by
    have hle {u v : Bytes} : (cmpBytes u v).isLE = true ↔ u ≤ v := by
      rw [← not_lt, ← cmpBytes_eq_gt]
      cases cmpBytes u v <;> simp
    exact hle.2 ((hle.1 huv).trans (hle.1 hvw))

lemma cmp_nonnull (ha : a ≠ .null) (hb : b ≠ .null) :
    cmpNullsFirst B a b = cmpValues B a b >>= fun o => .ok (o.getD .eq) := by
  cases a <;> cases b <;> first | rfl | contradiction

lemma cmp_refl (a : Value) : cmpNullsFirst B a a = .ok .eq := by
  cases a with
  | null => rfl
  | real x =>
    rw [cmp_nonnull (by simp) (by simp)]
    simp only [cmpValues, F64.partialCmp, ok_bind]
    split_ifs
    · rfl
    · simp
  | blob b =>
    rw [cmp_nonnull (by simp) (by simp)]
    simp only [cmpValues, ok_bind, cmpBytes_eq_eq.2]
    rfl
  | _ =>
    rw [cmp_nonnull (by simp) (by simp)]
    simp only [cmpValues, ok_bind, Std.ReflCmp.compare_self]
    rfl

lemma cmp_swap (h : cmpNullsFirst B a b = .ok o) : cmpNullsFirst B b a = .ok o.swap := by
  cases a <;> cases b <;> simp only [cmpNullsFirst, cmpValues, ok_bind, error_bind, Option.getD_some,
    Except.ok.injEq, reduceCtorEq] at h ⊢ <;> subst h <;>
    first | rfl | exact partialCmp_swap | exact Std.OrientedCmp.eq_swap

end Values

/-! ### Numbers -/

/-- The place of a number among the doubles. -/
def numRank : Value → ℤ
  | .integer n => (F64.ofInt64 n).rank
  | .real f => f.rank
  | _ => 0

/-- A number that is not NaN. -/
inductive Number : Value → Prop
  | integer (n : Int64) : Number (.integer n)
  | real (f : F64) (h : ¬ f.IsNaN) : Number (.real f)

section Numbers
variable {B : Builtins} {a b c : Value} {m n : Int64} {x y : F64}

lemma compare_eq_gt : compare m n = .gt ↔ n.toInt < m.toInt := by
  change compareOfLessAndEq m n = .gt ↔ _
  rw [compareOfLessAndEq]
  simp only [Int64.lt_iff_toInt_lt, ← Int64.toInt_inj]
  split_ifs with hlt heq
  · exact iff_of_false (by simp) (by omega)
  · exact iff_of_false (by simp) (by omega)
  · exact iff_of_true rfl (by omega)

lemma cmp_integer : cmpNullsFirst B (.integer m) (.integer n) ≠ .ok .gt ↔ m.toInt ≤ n.toInt := by
  change Except.ok (compare m n) ≠ (Except.ok .gt : Result Ordering) ↔ _
  rw [Ne, Except.ok.injEq, compare_eq_gt]
  exact not_lt

lemma partialCmp_number (hx : ¬ x.IsNaN) (hy : ¬ y.IsNaN) :
    x.partialCmp y = some (compare x.rank y.rank) := by
  rw [F64.partialCmp, if_neg (not_or.2 ⟨hx, hy⟩)]

/-- Numbers that are not both integers are compared by their places among the doubles. -/
lemma cmp_number (hB : B.ofInt = .ofInt64) (ha : Number a) (hb : Number b)
    (h : ∀ m n, a = .integer m → b ≠ .integer n) :
    cmpNullsFirst B a b = .ok (compare (numRank a) (numRank b)) := by
  cases ha with
  | integer m =>
    cases hb with
    | integer n => exact absurd rfl (h m n rfl)
    | real y hy =>
      simp only [cmpNullsFirst, cmpValues, hB, partialCmp_number (F64.ofInt64_not_nan m) hy, numRank]
      rfl
  | real x hx =>
    cases hb with
    | integer n =>
      simp only [cmpNullsFirst, cmpValues, hB, partialCmp_number hx (F64.ofInt64_not_nan n), numRank]
      rfl
    | real y hy =>
      simp only [cmpNullsFirst, cmpValues, partialCmp_number hx hy, numRank]
      rfl

lemma ne_gt_of_rank (hB : B.ofInt = .ofInt64) (ha : Number a) (hb : Number b)
    (h : ∀ m n, a = .integer m → b ≠ .integer n) :
    cmpNullsFirst B a b ≠ .ok .gt ↔ numRank a ≤ numRank b := by
  rw [cmp_number hB ha hb h, Ne, Except.ok.injEq, compare_gt_iff_gt]
  exact not_lt

lemma rank_le (hB : B.ofInt = .ofInt64) (ha : Number a) (hb : Number b)
    (h : cmpNullsFirst B a b ≠ .ok .gt) : numRank a ≤ numRank b := by
  by_cases hint : ∀ m n, a = .integer m → b ≠ .integer n
  · exact (ne_gt_of_rank hB ha hb hint).1 h
  · simp only [not_forall, not_not] at hint
    obtain ⟨m, n, rfl, rfl⟩ := hint
    exact F64.ofInt64_rank_mono (Int64.le_iff_toInt_le.2 (cmp_integer.1 h))

/-- NaN counts as equal to what it can be compared with, but for NULL. -/
lemma cmp_nan (hx : x.IsNaN) (ha : a ≠ .null) {o : Ordering}
    (h : cmpNullsFirst B a (.real x) = .ok o) : o = .eq := by
  have hnan (y : F64) : y.partialCmp x = none := if_pos (Or.inr hx)
  cases a <;> simp only [cmpNullsFirst, cmpValues, hnan, ok_bind, error_bind, Option.getD_none,
    Except.ok.injEq, reduceCtorEq] at h ⊢
  · exact absurd rfl ha
  · exact h.symm
  · exact h.symm

/-- Three numbers in order, of which a real does not stand for two integers. -/
lemma number_trans (hB : B.ofInt = .ofInt64) (ha : Number a) (hb : Number b) (hc : Number c)
    (hround : ∀ m n f, a = .integer m → c = .integer n → b = .real f →
      numRank a = numRank b → numRank c = numRank b → m = n)
    (hab : cmpNullsFirst B a b ≠ .ok .gt) (hbc : cmpNullsFirst B b c ≠ .ok .gt) :
    cmpNullsFirst B a c ≠ .ok .gt := by
  have hrank := rank_le hB ha hb hab
  have hrank' := rank_le hB hb hc hbc
  by_cases hint : ∀ m n, a = .integer m → c ≠ .integer n
  · exact (ne_gt_of_rank hB ha hc hint).2 (hrank.trans hrank')
  simp only [not_forall, not_not] at hint
  obtain ⟨m, n, rfl, rfl⟩ := hint
  cases hb with
  | integer k => exact cmp_integer.2 ((cmp_integer.1 hab).trans (cmp_integer.1 hbc))
  | real f hf =>
    refine cmp_integer.2 (le_of_not_gt fun hlt => ?_)
    have hback := F64.ofInt64_rank_mono (Int64.le_iff_toInt_le.2 hlt.le)
    have heq : m = n := hround m n f rfl rfl rfl (le_antisymm hrank (hrank'.trans hback))
      (le_antisymm (hback.trans hrank) hrank')
    rw [heq] at hlt
    exact absurd hlt (lt_irrefl _)

end Numbers

/-! ### The total preorder -/

section Total
variable {B : Builtins} {S : Set Value} {a b c : Value}

inductive Kind where
  | bool
  | number
  | text
  | blob
  deriving DecidableEq

def kindOf : Value → Option Kind
  | .null => none
  | .bool _ => some .bool
  | .integer _ | .real _ => some .number
  | .text _ => some .text
  | .blob _ => some .blob

/-- Values that can be compared are of one kind. -/
lemma kindOf_eq {o : Ordering} (ha : a ≠ .null) (hb : b ≠ .null)
    (h : cmpNullsFirst B a b = .ok o) : kindOf b = kindOf a := by
  cases a <;> cases b <;> first
    | rfl
    | contradiction
    | (simp [cmpNullsFirst, cmpValues] at h)

lemma kind_bool (h : kindOf a = some .bool) : ∃ u, a = .bool u := by
  cases a <;> first | exact ⟨_, rfl⟩ | cases h

lemma kind_text (h : kindOf a = some .text) : ∃ s, a = .text s := by
  cases a <;> first | exact ⟨_, rfl⟩ | cases h

lemma kind_blob (h : kindOf a = some .blob) : ∃ u, a = .blob u := by
  cases a <;> first | exact ⟨_, rfl⟩ | cases h

lemma kind_number (h : kindOf a = some .number) (hnan : ∀ f, a = .real f → ¬ f.IsNaN) :
    Number a := by
  cases a with
  | integer m => exact .integer m
  | real f => exact .real f (hnan f rfl)
  | _ => cases h

/-- Values of a kind that has its own order. -/
lemma ne_gt_trans {α : Type} (cmp : α → α → Ordering) [Std.TransCmp cmp] {f : α → Value}
    (hf : ∀ x y, cmpNullsFirst B (f x) (f y) = .ok (cmp x y)) {x y z : α}
    (hxy : cmpNullsFirst B (f x) (f y) ≠ .ok .gt) (hyz : cmpNullsFirst B (f y) (f z) ≠ .ok .gt) :
    cmpNullsFirst B (f x) (f z) ≠ .ok .gt := by
  have hle {x y : α} : cmpNullsFirst B (f x) (f y) ≠ .ok .gt ↔ (cmp x y).isLE = true := by
    rw [hf]
    cases cmp x y <;> simp
  exact hle.2 (Std.TransCmp.isLE_trans (hle.1 hxy) (hle.1 hyz))

lemma Steady.trans_number (hB : B.ofInt = .ofInt64) (h : Steady B S) (ha : a ∈ S) (hb : b ∈ S)
    (hc : c ∈ S) (hka : kindOf a = some .number) (hkb : kindOf b = some .number)
    (hkc : kindOf c = some .number) (hab : cmpNullsFirst B a b ≠ .ok .gt)
    (hbc : cmpNullsFirst B b c ≠ .ok .gt) : cmpNullsFirst B a c ≠ .ok .gt := by
  by_cases hnan : ∃ f, .real f ∈ S ∧ f.IsNaN
  · obtain ⟨f, hf, hnan⟩ := hnan
    have hnull : c ≠ .null := by
      rintro rfl
      cases hkc
    exact fun hgt => h.nan f hf hnan c hc a ha hnull (cmp_swap hgt)
  have hno {v : Value} (hv : v ∈ S) (f : F64) (heq : v = .real f) : ¬ f.IsNaN :=
    fun hf => hnan ⟨f, heq ▸ hv, hf⟩
  refine number_trans hB (kind_number hka (hno ha)) (kind_number hkb (hno hb))
    (kind_number hkc (hno hc)) ?_ hab hbc
  rintro m n f rfl rfl rfl hm hn
  exact h.round m n f ha hc hb (hno hb f rfl) hm hn

lemma Steady.trans (hB : B.ofInt = .ofInt64) (hcmp : Comparable B S) (h : Steady B S) (ha : a ∈ S)
    (hb : b ∈ S) (hc : c ∈ S) (hab : cmpNullsFirst B a b ≠ .ok .gt)
    (hbc : cmpNullsFirst B b c ≠ .ok .gt) : cmpNullsFirst B a c ≠ .ok .gt := by
  by_cases hanull : a = .null
  · subst hanull
    cases c <;> simp [cmpNullsFirst]
  have hbnull : b ≠ .null := by
    rintro rfl
    cases a <;> first | exact hanull rfl | exact hab rfl
  have hcnull : c ≠ .null := by
    rintro rfl
    cases b <;> first | exact hbnull rfl | exact hbc rfl
  obtain ⟨o, ho⟩ := hcmp a ha b hb
  obtain ⟨o', ho'⟩ := hcmp a ha c hc
  have hkb := kindOf_eq hanull hbnull ho
  have hkc := kindOf_eq hanull hcnull ho'
  cases hk : kindOf a with
  | none => cases a <;> first | exact absurd rfl hanull | cases hk
  | some k =>
    rw [hk] at hkb hkc
    cases k with
    | number => exact h.trans_number hB ha hb hc hk hkb hkc hab hbc
    | bool =>
      obtain ⟨u, rfl⟩ := kind_bool hk
      obtain ⟨v, rfl⟩ := kind_bool hkb
      obtain ⟨w, rfl⟩ := kind_bool hkc
      exact ne_gt_trans compare (fun _ _ => rfl) hab hbc
    | text =>
      obtain ⟨u, rfl⟩ := kind_text hk
      obtain ⟨v, rfl⟩ := kind_text hkb
      obtain ⟨w, rfl⟩ := kind_text hkc
      exact ne_gt_trans compare (fun _ _ => rfl) hab hbc
    | blob =>
      obtain ⟨u, rfl⟩ := kind_blob hk
      obtain ⟨v, rfl⟩ := kind_blob hkb
      obtain ⟨w, rfl⟩ := kind_blob hkc
      exact ne_gt_trans cmpBytes (fun _ _ => rfl) hab hbc

lemma TotalPreorder.steady (hB : B.ofInt = .ofInt64) (hcmp : Comparable B S)
    (h : TotalPreorder B S) : Steady B S where
  nan := fun f hf hnan a ha b hb hnull hlt => by
    have hbnull : b ≠ .null := by
      rintro rfl
      cases a <;> first | exact hnull rfl | cases hlt
    obtain ⟨o, ho⟩ := hcmp b hb _ hf
    obtain ⟨o', ho'⟩ := hcmp a ha _ hf
    obtain rfl := cmp_nan hnan hbnull ho
    obtain rfl := cmp_nan hnan hnull ho'
    refine h.trans b hb _ hf a ha ?_ ?_ (h.swap a ha b hb _ hlt)
    · rw [ho]
      simp
    · rw [h.swap a ha _ hf _ ho']
      simp
  round := fun m n f hm hn hf hnan hmf hnf => by
    have hle {m n : Int64} (hm : .integer m ∈ S) (hn : .integer n ∈ S)
        (hmf : (F64.ofInt64 m).rank = f.rank) (hnf : (F64.ofInt64 n).rank = f.rank) :
        m.toInt ≤ n.toInt := by
      refine cmp_integer.1 (h.trans _ hm _ hf _ hn ?_ ?_)
      · exact (ne_gt_of_rank hB (.integer m) (.real f hnan) fun _ _ _ => by simp).2 hmf.le
      · exact (ne_gt_of_rank hB (.real f hnan) (.integer n) fun _ _ h => by cases h).2 hnf.ge
    exact Int64.toInt_inj.1 (le_antisymm (hle hm hn hmf hnf) (hle hn hm hnf hmf))

lemma totalPreorder_iff (hB : B.ofInt = .ofInt64) (hcmp : Comparable B S) :
    TotalPreorder B S ↔ Steady B S :=
  ⟨fun h => h.steady hB hcmp, fun h => ⟨fun a _ => cmp_refl a, fun _ _ _ _ _ => cmp_swap,
    fun _ ha _ hb _ hc => h.trans hB hcmp ha hb hc⟩⟩

end Total

/-! ### Lists of keys -/

section Keys
variable {B : Builtins} {cols : ℕ → Set Value} {descs : List Bool} {ks ks' ks'' : List Value}
  {a b c : Value} {S : Set Value}

/-- A key for each flag, each from its column. -/
structure KeysIn (cols : ℕ → Set Value) (descs : List Bool) (ks : List Value) : Prop where
  length : ks.length = descs.length
  mem : ∀ i v, ks[i]? = some v → v ∈ cols i

lemma KeysIn.head {d : Bool} (h : KeysIn cols (d :: descs) (a :: ks)) : a ∈ cols 0 :=
  h.mem 0 a rfl

lemma KeysIn.tail {d : Bool} (h : KeysIn cols (d :: descs) (a :: ks)) :
    KeysIn (fun i => cols (i + 1)) descs ks :=
  ⟨Nat.succ.inj h.length, fun i v hv => h.mem (i + 1) v hv⟩

/-- One key is not greater than the other, or not smaller if the order falls. -/
def HeadLe (B : Builtins) (d : Bool) (a b : Value) : Prop :=
  if d then cmpNullsFirst B b a ≠ .ok .gt else cmpNullsFirst B a b ≠ .ok .gt

lemma HeadLe.trans {d : Bool} (hT : TotalPreorder B S) (ha : a ∈ S) (hb : b ∈ S) (hc : c ∈ S)
    (hab : HeadLe B d a b) (hbc : HeadLe B d b c) : HeadLe B d a c := by
  cases d with
  | true => exact hT.trans c hc b hb a ha hbc hab
  | false => exact hT.trans a ha b hb c hc hab hbc

lemma HeadLe.total {d : Bool} (hcmp : Comparable B S) (ha : a ∈ S) (hb : b ∈ S) :
    HeadLe B d a b ∨ HeadLe B d b a := by
  obtain ⟨o, ho⟩ := hcmp a ha b hb
  have ho' := cmp_swap ho
  cases d <;> cases o <;> simp [HeadLe, ho, ho']

/-- Lists of keys are compared by their first keys, and where these are equal by the rest. -/
lemma cmpKeys_cons {d : Bool} (hcmp : Comparable B S) (ha : a ∈ S) (hb : b ∈ S) :
    cmpKeys B (d :: descs) (a :: ks) (b :: ks') ≠ .ok .gt ↔
      HeadLe B d a b ∧ (HeadLe B d b a → cmpKeys B descs ks ks' ≠ .ok .gt) := by
  obtain ⟨o, ho⟩ := hcmp a ha b hb
  have ho' := cmp_swap ho
  rw [cmpKeys, ho]
  cases d <;> cases o <;> simp [HeadLe, ho, ho']

lemma cmpKeys_ok (hcmp : ∀ i, Comparable B (cols i)) (h : KeysIn cols descs ks)
    (h' : KeysIn cols descs ks') : ∃ o, cmpKeys B descs ks ks' = .ok o := by
  induction descs generalizing cols ks ks' with
  | nil => exact ⟨.eq, rfl⟩
  | cons d descs ih =>
    cases ks with
    | nil => cases h.length
    | cons a ks =>
      cases ks' with
      | nil => cases h'.length
      | cons b ks' =>
        obtain ⟨o, ho⟩ := hcmp 0 a h.head b h'.head
        obtain ⟨o', ho'⟩ := ih (fun i => hcmp (i + 1)) h.tail h'.tail
        rw [cmpKeys, ho, ok_bind, ho']
        split_ifs
        · exact ⟨_, rfl⟩
        · exact ⟨_, rfl⟩
        · exact ⟨_, rfl⟩

lemma cmpKeys_total (hcmp : ∀ i, Comparable B (cols i)) (h : KeysIn cols descs ks)
    (h' : KeysIn cols descs ks') :
    cmpKeys B descs ks ks' ≠ .ok .gt ∨ cmpKeys B descs ks' ks ≠ .ok .gt := by
  induction descs generalizing cols ks ks' with
  | nil =>
    refine Or.inl ?_
    rw [cmpKeys]
    · simp
    · simp
  | cons d descs ih =>
    cases ks with
    | nil => cases h.length
    | cons a ks =>
      cases ks' with
      | nil => cases h'.length
      | cons b ks' =>
        rw [cmpKeys_cons (hcmp 0) h.head h'.head, cmpKeys_cons (hcmp 0) h'.head h.head]
        have hhead := HeadLe.total (d := d) (hcmp 0) h.head h'.head
        have htail := ih (fun i => hcmp (i + 1)) h.tail h'.tail
        tauto

lemma cmpKeys_trans (hcmp : ∀ i, Comparable B (cols i)) (hT : ∀ i, TotalPreorder B (cols i))
    (h : KeysIn cols descs ks) (h' : KeysIn cols descs ks') (h'' : KeysIn cols descs ks'')
    (hle : cmpKeys B descs ks ks' ≠ .ok .gt) (hle' : cmpKeys B descs ks' ks'' ≠ .ok .gt) :
    cmpKeys B descs ks ks'' ≠ .ok .gt := by
  induction descs generalizing cols ks ks' ks'' with
  | nil =>
    rw [cmpKeys]
    · simp
    · simp
  | cons d descs ih =>
    cases ks with
    | nil => cases h.length
    | cons a ks =>
      cases ks' with
      | nil => cases h'.length
      | cons b ks' =>
        cases ks'' with
        | nil => cases h''.length
        | cons c ks'' =>
          rw [cmpKeys_cons (hcmp 0) h.head h'.head] at hle
          rw [cmpKeys_cons (hcmp 0) h'.head h''.head] at hle'
          rw [cmpKeys_cons (hcmp 0) h.head h''.head]
          obtain ⟨hab, hks⟩ := hle
          obtain ⟨hbc, hks'⟩ := hle'
          refine ⟨hab.trans (hT 0) h.head h'.head h''.head hbc, fun hca => ?_⟩
          -- where the outer keys are equal, the one between equals them
          refine ih (fun i => hcmp (i + 1)) (fun i => hT (i + 1)) h.tail h'.tail h''.tail
            (hks ?_) (hks' ?_)
          · exact hbc.trans (hT 0) h'.head h''.head h.head hca
          · exact hca.trans (hT 0) h''.head h.head h'.head hab

end Keys

/-! ### Sorting -/

section MapM
variable {α β γ : Type} {f : α → Result β} {l : List α} {bs : List β}

lemma mapM_eq_ok : l.mapM f = .ok bs ↔ List.Forall₂ (fun a b => f a = .ok b) l bs := by
  induction l generalizing bs with
  | nil =>
    rw [List.mapM_nil, List.forall₂_nil_left_iff]
    exact ⟨fun h => (by cases h; rfl), fun h => by rw [h]; rfl⟩
  | cons a l ih =>
    rw [List.mapM_cons, bind_eq_ok]
    constructor
    · rintro ⟨b, hb, h⟩
      obtain ⟨bs', hbs, h⟩ := bind_eq_ok.1 h
      cases h
      exact .cons hb (ih.1 hbs)
    · intro h
      cases h with
      | cons hb hbs => exact ⟨_, hb, bind_eq_ok.2 ⟨_, ih.2 hbs, rfl⟩⟩

lemma mapM_exists_ok (h : ∀ a ∈ l, ∃ b, f a = .ok b) : ∃ bs, l.mapM f = .ok bs := by
  induction l with
  | nil => exact ⟨[], rfl⟩
  | cons a l ih =>
    obtain ⟨b, hb⟩ := h a (by simp)
    obtain ⟨bs, hbs⟩ := ih fun c hc => h c (List.mem_cons_of_mem a hc)
    exact ⟨b :: bs, by rw [List.mapM_cons, hb, ok_bind, hbs]; rfl⟩

/-- A row with what is worked out for it. -/
lemma mapM_keyed {keyed : List (β × γ)} {g : α → γ}
    (h : (l.mapM fun a => f a >>= fun b => .ok (b, g a)) = .ok keyed) :
    keyed.map Prod.snd = l.map g ∧ ∀ p ∈ keyed, ∃ a ∈ l, f a = .ok p.1 ∧ p.2 = g a := by
  have hall := mapM_eq_ok.1 h
  clear h
  induction hall with
  | nil => exact ⟨rfl, by simp⟩
  | cons hp _ ih =>
    obtain ⟨b, hb, hp⟩ := bind_eq_ok.1 hp
    cases hp
    refine ⟨by rw [List.map_cons, List.map_cons, ih.1], fun q hq => ?_⟩
    rcases List.mem_cons.1 hq with rfl | hq
    · exact ⟨_, List.mem_cons_self, hb, rfl⟩
    · obtain ⟨c, hc, hrest⟩ := ih.2 q hq
      exact ⟨c, List.mem_cons_of_mem _ hc, hrest⟩

lemma mapM_getElem? {i : ℕ} {b : β} (h : l.mapM f = .ok bs) (hb : bs[i]? = some b) :
    ∃ a, l[i]? = some a ∧ f a = .ok b := by
  have hall := mapM_eq_ok.1 h
  obtain ⟨hi, hget⟩ := List.getElem?_eq_some_iff.1 hb
  have hil : i < l.length := hall.length_eq ▸ hi
  refine ⟨l[i], List.getElem?_eq_getElem hil, ?_⟩
  rw [← hget]
  exact (List.forall₂_iff_get.1 hall).2 i hil hi

/-- What is worked out for the keys of a row stands in their columns. -/
lemma keysIn_of_mapM {cols : ℕ → Set Value} {f : α → Result Value} {descs : List Bool}
    {ks : List Value} (hlen : l.length = descs.length)
    (hf : ∀ i a v, l[i]? = some a → f a = .ok v → v ∈ cols i) (h : l.mapM f = .ok ks) :
    KeysIn cols descs ks := by
  refine ⟨(mapM_eq_ok.1 h).length_eq.symm.trans hlen, fun i v hv => ?_⟩
  obtain ⟨a, ha, hav⟩ := mapM_getElem? h hv
  exact hf i a v ha hav

end MapM

section Sorted
variable {B : Builtins} {α : Type} {cols : ℕ → Set Value} {descs : List Bool}
  {keyed : List (List Value × α)} {out : List α}

/-- Sorting by a relation that is total and transitive on the elements of the list. -/
lemma pairwise_insertionSort_of_mem {r : α → α → Prop} [DecidableRel r] {l : List α}
    (htotal : ∀ a ∈ l, ∀ b ∈ l, r a b ∨ r b a)
    (htrans : ∀ a ∈ l, ∀ b ∈ l, ∀ c ∈ l, r a b → r b c → r a c) :
    (l.insertionSort r).Pairwise r := by
  let s : {a // a ∈ l} → {a // a ∈ l} → Prop := fun a b => r a.val b.val
  have _ : Std.Total s := ⟨fun a b => htotal a.val a.property b.val b.property⟩
  have _ : IsTrans {a // a ∈ l} s :=
    ⟨fun a b c => htrans a.val a.property b.val b.property c.val c.property⟩
  have hsorted := List.pairwise_insertionSort s l.attach
  have hmap := List.map_insertionSort s r Subtype.val l.attach fun _ _ _ _ => Iff.rfl
  rw [List.attach_map_subtype_val] at hmap
  rw [← hmap, List.pairwise_map]
  exact hsorted

/-- The output is the input in another order, in which no row is greater than one behind it. -/
def Ordered (B : Builtins) (descs : List Bool) (keyed : List (List Value × α)) (out : List α) :
    Prop :=
  ∃ sorted : List (List Value × α), sorted.Perm keyed ∧ sorted.map Prod.snd = out ∧
    sorted.Pairwise fun a b => ∃ o, cmpKeys B descs a.1 b.1 = .ok o ∧ o ≠ .gt

lemma checkKeys_ok {keys : List (List Value)} (hcmp : ∀ i, Comparable B (cols i))
    (h : ∀ ks ∈ keys, KeysIn cols descs ks) : checkKeys B descs keys = .ok () := by
  induction keys with
  | nil => rfl
  | cons ks keys ih =>
    obtain ⟨os, hos⟩ := mapM_exists_ok fun ks' hks' =>
      cmpKeys_ok hcmp (h ks (by simp)) (h ks' (List.mem_cons_of_mem ks hks'))
    rw [checkKeys, hos, ok_bind]
    exact ih fun ks' hks' => h ks' (List.mem_cons_of_mem ks hks')

lemma sortKeyed_ordered (hcmp : ∀ i, Comparable B (cols i)) (hT : ∀ i, TotalPreorder B (cols i))
    (h : ∀ p ∈ keyed, KeysIn cols descs p.1) :
    ∃ out, sortKeyed B descs keyed = .ok out ∧ Ordered B descs keyed out := by
  have hcheck : checkKeys B descs (keyed.map Prod.fst) = .ok () := by
    refine checkKeys_ok hcmp fun ks hks => ?_
    obtain ⟨p, hp, rfl⟩ := List.mem_map.1 hks
    exact h p hp
  have hle {p q : List Value × α} : InOrder B descs p q ↔ cmpKeys B descs p.1 q.1 ≠ .ok .gt := by
    rw [InOrder, Ne, toOption_eq_some]
  have hsorted : (keyed.insertionSort (InOrder B descs)).Pairwise (InOrder B descs) := by
    refine pairwise_insertionSort_of_mem (fun p hp q hq => ?_) fun p hp q hq r hr hpq hqr => ?_
    · rw [hle, hle]
      exact cmpKeys_total hcmp (h p hp) (h q hq)
    · rw [hle] at hpq hqr ⊢
      exact cmpKeys_trans hcmp hT (h p hp) (h q hq) (h r hr) hpq hqr
  refine ⟨_, by rw [sortKeyed, hcheck, ok_bind], _, List.perm_insertionSort _ keyed, rfl, ?_⟩
  refine hsorted.imp_of_mem fun {p q} hp hq hpq => ?_
  rw [List.mem_insertionSort] at hp hq
  obtain ⟨o, ho⟩ := cmpKeys_ok hcmp (h p hp) (h q hq)
  exact ⟨o, ho, fun hgt => hle.1 hpq (hgt ▸ ho)⟩

/-- Without keys the rows stay as they are. -/
lemma ordered_nil (rows : List α) : Ordered B [] (rows.map fun r => ([], r)) rows :=
  ⟨_, .refl _, by simp, List.pairwise_of_forall fun _ _ => ⟨.eq, rfl, by simp⟩⟩

end Sorted

/-! ### The statements -/

/-- The order of `ORDER BY` is a total preorder on the columns of the keys, and rows are sorted by
it: by keys in general, and so those of a plain statement, those that are already projected (of a
set operation or of groups) and those of a statement with windows. -/
structure OrderByWorks (B : Builtins) (cols : ℕ → Set Value) : Prop where
  total : ∀ i, TotalPreorder B (cols i)
  sorts : ∀ {α : Type} (descs : List Bool) (keyed : List (List Value × α)),
    (∀ p ∈ keyed, KeysIn cols descs p.1) →
      ∃ out, sortKeyed B descs keyed = .ok out ∧ Ordered B descs keyed out
  plain : ∀ (X : Executor) params schema (stmt : SelectStmt) rows out, X.builtins = B →
    X.orderRows params schema stmt rows = .ok out →
    (∀ row ∈ rows, ∀ i o v, stmt.order_by[i]? = some o →
      X.orderKeys params schema stmt.projection row o = .ok v → v ∈ cols i) →
    ∃ keyed, keyed.map Prod.snd = rows ∧
      (∀ p ∈ keyed, stmt.order_by.mapM (X.orderKeys params schema stmt.projection p.2) = .ok p.1) ∧
      Ordered B (stmt.order_by.map OrderBy.desc) keyed out
  output : ∀ (order_by : List OrderBy) columns (rows out : List Row),
    sortOutput B order_by columns rows = .ok out →
    (∀ row ∈ rows, ∀ i o j v, order_by[i]? = some o → orderOutputIndex o columns = .ok j →
      row[j]? = some v → v ∈ cols i) →
    ∃ keyed, keyed.map Prod.snd = rows ∧ Ordered B (order_by.map OrderBy.desc) keyed out
  windowed : ∀ schema (stmt : SelectStmt) columns (outs : List (Row × Row)) out,
    sortWindowed B schema stmt columns outs = .ok out →
    (∀ r ∈ outs, ∀ i o k v, stmt.order_by[i]? = some o → windowKey schema columns o = .ok k →
      windowKeyValue r.1 r.2 k = .ok v → v ∈ cols i) →
    ∃ keyed, keyed.map Prod.snd = outs.map Prod.fst ∧
      Ordered B (stmt.order_by.map OrderBy.desc) keyed out

section Statements
variable {B : Builtins} {cols : ℕ → Set Value}

/-- Rows that are sorted by keys that are worked out for each of them. -/
lemma sorted_by_keys {α β : Type} (hcmp : ∀ i, Comparable B (cols i))
    (hT : ∀ i, TotalPreorder B (cols i)) {descs : List Bool} {rows : List α} {g : α → β}
    (keysOf : α → Result (List Value)) {out : List β}
    (hkeys : ∀ r ∈ rows, ∀ ks, keysOf r = .ok ks → KeysIn cols descs ks)
    (h : (rows.mapM fun r => keysOf r >>= fun ks => .ok (ks, g r)) >>= sortKeyed B descs
      = .ok out) :
    ∃ keyed, keyed.map Prod.snd = rows.map g ∧
      (∀ p ∈ keyed, ∃ r ∈ rows, keysOf r = .ok p.1 ∧ p.2 = g r) ∧ Ordered B descs keyed out := by
  obtain ⟨keyed, hkeyed, hout⟩ := bind_eq_ok.1 h
  obtain ⟨hrows, hall⟩ := mapM_keyed hkeyed
  obtain ⟨out', hout', hord⟩ := sortKeyed_ordered hcmp hT fun p hp => by
    obtain ⟨r, hr, hks, -⟩ := hall p hp
    exact hkeys r hr p.1 hks
  rw [hout, Except.ok.injEq] at hout'
  exact ⟨keyed, hrows, hall, hout' ▸ hord⟩

lemma orderRows_ordered (hcmp : ∀ i, Comparable B (cols i)) (hT : ∀ i, TotalPreorder B (cols i))
    {X : Executor} {params : List Value} {schema : QuerySchema} {stmt : SelectStmt}
    {rows out : List Row} (hX : X.builtins = B) (h : X.orderRows params schema stmt rows = .ok out)
    (hkeys : ∀ row ∈ rows, ∀ i o v, stmt.order_by[i]? = some o →
      X.orderKeys params schema stmt.projection row o = .ok v → v ∈ cols i) :
    ∃ keyed, keyed.map Prod.snd = rows ∧
      (∀ p ∈ keyed, stmt.order_by.mapM (X.orderKeys params schema stmt.projection p.2) = .ok p.1) ∧
      Ordered B (stmt.order_by.map OrderBy.desc) keyed out := by
  rw [Executor.orderRows] at h
  split_ifs at h with hempty
  · cases h
    rw [List.isEmpty_iff.1 hempty]
    refine ⟨rows.map fun r => ([], r), by simp, fun p hp => ?_, ordered_nil rows⟩
    obtain ⟨r, -, rfl⟩ := List.mem_map.1 hp
    rfl
  · rw [hX] at h
    obtain ⟨keyed, hrows, hall, hord⟩ := sorted_by_keys hcmp hT (g := id)
      (fun row => stmt.order_by.mapM (X.orderKeys params schema stmt.projection row))
      (fun row hrow ks hks => keysIn_of_mapM (List.length_map _).symm (hkeys row hrow) hks) h
    rw [List.map_id] at hrows
    refine ⟨keyed, hrows, fun p hp => ?_, hord⟩
    obtain ⟨r, -, hks, heq⟩ := hall p hp
    rw [heq]
    exact hks

lemma sortOutput_ordered (hcmp : ∀ i, Comparable B (cols i)) (hT : ∀ i, TotalPreorder B (cols i))
    {order_by : List OrderBy} {columns : List String} {rows out : List Row}
    (h : sortOutput B order_by columns rows = .ok out)
    (hkeys : ∀ row ∈ rows, ∀ i o j v, order_by[i]? = some o → orderOutputIndex o columns = .ok j →
      row[j]? = some v → v ∈ cols i) :
    ∃ keyed, keyed.map Prod.snd = rows ∧ Ordered B (order_by.map OrderBy.desc) keyed out := by
  rw [sortOutput] at h
  split_ifs at h with hempty
  · cases h
    rw [List.isEmpty_iff.1 hempty]
    exact ⟨rows.map fun r => ([], r), by simp, ordered_nil rows⟩
  · obtain ⟨idxs, hidxs, h⟩ := bind_eq_ok.1 h
    have hlen : idxs.length = (order_by.map OrderBy.desc).length := by
      rw [List.length_map, (mapM_eq_ok.1 hidxs).length_eq]
    have hmem (row : Row) (hrow : row ∈ rows) (i j : ℕ) (v : Value) (hj : idxs[i]? = some j)
        (hv : okOr row[j]? (.panic "index out of bounds") = .ok v) : v ∈ cols i := by
      obtain ⟨o, ho, hoj⟩ := mapM_getElem? hidxs hj
      exact hkeys row hrow i o j v ho hoj (okOr_eq_ok.1 hv)
    obtain ⟨keyed, hrows, -, hord⟩ := sorted_by_keys hcmp hT (g := id) _
      (fun row hrow ks hks => keysIn_of_mapM hlen (hmem row hrow) hks) h
    rw [List.map_id] at hrows
    exact ⟨keyed, hrows, hord⟩

lemma sortWindowed_ordered (hcmp : ∀ i, Comparable B (cols i))
    (hT : ∀ i, TotalPreorder B (cols i)) {schema : QuerySchema} {stmt : SelectStmt}
    {columns : List String} {outs : List (Row × Row)} {out : List Row}
    (h : sortWindowed B schema stmt columns outs = .ok out)
    (hkeys : ∀ r ∈ outs, ∀ i o k v, stmt.order_by[i]? = some o → windowKey schema columns o = .ok k →
      windowKeyValue r.1 r.2 k = .ok v → v ∈ cols i) :
    ∃ keyed, keyed.map Prod.snd = outs.map Prod.fst ∧
      Ordered B (stmt.order_by.map OrderBy.desc) keyed out := by
  rw [sortWindowed] at h
  split_ifs at h with hempty
  · cases h
    rw [List.isEmpty_iff.1 hempty]
    exact ⟨(outs.map Prod.fst).map fun r => ([], r), by simp, ordered_nil _⟩
  · obtain ⟨keys, hks, h⟩ := bind_eq_ok.1 h
    have hlen : keys.length = (stmt.order_by.map OrderBy.desc).length := by
      rw [List.length_map, (mapM_eq_ok.1 hks).length_eq]
    have hmem (r : Row × Row) (hr : r ∈ outs) (i : ℕ) (k : WindowKey) (v : Value)
        (hk : keys[i]? = some k) (hv : windowKeyValue r.1 r.2 k = .ok v) : v ∈ cols i := by
      obtain ⟨o, ho, hok⟩ := mapM_getElem? hks hk
      exact hkeys r hr i o k v ho hok hv
    obtain ⟨keyed, hrows, -, hord⟩ := sorted_by_keys hcmp hT (g := Prod.fst) _
      (fun r hr ks hks => keysIn_of_mapM hlen (hmem r hr) hks) h
    exact ⟨keyed, hrows, hord⟩

end Statements

/-! ### Two integers at one double -/

/-- Only integers are converted. -/
def roundBuiltins : Builtins := { noBuiltins with ofInt := .ofInt64 }

/-- 2^53 + 1, the double 2^53, and 2^53. -/
def threeNumbers : Set Value :=
  {.integer 9007199254740993, .real ⟨0x4340000000000000⟩, .integer 9007199254740992}

end Sql

end Arkeion
