import Mathlib.Data.List.Lex
import Mathlib.Data.List.Basic
import Mathlib.Order.Lattice
import Mathlib.Tactic.Ring

/-!
Byte strings: their order, slices read out of them and written into them, and unsigned
integers of a fixed width in little- and big-endian.

A slice that runs past the end is `none`, and a write is only meant inside the string.
-/

namespace Arkeion.Lib

abbrev Bytes := List UInt8

instance linearOrderByte : LinearOrder UInt8 where
  le_refl a := by simp
  le_trans _ _ _ := UInt8.le_trans
  le_antisymm _ _ := UInt8.le_antisymm
  lt_iff_le_not_ge a b := by simp [UInt8.lt_iff_toNat_lt, UInt8.le_iff_toNat_le]; omega
  le_total a b := UInt8.le_total a b
  toDecidableLE := inferInstance
  toDecidableLT := inferInstance
  toDecidableEq := inferInstance

/-! ### Slices -/

/-- The `len` bytes from `pos` on, as far as there are any. -/
def sub (b : Bytes) (pos len : ℕ) : Bytes := (b.drop pos).take len

/-- The `len` bytes from `pos` on, if the string reaches that far. -/
def slice? (b : Bytes) (pos len : ℕ) : Option Bytes :=
  if pos + len ≤ b.length then some (sub b pos len) else none

/-- The string with the bytes of `x` written from `pos` on. -/
def writeAt (b : Bytes) (pos : ℕ) (x : Bytes) : Bytes :=
  b.take pos ++ x ++ b.drop (pos + x.length)

lemma length_sub (b : Bytes) (pos len : ℕ) : (sub b pos len).length = min len (b.length - pos) := by
  simp [sub]

lemma sub_append (x y z : Bytes) {pos len : ℕ} (hp : pos = x.length) (hl : len = y.length) :
    sub (x ++ y ++ z) pos len = y := by
  subst hp hl
  simp [sub]

lemma slice?_append (x y z : Bytes) {pos len : ℕ} (hp : pos = x.length) (hl : len = y.length) :
    slice? (x ++ y ++ z) pos len = some y := by
  rw [slice?, if_pos (by simp [hp, hl]), sub_append x y z hp hl]

/-- A piece of a string that is put together of pieces. -/
lemma sub_flatten (xs : List Bytes) (i : ℕ) {pos len : ℕ} {x : Bytes} (hx : xs[i]? = some x)
    (hp : pos = (xs.take i).flatten.length) (hl : len = x.length) : sub xs.flatten pos len = x := by
  obtain ⟨hi, rfl⟩ := List.getElem?_eq_some_iff.1 hx
  have hsplit : xs = xs.take i ++ xs[i] :: xs.drop (i + 1) := by
    rw [List.getElem_cons_drop, List.take_append_drop]
  have hflat : xs.flatten = (xs.take i).flatten ++ xs[i] ++ (xs.drop (i + 1)).flatten := by
    have := congrArg List.flatten hsplit
    rw [List.flatten_append, List.flatten_cons, ← List.append_assoc] at this
    exact this
  rw [hflat]
  exact sub_append _ _ _ hp hl

lemma slice?_isSome {b : Bytes} {pos len : ℕ} : (slice? b pos len).isSome ↔ pos + len ≤ b.length := by
  simp [slice?]

lemma length_of_slice? {b x : Bytes} {pos len : ℕ} (h : slice? b pos len = some x) :
    x.length = len := by
  unfold slice? at h
  split at h
  · cases h; rw [length_sub]; omega
  · cases h

lemma length_writeAt {b x : Bytes} {pos : ℕ} (h : pos + x.length ≤ b.length) :
    (writeAt b pos x).length = b.length := by
  simp [writeAt]; omega

lemma writeAt_append (x y z w : Bytes) {pos : ℕ} (hp : pos = x.length)
    (hw : w.length = y.length) : writeAt (x ++ y ++ z) pos w = x ++ w ++ z := by
  subst hp
  simp [writeAt, hw, List.drop_append]

/-! ### Integers of a fixed width -/

/-- `v` in `n` bytes, the least significant first. -/
def leBytes : ℕ → ℕ → Bytes
  | 0, _ => []
  | n + 1, v => UInt8.ofNat (v % 256) :: leBytes n (v / 256)

/-- The number a byte string denotes, the least significant byte first. -/
def leNat : Bytes → ℕ
  | [] => 0
  | b :: r => b.toNat + 256 * leNat r

def beBytes (n v : ℕ) : Bytes := (leBytes n v).reverse

def beNat (b : Bytes) : ℕ := leNat b.reverse

@[simp] lemma length_leBytes (n v : ℕ) : (leBytes n v).length = n := by
  induction n generalizing v with
  | zero => rfl
  | succ n ih => simp [leBytes, ih]

@[simp] lemma length_beBytes (n v : ℕ) : (beBytes n v).length = n := by simp [beBytes]

lemma leNat_lt (b : Bytes) : leNat b < 256 ^ b.length := by
  induction b with
  | nil => simp [leNat]
  | cons a r ih =>
    have := a.toNat_lt
    simp only [leNat, List.length_cons, pow_succ]
    omega

lemma leNat_leBytes (n : ℕ) {v : ℕ} (h : v < 256 ^ n) : leNat (leBytes n v) = v := by
  induction n generalizing v with
  | zero => simp at h; simp [leBytes, leNat, h]
  | succ n ih =>
    have hd : v / 256 < 256 ^ n := by rw [pow_succ] at h; omega
    simp [leBytes, leNat, ih hd]
    omega

lemma leBytes_leNat (b : Bytes) : leBytes b.length (leNat b) = b := by
  induction b with
  | nil => rfl
  | cons a r ih =>
    have := a.toNat_lt
    have h1 : (a.toNat + 256 * leNat r) % 256 = a.toNat := by omega
    have h2 : (a.toNat + 256 * leNat r) / 256 = leNat r := by omega
    simp only [List.length_cons, leBytes, leNat, h1, h2, ih]
    simp

lemma leBytes_inj {n v w : ℕ} (hv : v < 256 ^ n) (hw : w < 256 ^ n)
    (h : leBytes n v = leBytes n w) : v = w := by
  rw [← leNat_leBytes n hv, h, leNat_leBytes n hw]

lemma beNat_beBytes (n : ℕ) {v : ℕ} (h : v < 256 ^ n) : beNat (beBytes n v) = v := by
  simp [beNat, beBytes, leNat_leBytes n h]

/-! ### Order and prefixes -/

lemma append_lt_append_iff (p : Bytes) {a b : Bytes} : p ++ a < p ++ b ↔ a < b := by
  induction p with
  | nil => rfl
  | cons x p ih => rw [List.cons_append, List.cons_append, List.cons_lt_cons_iff]; simp [ih]

/-- Strings of one length that differ decide the order of what they begin. -/
lemma append_lt_append_of_lt {a b : Bytes} (hl : a.length = b.length) (h : a < b) (x y : Bytes) :
    a ++ x < b ++ y := by
  induction a generalizing b with
  | nil =>
    obtain rfl := List.length_eq_zero_iff.1 hl.symm
    exact absurd h (lt_irrefl _)
  | cons c a ih =>
    cases b with
    | nil => simp at hl
    | cons d b =>
      rw [List.cons_append, List.cons_append, List.cons_lt_cons_iff]
      rcases List.cons_lt_cons_iff.1 h with hcd | ⟨rfl, hab⟩
      · exact Or.inl hcd
      · exact Or.inr ⟨rfl, ih (by simpa using hl) hab⟩

/-- Big-endian bytes are ordered as the numbers are. -/
lemma beBytes_lt (n : ℕ) {v w : ℕ} (hw : w < 256 ^ n) (h : v < w) : beBytes n v < beBytes n w := by
  induction n generalizing v w with
  | zero =>
    rw [pow_zero] at hw
    omega
  | succ n ih =>
    have hsplit (u : ℕ) : beBytes (n + 1) u = beBytes n (u / 256) ++ [UInt8.ofNat (u % 256)] := by
      simp [beBytes, leBytes]
    rw [hsplit, hsplit]
    rcases (Nat.div_le_div_right (c := 256) h.le).lt_or_eq with hlt | heq
    · refine append_lt_append_of_lt (by simp) (ih ?_ hlt) _ _
      rw [pow_succ] at hw
      omega
    · rw [heq, append_lt_append_iff, List.cons_lt_cons_iff]
      refine Or.inl (UInt8.lt_iff_toNat_lt.2 ?_)
      simp only [UInt8.toNat_ofNat']
      omega

lemma cons_le_cons {x y : UInt8} {a b : Bytes} (h : x :: a ≤ y :: b) :
    x < y ∨ x = y ∧ a ≤ b := by
  have hn := not_lt.2 h
  rw [List.cons_lt_cons_iff, not_or, not_and] at hn
  rcases lt_or_eq_of_le (not_lt.1 hn.1) with hlt | rfl
  · exact Or.inl hlt
  · exact Or.inr ⟨rfl, not_lt.1 (hn.2 rfl)⟩

/-- What lies between two strings with a common prefix shares it. -/
lemma prefix_of_le_of_le {p a b c : Bytes} (ha : p <+: a) (hc : p <+: c) (hab : a ≤ b)
    (hbc : b ≤ c) : p <+: b := by
  induction p generalizing a b c with
  | nil => exact List.nil_prefix
  | cons x p ih =>
    obtain ⟨a, rfl⟩ := ha
    obtain ⟨c, rfl⟩ := hc
    cases b with
    | nil => exact absurd hab (by simp)
    | cons y b =>
      rcases cons_le_cons hab with hxy | ⟨rfl, hle⟩
      · rcases cons_le_cons hbc with hyx | ⟨rfl, -⟩
        · exact absurd hyx (lt_asymm hxy)
        · exact absurd hxy (lt_irrefl _)
      · rcases cons_le_cons hbc with hyx | ⟨-, hge⟩
        · exact absurd hyx (lt_irrefl _)
        · exact List.cons_prefix_cons.2
            ⟨rfl, ih (List.prefix_append ..) (List.prefix_append ..) hle hge⟩

/-- The comparison of two strings. -/
def cmpBytes (a b : Bytes) : Ordering := if a < b then .lt else if a = b then .eq else .gt

section Cmp
variable {a b : Bytes}

lemma cmpBytes_eq_lt : cmpBytes a b = .lt ↔ a < b := by
  unfold cmpBytes
  split_ifs <;> simp_all

lemma cmpBytes_eq_eq : cmpBytes a b = .eq ↔ a = b := by
  unfold cmpBytes
  split_ifs with h
  · simp [h.ne]
  · simpa
  · simpa

lemma cmpBytes_eq_gt : cmpBytes a b = .gt ↔ b < a := by
  unfold cmpBytes
  split_ifs with h h'
  · simp [lt_asymm h]
  · simp [h']
  · simp only [true_iff]
    exact lt_of_le_of_ne (not_lt.1 h) (Ne.symm h')

lemma cmpBytes_append (p : Bytes) : cmpBytes (p ++ a) (p ++ b) = cmpBytes a b := by
  simp only [cmpBytes, append_lt_append_iff, List.append_cancel_left_eq]

end Cmp

end Arkeion.Lib
