import Arkeion.Format

/-!
What `take_varint` makes of any bytes.

The groups up to the first byte without the high bit are a number in base 128. Of a tenth group only
the lowest bit has room; the others are lost.
-/

namespace Arkeion

open Arkeion.Lib

/-- The loop of `take_varint` with the position where it leaves off. -/
def readVarintAux (buf : Bytes) : ℕ → ℕ → ℕ → ℕ → Option ℕ × ℕ
  | 0, pos, _, _ => (none, pos)
  | n + 1, pos, shift, v =>
    match buf[pos]? with
    | none => (none, pos)
    | some b =>
      let v := v ||| ((b.toNat % 128) <<< shift) % 2 ^ 64
      if b.toNat < 128 then (some v, pos + 1) else readVarintAux buf n (pos + 1) (shift + 7) v

def readVarint (buf : Bytes) (pos : ℕ) : Option ℕ × ℕ := readVarintAux buf 10 pos 0 0

/-- The bytes up to the first one without the continuation bit. -/
def varintBytes : Bytes → Option Bytes
  | [] => none
  | b :: bs => if b.toNat < 128 then some [b] else (varintBytes bs).map (b :: ·)

/-- The number in base 128, the lowest group first. -/
def denotes : Bytes → ℕ
  | [] => 0
  | b :: bs => b.toNat % 128 + 128 * denotes bs

/-- What is read is what the bytes denote, in 64 bits, or nothing. -/
structure TakesExactly (buf : Bytes) (pos : ℕ) : Prop where
  exact : ∀ v, (readVarint buf pos).1 = some v →
    ∃ g, varintBytes (buf.drop pos) = some g ∧ denotes g = v ∧ v < 2 ^ 64
      ∧ (readVarint buf pos).2 = pos + g.length
  ends : varintBytes (buf.drop pos) = none → (readVarint buf pos).1 = none
  exceeds : ∀ g, varintBytes (buf.drop pos) = some g → 2 ^ 64 ≤ denotes g →
    (readVarint buf pos).1 = none
  inside : (readVarint buf pos).2 ≤ max pos buf.length

/-- Of ten bytes the last one is 0 or 1. -/
def TenthFits (buf : Bytes) (pos : ℕ) : Prop := ∀ g b, varintBytes (buf.drop pos) = some g →
  g.length = 10 → g[9]? = some b → b.toNat ≤ 1

section Reading
variable {buf g : Bytes} {pos n shift v : ℕ}

/-- Both forms of the loop. -/
lemma takeVarintAux_eq : takeVarintAux buf n pos shift v
    = (readVarintAux buf n pos shift v).1.map fun u => (u, (readVarintAux buf n pos shift v).2) := by
  induction n generalizing pos shift v with
  | zero => rfl
  | succ n ih =>
    rw [takeVarintAux, readVarintAux]
    cases buf[pos]? with
    | none => rfl
    | some b =>
      dsimp only
      split_ifs
      · rfl
      · exact ih

lemma takeVarint_eq (buf : Bytes) (pos : ℕ) :
    takeVarint buf pos = (readVarint buf pos).1.map fun u => (u, (readVarint buf pos).2) :=
  takeVarintAux_eq

lemma varintBytes_ne_nil (h : varintBytes buf = some g) : g ≠ [] := by
  cases buf with
  | nil => cases h
  | cons b bs =>
    rw [varintBytes] at h
    split_ifs at h
    · cases h
      exact List.cons_ne_nil b []
    · obtain ⟨g', -, rfl⟩ := Option.map_eq_some_iff.1 h
      exact List.cons_ne_nil b g'

lemma drop_getElem? {b : UInt8} (h : buf[pos]? = some b) :
    buf.drop pos = b :: buf.drop (pos + 1) := by
  obtain ⟨hlt, rfl⟩ := List.getElem?_eq_some_iff.1 h
  exact List.drop_eq_getElem_cons hlt

/-- The loop moves on over bytes that are there. -/
lemma readVarintAux_le : (readVarintAux buf n pos shift v).2 ≤ max pos buf.length := by
  induction n generalizing pos shift v with
  | zero => exact le_max_left _ _
  | succ n ih =>
    rw [readVarintAux]
    cases hb : buf[pos]? with
    | none => exact le_max_left _ _
    | some b =>
      have hlt : pos < buf.length := (List.getElem?_eq_some_iff.1 hb).1
      dsimp only
      split_ifs
      · exact le_max_of_le_right hlt
      · refine ih.trans ?_
        rw [max_eq_right hlt]
        exact le_max_right _ _

/-- The next group goes above the bits that are there. -/
lemma or_group {d : ℕ} (hv : v < 2 ^ shift) (hshift : shift ≤ 63) :
    v ||| (d <<< shift) % 2 ^ 64 = v + d * 2 ^ shift % 2 ^ 64 := by
  have hmod : (d <<< shift) % 2 ^ 64 = (d % 2 ^ (64 - shift)) <<< shift := by
    rw [Nat.shiftLeft_eq, Nat.shiftLeft_eq, ← Nat.mul_mod_mul_right, ← pow_add,
      Nat.sub_add_cancel (hshift.trans (by omega))]
  rw [hmod, Nat.or_comm, ← Nat.shiftLeft_add_eq_or_of_lt hv, ← hmod, Nat.shiftLeft_eq, Nat.add_comm]

/-- The sum with the next group is in 64 bits. -/
lemma add_group_lt {d : ℕ} (hv : v < 2 ^ shift) (hshift : shift ≤ 63) :
    v + d * 2 ^ shift % 2 ^ 64 < 2 ^ 64 := by
  have hpow : (2 : ℕ) ^ 64 = 2 ^ (64 - shift) * 2 ^ shift := by
    rw [← pow_add, Nat.sub_add_cancel (hshift.trans (by omega))]
  have hlt : d % 2 ^ (64 - shift) + 1 ≤ 2 ^ (64 - shift) := Nat.mod_lt d (Nat.two_pow_pos _)
  have hmul := Nat.mul_le_mul_right (2 ^ shift) hlt
  rw [add_mul, one_mul] at hmul
  rw [hpow, Nat.mul_mod_mul_right]
  omega

/-- The loop from any round on: the groups above what is there, modulo 2^64. -/
lemma readVarintAux_eq (hn : shift + 7 * n = 70) (hv : v < 2 ^ shift) :
    (∀ g, varintBytes (buf.drop pos) = some g → g.length ≤ n → readVarintAux buf n pos shift v
        = (some ((v + denotes g * 2 ^ shift) % 2 ^ 64), pos + g.length))
      ∧ ((∀ g, varintBytes (buf.drop pos) = some g → n < g.length) →
        (readVarintAux buf n pos shift v).1 = none) := by
  induction n generalizing pos shift v with
  | zero =>
    refine ⟨fun g hg hlen => ?_, fun _ => rfl⟩
    exact absurd (List.length_eq_zero_iff.1 (Nat.le_zero.1 hlen)) (varintBytes_ne_nil hg)
  | succ n ih =>
    have hshift : shift ≤ 63 := by omega
    rw [readVarintAux]
    cases hb : buf[pos]? with
    | none =>
      refine ⟨fun g hg _ => ?_, fun _ => rfl⟩
      rw [List.drop_eq_nil_of_le (List.getElem?_eq_none_iff.1 hb)] at hg
      cases hg
    | some b =>
      rw [drop_getElem? hb, varintBytes]
      dsimp only
      rw [or_group hv hshift]
      have hlt := add_group_lt (d := b.toNat % 128) hv hshift
      by_cases hlast : b.toNat < 128
      · rw [if_pos hlast, if_pos hlast]
        refine ⟨fun g hg _ => ?_, fun h => absurd (h [b] rfl) (by simp)⟩
        cases hg
        have hden : denotes [b] = b.toNat % 128 := by rw [denotes, denotes, mul_zero, add_zero]
        rw [hden, ← Nat.mod_eq_of_lt hlt, Nat.add_mod_mod]
        rfl
      · rw [if_neg hlast, if_neg hlast]
        -- a group with the continuation bit is not the tenth, or none is left
        rcases Nat.eq_zero_or_pos n with rfl | hpos
        · refine ⟨fun g hg hlen => ?_, fun _ => rfl⟩
          obtain ⟨g', hg', rfl⟩ := Option.map_eq_some_iff.1 hg
          have hnil := varintBytes_ne_nil hg'
          rw [List.length_cons] at hlen
          exact absurd (List.length_eq_zero_iff.1 (by omega)) hnil
        · have hgroup : b.toNat % 128 * 2 ^ shift < 2 ^ (shift + 7) := by
            rw [pow_add, mul_comm]
            exact Nat.mul_lt_mul_of_pos_left (Nat.mod_lt _ (by omega)) (Nat.two_pow_pos _)
          have hle : 2 ^ (shift + 7) ≤ 2 ^ 64 := Nat.pow_le_pow_right (by omega) (by omega)
          have hsmall : b.toNat % 128 * 2 ^ shift % 2 ^ 64 = b.toNat % 128 * 2 ^ shift :=
            Nat.mod_eq_of_lt (hgroup.trans_le hle)
          have hv' : v + b.toNat % 128 * 2 ^ shift < 2 ^ (shift + 7) := by
            have hd : b.toNat % 128 + 1 ≤ 128 := Nat.mod_lt _ (by omega)
            have hmul := Nat.mul_le_mul_right (2 ^ shift) hd
            rw [pow_add]
            rw [add_mul, one_mul] at hmul
            omega
          rw [hsmall]
          obtain ⟨hsome, hnone⟩ := @ih (pos + 1) (shift + 7) (v + b.toNat % 128 * 2 ^ shift)
            (by omega) hv'
          constructor
          · intro g hg hlen
            obtain ⟨g', hg', rfl⟩ := Option.map_eq_some_iff.1 hg
            rw [List.length_cons] at hlen ⊢
            have hvalue : v + b.toNat % 128 * 2 ^ shift + denotes g' * 2 ^ (shift + 7)
                = v + denotes (b :: g') * 2 ^ shift := by
              rw [denotes, pow_add]
              ring
            rw [hsome g' hg' (by omega), hvalue]
            exact congrArg _ (by omega)
          · intro h
            refine hnone fun g' hg' => ?_
            have hlong := h (b :: g') (Option.map_eq_some_iff.2 ⟨g', hg', rfl⟩)
            rw [List.length_cons] at hlong
            omega

/-- What is read: the number modulo 2^64, if it has ten bytes at most. -/
lemma readVarint_eq (hg : varintBytes (buf.drop pos) = some g) (hlen : g.length ≤ 10) :
    readVarint buf pos = (some (denotes g % 2 ^ 64), pos + g.length) := by
  have hread := (@readVarintAux_eq buf pos 10 0 0 rfl (by norm_num)).1 g hg hlen
  rwa [zero_add, pow_zero, mul_one] at hread

lemma readVarint_none (h : ∀ g, varintBytes (buf.drop pos) = some g → 10 < g.length) :
    (readVarint buf pos).1 = none :=
  (@readVarintAux_eq buf pos 10 0 0 rfl (by norm_num)).2 h

lemma denotes_append (a b : Bytes) : denotes (a ++ b) = denotes a + 128 ^ a.length * denotes b := by
  induction a with
  | nil => simp [denotes]
  | cons x a ih =>
    rw [List.cons_append, denotes, denotes, ih, List.length_cons, pow_succ]
    ring

lemma denotes_lt (g : Bytes) : denotes g < 128 ^ g.length := by
  induction g with
  | nil => exact Nat.one_pos
  | cons b g ih =>
    have hb : b.toNat % 128 < 128 := Nat.mod_lt _ (by omega)
    rw [denotes, List.length_cons, pow_succ]
    omega

/-- The last of the groups has no continuation bit. -/
lemma varintBytes_last (h : varintBytes buf = some g) :
    ∃ a b, g = a ++ [b] ∧ b.toNat < 128 := by
  induction buf generalizing g with
  | nil => cases h
  | cons x bs ih =>
    rw [varintBytes] at h
    split_ifs at h with hx
    · cases h
      exact ⟨[], x, rfl, hx⟩
    · obtain ⟨g', hg', rfl⟩ := Option.map_eq_some_iff.1 h
      obtain ⟨a, b, rfl, hb⟩ := ih hg'
      exact ⟨x :: a, b, rfl, hb⟩

/-- Ten groups fit in 64 bits exactly if the last one is 0 or 1. -/
lemma denotes_tenth {a : Bytes} {b : UInt8} (ha : a.length = 9) (hb : b.toNat < 128) :
    denotes (a ++ [b]) < 2 ^ 64 ↔ b.toNat ≤ 1 := by
  have hlow := denotes_lt a
  have hden : denotes [b] = b.toNat := by
    rw [denotes, denotes, mul_zero, add_zero, Nat.mod_eq_of_lt hb]
  rw [ha] at hlow
  rw [denotes_append, ha, hden]
  omega

/-- What is read is exact just if a tenth group fits. -/
lemma takesExactly_iff (buf : Bytes) (pos : ℕ) : TakesExactly buf pos ↔ TenthFits buf pos := by
  constructor
  · intro h g b hg hlen hb
    obtain ⟨a, c, rfl, hc⟩ := varintBytes_last hg
    have ha : a.length = 9 := by
      rw [List.length_append, List.length_singleton] at hlen
      omega
    have hbc : b = c := by
      rw [List.getElem?_append_right (by omega), ha] at hb
      exact (Option.some.inj hb).symm
    have hread := readVarint_eq hg (by omega)
    obtain ⟨g', hg', hden, hlt, -⟩ := h.exact _ (by rw [hread])
    cases hg.symm.trans hg'
    rw [← hden] at hlt
    rw [hbc]
    exact (denotes_tenth ha hc).1 hlt
  · intro h
    have hfits {g : Bytes} (hg : varintBytes (buf.drop pos) = some g) (hlen : g.length ≤ 10) :
        denotes g < 2 ^ 64 := by
      rcases Nat.lt_or_ge g.length 10 with hshort | hlong
      · have hle : 128 ^ g.length ≤ 128 ^ 9 := Nat.pow_le_pow_right (by omega) (by omega)
        exact ((denotes_lt g).trans_le hle).trans (by decide)
      · obtain ⟨a, c, rfl, hc⟩ := varintBytes_last hg
        have ha : a.length = 9 := by
          rw [List.length_append, List.length_singleton] at hlen hlong
          omega
        refine (denotes_tenth ha hc).2 (h _ c hg (by omega) ?_)
        rw [List.getElem?_append_right (by omega), ha]
        rfl
    constructor
    · intro v hv
      by_cases hlong : ∀ g, varintBytes (buf.drop pos) = some g → 10 < g.length
      · rw [readVarint_none hlong] at hv
        cases hv
      · push Not at hlong
        obtain ⟨g, hg, hlen⟩ := hlong
        have hlt := hfits hg hlen
        have hread := readVarint_eq hg hlen
        rw [hread, Nat.mod_eq_of_lt hlt] at hv
        refine ⟨g, hg, Option.some.inj hv, ?_, by rw [hread]⟩
        rw [← Option.some.inj hv]
        exact hlt
    · intro hnone
      refine readVarint_none fun g hg => ?_
      rw [hnone] at hg
      cases hg
    · intro g hg hbig
      refine readVarint_none fun g' hg' => ?_
      cases hg.symm.trans hg'
      by_contra hlen
      exact absurd (hfits hg (by omega)) (by omega)
    · exact readVarintAux_le

end Reading

/-- A varint is written in its length and read back; of other bytes what is read is exact just if a
tenth group fits. -/
theorem varint_exact (buf : Bytes) (pos : ℕ) :
    (∀ v < 2 ^ 64, (putVarint v).length = varintLen v ∧ ∀ x z : Bytes,
      readVarint (x ++ putVarint v ++ z) x.length = (some v, x.length + varintLen v))
    ∧ (TakesExactly buf pos ↔ TenthFits buf pos) := by
  refine ⟨fun v hv => ⟨length_putVarint hv, fun x z => ?_⟩, takesExactly_iff buf pos⟩
  have htake := takeVarint_put x z rfl hv
  rw [takeVarint_eq] at htake
  obtain ⟨u, hu, hpair⟩ := Option.map_eq_some_iff.1 htake
  rw [Prod.mk.injEq] at hpair
  exact Prod.ext (hu.trans (congrArg some hpair.1)) hpair.2

/-- Ten bytes that denote 2^64 are read as 0. -/
theorem varint_truncated : readVarint (List.replicate 9 0x80 ++ [2]) 0 = (some 0, 10)
    ∧ varintBytes (List.replicate 9 0x80 ++ [2]) = some (List.replicate 9 0x80 ++ [2])
    ∧ denotes (List.replicate 9 0x80 ++ [2]) = 2 ^ 64
    ∧ ¬ TakesExactly (List.replicate 9 0x80 ++ [2]) 0 := by
  have hread : readVarint (List.replicate 9 0x80 ++ [2]) 0 = (some 0, 10) := by decide
  have hden : denotes (List.replicate 9 0x80 ++ [2]) = 2 ^ 64 := by decide
  have hbytes : varintBytes (List.replicate 9 0x80 ++ [2]) = some (List.replicate 9 0x80 ++ [2]) := by
    decide
  refine ⟨hread, hbytes, hden, fun h => ?_⟩
  have hnone := h.exceeds _ hbytes hden.ge
  rw [hread] at hnone
  cases hnone

end Arkeion
