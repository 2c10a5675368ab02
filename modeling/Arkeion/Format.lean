import Arkeion.Error

/-!
Constants and binary layouts of the file format: page sizes, magics, the meta slot, and the
varint of the B-tree nodes.
-/

namespace Arkeion

open Arkeion.Lib

def PAGE_SIZE : ℕ := 4096
def NONCE_LEN : ℕ := 12
def TAG_LEN : ℕ := 16
/-- What every sealed payload spends on nonce and tag. -/
def CRYPTO_RESERVE : ℕ := NONCE_LEN + TAG_LEN
def BODY_SIZE : ℕ := PAGE_SIZE - CRYPTO_RESERVE
def LEN_PREFIX_LEN : ℕ := 4
def MIN_RECORD_LEN : ℕ := LEN_PREFIX_LEN + CRYPTO_RESERVE

/-- `"ARKEION1"` -/
def MAGIC_HEADER : Bytes := [0x41, 0x52, 0x4B, 0x45, 0x49, 0x4F, 0x4E, 0x31]
/-- `"ARKCMT01"` -/
def MAGIC_COMMIT : Bytes := [0x41, 0x52, 0x4B, 0x43, 0x4D, 0x54, 0x30, 0x31]

/-! Pages go by their numbers: 0 is the header, 1 and 2 are the meta slots. -/

def META_PAGE_A : ℕ := 1
def META_PAGE_B : ℕ := 2
def FIRST_DATA_PAGE : ℕ := 3

/-- Where the append zone begins. -/
def byteOffset (id : ℕ) : ℕ := id * PAGE_SIZE

lemma BODY_SIZE_eq : BODY_SIZE = 4068 := rfl

/-- What a meta slot says of the last commit it knows. -/
structure MetaSlot where
  version : ℕ
  last_commit_page : ℕ
  n_pages : ℕ
  deriving DecidableEq, Repr

/-- The slot of a version: the two alternate by parity. -/
def MetaSlot.slotPage (version : ℕ) : ℕ := META_PAGE_A + version % 2

/-! ### Varints -/

/-- One round of `put_varint` a byte; a `u64` takes at most ten. -/
def putVarintAux : ℕ → ℕ → Bytes
  | 0, _ => []
  | n + 1, v =>
    if v / 128 = 0 then [UInt8.ofNat (v % 128)]
    else UInt8.ofNat (v % 128 + 128) :: putVarintAux n (v / 128)

def putVarint (v : ℕ) : Bytes := putVarintAux 10 v

/-- The bits of `v`, at least one, in groups of seven. -/
def varintLen (v : ℕ) : ℕ := (max (if v = 0 then 0 else Nat.log2 v + 1) 1 + 6) / 7

/-- The loop of `take_varint`; the first argument counts the shifts left below 64. -/
def takeVarintAux (buf : Bytes) : ℕ → ℕ → ℕ → ℕ → Option (ℕ × ℕ)
  | 0, _, _, _ => none
  | n + 1, pos, shift, v =>
    match buf[pos]? with
    | none => none
    | some b =>
      let v := v ||| ((b.toNat % 128) <<< shift) % 2 ^ 64
      if b.toNat < 128 then some (v, pos + 1) else takeVarintAux buf n (pos + 1) (shift + 7) v

/-- The varint at `pos` and the position after it. -/
def takeVarint (buf : Bytes) (pos : ℕ) : Option (ℕ × ℕ) := takeVarintAux buf 10 pos 0 0

lemma varintLen_of_lt {v : ℕ} (h : v < 128) : varintLen v = 1 := by
  unfold varintLen
  split_ifs with h0
  · rfl
  · have := Nat.log2_lt h0 |>.2 (show v < 2 ^ 7 from h)
    omega

lemma varintLen_of_ge {v : ℕ} (h : 128 ≤ v) : varintLen v = varintLen (v / 128) + 1 := by
  have hd : v / 128 ≠ 0 := by omega
  have hlog : Nat.log2 v = Nat.log2 (v / 128) + 7 := by
    have h1 := (Nat.log2_eq_iff hd).1 rfl
    refine (Nat.log2_eq_iff (by omega)).2 ?_
    have h2 : 2 ^ (Nat.log2 (v / 128) + 7) = 128 * 2 ^ Nat.log2 (v / 128) := by ring
    have h3 : 2 ^ (Nat.log2 (v / 128) + 7 + 1) = 256 * 2 ^ Nat.log2 (v / 128) := by ring
    rw [pow_succ] at h1
    rw [h2, h3]
    omega
  unfold varintLen
  rw [if_neg (by omega), if_neg hd, hlog]
  omega

lemma varintLen_le {n v : ℕ} (h : v < 128 ^ (n + 1)) : varintLen v ≤ n + 1 := by
  induction n generalizing v with
  | zero => rw [varintLen_of_lt (by omega)]
  | succ n ih =>
    rcases Nat.lt_or_ge v 128 with hv | hv
    · rw [varintLen_of_lt hv]; omega
    · have := ih (v := v / 128) (by rw [pow_succ] at h; omega)
      rw [varintLen_of_ge hv]; omega

lemma length_putVarintAux {n v : ℕ} (h : v < 128 ^ n) (hn : 0 < n) :
    (putVarintAux n v).length = varintLen v := by
  induction n generalizing v with
  | zero => omega
  | succ n ih =>
    rcases Nat.lt_or_ge v 128 with hv | hv
    · rw [varintLen_of_lt hv, putVarintAux, if_pos (by omega)]; rfl
    · have hlt : v / 128 < 128 ^ n := by rw [pow_succ] at h; omega
      have hn' : 0 < n := by
        rcases Nat.eq_zero_or_pos n with rfl | h'
        · simp at hlt; omega
        · exact h'
      rw [varintLen_of_ge hv, putVarintAux, if_neg (by omega), List.length_cons, ih hlt hn']

lemma length_putVarint {v : ℕ} (h : v < 2 ^ 64) : (putVarint v).length = varintLen v :=
  length_putVarintAux (by omega) (by omega)

lemma takeVarintAux_put {n v : ℕ} (x z : Bytes) (shift acc : ℕ) (hv : v < 128 ^ n)
    (hn : 0 < n) (hacc : acc < 2 ^ shift) (hfit : acc + v * 2 ^ shift < 2 ^ 64) :
    takeVarintAux (x ++ putVarintAux n v ++ z) n x.length shift acc
      = some (acc + v * 2 ^ shift, x.length + (putVarintAux n v).length) := by
  induction n generalizing v x shift acc with
  | zero => omega
  | succ n ih =>
    have hor (d : ℕ) (hd : d * 2 ^ shift < 2 ^ 64) :
        acc ||| (d <<< shift) % 2 ^ 64 = acc + d * 2 ^ shift := by
      rw [Nat.shiftLeft_eq, Nat.mod_eq_of_lt hd, ← Nat.shiftLeft_eq, Nat.or_comm,
        ← Nat.shiftLeft_add_eq_or_of_lt hacc]
      omega
    rcases Nat.lt_or_ge v 128 with hv128 | hv128
    · have hput : putVarintAux (n + 1) v = [UInt8.ofNat (v % 128)] := by
        rw [putVarintAux, if_pos (by omega)]
      have hget : (x ++ [UInt8.ofNat (v % 128)] ++ z)[x.length]? = some (UInt8.ofNat (v % 128)) := by
        simp
      have hnat : (UInt8.ofNat (v % 128)).toNat = v := by simp; omega
      rw [hput, takeVarintAux, hget]
      dsimp only
      rw [hnat, if_pos hv128, Nat.mod_eq_of_lt hv128, hor v (by omega)]
      rfl
    · have hlt : v / 128 < 128 ^ n := by rw [pow_succ] at hv; omega
      have hn' : 0 < n := by
        rcases Nat.eq_zero_or_pos n with rfl | h'
        · simp at hlt; omega
        · exact h'
      have hput : putVarintAux (n + 1) v
          = UInt8.ofNat (v % 128 + 128) :: putVarintAux n (v / 128) := by
        rw [putVarintAux, if_neg (by omega)]
      have hsplit : v = v % 128 + 128 * (v / 128) := (Nat.mod_add_div v 128).symm
      have hmul : v * 2 ^ shift = v % 128 * 2 ^ shift + v / 128 * 2 ^ (shift + 7) := by
        conv_lhs => rw [hsplit]
        ring
      have hget : (x ++ (UInt8.ofNat (v % 128 + 128) :: putVarintAux n (v / 128)) ++ z)[x.length]?
          = some (UInt8.ofNat (v % 128 + 128)) := by simp
      have hnat : (UInt8.ofNat (v % 128 + 128)).toNat = v % 128 + 128 := by simp; omega
      rw [hput, takeVarintAux, hget]
      dsimp only
      rw [hnat, if_neg (by omega), show (v % 128 + 128) % 128 = v % 128 by omega,
        hor (v % 128) (by omega)]
      have hacc' : acc + v % 128 * 2 ^ shift < 2 ^ (shift + 7) := by
        have h1 : v % 128 + 1 ≤ 128 := by omega
        have h2 := Nat.mul_le_mul_right (2 ^ shift) h1
        have h3 : 2 ^ (shift + 7) = 128 * 2 ^ shift := by ring
        have h4 : (v % 128 + 1) * 2 ^ shift = v % 128 * 2 ^ shift + 2 ^ shift := by ring
        omega
      have := ih (x ++ [UInt8.ofNat (v % 128 + 128)]) (shift + 7) _ hlt hn' hacc' (by omega)
      simp only [List.append_assoc, List.singleton_append, List.length_append,
        List.length_singleton] at this
      simp only [List.append_assoc, List.cons_append, List.length_cons] at this ⊢
      rw [this, hmul]
      congr 2 <;> omega

/-- A varint written somewhere is read back from there. -/
lemma takeVarint_put {v : ℕ} (x z : Bytes) {pos : ℕ} (hp : pos = x.length) (h : v < 2 ^ 64) :
    takeVarint (x ++ putVarint v ++ z) pos = some (v, pos + varintLen v) := by
  subst hp
  have := takeVarintAux_put x z 0 0 (n := 10)
    (h.trans (by decide)) (by omega) (by omega) (by simpa using h)
  rw [← length_putVarint h]
  simpa [takeVarint, putVarint] using this

end Arkeion
