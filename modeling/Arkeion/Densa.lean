import Arkeion.LzssSpec
import Arkeion.RangeCoderSpec
import Arkeion.Pager

/-!
The compressors of pages: `Lz`, and `Densa`, which packs the output of `Lz` by the range coder where
that is shorter and comes out again.
-/

namespace Arkeion

open Arkeion.Lib Lz77 Lzss RangeCoder

def METHOD_LZ : UInt8 := 1
def METHOD_DENSA : UInt8 := 2

/-- The output, where it is shorter than the body. -/
def ifSmaller (body out : Bytes) : Option Bytes :=
  if out.length < body.length then some out else none

namespace Lz

def compress (body : Bytes) : Option Bytes := ifSmaller body (lzCompress body)

def decompress (data : Bytes) : Option Bytes := lzDecompress data

end Lz

namespace Densa

/-- The output of `Lz`, or what the range coder makes of it; a tag says which. -/
def compress (k : ℕ) (body : Bytes) : Result (Option Bytes) := do
  let lz := lzCompress body
  let packed ← rcCompress k lz
  match packed with
  | none => .ok (ifSmaller body (0 :: lz))
  | some c =>
    if c.length < lz.length then do
      let back ← rcDecompress k c
      .ok (ifSmaller body (if back = some lz then 1 :: c else 0 :: lz))
    else .ok (ifSmaller body (0 :: lz))

def decompress (k : ℕ) (data : Bytes) : Result (Option Bytes) :=
  match data with
  | [] => .ok none
  | sub :: rest =>
    if sub = 0 then .ok (lzDecompress rest)
    else if sub = 1 then do
      let lz ← rcDecompress k rest
      .ok (lz.bind lzDecompress)
    else .ok none

end Densa

/-! ### What is restored -/

lemma ifSmaller_eq_some {body out c : Bytes} :
    ifSmaller body out = some c ↔ out.length < body.length ∧ out = c := by
  rw [ifSmaller]
  split_ifs with h
  · simp [h]
  · simp [h]

lemma Lz.restores {body c : Bytes} (h : body.length < 2 ^ 64) (hc : Lz.compress body = some c) :
    Lz.decompress c = some body := by
  obtain ⟨-, rfl⟩ := ifSmaller_eq_some.1 hc
  exact lzDecompress_compress h

namespace Densa

variable {k : ℕ} {body c : Bytes}

lemma decompress_lz (h : body.length < 2 ^ 64) :
    decompress k (0 :: lzCompress body) = .ok (some body) := by
  rw [decompress, if_pos rfl, lzDecompress_compress h]

/-- Packing never fails; what is packed is shorter, and comes out again. -/
lemma compress_restores (hk : 7 ≤ k) (body : Bytes) : ∃ r, compress k body = .ok r ∧
    ∀ c, r = some c → c.length < body.length ∧
      (body.length < 2 ^ 64 → decompress k c = .ok (some body)) := by
  have hplain : ∀ c, ifSmaller body (0 :: lzCompress body) = some c → c.length < body.length ∧
      (body.length < 2 ^ 64 → decompress k c = .ok (some body)) := by
    intro c hc
    obtain ⟨hlt, rfl⟩ := ifSmaller_eq_some.1 hc
    exact ⟨hlt, decompress_lz⟩
  obtain ⟨packed, hpacked⟩ := rcCompress_ok hk (lzCompress body)
  rw [compress]
  simp only [hpacked, ok_bind]
  cases packed with
  | none => exact ⟨_, rfl, hplain⟩
  | some c =>
    obtain ⟨back, hback⟩ := rcDecompress_ok hk c
    simp only [hback, ok_bind]
    split_ifs with hlt heq
    · refine ⟨_, rfl, fun d hd => ?_⟩
      obtain ⟨hshort, rfl⟩ := ifSmaller_eq_some.1 hd
      refine ⟨hshort, fun h => ?_⟩
      have hneq : ¬ (1 : UInt8) = 0 := by decide
      rw [decompress, if_neg hneq, if_pos rfl, hback, ok_bind, heq, Option.bind_some,
        lzDecompress_compress h]
    · exact ⟨_, rfl, hplain⟩
    · exact ⟨_, rfl, hplain⟩

end Densa

/-! ### As compressors of the pager -/

/-- The longest renormalisation takes six bytes. -/
def RC_ROUNDS : ℕ := 7

namespace Compressor

def lz : Compressor where
  compress := Lz.compress
  decompress := Lz.decompress
  method := METHOD_LZ
  decompress_compress _ _ h hc := Lz.restores h hc
  length_compress _ _ hc := by
    obtain ⟨hlt, rfl⟩ := ifSmaller_eq_some.1 hc
    exact hlt
  raw h := absurd h (by decide)

lemma densa_eq {body c : Bytes} (hc : ((Densa.compress RC_ROUNDS body).toOption.join) = some c) :
    c.length < body.length ∧
      (body.length < 2 ^ 64 → Densa.decompress RC_ROUNDS c = .ok (some body)) := by
  obtain ⟨r, hr, hback⟩ := Densa.compress_restores (k := RC_ROUNDS) (le_refl 7) body
  rw [hr] at hc
  exact hback c hc

def densa : Compressor where
  compress body := (Densa.compress RC_ROUNDS body).toOption.join
  decompress data := (Densa.decompress RC_ROUNDS data).toOption.join
  method := METHOD_DENSA
  decompress_compress _ _ h hc := by
    rw [(densa_eq hc).2 h]
    rfl
  length_compress _ _ hc := (densa_eq hc).1
  raw h := absurd h (by decide)

end Compressor

/-- `Lz` restores every input, and so does `Densa`; the matches it writes lie in the window and have
one of the lengths that there is a code for, and their codes are read as what they were. -/
theorem lz_restores {input : Bytes} (hlen : input.length < 2 ^ 64) :
    lzDecompress (lzCompress input) = some input ∧
    (∃ b groups, lzCompress input = putVarint input.length ++ b ∧ IsPacked b groups ∧
      groups.flatten = lzTokens input ∧ Parses input 0 (lzTokens input) input.length) ∧
    (∀ off len, Token.copy off len ∈ lzTokens input →
      (1 ≤ off ∧ off ≤ 4096) ∧ (3 ≤ len ∧ len ≤ 273) ∧
        readToken (matchCode len off) false 0 = some (.copy off len, (matchCode len off).length)) ∧
    (∀ c, Lz.compress input = some c → Lz.decompress c = some input) ∧
    ∀ k, 7 ≤ k → ∃ r, Densa.compress k input = .ok r ∧
      ∀ c, r = some c → Densa.decompress k c = .ok (some input) := by
  obtain ⟨b, groups, hb, hpacked, hflat, hfits, hparses⟩ := lzCompress_packed input
  refine ⟨lzDecompress_compress hlen, ⟨b, groups, hb, hpacked, hflat, hparses⟩, fun off len ht => ?_,
    fun c hc => Lz.restores hlen hc, fun k hk => ?_⟩
  · obtain ⟨hoff, hlo, hhi⟩ := hfits _ ht
    have hread := readToken_code [] [] (hfits _ ht)
    rw [List.nil_append, List.append_nil, List.length_nil, Nat.zero_add] at hread
    exact ⟨hoff, ⟨hlo, hhi⟩, hread⟩
  · obtain ⟨r, hr, hback⟩ := Densa.compress_restores hk input
    exact ⟨r, hr, fun c hc => (hback c hc).2 hlen⟩

/-- A text that repeats itself: the match runs into what it writes. -/
def abcabc : Bytes := [97, 98, 99, 97, 98, 99, 97, 98, 99, 97, 98, 99]

theorem lz_restores_abcabc : lzTokens abcabc = [.lit 97, .lit 98, .lit 99, .copy 3 9] ∧
    lzDecompress (lzCompress abcabc) = some abcabc ∧
    ∃ c, Lz.compress abcabc = some c ∧ Lz.decompress c = some abcabc := by
  have hlen : abcabc.length < 2 ^ 64 := by decide
  obtain ⟨hback, -, -, hlz, -⟩ := lz_restores hlen
  have hsmall : (Lz.compress abcabc).isSome = true := by decide +kernel
  obtain ⟨c, hc⟩ := Option.isSome_iff_exists.1 hsmall
  exact ⟨by decide +kernel, hback, c, hc, hlz c hc⟩

end Arkeion
