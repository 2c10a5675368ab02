import Arkeion.Lib.Bytes

/-!
SHA-256 on byte strings, with its words as numbers below `2 ^ 32`.
-/

namespace Arkeion.Lib

namespace Sha2

def rotr (x n : ℕ) : ℕ := (x >>> n) ||| ((x <<< (32 - n)) % 2 ^ 32)

/-- Passes a word on only once it is a numeral, so that no round is computed twice. -/
def eval {α : Type} (x : ℕ) (k : ℕ → α) : α :=
  match x with
  | 0 => k 0
  | n + 1 => k (n + 1)

def roundConstants : List ℕ :=
  [0x428a2f98, 0x71374491, 0xb5c0fbcf, 0xe9b5dba5, 0x3956c25b, 0x59f111f1, 0x923f82a4, 0xab1c5ed5,
   0xd807aa98, 0x12835b01, 0x243185be, 0x550c7dc3, 0x72be5d74, 0x80deb1fe, 0x9bdc06a7, 0xc19bf174,
   0xe49b69c1, 0xefbe4786, 0x0fc19dc6, 0x240ca1cc, 0x2de92c6f, 0x4a7484aa, 0x5cb0a9dc, 0x76f988da,
   0x983e5152, 0xa831c66d, 0xb00327c8, 0xbf597fc7, 0xc6e00bf3, 0xd5a79147, 0x06ca6351, 0x14292967,
   0x27b70a85, 0x2e1b2138, 0x4d2c6dfc, 0x53380d13, 0x650a7354, 0x766a0abb, 0x81c2c92e, 0x92722c85,
   0xa2bfe8a1, 0xa81a664b, 0xc24b8b70, 0xc76c51a3, 0xd192e819, 0xd6990624, 0xf40e3585, 0x106aa070,
   0x19a4c116, 0x1e376c08, 0x2748774c, 0x34b0bcb5, 0x391c0cb3, 0x4ed8aa4a, 0x5b9cca4f, 0x682e6ff3,
   0x748f82ee, 0x78a5636f, 0x84c87814, 0x8cc70208, 0x90befffa, 0xa4506ceb, 0xbef9a3f7, 0xc67178f2]

structure Words where
  a : ℕ
  b : ℕ
  c : ℕ
  d : ℕ
  e : ℕ
  f : ℕ
  g : ℕ
  h : ℕ

def start : Words :=
  ⟨0x6a09e667, 0xbb67ae85, 0x3c6ef372, 0xa54ff53a, 0x510e527f, 0x9b05688c, 0x1f83d9ab, 0x5be0cd19⟩

def Words.add (x y : Words) : Words :=
  ⟨(x.a + y.a) % 2 ^ 32, (x.b + y.b) % 2 ^ 32, (x.c + y.c) % 2 ^ 32, (x.d + y.d) % 2 ^ 32,
   (x.e + y.e) % 2 ^ 32, (x.f + y.f) % 2 ^ 32, (x.g + y.g) % 2 ^ 32, (x.h + y.h) % 2 ^ 32⟩

def Words.bytes (x : Words) : Bytes :=
  beBytes 4 x.a ++ beBytes 4 x.b ++ beBytes 4 x.c ++ beBytes 4 x.d ++ beBytes 4 x.e
    ++ beBytes 4 x.f ++ beBytes 4 x.g ++ beBytes 4 x.h

/-- The word 16 places after the first of the window. -/
def extend : List ℕ → ℕ
  | [w0, w1, _, _, _, _, _, _, _, w9, _, _, _, _, w14, _] =>
    (w0 + (rotr w1 7 ^^^ rotr w1 18 ^^^ (w1 >>> 3)) + w9
      + (rotr w14 17 ^^^ rotr w14 19 ^^^ (w14 >>> 10))) % 2 ^ 32
  | _ => 0

/-- The rounds of one block, with the next sixteen words of its schedule. -/
def rounds : List ℕ → List ℕ → Words → Words
  | k :: ks, w :: ws, ⟨a, b, c, d, e, f, g, h⟩ =>
    let s1 := rotr e 6 ^^^ rotr e 11 ^^^ rotr e 25
    let ch := (e &&& f) ^^^ ((2 ^ 32 - 1 - e) &&& g)
    let s0 := rotr a 2 ^^^ rotr a 13 ^^^ rotr a 22
    let maj := (a &&& b) ^^^ (a &&& c) ^^^ (b &&& c)
    eval ((h + s1 + ch + k + w) % 2 ^ 32) fun t =>
    eval ((t + s0 + maj) % 2 ^ 32) fun a' =>
    eval ((d + t) % 2 ^ 32) fun e' =>
    eval (extend (w :: ws)) fun w' => rounds ks (ws ++ [w']) ⟨a', a, b, c, e', e, f, g⟩
  | _, _, st => st

def words : Bytes → List ℕ
  | a :: b :: c :: d :: r => beNat [a, b, c, d] :: words r
  | _ => []

/-- Fills up to whole blocks: a one bit, zeros, and the length in bits. -/
def pad (m : Bytes) : Bytes :=
  m ++ 0x80 :: (List.replicate ((119 - m.length % 64) % 64) 0 ++ beBytes 8 (8 * m.length))

def compress (st : Words) (block : Bytes) : Words :=
  st.add (rounds roundConstants (words block) st)

def blocks : ℕ → Bytes → Words → Words
  | 0, _, st => st
  | n + 1, m, st => blocks n (m.drop 64) (compress st (m.take 64))

end Sha2

def sha256 (m : Bytes) : Bytes :=
  (Sha2.blocks ((Sha2.pad m).length / 64) (Sha2.pad m) Sha2.start).bytes

lemma length_sha256 (m : Bytes) : (sha256 m).length = 32 := by
  simp [sha256, Sha2.Words.bytes]

/-- The digest of the empty string. -/
example : beNat (sha256 [])
    = 0xe3b0c44298fc1c149afbf4c8996fb92427ae41e4649b934ca495991b7852b855 := by
  decide +kernel

end Arkeion.Lib
