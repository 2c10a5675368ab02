import Arkeion.Format
import Arkeion.Lib.Lz77

/-!
The compressor `Lz`: literals and matches in a window of 4 KiB, eight tokens behind a byte of
flags. Matches are looked for along chains of the positions with the same hash.
-/

namespace Arkeion.Lzss

open Arkeion.Lib Lz77

def MIN_MATCH : ℕ := 3
def MAX_MATCH : ℕ := 273
def WINDOW : ℕ := 4096
def HASH_BITS : ℕ := 13
def HASH_SIZE : ℕ := 2 ^ HASH_BITS
def MAX_CHAIN : ℕ := 128

/-- `n as i32` -/
def asI32 (n : ℕ) : ℤ := (n : ℤ).bmod (2 ^ 32)

/-- A multiplicative hash of the first three bytes. -/
def hash3 (b : Bytes) : ℕ :=
  let v := (b.getD 0 0).toUInt32 <<< 16 ||| (b.getD 1 0).toUInt32 <<< 8 ||| (b.getD 2 0).toUInt32
  (v * 0x9E3779B1).toNat >>> (32 - HASH_BITS)

/-- The last position with each hash, and for each position the one before with its hash; -1 is
none. -/
structure Chains where
  head : List ℤ
  prev : List ℤ

def Chains.insert (input : Bytes) (pos : ℕ) (t : Chains) : Chains :=
  if pos + MIN_MATCH ≤ input.length then
    let h := hash3 (input.drop pos)
    { head := t.head.set h (asI32 pos), prev := t.prev.set pos (t.head.getD h (-1)) }
  else t

/-- Inserts so many positions. -/
def Chains.insertRun (input : Bytes) : ℕ → ℕ → Chains → Chains
  | _, 0, t => t
  | pos, n + 1, t => insertRun input (pos + 1) n (t.insert input pos)

/-- How far the text goes on the same from `c` and from `pos`, so many bytes at most. -/
def matchLen (input : Bytes) : ℕ → ℕ → ℕ → ℕ
  | _, _, 0 => 0
  | c, pos, m + 1 =>
    if input.getD c 0 = input.getD pos 0 then matchLen input (c + 1) (pos + 1) m + 1 else 0

/-- The walk along a chain: the longest match with the candidates, and how far back it lies. The
first argument counts the candidates that may still be tried. -/
def walkChain (input : Bytes) (prev : List ℤ) (pos max_len : ℕ) : ℕ → ℤ → ℕ × ℕ → ℕ × ℕ
  | 0, _, best => best
  | k + 1, cand, best =>
    if cand < 0 then best
    else
      let c := cand.toNat
      if WINDOW < pos - c then best
      else
        let l := matchLen input c pos max_len
        if best.1 < l then
          if l = max_len then (l, pos - c)
          else walkChain input prev pos max_len k (prev.getD c (-1)) (l, pos - c)
        else walkChain input prev pos max_len k (prev.getD c (-1)) best

/-- `best_len` and `best_off`. -/
def bestMatch (input : Bytes) (t : Chains) (pos : ℕ) : ℕ × ℕ :=
  if pos + MIN_MATCH ≤ input.length then
    let max_len := min (input.length - pos) MAX_MATCH
    walkChain input t.prev pos max_len MAX_CHAIN (t.head.getD (hash3 (input.drop pos)) (-1)) (0, 0)
  else (0, 0)

/-- The code of a match: offset and length in two bytes, and a third for a long one. -/
def matchCode (best_len best_off : ℕ) : Bytes :=
  let lc := if best_len ≤ 17 then best_len - MIN_MATCH else 15
  let code := (best_off - 1) ||| (lc <<< 12)
  leBytes 2 code ++ if 17 < best_len then [UInt8.ofNat (best_len - 18)] else []

/-- What the loop of the compressor carries: `flags_pos` is where the byte of flags of the group
is to go, `nflags` counts the tokens of the group. -/
structure Packer where
  out : Bytes
  flags_pos : ℕ
  flags : ℕ
  nflags : ℕ
  pos : ℕ
  chains : Chains

namespace Packer

/-- The byte of flags is kept free where a group begins. -/
def openGroup (s : Packer) : Packer :=
  if s.nflags = 0 then { s with flags_pos := s.out.length, out := s.out ++ [0], flags := 0 } else s

def nextToken (input : Bytes) (s : Packer) : Token UInt8 :=
  let (best_len, best_off) := bestMatch input s.chains s.pos
  if MIN_MATCH ≤ best_len then .copy best_off best_len else .lit (input.getD s.pos 0)

def putToken (input : Bytes) (s : Packer) : Packer :=
  match s.nextToken input with
  | .copy best_off best_len =>
    { s with
      out := s.out ++ matchCode best_len best_off
      chains := s.chains.insertRun input s.pos best_len
      pos := s.pos + best_len }
  | .lit b =>
    { s with
      flags := s.flags ||| 1 <<< s.nflags
      out := s.out ++ [b]
      chains := s.chains.insert input s.pos
      pos := s.pos + 1 }

/-- The byte of flags is filled in when the group is full. -/
def closeGroup (s : Packer) : Packer :=
  if s.nflags + 1 = 8 then
    { s with out := s.out.set s.flags_pos (UInt8.ofNat s.flags), nflags := 0 }
  else { s with nflags := s.nflags + 1 }

/-- One round of the loop. -/
def step (input : Bytes) (s : Packer) : Packer := ((s.openGroup).putToken input).closeGroup

/-- The loop; each round goes on by a byte at least. -/
def run (input : Bytes) : ℕ → Packer → Packer
  | 0, s => s
  | k + 1, s => if s.pos < input.length then run input k (s.step input) else s

/-- Closes the last group. -/
def finish (s : Packer) : Bytes :=
  if 0 < s.nflags then s.out.set s.flags_pos (UInt8.ofNat s.flags) else s.out

def start (input : Bytes) : Packer where
  out := putVarint input.length
  flags_pos := 0
  flags := 0
  nflags := 0
  pos := 0
  chains := ⟨List.replicate HASH_SIZE (-1), List.replicate input.length (-1)⟩

end Packer

def lzCompress (input : Bytes) : Bytes := ((Packer.start input).run input input.length).finish

/-! ### Decompression -/

/-- A literal, or the code of a match, and the position after it. -/
def readToken (data : Bytes) (literal : Bool) (pos : ℕ) : Option (Token UInt8 × ℕ) :=
  if literal then do
    let b ← data[pos]?
    some (.lit b, pos + 1)
  else do
    let b₀ ← data[pos]?
    let b₁ ← data[pos + 1]?
    let code := leNat [b₀, b₁]
    let off := (code &&& 0x0FFF) + 1
    let lc := code >>> 12
    if lc < 15 then some (.copy off (lc + MIN_MATCH), pos + 2)
    else do
      let extra ← data[pos + 2]?
      some (.copy off (18 + extra.toNat), pos + 3)

/-- The tokens of a group. The first argument counts the bits left, the third is the bit. -/
def readGroup (data : Bytes) (n ctrl : ℕ) : ℕ → ℕ → Bytes × ℕ → Option (Bytes × ℕ)
  | 0, _, s => some s
  | k + 1, bit, (out, pos) =>
    if out.length < n then do
      let (tok, pos) ← readToken data (ctrl.testBit bit) pos
      let out ← write out tok
      readGroup data n ctrl k (bit + 1) (out, pos)
    else some (out, pos)

/-- The groups. Each takes a byte at least, so one more round than there are bytes is enough. -/
def readGroups (data : Bytes) (n : ℕ) : ℕ → Bytes × ℕ → Option Bytes
  | 0, _ => none
  | k + 1, (out, pos) =>
    if out.length < n then do
      let ctrl ← data[pos]?
      let s ← readGroup data n ctrl.toNat 8 0 (out, pos + 1)
      readGroups data n k s
    else if out.length = n then some out
    else none

def lzDecompress (data : Bytes) : Option Bytes := do
  let (n, pos) ← takeVarint data 0
  readGroups data n (data.length + 1) ([], pos)

end Arkeion.Lzss
