import Arkeion.Record
import Mathlib.Data.Nat.Size

/-!
The codes of values in the keys of indexes and rows.

A code begins with a byte for presence, so that `NULL` comes first. Numbers have their sign bit
turned, strings are escaped and terminated, and the integers of row keys say how long they are.
The bytes of all codes compare as the values do.
-/

namespace Arkeion

open Arkeion.Lib

/-- All bits of a negative number are turned, otherwise the sign bit is set. -/
def F64.transformed (f : F64) : UInt64 := if f.bits &&& SIGN ≠ 0 then ~~~f.bits else f.bits ||| SIGN

def realBe (f : F64) : Bytes := beBytes 8 f.transformed.toNat

def escapeByte (byte : UInt8) : Bytes := if byte = 0 then [byte, 0xFF] else [byte]

def encodeBytes (b : Bytes) : Bytes := b.flatMap escapeByte ++ [0x00, 0x00]

def encodeIndexValue : Value → Bytes
  | .null => [0x00]
  | .integer n => 0x01 :: rowidBe n
  | .real f => 0x01 :: realBe f
  | .bool b => [0x01, if b then 1 else 0]
  | .text s => 0x01 :: encodeBytes (utf8 s)
  | .blob b => 0x01 :: encodeBytes b

def encodeTextPrefix (s : String) : Bytes := 0x01 :: (utf8 s).flatMap escapeByte

def leadingZeros (u : UInt64) : ℕ := 64 - u.toNat.size

/-- The number of bytes that are not leading zeros. -/
def ointLen (u : UInt64) : ℕ := 8 - leadingZeros u / 8

def encodeOint (v : Int64) : Bytes :=
  if 0 ≤ v then
    let u := v.toUInt64
    (0x80 ||| UInt8.ofNat (ointLen u)) :: (beBytes 8 u.toNat).drop (8 - ointLen u)
  else
    let c := ~~~v.toUInt64
    (0x7F - UInt8.ofNat (ointLen c)) :: ((beBytes 8 c.toNat).drop (8 - ointLen c)).map fun b => ~~~b

/-- The bytes the header announces. -/
def ointBytes (buf : Bytes) (pos nbytes : ℕ) : Option Bytes :=
  if 8 < nbytes then none else slice? buf pos nbytes

/-- The number in the last bytes of eight, the others being zero. -/
def ointNumber (bytes : Bytes) : UInt64 :=
  UInt64.ofNat (beNat (List.replicate (8 - bytes.length) 0 ++ bytes))

/-- The integer at a position, with the position behind it. -/
def decodeOint (buf : Bytes) (pos : ℕ) : Option (Int64 × ℕ) := do
  let header ← buf[pos]?
  if 0x80 ≤ header then do
    let nbytes := (header - 0x80).toNat
    let bytes ← ointBytes buf (pos + 1) nbytes
    some ((ointNumber bytes).toInt64, pos + 1 + nbytes)
  else do
    let nbytes := (0x7F - header).toNat
    let bytes ← ointBytes buf (pos + 1) nbytes
    some ((~~~ointNumber (bytes.map fun b => ~~~b)).toInt64, pos + 1 + nbytes)

end Arkeion
