import Arkeion.ChainItem

/-!
Values, the types of columns, and rowids as bytes.
-/

namespace Arkeion

open Arkeion.Lib

/-- A double, by its bits. -/
structure F64 where
  bits : UInt64
  deriving DecidableEq, Repr

inductive Value where
  | null
  | bool (b : Bool)
  | integer (n : Int64)
  | real (f : F64)
  | text (s : String)
  | blob (b : Bytes)
  deriving DecidableEq, Repr

inductive ColType where
  | integer
  | real
  | text
  | blob
  | boolean
  deriving DecidableEq, Repr

def SIGN : UInt64 := 0x8000000000000000

def rowidBe (rowid : Int64) : Bytes := beBytes 8 (rowid.toUInt64 ^^^ SIGN).toNat

def rowidFromBe (bytes : Bytes) : Option Int64 :=
  if bytes.length = 8 then some (UInt64.ofNat (beNat bytes) ^^^ SIGN).toInt64 else none

end Arkeion
