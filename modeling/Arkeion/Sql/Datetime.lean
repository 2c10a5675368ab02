import Arkeion.Lib.Bytes
import Arkeion.Lib.Calendar
import Arkeion.Lib.Decimal

/-!
Instants in milliseconds since 1970: from and to dates, as text, and read from RFC 3339.
-/

namespace Arkeion.Sql.Datetime

open Arkeion.Lib

/-! ### Days and dates -/

/-- Days since 1970-01-01. The divisions cut towards zero. -/
def daysFromCivil (y m d : ℤ) : ℤ :=
  let y := if m ≤ 2 then y - 1 else y
  let era := (if 0 ≤ y then y else y - 399).tdiv 400
  let yoe := y - era * 400
  let doy := (153 * (if 2 < m then m - 3 else m + 9) + 2).tdiv 5 + d - 1
  let doe := yoe * 365 + yoe.tdiv 4 - yoe.tdiv 100 + doy
  era * 146097 + doe - 719468

/-- `as u32` -/
def asU32 (n : ℤ) : ℕ := (n % 2 ^ 32).toNat

def civilFromDays (z : ℤ) : ℤ × ℕ × ℕ :=
  let z := z + 719468
  let era := (if 0 ≤ z then z else z - 146096).tdiv 146097
  let doe := z - era * 146097
  let yoe := (doe - doe.tdiv 1460 + doe.tdiv 36524 - doe.tdiv 146096).tdiv 365
  let y := yoe + era * 400
  let doy := doe - (365 * yoe + yoe.tdiv 4 - yoe.tdiv 100)
  let mp := (5 * doy + 2).tdiv 153
  let d := asU32 (doy - (153 * mp + 2).tdiv 5 + 1)
  let m := if mp < 10 then mp + 3 else mp - 9
  (y + (if m ≤ 2 then 1 else 0), asU32 m, d)

structure Parts where
  year : ℤ
  month : ℕ
  day : ℕ
  hour : ℕ
  min : ℕ
  sec : ℕ
  deriving DecidableEq, Repr

/-- Divided downwards, also before 1970. -/
def msToParts (ms : ℤ) : Parts :=
  let secs := ms / 1000
  let days := secs / 86400
  let tod := secs % 86400
  let (y, mo, d) := civilFromDays days
  ⟨y, mo, d, asU32 (tod.tdiv 3600), asU32 ((tod.tmod 3600).tdiv 60), asU32 (tod.tmod 60)⟩

/-! ### Text -/

/-- `{:0width}` of an integer: the sign counts, and comes before the zeros. -/
def fmtInt (width : ℕ) (n : ℤ) : List Char :=
  if n < 0 then '-' :: padded (width - 1) n.natAbs else padded width n.natAbs

/-- What a code stands for; one that is not known stays. -/
def strftimeCode (p : Parts) (c : Char) : List Char :=
  if c = 'Y' then fmtInt 4 p.year
  else if c = 'm' then padded 2 p.month
  else if c = 'd' then padded 2 p.day
  else if c = 'H' then padded 2 p.hour
  else if c = 'M' then padded 2 p.min
  else if c = 'S' then padded 2 p.sec
  else if c = 'j' then
    fmtInt 3 (daysFromCivil p.year p.month p.day - daysFromCivil p.year 1 1 + 1)
  else if c = '%' then ['%']
  else ['%', c]

def strftimeParts (p : Parts) : List Char → List Char
  | [] => []
  | '%' :: c :: fmt => strftimeCode p c ++ strftimeParts p fmt
  | c :: fmt => c :: strftimeParts p fmt

def strftime (fmt : List Char) (ms : ℤ) : List Char := strftimeParts (msToParts ms) fmt

/-! ### RFC 3339 -/

def byteDigit? (b : UInt8) : Option ℕ :=
  if 48 ≤ b.toNat ∧ b.toNat ≤ 57 then some (b.toNat - 48) else none

def parseNFrom : ℕ → Bytes → Option ℕ
  | n, [] => some n
  | n, b :: bs => (byteDigit? b).bind fun d => parseNFrom (n * 10 + d) bs

/-- The number of a field of digits. -/
def parseN (b : Bytes) : Option ℕ := parseNFrom 0 b

/-- The digits of a fraction: the milliseconds so far, how many digits they have, and what comes
after. Digits behind the third are skipped. -/
def fractionDigits : ℕ → ℕ → Bytes → ℕ × ℕ × Bytes
  | millis, digits, [] => (millis, digits, [])
  | millis, digits, b :: bs =>
    match byteDigit? b with
    | none => (millis, digits, b :: bs)
    | some d =>
      if digits < 3 then fractionDigits (millis * 10 + d) (digits + 1) bs
      else fractionDigits millis digits bs

/-- The milliseconds, and what comes after them. -/
def fraction : Bytes → Option (ℕ × Bytes)
  | 0x2E :: rest =>
    let (millis, digits, rest') := fractionDigits 0 0 rest
    if rest'.length = rest.length then none else some (millis * 10 ^ (3 - digits), rest')
  | rest => some (0, rest)

/-- The minutes of the zone, and what comes after it. -/
def zone : Bytes → Option (ℤ × Bytes)
  | [] => none
  | b :: rest =>
    if b = 0x5A ∨ b = 0x7A then some (0, rest)
    else if b = 0x2B ∨ b = 0x2D then
      if rest.length < 5 ∨ rest[2]? ≠ some 0x3A then none
      else do
        let oh ← parseN (rest.take 2)
        let om ← parseN ((rest.drop 3).take 2)
        if 23 < oh ∨ 59 < om then none
        else some ((if b = 0x2B then 1 else -1) * ((oh : ℤ) * 60 + om), rest.drop 5)
    else none

def parseRfc3339Ms (b : Bytes) : Option ℕ :=
  if b.length < 20 then none
  else if b[4]? ≠ some 0x2D ∨ b[7]? ≠ some 0x2D ∨ b[13]? ≠ some 0x3A ∨ b[16]? ≠ some 0x3A then none
  else if b[10]? ≠ some 0x54 ∧ b[10]? ≠ some 0x74 ∧ b[10]? ≠ some 0x20 then none
  else do
    let year ← parseN (b.take 4)
    let month ← parseN ((b.drop 5).take 2)
    let day ← parseN ((b.drop 8).take 2)
    let hour ← parseN ((b.drop 11).take 2)
    let min ← parseN ((b.drop 14).take 2)
    let sec ← parseN ((b.drop 17).take 2)
    if ¬ (1 ≤ month ∧ month ≤ 12) ∨ ¬ (1 ≤ day ∧ day ≤ 31) ∨ 23 < hour ∨ 59 < min ∨ 59 < sec then none
    else do
      let (millis, rest) ← fraction (b.drop 19)
      let (offset_min, rest) ← zone rest
      if rest ≠ [] then none
      else
        let days := daysFromCivil year month day
        let secs := days * 86400 + hour * 3600 + min * 60 + sec - offset_min * 60
        some (max (secs * 1000 + millis) 0).toNat

end Arkeion.Sql.Datetime
