import Arkeion.Error
import Arkeion.Format

/-!
The adaptive range coder behind `Densa`: a model of the frequencies of the bytes that learns from
symbol to symbol, and an interval of 32 bits that is narrowed and renormalised byte by byte.

Sums and products that leave their type are panics, as is a division by zero. The renormalisation
takes fuel, counted in bytes.
-/

namespace Arkeion.RangeCoder

open Arkeion.Lib

def RC_TOP : ℕ := 2 ^ 24
def RC_BOT : ℕ := 2 ^ 16
def RC_INC : ℕ := 24
def RC_MAX_TOTAL : ℕ := 2 ^ 15
def RC_MIN_INPUT : ℕ := 32

/-- `/` of the type `u32` -/
def div32 (a b : ℕ) : Result ℕ := do
  require (b ≠ 0) (.panic "attempt to divide by zero")
  .ok (a / b)

/-- `*` of the type `u32` -/
def mul32 (a b : ℕ) : Result ℕ := do
  require (a * b < 2 ^ 32) (.panic "attempt to multiply with overflow")
  .ok (a * b)

/-- `low.wrapping_add(x)` -/
def wrappingAdd (low x : ℕ) : ℕ := (low + x) % 2 ^ 32

/-- `code.wrapping_sub(low)` -/
def wrappingSub (code low : ℕ) : ℕ := (code + (2 ^ 32 - low)) % 2 ^ 32

/-! ### The model -/

structure RangeModel where
  freq : List ℕ
  total : ℕ
  deriving DecidableEq, Repr

namespace RangeModel

def new : RangeModel where
  freq := List.replicate 256 1
  total := 256

/-- What the symbols below have together. -/
def cum (m : RangeModel) (sym : ℕ) : ℕ := (m.freq.take sym).sum

/-- The symbol in whose interval the target lies, with where the interval begins and how long it
is. -/
def findFrom (target : ℕ) : List ℕ → ℕ → ℕ → Option (ℕ × ℕ × ℕ)
  | [], _, _ => none
  | f :: fs, s, cum =>
    if target < cum + f then some (s, cum, f) else findFrom target fs (s + 1) (cum + f)

def find (m : RangeModel) (target : ℕ) : ℕ × ℕ × ℕ :=
  match findFrom target m.freq 0 0 with
  | some found => found
  | none =>
    let last := m.freq.getD 255 0
    (255, m.total - last, last)

def update (m : RangeModel) (sym : ℕ) : Result RangeModel := do
  let f := m.freq.getD sym 0 + RC_INC
  require (f < 2 ^ 16) (.panic "attempt to add with overflow")
  let freq := m.freq.set sym f
  let total := m.total + RC_INC
  require (total < 2 ^ 32) (.panic "attempt to add with overflow")
  if RC_MAX_TOTAL ≤ total then
    let freq := freq.map fun f => f >>> 1 ||| 1
    .ok { freq := freq, total := freq.sum }
  else .ok { freq := freq, total := total }

end RangeModel

/-! ### The interval -/

structure Interval where
  low : ℕ
  range : ℕ
  deriving DecidableEq, Repr

namespace Interval

def start : Interval where
  low := 0
  range := 0xFFFFFFFF

/-- The part of the interval that a symbol has; `range` is the length of one unit of the model. -/
def narrow (i : Interval) (range cum freq : ℕ) : Result Interval := do
  let off ← mul32 cum range
  let range ← mul32 range freq
  .ok { low := wrappingAdd i.low off, range := range }

/-- The interval whose high byte is fixed, and none where it is not: then the interval is long
enough. A short one that straddles a high byte is cut where the high byte changes. -/
def settle (i : Interval) : Option Interval :=
  if i.low ^^^ wrappingAdd i.low i.range < RC_TOP then some i
  else if i.range < RC_BOT then some { i with range := wrappingSub 0 i.low &&& (RC_BOT - 1) }
  else none

/-- Without its high byte. -/
def shift (i : Interval) : Interval where
  low := (i.low <<< 8) % 2 ^ 32
  range := (i.range <<< 8) % 2 ^ 32

def highByte (low : ℕ) : UInt8 := UInt8.ofNat (low >>> 24)

end Interval

/-- What both sides have: the interval and the model. -/
structure Coder where
  interval : Interval
  model : RangeModel
  deriving DecidableEq, Repr

def Coder.start : Coder where
  interval := .start
  model := .new

/-! ### Compression -/

/-- The bytes that are pushed until the interval is long enough. -/
def pushBytes : ℕ → Interval → Result (Bytes × Interval)
  | 0, _ => .error .outOfFuel
  | k + 1, i =>
    match i.settle with
    | none => .ok ([], i)
    | some i => do
      let (out, i') ← pushBytes k i.shift
      .ok (Interval.highByte i.low :: out, i')

/-- The four bytes at the end. -/
def flush : ℕ → ℕ → Bytes
  | 0, _ => []
  | n + 1, low => Interval.highByte low :: flush n ((low <<< 8) % 2 ^ 32)

def encodeSymbol (k : ℕ) (c : Coder) (sym : ℕ) : Result (Bytes × Coder) := do
  let cum := c.model.cum sym
  let freq := c.model.freq.getD sym 0
  let range ← div32 c.interval.range c.model.total
  let i ← c.interval.narrow range cum freq
  let (out, i) ← pushBytes k i
  let model ← c.model.update sym
  .ok (out, ⟨i, model⟩)

def encodeSymbols (k : ℕ) : Coder → Bytes → Result Bytes
  | c, [] => .ok (flush 4 c.interval.low)
  | c, b :: input => do
    let (out, c) ← encodeSymbol k c b.toNat
    let rest ← encodeSymbols k c input
    .ok (out ++ rest)

def rcCompress (k : ℕ) (input : Bytes) : Result (Option Bytes) :=
  if input.length < RC_MIN_INPUT then .ok none
  else do
    let body ← encodeSymbols k .start input
    let out := putVarint input.length ++ body
    .ok (if out.length < input.length then some out else none)

/-! ### Decompression -/

/-- The next byte; zero behind the end. -/
def next (body : Bytes) (bp : ℕ) : ℕ := (body.getD bp 0).toNat

/-- `code` with the next byte. -/
def shiftCode (body : Bytes) (code bp : ℕ) : ℕ := (code <<< 8) % 2 ^ 32 ||| next body bp

/-- The bytes that are taken until the interval is long enough. -/
def pullBytes (body : Bytes) : ℕ → Interval → ℕ → ℕ → Result (Interval × ℕ × ℕ)
  | 0, _, _, _ => .error .outOfFuel
  | k + 1, i, code, bp =>
    match i.settle with
    | none => .ok (i, code, bp)
    | some i => pullBytes body k i.shift (shiftCode body code bp) (bp + 1)

def decodeSymbol (k : ℕ) (body : Bytes) (c : Coder) (code bp : ℕ) :
    Result (ℕ × Coder × ℕ × ℕ) := do
  let range ← div32 c.interval.range c.model.total
  let quotient ← div32 (wrappingSub code c.interval.low) range
  let target := min quotient (c.model.total - 1)
  let (sym, cum, freq) := c.model.find target
  let i ← c.interval.narrow range cum freq
  let (i, code, bp) ← pullBytes body k i code bp
  let model ← c.model.update sym
  .ok (sym, ⟨i, model⟩, code, bp)

/-- So many symbols. -/
def decodeSymbols (k : ℕ) (body : Bytes) : ℕ → Coder → ℕ → ℕ → Result Bytes
  | 0, _, _, _ => .ok []
  | n + 1, c, code, bp => do
    let (sym, c, code, bp) ← decodeSymbol k body c code bp
    let out ← decodeSymbols k body n c code bp
    .ok (UInt8.ofNat sym :: out)

def rcDecompress (k : ℕ) (data : Bytes) : Result (Option Bytes) :=
  match takeVarint data 0 with
  | none => .ok none
  | some (n, pos) => do
    let body := data.drop pos
    let code := (List.range 4).foldl (shiftCode body) 0
    let out ← decodeSymbols k body n .start code 4
    .ok (some out)

end Arkeion.RangeCoder
