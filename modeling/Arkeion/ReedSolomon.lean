import Arkeion.Lib.Bytes

/-!
Error correction: Reed-Solomon over the field of 256 elements, on blocks of 255 bytes at most.
A polynomial is the list of its coefficients, the highest one first.

Indices that the source computes into a list stay within it; a default stands for what is never
read.
-/

namespace Arkeion.ReedSolomon

open Arkeion.Lib

/-- `x^8 + x^4 + x^3 + x^2 + 1` -/
def PRIM : ℕ := 0x11D
def GEN : UInt8 := 2
def BLOCK : ℕ := 255

/-! ### The field -/

/-- The next power of the generator. -/
def double (x : ℕ) : ℕ :=
  let x := x <<< 1
  if x &&& 0x100 ≠ 0 then x ^^^ PRIM else x

/-- So many powers, from `x` on. -/
def powersFrom : ℕ → ℕ → List ℕ
  | 0, _ => []
  | n + 1, x => x :: powersFrom n (double x)

def powers : List ℕ := powersFrom 255 1

/-- The powers twice, so that the sum of two logarithms is an index. -/
def expTable : List UInt8 := (powers ++ powers ++ [0, 0]).map UInt8.ofNat

def logTable : List ℕ :=
  (powers.zipIdx).foldl (fun log p => log.set p.1 p.2) (List.replicate 256 0)

def exp (i : ℕ) : UInt8 := expTable.getD i 0

def log (a : UInt8) : ℕ := logTable.getD a.toNat 0

def mul (a b : UInt8) : UInt8 := if a = 0 ∨ b = 0 then 0 else exp (log a + log b)

/-- The divisor is not zero. -/
def div (a b : UInt8) : UInt8 :=
  if a = 0 then 0 else exp (((log a : ℤ) - log b) % 255).toNat

def inv (a : UInt8) : UInt8 := exp (255 - log a)

/-- A power of the generator, for any integer. -/
def pow (n : ℤ) : UInt8 := exp ((log GEN * n) % 255).toNat

/-! ### Polynomials -/

def polyScale (p : Bytes) (x : UInt8) : Bytes := p.map (mul · x)

/-- Adds to the first coefficients. -/
def xorFront : Bytes → Bytes → Bytes
  | out, [] => out
  | [], _ :: _ => []
  | a :: out, b :: bs => (a ^^^ b) :: xorFront out bs

def polyAdd (p q : Bytes) : Bytes :=
  let n := max p.length q.length
  let r := List.replicate (n - p.length) 0 ++ p
  xorFront r (List.replicate (n - q.length) 0 ++ q)

def polyMul (p q : Bytes) : Bytes :=
  q.zipIdx.foldl
    (fun r qj => r.take qj.2 ++ xorFront (r.drop qj.2) (p.map fun pi => mul pi qj.1))
    (List.replicate (p.length + q.length - 1) 0)

def polyEval (poly : Bytes) (x : UInt8) : UInt8 :=
  match poly with
  | [] => 0
  | y :: cs => cs.foldl (fun y c => mul y x ^^^ c) y

/-- The loop of the long division: the multiples of the divisor, whose first coefficient is one, are
taken off one after the other. -/
def divLoop (divisor : Bytes) : ℕ → Bytes → Bytes
  | 0, out => out
  | _ + 1, [] => []
  | n + 1, coef :: out =>
    coef :: divLoop divisor n
      (if coef = 0 then out else xorFront out (divisor.tail.map fun d => mul d coef))

/-- Quotient and remainder. -/
def polyDiv (dividend divisor : Bytes) : Bytes × Bytes :=
  let out := divLoop divisor (dividend.length - (divisor.length - 1)) dividend
  out.splitAt (out.length - (divisor.length - 1))

/-- The polynomial with the first powers of the generator as its roots. -/
def genPoly (nsym : ℕ) : Bytes :=
  (List.range nsym).foldl (fun g (i : ℕ) => polyMul g [1, pow (i : ℤ)]) [1]

/-! ### Blocks -/

def encodeBlock (data : Bytes) (nsym : ℕ) : Bytes :=
  (divLoop (genPoly nsym) data.length (data ++ List.replicate nsym 0)).drop data.length

/-- The syndromes, behind a zero. -/
def syndromes (codeword : Bytes) (nsym : ℕ) : Bytes :=
  0 :: (List.range nsym).map fun (i : ℕ) => polyEval codeword (pow (i : ℤ))

/-- What the loop of Berlekamp and Massey carries. -/
structure Locators where
  err_loc : Bytes
  old_loc : Bytes
  deriving DecidableEq, Repr

def Locators.discrepancy (s : Locators) (synd : Bytes) (k : ℕ) : UInt8 :=
  (List.range' 1 (s.err_loc.length - 1)).foldl
    (fun delta j =>
      delta ^^^ mul (s.err_loc.getD (s.err_loc.length - 1 - j) 0) (synd.getD (k - j) 0))
    (synd.getD k 0)

/-- One round; `k` is the place of the syndrome. -/
def Locators.step (synd : Bytes) (s : Locators) (k : ℕ) : Locators :=
  let delta := s.discrepancy synd k
  let old_loc := s.old_loc ++ [0]
  if delta = 0 then { s with old_loc := old_loc }
  else
    let t : Locators :=
      if s.err_loc.length < old_loc.length then
        { err_loc := polyScale old_loc delta, old_loc := polyScale s.err_loc (inv delta) }
      else { s with old_loc := old_loc }
    { t with err_loc := polyAdd t.err_loc (polyScale t.old_loc delta) }

def Locators.start : Locators where
  err_loc := [1]
  old_loc := [1]

/-- The locator of the errors; none where there are too many. -/
def errorLocator (synd : Bytes) (nsym : ℕ) : Option Bytes :=
  let synd_shift := synd.length - nsym
  let s := (List.range nsym).foldl (fun s i => s.step synd (i + synd_shift)) Locators.start
  let err_loc := s.err_loc.dropWhile (· == 0)
  let errs := err_loc.length - 1
  if nsym < errs * 2 then none else some err_loc

/-- The places of the errors; none where there are not as many as the degree says. -/
def errorPositions (err_loc : Bytes) (nmess : ℕ) : Option (List ℕ) :=
  let errs := err_loc.length - 1
  let pos := (List.range nmess).filter fun (p : ℕ) =>
    polyEval err_loc (pow (-((nmess - 1 - p : ℕ) : ℤ))) == 0
  if pos.length = errs then some pos else none

/-- The value of an error, by its place `i` in the list. -/
def magnitude (err_eval : Bytes) (xs : List UInt8) (i : ℕ) : UInt8 :=
  let xi := xs.getD i 0
  let xi_inv := inv xi
  let prime := (xs.zipIdx).foldl
    (fun prime xj => if xj.2 = i then prime else mul prime (1 ^^^ mul xi_inv xj.1)) 1
  div (mul xi (polyEval err_eval xi_inv)) prime

/-- Takes the errors off at the given places. -/
def correctErrata (msg synd : Bytes) (err_pos : List ℕ) : Bytes :=
  let coef_pos := err_pos.map fun p => msg.length - 1 - p
  let e_loc := coef_pos.foldl (fun e (i : ℕ) => polyMul e (polyAdd [1] [pow (i : ℤ), 0])) [1]
  let divisor := 1 :: List.replicate e_loc.length 0
  let err_eval := (polyDiv (polyMul synd.reverse e_loc) divisor).2
  let xs := coef_pos.map fun (p : ℕ) => pow (p : ℤ)
  err_pos.zipIdx.foldl (fun msg pi => msg.modify pi.1 (· ^^^ magnitude err_eval xs pi.2)) msg

/-- The data of a block, corrected. -/
def decodeBlock (data parity : Bytes) : Option Bytes := do
  let nsym := parity.length
  let msg := data ++ parity
  let synd := syndromes msg nsym
  if synd.all (· == 0) then some data
  else do
    let err_loc ← errorLocator synd nsym
    let err_pos ← errorPositions err_loc msg.length
    let msg := correctErrata msg synd err_pos
    if (syndromes msg nsym).any (· != 0) then none else some (msg.take data.length)

/-! ### Pages -/

def dataPerBlock (nsym : ℕ) : ℕ := BLOCK - nsym

/-- `a.div_ceil(b)` -/
def divCeil (a b : ℕ) : ℕ := (a + (b - 1)) / b

def parityLen (data_len nsym : ℕ) : ℕ := divCeil data_len (dataPerBlock nsym) * nsym

/-- `chunks(k)`; the first argument bounds their number. -/
def chunksOf (k : ℕ) : ℕ → Bytes → List Bytes
  | 0, _ => []
  | _ + 1, [] => []
  | n + 1, data@(_ :: _) => data.take k :: chunksOf k n (data.drop k)

def chunks (k : ℕ) (data : Bytes) : List Bytes := chunksOf k data.length data

def parity (data : Bytes) (nsym : ℕ) : Bytes :=
  (chunks (dataPerBlock nsym) data).flatMap fun block => encodeBlock block nsym

/-- The data of the blocks, corrected by the parity of each. -/
def correctBlocks (parity : Bytes) (nsym : ℕ) : List Bytes → ℕ → Option Bytes
  | [], _ => some []
  | block :: blocks, i => do
    let d ← decodeBlock block (sub parity (i * nsym) nsym)
    let rest ← correctBlocks parity nsym blocks (i + 1)
    some (d ++ rest)

def correct (data parity : Bytes) (nsym : ℕ) : Option Bytes :=
  let k := dataPerBlock nsym
  let nblocks := max (divCeil data.length k) 1
  if parity.length ≠ nblocks * nsym ∧ ¬ (data.isEmpty ∧ parity.isEmpty) then none
  else if data.isEmpty then some []
  else correctBlocks parity nsym (chunks k data) 0

end Arkeion.ReedSolomon
