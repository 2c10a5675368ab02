import Arkeion.TableDef
import Arkeion.TreeProgram
import Mathlib.Data.String.Basic

/-!
The inverted index of a full text search: one cell for a term in a row, with the positions in its
value, and beside the cells a dictionary of the terms and the statistics.

A row is put into the index or taken out of it on its own; an index that is created over rows that
are there is written as a whole.
-/

namespace Arkeion

open Arkeion.Lib

namespace Catalog

def addU64 (a b : ℕ) : Result ℕ := do
  require (a + b < 2 ^ 64) (.panic "attempt to add with overflow")
  .ok (a + b)

def addU32 (a b : UInt32) : Result UInt32 := do
  require (a.toNat + b.toNat < 2 ^ 32) (.panic "attempt to add with overflow")
  .ok (a + b)

/-! ### The words of a row -/

structure Token where
  text : String
  position : UInt32
  deriving DecidableEq, Repr

/-- `tokenizer_for`; the tokenizers themselves are functions of the name and the text. -/
def tokenizerFor (tokenize : String → String → List Token) (name : String) :
    Result (String → List Token) := do
  require (name = "unicode" ∨ name = "ascii")
    (.sql s!"tokenizer FTS desconocido: «{name}» (válidos: unicode, ascii)")
  .ok (tokenize name)

/-- The positions of a term in a row, by the column. -/
abbrev Fields := List (UInt8 × List UInt32)

/-- The positions of the terms of a row. -/
abbrev PerTerm := List (String × Fields)

/-- One more token of a column; the number is that of the tokens of the row. -/
def pushToken (col : ℕ) (st : PerTerm × ℕ) (token : Token) : Result (PerTerm × ℕ) := do
  let fields := (valueOf token.text st.1).getD []
  let positions := (valueOf (UInt8.ofNat col) fields).getD []
  let doclen ← addU64 st.2 1
  .ok (insertKey token.text (insertKey (UInt8.ofNat col) (positions ++ [token.position]) fields)
    st.1, doclen)

def tokensOf (tk : String → List Token) : Value → List Token
  | .text t => tk t
  | _ => []

section Row
variable (tk : String → List Token)

/-- The terms of a record, whose columns are there. -/
def groupRecord (record : List Value) : List ℕ → PerTerm × ℕ → Result (PerTerm × ℕ)
  | [], st => .ok st
  | col :: cols, st => do
    let v ← okOr record[col]? (.panic "index out of bounds")
    let st ← (tokensOf tk v).foldlM (pushToken col) st
    groupRecord record cols st

/-- The terms of a record, without those of columns that are not there. -/
def groupValues (values : List Value) : List ℕ → PerTerm × ℕ → Result (PerTerm × ℕ)
  | [], st => .ok st
  | col :: cols, st => do
    let st ← (values[col]?.elim [] (tokensOf tk)).foldlM (pushToken col) st
    groupValues values cols st

end Row

/-- The first position and then the gaps. -/
def encodePositions (prev : UInt32) : List UInt32 → Result Bytes
  | [] => .ok []
  | p :: positions => do
    require (prev ≤ p) (.panic "attempt to subtract with overflow")
    let rest ← encodePositions p positions
    .ok (putVarint (p - prev).toNat ++ rest)

def encodePostingValue : Fields → Result Bytes
  | [] => .ok []
  | (field, positions) :: fields => do
    let gaps ← encodePositions 0 positions
    let rest ← encodePostingValue fields
    .ok (field :: putVarint positions.length ++ gaps ++ rest)

/-! ### A row on its own -/

/-- What all keys of an index begin with. -/
def ftsIdPrefix (fts_id : UInt32) : Bytes := KS_FTS :: beBytes 4 fts_id.toNat

def u32OfBytes (decode : Bytes → ℕ) (what : String) (v : Bytes) : Result UInt32 := do
  require (v.length = 4) (.corruptRecord what)
  .ok (UInt32.ofNat (decode v))

def ftsLookupTermId (fts_id : UInt32) (term : String) : TreeM (Option UInt32) := do
  let v ← MapProgram.read (ftsTermDictKey fts_id term)
  match v with
  | some v => do
    let id ← u32OfBytes beNat "term_id en diccionario FTS" v
    pure (some id)
  | none => pure none

/-- The next number of a counter that begins with one. -/
def nextId (v : Option Bytes) (what : String) : Result UInt32 :=
  match v with
  | some v => u32OfBytes leNat what v
  | none => .ok 1

def ftsAllocTermId (fts_id : UInt32) (term : String) : TreeM UInt32 := do
  let id ← ftsLookupTermId fts_id term
  match id with
  | some id => pure id
  | none => do
    let v ← MapProgram.read (ftsTermCounterKey fts_id)
    let next ← nextId v "contador de términos FTS"
    let after ← addU32 next 1
    MapProgram.write (ftsTermCounterKey fts_id) (leBytes 4 after.toNat)
    MapProgram.write (ftsTermDictKey fts_id term) (beBytes 4 next.toNat)
    pure next

def ftsReadVarint (key : Bytes) : TreeM ℕ := do
  let v ← MapProgram.read key
  match v with
  | some v => do
    let (n, _) ← okOr (takeVarint v 0) (.corruptRecord "contador FTS varint")
    pure n
  | none => pure 0

/-- The numbers of rows and of tokens. -/
def ftsReadGlobal (fts_id : UInt32) : TreeM (ℕ × ℕ) := do
  let v ← MapProgram.read (ftsGlobalKey fts_id)
  match v with
  | some v => do
    let (n, pos) ← okOr (takeVarint v 0) (.corruptRecord "FTS global N")
    let (total, _) ← okOr (takeVarint v pos) (.corruptRecord "FTS global suma")
    pure (n, total)
  | none => pure (0, 0)

def adjusted (add : Bool) (cur delta : ℕ) : Result ℕ :=
  if add then addU64 cur delta else .ok (cur - delta)

def ftsAdjustVarint (key : Bytes) (add : Bool) (delta : ℕ) : TreeM Unit := do
  let cur ← ftsReadVarint key
  let new ← adjusted add cur delta
  if new = 0 then do
    let _ ← MapProgram.erase key
    pure ()
  else MapProgram.write key (putVarint new)

def ftsAdjustGlobal (fts_id : UInt32) (add : Bool) (doclen : ℕ) : TreeM Unit := do
  let (n, total) ← ftsReadGlobal fts_id
  let n ← adjusted add n 1
  let total ← adjusted add total doclen
  if n = 0 then do
    let _ ← MapProgram.erase (ftsGlobalKey fts_id)
    pure ()
  else MapProgram.write (ftsGlobalKey fts_id) (putVarint n ++ putVarint total)

/-- The cell of a term of a row. A term that is taken out and not in the dictionary has none. -/
def applyFtsCell (fts_id : UInt32) (rowid : Int64) (add : Bool) (term : String)
    (fields : Fields) : TreeM Unit :=
  if add then do
    let term_id ← ftsAllocTermId fts_id term
    let value ← encodePostingValue fields
    MapProgram.write (ftsPostingKey fts_id term_id rowid) value
  else do
    let term_id ← ftsLookupTermId fts_id term
    match term_id with
    | some term_id => do
      let _ ← MapProgram.erase (ftsPostingKey fts_id term_id rowid)
      pure ()
    | none => pure ()

def applyFtsTerm (fts_id : UInt32) (rowid : Int64) (add : Bool) (term : String)
    (fields : Fields) : TreeM Unit := do
  applyFtsCell fts_id rowid add term fields
  ftsAdjustVarint (ftsDfKey fts_id term) add 1

def applyFtsTerms (fts_id : UInt32) (rowid : Int64) (add : Bool) : PerTerm → TreeM Unit
  | [] => pure ()
  | (term, fields) :: per_term => do
    applyFtsTerm fts_id rowid add term fields
    applyFtsTerms fts_id rowid add per_term

/-- The number of tokens of a row; a row without any has none. -/
def applyDoclen (fts_id : UInt32) (rowid : Int64) (add : Bool) (doclen : ℕ) : TreeM Unit :=
  if add then
    if 0 < doclen then MapProgram.write (ftsDoclenKey fts_id rowid) (putVarint doclen)
    else pure ()
  else do
    let _ ← MapProgram.erase (ftsDoclenKey fts_id rowid)
    pure ()

section Index
variable (tokenize : String → String → List Token) (fts : FtsIndexDef)

/-- Puts a row into the index or takes it out. -/
def applyFtsRow (rowid : Int64) (record : List Value) (add : Bool) : TreeM Unit := do
  let tk ← tokenizerFor tokenize fts.tokenizer
  let (per_term, doclen) ← groupRecord tk record fts.columns ([], 0)
  applyFtsTerms fts.fts_id rowid add per_term
  applyDoclen fts.fts_id rowid add doclen
  ftsAdjustGlobal fts.fts_id add doclen

/-- Puts rows into the index one after the other. -/
def applyFtsRows : List (Int64 × List Value) → TreeM Unit
  | [] => pure ()
  | (rowid, record) :: rows => do
    applyFtsRow tokenize fts rowid record true
    applyFtsRows rows

/-! ### All rows at once -/

/-- What the rows so far come to: the terms with their numbers and the rows they are in, the
next number, the cells, and the number of tokens. -/
structure Backfill where
  dict : List (String × UInt32 × ℕ)
  next_id : UInt32
  entries : List (Bytes × Bytes)
  total : ℕ
  deriving DecidableEq, Repr

def Backfill.new : Backfill := ⟨[], 1, [], 0⟩

/-- The entry of a term, that of a new one being the next number. -/
def Backfill.entry (acc : Backfill) (term : String) : Result ((UInt32 × ℕ) × UInt32) :=
  match valueOf term acc.dict with
  | some entry => .ok (entry, acc.next_id)
  | none => do
    let next ← addU32 acc.next_id 1
    .ok ((acc.next_id, 0), next)

def backfillTerm (rowid : Int64) (acc : Backfill) (term : String) (fields : Fields) :
    Result Backfill := do
  let ((term_id, df), next_id) ← acc.entry term
  let df ← addU64 df 1
  let value ← encodePostingValue fields
  .ok { acc with
    dict := insertKey term (term_id, df) acc.dict
    next_id
    entries := acc.entries ++ [(ftsPostingKey fts.fts_id term_id rowid, value)] }

def backfillTerms (rowid : Int64) : PerTerm → Backfill → Result Backfill
  | [], acc => .ok acc
  | (term, fields) :: per_term, acc => do
    let acc ← backfillTerm fts rowid acc term fields
    backfillTerms rowid per_term acc

/-- A row, behind its terms. -/
def Backfill.finishRow (rowid : Int64) (doclen : ℕ) (acc : Backfill) : Result Backfill := do
  let total ← addU64 acc.total doclen
  .ok { acc with
    entries := acc.entries ++
      if 0 < doclen then [(ftsDoclenKey fts.fts_id rowid, putVarint doclen)] else []
    total }

def backfillRow (tk : String → List Token) (acc : Backfill) (rowid : Int64)
    (values : List Value) : Result Backfill := do
  let (per_term, doclen) ← groupValues tk values fts.columns ([], 0)
  let acc ← backfillTerms fts rowid per_term acc
  acc.finishRow fts rowid doclen

def backfillRows (tk : String → List Token) :
    List (Int64 × List Value) → Backfill → Result Backfill
  | [], acc => .ok acc
  | (rowid, values) :: rows, acc => do
    let acc ← backfillRow fts tk acc rowid values
    backfillRows tk rows acc

/-- The cells of a term of the dictionary. -/
def dictCells (entry : String × UInt32 × ℕ) : List (Bytes × Bytes) :=
  [(ftsTermDictKey fts.fts_id entry.1, beBytes 4 entry.2.1.toNat),
    (ftsDfKey fts.fts_id entry.1, putVarint entry.2.2)]

def counterCells (next_id : UInt32) : List (Bytes × Bytes) :=
  if 1 < next_id then [(ftsTermCounterKey fts.fts_id, leBytes 4 next_id.toNat)] else []

def globalCells (n total : ℕ) : List (Bytes × Bytes) :=
  if 0 < n then [(ftsGlobalKey fts.fts_id, putVarint n ++ putVarint total)] else []

/-- All cells of the index. The order in which the dictionary, a hash map, is gone through is
left open. -/
def Backfill.cells (order : List (String × UInt32 × ℕ) → List (String × UInt32 × ℕ))
    (acc : Backfill) (n : ℕ) : List (Bytes × Bytes) :=
  acc.entries ++ ((order acc.dict).flatMap (dictCells fts) ++
    (counterCells fts acc.next_id ++ globalCells fts n acc.total))

def writeCells : List (Bytes × Bytes) → TreeM Unit
  | [] => pure ()
  | (key, value) :: cells => do
    MapProgram.write key value
    writeCells cells

/-- The index over rows, written in the order of the keys. -/
def backfillFtsIndex (order : List (String × UInt32 × ℕ) → List (String × UInt32 × ℕ))
    (rows : List (Int64 × List Value)) : TreeM Unit := do
  let tk ← tokenizerFor tokenize fts.tokenizer
  let acc ← backfillRows fts tk rows Backfill.new
  writeCells ((acc.cells fts order rows.length).mergeSort fun a b => decide (a.1 ≤ b.1))

end Index

end Catalog

end Arkeion
