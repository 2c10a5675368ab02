import Arkeion.Fts.Index
import Arkeion.Fts.MinWindow
import Arkeion.Sql.Resolve
import Mathlib.Data.List.Destutter

/-!
Searching the text of rows, in the index and in a row.

The index is read by the term: its cells, one for a row, with the positions in their values. A row
is matched by its words. The maps and sets of the source are lists here, of which only the members
count; what is read off them is sorted and without repetitions.
-/

namespace Arkeion

open Arkeion.Lib

namespace Catalog

/-! ### The values of cells -/

/-- The positions of a column, each by its gap to the one before. -/
def takeGaps (val : Bytes) (field : UInt8) :
    ℕ → ℕ → UInt32 → Result (List (UInt8 × UInt32) × ℕ)
  | 0, pos, _ => .ok ([], pos)
  | count + 1, pos, abs => do
    let (d, pos) ← okOr (takeVarint val pos) (.corruptRecord "pos en posting FTS")
    let abs := abs + UInt32.ofNat d
    let (rest, pos) ← takeGaps val field count pos abs
    .ok ((field, abs) :: rest, pos)

/-- The loop over the columns. -/
def decodePostingFrom (val : Bytes) : ℕ → ℕ → Result (List (UInt8 × UInt32))
  | 0, _ => .error .outOfFuel
  | n + 1, pos =>
    if pos < val.length then do
      let field ← okOr val[pos]? (.corruptRecord "field en posting FTS")
      let (count, pos) ← okOr (takeVarint val (pos + 1)) (.corruptRecord "count en posting FTS")
      let (here, pos) ← takeGaps val field count pos 0
      let rest ← decodePostingFrom val n pos
      .ok (here ++ rest)
    else .ok []

/-- The columns and positions of a cell. Every turn of the loop reads a byte at least. -/
def decodePostingValue (val : Bytes) : Result (List (UInt8 × UInt32)) :=
  decodePostingFrom val (val.length + 1) 0

/-! ### The cells of terms -/

/-- A place of a term: the row, the column and the position. -/
abbrev Posting := Int64 × UInt8 × UInt32

def postingRowid (key : Bytes) (plen : ℕ) : Result Int64 := do
  let (rid, _) ← okOr (decodeOint key plen) (.corruptRecord "rowid en posting FTS")
  .ok rid

def expandPostings (plen : ℕ) : List (Bytes × Bytes) → Result (List Posting)
  | [] => .ok []
  | (key, val) :: kvs => do
    let rid ← postingRowid key plen
    let here ← decodePostingValue val
    let rest ← expandPostings plen kvs
    .ok (here.map (fun p => (rid, p)) ++ rest)

def scanTermPostings (fts_id term_id : UInt32) : TreeM (List Posting) := do
  let p := ftsTermPostingPrefix fts_id term_id
  let kvs ← MapProgram.readFrom p
  expandPostings p.length (kvs.takeWhile fun kv => decide (p <+: kv.1))

def ftsTermPostings (fts_id : UInt32) (term : String) : TreeM (List Posting) := do
  let id ← ftsLookupTermId fts_id term
  match id with
  | some id => scanTermPostings fts_id id
  | none => pure []

def dictIds : List (Bytes × Bytes) → Result (List UInt32)
  | [] => .ok []
  | (_, val) :: kvs => do
    let id ← u32OfBytes beNat "term_id en diccionario FTS" val
    let ids ← dictIds kvs
    .ok (id :: ids)

def scanIds (fts_id : UInt32) : List UInt32 → TreeM (List Posting)
  | [] => pure []
  | id :: ids => do
    let here ← scanTermPostings fts_id id
    let rest ← scanIds fts_id ids
    pure (here ++ rest)

/-- The terms of the dictionary that begin with a text, and then their cells. -/
def ftsPrefixPostings (fts_id : UInt32) (prefix_text : String) : TreeM (List Posting) := do
  let p := ftsSubPrefix fts_id FTS_TERM_DICT ++ encodeTextPrefix prefix_text
  let kvs ← MapProgram.readFrom p
  let ids ← dictIds (kvs.takeWhile fun kv => decide (p <+: kv.1))
  scanIds fts_id ids

/-! ### Rows by their postings -/

/-- `sort_unstable` and `dedup`. -/
def sortDedup (ids : List Int64) : List Int64 :=
  (ids.mergeSort fun a b => decide (a ≤ b)).destutter (· ≠ ·)

/-- Whether a column is the one a filter asks for. -/
def inField (field : Option UInt8) (f : UInt8) : Bool := field.all fun ff => f == ff

def distinctRowids (postings : List Posting) (field : Option UInt8) : List Int64 :=
  sortDedup ((postings.filter fun p => inField field p.2.1).map Prod.fst)

/-- `fts_term_rowids`: a row once for each of its cells. -/
def ftsTermRowids (fts_id : UInt32) (term : String) : TreeM (List Int64) := do
  let id ← ftsLookupTermId fts_id term
  match id with
  | none => pure []
  | some id => do
    let p := ftsTermPostingPrefix fts_id id
    let kvs ← MapProgram.readFrom p
    let rids ← (kvs.takeWhile fun kv => decide (p <+: kv.1)).mapM fun kv =>
      postingRowid kv.1 p.length
    pure (rids.destutter (· ≠ ·))

/-- The position `k + 1` places behind one. -/
def wantAt (pos : UInt32) (k : ℕ) : Option UInt32 :=
  if pos.toNat + (k + 1) < 2 ^ 32 then some (pos + UInt32.ofNat (k + 1)) else none

/-- Whether each of the sets has the place that the one before asks for. -/
def phraseAt (rest : List (List Posting)) (p : Posting) : Bool :=
  rest.zipIdx.all fun s => (wantAt p.2.2 s.2).any fun want => s.1.contains (p.1, p.2.1, want)

def termPostingsAll (fts_id : UInt32) : List String → TreeM (List (List Posting))
  | [] => pure []
  | t :: ts => do
    let here ← ftsTermPostings fts_id t
    let rest ← termPostingsAll fts_id ts
    pure (here :: rest)

/-- The rows in which the words stand behind one another. -/
def phraseRowids (fts_id : UInt32) (tokens : List String) (field : Option UInt8) :
    TreeM (List Int64) :=
  match tokens with
  | [] => pure []
  | [t] => do
    let p ← ftsTermPostings fts_id t
    pure (distinctRowids p field)
  | t :: ts => do
    let first ← ftsTermPostings fts_id t
    let rest ← termPostingsAll fts_id ts
    pure (sortDedup ((first.filter fun p => inField field p.2.1 && phraseAt rest p).map Prod.fst))

/-- The positions in a column of a row. -/
def positionsAt (key : Int64 × UInt8) (postings : List Posting) : List ℕ :=
  (postings.filter fun p => p.1 == key.1 && p.2.1 == key.2).map fun p => p.2.2.toNat

/-- The rows and columns that have all words in a window. -/
def nearHits (per_token : List (List Posting)) (distance : ℕ) :
    List (Int64 × UInt8) → Result (List Int64)
  | [] => .ok []
  | key :: keys => do
    let groups := per_token.map (positionsAt key)
    let hit ← if groups.tail.all fun g => !g.isEmpty then do
        let span ← Fts.minWindowSpan groups
        .ok (span.any fun s => decide (s ≤ distance))
      else .ok false
    let rest ← nearHits per_token distance keys
    .ok (if hit then key.1 :: rest else rest)

def nearRowids (fts_id : UInt32) (tokens : List String) (distance : ℕ) (field : Option UInt8) :
    TreeM (List Int64) :=
  match tokens with
  | [] | [_] => pure []
  | t :: ts => do
    let first ← ftsTermPostings fts_id t
    let rest ← termPostingsAll fts_id ts
    let per_token := (first :: rest).map fun ps => ps.filter fun p => inField field p.2.1
    let keys := ((first.filter fun p => inField field p.2.1).map fun p => (p.1, p.2.1)).dedup
    let hits ← nearHits per_token distance keys
    pure (sortDedup hits)

/-! ### Queries -/

def tokenizeAll (tk : String → List Token) (text : String) : List String := (tk text).map Token.text

section Query
variable (tk : String → List Token) (d : TableDef) (fts : FtsIndexDef)

/-- A word of a query; one that is several tokens is a phrase. -/
def termRowids (text : String) (prefix_ : Bool) (field : Option UInt8) : TreeM (List Int64) :=
  match tokenizeAll tk text with
  | [] => pure []
  | [t] => do
    let p ← if prefix_ then ftsPrefixPostings fts.fts_id t else ftsTermPostings fts.fts_id t
    pure (distinctRowids p field)
  | ts => phraseRowids fts.fts_id ts field

/-- `eval_query`, its words included. -/
def ftsEvalQuery : Fts.Query → Option UInt8 → TreeM (List Int64)
  | .term text prefix_, field => termRowids tk fts text prefix_ field
  | .phrase words, field => phraseRowids fts.fts_id (words.flatMap (tokenizeAll tk)) field
  | .near terms distance, field =>
    nearRowids fts.fts_id (terms.flatMap (tokenizeAll tk)) distance field
  | .column column query, _ => do
    let pos ← okOr (d.named column) (.sql s!"columna «{column}» desconocida en filtro MATCH")
    require (pos ∈ fts.columns) (.sql s!"la columna «{column}» no está en el índice FTS")
    ftsEvalQuery query (some (UInt8.ofNat pos))
  | .and a b, field => do
    let ra ← ftsEvalQuery a field
    let rb ← ftsEvalQuery b field
    pure (Sql.intersectSorted ra rb)
  | .or a b, field => do
    let ra ← ftsEvalQuery a field
    let rb ← ftsEvalQuery b field
    pure (Sql.unionSorted ra rb)
  | .not a b, field => do
    let ra ← ftsEvalQuery a field
    let rb ← ftsEvalQuery b field
    pure (Sql.differenceSorted ra rb)

end Query

/-- The rowids that match a query. -/
def ftsSearch (tokenize : String → String → List Token) (d : TableDef) (fts : FtsIndexDef)
    (query : Fts.Query) : TreeM (List Int64) := do
  let tk ← tokenizerFor tokenize fts.tokenizer
  ftsEvalQuery tk d fts query none

/-! ### A row on its own -/

/-- The words of a row, each with its column and position. -/
abbrev Doc := List (String × UInt8 × UInt32)

/-- Whether a word is the term, or begins with it. -/
def wordIs (prefix_ : Bool) (term t : String) : Bool :=
  if prefix_ then term.toList.isPrefixOf t.toList else t == term

def docHasTerm (doc : Doc) (term : String) (prefix_ : Bool) (field : Option UInt8) : Bool :=
  doc.any fun w => inField field w.2.1 && wordIs prefix_ term w.1

def docHasPhrase (doc : Doc) (tokens : List String) (field : Option UInt8) : Bool :=
  match tokens with
  | [] => false
  | [t] => docHasTerm doc t false field
  | t :: ts => doc.any fun w => w.1 == t && inField field w.2.1 &&
      ts.zipIdx.all fun s => (wantAt w.2.2 s.2).any fun want => doc.contains (s.1, w.2.1, want)

def docPositions (doc : Doc) (f : UInt8) (term : String) : List ℕ :=
  (doc.filter fun w => w.1 == term && w.2.1 == f).map fun w => w.2.2.toNat

/-- Whether one of the columns has all words in a window. -/
def nearInFields (doc : Doc) (tokens : List String) (distance : ℕ) : List UInt8 → Result Bool
  | [] => .ok false
  | f :: fields => do
    let span ← Fts.minWindowSpan (tokens.map (docPositions doc f))
    if span.any fun s => decide (s ≤ distance) then .ok true
    else nearInFields doc tokens distance fields

def docHasNear (doc : Doc) (tokens : List String) (distance : ℕ) (field : Option UInt8) :
    Result Bool :=
  if tokens.length < 2 then .ok false
  else nearInFields doc tokens distance
    (((doc.map fun w => w.2.1).filter (inField field)).mergeSort.destutter (· ≠ ·))

section Query
variable (tk : String → List Token)

def docMatchesTerm (doc : Doc) (text : String) (prefix_ : Bool) (field : Option UInt8) : Bool :=
  match tokenizeAll tk text with
  | [] => false
  | [t] => docHasTerm doc t prefix_ field
  | ts => docHasPhrase doc ts field

/-- `eval_doc`, its words included. -/
def ftsEvalDoc (doc : Doc) (columns : List (String × UInt8)) :
    Fts.Query → Option UInt8 → Result Bool
  | .term text prefix_, field => .ok (docMatchesTerm tk doc text prefix_ field)
  | .phrase words, field => .ok (docHasPhrase doc (words.flatMap (tokenizeAll tk)) field)
  | .near terms distance, field =>
    docHasNear doc (terms.flatMap (tokenizeAll tk)) distance field
  | .column column query, _ => do
    let f ← okOr (columns.find? fun c => c.1 == column)
      (.sql s!"la columna «{column}» no está en el índice FTS")
    ftsEvalDoc doc columns query (some f.2)
  | .and a b, field => do
    let ra ← ftsEvalDoc doc columns a field
    if ra then ftsEvalDoc doc columns b field else .ok false
  | .or a b, field => do
    let ra ← ftsEvalDoc doc columns a field
    if ra then .ok true else ftsEvalDoc doc columns b field
  | .not a b, field => do
    let ra ← ftsEvalDoc doc columns a field
    if ra then do
      let rb ← ftsEvalDoc doc columns b field
      .ok !rb
    else .ok false

/-- The words of a row in the columns of an index. -/
def docOf (row : List Value) (cols : List ℕ) : Doc :=
  cols.flatMap fun col => (row[col]?.elim [] (tokensOf tk)).map fun t =>
    (t.text, UInt8.ofNat col, t.position)

end Query

/-- Whether a row matches a query. -/
def ftsRowMatches (tokenize : String → String → List Token) (d : TableDef) (fts : FtsIndexDef)
    (row : List Value) (query : Fts.Query) : Result Bool := do
  let tk ← tokenizerFor tokenize fts.tokenizer
  let columns ← Sql.docColumns d fts.columns
  ftsEvalDoc tk (docOf tk row fts.columns) columns query none

end Catalog

end Arkeion
