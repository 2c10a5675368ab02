import Arkeion.BtreeDiff
import Arkeion.RecordSpec
import Arkeion.TableDef
import Mathlib.Data.List.Dedup
import Mathlib.Data.List.Sort

/-!
Reading the rows of a table: whole, for the executor, and one after the other in only some
columns, for a streaming answer.

Columns a record does not have were added later and read as their default; the alias of the
rowid is taken from the key.
-/

namespace Arkeion

open Arkeion.Lib

namespace Catalog

open Btree NodeSource

abbrev Row := List Value

/-! ### Whole rows -/

/-- What a row that is older than the column holds in it. -/
def ColumnDef.fill (c : ColumnDef) : Value := c.default.getD .null

def finishRow (d : TableDef) (rowid : Int64) (values : Row) : Result Row :=
  if d.columns.length < values.length then
    .error (.corruptRecord "la fila tiene más columnas que el esquema")
  else
    let values := values ++ (d.columns.drop values.length).map ColumnDef.fill
    .ok (match d.rowid_alias with
      | none => values
      | some i => values.set i (.integer rowid))

def rowidOf (key : Bytes) : Result Int64 := do
  let (_, rowid) ← okOr (decodeRowKey key) (.corruptRecord "clave de fila mal formada")
  .ok rowid

section Scan
variable {σ : Type} [NodeSource σ]

/-- One entry of the scan of a table; `none` behind the last row. -/
def scanStep (d : TableDef) (entry : Bytes × Bytes) (rows : List (Int64 × Row)) :
    Result (Option (List (Int64 × Row))) :=
  if ¬ rowPrefix d.table_id <+: entry.1 then .ok none
  else do
    let rowid ← rowidOf entry.1
    let values ← decodeValues entry.2
    let values ← finishRow d rowid values
    .ok (some (rows ++ [(rowid, values)]))

def scanTable (s : σ) (n root : ℕ) (d : TableDef) : Result (List (Int64 × Row)) :=
  forScan s n root (some (rowPrefix d.table_id)) (scanStep d) []

def getRow (s : σ) (n root : ℕ) (d : TableDef) (rowid : Int64) : Result (Option Row) := do
  let record ← Btree.get s n root (rowKey d.table_id rowid)
  match record with
  | none => .ok none
  | some bytes => do
    let values ← decodeValues bytes
    let values ← finishRow d rowid values
    .ok (some values)

end Scan

/-! ### Rows in only some columns -/

/-- Where a column of the answer comes from. A column that is not the alias of the rowid has a
position among those decoded, and is moved out of there by the last slot that uses it. -/
inductive Slot where
  | rowid
  | stored (pos col : ℕ) (last_use : Bool)
  deriving DecidableEq, Repr

structure ScanProjection where
  stored : List ℕ
  slots : List Slot
  deriving DecidableEq, Repr

namespace ScanProjection

/-- The columns to decode, rising. -/
def storedOf (d : TableDef) (cols : List ℕ) : List ℕ :=
  ((cols.filter fun c => d.rowid_alias != some c).insertionSort (· ≤ ·)).dedup

def slotsOf (d : TableDef) (stored : List ℕ) : List ℕ → List Slot
  | [] => []
  | c :: cols =>
    (if d.rowid_alias = some c then .rowid
      else .stored (stored.idxOf c) c (decide (c ∉ cols))) :: slotsOf d stored cols

def new (d : TableDef) (cols : List ℕ) : ScanProjection :=
  ⟨storedOf d cols, slotsOf d (storedOf d cols) cols⟩

end ScanProjection

/-- The values of the slots, taken or copied from the columns decoded. -/
def fillSlots (d : TableDef) (rowid : Int64) : List Slot → List (Option Value) → Result Row
  | [], _ => .ok []
  | .rowid :: slots, scratch => do
    let rest ← fillSlots d rowid slots scratch
    .ok (.integer rowid :: rest)
  | .stored pos col last_use :: slots, scratch => do
    let v ← okOr scratch[pos]? (.panic "index out of bounds")
    let c ← okOr d.columns[col]? (.panic "index out of bounds")
    let rest ← fillSlots d rowid slots (if last_use then scratch.set pos none else scratch)
    .ok (v.getD c.fill :: rest)

structure ScanState where
  cur : CursorState
  prefix_ : Bytes
  done : Bool
  deriving DecidableEq, Repr

namespace ScanState

section Stream
variable {σ : Type} [NodeSource σ]

def start (s : σ) (n root : ℕ) (d : TableDef) : Result ScanState := do
  let cur ← scanState s n root (some (rowPrefix d.table_id))
  .ok ⟨cur, rowPrefix d.table_id, false⟩

/-- The rowid and the decoded columns of an entry; `none` behind the last row. -/
def view (prefix_ : Bytes) (proj : ScanProjection) (entry : Bytes × Bytes) :
    Result (Option (Int64 × List (Option Value))) :=
  if ¬ prefix_ <+: entry.1 then .ok none
  else do
    let rowid ← rowidOf entry.1
    let scratch ← decodeColsSorted entry.2 proj.stored
    .ok (some (rowid, scratch))

/-- The next row and the state behind it; `none` at the end of the scan. -/
def nextInto (s : σ) (n : ℕ) (d : TableDef) (proj : ScanProjection) (st : ScanState) :
    Result (Option Row × ScanState) :=
  if st.done then .ok (none, st)
  else do
    let next ← advance s n n st.cur
    match next with
    | none => .ok (none, { st with done := true })
    | some (entry, cur) => do
      let seen ← view st.prefix_ proj entry
      match seen with
      | none => .ok (none, { st with cur := cur, done := true })
      | some (rowid, scratch) => do
        let out ← fillSlots d rowid proj.slots scratch
        .ok (some out, { st with cur := cur })

end Stream

end ScanState

end Catalog

end Arkeion
