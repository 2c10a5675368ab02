import Arkeion.Sql.Scalar
import Arkeion.TableWrite

/-!
Updating and deleting rows, with what the foreign keys of other tables do then: they forbid it, or
change or delete the rows that refer to the row.

The rows that are changed or deleted on its account have rows that refer to them in turn; the fuel
bounds how deep this goes.
-/

namespace Arkeion

open Arkeion.Lib

namespace Catalog

/-! ### Reading tables -/

def decodeTables : List (Bytes × Bytes) → Result (List TableDef)
  | [] => .ok []
  | (key, value) :: kvs => do
    let name ← okOr (fromUtf8 (key.drop 2)) (.corruptRecord "nombre de tabla no UTF-8")
    let d ← decodeDef name value
    let ds ← decodeTables kvs
    .ok (d :: ds)

/-- `list_tables`. -/
def listTables : TreeM (List TableDef) := do
  let kvs ← MapProgram.readFrom [KS_CATALOG, CAT_TABLE]
  decodeTables (kvs.takeWhile fun kv => decide ([KS_CATALOG, CAT_TABLE] <+: kv.1))

/-- `scan_table`, all of it. -/
def scanRows (d : TableDef) : TreeM (List (Int64 × Row)) := do
  let kvs ← MapProgram.readFrom (rowPrefix d.table_id)
  Btree.loopOver (scanStep d) kvs []

/-- The tables with a foreign key that refers to one, once for each such key. -/
def fkReferencing (parent_name : String) : TreeM (List (TableDef × ForeignKey)) := do
  let tables ← listTables
  pure (tables.flatMap fun t =>
    (t.foreign_keys.filter fun fk => fk.parent == parent_name).map fun fk => (t, fk))

/-- The row has the values in the columns of the foreign key. -/
def refersTo (fk : ForeignKey) (ref_vals : List Value) (row : Row) : Bool :=
  (fk.columns.zip ref_vals).all fun p => row[p.1]?.any fun v => Sql.Value.same v p.2

/-- The rows that refer to the values; none when one of these is `NULL`. -/
def fkChildrenMatching (child : TableDef) (fk : ForeignKey) (ref_vals : List Value) :
    TreeM (List (Int64 × Row)) :=
  if ref_vals.any fun v => v = .null then pure []
  else do
    let rows ← scanRows child
    pure (rows.filter fun r => refersTo fk ref_vals r.2)

/-- The values of some columns, which the row has. -/
def columnsOf (row : Row) : List ℕ → Result (List Value)
  | [] => .ok []
  | c :: cols => do
    let v ← okOr row[c]? (.panic "index out of bounds")
    let vs ← columnsOf row cols
    .ok (v :: vs)

/-- `vals[c] = v` for the columns of a foreign key. -/
def setColumns (row : Row) : List (ℕ × Value) → Result Row
  | [] => .ok row
  | (c, v) :: sets => do
    require (c < row.length) (.panic "index out of bounds")
    setColumns (row.set c v) sets

/-- The values the columns of a foreign key get. -/
def cascaded (fk : ForeignKey) (new_ref : List Value) : List (ℕ × Value) := fk.columns.zip new_ref

def nulled (fk : ForeignKey) : List (ℕ × Value) := fk.columns.map fun c => (c, .null)

/-! ### What the rows that refer to a row go through -/

section Children
variable (updateChild : TableDef → Int64 → Row → TreeM Unit)
  (deleteChild : TableDef → Int64 → TreeM Unit)

/-- Each row is written with the new values in the columns of the foreign key, over what it was
when all of them were looked up. -/
def updateHits (child : TableDef) (sets : List (ℕ × Value)) : List (Int64 × Row) → TreeM Unit
  | [] => pure ()
  | (id, vals) :: hits => do
    let vals ← setColumns vals sets
    updateChild child id vals
    updateHits child sets hits

def deleteHits (child : TableDef) : List (Int64 × Row) → TreeM Unit
  | [] => pure ()
  | (id, _) :: hits => do
    deleteChild child id
    deleteHits child hits

/-- The values a foreign key refers to, in a row that may not be there. -/
def referenced (fk : ForeignKey) (rowid : Int64) (row : Option Row) :
    Result (Option (List Value)) :=
  if fk.parent_columns = [] then .ok (some [.integer rowid])
  else match row with
    | none => .ok none
    | some row => do
      let vs ← columnsOf row fk.parent_columns
      .ok (some vs)

def onDelete (rowid : Int64) (parent_row : Option Row) (child : TableDef) (fk : ForeignKey) :
    TreeM Unit := do
  let ref_vals ← referenced fk rowid parent_row
  match ref_vals with
  | none => pure ()
  | some ref_vals => do
    let hits ← fkChildrenMatching child fk ref_vals
    if hits = [] then pure ()
    else match fk.on_delete with
      | .restrict => liftM (.error (.constraint
          "violación de clave foránea: hay filas hijas (ON DELETE RESTRICT)") : Result Unit)
      | .cascade => deleteHits deleteChild child hits
      | .setNull => updateHits updateChild child (nulled fk) hits

def onDeleteAll (rowid : Int64) (parent_row : Option Row) :
    List (TableDef × ForeignKey) → TreeM Unit
  | [] => pure ()
  | (child, fk) :: refs => do
    onDelete updateChild deleteChild rowid parent_row child fk
    onDeleteAll rowid parent_row refs

/-- Before the row is written only whether it may be, and the other actions behind it. -/
def onUpdate (rowid : Int64) (old new : Row) (restrict_only : Bool) (child : TableDef)
    (fk : ForeignKey) : TreeM Unit := do
  let old_ref ← referenced fk rowid (some old)
  let new_ref ← referenced fk rowid (some new)
  if Sql.Row.same (old_ref.getD []) (new_ref.getD []) then pure ()
  else do
    let hits ← fkChildrenMatching child fk (old_ref.getD [])
    if hits = [] then pure ()
    else match fk.on_update with
      | .restrict => liftM (.error (.constraint
          "violación de clave foránea: hay filas hijas (ON UPDATE RESTRICT)") : Result Unit)
      | .cascade =>
        if restrict_only then pure ()
        else updateHits updateChild child (cascaded fk (new_ref.getD [])) hits
      | .setNull =>
        if restrict_only then pure () else updateHits updateChild child (nulled fk) hits

def onUpdateAll (rowid : Int64) (old new : Row) (restrict_only : Bool) :
    List (TableDef × ForeignKey) → TreeM Unit
  | [] => pure ()
  | (child, fk) :: refs => do
    onUpdate updateChild rowid old new restrict_only child fk
    onUpdateAll rowid old new restrict_only refs

end Children

/-! ### Updating and deleting -/

section Write
variable (M : VectorMath) (tokenize : String → String → List Token)

/-- `WriteTx::update_row`: whether the row was there. -/
def updateRow : ℕ → TableDef → Int64 → Row → TreeM Bool
  | 0, _, _, _ => liftM (.error .outOfFuel : Result Bool)
  | n + 1, d, rowid, values => do
    let updateChild := fun child id vals => do
      let _ ← updateRow n child id vals
      pure ()
    fkCheckParentsExist values d.foreign_keys
    let old ← readRow d rowid
    match old with
    | none => overwriteRow M tokenize d rowid values
    | some old => do
      let refs ← fkReferencing d.name
      onUpdateAll updateChild rowid old values true refs
      let ok ← overwriteRow M tokenize d rowid values
      if ok then do
        let refs ← fkReferencing d.name
        onUpdateAll updateChild rowid old values false refs
      pure ok

/-- `catalog::delete_row`. -/
def eraseRow (d : TableDef) (rowid : Int64) : TreeM Bool :=
  if d.indexes = [] ∧ d.fts_indexes = [] ∧ d.vector_indexes = [] then
    MapProgram.erase (rowKey d.table_id rowid)
  else do
    let bytes ← MapProgram.read (rowKey d.table_id rowid)
    match bytes with
    | none => pure false
    | some bytes => do
      let values ← decodeValues bytes
      let record ← finishRow d rowid values
      let _ ← MapProgram.erase (rowKey d.table_id rowid)
      deleteIndexEntries rowid record d.indexes
      applyFtsEntries tokenize rowid record false d.fts_indexes
      applyVectorEntries M rowid record false d.vector_indexes
      pure true

/-- `WriteTx::delete_row`: whether the row was there. The rows that refer to it come first. -/
def deleteRow : ℕ → TableDef → Int64 → TreeM Bool
  | 0, _, _ => liftM (.error .outOfFuel : Result Bool)
  | n + 1, d, rowid => do
    let updateChild := fun child id vals => do
      let _ ← updateRow M tokenize n child id vals
      pure ()
    let deleteChild := fun child id => do
      let _ ← deleteRow n child id
      pure ()
    let parent_row ← readRow d rowid
    let refs ← fkReferencing d.name
    onDeleteAll updateChild deleteChild rowid parent_row refs
    eraseRow M tokenize d rowid

end Write

end Catalog

end Arkeion
