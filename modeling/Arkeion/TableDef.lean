import Arkeion.CatalogKeys
import Arkeion.Error
import Mathlib.Data.List.Nodup
import Mathlib.Data.List.Perm.Subperm

/-!
The definition of a table, and the statements that create and alter it.

The rows are stored by the physical positions of the columns, which never change; the logical
order is the one columns are shown in. A column that is dropped stays in both and is hidden.
-/

namespace Arkeion

open Arkeion.Lib

namespace Catalog

def MAX_NAME_LEN : ℕ := 128
def MAX_COLUMNS : ℕ := 255

structure ColumnDef where
  name : String
  col_type : ColType
  not_null : Bool
  default : Option Value
  dropped : Bool
  deriving DecidableEq, Repr

structure ColumnSpec where
  name : String
  col_type : ColType
  not_null : Bool
  primary_key : Bool
  default : Option Value
  deriving DecidableEq, Repr

structure FtsIndexDef where
  name : String
  fts_id : UInt32
  columns : List ℕ
  tokenizer : String
  deriving DecidableEq, Repr

inductive VectorMetric where
  | cosine
  | l2
  deriving DecidableEq, Repr

structure VectorIndexDef where
  name : String
  vidx_id : UInt32
  column : ℕ
  lists : UInt16
  metric : VectorMetric
  dim : UInt32
  nprobe : ℕ
  rerank_i8 : Bool
  deriving DecidableEq, Repr

inductive FkAction where
  | restrict
  | cascade
  | setNull
  deriving DecidableEq, Repr

/-- Without columns of the parent it refers to the rowid there. -/
structure ForeignKey where
  columns : List ℕ
  parent : String
  parent_columns : List ℕ
  on_delete : FkAction
  on_update : FkAction
  deriving DecidableEq, Repr

structure ForeignKeySpec where
  columns : List String
  parent : String
  parent_columns : List String
  on_delete : FkAction
  on_update : FkAction
  deriving DecidableEq, Repr

/-- A table. The alias of the rowid is one of its columns, and the logical order lists the
positions of all columns. -/
structure TableDef where
  name : String
  table_id : UInt32
  rowid_alias : Option ℕ
  columns : List ColumnDef
  indexes : List IndexDef
  fts_indexes : List FtsIndexDef
  vector_indexes : List VectorIndexDef
  logical_order : List ℕ
  foreign_keys : List ForeignKey
  checks : List String
  alias_lt : ∀ i, rowid_alias = some i → i < columns.length
  logical : logical_order.Perm (List.range columns.length)

namespace TableDef

variable (d : TableDef)

lemma logical_lt {i : ℕ} (h : i ∈ d.logical_order) : i < d.columns.length :=
  List.mem_range.1 (d.logical.mem_iff.1 h)

lemma mem_logical {i : ℕ} (h : i < d.columns.length) : i ∈ d.logical_order :=
  d.logical.mem_iff.2 (List.mem_range.2 h)

lemma logical_nodup : d.logical_order.Nodup := d.logical.nodup_iff.2 List.nodup_range

/-- The position of the column shown under a name. -/
def visible (name : String) : Option ℕ :=
  d.columns.findIdx? fun c => !c.dropped && c.name == name

/-- The position of the first column of a name, be it dropped or not. -/
def named (name : String) : Option ℕ := d.columns.findIdx? fun c => c.name == name

/-- The columns `*` stands for, in their order. -/
def shown : List ℕ := d.logical_order.filter fun i => d.columns[i]?.all fun c => !c.dropped

end TableDef

/-! ### Creating and altering -/

def validateName (name what : String) : Result Unit :=
  require (name ≠ "" ∧ (utf8 name).length ≤ MAX_NAME_LEN) (.invalidInput what)

/-- The checks of the columns of a new table one after the other, and the alias among them. -/
def checkColumns : List ColumnSpec → List ColumnSpec → Option ℕ → Result (Option ℕ)
  | _, [], rowid_alias => .ok rowid_alias
  | before, col :: cols, rowid_alias => do
    validateName col.name "nombre de columna vacío o de más de 128 bytes"
    require (∀ c ∈ before, c.name ≠ col.name) (.invalidInput "nombre de columna duplicado")
    if col.primary_key then do
      require (rowid_alias = none) (.invalidInput "solo se admite una PRIMARY KEY")
      require (col.col_type = .integer) (.invalidInput "en v1 la PRIMARY KEY debe ser INTEGER")
      checkColumns (before ++ [col]) cols (some before.length)
    else checkColumns (before ++ [col]) cols rowid_alias

def ColumnSpec.toDef (c : ColumnSpec) : ColumnDef :=
  ⟨c.name, c.col_type, c.not_null || c.primary_key, c.default, false⟩

lemma checkColumns_lt {before cols : List ColumnSpec} {a r : Option ℕ}
    (h : checkColumns before cols a = .ok r) (ha : ∀ i, a = some i → i < before.length) :
    ∀ i, r = some i → i < (before ++ cols).length := by
  induction cols generalizing before a with
  | nil =>
    cases h
    simpa using ha
  | cons col cols ih =>
    have hall : before ++ col :: cols = (before ++ [col]) ++ cols := by simp
    simp only [checkColumns, bind_eq_ok] at h
    obtain ⟨-, -, -, -, h⟩ := h
    rw [hall]
    split_ifs at h
    · simp only [bind_eq_ok] at h
      obtain ⟨-, -, -, -, h⟩ := h
      refine ih h fun i hi => ?_
      cases hi
      simp
    · refine ih h fun i hi => ?_
      have := ha i hi
      simp
      omega

lemma newTable_alias {cols : List ColumnSpec} {a : Option ℕ} (h : checkColumns [] cols none = .ok a) :
    ∀ i, a = some i → i < (cols.map ColumnSpec.toDef).length := by
  rw [List.length_map]
  exact checkColumns_lt h fun _ hi => by cases hi

lemma newTable_logical (cols : List ColumnSpec) :
    (List.range cols.length).Perm (List.range (cols.map ColumnSpec.toDef).length) := by
  rw [List.length_map]

/-- The positions of some names, none of them missing. -/
def positionsOf (names : List String) (e : Error) : List String → Result (List ℕ)
  | [] => .ok []
  | name :: rest => do
    let pos ← okOr (names.idxOf? name) e
    let positions ← positionsOf names e rest
    .ok (pos :: positions)

/-- The columns, the alias and the indexes of the parent; the new table is one without indexes. -/
def parentOf (tables : String → Result (Option TableDef)) (name : String) (cols : List ColumnSpec)
    (rowid_alias : Option ℕ) (parent : String) :
    Result (List String × Option ℕ × List IndexDef) :=
  if parent = name then .ok (cols.map ColumnSpec.name, rowid_alias, [])
  else do
    let p ← tables parent
    let p ← okOr p (.constraint "tabla padre de FK desconocida")
    .ok (p.columns.map ColumnDef.name, p.rowid_alias, p.indexes)

/-- A foreign key refers to the rowid of the parent or to columns with a unique index. -/
def resolveForeignKey (tables : String → Result (Option TableDef)) (name : String)
    (cols : List ColumnSpec) (rowid_alias : Option ℕ) (pf : ForeignKeySpec) : Result ForeignKey := do
  let columns ← positionsOf (cols.map ColumnSpec.name)
    (.constraint "columna hija de FK desconocida") pf.columns
  let (parent_names, parent_rowid, parent_indexes) ← parentOf tables name cols rowid_alias pf.parent
  let parent_positions ← positionsOf parent_names
    (.constraint "columna del padre de FK desconocida") pf.parent_columns
  if parent_positions = [] ∨ parent_positions.map some = [parent_rowid] then do
    require (columns.length = 1) (.constraint "una FK a la PK referencia una sola columna")
    require (parent_rowid ≠ none) (.constraint "la tabla padre de una FK necesita PRIMARY KEY")
    .ok ⟨columns, pf.parent, [], pf.on_delete, pf.on_update⟩
  else do
    require (columns.length = parent_positions.length)
      (.constraint "la FK y las columnas del padre tienen distinta aridad")
    require (∃ ix ∈ parent_indexes, ix.unique ∧ ix.columns.length = parent_positions.length ∧
        ∀ p ∈ parent_positions, p ∈ ix.columns)
      (.constraint
        "las columnas referenciadas por una FK deben ser PRIMARY KEY o tener un índice UNIQUE")
    .ok ⟨columns, pf.parent, parent_positions, pf.on_delete, pf.on_update⟩

def resolveForeignKeys (tables : String → Result (Option TableDef)) (name : String)
    (cols : List ColumnSpec) (rowid_alias : Option ℕ) :
    List ForeignKeySpec → Result (List ForeignKey)
  | [] => .ok []
  | pf :: pending => do
    let fk ← resolveForeignKey tables name cols rowid_alias pf
    let rest ← resolveForeignKeys tables name cols rowid_alias pending
    .ok (fk :: rest)

/-- The definition of a new table whose name is free among those tables. The foreign keys are those
of the columns and then those of the table, and so the checks. -/
def createTable (tables : String → Result (Option TableDef)) (name : String) (table_id : UInt32)
    (cols : List ColumnSpec) (foreign_keys : List ForeignKeySpec) (checks : List String) :
    Result TableDef := do
  validateName name "nombre de tabla vacío o de más de 128 bytes"
  require (cols ≠ [] ∧ cols.length ≤ MAX_COLUMNS)
    (.invalidInput "la tabla necesita entre 1 y 255 columnas")
  match h : checkColumns [] cols none with
  | .error e => throw e
  | .ok rowid_alias => do
    let foreign_keys ← resolveForeignKeys tables name cols rowid_alias foreign_keys
    return ⟨name, table_id, rowid_alias, cols.map ColumnSpec.toDef, [], [], [],
      List.range cols.length, foreign_keys, checks, newTable_alias h, newTable_logical cols⟩

namespace TableDef

lemma alias_append (d : TableDef) (col : ColumnDef) :
    ∀ i, d.rowid_alias = some i → i < (d.columns ++ [col]).length := by
  intro i hi
  have := d.alias_lt i hi
  rw [List.length_append, List.length_singleton]
  omega

lemma logical_append (d : TableDef) (col : ColumnDef) :
    (d.logical_order ++ [d.columns.length]).Perm (List.range (d.columns ++ [col]).length) := by
  rw [List.length_append, List.length_singleton, List.range_succ]
  exact d.logical.append_right _

def addColumn (d : TableDef) (col : ColumnDef) : Result TableDef := do
  validateName col.name "nombre de columna vacío o de más de 128 bytes"
  require (∀ c ∈ d.columns, c.name ≠ col.name) (.constraint "la columna ya existe")
  require (d.columns.length < MAX_COLUMNS) (.invalidInput "se excede el máximo de columnas")
  require (¬ (col.not_null ∧ col.default = none))
    (.constraint "ADD COLUMN NOT NULL requiere un DEFAULT (las filas existentes serían NULL)")
  return { d with
    columns := d.columns ++ [col]
    logical_order := d.logical_order ++ [d.columns.length]
    alias_lt := d.alias_append col
    logical := d.logical_append col }

end TableDef

inductive ColumnPos where
  | first
  | before (name : String)
  | after (name : String)
  deriving DecidableEq, Repr

namespace TableDef

/-- The columns but one, with this one put in at `at_`. -/
def moved (d : TableDef) (phys at_ : ℕ) : List ℕ :=
  (d.logical_order.filter (· != phys)).insertIdx at_ phys

lemma moved_perm (d : TableDef) {phys at_ : ℕ} (hp : phys < d.columns.length)
    (hat : at_ ≤ (d.logical_order.filter (· != phys)).length) :
    (d.moved phys at_).Perm (List.range d.columns.length) := by
  have h : (d.moved phys at_).Perm (phys :: d.logical_order.filter (· != phys)) :=
    List.perm_insertIdx _ _ hat
  rw [← d.logical_nodup.erase_eq_filter] at h
  exact h.trans ((List.perm_cons_erase (d.mem_logical hp)).symm.trans d.logical)

/-- The place of the column `name` among the others, counted past it for `after`. -/
def placeOf (d : TableDef) (col : String) (phys : ℕ) (name : String) (past : ℕ) : Result ℕ := do
  require (name ≠ col)
    (.invalidInput "MOVE COLUMN: la referencia no puede ser la propia columna")
  let tphys ← okOr (d.named name) (.constraint "columna de referencia desconocida")
  let idx ← okOr ((d.logical_order.filter (· != phys)).idxOf? tphys)
    (.panic "la referencia está en la permutación")
  .ok (idx + past)

def moveColumn (d : TableDef) (col : String) (pos : ColumnPos) : Result TableDef := do
  let phys ← okOr (d.named col) (.constraint "columna desconocida")
  let at_ ← match pos with
    | .first => .ok 0
    | .before name => d.placeOf col phys name 0
    | .after name => d.placeOf col phys name 1
  if h : phys < d.columns.length ∧ at_ ≤ (d.logical_order.filter (· != phys)).length then
    return { d with logical_order := d.moved phys at_, logical := d.moved_perm h.1 h.2 }
  else throw (.panic "insertion index out of bounds")

/-- The positions of the columns named one after the other, none of them twice. -/
def reordered (d : TableDef) : List String → List ℕ → Result (List ℕ)
  | [], order => .ok order
  | name :: names, order => do
    let phys ← okOr (d.named name) (.constraint "columna desconocida en REORDER COLUMNS")
    require (phys ∉ order) (.invalidInput "columna repetida en REORDER COLUMNS")
    d.reordered names (order ++ [phys])

lemma named_lt {d : TableDef} {name : String} {i : ℕ} (h : d.named name = some i) :
    i < d.columns.length := (List.findIdx?_eq_some_iff_getElem.1 h).1

lemma visible_lt {d : TableDef} {name : String} {i : ℕ} (h : d.visible name = some i) :
    i < d.columns.length := (List.findIdx?_eq_some_iff_getElem.1 h).1

/-- As many positions as there are columns, none twice: each column once. -/
lemma reordered_perm {d : TableDef} {names : List String} {order r : List ℕ}
    (h : d.reordered names order = .ok r) (hlen : order.length + names.length = d.columns.length)
    (hn : order.Nodup) (hlt : ∀ i ∈ order, i < d.columns.length) :
    r.Perm (List.range d.columns.length) := by
  induction names generalizing order with
  | nil =>
    cases h
    refine (List.subperm_of_subset hn fun i hi => List.mem_range.2 (hlt i hi)).perm_of_length_le ?_
    rw [List.length_range]
    simp only [List.length_nil] at hlen
    omega
  | cons name names ih =>
    simp only [reordered, bind_eq_ok, okOr_eq_ok, require_eq_ok] at h
    obtain ⟨phys, hphys, -, hnew, h⟩ := h
    have hlt' : ∀ i ∈ order ++ [phys], i < d.columns.length := by
      intro i hi
      rcases List.mem_append.1 hi with hi | hi
      · exact hlt i hi
      · rw [List.mem_singleton.1 hi]
        exact named_lt hphys
    have hn' : (order ++ [phys]).Nodup := by
      rw [List.nodup_append]
      exact ⟨hn, List.nodup_singleton _, fun i hi j hj he => hnew (by simp_all)⟩
    refine ih h ?_ hn' hlt'
    simp only [List.length_append, List.length_cons, List.length_nil] at hlen ⊢
    omega

lemma reordered_logical {d : TableDef} {order : List String} {r : List ℕ}
    (hlen : order.length = d.columns.length) (h : d.reordered order [] = .ok r) :
    r.Perm (List.range d.columns.length) :=
  reordered_perm h ((Nat.zero_add _).trans hlen) List.nodup_nil
    fun _ hi => absurd hi List.not_mem_nil

def reorderColumns (d : TableDef) (order : List String) : Result TableDef :=
  if hlen : order.length = d.columns.length then
    match h : d.reordered order [] with
    | .error e => .error e
    | .ok new_logical =>
      .ok { d with logical_order := new_logical, logical := reordered_logical hlen h }
  else .error
    (.invalidInput "REORDER COLUMNS debe listar todas las columnas exactamente una vez")

lemma changed_alias (d : TableDef) (phys : ℕ) (f : ColumnDef → ColumnDef) :
    ∀ i, d.rowid_alias = some i → i < (d.columns.modify phys f).length := by
  rw [List.length_modify]
  exact d.alias_lt

lemma changed_logical (d : TableDef) (phys : ℕ) (f : ColumnDef → ColumnDef) :
    d.logical_order.Perm (List.range (d.columns.modify phys f).length) := by
  rw [List.length_modify]
  exact d.logical

/-- One column changed, at its position. -/
def change (d : TableDef) (phys : ℕ) (f : ColumnDef → ColumnDef) : TableDef :=
  { d with
    columns := d.columns.modify phys f
    alias_lt := d.changed_alias phys f
    logical := d.changed_logical phys f }

def renameColumn (d : TableDef) (old new : String) : Result TableDef := do
  validateName new "nombre de columna vacío o de más de 128 bytes"
  let phys ← okOr (d.visible old) (.constraint "columna desconocida")
  require (d.visible new = none) (.constraint "ya existe una columna con ese nombre")
  return d.change phys fun c => { c with name := new }

def dropColumn (d : TableDef) (col : String) : Result TableDef := do
  let phys ← okOr (d.visible col) (.constraint "columna desconocida")
  require (d.rowid_alias ≠ some phys) (.constraint "no se puede borrar la PRIMARY KEY")
  require (1 < d.columns.countP fun c => !c.dropped)
    (.constraint "una tabla necesita al menos una columna")
  require (∀ i ∈ d.indexes, phys ∉ i.columns)
    (.constraint "la columna está en un índice (haz DROP INDEX primero)")
  require (∀ fk ∈ d.foreign_keys, phys ∉ fk.columns)
    (.constraint "la columna tiene una clave foránea")
  return d.change phys fun c => { c with dropped := true }

end TableDef

end Catalog

end Arkeion
