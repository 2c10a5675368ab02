import Arkeion.Sql.Parser

/-!
How large a statement is, and how deep.

Both count the nodes of the tree: the one adds up what the parts of a node have, the other takes the
largest.
-/

namespace Arkeion.Sql

open Catalog

/-! ### A number for each tree -/

section Measure
variable (f : ℕ → ℕ → ℕ)

mutual

/-- One more than its parts together. -/
def Expr.measure : Expr → ℕ
  | .literal _ => 1
  | .column _ _ => 1
  | .param _ => 1
  | .node _ args => 1 + measureList args
  | .aggregate _ arg _ sep => 1 + f (measureOpt arg) (measureOpt sep)
  | .scalarSubquery query => 1 + query.measure
  | .exists_ query => 1 + query.measure
  | .inSubquery expr query _ => 1 + f expr.measure query.measure
  | .window _ args partition_by order_by _ =>
    1 + f (measureList args) (f (measureList partition_by) (measureOrder order_by))

def measureList : List Expr → ℕ
  | [] => 0
  | e :: es => f e.measure (measureList es)

def measureOpt : Option Expr → ℕ
  | none => 0
  | some e => e.measure

def measureOrder : List OrderBy → ℕ
  | [] => 0
  | ⟨e, _⟩ :: os => f (1 + e.measure) (measureOrder os)

def measureItems : List SelectItem → ℕ
  | [] => 0
  | .star :: its => f 1 (measureItems its)
  | .expr e _ :: its => f (1 + e.measure) (measureItems its)

def TableRef.measure : TableRef → ℕ
  | ⟨_, _, none⟩ => 1
  | ⟨_, _, some query⟩ => 1 + query.measure

def measureFrom : Option TableRef → ℕ
  | none => 0
  | some t => t.measure

def measureJoins : List Join → ℕ
  | [] => 0
  | ⟨_, table, on⟩ :: js => f (1 + f table.measure on.measure) (measureJoins js)

def measureCompound : List CompoundSelect → ℕ
  | [] => 0
  | ⟨_, query⟩ :: cs => f (1 + query.measure) (measureCompound cs)

def measureCtes : List Cte → ℕ
  | [] => 0
  | ⟨_, query⟩ :: cs => f (1 + query.measure) (measureCtes cs)

def SelectStmt.measure : SelectStmt → ℕ
  | ⟨_, projection, from_, joins, where_clause, group_by, having, order_by, limit, offset, _,
      compound, with_⟩ =>
    1 + f (measureItems projection) (f (measureFrom from_) (f (measureJoins joins)
      (f (measureOpt where_clause) (f (measureList group_by) (f (measureOpt having)
        (f (measureOrder order_by) (f (measureOpt limit) (f (measureOpt offset)
          (f (measureCompound compound) (measureCtes with_))))))))))

end

def measureSets (sets : List (String × Expr)) : ℕ := measureList f (sets.map Prod.snd)

def ColumnAst.measure (c : ColumnAst) : ℕ := 1 + measureOpt f c.default_

def measureColumns : List ColumnAst → ℕ
  | [] => 0
  | c :: cs => f (c.measure f) (measureColumns cs)

def measureRows : List (List Expr) → ℕ
  | [] => 0
  | row :: rows => f (measureList f row) (measureRows rows)

def InsertSource.measure : InsertSource → ℕ
  | .values rows => measureRows f rows
  | .select query => query.measure f

def ConflictAction.measure : ConflictAction → ℕ
  | .nothing => 0
  | .update sets where_clause => f (measureSets f sets) (measureOpt f where_clause)

def measureConflict : Option ConflictAction → ℕ
  | none => 0
  | some c => c.measure f

def measureReturning : Option (List SelectItem) → ℕ
  | none => 0
  | some its => measureItems f its

/-- One for each of a list, of names or of what is made of names. -/
def measureLeaves {α : Type} : List α → ℕ
  | [] => 0
  | _ :: as => f 1 (measureLeaves as)

def measureUniques : List (List String) → ℕ
  | [] => 0
  | columns :: us => f (1 + measureLeaves f columns) (measureUniques us)

def measureForeignKeys : List ForeignKeySpec → ℕ
  | [] => 0
  | fk :: fks =>
    f (1 + f (measureLeaves f fk.columns) (measureLeaves f fk.parent_columns)) (measureForeignKeys fks)

def measureNames : Option (List String) → ℕ
  | none => 0
  | some names => measureLeaves f names

def Statement.measure : Statement → ℕ
  | .createTable _ _ columns foreign_keys uniques checks =>
    1 + f (measureColumns f columns) (f (measureForeignKeys f foreign_keys)
      (f (measureUniques f uniques) (measureLeaves f checks)))
  | .createTableAs _ _ query => 1 + query.measure f
  | .createIndex _ _ _ _ columns => 1 + measureLeaves f columns
  | .createFtsIndex _ _ _ columns _ => 1 + measureLeaves f columns
  | .insert _ columns source on_conflict returning =>
    1 + f (measureNames f columns) (f (source.measure f)
      (f (measureConflict f on_conflict) (measureReturning f returning)))
  | .select query => 1 + query.measure f
  | .alterTableAddColumn _ column => 1 + column.measure f
  | .alterTableReorderColumns _ order => 1 + measureLeaves f order
  | .update _ sets where_clause returning =>
    1 + f (measureSets f sets) (f (measureOpt f where_clause) (measureReturning f returning))
  | .delete _ where_clause returning =>
    1 + f (measureOpt f where_clause) (measureReturning f returning)
  | .dropTable .. | .createView .. | .dropView .. | .createTrigger .. | .dropTrigger ..
  | .dropIndex .. | .dropFtsIndex .. | .createVectorIndex .. | .dropVectorIndex ..
  | .rebuildVectorIndex .. | .alterTableMoveColumn .. | .alterTableRenameColumn ..
  | .alterTableDropColumn .. | .begin_ | .commit | .rollback | .savepoint _ | .releaseSavepoint _
  | .rollbackTo _ => 1

end Measure

/-! ### Size and depth -/

/-- The number of nodes. -/
def Statement.size (s : Statement) : ℕ := s.measure (· + ·)

/-- The nodes on the longest way down. -/
def Statement.depth (s : Statement) : ℕ := s.measure max

end Arkeion.Sql
