import Arkeion.Sql.Subquery
import Mathlib.Data.List.Sort

/-!
Lists of rows: in order, without repetitions, and between `OFFSET` and `LIMIT`.
-/

namespace Arkeion.Sql

open Catalog

/-! ### Sorting -/

section Sorting
variable (B : Builtins) {α : Type}

/-- The order of two lists of keys; a flag says whether the key falls. -/
def cmpKeys : List Bool → List Value → List Value → Result Ordering
  | desc :: descs, a :: as, b :: bs => do
    let o ← cmpNullsFirst B a b
    if o = .eq then cmpKeys descs as bs else .ok (if desc then o.swap else o)
  | _, _, _ => .ok .eq

/-- The keys may be in this order. -/
def InOrder (descs : List Bool) (a b : List Value × α) : Prop :=
  (cmpKeys B descs a.1 b.1).toOption ≠ some .gt

instance (descs : List Bool) : DecidableRel (InOrder B (α := α) descs) :=
  fun _ _ => inferInstanceAs (Decidable (_ ≠ _))

/-- The keys can all be compared with each other. -/
def checkKeys (descs : List Bool) : List (List Value) → Result Unit
  | [] => .ok ()
  | a :: keys => do
    let _ ← keys.mapM (cmpKeys B descs a)
    checkKeys descs keys

/-- `sort_by`, which keeps the order of equal keys. Of keys that cannot be compared, it meets
two that cannot, whatever it compares. -/
def sortKeyed (descs : List Bool) (keyed : List (List Value × α)) : Result (List α) := do
  checkKeys B descs (keyed.map Prod.fst)
  .ok ((keyed.insertionSort (InOrder B descs)).map Prod.snd)

end Sorting

/-- The `ORDER BY` of rows that are already projected. -/
def sortOutput (B : Builtins) (order_by : List OrderBy) (columns : List String) (rows : List Row) :
    Result (List Row) :=
  if order_by.isEmpty then .ok rows
  else do
    let idxs ← order_by.mapM fun o => orderOutputIndex o columns
    let keyed ← rows.mapM fun row => do
      let keys ← idxs.mapM fun i => okOr row[i]? (.panic "index out of bounds")
      .ok (keys, row)
    sortKeyed B (order_by.map OrderBy.desc) keyed

/-! ### Repetitions and limits -/

/-- The first occurrence of each row. -/
def dedupPreserving (rows : List Row) : List Row :=
  rows.foldl (fun out r => if out.any (Row.same · r) then out else out ++ [r]) []

def usizeConst (B : Builtins) (e : Expr) (params : List Value) (what : String) : Result ℕ := do
  let v ← evalConst B e params
  match v with
  | .integer n =>
    if 0 ≤ n then .ok n.toNatClampNeg
    else .error (.sql s!"{what} debe ser un entero no negativo")
  | _ => .error (.sql s!"{what} debe ser un entero no negativo")

def USIZE_MAX : ℕ := 2 ^ 64 - 1

def offsetOf (B : Builtins) (stmt : SelectStmt) (params : List Value) : Result ℕ :=
  match stmt.offset with
  | some e => usizeConst B e params "OFFSET"
  | none => .ok 0

def limitOf (B : Builtins) (stmt : SelectStmt) (params : List Value) : Result ℕ :=
  match stmt.limit with
  | some e => usizeConst B e params "LIMIT"
  | none => .ok USIZE_MAX

def limitOffset {α : Type} (B : Builtins) (rows : List α) (stmt : SelectStmt) (params : List Value) :
    Result (List α) := do
  let offset ← offsetOf B stmt params
  let limit ← limitOf B stmt params
  .ok ((rows.drop offset).take limit)

end Arkeion.Sql
