import Arkeion.Vacuum

/-!
What callers do with a store: transactions one at a time, branches, merges and compactions, in
any order.
-/

namespace Arkeion

open Arkeion.Lib Btree

instance (e : Error) : Decidable e.IsPanic :=
  match e with
  | .panic _ => .isTrue trivial
  | .io | .corrupt .. | .invalidInput _ | .corruptRecord _ | .versionNotFound _ | .chainBroken ..
  | .busy | .wrongKey | .branchNotFound _ | .branchExists _ | .conflict _ | .constraint _
  | .sql _ | .outOfFuel =>
    .isFalse id

/-- A call; `now` is the time of the clock, `fileId` the identity drawn for a new file. -/
inductive StoreOp where
  | beginOn (branch : String)
  | put (key value : Bytes)
  | delete (key : Bytes)
  | commit (now : ℕ)
  | rollback
  | createBranch (name : String) (start : AsOf) (now : ℕ)
  | dropBranch (name : String) (now : ℕ)
  | merge (src dst : String) (now : ℕ)
  | vacuum (retention : Retention) (fileId : { b : Bytes // b.length = 16 })
  deriving DecidableEq

namespace StoreOp

/-- The lengths and times are those of 64-bit integers. -/
def Sized : StoreOp → Prop
  | put _ value => value.length < 2 ^ 64
  | commit now | createBranch _ _ now | dropBranch _ now | merge _ _ now => now < 2 ^ 64
  | beginOn _ | delete _ | rollback | vacuum .. => True

/-- The call takes the transaction out of the hands of the caller. -/
def consumes : StoreOp → Bool
  | commit _ | rollback => true
  | _ => false

end StoreOp

inductive Answer where
  | done
  | existed (existed : Bool)
  | version (v : ℕ)
  | merged (report : Store.MergeReport)
  | vacuumed (report : VacuumReport)
  deriving DecidableEq, Repr

/-- A store and the transaction that is open on it. -/
structure Engine where
  store : Store
  tx : Option WriteTx

namespace Engine

/-- The transaction is dropped, and the gate of the writers open. -/
def closed (e : Engine) : Engine := ⟨{ e.store with held := false }, none⟩

def create (sha : Sha256) (pager : PageLog) : Engine := ⟨Store.create sha pager, none⟩

section Step
variable (sha : Sha256) (n : ℕ) (e : Engine)

def execTx (tx : WriteTx) : StoreOp → Result (Answer × Engine)
  | .put key value => do
    let tx ← tx.put n key value
    .ok (.done, { e with tx := some tx })
  | .delete key => do
    let (existed, tx) ← tx.delete n key
    .ok (.existed existed, { e with tx := some tx })
  | .commit now => do
    let (version, store) ← tx.commit n sha now e.store
    .ok (.version version, ⟨store, none⟩)
  | _ => .ok (.done, e.closed)

def execStore : StoreOp → Result (Answer × Engine)
  | .beginOn branch => do
    let (tx, store) ← WriteTx.beginOn n e.store branch
    .ok (.done, ⟨store, some tx⟩)
  | .createBranch name start now => do
    let store ← e.store.createBranch sha n now name start
    .ok (.done, { e with store := store })
  | .dropBranch name now => do
    let store ← e.store.dropBranch sha n now name
    .ok (.done, { e with store := store })
  | .merge src dst now => do
    let (report, store) ← e.store.merge sha n now src dst
    .ok (.merged report, { e with store := store })
  | .vacuum retention fileId => do
    let (report, file) ← e.store.vacuum sha n retention fileId
    .ok (.vacuumed report, { e with store := file.store })
  | _ => .ok (.done, e)

/-- There is no call on a transaction without one. -/
def exec (op : StoreOp) : Option (Result (Answer × Engine)) :=
  match op with
  | .put .. | .delete _ | .commit _ | .rollback => e.tx.map fun tx => e.execTx sha n tx op
  | _ => some (e.execStore sha n op)

/-- What is answered, and the state behind it: an error leaves it as it was, but for a transaction
that was consumed or unwound. -/
def settle (op : StoreOp) : Result (Answer × Engine) → Result Answer × Engine
  | .ok (answer, e') => (.ok answer, e')
  | .error err => (.error err, if op.consumes = true ∨ err.IsPanic then e.closed else e)

def step (op : StoreOp) : Option (Result Answer × Engine) :=
  (e.exec sha n op).map (e.settle op)

end Step

/-- The calls one after the other: the answers and the last state. -/
def run (sha : Sha256) (n : ℕ) : List StoreOp → Engine → Option (List (Result Answer) × Engine)
  | [], e => some ([], e)
  | op :: ops, e => do
    let (answer, e) ← e.step sha n op
    let (answers, e) ← run sha n ops e
    some (answer :: answers, e)

end Engine

/-! ### Calls with savepoints among them -/

/-- A call on the store or on the open transaction. -/
inductive Call where
  | op (op : StoreOp)
  | savepoint (name : String)
  | rollbackTo (name : String)
  | release (name : String)
  deriving DecidableEq

def Call.Sized : Call → Prop
  | .op o => o.Sized
  | .savepoint _ | .rollbackTo _ | .release _ => True

namespace Engine

section Calls
variable (sha : Sha256) (n : ℕ) (e : Engine)

/-- The transaction after a call that may be refused. -/
def settleTx : Result WriteTx → Result Answer × Engine
  | .ok tx => (.ok .done, { e with tx := some tx })
  | .error err => (.error err, e)

def call : Call → Option (Result Answer × Engine)
  | .op op => e.step sha n op
  | .savepoint name => e.tx.map fun tx => e.settleTx (.ok (tx.savepoint name))
  | .rollbackTo name => e.tx.map fun tx => e.settleTx (tx.rollbackToSavepoint name)
  | .release name => e.tx.map fun tx => e.settleTx (tx.releaseSavepoint name)

end Calls

/-- The calls one after the other: the state behind them. -/
def runCalls (sha : Sha256) (n : ℕ) : List Call → Engine → Option Engine
  | [], e => some e
  | c :: cs, e => do
    let (_, e) ← e.call sha n c
    runCalls sha n cs e

end Engine

end Arkeion
