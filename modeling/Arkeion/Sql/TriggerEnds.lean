import Arkeion.Sql.StreamExact
import Arkeion.Sql.Trigger

/-!
A statement ends, whatever triggers it fires, and is as deep in triggers as before.

Only `fire` calls other statements, one deeper than it is itself. What ends up to a depth with some
fuel then ends with one more, and the depth has a limit.
-/

namespace Arkeion.Sql

open Arkeion.Lib Catalog

section Ends
variable {σ Ω : Type} (S : Storage σ Ω) {rec rec' : Stmt Ω → List Value → Run σ ℕ} {k : ℕ}
  (h : ∀ stmt params, Returns k (rec stmt params) (rec' stmt params))

/-! ### Firing -/

lemma triggersFor_returns (table : String) (event : TriggerEvent) (timing : TriggerTiming) :
    Returns k (triggersFor S table event timing) (triggersFor S table event timing) :=
  .bind (.act _) fun _ => .pure _

lemma insteadOf_returns (view : String) (event : TriggerEvent) (msg : String) :
    Returns k (insteadOf S view event msg) (insteadOf S view event msg) :=
  .bind (triggersFor_returns S _ _ _) fun _ => .bind (.lift _) fun _ => .pure _

include h

lemma fireStmt_returns (table : TableDef) (old new : Option Row) (stmt : Stmt Ω) :
    Returns k (fireStmt rec table old new stmt) (fireStmt rec' table old new stmt) :=
  .bind (.lift _) fun sub => .bind (h sub []) fun _ => .pure _

lemma fireInner_returns (table : TableDef) (triggers : List TriggerDef) (old new : Option Row) :
    Returns k (fireInner S rec table triggers old new) (fireInner S rec' table triggers old new) :=
  .forEach (fun _ => .bind (.lift _) fun stmts => .forEach (fireStmt_returns h table old new) stmts)
    triggers

/-- The one place where fuel is needed. -/
lemma fire_returns (table : TableDef) (triggers : List TriggerDef) (old new : Option Row) :
    Returns (k + 1) (fire S rec table triggers old new) (fire S rec' table triggers old new) :=
  .ite (.pure ()) (.nested (fireInner_returns S h table triggers old new))

/-! ### Views -/

section Views
variable (view : String) (params : List Value)

lemma runInsteadOfInsert_returns (columns : Option (List String)) (rows : List (List Expr)) :
    Returns (k + 1) (runInsteadOfInsert S rec view params columns rows)
      (runInsteadOfInsert S rec' view params columns rows) :=
  .bind (insteadOf_returns S _ _ _) fun _ => .bind (.read _) fun _ => .bind
    (.forEach (fun _ => .bind (.lift _) fun _ => fire_returns S h _ _ _ _) rows) fun _ => .pure _

omit h in
lemma insteadOfRow_returns (schema : QuerySchema) (where_clause : Option Expr)
    {body body' : Row → Run σ Unit} (hbody : ∀ row, Returns k (body row) (body' row)) (n : ℕ)
    (row : Row) : Returns k (insteadOfRow S params schema where_clause body n row)
      (insteadOfRow S params schema where_clause body' n row) :=
  .bind (.lift _) fun _ => .ite (.bind (hbody row) fun _ => .pure _) (.pure n)

lemma runInsteadOfUpdate_returns (sets : List (String × Expr)) (where_clause : Option Expr) :
    Returns (k + 1) (runInsteadOfUpdate S rec view params sets where_clause)
      (runInsteadOfUpdate S rec' view params sets where_clause) :=
  .bind (insteadOf_returns S _ _ _) fun _ => .bind (.read _) fun d => .bind (.lift _) fun _ =>
    .bind (.lift _) fun _ => .fold (insteadOfRow_returns S params _ _ fun _ =>
      .bind (.lift _) fun _ => fire_returns S h _ _ _ _) d.2 0

lemma runInsteadOfDelete_returns (where_clause : Option Expr) :
    Returns (k + 1) (runInsteadOfDelete S rec view params where_clause)
      (runInsteadOfDelete S rec' view params where_clause) :=
  .bind (insteadOf_returns S _ _ _) fun _ => .bind (.read _) fun d => .bind (.lift _) fun _ =>
    .fold (insteadOfRow_returns S params _ _ fun _ => fire_returns S h _ _ _ _) d.2 0

end Views

/-! ### INSERT -/

section Insert
variable (d : TableDef) (table : String) (params : List Value) (plan : InsertPlan)

lemma upsertUpdate_returns (rid : Int64) (sets : List (String × Expr))
    (where_clause : Option Expr) (proposed : Row) :
    Returns (k + 1) (upsertUpdate S rec d table params plan rid sets where_clause proposed)
      (upsertUpdate S rec' d table params plan rid sets where_clause proposed) :=
  .bind (.read _) fun _ => .bind (.lift _) fun _ => .bind (.lift _) fun _ => .bind (.lift _) fun _ =>
    .bind (.lift _) fun _ => .ite
      (.bind (.lift _) fun _ => .bind (.lift _) fun _ => .bind (fire_returns S h _ _ _ _) fun _ =>
        .bind (.act _) fun _ => .bind (fire_returns S h _ _ _ _) fun _ => .pure _)
      (.pure none)

lemma insertNew_returns (values : Row) :
    Returns (k + 1) (insertNew S rec d table params plan values)
      (insertNew S rec' d table params plan values) :=
  .bind (.lift _) fun _ => .bind (fire_returns S h _ _ _ _) fun _ => .bind (.act _) fun _ =>
    .ite (.pure values) (.bind (fire_returns S h _ _ _ _) fun _ => .pure _)

lemma insertOne_returns (columns : Option (List String)) (on_conflict : Option ConflictAction)
    (written : List Row) (row : List Expr) :
    Returns (k + 1) (insertOne S rec d table params plan columns on_conflict written row)
      (insertOne S rec' d table params plan columns on_conflict written row) := by
  refine .bind (.lift _) fun values => .bind (.read _) fun met => ?_
  have hnew : Returns (k + 1)
      (insertNew S rec d table params plan values >>= fun r => pure (written ++ [r]))
      (insertNew S rec' d table params plan values >>= fun r => pure (written ++ [r])) :=
    .bind (insertNew_returns S h d table params plan values) fun _ => .pure _
  cases on_conflict with
  | none => exact hnew
  | some action =>
    cases met with
    | none =>
      cases action with
      | nothing => exact hnew
      | update sets where_clause => exact hnew
    | some rid =>
      cases action with
      | nothing => exact .pure written
      | update sets where_clause =>
        exact .bind (upsertUpdate_returns S h d table params plan rid sets where_clause values)
          fun _ => .pure _

omit h in
lemma upsertTriggers_returns (on_conflict : Option ConflictAction) (timing : TriggerTiming) :
    Returns k (upsertTriggers S d on_conflict timing) (upsertTriggers S d on_conflict timing) :=
  .ite (.bind (triggersFor_returns S _ _ _) fun _ => .pure _) (.pure [])

lemma insertInto_returns (columns : Option (List String)) (rows : List (List Expr))
    (on_conflict : Option ConflictAction) (returning : Option (List SelectItem)) :
    Returns (k + 1) (insertInto S rec d table params columns rows on_conflict returning)
      (insertInto S rec' d table params columns rows on_conflict returning) :=
  .bind (triggersFor_returns S _ _ _) fun _ => .bind (triggersFor_returns S _ _ _) fun _ =>
    .bind (upsertTriggers_returns S _ _ _) fun _ => .bind (upsertTriggers_returns S _ _ _) fun _ =>
    .bind (.lift _) fun _ => .bind (fire_returns S h _ _ _ _) fun _ =>
    .bind (.fold (insertOne_returns S h d table params _ columns on_conflict) rows []) fun _ =>
    .bind (fire_returns S h _ _ _ _) fun _ => .bind (.lift _) fun _ => .pure _

end Insert

section Statements
variable (table : String) (params : List Value) (returning : Option (List SelectItem))

omit h in
lemma onTable_returns {α : Type} {f f' : TableDef → Run σ α} {g g' : Run σ α}
    (hf : ∀ d, Returns k (f d) (f' d)) (hg : Returns k g g') :
    Returns k (onTable S table f g) (onTable S table f' g') := by
  refine .bind (.act _) fun d => ?_
  cases d with
  | some d => exact hf d
  | none => exact .bind (.read _) fun _ => .ite hg (.lift _)

lemma runInsert_returns (columns : Option (List String)) (source : InsertSource)
    (on_conflict : Option ConflictAction) :
    Returns (k + 1) (runInsert S rec table params returning columns source on_conflict)
      (runInsert S rec' table params returning columns source on_conflict) :=
  .bind (.read _) fun rows => onTable_returns S table
    (fun d => insertInto_returns S h d table params columns rows on_conflict returning)
    (.bind (.lift _) fun _ =>
      .bind (runInsteadOfInsert_returns S h table params columns rows) fun _ => .pure _)

/-! ### UPDATE and DELETE -/

lemma updateOne_returns (d : TableDef) (checks : List Expr) (before after : List TriggerDef)
    (u : Int64 × Row × Row) :
    Returns (k + 1) (updateOne S rec table params d checks before after u)
      (updateOne S rec' table params d checks before after u) :=
  .bind (.lift _) fun _ => .bind (fire_returns S h _ _ _ _) fun _ => .bind (.act _) fun _ =>
    fire_returns S h _ _ _ _

lemma updateTable_returns (sets : List (String × Expr)) (where_clause : Option Expr)
    (d : TableDef) :
    Returns (k + 1) (updateTable S rec table params returning sets where_clause d)
      (updateTable S rec' table params returning sets where_clause d) :=
  .bind (.lift _) fun _ => .bind (.lift _) fun _ => .bind (triggersFor_returns S _ _ _) fun before =>
    .bind (triggersFor_returns S _ _ _) fun after => .bind (.read _) fun _ =>
    .bind (.lift _) fun updates => .bind (.lift _) fun checks =>
    .bind (fire_returns S h _ _ _ _) fun _ =>
    .bind (.forEach (updateOne_returns S h table params d checks (splitForEach before).1
      (splitForEach after).1) updates) fun _ =>
    .bind (fire_returns S h _ _ _ _) fun _ => .bind (.lift _) fun _ => .pure _

lemma runUpdate_returns (sets : List (String × Expr)) (where_clause : Option Expr) :
    Returns (k + 1) (runUpdate S rec table params returning sets where_clause)
      (runUpdate S rec' table params returning sets where_clause) :=
  onTable_returns S table (updateTable_returns S h table params returning sets where_clause)
    (.bind (.lift _) fun _ =>
      .bind (runInsteadOfUpdate_returns S h table params sets where_clause) fun _ => .pure _)

lemma deleteOne_returns (d : TableDef) (before after : List TriggerDef) (r : Int64 × Row) :
    Returns (k + 1) (deleteOne S rec d before after r) (deleteOne S rec' d before after r) :=
  .bind (fire_returns S h _ _ _ _) fun _ => .bind (.act _) fun _ => fire_returns S h _ _ _ _

lemma deleteFrom_returns (where_clause : Option Expr) (d : TableDef) :
    Returns (k + 1) (deleteFrom S rec table params returning where_clause d)
      (deleteFrom S rec' table params returning where_clause d) :=
  .bind (.lift _) fun _ => .bind (triggersFor_returns S _ _ _) fun before =>
    .bind (triggersFor_returns S _ _ _) fun after => .bind (.read _) fun _ =>
    .bind (.lift _) fun doomed => .bind (fire_returns S h _ _ _ _) fun _ =>
    .bind (.forEach (deleteOne_returns S h d (splitForEach before).1 (splitForEach after).1) doomed)
      fun _ =>
    .bind (fire_returns S h _ _ _ _) fun _ => .bind (.lift _) fun _ => .pure _

lemma runDelete_returns (where_clause : Option Expr) :
    Returns (k + 1) (runDelete S rec table params returning where_clause)
      (runDelete S rec' table params returning where_clause) :=
  onTable_returns S table (deleteFrom_returns S h table params returning where_clause)
    (.bind (.lift _) fun _ =>
      .bind (runInsteadOfDelete_returns S h table params where_clause) fun _ => .pure _)

end Statements

/-- A statement, when those of its triggers end: one case for each kind of statement. -/
lemma execStmt_returns (stmt : Stmt Ω) (params : List Value) :
    Returns (k + 1) (execStmt S rec stmt params) (execStmt S rec' stmt params) := by
  cases stmt with
  | insert table columns source on_conflict returning =>
    exact runInsert_returns S h table params returning columns source on_conflict
  | update table sets where_clause returning =>
    exact runUpdate_returns S h table params returning sets where_clause
  | delete table where_clause returning =>
    exact runDelete_returns S h table params returning where_clause
  | select query => exact .lift _
  | transaction => exact .lift _
  | schema o => exact .bind (.act _) fun _ => .pure _

end Ends

section Execute
variable {σ Ω : Type} (S : Storage σ Ω)

/-- Induction on the fuel: it is used up only one deeper. -/
lemma runExecute_returns (n m : ℕ) (stmt : Stmt Ω) (params : List Value) :
    Returns n (runExecute S n stmt params) (runExecute S (n + m) stmt params) := by
  induction n generalizing stmt params with
  | zero => exact .never
  | succ n ih =>
    rw [Nat.succ_add]
    exact .bind (execStmt_returns S ih stmt params) fun _ => .pure _

end Execute

/-- A table of one column and a trigger on it; the state counts the rows written. -/
def chainStorage (body : Stmt Unit) : Storage ℕ Unit where
  builtins := noBuiltins
  run_query _ _ _ := .ok ⟨[], []⟩
  table_cached _ s := (.ok (some (syntheticDef "t" ["a"] 1)), s)
  view _ _ := .ok none
  all_triggers s := (.ok [⟨"again", .after, .insert, .row, "t", "body"⟩], s)
  view_table _ _ := .ok none
  view_rows _ _ := .ok []
  candidate_rows _ _ _ _ _ := .ok []
  get_row _ _ _ := .ok none
  index_lookup _ _ _ := .ok []
  insert_row _ _ s := (.ok (Int64.ofNat (s + 1)), s + 1)
  update_row _ _ _ s := (.ok (), s)
  delete_row _ _ s := (.ok (), s)
  execute_schema _ _ s := (.ok 0, s)
  parse _ := .ok body
  parse_many _ := .ok [body]

/-- An INSERT of one row. -/
def insertOnce : Stmt Unit := .insert "t" none (.values [[.literal (.integer 1)]]) none none

/-- A trigger that inserts again is stopped at the limit, with a row written at each depth. -/
example : (runExecute (chainStorage insertOnce) 33 insertOnce [] ⟨0, 0, Nat.zero_le _⟩).map
    (fun r => (r.1.toOption, r.2.state, r.2.depth)) = some (none, 33, 0) := by decide +kernel

end Arkeion.Sql
