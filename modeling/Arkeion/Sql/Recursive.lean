import Arkeion.Lib.LeastSet
import Arkeion.Sql.StreamExact

/-!
Recursive tables of a `WITH`: the rows of the seed, and what the term makes of them until nothing is
new. Rows are alike if they are one row, or if their values are equal as the engine compares them.
-/

namespace Arkeion.Sql

open Arkeion.Lib Catalog Executor

/-! ### Rows that are alike -/

section Alike

lemma partialCmp_eq {x y : F64} : (x.partialCmp y == some .eq) = true
    ↔ ¬ (x.IsNaN ∨ y.IsNaN) ∧ x.rank = y.rank := by
  rw [F64.partialCmp, beq_iff_eq]
  split_ifs with h
  · simp [h]
  · simp [h]

/-- Values are equal as numbers, or one value that is not a real. -/
lemma value_same_iff {a b : Value} : Value.same a b = true ↔
    (∃ x y, a = .real x ∧ b = .real y ∧ ¬ (x.IsNaN ∨ y.IsNaN) ∧ x.rank = y.rank) ∨
      (a = b ∧ ∀ x, a ≠ .real x) := by
  cases a with
  | real x =>
    cases b with
    | real y =>
      rw [Value.same, partialCmp_eq]
      simp
    | _ => simp [Value.same]
  | _ => cases b <;> simp [Value.same]

lemma value_same_symm {a b : Value} (h : Value.same a b = true) : Value.same b a = true := by
  rw [value_same_iff] at h ⊢
  rcases h with ⟨x, y, rfl, rfl, hnan, hrank⟩ | ⟨rfl, hreal⟩
  · exact Or.inl ⟨y, x, rfl, rfl, fun h => hnan h.symm, hrank.symm⟩
  · exact Or.inr ⟨rfl, hreal⟩

lemma value_same_trans {a b c : Value} (h : Value.same a b = true) (h' : Value.same b c = true) :
    Value.same a c = true := by
  rw [value_same_iff] at h h' ⊢
  rcases h with ⟨x, y, rfl, rfl, hnan, hrank⟩ | ⟨rfl, -⟩
  · rcases h' with ⟨y', z, hy, rfl, hnan', hrank'⟩ | ⟨-, hreal⟩
    · cases hy
      refine Or.inl ⟨x, z, rfl, rfl, ?_, hrank.trans hrank'⟩
      exact fun h => h.elim (fun hx => hnan (Or.inl hx)) fun hz => hnan' (Or.inr hz)
    · exact absurd rfl (hreal y)
  · exact h'

lemma row_same_iff {a b : Row} : Row.same a b = true ↔
    List.Forall₂ (fun v w => Value.same v w = true) a b := by
  rw [Row.same, Bool.and_eq_true, beq_iff_eq, List.all_eq_true, List.forall₂_iff_zip]
  refine and_congr_right fun _ => ⟨fun h v w hvw => h (v, w) hvw, fun h p hp => h hp⟩

lemma row_same_trans {a b c : Row} (h : Row.same a b = true) (h' : Row.same b c = true) :
    Row.same a c = true := by
  rw [row_same_iff] at h h' ⊢
  induction h generalizing c with
  | nil => exact h'
  | cons hv _ ih =>
    cases h' with
    | cons hv' hrest => exact .cons (value_same_trans hv hv') (ih hrest)

/-- The rows are the same one, or equal as the engine compares rows. -/
def Alike (a b : Row) : Prop := a = b ∨ Row.same a b = true

lemma alike_equivalence : Equivalence Alike where
  refl := fun _ => Or.inl rfl
  symm := by
    rintro a b (rfl | h)
    · exact Or.inl rfl
    · exact Or.inr (row_same_iff.2 ((row_same_iff.1 h).flip.imp fun _ _ => value_same_symm))
  trans := by
    rintro a b c (rfl | h) (rfl | h')
    · exact Or.inl rfl
    · exact Or.inr h'
    · exact Or.inr h
    · exact Or.inr (row_same_trans h h')

/-- No row equals one before it. -/
def NoRepeats (rows : List Row) : Prop := rows.Pairwise fun a b => Row.same a b = false

end Alike

/-! ### Rows without repetitions -/

section Dedup
variable {rows out : List Row}

/-- The accumulator stays as it is, and gets the rows that equal none in it. -/
lemma dedup_from (rows out : List Row) : ∃ rest,
    rows.foldl (fun out r => if out.any (Row.same · r) then out else out ++ [r]) out = out ++ rest ∧
    (∀ r ∈ rest, r ∈ rows) ∧ (∀ r ∈ rows, r ∈ span Alike (out ++ rest)) ∧
    (NoRepeats out → NoRepeats (out ++ rest)) := by
  induction rows generalizing out with
  | nil => exact ⟨[], by simp, by simp, by simp, by simp⟩
  | cons r rows ih =>
    rw [List.foldl_cons]
    split_ifs with hin
    · obtain ⟨rest, heq, hmem, hall, hno⟩ := ih out
      refine ⟨rest, heq, fun c hc => List.mem_cons_of_mem r (hmem c hc), fun c hc => ?_, hno⟩
      rcases List.mem_cons.1 hc with rfl | hc
      · obtain ⟨o, ho, hsame⟩ := List.any_eq_true.1 hin
        exact ⟨o, List.mem_append_left _ ho, Or.inr hsame⟩
      · exact hall c hc
    · obtain ⟨rest, heq, hmem, hall, hno⟩ := ih (out ++ [r])
      refine ⟨r :: rest, by rw [heq, List.append_assoc, List.singleton_append], fun c hc => ?_,
        fun c hc => ?_, fun hout => ?_⟩
      · rcases List.mem_cons.1 hc with rfl | hc
        · exact List.mem_cons_self
        · exact List.mem_cons_of_mem r (hmem c hc)
      · rw [← List.singleton_append, ← List.append_assoc]
        rcases List.mem_cons.1 hc with rfl | hc
        · exact subset_span alike_equivalence (by simp)
        · exact hall c hc
      · rw [← List.singleton_append, ← List.append_assoc]
        refine hno (List.pairwise_append.2 ⟨hout, List.pairwise_singleton _ _, fun o ho c hc => ?_⟩)
        rw [List.mem_singleton.1 hc]
        have hnot : ¬ Row.same o r = true := fun h => hin (List.any_eq_true.2 ⟨o, ho, h⟩)
        exact eq_false_of_ne_true hnot

lemma mem_dedup {r : Row} (h : r ∈ dedupPreserving rows) : r ∈ rows := by
  obtain ⟨rest, heq, hmem, -⟩ := dedup_from rows []
  rw [dedupPreserving, heq, List.nil_append] at h
  exact hmem r h

lemma mem_span_dedup {r : Row} (h : r ∈ rows) : r ∈ span Alike (dedupPreserving rows) := by
  obtain ⟨rest, heq, -, hall, -⟩ := dedup_from rows []
  rw [dedupPreserving, heq]
  exact hall r h

lemma noRepeats_dedup : NoRepeats (dedupPreserving rows) := by
  obtain ⟨rest, heq, -, -, hno⟩ := dedup_from rows []
  rw [dedupPreserving, heq]
  exact hno List.Pairwise.nil

end Dedup

/-! ### Steps -/

/-- The rows of a step that are not among those so far. -/
def newRows (all rows : List Row) : List Row :=
  (dedupPreserving rows).filter fun r => !all.any (Row.same · r)

section NewRows
variable {all rows : List Row}

lemma mem_newRows {r : Row} (h : r ∈ newRows all rows) : r ∈ rows :=
  mem_dedup (List.mem_of_mem_filter h)

lemma mem_span_newRows {r : Row} (h : r ∈ rows) : r ∈ span Alike (all ++ newRows all rows) := by
  obtain ⟨c, hc, hcr⟩ : r ∈ span Alike (dedupPreserving rows) := mem_span_dedup h
  by_cases hin : all.any (Row.same · c) = true
  · obtain ⟨o, ho, hsame⟩ := List.any_eq_true.1 hin
    exact ⟨o, List.mem_append_left _ ho, alike_equivalence.trans (Or.inr hsame) hcr⟩
  · refine ⟨c, List.mem_append_right _ (List.mem_filter.2 ⟨hc, ?_⟩), hcr⟩
    rw [eq_false_of_ne_true hin]
    rfl

lemma noRepeats_newRows (h : NoRepeats all) : NoRepeats (all ++ newRows all rows) := by
  refine List.pairwise_append.2 ⟨h, noRepeats_dedup.filter _, fun o ho r hr => ?_⟩
  have hnot : (!all.any (Row.same · r)) = true := (List.mem_filter.1 hr).2
  rw [Bool.not_eq_true'] at hnot
  exact List.any_eq_false.1 hnot o ho |> eq_false_of_ne_true

end NewRows

section Run
variable {step : List Row → Result SelectOut} {n k : ℕ} {all working rows : List Row} {u : Bool}

/-- The rows a step adds. -/
def freshRows (union_all : Bool) (all rows : List Row) : List Row :=
  if union_all then rows else newRows all rows

lemma recursiveRows_succ : recursiveRows step n u (k + 1) all working = step working >>= fun out =>
    require (out.columns.length = n)
      (.sql "CTE recursiva: el término tiene distinto número de columnas que la semilla") >>= fun _ =>
    if (freshRows u all out.rows).isEmpty then .ok all
    else require ((all ++ freshRows u all out.rows).length ≤ MAX_ROWS)
        (.sql "CTE recursiva: demasiadas filas (¿recursión sin caso base?)") >>= fun _ =>
      recursiveRows step n u k (all ++ freshRows u all out.rows) (freshRows u all out.rows) := rfl

/-- What one turn of the loop can do. -/
lemma recursiveRows_ok (h : recursiveRows step n u (k + 1) all working = .ok rows) :
    ∃ out, step working = .ok out ∧
      ((freshRows u all out.rows = [] ∧ rows = all) ∨ (freshRows u all out.rows ≠ [] ∧
        recursiveRows step n u k (all ++ freshRows u all out.rows) (freshRows u all out.rows)
          = .ok rows)) := by
  rw [recursiveRows_succ] at h
  obtain ⟨out, hout, h⟩ := bind_eq_ok.1 h
  obtain ⟨_, _, h⟩ := bind_eq_ok.1 h
  refine ⟨out, hout, ?_⟩
  split_ifs at h with hfresh
  · cases h
    exact Or.inl ⟨List.isEmpty_iff.1 hfresh, rfl⟩
  · obtain ⟨_, _, h⟩ := bind_eq_ok.1 h
    exact Or.inr ⟨fun hnil => hfresh (List.isEmpty_iff.2 hnil), h⟩

/-- The loop ends: with each turn the rows get more, up to the most there may be. -/
lemma recursiveRows_ends (hk : 0 < k) (hmax : MAX_ROWS < k + all.length)
    (h : recursiveRows step n u k all working = .error .outOfFuel) :
    ∃ w, step w = .error .outOfFuel := by
  induction k generalizing all working with
  | zero => exact absurd hk (Nat.lt_irrefl 0)
  | succ k ih =>
    rw [recursiveRows_succ] at h
    rcases bind_eq_error.1 h with hstep | ⟨out, -, h⟩
    · exact ⟨working, hstep⟩
    rcases bind_eq_error.1 h with hcols | ⟨_, -, h⟩
    · cases (require_eq_error.1 hcols).2
    split_ifs at h with hfresh
    rcases bind_eq_error.1 h with hrows | ⟨_, hrows, h⟩
    · cases (require_eq_error.1 hrows).2
    have hle := require_eq_ok.1 hrows
    have hpos := List.length_pos_iff.2 fun hnil => hfresh (List.isEmpty_iff.2 hnil)
    rw [List.length_append] at hle
    refine ih ?_ ?_ h
    · omega
    · rw [List.length_append]
      omega

/-- The rows so far stay, and none is repeated behind them. -/
lemma recursiveRows_noRepeats (h : recursiveRows step n false k all working = .ok rows) :
    ∃ rest, rows = all ++ rest ∧ (NoRepeats all → NoRepeats rows) := by
  induction k generalizing all working with
  | zero => cases h
  | succ k ih =>
    obtain ⟨out, -, ⟨-, rfl⟩ | ⟨-, h⟩⟩ := recursiveRows_ok h
    · exact ⟨[], (List.append_nil _).symm, id⟩
    · obtain ⟨rest, rfl, hno⟩ := ih h
      exact ⟨_, List.append_assoc _ _ _, fun hall => hno (noRepeats_newRows hall)⟩

/-- With `UNION` the least closed set is built. -/
lemma recursiveRows_least {T : List Row → List Row} {seed : List Row}
    (hstep : ∀ w out, step w = .ok out → out.rows = T w) (hT : Distributes Alike T)
    (hb : Building Alike T seed all working)
    (h : recursiveRows step n false k all working = .ok rows) :
    IsLeastClosed Alike T seed (span Alike rows) := by
  induction k generalizing all working with
  | zero => cases h
  | succ k ih =>
    obtain ⟨out, hout, h⟩ := recursiveRows_ok h
    have hrows := hstep working out hout
    have hall : ∀ r ∈ T working, r ∈ span Alike (all ++ freshRows false all out.rows) :=
      fun r hr => mem_span_newRows (hrows ▸ hr)
    rcases h with ⟨hnil, rfl⟩ | ⟨-, h⟩
    · rw [hnil, List.append_nil] at hall
      exact hb.finish alike_equivalence hT hall
    · exact ih (hb.next alike_equivalence hT (fun r hr => hrows ▸ mem_newRows hr) hall) h

/-- The rounds of a term: each makes the next, the last nothing, and none between is empty. -/
structure Rounds (step : List Row → Result SelectOut) (W : ℕ → List Row) (n : ℕ) : Prop where
  next : ∀ i ≤ n, ∃ out, step (W i) = .ok out ∧ out.rows = W (i + 1)
  nonempty : ∀ i < n, W (i + 1) ≠ []
  last : W (n + 1) = []

/-- With `UNION ALL` the rows are those of all rounds. -/
lemma recursiveRows_rounds (h : recursiveRows step n true k all working = .ok rows) :
    ∃ W m, W 0 = working ∧ Rounds step W m ∧
      rows = all ++ (List.range m).flatMap fun i => W (i + 1) := by
  induction k generalizing all working with
  | zero => cases h
  | succ k ih =>
    obtain ⟨out, hout, ⟨hnil, rfl⟩ | ⟨hne, h⟩⟩ := recursiveRows_ok h
    · refine ⟨fun i => if i = 0 then working else [], 0, rfl, ⟨fun i hi => ?_, ?_, rfl⟩, by simp⟩
      · obtain rfl := Nat.le_zero.1 hi
        exact ⟨out, hout, hnil⟩
      · exact fun i hi => absurd hi (Nat.not_lt_zero i)
    · obtain ⟨W, m, hfirst, hrounds, rfl⟩ := ih h
      refine ⟨fun i => Nat.casesOn i working W, m + 1, rfl, ⟨fun i hi => ?_, fun i hi => ?_,
        hrounds.last⟩, ?_⟩
      · cases i with
        | zero => exact ⟨out, hout, hfirst.symm⟩
        | succ i => exact hrounds.next i (Nat.le_of_succ_le_succ hi)
      · cases i with
        | zero =>
          change W 0 ≠ []
          rwa [hfirst]
        | succ i => exact hrounds.nonempty i (Nat.lt_of_succ_lt_succ hi)
      · rw [List.range_succ_eq_map, List.flatMap_cons, List.flatMap_map, ← List.append_assoc,
          ← hfirst]

end Run

/-! ### The table -/

/-- The statement of the seed. -/
def seedOf (cte : Cte) : SelectStmt :=
  { cte.query with compound := [], order_by := [], limit := none, offset := none }

/-- The term where the table holds some rows. -/
def termOn (rec : Source → SelectStmt → Result SelectOut) (src : Source) (ctes : List CteEntry)
    (cte : Cte) (idx : ℕ) (columns : List String) (term : SelectStmt) (rows : List Row) :
    Result SelectOut :=
  rec (.cte src (ctes ++ [⟨cte.name, syntheticCteDef cte.name columns idx, rows⟩])) term

/-- The rows are the fixpoint of the term from the seed. With `UNION ALL` they are those of all
rounds; with `UNION` there are no repetitions, and where the term distributes over unions, the rows
are the least set with the seed that is closed under it. -/
structure IsFixpoint (op : SetOp) (term : List Row → Result SelectOut) (seed rows : List Row) :
    Prop where
  all : op = .unionAll → ∃ W m, W 0 = seed ∧ Rounds term W m ∧
    rows = (List.range (m + 1)).flatMap W
  noRepeats : op ≠ .unionAll → NoRepeats rows
  least : op ≠ .unionAll → ∀ T : List Row → List Row,
    (∀ w out, term w = .ok out → out.rows = T w) → Distributes Alike T →
      IsLeastClosed Alike T seed (span Alike rows)

section Table
variable {rec : Source → SelectStmt → Result SelectOut} {src : Source} {ctes : List CteEntry}
  {cte : Cte} {idx : ℕ} {entry : CteEntry}

lemma materializeRecursive_ok (h : materializeRecursive rec src ctes cte idx = .ok entry) :
    ∃ arm seed rows, cte.query.compound = [arm] ∧ rec (.cte src ctes) (seedOf cte) = .ok seed ∧
      entry = ⟨cte.name, syntheticCteDef cte.name seed.columns idx, rows⟩ ∧
      recursiveRows (termOn rec src ctes cte idx seed.columns arm.select) seed.columns.length
        (arm.op == .unionAll) (MAX_ROWS + 1) seed.rows seed.rows = .ok rows := by
  unfold materializeRecursive at h
  split at h
  · next arm harm =>
    obtain ⟨seed, hseed, h⟩ := bind_eq_ok.1 h
    obtain ⟨rows, hrows, h⟩ := bind_eq_ok.1 h
    cases h
    exact ⟨arm, seed, rows, harm, hseed, rfl, hrows⟩
  · cases h

lemma materializeRecursive_ends
    (h : materializeRecursive rec src ctes cte idx = .error .outOfFuel) :
    ∃ src stmt, rec src stmt = .error .outOfFuel := by
  unfold materializeRecursive at h
  split at h
  · rcases bind_eq_error.1 h with hseed | ⟨seed, -, h⟩
    · exact ⟨_, _, hseed⟩
    rcases bind_eq_error.1 h with hrows | ⟨rows, -, h⟩
    · obtain ⟨w, hw⟩ := recursiveRows_ends (Nat.succ_pos _) (by omega) hrows
      exact ⟨_, _, hw⟩
    · cases h
  · cases h

/-- The table is the fixpoint of its term, with repetitions only where the seed has some; and no
table goes on for ever by itself. -/
theorem recursive_table (rec : Source → SelectStmt → Result SelectOut) (src : Source)
    (ctes : List CteEntry) (cte : Cte) (idx : ℕ) :
    (materializeRecursive rec src ctes cte idx = .error .outOfFuel →
      ∃ src stmt, rec src stmt = .error .outOfFuel) ∧
    ∀ entry, materializeRecursive rec src ctes cte idx = .ok entry →
      ∃ arm seed, cte.query.compound = [arm] ∧ rec (.cte src ctes) (seedOf cte) = .ok seed ∧
        (IsFixpoint arm.op (termOn rec src ctes cte idx seed.columns arm.select) seed.rows entry.rows
          ↔ arm.op = .unionAll ∨ NoRepeats seed.rows) := by
  refine ⟨materializeRecursive_ends, fun entry h => ?_⟩
  obtain ⟨arm, seed, rows, harm, hseed, rfl, hrows⟩ := materializeRecursive_ok h
  refine ⟨arm, seed, harm, hseed, ?_⟩
  by_cases hop : arm.op = .unionAll
  · refine iff_of_true ?_ (Or.inl hop)
    rw [hop] at hrows ⊢
    obtain ⟨W, m, hfirst, hrounds, rfl⟩ := recursiveRows_rounds hrows
    refine ⟨fun _ => ⟨W, m, hfirst, hrounds, ?_⟩, fun h => absurd rfl h, fun h => absurd rfl h⟩
    rw [List.range_succ_eq_map, List.flatMap_cons, List.flatMap_map, hfirst]
  · have hunion : (arm.op == .unionAll) = false := beq_eq_false_iff_ne.2 hop
    rw [hunion] at hrows
    obtain ⟨rest, heq, hno⟩ := recursiveRows_noRepeats hrows
    constructor
    · intro hfix
      have hall := hfix.noRepeats hop
      rw [heq] at hall
      exact Or.inr (List.pairwise_append.1 hall).1
    · rintro (h | h)
      · exact absurd h hop
      · exact ⟨fun h => absurd h hop, fun _ => hno h, fun _ T hstep hT =>
          recursiveRows_least hstep hT (.start alike_equivalence) hrows⟩

end Table

/-! ### A seed with repetitions -/

section Ones

/-- A table `t(a)` with two rows. -/
def twoOnes : DataSource :=
  { oneTable plainTable with scan_rows := fun _ => .ok [[.integer 1], [.integer 1]] }

def selectA (table : String) (where_clause : Option Expr) (compound : List CompoundSelect) :
    SelectStmt :=
  ⟨false, [.expr (.column none "a") none], some ⟨table, none, none⟩, [], where_clause, [], none, [],
    none, none, none, compound, []⟩

/-- `c AS (SELECT a FROM t UNION SELECT a FROM c WHERE a < 0)`. -/
def onesCte : Cte :=
  ⟨"c", selectA "t" none
    [⟨.union, selectA "c" (some (.node (.binary .lt) [.column none "a", .literal (.integer 0)])) []⟩]⟩

/-- The table of the statement. -/
def onesTable : Result CteEntry :=
  materializeRecursive ((engine noBuiltins).run [] 2) (.base twoOnes) [] onesCte 0

lemma onesTable_rows : onesTable.map CteEntry.rows = .ok [[.integer 1], [.integer 1]] := by
  decide +kernel

lemma onesTable_ok : ∃ entry, onesTable = .ok entry ∧
    entry.rows = [[.integer 1], [.integer 1]] := by
  have h := onesTable_rows
  cases ho : onesTable with
  | error e =>
    rw [ho] at h
    cases h
  | ok entry =>
    rw [ho] at h
    exact ⟨entry, rfl, Except.ok.inj h⟩

/-- With `UNION`, the table has a row twice. -/
theorem recursive_table_repeats : ∃ entry, onesTable = .ok entry ∧ ¬ NoRepeats entry.rows := by
  obtain ⟨entry, hentry, hrows⟩ := onesTable_ok
  refine ⟨entry, hentry, ?_⟩
  rw [hrows, NoRepeats]
  decide +kernel

/-- The theorem at this table. -/
theorem recursive_table_ones : ∃ entry, onesTable = .ok entry ∧
    ∃ arm seed, onesCte.query.compound = [arm] ∧
      (engine noBuiltins).run [] 2 (.cte (.base twoOnes) []) (seedOf onesCte) = .ok seed ∧
      (IsFixpoint arm.op (termOn ((engine noBuiltins).run [] 2) (.base twoOnes) [] onesCte 0
          seed.columns arm.select) seed.rows entry.rows
        ↔ arm.op = .unionAll ∨ NoRepeats seed.rows) := by
  obtain ⟨entry, hentry, -⟩ := onesTable_ok
  exact ⟨entry, hentry, (recursive_table _ _ _ _ _).2 entry hentry⟩

end Ones

end Arkeion.Sql
