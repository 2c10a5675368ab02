import Arkeion.Sql.FunctionPanics

/-!
Which expressions end the process on a row.

An operand is read if whatever error it gives is that of the node. An expression ends the process if
and only if evaluation comes to a call that does, or to a full text search that does: no other node
leaves its words and slices.
-/

namespace Arkeion.Sql

open Arkeion.Lib Catalog Scalar

/-! ### Expressions of the syntax -/

/-- The number of operands that an operator has. -/
def Op.Takes (n : ℕ) : Op → Prop
  | .unary _ | .isNull _ | .cast _ => n = 1
  | .binary _ | .like _ | .match_ _ => n = 2
  | .function _ => True
  | .in_ _ => 1 ≤ n
  | .case_ operand else_ => ∃ whens, n = 2 * whens + operand.toNat + else_.toNat

mutual

/-- Every operator has its operands. -/
def Expr.Formed : Expr → Prop
  | .node op args => op.Takes args.length ∧ allFormed args
  | .literal _ | .param _ | .column .. | .aggregate .. | .scalarSubquery _ | .exists_ _
  | .inSubquery .. | .window .. => True

def allFormed : List Expr → Prop
  | [] => True
  | e :: es => e.Formed ∧ allFormed es

end

lemma Formed.of_mem {e : Expr} {es : List Expr} (h : allFormed es) (he : e ∈ es) : e.Formed := by
  induction es with
  | nil => cases he
  | cons e' es ih =>
    rcases List.mem_cons.1 he with rfl | he
    · exact h.1
    · exact ih h.2 he

/-- Every table has its part of the row. -/
def Scope.Fits (row : Scope) : Prop := ∀ schema values, row = some (schema, values) →
  ∀ t ∈ schema.tables, t.offset + t.def_.columns.length ≤ values.length

section Reads
variable (B : Builtins) (op : Op) (args : List Expr) (vals : List (Result Value)) (row : Scope)

/-- The operand `i` is read: whatever error it gives is that of the node. -/
def Reads (i : ℕ) : Prop := ∀ e, nodeValue B op args (vals.set i (.error e)) row = .error e

/-- An operand that is read ends the process. -/
def OperandPanics : Prop := ∃ i e, vals[i]? = some (.error e) ∧ e.IsPanic ∧ Reads B op args vals row i

lemma OperandPanics.panics (h : OperandPanics B op args vals row) :
    Panics (nodeValue B op args vals row) := by
  obtain ⟨i, e, hi, he, hreads⟩ := h
  have hsame : vals.set i (.error e) = vals := by
    obtain ⟨hlt, hget⟩ := List.getElem?_eq_some_iff.1 hi
    rw [← hget, List.set_getElem_self]
  have hnode := hreads e
  rw [hsame] at hnode
  exact ⟨e, hnode, he⟩

end Reads

/-! ### Operators over their operands -/

section Operands
variable {B : Builtins} {vals items : List (Result Value)} {r left right : Result Value} {v : Value}
  {b negated saw_null : Bool} {ov : Option Value} {α : Type}

lemma panics_of_bind {f : Value → Result α} (hf : ∀ v, ¬ Panics (f v)) (h : Panics (r >>= f)) :
    ∃ e, r = .error e ∧ e.IsPanic := by
  rcases panics_bind.1 h with h | ⟨v, -, h⟩
  · exact h
  · exact absurd h (hf v)

/-- A sequence of results. -/
lemma mapM_panics (h : Panics (vals.mapM id)) : ∃ i e, vals[i]? = some (.error e) ∧ e.IsPanic ∧
    ∀ e', (vals.set i (.error e')).mapM id = .error e' := by
  obtain ⟨before, r, after, rfl, hbefore, e, he, hpanic⟩ := panics_mapM.1 h
  refine ⟨before.length, e, ?_, hpanic, fun e' => ?_⟩
  · rw [List.getElem?_append_right le_rfl, Nat.sub_self]
    exact congrArg some he
  · rw [List.set_append_right _ _ le_rfl, Nat.sub_self, List.set_cons_zero]
    clear h
    induction before with
    | nil => rfl
    | cons x before ih =>
      obtain ⟨⟨z, hz⟩, hbefore⟩ := List.forall_mem_cons.1 hbefore
      have hx : x = .ok z := hz
      rw [List.cons_append, List.mapM_cons, ih hbefore, hx]
      rfl

lemma evalIn_panics (h : Panics (evalIn B v negated items saw_null)) :
    ∃ i e, items[i]? = some (.error e) ∧ e.IsPanic ∧
      ∀ e', evalIn B v negated (items.set i (.error e')) saw_null = .error e' := by
  induction items generalizing saw_null with
  | nil => exact absurd h (panics_ok _).1
  | cons item items ih =>
    cases item with
    | error e => exact ⟨0, e, rfl, (panics_error e).1 h, fun e' => rfl⟩
    | ok iv =>
      rw [evalIn, ok_bind] at h
      rcases panics_bind.1 h with h | ⟨o, ho, h⟩
      · exact absurd h cmpValues_quiet
      · have hstep : ∀ items, evalIn B v negated (.ok iv :: items) saw_null
            = if o = some .eq then .ok (.bool !negated)
              else evalIn B v negated items (if o = none then true else saw_null) := by
          intro items
          rw [evalIn, ok_bind, ho, ok_bind]
          rcases o with _ | _ | _ | _ <;> rfl
        have hrest : Panics (evalIn B v negated (.ok iv :: items) saw_null) := by
          rw [evalIn, ok_bind, ho, ok_bind]
          exact h
        rw [hstep] at hrest
        by_cases heq : o = some .eq
        · rw [if_pos heq] at hrest
          exact absurd hrest (panics_ok _).1
        · rw [if_neg heq] at hrest
          obtain ⟨i, e, hi, he, hreads⟩ := ih hrest
          refine ⟨i + 1, e, hi, he, fun e' => ?_⟩
          rw [List.set_cons_succ, hstep, if_neg heq]
          exact hreads e'

/-- Whether a condition holds, or is equal to the operand. -/
def hitOf (B : Builtins) (ov : Option Value) (c : Value) : Result Bool :=
  match ov with
  | none => truthy c
  | some ov => do
    let o ← cmpValues B ov c
    .ok (o == some .eq)

lemma truthy_quiet : ¬ Panics (truthy v) := by
  refine not_panics_bind ?_ fun b => by simp
  unfold truthy3
  split <;> simp

lemma hitOf_quiet : ¬ Panics (hitOf B ov v) := by
  cases ov with
  | none => exact truthy_quiet
  | some ov => exact not_panics_bind cmpValues_quiet fun o => by simp

lemma evalWhens_cons {rest : List (Result Value)} : evalWhens B ov (left :: right :: rest)
    = left >>= fun c => hitOf B ov c >>= fun hit => if hit then right else evalWhens B ov rest := by
  cases ov with
  | none => rfl
  | some ov =>
    cases left with
    | error e => rfl
    | ok v =>
      rw [evalWhens, ok_bind, ok_bind, hitOf]
      dsimp only
      cases cmpValues B ov v <;> rfl

lemma evalWhens_panics (h : Panics (evalWhens B ov vals)) : ∃ i e, vals[i]? = some (.error e) ∧
    e.IsPanic ∧ ∀ e', evalWhens B ov (vals.set i (.error e')) = .error e' := by
  induction vals using evalWhens.induct with
  | case1 => exact absurd h (panics_ok _).1
  | case2 else_ =>
    obtain ⟨e, he, hpanic⟩ := h
    exact ⟨0, e, congrArg some he, hpanic, fun e' => rfl⟩
  | case3 cond res rest ih =>
    rw [evalWhens_cons] at h
    cases cond with
    | error e => exact ⟨0, e, rfl, (panics_error e).1 h, fun e' => evalWhens_cons⟩
    | ok c₀ =>
      rw [ok_bind] at h
      rcases panics_bind.1 h with h | ⟨hit, hhit, h⟩
      · exact absurd h hitOf_quiet
      · have hstep : ∀ res rest, evalWhens B ov (.ok c₀ :: res :: rest)
            = if hit = true then res else evalWhens B ov rest := by
          intro res rest
          rw [evalWhens_cons, ok_bind, hhit, ok_bind]
        by_cases hhold : hit = true
        · rw [if_pos hhold] at h
          obtain ⟨e, he, hpanic⟩ := h
          refine ⟨1, e, congrArg some he, hpanic, fun e' => ?_⟩
          rw [List.set_cons_succ, List.set_cons_zero, hstep, if_pos hhold]
        · rw [if_neg hhold] at h
          obtain ⟨i, e, hi, he, hreads⟩ := ih h
          refine ⟨i + 2, e, hi, he, fun e' => ?_⟩
          rw [List.set_cons_succ, List.set_cons_succ, hstep, if_neg hhold]
          exact hreads e'

/-- Two operands that are both read if the first gives a value. -/
lemma pair_panics {g : Value → Value → Result Value} (hg : ∀ l r, ¬ Panics (g l r))
    (h : Panics (left >>= fun l => right >>= fun r => g l r)) :
    (∃ e, left = .error e ∧ e.IsPanic) ∨ ∃ l e, left = .ok l ∧ right = .error e ∧ e.IsPanic := by
  rcases panics_bind.1 h with ⟨e, he⟩ | ⟨l, hl, h⟩
  · exact Or.inl ⟨e, he⟩
  · obtain ⟨e, he, hpanic⟩ := panics_of_bind (hg l) h
    exact Or.inr ⟨l, e, hl, he, hpanic⟩

end Operands

/-! ### Full text search -/

section Search
variable (B : Builtins) (args : List Expr) (vals : List (Result Value)) (row : Scope)

/-- The column that a search is on, with its table, its index and the row. -/
def SearchOn (t : SchemaTable) (i : ℕ) (fts : FtsIndexDef) (full : Row) : Prop :=
  ∃ tq name schema, args.head? = some (.column tq name) ∧ row = some (schema, full) ∧
    ftsOf schema tq name = .ok (t, i, fts)

/-- The query is a text. -/
def QueryText (q : String) : Prop := vals.getD 1 (.ok .null) = .ok (.text q)

/-- Reading the query, or looking for it in the row, ends the process. -/
def MatchPanics : Prop := ∃ t i fts full q, SearchOn args row t i fts full ∧ QueryText vals q ∧
  (Panics (B.parseQuery q) ∨
    ∃ query, B.parseQuery q = .ok query ∧ Panics (B.rowMatches t.def_ fts (t.part full) query))

/-- There is no way to cut the text into words, or to read the query. -/
def ExcerptPanics : Prop := ∃ t i fts full, SearchOn args row t i fts full ∧ 2 ≤ args.length ∧
  (Panics (B.tokenizerFor fts.tokenizer) ∨ ∃ text q, B.tokenizerFor fts.tokenizer = .ok () ∧
    full[t.offset + i]? = some (.text text) ∧ QueryText vals q ∧ Panics (B.parseQuery q))

def Bm25Panics : Prop := ∃ tq name x schema full t i fts q ctx, args = [.column tq name, x] ∧
  row = some (schema, full) ∧ QueryText vals q ∧ ftsOf schema tq name = .ok (t, i, fts) ∧
  schema.fts_rank.lookup (fts.fts_id, q) = some ctx ∧ Panics (B.tokenizerFor fts.tokenizer)

/-- What a search calls ends the process. -/
def SearchPanics : Op → Prop
  | .match_ _ => MatchPanics B args vals row
  | .function name =>
    (name = "snippet" ∨ name = "highlight") ∧ ExcerptPanics B args vals row ∨
      name = "bm25" ∧ Bm25Panics B args vals row
  | _ => False

end Search

section SearchLemmas
variable {B : Builtins} {op : Op} {args : List Expr} {vals : List (Result Value)} {row : Scope}
  {negated : Bool} {fname : String}

lemma ownerOf_quiet {schema : QuerySchema} {tq : Option String} {name : String} :
    ¬ Panics (schema.ownerOf tq name) := by
  unfold QuerySchema.ownerOf
  split
  · exact not_panics_bind (by simp) fun t => not_panics_bind (by simp) fun i => by simp
  · split <;> simp

lemma ftsOf_quiet {schema : QuerySchema} {tq : Option String} {name : String} :
    ¬ Panics (ftsOf schema tq name) :=
  not_panics_bind ownerOf_quiet fun p => not_panics_bind (by simp) fun fts => by simp

lemma ownerOf_lt {schema : QuerySchema} {tq : Option String} {name : String} {t : SchemaTable} {i : ℕ}
    (h : schema.ownerOf tq name = .ok (t, i)) : t ∈ schema.tables ∧ i < t.def_.columns.length := by
  unfold QuerySchema.ownerOf at h
  split at h
  · obtain ⟨t', ht, h⟩ := bind_eq_ok.1 h
    obtain ⟨i', hi, h⟩ := bind_eq_ok.1 h
    cases h
    exact ⟨List.mem_of_find?_eq_some (okOr_eq_ok.1 ht), TableDef.visible_lt (okOr_eq_ok.1 hi)⟩
  · split at h
    · cases h
    · next hit hhits =>
      cases h
      have hmem : (t, i) ∈ schema.tables.filterMap fun t => (t.def_.visible name).map fun i => (t, i) :=
        hhits ▸ List.mem_singleton_self _
      obtain ⟨t', ht', hsome⟩ := List.mem_filterMap.1 hmem
      obtain ⟨i', hi', heq⟩ := Option.map_eq_some_iff.1 hsome
      cases heq
      exact ⟨ht', TableDef.visible_lt hi'⟩
    · cases h

/-- The query is read where it can be: an operand that panics is the second. -/
lemma query_panics (h : Panics (vals.getD 1 (.ok .null))) : ∃ e, vals[1]? = some (.error e) ∧ e.IsPanic := by
  obtain ⟨e, he, hpanic⟩ := h
  rw [List.getD_eq_getElem?_getD] at he
  cases hval : vals[1]? with
  | none =>
    rw [hval] at he
    cases he
  | some r =>
    rw [hval] at he
    exact ⟨e, congrArg some he, hpanic⟩

lemma getD_set_one {e : Error} (h : 1 < vals.length) :
    (vals.set 1 (.error e)).getD 1 (.ok .null) = .error e := by
  rw [List.getD_eq_getElem?_getD, List.getElem?_set_self h]
  rfl

lemma evalMatch_panics (h : Panics (evalMatch B negated args vals row)) :
    (∃ e, vals[1]? = some (.error e) ∧ e.IsPanic ∧
      ∀ e', evalMatch B negated args (vals.set 1 (.error e')) row = .error e') ∨
    MatchPanics B args vals row := by
  unfold evalMatch at h
  split at h
  · next tq name hhead =>
    rcases panics_bind.1 h with h | ⟨⟨schema, full⟩, hrow, h⟩
    · simp at h
    rcases panics_bind.1 h with h | ⟨⟨t, i, fts⟩, hfts, h⟩
    · exact absurd h ftsOf_quiet
    rcases panics_bind.1 h with h | ⟨q, hq, h⟩
    · obtain ⟨e, he, hpanic⟩ := query_panics h
      refine Or.inl ⟨e, he, hpanic, fun e' => ?_⟩
      unfold evalMatch
      rw [hhead]
      dsimp only
      rw [hrow, ok_bind]
      dsimp only
      rw [hfts, ok_bind]
      dsimp only
      rw [getD_set_one (List.getElem?_eq_some_iff.1 he).1]
      rfl
    · split at h
      · simp at h
      · next text =>
        refine Or.inr ⟨t, i, fts, full, text, ⟨tq, name, schema, hhead, okOr_eq_ok.1 hrow, hfts⟩, hq, ?_⟩
        rcases panics_bind.1 h with h | ⟨query, hquery, h⟩
        · exact Or.inl h
        · rcases panics_bind.1 h with h | ⟨hit, -, h⟩
          · exact Or.inr ⟨query, hquery, h⟩
          · simp at h
      · simp at h
  · simp at h

lemma MatchPanics.panics (h : MatchPanics B args vals row) :
    Panics (evalMatch B negated args vals row) := by
  obtain ⟨t, i, fts, full, q, ⟨tq, name, schema, hhead, rfl, hfts⟩, hq, h⟩ := h
  unfold evalMatch
  rw [hhead]
  dsimp only
  rw [okOr_some, ok_bind]
  dsimp only
  rw [hfts, ok_bind]
  dsimp only
  rw [hq, ok_bind]
  rcases h with h | ⟨query, hquery, h⟩
  · exact panics_bind.2 (Or.inl h)
  · exact panics_bind.2 (Or.inr ⟨query, hquery, panics_bind.2 (Or.inl h)⟩)

/-- An operand of a search behind the query. -/
def OptionPanics (vals : List (Result Value)) (g : List (Result Value) → Result Value) : Prop :=
  ∃ i e, 2 ≤ i ∧ vals[i]? = some (.error e) ∧ e.IsPanic ∧ ∀ e', g (vals.set i (.error e')) = .error e'

lemma strArg_panics {i : ℕ} {default : String} (h : Panics (strArg fname vals i default)) :
    ∃ e, vals[i]? = some (.error e) ∧ e.IsPanic := by
  unfold strArg at h
  split at h
  · simp at h
  · next r hr =>
    rcases panics_bind.1 h with ⟨e, rfl, hpanic⟩ | ⟨v, -, h⟩
    · exact ⟨e, hr, hpanic⟩
    · split at h <;> simp at h

lemma strArg_set {i : ℕ} {e : Error} {default : String} (h : i < vals.length) :
    strArg fname (vals.set i (.error e)) i default = .error e := by
  rw [strArg, List.getElem?_set_self h]
  rfl

lemma strArg_set_ne {i j : ℕ} {r : Result Value} {default : String} (h : i ≠ j) :
    strArg fname (vals.set i r) j default = strArg fname vals j default := by
  rw [strArg, strArg, List.getElem?_set_ne h]

lemma maxTokens_panics (h : Panics (maxTokens vals)) : ∃ e, vals[5]? = some (.error e) ∧ e.IsPanic := by
  unfold maxTokens at h
  split at h
  · simp at h
  · next r hr =>
    rcases panics_bind.1 h with ⟨e, rfl, hpanic⟩ | ⟨v, -, h⟩
    · exact ⟨e, hr, hpanic⟩
    · split at h
      · split_ifs at h <;> simp at h
      · simp at h

lemma excerptOf_panics {tokenizer text q : String} (h : Panics (excerptOf B fname tokenizer text q vals)) :
    Panics (B.parseQuery q) ∨ OptionPanics vals (excerptOf B fname tokenizer text q) := by
  rcases panics_bind.1 h with h | ⟨query, hquery, h⟩
  · exact Or.inl h
  refine Or.inr ?_
  rcases panics_bind.1 h with h | ⟨open_, hopen, h⟩
  · obtain ⟨e, he, hpanic⟩ := strArg_panics h
    have hlt := (List.getElem?_eq_some_iff.1 he).1
    refine ⟨2, e, le_rfl, he, hpanic, fun e' => ?_⟩
    rw [excerptOf, hquery, ok_bind, strArg_set hlt]
    rfl
  rcases panics_bind.1 h with h | ⟨close, hclose, h⟩
  · obtain ⟨e, he, hpanic⟩ := strArg_panics h
    have hlt := (List.getElem?_eq_some_iff.1 he).1
    refine ⟨3, e, by norm_num, he, hpanic, fun e' => ?_⟩
    rw [excerptOf, hquery, ok_bind, strArg_set_ne (by norm_num), hopen, ok_bind, strArg_set hlt]
    rfl
  by_cases hname : fname = "highlight"
  · rw [if_pos hname] at h
    exact absurd h (panics_ok _).1
  rw [if_neg hname] at h
  rcases panics_bind.1 h with h | ⟨ellipsis, hellipsis, h⟩
  · obtain ⟨e, he, hpanic⟩ := strArg_panics h
    have hlt := (List.getElem?_eq_some_iff.1 he).1
    refine ⟨4, e, by norm_num, he, hpanic, fun e' => ?_⟩
    rw [excerptOf, hquery, ok_bind, strArg_set_ne (by norm_num), hopen, ok_bind,
      strArg_set_ne (by norm_num), hclose, ok_bind, if_neg hname, strArg_set hlt]
    rfl
  rcases panics_bind.1 h with h | ⟨max_tokens, -, h⟩
  · obtain ⟨e, he, hpanic⟩ := maxTokens_panics h
    have hlt := (List.getElem?_eq_some_iff.1 he).1
    refine ⟨5, e, by norm_num, he, hpanic, fun e' => ?_⟩
    rw [excerptOf, hquery, ok_bind, strArg_set_ne (by norm_num), hopen, ok_bind,
      strArg_set_ne (by norm_num), hclose, ok_bind, if_neg hname, strArg_set_ne (by norm_num), hellipsis,
      ok_bind, maxTokens, List.getElem?_set_self hlt]
    rfl
  · exact absurd h (panics_ok _).1

lemma ftsOf_lt {schema : QuerySchema} {tq : Option String} {name : String} {t : SchemaTable} {i : ℕ}
    {fts : FtsIndexDef} (h : ftsOf schema tq name = .ok (t, i, fts)) :
    t ∈ schema.tables ∧ i < t.def_.columns.length := by
  obtain ⟨⟨t', i'⟩, howner, h⟩ := bind_eq_ok.1 h
  obtain ⟨fts', -, h⟩ := bind_eq_ok.1 h
  cases h
  exact ownerOf_lt howner

/-- An excerpt for a query that was read. -/
def excerptFor (B : Builtins) (fname tokenizer text : String) (vals : List (Result Value)) :
    Value → Result Value
  | .null => .ok .null
  | .text q => excerptOf B fname tokenizer text q vals
  | _ => .error (.sql s!"{fname}(): la consulta debe ser texto")

lemma evalExcerpt_text {tq : Option String} {name text : String} {schema : QuerySchema} {t : SchemaTable}
    {i : ℕ} {fts : FtsIndexDef} {full : Row} (hhead : args.head? = some (.column tq name))
    (hrow : row = some (schema, full)) (hlen : 2 ≤ args.length)
    (hfts : ftsOf schema tq name = .ok (t, i, fts)) (htok : B.tokenizerFor fts.tokenizer = .ok ())
    (hv : full[t.offset + i]? = some (.text text)) : evalExcerpt B fname args vals row
      = vals.getD 1 (.ok .null) >>= excerptFor B fname fts.tokenizer text vals := by
  unfold evalExcerpt
  rw [hrow, okOr_some, ok_bind]
  dsimp only
  rw [require_pos hlen, ok_bind, hhead]
  dsimp only
  rw [hfts, ok_bind]
  dsimp only
  rw [htok, ok_bind, hv, okOr_some, ok_bind]
  dsimp only
  cases vals.getD 1 (.ok .null) with
  | error e => rfl
  | ok q => cases q <;> rfl

lemma evalExcerpt_panics (hrow : row.Fits) (h : Panics (evalExcerpt B fname args vals row)) :
    (∃ i e, vals[i]? = some (.error e) ∧ e.IsPanic ∧
      ∀ e', evalExcerpt B fname args (vals.set i (.error e')) row = .error e') ∨
    ExcerptPanics B args vals row := by
  have hwhole := h
  rcases panics_bind.1 h with h | ⟨⟨schema, full⟩, hsome, h⟩
  · simp at h
  rcases panics_bind.1 h with h | ⟨u, hlen, h⟩
  · exact absurd h not_panics_require
  rw [require_eq_ok] at hlen
  have hsome := okOr_eq_ok.1 hsome
  split at h
  · next tq name hhead =>
    rcases panics_bind.1 h with h | ⟨⟨t, i, fts⟩, hfts, h⟩
    · exact absurd h ftsOf_quiet
    have hon : SearchOn args row t i fts full := ⟨tq, name, schema, hhead, hsome, hfts⟩
    rcases panics_bind.1 h with h | ⟨⟨⟩, htok, h⟩
    · exact Or.inr ⟨t, i, fts, full, hon, hlen, Or.inl h⟩
    rcases panics_bind.1 h with h | ⟨v, hv, h⟩
    · obtain ⟨hmem, hi⟩ := ftsOf_lt hfts
      have hfit := hrow schema full hsome t hmem
      rw [panics_okOr, List.getElem?_eq_none_iff] at h
      exact absurd h.1 (by omega)
    have hv := okOr_eq_ok.1 hv
    cases v with
    | null => simp at h
    | text text =>
      have htext : ∀ vals, evalExcerpt B fname args vals row
          = vals.getD 1 (.ok .null) >>= excerptFor B fname fts.tokenizer text vals :=
        fun vals => evalExcerpt_text hhead hsome hlen hfts htok hv
      rw [htext] at hwhole
      rcases panics_bind.1 hwhole with hwhole | ⟨q, hq, hwhole⟩
      · obtain ⟨e, he, hpanic⟩ := query_panics hwhole
        refine Or.inl ⟨1, e, he, hpanic, fun e' => ?_⟩
        rw [htext, getD_set_one (List.getElem?_eq_some_iff.1 he).1]
        rfl
      · unfold excerptFor at hwhole
        split at hwhole
        · simp at hwhole
        · next q =>
          rcases excerptOf_panics hwhole with hparse | ⟨j, e, hj, he, hpanic, hreads⟩
          · exact Or.inr ⟨t, i, fts, full, hon, hlen, Or.inr ⟨text, q, htok, hv, hq, hparse⟩⟩
          · refine Or.inl ⟨j, e, he, hpanic, fun e' => ?_⟩
            have hsame : (vals.set j (.error e')).getD 1 (.ok .null) = .ok (.text q) := by
              rw [List.getD_eq_getElem?_getD, List.getElem?_set_ne (by omega),
                ← List.getD_eq_getElem?_getD, hq]
            rw [htext, hsame]
            exact hreads e'
        · simp at hwhole
    | _ => simp at h
  · simp at h

lemma ExcerptPanics.panics (h : ExcerptPanics B args vals row) :
    Panics (evalExcerpt B fname args vals row) := by
  obtain ⟨t, i, fts, full, ⟨tq, name, schema, hhead, hrow, hfts⟩, hlen, h⟩ := h
  rcases h with h | ⟨text, q, htok, hv, hq, h⟩
  · unfold evalExcerpt
    rw [hrow, okOr_some, ok_bind]
    dsimp only
    rw [require_pos hlen, ok_bind, hhead]
    dsimp only
    rw [hfts, ok_bind]
    exact panics_bind.2 (Or.inl h)
  · rw [evalExcerpt_text hhead hrow hlen hfts htok hv, hq, ok_bind]
    exact panics_bind.2 (Or.inl h)

lemma evalBm25_panics (h : Panics (evalBm25 B args vals row)) :
    (∃ e, vals[1]? = some (.error e) ∧ e.IsPanic ∧
      ∀ e', evalBm25 B args (vals.set 1 (.error e')) row = .error e') ∨
    Bm25Panics B args vals row := by
  rcases panics_bind.1 h with h | ⟨⟨schema, full⟩, hsome, h⟩
  · simp at h
  have hsome := okOr_eq_ok.1 hsome
  dsimp only at h
  split at h
  · rcases panics_bind.1 h with h | ⟨q, hq, h⟩
    · obtain ⟨e, he, hpanic⟩ := query_panics h
      refine Or.inl ⟨e, he, hpanic, fun e' => ?_⟩
      unfold evalBm25
      rw [hsome, okOr_some, ok_bind]
      dsimp only
      rw [getD_set_one (List.getElem?_eq_some_iff.1 he).1]
      rfl
    · split at h
      · simp at h
      · next text =>
        rcases panics_bind.1 h with h | ⟨⟨t, i, fts⟩, hfts, h⟩
        · exact absurd h ftsOf_quiet
        rcases panics_bind.1 h with h | ⟨ctx, hctx, h⟩
        · simp at h
        rcases panics_bind.1 h with h | ⟨u, -, h⟩
        · exact Or.inr ⟨_, _, _, schema, full, t, i, fts, text, ctx, rfl, hsome, hq, hfts,
            okOr_eq_ok.1 hctx, h⟩
        · simp at h
      · simp at h
  · simp at h
  · simp at h

lemma Bm25Panics.panics (h : Bm25Panics B args vals row) : Panics (evalBm25 B args vals row) := by
  obtain ⟨tq, name, x, schema, full, t, i, fts, q, ctx, rfl, hrow, hq, hfts, hctx, h⟩ := h
  unfold evalBm25
  rw [hrow, okOr_some, ok_bind]
  dsimp only
  rw [hq, ok_bind]
  dsimp only
  rw [hfts, ok_bind]
  dsimp only
  rw [hctx, okOr_some, ok_bind]
  exact panics_bind.2 (Or.inl h)

end SearchLemmas

/-! ### One node -/

section Node
variable {B : Builtins} {H : Host} {op : Op} {args : List Expr} {vals : List (Result Value)} {row : Scope}

/-- What a node does by itself ends the process: it is a call or a search. -/
def NodePanics (B : Builtins) (H : Host) (op : Op) (args : List Expr) (vals : List (Result Value))
    (row : Scope) : Prop :=
  SearchPanics (withFunctions B H) args vals row op ∨ ∃ name vs, op = .function name ∧
    name ≠ "snippet" ∧ name ≠ "highlight" ∧ name ≠ "bm25" ∧ vals = vs.map .ok ∧ BadCall B H name vs

lemma mapM_id_ok {vs : List Value} : vals.mapM id = .ok vs ↔ vals = vs.map .ok := by
  induction vals generalizing vs with
  | nil =>
    rw [List.mapM_nil]
    cases vs with
    | nil => simp [pure, Except.pure]
    | cons v vs => simp [pure, Except.pure]
  | cons r vals ih =>
    rw [List.mapM_cons, bind_eq_ok]
    constructor
    · rintro ⟨v, hv, h⟩
      obtain ⟨ws, hws, h⟩ := bind_eq_ok.1 h
      cases h
      have hr : r = .ok v := hv
      rw [List.map_cons, hr, ih.1 hws]
    · intro h
      cases vs with
      | nil => cases h
      | cons v vs =>
        obtain ⟨rfl, hvals⟩ := List.cons.inj h
        exact ⟨v, rfl, bind_eq_ok.2 ⟨vs, ih.2 hvals, rfl⟩⟩

lemma function_panics {name : String} (hname : name ≠ "snippet" ∧ name ≠ "highlight" ∧ name ≠ "bm25")
    (h : Panics (nodeValue (withFunctions B H) (.function name) args vals row)) :
    OperandPanics (withFunctions B H) (.function name) args vals row ∨
      ∃ vs, vals = vs.map .ok ∧ BadCall B H name vs := by
  obtain ⟨hsnippet, hhighlight, hbm25⟩ := hname
  have hnode : ∀ vals, nodeValue (withFunctions B H) (.function name) args vals row
      = vals.mapM id >>= callFunction B H name := by
    intro vals
    rw [nodeValue, if_neg (not_or.2 ⟨hsnippet, hhighlight⟩), if_neg hbm25]
    rfl
  rw [hnode] at h
  rcases panics_bind.1 h with h | ⟨vs, hvs, h⟩
  · obtain ⟨i, e, hi, he, hreads⟩ := mapM_panics h
    refine Or.inl ⟨i, e, hi, he, fun e' => ?_⟩
    rw [hnode, hreads e']
    rfl
  · exact Or.inr ⟨vs, mapM_id_ok.1 hvs, callFunction_panics.1 h⟩

/-- An operator with one operand. -/
lemma single_panics {r : Result Value} {g : Value → Result Value} (hg : ∀ v, ¬ Panics (g v))
    (hnode : ∀ r, nodeValue B op args [r] row = r >>= g) (h : Panics (nodeValue B op args [r] row)) :
    OperandPanics B op args [r] row := by
  rw [hnode] at h
  obtain ⟨e, rfl, hpanic⟩ := panics_of_bind hg h
  exact ⟨0, e, rfl, hpanic, fun e' => hnode _⟩

/-- An operator with two operands, both read if the first gives a value. -/
lemma double_panics {left right : Result Value} {g : Value → Value → Result Value}
    (hg : ∀ l r, ¬ Panics (g l r))
    (hnode : ∀ left right, nodeValue B op args [left, right] row = left >>= fun l => right >>= fun r => g l r)
    (h : Panics (nodeValue B op args [left, right] row)) :
    OperandPanics B op args [left, right] row := by
  rw [hnode] at h
  rcases pair_panics hg h with ⟨e, rfl, hpanic⟩ | ⟨l, e, rfl, rfl, hpanic⟩
  · exact ⟨0, e, rfl, hpanic, fun e' => hnode _ _⟩
  · exact ⟨1, e, rfl, hpanic, fun e' => hnode _ _⟩

lemma truthy3_quiet {v : Value} : ¬ Panics (truthy3 v) := by
  unfold truthy3
  split <;> simp

/-- The right side of `AND` and `OR` is read if the left one does not decide. -/
lemma logic_panics {b : Bool} {left right : Result Value}
    (hnode : ∀ left right, nodeValue B op args [left, right] row = evalLogic b left right)
    (h : Panics (nodeValue B op args [left, right] row)) :
    OperandPanics B op args [left, right] row := by
  rw [hnode] at h
  rcases panics_bind.1 h with ⟨e, rfl, hpanic⟩ | ⟨l, rfl, hrest⟩
  · exact ⟨0, e, rfl, hpanic, fun e' => hnode _ _⟩
  clear h
  rcases panics_bind.1 hrest with h | ⟨t, ht, h⟩
  · exact absurd h truthy3_quiet
  by_cases hdecides : t = some b
  · rw [if_pos hdecides] at h
    exact absurd h (panics_ok _).1
  · rw [if_neg hdecides] at h
    obtain ⟨e, rfl, hpanic⟩ := panics_of_bind (fun r => not_panics_bind truthy3_quiet fun t' => by simp) h
    refine ⟨1, e, rfl, hpanic, fun e' => ?_⟩
    rw [List.set_cons_succ, List.set_cons_zero, hnode, evalLogic, ok_bind, ht, ok_bind, if_neg hdecides]
    rfl

lemma binary_panics {op : BinOp} {left right : Result Value}
    (h : Panics (nodeValue (withFunctions B H) (.binary op) args [left, right] row)) :
    OperandPanics (withFunctions B H) (.binary op) args [left, right] row := by
  have harith : ∀ l r, ¬ Panics (arith (withFunctions B H) op l r) := fun l r => arith_quiet
  have hconcat : ∀ l r, ¬ Panics (evalConcat l r) := by
    intro l r
    unfold evalConcat
    split <;> simp
  have hcompare : ∀ l r, ¬ Panics (cmpValues (withFunctions B H) l r >>= fun o =>
      .ok (ofTruth (o.map (compares op)))) := fun l r => not_panics_bind cmpValues_quiet fun o => by simp
  cases op with
  | and => exact logic_panics (fun left right => rfl) h
  | or => exact logic_panics (fun left right => rfl) h
  | add | sub | mul | div | mod => exact double_panics harith (fun left right => rfl) h
  | concat => exact double_panics hconcat (fun left right => rfl) h
  | jsonGet | jsonGetText => exact double_panics (fun l r => jsonArrow_quiet) (fun left right => rfl) h
  | eq | ne | lt | le | gt | ge => exact double_panics hcompare (fun left right => rfl) h

/-- A node with its operands ends the process if and only if an operand that is read does, or the
call or the search that it is. -/
lemma nodeValue_panics (hop : op.Takes vals.length) (hrow : row.Fits) :
    Panics (nodeValue (withFunctions B H) op args vals row) ↔
      OperandPanics (withFunctions B H) op args vals row ∨ NodePanics B H op args vals row := by
  constructor
  · intro h
    cases op with
    | unary op =>
      obtain ⟨r, rfl⟩ := List.length_eq_one_iff.1 hop
      cases op with
      | neg =>
        refine Or.inl (single_panics (g := evalNeg) (fun v => ?_) (fun r => rfl) h)
        unfold evalNeg
        split <;> simp [checked_quiet]
      | not =>
        refine Or.inl (single_panics (g := evalNot) (fun v => ?_) (fun r => rfl) h)
        unfold evalNot
        split <;> simp
    | binary op =>
      obtain ⟨left, right, rfl⟩ := List.length_eq_two.1 hop
      exact Or.inl (binary_panics h)
    | isNull negated =>
      obtain ⟨r, rfl⟩ := List.length_eq_one_iff.1 hop
      exact Or.inl (single_panics (fun v => (panics_ok _).1) (fun r => rfl) h)
    | like negated =>
      obtain ⟨left, right, rfl⟩ := List.length_eq_two.1 hop
      refine Or.inl (double_panics (g := evalLike negated) (fun l r => ?_) (fun left right => rfl) h)
      unfold evalLike
      split <;> simp
    | match_ negated =>
      rcases evalMatch_panics h with ⟨e, he, hpanic, hreads⟩ | h
      · exact Or.inl ⟨1, e, he, hpanic, hreads⟩
      · exact Or.inr (Or.inl h)
    | function name =>
      by_cases hexcerpt : name = "snippet" ∨ name = "highlight"
      · have hnode : ∀ vals, nodeValue (withFunctions B H) (.function name) args vals row
            = evalExcerpt (withFunctions B H) name args vals row := fun vals => if_pos hexcerpt
        rw [hnode] at h
        rcases evalExcerpt_panics hrow h with ⟨i, e, he, hpanic, hreads⟩ | h
        · exact Or.inl ⟨i, e, he, hpanic, fun e' => (hnode _).trans (hreads e')⟩
        · exact Or.inr (Or.inl (Or.inl ⟨hexcerpt, h⟩))
      by_cases hbm25 : name = "bm25"
      · have hnode : ∀ vals, nodeValue (withFunctions B H) (.function name) args vals row
            = evalBm25 (withFunctions B H) args vals row := fun vals =>
          (if_neg hexcerpt).trans (if_pos hbm25)
        rw [hnode] at h
        rcases evalBm25_panics h with ⟨e, he, hpanic, hreads⟩ | h
        · exact Or.inl ⟨1, e, he, hpanic, fun e' => (hnode _).trans (hreads e')⟩
        · exact Or.inr (Or.inl (Or.inr ⟨hbm25, h⟩))
      obtain ⟨hsnippet, hhighlight⟩ := not_or.1 hexcerpt
      rcases function_panics ⟨hsnippet, hhighlight, hbm25⟩ h with h | ⟨vs, hvs, hbad⟩
      · exact Or.inl h
      · exact Or.inr (Or.inr ⟨name, vs, rfl, hsnippet, hhighlight, hbm25, hvs, hbad⟩)
    | in_ negated =>
      cases vals with
      | nil => cases hop
      | cons r items =>
        rcases panics_bind.1 h with ⟨e, rfl, hpanic⟩ | ⟨v, rfl, hrest⟩
        · exact Or.inl ⟨0, e, rfl, hpanic, fun e' => rfl⟩
        by_cases hnull : v = .null
        · rw [if_pos hnull] at hrest
          exact absurd hrest (panics_ok _).1
        · rw [if_neg hnull] at hrest
          obtain ⟨i, e, he, hpanic, hreads⟩ := evalIn_panics hrest
          refine Or.inl ⟨i + 1, e, he, hpanic, fun e' => ?_⟩
          exact (if_neg hnull).trans (hreads e')
    | cast to_ =>
      obtain ⟨r, rfl⟩ := List.length_eq_one_iff.1 hop
      exact Or.inl (single_panics (fun v => castValue_quiet to_) (fun r => rfl) h)
    | case_ operand else_ =>
      cases operand with
      | false =>
        obtain ⟨i, e, he, hpanic, hreads⟩ := evalWhens_panics h
        exact Or.inl ⟨i, e, he, hpanic, hreads⟩
      | true =>
        cases vals with
        | nil =>
          obtain ⟨whens, hlen⟩ := hop
          simp only [List.length_nil, Bool.toNat_true] at hlen
          omega
        | cons r whens =>
          rcases panics_bind.1 h with ⟨e, rfl, hpanic⟩ | ⟨ov, rfl, hrest⟩
          · exact Or.inl ⟨0, e, rfl, hpanic, fun e' => rfl⟩
          obtain ⟨i, e, he, hpanic, hreads⟩ := evalWhens_panics hrest
          exact Or.inl ⟨i + 1, e, he, hpanic, hreads⟩
  · rintro (h | h | ⟨name, vs, rfl, hsnippet, hhighlight, hbm25, rfl, hbad⟩)
    · exact h.panics
    · cases op with
      | match_ negated => exact MatchPanics.panics h
      | function name =>
        rcases h with ⟨hexcerpt, h⟩ | ⟨hbm25, h⟩
        · rw [nodeValue, if_pos hexcerpt]
          exact h.panics
        · rw [nodeValue, if_neg (by rw [hbm25]; decide), if_pos hbm25]
          exact h.panics
      | _ => exact h.elim
    · rw [nodeValue, if_neg (not_or.2 ⟨hsnippet, hhighlight⟩), if_neg hbm25, mapM_id_ok.2 rfl, ok_bind]
      exact callFunction_panics.2 hbad

end Node

/-! ### Trees -/

section Tree
variable {B : Builtins} {H : Host} {row : Scope} {params : List Value} {e e' : Expr} {es : List Expr}

/-- Evaluation of the first expression on a row comes to the second. -/
inductive Reaches (B : Builtins) (row : Scope) (params : List Value) : Expr → Expr → Prop
  | self (e : Expr) : Reaches B row params e e
  | operand {op : Op} {args : List Expr} {i : ℕ} {arg e : Expr} (hi : args[i]? = some arg)
      (hread : Reads B op args (evalList B row params args) row i) (h : Reaches B row params arg e) :
      Reaches B row params (.node op args) e

/-- The expression is a call, or a search, that ends the process on its operands, or the parameter
before the first, which the lexer refuses. -/
def Expr.Bad (B : Builtins) (H : Host) (row : Scope) (params : List Value) : Expr → Prop
  | .node op args => NodePanics B H op args (evalList (withFunctions B H) row params args) row
  | .param n => n = 0
  | _ => False

lemma evalList_eq_map : evalList B row params es = es.map (eval B row params) := by
  induction es with
  | nil => rfl
  | cons e es ih => rw [evalList, ih, List.map_cons]

lemma column_quiet {table : Option String} {name : String} (hrow : row.Fits) :
    ¬ Panics (eval B row params (.column table name)) := by
  intro h
  rcases panics_bind.1 h with h | ⟨⟨schema, values⟩, hsome, h⟩
  · simp at h
  rcases panics_bind.1 h with h | ⟨i, hi, h⟩
  · rcases panics_bind.1 h with h | ⟨p, -, h⟩
    · exact ownerOf_quiet h
    · simp at h
  · obtain ⟨⟨t, j⟩, howner, hi⟩ := bind_eq_ok.1 hi
    cases hi
    obtain ⟨hmem, hj⟩ := ownerOf_lt howner
    have hfit := hrow schema values (okOr_eq_ok.1 hsome) t hmem
    rw [panics_okOr, List.getElem?_eq_none_iff] at h
    exact absurd h.1 (by omega)

/-- The operands of a node of the syntax. -/
lemma takes_evalList {op : Op} {args : List Expr} (h : (Expr.node op args).Formed) :
    op.Takes (evalList B row params args).length := by
  rw [evalList_eq_map, List.length_map]
  exact h.1

lemma Reaches.formed (h : Reaches B row params e e') (he : e.Formed) : e'.Formed := by
  induction h with
  | self e => exact he
  | operand hi _ _ ih => exact ih (Formed.of_mem he.2 (List.mem_of_getElem? hi))

/-- What evaluation comes to ends the process with it. -/
lemma Reaches.panics (h : Reaches B row params e e') (he : Panics (eval B row params e')) :
    Panics (eval B row params e) := by
  induction h with
  | self e => exact he
  | @operand op args i arg e hi hread _ ih =>
    obtain ⟨err, herr, hpanic⟩ := ih he
    refine OperandPanics.panics B op args _ row ⟨i, err, ?_, hpanic, hread⟩
    rw [evalList_eq_map, List.getElem?_map, hi, Option.map_some, herr]

mutual

lemma exists_bad (hrow : row.Fits) : ∀ e : Expr, e.Formed → Panics (eval (withFunctions B H) row params e) →
    ∃ e', Reaches (withFunctions B H) row params e e' ∧ e'.Bad B H row params
  | .node op args, hform, h => by
    rw [eval, nodeValue_panics (takes_evalList hform) hrow] at h
    rcases h with ⟨i, e, hi, hpanic, hread⟩ | h
    · rw [evalList_eq_map, List.getElem?_map, Option.map_eq_some_iff] at hi
      obtain ⟨arg, harg, he⟩ := hi
      obtain ⟨e', hreaches, hbad⟩ := exists_bad_of_mem hrow args hform.2 arg (List.mem_of_getElem? harg)
        ⟨e, he, hpanic⟩
      exact ⟨e', .operand harg hread hreaches, hbad⟩
    · exact ⟨_, .self _, h⟩
  | .literal v, _, h => absurd h (panics_ok v).1
  | .param n, _, h => by
    cases n with
    | zero => exact ⟨_, .self _, rfl⟩
    | succ n => simp [eval] at h
  | .column table name, _, h => absurd h (column_quiet hrow)
  | .aggregate .., _, h => by simp [eval] at h
  | .window .., _, h => by simp [eval] at h
  | .scalarSubquery _, _, h => by simp [eval] at h
  | .exists_ _, _, h => by simp [eval] at h
  | .inSubquery .., _, h => by simp [eval] at h

lemma exists_bad_of_mem (hrow : row.Fits) : ∀ es : List Expr, allFormed es → ∀ e ∈ es,
    Panics (eval (withFunctions B H) row params e) →
      ∃ e', Reaches (withFunctions B H) row params e e' ∧ e'.Bad B H row params
  | [], _, _, he, _ => by cases he
  | e :: es, hform, e₁, he, h => by
    rcases List.mem_cons.1 he with heq | he
    · rw [heq] at h ⊢
      exact exists_bad hrow e hform.1 h
    · exact exists_bad_of_mem hrow es hform.2 e₁ he h

end

/-- An expression of the syntax, on a row that fits, ends the process if and only if evaluation comes
to a call or a search that does. -/
lemma eval_panics (hrow : row.Fits) (he : e.Formed) : Panics (eval (withFunctions B H) row params e) ↔
    ∃ e', Reaches (withFunctions B H) row params e e' ∧ e'.Bad B H row params := by
  refine ⟨exists_bad hrow e he, ?_⟩
  rintro ⟨e', hreaches, hbad⟩
  refine hreaches.panics ?_
  cases e' with
  | node op args => exact (nodeValue_panics (takes_evalList (hreaches.formed he)) hrow).2 (Or.inr hbad)
  | param n =>
    cases hbad
    exact ⟨_, rfl, trivial⟩
  | _ => exact hbad.elim

end Tree

end Arkeion.Sql
