import Arkeion.Lib.Credits
import Arkeion.Sql.AstMeasure

/-!
The size of what is parsed, in terms of the tokens.

An operand of `BETWEEN` is in the tree twice, so that a token counts twice as much for each level of
expressions around it. The levels are bounded, and so is what a token counts. The same argument
shows that more fuel than tokens is enough.
-/

namespace Arkeion.Sql

open Arkeion.Lib Catalog

/-! ### Sizes -/

def Expr.size (e : Expr) : ℕ := e.measure (· + ·)

def sizeList (es : List Expr) : ℕ := measureList (· + ·) es

def sizeOpt (e : Option Expr) : ℕ := measureOpt (· + ·) e

def sizeOrder (os : List OrderBy) : ℕ := measureOrder (· + ·) os

def SelectStmt.size (q : SelectStmt) : ℕ := q.measure (· + ·)

section Sizes
variable {e : Expr} {es : List Expr}

@[simp] lemma size_literal (v : Value) : (Expr.literal v).size = 1 := rfl
@[simp] lemma size_column (t : Option String) (n : String) : (Expr.column t n).size = 1 := rfl
@[simp] lemma size_param (n : ℕ) : (Expr.param n).size = 1 := rfl
@[simp] lemma size_node (op : Op) (es : List Expr) : (Expr.node op es).size = 1 + sizeList es := by
  rw [Expr.size, Expr.measure, sizeList]
@[simp] lemma sizeList_nil : sizeList [] = 0 := rfl
@[simp] lemma sizeList_cons : sizeList (e :: es) = e.size + sizeList es := by
  rw [sizeList, measureList, Expr.size, sizeList]
@[simp] lemma sizeOpt_none : sizeOpt none = 0 := rfl
@[simp] lemma sizeOpt_some : sizeOpt (some e) = e.size := by
  rw [sizeOpt, measureOpt, Expr.size]

lemma sizeList_append (es es' : List Expr) : sizeList (es ++ es') = sizeList es + sizeList es' := by
  induction es with
  | nil => simp
  | cons e es ih => simp [ih, Nat.add_assoc]

lemma sizeList_toList (e : Option Expr) : sizeList e.toList = sizeOpt e := by
  cases e <;> simp

lemma sizeList_eq (es : List Expr) : sizeList es = (es.map Expr.size).sum := by
  induction es with
  | nil => rfl
  | cons e es ih => rw [sizeList_cons, List.map_cons, List.sum_cons, ih]

end Sizes

/-! ### Sizes of queries -/

def SelectItem.size : SelectItem → ℕ
  | .star => 1
  | .expr e _ => 1 + e.size

def sizeItems (its : List SelectItem) : ℕ := measureItems (· + ·) its

def TableRef.size (t : TableRef) : ℕ := t.measure (· + ·)

def sizeFrom (t : Option TableRef) : ℕ := measureFrom (· + ·) t

def sizeJoins (js : List Join) : ℕ := measureJoins (· + ·) js

def sizeCompound (cs : List CompoundSelect) : ℕ := measureCompound (· + ·) cs

def sizeCtes (cs : List Cte) : ℕ := measureCtes (· + ·) cs

lemma sizeItems_eq (its : List SelectItem) : sizeItems its = (its.map SelectItem.size).sum := by
  induction its with
  | nil => rfl
  | cons it its ih =>
    cases it with
    | star => rw [sizeItems, measureItems, List.map_cons, List.sum_cons, ← ih, sizeItems, SelectItem.size]
    | expr e a =>
      rw [sizeItems, measureItems, List.map_cons, List.sum_cons, ← ih, sizeItems, SelectItem.size,
        Expr.size]

lemma sizeCtes_eq (cs : List Cte) : sizeCtes cs = (cs.map fun c => 1 + c.query.size).sum := by
  induction cs with
  | nil => rfl
  | cons c cs ih =>
    obtain ⟨name, query⟩ := c
    rw [sizeCtes, measureCtes, List.map_cons, List.sum_cons, ← ih, sizeCtes, SelectStmt.size]

lemma sizeJoins_cons (kind : JoinKind) (t : TableRef) (on : Expr) (js : List Join) :
    sizeJoins (⟨kind, t, on⟩ :: js) = 1 + (t.size + on.size) + sizeJoins js := by
  rw [sizeJoins, measureJoins, TableRef.size, Expr.size, sizeJoins]

lemma sizeCompound_cons (op : SetOp) (q : SelectStmt) (cs : List CompoundSelect) :
    sizeCompound (⟨op, q⟩ :: cs) = 1 + q.size + sizeCompound cs := by
  rw [sizeCompound, measureCompound, SelectStmt.size, sizeCompound]

lemma size_select (distinct : Bool) (projection : List SelectItem) (from_ : Option TableRef)
    (joins : List Join) (where_clause : Option Expr) (group_by : List Expr) (having : Option Expr)
    (order_by : List OrderBy) (limit offset : Option Expr) (as_of : Option AsOfClause)
    (compound : List CompoundSelect) (with_ : List Cte) :
    (SelectStmt.mk distinct projection from_ joins where_clause group_by having order_by limit offset
      as_of compound with_).size = 1 + (sizeItems projection + (sizeFrom from_ + (sizeJoins joins
        + (sizeOpt where_clause + (sizeList group_by + (sizeOpt having + (sizeOrder order_by
          + (sizeOpt limit + (sizeOpt offset + (sizeCompound compound + sizeCtes with_)))))))))) := by
  rw [SelectStmt.size, SelectStmt.measure]
  rfl

lemma size_tableName (name : String) (alias_ : Option String) :
    (TableRef.mk name alias_ none).size = 1 := by
  rw [TableRef.size, TableRef.measure]

lemma size_derived (name : String) (alias_ : Option String) (q : SelectStmt) :
    (TableRef.mk name alias_ (some q)).size = 1 + q.size := by
  rw [TableRef.size, TableRef.measure, SelectStmt.size]

lemma sizeFrom_elim (t : Option TableRef) : sizeFrom t = t.elim 0 TableRef.size := by
  cases t with
  | none => rfl
  | some t => rw [sizeFrom, measureFrom, Option.elim_some, TableRef.size]

/-! ### Reading tokens -/

namespace Parse

/-- What is parsed pays for its result with the tokens it eats, and the depth is as before. -/
abbrev Fits {α : Type} (K d w c : ℕ) (e e' : Parse α) (q : α → ℕ) : Prop :=
  Pays (fun p : Parser => p.toks.length) (fun p => p.depth = d) K w c e e' q

section Tokens
variable {α β : Type} {K d w c : ℕ} {e e' : Parse α} {q : α → ℕ}

lemma fail_fits (msg : String) : Fits K d w c (fail msg : Parse α) (fail msg) q :=
  .fail fun s x h => by cases h

lemma outOfFuel_fits : Fits K d w c (outOfFuel : Parse α) e' q :=
  .fail fun s x h => by cases h

lemma peek_fits : Fits K d w c peek peek fun _ => c := by
  rintro k - s hs hc a s' hrun
  cases hrun
  exact ⟨rfl, hs, hc⟩

lemma pos_fits : Fits K d w c pos pos fun _ => c := by
  rintro k - s hs hc a s' hrun
  cases hrun
  exact ⟨rfl, hs, hc⟩

lemma ahead_fits (t u : Tok) : Fits K d w c (ahead t u) (ahead t u) fun _ => c := by
  rintro k - s hs hc a s' hrun
  cases hrun
  exact ⟨rfl, hs, hc⟩

/-- A token that is eaten is worth its price. -/
lemma eatAs_fits (f : Tok → Option α) : Fits K d w c (eatAs f) (eatAs f) fun r =>
    if r.isSome then c + w else c := by
  rintro k - s hs hc a s' hrun
  refine ⟨hrun, ?_⟩
  obtain ⟨src, toks, end_, names, seen, depth⟩ := s
  cases toks with
  | nil =>
    cases hrun
    exact ⟨hs, hc⟩
  | cons t ts =>
    unfold eatAs at hrun
    cases hf : f t.tok with
    | none =>
      simp only [List.head?_cons, Option.map_some, Option.bind_some, hf] at hrun
      cases hrun
      exact ⟨hs, hc⟩
    | some b =>
      simp only [List.head?_cons, Option.map_some, Option.bind_some, hf] at hrun
      cases hrun
      refine ⟨hs, ?_⟩
      simp only [List.length_cons, List.tail_cons, Nat.mul_succ] at hc ⊢
      rw [Option.isSome_some, if_pos rfl]
      omega

lemma eat_fits (t : Tok) : Fits K d w c (eat t) (eat t) fun b => if b then c + w else c :=
  (eatAs_fits _).map fun r => by cases r <;> simp

lemma next_fits : Fits K d w c next next fun r => if r.isSome then c + w else c := by
  rintro k - s hs hc a s' hrun
  obtain ⟨src, toks, end_, names, seen, depth⟩ := s
  cases toks with
  | nil =>
    cases hrun
    exact ⟨rfl, hs, hc⟩
  | cons t ts =>
    cases hrun
    refine ⟨rfl, hs, ?_⟩
    simp only [List.length_cons, List.tail_cons, Nat.mul_succ] at hc ⊢
    simp only [List.head?_cons, Option.map_some, Option.isSome_some, if_true]
    omega

lemma eatNot_fits (k : Kw) : Fits K d w c (eatNot k) (eatNot k) fun r =>
    if r.isSome then c + w else c := by
  rintro b - s hs hc a s' hrun
  refine ⟨hrun, ?_⟩
  obtain ⟨src, toks, end_, names, seen, depth⟩ := s
  unfold eatNot at hrun
  split_ifs at hrun with hboth hone
  · cases hrun
    refine ⟨hs, ?_⟩
    obtain _ | ⟨v, _ | ⟨u, ts⟩⟩ := toks
    · simp at hboth
    · simp at hboth
    · simp only [List.length_cons, List.drop_succ_cons, List.drop_zero, Nat.mul_succ] at hc ⊢
      simp only [Option.isSome_some, if_true]
      omega
  · cases hrun
    refine ⟨hs, ?_⟩
    obtain _ | ⟨t, ts⟩ := toks
    · cases hone
    · simp only [List.length_cons, List.tail_cons, Nat.mul_succ] at hc ⊢
      simp only [Option.isSome_some, if_true]
      omega
  · cases hrun
    exact ⟨hs, hc⟩

lemma eatBoth_fits (t u : Tok) : Fits K d w c (eatBoth t u) (eatBoth t u) fun b =>
    if b then c + w else c := by
  rintro b - s hs hc a s' hrun
  refine ⟨hrun, ?_⟩
  obtain ⟨src, toks, end_, names, seen, depth⟩ := s
  unfold eatBoth at hrun
  split_ifs at hrun with hboth
  · cases hrun
    refine ⟨hs, ?_⟩
    obtain _ | ⟨v, _ | ⟨u, ts⟩⟩ := toks
    · simp at hboth
    · simp at hboth
    · simp only [List.length_cons, List.drop_succ_cons, List.drop_zero, Nat.mul_succ] at hc ⊢
      simp only [if_true]
      omega
  · cases hrun
    exact ⟨hs, hc⟩

/-- One way if the token is there, another if it is not. -/
lemma onEat_fits {t : Tok} {g g' : Parse α} (hyes : Fits K d w (c + w) e e' q)
    (hno : Fits K d w c g g' q) :
    Fits K d w c (eat t >>= fun b => if b = true then e else g)
      (eat t >>= fun b => if b = true then e' else g') q := by
  refine (eat_fits t).bind fun b => ?_
  cases b with
  | true => exact hyes
  | false => exact hno

lemma onBoth_fits {t u : Tok} {g g' : Parse α} (hyes : Fits K d w (c + w) e e' q)
    (hno : Fits K d w c g g' q) :
    Fits K d w c (eatBoth t u >>= fun b => if b = true then e else g)
      (eatBoth t u >>= fun b => if b = true then e' else g') q := by
  refine (eatBoth_fits t u).bind fun b => ?_
  cases b with
  | true => exact hyes
  | false => exact hno

lemma onAhead_fits {t u : Tok} {g g' : Parse α} (hyes : Fits K d w c e e' q)
    (hno : Fits K d w c g g' q) :
    Fits K d w c (ahead t u >>= fun b => if b = true then e else g)
      (ahead t u >>= fun b => if b = true then e' else g') q := by
  refine (ahead_fits t u).bind fun b => ?_
  cases b with
  | true => exact hyes
  | false => exact hno

lemma expect_fits (t : Tok) (what : String) :
    Fits K d w c (expect t what) (expect t what) fun _ => c + w :=
  onEat_fits (.pure () le_rfl) (fail_fits _)

lemma expectKw_fits (k : Kw) (what : String) :
    Fits K d w c (expectKw k what) (expectKw k what) fun _ => c + w :=
  expect_fits _ _

lemma ident_fits (what : String) : Fits K d w c (ident what) (ident what) fun _ => c + w := by
  refine (eatAs_fits identOf).bind fun r => ?_
  cases r with
  | some name => exact .pure name le_rfl
  | none => exact fail_fits _

lemma ifKw_fits (k : Kw) {f : α → ℕ} (he : Fits K d w (c + w) e e' fun a => c + f a) :
    Fits K d w c (ifKw k e) (ifKw k e') fun r => c + r.elim 0 f :=
  onEat_fits (he.map fun _ => le_rfl) (.pure none le_rfl)

lemma loop_fits {step step' : ℕ → Parse α} (h : ∀ n, Fits K d w c (step n) (step' n) q) :
    Fits K d w c (loop step) (loop step') q :=
  fun k hk s hs hc a s' hrun => h (s.toks.length + 1) k hk s hs hc a s' hrun

lemma commaSep_fits {f : α → ℕ} (he : ∀ c, 1 ≤ c → Fits K d w c e e' fun a => c + f a)
    (hc : 1 ≤ c) : Fits K d w c (commaSep e) (commaSep e') fun as => c + (as.map f).sum := by
  refine loop_fits fun n => ?_
  induction n generalizing c with
  | zero => exact outOfFuel_fits
  | succ n ih =>
    refine (he c hc).bind fun a => onEat_fits ?_ (.pure [a] (by simp))
    refine (ih (by omega)).map fun as => ?_
    rw [List.map_cons, List.sum_cons]
    omega

/-- Names, where nothing is asked for them. -/
lemma names_fits {f : α → ℕ} (hf : ∀ a, f a ≤ w) (he : ∀ c, Fits K d w c e e' fun _ => c + w)
    (hc : 1 ≤ c) : Fits K d w c (commaSep e) (commaSep e') fun as => c + (as.map f).sum :=
  commaSep_fits (fun c _ => (he c).weaken le_rfl fun a => Nat.add_le_add_left (hf a) c) hc

lemma parens_fits (open_ : String) (he : Fits K d w (c + w) e e' q) :
    Fits K d w c (parens open_ e) (parens open_ e') fun a => q a + w :=
  (expect_fits .lParen open_).bind fun _ => he.bind fun a =>
    (expect_fits .rParen "')'").bind fun _ => .pure a le_rfl

end Tokens

/-! ### Expressions -/

/-- What has been shown of the grammar at a level. -/
structure Agree (K d w : ℕ) (G G' : Grammar) : Prop where
  price : 2 ≤ w
  expr_pays : Fits K d w 0 G.expr G'.expr fun e => e.size + 1
  select_pays : Fits K d w 0 G.select G'.select fun q => q.size + 1

section Agree
variable {K d w w' c : ℕ} {G G' : Grammar}

/-- Behind a token an expression may be read where one token more is allowed. -/
lemma Agree.expr (h : Agree K d w G G') (c : ℕ) (hc : 1 ≤ c) :
    Fits (K + 1) d w c G.expr G'.expr fun e => c + (e.size + 1) :=
  h.expr_pays.later hc

lemma Agree.select (h : Agree K d w G G') (c : ℕ) (hc : 1 ≤ c) :
    Fits (K + 1) d w c G.select G'.select fun q => c + (q.size + 1) :=
  h.select_pays.later hc

lemma Agree.heavier (h : Agree K d w G G') (hle : w ≤ w') : Agree K d w' G G' where
  price := h.price.trans hle
  expr_pays := (h.expr_pays.heavier (by have := h.price; omega) hle).weaken le_rfl
    fun e => (Nat.zero_add _).ge
  select_pays := (h.select_pays.heavier (by have := h.price; omega) hle).weaken le_rfl
    fun q => (Nat.zero_add _).ge

end Agree

section Operators
variable {K d w c : ℕ} {e e' : Parse Expr}

lemma leftAssoc_fits (op? : Tok → Option BinOp)
    (he : ∀ c, Fits K d w c e e' fun a => c + (a.size + 1)) (c : ℕ) :
    Fits K d w c (leftAssoc op? e) (leftAssoc op? e') fun a => c + (a.size + 1) := by
  refine (he c).bind fun left => loop_fits fun n => ?_
  induction n generalizing left with
  | zero => exact outOfFuel_fits
  | succ n ih =>
    refine (eatAs_fits op?).bind fun r => ?_
    cases r with
    | none => exact .pure left le_rfl
    | some op =>
      refine (he _).bind fun right => (ih _).weaken ?_ fun _ => le_rfl
      simp only [Option.isSome_some, if_true, size_node, sizeList_cons, sizeList_nil]
      omega

lemma unaryLoop_fits (hw : 2 ≤ w) (t : Tok) (op : UnOp)
    (he : ∀ c, Fits K d w c e e' fun a => c + (a.size + 1)) (n c : ℕ) :
    Fits K d w c (unaryLoop t op e n) (unaryLoop t op e' n) fun a => c + (a.size + 1) := by
  induction n generalizing c with
  | zero => exact outOfFuel_fits
  | succ n ih =>
    refine onEat_fits ((ih (c + w)).map fun a => ?_) (he c)
    simp only [size_node, sizeList_cons, sizeList_nil]
    omega

end Operators

section Frames
variable {K d w c : ℕ}

lemma frameBound_fits : Fits K d w c frameBound frameBound fun _ => c := by
  refine onEat_fits ?_ (onEat_fits ?_ ?_)
  · refine onEat_fits (.pure _ (by omega)) ?_
    exact (expectKw_fits _ _).bind fun _ => .pure _ (by omega)
  · exact (expectKw_fits _ _).bind fun _ => .pure _ (by omega)
  · refine next_fits.bind fun t => ?_
    cases t.bind natOf? with
    | none => exact fail_fits _
    | some n =>
      have hc : c ≤ if t.isSome then c + w else c := by split_ifs <;> omega
      exact onEat_fits (.pure _ (by omega)) (onEat_fits (.pure _ (by omega)) (fail_fits _))

lemma windowFrame_fits : Fits K d w c windowFrame windowFrame fun _ => c := by
  refine onEat_fits (.map (r := fun _ => c + w) (onEat_fits ?_ ?_) fun _ => by omega) (.pure none le_rfl)
  · refine frameBound_fits.bind fun start => (expectKw_fits _ _).bind fun _ => ?_
    exact frameBound_fits.bind fun end_ => .pure _ (by omega)
  · exact frameBound_fits.bind fun start => .pure _ le_rfl

end Frames

section Expressions
variable {K d w c : ℕ} {G G' : Grammar}

lemma Agree.exprs (h : Agree K d w G G') (hc : 1 ≤ c) :
    Fits (K + 1) d w c (commaSep G.expr) (commaSep G'.expr) fun es => c + sizeList es := by
  refine (commaSep_fits (fun c hc => (h.expr c hc).weaken le_rfl fun e => ?_) hc).weaken le_rfl
    fun es => (congrArg (c + ·) (sizeList_eq es)).le
  omega

lemma orderByItem_fits (h : Agree K d w G G') (hc : 1 ≤ c) :
    Fits (K + 1) d w c (orderByItem G) (orderByItem G') fun o => c + (o.expr.size + 1) := by
  refine (h.expr c hc).bind fun e => onEat_fits (.pure _ (by simp)) ?_
  refine (eat_fits _).bind fun b => .pure _ ?_
  cases b <;> simp

lemma sizeOrder_eq (os : List OrderBy) : sizeOrder os = (os.map fun o => o.expr.size + 1).sum := by
  induction os with
  | nil => rfl
  | cons o os ih =>
    obtain ⟨e, desc⟩ := o
    rw [sizeOrder, measureOrder, List.map_cons, List.sum_cons, ← ih, sizeOrder, Expr.size]
    dsimp only
    omega

lemma orderByItems_fits (h : Agree K d w G G') (hc : 1 ≤ c) :
    Fits (K + 1) d w c (orderByItems G) (orderByItems G') fun os => c + sizeOrder os :=
  (commaSep_fits (fun _ hc => orderByItem_fits h hc) hc).weaken le_rfl
    fun os => (congrArg (c + ·) (sizeOrder_eq os)).le

lemma clauseBy_fits {α : Type} {e e' : Parse (List α)} {f : List α → ℕ} (hf : f [] = 0) (k : Kw)
    (hc : 1 ≤ c) (he : ∀ c, 1 ≤ c → Fits K d w c e e' fun as => c + f as) :
    Fits K d w c (clauseBy k e) (clauseBy k e') fun as => c + f as := by
  refine onEat_fits ((expectKw_fits _ _).bind fun _ => ?_) (.pure [] (by rw [hf]; rfl))
  exact (he _ (by omega)).weaken le_rfl fun as => by omega

lemma lift_fits {α : Type} {x : Result α} {q : α → ℕ} (h : ∀ a, x = .ok a → q a ≤ c) :
    Fits K d w c (liftM x : Parse α) (liftM x) q := by
  intro k _ s hs hc a s' hrun
  cases x with
  | error err => cases hrun
  | ok b =>
    cases hrun
    have ha := h a rfl
    exact ⟨rfl, hs, by omega⟩

lemma windowCall_size {call : Expr} {f : WindowFunc} {args : List Expr}
    (h : windowCall call = .ok (f, args)) : 1 + sizeList args ≤ call.size := by
  cases call with
  | node op es =>
    cases op with
    | function name =>
      obtain ⟨g, -, h⟩ := bind_eq_ok.1 h
      cases h
      rw [size_node]
    | _ => cases h
  | aggregate func arg distinct sep =>
    rw [windowCall] at h
    by_cases hd : distinct = true
    · rw [if_pos hd] at h
      cases h
    rw [if_neg hd] at h
    cases hf : windowAgg? func with
    | none =>
      rw [hf] at h
      cases h
    | some g =>
      rw [hf] at h
      dsimp only at h
      by_cases hs : sep.isSome = true
      · rw [if_pos hs] at h
        cases h
      rw [if_neg hs] at h
      cases h
      rw [Expr.size, Expr.measure, sizeList_toList, sizeOpt]
      omega
  | _ => cases h

lemma size_window (f : WindowFunc) (args ps : List Expr) (os : List OrderBy)
    (fr : Option WindowFrame) :
    (Expr.window f args ps os fr).size = 1 + (sizeList args + (sizeList ps + sizeOrder os)) := by
  rw [Expr.size, Expr.measure, sizeList, sizeList, sizeOrder]

lemma finishCall_fits (h : Agree K d w G G') (call : Expr) :
    Fits (K + 1) d w (c + (call.size + 1)) (finishCall G call) (finishCall G' call)
      fun e => c + (e.size + 1) := by
  refine onEat_fits ?_ (.pure call le_rfl)
  refine (lift_fits (q := fun x => c + (1 + sizeList x.2 + 1) + w) fun x hx => ?_).bind fun x => ?_
  · have hsize : 1 + sizeList x.2 ≤ call.size := windowCall_size hx
    omega
  · refine (parens_fits (q := fun e => c + (e.size + 1)) _ ?_).weaken le_rfl fun e => by omega
    refine (clauseBy_fits rfl _ (by omega) fun c hc => h.exprs hc).bind fun ps => ?_
    refine (clauseBy_fits rfl _ (by omega) fun c hc => orderByItems_fits h hc).bind fun os => ?_
    refine windowFrame_fits.bind fun fr => .pure _ ?_
    rw [size_window]
    omega

/-! ### Operands -/

lemma eatAny_fits (t : Tok) : Fits K d w c (eat t) (eat t) fun _ => c :=
  (eat_fits t).weaken le_rfl fun b => by split_ifs <;> omega

lemma next_any : Fits K d w c next next fun _ => c :=
  next_fits.weaken le_rfl fun t => by split_ifs <;> omega

lemma coltype_fits : Fits K d w c coltype coltype fun _ => c := by
  refine next_any.bind fun t => ?_
  cases t.bind typeOf? with
  | none => exact fail_fits _
  | some ty => exact .pure ty le_rfl

lemma callArgs_fits (h : Agree K d w G G') (hc : 1 ≤ c) :
    Fits (K + 1) d w c (callArgs G) (callArgs G') fun es => c + sizeList es := by
  have hlist : Fits (K + 1) d w c (exprList G) (exprList G') fun es => c + sizeList es :=
    peek_fits.bind fun t => .ite (fun _ => .pure [] le_rfl) fun _ => h.exprs hc
  exact hlist.bind fun es => (expect_fits _ _).bind fun _ => .pure es (by omega)

lemma whenClause_fits (h : Agree K d w G G') (hc : 1 ≤ c) :
    Fits (K + 1) d w c (whenClause G) (whenClause G') fun p => c + (p.1.size + p.2.size) := by
  refine (h.expr c hc).bind fun cond => (expectKw_fits _ _).bind fun _ => ?_
  refine (h.expr _ (by omega)).bind fun result => .pure _ ?_
  dsimp only
  omega

def sizeWhens (ws : List (Expr × Expr)) : ℕ := sizeList (ws.flatMap fun p => [p.1, p.2])

lemma sizeWhens_cons (p : Expr × Expr) (ws : List (Expr × Expr)) :
    sizeWhens (p :: ws) = p.1.size + p.2.size + sizeWhens ws := by
  rw [sizeWhens, List.flatMap_cons, sizeList_append, sizeWhens]
  simp

lemma whenLoop_fits (h : Agree K d w G G') (n : ℕ) (hc : 1 ≤ c) :
    Fits (K + 1) d w c (whenLoop G n) (whenLoop G' n) fun ws => c + sizeWhens ws := by
  induction n generalizing c with
  | zero => exact outOfFuel_fits
  | succ n ih =>
    refine (ifKw_fits (f := fun p => p.1.size + p.2.size) .when
      ((whenClause_fits h (by omega)).weaken le_rfl fun p => by omega)).bind fun r => ?_
    cases r with
    | none => exact .pure [] le_rfl
    | some p =>
      refine (ih (by omega)).map fun ws => ?_
      rw [sizeWhens_cons, Option.elim_some]
      omega

lemma size_caseNode (operand : Option Expr) (ws : List (Expr × Expr)) (else_ : Option Expr) :
    (caseNode operand ws else_).size = 1 + (sizeOpt operand + (sizeWhens ws + sizeOpt else_)) := by
  rw [caseNode, size_node, sizeList_append, sizeList_append, sizeList_toList, sizeList_toList, sizeWhens]

lemma ifKw_expr (h : Agree K d w G G') (k : Kw) (hc : 1 ≤ c) :
    Fits (K + 1) d w c (ifKw k G.expr) (ifKw k G'.expr) fun r => c + sizeOpt r := by
  refine (ifKw_fits (f := Expr.size) k ((h.expr _ (by omega)).weaken le_rfl fun e => ?_)).weaken
    le_rfl fun r => ?_
  · omega
  · cases r with
    | none => exact le_rfl
    | some e => rw [sizeOpt_some, Option.elim_some]

lemma caseExpr_fits (h : Agree K d w G G') :
    Fits (K + 1) d w (c + 2) (caseExpr G) (caseExpr G') fun e => c + (e.size + 1) := by
  have hoperand : Fits (K + 1) d w (c + 2) (caseOperand G) (caseOperand G') fun operand =>
      c + 2 + sizeOpt operand := by
    refine peek_fits.bind fun t => .ite (fun _ => .pure none le_rfl)
      fun _ => (h.expr _ (by omega)).map fun e => ?_
    rw [sizeOpt_some]
    omega
  refine hoperand.bind fun operand => ?_
  refine (loop_fits fun n => whenLoop_fits h n (by omega)).bind fun ws =>
    .ite (fun _ => fail_fits _) fun _ => ?_
  refine (ifKw_expr h _ (by omega)).bind fun else_ => (expectKw_fits _ _).bind fun _ => .pure _ ?_
  rw [size_caseNode]
  omega

lemma size_aggregate (func : AggFunc) (arg : Option Expr) (distinct : Bool) (sep : Option Expr) :
    (Expr.aggregate func arg distinct sep).size = 1 + (sizeOpt arg + sizeOpt sep) := by
  rw [Expr.size, Expr.measure, sizeOpt, sizeOpt]

lemma extremeCall_fits (h : Agree K d w G G') (func : AggFunc) (name : String) :
    Fits (K + 1) d w (c + 2) (extremeCall G func name) (extremeCall G' func name)
      fun e => c + (e.size + 1) := by
  refine onEat_fits ?_ ?_
  · refine (h.expr _ (by omega)).bind fun arg => (expect_fits _ _).bind fun _ => ?_
    refine (finishCall_fits h _).weaken ?_ fun _ => le_rfl
    rw [size_aggregate, sizeOpt_some, sizeOpt_none]
    omega
  · refine (callArgs_fits h (by omega)).bind fun es => ?_
    have hfunction : Fits (K + 1) d w (c + 2 + sizeList es) (finishCall G (.node (.function name) es))
        (finishCall G' (.node (.function name) es)) fun e => c + (e.size + 1) := by
      refine (finishCall_fits h _).weaken ?_ fun _ => le_rfl
      rw [size_node]
      omega
    match es, hfunction with
    | [], hfunction => exact hfunction
    | [arg], _ =>
      refine (finishCall_fits h _).weaken ?_ fun _ => le_rfl
      rw [size_aggregate, sizeList_cons, sizeList_nil, sizeOpt_some, sizeOpt_none]
      omega
    | _ :: _ :: _, hfunction => exact hfunction

lemma aggregateArg_fits (h : Agree K d w G G') (func : AggFunc) (distinct : Bool) (hc : 1 ≤ c) :
    Fits (K + 1) d w c (aggregateArg G func distinct) (aggregateArg G' func distinct)
      fun r => c + sizeOpt r := by
  refine onEat_fits (.ite (fun _ => fail_fits _) fun _ => .ite (fun _ => fail_fits _)
    fun _ => .pure none (by simp)) ((h.expr c hc).map fun e => ?_)
  rw [sizeOpt_some]
  omega

lemma aggregateSep_fits (h : Agree K d w G G') (func : AggFunc) (hc : 1 ≤ c) :
    Fits (K + 1) d w c (aggregateSep G func) (aggregateSep G' func) fun r => c + sizeOpt r := by
  refine .ite (fun _ => onEat_fits ((h.expr _ (by omega)).map fun e => ?_) (.pure none le_rfl))
    fun _ => .pure none le_rfl
  rw [sizeOpt_some]
  omega

lemma aggregateCall_fits (h : Agree K d w G G') (func : AggFunc) :
    Fits (K + 1) d w (c + 2) (aggregateCall G func) (aggregateCall G' func) fun e => c + (e.size + 1) := by
  refine (eatAny_fits _).bind fun distinct => (aggregateArg_fits h func distinct (by omega)).bind
    fun arg => (aggregateSep_fits h func (by omega)).bind fun sep => (expect_fits _ _).bind fun _ => ?_
  refine (finishCall_fits h _).weaken ?_ fun _ => le_rfl
  rw [size_aggregate]
  omega

lemma functionCall_fits (h : Agree K d w G G') (name : String) :
    Fits (K + 1) d w (c + 2) (functionCall G name) (functionCall G' name) fun e => c + (e.size + 1) := by
  refine (callArgs_fits h (by omega)).bind fun es => .ite (fun _ => ?_) fun _ => ?_
  · match es with
    | [cond, yes, no] =>
      refine .pure _ ?_
      rw [size_caseNode, sizeWhens_cons]
      simp only [sizeOpt_none, sizeOpt_some, sizeList_cons, sizeList_nil, sizeWhens, List.flatMap_nil]
      omega
    | [] => exact fail_fits _
    | [_] => exact fail_fits _
    | [_, _] => exact fail_fits _
    | _ :: _ :: _ :: _ :: _ => exact fail_fits _
  · refine (finishCall_fits h _).weaken ?_ fun _ => le_rfl
    rw [size_node]
    omega

lemma nameExpr_fits (h : Agree K d w G G') (name : String) :
    Fits (K + 1) d w (c + 2) (nameExpr G name) (nameExpr G' name) fun e => c + (e.size + 1) := by
  refine onEat_fits ?_ (onEat_fits ?_ (.pure _ le_rfl))
  · refine (ident_fits _).bind fun col => .pure _ ?_
    rw [size_column]
    omega
  · refine Pays.weaken (c := c + 2) ?_ (by omega) fun _ => le_rfl
    cases extremeOf? name with
    | some func => exact extremeCall_fits h func name
    | none =>
      cases aggregateOf? name with
      | some func => exact aggregateCall_fits h func
      | none => exact functionCall_fits h name

lemma castExpr_fits (h : Agree K d w G G') :
    Fits (K + 1) d w (c + 2) (castExpr G) (castExpr G') fun e => c + (e.size + 1) := by
  refine (parens_fits (q := fun e => c + (e.size + 1)) _ ?_).weaken le_rfl fun e => by omega
  refine (h.expr _ (by omega)).bind fun inner => (expectKw_fits _ _).bind fun _ =>
    coltype_fits.bind fun ty => .pure _ ?_
  rw [size_node, sizeList_cons, sizeList_nil]
  omega

lemma vectorCall_fits (h : Agree K d w G G') :
    Fits (K + 1) d w (c + 2) (vectorCall G) (vectorCall G') fun e => c + (e.size + 1) := by
  refine (expect_fits _ _).bind fun _ => (callArgs_fits h (by omega)).bind fun es => ?_
  refine (finishCall_fits h _).weaken ?_ fun _ => le_rfl
  rw [size_node]
  omega

lemma size_subquery (q : SelectStmt) : (Expr.scalarSubquery q).size = 1 + q.size := by
  rw [Expr.size, Expr.measure, SelectStmt.size]

lemma size_exists (q : SelectStmt) : (Expr.exists_ q).size = 1 + q.size := by
  rw [Expr.size, Expr.measure, SelectStmt.size]

lemma parenExpr_fits (h : Agree K d w G G') :
    Fits (K + 1) d w (c + 2) (parenExpr G) (parenExpr G') fun e => c + (e.size + 1) := by
  have hbody : Fits (K + 1) d w (c + 2) (parenBody G) (parenBody G') fun e => c + (e.size + 1) := by
    refine peek_fits.bind fun t => .ite (fun _ => ?_) fun _ => ?_
    · refine (h.select _ (by omega)).map fun q => ?_
      rw [size_subquery]
      omega
    · exact (h.expr _ (by omega)).weaken le_rfl fun e => by omega
  exact hbody.bind fun e => (expect_fits _ _).bind fun _ => .pure e (by omega)

lemma positionalParam_fits (n : ℕ) :
    Fits K d w (c + 2) (positionalParam n) (positionalParam n) fun e => c + (e.size + 1) := by
  rintro k - s hs hc a s' hrun
  refine ⟨hrun, ?_⟩
  unfold positionalParam at hrun
  split_ifs at hrun
  cases hrun
  refine ⟨hs, ?_⟩
  dsimp only at hc ⊢
  rw [size_param]
  omega

lemma namedParam_fits (name : String) :
    Fits K d w (c + 2) (namedParam name) (namedParam name) fun e => c + (e.size + 1) := by
  rintro k - s hs hc a s' hrun
  refine ⟨hrun, ?_⟩
  unfold namedParam at hrun
  by_cases hseen : s.positional_seen = true
  · rw [if_pos hseen] at hrun
    cases hrun
  rw [if_neg hseen] at hrun
  cases hidx : s.param_names.idxOf? name with
  | some i =>
    rw [hidx] at hrun
    cases hrun
    refine ⟨hs, ?_⟩
    dsimp only at hc ⊢
    rw [size_param]
    omega
  | none =>
    rw [hidx] at hrun
    cases hrun
    refine ⟨hs, ?_⟩
    dsimp only at hc ⊢
    rw [size_param]
    omega

/-- The first token pays for the node. -/
lemma primary_fits (h : Agree K d w G G') (c : ℕ) :
    Fits (K + 1) d w c (primary G) (primary G') fun e => c + (e.size + 1) := by
  have hw := h.price
  refine next_fits.bind fun t => ?_
  cases t with
  | none => exact fail_fits _
  | some t =>
    refine Pays.weaken (c := c + 2) ?_ (by simp only [Option.isSome_some, if_true]; omega)
      fun _ => le_rfl
    rw [Option.bind_some]
    cases startOf? t with
    | none => exact fail_fits _
    | some st =>
      cases st with
      | literal v => exact .pure _ le_rfl
      | cast => exact castExpr_fits h
      | case_ => exact caseExpr_fits h
      | param n => exact positionalParam_fits n
      | namedParam name => exact namedParam_fits name
      | vector => exact vectorCall_fits h
      | ident name => exact nameExpr_fits h name
      | exists_ =>
        refine (parens_fits _ (h.select _ (by omega))).map fun q => ?_
        rw [size_exists]
        omega
      | lParen => exact parenExpr_fits h

lemma addExpr_fits (h : Agree K d w G G') (c : ℕ) :
    Fits (K + 1) d w c (addExpr G) (addExpr G') fun e => c + (e.size + 1) := by
  have hunary : ∀ c, Fits (K + 1) d w c (unaryExpr G) (unaryExpr G') fun e => c + (e.size + 1) :=
    fun c => loop_fits fun n => unaryLoop_fits h.price _ _ (primary_fits h) n c
  exact leftAssoc_fits _ (leftAssoc_fits _ (leftAssoc_fits _ hunary)) c

/-! ### Comparisons -/

lemma size_inSubquery (e : Expr) (q : SelectStmt) (negated : Bool) :
    (Expr.inSubquery e q negated).size = 1 + (e.size + q.size) := by
  rw [Expr.size, Expr.measure, Expr.size, SelectStmt.size]

lemma inRest_fits (h : Agree K d w G G') (left : Expr) (negated : Bool) :
    Fits (K + 1) d w (c + (left.size + 1)) (inRest G left negated) (inRest G' left negated)
      fun e => c + (e.size + 1) := by
  have hw := h.price
  refine (expect_fits _ _).bind fun _ => peek_fits.bind fun t => .ite (fun _ => ?_) fun _ => ?_
  · refine (h.select _ (by omega)).bind fun q => (expect_fits _ _).bind fun _ => .pure _ ?_
    rw [size_inSubquery]
    omega
  · refine (callArgs_fits h (by omega)).bind fun es => .pure _ ?_
    rw [size_node, sizeList_cons]
    omega

/-- The operand is paid for twice. -/
lemma betweenRest_fits (h : Agree K d w G G') (left : Expr) (negated : Bool) :
    Fits (K + 1) d w (c + (2 * left.size + 2)) (betweenRest G left negated)
      (betweenRest G' left negated) fun e => c + (e.size + 1) := by
  have hw := h.price
  refine (addExpr_fits h _).bind fun lo => (expectKw_fits _ _).bind fun _ =>
    (addExpr_fits h _).bind fun hi => .pure _ ?_
  cases negated <;>
  · simp only [cmp, if_true, Bool.false_eq_true, if_false, size_node, sizeList_cons, sizeList_nil]
    omega

lemma compareRest_fits (h : Agree K d w G G') (left : Expr) :
    Fits (K + 1) d w (c + (left.size + 1)) (compareRest G left) (compareRest G' left)
      fun e => c + (e.size + 1) := by
  refine (eatAs_fits _).bind fun r => ?_
  cases r with
  | none => exact .pure left le_rfl
  | some op =>
    refine (addExpr_fits h _).map fun right => ?_
    simp only [Option.isSome_some, if_true, cmp, size_node, sizeList_cons, sizeList_nil]
    omega

/-- What follows the operand of a comparison pays for the operand once more. -/
lemma cmpRest_fits (h : Agree K d w G G') (left : Expr) :
    Fits (K + 1) d w (c + (2 * left.size + 2)) (cmpRest G left) (cmpRest G' left)
      fun e => c + (e.size + 1) := by
  have hw := h.price
  refine onEat_fits ?_ ?_
  · refine (eatAny_fits _).bind fun negated => (expectKw_fits _ _).bind fun _ => .pure _ ?_
    simp only [size_node, sizeList_cons, sizeList_nil]
    omega
  refine (eatNot_fits _).bind fun r => ?_
  cases r with
  | some negated =>
    refine (addExpr_fits h _).map fun pattern => ?_
    simp only [Option.isSome_some, if_true, size_node, sizeList_cons, sizeList_nil]
    omega
  | none =>
  refine (eatNot_fits _).bind fun r => ?_
  cases r with
  | some negated =>
    refine (addExpr_fits h _).map fun query => ?_
    simp only [Option.isSome_some, Option.isSome_none, Bool.false_eq_true, if_false, if_true,
      size_node, sizeList_cons, sizeList_nil]
    omega
  | none =>
  refine (eatNot_fits _).bind fun r => ?_
  cases r with
  | some negated =>
    refine (inRest_fits h left negated).weaken ?_ fun _ => le_rfl
    simp only [Option.isSome_some, Option.isSome_none, Bool.false_eq_true, if_false, if_true]
    omega
  | none =>
  refine (eatNot_fits _).bind fun r => ?_
  cases r with
  | some negated =>
    refine (betweenRest_fits h left negated).weaken ?_ fun _ => le_rfl
    simp only [Option.isSome_some, Option.isSome_none, Bool.false_eq_true, if_false, if_true]
    omega
  | none =>
    refine (compareRest_fits h left).weaken ?_ fun _ => le_rfl
    simp only [Option.isSome_none, Bool.false_eq_true, if_false]
    omega

/-- At twice the price, and three for the nodes of a `BETWEEN`, the operand may be there twice. -/
lemma cmpExpr_fits (h : Agree K d w G G') (c : ℕ) :
    Fits (K + 1) d (2 * w + 3) c (cmpExpr G) (cmpExpr G') fun e => c + (e.size + 1) := by
  have hw := h.price
  have hadd : Fits (K + 1) d w 0 (addExpr G) (addExpr G') fun e => e.size + 1 :=
    (addExpr_fits h 0).weaken le_rfl fun e => (Nat.zero_add _).ge
  refine (hadd.twice (by omega) fun e => Nat.succ_pos _).bind fun left => ?_
  refine (cmpRest_fits (h.heavier (by omega)) left).weaken ?_ fun _ => le_rfl
  omega

lemma orExpr_fits (h : Agree K d w G G') (c : ℕ) :
    Fits (K + 1) d (2 * w + 3) c (orExpr G) (orExpr G') fun e => c + (e.size + 1) := by
  have hnot : ∀ c, Fits (K + 1) d (2 * w + 3) c (notExpr G) (notExpr G')
      fun e => c + (e.size + 1) :=
    fun c => loop_fits fun n => unaryLoop_fits (by omega) _ _ (cmpExpr_fits h) n c
  exact leftAssoc_fits _ (leftAssoc_fits _ hnot) c

end Expressions

/-! ### Levels -/

section Levels
variable {K d w c : ℕ} {e e' : Parse Expr} {q : Expr → ℕ}

lemma nested_fits (he : Fits K (d + 1) w c e e' q) : Fits K d w c (nested e) (nested e') q := by
  intro k hk s hs hc a s' hrun
  unfold nested at hrun ⊢
  split_ifs at hrun ⊢
  obtain ⟨⟨b, t⟩, hinner, hrun⟩ := bind_eq_ok.1 hrun
  cases hrun
  have hdepth : ({ s with depth := s.depth + 1 } : Parser).depth = d + 1 := by
    dsimp only
    omega
  obtain ⟨hinner', ht, hpay⟩ := he k hk { s with depth := s.depth + 1 } hdepth hc b t hinner
  refine ⟨by rw [hinner']; rfl, ?_, hpay⟩
  dsimp only
  omega

/-- At the last level nothing is read. -/
lemma nested_last (hd : MAX_EXPR_DEPTH ≤ d) : Fits K d w c (nested e) (nested e') q := by
  rintro k - s rfl - a s' hrun
  unfold nested at hrun
  rw [if_pos (by omega)] at hrun
  cases hrun

end Levels

/-! ### Queries -/

section Queries
variable {K d w c : ℕ} {G G' : Grammar}

lemma columnAlias_fits : Fits K d w c columnAlias columnAlias fun _ => c :=
  onAhead_fits (.pure none le_rfl) ((ifKw_fits (f := fun _ => 0) .as_
    ((ident_fits _).weaken le_rfl fun _ => by omega)).weaken le_rfl fun r => by omega)

lemma selectItem_fits (h : Agree K d w G G') (hc : 1 ≤ c) :
    Fits (K + 1) d w c (selectItem G) (selectItem G') fun it => c + it.size := by
  have hw := h.price
  refine onEat_fits (.pure _ (by rw [SelectItem.size]; omega)) ?_
  refine (h.expr c hc).bind fun e => columnAlias_fits.bind fun a => .pure _ ?_
  rw [SelectItem.size]
  omega

lemma tableAlias_fits : Fits K d w c tableAlias tableAlias fun _ => c := by
  refine onAhead_fits (.pure none le_rfl) (onEat_fits ((ident_fits _).map fun _ => by omega) ?_)
  exact (eatAs_fits _).weaken le_rfl fun r => by split_ifs <;> omega

lemma tableRef_fits (h : Agree K d w G G') :
    Fits (K + 1) d w c (tableRef G) (tableRef G') fun t => c + t.size := by
  have hw := h.price
  refine onAhead_fits ?_ ?_
  · refine (parens_fits _ (h.select _ (by omega))).bind fun q => (eatAny_fits _).bind fun _ =>
      (ident_fits _).bind fun a => .pure _ ?_
    rw [size_derived]
    omega
  · refine (ident_fits _).bind fun name => tableAlias_fits.bind fun a => .pure _ ?_
    rw [size_tableName]
    omega

lemma joinKind_fits : Fits K d w c joinKind joinKind fun r => if r.isSome then c + w else c := by
  refine onEat_fits ((expectKw_fits _ _).bind fun _ => .pure _ ?_)
    (onEat_fits ((expectKw_fits _ _).bind fun _ => .pure _ ?_)
      (onEat_fits (.pure _ le_rfl) (.pure none le_rfl)))
  · simp only [Option.isSome_some, if_true]
    omega
  · simp only [Option.isSome_some, if_true]
    omega

lemma joinLoop_fits (h : Agree K d w G G') (n : ℕ) :
    Fits (K + 1) d w c (joinLoop G n) (joinLoop G' n) fun js => c + sizeJoins js := by
  have hw := h.price
  induction n generalizing c with
  | zero => exact outOfFuel_fits
  | succ n ih =>
    refine joinKind_fits.bind fun r => ?_
    cases r with
    | none => exact .pure [] le_rfl
    | some kind =>
      refine (tableRef_fits h).bind fun t => (expectKw_fits _ _).bind fun _ =>
        (h.expr _ (by omega)).bind fun on => ih.map fun js => ?_
      simp only [Option.isSome_some, if_true, sizeJoins_cons]
      omega

lemma joins_fits (h : Agree K d w G G') (t : Option TableRef) :
    Fits (K + 1) d w c (joins G t) (joins G' t) fun js => c + sizeJoins js :=
  .ite (fun _ => loop_fits fun n => joinLoop_fits h n) fun _ => .pure [] le_rfl

lemma selectCore_fits (h : Agree K d w G G') :
    Fits (K + 1) d w c (selectCore G) (selectCore G') fun q => c + (q.size + 1) := by
  have hw := h.price
  refine (expectKw_fits _ _).bind fun _ => (eatAny_fits _).bind fun distinct => ?_
  refine (commaSep_fits (fun c hc => selectItem_fits h hc) (by omega)).bind fun projection => ?_
  refine (ifKw_fits (f := TableRef.size) _ ((tableRef_fits h).weaken le_rfl fun t => by omega)).bind
    fun from_ => (joins_fits h from_).bind fun js => ?_
  refine (ifKw_expr h _ (by omega)).bind fun where_clause => ?_
  refine (clauseBy_fits rfl _ (by omega) fun c hc => h.exprs hc).bind fun group_by => ?_
  refine (ifKw_expr h _ (by omega)).bind fun having => .pure _ ?_
  rw [size_select, sizeItems_eq, sizeFrom_elim]
  have hnil : sizeOrder [] = 0 ∧ sizeCompound [] = 0 ∧ sizeCtes [] = 0 := ⟨rfl, rfl, rfl⟩
  rw [sizeOpt_none, hnil.1, hnil.2.1, hnil.2.2]
  omega

lemma setOp_fits : Fits K d w c setOp setOp fun r => if r.isSome then c + w else c :=
  onEat_fits (onEat_fits (.pure _ (by simp only [Option.isSome_some, if_true]; omega))
    (.pure _ le_rfl)) (onEat_fits (.pure _ le_rfl) (onEat_fits (.pure _ le_rfl) (.pure none le_rfl)))

lemma compoundLoop_fits (h : Agree K d w G G') (n : ℕ) :
    Fits (K + 1) d w c (compoundLoop G n) (compoundLoop G' n) fun cs => c + sizeCompound cs := by
  have hw := h.price
  induction n generalizing c with
  | zero => exact outOfFuel_fits
  | succ n ih =>
    refine setOp_fits.bind fun r => ?_
    cases r with
    | none => exact .pure [] le_rfl
    | some op =>
      refine (selectCore_fits h).bind fun q => ih.map fun cs => ?_
      simp only [Option.isSome_some, if_true, sizeCompound_cons]
      omega

lemma asOf_fits : Fits K d w c asOf asOf fun _ => c := by
  refine onBoth_fits (onEat_fits ?_ (onEat_fits ?_ (fail_fits _))) (.pure none le_rfl)
  · refine Pays.map (r := fun _ => c) (next_any.bind fun t => ?_) fun _ => le_rfl
    cases t.bind natOf? with
    | none => exact fail_fits _
    | some n => exact .pure _ (by omega)
  · refine Pays.map (r := fun _ => c) (next_any.bind fun t => ?_) fun _ => le_rfl
    cases t.bind strOf? with
    | none => exact fail_fits _
    | some s =>
      dsimp only
      cases Datetime.parseRfc3339Ms (encodeChars s.toList) with
      | none => exact fail_fits _
      | some ms => exact .pure _ (by omega)

lemma selectStmt_fits (h : Agree K d w G G') :
    Fits (K + 1) d w c (selectStmt G) (selectStmt G') fun q => c + (q.size + 1) := by
  refine (selectCore_fits h).bind fun lead => (loop_fits fun n => compoundLoop_fits h n).bind
    fun compound => ?_
  refine (clauseBy_fits rfl _ (by omega) fun c hc => orderByItems_fits h hc).bind fun order_by => ?_
  refine (ifKw_expr h _ (by omega)).bind fun limit => (ifKw_expr h _ (by omega)).bind fun offset =>
    asOf_fits.bind fun as_of => .pure _ ?_
  obtain ⟨distinct, projection, from_, js, where_clause, group_by, having, os, l, o, a, cs, ctes⟩ := lead
  dsimp only
  rw [size_select, size_select]
  omega

end Queries

/-! ### The grammar -/

/-- What a token pays for at a number of levels from the last. -/
def price : ℕ → ℕ
  | 0 => 2
  | n + 1 => 2 * price n + 3

lemma two_le_price (n : ℕ) : 2 ≤ price n := by
  cases n with
  | zero => exact le_rfl
  | succ n =>
    rw [price]
    omega

section Grammars
variable {K d : ℕ} {G G' : Grammar}

/-- One level of the grammar from the next. -/
lemma level_agree {n m : ℕ}
    (h : ∀ d, Agree K d (price (MAX_EXPR_DEPTH - d)) (grammar n) (grammar m)) (d : ℕ) :
    Agree (K + 1) d (price (MAX_EXPR_DEPTH - d)) (grammar (n + 1)) (grammar (m + 1)) where
  price := two_le_price _
  expr_pays := by
    by_cases hd : MAX_EXPR_DEPTH ≤ d
    · exact nested_last hd
    · have hlevel : MAX_EXPR_DEPTH - d = (MAX_EXPR_DEPTH - (d + 1)) + 1 := by omega
      rw [hlevel, price]
      exact (nested_fits (orExpr_fits (h (d + 1)) 0)).weaken le_rfl fun e => (Nat.zero_add _).ge
  select_pays := (selectStmt_fits (h d)).weaken le_rfl fun q => (Nat.zero_add _).ge

/-- As much fuel as tokens, and one more, is enough. -/
lemma grammar_enough (n K d : ℕ) :
    Agree K d (price (MAX_EXPR_DEPTH - d)) (grammar n) (grammar K) := by
  induction K generalizing n d with
  | zero => exact ⟨two_le_price _, .zero, .zero⟩
  | succ K ih =>
    cases n with
    | zero => exact ⟨two_le_price _, outOfFuel_fits, outOfFuel_fits⟩
    | succ n => exact level_agree (fun d => ih n d) d

end Grammars

end Parse

end Arkeion.Sql
