import Arkeion.Sql.EvalPanics
import Arkeion.Sql.WindowExact

/-!
Which window functions end the process on a partition.

The place that `LAG`, `LEAD` or a frame leads to is computed in a word with a sign, and the argument
is read without a look at whether there is one. Rows take their values one after the other, so an
error on one row hides what the rows after it would do.
-/

namespace Arkeion.Sql

open Arkeion.Lib Catalog Scalar

/-! ### Places -/

section Places
variable {frame : Option WindowFrame} {has_order is_start : Bool} {k m s e : ℕ} {b : FrameBound}
  {func : WindowFunc} {offset : ℤ}

/-- The bound of the frame of the row `k` leaves its word. -/
def BadBound (k : ℕ) : FrameBound → Prop
  | .preceding n => ¬ InI64 (k - n)
  | .following n => ¬ InI64 (k + n)
  | _ => False

def BadFrame (f : WindowFrame) (k : ℕ) : Prop := BadBound k f.start ∨ BadBound k f.end_

lemma boundAt_panics : Panics (boundAt k m is_start b) ↔ BadBound k b := by
  cases b with
  | preceding n => exact panics_isize
  | following n => exact panics_isize
  | _ => exact panics_ok _

lemma boundAt_of_fits (h : ¬ BadBound k b) : ∃ x, boundAt k m is_start b = .ok x := by
  cases b with
  | preceding n => exact ⟨_, Scalar.isize_ok (not_not.1 h)⟩
  | following n => exact ⟨_, Scalar.isize_ok (not_not.1 h)⟩
  | _ => exact ⟨_, rfl⟩

lemma frameRange_panics : Panics (frameRange frame k m has_order) ↔ BadFrame (frameOr frame has_order) k := by
  rw [frameRange, panics_bind, boundAt_panics, BadFrame]
  constructor
  · rintro (h | ⟨x, -, h⟩)
    · exact Or.inl h
    · rcases panics_bind.1 h with h | ⟨y, -, h⟩
      · exact Or.inr (boundAt_panics.1 h)
      · exact absurd h (panics_ok _).1
  · intro h
    by_cases hstart : BadBound k (frameOr frame has_order).start
    · exact Or.inl hstart
    · obtain ⟨x, hx⟩ : ∃ x, boundAt k m true (frameOr frame has_order).start = .ok x :=
        boundAt_of_fits hstart
      exact Or.inr ⟨x, hx, panics_bind.2 (Or.inl (boundAt_panics.2 (h.resolve_left hstart)))⟩

/-- A frame lies in its partition. -/
lemma frameRange_fits (h : frameRange frame k m has_order = .ok (some (s, e))) : s ≤ e ∧ e < m := by
  obtain ⟨x, -, h⟩ := bind_eq_ok.1 h
  obtain ⟨y, -, h⟩ := bind_eq_ok.1 h
  rw [Except.ok.injEq] at h
  split_ifs at h with hle
  cases h
  omega

lemma lagTarget_panics : Panics (lagTarget func offset k) ↔
    ¬ InI64 (if func = .lag then k - offset else k + offset) := by
  unfold lagTarget
  split_ifs with hlag
  · exact panics_isize
  · exact panics_isize

lemma lagTarget_ok {target : ℤ} (h : lagTarget func offset k = .ok target) :
    target = if func = .lag then k - offset else k + offset := by
  unfold lagTarget at h
  split_ifs at h ⊢ with hlag
  · exact (isize_eq_ok.1 h).2
  · exact (isize_eq_ok.1 h).2

lemma lagTarget_of_fits (h : InI64 (if func = .lag then k - offset else k + offset)) :
    lagTarget func offset k = .ok (if func = .lag then k - offset else k + offset) := by
  unfold lagTarget
  split_ifs at h ⊢ with hlag
  · exact Scalar.isize_ok h
  · exact Scalar.isize_ok h

end Places

/-! ### Arguments -/

section Arguments
variable (B : Builtins) (schema : QuerySchema) (params : List Value) (args : List Expr)
  (frame : Option WindowFrame) (has_order : Bool) (part rows : List Row) (func : WindowFunc)

/-- There is no argument, or it ends the process on this row. -/
def ArgPanics (row : Row) : Prop :=
  args = [] ∨ ∃ arg, args[0]? = some arg ∧ Panics (evalOn B schema params arg row)

/-- The aggregate comes to a row of the frame that its argument ends the process on. -/
def AggregatePanics : Prop := (func = .count → args ≠ []) ∧
  ∃ before row after, rows = before ++ row :: after ∧
    (∃ v, windowAggregate B schema params func args before = .ok v) ∧ ArgPanics B schema params args row

/-- `LAG` or `LEAD` on the row `k`: the place leaves its word, or what is read there ends the
process. -/
def LagPanics (offset : ℤ) (k : ℕ) (row : Row) : Prop :=
  let target := if func = .lag then k - offset else k + offset
  ¬ InI64 target ∨
    (0 ≤ target ∧ ∃ r, part[target.toNat]? = some r ∧ ArgPanics B schema params args r) ∨
    (¬ (0 ≤ target ∧ target < part.length) ∧
      ∃ e, args[2]? = some e ∧ Panics (evalOn B schema params e row))

/-- `FIRST_VALUE` or `LAST_VALUE` on the row `k`. -/
def EdgePanics (k : ℕ) : Prop :=
  BadFrame (frameOr frame has_order) k ∨
    ∃ s e r, frameRange frame k part.length has_order = .ok (some (s, e)) ∧
      part[if func = .firstValue then s else e]? = some r ∧ ArgPanics B schema params args r

def FramePanics (k : ℕ) : Prop :=
  BadFrame (frameOr frame has_order) k ∨
    ∃ range, frameRange frame k part.length has_order = .ok range ∧
      AggregatePanics B schema params args (framed part range) func

variable {B schema params args frame has_order part rows func}

/-- The argument on one row. -/
lemma arg_panics {row : Row} : Panics (argAt args 0 >>= fun arg => evalOn B schema params arg row) ↔
    ArgPanics B schema params args row := by
  cases args with
  | nil => exact iff_of_true (panics_bind.2 (Or.inl (panics_okOr.2 ⟨rfl, trivial⟩))) (Or.inl rfl)
  | cons arg rest =>
    have harg : argAt (arg :: rest) 0 = .ok arg := rfl
    rw [harg, ok_bind, ArgPanics]
    simp

/-- The argument on a row of the partition. -/
lemma argOn_panics {i : ℕ} (hi : i < part.length) :
    Panics (argAt args 0 >>= fun arg => okOr part[i]? (.panic "index out of bounds") >>= fun r =>
      evalOn B schema params arg r) ↔ ∃ r, part[i]? = some r ∧ ArgPanics B schema params args r := by
  have hget : part[i]? = some (part.get ⟨i, hi⟩) := List.getElem?_eq_getElem hi
  have hrow : okOr part[i]? (.panic "index out of bounds") = .ok (part.get ⟨i, hi⟩) := by
    rw [hget]
    rfl
  rw [hrow]
  simp only [ok_bind, arg_panics, hget, Option.some.injEq, exists_eq_left']

lemma valueAt_panics {target : ℤ} {row : Row} : Panics (valueAt B schema params args part target row) ↔
    (0 ≤ target ∧ ∃ r, part[target.toNat]? = some r ∧ ArgPanics B schema params args r) ∨
      (¬ (0 ≤ target ∧ target < part.length) ∧
        ∃ e, args[2]? = some e ∧ Panics (evalOn B schema params e row)) := by
  unfold valueAt
  split_ifs with hin
  · rw [argOn_panics (by omega), or_iff_left fun h => h.1 hin, and_iff_right hin.1]
  · have hnone : ¬ (0 ≤ target ∧ ∃ r, part[target.toNat]? = some r ∧ ArgPanics B schema params args r) := by
      rintro ⟨hpos, r, hr, -⟩
      obtain ⟨hlt, -⟩ := List.getElem?_eq_some_iff.1 hr
      exact hin ⟨hpos, by omega⟩
    rw [or_iff_right hnone, and_iff_right hin]
    cases args[2]? with
    | none => simp
    | some e => simp

lemma lagOf_panics {offset : ℤ} {k : ℕ} {row : Row} :
    Panics (lagOf B schema params args part func offset k row) ↔
      LagPanics B schema params args part func offset k row := by
  unfold LagPanics
  rw [lagOf, panics_bind, lagTarget_panics]
  constructor
  · rintro (h | ⟨target, htarget, h⟩)
    · exact Or.inl h
    · rw [valueAt_panics, lagTarget_ok htarget] at h
      exact Or.inr h
  · rintro (h | h)
    · exact Or.inl h
    · by_cases hfits : InI64 (if func = .lag then k - offset else k + offset)
      · refine Or.inr ⟨_, lagTarget_of_fits hfits, ?_⟩
        rw [valueAt_panics]
        exact h
      · exact Or.inl hfits

lemma edgeOf_panics {k : ℕ} : Panics (edgeOf B schema params args frame has_order part func k) ↔
    EdgePanics B schema params args frame has_order part func k := by
  rw [edgeOf, panics_bind, frameRange_panics, EdgePanics]
  refine or_congr_right ?_
  constructor
  · rintro ⟨range, hrange, h⟩
    rcases range with _ | ⟨s, e⟩
    · exact absurd h (panics_ok _).1
    · obtain ⟨hse, he⟩ := frameRange_fits hrange
      obtain ⟨r, hr, harg⟩ := (argOn_panics (by split_ifs <;> omega)).1 h
      exact ⟨s, e, r, hrange, hr, harg⟩
  · rintro ⟨s, e, r, hrange, hr, harg⟩
    obtain ⟨hse, he⟩ := frameRange_fits hrange
    exact ⟨_, hrange, (argOn_panics (by split_ifs <;> omega)).2 ⟨r, hr, harg⟩⟩

/-! ### Aggregates of a frame -/

section Fold
variable {α β : Type} {step : α → Value → Result α}

lemma foldArg_cons (step : α → Value → Result α) (acc : α) (row : Row) (rows : List Row) :
    foldArg B schema params args step acc (row :: rows)
      = (argAt args 0 >>= fun arg => evalOn B schema params arg row) >>= fun v =>
        (if v = .null then .ok acc else step acc v) >>= fun acc' =>
          foldArg B schema params args step acc' rows := by
  rw [foldArg, bind_assoc]
  refine bind_congr fun arg => bind_congr fun v => ?_
  split_ifs <;> rfl

/-- A fold over rows ends the process where the argument does, after rows on which all went well. -/
lemma foldArg_panics (hstep : ∀ a v, ¬ Panics (step a v)) (acc : α) :
    Panics (foldArg B schema params args step acc rows) ↔
      ∃ before row after, rows = before ++ row :: after ∧
        (∃ a, foldArg B schema params args step acc before = .ok a) ∧
          ArgPanics B schema params args row := by
  induction rows generalizing acc with
  | nil =>
    refine iff_of_false (panics_ok _).1 ?_
    rintro ⟨before, row, after, h, -⟩
    simp at h
  | cons row rows ih =>
    rw [foldArg_cons, panics_bind, arg_panics]
    constructor
    · rintro (h | ⟨v, hv, h⟩)
      · exact ⟨[], row, rows, rfl, ⟨acc, rfl⟩, h⟩
      rcases panics_bind.1 h with h | ⟨acc', hacc, h⟩
      · split_ifs at h
        · exact absurd h (panics_ok _).1
        · exact absurd h (hstep acc v)
      · obtain ⟨before, r, after, rfl, ⟨a, ha⟩, harg⟩ := (ih acc').1 h
        refine ⟨row :: before, r, after, rfl, ⟨a, ?_⟩, harg⟩
        rw [foldArg_cons, hv, ok_bind, hacc, ok_bind, ha]
    · rintro ⟨before, r, after, hsplit, ⟨a, ha⟩, harg⟩
      cases before with
      | nil =>
        obtain ⟨rfl, rfl⟩ := List.cons.inj hsplit
        exact Or.inl harg
      | cons r' before =>
        obtain ⟨rfl, rfl⟩ := List.cons.inj hsplit
        rw [foldArg_cons] at ha
        obtain ⟨v, hv, ha⟩ := bind_eq_ok.1 ha
        obtain ⟨acc', hacc, ha⟩ := bind_eq_ok.1 ha
        refine Or.inr ⟨v, hv, panics_bind.2 (Or.inr ⟨acc', hacc, ?_⟩)⟩
        exact (ih acc').2 ⟨before, r, after, rfl, ⟨a, ha⟩, harg⟩

lemma foldThen_panics (hstep : ∀ a v, ¬ Panics (step a v)) (acc : α) (f : α → β) :
    Panics (foldArg B schema params args step acc rows >>= fun a => .ok (f a)) ↔
      ∃ before row after, rows = before ++ row :: after ∧
        (∃ v, (foldArg B schema params args step acc before >>= fun a => .ok (f a)) = .ok v) ∧
          ArgPanics B schema params args row := by
  have hok : ∀ before, (∃ v, (foldArg B schema params args step acc before >>= fun a => .ok (f a)) = .ok v)
      ↔ ∃ a, foldArg B schema params args step acc before = .ok a := by
    intro before
    cases foldArg B schema params args step acc before with
    | error e => exact iff_of_false (by rintro ⟨v, hv⟩; cases hv) (by rintro ⟨v, hv⟩; cases hv)
    | ok a => exact iff_of_true ⟨f a, rfl⟩ ⟨a, rfl⟩
  simp only [hok, panics_bind, panics_ok, and_false, exists_false, or_false, foldArg_panics hstep]

end Fold

lemma windowSumStep_quiet {acc : WindowSum} {v : Value} : ¬ Panics (windowSumStep B acc v) := by
  cases v with
  | integer n => exact (panics_ok _).1
  | real f => exact (panics_ok _).1
  | _ => exact (panics_error _).1

lemma bestStep_quiet {wanted : Ordering} {best : Option Value} {v : Value} :
    ¬ Panics (bestStep B wanted best v) := by
  unfold bestStep
  cases best with
  | none => exact (panics_ok _).1
  | some b => exact not_panics_bind cmpValues_quiet fun o => (by split_ifs <;> exact (panics_ok _).1)

lemma windowAggregate_panics (hagg : func.isAggregate = true) :
    Panics (windowAggregate B schema params func args rows) ↔
      AggregatePanics B schema params args rows func := by
  cases func with
  | count =>
    cases args with
    | nil => exact iff_of_false (panics_ok _).1 fun h => h.1 rfl rfl
    | cons arg rest =>
      rw [AggregatePanics, and_iff_right fun _ => List.cons_ne_nil _ _]
      exact foldThen_panics (fun _ _ => (panics_ok _).1) 0 _
  | sum =>
    rw [AggregatePanics, and_iff_right fun h => by cases h]
    exact foldThen_panics (fun _ _ => windowSumStep_quiet) _ _
  | avg =>
    rw [AggregatePanics, and_iff_right fun h => by cases h]
    exact foldThen_panics (fun _ _ => windowSumStep_quiet) _ _
  | min =>
    rw [AggregatePanics, and_iff_right fun h => by cases h]
    exact foldThen_panics (fun _ _ => bestStep_quiet) _ _
  | max =>
    rw [AggregatePanics, and_iff_right fun h => by cases h]
    exact foldThen_panics (fun _ _ => bestStep_quiet) _ _
  | _ => cases hagg

lemma aggregateAt_panics {k : ℕ} (hagg : func.isAggregate = true) :
    Panics (aggregateAt B schema params args frame has_order part func k) ↔
      FramePanics B schema params args frame has_order part func k := by
  rw [aggregateAt, panics_bind, frameRange_panics, FramePanics]
  simp only [windowAggregate_panics hagg]

end Arguments

/-! ### A partition -/

section Partition
variable (B : Builtins) (schema : QuerySchema) (params : List Value) (func : WindowFunc)
  (args : List Expr) (frame : Option WindowFrame) (has_order : Bool) (part : List (List Value × Row))

/-- The rows of the partition before one take their values, and that one ends the process. -/
def FirstPanics {α : Type} (f : α → Result Value) (bad : α → Prop) (l : List α) : Prop :=
  ∃ before a after, l = before ++ a :: after ∧ (∀ x ∈ before, ∃ v, f x = .ok v) ∧ bad a

/-- A window function ends the process on a partition. -/
def WindowPanics : Prop :=
  let rows := part.map Prod.snd
  match func with
  | .rowNumber | .rank | .denseRank => False
  | .ntile => args = [] ∨ ∃ arg, args[0]? = some arg ∧ Panics (evalConst B arg params)
  | .lag | .lead =>
    (∃ e, args[1]? = some e ∧ Panics (evalConst B e params)) ∨
      ∃ offset, lagOffset B params args = .ok offset ∧
        FirstPanics (fun r : Row × ℕ => lagOf B schema params args rows func offset r.2 r.1)
          (fun r => LagPanics B schema params args rows func offset r.2 r.1) rows.zipIdx
  | .firstValue | .lastValue =>
    FirstPanics (edgeOf B schema params args frame has_order rows func)
      (EdgePanics B schema params args frame has_order rows func) (List.range part.length)
  | .sum | .count | .avg | .min | .max =>
    FirstPanics (aggregateAt B schema params args frame has_order rows func)
      (FramePanics B schema params args frame has_order rows func) (List.range part.length)

variable {B schema params func args frame has_order part}

lemma lagOffset_panics : Panics (lagOffset B params args) ↔
    ∃ e, args[1]? = some e ∧ Panics (evalConst B e params) := by
  unfold lagOffset
  cases args[1]? with
  | none => simp
  | some e =>
    simp only [Option.some.injEq, exists_eq_left', panics_bind, or_iff_left_iff_imp]
    rintro ⟨v, -, h⟩
    cases v <;> simp at h

lemma first_panics {α : Type} {f : α → Result Value} {bad : α → Prop} {l : List α}
    (h : ∀ a ∈ l, Panics (f a) ↔ bad a) : Panics (l.mapM f) ↔ FirstPanics f bad l := by
  rw [panics_mapM, FirstPanics]
  refine exists_congr fun before => exists_congr fun a => exists_congr fun after => ?_
  refine and_congr_right fun hl => and_congr_right fun _ => h a ?_
  rw [hl]
  simp

lemma windowPartition_panics :
    Panics (windowPartition B schema params func args frame has_order part) ↔
      WindowPanics B schema params func args frame has_order part := by
  have hlag : Panics (lagOffset B params args >>= fun offset =>
      (part.map Prod.snd).zipIdx.mapM fun r =>
        lagOf B schema params args (part.map Prod.snd) func offset r.2 r.1) ↔
      (∃ e, args[1]? = some e ∧ Panics (evalConst B e params)) ∨
      ∃ offset, lagOffset B params args = .ok offset ∧
        FirstPanics (fun r : Row × ℕ => lagOf B schema params args (part.map Prod.snd) func offset r.2 r.1)
          (fun r => LagPanics B schema params args (part.map Prod.snd) func offset r.2 r.1)
          (part.map Prod.snd).zipIdx := by
    rw [panics_bind, lagOffset_panics]
    refine or_congr_right (exists_congr fun offset => and_congr_right fun _ => ?_)
    exact first_panics fun r _ => lagOf_panics
  have hagg : func.isAggregate = true → (Panics ((List.range part.length).mapM
      (aggregateAt B schema params args frame has_order (part.map Prod.snd) func)) ↔
        FirstPanics (aggregateAt B schema params args frame has_order (part.map Prod.snd) func)
          (FramePanics B schema params args frame has_order (part.map Prod.snd) func)
          (List.range part.length)) :=
    fun h => first_panics fun k _ => aggregateAt_panics h
  cases func with
  | rowNumber => exact panics_ok _
  | rank => exact panics_ok _
  | denseRank => exact panics_ok _
  | ntile =>
    constructor
    · intro h
      rcases panics_bind.1 h with h | ⟨arg, harg, h⟩
      · rw [argAt, panics_okOr, List.getElem?_eq_none_iff] at h
        exact Or.inl (List.length_eq_zero_iff.1 (Nat.le_zero.1 h.1))
      · refine Or.inr ⟨arg, okOr_eq_ok.1 harg, ?_⟩
        rcases panics_bind.1 h with h | ⟨v, -, h⟩
        · exact h
        · cases v with
          | integer n =>
            dsimp only at h
            split_ifs at h
            · exact absurd h (panics_ok _).1
            · exact absurd h (panics_error _).1
          | _ => exact absurd h (panics_error _).1
    · rintro (rfl | ⟨arg, harg, h⟩)
      · exact ⟨_, rfl, trivial⟩
      · exact panics_bind.2 (Or.inr ⟨arg, okOr_eq_ok.2 harg, panics_bind.2 (Or.inl h)⟩)
  | lag => exact hlag
  | lead => exact hlag
  | firstValue => exact first_panics fun k _ => edgeOf_panics
  | lastValue => exact first_panics fun k _ => edgeOf_panics
  | sum => exact hagg rfl
  | count => exact hagg rfl
  | avg => exact hagg rfl
  | min => exact hagg rfl
  | max => exact hagg rfl

end Partition

/-! ### Evaluation -/

section Claims

/-- Evaluation of an expression, a call, a frame, a place of `LAG` or `LEAD` and a window function end
the process exactly where a number leaves its word or an argument is missing. -/
theorem scalar_panics (B : Builtins) (H : Host) (row : Scope) (params : List Value) (e : Expr)
    (hrow : row.Fits) (he : e.Formed) (name : String) (vals : List Value) (func : WindowFunc)
    (args : List Expr) (frame : Option WindowFrame) (has_order : Bool) (offset : ℤ) (k m : ℕ)
    (schema : QuerySchema) (part : List (List Value × Row)) :
    (¬ Panics (eval (withFunctions B H) row params e) ↔
      ∀ e', Reaches (withFunctions B H) row params e e' → ¬ e'.Bad B H row params) ∧
    (¬ Panics (callFunction B H name vals) ↔ ¬ BadCall B H name vals) ∧
    (¬ Panics (frameRange frame k m has_order) ↔ ¬ BadFrame (frameOr frame has_order) k) ∧
    (∀ s e, frameRange frame k m has_order = .ok (some (s, e)) → s ≤ e ∧ e < m) ∧
    (¬ Panics (lagTarget func offset k) ↔ InI64 (if func = .lag then k - offset else k + offset)) ∧
    (¬ Panics (windowPartition (withFunctions B H) schema params func args frame has_order part) ↔
      ¬ WindowPanics (withFunctions B H) schema params func args frame has_order part) := by
  refine ⟨?_, not_congr callFunction_panics, not_congr frameRange_panics, fun s e => frameRange_fits,
    not_iff_comm.1 lagTarget_panics.symm, not_congr windowPartition_panics⟩
  rw [eval_panics hrow he]
  simp only [not_exists, not_and]

/-- A machine that no call below asks for anything. -/
def idleHost : Host where
  text := .bits
  toInt _ := 0
  fixed _ _ := []
  roundTo f _ := f
  math _ f := f
  math2 _ f _ := f
  uppercase s := s
  lowercase s := s
  now_ms := 0
  random := 0
  realF32 _ := 0
  intF32 _ := 0
  scale _ := 0
  quantized _ _ := 0
  scaled x _ := x
  distance _ _ := ⟨0⟩

/-- `substr('hello', start, len)` -/
def helloFrom (start len : Int64) : Expr :=
  .node (.function "substr") [.literal (.text "hello"), .literal (.integer start), .literal (.integer len)]

lemma helloFrom_formed (start len : Int64) : (helloFrom start len).Formed :=
  ⟨trivial, trivial, trivial, trivial, trivial⟩

lemma fits_none : Scope.Fits none := fun schema values h => by cases h

/-- The end of a stretch of text, the width of a number in a format, the place of a row, the end of a
frame, and a function without its argument. -/
theorem scalar_overflows :
    Panics (eval (withFunctions noBuiltins idleHost) none [] (helloFrom (-1) Int64.maxValue)) ∧
      Panics (callFunction noBuiltins idleHost "printf" [.text "%18446744073709551616d", .integer 1]) ∧
      Panics (lagTarget .lag Int64.minValue.toInt 0) ∧
      Panics (frameRange (some ⟨.currentRow, .following (2 ^ 63 - 1)⟩) 1 2 true) ∧
      Panics (windowPartition (withFunctions noBuiltins idleHost) (.single "t" plainTable) [] .ntile []
        none false [([], [.integer 1])]) := by
  refine ⟨?_, ?_, ?_, ?_, ⟨_, rfl, trivial⟩⟩
  · have hfar : FarSubstr 5 (-1) (some Int64.maxValue.toInt) := Or.inr ⟨_, rfl, by decide⟩
    have hcall : BadCall noBuiltins idleHost "substr" [.text "hello", .integer (-1), .integer Int64.maxValue] :=
      Or.inl ⟨Or.inl (by decide +kernel), "hello", -1, some Int64.maxValue, rfl, hfar⟩
    refine (eval_panics fits_none (helloFrom_formed _ _)).2 ⟨_, .self _, Or.inr ⟨"substr", _, rfl, ?_, ?_, ?_, ?_, hcall⟩⟩
    · decide
    · decide
    · decide
    · rfl
  · have htext : "%18446744073709551616d".toList = '%' :: "18446744073709551616d".toList := by decide +kernel
    have hwidth : 2 ^ 64 ≤ specWidth "18446744073709551616d".toList := by decide +kernel
    have hspecs : Specs noBuiltins idleHost "%18446744073709551616d".toList [.integer 1]
        "18446744073709551616d".toList [.integer 1] := htext ▸ .here (by decide +kernel)
    refine callFunction_panics.2 (Or.inr (Or.inr ⟨Or.inl (by decide +kernel), _, _, _, _, _, rfl, ?_, rfl, hspecs,
      Or.inl hwidth⟩))
    exact fun h => by cases h
  · exact lagTarget_panics.2 (by decide)
  · exact frameRange_panics.2 (Or.inr (show ¬ InI64 _ by decide))

theorem scalar_panics_hello : Scope.Fits none ∧ (helloFrom 2 3).Formed ∧
    (¬ Panics (eval (withFunctions noBuiltins idleHost) none [] (helloFrom 2 3)) ↔
      ∀ e', Reaches (withFunctions noBuiltins idleHost) none [] (helloFrom 2 3) e' →
        ¬ e'.Bad noBuiltins idleHost none []) :=
  ⟨fits_none, helloFrom_formed 2 3, (scalar_panics noBuiltins idleHost none [] (helloFrom 2 3) fits_none
    (helloFrom_formed 2 3) "substr" [] .lag [] none false 0 0 0 (.single "t" plainTable) []).1⟩

end Claims

end Arkeion.Sql
