import Arkeion.Sql.WindowRank

/-!
Window functions against their definitions: the row at a place, the rows of a frame, and what
`compute_aggregate` makes of them.
-/

namespace Arkeion.Sql

open Arkeion.Lib Catalog

/-! ### Frames -/

section Frames

/-- The frame reaches back to the row `i`, seen from the row `k`. -/
def FromStart (k i : ℕ) : FrameBound → Prop
  | .unboundedPreceding => True
  | .preceding n => k ≤ i + n
  | .currentRow => k ≤ i
  | .following n => k + n ≤ i
  | .unboundedFollowing => False

def ToEnd (k i : ℕ) : FrameBound → Prop
  | .unboundedPreceding => False
  | .preceding n => i + n ≤ k
  | .currentRow => i ≤ k
  | .following n => i ≤ k + n
  | .unboundedFollowing => True

instance (k i : ℕ) (b : FrameBound) : Decidable (FromStart k i b) := by
  cases b <;> unfold FromStart <;> infer_instance

instance (k i : ℕ) (b : FrameBound) : Decidable (ToEnd k i b) := by
  cases b <;> unfold ToEnd <;> infer_instance

def InFrame (f : WindowFrame) (k i : ℕ) : Prop := FromStart k i f.start ∧ ToEnd k i f.end_

instance (f : WindowFrame) (k i : ℕ) : Decidable (InFrame f k i) := inferInstanceAs (Decidable (_ ∧ _))

/-- The rows of the declared frame of the row `k`. -/
def frameRows (f : WindowFrame) (k : ℕ) (rows : List Row) : List Row :=
  (rows.zipIdx.filter fun r => InFrame f k r.2).map Prod.fst

/-- The overflow of a bound. -/
def boundOverflow (k : ℕ) : FrameBound → Option Error
  | .preceding n => if n ≤ k + 2 ^ 63 then none else some (.panic "attempt to subtract with overflow")
  | .following n => if k + n < 2 ^ 63 then none else some (.panic "attempt to add with overflow")
  | _ => none

def frameOverflow (f : WindowFrame) (k : ℕ) : Option Error :=
  (boundOverflow k f.start).or (boundOverflow k f.end_)

variable {k m i : ℕ} {b : FrameBound} {f : WindowFrame}

lemma isize_ok {n : ℤ} {msg : String} (h : -2 ^ 63 ≤ n ∧ n < 2 ^ 63) : isize n msg = .ok n := by
  rw [isize, require_pos h]
  rfl

lemma isize_error {n : ℤ} {msg : String} (h : ¬ (-2 ^ 63 ≤ n ∧ n < 2 ^ 63)) :
    isize n msg = .error (.panic msg) := by
  rw [isize, require_eq_error.2 ⟨h, rfl⟩]
  rfl

/-- A bound that does not overflow is the first row of the frame, or the last. -/
lemma boundAt_ok (hk : k < m) (hm : m < 2 ^ 63) (h : boundOverflow k b = none) :
    (∃ x, boundAt k m true b = .ok x ∧ ∀ i < m, FromStart k i b ↔ x ≤ i) ∧
      ∃ x, boundAt k m false b = .ok x ∧ ∀ i < m, ToEnd k i b ↔ i ≤ x := by
  cases b with
  | unboundedPreceding =>
    refine ⟨⟨0, rfl, fun i _ => ?_⟩, ⟨-1, rfl, fun i _ => ?_⟩⟩
    · simp [FromStart]
    · simp only [ToEnd, false_iff]
      omega
  | preceding n =>
    rw [boundOverflow, ite_eq_left_iff] at h
    have hfits : isize (k - n) "attempt to subtract with overflow" = .ok (k - n : ℤ) := by
      refine isize_ok ?_
      have hn : n ≤ k + 2 ^ 63 := by
        by_contra hn
        cases h hn
      omega
    refine ⟨⟨k - n, hfits, fun i _ => ?_⟩, ⟨k - n, hfits, fun i _ => ?_⟩⟩
    · rw [FromStart]
      omega
    · rw [ToEnd]
      omega
  | currentRow =>
    refine ⟨⟨k, rfl, fun i _ => ?_⟩, ⟨k, rfl, fun i _ => ?_⟩⟩
    · rw [FromStart]
      omega
    · rw [ToEnd]
      omega
  | following n =>
    rw [boundOverflow, ite_eq_left_iff] at h
    have hfits : isize (k + n) "attempt to add with overflow" = .ok (k + n : ℤ) := by
      refine isize_ok ?_
      have hn : k + n < 2 ^ 63 := by
        by_contra hn
        cases h hn
      omega
    refine ⟨⟨k + n, hfits, fun i _ => ?_⟩, ⟨k + n, hfits, fun i _ => ?_⟩⟩
    · rw [FromStart]
      omega
    · rw [ToEnd]
      omega
  | unboundedFollowing =>
    refine ⟨⟨m, rfl, fun i _ => ?_⟩, ⟨m - 1, rfl, fun i _ => ?_⟩⟩
    · simp only [FromStart, false_iff]
      omega
    · simp only [ToEnd, true_iff]
      omega

lemma boundAt_overflow {is_start : Bool} {e : Error} (hm : k < 2 ^ 63)
    (h : boundOverflow k b = some e) : boundAt k m is_start b = .error e := by
  cases b with
  | preceding n =>
    rw [boundOverflow] at h
    split_ifs at h with hn
    cases h
    exact isize_error (by omega)
  | following n =>
    rw [boundOverflow] at h
    split_ifs at h with hn
    cases h
    exact isize_error (by omega)
  | _ => cases h

/-- The rows whose places are between two, the places counted from `n` on. -/
lemma filter_places {α : Type} (l : List α) (n s e : ℕ) :
    ((l.zipIdx n).filter fun r => s ≤ r.2 ∧ r.2 ≤ e).map Prod.fst
      = (l.drop (s - n)).take (e + 1 - max s n) := by
  induction l generalizing n with
  | nil => simp
  | cons a l ih =>
    rw [List.zipIdx_cons]
    rcases Nat.lt_or_ge n s with hlt | hge
    · have hskip : decide (s ≤ (a, n).2 ∧ (a, n).2 ≤ e) = false :=
        decide_eq_false fun h => absurd h.1 (Nat.not_le.2 hlt)
      rw [List.filter_cons_of_neg (by rw [hskip]; simp), ih]
      have hdrop : s - n = (s - (n + 1)) + 1 := by omega
      rw [hdrop, List.drop_succ_cons, Nat.max_eq_left hlt.le, Nat.max_eq_left (by omega)]
    · rw [Nat.sub_eq_zero_of_le hge, List.drop_zero, Nat.max_eq_right hge]
      rcases Nat.lt_or_ge e n with hend | hend
      · have hskip : decide (s ≤ (a, n).2 ∧ (a, n).2 ≤ e) = false :=
          decide_eq_false fun h => absurd h.2 (Nat.not_le.2 hend)
        rw [List.filter_cons_of_neg (by rw [hskip]; simp), ih, Nat.max_eq_right (by omega),
          Nat.sub_eq_zero_of_le (by omega : e + 1 ≤ n + 1), Nat.sub_eq_zero_of_le (by omega : e + 1 ≤ n),
          List.take_zero, List.take_zero]
      · have hkeep : decide (s ≤ (a, n).2 ∧ (a, n).2 ≤ e) = true := decide_eq_true ⟨hge, hend⟩
        have htake : e + 1 - n = (e + 1 - (n + 1)) + 1 := by omega
        rw [List.filter_cons, if_pos hkeep, List.map_cons, ih, Nat.max_eq_right (by omega),
          Nat.sub_eq_zero_of_le (by omega : s ≤ n + 1), List.drop_zero, htake, List.take_succ_cons]

variable {frame : Option WindowFrame} {has_order : Bool} {rows : List Row}

/-- The frame of the engine is the declared one. -/
lemma frameRange_ok (hk : k < rows.length) (hm : rows.length < 2 ^ 63)
    (h : frameOverflow (frameOr frame has_order) k = none) :
    ∃ range, frameRange frame k rows.length has_order = .ok range ∧
      framed rows range = frameRows (frameOr frame has_order) k rows ∧
      ∀ s e, range = some (s, e) → s ≤ e ∧ e < rows.length := by
  obtain ⟨hstart, hend⟩ := Option.or_eq_none_iff.1 h
  obtain ⟨x, hx, hfrom⟩ := (boundAt_ok hk hm hstart).1
  obtain ⟨y, hy, hto⟩ := (boundAt_ok hk hm hend).2
  set s := max x 0 with hs
  set e := min y (rows.length - 1) with he
  have hin : ∀ i < rows.length, InFrame (frameOr frame has_order) k i ↔ s ≤ i ∧ i ≤ e := by
    intro i hi
    rw [InFrame, hfrom i hi, hto i hi]
    omega
  have hrows : frameRows (frameOr frame has_order) k rows
      = (rows.zipIdx.filter fun r => s ≤ r.2 ∧ r.2 ≤ e).map Prod.fst := by
    refine congrArg (List.map Prod.fst) (List.filter_congr fun r hr => decide_eq_decide.2 (hin r.2 ?_))
    have hlt := List.snd_lt_add_of_mem_zipIdx hr
    omega
  rw [frameRange, hx, ok_bind, hy, ok_bind]
  refine ⟨if s ≤ e then some (s.toNat, e.toNat) else none, rfl, ?_, ?_⟩
  · rw [hrows]
    split_ifs with hse
    · have hplaces := filter_places rows 0 s.toNat e.toNat
      rw [Nat.sub_zero, Nat.max_eq_left (Nat.zero_le _)] at hplaces
      rw [framed, ← hplaces]
      refine congrArg (List.map Prod.fst) (List.filter_congr fun r _ => decide_eq_decide.2 ?_)
      omega
    · rw [framed, List.filter_eq_nil_iff.2, List.map_nil]
      intro r _ hr
      have hr := of_decide_eq_true hr
      omega
  · intro a b hab
    split_ifs at hab with hse
    cases hab
    omega

lemma frameRange_overflow {m : ℕ} {e : Error} (hk : k < 2 ^ 63) (hm : m < 2 ^ 63) (hkm : k < m)
    (h : frameOverflow (frameOr frame has_order) k = some e) :
    frameRange frame k m has_order = .error e := by
  rw [frameRange]
  rcases Option.or_eq_some_iff.1 h with hstart | ⟨hstart, hend⟩
  · rw [boundAt_overflow hk hstart]
    rfl
  · obtain ⟨x, hx, -⟩ := (boundAt_ok hkm hm hstart).1
    rw [hx, ok_bind, boundAt_overflow hk hend]
    rfl

/-- The first and the last row of a stretch of rows. -/
lemma head_framed {s e : ℕ} (hse : s ≤ e) (he : e < rows.length) :
    (framed rows (some (s, e))).head? = rows[s]? ∧ (framed rows (some (s, e))).getLast? = rows[e]? := by
  have hlen : (framed rows (some (s, e))).length = e + 1 - s := by
    rw [framed, List.length_take, List.length_drop]
    omega
  constructor
  · rw [List.head?_eq_getElem?, framed, List.getElem?_take_of_lt (by omega), List.getElem?_drop,
      Nat.add_zero]
  · rw [List.getLast?_eq_getElem?, hlen, framed, List.getElem?_take_of_lt (by omega),
      List.getElem?_drop]
    congr 1
    omega

end Frames

/-! ### Values of an argument -/

section Values

/-- The values that are not NULL, up to the first that fails. -/
def valuesOf : List (Result Value) → List Value
  | [] => []
  | .error _ :: _ => []
  | .ok v :: rest => if v = .null then valuesOf rest else v :: valuesOf rest

/-- The first failure. -/
def failureOf : List (Result Value) → Option Error
  | [] => none
  | .error e :: _ => some e
  | .ok _ :: rest => failureOf rest

def failWith : Option Error → Result Unit
  | none => .ok ()
  | some e => .error e

variable {B : Builtins} {schema : QuerySchema} {params : List Value} {arg : Expr} {rest : List Expr}

/-- The argument on each row. -/
def evalsOf (B : Builtins) (schema : QuerySchema) (params : List Value) (arg : Expr)
    (rows : List Row) : List (Result Value) := rows.map (evalOn B schema params arg)

/-- Step by step, the engine folds the values up to the first failure, and then fails. -/
lemma foldArg_eq {α : Type} {step : α → Value → Result α} (acc : α) (rows : List Row) :
    foldArg B schema params (arg :: rest) step acc rows
      = (valuesOf (evalsOf B schema params arg rows)).foldlM step acc >>= fun a =>
        failWith (failureOf (evalsOf B schema params arg rows)) >>= fun _ => .ok a := by
  induction rows generalizing acc with
  | nil => rfl
  | cons row rows ih =>
    have harg : argAt (arg :: rest) 0 = .ok arg := rfl
    rw [foldArg, harg, ok_bind, evalsOf, List.map_cons]
    cases heval : evalOn B schema params arg row with
    | error e => rfl
    | ok v =>
      rw [ok_bind, valuesOf, failureOf]
      split_ifs with hnull
      · exact ih acc
      · rw [List.foldlM_cons]
        cases hstep : step acc v with
        | error e => rfl
        | ok a => exact ih a

/-- All at once, it fails first. -/
lemma argValues_eq (rows : List Row) : argValues B schema rows params arg
    = failWith (failureOf (evalsOf B schema params arg rows)) >>= fun _ =>
      .ok (valuesOf (evalsOf B schema params arg rows)) := by
  induction rows with
  | nil => rfl
  | cons row rows ih =>
    rw [argValues] at ih ⊢
    rw [List.mapM_cons, evalsOf, List.map_cons]
    change (evalOn B schema params arg row >>= _) >>= _ = _
    cases heval : evalOn B schema params arg row with
    | error e => rfl
    | ok v =>
      rw [ok_bind, valuesOf, failureOf]
      change _ = failWith (failureOf (evalsOf B schema params arg rows)) >>= fun _ =>
        .ok (if v = .null then valuesOf (evalsOf B schema params arg rows)
          else v :: valuesOf (evalsOf B schema params arg rows))
      cases hvs : rows.mapM fun row => eval B (some (schema, row)) params arg with
      | error e =>
        rw [hvs, error_bind] at ih
        cases hf : failureOf (evalsOf B schema params arg rows) with
        | none =>
          rw [hf] at ih
          cases ih
        | some e' =>
          rw [hf] at ih
          cases ih
          rfl
      | ok vs =>
        rw [hvs, ok_bind] at ih
        cases hf : failureOf (evalsOf B schema params arg rows) with
        | none =>
          rw [hf] at ih
          have hvals := Except.ok.inj ih
          rw [← hvals]
          change Except.ok (List.filter (fun x => x != .null) (v :: vs)) = Except.ok _
          rw [List.filter_cons]
          by_cases hnull : v = .null
          · simp [hnull]
          · simp [hnull]
        | some e =>
          rw [hf] at ih
          cases ih

end Values

/-! ### Aggregates of values -/

section Aggregates
variable (B : Builtins)

def errorOf {α : Type} : Result α → Option Error
  | .ok _ => none
  | .error e => some e

/-- What the engine answers of the values of a frame. -/
def windowFold (func : WindowFunc) (vs : List Value) : Result Value :=
  match func with
  | .sum => do
    let s ← vs.foldlM (windowSumStep B) ⟨true, 0, ⟨0⟩, 0⟩
    .ok (if s.cnt = 0 then .null else if s.all_int then .integer s.isum else .real s.fsum)
  | .avg => do
    let s ← vs.foldlM (windowSumStep B) ⟨true, 0, ⟨0⟩, 0⟩
    .ok (if s.cnt = 0 then .null
      else .real (B.realOp .div s.fsum (B.ofInt (Int64.ofNat s.cnt))))
  | .min => do
    let best ← vs.foldlM (bestStep B .lt) none
    .ok (best.getD .null)
  | .max => do
    let best ← vs.foldlM (bestStep B .gt) none
    .ok (best.getD .null)
  | _ => .ok (.integer (Int64.ofNat vs.length))

/-- The message of a window for the first value it does not take. -/
def refusedBy (func : WindowFunc) (vs : List Value) : Option Error :=
  match func with
  | .sum | .avg => (vs.find? fun v => kindOf v ≠ some .number).map fun v =>
    .sql s!"SUM/AVG requieren números, no {v.typeName}"
  | .min => errorOf (vs.foldlM (bestStep B .lt) none)
  | .max => errorOf (vs.foldlM (bestStep B .gt) none)
  | _ => none

/-- The integers before the first real. -/
def leading : List Value → List Int64
  | .integer n :: vs => n :: leading vs
  | _ => []

/-- The values from the first real on. -/
def behind : List Value → List Value
  | .integer _ :: vs => behind vs
  | vs => vs

def sumOf (ns : List Int64) : ℤ := (ns.map Int64.toInt).sum

/-- The sums so far stay in the range of an integer, from `s` on. -/
def Fits (s : ℤ) (ns : List Int64) : Prop :=
  ∀ n ≤ ns.length, -2 ^ 63 ≤ s + sumOf (ns.take n) ∧ s + sumOf (ns.take n) < 2 ^ 63

def addReal (acc : F64) : Value → F64
  | .integer n => B.realOp .add acc (B.ofInt n)
  | .real f => B.realOp .add acc f
  | _ => acc

/-- The integers before the first real can be summed up in their order, and the reals come to the
same whether these are added one by one or their sum. -/
structure SumExact (vs : List Value) : Prop where
  fits : Fits 0 (leading vs)
  reals : behind vs ≠ [] → vs.foldl (addReal B) ⟨0⟩
    = (behind vs).foldl (addReal B) (B.ofInt (Int64.ofInt (sumOf (leading vs))))

/-- The aggregate of a window function. -/
def aggOf : WindowFunc → AggFunc
  | .sum => .sum
  | .avg => .avg
  | .min => .min
  | .max => .max
  | _ => .count

variable {B} {vs : List Value}

@[simp] lemma leading_integer (n : Int64) : leading (.integer n :: vs) = n :: leading vs := rfl
@[simp] lemma leading_real (f : F64) : leading (.real f :: vs) = [] := rfl
@[simp] lemma behind_integer (n : Int64) : behind (.integer n :: vs) = behind vs := rfl
@[simp] lemma behind_real (f : F64) : behind (.real f :: vs) = .real f :: vs := rfl
@[simp] lemma sumOf_nil : sumOf [] = 0 := rfl

@[simp] lemma sumOf_cons (n : Int64) (ns : List Int64) : sumOf (n :: ns) = n.toInt + sumOf ns :=
  List.sum_cons

lemma number_cases {v : Value} (h : kindOf v = some .number) :
    (∃ n, v = .integer n) ∨ ∃ f, v = .real f := by
  cases v with
  | integer n => exact Or.inl ⟨n, rfl⟩
  | real f => exact Or.inr ⟨f, rfl⟩
  | _ => cases h

/-- The sums of the window, on numbers. -/
lemma windowSum_numbers (h : ∀ v ∈ vs, kindOf v = some .number) (acc : WindowSum) :
    ∃ isum, vs.foldlM (windowSumStep B) acc = .ok ⟨acc.all_int && (behind vs).isEmpty, isum,
        vs.foldl (addReal B) acc.fsum, acc.cnt + vs.length⟩ ∧
      (behind vs = [] → isum = acc.isum + Int64.ofInt (sumOf (leading vs))) := by
  induction vs generalizing acc with
  | nil =>
    refine ⟨acc.isum, ?_, fun _ => ?_⟩
    · rw [behind, List.isEmpty_nil, Bool.and_true]
      · rfl
      · rintro n vs ⟨⟩
    · exact (Int64.add_zero _).symm
  | cons v vs ih =>
    rw [List.foldlM_cons, List.foldl_cons]
    rcases number_cases (h v List.mem_cons_self) with ⟨n, rfl⟩ | ⟨f, rfl⟩
    · obtain ⟨isum, hfold, hsum⟩ := ih (fun v hv => h v (List.mem_cons_of_mem _ hv))
        ⟨acc.all_int, acc.isum + n, B.realOp .add acc.fsum (B.ofInt n), acc.cnt + 1⟩
      refine ⟨isum, ?_, fun hbehind => ?_⟩
      · rw [windowSumStep, ok_bind, hfold, List.length_cons, behind_integer, addReal]
        simp only [Nat.add_assoc, Nat.add_comm 1]
      · rw [hsum hbehind, leading_integer, sumOf_cons, Int64.ofInt_add, Int64.ofInt_toInt,
          Int64.add_assoc]
    · obtain ⟨isum, hfold, -⟩ := ih (fun v hv => h v (List.mem_cons_of_mem _ hv))
        ⟨false, acc.isum, B.realOp .add acc.fsum f, acc.cnt + 1⟩
      refine ⟨isum, ?_, fun hbehind => by cases hbehind⟩
      rw [windowSumStep, ok_bind, hfold, List.length_cons, behind_real, addReal, List.isEmpty_cons,
        Bool.false_and, Bool.and_false]
      simp only [Nat.add_assoc, Nat.add_comm 1]

lemma fits_cons {s : ℤ} {n : Int64} {ns : List Int64} :
    Fits s (n :: ns) ↔ (-2 ^ 63 ≤ s ∧ s < 2 ^ 63) ∧ Fits (s + n.toInt) ns := by
  constructor
  · intro h
    refine ⟨by simpa using h 0 (Nat.zero_le _), fun j hj => ?_⟩
    have hsucc := h (j + 1) (Nat.succ_le_succ hj)
    rwa [List.take_succ_cons, sumOf_cons, ← Int.add_assoc] at hsucc
  · rintro ⟨hs, h⟩ j hj
    cases j with
    | zero => simpa using hs
    | succ j =>
      rw [List.take_succ_cons, sumOf_cons, ← Int.add_assoc]
      exact h j (Nat.le_of_succ_le_succ hj)

lemma fits_nil {s : ℤ} (hs : -2 ^ 63 ≤ s ∧ s < 2 ^ 63) : Fits s [] := fun n _ => by
  simpa using hs

lemma toInt_range (n : Int64) : -2 ^ 63 ≤ n.toInt ∧ n.toInt < 2 ^ 63 :=
  ⟨Int64.le_toInt n, Int64.toInt_lt n⟩

/-- The sum of `compute_aggregate`, on numbers, from the first real on. -/
lemma sum_reals (h : ∀ v ∈ vs, kindOf v = some .number) (x : F64) :
    vs.foldlM (sumStep B) (.real x) = .ok (.real (vs.foldl (addReal B) x)) := by
  induction vs generalizing x with
  | nil => rfl
  | cons v vs ih =>
    have hrest := ih fun v hv => h v (List.mem_cons_of_mem _ hv)
    rw [List.foldlM_cons, List.foldl_cons]
    rcases number_cases (h v List.mem_cons_self) with ⟨n, rfl⟩ | ⟨f, rfl⟩
    · exact hrest _
    · exact hrest _

lemma sumStep_integer {s n : Int64}
    (h : -2 ^ 63 ≤ s.toInt + n.toInt ∧ s.toInt + n.toInt < 2 ^ 63) :
    sumStep B (.integer s) (.integer n) = .ok (.integer (s + n)) ∧
      (s + n).toInt = s.toInt + n.toInt := by
  refine ⟨by rw [sumStep, if_pos h], ?_⟩
  rw [Int64.toInt_add, Int.bmod_eq_of_le] <;> omega

/-- And before, as long as the sums fit. -/
lemma sum_fits (h : ∀ v ∈ vs, kindOf v = some .number) (s : Int64)
    (hfits : Fits s.toInt (leading vs)) : vs.foldlM (sumStep B) (.integer s)
      = .ok (if behind vs = [] then .integer (Int64.ofInt (s.toInt + sumOf (leading vs)))
        else .real ((behind vs).foldl (addReal B)
          (B.ofInt (Int64.ofInt (s.toInt + sumOf (leading vs)))))) := by
  induction vs generalizing s with
  | nil =>
    rw [behind, if_pos rfl]
    · simp [leading]
      rfl
    · rintro n vs ⟨⟩
  | cons v vs ih =>
    have hrest := fun v hv => h v (List.mem_cons_of_mem _ hv)
    rw [List.foldlM_cons]
    rcases number_cases (h v List.mem_cons_self) with ⟨n, rfl⟩ | ⟨f, rfl⟩
    · rw [leading_integer] at hfits ⊢
      obtain ⟨-, hfits⟩ := fits_cons.1 hfits
      have hin := hfits 0 (Nat.zero_le _)
      rw [List.take_zero, sumOf_nil, Int.add_zero] at hin
      obtain ⟨hstep, hsum⟩ := sumStep_integer (B := B) hin
      rw [hstep, ok_bind, ih hrest _ (by rwa [hsum]), hsum, behind_integer, sumOf_cons, Int.add_assoc]
    · rw [behind_real, if_neg (by simp), leading_real, sumOf_nil, Int.add_zero, Int64.ofInt_toInt,
        List.foldl_cons]
      exact sum_reals hrest _

lemma sum_overflows (h : ∀ v ∈ vs, kindOf v = some .number) (s : Int64)
    (hfits : ¬ Fits s.toInt (leading vs)) :
    vs.foldlM (sumStep B) (.integer s) = .error (.sql "desbordamiento de entero en SUM") := by
  induction vs generalizing s with
  | nil => exact absurd (fits_nil (toInt_range s)) hfits
  | cons v vs ih =>
    have hrest := fun v hv => h v (List.mem_cons_of_mem _ hv)
    rw [List.foldlM_cons]
    rcases number_cases (h v List.mem_cons_self) with ⟨n, rfl⟩ | ⟨f, rfl⟩
    · by_cases hin : -2 ^ 63 ≤ s.toInt + n.toInt ∧ s.toInt + n.toInt < 2 ^ 63
      · obtain ⟨hstep, hsum⟩ := sumStep_integer (B := B) hin
        rw [hstep, ok_bind]
        refine ih hrest _ fun hfits' => hfits ?_
        rw [hsum] at hfits'
        exact fits_cons.2 ⟨toInt_range s, hfits'⟩
      · rw [sumStep, if_neg hin]
        rfl
    · exact absurd (fits_nil (toInt_range s)) hfits

lemma avg_numbers (h : ∀ v ∈ vs, kindOf v = some .number) (x : F64) :
    vs.foldlM (avgStep B) x = .ok (vs.foldl (addReal B) x) := by
  induction vs generalizing x with
  | nil => rfl
  | cons v vs ih =>
    have hrest := ih fun v hv => h v (List.mem_cons_of_mem _ hv)
    rw [List.foldlM_cons, List.foldl_cons]
    rcases number_cases (h v List.mem_cons_self) with ⟨n, rfl⟩ | ⟨f, rfl⟩
    · exact hrest _
    · exact hrest _

/-! ### The messages -/

lemma find_number : (vs.find? fun v => kindOf v ≠ some .number) = none
    ↔ ∀ v ∈ vs, kindOf v = some .number := by
  rw [List.find?_eq_none]
  simp

lemma windowSumStep_error {acc : WindowSum} {v : Value} (h : kindOf v ≠ some .number) :
    windowSumStep B acc v = .error (.sql s!"SUM/AVG requieren números, no {v.typeName}") := by
  cases v <;> first | rfl | exact absurd rfl h

lemma windowSumStep_number {acc : WindowSum} {v : Value} (h : kindOf v = some .number) :
    ∃ acc', windowSumStep B acc v = .ok acc' := by
  rcases number_cases h with ⟨n, rfl⟩ | ⟨f, rfl⟩
  · exact ⟨_, rfl⟩
  · exact ⟨_, rfl⟩

/-- The sums fail at the first value that is not a number. -/
lemma windowSum_error (acc : WindowSum) : errorOf (vs.foldlM (windowSumStep B) acc)
    = (vs.find? fun v => kindOf v ≠ some .number).map fun v =>
      .sql s!"SUM/AVG requieren números, no {v.typeName}" := by
  induction vs generalizing acc with
  | nil => rfl
  | cons v vs ih =>
    rw [List.foldlM_cons]
    by_cases h : kindOf v = some .number
    · obtain ⟨acc', hstep⟩ : ∃ acc', windowSumStep B acc v = .ok acc' := windowSumStep_number h
      rw [hstep, ok_bind, ih, List.find?_cons_of_neg (by simp [h])]
    · rw [windowSumStep_error h, List.find?_cons_of_pos (by simp [h])]
      rfl

lemma errorOf_bind {α β : Type} {x : Result α} (f : α → β) :
    errorOf (x >>= fun a => .ok (f a)) = errorOf x := by
  cases x <;> rfl

/-- A window fails on the values it refuses. -/
lemma windowFold_error (func : WindowFunc) : errorOf (windowFold B func vs) = refusedBy B func vs := by
  cases func with
  | sum => exact (errorOf_bind _).trans (windowSum_error _)
  | avg => exact (errorOf_bind _).trans (windowSum_error _)
  | min => exact errorOf_bind _
  | max => exact errorOf_bind _
  | _ => rfl

lemma errorOf_eq_some {α : Type} {x : Result α} {e : Error} : errorOf x = some e ↔ x = .error e := by
  cases x <;> simp [errorOf]

/-- A fold fails as one of its steps does. -/
lemma foldlM_error {α β : Type} {step : α → β → Result α} {P : Error → Prop}
    (hstep : ∀ a b e, step a b = .error e → P e) {bs : List β} {a : α} {e : Error}
    (h : bs.foldlM step a = .error e) : P e := by
  induction bs generalizing a with
  | nil => cases h
  | cons b bs ih =>
    rw [List.foldlM_cons] at h
    rcases bind_eq_error.1 h with h | ⟨a', -, h⟩
    · exact hstep _ _ _ h
    · exact ih h

/-- The messages of a window are not those of `compute_aggregate`. -/
lemma message_ne {s t u : String} (h : s.toList.take 4 ≠ t.toList.take 4)
    (hs : 4 ≤ s.toList.length) (ht : 4 ≤ t.toList.length) {v : String} : s ++ u ≠ t ++ v := by
  intro heq
  have hlist := congrArg (fun x => x.toList.take 4) heq
  simp only [String.toList_append, List.take_append_of_le_length hs,
    List.take_append_of_le_length ht] at hlist
  exact h hlist

lemma sumStep_error {acc v : Value} {e : Error} (h : sumStep B acc v = .error e) :
    e = .sql "desbordamiento de entero en SUM" ∨
      ∃ t : String, e = .sql s!"SUM requiere valores numéricos, no {t}" := by
  unfold sumStep at h
  split at h
  · split_ifs at h
    cases h
    exact Or.inl rfl
  · cases h
  · cases h
  · cases h
  · cases h
    exact Or.inr ⟨_, rfl⟩

lemma avgStep_error {acc : F64} {v : Value} {e : Error} (h : avgStep B acc v = .error e) :
    ∃ t : String, e = .sql s!"AVG requiere valores numéricos, no {t}" := by
  unfold avgStep at h
  split at h
  · cases h
  · cases h
  · cases h
    exact ⟨_, rfl⟩

variable {params : List Value}

lemma sum_message {sep : Option Expr} {t : String} : aggregateOf B params .sum sep vs
    ≠ .error (.sql s!"SUM/AVG requieren números, no {t}") := by
  intro h
  rcases bind_eq_error.1 h with h | ⟨s, -, h⟩
  · rcases foldlM_error (fun _ _ _ => sumStep_error) h with heq | ⟨u, heq⟩
    · have hne : s!"SUM/AVG requieren números, no {t}" ≠ "desbordamiento de entero en SUM" ++ "" :=
        message_ne (by decide) (by decide) (by decide)
      exact hne (Error.sql.inj heq)
    · exact message_ne (by decide) (by decide) (by decide) (Error.sql.inj heq)
  · cases h

lemma avg_message {sep : Option Expr} {t : String} : aggregateOf B params .avg sep vs
    ≠ .error (.sql s!"SUM/AVG requieren números, no {t}") := by
  intro h
  rcases bind_eq_error.1 h with h | ⟨s, -, h⟩
  · obtain ⟨u, heq⟩ := foldlM_error (fun _ _ _ => avgStep_error) h
    exact message_ne (by decide) (by decide) (by decide) (Error.sql.inj heq)
  · cases h

/-! ### Where both answer the same -/

lemma refusedBy_numbers (h : ∀ v ∈ vs, kindOf v = some .number) :
    refusedBy B .sum vs = none ∧ refusedBy B .avg vs = none := by
  have hfind := find_number.2 h
  unfold refusedBy
  rw [hfind]
  exact ⟨rfl, rfl⟩

lemma refusedBy_refused (h : ¬ ∀ v ∈ vs, kindOf v = some .number) :
    ∃ t : String, refusedBy B .sum vs = some (.sql s!"SUM/AVG requieren números, no {t}") ∧
      refusedBy B .avg vs = some (.sql s!"SUM/AVG requieren números, no {t}") := by
  obtain ⟨v, hv⟩ := Option.ne_none_iff_exists'.1 fun hnone => h (find_number.1 hnone)
  unfold refusedBy
  rw [hv]
  exact ⟨_, rfl, rfl⟩

lemma avg_exact {sep : Option Expr} : windowFold B .avg vs = aggregateOf B params .avg sep vs
    ↔ refusedBy B .avg vs = none := by
  by_cases hnum : ∀ v ∈ vs, kindOf v = some .number
  · obtain ⟨isum, hfold, -⟩ := windowSum_numbers (B := B) hnum ⟨true, 0, ⟨0⟩, 0⟩
    refine iff_of_true ?_ (refusedBy_numbers hnum).2
    rw [windowFold, hfold, aggregateOf, avg_numbers hnum]
    cases vs with
    | nil => rfl
    | cons v vs =>
      rw [ok_bind, ok_bind, List.length_cons, if_neg (by simp), Nat.zero_add]
      rfl
  · obtain ⟨t, -, hrefused⟩ := refusedBy_refused (B := B) hnum
    refine iff_of_false (fun heq => ?_) (by rw [hrefused]; simp)
    rw [errorOf_eq_some.1 ((windowFold_error .avg).trans hrefused)] at heq
    exact avg_message heq.symm

lemma sum_exact {sep : Option Expr} : windowFold B .sum vs = aggregateOf B params .sum sep vs
    ↔ refusedBy B .sum vs = none ∧ SumExact B vs := by
  by_cases hnum : ∀ v ∈ vs, kindOf v = some .number
  · obtain ⟨isum, hfold, hisum⟩ := windowSum_numbers (B := B) hnum ⟨true, 0, ⟨0⟩, 0⟩
    rw [windowFold, hfold, ok_bind, aggregateOf, Nat.zero_add, Bool.true_and]
    refine Iff.trans ?_ (and_iff_right (refusedBy_numbers hnum).1).symm
    by_cases hfits : Fits 0 (leading vs)
    · have hsum := sum_fits (B := B) hnum 0 hfits
      rw [Int64.toInt_zero, Int.zero_add] at hsum
      rw [hsum, ok_bind]
      cases hbehind : behind vs with
      | nil =>
        refine iff_of_true ?_ ⟨hfits, fun hne => absurd hbehind hne⟩
        rw [hisum hbehind]
        cases vs with
        | nil => rfl
        | cons v vs => simp
      | cons w ws =>
        have hne : vs ≠ [] := by
          rintro rfl
          cases hbehind
        have hlen : vs.length ≠ 0 := fun h => hne (List.length_eq_zero_iff.1 h)
        rw [if_neg hlen, List.isEmpty_cons, if_neg Bool.false_ne_true,
          List.isEmpty_eq_false_iff.2 hne, if_neg Bool.false_ne_true, if_neg (by simp), Except.ok.injEq,
          Value.real.injEq]
        refine ⟨fun heq => ⟨hfits, fun _ => by rw [hbehind]; exact heq⟩, fun h => ?_⟩
        have hreals := h.reals (by rw [hbehind]; simp)
        rwa [hbehind] at hreals
    · rw [sum_overflows hnum 0 hfits, error_bind]
      exact iff_of_false (by simp) fun h => hfits h.fits
  · obtain ⟨t, hrefused, -⟩ := refusedBy_refused (B := B) hnum
    refine iff_of_false (fun heq => ?_) fun h => by rw [hrefused] at h; cases h.1
    rw [errorOf_eq_some.1 ((windowFold_error .sum).trans hrefused)] at heq
    exact sum_message heq.symm

end Aggregates

/-! ### Definitions of the functions -/

def WindowFunc.isAggregate : WindowFunc → Bool
  | .sum | .count | .avg | .min | .max => true
  | _ => false

section Definition
variable (B : Builtins) (schema : QuerySchema) (params : List Value) (func : WindowFunc)
  (args : List Expr)

/-- The aggregate of a window agrees with `compute_aggregate` on these rows. They agree in every
value; if the argument fails on a row, no value before it is refused; a sum fits however far it has
come; and the argument has no aggregate. Otherwise both fail, with one message. -/
def AggExact (rows : List Row) : Prop :=
  match args[0]? with
  | none => func = .count
  | some arg =>
    let vs := valuesOf (evalsOf B schema params arg rows)
    let failure := (refusedBy B func vs).or (failureOf (evalsOf B schema params arg rows))
    if arg.hasAggregate then failure = some (.sql "agregados anidados")
    else match failureOf (evalsOf B schema params arg rows) with
      | some e => failure = some e
      | none => (func = .sum → SumExact B vs) ∧
        (func = .sum ∨ func = .avg → refusedBy B func vs = none)

/-- A row by its place, if there is one. -/
def rowAtPlace (rows : List Row) (i : ℤ) : Option Row := if 0 ≤ i then rows[i.toNat]? else none

def argOn (row : Row) : Result Value := do
  let arg ← argAt args 0
  evalOn B schema params arg row

/-- So many rows before or behind the row `k`. -/
def lagPlace (offset : ℤ) (k : ℕ) : ℤ := if func = .lag then k - offset else k + offset

/-- The argument on the row at the distance, or the default. -/
def lagByPlace (rows : List Row) (offset : ℤ) (k : ℕ) (row : Row) : Result Value :=
  match rowAtPlace rows (lagPlace func offset k) with
  | some r => argOn B schema params args r
  | none =>
    match args[2]? with
    | some e => evalOn B schema params e row
    | none => .ok .null

def lagOverflow (offset : ℤ) (k : ℕ) : Option Error :=
  if -2 ^ 63 ≤ lagPlace func offset k ∧ lagPlace func offset k < 2 ^ 63 then none
  else some (.panic (if func = .lag then "attempt to subtract with overflow"
    else "attempt to add with overflow"))

/-- The argument on the first or the last row of the frame, or NULL. -/
def edgeByFrame (f : WindowFrame) (rows : List Row) (k : ℕ) : Result Value :=
  match if func = .firstValue then (frameRows f k rows).head? else (frameRows f k rows).getLast? with
  | some r => argOn B schema params args r
  | none => .ok .null

/-- What `compute_aggregate` makes of the frame. -/
def aggregateByFrame (f : WindowFrame) (rows : List Row) (k : ℕ) : Result Value :=
  computeAggregate B schema (frameRows f k rows) params (aggOf func) args[0]? false none

variable (frame : Option WindowFrame) (descs : List Bool) (part : List (List Value × Row))

/-- The function is what its definition says, on each row of a partition in its order. -/
def WindowMatches : Prop :=
  let rows := part.map Prod.snd
  let f := frameOr frame (!descs.isEmpty)
  let values := windowPartition B schema params func args frame (!descs.isEmpty) part
  match func with
  | .rowNumber => values = .ok ((List.range part.length).map fun k => .integer (Int64.ofNat (k + 1)))
  | .rank => values = .ok ((List.range part.length).map fun k =>
      .integer (Int64.ofNat (rankOf B descs (part.map Prod.fst) false k)))
  | .denseRank => values = .ok ((List.range part.length).map fun k =>
      .integer (Int64.ofNat (rankOf B descs (part.map Prod.fst) true k)))
  | .ntile => ∀ n : Int64, 1 ≤ n →
      (argAt args 0 >>= fun e => evalConst B e params) = .ok (.integer n) →
      ∃ tile, values = .ok ((List.range part.length).map fun p => .integer (Int64.ofNat (tile p))) ∧
        Tiles n.toNatClampNeg part.length tile
  | .lag | .lead => ∀ offset, lagOffset B params args = .ok offset → ∀ k row, rows[k]? = some row →
      lagOf B schema params args rows func offset k row
        = lagByPlace B schema params func args rows offset k row
  | .firstValue | .lastValue => ∀ k < part.length,
      edgeOf B schema params args frame (!descs.isEmpty) rows func k
        = edgeByFrame B schema params func args f rows k
  | .sum | .count | .avg | .min | .max => ∀ k < part.length,
      aggregateAt B schema params args frame (!descs.isEmpty) rows func k
        = aggregateByFrame B schema params func args f rows k

/-- Ranks: rows that tie have the same keys, or without an order there is one row. Places and frames:
nothing overflows, or what the definition says fails with the overflow as well. -/
def WindowExact : Prop :=
  let rows := part.map Prod.snd
  let f := frameOr frame (!descs.isEmpty)
  match func with
  | .rowNumber | .ntile => True
  | .rank | .denseRank => if descs.isEmpty then part.length ≤ 1
    else KeysAscend B descs (part.map Prod.fst)
  | .lag | .lead => ∀ offset, lagOffset B params args = .ok offset → ∀ k row, rows[k]? = some row →
      ∀ e, lagOverflow func offset k = some e →
        lagByPlace B schema params func args rows offset k row = .error e
  | .firstValue | .lastValue => ∀ k < part.length, ∀ e, frameOverflow f k = some e →
      edgeByFrame B schema params func args f rows k = .error e
  | .sum | .count | .avg | .min | .max => ∀ k < part.length,
      (frameOverflow f k = none → AggExact B schema params func args (frameRows f k rows)) ∧
      ∀ e, frameOverflow f k = some e → aggregateByFrame B schema params func args f rows k = .error e

end Definition

/-! ### Each function -/

section Functions
variable {B : Builtins} {schema : QuerySchema} {params : List Value} {func : WindowFunc}
  {args : List Expr} {frame : Option WindowFrame} {has_order : Bool} {rows : List Row} {k : ℕ}

lemma lag_iff (offset : ℤ) (row : Row) : lagOf B schema params args rows func offset k row
      = lagByPlace B schema params func args rows offset k row
    ↔ ∀ e, lagOverflow func offset k = some e →
      lagByPlace B schema params func args rows offset k row = .error e := by
  have htarget : lagTarget func offset k = isize (lagPlace func offset k)
      (if func = .lag then "attempt to subtract with overflow" else "attempt to add with overflow") := by
    unfold lagTarget lagPlace
    split_ifs <;> rfl
  have hvalue : valueAt B schema params args rows (lagPlace func offset k) row
      = lagByPlace B schema params func args rows offset k row := by
    unfold valueAt lagByPlace rowAtPlace
    by_cases hpos : 0 ≤ lagPlace func offset k
    · by_cases hlt : lagPlace func offset k < rows.length
      · have hin : (lagPlace func offset k).toNat < rows.length := by omega
        rw [if_pos ⟨hpos, hlt⟩, if_pos hpos, List.getElem?_eq_getElem hin]
        rfl
      · have hnone : rows[(lagPlace func offset k).toNat]? = none :=
          List.getElem?_eq_none (by omega)
        rewrite [if_neg (fun h => hlt h.2), if_pos hpos, hnone]
        rfl
    · rewrite [if_neg (fun h => hpos h.1), if_neg hpos]
      rfl
  unfold lagOf lagOverflow
  rw [htarget]
  by_cases hin : -2 ^ 63 ≤ lagPlace func offset k ∧ lagPlace func offset k < 2 ^ 63
  · rw [isize_ok hin, ok_bind, hvalue, if_pos hin]
    simp
  · rw [isize_error hin, error_bind, if_neg hin]
    simp [eq_comm]

lemma edge_iff (hk : k < rows.length) (hm : rows.length < 2 ^ 63) :
    edgeOf B schema params args frame has_order rows func k
        = edgeByFrame B schema params func args (frameOr frame has_order) rows k
      ↔ ∀ e, frameOverflow (frameOr frame has_order) k = some e →
        edgeByFrame B schema params func args (frameOr frame has_order) rows k = .error e := by
  cases hover : frameOverflow (frameOr frame has_order) k with
  | some e =>
    rw [edgeOf, frameRange_overflow (by omega) hm hk hover, error_bind]
    simp [eq_comm]
  | none =>
    obtain ⟨range, hrange, hrows, hin⟩ := frameRange_ok hk hm hover
    refine iff_of_true ?_ (by simp)
    rw [edgeOf, hrange, ok_bind, edgeByFrame, ← hrows]
    cases range with
    | none =>
      unfold framed
      split_ifs <;> rfl
    | some p =>
      obtain ⟨hse, he⟩ := hin p.1 p.2 rfl
      obtain ⟨hhead, hlast⟩ := head_framed hse he
      have hs : p.1 < rows.length := hse.trans_lt he
      change (argAt args 0 >>= fun arg => okOr _ _ >>= fun r => evalOn B schema params arg r) = _
      rw [hhead, hlast]
      split_ifs
      · rw [List.getElem?_eq_getElem hs]
        rfl
      · rw [List.getElem?_eq_getElem he]
        rfl

/-! ### Aggregates of a frame -/

lemma countFold (vs : List Value) (n : ℕ) :
    vs.foldlM (fun c (_ : Value) => (.ok (c + 1) : Result ℕ)) n = .ok (n + vs.length) := by
  induction vs generalizing n with
  | nil => rfl
  | cons v vs ih =>
    rw [List.foldlM_cons, ok_bind, ih, List.length_cons, Nat.add_assoc, Nat.add_comm 1]

/-- An aggregate of a window is its fold, and what fails first. -/
lemma windowAggregate_eq (hagg : func.isAggregate = true) (arg : Expr) (rest : List Expr) :
    windowAggregate B schema params func (arg :: rest) rows
      = windowFold B func (valuesOf (evalsOf B schema params arg rows)) >>= fun v =>
        failWith (failureOf (evalsOf B schema params arg rows)) >>= fun _ => .ok v := by
  cases func with
  | sum =>
    rw [windowAggregate, foldArg_eq, windowFold]
    simp only [bind_assoc, ok_bind]
  | count =>
    rw [windowAggregate, List.isEmpty_cons, if_neg Bool.false_ne_true, foldArg_eq, countFold,
      windowFold]
    · simp only [bind_assoc, ok_bind, Nat.zero_add]
    all_goals simp
  | avg =>
    rw [windowAggregate, foldArg_eq, windowFold]
    simp only [bind_assoc, ok_bind]
  | min =>
    rw [windowAggregate, foldArg_eq, windowFold]
    simp only [bind_assoc, ok_bind]
  | max =>
    rw [windowAggregate, foldArg_eq, windowFold]
    simp only [bind_assoc, ok_bind]
  | _ => cases hagg

lemma errorOf_failWith {α : Type} (x : Result α) (failure : Option Error) :
    errorOf (x >>= fun v => failWith failure >>= fun _ => .ok v) = (errorOf x).or failure := by
  cases x with
  | error e => rfl
  | ok v => cases failure <;> rfl

lemma computeAggregate_eq (f : AggFunc) (arg : Expr) :
    computeAggregate B schema rows params f (some arg) false none
      = if arg.hasAggregate then .error (.sql "agregados anidados")
        else failWith (failureOf (evalsOf B schema params arg rows)) >>= fun _ =>
          aggregateOf B params f none (valuesOf (evalsOf B schema params arg rows)) := by
  change (require (arg.hasAggregate = false) _ >>= fun _ => argValues B schema rows params arg >>=
    fun values => aggregateOf B params f none values) = _
  by_cases hnested : arg.hasAggregate = true
  · rw [if_pos hnested, require_eq_error.2 ⟨by simp [hnested], rfl⟩]
    rfl
  · rw [if_neg hnested, require_pos (by simpa using hnested), ok_bind, argValues_eq, bind_assoc]
    rfl

/-- On values that are all there, the two folds differ in sums and in messages only. -/
lemma fold_iff (params : List Value) (hagg : func.isAggregate = true) {vs : List Value} :
    windowFold B func vs = aggregateOf B params (aggOf func) none vs
      ↔ (func = .sum → SumExact B vs) ∧
        (func = .sum ∨ func = .avg → refusedBy B func vs = none) := by
  cases func with
  | sum => simp [aggOf, sum_exact, and_comm]
  | avg => simp [aggOf, avg_exact]
  | count => simp [aggOf, windowFold, aggregateOf]
  | min => simp [aggOf, windowFold, aggregateOf]
  | max => simp [aggOf, windowFold, aggregateOf]
  | _ => cases hagg

/-- Without an argument only COUNT is an aggregate. -/
lemma windowAggregate_none (hagg : func.isAggregate = true) (hcount : func ≠ .count)
    (rows : List Row) : windowAggregate B schema params func [] rows
      ≠ .ok (.integer (Int64.ofNat rows.length)) := by
  have harg : argAt [] 0 = .error (.panic "index out of bounds") := rfl
  cases func with
  | sum => cases rows <;> simp [windowAggregate, foldArg, harg]
  | avg => cases rows <;> simp [windowAggregate, foldArg, harg]
  | min => cases rows <;> simp [windowAggregate, foldArg, harg]
  | max => cases rows <;> simp [windowAggregate, foldArg, harg]
  | count => exact absurd rfl hcount
  | _ => cases hagg

lemma aggregate_iff (hagg : func.isAggregate = true) (args : List Expr) (rows : List Row) :
    windowAggregate B schema params func args rows
        = computeAggregate B schema rows params (aggOf func) args[0]? false none
      ↔ AggExact B schema params func args rows := by
  cases args with
  | nil =>
    by_cases hcount : func = .count
    · subst hcount
      exact iff_of_true rfl rfl
    · exact iff_of_false (windowAggregate_none hagg hcount rows) hcount
  | cons arg rest =>
    have herr := errorOf_failWith (windowFold B func (valuesOf (evalsOf B schema params arg rows)))
      (failureOf (evalsOf B schema params arg rows))
    rw [← windowAggregate_eq hagg arg rest, windowFold_error] at herr
    unfold AggExact
    rw [List.getElem?_cons_zero, computeAggregate_eq]
    by_cases hnested : arg.hasAggregate = true
    · simp only [if_pos hnested]
      rw [← herr, errorOf_eq_some]
    · simp only [if_neg hnested]
      cases hfail : failureOf (evalsOf B schema params arg rows) with
      | some e =>
        rw [hfail] at herr
        simp only []
        rw [← herr, errorOf_eq_some]
        rfl
      | none =>
        have hpure (x : Result Value) : (x >>= fun v => .ok v) = x := by
          cases x <;> rfl
        rw [windowAggregate_eq hagg arg rest, hfail, ← fold_iff params hagg]
        change (windowFold B func _ >>= fun v => .ok v) = _ ↔ _
        rw [hpure]
        rfl

lemma aggregateAt_iff (hagg : func.isAggregate = true) (hk : k < rows.length)
    (hm : rows.length < 2 ^ 63) :
    aggregateAt B schema params args frame has_order rows func k
        = aggregateByFrame B schema params func args (frameOr frame has_order) rows k
      ↔ (frameOverflow (frameOr frame has_order) k = none →
          AggExact B schema params func args (frameRows (frameOr frame has_order) k rows)) ∧
        ∀ e, frameOverflow (frameOr frame has_order) k = some e →
          aggregateByFrame B schema params func args (frameOr frame has_order) rows k = .error e := by
  cases hover : frameOverflow (frameOr frame has_order) k with
  | some e =>
    rw [aggregateAt, frameRange_overflow (by omega) hm hk hover, error_bind]
    simp [eq_comm]
  | none =>
    obtain ⟨range, hrange, hrows, -⟩ := frameRange_ok hk hm hover
    rw [aggregateAt, hrange, ok_bind, hrows]
    refine (aggregate_iff hagg args _).trans ?_
    simp

end Functions

/-- Every window function is what its definition says exactly under its condition. -/
theorem window_functions (B : Builtins) (schema : QuerySchema) (params : List Value)
    (func : WindowFunc) (args : List Expr) (frame : Option WindowFrame) (descs : List Bool)
    (part : List (List Value × Row)) (hlen : part.length < 2 ^ 63) :
    WindowMatches B schema params func args frame descs part
      ↔ WindowExact B schema params func args frame descs part := by
  have hin {k : ℕ} (hk : k < part.length) : k < (part.map Prod.snd).length := by
    rwa [List.length_map]
  have hrows : (part.map Prod.snd).length < 2 ^ 63 := by rwa [List.length_map]
  have hranks (dense : Bool) := ranks_exact B descs (part.map Prod.fst) (by rwa [List.length_map])
    dense
  rw [List.length_map] at hranks
  cases func with
  | rowNumber => exact iff_of_true rfl trivial
  | rank => exact Iff.trans (by rw [WindowMatches, windowPartition, Except.ok.injEq]) (hranks false)
  | denseRank => exact Iff.trans (by rw [WindowMatches, windowPartition, Except.ok.injEq]) (hranks true)
  | ntile =>
    refine iff_of_true (fun n hn harg => ⟨tileOf part.length n.toNatClampNeg, ?_, tileOf_tiles ?_⟩)
      trivial
    · obtain ⟨arg, hzero, hval⟩ := bind_eq_ok.1 harg
      rw [windowPartition, hzero, ok_bind, hval, ok_bind]
      exact if_pos hn
    · have hpos : 1 ≤ n.toInt := Int64.le_iff_toInt_le.1 hn
      change 0 < n.toInt.toNat
      omega
  | lag => exact forall₅_congr fun offset _ k row _ => lag_iff offset row
  | lead => exact forall₅_congr fun offset _ k row _ => lag_iff offset row
  | firstValue => exact forall₂_congr fun k hk => edge_iff (hin hk) hrows
  | lastValue => exact forall₂_congr fun k hk => edge_iff (hin hk) hrows
  | sum => exact forall₂_congr fun k hk => aggregateAt_iff rfl (hin hk) hrows
  | count => exact forall₂_congr fun k hk => aggregateAt_iff rfl (hin hk) hrows
  | avg => exact forall₂_congr fun k hk => aggregateAt_iff rfl (hin hk) hrows
  | min => exact forall₂_congr fun k hk => aggregateAt_iff rfl (hin hk) hrows
  | max => exact forall₂_congr fun k hk => aggregateAt_iff rfl (hin hk) hrows

/-- Rows of one number, in the order of the number if `keyed`. -/
def numberRows (keyed : Bool) (vs : List Value) : List (List Value × Row) :=
  vs.map fun v => (if keyed then [v] else [], [v])

/-- The window functions of the column of a table, with an order or without. -/
def NumbersMatch (func : WindowFunc) (keyed : Bool) (vs : List Value) : Prop :=
  WindowMatches roundBuiltins (.single "t" plainTable) [] func [.column none "a"] none
    (if keyed then [false] else []) (numberRows keyed vs)

def oneAsReal : F64 := ⟨0x3FF0000000000000⟩

/-- A sum that wraps around, a tie of `1` and `1.0`, and rows without an order. -/
theorem window_functions_differ :
    ¬ NumbersMatch .sum false [.integer Int64.maxValue, .integer 1] ∧
      ¬ NumbersMatch .rank true [.integer 1, .real oneAsReal] ∧
      ¬ NumbersMatch .rank false [.integer 1, .integer 2] := by
  refine ⟨fun h => ?_, fun h => ?_, fun h => ?_⟩
  · have hsum := congrArg Except.toOption (h 0 (by decide))
    revert hsum
    decide +kernel
  · have hrank := congrArg Except.toOption h
    revert hrank
    decide +kernel
  · have hrank := congrArg Except.toOption h
    revert hrank
    decide +kernel

theorem window_functions_two : (numberRows true [.integer 1, .integer 2]).length < 2 ^ 63 ∧
    (NumbersMatch .rank true [.integer 1, .integer 2]
      ↔ WindowExact roundBuiltins (.single "t" plainTable) [] .rank [.column none "a"] none [false]
        (numberRows true [.integer 1, .integer 2])) :=
  ⟨by decide, window_functions roundBuiltins (.single "t" plainTable) [] .rank [.column none "a"] none
    [false] (numberRows true [.integer 1, .integer 2]) (by decide)⟩

end Arkeion.Sql
