import Arkeion.Sql.Functions

/-!
Which calls of a scalar function end the process.

Of all functions these are `substr`, where the place of the end is a sum, `instr`, for texts that are
longer than any text can be, and `printf`, by the width or the precision of a format.
-/

namespace Arkeion.Sql.Scalar

open Arkeion.Lib Catalog

section Errors
variable {α β : Type} {x : Option α} {r : Result α} {f : α → Result β} {e : Error} {msg : String}

@[simp] lemma isPanic_sql : (Error.sql msg).IsPanic ↔ False := Iff.rfl

@[simp] lemma isPanic_invalidInput : (Error.invalidInput msg).IsPanic ↔ False := Iff.rfl

@[simp] lemma isPanic_panic : (Error.panic msg).IsPanic ↔ True := Iff.rfl

@[simp] lemma isPanic_outOfFuel : Error.outOfFuel.IsPanic ↔ False := Iff.rfl

@[simp] lemma panics_okOr : Panics (okOr x e) ↔ x = none ∧ e.IsPanic := by
  cases x <;> simp

lemma not_panics_bind (hr : ¬ Panics r) (hf : ∀ a, ¬ Panics (f a)) : ¬ Panics (r >>= f) := by
  rw [panics_bind]
  rintro (h | ⟨a, -, h⟩)
  · exact hr h
  · exact hf a h

/-- A list of results panics where one does that all before give a value. -/
lemma panics_mapM {g : β → Result α} {l : List β} : Panics (l.mapM g) ↔
    ∃ before b after, l = before ++ b :: after ∧ (∀ y ∈ before, ∃ z, g y = .ok z) ∧ Panics (g b) := by
  induction l with
  | nil =>
    rw [List.mapM_nil]
    refine iff_of_false (panics_ok _).1 ?_
    rintro ⟨before, b, after, h, -⟩
    simp at h
  | cons b l ih =>
    rw [List.mapM_cons, panics_bind]
    constructor
    · rintro (h | ⟨z, hz, h⟩)
      · exact ⟨[], b, l, rfl, fun y hy => (by cases hy), h⟩
      · rcases panics_bind.1 h with h | ⟨zs, -, h⟩
        · obtain ⟨before, c, after, rfl, hbefore, hc⟩ := ih.1 h
          exact ⟨b :: before, c, after, rfl, List.forall_mem_cons.2 ⟨⟨z, hz⟩, hbefore⟩, hc⟩
        · exact absurd h (panics_ok _).1
    · rintro ⟨before, c, after, hsplit, hbefore, hc⟩
      cases before with
      | nil =>
        obtain ⟨rfl, rfl⟩ := List.cons.inj hsplit
        exact Or.inl hc
      | cons y before =>
        obtain ⟨rfl, rfl⟩ := List.cons.inj hsplit
        obtain ⟨⟨z, hz⟩, hbefore⟩ := List.forall_mem_cons.1 hbefore
        exact Or.inr ⟨z, hz, panics_bind.2 (Or.inl (ih.2 ⟨before, c, after, rfl, hbefore, hc⟩))⟩

lemma not_panics_mapM {g : β → Result α} {l : List β} (h : ∀ b, ¬ Panics (g b)) :
    ¬ Panics (l.mapM g) := by
  rw [panics_mapM]
  rintro ⟨before, b, after, -, -, hb⟩
  exact h b hb

end Errors

/-! ### Functions that never do -/

section Quiet
variable {B : Builtins} {H : Host} {lname : String} {args : List Value} {v w : Value} {op : BinOp}
  {F : FloatText}

lemma castInteger_quiet (h : v ≠ .null) : ¬ Panics (castInteger H v) := by
  cases v with
  | null => exact absurd rfl h
  | real f =>
    rw [castInteger]
    split_ifs <;> simp
  | text s => simp [castInteger, castError]
  | bool b => simp [castInteger]
  | integer n => simp [castInteger]
  | blob b => simp [castInteger, castError]

lemma castReal_quiet (h : v ≠ .null) : ¬ Panics (castReal B H v) := by
  cases v with
  | null => exact absurd rfl h
  | text s => simp [castReal, panics_bind, castError]
  | real f => simp [castReal]
  | bool b => simp [castReal]
  | integer n => simp [castReal]
  | blob b => simp [castReal, castError]

lemma castText_quiet (h : v ≠ .null) : ¬ Panics (castText H v) := by
  cases v with
  | null => exact absurd rfl h
  | blob b => simp [castText, panics_bind]
  | text s => simp [castText]
  | real f => simp [castText]
  | bool b => simp [castText]
  | integer n => simp [castText]

lemma castBool_quiet (h : v ≠ .null) : ¬ Panics (castBool v) := by
  cases v with
  | null => exact absurd rfl h
  | text s =>
    rw [castBool]
    split_ifs <;> simp [castError]
  | blob b => simp [castBool, castError]
  | real f => simp [castBool]
  | bool b => simp [castBool]
  | integer n => simp [castBool]

/-- The branches that are said not to be reached are not: NULL stays NULL before. -/
lemma castValue_quiet (to_ : ColType) : ¬ Panics (castValue B H v to_) := by
  unfold castValue
  split_ifs with hnull
  · simp
  · cases to_ with
    | integer => exact castInteger_quiet hnull
    | real => exact castReal_quiet hnull
    | text => exact castText_quiet hnull
    | blob => cases v <;> simp [castBlob, castError]
    | boolean => exact castBool_quiet hnull

lemma checked_quiet (n : ℤ) : ¬ Panics (checked n) := by
  unfold checked
  split_ifs <;> simp

lemma arith_quiet : ¬ Panics (arith B op v w) := by
  have hint : ∀ x y, ¬ Panics (arithInt op x y) := by
    intro x y
    unfold arithInt
    cases op <;> dsimp only <;> first | exact checked_quiet _ | (split_ifs <;> simp [checked_quiet])
  have hreal : ∀ x y, ¬ Panics (arithReal B op x y) := by
    intro x y
    unfold arithReal
    split_ifs <;> simp
  unfold arith
  split <;> simp [hint, hreal]

lemma cmpValues_quiet : ¬ Panics (cmpValues B v w) := by
  unfold cmpValues
  split <;> simp

lemma bestOf_quiet {want : Ordering} : ¬ Panics (bestOf B want v args) := by
  induction args generalizing v with
  | nil => simp [bestOf]
  | cons w args ih => exact not_panics_bind cmpValues_quiet fun o => ih

lemma textArg_quiet : ¬ Panics (textArg H lname v) := by simp [textArg, needText]

lemma concatTexts_quiet : ¬ Panics (concatTexts H lname args) := by
  induction args with
  | nil => simp [concatTexts]
  | cons v args ih =>
    rw [concatTexts]
    split_ifs
    · exact ih
    · exact not_panics_bind textArg_quiet fun s => not_panics_bind ih fun rest => by simp

lemma charTexts_quiet : ¬ Panics (charTexts lname args) := by
  induction args with
  | nil => simp [charTexts]
  | cons v args ih =>
    unfold charTexts
    split
    · simp
    · refine not_panics_bind (by simp) fun c => not_panics_bind ?_ fun rest => (by simp)
      simp_all
    · simp [needNum]

/-- The first place and the others are there if there are two values or more. -/
lemma bestFn_quiet : ¬ Panics (bestFn B lname args) := by
  unfold bestFn
  by_cases hlen : args.length < 2
  · rw [if_pos hlen]
    simp [badArity]
  · rw [if_neg hlen, index_ok (by omega), ok_bind, slice_ok (by omega) le_rfl, ok_bind]
    by_cases hnull : .null ∈ args
    · rw [if_pos hnull]
      simp
    · rw [if_neg hnull]
      exact bestOf_quiet

/-- A list of characters is filled up or cut at places inside of it. -/
lemma padTo_quiet {s pad : String} {len : ℤ} {left : Bool} : ¬ Panics (padTo s len pad left) := by
  unfold padTo
  dsimp only
  by_cases hlen : (max len 0).toNat ≤ s.toList.length
  · rw [if_pos hlen, slice_ok (Nat.zero_le _) hlen]
    simp
  · rw [if_neg hlen]
    by_cases hpad : pad = ""
    · rw [if_pos hpad]
      simp
    · rw [if_neg hpad, Fts.checkedSub, if_pos (by omega)]
      simp

lemma padFn_quiet : ¬ Panics (padFn H lname args) := by
  have hargs : ¬ Panics (padArgs H lname args) := by
    unfold padArgs
    split
    · simp
    · exact not_panics_bind textArg_quiet fun p => by simp
    · simp [needNum]
    · simp [badArity]
  unfold padFn
  split_ifs
  · simp
  · exact not_panics_bind hargs fun a => not_panics_bind textArg_quiet fun s =>
      not_panics_bind padTo_quiet fun out => by simp

lemma mathOp_quiet {x : F64} (h : lname ∈ MATH_NAMES) : ¬ Panics (mathOp H lname x) := by
  simp only [MATH_NAMES, List.mem_cons, List.not_mem_nil, or_false] at h
  unfold mathOp
  rcases h with rfl | rfl | rfl | rfl | rfl | rfl | rfl | rfl | rfl | rfl | rfl | rfl | rfl <;> simp

lemma numArg_quiet : ¬ Panics (numArg B lname v) := by simp [numArg, needNum]

lemma mathFn_quiet (h : lname ∈ MATH_NAMES) : ¬ Panics (mathFn B H lname args) := by
  unfold mathFn
  split
  · simp
  · exact not_panics_bind numArg_quiet fun x => not_panics_bind (mathOp_quiet h) fun y => by simp
  · simp [badArity]

lemma jsonPath_quiet : ¬ Panics (jsonPath v) := by
  unfold jsonPath
  split <;> simp

lemma atPath_quiet {usage invalid : String} {give : Option Json → Value} :
    ¬ Panics (atPath F usage invalid give args) := by
  unfold atPath
  split <;> simp [panics_bind]

lemma jsonExtractFn_quiet : ¬ Panics (jsonExtractFn F args) := by
  unfold jsonExtractFn
  split
  · simp
  · exact not_panics_bind (by simp) fun root => not_panics_bind jsonPath_quiet fun p => by simp
  · exact not_panics_bind (by simp) fun root => not_panics_bind
      (not_panics_mapM fun p => not_panics_bind jsonPath_quiet fun path => by simp) fun js => by simp
  · simp

lemma valueToJson_quiet : ¬ Panics (valueToJson v) := by cases v <;> simp [valueToJson]

lemma objectKey_quiet : ¬ Panics (objectKey F v) := by
  unfold objectKey
  split <;> simp

lemma objectMembers_quiet : ¬ Panics (objectMembers F args) := by
  induction args using objectMembers.induct with
  | case1 k v args ih =>
    rw [objectMembers]
    exact not_panics_bind objectKey_quiet fun key => not_panics_bind valueToJson_quiet fun j =>
      not_panics_bind ih fun rest => by simp
  | case2 args h =>
    rw [objectMembers]
    · simp
    · exact h

lemma arrayItems_quiet : ¬ Panics (arrayItems args) := by
  induction args with
  | nil => simp [arrayItems]
  | cons v args ih =>
    exact not_panics_bind valueToJson_quiet fun j => not_panics_bind ih fun rest => by simp

lemma jsonText_quiet {tree : Result Json} (h : ¬ Panics tree) : ¬ Panics (jsonText F tree) :=
  not_panics_bind h fun j => by simp

lemma not_panics_require {p : Prop} [Decidable p] {msg : String} :
    ¬ Panics (require p (.sql msg)) := by
  unfold require
  split_ifs <;> simp

lemma jsonObject_quiet : ¬ Panics (jsonObject F args) :=
  jsonText_quiet (not_panics_bind not_panics_require fun u => not_panics_bind objectMembers_quiet
    fun ms => by simp)

lemma jsonArray_quiet : ¬ Panics (jsonArray F args) :=
  jsonText_quiet (not_panics_bind arrayItems_quiet fun js => by simp)

lemma jsonQuote_quiet : ¬ Panics (jsonQuote F args) := by
  refine jsonText_quiet ?_
  unfold quoteTree
  split
  · exact valueToJson_quiet
  · simp

lemma jsonArrow_quiet : ¬ Panics (jsonArrow F op v w) := by
  have hpath : ¬ Panics (arrowPath w) := by
    unfold arrowPath
    split <;> simp
  have htext : ¬ Panics (arrowText v) := by
    unfold arrowText
    split <;> simp
  unfold jsonArrow
  split
  · simp
  · refine not_panics_bind htext fun text => not_panics_bind hpath fun path =>
      not_panics_bind (by simp) fun root => ?_
    split <;> simp

lemma caseFn_quiet : ¬ Panics (caseFn H lname args) := by
  unfold caseFn
  split <;> simp [needText, badArity]

lemma lengthFn_quiet : ¬ Panics (lengthFn lname args) := by
  unfold lengthFn
  split <;> simp [badArity]

lemma trimFn_quiet : ¬ Panics (trimFn lname args) := by
  unfold trimFn
  split <;> simp [needText, badArity]

lemma absFn_quiet : ¬ Panics (absFn H lname args) := by
  unfold absFn
  split
  · simp
  · split_ifs <;> simp
  · simp
  · simp [needNum]
  · simp [badArity]

lemma roundFn_quiet : ¬ Panics (roundFn B H lname args) := by
  have hargs : ¬ Panics (roundArgs lname args) := by
    unfold roundArgs
    split <;> simp [badArity]
  refine not_panics_bind hargs fun a => ?_
  dsimp only
  split <;> simp [needNum]

lemma coalesceFn_quiet : ¬ Panics (coalesceFn lname args) := by
  unfold coalesceFn
  split_ifs <;> simp [badArity]

lemma ifnullFn_quiet : ¬ Panics (ifnullFn lname args) := by
  unfold ifnullFn
  split <;> simp [badArity]

lemma typeofFn_quiet : ¬ Panics (typeofFn lname args) := by
  unfold typeofFn
  split <;> simp [badArity]

lemma nullifFn_quiet : ¬ Panics (nullifFn B lname args) := by
  unfold nullifFn
  split
  · exact not_panics_bind cmpValues_quiet fun o => by simp
  · simp [badArity]

lemma replaceFn_quiet : ¬ Panics (replaceFn lname args) := by
  unfold replaceFn
  split <;> simp [badArity]

lemma reverseFn_quiet : ¬ Panics (reverseFn lname args) := by
  unfold reverseFn
  split <;> simp [needText, badArity]

lemma hexFn_quiet : ¬ Panics (hexFn lname args) := by
  unfold hexFn
  split <;> simp [badArity]

lemma ceilFn_quiet : ¬ Panics (ceilFn H lname args) := by
  unfold ceilFn
  split <;> simp [needNum, badArity]

lemma sqrtFn_quiet : ¬ Panics (sqrtFn B H lname args) := by
  unfold sqrtFn
  split <;> simp [needNum, badArity]

lemma math2Fn_quiet {name : String} : ¬ Panics (math2Fn B H lname name args) := by
  unfold math2Fn
  split
  · simp
  · simp
  · exact not_panics_bind numArg_quiet fun x => not_panics_bind numArg_quiet fun y => by simp
  · simp [badArity]

lemma modFn_quiet : ¬ Panics (modFn B lname args) := by
  unfold modFn
  split
  · exact arith_quiet
  · simp [badArity]

lemma signFn_quiet : ¬ Panics (signFn lname args) := by
  unfold signFn
  split <;> simp [needNum, badArity]

lemma randomFn_quiet : ¬ Panics (randomFn H lname args) := by
  unfold randomFn
  split <;> simp [badArity]

lemma piFn_quiet : ¬ Panics (piFn H lname args) := by
  unfold piFn
  split <;> simp [badArity]

lemma logFn_quiet : ¬ Panics (logFn B H lname args) := by
  unfold logFn
  split
  · simp
  · simp
  · simp
  · exact not_panics_bind numArg_quiet fun x => by simp
  · exact not_panics_bind numArg_quiet fun x => not_panics_bind numArg_quiet fun y => by simp
  · simp [badArity]

lemma concatFn_quiet : ¬ Panics (concatFn H lname args) := by
  unfold concatFn
  split_ifs
  · simp [badArity]
  · exact not_panics_bind concatTexts_quiet fun s => by simp

lemma concatWsFn_quiet : ¬ Panics (concatWsFn H lname args) := by
  unfold concatWsFn
  split
  · simp [badArity]
  · simp
  · exact not_panics_bind textArg_quiet fun sep =>
      not_panics_bind (not_panics_mapM fun v => textArg_quiet) fun parts => by simp

lemma unicodeFn_quiet : ¬ Panics (unicodeFn lname args) := by
  unfold unicodeFn
  split <;> simp [needText, badArity]

lemma charFn_quiet : ¬ Panics (charFn lname args) :=
  not_panics_bind charTexts_quiet fun cs => by simp

lemma quoteFn_quiet : ¬ Panics (quoteFn H lname args) := by
  unfold quoteFn
  split <;> simp [badArity]

lemma instantFn_quiet {give : Int64 → Value} : ¬ Panics (instantFn lname give args) := by
  unfold instantFn
  split <;> simp [badArity]

lemma jsonFn_quiet : ¬ Panics (jsonFn F lname args) := by
  unfold jsonFn
  split <;> simp [panics_bind, badArity]

lemma jsonValidFn_quiet : ¬ Panics (jsonValidFn F lname args) := by
  unfold jsonValidFn
  split <;> simp [badArity]

lemma nowFn_quiet : ¬ Panics (nowFn lname H args) := by
  unfold nowFn
  split <;> simp [badArity]

lemma vectorFn_quiet : ¬ Panics (vectorFn H lname args) := by
  refine not_panics_bind ?_ fun vals => by simp
  induction args with
  | nil => exact (panics_ok _).1
  | cons v args ih =>
    cases v with
    | real f => exact not_panics_bind ih fun rest => by simp
    | integer n => exact not_panics_bind ih fun rest => by simp
    | null => exact (panics_ok _).1
    | _ => exact (panics_error _).1

/-- No check of the calendar fires. -/
lemma fmtTime_quiet {fmt : List Char} : ¬ Panics (fmtTime fmt args) := by
  unfold fmtTime
  split
  · simp
  · rw [Datetime.strftimeChecked_eq (inI64_toInt _)]
    simp
  · simp
  · simp

lemma strftimeFn_quiet : ¬ Panics (strftimeFn lname args) := by
  unfold strftimeFn
  split
  · simp
  · simp
  · rw [Datetime.strftimeChecked_eq (inI64_toInt _)]
    simp
  · simp
  · simp [badArity]

end Quiet

/-! ### Patterns -/

section Glob
variable {p s : List Char} {ch : Char} {n i : ℕ} {matched : Bool} {lname : String} {args : List Value}

lemma rangeAt_eq : ∃ range, rangeAt p i = .ok range ∧ (range = true → i + 2 < p.length) := by
  unfold rangeAt
  by_cases hfits : i + 2 < p.length
  · rw [if_pos hfits, index_ok (by omega), ok_bind]
    split_ifs
    · rw [index_ok hfits]
      exact ⟨_, rfl, fun _ => hfits⟩
    · exact ⟨false, rfl, Bool.noConfusion⟩
  · rw [if_neg hfits]
    exact ⟨false, rfl, Bool.noConfusion⟩

/-- The loop stays within the pattern and comes to an end. -/
lemma classLoop_eq (hi : i ≤ p.length) (hn : p.length < n + i) :
    ∃ j m, classLoop p ch n i matched = .ok (j, m) ∧ j ≤ p.length := by
  induction n generalizing i matched with
  | zero => omega
  | succ n ih =>
    rw [classLoop]
    by_cases hlt : i < p.length
    · rw [if_pos hlt, index_ok hlt, ok_bind]
      split
      · exact ⟨i, matched, rfl, hi⟩
      · obtain ⟨range, hrange, hfits⟩ := rangeAt_eq (p := p) (i := i)
        rw [hrange, ok_bind]
        cases range with
        | true =>
          have hlt' := hfits rfl
          rw [if_pos rfl, index_ok hlt', ok_bind]
          exact ih (by omega) (by omega)
        | false =>
          rw [if_neg (by decide)]
          exact ih (by omega) (by omega)
    · rw [if_neg hlt]
      exact ⟨i, matched, rfl, hi⟩

lemma globClass_eq : ∃ hit rest, globClass p ch = .ok (hit, rest) ∧ rest.length ≤ p.length := by
  have hfirst : (if (p.head? == some '^') = true then 1 else 0) ≤ p.length := by
    split_ifs with hhead
    · cases p with
      | nil => cases hhead
      | cons c p => exact Nat.succ_le_succ (Nat.zero_le _)
    · exact Nat.zero_le _
  have hstop : ∃ j m, classLoop p ch (p.length + 1) (if (p.head? == some '^') = true then 1 else 0) false
      = .ok (j, m) ∧ j ≤ p.length := classLoop_eq hfirst (by omega)
  obtain ⟨j, m, hloop, hj⟩ := hstop
  have hrest : (if j < p.length then j + 1 else j) ≤ p.length := by
    split_ifs <;> omega
  unfold globClass
  dsimp only
  rw [hloop, ok_bind]
  dsimp only
  rw [slice_ok hrest le_rfl]
  refine ⟨_, _, rfl, ?_⟩
  rw [List.length_drop, List.take_length]
  exact Nat.sub_le _ _

lemma anyTail_eq {f : List Char → Result Bool} (hf : ∀ s, ∃ hit, f s = .ok hit) :
    ∃ hit, anyTail f s = .ok hit := by
  induction s with
  | nil => exact hf []
  | cons c s ih =>
    obtain ⟨hit, h⟩ := hf (c :: s)
    rw [anyTail, h, ok_bind]
    split_ifs
    · exact ⟨true, rfl⟩
    · exact ih

/-- A text matches or not. -/
lemma globMatch_eq (h : p.length ≤ n) : ∃ hit, globMatch n p s = .ok hit := by
  induction n generalizing p s with
  | zero =>
    rw [List.length_eq_zero_iff.1 (Nat.le_zero.1 h)]
    exact ⟨_, globMatch.eq_1 0 s⟩
  | succ n ih =>
    cases p with
    | nil => exact ⟨_, globMatch.eq_1 (n + 1) s⟩
    | cons c p =>
      have hp : p.length ≤ n := Nat.le_of_succ_le_succ h
      unfold globMatch
      split
      · exact anyTail_eq fun s => ih hp
      · split
        · cases s with
          | nil => exact ⟨false, rfl⟩
          | cons ch s => exact ih hp
        · split
          · cases s with
            | nil => exact ⟨false, rfl⟩
            | cons ch s =>
              obtain ⟨hit, rest, hclass, hrest⟩ : ∃ hit rest, globClass p ch = .ok (hit, rest) ∧
                  rest.length ≤ p.length := globClass_eq
              dsimp only
              rw [hclass, ok_bind]
              dsimp only
              split
              · exact ih (hrest.trans hp)
              · exact ⟨false, rfl⟩
          · split
            · exact ih hp
            · exact ⟨false, rfl⟩

lemma globFn_quiet : ¬ Panics (globFn lname args) := by
  unfold globFn
  split
  · simp
  · simp
  · next pat s =>
    obtain ⟨hit, h⟩ := globMatch_eq (p := pat.toList) (s := s.toList) le_rfl
    rw [h]
    simp
  · simp
  · simp [badArity]

end Glob

/-! ### Parts of a text -/

section Substr
variable {n start first : ℤ} {len : Option ℤ} {s hay needle : String} {args : List Value}
  {lname : String} {v : Value}

/-- The place where the part begins, before it is moved to the beginning of the text. -/
def firstPlace (n start : ℤ) : ℤ := if start < 0 then n + start else start - 1

/-- A place that is computed does not fit in 64 bits: that of the beginning, which only a text of
2^63 characters makes so large, or that behind the end. -/
def FarSubstr (n start : ℤ) (len : Option ℤ) : Prop :=
  2 ^ 63 ≤ firstPlace n start ∨ ∃ l ∈ len, 2 ^ 63 ≤ max (firstPlace n start) 0 + max l 0

lemma substrFirst_eq (hn : 0 ≤ n) (h : InI64 start) (hfit : firstPlace n start < 2 ^ 63) :
    substrFirst n start = .ok (firstPlace n start) := by
  obtain ⟨hlo, hhi⟩ := h
  unfold substrFirst
  unfold firstPlace at hfit ⊢
  split_ifs with hneg
  · rw [if_pos hneg] at hfit
    exact addI64_ok (by omega) hfit
  · exact subI64_ok (by omega) (by omega)

lemma substrFirst_panics (hfar : 2 ^ 63 ≤ firstPlace n start) : Panics (substrFirst n start) := by
  unfold substrFirst
  unfold firstPlace at hfar
  split_ifs with hneg
  · rw [if_pos hneg] at hfar
    exact panics_isize.2 fun h => by unfold InI64 at h; omega
  · rw [if_neg hneg] at hfar
    exact panics_isize.2 fun h => by unfold InI64 at h; omega

lemma substrLast_panics (hfirst : 0 ≤ first) :
    Panics (substrLast n first len) ↔ ∃ l ∈ len, 2 ^ 63 ≤ first + max l 0 := by
  cases len with
  | none => simp [substrLast]
  | some l =>
    have hsum : Panics (addI64 first (max l 0)) ↔ 2 ^ 63 ≤ first + max l 0 := by
      rw [addI64, panics_isize, InI64]
      omega
    rw [substrLast, panics_bind, hsum]
    simp

/-- The slice is within the text whatever the places are. -/
lemma substr_panics (h : InI64 start) :
    Panics (substr s start len) ↔ FarSubstr s.toList.length start len := by
  unfold FarSubstr
  by_cases hfar : 2 ^ 63 ≤ firstPlace s.toList.length start
  · exact iff_of_true (panics_bind.2 (Or.inl (substrFirst_panics hfar))) (Or.inl hfar)
  · rw [substr, substrFirst_eq (Int.natCast_nonneg _) h (not_le.1 hfar), ok_bind, panics_bind,
      substrLast_panics (le_max_right _ _), or_iff_right hfar]
    refine or_iff_left ?_
    rintro ⟨last, -, hslice⟩
    rw [slice_ok (by omega) (by omega)] at hslice
    exact (panics_ok _).1 hslice

/-- A call of `substr` that ends the process. -/
def BadSubstr (args : List Value) : Prop := ∃ s start, ∃ len : Option Int64,
  args = .text s :: .integer start :: (len.map Value.integer).toList ∧
    FarSubstr s.toList.length start.toInt (len.map Int64.toInt)

lemma substrFn_panics : Panics (substrFn args) ↔ BadSubstr args := by
  constructor
  · intro h
    unfold substrFn at h
    split at h
    · simp at h
    · next s start => exact ⟨s, start, none, rfl, (substr_panics (inI64_toInt start)).1 h⟩
    · next s start len => exact ⟨s, start, some len, rfl, (substr_panics (inI64_toInt start)).1 h⟩
    · simp at h
  · rintro ⟨s, start, len, rfl, h⟩
    cases len with
    | none => exact (substr_panics (inI64_toInt start)).2 h
    | some len => exact (substr_panics (inI64_toInt start)).2 h

/-- The place that `instr` finds does not fit in 64 bits, which only a text of 2^63 characters makes
so large. -/
def BadInstr (args : List Value) : Prop := ∃ hay needle before, args = [.text hay, .text needle] ∧
  needle ≠ "" ∧ findText needle.toList hay.toList = some before ∧ 2 ^ 63 ≤ (before : ℤ) + 1

lemma instrFn_panics : Panics (instrFn lname args) ↔ BadInstr args := by
  have hsum : ∀ before : ℕ, Panics (addI64 before 1) ↔ 2 ^ 63 ≤ (before : ℤ) + 1 := by
    intro before
    rw [addI64, panics_isize, InI64]
    omega
  constructor
  · intro h
    unfold instrFn at h
    split at h
    · simp at h
    · simp at h
    · next hay needle =>
      split_ifs at h with hempty
      · simp at h
      · split at h
        · simp at h
        · next before hfind =>
          rcases panics_bind.1 h with h | ⟨pos, -, h⟩
          · exact ⟨hay, needle, before, rfl, hempty, hfind, (hsum before).1 h⟩
          · simp at h
    · simp at h
    · simp [badArity] at h
  · rintro ⟨hay, needle, before, rfl, hempty, hfind, hfar⟩
    rw [instrFn, if_neg hempty, hfind]
    exact panics_bind.2 (Or.inl ((hsum before).2 hfar))

end Substr

/-! ### Formats -/

section Printf
variable {B : Builtins} {H : Host} {n m width : ℕ} {cs fmt body rest : List Char} {c conv : Char}
  {args as : List Value} {arg v : Value} {prec : Option ℕ} {left zero numeric : Bool} {lname f : String}

/-- The number that the digits in front make behind those of `n`. -/
def runValue : ℕ → List Char → ℕ
  | n, [] => n
  | n, c :: cs => (digit? c).elim n fun d => runValue (n * 10 + d) cs

lemma le_runValue (n : ℕ) (cs : List Char) : n ≤ runValue n cs := by
  induction cs generalizing n with
  | nil => exact le_rfl
  | cons c cs ih =>
    rw [runValue]
    cases digit? c with
    | none => exact le_rfl
    | some d =>
      have hstep : n ≤ n * 10 + d := by omega
      exact hstep.trans (ih _)

lemma mulU64_ok (h : n * m < 2 ^ 64) : mulU64 n m = .ok (n * m) := by
  rw [mulU64, require_pos h]
  rfl

lemma addU64_ok (h : n + m < 2 ^ 64) : addU64 n m = .ok (n + m) := by
  rw [addU64, require_pos h]
  rfl

/-- The digits are read one by one, and the first number that is too large ends the process. -/
lemma digitsFrom_eq (h : runValue n cs < 2 ^ 64) :
    digitsFrom n cs = .ok (runValue n cs, cs.dropWhile isDigit) := by
  induction cs generalizing n with
  | nil => rfl
  | cons c cs ih =>
    rw [runValue] at h
    rw [digitsFrom, runValue, List.dropWhile_cons, isDigit]
    cases hc : digit? c with
    | none => rfl
    | some d =>
      rw [hc] at h
      have hle := (le_runValue (n * 10 + d) cs).trans_lt h
      dsimp only
      rw [mulU64_ok (by omega), ok_bind, addU64_ok hle, ok_bind]
      exact ih h

lemma digitsFrom_panics (hn : n < 2 ^ 64) : Panics (digitsFrom n cs) ↔ 2 ^ 64 ≤ runValue n cs := by
  by_cases hfit : runValue n cs < 2 ^ 64
  · rw [digitsFrom_eq hfit]
    exact iff_of_false (panics_ok _).1 (not_le.2 hfit)
  · refine iff_of_true ?_ (not_lt.1 hfit)
    induction cs generalizing n with
    | nil => exact absurd hn hfit
    | cons c cs ih =>
      rw [runValue] at hfit
      rw [digitsFrom]
      cases hc : digit? c with
      | none =>
        rw [hc] at hfit
        exact absurd hn hfit
      | some d =>
        rw [hc] at hfit
        dsimp only
        by_cases hmul : n * 10 < 2 ^ 64
        · rw [mulU64_ok hmul, ok_bind]
          by_cases hadd : n * 10 + d < 2 ^ 64
          · rw [addU64_ok hadd, ok_bind]
            exact ih hadd hfit
          · exact panics_bind.2 (Or.inl (panics_bind.2 (Or.inl (panics_require.2 hadd))))
        · exact panics_bind.2 (Or.inl (panics_bind.2 (Or.inl (panics_require.2 hmul))))

/-! ### What a specification says -/

/-- The text behind the flags, the width there, the text behind it, the precision there, and the
text behind that: the conversion and the rest. -/
def specText (cs : List Char) : List Char := (flags (false, false) cs).2

def specWidth (cs : List Char) : ℕ := runValue 0 (specText cs)

def behindWidth (cs : List Char) : List Char := (specText cs).dropWhile isDigit

def precOf (cs : List Char) : Option ℕ :=
  if cs.head? = some '.' then some (runValue 0 cs.tail) else none

def behindPrec (cs : List Char) : List Char :=
  if cs.head? = some '.' then cs.tail.dropWhile isDigit else cs

lemma precision_eq (h : ∀ p ∈ precOf cs, p < 2 ^ 64) : precision cs = .ok (precOf cs, behindPrec cs) := by
  unfold precision precOf behindPrec
  unfold precOf at h
  split_ifs with hpoint
  · rw [if_pos hpoint] at h
    rw [digitsFrom_eq (h _ rfl)]
    rfl
  · rfl

lemma precision_panics : Panics (precision cs) ↔ ∃ p ∈ precOf cs, 2 ^ 64 ≤ p := by
  unfold precision precOf
  split_ifs
  · rw [panics_bind, digitsFrom_panics (by norm_num)]
    simp
  · simp

/-- The body of an argument cannot be made, or cannot be filled up to the width. -/
def BadBody (B : Builtins) (H : Host) (conv : Char) (arg : Value) (prec : Option ℕ) (width : ℕ) : Prop :=
  conv = 'f' ∧ 2 ^ 16 ≤ prec.getD 6 ∨ ∃ body numeric, printfOne B H conv arg prec = .ok (body, numeric) ∧
    body.length + 2 ^ 63 ≤ width

/-- A specification that ends the process: its width or its precision does not fit in 64 bits, the
precision of a double does not fit in 16, or a text is to be filled up with 2^63 characters. -/
def BadSpec (B : Builtins) (H : Host) (cs : List Char) (args : List Value) : Prop :=
  2 ^ 64 ≤ specWidth cs ∨ (∃ p ∈ precOf (behindWidth cs), 2 ^ 64 ≤ p) ∨
    ∃ conv rest arg args', behindPrec (behindWidth cs) = conv :: rest ∧ args = arg :: args' ∧
      BadBody B H conv arg (precOf (behindWidth cs)) (specWidth cs)

lemma asInt_quiet : ¬ Panics (asInt B H v) := by
  refine not_panics_bind (castValue_quiet _) fun v => ?_
  split <;> simp

lemma printfOne_panics : Panics (printfOne B H conv arg prec) ↔ conv = 'f' ∧ 2 ^ 16 ≤ prec.getD 6 := by
  have hint : ∀ g : Int64 → List Char × Bool, ¬ Panics (asInt B H arg >>= fun n => .ok (g n)) :=
    fun g => not_panics_bind asInt_quiet fun n => by simp
  by_cases hf : conv = 'f'
  · subst hf
    simp [printfOne, panics_bind, panics_require]
  · refine iff_of_false ?_ fun h => hf h.1
    unfold printfOne
    split_ifs
    · exact hint _
    · exact hint _
    · exact hint _
    · exact hint _
    · simp
    · simp

lemma repeatChar_panics : Panics (repeatChar c n) ↔ 2 ^ 63 ≤ n := by
  rw [repeatChar, panics_bind, panics_require]
  simp

lemma printfPad_panics : Panics (printfPad body width left zero) ↔ body.length + 2 ^ 63 ≤ width := by
  have hfill : ∀ c, ∀ g : List Char → List Char, Panics (repeatChar c (width - body.length) >>= fun cs =>
      .ok (g cs)) ↔ 2 ^ 63 ≤ width - body.length := by
    intro c g
    rw [panics_bind, repeatChar_panics]
    simp
  unfold printfPad
  by_cases hshort : width ≤ body.length
  · rw [if_pos hshort]
    exact iff_of_false (panics_ok _).1 (by omega)
  · rw [if_neg hshort, Fts.checkedSub, if_pos (by omega), ok_bind]
    have hwidth : body.length + 2 ^ 63 ≤ width ↔ 2 ^ 63 ≤ width - body.length := by omega
    rw [hwidth]
    split_ifs <;> exact hfill _ _

lemma printfArg_panics {g : Bool × Bool} : Panics (printfArg B H g width prec cs args) ↔
    ∃ conv rest arg args', cs = conv :: rest ∧ args = arg :: args' ∧ BadBody B H conv arg prec width := by
  cases cs with
  | nil => simp [printfArg]
  | cons conv rest =>
    cases args with
    | nil => simp [printfArg]
    | cons arg args =>
      rw [printfArg, panics_bind, printfOne_panics]
      constructor
      · rintro (hf | ⟨⟨body, numeric⟩, hone, hpad⟩)
        · exact ⟨conv, rest, arg, args, rfl, rfl, Or.inl hf⟩
        · refine ⟨conv, rest, arg, args, rfl, rfl, Or.inr ⟨body, numeric, hone, ?_⟩⟩
          rcases panics_bind.1 hpad with hpad | ⟨out, -, hpad⟩
          · exact printfPad_panics.1 hpad
          · exact absurd hpad (panics_ok _).1
      · rintro ⟨conv', rest', arg', args', hcs, hargs, hbad⟩
        cases hcs
        cases hargs
        rcases hbad with hf | ⟨body, numeric, hone, hpad⟩
        · exact Or.inl hf
        · exact Or.inr ⟨(body, numeric), hone, panics_bind.2 (Or.inl (printfPad_panics.2 hpad))⟩

/-- A specification with numbers that fit. -/
lemma printfSpec_eq (hwidth : specWidth cs < 2 ^ 64)
    (hprec : ∀ p ∈ precOf (behindWidth cs), p < 2 ^ 64) :
    printfSpec B H cs args = printfArg B H (flags (false, false) cs).1 (specWidth cs)
      (precOf (behindWidth cs)) (behindPrec (behindWidth cs)) args := by
  have hdigits : digitsFrom 0 (flags (false, false) cs).2 = .ok (specWidth cs, behindWidth cs) :=
    digitsFrom_eq hwidth
  unfold printfSpec
  dsimp only
  rw [hdigits, ok_bind]
  dsimp only
  rw [precision_eq hprec]
  rfl

lemma printfSpec_panics : Panics (printfSpec B H cs args) ↔ BadSpec B H cs args := by
  unfold BadSpec
  by_cases hwidth : 2 ^ 64 ≤ specWidth cs
  · exact iff_of_true (panics_bind.2 (Or.inl ((digitsFrom_panics (by norm_num)).2 hwidth))) (Or.inl hwidth)
  · rw [or_iff_right hwidth]
    by_cases hprec : ∃ p ∈ precOf (behindWidth cs), 2 ^ 64 ≤ p
    · refine iff_of_true (panics_bind.2 (Or.inr ⟨_, digitsFrom_eq (not_le.1 hwidth), ?_⟩)) (Or.inl hprec)
      exact panics_bind.2 (Or.inl (precision_panics.2 hprec))
    · rw [or_iff_right hprec, printfSpec_eq (not_le.1 hwidth) fun p hp => not_le.1 fun h => hprec ⟨p, hp, h⟩,
        printfArg_panics]

/-- What a specification leaves of the format is shorter. -/
lemma length_of_printfSpec {out : List Char} (h : printfSpec B H cs args = .ok (out, rest, as)) :
    rest.length < cs.length := by
  have hflags : ∀ (f : Bool × Bool) (cs : List Char), (flags f cs).2.length ≤ cs.length := by
    intro f cs
    induction cs generalizing f with
    | nil => rfl
    | cons c cs ih =>
      rw [flags]
      split_ifs
      · exact (ih _).trans (Nat.le_succ _)
      · exact (ih _).trans (Nat.le_succ _)
      · exact le_rfl
  have hdrop : ∀ cs : List Char, (cs.dropWhile isDigit).length ≤ cs.length := fun cs =>
    (List.dropWhile_sublist _).length_le
  have hprec : ∀ cs, (behindPrec cs).length ≤ cs.length := by
    intro cs
    unfold behindPrec
    split_ifs
    · exact (hdrop _).trans (List.length_tail ▸ Nat.sub_le _ _)
    · exact le_rfl
  have hbehind := (hprec (behindWidth cs)).trans ((hdrop (specText cs)).trans (hflags _ cs))
  have hgood : ¬ BadSpec B H cs args := fun hbad => by
    obtain ⟨e, he, -⟩ := printfSpec_panics.2 hbad
    rw [h] at he
    cases he
  have hwidth : specWidth cs < 2 ^ 64 := not_le.1 fun hbad => hgood (Or.inl hbad)
  have hprec' : ∀ p ∈ precOf (behindWidth cs), p < 2 ^ 64 := fun p hp =>
    not_le.1 fun hbad => hgood (Or.inr (Or.inl ⟨p, hp, hbad⟩))
  rw [printfSpec_eq hwidth hprec'] at h
  cases hrest : behindPrec (behindWidth cs) with
  | nil =>
    rw [hrest] at h
    cases h
  | cons conv rest' =>
    rw [hrest] at h hbehind
    cases args with
    | nil => cases h
    | cons arg args =>
      obtain ⟨one, -, h⟩ := bind_eq_ok.1 h
      obtain ⟨text, -, h⟩ := bind_eq_ok.1 h
      cases h
      exact hbehind

/-- The loop over a format comes to a specification, with the arguments that are left. -/
inductive Specs (B : Builtins) (H : Host) : List Char → List Value → List Char → List Value → Prop
  | here {cs : List Char} {args : List Value} (h : cs.head? ≠ some '%') : Specs B H ('%' :: cs) args cs args
  | char {c : Char} {fmt cs : List Char} {args as : List Value} (hc : c ≠ '%')
      (h : Specs B H fmt args cs as) : Specs B H (c :: fmt) args cs as
  | percent {fmt cs : List Char} {args as : List Value} (h : Specs B H fmt args cs as) :
      Specs B H ('%' :: '%' :: fmt) args cs as
  | later {spec out fmt cs : List Char} {args rest as : List Value} (hhead : spec.head? ≠ some '%')
      (hspec : printfSpec B H spec args = .ok (out, fmt, rest)) (h : Specs B H fmt rest cs as) :
      Specs B H ('%' :: spec) args cs as

/-- A format ends the process at the first specification that does. -/
lemma printfLoop_panics (hn : fmt.length ≤ n) : Panics (printfLoop B H n fmt args) ↔
    ∃ cs as, Specs B H fmt args cs as ∧ BadSpec B H cs as := by
  induction n generalizing fmt args with
  | zero =>
    rw [List.length_eq_zero_iff.1 (Nat.le_zero.1 hn)]
    refine iff_of_false (panics_ok _).1 ?_
    rintro ⟨cs, as, h, -⟩
    cases h
  | succ n ih =>
    cases fmt with
    | nil =>
      refine iff_of_false (panics_ok _).1 ?_
      rintro ⟨cs, as, h, -⟩
      cases h
    | cons c fmt =>
      have hlen : fmt.length ≤ n := Nat.le_of_succ_le_succ hn
      rw [printfLoop]
      by_cases hc : c = '%'
      · subst hc
        rw [if_neg (by decide)]
        by_cases hhead : fmt.head? = some '%'
        · obtain ⟨rest, rfl⟩ : ∃ rest, fmt = '%' :: rest := by
            cases fmt with
            | nil => cases hhead
            | cons d rest => exact ⟨rest, by rw [Option.some.inj hhead]⟩
          rw [if_pos hhead, panics_bind, List.tail_cons, ih (Nat.le_of_succ_le hlen)]
          simp only [panics_ok, and_false, exists_false, or_false]
          constructor
          · rintro ⟨cs, as, h, hbad⟩
            exact ⟨cs, as, .percent h, hbad⟩
          · rintro ⟨cs, as, h, hbad⟩
            cases h with
            | here h => exact absurd rfl h
            | char h => exact absurd rfl h
            | percent h => exact ⟨cs, as, h, hbad⟩
            | later h => exact absurd rfl h
        · rw [if_neg hhead, panics_bind, printfSpec_panics]
          constructor
          · rintro (hbad | ⟨⟨out, rest, args'⟩, hspec, h⟩)
            · exact ⟨fmt, args, .here hhead, hbad⟩
            · rcases panics_bind.1 h with h | ⟨text, -, h⟩
              · obtain ⟨cs, as, hlater, hbad⟩ := (ih ((length_of_printfSpec hspec).le.trans hlen)).1 h
                exact ⟨cs, as, .later hhead hspec hlater, hbad⟩
              · exact absurd h (panics_ok _).1
          · rintro ⟨cs, as, h, hbad⟩
            cases h with
            | here h => exact Or.inl hbad
            | char h => exact absurd rfl h
            | percent h => exact absurd rfl hhead
            | later h hspec hlater =>
              refine Or.inr ⟨_, hspec, panics_bind.2 (Or.inl ?_)⟩
              exact (ih ((length_of_printfSpec hspec).le.trans hlen)).2 ⟨cs, as, hlater, hbad⟩
      · rw [if_pos hc, panics_bind, ih hlen]
        simp only [panics_ok, and_false, exists_false, or_false]
        constructor
        · rintro ⟨cs, as, h, hbad⟩
          exact ⟨cs, as, .char hc h, hbad⟩
        · rintro ⟨cs, as, h, hbad⟩
          cases h with
          | here h => exact absurd rfl hc
          | char _ h => exact ⟨cs, as, h, hbad⟩
          | percent h => exact absurd rfl hc
          | later h => exact absurd rfl hc

/-- A call of `printf` that ends the process. -/
def BadPrintf (B : Builtins) (H : Host) (args : List Value) : Prop := ∃ fmt rest f cs as,
  args = fmt :: rest ∧ fmt ≠ .null ∧ valueText H.text fmt = some f ∧ Specs B H f.toList rest cs as ∧
    BadSpec B H cs as

lemma printfFn_panics : Panics (printfFn B H lname args) ↔ BadPrintf B H args := by
  unfold BadPrintf
  cases args with
  | nil => simp [printfFn, badArity]
  | cons fmt rest =>
    by_cases hnull : fmt = .null
    · subst hnull
      refine iff_of_false (panics_ok _).1 ?_
      rintro ⟨fmt, rest', f, cs, as, heq, hne, -⟩
      cases heq
      exact hne rfl
    · have hfn : printfFn B H lname (fmt :: rest) = textArg H lname fmt >>= fun f =>
          sqlPrintf B H f rest >>= fun s => .ok (.text s) := by
        cases fmt with
        | null => exact absurd rfl hnull
        | _ => rfl
      rw [hfn, panics_bind, or_iff_right textArg_quiet]
      constructor
      · rintro ⟨f, hf, h⟩
        have htext : valueText H.text fmt = some f := okOr_eq_ok.1 hf
        rcases panics_bind.1 h with h | ⟨s, -, h⟩
        · rcases panics_bind.1 h with h | ⟨out, -, h⟩
          · obtain ⟨cs, as, hspecs, hbad⟩ := (printfLoop_panics le_rfl).1 h
            exact ⟨fmt, rest, f, cs, as, rfl, hnull, htext, hspecs, hbad⟩
          · exact absurd h (panics_ok _).1
        · exact absurd h (panics_ok _).1
      · rintro ⟨fmt', rest', f, cs, as, heq, -, htext, hspecs, hbad⟩
        cases heq
        refine ⟨f, okOr_eq_ok.2 htext, panics_bind.2 (Or.inl (panics_bind.2 (Or.inl ?_)))⟩
        exact (printfLoop_panics le_rfl).2 ⟨cs, as, hspecs, hbad⟩

end Printf

/-! ### Vectors -/

section Vectors
variable {H : Host} {a b : Bytes} {d i : ℕ} {fmt : VecFmt} {lname : String} {args : List Value}

/-- The payload has as many components as its header says. -/
def VecFmt.Has (d : ℕ) : VecFmt → Prop
  | .f32 b => d * 4 ≤ b.length
  | .i8 _ q => d ≤ q.length

lemma f32At_eq (h : i + 4 ≤ b.length) : ∃ x, f32At b i = .ok x := by
  rw [f32At, index_ok (by omega), ok_bind, index_ok (by omega), ok_bind, index_ok (by omega), ok_bind,
    index_ok (by omega), ok_bind]
  exact ⟨_, rfl⟩

lemma parseFmt_cases (b : Bytes) :
    (∃ d fmt, parseFmt b = .ok (d, fmt) ∧ fmt.Has d) ∨ ∃ msg, parseFmt b = .error (.invalidInput msg) := by
  cases b with
  | nil => exact Or.inr ⟨_, rfl⟩
  | cons tag rest =>
    rw [parseFmt]
    split
    · split
      · exact Or.inr ⟨_, rfl⟩
      · exact Or.inl ⟨_, _, rfl, Nat.div_mul_le_self _ _⟩
    · split
      · split
        · exact Or.inr ⟨_, rfl⟩
        · next hlen =>
          obtain ⟨scale, hscale⟩ := f32At_eq (b := rest.take 4) (i := 0)
            (by rw [List.length_take]; omega)
          rw [hscale, ok_bind, Fts.checkedSub, if_pos (not_lt.1 hlen), ok_bind,
            slice_ok (not_lt.1 hlen) le_rfl]
          refine Or.inl ⟨_, _, rfl, ?_⟩
          rw [VecFmt.Has, List.length_drop, List.take_length]
      · exact Or.inr ⟨_, rfl⟩

lemma at_eq (h : fmt.Has d) (hi : i < d) : ∃ x, fmt.at H i = .ok x := by
  cases fmt with
  | f32 b =>
    rw [VecFmt.Has] at h
    exact f32At_eq (by omega)
  | i8 scale q =>
    rw [VecFmt.Has] at h
    rw [VecFmt.at, index_ok (hi.trans_le h)]
    exact ⟨_, rfl⟩

lemma vecPairs_quiet : ¬ Panics (vecPairs H a b) := by
  unfold vecPairs
  rcases parseFmt_cases a with ⟨da, fa, ha, hfa⟩ | ⟨msg, ha⟩
  · rcases parseFmt_cases b with ⟨db, fb, hb, hfb⟩ | ⟨msg, hb⟩
    · rw [ha, hb, ok_bind]
      dsimp only
      rw [ok_bind]
      dsimp only
      by_cases hdim : da = db
      · rw [require_pos hdim, ok_bind, panics_mapM]
        rintro ⟨before, i, after, hsplit, -, hpanics⟩
        have hi : i < da := List.mem_range.1 (hsplit ▸ List.mem_append_right _ List.mem_cons_self)
        obtain ⟨x, hx⟩ := at_eq (H := H) hfa hi
        obtain ⟨y, hy⟩ := at_eq (H := H) hfb (hdim ▸ hi)
        rw [hx, hy] at hpanics
        exact (panics_ok _).1 hpanics
      · rw [require, if_neg hdim]
        simp
    · rw [ha, hb]
      simp
  · rw [ha]
    simp

lemma distanceFn_quiet : ¬ Panics (distanceFn H lname args) := by
  unfold distanceFn
  split
  · simp
  · simp
  · exact not_panics_bind vecPairs_quiet fun pairs => by simp
  · simp
  · simp [badArity]

end Vectors

/-! ### All functions -/

section Call
variable {B : Builtins} {H : Host} {name : String} {args : List Value}

/-- A call that ends the process. -/
def BadCall (B : Builtins) (H : Host) (name : String) (args : List Value) : Prop :=
  (asciiLower name = "substr" ∨ asciiLower name = "substring") ∧ BadSubstr args ∨
    asciiLower name = "instr" ∧ BadInstr args ∨
    (asciiLower name = "printf" ∨ asciiLower name = "format") ∧ BadPrintf B H args

lemma not_panics_ite {α : Type} {p : Prop} [Decidable p] {x y : Result α} (hx : p → ¬ Panics x)
    (hy : ¬ Panics y) : ¬ Panics (if p then x else y) := by
  split_ifs with hp
  · exact hx hp
  · exact hy

/-- The other functions give a value or an error. -/
lemma callFunction_quiet (hsubstr : ¬ (asciiLower name = "substr" ∨ asciiLower name = "substring"))
    (hinstr : asciiLower name ≠ "instr")
    (hprintf : ¬ (asciiLower name = "printf" ∨ asciiLower name = "format")) :
    ¬ Panics (callFunction B H name args) := by
  unfold callFunction
  dsimp only
  refine not_panics_ite (fun _ => caseFn_quiet) ?_
  refine not_panics_ite (fun _ => lengthFn_quiet) ?_
  refine not_panics_ite (fun _ => trimFn_quiet) ?_
  refine not_panics_ite (fun _ => absFn_quiet) ?_
  refine not_panics_ite (fun _ => roundFn_quiet) ?_
  refine not_panics_ite (fun _ => coalesceFn_quiet) ?_
  refine not_panics_ite (fun _ => ifnullFn_quiet) ?_
  refine not_panics_ite (fun _ => typeofFn_quiet) ?_
  rw [if_neg hsubstr]
  refine not_panics_ite (fun _ => nullifFn_quiet) ?_
  refine not_panics_ite (fun _ => replaceFn_quiet) ?_
  rw [if_neg hinstr]
  refine not_panics_ite (fun _ => reverseFn_quiet) ?_
  refine not_panics_ite (fun _ => hexFn_quiet) ?_
  refine not_panics_ite (fun _ => ceilFn_quiet) ?_
  refine not_panics_ite (fun _ => sqrtFn_quiet) ?_
  refine not_panics_ite (fun _ => math2Fn_quiet) ?_
  refine not_panics_ite (fun _ => modFn_quiet) ?_
  refine not_panics_ite (fun _ => signFn_quiet) ?_
  refine not_panics_ite (fun _ => randomFn_quiet) ?_
  refine not_panics_ite (fun _ => piFn_quiet) ?_
  refine not_panics_ite (fun h => mathFn_quiet h) ?_
  refine not_panics_ite (fun _ => logFn_quiet) ?_
  refine not_panics_ite (fun _ => math2Fn_quiet) ?_
  refine not_panics_ite (fun _ => bestFn_quiet) ?_
  refine not_panics_ite (fun _ => concatFn_quiet) ?_
  refine not_panics_ite (fun _ => concatWsFn_quiet) ?_
  refine not_panics_ite (fun _ => padFn_quiet) ?_
  refine not_panics_ite (fun _ => unicodeFn_quiet) ?_
  refine not_panics_ite (fun _ => charFn_quiet) ?_
  refine not_panics_ite (fun _ => quoteFn_quiet) ?_
  refine not_panics_ite (fun _ => globFn_quiet) ?_
  rw [if_neg hprintf]
  refine not_panics_ite (fun _ => instantFn_quiet) ?_
  refine not_panics_ite (fun _ => instantFn_quiet) ?_
  refine not_panics_ite (fun _ => jsonFn_quiet) ?_
  refine not_panics_ite (fun _ => jsonValidFn_quiet) ?_
  refine not_panics_ite (fun _ => atPath_quiet) ?_
  refine not_panics_ite (fun _ => jsonExtractFn_quiet) ?_
  refine not_panics_ite (fun _ => atPath_quiet) ?_
  refine not_panics_ite (fun _ => jsonObject_quiet) ?_
  refine not_panics_ite (fun _ => jsonArray_quiet) ?_
  refine not_panics_ite (fun _ => jsonQuote_quiet) ?_
  refine not_panics_ite (fun _ => nowFn_quiet) ?_
  refine not_panics_ite (fun _ => fmtTime_quiet) ?_
  refine not_panics_ite (fun _ => fmtTime_quiet) ?_
  refine not_panics_ite (fun _ => fmtTime_quiet) ?_
  refine not_panics_ite (fun _ => strftimeFn_quiet) ?_
  refine not_panics_ite (fun _ => vectorFn_quiet) ?_
  refine not_panics_ite (fun _ => distanceFn_quiet) ?_
  simp

lemma callFunction_panics : Panics (callFunction B H name args) ↔ BadCall B H name args := by
  unfold BadCall
  by_cases hsubstr : asciiLower name = "substr" ∨ asciiLower name = "substring"
  · rcases hsubstr with h | h <;> simp [callFunction, h, substrFn_panics]
  by_cases hinstr : asciiLower name = "instr"
  · simp [callFunction, hinstr, instrFn_panics]
  by_cases hprintf : asciiLower name = "printf" ∨ asciiLower name = "format"
  · rcases hprintf with h | h <;> simp [callFunction, h, MATH_NAMES, printfFn_panics]
  refine iff_of_false (callFunction_quiet hsubstr hinstr hprintf) ?_
  rintro (⟨h, -⟩ | ⟨h, -⟩ | ⟨h, -⟩)
  · exact hsubstr h
  · exact hinstr h
  · exact hprintf h

end Call

end Arkeion.Sql.Scalar
