import Arkeion.Lib.FoldOrder
import Arkeion.Lib.Grouping
import Arkeion.Sql.Distinct
import Arkeion.Sql.WindowExact

/-!
Aggregates of the same values in another order.

A count is the same. A sum is if no order leaves the range of an integer, or all do; the smallest
and the greatest value are if one value comes strictly before all that differ from it.
-/

namespace Arkeion.Sql

open Arkeion.Lib Catalog

/-! ### Answers that agree -/

/-- The answers are the same, or both fail. -/
def Agree {α : Type} (x y : Result α) : Prop := x = y ∨ (∃ e, x = .error e) ∧ ∃ e, y = .error e

namespace Agree
variable {α β : Type} {x y : Result α} {f g : α → Result β}

lemma self (x : Result α) : Agree x x := Or.inl rfl

lemma fail {e e' : Error} : Agree (.error e : Result α) (.error e') := Or.inr ⟨⟨e, rfl⟩, ⟨e', rfl⟩⟩

lemma ok_iff (h : Agree x y) {a : α} : x = .ok a ↔ y = .ok a := by
  rcases h with rfl | ⟨⟨e, rfl⟩, ⟨e', rfl⟩⟩
  · exact Iff.rfl
  · simp

lemma of_ok_iff (h : ∀ a, x = .ok a ↔ y = .ok a) : Agree x y := by
  cases x with
  | ok a => exact Or.inl ((h a).1 rfl).symm
  | error e =>
    cases y with
    | ok a => cases (h a).2 rfl
    | error e' => exact fail

lemma bind (h : Agree x y) (hf : ∀ a, x = .ok a → Agree (f a) (g a)) : Agree (x >>= f) (y >>= g) := by
  rcases h with rfl | ⟨⟨e, rfl⟩, ⟨e', rfl⟩⟩
  · cases x with
    | ok a => exact hf a rfl
    | error e => exact self _
  · exact fail

lemma mapM {γ : Type} {l : List γ} {f g : γ → Result α} (h : ∀ c ∈ l, Agree (f c) (g c)) :
    Agree (l.mapM f) (l.mapM g) := by
  refine of_ok_iff fun out => ?_
  rw [mapM_eq_ok, mapM_eq_ok, List.forall₂_iff_zip, List.forall₂_iff_zip]
  refine and_congr_right fun _ => forall₂_congr fun c a => forall_congr' fun hin => ?_
  exact (h c (List.of_mem_zip hin).1).ok_iff

end Agree

/-! ### The values of an aggregate -/

section Thin
variable {B : Builtins} {vs vs' : List Value} {v : Value} {d : Bool} {w : Ordering}

/-- The values an aggregate looks at. -/
def thin (distinct : Bool) (vs : List Value) : List Value := if distinct then dedupValues vs else vs

lemma thin_sublist : (thin d vs).Sublist vs := by
  unfold thin
  split_ifs
  · exact firsts_sublist
  · exact List.Sublist.refl vs

/-- Every value is looked at, or one that is the same. -/
lemma mem_thin (h : v ∈ vs) : ∃ o ∈ thin d vs, o = v ∨ Value.same o v = true := by
  unfold thin
  split_ifs
  · rcases mem_firsts (r := Value.same) h with hin | ⟨o, ho, hsame⟩
    · exact ⟨v, hin, Or.inl rfl⟩
    · exact ⟨o, ho, Or.inr hsame⟩
  · exact ⟨v, h, Or.inl rfl⟩

lemma thin_cons (d : Bool) (v : Value) (vs : List Value) : ∃ kept, thin d (v :: vs) = v :: kept ∧ kept.Sublist vs := by
  unfold thin
  split_ifs
  · exact ⟨_, firsts_cons, firsts_sublist.trans List.filter_sublist⟩
  · exact ⟨vs, rfl, List.Sublist.refl vs⟩

lemma length_thin_perm (h : vs'.Perm vs) : (thin d vs').length = (thin d vs).length := by
  unfold thin
  split_ifs
  · exact length_firsts_perm (r := Value.same) value_same_symm value_same_trans h
  · exact h.length_eq

end Thin

/-! ### The smallest and the greatest -/

section Extreme
variable {B : Builtins} {vs vs' : List Value} {a b v : Value} {d : Bool} {w : Ordering}

/-- `MIN` or `MAX`. -/
def extreme (B : Builtins) (w : Ordering) (vs : List Value) : Result Value := do
  let best ← vs.foldlM (bestStep B w) none
  .ok (best.getD .null)

/-- The first value comes strictly before the second, in the order that is wanted. -/
def beats (B : Builtins) (w : Ordering) (a b : Value) : Bool :=
  decide ((cmpValues B a b).toOption = some (some w))

/-- All values can be compared. -/
def OneKind (vs : List Value) : Prop := ∀ a ∈ vs, ∀ b ∈ vs, kindOf a = kindOf b

lemma cmpValues_kind (ha : a ≠ .null) (hb : b ≠ .null) :
    (∃ o, cmpValues B a b = .ok o) ↔ kindOf a = kindOf b := by
  cases a <;> cases b <;> first | contradiction | simp [cmpValues, kindOf]

lemma beats_iff : beats B w a b = true ↔ cmpValues B a b = .ok (some w) := by
  rw [beats, decide_eq_true_iff, toOption_eq_some]

lemma partialCmp_lt_swap {x y : F64} {o : Ordering} (h : x.partialCmp y = some o) :
    y.partialCmp x = some o.swap := by
  unfold F64.partialCmp at h ⊢
  split_ifs at h with hnan
  rw [if_neg fun h => hnan h.symm, ← Option.some.inj h]
  exact congrArg some Std.OrientedCmp.eq_swap

lemma cmpValues_swap {o : Ordering} (h : cmpValues B a b = .ok (some o)) :
    cmpValues B b a = .ok (some o.swap) := by
  cases a <;> cases b <;> simp only [cmpValues, Except.ok.injEq, Option.some.injEq, reduceCtorEq]
    at h ⊢ <;>
  first
    | exact partialCmp_lt_swap h
    | (rw [← h]; exact Std.OrientedCmp.eq_swap)

lemma beats_asymm (hw : w ≠ .eq) (h : beats B w a b = true) : ¬ beats B w b a = true := by
  intro h'
  have hswap := cmpValues_swap (beats_iff.1 h)
  rw [beats_iff.1 h', Except.ok.injEq, Option.some.injEq] at hswap
  cases w with
  | eq => exact hw rfl
  | lt => cases hswap
  | gt => cases hswap

/-- Values that can all be compared with the first. -/
lemma bestFold_ok (hb : b ≠ .null) (hnull : ∀ v ∈ vs, v ≠ .null)
    (h : ∀ v ∈ vs, kindOf v = kindOf b) :
    vs.foldlM (bestStep B w) (some b) = .ok (some (bestOf (beats B w) b vs)) := by
  induction vs generalizing b with
  | nil => rfl
  | cons v vs ih =>
    have hv := hnull v List.mem_cons_self
    obtain ⟨o, ho⟩ := (cmpValues_kind (B := B) hv hb).2 (h v List.mem_cons_self)
    have hbeats : beats B w v b = decide (o = some w) := by
      rw [beats, ho]
      exact decide_eq_decide.2 Option.some_inj
    have hstep : bestStep B w (some b) v = .ok (some (if beats B w v b then v else b)) := by
      rw [bestStep, ho, ok_bind, hbeats]
      simp only [decide_eq_true_eq]
    rw [List.foldlM_cons, hstep, ok_bind, bestOf, List.foldl_cons]
    have hkind : kindOf (if beats B w v b then v else b) = kindOf b := by
      split_ifs
      · exact h v List.mem_cons_self
      · rfl
    refine ih ?_ (fun u hu => hnull u (List.mem_cons_of_mem v hu)) fun u hu => ?_
    · split_ifs
      · exact hv
      · exact hb
    · rw [hkind]
      exact h u (List.mem_cons_of_mem v hu)

/-- And values that cannot. -/
lemma bestFold_error (hb : b ≠ .null) (hnull : ∀ v ∈ vs, v ≠ .null)
    (h : ¬ ∀ v ∈ vs, kindOf v = kindOf b) :
    ∃ e, vs.foldlM (bestStep B w) (some b) = .error e := by
  induction vs generalizing b with
  | nil => exact absurd (fun v hv => by cases hv) h
  | cons v vs ih =>
    have hv := hnull v List.mem_cons_self
    rw [List.foldlM_cons, bestStep]
    cases hcmp : cmpValues B v b with
    | error e => exact ⟨e, rfl⟩
    | ok o =>
      have hkind := (cmpValues_kind hv hb).1 ⟨o, hcmp⟩
      rw [ok_bind, ok_bind]
      refine ih ?_ (fun u hu => hnull u (List.mem_cons_of_mem v hu)) fun hall => h ?_
      · split_ifs
        · exact hv
        · exact hb
      · intro u hu
        rcases List.mem_cons.1 hu with rfl | hu
        · exact hkind
        · rw [hall u hu]
          split_ifs
          · exact hkind
          · rfl

lemma extreme_cons : extreme B w (v :: vs)
    = vs.foldlM (bestStep B w) (some v) >>= fun best => .ok (best.getD .null) := rfl

lemma extreme_ok (hnull : ∀ u ∈ v :: vs, u ≠ .null) (h : OneKind (v :: vs)) :
    extreme B w (v :: vs) = .ok (bestOf (beats B w) v vs) := by
  rw [extreme_cons, bestFold_ok (hnull v List.mem_cons_self)
    (fun u hu => hnull u (List.mem_cons_of_mem v hu))
    fun u hu => h u (List.mem_cons_of_mem v hu) v List.mem_cons_self]
  rfl

lemma extreme_error (hnull : ∀ v ∈ vs, v ≠ .null) (h : ¬ OneKind vs) :
    ∃ e, extreme B w vs = .error e := by
  cases vs with
  | nil => exact absurd (fun a ha => by cases ha) h
  | cons v vs =>
    have hdiffer : ¬ ∀ u ∈ vs, kindOf u = kindOf v := fun hall => h fun a ha b hb => by
      have hkind {c : Value} (hc : c ∈ v :: vs) : kindOf c = kindOf v := by
        rcases List.mem_cons.1 hc with rfl | hc
        · rfl
        · exact hall c hc
      rw [hkind ha, hkind hb]
    obtain ⟨e, he⟩ : ∃ e, vs.foldlM (bestStep B w) (some v) = .error e :=
      bestFold_error (hnull v List.mem_cons_self)
        (fun u hu => hnull u (List.mem_cons_of_mem v hu)) hdiffer
    rw [extreme_cons, he]
    exact ⟨e, rfl⟩

lemma OneKind.subset (h : OneKind vs) (hsub : vs' ⊆ vs) : OneKind vs' :=
  fun a ha b hb => h a (hsub ha) b (hsub hb)

lemma same_kind (h : Value.same a b = true) : kindOf a = kindOf b := by
  rcases value_same_iff.1 h with ⟨x, y, rfl, rfl, -⟩ | ⟨rfl, -⟩
  · rfl
  · rfl

lemma oneKind_of_thin (h : OneKind (thin d vs)) : OneKind vs := by
  have hkind {v : Value} (hv : v ∈ vs) : ∃ o ∈ thin d vs, kindOf o = kindOf v := by
    obtain ⟨o, ho, rfl | hsame⟩ := mem_thin (d := d) hv
    · exact ⟨o, ho, rfl⟩
    · exact ⟨o, ho, same_kind hsame⟩
  intro a ha b hb
  obtain ⟨o, ho, hoa⟩ := hkind ha
  obtain ⟨o', ho', hob⟩ := hkind hb
  rw [← hoa, ← hob]
  exact h o ho o' ho'

/-- Nothing is to be compared, or something cannot be, or one value beats all that differ. -/
def ExtremeSettled (B : Builtins) (w : Ordering) (vs : List Value) : Prop :=
  vs = [] ∨ ¬ OneKind vs ∨ ∃ m, Champion (beats B w) m vs

lemma champion_oneKind {m : Value} (hnull : ∀ v ∈ vs, v ≠ .null) (h : Champion (beats B w) m vs) :
    OneKind vs := by
  have hkind {v : Value} (hv : v ∈ vs) : kindOf m = kindOf v := by
    by_cases heq : v = m
    · rw [heq]
    · exact (cmpValues_kind (hnull m h.1) (hnull v hv)).1 ⟨_, beats_iff.1 (h.2 v hv heq)⟩
  intro a ha b hb
  rw [← hkind ha, hkind hb]

lemma champion_thin {m : Value} (hw : w ≠ .eq) (hnull : ∀ v ∈ vs, v ≠ .null)
    (h : Champion (beats B w) m vs) : Champion (beats B w) m (thin d vs) := by
  refine ⟨?_, fun x hx => h.2 x (thin_sublist.subset hx)⟩
  obtain ⟨o, ho, rfl | hsame⟩ := mem_thin (d := d) h.1
  · exact ho
  · by_cases heq : o = m
    · rwa [← heq]
    · have hbeats := beats_iff.1 (h.2 o (thin_sublist.subset ho) heq)
      rcases valuesEqual_of_same (B := B) (value_same_symm hsame) with ⟨hm, -⟩ | hequal
      · exact absurd hm (hnull m h.1)
      · rw [hequal, Except.ok.injEq, Option.some.injEq] at hbeats
        exact absurd hbeats.symm hw

/-- The extreme value is one in every order exactly in these cases, with `DISTINCT` or without. -/
lemma extreme_orders_iff (hw : w ≠ .eq) (hnull : ∀ v ∈ vs, v ≠ .null) :
    (∀ vs', vs'.Perm vs → Agree (extreme B w (thin d vs')) (extreme B w (thin d vs)))
      ↔ ExtremeSettled B w vs := by
  constructor
  · intro h
    by_cases hnil : vs = []
    · exact Or.inl hnil
    by_cases hkind : OneKind vs
    · refine Or.inr (Or.inr ?_)
      have hone {b : Value} {l : List Value} (hperm : (b :: l).Perm vs) :
          ∃ kept, kept.Sublist l ∧
            extreme B w (thin d (b :: l)) = .ok (bestOf (beats B w) b kept) := by
        obtain ⟨kept, hthin, hkept⟩ := thin_cons d b l
        have hsub : b :: kept ⊆ vs := fun v hv => hperm.subset ((hkept.cons_cons b).subset hv)
        refine ⟨kept, hkept, ?_⟩
        rw [hthin]
        exact extreme_ok (fun u hu => hnull u (hsub hu)) (hkind.subset hsub)
      cases hvs : vs with
      | nil => exact absurd hvs hnil
      | cons v rest =>
        obtain ⟨kept, -, hbest⟩ := hone (b := v) (l := rest) (by rw [hvs])
        rw [← hvs] at hbest ⊢
        refine ⟨bestOf (beats B w) v kept, champion_of_best hnil fun b l hperm => ?_⟩
        obtain ⟨kept', hkept', hbest'⟩ := hone hperm
        have hagree := (h (b :: l) hperm).ok_iff.1 hbest'
        rw [hbest, Except.ok.injEq] at hagree
        exact ⟨kept', hkept', hagree.symm⟩
    · exact Or.inr (Or.inl hkind)
  · intro h vs' hperm
    rcases h with hnil | hkind | ⟨m, hm⟩
    · rw [hnil] at hperm ⊢
      rw [List.perm_nil.1 hperm]
      exact Agree.self _
    · have hfail {us : List Value} (hus : us.Perm vs) : ∃ e, extreme B w (thin d us) = .error e :=
        extreme_error (fun v hv => hnull v (hus.subset (thin_sublist.subset hv))) fun h =>
          hkind ((oneKind_of_thin h).subset hus.symm.subset)
      exact Or.inr ⟨hfail hperm, hfail (List.Perm.refl vs)⟩
    · have hbest {us : List Value} (hus : us.Perm vs) : extreme B w (thin d us) = .ok m := by
        have hnull' : ∀ v ∈ us, v ≠ .null := fun v hv => hnull v (hus.subset hv)
        have hm' : Champion (beats B w) m us :=
          ⟨hus.symm.subset hm.1, fun x hx => hm.2 x (hus.subset hx)⟩
        have hthin := champion_thin (d := d) hw hnull' hm'
        have hthin_null : ∀ v ∈ thin d us, v ≠ .null := fun v hv =>
          hnull' v (thin_sublist.subset hv)
        cases hc : thin d us with
        | nil =>
          rw [hc] at hthin
          cases hthin.1
        | cons v rest =>
          rw [hc] at hthin hthin_null
          rw [extreme_ok hthin_null (champion_oneKind hthin_null hthin),
            bestOf_champion (fun h => beats_asymm hw h) hthin]
      rw [hbest hperm, hbest (List.Perm.refl vs)]
      exact Agree.self _

end Extreme

/-! ### Sums -/

section Sums
variable {B : Builtins} {vs vs' : List Value} {ns ms : List Int64} {d : Bool}

/-- `SUM`. -/
def sumAll (B : Builtins) (vs : List Value) : Result Value := do
  let s ← vs.foldlM (sumStep B) (.integer 0)
  .ok (if vs.isEmpty then .null else s)

def integers (ns : List Int64) : List Value := ns.map .integer

def integer? : Value → Option Int64
  | .integer n => some n
  | _ => none

def InRange (ns : List Int64) : Prop := -2 ^ 63 ≤ sumOf ns ∧ sumOf ns < 2 ^ 63

/-- The integers have no sum in the range, or those above zero have one, and those below. -/
def SumSettled (ns : List Int64) : Prop :=
  ¬ InRange ns ∨ -2 ^ 63 ≤ losses (ns.map Int64.toInt) ∧ gains (ns.map Int64.toInt) < 2 ^ 63

lemma integers_number (ns : List Int64) : ∀ v ∈ integers ns, kindOf v = some .number := by
  intro v hv
  obtain ⟨n, -, rfl⟩ := List.mem_map.1 hv
  rfl

lemma leading_integers (ns : List Int64) : leading (integers ns) = ns ∧ behind (integers ns) = [] := by
  induction ns with
  | nil => exact ⟨rfl, rfl⟩
  | cons n ns ih => exact ⟨congrArg (n :: ·) ih.1, ih.2⟩

lemma fits_iff : Fits 0 ns ↔ SumsIn (-2 ^ 63) (2 ^ 63) (ns.map Int64.toInt) := by
  unfold Fits SumsIn sumOf
  simp only [List.length_map, List.map_take, zero_add]

/-- The sum of integers, if the partial sums stay in the range. -/
def sumValue (ns : List Int64) : Value :=
  if ns = [] then .null else .integer (Int64.ofInt (sumOf ns))

lemma sumAll_fits (h : Fits 0 ns) : sumAll B (integers ns) = .ok (sumValue ns) := by
  obtain ⟨hlead, hbehind⟩ := leading_integers ns
  have hsum := sum_fits (B := B) (integers_number ns) 0 (by rwa [hlead])
  rw [hlead, hbehind, if_pos rfl, Int64.toInt_zero, zero_add] at hsum
  rw [sumAll, hsum, sumValue]
  cases ns <;> rfl

lemma sumAll_overflows (h : ¬ Fits 0 ns) : ∃ e, sumAll B (integers ns) = .error e := by
  have hsum := sum_overflows (B := B) (integers_number ns) 0 (by rwa [(leading_integers ns).1])
  exact ⟨_, by rw [sumAll, hsum]; rfl⟩

/-- A value that is not a number fails wherever it stands. -/
lemma sumFold_error {acc : Value} (hacc : kindOf acc = some .number)
    (h : ∃ v ∈ vs, kindOf v ≠ some .number) : ∃ e, vs.foldlM (sumStep B) acc = .error e := by
  induction vs generalizing acc with
  | nil =>
    obtain ⟨v, hv, -⟩ := h
    cases hv
  | cons v vs ih =>
    rw [List.foldlM_cons]
    by_cases hv : kindOf v = some .number
    · obtain ⟨u, hu, hkind⟩ := h
      have hrest : ∃ u ∈ vs, kindOf u ≠ some .number := by
        rcases List.mem_cons.1 hu with rfl | hu
        · exact absurd hv hkind
        · exact ⟨u, hu, hkind⟩
      cases hstep : sumStep B acc v with
      | error e => exact ⟨e, rfl⟩
      | ok acc' =>
        refine ih ?_ hrest
        rcases number_cases hacc with ⟨s, rfl⟩ | ⟨x, rfl⟩ <;>
          rcases number_cases hv with ⟨n, rfl⟩ | ⟨y, rfl⟩ <;> simp only [sumStep] at hstep
        · split_ifs at hstep
          cases hstep
          rfl
        all_goals
          cases hstep
          rfl
    · rcases number_cases hacc with ⟨s, rfl⟩ | ⟨x, rfl⟩ <;> cases v <;>
        first | exact absurd rfl hv | exact ⟨_, rfl⟩

/-- A list of integers in the order of another one. -/
lemma exists_integers {l : List ℤ} (h : l.Perm (ms.map Int64.toInt)) :
    ∃ ns : List Int64, ns.Perm ms ∧ ns.map Int64.toInt = l := by
  refine ⟨l.map Int64.ofInt, ?_, ?_⟩
  · have hid : (ms.map Int64.toInt).map Int64.ofInt = ms := by
      rw [List.map_map]
      exact (List.map_congr_left fun n _ => Int64.ofInt_toInt n).trans (List.map_id ms)
    exact hid ▸ h.map Int64.ofInt
  · rw [List.map_map]
    refine (List.map_congr_left fun a ha => ?_).trans (List.map_id l)
    obtain ⟨n, -, rfl⟩ := List.mem_map.1 (h.subset ha)
    change (Int64.ofInt n.toInt).toInt = n.toInt
    rw [Int64.ofInt_toInt]

lemma sumOf_perm (h : ns.Perm ms) : sumOf ns = sumOf ms := (h.map Int64.toInt).sum_eq

lemma not_fits (h : ¬ InRange ns) : ¬ Fits 0 ns := fun hfits => h (by
  have hall := hfits ns.length le_rfl
  rwa [List.take_length, zero_add] at hall)

/-- Every order stays in the range, if the integers above zero and those below do. -/
lemma fits_orders : (∀ ns, ns.Perm ms → Fits 0 ns)
    ↔ -2 ^ 63 ≤ losses (ms.map Int64.toInt) ∧ gains (ms.map Int64.toInt) < 2 ^ 63 := by
  rw [← sumsIn_orders_iff]
  constructor
  · intro h l hl
    obtain ⟨ns, hns, rfl⟩ := exists_integers hl
    exact fits_iff.1 (h ns hns)
  · intro h ns hns
    exact fits_iff.2 (h _ (hns.map Int64.toInt))

lemma exists_fits (h : InRange ms) : ∃ ns, ns.Perm ms ∧ Fits 0 ns := by
  obtain ⟨l, hl, hin⟩ : ∃ l, l.Perm (ms.map Int64.toInt) ∧ SumsIn (-2 ^ 63 - 0) (2 ^ 63 - 0) l :=
    exists_sumsIn (by norm_num) (fun a ha => by
      obtain ⟨n, -, rfl⟩ := List.mem_map.1 ha
      exact toInt_range n) 0 (by norm_num) (by rwa [zero_add])
  obtain ⟨ns, hns, rfl⟩ := exists_integers hl
  rw [sub_zero, sub_zero] at hin
  exact ⟨ns, hns, fits_iff.2 hin⟩

/-- The sum is one in every order exactly if it is settled. -/
lemma sum_integers_iff : (∀ ns, ns.Perm ms → Agree (sumAll B (integers ns)) (sumAll B (integers ms)))
    ↔ SumSettled ms := by
  constructor
  · intro h
    by_cases hin : InRange ms
    · obtain ⟨ns, hns, hfits⟩ := exists_fits hin
      have hms := (h ns hns).ok_iff.1 (sumAll_fits hfits)
      refine Or.inr (fits_orders.1 fun ns' hns' => ?_)
      by_contra hover
      obtain ⟨e, he⟩ := sumAll_overflows (B := B) hover
      have hok := (h ns' hns').ok_iff.2 hms
      rw [he] at hok
      cases hok
    · exact Or.inl hin
  · rintro (hout | hall) ns hns
    · have hfail {ns' : List Int64} (h : ns'.Perm ms) : ∃ e, sumAll B (integers ns') = .error e := by
        refine sumAll_overflows (not_fits ?_)
        unfold InRange at hout ⊢
        rwa [sumOf_perm h]
      exact Or.inr ⟨hfail hns, hfail (List.Perm.refl ms)⟩
    · have hfits := fits_orders.2 hall
      rw [sumAll_fits (hfits ns hns), sumAll_fits (hfits ms (List.Perm.refl ms))]
      refine Or.inl (congrArg Except.ok ?_)
      have hnil : ns = [] ↔ ms = [] := ⟨fun h => by rwa [h, List.nil_perm] at hns,
        fun h => by rwa [h, List.perm_nil] at hns⟩
      simp only [sumValue, hnil, sumOf_perm hns]

/-- A sum in the range is the answer in every order exactly if it is settled. -/
lemma sum_exact_iff : (∀ ns, ns.Perm ms → InRange ms → sumAll B (integers ns) = .ok (sumValue ms))
    ↔ SumSettled ms := by
  rw [← sum_integers_iff (B := B)]
  constructor
  · intro h
    by_cases hin : InRange ms
    · intro ns hns
      rw [h ns hns hin, h ms (List.Perm.refl ms) hin]
      exact Agree.self _
    · exact sum_integers_iff.2 (Or.inl hin)
  · intro h ns hns hin
    obtain ⟨ns', hns', hfits⟩ := exists_fits hin
    have hvalue : sumValue ns' = sumValue ms := by
      have hnil : ns' = [] ↔ ms = [] := ⟨fun h => by rwa [h, List.nil_perm] at hns',
        fun h => by rwa [h, List.perm_nil] at hns'⟩
      simp only [sumValue, hnil, sumOf_perm hns']
    rw [← hvalue]
    exact (h ns hns).ok_iff.2 ((h ns' hns').ok_iff.1 (sumAll_fits hfits))

end Sums

/-! ### All aggregates -/

section Values
variable {B : Builtins} {params : List Value} {vs : List Value} {ns : List Int64} {d : Bool}
  {func : AggFunc} {sep : Option Expr}

/-- The integers an aggregate looks at. -/
def thinIntegers (d : Bool) (vs : List Value) : List Int64 := (thin d vs).filterMap integer?

/-- The aggregates the results of which are compared: without `AVG` and `GROUP_CONCAT`, and no sum
of reals. -/
def Integral (func : AggFunc) (vs : List Value) : Prop :=
  func ≠ .avg ∧ func ≠ .groupConcat ∧ (func = .sum → ∀ f, .real f ∉ vs)

/-- The values for which the order does not matter. -/
def ValuesSettled (B : Builtins) (func : AggFunc) (d : Bool) (vs : List Value) : Prop :=
  match func with
  | .count => True
  | .sum => (∃ v ∈ vs, kindOf v ≠ some .number) ∨ SumSettled (thinIntegers d vs)
  | .min => ExtremeSettled B .lt vs
  | .max => ExtremeSettled B .gt vs
  | _ => False

lemma filterMap_integers : (integers ns).filterMap integer? = ns := by
  rw [integers, List.filterMap_map]
  exact List.filterMap_some

lemma eq_integers (hnum : ∀ v ∈ vs, kindOf v = some .number) (hreal : ∀ f, .real f ∉ vs) :
    vs = integers (vs.filterMap integer?) := by
  induction vs with
  | nil => rfl
  | cons v vs ih =>
    have hrest := ih (fun u hu => hnum u (List.mem_cons_of_mem v hu)) fun f hf =>
      hreal f (List.mem_cons_of_mem v hf)
    rcases number_cases (hnum v List.mem_cons_self) with ⟨n, rfl⟩ | ⟨f, rfl⟩
    · exact congrArg (.integer n :: ·) hrest
    · exact absurd List.mem_cons_self (hreal f)

/-- Of integers the first of equal ones are looked at. -/
lemma thin_integers : thin d (integers ns)
    = integers (if d then firsts (· == ·) ns else ns) := by
  unfold thin
  split_ifs
  · have hfirsts : dedupValues (integers ns) = firsts Value.same (integers ns) := rfl
    rw [hfirsts, integers, firsts_map]
    refine congrArg integers (firsts_congr (List.pairwise_of_forall fun a b => ?_))
    rw [Bool.eq_iff_iff, value_same_iff]
    simp
  · rfl

/-- Every order of the integers looked at is that for some order of the values. -/
lemma thin_orders {P : List Value → Prop} :
    (∀ vs, vs.Perm (integers ns) → P (thin d vs))
      ↔ ∀ ms, ms.Perm (if d then firsts (· == ·) ns else ns) → P (integers ms) := by
  constructor
  · intro h ms hms
    cases d with
    | false => exact h (integers ms) (hms.map _)
    | true =>
      obtain ⟨rest, hrest⟩ := (firsts_sublist (r := (· == ·)) (l := ns)).exists_perm_append
      have hperm : (ms ++ rest).Perm ns := (hms.append_right rest).trans hrest.symm
      have hsame : firsts (· == ·) (ms ++ rest) = ms := by
        rw [firsts_append_of_mem fun b hb => ?_]
        · exact firsts_eq_self (hms.nodup_iff.2 nodup_firsts)
        · exact hms.mem_iff.2 (mem_firsts_eq.2 (hrest.symm.subset (List.mem_append_right _ hb)))
      have hall := h (integers (ms ++ rest)) (hperm.map _)
      rwa [thin_integers, if_pos rfl, hsame] at hall
  · intro h vs hvs
    have heq : vs = integers (vs.filterMap integer?) := by
      refine eq_integers (fun v hv => integers_number ns v (hvs.subset hv)) fun f hf => ?_
      obtain ⟨n, -, hn⟩ := List.mem_map.1 (hvs.subset hf)
      cases hn
    have hperm : (vs.filterMap integer?).Perm ns := by
      have hmap := hvs.filterMap integer?
      rwa [filterMap_integers] at hmap
    rw [heq, thin_integers]
    refine h _ ?_
    split_ifs
    · have hfirsts := firsts_perm (f := id) hperm
      rwa [List.map_id, List.map_id] at hfirsts
    · exact hperm

lemma sum_orders_iff (hreal : ∀ f, .real f ∉ vs) :
    (∀ vs', vs'.Perm vs → Agree (sumAll B (thin d vs')) (sumAll B (thin d vs)))
      ↔ (∃ v ∈ vs, kindOf v ≠ some .number) ∨ SumSettled (thinIntegers d vs) := by
  by_cases hnum : ∀ v ∈ vs, kindOf v = some .number
  · have hno : ¬ ∃ v ∈ vs, kindOf v ≠ some .number := by simpa using hnum
    rw [or_iff_right hno]
    have hvs := eq_integers hnum hreal
    generalize vs.filterMap integer? = ns at hvs
    subst hvs
    rw [thinIntegers, thin_integers, filterMap_integers]
    refine Iff.trans ?_ (sum_integers_iff (B := B))
    exact thin_orders (P := fun us => Agree (sumAll B us)
      (sumAll B (integers (if d then firsts (· == ·) ns else ns))))
  · obtain ⟨v, hv, hkind⟩ : ∃ v ∈ vs, kindOf v ≠ some .number := by simpa using hnum
    refine iff_of_true (fun vs' hperm => ?_) (Or.inl ⟨v, hv, hkind⟩)
    have hfail {us : List Value} (hus : us.Perm vs) : ∃ e, sumAll B (thin d us) = .error e := by
      obtain ⟨o, ho, heq⟩ := mem_thin (d := d) (hus.symm.subset hv)
      have hbad : ∃ u ∈ thin d us, kindOf u ≠ some .number := by
        refine ⟨o, ho, ?_⟩
        rcases heq with rfl | hsame
        · exact hkind
        · rwa [same_kind hsame]
      obtain ⟨e, he⟩ : ∃ e, (thin d us).foldlM (sumStep B) (.integer 0) = .error e :=
        sumFold_error rfl hbad
      exact ⟨e, by rw [sumAll, he]; rfl⟩
    exact Or.inr ⟨hfail hperm, hfail (List.Perm.refl vs)⟩

/-- An aggregate is one in every order of its values exactly if they are settled. -/
theorem values_orders_iff (hfunc : Integral func vs) (hnull : ∀ v ∈ vs, v ≠ .null) :
    (∀ vs', vs'.Perm vs → Agree (aggregateOf B params func sep (thin d vs'))
        (aggregateOf B params func sep (thin d vs)))
      ↔ ValuesSettled B func d vs := by
  cases func with
  | count =>
    refine iff_of_true (fun vs' hperm => ?_) trivial
    rw [aggregateOf, aggregateOf, length_thin_perm hperm]
    exact Agree.self _
  | sum => exact sum_orders_iff (hfunc.2.2 rfl)
  | avg => exact absurd rfl hfunc.1
  | min => exact extreme_orders_iff (by decide) hnull
  | max => exact extreme_orders_iff (by decide) hnull
  | groupConcat => exact absurd rfl hfunc.2.1

end Values

end Arkeion.Sql
