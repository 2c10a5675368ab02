import Mathlib.Algebra.BigOperators.Group.List.Lemmas
import Mathlib.Algebra.Order.BigOperators.Group.List
import Mathlib.Data.List.Perm.Basic
import Mathlib.Tactic.Linarith

/-!
Folds whose result is one for every order of the list: the best element by a relation that need not
be transitive, and sums of which every partial sum is in a range.
-/

namespace Arkeion.Lib

/-! ### What a list gives -/

section Given
variable {α β : Type} {g : α → Option β} {l : List α} {bs : List β}

lemma forall₂_filterMap (l : List α) :
    List.Forall₂ (fun b a => g a = some b) (l.filterMap g) (l.filter fun a => (g a).isSome) := by
  induction l with
  | nil => exact .nil
  | cons a l ih =>
    cases ha : g a with
    | none =>
      rw [List.filterMap_cons_none ha, List.filter_cons_of_neg (by simp [ha])]
      exact ih
    | some b =>
      rw [List.filterMap_cons_some ha, List.filter_cons_of_pos (by simp [ha])]
      exact .cons ha ih

lemma filterMap_of_forall₂ (h : List.Forall₂ (fun b a => g a = some b) bs l) :
    l.filterMap g = bs := by
  induction h with
  | nil => rfl
  | cons hab _ ih => rw [List.filterMap_cons_some hab, ih]

/-- Every order of what a list gives is what it gives in some order. -/
lemma exists_perm_filterMap (h : bs.Perm (l.filterMap g)) :
    ∃ l' : List α, l'.Perm l ∧ l'.filterMap g = bs := by
  obtain ⟨given, hgiven, hperm⟩ := List.perm_comp_forall₂ h (forall₂_filterMap l)
  refine ⟨given ++ l.filter fun a => !(g a).isSome, ?_, ?_⟩
  · exact (hperm.append_right _).trans (List.filter_append_perm _ l)
  · have hnone : (l.filter fun a => !(g a).isSome).filterMap g = [] := by
      rw [List.filterMap_eq_nil_iff]
      intro a ha
      simpa using (List.mem_filter.1 ha).2
    rw [List.filterMap_append, filterMap_of_forall₂ hgiven, hnone, List.append_nil]

end Given

/-! ### The best element -/

section Best
variable {α : Type} {beats : α → α → Bool} {m b x : α} {l : List α}

/-- The best so far: an element takes the place of one that it beats. -/
def bestOf (beats : α → α → Bool) (best : α) (l : List α) : α :=
  l.foldl (fun b a => if beats a b then a else b) best

/-- An element that beats all that differ from it. -/
def Champion (beats : α → α → Bool) (m : α) (l : List α) : Prop :=
  m ∈ l ∧ ∀ x ∈ l, x ≠ m → beats m x = true

lemma bestOf_mem : bestOf beats b l ∈ b :: l := by
  induction l generalizing b with
  | nil => exact List.mem_cons_self
  | cons a l ih =>
    have hstep := ih (b := if beats a b then a else b)
    rw [bestOf, List.foldl_cons]
    rcases List.mem_cons.1 hstep with heq | hin
    · rw [bestOf] at heq
      rw [heq]
      split_ifs
      · exact List.mem_cons_of_mem b List.mem_cons_self
      · exact List.mem_cons_self
    · exact List.mem_cons_of_mem b (List.mem_cons_of_mem a hin)

/-- Wherever the champion stands, it is the best in the end. -/
lemma bestOf_champion (hasymm : ∀ {a b}, beats a b = true → ¬ beats b a = true)
    (h : Champion beats m (b :: l)) : bestOf beats b l = m := by
  induction l generalizing b with
  | nil =>
    rw [List.mem_singleton.1 h.1]
    rfl
  | cons a l ih =>
    rw [bestOf, List.foldl_cons]
    refine ih ⟨?_, fun x hx hne => ?_⟩
    · rcases List.mem_cons.1 h.1 with rfl | hin
      · by_cases ha : a = m
        · rw [ha, ite_self]
          exact List.mem_cons_self
        · have hbeats := h.2 a (List.mem_cons_of_mem m List.mem_cons_self) ha
          rw [if_neg (hasymm hbeats)]
          exact List.mem_cons_self
      · rcases List.mem_cons.1 hin with rfl | hin
        · by_cases hb : b = m
          · rw [hb, ite_self]
            exact List.mem_cons_self
          · rw [if_pos (h.2 b List.mem_cons_self hb)]
            exact List.mem_cons_self
        · exact List.mem_cons_of_mem _ hin
    · refine h.2 x ?_ hne
      rcases List.mem_cons.1 hx with rfl | hx
      · split_ifs
        · exact List.mem_cons_of_mem b List.mem_cons_self
        · exact List.mem_cons_self
      · exact List.mem_cons_of_mem b (List.mem_cons_of_mem a hx)

lemma bestOf_of_not_beaten (h : ∀ a ∈ l, ¬ beats a b = true) : bestOf beats b l = b := by
  induction l with
  | nil => rfl
  | cons a l ih =>
    rw [bestOf, List.foldl_cons, if_neg (h a List.mem_cons_self)]
    exact ih fun c hc => h c (List.mem_cons_of_mem a hc)

/-- An order in which an element that `m` does not beat comes first, then every `m`. -/
lemma exists_order [DecidableEq α] (m : α) (hx : x ∈ l) :
    ∃ ms rest, (x :: (ms ++ rest)).Perm l ∧ (∀ a ∈ ms, a = m) ∧ m ∉ rest := by
  refine ⟨(l.erase x).filter (· = m), (l.erase x).filter fun a => !decide (a = m), ?_, ?_, ?_⟩
  · exact (List.Perm.cons x (List.filter_append_perm _ _)).trans (List.perm_cons_erase hx).symm
  · exact fun a ha => of_decide_eq_true (List.mem_filter.1 ha).2
  · intro hm
    have hne := (List.mem_filter.1 hm).2
    simp at hne

/-- The element that is best in every order, whatever elements behind the first are left out, is the
champion. -/
theorem champion_of_best [DecidableEq α] (hl : l ≠ []) (h : ∀ b l', (b :: l').Perm l →
    ∃ kept : List α, kept.Sublist l' ∧ bestOf beats b kept = m) : Champion beats m l := by
  refine ⟨?_, fun x hx hne => ?_⟩
  · cases l with
    | nil => exact absurd rfl hl
    | cons b l' =>
      obtain ⟨kept, hkept, rfl⟩ := h b l' (List.Perm.refl _)
      exact (hkept.cons_cons b).subset bestOf_mem
  · by_contra hbeats
    obtain ⟨ms, rest, hperm, hms, hrest⟩ := exists_order m hx
    obtain ⟨kept, hkept, hbest⟩ := h x (ms ++ rest) hperm
    obtain ⟨ms', rest', rfl, hms', hrest'⟩ := List.sublist_append_iff.1 hkept
    have hstays : bestOf beats x ms' = x := bestOf_of_not_beaten fun a ha => by
      rw [hms a (hms'.subset ha)]
      exact hbeats
    rw [bestOf, List.foldl_append] at hbest
    change bestOf beats (bestOf beats x ms') rest' = m at hbest
    rw [hstays] at hbest
    have hmem : bestOf beats x rest' ∈ x :: rest' := bestOf_mem
    rw [hbest] at hmem
    rcases List.mem_cons.1 hmem with heq | hin
    · exact hne heq.symm
    · exact hrest (hrest'.subset hin)

end Best

/-! ### Sums in a range -/

section Sums
variable {l l' : List ℤ} {lo hi : ℤ}

/-- Every partial sum is in the range. -/
def SumsIn (lo hi : ℤ) (l : List ℤ) : Prop :=
  ∀ n ≤ l.length, lo ≤ (l.take n).sum ∧ (l.take n).sum < hi

/-- The sum of the positive numbers. -/
def gains (l : List ℤ) : ℤ := (l.filter (0 < ·)).sum

/-- The sum of the others. -/
def losses (l : List ℤ) : ℤ := (l.filter (· ≤ 0)).sum

lemma gains_cons (a : ℤ) : gains (a :: l) = max a 0 + gains l := by
  unfold gains
  by_cases ha : 0 < a
  · rw [List.filter_cons_of_pos (by simpa using ha), List.sum_cons, max_eq_left ha.le]
  · rw [List.filter_cons_of_neg (by simpa using ha), max_eq_right (not_lt.1 ha), zero_add]

lemma losses_cons (a : ℤ) : losses (a :: l) = min a 0 + losses l := by
  unfold losses
  by_cases ha : a ≤ 0
  · rw [List.filter_cons_of_pos (by simpa using ha), List.sum_cons, min_eq_left ha]
  · rw [List.filter_cons_of_neg (by simpa using ha), min_eq_right (not_le.1 ha).le, zero_add]

lemma gains_nonneg : 0 ≤ gains l := by
  induction l with
  | nil => exact le_rfl
  | cons a l ih =>
    rw [gains_cons]
    exact add_nonneg (le_max_right a 0) ih

lemma losses_nonpos : losses l ≤ 0 := by
  induction l with
  | nil => exact le_rfl
  | cons a l ih =>
    rw [losses_cons]
    exact add_nonpos (min_le_right a 0) ih

/-- A partial sum lies between the losses and the gains. -/
lemma sum_take_bounds (n : ℕ) : losses l ≤ (l.take n).sum ∧ (l.take n).sum ≤ gains l := by
  induction l generalizing n with
  | nil => simp [losses, gains]
  | cons a l ih =>
    rw [losses_cons, gains_cons]
    have hlow := min_le_left a 0
    have hhigh := le_max_left a 0
    cases n with
    | zero =>
      have hgains : 0 ≤ gains l := gains_nonneg
      have hlosses : losses l ≤ 0 := losses_nonpos
      have hmin := min_le_right a 0
      have hmax := le_max_right a 0
      simp only [List.take_zero, List.sum_nil]
      constructor <;> linarith
    | succ n =>
      obtain ⟨hl, hg⟩ := ih n
      rw [List.take_succ_cons, List.sum_cons]
      constructor <;> linarith

/-- In every order the partial sums are in the range exactly if the gains and the losses are. -/
theorem sumsIn_orders_iff :
    (∀ l', l'.Perm l → SumsIn lo hi l') ↔ lo ≤ losses l ∧ gains l < hi := by
  constructor
  · intro h
    have hfirst (p : ℤ → Bool) : lo ≤ (l.filter p).sum ∧ (l.filter p).sum < hi := by
      have hin := h _ (List.filter_append_perm p l) (l.filter p).length
        (by rw [List.length_append]; exact Nat.le_add_right _ _)
      rwa [List.take_left' rfl] at hin
    exact ⟨(hfirst _).1, (hfirst _).2⟩
  · rintro ⟨hl, hg⟩ l' hperm n -
    have hgains : gains l' = gains l := (hperm.filter _).sum_eq
    have hlosses : losses l' = losses l := (hperm.filter _).sum_eq
    obtain ⟨hlow, hhigh⟩ := sum_take_bounds (l := l') n
    rw [hgains] at hhigh
    rw [hlosses] at hlow
    exact ⟨hl.trans hlow, hhigh.trans_lt hg⟩

/-- The partial sums from `s` on. -/
lemma sumsIn_cons {a : ℤ} : SumsIn lo hi (a :: l) ↔ (lo ≤ 0 ∧ 0 < hi) ∧ SumsIn (lo - a) (hi - a) l := by
  constructor
  · intro h
    refine ⟨by simpa using h 0 (Nat.zero_le _), fun n hn => ?_⟩
    have hsucc := h (n + 1) (Nat.succ_le_succ hn)
    rw [List.take_succ_cons, List.sum_cons] at hsucc
    constructor <;> linarith [hsucc.1, hsucc.2]
  · rintro ⟨hzero, h⟩ n hn
    cases n with
    | zero => simpa using hzero
    | succ n =>
      have hrest := h n (Nat.le_of_succ_le_succ hn)
      rw [List.take_succ_cons, List.sum_cons]
      constructor <;> linarith [hrest.1, hrest.2]

lemma losses_eq_sum (h : ∀ a ∈ l, a ≤ 0) : losses l = l.sum := by
  rw [losses, List.filter_eq_self.2 (by simpa using h)]

lemma gains_eq_sum (h : ∀ a ∈ l, 0 < a) : gains l = l.sum := by
  rw [gains, List.filter_eq_self.2 (by simpa using h)]

/-- Numbers of the range whose sum is in the range can be added up without leaving it: down from
above, and up from below. -/
theorem exists_sumsIn (hhi : 0 < hi) (hl : ∀ a ∈ l, lo ≤ a ∧ a < hi) (s : ℤ)
    (hs : lo ≤ s ∧ s < hi) (hsum : lo ≤ s + l.sum ∧ s + l.sum < hi) :
    ∃ l', l'.Perm l ∧ SumsIn (lo - s) (hi - s) l' := by
  induction hn : l.length using Nat.strong_induction_on generalizing l s with
  | _ n ih =>
    -- one of the numbers first, if the sum stays in the range with it
    have hfirst {a : ℤ} (ha : a ∈ l) (hin : lo ≤ s + a ∧ s + a < hi) :
        ∃ l', l'.Perm l ∧ SumsIn (lo - s) (hi - s) l' := by
      have hperm := List.perm_cons_erase ha
      have hsame : l.sum = a + (l.erase a).sum := by
        rw [hperm.sum_eq, List.sum_cons]
      have hlen : (l.erase a).length < n := by
        have hlength := hperm.length_eq
        rw [List.length_cons] at hlength
        omega
      obtain ⟨l', hl', hsums⟩ := ih _ hlen (fun b hb => hl b (List.mem_of_mem_erase hb)) (s + a) hin
        (by rw [add_assoc, ← hsame]; exact hsum) rfl
      refine ⟨a :: l', (hl'.cons a).trans hperm.symm, sumsIn_cons.2 ⟨⟨?_, ?_⟩, ?_⟩⟩
      · linarith [hs.1]
      · linarith [hs.2]
      · rwa [sub_sub, sub_sub]
    rcases le_or_gt 0 s with hpos | hneg
    · by_cases hex : ∃ a ∈ l, a ≤ 0
      · obtain ⟨a, ha, hle⟩ := hex
        exact hfirst ha ⟨by linarith [(hl a ha).1], by linarith [hs.2]⟩
      · have hall : ∀ a ∈ l, 0 < a := fun a ha => lt_of_not_ge fun hle => hex ⟨a, ha, hle⟩
        refine ⟨l, List.Perm.refl l, fun n _ => ?_⟩
        obtain ⟨hlow, hhigh⟩ := sum_take_bounds (l := l) n
        rw [gains_eq_sum hall] at hhigh
        have hnone : losses l = 0 := by
          rw [losses, List.filter_eq_nil_iff.2 (by simpa using hall), List.sum_nil]
        rw [hnone] at hlow
        constructor <;> linarith [hs.1, hsum.2]
    · by_cases hex : ∃ a ∈ l, 0 < a
      · obtain ⟨a, ha, hlt⟩ := hex
        exact hfirst ha ⟨by linarith [hs.1], by linarith [(hl a ha).2]⟩
      · have hall : ∀ a ∈ l, a ≤ 0 := fun a ha => not_lt.1 fun hlt => hex ⟨a, ha, hlt⟩
        refine ⟨l, List.Perm.refl l, fun n _ => ?_⟩
        obtain ⟨hlow, hhigh⟩ := sum_take_bounds (l := l) n
        rw [losses_eq_sum hall] at hlow
        have hnone : gains l = 0 := by
          rw [gains, List.filter_eq_nil_iff.2 (by simpa using hall), List.sum_nil]
        rw [hnone] at hhigh
        constructor <;> linarith [hs.2, hsum.1]

end Sums

end Arkeion.Lib
