import Mathlib.Data.Finset.Card
import Mathlib.Data.Nat.Find
import Mathlib.Order.Interval.Finset.Nat

/-!
Ranks by runs and by counting. Along a sequence, a run is a stretch of elements that are the same
one after the other. The rank of an element is where its run begins; by counting, it is how many
elements are smaller.

Both agree exactly if of any two elements the first is the same as the second or smaller.
-/

namespace Arkeion.Lib

/-- What is the same is in the same order to everything. -/
structure Peers {α : Type} (same lt : α → α → Prop) : Prop where
  symm : ∀ {a b}, same a b → same b a
  trans : ∀ {a b c}, same a b → same b c → same a c
  asymm : ∀ {a b}, lt a b → ¬ lt b a
  left : ∀ {a b c}, same a b → lt a c → lt b c
  right : ∀ {a b c}, same a b → lt c a → lt c b

namespace Peers

variable {α : Type} {same lt : α → α → Prop} {a b : α}

lemma irrefl (h : Peers same lt) (a : α) : ¬ lt a a := fun hlt => h.asymm hlt hlt

lemma not_lt (h : Peers same lt) (hab : same a b) : ¬ lt a b :=
  fun hlt => h.irrefl b (h.left hab hlt)

end Peers

section Ranking
variable {α : Type} (same lt : α → α → Prop) (f : ℕ → α) (n k : ℕ)

/-- A run begins here. -/
def Fresh (j : ℕ) : Prop := j = 0 ∨ ¬ same (f (j - 1)) (f j)

/-- No element before it ties with this one. -/
def FirstOfKind (j : ℕ) : Prop := ∀ i < j, lt (f i) (f j) ∨ lt (f j) (f i)

/-- Of any two of the first `n` elements the first is the same or smaller. -/
def Ascending : Prop := ∀ i j, i < j → j < n → same (f i) (f j) ∨ lt (f i) (f j)

instance [DecidableRel same] : DecidablePred (Fresh same f) :=
  fun _ => inferInstanceAs (Decidable (_ ∨ _))

instance [DecidableRel lt] : DecidablePred (FirstOfKind lt f) :=
  fun _ => inferInstanceAs (Decidable (∀ _ < _, _))

/-- Where the run of the element at `k` begins. -/
def runStart [DecidableRel same] : ℕ := Nat.findGreatest (Fresh same f) k

/-- How many runs have begun up to `k`. -/
def runsUpTo [DecidableRel same] : ℕ := ((Finset.range (k + 1)).filter (Fresh same f)).card

/-- The elements of the first `n` that are smaller than the one at `k`. -/
def smaller [DecidableRel lt] : Finset ℕ := (Finset.range n).filter fun j => lt (f j) (f k)

/-- One of each kind of elements smaller than the one at `k`. -/
def kindsBelow [DecidableRel lt] : Finset ℕ := (smaller lt f n k).filter (FirstOfKind lt f)

end Ranking

section Runs
variable {α : Type} {same lt : α → α → Prop} [DecidableRel same] {f : ℕ → α} {n k i j : ℕ}

lemma runStart_le : runStart same f k ≤ k := Nat.findGreatest_le k

lemma fresh_runStart : Fresh same f (runStart same f k) :=
  Nat.findGreatest_spec (Nat.zero_le k) (Or.inl rfl)

lemma not_fresh (h : runStart same f k < j) (hj : j ≤ k) : ¬ Fresh same f j :=
  Nat.findGreatest_is_greatest h hj

lemma runStart_of_fresh (h : Fresh same f k) : runStart same f k = k :=
  Nat.findGreatest_eq h

lemma runStart_succ : runStart same f (k + 1)
    = if Fresh same f (k + 1) then k + 1 else runStart same f k := Nat.findGreatest_succ k

lemma runsUpTo_zero : runsUpTo same f 0 = 1 := by
  have hzero : (Finset.range (0 + 1)).filter (Fresh same f) = {0} := by
    have hfresh : Fresh same f 0 := Or.inl rfl
    rw [zero_add, Finset.range_one, Finset.filter_singleton, if_pos hfresh]
  rw [runsUpTo, hzero, Finset.card_singleton]

lemma runsUpTo_succ : runsUpTo same f (k + 1)
    = if Fresh same f (k + 1) then runsUpTo same f k + 1 else runsUpTo same f k := by
  rw [runsUpTo, Finset.range_add_one, Finset.filter_insert]
  split_ifs with hfresh
  · rw [Finset.card_insert_of_notMem (by simp)]
    rfl
  · rfl

lemma mem_smaller [DecidableRel lt] : j ∈ smaller lt f n k ↔ j < n ∧ lt (f j) (f k) := by
  rw [smaller, Finset.mem_filter, Finset.mem_range]

lemma mem_kindsBelow [DecidableRel lt] :
    j ∈ kindsBelow lt f n k ↔ j < n ∧ lt (f j) (f k) ∧ FirstOfKind lt f j := by
  rw [kindsBelow, Finset.mem_filter, mem_smaller, and_assoc]

variable (h : Peers same lt)
include h

/-- The elements of one run are the same. -/
lemma same_in_run (hi : runStart same f k ≤ i) (hij : i < j) (hj : j ≤ k) : same (f i) (f j) := by
  induction j, hij using Nat.le_induction with
  | base =>
    have hstep := not_fresh (hi.trans_lt (Nat.lt_succ_self i)) hj
    simpa [Fresh] using hstep
  | succ j hij ih =>
    have hstep : same (f j) (f (j + 1)) := by
      have hstep := not_fresh ((hi.trans_lt hij).trans (Nat.lt_succ_self j)) hj
      simpa [Fresh] using hstep
    exact h.trans (ih (Nat.le_of_succ_le hj)) hstep

lemma tie_in_run (hi : runStart same f k ≤ i) (hi' : i ≤ k) (hj : runStart same f k ≤ j)
    (hj' : j ≤ k) : ¬ lt (f i) (f j) := by
  rcases lt_trichotomy i j with hij | rfl | hij
  · exact h.not_lt (same_in_run h hi hij hj')
  · exact h.irrefl _
  · exact h.not_lt (h.symm (same_in_run h hj hij hi'))

/-- An element of the run may stand for its beginning. -/
lemma lt_run_iff (hj : runStart same f k ≤ j) (hj' : j ≤ k) {a : α} :
    lt a (f j) ↔ lt a (f (runStart same f k)) := by
  rcases hj.eq_or_lt with heq | hlt
  · rw [← heq]
  · have hsame := same_in_run h le_rfl hlt hj'
    exact ⟨h.right (h.symm hsame), h.right hsame⟩

lemma run_lt_iff (hj : runStart same f k ≤ j) (hj' : j ≤ k) {a : α} :
    lt (f j) a ↔ lt (f (runStart same f k)) a := by
  rcases hj.eq_or_lt with heq | hlt
  · rw [← heq]
  · have hsame := same_in_run h le_rfl hlt hj'
    exact ⟨h.left (h.symm hsame), h.left hsame⟩

/-! ### Ascending sequences -/

/-- In an ascending sequence what is before the run of an element is smaller. -/
lemma Ascending.lt_of_lt (ha : Ascending same lt f n) (hk : k < n) (hi : i < runStart same f k) :
    lt (f i) (f k) := by
  have hik : i < k := hi.trans_le runStart_le
  set s := runStart same f k with hs
  have hbreak : ¬ same (f (s - 1)) (f s) := by
    rcases (fresh_runStart : Fresh same f (runStart same f k)) with hzero | hnew
    · omega
    · exact hnew
  have hsn : s < n := runStart_le.trans_lt hk
  have hlast : lt (f (s - 1)) (f s) := (ha (s - 1) s (by omega) hsn).resolve_left hbreak
  have hstart : lt (f i) (f s) := by
    refine (ha i s hi hsn).resolve_left fun hsame => ?_
    rcases (Nat.le_sub_one_of_lt hi).eq_or_lt with rfl | hlt
    · exact hbreak hsame
    · rcases ha i (s - 1) hlt (by omega) with hsame' | hlt'
      · exact hbreak (h.trans (h.symm hsame') hsame)
      · exact h.asymm hlt' (h.right (h.symm hsame) hlast)
  exact (lt_run_iff h runStart_le le_rfl).2 hstart

/-- And nothing else is. -/
lemma Ascending.lt_iff (ha : Ascending same lt f n) (hk : k < n) (hj : j < n) :
    lt (f j) (f k) ↔ j < runStart same f k := by
  refine ⟨fun hlt => ?_, ha.lt_of_lt h hk⟩
  by_contra hge
  rcases Nat.lt_or_ge k j with hkj | hjk
  · rcases ha k j hkj hj with hsame | hlt'
    · exact h.not_lt (h.symm hsame) hlt
    · exact h.asymm hlt' hlt
  · exact tie_in_run h (Nat.le_of_not_lt hge) hjk runStart_le le_rfl hlt

lemma Ascending.first_iff (ha : Ascending same lt f n) (hj : j < n) :
    FirstOfKind lt f j ↔ Fresh same f j := by
  constructor
  · intro hfirst
    refine or_iff_not_imp_left.2 fun hzero hsame => ?_
    rcases hfirst (j - 1) (by omega) with hlt | hlt
    · exact h.not_lt hsame hlt
    · exact h.not_lt (h.symm hsame) hlt
  · intro hfresh i hij
    refine Or.inl (ha.lt_of_lt h hj ?_)
    rwa [runStart_of_fresh hfresh]

/-! ### The last run -/

variable (hn : 0 < n)
include hn

/-- Where all is below the last run, the sequence is ascending if it is up to there. -/
lemma ascending_of_last
    (hlast : ∀ i < runStart same f (n - 1), lt (f i) (f (runStart same f (n - 1))))
    (ha : Ascending same lt f (runStart same f (n - 1))) : Ascending same lt f n := by
  intro i j hij hj
  rcases Nat.lt_or_ge j (runStart same f (n - 1)) with hlt | hge
  · exact ha i j hij hlt
  · rcases Nat.lt_or_ge i (runStart same f (n - 1)) with hlt' | hge'
    · exact Or.inr ((lt_run_iff h hge (by omega)).2 (hlast i hlt'))
    · exact Or.inl (same_in_run h hge' hij (by omega))

/-- Nothing of the last run is then smaller than what is before it. -/
lemma smaller_of_last [DecidableRel lt]
    (hlast : ∀ i < runStart same f (n - 1), lt (f i) (f (runStart same f (n - 1))))
    (hk : k < runStart same f (n - 1)) :
    smaller lt f n k = smaller lt f (runStart same f (n - 1)) k := by
  have hle : runStart same f (n - 1) ≤ n - 1 := runStart_le
  ext j
  rw [mem_smaller, mem_smaller]
  refine ⟨fun ⟨hj, hlt⟩ => ⟨?_, hlt⟩, fun ⟨hj, hlt⟩ => ⟨by omega, hlt⟩⟩
  by_contra hge
  exact h.asymm (hlast k hk) ((run_lt_iff h (Nat.le_of_not_lt hge) (by omega)).1 hlt)

omit hn in
/-- What is smaller than the beginning of a run at the end is before it. -/
lemma smaller_subset [DecidableRel lt] (j : ℕ)
    (hj : j ∈ smaller lt f n (runStart same f (n - 1))) :
    j < runStart same f (n - 1) := by
  obtain ⟨hjn, hlt⟩ := mem_smaller.1 hj
  by_contra hge
  exact tie_in_run h (Nat.le_of_not_lt hge) (by omega) le_rfl runStart_le hlt

end Runs

/-! ### Ranks -/

section Ranks
variable {α : Type} {same lt : α → α → Prop} [DecidableRel same] {f : ℕ → α}

/-- With gaps. The induction takes the last run away. -/
theorem rank_iff [DecidableRel lt] (h : Peers same lt) (n : ℕ) :
    (∀ k < n, (smaller lt f n k).card = runStart same f k) ↔ Ascending same lt f n := by
  constructor
  · induction n using Nat.strong_induction_on with
    | _ n ih =>
      intro hrank
      rcases Nat.eq_zero_or_pos n with rfl | hn
      · exact fun _ _ _ hj => absurd hj (Nat.not_lt_zero _)
      set r := runStart same f (n - 1) with hr
      have hrn : r < n := by
        have hle : r ≤ n - 1 := runStart_le
        omega
      have hcard : (smaller lt f n r).card = r := by
        rw [hrank r hrn, runStart_of_fresh fresh_runStart]
      have hall : smaller lt f n r = Finset.range r := by
        refine Finset.eq_of_subset_of_card_le (fun j hj => ?_) ?_
        · exact Finset.mem_range.2 (smaller_subset h j hj)
        · rw [hcard, Finset.card_range]
      have hlast : ∀ i < r, lt (f i) (f r) := fun i hi =>
        (mem_smaller.1 (hall ▸ Finset.mem_range.2 hi)).2
      refine ascending_of_last h hn hlast (ih r hrn fun k hk => ?_)
      rw [← smaller_of_last h hn hlast hk]
      exact hrank k (hk.trans hrn)
  · intro ha k hk
    have hall : smaller lt f n k = Finset.range (runStart same f k) := by
      ext j
      rw [mem_smaller, Finset.mem_range]
      refine ⟨fun ⟨hj, hlt⟩ => (ha.lt_iff h hk hj).1 hlt, fun hj => ?_⟩
      have hjn : j < n := (hj.trans_le runStart_le).trans hk
      exact ⟨hjn, (ha.lt_iff h hk hjn).2 hj⟩
    rw [hall, Finset.card_range]

/-- The runs up to an element are its own and those that begin before it. -/
lemma runsUpTo_eq (k : ℕ) : runsUpTo same f k
    = ((Finset.range (runStart same f k)).filter (Fresh same f)).card + 1 := by
  have hinsert : (Finset.range (k + 1)).filter (Fresh same f)
      = insert (runStart same f k) ((Finset.range (runStart same f k)).filter (Fresh same f)) := by
    ext j
    rw [Finset.mem_insert, Finset.mem_filter, Finset.mem_filter, Finset.mem_range,
      Finset.mem_range]
    constructor
    · rintro ⟨hj, hfresh⟩
      rcases lt_trichotomy j (runStart same f k) with hlt | heq | hgt
      · exact Or.inr ⟨hlt, hfresh⟩
      · exact Or.inl heq
      · exact absurd hfresh (not_fresh hgt (Nat.le_of_lt_succ hj))
    · have hle : runStart same f k ≤ k := runStart_le
      rintro (rfl | ⟨hj, hfresh⟩)
      · exact ⟨by omega, fresh_runStart⟩
      · exact ⟨by omega, hfresh⟩
  rw [runsUpTo, hinsert, Finset.card_insert_of_notMem]
  simp

/-- Without gaps. -/
theorem denseRank_iff [DecidableRel lt] (h : Peers same lt) (n : ℕ) :
    (∀ k < n, (kindsBelow lt f n k).card + 1 = runsUpTo same f k) ↔ Ascending same lt f n := by
  constructor
  · induction n using Nat.strong_induction_on with
    | _ n ih =>
      intro hrank
      rcases Nat.eq_zero_or_pos n with rfl | hn
      · exact fun _ _ _ hj => absurd hj (Nat.not_lt_zero _)
      set r := runStart same f (n - 1) with hr
      have hrn : r < n := by
        have hle : r ≤ n - 1 := runStart_le
        omega
      have hstart : runStart same f r = r := runStart_of_fresh fresh_runStart
      have hcard : (kindsBelow lt f n r).card = ((Finset.range r).filter (Fresh same f)).card := by
        have heq := hrank r hrn
        rw [runsUpTo_eq, hstart] at heq
        exact Nat.succ.inj heq
      -- every run before the last one begins with a kind of its own, smaller than the last
      have hall : kindsBelow lt f n r = (Finset.range r).filter (Fresh same f) := by
        refine Finset.eq_of_subset_of_card_le (fun j hj => ?_) hcard.ge
        obtain ⟨hjn, hlt, hfirst⟩ := mem_kindsBelow.1 hj
        have hjr : j < r := smaller_subset h j (mem_smaller.2 ⟨hjn, hlt⟩)
        refine Finset.mem_filter.2 ⟨Finset.mem_range.2 hjr, ?_⟩
        refine or_iff_not_imp_left.2 fun hzero hsame => ?_
        rcases hfirst (j - 1) (by omega) with hlt' | hlt'
        · exact h.not_lt hsame hlt'
        · exact h.not_lt (h.symm hsame) hlt'
      have hlast : ∀ i < r, lt (f i) (f r) := by
        intro i hi
        refine (run_lt_iff h runStart_le le_rfl).2 ?_
        have hmem : runStart same f i ∈ kindsBelow lt f n r := by
          rw [hall]
          exact Finset.mem_filter.2
            ⟨Finset.mem_range.2 (runStart_le.trans_lt hi), fresh_runStart⟩
        exact (mem_kindsBelow.1 hmem).2.1
      refine ascending_of_last h hn hlast (ih r hrn fun k hk => ?_)
      rw [← hrank k (hk.trans hrn), kindsBelow, kindsBelow, smaller_of_last h hn hlast hk]
  · intro ha k hk
    have hall : kindsBelow lt f n k
        = (Finset.range (runStart same f k)).filter (Fresh same f) := by
      ext j
      rw [mem_kindsBelow, Finset.mem_filter, Finset.mem_range]
      constructor
      · rintro ⟨hj, hlt, hfirst⟩
        exact ⟨(ha.lt_iff h hk hj).1 hlt, (ha.first_iff h hj).1 hfirst⟩
      · rintro ⟨hj, hfresh⟩
        have hjn : j < n := (hj.trans_le runStart_le).trans hk
        exact ⟨hjn, (ha.lt_iff h hk hjn).2 hj, (ha.first_iff h hjn).2 hfresh⟩
    rw [hall, runsUpTo_eq]

end Ranks

end Arkeion.Lib
