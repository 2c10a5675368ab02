import Mathlib.Data.List.Count
import Mathlib.Data.List.Destutter
import Mathlib.Data.List.Induction
import Mathlib.Data.List.NodupEquivFin
import Mathlib.Data.List.Pairwise
import Mathlib.Data.List.Perm.Basic

/-!
The first occurrences in a list, for a relation that says what counts as an occurrence. The relation
may be one that an element does not have to itself; such an element is kept every time.

In a sorted list the first occurrences are what removing neighbours that are equal leaves.
-/

namespace Arkeion.Lib

variable {α : Type}

def firsts (r : α → α → Bool) (l : List α) : List α :=
  l.foldl (fun out a => if out.any (r · a) then out else out ++ [a]) []

section Firsts
variable {r s : α → α → Bool} {l : List α} {a b : α}

/-- One more element: the rule all inductions from the end use. -/
lemma firsts_concat : firsts r (l ++ [a])
    = if (firsts r l).any (r · a) then firsts r l else firsts r l ++ [a] := by
  rw [firsts, List.foldl_append]
  rfl

lemma firsts_sublist : (firsts r l).Sublist l := by
  induction l using List.reverseRecOn with
  | nil => exact List.Sublist.refl []
  | append_singleton l a ih =>
    rw [firsts_concat]
    split_ifs
    · exact ih.trans (List.sublist_append_left l [a])
    · exact ih.append_right [a]

lemma pairwise_firsts : (firsts r l).Pairwise fun a b => r a b = false := by
  induction l using List.reverseRecOn with
  | nil => exact List.Pairwise.nil
  | append_singleton l a ih =>
    rw [firsts_concat]
    split_ifs with hin
    · exact ih
    · refine List.pairwise_append.2 ⟨ih, List.pairwise_singleton _ _, fun o ho c hc => ?_⟩
      rw [List.mem_singleton.1 hc]
      exact eq_false_of_ne_true fun h => hin (List.any_eq_true.2 ⟨o, ho, h⟩)

/-- Every element is there, or one that stands for it. -/
lemma mem_firsts (h : a ∈ l) : a ∈ firsts r l ∨ ∃ o ∈ firsts r l, r o a = true := by
  induction l using List.reverseRecOn with
  | nil => cases h
  | append_singleton l b ih =>
    rw [firsts_concat]
    rcases List.mem_append.1 h with h | h
    · split_ifs
      · exact ih h
      · rcases ih h with hin | ⟨o, ho, hoa⟩
        · exact Or.inl (List.mem_append_left _ hin)
        · exact Or.inr ⟨o, List.mem_append_left _ ho, hoa⟩
    · rw [List.mem_singleton.1 h]
      split_ifs with hin
      · exact Or.inr (List.any_eq_true.1 hin)
      · exact Or.inl (List.mem_append_right _ (List.mem_singleton_self b))

/-- The first occurrences depend on the relation of an element to those behind it. -/
lemma firsts_congr (h : l.Pairwise fun a b => r a b = s a b) : firsts r l = firsts s l := by
  induction l using List.reverseRecOn with
  | nil => rfl
  | append_singleton l a ih =>
    obtain ⟨hl, -, hla⟩ := List.pairwise_append.1 h
    have heq := ih hl
    have hany : (firsts s l).any (r · a) = (firsts s l).any (s · a) := by
      rw [Bool.eq_iff_iff, List.any_eq_true, List.any_eq_true]
      refine exists_congr fun o => and_congr_right fun ho => ?_
      rw [hla o (firsts_sublist.subset ho) a (List.mem_singleton_self a)]
    rw [firsts_concat, firsts_concat, heq, hany]

/-- An element nothing stands for is kept every time. -/
lemma count_firsts [DecidableEq α] (h : ∀ b ∈ l, r b a = false) :
    (firsts r l).count a = l.count a := by
  induction l using List.reverseRecOn with
  | nil => rfl
  | append_singleton l b ih =>
    have hrest := ih fun c hc => h c (List.mem_append_left _ hc)
    rw [firsts_concat, List.count_append]
    split_ifs with hin
    · have hne : b ≠ a := by
        rintro rfl
        obtain ⟨o, ho, hob⟩ := List.any_eq_true.1 hin
        rw [h o (List.mem_append_left _ (firsts_sublist.subset ho))] at hob
        cases hob
      rw [hrest, List.count_singleton, if_neg (by simpa using hne), Nat.add_zero]
    · rw [List.count_append, hrest]

/-- One element before: those it stands for are left out. -/
lemma firsts_cons : firsts r (a :: l) = a :: firsts r (l.filter fun b => !r a b) := by
  induction l using List.reverseRecOn with
  | nil => rfl
  | append_singleton l b ih =>
    rw [← List.cons_append, firsts_concat, ih, List.any_cons, List.filter_append]
    cases hab : r a b with
    | true =>
      rw [Bool.true_or, if_pos rfl, List.filter_cons_of_neg (by simp [hab]), List.filter_nil,
        List.append_nil]
    | false =>
      rw [Bool.false_or, List.filter_cons_of_pos (by simp [hab]), List.filter_nil, firsts_concat]
      split_ifs <;> rfl

lemma firsts_map {β : Type} {r : β → β → Bool} (f : α → β) :
    firsts r (l.map f) = (firsts (fun a b => r (f a) (f b)) l).map f := by
  induction l using List.reverseRecOn with
  | nil => rfl
  | append_singleton l a ih =>
    rw [List.map_append, List.map_singleton, firsts_concat, firsts_concat, ih, List.any_map]
    change (if (firsts _ l).any (fun o => r (f o) (f a)) then _ else _) = _
    split_ifs
    · rfl
    · rw [List.map_append, List.map_singleton]

/-- How many first occurrences there are does not depend on the order. -/
lemma length_firsts_perm (symm : ∀ {a b}, r a b = true → r b a = true)
    (trans : ∀ {a b c}, r a b = true → r b c = true → r a c = true) {l' : List α} (h : l.Perm l') :
    (firsts r l).length = (firsts r l').length := by
  suffices hall : ∀ p : α → Bool, (firsts r (l.filter p)).length = (firsts r (l'.filter p)).length by
    simpa using hall fun _ => true
  induction h with
  | nil => exact fun _ => rfl
  | cons a _ ih =>
    intro p
    rw [List.filter_cons, List.filter_cons]
    split_ifs
    · rw [firsts_cons, firsts_cons, List.length_cons, List.length_cons, List.filter_filter,
        List.filter_filter, ih]
    · exact ih p
  | swap a b l =>
    intro p
    have hcongr (hab : r a b = true) : (fun c => !r a c) = fun c => !r b c := by
      funext c
      have hiff : r a c = r b c := by
        rw [Bool.eq_iff_iff]
        exact ⟨trans (symm hab), trans hab⟩
      rw [hiff]
    simp only [List.filter_cons]
    by_cases ha : p a <;> by_cases hb : p b <;> simp only [ha, hb, if_true, if_false,
      Bool.false_eq_true]
    rw [firsts_cons, firsts_cons, List.length_cons, List.length_cons]
    by_cases hab : r a b = true
    · have hba := symm hab
      rw [List.filter_cons_of_neg (by simp [hba]), List.filter_cons_of_neg (by simp [hab]),
        hcongr hab]
    · have hba : ¬ r b a = true := fun h => hab (symm h)
      rw [List.filter_cons_of_pos (by simp [hba]), List.filter_cons_of_pos (by simp [hab]),
        firsts_cons, firsts_cons, List.length_cons, List.length_cons]
      simp only [List.filter_filter, Bool.and_left_comm, Bool.and_comm, Bool.and_assoc]
  | trans _ _ ih ih' => exact fun p => (ih p).trans (ih' p)

end Firsts

/-! ### Equal elements -/

section Equal
variable [DecidableEq α] {l : List α} {a : α}

lemma nodup_firsts : (firsts (· == ·) l).Nodup :=
  pairwise_firsts.imp fun {a b} h => by simpa using h

lemma mem_firsts_eq : a ∈ firsts (· == ·) l ↔ a ∈ l := by
  refine ⟨fun h => firsts_sublist.subset h, fun h => ?_⟩
  rcases mem_firsts (r := (· == ·)) h with h | ⟨o, ho, hoa⟩
  · exact h
  · rwa [← beq_iff_eq.1 hoa]

lemma firsts_eq_self (h : l.Nodup) : firsts (· == ·) l = l := by
  induction l using List.reverseRecOn with
  | nil => rfl
  | append_singleton l a ih =>
    obtain ⟨hl, -, hla⟩ := List.nodup_append.1 h
    rw [firsts_concat, ih hl, if_neg]
    intro hin
    obtain ⟨o, ho, hoa⟩ := List.any_eq_true.1 hin
    exact hla o ho a (List.mem_singleton_self a) (beq_iff_eq.1 hoa)

/-- What is there already changes nothing. -/
lemma firsts_append_of_mem {m : List α} (h : ∀ b ∈ m, b ∈ l) :
    firsts (· == ·) (l ++ m) = firsts (· == ·) l := by
  induction m using List.reverseRecOn with
  | nil => rw [List.append_nil]
  | append_singleton m a ih =>
    rw [← List.append_assoc, firsts_concat, ih fun b hb => h b (List.mem_append_left _ hb), if_pos]
    have ha := h a (List.mem_append_right _ (List.mem_singleton_self a))
    exact List.any_eq_true.2 ⟨a, mem_firsts_eq.2 ha, beq_self_eq_true a⟩

end Equal

/-! ### A wider relation -/

/-- What `e` counts as equal, and `r` as one occurrence, which `e` counts as equal as well. -/
structure Narrower (r : α → α → Bool) (e : α → α → Prop) : Prop where
  symm : ∀ {a b}, r a b = true → r b a = true
  trans : ∀ {a b c}, r a b = true → r b c = true → r a c = true
  left : ∀ {a b c}, r a b = true → e a c → e b c
  wide : ∀ {a b}, r a b = true → e a b
  equal_symm : ∀ {a b}, e a b → e b a
  refl : ∀ {a b}, e a b → r a a = true

section Wider
variable {r : α → α → Bool} {e : α → α → Prop} {l : List α}

namespace Narrower

lemma unequal (h : Narrower r e) : Std.Symm fun a b => ¬ e a b :=
  ⟨fun _ _ hne he => hne (h.equal_symm he)⟩

lemma apart (h : Narrower r e) : Std.Symm fun a b => r a b = false :=
  ⟨fun a b hab => eq_false_of_ne_true fun hba => by
    rw [h.symm hba] at hab
    cases hab⟩

end Narrower

lemma represented (h : Narrower r e) {a b : α} (ha : a ∈ l) (he : e a b) :
    ∃ o ∈ firsts r l, r o a = true := by
  rcases mem_firsts (r := r) ha with hin | hout
  · exact ⟨a, hin, h.refl he⟩
  · exact hout

/-- Of the first occurrences that satisfy `p` no two are equal exactly if what is equal in the list is
one occurrence. -/
theorem firsts_unequal_iff (h : Narrower r e) {p : α → Bool}
    (hp : ∀ {a b}, r a b = true → p a = p b) :
    ((firsts r l).filter p).Pairwise (fun a b => ¬ e a b)
      ↔ ∀ a ∈ l, ∀ b ∈ l, p a = true → p b = true → e a b → r a b = true := by
  constructor
  · intro hno a ha b hb hpa hpb he
    obtain ⟨a', ha', hra⟩ := represented h ha he
    obtain ⟨b', hb', hrb⟩ := represented h hb (h.equal_symm he)
    have heq : e a' b' :=
      h.equal_symm (h.left (h.symm hrb) (h.equal_symm (h.left (h.symm hra) he)))
    by_cases hab : a' = b'
    · rw [← hab] at hrb
      exact h.trans (h.symm hra) hrb
    · have := h.unequal
      have hall := hno.forall (List.mem_filter.2 ⟨ha', (hp hra).trans hpa⟩)
        (List.mem_filter.2 ⟨hb', (hp hrb).trans hpb⟩) hab
      exact absurd heq hall
  · intro hall
    refine (pairwise_firsts.filter p).imp_of_mem fun {a b} ha hb hr he => ?_
    obtain ⟨ha, hpa⟩ := List.mem_filter.1 ha
    obtain ⟨hb, hpb⟩ := List.mem_filter.1 hb
    rw [hall a (firsts_sublist.subset ha) b (firsts_sublist.subset hb) hpa hpb he] at hr
    cases hr

/-- The first occurrences for `r` are those of equal elements, and no two are equal for `e`, exactly
if elements at two places are equal for `e` where they are one element. -/
theorem firsts_perm_iff [DecidableEq α] (h : Narrower r e) :
    ((firsts r l).Perm (firsts (· == ·) l) ∧ (firsts r l).Pairwise fun a b => ¬ e a b)
      ↔ l.Pairwise fun a b => e a b ↔ a = b := by
  have hfilter := firsts_unequal_iff (l := l) h (p := fun _ => true) fun _ => rfl
  simp only [List.filter_true, true_imp_iff] at hfilter
  constructor
  · rintro ⟨hperm, hno⟩
    have hequal := hfilter.1 hno
    have hmem {a : α} (ha : a ∈ l) : a ∈ firsts r l := hperm.mem_iff.2 (mem_firsts_eq.2 ha)
    rw [List.pairwise_iff_getElem]
    intro i j hi hj hij
    have hri := List.getElem_mem hi
    have hrj := List.getElem_mem hj
    constructor
    · intro he
      by_contra hne
      have hr := hequal _ hri _ hrj he
      have := h.apart
      have hapart := pairwise_firsts.forall (hmem hri) (hmem hrj) hne
      rw [hapart] at hr
      cases hr
    · intro heq
      by_contra hne
      -- the element is kept twice, but equal elements are kept once
      have halone : ∀ b ∈ l, r b l[j] = false := fun b _ => eq_false_of_ne_true fun hb => by
        rw [heq] at hne
        exact hne (h.wide (h.trans (h.symm hb) hb))
      have htwice : 2 ≤ l.count l[j] := by
        rw [← List.duplicate_iff_two_le_count, List.duplicate_iff_exists_distinct_get]
        exact ⟨⟨i, hi⟩, ⟨j, hj⟩, hij, heq.symm, rfl⟩
      have hcount := hperm.count_eq l[j]
      rw [count_firsts halone, List.count_eq_one_of_mem nodup_firsts (mem_firsts_eq.2 hrj)] at hcount
      omega
  · intro hall
    have hsame : firsts r l = firsts (· == ·) l := by
      refine firsts_congr (hall.imp fun {a b} hab => ?_)
      rw [Bool.eq_iff_iff, beq_iff_eq]
      refine ⟨fun hr => hab.1 (h.wide hr), fun heq => ?_⟩
      rw [← heq]
      exact h.refl (hab.2 heq)
    refine ⟨hsame ▸ List.Perm.refl _, ?_⟩
    have hnodup : (firsts r l).Nodup := hsame ▸ nodup_firsts
    exact ((hall.sublist firsts_sublist).and hnodup).imp fun {a b} hab he => hab.2 (hab.1.1 he)

end Wider

/-- Each member is below those behind it. -/
def StrictAscending {α : Type*} [LT α] (l : List α) : Prop := l.Pairwise (· < ·)

section Destutter
variable {α : Type*} [DecidableEq α] {l : List α} {a x : α}

lemma mem_destutter' : x ∈ l.destutter' (· ≠ ·) a ↔ x = a ∨ x ∈ l := by
  induction l generalizing a with
  | nil => simp
  | cons b l ih =>
    by_cases hab : a = b
    · subst hab
      rw [List.destutter'_cons_neg _ (not_not.2 rfl), ih, List.mem_cons]
      tauto
    · rw [List.destutter'_cons_pos _ hab, List.mem_cons, ih, List.mem_cons]

/-- No member is lost. -/
lemma mem_destutter : x ∈ l.destutter (· ≠ ·) ↔ x ∈ l := by
  cases l with
  | nil => rfl
  | cons a l => rw [List.destutter_cons', mem_destutter', List.mem_cons]

end Destutter

section Order
variable {α : Type*} [LE α] [LT α] [Std.IsLinearOrder α] [Std.LawfulOrderLT α] [DecidableEq α]
  {l : List α} {a : α}

lemma strictAscending_destutter' (h : (a :: l).Pairwise (· ≤ ·)) : StrictAscending (l.destutter' (· ≠ ·) a) := by
  induction l generalizing a with
  | nil => exact List.pairwise_singleton _ _
  | cons b l ih =>
    obtain ⟨ha, hl⟩ := List.pairwise_cons.1 h
    by_cases hab : a = b
    · subst hab
      rw [List.destutter'_cons_neg _ (not_not.2 rfl)]
      exact ih hl
    · rw [List.destutter'_cons_pos _ hab]
      refine List.pairwise_cons.2 ⟨fun c hc => ?_, ih hl⟩
      have hlt : a < b := Std.lt_of_le_of_ne (ha b List.mem_cons_self) hab
      rcases mem_destutter'.1 hc with rfl | hc
      · exact hlt
      · exact Std.lt_of_lt_of_le hlt ((List.pairwise_cons.1 hl).1 c hc)

/-- A sorted list in which equal neighbours are one is strictly ascending. -/
lemma strictAscending_destutter (h : l.Pairwise (· ≤ ·)) : StrictAscending (l.destutter (· ≠ ·)) := by
  cases l with
  | nil => exact List.Pairwise.nil
  | cons a l => exact strictAscending_destutter' h

end Order

end Arkeion.Lib
