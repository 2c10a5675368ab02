import Mathlib.Data.List.TakeWhile
import Mathlib.Order.Nat

/-!
Binary search over the indices of a range, by a question that may fail.

`lowerBound` is the loop that halves a range until it finds the first index at which the
question is answered with no; `search` is the one that stops where the answer is "equal". `partitionPoint` is the same index of a list, and `lowerBound` finds it.
-/

namespace Arkeion.Lib

variable {ε α : Type*}

/-- The first index in `[lo, hi)` that is not before the target; the first argument bounds the
number of halvings. -/
def lowerBound (before : ℕ → Except ε Bool) : ℕ → ℕ → ℕ → Except ε ℕ
  | 0, lo, _ => .ok lo
  | n + 1, lo, hi =>
    if lo < hi then
      match before (lo + (hi - lo) / 2) with
      | .error e => .error e
      | .ok true => lowerBound before n (lo + (hi - lo) / 2 + 1) hi
      | .ok false => lowerBound before n lo (lo + (hi - lo) / 2)
    else .ok lo

/-- What is found at an index in `[lo, hi)` that compares equal to the target. -/
def search (cmp : ℕ → Except ε (Ordering × α)) : ℕ → ℕ → ℕ → Except ε (Option α)
  | 0, _, _ => .ok none
  | n + 1, lo, hi =>
    if lo < hi then
      match cmp (lo + (hi - lo) / 2) with
      | .error e => .error e
      | .ok (.eq, a) => .ok (some a)
      | .ok (.lt, _) => search cmp n (lo + (hi - lo) / 2 + 1) hi
      | .ok (.gt, _) => search cmp n lo (lo + (hi - lo) / 2)
    else .ok none

/-- The search ends at the index where the answer turns. -/
theorem lowerBound_eq {before : ℕ → Except ε Bool} {n lo hi r : ℕ}
    (h : ∀ i, lo ≤ i → i < hi → before i = .ok (decide (i < r))) (hlo : lo ≤ r) (hhi : r ≤ hi)
    (hn : hi - lo ≤ n) : lowerBound before n lo hi = .ok r := by
  induction n generalizing lo hi with
  | zero =>
    have : lo = r := by omega
    rw [lowerBound, this]
  | succ n ih =>
    unfold lowerBound
    split_ifs with hlt
    · have hmid : lo + (hi - lo) / 2 < hi := by omega
      rw [h _ (by omega) hmid]
      by_cases hr : lo + (hi - lo) / 2 < r
      · rw [decide_eq_true hr]
        exact ih (fun i h1 h2 => h i (by omega) h2) (by omega) hhi (by omega)
      · rw [decide_eq_false hr]
        exact ih (fun i h1 h2 => h i h1 (by omega)) hlo (by omega) (by omega)
    · have : lo = r := by omega
      rw [this]

/-- The search finds the target at the index where the answer turns, or nothing. -/
theorem search_eq {cmp : ℕ → Except ε (Ordering × α)} {n lo hi r : ℕ} {found : Option α}
    (hbelow : ∀ i, lo ≤ i → i < hi → i < r → ∃ a, cmp i = .ok (.lt, a))
    (hat : r < hi → (∃ a, cmp r = .ok (.eq, a) ∧ found = some a) ∨
      (∃ a, cmp r = .ok (.gt, a)) ∧ found = none)
    (habove : ∀ i, lo ≤ i → i < hi → r < i → ∃ a, cmp i = .ok (.gt, a))
    (hend : r = hi → found = none) (hlo : lo ≤ r) (hhi : r ≤ hi) (hn : hi - lo ≤ n) :
    search cmp n lo hi = .ok found := by
  induction n generalizing lo hi with
  | zero =>
    rw [search, hend (by omega)]
  | succ n ih =>
    unfold search
    split_ifs with hlt
    · have hmid : lo + (hi - lo) / 2 < hi := by omega
      rcases Nat.lt_trichotomy (lo + (hi - lo) / 2) r with hr | hr | hr
      · obtain ⟨a, ha⟩ := hbelow _ (by omega) hmid hr
        rw [ha]
        exact ih (fun i h1 h2 h3 => hbelow i (by omega) h2 h3) hat
          (fun i h1 h2 h3 => habove i (by omega) h2 h3) hend (by omega) hhi (by omega)
      · rw [hr]
        rcases hat (by omega) with ⟨a, ha, hf⟩ | ⟨⟨a, ha⟩, hf⟩
        · rw [ha, hf]
        · rw [ha]
          exact ih (fun i h1 h2 h3 => hbelow i h1 (by omega) h3) (fun hlt => absurd hlt (lt_irrefl r))
            (fun i h1 h2 h3 => by omega) (fun _ => hf) hlo le_rfl (by omega)
      · obtain ⟨a, ha⟩ := habove _ (by omega) hmid hr
        rw [ha]
        exact ih (fun i h1 h2 h3 => hbelow i h1 (by omega) h3) (fun hlt => hat (by omega))
          (fun i h1 h2 h3 => habove i h1 (by omega) h3) (fun hr' => by omega) hlo (by omega)
          (by omega)
    · rw [hend (by omega)]

/-! ### Of a list -/

/-- The index of the first element that the question is answered with no for. -/
def partitionPoint (p : α → Bool) (l : List α) : ℕ := (l.takeWhile p).length

section Partition
variable {p : α → Bool} {l r : List α}

lemma partitionPoint_le : partitionPoint p l ≤ l.length := by
  have := congrArg List.length (List.takeWhile_append_dropWhile (p := p) (l := l))
  rw [List.length_append] at this
  rw [partitionPoint]
  omega

lemma partitionPoint_append (hl : ∀ a ∈ l, p a) (hr : ∀ a ∈ r.head?, p a = false) :
    partitionPoint p (l ++ r) = l.length := by
  rw [partitionPoint, List.takeWhile_append_of_pos hl]
  cases r with
  | nil => simp
  | cons b r => simp [hr b (by simp)]

/-- The list is split at its partition point. -/
lemma exists_partition (p : α → Bool) (l : List α) : ∃ l₁ l₂, l = l₁ ++ l₂ ∧
    (∀ a ∈ l₁, p a) ∧ (∀ a ∈ l₂.head?, p a = false) ∧ partitionPoint p l = l₁.length := by
  refine ⟨l.takeWhile p, l.dropWhile p, List.takeWhile_append_dropWhile.symm,
    fun a ha => List.mem_takeWhile_imp ha, fun a ha => ?_, rfl⟩
  have := List.head?_dropWhile_not p l
  rw [Option.mem_def.1 ha] at this
  simpa using this

/-- Where the answer never turns back to yes, it turns at the partition point. -/
lemma lt_partitionPoint (h : l.Pairwise fun a b => p b → p a) {i : ℕ} {a : α}
    (ha : l[i]? = some a) : decide (i < partitionPoint p l) = p a := by
  obtain ⟨l₁, l₂, rfl, h₁, h₂, hpt⟩ := exists_partition p l
  rw [hpt]
  by_cases hi : i < l₁.length
  · rw [List.getElem?_append_left hi] at ha
    rw [decide_eq_true hi, h₁ a (List.mem_of_getElem? ha)]
  · rw [List.getElem?_append_right (by omega)] at ha
    rw [decide_eq_false hi]
    cases l₂ with
    | nil => simp at ha
    | cons b l₂ =>
      have hb : p b = false := h₂ b (by simp)
      rcases List.mem_cons.1 (List.mem_of_getElem? ha) with rfl | hmem
      · exact hb.symm
      · have := (List.pairwise_cons.1 (List.pairwise_append.1 h).2.1).1 a hmem
        cases hpa : p a with
        | false => rfl
        | true => exact absurd (this hpa) (by simp [hb])

/-- Binary search over a list finds its partition point. -/
theorem lowerBound_list {before : ℕ → Except ε Bool} (h : l.Pairwise fun a b => p b → p a)
    (hb : ∀ i a, l[i]? = some a → before i = .ok (p a)) :
    lowerBound before l.length 0 l.length = .ok (partitionPoint p l) := by
  refine lowerBound_eq (fun i _ hi => ?_) (Nat.zero_le _) partitionPoint_le (by omega)
  have ha := List.getElem?_eq_getElem hi
  rw [hb i _ ha, lt_partitionPoint h ha]

end Partition

/-- Binary search over a list in strictly ascending order finds the element that compares
equal, if there is one. -/
theorem search_list {β : Type*} {l : List β} {cmp : ℕ → Except ε (Ordering × α)}
    {c : β → Ordering} {R : β → α → Prop} (h : l.Pairwise fun a b => c b ≠ .gt → c a = .lt)
    (hc : ∀ i b, l[i]? = some b → ∃ a, cmp i = .ok (c b, a) ∧ R b a) :
    (search cmp l.length 0 l.length = .ok none ∧ ∀ b ∈ l, c b ≠ .eq) ∨
    ∃ b a, b ∈ l ∧ c b = .eq ∧ R b a ∧ search cmp l.length 0 l.length = .ok (some a) := by
  obtain ⟨l₁, l₂, rfl, h₁, h₂, -⟩ := exists_partition (fun b => c b == .lt) l
  obtain ⟨-, hp₂, -⟩ := List.pairwise_append.1 h
  have hbelow (i : ℕ) (hi : i < l₁.length) : ∃ a, cmp i = .ok (.lt, a) := by
    have hget : (l₁ ++ l₂)[i]? = some l₁[i] := by
      rw [List.getElem?_append_left hi, List.getElem?_eq_getElem hi]
    obtain ⟨a, ha, -⟩ := hc i _ hget
    have hlt : c l₁[i] = .lt := by simpa using h₁ _ (List.getElem_mem hi)
    exact ⟨a, by rw [ha, hlt]⟩
  have habove (i : ℕ) (hi : i < (l₁ ++ l₂).length) (hl : l₁.length < i) :
      ∃ a, cmp i = .ok (.gt, a) := by
    obtain ⟨a, ha, -⟩ := hc i _ (List.getElem?_eq_getElem hi)
    have hhead : (l₁ ++ l₂)[l₁.length]? = l₂.head? := by
      rw [List.getElem?_append_right le_rfl, Nat.sub_self, List.head?_eq_getElem?]
    have hnot : c (l₁ ++ l₂)[l₁.length] ≠ .lt := by
      have := h₂ (l₁ ++ l₂)[l₁.length] (by
        rw [← hhead, List.getElem?_eq_getElem (hl.trans hi)]
        rfl)
      simpa using this
    have hpair := List.pairwise_iff_getElem.1 h l₁.length i (hl.trans hi) hi hl
    have hgt : c (l₁ ++ l₂)[i] = .gt := by
      by_contra hne
      exact hnot (hpair hne)
    exact ⟨a, by rw [ha, hgt]⟩
  have hne₁ : ∀ b ∈ l₁, c b ≠ .eq := fun b hb => by
    have : c b = .lt := by simpa using h₁ b hb
    simp [this]
  cases l₂ with
  | nil =>
    refine Or.inl ⟨search_eq (r := l₁.length) (fun i _ _ hi => hbelow i hi)
      (fun hlt => by simp at hlt) (fun i _ hi hl => habove i hi hl) (fun _ => rfl) (Nat.zero_le _)
      (by simp) (by omega), fun b hb => hne₁ b (by simpa using hb)⟩
  | cons b l₂ =>
    obtain ⟨a, ha, hR⟩ := hc l₁.length b (by simp)
    have hnot : c b ≠ .lt := by simpa using h₂ b (by simp)
    have hle : l₁.length < (l₁ ++ b :: l₂).length := by simp
    by_cases heq : c b = .eq
    · rw [heq] at ha
      exact Or.inr ⟨b, a, by simp, heq, hR, search_eq (r := l₁.length)
        (fun i _ _ hi => hbelow i hi) (fun _ => Or.inl ⟨a, ha, rfl⟩)
        (fun i _ hi hl => habove i hi hl) (fun hr => by omega) (Nat.zero_le _) hle.le (by omega)⟩
    · have hgt : c b = .gt := by
        cases hb : c b with
        | lt => exact absurd hb hnot
        | eq => exact absurd hb heq
        | gt => rfl
      rw [hgt] at ha
      refine Or.inl ⟨search_eq (r := l₁.length) (fun i _ _ hi => hbelow i hi)
        (fun _ => Or.inr ⟨⟨a, ha⟩, rfl⟩) (fun i _ hi hl => habove i hi hl) (fun _ => rfl)
        (Nat.zero_le _) hle.le (by omega), fun d hd => ?_⟩
      rcases List.mem_append.1 hd with hd | hd
      · exact hne₁ d hd
      · rcases List.mem_cons.1 hd with rfl | hd
        · exact heq
        · intro hdeq
          exact hnot ((List.pairwise_cons.1 hp₂).1 d hd (by simp [hdeq]))

end Arkeion.Lib
