import Arkeion.BtreeRead
import Arkeion.StoreHom
import Arkeion.Lib.MapDiff

/-!
The differences between two trees that share pages.

Subtrees under the same page are passed over. The other pairs of children are compared range by
range, so the result is the difference of the two maps.
-/

namespace Arkeion

open Arkeion.Lib

namespace Btree

open NodeSource Node LeafShape

abbrev KeyChange := Change Bytes

/-- A key that differs, with its change. -/
abbrev KeyDiff := Bytes × KeyChange

/-! ### The differences as the code computes them -/

section Diff
variable {σ : Type} [NodeSource σ]

/-- The greater lower end; `none` is no bound. -/
def maxLower : Option Bytes → Option Bytes → Option Bytes
  | none, x => x
  | x, none => x
  | some x, some y => some (max x y)

/-- The smaller upper end; `none` is no bound. -/
def minUpper : Option Bytes → Option Bytes → Option Bytes
  | none, x => x
  | x, none => x
  | some x, some y => some (min x y)

def rangeValid : Option Bytes → Option Bytes → Bool
  | some l, some h => decide (l < h)
  | _, _ => true

/-- The children of an inner node with their ranges. -/
def childIntervals (s : σ) (id : ℕ) : Result (List (Option Bytes × Option Bytes × ℕ)) := do
  let b ← body s id
  let (cells, rightmost) ← parseInner id b
  .ok (childRanges none none cells rightmost)

/-- `for item in scan_from`: the body of the loop gives the new state, or `none` to break. -/
def loopScan {α : Type} (s : σ) (n : ℕ) (step : Bytes × Bytes → α → Result (Option α)) :
    ℕ → CursorState → α → Result α
  | 0, _, _ => .error .outOfFuel
  | m + 1, st, acc => do
    let next ← advance s n n st
    match next with
    | none => .ok acc
    | some (entry, st) => do
      let new ← step entry acc
      match new with
      | none => .ok acc
      | some acc => loopScan s n step m st acc

def forScan {α : Type} (s : σ) (n root : ℕ) (start : Option Bytes)
    (step : Bytes × Bytes → α → Result (Option α)) (acc : α) : Result α := do
  let st ← scanState s n root start
  loopScan s n step n st acc

/-- The entries of a subtree in `[lo, hi)`. -/
def collectRange (s : σ) (n id : ℕ) (lo hi : Option Bytes) : Result Entries :=
  if id = NO_ROOT then .ok []
  else forScan s n id (some (lo.getD []))
    (fun entry out => .ok (if hi.any fun h => h ≤ entry.1 then none else some (out ++ [entry]))) []

def diffFlat (s : σ) (n a b : ℕ) (lo hi : Option Bytes) : Result (List KeyDiff) := do
  let as ← collectRange s n a lo hi
  let bs ← collectRange s n b lo hi
  .ok (diffMaps as bs)

/-- The differences of two children where their ranges and the outer one meet. -/
def diffSegment (diff : ℕ → ℕ → Option Bytes → Option Bytes → Result (List KeyDiff))
    (lo hi : Option Bytes) (a b : ℕ) : Result (List KeyDiff) :=
  if rangeValid lo hi then diff a b lo hi else .ok []

/-- The children left when those with the smaller upper end are done; `none` is above all. -/
def nextChildren (a b : Option Bytes × Option Bytes × ℕ)
    (as bs : List (Option Bytes × Option Bytes × ℕ)) :
    List (Option Bytes × Option Bytes × ℕ) × List (Option Bytes × Option Bytes × ℕ) :=
  match a.2.1, b.2.1 with
  | none, none => (as, bs)
  | none, some _ => (a :: as, bs)
  | some _, none => (as, b :: bs)
  | some x, some y =>
    if x < y then (as, b :: bs)
    else if y < x then (a :: as, bs)
    else (as, bs)

/-- The loop over the children of two inner nodes. -/
def diffChildren (diff : ℕ → ℕ → Option Bytes → Option Bytes → Result (List KeyDiff))
    (lo hi : Option Bytes) : ℕ → List (Option Bytes × Option Bytes × ℕ) →
      List (Option Bytes × Option Bytes × ℕ) → Result (List KeyDiff)
  | 0, _, _ => .error .outOfFuel
  | k + 1, a :: as, b :: bs => do
    let seg_lo := maxLower (maxLower a.1 b.1) lo
    let seg_hi := minUpper (minUpper a.2.1 b.2.1) hi
    let out ← diffSegment diff seg_lo seg_hi a.2.2 b.2.2
    let next := nextChildren a b as bs
    let rest ← diffChildren diff lo hi k next.1 next.2
    .ok (out ++ rest)
  | _ + 1, _, _ => .ok []

/-- `diff_range`: the differences in a range; the first fuel is for the scans, the second bounds
the heights. -/
def diffRange (s : σ) (n : ℕ) : ℕ → ℕ → ℕ → Option Bytes → Option Bytes → Result (List KeyDiff)
  | 0, _, _, _, _ => .error .outOfFuel
  | k + 1, a, b, lo, hi =>
    if a = b then .ok []
    else if a = NO_ROOT then do
      let es ← collectRange s n b lo hi
      .ok (es.map fun e => (e.1, .added e.2))
    else if b = NO_ROOT then do
      let es ← collectRange s n a lo hi
      .ok (es.map fun e => (e.1, .removed e.2))
    else do
      let abody ← body s a
      let bbody ← body s b
      if nodeType abody = TYPE_INNER ∧ nodeType bbody = TYPE_INNER then do
        let as ← childIntervals s a
        let bs ← childIntervals s b
        diffChildren (diffRange s n k) lo hi (as.length + bs.length + 1) as bs
      else diffFlat s n a b lo hi

def diff (s : σ) (n a b : ℕ) : Result (List KeyDiff) := diffRange s n n a b none none

end Diff

/-! ### Ranges -/

instance instDecidableInRange (lo hi : Option Bytes) : DecidablePred (InRange lo hi) :=
  fun k => inferInstanceAs (Decidable ((∀ l ∈ lo, l ≤ k) ∧ ∀ h ∈ hi, k < h))

/-- The entries with their keys in a range. -/
def within (lo hi : Option Bytes) (kvs : Entries) : Entries := kvs.filter fun p => InRange lo hi p.1

lemma within_open (kvs : Entries) : within none none kvs = kvs :=
  List.filter_eq_self.2 fun p _ => by simp [InRange]

lemma le_maxLower {a b : Option Bytes} {k : Bytes} :
    (∀ l ∈ maxLower a b, l ≤ k) ↔ (∀ l ∈ a, l ≤ k) ∧ ∀ l ∈ b, l ≤ k := by
  cases a <;> cases b <;> simp [maxLower]

lemma lt_minUpper {a b : Option Bytes} {k : Bytes} :
    (∀ h ∈ minUpper a b, k < h) ↔ (∀ h ∈ a, k < h) ∧ ∀ h ∈ b, k < h := by
  cases a <;> cases b <;> simp [minUpper]

lemma within_eq_nil {lo hi : Option Bytes} (h : rangeValid lo hi = false) (kvs : Entries) :
    within lo hi kvs = [] := by
  refine List.filter_eq_nil_iff.2 fun p _ => ?_
  cases lo <;> cases hi <;> simp only [rangeValid, reduceCtorEq] at h
  rename_i l u
  simp only [decide_eq_false_iff_not, not_lt] at h
  simp only [InRange, Option.mem_def, Option.some.injEq, forall_eq', decide_eq_true_eq, not_and,
    not_lt]
  exact fun hl => h.trans hl

/-! ### Collecting a range -/

section Collect
variable {σ : Type} [NodeStore σ] {s : σ} {m n : ℕ} {kvs : Entries} {F : List ℕ}

/-- The loop of a scan as a loop over the entries. -/
def loopOver {α : Type} (step : Bytes × Bytes → α → Result (Option α)) : Entries → α → Result α
  | [], acc => .ok acc
  | entry :: kvs, acc => do
    let new ← step entry acc
    match new with
    | none => .ok acc
    | some acc => loopOver step kvs acc

lemma loopScan_rest {α : Type} (step : Bytes × Bytes → α → Result (Option α)) {k f : ℕ}
    {st : CursorState} (acc : α) (h : Rest s m n st kvs) (hm : m ≤ k) (hn : n + 2 ≤ k)
    (hf : kvs.length < f) : loopScan s k step f st acc = loopOver step kvs acc := by
  have hstack : st.stack.length + 2 ≤ k := by
    obtain ⟨h, -, -, -, -, -, hlen⟩ := h
    omega
  induction kvs generalizing f st acc with
  | nil =>
    obtain ⟨f, rfl⟩ : ∃ f', f = f' + 1 := ⟨f - 1, by omega⟩
    rcases advance_rest h hm (by omega) hstack with ⟨-, hadv⟩ | ⟨p, rest, st', hp, -, -⟩
    · simp only [loopScan, hadv, ok_bind]
      rfl
    · cases hp
  | cons p kvs ih =>
    obtain ⟨f, rfl⟩ : ∃ f', f = f' + 1 := ⟨f - 1, by omega⟩
    rcases advance_rest h hm (by omega) hstack with ⟨hnil, -⟩ | ⟨q, rest, st', hq, hadv, hrest⟩
    · cases hnil
    · cases hq
      have hstack' : st'.stack.length + 2 ≤ k := by
        obtain ⟨h, -, -, -, -, -, hlen⟩ := hrest
        omega
      simp only [loopScan, hadv, ok_bind, loopOver]
      refine bind_congr fun new => ?_
      cases new with
      | none => rfl
      | some acc => exact ih acc hrest (by simpa using hf) hstack'

/-- A loop over a scan of a tree is a loop over its entries from the start on. -/
lemma forScan_eq {α : Type} (step : Bytes × Bytes → α → Result (Option α)) {k root : ℕ} (acc : α)
    (h : TreeHolds s m n root kvs F) (hm : m ≤ k) (hn : n + 2 ≤ k) (hk : kvs.length < k)
    (start : Option Bytes) :
    forScan s k root start step acc = loopOver step (fromStart start kvs) acc := by
  obtain ⟨st, hst, hrest⟩ := scanState_rest h (show n ≤ k by omega) start
  rw [forScan, hst, ok_bind]
  exact loopScan_rest step acc hrest hm hn ((length_fromStart_le start kvs).trans_lt hk)

lemma loopOver_below (hi : Option Bytes) (hs : SortedMap kvs) (out : Entries) :
    loopOver (fun entry out => .ok (if hi.any fun h => h ≤ entry.1 then none
      else some (out ++ [entry]))) kvs out = .ok (out ++ within none hi kvs) := by
  induction kvs generalizing out with
  | nil => simp [loopOver, within]
  | cons p kvs ih =>
    obtain ⟨hp, hs'⟩ := sortedMap_cons.1 hs
    rw [loopOver, ok_bind]
    by_cases hany : ∃ u ∈ hi, u ≤ p.1
    · obtain ⟨u, rfl, hu⟩ := hany
      have hnil : within none (some u) (p :: kvs) = [] := by
        refine List.filter_eq_nil_iff.2 fun q hq => ?_
        have hge : u ≤ q.1 := by
          rcases List.mem_cons.1 hq with rfl | hq
          · exact hu
          · exact hu.trans (hp q hq).le
        simpa [InRange] using hge
      rw [if_pos (by simpa using hu), hnil, List.append_nil]
    · have hin : InRange none hi p.1 :=
        ⟨by simp, fun u hu => lt_of_not_ge fun hle => hany ⟨u, hu, hle⟩⟩
      have hnot : ¬ (hi.any fun h => decide (h ≤ p.1)) = true := by
        cases hi with
        | none => simp
        | some u => simpa using hin.2 u rfl
      have hcons : within none hi (p :: kvs) = p :: within none hi kvs := by
        rw [within, List.filter_cons, if_pos (decide_eq_true hin), within]
      rw [if_neg hnot, hcons]
      simpa using ih hs' (out ++ [p])

lemma within_fromKey (lo hi : Option Bytes) (kvs : Entries) :
    within none hi (fromKey (lo.getD []) kvs) = within lo hi kvs := by
  rw [within, fromKey, List.filter_filter, within]
  refine List.filter_congr fun p _ => ?_
  have hnil : [] ≤ p.1 := not_lt.1 (List.not_lt_nil p.1)
  cases lo with
  | none => simp [InRange, hnil]
  | some l => simp [InRange, Bool.and_comm]

/-- Collecting a range of a tree gives the entries there. -/
lemma collectRange_eq {k root : ℕ} (h : TreeHolds s m n root kvs F) (hm : m ≤ k) (hn : n + 2 ≤ k)
    (hk : kvs.length < k) (lo hi : Option Bytes) :
    collectRange s k root lo hi = .ok (within lo hi kvs) := by
  rw [collectRange]
  split_ifs with hroot
  · rcases h with ⟨-, rfl, -⟩ | h
    · rfl
    · cases n with
      | zero => exact absurd h (fun h => h)
      | succ n => exact absurd hroot h.1
  · rw [forScan_eq _ _ h hm hn hk, ← within_fromKey]
    exact loopOver_below hi (h.sorted.filter _) []

/-- The entries of a tree are determined by its root. -/
lemma TreeHolds.unique {m' n' root : ℕ} {kvs' : Entries} {F' : List ℕ}
    (h : TreeHolds s m n root kvs F) (h' : TreeHolds s m' n' root kvs' F') : kvs = kvs' := by
  have hscan := scan_eq (k := m + m' + n + n' + kvs.length + kvs'.length + 2) h (by omega)
    (by omega) (by omega)
  rw [scan_eq h' (by omega) (by omega) (by omega)] at hscan
  cases hscan
  rfl

end Collect

/-! ### The pairs of children -/

@[simp] lemma minUpper_none_left (x : Option Bytes) : minUpper none x = x := rfl

@[simp] lemma minUpper_none_right (x : Option Bytes) : minUpper x none = x := by cases x <;> rfl

/-- The lower ends after a cut at `x`. -/
lemma inRange_maxLower {l l' n n' lo hi : Option Bytes} {x k : Bytes}
    (h : ((∀ y ∈ n, y ≤ k) ∧ ∀ y ∈ n', y ≤ k) ↔ x ≤ k ∧ (∀ y ∈ l, y ≤ k) ∧ ∀ y ∈ l', y ≤ k) :
    InRange (maxLower (maxLower n n') lo) hi k ↔
      ¬ k < x ∧ InRange (maxLower (maxLower l l') lo) hi k := by
  rw [not_lt, InRange, InRange, le_maxLower, le_maxLower, le_maxLower, le_maxLower, h]
  tauto

/-- The segment below a cut at `x`, and what is behind it. A side whose child ends there goes on
with its next child, the other one stays. -/
lemma diff_cut {kA kA' kB kB' newA newB : Entries} {l l' n n' lo hi : Option Bytes} {x : Bytes}
    (hA : SortedMap (kA ++ kA')) (hB : SortedMap (kB ++ kB')) (hA' : ∀ p ∈ kA', x ≤ p.1)
    (hB' : ∀ p ∈ kB', x ≤ p.1) (hnewA : newA = kA ++ kA' ∨ newA = kA' ∧ ∀ p ∈ kA, p.1 < x)
    (hnewB : newB = kB ++ kB' ∨ newB = kB' ∧ ∀ p ∈ kB, p.1 < x)
    (hn : ∀ k, ((∀ y ∈ n, y ≤ k) ∧ ∀ y ∈ n', y ≤ k) ↔
      x ≤ k ∧ (∀ y ∈ l, y ≤ k) ∧ ∀ y ∈ l', y ≤ k) :
    diffMaps (within (maxLower (maxLower l l') lo) (minUpper (some x) hi) kA)
        (within (maxLower (maxLower l l') lo) (minUpper (some x) hi) kB) ++
      diffMaps (within (maxLower (maxLower n n') lo) hi newA)
        (within (maxLower (maxLower n n') lo) hi newB)
      = diffMaps (within (maxLower (maxLower l l') lo) hi (kA ++ kA'))
          (within (maxLower (maxLower l l') lo) hi (kB ++ kB')) := by
  have low {k k' : Entries} (hk : ∀ p ∈ k', x ≤ p.1) :
      within (maxLower (maxLower l l') lo) (minUpper (some x) hi) k
        = (within (maxLower (maxLower l l') lo) hi (k ++ k')).filter fun p => p.1 < x := by
    have hnone : k'.filter (fun p => decide (p.1 < x) &&
        decide (InRange (maxLower (maxLower l l') lo) hi p.1)) = [] :=
      List.filter_eq_nil_iff.2 fun p hp => by simp [not_lt.2 (hk p hp)]
    rw [within, within, List.filter_filter, List.filter_append, hnone, List.append_nil]
    refine List.filter_congr fun p _ => ?_
    rw [← Bool.decide_and, decide_eq_decide, InRange, InRange, lt_minUpper]
    simp only [Option.mem_some_iff, forall_eq']
    tauto
  have high {k k' new : Entries} (hnew : new = k ++ k' ∨ new = k' ∧ ∀ p ∈ k, p.1 < x) :
      within (maxLower (maxLower n n') lo) hi new
        = (within (maxLower (maxLower l l') lo) hi (k ++ k')).filter fun p => ¬ p.1 < x := by
    have hcongr (k : Entries) : within (maxLower (maxLower n n') lo) hi k = k.filter fun p =>
        decide (¬ p.1 < x) && decide (InRange (maxLower (maxLower l l') lo) hi p.1) :=
      List.filter_congr fun p _ => by
        rw [← Bool.decide_and, decide_eq_decide, inRange_maxLower (hn p.1)]
    rw [hcongr, within, List.filter_filter]
    rcases hnew with rfl | ⟨rfl, hk⟩
    · rfl
    · have hnone : k.filter (fun p => decide (¬ p.1 < x) &&
          decide (InRange (maxLower (maxLower l l') lo) hi p.1)) = [] :=
        List.filter_eq_nil_iff.2 fun p hp => by simp [hk p hp]
      rw [List.filter_append, hnone, List.nil_append]
  rw [low hA', low hB', high hnewA, high hnewB]
  exact diffMaps_split (fun y z hyz hz => hyz.trans hz) (hA.filter _) (hB.filter _)

section Children
variable {PA PB : Option Bytes × Option Bytes × ℕ → Entries → List ℕ → Prop}
  {diff : ℕ → ℕ → Option Bytes → Option Bytes → Result (List KeyDiff)}

/-- What is to hold of the children from a lower end on. -/
structure Kids (P : Option Bytes × Option Bytes × ℕ → Entries → List ℕ → Prop)
    (l : Option Bytes) (cells : List InnerCell) (r : ℕ) (kvs : Entries) : Prop where
  sorted : (cells.map InnerCell.key).Pairwise (· < ·)
  inside : ∀ c ∈ cells, Inside l none c.key
  cat : ∃ F, Cat P (childRanges l none cells r) kvs F

lemma Kids.cons {l : Option Bytes} {c : InnerCell} {cells : List InnerCell} {r : ℕ}
    {kvs : Entries} (h : Kids PA l (c :: cells) r kvs) : ∃ k k' G, kvs = k ++ k' ∧
      PA (l, some c.key, c.child) k G ∧ Kids PA (some c.key) cells r k' := by
  obtain ⟨F, k, k', F₁, F₂, rfl, rfl, hc, hrest⟩ := h.cat
  have hs := h.sorted
  rw [List.map_cons, List.pairwise_cons] at hs
  refine ⟨k, k', F₁, rfl, hc, hs.2, fun d hd => ⟨fun x hx => ?_, by simp⟩, F₂, hrest⟩
  cases hx
  exact hs.1 _ (List.mem_map_of_mem hd)

lemma Kids.ordered (hP : ∀ {lo hi id k G}, PA (lo, hi, id) k G → Ordered lo hi k)
    {l : Option Bytes} {cells : List InnerCell} {r : ℕ} {kvs : Entries}
    (h : Kids PA l cells r kvs) : Ordered l none kvs := by
  obtain ⟨F, hcat⟩ := h.cat
  exact ordered_childRanges hP h.sorted h.inside hcat

variable (PA PB) in
/-- The loop over the children gives the difference behind the lower ends. -/
lemma diffChildren_eq (hPA : ∀ {lo hi id k G}, PA (lo, hi, id) k G → Ordered lo hi k)
    (hPB : ∀ {lo hi id k G}, PB (lo, hi, id) k G → Ordered lo hi k) {lo hi : Option Bytes}
    (hdiff : ∀ {lo₁ hi₁ a kA G lo₂ hi₂ b kB H}, PA (lo₁, hi₁, a) kA G → PB (lo₂, hi₂, b) kB H →
      ∀ lo hi, diff a b lo hi = .ok (diffMaps (within lo hi kA) (within lo hi kB)))
    {l l' : Option Bytes} {cells cells' : List InnerCell} {r r' k : ℕ} {kvsA kvsB : Entries}
    (hA : Kids PA l cells r kvsA) (hB : Kids PB l' cells' r' kvsB)
    (hk : cells.length + cells'.length + 2 ≤ k) :
    diffChildren diff lo hi k (childRanges l none cells r) (childRanges l' none cells' r')
      = .ok (diffMaps (within (maxLower (maxLower l l') lo) hi kvsA)
          (within (maxLower (maxLower l l') lo) hi kvsB)) := by
  have hseg {lo₁ hi₁ a kA G lo₂ hi₂ b kB H} (ha : PA (lo₁, hi₁, a) kA G)
      (hb : PB (lo₂, hi₂, b) kB H) (lo hi : Option Bytes) :
      diffSegment diff lo hi a b = .ok (diffMaps (within lo hi kA) (within lo hi kB)) := by
    rw [diffSegment]
    cases hv : rangeValid lo hi with
    | true => rw [if_pos rfl, hdiff ha hb]
    | false =>
      rw [if_neg Bool.false_ne_true, within_eq_nil hv, within_eq_nil hv]
      rfl
  have hbelow {l : Option Bytes} {x y : Bytes} {kc : Entries} (ho : Ordered l (some x) kc)
      (hxy : x ≤ y) : ∀ p ∈ kc, p.1 < y := fun p hp => ((ho.range p hp).2 x rfl).trans_le hxy
  have habove {x y : Bytes} {kr : Entries} (ho : Ordered (some x) none kr) (hyx : y ≤ x) :
      ∀ p ∈ kr, y ≤ p.1 := fun p hp => hyx.trans ((ho.range p hp).1 x rfl)
  -- a lower end that moved up to the cut is not below the old one
  have hleft {l : Option Bytes} {x : Bytes} (l' : Option Bytes) (h : ∀ y ∈ l, y < x) (k : Bytes) :
      ((∀ y ∈ some x, y ≤ k) ∧ ∀ y ∈ l', y ≤ k) ↔
        x ≤ k ∧ (∀ y ∈ l, y ≤ k) ∧ ∀ y ∈ l', y ≤ k := by
    simp only [Option.mem_some_iff, forall_eq']
    exact ⟨fun ⟨hx, hl'⟩ => ⟨hx, fun y hy => (h y hy).le.trans hx, hl'⟩, fun ⟨hx, _, hl'⟩ =>
      ⟨hx, hl'⟩⟩
  have hright {l' : Option Bytes} {x : Bytes} (l : Option Bytes) (h : ∀ y ∈ l', y < x) (k : Bytes) :
      ((∀ y ∈ l, y ≤ k) ∧ ∀ y ∈ some x, y ≤ k) ↔
        x ≤ k ∧ (∀ y ∈ l, y ≤ k) ∧ ∀ y ∈ l', y ≤ k := by
    rw [and_comm, hleft l h, and_comm (a := ∀ y ∈ l', y ≤ k)]
  have hboth {l l' : Option Bytes} {x : Bytes} (h : ∀ y ∈ l, y < x) (h' : ∀ y ∈ l', y < x)
      (k : Bytes) : ((∀ y ∈ some x, y ≤ k) ∧ ∀ y ∈ some x, y ≤ k) ↔
        x ≤ k ∧ (∀ y ∈ l, y ≤ k) ∧ ∀ y ∈ l', y ≤ k := by
    rw [hleft (some x) h, hright l h']
    tauto
  induction k generalizing l l' cells cells' kvsA kvsB with
  | zero => omega
  | succ k ih =>
    have hoA := hA.ordered hPA
    have hoB := hB.ordered hPB
    cases cells with
    | nil =>
      obtain ⟨F, hcatA⟩ := hA.cat
      have ha := cat_singleton.1 hcatA
      cases cells' with
      | nil =>
        obtain ⟨G, hcatB⟩ := hB.cat
        have hb := cat_singleton.1 hcatB
        obtain ⟨k, rfl⟩ : ∃ k', k = k' + 1 := ⟨k - 1, by simp at hk; omega⟩
        simp only [childRanges, diffChildren, nextChildren, minUpper_none_left, hseg ha hb, ok_bind,
          List.append_nil]
      | cons d cells' =>
        obtain ⟨kB, kB', H, rfl, hb, hB'⟩ := hB.cons
        have hrec := ih hA hB' (by simp at hk ⊢; omega)
        simp only [childRanges] at hrec
        simp only [childRanges, diffChildren, nextChildren, minUpper_none_left, hseg ha hb, hrec, ok_bind]
        have hcut := @diff_cut kvsA [] kB kB' kvsA kB' l l' l (some d.key) lo hi d.key
          (by simpa using hoA.sorted) hoB.sorted (by simp) (habove (hB'.ordered hPB) le_rfl)
          (Or.inl (by simp)) (Or.inr ⟨rfl, hbelow (hPB hb) le_rfl⟩)
          (hright l (hB.inside d (by simp)).1)
        rw [List.append_nil] at hcut
        exact congrArg Except.ok hcut
    | cons c cells =>
      obtain ⟨kA, kA', G, rfl, ha, hA'⟩ := hA.cons
      have hinA := (hA.inside c (by simp)).1
      have hdoneA := hbelow (hPA ha) (le_refl c.key)
      cases cells' with
      | nil =>
        obtain ⟨H, hcatB⟩ := hB.cat
        have hb := cat_singleton.1 hcatB
        have hrec := ih hA' hB (by simp at hk ⊢; omega)
        simp only [childRanges] at hrec
        simp only [childRanges, diffChildren, nextChildren, minUpper_none_right, hseg ha hb, hrec, ok_bind]
        have hcut := @diff_cut kA kA' kvsB [] kA' kvsB l l' (some c.key) l' lo hi c.key hoA.sorted
          (by simpa using hoB.sorted) (habove (hA'.ordered hPA) le_rfl) (by simp)
          (Or.inr ⟨rfl, hdoneA⟩) (Or.inl (by simp)) (hleft l' hinA)
        rw [List.append_nil] at hcut
        exact congrArg Except.ok hcut
      | cons d cells' =>
        obtain ⟨kB, kB', H, rfl, hb, hB'⟩ := hB.cons
        have hinB := (hB.inside d (by simp)).1
        have hdoneB := hbelow (hPB hb) (le_refl d.key)
        have hmin : minUpper (some c.key) (some d.key) = some (min c.key d.key) := rfl
        simp only [childRanges, diffChildren, nextChildren, hseg ha hb, ok_bind, hmin]
        rcases lt_trichotomy c.key d.key with hlt | heq | hgt
        · have hrec := ih hA' hB (by simp at hk ⊢; omega)
          simp only [childRanges] at hrec
          simp only [if_pos hlt, hrec, ok_bind, min_eq_left hlt.le]
          exact congrArg Except.ok (diff_cut hoA.sorted hoB.sorted
            (habove (hA'.ordered hPA) le_rfl) (habove (hB'.ordered hPB) hlt.le)
            (Or.inr ⟨rfl, hdoneA⟩) (Or.inl rfl) (hleft l' hinA))
        · have hrec := ih hA' hB' (by simp at hk ⊢; omega)
          simp only [if_neg (not_lt_of_ge heq.ge), if_neg (not_lt_of_ge heq.le), hrec, ok_bind]
          rw [← heq, min_self]
          rw [← heq] at hinB hdoneB
          exact congrArg Except.ok (diff_cut hoA.sorted hoB.sorted
            (habove (hA'.ordered hPA) le_rfl) (habove (hB'.ordered hPB) heq.le)
            (Or.inr ⟨rfl, hdoneA⟩) (Or.inr ⟨rfl, hdoneB⟩) (hboth hinA hinB))
        · have hrec := ih hA hB' (by simp at hk ⊢; omega)
          simp only [childRanges] at hrec
          simp only [if_neg (not_lt_of_gt hgt), if_pos hgt, hrec, ok_bind, min_eq_right hgt.le]
          exact congrArg Except.ok (diff_cut hoA.sorted hoB.sorted
            (habove (hA'.ordered hPA) hgt.le) (habove (hB'.ordered hPB) le_rfl)
            (Or.inl rfl) (Or.inr ⟨rfl, hdoneB⟩) (hright l hinB))

end Children

/-! ### The difference of two trees -/

section Trees
variable {σ : Type} [NodeStore σ] {s : σ} {m n n' : ℕ}

/-- The parts of entries are not longer than all of them. -/
lemma Cat.length_le {α : Type} {P : α → Entries → List ℕ → Prop} {as : List α} {kvs : Entries}
    {F : List ℕ} {B : ℕ} (h : Cat P as kvs F) (hB : kvs.length ≤ B) :
    Cat (fun a k G => P a k G ∧ k.length ≤ B) as kvs F := by
  induction as generalizing kvs F with
  | nil => exact h
  | cons a as ih =>
    obtain ⟨k₁, k₂, F₁, F₂, rfl, rfl, ha, hrest⟩ := h
    rw [List.length_append] at hB
    exact ⟨k₁, k₂, F₁, F₂, rfl, rfl, ⟨ha, by omega⟩, ih hrest (by omega)⟩

lemma childIntervals_eq {id r : ℕ} {b : Bytes} {cells : List InnerCell}
    (hb : body s id = .ok b) (hi : IsInner cells r b) :
    childIntervals s id = .ok (childRanges none none cells r) := by
  simp only [childIntervals, hb, ok_bind, hi.parseInner_eq]

lemma TreeHolds.holds {root : ℕ} {kvs : Entries} {F : List ℕ} (h : TreeHolds s m n root kvs F)
    (hne : root ≠ NO_ROOT) : Holds s m n (none, none, root) kvs F := by
  rcases h with ⟨hnone, -, -⟩ | h
  · exact absurd hnone hne
  · exact h

lemma TreeHolds.entries_nil {kvs : Entries} {F : List ℕ} (h : TreeHolds s m n NO_ROOT kvs F) :
    kvs = [] := by
  rcases h with ⟨-, rfl, -⟩ | h
  · rfl
  · cases n with
    | zero => exact absurd h (fun h => h)
    | succ n => exact absurd rfl h.1

/-- The difference in a range, as the children are compared. -/
lemma diffRange_eq {N k a b : ℕ} {kvsA kvsB : Entries} {F G : List ℕ}
    (hA : TreeHolds s m n a kvsA F) (hB : TreeHolds s m n' b kvsB G) (hm : m ≤ N)
    (hn : n + 2 ≤ N) (hn' : n' + 2 ≤ N) (hkA : kvsA.length < N) (hkB : kvsB.length < N)
    (hk : n ≤ k) (hpos : 0 < k) (lo hi : Option Bytes) :
    diffRange s N k a b lo hi = .ok (diffMaps (within lo hi kvsA) (within lo hi kvsB)) := by
  induction k generalizing n n' a b kvsA kvsB F G lo hi with
  | zero => omega
  | succ k ih =>
    have hcA := collectRange_eq hA hm hn hkA lo hi
    have hcB := collectRange_eq hB hm hn' hkB lo hi
    rw [diffRange]
    split_ifs with hab ha hb
    · subst hab
      have hself : diffMaps (within lo hi kvsB) (within lo hi kvsB) = [] :=
        diffMaps_self (hB.sorted.filter _)
      rw [hA.unique hB, hself]
    · subst ha
      rw [hcB, ok_bind, hA.entries_nil]
      rfl
    · subst hb
      rw [hcA, ok_bind, hB.entries_nil]
      exact congrArg Except.ok (diffMaps_nil_right _).symm
    · have hflat : diffFlat s N a b lo hi
          = .ok (diffMaps (within lo hi kvsA) (within lo hi kvsB)) := by
        rw [diffFlat, hcA, ok_bind, hcB, ok_bind]
      have hneq : ¬ TYPE_LEAF = TYPE_INNER := by decide
      cases n with
      | zero => exact absurd (hA.holds ha) (fun h => h)
      | succ n =>
        cases n' with
        | zero => exact absurd (hB.holds hb) (fun h => h)
        | succ n' =>
          obtain ⟨-, -, abody, F', hba, -, hnodeA⟩ := hA.holds ha
          obtain ⟨-, -, bbody, G', hbb, -, hnodeB⟩ := hB.holds hb
          rw [hba, ok_bind, hbb, ok_bind]
          rcases hnodeA with ⟨cellsA, hlA⟩ | ⟨cellsA, rA, hiA⟩
          · obtain ⟨z, pfx, hshape⟩ := hlA.leaf
            rw [hshape.nodeType_eq, if_neg fun h => hneq h.1, hflat]
          rcases hnodeB with ⟨cellsB, hlB⟩ | ⟨cellsB, rB, hiB⟩
          · obtain ⟨z, pfx, hshape⟩ := hlB.leaf
            rw [hshape.nodeType_eq, if_neg fun h => hneq h.2, hflat]
          rw [hiA.inner.nodeType_eq, hiB.inner.nodeType_eq, if_pos ⟨rfl, rfl⟩,
            childIntervals_eq hba hiA.inner, ok_bind, childIntervals_eq hbb hiB.inner, ok_bind]
          have hwiden {lo hi id kvs H} {n : ℕ} (h : Holds s m n (lo, hi, id) kvs H) :
              TreeHolds s m n id kvs H := Or.inr (h.widen (by simp [LowerLe]) (by simp [UpperLe]))
          refine diffChildren_eq (fun x k G => Holds s m n x k G ∧ k.length ≤ kvsA.length)
            (fun x k G => Holds s m n' x k G ∧ k.length ≤ kvsB.length)
            (fun h => h.1.ordered) (fun h => h.1.ordered) (fun {_ _ _ _ _ _ _ _ _ _} hc hd lo hi => ?_)
            ⟨hiA.inner.sorted, hiA.inside, _, hiA.kids.length_le le_rfl⟩
            ⟨hiB.inner.sorted, hiB.inside, _, hiB.kids.length_le le_rfl⟩ ?_
          · have hpos' : 0 < n := by
              cases n with
              | zero => exact absurd hc.1 (fun h => h)
              | succ n => exact Nat.succ_pos n
            exact ih (hwiden hc.1) (hwiden hd.1) (by omega) (by omega) (hc.2.trans_lt hkA)
              (hd.2.trans_lt hkB) (by omega) (by omega) lo hi
          · rw [childRanges_length, childRanges_length]
            omega

/-- `diff` gives the difference of the two maps. -/
theorem diff_eq {N a b : ℕ} {kvsA kvsB : Entries} {F G : List ℕ} (hA : TreeHolds s m n a kvsA F)
    (hB : TreeHolds s m n' b kvsB G) (hm : m ≤ N) (hn : n + 2 ≤ N) (hn' : n' + 2 ≤ N)
    (hkA : kvsA.length < N) (hkB : kvsB.length < N) :
    diff s N a b = .ok (diffMaps kvsA kvsB) := by
  rw [diff, diffRange_eq hA hB hm hn hn' hkA hkB (by omega) (by omega), within_open, within_open]

end Trees

end Btree

end Arkeion
