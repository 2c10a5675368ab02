import Arkeion.Lib.SortedMap

/-!
The differences between two finite maps, and what applying them does.

Differences are themselves a finite map, from keys to changes. What holds of a difference is
read off from its values, since lists in ascending order are determined by theirs.
-/

namespace Arkeion.Lib

variable {K V : Type*} [LinearOrder K]

/-! ### Maps by their values -/

section Ext
variable {l r : List (K × V)}

lemma valueOf_isSome_of_mem {p : K × V} (h : p ∈ l) : (valueOf p.1 l).isSome := by
  induction l with
  | nil => simp at h
  | cons q l ih =>
    rw [valueOf]
    split_ifs with heq
    · rfl
    · rcases List.mem_cons.1 h with rfl | h
      · exact absurd rfl heq
      · exact ih h

lemma mem_of_valueOf {k : K} {v : V} (h : valueOf k l = some v) : (k, v) ∈ l := by
  induction l with
  | nil => simp [valueOf] at h
  | cons q l ih =>
    rw [valueOf] at h
    split_ifs at h with heq
    · cases h
      rw [← heq]
      simp
    · exact List.mem_cons_of_mem _ (ih h)

/-- A map is determined by its values. -/
theorem SortedMap.ext (hl : SortedMap l) (hr : SortedMap r)
    (h : ∀ k, valueOf k l = valueOf k r) : l = r := by
  induction l generalizing r with
  | nil =>
    cases r with
    | nil => rfl
    | cons q r =>
      have hq := h q.1
      simp [valueOf] at hq
  | cons p l ih =>
    cases r with
    | nil =>
      have hp := h p.1
      simp [valueOf] at hp
    | cons q r =>
      obtain ⟨hpl, hl⟩ := sortedMap_cons.1 hl
      obtain ⟨hqr, hr⟩ := sortedMap_cons.1 hr
      -- the smaller of the first keys would have a value on one side only
      have hmin (x y : K × V) {a b : List (K × V)} (hxy : x.1 < y.1)
          (hyb : ∀ z ∈ b, y.1 < z.1) : valueOf x.1 (x :: a) ≠ valueOf x.1 (y :: b) := by
        rw [valueOf, if_pos rfl, valueOf, if_neg hxy.ne', valueOf_eq_none fun z hz =>
          (hxy.trans (hyb z hz)).ne']
        exact Option.some_ne_none _
      have hkey : p.1 = q.1 := by
        rcases lt_trichotomy p.1 q.1 with hlt | heq | hgt
        · exact absurd (h p.1) (hmin p q hlt hqr)
        · exact heq
        · exact absurd (h q.1).symm (hmin q p hgt hpl)
      have hval : p.2 = q.2 := by
        have hp := h p.1
        rw [valueOf, if_pos rfl, valueOf, if_pos hkey.symm] at hp
        exact Option.some.inj hp
      rw [Prod.ext hkey hval, ih hl hr fun k => ?_]
      rcases eq_or_ne p.1 k with rfl | hne
      · rw [valueOf_eq_none fun z hz => (hpl z hz).ne', valueOf_eq_none fun z hz => ?_]
        exact ne_of_gt (hkey.trans_lt (hqr z hz))
      · have hk := h k
        rwa [valueOf, if_neg hne, valueOf, if_neg fun hq => hne (hkey.trans hq)] at hk

lemma valueOf_filter (P : K → Prop) [DecidablePred P] (k : K) :
    valueOf k (l.filter fun p => P p.1) = if P k then valueOf k l else none := by
  induction l with
  | nil => simp [valueOf]
  | cons p l ih =>
    rw [List.filter_cons]
    rcases eq_or_ne p.1 k with rfl | hne
    · by_cases hP : P p.1
      · simp [hP, valueOf]
      · simp [hP, ih]
    · by_cases hP : P p.1
      · simp [hP, valueOf, hne, ih]
      · simp [hP, valueOf, hne, ih]

lemma valueOf_map {W : Type*} (f : V → W) (k : K) :
    valueOf k (l.map fun p => (p.1, f p.2)) = (valueOf k l).map f := by
  induction l with
  | nil => rfl
  | cons p l ih =>
    rw [List.map_cons, valueOf, valueOf, ih]
    split_ifs <;> rfl

/-- A map some of whose entries are kept, with other values. -/
lemma valueOf_filterMap {W : Type*} (f : K → V → Option W) (h : SortedMap l) (k : K) :
    valueOf k (l.filterMap fun p => (f p.1 p.2).map fun w => (p.1, w))
      = (valueOf k l).bind (f k) := by
  induction l with
  | nil => rfl
  | cons p l ih =>
    obtain ⟨hlt, hl⟩ := sortedMap_cons.1 h
    rw [List.filterMap_cons, valueOf]
    rcases eq_or_ne p.1 k with rfl | hne
    · have hrest : valueOf p.1 l = none := valueOf_eq_none fun q hq => (hlt q hq).ne'
      rw [if_pos rfl, Option.bind_some]
      cases hf : f p.1 p.2 with
      | none =>
        rw [Option.map_none, ih hl, hrest]
        rfl
      | some w => simp only [Option.map_some, valueOf, if_pos]
    · rw [if_neg hne, ← ih hl]
      cases hf : f p.1 p.2 with
      | none => rfl
      | some w => simp only [Option.map_some, valueOf, if_neg hne]

lemma SortedMap.filterMap {W : Type*} (f : K → V → Option W) (h : SortedMap l) :
    SortedMap (l.filterMap fun p => (f p.1 p.2).map fun w => (p.1, w)) := by
  refine List.Pairwise.filterMap _ (fun a b hab x hx y hy => ?_) h
  obtain ⟨v, -, rfl⟩ := Option.map_eq_some_iff.1 hx
  obtain ⟨w, -, rfl⟩ := Option.map_eq_some_iff.1 hy
  exact hab

lemma SortedMap.map {W : Type*} (f : V → W) (h : SortedMap l) :
    SortedMap (l.map fun p => (p.1, f p.2)) := by
  rwa [SortedMap, List.pairwise_map]

end Ext

/-! ### Changes -/

/-- How the value of a key changed. -/
inductive Change (V : Type*)
  | added (v : V)
  | removed (v : V)
  | modified (v w : V)
  deriving DecidableEq, Repr

/-- The state a change leads to. -/
def Change.target : Change V → Option V
  | .added v => some v
  | .removed _ => none
  | .modified _ w => some w

/-- The change from one state to the other. -/
def changeOf [DecidableEq V] : Option V → Option V → Option (Change V)
  | none, none => none
  | none, some v => some (.added v)
  | some v, none => some (.removed v)
  | some v, some w => if v = w then none else some (.modified v w)

section Changes
variable [DecidableEq V] {x y : Option V} {c : Change V}

@[simp] lemma changeOf_self (x : Option V) : changeOf x x = none := by
  cases x <;> simp [changeOf]

lemma changeOf_eq_none : changeOf x y = none ↔ x = y := by
  cases x <;> cases y <;> simp [changeOf]

lemma target_of_changeOf (h : changeOf x y = some c) : c.target = y := by
  cases x <;> cases y <;> simp only [changeOf, Option.some.injEq, reduceCtorEq] at h
  · subst h
    rfl
  · subst h
    rfl
  · split_ifs at h
    cases h
    rfl

lemma changeOf_map_target : (changeOf x y).map Change.target = if x = y then none else some y := by
  split_ifs with h
  · rw [h, changeOf_self]
    rfl
  · cases hc : changeOf x y with
    | none => exact absurd (changeOf_eq_none.1 hc) h
    | some c => rw [Option.map_some, target_of_changeOf hc]

end Changes

/-! ### The differences of two maps -/

section Diff
variable [DecidableEq V]

/-- One entry against a map; `rest` goes on with the entries behind it. -/
def diffEntry (p : K × V) (rest : List (K × V) → List (K × Change V)) :
    List (K × V) → List (K × Change V)
  | [] => (p.1, .removed p.2) :: rest []
  | q :: b =>
    if p.1 < q.1 then (p.1, .removed p.2) :: rest (q :: b)
    else if q.1 < p.1 then (q.1, .added q.2) :: diffEntry p rest b
    else if p.2 = q.2 then rest b
    else (p.1, .modified p.2 q.2) :: rest b

/-- The two maps side by side, in ascending order of the keys. -/
def diffMaps : List (K × V) → List (K × V) → List (K × Change V)
  | [] => fun b => b.map fun q => (q.1, .added q.2)
  | p :: a => diffEntry p (diffMaps a)

variable {a b : List (K × V)}

@[simp] lemma diffMaps_nil_left (b : List (K × V)) :
    diffMaps [] b = b.map fun q => (q.1, .added q.2) := rfl

@[simp] lemma diffMaps_nil_right (a : List (K × V)) :
    diffMaps a [] = a.map fun p => (p.1, .removed p.2) := by
  induction a with
  | nil => rfl
  | cons p a ih => rw [diffMaps, diffEntry, ih, List.map_cons]

lemma diffMaps_cons_cons (p q : K × V) (a b : List (K × V)) : diffMaps (p :: a) (q :: b) =
    if p.1 < q.1 then (p.1, .removed p.2) :: diffMaps a (q :: b)
    else if q.1 < p.1 then (q.1, .added q.2) :: diffMaps (p :: a) b
    else if p.2 = q.2 then diffMaps a b
    else (p.1, .modified p.2 q.2) :: diffMaps a b := rfl

/-- What a change leads to is an entry of the second list. -/
lemma mem_of_target {c : K × Change V} {v : V} (hc : c ∈ diffMaps a b) (hv : c.2.target = some v) :
    (c.1, v) ∈ b := by
  induction a generalizing b with
  | nil =>
    obtain ⟨q, hq, rfl⟩ := List.mem_map.1 hc
    cases hv
    exact hq
  | cons p a iha =>
    induction b with
    | nil =>
      rw [diffMaps_nil_right] at hc
      obtain ⟨q, -, rfl⟩ := List.mem_map.1 hc
      cases hv
    | cons q b ihb =>
      rw [diffMaps_cons_cons] at hc
      split_ifs at hc
      · rcases List.mem_cons.1 hc with rfl | hc
        · cases hv
        · exact iha hc
      · rcases List.mem_cons.1 hc with rfl | hc
        · cases hv
          exact List.mem_cons_self ..
        · exact List.mem_cons_of_mem _ (ihb hc)
      · exact List.mem_cons_of_mem _ (iha hc)
      · rcases List.mem_cons.1 hc with rfl | hc
        · cases hv
          exact List.mem_cons.2 (Or.inl (Prod.ext (le_antisymm (not_lt.1 ‹_›) (not_lt.1 ‹_›)) rfl))
        · exact List.mem_cons_of_mem _ (iha hc)

/-- The keys of a difference come from the maps. -/
lemma lt_of_mem_diffMaps {k : K} (ha : ∀ p ∈ a, k < p.1) (hb : ∀ q ∈ b, k < q.1) :
    ∀ c ∈ diffMaps a b, k < c.1 := by
  have hmap (f : V → Change V) {l : List (K × V)} (hl : ∀ p ∈ l, k < p.1) :
      ∀ c ∈ l.map fun p => (p.1, f p.2), k < c.1 := by
    intro c hc
    obtain ⟨p, hp, rfl⟩ := List.mem_map.1 hc
    exact hl p hp
  induction a generalizing b with
  | nil => exact hmap Change.added hb
  | cons p a iha =>
    have hp := ha p (by simp)
    have ha' : ∀ p ∈ a, k < p.1 := fun x hx => ha x (by simp [hx])
    induction b with
    | nil =>
      rw [diffMaps_nil_right]
      exact hmap Change.removed ha
    | cons q b ihb =>
      have hb' : ∀ q ∈ b, k < q.1 := fun x hx => hb x (by simp [hx])
      intro c hc
      rw [diffMaps_cons_cons] at hc
      split_ifs at hc
      · rcases List.mem_cons.1 hc with rfl | hc
        · exact hp
        · exact iha ha' hb c hc
      · rcases List.mem_cons.1 hc with rfl | hc
        · exact hb q (by simp)
        · exact ihb hb' c hc
      · exact iha ha' hb' c hc
      · rcases List.mem_cons.1 hc with rfl | hc
        · exact hp
        · exact iha ha' hb' c hc

lemma sortedMap_diffMaps (ha : SortedMap a) (hb : SortedMap b) : SortedMap (diffMaps a b) := by
  induction a generalizing b with
  | nil => exact hb.map Change.added
  | cons p a iha =>
    obtain ⟨hpa, ha'⟩ := sortedMap_cons.1 ha
    induction b with
    | nil =>
      rw [diffMaps_nil_right]
      exact ha.map Change.removed
    | cons q b ihb =>
      obtain ⟨hqb, hb'⟩ := sortedMap_cons.1 hb
      rw [diffMaps_cons_cons]
      split_ifs with hlt hgt hval
      · refine sortedMap_cons.2 ⟨lt_of_mem_diffMaps hpa fun x hx => ?_, iha ha' hb⟩
        rcases List.mem_cons.1 hx with rfl | hx
        · exact hlt
        · exact hlt.trans (hqb x hx)
      · refine sortedMap_cons.2 ⟨lt_of_mem_diffMaps (fun x hx => ?_) hqb, ihb hb'⟩
        rcases List.mem_cons.1 hx with rfl | hx
        · exact hgt
        · exact hgt.trans (hpa x hx)
      · exact iha ha' hb'
      · have heq : p.1 = q.1 := le_antisymm (not_lt.1 hgt) (not_lt.1 hlt)
        refine sortedMap_cons.2 ⟨lt_of_mem_diffMaps hpa fun x hx => ?_, iha ha' hb'⟩
        exact heq.trans_lt (hqb x hx)

/-- A difference says of each key how its value changed. -/
theorem valueOf_diffMaps (ha : SortedMap a) (hb : SortedMap b) (k : K) :
    valueOf k (diffMaps a b) = changeOf (valueOf k a) (valueOf k b) := by
  induction a generalizing b with
  | nil =>
    rw [diffMaps_nil_left, valueOf_map]
    cases hk : valueOf k b <;> rfl
  | cons p a iha =>
    obtain ⟨hpa, ha'⟩ := sortedMap_cons.1 ha
    induction b with
    | nil =>
      rw [diffMaps_nil_right, valueOf_map (f := Change.removed)]
      cases hk : valueOf k (p :: a) <;> rfl
    | cons q b ihb =>
      obtain ⟨hqb, hb'⟩ := sortedMap_cons.1 hb
      have hnone {x : K × V} {c : List (K × V)} (hx : ∀ y ∈ c, x.1 < y.1) :
          valueOf x.1 c = none := valueOf_eq_none fun y hy => (hx y hy).ne'
      rw [diffMaps_cons_cons]
      split_ifs with hlt hgt hval
      · rcases eq_or_ne p.1 k with rfl | hne
        · have hq : valueOf p.1 (q :: b) = none := hnone fun y hy => by
            rcases List.mem_cons.1 hy with rfl | hy
            · exact hlt
            · exact hlt.trans (hqb y hy)
          rw [valueOf, if_pos rfl, hq, valueOf, if_pos rfl]
          rfl
        · rw [valueOf, if_neg hne, iha ha' hb, valueOf.eq_2 k p.1 p.2 a, if_neg hne]
      · rcases eq_or_ne q.1 k with rfl | hne
        · have hp : valueOf q.1 (p :: a) = none := hnone fun y hy => by
            rcases List.mem_cons.1 hy with rfl | hy
            · exact hgt
            · exact hgt.trans (hpa y hy)
          rw [valueOf, if_pos rfl, hp, valueOf, if_pos rfl]
          rfl
        · rw [valueOf, if_neg hne, ihb hb', valueOf.eq_2 k q.1 q.2 b, if_neg hne]
      · have heq : p.1 = q.1 := le_antisymm (not_lt.1 hgt) (not_lt.1 hlt)
        rcases eq_or_ne p.1 k with rfl | hne
        · rw [iha ha' hb', hnone hpa, valueOf, if_pos rfl, valueOf, if_pos heq.symm, hval,
            changeOf_self, heq, hnone hqb]
          rfl
        · rw [iha ha' hb', valueOf.eq_2 k p.1 p.2 a, if_neg hne, valueOf.eq_2 k q.1 q.2 b,
            if_neg fun h => hne (heq.trans h)]
      · have heq : p.1 = q.1 := le_antisymm (not_lt.1 hgt) (not_lt.1 hlt)
        rcases eq_or_ne p.1 k with rfl | hne
        · rw [valueOf, if_pos rfl, valueOf, if_pos rfl, valueOf, if_pos heq.symm, changeOf,
            if_neg hval]
        · rw [valueOf, if_neg hne, iha ha' hb', valueOf.eq_2 k p.1 p.2 a, if_neg hne,
            valueOf.eq_2 k q.1 q.2 b, if_neg fun h => hne (heq.trans h)]

lemma diffMaps_self (ha : SortedMap a) : diffMaps a a = [] := by
  refine (sortedMap_diffMaps ha ha).ext List.Pairwise.nil fun k => ?_
  rw [valueOf_diffMaps ha ha, changeOf_self]
  rfl

/-- At any cut the difference falls into the one below and the one above. -/
lemma diffMaps_split {P : K → Prop} [DecidablePred P] (hP : ∀ x y, x < y → P y → P x)
    (ha : SortedMap a) (hb : SortedMap b) :
    diffMaps (a.filter fun p => P p.1) (b.filter fun p => P p.1) ++
      diffMaps (a.filter fun p => ¬ P p.1) (b.filter fun p => ¬ P p.1) = diffMaps a b := by
  have hlow : SortedMap (diffMaps (a.filter fun p => P p.1) (b.filter fun p => P p.1)) :=
    sortedMap_diffMaps (ha.filter _) (hb.filter _)
  have hhigh : SortedMap (diffMaps (a.filter fun p => ¬ P p.1) (b.filter fun p => ¬ P p.1)) :=
    sortedMap_diffMaps (ha.filter _) (hb.filter _)
  have vlow (k : K) : valueOf k (diffMaps (a.filter fun p => P p.1) (b.filter fun p => P p.1))
      = if P k then changeOf (valueOf k a) (valueOf k b) else none := by
    rw [valueOf_diffMaps (ha.filter _) (hb.filter _), valueOf_filter, valueOf_filter]
    split_ifs <;> rfl
  have vhigh (k : K) : valueOf k (diffMaps (a.filter fun p => ¬ P p.1)
      (b.filter fun p => ¬ P p.1)) = if ¬ P k then changeOf (valueOf k a) (valueOf k b)
      else none := by
    rw [valueOf_diffMaps (ha.filter _) (hb.filter _), valueOf_filter fun k => ¬ P k,
      valueOf_filter fun k => ¬ P k]
    split_ifs <;> rfl
  have mlow {c : K × Change V} (hc : c ∈ diffMaps (a.filter fun p => P p.1)
      (b.filter fun p => P p.1)) : P c.1 := by
    by_contra hn
    have := valueOf_isSome_of_mem hc
    rw [vlow, if_neg hn] at this
    cases this
  have mhigh {c : K × Change V} (hc : c ∈ diffMaps (a.filter fun p => ¬ P p.1)
      (b.filter fun p => ¬ P p.1)) : ¬ P c.1 := by
    intro hp
    have := valueOf_isSome_of_mem hc
    rw [vhigh, if_neg (not_not.2 hp)] at this
    cases this
  have hsorted := sortedMap_append.2 ⟨hlow, hhigh, fun c hc d hd =>
    lt_of_not_ge fun hle => by
      rcases hle.lt_or_eq with hlt | heq
      · exact mhigh hd (hP _ _ hlt (mlow hc))
      · exact mhigh hd (heq ▸ mlow hc)⟩
  refine hsorted.ext (sortedMap_diffMaps ha hb) fun k => ?_
  rw [valueOf_diffMaps ha hb]
  by_cases hk : P k
  · rw [valueOf_append_of_none (by rw [vhigh, if_neg (not_not.2 hk)]), vlow, if_pos hk]
  · rw [valueOf_append (by rw [vlow, if_neg hk]), vhigh, if_pos hk]

end Diff

/-! ### Applying changes -/

/-- The map after its keys were taken to the given states, one after the other. -/
def patch : List (K × V) → List (K × Option V) → List (K × V)
  | l, [] => l
  | l, (k, some v) :: cs => patch (insertKey k v l) cs
  | l, (k, none) :: cs => patch (eraseKey k l) cs

section Patch
variable {l : List (K × V)} {cs : List (K × Option V)}

lemma SortedMap.patch (h : SortedMap l) : SortedMap (patch l cs) := by
  induction cs generalizing l with
  | nil => exact h
  | cons c cs ih =>
    obtain ⟨k, t⟩ := c
    cases t with
    | none => exact ih h.eraseKey
    | some v => exact ih h.insertKey

/-- The keys that were taken to a state have it, the others are as before. -/
theorem valueOf_patch (hl : SortedMap l) (hcs : SortedMap cs) (k : K) :
    valueOf k (patch l cs) = (valueOf k cs).getD (valueOf k l) := by
  induction cs generalizing l with
  | nil => rfl
  | cons c cs ih =>
    obtain ⟨k', t⟩ := c
    obtain ⟨hlt, hcs'⟩ := sortedMap_cons.1 hcs
    have hrest : valueOf k' cs = none := valueOf_eq_none fun d hd => (hlt d hd).ne'
    cases t with
    | none =>
      rw [patch, ih hl.eraseKey hcs', valueOf, valueOf_eraseKey]
      rcases eq_or_ne k' k with rfl | hne
      · simp [hrest]
      · simp [hne, hne.symm]
    | some v =>
      rw [patch, ih hl.insertKey hcs', valueOf, valueOf_insertKey hl]
      rcases eq_or_ne k' k with rfl | hne
      · simp [hrest]
      · simp [hne, hne.symm]

/-- Applying the difference to a map gives the other map. -/
theorem patch_diffMaps [DecidableEq V] {a b : List (K × V)} (ha : SortedMap a)
    (hb : SortedMap b) : patch a ((diffMaps a b).map fun c => (c.1, c.2.target)) = b := by
  refine ha.patch.ext hb fun k => ?_
  rw [valueOf_patch ha ((sortedMap_diffMaps ha hb).map Change.target),
    valueOf_map (f := Change.target), valueOf_diffMaps ha hb, changeOf_map_target]
  split_ifs with h
  · exact h
  · rfl

end Patch

end Arkeion.Lib
