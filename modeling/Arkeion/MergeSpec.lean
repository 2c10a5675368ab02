import Arkeion.TxTrees

/-!
What a merge does to each key: the states it had in the common base and in the two branches
decide whether it is applied, left as it is, or in conflict.
-/

namespace Arkeion

open Arkeion.Lib Btree Store

/-! ### One key -/

section Key
variable (key : Bytes) (base src dst : Option Bytes)

/-- A counter that is there on both sides. -/
abbrev BothCount : Prop := isCounterKey key = true ∧ src.isSome = true ∧ dst.isSome = true

/-- Both branches changed the key, and to different states. -/
def Clashes : Prop := base ≠ src ∧ base ≠ dst ∧ src ≠ dst ∧ ¬ BothCount key src dst

/-- The state a merge leads to: that of the branch merged from where only this one changed it,
the larger counter where both count, and else that of the branch merged into. -/
def Merges (state : Option Bytes) : Prop :=
  (base ≠ src → base = dst → state = src) ∧
  (base ≠ src → base ≠ dst → BothCount key src dst →
    state = some (maxCounter (src.getD []) (dst.getD []))) ∧
  (base = src ∨ base ≠ dst ∧ ¬ BothCount key src dst → state = dst)

variable {key base src dst}

/-- Of two counters it is one, with the larger value. -/
lemma maxCounter_spec (a b : Bytes) : (maxCounter a b = a ∨ maxCounter a b = b) ∧
    decodeI64Le (maxCounter a b) = max (decodeI64Le a) (decodeI64Le b) := by
  rw [maxCounter]
  split_ifs with h
  · exact ⟨Or.inl rfl, (max_eq_left h).symm⟩
  · exact ⟨Or.inr rfl, (max_eq_right (not_le.1 h).le).symm⟩

/-- A key that is not in conflict has one state to go to. -/
lemma Merges.unique {x y : Option Bytes} (hx : Merges key base src dst x)
    (hy : Merges key base src dst y) : x = y := by
  by_cases hsrc : base = src
  · rw [hx.2.2 (Or.inl hsrc), hy.2.2 (Or.inl hsrc)]
  · by_cases hdst : base = dst
    · rw [hx.1 hsrc hdst, hy.1 hsrc hdst]
    · by_cases hboth : BothCount key src dst
      · rw [hx.2.1 hsrc hdst hboth, hy.2.1 hsrc hdst hboth]
      · rw [hx.2.2 (Or.inr ⟨hdst, hboth⟩), hy.2.2 (Or.inr ⟨hdst, hboth⟩)]

end Key

/-! ### The plan, change by change -/

section Plan
variable (targets : List (Bytes × Option Bytes))

/-- The state a changed key is to be taken to, if it is to be. -/
def planned (key : Bytes) (c : KeyChange) : Option (Option Bytes) :=
  match valueOf key targets with
  | none => some c.target
  | some ti =>
    if isCounterKey key ∧ c.target.isSome ∧ ti.isSome then
      some (some (maxCounter (c.target.getD []) (ti.getD [])))
    else none

/-- The conflict a changed key is in, if it is in one. -/
def clash (c : KeyDiff) : Option MergeConflict :=
  match valueOf c.1 targets with
  | none => none
  | some ti =>
    if isCounterKey c.1 ∧ c.2.target.isSome ∧ ti.isSome then none
    else if c.2.target = ti then none
    else some ⟨c.1, c.2.target, ti⟩

lemma planMerge_eq (cs : List KeyDiff) : planMerge targets cs =
    (cs.filterMap fun c => (planned targets c.1 c.2).map fun t => (c.1, t),
      cs.filterMap (clash targets)) := by
  induction cs with
  | nil => rfl
  | cons c cs ih =>
    rw [planMerge, ih, List.filterMap_cons, List.filterMap_cons, planned, clash]
    cases valueOf c.1 targets with
    | none => rfl
    | some ti =>
      dsimp only
      split_ifs <;> rfl

end Plan

/-! ### The plan for three maps -/

section Maps
variable {base src dst : Entries}

/-- The plan for two branches by the differences to their base. -/
def planOf (base src dst : Entries) : List (Bytes × Option Bytes) × List MergeConflict :=
  planMerge ((diffMaps base dst).map fun c => (c.1, c.2.target)) (diffMaps base src)

lemma valueOf_targets (hb : SortedMap base) (hd : SortedMap dst) (key : Bytes) :
    valueOf key ((diffMaps base dst).map fun c => (c.1, c.2.target))
      = if valueOf key base = valueOf key dst then none else some (valueOf key dst) := by
  rw [valueOf_map (f := Change.target), valueOf_diffMaps hb hd, changeOf_map_target]

lemma sortedMap_plan (hb : SortedMap base) (hs : SortedMap src) :
    SortedMap (planOf base src dst).1 := by
  rw [planOf, planMerge_eq]
  exact (sortedMap_diffMaps hb hs).filterMap _

/-- Which keys are planned, and for what. -/
lemma valueOf_plan (hb : SortedMap base) (hs : SortedMap src) (hd : SortedMap dst) (key : Bytes) :
    valueOf key (planOf base src dst).1
      = if valueOf key base = valueOf key src then none
        else if valueOf key base = valueOf key dst then some (valueOf key src)
        else if isCounterKey key ∧ (valueOf key src).isSome ∧ (valueOf key dst).isSome then
          some (some (maxCounter ((valueOf key src).getD []) ((valueOf key dst).getD [])))
        else none := by
  rw [planOf, planMerge_eq]
  dsimp only
  rw [valueOf_filterMap _ (sortedMap_diffMaps hb hs), valueOf_diffMaps hb hs]
  cases hc : changeOf (valueOf key base) (valueOf key src) with
  | none =>
    rw [if_pos (changeOf_eq_none.1 hc)]
    rfl
  | some c =>
    have hne : valueOf key base ≠ valueOf key src := fun h => by
      rw [h, changeOf_self] at hc
      cases hc
    rw [if_neg hne, Option.bind_some, planned, valueOf_targets hb hd, target_of_changeOf hc]
    by_cases hdst : valueOf key base = valueOf key dst
    · rw [if_pos hdst, if_pos hdst]
    · rw [if_neg hdst, if_neg hdst]

/-- Which keys are in conflict, and between which states. -/
lemma mem_conflicts (hb : SortedMap base) (hs : SortedMap src) (hd : SortedMap dst)
    (c : MergeConflict) : c ∈ (planOf base src dst).2 ↔
      Clashes c.key (valueOf c.key base) (valueOf c.key src) (valueOf c.key dst) ∧
        c.fromState = valueOf c.key src ∧ c.intoState = valueOf c.key dst := by
  have hsorted := sortedMap_diffMaps hb hs
  -- what the loop says of one changed key
  have hone (d : KeyDiff) (hd' : d ∈ diffMaps base src) :
      clash ((diffMaps base dst).map fun c => (c.1, c.2.target)) d = some c ↔
        c = ⟨d.1, valueOf d.1 src, valueOf d.1 dst⟩ ∧ valueOf d.1 base ≠ valueOf d.1 dst ∧
          valueOf d.1 src ≠ valueOf d.1 dst ∧
          ¬ BothCount d.1 (valueOf d.1 src) (valueOf d.1 dst) := by
    have hc := (mem_iff_valueOf hsorted).1 hd'
    rw [valueOf_diffMaps hb hs] at hc
    rw [clash, valueOf_targets hb hd, target_of_changeOf hc]
    by_cases hbase : valueOf d.1 base = valueOf d.1 dst
    · simp [hbase]
    · simp only [hbase, if_false]
      by_cases hboth : BothCount d.1 (valueOf d.1 src) (valueOf d.1 dst)
      · rw [if_pos hboth]
        simp [hboth]
      · rw [if_neg hboth]
        by_cases heq : valueOf d.1 src = valueOf d.1 dst
        · simp [heq]
        · simp only [heq, if_false, Option.some.injEq, eq_comm (b := c)]
          exact (and_iff_left ⟨hbase, heq, hboth⟩).symm
  rw [planOf, planMerge_eq]
  dsimp only
  rw [List.mem_filterMap]
  constructor
  · rintro ⟨d, hd', hclash⟩
    obtain ⟨rfl, hbase, hne, hboth⟩ := (hone d hd').1 hclash
    have hsome := valueOf_isSome_of_mem hd'
    rw [valueOf_diffMaps hb hs] at hsome
    refine ⟨⟨fun heq => ?_, hbase, hne, hboth⟩, rfl, rfl⟩
    rw [heq, changeOf_self] at hsome
    cases hsome
  · rintro ⟨⟨hsrc, hbase, hne, hboth⟩, hf, hi⟩
    cases hc : changeOf (valueOf c.key base) (valueOf c.key src) with
    | none => exact absurd (changeOf_eq_none.1 hc) hsrc
    | some change =>
      have hmem : (c.key, change) ∈ diffMaps base src :=
        (mem_iff_valueOf hsorted).2 ((valueOf_diffMaps hb hs c.key).trans hc)
      refine ⟨_, hmem, (hone _ hmem).2 ⟨?_, hbase, hne, hboth⟩⟩
      rw [← hf, ← hi]

/-- The conflicts come in ascending order of their keys. -/
lemma conflicts_sorted (hb : SortedMap base) (hs : SortedMap src) :
    (planOf base src dst).2.Pairwise fun c d => c.key < d.key := by
  have hkey {d : KeyDiff} {c : MergeConflict} {ts : List (Bytes × Option Bytes)}
      (h : clash ts d = some c) : c.key = d.1 := by
    rw [clash] at h
    cases hv : valueOf d.1 ts with
    | none =>
      rw [hv] at h
      cases h
    | some ti =>
      simp only [hv] at h
      split_ifs at h
      cases h
      rfl
  rw [planOf, planMerge_eq]
  refine List.Pairwise.filterMap _ (fun a b hab x hx y hy => ?_) (sortedMap_diffMaps hb hs)
  rw [hkey hx, hkey hy]
  exact hab

/-- What the plan makes of the map it is applied to. -/
theorem merges_plan (hb : SortedMap base) (hs : SortedMap src) (hd : SortedMap dst) (key : Bytes) :
    Merges key (valueOf key base) (valueOf key src) (valueOf key dst)
      (valueOf key (patch dst (planOf base src dst).1)) := by
  rw [valueOf_patch hd (sortedMap_plan hb hs), valueOf_plan hb hs hd]
  refine ⟨fun hsrc hdst => ?_, fun hsrc hdst hboth => ?_, fun h => ?_⟩
  · rw [if_neg hsrc, if_pos hdst]
    rfl
  · rw [if_neg hsrc, if_neg hdst, if_pos hboth]
    rfl
  · rcases h with hsrc | ⟨hdst, hboth⟩
    · rw [if_pos hsrc]
      rfl
    · rw [if_neg hdst, if_neg hboth]
      split_ifs <;> rfl

/-- A key planned to be taken out is there. -/
lemma plan_deletes (hb : SortedMap base) (hs : SortedMap src) (hd : SortedMap dst)
    {p : Bytes × Option Bytes} (hp : p ∈ (planOf base src dst).1) (hnone : p.2 = none) :
    (valueOf p.1 dst).isSome := by
  have hv : valueOf p.1 (planOf base src dst).1 = some p.2 :=
    (mem_iff_valueOf (sortedMap_plan hb hs)).1 hp
  rw [valueOf_plan hb hs hd, hnone] at hv
  split_ifs at hv with hsrc hdst
  · rw [Option.some.injEq] at hv
    rw [← hdst]
    cases hbase : valueOf p.1 base with
    | none => exact absurd (hbase.trans hv.symm) hsrc
    | some v => rfl
  · cases hv

/-- A planned value is one of the two branches. -/
lemma plan_values (hb : SortedMap base) (hs : SortedMap src) (hd : SortedMap dst)
    {key v : Bytes} (hp : (key, some v) ∈ (planOf base src dst).1) :
    (key, v) ∈ src ∨ (key, v) ∈ dst := by
  have hv : valueOf key (planOf base src dst).1 = some (some v) :=
    (mem_iff_valueOf (sortedMap_plan hb hs)).1 hp
  rw [valueOf_plan hb hs hd] at hv
  split_ifs at hv with hsrc hdst hboth
  · rw [Option.some.injEq] at hv
    exact Or.inl (mem_of_valueOf hv)
  · obtain ⟨-, hf, hi⟩ := hboth
    obtain ⟨f, hf⟩ := Option.isSome_iff_exists.1 hf
    obtain ⟨i, hi⟩ := Option.isSome_iff_exists.1 hi
    rw [hf, hi] at hv
    simp only [Option.getD_some, Option.some.injEq] at hv
    rcases (maxCounter_spec f i).1 with h | h
    · exact Or.inl (mem_of_valueOf (by rw [hf, ← hv, h]))
    · exact Or.inr (mem_of_valueOf (by rw [hi, ← hv, h]))

/-- The plan weighs no more than the two branches. -/
lemma growth_plan_le (hb : SortedMap base) (hs : SortedMap src) (hd : SortedMap dst) :
    targetsGrowth (planOf base src dst).1 ≤ weight src + weight dst := by
  rw [← weight_append]
  exact targetsGrowth_le (sortedMap_plan hb hs) fun key v hp =>
    List.mem_append.2 (plan_values hb hs hd hp)

end Maps

end Arkeion
