import Arkeion.Lib.Firsts

/-!
The elements of a list in groups by a key, in the order of the first of each. Another order of the
list has the same groups in another order, and every order of the groups and within them is that of
some list.
-/

namespace Arkeion.Lib

variable {α κ : Type} [DecidableEq κ]

def groupedBy (f : α → κ) (l : List α) : List (κ × List α) :=
  (firsts (· == ·) (l.map f)).map fun k => (k, l.filter fun a => f a = k)

/-- One group is another one in some order. -/
def SameGroup (g g' : κ × List α) : Prop := g.1 = g'.1 ∧ g.2.Perm g'.2

section Groups
variable {f : α → κ} {l l' : List α} {a : α} {k : κ} {g : κ × List α} {gs : List (κ × List α)}

lemma firsts_perm (h : l.Perm l') :
    (firsts (· == ·) (l.map f)).Perm (firsts (· == ·) (l'.map f)) := by
  refine (List.perm_ext_iff_of_nodup nodup_firsts nodup_firsts).2 fun k => ?_
  rw [mem_firsts_eq, mem_firsts_eq]
  exact (h.map f).mem_iff

/-- The groups of another order of the list. -/
lemma groupedBy_perm (h : l'.Perm l) :
    ∃ gs, gs.Perm (groupedBy f l') ∧ List.Forall₂ SameGroup gs (groupedBy f l) := by
  refine ⟨(firsts (· == ·) (l.map f)).map fun k => (k, l'.filter fun a => f a = k),
    (firsts_perm h.symm).map _, ?_⟩
  rw [groupedBy, List.forall₂_map_left_iff, List.forall₂_map_right_iff, List.forall₂_same]
  exact fun k _ => ⟨rfl, h.filter _⟩

lemma mem_groupedBy (h : g ∈ groupedBy f l) : g.2 = l.filter fun a => f a = g.1 := by
  obtain ⟨k, -, rfl⟩ := List.mem_map.1 h
  rfl

lemma group_ne_nil (h : g ∈ groupedBy f l) : g.2 ≠ [] := by
  obtain ⟨k, hk, rfl⟩ := List.mem_map.1 h
  obtain ⟨a, ha, hak⟩ := List.mem_map.1 (mem_firsts_eq.1 hk)
  exact List.ne_nil_of_mem (List.mem_filter.2 ⟨ha, decide_eq_true hak⟩)

lemma key_of_mem_group (h : g ∈ groupedBy f l) (ha : a ∈ g.2) : f a = g.1 := by
  rw [mem_groupedBy h] at ha
  exact of_decide_eq_true (List.mem_filter.1 ha).2

lemma keys_groupedBy : (groupedBy f l).map Prod.fst = firsts (· == ·) (l.map f) := by
  rw [groupedBy, List.map_map]
  exact List.map_id _

lemma groupedBy_cons : groupedBy f (a :: l) = (f a, a :: l.filter fun b => f b = f a)
    :: groupedBy f (l.filter fun b => f b ≠ f a) := by
  have hkeys : (l.map f).filter (fun k => !(f a == k)) = (l.filter fun b => f b ≠ f a).map f := by
    rw [List.filter_map]
    refine congrArg (List.map f) (List.filter_congr fun b _ => ?_)
    change (!(f a == f b)) = _
    by_cases hb : f b = f a
    · simp [hb]
    · simp [hb, Ne.symm hb]
  rw [groupedBy, List.map_cons, firsts_cons, hkeys, List.map_cons, List.filter_cons_of_pos (by simp)]
  refine congrArg (_ :: ·) (List.map_congr_left fun k hk => ?_)
  -- the key of another group
  obtain ⟨b, hb, rfl⟩ := List.mem_map.1 (mem_firsts_eq.1 hk)
  have hne : f b ≠ f a := of_decide_eq_true (List.mem_filter.1 hb).2
  rw [List.filter_cons_of_neg (by simpa using hne.symm), List.filter_filter]
  refine congrArg (f b, ·) (List.filter_congr fun c _ => ?_)
  by_cases hc : f c = f b
  · simp [hc, hne]
  · simp [hc]

/-- Together the groups are the list. -/
lemma flatMap_groupedBy (l : List α) : ((groupedBy f l).flatMap Prod.snd).Perm l := by
  induction hn : l.length using Nat.strong_induction_on generalizing l with
  | _ n ih =>
    cases l with
    | nil => exact List.Perm.nil
    | cons a l =>
      have hshort : (l.filter fun b => f b ≠ f a).length < n := by
        rw [← hn, List.length_cons]
        exact Nat.lt_succ_of_le (List.length_filter_le _ l)
      rw [groupedBy_cons, List.flatMap_cons, List.cons_append]
      refine ((ih _ hshort _ rfl).append_left _ |>.cons a).trans (List.Perm.cons a ?_)
      simpa using List.filter_append_perm (fun b => f b = f a) l

/-- Groups of different keys are those of their elements in a row. -/
lemma groupedBy_flatMap (hkeys : (gs.map Prod.fst).Nodup) (hne : ∀ g ∈ gs, g.2 ≠ [])
    (hkey : ∀ g ∈ gs, ∀ a ∈ g.2, f a = g.1) : groupedBy f (gs.flatMap Prod.snd) = gs := by
  induction gs with
  | nil => rfl
  | cons g gs ih =>
    obtain ⟨k, group⟩ := g
    rw [List.map_cons, List.nodup_cons] at hkeys
    have hrest := ih hkeys.2 (fun g hg => hne g (List.mem_cons_of_mem _ hg))
      fun g hg => hkey g (List.mem_cons_of_mem _ hg)
    have hother : ∀ b ∈ gs.flatMap Prod.snd, f b ≠ k := by
      intro b hb heq
      obtain ⟨g, hg, hbg⟩ := List.mem_flatMap.1 hb
      refine hkeys.1 (List.mem_map.2 ⟨g, hg, ?_⟩)
      rw [← hkey g (List.mem_cons_of_mem _ hg) b hbg, heq]
    have hown := hkey (k, group) List.mem_cons_self
    cases hgroup : group with
    | nil => exact absurd hgroup (hne (k, group) List.mem_cons_self)
    | cons a group' =>
      rw [hgroup] at hown
      have hak : f a = k := hown a List.mem_cons_self
      have hsame : ∀ b ∈ group', f b = k := fun b hb => hown b (List.mem_cons_of_mem a hb)
      rw [List.flatMap_cons, List.cons_append, groupedBy_cons, hak, List.filter_append,
        List.filter_append, List.filter_eq_self.2 (by simpa using hsame),
        List.filter_eq_nil_iff.2 (by simpa using hother), List.append_nil,
        List.filter_eq_nil_iff.2 (by simpa using hsame), List.nil_append,
        List.filter_eq_self.2 (by simpa using hother), hrest]

/-- Every order of the groups' elements, and of the groups, is that of some list. -/
lemma groupedBy_of_same (h : List.Forall₂ SameGroup gs (groupedBy f l)) :
    groupedBy f (gs.flatMap Prod.snd) = gs ∧ (gs.flatMap Prod.snd).Perm l := by
  have hpart : ∀ g ∈ gs, ∃ g' ∈ groupedBy f l, SameGroup g g' := by
    intro g hg
    obtain ⟨i, hi, rfl⟩ := List.getElem_of_mem hg
    have hi' : i < (groupedBy f l).length := h.length_eq ▸ hi
    exact ⟨(groupedBy f l)[i], List.getElem_mem hi', (List.forall₂_iff_get.1 h).2 i hi hi'⟩
  refine ⟨groupedBy_flatMap ?_ (fun g hg => ?_) fun g hg a ha => ?_, ?_⟩
  · have hkeys : gs.map Prod.fst = (groupedBy f l).map Prod.fst := by
      refine List.forall₂_eq_eq_eq ▸ ?_
      rw [List.forall₂_map_left_iff, List.forall₂_map_right_iff]
      exact h.imp fun _ _ hsame => hsame.1
    rw [hkeys, keys_groupedBy]
    exact nodup_firsts
  · obtain ⟨g', hg', -, hperm⟩ := hpart g hg
    intro hnil
    rw [hnil] at hperm
    exact group_ne_nil hg' (List.nil_perm.1 hperm)
  · obtain ⟨g', hg', hkey, hperm⟩ := hpart g hg
    rw [hkey]
    exact key_of_mem_group hg' (hperm.subset ha)
  · refine List.Perm.trans ?_ (flatMap_groupedBy (f := f) l)
    clear hpart
    generalize groupedBy f l = gs' at h
    induction h with
    | nil => exact List.Perm.nil
    | cons hsame _ ih => exact hsame.2.append ih

/-- Every order of the groups is that of some list. -/
lemma groupedBy_of_perm (h : gs.Perm (groupedBy f l)) :
    groupedBy f (gs.flatMap Prod.snd) = gs ∧ (gs.flatMap Prod.snd).Perm l := by
  refine ⟨groupedBy_flatMap ?_ (fun g hg => group_ne_nil (h.subset hg)) fun g hg a ha =>
    key_of_mem_group (h.subset hg) ha, (h.flatMap_right Prod.snd).trans (flatMap_groupedBy l)⟩
  rw [(h.map Prod.fst).nodup_iff, keys_groupedBy]
  exact nodup_firsts

/-- One element more, behind those of its group. -/
def addTo (k : κ) (a : α) : List (κ × List α) → List (κ × List α)
  | [] => [(k, [a])]
  | g :: gs => if g.1 = k then (g.1, g.2 ++ [a]) :: gs else g :: addTo k a gs

lemma addTo_keys {keys : List κ} (hkeys : keys.Nodup)
    (hnew : k ∉ keys → l.filter (fun b => f b = k) = []) (hk : f a = k) :
    addTo k a (keys.map fun k => (k, l.filter fun b => f b = k))
      = (if keys.any (· == k) then keys else keys ++ [k]).map fun k =>
        (k, (l ++ [a]).filter fun b => f b = k) := by
  induction keys with
  | nil =>
    rw [List.map_nil, addTo, List.any_nil, if_neg Bool.false_ne_true, List.nil_append,
      List.map_singleton, List.filter_append, hnew List.not_mem_nil,
      List.filter_cons_of_pos (by simpa using hk)]
    rfl
  | cons k' keys ih =>
    obtain ⟨hk', hkeys⟩ := List.nodup_cons.1 hkeys
    have hother {k' : κ} (hne : k' ≠ k) : (l ++ [a]).filter (fun b => f b = k')
        = l.filter fun b => f b = k' := by
      rw [List.filter_append, List.filter_cons_of_neg (by simpa [hk] using hne.symm),
        List.filter_nil, List.append_nil]
    rw [List.map_cons, addTo, List.any_cons]
    by_cases heq : k' = k
    · have hrest : ∀ c ∈ keys, c ≠ k := fun c hc hck => hk' (by rwa [heq, ← hck])
      rw [if_pos heq, beq_iff_eq.2 heq, Bool.true_or, if_pos rfl, List.map_cons]
      refine congrArg₂ List.cons ?_ (List.map_congr_left fun c hc => ?_)
      · rw [heq, List.filter_append, List.filter_cons_of_pos (by simpa using hk)]
        rfl
      · rw [hother (hrest c hc)]
    · have hfalse : (k' == k) = false := by simpa using heq
      have hrest := ih hkeys fun hin => hnew fun hmem => (List.mem_cons.1 hmem).elim
        (fun h => heq h.symm) hin
      rw [if_neg heq, hfalse, Bool.false_or, hrest]
      split_ifs
      · rw [List.map_cons, hother heq]
      · rw [List.cons_append, List.map_cons, hother heq]

/-- One element after the other, the groups grow as they are. -/
lemma addTo_groupedBy : addTo (f a) a (groupedBy f l) = groupedBy f (l ++ [a]) := by
  rw [groupedBy, groupedBy, List.map_append, List.map_singleton, firsts_concat]
  refine addTo_keys nodup_firsts (fun hnew => ?_) rfl
  rw [List.filter_eq_nil_iff]
  intro b hb heq
  exact hnew (mem_firsts_eq.2 (List.mem_map.2 ⟨b, hb, of_decide_eq_true heq⟩))

end Groups

end Arkeion.Lib
