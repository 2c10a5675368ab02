import Arkeion.Lib.Ancestry
import Arkeion.Lib.MapDiff
import Arkeion.VersionStore

/-!
What a versioned store is for: versions of a map that never change once they are there, each
with its parent, and branches that point to versions.
-/

namespace Arkeion

open Arkeion.Lib Btree

/-- A version as it was committed. -/
structure Rev where
  entries : Entries
  time : ℕ
  parent : ℕ

/-- The versions and the branches. Version 0 is the empty map before the first commit. -/
structure Versions where
  head : ℕ
  rev : ℕ → Option Rev
  refs : String → Option ℕ

namespace Versions

/-- Nothing was committed. -/
def genesis : Versions := ⟨0, fun _ => none, fun _ => none⟩

/-- The map of a version. -/
def entries (g : Versions) (v : ℕ) : Entries := ((g.rev v).map Rev.entries).getD []

def parentOf (g : Versions) (v : ℕ) : Option ℕ :=
  if v = 0 then none else some (((g.rev v).map Rev.parent).getD 0)

/-- The head of a branch; the main branch is there from the start. -/
def branch (g : Versions) (name : String) : Option ℕ :=
  (g.refs name).or (if name = MAIN_BRANCH then some 0 else none)

/-- A new version on a branch. -/
def commit (g : Versions) (name : String) (r : Rev) : Versions where
  head := g.head + 1
  rev := Function.update g.rev (g.head + 1) (some r)
  refs := Function.update g.refs name (some (g.head + 1))

/-- A branch taken away. -/
def dropRef (g : Versions) (name : String) : Versions :=
  { g with refs := Function.update g.refs name none }

/-- Version 0, or one that is kept. -/
def Known (g : Versions) (v : ℕ) : Prop := v = 0 ∨ (g.rev v).isSome

/-- The head is the last version, parents come before, and what is pointed to is there. -/
structure Ok (g : Versions) : Prop where
  rev_zero : g.rev 0 = none
  rev_le : ∀ v r, g.rev v = some r → v ≤ g.head
  head_known : g.Known g.head
  parent_lt : ∀ v r, g.rev v = some r → r.parent < v
  parent_known : ∀ v r, g.rev v = some r → g.Known r.parent
  time_lt : ∀ v r, g.rev v = some r → r.time < 2 ^ 64
  refs_known : ∀ b v, g.refs b = some v → (g.rev v).isSome
  refs_name : ∀ b v, g.refs b = some v → (utf8 b).length ≤ BRANCH_MAX

section Lemmas
variable {g : Versions} {v w : ℕ} {r : Rev} {b : String}

lemma ok_genesis : genesis.Ok where
  rev_zero := rfl
  rev_le _ _ h := by cases h
  head_known := Or.inl rfl
  parent_lt _ _ h := by cases h
  parent_known _ _ h := by cases h
  time_lt _ _ h := by cases h
  refs_known _ _ h := by cases h
  refs_name _ _ h := by cases h

lemma entries_of_rev (h : g.rev v = some r) : g.entries v = r.entries := by
  rw [entries, h]
  rfl

lemma Ok.entries_zero (h : g.Ok) : g.entries 0 = [] := by
  rw [entries, h.rev_zero]
  rfl

lemma Ok.eq_genesis (h : g.Ok) (hzero : g.head = 0) : g = .genesis := by
  have hrev (v : ℕ) : g.rev v = none := by
    cases hr : g.rev v with
    | none => rfl
    | some r =>
      have hv : v = 0 := Nat.le_zero.1 (hzero ▸ h.rev_le v r hr)
      rw [hv, h.rev_zero] at hr
      cases hr
  have hrefs (b : String) : g.refs b = none := by
    cases hb : g.refs b with
    | none => rfl
    | some v =>
      have hsome := h.refs_known b v hb
      rw [hrev] at hsome
      cases hsome
  cases g
  simp only [genesis, mk.injEq]
  exact ⟨hzero, funext hrev, funext hrefs⟩

lemma Ok.known_le (h : g.Ok) (hv : g.Known v) : v ≤ g.head := by
  rcases hv with rfl | hv
  · exact Nat.zero_le _
  · obtain ⟨r, hr⟩ := Option.isSome_iff_exists.1 hv
    exact h.rev_le v r hr

lemma Ok.known_of_refs (h : g.Ok) (hb : g.refs b = some v) : g.Known v :=
  Or.inr (h.refs_known b v hb)

lemma Ok.branch_known (h : g.Ok) (hb : g.branch b = some v) : g.Known v := by
  rw [branch] at hb
  cases hr : g.refs b with
  | some w =>
    rw [hr] at hb
    cases hb
    exact h.known_of_refs hr
  | none =>
    rw [hr, Option.none_or] at hb
    split_ifs at hb
    cases hb
    exact Or.inl rfl

lemma Ok.branch_name (h : g.Ok) (hb : g.branch b = some v) : (utf8 b).length ≤ BRANCH_MAX := by
  rw [branch] at hb
  cases hr : g.refs b with
  | some w => exact h.refs_name b w hr
  | none =>
    rw [hr, Option.none_or] at hb
    split_ifs at hb with hmain
    rw [hmain]
    decide

/-- The parent of a known version is known, and comes before. -/
lemma Ok.parentOf_known (h : g.Ok) (hv : g.Known v) (hp : g.parentOf v = some w) :
    g.Known w ∧ w < v := by
  rw [parentOf] at hp
  split_ifs at hp with hzero
  cases hp
  rcases hv with hv | hv
  · exact absurd hv hzero
  · obtain ⟨r, hr⟩ := Option.isSome_iff_exists.1 hv
    rw [hr]
    exact ⟨h.parent_known v r hr, h.parent_lt v r hr⟩

lemma parentOf_eq_none : g.parentOf v = none ↔ v = 0 := by
  rw [parentOf]
  split_ifs with h
  · simp [h]
  · simp [h]

lemma Ok.ancestor_known (h : g.Ok) (hv : g.Known v) (ha : Ancestor g.parentOf w v) :
    g.Known w ∧ w ≤ v := by
  induction ha with
  | refl => exact ⟨hv, le_rfl⟩
  | tail _ hp ih =>
    obtain ⟨hk, hlt⟩ := h.parentOf_known ih.1 hp
    exact ⟨hk, hlt.le.trans ih.2⟩

/-! ### One version more -/

lemma rev_commit_of_ne (hv : v ≠ g.head + 1) : (g.commit b r).rev v = g.rev v :=
  Function.update_of_ne hv ..

lemma rev_commit_self : (g.commit b r).rev (g.head + 1) = some r := Function.update_self ..

lemma refs_commit (c : String) :
    (g.commit b r).refs c = if c = b then some (g.head + 1) else g.refs c :=
  Function.update_apply ..

lemma refs_commit_self : (g.commit b r).refs b = some (g.head + 1) := by
  rw [refs_commit, if_pos rfl]

lemma refs_dropRef (c : String) : (g.dropRef b).refs c = if c = b then none else g.refs c :=
  Function.update_apply ..

lemma Ok.known_ne (h : g.Ok) (hv : g.Known v) : v ≠ g.head + 1 := by
  have := h.known_le hv
  omega

lemma Ok.rev_commit (h : g.Ok) (hv : g.Known v) : (g.commit b r).rev v = g.rev v :=
  rev_commit_of_ne (h.known_ne hv)

lemma Ok.entries_commit (h : g.Ok) (hv : g.Known v) : (g.commit b r).entries v = g.entries v := by
  rw [entries, entries, h.rev_commit hv]

lemma Ok.known_commit (h : g.Ok) (hv : g.Known v) : (g.commit b r).Known v := by
  rw [Known, h.rev_commit hv]
  exact hv

lemma known_commit_self : (g.commit b r).Known (g.head + 1) := by
  rw [Known, rev_commit_self]
  exact Or.inr rfl

lemma Ok.parentOf_commit (h : g.Ok) (hv : g.Known v) :
    (g.commit b r).parentOf v = g.parentOf v := by
  rw [parentOf, parentOf, h.rev_commit hv]

lemma Ok.commit (h : g.Ok) (hparent : g.Known r.parent) (htime : r.time < 2 ^ 64)
    (hname : (utf8 b).length ≤ BRANCH_MAX) : (g.commit b r).Ok where
  rev_zero := by rw [h.rev_commit (Or.inl rfl), h.rev_zero]
  rev_le v r' hr := by
    rcases eq_or_ne v (g.head + 1) with rfl | hne
    · exact le_rfl
    · rw [rev_commit_of_ne hne] at hr
      exact (h.rev_le v r' hr).trans (Nat.le_succ _)
  head_known := known_commit_self
  parent_lt v r' hr := by
    rcases eq_or_ne v (g.head + 1) with rfl | hne
    · rw [rev_commit_self] at hr
      cases hr
      exact Nat.lt_succ_of_le (h.known_le hparent)
    · rw [rev_commit_of_ne hne] at hr
      exact h.parent_lt v r' hr
  parent_known v r' hr := by
    rcases eq_or_ne v (g.head + 1) with rfl | hne
    · rw [rev_commit_self] at hr
      cases hr
      exact h.known_commit hparent
    · rw [rev_commit_of_ne hne] at hr
      exact h.known_commit (h.parent_known v r' hr)
  time_lt v r' hr := by
    rcases eq_or_ne v (g.head + 1) with rfl | hne
    · rw [rev_commit_self] at hr
      cases hr
      exact htime
    · rw [rev_commit_of_ne hne] at hr
      exact h.time_lt v r' hr
  refs_known c v hv := by
    rw [refs_commit] at hv
    split_ifs at hv with hc
    · cases hv
      rw [rev_commit_self]
      rfl
    · rw [h.rev_commit (h.known_of_refs hv)]
      exact h.refs_known c v hv
  refs_name c v hv := by
    rw [refs_commit] at hv
    split_ifs at hv with hc
    · exact hc ▸ hname
    · exact h.refs_name c v hv

lemma Ok.dropRef (h : g.Ok) (b : String) : (g.dropRef b).Ok where
  rev_zero := h.rev_zero
  rev_le := h.rev_le
  head_known := h.head_known
  parent_lt := h.parent_lt
  parent_known := h.parent_known
  time_lt := h.time_lt
  refs_known c v hv := by
    rw [refs_dropRef] at hv
    split_ifs at hv
    exact h.refs_known c v hv
  refs_name c v hv := by
    rw [refs_dropRef] at hv
    split_ifs at hv
    exact h.refs_name c v hv

end Lemmas

end Versions

end Arkeion
