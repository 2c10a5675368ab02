import Arkeion.VersionCommit

/-!
The history of a store that represents versions, the points of it that reads can be pinned to,
and the making and dropping of branches.
-/

namespace Arkeion

open Arkeion.Lib Btree

/-! ### The entries of the history -/

section History
variable {k n : ℕ} {s : Store} {g : Versions} {roots : ℕ → ℕ} {mkvs : Entries}

/-- The entry of a version in the meta tree. -/
def histEntry (g : Versions) (roots : ℕ → ℕ) (v : ℕ) : Bytes × Bytes :=
  (histKey v, ((g.rev v).map fun r => Store.histVal (roots v) r.time r.parent).getD [])

lemma histKey_lt {v w : ℕ} (hw : w < 2 ^ 64) (h : v < w) : histKey v < histKey w :=
  List.cons_lt_cons_iff.2 (Or.inr ⟨rfl, beBytes_lt 8 hw h⟩)

lemma histStart_le (v : ℕ) : [META_HIST] ≤ histKey v := by
  refine le_of_not_gt fun hlt => ?_
  rcases List.cons_lt_cons_iff.1 hlt with h | ⟨-, h⟩
  · exact absurd h (lt_irrefl _)
  · exact absurd h (List.not_lt_nil _)

lemma refKey_lt (b : String) : refKey b < [META_HIST] :=
  List.cons_lt_cons_iff.2 (Or.inl (by decide))

/-- From the start of the history on, the meta tree has the kept versions in ascending order. -/
lemma IndexesOf.history (h : IndexesOf g roots mkvs) (hs : SortedMap mkvs)
    (hlt : ∀ v, (g.rev v).isSome → v < 2 ^ 64) : ∃ vs : List ℕ, vs.Pairwise (· < ·) ∧
      (∀ v, v ∈ vs ↔ (g.rev v).isSome) ∧
      fromKey [META_HIST] mkvs = vs.map (histEntry g roots) := by
  set hist := fromKey [META_HIST] mkvs with hhist
  set versionOf : Bytes × Bytes → ℕ := fun p => beNat (p.1.drop 1)
  have hentry : ∀ p ∈ hist, (g.rev (versionOf p)).isSome ∧ p = histEntry g roots (versionOf p) := by
    intro p hp
    obtain ⟨hmem, hge⟩ := List.mem_filter.1 hp
    rcases h.keys p hmem with ⟨v, hv, hkey⟩ | ⟨b, hkey⟩
    · have hversion : versionOf p = v := by
        change beNat (p.1.drop 1) = v
        rw [hkey]
        exact beNat_beBytes 8 hv
      have hval : valueOf (histKey v) mkvs = some p.2 := by
        rw [← hkey]
        exact (mem_iff_valueOf hs).1 hmem
      rw [h.hist v hv] at hval
      obtain ⟨r, hr, hp2⟩ := Option.map_eq_some_iff.1 hval
      rw [hversion, histEntry, hr]
      exact ⟨rfl, Prod.ext hkey hp2.symm⟩
    · rw [hkey] at hge
      exact absurd (refKey_lt b) (not_lt.2 (of_decide_eq_true hge))
  have hmap : hist = (hist.map versionOf).map (histEntry g roots) := by
    rw [List.map_map]
    conv_lhs => rw [← List.map_id hist]
    exact List.map_congr_left fun p hp => (hentry p hp).2
  refine ⟨hist.map versionOf, ?_, fun v => ⟨fun hv => ?_, fun hv => ?_⟩, hmap⟩
  · rw [List.pairwise_map]
    have hsorted : SortedMap hist := hs.filter _
    refine hsorted.imp_of_mem fun {p q} hp hq hpq => lt_of_not_ge fun hle => ?_
    rw [(hentry p hp).2, (hentry q hq).2] at hpq
    rcases hle.lt_or_eq with hvlt | heq
    · exact absurd hpq (histKey_lt (hlt _ (hentry p hp).1) hvlt).asymm
    · rw [heq] at hpq
      exact absurd hpq (lt_irrefl _)
  · obtain ⟨p, hp, rfl⟩ := List.mem_map.1 hv
    exact (hentry p hp).1
  · obtain ⟨r, hr⟩ := Option.isSome_iff_exists.1 hv
    have hval := h.hist v (hlt v hv)
    rw [hr] at hval
    have hmem := mem_of_valueOf hval
    refine List.mem_map.2 ⟨_, List.mem_filter.2 ⟨hmem, decide_eq_true (histStart_le v)⟩, ?_⟩
    exact beNat_beBytes 8 (hlt v hv)

/-- A loop that never breaks. -/
lemma loopOver_foldl {α β : Type} {step : Bytes × Bytes → α → Result (Option α)}
    {entry : β → Bytes × Bytes} {next : α → β → α} (l : List β) (acc : α)
    (h : ∀ b ∈ l, ∀ acc, step (entry b) acc = .ok (some (next acc b))) :
    loopOver step (l.map entry) acc = .ok (l.foldl next acc) := by
  induction l generalizing acc with
  | nil => rfl
  | cons b l ih =>
    rw [List.map_cons, loopOver, h b (by simp), ok_bind]
    exact ih _ fun c hc => h c (by simp [hc])

lemma isHistKey_histKey (v : ℕ) : Store.isHistKey (histKey v) = true := by
  simp [Store.isHistKey, histKey]

/-- What a loop over the history reads of an entry. -/
lemma Represents.histVal_slices (h : Represents k s g roots mkvs) {v : ℕ} {r : Rev}
    (hr : g.rev v = some r) :
    (histEntry g roots v).1 = histKey v ∧ beNat ((histEntry g roots v).1.drop 1) = v ∧
      slice? (histEntry g roots v).2 8 8 = some (leBytes 8 r.time) ∧ leNat (leBytes 8 r.time) = r.time ∧
      ((slice? (histEntry g roots v).2 16 8).map leNat).getD 0 = r.parent := by
  have hknown : g.Known v := Or.inr (by rw [hr]; rfl)
  have hparent : r.parent < 256 ^ 8 := (h.ok.parent_lt v r hr).trans (h.known_lt hknown)
  have hslice : slice? (Store.histVal (roots v) r.time r.parent) 16 8 = some (leBytes 8 r.parent) := by
    have : slice? (leBytes 8 (roots v) ++ leBytes 8 r.time ++ leBytes 8 r.parent ++ []) 16 8
        = some (leBytes 8 r.parent) := slice?_append _ _ _ (by simp) (by simp)
    simpa [Store.histVal] using this
  rw [histEntry, hr]
  refine ⟨rfl, beNat_beBytes 8 (h.known_lt hknown), ?_, leNat_leBytes 8 (h.ok.time_lt v r hr), ?_⟩
  · exact slice?_append _ _ _ (by simp) (by simp)
  · simp only [Option.map_some, Option.getD_some, hslice, leNat_leBytes 8 hparent]

/-- A loop over the history goes over the kept versions in ascending order. -/
lemma Represents.forScan_history {α : Type} (h : Represents k s g roots mkvs) (hn : k + 2 ≤ n) :
    ∃ vs : List ℕ, vs.Pairwise (· < ·) ∧ (∀ v, v ∈ vs ↔ (g.rev v).isSome) ∧
      ∀ (step : Bytes × Bytes → α → Result (Option α)) (acc a : α),
        loopOver step (vs.map (histEntry g roots)) acc = .ok a →
        forScan s.pager n s.head.meta_root (some [META_HIST]) step acc = .ok a := by
  have hsorted : SortedMap mkvs := h.metaTree.sorted
  obtain ⟨vs, hvs, hmem, heq⟩ := h.indexes.history hsorted
    fun v hv => h.known_lt (Or.inr hv)
  refine ⟨vs, hvs, hmem, fun step acc a hloop => ?_⟩
  have hlen := (length_le_weight mkvs).trans h.weight_meta
  have hscan := forScan_eq step acc h.metaTree (show k ≤ n by omega) hn
    (show mkvs.length < n by omega) (some [META_HIST])
  rw [fromStart, heq, hloop] at hscan
  exact (sees_pager s.pager).forScan n _ _ _ _ a hscan

/-- The history lists the kept versions with their times and parents. -/
lemma Represents.history_eq (h : Represents k s g roots mkvs) (hn : k + 2 ≤ n) :
    ∃ out, s.history n = .ok out ∧ (out.map Revision.version).Pairwise (· < ·) ∧
      ∀ e, e ∈ out ↔ ∃ r, g.rev e.version = some r ∧ e.timestamp = r.time ∧ e.parent = r.parent := by
  obtain ⟨vs, hvs, hmem, hscan⟩ := h.forScan_history (α := List Revision) hn
  set revision : ℕ → Revision := fun v =>
    ⟨v, ((g.rev v).map Rev.time).getD 0, ((g.rev v).map Rev.parent).getD 0⟩ with hrevision
  have hfold : vs.foldl (fun out v => out ++ [revision v]) [] = vs.map revision := by
    rw [List.foldl_append_eq_append (f := fun v => [revision v]), List.nil_append]
    exact List.flatMap_pure_eq_map revision vs
  refine ⟨vs.map revision, ?_, ?_, fun e => ?_⟩
  · rw [← hfold]
    refine hscan _ _ _ (loopOver_foldl vs [] fun v hv acc => ?_)
    obtain ⟨r, hr⟩ := Option.isSome_iff_exists.1 ((hmem v).1 hv)
    obtain ⟨hkey, hversion, htime, htime', hparent⟩ := h.histVal_slices hr
    rw [hversion, htime, hparent, hkey, isHistKey_histKey]
    simp only [if_true, okOr_some, ok_bind, htime', hrevision, hr, Option.map_some,
      Option.getD_some]
  · rw [List.map_map]
    exact (List.map_id vs).symm ▸ hvs
  · rw [List.mem_map]
    constructor
    · rintro ⟨v, hv, rfl⟩
      obtain ⟨r, hr⟩ := Option.isSome_iff_exists.1 ((hmem v).1 hv)
      exact ⟨r, hr, by simp [hrevision, hr], by simp [hrevision, hr]⟩
    · rintro ⟨r, hr, htime, hparent⟩
      refine ⟨e.version, (hmem _).2 (by rw [hr]; rfl), ?_⟩
      cases e
      simp only at hr htime hparent
      simp [hrevision, hr, htime, hparent]

/-! ### Points of history -/

/-- The version that a point of history is: of a time, the last version that is not after it. -/
def Versions.At (g : Versions) : AsOf → ℕ → Prop
  | .head, v => v = g.head
  | .version w, v => v = w ∧ g.Known w
  | .timestamp ms, v => (v = 0 ∨ ∃ r, g.rev v = some r ∧ r.time ≤ ms) ∧
      ∀ w r, g.rev w = some r → r.time ≤ ms → w ≤ v

lemma Versions.Ok.at_known {at_ : AsOf} {v : ℕ} (h : g.Ok) (hv : g.At at_ v) : g.Known v := by
  cases at_ with
  | head =>
    cases hv
    exact h.head_known
  | version w =>
    obtain ⟨rfl, hw⟩ := hv
    exact hw
  | timestamp ms =>
    rcases hv.1 with hzero | ⟨r, hr, -⟩
    · exact Or.inl hzero
    · exact Or.inr (by rw [hr]; rfl)

/-- The last version in a list that is not after a time. -/
lemma foldl_last (P : ℕ → Prop) [DecidablePred P] {vs : List ℕ} (hvs : vs.Pairwise (· < ·))
    (best : Option ℕ) (hbest : ∀ b ∈ best, P b ∧ ∀ v ∈ vs, b < v) :
    ∀ c, vs.foldl (fun best v => if P v then some v else best) best = c →
      (∀ b ∈ c, P b ∧ (b ∈ best ∨ b ∈ vs)) ∧ ∀ v, (v ∈ best ∨ v ∈ vs ∧ P v) → ∃ b ∈ c, v ≤ b := by
  induction vs generalizing best with
  | nil =>
    rintro c rfl
    refine ⟨fun b hb => ⟨(hbest b hb).1, Or.inl hb⟩, fun v hv => ?_⟩
    rcases hv with hv | ⟨hv, -⟩
    · exact ⟨v, hv, le_rfl⟩
    · simp at hv
  | cons w vs ih =>
    obtain ⟨hw, hvs'⟩ := List.pairwise_cons.1 hvs
    intro c hc
    rw [List.foldl_cons] at hc
    have hnext : ∀ b ∈ (if P w then some w else best), P b ∧ ∀ v ∈ vs, b < v := by
      intro b hb
      split_ifs at hb with hP
      · cases hb
        exact ⟨hP, hw⟩
      · exact ⟨(hbest b hb).1, fun v hv => (hbest b hb).2 v (by simp [hv])⟩
    obtain ⟨hmem, hlast⟩ := ih hvs' _ hnext c hc
    refine ⟨fun b hb => ?_, fun v hv => ?_⟩
    · obtain ⟨hPb, hor⟩ := hmem b hb
      refine ⟨hPb, ?_⟩
      rcases hor with hor | hor
      · split_ifs at hor with hP
        · cases hor
          exact Or.inr (by simp)
        · exact Or.inl hor
      · exact Or.inr (by simp [hor])
    · by_cases hP : P w
      · rw [if_pos hP] at hlast
        rcases hv with hv | ⟨hv, hPv⟩
        · obtain ⟨b, hb, hle⟩ := hlast w (Or.inl rfl)
          exact ⟨b, hb, ((hbest v hv).2 w (by simp)).le.trans hle⟩
        · rcases List.mem_cons.1 hv with rfl | hv
          · exact hlast v (Or.inl rfl)
          · exact hlast v (Or.inr ⟨hv, hPv⟩)
      · rw [if_neg hP] at hlast
        rcases hv with hv | ⟨hv, hPv⟩
        · exact hlast v (Or.inl hv)
        · rcases List.mem_cons.1 hv with rfl | hv
          · exact absurd hPv hP
          · exact hlast v (Or.inr ⟨hv, hPv⟩)

/-- A point of history is found where there is a version for it. -/
lemma Represents.snapshotAt_eq (h : Represents k s g roots mkvs) (hn : k + 2 ≤ n) (at_ : AsOf) :
    (∃ v, g.At at_ v ∧ Store.snapshotAt n s at_ = .ok ⟨s.pager, v, roots v⟩) ∨
      (∀ v, ¬ g.At at_ v) ∧ Store.snapshotAt n s at_ = .error (.versionNotFound at_) := by
  cases at_ with
  | head =>
    refine Or.inl ⟨g.head, rfl, ?_⟩
    rw [Store.snapshotAt, Store.snapshot, h.version, h.data_root]
  | version w =>
    by_cases hw : g.Known w
    · exact Or.inl ⟨w, ⟨rfl, hw⟩, h.snapshotAtVersion_eq (by omega) hw⟩
    · exact Or.inr ⟨fun v hv => hw hv.2, h.snapshotAtVersion_none (by omega) hw⟩
  | timestamp ms =>
    obtain ⟨vs, hvs, hmem, hscan⟩ := h.forScan_history (α := Option ℕ) hn
    set notAfter : ℕ → Prop := fun v => ((g.rev v).map Rev.time).getD 0 ≤ ms with hnotAfter
    obtain ⟨hfound, hlast⟩ := foldl_last notAfter hvs none (by simp) _ rfl
    have hnotAfter_rev {v : ℕ} {r : Rev} (hr : g.rev v = some r) : notAfter v ↔ r.time ≤ ms := by
      change ((g.rev v).map Rev.time).getD 0 ≤ ms ↔ _
      rw [hr]
      rfl
    refine Or.inl ?_
    rw [Store.snapshotAt, Store.snapshotAtTimestamp, hscan _ none
      (vs.foldl (fun best v => if notAfter v then some v else best) none) ?_, ok_bind]
    · cases hbest : vs.foldl (fun best v => if notAfter v then some v else best) none with
      | none =>
        refine ⟨0, ⟨Or.inl rfl, fun w r hr htime => ?_⟩, ?_⟩
        · obtain ⟨b, hb, -⟩ := hlast w (Or.inr
            ⟨(hmem w).2 (by rw [hr]; rfl), (hnotAfter_rev hr).2 htime⟩)
          rw [hbest] at hb
          cases hb
        · rw [h.zero]
          rfl
      | some v =>
        obtain ⟨hP, hor⟩ := hfound v hbest
        have hv : v ∈ vs := hor.resolve_left (by simp)
        obtain ⟨r, hr⟩ := Option.isSome_iff_exists.1 ((hmem v).1 hv)
        refine ⟨v, ⟨Or.inr ⟨r, hr, (hnotAfter_rev hr).1 hP⟩, fun w r' hr' htime => ?_⟩, ?_⟩
        · obtain ⟨b, hb, hle⟩ := hlast w (Or.inr
            ⟨(hmem w).2 (by rw [hr']; rfl), (hnotAfter_rev hr').2 htime⟩)
          rw [hbest] at hb
          cases hb
          exact hle
        · exact h.snapshotAtVersion_eq (by omega) (Or.inr (by rw [hr]; rfl))
    · refine loopOver_foldl vs none fun v hv best => ?_
      obtain ⟨r, hr⟩ := Option.isSome_iff_exists.1 ((hmem v).1 hv)
      obtain ⟨hkey, hversion, htime, htime', -⟩ := h.histVal_slices hr
      rw [hversion, htime, hkey, isHistKey_histKey]
      simp only [if_true, okOr_some, ok_bind, htime', hnotAfter, hr, Option.map_some,
        Option.getD_some]

end History

/-! ### Making and dropping branches -/

section Branches
variable {k n now v : ℕ} {s : Store} {g : Versions} {roots : ℕ → ℕ} {mkvs : Entries}
  {name : String} {sha : Sha256} {start : AsOf}

/-- A new branch begins with a version that has the map of the one it starts from. -/
def Versions.createBranch (g : Versions) (name : String) (v now : ℕ) : Versions :=
  g.commit name ⟨g.entries v, now, v⟩

/-- A branch is dropped by a version of the main branch that changes nothing. -/
def Versions.dropBranch (g : Versions) (name : String) (v now : ℕ) : Versions :=
  (g.dropRef name).commit MAIN_BRANCH ⟨g.entries v, now, v⟩

/-- Why a branch is not made. -/
inductive CreateError (g : Versions) (held : Bool) (name : String) (start : AsOf) : Error → Prop
  | name : ¬ (utf8 name ≠ [] ∧ (utf8 name).length ≤ BRANCH_MAX) → CreateError g held name start
      (.invalidInput "nombre de rama vacío o de más de 64 bytes")
  | busy : held = true → CreateError g held name start .busy
  | branchExists : g.refs name ≠ none → CreateError g held name start (.branchExists name)
  | versionNotFound : (∀ v, ¬ g.At start v) → CreateError g held name start (.versionNotFound start)
  | refused {e : Error} : Refused TxStore e → CreateError g held name start e

/-- Why a branch is not dropped. -/
inductive DropError (g : Versions) (held : Bool) (name : String) : Error → Prop
  | main : name = MAIN_BRANCH →
      DropError g held name (.invalidInput "no se puede borrar la rama principal")
  | busy : held = true → DropError g held name .busy
  | branchNotFound : g.refs name = none → DropError g held name (.branchNotFound name)
  | refused {e : Error} : Refused TxStore e → DropError g held name e

lemma Represents.createBranch_outcome (h : Represents k s g roots mkvs) (htime : now < 2 ^ 64)
    (hn : 2 * (k + 34) ≤ n) :
    Outcome (CreateError g s.held name start) (Store.createBranch sha n now s name start) fun s' =>
      s'.held = false ∧ g.refs name = none ∧ ∃ v, g.At start v ∧ ∃ roots' mkvs',
        Represents (k + 34) s' (g.createBranch name v now) roots' mkvs' := by
  rw [Store.createBranch]
  by_cases hname : utf8 name ≠ [] ∧ (utf8 name).length ≤ BRANCH_MAX
  swap
  · rw [require, if_neg hname]
    exact .name hname
  rw [require_pos hname, ok_bind]
  cases hheld : s.held with
  | true => exact .busy rfl
  | false =>
    rw [require_pos rfl, ok_bind, h.readRef_eq (by omega), ok_bind]
    by_cases href : g.refs name = none
    swap
    · rw [require, if_neg href]
      exact .branchExists href
    rw [require_pos href, ok_bind]
    rcases h.snapshotAt_eq (n := n) (by omega) start with ⟨v, hv, hsnap⟩ | ⟨hno, hsnap⟩
    swap
    · rw [hsnap]
      exact .versionNotFound hno
    have hknown := h.ok.at_known hv
    rw [hsnap, ok_bind, h.readDataRoot_eq (by omega) hknown, ok_bind, h.version]
    dsimp only
    by_cases hlt : g.head + 1 < 2 ^ 64
    swap
    · rw [require, if_neg hlt]
      exact .refused refused_overflow
    rw [require_pos hlt, ok_bind]
    refine Outcome.weaken ?_ fun e he => .refused he
    exact h.record (r := ⟨g.entries v, now, v⟩) h.ok rfl rfl h.indexes (h.txHolds hknown)
      (fun cur hcur => by cases hcur) hknown htime hname.2 hlt le_rfl hn
      fun p hp _ => ⟨rfl, href, v, hv, _, _, hp⟩

lemma Represents.dropBranch_outcome (h : Represents k s g roots mkvs) (htime : now < 2 ^ 64)
    (hn : 2 * (k + 34) ≤ n) :
    Outcome (DropError g s.held name) (Store.dropBranch sha n now s name) fun s' =>
      s'.held = false ∧ name ≠ MAIN_BRANCH ∧ (g.refs name).isSome ∧
        ∃ v, g.branch MAIN_BRANCH = some v ∧ ∃ roots' mkvs',
          Represents (k + 34) s' (g.dropBranch name v now) roots' mkvs' := by
  rw [Store.dropBranch]
  by_cases hmain : name = MAIN_BRANCH
  · rw [require, if_neg (not_not.2 hmain)]
    exact .main hmain
  rw [require_pos hmain, ok_bind]
  cases hheld : s.held with
  | true => exact .busy rfl
  | false =>
    rw [require_pos rfl, ok_bind, h.readRef_eq (by omega), ok_bind]
    by_cases href : g.refs name = none
    · rw [require, if_neg (not_not.2 href)]
      exact .branchNotFound href
    obtain ⟨v, hv⟩ : ∃ v, g.branch MAIN_BRANCH = some v := by
      rw [Versions.branch, if_pos rfl]
      cases g.refs MAIN_BRANCH with
      | none => exact ⟨0, rfl⟩
      | some v => exact ⟨v, rfl⟩
    have hknown := h.ok.branch_known hv
    obtain ⟨page, hhead, -⟩ := h.resolveBranchHead_eq (n := n) (by omega) hv
    rw [require_pos href, ok_bind, hhead, ok_bind, h.version]
    dsimp only
    by_cases hlt : g.head + 1 < 2 ^ 64
    swap
    · rw [require, if_neg hlt]
      exact .refused refused_overflow
    rw [require_pos hlt, ok_bind]
    refine Outcome.weaken ?_ fun e he => .refused he
    refine ((h.txHolds hknown).delete (i := .indices) (refKey name)
      (show 2 * k ≤ n by omega)).bind ?_
    rintro ⟨mroot, existed, ts⟩ - ⟨htx, -, hcursor⟩
    simp only [trees_indices, update_trees_indices] at htx hcursor ⊢
    refine h.record (r := ⟨g.entries v, now, v⟩) (h.ok.dropRef name) rfl rfl
      (h.indexes.dropRef name) htx (fun cur hcur => ?_) hknown htime (by decide) hlt le_rfl hn
      fun p hp _ => ⟨rfl, hmain, Option.isSome_iff_ne_none.2 href, v, hv, _, _, hp⟩
    change ts.append_cursor = some cur at hcur
    rw [hcursor] at hcur
    cases hcur

end Branches

end Arkeion
