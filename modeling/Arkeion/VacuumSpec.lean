import Arkeion.BuiltAudit
import Arkeion.RecoverySpec
import Arkeion.Vacuum
import Arkeion.VersionBranches

/-!
What compacting makes of a store that represents versions: the versions from the frontier on, in
a row on the main branch, each with its map and its time.
-/

namespace Arkeion

open Arkeion.Lib Btree

/-! ### The versions that are kept -/

/-- The versions from `k` up to `w`, one after the other on the main branch. -/
def Versions.compactTo (g : Versions) (k w : ℕ) : Versions where
  head := w
  rev v := if k ≤ v ∧ v ≤ w then
    (g.rev v).map fun r => { r with parent := if v = k then 0 else v - 1 } else none
  refs b := if b = MAIN_BRANCH ∧ 0 < w then some w else none

/-- The versions from `first` up to the head are there, and no others. -/
structure Versions.Gapless (g : Versions) (first : ℕ) : Prop where
  pos : 1 ≤ first
  le : first ≤ g.head + 1
  rev : ∀ v, (g.rev v).isSome ↔ first ≤ v ∧ v ≤ g.head

section Compact
variable {g : Versions} {k v w first : ℕ} {r : Rev}

lemma Versions.Gapless.known (h : g.Gapless first) (hv : first ≤ v) (hw : v ≤ g.head) :
    ∃ r, g.rev v = some r := Option.isSome_iff_exists.1 ((h.rev v).2 ⟨hv, hw⟩)

/-- With a version more there is no gap. -/
lemma Versions.Gapless.commit (h : g.Gapless first) (b : String) (r : Rev) :
    (g.commit b r).Gapless first where
  pos := h.pos
  le := h.le.trans (Nat.le_succ _)
  rev v := by
    change ((g.commit b r).rev v).isSome ↔ first ≤ v ∧ v ≤ g.head + 1
    rcases eq_or_ne v (g.head + 1) with rfl | hne
    · rw [Versions.rev_commit_self]
      exact iff_of_true rfl ⟨h.le, le_rfl⟩
    · rw [Versions.rev_commit_of_ne hne, h.rev]
      omega

lemma Versions.Gapless.dropRef (h : g.Gapless first) (b : String) : (g.dropRef b).Gapless first :=
  ⟨h.pos, h.le, h.rev⟩

lemma Versions.compactTo_rev (hr : g.rev v = some r) (hv : k ≤ v) (hw : v ≤ w) :
    (g.compactTo k w).rev v = some { r with parent := if v = k then 0 else v - 1 } := by
  change (if k ≤ v ∧ v ≤ w then _ else _) = _
  rw [if_pos ⟨hv, hw⟩, hr]
  rfl

lemma Versions.compactTo_rev_none (hv : ¬ (k ≤ v ∧ v ≤ w)) : (g.compactTo k w).rev v = none :=
  if_neg hv

lemma Versions.compactTo_isSome : ((g.compactTo k w).rev v).isSome ↔
    k ≤ v ∧ v ≤ w ∧ (g.rev v).isSome := by
  by_cases hv : k ≤ v ∧ v ≤ w
  · change (if k ≤ v ∧ v ≤ w then _ else _ : Option Rev).isSome ↔ _
    rw [if_pos hv, Option.isSome_map]
    exact ⟨fun h => ⟨hv.1, hv.2, h⟩, fun h => h.2.2⟩
  · rw [compactTo_rev_none hv]
    exact iff_of_false (by simp) fun h => hv ⟨h.1, h.2.1⟩

lemma Versions.compactTo_entries (hv : k ≤ v) (hw : v ≤ w) :
    (g.compactTo k w).entries v = g.entries v := by
  change ((if k ≤ v ∧ v ≤ w then _ else _ : Option Rev).map Rev.entries).getD [] = _
  rw [if_pos ⟨hv, hw⟩, Option.map_map]
  rfl

/-- One version more at the end. -/
lemma Versions.compactTo_commit (hk : k ≤ w) (hr : g.rev (w + 1) = some r) :
    (g.compactTo k w).commit MAIN_BRANCH ⟨r.entries, r.time, w⟩ = g.compactTo k (w + 1) := by
  simp only [Versions.commit, Versions.compactTo, Versions.mk.injEq]
  refine ⟨trivial, funext fun v => ?_, funext fun b => ?_⟩
  · rcases eq_or_ne v (w + 1) with rfl | hne
    · rw [Function.update_self, if_pos ⟨by omega, le_rfl⟩, hr, Option.map_some,
        if_neg (by omega : ¬ w + 1 = k)]
      rfl
    · rw [Function.update_of_ne hne]
      have hiff : k ≤ v ∧ v ≤ w ↔ k ≤ v ∧ v ≤ w + 1 := by omega
      simp only [hiff]
  · rw [Function.update_apply]
    simp only [Nat.succ_pos, and_true]
    split_ifs with hb hold
    · rfl
    · exact absurd hold.1 hb
    · rfl

/-- Nothing is kept of a store without versions. -/
lemma Versions.compactTo_zero (h : g.rev 0 = none) : g.compactTo k 0 = .genesis := by
  simp only [Versions.compactTo, Versions.genesis, lt_irrefl, and_false, if_false,
    Versions.mk.injEq, and_true, true_and]
  funext v
  by_cases hv : k ≤ v ∧ v ≤ 0
  · rw [if_pos hv, Nat.le_zero.1 hv.2, h]
    rfl
  · rw [if_neg hv]

end Compact

/-! ### The only branch -/

section OnlyMain
variable {k n : ℕ} {s : Store} {g : Versions} {roots : ℕ → ℕ} {mkvs : Entries}

/-- No branch but the main one has a ref. -/
def Versions.OnlyMain (g : Versions) : Prop := ∀ b, b ≠ MAIN_BRANCH → g.refs b = none

/-- Over sorted entries the loop for the refs says whether they are all of the main branch. -/
lemma loopOver_onlyMain {kvs : Entries} (hs : SortedMap kvs)
    (hkeys : ∀ p ∈ kvs, (∃ v < 2 ^ 64, p.1 = histKey v) ∨ ∃ b, p.1 = refKey b) (only : Bool) :
    ∃ res, loopOver (fun entry only => .ok (if only = true ∧ entry.1.head? = some META_REF then
      some (decide (entry.1.tail = utf8 MAIN_BRANCH)) else none)) kvs only = .ok res ∧
      (res = true ↔ only = true ∧ ∀ b, (∃ p ∈ kvs, p.1 = refKey b) → b = MAIN_BRANCH) := by
  induction kvs generalizing only with
  | nil => exact ⟨only, rfl, by simp⟩
  | cons p kvs ih =>
    obtain ⟨hlt, hs'⟩ := sortedMap_cons.1 hs
    have ih' := ih hs' fun q hq => hkeys q (by simp [hq])
    rw [loopOver, ok_bind]
    rcases hkeys p (by simp) with ⟨v, hv, hkey⟩ | ⟨b, hkey⟩
    · -- behind an entry of the history there are no refs
      have hnot : ¬ (only = true ∧ p.1.head? = some META_REF) := by
        rw [hkey]
        exact fun h => absurd h.2 (by simp [histKey, META_REF, META_HIST])
      rw [if_neg hnot]
      refine ⟨only, rfl, ?_⟩
      rw [iff_self_and]
      rintro - b ⟨q, hq, hqb⟩
      exfalso
      have hgt : [META_HIST] ≤ refKey b := by
        rw [← hqb]
        rcases List.mem_cons.1 hq with rfl | hq
        · exact hkey ▸ histStart_le v
        · exact (hkey ▸ histStart_le v : [META_HIST] ≤ p.1).trans (hlt q hq).le
      exact absurd (refKey_lt b) (not_lt.2 hgt)
    · cases only with
      | false =>
        rw [if_neg (by simp)]
        exact ⟨false, rfl, by simp⟩
      | true =>
        rw [if_pos ⟨rfl, by rw [hkey]; rfl⟩]
        obtain ⟨res, hres, hiff⟩ := ih' (decide (p.1.tail = utf8 MAIN_BRANCH))
        refine ⟨res, hres, hiff.trans ?_⟩
        have htail : p.1.tail = utf8 MAIN_BRANCH ↔ b = MAIN_BRANCH := by
          rw [hkey]
          exact ⟨fun h => utf8_inj h, fun h => by rw [h]; rfl⟩
        rw [decide_eq_true_iff, htail]
        constructor
        · rintro ⟨rfl, hrest⟩
          refine ⟨rfl, fun c hc => ?_⟩
          obtain ⟨q, hq, hqc⟩ := hc
          rcases List.mem_cons.1 hq with rfl | hq
          · exact refKey_inj (hqc.symm.trans hkey)
          · exact hrest c ⟨q, hq, hqc⟩
        · rintro ⟨-, hall⟩
          refine ⟨hall b ⟨p, by simp, hkey⟩, ?_⟩
          rintro c ⟨q, hq, hqc⟩
          exact hall c ⟨q, by simp [hq], hqc⟩

lemma refStart_le_of_keys {p : Bytes × Bytes}
    (h : (∃ v < 2 ^ 64, p.1 = histKey v) ∨ ∃ b, p.1 = refKey b) : [META_REF] ≤ p.1 := by
  refine le_of_not_gt fun hlt => ?_
  have htail {x : UInt8} {l : Bytes} (hp : p.1 = x :: l) (hx : ¬ x < META_REF) : False := by
    rw [hp] at hlt
    rcases List.cons_lt_cons_iff.1 hlt with h | ⟨-, h⟩
    · exact hx h
    · exact List.not_lt_nil _ h
  rcases h with ⟨v, -, hp⟩ | ⟨b, hp⟩
  · exact htail hp (by decide)
  · exact htail hp (by decide)

lemma Represents.hasOnlyMainBranch_eq (h : Represents k s g roots mkvs) (hn : k + 2 ≤ n) :
    ∃ only, Store.hasOnlyMainBranch n s = .ok only ∧ (only = true ↔ g.OnlyMain) := by
  have hsorted : SortedMap mkvs := h.metaTree.sorted
  have hall : fromKey [META_REF] mkvs = mkvs :=
    fromKey_of_ge fun p hp => refStart_le_of_keys (h.indexes.keys p hp)
  obtain ⟨only, hloop, hiff⟩ := loopOver_onlyMain hsorted h.indexes.keys true
  have hlen := (length_le_weight mkvs).trans h.weight_meta
  have hscan := forScan_eq (fun entry only => .ok (if only = true ∧ entry.1.head? = some META_REF
    then some (decide (entry.1.tail = utf8 MAIN_BRANCH)) else none)) true h.metaTree
    (show k ≤ n by omega) hn (show mkvs.length < n by omega) (some [META_REF])
  rw [fromStart, hall, hloop] at hscan
  refine ⟨only, (sees_pager s.pager).forScan n _ _ _ _ only hscan, hiff.trans ?_⟩
  rw [and_iff_right rfl]
  have hmem (b : String) : (∃ p ∈ mkvs, p.1 = refKey b) ↔ g.refs b ≠ none := by
    have hrefs := h.indexes.refs b
    constructor
    · rintro ⟨p, hp, hkey⟩ hnone
      have hval := (mem_iff_valueOf hsorted).1 hp
      rw [hkey, hrefs, hnone] at hval
      cases hval
    · intro hne
      obtain ⟨v, hv⟩ := Option.ne_none_iff_exists'.1 hne
      rw [hv] at hrefs
      exact ⟨_, mem_of_valueOf hrefs, rfl⟩
  constructor
  · intro hmain b hb
    by_contra hne
    exact hb (hmain b ((hmem b).2 hne))
  · intro hmain b hb
    by_contra hne
    exact (hmem b).1 hb (hmain b hne)

end OnlyMain

/-! ### The frontier -/

section Frontier
variable {k n first : ℕ} {s : Store} {g : Versions} {roots : ℕ → ℕ} {mkvs : Entries}

/-- The versions a policy asks for, of those that are there: the last ones, or those from the
first that is not before the time on. The head is always one of them. -/
def Retention.Asks (g : Versions) : Retention → ℕ → Prop
  | .keepAll, _ => True
  | .keepLast count, v => g.head ≤ v + (count - 1)
  | .keepSince ms, v => v = g.head ∨ ∃ w r, w ≤ v ∧ g.rev w = some r ∧ ms ≤ r.time

/-- The first version a policy looks at. -/
def Retention.reads (g : Versions) : Retention → ℕ
  | .keepAll => 1
  | .keepLast count => max (g.head - (count - 1)) 1
  | .keepSince _ => 1

lemma Represents.sinceLoop_eq (h : Represents k s g roots mkvs) (hn : k ≤ n) (ms : ℕ) {m v : ℕ}
    (hv : 1 ≤ v) (hm : v + m = g.head + 1) (hrev : ∀ w, v ≤ w → w ≤ g.head → (g.rev w).isSome) :
    ∃ f, Store.sinceLoop n s ms m v = .ok f ∧ (f = g.head ∨ v ≤ f ∧ f ≤ g.head) ∧
      ∀ w, v ≤ w → w ≤ g.head →
        (f ≤ w ↔ w = g.head ∨ ∃ u r, v ≤ u ∧ u ≤ w ∧ g.rev u = some r ∧ ms ≤ r.time) := by
  induction m generalizing v with
  | zero =>
    refine ⟨g.head, ?_, Or.inl rfl, fun w hvw hw => by omega⟩
    rw [Store.sinceLoop, h.version]
  | succ m ih =>
    obtain ⟨r, hr⟩ := Option.isSome_iff_exists.1 (hrev v le_rfl (by omega))
    rw [Store.sinceLoop, h.readHist_eq hn hr, ok_bind]
    dsimp only
    split_ifs with htime
    · refine ⟨v, rfl, Or.inr ⟨le_rfl, by omega⟩, fun w hvw hw => ?_⟩
      exact iff_of_true hvw (Or.inr ⟨v, r, le_rfl, hvw, hr, htime⟩)
    · obtain ⟨f, hf, hrange, hiff⟩ := ih (v := v + 1) (by omega) (by omega)
        fun w hvw hw => hrev w (by omega) hw
      refine ⟨f, hf, by omega, fun w hvw hw => ?_⟩
      have hlater : (∃ u r, v ≤ u ∧ u ≤ w ∧ g.rev u = some r ∧ ms ≤ r.time) ↔
          ∃ u r, v + 1 ≤ u ∧ u ≤ w ∧ g.rev u = some r ∧ ms ≤ r.time := by
        constructor
        · rintro ⟨u, r', hvu, huw, hr', htime'⟩
          refine ⟨u, r', ?_, huw, hr', htime'⟩
          rcases hvu.lt_or_eq with hlt | rfl
          · exact hlt
          · rw [hr] at hr'
            cases hr'
            exact absurd htime' htime
        · rintro ⟨u, r', hvu, hrest⟩
          exact ⟨u, r', by omega, hrest⟩
      rw [hlater]
      rcases hvw.lt_or_eq with hlt | rfl
      · exact hiff w hlt hw
      · constructor
        · intro hle
          exact Or.inl (by omega)
        · rintro (heq | ⟨u, -, hvu, huv, -⟩)
          · omega
          · omega

/-- Where the history begins with version 1, or the policy does not look so far back, the
frontier is found, and what the policy asks for lies behind it. -/
lemma Represents.vacuumFrontier_eq (h : Represents k s g roots mkvs) (hn : k ≤ n)
    (hgap : g.Gapless first) (hpos : 1 ≤ g.head) (p : Retention) (hreads : first ≤ p.reads g) :
    ∃ f, Store.vacuumFrontier n s p = .ok f ∧ first ≤ f ∧ f ≤ g.head ∧
      ∀ v, first ≤ v → v ≤ g.head → (f ≤ v ↔ p.Asks g v) := by
  have hfirst := hgap.pos
  cases p with
  | keepAll =>
    refine ⟨1, rfl, hreads, hpos, fun v hv hw => ?_⟩
    exact iff_of_true (by omega) trivial
  | keepLast count =>
    refine ⟨max (g.head - (count - 1)) 1, ?_, hreads, by omega, fun v hv hw => ?_⟩
    · rw [Store.vacuumFrontier, h.version]
    · rw [Retention.Asks]
      omega
  | keepSince ms =>
    have hone : first = 1 := le_antisymm hreads hfirst
    subst hone
    obtain ⟨f, hf, hrange, hiff⟩ := h.sinceLoop_eq hn ms (m := g.head) (v := 1) le_rfl (by omega)
      fun w hw hle => (hgap.rev w).2 ⟨hw, hle⟩
    refine ⟨f, by rw [Store.vacuumFrontier, h.version, hf], by omega, by omega, fun v hv hw => ?_⟩
    rw [hiff v hv hw, Retention.Asks]
    refine or_congr Iff.rfl (exists_congr fun u => exists_congr fun r => ?_)
    constructor
    · rintro ⟨-, hrest⟩
      exact hrest
    · rintro ⟨huv, hr, htime⟩
      exact ⟨((hgap.rev u).1 (by rw [hr]; rfl)).1, huv, hr, htime⟩

end Frontier

/-! ### The new file -/

/-- A file the engine built, on the main branch alone, with a slot that points to its head and
none that is newer. -/
structure NewFile.Sound (sha : Sha256) (f : NewFile) : Prop where
  built : ∃ ws, Built sha f.store.pager f.store.head ws ∧ ∀ w ∈ ws, w.header.branch = MAIN_BRANCH
  slot : metaFor f.store.head ∈ f.slotA.toList ++ f.slotB.toList
  newest : ∀ m ∈ f.slotA.toList ++ f.slotB.toList,
    m = metaFor f.store.head ∨ m.version < f.store.head.version

/-- A sound file whose store represents versions. -/
structure NewFile.Holds (sha : Sha256) (k : ℕ) (g : Versions) (f : NewFile) : Prop where
  sound : f.Sound sha
  held : f.store.held = false
  represents : ∃ roots mkvs, Represents k f.store g roots mkvs

section Slots
variable {f : NewFile} {pager : PageLog} {head : Head}

lemma NewFile.publish_slot (f : NewFile) (pager : PageLog) (head : Head) :
    metaFor head ∈ (f.publish pager head).slotA.toList ++ (f.publish pager head).slotB.toList := by
  change metaFor head ∈ (if _ then _ else f.slotA).toList ++ (if _ then f.slotB else _).toList
  split_ifs <;> simp

lemma NewFile.publish_newest (h : ∀ m ∈ f.slotA.toList ++ f.slotB.toList, m.version < head.version) :
    ∀ m ∈ (f.publish pager head).slotA.toList ++ (f.publish pager head).slotB.toList,
      m = metaFor head ∨ m.version < head.version := by
  intro m hm
  change m ∈ (if _ then _ else f.slotA).toList ++ (if _ then f.slotB else _).toList at hm
  split_ifs at hm
  · rcases List.mem_append.1 hm with hm | hm
    · exact Or.inl (by simpa using hm)
    · exact Or.inr (h m (by simp [hm]))
  · rcases List.mem_append.1 hm with hm | hm
    · exact Or.inr (h m (by simp [hm]))
    · exact Or.inl (by simpa using hm)

end Slots

section Build
variable {k K n m v w nonce : ℕ} {s : Store} {g : Versions} {roots : ℕ → ℕ} {mkvs : Entries}
  {sha : Sha256} {r : Rev} {f : NewFile} {pager : PageLog}

/-- All entries of a map, put into an empty one. -/
lemma patch_all {kvs : Entries} (hs : SortedMap kvs) :
    patch [] (kvs.map fun item => (item.1, some item.2)) = kvs := by
  have hnil : SortedMap ([] : Entries) := List.Pairwise.nil
  refine hnil.patch.ext hs fun key => ?_
  rw [valueOf_patch hnil (hs.map some), valueOf_map (f := some)]
  cases valueOf key kvs <;> rfl

lemma targetsGrowth_all (kvs : Entries) :
    targetsGrowth (kvs.map fun item => (item.1, some item.2)) = weight kvs := by
  rw [targetsGrowth, List.map_map]
  rfl

/-- The first version of a compacted file, as a commit after the versions that are gone. -/
lemma Versions.compactTo_first (hr : g.rev v = some r) (hpos : 0 < v) :
    ({ Versions.genesis with head := v - 1 } : Versions).commit MAIN_BRANCH
      ⟨r.entries, r.time, 0⟩ = g.compactTo v v := by
  have hv : v - 1 + 1 = v := by omega
  simp only [Versions.commit, Versions.genesis, Versions.compactTo, hv, Versions.mk.injEq]
  refine ⟨trivial, funext fun w => ?_, funext fun b => ?_⟩
  · rcases eq_or_ne w v with rfl | hne
    · rw [Function.update_self, if_pos ⟨le_rfl, le_rfl⟩, hr, Option.map_some, if_pos rfl]
    · rw [Function.update_of_ne hne, if_neg (by omega)]
  · rw [Function.update_apply]
    simp only [hpos, and_true]

lemma Published.represents_checkpoint {root mroot : ℕ} {chain : Bytes} {p : PageLog × Head}
    (hp : Published sha pager k (.checkpoint v chain MAIN_BRANCH) nonce ⟨root, mroot, r.time⟩
      r.entries (withVersion v root MAIN_BRANCH ⟨r.entries, r.time, 0⟩ []) p)
    (hr : g.rev v = some r) (hpos : 0 < v) (hlt : v < 2 ^ 64) (hle : v ≤ k)
    (htime : r.time < 2 ^ 64) (hweight : weight r.entries ≤ k)
    (hmeta : weight (withVersion v root MAIN_BRANCH ⟨r.entries, r.time, 0⟩ []) ≤ k) (s : Store) :
    Represents k (s.install p.1 p.2) (g.compactTo v v) (Function.update (fun _ => NO_ROOT) v root)
      (withVersion v root MAIN_BRANCH ⟨r.entries, r.time, 0⟩ []) := by
  obtain ⟨hversion, hdata, hmroot, hchain⟩ := hp.head_eq
  have hrev : (g.compactTo v v).rev v = some ⟨r.entries, r.time, 0⟩ := by
    rw [Versions.compactTo_rev hr le_rfl le_rfl, if_pos rfl]
  have hone {w : ℕ} {r' : Rev} (hw : (g.compactTo v v).rev w = some r') :
      w = v ∧ r' = ⟨r.entries, r.time, 0⟩ := by
    by_cases hwv : v ≤ w ∧ w ≤ v
    · obtain rfl : w = v := by omega
      rw [hrev] at hw
      cases hw
      exact ⟨rfl, rfl⟩
    · rw [Versions.compactTo_rev_none hwv] at hw
      cases hw
  have hknown {w : ℕ} (hw : (g.compactTo v v).Known w) : w = 0 ∨ w = v := by
    refine hw.imp id fun hw => ?_
    obtain ⟨r', hr'⟩ := Option.isSome_iff_exists.1 hw
    exact (hone hr').1
  have hentries : (g.compactTo v v).entries v = r.entries :=
    (Versions.entries_of_rev hrev :)
  have hentries₀ : (g.compactTo v v).entries 0 = [] := by
    rw [Versions.entries, Versions.compactTo_rev_none (by omega)]
    rfl
  have hzero : Function.update (fun _ => NO_ROOT) v root 0 = NO_ROOT :=
    Function.update_of_ne (by omega) ..
  have hok : (g.compactTo v v).Ok := by
    refine ⟨Versions.compactTo_rev_none (by omega), fun w r' hw => (hone hw).1.le,
      Or.inr (Option.isSome_iff_exists.2 ⟨_, hrev⟩), fun w r' hw => ?_, fun w r' hw => ?_,
      fun w r' hw => ?_, fun b w hb => ?_, fun b w hb => ?_⟩
    · obtain ⟨rfl, rfl⟩ := hone hw
      exact hpos
    · obtain ⟨rfl, rfl⟩ := hone hw
      exact Or.inl rfl
    · obtain ⟨rfl, rfl⟩ := hone hw
      exact htime
    · change (if b = MAIN_BRANCH ∧ 0 < v then some v else none) = some w at hb
      split_ifs at hb
      cases hb
      rw [hrev]
      rfl
    · change (if b = MAIN_BRANCH ∧ 0 < v then some v else none) = some w at hb
      split_ifs at hb with hmain
      rw [hmain.1]
      decide
  refine
    { ok := hok
      version := hversion
      head_lt := hlt
      head_le := hle
      pages_lt := hp.pages_lt
      chain := hchain
      zero := hzero
      data_root := ?_
      metaTree := ?_
      trees := fun w hw => ?_
      weight_meta := hmeta
      weight_le := fun w hw => ?_
      indexes := ?_ }
  · change p.2.data_root = Function.update (fun _ => NO_ROOT) v root v
    rw [Function.update_self, hdata]
  · change TreeHolds (TxPages.new p.1) k k p.2.meta_root _ []
    rw [hmroot]
    exact hp.indices
  · rcases hknown hw with rfl | rfl
    · rw [hzero, hentries₀]
      exact Or.inl ⟨rfl, rfl, rfl⟩
    · rw [Function.update_self, hentries]
      exact hp.data
  · rcases hknown hw with rfl | rfl
    · rw [hentries₀]
      exact Nat.zero_le _
    · rwa [hentries]
  · have hgen : IndexesOf ({ Versions.genesis with head := v - 1 } : Versions) (fun _ => NO_ROOT) [] :=
      ⟨fun _ _ => rfl, fun _ => rfl, by simp⟩
    have hv : v - 1 + 1 = v := by omega
    have hcommit := @IndexesOf.commit _ _ _ MAIN_BRANCH ⟨r.entries, r.time, 0⟩ root hgen
      List.Pairwise.nil (show v - 1 + 1 < 2 ^ 64 by omega)
    rw [Versions.compactTo_first hr hpos] at hcommit
    simp only [hv] at hcommit
    exact hcommit

/-- The checkpoint is a store with one version, the one of the frontier. -/
lemma Represents.checkpoint_outcome (h : Represents k s g roots mkvs) (hr : g.rev v = some r)
    (hpos : 0 < v) (hempty : pager.pages = []) (hn : 2 * (k + 34) + 2 ≤ n) :
    Outcome (Refused TxStore)
      (Store.checkpoint sha n s (.create sha pager nonce) v)
      (NewFile.Holds sha (k + 34) (g.compactTo v v)) := by
  have hknown : g.Known v := Or.inr (by rw [hr]; rfl)
  have hentries : g.entries v = r.entries := Versions.entries_of_rev hr
  have hsorted : SortedMap r.entries := hentries ▸ h.sorted hknown
  have hnil : ∀ root, root = NO_ROOT → TreeHolds (TxPages.new pager) 0 0 root [] [] :=
    fun root hroot => Or.inl ⟨hroot, rfl, rfl⟩
  have hpages : pager.nPages < 2 ^ 64 := by
    rw [PageLog.nPages, hempty]
    decide
  have hnew : TxHolds pager 0 (TxStore.new pager) (Arkeion.trees NO_ROOT NO_ROOT)
      (Arkeion.trees [] []) :=
    txHolds_new hpages (fun i => by cases i <;> exact hnil _ rfl) fun i => by cases i <;> exact le_rfl
  have hweight : weight r.entries ≤ k := hentries ▸ h.weight_le v hknown
  have hgrowth := targetsGrowth_all r.entries
  rw [Store.checkpoint, h.snapshotAtVersion_eq (by omega) hknown, ok_bind,
    (h.readsMap (n := n) (by omega) hknown v).scan, ok_bind, hentries]
  refine (applyTargets_outcome (hsorted.map some) hnew (fun p hp x hx => ?_)
    (fun p hp hnone => ?_) (fun _ _ cur hcur => by cases hcur) (fun cur hcur => by cases hcur)
    (by omega)).bind ?_
  · obtain ⟨item, hitem, rfl⟩ := List.mem_map.1 hp
    cases hx
    exact (h.trees v hknown).insert_ok item (hentries ▸ hitem)
  · obtain ⟨item, -, rfl⟩ := List.mem_map.1 hp
    cases hnone
  rintro ⟨root, ts⟩ - ⟨htx, hsound⟩
  rw [hgrowth, patch_all hsorted] at htx
  dsimp only at htx ⊢
  rw [h.readHist_eq (by omega) hr, ok_bind]
  dsimp only
  have hbound : TxHolds pager k ts (Arkeion.trees root NO_ROOT) (Arkeion.trees r.entries []) :=
    htx.mono (by omega)
  refine (writeMetaIndices_outcome hbound (hsound.insertFits _ _ _) (by decide) (by omega)).bind ?_
  rintro ⟨mroot, ts'⟩ - htx'
  rw [Store.publishCommit]
  have hpublish := @TxHolds.publish sha pager _ nonce
    (.checkpoint v (genesisChain sha pager.fileId) MAIN_BRANCH) ⟨root, mroot, r.time⟩ _ _ ts' htx'
    (show (utf8 MAIN_BRANCH).length ≤ BRANCH_MAX by decide) (sha.length_digest _)
  refine Outcome.bind (hpublish.weaken fun e he => he ▸ refused_overflow) fun p _ hp => ?_
  have hle : v ≤ k := (h.ok.known_le hknown).trans h.head_le
  have hlt : v < 2 ^ 64 := h.known_lt hknown
  have htime := h.ok.time_lt v r hr
  have hversion : p.2.version = v := hp.head_eq.1
  refine ⟨⟨?_, NewFile.publish_slot _ _ _, NewFile.publish_newest fun m hm => ?_⟩, rfl, _, _,
    hp.represents_checkpoint hr hpos hlt (hle.trans (by omega)) htime (hweight.trans (by omega))
      (htx'.weight_le .indices) (NewFile.create sha pager nonce).store⟩
  · obtain ⟨header, bodies, hheader, hsized, hlog, hhead⟩ := hp.sized
      ⟨show COMMIT_FLAG_CHECKPOINT < 2 ^ 32 by decide, hlt, show 0 < 2 ^ 64 by decide,
        show 0 < 2 ^ 64 by decide, show (utf8 MAIN_BRANCH).length ≤ BRANCH_MAX by decide,
        sha.length_digest _, htime, hp.data.root_lt,
        hp.indices.root_lt⟩
    refine ⟨[⟨header, bodies⟩], ?_, fun w hw => ?_⟩
    · change Built sha p.1 p.2 _
      rw [hhead]
      exact .checkpoint hempty hpos hheader hsized hp.fileId (by rw [hlog, hempty]; rfl)
    · rw [List.mem_singleton.1 hw, hheader]
      rfl
  · have hm0 : m = ⟨0, 0, FIRST_DATA_PAGE⟩ := by
      rcases List.mem_append.1 hm with hm | hm <;> simpa [NewFile.create] using hm
    change m.version < p.2.version
    rw [hm0, hversion]
    exact hpos

lemma NewFile.Sound.publish {p : PageLog × Head} (h : f.Sound sha)
    (hversion : f.store.head.version < p.2.version) (hpages : f.store.pager.nPages < 2 ^ 64)
    (hb : BuiltOn sha f.store MAIN_BRANCH f.store.head.commit_page p) :
    (f.publish p.1 p.2).Sound sha := by
  obtain ⟨ws, hbuilt, hmain⟩ := h.built
  obtain ⟨w, hw, hbuilt'⟩ := hb (hbuilt.commit_page_lt.trans hpages) ws hbuilt
  refine ⟨⟨ws ++ [w], hbuilt', fun x hx => ?_⟩, NewFile.publish_slot _ _ _,
    NewFile.publish_newest fun m hm => ?_⟩
  · rcases List.mem_append.1 hx with hx | hx
    · exact hmain x hx
    · rw [List.mem_singleton.1 hx]
      exact hw
  · rcases h.newest m hm with rfl | hlt
    · exact hversion
    · exact hlt.trans hversion

/-- The version after the last one is written again from the difference between the two. -/
lemma Represents.replayVersion_outcome (h : Represents k s g roots mkvs)
    (hf : NewFile.Holds sha K (g.compactTo v w) f) (hvw : v ≤ w)
    (hw : (g.rev w).isSome) (hr : g.rev (w + 1) = some r)
    (hn : 2 * (K + k + 34) ≤ n) :
    Outcome (Refused TxStore) (Store.replayVersion sha n s f (w + 1))
      (NewFile.Holds sha (K + k + 34) (g.compactTo v (w + 1))) := by
  obtain ⟨hsound, -, roots', mkvs', hf⟩ := hf
  have hkw : g.Known w := Or.inr hw
  have hkr : g.Known (w + 1) := Or.inr (by rw [hr]; rfl)
  obtain ⟨r₀, hr₀⟩ := Option.isSome_iff_exists.1 hw
  have hlast := Versions.compactTo_rev hr₀ hvw le_rfl
  have hkf : (g.compactTo v w).Known w := Or.inr (by rw [hlast]; rfl)
  have hsame : (g.compactTo v w).entries w = g.entries w := by
    rw [Versions.entries_of_rev hlast, Versions.entries_of_rev hr₀]
  have hsw := h.sorted hkw
  have hsr := h.sorted hkr
  have hsorted := (sortedMap_diffMaps hsw hsr).map Change.target
  have hput : ∀ key x, (key, some x) ∈ (diffMaps (g.entries w) (g.entries (w + 1))).map
      (fun d => (d.1, d.2.target)) → (key, x) ∈ g.entries (w + 1) := by
    intro key x hmem
    have hval := (mem_iff_valueOf hsorted).1 hmem
    rw [valueOf_map (f := Change.target), valueOf_diffMaps hsw hsr, changeOf_map_target] at hval
    split_ifs at hval with hne
    exact mem_of_valueOf (Option.some.inj hval)
  have hgone : ∀ p ∈ (diffMaps (g.entries w) (g.entries (w + 1))).map
      (fun d => (d.1, d.2.target)), p.2 = none → (valueOf p.1 (g.entries w)).isSome := by
    intro p hmem hnone
    have hval : valueOf p.1 _ = some p.2 := (mem_iff_valueOf hsorted).1 hmem
    rw [valueOf_map (f := Change.target), valueOf_diffMaps hsw hsr, changeOf_map_target] at hval
    split_ifs at hval with hne
    rw [hnone] at hval
    cases hold : valueOf p.1 (g.entries w) with
    | none => exact absurd (hold.trans (Option.some.inj hval).symm) hne
    | some x => rfl
  have hgrowth := (targetsGrowth_le hsorted hput).trans (h.weight_le _ hkr)
  have hle := hf.head_le
  rw [Store.replayVersion, Nat.add_sub_cancel, h.readDataRoot_eq (by omega) hkw, ok_bind,
    h.readDataRoot_eq (by omega) hkr, ok_bind, h.diff_eq (by omega) hkw hkr, ok_bind, hf.data_root]
  refine (applyTargets_outcome hsorted (hf.txHolds hkf) (fun p hp x hx => ?_) (fun p hp hnone => ?_)
    (fun _ _ cur hcur => by cases hcur) (fun cur hcur => by cases hcur) (by omega)).bind ?_
  · obtain ⟨key, t⟩ := p
    cases (show t = some x from hx)
    exact (h.trees _ hkr).insert_ok _ (hput key x hp)
  · rw [hsame]
    exact hgone p hp hnone
  rintro ⟨root, ts⟩ - ⟨htx, hcur⟩
  rw [hsame, patch_diffMaps hsw hsr] at htx
  have hmap := htx.mono (Nat.add_le_add_left hgrowth K)
  rw [Versions.entries_of_rev hr] at hmap
  dsimp only at hmap ⊢
  rw [h.readHist_eq (by omega) hr, ok_bind]
  dsimp only
  have hlt := h.known_lt hkr
  refine hf.record (r := ⟨r.entries, r.time, w⟩) hf.ok rfl rfl hf.indexes
    hmap (hcur.insertFits _ _ _) hkf (h.ok.time_lt _ r hr)
    (show (utf8 MAIN_BRANCH).length ≤ BRANCH_MAX by decide) hlt (by omega) hn fun p hp hb => ?_
  rw [Versions.compactTo_commit hvw hr] at hp
  have hversion : p.2.version = w + 1 := hp.version
  have hold : f.store.head.version = w := hf.version
  exact ⟨hsound.publish (by omega) hf.pages_lt hb, rfl, _, _, hp⟩

lemma Represents.replay_outcome (h : Represents k s g roots mkvs)
    (hf : NewFile.Holds sha K (g.compactTo v w) f) (hvw : v ≤ w)
    (hrev : ∀ u, w ≤ u → u ≤ w + m → (g.rev u).isSome)
    (hn : 2 * (K + m * (k + 34)) ≤ n) :
    Outcome (Refused TxStore) (Store.replay sha n s m (w + 1) f)
      (NewFile.Holds sha (K + m * (k + 34)) (g.compactTo v (w + m))) := by
  induction m generalizing K w f with
  | zero =>
    rw [Nat.zero_mul]
    exact hf
  | succ m ih =>
    have hm : (m + 1) * (k + 34) = m * (k + 34) + k + 34 := by ring
    obtain ⟨r, hr⟩ := Option.isSome_iff_exists.1 (hrev (w + 1) (by omega) (by omega))
    rw [Store.replay]
    refine (h.replayVersion_outcome hf hvw (hrev w le_rfl (by omega)) hr (by omega)).bind ?_
    rintro f' - hf'
    have hrest := ih hf' (by omega) (fun u hu hle => hrev u (by omega) (by omega)) (by omega)
    have hK : K + k + 34 + m * (k + 34) = K + (m + 1) * (k + 34) := by omega
    have hw : w + 1 + m = w + (m + 1) := by omega
    rwa [hK, hw] at hrest

end Build

/-! ### Opening the new file -/

section Open
variable {sha : Sha256} {l : PageLog} {head : Head} {ws : List Written} {f : NewFile}

/-- The last page is the commit of the head. -/
def EndsWith (sha : Sha256) (l : PageLog) (head : Head) : Prop :=
  ∃ hd page, FIRST_DATA_PAGE ≤ page ∧ l.readPage page = .ok (commitBody hd) ∧
    CommitHeader.decode (commitBody hd) = some hd ∧ hd.selfConsistent sha = true ∧
    head = headFrom hd page ∧ page + 1 = l.nPages

lemma endsWith_of_pages {ps : List Bytes} {hd : CommitHeader} (hp : l.pages = ps ++ [commitBody hd])
    (hs : hd.Sized) (hnul : 0 ∉ utf8 hd.branch) (hc : hd.chain_hash = hd.computeChain sha) :
    EndsWith sha l (headFrom hd (FIRST_DATA_PAGE + ps.length)) := by
  refine ⟨hd, FIRST_DATA_PAGE + ps.length, Nat.le_add_right .., ?_,
    CommitHeader.decode_encodeInto hs hnul zeroBody, ?_, rfl, ?_⟩
  · rw [PageLog.readPage_eq_ok]
    refine ⟨Nat.le_add_right .., ?_⟩
    rw [Nat.add_sub_cancel_left, hp, List.getElem?_append_right le_rfl]
    simp
  · rw [CommitHeader.selfConsistent, hc, beq_self_eq_true]
  · rw [PageLog.nPages, hp, List.length_append, List.length_singleton, Nat.add_assoc]

lemma Built.endsWith (h : Built sha l head ws) (hnul : ∀ w ∈ ws, 0 ∉ utf8 w.header.branch) :
    (l.pages = [] ∧ head = genesisHead sha l.fileId) ∨ EndsWith sha l head := by
  cases h with
  | genesis hempty => exact Or.inl ⟨hempty, rfl⟩
  | @checkpoint l _ _ _ _ _ dirty hd hempty _ hh hs hid hp =>
    have hpage : l.nPages = FIRST_DATA_PAGE := by
      rw [PageLog.nPages, hempty]
      rfl
    rw [hpage]
    refine Or.inr (endsWith_of_pages hp hs (hnul ⟨hd, dirty⟩ (by simp)) ?_)
    rw [hh, commitHeader_chain]
  | @commit l _ _ _ _ _ _ _ dirty hd hb hh hs hid hp =>
    have hpage : l.nPages + dirty.length = FIRST_DATA_PAGE + (l.pages ++ dirty).length := by
      rw [PageLog.nPages, List.length_append, Nat.add_assoc]
    rw [hpage]
    refine Or.inr (endsWith_of_pages hp hs (hnul ⟨hd, dirty⟩ (by simp)) ?_)
    rw [hh, commitHeader_chain]

/-- The newest slot is looked at first, and nothing is behind the commit it points to. -/
lemma EndsWith.recover_eq (h : EndsWith sha f.store.pager f.store.head) (hf : f.Sound sha) :
    (f.source sha).recover = .ok f.store.head := by
  obtain ⟨hd, page, hle, hread, hdec, hself, hhead, hend⟩ := h
  set slots := (RecoverySource.sortedSlots (f.source sha).slots).filter
    fun m => decide (FIRST_DATA_PAGE ≤ m.last_commit_page) with hslots
  have hmem {m : MetaSlot} (hm : m ∈ slots) : m ∈ f.slotA.toList ++ f.slotB.toList := by
    rw [hslots, List.mem_filter, RecoverySource.sortedSlots, List.mem_mergeSort] at hm
    exact hm.1
  have hnew : metaFor f.store.head ∈ slots := by
    rw [hslots, List.mem_filter, RecoverySource.sortedSlots, List.mem_mergeSort]
    refine ⟨hf.slot, decide_eq_true ?_⟩
    rw [hhead]
    exact hle
  have hsorted : slots.Pairwise fun a b => b.version ≤ a.version := by
    refine List.Pairwise.filter _ ((List.pairwise_mergeSort ?_ ?_ _).imp fun hab => of_decide_eq_true hab)
    · intro a b c hab hbc
      exact decide_eq_true ((of_decide_eq_true hbc).trans (of_decide_eq_true hab))
    · intro a b
      rw [Bool.or_eq_true, decide_eq_true_iff, decide_eq_true_iff]
      exact le_total ..
  have htry : (f.source sha).tryHeadAt page = .ok (some f.store.head) := by
    have hread' : (f.source sha).readPage page = .ok (commitBody hd) := hread
    rw [RecoverySource.tryHeadAt, hread']
    simp only [hdec, hhead]
    exact congrArg Except.ok (if_pos hself)
  have hfirst : (f.source sha).firstHead slots = .ok (some f.store.head) := by
    cases hcons : slots with
    | nil =>
      rw [hcons] at hnew
      cases hnew
    | cons m ms =>
      have hm : m = metaFor f.store.head := by
        refine (hf.newest m (hmem (by rw [hcons]; simp))).resolve_right fun hlt => ?_
        rw [hcons] at hnew hsorted
        rcases List.mem_cons.1 hnew with heq | hin
        · rw [← heq] at hlt
          exact lt_irrefl _ hlt
        · exact absurd ((List.pairwise_cons.1 hsorted).1 _ hin) (not_le.2 hlt)
      have hpage : m.last_commit_page = page := by
        rw [hm, hhead]
        rfl
      rw [RecoverySource.firstHead, hpage, htry]
      rfl
  have hrest : (f.source sha).n_pages - f.store.head.n_pages = 0 := by
    rw [hhead]
    exact Nat.sub_eq_zero_of_le hend.ge
  rw [RecoverySource.recover, ← hslots, hfirst, ok_bind, Option.getD_some]
  dsimp only
  rw [hrest]
  rfl

/-- A file without commits is opened as such. -/
lemma NewFile.create_recover {pager : PageLog} {nonce : ℕ} (hempty : pager.pages = []) :
    ((NewFile.create sha pager nonce).source sha).recover
      = .ok (NewFile.create sha pager nonce).store.head := by
  have hpages : pager.nPages = FIRST_DATA_PAGE := by
    rw [PageLog.nPages, hempty]
    rfl
  have hslots : (RecoverySource.sortedSlots ((NewFile.create sha pager nonce).source sha).slots).filter
      (fun m => decide (FIRST_DATA_PAGE ≤ m.last_commit_page)) = [] := by
    rw [List.filter_eq_nil_iff]
    intro m hm
    rw [RecoverySource.sortedSlots, List.mem_mergeSort] at hm
    have hzero : m = ⟨0, 0, FIRST_DATA_PAGE⟩ := by
      rcases List.mem_append.1 hm with hm | hm <;> simpa [NewFile.create] using hm
    rw [hzero]
    decide
  rw [RecoverySource.recover, hslots, RecoverySource.firstHead, ok_bind, Option.getD_none]
  change RecoverySource.forwardScan _ (pager.nPages - FIRST_DATA_PAGE) _ _ = _
  rw [hpages, Nat.sub_self]
  rfl

/-- A sound file is opened at its head, and passes the audit. -/
lemma NewFile.Sound.opens (hf : f.Sound sha) (hpos : 0 < f.store.head.version) :
    (f.source sha).recover = .ok f.store.head ∧
      ∃ fuel rep, verify sha fuel f.store.pager.reader f.store.head = .ok rep := by
  obtain ⟨ws, hbuilt, hmain⟩ := hf.built
  have hnul : ∀ w ∈ ws, 0 ∉ utf8 w.header.branch := fun w hw => by
    rw [hmain w hw]
    decide
  refine ⟨?_, hbuilt.verify_ok hnul⟩
  rcases hbuilt.endsWith hnul with ⟨-, hhead⟩ | hend
  · rw [hhead] at hpos
    exact absurd hpos (lt_irrefl _)
  · exact hend.recover_eq hf

end Open

/-! ### Compacting -/

section Vacuum
variable {k n first : ℕ} {s : Store} {g : Versions} {roots : ℕ → ℕ} {mkvs : Entries}
  {sha : Sha256} {p : Retention} {fileId : { b : Bytes // b.length = 16 }}

/-- What there is to say of a compacted store: it has the versions that the policy asks for, of
those that were there, in a file that is opened at the same head and passes the audit. -/
structure Compacted (sha : Sha256) (g : Versions) (first : ℕ) (p : Retention)
    (r : VacuumReport × NewFile) : Prop where
  frontier : ∀ v, first ≤ v → v ≤ g.head → (r.1.kept_from ≤ v ↔ p.Asks g v)
  first_le : first ≤ r.1.kept_from ∨ g.head = 0
  le_head : r.1.kept_from ≤ g.head
  report : r.1.head = g.head ∧ r.1.reclaimed_versions = r.1.kept_from - 1
  held : r.2.store.held = false
  represents : ∃ roots mkvs, Represents ((k + 1) * (k + 34)) r.2.store
    (g.compactTo r.1.kept_from g.head) roots mkvs
  recovers : (r.2.source sha).recover = .ok r.2.store.head
  audited : ∃ fuel rep, verify sha fuel r.2.store.pager.reader r.2.store.head = .ok rep

section Result
variable (h : Represents k s g roots mkvs) (hgap : g.Gapless first)
include h hgap

/-- The checkpoint of the frontier, and the versions behind it one after the other. -/
lemma Represents.buildCompacted_outcome (hpos : 1 ≤ g.head) (hreads : first ≤ p.reads g)
    {pager : PageLog} {nonce : ℕ} (hempty : pager.pages = [])
    (hn : 2 * ((k + 1) * (k + 34)) + 2 ≤ n) :
    Outcome (Refused TxStore) (Store.buildCompacted sha n s (.create sha pager nonce) p) fun r =>
      first ≤ r.2 ∧ r.2 ≤ g.head ∧ (∀ v, first ≤ v → v ≤ g.head → (r.2 ≤ v ↔ p.Asks g v)) ∧
        r.1.Holds sha ((k + 1) * (k + 34)) (g.compactTo r.2 g.head) := by
  have hle := h.head_le
  have hfirst := hgap.pos
  have hk : k + 34 ≤ (k + 1) * (k + 34) := Nat.le_mul_of_pos_left _ (Nat.succ_pos k)
  obtain ⟨fr, hfr, hge, hhead, hasks⟩ := h.vacuumFrontier_eq (n := n) (by omega) hgap hpos p hreads
  obtain ⟨r, hr⟩ := hgap.known hge hhead
  have hbound : k + 34 + (g.head - fr) * (k + 34) ≤ (k + 1) * (k + 34) := by
    have hm : g.head - fr ≤ k := by omega
    calc k + 34 + (g.head - fr) * (k + 34) ≤ k + 34 + k * (k + 34) :=
          Nat.add_le_add_left (Nat.mul_le_mul_right _ hm) _
      _ = (k + 1) * (k + 34) := by ring
  rw [Store.buildCompacted, h.version, if_neg (by omega), hfr, ok_bind]
  refine (h.checkpoint_outcome hr (by omega) hempty (by omega)).bind ?_
  rintro f - hf
  refine (h.replay_outcome hf le_rfl (fun u hu hle => (hgap.rev u).2 ⟨by omega, by omega⟩)
    (m := g.head - fr) (by omega)).bind ?_
  rintro f' - hf'
  rw [Nat.add_sub_of_le hhead] at hf'
  obtain ⟨hsound, hheld, roots', mkvs', hrep⟩ := hf'
  exact ⟨hge, hhead, hasks, hsound, hheld, roots', mkvs', hrep.mono hbound⟩

lemma Represents.vacuum_outcome (hheld : s.held = false) (hmain : g.OnlyMain)
    (hreads : g.head = 0 ∨ first ≤ p.reads g) (hn : 2 * ((k + 1) * (k + 34)) + 2 ≤ n) :
    Outcome (Refused TxStore) (Store.vacuum sha n s p fileId)
      (Compacted (k := k) sha g first p) := by
  have hk : k + 34 ≤ (k + 1) * (k + 34) := Nat.le_mul_of_pos_left _ (Nat.succ_pos k)
  have hfirst := hgap.pos
  obtain ⟨only, honly, hiff⟩ := h.hasOnlyMainBranch_eq (n := n) (by omega)
  rw [Store.vacuum, require_pos hheld, ok_bind, h.version]
  by_cases hzero : g.head = 0
  · have hrev : g.rev 0 = none := h.ok.rev_zero
    have hempty : (PageLog.new fileId).pages = [] := rfl
    rw [if_neg (not_not.2 hzero), ok_bind]
    dsimp only
    rw [require_pos rfl, ok_bind, Store.buildCompacted, h.version, if_pos hzero, ok_bind]
    have hnew := (Represents.create sha hempty).mono (Nat.zero_le ((k + 1) * (k + 34)))
    refine ⟨fun v hv hle => by omega, Or.inr hzero, Nat.zero_le _, ⟨rfl, rfl⟩, rfl, ⟨fun _ => NO_ROOT, [], ?_⟩,
      NewFile.create_recover hempty, Built.verify_ok (Built.genesis hempty) (by simp)⟩
    rw [hzero, Versions.compactTo_zero hrev]
    exact { hnew with }
  · rw [if_pos hzero, honly, ok_bind]
    dsimp only
    rw [require_pos (hiff.2 hmain), ok_bind]
    refine (h.buildCompacted_outcome hgap (Nat.pos_of_ne_zero hzero)
      (hreads.resolve_left hzero) rfl hn).bind ?_
    rintro ⟨f, fr⟩ - ⟨hge, hhead, hasks, hsound, hheld', roots', mkvs', hrep⟩
    have hversion : f.store.head.version = g.head := hrep.version
    obtain ⟨hrec, haudit⟩ := hsound.opens (hversion ▸ Nat.pos_of_ne_zero hzero)
    exact ⟨hasks, Or.inl hge, hhead, ⟨rfl, rfl⟩, hheld', ⟨roots', mkvs', hrep⟩, hrec, haudit⟩

/-- Where a policy looks at a version that is gone, nothing is compacted. -/
lemma Represents.vacuum_gone (hheld : s.held = false) (hmain : g.OnlyMain) (hpos : 1 ≤ g.head)
    (hreads : ¬ first ≤ p.reads g) (hn : k + 2 ≤ n) :
    Store.vacuum sha n s p fileId = .error (.versionNotFound (.version (p.reads g))) := by
  obtain ⟨only, honly, hiff⟩ := h.hasOnlyMainBranch_eq (n := n) hn
  have hne : g.head ≠ 0 := by omega
  have hrev : g.rev (p.reads g) = none := by
    rw [← Option.not_isSome_iff_eq_none, hgap.rev]
    exact fun hle => hreads hle.1
  have hreads_pos : 1 ≤ p.reads g := by
    cases p with
    | keepAll => exact le_rfl
    | keepLast count => exact le_max_right ..
    | keepSince ms => exact le_rfl
  have hgone : ¬ g.Known (p.reads g) := by
    rintro (hzero | hsome)
    · omega
    · rw [hrev] at hsome
      cases hsome
  have hlt : p.reads g < 2 ^ 64 := by
    have := h.head_lt
    cases p with
    | keepAll => exact (by decide : 1 < 2 ^ 64)
    | keepLast count =>
      rw [Retention.reads]
      omega
    | keepSince ms => exact (by decide : 1 < 2 ^ 64)
  -- the frontier is the version that is gone, or it is looked for from there on
  have hfail : (∀ f, Store.vacuumFrontier n s p = .ok f → f = p.reads g) ∧
      ∀ e, Store.vacuumFrontier n s p = .error e → e = .versionNotFound (.version (p.reads g)) := by
    cases p with
    | keepAll => exact ⟨fun f hf => by cases hf; rfl, fun e he => by cases he⟩
    | keepLast count =>
      rw [Store.vacuumFrontier, h.version]
      exact ⟨fun f hf => by cases hf; rfl, fun e he => by cases he⟩
    | keepSince ms =>
      have hone : 1 < 2 ^ 64 := by decide
      obtain ⟨m, hm⟩ : ∃ m, g.head = m + 1 := ⟨g.head - 1, by omega⟩
      rw [Store.vacuumFrontier, h.version, hm, Store.sinceLoop, h.readHist_none (by omega) hone hrev]
      exact ⟨fun f hf => (by cases hf), fun e he => by cases he; rfl⟩
  have hbuild (f : NewFile) : Store.buildCompacted sha n s f p
      = .error (.versionNotFound (.version (p.reads g))) := by
    rw [Store.buildCompacted, h.version, if_neg hne]
    cases hfr : Store.vacuumFrontier n s p with
    | error e =>
      rw [hfail.2 e hfr]
      rfl
    | ok fr =>
      rw [hfail.1 fr hfr, ok_bind, Store.checkpoint, h.snapshotAtVersion_none (by omega) hgone]
      rfl
  rw [Store.vacuum, require_pos hheld, ok_bind, h.version, if_pos hne, honly, ok_bind]
  dsimp only
  rw [require_pos (hiff.2 hmain), ok_bind, hbuild]
  rfl

omit hgap in
/-- With other branches nothing is compacted. -/
lemma Represents.vacuum_branches (hheld : s.held = false) (hmain : ¬ g.OnlyMain) (hn : k + 2 ≤ n) :
    Store.vacuum sha n s p fileId = .error (.invalidInput
      "vacuum requiere una sola rama: fusiona o borra las demás antes de compactar") := by
  obtain ⟨only, honly, hiff⟩ := h.hasOnlyMainBranch_eq hn
  have hne : g.head ≠ 0 := by
    rintro hzero
    refine hmain fun b hb => ?_
    rw [h.ok.eq_genesis hzero]
    rfl
  rw [Store.vacuum, require_pos hheld, ok_bind, h.version, if_pos hne, honly, ok_bind]
  dsimp only
  rw [require, if_neg (mt hiff.1 hmain)]
  rfl

end Result

end Vacuum

end Arkeion
