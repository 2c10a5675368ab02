import Arkeion.Database

/-!
Loading many rows at once leaves what inserting them one after the other leaves, and is refused
where that is.

The entries of the indexes are put off: what the rows leave without them is followed on its own, and
the map of the rows one by one is this map with the entries put in.
-/

namespace Arkeion

open Arkeion.Lib Btree MapProgram

namespace Catalog

/-! ### Neighbours in an order -/

/-- Two entries have the same values, none of them `NULL`. -/
def Clash (a b : Bytes × Bool) : Prop := a.2 = false ∧ b.2 = false ∧ valuePart a.1 = valuePart b.1

lemma Clash.symm {a b : Bytes × Bool} (h : Clash a b) : Clash b a := ⟨h.2.1, h.1, h.2.2.symm⟩

/-- Where what lies between two entries that clash clashes with them, neighbours are all there is to
look at. -/
lemma checkAdjacent_iff {entries : List (Bytes × Bool)} (hsorted : entries.Pairwise fun a b => a.1 ≤ b.1)
    (hbetween : ∀ a ∈ entries, ∀ b ∈ entries, ∀ c ∈ entries, a.1 ≤ b.1 → b.1 ≤ c.1 → Clash a c → Clash a b) :
    checkAdjacent entries = .ok () ↔ entries.Pairwise fun a b => ¬ Clash a b := by
  induction entries with
  | nil => simp [checkAdjacent]
  | cons a entries ih =>
    cases entries with
    | nil => simp [checkAdjacent]
    | cons b entries =>
      obtain ⟨ha, hrest⟩ := List.pairwise_cons.1 hsorted
      have ih := ih hrest fun x hx y hy z hz => hbetween x (List.mem_cons_of_mem _ hx) y
        (List.mem_cons_of_mem _ hy) z (List.mem_cons_of_mem _ hz)
      rw [checkAdjacent, bind_eq_ok, List.pairwise_cons, ← ih]
      constructor
      · rintro ⟨u, hreq, hcheck⟩
        refine ⟨fun c hc hclash => require_eq_ok.1 hreq ?_, hcheck⟩
        rcases List.mem_cons.1 hc with rfl | hc
        · exact hclash
        · exact hbetween a List.mem_cons_self b (by simp) c (by simp [hc]) (ha b List.mem_cons_self)
            ((List.pairwise_cons.1 hrest).1 c hc) hclash
      · rintro ⟨hnone, hcheck⟩
        exact ⟨(), require_eq_ok.2 (hnone b List.mem_cons_self), hcheck⟩

lemma sortEntries_perm (entries : List (Bytes × Bool)) : (sortEntries entries).Perm entries :=
  List.mergeSort_perm _ _

lemma sortEntries_sorted (entries : List (Bytes × Bool)) :
    (sortEntries entries).Pairwise fun a b => a.1 ≤ b.1 := by
  have hsorted := @List.pairwise_mergeSort _ (fun a b : Bytes × Bool =>
    decide (a.1 < b.1 ∨ a.1 = b.1 ∧ a.2 ≤ b.2)) (fun a b c hab hbc => ?_) (fun a b => ?_) entries
  · refine hsorted.imp fun {a b} hab => ?_
    rcases of_decide_eq_true hab with hlt | ⟨heq, -⟩
    · exact hlt.le
    · exact heq.le
  · refine decide_eq_true ?_
    rcases of_decide_eq_true hab with hab | ⟨hab, hab'⟩
    · rcases of_decide_eq_true hbc with hbc | ⟨hbc, -⟩
      · exact Or.inl (hab.trans hbc)
      · exact Or.inl (hbc ▸ hab)
    · rcases of_decide_eq_true hbc with hbc | ⟨hbc, hbc'⟩
      · exact Or.inl (hab ▸ hbc)
      · exact Or.inr ⟨hab.trans hbc, hab'.trans hbc'⟩
  · rw [Bool.or_eq_true, decide_eq_true_eq, decide_eq_true_eq]
    rcases lt_trichotomy a.1 b.1 with hlt | heq | hlt
    · exact Or.inl (Or.inl hlt)
    · rcases le_total a.2 b.2 with hle | hle
      · exact Or.inl (Or.inr ⟨heq, hle⟩)
      · exact Or.inr (Or.inr ⟨heq.symm, hle⟩)
    · exact Or.inr (Or.inl hlt)

/-! ### Entries that are put off -/

/-- The entry of a row in an index, and whether one of its values is `NULL`. -/
def pendingEntry (idx : IndexDef) (p : Int64 × Row) : Bytes × Bool :=
  (entryOf idx p.2 p.1, (indexed idx p.2).any fun v => v = .null)

/-- The entries of some rows, index by index. -/
def pending (batch : List (Int64 × Row)) (indexes : List IndexDef) : List (List (Bytes × Bool)) :=
  indexes.map fun idx => batch.map (pendingEntry idx)

/-- The rows may stand in the index beside those of the map. -/
structure Admits (d : TableDef) (kvs : Entries) (batch : List (Int64 × Row)) (idx : IndexDef) : Prop where
  fit : ∀ p ∈ batch, EntryFits p.2 idx
  free : idx.unique = true → ∀ p ∈ batch, .null ∉ indexed idx p.2 →
    ¬ ∃ rid, HeldBy d kvs idx (indexed idx p.2) rid
  distinct : idx.unique = true → batch.Pairwise fun p q =>
    .null ∉ indexed idx p.2 → indexed idx p.2 ≠ indexed idx q.2

section Flush
variable {d : TableDef} {kvs m m' : Entries} {idx : IndexDef} {batch : List (Int64 × Row)}

lemma valuePart_entryOf (w : Row) (r : Int64) :
    valuePart (entryOf idx w r) = indexValuePrefix idx (indexed idx w) := by
  rw [valuePart, entryOf, entryCode, indexValuePrefix_eq, ← List.append_assoc, List.length_append,
    length_rowidBe, Nat.add_sub_cancel, List.take_left]

lemma RowFits.keyOf {w : Row} (h : RowFits d w) (hd : IndexesFit d) (hidx : idx ∈ d.indexes) :
    KeyOf d idx (indexed idx w) :=
  h.rowOf.indexed fun c hc => by
    rw [List.length_map]
    exact (hd.columns idx hidx c hc).1

lemma pendingEntry_null {p : Int64 × Row} : (pendingEntry idx p).2 = false ↔ .null ∉ indexed idx p.2 := by
  rw [pendingEntry, ← Bool.not_eq_true, any_null]

lemma clash_iff (hd : IndexesFit d) (hidx : idx ∈ d.indexes) {p q : Int64 × Row} (hp : RowFits d p.2)
    (hq : RowFits d q.2) : Clash (pendingEntry idx p) (pendingEntry idx q) ↔
      .null ∉ indexed idx p.2 ∧ indexed idx p.2 = indexed idx q.2 := by
  rw [Clash, pendingEntry_null, pendingEntry_null, pendingEntry, pendingEntry, valuePart_entryOf,
    valuePart_entryOf]
  constructor
  · rintro ⟨hnull, -, heq⟩
    refine ⟨hnull, ((prefix_entry_iff hd hidx hq (hp.keyOf hd hidx) q.1).1 ?_).symm⟩
    rw [heq]
    exact (prefix_entry_iff hd hidx hq (hq.keyOf hd hidx) q.1).2 rfl
  · rintro ⟨hnull, heq⟩
    rw [← heq]
    exact ⟨hnull, hnull, rfl⟩

lemma checkAdjacent_pending (hd : IndexesFit d) (hidx : idx ∈ d.indexes)
    (htyped : ∀ p ∈ batch, RowFits d p.2) :
    checkAdjacent (sortEntries (batch.map (pendingEntry idx))) = .ok () ↔
      (sortEntries (batch.map (pendingEntry idx))).Pairwise fun a b => ¬ Clash a b := by
  refine checkAdjacent_iff (sortEntries_sorted _) fun a ha b hb c hc hab hbc hclash => ?_
  rw [(sortEntries_perm _).mem_iff, List.mem_map] at ha hb hc
  obtain ⟨p, hp, rfl⟩ := ha
  obtain ⟨q, hq, rfl⟩ := hb
  obtain ⟨r, hr, rfl⟩ := hc
  obtain ⟨hnull, heq⟩ := (clash_iff hd hidx (htyped p hp) (htyped r hr)).1 hclash
  have hkey := (htyped p hp).keyOf hd hidx
  have hbegins := prefix_of_le_of_le ((prefix_entry_iff hd hidx (htyped p hp) hkey p.1).2 rfl)
    ((prefix_entry_iff hd hidx (htyped r hr) hkey r.1).2 heq.symm) hab hbc
  exact (clash_iff hd hidx (htyped p hp) (htyped q hq)).2 ⟨hnull,
    ((prefix_entry_iff hd hidx (htyped q hq) hkey q.1).1 hbegins).symm⟩

/-- Values that are all different are each looked for. -/
lemma probeEntries_iff (h : InOrder d kvs) (hidx : idx ∈ d.indexes) (hm : SortedMap m)
    (hagree : ∀ key, indexIdPrefix idx.index_id <+: key → valueOf key m = valueOf key kvs)
    {entries : List (Bytes × Bool)} (hdistinct : entries.Pairwise fun a b => ¬ Clash a b)
    (hof : ∀ e ∈ entries, ∃ p : Int64 × Row, pendingEntry idx p = e ∧ ∀ w, ¬ HasRow d kvs p.1 w)
    {prev : Option Bytes} (hprev : ∀ e ∈ entries, e.2 = false → prev ≠ some (valuePart e.1)) :
    (probeEntries entries prev).onMap m = .ok ((), m') ↔ m' = m ∧ ∀ p : Int64 × Row,
      pendingEntry idx p ∈ entries → .null ∉ indexed idx p.2 → ¬ ∃ rid, HeldBy d kvs idx (indexed idx p.2) rid := by
  induction entries generalizing prev with
  | nil =>
    refine ⟨fun hr => ⟨?_, by simp⟩, fun hr => by rw [hr.1]; rfl⟩
    cases hr
    rfl
  | cons e entries ih =>
    obtain ⟨hhere, hlater⟩ := List.forall_mem_cons.1 hof
    obtain ⟨hne, hrest⟩ := List.pairwise_cons.1 hdistinct
    obtain ⟨hhead, hprevs⟩ := List.forall_mem_cons.1 hprev
    obtain ⟨p, rfl, hnew⟩ := hhere
    rw [probeEntries]
    by_cases hnull : (pendingEntry idx p).2 = true
    · rw [if_pos (Or.inl hnull), ih hrest hlater hprevs]
      refine and_congr_right fun _ => forall_congr' fun q => ⟨fun hq hmem hnot => ?_, fun hq hmem => ?_⟩
      · rcases List.mem_cons.1 hmem with heq | hmem
        · rw [← pendingEntry_null, heq, hnull] at hnot
          cases hnot
        · exact hq hmem hnot
      · exact hq (List.mem_cons_of_mem _ hmem)
    · have hfalse := Bool.eq_false_iff.2 hnull
      rw [if_neg (not_or.2 ⟨hnull, hhead hfalse⟩)]
      have hrid : rowidFromIndexKey (pendingEntry idx p).1 = .ok p.1 := rowidFromIndexKey_entryOf
      have hpart : valuePart (pendingEntry idx p).1 = indexValuePrefix idx (indexed idx p.2) :=
        valuePart_entryOf p.2 p.1
      obtain ⟨held, hlook, hheld⟩ := valueHeldByOther_onMap h hidx (indexed idx p.2) hnew hm hagree
      rw [TreeM.onMap_bind, TreeM.onMap_lift, hrid, ok_bind, ok_bind]
      dsimp only
      rw [hpart, TreeM.onMap_bind, hlook, ok_bind]
      dsimp only
      rw [TreeM.onMap_bind, TreeM.onMap_lift, ← hpart]
      have hnot := pendingEntry_null.1 hfalse
      by_cases hin : ∃ rid, HeldBy d kvs idx (indexed idx p.2) rid
      · rw [hheld.2 hin]
        exact iff_of_false (fun hr => by cases hr) fun hr => hr.2 p List.mem_cons_self hnot hin
      · rw [Bool.eq_false_iff.2 fun ht => hin (hheld.1 ht), require_pos rfl, ok_bind, ok_bind]
        dsimp only
        rw [ih hrest hlater fun e he hfree heq => hne e he ⟨hfalse, hfree, Option.some.inj heq⟩]
        refine and_congr_right fun _ => forall_congr' fun q => ⟨fun hq hmem hnot' => ?_, fun hq hmem => ?_⟩
        · rcases List.mem_cons.1 hmem with heq | hmem
          · rintro ⟨rid, hrid'⟩
            have hsame := congrArg (fun e : Bytes × Bool => valuePart e.1) heq
            simp only [pendingEntry, valuePart_entryOf] at hsame
            obtain ⟨w, hw, hp⟩ := hrid'
            exact hin ⟨rid, w, hw, hsame ▸ hp⟩
          · exact hq hmem hnot'
        · exact hq (List.mem_cons_of_mem _ hmem)

/-- One value under many keys. -/
def insertKeys (keys : List Bytes) (l : Entries) : Entries := keys.foldl (fun l key => insertKey key [] l) l

lemma insertKeys_append (keys keys' : List Bytes) (l : Entries) :
    insertKeys (keys ++ keys') l = insertKeys keys' (insertKeys keys l) := List.foldl_append

lemma sorted_insertKeys (keys : List Bytes) {l : Entries} (h : SortedMap l) : SortedMap (insertKeys keys l) := by
  induction keys generalizing l with
  | nil => exact h
  | cons key keys ih => exact ih h.insertKey

lemma valueOf_insertKeys {keys : List Bytes} {l : Entries} (h : SortedMap l) (key : Bytes) :
    valueOf key (insertKeys keys l) = if key ∈ keys then some [] else valueOf key l := by
  induction keys generalizing l with
  | nil => rfl
  | cons k keys ih =>
    rw [insertKeys, List.foldl_cons, ← insertKeys, ih h.insertKey]
    by_cases hmem : key ∈ keys
    · rw [if_pos hmem, if_pos (List.mem_cons_of_mem _ hmem)]
    · rw [if_neg hmem]
      by_cases heq : key = k
      · rw [heq, valueOf_insertKey_self h, if_pos List.mem_cons_self]
      · rw [valueOf_insertKey_of_ne h heq, if_neg (by simp [heq, hmem])]

lemma insertKeys_congr {keys : List Bytes} (keys' : List Bytes) {l : Entries} (h : SortedMap l)
    (hmem : ∀ key, key ∈ keys ↔ key ∈ keys') : insertKeys keys l = insertKeys keys' l :=
  SortedMap.ext (sorted_insertKeys keys h) (sorted_insertKeys keys' h) fun key => by
    rw [valueOf_insertKeys h, valueOf_insertKeys h]
    simp only [hmem]

lemma writeKeys_iff {entries : List (Bytes × Bool)} : (writeKeys entries).onMap m = .ok ((), m') ↔
    (∀ e ∈ entries, TreeM.keyCheck e.1 = .ok ()) ∧ m' = insertKeys (entries.map Prod.fst) m := by
  induction entries generalizing m with
  | nil =>
    refine ⟨fun hr => ⟨by simp, ?_⟩, fun hr => by rw [hr.2]; rfl⟩
    cases hr
    rfl
  | cons e entries ih =>
    rw [writeKeys, TreeM.onMap_bind, TreeM.onMap_write, List.forall_mem_cons]
    cases hcheck : TreeM.keyCheck e.1 with
    | error err => exact iff_of_false (fun hr => by cases hr) fun hr => by cases hr.1.1
    | ok u =>
      rw [ok_bind, ok_bind]
      exact ih.trans (by rw [and_assoc, and_iff_right rfl]; rfl)

/-- The entries of one index go in where the index admits the rows. -/
lemma flushIndexEntries_iff (h : InOrder d kvs) (hd : IndexesFit d) (hidx : idx ∈ d.indexes)
    (htyped : ∀ p ∈ batch, RowFits d p.2) (hfresh : ∀ p ∈ batch, ∀ w, ¬ HasRow d kvs p.1 w)
    (hm : SortedMap m)
    (hagree : ∀ key, indexIdPrefix idx.index_id <+: key → valueOf key m = valueOf key kvs) :
    (flushIndexEntries idx (batch.map (pendingEntry idx))).onMap m = .ok ((), m') ↔
      Admits d kvs batch idx ∧ m' = insertKeys (batch.map fun p => entryOf idx p.2 p.1) m := by
  have hperm := sortEntries_perm (batch.map (pendingEntry idx))
  have hmem (e : Bytes × Bool) : e ∈ sortEntries (batch.map (pendingEntry idx)) ↔
      ∃ p ∈ batch, pendingEntry idx p = e := by rw [hperm.mem_iff, List.mem_map]
  have hwrite : (writeKeys (sortEntries (batch.map (pendingEntry idx)))).onMap m = .ok ((), m') ↔
      (∀ p ∈ batch, EntryFits p.2 idx) ∧ m' = insertKeys (batch.map fun p => entryOf idx p.2 p.1) m := by
    rw [writeKeys_iff, insertKeys_congr (batch.map fun p => entryOf idx p.2 p.1) hm fun key => by
      rw [(hperm.map Prod.fst).mem_iff, List.map_map]; rfl]
    refine and_congr_left fun _ => ⟨fun hall p hp => ?_, fun hall e he => ?_⟩
    · exact keyCheck_entryOf.1 (hall _ ((hmem _).2 ⟨p, hp, rfl⟩))
    · obtain ⟨p, hp, rfl⟩ := (hmem e).1 he
      exact keyCheck_entryOf.2 (hall p hp)
  have hpairs : (sortEntries (batch.map (pendingEntry idx))).Pairwise (fun a b => ¬ Clash a b) ↔
      batch.Pairwise fun p q => .null ∉ indexed idx p.2 → indexed idx p.2 ≠ indexed idx q.2 := by
    rw [hperm.pairwise_iff fun hab hba => hab hba.symm, List.pairwise_map]
    refine List.Pairwise.iff_of_mem fun {p q} hp hq => ?_
    rw [clash_iff hd hidx (htyped p hp) (htyped q hq), not_and]
  unfold flushIndexEntries
  by_cases hunique : idx.unique = true
  · dsimp only
    rw [if_pos hunique, TreeM.onMap_bind, TreeM.onMap_lift, bind_eq_ok]
    constructor
    · rintro ⟨r, hcheck, hr⟩
      obtain ⟨u, hadj, heq⟩ := bind_eq_ok.1 hcheck
      cases heq
      have hdistinct := (checkAdjacent_pending hd hidx htyped).1 hadj
      rw [TreeM.onMap_bind] at hr
      obtain ⟨⟨u', m₁⟩, hprobe, hr⟩ := bind_eq_ok.1 hr
      obtain ⟨hsame, hfree⟩ := (probeEntries_iff h hidx hm hagree hdistinct (fun e he => by
        obtain ⟨p, hp, rfl⟩ := (hmem e).1 he
        exact ⟨p, rfl, hfresh p hp⟩) fun _ _ _ => Option.some_ne_none _ |>.symm).1 hprobe
      rw [hsame] at hr
      obtain ⟨hfit, heq⟩ := hwrite.1 hr
      exact ⟨⟨hfit, fun _ p hp => hfree p ((hmem _).2 ⟨p, hp, rfl⟩), fun _ => hpairs.1 hdistinct⟩, heq⟩
    · rintro ⟨hadmits, heq⟩
      have hdistinct := hpairs.2 (hadmits.distinct hunique)
      refine ⟨((), m), by rw [(checkAdjacent_pending hd hidx htyped).2 hdistinct]; rfl, ?_⟩
      rw [TreeM.onMap_bind, (probeEntries_iff h hidx hm hagree hdistinct (fun e he => by
        obtain ⟨p, hp, rfl⟩ := (hmem e).1 he
        exact ⟨p, rfl, hfresh p hp⟩) fun _ _ _ => Option.some_ne_none _ |>.symm).2 ⟨rfl, fun p hp => ?_⟩, ok_bind]
      · exact hwrite.2 ⟨hadmits.fit, heq⟩
      · obtain ⟨q, hq, hsame⟩ := (hmem _).1 hp
        have hprefix := congrArg (fun e : Bytes × Bool => valuePart e.1) hsame
        simp only [pendingEntry, valuePart_entryOf] at hprefix
        intro hnull hin
        refine hadmits.free hunique q hq ?_ ?_
        · rwa [← pendingEntry_null, hsame, pendingEntry_null]
        · obtain ⟨rid, w, hw, hpre⟩ := hin
          exact ⟨rid, w, hw, hprefix ▸ hpre⟩
  · dsimp only
    rw [if_neg hunique]
    refine hwrite.trans (and_congr_left fun _ => ⟨fun hfit => ⟨hfit, fun hu => absurd hu hunique,
      fun hu => absurd hu hunique⟩, fun hadmits => hadmits.fit⟩)

/-- A program that does not go by the keys does the same beside them. -/
lemma run_insertKeys {α : Type} {P : Bytes → Prop} {p : TreeM α} (hp : LocalTo TreeM.keyCheck P p)
    (keys : List Bytes) (hkeys : ∀ key ∈ keys, ¬ P key) (hm : SortedMap m) :
    p.onMap (insertKeys keys m) = p.onMap m >>= fun r => .ok (r.1, insertKeys keys r.2) := by
  have hs := sorted_insertKeys keys hm
  obtain ⟨e, he, he'⟩ | ⟨a, m₁, m₂, hr, hr', hin, hout⟩ := hp m (insertKeys keys m) hm hs fun key hkey => by
    rw [valueOf_insertKeys hm, if_neg fun hmem => hkeys key hmem hkey]
  · rw [TreeM.onMap, TreeM.onMap, he, he']
    rfl
  · rw [TreeM.onMap, TreeM.onMap, hr, hr', ok_bind]
    have hm₁ := run_sorted hr hm
    have hsame : m₂ = insertKeys keys m₁ := by
      refine SortedMap.ext (run_sorted hr' hs) (sorted_insertKeys keys hm₁) fun key => ?_
      rw [valueOf_insertKeys hm₁]
      by_cases hkey : P key
      · rw [← hin key hkey, if_neg fun hmem => hkeys key hmem hkey]
      · rw [hp.keeps hs hr' hkey, valueOf_insertKeys hm, hout key hkey]
    rw [hsame]

/-- The put off entries of all indexes. -/
lemma flushAll_iff (h : InOrder d kvs) (hd : IndexesFit d) (htyped : ∀ p ∈ batch, RowFits d p.2)
    (hfresh : ∀ p ∈ batch, ∀ w, ¬ HasRow d kvs p.1 w) (indexes : List IndexDef)
    (hsub : ∀ idx ∈ indexes, idx ∈ d.indexes)
    (hids : indexes.Pairwise fun idx idx' => idx.index_id ≠ idx'.index_id) (hm : SortedMap m)
    (hagree : ∀ idx ∈ indexes, ∀ key, indexIdPrefix idx.index_id <+: key → valueOf key m = valueOf key kvs) :
    (flushAll indexes (pending batch indexes)).onMap m = .ok ((), m') ↔
      (∀ idx ∈ indexes, Admits d kvs batch idx) ∧
        m' = insertKeys (indexes.flatMap fun idx => batch.map fun p => entryOf idx p.2 p.1) m := by
  induction indexes generalizing m with
  | nil =>
    refine ⟨fun hr => ⟨by simp, ?_⟩, fun hr => by rw [hr.2]; rfl⟩
    cases hr
    rfl
  | cons idx indexes ih =>
    obtain ⟨hidx, hsub⟩ := List.forall_mem_cons.1 hsub
    obtain ⟨hne, hids⟩ := List.pairwise_cons.1 hids
    obtain ⟨hhere, hagree⟩ := List.forall_mem_cons.1 hagree
    have hrest := ih hsub hids (sorted_insertKeys (batch.map fun p => entryOf idx p.2 p.1) hm)
      fun idx' hidx' key hkey => by
        rw [valueOf_insertKeys hm, if_neg, hagree idx' hidx' key hkey]
        intro hmem
        obtain ⟨p, -, rfl⟩ := List.mem_map.1 hmem
        exact hne idx' hidx' ( index_of_prefix prefix_entryOf hkey)
    rw [pending, List.map_cons, ← pending, flushAll, TreeM.onMap_bind, List.forall_mem_cons,
      List.flatMap_cons, insertKeys_append, and_assoc, ← hrest, bind_eq_ok]
    have hfirst {m₁ : Entries} : (flushIndexEntries idx (batch.map (pendingEntry idx))).onMap m = .ok ((), m₁) ↔ _ :=
      flushIndexEntries_iff h hd hidx htyped hfresh hm hhere
    constructor
    · rintro ⟨⟨u, m₁⟩, hflush, hr⟩
      obtain ⟨hadmits, rfl⟩ := hfirst.1 hflush
      exact ⟨hadmits, hr⟩
    · rintro ⟨hadmits, hr⟩
      exact ⟨((), _), hfirst.2 ⟨hadmits, rfl⟩, hr⟩

/-- The entries of one row go in where no index holds its values and none is too long. -/
lemma insertIndexEntries_iff {record : Row} {rowid : Int64} (h : InOrder d kvs) (hd : IndexesFit d)
    (hlen : record.length = d.columns.length) (hnew : ∀ row, ¬ HasRow d kvs rowid row)
    (indexes : List IndexDef) (hsub : ∀ idx ∈ indexes, idx ∈ d.indexes)
    (hids : indexes.Pairwise fun idx idx' => idx.index_id ≠ idx'.index_id) (hm : SortedMap m)
    (hagree : ∀ idx ∈ indexes, ∀ key, indexIdPrefix idx.index_id <+: key → valueOf key m = valueOf key kvs) :
    (insertIndexEntries rowid record indexes).onMap m = .ok ((), m') ↔
      (∀ idx ∈ indexes, ¬ HeldIn d kvs record idx ∧ EntryFits record idx) ∧
        m' = insertKeys (indexes.map fun idx => entryOf idx record rowid) m := by
  induction indexes generalizing m with
  | nil =>
    refine ⟨fun hr => ⟨by simp, ?_⟩, fun hr => by rw [hr.2]; rfl⟩
    cases hr
    rfl
  | cons idx indexes ih =>
    obtain ⟨hidx, hsub⟩ := List.forall_mem_cons.1 hsub
    obtain ⟨hne, hids⟩ := List.pairwise_cons.1 hids
    obtain ⟨hhere, hagree⟩ := List.forall_mem_cons.1 hagree
    obtain ⟨hbad, hgood⟩ := insertIndexEntry_onMap h hidx
      (fun c hc => hlen ▸ (hd.columns idx hidx c hc).1) hnew hm hhere
    rw [insertIndexEntries, TreeM.onMap_bind, List.forall_mem_cons]
    by_cases hin : HeldIn d kvs record idx
    · rw [hbad hin]
      exact iff_of_false (fun hr => by cases hr) fun hr => hr.1.1.1 hin
    · rw [hgood hin, and_iff_right hin]
      by_cases hfits : EntryFits record idx
      · rw [keyCheck_entryOf.2 hfits, ok_bind, ok_bind, and_iff_right hfits]
        refine ih hsub hids hm.insertKey fun idx' hidx' key hkey => ?_
        rw [valueOf_insertEntry (hne idx' hidx') hm hkey]
        exact hagree idx' hidx' key hkey
      · refine iff_of_false (fun hr => ?_) fun hr => hfits hr.1.1
        obtain ⟨r, hr, -⟩ := bind_eq_ok.1 hr
        obtain ⟨u, hcheck, -⟩ := bind_eq_ok.1 hr
        exact hfits (keyCheck_entryOf.1 hcheck)

end Flush

/-! ### Rows without their entries -/

/-- What both ways do with a row apart from its entries in indexes. -/
structure LoadsRow (tokenize : String → String → List Token) (d : TableDef) (values : Row) (next : Int64)
    (l : Entries) (rowid next' : Int64) (record : Row) (l' : Entries) : Prop where
  number : ∃ explicit, explicitRowid d values = .ok explicit ∧
    (resolveRowid d.table_id explicit next).onMap l = .ok ((rowid, next'), l)
  record_ : validatedRecord d values = .ok record
  texts : (applyFtsEntries tokenize rowid record true d.fts_indexes).onMap
    (insertKey (rowKey d.table_id rowid) (encodeValues record) l) = .ok ((), l')

/-- And with rows one after the other; the batch is made of those that have come. -/
inductive LoadsRows (tokenize : String → String → List Token) (d : TableDef) : List Row → Int64 →
    List (Int64 × Row) → Entries → Int64 → List (Int64 × Row) → Entries → Prop
  | nil {next : Int64} {batch : List (Int64 × Row)} {l : Entries} :
      LoadsRows tokenize d [] next batch l next batch l
  | cons {values record : Row} {rows : List Row} {rowid next next' next'' : Int64}
      {batch batch' : List (Int64 × Row)} {l l' l'' : Entries}
      (hrow : LoadsRow tokenize d values next l rowid next' record l')
      (hrest : LoadsRows tokenize d rows next' (batch ++ [(rowid, fullRow d rowid record)]) l' next'' batch' l'') :
      LoadsRows tokenize d (values :: rows) next batch l next'' batch' l''

/-- The rows are those that were there and the batch, and the indexes are as they were. -/
structure Loading (d : TableDef) (kvs : Entries) (batch : List (Int64 × Row)) (l : Entries) (next : Int64) :
    Prop where
  sorted : SortedMap l
  stored : ∀ r, (valueOf (rowKey d.table_id r) l).isSome → ∃ w, HasRow d l r w
  rows : ∀ r w, HasRow d l r w ↔ HasRow d kvs r w ∨ (r, w) ∈ batch
  fresh : ∀ p ∈ batch, ∀ w, ¬ HasRow d kvs p.1 w
  typed : ∀ p ∈ batch, RowFits d p.2
  entries : ∀ idx ∈ d.indexes, ∀ key, indexIdPrefix idx.index_id <+: key → valueOf key l = valueOf key kvs
  counted : Counted d l next

/-- The keys of the entries of some rows. -/
def batchKeys (d : TableDef) (batch : List (Int64 × Row)) : List Bytes :=
  batch.flatMap fun p => d.indexes.map fun idx => entryOf idx p.2 p.1

section Load
variable {M : VectorMath} {tokenize : String → String → List Token} {d : TableDef} {kvs l l' m : Entries}
  {batch batch' : List (Int64 × Row)} {values record : Row} {rows : List Row} {rowid next next' : Int64}

lemma batchKeys_head {key : Bytes} (h : key ∈ batchKeys d batch) : key.head? = some KS_INDEX := by
  obtain ⟨p, -, h⟩ := List.mem_flatMap.1 h
  obtain ⟨idx, -, rfl⟩ := List.mem_map.1 h
  exact head_entryOf

lemma localTo_resolveRowid (explicit : Option Int64) :
    LocalTo TreeM.keyCheck (rowPrefix d.table_id <+: ·) (resolveRowid d.table_id explicit next) := by
  cases explicit with
  | none => exact .bind (.lift _) fun _ => .pure _
  | some n =>
    rw [resolveRowid]
    by_cases hlook : n < next ∨ next = Int64.maxValue
    · rw [if_pos hlook]
      exact .bind (.read (rowPrefix_rowKey _ _)) fun _ => .bind (.lift _) fun _ => .pure _
    · rw [if_neg hlook]
      exact .pure _

lemma readOnly_resolveRowid (explicit : Option Int64) :
    ReadOnly TreeM.keyCheck (resolveRowid d.table_id explicit next) := by
  cases explicit with
  | none => exact .bind (.lift _) fun _ => .pure _
  | some n =>
    rw [resolveRowid]
    by_cases hlook : n < next ∨ next = Int64.maxValue
    · rw [if_pos hlook]
      exact .bind .read fun _ => .bind (.lift _) fun _ => .pure _
    · rw [if_neg hlook]
      exact .pure _

/-- The rows stay what they are beside entries of indexes. -/
lemma hasRow_insertKeys (hl : SortedMap l) {r : Int64} {w : Row} :
    HasRow d (insertKeys (batchKeys d batch) l) r w ↔ HasRow d l r w := by
  refine hasRow_congr ?_
  rw [valueOf_insertKeys hl, if_neg fun hmem => ?_]
  exact head_rowKey_ne (show KS_INDEX < 0x80 by decide) (batchKeys_head hmem)

/-- The rowid of one more row is new. -/
lemma Loading.free (h : Loading d kvs batch l next) {explicit : Option Int64}
    (hres : (resolveRowid d.table_id explicit next).onMap l = .ok ((rowid, next'), l)) (w : Row) :
    ¬ HasRow d l rowid w :=
  ((resolveRowid_onMap (d := { d with indexes := [] }) explicit
    ⟨h.sorted, h.stored, fun idx hidx => (by cases hidx)⟩ h.counted).2.2 _ _ hres).2.1 w

/-- One more row. -/
lemma Loading.row (h : Loading d kvs batch l next) (hd : TableFits tokenize d)
    (hrow : LoadsRow tokenize d values next l rowid next' record l')
    (henc : (encodeValues record).length < 2 ^ 64) :
    Loading d kvs (batch ++ [(rowid, fullRow d rowid record)]) l' next' := by
  obtain ⟨explicit, -, hres⟩ := hrow.number
  have hlen := length_validatedRecord hrow.record_
  have hnew := h.free hres
  have hl₁ : SortedMap (insertKey (rowKey d.table_id rowid) (encodeValues record) l) := h.sorted.insertKey
  have hkeep {key : Bytes} (hkey : key.head? ≠ some KS_FTS) : valueOf key l'
      = valueOf key (insertKey (rowKey d.table_id rowid) (encodeValues record) l) :=
    (keepsTo_applyFtsEntries tokenize record d.fts_indexes).local_.keeps hl₁ hrow.texts hkey
  have hrows (r : Int64) : valueOf (rowKey d.table_id r) l' = if r = rowid then some (encodeValues record)
      else valueOf (rowKey d.table_id r) l := by
    rw [hkeep (head_rowKey_ne (by decide))]
    split_ifs with heq
    · rw [heq, valueOf_insertKey_self h.sorted]
    · exact valueOf_insertKey_of_ne h.sorted fun hkey => heq (rowKey_inj.1 hkey)
  have hself : HasRow d l' rowid (fullRow d rowid record) :=
    ⟨record, ⟨hlen.le, henc⟩, by rw [hrows, if_pos rfl], rfl⟩
  have hiff (r : Int64) (w : Row) : HasRow d l' r w ↔
      HasRow d l r w ∨ r = rowid ∧ w = fullRow d rowid record := by
    by_cases heq : r = rowid
    · subst heq
      refine ⟨fun hw => Or.inr ⟨rfl, hw.unique hself⟩, ?_⟩
      rintro (hw | ⟨-, rfl⟩)
      · exact absurd hw (hnew w)
      · exact hself
    · simp only [heq, false_and, or_false]
      exact hasRow_congr (by rw [hrows, if_neg heq])
  obtain ⟨hlast, hbefore⟩ := resolveRowid_counts hres
  refine ⟨TreeM.onMap_sorted hrow.texts hl₁, fun r hsome => ?_, fun r w => ?_, ?_, ?_, ?_, fun r w hw => ?_⟩
  · rw [hrows] at hsome
    split_ifs at hsome with heq
    · exact ⟨_, heq ▸ hself⟩
    · obtain ⟨w, hw⟩ := h.stored r hsome
      exact ⟨w, (hiff r w).2 (Or.inl hw)⟩
  · rw [hiff, h.rows, List.mem_append, List.mem_singleton, Prod.mk.injEq, or_assoc]
  · refine List.forall_mem_append.2 ⟨h.fresh, List.forall_mem_singleton.2 fun w hw => ?_⟩
    exact hnew w ((h.rows rowid w).2 (Or.inl hw))
  · exact List.forall_mem_append.2 ⟨h.typed, List.forall_mem_singleton.2 (rowFits_full hd hrow.record_)⟩
  · intro idx hidx key hkey
    rw [hkeep (by rw [ head_of_prefix hkey]; decide), valueOf_insertKey_of_ne h.sorted ?_]
    · exact h.entries idx hidx key hkey
    · rintro rfl
      exact head_rowKey_ne (show KS_INDEX < 0x80 by decide) ( head_of_prefix hkey)
  · rcases (hiff r w).1 hw with hw | ⟨rfl, -⟩
    · exact hbefore r (h.counted r w hw)
    · exact hlast

/-- An index admits one more row where it does not hold its values. -/
lemma admits_append (hd : IndexesFit d) {idx : IndexDef} (hidx : idx ∈ d.indexes)
    (h : Loading d kvs batch l next) {w : Row} (hw : RowFits d w) :
    Admits d kvs (batch ++ [(rowid, w)]) idx ↔
      Admits d kvs batch idx ∧ ¬ HeldIn d (insertKeys (batchKeys d batch) l) w idx ∧ EntryFits w idx := by
  have hheld : (∃ rid, HeldBy d (insertKeys (batchKeys d batch) l) idx (indexed idx w) rid) ↔
      (∃ rid, HeldBy d kvs idx (indexed idx w) rid) ∨ ∃ p ∈ batch, indexed idx p.2 = indexed idx w := by
    simp only [HeldBy, hasRow_insertKeys h.sorted, h.rows]
    constructor
    · rintro ⟨rid, row, hrow | hmem, hpre⟩
      · exact Or.inl ⟨rid, row, hrow, hpre⟩
      · exact Or.inr ⟨_, hmem, (prefix_entry_iff hd hidx (h.typed _ hmem) (hw.keyOf hd hidx) rid).1 hpre⟩
    · rintro (⟨rid, row, hrow, hpre⟩ | ⟨p, hmem, heq⟩)
      · exact ⟨rid, row, Or.inl hrow, hpre⟩
      · exact ⟨p.1, p.2, Or.inr hmem, (prefix_entry_iff hd hidx (h.typed p hmem) (hw.keyOf hd hidx) p.1).2 heq⟩
  rw [HeldIn, hheld, Sought]
  constructor
  · rintro ⟨hfit, hfree, hdistinct⟩
    obtain ⟨hfit, hfitw⟩ := List.forall_mem_append.1 hfit
    refine ⟨⟨hfit, fun hu p hp => hfree hu p (List.mem_append_left _ hp),
      fun hu => (List.pairwise_append.1 (hdistinct hu)).1⟩, ?_, hfitw _ List.mem_cons_self⟩
    rintro ⟨⟨hu, hnull⟩, hin | ⟨p, hp, heq⟩⟩
    · exact hfree hu _ (List.mem_append_right _ List.mem_cons_self) hnull hin
    · exact (List.pairwise_append.1 (hdistinct hu)).2.2 p hp _ List.mem_cons_self (heq ▸ hnull) heq
  · rintro ⟨⟨hfit, hfree, hdistinct⟩, hnot, hfitw⟩
    refine ⟨List.forall_mem_append.2 ⟨hfit, List.forall_mem_singleton.2 hfitw⟩, fun hu =>
      List.forall_mem_append.2 ⟨hfree hu, List.forall_mem_singleton.2 fun hnull hin =>
        hnot ⟨⟨hu, hnull⟩, Or.inl hin⟩⟩, fun hu => List.pairwise_append.2 ⟨hdistinct hu,
          List.pairwise_singleton _ _, fun p hp q hq hnull heq => ?_⟩⟩
    rw [List.mem_singleton.1 hq] at heq
    exact hnot ⟨⟨hu, heq ▸ hnull⟩, Or.inr ⟨p, hp, heq⟩⟩

lemma Admits.of_prefix {idx : IndexDef} (h : Admits d kvs batch' idx) (hp : batch <+: batch') :
    Admits d kvs batch idx :=
  ⟨fun p hp' => h.fit p (hp.mem hp'), fun hu p hp' => h.free hu p (hp.mem hp'),
    fun hu => (h.distinct hu).sublist hp.sublist⟩

lemma LoadsRows.prefix_ (h : LoadsRows tokenize d rows next batch l next' batch' l') : batch <+: batch' := by
  induction h with
  | nil => exact List.prefix_refl _
  | cons _ _ ih => exact (List.prefix_append _ _).trans ih

lemma LoadsRows.loading (h : LoadsRows tokenize d rows next batch l next' batch' l') (hd : TableFits tokenize d)
    (hfits : ∀ values ∈ rows, ∀ record, validatedRecord d values = .ok record →
      (encodeValues record).length < 2 ^ 64) (hl : Loading d kvs batch l next) : Loading d kvs batch' l' next' := by
  induction h with
  | nil => exact hl
  | cons hrow _ ih =>
    obtain ⟨henc, hfits⟩ := List.forall_mem_cons.1 hfits
    exact ih hfits (hl.row hd hrow (henc _ hrow.record_))

/-! ### Many rows at once -/

lemma resolveCols_eq (hrec : validatedRecord d values = .ok record) {cols : List ℕ}
    (hcols : ∀ c ∈ cols, c < d.columns.length) :
    resolveCols d values cols = .ok (cols.map fun c => record.getD c .null) := by
  induction cols with
  | nil => rfl
  | cons c cols ih =>
    obtain ⟨hc, hcols⟩ := List.forall_mem_cons.1 hcols
    obtain ⟨v, hv, hresolve⟩ := validatedRecord_getElem? hrec hc
    rw [resolveCols, hresolve, ok_bind, ih hcols, ok_bind, List.map_cons, List.getD_eq_getElem?_getD, hv]
    rfl

lemma pushEntries_eq (hd : IndexesFit d) (hrec : validatedRecord d values = .ok record) (rowid : Int64)
    {indexes : List IndexDef} (hsub : ∀ idx ∈ indexes, idx ∈ d.indexes) :
    pushEntries d values rowid indexes (pending batch indexes)
      = .ok (pending (batch ++ [(rowid, fullRow d rowid record)]) indexes) := by
  induction indexes with
  | nil => rfl
  | cons idx indexes ih =>
    obtain ⟨hidx, hsub⟩ := List.forall_mem_cons.1 hsub
    have hentry : resolvedIndexEntry d values idx rowid
        = .ok (pendingEntry idx (rowid, fullRow d rowid record)) := by
      rw [resolvedIndexEntry, resolveCols_eq hrec fun c hc => (hd.columns idx hidx c hc).1, ok_bind, pendingEntry,
        entryOf, entryCode, indexValuePrefix_eq, indexed_fullRow hd hidx (length_validatedRecord hrec),
        List.append_assoc]
      rfl
    rw [pending, List.map_cons, ← pending, pushEntries, hentry, ok_bind, ih hsub, ok_bind, pending, pending,
      List.map_cons, List.map_append]
    rfl

lemma putRowData_iff : (putRowData d rowid values).onMap l = .ok ((), m) ↔ ∃ record,
    validatedRecord d values = .ok record ∧ m = insertKey (rowKey d.table_id rowid) (encodeValues record) l := by
  rw [putRowData]
  refine run_lift_bind_eq_ok.trans (exists_congr fun record => and_congr_right fun _ => ?_)
  change TreeM.onMap (MapProgram.write (rowKey d.table_id rowid) (encodeValues record)) l = _ ↔ _
  rw [TreeM.onMap_write, keyCheck_rowKey, ok_bind]
  simp [eq_comm]

lemma putRow_iff : (putRow M tokenize d rowid values).onMap l = .ok ((), m) ↔ ∃ record,
    validatedRecord d values = .ok record ∧ (indexRow M tokenize d rowid record).onMap
      (insertKey (rowKey d.table_id rowid) (encodeValues record) l) = .ok ((), m) := by
  have hput : putRow M tokenize d rowid values = liftM (validatedRecord d values) >>= fun record =>
      MapProgram.write (rowKey d.table_id rowid) (encodeValues record) >>= fun _ =>
        indexRow M tokenize d rowid record := rfl
  rw [hput]
  refine run_lift_bind_eq_ok.trans (exists_congr fun record => and_congr_right fun _ => ?_)
  change TreeM.onMap (MapProgram.write (rowKey d.table_id rowid) (encodeValues record) >>= fun _ =>
    indexRow M tokenize d rowid record) l = _ ↔ _
  rw [TreeM.onMap_bind, TreeM.onMap_write, keyCheck_rowKey, ok_bind, ok_bind]

lemma bulkRows_cons (hd : IndexesFit d) (hvec : d.vector_indexes = []) {r : Int64 × List (List (Bytes × Bool))} :
    (bulkRows M tokenize d (values :: rows) next (pending batch d.indexes)).onMap l = .ok (r, m) ↔
      ∃ rowid next' record l', LoadsRow tokenize d values next l rowid next' record l' ∧
        (bulkRows M tokenize d rows next' (pending (batch ++ [(rowid, fullRow d rowid record)]) d.indexes)).onMap l'
          = .ok (r, m) := by
  rw [bulkRows]
  constructor
  · intro hr
    obtain ⟨explicit, hexplicit, hr₁⟩ := run_lift_bind_eq_ok.1 hr
    obtain ⟨⟨rowid, next'⟩, l₂, hres, hr₂⟩ := run_bind_eq_ok.1 hr₁
    obtain rfl := readOnly_resolveRowid explicit _ _ _ hres
    dsimp only at hr₂
    obtain ⟨u, l₃, hput, hr₃⟩ := run_bind_eq_ok.1 hr₂
    obtain ⟨record, hrec, rfl⟩ := putRowData_iff.1 hput
    obtain ⟨pend, hpushed, hr₄⟩ := run_lift_bind_eq_ok.1 hr₃
    rw [pushEntries_eq hd hrec rowid fun _ => id] at hpushed
    cases hpushed
    by_cases hfts : d.fts_indexes = []
    · rw [if_neg (not_not.2 hfts), if_neg (not_not.2 hvec)] at hr₄
      exact ⟨rowid, next', record, _, ⟨⟨explicit, hexplicit, hres⟩, hrec, by rw [hfts]; rfl⟩, hr₄⟩
    · rw [if_pos hfts, hrec, if_neg (not_not.2 hvec)] at hr₄
      obtain ⟨record', l₅, hrec', hr₅⟩ := run_bind_eq_ok.1 hr₄
      cases hrec'
      obtain ⟨u', l₆, htexts, hr₆⟩ := run_bind_eq_ok.1 hr₅
      exact ⟨rowid, next', record, l₆, ⟨⟨explicit, hexplicit, hres⟩, hrec, htexts⟩, hr₆⟩
  · rintro ⟨rowid, next', record, l', ⟨⟨explicit, hexplicit, hres⟩, hrec, htexts⟩, hr⟩
    refine run_lift_bind_eq_ok.2 ⟨explicit, hexplicit, run_bind_eq_ok.2 ⟨(rowid, next'), l, hres,
      run_bind_eq_ok.2 ⟨(), _, putRowData_iff.2 ⟨record, hrec, rfl⟩,
        run_lift_bind_eq_ok.2 ⟨_, pushEntries_eq hd hrec rowid fun _ => id, ?_⟩⟩⟩⟩
    by_cases hfts : d.fts_indexes = []
    · rw [hfts] at htexts
      cases htexts
      rw [if_neg (not_not.2 hfts), if_neg (not_not.2 hvec)]
      exact hr
    · rw [if_pos hfts, hrec, if_neg (not_not.2 hvec)]
      exact run_bind_eq_ok.2 ⟨record, _, run_lift_eq_ok.2 ⟨rfl, rfl⟩, run_bind_eq_ok.2 ⟨(), l', htexts, hr⟩⟩

/-- What many rows at once leave, without the entries that are put off. -/
lemma bulkRows_iff (hd : IndexesFit d) (hvec : d.vector_indexes = []) {r : Int64 × List (List (Bytes × Bool))} :
    (bulkRows M tokenize d rows next (pending batch d.indexes)).onMap l = .ok (r, m) ↔
      ∃ next' batch', LoadsRows tokenize d rows next batch l next' batch' m ∧
        r = (next', pending batch' d.indexes) := by
  induction rows generalizing next batch l with
  | nil =>
    constructor
    · intro hr
      cases hr
      exact ⟨next, batch, .nil, rfl⟩
    · rintro ⟨next', batch', hloads, rfl⟩
      cases hloads
      rfl
  | cons values rows ih =>
    rw [bulkRows_cons hd hvec]
    constructor
    · rintro ⟨rowid, next', record, l', hrow, hr⟩
      obtain ⟨next'', batch', hrest, rfl⟩ := ih.1 hr
      exact ⟨next'', batch', .cons hrow hrest, rfl⟩
    · rintro ⟨next'', batch', hloads, rfl⟩
      cases hloads with
      | cons hrow hrest => exact ⟨_, _, _, _, hrow, ih.2 ⟨next'', batch', hrest, rfl⟩⟩

/-! ### One row after the other -/

/-- The entries of a row go in where its indexes admit it. -/
lemma indexRow_iff (hvec : d.vector_indexes = []) (hd : IndexesFit d) (hrec : validatedRecord d values = .ok record)
    (hw : RowFits d (fullRow d rowid record)) (hnew : ∀ w, ¬ HasRow d l rowid w)
    (h : Loading d kvs batch l next) (hok : InOrder d (insertKeys (batchKeys d batch) l))
    (hadm : ∀ idx ∈ d.indexes, Admits d kvs batch idx) :
    (indexRow M tokenize d rowid record).onMap (insertKey (rowKey d.table_id rowid) (encodeValues record)
      (insertKeys (batchKeys d batch) l)) = .ok ((), m) ↔
      (∀ idx ∈ d.indexes, Admits d kvs (batch ++ [(rowid, fullRow d rowid record)]) idx) ∧ ∃ l',
        (applyFtsEntries tokenize rowid record true d.fts_indexes).onMap
          (insertKey (rowKey d.table_id rowid) (encodeValues record) l) = .ok ((), l') ∧
        m = insertKeys (batchKeys d (batch ++ [(rowid, fullRow d rowid record)])) l' := by
  have hlen := length_validatedRecord hrec
  have hl₁ : SortedMap (insertKey (rowKey d.table_id rowid) (encodeValues record) l) := h.sorted.insertKey
  have hcommute : insertKey (rowKey d.table_id rowid) (encodeValues record) (insertKeys (batchKeys d batch) l)
      = insertKeys (batchKeys d batch) (insertKey (rowKey d.table_id rowid) (encodeValues record) l) := by
    have hwrite : LocalTo TreeM.keyCheck (· = rowKey d.table_id rowid)
        (MapProgram.write (rowKey d.table_id rowid) (encodeValues record) : TreeM Unit) := .write rfl
    have hrun := run_insertKeys hwrite (batchKeys d batch) (fun key hkey heq => ?_) h.sorted
    · rw [TreeM.onMap_write, TreeM.onMap_write, keyCheck_rowKey, ok_bind, ok_bind, ok_bind] at hrun
      exact congrArg Prod.snd (Except.ok.inj hrun)
    · exact head_rowKey_ne (show KS_INDEX < 0x80 by decide) (heq ▸ batchKeys_head hkey)
  have hkeys : batchKeys d batch ++ d.indexes.map (fun idx => entryOf idx record rowid)
      = batchKeys d (batch ++ [(rowid, fullRow d rowid record)]) := by
    rw [batchKeys, batchKeys, List.flatMap_append, List.flatMap_singleton]
    refine congrArg _ (List.map_congr_left fun idx hidx => ?_)
    rw [entryOf, entryOf, indexed_fullRow hd hidx hlen]
  have hentries {m₁ : Entries} : _ = Except.ok ((), m₁) ↔ _ := insertIndexEntries_iff hok hd hlen
    (fun w hw' => hnew w ((hasRow_insertKeys h.sorted).1 hw')) d.indexes (fun _ => id) hd.ids
    (m := insertKey (rowKey d.table_id rowid) (encodeValues record) (insertKeys (batchKeys d batch) l))
    (sorted_insertKeys _ h.sorted).insertKey fun idx hidx key hkey => by
      refine valueOf_insertKey_of_ne (sorted_insertKeys _ h.sorted) ?_
      rintro rfl
      exact head_rowKey_ne (show KS_INDEX < 0x80 by decide) ( head_of_prefix hkey)
  rw [hcommute, ← insertKeys_append, hkeys] at hentries
  have hcond : (∀ idx ∈ d.indexes, ¬ HeldIn d (insertKeys (batchKeys d batch) l) record idx ∧ EntryFits record idx) ↔
      ∀ idx ∈ d.indexes, Admits d kvs (batch ++ [(rowid, fullRow d rowid record)]) idx := by
    refine forall₂_congr fun idx hidx => ?_
    rw [admits_append hd hidx h hw, and_iff_right (hadm idx hidx), HeldIn, HeldIn, Sought, Sought, EntryFits, EntryFits,
      indexed_fullRow hd hidx hlen]
  have hfts : LocalTo TreeM.keyCheck _ (applyFtsEntries tokenize rowid record true d.fts_indexes) :=
    (keepsTo_applyFtsEntries tokenize record d.fts_indexes).local_
  have htexts := run_insertKeys hfts (batchKeys d (batch ++ [(rowid, fullRow d rowid record)])) (fun key hkey => by
      rw [batchKeys_head hkey]
      decide) hl₁
  rw [indexRow, hvec, hcommute, TreeM.onMap_bind, bind_eq_ok]
  constructor
  · rintro ⟨⟨u, m₁⟩, hin, hr⟩
    obtain ⟨hall, rfl⟩ := hentries.1 hin
    rw [TreeM.onMap_bind, htexts] at hr
    obtain ⟨r, hr', hlast⟩ := bind_eq_ok.1 hr
    obtain ⟨⟨u', l'⟩, hfts, heq⟩ := bind_eq_ok.1 hr'
    cases heq
    cases hlast
    exact ⟨hcond.1 hall, l', hfts, rfl⟩
  · rintro ⟨hall, l', hfts, rfl⟩
    refine ⟨((), _), hentries.2 ⟨hcond.2 hall, rfl⟩, ?_⟩
    rw [TreeM.onMap_bind, htexts, hfts]
    rfl

/-- The table is in order with the row and its entries. -/
lemma Loading.tableOk (h : Loading d kvs batch l next) (hvec : d.vector_indexes = []) (hd : TableFits tokenize d)
    (hok : TableOk tokenize d (insertKeys (batchKeys d batch) l)) (hadm : ∀ idx ∈ d.indexes, Admits d kvs batch idx)
    (hrow : LoadsRow tokenize d values next l rowid next' record l') (henc : (encodeValues record).length < 2 ^ 64)
    (hall : ∀ idx ∈ d.indexes, Admits d kvs (batch ++ [(rowid, fullRow d rowid record)]) idx) :
    TableOk tokenize d (insertKeys (batchKeys d (batch ++ [(rowid, fullRow d rowid record)])) l') := by
  have hs := sorted_insertKeys (batchKeys d batch) h.sorted
  obtain ⟨explicit, -, hres⟩ := hrow.number
  exact (hok.put hd hrow.record_ henc (fun w hw => h.free hres w ((hasRow_insertKeys h.sorted).1 hw)) hs.insertKey
    (valueOf_insertKey_self hs) (fun key hne => valueOf_insertKey_of_ne hs hne) ((indexRow_iff (M := plainMath) hvec
      hd.toIndexesFit hrow.record_ (rowFits_full hd hrow.record_) (h.free hres) h hok.order hadm).2
        ⟨hall, l', hrow.texts, rfl⟩)).1

/-- A row goes in on its own where its indexes admit it. -/
lemma insertRow_iff (hfk : d.foreign_keys = []) (hvec : d.vector_indexes = []) (hd : TableFits tokenize d)
    (h : Loading d kvs batch l next) (hok : TableOk tokenize d (insertKeys (batchKeys d batch) l))
    (hadm : ∀ idx ∈ d.indexes, Admits d kvs batch idx) {r : Int64 × Option Int64} :
    (insertRow M tokenize d values (some next)).onMap (insertKeys (batchKeys d batch) l) = .ok (r, m) ↔
      ∃ rowid next' record l', LoadsRow tokenize d values next l rowid next' record l' ∧
        (∀ idx ∈ d.indexes, Admits d kvs (batch ++ [(rowid, fullRow d rowid record)]) idx) ∧
        r = (rowid, some next') ∧
        m = insertKeys (batchKeys d (batch ++ [(rowid, fullRow d rowid record)])) l' := by
  have hnumber (explicit : Option Int64) := run_insertKeys
    (localTo_resolveRowid explicit : LocalTo _ _ (resolveRowid d.table_id explicit next)) (batchKeys d batch) (fun key hkey hp => rowPrefix_not_head hp (show KS_INDEX < 0x80 by decide)
      (batchKeys_head hkey)) h.sorted
  have hindex {rowid next' : Int64} {record : Row} {explicit : Option Int64}
      (hres : (resolveRowid d.table_id explicit next).onMap l = .ok ((rowid, next'), l))
      (hrec : validatedRecord d values = .ok record) :
      (indexRow M tokenize d rowid record).onMap _ = .ok ((), m) ↔ _ := indexRow_iff hvec hd.toIndexesFit hrec (rowFits_full hd hrec) (h.free hres) h hok.order hadm
  rw [insertRow, hfk]
  simp only [putRowBuffered_putRow]
  constructor
  · intro hr
    obtain ⟨u, l₁, hcheck, hr₁⟩ := run_bind_eq_ok.1 hr
    cases hcheck
    obtain ⟨explicit, hexplicit, hr₂⟩ := run_lift_bind_eq_ok.1 hr₁
    obtain ⟨next₀, l₃, hcache, hr₃⟩ := run_bind_eq_ok.1 hr₂
    cases hcache
    obtain ⟨⟨rowid, next'⟩, l₄, hres, hr₄⟩ := run_bind_eq_ok.1 hr₃
    have hfound := (hnumber explicit).symm.trans hres
    obtain rfl := readOnly_resolveRowid explicit _ _ _ hres
    obtain ⟨⟨r', l₅⟩, hres', heq⟩ := bind_eq_ok.1 hfound
    obtain rfl : r' = (rowid, next') := congrArg Prod.fst (Except.ok.inj heq)
    obtain rfl := readOnly_resolveRowid explicit _ _ _ hres'
    dsimp only at hr₄
    obtain ⟨u', l₆, hput, hr₅⟩ := run_bind_eq_ok.1 hr₄
    cases hr₅
    obtain ⟨record, hrec, hrun⟩ := putRow_iff.1 hput
    obtain ⟨hall, l', hfts, hm⟩ := (hindex hres' hrec).1 hrun
    exact ⟨rowid, next', record, l', ⟨⟨explicit, hexplicit, hres'⟩, hrec, hfts⟩, hall, rfl, hm⟩
  · rintro ⟨rowid, next', record, l', ⟨⟨explicit, hexplicit, hres⟩, hrec, hfts⟩, hall, rfl, rfl⟩
    refine run_bind_eq_ok.2 ⟨(), _, rfl, run_lift_bind_eq_ok.2 ⟨explicit, hexplicit,
      run_bind_eq_ok.2 ⟨next, _, rfl, run_bind_eq_ok.2 ⟨(rowid, next'), _, ?_, run_bind_eq_ok.2
        ⟨(), _, putRow_iff.2 ⟨record, hrec, (hindex hres hrec).2 ⟨hall, l', hfts, rfl⟩⟩, rfl⟩⟩⟩⟩⟩
    exact (hnumber explicit).trans (by rw [hres]; rfl)

/-- Rows go in one after the other where their indexes admit all of them. -/
lemma insertEach_iff (hfk : d.foreign_keys = []) (hvec : d.vector_indexes = []) (hd : TableFits tokenize d)
    (hfits : ∀ values ∈ rows, ∀ record, validatedRecord d values = .ok record →
      (encodeValues record).length < 2 ^ 64) (h : Loading d kvs batch l next)
    (hok : TableOk tokenize d (insertKeys (batchKeys d batch) l))
    (hadm : ∀ idx ∈ d.indexes, Admits d kvs batch idx) {cache : Option Int64} :
    (insertEach M tokenize d rows (some next)).onMap (insertKeys (batchKeys d batch) l) = .ok (cache, m) ↔
      ∃ next' batch' l', LoadsRows tokenize d rows next batch l next' batch' l' ∧
        (∀ idx ∈ d.indexes, Admits d kvs batch' idx) ∧ cache = some next' ∧
        m = insertKeys (batchKeys d batch') l' := by
  induction rows generalizing next batch l with
  | nil =>
    constructor
    · intro hr
      cases hr
      exact ⟨next, batch, l, .nil, hadm, rfl, rfl⟩
    · rintro ⟨next', batch', l', hloads, -, rfl, rfl⟩
      cases hloads
      rfl
  | cons values rows ih =>
    obtain ⟨henc, hfits⟩ := List.forall_mem_cons.1 hfits
    have hrow {r : Int64 × Option Int64} {m : Entries} :
        (insertRow M tokenize d values (some next)).onMap _ = .ok (r, m) ↔ _ := insertRow_iff hfk hvec hd h hok hadm
    constructor
    · intro hr
      obtain ⟨r, l₁, hfirst, hr₁⟩ := run_bind_eq_ok.1 hr
      obtain ⟨rowid, next', record, l', hloads, hadm', rfl, rfl⟩ := hrow.1 hfirst
      have henc' := henc _ hloads.record_
      obtain ⟨next'', batch', l'', hrest, hall⟩ := (ih hfits (h.row hd hloads henc')
        (h.tableOk hvec hd hok hadm hloads henc' hadm') hadm').1 hr₁
      exact ⟨next'', batch', l'', .cons hloads hrest, hall⟩
    · rintro ⟨next'', batch', l'', hloads, hall, rfl, rfl⟩
      cases hloads with
      | @cons _ record _ rowid _ next' _ _ _ _ l' _ hfirst hrest =>
        have henc' := henc _ hfirst.record_
        have hadm' := fun idx hidx => Admits.of_prefix (hall idx hidx) hrest.prefix_
        refine run_bind_eq_ok.2 ⟨(rowid, some next'), _, hrow.2 ⟨rowid, next', record, l', hfirst, hadm', rfl, rfl⟩, ?_⟩
        exact (ih hfits (h.row hd hfirst henc') (h.tableOk hvec hd hok hadm hfirst henc' hadm') hadm').2
          ⟨next'', batch', l'', hrest, hall, rfl, rfl⟩

/-! ### The two ways -/

/-- The counter is read once. -/
lemma insertEach_cache {cache : Option Int64} (hfk : d.foreign_keys = []) (hsome : rows ≠ [])
    (hnext : (nextCounter d cache).onMap kvs = .ok (next, kvs)) :
    (insertEach M tokenize d rows cache).onMap kvs = (insertEach M tokenize d rows (some next)).onMap kvs := by
  cases rows with
  | nil => exact absurd rfl hsome
  | cons values rows =>
    have hrow : (insertRow M tokenize d values cache).onMap kvs
        = (insertRow M tokenize d values (some next)).onMap kvs := by
      rw [insertRow, insertRow, hfk]
      simp only [fkCheckParentsExist, TreeM.onMap_bind, TreeM.onMap_pure, ok_bind, TreeM.onMap_lift]
      cases explicitRowid d values with
      | error e => rfl
      | ok explicit =>
        rw [ok_bind, ok_bind, ok_bind, hnext]
        rfl
    rw [insertEach, insertEach, TreeM.onMap_bind, TreeM.onMap_bind, hrow]

/-- Many rows at once. -/
lemma insertRows_iff (hvec : d.vector_indexes = []) (hd : TableFits tokenize d) (h : Loading d kvs [] kvs next)
    (hok : InOrder d kvs) (hfits : ∀ values ∈ rows, ∀ record, validatedRecord d values = .ok record →
      (encodeValues record).length < 2 ^ 64) {cache cache' : Option Int64} {n : ℕ}
    (hnext : (nextCounter d cache).onMap kvs = .ok (next, kvs)) :
    (insertRows M tokenize d rows cache).onMap kvs = .ok ((n, cache'), m) ↔ n = rows.length ∧
      ∃ next' batch' l', LoadsRows tokenize d rows next [] kvs next' batch' l' ∧
        (∀ idx ∈ d.indexes, Admits d kvs batch' idx) ∧ cache' = some next' ∧
        m = insertKeys (batchKeys d batch') l' := by
  have hflush {next' : Int64} {batch' : List (Int64 × Row)} {l' m : Entries}
      (hloads : LoadsRows tokenize d rows next [] kvs next' batch' l') :
      (flushAll d.indexes (pending batch' d.indexes)).onMap l' = .ok ((), m) ↔
        (∀ idx ∈ d.indexes, Admits d kvs batch' idx) ∧ m = insertKeys (batchKeys d batch') l' := by
    have hl := hloads.loading hd hfits h
    rw [flushAll_iff hok hd.toIndexesFit hl.typed hl.fresh d.indexes (fun _ => id) hd.ids hl.sorted hl.entries,
      insertKeys_congr (batchKeys d batch') hl.sorted fun key => ?_]
    simp only [batchKeys, List.mem_flatMap, List.mem_map]
    constructor
    · rintro ⟨idx, hidx, p, hp, heq⟩
      exact ⟨p, hp, idx, hidx, heq⟩
    · rintro ⟨p, hp, idx, hidx, heq⟩
      exact ⟨idx, hidx, p, hp, heq⟩
  have hnone : d.indexes.map (fun _ => ([] : List (Bytes × Bool))) = pending [] d.indexes := rfl
  rw [insertRows, TreeM.onMap_bind, hnext, ok_bind, hnone]
  constructor
  · intro hr
    obtain ⟨r, l', hbulk, hr₁⟩ := run_bind_eq_ok.1 hr
    obtain ⟨next', batch', hloads, rfl⟩ := (bulkRows_iff hd.toIndexesFit hvec).1 hbulk
    obtain ⟨u, l'', hall, hr₂⟩ := run_bind_eq_ok.1 hr₁
    cases hr₂
    obtain ⟨hadm, rfl⟩ := (hflush hloads).1 hall
    exact ⟨rfl, next', batch', l', hloads, hadm, rfl, rfl⟩
  · rintro ⟨rfl, next', batch', l', hloads, hadm, rfl, rfl⟩
    exact run_bind_eq_ok.2 ⟨_, l', (bulkRows_iff hd.toIndexesFit hvec).2 ⟨next', batch', hloads, rfl⟩,
      run_bind_eq_ok.2 ⟨(), _, (hflush hloads).2 ⟨hadm, rfl⟩, rfl⟩⟩

/-- In every state of a run rows that are loaded at once are accepted exactly where they are accepted one
after the other, and leave the same, to the last entry of an index and the counter. -/
theorem bulk_load_is_each {tables : List TableDef} {given : TableDef → Row → Prop} {s s' : Session}
    (hs : TablesFit tokenize tables) (h : SessionOk tokenize tables s)
    (hrun : Relation.ReflTransGen (RowStep M tokenize tables given) s s') (hd : d ∈ tables)
    (hfk : d.foreign_keys = []) (hvec : d.vector_indexes = []) (hsome : rows ≠ [])
    (hfits : ∀ values ∈ rows, ∀ record, validatedRecord d values = .ok record →
      (encodeValues record).length < 2 ^ 64) (n : ℕ) (cache : Option Int64) (m : Entries) :
    (insertRows M tokenize d rows (s'.caches d.table_id)).onMap s'.kvs = .ok ((n, cache), m) ↔
      n = rows.length ∧ (insertEach M tokenize d rows (s'.caches d.table_id)).onMap s'.kvs = .ok (cache, m) := by
  have hco := (h.run hs hrun).current
  have hok := hco.ok d hd
  obtain ⟨next, hnext, hcounted⟩ := hco.counted d hd
  have hload : Loading d s'.kvs [] s'.kvs next := ⟨hco.sorted, hok.order.rows, fun r w => by simp, by simp, by simp,
    fun _ _ _ _ => rfl, hcounted⟩
  rw [insertRows_iff hvec (hs.fits d hd) hload hok.order hfits hnext, insertEach_cache hfk hsome hnext]
  exact and_congr_right fun _ => (insertEach_iff hfk hvec (hs.fits d hd) hfits hload hok fun idx _ =>
    ⟨by simp, by simp, fun _ => .nil⟩).symm

/-- Two rows for a new table, which go in one after the other and so also at once. -/
theorem bulk_load_is_each_one : ∃ cache m,
    (insertEach plainMath noTokens parentTable [[.null, .text "b"], [.null, .text "a"]] none).onMap
      (freshMap [childTable, parentTable]) = .ok (cache, m) ∧
    (insertRows plainMath noTokens parentTable [[.null, .text "b"], [.null, .text "a"]] none).onMap
      (freshMap [childTable, parentTable]) = .ok ((2, cache), m) := by
  obtain ⟨r, m, hr⟩ : ∃ r m, (insertEach plainMath noTokens parentTable [[.null, .text "b"],
    [.null, .text "a"]] none).onMap (freshMap [childTable, parentTable]) = .ok (r, m) := ⟨_, _, rfl⟩
  have hfits : ∀ values ∈ [[Value.null, .text "b"], [.null, .text "a"]], ∀ record,
      validatedRecord parentTable values = .ok record → (encodeValues record).length < 2 ^ 64 := by
    refine List.forall_mem_cons.2 ⟨?_, List.forall_mem_singleton.2 ?_⟩
    all_goals
      intro record hrec
      cases hrec
      decide +kernel
  exact ⟨r, m, hr, (bulk_load_is_each twoTables_fit (.fresh twoTables_sorted twoTables_codable)
    (.refl : Relation.ReflTransGen (RowStep plainMath noTokens _ fun _ _ => True) _ _) (by simp) rfl rfl (by simp) hfits 2 r m).2 ⟨rfl, hr⟩⟩

end Load

end Catalog

end Arkeion
