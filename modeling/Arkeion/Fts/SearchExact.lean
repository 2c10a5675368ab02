import Arkeion.Fts.Postings
import Arkeion.Lib.Firsts
import Arkeion.Lib.Utf8

/-!
A search by the index finds the rows that match on their own.

Every part of a query reads the index as what its words are in the rows; the rowids it gives are in
ascending order, so that those of two parts can be merged.
-/

namespace Arkeion

open Arkeion.Lib Btree

/-! ### Merging rowids -/

namespace Sql

section Merge
variable {first both second : Bool} {as bs : List Int64} {b x : Int64}

/-- What is below the head of an ascending list is below its members. -/
lemma lt_of_lt_head (h : StrictAscending (b :: bs)) (hlt : x < b) : ∀ y ∈ b :: bs, x < y := by
  intro y hmem
  rcases List.mem_cons.1 hmem with rfl | hmem
  · exact hlt
  · exact Int64.lt_trans hlt ((List.pairwise_cons.1 h).1 y hmem)

lemma not_mem_of_lt (h : StrictAscending (b :: bs)) (hlt : x < b) : x ∉ b :: bs :=
  fun hmem => Int64.lt_irrefl (lt_of_lt_head h hlt x hmem)

lemma mem_mergeSorted (ha : StrictAscending as) (hb : StrictAscending bs) :
    x ∈ mergeSorted first both second as bs ↔ (first ∧ x ∈ as ∧ x ∉ bs) ∨
      (both ∧ x ∈ as ∧ x ∈ bs) ∨ (second ∧ x ∉ as ∧ x ∈ bs) := by
  induction as, bs using mergeSorted.induct first both second with
  | case1 bs h => simp [mergeSorted, h]
  | case2 bs h => simp [mergeSorted, h]
  | case3 as hne h =>
    cases as with
    | nil => exact (hne rfl).elim
    | cons a as => simp [mergeSorted, h]
  | case4 as hne h =>
    cases as with
    | nil => exact (hne rfl).elim
    | cons a as => simp [mergeSorted, h]
  | case5 a as b bs hlt hf ih =>
    have hnot := not_mem_of_lt hb hlt
    rw [mergeSorted, if_pos hlt, if_pos hf, List.mem_cons, ih (List.pairwise_cons.1 ha).2 hb]
    grind
  | case6 a as b bs hlt hf ih =>
    have hnot := not_mem_of_lt hb hlt
    rw [mergeSorted, if_pos hlt, if_neg hf, ih (List.pairwise_cons.1 ha).2 hb]
    grind
  | case7 a as b bs hle hlt hs ih =>
    have hnot := not_mem_of_lt ha hlt
    rw [mergeSorted, if_neg hle, if_pos hlt, if_pos hs, List.mem_cons,
      ih ha (List.pairwise_cons.1 hb).2]
    grind
  | case8 a as b bs hle hlt hs ih =>
    have hnot := not_mem_of_lt ha hlt
    rw [mergeSorted, if_neg hle, if_pos hlt, if_neg hs, ih ha (List.pairwise_cons.1 hb).2]
    grind
  | case9 a as b bs hle hge hboth ih =>
    obtain rfl : a = b := by
      rcases Catalog.int64_trichotomy a b with h | h | h
      · exact absurd h hle
      · exact h
      · exact absurd h hge
    obtain ⟨ha', has⟩ := List.pairwise_cons.1 ha
    obtain ⟨hb', hbs⟩ := List.pairwise_cons.1 hb
    rw [mergeSorted, if_neg hle, if_neg hge, if_pos hboth, List.mem_cons, ih has hbs]
    grind [Int64.lt_irrefl]
  | case10 a as b bs hle hge hboth ih =>
    obtain rfl : a = b := by
      rcases Catalog.int64_trichotomy a b with h | h | h
      · exact absurd h hle
      · exact h
      · exact absurd h hge
    obtain ⟨ha', has⟩ := List.pairwise_cons.1 ha
    obtain ⟨hb', hbs⟩ := List.pairwise_cons.1 hb
    rw [mergeSorted, if_neg hle, if_neg hge, if_neg hboth, ih has hbs]
    grind [Int64.lt_irrefl]

lemma mergeSorted_subset : x ∈ mergeSorted first both second as bs → x ∈ as ∨ x ∈ bs := by
  induction as, bs using mergeSorted.induct first both second with
  | case1 bs h => simp [mergeSorted, h]
  | case2 bs h => simp [mergeSorted, h]
  | case3 as hne h | case4 as hne h =>
    cases as with
    | nil => exact (hne rfl).elim
    | cons a as => simp [mergeSorted, h]
  | case5 a as b bs hlt hf ih | case6 a as b bs hlt hf ih =>
    rw [mergeSorted, if_pos hlt]
    grind
  | case7 a as b bs hle hlt hs ih | case8 a as b bs hle hlt hs ih =>
    rw [mergeSorted, if_neg hle, if_pos hlt]
    grind
  | case9 a as b bs hle hge hboth ih | case10 a as b bs hle hge hboth ih =>
    rw [mergeSorted, if_neg hle, if_neg hge]
    grind

lemma ascending_mergeSorted (ha : StrictAscending as) (hb : StrictAscending bs) :
    StrictAscending (mergeSorted first both second as bs) := by
  induction as, bs using mergeSorted.induct first both second with
  | case1 bs h =>
    rw [mergeSorted, if_pos h]
    exact hb
  | case2 bs h =>
    rw [mergeSorted, if_neg h]
    exact List.Pairwise.nil
  | case3 as hne h =>
    cases as with
    | nil => exact (hne rfl).elim
    | cons a as =>
      rw [mergeSorted, if_pos h]
      · exact ha
      · exact hne
  | case4 as hne h =>
    cases as with
    | nil => exact (hne rfl).elim
    | cons a as =>
      rw [mergeSorted, if_neg h]
      · exact List.Pairwise.nil
      · exact hne
  | case5 a as b bs hlt hf ih =>
    obtain ⟨ha', has⟩ := List.pairwise_cons.1 ha
    rw [mergeSorted, if_pos hlt, if_pos hf]
    refine List.pairwise_cons.2 ⟨fun y hy => ?_, ih has hb⟩
    exact (mergeSorted_subset hy).elim (ha' y) (lt_of_lt_head hb hlt y)
  | case6 a as b bs hlt hf ih =>
    rw [mergeSorted, if_pos hlt, if_neg hf]
    exact ih (List.pairwise_cons.1 ha).2 hb
  | case7 a as b bs hle hlt hs ih =>
    obtain ⟨hb', hbs⟩ := List.pairwise_cons.1 hb
    rw [mergeSorted, if_neg hle, if_pos hlt, if_pos hs]
    refine List.pairwise_cons.2 ⟨fun y hy => ?_, ih ha hbs⟩
    exact (mergeSorted_subset hy).elim (lt_of_lt_head ha hlt y) (hb' y)
  | case8 a as b bs hle hlt hs ih =>
    rw [mergeSorted, if_neg hle, if_pos hlt, if_neg hs]
    exact ih ha (List.pairwise_cons.1 hb).2
  | case9 a as b bs hle hge hboth ih =>
    obtain ⟨ha', has⟩ := List.pairwise_cons.1 ha
    obtain ⟨hb', hbs⟩ := List.pairwise_cons.1 hb
    rw [mergeSorted, if_neg hle, if_neg hge, if_pos hboth]
    refine List.pairwise_cons.2 ⟨fun y hy => ?_, ih has hbs⟩
    rcases Catalog.int64_trichotomy a b with h | rfl | h
    · exact absurd h hle
    · exact (mergeSorted_subset hy).elim (ha' y) (hb' y)
    · exact absurd h hge
  | case10 a as b bs hle hge hboth ih =>
    rw [mergeSorted, if_neg hle, if_neg hge, if_neg hboth]
    exact ih (List.pairwise_cons.1 ha).2 (List.pairwise_cons.1 hb).2

end Merge

end Sql

/-! ### The window of `NEAR` -/

namespace Fts

/-- One position of each group, close enough to one another. -/
def Near (distance : ℕ) (groups : List (List ℕ)) : Prop :=
  ∃ c, List.Forall₂ (fun p g => p ∈ g) c groups ∧ spanOf c ≤ distance

section Near
variable {groups groups' : List (List ℕ)} {distance : ℕ}

/-- Only what the groups have counts. -/
lemma near_congr (h : List.Forall₂ (fun g g' => ∀ p : ℕ, p ∈ g ↔ p ∈ g') groups groups') :
    Near distance groups ↔ Near distance groups' := by
  refine exists_congr fun c => and_congr_left' ?_
  induction h generalizing c with
  | nil => rfl
  | cons hg _ ih =>
    rw [List.forall₂_cons_right_iff, List.forall₂_cons_right_iff]
    refine exists_congr fun p => exists_congr fun c' => ?_
    rw [hg p, ih c']

lemma Near.nonempty (h : Near distance groups) : ∀ g ∈ groups, g ≠ [] :=
  have ⟨c, hc, _⟩ := h
  exists_choice_iff.1 ⟨c, hc⟩

/-- The window that is found is close enough exactly if there are positions that are. -/
lemma minWindowSpan_near (hgroups : groups ≠ []) (distance : ℕ) :
    ∃ best, minWindowSpan groups = .ok best ∧
      ((best.any fun s => decide (s ≤ distance)) = true ↔ Near distance groups) := by
  by_cases hempty : groups.any List.isEmpty = true
  · refine ⟨none, if_pos hempty, iff_of_false (by simp) fun hnear => ?_⟩
    obtain ⟨g, hg, hnil⟩ := List.any_eq_true.1 hempty
    exact hnear.nonempty g hg (List.isEmpty_iff.1 hnil)
  have hn : 0 < groups.length := List.length_pos_iff.2 hgroups
  have hperm := (itemsOf groups).perm_insertionSort InOrder
  have hnone : ¬ Covers groups.length [] := fun hc => by
    obtain ⟨a, ha, -⟩ := hc 0 hn
    cases ha
  have hcount : Counted groups.length [] ⟨List.replicate groups.length 0, 0, none⟩ :=
    ⟨fun g hg => List.getElem?_replicate_of_lt hg, rfl⟩
  obtain ⟨best, done, hrun, hswept⟩ := slide_swept hn (sorted_items groups)
    (List.nil_append _).symm (List.nil_append []) hcount (.start hnone)
  refine ⟨best, (if_neg hempty).trans hrun, ?_⟩
  rw [Option.any_eq_true]
  constructor
  · rintro ⟨b, hb, hle⟩
    obtain ⟨items, hitems, hcov, hwithin⟩ := hswept.reached b hb
    obtain ⟨c, hc, hspan⟩ := choice_of_items (fun a ha => hperm.subset (hitems ha)) hcov hwithin
    exact ⟨c, hc, hspan.trans (of_decide_eq_true hle)⟩
  · rintro ⟨c, hc, hle⟩
    obtain ⟨hitems, hcov, hwithin⟩ := items_of_choice hc
    have hsub : c.zipIdx ⊆ (itemsOf groups).insertionSort InOrder :=
      fun a ha => hperm.symm.subset (hitems ha)
    obtain ⟨b, hb, hspan⟩ := hswept.lower c.zipIdx (spanOf c) hsub hcov hwithin (Or.inr hsub)
    exact ⟨b, hb, decide_eq_true (hspan.trans hle)⟩

end Near

end Fts

namespace Catalog

/-! ### Terms that begin with a text -/

section Prefix
variable {fts_id : UInt32} {a b : Bytes} {text t : String} {key : Bytes}

lemma head_escapeByte (x : UInt8) (t : Bytes) : (escapeByte x ++ t).head? = some x := by
  rw [escapeByte]
  split_ifs <;> rfl

lemma escape_prefix : a.flatMap escapeByte <+: b.flatMap escapeByte ++ [0x00, 0x00] ↔ a <+: b := by
  constructor
  · intro h
    induction a generalizing b with
    | nil => exact List.nil_prefix
    | cons x a ih =>
      rw [List.flatMap_cons] at h
      cases b with
      | nil =>
        -- a zero is followed by a byte that the end of a text does not have
        exfalso
        obtain ⟨u, hu⟩ := h
        by_cases hx : x = 0
        · simp [escapeByte, hx] at hu
        · simp [escapeByte, hx] at hu
      | cons y b =>
        obtain ⟨u, hu⟩ := h
        rw [List.flatMap_cons, List.append_assoc, List.append_assoc] at hu
        have hhead := congrArg List.head? hu
        rw [head_escapeByte, head_escapeByte] at hhead
        obtain rfl := Option.some.inj hhead
        exact List.cons_prefix_cons.2 ⟨rfl, ih ⟨u, List.append_cancel_left hu⟩⟩
  · rintro ⟨u, rfl⟩
    rw [List.flatMap_append, List.append_assoc]
    exact List.prefix_append _ _

lemma utf8_eq (s : String) : utf8 s = encodeChars s.toList := by
  have h : s.toUTF8 = s.toList.utf8Encode := String.utf8Encode_toList.symm
  rw [utf8, h, List.utf8Encode]
  simp [encodeChars]

/-- The terms under a prefix of the dictionary are those that begin with the text. -/
lemma dict_prefix : ftsSubPrefix fts_id FTS_TERM_DICT ++ encodeTextPrefix text
    <+: ftsTermDictKey fts_id t ↔ text.toList <+: t.toList := by
  rw [ftsTermDictKey, List.prefix_append_right_inj, encodeTextPrefix, encodeIndexValue,
    List.cons_prefix_cons, encodeBytes, escape_prefix, utf8_eq, utf8_eq, encodeChars_prefix]
  exact and_iff_right rfl

lemma dict_of_prefix (hkey : TermKey fts_id key ∨ LengthKey fts_id key)
    (hp : ftsSubPrefix fts_id FTS_TERM_DICT <+: key) : ∃ t, key = ftsTermDictKey fts_id t := by
  have hspace {k : Key} (hk : k.bytes = key) : k.space = .ftsTermDict := by
    obtain ⟨rest, rfl⟩ := hp
    have hbytes : spaceOf k.bytes = ftsSpaces[FTS_TERM_DICT.toNat]? :=
      hk ▸ spaceOf_fts fts_id FTS_TERM_DICT rest
    rw [spaceOf_bytes] at hbytes
    exact Option.some.inj hbytes
  rcases hkey with hkey | hkey
  · cases hkey with
    | dict t => exact ⟨t, rfl⟩
    | df t => cases hspace (k := .ftsDf fts_id t) rfl
    | counter => cases hspace (k := .ftsTermCounter fts_id) rfl
    | posting id rowid => cases hspace (k := .ftsPosting fts_id id rowid) rfl
  · cases hkey with
    | doclen rowid => cases hspace (k := .ftsDoclen fts_id rowid) rfl
    | global => cases hspace (k := .ftsGlobal fts_id) rfl

end Prefix

/-! ### Postings and rows -/

section Rows
variable {tk : String → List Token} {fts : FtsIndexDef} {rows : List (Int64 × List Value)}
  {kvs : Entries} {term text : String} {field : Option UInt8}

/-- The postings are the places of the words in the rows. -/
def Reads (tk : String → List Token) (fts : FtsIndexDef) (rows : List (Int64 × List Value))
    (word : String → Bool) (ps : List Posting) : Prop :=
  ∀ rowid f p, (rowid, f, p) ∈ ps ↔ ∃ record, (rowid, record) ∈ rows ∧
    ∃ t, word t = true ∧ (t, f, p) ∈ docOf tk record fts.columns

/-- The program gives the rowids of the rows that match, in ascending order. -/
def Finds (tk : String → List Token) (fts : FtsIndexDef) (rows : List (Int64 × List Value))
    (kvs : Entries) (p : TreeM (List Int64)) (isHit : Doc → Prop) : Prop :=
  ∃ ids, p.onMap kvs = .ok (ids, kvs) ∧ StrictAscending ids ∧ ∀ rowid, rowid ∈ ids ↔
    ∃ record, (rowid, record) ∈ rows ∧ isHit (docOf tk record fts.columns)

lemma Finds.congr {p : TreeM (List Int64)} {P Q : Doc → Prop} (h : Finds tk fts rows kvs p P)
    (hPQ : ∀ doc, P doc ↔ Q doc) : Finds tk fts rows kvs p Q := by
  obtain ⟨ids, hrun, hasc, hmem⟩ := h
  refine ⟨ids, hrun, hasc, fun rowid => (hmem rowid).trans ?_⟩
  simp only [hPQ]

lemma finds_none {P : Doc → Prop} (h : ∀ doc, ¬ P doc) :
    Finds tk fts rows kvs (pure []) P :=
  ⟨[], rfl, List.Pairwise.nil, fun rowid => by simp [h]⟩

lemma ascending_sortDedup (ids : List Int64) : StrictAscending (sortDedup ids) := by
  refine strictAscending_destutter ((List.pairwise_mergeSort ?_ ?_ ids).imp of_decide_eq_true)
  · intro a b c hab hbc
    exact decide_eq_true (Int64.le_trans (of_decide_eq_true hab) (of_decide_eq_true hbc))
  · intro a b
    simpa using Int64.le_total a b

lemma mem_sortDedup {ids : List Int64} {x : Int64} : x ∈ sortDedup ids ↔ x ∈ ids := by
  rw [sortDedup, mem_destutter, List.mem_mergeSort]

lemma TextIndex.row_unique (h : TextIndex tk fts rows kvs) {rowid : Int64} {r r' : List Value}
    (hr : (rowid, r) ∈ rows) (hr' : (rowid, r') ∈ rows) : r = r' :=
  (Prod.mk.inj (List.inj_on_of_nodup_map h.rowids hr hr' rfl)).2

lemma TextIndex.readsTerm (h : TextIndex tk fts rows kvs) (term : String) :
    ∃ ps, (ftsTermPostings fts.fts_id term).onMap kvs = .ok (ps, kvs) ∧
      Reads tk fts rows (wordIs false term) ps := by
  obtain ⟨ps, hrun, hps⟩ := h.termPostings term
  refine ⟨ps, hrun, fun rowid f p => (hps rowid f p).trans ?_⟩
  simp [wordIs]

/-- The rows of postings that are in the column. -/
lemma finds_distinct {word : String → Bool} {ps : List Posting} {p : TreeM (List Posting)}
    (hrun : p.onMap kvs = .ok (ps, kvs)) (hps : Reads tk fts rows word ps) (field : Option UInt8) :
    Finds tk fts rows kvs (p >>= fun ps => pure (distinctRowids ps field))
      fun doc => (doc.any fun w => inField field w.2.1 && word w.1) = true := by
  refine ⟨distinctRowids ps field, by simp [hrun], ascending_sortDedup _, fun rowid => ?_⟩
  rw [distinctRowids, mem_sortDedup, List.mem_map]
  constructor
  · rintro ⟨⟨rid, f, pos⟩, hmem, rfl⟩
    obtain ⟨hmem, hf⟩ := List.mem_filter.1 hmem
    obtain ⟨record, hr, t, ht, hword⟩ := (hps rid f pos).1 hmem
    exact ⟨record, hr, List.any_eq_true.2 ⟨(t, f, pos), hword, by simp_all⟩⟩
  · rintro ⟨record, hr, hany⟩
    obtain ⟨⟨t, f, pos⟩, hword, ht⟩ := List.any_eq_true.1 hany
    rw [Bool.and_eq_true] at ht
    exact ⟨(rowid, f, pos), List.mem_filter.2 ⟨(hps rowid f pos).2 ⟨record, hr, t, ht.2, hword⟩, ht.1⟩,
      rfl⟩

/-! ### Terms by their beginning -/

lemma dictIds_eq {ids : String → Option UInt32} {l : Entries} (h : ∀ kv ∈ l, ∃ t id,
      kv.1 = ftsTermDictKey fts.fts_id t ∧ ids t = some id ∧ kv.2 = beBytes 4 id.toNat) :
    ∃ found, dictIds l = .ok found ∧ ∀ id, id ∈ found ↔
      ∃ t, ids t = some id ∧ ftsTermDictKey fts.fts_id t ∈ l.map Prod.fst := by
  induction l with
  | nil => exact ⟨[], rfl, by simp⟩
  | cons kv l ih =>
    obtain ⟨key, v⟩ := kv
    obtain ⟨⟨t, id, hkey, hid, hval⟩, htail⟩ := List.forall_mem_cons.1 h
    obtain ⟨found, hrest, hfound⟩ := ih htail
    dsimp only at hkey hval
    subst hkey hval
    refine ⟨id :: found, ?_, fun id' => ?_⟩
    · rw [dictIds, u32OfBytes_be, ok_bind, hrest, ok_bind]
    · rw [List.mem_cons, hfound]
      constructor
      · rintro (rfl | ⟨t', hid', hmem⟩)
        · exact ⟨t, hid, List.mem_cons_self⟩
        · exact ⟨t', hid', List.mem_cons_of_mem _ hmem⟩
      · rintro ⟨t', hid', hmem⟩
        rcases List.mem_cons.1 hmem with heq | hmem
        · rw [ftsTermDictKey_inj.1 heq, hid] at hid'
          exact Or.inl (Option.some.inj hid').symm
        · exact Or.inr ⟨t', hid', hmem⟩

lemma TextIndex.scanAll (h : TextIndex tk fts rows kvs) {ids : String → Option UInt32}
    {next : UInt32} (hterms : TermIndex fts.fts_id ids next
      (rows.flatMap fun r => rowCells r.1 (rowTerms tk fts r.2).1) kvs) {found : List UInt32}
    (hfound : ∀ id ∈ found, ∃ t, ids t = some id) :
    ∃ ps, (scanIds fts.fts_id found).onMap kvs = .ok (ps, kvs) ∧ ∀ rowid f p, (rowid, f, p) ∈ ps ↔
      ∃ record, (rowid, record) ∈ rows ∧ ∃ t, (∃ id ∈ found, ids t = some id) ∧
        (t, f, p) ∈ docOf tk record fts.columns := by
  induction found with
  | nil => exact ⟨[], rfl, by simp⟩
  | cons id found ih =>
    obtain ⟨⟨t, hid⟩, htail⟩ := List.forall_mem_cons.1 hfound
    obtain ⟨here, hscan, hhere⟩ := h.scan hterms hid
    obtain ⟨rest, hall, hrest⟩ := ih htail
    refine ⟨here ++ rest, ?_, fun rowid f p => ?_⟩
    · simp [scanIds, hscan, hall]
    · rw [List.mem_append, hhere, hrest]
      constructor
      · rintro (⟨record, hr, hword⟩ | ⟨record, hr, t', ⟨id', hmem, hid'⟩, hword⟩)
        · exact ⟨record, hr, t, ⟨id, List.mem_cons_self, hid⟩, hword⟩
        · exact ⟨record, hr, t', ⟨id', List.mem_cons_of_mem _ hmem, hid'⟩, hword⟩
      · rintro ⟨record, hr, t', ⟨id', hmem, hid'⟩, hword⟩
        rcases List.mem_cons.1 hmem with rfl | hmem
        · obtain rfl := hterms.inj t' t id' hid' hid
          exact Or.inl ⟨record, hr, hword⟩
        · exact Or.inr ⟨record, hr, t', ⟨id', hmem, hid'⟩, hword⟩

lemma TextIndex.readsPrefix (h : TextIndex tk fts rows kvs) (text : String) :
    ∃ ps, (ftsPrefixPostings fts.fts_id text).onMap kvs = .ok (ps, kvs) ∧
      Reads tk fts rows (wordIs true text) ps := by
  obtain ⟨ids, next, hterms⟩ := h.terms
  have hdict (kv : Bytes × Bytes) (hkv : kv ∈ kvs.filter fun kv => decide
      (ftsSubPrefix fts.fts_id FTS_TERM_DICT ++ encodeTextPrefix text <+: kv.1)) : ∃ t id,
        kv.1 = ftsTermDictKey fts.fts_id t ∧ ids t = some id ∧ kv.2 = beBytes 4 id.toNat := by
    obtain ⟨hmem, hp⟩ := List.mem_filter.1 hkv
    have hp : ftsSubPrefix fts.fts_id FTS_TERM_DICT <+: kv.1 :=
      (List.prefix_append _ _).trans (of_decide_eq_true hp)
    have hval := (mem_iff_valueOf hterms.sorted).1 (show (kv.1, kv.2) ∈ kvs from hmem)
    have hbegins : ftsIdPrefix fts.fts_id <+: kv.1 := (List.prefix_append _ _).trans hp
    obtain ⟨t, hkey⟩ := dict_of_prefix (h.keys kv.1 hbegins (by rw [hval]; rfl)) hp
    rw [hkey, hterms.dict] at hval
    obtain ⟨id, hid, hbytes⟩ := Option.map_eq_some_iff.1 hval
    exact ⟨t, id, hkey, hid, hbytes.symm⟩
  obtain ⟨found, hids, hfound⟩ := dictIds_eq hdict
  obtain ⟨ps, hscan, hps⟩ := h.scanAll hterms fun id (hid : id ∈ found) => by
    obtain ⟨t, ht, -⟩ := (hfound id).1 hid
    exact ⟨t, ht⟩
  refine ⟨ps, ?_, fun rowid f p => ?_⟩
  · rw [ftsPrefixPostings, TreeM.onMap_bind, TreeM.onMap_readFrom, ok_bind]
    dsimp only
    rw [takeWhile_fromKey hterms.sorted, TreeM.onMap_bind, TreeM.onMap_lift, hids, ok_bind, ok_bind,
      hscan]
  · rw [hps]
    refine exists_congr fun record => and_congr_right fun hr => exists_congr fun t =>
      and_congr_left fun hword => ?_
    -- a word that stands in a row is in the dictionary
    obtain ⟨id, hid⟩ : ∃ id, ids t = some id := by
      cases hid : ids t with
      | some id => exact ⟨id, rfl⟩
      | none =>
        obtain ⟨⟨t', fields⟩, hmem, rfl⟩ :=
          List.mem_map.1 (((h.grouped_row hr).term_iff t).2 ⟨f, p, hword⟩)
        exact (hterms.unknown hid _
          (mem_cells (c := ((rowid, t'), fields)).2 ⟨record, hr, hmem⟩) rfl).elim
    have hval : valueOf (ftsTermDictKey fts.fts_id t) kvs = some (beBytes 4 id.toNat) := by
      rw [hterms.dict, hid, Option.map_some]
    have hbegins : text.toList <+: t.toList ↔ ftsSubPrefix fts.fts_id FTS_TERM_DICT ++ encodeTextPrefix text
        <+: ftsTermDictKey fts.fts_id t := dict_prefix.symm
    simp only [wordIs, if_true, List.isPrefixOf_iff_prefix, hbegins]
    constructor
    · rintro ⟨id', hmem, hid'⟩
      obtain ⟨t', ht', hkey⟩ := (hfound id').1 hmem
      obtain rfl := hterms.inj t t' id' hid' ht'
      obtain ⟨kv, hkv, heq⟩ := List.mem_map.1 hkey
      rw [← heq]
      exact of_decide_eq_true (List.mem_filter.1 hkv).2
    · intro hp
      refine ⟨id, (hfound id).2 ⟨t, hid, List.mem_map.2 ⟨_, List.mem_filter.2
        ⟨(mem_iff_valueOf hterms.sorted).2 hval, decide_eq_true hp⟩, rfl⟩⟩, hid⟩

/-! ### Phrases -/

/-- The postings of each of the words. -/
lemma TextIndex.readsAll (h : TextIndex tk fts rows kvs) (ts : List String) :
    ∃ pss, (termPostingsAll fts.fts_id ts).onMap kvs = .ok (pss, kvs) ∧
      List.Forall₂ (fun ps t => Reads tk fts rows (wordIs false t) ps) pss ts := by
  induction ts with
  | nil => exact ⟨[], rfl, List.Forall₂.nil⟩
  | cons t ts ih =>
    obtain ⟨ps, hrun, hps⟩ := h.readsTerm t
    obtain ⟨pss, hall, hpss⟩ := ih
    exact ⟨ps :: pss, by simp [termPostingsAll, hrun, hall], List.Forall₂.cons hps hpss⟩

/-- A posting of a row is a word of it. -/
lemma Reads.at_row (h : TextIndex tk fts rows kvs) {ps : List Posting} {t : String}
    (hps : Reads tk fts rows (wordIs false t) ps) {rowid : Int64} {record : List Value}
    (hr : (rowid, record) ∈ rows) (f : UInt8) (p : UInt32) :
    (rowid, f, p) ∈ ps ↔ (t, f, p) ∈ docOf tk record fts.columns := by
  rw [hps]
  simp only [wordIs, Bool.false_eq_true, if_false, beq_iff_eq, exists_eq_left]
  constructor
  · rintro ⟨record', hr', hword⟩
    rwa [h.row_unique hr hr']
  · exact fun hword => ⟨record, hr, hword⟩

/-- The words behind the first one stand in the postings where they stand in the row. -/
lemma phraseAt_eq (h : TextIndex tk fts rows kvs) {pss : List (List Posting)} {ts : List String}
    (hpss : List.Forall₂ (fun ps t => Reads tk fts rows (wordIs false t) ps) pss ts)
    {rowid : Int64} {record : List Value} (hr : (rowid, record) ∈ rows) (f : UInt8) (p : UInt32) :
    phraseAt pss (rowid, f, p) = ts.zipIdx.all fun s => (wantAt p s.2).any fun want =>
      (docOf tk record fts.columns).contains (s.1, f, want) := by
  rw [phraseAt]
  generalize 0 = k
  induction hpss generalizing k with
  | nil => rfl
  | cons hps _ ih =>
    rw [List.zipIdx_cons, List.zipIdx_cons, List.all_cons, List.all_cons, ih]
    congr 1
    cases wantAt p k with
    | none => rfl
    | some want =>
      rw [Option.any_some, Option.any_some, Bool.eq_iff_iff, List.contains_iff_mem,
        List.contains_iff_mem]
      exact hps.at_row h hr f want

lemma finds_phrase (h : TextIndex tk fts rows kvs) (tokens : List String) (field : Option UInt8) :
    Finds tk fts rows kvs (phraseRowids fts.fts_id tokens field)
      fun doc => docHasPhrase doc tokens field = true := by
  match tokens with
  | [] => exact finds_none fun doc => by simp [docHasPhrase]
  | [t] =>
    obtain ⟨ps, hrun, hps⟩ := h.readsTerm t
    exact finds_distinct hrun hps field
  | t :: u :: ts =>
    obtain ⟨first, hrun, hfirst⟩ := h.readsTerm t
    obtain ⟨pss, hall, hpss⟩ := h.readsAll (u :: ts)
    refine ⟨sortDedup ((first.filter fun p => inField field p.2.1 && phraseAt pss p).map Prod.fst),
      by simp [phraseRowids, hrun, hall], ascending_sortDedup _, fun rowid => ?_⟩
    rw [mem_sortDedup, List.mem_map]
    constructor
    · rintro ⟨⟨rid, f, p⟩, hmem, rfl⟩
      obtain ⟨hmem, hat⟩ := List.mem_filter.1 hmem
      rw [Bool.and_eq_true] at hat
      obtain ⟨record, hr, -⟩ := (hfirst rid f p).1 hmem
      rw [phraseAt_eq h hpss hr] at hat
      refine ⟨record, hr, List.any_eq_true.2 ⟨(t, f, p), (hfirst.at_row h hr f p).1 hmem, ?_⟩⟩
      simp only [beq_self_eq_true, Bool.true_and, Bool.and_eq_true]
      exact hat
    · rintro ⟨record, hr, hany⟩
      obtain ⟨⟨t', f, p⟩, hword, hat⟩ := List.any_eq_true.1 hany
      simp only [Bool.and_eq_true, beq_iff_eq] at hat
      obtain ⟨⟨rfl, hf⟩, hat⟩ := hat
      refine ⟨(rowid, f, p), List.mem_filter.2 ⟨(hfirst.at_row h hr f p).2 hword, ?_⟩, rfl⟩
      rw [phraseAt_eq h hpss hr, Bool.and_eq_true]
      exact ⟨hf, hat⟩

/-! ### `NEAR` -/

/-- The rows and columns whose positions are close enough. -/
lemma nearHits_eq {pss : List (List Posting)} (hpss : pss ≠ []) (distance : ℕ)
    (keys : List (Int64 × UInt8)) : ∃ hits, nearHits pss distance keys = .ok hits ∧
      ∀ rowid, rowid ∈ hits ↔
        ∃ f, (rowid, f) ∈ keys ∧ Fts.Near distance (pss.map (positionsAt (rowid, f))) := by
  induction keys with
  | nil => exact ⟨[], rfl, by simp⟩
  | cons key keys ih =>
    obtain ⟨hits, hrest, hhits⟩ := ih
    obtain ⟨best, hspan, hnear⟩ := Fts.minWindowSpan_near
      (show pss.map (positionsAt key) ≠ [] by simpa using hpss) distance
    have hhit : ∃ hit : Bool, nearHits pss distance (key :: keys)
        = .ok (if hit then key.1 :: hits else hits) ∧
          (hit = true ↔ Fts.Near distance (pss.map (positionsAt key))) := by
      rw [nearHits]
      dsimp only
      split_ifs with hall
      · exact ⟨_, by rw [hspan, ok_bind, ok_bind, hrest, ok_bind], hnear⟩
      · refine ⟨false, by rw [ok_bind, hrest, ok_bind], iff_of_false Bool.false_ne_true fun hn => ?_⟩
        refine hall (List.all_eq_true.2 fun g hg => ?_)
        simpa using hn.nonempty g (List.mem_of_mem_tail hg)
    obtain ⟨hit, hrun, hiff⟩ := hhit
    refine ⟨_, hrun, fun rowid => ?_⟩
    have hmem : (rowid ∈ if hit = true then key.1 :: hits else hits) ↔
        (rowid = key.1 ∧ hit = true) ∨ rowid ∈ hits := by
      cases hit <;> simp
    rw [hmem, hhits, hiff]
    constructor
    · rintro (⟨rfl, hn⟩ | ⟨f, hf, hn⟩)
      · exact ⟨key.2, List.mem_cons_self, hn⟩
      · exact ⟨f, List.mem_cons_of_mem _ hf, hn⟩
    · rintro ⟨f, hf, hn⟩
      rcases List.mem_cons.1 hf with rfl | hf
      · exact Or.inl ⟨rfl, hn⟩
      · exact Or.inr ⟨f, hf, hn⟩

/-- The columns of a row whose words are close enough. -/
lemma nearInFields_eq {tokens : List String} (htokens : tokens ≠ []) (doc : Doc) (distance : ℕ)
    (fields : List UInt8) : ∃ b, nearInFields doc tokens distance fields = .ok b ∧
      (b = true ↔ ∃ f ∈ fields, Fts.Near distance (tokens.map (docPositions doc f))) := by
  induction fields with
  | nil => exact ⟨false, rfl, by simp⟩
  | cons f fields ih =>
    obtain ⟨best, hspan, hnear⟩ := Fts.minWindowSpan_near
      (show tokens.map (docPositions doc f) ≠ [] by simpa using htokens) distance
    obtain ⟨b, hrest, hb⟩ := ih
    rw [nearInFields, hspan, ok_bind]
    by_cases hhere : (best.any fun s => decide (s ≤ distance)) = true
    · exact ⟨true, if_pos hhere, iff_of_true rfl ⟨f, List.mem_cons_self, hnear.1 hhere⟩⟩
    · refine ⟨b, (if_neg hhere).trans hrest, hb.trans ?_⟩
      rw [List.exists_mem_cons_iff]
      exact (or_iff_right fun hn => hhere (hnear.2 hn)).symm

lemma finds_near (h : TextIndex tk fts rows kvs) (tokens : List String) (distance : ℕ)
    (field : Option UInt8) : Finds tk fts rows kvs (nearRowids fts.fts_id tokens distance field)
      fun doc => docHasNear doc tokens distance field = .ok true := by
  match tokens with
  | [] => exact finds_none fun doc => by simp [docHasNear]
  | [t] => exact finds_none fun doc => by simp [docHasNear]
  | t :: u :: ts =>
    obtain ⟨first, hrun, hfirst⟩ := h.readsTerm t
    obtain ⟨pss, hall, hpss⟩ := h.readsAll (u :: ts)
    obtain ⟨hits, hnear, hhits⟩ := nearHits_eq
      (show (first :: pss).map (fun ps => ps.filter fun p => inField field p.2.1) ≠ [] by simp) distance
      ((first.filter fun p => inField field p.2.1).map fun p => (p.1, p.2.1)).dedup
    refine ⟨sortDedup hits, ?_, ascending_sortDedup _, fun rowid => ?_⟩
    · simp only [nearRowids, TreeM.onMap_bind, hrun, hall, ok_bind, TreeM.onMap_lift, hnear,
        TreeM.onMap_pure]
    have hcol {f : UInt8} : (rowid, f) ∈
        ((first.filter fun p => inField field p.2.1).map fun p => (p.1, p.2.1)).dedup ↔
          inField field f = true ∧ ∃ p, (rowid, f, p) ∈ first := by
      simp only [List.mem_dedup, List.mem_map, List.mem_filter, Prod.exists, Prod.mk.injEq]
      constructor
      · rintro ⟨rid, f', p, ⟨hmem, hf⟩, rfl, rfl⟩
        exact ⟨hf, p, hmem⟩
      · rintro ⟨hf, p, hmem⟩
        exact ⟨rowid, f, p, ⟨hmem, hf⟩, rfl, rfl⟩
    -- in a column of the row the postings have the positions of the words
    have hgroups {record : List Value} (hr : (rowid, record) ∈ rows) {f : UInt8}
        (hf : inField field f = true) :
        Fts.Near distance (((first :: pss).map fun ps => ps.filter fun p =>
          inField field p.2.1).map (positionsAt (rowid, f))) ↔
        Fts.Near distance ((t :: u :: ts).map (docPositions (docOf tk record fts.columns) f)) := by
      rw [List.map_map]
      refine Fts.near_congr (List.forall₂_map_left_iff.2 (List.forall₂_map_right_iff.2 ?_))
      have hreads : List.Forall₂ (fun ps w => Reads tk fts rows (wordIs false w) ps) (first :: pss)
        (t :: u :: ts) := .cons hfirst hpss
      refine hreads.imp fun ps w hps pos => ?_
      simp only [Function.comp_apply, positionsAt, docPositions, List.mem_map, List.mem_filter,
        Prod.exists, Bool.and_eq_true, beq_iff_eq]
      constructor
      · rintro ⟨rid, f', p, ⟨⟨hmem, -⟩, rfl, rfl⟩, rfl⟩
        exact ⟨w, f', p, ⟨(hps.at_row h hr f' p).1 hmem, rfl, rfl⟩, rfl⟩
      · rintro ⟨w', f', p, ⟨hmem, rfl, rfl⟩, rfl⟩
        exact ⟨rowid, f', p, ⟨⟨(hps.at_row h hr f' p).2 hmem, hf⟩, rfl, rfl⟩, rfl⟩
    have hdoc (record : List Value) : docHasNear (docOf tk record fts.columns) (t :: u :: ts) distance
        field = .ok true ↔ ∃ f, (inField field f = true ∧ ∃ w p, (w, f, p) ∈ docOf tk record fts.columns) ∧
          Fts.Near distance ((t :: u :: ts).map (docPositions (docOf tk record fts.columns) f)) := by
      obtain ⟨b, hb, hiff⟩ := nearInFields_eq (show t :: u :: ts ≠ [] by simp)
        (docOf tk record fts.columns) distance
        ((((docOf tk record fts.columns).map fun w => w.2.1).filter (inField field)).mergeSort.destutter
          (· ≠ ·))
      rw [docHasNear, if_neg (by simp), hb, Except.ok.injEq, hiff]
      refine exists_congr fun f => and_congr_left fun _ => ?_
      rw [mem_destutter, List.mem_mergeSort, List.mem_filter, and_comm]
      simp
    rw [mem_sortDedup, hhits]
    constructor
    · rintro ⟨f, hf, hn⟩
      obtain ⟨hf, p, hmem⟩ := hcol.1 hf
      obtain ⟨record, hr, -⟩ := (hfirst rowid f p).1 hmem
      exact ⟨record, hr, (hdoc record).2
        ⟨f, ⟨hf, t, p, (hfirst.at_row h hr f p).1 hmem⟩, (hgroups hr hf).1 hn⟩⟩
    · rintro ⟨record, hr, hn⟩
      obtain ⟨f, ⟨hf, -⟩, hn⟩ := (hdoc record).1 hn
      obtain ⟨pos, hpos⟩ := List.exists_mem_of_ne_nil _ (hn.nonempty _ List.mem_cons_self)
      obtain ⟨⟨t', f', p⟩, hfiltered, -⟩ := List.mem_map.1 hpos
      obtain ⟨hword, hat⟩ := List.mem_filter.1 hfiltered
      simp only [Bool.and_eq_true, beq_iff_eq] at hat
      obtain ⟨rfl, rfl⟩ := hat
      exact ⟨f', hcol.2 ⟨hf, p, (hfirst.at_row h hr f' p).2 hword⟩, (hgroups hr hf).2 hn⟩

lemma docHasNear_isOk (doc : Doc) (tokens : List String) (distance : ℕ) (field : Option UInt8) :
    ∃ b, docHasNear doc tokens distance field = .ok b := by
  rw [docHasNear]
  split_ifs with hlen
  · exact ⟨false, rfl⟩
  · have htokens : tokens ≠ [] := by
      rintro rfl
      simp at hlen
    obtain ⟨b, hb, -⟩ := nearInFields_eq htokens doc distance
      (((doc.map fun w => w.2.1).filter (inField field)).mergeSort.destutter (· ≠ ·))
    exact ⟨b, hb⟩

/-! ### Queries -/

/-- Each filter names a column of the index, the same one for the index and for a row. -/
def FiltersKnown (d : TableDef) (fts : FtsIndexDef) : Fts.Query → Prop
  | .term _ _ | .phrase _ | .near _ _ => True
  | .column name query => (∃ i ∈ fts.columns, d.named name = some i ∧
      Sql.docColumn d fts name = some i) ∧ FiltersKnown d fts query
  | .and a b | .or a b | .not a b => FiltersKnown d fts a ∧ FiltersKnown d fts b

lemma finds_term (h : TextIndex tk fts rows kvs) (text : String) (prefix_ : Bool)
    (field : Option UInt8) : Finds tk fts rows kvs (termRowids tk fts text prefix_ field)
      fun doc => docMatchesTerm tk doc text prefix_ field = true := by
  unfold termRowids docMatchesTerm
  split
  · exact finds_none fun doc => by simp
  · cases prefix_ with
    | true =>
      obtain ⟨ps, hrun, hps⟩ := h.readsPrefix ‹String›
      exact finds_distinct hrun hps field
    | false =>
      obtain ⟨ps, hrun, hps⟩ := h.readsTerm ‹String›
      exact finds_distinct hrun hps field
  · exact finds_phrase h _ field

variable {d : TableDef} {columns : List (String × UInt8)}

/-- A filter takes a row to the column it takes the index to. -/
lemma filter_column (hcolumns : Sql.docColumns d fts.columns = .ok columns) {name : String} {i : ℕ}
    (hdoc : Sql.docColumn d fts name = some i) :
    ∃ c, columns.find? (fun c => c.1 == name) = some c ∧ c.2 = UInt8.ofNat i := by
  have hfind := Sql.docColumns_find name hcolumns
  rw [← Sql.docColumn, hdoc] at hfind
  obtain ⟨c, hc, hi⟩ := Option.map_eq_some_iff.1 hfind
  exact ⟨c, hc, hi⟩

/-- A row is matched or not. -/
lemma ftsEvalDoc_isOk (hcolumns : Sql.docColumns d fts.columns = .ok columns) (doc : Doc)
    {query : Fts.Query} (hq : FiltersKnown d fts query) (field : Option UInt8) :
    ∃ b, ftsEvalDoc tk doc columns query field = .ok b := by
  induction query generalizing field with
  | term text prefix_ => exact ⟨_, rfl⟩
  | phrase words => exact ⟨_, rfl⟩
  | near terms distance => exact docHasNear_isOk doc _ distance field
  | column name query ih =>
    obtain ⟨⟨i, -, -, hdoc⟩, hq⟩ := hq
    obtain ⟨c, hc, -⟩ := filter_column hcolumns hdoc
    rw [ftsEvalDoc, hc, okOr_some, ok_bind]
    exact ih hq _
  | and a b iha ihb =>
    obtain ⟨ra, ha⟩ := iha hq.1 field
    rw [ftsEvalDoc, ha, ok_bind]
    cases ra with
    | true => exact ihb hq.2 field
    | false => exact ⟨false, rfl⟩
  | or a b iha ihb =>
    obtain ⟨ra, ha⟩ := iha hq.1 field
    rw [ftsEvalDoc, ha, ok_bind]
    cases ra with
    | true => exact ⟨true, rfl⟩
    | false => exact ihb hq.2 field
  | not a b iha ihb =>
    obtain ⟨ra, ha⟩ := iha hq.1 field
    obtain ⟨rb, hb⟩ := ihb hq.2 field
    rw [ftsEvalDoc, ha, ok_bind]
    cases ra with
    | true => exact ⟨!rb, by rw [if_pos rfl, hb, ok_bind]⟩
    | false => exact ⟨false, rfl⟩

/-- Two parts of a query, merged. -/
lemma Finds.merge (h : TextIndex tk fts rows kvs) {pa pb : TreeM (List Int64)} {P Q R : Doc → Prop}
    (ha : Finds tk fts rows kvs pa P) (hb : Finds tk fts rows kvs pb Q) (first both second : Bool)
    (hR : ∀ doc, R doc ↔ (first ∧ P doc ∧ ¬ Q doc) ∨ (both ∧ P doc ∧ Q doc) ∨
      (second ∧ ¬ P doc ∧ Q doc)) :
    Finds tk fts rows kvs (pa >>= fun ra => pb >>= fun rb =>
      pure (Sql.mergeSorted first both second ra rb)) R := by
  obtain ⟨ra, hra, hasc, hmem⟩ := ha
  obtain ⟨rb, hrb, hasc', hmem'⟩ := hb
  refine ⟨Sql.mergeSorted first both second ra rb,
    by simp only [TreeM.onMap_bind, hra, ok_bind, hrb, TreeM.onMap_pure],
    Sql.ascending_mergeSorted hasc hasc', fun rowid => ?_⟩
  -- what holds of the row of a rowid
  have hat {ids : List Int64} {S : Doc → Prop} (hids : ∀ rowid, rowid ∈ ids ↔ ∃ record,
      (rowid, record) ∈ rows ∧ S (docOf tk record fts.columns)) {record : List Value}
      (hr : (rowid, record) ∈ rows) : rowid ∈ ids ↔ S (docOf tk record fts.columns) := by
    rw [hids]
    constructor
    · rintro ⟨record', hr', hS⟩
      rwa [h.row_unique hr hr']
    · exact fun hS => ⟨record, hr, hS⟩
  rw [Sql.mem_mergeSorted hasc hasc']
  constructor
  · intro hcases
    obtain ⟨record, hr⟩ : ∃ record, (rowid, record) ∈ rows := by
      rcases hcases with ⟨-, hx, -⟩ | ⟨-, hx, -⟩ | ⟨-, -, hx⟩
      · exact ((hmem rowid).1 hx).imp fun _ hr => hr.1
      · exact ((hmem rowid).1 hx).imp fun _ hr => hr.1
      · exact ((hmem' rowid).1 hx).imp fun _ hr => hr.1
    rw [hat hmem hr, hat hmem' hr] at hcases
    exact ⟨record, hr, (hR _).2 hcases⟩
  · rintro ⟨record, hr, hrow⟩
    rw [hat hmem hr, hat hmem' hr]
    exact (hR _).1 hrow

lemma finds_query (h : TextIndex tk fts rows kvs)
    (hcolumns : Sql.docColumns d fts.columns = .ok columns) {query : Fts.Query}
    (hq : FiltersKnown d fts query) (field : Option UInt8) :
    Finds tk fts rows kvs (ftsEvalQuery tk d fts query field)
      fun doc => ftsEvalDoc tk doc columns query field = .ok true := by
  induction query generalizing field with
  | term text prefix_ =>
    exact (finds_term h text prefix_ field).congr fun doc => by simp [ftsEvalDoc]
  | phrase words =>
    exact (finds_phrase h _ field).congr fun doc => by simp [ftsEvalDoc]
  | near terms distance =>
    exact (finds_near h _ distance field).congr fun doc => by simp [ftsEvalDoc]
  | column name query ih =>
    obtain ⟨⟨i, hi, hnamed, hdoc⟩, hq⟩ := hq
    obtain ⟨c, hc, hci⟩ := filter_column hcolumns hdoc
    obtain ⟨ids, hrun, hasc, hmem⟩ := ih hq (some (UInt8.ofNat i))
    refine ⟨ids, ?_, hasc, fun rowid => (hmem rowid).trans ?_⟩
    · simp only [ftsEvalQuery, TreeM.onMap_bind, TreeM.onMap_lift, hnamed, okOr_some, ok_bind,
        require_pos hi, hrun]
    · simp only [ftsEvalDoc, hc, okOr_some, ok_bind, hci]
  | and a b iha ihb =>
    refine (iha hq.1 field).merge h (ihb hq.2 field) false true false fun doc => ?_
    obtain ⟨ra, ha⟩ : ∃ ra, ftsEvalDoc tk doc columns a field = .ok ra :=
      ftsEvalDoc_isOk hcolumns doc hq.1 field
    obtain ⟨rb, hb⟩ : ∃ rb, ftsEvalDoc tk doc columns b field = .ok rb :=
      ftsEvalDoc_isOk hcolumns doc hq.2 field
    rw [ftsEvalDoc, ha, ok_bind, hb]
    cases ra <;> cases rb <;> simp
  | or a b iha ihb =>
    refine (iha hq.1 field).merge h (ihb hq.2 field) true true true fun doc => ?_
    obtain ⟨ra, ha⟩ : ∃ ra, ftsEvalDoc tk doc columns a field = .ok ra :=
      ftsEvalDoc_isOk hcolumns doc hq.1 field
    obtain ⟨rb, hb⟩ : ∃ rb, ftsEvalDoc tk doc columns b field = .ok rb :=
      ftsEvalDoc_isOk hcolumns doc hq.2 field
    rw [ftsEvalDoc, ha, ok_bind, hb]
    cases ra <;> cases rb <;> simp
  | not a b iha ihb =>
    refine (iha hq.1 field).merge h (ihb hq.2 field) true false false fun doc => ?_
    obtain ⟨ra, ha⟩ : ∃ ra, ftsEvalDoc tk doc columns a field = .ok ra :=
      ftsEvalDoc_isOk hcolumns doc hq.1 field
    obtain ⟨rb, hb⟩ : ∃ rb, ftsEvalDoc tk doc columns b field = .ok rb :=
      ftsEvalDoc_isOk hcolumns doc hq.2 field
    rw [ftsEvalDoc, ha, ok_bind, hb]
    cases ra <;> cases rb <;> simp

end Rows

section Notes

/-- `CREATE TABLE notes (body TEXT)` -/
def noteTable : TableDef where
  name := "notes"
  table_id := 1
  rowid_alias := none
  columns := [⟨"body", .text, false, none, false⟩]
  indexes := []
  fts_indexes := [⟨"f", 1, [0], "ascii"⟩]
  vector_indexes := []
  logical_order := [0]
  foreign_keys := []
  checks := []
  alias_lt i h := by cases h
  logical := by decide

def noteIndex : FtsIndexDef := ⟨"f", 1, [0], "ascii"⟩

def noteChanges : List RowChange :=
  [.add 1 [.text "ab"], .add 2 [.text "ac"], .remove 1 [.text "ab"]]

def noteQuery : Fts.Query := .column "body" (.not (.term "a" true) (.term "ab" false))

end Notes

end Catalog

end Arkeion
