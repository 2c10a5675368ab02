import Arkeion.Fts.Search
import Arkeion.Fts.Upkeep

/-!
The postings that are read are the words of the rows: a value of a cell reads back to the places it
was written from, and these are the places of the words in the row.
-/

namespace Arkeion

open Arkeion.Lib Btree

namespace Catalog

/-! ### The values of cells -/

/-- The places of a term in a row, one after the other. -/
def placesOf (fields : Fields) : List (UInt8 × UInt32) := fields.flatMap fun f => f.2.map fun p => (f.1, p)

section Codec
variable {field : UInt8} {prev : UInt32} {positions : List UInt32} {fields : Fields} {v : Bytes}

lemma mem_placesOf {p : UInt32} :
    (field, p) ∈ placesOf fields ↔ ∃ ps, (field, ps) ∈ fields ∧ p ∈ ps := by
  simp only [placesOf, List.mem_flatMap, List.mem_map, Prod.exists, Prod.mk.injEq]
  constructor
  · rintro ⟨f, ps, hf, q, hq, rfl, rfl⟩
    exact ⟨ps, hf, hq⟩
  · rintro ⟨ps, hf, hp⟩
    exact ⟨field, ps, hf, p, hp, rfl, rfl⟩

/-- The gaps give the positions back. -/
lemma takeGaps_encode (h : encodePositions prev positions = .ok v) (x z : Bytes) {pos : ℕ}
    (hpos : pos = x.length) : takeGaps (x ++ v ++ z) field positions.length pos prev
      = .ok (positions.map fun p => (field, p), pos + v.length) := by
  induction positions generalizing prev v x pos with
  | nil =>
    cases h
    rfl
  | cons p positions ih =>
    obtain ⟨u, -, h⟩ := bind_eq_ok.1 h
    obtain ⟨rest, hrest, h⟩ := bind_eq_ok.1 h
    cases h
    have hlt : (p - prev).toNat < 2 ^ 64 := (p - prev).toNat_lt.trans (by decide)
    have htake := takeVarint_put x (rest ++ z) hpos hlt
    have habs : prev + UInt32.ofNat (p - prev).toNat = p := by
      rw [UInt32.ofNat_toNat, UInt32.add_comm, UInt32.sub_add_cancel]
    have hsplit : x ++ (putVarint (p - prev).toNat ++ rest) ++ z
        = x ++ putVarint (p - prev).toNat ++ rest ++ z := by
      simp only [List.append_assoc]
    have hnext : pos + varintLen (p - prev).toNat = (x ++ putVarint (p - prev).toNat).length := by
      rw [List.length_append, length_putVarint hlt, hpos]
    rw [hsplit, List.length_cons, takeGaps, List.append_assoc _ rest z, htake, okOr_some, ok_bind]
    dsimp only
    rw [habs, ← List.append_assoc _ rest z, ih hrest _ hnext, ok_bind]
    simp [length_putVarint hlt, Nat.add_assoc]

/-- A value that is written reads back to its places. -/
lemma decodePostingFrom_encode (h : encodePostingValue fields = .ok v)
    (hlen : ∀ f ∈ fields, f.2.length < 2 ^ 64) (x : Bytes) {n pos : ℕ} (hn : fields.length < n)
    (hpos : pos = x.length) : decodePostingFrom (x ++ v) n pos = .ok (placesOf fields) := by
  induction fields generalizing x n pos v with
  | nil =>
    cases h
    obtain ⟨n, rfl⟩ := Nat.exists_eq_succ_of_ne_zero (Nat.ne_of_gt hn)
    rw [List.append_nil, decodePostingFrom, if_neg (by omega)]
    rfl
  | cons f fields ih =>
    obtain ⟨field, positions⟩ := f
    obtain ⟨gaps, hgaps, h⟩ := bind_eq_ok.1 h
    obtain ⟨rest, hrest, h⟩ := bind_eq_ok.1 h
    cases h
    obtain ⟨n, rfl⟩ := Nat.exists_eq_succ_of_ne_zero (Nat.ne_of_gt ((Nat.zero_le _).trans_lt hn))
    obtain ⟨hcount, hlen⟩ := List.forall_mem_cons.1 hlen
    dsimp only at hcount
    have hv : x ++ (field :: putVarint positions.length ++ gaps ++ rest)
        = (x ++ [field]) ++ putVarint positions.length ++ (gaps ++ rest) := by
      simp
    have hfield : (x ++ [field] ++ putVarint positions.length ++ (gaps ++ rest))[pos]? = some field := by
      rw [List.append_assoc, List.append_assoc, hpos, List.getElem?_append_right (Nat.le_refl _),
        Nat.sub_self]
      rfl
    have hhead : pos + 1 = (x ++ [field]).length := by
      rw [List.length_append, List.length_singleton, hpos]
    have htake := takeVarint_put (x ++ [field]) (gaps ++ rest) hhead hcount
    have hgapsAt : pos + 1 + varintLen positions.length
        = (x ++ [field] ++ putVarint positions.length).length := by
      rw [List.length_append, length_putVarint hcount, ← hhead]
    have hread : takeGaps _ field _ _ _ = _ := takeGaps_encode hgaps
      (x ++ [field] ++ putVarint positions.length) rest hgapsAt
    have hrestAt : pos + 1 + varintLen positions.length + gaps.length
        = (x ++ [field] ++ putVarint positions.length ++ gaps).length := by
      rw [List.length_append, ← hgapsAt]
    rw [hv, decodePostingFrom, if_pos (by simp; omega), hfield, okOr_some, ok_bind, htake, okOr_some,
      ok_bind]
    dsimp only
    rw [← List.append_assoc _ gaps rest, hread, ok_bind]
    dsimp only
    rw [ih hrest hlen _ (Nat.lt_of_succ_lt_succ hn) hrestAt, ok_bind]
    rfl

lemma length_le_encode (h : encodePostingValue fields = .ok v) : fields.length ≤ v.length := by
  induction fields generalizing v with
  | nil => exact Nat.zero_le _
  | cons f fields ih =>
    obtain ⟨gaps, -, h⟩ := bind_eq_ok.1 h
    obtain ⟨rest, hrest, h⟩ := bind_eq_ok.1 h
    cases h
    have hle := ih hrest
    simp only [List.length_cons, List.length_append]
    omega

lemma decodePostingValue_encode (h : encodePostingValue fields = .ok v)
    (hlen : ∀ f ∈ fields, f.2.length < 2 ^ 64) : decodePostingValue v = .ok (placesOf fields) :=
  decodePostingFrom_encode h hlen [] (Nat.lt_succ_of_le (length_le_encode h)) rfl

end Codec

/-! ### The words of a row -/

/-- The positions of a term in a column. -/
def positionsIn (per_term : PerTerm) (term : String) (field : UInt8) : List UInt32 :=
  (valueOf field ((valueOf term per_term).getD [])).getD []

/-- The words so far are those of the list. -/
structure Grouped (doc : Doc) (st : PerTerm × ℕ) : Prop where
  sorted : SortedMap st.1
  fields : ∀ t fields, valueOf t st.1 = some fields → SortedMap fields
  places : ∀ t f p, (t, f, p) ∈ doc ↔ p ∈ positionsIn st.1 t f
  some_place : ∀ t, (valueOf t st.1).isSome → ∃ f p, p ∈ positionsIn st.1 t f
  short : ∀ t f, (positionsIn st.1 t f).length ≤ st.2
  count : st.2 = doc.length
  count_lt : st.2 < 2 ^ 64

section Group
variable {tk : String → List Token} {doc : Doc} {st st' : PerTerm × ℕ} {col : ℕ} {token : Token}
  {record : List Value}

lemma Grouped.fields_getD (h : Grouped doc st) (t : String) :
    SortedMap ((valueOf t st.1).getD []) := by
  cases hval : valueOf t st.1 with
  | none => exact List.Pairwise.nil
  | some fields => exact h.fields t fields hval

/-- One more word is one more position of its term in its column. -/
lemma positionsIn_push (h : Grouped doc st) (hpush : pushToken col st token = .ok st') (t : String)
    (f : UInt8) : positionsIn st'.1 t f = if t = token.text ∧ f = UInt8.ofNat col
      then positionsIn st.1 t f ++ [token.position] else positionsIn st.1 t f := by
  obtain ⟨n, -, hst⟩ := bind_eq_ok.1 hpush
  cases hst
  have hfields := h.fields_getD token.text
  rcases eq_or_ne t token.text with rfl | hne
  · rcases eq_or_ne f (UInt8.ofNat col) with rfl | hf
    · rw [if_pos ⟨rfl, rfl⟩, positionsIn, valueOf_insertKey_self h.sorted, Option.getD_some,
        valueOf_insertKey_self hfields, Option.getD_some, positionsIn]
    · rw [if_neg fun hc => hf hc.2, positionsIn, valueOf_insertKey_self h.sorted, Option.getD_some,
        valueOf_insertKey_of_ne hfields hf, positionsIn]
  · rw [if_neg fun hc => hne hc.1, positionsIn, valueOf_insertKey_of_ne h.sorted hne, positionsIn]

lemma Grouped.push (h : Grouped doc st) (hpush : pushToken col st token = .ok st') :
    Grouped (doc ++ [(token.text, UInt8.ofNat col, token.position)]) st' := by
  have hplaces := positionsIn_push h hpush
  obtain ⟨n, hadd, hst⟩ := bind_eq_ok.1 hpush
  cases hst
  obtain ⟨hlt, rfl⟩ := addU64_eq_ok.1 hadd
  refine ⟨h.sorted.insertKey, fun t fields hval => ?_, fun t f p => ?_, fun t ht => ?_,
    fun t f => ?_, ?_, hlt⟩
  · rcases eq_or_ne t token.text with rfl | hne
    · rw [valueOf_insertKey_self h.sorted, Option.some.injEq] at hval
      exact hval ▸ (h.fields_getD token.text).insertKey
    · rw [valueOf_insertKey_of_ne h.sorted hne] at hval
      exact h.fields t fields hval
  · rw [hplaces, List.mem_append, List.mem_singleton, h.places, Prod.mk.injEq, Prod.mk.injEq]
    split_ifs with hat
    · rw [List.mem_append, List.mem_singleton]
      simp only [hat.1, hat.2, true_and]
    · exact ⟨fun hp => hp.resolve_right fun hc => hat ⟨hc.1, hc.2.1⟩, Or.inl⟩
  · rcases eq_or_ne t token.text with rfl | hne
    · refine ⟨UInt8.ofNat col, token.position, ?_⟩
      rw [hplaces, if_pos ⟨rfl, rfl⟩]
      simp
    · rw [valueOf_insertKey_of_ne h.sorted hne] at ht
      obtain ⟨f, p, hp⟩ := h.some_place t ht
      refine ⟨f, p, ?_⟩
      rwa [hplaces, if_neg fun hc => hne hc.1]
  · have hle := h.short t f
    rw [hplaces]
    split_ifs
    · rw [List.length_append, List.length_singleton]
      exact Nat.succ_le_succ hle
    · exact hle.trans (Nat.le_succ _)
  · rw [List.length_append, List.length_singleton, ← h.count]

lemma Grouped.pushAll {tokens : List Token} (h : Grouped doc st)
    (hpush : tokens.foldlM (pushToken col) st = .ok st') :
    Grouped (doc ++ tokens.map fun t => (t.text, UInt8.ofNat col, t.position)) st' := by
  induction tokens generalizing doc st with
  | nil =>
    cases hpush
    rwa [List.map_nil, List.append_nil]
  | cons token tokens ih =>
    rw [List.foldlM_cons] at hpush
    obtain ⟨st₁, hstep, hpush⟩ := bind_eq_ok.1 hpush
    have hrest := ih (h.push hstep) hpush
    rwa [List.append_assoc] at hrest

lemma Grouped.pushRecord {cols : List ℕ} (h : Grouped doc st)
    (hg : groupRecord tk record cols st = .ok st') :
    Grouped (doc ++ docOf tk record cols) st' := by
  induction cols generalizing doc st with
  | nil =>
    cases hg
    rwa [docOf, List.flatMap_nil, List.append_nil]
  | cons col cols ih =>
    obtain ⟨v, hv, hg⟩ := bind_eq_ok.1 hg
    obtain ⟨st₁, hpush, hg⟩ := bind_eq_ok.1 hg
    rw [okOr_eq_ok] at hv
    have hdoc : docOf tk record (col :: cols)
        = (tokensOf tk v).map (fun t => (t.text, UInt8.ofNat col, t.position))
          ++ docOf tk record cols := by
      rw [docOf, List.flatMap_cons, hv]
      rfl
    rw [hdoc, ← List.append_assoc]
    exact ih (h.pushAll hpush) hg

lemma grouped_nil : Grouped [] ([], 0) :=
  ⟨List.Pairwise.nil, fun t fields h => (by cases h), fun t f p => by simp [positionsIn, valueOf],
    fun t h => (by cases h), fun t f => Nat.zero_le _, rfl, by decide⟩

lemma grouped_record {cols : List ℕ} (h : groupRecord tk record cols ([], 0) = .ok st) :
    Grouped (docOf tk record cols) st := grouped_nil.pushRecord h

/-- The places of a term are the places of the word. -/
lemma Grouped.mem_places (h : Grouped doc st) {t : String} {fields : Fields}
    (ht : (t, fields) ∈ st.1) (f : UInt8) (p : UInt32) :
    (f, p) ∈ placesOf fields ↔ (t, f, p) ∈ doc := by
  have hval := (mem_iff_valueOf h.sorted).1 ht
  have hs := h.fields t fields hval
  rw [h.places, positionsIn, hval, Option.getD_some, mem_placesOf]
  constructor
  · rintro ⟨ps, hps, hp⟩
    rwa [(mem_iff_valueOf hs).1 hps]
  · intro hp
    cases hf : valueOf f fields with
    | none =>
      rw [hf] at hp
      cases hp
    | some ps =>
      rw [hf] at hp
      exact ⟨ps, (mem_iff_valueOf hs).2 hf, hp⟩

lemma Grouped.lengths_lt (h : Grouped doc st) {t : String} {fields : Fields}
    (ht : (t, fields) ∈ st.1) : ∀ f ∈ fields, f.2.length < 2 ^ 64 := by
  rintro ⟨f, ps⟩ hf
  have hval := (mem_iff_valueOf h.sorted).1 ht
  have hle := h.short t f
  rw [positionsIn, hval, Option.getD_some, (mem_iff_valueOf (h.fields t fields hval)).1 hf] at hle
  exact lt_of_le_of_lt hle h.count_lt

lemma Grouped.term_iff (h : Grouped doc st) (t : String) :
    t ∈ st.1.map Prod.fst ↔ ∃ f p, (t, f, p) ∈ doc := by
  constructor
  · intro ht
    obtain ⟨⟨t, fields⟩, hmem, rfl⟩ := List.mem_map.1 ht
    have hval := (mem_iff_valueOf h.sorted).1 hmem
    obtain ⟨f, p, hp⟩ := h.some_place t (by rw [hval]; rfl)
    exact ⟨f, p, (h.places t f p).2 hp⟩
  · rintro ⟨f, p, hmem⟩
    have hp := (h.places t f p).1 hmem
    cases hval : valueOf t st.1 with
    | none =>
      rw [positionsIn, hval] at hp
      cases hp
    | some fields => exact List.mem_map.2 ⟨(t, fields), (mem_iff_valueOf h.sorted).2 hval, rfl⟩

end Group

/-! ### Reading cells -/

section Scan
variable {fts_id id : UInt32} {kvs : Entries} {ids : String → Option UInt32} {next : UInt32}
  {cells : List Cell} {term : String}

lemma postingRowid_key (rowid : Int64) :
    postingRowid (ftsPostingKey fts_id id rowid) (ftsTermPostingPrefix fts_id id).length
      = .ok rowid := by
  have hread := decodeOint_encodeOint (ftsTermPostingPrefix fts_id id) [] rowid
  rw [List.append_nil] at hread
  rw [postingRowid, ftsPostingKey, hread, okOr_some, ok_bind]

/-- What is read are the places that were written, each with the row of its key. -/
lemma expandPostings_eq {l : Entries} (h : ∀ kv ∈ l, ∃ rowid fields,
      kv.1 = ftsPostingKey fts_id id rowid ∧ encodePostingValue fields = .ok kv.2 ∧
        ∀ f ∈ fields, f.2.length < 2 ^ 64) :
    ∃ ps, expandPostings (ftsTermPostingPrefix fts_id id).length l = .ok ps ∧
      ∀ rowid f p, (rowid, f, p) ∈ ps ↔ ∃ v, (ftsPostingKey fts_id id rowid, v) ∈ l ∧
        ∃ places, decodePostingValue v = .ok places ∧ (f, p) ∈ places := by
  induction l with
  | nil => exact ⟨[], rfl, by simp⟩
  | cons kv l ih =>
    obtain ⟨key, v⟩ := kv
    obtain ⟨hhead, htail⟩ := List.forall_mem_cons.1 h
    obtain ⟨rowid, fields, hkey, henc, hshort⟩ := hhead
    obtain ⟨ps, hrest, hps⟩ := ih htail
    dsimp only at hkey henc
    subst hkey
    have hdec := decodePostingValue_encode henc hshort
    refine ⟨(placesOf fields).map (fun p => (rowid, p)) ++ ps, ?_, fun rid f p => ?_⟩
    · rw [expandPostings, postingRowid_key, ok_bind, hdec, ok_bind, hrest, ok_bind]
    · rw [List.mem_append, hps]
      constructor
      · rintro (hmem | ⟨w, hw, hplace⟩)
        · obtain ⟨q, hq, heq⟩ := List.mem_map.1 hmem
          cases heq
          exact ⟨v, List.mem_cons_self, _, hdec, hq⟩
        · exact ⟨w, List.mem_cons_of_mem _ hw, hplace⟩
      · rintro ⟨w, hw, places, hdec', hplace⟩
        rcases List.mem_cons.1 hw with heq | hw
        · rw [Prod.mk.injEq, ftsPostingKey_inj] at heq
          obtain ⟨⟨-, rfl⟩, rfl⟩ := heq
          rw [hdec, Except.ok.injEq] at hdec'
          exact Or.inl (List.mem_map.2 ⟨(f, p), hdec' ▸ hplace, rfl⟩)
        · exact Or.inr ⟨w, hw, places, hdec', hplace⟩

/-- The keys that begin with the number of a term are those of its cells. -/
lemma posting_of_prefix {key : Bytes} (hkey : TermKey fts_id key ∨ LengthKey fts_id key)
    (hp : ftsTermPostingPrefix fts_id id <+: key) :
    ∃ rowid, key = ftsPostingKey fts_id id rowid := by
  have hspace {k : Key} (hk : k.bytes = key) : k.space = .ftsPosting := by
    obtain ⟨rest, rfl⟩ := hp
    have hread := spaceOf_fts fts_id FTS_POSTING (encodeOint (Int64.ofNat id.toNat) ++ rest)
    rw [← List.append_assoc] at hread
    have hbytes : spaceOf k.bytes = ftsSpaces[FTS_POSTING.toNat]? := hk ▸ hread
    rw [spaceOf_bytes] at hbytes
    exact Option.some.inj hbytes
  rcases hkey with hkey | hkey
  · cases hkey with
    | dict t => cases hspace (k := .ftsTermDict fts_id t) rfl
    | df t => cases hspace (k := .ftsDf fts_id t) rfl
    | counter => cases hspace (k := .ftsTermCounter fts_id) rfl
    | posting id' rowid => exact ⟨rowid, by rw [ term_of_prefix hp]⟩
  · cases hkey with
    | doclen rowid => cases hspace (k := .ftsDoclen fts_id rowid) rfl
    | global => cases hspace (k := .ftsGlobal fts_id) rfl

end Scan

section Read
variable {tk : String → List Token} {fts : FtsIndexDef} {rows : List (Int64 × List Value)}
  {kvs : Entries} {term : String}

lemma TextIndex.grouped_row (h : TextIndex tk fts rows kvs) {r : Int64 × List Value} (hr : r ∈ rows) :
    Grouped (docOf tk r.2 fts.columns) (rowTerms tk fts r.2) := by
  obtain ⟨g, hg⟩ := h.grouped r hr
  rw [rowTerms_eq hg]
  exact grouped_record hg

lemma mem_cells {c : Cell} : c ∈ (rows.flatMap fun r => rowCells r.1 (rowTerms tk fts r.2).1) ↔
    ∃ record, (c.1.1, record) ∈ rows ∧ (c.1.2, c.2) ∈ (rowTerms tk fts record).1 := by
  obtain ⟨⟨rowid, t⟩, fields⟩ := c
  simp only [List.mem_flatMap, rowCells, List.mem_map, Prod.exists, Prod.mk.injEq]
  constructor
  · rintro ⟨rid, record, hr, t', fields', hmem, ⟨rfl, rfl⟩, rfl⟩
    exact ⟨record, hr, hmem⟩
  · rintro ⟨record, hr, hmem⟩
    exact ⟨rowid, record, hr, t, fields, hmem, ⟨rfl, rfl⟩, rfl⟩

/-- The cells of a term are read as the places of the word in the rows. -/
lemma TextIndex.scan (h : TextIndex tk fts rows kvs) {ids : String → Option UInt32} {next id : UInt32}
    (hterms : TermIndex fts.fts_id ids next
      (rows.flatMap fun r => rowCells r.1 (rowTerms tk fts r.2).1) kvs) (hid : ids term = some id) :
    ∃ ps, (scanTermPostings fts.fts_id id).onMap kvs = .ok (ps, kvs) ∧ ∀ rowid f p,
      (rowid, f, p) ∈ ps ↔ ∃ record, (rowid, record) ∈ rows ∧
        (term, f, p) ∈ docOf tk record fts.columns := by
  have hcell (kv : Bytes × Bytes) (hkv : kv ∈ kvs.filter fun kv =>
      decide (ftsTermPostingPrefix fts.fts_id id <+: kv.1)) : ∃ rowid record fields,
        kv.1 = ftsPostingKey fts.fts_id id rowid ∧ encodePostingValue fields = .ok kv.2 ∧
          (rowid, record) ∈ rows ∧ (term, fields) ∈ (rowTerms tk fts record).1 := by
    obtain ⟨hmem, hp⟩ := List.mem_filter.1 hkv
    have hp : ftsTermPostingPrefix fts.fts_id id <+: kv.1 := of_decide_eq_true hp
    have hval := (mem_iff_valueOf hterms.sorted).1 (show (kv.1, kv.2) ∈ kvs from hmem)
    have hbegins : ftsIdPrefix fts.fts_id <+: kv.1 := by
      refine List.IsPrefix.trans ?_ hp
      rw [ftsTermPostingPrefix, ftsSubPrefix, List.append_assoc]
      exact List.prefix_append _ _
    obtain ⟨rowid, hkey⟩ := posting_of_prefix (h.keys kv.1 hbegins (by rw [hval]; rfl)) hp
    rw [hkey] at hval
    obtain ⟨t, fields, hi, hmem', henc⟩ := (hterms.postings id rowid kv.2).1 hval
    obtain rfl := hterms.inj t term id hi hid
    obtain ⟨record, hr, hmem'⟩ := mem_cells.1 hmem'
    exact ⟨rowid, record, fields, hkey, henc, hr, hmem'⟩
  obtain ⟨ps, hexpand, hps⟩ := expandPostings_eq (l := kvs.filter fun kv =>
      decide (ftsTermPostingPrefix fts.fts_id id <+: kv.1)) fun kv hkv => by
    obtain ⟨rowid, record, fields, hkey, henc, hr, hmem⟩ := hcell kv hkv
    exact ⟨rowid, fields, hkey, henc, (h.grouped_row hr).lengths_lt hmem⟩
  refine ⟨ps, ?_, fun rowid f p => ?_⟩
  · rw [scanTermPostings, TreeM.onMap_bind, TreeM.onMap_readFrom, ok_bind]
    dsimp only
    rw [TreeM.onMap_lift, takeWhile_fromKey hterms.sorted, hexpand, ok_bind]
  · rw [hps]
    constructor
    · rintro ⟨v, hv, places, hdec, hplace⟩
      obtain ⟨rid, record, fields, hkey, henc, hr, hmem⟩ := hcell _ hv
      have hgroup := h.grouped_row hr
      obtain ⟨-, rfl⟩ := ftsPostingKey_inj.1 hkey
      rw [decodePostingValue_encode henc (hgroup.lengths_lt hmem), Except.ok.injEq] at hdec
      subst hdec
      exact ⟨record, hr, (hgroup.mem_places hmem f p).1 hplace⟩
    · rintro ⟨record, hr, hword⟩
      have hgroup := h.grouped_row hr
      obtain ⟨⟨t, fields⟩, hmem, rfl⟩ := List.mem_map.1 ((hgroup.term_iff term).2 ⟨f, p, hword⟩)
      have hcell' := mem_cells (c := ((rowid, t), fields)).2 ⟨record, hr, hmem⟩
      obtain ⟨v, henc⟩ := hterms.encodes ((rowid, t), fields) hcell'
      have hval := (hterms.postings id rowid v).2 ⟨t, fields, hid, hcell', henc⟩
      refine ⟨v, List.mem_filter.2 ⟨(mem_iff_valueOf hterms.sorted).2 hval, ?_⟩, placesOf fields,
        decodePostingValue_encode henc (hgroup.lengths_lt hmem), (hgroup.mem_places hmem f p).2 hword⟩
      exact decide_eq_true (List.prefix_append _ _)

lemma TextIndex.termPostings (h : TextIndex tk fts rows kvs) (term : String) :
    ∃ ps, (ftsTermPostings fts.fts_id term).onMap kvs = .ok (ps, kvs) ∧ ∀ rowid f p,
      (rowid, f, p) ∈ ps ↔ ∃ record, (rowid, record) ∈ rows ∧
        (term, f, p) ∈ docOf tk record fts.columns := by
  obtain ⟨ids, next, hterms⟩ := h.terms
  rw [ftsTermPostings, TreeM.onMap_bind, hterms.lookup, ok_bind]
  dsimp only
  cases hid : ids term with
  | some id => exact h.scan hterms hid
  | none =>
    refine ⟨[], rfl, fun rowid f p => ⟨fun hmem => (by cases hmem), ?_⟩⟩
    rintro ⟨record, hr, hword⟩
    obtain ⟨⟨t, fields⟩, hmem, rfl⟩ :=
      List.mem_map.1 (((h.grouped_row hr).term_iff term).2 ⟨f, p, hword⟩)
    exact (hterms.unknown hid _ (mem_cells (c := ((rowid, t), fields)).2 ⟨record, hr, hmem⟩) rfl).elim

end Read

/-! ### The statistics -/

/-- What is read off the index: its numbers are those of the rows, and its postings the places of
their words. -/
structure Statistics (tk : String → List Token) (fts : FtsIndexDef)
    (rows : List (Int64 × List Value)) (kvs : Entries) : Prop where
  totals : (ftsReadGlobal fts.fts_id).onMap kvs = .ok ((rows.length,
    (rows.map fun r => (docOf tk r.2 fts.columns).length).sum), kvs)
  length : ∀ r ∈ rows, (ftsReadVarint (ftsDoclenKey fts.fts_id r.1)).onMap kvs
    = .ok ((docOf tk r.2 fts.columns).length, kvs)
  no_length : ∀ rowid, rowid ∉ rows.map Prod.fst →
    (ftsReadVarint (ftsDoclenKey fts.fts_id rowid)).onMap kvs = .ok (0, kvs)
  frequency : ∀ term, (ftsReadVarint (ftsDfKey fts.fts_id term)).onMap kvs
    = .ok (rows.countP fun r => docHasTerm (docOf tk r.2 fts.columns) term false none, kvs)
  postings : ∀ term, ∃ ps, (ftsTermPostings fts.fts_id term).onMap kvs = .ok (ps, kvs) ∧
    ∀ rowid f p, (rowid, f, p) ∈ ps ↔ ∃ record, (rowid, record) ∈ rows ∧
      (term, f, p) ∈ docOf tk record fts.columns

section Statistics
variable {tokenize : String → String → List Token} {tk : String → List Token} {fts : FtsIndexDef}
  {rows : List (Int64 × List Value)} {kvs kvs' : Entries} {key : Bytes} {n : ℕ}

lemma ftsReadVarint_onMap (hlt : n < 2 ^ 64)
    (h : valueOf key kvs = some (putVarint n) ∨ valueOf key kvs = none ∧ n = 0) :
    (ftsReadVarint key).onMap kvs = .ok (n, kvs) := by
  rw [ftsReadVarint, TreeM.onMap_bind, TreeM.onMap_read, ok_bind]
  dsimp only
  rcases h with h | ⟨h, rfl⟩
  · have htake := takeVarint_head hlt []
    rw [List.append_nil] at htake
    simp [h, htake]
  · rw [h]
    rfl

lemma docHasTerm_iff {doc : Doc} {term : String} :
    docHasTerm doc term false none = true ↔ ∃ f p, (term, f, p) ∈ doc := by
  simp only [docHasTerm, List.any_eq_true, Prod.exists, inField, wordIs, Option.all_none,
    Bool.true_and, Bool.false_eq_true, if_false, beq_iff_eq]
  constructor
  · rintro ⟨t, f, p, hmem, rfl⟩
    exact ⟨f, p, hmem⟩
  · rintro ⟨f, p, hmem⟩
    exact ⟨term, f, p, hmem, rfl⟩

lemma docFreq_rowCells {per_term : PerTerm} (hs : SortedMap per_term) (rowid : Int64) (term : String) :
    docFreq (rowCells rowid per_term) term = if term ∈ per_term.map Prod.fst then 1 else 0 := by
  induction per_term with
  | nil => rfl
  | cons p per_term ih =>
    obtain ⟨hlt, hs⟩ := sortedMap_cons.1 hs
    rw [rowCells, List.map_cons, docFreq_cons, ← rowCells, ih hs, List.map_cons]
    by_cases hp : p.1 = term
    · have hnot : term ∉ per_term.map Prod.fst := by
        intro hmem
        obtain ⟨q, hq, heq⟩ := List.mem_map.1 hmem
        exact (hlt q hq).ne (hp.trans heq.symm)
      simp [hp, hnot]
    · rw [if_neg hp, Nat.add_zero]
      exact (if_congr (by rw [List.mem_cons, or_iff_right (Ne.symm hp)]) rfl rfl).symm

/-- The document frequency is the number of rows with the word. -/
lemma docFreq_rows (h : ∀ r ∈ rows, Grouped (docOf tk r.2 fts.columns) (rowTerms tk fts r.2))
    (term : String) : docFreq (rows.flatMap fun r => rowCells r.1 (rowTerms tk fts r.2).1) term
      = rows.countP fun r => docHasTerm (docOf tk r.2 fts.columns) term false none := by
  induction rows with
  | nil => rfl
  | cons r rows ih =>
    obtain ⟨hr, hrows⟩ := List.forall_mem_cons.1 h
    have hiff : term ∈ (rowTerms tk fts r.2).1.map Prod.fst ↔
        docHasTerm (docOf tk r.2 fts.columns) term false none = true := by
      rw [docHasTerm_iff, hr.term_iff]
    rw [List.flatMap_cons, docFreq, List.countP_append, ← docFreq, ← docFreq, ih hrows,
      docFreq_rowCells hr.sorted, List.countP_cons, Nat.add_comm]
    simp only [hiff]

/-- An index of rows has the statistics of the rows. -/
lemma TextIndex.statistics (h : TextIndex tk fts rows kvs) : Statistics tk fts rows kvs := by
  obtain ⟨ids, next, hterms⟩ := h.terms
  have hcount {r : Int64 × List Value} (hr : r ∈ rows) :
      (rowTerms tk fts r.2).2 = (docOf tk r.2 fts.columns).length := (h.grouped_row hr).count
  have hlengths : (rows.map fun r => (r.1, (rowTerms tk fts r.2).2))
      = rows.map fun r => (r.1, (docOf tk r.2 fts.columns).length) :=
    List.map_congr_left fun r hr => by rw [hcount hr]
  refine ⟨?_, fun r hr => ?_, fun rowid hnot => ?_, fun term => ?_, h.termPostings⟩
  · have hread := h.lengths.readGlobal rfl
    rw [hlengths, List.length_map, List.map_map] at hread
    exact hread
  · have hlt : (docOf tk r.2 fts.columns).length < 2 ^ 64 := by
      rw [← hcount hr]
      exact (h.grouped_row hr).count_lt
    refine ftsReadVarint_onMap hlt ?_
    cases hval : valueOf (ftsDoclenKey fts.fts_id r.1) kvs with
    | some v =>
      obtain ⟨n, hmem, -, rfl⟩ := (h.lengths.doclen r.1 v).1 hval
      obtain ⟨r', hr', heq⟩ := List.mem_map.1 hmem
      obtain rfl := List.inj_on_of_nodup_map h.rowids hr' hr (Prod.mk.inj heq).1
      rw [← (Prod.mk.inj heq).2, hcount hr]
      exact Or.inl rfl
    | none =>
      refine Or.inr ⟨rfl, Nat.eq_zero_of_not_pos fun hpos => ?_⟩
      rw [← hcount hr] at hpos
      have hstored := (h.lengths.doclen r.1 _).2 ⟨_, List.mem_map.2 ⟨r, hr, rfl⟩, hpos, rfl⟩
      rw [hval] at hstored
      cases hstored
  · refine ftsReadVarint_onMap (by decide) (Or.inr ⟨?_, rfl⟩)
    refine Option.eq_none_iff_forall_ne_some.2 fun v hval => ?_
    obtain ⟨n, hmem, -⟩ := (h.lengths.doclen rowid v).1 hval
    obtain ⟨r, hr, heq⟩ := List.mem_map.1 hmem
    exact hnot (List.mem_map.2 ⟨r, hr, (Prod.mk.inj heq).1⟩)
  · have hdf := hterms.df term
    have hlt := hterms.df_lt term
    rw [docFreq_rows fun r hr => h.grouped_row hr] at hdf hlt
    refine ftsReadVarint_onMap hlt ?_
    rw [hdf]
    split_ifs with hzero
    · exact Or.inr ⟨rfl, hzero⟩
    · exact Or.inl rfl

/-- Whatever rows have gone into an index and out of it, one that is there can be taken out, the
numbers are those of the rows that are there, and its postings read as their words; the rest of the
map is as it was. -/
theorem text_index_follows_rows (tokenize : String → String → List Token) (fts : FtsIndexDef)
    (htok : fts.tokenizer = "unicode" ∨ fts.tokenizer = "ascii") (kvs : Entries)
    (hs : SortedMap kvs) (hempty : ∀ key, ftsIdPrefix fts.fts_id <+: key → valueOf key kvs = none)
    (changes : List RowChange) (rows : List (Int64 × List Value))
    (hrows : changes.foldlM RowChange.after [] = some rows) (kvs' : Entries)
    (hrun : (applyChanges tokenize fts changes).onMap kvs = .ok ((), kvs')) :
    Statistics (tokenize fts.tokenizer) fts rows kvs' ∧
      (∀ rowid record, (rowid, record) ∈ rows →
        ∃ kvs'', (applyFtsRow tokenize fts rowid record false).onMap kvs' = .ok ((), kvs'')) ∧
      ∀ key, ¬ ftsIdPrefix fts.fts_id <+: key → valueOf key kvs' = valueOf key kvs := by
  have htk : tokenizerFor tokenize fts.tokenizer = .ok (tokenize fts.tokenizer) := by
    rw [tokenizerFor, require_pos htok, ok_bind]
  have hnew : TextIndex (tokenize fts.tokenizer) fts [] kvs := .empty hs hempty
  have h := hnew.run htk hrows hrun
  have hlocal : MapProgram.LocalTo TreeM.keyCheck
      (fun key => TermKey fts.fts_id key ∨ LengthKey fts.fts_id key)
      (applyChanges tokenize fts changes) := by
    clear hrows hrun
    induction changes with
    | nil => exact .pure ()
    | cons c cs ih =>
      refine .bind ?_ fun _ => ih
      cases c <;> exact localTo_applyFtsRow _
  refine ⟨h.statistics, fun rowid record hmem => ?_, fun key hkey => ?_⟩
  · obtain ⟨kvs'', hrun, -⟩ := (h.perm (List.perm_cons_erase hmem)).removeRow htk
    exact ⟨kvs'', hrun⟩
  · exact hlocal.keeps hs hrun fun hk => hkey (hk.elim TermKey.begins LengthKey.begins)

/-- The theorem at a row that comes, another one, and the first one going again. -/
theorem text_index_follows_rows_one : ∃ kvs,
    (applyChanges (fun _ t => [⟨t, 0⟩]) ⟨"f", 1, [0], "ascii"⟩
      [.add 1 [.text "a"], .add 2 [.text "b"], .remove 1 [.text "a"]]).onMap [] = .ok ((), kvs) ∧
    Statistics (fun t => [⟨t, 0⟩]) ⟨"f", 1, [0], "ascii"⟩ [(2, [.text "b"])] kvs := by
  refine ⟨[([3, 0, 0, 0, 1, 0, 129, 2, 129, 2], [0, 1, 0]),
    ([3, 0, 0, 0, 1, 1, 128, 0, 0, 0, 0, 0, 0, 2], [1]), ([3, 0, 0, 0, 1, 2], [1, 1]),
    ([3, 0, 0, 0, 1, 3, 1, 98, 0, 0], [1]), ([3, 0, 0, 0, 1, 4, 1, 97, 0, 0], [0, 0, 0, 1]),
    ([3, 0, 0, 0, 1, 4, 1, 98, 0, 0], [0, 0, 0, 2]), ([3, 0, 0, 0, 1, 5], [3, 0, 0, 0])],
    by decide +kernel, ?_⟩
  exact (text_index_follows_rows (fun _ t => [⟨t, 0⟩]) ⟨"f", 1, [0], "ascii"⟩ (Or.inr rfl) []
    List.Pairwise.nil (fun _ _ => rfl)
    [.add 1 [.text "a"], .add 2 [.text "b"], .remove 1 [.text "a"]] [(2, [.text "b"])]
    (by decide +kernel) _ (by decide +kernel)).1

end Statistics

end Catalog

end Arkeion
