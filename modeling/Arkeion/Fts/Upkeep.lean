import Arkeion.Fts.Backfill
import Arkeion.SearchEntries

/-!
What the index holds after any number of rows have been put into it and taken out of it: the cells
of the rows that are there, and the numbers that go with them.

The terms and the lengths of rows stand under keys of their own, so they are followed apart.
-/

namespace Arkeion

open Arkeion.Lib Btree

namespace Catalog

/-! ### Keys that tell terms and rows apart -/

section Keys
variable {fts_id id id' : UInt32} {rowid rowid' : Int64} {term : String} {key : Bytes}

lemma int64_trichotomy (i j : Int64) : i < j ∨ i = j ∨ j < i := by
  rcases lt_trichotomy i.toInt j.toInt with h | h | h
  · exact Or.inl (Int64.lt_iff_toInt_lt.2 h)
  · exact Or.inr (Or.inl (Int64.toInt_inj.1 h))
  · exact Or.inr (Or.inr (Int64.lt_iff_toInt_lt.2 h))

lemma ofNat_toNat_inj (h : Int64.ofNat id.toNat = Int64.ofNat id'.toNat) : id = id' := by
  have hint := congrArg Int64.toInt h
  rw [toInt_table, toInt_table] at hint
  exact UInt32.toNat_inj.1 (by exact_mod_cast hint)

/-- No number of a term begins that of another one. -/
lemma term_of_prefix (h : ftsTermPostingPrefix fts_id id <+: ftsPostingKey fts_id id' rowid) :
    id = id' := by
  rw [ftsPostingKey, ftsTermPostingPrefix, ftsTermPostingPrefix, List.append_assoc,
    List.prefix_append_right_inj] at h
  exact ofNat_toNat_inj (encodeOint_keepsOrder.eq_of_prefix (int64_trichotomy _ _) h)

lemma ftsPostingKey_inj :
    ftsPostingKey fts_id id rowid = ftsPostingKey fts_id id' rowid' ↔ id = id' ∧ rowid = rowid' := by
  constructor
  · intro h
    have hp : ftsTermPostingPrefix fts_id id <+: ftsPostingKey fts_id id rowid :=
      List.prefix_append _ _
    rw [h] at hp
    obtain rfl := term_of_prefix hp
    have hrow := List.append_cancel_left h
    exact ⟨rfl, (encodeOint_keepsOrder.eq_iff (int64_trichotomy _ _)).1 hrow⟩
  · rintro ⟨rfl, rfl⟩
    rfl

lemma ftsDoclenKey_inj :
    ftsDoclenKey fts_id rowid = ftsDoclenKey fts_id rowid' ↔ rowid = rowid' := by
  refine ⟨fun h => ?_, fun h => h ▸ rfl⟩
  exact (rowidBe_keepsOrder.eq_iff (int64_trichotomy _ _)).1 (List.append_cancel_left h)

lemma posting_ne_doclen : ftsPostingKey fts_id id rowid ≠ ftsDoclenKey fts_id rowid' :=
  Key.bytes_ne (.ftsPosting fts_id id rowid) (.ftsDoclen fts_id rowid') (by simp [Key.space])

/-- The keys that the terms of a row go by. -/
inductive TermKey (fts_id : UInt32) : Bytes → Prop
  | dict (term : String) : TermKey fts_id (ftsTermDictKey fts_id term)
  | df (term : String) : TermKey fts_id (ftsDfKey fts_id term)
  | counter : TermKey fts_id (ftsTermCounterKey fts_id)
  | posting (id : UInt32) (rowid : Int64) : TermKey fts_id (ftsPostingKey fts_id id rowid)

/-- The keys that the length of a row goes by. -/
inductive LengthKey (fts_id : UInt32) : Bytes → Prop
  | doclen (rowid : Int64) : LengthKey fts_id (ftsDoclenKey fts_id rowid)
  | global : LengthKey fts_id (ftsGlobalKey fts_id)

lemma CellKey.begins (h : CellKey fts_id key) : ftsIdPrefix fts_id <+: key := by
  cases h with
  | posting id rowid =>
    rw [ftsPostingKey, ftsTermPostingPrefix, ftsSubPrefix, List.append_assoc, List.append_assoc]
    exact List.prefix_append _ _
  | doclen rowid =>
    rw [ftsDoclenKey, ftsSubPrefix, List.append_assoc]
    exact List.prefix_append _ _

lemma TermKey.begins (h : TermKey fts_id key) : ftsIdPrefix fts_id <+: key := by
  cases h with
  | dict term => exact (StatKey.dict term).begins
  | df term => exact (StatKey.df term).begins
  | counter => exact StatKey.counter.begins
  | posting id rowid => exact (CellKey.posting id rowid).begins

lemma LengthKey.begins (h : LengthKey fts_id key) : ftsIdPrefix fts_id <+: key := by
  cases h with
  | doclen rowid => exact (CellKey.doclen rowid).begins
  | global => exact StatKey.global.begins

lemma TermKey.not_length (h : TermKey fts_id key) : ¬ LengthKey fts_id key := by
  intro hl
  cases hl with
  | doclen rowid =>
    generalize hk : ftsDoclenKey fts_id rowid = k at h
    cases h with
    | dict term => exact (CellKey.doclen rowid).ne_stat (.dict term) hk
    | df term => exact (CellKey.doclen rowid).ne_stat (.df term) hk
    | counter => exact (CellKey.doclen rowid).ne_stat .counter hk
    | posting id rowid' => exact posting_ne_doclen hk.symm
  | global =>
    generalize hk : ftsGlobalKey fts_id = k at h
    cases h with
    | dict term => exact dict_ne_global hk.symm
    | df term => exact df_ne_global hk.symm
    | counter => exact counter_ne_global hk.symm
    | posting id rowid => exact (CellKey.posting id rowid).ne_stat .global hk.symm

end Keys

/-! ### The terms -/

/-- The places of a term in a row. -/
abbrev Cell := (Int64 × String) × Fields

/-- The number of rows that have a term. -/
def docFreq (cells : List Cell) (term : String) : ℕ := cells.countP fun c => c.1.2 = term

/-- The dictionary numbers the terms, and the postings and the document frequencies are those of
the cells. -/
structure TermIndex (fts_id : UInt32) (ids : String → Option UInt32) (next : UInt32)
    (cells : List Cell) (kvs : Entries) : Prop where
  sorted : SortedMap kvs
  nodup : (cells.map Prod.fst).Nodup
  known : ∀ c ∈ cells, (ids c.1.2).isSome
  encodes : ∀ c ∈ cells, ∃ v, encodePostingValue c.2 = .ok v
  fits : ∀ term, (ids term).isSome → TreeM.keyCheck (ftsTermDictKey fts_id term) = .ok ()
  next_pos : 1 ≤ next
  below : ∀ term id, ids term = some id → id < next
  inj : ∀ term term' id, ids term = some id → ids term' = some id → term = term'
  df_lt : ∀ term, docFreq cells term < 2 ^ 64
  dict : ∀ term, valueOf (ftsTermDictKey fts_id term) kvs
    = (ids term).map fun id => beBytes 4 id.toNat
  counter : valueOf (ftsTermCounterKey fts_id) kvs
    = if 1 < next then some (leBytes 4 next.toNat) else none
  df : ∀ term, valueOf (ftsDfKey fts_id term) kvs
    = if docFreq cells term = 0 then none else some (putVarint (docFreq cells term))
  postings : ∀ id rowid v, valueOf (ftsPostingKey fts_id id rowid) kvs = some v ↔
    ∃ term fields, ids term = some id ∧ ((rowid, term), fields) ∈ cells ∧
      encodePostingValue fields = .ok v

section Terms
variable {fts_id id next : UInt32} {ids : String → Option UInt32} {cells cells' : List Cell}
  {kvs kvs' : Entries} {rowid : Int64} {term : String} {fields : Fields} {key value : Bytes}

lemma docFreq_cons (c : Cell) (t : String) :
    docFreq (c :: cells) t = docFreq cells t + if c.1.2 = t then 1 else 0 := by
  simp [docFreq, List.countP_cons]

/-- Only what the cells are counts, and not their order. -/
lemma TermIndex.perm (h : TermIndex fts_id ids next cells kvs) (hp : cells.Perm cells') :
    TermIndex fts_id ids next cells' kvs := by
  have hdf (t : String) : docFreq cells' t = docFreq cells t := (hp.countP_eq _).symm
  refine { h with
    nodup := (hp.map _).nodup_iff.1 h.nodup
    known := fun c hc => h.known c (hp.mem_iff.2 hc)
    encodes := fun c hc => h.encodes c (hp.mem_iff.2 hc)
    df_lt := fun t => hdf t ▸ h.df_lt t
    df := fun t => hdf t ▸ h.df t
    postings := fun id rowid v => ?_ }
  rw [h.postings]
  simp only [hp.mem_iff]

/-- The terms of a map that agrees on their keys. -/
lemma TermIndex.congr (h : TermIndex fts_id ids next cells kvs) (hs : SortedMap kvs')
    (heq : ∀ key, TermKey fts_id key → valueOf key kvs' = valueOf key kvs) :
    TermIndex fts_id ids next cells kvs' :=
  { h with
    sorted := hs
    dict := fun t => (heq _ (.dict t)).trans (h.dict t)
    counter := (heq _ .counter).trans h.counter
    df := fun t => (heq _ (.df t)).trans (h.df t)
    postings := fun id rowid v => by rw [heq _ (.posting id rowid), h.postings] }

lemma TermIndex.lookup (h : TermIndex fts_id ids next cells kvs) (term : String) :
    (ftsLookupTermId fts_id term).onMap kvs = .ok (ids term, kvs) := by
  rw [ftsLookupTermId, TreeM.onMap_bind, TreeM.onMap_read, ok_bind]
  dsimp only
  rw [h.dict term]
  cases ids term with
  | none => rfl
  | some id => simp [u32OfBytes_be]

/-- A term without a number is in no cell. -/
lemma TermIndex.unknown (h : TermIndex fts_id ids next cells kvs) (hnone : ids term = none) :
    ∀ c ∈ cells, c.1.2 ≠ term := by
  rintro c hc rfl
  have hk := h.known c hc
  rw [hnone] at hk
  cases hk

/-- The number of a new term. -/
lemma TermIndex.allocate (h : TermIndex fts_id ids next cells kvs) (hnone : ids term = none)
    (hlt : next.toNat + 1 < 2 ^ 32) (hcheck : TreeM.keyCheck (ftsTermDictKey fts_id term) = .ok ()) :
    TermIndex fts_id (Function.update ids term (some next)) (next + 1) cells
      (insertKey (ftsTermDictKey fts_id term) (beBytes 4 next.toNat)
        (insertKey (ftsTermCounterKey fts_id) (leBytes 4 (next + 1).toNat) kvs)) := by
  have hsorted : SortedMap (insertKey (ftsTermCounterKey fts_id) (leBytes 4 (next + 1).toNat) kvs) :=
    h.sorted.insertKey
  have hnext : (next + 1).toNat = next.toNat + 1 := by
    rw [UInt32.toNat_add]
    exact Nat.mod_eq_of_lt hlt
  have hother {k : Bytes} (hdict : k ≠ ftsTermDictKey fts_id term)
      (hcounter : k ≠ ftsTermCounterKey fts_id) :
      valueOf k (insertKey (ftsTermDictKey fts_id term) (beBytes 4 next.toNat)
        (insertKey (ftsTermCounterKey fts_id) (leBytes 4 (next + 1).toNat) kvs)) = valueOf k kvs := by
    rw [valueOf_insertKey_of_ne hsorted hdict, valueOf_insertKey_of_ne h.sorted hcounter]
  -- every other term keeps its number
  have hids {t : String} {i : UInt32} (hi : Function.update ids term (some next) t = some i) :
      t = term ∧ i = next ∨ t ≠ term ∧ ids t = some i := by
    rcases eq_or_ne t term with rfl | hne
    · rw [Function.update_self, Option.some.injEq] at hi
      exact Or.inl ⟨rfl, hi.symm⟩
    · rw [Function.update_of_ne hne] at hi
      exact Or.inr ⟨hne, hi⟩
  have hpos : 1 < next + 1 := by
    have hone : 1 ≤ next.toNat := UInt32.le_iff_toNat_le.1 h.next_pos
    rw [UInt32.lt_iff_toNat_lt, hnext]
    exact Nat.lt_succ_of_le hone
  refine ⟨hsorted.insertKey, h.nodup, fun c hc => ?_, h.encodes, fun t ht => ?_,
    UInt32.le_of_lt hpos, fun t i hi => ?_, fun t t' i hi hi' => ?_, h.df_lt, fun t => ?_, ?_,
    fun t => ?_, fun i rid v => ?_⟩
  · rw [Function.update_of_ne (h.unknown hnone c hc)]
    exact h.known c hc
  · rcases eq_or_ne t term with rfl | hne
    · exact hcheck
    · rw [Function.update_of_ne hne] at ht
      exact h.fits t ht
  · rw [UInt32.lt_iff_toNat_lt, hnext]
    rcases hids hi with ⟨-, rfl⟩ | ⟨-, hi⟩
    · exact Nat.lt_succ_self _
    · exact Nat.lt_succ_of_lt (UInt32.lt_iff_toNat_lt.1 (h.below t i hi))
  · rcases hids hi with ⟨rfl, rfl⟩ | ⟨-, hold⟩
    · rcases hids hi' with ⟨rfl, -⟩ | ⟨-, hold'⟩
      · rfl
      · exact absurd (h.below t' i hold') (UInt32.lt_irrefl i)
    · rcases hids hi' with ⟨-, rfl⟩ | ⟨-, hold'⟩
      · exact absurd (h.below t i hold) (UInt32.lt_irrefl i)
      · exact h.inj t t' i hold hold'
  · rcases eq_or_ne t term with rfl | hne
    · rw [valueOf_insertKey_self hsorted, Function.update_self, Option.map_some]
    · rw [hother (fun heq => hne (ftsTermDictKey_inj.1 heq)) dict_ne_counter,
        Function.update_of_ne hne, h.dict]
  · rw [valueOf_insertKey_of_ne hsorted dict_ne_counter.symm, valueOf_insertKey_self h.sorted,
      if_pos hpos]
  · rw [hother dict_ne_df.symm df_ne_counter, h.df]
  · rw [hother ((CellKey.posting i rid).ne_stat (.dict term))
      ((CellKey.posting i rid).ne_stat .counter), h.postings]
    constructor
    · rintro ⟨t, f, hi, hmem, hv⟩
      refine ⟨t, f, ?_, hmem, hv⟩
      rw [Function.update_of_ne (h.unknown hnone _ hmem), hi]
    · rintro ⟨t, f, hi, hmem, hv⟩
      rw [Function.update_of_ne (h.unknown hnone _ hmem)] at hi
      exact ⟨t, f, hi, hmem, hv⟩

/-- A term that is looked for to be written has a number from then on. -/
lemma TermIndex.alloc (h : TermIndex fts_id ids next cells kvs)
    (hr : (ftsAllocTermId fts_id term).onMap kvs = .ok (id, kvs')) :
    ∃ ids' next', TermIndex fts_id ids' next' cells kvs' ∧ ids' term = some id := by
  rw [ftsAllocTermId, TreeM.onMap_bind, h.lookup, ok_bind] at hr
  cases hid : ids term with
  | some i =>
    rw [hid] at hr
    cases hr
    exact ⟨ids, next, h, hid⟩
  | none =>
    have hcount : nextId (valueOf (ftsTermCounterKey fts_id) kvs) "contador de términos FTS"
        = .ok next := by
      rw [h.counter]
      split_ifs with hlt
      · exact u32OfBytes_le _ _
      · rw [nextId]
        congr 1
        exact UInt32.le_antisymm h.next_pos (UInt32.not_lt.1 hlt)
    rw [hid] at hr
    simp only [TreeM.onMap_bind, TreeM.onMap_read, TreeM.onMap_lift, TreeM.onMap_write, ok_bind,
      hcount, keyCheck_counter] at hr
    obtain ⟨⟨after, m⟩, hafter, hr⟩ := bind_eq_ok.1 hr
    obtain ⟨after', hadd, hafter⟩ := bind_eq_ok.1 hafter
    cases hafter
    obtain ⟨u, hlt, hadd⟩ := bind_eq_ok.1 hadd
    cases hadd
    rw [require_eq_ok] at hlt
    obtain ⟨⟨u', m'⟩, hwrite, hr⟩ := bind_eq_ok.1 hr
    obtain ⟨u'', hcheck, hwrite⟩ := bind_eq_ok.1 hwrite
    cases hwrite
    cases hr
    exact ⟨_, _, h.allocate hid hlt hcheck, Function.update_self ..⟩

/-- A number that is gone when it is zero. -/
lemma ftsAdjustVarint_stored {add : Bool} {n : ℕ} (hlt : n < 2 ^ 64)
    (h : valueOf key kvs = if n = 0 then none else some (putVarint n)) :
    (ftsAdjustVarint key add 1).onMap kvs = adjusted add n 1 >>= fun new =>
      if new = 0 then .ok ((), eraseKey key kvs)
      else TreeM.keyCheck key >>= fun _ => .ok ((), insertKey key (putVarint new) kvs) := by
  have hread : (ftsReadVarint key).onMap kvs = .ok (n, kvs) := by
    rw [ftsReadVarint, TreeM.onMap_bind, TreeM.onMap_read, ok_bind]
    dsimp only
    rw [h]
    split_ifs with hzero
    · rw [hzero]
      rfl
    · have htake := takeVarint_head hlt []
      rw [List.append_nil] at htake
      simp [htake]
  rw [ftsAdjustVarint, TreeM.onMap_bind, hread, ok_bind, TreeM.onMap_bind, TreeM.onMap_lift]
  cases adjusted add n 1 with
  | error e => rfl
  | ok new =>
    simp only [ok_bind]
    split_ifs <;> rfl

/-- The cell of a new row. -/
lemma TermIndex.put (h : TermIndex fts_id ids next cells kvs) (hid : ids term = some id)
    (hnew : (rowid, term) ∉ cells.map Prod.fst) (henc : encodePostingValue fields = .ok value)
    (hdf : docFreq cells term + 1 < 2 ^ 64) :
    TermIndex fts_id ids next (((rowid, term), fields) :: cells)
      (insertKey (ftsDfKey fts_id term) (putVarint (docFreq cells term + 1))
        (insertKey (ftsPostingKey fts_id id rowid) value kvs)) := by
  have hsorted : SortedMap (insertKey (ftsPostingKey fts_id id rowid) value kvs) :=
    h.sorted.insertKey
  have hcell : CellKey fts_id _ := .posting id rowid
  have hself : docFreq (((rowid, term), fields) :: cells) term = docFreq cells term + 1 := by
    rw [docFreq_cons, if_pos rfl]
  have hother {t : String} (hne : t ≠ term) :
      docFreq (((rowid, term), fields) :: cells) t = docFreq cells t := by
    rw [docFreq_cons, if_neg hne.symm, Nat.add_zero]
  refine ⟨hsorted.insertKey, List.nodup_cons.2 ⟨hnew, h.nodup⟩, fun c hc => ?_, fun c hc => ?_,
    h.fits, h.next_pos, h.below, h.inj, fun t => ?_, fun t => ?_, ?_, fun t => ?_,
    fun i rid v => ?_⟩
  · rcases List.mem_cons.1 hc with rfl | hc
    · rw [hid]
      rfl
    · exact h.known c hc
  · rcases List.mem_cons.1 hc with rfl | hc
    · exact ⟨value, henc⟩
    · exact h.encodes c hc
  · rcases eq_or_ne t term with rfl | hne
    · rwa [hself]
    · rw [hother hne]
      exact h.df_lt t
  · rw [valueOf_insertKey_of_ne hsorted dict_ne_df,
      valueOf_insertKey_of_ne h.sorted (hcell.ne_stat (.dict t)).symm, h.dict]
  · rw [valueOf_insertKey_of_ne hsorted df_ne_counter.symm,
      valueOf_insertKey_of_ne h.sorted (hcell.ne_stat .counter).symm, h.counter]
  · rcases eq_or_ne t term with rfl | hne
    · rw [valueOf_insertKey_self hsorted, hself, if_neg (Nat.succ_ne_zero _)]
    · rw [valueOf_insertKey_of_ne hsorted fun heq => hne (ftsDfKey_inj.1 heq),
        valueOf_insertKey_of_ne h.sorted (hcell.ne_stat (.df t)).symm, hother hne, h.df]
  · rw [valueOf_insertKey_of_ne hsorted ((CellKey.posting i rid).ne_stat (.df term))]
    by_cases hkey : i = id ∧ rid = rowid
    · obtain ⟨rfl, rfl⟩ := hkey
      rw [valueOf_insertKey_self h.sorted, Option.some.injEq]
      constructor
      · rintro rfl
        exact ⟨term, fields, hid, List.mem_cons_self, henc⟩
      · rintro ⟨t, f, hi, hmem, hv⟩
        obtain rfl := h.inj t term i hi hid
        rcases List.mem_cons.1 hmem with heq | hmem
        · cases heq
          rw [henc, Except.ok.injEq] at hv
          exact hv
        · exact absurd (List.mem_map_of_mem hmem) hnew
    · rw [valueOf_insertKey_of_ne h.sorted fun heq => hkey (ftsPostingKey_inj.1 heq), h.postings]
      constructor
      · rintro ⟨t, f, hi, hmem, hv⟩
        exact ⟨t, f, hi, List.mem_cons_of_mem _ hmem, hv⟩
      · rintro ⟨t, f, hi, hmem, hv⟩
        rcases List.mem_cons.1 hmem with heq | hmem
        · cases heq
          rw [hid, Option.some.injEq] at hi
          exact absurd ⟨hi.symm, rfl⟩ hkey
        · exact ⟨t, f, hi, hmem, hv⟩

/-- The document frequency when the cell of a row is gone. -/
def withoutDf (fts_id : UInt32) (term : String) (n : ℕ) (kvs : Entries) : Entries :=
  if n = 0 then eraseKey (ftsDfKey fts_id term) kvs
  else insertKey (ftsDfKey fts_id term) (putVarint n) kvs

lemma sorted_withoutDf {n : ℕ} (hs : SortedMap kvs) : SortedMap (withoutDf fts_id term n kvs) := by
  rw [withoutDf]
  split_ifs
  · exact hs.eraseKey
  · exact hs.insertKey

lemma valueOf_withoutDf {n : ℕ} (hs : SortedMap kvs) (hne : key ≠ ftsDfKey fts_id term) :
    valueOf key (withoutDf fts_id term n kvs) = valueOf key kvs := by
  rw [withoutDf]
  split_ifs
  · exact valueOf_eraseKey_of_ne _ hne
  · exact valueOf_insertKey_of_ne hs hne

lemma valueOf_withoutDf_self {n : ℕ} (hs : SortedMap kvs) :
    valueOf (ftsDfKey fts_id term) (withoutDf fts_id term n kvs)
      = if n = 0 then none else some (putVarint n) := by
  rw [withoutDf]
  split_ifs
  · exact valueOf_eraseKey_self _
  · exact valueOf_insertKey_self hs

/-- The cell of a row that goes. -/
lemma TermIndex.take (h : TermIndex fts_id ids next (((rowid, term), fields) :: cells) kvs)
    (hid : ids term = some id) : TermIndex fts_id ids next cells
      (withoutDf fts_id term (docFreq cells term)
        (eraseKey (ftsPostingKey fts_id id rowid) kvs)) := by
  have hsorted : SortedMap (eraseKey (ftsPostingKey fts_id id rowid) kvs) := h.sorted.eraseKey
  have hcell : CellKey fts_id _ := .posting id rowid
  obtain ⟨hgone, hnodup⟩ := List.nodup_cons.1 h.nodup
  have hother {t : String} (hne : t ≠ term) :
      docFreq (((rowid, term), fields) :: cells) t = docFreq cells t := by
    rw [docFreq_cons, if_neg hne.symm, Nat.add_zero]
  refine ⟨sorted_withoutDf hsorted, hnodup, fun c hc => h.known c (List.mem_cons_of_mem _ hc),
    fun c hc => h.encodes c (List.mem_cons_of_mem _ hc), h.fits, h.next_pos, h.below, h.inj,
    fun t => ?_, fun t => ?_, ?_, fun t => ?_, fun i rid v => ?_⟩
  · refine lt_of_le_of_lt ?_ (h.df_lt t)
    rw [docFreq_cons]
    exact Nat.le_add_right _ _
  · rw [valueOf_withoutDf hsorted dict_ne_df,
      valueOf_eraseKey_of_ne _ (hcell.ne_stat (.dict t)).symm, h.dict]
  · rw [valueOf_withoutDf hsorted df_ne_counter.symm,
      valueOf_eraseKey_of_ne _ (hcell.ne_stat .counter).symm, h.counter]
  · rcases eq_or_ne t term with rfl | hne
    · exact valueOf_withoutDf_self hsorted
    · rw [valueOf_withoutDf hsorted fun heq => hne (ftsDfKey_inj.1 heq),
        valueOf_eraseKey_of_ne _ (hcell.ne_stat (.df t)).symm, h.df, hother hne]
  · rw [valueOf_withoutDf hsorted ((CellKey.posting i rid).ne_stat (.df term))]
    by_cases hkey : i = id ∧ rid = rowid
    · obtain ⟨rfl, rfl⟩ := hkey
      rw [valueOf_eraseKey_self]
      refine ⟨fun hv => (by cases hv), ?_⟩
      rintro ⟨t, f, hi, hmem, -⟩
      obtain rfl := h.inj t term i hi hid
      exact absurd (List.mem_map_of_mem hmem) hgone
    · rw [valueOf_eraseKey_of_ne _ fun heq => hkey (ftsPostingKey_inj.1 heq), h.postings]
      constructor
      · rintro ⟨t, f, hi, hmem, hv⟩
        rcases List.mem_cons.1 hmem with heq | hmem
        · cases heq
          rw [hid, Option.some.injEq] at hi
          exact absurd ⟨hi.symm, rfl⟩ hkey
        · exact ⟨t, f, hi, hmem, hv⟩
      · rintro ⟨t, f, hi, hmem, hv⟩
        exact ⟨t, f, hi, List.mem_cons_of_mem _ hmem, hv⟩

/-- A term of a row that is put into the index. -/
lemma TermIndex.addTerm (h : TermIndex fts_id ids next cells kvs)
    (hnew : (rowid, term) ∉ cells.map Prod.fst)
    (hr : (applyFtsTerm fts_id rowid true term fields).onMap kvs = .ok ((), kvs')) :
    ∃ ids' next', TermIndex fts_id ids' next' (((rowid, term), fields) :: cells) kvs' := by
  rw [applyFtsTerm, TreeM.onMap_bind, applyFtsCell, if_pos rfl, TreeM.onMap_bind] at hr
  obtain ⟨⟨u, m⟩, hcell, hr⟩ := bind_eq_ok.1 hr
  obtain ⟨⟨id, m'⟩, halloc, hcell⟩ := bind_eq_ok.1 hcell
  obtain ⟨ids', next', h', hid⟩ := h.alloc halloc
  simp only [TreeM.onMap_bind, TreeM.onMap_lift, TreeM.onMap_write,
    (CellKey.posting id rowid).check] at hcell
  obtain ⟨⟨value, m''⟩, henc, hcell⟩ := bind_eq_ok.1 hcell
  obtain ⟨value', henc', hv⟩ := bind_eq_ok.1 henc
  cases hv
  cases hcell
  have hdf : valueOf (ftsDfKey fts_id term) (insertKey (ftsPostingKey fts_id id rowid) value m')
      = if docFreq cells term = 0 then none else some (putVarint (docFreq cells term)) := by
    rw [valueOf_insertKey_of_ne h'.sorted ((CellKey.posting id rowid).ne_stat (.df term)).symm, h'.df]
  rw [ftsAdjustVarint_stored (h'.df_lt term) hdf, adjusted, if_pos rfl] at hr
  obtain ⟨n, hadd, hr⟩ := bind_eq_ok.1 hr
  obtain ⟨hlt, rfl⟩ := addU64_eq_ok.1 hadd
  rw [if_neg (Nat.succ_ne_zero _)] at hr
  obtain ⟨u', -, hr⟩ := bind_eq_ok.1 hr
  cases hr
  exact ⟨ids', next', h'.put hid hnew henc' hlt⟩

/-- A term of a row that is taken out of the index: this never fails. -/
lemma TermIndex.removeTerm (h : TermIndex fts_id ids next (((rowid, term), fields) :: cells) kvs) :
    ∃ kvs', (applyFtsTerm fts_id rowid false term fields).onMap kvs = .ok ((), kvs') ∧
      TermIndex fts_id ids next cells kvs' := by
  obtain ⟨id, hid⟩ := Option.isSome_iff_exists.1 (h.known _ List.mem_cons_self)
  have hself : docFreq (((rowid, term), fields) :: cells) term = docFreq cells term + 1 := by
    rw [docFreq_cons, if_pos rfl]
  have hdf : valueOf (ftsDfKey fts_id term) (eraseKey (ftsPostingKey fts_id id rowid) kvs)
      = if docFreq cells term + 1 = 0 then none else some (putVarint (docFreq cells term + 1)) := by
    rw [valueOf_eraseKey_of_ne _ ((CellKey.posting id rowid).ne_stat (.df term)).symm, h.df, hself]
  have hcheck : TreeM.keyCheck (ftsDfKey fts_id term) = .ok () := by
    rw [keyCheck_df]
    exact h.fits term (h.known _ List.mem_cons_self)
  refine ⟨_, ?_, h.take hid⟩
  rw [applyFtsTerm, TreeM.onMap_bind, applyFtsCell, if_neg (by decide), TreeM.onMap_bind, h.lookup,
    ok_bind]
  dsimp only at hid ⊢
  simp only [hid, TreeM.onMap_bind, TreeM.onMap_erase, TreeM.onMap_pure, ok_bind]
  rw [ftsAdjustVarint_stored (hself ▸ h.df_lt term) hdf, adjusted, if_neg (by decide), ok_bind,
    Nat.add_sub_cancel, hcheck, withoutDf]
  split_ifs <;> rfl

/-- The cells of a row. -/
def rowCells (rowid : Int64) (per_term : PerTerm) : List Cell :=
  per_term.map fun p => ((rowid, p.1), p.2)

lemma TermIndex.addTerms {per_term : PerTerm} (h : TermIndex fts_id ids next cells kvs)
    (hs : SortedMap per_term) (hnew : ∀ p ∈ per_term, (rowid, p.1) ∉ cells.map Prod.fst)
    (hr : (applyFtsTerms fts_id rowid true per_term).onMap kvs = .ok ((), kvs')) :
    ∃ ids' next', TermIndex fts_id ids' next' (rowCells rowid per_term ++ cells) kvs' := by
  induction per_term generalizing ids next cells kvs with
  | nil =>
    cases hr
    exact ⟨ids, next, h⟩
  | cons p per_term ih =>
    obtain ⟨hlt, hs⟩ := sortedMap_cons.1 hs
    rw [applyFtsTerms, TreeM.onMap_bind] at hr
    obtain ⟨⟨u, m⟩, hterm, hr⟩ := bind_eq_ok.1 hr
    obtain ⟨ids₁, next₁, h₁⟩ := h.addTerm (hnew p List.mem_cons_self) hterm
    have hrest : ∀ q ∈ per_term, (rowid, q.1) ∉ (((rowid, p.1), p.2) :: cells).map Prod.fst := by
      intro q hq hmem
      rw [List.map_cons, List.mem_cons, Prod.mk.injEq] at hmem
      rcases hmem with ⟨-, heq⟩ | hmem
      · exact (hlt q hq).ne heq.symm
      · exact hnew q (List.mem_cons_of_mem _ hq) hmem
    obtain ⟨ids₂, next₂, h₂⟩ := ih h₁ hs hrest hr
    exact ⟨ids₂, next₂, h₂.perm List.perm_middle⟩

lemma TermIndex.removeTerms {per_term : PerTerm}
    (h : TermIndex fts_id ids next (rowCells rowid per_term ++ cells) kvs) :
    ∃ kvs', (applyFtsTerms fts_id rowid false per_term).onMap kvs = .ok ((), kvs') ∧
      TermIndex fts_id ids next cells kvs' := by
  induction per_term generalizing kvs with
  | nil => exact ⟨kvs, rfl, h⟩
  | cons p per_term ih =>
    obtain ⟨m, hterm, h₁⟩ := TermIndex.removeTerm h
    obtain ⟨kvs', hrest, h₂⟩ := ih h₁
    refine ⟨kvs', ?_, h₂⟩
    rw [applyFtsTerms, TreeM.onMap_bind, hterm, ok_bind, hrest]

lemma localTo_lookup : MapProgram.LocalTo TreeM.keyCheck (TermKey fts_id)
    (ftsLookupTermId fts_id term) := by
  refine .bind (.read (.dict term)) fun v => ?_
  cases v with
  | none => exact .pure _
  | some v => exact .bind (.lift _) fun id => .pure _

lemma localTo_adjustVarint {P : Bytes → Prop} {add : Bool} (hk : P key) (delta : ℕ) :
    MapProgram.LocalTo TreeM.keyCheck P (ftsAdjustVarint key add delta) := by
  have hread : MapProgram.LocalTo TreeM.keyCheck P (ftsReadVarint key) := by
    refine .bind (.read hk) fun v => ?_
    cases v with
    | none => exact .pure 0
    | some v => exact .bind (.lift _) fun r => .pure _
  refine .bind hread fun cur => .bind (.lift _) fun new => ?_
  split_ifs
  · exact .bind (.erase hk) fun _ => .pure ()
  · exact .write hk

lemma localTo_applyFtsTerms (add : Bool) (per_term : PerTerm) :
    MapProgram.LocalTo TreeM.keyCheck (TermKey fts_id)
      (applyFtsTerms fts_id rowid add per_term) := by
  induction per_term with
  | nil => exact .pure ()
  | cons p per_term ih =>
    refine .bind (.bind ?_ fun _ => localTo_adjustVarint (.df p.1) 1) fun _ => ih
    rw [applyFtsCell]
    split_ifs
    · refine .bind (.bind localTo_lookup fun id => ?_) fun id => .bind (.lift _) fun value =>
        .write (.posting id rowid)
      cases id with
      | some id => exact .pure id
      | none =>
        exact .bind (.read .counter) fun v => .bind (.lift _) fun next => .bind (.lift _)
          fun after => .bind (.write .counter) fun _ => .bind (.write (.dict p.1)) fun _ =>
            .pure next
    · refine .bind localTo_lookup fun id => ?_
      cases id with
      | none => exact .pure ()
      | some id => exact .bind (.erase (.posting id rowid)) fun _ => .pure ()

end Terms

/-! ### The lengths of rows -/

/-- The numbers of tokens of the rows, of all rows and of all their tokens. -/
structure LengthIndex (fts_id : UInt32) (lengths : List (Int64 × ℕ)) (kvs : Entries) : Prop where
  doclen : ∀ rowid v, valueOf (ftsDoclenKey fts_id rowid) kvs = some v ↔
    ∃ n, (rowid, n) ∈ lengths ∧ 0 < n ∧ v = putVarint n
  global : valueOf (ftsGlobalKey fts_id) kvs = if 0 < lengths.length
    then some (putVarint lengths.length ++ putVarint (lengths.map Prod.snd).sum) else none
  count_lt : lengths.length < 2 ^ 64
  total_lt : (lengths.map Prod.snd).sum < 2 ^ 64

section Lengths
variable {fts_id : UInt32} {lengths lengths' : List (Int64 × ℕ)} {kvs kvs' : Entries}
  {rowid : Int64} {n : ℕ}

lemma LengthIndex.perm (h : LengthIndex fts_id lengths kvs) (hp : lengths.Perm lengths') :
    LengthIndex fts_id lengths' kvs := by
  have hsum : (lengths'.map Prod.snd).sum = (lengths.map Prod.snd).sum := ((hp.map _).sum_eq).symm
  refine ⟨fun rowid v => ?_, ?_, hp.length_eq ▸ h.count_lt, hsum ▸ h.total_lt⟩
  · rw [h.doclen]
    simp only [hp.mem_iff]
  · rw [hsum, ← hp.length_eq, h.global]

lemma LengthIndex.congr (h : LengthIndex fts_id lengths kvs)
    (heq : ∀ key, LengthKey fts_id key → valueOf key kvs' = valueOf key kvs) :
    LengthIndex fts_id lengths kvs' :=
  { h with
    doclen := fun rowid v => by rw [heq _ (.doclen rowid), h.doclen]
    global := (heq _ .global).trans h.global }

lemma LengthIndex.readGlobal (h : LengthIndex fts_id lengths kvs)
    (heq : valueOf (ftsGlobalKey fts_id) kvs' = valueOf (ftsGlobalKey fts_id) kvs) :
    (ftsReadGlobal fts_id).onMap kvs' = .ok ((lengths.length, (lengths.map Prod.snd).sum), kvs') := by
  refine ftsReadGlobal_onMap h.count_lt h.total_lt (fun hzero => ?_) (heq.trans h.global)
  rw [List.length_eq_zero_iff.1 hzero]
  rfl

/-- The length of a row that is put into the index. -/
lemma LengthIndex.add (h : LengthIndex fts_id lengths kvs) (hs : SortedMap kvs)
    (hnew : rowid ∉ lengths.map Prod.fst)
    (hr : (applyDoclen fts_id rowid true n >>= fun _ => ftsAdjustGlobal fts_id true n).onMap kvs
      = .ok ((), kvs')) : LengthIndex fts_id ((rowid, n) :: lengths) kvs' := by
  have hkept {k : Bytes} (hne : k ≠ ftsDoclenKey fts_id rowid) :
      valueOf k (withDoclen fts_id kvs rowid n) = valueOf k kvs := by
    rw [withDoclen]
    split_ifs
    · exact valueOf_insertKey_of_ne hs hne
    · rfl
  have hglobal := hkept ((CellKey.doclen rowid).ne_stat .global).symm
  rw [TreeM.onMap_bind, applyDoclen_onMap, ok_bind, ftsAdjustGlobal, TreeM.onMap_bind,
    h.readGlobal hglobal, ok_bind] at hr
  dsimp only at hr
  simp only [TreeM.onMap_bind, TreeM.onMap_lift] at hr
  obtain ⟨⟨count, m⟩, hcount, hr⟩ := bind_eq_ok.1 hr
  obtain ⟨count', hadd, heq⟩ := bind_eq_ok.1 hcount
  cases heq
  obtain ⟨⟨total, m⟩, htotal, hr⟩ := bind_eq_ok.1 hr
  obtain ⟨total', hadd', heq⟩ := bind_eq_ok.1 htotal
  cases heq
  rw [adjusted, if_pos rfl] at hadd hadd'
  obtain ⟨hlt, rfl⟩ := addU64_eq_ok.1 hadd
  obtain ⟨hlt', rfl⟩ := addU64_eq_ok.1 hadd'
  rw [if_neg (Nat.succ_ne_zero _), TreeM.onMap_write, keyCheck_global, ok_bind] at hr
  cases hr
  have hsorted : SortedMap (withDoclen fts_id kvs rowid n) := sorted_withDoclen hs rowid n
  refine ⟨fun rid v => ?_, ?_, hlt, ?_⟩
  · rw [valueOf_insertKey_of_ne hsorted ((CellKey.doclen rid).ne_stat .global)]
    rcases eq_or_ne rid rowid with rfl | hne
    · have hnone (n' : ℕ) : (rid, n') ∉ lengths := fun hmem => hnew (List.mem_map_of_mem hmem)
      rw [withDoclen]
      split_ifs with hpos
      · rw [valueOf_insertKey_self hs]
        simp [hnone, hpos, eq_comm]
      · have hgone : valueOf (ftsDoclenKey fts_id rid) kvs = none := by
          refine Option.eq_none_iff_forall_ne_some.2 fun v hv => ?_
          obtain ⟨n', hmem, -⟩ := (h.doclen rid v).1 hv
          exact hnone n' hmem
        rw [hgone]
        simp [hnone]
        omega
    · rw [hkept fun heq => hne (ftsDoclenKey_inj.1 heq), h.doclen]
      simp [hne]
  · rw [valueOf_insertKey_self hsorted, List.length_cons, if_pos (Nat.succ_pos _), List.map_cons,
      List.sum_cons, Nat.add_comm n]
  · rw [List.map_cons, List.sum_cons, Nat.add_comm]
    exact hlt'

/-- The length of a row that is taken out: this never fails. -/
lemma LengthIndex.remove (h : LengthIndex fts_id ((rowid, n) :: lengths) kvs)
    (hnodup : rowid ∉ lengths.map Prod.fst) (hs : SortedMap kvs) :
    ∃ kvs', (applyDoclen fts_id rowid false n >>= fun _ => ftsAdjustGlobal fts_id false n).onMap kvs
      = .ok ((), kvs') ∧ LengthIndex fts_id lengths kvs' := by
  have hsorted : SortedMap (eraseKey (ftsDoclenKey fts_id rowid) kvs) := hs.eraseKey
  have hglobal : valueOf (ftsGlobalKey fts_id) (eraseKey (ftsDoclenKey fts_id rowid) kvs)
      = valueOf (ftsGlobalKey fts_id) kvs :=
    valueOf_eraseKey_of_ne _ ((CellKey.doclen rowid).ne_stat .global).symm
  have hcount : lengths.length < 2 ^ 64 := (Nat.lt_succ_self _).trans h.count_lt
  have htotal : (lengths.map Prod.snd).sum < 2 ^ 64 := by
    refine lt_of_le_of_lt ?_ h.total_lt
    rw [List.map_cons, List.sum_cons]
    exact Nat.le_add_left _ _
  -- the lengths of the other rows stay
  have hother {m : Entries} (hm : ∀ rid, valueOf (ftsDoclenKey fts_id rid) m
      = valueOf (ftsDoclenKey fts_id rid) (eraseKey (ftsDoclenKey fts_id rowid) kvs))
      (rid : Int64) (v : Bytes) : valueOf (ftsDoclenKey fts_id rid) m = some v ↔
        ∃ n', (rid, n') ∈ lengths ∧ 0 < n' ∧ v = putVarint n' := by
    rw [hm]
    rcases eq_or_ne rid rowid with rfl | hne
    · have hnone (n' : ℕ) : (rid, n') ∉ lengths := fun hmem => hnodup (List.mem_map_of_mem hmem)
      rw [valueOf_eraseKey_self]
      simp [hnone]
    · rw [valueOf_eraseKey_of_ne _ fun heq => hne (ftsDoclenKey_inj.1 heq), h.doclen]
      simp [hne]
  have hrun : (applyDoclen fts_id rowid false n >>= fun _ => ftsAdjustGlobal fts_id false n).onMap kvs
      = if lengths.length = 0
        then .ok ((), eraseKey (ftsGlobalKey fts_id) (eraseKey (ftsDoclenKey fts_id rowid) kvs))
        else .ok ((), insertKey (ftsGlobalKey fts_id)
          (putVarint lengths.length ++ putVarint (lengths.map Prod.snd).sum)
          (eraseKey (ftsDoclenKey fts_id rowid) kvs)) := by
    rw [TreeM.onMap_bind, applyDoclen, if_neg (by decide), TreeM.onMap_bind, TreeM.onMap_erase,
      ok_bind, TreeM.onMap_pure, ok_bind, ftsAdjustGlobal, TreeM.onMap_bind, h.readGlobal hglobal,
      ok_bind]
    simp only [adjusted, List.length_cons, List.map_cons, List.sum_cons, Nat.add_sub_cancel,
      Nat.add_sub_cancel_left, TreeM.onMap_bind, TreeM.onMap_lift, ok_bind, Bool.false_eq_true,
      if_false]
    split_ifs
    · rfl
    · rw [TreeM.onMap_write, keyCheck_global, ok_bind]
  rw [hrun]
  split_ifs with hzero
  · refine ⟨_, rfl, hother (fun rid => ?_), ?_, hcount, htotal⟩
    · exact valueOf_eraseKey_of_ne _ ((CellKey.doclen rid).ne_stat .global)
    · rw [valueOf_eraseKey_self, if_neg (by omega)]
  · refine ⟨_, rfl, hother (fun rid => ?_), ?_, hcount, htotal⟩
    · exact valueOf_insertKey_of_ne hsorted ((CellKey.doclen rid).ne_stat .global)
    · rw [valueOf_insertKey_self hsorted, if_pos (Nat.pos_of_ne_zero hzero)]

lemma localTo_lengths (add : Bool) (n : ℕ) : MapProgram.LocalTo TreeM.keyCheck (LengthKey fts_id)
    (applyDoclen fts_id rowid add n >>= fun _ => ftsAdjustGlobal fts_id add n) := by
  refine .bind ?_ fun _ => .bind (.bind (.read .global) fun v => ?_) fun r =>
    .bind (.lift _) fun count => .bind (.lift _) fun total => ?_
  · rw [applyDoclen]
    split_ifs
    · exact .write (.doclen rowid)
    · exact .pure ()
    · exact .bind (.erase (.doclen rowid)) fun _ => .pure ()
  · cases v with
    | none => exact .pure (0, 0)
    | some v => exact .bind (.lift _) fun r => .bind (.lift _) fun r' => .pure _
  · split_ifs
    · exact .bind (.erase .global) fun _ => .pure ()
    · exact .write .global

end Lengths

/-! ### Rows -/

/-- The terms of a row with their places, and the number of its tokens. -/
def rowTerms (tk : String → List Token) (fts : FtsIndexDef) (record : List Value) : PerTerm × ℕ :=
  (groupRecord tk record fts.columns ([], 0)).toOption.getD ([], 0)

/-- The index is that of the rows. -/
structure TextIndex (tk : String → List Token) (fts : FtsIndexDef)
    (rows : List (Int64 × List Value)) (kvs : Entries) : Prop where
  rowids : (rows.map Prod.fst).Nodup
  grouped : ∀ r ∈ rows, ∃ g, groupRecord tk r.2 fts.columns ([], 0) = .ok g
  terms : ∃ ids next, TermIndex fts.fts_id ids next
    (rows.flatMap fun r => rowCells r.1 (rowTerms tk fts r.2).1) kvs
  lengths : LengthIndex fts.fts_id (rows.map fun r => (r.1, (rowTerms tk fts r.2).2)) kvs
  keys : ∀ key, ftsIdPrefix fts.fts_id <+: key → (valueOf key kvs).isSome →
    TermKey fts.fts_id key ∨ LengthKey fts.fts_id key

section Rows
variable {tokenize : String → String → List Token} {tk : String → List Token} {fts : FtsIndexDef}
  {rows rows' : List (Int64 × List Value)} {kvs kvs' : Entries} {rowid : Int64}
  {record : List Value} {g : PerTerm × ℕ}

lemma rowTerms_eq (h : groupRecord tk record fts.columns ([], 0) = .ok g) :
    rowTerms tk fts record = g := by
  rw [rowTerms, h]
  rfl

lemma pushTokens_sorted {col : ℕ} {tokens : List Token} {st st' : PerTerm × ℕ}
    (hs : SortedMap st.1) (h : tokens.foldlM (pushToken col) st = .ok st') : SortedMap st'.1 := by
  induction tokens generalizing st with
  | nil =>
    cases h
    exact hs
  | cons token tokens ih =>
    rw [List.foldlM_cons] at h
    obtain ⟨st₁, hpush, h⟩ := bind_eq_ok.1 h
    obtain ⟨n, -, hpush⟩ := bind_eq_ok.1 hpush
    cases hpush
    exact ih hs.insertKey h

lemma groupRecord_sorted {cols : List ℕ} {st : PerTerm × ℕ} (hs : SortedMap st.1)
    (h : groupRecord tk record cols st = .ok g) : SortedMap g.1 := by
  induction cols generalizing st with
  | nil =>
    cases h
    exact hs
  | cons col cols ih =>
    obtain ⟨v, -, h⟩ := bind_eq_ok.1 h
    obtain ⟨st₁, hpush, h⟩ := bind_eq_ok.1 h
    exact ih (pushTokens_sorted hs hpush) h

lemma applyFtsRow_grouped (htk : tokenizerFor tokenize fts.tokenizer = .ok tk)
    (hg : groupRecord tk record fts.columns ([], 0) = .ok g) (add : Bool) (kvs : Entries) :
    (applyFtsRow tokenize fts rowid record add).onMap kvs
      = (applyFtsTerms fts.fts_id rowid add g.1).onMap kvs >>= fun x =>
        (applyDoclen fts.fts_id rowid add g.2 >>= fun _ =>
          ftsAdjustGlobal fts.fts_id add g.2).onMap x.2 := by
  simp only [applyFtsRow, TreeM.onMap_bind, TreeM.onMap_lift, htk, hg, ok_bind]

lemma TextIndex.sorted (h : TextIndex tk fts rows kvs) : SortedMap kvs := by
  obtain ⟨ids, next, hterms⟩ := h.terms
  exact hterms.sorted

/-- The order of the rows does not count. -/
lemma TextIndex.perm (h : TextIndex tk fts rows kvs) (hp : rows.Perm rows') :
    TextIndex tk fts rows' kvs := by
  obtain ⟨ids, next, hterms⟩ := h.terms
  exact ⟨(hp.map _).nodup_iff.1 h.rowids, fun r hr => h.grouped r (hp.mem_iff.2 hr),
    ⟨ids, next, hterms.perm (hp.flatMap_right _)⟩, h.lengths.perm (hp.map _), h.keys⟩

/-- The index of a map that agrees on its keys. -/
lemma TextIndex.congr (h : TextIndex tk fts rows kvs) (hs : SortedMap kvs')
    (heq : ∀ key, ftsIdPrefix fts.fts_id <+: key → valueOf key kvs' = valueOf key kvs) :
    TextIndex tk fts rows kvs' := by
  obtain ⟨ids, next, hterms⟩ := h.terms
  exact ⟨h.rowids, h.grouped, ⟨ids, next, hterms.congr hs fun key hk => heq key hk.begins⟩,
    h.lengths.congr fun key hk => heq key hk.begins,
    fun key hk hsome => h.keys key hk (heq key hk ▸ hsome)⟩

/-- No rows have been put into the index. -/
lemma TextIndex.empty (hs : SortedMap kvs)
    (hnone : ∀ key, ftsIdPrefix fts.fts_id <+: key → valueOf key kvs = none) :
    TextIndex tk fts [] kvs := by
  have hgone {key : Bytes} (hk : TermKey fts.fts_id key ∨ LengthKey fts.fts_id key) :
      valueOf key kvs = none := hnone key (hk.elim TermKey.begins LengthKey.begins)
  refine ⟨List.nodup_nil, fun r hr => (by cases hr), ⟨fun _ => none, 1, ?_⟩, ?_, fun key hk hsome => ?_⟩
  · refine ⟨hs, List.nodup_nil, fun c hc => (by cases hc), fun c hc => (by cases hc),
      fun t ht => (by cases ht), UInt32.le_refl 1, fun t id hid => (by cases hid),
      fun t t' id hid => (by cases hid), fun t => by simp [docFreq], fun t => hgone (.inl (.dict t)),
      hgone (.inl .counter), fun t => ?_, fun id rowid v => ?_⟩
    · rw [hgone (.inl (.df t))]
      rfl
    · rw [hgone (.inl (.posting id rowid))]
      simp
  · refine ⟨fun rowid v => ?_, hgone (.inr .global), by simp, by simp⟩
    rw [hgone (.inr (.doclen rowid))]
    simp
  · rw [hnone key hk] at hsome
    cases hsome

lemma localTo_applyFtsRow (add : Bool) : MapProgram.LocalTo TreeM.keyCheck
    (fun key => TermKey fts.fts_id key ∨ LengthKey fts.fts_id key)
    (applyFtsRow tokenize fts rowid record add) := by
  refine .bind (.lift _) fun tk => .bind (.lift _) fun g => .bind ?_ fun _ => ?_
  · exact (localTo_applyFtsTerms add g.1).mono fun _ => Or.inl
  · exact (localTo_lengths add g.2).mono fun _ => Or.inr

/-- A row that is put into the index. -/
lemma TextIndex.addRow (htk : tokenizerFor tokenize fts.tokenizer = .ok tk)
    (h : TextIndex tk fts rows kvs) (hnew : rowid ∉ rows.map Prod.fst)
    (hr : (applyFtsRow tokenize fts rowid record true).onMap kvs = .ok ((), kvs')) :
    TextIndex tk fts ((rowid, record) :: rows) kvs' := by
  obtain ⟨ids, next, hterms⟩ := h.terms
  have hkept {key : Bytes} (hk : ¬ (TermKey fts.fts_id key ∨ LengthKey fts.fts_id key)) :
      valueOf key kvs' = valueOf key kvs :=
    (localTo_applyFtsRow true).keeps h.sorted hr hk
  obtain ⟨g, hg⟩ : ∃ g, groupRecord tk record fts.columns ([], 0) = .ok g := by
    simp only [applyFtsRow, TreeM.onMap_bind, TreeM.onMap_lift, htk, ok_bind] at hr
    obtain ⟨r, hgroup, -⟩ := bind_eq_ok.1 hr
    obtain ⟨g, hg, -⟩ := bind_eq_ok.1 hgroup
    exact ⟨g, hg⟩
  rw [applyFtsRow_grouped htk hg] at hr
  obtain ⟨⟨u, m⟩, hput, hr⟩ := bind_eq_ok.1 hr
  have hcells : ∀ p ∈ g.1, (rowid, p.1) ∉
      (rows.flatMap fun r => rowCells r.1 (rowTerms tk fts r.2).1).map Prod.fst := by
    intro p _ hmem
    obtain ⟨c, hc, heq⟩ := List.mem_map.1 hmem
    obtain ⟨r, hrow, hc⟩ := List.mem_flatMap.1 hc
    obtain ⟨q, -, rfl⟩ := List.mem_map.1 hc
    exact hnew (List.mem_map.2 ⟨r, hrow, (Prod.mk.inj heq).1⟩)
  have hnil : SortedMap (([], 0) : PerTerm × ℕ).1 := List.Pairwise.nil
  obtain ⟨ids', next', hterms'⟩ := hterms.addTerms (groupRecord_sorted hnil hg) hcells hput
  have hlengths : LengthIndex fts.fts_id (rows.map fun r => (r.1, (rowTerms tk fts r.2).2)) m :=
    h.lengths.congr fun key hk =>
      (localTo_applyFtsTerms true g.1).keeps h.sorted hput fun ht => ht.not_length hk
  have hrowid : rowid ∉ (rows.map fun r => (r.1, (rowTerms tk fts r.2).2)).map Prod.fst := by
    rwa [List.map_map]
  have hsorted := TreeM.onMap_sorted hr hterms'.sorted
  have hfinal := hterms'.congr hsorted fun key hk =>
    (localTo_lengths true g.2).keeps hterms'.sorted hr fun hl => hk.not_length hl
  refine ⟨List.nodup_cons.2 ⟨hnew, h.rowids⟩, fun r hmem => ?_, ⟨ids', next', ?_⟩, ?_,
    fun key hk hsome => ?_⟩
  · rcases List.mem_cons.1 hmem with rfl | hmem
    · exact ⟨g, hg⟩
    · exact h.grouped r hmem
  · rw [List.flatMap_cons, rowTerms_eq hg]
    exact hfinal
  · rw [List.map_cons, rowTerms_eq hg]
    exact hlengths.add hterms'.sorted hrowid hr
  · by_contra hother
    rw [hkept hother] at hsome
    exact hother (h.keys key hk hsome)

/-- A row that is taken out of the index: this never fails. -/
lemma TextIndex.removeRow (htk : tokenizerFor tokenize fts.tokenizer = .ok tk)
    (h : TextIndex tk fts ((rowid, record) :: rows) kvs) :
    ∃ kvs', (applyFtsRow tokenize fts rowid record false).onMap kvs = .ok ((), kvs') ∧
      TextIndex tk fts rows kvs' := by
  obtain ⟨ids, next, hterms⟩ := h.terms
  obtain ⟨g, hg⟩ := h.grouped _ List.mem_cons_self
  obtain ⟨hgone, hrowids⟩ := List.nodup_cons.1 h.rowids
  rw [List.flatMap_cons, rowTerms_eq hg] at hterms
  have hlengths := h.lengths
  rw [List.map_cons, rowTerms_eq hg] at hlengths
  obtain ⟨m, hput, hterms'⟩ := hterms.removeTerms
  have hlengths' := hlengths.congr fun key hk =>
    (localTo_applyFtsTerms false g.1).keeps h.sorted hput fun ht => ht.not_length hk
  have hrowid : rowid ∉ (rows.map fun r => (r.1, (rowTerms tk fts r.2).2)).map Prod.fst := by
    rwa [List.map_map]
  obtain ⟨kvs', hrest, hlengths''⟩ := hlengths'.remove hrowid hterms'.sorted
  have hrun : (applyFtsRow tokenize fts rowid record false).onMap kvs = .ok ((), kvs') := by
    rw [applyFtsRow_grouped htk hg, hput, ok_bind, hrest]
  have hsorted := TreeM.onMap_sorted hrun h.sorted
  refine ⟨kvs', hrun, hrowids, fun r hr => h.grouped r (List.mem_cons_of_mem _ hr),
    ⟨ids, next, ?_⟩, hlengths'', fun key hk hsome => ?_⟩
  · exact hterms'.congr hsorted fun key hk =>
      (localTo_lengths false g.2).keeps hterms'.sorted hrest fun hl => hk.not_length hl
  · by_contra hother
    rw [(localTo_applyFtsRow false).keeps h.sorted hrun hother] at hsome
    exact hother (h.keys key hk hsome)

end Rows

/-! ### Runs -/

/-- A row goes into the index, or out of it. -/
inductive RowChange where
  | add (rowid : Int64) (record : List Value)
  | remove (rowid : Int64) (record : List Value)

/-- The rows behind a change, if it can be made: one that goes in is new, one that goes out is
there. -/
def RowChange.after (rows : List (Int64 × List Value)) : RowChange → Option (List (Int64 × List Value))
  | .add rowid record => if rowid ∈ rows.map Prod.fst then none else some ((rowid, record) :: rows)
  | .remove rowid record =>
    if (rowid, record) ∈ rows then some (rows.erase (rowid, record)) else none

section Runs
variable (tokenize : String → String → List Token) (fts : FtsIndexDef)

def RowChange.apply : RowChange → TreeM Unit
  | .add rowid record => applyFtsRow tokenize fts rowid record true
  | .remove rowid record => applyFtsRow tokenize fts rowid record false

def applyChanges : List RowChange → TreeM Unit
  | [] => pure ()
  | c :: cs => do
    c.apply tokenize fts
    applyChanges cs

variable {tokenize fts} {tk : String → List Token} {rows rows' : List (Int64 × List Value)}
  {kvs kvs' : Entries}

lemma TextIndex.change (htk : tokenizerFor tokenize fts.tokenizer = .ok tk)
    (h : TextIndex tk fts rows kvs) {c : RowChange} (hafter : c.after rows = some rows')
    (hr : (c.apply tokenize fts).onMap kvs = .ok ((), kvs')) : TextIndex tk fts rows' kvs' := by
  cases c with
  | add rowid record =>
    rw [RowChange.after] at hafter
    split_ifs at hafter with hnew
    cases hafter
    exact h.addRow htk hnew hr
  | remove rowid record =>
    rw [RowChange.after] at hafter
    split_ifs at hafter with hmem
    cases hafter
    obtain ⟨m, hrun, h'⟩ := (h.perm (List.perm_cons_erase hmem)).removeRow htk
    rw [RowChange.apply, hrun] at hr
    cases hr
    exact h'

/-- After any changes that can be made the index is that of the rows that are there. -/
lemma TextIndex.run (htk : tokenizerFor tokenize fts.tokenizer = .ok tk)
    (h : TextIndex tk fts rows kvs) {cs : List RowChange}
    (hafter : cs.foldlM RowChange.after rows = some rows')
    (hr : (applyChanges tokenize fts cs).onMap kvs = .ok ((), kvs')) :
    TextIndex tk fts rows' kvs' := by
  induction cs generalizing rows kvs with
  | nil =>
    cases hafter
    cases hr
    exact h
  | cons c cs ih =>
    rw [List.foldlM_cons] at hafter
    obtain ⟨rows₁, hstep, hafter⟩ := Option.bind_eq_some_iff.1 hafter
    rw [applyChanges, TreeM.onMap_bind] at hr
    obtain ⟨⟨u, m⟩, hchange, hr⟩ := bind_eq_ok.1 hr
    exact ih (h.change htk hstep hchange) hafter hr

end Runs

end Catalog

end Arkeion
