import Arkeion.Fts.Index
import Arkeion.KeyOrder
import Arkeion.Lib.BulkInsert
import Arkeion.Lib.MapDiff

/-!
An index that is written as a whole is the one that putting the rows into it one after the other
leaves: after each row the map holds what has been gathered so far.
-/

namespace Arkeion

open Arkeion.Lib Btree

namespace Catalog

/-! ### The keys of an index -/

section Keys
variable {fts_id : UInt32} {term term' : String}

lemma Key.bytes_ne (k k' : Key) (h : k.space ≠ k'.space) : k.bytes ≠ k'.bytes := by
  intro heq
  have hspace := congrArg spaceOf heq
  rw [spaceOf_bytes, spaceOf_bytes] at hspace
  exact h (Option.some.inj hspace)

lemma encodeIndexValue_text_inj (h : encodeIndexValue (.text term) = encodeIndexValue (.text term')) :
    term = term' := by
  have htri := Value.precedes_trichotomy (t := .text) (v := .text term) (w := .text term')
    trivial trivial
  have heq := (Value.encodeIndexValue_keepsOrder.eq_iff htri).1 h
  cases heq
  rfl

lemma ftsTermDictKey_inj : ftsTermDictKey fts_id term = ftsTermDictKey fts_id term' ↔ term = term' :=
  ⟨fun h => encodeIndexValue_text_inj (List.append_cancel_left h), fun h => h ▸ rfl⟩

lemma ftsDfKey_inj : ftsDfKey fts_id term = ftsDfKey fts_id term' ↔ term = term' :=
  ⟨fun h => encodeIndexValue_text_inj (List.append_cancel_left h), fun h => h ▸ rfl⟩

/-- The keys of an index beside its cells for the rows. -/
inductive StatKey (fts_id : UInt32) : Bytes → Prop
  | dict (term : String) : StatKey fts_id (ftsTermDictKey fts_id term)
  | df (term : String) : StatKey fts_id (ftsDfKey fts_id term)
  | counter : StatKey fts_id (ftsTermCounterKey fts_id)
  | global : StatKey fts_id (ftsGlobalKey fts_id)

/-- The key of a cell for a row. -/
inductive CellKey (fts_id : UInt32) : Bytes → Prop
  | posting (term_id : UInt32) (rowid : Int64) : CellKey fts_id (ftsPostingKey fts_id term_id rowid)
  | doclen (rowid : Int64) : CellKey fts_id (ftsDoclenKey fts_id rowid)

lemma StatKey.key {key : Bytes} (h : StatKey fts_id key) : ∃ k : Key, k.bytes = key ∧
    k.space ∈ [.ftsTermDict, .ftsDf, .ftsTermCounter, .ftsGlobal] := by
  cases h with
  | dict term => exact ⟨.ftsTermDict fts_id term, rfl, by simp [Key.space]⟩
  | df term => exact ⟨.ftsDf fts_id term, rfl, by simp [Key.space]⟩
  | counter => exact ⟨.ftsTermCounter fts_id, rfl, by simp [Key.space]⟩
  | global => exact ⟨.ftsGlobal fts_id, rfl, by simp [Key.space]⟩

lemma StatKey.begins {key : Bytes} (h : StatKey fts_id key) : ftsIdPrefix fts_id <+: key := by
  cases h with
  | dict term =>
    rw [ftsTermDictKey, ftsSubPrefix, List.append_assoc]
    exact List.prefix_append _ _
  | df term =>
    rw [ftsDfKey, ftsSubPrefix, List.append_assoc]
    exact List.prefix_append _ _
  | counter => exact List.prefix_append _ _
  | global => exact List.prefix_append _ _

lemma CellKey.key {key : Bytes} (h : CellKey fts_id key) : ∃ k : Key, k.bytes = key ∧
    k.space ∈ [.ftsPosting, .ftsDoclen] := by
  cases h with
  | posting term_id rowid => exact ⟨.ftsPosting fts_id term_id rowid, rfl, by simp [Key.space]⟩
  | doclen rowid => exact ⟨.ftsDoclen fts_id rowid, rfl, by simp [Key.space]⟩

lemma CellKey.not_stat {key : Bytes} (h : CellKey fts_id key) : ¬ StatKey fts_id key := by
  intro hs
  obtain ⟨k, rfl, hk⟩ := h.key
  obtain ⟨k', heq, hk'⟩ := hs.key
  refine Key.bytes_ne k' k (fun hsame => ?_) heq
  rw [hsame] at hk'
  simp only [List.mem_cons, List.not_mem_nil, or_false] at hk hk'
  rcases hk with hk | hk <;> rw [hk] at hk' <;> simp at hk'

lemma CellKey.ne_stat {key key' : Bytes} (h : CellKey fts_id key) (h' : StatKey fts_id key') :
    key ≠ key' := by
  rintro rfl
  exact h.not_stat h'

lemma dict_ne_df : ftsTermDictKey fts_id term ≠ ftsDfKey fts_id term' :=
  Key.bytes_ne (.ftsTermDict fts_id term) (.ftsDf fts_id term') (by simp [Key.space])

lemma dict_ne_counter : ftsTermDictKey fts_id term ≠ ftsTermCounterKey fts_id :=
  Key.bytes_ne (.ftsTermDict fts_id term) (.ftsTermCounter fts_id) (by simp [Key.space])

lemma dict_ne_global : ftsTermDictKey fts_id term ≠ ftsGlobalKey fts_id :=
  Key.bytes_ne (.ftsTermDict fts_id term) (.ftsGlobal fts_id) (by simp [Key.space])

lemma df_ne_counter : ftsDfKey fts_id term ≠ ftsTermCounterKey fts_id :=
  Key.bytes_ne (.ftsDf fts_id term) (.ftsTermCounter fts_id) (by simp [Key.space])

lemma df_ne_global : ftsDfKey fts_id term ≠ ftsGlobalKey fts_id :=
  Key.bytes_ne (.ftsDf fts_id term) (.ftsGlobal fts_id) (by simp [Key.space])

lemma counter_ne_global : ftsTermCounterKey fts_id ≠ ftsGlobalKey fts_id :=
  Key.bytes_ne (.ftsTermCounter fts_id) (.ftsGlobal fts_id) (by simp [Key.space])

/-! The keys of cells and of numbers are short. -/

lemma length_ftsSubPrefix (sub : UInt8) : (ftsSubPrefix fts_id sub).length = 6 := by
  rw [ftsSubPrefix, List.length_append, List.length_cons, length_beBytes, List.length_singleton]

lemma keyCheck_sub (fts_id : UInt32) (sub : UInt8) {rest : Bytes} (h : rest.length ≤ 1000) :
    TreeM.keyCheck (ftsSubPrefix fts_id sub ++ rest) = .ok () := by
  refine require_pos ⟨fun hnil => ?_, ?_⟩
  · have hlen := congrArg List.length hnil
    rw [List.length_append, length_ftsSubPrefix, List.length_nil] at hlen
    omega
  · rw [List.length_append, length_ftsSubPrefix, show MAX_KEY_LEN = 1024 from rfl]
    omega

lemma length_encodeOint_le (v : Int64) : (encodeOint v).length ≤ 9 := by
  rw [encodeOint_eq]
  split_ifs
  · rw [ointAbove, List.length_cons, length_beBytes]
    have h := ointLen_le v.toUInt64
    omega
  · rw [ointBelow, List.length_cons, List.length_map, length_beBytes]
    have h := ointLen_le (~~~v.toUInt64)
    omega

lemma CellKey.check {key : Bytes} (h : CellKey fts_id key) : TreeM.keyCheck key = .ok () := by
  cases h with
  | posting term_id rowid =>
    have h1 := length_encodeOint_le (Int64.ofNat term_id.toNat)
    have h2 := length_encodeOint_le rowid
    rw [ftsPostingKey, ftsTermPostingPrefix, List.append_assoc]
    exact keyCheck_sub _ _ (by rw [List.length_append]; omega)
  | doclen rowid => exact keyCheck_sub _ _ (by simp [rowidBe])

lemma keyCheck_counter : TreeM.keyCheck (ftsTermCounterKey fts_id) = .ok () := by
  have h := keyCheck_sub fts_id FTS_TERM_COUNTER (List.length_nil.trans_le (Nat.zero_le _))
  rwa [List.append_nil] at h

lemma keyCheck_global : TreeM.keyCheck (ftsGlobalKey fts_id) = .ok () := by
  have h := keyCheck_sub fts_id FTS_GLOBAL (List.length_nil.trans_le (Nat.zero_le _))
  rwa [List.append_nil] at h

/-- The two keys of a term are of one length. -/
lemma keyCheck_df :
    TreeM.keyCheck (ftsDfKey fts_id term) = TreeM.keyCheck (ftsTermDictKey fts_id term) := by
  have hlen : (ftsDfKey fts_id term).length = (ftsTermDictKey fts_id term).length := by
    rw [ftsDfKey, ftsTermDictKey, List.length_append, List.length_append, length_ftsSubPrefix,
      length_ftsSubPrefix]
  have hdf : ftsDfKey fts_id term ≠ [] := by simp [ftsDfKey, ftsSubPrefix]
  have hdict : ftsTermDictKey fts_id term ≠ [] := by simp [ftsTermDictKey, ftsSubPrefix]
  simp only [TreeM.keyCheck, hlen, hdf, hdict, ne_eq, not_false_eq_true, true_and]

end Keys

/-! ### What the map holds after some rows -/

/-- The map holds what has been gathered from `n` rows, over the map before. -/
structure FtsHolds (fts_id : UInt32) (kvs₀ kvs : Entries) (acc : Backfill) (n : ℕ) : Prop where
  sorted : SortedMap kvs
  dict_sorted : SortedMap acc.dict
  df_lt : ∀ term e, valueOf term acc.dict = some e → e.2 < 2 ^ 64
  next_pos : 1 ≤ acc.next_id
  n_lt : n < 2 ^ 64
  total_lt : acc.total < 2 ^ 64
  total_zero : n = 0 → acc.total = 0
  cells : ∀ p ∈ acc.entries, CellKey fts_id p.1
  dict : ∀ term, valueOf (ftsTermDictKey fts_id term) kvs
    = (valueOf term acc.dict).map fun e => beBytes 4 e.1.toNat
  df : ∀ term, valueOf (ftsDfKey fts_id term) kvs
    = (valueOf term acc.dict).map fun e => putVarint e.2
  counter : valueOf (ftsTermCounterKey fts_id) kvs
    = if 1 < acc.next_id then some (leBytes 4 acc.next_id.toNat) else none
  global : valueOf (ftsGlobalKey fts_id) kvs
    = if 0 < n then some (putVarint n ++ putVarint acc.total) else none
  others : ∀ key, ¬ StatKey fts_id key →
    valueOf key kvs = (lastOf key acc.entries).or (valueOf key kvs₀)

/-- The terms so far are short enough for a key. -/
def TermsFit (fts_id : UInt32) (acc : Backfill) : Prop :=
  ∀ term, (valueOf term acc.dict).isSome → TreeM.keyCheck (ftsTermDictKey fts_id term) = .ok ()

section Term
variable {fts_id : UInt32} {kvs₀ kvs : Entries} {acc : Backfill} {n : ℕ} {term : String}

lemma u32OfBytes_be (what : String) (v : UInt32) :
    u32OfBytes beNat what (beBytes 4 v.toNat) = .ok v := by
  rw [u32OfBytes, require_pos (length_beBytes ..), ok_bind, beNat_beBytes 4 v.toNat_lt,
    UInt32.ofNat_toNat]

lemma u32OfBytes_le (what : String) (v : UInt32) :
    u32OfBytes leNat what (leBytes 4 v.toNat) = .ok v := by
  rw [u32OfBytes, require_pos (length_leBytes ..), ok_bind, leNat_leBytes 4 v.toNat_lt,
    UInt32.ofNat_toNat]

/-- Where the map is once the number of a term is known. -/
def allocated (fts_id : UInt32) (kvs : Entries) (acc : Backfill) (term : String)
    (next_id : UInt32) : Entries :=
  if (valueOf term acc.dict).isSome then kvs
  else insertKey (ftsTermDictKey fts_id term) (beBytes 4 acc.next_id.toNat)
    (insertKey (ftsTermCounterKey fts_id) (leBytes 4 next_id.toNat) kvs)

/-- A term gets the number that the dictionary in memory gives it. -/
lemma ftsAllocTermId_onMap (h : FtsHolds fts_id kvs₀ kvs acc n) (hfit : TermsFit fts_id acc) :
    (ftsAllocTermId fts_id term).onMap kvs = acc.entry term >>= fun r =>
      TreeM.keyCheck (ftsTermDictKey fts_id term) >>= fun _ =>
        .ok (r.1.1, allocated fts_id kvs acc term r.2) := by
  rw [ftsAllocTermId, TreeM.onMap, MapProgram.run_bind, ftsLookupTermId, MapProgram.run_bind,
    MapProgram.run_read, ok_bind]
  dsimp only
  rw [h.dict term]
  cases hterm : valueOf term acc.dict with
  | some e =>
    have hcheck := hfit term (by rw [hterm]; rfl)
    simp [Backfill.entry, allocated, hterm, hcheck, u32OfBytes_be]
  | none =>
    have hcount : nextId (valueOf (ftsTermCounterKey fts_id) kvs) "contador de términos FTS"
        = .ok acc.next_id := by
      rw [h.counter]
      split_ifs with hlt
      · exact u32OfBytes_le _ _
      · rw [nextId]
        congr 1
        exact UInt32.le_antisymm h.next_pos (UInt32.not_lt.1 hlt)
    simp [Backfill.entry, allocated, hterm, hcount, keyCheck_counter]

lemma valueOf_allocated (hs : SortedMap kvs) {next_id : UInt32} {key : Bytes}
    (hdict : key ≠ ftsTermDictKey fts_id term) (hcounter : key ≠ ftsTermCounterKey fts_id) :
    valueOf key (allocated fts_id kvs acc term next_id) = valueOf key kvs := by
  rw [allocated]
  split_ifs
  · rfl
  · rw [valueOf_insertKey_of_ne hs.insertKey hdict, valueOf_insertKey_of_ne hs hcounter]

lemma sorted_allocated (hs : SortedMap kvs) {next_id : UInt32} :
    SortedMap (allocated fts_id kvs acc term next_id) := by
  rw [allocated]
  split_ifs
  · exact hs
  · exact hs.insertKey.insertKey

lemma takeVarint_head {v : ℕ} (hv : v < 2 ^ 64) (z : Bytes) :
    takeVarint (putVarint v ++ z) 0 = some (v, varintLen v) := by
  have h := takeVarint_put [] z rfl hv
  rwa [List.nil_append, List.length_nil, Nat.zero_add] at h

lemma addU64_eq_ok {a b c : ℕ} : addU64 a b = .ok c ↔ a + b < 2 ^ 64 ∧ c = a + b := by
  rw [addU64, require]
  split_ifs with hlt
  · rw [ok_bind, Except.ok.injEq]
    exact ⟨fun h => ⟨hlt, h.symm⟩, fun h => h.2.symm⟩
  · rw [error_bind]
    exact ⟨fun h => (by cases h), fun h => absurd h.1 hlt⟩

/-- A number goes up by one, from zero if it is not there. -/
lemma ftsAdjustVarint_onMap {key : Bytes} {cur : Option ℕ} (hlt : ∀ c ∈ cur, c < 2 ^ 64)
    (h : valueOf key kvs = cur.map putVarint) : (ftsAdjustVarint key true 1).onMap kvs
      = addU64 (cur.getD 0) 1 >>= fun df => TreeM.keyCheck key >>= fun _ =>
        .ok ((), insertKey key (putVarint df) kvs) := by
  have hread : (ftsReadVarint key).onMap kvs = .ok (cur.getD 0, kvs) := by
    rw [ftsReadVarint, TreeM.onMap, MapProgram.run_bind, MapProgram.run_read, ok_bind]
    dsimp only
    rw [h]
    cases cur with
    | none => rfl
    | some c =>
      have htake := takeVarint_head (hlt c rfl) []
      rw [List.append_nil] at htake
      simp [htake]
  rw [ftsAdjustVarint, TreeM.onMap, MapProgram.run_bind, ← TreeM.onMap, hread, ok_bind]
  rw [MapProgram.run_bind, MapProgram.run_lift, adjusted, if_pos rfl]
  cases hadd : addU64 (cur.getD 0) 1 with
  | error e => rfl
  | ok df =>
    have hne : df ≠ 0 := by
      rw [(addU64_eq_ok.1 hadd).2]
      exact Nat.succ_ne_zero _
    simp [hne]

/-- What a term of a row does to the map. -/
def withTerm (fts_id : UInt32) (kvs : Entries) (acc : Backfill) (rowid : Int64) (term : String)
    (r : (UInt32 × ℕ) × UInt32) (value : Bytes) (df : ℕ) : Entries :=
  insertKey (ftsDfKey fts_id term) (putVarint df)
    (insertKey (ftsPostingKey fts_id r.1.1 rowid) value (allocated fts_id kvs acc term r.2))

lemma Backfill.entry_df {r : (UInt32 × ℕ) × UInt32} (h : acc.entry term = .ok r) :
    ((valueOf term acc.dict).map Prod.snd).getD 0 = r.1.2 := by
  rw [Backfill.entry] at h
  cases hterm : valueOf term acc.dict with
  | some e =>
    rw [hterm] at h
    cases h
    rfl
  | none =>
    rw [hterm] at h
    obtain ⟨next, -, h⟩ := bind_eq_ok.1 h
    cases h
    rfl

lemma applyFtsTerm_onMap (h : FtsHolds fts_id kvs₀ kvs acc n) (hfit : TermsFit fts_id acc)
    (rowid : Int64) (fields : Fields) : (applyFtsTerm fts_id rowid true term fields).onMap kvs
      = acc.entry term >>= fun r => TreeM.keyCheck (ftsTermDictKey fts_id term) >>= fun _ =>
        encodePostingValue fields >>= fun value => addU64 r.1.2 1 >>= fun df =>
          .ok ((), withTerm fts_id kvs acc rowid term r value df) := by
  rw [applyFtsTerm, TreeM.onMap, MapProgram.run_bind, applyFtsCell, if_pos rfl,
    MapProgram.run_bind, ← TreeM.onMap, ftsAllocTermId_onMap h hfit]
  cases hentry : acc.entry term with
  | error e => rfl
  | ok r =>
    cases hcheck : TreeM.keyCheck (ftsTermDictKey fts_id term) with
    | error e => rfl
    | ok u =>
      simp only [ok_bind, MapProgram.run_bind, MapProgram.run_lift, MapProgram.run_write,
        (CellKey.posting r.1.1 rowid).check]
      cases encodePostingValue fields with
      | error e => rfl
      | ok value =>
        have hdf : valueOf (ftsDfKey fts_id term) (insertKey (ftsPostingKey fts_id r.1.1 rowid)
            value (allocated fts_id kvs acc term r.2))
            = ((valueOf term acc.dict).map Prod.snd).map putVarint := by
          rw [valueOf_insertKey_of_ne (sorted_allocated h.sorted)
              ((CellKey.posting r.1.1 rowid).ne_stat (.df term)).symm,
            valueOf_allocated h.sorted dict_ne_df.symm df_ne_counter, h.df, Option.map_map]
          rfl
        have hlt : ∀ c ∈ (valueOf term acc.dict).map Prod.snd, c < 2 ^ 64 := by
          intro c hc
          obtain ⟨e, he, rfl⟩ := Option.map_eq_some_iff.1 hc
          exact h.df_lt term e he
        simp only [ok_bind]
        rw [← TreeM.onMap, ftsAdjustVarint_onMap hlt hdf, Backfill.entry_df hentry, keyCheck_df,
          hcheck]
        rfl

lemma addU32_one_lt {a b : UInt32} (ha : 1 ≤ a) (h : addU32 a 1 = .ok b) : 1 < b := by
  obtain ⟨u, hlt, h⟩ := bind_eq_ok.1 h
  cases h
  rw [require_eq_ok] at hlt
  have hone : 1 ≤ a.toNat := UInt32.le_iff_toNat_le.1 ha
  have hone' : (1 : UInt32).toNat = 1 := rfl
  rw [UInt32.lt_iff_toNat_lt, UInt32.toNat_add]
  omega

lemma allocated_counter (h : FtsHolds fts_id kvs₀ kvs acc n) {r : (UInt32 × ℕ) × UInt32}
    (hentry : acc.entry term = .ok r) :
    1 ≤ r.2 ∧ valueOf (ftsTermCounterKey fts_id) (allocated fts_id kvs acc term r.2)
      = if 1 < r.2 then some (leBytes 4 r.2.toNat) else none := by
  rw [Backfill.entry] at hentry
  cases hterm : valueOf term acc.dict with
  | some e =>
    rw [hterm] at hentry
    cases hentry
    exact ⟨h.next_pos, by rw [allocated, hterm, if_pos (by rfl), h.counter]⟩
  | none =>
    rw [hterm] at hentry
    obtain ⟨next, hnext, hentry⟩ := bind_eq_ok.1 hentry
    cases hentry
    have hlt := addU32_one_lt h.next_pos hnext
    refine ⟨UInt32.le_of_lt hlt, ?_⟩
    rw [allocated, hterm, if_neg (by simp), if_pos hlt,
      valueOf_insertKey_of_ne h.sorted.insertKey dict_ne_counter.symm,
      valueOf_insertKey_self h.sorted]

lemma allocated_dict (h : FtsHolds fts_id kvs₀ kvs acc n) {r : (UInt32 × ℕ) × UInt32}
    (hentry : acc.entry term = .ok r) :
    valueOf (ftsTermDictKey fts_id term) (allocated fts_id kvs acc term r.2)
      = some (beBytes 4 r.1.1.toNat) := by
  rw [Backfill.entry] at hentry
  cases hterm : valueOf term acc.dict with
  | some e =>
    rw [hterm] at hentry
    cases hentry
    rw [allocated, hterm, if_pos (by rfl), h.dict, hterm]
    rfl
  | none =>
    rw [hterm] at hentry
    obtain ⟨next, -, hentry⟩ := bind_eq_ok.1 hentry
    cases hentry
    rw [allocated, hterm, if_neg (by simp), valueOf_insertKey_self h.sorted.insertKey]

/-- What a term of a row does to what has been gathered. -/
def Backfill.withTerm (fts_id : UInt32) (acc : Backfill) (rowid : Int64) (term : String)
    (r : (UInt32 × ℕ) × UInt32) (value : Bytes) (df : ℕ) : Backfill :=
  { acc with
    dict := insertKey term (r.1.1, df) acc.dict
    next_id := r.2
    entries := acc.entries ++ [(ftsPostingKey fts_id r.1.1 rowid, value)] }

lemma FtsHolds.withTerm (h : FtsHolds fts_id kvs₀ kvs acc n) {r : (UInt32 × ℕ) × UInt32}
    (hentry : acc.entry term = .ok r) (rowid : Int64) (value : Bytes) {df : ℕ}
    (hdf : df < 2 ^ 64) : FtsHolds fts_id kvs₀ (withTerm fts_id kvs acc rowid term r value df)
      (acc.withTerm fts_id rowid term r value df) n := by
  have hsorted : SortedMap (allocated fts_id kvs acc term r.2) := sorted_allocated h.sorted
  have hcell : CellKey fts_id (ftsPostingKey fts_id r.1.1 rowid) := .posting r.1.1 rowid
  have hcounter := allocated_counter h hentry
  -- a key that is neither that of the cell nor that of the number of rows
  have hrest {key : Bytes} (hk : key ≠ ftsDfKey fts_id term)
      (hk' : key ≠ ftsPostingKey fts_id r.1.1 rowid) :
      valueOf key (Catalog.withTerm fts_id kvs acc rowid term r value df)
        = valueOf key (allocated fts_id kvs acc term r.2) := by
    rw [Catalog.withTerm, valueOf_insertKey_of_ne hsorted.insertKey hk,
      valueOf_insertKey_of_ne hsorted hk']
  refine ⟨hsorted.insertKey.insertKey, h.dict_sorted.insertKey, fun t e he => ?_, hcounter.1,
    h.n_lt, h.total_lt, h.total_zero, fun p hp => ?_, fun t => ?_, fun t => ?_, ?_, ?_,
    fun key hkey => ?_⟩
  · rw [Backfill.withTerm, valueOf_insertKey h.dict_sorted] at he
    rcases eq_or_ne t term with rfl | hne
    · rw [Function.update_self] at he
      cases he
      exact hdf
    · rw [Function.update_of_ne hne] at he
      exact h.df_lt t e he
  · rcases List.mem_append.1 hp with hp | hp
    · exact h.cells p hp
    · rw [List.mem_singleton.1 hp]
      exact hcell
  · rw [hrest dict_ne_df (hcell.ne_stat (.dict t)).symm, Backfill.withTerm]
    dsimp only
    rcases eq_or_ne t term with rfl | hne
    · rw [allocated_dict h hentry, valueOf_insertKey_self h.dict_sorted]
      rfl
    · rw [valueOf_allocated h.sorted (fun heq => hne (ftsTermDictKey_inj.1 heq)) dict_ne_counter,
        h.dict, valueOf_insertKey_of_ne h.dict_sorted hne]
  · rw [Backfill.withTerm]
    dsimp only
    rcases eq_or_ne t term with rfl | hne
    · rw [Catalog.withTerm, valueOf_insertKey_self hsorted.insertKey,
        valueOf_insertKey_self h.dict_sorted]
      rfl
    · rw [hrest (fun heq => hne (ftsDfKey_inj.1 heq)) (hcell.ne_stat (.df t)).symm,
        valueOf_allocated h.sorted dict_ne_df.symm df_ne_counter, h.df,
        valueOf_insertKey_of_ne h.dict_sorted hne]
  · rw [hrest df_ne_counter.symm (hcell.ne_stat .counter).symm, hcounter.2]
    rfl
  · rw [hrest df_ne_global.symm (hcell.ne_stat .global).symm,
      valueOf_allocated h.sorted dict_ne_global.symm counter_ne_global.symm, h.global]
    rfl
  · have hdict : key ≠ ftsTermDictKey fts_id term := fun heq => hkey (heq ▸ .dict term)
    have hcount : key ≠ ftsTermCounterKey fts_id := fun heq => hkey (heq ▸ .counter)
    have hdfk : key ≠ ftsDfKey fts_id term := fun heq => hkey (heq ▸ .df term)
    rw [Backfill.withTerm]
    dsimp only
    rw [lastOf_append, lastOf_singleton]
    rcases eq_or_ne (ftsPostingKey fts_id r.1.1 rowid) key with rfl | hne
    · rw [if_pos rfl, Option.some_or, Catalog.withTerm,
        valueOf_insertKey_of_ne hsorted.insertKey hdfk, valueOf_insertKey_self hsorted,
        Option.some_or]
    · rw [if_neg hne, Option.none_or, hrest hdfk hne.symm, valueOf_allocated h.sorted hdict hcount,
        h.others key hkey]

end Term

/-! ### Row by row and all at once -/

/-- The one succeeds when the other does and the terms are short enough, and then the map holds
what has been gathered. -/
structure Synced (fts_id : UInt32) (kvs₀ : Entries) (n : ℕ) (r : Result (Unit × Entries))
    (a : Result Backfill) : Prop where
  holds : ∀ kvs, r = .ok ((), kvs) →
    ∃ acc, a = .ok acc ∧ TermsFit fts_id acc ∧ FtsHolds fts_id kvs₀ kvs acc n
  succeeds : ∀ acc, a = .ok acc → TermsFit fts_id acc → ∃ kvs, r = .ok ((), kvs)

section Rows
variable {fts : FtsIndexDef} {kvs₀ kvs : Entries} {acc acc' : Backfill} {n m : ℕ} {rowid : Int64}

/-- The rule of sequence. -/
lemma Synced.bind {fts_id : UInt32} {r : Result (Unit × Entries)} {a : Result Backfill}
    {f : Entries → Result (Unit × Entries)} {g : Backfill → Result Backfill}
    (h : Synced fts_id kvs₀ n r a)
    (hstep : ∀ kvs acc, a = .ok acc → TermsFit fts_id acc → FtsHolds fts_id kvs₀ kvs acc n →
      Synced fts_id kvs₀ m (f kvs) (g acc))
    (hback : ∀ acc acc', a = .ok acc → g acc = .ok acc' → TermsFit fts_id acc' →
      TermsFit fts_id acc) :
    Synced fts_id kvs₀ m (r >>= fun x => f x.2) (a >>= g) := by
  refine ⟨fun kvs' hr => ?_, fun acc' ha hfit => ?_⟩
  · obtain ⟨⟨u, kvs⟩, hr, hf⟩ := bind_eq_ok.1 hr
    obtain ⟨acc, ha, hfit, hholds⟩ := h.holds kvs hr
    rw [ha, ok_bind]
    exact (hstep kvs acc ha hfit hholds).holds kvs' hf
  · obtain ⟨acc, ha, hg⟩ := bind_eq_ok.1 ha
    have hfit' := hback acc acc' ha hg hfit
    obtain ⟨kvs, hr⟩ := h.succeeds acc ha hfit'
    obtain ⟨acc₁, ha₁, -, hholds⟩ := h.holds kvs hr
    rw [ha] at ha₁
    cases ha₁
    rw [hr, ok_bind]
    exact (hstep kvs acc ha hfit' hholds).succeeds acc' hg hfit

lemma backfillTerm_eq {term : String} {fields : Fields} :
    backfillTerm fts rowid acc term fields = acc.entry term >>= fun r => addU64 r.1.2 1 >>=
      fun df => encodePostingValue fields >>= fun value =>
        .ok (acc.withTerm fts.fts_id rowid term r value df) := rfl

lemma synced_term (h : FtsHolds fts.fts_id kvs₀ kvs acc n) (hfit : TermsFit fts.fts_id acc)
    (rowid : Int64) (term : String) (fields : Fields) : Synced fts.fts_id kvs₀ n
      ((applyFtsTerm fts.fts_id rowid true term fields).onMap kvs)
      (backfillTerm fts rowid acc term fields) := by
  rw [applyFtsTerm_onMap h hfit, backfillTerm_eq]
  refine ⟨fun kvs' hr => ?_, fun acc' ha hfit' => ?_⟩
  · obtain ⟨r, hentry, hr⟩ := bind_eq_ok.1 hr
    obtain ⟨u, hcheck, hr⟩ := bind_eq_ok.1 hr
    obtain ⟨value, hvalue, hr⟩ := bind_eq_ok.1 hr
    obtain ⟨df, hdf, hr⟩ := bind_eq_ok.1 hr
    cases hr
    refine ⟨_, by rw [hentry, ok_bind, hdf, ok_bind, hvalue, ok_bind], fun t ht => ?_,
      h.withTerm hentry rowid value ?_⟩
    · rw [Backfill.withTerm, valueOf_insertKey h.dict_sorted] at ht
      rcases eq_or_ne t term with rfl | hne
      · exact hcheck
      · rw [Function.update_of_ne hne] at ht
        exact hfit t ht
    · have hlt := addU64_eq_ok.1 hdf
      omega
  · obtain ⟨r, hentry, ha⟩ := bind_eq_ok.1 ha
    obtain ⟨df, hdf, ha⟩ := bind_eq_ok.1 ha
    obtain ⟨value, hvalue, ha⟩ := bind_eq_ok.1 ha
    cases ha
    have hcheck := hfit' term (by
      rw [Backfill.withTerm, valueOf_insertKey_self h.dict_sorted]
      rfl)
    exact ⟨_, by rw [hentry, ok_bind, hcheck, ok_bind, hvalue, ok_bind, hdf, ok_bind]⟩

/-! The dictionary only grows. -/

/-- The terms stay in the dictionary. -/
def Grows (acc acc' : Backfill) : Prop :=
  SortedMap acc'.dict ∧ ∀ term, (valueOf term acc.dict).isSome → (valueOf term acc'.dict).isSome

lemma Grows.fit {fts_id : UInt32} (h : Grows acc acc') (hfit : TermsFit fts_id acc') :
    TermsFit fts_id acc := fun term ht => hfit term (h.2 term ht)

lemma backfillTerm_grows {term : String} {fields : Fields} (hs : SortedMap acc.dict)
    (h : backfillTerm fts rowid acc term fields = .ok acc') : Grows acc acc' := by
  rw [backfillTerm_eq] at h
  obtain ⟨r, -, h⟩ := bind_eq_ok.1 h
  obtain ⟨df, -, h⟩ := bind_eq_ok.1 h
  obtain ⟨value, -, h⟩ := bind_eq_ok.1 h
  cases h
  refine ⟨hs.insertKey, fun t ht => ?_⟩
  rw [Backfill.withTerm, valueOf_insertKey hs]
  rcases eq_or_ne t term with rfl | hne
  · rw [Function.update_self]
    rfl
  · rw [Function.update_of_ne hne]
    exact ht

lemma backfillTerms_grows {per_term : PerTerm} (hs : SortedMap acc.dict)
    (h : backfillTerms fts rowid per_term acc = .ok acc') : Grows acc acc' := by
  induction per_term generalizing acc with
  | nil =>
    cases h
    exact ⟨hs, fun _ ht => ht⟩
  | cons p per_term ih =>
    obtain ⟨acc₁, h₁, h⟩ := bind_eq_ok.1 h
    have hgrow := backfillTerm_grows hs h₁
    have hgrow' := ih hgrow.1 h
    exact ⟨hgrow'.1, fun t ht => hgrow'.2 t (hgrow.2 t ht)⟩

lemma backfillRow_grows {tk : String → List Token} {values : List Value} (hs : SortedMap acc.dict)
    (h : backfillRow fts tk acc rowid values = .ok acc') : Grows acc acc' := by
  obtain ⟨⟨per_term, doclen⟩, -, h⟩ := bind_eq_ok.1 h
  obtain ⟨acc₁, h₁, h⟩ := bind_eq_ok.1 h
  obtain ⟨total, -, h⟩ := bind_eq_ok.1 h
  cases h
  have hgrow := backfillTerms_grows hs h₁
  exact ⟨hgrow.1, hgrow.2⟩

lemma backfillRows_grows {tk : String → List Token} {rows : List (Int64 × List Value)}
    (hs : SortedMap acc.dict) (h : backfillRows fts tk rows acc = .ok acc') : Grows acc acc' := by
  induction rows generalizing acc with
  | nil =>
    cases h
    exact ⟨hs, fun _ ht => ht⟩
  | cons p rows ih =>
    obtain ⟨acc₁, h₁, h⟩ := bind_eq_ok.1 h
    have hgrow := backfillRow_grows hs h₁
    have hgrow' := ih hgrow.1 h
    exact ⟨hgrow'.1, fun t ht => hgrow'.2 t (hgrow.2 t ht)⟩

lemma synced_terms (h : FtsHolds fts.fts_id kvs₀ kvs acc n) (hfit : TermsFit fts.fts_id acc)
    (rowid : Int64) (per_term : PerTerm) : Synced fts.fts_id kvs₀ n
      ((applyFtsTerms fts.fts_id rowid true per_term).onMap kvs)
      (backfillTerms fts rowid per_term acc) := by
  induction per_term generalizing kvs acc with
  | nil =>
    refine ⟨fun kvs' hr => ?_, fun acc' _ _ => ⟨kvs, rfl⟩⟩
    cases hr
    exact ⟨acc, rfl, hfit, h⟩
  | cons p per_term ih =>
    obtain ⟨term, fields⟩ := p
    rw [applyFtsTerms, TreeM.onMap, MapProgram.run_bind, backfillTerms]
    exact (synced_term h hfit rowid term fields).bind
      (fun kvs₁ acc₁ _ hfit₁ h₁ => ih h₁ hfit₁)
      fun acc₁ acc₂ h₁ h₂ hfit₂ =>
        (backfillTerms_grows (backfillTerm_grows h.dict_sorted h₁).1 h₂).fit hfit₂

/-- Where the map is behind the number of tokens of a row. -/
def withDoclen (fts_id : UInt32) (kvs : Entries) (rowid : Int64) (doclen : ℕ) : Entries :=
  if 0 < doclen then insertKey (ftsDoclenKey fts_id rowid) (putVarint doclen) kvs else kvs

lemma applyDoclen_onMap {fts_id : UInt32} (rowid : Int64) (doclen : ℕ) :
    (applyDoclen fts_id rowid true doclen).onMap kvs
      = .ok ((), withDoclen fts_id kvs rowid doclen) := by
  rw [applyDoclen, if_pos rfl, withDoclen]
  split_ifs
  · rw [TreeM.onMap, MapProgram.run_write, (CellKey.doclen rowid).check, ok_bind]
  · rfl

lemma sorted_withDoclen {fts_id : UInt32} (hs : SortedMap kvs) (rowid : Int64) (doclen : ℕ) :
    SortedMap (withDoclen fts_id kvs rowid doclen) := by
  rw [withDoclen]
  split_ifs
  · exact hs.insertKey
  · exact hs

lemma valueOf_withDoclen {fts_id : UInt32} (hs : SortedMap kvs) {doclen : ℕ} {key : Bytes}
    (h : StatKey fts_id key) : valueOf key (withDoclen fts_id kvs rowid doclen) = valueOf key kvs := by
  rw [withDoclen]
  split_ifs
  · exact valueOf_insertKey_of_ne hs ((CellKey.doclen rowid).ne_stat h).symm
  · rfl

lemma ftsReadGlobal_onMap {fts_id : UInt32} {total : ℕ} (hn : n < 2 ^ 64) (ht : total < 2 ^ 64)
    (hzero : n = 0 → total = 0) (h : valueOf (ftsGlobalKey fts_id) kvs
      = if 0 < n then some (putVarint n ++ putVarint total) else none) :
    (ftsReadGlobal fts_id).onMap kvs = .ok ((n, total), kvs) := by
  rw [ftsReadGlobal, TreeM.onMap, MapProgram.run_bind, MapProgram.run_read, ok_bind]
  dsimp only
  rw [h]
  split_ifs with hpos
  · have hsecond := takeVarint_put (putVarint n) [] (length_putVarint hn).symm ht
    rw [List.append_nil] at hsecond
    simp [takeVarint_head hn, hsecond]
  · obtain rfl : n = 0 := by omega
    rw [hzero rfl]
    rfl

/-- Where the map is behind a row. -/
def withRow (fts_id : UInt32) (kvs : Entries) (n : ℕ) (rowid : Int64) (doclen total : ℕ) : Entries :=
  insertKey (ftsGlobalKey fts_id) (putVarint (n + 1) ++ putVarint total)
    (withDoclen fts_id kvs rowid doclen)

lemma finishRow_onMap {fts_id : UInt32} (h : FtsHolds fts_id kvs₀ kvs acc n)
    (hn : n + 1 < 2 ^ 64) (rowid : Int64) (doclen : ℕ) :
    (applyDoclen fts_id rowid true doclen >>= fun _ => ftsAdjustGlobal fts_id true doclen).onMap kvs
      = addU64 acc.total doclen >>= fun total =>
        .ok ((), withRow fts_id kvs n rowid doclen total) := by
  have hglobal : valueOf (ftsGlobalKey fts_id) (withDoclen fts_id kvs rowid doclen)
      = if 0 < n then some (putVarint n ++ putVarint acc.total) else none :=
    (valueOf_withDoclen h.sorted .global).trans h.global
  have hread := ftsReadGlobal_onMap h.n_lt h.total_lt h.total_zero hglobal
  have hsucc : adjusted true n 1 = .ok (n + 1) := addU64_eq_ok.2 ⟨hn, rfl⟩
  rw [TreeM.onMap, MapProgram.run_bind, ← TreeM.onMap, applyDoclen_onMap, ok_bind,
    ftsAdjustGlobal, MapProgram.run_bind, ← TreeM.onMap, hread, ok_bind]
  simp only [MapProgram.run_bind, MapProgram.run_lift, hsucc, ok_bind]
  rw [adjusted, if_pos rfl]
  cases addU64 acc.total doclen with
  | error e => rfl
  | ok total =>
    simp only [ok_bind, Nat.add_eq_zero_iff, one_ne_zero, and_false, if_false]
    rw [MapProgram.run_write, keyCheck_global]
    rfl

/-- What a row does to what has been gathered, behind its terms. -/
def Backfill.withRow (fts_id : UInt32) (acc : Backfill) (rowid : Int64) (doclen total : ℕ) :
    Backfill :=
  { acc with
    entries := acc.entries ++
      if 0 < doclen then [(ftsDoclenKey fts_id rowid, putVarint doclen)] else []
    total }

lemma FtsHolds.withRow {fts_id : UInt32} (h : FtsHolds fts_id kvs₀ kvs acc n)
    (hn : n + 1 < 2 ^ 64) (rowid : Int64) (doclen : ℕ) {total : ℕ} (ht : total < 2 ^ 64) :
    FtsHolds fts_id kvs₀ (withRow fts_id kvs n rowid doclen total)
      (acc.withRow fts_id rowid doclen total) (n + 1) := by
  have hsorted : SortedMap (withDoclen fts_id kvs rowid doclen) :=
    sorted_withDoclen h.sorted rowid doclen
  -- a key that is not that of the numbers of all rows
  have hrest {key : Bytes} (hk : StatKey fts_id key) (hne : key ≠ ftsGlobalKey fts_id) :
      valueOf key (Catalog.withRow fts_id kvs n rowid doclen total) = valueOf key kvs := by
    rw [Catalog.withRow, valueOf_insertKey_of_ne hsorted hne, valueOf_withDoclen h.sorted hk]
  refine ⟨hsorted.insertKey, h.dict_sorted, h.df_lt, h.next_pos, hn, ht, fun h0 => (by omega),
    fun p hp => ?_, fun t => ?_, fun t => ?_, ?_, ?_, fun key hkey => ?_⟩
  · rcases List.mem_append.1 hp with hp | hp
    · exact h.cells p hp
    · split_ifs at hp
      · rw [List.mem_singleton.1 hp]
        exact .doclen rowid
      · cases hp
  · rw [hrest (.dict t) dict_ne_global, h.dict]
    rfl
  · rw [hrest (.df t) df_ne_global, h.df]
    rfl
  · rw [hrest .counter counter_ne_global, h.counter]
    rfl
  · rw [Catalog.withRow, valueOf_insertKey_self hsorted, if_pos (Nat.succ_pos n)]
    rfl
  · have hglobal : key ≠ ftsGlobalKey fts_id := fun heq => hkey (heq ▸ .global)
    rw [Catalog.withRow, valueOf_insertKey_of_ne hsorted hglobal, Backfill.withRow, withDoclen,
      lastOf_append]
    split_ifs
    · rw [lastOf_singleton]
      rcases eq_or_ne key (ftsDoclenKey fts_id rowid) with rfl | hne
      · rw [valueOf_insertKey_self h.sorted, if_pos rfl, Option.some_or, Option.some_or]
      · rw [valueOf_insertKey_of_ne h.sorted hne, if_neg hne.symm, Option.none_or,
          h.others key hkey]
    · rw [lastOf_nil, Option.none_or, h.others key hkey]

lemma synced_finish {fts : FtsIndexDef} (h : FtsHolds fts.fts_id kvs₀ kvs acc n)
    (hfit : TermsFit fts.fts_id acc) (hn : n + 1 < 2 ^ 64) (rowid : Int64) (doclen : ℕ) :
    Synced fts.fts_id kvs₀ (n + 1)
      ((applyDoclen fts.fts_id rowid true doclen >>= fun _ =>
        ftsAdjustGlobal fts.fts_id true doclen).onMap kvs)
      (acc.finishRow fts rowid doclen) := by
  have hfinish : acc.finishRow fts rowid doclen = addU64 acc.total doclen >>= fun total =>
    .ok (acc.withRow fts.fts_id rowid doclen total) := rfl
  rw [finishRow_onMap h hn, hfinish]
  refine ⟨fun kvs' hr => ?_, fun acc' ha _ => ?_⟩
  · obtain ⟨total, htotal, hr⟩ := bind_eq_ok.1 hr
    cases hr
    have hlt := addU64_eq_ok.1 htotal
    exact ⟨acc.withRow fts.fts_id rowid doclen total, by rw [htotal, ok_bind], hfit,
      h.withRow hn rowid doclen (by omega)⟩
  · obtain ⟨total, htotal, ha⟩ := bind_eq_ok.1 ha
    exact ⟨_, by rw [htotal, ok_bind]⟩

/-- The columns are there, so the row has the same terms either way. -/
lemma groupRecord_eq {tk : String → List Token} {record : List Value} {cols : List ℕ}
    (h : ∀ c ∈ cols, c < record.length) (st : PerTerm × ℕ) :
    groupRecord tk record cols st = groupValues tk record cols st := by
  induction cols generalizing st with
  | nil => rfl
  | cons c cols ih =>
    obtain ⟨v, hv⟩ : ∃ v, record[c]? = some v :=
      ⟨_, List.getElem?_eq_getElem (h c (by simp))⟩
    rw [groupRecord, groupValues, hv, okOr_some, ok_bind, Option.elim_some]
    cases (tokensOf tk v).foldlM (pushToken c) st with
    | error e => rfl
    | ok st' => exact ih (fun c' hc' => h c' (by simp [hc'])) st'

/-- The rows have the columns of the index. -/
def RowsFit (fts : FtsIndexDef) (rows : List (Int64 × List Value)) : Prop :=
  ∀ row ∈ rows, ∀ c ∈ fts.columns, c < row.2.length

section Tokenizer
variable {tokenize : String → String → List Token} {tk : String → List Token}

lemma applyFtsRow_onMap (htk : tokenizerFor tokenize fts.tokenizer = .ok tk)
    {record : List Value} (hcols : ∀ c ∈ fts.columns, c < record.length) (kvs : Entries) :
    (applyFtsRow tokenize fts rowid record true).onMap kvs
      = groupValues tk record fts.columns ([], 0) >>= fun g =>
        (applyFtsTerms fts.fts_id rowid true g.1).onMap kvs >>= fun x =>
          (applyDoclen fts.fts_id rowid true g.2 >>= fun _ =>
            ftsAdjustGlobal fts.fts_id true g.2).onMap x.2 := by
  rw [applyFtsRow, TreeM.onMap, MapProgram.run_bind, MapProgram.run_lift, htk, ok_bind, ok_bind,
    MapProgram.run_bind, MapProgram.run_lift, groupRecord_eq hcols]
  cases groupValues tk record fts.columns ([], 0) with
  | error e => rfl
  | ok g =>
    simp only [ok_bind, TreeM.onMap, MapProgram.run_bind]

lemma synced_row (htk : tokenizerFor tokenize fts.tokenizer = .ok tk)
    (h : FtsHolds fts.fts_id kvs₀ kvs acc n) (hfit : TermsFit fts.fts_id acc)
    (hn : n + 1 < 2 ^ 64) (rowid : Int64) {record : List Value}
    (hcols : ∀ c ∈ fts.columns, c < record.length) : Synced fts.fts_id kvs₀ (n + 1)
      ((applyFtsRow tokenize fts rowid record true).onMap kvs)
      (backfillRow fts tk acc rowid record) := by
  rw [applyFtsRow_onMap htk hcols, backfillRow]
  cases groupValues tk record fts.columns ([], 0) with
  | error e => exact ⟨fun _ hr => (by cases hr), fun _ ha => (by cases ha)⟩
  | ok g =>
    refine (synced_terms h hfit rowid g.1).bind
      (fun kvs₁ acc₁ _ hfit₁ h₁ => synced_finish h₁ hfit₁ hn rowid g.2) ?_
    intro acc₁ acc₂ h₁ h₂ hfit₂
    obtain ⟨total, -, h₂⟩ := bind_eq_ok.1 h₂
    cases h₂
    exact hfit₂

lemma synced_rows (htk : tokenizerFor tokenize fts.tokenizer = .ok tk)
    {rows : List (Int64 × List Value)} (h : FtsHolds fts.fts_id kvs₀ kvs acc n)
    (hfit : TermsFit fts.fts_id acc) (hn : n + rows.length < 2 ^ 64) (hrows : RowsFit fts rows) :
    Synced fts.fts_id kvs₀ (n + rows.length) ((applyFtsRows tokenize fts rows).onMap kvs)
      (backfillRows fts tk rows acc) := by
  induction rows generalizing kvs acc n with
  | nil =>
    refine ⟨fun kvs' hr => ?_, fun acc' _ _ => ⟨kvs, rfl⟩⟩
    cases hr
    exact ⟨acc, rfl, hfit, h⟩
  | cons row rows ih =>
    obtain ⟨rowid, record⟩ := row
    rw [List.length_cons, ← Nat.add_assoc, Nat.add_right_comm] at hn ⊢
    rw [applyFtsRows, TreeM.onMap, MapProgram.run_bind, backfillRows]
    exact (synced_row htk h hfit (by omega) rowid (hrows (rowid, record) (by simp))).bind
      (fun kvs₁ acc₁ _ hfit₁ h₁ => ih h₁ hfit₁ hn fun row hrow => hrows row (by simp [hrow]))
      fun acc₁ acc₂ h₁ h₂ hfit₂ =>
        (backfillRows_grows (backfillRow_grows h.dict_sorted h₁).1 h₂).fit hfit₂

end Tokenizer

end Rows

/-! ### Writing all cells -/

section Cells
variable {fts : FtsIndexDef} {kvs₀ kvs : Entries} {acc : Backfill} {n : ℕ}
  {order : List (String × UInt32 × ℕ) → List (String × UInt32 × ℕ)}

lemma writeCells_onMap {cells : List (Bytes × Bytes)} {kvs' : Entries} :
    (writeCells cells).onMap kvs = .ok ((), kvs') ↔
      (∀ p ∈ cells, TreeM.keyCheck p.1 = .ok ()) ∧ kvs' = insertAll cells kvs := by
  induction cells generalizing kvs with
  | nil =>
    refine ⟨fun h => ⟨by simp, ?_⟩, fun h => by rw [h.2]; rfl⟩
    cases h
    rfl
  | cons p cells ih =>
    obtain ⟨key, value⟩ := p
    rw [writeCells, TreeM.onMap, MapProgram.run_bind, MapProgram.run_write, List.forall_mem_cons]
    cases hcheck : TreeM.keyCheck key with
    | error e => exact ⟨fun h => (by cases h), fun h => (by cases h.1.1)⟩
    | ok u =>
      rw [ok_bind, ok_bind]
      refine ih.trans ?_
      rw [insertAll, insertAll, List.foldl_cons]
      exact ⟨fun h => ⟨⟨rfl, h.1⟩, h.2⟩, fun h => ⟨h.1.2, h.2⟩⟩

lemma mem_order (horder : ∀ l, (order l).Perm l) (hs : SortedMap acc.dict) {term : String}
    {e : UInt32 × ℕ} : (term, e) ∈ order acc.dict ↔ valueOf term acc.dict = some e := by
  rw [(horder acc.dict).mem_iff, mem_iff_valueOf hs]

/-- The cells of the dictionary are those of its terms. -/
lemma mem_dictCells (horder : ∀ l, (order l).Perm l) (hs : SortedMap acc.dict)
    {p : Bytes × Bytes} : p ∈ (order acc.dict).flatMap (dictCells fts) ↔
      ∃ term e, valueOf term acc.dict = some e ∧
        (p = (ftsTermDictKey fts.fts_id term, beBytes 4 e.1.toNat) ∨
          p = (ftsDfKey fts.fts_id term, putVarint e.2)) := by
  rw [List.mem_flatMap]
  constructor
  · rintro ⟨⟨term, e⟩, hmem, hp⟩
    exact ⟨term, e, (mem_order horder hs).1 hmem, by simpa [dictCells] using hp⟩
  · rintro ⟨term, e, hterm, hp⟩
    exact ⟨(term, e), (mem_order horder hs).2 hterm, by simpa [dictCells] using hp⟩

lemma lastOf_dict (horder : ∀ l, (order l).Perm l) (hs : SortedMap acc.dict) (term : String) :
    lastOf (ftsTermDictKey fts.fts_id term) ((order acc.dict).flatMap (dictCells fts))
      = (valueOf term acc.dict).map fun e => beBytes 4 e.1.toNat := by
  cases hterm : valueOf term acc.dict with
  | none =>
    refine lastOf_eq_none fun p hp heq => ?_
    obtain ⟨t, e, ht, rfl | rfl⟩ := (mem_dictCells horder hs).1 hp
    · rw [ftsTermDictKey_inj.1 heq, hterm] at ht
      cases ht
    · exact dict_ne_df heq.symm
  | some e =>
    refine lastOf_eq_some ((mem_dictCells horder hs).2 ⟨term, e, hterm, Or.inl rfl⟩)
      fun p hp heq => ?_
    obtain ⟨t, e', ht, rfl | rfl⟩ := (mem_dictCells horder hs).1 hp
    · rw [ftsTermDictKey_inj.1 heq, hterm] at ht
      cases ht
      rfl
    · exact absurd heq.symm dict_ne_df

lemma lastOf_df (horder : ∀ l, (order l).Perm l) (hs : SortedMap acc.dict) (term : String) :
    lastOf (ftsDfKey fts.fts_id term) ((order acc.dict).flatMap (dictCells fts))
      = (valueOf term acc.dict).map fun e => putVarint e.2 := by
  cases hterm : valueOf term acc.dict with
  | none =>
    refine lastOf_eq_none fun p hp heq => ?_
    obtain ⟨t, e, ht, rfl | rfl⟩ := (mem_dictCells horder hs).1 hp
    · exact dict_ne_df heq
    · rw [ftsDfKey_inj.1 heq, hterm] at ht
      cases ht
  | some e =>
    refine lastOf_eq_some ((mem_dictCells horder hs).2 ⟨term, e, hterm, Or.inr rfl⟩)
      fun p hp heq => ?_
    obtain ⟨t, e', ht, rfl | rfl⟩ := (mem_dictCells horder hs).1 hp
    · exact absurd heq dict_ne_df
    · rw [ftsDfKey_inj.1 heq, hterm] at ht
      cases ht
      rfl

lemma lastOf_dict_other (horder : ∀ l, (order l).Perm l) (hs : SortedMap acc.dict) {key : Bytes}
    (hdict : ∀ term, key ≠ ftsTermDictKey fts.fts_id term)
    (hdf : ∀ term, key ≠ ftsDfKey fts.fts_id term) :
    lastOf key ((order acc.dict).flatMap (dictCells fts)) = none := by
  refine lastOf_eq_none fun p hp heq => ?_
  obtain ⟨t, e, -, rfl | rfl⟩ := (mem_dictCells horder hs).1 hp
  · exact hdict t heq.symm
  · exact hdf t heq.symm

lemma lastOf_counter (key : Bytes) : lastOf key (counterCells fts acc.next_id)
    = if 1 < acc.next_id ∧ ftsTermCounterKey fts.fts_id = key
      then some (leBytes 4 acc.next_id.toNat) else none := by
  rw [counterCells]
  split_ifs with h1 h2 h2
  · rw [lastOf_singleton, if_pos h2.2]
  · rw [lastOf_singleton, if_neg fun heq => h2 ⟨h1, heq⟩]
  · exact absurd h2.1 h1
  · rfl

lemma lastOf_global (key : Bytes) (total : ℕ) : lastOf key (globalCells fts n total)
    = if 0 < n ∧ ftsGlobalKey fts.fts_id = key
      then some (putVarint n ++ putVarint total) else none := by
  rw [globalCells]
  split_ifs with h1 h2 h2
  · rw [lastOf_singleton, if_pos h2.2]
  · rw [lastOf_singleton, if_neg fun heq => h2 ⟨h1, heq⟩]
  · exact absurd h2.1 h1
  · rfl

lemma lastOf_cells (key : Bytes) : lastOf key (acc.cells fts order n)
    = (((lastOf key (globalCells fts n acc.total)).or
        (lastOf key (counterCells fts acc.next_id))).or
        (lastOf key ((order acc.dict).flatMap (dictCells fts)))).or (lastOf key acc.entries) := by
  rw [Backfill.cells, lastOf_append, lastOf_append, lastOf_append]

/-- Writing all cells leaves what the rows one after the other leave. -/
lemma FtsHolds.cells_eq (h : FtsHolds fts.fts_id kvs₀ kvs acc n)
    (horder : ∀ l, (order l).Perm l)
    (hempty : ∀ p ∈ kvs₀, ¬ ftsIdPrefix fts.fts_id <+: p.1) (key : Bytes) :
    valueOf key kvs = (lastOf key (acc.cells fts order n)).or (valueOf key kvs₀) := by
  have hnone {key : Bytes} (hk : StatKey fts.fts_id key) : valueOf key kvs₀ = none :=
    valueOf_eq_none fun p hmem heq => hempty p hmem (heq ▸ hk.begins)
  have hentries {key : Bytes} (hk : StatKey fts.fts_id key) : lastOf key acc.entries = none :=
    lastOf_eq_none fun p hp => (h.cells p hp).ne_stat hk
  by_cases hk : StatKey fts.fts_id key
  · rw [lastOf_cells, hentries hk, lastOf_counter, lastOf_global]
    have hnone := hnone hk
    have hglobal {k : Bytes} (hne : ftsGlobalKey fts.fts_id ≠ k) :
        ¬ (0 < n ∧ ftsGlobalKey fts.fts_id = k) := fun hc => hne hc.2
    have hcounter {k : Bytes} (hne : ftsTermCounterKey fts.fts_id ≠ k) :
        ¬ (1 < acc.next_id ∧ ftsTermCounterKey fts.fts_id = k) := fun hc => hne hc.2
    cases hk with
    | dict term =>
      rw [if_neg (hglobal dict_ne_global.symm), if_neg (hcounter dict_ne_counter.symm),
        lastOf_dict horder h.dict_sorted, h.dict, hnone]
      simp
    | df term =>
      rw [if_neg (hglobal df_ne_global.symm), if_neg (hcounter df_ne_counter.symm),
        lastOf_df horder h.dict_sorted, h.df, hnone]
      simp
    | counter =>
      rw [if_neg (hglobal counter_ne_global.symm), lastOf_dict_other horder h.dict_sorted
        (fun _ => dict_ne_counter.symm) fun _ => df_ne_counter.symm, h.counter, hnone]
      simp
    | global =>
      rw [if_neg (hcounter counter_ne_global), lastOf_dict_other horder h.dict_sorted
        (fun _ => dict_ne_global.symm) fun _ => df_ne_global.symm, h.global, hnone]
      simp
  · have hglobal : ¬ (0 < n ∧ ftsGlobalKey fts.fts_id = key) := fun hc => hk (hc.2 ▸ .global)
    have hcounter : ¬ (1 < acc.next_id ∧ ftsTermCounterKey fts.fts_id = key) := fun hc =>
      hk (hc.2 ▸ .counter)
    have hdict (t : String) : key ≠ ftsTermDictKey fts.fts_id t := fun heq => hk (heq ▸ .dict t)
    have hdf (t : String) : key ≠ ftsDfKey fts.fts_id t := fun heq => hk (heq ▸ .df t)
    rw [h.others key hk, lastOf_cells, lastOf_counter, lastOf_global, if_neg hglobal,
      if_neg hcounter, lastOf_dict_other horder h.dict_sorted hdict hdf]
    rfl

lemma mem_counterCells {p : Bytes × Bytes} (hp : p ∈ counterCells fts acc.next_id) :
    p.1 = ftsTermCounterKey fts.fts_id := by
  rw [counterCells] at hp
  split_ifs at hp
  · rw [List.mem_singleton.1 hp]
  · cases hp

lemma mem_globalCells {total : ℕ} {p : Bytes × Bytes} (hp : p ∈ globalCells fts n total) :
    p.1 = ftsGlobalKey fts.fts_id := by
  rw [globalCells] at hp
  split_ifs at hp
  · rw [List.mem_singleton.1 hp]
  · cases hp

/-- The terms are short enough when all keys pass the check. -/
lemma termsFit_of_check (horder : ∀ l, (order l).Perm l) (hs : SortedMap acc.dict)
    (h : ∀ p ∈ acc.cells fts order n, TreeM.keyCheck p.1 = .ok ()) : TermsFit fts.fts_id acc := by
  intro term hterm
  obtain ⟨e, he⟩ := Option.isSome_iff_exists.1 hterm
  have hmem : (ftsTermDictKey fts.fts_id term, beBytes 4 e.1.toNat)
      ∈ (order acc.dict).flatMap (dictCells fts) :=
    (mem_dictCells horder hs).2 ⟨term, e, he, Or.inl rfl⟩
  exact h _ (List.mem_append_right _ (List.mem_append_left _ hmem))

lemma FtsHolds.cells_check (h : FtsHolds fts.fts_id kvs₀ kvs acc n)
    (horder : ∀ l, (order l).Perm l) (hfit : TermsFit fts.fts_id acc) :
    ∀ p ∈ acc.cells fts order n, TreeM.keyCheck p.1 = .ok () := by
  intro p hp
  rw [Backfill.cells, List.mem_append, List.mem_append, List.mem_append] at hp
  rcases hp with hp | hp | hp | hp
  · exact (h.cells p hp).check
  · obtain ⟨term, e, he, rfl | rfl⟩ := (mem_dictCells horder h.dict_sorted).1 hp
    · exact hfit term (by rw [he]; rfl)
    · rw [keyCheck_df]
      exact hfit term (by rw [he]; rfl)
  · rw [mem_counterCells hp, keyCheck_counter]
  · rw [mem_globalCells hp, keyCheck_global]

end Cells

section Backfill
variable {fts_id : UInt32} {kvs₀ : Entries}

lemma ftsHolds_new (hs : SortedMap kvs₀) (hempty : ∀ p ∈ kvs₀, ¬ ftsIdPrefix fts_id <+: p.1) :
    FtsHolds fts_id kvs₀ kvs₀ Backfill.new 0 := by
  have hnone {key : Bytes} (hk : StatKey fts_id key) : valueOf key kvs₀ = none :=
    valueOf_eq_none fun p hmem heq => hempty p hmem (heq ▸ hk.begins)
  refine ⟨hs, List.Pairwise.nil, fun t e h => (by cases h), by decide, by decide, by decide,
    fun _ => rfl, fun p hp => (by cases hp), fun t => hnone (.dict t), fun t => hnone (.df t),
    hnone .counter, hnone .global, fun key _ => (Option.none_or ..).symm⟩

/-- The index over rows that are there, written as a whole, is the one that the rows leave when
they are put into an empty index one after the other; it fails when they fail. -/
theorem backfill_is_incremental (tokenize : String → String → List Token) (fts : FtsIndexDef)
    (order : List (String × UInt32 × ℕ) → List (String × UInt32 × ℕ))
    (horder : ∀ l, (order l).Perm l)
    (htok : fts.tokenizer = "unicode" ∨ fts.tokenizer = "ascii")
    (rows : List (Int64 × List Value)) (hrows : RowsFit fts rows) (hlen : rows.length < 2 ^ 64)
    (kvs : Entries) (hs : SortedMap kvs)
    (hempty : ∀ p ∈ kvs, ¬ ftsIdPrefix fts.fts_id <+: p.1) (kvs' : Entries) :
    (backfillFtsIndex tokenize fts order rows).onMap kvs = .ok ((), kvs') ↔
      (applyFtsRows tokenize fts rows).onMap kvs = .ok ((), kvs') := by
  have htk : tokenizerFor tokenize fts.tokenizer = .ok (tokenize fts.tokenizer) := by
    rw [tokenizerFor, require_pos htok, ok_bind]
  have hsync := synced_rows htk (ftsHolds_new hs hempty) (fun t h => (by cases h))
    (by omega) hrows
  rw [Nat.zero_add] at hsync
  have hbulk : (backfillFtsIndex tokenize fts order rows).onMap kvs = .ok ((), kvs') ↔
      ∃ acc, backfillRows fts (tokenize fts.tokenizer) rows Backfill.new = .ok acc ∧
        (∀ p ∈ acc.cells fts order rows.length, TreeM.keyCheck p.1 = .ok ()) ∧
        kvs' = insertAll ((acc.cells fts order rows.length).mergeSort keyLe) kvs := by
    rw [backfillFtsIndex, TreeM.onMap, MapProgram.run_bind, MapProgram.run_lift, htk, ok_bind,
      ok_bind, MapProgram.run_bind, MapProgram.run_lift, bind_eq_ok]
    constructor
    · rintro ⟨⟨acc, kvs₁⟩, hacc, hwrite⟩
      obtain ⟨acc', hacc', hacc⟩ := bind_eq_ok.1 hacc
      cases hacc
      obtain ⟨hcheck, heq⟩ := writeCells_onMap.1 hwrite
      exact ⟨acc, hacc', fun p hp => hcheck p ((List.mergeSort_perm _ _).mem_iff.2 hp), heq⟩
    · rintro ⟨acc, hacc, hcheck, heq⟩
      refine ⟨(acc, kvs), by rw [hacc, ok_bind], writeCells_onMap.2 ⟨fun p hp => ?_, heq⟩⟩
      exact hcheck p ((List.mergeSort_perm _ _).mem_iff.1 hp)
  -- the map that gathering leaves, whichever way it is written
  have hsame {acc : Backfill} {kvs₁ : Entries} (h : FtsHolds fts.fts_id kvs kvs₁ acc rows.length) :
      kvs₁ = insertAll ((acc.cells fts order rows.length).mergeSort keyLe) kvs := by
    refine SortedMap.ext h.sorted hs.insertAll fun key => ?_
    rw [valueOf_insertAll hs, lastOf_mergeSort, h.cells_eq horder hempty]
  rw [hbulk]
  constructor
  · rintro ⟨acc, hacc, hcheck, rfl⟩
    have hnew : SortedMap Backfill.new.dict := List.Pairwise.nil
    have hgrow := backfillRows_grows hnew hacc
    obtain ⟨kvs₁, hr⟩ := hsync.succeeds acc hacc (termsFit_of_check horder hgrow.1 hcheck)
    obtain ⟨acc₁, hacc₁, -, hholds⟩ := hsync.holds kvs₁ hr
    rw [hacc] at hacc₁
    cases hacc₁
    rw [hr, hsame hholds]
  · intro hr
    obtain ⟨acc, hacc, hfit, hholds⟩ := hsync.holds kvs' hr
    exact ⟨acc, hacc, hholds.cells_check horder hfit, hsame hholds⟩

/-- The theorem at two rows and a tokenizer that takes a text as one word. -/
theorem backfill_is_incremental_two :
    (backfillFtsIndex (fun _ t => [⟨t, 0⟩]) ⟨"f", 1, [1], "ascii"⟩ List.reverse
        [(1, [.null, .text "a"]), (2, [.null, .text "b"])]).onMap [] = .ok ((),
      [([3, 0, 0, 0, 1, 0, 129, 1, 129, 1], [1, 1, 0]),
        ([3, 0, 0, 0, 1, 0, 129, 2, 129, 2], [1, 1, 0]),
        ([3, 0, 0, 0, 1, 1, 128, 0, 0, 0, 0, 0, 0, 1], [1]),
        ([3, 0, 0, 0, 1, 1, 128, 0, 0, 0, 0, 0, 0, 2], [1]),
        ([3, 0, 0, 0, 1, 2], [2, 2]),
        ([3, 0, 0, 0, 1, 3, 1, 97, 0, 0], [1]),
        ([3, 0, 0, 0, 1, 3, 1, 98, 0, 0], [1]),
        ([3, 0, 0, 0, 1, 4, 1, 97, 0, 0], [0, 0, 0, 1]),
        ([3, 0, 0, 0, 1, 4, 1, 98, 0, 0], [0, 0, 0, 2]),
        ([3, 0, 0, 0, 1, 5], [3, 0, 0, 0])]) :=
  (backfill_is_incremental (fun _ t => [⟨t, 0⟩]) ⟨"f", 1, [1], "ascii"⟩ List.reverse
    (fun l => l.reverse_perm) (Or.inr rfl) [(1, [.null, .text "a"]), (2, [.null, .text "b"])]
    (by simp [RowsFit]) (by simp) [] List.Pairwise.nil (by simp) _).2 (by decide +kernel)

end Backfill

end Catalog

end Arkeion
