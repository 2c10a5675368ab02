import Arkeion.RecordWalk

/-!
Whole and partial decoding agree: on what both accept, and on where the bytes make the process end.
-/

namespace Arkeion

open Arkeion.Lib

/-- The bytes of a value that is a blob. -/
def blobOf : Option Value → Option Bytes
  | some (.blob b) => some b
  | _ => none

/-- The values are those of the first columns; a column that is no value (a text that is not UTF-8,
which is skipped unread) only has its tag. -/
def Follows (buf : Bytes) (tags : List UInt8) (pos : ℕ) (vs : List Value) : Prop :=
  ∀ i v, vs[i]? = some v → tags[i]? = some (tagOf v) ∧ ∃ q e, Columns buf (tags.take i) pos q ∧
    Column buf q (tagOf v) e ∧ ∀ u e', decodePayload buf q (tagOf v) = .ok (u, e') → u = v

/-- A record that starts with the same columns as the bytes. -/
def StartsLike (buf : Bytes) (vs : List Value) : Prop :=
  ∀ i v, vs[i]? = some v → ∃ q e, ColumnAt buf i (tagOf v) q ∧ Column buf q (tagOf v) e ∧
    ∀ u e', decodePayload buf q (tagOf v) = .ok (u, e') → u = v

section Follows
variable {buf : Bytes} {pos q k : ℕ} {tag : UInt8} {tags : List UInt8} {v : Value} {vs : List Value}

lemma follows_nil : Follows buf tags pos [] := fun i v h => by cases h

lemma Follows.cons (hc : Column buf pos (tagOf v) q)
    (hv : ∀ u e, decodePayload buf pos (tagOf v) = .ok (u, e) → u = v) (h : Follows buf tags q vs) :
    Follows buf (tagOf v :: tags) pos (v :: vs) := by
  intro i u hu
  cases i with
  | zero =>
    obtain rfl : v = u := Option.some.inj hu
    exact ⟨rfl, pos, q, .nil pos, hc, hv⟩
  | succ i =>
    obtain ⟨ht, q', e, hcs, hrest⟩ := h i u hu
    exact ⟨ht, q', e, .cons hc hcs, hrest⟩

/-- Some value has the tag, and the value that is decoded if there is one. -/
lemma exists_value (hc : Column buf pos tag q) : ∃ v, tagOf v = tag ∧
    ∀ u e, decodePayload buf pos tag = .ok (u, e) → u = v := by
  by_cases hd : ∃ u e, decodePayload buf pos tag = .ok (u, e)
  · obtain ⟨u, e, hd⟩ := hd
    refine ⟨u, (decodePayload_ok hd).2, fun u' e' hd' => ?_⟩
    rw [hd] at hd'
    cases hd'
    rfl
  · have hnone (v : Value) : ∀ u e, decodePayload buf pos tag = .ok (u, e) → u = v :=
      fun u e h => absurd ⟨u, e, h⟩ hd
    cases hc with
    | empty he =>
      rcases he with rfl | rfl | rfl
      · exact ⟨.null, rfl, hnone _⟩
      · exact ⟨.bool false, rfl, hnone _⟩
      · exact ⟨.bool true, rfl, hnone _⟩
    | int hu => exact ⟨.integer 0, rfl, hnone _⟩
    | range hr hle =>
      rcases tag_cases tag with he | rfl | rfl | (rfl | rfl) | hu
      · rw [payloadRange_empty he] at hr
        cases hr
      · cases hr
      · exact ⟨.real ⟨0⟩, rfl, hnone _⟩
      · exact ⟨.text "", rfl, hnone _⟩
      · exact ⟨.blob [], rfl, hnone _⟩
      · rw [payloadRange_unknown hu] at hr
        cases hr

/-- Skipped columns are those of some record. -/
lemma exists_follows (h : Columns buf tags pos q) : ∃ vs, vs.length = tags.length ∧
    Follows buf tags pos vs := by
  induction h with
  | nil pos => exact ⟨[], rfl, follows_nil⟩
  | @cons tag tags pos q e hc hs ih =>
    obtain ⟨vs, hlen, hf⟩ := ih
    obtain ⟨v, rfl, hv⟩ := exists_value hc
    exact ⟨v :: vs, congrArg (· + 1) hlen, hf.cons hc hv⟩

lemma map_later (v : Value) {wanted : List ℕ} (hl : ∀ u ∈ wanted, k + 1 ≤ u) :
    (wanted.map fun u => vs[u - (k + 1)]?) = wanted.map fun u => (v :: vs)[u - k]? := by
  refine List.map_congr_left fun u hu => ?_
  have hle := hl u hu
  rw [show u - k = u - (k + 1) + 1 by omega, List.getElem?_cons_succ]

lemma rising_later {w : ℕ} {wanted : List ℕ} (hw : ∀ u ∈ wanted, w < u) (hkw : k ≤ w) (hne : w ≠ k) :
    ∀ u ∈ w :: wanted, k + 1 ≤ u := by
  intro u hu
  rcases List.mem_cons.1 hu with rfl | hu
  · omega
  · have hlt := hw u hu
    omega

/-- What is decoded of some columns belongs to a record that starts with them. -/
lemma decodeWanted_follows {wanted : List ℕ} {out : List (Option Value)}
    (hw : wanted.Pairwise (· < ·)) (hk : ∀ w ∈ wanted, k ≤ w)
    (h : decodeWanted buf tags pos k wanted = .ok out) :
    ∃ vs, Follows buf tags pos vs ∧ out = wanted.map fun w => vs[w - k]? := by
  induction tags generalizing pos k wanted out with
  | nil =>
    refine ⟨[], follows_nil, ?_⟩
    cases wanted with
    | nil =>
      cases h
      rfl
    | cons w wanted =>
      cases h
      simp
  | cons tag tags ih =>
    cases wanted with
    | nil =>
      cases h
      exact ⟨[], follows_nil, rfl⟩
    | cons w wanted =>
      rw [List.pairwise_cons] at hw
      have hkw := hk w List.mem_cons_self
      rw [decodeWanted] at h
      split_ifs at h with hwk
      · obtain ⟨⟨v, q⟩, hv, h⟩ := bind_eq_ok.1 h
        obtain ⟨rest, hrest, h⟩ := bind_eq_ok.1 h
        cases h
        obtain ⟨hskip, rfl⟩ := decodePayload_ok hv
        have hrest' : ∀ u ∈ wanted, k + 1 ≤ u := fun u hu => hwk ▸ hw.1 u hu
        obtain ⟨vs, hf, rfl⟩ := ih hw.2 hrest' hrest
        refine ⟨v :: vs, hf.cons (skipPayload_ok.1 hskip).1 fun u e hu => ?_, ?_⟩
        · rw [hv] at hu
          cases hu
          rfl
        · rw [List.map_cons, hwk, Nat.sub_self, List.getElem?_cons_zero, map_later v hrest']
      · obtain ⟨q, hq, hrest⟩ := bind_eq_ok.1 h
        have hc := (skipPayload_ok.1 hq).1
        have hall := rising_later hw.1 hkw hwk
        obtain ⟨vs, hf, rfl⟩ := ih (List.pairwise_cons.2 hw) hall hrest
        obtain ⟨v, rfl, hv⟩ := exists_value hc
        exact ⟨v :: vs, hf.cons hc hv, map_later v hall⟩

/-- What is decoded as a whole is decoded column by column. -/
lemma decodeWanted_of_decodePayloads {wanted : List ℕ} (hw : wanted.Pairwise (· < ·))
    (hk : ∀ w ∈ wanted, k ≤ w) (h : decodePayloads buf tags pos = .ok (vs, q)) :
    decodeWanted buf tags pos k wanted = .ok (wanted.map fun w => vs[w - k]?) := by
  induction tags generalizing pos k wanted vs with
  | nil =>
    cases h
    cases wanted <;> simp [decodeWanted]
  | cons tag tags ih =>
    obtain ⟨⟨v, q'⟩, hv, h⟩ := bind_eq_ok.1 h
    obtain ⟨⟨vs', q''⟩, hvs, h⟩ := bind_eq_ok.1 h
    cases h
    cases wanted with
    | nil => rfl
    | cons w wanted =>
      rw [List.pairwise_cons] at hw
      have hkw := hk w List.mem_cons_self
      rw [decodeWanted]
      split_ifs with hwk
      · have hrest : ∀ u ∈ wanted, k + 1 ≤ u := fun u hu => hwk ▸ hw.1 u hu
        refine bind_eq_ok.2 ⟨(v, q'), hv, bind_eq_ok.2 ⟨_, ih hw.2 hrest hvs, ?_⟩⟩
        rw [List.map_cons, hwk, Nat.sub_self, List.getElem?_cons_zero, map_later v hrest]
      · have hall := rising_later hw.1 hkw hwk
        rw [(decodePayload_ok hv).1, ok_bind, ih (List.pairwise_cons.2 hw) hall hvs,
          map_later v hall]

lemma skipPayloads_of_decodePayloads (h : decodePayloads buf tags pos = .ok (vs, q)) (n : ℕ) :
    ∃ q', skipPayloads buf (tags.take n) pos = .ok q' ∧
      ∀ tag, tags[n]? = some tag → ∃ v e, vs[n]? = some v ∧ decodePayload buf q' tag = .ok (v, e) := by
  induction tags generalizing pos vs n with
  | nil => exact ⟨pos, by rw [List.take_nil]; rfl, fun tag ht => by cases ht⟩
  | cons tag tags ih =>
    obtain ⟨⟨v, q'⟩, hv, h⟩ := bind_eq_ok.1 h
    obtain ⟨⟨vs', q''⟩, hvs, h⟩ := bind_eq_ok.1 h
    cases h
    cases n with
    | zero =>
      refine ⟨pos, rfl, fun t ht => ?_⟩
      cases ht
      exact ⟨v, q', rfl, hv⟩
    | succ n =>
      obtain ⟨p, hp, hrest⟩ := ih hvs n
      refine ⟨p, ?_, hrest⟩
      rw [List.take_succ_cons, skipPayloads, (decodePayload_ok hv).1, ok_bind, hp]

lemma length_decodePayloads (h : decodePayloads buf tags pos = .ok (vs, q)) :
    vs.length = tags.length := by
  induction tags generalizing pos vs with
  | nil =>
    cases h
    rfl
  | cons tag tags ih =>
    obtain ⟨⟨v, q'⟩, hv, h⟩ := bind_eq_ok.1 h
    obtain ⟨⟨vs', q''⟩, hvs, h⟩ := bind_eq_ok.1 h
    cases h
    exact congrArg (· + 1) (ih hvs)

end Follows

/-! ### The decoders -/

/-- What is to hold of the three decoders on some bytes. -/
structure DecodersAgree (buf : Bytes) : Prop where
  values_safe : ¬ Panics (decodeValues buf)
  cols_safe : ∀ wanted : List ℕ, wanted.Pairwise (· < ·) → ¬ Panics (decodeColsSorted buf wanted)
  blob_safe : ∀ col, ¬ Panics (colBlobBytes buf col)
  /-- The position does not move backwards. -/
  forward : ∀ pos tag q, (skipPayload buf pos tag = .ok q → pos ≤ q) ∧
    ∀ v, decodePayload buf pos tag = .ok (v, q) → pos ≤ q
  whole : ∀ vs, decodeValues buf = .ok vs →
    (∀ wanted : List ℕ, wanted.Pairwise (· < ·) →
      decodeColsSorted buf wanted = .ok (wanted.map fun w => vs[w]?)) ∧
    ∀ col, colBlobBytes buf col = .ok (blobOf vs[col]?)
  cols : ∀ (wanted : List ℕ) out, wanted.Pairwise (· < ·) → decodeColsSorted buf wanted = .ok out →
    ∃ vs, StartsLike buf vs ∧ out = wanted.map fun w => vs[w]?
  blob : ∀ col b, colBlobBytes buf col = .ok b → ∃ vs, StartsLike buf vs ∧ b = blobOf vs[col]? ∧
    (b = none → (∀ n p, takeVarint buf 0 = some (n, p) → n ≤ col) ∨
      vs.length = col ∧ ∃ tag q, ColumnAt buf col tag q ∧ tag ≠ TAG_BLOB)

section Decoders
variable {buf : Bytes} {pos q n p : ℕ} {tag : UInt8} {tags : List UInt8} {vs : List Value}

lemma takeHeader_eq : takeHeader buf = takeLen buf 0 "cabecera de registro truncada" >>= fun r =>
    getRange buf r.2 r.1 "tags truncados" >>= fun b => .ok (b, r.2 + r.1) := rfl

lemma takeHeader_ok : takeHeader buf = .ok (tags, pos) ↔ ∃ n p, takeVarint buf 0 = some (n, p) ∧
    p + n < 2 ^ 64 ∧ p + n ≤ buf.length ∧ tags = sub buf p n ∧ pos = p + n := by
  rw [takeHeader_eq, readRange_ok (k := fun r b => .ok (b, r.2 + r.1))]
  simp only [Except.ok.injEq, Prod.mk.injEq, eq_comm]

lemma panics_takeHeader : Panics (takeHeader buf)
    ↔ ∃ p n, takeVarint buf 0 = some (n, p) ∧ 2 ^ 64 ≤ p + n := by
  rw [takeHeader_eq]
  refine (panics_readRange fun _ _ => (panics_ok _).1).trans ?_
  constructor
  · rintro ⟨p, n, hmap, hle⟩
    obtain ⟨⟨n', p'⟩, hn, heq⟩ := Option.map_eq_some_iff.1 hmap
    obtain ⟨rfl, rfl⟩ := Prod.mk.inj heq
    exact ⟨p', n', hn, hle⟩
  · rintro ⟨p, n, hn, hle⟩
    exact ⟨p, n, by rw [hn]; rfl, hle⟩

lemma LengthsFit.not_panics_takeHeader (h : LengthsFit buf) : ¬ Panics (takeHeader buf) := fun hp => by
  obtain ⟨p, n, hn, hle⟩ := panics_takeHeader.1 hp
  exact absurd (h.header n p hn) (not_lt.2 hle)

lemma LengthsFit.rangesFit (h : LengthsFit buf) (ht : takeHeader buf = .ok (tags, pos)) :
    RangesFit buf tags pos := by
  obtain ⟨n, p, hn, -, hle, rfl, rfl⟩ := takeHeader_ok.1 ht
  exact fun i tag q p' len hi hcs hr => h.column i tag q p' len ⟨n, p, hn, hle, hi, hcs⟩ hr

lemma LengthsFit.values_safe (h : LengthsFit buf) : ¬ Panics (decodeValues buf) := by
  rw [decodeValues, panics_bind]
  rintro (hp | ⟨⟨tags, pos⟩, ht, hp⟩)
  · exact h.not_panics_takeHeader hp
  · rw [panics_bind] at hp
    rcases hp with hp | ⟨⟨vs, q⟩, -, hp⟩
    · exact not_panics_decodePayloads (h.rangesFit ht) hp
    · dsimp only at hp
      split_ifs at hp
      · exact (panics_ok _).1 hp
      · exact (panics_error _).1 hp

lemma LengthsFit.cols_safe (h : LengthsFit buf) (wanted : List ℕ) :
    ¬ Panics (decodeColsSorted buf wanted) := by
  rw [decodeColsSorted, panics_bind]
  rintro (hp | ⟨⟨tags, pos⟩, ht, hp⟩)
  · exact h.not_panics_takeHeader hp
  · exact not_panics_decodeWanted (h.rangesFit ht) hp

/-! The bytes of a blob are read as its payload is decoded. -/

lemma blob_ok {b : Bytes} {r₁ r₂ : String} : (takeLen buf pos r₁ >>= fun r =>
      getRange buf r.2 r.1 r₂ >>= fun b => .ok (some b)) = (.ok (some b) : Result (Option Bytes))
    ↔ ∃ e, decodePayload buf pos TAG_BLOB = .ok (.blob b, e) := by
  rw [readRange_ok (k := fun _ b => .ok (some b)), decodePayload_blob]
  simp only [readRange_ok (k := fun (r : ℕ × ℕ) b => (.ok (Value.blob b, r.2 + r.1) :
    Result (Value × ℕ))), Except.ok.injEq, Option.some.injEq, Prod.mk.injEq, Value.blob.injEq]
  constructor
  · rintro ⟨len, p, hlen, hlt, hle, rfl⟩
    exact ⟨p + len, len, p, hlen, hlt, hle, rfl, rfl⟩
  · rintro ⟨e, len, p, hlen, hlt, hle, rfl, rfl⟩
    exact ⟨len, p, hlen, hlt, hle, rfl⟩

/-- The rest of `colBlobBytes`, behind the tags. -/
def blobBehind (buf : Bytes) (col : ℕ) (tags : List UInt8) (pos : ℕ) : Result (Option Bytes) :=
  skipPayloads buf (tags.take col) pos >>= fun q =>
    if tags[col]? = some TAG_BLOB then
      takeLen buf q "longitud de blob truncada" >>= fun r =>
        getRange buf r.2 r.1 "blob truncado" >>= fun b => .ok (some b)
    else .ok none

lemma colBlobBytes_of_lt {col : ℕ} (hn : takeVarint buf 0 = some (n, p)) (hcol : col < n) :
    colBlobBytes buf col = takeHeader buf >>= fun r => blobBehind buf col r.1 r.2 := by
  have heq : colBlobBytes buf col = takeLen buf 0 "cabecera de registro truncada" >>= fun r =>
      if r.1 ≤ col then .ok none
      else getRange buf r.2 r.1 "tags truncados" >>= fun tags =>
        blobBehind buf col tags (r.2 + r.1) := rfl
  rw [heq, takeHeader_eq, takeLen_ok.2 hn, ok_bind, ok_bind, if_neg (not_le.2 hcol)]
  cases getRange buf p n "tags truncados" <;> rfl

lemma colBlobBytes_of_le {col : ℕ} (hn : takeVarint buf 0 = some (n, p)) (hcol : n ≤ col) :
    colBlobBytes buf col = .ok none := by
  rw [colBlobBytes, takeLen_ok.2 hn]
  exact if_pos hcol

lemma colBlobBytes_of_none {col : ℕ} (hn : takeVarint buf 0 = none) :
    colBlobBytes buf col = .error (.corruptRecord "cabecera de registro truncada") := by
  rw [colBlobBytes, takeLen, hn]
  rfl

lemma not_panics_blobBehind {col : ℕ} (h : RangesFit buf tags pos) :
    ¬ Panics (blobBehind buf col tags pos) := by
  rw [blobBehind, panics_bind]
  rintro (hp | ⟨q, hq, hp⟩)
  · exact not_panics_skipPayloads (h.take col) hp
  · split_ifs at hp with htag
    · obtain ⟨p, len, hr, hle⟩ := (panics_readRange fun _ _ => (panics_ok _).1).1 hp
      exact absurd (h col TAG_BLOB q p len htag (skipPayloads_ok hq)
        ((payloadRange_behind (Or.inr rfl)).trans hr)) (not_lt.2 hle)
    · exact (panics_ok _).1 hp

lemma LengthsFit.blob_safe (h : LengthsFit buf) (col : ℕ) : ¬ Panics (colBlobBytes buf col) := by
  cases hn : takeVarint buf 0 with
  | none =>
    rw [colBlobBytes_of_none hn]
    exact (panics_error _).1
  | some r =>
    obtain ⟨n, p⟩ := r
    rcases Nat.lt_or_ge col n with hcol | hcol
    · rw [colBlobBytes_of_lt hn hcol, panics_bind]
      rintro (hp | ⟨⟨tags, pos⟩, ht, hp⟩)
      · exact h.not_panics_takeHeader hp
      · exact not_panics_blobBehind (h.rangesFit ht) hp
    · rw [colBlobBytes_of_le hn hcol]
      exact (panics_ok _).1

/-- Where nothing stops the process, all lengths fit. -/
lemma lengthsFit_of_safe (hvalues : ¬ Panics (decodeValues buf))
    (hcols : ∀ wanted : List ℕ, wanted.Pairwise (· < ·) → ¬ Panics (decodeColsSorted buf wanted)) :
    LengthsFit buf where
  header n p hn := by
    by_contra hle
    refine hvalues ?_
    rw [decodeValues, panics_bind]
    exact Or.inl (panics_takeHeader.2 ⟨p, n, hn, not_lt.1 hle⟩)
  column i tag pos p len hcol hr := by
    by_contra hle
    obtain ⟨n, p₀, hn, hin, htag, hcs⟩ := hcol
    refine hcols [i] (List.pairwise_singleton _ _) ?_
    rw [decodeColsSorted, panics_bind]
    rcases Nat.lt_or_ge (p₀ + n) (2 ^ 64) with hlt | hge
    · refine Or.inr ⟨_, takeHeader_ok.2 ⟨n, p₀, hn, hlt, hin, rfl, rfl⟩, ?_⟩
      have hpanics := panics_decodeWanted (k := 0) htag hcs hr (not_lt.1 hle)
      rwa [Nat.zero_add] at hpanics
    · exact Or.inl (panics_takeHeader.2 ⟨p₀, n, hn, hge⟩)

/-! ### Agreement -/

lemma takeVarintAux_pos_lt {n pos shift v : ℕ} {r : ℕ × ℕ}
    (h : takeVarintAux buf n pos shift v = some r) : pos < r.2 := by
  induction n generalizing pos shift v with
  | zero => cases h
  | succ n ih =>
    rw [takeVarintAux] at h
    cases hb : buf[pos]? with
    | none =>
      rw [hb] at h
      cases h
    | some b =>
      rw [hb] at h
      dsimp only at h
      split_ifs at h
      · cases h
        exact Nat.lt_succ_self pos
      · exact (Nat.lt_succ_self pos).trans (ih h)

lemma Column.le (h : Column buf pos tag q) : pos ≤ q := by
  cases h with
  | empty he => exact le_refl pos
  | int hu => exact (takeVarintAux_pos_lt hu).le
  | @range _ p len hr hle =>
    rcases tag_cases tag with he | rfl | rfl | hb | hu
    · rw [payloadRange_empty he] at hr
      cases hr
    · cases hr
    · cases hr
      exact Nat.le_add_right pos 8
    · rw [payloadRange_behind hb] at hr
      obtain ⟨⟨len', p'⟩, hlen, heq⟩ := Option.map_eq_some_iff.1 hr
      obtain ⟨rfl, rfl⟩ := Prod.mk.inj heq
      exact (takeVarintAux_pos_lt hlen).le.trans (Nat.le_add_right p' len')
    · rw [payloadRange_unknown hu] at hr
      cases hr

lemma Follows.startsLike (ht : takeHeader buf = .ok (tags, pos)) (h : Follows buf tags pos vs) :
    StartsLike buf vs := by
  obtain ⟨n, p, hn, -, hle, rfl, rfl⟩ := takeHeader_ok.1 ht
  intro i v hv
  obtain ⟨htag, q, e, hcs, hrest⟩ := h i v hv
  exact ⟨q, e, ⟨n, p, hn, hle, htag, hcs⟩, hrest⟩

lemma length_tags (ht : takeHeader buf = .ok (tags, pos)) (hn : takeVarint buf 0 = some (n, p)) :
    tags.length = n := by
  obtain ⟨n', p', hn', -, hle, rfl, -⟩ := takeHeader_ok.1 ht
  rw [hn] at hn'
  cases hn'
  rw [sub, List.length_take, List.length_drop]
  omega

lemma blobOf_eq_none {v : Value} (h : tagOf v ≠ TAG_BLOB) : blobOf (some v) = none := by
  cases v with
  | blob b => exact absurd rfl h
  | bool b => rfl
  | _ => rfl

lemma eq_blob {v : Value} (h : tagOf v = TAG_BLOB) : ∃ b, v = .blob b := by
  cases v with
  | blob b => exact ⟨b, rfl⟩
  | bool b => cases b <;> cases h
  | _ => cases h

lemma decodeValues_ok (h : decodeValues buf = .ok vs) : ∃ tags pos q,
    takeHeader buf = .ok (tags, pos) ∧ decodePayloads buf tags pos = .ok (vs, q) := by
  obtain ⟨⟨tags, pos⟩, ht, h⟩ := bind_eq_ok.1 h
  obtain ⟨⟨vs', q⟩, hvs, h⟩ := bind_eq_ok.1 h
  dsimp only at h
  split_ifs at h
  cases h
  exact ⟨tags, pos, q, ht, hvs⟩

/-- What the whole record holds is what the partial decoders find. -/
lemma decodeColsSorted_of_decodeValues (h : decodeValues buf = .ok vs) {wanted : List ℕ}
    (hw : wanted.Pairwise (· < ·)) :
    decodeColsSorted buf wanted = .ok (wanted.map fun w => vs[w]?) := by
  obtain ⟨tags, pos, q, ht, hvs⟩ := decodeValues_ok h
  have hall := decodeWanted_of_decodePayloads (k := 0) hw (fun w _ => Nat.zero_le w) hvs
  rw [decodeColsSorted, ht]
  exact hall

lemma colBlobBytes_of_decodeValues (h : decodeValues buf = .ok vs) (col : ℕ) :
    colBlobBytes buf col = .ok (blobOf vs[col]?) := by
  obtain ⟨tags, pos, q, ht, hvs⟩ := decodeValues_ok h
  obtain ⟨n, p, hn, -⟩ := takeHeader_ok.1 ht
  have hlen : vs.length = n := (length_decodePayloads hvs).trans (length_tags ht hn)
  rcases Nat.lt_or_ge col n with hcol | hcol
  · obtain ⟨q', hskip, hread⟩ := skipPayloads_of_decodePayloads hvs col
    obtain ⟨tag, htag⟩ : ∃ tag, tags[col]? = some tag :=
      ⟨_, List.getElem?_eq_getElem (by rwa [length_tags ht hn])⟩
    obtain ⟨v, e, hv, hdec⟩ := hread tag htag
    have hv' := (decodePayload_ok hdec).2
    rw [colBlobBytes_of_lt hn hcol, ht, ok_bind, blobBehind, hskip, ok_bind, htag, hv]
    split_ifs with hb
    · obtain rfl : tag = TAG_BLOB := Option.some.inj hb
      obtain ⟨b, rfl⟩ := eq_blob hv'
      exact blob_ok.2 ⟨e, hdec⟩
    · rw [blobOf_eq_none fun h => hb (by rw [← hv', h])]
  · rw [colBlobBytes_of_le hn hcol, List.getElem?_eq_none (by omega)]
    rfl

/-- The columns before one that is read, and the value of that one. -/
lemma Follows.snoc {col : ℕ} {v : Value} {e : ℕ} (hlen : vs.length = col)
    (hskip : Columns buf (tags.take col) pos q) (htag : tags[col]? = some (tagOf v))
    (hv : decodePayload buf q (tagOf v) = .ok (v, e)) (h : Follows buf (tags.take col) pos vs) :
    Follows buf tags pos (vs ++ [v]) := by
  intro i u hu
  rcases Nat.lt_or_ge i vs.length with hi | hi
  · rw [List.getElem?_append_left hi] at hu
    obtain ⟨ht, q', e', hcs, hrest⟩ := h i u hu
    rw [List.getElem?_take_of_lt (by omega)] at ht
    rw [List.take_take, Nat.min_eq_left (by omega)] at hcs
    exact ⟨ht, q', e', hcs, hrest⟩
  · rw [List.getElem?_append_right hi] at hu
    have hzero : i - vs.length = 0 := by
      by_contra hne
      rw [List.getElem?_eq_none (by rw [List.length_singleton]; omega)] at hu
      cases hu
    rw [hzero] at hu
    obtain rfl : v = u := Option.some.inj hu
    obtain rfl : i = col := by omega
    refine ⟨htag, q, e, hskip, (skipPayload_ok.1 (decodePayload_ok hv).1).1, fun w e' hw => ?_⟩
    rw [hv] at hw
    cases hw
    rfl

lemma Follows.of_take {col : ℕ} (hlen : vs.length = col)
    (h : Follows buf (tags.take col) pos vs) : Follows buf tags pos vs := by
  intro i u hu
  have hi := (List.getElem?_eq_some_iff.1 hu).1
  obtain ⟨ht, q', e', hcs, hrest⟩ := h i u hu
  rw [List.getElem?_take_of_lt (by omega)] at ht
  rw [List.take_take, Nat.min_eq_left (by omega)] at hcs
  exact ⟨ht, q', e', hcs, hrest⟩

lemma colBlobBytes_startsLike {col : ℕ} {b : Option Bytes} (h : colBlobBytes buf col = .ok b) :
    ∃ vs, StartsLike buf vs ∧ b = blobOf vs[col]? ∧
      (b = none → (∀ n p, takeVarint buf 0 = some (n, p) → n ≤ col) ∨
        vs.length = col ∧ ∃ tag q, ColumnAt buf col tag q ∧ tag ≠ TAG_BLOB) := by
  cases hn : takeVarint buf 0 with
  | none =>
    rw [colBlobBytes_of_none hn] at h
    cases h
  | some r =>
    obtain ⟨n, p⟩ := r
    rcases Nat.lt_or_ge col n with hcol | hcol
    · rw [colBlobBytes_of_lt hn hcol] at h
      obtain ⟨⟨tags, pos⟩, ht, h⟩ := bind_eq_ok.1 h
      obtain ⟨q, hq, h⟩ := bind_eq_ok.1 h
      have hskip := skipPayloads_ok hq
      obtain ⟨vs, hlen, hf⟩ := exists_follows hskip
      have htags := length_tags ht hn
      rw [List.length_take, htags, Nat.min_eq_left hcol.le] at hlen
      obtain ⟨tag, htag⟩ : ∃ tag, tags[col]? = some tag :=
        ⟨_, List.getElem?_eq_getElem (by rwa [htags])⟩
      rw [htag] at h
      split_ifs at h with hb
      · obtain rfl : tag = TAG_BLOB := Option.some.inj hb
        obtain ⟨len, p', hvar, hlt, hle, hval⟩ := readRange_ok.1 h
        cases hval
        obtain ⟨e, hdec⟩ := blob_ok.1 h
        refine ⟨vs ++ [.blob (sub buf p' len)], (hf.snoc (v := .blob (sub buf p' len)) hlen hskip htag hdec).startsLike ht, ?_,
          fun h0 => (by cases h0)⟩
        rw [← hlen, List.getElem?_concat_length]
        rfl
      · cases h
        refine ⟨vs, (hf.of_take hlen).startsLike ht, ?_, fun _ => Or.inr ⟨hlen, tag, q, ?_, ?_⟩⟩
        · rw [List.getElem?_eq_none hlen.le]
          rfl
        · obtain ⟨n', p', hn', -, hle, rfl, rfl⟩ := takeHeader_ok.1 ht
          exact ⟨n', p', hn', hle, htag, hskip⟩
        · exact fun h0 => hb (by rw [h0])
    · rw [colBlobBytes_of_le hn hcol] at h
      cases h
      refine ⟨[], fun i v hv => (by cases hv), rfl, fun _ => Or.inl fun n' p' hn' => ?_⟩
      cases hn'
      exact hcol

lemma decodersAgree_iff : DecodersAgree buf ↔ LengthsFit buf := by
  constructor
  · exact fun h => lengthsFit_of_safe h.values_safe h.cols_safe
  · intro h
    refine ⟨h.values_safe, fun wanted _ => h.cols_safe wanted, h.blob_safe, fun pos tag q => ?_,
      fun vs hvs => ⟨fun wanted hw => decodeColsSorted_of_decodeValues hvs hw,
        fun col => colBlobBytes_of_decodeValues hvs col⟩, fun wanted out hw hout => ?_,
      fun col b hb => colBlobBytes_startsLike hb⟩
    · exact ⟨fun hq => (skipPayload_ok.1 hq).1.le,
        fun v hv => (skipPayload_ok.1 (decodePayload_ok hv).1).1.le⟩
    · obtain ⟨⟨tags, pos⟩, ht, hout⟩ := bind_eq_ok.1 hout
      obtain ⟨vs, hf, hvs⟩ := decodeWanted_follows hw (fun w _ => Nat.zero_le w) hout
      exact ⟨vs, hf.startsLike ht, hvs⟩

end Decoders

/-- Values are read back, and on any bytes the three decoders agree and end well exactly where no
length reaches beyond the largest position. -/
theorem record_decoders_agree (vs : List Value) (buf : Bytes) :
    ((encodeValues vs).length < 2 ^ 64 → decodeValues (encodeValues vs) = .ok vs) ∧
    (DecodersAgree buf ↔ LengthsFit buf) :=
  ⟨fun h => decodeValues_encode h, decodersAgree_iff⟩

theorem record_decoders_agree_row :
    decodeValues (encodeValues [.null, .integer 5, .text "a"]) = .ok [.null, .integer 5, .text "a"] ∧
      (DecodersAgree [] ↔ LengthsFit []) :=
  ⟨(record_decoders_agree [.null, .integer 5, .text "a"] []).1 (by decide +kernel),
    (record_decoders_agree [] []).2⟩

/-- One column, a blob of `2 ^ 64 - 1` bytes. -/
def endlessBlob : Bytes := [1, TAG_BLOB, 255, 255, 255, 255, 255, 255, 255, 255, 255, 1]

theorem record_decoders_endless :
    decodeValues endlessBlob = .error (.panic "attempt to add with overflow") ∧
      ¬ DecodersAgree endlessBlob := by
  have hpanic : decodeValues endlessBlob = .error (.panic "attempt to add with overflow") := by
    decide +kernel
  exact ⟨hpanic, fun h => h.values_safe ⟨_, hpanic, trivial⟩⟩

end Arkeion
