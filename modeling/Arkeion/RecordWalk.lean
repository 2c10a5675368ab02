import Arkeion.RecordSpec

/-!
The three walks over a record compared, on any bytes: where each ends, what it reads, and that a
length that reaches beyond the largest position stops the process.
-/

namespace Arkeion

open Arkeion.Lib

/-- The process ends. -/
def Panics {α : Type} (x : Result α) : Prop := ∃ e, x = .error e ∧ e.IsPanic

section Panics
variable {α β : Type} {x : Result α} {f : α → Result β}

@[simp] lemma panics_ok (a : α) : Panics (.ok a : Result α) ↔ False :=
  ⟨fun ⟨_, h, _⟩ => (by cases h), False.elim⟩

@[simp] lemma panics_error (e : Error) : Panics (.error e : Result α) ↔ e.IsPanic :=
  ⟨fun ⟨_, h, hp⟩ => (by cases h; exact hp), fun h => ⟨e, rfl, h⟩⟩

lemma panics_bind : Panics (x >>= f) ↔ Panics x ∨ ∃ a, x = .ok a ∧ Panics (f a) := by
  cases x with
  | ok a => simp
  | error e => simp

end Panics

/-! ### What the bytes say -/

/-- The bytes a payload takes: their position and their number. -/
def payloadRange (buf : Bytes) (pos : ℕ) (tag : UInt8) : Option (ℕ × ℕ) :=
  if tag = TAG_REAL then some (pos, 8)
  else if tag = TAG_TEXT ∨ tag = TAG_BLOB then (takeVarint buf pos).map Prod.swap
  else none

/-- A payload that lies within the bytes, and its end. -/
inductive Column (buf : Bytes) (pos : ℕ) : UInt8 → ℕ → Prop
  | empty {tag : UInt8} (h : tag = TAG_NULL ∨ tag = TAG_FALSE ∨ tag = TAG_TRUE) : Column buf pos tag pos
  | int {u q : ℕ} (h : takeVarint buf pos = some (u, q)) : Column buf pos TAG_INT q
  | range {tag : UInt8} {p len : ℕ} (h : payloadRange buf pos tag = some (p, len))
      (hle : p + len ≤ buf.length) : Column buf pos tag (p + len)

/-- Payloads one behind the other. -/
inductive Columns (buf : Bytes) : List UInt8 → ℕ → ℕ → Prop
  | nil (pos : ℕ) : Columns buf [] pos pos
  | cons {tag : UInt8} {tags : List UInt8} {pos q e : ℕ} (h : Column buf pos tag q)
      (hs : Columns buf tags q e) : Columns buf (tag :: tags) pos e

/-- The payload of the column `i` begins at `pos`. -/
def ColumnAt (buf : Bytes) (i : ℕ) (tag : UInt8) (pos : ℕ) : Prop :=
  ∃ n p, takeVarint buf 0 = some (n, p) ∧ p + n ≤ buf.length ∧ (sub buf p n)[i]? = some tag ∧
    Columns buf ((sub buf p n).take i) (p + n) pos

/-- No length reaches beyond the largest position: not that of the tags, and not that of a column
behind columns that lie within the bytes. -/
structure LengthsFit (buf : Bytes) : Prop where
  header : ∀ n p, takeVarint buf 0 = some (n, p) → p + n < 2 ^ 64
  column : ∀ i tag pos p len, ColumnAt buf i tag pos → payloadRange buf pos tag = some (p, len) →
    p + len < 2 ^ 64

section Column
variable {buf : Bytes} {pos q p len : ℕ} {tag : UInt8} {reason : String}

lemma takeLen_ok {r : ℕ × ℕ} : takeLen buf pos reason = .ok r ↔ takeVarint buf pos = some r :=
  okOr_eq_ok

lemma not_panics_takeLen : ¬ Panics (takeLen buf pos reason) := by
  rw [takeLen]
  cases takeVarint buf pos with
  | none => exact (panics_error _).not.2 not_false
  | some r => exact (panics_ok _).not.2 not_false

lemma getRange_ok {b : Bytes} : getRange buf p len reason = .ok b
    ↔ p + len < 2 ^ 64 ∧ p + len ≤ buf.length ∧ sub buf p len = b := by
  rw [getRange]
  split_ifs with h
  · exact ⟨fun h => (by cases h), fun h' => absurd h'.1 (not_lt.2 h)⟩
  · rw [okOr_eq_ok, slice?]
    split_ifs with hle
    · rw [Option.some.injEq]
      exact ⟨fun hb => ⟨not_le.1 h, hle, hb⟩, fun h' => h'.2.2⟩
    · exact ⟨fun h => (by cases h), fun h' => absurd h'.2.1 hle⟩

lemma panics_getRange : Panics (getRange buf p len reason) ↔ 2 ^ 64 ≤ p + len := by
  rw [getRange]
  split_ifs with h
  · exact ⟨fun _ => h, fun _ => (panics_error _).2 trivial⟩
  · cases slice? buf p len with
    | none => exact ⟨fun hp => ((panics_error _).1 hp).elim, fun h' => absurd h' h⟩
    | some b => exact ⟨fun hp => ((panics_ok _).1 hp).elim, fun h' => absurd h' h⟩

/-- A tag that no value has. -/
def UnknownTag (tag : UInt8) : Prop :=
  ¬ (tag = TAG_NULL ∨ tag = TAG_FALSE ∨ tag = TAG_TRUE) ∧ tag ≠ TAG_INT ∧ tag ≠ TAG_REAL ∧
    ¬ (tag = TAG_TEXT ∨ tag = TAG_BLOB)

lemma tag_cases (tag : UInt8) : (tag = TAG_NULL ∨ tag = TAG_FALSE ∨ tag = TAG_TRUE) ∨ tag = TAG_INT ∨
    tag = TAG_REAL ∨ (tag = TAG_TEXT ∨ tag = TAG_BLOB) ∨ UnknownTag tag := by
  rw [UnknownTag]
  tauto

lemma payloadRange_real : payloadRange buf pos TAG_REAL = some (pos, 8) := if_pos rfl

/-- Bytes behind their length. -/
lemma readRange_ok {α : Type} {r₁ r₂ : String} {k : ℕ × ℕ → Bytes → Result α} {a : α} :
    (takeLen buf pos r₁ >>= fun r => getRange buf r.2 r.1 r₂ >>= k r) = .ok a
      ↔ ∃ len p, takeVarint buf pos = some (len, p) ∧ p + len < 2 ^ 64 ∧ p + len ≤ buf.length ∧
          k (len, p) (sub buf p len) = .ok a := by
  rw [bind_eq_ok]
  constructor
  · rintro ⟨⟨len, p⟩, hlen, h⟩
    obtain ⟨b, hb, h⟩ := bind_eq_ok.1 h
    obtain ⟨hlt, hle, rfl⟩ := getRange_ok.1 hb
    exact ⟨len, p, takeLen_ok.1 hlen, hlt, hle, h⟩
  · rintro ⟨len, p, hlen, hlt, hle, h⟩
    exact ⟨(len, p), takeLen_ok.2 hlen, bind_eq_ok.2 ⟨_, getRange_ok.2 ⟨hlt, hle, rfl⟩, h⟩⟩

lemma panics_readRange {α : Type} {r₁ r₂ : String} {k : ℕ × ℕ → Bytes → Result α}
    (hk : ∀ r b, ¬ Panics (k r b)) :
    Panics (takeLen buf pos r₁ >>= fun r => getRange buf r.2 r.1 r₂ >>= k r)
      ↔ ∃ p len, (takeVarint buf pos).map Prod.swap = some (p, len) ∧ 2 ^ 64 ≤ p + len := by
  rw [panics_bind]
  constructor
  · rintro (h | ⟨⟨len, p⟩, hlen, h⟩)
    · exact absurd h not_panics_takeLen
    · rw [panics_bind, panics_getRange] at h
      rcases h with h | ⟨b, -, h⟩
      · exact ⟨p, len, by rw [takeLen_ok.1 hlen]; rfl, h⟩
      · exact absurd h (hk _ _)
  · rintro ⟨p, len, hmap, hlt⟩
    obtain ⟨⟨len', p'⟩, hlen, heq⟩ := Option.map_eq_some_iff.1 hmap
    obtain ⟨rfl, rfl⟩ := Prod.mk.inj heq
    exact Or.inr ⟨(len', p'), takeLen_ok.2 hlen, panics_bind.2 (Or.inl (panics_getRange.2 hlt))⟩

lemma skipPayload_empty (h : tag = TAG_NULL ∨ tag = TAG_FALSE ∨ tag = TAG_TRUE) :
    skipPayload buf pos tag = .ok pos := if_pos h

lemma skipPayload_int : skipPayload buf pos TAG_INT
    = takeLen buf pos "entero truncado" >>= fun r => .ok r.2 := rfl

lemma skipPayload_real : skipPayload buf pos TAG_REAL
    = getRange buf pos 8 "real truncado" >>= fun _ => .ok (pos + 8) := rfl

lemma skipPayload_behind (h : tag = TAG_TEXT ∨ tag = TAG_BLOB) : skipPayload buf pos tag
    = takeLen buf pos "longitud truncada" >>= fun r =>
        getRange buf r.2 r.1 "payload truncado" >>= fun _ => .ok (r.2 + r.1) := by
  rcases h with rfl | rfl <;> rfl

lemma skipPayload_unknown (h : UnknownTag tag) :
    skipPayload buf pos tag = .error (.corruptRecord "tag de valor desconocido") := by
  rw [skipPayload, if_neg h.1, if_neg h.2.1, if_neg h.2.2.1, if_neg h.2.2.2]

lemma payloadRange_empty (h : tag = TAG_NULL ∨ tag = TAG_FALSE ∨ tag = TAG_TRUE) :
    payloadRange buf pos tag = none := by
  rcases h with rfl | rfl | rfl <;> rfl

lemma payloadRange_int : payloadRange buf pos TAG_INT = none := rfl

lemma payloadRange_unknown (h : UnknownTag tag) : payloadRange buf pos tag = none := by
  rw [payloadRange, if_neg h.2.2.1, if_neg h.2.2.2]

lemma payloadRange_behind (h : tag = TAG_TEXT ∨ tag = TAG_BLOB) :
    payloadRange buf pos tag = (takeVarint buf pos).map Prod.swap := by
  rcases h with rfl | rfl <;> rfl

/-- To skip a payload is to find its end. -/
lemma skipPayload_ok : skipPayload buf pos tag = .ok q ↔ Column buf pos tag q ∧
    ∀ p len, payloadRange buf pos tag = some (p, len) → p + len < 2 ^ 64 := by
  constructor
  · intro h
    rcases tag_cases tag with he | rfl | rfl | hb | hu
    · rw [skipPayload_empty he, Except.ok.injEq] at h
      rw [payloadRange_empty he, ← h]
      exact ⟨.empty he, fun p len hr => by cases hr⟩
    · rw [skipPayload_int, bind_eq_ok] at h
      obtain ⟨⟨u, q'⟩, hu, h⟩ := h
      cases h
      exact ⟨.int (takeLen_ok.1 hu), fun p len hr => by cases hr⟩
    · rw [skipPayload_real, bind_eq_ok] at h
      obtain ⟨b, hb, h⟩ := h
      obtain ⟨hlt, hle, -⟩ := getRange_ok.1 hb
      cases h
      refine ⟨.range payloadRange_real hle, fun p len hr => ?_⟩
      cases hr
      exact hlt
    · rw [skipPayload_behind hb, readRange_ok (k := fun r _ => .ok (r.2 + r.1))] at h
      obtain ⟨len, p, hlen, hlt, hle, h⟩ := h
      cases h
      have hrange : payloadRange buf pos tag = some (p, len) := by
        rw [payloadRange_behind hb, hlen]
        rfl
      refine ⟨.range hrange hle, fun p' len' hr => ?_⟩
      rw [hrange] at hr
      cases hr
      exact hlt
    · rw [skipPayload_unknown hu] at h
      cases h
  · rintro ⟨hcol, hfit⟩
    cases hcol with
    | empty he => exact skipPayload_empty he
    | int hu => rw [skipPayload_int, takeLen_ok.2 hu, ok_bind]
    | @range _ p len hrange hle =>
      have hlt := hfit p len hrange
      rcases tag_cases tag with he | rfl | rfl | hb | hu
      · rw [payloadRange_empty he] at hrange
        cases hrange
      · cases hrange
      · cases hrange
        rw [skipPayload_real, getRange_ok.2 ⟨hlt, hle, rfl⟩, ok_bind]
      · rw [payloadRange_behind hb] at hrange
        obtain ⟨⟨len', p'⟩, hlen, heq⟩ := Option.map_eq_some_iff.1 hrange
        obtain ⟨rfl, rfl⟩ := Prod.mk.inj heq
        rw [skipPayload_behind hb]
        exact readRange_ok.2 ⟨len', p', hlen, hlt, hle, rfl⟩
      · rw [payloadRange_unknown hu] at hrange
        cases hrange

lemma panics_real {α : Type} {k : Bytes → Result α} (hk : ∀ b, ¬ Panics (k b)) :
    Panics (getRange buf pos 8 reason >>= k)
      ↔ ∃ p len, payloadRange buf pos TAG_REAL = some (p, len) ∧ 2 ^ 64 ≤ p + len := by
  rw [panics_bind, panics_getRange, payloadRange_real]
  constructor
  · rintro (h | ⟨b, -, h⟩)
    · exact ⟨pos, 8, rfl, h⟩
    · exact absurd h (hk b)
  · rintro ⟨p, len, heq, h⟩
    cases heq
    exact Or.inl h

lemma not_panics_int {α : Type} {f : ℕ × ℕ → α} :
    ¬ Panics (takeLen buf pos reason >>= fun r => .ok (f r)) := by
  rw [panics_bind]
  rintro (h | ⟨r, -, h⟩)
  · exact not_panics_takeLen h
  · exact (panics_ok _).1 h

lemma panics_skipPayload : Panics (skipPayload buf pos tag)
    ↔ ∃ p len, payloadRange buf pos tag = some (p, len) ∧ 2 ^ 64 ≤ p + len := by
  rcases tag_cases tag with he | rfl | rfl | hb | hu
  · simp [skipPayload_empty he, payloadRange_empty he]
  · simp [skipPayload_int, payloadRange_int, not_panics_int]
  · exact panics_real fun _ => (panics_ok _).1
  · rw [skipPayload_behind hb, payloadRange_behind hb]
    exact panics_readRange fun _ _ => (panics_ok _).1
  · simp [skipPayload_unknown hu, payloadRange_unknown hu, Error.IsPanic]

/-! ### Decoding -/

lemma decodePayload_empty (h : tag = TAG_NULL ∨ tag = TAG_FALSE ∨ tag = TAG_TRUE) :
    ∃ v, decodePayload buf pos tag = .ok (v, pos) ∧ tagOf v = tag := by
  rcases h with rfl | rfl | rfl
  · exact ⟨.null, rfl, rfl⟩
  · exact ⟨.bool false, rfl, rfl⟩
  · exact ⟨.bool true, rfl, rfl⟩

lemma decodePayload_int : decodePayload buf pos TAG_INT
    = takeLen buf pos "entero truncado" >>= fun r =>
        .ok (.integer (unzigzag (UInt64.ofNat r.1)), r.2) := rfl

lemma decodePayload_real : decodePayload buf pos TAG_REAL
    = getRange buf pos 8 "real truncado" >>= fun b =>
        .ok (.real ⟨UInt64.ofNat (leNat b)⟩, pos + 8) := rfl

lemma decodePayload_text : decodePayload buf pos TAG_TEXT
    = takeLen buf pos "longitud de texto truncada" >>= fun r =>
        getRange buf r.2 r.1 "texto truncado" >>= fun b =>
          okOr (fromUtf8 b) (.corruptRecord "texto no UTF-8") >>= fun s =>
            .ok (.text s, r.2 + r.1) := rfl

lemma decodePayload_blob : decodePayload buf pos TAG_BLOB
    = takeLen buf pos "longitud de blob truncada" >>= fun r =>
        getRange buf r.2 r.1 "blob truncado" >>= fun b => .ok (.blob b, r.2 + r.1) := rfl

lemma decodePayload_unknown (h : UnknownTag tag) :
    decodePayload buf pos tag = .error (.corruptRecord "tag de valor desconocido") := by
  obtain ⟨he, hi, hr, hb⟩ := h
  rw [not_or, not_or] at he
  rw [not_or] at hb
  rw [decodePayload, if_neg he.1, if_neg he.2.1, if_neg he.2.2, if_neg hi, if_neg hr, if_neg hb.1,
    if_neg hb.2]

lemma not_panics_text {b : Bytes} {q : ℕ} :
    ¬ Panics (okOr (fromUtf8 b) (.corruptRecord "texto no UTF-8") >>= fun s =>
      (.ok (Value.text s, q) : Result (Value × ℕ))) := by
  cases fromUtf8 b with
  | none => exact (panics_error _).1
  | some s => exact (panics_ok _).1

lemma panics_decodePayload : Panics (decodePayload buf pos tag)
    ↔ ∃ p len, payloadRange buf pos tag = some (p, len) ∧ 2 ^ 64 ≤ p + len := by
  rcases tag_cases tag with he | rfl | rfl | (rfl | rfl) | hu
  · obtain ⟨v, hv, -⟩ : ∃ v, decodePayload buf pos tag = .ok (v, pos) ∧ tagOf v = tag :=
      decodePayload_empty he
    simp [hv, payloadRange_empty he]
  · simp [decodePayload_int, payloadRange_int, not_panics_int]
  · exact panics_real fun _ => (panics_ok _).1
  · exact panics_readRange fun _ _ => not_panics_text
  · exact panics_readRange fun _ _ => (panics_ok _).1
  · simp [decodePayload_unknown hu, payloadRange_unknown hu, Error.IsPanic]

/-- What is decoded could have been skipped. -/
lemma decodePayload_ok {v : Value} (h : decodePayload buf pos tag = .ok (v, q)) :
    skipPayload buf pos tag = .ok q ∧ tagOf v = tag := by
  rcases tag_cases tag with he | rfl | rfl | (rfl | rfl) | hu
  · obtain ⟨v', hv, htag⟩ : ∃ v, decodePayload buf pos tag = .ok (v, pos) ∧ tagOf v = tag :=
      decodePayload_empty he
    rw [hv] at h
    cases h
    exact ⟨skipPayload_empty he, htag⟩
  · obtain ⟨r, hr, h⟩ := bind_eq_ok.1 (decodePayload_int ▸ h)
    cases h
    exact ⟨by rw [skipPayload_int, hr, ok_bind], rfl⟩
  · obtain ⟨b, hb, h⟩ := bind_eq_ok.1 (decodePayload_real ▸ h)
    cases h
    exact ⟨by rw [skipPayload_real, hb, ok_bind], rfl⟩
  · obtain ⟨len, p, hlen, hlt, hle, h⟩ := readRange_ok.1 (decodePayload_text ▸ h)
    obtain ⟨s, -, h⟩ := bind_eq_ok.1 h
    cases h
    exact ⟨(skipPayload_behind (Or.inl rfl)).trans
      (readRange_ok.2 ⟨len, p, hlen, hlt, hle, rfl⟩), rfl⟩
  · obtain ⟨len, p, hlen, hlt, hle, h⟩ := readRange_ok.1 (decodePayload_blob ▸ h)
    cases h
    exact ⟨(skipPayload_behind (Or.inr rfl)).trans
      (readRange_ok.2 ⟨len, p, hlen, hlt, hle, rfl⟩), rfl⟩
  · rw [decodePayload_unknown hu] at h
    cases h

end Column

/-! ### Walks -/

/-- No length of the columns from `pos` on reaches too far. -/
def RangesFit (buf : Bytes) (tags : List UInt8) (pos : ℕ) : Prop :=
  ∀ i tag q p len, tags[i]? = some tag → Columns buf (tags.take i) pos q →
    payloadRange buf q tag = some (p, len) → p + len < 2 ^ 64

section Walks
variable {buf : Bytes} {pos q k : ℕ} {tag : UInt8} {tags : List UInt8} {wanted : List ℕ}

lemma RangesFit.head (h : RangesFit buf (tag :: tags) pos) {p len : ℕ}
    (hr : payloadRange buf pos tag = some (p, len)) : p + len < 2 ^ 64 :=
  h 0 tag pos p len rfl (.nil pos) hr

lemma RangesFit.next (h : RangesFit buf (tag :: tags) pos) (hc : Column buf pos tag q) :
    RangesFit buf tags q :=
  fun i t q' p len ht hcs hr => h (i + 1) t q' p len ht (.cons hc hcs) hr

lemma RangesFit.take (h : RangesFit buf tags pos) (n : ℕ) : RangesFit buf (tags.take n) pos := by
  intro i t q' p len ht hcs hr
  have hi : i < n := by
    have hlt := (List.getElem?_eq_some_iff.1 ht).1
    rw [List.length_take] at hlt
    omega
  rw [List.getElem?_take_of_lt hi] at ht
  rw [List.take_take, Nat.min_eq_left hi.le] at hcs
  exact h i t q' p len ht hcs hr

/-- A column that lies within the bytes is skipped, or its length stops the process. -/
lemma skipPayload_or (hc : Column buf pos tag q) :
    skipPayload buf pos tag = .ok q ∨ Panics (skipPayload buf pos tag) := by
  by_cases hfit : ∀ p len, payloadRange buf pos tag = some (p, len) → p + len < 2 ^ 64
  · exact Or.inl (skipPayload_ok.2 ⟨hc, hfit⟩)
  · simp only [not_forall, not_lt] at hfit
    obtain ⟨p, len, hr, hle⟩ := hfit
    exact Or.inr (panics_skipPayload.2 ⟨p, len, hr, hle⟩)

lemma not_panics_skipPayload (h : RangesFit buf (tag :: tags) pos) :
    ¬ Panics (skipPayload buf pos tag) := fun hp => by
  obtain ⟨p, len, hr, hle⟩ := panics_skipPayload.1 hp
  exact absurd (h.head hr) (not_lt.2 hle)

lemma not_panics_decodePayload (h : RangesFit buf (tag :: tags) pos) :
    ¬ Panics (decodePayload buf pos tag) := fun hp => by
  obtain ⟨p, len, hr, hle⟩ := panics_decodePayload.1 hp
  exact absurd (h.head hr) (not_lt.2 hle)

lemma skipPayloads_ok (h : skipPayloads buf tags pos = .ok q) : Columns buf tags pos q := by
  induction tags generalizing pos with
  | nil =>
    cases h
    exact .nil q
  | cons tag tags ih =>
    obtain ⟨q', hq, h⟩ := bind_eq_ok.1 h
    exact .cons (skipPayload_ok.1 hq).1 (ih h)

lemma not_panics_skipPayloads (h : RangesFit buf tags pos) : ¬ Panics (skipPayloads buf tags pos) := by
  induction tags generalizing pos with
  | nil => exact (panics_ok _).1
  | cons tag tags ih =>
    rw [skipPayloads, panics_bind]
    rintro (hp | ⟨q, hq, hp⟩)
    · exact not_panics_skipPayload h hp
    · exact ih (h.next (skipPayload_ok.1 hq).1) hp

lemma not_panics_decodePayloads (h : RangesFit buf tags pos) :
    ¬ Panics (decodePayloads buf tags pos) := by
  induction tags generalizing pos with
  | nil => exact (panics_ok _).1
  | cons tag tags ih =>
    rw [decodePayloads, panics_bind]
    rintro (hp | ⟨⟨v, q⟩, hq, hp⟩)
    · exact not_panics_decodePayload h hp
    · rw [panics_bind] at hp
      rcases hp with hp | ⟨r, -, hp⟩
      · exact ih (h.next (skipPayload_ok.1 (decodePayload_ok hq).1).1) hp
      · exact (panics_ok _).1 hp

lemma not_panics_decodeWanted (h : RangesFit buf tags pos) :
    ¬ Panics (decodeWanted buf tags pos k wanted) := by
  induction tags generalizing pos k wanted with
  | nil => cases wanted <;> exact (panics_ok _).1
  | cons tag tags ih =>
    cases wanted with
    | nil => exact (panics_ok _).1
    | cons w wanted =>
      rw [decodeWanted]
      split_ifs
      · rw [panics_bind]
        rintro (hp | ⟨⟨v, q⟩, hq, hp⟩)
        · exact not_panics_decodePayload h hp
        · rw [panics_bind] at hp
          rcases hp with hp | ⟨r, -, hp⟩
          · exact ih (h.next (skipPayload_ok.1 (decodePayload_ok hq).1).1) hp
          · exact (panics_ok _).1 hp
      · rw [panics_bind]
        rintro (hp | ⟨q, hq, hp⟩)
        · exact not_panics_skipPayload h hp
        · exact ih (h.next (skipPayload_ok.1 hq).1) hp

/-- The walk to a column whose length reaches too far stops the process, there or before. -/
lemma panics_decodeWanted {i p len : ℕ} (ht : tags[i]? = some tag)
    (hcs : Columns buf (tags.take i) pos q) (hr : payloadRange buf q tag = some (p, len))
    (hle : 2 ^ 64 ≤ p + len) : Panics (decodeWanted buf tags pos k [k + i]) := by
  induction i generalizing tags pos k with
  | zero =>
    cases tags with
    | nil => cases ht
    | cons t tags =>
      cases ht
      cases hcs
      rw [decodeWanted, if_pos (Nat.add_zero k), panics_bind]
      exact Or.inl (panics_decodePayload.2 ⟨p, len, hr, hle⟩)
  | succ i ih =>
    cases tags with
    | nil => cases ht
    | cons t tags =>
      rw [List.take_succ_cons] at hcs
      cases hcs with
      | cons hc hcs =>
        rw [decodeWanted, if_neg (by omega), panics_bind]
        rcases skipPayload_or hc with hq | hp
        · refine Or.inr ⟨_, hq, ?_⟩
          rw [show k + (i + 1) = k + 1 + i by omega]
          exact ih ht hcs
        · exact Or.inl hp

end Walks

end Arkeion
