import Arkeion.Proto.Message
import Arkeion.RecordAgree

/-!
What becomes of bytes that no honest peer would send. A walk over the bytes with numbers that have
no end lists what they announce: lengths, counts, times. The decoders follow that walk as long as
all of it fits, and end the process at the first number that does not.
-/

namespace Arkeion.Proto

open Arkeion.Lib

/-! ### Records -/

section Records
variable {buf : Bytes} {pos q : ℕ} {tag : UInt8} {tags : List UInt8}

/-- A text at `pos` is one. -/
def TextFine (buf : Bytes) (pos : ℕ) (tag : UInt8) : Prop :=
  tag = TAG_TEXT → ∀ len p, takeVarint buf pos = some (len, p) →
    (fromUtf8 (sub buf p len)).isSome

/-- Payloads within the bytes, one behind the other, of which the texts are texts. -/
inductive Readable (buf : Bytes) : List UInt8 → ℕ → ℕ → Prop
  | nil (pos : ℕ) : Readable buf [] pos pos
  | cons {tag : UInt8} {tags : List UInt8} {pos q e : ℕ} (h : Column buf pos tag q)
      (ht : TextFine buf pos tag) (hs : Readable buf tags q e) : Readable buf (tag :: tags) pos e

/-- No length of a record reaches beyond the largest position: not that of the tags, and not that of
a column behind columns that can be read. -/
structure RecordFits (buf : Bytes) : Prop where
  header : ∀ n p, takeVarint buf 0 = some (n, p) → p + n < 2 ^ 64
  column : ∀ n p i tag q r len, takeVarint buf 0 = some (n, p) → p + n ≤ buf.length →
    (sub buf p n)[i]? = some tag → Readable buf ((sub buf p n).take i) (p + n) q →
    payloadRange buf q tag = some (r, len) → r + len < 2 ^ 64

lemma decodePayload_readable {v : Value} (h : decodePayload buf pos tag = .ok (v, q)) :
    Column buf pos tag q ∧ TextFine buf pos tag := by
  refine ⟨(skipPayload_ok.1 (decodePayload_ok h).1).1, ?_⟩
  rintro rfl len p hlen
  obtain ⟨len', p', hlen', -, -, h⟩ := readRange_ok.1 (decodePayload_text ▸ h)
  rw [hlen] at hlen'
  cases hlen'
  obtain ⟨s, hs, -⟩ := bind_eq_ok.1 h
  rw [okOr_eq_ok.1 hs]
  rfl

/-- A column that can be read is decoded, or its length stops the process. -/
lemma decodePayload_or (hc : Column buf pos tag q) (ht : TextFine buf pos tag) :
    (∃ v, decodePayload buf pos tag = .ok (v, q)) ∨ Panics (decodePayload buf pos tag) := by
  by_cases hp : Panics (decodePayload buf pos tag)
  · exact Or.inr hp
  refine Or.inl ?_
  have hfit : ∀ p len, payloadRange buf pos tag = some (p, len) → p + len < 2 ^ 64 :=
    fun p len hr => not_le.1 fun hle => hp (panics_decodePayload.2 ⟨p, len, hr, hle⟩)
  have hskip := skipPayload_ok.2 ⟨hc, hfit⟩
  rcases tag_cases tag with he | rfl | rfl | (rfl | rfl) | hu
  · obtain ⟨v, hv, -⟩ : ∃ v, decodePayload buf pos tag = .ok (v, pos) ∧ tagOf v = tag :=
      decodePayload_empty he
    rw [skipPayload_empty he, Except.ok.injEq] at hskip
    exact ⟨v, hskip ▸ hv⟩
  · obtain ⟨r, hr, hskip⟩ := bind_eq_ok.1 (skipPayload_int ▸ hskip)
    cases hskip
    exact ⟨_, by rw [decodePayload_int, hr, ok_bind]⟩
  · obtain ⟨b, hb, hskip⟩ := bind_eq_ok.1 (skipPayload_real ▸ hskip)
    cases hskip
    rw [getRange_ok] at hb
    exact ⟨_, by rw [decodePayload_real, getRange_ok.2 hb, ok_bind]⟩
  · obtain ⟨len, p, hlen, hlt, hle, hskip⟩ :=
      readRange_ok.1 (skipPayload_behind (Or.inl rfl) ▸ hskip)
    cases hskip
    obtain ⟨s, hs⟩ := Option.isSome_iff_exists.1 (ht rfl len p hlen)
    refine ⟨.text s, ?_⟩
    rw [decodePayload_text]
    exact readRange_ok.2 ⟨len, p, hlen, hlt, hle, by rw [hs]; rfl⟩
  · obtain ⟨len, p, hlen, hlt, hle, hskip⟩ :=
      readRange_ok.1 (skipPayload_behind (Or.inr rfl) ▸ hskip)
    cases hskip
    refine ⟨.blob (sub buf p len), ?_⟩
    rw [decodePayload_blob]
    exact readRange_ok.2 ⟨len, p, hlen, hlt, hle, rfl⟩
  · rw [skipPayload_unknown hu] at hskip
    cases hskip

/-- The payloads stop the process at the first length that reaches too far. -/
lemma panics_decodePayloads : Panics (decodePayloads buf tags pos)
    ↔ ∃ i tag q r len, tags[i]? = some tag ∧ Readable buf (tags.take i) pos q ∧
      payloadRange buf q tag = some (r, len) ∧ 2 ^ 64 ≤ r + len := by
  induction tags generalizing pos with
  | nil =>
    refine ⟨fun hp => ((panics_ok _).1 hp).elim, ?_⟩
    rintro ⟨i, tag, q, r, len, htag, -⟩
    cases htag
  | cons tag tags ih =>
    rw [decodePayloads, panics_bind]
    constructor
    · rintro (hp | ⟨⟨v, q⟩, hv, hp⟩)
      · obtain ⟨r, len, hr, hle⟩ := panics_decodePayload.1 hp
        exact ⟨0, tag, pos, r, len, rfl, .nil pos, hr, hle⟩
      · obtain ⟨hc, ht⟩ := decodePayload_readable hv
        rcases panics_bind.1 hp with hp | ⟨vs, -, hp⟩
        · obtain ⟨i, t, e, r, len, htag, hread, hr, hle⟩ := ih.1 hp
          exact ⟨i + 1, t, e, r, len, htag, .cons hc ht hread, hr, hle⟩
        · exact ((panics_ok _).1 hp).elim
    · rintro ⟨i, t, e, r, len, htag, hread, hr, hle⟩
      cases i with
      | zero =>
        cases htag
        cases hread
        exact Or.inl (panics_decodePayload.2 ⟨r, len, hr, hle⟩)
      | succ i =>
        rw [List.take_succ_cons] at hread
        cases hread with
        | cons hc ht hread =>
          rcases decodePayload_or hc ht with ⟨v, hv⟩ | hp
          · exact Or.inr ⟨_, hv, panics_bind.2 (Or.inl (ih.2 ⟨i, t, e, r, len, htag, hread, hr, hle⟩))⟩
          · exact Or.inl hp

lemma panics_decodeValues : Panics (decodeValues buf) ↔ ¬ RecordFits buf := by
  have hlast (vs : List Value) (e : ℕ) : ¬ Panics (if e = buf.length then .ok vs
      else .error (.corruptRecord "bytes sobrantes tras el registro") : Result (List Value)) := by
    split_ifs
    · exact (panics_ok _).1
    · exact (panics_error _).1
  rw [decodeValues, panics_bind]
  constructor
  · rintro (hp | ⟨⟨tags, pos⟩, ht, hp⟩) hfits
    · obtain ⟨p, n, hn, hle⟩ := panics_takeHeader.1 hp
      exact absurd (hfits.header n p hn) (not_lt.2 hle)
    · obtain ⟨n, p, hn, hlt, hle, rfl, rfl⟩ := takeHeader_ok.1 ht
      rcases panics_bind.1 hp with hp | ⟨⟨vs, e⟩, -, hp⟩
      · obtain ⟨i, tag, q, r, len, htag, hread, hr, hle'⟩ := panics_decodePayloads.1 hp
        exact absurd (hfits.column n p i tag q r len hn hle htag hread hr) (not_lt.2 hle')
      · exact hlast vs e hp
  · intro hfits
    by_contra hp
    rw [not_or] at hp
    obtain ⟨hhead, hcols⟩ := hp
    refine hfits ⟨fun n p hn => ?_, fun n p i tag q r len hn hle htag hread hr => ?_⟩
    · exact not_le.1 fun hle => hhead (panics_takeHeader.2 ⟨p, n, hn, hle⟩)
    · refine not_le.1 fun hle' => hcols ⟨(sub buf p n, p + n), ?_, ?_⟩
      · have hlt := not_le.1 fun hle => hhead (panics_takeHeader.2 ⟨p, n, hn, hle⟩)
        exact takeHeader_ok.2 ⟨n, p, hn, hlt, hle, rfl, rfl⟩
      · exact panics_bind.2 (Or.inl
          (panics_decodePayloads.2 ⟨i, tag, q, r, len, htag, hread, hr, hle'⟩))

end Records

/-! ### The walk -/

/-- A number that the bytes announce: of bytes from a position on, of elements of which each takes
at least so many of the bytes left, of seconds and nanoseconds, or some number within a record. -/
inductive Announced where
  | bytes (pos n : ℕ)
  | elements (count least left : ℕ)
  | time (secs : ℕ) (nanos : UInt32)
  | record (buf : Bytes)
  deriving DecidableEq, Repr

def Announced.Fits : Announced → Prop
  | .bytes pos n => pos + n < 2 ^ 64
  | .elements count least left => count * least ≤ left
  | .time secs nanos => secs + nanos.toNat / 1000000000 < 2 ^ 63
  | .record buf => RecordFits buf

/-- A decoder that lists what is announced on its way, up to where the bytes are none of it. -/
def Probe (α : Type) := Bytes → ℕ → List Announced × Option (α × ℕ)

namespace Probe

def bind {α γ : Type} (p : Probe α) (f : α → Probe γ) : Probe γ := fun buf pos =>
  match p buf pos with
  | (ann, none) => (ann, none)
  | (ann, some (a, next)) => (ann ++ (f a buf next).1, (f a buf next).2)

instance : Monad Probe where
  pure a := fun _ pos => ([], some (a, pos))
  bind := bind

def lift {α : Type} (ann : List Announced) (a : Option α) : Probe α := fun _ pos =>
  (ann, a.map fun a => (a, pos))

def u8 : Probe UInt8 := fun buf pos => ([], buf[pos]?.map fun b => (b, pos + 1))

def varint : Probe ℕ := fun buf pos => ([], takeVarint buf pos)

def takeBytes (n : ℕ) : Probe Bytes := fun buf pos =>
  ([.bytes pos n], (slice? buf pos n).map fun b => (b, pos + n))

def capacity (count least : ℕ) : Probe Unit := fun buf pos =>
  ([.elements count least (buf.length - pos)], some ((), pos))

def str : Probe String := do
  let n ← varint
  let bytes ← takeBytes n
  lift [] (fromUtf8 bytes)

def vals : Probe (List Value) := do
  let n ← varint
  let bytes ← takeBytes n
  lift [.record bytes] (decodeValues bytes).toOption

def hash : Probe ChainHash := do
  let bytes ← takeBytes 32
  if h : bytes.length = 32 then pure ⟨bytes, h⟩ else lift [] none

end Probe

def probe : Ops Probe where
  u8 := Probe.u8
  u32 := do
    let bytes ← Probe.takeBytes 4
    pure (UInt32.ofNat (leNat bytes))
  varint := Probe.varint
  str := Probe.str
  vals := Probe.vals
  rowid := do
    let bytes ← Probe.takeBytes 8
    pure (UInt64.ofNat (leNat bytes)).toInt64
  hash := Probe.hash
  systemTime := fun secs nanos => Probe.lift [.time secs nanos] (systemTime secs nanos).toOption
  capacity := Probe.capacity
  error := fun _ => Probe.lift [] none

def Request.announced (buf : Bytes) : List Announced := (takeRequest probe buf 0).1

def Response.announced (buf : Bytes) : List Announced := (takeResponse probe buf 0).1

/-! ### The decoders follow the walk -/

def ProtoError.IsPanic : ProtoError → Prop
  | .panic _ => True
  | _ => False

/-- The process ends. -/
def Stops {α : Type} (x : Except ProtoError α) : Prop := ∃ e, x = .error e ∧ e.IsPanic

/-- A capacity that is not justified is not granted. -/
def Strict (A : WithCapacity) : Prop :=
  ∀ count least left, left < count * least → Stops (A count least left)

/-- The result of the walk, or an error where it has none. -/
def Agrees {α : Type} (x : Except ProtoError α) (o : Option α) : Prop :=
  match o with
  | some a => x = .ok a
  | none => ∃ e, x = .error e ∧ ¬ e.IsPanic

/-- The decoder goes with the walk while what is announced fits; where every capacity has to be
justified, it stops at the first number that does not fit. -/
structure Tracks (A : WithCapacity) {α : Type} (r : WireReader α) (p : Probe α) : Prop where
  agrees : ∀ buf pos, (∀ a ∈ (p buf pos).1, a.Fits) → Agrees (r buf pos) (p buf pos).2
  stops : Strict A → ∀ buf pos, (∃ a ∈ (p buf pos).1, ¬ a.Fits) → Stops (r buf pos)

section Tracks
variable {A : WithCapacity} {α γ : Type} {r : WireReader α} {p : Probe α} {f : α → WireReader γ}
  {g : α → Probe γ}

lemma not_stops_of_agrees {x : Except ProtoError α} {o : Option α} (h : Agrees x o) : ¬ Stops x := by
  rintro ⟨e, rfl, he⟩
  cases o with
  | some a => cases (show Except.error e = Except.ok a from h)
  | none =>
    obtain ⟨e', heq, hne⟩ := h
    cases heq
    exact hne he

lemma Stops.bind {x : Except ProtoError α} {k : α → Except ProtoError γ} (h : Stops x) :
    Stops (x >>= k) := by
  obtain ⟨e, rfl, he⟩ := h
  exact ⟨e, rfl, he⟩

lemma reader_bind_apply (buf : Bytes) (pos : ℕ) :
    (r >>= f) buf pos = r buf pos >>= fun x => f x.1 buf x.2 := rfl

lemma probe_bind_none {buf : Bytes} {pos : ℕ} (h : (p buf pos).2 = none) :
    (p >>= g) buf pos = ((p buf pos).1, none) := by
  change Probe.bind p g buf pos = _
  unfold Probe.bind
  split
  · next ann heq => rw [heq]
  · next ann a next heq =>
    rw [heq] at h
    cases h

lemma probe_bind_some {buf : Bytes} {pos next : ℕ} {a : α} (h : (p buf pos).2 = some (a, next)) :
    (p >>= g) buf pos = ((p buf pos).1 ++ (g a buf next).1, (g a buf next).2) := by
  change Probe.bind p g buf pos = _
  unfold Probe.bind
  split
  · next ann heq =>
    rw [heq] at h
    cases h
  · next ann a' next' heq =>
    rw [heq] at h ⊢
    cases h
    rfl

lemma Tracks.pure (a : α) : Tracks A (pure a : WireReader α) (pure a : Probe α) where
  agrees := fun _ _ _ => rfl
  stops := fun _ _ _ ⟨_, ha, _⟩ => by cases ha

/-- The rule of sequence. -/
lemma Tracks.bind (h : Tracks A r p) (hf : ∀ a, Tracks A (f a) (g a)) :
    Tracks A (r >>= f) (p >>= g) where
  agrees := fun buf pos hfit => by
    rw [reader_bind_apply]
    cases hp : (p buf pos).2 with
    | none =>
      rw [probe_bind_none hp] at hfit ⊢
      have hr := h.agrees buf pos hfit
      rw [hp] at hr
      obtain ⟨e, he, hne⟩ := hr
      exact ⟨e, by rw [he]; rfl, hne⟩
    | some x =>
      obtain ⟨a, next⟩ := x
      rw [probe_bind_some hp] at hfit ⊢
      have hr := h.agrees buf pos fun c hc => hfit c (List.mem_append_left _ hc)
      rw [hp] at hr
      rw [show r buf pos = .ok (a, next) from hr]
      exact (hf a).agrees buf next fun c hc => hfit c (List.mem_append_right _ hc)
  stops := fun hA buf pos hbad => by
    rw [reader_bind_apply]
    by_cases hfirst : ∃ a ∈ (p buf pos).1, ¬ a.Fits
    · exact (h.stops hA buf pos hfirst).bind
    have hr := h.agrees buf pos fun c hc => by_contra fun hc' => hfirst ⟨c, hc, hc'⟩
    cases hp : (p buf pos).2 with
    | none =>
      rw [probe_bind_none hp] at hbad
      exact absurd hbad hfirst
    | some x =>
      obtain ⟨a, next⟩ := x
      rw [probe_bind_some hp] at hbad
      rw [hp] at hr
      rw [show r buf pos = .ok (a, next) from hr]
      obtain ⟨c, hc, hbad⟩ := hbad
      rcases List.mem_append.1 hc with hc | hc
      · exact absurd ⟨c, hc, hbad⟩ hfirst
      · exact (hf a).stops hA buf next ⟨c, hc, hbad⟩

lemma Tracks.ite {c : Prop} [Decidable c] {r' : WireReader α} {p' : Probe α}
    (h : Tracks A r p) (h' : Tracks A r' p') :
    Tracks A (if c then r else r') (if c then p else p') := by
  split_ifs
  · exact h
  · exact h'

/-- Nothing is announced, and there is no way to stop. -/
lemma tracks_quiet (hp : ∀ buf pos, (p buf pos).1 = [])
    (h : ∀ buf pos, Agrees (r buf pos) (p buf pos).2) : Tracks A r p where
  agrees := fun buf pos _ => h buf pos
  stops := fun _ buf pos ⟨c, hc, _⟩ => by
    rw [hp] at hc
    cases hc

/-- One number is announced, and the decoder stops if it does not fit. -/
lemma tracks_announced (ann : Bytes → ℕ → Announced) (hp : ∀ buf pos, (p buf pos).1 = [ann buf pos])
    (h : ∀ buf pos, (ann buf pos).Fits → Agrees (r buf pos) (p buf pos).2)
    (hstop : Strict A → ∀ buf pos, ¬ (ann buf pos).Fits → Stops (r buf pos)) : Tracks A r p where
  agrees := fun buf pos hfit => h buf pos (hfit _ (by rw [hp]; exact List.mem_singleton_self _))
  stops := fun hA buf pos ⟨c, hc, hbad⟩ => by
    rw [hp, List.mem_singleton] at hc
    exact hstop hA buf pos (hc ▸ hbad)

lemma agrees_orError {o : Option α} {e : ProtoError} (he : ¬ e.IsPanic) : Agrees (orError o e) o := by
  cases o with
  | some a => rfl
  | none => exact ⟨e, rfl, he⟩

lemma Agrees.map {x : Except ProtoError α} {o : Option α} (h : Agrees x o) (k : α → γ) :
    Agrees (x >>= fun a => .ok (k a)) (o.map k) := by
  cases o with
  | some a =>
    rw [show x = .ok a from h]
    rfl
  | none =>
    obtain ⟨e, rfl, he⟩ := h
    exact ⟨e, rfl, he⟩

lemma tracks_lift {x : Except ProtoError α} {o : Option α} (h : Agrees x o) :
    Tracks A (.lift x) (Probe.lift [] o) :=
  tracks_quiet (fun _ _ => rfl) fun _ pos => h.map fun a => (a, pos)

lemma tracks_error {e : ProtoError} (he : ¬ e.IsPanic) :
    Tracks A (.lift (.error e) : WireReader α) (Probe.lift [] none) :=
  tracks_lift ⟨e, rfl, he⟩

end Tracks

/-! ### Operations -/

section Ops
variable {A : WithCapacity}

lemma tracks_u8 : Tracks A takeU8 Probe.u8 :=
  tracks_quiet (fun _ _ => rfl) fun _ pos =>
    (agrees_orError (e := .truncated) not_false).map fun b => (b, pos + 1)

lemma tracks_varint : Tracks A takeVarintE Probe.varint :=
  tracks_quiet (fun _ _ => rfl) fun _ _ => agrees_orError not_false

lemma tracks_bytes (n : ℕ) : Tracks A (takeBytes n) (Probe.takeBytes n) := by
  refine tracks_announced (fun _ pos => .bytes pos n) (fun _ _ => rfl)
    (fun buf pos hfit => ?_) fun _ buf pos hbad => ?_
  · rw [takeBytes, if_neg (not_le.2 hfit)]
    exact (agrees_orError (e := .truncated) not_false).map fun b => (b, pos + n)
  · rw [takeBytes, if_pos (not_lt.1 hbad)]
    exact ⟨_, rfl, trivial⟩

lemma tracks_u32 : Tracks A (wire A).u32 probe.u32 := (tracks_bytes 4).bind fun _ => .pure _

lemma tracks_str : Tracks A takeStr Probe.str :=
  tracks_varint.bind fun n => (tracks_bytes n).bind fun _ => tracks_lift (agrees_orError not_false)

lemma recordCapacity_eq (hA : Grants A) (buf : Bytes) : recordCapacity A buf = .ok () := by
  unfold recordCapacity
  split
  · next tags pos h =>
    obtain ⟨n, p, -, -, hle, rfl, -⟩ := takeHeader_ok.1 h
    refine hA _ _ _ ?_
    rw [Nat.mul_one, length_sub]
    omega
  · rfl

lemma agrees_record {α : Type} {x : Result α} (h : ¬ Panics x) : Agrees (ofRecord x) x.toOption := by
  cases x with
  | ok a => rfl
  | error e =>
    rw [panics_error] at h
    cases e with
    | panic msg => exact absurd trivial h
    | _ => exact ⟨.badValue, rfl, not_false⟩

lemma stops_record {α : Type} {x : Result α} (h : Panics x) : Stops (ofRecord x) := by
  obtain ⟨e, rfl, he⟩ := h
  cases e with
  | panic msg => exact ⟨_, rfl, trivial⟩
  | _ => cases he

lemma tracks_record (hA : Grants A) (bytes : Bytes) :
    Tracks A (.lift (recordCapacity A bytes) >>= fun _ => .lift (ofRecord (decodeValues bytes)))
      (Probe.lift [.record bytes] (decodeValues bytes).toOption) := by
  refine tracks_announced (fun _ _ => .record bytes) (fun _ _ => rfl)
    (fun buf pos hfit => ?_) fun _ buf pos hbad => ?_
  · rw [recordCapacity_eq hA]
    refine (agrees_record fun hp => ?_).map fun a => (a, pos)
    exact panics_decodeValues.1 hp hfit
  · rw [recordCapacity_eq hA]
    exact (stops_record (panics_decodeValues.2 hbad)).bind

lemma tracks_vals (hA : Grants A) : Tracks A (takeVals A) Probe.vals :=
  tracks_varint.bind fun n => (tracks_bytes n).bind fun bytes => tracks_record hA bytes

lemma tracks_rowid : Tracks A (wire A).rowid probe.rowid := (tracks_bytes 8).bind fun _ => .pure _

lemma tracks_hash : Tracks A takeHash Probe.hash := by
  refine (tracks_bytes 32).bind fun bytes => ?_
  split_ifs
  · exact .pure _
  · exact tracks_error not_false

lemma tracks_systemTime (secs : ℕ) (nanos : UInt32) :
    Tracks A ((wire A).systemTime secs nanos) (probe.systemTime secs nanos) := by
  refine tracks_announced (fun _ _ => .time secs nanos) (fun _ _ => rfl)
    (fun buf pos hfit => ?_) fun _ buf pos hbad => ?_
  · have hlt : secs + nanos.toNat / 1000000000 < 2 ^ 63 := hfit
    change Agrees (systemTime secs nanos >>= fun a => .ok (a, pos))
      ((systemTime secs nanos).toOption.map fun a => (a, pos))
    rw [systemTime, if_neg (by omega), if_neg (by omega)]
    rfl
  · have hle : 2 ^ 63 ≤ secs + nanos.toNat / 1000000000 := not_lt.1 hbad
    refine Stops.bind ?_
    rw [systemTime]
    split_ifs
    · exact ⟨_, rfl, trivial⟩
    · exact ⟨_, rfl, trivial⟩

lemma tracks_capacity (hA : Grants A) (count least : ℕ) :
    Tracks A (takeCapacity A count least) (Probe.capacity count least) := by
  refine tracks_announced (fun buf pos => .elements count least (buf.length - pos))
    (fun _ _ => rfl) (fun buf pos hfit => ?_) fun hstrict buf pos hbad => ?_
  · rw [takeCapacity, hA _ _ _ hfit]
    rfl
  · exact (hstrict _ _ _ (not_le.1 hbad)).bind

end Ops

/-! ### Decoders -/

section Decoders
variable {A : WithCapacity}

lemma tracks_times {α : Type} {item : WireReader α} {p : Probe α} (h : Tracks A item p) (n : ℕ) :
    Tracks A (times item n) (times p n) := by
  induction n with
  | zero => exact .pure []
  | succ n ih => exact h.bind fun a => ih.bind fun as => .pure (a :: as)

lemma tracks_list (hA : Grants A) (least : ℕ) {α : Type} {item : WireReader α} {p : Probe α}
    (h : Tracks A item p) : Tracks A (takeList (wire A) least item) (takeList probe least p) :=
  tracks_varint.bind fun n => (tracks_capacity hA n least).bind fun _ => tracks_times h n

lemma tracks_asof : Tracks A (takeAsof (wire A)) (takeAsof probe) :=
  tracks_u8.bind fun _ => .ite (.pure _) (.ite (tracks_varint.bind fun _ => .pure _)
    (.ite (tracks_varint.bind fun secs => tracks_varint.bind fun _ =>
      (tracks_systemTime secs _).bind fun _ => .pure _) (tracks_error not_false)))

lemma tracks_kind : Tracks A (takeKind (wire A)) (takeKind probe) :=
  tracks_u8.bind fun _ => .ite (.pure _) (.ite (.pure _) (.ite (.pure _) (tracks_error not_false)))

lemma tracks_schemaChange : Tracks A (takeSchemaChange (wire A)) (takeSchemaChange probe) :=
  tracks_str.bind fun _ => tracks_kind.bind fun _ => .pure _

lemma tracks_rowChange : Tracks A (takeRowChange (wire A)) (takeRowChange probe) :=
  tracks_varint.bind fun _ => .ite (tracks_error not_false)
    (tracks_rowid.bind fun _ => tracks_kind.bind fun _ => .pure _)

lemma tracks_diff (hA : Grants A) : Tracks A (takeDiff (wire A)) (takeDiff probe) :=
  (tracks_list hA 2 tracks_schemaChange).bind fun _ =>
    (tracks_list hA 10 tracks_rowChange).bind fun _ => .pure _

lemma tracks_two {α : Type} (f : String → String → α) :
    Tracks A (takeStr >>= fun a => takeStr >>= fun b => pure (f a b))
      (Probe.str >>= fun a => Probe.str >>= fun b => pure (f a b)) :=
  tracks_str.bind fun _ => tracks_str.bind fun _ => .pure _

lemma tracks_request (hA : Grants A) : Tracks A (takeRequest (wire A)) (takeRequest probe) := by
  refine tracks_u8.bind fun tag => ?_
  refine .ite (tracks_u32.bind fun _ => .pure _) ?_
  refine .ite (tracks_str.bind fun _ => .pure _) ?_
  refine .ite (tracks_str.bind fun _ => (tracks_vals hA).bind fun _ => .pure _) ?_
  refine .ite (tracks_str.bind fun _ => (tracks_vals hA).bind fun _ =>
    tracks_asof.bind fun _ => .pure _) ?_
  refine .ite (.pure _) ?_
  refine .ite (tracks_two Request.diff) ?_
  refine .ite (tracks_two Request.merge) ?_
  exact .ite (tracks_two Request.auth) (tracks_error not_false)

lemma tracks_response (hA : Grants A) : Tracks A (takeResponse (wire A)) (takeResponse probe) := by
  refine tracks_u8.bind fun tag => ?_
  refine .ite (tracks_u32.bind fun _ => tracks_str.bind fun _ => .pure _) ?_
  refine .ite (tracks_varint.bind fun _ => .pure _) ?_
  refine .ite ((tracks_list hA 1 tracks_str).bind fun _ =>
    (tracks_list hA 2 (tracks_vals hA)).bind fun _ => .pure _) ?_
  refine .ite (tracks_varint.bind fun _ => tracks_varint.bind fun _ => tracks_u8.bind fun _ =>
    tracks_hash.bind fun _ => .pure _) ?_
  refine .ite (tracks_str.bind fun _ => .pure _) ?_
  refine .ite ((tracks_diff hA).bind fun _ => .pure _) ?_
  exact .ite (tracks_varint.bind fun _ => tracks_varint.bind fun _ => .pure _)
    (tracks_error not_false)

end Decoders

/-! ### Hostile bytes -/

/-- Whatever becomes of a capacity that the bytes left do not justify, decoding does not end the
process, so that none is asked for. -/
def Safe {α : Type} (decode : WithCapacity → Bytes → Except ProtoError α) (buf : Bytes) : Prop :=
  ∀ A, Grants A → ¬ Stops (decode A buf)

/-- Memory for what the bytes left justify, and for no more. -/
def justified : WithCapacity := fun count least left =>
  if count * least ≤ left then .ok () else .error (.panic "capacity overflow")

lemma grants_justified : Grants justified := fun _ _ _ h => if_pos h

lemma strict_justified : Strict justified := fun count least left h => by
  rw [justified, if_neg (not_le.2 h)]
  exact ⟨_, rfl, trivial⟩

lemma safe_iff {α : Type} {r : WithCapacity → WireReader α} {p : Probe α}
    (h : ∀ A, Grants A → Tracks A (r A) p) (buf : Bytes) :
    Safe (fun A buf => r A buf 0 >>= fun x => .ok x.1) buf ↔ ∀ a ∈ (p buf 0).1, a.Fits := by
  constructor
  · intro hsafe a ha
    by_contra hbad
    have hstop := (h justified grants_justified).stops strict_justified buf 0 ⟨a, ha, hbad⟩
    exact hsafe justified grants_justified hstop.bind
  · intro hfit A hA
    have hr := (h A hA).agrees buf 0 hfit
    exact not_stops_of_agrees (hr.map fun x => x.1)

/-- Bytes are decoded without the end of the process exactly where every number they announce, up to
where decoding ends, fits. -/
theorem hostile_bytes (buf : Bytes) :
    (Safe Request.decode buf ↔ ∀ a ∈ Request.announced buf, a.Fits) ∧
    (Safe Response.decode buf ↔ ∀ a ∈ Response.announced buf, a.Fits) :=
  ⟨safe_iff (fun _ hA => tracks_request hA) buf, safe_iff (fun _ hA => tracks_response hA) buf⟩

/-- A name of 2^64 - 1 bytes. -/
def endlessName : Bytes := [REQ_USE_BRANCH, 255, 255, 255, 255, 255, 255, 255, 255, 255, 1]

theorem hostile_bytes_endless : ¬ ∀ buf, Safe Request.decode buf ∧ Safe Response.decode buf := by
  intro h
  refine (h endlessName).1 justified grants_justified ⟨.panic "attempt to add with overflow", ?_, trivial⟩
  decide +kernel

end Arkeion.Proto
