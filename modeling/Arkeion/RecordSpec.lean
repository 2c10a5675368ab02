import Arkeion.RecordCodec

/-!
What is written as a record is read back: the whole row, only some of its columns, or one blob.
-/

namespace Arkeion

open Arkeion.Lib

/-! ### Zigzag -/

section Bits
variable {w : ℕ} (x : BitVec (w + 1))

lemma sshiftRight_sign :
    x.sshiftRight w = if x.msb then BitVec.allOnes (w + 1) else 0#(w + 1) := by
  ext i hi
  have hms : x.msb = x[w] := by simp [BitVec.msb_eq_getLsbD_last]
  rw [BitVec.getElem_sshiftRight, hms]
  rcases Nat.eq_zero_or_pos i with rfl | h
  · cases hm : x[w] <;> simp [hm]
  · cases hm : x[w] <;> simp [show ¬ w + i < w + 1 by omega]

lemma low_bit : x &&& 1#(w + 1) = if x[0] then 1#(w + 1) else 0#(w + 1) := by
  ext i hi
  rcases Nat.eq_zero_or_pos i with rfl | h
  · cases hm : x[0] <;> simp [hm]
  · cases hm : x[0] <;> simp [show i ≠ 0 by omega]

/-- The sign is spread over all bits and taken off again. -/
lemma unzigzag_bits :
    ((x <<< 1 ^^^ x.sshiftRight w) >>> 1) ^^^ -((x <<< 1 ^^^ x.sshiftRight w) &&& 1#(w + 1)) = x := by
  have hms : x.msb = x[w] := by simp [BitVec.msb_eq_getLsbD_last]
  rw [sshiftRight_sign, low_bit, hms]
  have h0 : (x <<< 1)[0] = false := by simp
  have hlast (i : ℕ) (hi : i < w + 1) (h : ¬ 1 + i < w + 1) : i = w := by omega
  ext i hi
  cases hm : x[w] with
  | false =>
    simp only [Bool.false_eq_true, if_false, BitVec.xor_zero, h0, BitVec.neg_zero]
    by_cases h : 1 + i < w + 1
    · simp [h]
    · obtain rfl := hlast i hi h
      simp [hm]
  | true =>
    have h1 : (x <<< 1 ^^^ BitVec.allOnes (w + 1))[0] = true := by simp
    simp only [if_true, h1, BitVec.neg_one_eq_allOnes]
    by_cases h : 1 + i < w + 1
    · simp [h]
    · obtain rfl := hlast i hi h
      simp [hm]
end Bits

lemma unzigzag_zigzag (v : Int64) : unzigzag (zigzag v) = v := by
  have hz : (zigzag v).toBitVec = v.toBitVec <<< 1 ^^^ v.toBitVec.sshiftRight 63 := rfl
  apply Int64.toBitVec_inj.1
  have h : (unzigzag (zigzag v)).toBitVec
      = ((zigzag v).toBitVec >>> 1) ^^^ -((zigzag v).toBitVec &&& 1#64) := rfl
  rw [h, hz]
  exact unzigzag_bits v.toBitVec
/-! ### One payload -/

section Payload
variable {buf x y z : Bytes} {p : ℕ}

lemma takeLen_at {v : ℕ} (hp : p = x.length) (hv : v < 2 ^ 64) (reason : String) :
    takeLen (x ++ putVarint v ++ z) p reason = .ok (v, p + (putVarint v).length) := by
  rw [takeLen, takeVarint_put x z hp hv, okOr_some, length_putVarint hv]

lemma getRange_at (hp : p = x.length) (hb : (x ++ y ++ z).length < 2 ^ 64) (reason : String) :
    getRange (x ++ y ++ z) p y.length reason = .ok y := by
  rw [getRange, if_neg, slice?_append x y z hp rfl, okOr_some]
  simp only [List.length_append] at hb
  omega

/-- Bytes behind their length. -/
lemma getRange_behind (hp : p = x.length)
    (hb : (x ++ (putVarint y.length ++ y) ++ z).length < 2 ^ 64) (reason : String) :
    getRange (x ++ (putVarint y.length ++ y) ++ z) (p + (putVarint y.length).length) y.length reason
      = .ok y := by
  have h : x ++ (putVarint y.length ++ y) ++ z = x ++ putVarint y.length ++ y ++ z := by simp
  rw [h] at hb ⊢
  exact getRange_at (by simp [hp]) hb reason

lemma takeLen_behind (hp : p = x.length)
    (hb : (x ++ (putVarint y.length ++ y) ++ z).length < 2 ^ 64) (reason : String) :
    takeLen (x ++ (putVarint y.length ++ y) ++ z) p reason
      = .ok (y.length, p + (putVarint y.length).length) := by
  have hy : y.length < 2 ^ 64 := by
    simp only [List.length_append] at hb
    omega
  have h := takeLen_at (z := y ++ z) hp hy reason
  simpa only [List.append_assoc] using h

lemma decodePayload_at {v : Value} (hp : p = x.length)
    (hb : (x ++ payloadOf v ++ z).length < 2 ^ 64) :
    decodePayload (x ++ payloadOf v ++ z) p (tagOf v) = .ok (v, p + (payloadOf v).length) := by
  cases v with
  | null => rfl
  | bool b => cases b <;> rfl
  | integer n =>
    have h := takeLen_at (z := z) hp (zigzag n).toNat_lt "entero truncado"
    have hu : UInt64.ofNat (zigzag n).toNat = zigzag n := UInt64.ofNat_toNat
    simp only [payloadOf] at hb ⊢
    simp [-List.append_assoc, decodePayload, tagOf, TAG_INT, TAG_NULL, TAG_FALSE, TAG_TRUE, h, hu, ok_bind,
      unzigzag_zigzag]
  | real f =>
    have h := getRange_at (y := leBytes 8 f.bits.toNat) hp hb "real truncado"
    rw [length_leBytes] at h
    have hf : UInt64.ofNat (leNat (leBytes 8 f.bits.toNat)) = f.bits := by
      rw [leNat_leBytes 8 f.bits.toNat_lt, UInt64.ofNat_toNat]
    simp only [payloadOf] at hb ⊢
    simp [-List.append_assoc, decodePayload, tagOf, TAG_REAL, TAG_INT, TAG_NULL, TAG_FALSE, TAG_TRUE, h, hf, ok_bind,
      length_leBytes]
  | text s =>
    have h₁ := takeLen_behind hp hb "longitud de texto truncada"
    have h₂ := getRange_behind hp hb "texto truncado"
    simp only [payloadOf] at hb ⊢
    simp [-List.append_assoc, decodePayload, tagOf, TAG_TEXT, TAG_REAL, TAG_INT, TAG_NULL, TAG_FALSE, TAG_TRUE, h₁,
      h₂, ok_bind, CommitHeader.fromUtf8_utf8, okOr_some, List.length_append, Nat.add_assoc]
  | blob b =>
    have h₁ := takeLen_behind hp hb "longitud de blob truncada"
    have h₂ := getRange_behind hp hb "blob truncado"
    simp only [payloadOf] at hb ⊢
    simp [-List.append_assoc, decodePayload, tagOf, TAG_BLOB, TAG_TEXT, TAG_REAL, TAG_INT, TAG_NULL, TAG_FALSE,
      TAG_TRUE, h₁, h₂, ok_bind, List.length_append, Nat.add_assoc]

lemma skipPayload_at {v : Value} (hp : p = x.length)
    (hb : (x ++ payloadOf v ++ z).length < 2 ^ 64) :
    skipPayload (x ++ payloadOf v ++ z) p (tagOf v) = .ok (p + (payloadOf v).length) := by
  cases v with
  | null => rfl
  | bool b => cases b <;> rfl
  | integer n =>
    have h := takeLen_at (z := z) hp (zigzag n).toNat_lt "entero truncado"
    simp only [payloadOf] at hb ⊢
    simp [-List.append_assoc, skipPayload, tagOf, TAG_INT, TAG_NULL, TAG_FALSE, TAG_TRUE, h, ok_bind]
  | real f =>
    have h := getRange_at (y := leBytes 8 f.bits.toNat) hp hb "real truncado"
    rw [length_leBytes] at h
    simp only [payloadOf] at hb ⊢
    simp [-List.append_assoc, skipPayload, tagOf, TAG_REAL, TAG_INT, TAG_NULL, TAG_FALSE, TAG_TRUE, h, ok_bind,
      length_leBytes]
  | text s =>
    have h₁ := takeLen_behind hp hb "longitud truncada"
    have h₂ := getRange_behind hp hb "payload truncado"
    simp only [payloadOf] at hb ⊢
    simp [-List.append_assoc, skipPayload, tagOf, TAG_TEXT, TAG_REAL, TAG_INT, TAG_NULL, TAG_FALSE, TAG_TRUE, h₁,
      h₂, ok_bind, List.length_append, Nat.add_assoc]
  | blob b =>
    have h₁ := takeLen_behind hp hb "longitud truncada"
    have h₂ := getRange_behind hp hb "payload truncado"
    simp only [payloadOf] at hb ⊢
    simp [-List.append_assoc, skipPayload, tagOf, TAG_BLOB, TAG_TEXT, TAG_REAL, TAG_INT, TAG_NULL, TAG_FALSE,
      TAG_TRUE, h₁, h₂, ok_bind, List.length_append, Nat.add_assoc]

end Payload

/-! ### Records -/

section Record
variable {x z : Bytes} {vs : List Value} {p : ℕ}

/-- The payloads with the first one apart. -/
lemma payloads_cons (x z : Bytes) (v : Value) (vs : List Value) :
    x ++ (v :: vs).flatMap payloadOf ++ z = x ++ payloadOf v ++ (vs.flatMap payloadOf ++ z) := by
  simp

lemma payloads_next (x z : Bytes) (v : Value) (vs : List Value) :
    x ++ (v :: vs).flatMap payloadOf ++ z = (x ++ payloadOf v) ++ vs.flatMap payloadOf ++ z := by
  simp

lemma decodePayloads_at (hp : p = x.length)
    (hb : (x ++ vs.flatMap payloadOf ++ z).length < 2 ^ 64) :
    decodePayloads (x ++ vs.flatMap payloadOf ++ z) (vs.map tagOf) p
      = .ok (vs, p + (vs.flatMap payloadOf).length) := by
  induction vs generalizing x p with
  | nil => rfl
  | cons v vs ih =>
    have hv := decodePayload_at (v := v) hp (payloads_cons x z v vs ▸ hb)
    have hvs := ih (x := x ++ payloadOf v) (p := p + (payloadOf v).length) (by simp [hp])
      (payloads_next x z v vs ▸ hb)
    rw [← payloads_cons] at hv
    rw [← payloads_next] at hvs
    simp only [List.map_cons, decodePayloads, hv, ok_bind, hvs]
    rw [List.flatMap_cons, List.length_append, Nat.add_assoc]

/-- The columns wanted, in rising order, none of them before the column `i` that is next. -/
lemma decodeWanted_at {wanted : List ℕ} {i : ℕ} (hp : p = x.length)
    (hb : (x ++ vs.flatMap payloadOf ++ z).length < 2 ^ 64) (hw : wanted.Pairwise (· < ·))
    (hi : ∀ w ∈ wanted, i ≤ w) :
    decodeWanted (x ++ vs.flatMap payloadOf ++ z) (vs.map tagOf) p i wanted
      = .ok (wanted.map fun w => vs[w - i]?) := by
  induction vs generalizing x p i wanted with
  | nil => cases wanted <;> simp [decodeWanted]
  | cons v vs ih =>
    cases wanted with
    | nil => simp [decodeWanted]
    | cons w wanted =>
      rw [List.pairwise_cons] at hw
      have hiw := hi w List.mem_cons_self
      have hlater (l : List ℕ) (hl : ∀ u ∈ l, i + 1 ≤ u) :
          (l.map fun u => vs[u - (i + 1)]?) = l.map fun u => (v :: vs)[u - i]? := by
        refine List.map_congr_left fun u hu => ?_
        have := hl u hu
        rw [show u - i = u - (i + 1) + 1 by omega, List.getElem?_cons_succ]
      have hnext {l : List ℕ} (hl : l.Pairwise (· < ·)) (hl' : ∀ u ∈ l, i + 1 ≤ u) :=
        ih (x := x ++ payloadOf v) (p := p + (payloadOf v).length) (by simp [hp])
          (payloads_next x z v vs ▸ hb) hl hl'
      rcases eq_or_ne w i with rfl | hne
      · have hv := decodePayload_at (v := v) hp (payloads_cons x z v vs ▸ hb)
        rw [← payloads_cons] at hv
        have hrest := hnext hw.2 fun u hu => hw.1 u hu
        rw [← payloads_next, hlater wanted fun u hu => hw.1 u hu] at hrest
        simp [-List.append_assoc, -List.flatMap_cons, decodeWanted, hv, hrest]
      · have hv := skipPayload_at (v := v) hp (payloads_cons x z v vs ▸ hb)
        rw [← payloads_cons] at hv
        have hall : ∀ u ∈ w :: wanted, i + 1 ≤ u := by
          intro u hu
          rcases List.mem_cons.1 hu with rfl | hu
          · omega
          · have := hw.1 u hu
            omega
        have hrest := hnext (List.pairwise_cons.2 hw) hall
        rw [← payloads_next, hlater _ hall] at hrest
        simp only [List.map_cons, decodeWanted, if_neg hne, hv, ok_bind]
        simpa only [List.map_cons] using hrest

lemma takeHeader_encode (hb : (encodeValues vs).length < 2 ^ 64) : takeHeader (encodeValues vs)
    = .ok (vs.map tagOf, (putVarint vs.length ++ vs.map tagOf).length) := by
  have hn : vs.length < 2 ^ 64 := by
    simp only [encodeValues, List.length_append, List.length_map] at hb
    omega
  have hlen := takeLen_at (x := []) (z := vs.map tagOf ++ vs.flatMap payloadOf) (p := 0) rfl hn
    "cabecera de registro truncada"
  have htags := getRange_at (x := putVarint vs.length) (y := vs.map tagOf)
    (z := vs.flatMap payloadOf) rfl hb "tags truncados"
  rw [List.length_map] at htags
  rw [List.nil_append, ← List.append_assoc] at hlen
  simp only [takeHeader, encodeValues, hlen, htags, ok_bind, List.length_append, List.length_map,
    Nat.zero_add]

/-- A record is read back. -/
lemma decodeValues_encode (hb : (encodeValues vs).length < 2 ^ 64) :
    decodeValues (encodeValues vs) = .ok vs := by
  have hpos : decodePayloads (putVarint vs.length ++ vs.map tagOf ++ vs.flatMap payloadOf ++ [])
      (vs.map tagOf) (putVarint vs.length ++ vs.map tagOf).length = .ok (vs, _) :=
    decodePayloads_at rfl (by rwa [List.append_nil])
  rw [List.append_nil] at hpos
  rw [← List.length_append, ← encodeValues] at hpos
  simp only [decodeValues, takeHeader_encode hb, hpos, ok_bind, if_true]

/-- The columns wanted of a record are those of the row; behind its end there is none. -/
lemma decodeColsSorted_encode (hb : (encodeValues vs).length < 2 ^ 64) {wanted : List ℕ}
    (hw : wanted.Pairwise (· < ·)) :
    decodeColsSorted (encodeValues vs) wanted = .ok (wanted.map fun w => vs[w]?) := by
  have hall : decodeWanted (putVarint vs.length ++ vs.map tagOf ++ vs.flatMap payloadOf ++ [])
      (vs.map tagOf) (putVarint vs.length ++ vs.map tagOf).length 0 wanted = .ok _ :=
    decodeWanted_at rfl (by rwa [List.append_nil]) hw fun _ _ => Nat.zero_le _
  rw [List.append_nil] at hall
  rw [← encodeValues] at hall
  simp only [decodeColsSorted, takeHeader_encode hb, ok_bind, hall, Nat.sub_zero]

end Record

end Arkeion
