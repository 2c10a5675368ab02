import Arkeion.Lib.Bytes

/-!
Characters as bytes in UTF-8, as far as offsets and plain ASCII text need it.
-/

namespace Arkeion.Lib

def encodeChars (cs : List Char) : Bytes := cs.flatMap String.utf8EncodeChar

section Utf8
variable {c : Char} {cs ds : List Char}

lemma encodeChars_append : encodeChars (cs ++ ds) = encodeChars cs ++ encodeChars ds :=
  List.flatMap_append

lemma encodeChars_cons : encodeChars (c :: cs) = String.utf8EncodeChar c ++ encodeChars cs := rfl

lemma encodeChar_ascii (h : c.toNat < 128) : String.utf8EncodeChar c = [UInt8.ofNat c.toNat] := by
  unfold String.utf8EncodeChar
  exact if_pos (Nat.le_of_lt_succ h)

lemma encodeChars_ascii (h : ∀ c ∈ cs, c.toNat < 128) :
    encodeChars cs = cs.map fun c => UInt8.ofNat c.toNat := by
  induction cs with
  | nil => rfl
  | cons c cs ih =>
    rw [encodeChars_cons, encodeChar_ascii (h c List.mem_cons_self),
      ih fun d hd => h d (List.mem_cons_of_mem c hd)]
    rfl

/-- The bytes of a character outside ASCII. -/
lemma high_of_wide (h : ¬ c.toNat < 128) : ∀ b ∈ String.utf8EncodeChar c, 128 ≤ b.toNat := by
  intro b hb
  have hval : ¬ c.val.toNat ≤ 0x7f := fun hle => h (Nat.lt_succ_of_le hle)
  unfold String.utf8EncodeChar at hb
  dsimp only at hb
  rw [if_neg hval] at hb
  split_ifs at hb
  all_goals
    simp only [List.mem_cons, List.not_mem_nil, or_false] at hb
    rcases hb with rfl | rfl | rfl | rfl <;> rw [UInt8.toNat_ofNat'] <;> omega

/-- The first character is read off the bytes, whatever follows it. -/
lemma encodeChar_inj {d : Char} {a b : Bytes}
    (h : String.utf8EncodeChar c ++ a = String.utf8EncodeChar d ++ b) : c = d := by
  have hread (e : Char) (t : Bytes) :
      ByteArray.utf8DecodeChar? (String.utf8EncodeChar e ++ t).toByteArray 0 = some e := by
    have happ : (String.utf8EncodeChar e ++ t).toByteArray
        = (String.utf8EncodeChar e).toByteArray ++ t.toByteArray := by simp
    rw [happ]
    exact ByteArray.utf8DecodeChar?_utf8EncodeChar_append
  have hc := hread c a
  rw [h, hread d b] at hc
  exact (Option.some.inj hc).symm

/-- A text begins with another one when its bytes do. -/
lemma encodeChars_prefix : encodeChars cs <+: encodeChars ds ↔ cs <+: ds := by
  constructor
  · intro h
    induction cs generalizing ds with
    | nil => exact List.nil_prefix
    | cons c cs ih =>
      cases ds with
      | nil =>
        have hlen := h.length_le
        have hpos := c.utf8Size_pos
        rw [encodeChars_cons, List.length_append, String.length_utf8EncodeChar] at hlen
        simp [encodeChars] at hlen
        omega
      | cons d ds =>
        obtain ⟨t, ht⟩ := h
        rw [encodeChars_cons, encodeChars_cons, List.append_assoc] at ht
        obtain rfl := encodeChar_inj ht
        exact List.cons_prefix_cons.2 ⟨rfl, ih ⟨t, List.append_cancel_left ht⟩⟩
  · rintro ⟨t, rfl⟩
    rw [encodeChars_append]
    exact List.prefix_append _ _

end Utf8

/-! ### Offsets -/

/-- The length of a text in bytes. -/
def charsLen (cs : List Char) : ℕ := (cs.map Char.utf8Size).sum

/-- A text cut at a byte offset, `none` inside a character and past the end. -/
def splitAt? : List Char → ℕ → Option (List Char × List Char)
  | cs, 0 => some ([], cs)
  | [], _ + 1 => none
  | c :: cs, n + 1 =>
    if n + 1 < c.utf8Size then none
    else (splitAt? cs (n + 1 - c.utf8Size)).map fun p => (c :: p.1, p.2)

/-- The text between two byte offsets that lie between characters. -/
def charSlice? (cs : List Char) (start stop : ℕ) : Option (List Char) :=
  if start ≤ stop then
    (splitAt? cs start).bind fun p => (splitAt? p.2 (stop - start)).map Prod.fst
  else none

section Offsets
variable {c : Char} {cs ds es : List Char} {start stop : ℕ}

@[simp] lemma charsLen_nil : charsLen [] = 0 := rfl

@[simp] lemma charsLen_cons : charsLen (c :: cs) = c.utf8Size + charsLen cs := by
  unfold charsLen
  rw [List.map_cons, List.sum_cons]

@[simp] lemma charsLen_append : charsLen (cs ++ ds) = charsLen cs + charsLen ds := by
  unfold charsLen
  rw [List.map_append, List.sum_append]

lemma length_encodeChars : (encodeChars cs).length = charsLen cs := by
  induction cs with
  | nil => rfl
  | cons c cs ih =>
    rw [encodeChars_cons, List.length_append, String.length_utf8EncodeChar, ih, charsLen_cons]

lemma length_le_charsLen (cs : List Char) : cs.length ≤ charsLen cs := by
  induction cs with
  | nil => exact le_refl 0
  | cons c cs ih =>
    have hpos : 0 < c.utf8Size := c.utf8Size_pos
    rw [List.length_cons, charsLen_cons]
    omega

lemma splitAt?_append : splitAt? (cs ++ ds) (charsLen cs) = some (cs, ds) := by
  induction cs with
  | nil => cases ds <;> rfl
  | cons c cs ih =>
    have hpos : 0 < c.utf8Size := c.utf8Size_pos
    obtain ⟨n, hn⟩ : ∃ n, charsLen (c :: cs) = n + 1 :=
      ⟨charsLen (c :: cs) - 1, by rw [charsLen_cons]; omega⟩
    have hlen : n + 1 = c.utf8Size + charsLen cs := by rw [← hn, charsLen_cons]
    have hrest : n + 1 - c.utf8Size = charsLen cs := by omega
    rw [hn, List.cons_append, splitAt?, if_neg (by omega), hrest, ih]
    rfl

/-- A slice at the offsets of a part is that part. -/
lemma charSlice?_append (hstart : start = charsLen cs) (hstop : stop = start + charsLen ds) :
    charSlice? (cs ++ (ds ++ es)) start stop = some ds := by
  have hlen : stop - start = charsLen ds := by omega
  rw [charSlice?, if_pos (by omega), hstart, splitAt?_append, Option.bind_some, ← hstart, hlen,
    splitAt?_append]
  rfl

end Offsets

end Arkeion.Lib
