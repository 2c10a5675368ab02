import Arkeion.Error
import Arkeion.Lib.Utf8

/-!
The two tokenizers, and where the tokens lie in the text.

Both cut a text into gaps and words; a word that a filter drops becomes a part of the next gap.
-/

namespace Arkeion.Fts

open Arkeion.Lib

structure Token where
  text : String
  position : UInt32
  byte_start : ℕ
  byte_end : ℕ
  deriving DecidableEq, Repr

/-- The tables of Unicode. -/
structure Unicode where
  is_alphanumeric : Char → Bool
  to_lowercase : Char → List Char

/-- The text between two offsets; elsewhere than between characters the process ends. -/
def sliceText (text : List Char) (start stop : ℕ) : Result (List Char) :=
  match charSlice? text start stop with
  | some cs => .ok cs
  | none => .error (.panic "byte index is not a char boundary")

/-- A lower case letter of a European script without its diacritic. -/
def foldLower (c : Char) : List Char :=
  if c ∈ ['à', 'á', 'â', 'ã', 'ä', 'å', 'ā', 'ă', 'ą'] then ['a']
  else if c = 'æ' then ['a', 'e']
  else if c ∈ ['ç', 'ć', 'ĉ', 'ċ', 'č'] then ['c']
  else if c ∈ ['ð', 'ď', 'đ'] then ['d']
  else if c ∈ ['è', 'é', 'ê', 'ë', 'ē', 'ĕ', 'ė', 'ę', 'ě'] then ['e']
  else if c ∈ ['ĝ', 'ğ', 'ġ', 'ģ'] then ['g']
  else if c ∈ ['ĥ', 'ħ'] then ['h']
  else if c ∈ ['ì', 'í', 'î', 'ï', 'ĩ', 'ī', 'ĭ', 'į', 'ı'] then ['i']
  else if c = 'ĵ' then ['j']
  else if c = 'ķ' then ['k']
  else if c ∈ ['ĺ', 'ļ', 'ľ', 'ŀ', 'ł'] then ['l']
  else if c ∈ ['ñ', 'ń', 'ņ', 'ň', 'ŋ'] then ['n']
  else if c ∈ ['ò', 'ó', 'ô', 'õ', 'ö', 'ø', 'ō', 'ŏ', 'ő'] then ['o']
  else if c = 'œ' then ['o', 'e']
  else if c ∈ ['ŕ', 'ŗ', 'ř'] then ['r']
  else if c ∈ ['ś', 'ŝ', 'ş', 'š'] then ['s']
  else if c = 'ß' then ['s', 's']
  else if c ∈ ['ţ', 'ť', 'ŧ'] then ['t']
  else if c = 'þ' then ['t', 'h']
  else if c ∈ ['ù', 'ú', 'û', 'ü', 'ũ', 'ū', 'ŭ', 'ů', 'ű', 'ų'] then ['u']
  else if c = 'ŵ' then ['w']
  else if c ∈ ['ý', 'ÿ', 'ŷ'] then ['y']
  else if c ∈ ['ź', 'ż', 'ž'] then ['z']
  else [c]

/-! ### The Unicode tokenizer -/

structure UnicodeTokenizer where
  fold_diacritics : Bool
  max_token_len : Option ℕ

def UnicodeTokenizer.new : UnicodeTokenizer := ⟨true, none⟩

/-- The place of the loop: the number of runs so far, the start of the run that is open, and the
end of the last run. -/
structure Run where
  position : UInt32
  run_start : Option ℕ
  run_end : ℕ
  out : List Token

section Unicode
variable (U : Unicode) (tk : UnicodeTokenizer)

def UnicodeTokenizer.normalize (raw : List Char) : List Char :=
  raw.flatMap fun c => (U.to_lowercase c).flatMap fun lc =>
    if tk.fold_diacritics then foldLower lc else [lc]

def UnicodeTokenizer.emit (text : List Char) (start stop : ℕ) (position : UInt32)
    (out : List Token) : Result (List Token) := do
  let raw ← sliceText text start stop
  let norm := tk.normalize U raw
  if norm = [] then .ok out
  else if tk.max_token_len.any fun max => max < norm.length then .ok out
  else .ok (out ++ [⟨String.ofList norm, position, start, stop⟩])

/-- One turn of the loop, at the character `c` with the offset `i`. The position wraps. -/
def UnicodeTokenizer.turn (text : List Char) (st : Run) (i : ℕ) (c : Char) : Result Run :=
  if U.is_alphanumeric c then
    .ok { st with run_start := some (st.run_start.getD i), run_end := i + c.utf8Size }
  else
    match st.run_start with
    | some start => do
      let out ← tk.emit U text start st.run_end st.position st.out
      .ok ⟨st.position + 1, none, st.run_end, out⟩
    | none => .ok st

/-- The loop over the characters from the offset `i` on. -/
def UnicodeTokenizer.turns (text : List Char) : Run → ℕ → List Char → Result Run
  | st, _, [] => .ok st
  | st, i, c :: cs => do
    let st ← tk.turn U text st i c
    turns text st (i + c.utf8Size) cs

def UnicodeTokenizer.tokenize (text : List Char) (out : List Token) : Result (List Token) := do
  let st ← tk.turns U text ⟨0, none, 0, out⟩ 0 text
  match st.run_start with
  | some start => tk.emit U text start st.run_end st.position st.out
  | none => .ok st.out

end Unicode

/-! ### The ASCII tokenizer -/

def isAsciiAlphanumeric (b : UInt8) : Bool :=
  (48 ≤ b && b ≤ 57) || (65 ≤ b && b ≤ 90) || (97 ≤ b && b ≤ 122)

def toAsciiLowercase (b : UInt8) : UInt8 := if 65 ≤ b && b ≤ 90 then b + 32 else b

/-- The end of a run: the offset behind it, its number and its bytes. The position wraps. -/
def endRun (i : ℕ) (position : UInt32) (run : Bytes) (out : List Token) : UInt32 × List Token :=
  if run = [] then (position, out)
  else
    let norm := run.map fun b => Char.ofNat (toAsciiLowercase b).toNat
    (position + 1, out ++ [⟨String.ofList norm, position, i - run.length, i⟩])

/-- Both loops, at the offset `i` with the bytes from there on; the inner one has `run` so far. -/
def asciiTurns : ℕ → UInt32 → Bytes → List Token → Bytes → List Token
  | i, position, run, out, [] => (endRun i position run out).2
  | i, position, run, out, b :: bytes =>
    if isAsciiAlphanumeric b then asciiTurns (i + 1) position (run ++ [b]) out bytes
    else
      let ended := endRun i position run out
      asciiTurns (i + 1) ended.1 [] ended.2 bytes

def asciiTokenize (text : List Char) (out : List Token) : List Token :=
  asciiTurns 0 0 [] out (encodeChars text)

/-- `tokenizer_for`. -/
inductive Tokenizer where
  | unicode (tk : UnicodeTokenizer)
  | ascii

def Tokenizer.tokenize (U : Unicode) (text : String) : Tokenizer → Result (List Token)
  | .unicode tk => tk.tokenize U text.toList []
  | .ascii => .ok (asciiTokenize text.toList [])

/-! ### Where the tokens lie -/

/-- A token with the characters it was made of and those in front of it. -/
structure Piece where
  gap : List Char
  word : List Char
  token : Token

def Piece.chars (p : Piece) : List Char := p.gap ++ p.word

def flat (ps : List Piece) : List Char := ps.flatMap Piece.chars

/-- The token lies where its word does, in a text whose piece starts at the offset. -/
structure Piece.LiesAt (off : ℕ) (p : Piece) : Prop where
  word_ne : p.word ≠ []
  starts : p.token.byte_start = off + charsLen p.gap
  ends : p.token.byte_end = p.token.byte_start + charsLen p.word

def LaidFrom : ℕ → List Piece → Prop
  | _, [] => True
  | off, p :: ps => p.LiesAt off ∧ LaidFrom (off + charsLen p.chars) ps

/-- The tokens of a text, which is cut into the pieces and a rest. -/
structure Cuts (text : List Char) (toks : List Token) (ps : List Piece) (rest : List Char) :
    Prop where
  text_eq : text = flat ps ++ rest
  toks_eq : toks = ps.map Piece.token
  laid : LaidFrom 0 ps

section Laid
variable {off : ℕ} {p : Piece} {ps qs : List Piece} {text seen gap word rest : List Char}
  {toks out : List Token} {t : Token}

@[simp] lemma flat_nil : flat [] = [] := rfl

@[simp] lemma flat_cons : flat (p :: ps) = p.gap ++ (p.word ++ flat ps) := by
  rw [← List.append_assoc]
  rfl

@[simp] lemma flat_append : flat (ps ++ qs) = flat ps ++ flat qs := List.flatMap_append

@[simp] lemma charsLen_chars : charsLen p.chars = charsLen p.gap + charsLen p.word :=
  charsLen_append

lemma laidFrom_append : LaidFrom off (ps ++ qs)
    ↔ LaidFrom off ps ∧ LaidFrom (off + charsLen (flat ps)) qs := by
  induction ps generalizing off with
  | nil => simp [LaidFrom]
  | cons p ps ih =>
    rw [List.cons_append, LaidFrom, LaidFrom, ih, and_assoc, flat_cons, charsLen_chars]
    simp only [charsLen_append, Nat.add_assoc]

/-- One more token, made of the last characters of the text. -/
lemma Cuts.snoc (h : Cuts seen toks ps (gap ++ word)) (hword : word ≠ [])
    (hstart : t.byte_start = charsLen (flat ps ++ gap)) (hend : t.byte_end = charsLen seen) :
    Cuts seen (toks ++ [t]) (ps ++ [⟨gap, word, t⟩]) [] where
  text_eq := by
    rw [h.text_eq]
    simp
  toks_eq := by
    rw [h.toks_eq, List.map_append]
    rfl
  laid := by
    rw [h.text_eq] at hend
    simp only [charsLen_append] at hstart hend
    refine laidFrom_append.2 ⟨h.laid, ⟨hword, ?_, ?_⟩, trivial⟩
    · rw [hstart, Nat.zero_add]
    · rw [hend, hstart]
      dsimp only
      omega

lemma Cuts.more (h : Cuts seen toks ps rest) (cs : List Char) :
    Cuts (seen ++ cs) toks ps (rest ++ cs) :=
  ⟨by rw [h.text_eq, List.append_assoc], h.toks_eq, h.laid⟩

end Laid

/-! ### The tokenizers cut the text -/

section Unicode
variable {seen before word : List Char} {start stop : ℕ} {st : Run}

/-- A word is dropped, or put out with its offsets. -/
lemma emit_word (U : Unicode) (tk : UnicodeTokenizer) (after : List Char) (position : UInt32)
    (out : List Token) (hstart : start = charsLen before) (hstop : stop = start + charsLen word) :
    tk.emit U (before ++ (word ++ after)) start stop position out = .ok out
      ∨ ∃ t, tk.emit U (before ++ (word ++ after)) start stop position out = .ok (out ++ [t])
        ∧ t.byte_start = start ∧ t.byte_end = stop := by
  have hslice : sliceText (before ++ (word ++ after)) start stop = .ok word := by
    rw [sliceText, charSlice?_append hstart hstop]
  rw [UnicodeTokenizer.emit, hslice, ok_bind]
  dsimp only
  split_ifs
  · exact Or.inl rfl
  · exact Or.inl rfl
  · exact Or.inr ⟨_, rfl, rfl, rfl⟩

/-- The place of the loop behind the characters `seen`. -/
structure Run.Stands (seen : List Char) (st : Run) (ps : List Piece) (gap word : List Char) :
    Prop where
  cuts : Cuts seen st.out ps (gap ++ word)
  closed : word = [] → st.run_start = none
  opened : word ≠ [] → st.run_start = some (charsLen (flat ps ++ gap)) ∧ st.run_end = charsLen seen

/-- The run that is open ends: its word is put out or dropped. -/
lemma Run.Stands.emitted {ps : List Piece} {gap : List Char} (h : st.Stands seen ps gap word)
    (hword : word ≠ []) (U : Unicode) (tk : UnicodeTokenizer) (cs : List Char)
    (position : UInt32) : ∃ start out ps' rest, st.run_start = some start
      ∧ tk.emit U (seen ++ cs) start st.run_end position st.out = .ok out
      ∧ Cuts seen out ps' rest := by
  obtain ⟨hstart, hend⟩ := h.opened hword
  have htext : seen ++ cs = (flat ps ++ gap) ++ (word ++ cs) := by
    rw [h.cuts.text_eq]
    simp only [List.append_assoc]
  have hstop : st.run_end = charsLen (flat ps ++ gap) + charsLen word := by
    rw [hend, h.cuts.text_eq]
    simp only [charsLen_append, Nat.add_assoc]
  rw [htext]
  rcases emit_word U tk cs position st.out rfl hstop with hemit | ⟨t, hemit, hts, hte⟩
  · exact ⟨_, _, ps, gap ++ word, hstart, hemit, h.cuts⟩
  · exact ⟨_, _, _, [], hstart, hemit, h.cuts.snoc hword hts (hte.trans hend)⟩

/-- One turn goes on behind one more character. -/
lemma turn_stands {ps : List Piece} {gap : List Char} (h : st.Stands seen ps gap word)
    (U : Unicode) (tk : UnicodeTokenizer) (c : Char) (cs : List Char) :
    ∃ st' ps' gap' word', tk.turn U (seen ++ c :: cs) st (charsLen seen) c = .ok st'
      ∧ st'.Stands (seen ++ [c]) ps' gap' word' := by
  have hmore := h.cuts.more [c]
  rw [UnicodeTokenizer.turn]
  by_cases hc : U.is_alphanumeric c = true
  · rw [if_pos hc]
    refine ⟨_, ps, gap, word ++ [c], rfl, ?_, fun hnil => ?_, fun _ => ⟨?_, ?_⟩⟩
    · rw [← List.append_assoc]
      exact hmore
    · exact absurd hnil (List.append_ne_nil_of_right_ne_nil word (List.cons_ne_nil c []))
    · by_cases hword : word = []
      · dsimp only
        rw [h.closed hword, h.cuts.text_eq, hword, List.append_nil]
        rfl
      · dsimp only
        rw [(h.opened hword).1]
        rfl
    · simp only [charsLen_append, charsLen_cons, charsLen_nil, Nat.add_zero]
  · rw [if_neg hc]
    by_cases hword : word = []
    · rw [h.closed hword]
      refine ⟨st, ps, gap ++ [c], [], rfl, ?_, fun _ => h.closed hword, fun hne => absurd rfl hne⟩
      rw [hword, List.append_nil] at hmore
      rw [List.append_nil]
      exact hmore
    · obtain ⟨start, out, ps', rest, hstart, hemit, hcuts⟩ :=
        h.emitted hword U tk (c :: cs) st.position
      rw [hstart]
      dsimp only
      rw [hemit, ok_bind]
      refine ⟨_, ps', rest ++ [c], [], rfl, ?_, fun _ => rfl, fun hne => absurd rfl hne⟩
      rw [List.append_nil]
      exact hcuts.more [c]

lemma turns_stands {ps : List Piece} {gap : List Char} (h : st.Stands seen ps gap word)
    (U : Unicode) (tk : UnicodeTokenizer) (cs : List Char) :
    ∃ st' ps' gap' word', tk.turns U (seen ++ cs) st (charsLen seen) cs = .ok st'
      ∧ st'.Stands (seen ++ cs) ps' gap' word' := by
  induction cs generalizing seen st ps gap word with
  | nil => exact ⟨st, ps, gap, word, rfl, (List.append_nil seen).symm ▸ h⟩
  | cons c cs ih =>
    obtain ⟨st', ps', gap', word', hturn, h'⟩ := turn_stands h U tk c cs
    have hseen : seen ++ c :: cs = (seen ++ [c]) ++ cs := by rw [List.append_assoc]; rfl
    have hlen : charsLen seen + c.utf8Size = charsLen (seen ++ [c]) := by simp
    rw [UnicodeTokenizer.turns, hturn, ok_bind, hseen, hlen]
    exact ih h'

lemma unicode_cuts (U : Unicode) (tk : UnicodeTokenizer) (text : List Char) :
    ∃ toks ps rest, tk.tokenize U text [] = .ok toks ∧ Cuts text toks ps rest := by
  have hstart : Run.Stands [] ⟨0, none, 0, []⟩ [] [] [] :=
    ⟨⟨rfl, rfl, trivial⟩, fun _ => rfl, fun hne => absurd rfl hne⟩
  obtain ⟨st, ps, gap, word, hturns, h⟩ := turns_stands hstart U tk text
  rw [List.nil_append, charsLen_nil] at hturns
  rw [List.nil_append] at h
  rw [UnicodeTokenizer.tokenize, hturns, ok_bind]
  by_cases hword : word = []
  · rw [h.closed hword]
    exact ⟨st.out, ps, gap ++ word, rfl, h.cuts⟩
  · obtain ⟨start, out, ps', rest, hstart, hemit, hcuts⟩ :=
      h.emitted hword U tk [] st.position
    rw [List.append_nil] at hemit
    rw [hstart]
    exact ⟨out, ps', rest, hemit, hcuts⟩

end Unicode

section Ascii
variable {seen gap word : List Char} {position : UInt32} {run bs rest : Bytes}
  {out : List Token} {ps : List Piece} {i : ℕ} {b : UInt8}

lemma not_alphanumeric_of_high (h : 128 ≤ b.toNat) : isAsciiAlphanumeric b = false := by
  have hne : ∀ n : UInt8, n.toNat < 128 → ¬ b ≤ n := fun n hn hle =>
    absurd (UInt8.le_iff_toNat_le.1 hle) (by omega)
  rw [isAsciiAlphanumeric, decide_eq_false (hne 57 (by decide)), decide_eq_false (hne 90 (by decide)),
    decide_eq_false (hne 122 (by decide))]
  simp only [Bool.and_false, Bool.or_self]

/-- Bytes outside ASCII end a run, and are skipped. -/
lemma asciiTurns_high (h : ∀ b ∈ bs, 128 ≤ b.toNat) (hbs : bs ≠ []) :
    asciiTurns i position run out (bs ++ rest) = asciiTurns (i + bs.length)
      (endRun i position run out).1 [] (endRun i position run out).2 rest := by
  induction bs generalizing i position run out with
  | nil => exact absurd rfl hbs
  | cons b bs ih =>
    have hb := not_alphanumeric_of_high (h b List.mem_cons_self)
    rw [List.cons_append, asciiTurns, hb, if_neg Bool.false_ne_true]
    dsimp only
    by_cases hnil : bs = []
    · rw [hnil]
      rfl
    · rw [ih (fun b' hb' => h b' (List.mem_cons_of_mem b hb')) hnil, List.length_cons, endRun, if_pos rfl,
        Nat.add_assoc, Nat.add_comm 1]

/-- The place of the loops behind the characters `seen`. -/
structure AsciiStands (seen : List Char) (run : Bytes) (out : List Token) (ps : List Piece)
    (gap word : List Char) : Prop where
  cuts : Cuts seen out ps (gap ++ word)
  run_eq : run = encodeChars word

/-- The end of a run, open or not. -/
lemma AsciiStands.ended (h : AsciiStands seen run out ps gap word) (position : UInt32) :
    ∃ ps' rest, Cuts seen (endRun (charsLen seen) position run out).2 ps' rest := by
  unfold endRun
  split_ifs with hrun
  · exact ⟨ps, gap ++ word, h.cuts⟩
  · have hword : word ≠ [] := by
      rintro rfl
      exact hrun h.run_eq
    refine ⟨_, [], h.cuts.snoc hword ?_ rfl⟩
    have hlen : run.length = charsLen word := by rw [h.run_eq, length_encodeChars]
    dsimp only
    rw [hlen, h.cuts.text_eq]
    simp only [charsLen_append]
    omega

lemma asciiTurns_cuts (h : AsciiStands seen run out ps gap word) (position : UInt32)
    (cs : List Char) :
    ∃ ps' rest, Cuts (seen ++ cs)
      (asciiTurns (charsLen seen) position run out (encodeChars cs)) ps' rest := by
  induction cs generalizing seen run out ps gap word position with
  | nil =>
    rw [List.append_nil]
    exact h.ended position
  | cons c cs ih =>
    have hseen : seen ++ c :: cs = (seen ++ [c]) ++ cs := by rw [List.append_assoc]; rfl
    have hlen : charsLen seen + (String.utf8EncodeChar c).length = charsLen (seen ++ [c]) := by simp
    have hmore := h.cuts.more [c]
    obtain ⟨ps', rest, hended⟩ := h.ended position
    have hclosed : AsciiStands (seen ++ [c]) [] (endRun (charsLen seen) position run out).2 ps'
        (rest ++ [c]) [] := ⟨by rw [List.append_nil]; exact hended.more [c], rfl⟩
    rw [hseen, encodeChars_cons]
    by_cases hascii : c.toNat < 128
    · have hone := encodeChar_ascii hascii
      rw [hone, List.length_singleton] at hlen
      rw [hone, List.singleton_append, asciiTurns, hlen]
      split_ifs with hb
      · have hgrown : AsciiStands (seen ++ [c]) (run ++ [UInt8.ofNat c.toNat]) out ps gap
            (word ++ [c]) := by
          refine ⟨?_, ?_⟩
          · rw [← List.append_assoc]
            exact hmore
          · rw [h.run_eq, encodeChars_append, encodeChars_cons, hone]
            rfl
        exact ih hgrown position
      · exact ih hclosed _
    · have hne : String.utf8EncodeChar c ≠ [] := by
        intro hnil
        have hpos := c.utf8Size_pos
        rw [← String.length_utf8EncodeChar, hnil] at hpos
        exact absurd hpos (lt_irrefl 0)
      rw [asciiTurns_high (high_of_wide hascii) hne, hlen]
      exact ih hclosed _

lemma ascii_cuts (text : List Char) : ∃ ps rest, Cuts text (asciiTokenize text []) ps rest :=
  have hstart : AsciiStands [] [] [] [] [] [] := ⟨⟨rfl, rfl, trivial⟩, rfl⟩
  asciiTurns_cuts hstart 0 text

end Ascii

/-- Each tokenizer cuts each text. -/
lemma tokenize_cuts (U : Unicode) (tk : Tokenizer) (text : String) :
    ∃ toks ps rest, tk.tokenize U text = .ok toks ∧ Cuts text.toList toks ps rest := by
  cases tk with
  | unicode tk => exact unicode_cuts U tk text.toList
  | ascii =>
    obtain ⟨ps, rest, h⟩ := ascii_cuts text.toList
    exact ⟨_, ps, rest, rfl, h⟩

end Arkeion.Fts
