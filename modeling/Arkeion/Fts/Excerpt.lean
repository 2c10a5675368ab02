import Arkeion.Fts.Query
import Arkeion.Fts.Tokenizer

/-!
Excerpts: the text of a row with markers around the tokens a query asks for, whole or cut down to a
window of tokens.

The loop copies from the end of the last word it marked, so what it has still to copy is followed
beside what it has written.
-/

namespace Arkeion.Fts

open Arkeion.Lib

/-! ### The tokens to mark -/

/-- The raw words of a query, with the flag of a trailing star. Of a `NOT`, the left side. -/
def positiveTerms : Query → List (String × Bool)
  | .term text pre => [(text, pre)]
  | .phrase words => words.map fun w => (w, false)
  | .near terms _ => terms.map fun t => (t, false)
  | .column _ query => positiveTerms query
  | .and a b => positiveTerms a ++ positiveTerms b
  | .or a b => positiveTerms a ++ positiveTerms b
  | .not a _ => positiveTerms a

/-- A word that is several tokens loses the flag. -/
def targetsOf (pre : Bool) : List Token → List (String × Bool)
  | [t] => [(t.text, pre)]
  | toks => toks.map fun t => (t.text, false)

section Targets
variable (U : Unicode) (tk : Tokenizer)

def addTargets (out : List (String × Bool)) (raw : String × Bool) :
    Result (List (String × Bool)) := do
  let buf ← tk.tokenize U raw.1
  .ok (out ++ targetsOf raw.2 buf)

def highlightTargets (q : Query) : Result (List (String × Bool)) :=
  (positiveTerms q).foldlM (addTargets U tk) []

end Targets

def tokenMatches (targets : List (String × Bool)) (t : Token) : Bool :=
  targets.any fun target =>
    if target.2 then target.1.toList.isPrefixOf t.text.toList else t.text == target.1

/-! ### The excerpts -/

section Excerpt
variable (U : Unicode) (text : String) (q : Query) (tk : Tokenizer) (open_ close : String)

/-- One turn of the loop, with what is written and how far the text is copied. -/
def markToken (targets : List (String × Bool)) (st : List Char × ℕ) (t : Token) :
    Result (List Char × ℕ) :=
  if tokenMatches targets t then do
    let between ← sliceText text.toList st.2 t.byte_start
    let word ← sliceText text.toList t.byte_start t.byte_end
    .ok (st.1 ++ between ++ open_.toList ++ word ++ close.toList, t.byte_end)
  else .ok st

def highlight : Result String := do
  let targets ← highlightTargets U tk q
  let toks ← tk.tokenize U text
  let st ← toks.foldlM (markToken text open_ close targets) ([], 0)
  let rest ← sliceText text.toList st.2 (charsLen text.toList)
  .ok (String.ofList (st.1 ++ rest))

def tokenAt (toks : List Token) (i : ℕ) : Result Token :=
  match toks[i]? with
  | some t => .ok t
  | none => .error (.panic "index out of bounds")

def sliceTokens (toks : List Token) (start stop : ℕ) : Result (List Token) := do
  require (start ≤ stop ∧ stop ≤ toks.length) (.panic "range out of range for slice")
  .ok ((toks.take stop).drop start)

def snippet (ellipsis : String) (max_tokens : ℕ) : Result String := do
  let targets ← highlightTargets U tk q
  let toks ← tk.tokenize U text
  if toks = [] ∨ max_tokens = 0 then .ok ""
  else
    let center := (toks.findIdx? (tokenMatches targets)).getD 0
    let start := center - max_tokens / 2
    require (start + max_tokens < 2 ^ 64) (.panic "attempt to add with overflow")
    let stop := min (start + max_tokens) toks.length
    let start := stop - max_tokens
    let last ← tokenAt toks (stop - 1)
    let first ← tokenAt toks start
    let window ← sliceTokens toks start stop
    let st ← window.foldlM (markToken text open_ close targets)
      (if 0 < start then ellipsis.toList else [], first.byte_start)
    let rest ← sliceText text.toList st.2 last.byte_end
    .ok (String.ofList (st.1 ++ rest ++ if stop < toks.length then ellipsis.toList else []))

end Excerpt

/-! ### What is asked for -/

/-- The words a query asks for: what stands behind a `NOT` is none of them. -/
inductive Query.Positive : Query → String → Bool → Prop
  | term (text : String) (pre : Bool) : Positive (.term text pre) text pre
  | phrase {words : List String} {w : String} (h : w ∈ words) : Positive (.phrase words) w false
  | near {terms : List String} {d : ℕ} {t : String} (h : t ∈ terms) : Positive (.near terms d) t false
  | column {c raw : String} {query : Query} {pre : Bool} (h : Positive query raw pre) :
    Positive (.column c query) raw pre
  | and_left {a b : Query} {raw : String} {pre : Bool} (h : Positive a raw pre) :
    Positive (.and a b) raw pre
  | and_right {a b : Query} {raw : String} {pre : Bool} (h : Positive b raw pre) :
    Positive (.and a b) raw pre
  | or_left {a b : Query} {raw : String} {pre : Bool} (h : Positive a raw pre) :
    Positive (.or a b) raw pre
  | or_right {a b : Query} {raw : String} {pre : Bool} (h : Positive b raw pre) :
    Positive (.or a b) raw pre
  | not {a b : Query} {raw : String} {pre : Bool} (h : Positive a raw pre) :
    Positive (.not a b) raw pre

/-- The token is one of a word, or begins with the one token of a word with a star. -/
def Asked (raw : List Token) (pre : Bool) (t : Token) : Prop :=
  (∃ r, raw = [r] ∧ pre = true ∧ r.text.toList <+: t.text.toList)
    ∨ ((pre = false ∨ raw.length ≠ 1) ∧ ∃ r ∈ raw, t.text = r.text)

/-- The token matches a positive word of the query. -/
def Wanted (U : Unicode) (tk : Tokenizer) (q : Query) (t : Token) : Prop :=
  ∃ raw pre toks, q.Positive raw pre ∧ tk.tokenize U raw = .ok toks ∧ Asked toks pre t

section Wanted
variable {U : Unicode} {tk : Tokenizer} {q : Query} {raw : String} {pre : Bool} {t : Token}
  {toks : List Token}

lemma mem_positiveTerms : (raw, pre) ∈ positiveTerms q ↔ q.Positive raw pre := by
  induction q with
  | term text p =>
    constructor
    · intro h
      cases List.mem_singleton.1 h
      exact .term _ _
    · intro h
      cases h
      exact List.mem_singleton.2 rfl
  | phrase words =>
    constructor
    · intro h
      obtain ⟨w, hw, heq⟩ := List.mem_map.1 h
      cases heq
      exact .phrase hw
    · intro h
      cases h with
      | phrase hw => exact List.mem_map.2 ⟨raw, hw, rfl⟩
  | near terms d =>
    constructor
    · intro h
      obtain ⟨w, hw, heq⟩ := List.mem_map.1 h
      cases heq
      exact .near hw
    · intro h
      cases h with
      | near hw => exact List.mem_map.2 ⟨raw, hw, rfl⟩
  | column c query ih =>
    rw [positiveTerms, ih]
    constructor
    · exact .column
    · intro h
      cases h with
      | column h => exact h
  | and a b iha ihb =>
    rw [positiveTerms, List.mem_append, iha, ihb]
    constructor
    · rintro (h | h)
      · exact .and_left h
      · exact .and_right h
    · intro h
      cases h with
      | and_left h => exact Or.inl h
      | and_right h => exact Or.inr h
  | or a b iha ihb =>
    rw [positiveTerms, List.mem_append, iha, ihb]
    constructor
    · rintro (h | h)
      · exact .or_left h
      · exact .or_right h
    · intro h
      cases h with
      | or_left h => exact Or.inl h
      | or_right h => exact Or.inr h
  | not a b iha _ =>
    rw [positiveTerms, iha]
    constructor
    · exact .not
    · intro h
      cases h with
      | not h => exact h

lemma tokenMatches_append (xs ys : List (String × Bool)) :
    tokenMatches (xs ++ ys) t = (tokenMatches xs t || tokenMatches ys t) := List.any_append

lemma targetsOf_matches : tokenMatches (targetsOf pre toks) t = true ↔ Asked toks pre t := by
  have hmany : tokenMatches (toks.map fun t => (t.text, false)) t = true
      ↔ ∃ r ∈ toks, t.text = r.text := by
    rw [tokenMatches, List.any_map, List.any_eq_true]
    simp
  rcases toks with _ | ⟨r, _ | ⟨r', toks⟩⟩
  · simp [targetsOf, Asked, tokenMatches]
  · cases pre with
    | false => simpa [targetsOf, Asked] using hmany
    | true => simp [targetsOf, Asked, tokenMatches]
  · refine hmany.trans ⟨fun h => Or.inr ⟨Or.inr (by simp), h⟩, ?_⟩
    rintro (⟨r, hr, -⟩ | ⟨-, h⟩)
    · cases hr
    · exact h

lemma addTargets_run (U : Unicode) (tk : Tokenizer) (raws out : List (String × Bool)) :
    ∃ targets, raws.foldlM (addTargets U tk) out = .ok targets
      ∧ ∀ t, tokenMatches targets t = true ↔ tokenMatches out t = true
        ∨ ∃ raw ∈ raws, ∃ toks, tk.tokenize U raw.1 = .ok toks ∧ Asked toks raw.2 t := by
  induction raws generalizing out with
  | nil => exact ⟨out, rfl, fun t => by simp⟩
  | cons raw raws ih =>
    obtain ⟨toks, -, -, htoks, -⟩ := tokenize_cuts U tk raw.1
    obtain ⟨targets, hrun, hmatch⟩ := ih (out ++ targetsOf raw.2 toks)
    refine ⟨targets, ?_, fun t => ?_⟩
    · rw [List.foldlM_cons, addTargets, htoks, ok_bind, ok_bind]
      exact hrun
    · rw [hmatch, tokenMatches_append, Bool.or_eq_true, targetsOf_matches, or_assoc,
        List.exists_mem_cons_iff]
      simp only [htoks, Except.ok.injEq, exists_eq_left']

/-- The targets match the tokens that are wanted. -/
lemma highlightTargets_spec (U : Unicode) (tk : Tokenizer) (q : Query) :
    ∃ targets, highlightTargets U tk q = .ok targets
      ∧ ∀ t, tokenMatches targets t = true ↔ Wanted U tk q t := by
  obtain ⟨targets, hrun, hmatch⟩ := addTargets_run U tk (positiveTerms q) []
  refine ⟨targets, hrun, fun t => ?_⟩
  rw [hmatch]
  constructor
  · rintro (h | ⟨⟨raw, pre⟩, hraw, toks, htoks, hasked⟩)
    · exact absurd h Bool.false_ne_true
    · exact ⟨raw, pre, toks, mem_positiveTerms.1 hraw, htoks, hasked⟩
  · rintro ⟨raw, pre, toks, hraw, htoks, hasked⟩
    exact Or.inr ⟨(raw, pre), mem_positiveTerms.2 hraw, toks, htoks, hasked⟩

end Wanted

/-! ### What is written -/

/-- A part of an excerpt: a stretch of the text, or a marker that is put in. -/
structure Part where
  inserted : Bool
  chars : List Char

def written (parts : List Part) : List Char := parts.flatMap Part.chars

/-- What is left when the markers are taken out. -/
def kept (parts : List Part) : List Char := written (parts.filter fun p => !p.inserted)

section Parts
variable (open_ close : String) (wanted : Token → Bool)

def Piece.parts (p : Piece) : List Part :=
  if wanted p.token then
    [⟨false, p.gap⟩, ⟨true, open_.toList⟩, ⟨false, p.word⟩, ⟨true, close.toList⟩]
  else [⟨false, p.gap⟩, ⟨false, p.word⟩]

def marked (ps : List Piece) : List Part := ps.flatMap (Piece.parts open_ close wanted)

end Parts

section Marked
variable {open_ close : String} {wanted : Token → Bool} {p : Piece} {ps qs : List Piece}
  {xs ys : List Part}

@[simp] lemma written_append : written (xs ++ ys) = written xs ++ written ys := List.flatMap_append

@[simp] lemma kept_append : kept (xs ++ ys) = kept xs ++ kept ys := by
  unfold kept
  rw [List.filter_append, written_append]

lemma marked_cons : marked open_ close wanted (p :: ps)
    = p.parts open_ close wanted ++ marked open_ close wanted ps := rfl

lemma kept_parts : kept (p.parts open_ close wanted) = p.gap ++ p.word := by
  unfold Piece.parts
  split_ifs <;> simp [kept, written]

/-- Without its markers the marked text is the text. -/
lemma kept_marked : kept (marked open_ close wanted ps) = flat ps := by
  induction ps with
  | nil => rfl
  | cons p ps ih => rw [marked_cons, kept_append, kept_parts, ih, flat_cons, List.append_assoc]

lemma written_parts_of_wanted (h : wanted p.token = true) :
    written (p.parts open_ close wanted)
      = p.gap ++ open_.toList ++ p.word ++ close.toList := by
  rw [Piece.parts, if_pos h]
  simp [written]

lemma written_parts_of_not (h : ¬ wanted p.token = true) :
    written (p.parts open_ close wanted) = p.gap ++ p.word := by
  rw [Piece.parts, if_neg h]
  simp [written]

end Marked

/-! ### The loop -/

section Loop
variable {text : String} {copied pending after : List Char} {ps : List Piece}

/-- Over the tokens of some pieces the loop writes them marked, up to what is still pending. -/
lemma markToken_run (open_ close : String) (targets : List (String × Bool)) (out : List Char)
    (htext : text.toList = copied ++ (pending ++ (flat ps ++ after)))
    (hlaid : LaidFrom (charsLen (copied ++ pending)) ps) :
    ∃ out' copied' pending', (ps.map Piece.token).foldlM (markToken text open_ close targets)
        (out, charsLen copied) = .ok (out', charsLen copied')
      ∧ copied' ++ pending' = copied ++ (pending ++ flat ps)
      ∧ out' ++ pending' = out ++ (pending ++ written (marked open_ close (tokenMatches targets) ps)) := by
  induction ps generalizing out copied pending with
  | nil => exact ⟨out, copied, pending, rfl, by rw [flat_nil, List.append_nil],
      by rw [marked, List.flatMap_nil, written, List.flatMap_nil, List.append_nil]⟩
  | cons p ps ih =>
    obtain ⟨hp, hlaid⟩ := hlaid
    have hstart := hp.starts
    have hend := hp.ends
    simp only [charsLen_append, charsLen_chars] at hstart hlaid
    rw [flat_cons] at htext
    rw [List.map_cons, List.foldlM_cons, marked_cons, written_append, markToken]
    by_cases hm : tokenMatches targets p.token = true
    · have hbetween : sliceText text.toList (charsLen copied) p.token.byte_start
          = .ok (pending ++ p.gap) := by
        have hsplit : text.toList = copied ++ ((pending ++ p.gap) ++ (p.word ++ (flat ps ++ after))) := by
          rw [htext]
          simp only [List.append_assoc]
        rw [sliceText, hsplit, charSlice?_append rfl (by simp only [charsLen_append]; omega)]
      have hword : sliceText text.toList p.token.byte_start p.token.byte_end = .ok p.word := by
        have hsplit : text.toList = (copied ++ (pending ++ p.gap)) ++ (p.word ++ (flat ps ++ after)) := by
          rw [htext]
          simp only [List.append_assoc]
        rw [sliceText, hsplit, charSlice?_append (by simp only [charsLen_append]; omega) hend]
      have hcopied : p.token.byte_end = charsLen (copied ++ (pending ++ (p.gap ++ p.word))) := by
        simp only [charsLen_append]
        omega
      have htext' : text.toList = (copied ++ (pending ++ (p.gap ++ p.word)))
          ++ ([] ++ (flat ps ++ after)) := by
        rw [htext]
        simp only [List.append_assoc, List.nil_append]
      have hlaid' : LaidFrom (charsLen (copied ++ (pending ++ (p.gap ++ p.word)) ++ [])) ps := by
        simp only [charsLen_append, List.append_nil, ← Nat.add_assoc] at hlaid ⊢
        exact hlaid
      rw [if_pos hm, hbetween, ok_bind, hword, ok_bind, ok_bind, hcopied]
      obtain ⟨out', copied', pending', hrun, hcop, hout⟩ := ih
        (out ++ (pending ++ p.gap) ++ open_.toList ++ p.word ++ close.toList) htext' hlaid'
      refine ⟨out', copied', pending', hrun, ?_, ?_⟩
      · rw [hcop, flat_cons]
        simp only [List.append_assoc, List.nil_append]
      · rw [hout, written_parts_of_wanted hm]
        simp only [List.append_assoc, List.nil_append]
    · have htext' : text.toList = copied ++ ((pending ++ (p.gap ++ p.word)) ++ (flat ps ++ after)) := by
        rw [htext]
        simp only [List.append_assoc]
      have hlaid' : LaidFrom (charsLen (copied ++ (pending ++ (p.gap ++ p.word)))) ps := by
        simp only [charsLen_append, ← Nat.add_assoc] at hlaid ⊢
        exact hlaid
      rw [if_neg hm, ok_bind]
      obtain ⟨out', copied', pending', hrun, hcop, hout⟩ := ih out htext' hlaid'
      refine ⟨out', copied', pending', hrun, ?_, ?_⟩
      · rw [hcop, flat_cons]
        simp only [List.append_assoc]
      · rw [hout, written_parts_of_not hm]
        simp only [List.append_assoc]

end Loop

/-! ### The window -/

/-- `k` tokens, or all of them, with the first one that is wanted, or the first one of all. -/
structure Window (wanted : Token → Bool) (toks : List Token) (k start stop first : ℕ) : Prop where
  size : stop = start + min k toks.length
  stop_le : stop ≤ toks.length
  start_le : start ≤ first
  first_lt : first < stop
  first_wanted : (∃ t, toks[first]? = some t ∧ wanted t = true
      ∧ ∀ i < first, ∀ t, toks[i]? = some t → wanted t = false)
    ∨ (first = 0 ∧ ∀ t ∈ toks, wanted t = false)

/-- The parts of a window: the text before its first word is none of them. -/
def windowParts (open_ close : String) (wanted : Token → Bool) : List Piece → List Part
  | [] => []
  | p :: ps => marked open_ close wanted ({ p with gap := [] } :: ps)

section Window
variable {wanted : Token → Bool} {toks : List Token} {k off first n : ℕ} {ps : List Piece}
  {text : List Char} {rest : List Char}

lemma first_spec (wanted : Token → Bool) (htoks : toks ≠ []) :
    ∃ first, (toks.findIdx? wanted).getD 0 = first ∧ first < toks.length
      ∧ ((∃ t, toks[first]? = some t ∧ wanted t = true
          ∧ ∀ i < first, ∀ t, toks[i]? = some t → wanted t = false)
        ∨ (first = 0 ∧ ∀ t ∈ toks, wanted t = false)) := by
  cases hfind : toks.findIdx? wanted with
  | none =>
    exact ⟨0, rfl, List.length_pos_iff.2 htoks, Or.inr ⟨rfl, List.findIdx?_eq_none_iff.1 hfind⟩⟩
  | some first =>
    obtain ⟨hlt, hw, hbefore⟩ := List.findIdx?_eq_some_iff_getElem.1 hfind
    refine ⟨first, rfl, hlt, Or.inl ⟨toks[first], List.getElem?_eq_getElem hlt, hw, fun i hi t ht => ?_⟩⟩
    obtain ⟨hi', rfl⟩ := List.getElem?_eq_some_iff.1 ht
    exact Bool.eq_false_iff.2 (hbefore i hi)

/-- The window is moved back from the end, and has `k` tokens wherever there are as many. -/
lemma window_place (hk : 0 < k) (hfirst : first < n) :
    min (first - k / 2 + k) n = min (first - k / 2 + k) n - k + min k n
      ∧ min (first - k / 2 + k) n ≤ n ∧ min (first - k / 2 + k) n - k ≤ first
      ∧ first < min (first - k / 2 + k) n := by
  omega

lemma LaidFrom.length_le (h : LaidFrom off ps) : ps.length ≤ charsLen (flat ps) := by
  induction ps generalizing off with
  | nil => exact Nat.zero_le _
  | cons p ps ih =>
    have hword := (List.length_pos_iff.2 h.1.word_ne).trans_le (length_le_charsLen p.word)
    have hrest := ih h.2
    rw [flat_cons, List.length_cons]
    simp only [charsLen_append]
    omega

lemma Cuts.length_le (h : Cuts text toks ps rest) : toks.length ≤ charsLen text := by
  have hps := h.laid.length_le
  rw [h.text_eq, h.toks_eq, charsLen_append, List.length_map]
  omega

/-- The last token ends where the pieces do. -/
lemma LaidFrom.last_end {init : List Piece} {l : Piece} (h : LaidFrom off (init ++ [l])) :
    l.token.byte_end = off + charsLen (flat (init ++ [l])) := by
  obtain ⟨-, hl, -⟩ := laidFrom_append.1 h
  rw [hl.ends, hl.starts, flat_append, flat_cons, flat_nil, List.append_nil]
  simp only [charsLen_append]
  omega

/-- The pieces of a window and those around it. -/
lemma window_split {start stop : ℕ} (hlt : start < stop) (hstop : stop ≤ ps.length) :
    ∃ before p mid after, ps = before ++ (p :: mid ++ after) ∧ before.length = start
      ∧ before.length + (p :: mid).length = stop ∧ (ps.take stop).drop start = p :: mid := by
  have hlen : ((ps.take stop).drop start).length = stop - start := by
    rw [List.length_drop, List.length_take, min_eq_left hstop]
  obtain ⟨p, mid, hwin⟩ : ∃ p mid, (ps.take stop).drop start = p :: mid := by
    cases hwin : (ps.take stop).drop start with
    | nil =>
      rw [hwin, List.length_nil] at hlen
      omega
    | cons p mid => exact ⟨p, mid, rfl⟩
  have hbefore : ((ps.take stop).take start).length = start := by
    rw [List.length_take, List.length_take]
    omega
  refine ⟨(ps.take stop).take start, p, mid, ps.drop stop, ?_, hbefore, ?_, hwin⟩
  · rw [← hwin, ← List.append_assoc, List.take_append_drop, List.take_append_drop]
  · rw [hbefore, ← hwin, hlen]
    omega

end Window

/-! ### The excerpts of a text -/

/-- The tokens lie between characters, and none reaches into the next. -/
structure Apart (text : List Char) (toks : List Token) : Prop where
  between : ∀ t ∈ toks, ∃ before word after, text = before ++ (word ++ after) ∧ word ≠ []
    ∧ t.byte_start = charsLen before ∧ t.byte_end = charsLen (before ++ word)
  apart : toks.Pairwise fun a b => a.byte_end ≤ b.byte_start

section Excerpts
variable {U : Unicode} {tk : Tokenizer} {q : Query} {text open_ close ellipsis : String}
  {targets : List (String × Bool)} {toks : List Token} {ps : List Piece} {rest before : List Char}
  {off k : ℕ}

lemma LaidFrom.starts_le (h : LaidFrom off ps) : ∀ t ∈ ps.map Piece.token, off ≤ t.byte_start := by
  induction ps generalizing off with
  | nil => intro t ht; cases ht
  | cons p ps ih =>
    intro t ht
    rcases List.mem_cons.1 ht with rfl | ht
    · rw [h.1.starts]
      exact Nat.le_add_right _ _
    · exact (Nat.le_add_right _ _).trans (ih h.2 t ht)

lemma LaidFrom.apart (h : LaidFrom off ps) :
    (ps.map Piece.token).Pairwise fun a b => a.byte_end ≤ b.byte_start := by
  induction ps generalizing off with
  | nil => exact List.Pairwise.nil
  | cons p ps ih =>
    have hend : p.token.byte_end = off + charsLen p.chars := by
      rw [h.1.ends, h.1.starts, charsLen_chars, Nat.add_assoc]
    refine List.Pairwise.cons (fun t ht => ?_) (ih h.2)
    rw [hend]
    exact h.2.starts_le t ht

lemma LaidFrom.between (h : LaidFrom (charsLen before) ps) (rest : List Char) :
    ∀ t ∈ ps.map Piece.token, ∃ a word b, before ++ (flat ps ++ rest) = a ++ (word ++ b)
      ∧ word ≠ [] ∧ t.byte_start = charsLen a ∧ t.byte_end = charsLen (a ++ word) := by
  induction ps generalizing before with
  | nil => intro t ht; cases ht
  | cons p ps ih =>
    obtain ⟨hp, hlaid⟩ := h
    intro t ht
    rw [flat_cons]
    rcases List.mem_cons.1 ht with rfl | ht
    · refine ⟨before ++ p.gap, p.word, flat ps ++ rest, ?_, hp.word_ne, ?_, ?_⟩
      · simp only [List.append_assoc]
      · rw [hp.starts, charsLen_append]
      · rw [hp.ends, hp.starts]
        simp only [charsLen_append]
    · have hlaid' : LaidFrom (charsLen (before ++ (p.gap ++ p.word))) ps := by
        simp only [charsLen_append, charsLen_chars] at hlaid ⊢
        exact hlaid
      obtain ⟨a, word, b, heq, hrest⟩ := ih hlaid' t ht
      refine ⟨a, word, b, ?_, hrest⟩
      rw [← heq]
      simp only [List.append_assoc]

lemma Cuts.apart {text : List Char} (h : Cuts text toks ps rest) : Apart text toks := by
  constructor
  · rw [h.text_eq, h.toks_eq]
    have hlaid : LaidFrom (charsLen []) ps := h.laid
    exact hlaid.between rest
  · rw [h.toks_eq]
    exact h.laid.apart

/-- The whole text, marked. -/
lemma highlight_eq (htargets : highlightTargets U tk q = .ok targets)
    (htoks : tk.tokenize U text = .ok toks) (h : Cuts text.toList toks ps rest) :
    highlight U text q tk open_ close = .ok (String.ofList
      (written (marked open_ close (tokenMatches targets) ps ++ [⟨false, rest⟩]))) := by
  have htext : text.toList = [] ++ ([] ++ (flat ps ++ rest)) := h.text_eq
  obtain ⟨out, copied, pending, hrun, hcopied, hout⟩ := markToken_run open_ close targets []
    htext h.laid
  rw [List.nil_append, List.nil_append] at hcopied hout
  have hslice : sliceText text.toList (charsLen copied) (charsLen text.toList)
      = .ok (pending ++ rest) := by
    have hsplit : text.toList = copied ++ ((pending ++ rest) ++ []) := by
      rw [h.text_eq, ← hcopied]
      simp only [List.append_assoc, List.append_nil]
    have hlen : charsLen text.toList = charsLen copied + charsLen (pending ++ rest) := by
      rw [h.text_eq, ← hcopied]
      simp only [charsLen_append, Nat.add_assoc]
    rw [hlen, sliceText, hsplit, charSlice?_append rfl rfl]
  rw [charsLen_nil, ← h.toks_eq] at hrun
  rw [highlight, htargets, ok_bind, htoks, ok_bind, hrun, ok_bind, hslice, ok_bind,
    ← List.append_assoc, hout, written_append]
  simp [written]

/-- A window of the text, marked. -/
lemma snippet_eq (htargets : highlightTargets U tk q = .ok targets)
    (htoks : tk.tokenize U text = .ok toks) (h : Cuts text.toList toks ps rest)
    (hlen : charsLen text.toList < 2 ^ 63) (hmax : k < 2 ^ 64) (hk : 0 < k) (hne : toks ≠ []) :
    ∃ start stop first body before after, Window (tokenMatches targets) toks k start stop first
      ∧ body = windowParts open_ close (tokenMatches targets) ((ps.take stop).drop start)
      ∧ text.toList = before ++ (kept body ++ after)
      ∧ (∃ t, toks[start]? = some t ∧ t.byte_start = charsLen before)
      ∧ (∃ t, toks[stop - 1]? = some t ∧ t.byte_end = charsLen (before ++ kept body))
      ∧ snippet U text q tk open_ close ellipsis k = .ok (String.ofList
        ((if 0 < start then ellipsis.toList else []) ++ written body
          ++ if stop < toks.length then ellipsis.toList else [])) := by
  obtain ⟨first, hfirst, hlt, hwanted⟩ := first_spec (tokenMatches targets) hne
  obtain ⟨hsize, hstop, hle, hin⟩ := window_place hk hlt
  have hfit : first - k / 2 + k < 2 ^ 64 := by
    have := h.length_le
    omega
  generalize hstop_eq : min (first - k / 2 + k) toks.length = stop at *
  generalize hstart_eq : stop - k = start at *
  have hps : toks.length = ps.length := by rw [h.toks_eq, List.length_map]
  obtain ⟨pre, p, mid, post, hsplit, hpre, hpmid, hwin⟩ :=
    window_split (hle.trans_lt hin) (hps ▸ hstop)
  obtain ⟨init, l, hinit⟩ : ∃ init l, p :: mid = init ++ [l] :=
    ⟨_, _, (List.dropLast_append_getLast (List.cons_ne_nil p mid)).symm⟩
  have hlaid : LaidFrom 0 (pre ++ (p :: mid ++ post)) := hsplit ▸ h.laid
  obtain ⟨-, hlaid⟩ := laidFrom_append.1 hlaid
  obtain ⟨hlaid, -⟩ := laidFrom_append.1 hlaid
  rw [Nat.zero_add] at hlaid
  have hlast := (hinit ▸ hlaid).last_end
  rw [← hinit] at hlast
  have hbare : LaidFrom (charsLen ((flat pre ++ p.gap) ++ [])) ({ p with gap := [] } :: mid) := by
    refine ⟨⟨hlaid.1.word_ne, ?_, hlaid.1.ends⟩, ?_⟩
    · rw [hlaid.1.starts, List.append_nil, charsLen_append]
      rfl
    · have hrest := hlaid.2
      simp only [charsLen_append, charsLen_chars, charsLen_nil, Nat.add_zero, Nat.zero_add,
        ← Nat.add_assoc] at hrest ⊢
      exact hrest
  have htext : text.toList = (flat pre ++ p.gap)
      ++ ([] ++ (flat ({ p with gap := [] } :: mid) ++ (flat post ++ rest))) := by
    rw [h.text_eq, hsplit]
    simp only [flat_append, flat_cons, List.append_assoc, List.nil_append]
  obtain ⟨out, copied, pending, hrun, hcopied, hout⟩ := markToken_run open_ close targets
    (if 0 < start then ellipsis.toList else []) htext hbare
  have hsame : flat (p :: mid) = p.gap ++ flat ({ p with gap := [] } :: mid) := by
    rw [flat_cons, flat_cons, List.nil_append]
  have hkept : kept (windowParts open_ close (tokenMatches targets) (p :: mid))
      = flat ({ p with gap := [] } :: mid) := kept_marked
  have hslice : sliceText text.toList (charsLen copied) l.token.byte_end = .ok pending := by
    have hsplit : text.toList = copied ++ (pending ++ (flat post ++ rest)) := by
      rw [htext, ← List.append_assoc copied, hcopied]
      simp only [List.append_assoc]
    have hend : l.token.byte_end = charsLen copied + charsLen pending := by
      rw [hlast, ← charsLen_append, ← charsLen_append, hcopied, hsame]
      simp only [List.append_assoc, List.nil_append]
    rw [hend, sliceText, hsplit, charSlice?_append rfl rfl]
  have hwindow : (toks.take stop).drop start = (p :: mid).map Piece.token := by
    rw [h.toks_eq, ← List.map_take, ← List.map_drop, hwin]
  have hfirst_at : toks[start]? = some p.token := by
    rw [h.toks_eq, hsplit, List.map_append, List.getElem?_append_right (by simp [hpre])]
    simp [hpre]
  have hlast_at : toks[stop - 1]? = some l.token := by
    have hindex : stop - 1 = (pre ++ init).length := by
      rw [← hpmid, hinit, List.length_append, List.length_append, List.length_singleton]
      omega
    have hps' : ps = (pre ++ init) ++ (l :: post) := by
      rw [hsplit, hinit]
      simp only [List.append_assoc, List.singleton_append]
    rw [h.toks_eq, hps', List.map_append, hindex, List.getElem?_append_right (by simp)]
    simp
  have hstart_text : p.token.byte_start = charsLen (flat pre ++ p.gap) := by
    rw [hlaid.1.starts, charsLen_append]
  refine ⟨start, stop, first, _, flat pre ++ p.gap, flat post ++ rest,
    ⟨hsize, hstop, hle, hin, hwanted⟩, rfl, ?_, ⟨_, hfirst_at, ?_⟩, ⟨_, hlast_at, ?_⟩, ?_⟩
  · rw [hwin, hkept, htext, List.nil_append]
  · exact hstart_text
  · rw [hwin, hkept, hlast, hsame]
    simp only [charsLen_append, Nat.add_assoc]
  · rw [snippet, htargets, ok_bind, htoks, ok_bind, if_neg (by
      rintro (h | h)
      · exact hne h
      · exact hk.ne' h)]
    dsimp only
    rw [hfirst, hstop_eq, hstart_eq, require_pos hfit, ok_bind, tokenAt, hlast_at, ok_bind, tokenAt,
      hfirst_at, ok_bind, sliceTokens, require_pos ⟨hle.trans hin.le, hstop⟩, ok_bind, ok_bind, hwindow,
      hstart_text]
    have hrun' : ((p :: mid).map Piece.token).foldlM (markToken text open_ close targets)
        (if 0 < start then ellipsis.toList else [], charsLen (flat pre ++ p.gap))
          = .ok (out, charsLen copied) := hrun
    rw [hrun', ok_bind, hslice, ok_bind, hout, hwin, List.nil_append]
    rfl

end Excerpts

/-- Each text is cut into tokens that lie apart between its characters. `highlight` writes the text
with markers around the tokens that are wanted and no others; `snippet` writes a window of it with
the first of them, marked the same, and an ellipsis where tokens are left out. -/
theorem excerpts_preserve_text (U : Unicode) (tk : Tokenizer) (q : Query)
    (text open_ close ellipsis : String) (k : ℕ) (hlen : charsLen text.toList < 2 ^ 63)
    (hmax : k < 2 ^ 64) :
    ∃ wanted toks ps rest, (∀ t, wanted t = true ↔ Wanted U tk q t)
      ∧ tk.tokenize U text = .ok toks ∧ Cuts text.toList toks ps rest ∧ Apart text.toList toks
      ∧ highlight U text q tk open_ close
        = .ok (String.ofList (written (marked open_ close wanted ps ++ [⟨false, rest⟩])))
      ∧ kept (marked open_ close wanted ps ++ [⟨false, rest⟩]) = text.toList
      ∧ (0 < k → toks ≠ [] → ∃ start stop first body before after,
        Window wanted toks k start stop first
        ∧ body = windowParts open_ close wanted ((ps.take stop).drop start)
        ∧ text.toList = before ++ (kept body ++ after)
        ∧ (∃ t, toks[start]? = some t ∧ t.byte_start = charsLen before)
        ∧ (∃ t, toks[stop - 1]? = some t ∧ t.byte_end = charsLen (before ++ kept body))
        ∧ snippet U text q tk open_ close ellipsis k = .ok (String.ofList
          ((if 0 < start then ellipsis.toList else []) ++ written body
            ++ if stop < toks.length then ellipsis.toList else []))) := by
  obtain ⟨targets, htargets, hwanted⟩ := highlightTargets_spec U tk q
  obtain ⟨toks, ps, rest, htoks, hcuts⟩ := tokenize_cuts U tk text
  refine ⟨tokenMatches targets, toks, ps, rest, hwanted, htoks, hcuts, hcuts.apart,
    highlight_eq htargets htoks hcuts, ?_, fun hk hne => ?_⟩
  · rw [kept_append, kept_marked, hcuts.text_eq]
    simp [kept, written]
  · exact snippet_eq htargets htoks hcuts hlen hmax hk hne

/-- Two of three words, the last of which is asked for. -/
theorem excerpts_preserve_text_two : ∃ wanted toks ps rest,
    Tokenizer.ascii.tokenize ⟨Char.isAlphanum, fun c => [c.toLower]⟩ "one, two; three" = .ok toks
      ∧ Cuts "one, two; three".toList toks ps rest
      ∧ ∃ start stop first, Window wanted toks 2 start stop first := by
  have hlen : charsLen "one, two; three".toList < 2 ^ 63 := by decide
  obtain ⟨wanted, toks, ps, rest, -, htoks, hcuts, -, -, -, hsnippet⟩ :=
    excerpts_preserve_text ⟨Char.isAlphanum, fun c => [c.toLower]⟩ .ascii (.term "three" false)
      "one, two; three" "[" "]" "…" 2 hlen (by decide)
  have hne : toks ≠ [] := by
    rintro rfl
    exact absurd htoks (by decide)
  obtain ⟨start, stop, first, -, -, -, hwindow, -⟩ := hsnippet (by decide) hne
  exact ⟨wanted, toks, ps, rest, htoks, hcuts, start, stop, first, hwindow⟩

example : snippet ⟨Char.isAlphanum, fun c => [c.toLower]⟩ "uno dos tres cuatro objetivo seis siete"
    (.term "objetivo" false) .ascii "[" "]" "…" 4 = .ok "…tres cuatro [objetivo] seis…" := by
  decide +kernel

end Arkeion.Fts
