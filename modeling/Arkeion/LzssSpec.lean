import Arkeion.Lzss
import Mathlib.Data.List.Forall2
import Mathlib.Data.List.GetD

/-!
What `Lz` packs it unpacks, and every match it writes fits the code of a match.
-/

namespace Arkeion.Lzss

open Arkeion.Lib Lz77

/-! ### Tokens and groups -/

/-- The bytes of a token. -/
def tokenCode : Token UInt8 → Bytes
  | .lit b => [b]
  | .copy off len => matchCode len off

def isLit : Token UInt8 → Bool
  | .lit _ => true
  | .copy _ _ => false

/-- What the code of a match has room for. -/
def FitsCode : Token UInt8 → Prop
  | .lit _ => True
  | .copy off len => (1 ≤ off ∧ off ≤ WINDOW) ∧ MIN_MATCH ≤ len ∧ len ≤ MAX_MATCH

def tokensCode (ts : List (Token UInt8)) : Bytes := ts.flatMap tokenCode

/-- The byte of flags says which tokens are literals. -/
def FlagsOf (flags : ℕ) (ts : List (Token UInt8)) : Prop :=
  flags < 2 ^ ts.length ∧ ∀ i t, ts[i]? = some t → flags.testBit i = isLit t

/-- A group: the byte of flags, then the tokens. -/
def IsGroup (b : Bytes) (ts : List (Token UInt8)) : Prop :=
  ∃ flags, FlagsOf flags ts ∧ b = UInt8.ofNat flags :: tokensCode ts

/-- Groups of eight tokens, the last one perhaps of fewer. -/
structure IsPacked (b : Bytes) (groups : List (List (Token UInt8))) : Prop where
  bytes : ∃ bs, List.Forall₂ IsGroup bs groups ∧ b = bs.flatten
  full : ∀ ts ∈ groups.dropLast, ts.length = 8
  size : ∀ ts ∈ groups, 0 < ts.length ∧ ts.length ≤ 8

lemma tokensCode_append (ts us : List (Token UInt8)) :
    tokensCode (ts ++ us) = tokensCode ts ++ tokensCode us := List.flatMap_append

lemma tokensCode_cons (t : Token UInt8) (ts : List (Token UInt8)) :
    tokensCode (t :: ts) = tokenCode t ++ tokensCode ts := List.flatMap_cons

lemma or_shiftLeft_12 {a c : ℕ} (ha : a < 4096) : a ||| c <<< 12 = a + 4096 * c := by
  rw [Nat.or_comm, ← Nat.shiftLeft_add_eq_or_of_lt ha, Nat.shiftLeft_eq]
  omega

/-- A token of a stream is read as it was written. -/
lemma readToken_code (x z : Bytes) {t : Token UInt8} (ht : FitsCode t) :
    readToken (x ++ tokenCode t ++ z) (isLit t) x.length
      = some (t, x.length + (tokenCode t).length) := by
  cases t with
  | lit b => simp [readToken, isLit, tokenCode]
  | copy off len =>
    obtain ⟨⟨hlo, hhi⟩, hmin, hmax⟩ := ht
    simp only [WINDOW, MIN_MATCH, MAX_MATCH] at hhi hmin hmax
    set lc := if len ≤ 17 then len - MIN_MATCH else 15 with hlc
    have hlc15 : lc ≤ 15 := by
      rw [hlc, MIN_MATCH]
      split_ifs <;> omega
    set code := (off - 1) ||| lc <<< 12 with hcode
    have hsum : code = (off - 1) + 4096 * lc := or_shiftLeft_12 (by omega)
    have hback : leNat (leBytes 2 code) = code := leNat_leBytes 2 (by omega)
    have hoff : (code &&& 0x0FFF) + 1 = off := by
      rw [show 0x0FFF = 2 ^ 12 - 1 by rfl, Nat.and_two_pow_sub_one_eq_mod]
      omega
    have hshift : code >>> 12 = lc := by
      rw [Nat.shiftRight_eq_div_pow]
      omega
    obtain ⟨b₀, b₁, hb⟩ : ∃ b₀ b₁, leBytes 2 code = [b₀, b₁] := ⟨_, _, rfl⟩
    rw [hb] at hback
    have hbytes : tokenCode (.copy off len)
        = [b₀, b₁] ++ if 17 < len then [UInt8.ofNat (len - 18)] else [] := by
      rw [tokenCode, matchCode]
      simp only [← hlc, ← hcode, hb]
    have h₀ (w : Bytes) : (x ++ ([b₀, b₁] ++ w) ++ z)[x.length]? = some b₀ := by simp
    have h₁ (w : Bytes) : (x ++ ([b₀, b₁] ++ w) ++ z)[x.length + 1]? = some b₁ := by
      simp
    rw [readToken, hbytes, if_neg (by simp [isLit]), h₀, h₁]
    simp only [Option.bind_eq_bind, Option.bind_some, hback, hoff, hshift]
    by_cases hlen : 17 < len
    · have h₂ : (x ++ ([b₀, b₁] ++ [UInt8.ofNat (len - 18)]) ++ z)[x.length + 2]?
          = some (UInt8.ofNat (len - 18)) := by
        simp
      have hnat : (UInt8.ofNat (len - 18)).toNat = len - 18 := by
        rw [UInt8.toNat_ofNat']
        omega
      have hlc' : lc = 15 := if_neg (by omega)
      rw [if_pos hlen, h₂, if_neg (by omega), Option.bind_some, hnat]
      simp only [List.length_append, List.length_cons, List.length_nil, Option.some.injEq,
        Prod.mk.injEq, Token.copy.injEq, true_and, and_true]
      omega
    · have hlc' : lc = len - 3 := if_pos (by omega)
      rw [if_neg hlen, if_pos (by omega)]
      simp only [List.length_append, List.length_cons, List.length_nil, Option.some.injEq,
        Prod.mk.injEq, Token.copy.injEq, true_and, and_true, MIN_MATCH]
      omega

/-! ### What is unpacked -/

section Unpack
variable {text : Bytes} {p e : ℕ}

lemma FitsCode.size_pos {t : Token UInt8} (h : FitsCode t) : 0 < t.size := by
  cases t with
  | lit b => exact Nat.one_pos
  | copy off len =>
    have hmin := h.2.1
    simp only [MIN_MATCH] at hmin
    change 0 < len
    omega

/-- The tokens of a group are read one after the other, until the text is whole. -/
lemma readGroup_tokens {ctrl k bit : ℕ} {x z : Bytes} {ts : List (Token UInt8)}
    (hfit : ∀ t ∈ ts, FitsCode t) (hp : Parses text p ts e) (he : e ≤ text.length)
    (hbits : ∀ i t, ts[i]? = some t → ctrl.testBit (bit + i) = isLit t)
    (hk : ts.length ≤ k) (hend : ts.length = k ∨ e = text.length) :
    readGroup (x ++ tokensCode ts ++ z) text.length ctrl k bit (text.take p, x.length)
      = some (text.take e, x.length + (tokensCode ts).length) := by
  induction ts generalizing p k bit x with
  | nil =>
    obtain rfl : p = e := hp
    cases k with
    | zero => rfl
    | succ k =>
      obtain rfl : p = text.length := hend.resolve_left (by simp)
      rw [readGroup, if_neg (by simp)]
      rfl
  | cons t ts ih =>
    obtain ⟨k, rfl⟩ : ∃ k', k = k' + 1 := ⟨k - 1, by rw [List.length_cons] at hk; omega⟩
    have hle := hp.2.le
    have hpos := (hfit t (by simp)).size_pos
    have hlt : (text.take p).length < text.length := by
      rw [List.length_take]
      omega
    have hsplit : x ++ tokensCode (t :: ts) ++ z = x ++ tokenCode t ++ (tokensCode ts ++ z) := by
      simp [tokensCode_cons]
    have hrest : x ++ tokensCode (t :: ts) ++ z = x ++ tokenCode t ++ tokensCode ts ++ z := by
      simp [tokensCode_cons]
    have hbit : ctrl.testBit bit = isLit t := hbits 0 t rfl
    have htok := readToken_code x (tokensCode ts ++ z) (hfit t (by simp))
    rw [← hsplit] at htok
    have hnext : ∀ i u, ts[i]? = some u → ctrl.testBit (bit + 1 + i) = isLit u := fun i u hu => by
      rw [Nat.add_assoc, Nat.add_comm 1 i]
      exact hbits (i + 1) u hu
    have hthen := ih (x := x ++ tokenCode t) (k := k)
      (fun u hu => hfit u (List.mem_cons_of_mem _ hu)) hp.2 hnext
      (by rw [List.length_cons] at hk; omega) (hend.imp_left fun h => by simpa using h)
    rw [← hrest, List.length_append] at hthen
    rw [readGroup, if_pos hlt, hbit, htok]
    simp only [Option.bind_eq_bind, Option.bind_some, write_take hp.1, hthen]
    rw [tokensCode_cons, List.length_append, Nat.add_assoc]

lemma FlagsOf.lt {flags : ℕ} {ts : List (Token UInt8)} (h : FlagsOf flags ts) (hts : ts.length ≤ 8) :
    flags < 256 :=
  h.1.trans_le (Nat.pow_le_pow_right (by omega) hts)

lemma mem_dropLast_cons {α : Type} {a b : α} {l : List α} (h : a ∈ l.dropLast) :
    a ∈ (b :: l).dropLast := by
  cases l with
  | nil => exact absurd h List.not_mem_nil
  | cons c l => exact List.mem_cons_of_mem b h

/-- The groups are read one after the other, until the text is whole. -/
lemma readGroups_packed {fuel : ℕ} {x z : Bytes} {bs : List Bytes}
    {groups : List (List (Token UInt8))} (hbs : List.Forall₂ IsGroup bs groups)
    (hfull : ∀ ts ∈ groups.dropLast, ts.length = 8)
    (hsize : ∀ ts ∈ groups, 0 < ts.length ∧ ts.length ≤ 8)
    (hfit : ∀ t ∈ groups.flatten, FitsCode t) (hp : Parses text p groups.flatten text.length)
    (hfuel : groups.length < fuel) :
    readGroups (x ++ bs.flatten ++ z) text.length fuel (text.take p, x.length) = some text := by
  induction hbs generalizing p x fuel with
  | nil =>
    obtain ⟨fuel, rfl⟩ : ∃ n, fuel = n + 1 := ⟨fuel - 1, by simp at hfuel; omega⟩
    obtain rfl : p = text.length := hp
    rw [readGroups, List.take_length, if_neg (lt_irrefl _), if_pos rfl]
  | @cons b ts bs groups hb hbs ih =>
    obtain ⟨fuel, rfl⟩ : ∃ n, fuel = n + 1 := ⟨fuel - 1, by simp at hfuel; omega⟩
    obtain ⟨flags, hflags, rfl⟩ := hb
    obtain ⟨hne, height⟩ := hsize ts (by simp)
    rw [List.flatten_cons] at hp
    obtain ⟨m, hts, hgroups⟩ := parses_append.1 hp
    have hm := hgroups.le
    have hpm : p < m := by
      cases ts with
      | nil => simp at hne
      | cons t ts =>
        have hpos := (hfit t (by simp)).size_pos
        have hle := hts.2.le
        omega
    have hlt : (text.take p).length < text.length := by
      rw [List.length_take]
      omega
    have hnat : (UInt8.ofNat flags).toNat = flags := by
      rw [UInt8.toNat_ofNat']
      exact Nat.mod_eq_of_lt (hflags.lt height)
    -- Only the last group may be short, and there the text is whole.
    have hend : ts.length = 8 ∨ m = text.length := by
      cases groups with
      | nil => exact Or.inr hgroups
      | cons us groups => exact Or.inl (hfull ts (by simp))
    set data := x ++ ((UInt8.ofNat flags :: tokensCode ts) :: bs).flatten ++ z with hdata
    have hget : data[x.length]? = some (UInt8.ofNat flags) := by simp [hdata]
    have hgroup : data = (x ++ [UInt8.ofNat flags]) ++ tokensCode ts ++ (bs.flatten ++ z) := by
      simp [hdata]
    have hrest : data = (x ++ [UInt8.ofNat flags] ++ tokensCode ts) ++ bs.flatten ++ z := by
      simp [hdata]
    have hbits : ∀ i t, ts[i]? = some t → flags.testBit (0 + i) = isLit t := fun i t ht => by
      rw [Nat.zero_add]
      exact hflags.2 i t ht
    have htokens := readGroup_tokens (x := x ++ [UInt8.ofNat flags]) (z := bs.flatten ++ z)
      (fun t ht => hfit t (by simp [ht])) hts hm hbits height hend
    rw [← hgroup, List.length_append, List.length_singleton] at htokens
    have hthen := ih (x := x ++ [UInt8.ofNat flags] ++ tokensCode ts)
      (fun us hus => hfull us (mem_dropLast_cons hus)) (fun us hus => hsize us (by simp [hus]))
      (fun t ht => hfit t (by simp only [List.flatten_cons, List.mem_append, ht, or_true])) hgroups
      (by simpa using hfuel)
    rw [← hrest, List.length_append, List.length_append, List.length_singleton] at hthen
    rw [readGroups, if_pos hlt, hget]
    simp only [Option.bind_eq_bind, Option.bind_some, hnat, htokens, hthen]

lemma groups_length_le {bs : List Bytes} {groups : List (List (Token UInt8))}
    (h : List.Forall₂ IsGroup bs groups) : groups.length ≤ bs.flatten.length := by
  induction h with
  | nil => exact le_refl 0
  | cons hb _ ih =>
    obtain ⟨flags, -, rfl⟩ := hb
    rw [List.flatten_cons, List.length_append, List.length_cons, List.length_cons]
    omega

/-- What is unpacked from groups that say the text. -/
lemma lzDecompress_packed {b : Bytes} {groups : List (List (Token UInt8))} (hb : IsPacked b groups)
    (hfit : ∀ t ∈ groups.flatten, FitsCode t) (hp : Parses text 0 groups.flatten text.length)
    (hlen : text.length < 2 ^ 64) : lzDecompress (putVarint text.length ++ b) = some text := by
  obtain ⟨⟨bs, hbs, rfl⟩, hfull, hsize⟩ := hb
  have hvarint := takeVarint_put [] bs.flatten rfl hlen
  rw [List.nil_append, List.length_nil, Nat.zero_add, ← length_putVarint hlen] at hvarint
  have hgroups := groups_length_le hbs
  have hread := readGroups_packed (x := putVarint text.length) (z := []) hbs hfull hsize hfit hp
    (show groups.length < (putVarint text.length ++ bs.flatten).length + 1 by
      rw [List.length_append]
      omega)
  rw [List.append_nil, List.take_zero] at hread
  rw [lzDecompress, hvarint]
  exact hread

end Unpack

/-! ### Matches -/

section Match
variable {input : Bytes} {pos : ℕ}

lemma bmod_le (n m : ℕ) : (n : ℤ).bmod m ≤ n := by
  have hmod : (n : ℤ) % (m : ℤ) ≤ n := by
    rw [← Int.natCast_emod]
    exact Int.ofNat_le.2 (Nat.mod_le _ _)
  rw [Int.bmod_def]
  split_ifs <;> omega

lemma asI32_le (n : ℕ) : asI32 n ≤ n := bmod_le n _

/-- All positions in the chains are earlier ones. -/
def Chains.Behind (t : Chains) (pos : ℕ) : Prop :=
  (∀ c ∈ t.head, c < (pos : ℤ)) ∧ ∀ c ∈ t.prev, c < (pos : ℤ)

lemma getD_lt {l : List ℤ} {n : ℤ} (h : ∀ c ∈ l, c < n) (hn : 0 ≤ n) (i : ℕ) :
    l.getD i (-1) < n := by
  rw [List.getD_eq_getElem?_getD]
  cases hi : l[i]? with
  | none => exact Int.lt_of_lt_of_le (by decide) hn
  | some c => exact h c (List.mem_of_getElem? hi)

lemma Chains.Behind.insert {t : Chains} (h : t.Behind pos) :
    (t.insert input pos).Behind (pos + 1) := by
  have hpos : (pos : ℤ) < ((pos + 1 : ℕ) : ℤ) := Int.ofNat_lt.2 (Nat.lt_succ_self pos)
  have hhead := fun c hc => (h.1 c hc).trans hpos
  have hprev := fun c hc => (h.2 c hc).trans hpos
  rw [Chains.insert]
  split_ifs
  · constructor
    · intro c hc
      rcases List.mem_or_eq_of_mem_set hc with hc | hc
      · exact hhead c hc
      · rw [hc]
        exact (asI32_le pos).trans_lt hpos
    · intro c hc
      rcases List.mem_or_eq_of_mem_set hc with hc | rfl
      · exact hprev c hc
      · exact (getD_lt h.1 (Int.natCast_nonneg _) _).trans hpos
  · exact ⟨hhead, hprev⟩

lemma Chains.Behind.insertRun {t : Chains} {n : ℕ} (h : t.Behind pos) :
    (t.insertRun input pos n).Behind (pos + n) := by
  induction n generalizing pos t with
  | zero => exact h
  | succ n ih =>
    rw [Chains.insertRun, Nat.add_comm n 1, ← Nat.add_assoc]
    exact ih h.insert

lemma matchLen_le (c m : ℕ) : matchLen input c pos m ≤ m := by
  induction m generalizing c pos with
  | zero => exact le_refl 0
  | succ m ih =>
    rw [matchLen]
    split_ifs
    · exact Nat.succ_le_succ (ih _)
    · exact Nat.zero_le _

lemma matchLen_eq {c m k : ℕ} (h : k < matchLen input c pos m) :
    input.getD (c + k) 0 = input.getD (pos + k) 0 := by
  induction m generalizing c pos k with
  | zero => exact absurd h (Nat.not_lt_zero k)
  | succ m ih =>
    rw [matchLen] at h
    split_ifs at h with heq
    · cases k with
      | zero => exact heq
      | succ k =>
        have hnext := ih (Nat.lt_of_succ_lt_succ h)
        rwa [Nat.add_assoc, Nat.add_assoc, Nat.add_comm 1 k] at hnext
    · exact absurd h (Nat.not_lt_zero k)

/-- A match, of no length perhaps, with what lies in the window. -/
def IsMatch (input : Bytes) (pos max_len : ℕ) (best : ℕ × ℕ) : Prop :=
  best.1 = 0 ∨ (0 < best.2 ∧ best.2 ≤ WINDOW ∧ best.2 ≤ pos) ∧ best.1 ≤ max_len ∧
    ∀ k < best.1, input.getD (pos - best.2 + k) 0 = input.getD (pos + k) 0

lemma walkChain_isMatch {prev : List ℤ} {max_len k : ℕ} {cand : ℤ} {best : ℕ × ℕ}
    (hprev : ∀ c ∈ prev, c < (pos : ℤ)) (hcand : cand < (pos : ℤ))
    (h : IsMatch input pos max_len best) :
    IsMatch input pos max_len (walkChain input prev pos max_len k cand best) := by
  induction k generalizing cand best with
  | zero => exact h
  | succ k ih =>
    rw [walkChain]
    split_ifs with hneg
    · exact h
    · have hc : cand.toNat < pos := by omega
      have hnext := getD_lt hprev (Int.natCast_nonneg pos) cand.toNat
      have hnew (hwin : ¬ WINDOW < pos - cand.toNat) :
          IsMatch input pos max_len (matchLen input cand.toNat pos max_len, pos - cand.toNat) := by
        refine Or.inr ⟨⟨by omega, by omega, Nat.sub_le _ _⟩, matchLen_le _ _, fun j hj => ?_⟩
        rw [show pos - (pos - cand.toNat) = cand.toNat by omega]
        exact matchLen_eq hj
      dsimp only
      split_ifs with hwin hlong hmax
      · exact h
      · exact hnew hwin
      · exact ih hnext (hnew hwin)
      · exact ih hnext h

lemma getElem?_eq_of_getD {i j : ℕ} (hi : i < input.length) (hj : j < input.length)
    (h : input.getD i 0 = input.getD j 0) : input[i]? = input[j]? := by
  rw [List.getD_eq_getElem _ _ hi, List.getD_eq_getElem _ _ hj] at h
  rw [List.getElem?_eq_getElem hi, List.getElem?_eq_getElem hj, h]

/-- A match that is written stands in the text, and fits its code. -/
lemma bestMatch_stands {t : Chains} (ht : t.Behind pos)
    (h : MIN_MATCH ≤ (bestMatch input t pos).1) :
    Stands input pos (.copy (bestMatch input t pos).2 (bestMatch input t pos).1) ∧
      FitsCode (.copy (bestMatch input t pos).2 (bestMatch input t pos).1) := by
  have hm : IsMatch input pos (min (input.length - pos) MAX_MATCH) (bestMatch input t pos) := by
    rw [bestMatch]
    split_ifs
    · exact walkChain_isMatch ht.2 (getD_lt ht.1 (Int.natCast_nonneg _) _) (Or.inl rfl)
    · exact Or.inl rfl
  have hmin := h
  simp only [MIN_MATCH] at hmin
  obtain ⟨⟨hoff, hwin, hle⟩, hmax, heq⟩ := hm.resolve_left (by omega)
  obtain ⟨hend, hlen⟩ := le_min_iff.1 hmax
  refine ⟨⟨hoff, hle, by omega, fun k hk => ?_⟩, ⟨hoff, hwin⟩, h, hlen⟩
  exact getElem?_eq_of_getD (by omega) (by omega) (heq k hk)

end Match

/-! ### What is packed -/

namespace Packer

variable {input : Bytes} {s : Packer} {bs : List Bytes} {groups : List (List (Token UInt8))}
  {cur : List (Token UInt8)} {t : Token UInt8}

/-- The groups that are closed, and the tokens of the one that is not, say the text so far. -/
structure Wrote (input : Bytes) (s : Packer) (bs : List Bytes)
    (groups : List (List (Token UInt8))) (cur : List (Token UInt8)) : Prop where
  grouped : List.Forall₂ IsGroup bs groups
  eight : ∀ ts ∈ groups, ts.length = 8
  fits : ∀ t ∈ groups.flatten ++ cur, FitsCode t
  parses : Parses input 0 (groups.flatten ++ cur) s.pos
  chains : s.chains.Behind s.pos

/-- A group is open: the byte of flags is kept free before its tokens. -/
structure Opened (input : Bytes) (s : Packer) (bs : List Bytes) (cur : List (Token UInt8)) :
    Prop where
  out : s.out = putVarint input.length ++ bs.flatten ++ 0 :: tokensCode cur
  place : s.flags_pos = (putVarint input.length ++ bs.flatten).length
  flags : FlagsOf s.flags cur

/-- The state between two rounds. -/
structure Packed (input : Bytes) (s : Packer) (bs : List Bytes)
    (groups : List (List (Token UInt8))) (cur : List (Token UInt8)) : Prop where
  wrote : s.Wrote input bs groups cur
  count : s.nflags = cur.length
  room : cur.length < 8
  closed : cur = [] → s.out = putVarint input.length ++ bs.flatten
  opened : cur ≠ [] → s.Opened input bs cur

lemma FlagsOf.nil : FlagsOf 0 [] := ⟨Nat.one_pos, fun i t h => by simp at h⟩

lemma Packed.openGroup (h : s.Packed input bs groups cur) :
    s.openGroup.Wrote input bs groups cur ∧ s.openGroup.Opened input bs cur ∧
      s.openGroup.nflags = cur.length := by
  rw [Packer.openGroup]
  split_ifs with hn
  · obtain rfl : cur = [] := List.length_eq_zero_iff.1 (h.count.symm.trans hn)
    obtain ⟨hgroups, height, hfits, hparses, hchains⟩ := h.wrote
    have hout := h.closed rfl
    refine ⟨⟨hgroups, height, hfits, hparses, hchains⟩, ⟨?_, ?_, FlagsOf.nil⟩, hn⟩
    · rw [hout]
      rfl
    · rw [hout]
  · have hne : cur ≠ [] := fun hcur => hn (by rw [h.count, hcur]; rfl)
    exact ⟨h.wrote, h.opened hne, h.count⟩

lemma FlagsOf.lit {flags : ℕ} (h : FlagsOf flags cur) (b : UInt8) :
    FlagsOf (flags ||| 1 <<< cur.length) (cur ++ [.lit b]) := by
  rw [Nat.one_shiftLeft]
  constructor
  · rw [List.length_append, List.length_singleton]
    exact Nat.or_lt_two_pow (h.1.trans (Nat.pow_lt_pow_right (by omega) (by omega)))
      (Nat.pow_lt_pow_right (by omega) (by omega))
  · intro i t hi
    rw [Nat.testBit_or, Nat.testBit_two_pow]
    rcases lt_trichotomy i cur.length with hlt | rfl | hgt
    · rw [List.getElem?_append_left hlt] at hi
      rw [h.2 i t hi, decide_eq_false (by omega), Bool.or_false]
    · rw [List.getElem?_concat_length] at hi
      cases hi
      rw [decide_eq_true rfl, Bool.or_true]
      rfl
    · rw [List.getElem?_eq_none (by simp; omega)] at hi
      cases hi

lemma FlagsOf.copy {flags : ℕ} (h : FlagsOf flags cur) (off len : ℕ) :
    FlagsOf flags (cur ++ [.copy off len]) := by
  constructor
  · rw [List.length_append, List.length_singleton]
    exact h.1.trans (Nat.pow_lt_pow_right (by omega) (by omega))
  · intro i t hi
    rcases lt_trichotomy i cur.length with hlt | rfl | hgt
    · rw [List.getElem?_append_left hlt] at hi
      exact h.2 i t hi
    · rw [List.getElem?_concat_length] at hi
      cases hi
      exact Nat.testBit_lt_two_pow h.1
    · rw [List.getElem?_eq_none (by simp; omega)] at hi
      cases hi

/-- The next token stands in the text, and fits its code. -/
lemma nextToken_stands (hs : s.Wrote input bs groups cur) (hlt : s.pos < input.length) :
    Stands input s.pos (s.nextToken input) ∧ FitsCode (s.nextToken input) := by
  rw [nextToken]
  dsimp only
  split_ifs with hmin
  · exact bestMatch_stands hs.chains hmin
  · refine ⟨?_, trivial⟩
    rw [List.getD_eq_getElem _ _ hlt]
    exact List.getElem?_eq_getElem hlt

/-- A round writes a token into the group. -/
lemma putToken_wrote (hs : s.Wrote input bs groups cur) (ho : s.Opened input bs cur)
    (hn : s.nflags = cur.length) (hlt : s.pos < input.length) :
    (s.putToken input).Wrote input bs groups (cur ++ [s.nextToken input]) ∧
      (s.putToken input).Opened input bs (cur ++ [s.nextToken input]) ∧
      (s.putToken input).nflags = cur.length ∧ s.pos < (s.putToken input).pos := by
  obtain ⟨hstands, hfit⟩ := nextToken_stands hs hlt
  have hsnoc := hs.parses.snoc hstands
  have hcode : tokensCode (cur ++ [s.nextToken input])
      = tokensCode cur ++ tokenCode (s.nextToken input) := by
    rw [tokensCode_append, tokensCode, tokensCode, List.flatMap_singleton]
  have hfits : ∀ t ∈ groups.flatten ++ (cur ++ [s.nextToken input]), FitsCode t := by
    intro t ht
    rw [← List.append_assoc] at ht
    rcases List.mem_append.1 ht with ht | ht
    · exact hs.fits t ht
    · rw [List.mem_singleton.1 ht]
      exact hfit
  have hpos := hfit.size_pos
  rw [List.append_assoc] at hsnoc
  rw [putToken]
  cases htok : s.nextToken input with
  | lit b =>
    rw [htok] at hsnoc hcode hfits
    refine ⟨⟨hs.grouped, hs.eight, hfits, hsnoc, hs.chains.insert⟩, ⟨?_, ho.place, ?_⟩, hn,
      Nat.lt_succ_self _⟩
    · simp only [ho.out, hcode, tokenCode, List.append_assoc, List.cons_append]
    · simp only [hn]
      exact FlagsOf.lit ho.flags b
  | copy off len =>
    rw [htok] at hsnoc hcode hfits hpos
    refine ⟨⟨hs.grouped, hs.eight, hfits, hsnoc, hs.chains.insertRun⟩,
      ⟨?_, ho.place, FlagsOf.copy ho.flags off len⟩, hn, Nat.lt_add_of_pos_right hpos⟩
    simp only [ho.out, hcode, tokenCode, List.append_assoc, List.cons_append]

lemma Opened.set_flags (h : s.Opened input bs cur) :
    s.out.set s.flags_pos (UInt8.ofNat s.flags)
      = putVarint input.length ++ (bs ++ [UInt8.ofNat s.flags :: tokensCode cur]).flatten := by
  rw [h.out, h.place, List.set_append_right _ _ (le_refl _), Nat.sub_self, List.set_cons_zero]
  simp

/-- The group is closed when it is full. -/
lemma closeGroup_packed (hw : s.Wrote input bs groups (cur ++ [t]))
    (ho : s.Opened input bs (cur ++ [t])) (hn : s.nflags = cur.length) (hroom : cur.length < 8) :
    ∃ bs' groups' cur', s.closeGroup.Packed input bs' groups' cur' ∧
      groups'.flatten ++ cur' = groups.flatten ++ (cur ++ [t]) := by
  rw [closeGroup]
  split_ifs with height
  · have hlen : (cur ++ [t]).length = 8 := by
      rw [List.length_append, List.length_singleton]
      omega
    have hflat : (groups ++ [cur ++ [t]]).flatten ++ [] = groups.flatten ++ (cur ++ [t]) := by simp
    refine ⟨bs ++ [UInt8.ofNat s.flags :: tokensCode (cur ++ [t])], groups ++ [cur ++ [t]], [],
      ⟨⟨?_, ?_, ?_, ?_, hw.chains⟩, rfl, by decide, fun _ => ho.set_flags, fun h => absurd rfl h⟩,
      hflat⟩
    · exact List.rel_append hw.grouped (.cons ⟨s.flags, ho.flags, rfl⟩ .nil)
    · intro ts hts
      rcases List.mem_append.1 hts with hts | hts
      · exact hw.eight ts hts
      · rw [List.mem_singleton.1 hts]
        exact hlen
    · rw [hflat]
      exact hw.fits
    · rw [hflat]
      exact hw.parses
  · have hne : cur ++ [t] ≠ [] := by simp
    have hlen : (cur ++ [t]).length = cur.length + 1 := by simp
    refine ⟨bs, groups, cur ++ [t], ⟨⟨hw.grouped, hw.eight, hw.fits, hw.parses, hw.chains⟩, ?_, ?_,
      fun h => absurd h hne, fun _ => ⟨ho.out, ho.place, ho.flags⟩⟩, rfl⟩
    · rw [hlen, ← hn]
    · omega

/-- The tokens of a run. -/
def emitted (input : Bytes) : ℕ → Packer → List (Token UInt8)
  | 0, _ => []
  | k + 1, s =>
    if s.pos < input.length then s.openGroup.nextToken input :: emitted input k (s.step input)
    else []

lemma openGroup_pos (s : Packer) : s.openGroup.pos = s.pos := by
  rw [Packer.openGroup]
  split_ifs <;> rfl

lemma closeGroup_pos (s : Packer) : s.closeGroup.pos = s.pos := by
  rw [closeGroup]
  split_ifs <;> rfl

/-- A round writes a token, and goes on. -/
lemma step_packed (h : s.Packed input bs groups cur) (hlt : s.pos < input.length) :
    ∃ bs' groups' cur', (s.step input).Packed input bs' groups' cur' ∧
      groups'.flatten ++ cur' = groups.flatten ++ cur ++ [s.openGroup.nextToken input] ∧
      s.pos < (s.step input).pos := by
  obtain ⟨hw, ho, hn⟩ := h.openGroup
  obtain ⟨hw', ho', hn', hpos⟩ := putToken_wrote hw ho hn (by rwa [openGroup_pos])
  obtain ⟨bs', groups', cur', hp, hflat⟩ := closeGroup_packed hw' ho' hn' h.room
  refine ⟨bs', groups', cur', hp, by rw [hflat, List.append_assoc], ?_⟩
  rwa [step, closeGroup_pos, ← openGroup_pos]

/-- The whole run: the rounds are enough to come to the end. -/
lemma run_packed {k : ℕ} (h : s.Packed input bs groups cur) (hk : input.length ≤ s.pos + k) :
    ∃ bs' groups' cur', (s.run input k).Packed input bs' groups' cur' ∧
      groups'.flatten ++ cur' = groups.flatten ++ cur ++ s.emitted input k ∧
      input.length ≤ (s.run input k).pos := by
  induction k generalizing s bs groups cur with
  | zero => exact ⟨bs, groups, cur, h, (List.append_nil _).symm, hk⟩
  | succ k ih =>
    rw [run, emitted]
    split_ifs with hlt
    · obtain ⟨bs₁, groups₁, cur₁, h₁, hflat₁, hpos⟩ := step_packed h hlt
      obtain ⟨bs', groups', cur', h', hflat, hend⟩ := ih h₁ (by omega)
      refine ⟨bs', groups', cur', h', ?_, hend⟩
      rw [hflat, hflat₁, List.append_assoc, List.singleton_append]
    · exact ⟨bs, groups, cur, h, (List.append_nil _).symm, Nat.le_of_not_lt hlt⟩

lemma Wrote.pos_le (h : s.Wrote input bs groups cur) : s.pos ≤ input.length := by
  have hwrite := h.parses
  generalize groups.flatten ++ cur = ts at hwrite
  suffices hle : ∀ p, p ≤ input.length → Parses input p ts s.pos → s.pos ≤ input.length from
    hle 0 (Nat.zero_le _) hwrite
  clear hwrite h
  induction ts with
  | nil => exact fun p hp h => h ▸ hp
  | cons t ts ih => exact fun p _ h => ih _ h.1.le_length h.2

lemma start_packed (input : Bytes) : (start input).Packed input [] [] [] := by
  have hbehind : (start input).chains.Behind 0 := by
    constructor <;> intro c hc <;> rw [List.eq_of_mem_replicate hc] <;> decide
  exact ⟨⟨.nil, List.forall_mem_nil _, List.forall_mem_nil _, rfl, hbehind⟩, rfl, by decide,
    fun _ => (List.append_nil _).symm, fun h => absurd rfl h⟩

/-- The last group is closed at the end. -/
lemma finish_packed (h : s.Packed input bs groups cur) :
    ∃ b groups', s.finish = putVarint input.length ++ b ∧ IsPacked b groups' ∧
      groups'.flatten = groups.flatten ++ cur := by
  rw [finish]
  split_ifs with hn
  · have hne : cur ≠ [] := fun hcur => by simp [h.count, hcur] at hn
    have ho := h.opened hne
    refine ⟨_, groups ++ [cur], ho.set_flags, ⟨⟨_, ?_, rfl⟩, ?_, ?_⟩, by simp⟩
    · exact List.rel_append h.wrote.grouped (.cons ⟨s.flags, ho.flags, rfl⟩ .nil)
    · rw [List.dropLast_concat]
      exact h.wrote.eight
    · intro ts hts
      rcases List.mem_append.1 hts with hts | hts
      · rw [h.wrote.eight ts hts]
        omega
      · rw [List.mem_singleton.1 hts, ← h.count]
        exact ⟨hn, h.count ▸ h.room.le⟩
  · have hnil : cur = [] := List.length_eq_zero_iff.1 (by rw [← h.count]; omega)
    refine ⟨bs.flatten, groups, h.closed hnil, ⟨⟨bs, h.wrote.grouped, rfl⟩, ?_, ?_⟩, by simp [hnil]⟩
    · exact fun ts hts => h.wrote.eight ts (List.dropLast_subset _ hts)
    · intro ts hts
      rw [h.wrote.eight ts hts]
      omega

end Packer

/-- The tokens that are written for an input. -/
def lzTokens (input : Bytes) : List (Token UInt8) :=
  (Packer.start input).emitted input input.length

/-- The output is the length and the groups of the tokens; each fits its code, and together they say
the input. -/
lemma lzCompress_packed (input : Bytes) :
    ∃ b groups, lzCompress input = putVarint input.length ++ b ∧ IsPacked b groups ∧
      groups.flatten = lzTokens input ∧ (∀ t ∈ lzTokens input, FitsCode t) ∧
      Parses input 0 (lzTokens input) input.length := by
  obtain ⟨bs, groups, cur, h, hflat, hend⟩ :=
    Packer.run_packed (Packer.start_packed input) (k := input.length) (by simp [Packer.start])
  rw [List.flatten_nil, List.nil_append, List.nil_append] at hflat
  obtain ⟨b, groups', hb, hpacked, hflat'⟩ := Packer.finish_packed h
  have hpos := le_antisymm h.wrote.pos_le hend
  have hfits := h.wrote.fits
  have hparses := h.wrote.parses
  rw [hflat] at hfits hparses
  rw [hpos] at hparses
  exact ⟨b, groups', hb, hpacked, hflat'.trans hflat, hfits, hparses⟩

lemma lzDecompress_compress {input : Bytes} (h : input.length < 2 ^ 64) :
    lzDecompress (lzCompress input) = some input := by
  obtain ⟨b, groups, hb, hpacked, hflat, hfits, hparses⟩ := lzCompress_packed input
  rw [hb]
  rw [← hflat] at hfits hparses
  exact lzDecompress_packed hpacked hfits hparses h

end Arkeion.Lzss
