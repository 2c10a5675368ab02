import Arkeion.RangeCoder
import Mathlib.Data.List.GetD
import Mathlib.Data.Nat.Bitwise
import Mathlib.Algebra.BigOperators.Group.List.Basic
import Mathlib.Algebra.Order.BigOperators.Group.List

/-!
What the range coder packs it unpacks, and neither side ever leaves its types or loops.

Both sides carry the same interval and model. On the side that packs, the bytes that follow are a
number in the interval; on the other side, this number finds the symbol.
-/

namespace Arkeion.RangeCoder

open Arkeion.Lib

/-! ### The model -/

namespace RangeModel

variable {m m' : RangeModel} {sym target : ℕ}

/-- Every symbol has a part, and the parts make up the total. -/
structure Sound (m : RangeModel) : Prop where
  length : m.freq.length = 256
  pos : ∀ f ∈ m.freq, 0 < f
  sum : m.freq.sum = m.total
  small : m.total < RC_MAX_TOTAL

lemma new_sound : new.Sound where
  length := List.length_replicate
  pos := fun f hf => by rw [List.eq_of_mem_replicate hf]; exact Nat.one_pos
  sum := by rw [new, List.sum_replicate_nat]
  small := by decide

lemma Sound.total_pos (h : m.Sound) : 0 < m.total := by
  rw [← h.sum]
  cases hf : m.freq with
  | nil =>
    have hlen := h.length
    rw [hf] at hlen
    cases hlen
  | cons f fs =>
    have hpos := h.pos f (by simp [hf])
    rw [List.sum_cons]
    omega

/-- A symbol has a part of its own between those below it and the total. -/
lemma Sound.part (h : m.Sound) (hsym : sym < 256) :
    0 < m.freq.getD sym 0 ∧ m.cum sym + m.freq.getD sym 0 ≤ m.total := by
  have hlt : sym < m.freq.length := by rw [h.length]; exact hsym
  rw [List.getD_eq_getElem _ _ hlt]
  refine ⟨h.pos _ (List.getElem_mem hlt), ?_⟩
  rw [← h.sum, cum, ← List.sum_take_succ _ _ hlt]
  conv_rhs => rw [← List.sum_take_add_sum_drop m.freq (sym + 1)]
  exact Nat.le_add_right _ _

/-- What is found is a symbol, with its part. -/
lemma findFrom_found {fs : List ℕ} {s base : ℕ} (h : target < base + fs.sum) (hb : base ≤ target) :
    ∃ j < fs.length, findFrom target fs s base
      = some (s + j, base + (fs.take j).sum, fs.getD j 0) ∧
      base + (fs.take j).sum ≤ target ∧ target < base + (fs.take j).sum + fs.getD j 0 := by
  induction fs generalizing s base with
  | nil =>
    rw [List.sum_nil] at h
    omega
  | cons f fs ih =>
    rw [findFrom]
    split_ifs with hlt
    · exact ⟨0, by simp, by simp, by simpa using hb, by simpa using hlt⟩
    · rw [List.sum_cons, ← Nat.add_assoc] at h
      obtain ⟨j, hj, hfound, hlo, hhi⟩ := ih (s := s + 1) h (by omega)
      refine ⟨j + 1, by simpa using hj, ?_, ?_, ?_⟩
      · rw [hfound, List.take_succ_cons, List.sum_cons, List.getD_cons_succ]
        simp only [Option.some.injEq, Prod.mk.injEq, and_true]
        omega
      · rw [List.take_succ_cons, List.sum_cons]
        omega
      · rw [List.take_succ_cons, List.sum_cons, List.getD_cons_succ]
        omega

lemma Sound.find_found (h : m.Sound) (ht : target < m.total) :
    ∃ sym < 256, m.find target = (sym, m.cum sym, m.freq.getD sym 0) ∧
      m.cum sym ≤ target ∧ target < m.cum sym + m.freq.getD sym 0 := by
  have hsum : target < 0 + m.freq.sum := by
    rw [Nat.zero_add, h.sum]
    exact ht
  obtain ⟨j, hj, hfound, hlo, hhi⟩ := findFrom_found (s := 0) hsum (Nat.zero_le target)
  rw [Nat.zero_add] at hfound hlo hhi
  rw [Nat.zero_add] at hfound
  exact ⟨j, by rwa [h.length] at hj, by rw [find, hfound]; rfl, hlo, hhi⟩

/-- The parts of two symbols have nothing in common. -/
lemma cum_mono {i j : ℕ} (hij : i < j) (hj : j ≤ m.freq.length) :
    m.cum i + m.freq.getD i 0 ≤ m.cum j := by
  have hlt : i < m.freq.length := hij.trans_le hj
  rw [List.getD_eq_getElem _ _ hlt, cum, ← List.sum_take_succ _ _ hlt, cum]
  have htake : m.freq.take (i + 1) = (m.freq.take j).take (i + 1) := by
    rw [List.take_take, Nat.min_eq_left hij]
  rw [htake]
  conv_rhs => rw [← List.sum_take_add_sum_drop (m.freq.take j) (i + 1)]
  exact Nat.le_add_right _ _

/-- A target in the part of a symbol finds the symbol. -/
lemma Sound.find_eq (h : m.Sound) (hsym : sym < 256) (hlo : m.cum sym ≤ target)
    (hhi : target < m.cum sym + m.freq.getD sym 0) :
    m.find target = (sym, m.cum sym, m.freq.getD sym 0) := by
  obtain ⟨sym', hsym', hfound, hlo', hhi'⟩ := h.find_found (hhi.trans_le (h.part hsym).2)
  rcases lt_trichotomy sym sym' with hlt | rfl | hgt
  · have hle := cum_mono (m := m) hlt (by rw [h.length]; omega)
    omega
  · exact hfound
  · have hle := cum_mono (m := m) hgt (by rw [h.length]; omega)
    omega

lemma halve_le (f : ℕ) : f >>> 1 ||| 1 ≤ f / 2 + 1 := by
  have hdiv : (f >>> 1 ||| 1) / 2 = f >>> 1 / 2 := by
    rw [Nat.or_div_two, show 1 / 2 = 0 by rfl, Nat.or_zero]
  rw [Nat.shiftRight_one] at hdiv ⊢
  omega

lemma sum_halved_le (fs : List ℕ) :
    (fs.map fun f => f >>> 1 ||| 1).sum ≤ fs.sum / 2 + fs.length := by
  induction fs with
  | nil => exact Nat.zero_le _
  | cons f fs ih =>
    have hf := halve_le f
    rw [List.map_cons, List.sum_cons, List.sum_cons, List.length_cons]
    omega

lemma sum_set {fs : List ℕ} {i v : ℕ} (h : i < fs.length) :
    (fs.set i v).sum + fs.getD i 0 = fs.sum + v := by
  induction fs generalizing i with
  | nil => exact absurd h (Nat.not_lt_zero i)
  | cons f fs ih =>
    cases i with
    | zero =>
      rw [List.set_cons_zero, List.sum_cons, List.sum_cons, List.getD_cons_zero]
      omega
    | succ i =>
      have hrest := ih (Nat.lt_of_succ_lt_succ h)
      rw [List.set_cons_succ, List.sum_cons, List.sum_cons, List.getD_cons_succ]
      omega

/-- Learning a symbol stays in its types, and keeps the model sound. -/
lemma Sound.update (h : m.Sound) (hsym : sym < 256) : ∃ m', m.update sym = .ok m' ∧ m'.Sound := by
  have hlt : sym < m.freq.length := by rw [h.length]; exact hsym
  have hpart := h.part hsym
  have hsmall := h.small
  simp only [RC_MAX_TOTAL] at hsmall
  set f := m.freq.getD sym 0 + RC_INC with hf
  have hinc : RC_INC = 24 := rfl
  have hpos : ∀ g ∈ m.freq.set sym f, 0 < g := by
    intro g hg
    rcases List.mem_or_eq_of_mem_set hg with hg | rfl
    · exact h.pos g hg
    · omega
  have hsum : (m.freq.set sym f).sum = m.total + RC_INC := by
    have hset := sum_set (v := f) hlt
    rw [h.sum] at hset
    omega
  have hlen : (m.freq.set sym f).length = 256 := by rw [List.length_set, h.length]
  rw [RangeModel.update]
  simp only [← hf]
  rw [require_pos (show f < 2 ^ 16 by omega), ok_bind,
    require_pos (show m.total + RC_INC < 2 ^ 32 by omega), ok_bind]
  split_ifs with hmax
  · refine ⟨_, rfl, by rw [List.length_map, hlen], fun g hg => ?_, rfl, ?_⟩
    · obtain ⟨g', -, rfl⟩ := List.mem_map.1 hg
      exact Nat.lt_of_lt_of_le Nat.one_pos Nat.right_le_or
    · have hle := sum_halved_le (m.freq.set sym f)
      rw [hsum, hlen] at hle
      simp only [RC_MAX_TOTAL]
      omega
  · exact ⟨_, rfl, hlen, hpos, hsum, Nat.lt_of_not_le hmax⟩

end RangeModel

/-! ### The interval -/

namespace Interval

variable {i i' : Interval}

/-- The interval does not go beyond the end, and where it reaches it, its high byte is the last. -/
structure Sound (i : Interval) : Prop where
  pos : 0 < i.range
  le : i.low + i.range ≤ 2 ^ 32
  last : i.low + i.range = 2 ^ 32 → 255 * 2 ^ 24 ≤ i.low

lemma start_sound : start.Sound := ⟨by decide, by decide, by decide⟩

lemma Sound.range_lt (h : i.Sound) : i.range < 2 ^ 32 := by
  have hle := h.le
  have hlast := h.last
  omega

/-- The part of a symbol lies in the interval. -/
lemma Sound.narrow (h : i.Sound) {range total cum freq : ℕ} (hrange : range = i.range / total)
    (hpos : 0 < range) (hfreq : 0 < freq) (hle : cum + freq ≤ total) :
    ∃ i', i.narrow range cum freq = .ok i' ∧ i'.Sound ∧
      i'.low = i.low + cum * range ∧ i'.range = range * freq := by
  have hunits : (cum + freq) * range ≤ i.range := by
    calc (cum + freq) * range ≤ total * range := Nat.mul_le_mul_right _ hle
      _ ≤ i.range := by rw [hrange]; exact Nat.mul_div_le _ _
  have hpart : 0 < range * freq := Nat.mul_pos hpos hfreq
  rw [Nat.add_mul, Nat.mul_comm freq] at hunits
  have hend := h.le
  have hlast := h.last
  have hlt := h.range_lt
  have hlow : wrappingAdd i.low (cum * range) = i.low + cum * range :=
    Nat.mod_eq_of_lt (by omega)
  refine ⟨⟨i.low + cum * range, range * freq⟩, ?_, ⟨hpart, ?_, fun heq => ?_⟩, rfl, rfl⟩
  · rw [Interval.narrow, mul32, mul32, require_pos (show cum * range < 2 ^ 32 by omega),
      require_pos (show range * freq < 2 ^ 32 by omega)]
    simp only [ok_bind, hlow]
  · change i.low + cum * range + range * freq ≤ 2 ^ 32
    omega
  · change i.low + cum * range + range * freq = 2 ^ 32 at heq
    change 255 * 2 ^ 24 ≤ i.low + cum * range
    omega

lemma xor_lt_iff (a b : ℕ) : a ^^^ b < RC_TOP ↔ a / 2 ^ 24 = b / 2 ^ 24 := by
  rw [RC_TOP, ← Nat.div_eq_zero_iff_lt (by decide), Nat.xor_div_two_pow, Nat.xor_eq_zero_iff]

/-- A settled interval is the interval itself, or what it has before the high byte changes. -/
lemma Sound.settle_some (h : i.Sound) (hs : i.settle = some i') :
    i'.low = i.low ∧ 0 < i'.range ∧ i'.range ≤ i.range ∧
      (i' = i ∧ i'.low % 2 ^ 24 + i'.range < 2 ^ 24 ∨
        i'.low % 2 ^ 24 + i'.range = 2 ^ 24 ∧ i'.range < 2 ^ 16 ∧
          (i.low + i.range = 2 ^ 32 → i' = i)) := by
  obtain ⟨low, range⟩ := i
  obtain ⟨hpos, hle, hlast⟩ := h
  simp only at hpos hle hlast
  have hwrap : wrappingAdd low range = (low + range) % 2 ^ 32 := rfl
  rw [settle] at hs
  simp only [xor_lt_iff, hwrap] at hs
  split_ifs at hs with htop hbot
  · obtain rfl := Option.some.inj hs
    refine ⟨rfl, hpos, le_refl _, Or.inl ⟨rfl, ?_⟩⟩
    simp only
    omega
  · obtain rfl := Option.some.inj hs
    simp only [RC_BOT] at hbot
    have hcut : wrappingSub 0 low &&& (RC_BOT - 1) = 2 ^ 16 - low % 2 ^ 16 := by
      rw [RC_BOT, Nat.and_two_pow_sub_one_eq_mod, wrappingSub]
      omega
    simp only [hcut, Interval.mk.injEq, true_and]
    omega

/-- An interval that is not settled is long enough. -/
lemma le_range_of_settle_none (h : i.settle = none) : 2 ^ 16 ≤ i.range := by
  rw [settle] at h
  split_ifs at h with htop hbot
  exact Nat.le_of_not_lt hbot

lemma shift_eq (hlt : i.range < 2 ^ 24) :
    i.shift.low = i.low % 2 ^ 24 * 256 ∧ i.shift.range = i.range * 256 := by
  simp only [shift, Nat.shiftLeft_eq]
  omega

lemma Sound.shift_settle (h : i.Sound) (hs : i.settle = some i') :
    i'.shift.Sound ∧ i'.shift.low = i.low % 2 ^ 24 * 256 ∧ i'.shift.range = i'.range * 256 := by
  obtain ⟨hlow, hpos, -, hcases⟩ := h.settle_some hs
  obtain ⟨hslow, hsrange⟩ := shift_eq (i := i') (by omega)
  rw [← hlow]
  refine ⟨⟨by omega, by omega, fun heq => ?_⟩, hslow, hsrange⟩
  rw [hslow, hsrange] at heq
  omega

end Interval

/-! ### Renormalisation -/

section Bytes
variable {i i' : Interval} {body out : Bytes} {k pos : ℕ}

/-- So many bytes are enough. Once the end of the interval is the end of all, it stays there, and
nothing is cut off any more. -/
def Enough (k : ℕ) (i : Interval) : Prop :=
  (∃ j, 2 ^ 24 ≤ i.range * 256 ^ j ∧ j + 4 ≤ k) ∨
    i.low + i.range = 2 ^ 32 ∧ ∃ j, 2 ^ 16 ≤ i.range * 256 ^ j ∧ j + 1 ≤ k

lemma enough_of_pos (h : 0 < i.range) (hk : 7 ≤ k) : Enough k i :=
  Or.inl ⟨3, by omega, hk⟩

lemma Enough.next (h : Enough (k + 1) i) (hi : i.Sound) (hs : i.settle = some i') :
    Enough k i'.shift := by
  obtain ⟨hlow, hpos, hle, hcases⟩ := hi.settle_some hs
  obtain ⟨-, hslow, hsrange⟩ := hi.shift_settle hs
  -- One byte less of the length is missing.
  have hnext (n j : ℕ) (hj : n ≤ i'.range * 256 ^ j) (hlt : i'.range < n) :
      ∃ j', j = j' + 1 ∧ n ≤ i'.shift.range * 256 ^ j' := by
    cases j with
    | zero => omega
    | succ j =>
      refine ⟨j, rfl, ?_⟩
      rwa [hsrange, Nat.mul_assoc, ← Nat.pow_succ']
  rcases hcases with ⟨rfl, hlt⟩ | ⟨heq, hshort, hsame⟩
  · rcases h with ⟨j, hj, hk⟩ | ⟨hend, j, hj, hk⟩
    · obtain ⟨j', rfl, hj'⟩ := hnext _ j hj (by omega)
      exact Or.inl ⟨j', hj', by omega⟩
    · have hlast := hi.last hend
      omega
  · have hend : i'.shift.low + i'.shift.range = 2 ^ 32 := by
      rw [hslow, hsrange, ← hlow]
      omega
    rcases h with ⟨j, hj, hk⟩ | ⟨hwas, j, hj, hk⟩
    · exact Or.inr ⟨hend, 1, by omega, by omega⟩
    · obtain rfl := hsame hwas
      obtain ⟨j', rfl, hj'⟩ := hnext _ j hj hshort
      exact Or.inr ⟨hend, j', hj', by omega⟩

/-- The bytes of a renormalisation, and what it leaves: a sound interval that is long enough. -/
lemma pushBytes_ok (h : i.Sound) (hk : Enough k i) :
    ∃ out i', pushBytes k i = .ok (out, i') ∧ i'.Sound ∧ 2 ^ 16 ≤ i'.range := by
  induction k generalizing i with
  | zero => rcases hk with ⟨j, -, hj⟩ | ⟨-, j, -, hj⟩ <;> omega
  | succ k ih =>
    rw [pushBytes]
    cases hs : i.settle with
    | none => exact ⟨[], i, rfl, h, Interval.le_range_of_settle_none hs⟩
    | some j =>
      obtain ⟨out, i', hpush, hi', hlong⟩ := ih (h.shift_settle hs).1 (hk.next h hs)
      exact ⟨_, i', by simp only [hpush]; rfl, hi', hlong⟩

/-- The other side goes through the same intervals, whatever the bytes are. -/
lemma pullBytes_ok (hpush : pushBytes k i = .ok (out, i')) (body : Bytes) (code bp : ℕ) :
    ∃ code' bp', pullBytes body k i code bp = .ok (i', code', bp') := by
  induction k generalizing i out code bp with
  | zero => cases hpush
  | succ k ih =>
    rw [pushBytes] at hpush
    rw [pullBytes]
    cases hs : i.settle with
    | none =>
      rw [hs] at hpush
      cases hpush
      exact ⟨code, bp, rfl⟩
    | some j =>
      rw [hs] at hpush
      obtain ⟨⟨out', i''⟩, hrest, hlast⟩ := bind_eq_ok.1 hpush
      cases hlast
      exact ih hrest _ _

/-! ### The number that follows -/

/-- The number of the four bytes from a position on. -/
def window (body : Bytes) (pos : ℕ) : ℕ :=
  next body pos * 2 ^ 24 + next body (pos + 1) * 2 ^ 16 + next body (pos + 2) * 2 ^ 8
    + next body (pos + 3)

lemma next_lt (body : Bytes) (pos : ℕ) : next body pos < 256 := UInt8.toNat_lt _

lemma window_lt (body : Bytes) (pos : ℕ) : window body pos < 2 ^ 32 := by
  have h₀ := next_lt body pos
  have h₁ := next_lt body (pos + 1)
  have h₂ := next_lt body (pos + 2)
  have h₃ := next_lt body (pos + 3)
  rw [window]
  omega

lemma window_eq (body : Bytes) (pos : ℕ) :
    window body pos = next body pos * 2 ^ 24 + window body (pos + 1) / 256 := by
  have h₄ := next_lt body (pos + 1 + 3)
  simp only [window, Nat.add_assoc, Nat.reduceAdd] at h₄ ⊢
  omega

lemma shiftCode_eq {code : ℕ} (bp : ℕ) :
    shiftCode body code bp = code % 2 ^ 24 * 256 + next body bp := by
  have hlt := next_lt body bp
  have hmod : (code <<< 8) % 2 ^ 32 = (code % 2 ^ 24) <<< 8 := by
    rw [Nat.shiftLeft_eq, Nat.shiftLeft_eq]
    omega
  rw [shiftCode, hmod, ← Nat.shiftLeft_add_eq_or_of_lt (show next body bp < 2 ^ 8 from hlt),
    Nat.shiftLeft_eq]

lemma shiftCode_window (body : Bytes) (pos : ℕ) :
    shiftCode body (window body pos) (pos + 4) = window body (pos + 1) := by
  have h₁ := next_lt body (pos + 1)
  have h₂ := next_lt body (pos + 2)
  have h₃ := next_lt body (pos + 3)
  rw [shiftCode_eq, window, window]
  simp only [Nat.add_assoc, Nat.reduceAdd]
  omega

lemma first_window (body : Bytes) : (List.range 4).foldl (shiftCode body) 0 = window body 0 := by
  have h₀ := next_lt body 0
  have h₁ := next_lt body 1
  have h₂ := next_lt body 2
  change shiftCode body (shiftCode body (shiftCode body (shiftCode body 0 0) 1) 2) 3 = _
  simp only [shiftCode_eq, window, Nat.zero_add]
  omega

/-- The number lies in the interval. -/
def Interval.Has (i : Interval) (v : ℕ) : Prop := i.low ≤ v ∧ v < i.low + i.range

lemma next_of_prefix {b : UInt8} (h : b :: out <+: body.drop pos) :
    next body pos = b.toNat ∧ out <+: body.drop (pos + 1) := by
  obtain ⟨z, hz⟩ := h
  have hget : body[pos]? = some b := by
    rw [← List.head?_drop, ← hz]
    rfl
  refine ⟨by rw [next, List.getD_eq_getElem?_getD, hget]; rfl, z, ?_⟩
  rw [← List.tail_drop, ← hz]
  rfl

/-- Where the bytes that were pushed are read, and what follows lies in the interval, the other
side comes out the same; and then the bytes lie in the interval before. -/
lemma pullBytes_push (h : i.Sound) (hpush : pushBytes k i = .ok (out, i'))
    (hout : out <+: body.drop pos) (hin : i'.Has (window body (pos + out.length))) :
    i.Has (window body pos) ∧ pullBytes body k i (window body pos) (pos + 4)
      = .ok (i', window body (pos + out.length), pos + out.length + 4) := by
  induction k generalizing i out pos with
  | zero => cases hpush
  | succ k ih =>
    rw [pushBytes] at hpush
    rw [pullBytes]
    cases hs : i.settle with
    | none =>
      rw [hs] at hpush
      cases hpush
      exact ⟨hin, rfl⟩
    | some j =>
      rw [hs] at hpush
      obtain ⟨⟨out', i''⟩, hrest, hlast⟩ := bind_eq_ok.1 hpush
      cases hlast
      obtain ⟨hlow, hpos, hle, hcases⟩ := h.settle_some hs
      obtain ⟨hshift, hslow, hsrange⟩ := h.shift_settle hs
      obtain ⟨hbyte, hout'⟩ := next_of_prefix hout
      have hplace : pos + (Interval.highByte j.low :: out').length = pos + 1 + out'.length := by
        rw [List.length_cons]
        omega
      rw [hplace] at hin ⊢
      obtain ⟨⟨hlo, hhi⟩, hpull⟩ := ih hshift hrest hout' hin
      have hend := h.le
      have hhigh : (Interval.highByte j.low).toNat = i.low / 2 ^ 24 := by
        rw [Interval.highByte, UInt8.toNat_ofNat', Nat.shiftRight_eq_div_pow, hlow]
        omega
      rw [hslow] at hlo hhi
      rw [hsrange] at hhi
      refine ⟨?_, ?_⟩
      · rw [Interval.Has, window_eq, hbyte, hhigh]
        omega
      · rw [← hpull, ← shiftCode_window, Nat.add_right_comm]

lemma flush_window {low : ℕ} (h : low < 2 ^ 32) (hout : flush 4 low <+: body.drop pos) :
    window body pos = low := by
  have hbyte (l : ℕ) (hl : l < 2 ^ 32) : (Interval.highByte l).toNat = l / 2 ^ 24 := by
    rw [Interval.highByte, UInt8.toNat_ofNat', Nat.shiftRight_eq_div_pow]
    omega
  obtain ⟨h₀, hout₁⟩ := next_of_prefix hout
  obtain ⟨h₁, hout₂⟩ := next_of_prefix hout₁
  obtain ⟨h₂, hout₃⟩ := next_of_prefix hout₂
  obtain ⟨h₃, -⟩ := next_of_prefix hout₃
  simp only [Nat.shiftLeft_eq] at h₀ h₁ h₂ h₃
  rw [hbyte _ h] at h₀
  rw [hbyte _ (Nat.mod_lt _ (by decide))] at h₁ h₂ h₃
  simp only [window, Nat.add_assoc, Nat.reduceAdd] at h₀ h₁ h₂ h₃ ⊢
  omega

end Bytes

/-! ### Symbols -/

section Symbols
variable {c c' : Coder} {k sym : ℕ} {body out input : Bytes} {pos : ℕ}

/-- What holds between two symbols. -/
structure Coder.Sound (c : Coder) : Prop where
  interval : c.interval.Sound
  long : 2 ^ 16 ≤ c.interval.range
  model : c.model.Sound

lemma Coder.start_sound : Coder.start.Sound :=
  ⟨Interval.start_sound, by decide, RangeModel.new_sound⟩

/-- One unit of the model is at least one number long. -/
lemma Coder.Sound.unit_pos (h : c.Sound) : 0 < c.interval.range / c.model.total := by
  have hlong := h.long
  have hsmall := h.model.small
  simp only [RC_MAX_TOTAL] at hsmall
  exact Nat.div_pos (by omega) h.model.total_pos

/-- The part of a symbol, before and after the interval is renormalised. -/
lemma Coder.Sound.symbol (h : c.Sound) (hsym : sym < 256) (hk : 7 ≤ k) :
    ∃ i out i' m, c.interval.narrow (c.interval.range / c.model.total) (c.model.cum sym)
        (c.model.freq.getD sym 0) = .ok i ∧ i.Sound ∧
      i.low = c.interval.low + c.model.cum sym * (c.interval.range / c.model.total) ∧
      i.range = c.interval.range / c.model.total * c.model.freq.getD sym 0 ∧
      pushBytes k i = .ok (out, i') ∧ c.model.update sym = .ok m ∧ Coder.Sound ⟨i', m⟩ := by
  obtain ⟨hfreq, hle⟩ := h.model.part hsym
  obtain ⟨i, hnarrow, hi, hlow, hrange⟩ := h.interval.narrow rfl h.unit_pos hfreq hle
  obtain ⟨out, i', hpush, hi', hlong⟩ := pushBytes_ok hi (enough_of_pos hi.pos hk)
  obtain ⟨m, hm, hsound⟩ := h.model.update hsym
  exact ⟨i, out, i', m, hnarrow, hi, hlow, hrange, hpush, hm, hi', hlong, hsound⟩

lemma Coder.Sound.div_total (h : c.Sound) :
    div32 c.interval.range c.model.total = .ok (c.interval.range / c.model.total) := by
  rw [div32, require_pos (Nat.pos_iff_ne_zero.1 h.model.total_pos)]
  rfl

lemma Coder.Sound.div_unit (h : c.Sound) (v : ℕ) :
    div32 v (c.interval.range / c.model.total) = .ok (v / (c.interval.range / c.model.total)) := by
  rw [div32, require_pos (Nat.pos_iff_ne_zero.1 h.unit_pos)]
  rfl

/-- A symbol is packed without a fault. -/
lemma Coder.Sound.encode (h : c.Sound) (hsym : sym < 256) (hk : 7 ≤ k) :
    ∃ out c', encodeSymbol k c sym = .ok (out, c') ∧ c'.Sound := by
  obtain ⟨i, out, i', m, hnarrow, -, -, -, hpush, hm, hsound⟩ := h.symbol hsym hk
  refine ⟨out, ⟨i', m⟩, ?_, hsound⟩
  simp only [encodeSymbol, h.div_total, ok_bind, hnarrow, hpush, hm]

/-- And a symbol is taken out without a fault, whatever the bytes are; the coder goes on as if this
symbol had been packed. -/
lemma Coder.Sound.decode (h : c.Sound) (hk : 7 ≤ k) (body : Bytes) (code bp : ℕ) :
    ∃ sym c' code' bp' out, decodeSymbol k body c code bp = .ok (sym, c', code', bp') ∧
      sym < 256 ∧ encodeSymbol k c sym = .ok (out, c') ∧ c'.Sound := by
  have htotal := h.model.total_pos
  have hlast : min (wrappingSub code c.interval.low / (c.interval.range / c.model.total))
      (c.model.total - 1) < c.model.total := by omega
  obtain ⟨sym, hsym, hfind, -⟩ := h.model.find_found hlast
  obtain ⟨i, out, i', m, hnarrow, -, -, -, hpush, hm, hsound⟩ := h.symbol hsym hk
  obtain ⟨code', bp', hpull⟩ := pullBytes_ok hpush body code bp
  refine ⟨sym, ⟨i', m⟩, code', bp', out, ?_, hsym, ?_, hsound⟩
  · simp only [decodeSymbol, h.div_total, h.div_unit, ok_bind, hfind, hnarrow, hpull, hm]
  · simp only [encodeSymbol, h.div_total, ok_bind, hnarrow, hpush, hm]

/-- Where the bytes of a symbol are read, and what follows lies in the interval, the symbol is
found; and then the bytes lie in the interval before. -/
lemma Coder.Sound.decode_encode (h : c.Sound) (hsym : sym < 256) (hk : 7 ≤ k)
    (henc : encodeSymbol k c sym = .ok (out, c')) (hout : out <+: body.drop pos)
    (hin : c'.interval.Has (window body (pos + out.length))) :
    c.interval.Has (window body pos) ∧ decodeSymbol k body c (window body pos) (pos + 4)
      = .ok (sym, c', window body (pos + out.length), pos + out.length + 4) := by
  obtain ⟨i, out', i', m, hnarrow, hi, hlow, hrange, hpush, hm, -⟩ := h.symbol hsym hk
  simp only [encodeSymbol, h.div_total, ok_bind, hnarrow, hpush, hm] at henc
  obtain ⟨rfl, rfl⟩ := Prod.mk.inj (Except.ok.inj henc)
  obtain ⟨⟨hlo, hhi⟩, hpull⟩ := pullBytes_push hi hpush hout hin
  obtain ⟨hfreq, hle⟩ := h.model.part hsym
  set unit := c.interval.range / c.model.total with hunit
  have hpos : 0 < unit := h.unit_pos
  have hdiv (v : ℕ) : div32 v unit = .ok (v / unit) := h.div_unit v
  have hunits : (c.model.cum sym + c.model.freq.getD sym 0) * unit ≤ c.interval.range := by
    calc (c.model.cum sym + c.model.freq.getD sym 0) * unit
        ≤ c.model.total * unit := Nat.mul_le_mul_right _ hle
      _ ≤ c.interval.range := by rw [hunit]; exact Nat.mul_div_le _ _
  rw [hlow] at hlo hhi
  rw [hrange, Nat.mul_comm unit] at hhi
  have hcum : c.model.cum sym * unit ≤ window body pos - c.interval.low := by omega
  have hnext : window body pos - c.interval.low
      < (c.model.cum sym + c.model.freq.getD sym 0) * unit := by
    rw [Nat.add_mul]
    omega
  -- The number is no less than `low`, so nothing wraps around.
  have hsub : wrappingSub (window body pos) c.interval.low = window body pos - c.interval.low := by
    have hlt := window_lt body pos
    rw [wrappingSub]
    omega
  have htarget₁ : c.model.cum sym ≤ (window body pos - c.interval.low) / unit :=
    (Nat.le_div_iff_mul_le hpos).2 hcum
  have htarget₂ : (window body pos - c.interval.low) / unit
      < c.model.cum sym + c.model.freq.getD sym 0 := (Nat.div_lt_iff_lt_mul hpos).2 hnext
  have hmin : min ((window body pos - c.interval.low) / unit) (c.model.total - 1)
      = (window body pos - c.interval.low) / unit :=
    Nat.min_eq_left (Nat.le_sub_one_of_lt (htarget₂.trans_le hle))
  have hend : window body pos < c.interval.low + c.interval.range := by
    refine hhi.trans_le ?_
    rw [Nat.add_assoc, ← Nat.add_mul]
    exact Nat.add_le_add_left hunits _
  refine ⟨⟨(Nat.le_add_right _ _).trans hlo, hend⟩, ?_⟩
  simp only [decodeSymbol, h.div_total, ← hunit, hdiv, ok_bind, hsub, hmin,
    h.model.find_eq hsym htarget₁ htarget₂, hnarrow, hpull, hm]

/-- All symbols are packed without a fault. -/
lemma encodeSymbols_ok (h : c.Sound) (hk : 7 ≤ k) (input : Bytes) :
    ∃ out, encodeSymbols k c input = .ok out := by
  induction input generalizing c with
  | nil => exact ⟨_, rfl⟩
  | cons b input ih =>
    obtain ⟨out, c', henc, hc'⟩ := h.encode (UInt8.toNat_lt b) hk
    obtain ⟨rest, hrest⟩ := ih hc'
    exact ⟨out ++ rest, by simp only [encodeSymbols, henc, ok_bind, hrest]⟩

lemma decodeSymbols_ok (h : c.Sound) (hk : 7 ≤ k) (body : Bytes) (n code bp : ℕ) :
    ∃ out, decodeSymbols k body n c code bp = .ok out := by
  induction n generalizing c code bp with
  | zero => exact ⟨_, rfl⟩
  | succ n ih =>
    obtain ⟨sym, c', code', bp', -, hdec, -, -, hc'⟩ := h.decode hk body code bp
    obtain ⟨rest, hrest⟩ := ih hc' code' bp'
    exact ⟨UInt8.ofNat sym :: rest, by simp only [decodeSymbols, hdec, ok_bind, hrest]⟩

lemma rcCompress_ok (hk : 7 ≤ k) (input : Bytes) : ∃ r, rcCompress k input = .ok r := by
  rw [rcCompress]
  split_ifs
  · exact ⟨_, rfl⟩
  · obtain ⟨out, hout⟩ := encodeSymbols_ok Coder.start_sound hk input
    exact ⟨_, by rw [hout]; rfl⟩

lemma rcDecompress_ok (hk : 7 ≤ k) (data : Bytes) : ∃ r, rcDecompress k data = .ok r := by
  rw [rcDecompress]
  cases hvarint : takeVarint data 0 with
  | none => exact ⟨none, rfl⟩
  | some p =>
    obtain ⟨n, pos⟩ := p
    obtain ⟨out, hout⟩ := decodeSymbols_ok Coder.start_sound hk (data.drop pos) n
      ((List.range 4).foldl (shiftCode (data.drop pos)) 0) 4
    exact ⟨some out, by simp only [hout]; rfl⟩

/-- What was packed is taken out again. -/
lemma decodeSymbols_encode (h : c.Sound) (hk : 7 ≤ k)
    (henc : encodeSymbols k c input = .ok out) (hout : out <+: body.drop pos) :
    c.interval.Has (window body pos) ∧
      decodeSymbols k body input.length c (window body pos) (pos + 4) = .ok input := by
  induction input generalizing c out pos with
  | nil =>
    cases henc
    have hlast := h.interval.last
    have hle := h.interval.le
    have hpos := h.interval.pos
    have hlow : c.interval.low < 2 ^ 32 := by omega
    rw [flush_window hlow hout]
    exact ⟨⟨le_refl _, by omega⟩, rfl⟩
  | cons b input ih =>
    obtain ⟨⟨out₁, c'⟩, hfirst, henc⟩ := bind_eq_ok.1 henc
    obtain ⟨rest, hrest, hlast⟩ := bind_eq_ok.1 henc
    obtain rfl : out₁ ++ rest = out := Except.ok.inj hlast
    obtain ⟨out', c'', hfirst', hc'⟩ := h.encode (UInt8.toNat_lt b) hk
    rw [hfirst] at hfirst'
    obtain ⟨rfl, rfl⟩ := Prod.mk.inj (Except.ok.inj hfirst')
    have hout₁ : out₁ <+: body.drop pos := (List.prefix_append _ _).trans hout
    have hrest' : rest <+: body.drop (pos + out₁.length) := by
      rw [← List.drop_drop]
      obtain ⟨z, hz⟩ := hout
      exact ⟨z, by rw [← hz, List.append_assoc, List.drop_left]⟩
    obtain ⟨hin, hdec⟩ := ih hc' hrest hrest'
    obtain ⟨hhas, hsymbol⟩ := h.decode_encode (UInt8.toNat_lt b) hk hfirst hout₁ hin
    refine ⟨hhas, ?_⟩
    simp only [List.length_cons, decodeSymbols, hsymbol, ok_bind, hdec, UInt8.ofNat_toNat]

/-- A coder that one side or the other comes to, from symbol to symbol. -/
inductive Reached (k : ℕ) : Coder → Prop
  | start : Reached k .start
  | packed {c c' : Coder} {sym : UInt8} {out : Bytes} (h : Reached k c)
      (hstep : encodeSymbol k c sym.toNat = .ok (out, c')) : Reached k c'
  | unpacked {c c' : Coder} {body : Bytes} {code bp sym code' bp' : ℕ} (h : Reached k c)
      (hstep : decodeSymbol k body c code bp = .ok (sym, c', code', bp')) : Reached k c'

lemma Reached.sound (h : Reached k c) (hk : 7 ≤ k) : c.Sound := by
  induction h with
  | start => exact Coder.start_sound
  | @packed c c' sym out _ hstep ih =>
    obtain ⟨out', c'', hstep', hsound⟩ := ih.encode (UInt8.toNat_lt sym) hk
    rw [hstep] at hstep'
    cases hstep'
    exact hsound
  | @unpacked c c' body code bp sym code' bp' _ hstep ih =>
    obtain ⟨sym', c'', code'', bp'', -, hstep', -, -, hsound⟩ := ih.decode hk body code bp
    rw [hstep] at hstep'
    cases hstep'
    exact hsound

end Symbols

/-- What is packed comes out again. Neither side has a fault, on any input, and a renormalisation
ends after six bytes at most; wherever one of them comes to, a unit of the model is at least one
number long. -/
theorem range_coder_exact {k : ℕ} (hk : 7 ≤ k) :
    (∀ input : Bytes, input.length < 2 ^ 64 → ∃ r, rcCompress k input = .ok r ∧
      ∀ data, r = some data → rcDecompress k data = .ok (some input)) ∧
    (∀ data : Bytes, ∃ r, rcDecompress k data = .ok r) ∧
    ∀ c, Reached k c → 1 ≤ c.interval.range / c.model.total ∧
      (∀ sym : UInt8, ∃ r, encodeSymbol k c sym.toNat = .ok r) ∧
      ∀ body code bp, ∃ r, decodeSymbol k body c code bp = .ok r := by
  refine ⟨fun input hlen => ?_, rcDecompress_ok hk, fun c hc => ?_⟩
  · obtain ⟨r, hr⟩ := rcCompress_ok hk input
    refine ⟨r, hr, fun data hdata => ?_⟩
    rw [rcCompress] at hr
    split_ifs at hr
    · cases hr
      cases hdata
    · obtain ⟨out, hout, hlast⟩ := bind_eq_ok.1 hr
      rw [hdata, Except.ok.injEq] at hlast
      split_ifs at hlast
      obtain rfl := Option.some.inj hlast
      have hvarint := takeVarint_put [] out rfl hlen
      rw [List.nil_append, List.length_nil, Nat.zero_add, ← length_putVarint hlen] at hvarint
      obtain ⟨-, hdec⟩ := decodeSymbols_encode Coder.start_sound hk hout
        (List.drop_zero (l := out) ▸ List.prefix_refl out)
      rw [rcDecompress, hvarint]
      simp only [List.drop_left, first_window]
      rw [hdec]
      rfl
  · have hsound := hc.sound hk
    refine ⟨hsound.unit_pos, fun sym => ?_, fun body code bp => ?_⟩
    · obtain ⟨out, c', henc, -⟩ := hsound.encode (UInt8.toNat_lt sym) hk
      exact ⟨_, henc⟩
    · obtain ⟨sym, c', code', bp', -, hdec, -⟩ := hsound.decode hk body code bp
      exact ⟨_, hdec⟩

/-- A run of one byte is packed into fewer. -/
def sevens : Bytes := List.replicate 64 7

theorem range_coder_exact_sevens :
    (∃ data, rcCompress 7 sevens = .ok (some data) ∧ data.length < 32 ∧
      rcDecompress 7 data = .ok (some sevens)) ∧
    ∃ r, rcDecompress 7 [200, 1, 255, 255, 255, 255, 255] = .ok r := by
  obtain ⟨hexact, htotal, -⟩ := range_coder_exact (le_refl 7)
  have hshort : sevens.length < 2 ^ 64 := by decide
  obtain ⟨r, hr, hback⟩ := hexact sevens hshort
  have hrun : (rcCompress 7 sevens).toOption.map (fun r => r.any fun data => data.length < 32)
      = some true := by decide +kernel
  rw [hr] at hrun
  obtain ⟨data, rfl, hlen⟩ := (Option.any_eq_true _ _).1 (Option.some.inj hrun)
  exact ⟨⟨data, hr, of_decide_eq_true hlen, hback data rfl⟩, htotal _⟩

end Arkeion.RangeCoder
