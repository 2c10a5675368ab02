import Arkeion.Lib.Ranking
import Arkeion.Sql.Order
import Arkeion.Sql.Recursive

/-!
The places of rows in their partition: ranks, tiles and frames.

The engine takes rows for peers when their keys are the same value by value, and orders them by
comparison. Ranks are by definition what the order alone says.
-/

namespace Arkeion.Sql

open Arkeion.Lib Catalog

/-! ### Keys in the order of the window -/

section Keys
variable {B : Builtins} {descs : List Bool} {a b c : Value} {ks ks' ks'' : List Value}
  {o : Ordering}

/-- The keys come strictly before the others. -/
def KeysBefore (B : Builtins) (descs : List Bool) (a b : List Value) : Prop :=
  (cmpKeys B descs a b).toOption = some .lt

instance (B : Builtins) (descs : List Bool) : DecidableRel (KeysBefore B descs) :=
  fun _ _ => inferInstanceAs (Decidable (_ = _))

def SameKeys (a b : List Value) : Prop := Row.same a b = true

instance : DecidableRel SameKeys := fun _ _ => inferInstanceAs (Decidable (_ = _))

lemma partialCmp_same {x y z : F64} (hnan : ¬ (x.IsNaN ∨ y.IsNaN)) (hrank : x.rank = y.rank) :
    x.partialCmp z = y.partialCmp z ∧ z.partialCmp x = z.partialCmp y := by
  obtain ⟨hx, hy⟩ := not_or.1 hnan
  simp only [F64.partialCmp, hx, hy, hrank, and_self]

/-- Values that are the same compare alike. -/
lemma cmp_same (h : Value.same a b = true) :
    cmpNullsFirst B a c = cmpNullsFirst B b c ∧ cmpNullsFirst B c a = cmpNullsFirst B c b := by
  rcases value_same_iff.1 h with ⟨x, y, rfl, rfl, hnan, hrank⟩ | ⟨rfl, -⟩
  · cases c <;> simp only [cmpNullsFirst, cmpValues, (partialCmp_same hnan hrank).1,
      (partialCmp_same hnan hrank).2, Value.typeName, and_self]
  · exact ⟨rfl, rfl⟩

lemma row_same_symm {a b : Row} (h : Row.same a b = true) : Row.same b a = true :=
  row_same_iff.2 ((row_same_iff.1 h).flip.imp fun _ _ => value_same_symm)

lemma cmpKeys_same (h : Row.same ks ks' = true) :
    cmpKeys B descs ks ks'' = cmpKeys B descs ks' ks'' ∧
      cmpKeys B descs ks'' ks = cmpKeys B descs ks'' ks' := by
  have hall := row_same_iff.1 h
  clear h
  induction hall generalizing descs ks'' with
  | nil => exact ⟨rfl, rfl⟩
  | cons hv _ ih =>
    cases descs with
    | nil => exact ⟨by simp only [cmpKeys], by simp only [cmpKeys]⟩
    | cons d descs =>
      cases ks'' with
      | nil => exact ⟨by simp only [cmpKeys], by simp only [cmpKeys]⟩
      | cons c ks'' =>
        obtain ⟨hleft, hright⟩ := @ih descs ks''
        simp only [cmpKeys, (cmp_same hv).1, (cmp_same hv).2, hleft, hright, and_self]

lemma cmpKeys_swap (h : cmpKeys B descs ks ks' = .ok o) :
    cmpKeys B descs ks' ks = .ok o.swap := by
  induction descs generalizing ks ks' with
  | nil =>
    simp only [cmpKeys, Except.ok.injEq] at h ⊢
    rw [← h]
    rfl
  | cons d descs ih =>
    cases ks with
    | nil =>
      cases ks' <;> simp only [cmpKeys, Except.ok.injEq] at h ⊢ <;> rw [← h] <;> rfl
    | cons a ks =>
      cases ks' with
      | nil =>
        simp only [cmpKeys, Except.ok.injEq] at h ⊢
        rw [← h]
        rfl
      | cons b ks' =>
        rw [cmpKeys] at h ⊢
        obtain ⟨u, hu, h⟩ := bind_eq_ok.1 h
        rw [cmp_swap hu, ok_bind]
        by_cases hueq : u = .eq
        · rw [if_pos hueq] at h
          rw [if_pos (by rw [hueq]; rfl)]
          exact ih h
        · rw [if_neg hueq] at h
          rw [if_neg (by cases u <;> simp_all)]
          cases d <;> cases h <;> rfl

lemma keys_peers : Peers SameKeys (KeysBefore B descs) where
  symm := row_same_symm
  trans := row_same_trans
  asymm := fun h h' => by
    have hswap := cmpKeys_swap (toOption_eq_some.1 h)
    rw [toOption_eq_some.1 h'] at hswap
    cases hswap
  left := fun h h' => by
    unfold KeysBefore at h' ⊢
    rwa [← (cmpKeys_same h).1]
  right := fun h h' => by
    unfold KeysBefore at h' ⊢
    rwa [← (cmpKeys_same h).2]

end Keys

/-! ### Ranks -/

section Ranks
variable (B : Builtins) (descs : List Bool) (keys : List (List Value))

/-- The keys by their places. -/
def keyAt (k : ℕ) : List Value := keys.getD k []

/-- One more than the rows strictly before the row `k`. -/
def rankByOrder (k : ℕ) : ℕ := (smaller (KeysBefore B descs) (keyAt keys) keys.length k).card + 1

/-- One more than the different keys before that of the row `k`. -/
def denseRankByOrder (k : ℕ) : ℕ :=
  (kindsBelow (KeysBefore B descs) (keyAt keys) keys.length k).card + 1

/-- Of any two rows the first has the same keys as the second or comes strictly before it. -/
def KeysAscend : Prop := Ascending SameKeys (KeysBefore B descs) (keyAt keys) keys.length

/-- What the engine counts up along the rows. -/
def rankByRuns (dense : Bool) (k : ℕ) : ℕ :=
  if dense then runsUpTo SameKeys (keyAt keys) k else runStart SameKeys (keyAt keys) k + 1

variable {B descs keys}

lemma rankByRuns_zero {dense : Bool} : rankByRuns keys dense 0 = 1 := by
  unfold rankByRuns
  split_ifs
  · exact runsUpTo_zero
  · rfl

lemma rankByRuns_succ {dense : Bool} {k : ℕ} : rankByRuns keys dense (k + 1)
    = if SameKeys (keyAt keys k) (keyAt keys (k + 1)) then rankByRuns keys dense k
      else if dense then rankByRuns keys dense k + 1 else k + 2 := by
  have hfresh : Fresh SameKeys (keyAt keys) (k + 1)
      ↔ ¬ SameKeys (keyAt keys k) (keyAt keys (k + 1)) := by
    simp [Fresh]
  unfold rankByRuns
  rw [runsUpTo_succ, runStart_succ]
  simp only [hfresh]
  split_ifs <;> rfl

/-- Along the rows, from a place on: the rank so far is that of the row before. -/
lemma ranksOf_from {dense : Bool} {rest : List (List Value)} {k : ℕ} (h : keys.drop k = rest) :
    ranksOf dense true rest k (if k = 0 then 0 else rankByRuns keys dense (k - 1))
        (if k = 0 then none else some (keyAt keys (k - 1)))
      = (List.range' k rest.length).map fun j =>
          .integer (Int64.ofNat (rankByRuns keys dense j)) := by
  induction rest generalizing k with
  | nil => rfl
  | cons key rest ih =>
    have hkey : keyAt keys k = key := by
      rw [keyAt, List.getD_eq_getElem?_getD, ← List.head?_drop, h]
      rfl
    have hrest := ih (k := k + 1) (by rw [← List.drop_drop, h]; rfl)
    rw [if_neg (Nat.succ_ne_zero k), if_neg (Nat.succ_ne_zero k), Nat.add_sub_cancel, hkey] at hrest
    rw [ranksOf, List.length_cons, List.range'_succ, List.map_cons, ← hrest]
    have hrank : rankByRuns keys dense k = (if (!true || !Option.any (Row.same key)
          (if k = 0 then none else some (keyAt keys (k - 1)))) = true then
        if dense = true then (if k = 0 then 0 else rankByRuns keys dense (k - 1)) + 1 else k + 1
        else if k = 0 then 0 else rankByRuns keys dense (k - 1)) := by
      cases k with
      | zero =>
        rw [rankByRuns_zero]
        cases dense <;> rfl
      | succ k =>
        have hsame : SameKeys (keyAt keys k) (keyAt keys (k + 1))
            ↔ Row.same key (keyAt keys k) = true := by
          rw [hkey]
          exact ⟨row_same_symm, row_same_symm⟩
        rw [rankByRuns_succ]
        simp only [hsame, Nat.succ_ne_zero, if_false, Nat.add_sub_cancel, Option.any_some,
          Bool.not_true, Bool.false_or, Bool.not_eq_true']
        cases Row.same key (keyAt keys k) <;> rfl
    simp only [← hrank]

/-- The ranks of the engine are those by runs. -/
lemma ranksOf_eq {dense : Bool} : ranksOf dense true keys 0 0 none
    = (List.range keys.length).map fun k => .integer (Int64.ofNat (rankByRuns keys dense k)) := by
  rw [List.range_eq_range']
  exact ranksOf_from rfl

/-- Without an order every row begins a run. -/
lemma ranksOf_unordered {dense : Bool} (k : ℕ) (prev : Option (List Value)) :
    ranksOf dense false keys k k prev
      = (List.range' k keys.length).map fun j => .integer (Int64.ofNat (j + 1)) := by
  induction keys generalizing k prev with
  | nil => rfl
  | cons key keys ih =>
    rw [ranksOf, List.length_cons, List.range'_succ, List.map_cons]
    simp only [Bool.not_false, Bool.true_or, if_true, ite_self]
    rw [ih]

lemma int64_ofNat_inj {a b : ℕ} (ha : a < 2 ^ 64) (hb : b < 2 ^ 64) :
    Int64.ofNat a = Int64.ofNat b ↔ a = b := by
  refine ⟨fun h => ?_, fun h => by rw [h]⟩
  have hbits := congrArg (fun i => i.toBitVec.toNat) h
  simp only [Int64.toBitVec_ofNat', BitVec.toNat_ofNat] at hbits
  rwa [Nat.mod_eq_of_lt ha, Nat.mod_eq_of_lt hb] at hbits

/-- Lists of integers by their places. -/
lemma map_integers_inj {m : ℕ} {f g : ℕ → ℕ} (hf : ∀ k < m, f k < 2 ^ 64)
    (hg : ∀ k < m, g k < 2 ^ 64) :
    (List.range m).map (fun k => Value.integer (Int64.ofNat (f k)))
        = (List.range m).map (fun k => .integer (Int64.ofNat (g k))) ↔ ∀ k < m, f k = g k := by
  rw [List.map_inj_left]
  refine forall_congr' fun k => ?_
  rw [List.mem_range]
  refine forall_congr' fun hk => ?_
  rw [Value.integer.injEq, int64_ofNat_inj (hf k hk) (hg k hk)]

lemma runsUpTo_le (k : ℕ) : runsUpTo SameKeys (keyAt keys) k ≤ k + 1 :=
  (Finset.card_filter_le _ _).trans_eq (Finset.card_range _)

lemma rankByRuns_le {dense : Bool} (k : ℕ) : rankByRuns keys dense k ≤ k + 1 := by
  unfold rankByRuns
  split_ifs
  · exact runsUpTo_le k
  · exact Nat.succ_le_succ runStart_le

lemma smaller_card_le (k : ℕ) :
    (smaller (KeysBefore B descs) (keyAt keys) keys.length k).card ≤ keys.length :=
  (Finset.card_filter_le _ _).trans_eq (Finset.card_range _)

lemma kindsBelow_card_le (k : ℕ) :
    (kindsBelow (KeysBefore B descs) (keyAt keys) keys.length k).card ≤ keys.length :=
  (Finset.card_filter_le _ _).trans (smaller_card_le k)

lemma smaller_unordered (k : ℕ) : smaller (KeysBefore B []) (keyAt keys) keys.length k = ∅ := by
  refine Finset.filter_eq_empty_iff.2 fun j _ hlt => ?_
  have heq := toOption_eq_some.1 hlt
  simp [cmpKeys] at heq

/-- The ranks of the order, with or without gaps. -/
def rankOf (B : Builtins) (descs : List Bool) (keys : List (List Value)) (dense : Bool) (k : ℕ) : ℕ :=
  if dense then denseRankByOrder B descs keys k else rankByOrder B descs keys k

lemma rankOf_le {dense : Bool} (k : ℕ) : rankOf B descs keys dense k ≤ keys.length + 1 := by
  unfold rankOf denseRankByOrder rankByOrder
  split_ifs
  · exact Nat.succ_le_succ (kindsBelow_card_le k)
  · exact Nat.succ_le_succ (smaller_card_le k)

lemma rankOf_unordered {dense : Bool} (k : ℕ) : rankOf B [] keys dense k = 1 := by
  unfold rankOf denseRankByOrder rankByOrder kindsBelow
  rw [smaller_unordered]
  cases dense <;> rfl

lemma rankOf_iff {dense : Bool} : (∀ k < keys.length,
    rankByRuns keys dense k = rankOf B descs keys dense k) ↔ KeysAscend B descs keys := by
  cases dense with
  | true =>
    refine Iff.trans ?_ (denseRank_iff keys_peers keys.length)
    exact forall_congr' fun k => forall_congr' fun _ => eq_comm
  | false =>
    refine Iff.trans ?_ (rank_iff keys_peers keys.length)
    exact forall_congr' fun k => forall_congr' fun _ => Nat.succ_inj.trans eq_comm

variable (B descs keys) in
/-- The ranks of the engine are those of the order if ties are the same keys, and without an order
if there is one row at most. -/
theorem ranks_exact (hlen : keys.length < 2 ^ 63) (dense : Bool) :
    ranksOf dense (!descs.isEmpty) keys 0 0 none
        = (List.range keys.length).map (fun k =>
            .integer (Int64.ofNat (rankOf B descs keys dense k)))
      ↔ if descs.isEmpty then keys.length ≤ 1 else KeysAscend B descs keys := by
  have hsmall : ∀ k < keys.length, rankOf B descs keys dense k < 2 ^ 64 := fun k _ => by
    have hle : rankOf B descs keys dense k ≤ keys.length + 1 := rankOf_le k
    omega
  cases descs with
  | nil =>
    rw [List.isEmpty_nil, if_pos rfl]
    have hruns : ranksOf dense false keys 0 0 none = (List.range' 0 keys.length).map fun j =>
        .integer (Int64.ofNat (j + 1)) := ranksOf_unordered 0 none
    rw [← List.range_eq_range'] at hruns
    rw [Bool.not_true, hruns, map_integers_inj (fun k hk => by omega) hsmall]
    simp only [rankOf_unordered]
    constructor
    · intro h
      by_contra hgt
      have hone := h 1 (by omega)
      omega
    · intro h k hk
      omega
  | cons d descs =>
    rw [List.isEmpty_cons, Bool.not_false, if_neg Bool.false_ne_true, ranksOf_eq, map_integers_inj _ hsmall]
    · exact rankOf_iff
    · intro k hk
      have hle : rankByRuns keys dense k ≤ k + 1 := rankByRuns_le k
      omega

end Ranks

/-! ### Tiles -/

section Tiles

/-- The rows of a tile. -/
def tileSize (m : ℕ) (tile : ℕ → ℕ) (t : ℕ) : ℕ :=
  ((Finset.range m).filter fun p => tile p = t).card

/-- The tiles of `m` rows in `k`: they rise from one on, each has a row, and the first are larger by
one at most. -/
structure Tiles (k m : ℕ) (tile : ℕ → ℕ) : Prop where
  mono : ∀ p q, p ≤ q → q < m → tile p ≤ tile q
  range : ∀ t, (∃ p < m, tile p = t) ↔ 1 ≤ t ∧ t ≤ min k m
  sizes : ∀ t u, 1 ≤ t → t ≤ u → u ≤ min k m →
    tileSize m tile u ≤ tileSize m tile t ∧ tileSize m tile t ≤ tileSize m tile u + 1

/-- The rows of the first `t` tiles. -/
def tileCut (m k t : ℕ) : ℕ := t * (m / k) + min t (m % k)

variable {m k p t u : ℕ}

lemma tileCut_succ : tileCut m k (t + 1) = tileCut m k t + (m / k + if t < m % k then 1 else 0) := by
  unfold tileCut
  rw [Nat.succ_mul]
  split_ifs with h <;> omega

lemma tileCut_mono (h : t ≤ u) : tileCut m k t ≤ tileCut m k u := by
  induction u, h using Nat.le_induction with
  | base => exact le_rfl
  | succ u _ ih =>
    rw [tileCut_succ]
    exact ih.trans (Nat.le_add_right _ _)

lemma tileCut_all (hk : 0 < k) : tileCut m k k = m := by
  have hrem := Nat.mod_lt m hk
  unfold tileCut
  rw [Nat.min_eq_right hrem.le]
  exact Nat.div_add_mod m k

lemma min_le_tileCut : min t m ≤ tileCut m k t := by
  unfold tileCut
  rcases Nat.eq_zero_or_pos (m / k) with hbase | hbase
  · have hdiv := Nat.div_add_mod m k
    rw [hbase, Nat.mul_zero, Nat.zero_add] at hdiv
    rw [hbase, hdiv, Nat.mul_zero, Nat.zero_add]
  · have hmul : t ≤ t * (m / k) := Nat.le_mul_of_pos_right t hbase
    omega

lemma quotient_iff {b : ℕ} (hb : 0 < b) : p / b = t ↔ t * b ≤ p ∧ p < (t + 1) * b := by
  rw [← Nat.le_div_iff_mul_le hb, ← Nat.div_lt_iff_lt_mul hb]
  omega

lemma tileOf_eq_iff (hk : 0 < k) (hp : p < m) :
    tileOf m k p = t + 1 ↔ tileCut m k t ≤ p ∧ p < tileCut m k (t + 1) := by
  have hdiv := Nat.div_add_mod m k
  have hrem := Nat.mod_lt m hk
  unfold tileOf tileCut
  generalize hbase : m / k = base at hdiv ⊢
  generalize hr : m % k = rem at hdiv hrem ⊢
  simp only []
  split_ifs with hbig
  · rw [Nat.add_right_cancel_iff, quotient_iff (Nat.succ_pos base)]
    rcases Nat.lt_or_ge t rem with hlt | hge
    · rw [Nat.min_eq_left hlt.le, Nat.min_eq_left (by omega)]
      constructor <;> rintro ⟨h, h'⟩ <;> constructor <;> nlinarith
    · obtain ⟨s, rfl⟩ := Nat.exists_eq_add_of_le hge
      constructor <;> rintro ⟨h, h'⟩ <;> exfalso
      · nlinarith
      · rw [Nat.min_eq_right hge] at h
        nlinarith
  · have hpos : 0 < base := by
      rcases Nat.eq_zero_or_pos base with rfl | hpos
      · omega
      · exact hpos
    rw [Nat.max_eq_left hpos]
    rcases Nat.lt_or_ge t rem with hlt | hge
    · rw [Nat.min_eq_left (by omega : t + 1 ≤ rem)]
      constructor
      · intro h
        have hge : rem ≤ t := by
          rw [← Nat.succ.inj h]
          exact Nat.le_add_right _ _
        omega
      · rintro ⟨-, h⟩
        exfalso
        nlinarith
    · obtain ⟨s, rfl⟩ := Nat.exists_eq_add_of_le hge
      have hquot : rem + (p - (base + 1) * rem) / base + 1 = rem + s + 1
          ↔ (p - (base + 1) * rem) / base = s := by omega
      rw [hquot, quotient_iff hpos, Nat.min_eq_right hge, Nat.min_eq_right (by omega)]
      have hsub : p - (base + 1) * rem + (base + 1) * rem = p := Nat.sub_add_cancel (by omega)
      constructor <;> rintro ⟨h, h'⟩ <;> constructor <;> nlinarith

lemma tileOf_pos : 1 ≤ tileOf m k p := by
  unfold tileOf
  simp only []
  split_ifs
  · exact Nat.le_add_left 1 _
  · exact Nat.le_add_left 1 _

lemma tileSize_eq (hk : 0 < k) (ht : t < min k m) :
    tileSize m (tileOf m k) (t + 1) = m / k + if t < m % k then 1 else 0 := by
  have hall : (Finset.range m).filter (fun p => tileOf m k p = t + 1)
      = Finset.Ico (tileCut m k t) (tileCut m k (t + 1)) := by
    ext p
    rw [Finset.mem_filter, Finset.mem_range, Finset.mem_Ico]
    refine ⟨fun ⟨hp, h⟩ => (tileOf_eq_iff hk hp).1 h, fun h => ?_⟩
    have hp : p < m := by
      have hle := tileCut_mono (m := m) (k := k) (show t + 1 ≤ k by omega)
      rw [tileCut_all hk] at hle
      omega
    exact ⟨hp, (tileOf_eq_iff hk hp).2 h⟩
  rw [tileSize, hall, Nat.card_Ico, tileCut_succ, Nat.add_sub_cancel_left]

/-- The tiles of the engine. -/
lemma tileOf_tiles (hk : 0 < k) : Tiles k m (tileOf m k) where
  mono := fun p q hpq hq => by
    obtain ⟨t, ht⟩ := Nat.exists_eq_add_of_le' (tileOf_pos (m := m) (k := k) (p := p))
    obtain ⟨u, hu⟩ := Nat.exists_eq_add_of_le' (tileOf_pos (m := m) (k := k) (p := q))
    have hp := (tileOf_eq_iff hk (hpq.trans_lt hq)).1 ht
    have hq' := (tileOf_eq_iff hk hq).1 hu
    rw [ht, hu]
    by_contra hlt
    have hcut := tileCut_mono (m := m) (k := k) (show u + 1 ≤ t by omega)
    omega
  range := fun t => by
    constructor
    · rintro ⟨p, hp, rfl⟩
      refine ⟨tileOf_pos, ?_⟩
      obtain ⟨t, ht⟩ := Nat.exists_eq_add_of_le' (tileOf_pos (m := m) (k := k) (p := p))
      obtain ⟨hcut, -⟩ := (tileOf_eq_iff hk hp).1 ht
      have hmin := min_le_tileCut (m := m) (k := k) (t := t)
      have htk : t < k := by
        by_contra hge
        have hle := tileCut_mono (m := m) (k := k) (Nat.le_of_not_lt hge)
        rw [tileCut_all hk] at hle
        omega
      omega
    · rintro ⟨hpos, hle⟩
      obtain ⟨s, rfl⟩ := Nat.exists_eq_add_of_le' hpos
      have hsize := tileSize_eq (m := m) hk (show s < min k m by omega)
      have hnonempty : 0 < m / k + if s < m % k then 1 else 0 := by
        rcases Nat.eq_zero_or_pos (m / k) with hbase | hbase
        · have hdiv := Nat.div_add_mod m k
          rw [hbase, Nat.mul_zero, Nat.zero_add] at hdiv
          rw [if_pos (by omega)]
          omega
        · omega
      rw [← hsize, tileSize, Finset.card_pos] at hnonempty
      obtain ⟨p, hp⟩ := hnonempty
      obtain ⟨hp, htile⟩ := Finset.mem_filter.1 hp
      exact ⟨p, Finset.mem_range.1 hp, htile⟩
  sizes := fun t u ht htu hu => by
    obtain ⟨t, rfl⟩ := Nat.exists_eq_add_of_le' ht
    obtain ⟨u, rfl⟩ := Nat.exists_eq_add_of_le' (ht.trans htu)
    rw [tileSize_eq hk (by omega), tileSize_eq hk (by omega)]
    split_ifs <;> omega

end Tiles

end Arkeion.Sql
