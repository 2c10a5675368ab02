import Arkeion.EccCorrect

/-!
Pages of any length: each block of data has its own parity, and each is corrected on its own.
-/

namespace Arkeion.ReedSolomon

open Arkeion.Lib

/-- A block of a page, with its parity. -/
def blockOf (data parity : Bytes) (nsym i : ℕ) : Bytes :=
  sub data (i * dataPerBlock nsym) (dataPerBlock nsym) ++ sub parity (i * nsym) nsym

section Chunks
variable {k n nsym : ℕ} {data parity d : Bytes}

lemma divCeil_pos {a : ℕ} (hk : 0 < k) (ha : 0 < a) : divCeil a k = 1 + divCeil (a - k) k := by
  rw [divCeil, divCeil]
  rcases Nat.lt_or_ge a k with h | h
  · have hdiv : (a + (k - 1)) / k = 1 := by
      rw [show a + (k - 1) = a - 1 + k by omega, Nat.add_div_right _ hk,
        Nat.div_eq_of_lt (by omega)]
    rw [hdiv, Nat.sub_eq_zero_of_le h.le, Nat.div_eq_of_lt (by omega)]
  · rw [show a + (k - 1) = a - k + (k - 1) + k by omega, Nat.add_div_right _ hk, Nat.add_comm]

lemma divCeil_zero (hk : 0 < k) : divCeil 0 k = 0 := Nat.div_eq_of_lt (by omega)

lemma chunksOf_cons (h : data ≠ []) :
    chunksOf k (n + 1) data = data.take k :: chunksOf k n (data.drop k) := by
  cases data with
  | nil => exact absurd rfl h
  | cons a data => rfl

lemma sub_zero_len (data : Bytes) (k : ℕ) : sub data (0 * k) k = data.take k := by
  rw [Nat.zero_mul, sub, List.drop_zero]

lemma sub_succ (data : Bytes) (k i : ℕ) :
    sub data ((i + 1) * k) k = sub (data.drop k) (i * k) k := by
  rw [sub, sub, List.drop_drop, Nat.succ_mul, Nat.add_comm]

lemma sub_drop_parity (p : Bytes) (i j nsym : ℕ) :
    sub p ((i + 1 + j) * nsym) nsym = sub p ((i + (j + 1)) * nsym) nsym := by
  rw [Nat.add_right_comm, Nat.add_assoc]

/-- Whether a block is there is seen on what follows the first. -/
lemma index_succ {i : ℕ} :
    (i + 1) * k < data.length ↔ i * k < (data.drop k).length := by
  rw [List.length_drop, Nat.succ_mul]
  omega

/-- The parity, block after block. -/
lemma length_parity_chunks (hk : 0 < k) (h : data.length ≤ n) :
    ((chunksOf k n data).flatMap fun block => encodeBlock block nsym).length
      = divCeil data.length k * nsym := by
  induction n generalizing data with
  | zero =>
    rw [List.length_eq_zero_iff.1 (Nat.le_zero.1 h), List.length_nil, divCeil_zero hk, Nat.zero_mul]
    rfl
  | succ n ih =>
    cases data with
    | nil => rw [List.length_nil, divCeil_zero hk, Nat.zero_mul]; rfl
    | cons a data =>
      have hlen : ((a :: data).drop k).length ≤ n := by
        rw [List.length_drop]
        omega
      rw [chunksOf_cons (List.cons_ne_nil _ _), List.flatMap_cons, List.length_append, ih hlen,
        (encodeBlock_codeword _ _).1, List.length_drop,
        divCeil_pos (a := (a :: data).length) hk (Nat.succ_pos _), Nat.add_mul, Nat.one_mul]

lemma sub_parity_chunks (hk : 0 < k) (h : data.length ≤ n) {i : ℕ} (hi : i * k < data.length) :
    sub ((chunksOf k n data).flatMap fun block => encodeBlock block nsym) (i * nsym) nsym
      = encodeBlock (sub data (i * k) k) nsym := by
  induction n generalizing data i with
  | zero => omega
  | succ n ih =>
    have hne : data ≠ [] := fun h0 => by
      rw [h0, List.length_nil] at hi
      omega
    have hparity := (encodeBlock_codeword (data.take k) nsym).1
    rw [chunksOf_cons hne, List.flatMap_cons]
    cases i with
    | zero => rw [sub_zero_len, sub_zero_len, List.take_left' hparity]
    | succ i =>
      rw [sub_succ, sub_succ, List.drop_left' hparity]
      refine ih ?_ (index_succ.1 hi)
      rw [List.length_drop]
      omega

theorem length_parity (hn : nsym < 255) (data : Bytes) :
    (ReedSolomon.parity data nsym).length = parityLen data.length nsym :=
  length_parity_chunks (by rw [dataPerBlock, BLOCK]; omega) (le_refl _)

lemma correctBlocks_restores {data' : Bytes} (hk : 0 < k) (h : data'.length ≤ n) {i : ℕ}
    (hlen : data'.length = data.length)
    (hblock : ∀ j, j * k < data.length →
      decodeBlock (sub data' (j * k) k) (sub parity ((i + j) * nsym) nsym)
        = some (sub data (j * k) k)) :
    correctBlocks parity nsym (chunksOf k n data') i = some data := by
  induction n generalizing data data' i with
  | zero =>
    have h0 : data.length = 0 := by omega
    rw [chunksOf, correctBlocks, List.length_eq_zero_iff.1 h0]
  | succ n ih =>
    by_cases hne : data' = []
    · have h0 : data.length = 0 := by rw [← hlen, hne, List.length_nil]
      rw [hne, chunksOf, correctBlocks, List.length_eq_zero_iff.1 h0]
    · have hpos : 0 < data.length := hlen ▸ List.length_pos_iff.2 hne
      have hfirst := hblock 0 (by omega)
      rw [sub_zero_len, sub_zero_len, Nat.add_zero] at hfirst
      have hdrop : (data'.drop k).length = (data.drop k).length := by
        rw [List.length_drop, List.length_drop, hlen]
      have hrest : correctBlocks parity nsym (chunksOf k n (data'.drop k)) (i + 1)
          = some (data.drop k) := by
        refine ih (by rw [List.length_drop]; omega) hdrop fun j hj => ?_
        rw [← sub_succ, ← sub_succ, sub_drop_parity]
        exact hblock (j + 1) (index_succ.2 hj)
      rw [chunksOf_cons hne, correctBlocks, hfirst, Option.bind_eq_bind, Option.bind_some, hrest,
        Option.bind_some, List.take_append_drop]

lemma correctBlocks_accepts {data' : Bytes} (hk : 0 < k) (h : data'.length ≤ n) {i : ℕ}
    (hsize : ∀ j b d, j * k < data'.length →
      decodeBlock b (sub parity ((i + j) * nsym) nsym) = some d → d.length = b.length)
    (hd : correctBlocks parity nsym (chunksOf k n data') i = some d) :
    d.length = data'.length ∧ ∀ j, j * k < data'.length →
      decodeBlock (sub data' (j * k) k) (sub parity ((i + j) * nsym) nsym)
        = some (sub d (j * k) k) := by
  induction n generalizing d data' i with
  | zero =>
    rw [chunksOf, correctBlocks, Option.some.injEq] at hd
    rw [← hd, List.length_nil]
    exact ⟨by omega, fun j hj => absurd hj (by omega)⟩
  | succ n ih =>
    by_cases hne : data' = []
    · rw [hne, chunksOf, correctBlocks, Option.some.injEq] at hd
      rw [← hd, hne]
      exact ⟨rfl, fun j hj => absurd hj (Nat.not_lt_zero _)⟩
    · have hpos : 0 < data'.length := List.length_pos_iff.2 hne
      rw [chunksOf_cons hne, correctBlocks] at hd
      obtain ⟨first, hfirst, hd⟩ := Option.bind_eq_some_iff.1 hd
      obtain ⟨rest, hrest, hd⟩ := Option.bind_eq_some_iff.1 hd
      obtain ⟨hlen, hrec⟩ := ih (by rw [List.length_drop]; omega) (fun j b d hj => by
        rw [sub_drop_parity]
        exact hsize (j + 1) b d (index_succ.2 hj)) hrest
      have htake : first.length = (data'.take k).length := hsize 0 _ _ (by omega) hfirst
      have hsplit : d = first ++ rest := (Option.some.inj hd).symm
      refine ⟨by rw [hsplit, List.length_append, htake, hlen, ← List.length_append,
        List.take_append_drop], fun j hj => ?_⟩
      cases j with
      | zero =>
        have hwhole : (first ++ rest).take k = first := by
          rw [List.take_append]
          rw [List.length_take] at htake
          rcases Nat.lt_or_ge data'.length k with hshort | hlong
          · have hnil : rest = [] := by
              refine List.length_eq_zero_iff.1 ?_
              rw [hlen, List.length_drop]
              omega
            rw [hnil, List.take_nil, List.append_nil, List.take_of_length_le (by omega)]
          · rw [List.take_of_length_le (by omega), show k - first.length = 0 by omega,
              List.take_zero, List.append_nil]
        rw [sub_zero_len, sub_zero_len, hsplit, hwhole]
        exact hfirst
      | succ j =>
        have hfull : first.length = k := by
          rw [htake, List.length_take]
          rw [Nat.succ_mul] at hj
          omega
        rw [sub_succ, sub_succ, hsplit, List.drop_left' hfull, ← sub_drop_parity]
        exact hrec j (index_succ.1 hj)

end Chunks

/-! ### Correction -/

section Correct
variable {nsym : ℕ} {data data' parity' d : Bytes}

lemma length_block_le (hn : nsym < 255) (data : Bytes) (i : ℕ) :
    (sub data (i * dataPerBlock nsym) (dataPerBlock nsym)).length + nsym ≤ 255 := by
  rw [sub, List.length_take, dataPerBlock, BLOCK]
  omega

lemma length_parity_block (hn : nsym < 255) {len : ℕ} {p : Bytes}
    (hp : p.length = divCeil len (dataPerBlock nsym) * nsym) {i : ℕ}
    (hi : i * dataPerBlock nsym < len) : (sub p (i * nsym) nsym).length = nsym := by
  have hk : 0 < dataPerBlock nsym := by
    rw [dataPerBlock, BLOCK]
    omega
  have hlt : i + 1 ≤ divCeil len (dataPerBlock nsym) := by
    rw [divCeil, Nat.le_div_iff_mul_le hk, Nat.succ_mul]
    omega
  have hle := Nat.mul_le_mul_right nsym hlt
  rw [Nat.succ_mul] at hle
  rw [sub, List.length_take, List.length_drop, hp]
  omega

lemma blockOf_parity (hn : nsym < 255) {i : ℕ} (hi : i * dataPerBlock nsym < data.length) :
    blockOf data (ReedSolomon.parity data nsym) nsym i
      = sub data (i * dataPerBlock nsym) (dataPerBlock nsym)
        ++ encodeBlock (sub data (i * dataPerBlock nsym) (dataPerBlock nsym)) nsym := by
  rw [blockOf, ReedSolomon.parity, chunks,
    sub_parity_chunks (by rw [dataPerBlock, BLOCK]; omega) (le_refl _) hi]

/-- Half as many errors in each block as it has parity are undone. -/
lemma correct_restores (hn : nsym < 255) (hlen : data'.length = data.length)
    (hparity : parity'.length = (ReedSolomon.parity data nsym).length)
    (hfew : ∀ i, i * dataPerBlock nsym < data.length →
      distance (blockOf data (ReedSolomon.parity data nsym) nsym i) (blockOf data' parity' nsym i)
        ≤ nsym / 2) :
    correct data' parity' nsym = some data := by
  have hk : 0 < dataPerBlock nsym := by
    rw [dataPerBlock, BLOCK]
    omega
  rw [length_parity hn, parityLen] at hparity
  by_cases h0 : data = []
  · have hdata' : data' = [] := List.length_eq_zero_iff.1 (by rw [hlen, h0]; rfl)
    have hparity' : parity' = [] := by
      rw [h0, List.length_nil, divCeil_zero hk, Nat.zero_mul] at hparity
      exact List.length_eq_zero_iff.1 hparity
    rw [correct, if_neg fun h => h.2 ⟨hdata' ▸ rfl, hparity' ▸ rfl⟩, if_pos (hdata' ▸ rfl), h0]
  · have hpos : 0 < data.length := List.length_pos_iff.2 h0
    have hblocks : 1 ≤ divCeil data.length (dataPerBlock nsym) := by
      rw [divCeil_pos hk hpos]
      omega
    have hne : ¬ data'.isEmpty = true := fun h => h0 (List.length_eq_zero_iff.1
      (by rw [← hlen, List.isEmpty_iff.1 h, List.length_nil]))
    rw [correct, if_neg fun h => h.1 (by rw [hlen, max_eq_left hblocks, hparity]), if_neg hne]
    refine correctBlocks_restores hk (le_refl _) hlen fun j hj => ?_
    rw [Nat.zero_add]
    have hclose := hfew j hj
    rw [blockOf_parity hn hj] at hclose
    refine decodeBlock_restores (length_parity_block hn hparity hj) (length_block_le hn data j) ?_ ?_
    · rw [sub, sub, List.length_take, List.length_take, List.length_drop, List.length_drop, hlen]
    · rw [blockOf] at hclose
      omega

/-- What is accepted is in each block close to what was read. -/
lemma correct_close (hn : nsym < 255) (h : correct data' parity' nsym = some d) :
    d.length = data'.length ∧ ∀ i, i * dataPerBlock nsym < data'.length →
      distance (blockOf d (ReedSolomon.parity d nsym) nsym i) (blockOf data' parity' nsym i)
        ≤ nsym / 2 := by
  have hk : 0 < dataPerBlock nsym := by
    rw [dataPerBlock, BLOCK]
    omega
  rw [correct] at h
  split_ifs at h with hbad hempty
  · rw [← Option.some.inj h, List.isEmpty_iff.1 hempty]
    exact ⟨rfl, fun i hi => absurd hi (Nat.not_lt_zero _)⟩
  · have hpos : 0 < data'.length := List.length_pos_iff.2 fun h0 => hempty (h0 ▸ rfl)
    have hblocks : 1 ≤ divCeil data'.length (dataPerBlock nsym) := by
      rw [divCeil_pos hk hpos]
      omega
    have hparity : parity'.length = divCeil data'.length (dataPerBlock nsym) * nsym := by
      by_contra hne
      refine hbad ⟨?_, fun h => hempty h.1⟩
      rwa [max_eq_left hblocks]
    have hsize (j : ℕ) (b d : Bytes) (hj : j * dataPerBlock nsym < data'.length)
        (hd : decodeBlock b (sub parity' ((0 + j) * nsym) nsym) = some d) : d.length = b.length := by
      rw [Nat.zero_add] at hd
      exact (decodeBlock_close (length_parity_block hn hparity hj) hn.le hd).1
    obtain ⟨hlen, hrec⟩ := correctBlocks_accepts hk (le_refl _) hsize h
    refine ⟨hlen, fun i hi => ?_⟩
    have hblock := hrec i hi
    rw [Nat.zero_add] at hblock
    have hclose := (decodeBlock_close (length_parity_block hn hparity hi) hn.le hblock).2
    rw [blockOf_parity hn (by rwa [hlen]), blockOf]
    omega

/-- Every corruption within the budget is undone, and nothing further away is accepted. -/
theorem ecc_corrects (hn : nsym ≤ 254) :
    (∀ data data' parity' : Bytes, data'.length = data.length →
      parity'.length = (ReedSolomon.parity data nsym).length →
      (∀ i, i * dataPerBlock nsym < data.length →
        distance (blockOf data (ReedSolomon.parity data nsym) nsym i)
          (blockOf data' parity' nsym i) ≤ nsym / 2) →
      correct data' parity' nsym = some data) ∧
    (∀ data' parity' d : Bytes, correct data' parity' nsym = some d →
      d.length = data'.length ∧ ∀ i, i * dataPerBlock nsym < data'.length →
        distance (blockOf d (ReedSolomon.parity d nsym) nsym i)
          (blockOf data' parity' nsym i) ≤ nsym / 2) :=
  ⟨fun _ _ _ hlen hparity hfew => correct_restores (by omega) hlen hparity hfew,
    fun _ _ _ h => correct_close (by omega) h⟩

end Correct

theorem ecc_corrects_two :
    correct [1, 9, 3] (parity [1, 2, 3] 2) 2 = some [1, 2, 3] ∧
      distance (blockOf [1, 2, 3] (parity [1, 2, 3] 2) 2 0) (blockOf [1, 9, 3] (parity [1, 2, 3] 2) 2 0)
        ≤ 1 := by
  have hbudget : ∀ i, i * dataPerBlock 2 < [1, 2, 3].length →
      distance (blockOf [1, 2, 3] (parity [1, 2, 3] 2) 2 i) (blockOf [1, 9, 3] (parity [1, 2, 3] 2) 2 i)
        ≤ 2 / 2 := by
    intro i hi
    obtain rfl : i = 0 := by
      rw [dataPerBlock, BLOCK, List.length_cons, List.length_cons, List.length_singleton] at hi
      omega
    decide +kernel
  have hrestored : correct [1, 9, 3] (parity [1, 2, 3] 2) 2 = some [1, 2, 3] :=
    (ecc_corrects (by omega)).1 _ _ _ rfl rfl hbudget
  exact ⟨hrestored, ((ecc_corrects (by omega)).2 _ _ _ hrestored).2 0 (by decide +kernel)⟩

end Arkeion.ReedSolomon
