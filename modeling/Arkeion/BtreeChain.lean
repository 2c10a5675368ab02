import Arkeion.BtreeKids
import Arkeion.Lib.Outcome

/-!
Overflow chains: writing, reading and freeing them; and the payload of a value.
-/

namespace Arkeion

open Arkeion.Lib

namespace Btree

open NodeSource NodeStore Node LawfulNodeStore

/-! ### Pieces of a value -/

section Chunks
variable {m : ℕ}

lemma chunks_go (hm : 0 < m) {n : ℕ} {d : Bytes} (hn : d.length ≤ n) :
    (chunks.go m n d).flatten = d ∧ (∀ c ∈ chunks.go m n d, c.length ≤ m) ∧
      (chunks.go m n d).length ≤ d.length := by
  induction n generalizing d with
  | zero =>
    obtain rfl := List.length_eq_zero_iff.1 (Nat.le_zero.1 hn)
    simp [chunks.go]
  | succ n ih =>
    rw [chunks.go]
    split_ifs with hd
    · simp [hd]
    · have hpos := List.length_pos_iff.2 hd
      obtain ⟨hflat, hle, hlen⟩ := ih (d := d.drop m) (by rw [List.length_drop]; omega)
      refine ⟨by rw [List.flatten_cons, hflat, List.take_append_drop], ?_, ?_⟩
      · intro c hc
        rcases List.mem_cons.1 hc with rfl | hc
        · exact List.length_take_le ..
        · exact hle c hc
      · rw [List.length_cons]
        rw [List.length_drop] at hlen
        omega

lemma flatten_chunks (hm : 0 < m) (d : Bytes) : (chunks m d).flatten = d :=
  (chunks_go hm le_rfl).1

lemma length_of_mem_chunks (hm : 0 < m) {d c : Bytes} (h : c ∈ chunks m d) : c.length ≤ m :=
  (chunks_go hm le_rfl).2.1 c h

lemma length_chunks_le (hm : 0 < m) (d : Bytes) : (chunks m d).length ≤ d.length :=
  (chunks_go hm le_rfl).2.2

end Chunks

section Reading
variable {σ : Type} [NodeStore σ] {s : σ}

lemma readChain_eq {ids : List ℕ} {first n : ℕ} {data : Bytes} (h : ChainHolds s ids first data)
    (hn : ids.length ≤ n) : readChain s n first = .ok data := by
  induction ids generalizing first data n with
  | nil =>
    obtain ⟨rfl, rfl⟩ := h
    cases n <;> rw [readChain, if_pos rfl]
  | cons i ids ih =>
    obtain ⟨rfl, hne, b, chunk, next, rest, hb, hov, rfl, hrest⟩ := h
    obtain ⟨n, rfl⟩ : ∃ k, n = k + 1 := ⟨n - 1, by simp at hn; omega⟩
    simp only [readChain, if_neg hne, hb, ok_bind, hov.parseOverflow_eq, ih hrest (by simpa using hn)]

lemma readValue_eq {m n : ℕ} {p : Payload} {v : Bytes} {F : List ℕ} (h : PayloadHolds s m p v F)
    (hn : m ≤ n) : readValue s n p = .ok v := by
  cases p with
  | inline w => rw [h.1, readValue]
  | overflow t f =>
    obtain ⟨ht, ids, hlen, hc, -⟩ := h
    rw [readValue, readChain_eq hc (hlen.trans hn), ok_bind, require_pos ht, ok_bind]

end Reading

section Writing
variable {σ : Type} [NodeStore σ] [LawfulNodeStore σ] {s s' : σ}

/-! ### Freeing -/

lemma dirtyOf_cons (s : σ) (i : ℕ) (ids : List ℕ) :
    dirtyOf s (i :: ids) = ownPages s i ++ dirtyOf s ids := by
  rw [dirtyOf, List.filter_cons, ownPages]
  split_ifs <;> rfl

/-- The dirty pages of a chain are given back. -/
lemma freeChain_frame (hv : Valid s) {ids : List ℕ} {first n : ℕ} {data : Bytes}
    (h : ChainHolds s ids first data) (hnodup : (dirtyOf s ids).Nodup) (hn : ids.length ≤ n) :
    ∃ s', freeChain n s first = .ok s' ∧ Frame s s' (dirtyOf s ids) [] := by
  induction ids generalizing s first data n with
  | nil =>
    obtain ⟨rfl, rfl⟩ := h
    refine ⟨s, ?_, .refl hv _⟩
    cases n <;> rw [freeChain, if_pos rfl]
  | cons i ids ih =>
    obtain ⟨rfl, hne, b, chunk, next, rest, hb, hov, rfl, hrest⟩ := h
    obtain ⟨n, rfl⟩ : ∃ k, n = k + 1 := ⟨n - 1, by simp at hn; omega⟩
    rw [dirtyOf_cons] at hnodup ⊢
    have hfree := frame_free hv hb
    have hdisj : ∀ id ∈ dirtyOf s ids, id ∉ ownPages s first := fun id hid hid' =>
      (List.nodup_append.1 hnodup).2.2 id hid' id hid rfl
    obtain ⟨hrest', hids⟩ := hrest.frame hfree hdisj
    obtain ⟨s', hs', hframe⟩ := ih hfree.valid hrest'
      (hids ▸ (List.nodup_append.1 hnodup).2.1) (by simpa using hn)
    refine ⟨s', ?_, (hfree.append_right (dirtyOf s ids)).trans (hids ▸ hframe)⟩
    simp only [freeChain, if_neg hne, hb, hov.parseOverflow_eq, hs']

/-- Where chains are not mixed, the first page says whether any is dirty. -/
lemma ChainHolds.clean (hclean : CleanChains σ) (hv : Valid s) {ids : List ℕ} {first : ℕ}
    {data : Bytes} (h : ChainHolds s ids first data) (hd : isDirty s first = false) :
    dirtyOf s ids = [] := by
  induction ids generalizing first data with
  | nil => rfl
  | cons i ids ih =>
    obtain ⟨rfl, -, b, chunk, next, rest, hb, hov, -, hrest⟩ := h
    rw [dirtyOf_cons, ih hrest (hclean hv hb hd hov), ownPages, hd, if_neg Bool.false_ne_true]
    rfl

lemma freePayload_frame (hv : Valid s) {m n : ℕ} {p : Payload} {v : Bytes} {F : List ℕ}
    (h : PayloadHolds s m p v F) (hnodup : F.Nodup) (hn : m ≤ n) :
    ∃ s', freePayload n s p = .ok s' ∧ Frame s s' F [] := by
  cases p with
  | inline w => exact ⟨s, rfl, by rw [h.2]; exact .refl hv _⟩
  | overflow t f =>
    obtain ⟨-, ids, hlen, hc, rfl⟩ := h
    rw [freePayload]
    split_ifs with hd
    · exact freeChain_frame hv hc hnodup (hlen.trans hn)
    · refine ⟨s, rfl, hv, fun _ _ hb _ => ⟨hb, rfl⟩, by simp, fun hclean id hown => ?_⟩
      rw [hc.clean hclean hv (by simpa using hd)]
      exact Or.inr ⟨hown, List.not_mem_nil⟩

/-! ### Writing -/

/-- The page with another body. -/
lemma OwnPage.write (hv : Valid s) {id : ℕ} {b b' : Bytes} (h : OwnPage s id b)
    (hlen : b'.length = BODY_SIZE) :
    bodyMut s id = .ok b ∧ b.length = BODY_SIZE ∧ OwnPage (NodeStore.setBody s id b') id b' ∧
      Frame s (NodeStore.setBody s id b') [id] [id] :=
  ⟨bodyMut_eq hv h.body_eq h.dirty, body_length hv h.body_eq, (h.setBody hv hlen).1,
    (h.setBody hv hlen).2⟩

lemma writeChunks_outcome (hv : Valid s) {cs : List Bytes} {ids : List ℕ} {next : ℕ} {data : Bytes}
    (hcs : ∀ c ∈ cs, c.length ≤ OVERFLOW_DATA) (hlt : next < 2 ^ 64)
    (h : ChainHolds s ids next data) (hd : dirtyOf s ids = ids) (hnodup : ids.Nodup) :
    Outcome (AllocError σ) (writeChunks cs s next) fun r => ∃ ids',
      ids'.length = cs.length + ids.length ∧ r.1 < 2 ^ 64 ∧
      ChainHolds r.2 ids' r.1 (cs.reverse.flatten ++ data) ∧ dirtyOf r.2 ids' = ids' ∧
      ids'.Nodup ∧ Frame s r.2 ids ids' := by
  induction cs generalizing s ids next data with
  | nil => exact ⟨ids, by simp, hlt, h, hd, hnodup, .refl hv _⟩
  | cons c cs ih =>
    rw [writeChunks]
    rcases alloc_cases hv with ⟨e, he, hrefused⟩ | ⟨id, s₁, b, he, hown, hframe⟩
    · rw [he]
      exact hrefused
    · have hc := hcs c (by simp)
      obtain ⟨hmut, hblen, hown', hset⟩ := hown.write hframe.valid
        (@length_encodeOverflow c next hc)
      have hstep : Frame s (NodeStore.setBody s₁ id (encodeOverflow c next BODY_SIZE)) [] [id] :=
        hframe.trans hset
      obtain ⟨hchain, hdirty⟩ := h.frame hstep (by simp)
      have hnot : id ∉ ids := fun hid => by
        obtain ⟨b, hb⟩ := h.readable id hid
        rcases hstep.fresh id (by simp) with hnil | habsent
        · simp at hnil
        · exact habsent b hb
      simp only [he, ok_bind, hmut, hblen]
      have hnew : ChainHolds (NodeStore.setBody s₁ id (encodeOverflow c next BODY_SIZE))
          (id :: ids) id (c ++ data) :=
        ⟨rfl, hown.ne_root, _, c, next, data, hown'.body_eq,
          isOverflow_encodeOverflow hc hlt, rfl, hchain⟩
      refine (ih hset.valid (fun d hd => hcs d (by simp [hd])) hown.lt hnew ?_
        (List.nodup_cons.2 ⟨hnot, hnodup⟩)).imp fun r _ hr => ?_
      · rw [dirtyOf_cons, hown'.ownPages_eq, hdirty, hd]
        rfl
      · obtain ⟨ids', hlen, hlt', hchain', hdirty', hnodup', hframe'⟩ := hr
        refine ⟨ids', by rw [hlen]; simp; omega, hlt', by simpa using hchain', hdirty', hnodup',
          Frame.trans ?_ hframe'⟩
        exact hstep.append_right ids

/-- The cell of a value that goes to a chain is small. -/
lemma overflow_cell_le {key : Bytes} {t f : ℕ} (hk : key.length ≤ MAX_KEY_LEN) (ht : t < 2 ^ 64) :
    leafCellSize ⟨key, .overflow t f⟩ ≤ MAX_INLINE_CELL := by
  rw [show MAX_KEY_LEN = 1024 from rfl] at hk
  have h1 : varintLen key.length ≤ 2 := varintLen_le (n := 1) (by omega)
  have h2 : varintLen t ≤ 10 := varintLen_le (n := 9) (by omega)
  rw [show MAX_INLINE_CELL = 1280 from rfl]
  simp only [leafCellSize, storedCellSize, payloadSize]
  omega

/-- The payload of a value: what was there stays, and the new pages are those of its chain. -/
lemma makePayload_outcome (hv : Valid s) {key value : Bytes} (hpos : 0 < key.length)
    (hk : key.length ≤ MAX_KEY_LEN) (hvalue : value.length < 2 ^ 64) :
    Outcome (AllocError σ) (makePayload s key value) fun r => ∃ F,
      PayloadHolds r.2 value.length r.1 value F ∧ F.Nodup ∧ Frame s r.2 [] F ∧
      CellSized ⟨key, r.1⟩ ∧ leafCellSize ⟨key, r.1⟩ ≤ MAX_INLINE_CELL := by
  rw [makePayload]
  split_ifs with hinline
  · refine ⟨[], ⟨rfl, rfl⟩, List.nodup_nil, .refl hv _, ⟨hpos, hk, hvalue⟩, ?_⟩
    simp only [inlineCellSize, leafCellSize, storedCellSize, payloadSize] at hinline ⊢
    omega
  · have hmax : 0 < OVERFLOW_DATA := by rw [OVERFLOW_DATA, BODY_SIZE_eq]; decide
    have hne : value ≠ [] := by
      rintro rfl
      rw [show MAX_KEY_LEN = 1024 from rfl] at hk
      have h1 : varintLen key.length ≤ 2 := varintLen_le (n := 1) (by omega)
      have h2 : varintLen 0 = 1 := varintLen_of_lt (by decide)
      refine hinline ?_
      rw [show MAX_INLINE_CELL = 1280 from rfl]
      simp only [inlineCellSize, List.length_nil, h2]
      omega
    rw [writeChain, require_pos hne, ok_bind]
    have hempty : ChainHolds s [] NO_ROOT [] := ⟨rfl, rfl⟩
    refine (writeChunks_outcome hv
      (fun c hc => length_of_mem_chunks hmax (List.mem_reverse.1 hc)) (by decide) hempty rfl
      List.nodup_nil).bind ?_
    rintro ⟨first, s'⟩ - ⟨ids, hlen, hlt, hchain, hdirty, hnodup, hframe⟩
    rw [List.reverse_reverse, flatten_chunks hmax, List.append_nil] at hchain
    refine ⟨ids, ⟨rfl, ids, ?_, hchain, hdirty.symm⟩, hnodup, hframe, ⟨hpos, hk, hvalue, hlt⟩,
      overflow_cell_le hk hvalue⟩
    rw [hlen, List.length_reverse, List.length_nil, Nat.add_zero]
    exact length_chunks_le hmax value

end Writing

end Btree

end Arkeion
