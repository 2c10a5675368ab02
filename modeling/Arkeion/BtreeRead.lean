import Arkeion.BtreeChain
import Arkeion.BtreeKids

/-!
Reading a tree: a search finds the value of its key, and a scan gives the entries in order.

A scan is described by the entries it still has to give: those of the leaf it is in, then
those of the children behind, from the innermost node on its stack outwards.
-/

namespace Arkeion

open Arkeion.Lib

namespace Btree

open NodeSource NodeStore Node

section Read
variable {σ : Type} [NodeStore σ] {s : σ} {m n : ℕ} {lo hi : Option Bytes} {kvs : Entries}
  {F : List ℕ} {key : Bytes}

/-! ### Searching -/

/-- The value in the cells is the one under the payload. -/
lemma cells_valueOf {cells : List LeafCell} (h : Cat (CellHolds s m) cells kvs F) (key : Bytes) :
    (valueOf key (cells.map fun c => (c.key, c.payload)) = none ∧ valueOf key kvs = none) ∨
    ∃ p v G, valueOf key (cells.map fun c => (c.key, c.payload)) = some p ∧
      valueOf key kvs = some v ∧ PayloadHolds s m p v G := by
  induction cells generalizing kvs F with
  | nil => exact Or.inl ⟨rfl, by rw [h.1]; rfl⟩
  | cons c cells ih =>
    obtain ⟨k₁, k₂, F₁, F₂, rfl, rfl, ⟨v, rfl, -, hp⟩, hrest⟩ := h
    simp only [List.map_cons, valueOf, List.singleton_append]
    split_ifs with heq
    · exact Or.inr ⟨c.payload, v, F₁, rfl, rfl, hp⟩
    · exact ih hrest

/-- A search ends in a leaf that has the value of the key if the tree has it. -/
lemma findLeaf_eq (key : Bytes) {k id : ℕ} (h : Holds s m n (lo, hi, id) kvs F) (hk : n ≤ k) :
    ∃ id' b cells kvs' F', findLeaf s key k id = .ok (id', b) ∧ IsLeaf cells b ∧
      Cat (CellHolds s m) cells kvs' F' ∧ valueOf key kvs = valueOf key kvs' := by
  induction n generalizing k lo hi id kvs F with
  | zero => exact absurd h (fun h => h)
  | succ n ih =>
    obtain ⟨k, rfl⟩ : ∃ k', k = k' + 1 := ⟨k - 1, by omega⟩
    rw [findLeaf]
    obtain ⟨-, -, b, F', hb, rfl, ⟨cells, hl⟩ | ⟨cells, r, hi'⟩⟩ := h
    · obtain ⟨z, pfx, hshape⟩ := hl.leaf
      have hneq : ¬ TYPE_LEAF = TYPE_INNER := by decide
      simp only [hb, ok_bind, hshape.nodeType_eq, if_neg hneq, if_true]
      exact ⟨id, b, cells, kvs, F', rfl, hl.leaf, hl.cells, rfl⟩
    · obtain ⟨pre, post, ha⟩ := exists_around hi'.inner.sorted key
      obtain ⟨k₁, kc, k₂, F₁, Fc, F₂, rfl, rfl, -, hchild, -, hlt₁, hgt₂⟩ := hi'.around ha
      simp only [hb, ok_bind, hi'.inner.nodeType_eq, if_true, hi'.inner.innerChild_eq,
        ha.childAt_eq, valueOf_middle hlt₁ hgt₂]
      exact ih hchild (by omega)

lemma get_eq {k root : ℕ} (h : TreeHolds s m n root kvs F) (hn : n ≤ k) (hm : m ≤ k)
    (key : Bytes) : get s k root key = .ok (valueOf key kvs) := by
  rw [get]
  split_ifs with hroot
  · rcases h with ⟨-, rfl, -⟩ | h
    · rfl
    · cases n with
      | zero => exact absurd h (fun h => h)
      | succ n => exact absurd hroot h.1
  · obtain ⟨hnone, -, -⟩ | h := h
    · exact absurd hnone hroot
    · obtain ⟨id, b, cells, kvs', F', hfind, ⟨z, pfx, hshape⟩, hcells, heq⟩ := findLeaf_eq key h hn
      simp only [hfind, ok_bind, hshape.leafFind_eq, heq]
      rcases cells_valueOf hcells key with ⟨h₁, h₂⟩ | ⟨p, v, G, h₁, h₂, hp⟩
      · simp only [h₁, h₂]
      · simp only [h₁, h₂, readValue_eq hp hm, ok_bind]

lemma contains_eq {k root : ℕ} (h : TreeHolds s m n root kvs F) (hn : n ≤ k) (key : Bytes) :
    contains s k root key = .ok (valueOf key kvs).isSome := by
  rw [contains]
  split_ifs with hroot
  · rcases h with ⟨-, rfl, -⟩ | h
    · rfl
    · cases n with
      | zero => exact absurd h (fun h => h)
      | succ n => exact absurd hroot h.1
  · obtain ⟨hnone, -, -⟩ | h := h
    · exact absurd hnone hroot
    · obtain ⟨id, b, cells, kvs', F', hfind, ⟨z, pfx, hshape⟩, hcells, heq⟩ := findLeaf_eq key h hn
      simp only [hfind, ok_bind, hshape.leafContains_eq, heq]
      rcases cells_valueOf hcells key with ⟨h₁, h₂⟩ | ⟨p, v, G, h₁, h₂, hp⟩
      · rw [h₁, h₂]
        rfl
      · rw [h₁, h₂]
        rfl

/-! ### What a scan has still to give -/

/-- The entries from the start on. -/
def fromStart : Option Bytes → Entries → Entries
  | none, kvs => kvs
  | some k, kvs => fromKey k kvs

/-- The entries of the leaf that are left. -/
def LeafRest (s : σ) (m : ℕ) : Option LeafScan → Entries → Prop
  | none, kvs => kvs = []
  | some ls, kvs => ∃ cells G, IsLeaf cells ls.held ∧ ls.ncells = cells.length ∧
    Cat (CellHolds s m) (cells.drop ls.next) kvs G

/-- The entries of the children that are left; those of the innermost node are of height `h`. -/
def StackRest (s : σ) (m : ℕ) : ℕ → List (ℕ × ℕ) → Entries → Prop
  | _, [], kvs => kvs = []
  | h, (id, idx) :: above, kvs => ∃ b cells r lo hi k₁ k₂ G, body s id = .ok b ∧
    IsInner cells r b ∧ kvs = k₁ ++ k₂ ∧
    Cat (Holds s m h) ((childRanges lo hi cells r).drop idx) k₁ G ∧ StackRest s m (h + 1) above k₂

/-- The entries a scan has still to give, in a tree of height `n`. -/
def Rest (s : σ) (m n : ℕ) (st : CursorState) (kvs : Entries) : Prop :=
  ∃ h k₁ k₂, kvs = k₁ ++ k₂ ∧ LeafRest s m st.leaf k₁ ∧ StackRest s m h st.stack k₂ ∧
    h + st.stack.length = n

omit [NodeStore σ] in
lemma childRanges_length (lo hi : Option Bytes) (cells : List InnerCell) (r : ℕ) :
    (childRanges lo hi cells r).length = cells.length + 1 := by
  induction cells generalizing lo with
  | nil => rfl
  | cons c cells ih => simp [childRanges, ih]

omit [NodeStore σ] in
/-- The child at an index, and those behind it. -/
lemma childRanges_drop (lo hi : Option Bytes) {cells : List InnerCell} {r idx : ℕ}
    (h : idx ≤ cells.length) : ∃ l u, (childRanges lo hi cells r).drop idx
      = (l, u, childAt cells r idx) :: (childRanges lo hi cells r).drop (idx + 1) := by
  induction idx generalizing lo cells with
  | zero => cases cells <;> exact ⟨_, _, rfl⟩
  | succ idx ih =>
    cases cells with
    | nil => simp at h
    | cons c cells =>
      obtain ⟨l, u, heq⟩ := ih (some c.key) (show idx ≤ cells.length by simpa using h)
      exact ⟨l, u, by simpa [childRanges, childAt] using heq⟩

omit [NodeStore σ] in
lemma Around.tail_eq {cells pre post : List InnerCell} {r : ℕ} (ha : Around cells key pre post) :
    (childRanges lo hi cells r).drop (childIndex cells key + 1) = tailRanges hi r post := by
  have hlen : (leftRanges lo pre).length = pre.length := by
    clear ha
    induction pre generalizing lo with
    | nil => rfl
    | cons c pre ih => simp [leftRanges, ih]
  rw [ha.childRanges_eq, ha.index, ← hlen, List.drop_append, List.drop_eq_nil_of_le (by omega)]
  simp

/-- The cells of a leaf from the start on. -/
lemma leaf_fromStart {cells : List LeafCell} (h : Cat (CellHolds s m) cells kvs F)
    (hs : (cells.map LeafCell.key).Pairwise (· < ·)) (key : Bytes) : ∃ G, Cat (CellHolds s m)
      (cells.drop (partitionPoint (fun c : LeafCell => decide (c.key < key)) cells))
      (fromKey key kvs) G := by
  obtain ⟨pre, post, rfl, hpre, hpost, hpt⟩ :=
    exists_partition (fun c : LeafCell => decide (c.key < key)) cells
  obtain ⟨k₁, k₂, F₁, F₂, rfl, rfl, h₁, h₂⟩ := cat_append.1 h
  have hlt : ∀ p ∈ k₁, p.1 < key := h₁.forall_entries fun c hc k G hk p hp => by
    obtain ⟨v, rfl, -, -⟩ := hk
    rw [List.mem_singleton.1 hp]
    simpa using hpre c hc
  have hge : ∀ p ∈ k₂, key ≤ p.1 := h₂.forall_entries fun c hc k G hk p hp => by
    obtain ⟨v, rfl, -, -⟩ := hk
    rw [List.mem_singleton.1 hp]
    cases post with
    | nil => simp at hc
    | cons d post =>
      have hd : key ≤ d.key := by simpa using hpost d (by simp)
      rw [List.map_append, List.pairwise_append, List.map_cons, List.pairwise_cons] at hs
      rcases List.mem_cons.1 hc with rfl | hc
      · exact hd
      · exact hd.trans (hs.2.1.1 _ (List.mem_map_of_mem hc)).le
  rw [hpt, List.drop_left, fromKey_append, fromKey_of_lt hlt, fromKey_of_ge hge, List.nil_append]
  exact ⟨F₂, h₂⟩

/-- Descending puts the entries of a tree before those that are left. -/
lemma descend_rest (start : Option Bytes) (st : CursorState) {k id h : ℕ} {rest : Entries}
    (ht : Holds s m h (lo, hi, id) kvs F) (hst : StackRest s m h st.stack rest) (hk : h ≤ k) :
    ∃ st', descend s start k st id = .ok st' ∧
      ∃ h' k₁ k₂, fromStart start kvs ++ rest = k₁ ++ k₂ ∧ LeafRest s m st'.leaf k₁ ∧
        StackRest s m h' st'.stack k₂ ∧ h' + st'.stack.length = h + st.stack.length ∧
        (start = none → k₁ ≠ []) := by
  induction h generalizing k lo hi id kvs F st rest with
  | zero => exact absurd ht (fun h => h)
  | succ h ih =>
    obtain ⟨k, rfl⟩ : ∃ k', k = k' + 1 := ⟨k - 1, by omega⟩
    rw [descend]
    obtain ⟨-, -, b, F', hb, rfl, ⟨cells, hl⟩ | ⟨cells, r, hi'⟩⟩ := ht
    · obtain ⟨z, pfx, hshape⟩ := hl.leaf
      have hneq : ¬ TYPE_LEAF = TYPE_INNER := by decide
      simp only [hb, ok_bind, hshape.nodeType_eq, if_neg hneq, if_true, hshape.leafNcells_eq]
      cases start with
      | none =>
        refine ⟨_, rfl, h + 1, kvs, rest, rfl, ⟨cells, F', hl.leaf, rfl, hl.cells⟩, hst, rfl,
          fun _ => ?_⟩
        rintro rfl
        have hkeys := cat_cells_keys hl.cells
        exact hl.ne_nil (by simpa using hkeys.symm)
      | some key =>
        obtain ⟨G, hG⟩ := leaf_fromStart hl.cells hshape.sorted key
        simp only [hshape.leafLowerBound_eq, ok_bind]
        exact ⟨_, rfl, h + 1, fromKey key kvs, rest, rfl, ⟨cells, G, hl.leaf, rfl, hG⟩, hst, rfl,
          fun hn => by cases hn⟩
    · simp only [hb, ok_bind, hi'.inner.nodeType_eq, if_true, hi'.inner.parseInner_eq]
      cases start with
      | none =>
        obtain ⟨l, u, hdrop⟩ := childRanges_drop lo hi (r := r) (Nat.zero_le cells.length)
        rw [List.drop_zero] at hdrop
        obtain ⟨kc, k₂, Fc, F₂, rfl, rfl, hchild, h₂⟩ := hdrop ▸ hi'.kids
        obtain ⟨st', hst', h', k₁, k₃, heq, hrest⟩ := ih ⟨(id, 0 + 1) :: st.stack, st.leaf⟩
          hchild ⟨b, cells, r, lo, hi, k₂, rest, F₂, hb, hi'.inner, rfl, h₂, hst⟩ (show h ≤ k by omega)
        refine ⟨st', hst', h', k₁, k₃, ?_, hrest.1, hrest.2.1, ?_, hrest.2.2.2⟩
        · rw [← heq]
          exact List.append_assoc ..
        · rw [hrest.2.2.1]
          simp only [List.length_cons]
          omega
      | some key =>
        obtain ⟨pre, post, ha⟩ := exists_around hi'.inner.sorted key
        obtain ⟨k₀, kc, k₂, F₁, Fc, F₂, rfl, rfl, -, hchild, h₂, hlt₁, hgt₂⟩ := hi'.around ha
        rw [← ha.tail_eq] at h₂
        rw [← ha.childAt_eq] at hchild
        obtain ⟨st', hst', h', k₁, k₃, heq, hrest⟩ :=
          ih ⟨(id, childIndex cells key + 1) :: st.stack, st.leaf⟩
          hchild ⟨b, cells, r, lo, hi, k₂, rest, F₂, hb, hi'.inner, rfl, h₂, hst⟩ (show h ≤ k by omega)
        refine ⟨st', hst', h', k₁, k₃, ?_, hrest.1, hrest.2.1, ?_, hrest.2.2.2⟩
        · rw [← heq]
          simp only [fromStart, fromKey_append, fromKey_of_lt hlt₁, fromKey_of_ge fun p hp =>
            (hgt₂ p hp).le, List.nil_append, List.append_assoc]
        · rw [hrest.2.2.1]
          simp only [List.length_cons]
          omega

/-- The leaf gives its next entry. -/
lemma advance_leaf {k f : ℕ} {st : CursorState} {ls : LeafScan} {cells : List LeafCell}
    {k₁ : Entries} {G : List ℕ} (hleaf : st.leaf = some ls) (hl : IsLeaf cells ls.held)
    (hn : ls.ncells = cells.length) (hcells : Cat (CellHolds s m) (cells.drop ls.next) k₁ G)
    (hne : k₁ ≠ []) (hm : m ≤ k) : ∃ p k₂ G₂, k₁ = p :: k₂ ∧
      advance s k (f + 1) st
        = .ok (some (p, { st with leaf := some { ls with next := ls.next + 1 } })) ∧
      Cat (CellHolds s m) (cells.drop (ls.next + 1)) k₂ G₂ := by
  obtain ⟨z, pfx, hshape⟩ := hl
  have hlt : ls.next < cells.length := by
    by_contra hge
    rw [List.drop_eq_nil_of_le (by omega)] at hcells
    exact hne hcells.1
  rw [List.drop_eq_getElem_cons hlt] at hcells
  obtain ⟨k₀, k₂, G₀, G₂, rfl, rfl, ⟨v, rfl, -, hp⟩, hrest⟩ := hcells
  refine ⟨((cells[ls.next]).key, v), k₂, G₂, rfl, ?_, hrest⟩
  have hnext : ls.next < ls.ncells := by omega
  simp only [advance, hleaf, hnext, if_true, hshape.leafCellAt_eq _ (List.getElem?_eq_getElem hlt),
    ok_bind, readValue_eq hp hm]

/-- A scan without entries in its leaf goes on to the next leaf. -/
lemma advance_next {k f : ℕ} {st : CursorState} (h : LeafRest s m st.leaf []) :
    (nextLeaf s k st = .ok none → advance s k (f + 1) st = .ok none) ∧
    ∀ st', nextLeaf s k st = .ok (some st') → advance s k (f + 1) st = advance s k f st' := by
  rw [advance]
  cases hleaf : st.leaf with
  | none => exact ⟨fun hn => by simp only [hn, ok_bind], fun st' hn => by simp only [hn, ok_bind]⟩
  | some ls =>
    rw [hleaf] at h
    obtain ⟨cells, G, hl, hn, hcells⟩ := h
    have hge : ¬ ls.next < ls.ncells := by
      rw [hn]
      intro hlt
      rw [List.drop_eq_getElem_cons hlt] at hcells
      obtain ⟨k₀, k₂, G₀, G₂, hk, -, ⟨v, rfl, -, hp⟩, hrest⟩ := hcells
      simp at hk
    simp only [hge, if_false]
    exact ⟨fun hn => by simp only [hn, ok_bind], fun st' hn => by simp only [hn, ok_bind]⟩

/-- A scan gives the next entry, or ends when there are none. -/
lemma advance_rest {k f : ℕ} {st : CursorState} (h : Rest s m n st kvs) (hm : m ≤ k) (hn : n ≤ k)
    (hf : st.stack.length + 2 ≤ f) :
    (kvs = [] ∧ advance s k f st = .ok none) ∨ ∃ p rest st', kvs = p :: rest ∧
      advance s k f st = .ok (some (p, st')) ∧ Rest s m n st' rest := by
  induction f generalizing st with
  | zero => omega
  | succ f ih =>
    obtain ⟨h, k₁, k₂, rfl, hleaf, hstack, hlen⟩ := h
    rcases eq_or_ne k₁ [] with rfl | hne
    · obtain ⟨hend, hgo⟩ := advance_next (k := k) (f := f) hleaf
      rw [List.nil_append]
      cases hst : st.stack with
      | nil =>
        rw [hst] at hstack
        exact Or.inl ⟨hstack, hend (by simp only [nextLeaf, hst])⟩
      | cons x above =>
        obtain ⟨id, idx⟩ := x
        rw [hst] at hstack hlen hf
        obtain ⟨b, cells, r, lo, hi, k₃, k₄, G, hb, hinner, rfl, hkids, habove⟩ := hstack
        simp only [List.length_cons] at hlen hf
        by_cases hidx : idx ≤ cells.length
        · obtain ⟨l, u, hdrop⟩ := childRanges_drop lo hi (r := r) hidx
          rw [hdrop] at hkids
          obtain ⟨kc, k₅, Gc, G₅, rfl, rfl, hchild, h₅⟩ := hkids
          obtain ⟨st', hst', h', k₆, k₇, heq, hleaf', hstack', hlen', hne'⟩ :=
            descend_rest none ⟨(id, idx + 1) :: above, none⟩ hchild
              ⟨b, cells, r, lo, hi, k₅, k₄, G₅, hb, hinner, rfl, h₅, habove⟩
              (show h ≤ k by omega)
          have hall : (kc ++ k₅) ++ k₄ = k₆ ++ k₇ := by
            rw [← heq]
            exact List.append_assoc ..
          rw [hgo st' (by simp only [nextLeaf, hst, hb, ok_bind, hinner.parseInner_eq, if_pos hidx,
            hst']), hall]
          obtain ⟨f, rfl⟩ : ∃ f', f = f' + 1 := ⟨f - 1, by omega⟩
          cases hls : st'.leaf with
          | none =>
            rw [hls] at hleaf'
            exact absurd hleaf' (hne' rfl)
          | some ls =>
            rw [hls] at hleaf'
            obtain ⟨cells', G', hl', hn', hcells'⟩ := hleaf'
            obtain ⟨p, k₈, G₈, rfl, hadv, hrest⟩ :=
              advance_leaf (f := f) hls hl' hn' hcells' (hne' rfl) hm
            refine Or.inr ⟨p, k₈ ++ k₇, _, rfl, hadv, h', k₈, k₇, rfl,
              ⟨cells', G₈, hl', hn', hrest⟩, hstack', ?_⟩
            rw [hlen']
            simp only [List.length_cons]
            omega
        · rw [List.drop_eq_nil_of_le (by rw [childRanges_length]; omega)] at hkids
          obtain ⟨rfl, -⟩ := hkids
          rw [hgo ⟨above, none⟩ (by simp only [nextLeaf, hst, hb, ok_bind, hinner.parseInner_eq,
            if_neg hidx])]
          exact ih ⟨h + 1, [], k₄, rfl, rfl, habove, by simpa using by omega⟩ (by simpa using by omega)
    · cases hls : st.leaf with
      | none =>
        rw [hls] at hleaf
        exact absurd hleaf hne
      | some ls =>
        rw [hls] at hleaf
        obtain ⟨cells, G, hl, hn', hcells⟩ := hleaf
        obtain ⟨p, k₃, G₃, rfl, hadv, hrest⟩ := advance_leaf (f := f) hls hl hn' hcells hne hm
        exact Or.inr ⟨p, k₃ ++ k₂, _, rfl, hadv, h, k₃, k₂, rfl, ⟨cells, G₃, hl, hn', hrest⟩,
          hstack, hlen⟩

/-- Collecting gives all entries that are left. -/
lemma collect_rest {k f : ℕ} {st : CursorState} (h : Rest s m n st kvs) (hm : m ≤ k)
    (hn : n + 2 ≤ k) (hf : kvs.length < f) : collect s k f st = .ok kvs := by
  induction kvs generalizing f st with
  | nil =>
    obtain ⟨f, rfl⟩ : ∃ f', f = f' + 1 := ⟨f - 1, by omega⟩
    have hlen : st.stack.length + 2 ≤ k := by
      obtain ⟨h, -, -, -, -, -, hlen⟩ := h
      omega
    rcases advance_rest h hm (by omega) hlen with ⟨-, hadv⟩ | ⟨p, rest, st', hp, -, -⟩
    · simp only [collect, hadv, ok_bind]
    · cases hp
  | cons p kvs ih =>
    obtain ⟨f, rfl⟩ : ∃ f', f = f' + 1 := ⟨f - 1, by omega⟩
    have hlen : st.stack.length + 2 ≤ k := by
      obtain ⟨h, -, -, -, -, -, hlen⟩ := h
      omega
    rcases advance_rest h hm (by omega) hlen with ⟨hnil, -⟩ | ⟨q, rest, st', hp, hadv, hrest⟩
    · cases hnil
    · cases hp
      have hrec := ih hrest (by simpa using hf)
      simp only [collect, hadv, ok_bind, hrec]

/-- A scan starts with all entries from its start on. -/
lemma scanState_rest {k root : ℕ} (h : TreeHolds s m n root kvs F) (hn : n ≤ k)
    (start : Option Bytes) :
    ∃ st, scanState s k root start = .ok st ∧ Rest s m n st (fromStart start kvs) := by
  rw [scanState]
  split_ifs with hroot
  · rcases h with ⟨-, rfl, -⟩ | h
    · exact ⟨_, rfl, n, [], [], by cases start <;> rfl, rfl, rfl, rfl⟩
    · cases n with
      | zero => exact absurd h (fun h => h)
      | succ n => exact absurd hroot h.1
  · obtain ⟨hnone, -, -⟩ | h := h
    · exact absurd hnone hroot
    · obtain ⟨st', hst', h', k₁, k₂, heq, hleaf, hstack, hlen, -⟩ :=
        descend_rest start ⟨[], none⟩ h rfl hn
      rw [List.append_nil] at heq
      exact ⟨st', hst', h', k₁, k₂, heq, hleaf, hstack, by simpa using hlen⟩

lemma length_fromStart_le (start : Option Bytes) (kvs : Entries) :
    (fromStart start kvs).length ≤ kvs.length := by
  cases start with
  | none => exact le_rfl
  | some k => exact List.length_filter_le _ _

/-- A scan gives the entries in order. -/
lemma scan_eq {k root : ℕ} (h : TreeHolds s m n root kvs F) (hm : m ≤ k) (hn : n + 2 ≤ k)
    (hk : kvs.length < k) : scan s k root = .ok kvs := by
  obtain ⟨st, hst, hrest⟩ := scanState_rest h (show n ≤ k by omega) none
  simp only [scan, hst, ok_bind]
  exact collect_rest hrest hm hn hk

/-- A scan from a start gives the entries from there on. -/
lemma scanFrom_eq {k root : ℕ} (h : TreeHolds s m n root kvs F) (hm : m ≤ k) (hn : n + 2 ≤ k)
    (hk : kvs.length < k) (start : Bytes) : scanFrom s k root start = .ok (fromKey start kvs) := by
  obtain ⟨st, hst, hrest⟩ := scanState_rest h (show n ≤ k by omega) (some start)
  simp only [scanFrom, hst, ok_bind]
  exact collect_rest hrest hm hn ((length_fromStart_le (some start) kvs).trans_lt hk)

end Read

end Btree

end Arkeion
