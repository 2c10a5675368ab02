import Arkeion.BtreeChain
import Arkeion.BtreeDiff
import Arkeion.TxKeeps

/-!
Insertions and deletions under any root, whatever the pages there are.

Nothing is known of the tree: its keys may lie in any order and its pages may belong to another
tree. Still an operation leaves the store of a transaction in order, and the root it gives back
is none of a set of pages of the file that is closed under the children of its nodes.
-/

namespace Arkeion

open Arkeion.Lib

/-! ### What is parsed has its sizes -/

lemma takeVarintAux_lt {buf : Bytes} {n pos shift v : ℕ} {r : ℕ × ℕ} (hv : v < 2 ^ 64)
    (h : takeVarintAux buf n pos shift v = some r) : r.1 < 2 ^ 64 := by
  induction n generalizing pos shift v with
  | zero => cases h
  | succ n ih =>
    rw [takeVarintAux] at h
    cases hb : buf[pos]? with
    | none => rw [hb] at h; cases h
    | some b =>
      rw [hb] at h
      dsimp only at h
      have hor : v ||| ((b.toNat % 128) <<< shift) % 2 ^ 64 < 2 ^ 64 :=
        Nat.or_lt_two_pow hv (Nat.mod_lt _ (by decide))
      split_ifs at h
      · cases h
        exact hor
      · exact ih hor h

namespace Node

lemma getVarint_lt {page pos : ℕ} {buf : Bytes} {r : ℕ × ℕ} (h : getVarint page buf pos = .ok r) :
    r.1 < 2 ^ 64 :=
  takeVarintAux_lt (by decide) (okOr_eq_ok.1 h)

lemma getSlice_length {page pos len : ℕ} {buf : Bytes} {r : Bytes × ℕ}
    (h : getSlice page buf pos len = .ok r) : r.1.length = len := by
  obtain ⟨_, -, h⟩ := bind_eq_ok.1 h
  obtain ⟨x, hx, h⟩ := bind_eq_ok.1 h
  cases h
  exact length_of_slice? (okOr_eq_ok.1 hx)

lemma getU64_lt {page pos : ℕ} {buf : Bytes} {r : ℕ × ℕ} (h : getU64 page buf pos = .ok r) :
    r.1 < 2 ^ 64 := by
  obtain ⟨x, hx, h⟩ := bind_eq_ok.1 h
  cases h
  have hlt := leNat_lt x.1
  rw [getSlice_length hx] at hlt
  exact hlt

lemma readLeafPayload_sized {page pos : ℕ} {body : Bytes} {flags : UInt8} {r : Payload × ℕ}
    (h : readLeafPayload page body pos flags = .ok r) : PayloadSized r.1 := by
  rw [readLeafPayload] at h
  split_ifs at h
  · obtain ⟨t, ht, h⟩ := bind_eq_ok.1 h
    obtain ⟨f, hf, h⟩ := bind_eq_ok.1 h
    cases h
    exact ⟨getVarint_lt ht, getU64_lt hf⟩
  · obtain ⟨l, hl, h⟩ := bind_eq_ok.1 h
    obtain ⟨v, hv, h⟩ := bind_eq_ok.1 h
    cases h
    change v.1.length < 2 ^ 64
    rw [getSlice_length hv]
    exact getVarint_lt hl

/-- The payloads of the cells have their sizes. -/
def PayloadsSized (cells : List LeafCell) : Prop := ∀ c ∈ cells, PayloadSized c.payload

lemma parseLeafCells_sized {page n pos : ℕ} {body pfx : Bytes} {last : Option Bytes}
    {cells : List LeafCell} (h : parseLeafCells page body pfx n pos last = .ok cells) :
    PayloadsSized cells := by
  induction n generalizing pos last cells with
  | zero =>
    cases h
    exact List.forall_mem_nil _
  | succ n ih =>
    rw [parseLeafCells] at h
    obtain ⟨k, -, h⟩ := bind_eq_ok.1 h
    obtain ⟨_, -, h⟩ := bind_eq_ok.1 h
    obtain ⟨p, hp, h⟩ := bind_eq_ok.1 h
    obtain ⟨rest, hrest, h⟩ := bind_eq_ok.1 h
    cases h
    exact List.forall_mem_cons.2 ⟨readLeafPayload_sized hp, ih hrest⟩

lemma parseLeaf_sized {page : ℕ} {body : Bytes} {cells : List LeafCell}
    (h : parseLeaf page body = .ok cells) : PayloadsSized cells := by
  obtain ⟨_, -, h⟩ := bind_eq_ok.1 h
  obtain ⟨_, -, h⟩ := bind_eq_ok.1 h
  exact parseLeafCells_sized h

lemma length_writeAt {b x : Bytes} {pos : ℕ} (h : pos + x.length ≤ b.length) :
    (writeAt b pos x).length = b.length := by
  simp only [writeAt, List.length_append, List.length_take, List.length_drop]
  omega

lemma length_putLastCell {body cell : Bytes} {fin : ℕ} (hn : 2 * (leafNcells body + 1) ≤ body.length)
    (h : fin + cell.length ≤ body.length - 2 * (leafNcells body + 1)) (hpos : 4 ≤ body.length) :
    (putLastCell body fin cell).length = body.length := by
  have hcell : (writeAt body fin cell).length = body.length := length_writeAt (by omega)
  have hptr : (setCellPtr (writeAt body fin cell) (leafNcells body) fin).length = body.length := by
    rw [setCellPtr, length_writeAt, hcell]
    rw [length_leBytes, hcell]
    omega
  rw [putLastCell, length_writeAt, hptr]
  rw [length_leBytes, hptr]
  omega

lemma leafAppend_length {page fin : ℕ} {body body' key : Bytes} {payload : Payload}
    (hbody : body.length = BODY_SIZE)
    (h : leafAppend page body key payload = .ok (some (body', fin))) : body'.length = BODY_SIZE := by
  obtain ⟨-, -, h⟩ := bind_eq_ok.1 h
  obtain ⟨⟨pfx, start⟩, -, h⟩ := bind_eq_ok.1 h
  dsimp only at h
  split at h
  · cases h
  obtain ⟨⟨last, fin₀⟩, -, h⟩ := bind_eq_ok.1 h
  dsimp only at h
  split at h
  · cases h
  obtain ⟨u, hn, h⟩ := bind_eq_ok.1 h
  rw [require_eq_ok] at hn
  split_ifs at h with hfit
  · cases h
  cases h
  rw [length_putLastCell hn (not_lt.1 hfit) (by rw [hbody, BODY_SIZE_eq]; decide), hbody]

lemma appendInlineAt_length {fin fin' : ℕ} {body body' key value : Bytes}
    (hbody : body.length = BODY_SIZE)
    (h : appendInlineAt body fin key value = .ok (some (body', fin'))) :
    body'.length = BODY_SIZE := by
  have hput (stored : Bytes) (h : (require (2 * (leafNcells body + 1) ≤ body.length)
      (.panic "attempt to subtract with overflow") >>= fun _ =>
        if fin + storedCellSize stored.length (.inline value)
            > body.length - 2 * (leafNcells body + 1) then .ok none
        else .ok (some (putLastCell body fin (encodeLeafCell stored (.inline value)),
          fin + storedCellSize stored.length (.inline value)))) = .ok (some (body', fin'))) :
      body'.length = BODY_SIZE := by
    obtain ⟨u, hn, h⟩ := bind_eq_ok.1 h
    rw [require_eq_ok] at hn
    split_ifs at h with hfit
    · cases h
    cases h
    have hlen : (encodeLeafCell stored (.inline value)).length
        = storedCellSize stored.length (.inline value) := by
      rw [hbody, BODY_SIZE_eq, storedCellSize, payloadSize] at hfit
      exact length_encodeLeafCell (by omega) (show value.length < 2 ^ 64 by omega)
    rw [length_putLastCell hn (by rw [hlen]; exact not_lt.1 hfit)
      (by rw [hbody, BODY_SIZE_eq]; decide), hbody]
  simp only [appendInlineAt] at h
  split at h
  · split at h
    · by_cases hpfx : ‹Bytes› <+: key
      · rw [if_pos hpfx] at h
        exact hput _ h
      · rw [if_neg hpfx] at h
        cases h
    · cases h
    · cases h
  · exact hput key h

lemma leafCellAt_sized {page i : ℕ} {body : Bytes} {r : Bytes × Payload}
    (h : leafCellAt page body i = .ok r) : PayloadSized r.2 := by
  obtain ⟨_, -, h⟩ := bind_eq_ok.1 h
  obtain ⟨k, -, h⟩ := bind_eq_ok.1 h
  obtain ⟨_, -, h⟩ := bind_eq_ok.1 h
  obtain ⟨p, hp, h⟩ := bind_eq_ok.1 h
  cases h
  exact readLeafPayload_sized hp

end Node

namespace Btree

open NodeSource NodeStore Node

/-! ### Values that are read -/

/-- The lengths of the values are those of 64-bit integers. -/
def ValuesSized (kvs : Entries) : Prop := ∀ p ∈ kvs, p.2.length < 2 ^ 64

/-- What keys are taken to has such a length. -/
def TargetsSized (targets : List (Bytes × Option Bytes)) : Prop :=
  ∀ p ∈ targets, ∀ v ∈ p.2, v.length < 2 ^ 64

section Values
variable {σ : Type} [NodeSource σ] {s : σ} {n m : ℕ}

lemma readValue_sized {p : Payload} {v : Bytes} (hp : PayloadSized p)
    (h : readValue s n p = .ok v) : v.length < 2 ^ 64 := by
  cases p with
  | inline w =>
    cases h
    exact hp
  | overflow t first =>
    obtain ⟨out, -, h⟩ := bind_eq_ok.1 h
    obtain ⟨_, hlen, h⟩ := bind_eq_ok.1 h
    cases h
    rw [require_eq_ok.1 hlen]
    exact hp.1

/-- An entry comes from the leaf at hand, or the walk went on to the next one. -/
lemma advance_succ {st : CursorState} {r : (Bytes × Bytes) × CursorState}
    (h : advance s n (m + 1) st = .ok (some r)) :
    (∃ (ls : LeafScan) (c : Bytes × Payload), leafCellAt ls.page ls.held ls.next = .ok c ∧ readValue s n c.2 = .ok r.1.2) ∨
    (∃ st', nextLeaf s n st = .ok (some st') ∧ advance s n m st' = .ok (some r)) := by
  rw [advance] at h
  cases hl : st.leaf with
  | none =>
    rw [hl] at h
    obtain ⟨next, hnext, h⟩ := bind_eq_ok.1 h
    cases next with
    | none => cases h
    | some st' => exact Or.inr ⟨st', hnext, h⟩
  | some ls =>
    rw [hl] at h
    dsimp only at h
    split_ifs at h
    · obtain ⟨c, hc, h⟩ := bind_eq_ok.1 h
      obtain ⟨v, hv, h⟩ := bind_eq_ok.1 h
      cases h
      exact Or.inl ⟨ls, c, hc, hv⟩
    · obtain ⟨next, hnext, h⟩ := bind_eq_ok.1 h
      cases next with
      | none => cases h
      | some st' => exact Or.inr ⟨st', hnext, h⟩

lemma advance_sized {st : CursorState} {r : (Bytes × Bytes) × CursorState}
    (h : advance s n m st = .ok (some r)) : r.1.2.length < 2 ^ 64 := by
  induction m generalizing st with
  | zero => cases h
  | succ m ih =>
    obtain ⟨ls, c, hc, hv⟩ | ⟨st', -, h⟩ := advance_succ h
    · exact readValue_sized (leafCellAt_sized hc) hv
    · exact ih h

lemma collect_sized {st : CursorState} {kvs : Entries} (h : collect s n m st = .ok kvs) :
    ValuesSized kvs := by
  induction m generalizing st kvs with
  | zero => cases h
  | succ m ih =>
    obtain ⟨next, ha, h⟩ := bind_eq_ok.1 h
    cases next with
    | none =>
      cases h
      exact List.forall_mem_nil _
    | some r =>
      obtain ⟨rest, hrest, h⟩ := bind_eq_ok.1 h
      cases h
      exact List.forall_mem_cons.2 ⟨advance_sized ha, ih hrest⟩

lemma scan_sized {root : ℕ} {kvs : Entries} (h : scan s n root = .ok kvs) : ValuesSized kvs := by
  obtain ⟨st, -, h⟩ := bind_eq_ok.1 h
  exact collect_sized h

/-- What every step of a loop over entries keeps holds in the end. -/
lemma loopScan_keeps {α : Type} {P : α → Prop} {step : Bytes × Bytes → α → Result (Option α)}
    (hstep : ∀ entry acc acc', entry.2.length < 2 ^ 64 → P acc → step entry acc = .ok (some acc') →
      P acc') {st : CursorState} {acc acc' : α} (hacc : P acc)
    (h : loopScan s n step m st acc = .ok acc') : P acc' := by
  induction m generalizing st acc with
  | zero => cases h
  | succ m ih =>
    obtain ⟨next, ha, h⟩ := bind_eq_ok.1 h
    cases next with
    | none =>
      cases h
      exact hacc
    | some r =>
      obtain ⟨new, hnew, h⟩ := bind_eq_ok.1 h
      cases new with
      | none =>
        cases h
        exact hacc
      | some acc₁ => exact ih (hstep _ _ _ (advance_sized ha) hacc hnew) h

lemma collectRange_sized {id : ℕ} {lo hi : Option Bytes} {kvs : Entries}
    (h : collectRange s n id lo hi = .ok kvs) : ValuesSized kvs := by
  rw [collectRange] at h
  split_ifs at h
  · cases h
    exact List.forall_mem_nil _
  · obtain ⟨st, -, h⟩ := bind_eq_ok.1 h
    refine loopScan_keeps (P := ValuesSized) (fun entry acc acc' he hacc hs => ?_)
      (List.forall_mem_nil _) h
    split_ifs at hs
    · cases hs
    · cases hs
      intro p hp
      rcases List.mem_append.1 hp with hp | hp
      · exact hacc p hp
      · rw [List.mem_singleton.1 hp]
        exact he

/-- The changes lead to states with such lengths. -/
def ChangesSized (cs : List KeyDiff) : Prop := ∀ c ∈ cs, ∀ v ∈ c.2.target, v.length < 2 ^ 64

lemma ChangesSized.append {cs ds : List KeyDiff} (hc : ChangesSized cs) (hd : ChangesSized ds) :
    ChangesSized (cs ++ ds) := fun c hmem => (List.mem_append.1 hmem).elim (hc c) (hd c)

lemma diffFlat_sized {a b : ℕ} {lo hi : Option Bytes} {cs : List KeyDiff}
    (h : diffFlat s n a b lo hi = .ok cs) : ChangesSized cs := by
  obtain ⟨as, -, h⟩ := bind_eq_ok.1 h
  obtain ⟨bs, hbs, h⟩ := bind_eq_ok.1 h
  cases h
  exact fun c hc v hv => collectRange_sized hbs _ (mem_of_target hc hv)

lemma diffChildren_sized {diff : ℕ → ℕ → Option Bytes → Option Bytes → Result (List KeyDiff)}
    (hdiff : ∀ {a b lo hi cs}, diff a b lo hi = .ok cs → ChangesSized cs) {k : ℕ}
    {lo hi : Option Bytes} {as bs : List (Option Bytes × Option Bytes × ℕ)} {cs : List KeyDiff}
    (h : diffChildren diff lo hi k as bs = .ok cs) : ChangesSized cs := by
  induction k generalizing as bs cs with
  | zero => cases h
  | succ k ih =>
    cases as with
    | nil =>
      cases h
      exact List.forall_mem_nil _
    | cons a as =>
      cases bs with
      | nil =>
        cases h
        exact List.forall_mem_nil _
      | cons b bs =>
        rw [diffChildren] at h
        obtain ⟨out, hout, h⟩ := bind_eq_ok.1 h
        obtain ⟨rest, hrest, h⟩ := bind_eq_ok.1 h
        cases h
        refine ChangesSized.append ?_ (ih hrest)
        rw [diffSegment] at hout
        split_ifs at hout
        · exact hdiff hout
        · cases hout
          exact List.forall_mem_nil _

lemma diffRange_sized {k a b : ℕ} {lo hi : Option Bytes} {cs : List KeyDiff}
    (h : diffRange s n k a b lo hi = .ok cs) : ChangesSized cs := by
  induction k generalizing a b lo hi cs with
  | zero => cases h
  | succ k ih =>
    rw [diffRange] at h
    split_ifs at h
    · cases h
      exact List.forall_mem_nil _
    · obtain ⟨es, hes, h⟩ := bind_eq_ok.1 h
      cases h
      intro c hc v hv
      obtain ⟨e, he, rfl⟩ := List.mem_map.1 hc
      cases hv
      exact collectRange_sized hes e he
    · obtain ⟨es, -, h⟩ := bind_eq_ok.1 h
      cases h
      intro c hc v hv
      obtain ⟨e, -, rfl⟩ := List.mem_map.1 hc
      cases hv
    · obtain ⟨abody, -, h⟩ := bind_eq_ok.1 h
      obtain ⟨bbody, -, h⟩ := bind_eq_ok.1 h
      split_ifs at h
      · obtain ⟨as, -, h⟩ := bind_eq_ok.1 h
        obtain ⟨bs, -, h⟩ := bind_eq_ok.1 h
        exact diffChildren_sized ih h
      · exact diffFlat_sized h

end Values

/-! ### What operations on any tree keep -/

section Guarded
variable {σ : Type} [NodeStore σ]

/-- What holds of every body that an operation writes, where it held of the ones that were read; the
cells are those of such a leaf, with a new one among them. -/
structure PageRule (Q : Bytes → Prop) (K : List LeafCell → Prop) (New : Bytes → Payload → Prop) :
    Prop where
  length : ∀ {b}, Q b → b.length = BODY_SIZE
  parse : ∀ {page b cells}, Q b → parseLeaf page b = .ok cells → K cells
  single : ∀ {key p}, New key p → K [⟨key, p⟩]
  insert : ∀ {cells key p i}, K cells → New key p → binarySearch cells key = .error i →
    K (cells.insertIdx i ⟨key, p⟩)
  modify : ∀ {cells key p i}, K cells → New key p → binarySearch cells key = .ok i →
    K (cells.modify i fun c => { c with payload := p })
  sublist : ∀ {cells sub}, K cells → sub.Sublist cells → K sub
  leaf : ∀ {cells b}, K cells → encodeLeaf cells BODY_SIZE = some b → Q b
  inner : ∀ {cells r b}, encodeInner cells r BODY_SIZE = some b → Q b
  overflow : ∀ {chunk next}, chunk.length ≤ OVERFLOW_DATA → Q (encodeOverflow chunk next BODY_SIZE)
  append : ∀ {page b key p b' fin}, Q b → New key p →
    leafAppend page b key p = .ok (some (b', fin)) → Q b'

/-- What holds of a store and stays true when a page is given out, freed, or written after it was
lent, and pages that are not given out: with a node, its children are among them. -/
structure Guarded (P : σ → Prop) (C : Set ℕ) (Q : Bytes → Prop) (K : List LeafCell → Prop)
    (New : Bytes → Payload → Prop) : Prop where
  rule : PageRule Q K New
  page : ∀ {s id b}, P s → body s id = .ok b → Q b
  lent : ∀ {s id b}, P s → bodyMut s id = .ok b → Q b
  alloc : ∀ {s id s'}, P s → alloc s = .ok (id, s') → P s' ∧ id ∉ C ∧ id < 2 ^ 64
  makeDirty : ∀ {s i id s'}, P s → makeDirty s i = .ok (id, s') → P s' ∧ id ∉ C
  setBody : ∀ {s id b b'}, P s → bodyMut s id = .ok b → Q b' → P (setBody s id b')
  free : ∀ {s} id, P s → P (free s id)
  child : ∀ {s id b key child}, P s → id ∈ C → body s id = .ok b → nodeType b = TYPE_INNER →
    innerChild id b key = .ok child → child ∈ C

variable {P : σ → Prop} {C : Set ℕ} {Q : Bytes → Prop} {K : List LeafCell → Prop}
  {New : Bytes → Payload → Prop}

namespace Guarded
variable (h : Guarded P C Q K New) {s : σ} (hs : P s)
include h hs

/-! #### Payloads -/

lemma freeChain {n id : ℕ} {s' : σ} (hrun : Btree.freeChain n s id = .ok s') : P s' := by
  induction n generalizing s id with
  | zero =>
    rw [Btree.freeChain] at hrun
    split_ifs at hrun
    cases hrun
    exact hs
  | succ n ih =>
    rw [Btree.freeChain] at hrun
    split_ifs at hrun
    · cases hrun
      exact hs
    · cases hb : body s id with
      | error e =>
        rw [hb] at hrun
        cases e <;> cases hrun <;> exact hs
      | ok b =>
        rw [hb] at hrun
        dsimp only at hrun
        cases hp : parseOverflow id b with
        | error e =>
          rw [hp] at hrun
          cases e <;> cases hrun <;> exact hs
        | ok r =>
          rw [hp] at hrun
          exact ih (h.free id hs) hrun

lemma freeCell {n i : ℕ} {cells : List LeafCell} {s' : σ}
    (hrun : Btree.freeCell n s cells i = .ok s') : P s' := by
  obtain ⟨c, -, hrun⟩ := bind_eq_ok.1 hrun
  cases hp : c.payload with
  | inline v =>
    rw [hp] at hrun
    cases hrun
    exact hs
  | overflow t first =>
    rw [hp, freePayload] at hrun
    split_ifs at hrun
    · exact h.freeChain hs hrun
    · cases hrun
      exact hs

lemma writeChunks {cs : List Bytes} {next : ℕ} {r : ℕ × σ}
    (hcs : ∀ c ∈ cs, c.length ≤ OVERFLOW_DATA) (hnext : next < 2 ^ 64)
    (hrun : Btree.writeChunks cs s next = .ok r) : P r.2 ∧ r.1 < 2 ^ 64 := by
  induction cs generalizing s next with
  | nil =>
    cases hrun
    exact ⟨hs, hnext⟩
  | cons c cs ih =>
    rw [Btree.writeChunks] at hrun
    obtain ⟨⟨id, s₁⟩, ha, hrun⟩ := bind_eq_ok.1 hrun
    obtain ⟨b, hb, hrun⟩ := bind_eq_ok.1 hrun
    obtain ⟨hs₁, -, hlt⟩ := h.alloc hs ha
    rw [h.rule.length (h.lent hs₁ hb)] at hrun
    exact ih (h.setBody hs₁ hb (h.rule.overflow (hcs c (by simp))))
      (fun d hd => hcs d (by simp [hd])) hlt hrun

lemma makePayload {key value : Bytes} {r : Payload × σ} (hvalue : value.length < 2 ^ 64)
    (hrun : Btree.makePayload s key value = .ok r) : P r.2 ∧ PayloadSized r.1 := by
  rw [Btree.makePayload] at hrun
  split_ifs at hrun
  · cases hrun
    exact ⟨hs, hvalue⟩
  · obtain ⟨⟨first, s'⟩, hw, hrun⟩ := bind_eq_ok.1 hrun
    cases hrun
    obtain ⟨-, -, hw⟩ := bind_eq_ok.1 hw
    obtain ⟨hs', hlt⟩ := h.writeChunks hs (fun c hc =>
      length_of_mem_chunks (by decide) (List.mem_reverse.1 hc)) (by decide) hw
    exact ⟨hs', hvalue, hlt⟩

/-! #### Nodes -/

lemma encodeInto {id : ℕ} {encode : ℕ → Option Bytes} {r : Bool × σ}
    (he : ∀ b, encode BODY_SIZE = some b → Q b)
    (hrun : Btree.encodeInto s id encode = .ok r) : P r.2 := by
  obtain ⟨b, hb, hrun⟩ := bind_eq_ok.1 hrun
  rw [h.rule.length (h.lent hs hb)] at hrun
  cases hx : encode BODY_SIZE with
  | none =>
    rw [hx] at hrun
    cases hrun
    exact hs
  | some b' =>
    rw [hx] at hrun
    cases hrun
    exact h.setBody hs hb (he b' hx)

lemma writeHalves {id : ℕ} {right left : ℕ → Option Bytes} {r : ℕ × σ}
    (hright : ∀ b, right BODY_SIZE = some b → Q b) (hleft : ∀ b, left BODY_SIZE = some b → Q b)
    (hrun : Btree.writeHalves s id right left = .ok r) : P r.2 := by
  obtain ⟨⟨rid, s₁⟩, ha, hrun⟩ := bind_eq_ok.1 hrun
  obtain ⟨⟨ok₁, s₂⟩, hr, hrun⟩ := bind_eq_ok.1 hrun
  obtain ⟨-, -, hrun⟩ := bind_eq_ok.1 hrun
  obtain ⟨⟨ok₂, s₃⟩, hl, hrun⟩ := bind_eq_ok.1 hrun
  obtain ⟨-, -, hrun⟩ := bind_eq_ok.1 hrun
  cases hrun
  exact h.encodeInto (h.encodeInto (h.alloc hs ha).1 hright hr) hleft hl

lemma putCell {n : ℕ} {cells : List LeafCell} {key : Bytes} {payload : Payload}
    {r : List LeafCell × Bool × σ} (hcells : K cells) (hp : New key payload)
    (hrun : Btree.putCell n s cells key payload = .ok r) : P r.2.2 ∧ K r.1 := by
  rw [Btree.putCell] at hrun
  cases hx : binarySearch cells key with
  | error i =>
    rw [hx] at hrun
    cases hrun
    exact ⟨hs, h.rule.insert hcells hp hx⟩
  | ok i =>
    rw [hx] at hrun
    obtain ⟨s', hf, hrun⟩ := bind_eq_ok.1 hrun
    cases hrun
    exact ⟨h.freeCell hs hf, h.rule.modify hcells hp hx⟩

lemma splitLeaf {id : ℕ} {cells : List LeafCell} {appended : Bool} {r : InsertOutcome × σ}
    (hcells : K cells) (hrun : Btree.splitLeaf s id cells appended = .ok r) :
    P r.2 ∧ r.1.id = id := by
  obtain ⟨sep, -, hrun⟩ := bind_eq_ok.1 hrun
  obtain ⟨⟨right, s'⟩, hw, hrun⟩ := bind_eq_ok.1 hrun
  cases hrun
  exact ⟨h.writeHalves hs
    (fun b => h.rule.leaf (h.rule.sublist hcells (List.drop_sublist ..)))
    (fun b => h.rule.leaf (h.rule.sublist hcells (List.take_sublist ..))) hw, rfl⟩

lemma insertLeaf {n id : ℕ} {key : Bytes} {payload : Payload} {r : InsertOutcome × σ}
    (hp : New key payload) (hrun : Btree.insertLeaf n s id key payload = .ok r) :
    P r.2 ∧ r.1.id ∉ C := by
  obtain ⟨⟨id', s₁⟩, hm, hrun⟩ := bind_eq_ok.1 hrun
  obtain ⟨b, hb, hrun⟩ := bind_eq_ok.1 hrun
  obtain ⟨appended, ha, hrun⟩ := bind_eq_ok.1 hrun
  obtain ⟨hs₁, hid⟩ := h.makeDirty hs hm
  cases appended with
  | some x =>
    cases hrun
    exact ⟨h.setBody hs₁ hb (h.rule.append (h.lent hs₁ hb) hp ha), hid⟩
  | none =>
    obtain ⟨b', hb', hrun⟩ := bind_eq_ok.1 hrun
    obtain ⟨cells, hcells, hrun⟩ := bind_eq_ok.1 hrun
    obtain ⟨⟨cells', app, s₂⟩, hput, hrun⟩ := bind_eq_ok.1 hrun
    obtain ⟨⟨ok, s₃⟩, henc, hrun⟩ := bind_eq_ok.1 hrun
    obtain ⟨hs₂, hcells'⟩ := h.putCell hs₁ (h.rule.parse (h.page hs₁ hb') hcells) hp hput
    have hs₃ := h.encodeInto hs₂ (fun b => h.rule.leaf hcells') henc
    dsimp only at hrun
    split_ifs at hrun
    · cases hrun
      exact ⟨hs₃, hid⟩
    · obtain ⟨hr, heq⟩ := h.splitLeaf hs₃ hcells' hrun
      exact ⟨hr, by rw [heq]; exact hid⟩

lemma insertInner {id cid : ℕ} {key : Bytes} {split : Option (Bytes × ℕ)} {tail : Option Tail}
    {r : InsertOutcome × σ} (hrun : Btree.insertInner s id key cid split tail = .ok r) :
    P r.2 ∧ r.1.id ∉ C := by
  obtain ⟨b, -, hrun⟩ := bind_eq_ok.1 hrun
  obtain ⟨⟨cells, rightmost⟩, -, hrun⟩ := bind_eq_ok.1 hrun
  obtain ⟨⟨id', s₁⟩, hm, hrun⟩ := bind_eq_ok.1 hrun
  obtain ⟨⟨ok, s₂⟩, henc, hrun⟩ := bind_eq_ok.1 hrun
  obtain ⟨hs₁, hid⟩ := h.makeDirty hs hm
  have hs₂ := h.encodeInto hs₁ (fun b => h.rule.inner) henc
  dsimp only at hrun
  split_ifs at hrun
  · cases hrun
    exact ⟨hs₂, hid⟩
  · obtain ⟨c, -, hrun⟩ := bind_eq_ok.1 hrun
    obtain ⟨⟨right, s₃⟩, hw, hrun⟩ := bind_eq_ok.1 hrun
    cases hrun
    exact ⟨h.writeHalves hs₂ (fun b => h.rule.inner) (fun b => h.rule.inner) hw, hid⟩

/-- A node whose child stays what it was is no node of the set: there the child would be in the
set, and what comes back of it is not. -/
lemma insertRec {n id : ℕ} {key : Bytes} {payload : Payload} {r : InsertOutcome × σ}
    (hp : New key payload) (hrun : Btree.insertRec key payload n s id = .ok r) :
    P r.2 ∧ r.1.id ∉ C := by
  induction n generalizing s id r with
  | zero => cases hrun
  | succ n ih =>
    rw [Btree.insertRec] at hrun
    obtain ⟨b, hb, hrun⟩ := bind_eq_ok.1 hrun
    split_ifs at hrun with hleaf hinner
    · exact h.insertLeaf hs hp hrun
    · obtain ⟨child, hchild, hrun⟩ := bind_eq_ok.1 hrun
      obtain ⟨⟨out, s₁⟩, hrec, hrun⟩ := bind_eq_ok.1 hrun
      obtain ⟨hs₁, hout⟩ := ih hs hrec
      dsimp only at hrun
      have hkeep {t : Option Tail} {x : InsertOutcome × σ} (hsame : out.id = child)
          (hx : (.ok (⟨id, none, t⟩, s₁) : Result (InsertOutcome × σ)) = .ok x) :
          P x.2 ∧ x.1.id ∉ C := by
        cases hx
        exact ⟨hs₁, fun hid => hout (hsame ▸ h.child hs hid hb hinner hchild)⟩
      by_cases hsame : out.split = none ∧ out.id = child
      · rw [if_pos hsame] at hrun
        exact hkeep hsame.2 hrun
      · rw [if_neg hsame] at hrun
        exact h.insertInner hs₁ hrun

lemma appendAtCursor {cur : Option AppendCursor} {root : ℕ} {key value : Bytes} {s' : σ}
    (hset : ∀ {s} c, P s → P (setAppendCursor s c))
    (happ : ∀ {b b' fin fin'}, Q b → appendInlineAt b fin key value = .ok (some (b', fin')) → Q b')
    (hrun : Btree.appendAtCursor s cur root key value = .ok (some s')) : P s' := by
  cases cur with
  | none => cases hrun
  | some cur =>
    rw [Btree.appendAtCursor] at hrun
    split at hrun
    · obtain ⟨b, hb, hrun⟩ := bind_eq_ok.1 hrun
      obtain ⟨appended, ha, hrun⟩ := bind_eq_ok.1 hrun
      cases appended with
      | none => cases hrun
      | some x =>
        cases hrun
        exact hset _ (h.setBody hs hb (happ (h.lent hs hb) ha))
    · cases hrun

lemma insertDown {n root : ℕ} {key value : Bytes} {r : ℕ × σ}
    (hset : ∀ {s} c, P s → P (setAppendCursor s c)) (hvalue : value.length < 2 ^ 64)
    (hnew : ∀ p, PayloadSized p → New key p) (hrun : Btree.insertDown n s root key value = .ok r) : P r.2 ∧ r.1 ∉ C := by
  obtain ⟨⟨payload, s₁⟩, hpay, hrun⟩ := bind_eq_ok.1 hrun
  obtain ⟨hs₁, hsized⟩ := h.makePayload hs hvalue hpay
  have hp := hnew payload hsized
  dsimp only at hrun
  split_ifs at hrun
  · obtain ⟨⟨id, s₂⟩, ha, hrun⟩ := bind_eq_ok.1 hrun
    obtain ⟨⟨ok, s₃⟩, henc, hrun⟩ := bind_eq_ok.1 hrun
    obtain ⟨-, -, hrun⟩ := bind_eq_ok.1 hrun
    cases hrun
    obtain ⟨hs₂, hid, -⟩ := h.alloc hs₁ ha
    exact ⟨hset _ (h.encodeInto hs₂ (fun b => h.rule.leaf (h.rule.single hp)) henc), hid⟩
  · obtain ⟨⟨out, s₂⟩, hrec, hrun⟩ := bind_eq_ok.1 hrun
    obtain ⟨hs₂, hout⟩ := h.insertRec hs₁ hp hrec
    cases hsplit : out.split with
    | none =>
      rw [hsplit] at hrun
      cases hrun
      exact ⟨hset _ hs₂, hout⟩
    | some x =>
      rw [hsplit] at hrun
      obtain ⟨⟨new_root, s₃⟩, ha, hrun⟩ := bind_eq_ok.1 hrun
      obtain ⟨⟨ok, s₄⟩, henc, hrun⟩ := bind_eq_ok.1 hrun
      obtain ⟨-, -, hrun⟩ := bind_eq_ok.1 hrun
      cases hrun
      obtain ⟨hs₃, hid, -⟩ := h.alloc hs₂ ha
      exact ⟨hset _ (h.encodeInto hs₃ (fun b => h.rule.inner) henc), hid⟩

/-! #### Deleting -/

lemma deleteLeaf {n id : ℕ} {b key : Bytes} {r : Option ℕ × Bool × σ} (hb : Q b)
    (hrun : Btree.deleteLeaf n s id b key = .ok r) : P r.2.2 := by
  obtain ⟨cells, hcells, hrun⟩ := bind_eq_ok.1 hrun
  cases hx : binarySearch cells key with
  | error i =>
    rw [hx] at hrun
    cases hrun
    exact hs
  | ok i =>
    rw [hx] at hrun
    obtain ⟨s₁, hf, hrun⟩ := bind_eq_ok.1 hrun
    have hs₁ := h.freeCell hs hf
    have hrest := h.rule.sublist (h.rule.parse hb hcells) (List.eraseIdx_sublist cells i)
    dsimp only at hrun
    split_ifs at hrun
    · cases hrun
      exact h.free id hs₁
    · obtain ⟨⟨id', s₂⟩, hm, hrun⟩ := bind_eq_ok.1 hrun
      obtain ⟨⟨ok, s₃⟩, henc, hrun⟩ := bind_eq_ok.1 hrun
      obtain ⟨-, -, hrun⟩ := bind_eq_ok.1 hrun
      have hs₃ := h.encodeInto (h.makeDirty hs₁ hm).1 (fun b => h.rule.leaf hrest) henc
      cases hrun
      exact hs₃

lemma rewriteInner {id rightmost : ℕ} {cells : List InnerCell} {existed : Bool}
    {r : Option ℕ × Bool × σ} (hrun : Btree.rewriteInner s id cells rightmost existed = .ok r) :
    P r.2.2 := by
  obtain ⟨⟨id', s₂⟩, hm, hrun⟩ := bind_eq_ok.1 hrun
  obtain ⟨⟨ok, s₃⟩, henc, hrun⟩ := bind_eq_ok.1 hrun
  obtain ⟨-, -, hrun⟩ := bind_eq_ok.1 hrun
  have hs₃ := h.encodeInto (h.makeDirty hs hm).1 (fun b => h.rule.inner) henc
  cases hrun
  exact hs₃

lemma deleteInner {id : ℕ} {key : Bytes} {new_child : Option ℕ} {existed : Bool}
    {r : Option ℕ × Bool × σ} (hrun : Btree.deleteInner s id key new_child existed = .ok r) :
    P r.2.2 := by
  obtain ⟨b, -, hrun⟩ := bind_eq_ok.1 hrun
  obtain ⟨⟨cells, rightmost⟩, -, hrun⟩ := bind_eq_ok.1 hrun
  cases new_child with
  | some child => exact h.rewriteInner hs hrun
  | none =>
    dsimp only at hrun
    cases hx : removeChild cells rightmost (childIndex cells key) with
    | none =>
      rw [hx] at hrun
      cases hrun
      exact h.free id hs
    | some placed =>
      rw [hx] at hrun
      dsimp only at hrun
      split_ifs at hrun
      · cases hrun
        exact h.free id hs
      · exact h.rewriteInner hs hrun

lemma deleteRec {n id : ℕ} {key : Bytes} {r : Option ℕ × Bool × σ}
    (hrun : Btree.deleteRec key n s id = .ok r) : P r.2.2 := by
  induction n generalizing s id r with
  | zero => cases hrun
  | succ n ih =>
    rw [Btree.deleteRec] at hrun
    obtain ⟨b, hb, hrun⟩ := bind_eq_ok.1 hrun
    split_ifs at hrun
    · exact h.deleteLeaf hs (h.page hs hb) hrun
    · obtain ⟨child, -, hrun⟩ := bind_eq_ok.1 hrun
      obtain ⟨⟨new_child, existed, s₁⟩, hrec, hrun⟩ := bind_eq_ok.1 hrun
      have hs₁ := ih hs hrec
      dsimp only at hrun
      split_ifs at hrun
      · cases hrun
        exact hs₁
      · exact h.deleteInner hs₁ hrun

lemma delete {n root : ℕ} {key : Bytes} {r : ℕ × Bool × σ}
    (hrun : Btree.delete n s root key = .ok r) : P r.2.2 := by
  rw [Btree.delete] at hrun
  split_ifs at hrun
  · cases hrun
    exact hs
  · obtain ⟨⟨new_root, existed, s₁⟩, hrec, hrun⟩ := bind_eq_ok.1 hrun
    cases hrun
    exact h.deleteRec hs hrec

end Guarded

end Guarded

/-- Bodies keep their length, and payloads their sizes. -/
lemma pageRule_length :
    PageRule (fun b => b.length = BODY_SIZE) PayloadsSized fun _ p => PayloadSized p where
  length h := h
  parse _ h := parseLeaf_sized h
  single h c hc := by rwa [List.mem_singleton.1 hc]
  insert {cells key p i} hcells hp _ c hc := by
    rcases List.eq_or_mem_of_mem_insertIdx hc with rfl | hc
    · exact hp
    · exact hcells c hc
  modify {cells key p i} hcells hp _ c hc := by
    obtain ⟨j, hj⟩ := List.mem_iff_getElem?.1 hc
    rw [List.getElem?_modify] at hj
    obtain ⟨d, hd, rfl⟩ := Option.map_eq_some_iff.1 hj
    split_ifs
    · exact hp
    · exact hcells d (List.mem_of_getElem? hd)
  sublist hcells hsub c hc := hcells c (hsub.subset hc)
  leaf hcells h := length_encodeLeaf hcells h
  inner h := length_encodeInner h
  overflow h := length_encodeOverflow h
  append hb _ h := leafAppend_length hb h

end Btree

/-! ### The pages of a transaction -/

namespace TxPages

open Btree NodeSource NodeStore

/-- Pages of a file that are closed under the children of its nodes. -/
def Closed (pager : PageLog) (C : Set ℕ) : Prop :=
  ∀ id ∈ C, id < pager.nPages ∧ ∀ b key child, pager.readPage id = .ok b →
    Node.nodeType b = TYPE_INNER → Node.innerChild id b key = .ok child → child ∈ C

/-- The pages of a transaction over the file, in order. -/
def Sound (pager : PageLog) (s : TxPages) : Prop := s.Over pager ∧ s.Valid

variable {pager : PageLog} {C : Set ℕ}

lemma Valid.mutable {s : TxPages} {id : ℕ} {b : Bytes} (h : bodyMut s id = .ok b) :
    valueOf id s.dirty = some b := okOr_eq_ok.1 h

lemma Sound.not_mem {s : TxPages} {id : ℕ} (h : Sound pager s) (hC : Closed pager C)
    (hd : isDirty s id = true) : id ∉ C := by
  intro hid
  obtain ⟨b, hb⟩ := Option.isSome_iff_exists.1 hd
  have hge := (h.2.dirty (id, b) ((mem_iff_valueOf h.2.sorted).2 hb)).1.1
  rw [h.1.2] at hge
  exact absurd (hC id hid).1 (not_lt.2 hge)

lemma Sound.makeDirty {s s' : TxPages} {i id : ℕ} (h : Sound pager s)
    (hm : NodeStore.makeDirty s i = .ok (id, s')) : Sound pager s' ∧ isDirty s' id = true := by
  have hover := (kept_over pager).makeDirty h.1 hm
  cases hd : isDirty s i with
  | true =>
    have heq : NodeStore.makeDirty s i = .ok (i, s) := if_pos hd
    cases hm.symm.trans heq
    exact ⟨h, hd⟩
  | false =>
    have hread : ∃ src, s.pager.readPage i = .ok src := by
      change s.makeDirty i = _ at hm
      rw [TxPages.makeDirty, if_neg (by rw [isDirty_eq] at hd; rw [hd]; exact Bool.false_ne_true)] at hm
      obtain ⟨src, hsrc, -⟩ := bind_eq_ok.1 hm
      exact ⟨src, hsrc⟩
    obtain ⟨src, hsrc⟩ := hread
    have hlt : i < s.alloc_base := by
      rw [h.2.base]
      rw [PageLog.readPage] at hsrc
      split_ifs at hsrc with hid
      have := (List.getElem?_eq_some_iff.1 (okOr_eq_ok.1 hsrc)).1
      rw [PageLog.nPages]
      omega
    have hbody : NodeSource.body s i = .ok src := by
      have hnone : valueOf i s.dirty = none := Option.not_isSome_iff_eq_none.1 (by
        rw [isDirty_eq] at hd
        rw [hd]
        exact Bool.false_ne_true)
      change TxPages.body s i = _
      rw [TxPages.body, hnone]
      dsimp only
      rw [if_neg (not_le.2 hlt), hsrc]
    obtain ⟨hv, hnew⟩ := LawfulNodeStore.makeDirty_ok h.2 hbody hd hm
    exact ⟨⟨hover, hv⟩, hnew.dirty⟩

lemma guarded (hC : Closed pager C) :
    Guarded (Sound pager) C (fun b => b.length = BODY_SIZE) Node.PayloadsSized
      fun _ p => Node.PayloadSized p where
  rule := pageRule_length
  page {s id b} h hb := LawfulNodeStore.body_length h.2 hb
  lent {s id b} h hb :=
    (h.2.dirty (id, b) ((mem_iff_valueOf h.2.sorted).2 (Valid.mutable hb))).2
  alloc {s id s'} h ha := by
    obtain ⟨hv, b, hnew⟩ := LawfulNodeStore.alloc_ok h.2 ha
    have hs' : Sound pager s' := ⟨(kept_over pager).alloc h.1 ha, hv⟩
    exact ⟨hs', hs'.not_mem hC hnew.dirty, hnew.lt⟩
  makeDirty {s i id s'} h hm := by
    obtain ⟨hs', hd⟩ := h.makeDirty hm
    exact ⟨hs', hs'.not_mem hC hd⟩
  setBody {s id b b'} h hb hlen := by
    have hbody := TxPages.body_dirty (Valid.mutable hb)
    have hd : isDirty s id = true := by rw [isDirty_eq, Valid.mutable hb]; rfl
    exact ⟨h.1, (LawfulNodeStore.setBody_ok h.2 hbody hd hlen).1⟩
  free {s} id h := by
    refine ⟨(kept_over pager).free id h.1, ?_⟩
    cases hd : isDirty s id with
    | true =>
      obtain ⟨b, hb⟩ := Option.isSome_iff_exists.1 hd
      exact (LawfulNodeStore.free_dirty h.2 (TxPages.body_dirty hb) hd).1
    | false => rw [LawfulNodeStore.free_clean h.2 hd]; exact h.2
  child {s id b key child} h hid hb ht hc := by
    rcases body_cases hb with hdirty | ⟨-, -, hread⟩
    · have hd : isDirty s id = true := by rw [isDirty_eq, hdirty]; rfl
      exact absurd hid (h.not_mem hC hd)
    · rw [h.1.1] at hread
      exact (hC id hid).2 b key child hread ht hc

end TxPages

namespace TxStore

open Btree NodeStore

/-- The pages of the transaction are in order, and its cursor is on no tree among the pages. -/
structure Clear (pager : PageLog) (C : Set ℕ) (s : TxStore) : Prop where
  sound : s.Sound pager
  cursor : ∀ cur ∈ s.append_cursor, cur.root ∉ C

section Clear
variable {pager : PageLog} {C : Set ℕ} {s s' : TxStore} {n root root' : ℕ} {key value : Bytes}
  {existed : Bool}

lemma clear_new (h : pager.nPages < 2 ^ 64) : Clear pager C (new pager) :=
  ⟨⟨TxPages.over_new pager, TxPages.valid_new h⟩, by simp [new]⟩

/-- The cursor an insertion leaves behind is on the root it gives back. -/
lemma insertDown_cursor_root (hrun : insertDown n s root key value = .ok (root', s')) :
    ∀ cur ∈ s'.append_cursor, cur.root = root' := by
  obtain ⟨⟨payload, s₁⟩, -, hrun⟩ := bind_eq_ok.1 hrun
  dsimp only at hrun
  split_ifs at hrun
  · obtain ⟨⟨id, s₂⟩, -, hrun⟩ := bind_eq_ok.1 hrun
    obtain ⟨⟨ok, s₃⟩, -, hrun⟩ := bind_eq_ok.1 hrun
    obtain ⟨-, -, hrun⟩ := bind_eq_ok.1 hrun
    cases hrun
    exact fun cur hcur => by cases hcur
  · obtain ⟨⟨out, s₂⟩, -, hrun⟩ := bind_eq_ok.1 hrun
    cases hsplit : out.split with
    | none =>
      rw [hsplit] at hrun
      cases hrun
      intro cur hcur
      obtain ⟨t, -, rfl⟩ := Option.map_eq_some_iff.1 hcur
      rfl
    | some x =>
      rw [hsplit] at hrun
      obtain ⟨⟨new_root, s₃⟩, -, hrun⟩ := bind_eq_ok.1 hrun
      obtain ⟨⟨ok, s₄⟩, -, hrun⟩ := bind_eq_ok.1 hrun
      obtain ⟨-, -, hrun⟩ := bind_eq_ok.1 hrun
      cases hrun
      intro cur hcur
      obtain ⟨t, -, rfl⟩ := Option.map_eq_some_iff.1 hcur
      rfl

/-- The fast path leaves a cursor on the root where it found it. -/
lemma appendAtCursor_root {cur : Option AppendCursor}
    (hrun : appendAtCursor s cur root key value = .ok (some s')) :
    ∀ new ∈ s'.append_cursor, ∃ old ∈ cur, new.root = old.root := by
  cases cur with
  | none => cases hrun
  | some cur =>
    rw [appendAtCursor] at hrun
    split at hrun
    · obtain ⟨b, -, hrun⟩ := bind_eq_ok.1 hrun
      obtain ⟨appended, -, hrun⟩ := bind_eq_ok.1 hrun
      cases appended with
      | none => cases hrun
      | some x =>
        cases hrun
        intro new hnew
        cases hnew
        exact ⟨cur, rfl, rfl⟩
    · cases hrun

lemma guarded (hC : TxPages.Closed pager C) :
    Guarded (fun s : TxStore => s.Sound pager) C (fun b => b.length = BODY_SIZE) Node.PayloadsSized
      fun _ p => Node.PayloadSized p where
  rule := pageRule_length
  page h hb := (TxPages.guarded hC).page h hb
  lent h hb := (TxPages.guarded hC).lent h hb
  alloc {s id s'} h ha := by
    change (NodeStore.alloc s.toTxPages).map _ = _ at ha
    cases hx : NodeStore.alloc s.toTxPages with
    | error e => rw [hx] at ha; cases ha
    | ok r =>
      rw [hx] at ha
      cases ha
      exact (TxPages.guarded hC).alloc h hx
  makeDirty {s i id s'} h hm := by
    change (NodeStore.makeDirty s.toTxPages i).map _ = _ at hm
    cases hx : NodeStore.makeDirty s.toTxPages i with
    | error e => rw [hx] at hm; cases hm
    | ok r =>
      rw [hx] at hm
      cases hm
      exact (TxPages.guarded hC).makeDirty h hx
  setBody h hb hlen := (TxPages.guarded hC).setBody h hb hlen
  free id h := (TxPages.guarded hC).free id h
  child h hid hb ht hc := (TxPages.guarded hC).child h hid hb ht hc

lemma Clear.insert (h : s.Clear pager C) (hC : TxPages.Closed pager C)
    (hvalue : value.length < 2 ^ 64) (hrun : Btree.insert n s root key value = .ok (root', s')) :
    s'.Clear pager C := by
  obtain ⟨-, -, hrun⟩ := bind_eq_ok.1 hrun
  obtain ⟨appended, ha, hrun⟩ := bind_eq_ok.1 hrun
  have htaken : ({ s with append_cursor := none } : TxStore).Sound pager := h.sound
  cases appended with
  | some t =>
    cases hrun
    have hsound := (guarded hC).appendAtCursor htaken (fun _ h => h) Node.appendInlineAt_length ha
    refine ⟨hsound, fun new hnew => ?_⟩
    obtain ⟨old, hold, heq⟩ := appendAtCursor_root ha new hnew
    rw [heq]
    exact h.cursor old hold
  | none =>
    obtain ⟨hsound, hroot⟩ := (guarded hC).insertDown htaken (fun _ h => h) hvalue (fun _ hp => hp) hrun
    refine ⟨hsound, fun cur hcur => ?_⟩
    rw [insertDown_cursor_root hrun cur hcur]
    exact hroot

lemma Clear.delete (h : s.Clear pager C) (hC : TxPages.Closed pager C)
    (hrun : Btree.delete n s root key = .ok (root', existed, s')) : s'.Clear pager C := by
  refine ⟨(guarded hC).delete h.sound hrun, ?_⟩
  rw [delete_cursor hrun]
  exact h.cursor

end Clear

end TxStore

end Arkeion
