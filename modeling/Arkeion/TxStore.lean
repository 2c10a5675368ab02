import Arkeion.BtreeSpec
import Arkeion.PageLog

/-!
The pages of a write transaction: those of the file, which never change, and the dirty ones of
the transaction, with ids from the end of the file on.
-/

namespace Arkeion

open Arkeion.Lib

open Btree NodeSource NodeStore

/-- The pages of a transaction, without the cursor. `freed` is a stack of ids to use again. -/
structure TxPages where
  pager : PageLog
  dirty : List (ℕ × Bytes)
  freed : List ℕ
  alloc_base : ℕ
  alloc_next : ℕ

namespace TxPages

def new (pager : PageLog) : TxPages where
  pager := pager
  dirty := []
  freed := []
  alloc_base := pager.nPages
  alloc_next := pager.nPages

def body (s : TxPages) (id : ℕ) : Result Bytes :=
  match valueOf id s.dirty with
  | some b => .ok b
  | none =>
    if s.alloc_base ≤ id then .error (.corrupt id "página transitoria liberada")
    else s.pager.readPage id

/-- An id for a new page: a freed one, or the next one. -/
def takeId (s : TxPages) : Result (ℕ × TxPages) :=
  match s.freed with
  | id :: freed => .ok (id, { s with freed := freed })
  | [] => do
    require (s.alloc_next + 1 < 2 ^ 64) (.panic "attempt to add with overflow")
    .ok (s.alloc_next, { s with alloc_next := s.alloc_next + 1 })

def insertPage (s : TxPages) (id : ℕ) (b : Bytes) : TxPages :=
  { s with dirty := insertKey id b s.dirty }

def alloc (s : TxPages) : Result (ℕ × TxPages) := do
  let (id, s) ← s.takeId
  .ok (id, s.insertPage id zeroBody)

def makeDirty (s : TxPages) (id : ℕ) : Result (ℕ × TxPages) :=
  if (valueOf id s.dirty).isSome then .ok (id, s)
  else do
    let src ← s.pager.readPage id
    let (new, s) ← s.alloc
    .ok (new, s.insertPage new src)

def free (s : TxPages) (id : ℕ) : TxPages :=
  if (valueOf id s.dirty).isSome then
    { s with dirty := eraseKey id s.dirty, freed := id :: s.freed }
  else s

instance instNodeStore : NodeStore TxPages where
  body := TxPages.body
  alloc := TxPages.alloc
  makeDirty := TxPages.makeDirty
  bodyMut s id := okOr (valueOf id s.dirty) (.panic "body_mut sobre página no sucia")
  setBody := TxPages.insertPage
  free := TxPages.free
  isDirty s id := (valueOf id s.dirty).isSome

instance instNoCursor : NoCursor TxPages where
  take _ := rfl
  set _ _ := rfl

end TxPages

/-- `TxStore`: the pages, and the cursor for appending. -/
structure TxStore extends TxPages where
  append_cursor : Option AppendCursor

namespace TxStore

def new (pager : PageLog) : TxStore := { TxPages.new pager with append_cursor := none }

/-- The store with other pages. -/
def withPages (s : TxStore) (p : TxPages) : TxStore := { s with toTxPages := p }

instance instNodeStore : NodeStore TxStore where
  body s id := NodeSource.body s.toTxPages id
  alloc s := (NodeStore.alloc s.toTxPages).map fun r => (r.1, s.withPages r.2)
  makeDirty s id := (NodeStore.makeDirty s.toTxPages id).map fun r => (r.1, s.withPages r.2)
  bodyMut s id := NodeStore.bodyMut s.toTxPages id
  setBody s id b := s.withPages (NodeStore.setBody s.toTxPages id b)
  free s id := s.withPages (NodeStore.free s.toTxPages id)
  isDirty s id := NodeStore.isDirty s.toTxPages id
  takeAppendCursor s := (s.append_cursor, { s with append_cursor := none })
  setAppendCursor s c := { s with append_cursor := c }

end TxStore

/-! ### The promises of the store -/

namespace TxPages

/-- Dirty pages and freed ids are those given out, no id is both, and no id is freed twice. -/
structure Valid (s : TxPages) : Prop where
  base : s.alloc_base = s.pager.nPages
  base_le : s.alloc_base ≤ s.alloc_next
  next_lt : s.alloc_next < 2 ^ 64
  sorted : SortedMap s.dirty
  dirty : ∀ p ∈ s.dirty, (s.alloc_base ≤ p.1 ∧ p.1 < s.alloc_next) ∧ p.2.length = BODY_SIZE
  freed : ∀ id ∈ s.freed, (s.alloc_base ≤ id ∧ id < s.alloc_next) ∧ valueOf id s.dirty = none
  nodup : s.freed.Nodup

lemma valid_new {pager : PageLog} (h : pager.nPages < 2 ^ 64) : Valid (new pager) :=
  ⟨rfl, le_rfl, h, List.Pairwise.nil, by simp [new], by simp [new], List.nodup_nil⟩

section Laws
variable {s s' : TxPages} {id j : ℕ} {b c : Bytes}

lemma Valid.base_pos (h : Valid s) : 0 < s.alloc_base := by
  rw [h.base, PageLog.nPages]
  exact Nat.add_pos_left (by decide) _

lemma body_dirty (h : valueOf id s.dirty = some b) : NodeSource.body s id = .ok b := by
  change TxPages.body s id = _
  simp only [TxPages.body, h]

lemma isDirty_eq : isDirty s id = (valueOf id s.dirty).isSome := rfl

/-- A page that can be read is dirty, or a page of the file. -/
lemma body_cases (hb : NodeSource.body s id = .ok b) : valueOf id s.dirty = some b ∨
    valueOf id s.dirty = none ∧ id < s.alloc_base ∧ s.pager.readPage id = .ok b := by
  change TxPages.body s id = _ at hb
  rw [TxPages.body] at hb
  cases hd : valueOf id s.dirty with
  | some d =>
    simp only [hd, Except.ok.injEq] at hb
    exact Or.inl (by rw [hb])
  | none =>
    simp only [hd] at hb
    split_ifs at hb with hge
    exact Or.inr ⟨rfl, not_le.1 hge, hb⟩

lemma valueOf_some_of_isDirty (hb : NodeSource.body s id = .ok b) (hd : isDirty s id = true) :
    valueOf id s.dirty = some b := by
  rcases body_cases hb with h | ⟨h, -⟩
  · exact h
  · rw [isDirty_eq, h] at hd
    cases hd

/-- The other pages are seen as before when they are dirty as before. -/
lemma keeps_of (hp : s'.pager = s.pager) (hbase : s'.alloc_base = s.alloc_base)
    (hj : valueOf j s'.dirty = valueOf j s.dirty) :
    NodeSource.body s' j = NodeSource.body s j ∧ isDirty s' j = isDirty s j := by
  refine ⟨?_, by rw [isDirty_eq, isDirty_eq, hj]⟩
  change TxPages.body s' j = TxPages.body s j
  rw [TxPages.body, TxPages.body, hj, hp, hbase]

lemma valueOf_insertPage (h : SortedMap s.dirty) (j : ℕ) :
    valueOf j (s.insertPage id b).dirty = if j = id then some b else valueOf j s.dirty := by
  rw [insertPage, valueOf_insertKey h, Function.update_apply]

lemma Valid.insertPage (h : Valid s) (hid : s.alloc_base ≤ id ∧ id < s.alloc_next)
    (hfreed : id ∉ s.freed) (hb : b.length = BODY_SIZE) : Valid (s.insertPage id b) where
  base := h.base
  base_le := h.base_le
  next_lt := h.next_lt
  sorted := h.sorted.insertKey
  dirty p hp := by
    rcases mem_insertKey hp with rfl | hp
    · exact ⟨hid, hb⟩
    · exact h.dirty p hp
  freed j hj := by
    refine ⟨(h.freed j hj).1, ?_⟩
    rw [valueOf_insertPage h.sorted, if_neg]
    · exact (h.freed j hj).2
    · rintro rfl
      exact hfreed hj
  nodup := h.nodup

/-- An id that was taken is in the range of the transaction, and no page has it. -/
lemma takeId_ok (h : Valid s) (ht : s.takeId = .ok (id, s')) : Valid s' ∧ s'.pager = s.pager ∧
    s'.alloc_base = s.alloc_base ∧ s'.dirty = s.dirty ∧ valueOf id s.dirty = none ∧
    (s'.alloc_base ≤ id ∧ id < s'.alloc_next) ∧ id ∉ s'.freed := by
  rw [takeId] at ht
  cases hf : s.freed with
  | cons i freed =>
    simp only [hf, Except.ok.injEq, Prod.mk.injEq] at ht
    obtain ⟨rfl, rfl⟩ := ht
    have hnd := h.nodup
    rw [hf, List.nodup_cons] at hnd
    have hi := h.freed i (by rw [hf]; simp)
    exact ⟨⟨h.base, h.base_le, h.next_lt, h.sorted, h.dirty,
      fun j hj => h.freed j (by rw [hf]; exact List.mem_cons_of_mem _ hj), hnd.2⟩, rfl, rfl, rfl,
      hi.2, hi.1, hnd.1⟩
  | nil =>
    simp only [hf] at ht
    obtain ⟨u, hreq, ht⟩ := bind_eq_ok.1 ht
    have hlt := require_eq_ok.1 hreq
    simp only [Except.ok.injEq, Prod.mk.injEq] at ht
    obtain ⟨rfl, rfl⟩ := ht
    refine ⟨⟨h.base, h.base_le.trans (Nat.le_succ _), hlt, h.sorted, fun p hp => ?_,
      by simp, List.nodup_nil⟩, rfl, rfl, rfl, ?_, ⟨h.base_le, Nat.lt_succ_self _⟩, by simp⟩
    · obtain ⟨⟨h1, h2⟩, h3⟩ := h.dirty p hp
      exact ⟨⟨h1, h2.trans (Nat.lt_succ_self _)⟩, h3⟩
    · refine valueOf_eq_none fun p hp heq => ?_
      have := (h.dirty p hp).1.2
      omega

/-- A page put under an id that was taken. -/
lemma newPage (h : Valid s) (ht : s.takeId = .ok (id, s')) (hb : b.length = BODY_SIZE) :
    Valid (s'.insertPage id b) ∧ NewPage s (s'.insertPage id b) id b := by
  obtain ⟨hv, hp, hbase, hdirty, hnone, hid, hfreed⟩ := takeId_ok h ht
  have hsorted : SortedMap s'.dirty := hv.sorted
  have hpos := h.base_pos
  have hself : valueOf id (s'.insertPage id b).dirty = some b := by
    rw [valueOf_insertPage hsorted, if_pos rfl]
  refine ⟨hv.insertPage hid hfreed hb, ?_, hid.2.trans hv.next_lt, fun c hc => ?_,
    body_dirty hself, by rw [isDirty_eq, hself]; rfl, fun j hj => ?_⟩
  · rw [NO_ROOT]
    omega
  · rcases body_cases hc with h' | ⟨-, hlt, -⟩
    · rw [hnone] at h'
      cases h'
    · omega
  · refine keeps_of hp hbase ?_
    rw [valueOf_insertPage hsorted, if_neg hj, hdirty]

lemma takeId_error {e : Error} (ht : s.takeId = .error e) :
    e = .panic "attempt to add with overflow" := by
  rw [takeId] at ht
  cases hf : s.freed with
  | cons i freed => simp [hf] at ht
  | nil =>
    simp only [hf] at ht
    rcases bind_eq_error.1 ht with hreq | ⟨-, -, ht⟩
    · exact (require_eq_error.1 hreq).2.symm
    · cases ht

end Laws

instance instLawful : LawfulNodeStore TxPages where
  Valid := Valid
  AllocError e := e = .panic "attempt to add with overflow"
  body_length {s id b} h hb := by
    rcases body_cases hb with hd | ⟨-, -, hread⟩
    · exact (h.dirty (id, b) ((mem_iff_valueOf h.sorted).2 hd)).2
    · rw [PageLog.readPage] at hread
      split_ifs at hread
      exact s.pager.length_page b (List.mem_of_getElem? (okOr_eq_ok.1 hread))
  alloc_ok {s s' id} h ha := by
    change s.alloc = _ at ha
    obtain ⟨⟨i, t⟩, ht, heq⟩ := bind_eq_ok.1 ha
    cases heq
    obtain ⟨hv, hnew⟩ := newPage h ht (List.length_replicate ..)
    exact ⟨hv, zeroBody, hnew⟩
  alloc_error {s e} h ha := by
    change s.alloc = _ at ha
    rcases bind_eq_error.1 ha with ht | ⟨⟨i, t⟩, -, heq⟩
    · exact takeId_error ht
    · cases heq
  makeDirty_dirty {s id b} h hb hd := if_pos hd
  makeDirty_ok {s s' id id' b} h hb hd hm := by
    change s.makeDirty id = _ at hm
    rw [isDirty_eq] at hd
    rw [TxPages.makeDirty, if_neg (by rw [hd]; exact Bool.false_ne_true)] at hm
    rcases body_cases hb with h' | ⟨-, -, hread⟩
    · rw [h'] at hd
      cases hd
    · rw [hread, ok_bind] at hm
      obtain ⟨⟨i, t⟩, ha, heq⟩ := bind_eq_ok.1 hm
      cases heq
      obtain ⟨⟨i', t'⟩, ht, heq⟩ := bind_eq_ok.1 ha
      cases heq
      have htwice : (t'.insertPage id' zeroBody).insertPage id' b = t'.insertPage id' b := by
        simp only [insertPage, insertKey_insertKey]
      rw [htwice]
      refine newPage h ht ?_
      rw [PageLog.readPage] at hread
      split_ifs at hread
      exact s.pager.length_page b (List.mem_of_getElem? (okOr_eq_ok.1 hread))
  makeDirty_error {s id b e} h hb hm := by
    change s.makeDirty id = _ at hm
    rw [TxPages.makeDirty] at hm
    split_ifs at hm with hd
    rcases body_cases hb with h' | ⟨-, -, hread⟩
    · rw [h'] at hd
      exact absurd rfl hd
    · rw [hread, ok_bind] at hm
      rcases bind_eq_error.1 hm with ha | ⟨⟨i, t⟩, -, heq⟩
      · rcases bind_eq_error.1 ha with ht | ⟨⟨i, t⟩, -, heq⟩
        · exact takeId_error ht
        · cases heq
      · cases heq
  bodyMut_eq {s id b} h hb hd := by
    change okOr (valueOf id s.dirty) _ = _
    rw [valueOf_some_of_isDirty hb hd, okOr_some]
  setBody_ok {s id b b'} h hb hd hlen := by
    have hmem := (mem_iff_valueOf h.sorted).2 (valueOf_some_of_isDirty hb hd)
    have hself : valueOf id (s.insertPage id b').dirty = some b' := by
      rw [valueOf_insertPage h.sorted, if_pos rfl]
    refine ⟨h.insertPage (h.dirty _ hmem).1 (fun hf => ?_) hlen, body_dirty hself, ?_,
      fun j hj => keeps_of rfl rfl ?_⟩
    · rw [isDirty_eq, (h.freed id hf).2] at hd
      cases hd
    · change (valueOf id (s.insertPage id b').dirty).isSome = true
      rw [hself]
      rfl
    · change valueOf j (s.insertPage id b').dirty = _
      rw [valueOf_insertPage h.sorted, if_neg hj]
  free_dirty {s id b} h hb hd := by
    have hfree : NodeStore.free s id
        = { s with dirty := eraseKey id s.dirty, freed := id :: s.freed } := if_pos hd
    have hmem := (mem_iff_valueOf h.sorted).2 (valueOf_some_of_isDirty hb hd)
    rw [hfree]
    refine ⟨⟨h.base, h.base_le, h.next_lt, h.sorted.eraseKey, fun p hp => ?_, fun j hj => ?_, ?_⟩,
      fun j hj => keeps_of rfl rfl ?_, fun c hc => ?_⟩
    · exact h.dirty p (List.mem_of_mem_filter hp)
    · rw [valueOf_eraseKey, Function.update_apply]
      rcases List.mem_cons.1 hj with rfl | hj
      · exact ⟨(h.dirty _ hmem).1, if_pos rfl⟩
      · refine ⟨(h.freed j hj).1, ?_⟩
        split_ifs
        · rfl
        · exact (h.freed j hj).2
    · refine List.nodup_cons.2 ⟨fun hf => ?_, h.nodup⟩
      rw [isDirty_eq, (h.freed id hf).2] at hd
      cases hd
    · rw [valueOf_eraseKey, Function.update_of_ne hj]
    · have hge : s.alloc_base ≤ id := (h.dirty _ hmem).1.1
      rcases body_cases hc with hsome | ⟨-, hlt, -⟩
      · rw [valueOf_eraseKey, Function.update_self] at hsome
        cases hsome
      · exact absurd hlt (not_lt.2 hge)
  free_clean {s id} h hd := if_neg (by rw [← isDirty_eq, hd]; exact Bool.false_ne_true)

end TxPages

namespace TxStore

section Laws
variable {s : TxStore} {p : TxPages} {id : ℕ} {b : Bytes}

lemma keepsOthers (h : KeepsOthers s.toTxPages p id) : KeepsOthers s (s.withPages p) id := h

lemma newPage (h : NewPage s.toTxPages p id b) : NewPage s (s.withPages p) id b :=
  ⟨h.ne_root, h.lt, h.absent, h.body_eq, h.dirty, keepsOthers h.others⟩

lemma map_eq_ok {x : Result (ℕ × TxPages)} {id : ℕ} {s' : TxStore}
    (h : x.map (fun r => (r.1, s.withPages r.2)) = .ok (id, s')) :
    x = .ok (id, s'.toTxPages) ∧ s' = s.withPages s'.toTxPages := by
  cases x with
  | error e => cases h
  | ok r =>
    cases h
    exact ⟨rfl, rfl⟩

lemma map_eq_error {x : Result (ℕ × TxPages)} {e : Error}
    (h : x.map (fun r => (r.1, s.withPages r.2)) = .error e) : x = .error e := by
  cases x with
  | error e => cases h; rfl
  | ok r => cases h

end Laws

open LawfulNodeStore in
instance instLawful : LawfulNodeStore TxStore where
  Valid s := TxPages.Valid s.toTxPages
  AllocError := AllocError TxPages
  body_length {s id b} h hb := body_length (s := s.toTxPages) h hb
  alloc_ok {s s' id} h ha := by
    obtain ⟨hx, hs⟩ := map_eq_ok ha
    obtain ⟨hv, b, hnew⟩ := alloc_ok h hx
    refine ⟨hv, b, ?_⟩
    rw [hs]
    exact newPage hnew
  alloc_error {s e} h ha := alloc_error h (map_eq_error ha)
  makeDirty_dirty {s id b} h hb hd := by
    change (NodeStore.makeDirty s.toTxPages id).map _ = _
    rw [makeDirty_dirty (s := s.toTxPages) h hb hd]
    rfl
  makeDirty_ok {s s' id id' b} h hb hd hm := by
    obtain ⟨hx, hs⟩ := map_eq_ok hm
    obtain ⟨hv, hnew⟩ := makeDirty_ok (s := s.toTxPages) h hb hd hx
    refine ⟨hv, ?_⟩
    rw [hs]
    exact newPage hnew
  makeDirty_error {s id b e} h hb hm := makeDirty_error (s := s.toTxPages) h hb (map_eq_error hm)
  bodyMut_eq {s id b} h hb hd := bodyMut_eq (s := s.toTxPages) h hb hd
  setBody_ok {s id b b'} h hb hd hlen := by
    obtain ⟨hv, hb', hd', hothers⟩ := setBody_ok (s := s.toTxPages) h hb hd hlen
    exact ⟨hv, hb', hd', keepsOthers hothers⟩
  free_dirty {s id b} h hb hd := by
    obtain ⟨hv, hothers, hgone⟩ := free_dirty (s := s.toTxPages) h hb hd
    exact ⟨hv, keepsOthers hothers, hgone⟩
  free_clean {s id} h hd := by
    change s.withPages (NodeStore.free s.toTxPages id) = s
    rw [free_clean (s := s.toTxPages) h hd]
    rfl

instance instCursorApart : CursorApart TxStore where
  take h := ⟨h, fun _ _ hb _ => ⟨hb, rfl⟩, by simp, fun _ _ hown => Or.inr ⟨hown, by simp⟩⟩
  set _ h := ⟨h, fun _ _ hb _ => ⟨hb, rfl⟩, by simp, fun _ _ hown => Or.inr ⟨hown, by simp⟩⟩

lemma valid_new {pager : PageLog} (h : pager.nPages < 2 ^ 64) :
    LawfulNodeStore.Valid (new pager) := TxPages.valid_new h

end TxStore

end Arkeion
