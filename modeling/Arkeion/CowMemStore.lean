import Arkeion.BtreeSpec

/-!
A store of pages in memory with copy-on-write: pages below a mark are frozen, to change one is
to copy it. It keeps no append cursor.
-/

namespace Arkeion

open Arkeion.Lib

namespace Btree

open NodeSource NodeStore

structure CowMemStore where
  pages : ℕ → Option Bytes
  next : ℕ
  frozen_below : ℕ

namespace CowMemStore

def new : CowMemStore where
  pages := fun _ => none
  next := 3
  frozen_below := 3

/-- From here on, changing a page that is there copies it. -/
def freeze (s : CowMemStore) : CowMemStore := { s with frozen_below := s.next }

def insertPage (s : CowMemStore) (id : ℕ) (b : Option Bytes) : CowMemStore :=
  { s with pages := Function.update s.pages id b }

def body (s : CowMemStore) (id : ℕ) : Result Bytes :=
  okOr (s.pages id) (.corrupt id "página inexistente (test)")

def alloc (s : CowMemStore) : Result (ℕ × CowMemStore) := do
  require (s.next + 1 < 2 ^ 64) (.panic "attempt to add with overflow")
  .ok (s.next, insertPage { s with next := s.next + 1 } s.next
    (some (List.replicate BODY_SIZE 0)))

def makeDirty (s : CowMemStore) (id : ℕ) : Result (ℕ × CowMemStore) :=
  if s.frozen_below ≤ id then .ok (id, s)
  else do
    let content ← okOr (s.pages id) (.panic "página congelada")
    let (new, s) ← s.alloc
    .ok (new, s.insertPage new (some content))

instance instNodeStore : NodeStore CowMemStore where
  body := CowMemStore.body
  alloc := CowMemStore.alloc
  makeDirty := CowMemStore.makeDirty
  bodyMut s id := okOr (s.pages id) (.panic "página sucia inexistente")
  setBody s id b := s.insertPage id (some b)
  free s id := if s.frozen_below ≤ id then s.insertPage id none else s
  isDirty s id := decide (s.frozen_below ≤ id)

instance instNoCursor : NoCursor CowMemStore where
  take _ := rfl
  set _ _ := rfl

/-- The pages are those given out, each of the size of a body. -/
structure Valid (s : CowMemStore) : Prop where
  next_pos : 0 < s.next
  next_lt : s.next < 2 ^ 64
  frozen_le : s.frozen_below ≤ s.next
  page : ∀ id b, s.pages id = some b → id < s.next ∧ b.length = BODY_SIZE

lemma valid_new : Valid new :=
  ⟨by decide, by decide, le_rfl, fun id b hb => by cases hb⟩

section Laws
variable {s : CowMemStore} {id j : ℕ} {b : Bytes}

lemma body_eq_ok : NodeSource.body s id = .ok b ↔ s.pages id = some b := okOr_eq_ok

lemma body_congr {s' : CowMemStore} (h : s'.pages j = s.pages j) :
    NodeSource.body s' j = NodeSource.body s j := by
  change okOr (s'.pages j) _ = okOr (s.pages j) _
  rw [h]

lemma body_insertPage_self (c : Option Bytes) : (s.insertPage id c).pages id = c :=
  Function.update_self ..

lemma body_insertPage_ne (c : Option Bytes) (h : j ≠ id) :
    (s.insertPage id c).pages j = s.pages j := Function.update_of_ne h ..

/-- A page put in place of another, or for the first time. -/
lemma Valid.insertPage (h : Valid s) (hid : id < s.next) {c : Option Bytes}
    (hc : ∀ b ∈ c, b.length = BODY_SIZE) : Valid (s.insertPage id c) where
  next_pos := h.next_pos
  next_lt := h.next_lt
  frozen_le := h.frozen_le
  page j b hb := by
    rcases eq_or_ne j id with rfl | hne
    · rw [body_insertPage_self] at hb
      exact ⟨hid, hc b hb⟩
    · rw [body_insertPage_ne c hne] at hb
      exact h.page j b hb

/-- The next page taken, with a body. -/
lemma newPage (h : Valid s) (hnext : s.next + 1 < 2 ^ 64) (hb : b.length = BODY_SIZE) :
    Valid (CowMemStore.insertPage { s with next := s.next + 1 } s.next (some b)) ∧
    NewPage s (CowMemStore.insertPage { s with next := s.next + 1 } s.next (some b)) s.next b := by
  have habsent : ∀ b, NodeSource.body s s.next ≠ .ok b := fun b hb =>
    absurd (h.page _ b (body_eq_ok.1 hb)).1 (lt_irrefl _)
  have hv : Valid { s with next := s.next + 1 } :=
    ⟨Nat.succ_pos _, hnext, h.frozen_le.trans (Nat.le_succ _), fun j c hc =>
      ⟨(h.page j c hc).1.trans (Nat.lt_succ_self _), (h.page j c hc).2⟩⟩
  refine ⟨hv.insertPage (Nat.lt_succ_self _) (by simpa using hb), h.next_pos.ne', h.next_lt,
    habsent, body_eq_ok.2 (body_insertPage_self _), decide_eq_true h.frozen_le,
    fun j hj => ⟨body_congr (body_insertPage_ne _ hj), rfl⟩⟩

lemma insertPage_twice (c d : Option Bytes) :
    (s.insertPage id c).insertPage id d = s.insertPage id d := by
  simp only [CowMemStore.insertPage, Function.update_idem]

lemma alloc_eq : s.alloc = if s.next + 1 < 2 ^ 64 then
      .ok (s.next, CowMemStore.insertPage { s with next := s.next + 1 } s.next
        (some (List.replicate BODY_SIZE 0)))
    else .error (.panic "attempt to add with overflow") := by
  rw [CowMemStore.alloc, require]
  split_ifs <;> rfl

end Laws

instance instLawful : LawfulNodeStore CowMemStore where
  Valid := Valid
  AllocError e := e = .panic "attempt to add with overflow"
  body_length h hb := (h.page _ _ (body_eq_ok.1 hb)).2
  alloc_ok {s s' id} h ha := by
    change s.alloc = _ at ha
    rw [alloc_eq] at ha
    split_ifs at ha with hnext
    cases ha
    obtain ⟨hv, hnew⟩ := newPage h hnext (List.length_replicate ..)
    exact ⟨hv, _, hnew⟩
  alloc_error {s e} h ha := by
    change s.alloc = _ at ha
    rw [alloc_eq] at ha
    split_ifs at ha
    cases ha
    rfl
  makeDirty_dirty {s id b} h hb hd := if_pos (of_decide_eq_true hd)
  makeDirty_ok {s s' id id' b} h hb hd hm := by
    have hpage := body_eq_ok.1 hb
    change s.makeDirty id = _ at hm
    rw [CowMemStore.makeDirty, if_neg (of_decide_eq_false hd), hpage, okOr_some, ok_bind,
      alloc_eq] at hm
    split_ifs at hm with hnext
    · cases hm
      rw [insertPage_twice]
      exact newPage h hnext (h.page id b hpage).2
    · cases hm
  makeDirty_error {s id b e} h hb hm := by
    have hpage := body_eq_ok.1 hb
    change s.makeDirty id = _ at hm
    rw [CowMemStore.makeDirty, hpage, okOr_some, ok_bind, alloc_eq] at hm
    split_ifs at hm
    · cases hm
    · cases hm
      rfl
  bodyMut_eq {s id b} h hb hd := by
    change okOr (s.pages id) _ = _
    rw [body_eq_ok.1 hb, okOr_some]
  setBody_ok {s id b b'} h hb hd hlen :=
    ⟨h.insertPage (h.page id b (body_eq_ok.1 hb)).1 (by simpa using hlen),
      body_eq_ok.2 (body_insertPage_self _), hd,
      fun j hj => ⟨body_congr (body_insertPage_ne _ hj), rfl⟩⟩
  free_dirty {s id b} h hb hd := by
    have hfree : free s id = s.insertPage id none := if_pos (of_decide_eq_true hd)
    rw [hfree]
    refine ⟨h.insertPage (h.page id b (body_eq_ok.1 hb)).1 (by simp),
      fun j hj => ⟨body_congr (body_insertPage_ne _ hj), rfl⟩, fun c hc => ?_⟩
    have hsome := body_eq_ok.1 hc
    rw [body_insertPage_self] at hsome
    cases hsome
  free_clean {s id} h hd := if_neg (of_decide_eq_false hd)

lemma lawful_new : LawfulNodeStore.Valid new := valid_new

end CowMemStore

end Btree

end Arkeion
