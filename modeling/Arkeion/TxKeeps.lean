import Arkeion.StoreHom
import Arkeion.TxStore

/-!
What the operations on trees leave alone. A property that no page given out, written or freed
can change holds after a whole insertion or deletion as before it: a transaction goes on with
the file it began with. A deletion does not look at the append cursor either.
-/

namespace Arkeion

open Arkeion.Lib

namespace Btree

open NodeSource NodeStore

/-! ### What no operation on pages changes -/

section Kept
variable {σ : Type} [NodeStore σ]

/-- What holds of a store and stays true when a page is given out, written or freed. -/
structure Kept (P : σ → Prop) : Prop where
  alloc : ∀ {s id s'}, P s → alloc s = .ok (id, s') → P s'
  makeDirty : ∀ {s i id s'}, P s → makeDirty s i = .ok (id, s') → P s'
  setBody : ∀ {s} id b, P s → P (setBody s id b)
  free : ∀ {s} id, P s → P (free s id)

variable {P : σ → Prop}

/-- A result with a store that keeps the property. -/
def keepStore (x : Result (ℕ × σ)) (hx : ∀ id s', x = .ok (id, s') → P s') :
    Result (ℕ × { s // P s }) :=
  match x, hx with
  | .error e, _ => .error e
  | .ok (id, s'), hx => .ok (id, ⟨s', hx id s' rfl⟩)

omit [NodeStore σ] in
lemma map_keepStore (x : Result (ℕ × σ)) (hx : ∀ id s', x = .ok (id, s') → P s') :
    (keepStore x hx).map (Prod.map (fun i => i) Subtype.val) = x := by
  cases x <;> rfl

namespace Kept

/-- The stores with the property, without a cursor. -/
@[reducible] def store (h : Kept P) : NodeStore { s // P s } where
  body s := NodeSource.body s.1
  alloc s := keepStore (NodeStore.alloc s.1) fun _ _ => h.alloc s.2
  makeDirty s i := keepStore (NodeStore.makeDirty s.1 i) fun _ _ => h.makeDirty s.2
  bodyMut s := NodeStore.bodyMut s.1
  setBody s id b := ⟨NodeStore.setBody s.1 id b, h.setBody id b s.2⟩
  free s id := ⟨NodeStore.free s.1 id, h.free id s.2⟩
  isDirty s := NodeStore.isDirty s.1

variable [NoCursor σ]

lemma pageHom (h : Kept P) : @PageHom { s // P s } σ h.store _ Subtype.val :=
  letI := h.store
  { body := fun _ _ => rfl
    alloc := fun _ => (map_keepStore _ _).symm
    makeDirty := fun _ _ => (map_keepStore _ _).symm
    bodyMut := fun _ _ => rfl
    setBody := fun _ _ _ => rfl
    free := fun _ _ => rfl
    isDirty := fun _ _ => rfl
    set := fun s c => NoCursor.set s.1 c
    take := fun _ => rfl
    forget := fun _ _ => rfl }

lemma insertDown (h : Kept P) {s s' : σ} (hs : P s) {n root root' : ℕ} {key value : Bytes}
    (hrun : Btree.insertDown n s root key value = .ok (root', s')) : P s' := by
  let _ := h.store
  have heq := h.pageHom.insertDown n ⟨s, hs⟩ root key value
  rw [hrun] at heq
  cases hx : Btree.insertDown n (⟨s, hs⟩ : { s // P s }) root key value with
  | error e =>
    rw [hx] at heq
    cases heq
  | ok r =>
    rw [hx] at heq
    cases heq
    exact r.2.2

lemma delete (h : Kept P) {s s' : σ} (hs : P s) {n root root' : ℕ} {key : Bytes} {existed : Bool}
    (hrun : Btree.delete n s root key = .ok (root', existed, s')) : P s' := by
  let _ := h.store
  have heq := h.pageHom.delete n ⟨s, hs⟩ root key
  rw [hrun] at heq
  cases hx : Btree.delete n (⟨s, hs⟩ : { s // P s }) root key with
  | error e =>
    rw [hx] at heq
    cases heq
  | ok r =>
    rw [hx] at heq
    cases heq
    exact r.2.2.2

end Kept

end Kept

end Btree

/-! ### The file of a transaction -/

namespace TxPages

open Btree

/-- The pages of a transaction over a file. -/
def Over (pager : PageLog) (s : TxPages) : Prop := s.pager = pager ∧ s.alloc_base = pager.nPages

lemma over_new (pager : PageLog) : Over pager (new pager) := ⟨rfl, rfl⟩

lemma Over.alloc {pager : PageLog} {s s' : TxPages} {id : ℕ} (h : Over pager s)
    (ha : s.alloc = .ok (id, s')) : Over pager s' := by
  obtain ⟨⟨i, t⟩, ht, heq⟩ := bind_eq_ok.1 ha
  cases heq
  rw [takeId] at ht
  cases hf : s.freed with
  | cons j freed =>
    rw [hf] at ht
    cases ht
    exact h
  | nil =>
    rw [hf] at ht
    obtain ⟨-, -, ht⟩ := bind_eq_ok.1 ht
    cases ht
    exact h

lemma kept_over (pager : PageLog) : Kept (Over pager) where
  alloc h ha := h.alloc ha
  makeDirty {s i id s'} h hm := by
    change s.makeDirty i = _ at hm
    rw [TxPages.makeDirty] at hm
    split_ifs at hm
    · cases hm
      exact h
    · obtain ⟨src, -, hm⟩ := bind_eq_ok.1 hm
      obtain ⟨⟨j, t⟩, ha, heq⟩ := bind_eq_ok.1 hm
      cases heq
      have hover : Over pager t := h.alloc ha
      exact hover
  setBody _ _ h := h
  free {s} id h := by
    change Over pager (s.free id)
    rw [TxPages.free]
    split_ifs <;> exact h

end TxPages

namespace TxStore

open Btree

lemma pageHom_toTxPages : PageHom TxStore.toTxPages where
  body _ _ := rfl
  alloc s := by
    change NodeStore.alloc s.toTxPages = ((NodeStore.alloc s.toTxPages).map _).map _
    cases NodeStore.alloc s.toTxPages <;> rfl
  makeDirty s i := by
    change NodeStore.makeDirty s.toTxPages i = ((NodeStore.makeDirty s.toTxPages i).map _).map _
    cases NodeStore.makeDirty s.toTxPages i <;> rfl
  bodyMut _ _ := rfl
  setBody _ _ _ := rfl
  free _ _ := rfl
  isDirty _ _ := rfl
  set _ _ := rfl
  take _ := rfl
  forget _ _ := rfl

/-- The pages with a cursor beside them. -/
lemma pageMap_withCursor (c : Option AppendCursor) :
    PageMap fun p : TxPages => (⟨p, c⟩ : TxStore) where
  body _ _ := rfl
  alloc p := by
    change (NodeStore.alloc p).map _ = (NodeStore.alloc p).map _
    cases NodeStore.alloc p <;> rfl
  makeDirty p i := by
    change (NodeStore.makeDirty p i).map _ = (NodeStore.makeDirty p i).map _
    cases NodeStore.makeDirty p i <;> rfl
  bodyMut _ _ := rfl
  setBody _ _ _ := rfl
  free _ _ := rfl
  isDirty _ _ := rfl

section Keeps
variable {s s' : TxStore} {n root root' : ℕ} {key value : Bytes} {existed : Bool}
  {pager : PageLog}

lemma insertDown_over (h : s.Over pager) (hrun : insertDown n s root key value = .ok (root', s')) :
    s'.Over pager := by
  have heq := pageHom_toTxPages.insertDown n s root key value
  rw [hrun] at heq
  exact (TxPages.kept_over pager).insertDown h heq

lemma delete_over (h : s.Over pager) (hrun : delete n s root key = .ok (root', existed, s')) :
    s'.Over pager := by
  have heq := pageHom_toTxPages.delete n s root key
  rw [hrun] at heq
  exact (TxPages.kept_over pager).delete h heq

/-- A deletion leaves the cursor as it is. -/
lemma delete_cursor (hrun : delete n s root key = .ok (root', existed, s')) :
    s'.append_cursor = s.append_cursor := by
  have heq := (pageMap_withCursor s.append_cursor).delete n s.toTxPages root key
  change delete n s root key = _ at heq
  rw [hrun] at heq
  cases hx : delete n s.toTxPages root key with
  | error e =>
    rw [hx] at heq
    cases heq
  | ok r =>
    rw [hx] at heq
    cases heq
    rfl

end Keeps

end TxStore

end Arkeion
