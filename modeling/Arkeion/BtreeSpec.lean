import Arkeion.Btree
import Arkeion.InnerSpec
import Arkeion.LeafSpec

/-!
What a store of pages promises, and when a page holds a tree with given entries.

A tree owns the dirty pages it is made of, no page twice. An operation on it may change these
pages and use new ones; every other page it leaves as it is. So trees and overflow chains
that do not share dirty pages do not disturb each other.
-/

namespace Arkeion

open Arkeion.Lib

namespace Btree

open NodeSource NodeStore Node

/-! ### The promises of a store -/

section Laws
variable {σ : Type} [NodeStore σ] {s s' : σ}

/-- All pages but one are as they were. -/
def KeepsOthers (s s' : σ) (id : ℕ) : Prop :=
  ∀ j, j ≠ id → body s' j = body s j ∧ isDirty s' j = isDirty s j

/-- The page was not there before, and is a dirty page with the body now. -/
structure NewPage (s s' : σ) (id : ℕ) (b : Bytes) : Prop where
  ne_root : id ≠ NO_ROOT
  lt : id < 2 ^ 64
  absent : ∀ b, body s id ≠ .ok b
  body_eq : body s' id = .ok b
  dirty : isDirty s' id = true
  others : KeepsOthers s s' id

/-- The page is dirty and has the body. -/
structure OwnPage (s : σ) (id : ℕ) (b : Bytes) : Prop where
  ne_root : id ≠ NO_ROOT
  lt : id < 2 ^ 64
  body_eq : body s id = .ok b
  dirty : isDirty s id = true

lemma NewPage.own {id : ℕ} {b : Bytes} (h : NewPage s s' id b) : OwnPage s' id b :=
  ⟨h.ne_root, h.lt, h.body_eq, h.dirty⟩

/-- The page is there, and dirty. -/
def Owned (s : σ) (id : ℕ) : Prop := isDirty s id = true ∧ ∃ b, body s id = .ok b

/-- The page of a node, as far as it is dirty. -/
def ownPages (s : σ) (id : ℕ) : List ℕ := if isDirty s id then [id] else []

lemma OwnPage.ownPages_eq {id : ℕ} {b : Bytes} (h : OwnPage s id b) : ownPages s id = [id] := by
  rw [ownPages, h.dirty, if_pos rfl]

end Laws

/-- What `btree` relies on: pages are of one size, ids are new when they are given out, and
each operation leaves the other pages alone. `Valid` is what the store keeps up of itself, and
`AllocError` how it may refuse a page. -/
class LawfulNodeStore (σ : Type) [NodeStore σ] where
  Valid : σ → Prop
  AllocError : Error → Prop
  body_length {s : σ} {id : ℕ} {b : Bytes} (h : Valid s) (hb : body s id = .ok b) :
    b.length = BODY_SIZE
  alloc_ok {s s' : σ} {id : ℕ} (h : Valid s) (ha : alloc s = .ok (id, s')) :
    Valid s' ∧ ∃ b, NewPage s s' id b
  alloc_error {s : σ} {e : Error} (h : Valid s) (ha : alloc s = .error e) : AllocError e
  makeDirty_dirty {s : σ} {id : ℕ} {b : Bytes} (h : Valid s) (hb : body s id = .ok b)
    (hd : isDirty s id = true) : makeDirty s id = .ok (id, s)
  makeDirty_ok {s s' : σ} {id id' : ℕ} {b : Bytes} (h : Valid s) (hb : body s id = .ok b)
    (hd : isDirty s id = false) (hm : makeDirty s id = .ok (id', s')) :
    Valid s' ∧ NewPage s s' id' b
  makeDirty_error {s : σ} {id : ℕ} {b : Bytes} {e : Error} (h : Valid s) (hb : body s id = .ok b)
    (hm : makeDirty s id = .error e) : AllocError e
  bodyMut_eq {s : σ} {id : ℕ} {b : Bytes} (h : Valid s) (hb : body s id = .ok b)
    (hd : isDirty s id = true) : bodyMut s id = .ok b
  setBody_ok {s : σ} {id : ℕ} {b b' : Bytes} (h : Valid s) (hb : body s id = .ok b)
    (hd : isDirty s id = true) (hlen : b'.length = BODY_SIZE) :
    Valid (setBody s id b') ∧ body (setBody s id b') id = .ok b' ∧
      isDirty (setBody s id b') id = true ∧ KeepsOthers s (setBody s id b') id
  free_dirty {s : σ} {id : ℕ} {b : Bytes} (h : Valid s) (hb : body s id = .ok b)
    (hd : isDirty s id = true) : Valid (free s id) ∧ KeepsOthers s (free s id) id ∧
      ∀ b, body (free s id) id ≠ .ok b
  free_clean {s : σ} {id : ℕ} (h : Valid s) (hd : isDirty s id = false) : free s id = s

/-- The store keeps no append cursor: the hooks are the defaults of the trait. -/
class NoCursor (σ : Type) [NodeStore σ] : Prop where
  take : ∀ s : σ, takeAppendCursor s = (none, s)
  set : ∀ (s : σ) (c : Option AppendCursor), setAppendCursor s c = s

open LawfulNodeStore

/-- An overflow page that is not dirty is followed by pages that are not. -/
def CleanChains (σ : Type) [NodeStore σ] [LawfulNodeStore σ] : Prop :=
  ∀ {s : σ} {id next : ℕ} {b chunk : Bytes}, Valid s → body s id = .ok b →
    isDirty s id = false → IsOverflow chunk next b → isDirty s next = false

section Frame
variable {σ : Type} [NodeStore σ] [LawfulNodeStore σ] {s s' s'' : σ}

/-- The dirty pages `F` became `F'`; every other page is as it was. No page is lost if the store
does not mix dirty pages and others in a chain. -/
structure Frame (s s' : σ) (F F' : List ℕ) : Prop where
  valid : Valid s'
  keep : ∀ id b, body s id = .ok b → (isDirty s id = true → id ∉ F) →
    body s' id = .ok b ∧ isDirty s' id = isDirty s id
  fresh : ∀ id ∈ F', id ∈ F ∨ ∀ b, body s id ≠ .ok b
  covered : CleanChains σ → ∀ id, Owned s' id → id ∈ F' ∨ Owned s id ∧ id ∉ F

namespace Frame

lemma refl (h : Valid s) (F : List ℕ) : Frame s s F F where
  valid := h
  keep _ _ hb _ := ⟨hb, rfl⟩
  fresh _ hid := Or.inl hid
  covered _ id hown := by
    by_cases hid : id ∈ F
    · exact Or.inl hid
    · exact Or.inr ⟨hown, hid⟩

lemma trans {F G H : List ℕ} (h : Frame s s' F G) (h' : Frame s' s'' G H) : Frame s s'' F H where
  valid := h'.valid
  keep id b hb hF := by
    obtain ⟨hb', hd'⟩ := h.keep id b hb hF
    obtain ⟨hb'', hd''⟩ := h'.keep id b hb' fun hd hG => by
      rcases h.fresh id hG with hmem | habsent
      · exact hF (hd' ▸ hd) hmem
      · exact habsent b hb
    exact ⟨hb'', hd''.trans hd'⟩
  fresh id hid := by
    rcases h'.fresh id hid with hG | habsent
    · exact h.fresh id hG
    · by_cases hmem : id ∈ F
      · exact Or.inl hmem
      · exact Or.inr fun b hb => habsent b (h.keep id b hb fun _ => hmem).1
  covered hc id hown := by
    rcases h'.covered hc id hown with hH | ⟨hown', hG⟩
    · exact Or.inl hH
    · rcases h.covered hc id hown' with hG' | hF
      · exact absurd hG' hG
      · exact Or.inr hF

/-- Pages that do not change may be counted on both sides. -/
lemma beside {F F' G G' : List ℕ} (R : List ℕ) (h : Frame s s' F F')
    (hG : ∀ j, j ∈ G ↔ j ∈ F ∨ j ∈ R) (hG' : ∀ j, j ∈ G' ↔ j ∈ F' ∨ j ∈ R) :
    Frame s s' G G' where
  valid := h.valid
  keep id b hb hid := h.keep id b hb fun hd hF => hid hd ((hG id).2 (Or.inl hF))
  fresh id hid := by
    rcases (hG' id).1 hid with hF' | hR
    · exact (h.fresh id hF').imp (fun hF => (hG id).2 (Or.inl hF)) fun habsent => habsent
    · exact Or.inl ((hG id).2 (Or.inr hR))
  covered hc id hown := by
    rw [hG, hG']
    rcases h.covered hc id hown with hF' | ⟨hown', hF⟩
    · exact Or.inl (Or.inl hF')
    · by_cases hR : id ∈ R
      · exact Or.inl (Or.inr hR)
      · exact Or.inr ⟨hown', fun hid => hid.elim hF hR⟩

lemma append_right {F F' : List ℕ} (h : Frame s s' F F') (G : List ℕ) :
    Frame s s' (F ++ G) (F' ++ G) :=
  h.beside G (fun _ => List.mem_append) fun _ => List.mem_append

/-- Pages that were there and not among the changed ones are not among the new ones. -/
lemma not_mem {F F' : List ℕ} (h : Frame s s' F F') {id : ℕ} {b : Bytes} (hb : body s id = .ok b)
    (hF : id ∉ F) : id ∉ F' := fun hid => by
  rcases h.fresh id hid with hmem | habsent
  · exact hF hmem
  · exact habsent b hb

end Frame

/-! ### What each operation of the store changes -/

lemma NewPage.frame {id : ℕ} {b : Bytes} (h : NewPage s s' id b) (hv : Valid s') :
    Frame s s' [] [id] where
  valid := hv
  keep j c hc _ := by
    have hne : j ≠ id := by
      rintro rfl
      exact h.absent c hc
    rw [(h.others j hne).1, (h.others j hne).2]
    exact ⟨hc, rfl⟩
  fresh j hj := by
    rw [List.mem_singleton.1 hj]
    exact Or.inr h.absent
  covered _ j hown := by
    by_cases hj : j = id
    · exact Or.inl (List.mem_singleton.2 hj)
    · rw [Owned, (h.others j hj).1, (h.others j hj).2] at hown
      exact Or.inr ⟨hown, List.not_mem_nil⟩

lemma OwnPage.setBody {id : ℕ} {b b' : Bytes} (hv : Valid s) (h : OwnPage s id b)
    (hlen : b'.length = BODY_SIZE) :
    OwnPage (NodeStore.setBody s id b') id b' ∧ Frame s (NodeStore.setBody s id b') [id] [id] := by
  obtain ⟨hv', hb', hd', hothers⟩ := setBody_ok hv h.body_eq h.dirty hlen
  refine ⟨⟨h.ne_root, h.lt, hb', hd'⟩, hv', fun j c hc hj => ?_, fun j hj => Or.inl hj,
    fun _ j hown => ?_⟩
  · have hne : j ≠ id := by
      rintro rfl
      exact hj h.dirty (by simp)
    rw [(hothers j hne).1, (hothers j hne).2]
    exact ⟨hc, rfl⟩
  · by_cases hj : j = id
    · exact Or.inl (List.mem_singleton.2 hj)
    · rw [Owned, (hothers j hj).1, (hothers j hj).2] at hown
      exact Or.inr ⟨hown, by simpa using hj⟩

lemma OwnPage.keep {id : ℕ} {b : Bytes} {F F' : List ℕ} (h : OwnPage s id b)
    (hf : Frame s s' F F') (hF : id ∉ F) : OwnPage s' id b := by
  obtain ⟨hb, hd⟩ := hf.keep id b h.body_eq fun _ => hF
  exact ⟨h.ne_root, h.lt, hb, hd.trans h.dirty⟩

/-- Freeing gives the page back if it was dirty. -/
lemma frame_free {id : ℕ} {b : Bytes} (hv : Valid s) (hb : body s id = .ok b) :
    Frame s (free s id) (ownPages s id) [] := by
  cases hd : isDirty s id with
  | false =>
    rw [free_clean hv hd, ownPages, hd, if_neg Bool.false_ne_true]
    exact .refl hv []
  | true =>
    obtain ⟨hv', hothers, hgone⟩ := free_dirty hv hb hd
    rw [ownPages, hd, if_pos rfl]
    refine ⟨hv', fun j c hc hj => ?_, by simp, fun _ j hown => ?_⟩
    · have hne : j ≠ id := by
        rintro rfl
        exact hj hd (by simp)
      rw [(hothers j hne).1, (hothers j hne).2]
      exact ⟨hc, rfl⟩
    · have hne : j ≠ id := by
        rintro rfl
        obtain ⟨-, b, hb⟩ := hown
        exact hgone b hb
      rw [Owned, (hothers j hne).1, (hothers j hne).2] at hown
      exact Or.inr ⟨hown, by simpa using hne⟩

/-- A page with its body made dirty, if the store does not refuse. -/
lemma makeDirty_cases {id : ℕ} {b : Bytes} (hv : Valid s) (hb : body s id = .ok b)
    (hne : id ≠ NO_ROOT) (hlt : id < 2 ^ 64) :
    (∃ e, makeDirty s id = .error e ∧ AllocError σ e) ∨
    ∃ id' s', makeDirty s id = .ok (id', s') ∧ OwnPage s' id' b ∧
      Frame s s' (ownPages s id) [id'] := by
  cases hm : makeDirty s id with
  | error e => exact Or.inl ⟨e, rfl, makeDirty_error hv hb hm⟩
  | ok r =>
    obtain ⟨id', s'⟩ := r
    refine Or.inr ⟨id', s', rfl, ?_⟩
    cases hd : isDirty s id with
    | true =>
      rw [makeDirty_dirty hv hb hd] at hm
      cases hm
      rw [ownPages, hd, if_pos rfl]
      exact ⟨⟨hne, hlt, hb, hd⟩, .refl hv _⟩
    | false =>
      obtain ⟨hv', hnew⟩ := makeDirty_ok hv hb hd hm
      rw [ownPages, hd, if_neg Bool.false_ne_true]
      exact ⟨hnew.own, hnew.frame hv'⟩

lemma alloc_cases (hv : Valid s) : (∃ e, alloc s = .error e ∧ AllocError σ e) ∨
    ∃ id s' b, alloc s = .ok (id, s') ∧ OwnPage s' id b ∧ Frame s s' [] [id] := by
  cases ha : alloc s with
  | error e => exact Or.inl ⟨e, rfl, alloc_error hv ha⟩
  | ok r =>
    obtain ⟨id, s'⟩ := r
    obtain ⟨hv', b, hnew⟩ := alloc_ok hv ha
    exact Or.inr ⟨id, s', b, rfl, hnew.own, hnew.frame hv'⟩

/-- Encoding into a dirty page: it fits and the page has the new body, or nothing changes. -/
lemma encodeInto_cases {id : ℕ} {b : Bytes} (hv : Valid s) (h : OwnPage s id b)
    {encode : ℕ → Option Bytes} (hlen : ∀ b', encode BODY_SIZE = some b' → b'.length = BODY_SIZE) :
    (encode BODY_SIZE = none ∧ encodeInto s id encode = .ok (false, s)) ∨
    ∃ b' s', encode BODY_SIZE = some b' ∧ encodeInto s id encode = .ok (true, s') ∧
      OwnPage s' id b' ∧ Frame s s' [id] [id] := by
  rw [encodeInto, bodyMut_eq hv h.body_eq h.dirty, ok_bind, body_length hv h.body_eq]
  cases he : encode BODY_SIZE with
  | none => exact Or.inl ⟨rfl, rfl⟩
  | some b' =>
    obtain ⟨hown, hframe⟩ := h.setBody hv (hlen b' he)
    exact Or.inr ⟨b', _, rfl, rfl, hown, hframe⟩

end Frame

/-- Remembering or forgetting the append cursor leaves all pages as they are. -/
class CursorApart (σ : Type) [NodeStore σ] [LawfulNodeStore σ] : Prop where
  take {s : σ} (h : Valid s) : Frame s (takeAppendCursor s).2 [] []
  set {s : σ} (c : Option AppendCursor) (h : Valid s) : Frame s (setAppendCursor s c) [] []

instance instCursorApart {σ : Type} [NodeStore σ] [LawfulNodeStore σ] [NoCursor σ] :
    CursorApart σ where
  take h := by
    rw [NoCursor.take]
    exact .refl h _
  set c h := by
    rw [NoCursor.set]
    exact .refl h _

/-! ### Entries put together from parts -/

/-- Keys and values in order. -/
abbrev Entries := List (Bytes × Bytes)

/-- The entries and the pages of a list of parts, one after the other. -/
def Cat {α : Type} (P : α → Entries → List ℕ → Prop) : List α → Entries → List ℕ → Prop
  | [], kvs, F => kvs = [] ∧ F = []
  | a :: as, kvs, F => ∃ k₁ k₂ F₁ F₂, kvs = k₁ ++ k₂ ∧ F = F₁ ++ F₂ ∧ P a k₁ F₁ ∧ Cat P as k₂ F₂

section Cat
variable {α : Type} {P Q : α → Entries → List ℕ → Prop} {as bs : List α} {kvs : Entries}
  {F : List ℕ}

lemma cat_singleton {a : α} : Cat P [a] kvs F ↔ P a kvs F := by
  constructor
  · rintro ⟨k₁, k₂, F₁, F₂, rfl, rfl, hP, rfl, rfl⟩
    rwa [List.append_nil, List.append_nil]
  · exact fun h => ⟨kvs, [], F, [], (List.append_nil _).symm, (List.append_nil _).symm, h, rfl, rfl⟩

lemma cat_append : Cat P (as ++ bs) kvs F ↔
    ∃ k₁ k₂ F₁ F₂, kvs = k₁ ++ k₂ ∧ F = F₁ ++ F₂ ∧ Cat P as k₁ F₁ ∧ Cat P bs k₂ F₂ := by
  induction as generalizing kvs F with
  | nil =>
    constructor
    · exact fun h => ⟨[], kvs, [], F, rfl, rfl, ⟨rfl, rfl⟩, h⟩
    · rintro ⟨k₁, k₂, F₁, F₂, rfl, rfl, ⟨rfl, rfl⟩, h⟩
      exact h
  | cons a as ih =>
    constructor
    · rintro ⟨k₁, k₂, F₁, F₂, rfl, rfl, ha, hrest⟩
      obtain ⟨k₃, k₄, F₃, F₄, rfl, rfl, has, hbs⟩ := ih.1 hrest
      exact ⟨k₁ ++ k₃, k₄, F₁ ++ F₃, F₄, (List.append_assoc ..).symm, (List.append_assoc ..).symm,
        ⟨k₁, k₃, F₁, F₃, rfl, rfl, ha, has⟩, hbs⟩
    · rintro ⟨k, k₄, G, F₄, rfl, rfl, ⟨k₁, k₃, F₁, F₃, rfl, rfl, ha, has⟩, hbs⟩
      exact ⟨k₁, k₃ ++ k₄, F₁, F₃ ++ F₄, List.append_assoc .., List.append_assoc .., ha,
        ih.2 ⟨k₃, k₄, F₃, F₄, rfl, rfl, has, hbs⟩⟩

lemma cat_cons {a : α} : Cat P (a :: as) kvs F ↔
    ∃ k₁ k₂ F₁ F₂, kvs = k₁ ++ k₂ ∧ F = F₁ ++ F₂ ∧ P a k₁ F₁ ∧ Cat P as k₂ F₂ := Iff.rfl

/-- Parts may be replaced where their pages allow it. -/
lemma Cat.imp (h : Cat P as kvs F)
    (hPQ : ∀ a ∈ as, ∀ k G, G ⊆ F → P a k G → Q a k G) : Cat Q as kvs F := by
  induction as generalizing kvs F with
  | nil => exact h
  | cons a as ih =>
    obtain ⟨k₁, k₂, F₁, F₂, rfl, rfl, ha, hrest⟩ := h
    exact ⟨k₁, k₂, F₁, F₂, rfl, rfl,
      hPQ a (by simp) k₁ F₁ (List.subset_append_left ..) ha,
      ih hrest fun b hb k G hG => hPQ b (by simp [hb]) k G
        (fun x hx => List.mem_append_right _ (hG hx))⟩

/-- What all parts say of their entries and pages, the whole says. -/
lemma Cat.forall_entries {R : Bytes × Bytes → Prop} (h : Cat P as kvs F)
    (hP : ∀ a ∈ as, ∀ k G, P a k G → ∀ p ∈ k, R p) : ∀ p ∈ kvs, R p := by
  induction as generalizing kvs F with
  | nil => simp [h.1]
  | cons a as ih =>
    obtain ⟨k₁, k₂, F₁, F₂, rfl, rfl, ha, hrest⟩ := h
    intro p hp
    rcases List.mem_append.1 hp with hp | hp
    · exact hP a (by simp) k₁ F₁ ha p hp
    · exact ih hrest (fun b hb => hP b (by simp [hb])) p hp

lemma Cat.forall_pages {R : ℕ → Prop} (h : Cat P as kvs F)
    (hP : ∀ a ∈ as, ∀ k G, P a k G → ∀ id ∈ G, R id) : ∀ id ∈ F, R id := by
  induction as generalizing kvs F with
  | nil => simp [h.2]
  | cons a as ih =>
    obtain ⟨k₁, k₂, F₁, F₂, rfl, rfl, ha, hrest⟩ := h
    intro id hid
    rcases List.mem_append.1 hid with hid | hid
    · exact hP a (by simp) k₁ F₁ ha id hid
    · exact ih hrest (fun b hb => hP b (by simp [hb])) id hid

end Cat

/-! ### When a page holds a tree -/

/-- The key lies in the range; an open end is `none`. -/
def InRange (lo hi : Option Bytes) (k : Bytes) : Prop := (∀ l ∈ lo, l ≤ k) ∧ ∀ h ∈ hi, k < h

/-- The separator lies strictly inside the range. -/
def Inside (lo hi : Option Bytes) (k : Bytes) : Prop := (∀ l ∈ lo, l < k) ∧ ∀ h ∈ hi, k < h

/-- The children of an inner node with the ranges of their keys. -/
def childRanges (lo hi : Option Bytes) : List InnerCell → ℕ → List (Option Bytes × Option Bytes × ℕ)
  | [], rightmost => [(lo, hi, rightmost)]
  | c :: cs, rightmost => (lo, some c.key, c.child) :: childRanges (some c.key) hi cs rightmost

section Holds
variable {σ : Type} [NodeStore σ]

/-- The pages of a chain with its data. -/
def ChainHolds (s : σ) : List ℕ → ℕ → Bytes → Prop
  | [], first, data => first = NO_ROOT ∧ data = []
  | id :: ids, first, data => first = id ∧ id ≠ NO_ROOT ∧ ∃ b chunk next rest,
      body s id = .ok b ∧ IsOverflow chunk next b ∧ data = chunk ++ rest ∧
        ChainHolds s ids next rest

/-- The dirty ones of some pages. -/
def dirtyOf (s : σ) (ids : List ℕ) : List ℕ := ids.filter fun id => isDirty s id

/-- The payload stands for the value, in a chain of at most `m` pages. -/
def PayloadHolds (s : σ) (m : ℕ) : Payload → Bytes → List ℕ → Prop
  | .inline w, v, F => v = w ∧ F = []
  | .overflow total_len first, v, F =>
    v.length = total_len ∧ ∃ ids, ids.length ≤ m ∧ ChainHolds s ids first v ∧ F = dirtyOf s ids

def CellHolds (s : σ) (m : ℕ) (c : LeafCell) (kvs : Entries) (F : List ℕ) : Prop :=
  ∃ v, kvs = [(c.key, v)] ∧ leafCellSize c ≤ MAX_INLINE_CELL ∧ PayloadHolds s m c.payload v F

/-- The page holds a leaf with these entries. -/
structure LeafHolds (s : σ) (m : ℕ) (lo hi : Option Bytes) (b : Bytes) (kvs : Entries)
    (F : List ℕ) (cells : List LeafCell) : Prop where
  leaf : IsLeaf cells b
  ne_nil : cells ≠ []
  range : ∀ c ∈ cells, InRange lo hi c.key
  cells : Cat (CellHolds s m) cells kvs F

/-- The page holds an inner node over subtrees with these entries. -/
structure InnerHolds (P : Option Bytes × Option Bytes × ℕ → Entries → List ℕ → Prop)
    (lo hi : Option Bytes) (b : Bytes) (kvs : Entries) (F : List ℕ) (cells : List InnerCell)
    (rightmost : ℕ) : Prop where
  inner : IsInner cells rightmost b
  inside : ∀ c ∈ cells, Inside lo hi c.key
  kids : Cat P (childRanges lo hi cells rightmost) kvs F

/-- The page is the root of a tree of the entries, with keys in the range, that owns the dirty
pages; `n` bounds the height of the tree, and `m` the length of its chains. -/
def Holds (s : σ) (m : ℕ) : ℕ → Option Bytes × Option Bytes × ℕ → Entries → List ℕ → Prop
  | 0, _, _, _ => False
  | n + 1, (lo, hi, id), kvs, F => id ≠ NO_ROOT ∧ id < 2 ^ 64 ∧ ∃ b F', body s id = .ok b ∧
    F = ownPages s id ++ F' ∧ ((∃ cells, LeafHolds s m lo hi b kvs F' cells) ∨
      ∃ cells rightmost, InnerHolds (Holds s m n) lo hi b kvs F' cells rightmost)

lemma holds_leaf {s : σ} {m n : ℕ} {lo hi : Option Bytes} {id : ℕ} {b : Bytes} {kvs : Entries}
    {F : List ℕ} {cells : List LeafCell} (hne : id ≠ NO_ROOT) (hlt : id < 2 ^ 64)
    (hb : body s id = .ok b) (h : LeafHolds s m lo hi b kvs F cells) :
    Holds s m (n + 1) (lo, hi, id) kvs (ownPages s id ++ F) :=
  ⟨hne, hlt, b, F, hb, rfl, Or.inl ⟨cells, h⟩⟩

lemma holds_inner {s : σ} {m n : ℕ} {lo hi : Option Bytes} {id : ℕ} {b : Bytes} {kvs : Entries}
    {F : List ℕ} {cells : List InnerCell} {rightmost : ℕ} (hne : id ≠ NO_ROOT)
    (hlt : id < 2 ^ 64) (hb : body s id = .ok b)
    (h : InnerHolds (Holds s m n) lo hi b kvs F cells rightmost) :
    Holds s m (n + 1) (lo, hi, id) kvs (ownPages s id ++ F) :=
  ⟨hne, hlt, b, F, hb, rfl, Or.inr ⟨cells, rightmost, h⟩⟩

/-! ### Larger bounds -/

section Mono
variable {s : σ} {m m' n n' : ℕ} {kvs : Entries} {F : List ℕ}

lemma PayloadHolds.mono {p : Payload} {v : Bytes} (hm : m ≤ m') (h : PayloadHolds s m p v F) :
    PayloadHolds s m' p v F := by
  cases p with
  | inline w => exact h
  | overflow t f =>
    obtain ⟨ht, ids, hn, hrest⟩ := h
    exact ⟨ht, ids, hn.trans hm, hrest⟩

lemma CellHolds.mono {c : LeafCell} (hm : m ≤ m') (h : CellHolds s m c kvs F) :
    CellHolds s m' c kvs F := by
  obtain ⟨v, hk, hsize, hp⟩ := h
  exact ⟨v, hk, hsize, hp.mono hm⟩

lemma Holds.mono {x : Option Bytes × Option Bytes × ℕ} (hm : m ≤ m') (hn : n ≤ n')
    (h : Holds s m n x kvs F) : Holds s m' n' x kvs F := by
  induction n generalizing n' x kvs F with
  | zero => exact absurd h id
  | succ n ih =>
    obtain ⟨n', rfl⟩ : ∃ k, n' = k + 1 := ⟨n' - 1, by omega⟩
    obtain ⟨lo, hi, id⟩ := x
    obtain ⟨hne, hlt, b, F', hb, rfl, ⟨cells, hl⟩ | ⟨cells, r, hi⟩⟩ := h
    · exact holds_leaf hne hlt hb ⟨hl.leaf, hl.ne_nil, hl.range,
        hl.cells.imp fun c _ k G _ hc => hc.mono hm⟩
    · exact holds_inner hne hlt hb ⟨hi.inner, hi.inside,
        hi.kids.imp fun c _ k G _ hc => ih (by omega) hc⟩

end Mono

/-! ### The pages of a tree -/

section Pages
variable {s : σ} {m n : ℕ} {kvs : Entries} {F : List ℕ}

lemma ChainHolds.readable {ids : List ℕ} {first : ℕ} {data : Bytes}
    (h : ChainHolds s ids first data) : ∀ id ∈ ids, ∃ b, body s id = .ok b := by
  induction ids generalizing first data with
  | nil => simp
  | cons i ids ih =>
    obtain ⟨rfl, -, b, chunk, next, rest, hb, -, -, hrest⟩ := h
    intro id hid
    rcases List.mem_cons.1 hid with rfl | hid
    · exact ⟨b, hb⟩
    · exact ih hrest id hid

lemma PayloadHolds.owned {p : Payload} {v : Bytes} (h : PayloadHolds s m p v F) :
    ∀ id ∈ F, Owned s id := by
  cases p with
  | inline w => simp [h.2]
  | overflow t f =>
    obtain ⟨-, ids, -, hc, rfl⟩ := h
    intro id hid
    rw [dirtyOf, List.mem_filter] at hid
    exact ⟨hid.2, hc.readable id hid.1⟩

lemma CellHolds.owned {c : LeafCell} (h : CellHolds s m c kvs F) : ∀ id ∈ F, Owned s id := by
  obtain ⟨v, -, -, hp⟩ := h
  exact hp.owned

lemma owned_ownPages {id : ℕ} {b : Bytes} (hb : body s id = .ok b) :
    ∀ j ∈ ownPages s id, Owned s j := by
  intro j hj
  unfold ownPages at hj
  split_ifs at hj with hd
  · rw [List.mem_singleton.1 hj]
    exact ⟨hd, b, hb⟩
  · simp at hj

lemma Holds.owned {x : Option Bytes × Option Bytes × ℕ} (h : Holds s m n x kvs F) :
    ∀ id ∈ F, Owned s id := by
  induction n generalizing x kvs F with
  | zero => exact absurd h id
  | succ n ih =>
    obtain ⟨lo, hi, id⟩ := x
    obtain ⟨-, -, b, F', hb, rfl, hnode⟩ := h
    intro j hj
    rcases List.mem_append.1 hj with hj | hj
    · exact owned_ownPages hb j hj
    · rcases hnode with ⟨cells, hl⟩ | ⟨cells, r, hi⟩
      · exact hl.cells.forall_pages (fun c _ k G hc => hc.owned) j hj
      · exact hi.kids.forall_pages (fun c _ k G hc => ih hc) j hj

end Pages

/-! ### Undisturbed trees -/

section Undisturbed
variable [LawfulNodeStore σ] {s s' : σ} {m n : ℕ} {kvs : Entries} {F F' G : List ℕ}

lemma ChainHolds.frame (hf : Frame s s' F F') {ids : List ℕ} {first : ℕ} {data : Bytes}
    (h : ChainHolds s ids first data) (hd : ∀ id ∈ dirtyOf s ids, id ∉ F) :
    ChainHolds s' ids first data ∧ dirtyOf s' ids = dirtyOf s ids := by
  induction ids generalizing first data with
  | nil => exact ⟨h, rfl⟩
  | cons i ids ih =>
    obtain ⟨rfl, hne, b, chunk, next, rest, hb, hov, hdata, hrest⟩ := h
    obtain ⟨hb', hd'⟩ := hf.keep _ b hb fun hdirty => hd _ (by simp [dirtyOf, hdirty])
    obtain ⟨hrest', hids⟩ := ih hrest fun id hid => hd id (by
      simp only [dirtyOf, List.mem_filter] at hid ⊢
      exact ⟨List.mem_cons_of_mem _ hid.1, hid.2⟩)
    refine ⟨⟨rfl, hne, b, chunk, next, rest, hb', hov, hdata, hrest'⟩, ?_⟩
    simp only [dirtyOf, List.filter_cons, hd'] at hids ⊢
    rw [hids]

lemma PayloadHolds.frame (hf : Frame s s' F F') {p : Payload} {v : Bytes}
    (h : PayloadHolds s m p v G) (hd : ∀ id ∈ G, id ∉ F) : PayloadHolds s' m p v G := by
  cases p with
  | inline w => exact h
  | overflow t f =>
    obtain ⟨ht, ids, hn, hc, rfl⟩ := h
    obtain ⟨hc', hids⟩ := hc.frame hf hd
    exact ⟨ht, ids, hn, hc', hids.symm⟩

lemma CellHolds.frame (hf : Frame s s' F F') {c : LeafCell} (h : CellHolds s m c kvs G)
    (hd : ∀ id ∈ G, id ∉ F) : CellHolds s' m c kvs G := by
  obtain ⟨v, hk, hsize, hp⟩ := h
  exact ⟨v, hk, hsize, hp.frame hf hd⟩

lemma ownPages_frame (hf : Frame s s' F F') {id : ℕ} {b : Bytes} (hb : body s id = .ok b)
    (hd : ∀ j ∈ ownPages s id, j ∉ F) :
    body s' id = .ok b ∧ ownPages s' id = ownPages s id := by
  obtain ⟨hb', hd'⟩ := hf.keep id b hb fun hdirty => hd id (by simp [ownPages, hdirty])
  exact ⟨hb', by rw [ownPages, ownPages, hd']⟩

/-- A tree whose pages are not among the changed ones holds as before. -/
lemma Holds.frame (hf : Frame s s' F F') {x : Option Bytes × Option Bytes × ℕ}
    (h : Holds s m n x kvs G) (hd : ∀ id ∈ G, id ∉ F) : Holds s' m n x kvs G := by
  induction n generalizing x kvs G with
  | zero => exact absurd h id
  | succ n ih =>
    obtain ⟨lo, hi, id⟩ := x
    obtain ⟨hne, hlt, b, G', hb, rfl, hnode⟩ := h
    obtain ⟨hb', hown⟩ := ownPages_frame hf hb fun j hj => hd j (List.mem_append_left _ hj)
    rw [← hown]
    rcases hnode with ⟨cells, hl⟩ | ⟨cells, r, hi⟩
    · exact holds_leaf hne hlt hb' ⟨hl.leaf, hl.ne_nil, hl.range, hl.cells.imp fun c _ k H hH hc =>
        hc.frame hf fun j hj => hd j (List.mem_append_right _ (hH hj))⟩
    · exact holds_inner hne hlt hb' ⟨hi.inner, hi.inside, hi.kids.imp fun c _ k H hH hc =>
        ih hc fun j hj => hd j (List.mem_append_right _ (hH hj))⟩

end Undisturbed

/-! ### Ranges and order -/

section Ranges
variable {s : σ} {m n : ℕ} {kvs : Entries} {F : List ℕ} {lo hi lo' hi' : Option Bytes}

/-- The lower end is not above the other. -/
def LowerLe (lo' lo : Option Bytes) : Prop := ∀ l' ∈ lo', ∃ l ∈ lo, l' ≤ l

/-- The upper end is not above the other. -/
def UpperLe (hi hi' : Option Bytes) : Prop := ∀ h' ∈ hi', ∃ h ∈ hi, h ≤ h'

lemma LowerLe.refl (lo : Option Bytes) : LowerLe lo lo := fun l hl => ⟨l, hl, le_rfl⟩

lemma UpperLe.refl (hi : Option Bytes) : UpperLe hi hi := fun h hh => ⟨h, hh, le_rfl⟩

lemma InRange.widen {k : Bytes} (h : InRange lo hi k) (hl : LowerLe lo' lo) (hu : UpperLe hi hi') :
    InRange lo' hi' k := by
  refine ⟨fun l' hl' => ?_, fun h' hh' => ?_⟩
  · obtain ⟨l, hl, hle⟩ := hl l' hl'
    exact hle.trans (h.1 l hl)
  · obtain ⟨u, hu, hle⟩ := hu h' hh'
    exact (h.2 u hu).trans_le hle

lemma Inside.widen {k : Bytes} (h : Inside lo hi k) (hl : LowerLe lo' lo) (hu : UpperLe hi hi') :
    Inside lo' hi' k := by
  refine ⟨fun l' hl' => ?_, fun h' hh' => ?_⟩
  · obtain ⟨l, hl, hle⟩ := hl l' hl'
    exact hle.trans_lt (h.1 l hl)
  · obtain ⟨u, hu, hle⟩ := hu h' hh'
    exact (h.2 u hu).trans_le hle

/-- Ranges over the children widen with the range of the node. -/
lemma cat_childRanges_widen {P : Option Bytes × Option Bytes × ℕ → Entries → List ℕ → Prop}
    (hP : ∀ {lo hi lo' hi' id k G}, LowerLe lo' lo → UpperLe hi hi' → P (lo, hi, id) k G →
      P (lo', hi', id) k G) {cells : List InnerCell} {r : ℕ} (hl : LowerLe lo' lo)
    (hu : UpperLe hi hi') (h : Cat P (childRanges lo hi cells r) kvs F) :
    Cat P (childRanges lo' hi' cells r) kvs F := by
  induction cells generalizing lo lo' kvs F with
  | nil => exact cat_singleton.2 (hP hl hu (cat_singleton.1 h))
  | cons c cells ih =>
    obtain ⟨k₁, k₂, F₁, F₂, rfl, rfl, hc, hrest⟩ := h
    exact ⟨k₁, k₂, F₁, F₂, rfl, rfl, hP hl (.refl _) hc, ih (.refl _) hrest⟩

/-- The range of a tree may be taken wider. -/
lemma Holds.widen {id : ℕ} (h : Holds s m n (lo, hi, id) kvs F) (hl : LowerLe lo' lo)
    (hu : UpperLe hi hi') : Holds s m n (lo', hi', id) kvs F := by
  induction n generalizing lo hi lo' hi' id kvs F with
  | zero => exact absurd h (fun h => h)
  | succ n ih =>
    obtain ⟨hne, hlt, b, F', hb, rfl, ⟨cells, hleaf⟩ | ⟨cells, r, hinner⟩⟩ := h
    · exact holds_leaf hne hlt hb ⟨hleaf.leaf, hleaf.ne_nil,
        fun c hc => (hleaf.range c hc).widen hl hu, hleaf.cells⟩
    · exact holds_inner hne hlt hb ⟨hinner.inner, fun c hc => (hinner.inside c hc).widen hl hu,
        cat_childRanges_widen (fun hl hu h => ih h hl hu) hl hu hinner.kids⟩

/-- Entries in order, all in the range. -/
structure Ordered (lo hi : Option Bytes) (kvs : Entries) : Prop where
  sorted : SortedMap kvs
  range : ∀ p ∈ kvs, InRange lo hi p.1

lemma cat_cells_keys {cells : List LeafCell} (h : Cat (CellHolds s m) cells kvs F) :
    kvs.map Prod.fst = cells.map LeafCell.key := by
  induction cells generalizing kvs F with
  | nil => simp [h.1]
  | cons c cells ih =>
    obtain ⟨k₁, k₂, F₁, F₂, rfl, rfl, ⟨v, rfl, -, -⟩, hrest⟩ := h
    simp [ih hrest]

lemma LeafHolds.ordered {b : Bytes} {cells : List LeafCell}
    (h : LeafHolds s m lo hi b kvs F cells) : Ordered lo hi kvs := by
  have hkeys := cat_cells_keys h.cells
  obtain ⟨z, pfx, hshape⟩ := h.leaf
  refine ⟨?_, fun p hp => ?_⟩
  · have hsorted := hshape.sorted
    rw [← hkeys, List.pairwise_map] at hsorted
    exact hsorted
  · have hmem : p.1 ∈ cells.map LeafCell.key := hkeys ▸ List.mem_map_of_mem hp
    obtain ⟨c, hc, hcp⟩ := List.mem_map.1 hmem
    exact hcp ▸ h.range c hc

lemma ordered_childRanges {P : Option Bytes × Option Bytes × ℕ → Entries → List ℕ → Prop}
    (hP : ∀ {lo hi id k G}, P (lo, hi, id) k G → Ordered lo hi k) {cells : List InnerCell} {r : ℕ}
    (hs : (cells.map InnerCell.key).Pairwise (· < ·)) (hin : ∀ c ∈ cells, Inside lo hi c.key)
    (h : Cat P (childRanges lo hi cells r) kvs F) : Ordered lo hi kvs := by
  induction cells generalizing lo kvs F with
  | nil => exact hP (cat_singleton.1 h)
  | cons c cells ih =>
    obtain ⟨k₁, k₂, F₁, F₂, rfl, rfl, hc, hrest⟩ := h
    rw [List.map_cons, List.pairwise_cons] at hs
    have h₁ := hP hc
    have h₂ := ih hs.2 (fun d hd => ⟨fun l hl => by
      cases hl
      exact hs.1 _ (List.mem_map_of_mem hd), (hin d (by simp [hd])).2⟩) hrest
    have hkey := hin c (by simp)
    refine ⟨sortedMap_append.2 ⟨h₁.sorted, h₂.sorted, fun p hp q hq => ?_⟩, fun p hp => ?_⟩
    · exact ((h₁.range p hp).2 c.key rfl).trans_le ((h₂.range q hq).1 c.key rfl)
    · rcases List.mem_append.1 hp with hp | hp
      · exact ⟨(h₁.range p hp).1, fun u hu => ((h₁.range p hp).2 c.key rfl).trans (hkey.2 u hu)⟩
      · exact ⟨fun l hl => (hkey.1 l hl).le.trans ((h₂.range p hp).1 c.key rfl),
          (h₂.range p hp).2⟩

lemma Holds.ordered {id : ℕ} (h : Holds s m n (lo, hi, id) kvs F) : Ordered lo hi kvs := by
  induction n generalizing lo hi id kvs F with
  | zero => exact absurd h (fun h => h)
  | succ n ih =>
    obtain ⟨-, -, b, F', -, -, ⟨cells, hleaf⟩ | ⟨cells, r, hinner⟩⟩ := h
    · exact hleaf.ordered
    · exact ordered_childRanges ih hinner.inner.sorted hinner.inside hinner.kids

end Ranges

/-! ### Whole trees -/

/-- The root of a tree with the entries, or no root and no entries. -/
def TreeHolds (s : σ) (m n root : ℕ) (kvs : Entries) (F : List ℕ) : Prop :=
  (root = NO_ROOT ∧ kvs = [] ∧ F = []) ∨ Holds s m n (none, none, root) kvs F

section Whole
variable {s : σ} {m m' n n' root : ℕ} {kvs : Entries} {F : List ℕ}

lemma TreeHolds.mono (hm : m ≤ m') (hn : n ≤ n') (h : TreeHolds s m n root kvs F) :
    TreeHolds s m' n' root kvs F := h.imp id fun h => h.mono hm hn

lemma TreeHolds.owned (h : TreeHolds s m n root kvs F) : ∀ id ∈ F, Owned s id := by
  rcases h with ⟨-, -, rfl⟩ | h
  · simp
  · exact h.owned

lemma TreeHolds.frame [LawfulNodeStore σ] {s' : σ} {G G' : List ℕ} (hf : Frame s s' G G')
    (h : TreeHolds s m n root kvs F) (hd : ∀ id ∈ F, id ∉ G) : TreeHolds s' m n root kvs F :=
  h.imp id fun h => h.frame hf hd

lemma TreeHolds.sorted (h : TreeHolds s m n root kvs F) : SortedMap kvs := by
  rcases h with ⟨-, rfl, -⟩ | h
  · exact List.Pairwise.nil
  · exact h.ordered.sorted

end Whole

end Holds

end Btree

end Arkeion
