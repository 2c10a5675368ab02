import Arkeion.PagePointers
import Arkeion.StoreHom

/-!
A store with some pages kept out of sight: what an operation on a tree does there without
coming upon such a page, it does in the whole store too.
-/

namespace Arkeion

open Arkeion.Lib

namespace Btree

open NodeSource NodeStore Node

/-- A page that is kept out of sight was asked for. -/
def OUT_OF_SIGHT : Error := .panic "page out of sight"

/-- The second result is the first one mapped, unless the first came upon a page out of sight. -/
def UpTo {α β : Type} (φ : α → β) (x : Result α) (y : Result β) : Prop :=
  x = .error OUT_OF_SIGHT ∨ y = x.map φ

namespace UpTo
variable {α β γ δ : Type} {φ : α → β} {ψ : γ → δ}

lemma ok (a : α) : UpTo φ (.ok a) (.ok (φ a)) := Or.inr rfl

lemma error (e : Error) : UpTo φ (.error e) (.error e) := Or.inr rfl

lemma of_eq {x : Result α} {y : Result β} (h : y = x.map φ) : UpTo φ x y := Or.inr h

lemma bind {x : Result α} {y : Result β} {g : α → Result γ} {g' : β → Result δ}
    (hxy : UpTo φ x y) (hg : ∀ a, UpTo ψ (g a) (g' (φ a))) : UpTo ψ (x >>= g) (y >>= g') := by
  rcases hxy with rfl | rfl
  · exact Or.inl rfl
  · cases x with
    | error e => exact error e
    | ok a => exact hg a

/-- A step that is the same on both sides. -/
lemma same {x : Result α} {g : α → Result γ} {g' : α → Result δ} (hg : ∀ a, UpTo ψ (g a) (g' a)) :
    UpTo ψ (x >>= g) (x >>= g') := by
  cases x with
  | error e => exact error e
  | ok a => exact hg a

lemma ite {p : Prop} [Decidable p] {x x' : Result α} {y y' : Result β} (hx : UpTo φ x y)
    (hx' : UpTo φ x' y') : UpTo φ (if p then x else x') (if p then y else y') := by
  split_ifs
  · exact hx
  · exact hx'

end UpTo

/-- `f` maps the store to one with the same pages and perhaps more to see. -/
structure PartMap {σ τ : Type} [NodeStore σ] [NodeStore τ] (f : σ → τ) : Prop where
  body : ∀ s id, UpTo (fun b => b) (body s id) (body (f s) id)
  alloc : ∀ s, alloc (f s) = (alloc s).map (Prod.map (fun i => i) f)
  makeDirty : ∀ s i, makeDirty (f s) i = (makeDirty s i).map (Prod.map (fun i => i) f)
  bodyMut : ∀ s id, bodyMut (f s) id = bodyMut s id
  setBody : ∀ s id b, setBody (f s) id b = f (setBody s id b)
  free : ∀ s id, free (f s) id = f (free s id)
  isDirty : ∀ s id, isDirty (f s) id = isDirty s id

namespace PartMap
variable {σ τ : Type} [NodeStore σ] [NodeStore τ] {f : σ → τ} (h : PartMap f)
include h

/-! ### Chains and cells -/

lemma freeChain (n : ℕ) (s : σ) (id : ℕ) :
    UpTo f (freeChain n s id) (freeChain n (f s) id) := by
  induction n generalizing s id with
  | zero => exact .ite (.ok s) (.error _)
  | succ n ih =>
    refine .ite (.ok s) ?_
    rcases h.body s id with hout | hbody
    · rw [hout]
      exact Or.inl rfl
    · rw [hbody, h.free]
      cases NodeSource.body s id with
      | error e => cases e <;> exact Or.inr rfl
      | ok b =>
        simp only [map_ok]
        cases parseOverflow id b with
        | error e => cases e <;> exact Or.inr rfl
        | ok r => exact ih _ _

lemma freePayload (n : ℕ) (s : σ) (p : Payload) :
    UpTo f (freePayload n s p) (freePayload n (f s) p) := by
  cases p with
  | inline v => exact .ok s
  | overflow t first =>
    simp only [Btree.freePayload, h.isDirty]
    exact .ite (h.freeChain n s first) (.ok s)

lemma freeCell (n : ℕ) (s : σ) (cells : List LeafCell) (i : ℕ) :
    UpTo f (freeCell n s cells i) (freeCell n (f s) cells i) :=
  .same fun c => h.freePayload n s c.payload

lemma encodeInto (s : σ) (id : ℕ) (encode : ℕ → Option Bytes) :
    UpTo (Prod.map (fun b => b) f) (encodeInto s id encode) (encodeInto (f s) id encode) := by
  simp only [Btree.encodeInto, h.bodyMut, h.setBody]
  refine .same fun b => ?_
  cases encode b.length with
  | none => exact .ok (false, s)
  | some b => exact .ok (true, NodeStore.setBody s id b)

lemma writeChunks (cs : List Bytes) (s : σ) (next : ℕ) :
    UpTo (Prod.map (fun i => i) f) (writeChunks cs s next) (writeChunks cs (f s) next) := by
  induction cs generalizing s next with
  | nil => exact .ok (next, s)
  | cons c cs ih =>
    refine .bind (.of_eq (h.alloc s)) fun r => ?_
    simp only [Prod.map, h.bodyMut, h.setBody]
    exact .same fun b => ih _ _

lemma makePayload (s : σ) (key value : Bytes) :
    UpTo (Prod.map (fun p => p) f) (makePayload s key value) (makePayload (f s) key value) :=
  .ite (.ok (Payload.inline value, s)) (.bind (.same fun _ => h.writeChunks _ s NO_ROOT) fun r =>
    .ok (Payload.overflow value.length r.1, r.2))

lemma putCell (n : ℕ) (s : σ) (cells : List LeafCell) (key : Bytes) (payload : Payload) :
    UpTo (fun r : List LeafCell × Bool × σ => (r.1, r.2.1, f r.2.2))
      (putCell n s cells key payload) (putCell n (f s) cells key payload) := by
  simp only [Btree.putCell]
  cases binarySearch cells key with
  | error i => exact .of_eq rfl
  | ok i => exact .bind (h.freeCell n s cells i) fun s => .of_eq rfl

lemma writeHalves (s : σ) (id : ℕ) (right left : ℕ → Option Bytes) :
    UpTo (Prod.map (fun i => i) f) (writeHalves s id right left)
      (writeHalves (f s) id right left) :=
  .bind (.of_eq (h.alloc s)) fun r => .bind (h.encodeInto r.2 r.1 right) fun r' =>
    .same fun _ => .bind (h.encodeInto r'.2 id left) fun r'' => .same fun _ => .ok (r.1, r''.2)

/-! ### Inserting -/

lemma splitLeaf (s : σ) (id : ℕ) (cells : List LeafCell) (appended : Bool) :
    UpTo (Prod.map (fun o => o) f) (splitLeaf s id cells appended)
      (splitLeaf (f s) id cells appended) :=
  .same fun _ => .bind (h.writeHalves s id _ _) fun _ => .of_eq rfl

lemma insertLeaf (n : ℕ) (s : σ) (id : ℕ) (key : Bytes) (payload : Payload) :
    UpTo (Prod.map (fun o => o) f) (insertLeaf n s id key payload)
      (insertLeaf n (f s) id key payload) := by
  refine .bind (.of_eq (h.makeDirty s id)) fun r => ?_
  simp only [Prod.map, h.bodyMut, h.setBody]
  refine .same fun b => .same fun appended => ?_
  cases appended with
  | some r => exact .of_eq rfl
  | none =>
    refine .bind (h.body r.2 r.1) fun b => .same fun cells =>
      .bind (h.putCell n r.2 cells key payload) fun put =>
      .bind (h.encodeInto put.2.2 r.1 _) fun enc => ?_
    exact .ite (.of_eq rfl) (h.splitLeaf ..)

lemma splitInner (s : σ) (id : ℕ) (cells : List InnerCell) (rightmost : ℕ) (tail : Option Tail) :
    UpTo (Prod.map (fun o => o) f) (splitInner s id cells rightmost tail)
      (splitInner (f s) id cells rightmost tail) :=
  .same fun _ => .bind (h.writeHalves s id _ _) fun _ => .of_eq rfl

lemma insertInner (s : σ) (id : ℕ) (key : Bytes) (cid : ℕ) (split : Option (Bytes × ℕ))
    (tail : Option Tail) : UpTo (Prod.map (fun o => o) f) (insertInner s id key cid split tail)
      (insertInner (f s) id key cid split tail) :=
  .bind (h.body s id) fun _ => .same fun _ => .bind (.of_eq (h.makeDirty s id)) fun r =>
    .bind (h.encodeInto r.2 r.1 _) fun _ => .ite (.of_eq rfl) (h.splitInner ..)

lemma insertRec (key : Bytes) (payload : Payload) (n : ℕ) (s : σ) (id : ℕ) :
    UpTo (Prod.map (fun o => o) f) (insertRec key payload n s id)
      (insertRec key payload n (f s) id) := by
  induction n generalizing s id with
  | zero => exact .error _
  | succ n ih =>
    refine .bind (h.body s id) fun b => .ite (h.insertLeaf ..) (.ite (.same fun child =>
      .bind (ih s child) fun out => ?_) (.error _))
    exact .ite (.of_eq rfl) (h.insertInner ..)

/-- The slow path of an insertion, where no append cursor is kept. -/
lemma insertDown [NoCursor σ] [NoCursor τ] (n : ℕ) (s : σ) (root : ℕ) (key value : Bytes) :
    UpTo (Prod.map (fun i => i) f) (insertDown n s root key value)
      (insertDown n (f s) root key value) := by
  refine .bind (h.makePayload s key value) fun r => .ite ?_ ?_
  · refine .bind (.of_eq (h.alloc r.2)) fun a => .bind (h.encodeInto a.2 a.1 _) fun enc =>
      .same fun _ => .of_eq ?_
    simp only [Prod.map, NoCursor.set, map_ok]
  · refine .bind (h.insertRec key r.1 n r.2 root) fun out => ?_
    simp only [Prod.map]
    cases out.1.split with
    | none =>
      refine .of_eq ?_
      simp only [Prod.map, NoCursor.set, map_ok]
    | some x =>
      refine .bind (.of_eq (h.alloc out.2)) fun a => .bind (h.encodeInto a.2 a.1 _) fun enc =>
        .same fun _ => .of_eq ?_
      simp only [Prod.map, NoCursor.set, map_ok]

lemma insert [NoCursor σ] [NoCursor τ] (n : ℕ) (s : σ) (root : ℕ) (key value : Bytes) :
    UpTo (Prod.map (fun i => i) f) (insert n s root key value) (insert n (f s) root key value) := by
  refine .same fun _ => ?_
  simp only [NoCursor.take, appendAtCursor, ok_bind]
  exact h.insertDown n s root key value

/-! ### Deleting -/

lemma deleteLeaf (n : ℕ) (s : σ) (id : ℕ) (b key : Bytes) :
    UpTo (fun r : Option ℕ × Bool × σ => (r.1, r.2.1, f r.2.2)) (deleteLeaf n s id b key)
      (deleteLeaf n (f s) id b key) := by
  refine .same fun cells => ?_
  cases binarySearch cells key with
  | error i => exact .of_eq rfl
  | ok i =>
    refine .bind (h.freeCell n s cells i) fun s => .ite (.of_eq ?_) ?_
    · rw [h.free, map_ok]
    · exact .bind (.of_eq (h.makeDirty s id)) fun r => .bind (h.encodeInto r.2 r.1 _) fun _ =>
        .same fun _ => .of_eq rfl

lemma rewriteInner (s : σ) (id : ℕ) (cells : List InnerCell) (rightmost : ℕ) (existed : Bool) :
    UpTo (fun r : Option ℕ × Bool × σ => (r.1, r.2.1, f r.2.2))
      (rewriteInner s id cells rightmost existed) (rewriteInner (f s) id cells rightmost existed) :=
  .bind (.of_eq (h.makeDirty s id)) fun r => .bind (h.encodeInto r.2 r.1 _) fun _ =>
    .same fun _ => .of_eq rfl

lemma deleteInner (s : σ) (id : ℕ) (key : Bytes) (new_child : Option ℕ) (existed : Bool) :
    UpTo (fun r : Option ℕ × Bool × σ => (r.1, r.2.1, f r.2.2))
      (deleteInner s id key new_child existed) (deleteInner (f s) id key new_child existed) := by
  refine .bind (h.body s id) fun b => .same fun node => ?_
  cases new_child with
  | some child => exact h.rewriteInner ..
  | none =>
    dsimp only
    cases removeChild node.1 node.2 (childIndex node.1 key) with
    | none => exact .of_eq (by rw [h.free, map_ok])
    | some placed => exact .ite (.of_eq (by rw [h.free, map_ok])) (h.rewriteInner ..)

lemma deleteRec (key : Bytes) (n : ℕ) (s : σ) (id : ℕ) :
    UpTo (fun r : Option ℕ × Bool × σ => (r.1, r.2.1, f r.2.2)) (deleteRec key n s id)
      (deleteRec key n (f s) id) := by
  induction n generalizing s id with
  | zero => exact .error _
  | succ n ih =>
    exact .bind (h.body s id) fun b => .ite (h.deleteLeaf ..) (.ite (.same fun child =>
      .bind (ih s child) fun out => .ite (.of_eq rfl) (h.deleteInner ..)) (.error _))

lemma delete (n : ℕ) (s : σ) (root : ℕ) (key : Bytes) :
    UpTo (fun r : ℕ × Bool × σ => (r.1, r.2.1, f r.2.2)) (delete n s root key)
      (delete n (f s) root key) :=
  .ite (.of_eq rfl) (.bind (h.deleteRec key n s root) fun _ => .of_eq rfl)

end PartMap

/-! ### The store with the clean pages out of sight that are not among the known ones -/

structure PartOf (σ : Type) where
  store : σ
  known : List ℕ

namespace PartOf

def withStore {σ : Type} (s : PartOf σ) (t : σ) : PartOf σ := { s with store := t }

section Map
variable {σ : Type} {s s' : PartOf σ} {id : ℕ}

lemma map_eq_ok {x : Result (ℕ × σ)} (h : x.map (fun r => (r.1, s.withStore r.2)) = .ok (id, s')) :
    ∃ t, x = .ok (id, t) ∧ s' = s.withStore t := by
  cases x with
  | error e => cases h
  | ok r =>
    cases h
    exact ⟨r.2, rfl, rfl⟩

lemma map_eq_error {x : Result (ℕ × σ)} {e : Error}
    (h : x.map (fun r => (r.1, s.withStore r.2)) = .error e) : x = .error e := by
  cases x with
  | error e => cases h; rfl
  | ok r => cases h

end Map

section Model
variable {σ : Type} [NodeStore σ]

instance instNodeStore : NodeStore (PartOf σ) where
  body s id :=
    if NodeStore.isDirty s.store id = true ∨ id ∈ s.known then NodeSource.body s.store id
    else .error OUT_OF_SIGHT
  alloc s := (NodeStore.alloc s.store).map fun r => (r.1, s.withStore r.2)
  makeDirty s id := (NodeStore.makeDirty s.store id).map fun r => (r.1, s.withStore r.2)
  bodyMut s id := NodeStore.bodyMut s.store id
  setBody s id b := s.withStore (NodeStore.setBody s.store id b)
  free s id := s.withStore (NodeStore.free s.store id)
  isDirty s id := NodeStore.isDirty s.store id

instance instNoCursor : NoCursor (PartOf σ) where
  take _ := rfl
  set _ _ := rfl

variable {s s' : PartOf σ} {t : σ} {id : ℕ} {b : Bytes}

lemma isDirty_eq : isDirty s id = isDirty s.store id := rfl

lemma body_eq (h : isDirty s.store id = true ∨ id ∈ s.known) :
    NodeSource.body s id = NodeSource.body s.store id := if_pos h

lemma body_eq_ok : NodeSource.body s id = .ok b ↔
    (isDirty s.store id = true ∨ id ∈ s.known) ∧ NodeSource.body s.store id = .ok b := by
  change (if _ then _ else _) = _ ↔ _
  split_ifs with h
  · simp only [h, true_and]
  · simp only [h, false_and]

/-- Every operation but those that read a page is the one of the whole store. -/
lemma partMap : PartMap (store : PartOf σ → σ) where
  body s id := by
    by_cases h : isDirty s.store id = true ∨ id ∈ s.known
    · refine .of_eq ?_
      rw [body_eq h]
      cases NodeSource.body s.store id <;> rfl
    · exact Or.inl (if_neg h)
  alloc s := by
    change _ = ((NodeStore.alloc s.store).map _).map _
    cases NodeStore.alloc s.store <;> rfl
  makeDirty s i := by
    change _ = ((NodeStore.makeDirty s.store i).map _).map _
    cases NodeStore.makeDirty s.store i <;> rfl
  bodyMut _ _ := rfl
  setBody _ _ _ := rfl
  free _ _ := rfl
  isDirty _ _ := rfl

/-! ### The promises of the part -/

/-- Clean pages in sight point to clean pages in sight. -/
def CleanIn (s : σ) (known : List ℕ) : Prop :=
  isDirty s NO_ROOT = false ∧ ∀ p ∈ known, ∀ b, isDirty s p = false → NodeSource.body s p = .ok b →
    ∀ q ∈ pagePointers p b, q ∈ known ∧ isDirty s q = false ∧ ∃ c, NodeSource.body s q = .ok c

/-- What was clean and stays as it was is clean afterwards. -/
lemma CleanIn.keep {known : List ℕ} (h : CleanIn s.store known)
    (hkeep : ∀ j c, isDirty s.store j = false → NodeSource.body s.store j = .ok c →
      isDirty t j = false ∧ NodeSource.body t j = .ok c)
    (hback : ∀ j c, isDirty t j = false → NodeSource.body t j = .ok c →
      isDirty s.store j = false ∧ NodeSource.body s.store j = .ok c)
    (hroot : isDirty t NO_ROOT = false) : CleanIn t known := by
  refine ⟨hroot, fun p hp b hd hb q hq => ?_⟩
  obtain ⟨hd', hb'⟩ := hback p b hd hb
  obtain ⟨hknown, hclean, c, hc⟩ := h.2 p hp b hd' hb' q hq
  obtain ⟨hclean', hc'⟩ := hkeep q c hclean hc
  exact ⟨hknown, hclean', c, hc'⟩

lemma CleanIn.newPage {known : List ℕ} (h : CleanIn s.store known) (hnew : NewPage s.store t id b) :
    CleanIn t known := by
  refine h.keep (fun j c hd hc => ?_) (fun j c hd hc => ?_) ?_
  · have hne : j ≠ id := by
      rintro rfl
      exact hnew.absent c hc
    rw [(hnew.others j hne).1, (hnew.others j hne).2]
    exact ⟨hd, hc⟩
  · have hne : j ≠ id := by
      rintro rfl
      rw [hnew.dirty] at hd
      cases hd
    rw [← (hnew.others j hne).1, ← (hnew.others j hne).2]
    exact ⟨hd, hc⟩
  · rw [(hnew.others NO_ROOT (Ne.symm hnew.ne_root)).2]
    exact h.1

/-- A dirty page that changes or goes is none of the clean ones. -/
lemma CleanIn.keepsOthers {known : List ℕ} (h : CleanIn s.store known)
    (hd : isDirty s.store id = true) (hothers : KeepsOthers s.store t id)
    (hnot : isDirty t id = true ∨ ∀ c, NodeSource.body t id ≠ .ok c) : CleanIn t known := by
  have hdirty {j : ℕ} (hj : isDirty s.store j = false) : j ≠ id := by
    rintro rfl
    rw [hd] at hj
    cases hj
  refine h.keep (fun j c hj hc => ?_) (fun j c hj hc => ?_) ?_
  · rw [(hothers j (hdirty hj)).1, (hothers j (hdirty hj)).2]
    exact ⟨hj, hc⟩
  · have hne : j ≠ id := by
      rintro rfl
      rcases hnot with hdt | hgone
      · rw [hdt] at hj
        cases hj
      · exact hgone c hc
    rw [← (hothers j hne).1, ← (hothers j hne).2]
    exact ⟨hj, hc⟩
  · rw [(hothers NO_ROOT (hdirty h.1)).2]
    exact h.1

lemma newPage (h : NewPage s.store t id b) : NewPage s (s.withStore t) id b where
  ne_root := h.ne_root
  lt := h.lt
  absent c hc := h.absent c (body_eq_ok.1 hc).2
  body_eq := body_eq_ok.2 ⟨Or.inl h.dirty, h.body_eq⟩
  dirty := h.dirty
  others j hj := by
    refine ⟨?_, (h.others j hj).2⟩
    change (if _ then _ else _) = (if _ then _ else _)
    rw [withStore, (h.others j hj).1, (h.others j hj).2]

lemma keepsOthers (h : KeepsOthers s.store t id) : KeepsOthers s (s.withStore t) id := by
  intro j hj
  refine ⟨?_, (h j hj).2⟩
  change (if _ then _ else _) = (if _ then _ else _)
  rw [withStore, (h j hj).1, (h j hj).2]

end Model

open LawfulNodeStore

instance instLawful {σ : Type} [NodeStore σ] [LawfulNodeStore σ] : LawfulNodeStore (PartOf σ) where
  Valid s := Valid s.store ∧ CleanIn s.store s.known
  AllocError := AllocError σ
  body_length {s id b} h hb := body_length h.1 (body_eq_ok.1 hb).2
  alloc_ok {s s' id} h ha := by
    obtain ⟨t, hx, rfl⟩ := map_eq_ok ha
    obtain ⟨hv, b, hnew⟩ := alloc_ok h.1 hx
    exact ⟨⟨hv, h.2.newPage hnew⟩, b, newPage hnew⟩
  alloc_error {s e} h ha := alloc_error h.1 (map_eq_error ha)
  makeDirty_dirty {s id b} h hb hd := by
    change (NodeStore.makeDirty s.store id).map _ = _
    rw [makeDirty_dirty h.1 (body_eq_ok.1 hb).2 hd]
    rfl
  makeDirty_ok {s s' id id' b} h hb hd hm := by
    obtain ⟨t, hx, rfl⟩ := map_eq_ok hm
    obtain ⟨hv, hnew⟩ := makeDirty_ok h.1 (body_eq_ok.1 hb).2 hd hx
    exact ⟨⟨hv, h.2.newPage hnew⟩, newPage hnew⟩
  makeDirty_error {s id b e} h hb hm := makeDirty_error h.1 (body_eq_ok.1 hb).2 (map_eq_error hm)
  bodyMut_eq {s id b} h hb hd := bodyMut_eq (s := s.store) h.1 (body_eq_ok.1 hb).2 hd
  setBody_ok {s id b b'} h hb hd hlen := by
    obtain ⟨hv, hb', hd', hothers⟩ := setBody_ok h.1 (body_eq_ok.1 hb).2 hd hlen
    exact ⟨⟨hv, h.2.keepsOthers hd hothers (Or.inl hd')⟩, body_eq_ok.2 ⟨Or.inl hd', hb'⟩, hd',
      keepsOthers hothers⟩
  free_dirty {s id b} h hb hd := by
    obtain ⟨hv, hothers, hgone⟩ := free_dirty h.1 (body_eq_ok.1 hb).2 hd
    exact ⟨⟨hv, h.2.keepsOthers hd hothers (Or.inr hgone)⟩, keepsOthers hothers,
      fun c hc => hgone c (body_eq_ok.1 hc).2⟩
  free_clean {s id} h hd := by
    change s.withStore (NodeStore.free s.store id) = s
    rw [free_clean h.1 hd]
    rfl

/-- In the part no chain mixes dirty pages and clean ones. -/
lemma cleanChains {σ : Type} [NodeStore σ] [LawfulNodeStore σ] : CleanChains (PartOf σ) := by
  intro s id next b chunk hv hb hd hov
  have hclean : Valid s.store ∧ CleanIn s.store s.known := hv
  have hsight := (body_eq_ok.1 hb).1
  have hknown : id ∈ s.known := hsight.resolve_left fun h => by
    rw [isDirty_eq, h] at hd
    cases hd
  by_cases hroot : next = NO_ROOT
  · rw [hroot]
    exact hclean.2.1
  · refine (hclean.2.2 id hknown b hd (body_eq_ok.1 hb).2 next ?_).2.1
    rw [pagePointers_overflow hov, pointerTo, if_neg hroot]
    exact List.mem_singleton_self _

end PartOf

end Btree

end Arkeion
