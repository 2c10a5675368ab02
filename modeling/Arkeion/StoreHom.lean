import Arkeion.Btree

/-!
Two stores with the same pages: what an operation on a tree does in the one, it does in the
other. The append cursor is left out of the correspondence, so a store that keeps one can be
compared with a store that does not.
-/

namespace Arkeion

open Arkeion.Lib

namespace Btree

open NodeSource NodeStore Node

section Map
variable {α β γ : Type} {x : Result α}

lemma map_bind (x : Result α) (g : α → Result β) (φ : β → γ) :
    (x >>= g).map φ = x >>= fun a => (g a).map φ := by
  cases x <;> rfl

lemma bind_map (x : Result α) (φ : α → β) (g : β → Result γ) :
    (x.map φ >>= g) = x >>= fun a => g (φ a) := by
  cases x <;> rfl

lemma bind_congr {g h : α → Result β} (hgh : ∀ a, g a = h a) : (x >>= g) = x >>= h := by
  rw [funext hgh]

@[simp] lemma map_ok (a : α) (φ : α → β) : (Except.ok a : Result α).map φ = .ok (φ a) := rfl

@[simp] lemma map_error (e : Error) (φ : α → β) :
    (Except.error e : Result α).map φ = .error e := rfl

end Map

/-- `f` maps the store to one with the same pages. -/
structure PageMap {σ τ : Type} [NodeStore σ] [NodeStore τ] (f : σ → τ) : Prop where
  body : ∀ s id, body (f s) id = body s id
  alloc : ∀ s, alloc (f s) = (alloc s).map (Prod.map (fun i => i) f)
  makeDirty : ∀ s i, makeDirty (f s) i = (makeDirty s i).map (Prod.map (fun i => i) f)
  bodyMut : ∀ s id, bodyMut (f s) id = bodyMut s id
  setBody : ∀ s id b, setBody (f s) id b = f (setBody s id b)
  free : ∀ s id, free (f s) id = f (free s id)
  isDirty : ∀ s id, isDirty (f s) id = isDirty s id

/-- `f` maps the store to one with the same pages, that forgets the append cursor. -/
structure PageHom {σ τ : Type} [NodeStore σ] [NodeStore τ] (f : σ → τ) : Prop extends
    PageMap f where
  set : ∀ s c, setAppendCursor (f s) c = f s
  take : ∀ s, f (takeAppendCursor s).2 = f s
  forget : ∀ s c, f (setAppendCursor s c) = f s

namespace PageMap
variable {σ τ : Type} [NodeStore σ] [NodeStore τ] {f : σ → τ}

/-! ### Reading -/

section Read
variable (h : PageMap f)
include h

lemma readChain (s : σ) (n id : ℕ) : readChain (f s) n id = readChain s n id := by
  induction n generalizing id with
  | zero => rfl
  | succ n ih => simp only [Btree.readChain, h.body, ih]

lemma readValue (s : σ) (n : ℕ) (p : Payload) : readValue (f s) n p = readValue s n p := by
  cases p with
  | inline v => rfl
  | overflow t first => simp only [Btree.readValue, h.readChain]

lemma findLeaf (s : σ) (key : Bytes) (n id : ℕ) :
    findLeaf (f s) key n id = findLeaf s key n id := by
  induction n generalizing id with
  | zero => rfl
  | succ n ih => simp only [Btree.findLeaf, h.body, ih]

lemma get (s : σ) (n root : ℕ) (key : Bytes) : get (f s) n root key = get s n root key := by
  simp only [Btree.get, h.findLeaf, h.readValue]

lemma contains (s : σ) (n root : ℕ) (key : Bytes) :
    contains (f s) n root key = contains s n root key := by
  simp only [Btree.contains, h.findLeaf]

lemma descend (s : σ) (start : Option Bytes) (n : ℕ) (st : CursorState) (id : ℕ) :
    descend (f s) start n st id = descend s start n st id := by
  induction n generalizing st id with
  | zero => rfl
  | succ n ih => simp only [Btree.descend, h.body, ih]

lemma nextLeaf (s : σ) (n : ℕ) (st : CursorState) : nextLeaf (f s) n st = nextLeaf s n st := by
  simp only [Btree.nextLeaf, h.body, h.descend]

lemma advance (s : σ) (n m : ℕ) (st : CursorState) : advance (f s) n m st = advance s n m st := by
  induction m generalizing st with
  | zero => rfl
  | succ m ih => simp only [Btree.advance, h.readValue, h.nextLeaf, ih]

lemma collect (s : σ) (n m : ℕ) (st : CursorState) : collect (f s) n m st = collect s n m st := by
  induction m generalizing st with
  | zero => rfl
  | succ m ih => simp only [Btree.collect, h.advance, ih]

lemma scanFrom (s : σ) (n root : ℕ) (start : Bytes) :
    scanFrom (f s) n root start = scanFrom s n root start := by
  simp only [Btree.scanFrom, scanState, h.descend, h.collect]

lemma scan (s : σ) (n root : ℕ) : scan (f s) n root = scan s n root := by
  simp only [Btree.scan, scanState, h.descend, h.collect]

end Read

/-! ### Writing -/

section Write
variable (h : PageMap f)
include h

lemma freeChain (n : ℕ) (s : σ) (id : ℕ) : freeChain n (f s) id = (freeChain n s id).map f := by
  induction n generalizing s id with
  | zero =>
    simp only [Btree.freeChain]
    split_ifs <;> rfl
  | succ n ih =>
    simp only [Btree.freeChain, h.body, h.free]
    split_ifs with hid
    · rfl
    · cases NodeSource.body s id with
      | error e => cases e <;> rfl
      | ok b =>
        dsimp only
        cases parseOverflow id b with
        | error e => cases e <;> rfl
        | ok r => exact ih _ _

lemma freePayload (n : ℕ) (s : σ) (p : Payload) :
    freePayload n (f s) p = (freePayload n s p).map f := by
  cases p with
  | inline v => rfl
  | overflow t first =>
    simp only [Btree.freePayload, h.isDirty, h.freeChain]
    split_ifs <;> rfl

lemma freeCell (n : ℕ) (s : σ) (cells : List LeafCell) (i : ℕ) :
    freeCell n (f s) cells i = (freeCell n s cells i).map f := by
  simp only [Btree.freeCell, map_bind, h.freePayload]

lemma encodeInto (s : σ) (id : ℕ) (encode : ℕ → Option Bytes) :
    encodeInto (f s) id encode = (encodeInto s id encode).map (Prod.map (fun b => b) f) := by
  simp only [Btree.encodeInto, map_bind, h.bodyMut, h.setBody]
  refine bind_congr fun b => ?_
  cases encode b.length <;> rfl

lemma writeChunks (cs : List Bytes) (s : σ) (next : ℕ) :
    writeChunks cs (f s) next = (writeChunks cs s next).map (Prod.map (fun i => i) f) := by
  induction cs generalizing s next with
  | nil => rfl
  | cons c cs ih =>
    simp only [Btree.writeChunks, h.alloc, map_bind, bind_map]
    refine bind_congr fun r => ?_
    simp only [Prod.map, h.bodyMut, h.setBody, ih]

lemma writeChain (s : σ) (data : Bytes) :
    writeChain (f s) data = (writeChain s data).map (Prod.map (fun i => i) f) := by
  simp only [Btree.writeChain, map_bind, h.writeChunks]

lemma makePayload (s : σ) (key value : Bytes) :
    makePayload (f s) key value = (makePayload s key value).map (Prod.map (fun p => p) f) := by
  simp only [Btree.makePayload, h.writeChain]
  split_ifs
  · rfl
  · simp only [map_bind, bind_map]
    rfl

lemma putCell (n : ℕ) (s : σ) (cells : List LeafCell) (key : Bytes) (payload : Payload) :
    putCell n (f s) cells key payload
      = (putCell n s cells key payload).map fun r => (r.1, r.2.1, f r.2.2) := by
  simp only [Btree.putCell]
  cases binarySearch cells key with
  | error i => rfl
  | ok i =>
    simp only [h.freeCell, map_bind, bind_map]
    rfl

lemma writeHalves (s : σ) (id : ℕ) (right left : ℕ → Option Bytes) :
    writeHalves (f s) id right left
      = (writeHalves s id right left).map (Prod.map (fun i => i) f) := by
  simp only [Btree.writeHalves, h.alloc, map_bind, bind_map]
  refine bind_congr fun r => ?_
  simp only [Prod.map, h.encodeInto, bind_map]
  refine bind_congr fun r => bind_congr fun _ => bind_congr fun r => bind_congr fun _ => ?_
  rfl

lemma splitLeaf (s : σ) (id : ℕ) (cells : List LeafCell) (appended : Bool) :
    splitLeaf (f s) id cells appended
      = (splitLeaf s id cells appended).map (Prod.map (fun o => o) f) := by
  simp only [Btree.splitLeaf, h.writeHalves, map_bind, bind_map]
  rfl

lemma insertLeaf (n : ℕ) (s : σ) (id : ℕ) (key : Bytes) (payload : Payload) :
    insertLeaf n (f s) id key payload
      = (insertLeaf n s id key payload).map (Prod.map (fun o => o) f) := by
  simp only [Btree.insertLeaf, h.makeDirty, map_bind, bind_map]
  refine bind_congr fun r => ?_
  simp only [Prod.map, h.bodyMut, h.body, h.setBody]
  refine bind_congr fun b => bind_congr fun appended => ?_
  cases appended with
  | some r => rfl
  | none =>
    simp only [map_bind]
    refine bind_congr fun b => bind_congr fun cells => ?_
    simp only [h.putCell, bind_map]
    refine bind_congr fun r => ?_
    simp only [h.encodeInto, bind_map]
    refine bind_congr fun r' => ?_
    simp only [Prod.map]
    split_ifs
    · rfl
    · exact h.splitLeaf ..

lemma splitInner (s : σ) (id : ℕ) (cells : List InnerCell) (rightmost : ℕ) (tail : Option Tail) :
    splitInner (f s) id cells rightmost tail
      = (splitInner s id cells rightmost tail).map (Prod.map (fun o => o) f) := by
  simp only [Btree.splitInner, h.writeHalves, map_bind, bind_map]
  rfl

lemma insertInner (s : σ) (id : ℕ) (key : Bytes) (cid : ℕ) (split : Option (Bytes × ℕ))
    (tail : Option Tail) : insertInner (f s) id key cid split tail
      = (insertInner s id key cid split tail).map (Prod.map (fun o => o) f) := by
  simp only [Btree.insertInner, h.body, h.makeDirty, map_bind, bind_map]
  refine bind_congr fun b => bind_congr fun node => bind_congr fun r => ?_
  simp only [Prod.map, h.encodeInto, bind_map]
  refine bind_congr fun r' => ?_
  split_ifs
  · rfl
  · exact h.splitInner ..

lemma insertRec (key : Bytes) (payload : Payload) (n : ℕ) (s : σ) (id : ℕ) :
    insertRec key payload n (f s) id
      = (insertRec key payload n s id).map (Prod.map (fun o => o) f) := by
  induction n generalizing s id with
  | zero => rfl
  | succ n ih =>
    simp only [Btree.insertRec, h.body, map_bind]
    refine bind_congr fun b => ?_
    split_ifs
    · exact h.insertLeaf ..
    · simp only [ih, map_bind, bind_map]
      refine bind_congr fun child => bind_congr fun r => ?_
      simp only [Prod.map]
      split_ifs <;> first | rfl | exact h.insertInner ..
    · rfl

lemma deleteLeaf (n : ℕ) (s : σ) (id : ℕ) (b key : Bytes) :
    deleteLeaf n (f s) id b key
      = (deleteLeaf n s id b key).map fun r => (r.1, r.2.1, f r.2.2) := by
  simp only [Btree.deleteLeaf, map_bind]
  refine bind_congr fun cells => ?_
  cases binarySearch cells key with
  | error i => rfl
  | ok i =>
    simp only [h.freeCell, map_bind, bind_map]
    refine bind_congr fun s => ?_
    split_ifs
    · simp only [h.free, map_ok]
    · simp only [h.makeDirty, map_bind, bind_map]
      refine bind_congr fun r => ?_
      simp only [Prod.map, h.encodeInto, bind_map]
      refine bind_congr fun r => bind_congr fun _ => rfl

lemma rewriteInner (s : σ) (id : ℕ) (cells : List InnerCell) (rightmost : ℕ) (existed : Bool) :
    rewriteInner (f s) id cells rightmost existed
      = (rewriteInner s id cells rightmost existed).map fun r => (r.1, r.2.1, f r.2.2) := by
  simp only [Btree.rewriteInner, h.makeDirty, map_bind, bind_map]
  refine bind_congr fun r => ?_
  simp only [Prod.map, h.encodeInto, bind_map]
  refine bind_congr fun r => bind_congr fun _ => rfl

lemma deleteInner (s : σ) (id : ℕ) (key : Bytes) (new_child : Option ℕ) (existed : Bool) :
    deleteInner (f s) id key new_child existed
      = (deleteInner s id key new_child existed).map fun r => (r.1, r.2.1, f r.2.2) := by
  simp only [Btree.deleteInner, h.body, map_bind]
  refine bind_congr fun b => bind_congr fun r => ?_
  cases new_child with
  | some child => exact h.rewriteInner ..
  | none =>
    dsimp only
    cases removeChild r.1 r.2 (childIndex r.1 key) with
    | none => simp only [h.free, map_ok]
    | some placed =>
      dsimp only
      split_ifs
      · simp only [h.free, map_ok]
      · exact h.rewriteInner ..

lemma deleteRec (key : Bytes) (n : ℕ) (s : σ) (id : ℕ) :
    deleteRec key n (f s) id = (deleteRec key n s id).map fun r => (r.1, r.2.1, f r.2.2) := by
  induction n generalizing s id with
  | zero => rfl
  | succ n ih =>
    simp only [Btree.deleteRec, h.body, map_bind]
    refine bind_congr fun b => ?_
    split_ifs
    · exact h.deleteLeaf ..
    · simp only [ih, map_bind, bind_map]
      refine bind_congr fun child => bind_congr fun r => ?_
      split_ifs
      · rfl
      · exact h.deleteInner ..
    · rfl

lemma delete (n : ℕ) (s : σ) (root : ℕ) (key : Bytes) :
    delete n (f s) root key = (delete n s root key).map fun r => (r.1, r.2.1, f r.2.2) := by
  simp only [Btree.delete]
  split_ifs
  · rfl
  · simp only [h.deleteRec, map_bind, bind_map]
    rfl

end Write

end PageMap

/-- The slow path of an insertion: what it remembers is forgotten. -/
lemma PageHom.insertDown {σ τ : Type} [NodeStore σ] [NodeStore τ] {f : σ → τ}
    (h : PageHom f) (n : ℕ) (s : σ) (root : ℕ) (key value : Bytes) :
    Btree.insertDown n (f s) root key value
      = (Btree.insertDown n s root key value).map (Prod.map (fun i => i) f) := by
  simp only [Btree.insertDown, h.makePayload, map_bind, bind_map]
  refine bind_congr fun r => ?_
  simp only [Prod.map]
  split_ifs
  · simp only [h.alloc, map_bind, bind_map]
    refine bind_congr fun r => ?_
    simp only [Prod.map, h.encodeInto, bind_map]
    refine bind_congr fun r => bind_congr fun _ => ?_
    simp only [Prod.map, h.set, map_ok, h.forget]
  · simp only [h.insertRec, map_bind, bind_map]
    refine bind_congr fun r => ?_
    simp only [Prod.map]
    cases r.1.split with
    | none => simp only [h.set, map_ok, Prod.map, h.forget]
    | some x =>
      simp only [h.alloc, map_bind, bind_map]
      refine bind_congr fun r => ?_
      simp only [Prod.map, h.encodeInto, bind_map]
      refine bind_congr fun r => bind_congr fun _ => ?_
      simp only [Prod.map, h.set, map_ok, h.forget]


end Btree

end Arkeion
