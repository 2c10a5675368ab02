import Arkeion.Node

/-!
The copy-on-write B-tree, addressed by page ids.

A node is the body of a page; to change one is to make its page dirty, which copies it to a new
page unless the transaction already owns it, and to rewrite the path up to the root. Deleting
does not balance: it only takes out nodes that became empty.

Walks down the tree, over overflow chains and over the entries of a scan take fuel. Stores
are passed along; what `body_mut` lends is read with `bodyMut` and written back with `setBody`.
-/

namespace Arkeion

open Arkeion.Lib

/-- The root of an empty tree; page 0 is the header of the file. -/
def NO_ROOT : ℕ := 0

/-- `trait NodeSource`: the bodies of pages, of a snapshot or of a transaction. -/
class NodeSource (σ : Type) where
  body : σ → ℕ → Result Bytes

/-- The rightmost leaf of a tree, remembered so that a key behind its last one can be appended
without descending. -/
structure AppendCursor where
  root : ℕ
  leaf : ℕ
  fin : ℕ
  last_key : Bytes
  deriving DecidableEq, Repr

/-- `trait NodeStore`: the pages of a transaction that writes. -/
class NodeStore (σ : Type) extends NodeSource σ where
  /-- a new dirty page of zeros -/
  alloc : σ → Result (ℕ × σ)
  /-- the page itself if it is dirty, else a dirty copy of it -/
  makeDirty : σ → ℕ → Result (ℕ × σ)
  bodyMut : σ → ℕ → Result Bytes
  setBody : σ → ℕ → Bytes → σ
  /-- frees a dirty page; durable pages are history and stay -/
  free : σ → ℕ → σ
  isDirty : σ → ℕ → Bool
  takeAppendCursor : σ → Option AppendCursor × σ := fun s => (none, s)
  setAppendCursor : σ → Option AppendCursor → σ := fun s _ => s

namespace Btree

open NodeSource NodeStore Node

/-! ### Reading -/

section Read
variable {σ : Type} [NodeSource σ]

/-- The data of an overflow chain from the page `id` on. -/
def readChain (s : σ) : ℕ → ℕ → Result Bytes
  | 0, id => if id = NO_ROOT then .ok [] else .error .outOfFuel
  | n + 1, id =>
    if id = NO_ROOT then .ok []
    else do
      let b ← body s id
      let (chunk, next) ← parseOverflow id b
      let rest ← readChain s n next
      .ok (chunk ++ rest)

def readValue (s : σ) (n : ℕ) : Payload → Result Bytes
  | .inline v => .ok v
  | .overflow total_len first => do
    let out ← readChain s n first
    require (out.length = total_len) (.corrupt first "cadena overflow incompleta")
    .ok out

/-- The leaf under which a key lies, with its page. -/
def findLeaf (s : σ) (key : Bytes) : ℕ → ℕ → Result (ℕ × Bytes)
  | 0, _ => .error .outOfFuel
  | n + 1, id => do
    let b ← body s id
    if nodeType b = TYPE_INNER then do
      let child ← innerChild id b key
      findLeaf s key n child
    else if nodeType b = TYPE_LEAF then .ok (id, b)
    else .error (.corrupt id "tipo de nodo inesperado")

def get (s : σ) (n root : ℕ) (key : Bytes) : Result (Option Bytes) :=
  if root = NO_ROOT then .ok none
  else do
    let (id, b) ← findLeaf s key n root
    let found ← leafFind id b key
    match found with
    | some payload => do
      let v ← readValue s n payload
      .ok (some v)
    | none => .ok none

/-- Whether the key exists; its value is not read. -/
def contains (s : σ) (n root : ℕ) (key : Bytes) : Result Bool :=
  if root = NO_ROOT then .ok false
  else do
    let (id, b) ← findLeaf s key n root
    leafContains id b key

end Read

/-! ### Inserting -/

/-- The leaf a key was appended to, if it is the rightmost one of the tree. -/
structure Tail where
  leaf : ℕ
  fin : ℕ
  last_key : Bytes
  deriving DecidableEq, Repr

structure InsertOutcome where
  /-- the node after the operation -/
  id : ℕ
  /-- the separator and the right node of a split -/
  split : Option (Bytes × ℕ)
  tail : Option Tail
  deriving DecidableEq, Repr

/-! The assertions on the sizes of nodes, as they fire. -/

def SPLIT_FITS : Error := .panic "cada mitad de un split cabe por construcción"
def LEAF_SHRINKS : Error := .panic "quitar una celda nunca crece"
def INNER_SHRINKS : Error := .panic "actualizar o quitar celdas nunca crece"

/-- `binary_search_by` over cells in order: where the key is, or where it would go. -/
def binarySearch (cells : List LeafCell) (key : Bytes) : Except ℕ ℕ :=
  let i := partitionPoint (fun c => decide (c.key < key)) cells
  match cells[i]? with
  | some c => if c.key = key then .ok i else .error i
  | none => .error i

/-- The cells and the rightmost child with another child at an index. -/
def setChild (cells : List InnerCell) (rightmost idx child : ℕ) : List InnerCell × ℕ :=
  if idx < cells.length then (cells.modify idx fun c => { c with child := child }, rightmost)
  else (cells, child)

section Write
variable {σ : Type} [NodeStore σ]

/-- Frees the pages of a chain from `id` on, as far as it can be read. -/
def freeChain : ℕ → σ → ℕ → Result σ
  | 0, s, id => if id = NO_ROOT then .ok s else .error .outOfFuel
  | n + 1, s, id =>
    if id = NO_ROOT then .ok s
    else
      match body s id with
      | .error (.panic m) => .error (.panic m)
      | .error _ => .ok s
      | .ok b =>
        match parseOverflow id b with
        | .error (.panic m) => .error (.panic m)
        | .error _ => .ok s
        | .ok (_, next) => freeChain n (free s id) next

/-- A chain is freed if this transaction wrote it. -/
def freePayload (n : ℕ) (s : σ) : Payload → Result σ
  | .inline _ => .ok s
  | .overflow _ first => if isDirty s first then freeChain n s first else .ok s

/-- Frees the payload of the cell at an index. -/
def freeCell (n : ℕ) (s : σ) (cells : List LeafCell) (i : ℕ) : Result σ := do
  let c ← okOr cells[i]? (.panic "index out of bounds")
  freePayload n s c.payload

/-- `chunks`: pieces of `m` bytes, the last one possibly shorter. -/
def chunks (m : ℕ) (data : Bytes) : List Bytes := go data.length data
where
  go : ℕ → Bytes → List Bytes
    | 0, _ => []
    | n + 1, d => if d = [] then [] else d.take m :: go n (d.drop m)

/-- The pages of a chain that ends before `next`, the last piece first. -/
def writeChunks : List Bytes → σ → ℕ → Result (ℕ × σ)
  | [], s, next => .ok (next, s)
  | chunk :: rest, s, next => do
    let (id, s) ← alloc s
    let b ← bodyMut s id
    writeChunks rest (setBody s id (encodeOverflow chunk next b.length)) id

def writeChain (s : σ) (data : Bytes) : Result (ℕ × σ) := do
  require (data ≠ []) (.panic "assertion failed: !data.is_empty()")
  writeChunks (chunks OVERFLOW_DATA data).reverse s NO_ROOT

/-- Encodes a node into a dirty page; `false` if it does not fit. -/
def encodeInto (s : σ) (id : ℕ) (encode : ℕ → Option Bytes) : Result (Bool × σ) := do
  let b ← bodyMut s id
  match encode b.length with
  | some b => .ok (true, setBody s id b)
  | none => .ok (false, s)

/-- The cells with the payload under the key, and whether its cell is a new one at the end. -/
def putCell (n : ℕ) (s : σ) (cells : List LeafCell) (key : Bytes) (payload : Payload) :
    Result (List LeafCell × Bool × σ) :=
  match binarySearch cells key with
  | .ok i => do
    let s ← freeCell n s cells i
    .ok (cells.modify i fun c => { c with payload := payload }, false, s)
  | .error i => .ok (cells.insertIdx i ⟨key, payload⟩, decide (i = cells.length), s)

/-- Writes the halves of a split, the right one on a new page. -/
def writeHalves (s : σ) (id : ℕ) (right left : ℕ → Option Bytes) : Result (ℕ × σ) := do
  let (rid, s) ← alloc s
  let (ok, s) ← encodeInto s rid right
  require ok SPLIT_FITS
  let (ok, s) ← encodeInto s id left
  require ok SPLIT_FITS
  .ok (rid, s)

/-- A leaf that ran over: a cell appended goes alone to the right, else both halves are of
like size. The separator is the first key of the right half. -/
def splitLeaf (s : σ) (id : ℕ) (cells : List LeafCell) (appended : Bool) :
    Result (InsertOutcome × σ) := do
  let sp := if appended then cells.length - 1 else splitPoint leafCellSize cells
  let right_cells := cells.drop sp
  let sep ← okOr (right_cells.head?.map LeafCell.key) (.panic "index out of bounds")
  let (right, s) ← writeHalves s id (encodeLeaf right_cells) (encodeLeaf (cells.take sp))
  .ok (⟨id, some (sep, right), none⟩, s)

def insertLeaf (n : ℕ) (s : σ) (id : ℕ) (key : Bytes) (payload : Payload) :
    Result (InsertOutcome × σ) := do
  let (id, s) ← makeDirty s id
  let b ← bodyMut s id
  let appended ← leafAppend id b key payload
  match appended with
  | some (b, fin) => .ok (⟨id, none, some ⟨id, fin, key⟩⟩, setBody s id b)
  | none => do
    let b ← body s id
    let cells ← parseLeaf id b
    let (cells, appended, s) ← putCell n s cells key payload
    let (ok, s) ← encodeInto s id (encodeLeaf cells)
    if ok then .ok (⟨id, none, none⟩, s) else splitLeaf s id cells appended

/-- An inner node that ran over: the key of one cell goes up, and its child becomes the
rightmost one of the left half. -/
def splitInner (s : σ) (id : ℕ) (cells : List InnerCell) (rightmost : ℕ) (tail : Option Tail) :
    Result (InsertOutcome × σ) := do
  let sp := splitPoint innerCellSize cells
  let c ← okOr cells[sp]? (.panic "index out of bounds")
  let (right, s) ← writeHalves s id (encodeInner (cells.drop (sp + 1)) rightmost)
    (encodeInner (cells.take sp) c.child)
  .ok (⟨id, some (c.key, right), tail⟩, s)

/-- The cells and the rightmost child after the child under the key became `cid`, with a right
sibling if it was split. -/
def placeChild (cells : List InnerCell) (rightmost : ℕ) (key : Bytes) (cid : ℕ)
    (split : Option (Bytes × ℕ)) : List InnerCell × ℕ :=
  let idx := childIndex cells key
  let placed := setChild cells rightmost idx cid
  match split with
  | none => placed
  | some (sep, right) => setChild (placed.1.insertIdx idx ⟨sep, cid⟩) placed.2 (idx + 1) right

def insertInner (s : σ) (id : ℕ) (key : Bytes) (cid : ℕ) (split : Option (Bytes × ℕ))
    (tail : Option Tail) : Result (InsertOutcome × σ) := do
  let b ← body s id
  let (cells, rightmost) ← parseInner id b
  let placed := placeChild cells rightmost key cid split
  let (id, s) ← makeDirty s id
  let (ok, s) ← encodeInto s id (encodeInner placed.1 placed.2)
  if ok then .ok (⟨id, none, tail⟩, s) else splitInner s id placed.1 placed.2 tail

def insertRec (key : Bytes) (payload : Payload) : ℕ → σ → ℕ → Result (InsertOutcome × σ)
  | 0, _, _ => .error .outOfFuel
  | n + 1, s, id => do
    let b ← body s id
    if nodeType b = TYPE_LEAF then insertLeaf n s id key payload
    else if nodeType b = TYPE_INNER then do
      let child ← innerChild id b key
      let (out, s) ← insertRec key payload n s child
      -- only then is the leaf of the tail the rightmost one of the tree
      let tail := if child = innerRightmost b then out.tail else none
      -- the parent of a dirty node is dirty itself and still points to it
      if out.split = none ∧ out.id = child then .ok (⟨id, none, tail⟩, s)
      else insertInner s id key out.id out.split tail
    else .error (.corrupt id "tipo de nodo inesperado")

/-- The fast path of `insert`: behind the last key of the remembered leaf. -/
def appendAtCursor (s : σ) (cursor : Option AppendCursor) (root : ℕ) (key value : Bytes) :
    Result (Option σ) :=
  match cursor with
  | none => .ok none
  | some cur =>
    if cur.root = root ∧ cur.last_key < key ∧ isDirty s cur.leaf
        ∧ inlineCellSize key value.length ≤ MAX_INLINE_CELL then do
      let b ← bodyMut s cur.leaf
      let appended ← appendInlineAt b cur.fin key value
      match appended with
      | some (b, fin) =>
        .ok (some (setAppendCursor (setBody s cur.leaf b)
          (some { cur with fin := fin, last_key := key })))
      | none => .ok none
    else .ok none

/-- The payload of a value: inline if the cell is small, else a new overflow chain. -/
def makePayload (s : σ) (key value : Bytes) : Result (Payload × σ) :=
  if inlineCellSize key value.length ≤ MAX_INLINE_CELL then .ok (.inline value, s)
  else do
    let (first, s) ← writeChain s value
    .ok (.overflow value.length first, s)

/-- The slow path of `insert`. -/
def insertDown (n : ℕ) (s : σ) (root : ℕ) (key value : Bytes) : Result (ℕ × σ) := do
  let (payload, s) ← makePayload s key value
  if root = NO_ROOT then do
    let (id, s) ← alloc s
    let (ok, s) ← encodeInto s id (encodeLeaf [⟨key, payload⟩])
    require ok (.panic "una celda siempre cabe en una hoja vacía")
    .ok (id, setAppendCursor s none)
  else do
    let (out, s) ← insertRec key payload n s root
    match out.split with
    | none =>
      .ok (out.id, setAppendCursor s (out.tail.map fun t => ⟨out.id, t.leaf, t.fin, t.last_key⟩))
    | some (sep, right) => do
      let (new_root, s) ← alloc s
      let (ok, s) ← encodeInto s new_root (encodeInner [⟨sep, out.id⟩] right)
      require ok (.panic "una raíz con una celda siempre cabe")
      .ok (new_root,
        setAppendCursor s (out.tail.map fun t => ⟨new_root, t.leaf, t.fin, t.last_key⟩))

/-- The new root. -/
def insert (n : ℕ) (s : σ) (root : ℕ) (key value : Bytes) : Result (ℕ × σ) := do
  require (key ≠ [] ∧ key.length ≤ MAX_KEY_LEN)
    (.invalidInput "clave vacía o de más de 1024 bytes")
  let (cursor, s) := takeAppendCursor s
  let appended ← appendAtCursor s cursor root key value
  match appended with
  | some s => .ok (root, s)
  | none => insertDown n s root key value

/-! ### Deleting -/

def deleteLeaf (n : ℕ) (s : σ) (id : ℕ) (b key : Bytes) : Result (Option ℕ × Bool × σ) := do
  let cells ← parseLeaf id b
  match binarySearch cells key with
  | .error _ => .ok (some id, false, s)
  | .ok i => do
    let s ← freeCell n s cells i
    let cells := cells.eraseIdx i
    if cells = [] then .ok (none, true, free s id)
    else do
      let (id, s) ← makeDirty s id
      let (ok, s) ← encodeInto s id (encodeLeaf cells)
      require ok LEAF_SHRINKS
      .ok (some id, true, s)

/-- The cells and the rightmost child without the child at an index, whose range goes to its
neighbour; `none` if it was the only one. -/
def removeChild (cells : List InnerCell) (rightmost idx : ℕ) : Option (List InnerCell × ℕ) :=
  if idx < cells.length then some (cells.eraseIdx idx, rightmost)
  else cells.getLast?.map fun last => (cells.dropLast, last.child)

def rewriteInner (s : σ) (id : ℕ) (cells : List InnerCell) (rightmost : ℕ) (existed : Bool) :
    Result (Option ℕ × Bool × σ) := do
  let (id, s) ← makeDirty s id
  let (ok, s) ← encodeInto s id (encodeInner cells rightmost)
  require ok INNER_SHRINKS
  .ok (some id, existed, s)

def deleteInner (s : σ) (id : ℕ) (key : Bytes) (new_child : Option ℕ) (existed : Bool) :
    Result (Option ℕ × Bool × σ) := do
  let b ← body s id
  let (cells, rightmost) ← parseInner id b
  let idx := childIndex cells key
  match new_child with
  | some child =>
    let placed := setChild cells rightmost idx child
    rewriteInner s id placed.1 placed.2 existed
  | none =>
    match removeChild cells rightmost idx with
    | none => .ok (none, existed, free s id)
    | some placed =>
      -- a node with one child left is replaced by it
      if placed.1 = [] then .ok (some placed.2, existed, free s id)
      else rewriteInner s id placed.1 placed.2 existed

/-- The node after the operation, if it is left, and whether the key existed. -/
def deleteRec (key : Bytes) : ℕ → σ → ℕ → Result (Option ℕ × Bool × σ)
  | 0, _, _ => .error .outOfFuel
  | n + 1, s, id => do
    let b ← body s id
    if nodeType b = TYPE_LEAF then deleteLeaf n s id b key
    else if nodeType b = TYPE_INNER then do
      let child ← innerChild id b key
      let (new_child, existed, s) ← deleteRec key n s child
      if new_child = some child then .ok (some id, existed, s)
      else deleteInner s id key new_child existed
    else .error (.corrupt id "tipo de nodo inesperado")

/-- The new root, and whether the key existed. -/
def delete (n : ℕ) (s : σ) (root : ℕ) (key : Bytes) : Result (ℕ × Bool × σ) :=
  if root = NO_ROOT then .ok (NO_ROOT, false, s)
  else do
    let (new_root, existed, s) ← deleteRec key n s root
    .ok (new_root.getD NO_ROOT, existed, s)

end Write

/-! ### Scanning -/

/-- The leaf a scan is in, with the next cell to give. -/
structure LeafScan where
  page : ℕ
  held : Bytes
  next : ℕ
  ncells : ℕ
  deriving DecidableEq, Repr

/-- The inner nodes above, the innermost first, each with the next child to visit. -/
structure CursorState where
  stack : List (ℕ × ℕ)
  leaf : Option LeafScan
  deriving DecidableEq, Repr

section Scan
variable {σ : Type} [NodeSource σ]

def descend (s : σ) (start : Option Bytes) : ℕ → CursorState → ℕ → Result CursorState
  | 0, _, _ => .error .outOfFuel
  | n + 1, st, id => do
    let b ← body s id
    if nodeType b = TYPE_INNER then do
      let (cells, rightmost) ← parseInner id b
      let idx := match start with
        | none => 0
        | some k => childIndex cells k
      descend s start n { st with stack := (id, idx + 1) :: st.stack } (childAt cells rightmost idx)
    else if nodeType b = TYPE_LEAF then do
      let next ← match start with
        | none => .ok 0
        | some k => leafLowerBound id b k
      .ok { st with leaf := some ⟨id, b, next, leafNcells b⟩ }
    else .error (.corrupt id "tipo de nodo inesperado")

def scanState (s : σ) (n root : ℕ) (start : Option Bytes) : Result CursorState :=
  if root = NO_ROOT then .ok ⟨[], none⟩ else descend s start n ⟨[], none⟩ root

/-- On to the next leaf, or up to a parent that is done; `none` at the end of the tree. -/
def nextLeaf (s : σ) (n : ℕ) (st : CursorState) : Result (Option CursorState) :=
  match st.stack with
  | [] => .ok none
  | (id, idx) :: above => do
    let b ← body s id
    let (cells, rightmost) ← parseInner id b
    if idx ≤ cells.length then do
      let st ← descend s none n ⟨(id, idx + 1) :: above, none⟩ (childAt cells rightmost idx)
      .ok (some st)
    else .ok (some ⟨above, none⟩)

/-- The next entry, and the state behind it; the fuel bounds the leaves passed over. -/
def advance (s : σ) (n : ℕ) : ℕ → CursorState → Result (Option ((Bytes × Bytes) × CursorState))
  | 0, _ => .error .outOfFuel
  | m + 1, st =>
    let goOn : Result (Option ((Bytes × Bytes) × CursorState)) := do
      let next ← nextLeaf s n st
      match next with
      | none => .ok none
      | some st => advance s n m st
    match st.leaf with
    | none => goOn
    | some ls =>
      if ls.next < ls.ncells then do
        let (key, payload) ← leafCellAt ls.page ls.held ls.next
        let value ← readValue s n payload
        .ok (some ((key, value), { st with leaf := some { ls with next := ls.next + 1 } }))
      else goOn

/-- The entries a cursor gives until its end; the fuel bounds their number. -/
def collect (s : σ) (n : ℕ) : ℕ → CursorState → Result (List (Bytes × Bytes))
  | 0, _ => .error .outOfFuel
  | m + 1, st => do
    let next ← advance s n n st
    match next with
    | none => .ok []
    | some (entry, st) => do
      let rest ← collect s n m st
      .ok (entry :: rest)

def scan (s : σ) (n root : ℕ) : Result (List (Bytes × Bytes)) := do
  let st ← scanState s n root none
  collect s n n st

/-- The entries from the first key that is not below `start` on. -/
def scanFrom (s : σ) (n root : ℕ) (start : Bytes) : Result (List (Bytes × Bytes)) := do
  let st ← scanState s n root (some start)
  collect s n n st

end Scan

end Btree

end Arkeion
