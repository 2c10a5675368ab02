import Arkeion.Format
import Arkeion.Lib.BinarySearch

/-!
The nodes of the B-tree and the pages of overflow chains, as bytes.

The cells of a node lie in the order of their keys behind its header, and an array of
pointers to them grows from the end of the body towards them. A leaf whose keys share a long
prefix keeps it once, behind the header, and its cells keep what follows the prefix.
-/

namespace Arkeion

open Arkeion.Lib

def TYPE_LEAF : UInt8 := 1
def TYPE_INNER : UInt8 := 2
def TYPE_OVERFLOW : UInt8 := 3

def MAX_KEY_LEN : ℕ := 1024
/-- A leaf cell larger than this sends its value to an overflow chain. -/
def MAX_INLINE_CELL : ℕ := 1280

def LEAF_HDR : ℕ := 4
def INNER_HDR : ℕ := 12
def OVERFLOW_HDR : ℕ := 12
def OVERFLOW_DATA : ℕ := BODY_SIZE - OVERFLOW_HDR
def CELL_OVERFLOW_FLAG : UInt8 := 1
def LEAF_PREFIX_FLAG : UInt8 := 1
/-- Shorter common prefixes are not taken out. -/
def LEAF_MIN_PREFIX : ℕ := 6

inductive Payload where
  | inline (v : Bytes)
  | overflow (total_len first : ℕ)
  deriving DecidableEq, Repr

structure LeafCell where
  key : Bytes
  payload : Payload
  deriving DecidableEq, Repr

/-- `key` is the exclusive upper bound of the keys under `child`. -/
structure InnerCell where
  key : Bytes
  child : ℕ
  deriving DecidableEq, Repr

namespace Node

def byteAt (body : Bytes) (i : ℕ) : UInt8 := body.getD i 0
def u16At (body : Bytes) (i : ℕ) : ℕ := leNat (sub body i 2)

def nodeType (body : Bytes) : UInt8 := byteAt body 0

def leafIsCompressed (body : Bytes) : Bool := byteAt body 1 &&& LEAF_PREFIX_FLAG != 0

def getVarint (page : ℕ) (buf : Bytes) (pos : ℕ) : Result (ℕ × ℕ) :=
  okOr (takeVarint buf pos) (.corrupt page "varint inválido")

/-- The slice and the position after it. -/
def getSlice (page : ℕ) (buf : Bytes) (pos len : ℕ) : Result (Bytes × ℕ) := do
  require (pos + len < 2 ^ 64) (.panic "attempt to add with overflow")
  let s ← okOr (slice? buf pos len) (.corrupt page "celda truncada")
  .ok (s, pos + len)

def getU64 (page : ℕ) (buf : Bytes) (pos : ℕ) : Result (ℕ × ℕ) := do
  let (s, pos) ← getSlice page buf pos 8
  .ok (leNat s, pos)

/-- The common prefix of a leaf's keys, and where its first cell begins. -/
def leafPrefixAndStart (page : ℕ) (body : Bytes) : Result (Bytes × ℕ) :=
  if leafIsCompressed body then do
    let (plen, pos) ← getVarint page body LEAF_HDR
    getSlice page body pos plen
  else .ok ([], LEAF_HDR)

/-- Where a target lies with regard to all keys with a prefix. -/
inductive PrefixCmp where
  | below
  | above
  | within (rest : Bytes)
  deriving DecidableEq, Repr

def cmpPrefix (pfx target : Bytes) : PrefixCmp :=
  let n := min pfx.length target.length
  match cmpBytes (target.take n) (pfx.take n) with
  | .lt => .below
  | .gt => .above
  | .eq => if target.length < pfx.length then .below else .within (target.drop pfx.length)

/-- The length of the common prefix of two keys. -/
def lcpLen : Bytes → Bytes → ℕ
  | a :: as, b :: bs => if a = b then lcpLen as bs + 1 else 0
  | _, _ => 0

/-- The cells are in order: what the first and the last key share, all share. -/
def keysLcp (cells : List LeafCell) : ℕ :=
  match cells.head?, cells.getLast? with
  | some first, some last => lcpLen first.key last.key
  | _, _ => 0

/-! ### Pointers -/

def cellPtr (body : Bytes) (i : ℕ) : Result ℕ := do
  require (2 * (i + 1) ≤ body.length) (.panic "attempt to subtract with overflow")
  .ok (u16At body (body.length - 2 * (i + 1)))

def setCellPtr (body : Bytes) (i off : ℕ) : Bytes :=
  writeAt body (body.length - 2 * (i + 1)) (leBytes 2 off)

/-- The key of an inner cell and the position after it. -/
def innerKeyAt (page : ℕ) (body : Bytes) (off : ℕ) : Result (Bytes × ℕ) := do
  let (klen, pos) ← getVarint page body off
  getSlice page body pos klen

/-- The flags of a leaf cell, its key as stored, and the position after it. -/
def leafKeyAt (page : ℕ) (body : Bytes) (off : ℕ) : Result (UInt8 × Bytes × ℕ) := do
  let flags ← okOr body[off]? (.corrupt page "celda truncada")
  let (klen, pos) ← getVarint page body (off + 1)
  let (key, pos) ← getSlice page body pos klen
  .ok (flags, key, pos)

/-! ### Sizes -/

def payloadSize : Payload → ℕ
  | .inline v => varintLen v.length + v.length
  | .overflow total_len _ => varintLen total_len + 8

/-- The size of a leaf cell that keeps a key of this length. -/
def storedCellSize (klen : ℕ) (p : Payload) : ℕ := 1 + varintLen klen + klen + payloadSize p

def leafCellSize (c : LeafCell) : ℕ := storedCellSize c.key.length c.payload

def leafSuffixCellSize (plen : ℕ) (c : LeafCell) : ℕ :=
  storedCellSize (c.key.length - plen) c.payload

def innerCellSize (c : InnerCell) : ℕ := varintLen c.key.length + c.key.length + 8

def inlineCellSize (key : Bytes) (value_len : ℕ) : ℕ :=
  1 + varintLen key.length + key.length + varintLen value_len + value_len

/-! ### Leaves -/

def readLeafPayload (page : ℕ) (body : Bytes) (pos : ℕ) (flags : UInt8) : Result (Payload × ℕ) :=
  if flags &&& CELL_OVERFLOW_FLAG != 0 then do
    let (total_len, pos) ← getVarint page body pos
    let (first, pos) ← getU64 page body pos
    .ok (.overflow total_len first, pos)
  else do
    let (vlen, pos) ← getVarint page body pos
    let (v, pos) ← getSlice page body pos vlen
    .ok (.inline v, pos)

/-- `n` cells from `pos` on, behind one with the key `last`. -/
def parseLeafCells (page : ℕ) (body pfx : Bytes) : ℕ → ℕ → Option Bytes → Result (List LeafCell)
  | 0, _, _ => .ok []
  | n + 1, pos, last => do
    let (flags, suffix, pos) ← leafKeyAt page body pos
    let key := pfx ++ suffix
    require (key ≠ [] ∧ ∀ p ∈ last, p < key)
      (.corrupt page "claves de hoja desordenadas o vacías")
    let (payload, pos) ← readLeafPayload page body pos flags
    let cells ← parseLeafCells page body pfx n pos (some key)
    .ok (⟨key, payload⟩ :: cells)

def leafNcells (body : Bytes) : ℕ := u16At body 2

def parseLeaf (page : ℕ) (body : Bytes) : Result (List LeafCell) := do
  require (nodeType body = TYPE_LEAF) (.corrupt page "se esperaba una hoja")
  let (pfx, pos) ← leafPrefixAndStart page body
  parseLeafCells page body pfx (leafNcells body) pos none

/-- A leaf cell with the key as it is stored. -/
def encodeLeafCell (key : Bytes) : Payload → Bytes
  | .inline v => 0 :: putVarint key.length ++ key ++ putVarint v.length ++ v
  | .overflow total_len first =>
    CELL_OVERFLOW_FLAG :: putVarint key.length ++ key ++ putVarint total_len ++ leBytes 8 first

/-- Where cells begin that lie one after the other. -/
def cellOffsets : ℕ → List Bytes → List ℕ
  | _, [] => []
  | off, c :: cs => off :: cellOffsets (off + c.length) cs

/-- The pointers, the first one at the very end. -/
def pointerArray (offs : List ℕ) : Bytes := (offs.reverse.map (leBytes 2)).flatten

/-- A body of `len` bytes: header, cells, zeros and pointers. -/
def layNode (head : Bytes) (cells : List Bytes) (len : ℕ) : Bytes :=
  head ++ cells.flatten
    ++ List.replicate (len - head.length - cells.flatten.length - 2 * cells.length) 0
    ++ pointerArray (cellOffsets head.length cells)

def leafHeader (flags : UInt8) (n : ℕ) : Bytes := [TYPE_LEAF, flags] ++ leBytes 2 n

/-- `none` if the cells do not fit into `len` bytes. -/
def encodeLeaf (cells : List LeafCell) (len : ℕ) : Option Bytes :=
  let n := cells.length
  let plen := if 2 ≤ n then keysLcp cells else 0
  let firstKey := (cells.head?.map LeafCell.key).getD []
  -- the keys of the vector space are left as they are
  let is_vector := firstKey.head? = some 0x04
  if LEAF_MIN_PREFIX ≤ plen ∧ ¬ is_vector then
    let content_len := varintLen plen + plen + (cells.map (leafSuffixCellSize plen)).sum
    if LEAF_HDR + content_len + 2 * n > len then none
    else some (layNode (leafHeader LEAF_PREFIX_FLAG n ++ putVarint plen ++ firstKey.take plen)
      (cells.map fun c => encodeLeafCell (c.key.drop plen) c.payload) len)
  else
    let content_len := (cells.map leafCellSize).sum
    if LEAF_HDR + content_len + 2 * n > len then none
    else some (layNode (leafHeader 0 n) (cells.map fun c => encodeLeafCell c.key c.payload) len)

/-! ### Inner nodes -/

def innerNcells (body : Bytes) : ℕ := u16At body 2

def innerRightmost (body : Bytes) : ℕ := leNat (sub body 4 8)

def parseInnerCells (page : ℕ) (body : Bytes) :
    ℕ → ℕ → Option Bytes → Result (List InnerCell)
  | 0, _, _ => .ok []
  | n + 1, pos, last => do
    let (key, pos) ← innerKeyAt page body pos
    require (key ≠ [] ∧ ∀ p ∈ last, p < key) (.corrupt page "separadores desordenados o vacíos")
    let (child, pos) ← getU64 page body pos
    let cells ← parseInnerCells page body n pos (some key)
    .ok (⟨key, child⟩ :: cells)

/-- The cells and the rightmost child. -/
def parseInner (page : ℕ) (body : Bytes) : Result (List InnerCell × ℕ) := do
  require (nodeType body = TYPE_INNER) (.corrupt page "se esperaba un nodo interno")
  let cells ← parseInnerCells page body (innerNcells body) INNER_HDR none
  .ok (cells, innerRightmost body)

def encodeInnerCell (c : InnerCell) : Bytes :=
  putVarint c.key.length ++ c.key ++ leBytes 8 c.child

def innerHeader (n rightmost : ℕ) : Bytes := [TYPE_INNER, 0] ++ leBytes 2 n ++ leBytes 8 rightmost

def encodeInner (cells : List InnerCell) (rightmost len : ℕ) : Option Bytes :=
  let n := cells.length
  if INNER_HDR + (cells.map innerCellSize).sum + 2 * n > len then none
  else some (layNode (innerHeader n rightmost) (cells.map encodeInnerCell) len)

/-- The child at an index of the parsed cells; the one behind the last cell is the rightmost. -/
def childAt (cells : List InnerCell) (rightmost idx : ℕ) : ℕ :=
  (cells[idx]?.map InnerCell.child).getD rightmost

/-- The index of the child under which a key lies. -/
def childIndex (cells : List InnerCell) (key : Bytes) : ℕ :=
  partitionPoint (fun c => decide (c.key ≤ key)) cells

/-! ### Searching in a body -/

/-- The child at an index; the one behind the last cell is the rightmost. -/
def innerChildValueAt (page : ℕ) (body : Bytes) (idx : ℕ) : Result ℕ :=
  if idx < innerNcells body then do
    let off ← cellPtr body idx
    let (_, pos) ← innerKeyAt page body off
    let (child, _) ← getU64 page body pos
    .ok child
  else .ok (innerRightmost body)

/-- Whether the key of an inner cell is not above the target. -/
def innerKeyLe (page : ℕ) (body key : Bytes) (i : ℕ) : Result Bool := do
  let off ← cellPtr body i
  let (ckey, _) ← innerKeyAt page body off
  .ok (decide (ckey ≤ key))

def innerChildIndexed (page : ℕ) (body key : Bytes) : Result (ℕ × ℕ) := do
  require (nodeType body = TYPE_INNER) (.corrupt page "se esperaba un nodo interno")
  let n := innerNcells body
  let idx ← lowerBound (innerKeyLe page body key) n 0 n
  let child ← innerChildValueAt page body idx
  .ok (child, idx)

def innerChild (page : ℕ) (body key : Bytes) : Result ℕ := do
  let (child, _) ← innerChildIndexed page body key
  .ok child

/-- Whether the key of a leaf cell, as stored, is below the target. -/
def leafKeyLt (page : ℕ) (body krest : Bytes) (i : ℕ) : Result Bool := do
  let off ← cellPtr body i
  let (_, suffix, _) ← leafKeyAt page body off
  .ok (decide (suffix < krest))

def leafLowerBound (page : ℕ) (body key : Bytes) : Result ℕ := do
  let n := leafNcells body
  let (pfx, _) ← leafPrefixAndStart page body
  match cmpPrefix pfx key with
  | .below => .ok 0
  | .above => .ok n
  | .within krest =>
    lowerBound (leafKeyLt page body krest) n 0 n

/-- The key and the payload of a leaf's cell. -/
def leafCellAt (page : ℕ) (body : Bytes) (i : ℕ) : Result (Bytes × Payload) := do
  let off ← cellPtr body i
  let (flags, suffix, pos) ← leafKeyAt page body off
  let (pfx, _) ← leafPrefixAndStart page body
  let (payload, _) ← readLeafPayload page body pos flags
  .ok (pfx ++ suffix, payload)

/-- As `leafCellAt`; the key is put together in a buffer of the caller. -/
def leafCellViewInto (page : ℕ) (body : Bytes) (i : ℕ) : Result (Bytes × Payload) :=
  leafCellAt page body i

/-- The key of a leaf's cell, as stored, and its payload. -/
def leafCellView (page : ℕ) (body : Bytes) (i : ℕ) : Result (Bytes × Payload) := do
  let off ← cellPtr body i
  let (flags, key, pos) ← leafKeyAt page body off
  let (payload, _) ← readLeafPayload page body pos flags
  .ok (key, payload)

/-- The key of a leaf cell, as stored, against the target; where its payload begins, and the
flags of the cell. -/
def leafKeyCmp (page : ℕ) (body krest : Bytes) (i : ℕ) : Result (Ordering × ℕ × UInt8) := do
  let off ← cellPtr body i
  let (flags, suffix, pos) ← leafKeyAt page body off
  .ok (cmpBytes suffix krest, (pos, flags))

/-- Where the payload of a key begins, with the flags of its cell. -/
def leafSeek (page : ℕ) (body key : Bytes) : Result (Option (ℕ × UInt8)) := do
  require (nodeType body = TYPE_LEAF) (.corrupt page "se esperaba una hoja")
  let n := leafNcells body
  let (pfx, _) ← leafPrefixAndStart page body
  match cmpPrefix pfx key with
  | .below => .ok none
  | .above => .ok none
  | .within krest =>
    search (leafKeyCmp page body krest) n 0 n

def leafFind (page : ℕ) (body key : Bytes) : Result (Option Payload) := do
  let found ← leafSeek page body key
  match found with
  | some (pos, flags) => do
    let (payload, _) ← readLeafPayload page body pos flags
    .ok (some payload)
  | none => .ok none

def leafContains (page : ℕ) (body key : Bytes) : Result Bool := do
  let found ← leafSeek page body key
  .ok found.isSome

/-! ### Appending to a leaf -/

/-- Skips `n` cells; the last key stored, and the position after the cells. -/
def skipLeafCells (page : ℕ) (body : Bytes) :
    ℕ → ℕ → Option Bytes → Result (Option Bytes × ℕ)
  | 0, pos, last => .ok (last, pos)
  | n + 1, pos, _ => do
    let (flags, suffix, pos) ← leafKeyAt page body pos
    let (_, pos) ← readLeafPayload page body pos flags
    skipLeafCells page body n pos (some suffix)

/-- A cell written at `fin` as the last one. -/
def putLastCell (body : Bytes) (fin : ℕ) (cell : Bytes) : Bytes :=
  let n := leafNcells body
  writeAt (setCellPtr (writeAt body fin cell) n fin) 2 (leBytes 2 (n + 1))

/-- Appends a cell, if its key comes after the last one and it fits: the new body and the
position after the cell. -/
def leafAppend (page : ℕ) (body key : Bytes) (payload : Payload) :
    Result (Option (Bytes × ℕ)) := do
  require (nodeType body = TYPE_LEAF) (.corrupt page "se esperaba una hoja")
  let n := leafNcells body
  let (pfx, start) ← leafPrefixAndStart page body
  if ¬ pfx <+: key then .ok none
  else
    let stored := key.drop pfx.length
    let (last, fin) ← skipLeafCells page body n start none
    if ∃ p ∈ last, stored ≤ p then .ok none
    else
      let cell := encodeLeafCell stored payload
      require (2 * (n + 1) ≤ body.length) (.panic "attempt to subtract with overflow")
      if fin + cell.length > body.length - 2 * (n + 1) then .ok none
      else .ok (some (putLastCell body fin cell, fin + cell.length))

/-- Appends an inline cell at `fin`, known to be the end of the cells, without looking at
them. -/
def appendInlineAt (body : Bytes) (fin : ℕ) (key value : Bytes) : Result (Option (Bytes × ℕ)) := do
  let n := leafNcells body
  let stored ←
    if leafIsCompressed body then
      match leafPrefixAndStart 0 body with
      | .ok (pfx, _) => .ok (if pfx <+: key then some (key.drop pfx.length) else none)
      | .error (.panic m) => .error (.panic m)
      | .error _ => .ok none
    else .ok (some key)
  match stored with
  | none => .ok none
  | some stored =>
    let cell_len := storedCellSize stored.length (.inline value)
    require (2 * (n + 1) ≤ body.length) (.panic "attempt to subtract with overflow")
    if fin + cell_len > body.length - 2 * (n + 1) then .ok none
    else .ok (some (putLastCell body fin (encodeLeafCell stored (.inline value)), fin + cell_len))

/-! ### Overflow pages -/

def encodeOverflow (chunk : Bytes) (next len : ℕ) : Bytes :=
  [TYPE_OVERFLOW, 0] ++ leBytes 2 chunk.length ++ leBytes 8 next ++ chunk
    ++ List.replicate (len - OVERFLOW_HDR - chunk.length) 0

/-- The data of the page, and the next page. -/
def parseOverflow (page : ℕ) (body : Bytes) : Result (Bytes × ℕ) := do
  require (nodeType body = TYPE_OVERFLOW) (.corrupt page "se esperaba una página overflow")
  let data ← okOr (slice? body OVERFLOW_HDR (u16At body 2)) (.corrupt page "overflow truncado")
  .ok (data, leNat (sub body 4 8))

/-! ### Splitting -/

/-- The first index up to which the cells make up half of the total. -/
def splitPointAux {α : Type} (size : α → ℕ) (total n : ℕ) : ℕ → ℕ → List α → ℕ
  | _, _, [] => n - 1
  | i, acc, c :: cs =>
    if (acc + size c) * 2 ≥ total then min (i + 1) (n - 1)
    else splitPointAux size total n (i + 1) (acc + size c) cs

/-- Where the right half of a split begins: both halves are non-empty and of like size. -/
def splitPoint {α : Type} (size : α → ℕ) (cells : List α) : ℕ :=
  splitPointAux size (cells.map size).sum cells.length 0 0 cells

end Node

end Arkeion
