import Arkeion.Node

/-!
What the reading functions find in the bodies that the writing functions lay out.
-/

namespace Arkeion

open Arkeion.Lib

namespace Node

/-! ### Cells and pointers in a body -/

/-- A body with this header and these cells, whatever is in the gap before the pointers. -/
structure NodeLayout (head : Bytes) (cs : List Bytes) (body : Bytes) : Prop where
  length : body.length = BODY_SIZE
  eq : ∃ gap, body = head ++ cs.flatten ++ gap ++ pointerArray (cellOffsets head.length cs)

@[simp] lemma length_cellOffsets (off : ℕ) (cs : List Bytes) :
    (cellOffsets off cs).length = cs.length := by
  induction cs generalizing off with
  | nil => rfl
  | cons c cs ih => simp [cellOffsets, ih]

lemma cellOffsets_getElem? {off i : ℕ} {cs : List Bytes} (h : i < cs.length) :
    (cellOffsets off cs)[i]? = some (off + (cs.take i).flatten.length) := by
  induction cs generalizing off i with
  | nil => simp at h
  | cons c cs ih =>
    cases i with
    | zero => simp [cellOffsets]
    | succ i =>
      rw [cellOffsets, List.getElem?_cons_succ, ih (by simpa using h), List.take_succ_cons,
        List.flatten_cons, List.length_append, Nat.add_assoc]

lemma cellOffsets_snoc (off : ℕ) (cs : List Bytes) (c : Bytes) :
    cellOffsets off (cs ++ [c]) = cellOffsets off cs ++ [off + cs.flatten.length] := by
  induction cs generalizing off with
  | nil => simp [cellOffsets]
  | cons d cs ih => simp [cellOffsets, ih, Nat.add_assoc]

@[simp] lemma length_pointerArray (offs : List ℕ) : (pointerArray offs).length = 2 * offs.length := by
  induction offs with
  | nil => rfl
  | cons o offs ih =>
    simp only [pointerArray, List.reverse_cons, List.map_append, List.flatten_append,
      List.length_append, List.length_cons] at ih ⊢
    rw [ih]
    simp
    omega

lemma pointerArray_cons (o : ℕ) (offs : List ℕ) :
    pointerArray (o :: offs) = pointerArray offs ++ leBytes 2 o := by
  simp [pointerArray]

lemma pointerArray_snoc (offs : List ℕ) (o : ℕ) :
    pointerArray (offs ++ [o]) = leBytes 2 o ++ pointerArray offs := by
  simp [pointerArray]

/-- The pointer number `i`, with what is before and behind it. -/
lemma pointerArray_split {offs : List ℕ} {i o : ℕ} (h : offs[i]? = some o) :
    ∃ x z, pointerArray offs = x ++ leBytes 2 o ++ z ∧ z.length = 2 * i := by
  induction offs generalizing i with
  | nil => simp at h
  | cons p offs ih =>
    cases i with
    | zero =>
      simp only [List.getElem?_cons_zero, Option.some.injEq] at h
      exact ⟨pointerArray offs, [], by rw [pointerArray_cons, h, List.append_nil], rfl⟩
    | succ i =>
      obtain ⟨x, z, hxz, hz⟩ := ih (by simpa using h)
      refine ⟨x, z ++ leBytes 2 p, ?_, by simp [hz]; omega⟩
      rw [pointerArray_cons, hxz]
      simp

namespace NodeLayout

variable {head body : Bytes} {cs : List Bytes}

lemma room (h : NodeLayout head cs body) :
    head.length + cs.flatten.length + 2 * cs.length ≤ BODY_SIZE := by
  obtain ⟨gap, hgap⟩ := h.eq
  have := congrArg List.length hgap
  simp only [List.length_append, length_pointerArray, length_cellOffsets, h.length] at this
  omega

/-- The body around cell `i`. -/
lemma split (h : NodeLayout head cs body) {i : ℕ} {c : Bytes} (hc : cs[i]? = some c) :
    ∃ z, body = head ++ (cs.take i).flatten ++ c ++ z := by
  obtain ⟨gap, hgap⟩ := h.eq
  obtain ⟨hi, rfl⟩ := List.getElem?_eq_some_iff.1 hc
  have hcs : cs = cs.take i ++ cs[i] :: cs.drop (i + 1) := by
    rw [List.getElem_cons_drop, List.take_append_drop]
  refine ⟨(cs.drop (i + 1)).flatten ++ (gap ++ pointerArray (cellOffsets head.length cs)), ?_⟩
  have hflat : cs.flatten = (cs.take i).flatten ++ (cs[i] ++ (cs.drop (i + 1)).flatten) := by
    conv_lhs => rw [hcs]
    rw [List.flatten_append, List.flatten_cons]
  rw [hgap]
  conv_lhs => rw [hflat]
  simp only [List.append_assoc]

lemma cellPtr_eq (h : NodeLayout head cs body) {i : ℕ} (hi : i < cs.length) :
    cellPtr body i = .ok (head.length + (cs.take i).flatten.length) := by
  obtain ⟨gap, hgap⟩ := h.eq
  have hroom := h.room
  have hget := @cellOffsets_getElem? head.length i cs hi
  obtain ⟨x, z, hxz, hz⟩ := pointerArray_split hget
  have hle : (cs.take i).flatten.length ≤ cs.flatten.length := by
    conv_rhs => rw [← List.take_append_drop i cs, List.flatten_append, List.length_append]
    omega
  have hlen := h.length
  have hbody : body = head ++ cs.flatten ++ gap ++ x
      ++ leBytes 2 (head.length + (cs.take i).flatten.length) ++ z := by
    rw [hgap, hxz]
    simp only [List.append_assoc]
  have hpos : body.length - 2 * (i + 1) = (head ++ cs.flatten ++ gap ++ x).length := by
    have := congrArg List.length hbody
    simp only [List.length_append, length_leBytes, hz] at this ⊢
    omega
  have hsub : sub body (body.length - 2 * (i + 1)) 2
      = leBytes 2 (head.length + (cs.take i).flatten.length) := by
    rw [hpos]
    conv_lhs => rw [hbody]
    exact sub_append _ _ _ rfl (by simp)
  rw [cellPtr, require_pos (by omega), ok_bind, u16At, hsub, leNat_leBytes]
  rw [BODY_SIZE_eq] at hroom
  omega

end NodeLayout

lemma u16At_header {t f : UInt8} {n : ℕ} {rest : Bytes} (hn : n < 2 ^ 16) :
    u16At ([t, f] ++ leBytes 2 n ++ rest) 2 = n := by
  have hsub : sub ([t, f] ++ leBytes 2 n ++ rest) 2 2 = leBytes 2 n :=
    sub_append [t, f] _ _ rfl (by simp)
  rw [u16At, hsub, leNat_leBytes 2 hn]

lemma length_layNode {head : Bytes} {cells : List Bytes} {len : ℕ}
    (h : head.length + cells.flatten.length + 2 * cells.length ≤ len) :
    (layNode head cells len).length = len := by
  simp only [layNode, List.length_append, List.length_replicate, length_pointerArray,
    length_cellOffsets]
  omega

lemma layNode_layout {head : Bytes} {cs : List Bytes}
    (h : head.length + cs.flatten.length + 2 * cs.length ≤ BODY_SIZE) :
    NodeLayout head cs (layNode head cs BODY_SIZE) := by
  refine ⟨?_, _, rfl⟩
  simp only [layNode, List.length_append, List.length_replicate, length_pointerArray,
    length_cellOffsets]
  omega

/-- A cell written behind the last one. -/
lemma putLastCell_layout {t f : UInt8} {tail : Bytes} {cs : List Bytes} {body c : Bytes}
    (h : NodeLayout ([t, f] ++ leBytes 2 cs.length ++ tail) cs body) (hn : cs.length < 2 ^ 16)
    (hfit : ([t, f] ++ leBytes 2 cs.length ++ tail).length + cs.flatten.length + c.length
      ≤ BODY_SIZE - 2 * (cs.length + 1)) (hroom : 2 * (cs.length + 1) ≤ BODY_SIZE) :
    NodeLayout ([t, f] ++ leBytes 2 (cs.length + 1) ++ tail) (cs ++ [c])
      (putLastCell body (([t, f] ++ leBytes 2 cs.length ++ tail).length + cs.flatten.length) c) := by
  obtain ⟨gap, hgap⟩ := h.eq
  have hlen := h.length
  set head := [t, f] ++ leBytes 2 cs.length ++ tail with hhead
  have hncells : leafNcells body = cs.length := by
    have hb : body = [t, f] ++ leBytes 2 cs.length
        ++ (tail ++ cs.flatten ++ gap ++ pointerArray (cellOffsets head.length cs)) := by
      rw [hgap, hhead]
      simp only [List.append_assoc]
    rw [leafNcells, hb, u16At_header hn]
  have hgaplen : c.length + 2 ≤ gap.length := by
    have := congrArg List.length hgap
    simp only [List.length_append, length_pointerArray, length_cellOffsets, hlen] at this hfit
    omega
  obtain ⟨g1, g2, g3, hg, hg1, hg3⟩ : ∃ g1 g2 g3, gap = g1 ++ g2 ++ g3 ∧ g1.length = c.length ∧
      g3.length = 2 := by
    refine ⟨gap.take c.length, (gap.drop c.length).take (gap.length - c.length - 2),
      (gap.drop c.length).drop (gap.length - c.length - 2), ?_, ?_, ?_⟩
    · rw [List.append_assoc, List.take_append_drop, List.take_append_drop]
    · rw [List.length_take]; omega
    · rw [List.length_drop, List.length_drop]; omega
  set ptrs := pointerArray (cellOffsets head.length cs) with hptrs
  have hplen : ptrs.length = 2 * cs.length := by
    rw [hptrs, length_pointerArray, length_cellOffsets]
  have hw1 : writeAt body (head.length + cs.flatten.length) c
      = head ++ cs.flatten ++ c ++ (g2 ++ g3 ++ ptrs) := by
    have hb : body = head ++ cs.flatten ++ g1 ++ (g2 ++ g3 ++ ptrs) := by
      rw [hgap, hg]
      simp only [List.append_assoc]
    rw [hb]
    exact writeAt_append _ _ _ _ (by simp) hg1.symm
  have hw2 : setCellPtr (head ++ cs.flatten ++ c ++ (g2 ++ g3 ++ ptrs)) cs.length
        (head.length + cs.flatten.length)
      = head ++ cs.flatten ++ c ++ g2 ++ leBytes 2 (head.length + cs.flatten.length) ++ ptrs := by
    have hb : head ++ cs.flatten ++ c ++ (g2 ++ g3 ++ ptrs)
        = (head ++ cs.flatten ++ c ++ g2) ++ g3 ++ ptrs := by simp only [List.append_assoc]
    rw [setCellPtr, hb]
    refine writeAt_append _ _ _ _ ?_ (by simp [hg3])
    simp only [List.length_append, hg3, hplen]
    omega
  have hw3 : writeAt (head ++ cs.flatten ++ c ++ g2
        ++ leBytes 2 (head.length + cs.flatten.length) ++ ptrs) 2 (leBytes 2 (cs.length + 1))
      = [t, f] ++ leBytes 2 (cs.length + 1) ++ (tail ++ cs.flatten ++ c ++ g2
        ++ leBytes 2 (head.length + cs.flatten.length) ++ ptrs) := by
    have hb : head ++ cs.flatten ++ c ++ g2 ++ leBytes 2 (head.length + cs.flatten.length) ++ ptrs
        = [t, f] ++ leBytes 2 cs.length ++ (tail ++ cs.flatten ++ c ++ g2
          ++ leBytes 2 (head.length + cs.flatten.length) ++ ptrs) := by
      rw [hhead]
      simp only [List.append_assoc]
    rw [hb]
    exact writeAt_append _ _ _ _ rfl (by simp)
  have hnewlen : ([t, f] ++ leBytes 2 (cs.length + 1) ++ tail).length = head.length := by
    simp [hhead]
  have heq : putLastCell body (head.length + cs.flatten.length) c
      = [t, f] ++ leBytes 2 (cs.length + 1) ++ (tail ++ cs.flatten ++ c ++ g2
        ++ leBytes 2 (head.length + cs.flatten.length) ++ ptrs) := by
    rw [putLastCell, hncells, hw1, hw2, hw3]
  refine ⟨?_, g2, ?_⟩
  · rw [heq, ← hlen, hgap, hg, hhead]
    simp only [List.length_append, length_leBytes, hg1, hg3]
    omega
  · rw [heq, hnewlen, cellOffsets_snoc, pointerArray_snoc, hptrs]
    simp only [List.flatten_append, List.flatten_cons, List.flatten_nil, List.append_nil,
      List.append_assoc]

/-! ### Reading a cell -/

section Read
variable (page : ℕ) {x y z : Bytes} {n : ℕ}

lemma getVarint_at {v : ℕ} (hp : n = x.length) (hv : v < 2 ^ 64) :
    getVarint page (x ++ putVarint v ++ z) n = .ok (v, n + (putVarint v).length) := by
  rw [getVarint, takeVarint_put x z hp hv, okOr_some, length_putVarint hv]

lemma getSlice_at {len : ℕ} (hp : n = x.length) (hl : len = y.length)
    (hlt : x.length + y.length < 2 ^ 64) :
    getSlice page (x ++ y ++ z) n len = .ok (y, n + len) := by
  rw [getSlice, require_pos (by omega), ok_bind, slice?_append x y z hp hl, okOr_some, ok_bind]

lemma getU64_at {v : ℕ} (hp : n = x.length) (hv : v < 2 ^ 64) (hlt : x.length + 8 < 2 ^ 64) :
    getU64 page (x ++ leBytes 8 v ++ z) n = .ok (v, n + 8) := by
  have hv' : v < 256 ^ 8 := hv
  rw [getU64, getSlice_at page hp (by simp) (by simpa using hlt), ok_bind]
  simp only [leNat_leBytes 8 hv']

end Read

/-- The sizes of a payload are those of the machine. -/
def PayloadSized : Payload → Prop
  | .inline v => v.length < 2 ^ 64
  | .overflow total_len first => total_len < 2 ^ 64 ∧ first < 2 ^ 64

/-- The bytes of a payload in its cell. -/
def encodePayload : Payload → Bytes
  | .inline v => putVarint v.length ++ v
  | .overflow total_len first => putVarint total_len ++ leBytes 8 first

def payloadFlags : Payload → UInt8
  | .inline _ => 0
  | .overflow _ _ => CELL_OVERFLOW_FLAG

lemma encodeLeafCell_eq (key : Bytes) (p : Payload) : encodeLeafCell key p
    = [payloadFlags p] ++ putVarint key.length ++ key ++ encodePayload p := by
  cases p <;> simp [encodeLeafCell, payloadFlags, encodePayload]

lemma length_encodePayload {p : Payload} (h : PayloadSized p) :
    (encodePayload p).length = payloadSize p := by
  cases p with
  | inline v => rw [encodePayload, List.length_append, length_putVarint h, payloadSize]
  | overflow t f =>
    rw [encodePayload, List.length_append, length_putVarint h.1, length_leBytes, payloadSize]

lemma length_encodeLeafCell {key : Bytes} {p : Payload} (hk : key.length < 2 ^ 64)
    (h : PayloadSized p) : (encodeLeafCell key p).length = storedCellSize key.length p := by
  rw [encodeLeafCell_eq]
  simp only [List.length_append, List.length_singleton, length_putVarint hk,
    length_encodePayload h, storedCellSize]

section Read
variable (page : ℕ) {x z : Bytes} {n : ℕ}

lemma readLeafPayload_at {p : Payload} (hp : n = x.length) (h : PayloadSized p)
    (hlt : (x ++ encodePayload p ++ z).length < 2 ^ 64) :
    readLeafPayload page (x ++ encodePayload p ++ z) n (payloadFlags p)
      = .ok (p, n + (encodePayload p).length) := by
  cases p with
  | inline v =>
    have hflag : (payloadFlags (.inline v) &&& CELL_OVERFLOW_FLAG != 0) = false := by
      change (0 &&& CELL_OVERFLOW_FLAG != 0) = false
      decide
    have hv : getVarint page (x ++ encodePayload (.inline v) ++ z) n
        = .ok (v.length, n + (putVarint v.length).length) := by
      have := getVarint_at page (z := v ++ z) hp (v := v.length) h
      simpa only [encodePayload, List.append_assoc] using this
    have hs : getSlice page (x ++ encodePayload (.inline v) ++ z)
          (n + (putVarint v.length).length) v.length
        = .ok (v, n + (putVarint v.length).length + v.length) := by
      have := getSlice_at page (x := x ++ putVarint v.length) (y := v) (z := z)
        (n := n + (putVarint v.length).length) (by simp [hp]) rfl (by
          simp only [encodePayload, List.length_append] at hlt ⊢
          omega)
      simpa only [encodePayload, List.append_assoc] using this
    rw [readLeafPayload, hflag]
    simp only [Bool.false_eq_true, if_false, hv, ok_bind, hs]
    simp [encodePayload, Nat.add_assoc]
  | overflow t f =>
    have hflag : (payloadFlags (.overflow t f) &&& CELL_OVERFLOW_FLAG != 0) = true := by
      change (CELL_OVERFLOW_FLAG &&& CELL_OVERFLOW_FLAG != 0) = true
      decide
    have hv : getVarint page (x ++ encodePayload (.overflow t f) ++ z) n
        = .ok (t, n + (putVarint t).length) := by
      have := getVarint_at page (z := leBytes 8 f ++ z) hp h.1
      simpa only [encodePayload, List.append_assoc] using this
    have hs : getU64 page (x ++ encodePayload (.overflow t f) ++ z) (n + (putVarint t).length)
        = .ok (f, n + (putVarint t).length + 8) := by
      have := getU64_at page (x := x ++ putVarint t) (z := z)
        (n := n + (putVarint t).length) (by simp [hp]) h.2 (by
          simp only [encodePayload, List.length_append, length_leBytes] at hlt ⊢
          omega)
      simpa only [encodePayload, List.append_assoc] using this
    rw [readLeafPayload, hflag]
    simp only [if_true, hv, ok_bind, hs]
    simp [encodePayload, Nat.add_assoc]

lemma leafKeyAt_at {key : Bytes} {p : Payload} (hp : n = x.length) (hk : key.length < 2 ^ 64)
    (hlt : (x ++ encodeLeafCell key p ++ z).length < 2 ^ 64) :
    leafKeyAt page (x ++ encodeLeafCell key p ++ z) n
      = .ok (payloadFlags p, key, n + 1 + (putVarint key.length).length + key.length) := by
  have hget : (x ++ encodeLeafCell key p ++ z)[n]? = some (payloadFlags p) := by
    rw [hp, encodeLeafCell_eq]
    simp
  have hv : getVarint page (x ++ encodeLeafCell key p ++ z) (n + 1)
      = .ok (key.length, n + 1 + (putVarint key.length).length) := by
    have := getVarint_at page (x := x ++ [payloadFlags p])
      (z := key ++ (encodePayload p ++ z)) (n := n + 1) (by simp [hp]) hk
    simpa only [encodeLeafCell_eq, List.append_assoc] using this
  have hs : getSlice page (x ++ encodeLeafCell key p ++ z)
        (n + 1 + (putVarint key.length).length) key.length
      = .ok (key, n + 1 + (putVarint key.length).length + key.length) := by
    have := getSlice_at page (x := x ++ [payloadFlags p] ++ putVarint key.length)
      (y := key) (z := encodePayload p ++ z) (n := n + 1 + (putVarint key.length).length)
      (by simp [hp]; omega) rfl (by
        simp only [encodeLeafCell_eq, List.length_append, List.length_singleton] at hlt ⊢
        omega)
    simpa only [encodeLeafCell_eq, List.append_assoc] using this
  simp only [leafKeyAt, hget, okOr_some, ok_bind, hv, hs]

/-- The payload behind the key of a cell. -/
lemma readLeafPayload_cell {key : Bytes} {p : Payload} (hp : n = x.length)
    (h : PayloadSized p) (hlt : (x ++ encodeLeafCell key p ++ z).length < 2 ^ 64) :
    readLeafPayload page (x ++ encodeLeafCell key p ++ z)
        (n + 1 + (putVarint key.length).length + key.length) (payloadFlags p)
      = .ok (p, n + (encodeLeafCell key p).length) := by
  have := readLeafPayload_at page
    (x := x ++ [payloadFlags p] ++ putVarint key.length ++ key) (z := z) (p := p)
    (n := n + 1 + (putVarint key.length).length + key.length) (by simp [hp]; omega) h (by
      simpa only [encodeLeafCell_eq, List.append_assoc] using hlt)
  simp only [encodeLeafCell_eq, List.append_assoc, List.length_append, List.length_singleton]
    at this ⊢
  rw [this]
  congr 2
  omega

lemma innerKeyAt_at {c : InnerCell} (hp : n = x.length) (hk : c.key.length < 2 ^ 64)
    (hlt : (x ++ encodeInnerCell c ++ z).length < 2 ^ 64) :
    innerKeyAt page (x ++ encodeInnerCell c ++ z) n
      = .ok (c.key, n + (putVarint c.key.length).length + c.key.length) := by
  have hv : getVarint page (x ++ encodeInnerCell c ++ z) n
      = .ok (c.key.length, n + (putVarint c.key.length).length) := by
    have := getVarint_at page (z := c.key ++ (leBytes 8 c.child ++ z)) hp hk
    simpa only [encodeInnerCell, List.append_assoc] using this
  have hs : getSlice page (x ++ encodeInnerCell c ++ z) (n + (putVarint c.key.length).length)
        c.key.length
      = .ok (c.key, n + (putVarint c.key.length).length + c.key.length) := by
    have := getSlice_at page (x := x ++ putVarint c.key.length) (y := c.key)
      (z := leBytes 8 c.child ++ z) (n := n + (putVarint c.key.length).length)
      (by simp [hp]) rfl (by
        simp only [encodeInnerCell, List.length_append] at hlt ⊢
        omega)
    simpa only [encodeInnerCell, List.append_assoc] using this
  simp only [innerKeyAt, hv, ok_bind, hs]

lemma getU64_innerCell {c : InnerCell} (hp : n = x.length) (hc : c.child < 2 ^ 64)
    (hlt : (x ++ encodeInnerCell c ++ z).length < 2 ^ 64) :
    getU64 page (x ++ encodeInnerCell c ++ z)
        (n + (putVarint c.key.length).length + c.key.length)
      = .ok (c.child, n + (encodeInnerCell c).length) := by
  have := getU64_at page (x := x ++ putVarint c.key.length ++ c.key) (z := z)
    (n := n + (putVarint c.key.length).length + c.key.length) (by simp [hp]; omega) hc (by
      simp only [encodeInnerCell, List.length_append, length_leBytes] at hlt ⊢
      omega)
  simp only [encodeInnerCell, List.append_assoc, List.length_append, length_leBytes] at this ⊢
  rw [this]
  congr 2
  omega

end Read

end Node

end Arkeion
