import Arkeion.BtreeMap
import Arkeion.Lib.KeyCode

/-!
The walk over the keys with a prefix, down to the first leaf that can have one and on to the next
leaf as long as the block may go on there.
-/

namespace Arkeion

open Arkeion.Lib

/-! ### The cells of a leaf -/

namespace Node

section Leaf
variable {α : Type} (page : ℕ) (body : Bytes) (f : Bytes → α → Result α) (lpfx : Bytes)

/-- The key of a cell as it is stored. -/
def suffixAt (i : ℕ) : Result Bytes := do
  let off ← cellPtr body i
  let (_, suffix, _) ← leafKeyAt page body off
  .ok suffix

/-- `f` is called with all keys from the index on. -/
def emitAll : ℕ → ℕ → α → Result α
  | 0, _, acc => .ok acc
  | m + 1, i, acc => do
    let suffix ← suffixAt page body i
    let acc ← f (lpfx ++ suffix) acc
    emitAll m (i + 1) acc

/-- `f` is called with the keys from the index on that begin so; whether these are all. -/
def emitWhile (srest : Bytes) : ℕ → ℕ → α → Result (Bool × α)
  | 0, _, acc => .ok (true, acc)
  | m + 1, i, acc => do
    let suffix ← suffixAt page body i
    if ¬ srest <+: suffix then .ok (false, acc)
    else do
      let acc ← f (lpfx ++ suffix) acc
      emitWhile srest m (i + 1) acc

/-- Whether the block may go on in the next leaf, and what `f` made of the keys. -/
def leafForEachPrefix (pfx : Bytes) (acc : α) : Result (Bool × α) := do
  require (nodeType body = TYPE_LEAF) (.corrupt page "se esperaba una hoja")
  let ncells := leafNcells body
  let (lpfx, _) ← leafPrefixAndStart page body
  if pfx.length ≤ lpfx.length then
    if pfx <+: lpfx then do
      let acc ← emitAll page body f lpfx ncells 0 acc
      .ok (true, acc)
    else .ok (decide (lpfx < pfx), acc)
  else if ¬ lpfx <+: pfx then .ok (decide (lpfx < pfx), acc)
  else do
    let srest := pfx.drop lpfx.length
    let lo ← lowerBound (leafKeyLt page body srest) ncells 0 ncells
    emitWhile page body f lpfx srest (ncells - lo) lo acc

end Leaf

end Node

/-! ### From leaf to leaf -/

namespace Btree

open NodeSource NodeStore Node

section Walk
variable {σ α : Type} [NodeSource σ] (s : σ) (n : ℕ) (pfx : Bytes) (f : Bytes → α → Result α)

/-- The first leaf that can have the prefix, under the inner nodes with their next children. -/
def candidateLeaf : ℕ → List (ℕ × ℕ) → ℕ → Result (List (ℕ × ℕ) × ℕ)
  | 0, _, _ => .error .outOfFuel
  | k + 1, stack, id => do
    let b ← body s id
    if nodeType b = TYPE_INNER then do
      let (child, idx) ← innerChildIndexed id b pfx
      candidateLeaf k ((id, idx + 1) :: stack) child
    else if nodeType b = TYPE_LEAF then .ok (stack, id)
    else .error (.corrupt id "tipo de nodo inesperado")

def leftmostLeaf : ℕ → List (ℕ × ℕ) → ℕ → Result (List (ℕ × ℕ) × ℕ)
  | 0, _, _ => .error .outOfFuel
  | k + 1, stack, cur => do
    let b ← body s cur
    if nodeType b = TYPE_INNER then do
      let first ← innerChildValueAt cur b 0
      leftmostLeaf k ((cur, 1) :: stack) first
    else if nodeType b = TYPE_LEAF then .ok (stack, cur)
    else .error (.corrupt cur "tipo de nodo inesperado")

/-- The leaf after the ones under the stack. -/
def siblingLeaf : List (ℕ × ℕ) → Result (Option (List (ℕ × ℕ) × ℕ))
  | [] => .ok none
  | (iid, idx) :: above => do
    let b ← body s iid
    if idx ≤ innerNcells b then do
      let child ← innerChildValueAt iid b idx
      let next ← leftmostLeaf s n ((iid, idx + 1) :: above) child
      .ok (some next)
    else siblingLeaf above

/-- The leaf and those behind it; the fuel bounds the leaves. -/
def walkLeaves : ℕ → List (ℕ × ℕ) → ℕ → α → Result α
  | 0, _, _, _ => .error .outOfFuel
  | k + 1, stack, id, acc => do
    let b ← body s id
    let (extends_, acc) ← leafForEachPrefix id b f pfx acc
    if extends_ = false then .ok acc
    else do
      let next ← siblingLeaf s n stack
      match next with
      | none => .ok acc
      | some (stack, id) => walkLeaves k stack id acc

/-- `f` is called with the keys and what it made of those before. -/
def forEachPrefix (root : ℕ) (acc : α) : Result α :=
  if root = NO_ROOT then .ok acc
  else do
    let (stack, id) ← candidateLeaf s pfx n [] root
    walkLeaves s n pfx f n stack id acc

end Walk

end Btree

/-! ### The calls that are expected -/

section Calls
variable {α : Type} {f : Bytes → α → Result α} {p a b : Bytes}

/-- The keys that begin so. -/
def startingWith (p : Bytes) (keys : List Bytes) : List Bytes := keys.filter fun k => decide (p <+: k)

/-- The calls one after the other, up to the first error. -/
def callAll (f : Bytes → α → Result α) : List Bytes → α → Result α
  | [], acc => .ok acc
  | k :: ks, acc => do
    let acc ← f k acc
    callAll f ks acc

lemma callAll_append (ks ls : List Bytes) (acc : α) :
    callAll f (ks ++ ls) acc = callAll f ks acc >>= callAll f ls := by
  induction ks generalizing acc with
  | nil => rfl
  | cons k ks ih =>
    rw [List.cons_append, callAll, callAll]
    cases f k acc with
    | error e => rfl
    | ok acc => exact ih acc

lemma startingWith_append (p : Bytes) (ks ls : List Bytes) :
    startingWith p (ks ++ ls) = startingWith p ks ++ startingWith p ls := List.filter_append ..

lemma startingWith_cons {k : Bytes} (h : p <+: k) (ks : List Bytes) :
    startingWith p (k :: ks) = k :: startingWith p ks := List.filter_cons_of_pos (by simpa using h)

lemma startingWith_eq_nil {ks : List Bytes} (h : ∀ k ∈ ks, ¬ p <+: k) : startingWith p ks = [] :=
  List.filter_eq_nil_iff.2 fun k hk => by simpa using h k hk

lemma startingWith_eq_self {ks : List Bytes} (h : ∀ k ∈ ks, p <+: k) : startingWith p ks = ks :=
  List.filter_eq_self.2 fun k hk => decide_eq_true (h k hk)

/-- Behind a key that is past the block there is nothing of it. -/
lemma not_begins_of_lt (hpa : p ≤ a) (ha : ¬ p <+: a) (hab : a < b) : ¬ p <+: b := fun hb =>
  ha (prefix_of_le_of_le (List.prefix_refl p) hb hpa hab.le)

lemma le_of_begins (h : p <+: a) : p ≤ a := by
  obtain ⟨x, rfl⟩ := h
  refine not_lt.1 fun hlt => ?_
  rw [← List.append_nil p, List.append_assoc, append_lt_append_iff] at hlt
  cases hlt

end Calls

/-! ### One leaf -/

namespace Node.LeafBody

section Leaf
variable {α : Type} {f : Bytes → α → Result α} {z : Bool} {lp : Bytes} {cells : List LeafCell}
  {body p : Bytes}

lemma suffixAt_eq (h : LeafBody z lp cells body) (page : ℕ) {i : ℕ} {c : LeafCell}
    (hc : cells[i]? = some c) : suffixAt page body i = .ok (c.key.drop lp.length) := by
  obtain ⟨pos, hkey, -⟩ := h.leafKeyAt_eq page hc
  have hi := (List.getElem?_eq_some_iff.1 hc).1
  simp only [suffixAt, h.cellPtr_eq hi, ok_bind, hkey]

lemma emitAll_eq (h : LeafBody z lp cells body) (page : ℕ) {m i : ℕ} (him : i + m = cells.length)
    (acc : α) : emitAll page body f lp m i acc
      = callAll f ((cells.drop i).map LeafCell.key) acc := by
  induction m generalizing i acc with
  | zero =>
    rw [List.drop_eq_nil_of_le (by omega)]
    rfl
  | succ m ih =>
    have hi : i < cells.length := by omega
    rw [List.drop_eq_getElem_cons hi, List.map_cons, callAll, emitAll,
      h.suffixAt_eq page (List.getElem?_eq_getElem hi), ok_bind, h.key_eq (List.getElem_mem hi)]
    cases f (cells[i]).key acc with
    | error e => rfl
    | ok acc => exact ih (by omega) acc

lemma lt_of_drop (h : LeafBody z lp cells body) {i : ℕ} {c : LeafCell} {rest : List LeafCell}
    (hdrop : cells.drop i = c :: rest) : ∀ d ∈ rest, c.key < d.key := by
  have hs := h.sorted
  rw [← List.take_append_drop i cells, hdrop, List.map_append, List.pairwise_append, List.map_cons,
    List.pairwise_cons] at hs
  exact fun d hd => hs.2.1.1 _ (List.mem_map_of_mem hd)

/-- From keys that are not below the prefix on, the walk gives those that begin so. -/
lemma emitWhile_eq (h : LeafBody z lp cells body) (page : ℕ) (hp : lp <+: p) {m i : ℕ}
    (him : i + m = cells.length) (hge : ∀ c ∈ cells.drop i, p ≤ c.key) (acc : α) :
    emitWhile page body f lp (p.drop lp.length) m i acc
      = callAll f (startingWith p ((cells.drop i).map LeafCell.key)) acc >>= fun acc =>
        .ok ((cells.drop i).all fun c => decide (p <+: c.key), acc) := by
  induction m generalizing i acc with
  | zero =>
    have hnil : cells.drop i = [] := List.drop_eq_nil_of_le (by omega)
    rw [hnil]
    rfl
  | succ m ih =>
    have hi : i < cells.length := by omega
    have hdrop := List.drop_eq_getElem_cons hi
    have hmem : cells[i] ∈ cells := List.getElem_mem hi
    have hkey := h.key_eq hmem
    have hiff : p.drop lp.length <+: (cells[i]).key.drop lp.length ↔ p <+: (cells[i]).key := by
      obtain ⟨srest, rfl⟩ := hp
      rw [List.drop_left]
      conv_rhs => rw [← hkey]
      rw [List.prefix_append_right_inj]
    rw [emitWhile, h.suffixAt_eq page (List.getElem?_eq_getElem hi), ok_bind, hdrop, hkey]
    by_cases hb : p <+: (cells[i]).key
    · rw [if_neg (not_not.2 (hiff.2 hb)), List.map_cons, startingWith_cons hb, callAll,
        List.all_cons, decide_eq_true hb, Bool.true_and]
      cases f (cells[i]).key acc with
      | error e => rfl
      | ok acc => exact ih (by omega) (fun c hc => hge c (by rw [hdrop]; exact List.mem_cons_of_mem _ hc)) acc
    · have hle : p ≤ (cells[i]).key := hge _ (by rw [hdrop]; exact List.mem_cons_self)
      have hnone : startingWith p ((cells[i] :: cells.drop (i + 1)).map LeafCell.key) = [] := by
        refine startingWith_eq_nil fun k hk => ?_
        rw [List.map_cons, List.mem_cons] at hk
        rcases hk with rfl | hk
        · exact hb
        · obtain ⟨d, hd, rfl⟩ := List.mem_map.1 hk
          exact not_begins_of_lt hle hb (h.lt_of_drop hdrop d hd)
      rw [if_pos (mt hiff.1 hb), hnone, List.all_cons, decide_eq_false hb, Bool.false_and]
      rfl

/-- A leaf gives its keys with the prefix. It says that the block is over only when a key is past
it. -/
lemma leafForEachPrefix_eq (h : LeafBody z lp cells body) (hne : cells ≠ []) (page : ℕ)
    (p : Bytes) : ∃ more : Bool, (∀ acc : α, leafForEachPrefix page body f p acc
        = callAll f (startingWith p (cells.map LeafCell.key)) acc >>= fun acc => .ok (more, acc)) ∧
      (more = false → ∃ c ∈ cells, p ≤ c.key ∧ ¬ p <+: c.key) := by
  have hkeys : ∀ k ∈ cells.map LeafCell.key, ∃ x, k = lp ++ x := by
    intro k hk
    obtain ⟨c, hc, rfl⟩ := List.mem_map.1 hk
    exact ⟨_, (h.key_eq hc).symm⟩
  obtain ⟨d, hd⟩ := List.exists_mem_of_ne_nil cells hne
  -- the leaf is all before the block or all behind it
  have hapart (hpl : ¬ p <+: lp) (hlp : ¬ lp <+: p) :
      startingWith p (cells.map LeafCell.key) = [] ∧
      (decide (lp < p) = false → ∃ c ∈ cells, p ≤ c.key ∧ ¬ p <+: c.key) := by
    refine ⟨startingWith_eq_nil fun k hk => ?_, fun hlt => ⟨d, hd, ?_⟩⟩
    · obtain ⟨x, rfl⟩ := hkeys k hk
      rcases lt_trichotomy lp p with hlt | rfl | hgt
      · simpa using ((Below.of_not_begins hlt hlp).append x []).not_begun
      · exact absurd (List.prefix_refl lp) hpl
      · simpa using ((Below.of_not_begins hgt hpl).append [] x).not_begins
    · obtain ⟨x, hx⟩ := hkeys d.key (List.mem_map_of_mem hd)
      have hgt : p < lp := by
        rcases lt_trichotomy lp p with hlt' | rfl | hgt
        · exact absurd hlt' (of_decide_eq_false hlt)
        · exact absurd (List.prefix_refl lp) hpl
        · exact hgt
      have hbelow := (Below.of_not_begins hgt hpl).append [] x
      rw [List.append_nil, ← hx] at hbelow
      exact ⟨hbelow.lt.le, hbelow.not_begins⟩
  simp only [leafForEachPrefix, require_pos h.nodeType_eq, ok_bind, h.leafPrefixAndStart_eq,
    h.leafNcells_eq]
  by_cases hlen : p.length ≤ lp.length
  · simp only [if_pos hlen]
    by_cases hpl : p <+: lp
    · have hall : startingWith p (cells.map LeafCell.key) = cells.map LeafCell.key :=
        startingWith_eq_self fun k hk => by
          obtain ⟨x, rfl⟩ := hkeys k hk
          exact hpl.trans (List.prefix_append lp x)
      refine ⟨true, fun acc => ?_, fun hf => by cases hf⟩
      rw [if_pos hpl, h.emitAll_eq page (Nat.zero_add _), List.drop_zero, hall]
    · have hlp : ¬ lp <+: p := fun hlp =>
        hpl (hlp.eq_of_length (le_antisymm hlp.length_le hlen) ▸ List.prefix_refl p)
      obtain ⟨hnone, hpast⟩ := hapart hpl hlp
      refine ⟨decide (lp < p), fun acc => ?_, hpast⟩
      rw [if_neg hpl, hnone]
      rfl
  · have hpl : ¬ p <+: lp := fun hpl => hlen hpl.length_le
    simp only [if_neg hlen]
    by_cases hlp : lp <+: p
    · simp only [if_neg (not_not.2 hlp),
        h.lowerBound_stored page (List.prefix_iff_eq_append.1 hlp).symm, ok_bind]
      obtain ⟨pre, post, rfl, hpre, hpost, hpt⟩ :=
        exists_partition (fun c : LeafCell => decide (c.key < p)) cells
      have hdrop : (pre ++ post).drop pre.length = post := List.drop_left
      have hge : ∀ c ∈ post, p ≤ c.key := by
        cases post with
        | nil => simp
        | cons e post =>
          have he : p ≤ e.key := by simpa using hpost e rfl
          intro c hc
          rcases List.mem_cons.1 hc with rfl | hc
          · exact he
          · exact he.trans (h.lt_of_drop hdrop c hc).le
      have hbefore : startingWith p (pre.map LeafCell.key) = [] := by
        refine startingWith_eq_nil fun k hk hb => ?_
        obtain ⟨c, hc, rfl⟩ := List.mem_map.1 hk
        exact not_lt.2 (le_of_begins hb) (of_decide_eq_true (hpre c hc))
      refine ⟨post.all fun c => decide (p <+: c.key), fun acc => ?_, fun hf => ?_⟩
      · rw [hpt, h.emitWhile_eq page hlp (by simp) (by rwa [hdrop]), hdrop, List.map_append,
          startingWith_append, hbefore, List.nil_append]
      · obtain ⟨c, hc, hnot⟩ := List.all_eq_false.1 hf
        exact ⟨c, List.mem_append_right _ hc, hge c hc, by simpa using hnot⟩
    · obtain ⟨hnone, hpast⟩ := hapart hpl hlp
      refine ⟨decide (lp < p), fun acc => ?_, hpast⟩
      rw [if_pos hlp, hnone]
      rfl

end Leaf

end Node.LeafBody

/-! ### What is left behind a leaf -/

namespace Btree

open NodeSource NodeStore Node

section Tree
variable {σ α : Type} [NodeStore σ] {s : σ} {m n k : ℕ} {lo hi : Option Bytes} {kvs : Entries}
  {F : List ℕ} {f : Bytes → α → Result α}

/-- The walk is at a leaf; the entries are those of the leaf and of all leaves behind it, in a tree
of height `n`. -/
def FromLeaf (s : σ) (m n : ℕ) (at_ : List (ℕ × ℕ) × ℕ) (kvs : Entries) : Prop :=
  ∃ b cells h k₁ k₂ G, body s at_.2 = .ok b ∧ IsLeaf cells b ∧ cells ≠ [] ∧
    Cat (CellHolds s m) cells k₁ G ∧ StackRest s m h at_.1 k₂ ∧ kvs = k₁ ++ k₂ ∧
    h + at_.1.length = n

lemma leftmostLeaf_from {h id : ℕ} {stack : List (ℕ × ℕ)} {rest : Entries}
    (ht : Holds s m h (lo, hi, id) kvs F) (hst : StackRest s m h stack rest) (hk : h ≤ k) :
    ∃ at_, leftmostLeaf s k stack id = .ok at_ ∧ FromLeaf s m (h + stack.length) at_ (kvs ++ rest) := by
  induction h generalizing k lo hi id kvs F stack rest with
  | zero => exact absurd ht (fun h => h)
  | succ h ih =>
    obtain ⟨k, rfl⟩ : ∃ k', k = k' + 1 := ⟨k - 1, by omega⟩
    rw [leftmostLeaf]
    obtain ⟨-, -, b, F', hb, rfl, ⟨cells, hl⟩ | ⟨cells, r, hi'⟩⟩ := ht
    · obtain ⟨z, pfx, hshape⟩ := hl.leaf
      have hneq : ¬ TYPE_LEAF = TYPE_INNER := by decide
      simp only [hb, ok_bind, hshape.nodeType_eq, if_neg hneq, if_true]
      exact ⟨_, rfl, b, cells, h + 1, kvs, rest, F', hb, hl.leaf, hl.ne_nil, hl.cells, hst, rfl, rfl⟩
    · simp only [hb, ok_bind, hi'.inner.nodeType_eq, if_true, hi'.inner.innerChildValueAt_eq]
      obtain ⟨l, u, hdrop⟩ := childRanges_drop lo hi (r := r) (Nat.zero_le cells.length)
      rw [List.drop_zero] at hdrop
      obtain ⟨kc, k₂, Fc, F₂, rfl, rfl, hchild, h₂⟩ := hdrop ▸ hi'.kids
      have hst' : StackRest s m h ((id, 1) :: stack) (k₂ ++ rest) :=
        ⟨b, cells, r, lo, hi, k₂, rest, F₂, hb, hi'.inner, rfl, h₂, hst⟩
      obtain ⟨at_, hat, hfrom⟩ := ih hchild hst' (show h ≤ k by omega)
      rw [← List.append_assoc, List.length_cons, ← Nat.add_assoc, Nat.add_right_comm] at hfrom
      exact ⟨at_, hat, hfrom⟩

lemma siblingLeaf_from {h : ℕ} {stack : List (ℕ × ℕ)} (hst : StackRest s m h stack kvs)
    (hk : h + stack.length ≤ k) : (kvs = [] ∧ siblingLeaf s k stack = .ok none) ∨
      ∃ at_, siblingLeaf s k stack = .ok (some at_) ∧ FromLeaf s m (h + stack.length) at_ kvs := by
  induction stack generalizing h kvs with
  | nil => exact Or.inl ⟨hst, rfl⟩
  | cons x above ih =>
    obtain ⟨id, idx⟩ := x
    obtain ⟨b, cells, r, lo, hi, k₁, k₂, G, hb, hinner, rfl, hkids, habove⟩ := hst
    simp only [siblingLeaf, hb, ok_bind, hinner.innerNcells_eq, hinner.innerChildValueAt_eq]
    rw [List.length_cons] at hk ⊢
    by_cases hidx : idx ≤ cells.length
    · obtain ⟨l, u, hdrop⟩ := childRanges_drop lo hi (r := r) hidx
      rw [hdrop] at hkids
      obtain ⟨kc, k₃, Gc, G₃, rfl, rfl, hchild, h₃⟩ := hkids
      have hst' : StackRest s m h ((id, idx + 1) :: above) (k₃ ++ k₂) :=
        ⟨b, cells, r, lo, hi, k₃, k₂, G₃, hb, hinner, rfl, h₃, habove⟩
      obtain ⟨at_, hat, hfrom⟩ := leftmostLeaf_from hchild hst' (show h ≤ k by omega)
      rw [← List.append_assoc] at hfrom
      refine Or.inr ⟨at_, ?_, hfrom⟩
      rw [if_pos hidx, hat, ok_bind]
    · rw [List.drop_eq_nil_of_le (by rw [childRanges_length]; omega)] at hkids
      obtain ⟨rfl, -⟩ := hkids
      rw [if_neg hidx, List.nil_append, show h + (above.length + 1) = h + 1 + above.length by omega]
      exact ih habove (by omega)

/-- The walk from a leaf on gives the keys with the prefix, of all that is left. -/
lemma walkLeaves_eq {fuel : ℕ} {at_ : List (ℕ × ℕ) × ℕ} (h : FromLeaf s m n at_ kvs)
    (hs : SortedMap kvs) (hn : n ≤ k) (hfuel : kvs.length ≤ fuel) (p : Bytes) (acc : α) :
    walkLeaves s k p f fuel at_.1 at_.2 acc = callAll f (startingWith p (kvs.map Prod.fst)) acc := by
  induction fuel generalizing at_ kvs acc with
  | zero =>
    obtain ⟨b, cells, h, k₁, k₂, G, -, -, hne, hcells, -, rfl, -⟩ := h
    have hkeys := congrArg List.length (cat_cells_keys hcells)
    have hpos := List.length_pos_iff.2 hne
    simp only [List.length_map] at hkeys
    rw [List.length_append] at hfuel
    omega
  | succ fuel ih =>
    obtain ⟨b, cells, h, k₁, k₂, G, hb, ⟨z, pfx, hshape⟩, hne, hcells, hstack, rfl, hlen⟩ := h
    have hkeys := cat_cells_keys hcells
    obtain ⟨more, hleaf, hpast⟩ := hshape.leafForEachPrefix_eq hne at_.2 p
    rw [walkLeaves, hb, ok_bind, hleaf, List.map_append, startingWith_append, hkeys, callAll_append]
    cases callAll f (startingWith p (cells.map LeafCell.key)) acc with
    | error e => rfl
    | ok acc =>
      simp only [ok_bind]
      cases more with
      | false =>
        obtain ⟨c, hc, hpc, hnot⟩ := hpast rfl
        have hnone : startingWith p (k₂.map Prod.fst) = [] := by
          refine startingWith_eq_nil fun key hkey => ?_
          obtain ⟨q, hq, rfl⟩ := List.mem_map.1 hkey
          have hmem : c.key ∈ k₁.map Prod.fst := hkeys ▸ List.mem_map_of_mem hc
          obtain ⟨q', hq', hqc⟩ := List.mem_map.1 hmem
          have hlt := (List.pairwise_append.1 hs).2.2 q' hq' q hq
          exact not_begins_of_lt hpc hnot (hqc ▸ hlt)
        rw [if_pos rfl, hnone, callAll]
      | true =>
        rw [if_neg (by decide)]
        rcases siblingLeaf_from hstack (show h + at_.1.length ≤ k by omega) with
          ⟨rfl, hend⟩ | ⟨at', hat', hfrom⟩
        · rw [hend, ok_bind]
          rfl
        · rw [hat', ok_bind]
          have hlength := congrArg List.length hkeys
          have hpos := List.length_pos_iff.2 hne
          simp only [List.length_map] at hlength
          rw [List.length_append] at hfuel
          exact ih (hlen ▸ hfrom) (List.pairwise_append.1 hs).2.1 (by omega) acc

/-- The way down ends at a leaf; what is before it is below the prefix. -/
lemma candidateLeaf_from {h id : ℕ} {stack : List (ℕ × ℕ)} {rest : Entries}
    (ht : Holds s m h (lo, hi, id) kvs F) (hst : StackRest s m h stack rest) (hk : h ≤ k)
    (p : Bytes) : ∃ at_ k₀ k₁, candidateLeaf s p k stack id = .ok at_ ∧ kvs = k₀ ++ k₁ ∧
      (∀ q ∈ k₀, q.1 < p) ∧ FromLeaf s m (h + stack.length) at_ (k₁ ++ rest) := by
  induction h generalizing k lo hi id kvs F stack rest with
  | zero => exact absurd ht (fun h => h)
  | succ h ih =>
    obtain ⟨k, rfl⟩ : ∃ k', k = k' + 1 := ⟨k - 1, by omega⟩
    rw [candidateLeaf]
    obtain ⟨-, -, b, F', hb, rfl, ⟨cells, hl⟩ | ⟨cells, r, hi'⟩⟩ := ht
    · obtain ⟨z, pfx, hshape⟩ := hl.leaf
      have hneq : ¬ TYPE_LEAF = TYPE_INNER := by decide
      simp only [hb, ok_bind, hshape.nodeType_eq, if_neg hneq, if_true]
      exact ⟨_, [], kvs, rfl, rfl, List.forall_mem_nil _, b, cells, h + 1, kvs, rest, F', hb, hl.leaf,
        hl.ne_nil, hl.cells, hst, rfl, rfl⟩
    · simp only [hb, ok_bind, hi'.inner.nodeType_eq, if_true, hi'.inner.innerChildIndexed_eq]
      obtain ⟨pre, post, ha⟩ := exists_around hi'.inner.sorted p
      obtain ⟨k₀, kc, k₂, F₁, Fc, F₂, rfl, rfl, -, hchild, h₂, hlt₁, -⟩ := hi'.around ha
      rw [← ha.tail_eq] at h₂
      rw [← ha.childAt_eq] at hchild
      have hst' : StackRest s m h ((id, childIndex cells p + 1) :: stack) (k₂ ++ rest) :=
        ⟨b, cells, r, lo, hi, k₂, rest, F₂, hb, hi'.inner, rfl, h₂, hst⟩
      obtain ⟨at_, k₃, k₄, hat, rfl, hlt₃, hfrom⟩ := ih hchild hst' (show h ≤ k by omega)
      refine ⟨at_, k₀ ++ k₃, k₄ ++ k₂, hat, by simp, fun q hq => ?_, ?_⟩
      · rcases List.mem_append.1 hq with hq | hq
        · exact hlt₁ q hq
        · exact hlt₃ q hq
      · rw [← List.append_assoc, List.length_cons, ← Nat.add_assoc, Nat.add_right_comm] at hfrom
        exact hfrom

/-- In every tree and for every string, the callback is called with exactly the keys of the scan
that begin with it, in the order of the scan. -/
theorem for_each_prefix_filters {root : ℕ} (h : TreeHolds s m n root kvs F) : ∃ N, ∀ k, N ≤ k →
    ∃ entries, scan s k root = .ok entries ∧ SortedMap entries ∧
      ∀ (p : Bytes) (acc : α), forEachPrefix s k p f root acc
        = callAll f (startingWith p (entries.map Prod.fst)) acc := by
  refine ⟨m + n + kvs.length + 2, fun k hk => ⟨kvs, scan_eq h (by omega) (by omega) (by omega),
    h.sorted, fun p acc => ?_⟩⟩
  rw [forEachPrefix]
  split_ifs with hroot
  · rcases h with ⟨-, rfl, -⟩ | h
    · rfl
    · cases n with
      | zero => exact absurd h (fun h => h)
      | succ n => exact absurd hroot h.1
  · rcases h with ⟨hnone, -, -⟩ | h
    · exact absurd hnone hroot
    · have hsorted : SortedMap kvs := h.ordered.sorted
      have hst : StackRest s m n [] [] := rfl
      have hk' : n ≤ k := by omega
      obtain ⟨at_, k₀, k₁, hat, rfl, hlt, hfrom⟩ := candidateLeaf_from h hst hk' p
      rw [List.append_nil] at hfrom
      have hbefore : startingWith p (k₀.map Prod.fst) = [] := by
        refine startingWith_eq_nil fun key hkey hb => ?_
        obtain ⟨q, hq, rfl⟩ := List.mem_map.1 hkey
        exact not_lt.2 (le_of_begins hb) (hlt q hq)
      rw [List.length_append] at hk
      rw [hat, ok_bind, List.map_append, startingWith_append, hbefore, List.nil_append]
      exact walkLeaves_eq (n := n) hfrom (List.pairwise_append.1 hsorted).2.1 (by omega) (by omega) p acc

end Tree

/-- The theorem at a tree of one key and a callback that collects the keys. -/
theorem for_each_prefix_filters_one : ∃ root s,
    insert 8 CowMemStore.new NO_ROOT [2, 1] [7] = .ok (root, s) ∧ ∃ N, ∀ k, N ≤ k →
      ∃ entries, scan s k root = .ok entries ∧ SortedMap entries ∧
        ∀ (p : Bytes) (acc : List Bytes), forEachPrefix s k p (fun key acc => .ok (key :: acc)) root acc
          = callAll (fun key acc => .ok (key :: acc)) (startingWith p (entries.map Prod.fst)) acc := by
  obtain ⟨root, s, hrun, F, htree, -⟩ := @treeOf_insert_new 8 [2, 1] [7]
    (by simp [MapOp.Ok, show MAX_KEY_LEN = 1024 from rfl]) (by decide) (by decide +kernel)
  exact ⟨root, s, hrun, for_each_prefix_filters htree⟩

end Btree

end Arkeion
