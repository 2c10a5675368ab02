import Arkeion.Error

/-!
The cache of pages in memory, with second chances.

A hit sets the bit of its slot. When the cache is full a hand goes round the slots, clears the bits
that are set and takes the first slot without one.
-/

namespace Arkeion

structure Slot (α : Type) where
  id : ℕ
  page : α
  referenced : Bool

/-- The slots, and the position of each id in them. -/
structure PageCache (α : Type) where
  slots : List (Slot α)
  index : ℕ → Option ℕ
  hand : ℕ
  cap : ℕ

namespace PageCache
variable {α : Type}

def new (cap : ℕ) : PageCache α := ⟨[], fun _ => none, 0, max cap 1⟩

def slotAt (c : PageCache α) (i : ℕ) : Result (Slot α) :=
  okOr c.slots[i]? (.panic "index out of bounds")

/-- The page, if it is there, and the cache with the bit of its slot set. -/
def get (c : PageCache α) (id : ℕ) : Result (Option α × PageCache α) :=
  match c.index id with
  | none => .ok (none, c)
  | some i => do
    let s ← c.slotAt i
    .ok (some s.page, { c with slots := c.slots.set i { s with referenced := true } })

/-- One round of the hand. It is the last one if there is a cache on the left. -/
def round (c : PageCache α) (id : ℕ) (page : α) : Result (PageCache α ⊕ PageCache α) := do
  let s ← c.slotAt c.hand
  let hand := (c.hand + 1) % c.cap
  if s.referenced then
    .ok (.inr { c with hand, slots := c.slots.set c.hand { s with referenced := false } })
  else
    .ok (.inl { c with
      hand
      index := Function.update (Function.update c.index s.id none) id (some c.hand)
      slots := c.slots.set c.hand ⟨id, page, false⟩ })

/-- The loop of the hand, for at most `n` rounds; nothing if they do not suffice. -/
def evict : ℕ → PageCache α → ℕ → α → Result (Option (PageCache α))
  | 0, _, _, _ => .ok none
  | n + 1, c, id, page => do
    let r ← c.round id page
    match r with
    | .inl c => .ok (some c)
    | .inr c => evict n c id page

def insert (n : ℕ) (c : PageCache α) (id : ℕ) (page : α) : Result (Option (PageCache α)) :=
  match c.index id with
  | some i => do
    let s ← c.slotAt i
    .ok (some { c with slots := c.slots.set i { s with page, referenced := true } })
  | none =>
    if c.slots.length < c.cap then
      .ok (some { c with
        slots := c.slots ++ [⟨id, page, false⟩]
        index := Function.update c.index id (some c.slots.length) })
    else evict n c id page

/-! ### What the cache holds -/

/-- The index maps exactly the ids in the slots to their positions, and every slot has the page that
was given last for its id. -/
structure Holds (c : PageCache α) (last : ℕ → Option α) : Prop where
  cap_pos : 0 < c.cap
  length_le : c.slots.length ≤ c.cap
  hand_lt : c.hand < c.cap
  index_iff : ∀ id i, c.index id = some i ↔ ∃ s, c.slots[i]? = some s ∧ s.id = id
  latest : ∀ s ∈ c.slots, last s.id = some s.page

section Holds
variable {c c' : PageCache α} {last : ℕ → Option α} {id i n : ℕ} {page : α} {s : Slot α}

lemma holds_new (cap : ℕ) : (new cap : PageCache α).Holds fun _ => none where
  cap_pos := le_max_right cap 1
  length_le := Nat.zero_le _
  hand_lt := le_max_right cap 1
  index_iff := by
    intro id i
    refine iff_of_false (fun h => by cases h) ?_
    rintro ⟨s, hs, -⟩
    cases hs
  latest := by
    intro s hs
    cases hs

lemma slotAt_ok (h : c.slots[i]? = some s) : c.slotAt i = .ok s := by
  rw [slotAt, h, okOr_some]

/-- No id has two slots. -/
lemma Holds.unique (h : c.Holds last) {j : ℕ} {t : Slot α} (hs : c.slots[i]? = some s)
    (ht : c.slots[j]? = some t) (hid : s.id = t.id) : i = j := by
  have hi := (h.index_iff s.id i).2 ⟨s, hs, rfl⟩
  have hj := (h.index_iff s.id j).2 ⟨t, ht, hid.symm⟩
  rw [hi] at hj
  exact Option.some.inj hj

lemma Holds.absent (h : c.Holds last) (hnew : c.index id = none) (hs : c.slots[i]? = some s) :
    s.id ≠ id := by
  intro hid
  have hi := (h.index_iff id i).2 ⟨s, hs, hid⟩
  rw [hnew] at hi
  cases hi

/-- A slot that keeps its id. -/
lemma Holds.set (h : c.Holds last) {t : Slot α} {last' : ℕ → Option α} {hand : ℕ}
    (hs : c.slots[i]? = some s) (hid : t.id = s.id) (hhand : hand < c.cap)
    (hpage : last' t.id = some t.page) (hother : ∀ id, id ≠ t.id → last' id = last id) :
    Holds { c with hand, slots := c.slots.set i t } last' where
  cap_pos := h.cap_pos
  length_le := by
    rw [List.length_set]
    exact h.length_le
  hand_lt := hhand
  index_iff := by
    intro id j
    rw [h.index_iff]
    dsimp only
    by_cases hij : i = j
    · subst hij
      rw [List.getElem?_set_self (List.getElem?_eq_some_iff.1 hs).1, hs]
      constructor
      · rintro ⟨u, hu, rfl⟩
        cases hu
        exact ⟨t, rfl, hid⟩
      · rintro ⟨u, hu, rfl⟩
        cases hu
        exact ⟨s, rfl, hid.symm⟩
    · rw [List.getElem?_set_ne hij]
  latest := by
    intro u hu
    obtain ⟨j, hj⟩ := List.mem_iff_getElem?.1 hu
    dsimp only at hj
    by_cases hij : i = j
    · subst hij
      rw [List.getElem?_set_self (List.getElem?_eq_some_iff.1 hs).1] at hj
      cases hj
      exact hpage
    · rw [List.getElem?_set_ne hij] at hj
      rw [hother u.id fun heq => hij (h.unique hs hj (hid.symm.trans heq.symm))]
      exact h.latest u (List.mem_of_getElem? hj)

/-- A hit is the page given last, and only a bit changes. -/
lemma Holds.get (h : c.Holds last) (id : ℕ) : ∃ r c', c.get id = .ok (r, c') ∧ c'.Holds last
    ∧ c'.cap = c.cap ∧ (r = none ∨ r = last id) ∧ (∀ i, c.index id = some i → r = last id) := by
  cases hindex : c.index id with
  | none =>
    refine ⟨none, c, ?_, h, rfl, Or.inl rfl, fun i hi => by cases hi⟩
    rw [PageCache.get, hindex]
  | some i =>
    obtain ⟨s, hs, rfl⟩ := (h.index_iff id i).1 hindex
    have hlast := h.latest s (List.mem_of_getElem? hs)
    refine ⟨some s.page, { c with slots := c.slots.set i { s with referenced := true } }, ?_, ?_,
      rfl, Or.inr hlast.symm, fun _ _ => hlast.symm⟩
    · rw [PageCache.get, hindex]
      dsimp only
      rw [slotAt_ok hs, ok_bind]
    · exact h.set hs rfl h.hand_lt hlast fun _ _ => rfl

/-- Of the slots with their bit set there is one less after each round but the last. -/
def bits (c : PageCache α) : ℕ := c.slots.countP Slot.referenced

/-- What is cached once the page has its place. -/
structure Placed (c c' : PageCache α) (last : ℕ → Option α) (id : ℕ) (page : α) : Prop where
  holds : c'.Holds (Function.update last id (some page))
  cap_eq : c'.cap = c.cap
  cached : ∃ i, c'.index id = some i

lemma Holds.hand_slot (h : c.Holds last) (hfull : ¬ c.slots.length < c.cap) :
    ∃ s, c.slots[c.hand]? = some s := by
  have hlt : c.hand < c.slots.length := h.hand_lt.trans_le (Nat.le_of_not_lt hfull)
  exact ⟨c.slots[c.hand], List.getElem?_eq_getElem hlt⟩

/-- The slot under the hand, taken for another id. -/
lemma Holds.take (h : c.Holds last) (hs : c.slots[c.hand]? = some s) (hnew : c.index id = none) :
    Placed c { c with
      hand := (c.hand + 1) % c.cap
      index := Function.update (Function.update c.index s.id none) id (some c.hand)
      slots := c.slots.set c.hand ⟨id, page, false⟩ } last id page := by
  have hlt := (List.getElem?_eq_some_iff.1 hs).1
  refine ⟨⟨h.cap_pos, ?_, Nat.mod_lt _ h.cap_pos, ?_, ?_⟩, rfl, c.hand, Function.update_self ..⟩
  · rw [List.length_set]
    exact h.length_le
  · intro id' j
    dsimp only
    by_cases hj : c.hand = j
    · rw [← hj, List.getElem?_set_self hlt]
      by_cases hid : id' = id
      · rw [hid, Function.update_self]
        exact iff_of_true rfl ⟨_, rfl, rfl⟩
      · rw [Function.update_of_ne hid]
        refine iff_of_false (fun hindex => ?_) ?_
        · by_cases hold : id' = s.id
          · rw [hold, Function.update_self] at hindex
            cases hindex
          · rw [Function.update_of_ne hold] at hindex
            obtain ⟨t, ht, rfl⟩ := (h.index_iff id' c.hand).1 hindex
            rw [hs] at ht
            cases ht
            exact hold rfl
        · rintro ⟨t, ht, rfl⟩
          cases ht
          exact hid rfl
    · rw [List.getElem?_set_ne hj]
      by_cases hid : id' = id
      · rw [hid, Function.update_self]
        refine iff_of_false (fun hindex => hj (Option.some.inj hindex)) ?_
        rintro ⟨t, ht, hid⟩
        exact h.absent hnew ht hid
      · rw [Function.update_of_ne hid]
        by_cases hold : id' = s.id
        · rw [hold, Function.update_self]
          refine iff_of_false (fun hindex => by cases hindex) ?_
          rintro ⟨t, ht, hid⟩
          exact hj (h.unique hs ht hid.symm)
        · rw [Function.update_of_ne hold]
          exact h.index_iff id' j
  · intro u hu
    obtain ⟨j, hj⟩ := List.mem_iff_getElem?.1 hu
    dsimp only at hj
    by_cases hij : c.hand = j
    · rw [← hij, List.getElem?_set_self hlt] at hj
      cases hj
      exact Function.update_self ..
    · rw [List.getElem?_set_ne hij] at hj
      rw [Function.update_of_ne (h.absent hnew hj)]
      exact h.latest u (List.mem_of_getElem? hj)

/-- The hand comes to a slot without its bit, at the latest after all bits are cleared. -/
lemma Holds.evict (h : c.Holds last) (hfull : ¬ c.slots.length < c.cap) (hnew : c.index id = none)
    (hn : c.bits < n) : ∃ c', evict n c id page = .ok (some c') ∧ Placed c c' last id page := by
  induction n generalizing c with
  | zero => exact absurd hn (Nat.not_lt_zero _)
  | succ n ih =>
    obtain ⟨s, hs⟩ := h.hand_slot hfull
    have hround : c.round id page = if s.referenced then
          .ok (.inr { c with
            hand := (c.hand + 1) % c.cap
            slots := c.slots.set c.hand { s with referenced := false } })
        else .ok (.inl { c with
          hand := (c.hand + 1) % c.cap
          index := Function.update (Function.update c.index s.id none) id (some c.hand)
          slots := c.slots.set c.hand ⟨id, page, false⟩ }) := by
      rw [round, slotAt_ok hs, ok_bind]
    rw [PageCache.evict, hround]
    by_cases hbit : s.referenced = true
    · -- a second chance
      rw [if_pos hbit, ok_bind]
      have hlast := h.latest s (List.mem_of_getElem? hs)
      have hcleared := h.set (t := { s with referenced := false }) hs rfl
        (Nat.mod_lt (c.hand + 1) h.cap_pos) hlast fun _ _ => rfl
      have hbits : bits { c with
          hand := (c.hand + 1) % c.cap
          slots := c.slots.set c.hand { s with referenced := false } } < n := by
        obtain ⟨hlt, hget⟩ := List.getElem?_eq_some_iff.1 hs
        have hpos : 0 < c.bits := List.countP_pos_iff.2 ⟨s, List.mem_of_getElem? hs, hbit⟩
        have hcount := List.countP_set (p := Slot.referenced) (l := c.slots)
          (a := { s with referenced := false }) hlt
        rw [hget, if_pos hbit, if_neg Bool.false_ne_true] at hcount
        unfold bits at hn hpos ⊢
        dsimp only
        omega
      obtain ⟨c', hc', hplaced⟩ := ih hcleared (by rwa [List.length_set]) hnew hbits
      exact ⟨c', hc', hplaced.holds, hplaced.cap_eq, hplaced.cached⟩
    · rw [if_neg hbit, ok_bind]
      exact ⟨_, rfl, h.take hs hnew⟩

lemma Holds.bits_le (h : c.Holds last) : c.bits < 2 * c.cap := by
  have hle : c.bits ≤ c.slots.length := List.countP_le_length
  have hlen := h.length_le
  have hpos := h.cap_pos
  omega

/-- A page that is new, in a slot of its own. -/
lemma Holds.push (h : c.Holds last) (hroom : c.slots.length < c.cap) (hnew : c.index id = none) :
    Placed c { c with
      slots := c.slots ++ [⟨id, page, false⟩]
      index := Function.update c.index id (some c.slots.length) } last id page := by
  refine ⟨⟨h.cap_pos, ?_, h.hand_lt, ?_, ?_⟩, rfl, c.slots.length, Function.update_self ..⟩
  · rw [List.length_append]
    exact hroom
  · intro id' j
    dsimp only
    rcases Nat.lt_trichotomy j c.slots.length with hj | rfl | hj
    · rw [List.getElem?_append_left hj]
      by_cases hid : id' = id
      · rw [hid, Function.update_self]
        refine iff_of_false (fun hindex => hj.ne' (Option.some.inj hindex)) ?_
        rintro ⟨t, ht, hid⟩
        exact h.absent hnew ht hid
      · rw [Function.update_of_ne hid]
        exact h.index_iff id' j
    · rw [List.getElem?_append_right le_rfl, Nat.sub_self]
      by_cases hid : id' = id
      · rw [hid, Function.update_self]
        exact iff_of_true rfl ⟨_, rfl, rfl⟩
      · rw [Function.update_of_ne hid]
        refine iff_of_false (fun hindex => ?_) ?_
        · obtain ⟨t, ht, -⟩ := (h.index_iff id' _).1 hindex
          exact absurd (List.getElem?_eq_some_iff.1 ht).1 (lt_irrefl _)
        · rintro ⟨t, ht, rfl⟩
          cases ht
          exact hid rfl
    · have hnone : (c.slots ++ [⟨id, page, false⟩])[j]? = none := by
        rw [List.getElem?_eq_none_iff, List.length_append, List.length_singleton]
        exact hj
      rw [hnone]
      refine iff_of_false (fun hindex => ?_) ?_
      · by_cases hid : id' = id
        · rw [hid, Function.update_self] at hindex
          exact hj.ne (Option.some.inj hindex)
        · rw [Function.update_of_ne hid] at hindex
          obtain ⟨t, ht, -⟩ := (h.index_iff id' j).1 hindex
          exact absurd (List.getElem?_eq_some_iff.1 ht).1 (Nat.not_lt.2 hj.le)
      · rintro ⟨t, ht, -⟩
        cases ht
  · intro u hu
    rcases List.mem_append.1 hu with hu | hu
    · obtain ⟨j, hj⟩ := List.mem_iff_getElem?.1 hu
      rw [Function.update_of_ne (h.absent hnew hj)]
      exact h.latest u hu
    · rw [List.mem_singleton] at hu
      rw [hu]
      exact Function.update_self ..

/-- The page has its place after two turns of the hand at most. -/
lemma Holds.insert (h : c.Holds last) (id : ℕ) (page : α) (hn : 2 * c.cap ≤ n) :
    ∃ c', c.insert n id page = .ok (some c') ∧ Placed c c' last id page := by
  cases hindex : c.index id with
  | some i =>
    obtain ⟨s, hs, rfl⟩ := (h.index_iff id i).1 hindex
    refine ⟨{ c with slots := c.slots.set i { s with page, referenced := true } }, ?_, ?_, rfl, i, hindex⟩
    · rw [PageCache.insert, hindex]
      dsimp only
      rw [slotAt_ok hs, ok_bind]
    · refine h.set hs rfl h.hand_lt (Function.update_self ..) fun id hid => ?_
      exact Function.update_of_ne hid ..
  | none =>
    rw [PageCache.insert, hindex]
    dsimp only
    by_cases hroom : c.slots.length < c.cap
    · rw [if_pos hroom]
      exact ⟨_, rfl, h.push hroom hindex⟩
    · rw [if_neg hroom]
      exact h.evict hroom hindex (h.bits_le.trans_le hn)

end Holds

/-! ### Runs -/

inductive Op (α : Type) where
  | get (id : ℕ)
  | insert (id : ℕ) (page : α)

/-- The page given last for each id. -/
def lastPages (ops : List (Op α)) : ℕ → Option α :=
  ops.foldl (fun last op => match op with
    | .get _ => last
    | .insert id page => Function.update last id (some page)) fun _ => none

/-- One call; an `insert` may take `n` rounds of the hand. -/
def step (n : ℕ) (c : PageCache α) : Op α → Result (Option (PageCache α))
  | .get id => do
    let (_, c) ← c.get id
    .ok (some c)
  | .insert id page => c.insert n id page

/-- The cache after some calls, if the rounds suffice in each. -/
def run (n : ℕ) (c : PageCache α) : List (Op α) → Result (Option (PageCache α))
  | [] => .ok (some c)
  | op :: ops => do
    let r ← c.step n op
    match r with
    | none => .ok none
    | some c => run n c ops

section Runs
variable {c : PageCache α} {last : ℕ → Option α} {n : ℕ}

lemma Holds.step (h : c.Holds last) (op : Op α) (hn : 2 * c.cap ≤ n) :
    ∃ c', c.step n op = .ok (some c') ∧ c'.cap = c.cap ∧ c'.Holds (match op with
      | .get _ => last
      | .insert id page => Function.update last id (some page)) := by
  cases op with
  | get id =>
    obtain ⟨r, c', hget, hholds, hcap, -⟩ := h.get id
    refine ⟨c', ?_, hcap, hholds⟩
    rw [PageCache.step, hget, ok_bind]
  | insert id page =>
    obtain ⟨c', hc', hplaced⟩ := h.insert id page hn
    exact ⟨c', hc', hplaced.cap_eq, hplaced.holds⟩

lemma Holds.run (h : c.Holds last) (ops : List (Op α)) (hn : 2 * c.cap ≤ n) :
    ∃ c', c.run n ops = .ok (some c') ∧ c'.cap = c.cap ∧ c'.Holds (ops.foldl (fun last op =>
      match op with
      | .get _ => last
      | .insert id page => Function.update last id (some page)) last) := by
  induction ops generalizing c last with
  | nil => exact ⟨c, rfl, rfl, h⟩
  | cons op ops ih =>
    obtain ⟨c₁, hstep, hcap, hholds⟩ := h.step op hn
    obtain ⟨c', hrun, hcap', hholds'⟩ := ih hholds (by rwa [hcap])
    refine ⟨c', ?_, hcap'.trans hcap, hholds'⟩
    rw [PageCache.run, hstep, ok_bind]
    exact hrun

/-- More rounds do not change what is taken. -/
lemma evict_mono {c c' : PageCache α} {m n : ℕ} {id : ℕ} {page : α}
    (h : evict n c id page = .ok (some c')) (hm : n ≤ m) : evict m c id page = .ok (some c') := by
  induction n generalizing c m with
  | zero => cases h
  | succ n ih =>
    obtain ⟨m, rfl⟩ : ∃ k, m = k + 1 := ⟨m - 1, by omega⟩
    rw [evict] at h ⊢
    obtain ⟨r, hr, h⟩ := bind_eq_ok.1 h
    rw [hr, ok_bind]
    cases r with
    | inl c => exact h
    | inr c => exact ih h (by omega)

lemma step_mono {c' : PageCache α} {m : ℕ} {op : Op α} (h : c.step n op = .ok (some c'))
    (hm : n ≤ m) : c.step m op = .ok (some c') := by
  cases op with
  | get id => exact h
  | insert id page =>
    change c.insert n id page = _ at h
    change c.insert m id page = _
    rw [PageCache.insert] at h ⊢
    cases hindex : c.index id with
    | some i =>
      rw [hindex] at h
      exact h
    | none =>
      rw [hindex] at h
      dsimp only at h ⊢
      split_ifs at h ⊢
      · exact h
      · exact evict_mono h hm

lemma run_mono {c' : PageCache α} {m : ℕ} {ops : List (Op α)} (h : c.run n ops = .ok (some c'))
    (hm : n ≤ m) : c.run m ops = .ok (some c') := by
  induction ops generalizing c with
  | nil => exact h
  | cons op ops ih =>
    obtain ⟨r, hr, h⟩ := bind_eq_ok.1 h
    cases r with
    | none => cases h
    | some c₁ => exact bind_eq_ok.2 ⟨some c₁, step_mono hr hm, ih h⟩

/-- After any calls the index is that of the slots, which are `cap` at most; a hit is the page given
last, a page just inserted is hit, and two turns of the hand suffice for every insert. -/
theorem refines_last_pages (cap : ℕ) (ops : List (Op α)) :
    ∃ c, (∀ n, 2 * max cap 1 ≤ n → run n (new cap) ops = .ok (some c)) ∧ c.cap = max cap 1
      ∧ c.Holds (lastPages ops)
      ∧ (∀ id, ∃ r c', c.get id = .ok (r, c') ∧ (r = none ∨ r = lastPages ops id))
      ∧ ∀ id page, ∃ c' c'', c.insert (2 * c.cap) id page = .ok (some c')
        ∧ c'.get id = .ok (some page, c'') := by
  obtain ⟨c, hrun, hcap, hholds⟩ := (holds_new cap).run ops le_rfl
  refine ⟨c, fun n hn => run_mono hrun hn, hcap, hholds, fun id => ?_, fun id page => ?_⟩
  · obtain ⟨r, c', hget, -, -, hr, -⟩ := hholds.get id
    exact ⟨r, c', hget, hr⟩
  · obtain ⟨c', hc', hplaced⟩ := hholds.insert id page le_rfl
    obtain ⟨i, hi⟩ := hplaced.cached
    obtain ⟨r, c'', hget, -, -, -, hlast⟩ := hplaced.holds.get id
    rw [hlast i hi, Function.update_self] at hget
    exact ⟨c', c'', hc', hget⟩

end Runs

end PageCache

/-! ### Shards -/

/-- Caches side by side; an id goes to one of them. -/
structure ShardedCache (α : Type) where
  shards : List (PageCache α)
  mask : ℕ

namespace ShardedCache
variable {α : Type}

/-- Halved until there are not more shards than pages. -/
def halve (cap : ℕ) : ℕ → ℕ → ℕ
  | 0, nshards => nshards
  | n + 1, nshards => if cap < nshards then halve cap n (nshards / 2) else nshards

/-- A power of two, up to 64. -/
def shardCount (cores cap : ℕ) : ℕ := halve cap 7 (min (max (cores * 2).nextPowerOfTwo 1) 64)

def new (cores cap : ℕ) : ShardedCache α :=
  let cap := max cap 1
  let nshards := shardCount cores cap
  ⟨List.replicate nshards (.new ((cap + nshards - 1) / nshards)), nshards - 1⟩

/-- The shard of an id: the high bits of a product. -/
def shardOf (s : ShardedCache α) (id : ℕ) : ℕ :=
  ((id * 0x9E3779B97F4A7C15 % 2 ^ 64) >>> 58) &&& s.mask

def shard (s : ShardedCache α) (id : ℕ) : Result (PageCache α) :=
  okOr s.shards[s.shardOf id]? (.panic "index out of bounds")

def get (s : ShardedCache α) (id : ℕ) : Result (Option α × ShardedCache α) := do
  let c ← s.shard id
  let (r, c) ← c.get id
  .ok (r, { s with shards := s.shards.set (s.shardOf id) c })

def insert (n : ℕ) (s : ShardedCache α) (id : ℕ) (page : α) : Result (Option (ShardedCache α)) := do
  let c ← s.shard id
  let r ← c.insert n id page
  .ok (r.map fun c => { s with shards := s.shards.set (s.shardOf id) c })

/-- Each shard holds the pages given last for its own ids. -/
structure Holds (s : ShardedCache α) (n : ℕ) (last : ℕ → Option α) : Prop where
  mask_lt : s.mask < s.shards.length
  shard : ∀ (j : ℕ) (c : PageCache α), s.shards[j]? = some c → 2 * c.cap ≤ n
    ∧ c.Holds fun id => if s.shardOf id = j then last id else none

section Holds
variable {s : ShardedCache α} {last : ℕ → Option α} {n : ℕ}

lemma halve_pos {cap : ℕ} (hcap : 0 < cap) (n : ℕ) {nshards : ℕ} (h : 0 < nshards) :
    0 < halve cap n nshards := by
  induction n generalizing nshards with
  | zero => exact h
  | succ n ih =>
    rw [halve]
    split_ifs with hlt
    · exact ih (by omega)
    · exact h

lemma shardCount_pos (cores : ℕ) {cap : ℕ} (h : 0 < cap) : 0 < shardCount cores cap :=
  halve_pos h 7 (by omega)

lemma Holds.shardOf_lt (h : s.Holds n last) (id : ℕ) : s.shardOf id < s.shards.length :=
  Nat.and_le_right.trans_lt h.mask_lt

lemma Holds.exists_shard (h : s.Holds n last) (id : ℕ) :
    ∃ c, s.shard id = .ok c ∧ s.shards[s.shardOf id]? = some c := by
  have hget := List.getElem?_eq_getElem (h.shardOf_lt id)
  refine ⟨_, ?_, hget⟩
  rw [ShardedCache.shard, hget, okOr_some]

/-- One shard is changed, and with it what was given last for one of its ids. -/
lemma Holds.set (h : s.Holds n last) {id : ℕ} {c : PageCache α} {last' : ℕ → Option α}
    (hcap : 2 * c.cap ≤ n)
    (hc : c.Holds fun id' => if s.shardOf id' = s.shardOf id then last' id' else none)
    (hother : ∀ id', id' ≠ id → last' id' = last id') :
    Holds { s with shards := s.shards.set (s.shardOf id) c } n last' where
  mask_lt := by
    rw [List.length_set]
    exact h.mask_lt
  shard := by
    intro j d hd
    dsimp only at hd
    by_cases hj : s.shardOf id = j
    · subst hj
      rw [List.getElem?_set_self (h.shardOf_lt id)] at hd
      cases hd
      exact ⟨hcap, hc⟩
    · rw [List.getElem?_set_ne hj] at hd
      obtain ⟨hle, hholds⟩ := h.shard j d hd
      have hsame : (fun id' => if s.shardOf id' = j then last' id' else none)
          = fun id' => if s.shardOf id' = j then last id' else none := by
        funext id'
        by_cases hid : s.shardOf id' = j
        · rw [if_pos hid, if_pos hid, hother id' fun heq => hj (heq ▸ hid)]
        · rw [if_neg hid, if_neg hid]
      refine ⟨hle, ?_⟩
      rw [← hsame] at hholds
      exact hholds

lemma holds_new (cores cap : ℕ) : (new cores cap : ShardedCache α).Holds
    (2 * ((max cap 1 + shardCount cores (max cap 1) - 1) / shardCount cores (max cap 1)) + 2)
    fun _ => none where
  mask_lt := by
    have hpos := shardCount_pos cores (le_max_right cap 1)
    change shardCount cores (max cap 1) - 1 < (List.replicate _ _).length
    rw [List.length_replicate]
    omega
  shard := by
    intro j c hc
    have hmem := List.mem_of_getElem? hc
    rw [(List.mem_replicate.1 hmem).2]
    refine ⟨?_, ?_⟩
    · change 2 * max _ 1 ≤ _
      omega
    · have hnone : (fun id => if (new cores cap : ShardedCache α).shardOf id = j then
          (none : Option α) else none) = fun _ => none := funext fun id => ite_self none
      rw [hnone]
      exact PageCache.holds_new _

/-- A hit in a shard is the page given last. -/
lemma Holds.get (h : s.Holds n last) (id : ℕ) : ∃ r s', s.get id = .ok (r, s')
    ∧ s'.Holds n last ∧ (r = none ∨ r = last id) := by
  obtain ⟨c, hshard, hc⟩ := h.exists_shard id
  obtain ⟨hcap, hholds⟩ := h.shard _ c hc
  obtain ⟨r, c', hget, hholds', hcap', hr, -⟩ := hholds.get id
  refine ⟨r, { s with shards := s.shards.set (s.shardOf id) c' }, ?_, ?_, ?_⟩
  · rw [ShardedCache.get, hshard, ok_bind, hget, ok_bind]
  · exact h.set (hcap'.symm ▸ hcap) hholds' fun _ _ => rfl
  · rwa [if_pos rfl] at hr

lemma Holds.insert (h : s.Holds n last) (id : ℕ) (page : α) :
    ∃ s', s.insert n id page = .ok (some s') ∧ s'.Holds n (Function.update last id (some page)) := by
  obtain ⟨c, hshard, hc⟩ := h.exists_shard id
  obtain ⟨hcap, hholds⟩ := h.shard _ c hc
  obtain ⟨c', hinsert, hplaced⟩ := hholds.insert id page hcap
  refine ⟨{ s with shards := s.shards.set (s.shardOf id) c' }, ?_, ?_⟩
  · rw [ShardedCache.insert, hshard, ok_bind, hinsert, ok_bind]
    rfl
  · refine h.set (hplaced.cap_eq.symm ▸ hcap) ?_ fun id' hid => Function.update_of_ne hid ..
    have hsame : Function.update (fun id' => if s.shardOf id' = s.shardOf id then last id' else none)
        id (some page) = fun id' => if s.shardOf id' = s.shardOf id then
          Function.update last id (some page) id' else none := by
      funext id'
      by_cases hid : id' = id
      · rw [hid, Function.update_self, if_pos rfl, Function.update_self]
      · rw [Function.update_of_ne hid, Function.update_of_ne hid]
    exact hsame ▸ hplaced.holds

end Holds

def run (n : ℕ) (s : ShardedCache α) : List (PageCache.Op α) → Result (Option (ShardedCache α))
  | [] => .ok (some s)
  | .get id :: ops => do
    let (_, s) ← s.get id
    run n s ops
  | .insert id page :: ops => do
    let r ← s.insert n id page
    match r with
    | none => .ok none
    | some s => run n s ops

lemma Holds.run {s : ShardedCache α} {n : ℕ} {last : ℕ → Option α} (h : s.Holds n last)
    (ops : List (PageCache.Op α)) : ∃ s', s.run n ops = .ok (some s')
      ∧ s'.Holds n (ops.foldl (fun last op => match op with
        | .get _ => last
        | .insert id page => Function.update last id (some page)) last) := by
  induction ops generalizing s last with
  | nil => exact ⟨s, rfl, h⟩
  | cons op ops ih =>
    cases op with
    | get id =>
      obtain ⟨r, s₁, hget, hholds, -⟩ := h.get id
      obtain ⟨s', hrun, hholds'⟩ := ih hholds
      refine ⟨s', ?_, hholds'⟩
      rw [ShardedCache.run, hget, ok_bind]
      exact hrun
    | insert id page =>
      obtain ⟨s₁, hinsert, hholds⟩ := h.insert id page
      obtain ⟨s', hrun, hholds'⟩ := ih hholds
      refine ⟨s', ?_, hholds'⟩
      rw [ShardedCache.run, hinsert, ok_bind]
      exact hrun

/-- A hit in the shards is the page given last, whatever was called before. -/
theorem sharded_last_pages (cores cap : ℕ) (ops : List (PageCache.Op α)) :
    ∃ n s, (new cores cap).run n ops = .ok (some s)
      ∧ ∀ id, ∃ r s', s.get id = .ok (r, s') ∧ (r = none ∨ r = PageCache.lastPages ops id) := by
  obtain ⟨s, hrun, hholds⟩ := (holds_new cores cap).run ops
  refine ⟨_, s, hrun, fun id => ?_⟩
  obtain ⟨r, s', hget, -, hr⟩ := hholds.get id
  exact ⟨r, s', hget, hr⟩

end ShardedCache

end Arkeion
