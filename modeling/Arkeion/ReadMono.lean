import Arkeion.BtreeDiff

/-!
What was read stays readable: a source with the pages of another one, and perhaps more, gives
the same answers wherever the other one answers.

This is what copy-on-write rests on. A file only grows, so an old root reads the same for ever.
-/

namespace Arkeion

open Arkeion.Lib

namespace Btree

open NodeSource Node

/-- The second result is as good as the first. -/
def Leads {α : Type} (x y : Result α) : Prop := ∀ a, x = .ok a → y = .ok a

namespace Leads
variable {α β : Type}

lemma refl (x : Result α) : Leads x x := fun _ h => h

lemma of_error (e : Error) (y : Result α) : Leads (.error e) y := fun _ h => by cases h

lemma bind {x y : Result α} {f g : α → Result β} (hxy : Leads x y) (hfg : ∀ a, Leads (f a) (g a)) :
    Leads (x >>= f) (y >>= g) := fun b hb => by
  obtain ⟨a, ha, hf⟩ := bind_eq_ok.1 hb
  rw [hxy a ha, ok_bind]
  exact hfg a b hf

lemma ite {p : Prop} [Decidable p] {x y x' y' : Result α} (hx : Leads x x') (hy : Leads y y') :
    Leads (if p then x else y) (if p then x' else y') := by
  split_ifs
  · exact hx
  · exact hy

end Leads

lemma diffChildren_leads {f g : ℕ → ℕ → Option Bytes → Option Bytes → Result (List KeyDiff)}
    (hfg : ∀ a b lo hi, Leads (f a b lo hi) (g a b lo hi)) (lo hi : Option Bytes) (k : ℕ)
    (as bs : List (Option Bytes × Option Bytes × ℕ)) :
    Leads (diffChildren f lo hi k as bs) (diffChildren g lo hi k as bs) := by
  induction k generalizing as bs with
  | zero => exact .refl _
  | succ k ih =>
    cases as with
    | nil => exact .refl _
    | cons a as =>
      cases bs with
      | nil => exact .refl _
      | cons b bs =>
        exact .bind (.ite (hfg _ _ _ _) (.refl _)) fun out => .bind (ih _ _) fun _ => .refl _

/-- The second source has all pages of the first. -/
def Sees {σ τ : Type} [NodeSource σ] [NodeSource τ] (s : σ) (t : τ) : Prop :=
  ∀ id, Leads (body s id) (body t id)

namespace Sees
variable {σ τ : Type} [NodeSource σ] [NodeSource τ] {s : σ} {t : τ} (h : Sees s t)
include h

lemma readChain (n id : ℕ) : Leads (readChain s n id) (readChain t n id) := by
  induction n generalizing id with
  | zero => exact .refl _
  | succ n ih =>
    exact .ite (.refl _) (.bind (h id) fun b => .bind (.refl _) fun p => .bind (ih p.2) fun _ =>
      .refl _)

lemma readValue (n : ℕ) (p : Payload) : Leads (readValue s n p) (readValue t n p) := by
  cases p with
  | inline v => exact .refl _
  | overflow total_len first => exact .bind (h.readChain n first) fun _ => .refl _

lemma findLeaf (key : Bytes) (n id : ℕ) : Leads (findLeaf s key n id) (findLeaf t key n id) := by
  induction n generalizing id with
  | zero => exact .refl _
  | succ n ih => exact .bind (h id) fun b => .ite (.bind (.refl _) ih) (.refl _)

lemma get (n root : ℕ) (key : Bytes) : Leads (get s n root key) (get t n root key) := by
  refine .ite (.refl _) (.bind (h.findLeaf key n root) fun p => .bind (.refl _) fun found => ?_)
  cases found with
  | none => exact .refl _
  | some payload => exact .bind (h.readValue n payload) fun _ => .refl _

lemma descend (start : Option Bytes) (n : ℕ) (st : CursorState) (id : ℕ) :
    Leads (descend s start n st id) (descend t start n st id) := by
  induction n generalizing st id with
  | zero => exact .refl _
  | succ n ih =>
    exact .bind (h id) fun b => .ite (.bind (.refl _) fun p => ih _ _) (.refl _)

lemma scanState (n root : ℕ) (start : Option Bytes) :
    Leads (scanState s n root start) (scanState t n root start) :=
  .ite (.refl _) (h.descend start n _ root)

lemma nextLeaf (n : ℕ) (st : CursorState) : Leads (nextLeaf s n st) (nextLeaf t n st) := by
  rw [Btree.nextLeaf, Btree.nextLeaf]
  cases st.stack with
  | nil => exact .refl _
  | cons x above =>
    exact .bind (h x.1) fun b => .bind (.refl _) fun p =>
      .ite (.bind (h.descend none n _ _) fun _ => .refl _) (.refl _)

lemma advance (n m : ℕ) (st : CursorState) : Leads (advance s n m st) (advance t n m st) := by
  induction m generalizing st with
  | zero => exact .refl _
  | succ m ih =>
    rw [Btree.advance, Btree.advance]
    cases st.leaf with
    | none =>
      refine .bind (h.nextLeaf n st) fun next => ?_
      cases next with
      | none => exact .refl _
      | some st => exact ih st
    | some ls =>
      refine .ite (.bind (.refl _) fun p => .bind (h.readValue n p.2) fun _ => .refl _)
        (.bind (h.nextLeaf n st) fun next => ?_)
      cases next with
      | none => exact .refl _
      | some st => exact ih st

lemma collect (n m : ℕ) (st : CursorState) : Leads (collect s n m st) (collect t n m st) := by
  induction m generalizing st with
  | zero => exact .refl _
  | succ m ih =>
    refine .bind (h.advance n n st) fun next => ?_
    cases next with
    | none => exact .refl _
    | some p => exact .bind (ih p.2) fun _ => .refl _

lemma scan (n root : ℕ) : Leads (scan s n root) (scan t n root) :=
  .bind (h.scanState n root none) fun st => h.collect n n st

lemma scanFrom (n root : ℕ) (start : Bytes) :
    Leads (scanFrom s n root start) (scanFrom t n root start) :=
  .bind (h.scanState n root (some start)) fun st => h.collect n n st

lemma loopScan {α : Type} (n : ℕ) (step : Bytes × Bytes → α → Result (Option α)) (m : ℕ)
    (st : CursorState) (acc : α) :
    Leads (loopScan s n step m st acc) (loopScan t n step m st acc) := by
  induction m generalizing st acc with
  | zero => exact .refl _
  | succ m ih =>
    refine .bind (h.advance n n st) fun next => ?_
    cases next with
    | none => exact .refl _
    | some p =>
      refine .bind (.refl _) fun new => ?_
      cases new with
      | none => exact .refl _
      | some acc => exact ih p.2 acc

lemma forScan {α : Type} (n root : ℕ) (start : Option Bytes)
    (step : Bytes × Bytes → α → Result (Option α)) (acc : α) :
    Leads (forScan s n root start step acc) (forScan t n root start step acc) :=
  .bind (h.scanState n root start) fun st => h.loopScan n step n st acc

lemma collectRange (n id : ℕ) (lo hi : Option Bytes) :
    Leads (collectRange s n id lo hi) (collectRange t n id lo hi) :=
  .ite (.refl _) (h.forScan n id _ _ _)

lemma diffRange (N k a b : ℕ) (lo hi : Option Bytes) :
    Leads (diffRange s N k a b lo hi) (diffRange t N k a b lo hi) := by
  induction k generalizing a b lo hi with
  | zero => exact .refl _
  | succ k ih =>
    have hflat : Leads (diffFlat s N a b lo hi) (diffFlat t N a b lo hi) :=
      .bind (h.collectRange N a lo hi) fun _ => .bind (h.collectRange N b lo hi) fun _ => .refl _
    have hkids (id : ℕ) : Leads (childIntervals s id) (childIntervals t id) :=
      .bind (h id) fun _ => .refl _
    exact .ite (.refl _) (.ite (.bind (h.collectRange N b lo hi) fun _ => .refl _)
      (.ite (.bind (h.collectRange N a lo hi) fun _ => .refl _)
        (.bind (h a) fun _ => .bind (h b) fun _ => .ite (.bind (hkids a) fun _ =>
          .bind (hkids b) fun _ => diffChildren_leads ih lo hi _ _ _) hflat)))

lemma diff (N a b : ℕ) : Leads (diff s N a b) (diff t N a b) := h.diffRange N N a b none none

end Sees

/-! ### Trees of committed pages -/

section Committed
variable {σ τ : Type} [NodeStore σ] [NodeStore τ] {s : σ} {t : τ} {m n : ℕ} {kvs : Entries}
  {F : List ℕ}

lemma ChainHolds.sees (h : Sees s t) {ids : List ℕ} {first : ℕ} {data : Bytes}
    (hc : ChainHolds s ids first data) : ChainHolds t ids first data := by
  induction ids generalizing first data with
  | nil => exact hc
  | cons id ids ih =>
    obtain ⟨hfirst, hne, b, chunk, next, rest, hb, ho, hdata, hrest⟩ := hc
    exact ⟨hfirst, hne, b, chunk, next, rest, h id b hb, ho, hdata, ih hrest⟩

lemma PayloadHolds.sees (h : Sees s t) {p : Payload} {v : Bytes} (hp : PayloadHolds s m p v F) :
    ∃ G, PayloadHolds t m p v G := by
  cases p with
  | inline w => exact ⟨F, hp⟩
  | overflow total_len first =>
    obtain ⟨hlen, ids, hids, hchain, -⟩ := hp
    exact ⟨_, hlen, ids, hids, hchain.sees h, rfl⟩

lemma Cat.choose {α : Type} {P Q : α → Entries → List ℕ → Prop} {as : List α}
    (h : Cat P as kvs F) (hPQ : ∀ a ∈ as, ∀ k G, P a k G → ∃ G', Q a k G') :
    ∃ G, Cat Q as kvs G := by
  induction as generalizing kvs F with
  | nil => exact ⟨[], h.1, rfl⟩
  | cons a as ih =>
    obtain ⟨k₁, k₂, F₁, F₂, rfl, rfl, ha, hrest⟩ := h
    obtain ⟨G₁, h₁⟩ := hPQ a (by simp) k₁ F₁ ha
    obtain ⟨G₂, h₂⟩ := ih hrest fun b hb => hPQ b (by simp [hb])
    exact ⟨G₁ ++ G₂, k₁, k₂, G₁, G₂, rfl, rfl, h₁, h₂⟩

/-- The tree is there in a source with the same pages; which of them are dirty may differ. -/
lemma Holds.sees (h : Sees s t) {x : Option Bytes × Option Bytes × ℕ} (hx : Holds s m n x kvs F) :
    ∃ G, Holds t m n x kvs G := by
  induction n generalizing x kvs F with
  | zero => exact absurd hx (fun h => h)
  | succ n ih =>
    obtain ⟨lo, hi, id⟩ := x
    obtain ⟨hne, hlt, b, F', hb, rfl, ⟨cells, hl⟩ | ⟨cells, r, hin⟩⟩ := hx
    · have hcells : ∃ G, Cat (CellHolds t m) cells kvs G := hl.cells.choose fun c _ k G hc => by
        obtain ⟨v, hk, hsize, hp⟩ := hc
        obtain ⟨G', hp'⟩ := hp.sees h
        exact ⟨G', v, hk, hsize, hp'⟩
      obtain ⟨G, hG⟩ := hcells
      exact ⟨_, holds_leaf hne hlt (h id b hb) ⟨hl.leaf, hl.ne_nil, hl.range, hG⟩⟩
    · have hkids : ∃ G, Cat (Holds t m n) (childRanges lo hi cells r) kvs G :=
        hin.kids.choose fun x _ k G hc => ih hc
      obtain ⟨G, hG⟩ := hkids
      exact ⟨_, holds_inner hne hlt (h id b hb) ⟨hin.inner, hin.inside, hG⟩⟩

lemma TreeHolds.sees (h : Sees s t) {root : ℕ} (ht : TreeHolds s m n root kvs F) :
    ∃ G, TreeHolds t m n root kvs G := by
  rcases ht with ⟨hroot, hkvs, -⟩ | ht
  · exact ⟨[], Or.inl ⟨hroot, hkvs, rfl⟩⟩
  · obtain ⟨G, hG⟩ := ht.sees h
    exact ⟨G, Or.inr hG⟩

/-- In a store without dirty pages a tree owns none. -/
lemma TreeHolds.owns_nothing (hd : ∀ id, NodeStore.isDirty t id = false) {root : ℕ} {G : List ℕ}
    (h : TreeHolds t m n root kvs G) : G = [] := by
  refine List.eq_nil_iff_forall_not_mem.2 fun id hid => ?_
  have hown := (h.owned id hid).1
  rw [hd] at hown
  cases hown

end Committed

end Btree

end Arkeion
