import Arkeion.AppendCursor
import Arkeion.CursorTail
import Arkeion.PartStore
import Arkeion.ReadMono
import Arkeion.TxStore

/-!
Which pages a transaction owns: the dirty ones are those the tree is made of, each with one
pointer to it, and a durable page never points to one of them.

The tree starts among the pages of the file. Of these only its own pages matter: the run is
followed in the part of the store where no other page of the file is in sight.
-/

namespace Arkeion

open Arkeion.Lib

namespace Btree

open NodeSource NodeStore Node LawfulNodeStore

/-! ### Runs -/

/-- The lengths of keys and values are in 64 bits; keys of another length than 1 to 1024 bytes
are refused. -/
def MapOp.Sized : MapOp → Prop
  | .insert _ value => value.length < 2 ^ 64
  | .delete _ => True

/-- An operation is refused for its key, or by the store. -/
def OpRefused (σ : Type) [NodeStore σ] [LawfulNodeStore σ] (e : Error) : Prop :=
  e = .invalidInput "clave vacía o de más de 1024 bytes" ∨ Refused σ e

section Run
variable {σ : Type} [NodeStore σ] [LawfulNodeStore σ] {s : σ} {k n root : ℕ} {kvs : Entries}
  {F : List ℕ}

/-- The tree has the pages `F`, no page twice. -/
structure TreeWith (s : σ) (k root : ℕ) (kvs : Entries) (F : List ℕ) : Prop where
  valid : Valid s
  tree : TreeHolds s k k root kvs F
  nodup : F.Nodup

lemma insert_frame [NoCursor σ] (h : TreeWith s k root kvs F) {key value : Bytes}
    (hop : (MapOp.insert key value).Sized) (hn : 2 * (k + (value.length + 1)) ≤ n) :
    Outcome (OpRefused σ) (insert n s root key value) fun r => ∃ F', Frame s r.2 F F' ∧
      TreeWith r.2 (k + (value.length + 1)) r.1 (insertKey key value kvs) F' := by
  rw [insert]
  by_cases hkey : key ≠ [] ∧ key.length ≤ MAX_KEY_LEN
  · rw [require_pos hkey]
    simp only [ok_bind, NoCursor.take, appendAtCursor]
    have hdown := insertDown_outcome h.valid h.tree h.nodup (List.length_pos_iff.2 hkey.1) hkey.2
      hop (show k + max k value.length ≤ n by omega)
    refine (hdown.weaken fun e he => Or.inr he).imp ?_
    rintro r - ⟨F', hframe, hnodup, hholds⟩
    exact ⟨F', hframe, hframe.valid, Or.inr (hholds.mono (by omega) (by omega)), hnodup⟩
  · rw [require, if_neg hkey]
    exact Or.inl rfl

lemma delete_frame (h : TreeWith s k root kvs F) (key : Bytes) (hn : 2 * k ≤ n) :
    Outcome (OpRefused σ) (delete n s root key) fun r => ∃ F', Frame s r.2.2 F F' ∧
      TreeWith r.2.2 k r.1 (eraseKey key kvs) F' := by
  refine ((delete_outcome h.valid h.tree h.nodup (by omega)).weaken fun e he => Or.inr he).imp ?_
  rintro r - ⟨F', hframe, hnodup, hholds, -⟩
  exact ⟨F', hframe, hframe.valid, hholds, hnodup⟩

/-- A run changes no pages but those of the tree. -/
lemma runOps_frame [NoCursor σ] {ops : List MapOp} (hops : ∀ op ∈ ops, op.Sized)
    (h : TreeWith s k root kvs F) (hn : 2 * (k + (ops.map MapOp.growth).sum) ≤ n) :
    Outcome (OpRefused σ) (runOps n ops s root) fun r => ∃ F', Frame s r.2.2 F F' ∧
      TreeWith r.2.2 (k + (ops.map MapOp.growth).sum) r.2.1 (mapAfter kvs ops) F' := by
  induction ops generalizing s k root kvs F with
  | nil => exact ⟨F, .refl h.valid F, h⟩
  | cons op ops ih =>
    have hrest : ∀ op ∈ ops, op.Sized := fun o ho => hops o (by simp [ho])
    rw [List.map_cons, List.sum_cons, ← Nat.add_assoc] at hn ⊢
    cases op with
    | insert key value =>
      rw [runOps]
      rw [MapOp.growth] at hn ⊢
      refine (insert_frame h (hops _ (by simp)) (by omega)).bind ?_
      rintro ⟨root', s'⟩ - ⟨F', hframe, h'⟩
      refine (ih hrest h' hn).imp ?_
      rintro r - ⟨F'', hframe', h''⟩
      exact ⟨F'', hframe.trans hframe', h''⟩
    | delete key =>
      rw [runOps]
      rw [MapOp.growth, Nat.add_zero] at hn ⊢
      refine (delete_frame h key (by omega)).bind ?_
      rintro ⟨root', existed, s'⟩ - ⟨F', hframe, h'⟩
      refine (ih hrest h' hn).bind ?_
      rintro ⟨deleted, root'', s''⟩ - ⟨F'', hframe', h''⟩
      exact ⟨F'', hframe.trans hframe', h''⟩

end Run

/-- A run in the part of a store is the run in the store. -/
lemma PartMap.runOps {σ τ : Type} [NodeStore σ] [NodeStore τ] [NoCursor σ] [NoCursor τ] {f : σ → τ}
    (h : PartMap f) (n : ℕ) (ops : List MapOp) (s : σ) (root : ℕ) :
    UpTo (fun r : List Bool × ℕ × σ => (r.1, r.2.1, f r.2.2)) (runOps n ops s root)
      (runOps n ops (f s) root) := by
  induction ops generalizing s root with
  | nil => exact .of_eq rfl
  | cons op ops ih =>
    cases op with
    | insert key value => exact .bind (h.insert n s root key value) fun r => ih r.2 r.1
    | delete key =>
      exact .bind (h.delete n s root key) fun r => .bind (ih r.2.2 r.1) fun _ => .of_eq rfl

/-! ### What the transaction owns -/

/-- The page is reached from the root along pointers. -/
def Reached (t : TxPages) (root id : ℕ) : Prop :=
  root ≠ NO_ROOT ∧ ReachesBy (pointers t) root id

/-- A place for a pointer: the root of the tree, or the `i`-th pointer in a page. -/
inductive Place where
  | root
  | page (id i : ℕ)
  deriving DecidableEq, Repr

/-- The pointer is at the place; only pages that are reached count. -/
def PointsAt (t : TxPages) (root : ℕ) : Place → ℕ → Prop
  | .root, x => root ≠ NO_ROOT ∧ root = x
  | .page id i, x => Reached t root id ∧ (pointers t id)[i]? = some x

/-- Copy-on-write: durable pages point to durable ones only, each dirty page has one pointer to
it, and what is pointed to is there and not free. -/
structure CowOwned (t : TxPages) (root : ℕ) : Prop where
  durable : ∀ p, Reached t root p → p < t.alloc_base → ∀ q ∈ pointers t p, q < t.alloc_base
  dirty_once : ∀ id, isDirty t id = true → ∃! place, PointsAt t root place id
  live : ∀ place id, PointsAt t root place id → (∃ b, body t id = .ok b) ∧ id ∉ t.freed

/-- Every answer that reading through a root gave, it gives still. -/
structure ReadsKept (s t : TxPages) : Prop where
  get : ∀ n root key a, get s n root key = .ok a → get t n root key = .ok a
  contains : ∀ n root key a, contains s n root key = .ok a → contains t n root key = .ok a
  scan : ∀ n root kvs, scan s n root = .ok kvs → scan t n root = .ok kvs
  scanFrom : ∀ n root start kvs, scanFrom s n root start = .ok kvs →
    scanFrom t n root start = .ok kvs

section Walk
variable {t : TxPages} {root : ℕ} {W : List ℕ}

lemma mem_walk (hW : Visits (pointers t) (pointerTo root) W) (id : ℕ) :
    id ∈ W ↔ Reached t root id := by
  rw [Reached]
  by_cases hroot : root = NO_ROOT
  · rw [pointerTo, if_pos hroot] at hW
    cases hW
    simp [hroot]
  · rw [pointerTo, if_neg hroot] at hW
    rw [hW.mem_iff]
    exact ⟨fun h => ⟨hroot, h⟩, fun h => h.2⟩

lemma pointsAt_mem (hW : Visits (pointers t) (pointerTo root) W) {place : Place} {id : ℕ}
    (h : PointsAt t root place id) : id ∈ W := by
  cases place with
  | root =>
    obtain ⟨hroot, rfl⟩ := h
    exact (mem_walk hW root).2 ⟨hroot, .refl⟩
  | page p i => exact hW.closed ((mem_walk hW p).2 h.1) (List.mem_of_getElem? h.2)

lemma count_pointerTo (root id : ℕ) :
    (pointerTo root).count id = if root ≠ NO_ROOT ∧ root = id then 1 else 0 := by
  rw [pointerTo]
  by_cases hroot : root = NO_ROOT
  · simp [hroot]
  · by_cases hid : root = id
    · simp [← hid, hroot]
    · simp [hid, hroot]

/-- What is met once on the walk has one pointer to it. -/
lemma one_place (hW : Visits (pointers t) (pointerTo root) W) {id : ℕ} (hone : W.count id = 1) :
    ∃! place, PointsAt t root place id := by
  have hcount := hW.perm.count_eq id
  rw [hone, List.count_append, count_pointerTo] at hcount
  by_cases hroot : root ≠ NO_ROOT ∧ root = id
  · rw [if_pos hroot] at hcount
    refine ⟨.root, hroot, fun place hplace => ?_⟩
    cases place with
    | root => rfl
    | page p i =>
      have hmem : id ∈ W.flatMap (pointers t) :=
        List.mem_flatMap.2 ⟨p, (mem_walk hW p).2 hplace.1, List.mem_of_getElem? hplace.2⟩
      have hpos := List.count_pos_iff.2 hmem
      omega
  · rw [if_neg hroot, Nat.zero_add] at hcount
    have hmem : id ∈ W.flatMap (pointers t) := List.count_pos_iff.1 (by omega)
    obtain ⟨p, hp, hid⟩ := List.mem_flatMap.1 hmem
    obtain ⟨i, hi⟩ := List.mem_iff_getElem?.1 hid
    refine ⟨.page p i, ⟨(mem_walk hW p).1 hp, hi⟩, fun place hplace => ?_⟩
    cases place with
    | root => exact absurd hplace hroot
    | page q j =>
      obtain ⟨rfl, rfl⟩ := place_unique (by omega) ((mem_walk hW q).2 hplace.1) hp hplace.2 hi
      rfl

lemma durable_iff (hv : TxPages.Valid t) {id : ℕ} {b : Bytes} (hb : body t id = .ok b) :
    isDirty t id = false ↔ id < t.alloc_base := by
  rw [TxPages.isDirty_eq]
  rcases TxPages.body_cases hb with hsome | ⟨hnone, hlt, -⟩
  · have hmem := (mem_iff_valueOf hv.sorted).2 hsome
    have hge := (hv.dirty _ hmem).1.1
    simp [hsome, hge]
  · simp [hnone, hlt]

lemma not_freed (hv : TxPages.Valid t) {id : ℕ} {b : Bytes} (hb : body t id = .ok b) :
    id ∉ t.freed := by
  intro hid
  obtain ⟨⟨hge, -⟩, hnone⟩ := hv.freed id hid
  rcases TxPages.body_cases hb with hsome | ⟨-, hlt, -⟩
  · rw [hnone] at hsome
    cases hsome
  · omega

/-- What a walk from the root tells of the ownership of pages. -/
lemma CowOwned.of_walk (hv : TxPages.Valid t) (hW : Visits (pointers t) (pointerTo root) W)
    (hread : ∀ p ∈ W, ∃ b, body t p = .ok b)
    (hclean : ∀ p ∈ W, isDirty t p = false → ∀ q ∈ pointers t p, isDirty t q = false)
    (hall : ∀ id, isDirty t id = true → id ∈ W) (hnodup : (dirtyOf t W).Nodup) :
    CowOwned t root where
  durable p hp hlt q hq := by
    have hpW := (mem_walk hW p).2 hp
    obtain ⟨b, hb⟩ := hread p hpW
    obtain ⟨c, hc⟩ := hread q (hW.closed hpW hq)
    exact (durable_iff hv hc).1 (hclean p hpW ((durable_iff hv hb).2 hlt) q hq)
  dirty_once id hid := by
    refine one_place hW ?_
    have hmem : id ∈ dirtyOf t W := List.mem_filter.2 ⟨hall id hid, hid⟩
    have hcount := hnodup.count (a := id)
    rwa [if_pos hmem, dirtyOf, List.count_filter hid] at hcount
  live place id hplace := by
    obtain ⟨b, hb⟩ := hread id (pointsAt_mem hW hplace)
    exact ⟨⟨b, hb⟩, not_freed hv hb⟩

end Walk

/-! ### From the part to the whole store -/

/-- A tree without entries has no pages. -/
lemma TreeHolds.empty {σ : Type} [NodeStore σ] {s : σ} {m n root : ℕ} {F : List ℕ}
    (h : TreeHolds s m n root [] F) : F = [] := by
  rcases h with ⟨-, -, hF⟩ | h
  · exact hF
  · exact absurd rfl h.ne_nil

section Part
variable {S : PartOf TxPages} {k root : ℕ} {kvs : Entries} {F : List ℕ}

/-- In the part all dirty pages are the ones of the tree; so they are in the store. -/
lemma cowOwned_of_part (h : TreeWith S k root kvs F) (hall : ∀ id, Owned S id → id ∈ F) :
    CowOwned S.store root := by
  obtain ⟨W, hW, rfl, hread⟩ := h.tree.spans
  have hvalid : TxPages.Valid S.store ∧ PartOf.CleanIn S.store S.known := h.valid
  have hsame : ∀ id ∈ W, body S id = body S.store id := fun id hid => by
    obtain ⟨b, hb⟩ := hread id hid
    rw [hb, (PartOf.body_eq_ok.1 hb).2]
  have hpointers : ∀ id ∈ W, pointers S.store id = pointers S id := fun id hid => by
    rw [pointers, pointers, hsame id hid]
  refine CowOwned.of_walk hvalid.1 (hW.congr hpointers) (fun p hp => ?_) (fun p hp hd q hq => ?_)
    (fun id hid => ?_) h.nodup
  · rw [← hsame p hp]
    exact hread p hp
  · obtain ⟨b, hb⟩ := hread p hp
    obtain ⟨hsight, hb'⟩ := PartOf.body_eq_ok.1 hb
    rw [pointers_eq hb'] at hq
    have hknown : p ∈ S.known := hsight.resolve_left fun hdirty => by
      rw [hd] at hdirty
      cases hdirty
    exact (hvalid.2.2 p hknown b hd hb' q hq).2.1
  · obtain ⟨b, hb⟩ := Option.isSome_iff_exists.1 hid
    have hown : Owned S id := ⟨hid, b, PartOf.body_eq_ok.2 ⟨Or.inl hid, TxPages.body_dirty hb⟩⟩
    exact (List.mem_filter.1 (hall id hown)).1

end Part

/-! ### Where a run starts -/

section Start
variable {s : TxPages} {k root : ℕ} {kvs : Entries} {F : List ℕ}

/-- A tree of the file in a new transaction: no page is dirty yet. -/
lemma cowOwned_new {pager : PageLog} (hpager : pager.nPages < 2 ^ 64)
    (h : TreeOf (TxPages.new pager) k root kvs) : CowOwned (TxPages.new pager) root := by
  obtain ⟨F, htree, hnodup, -⟩ := h
  obtain ⟨W, hW, rfl, hread⟩ := htree.spans
  refine CowOwned.of_walk (TxPages.valid_new hpager) hW hread (fun _ _ _ _ _ => rfl)
    (fun id hid => ?_) hnodup
  cases hid

/-- The clean pages in sight are those of the tree. -/
lemma part_of_store (h : TreeWith s k root kvs F) (hcow : CowOwned s root) : ∃ known,
    TreeWith (PartOf.mk s known) k root kvs F ∧ ∀ id, Owned (PartOf.mk s known) id → id ∈ F := by
  have hv : TxPages.Valid s := h.valid
  obtain ⟨W, hW, rfl, hread⟩ := h.tree.spans
  have hclosed : ClosedIn s W := fun p hp q hq => hW.closed hp hq
  have hclean : PartOf.CleanIn s W := by
    refine ⟨?_, fun p hp b hd hb q hq => ?_⟩
    · cases hd : isDirty s NO_ROOT with
      | false => rfl
      | true =>
        obtain ⟨b, hb⟩ := Option.isSome_iff_exists.1 hd
        have hge := (hv.dirty _ ((mem_iff_valueOf hv.sorted).2 hb)).1.1
        have hpos := hv.base_pos
        rw [NO_ROOT] at hge
        omega
    · have hqW := hclosed.page hp hb hq
      obtain ⟨c, hc⟩ := hread q hqW
      rw [← pointers_eq hb] at hq
      have hlt := hcow.durable p ((mem_walk hW p).1 hp) ((durable_iff hv hb).1 hd) q hq
      exact ⟨hqW, (durable_iff hv hc).2 hlt, c, hc⟩
  have hagree : AgreeOn s (PartOf.mk s W) W := fun id hid => ⟨PartOf.body_eq (Or.inr hid), rfl⟩
  refine ⟨W, ⟨⟨hv, hclean⟩, h.tree.agree hagree hclosed fun q hq => hW.of_mem hq, h.nodup⟩,
    fun id hown => ?_⟩
  obtain ⟨place, hplace, -⟩ := hcow.dirty_once id hown.1
  exact List.mem_filter.2 ⟨pointsAt_mem hW hplace, hown.1⟩

/-- The pages of the file are there in every transaction on it. -/
lemma sees_of_file {t : TxPages} {F' : List ℕ} (hv : TxPages.Valid s) (hf : Frame s t F F') :
    Sees (TxPages.new s.pager) t := by
  intro id b hb
  rcases TxPages.body_cases hb with hsome | ⟨-, hlt, hread⟩
  · cases hsome
  · have hlt' : id < s.alloc_base := by
      rw [hv.base]
      exact hlt
    have hnone : valueOf id s.dirty = none := valueOf_eq_none fun p hp heq => by
      have hge := (hv.dirty p hp).1.1
      omega
    have hbody : body s id = .ok b := by
      change TxPages.body s id = _
      simp only [TxPages.body, hnone, if_neg (not_le.2 hlt')]
      exact hread
    refine (hf.keep id b hbody fun hd => ?_).1
    rw [TxPages.isDirty_eq, hnone] at hd
    cases hd

end Start

lemma ReadsKept.of_sees {s t : TxPages} (h : Sees s t) : ReadsKept s t where
  get n root key a ha := h.get n root key a ha
  contains n root key a ha := by
    refine Leads.ite (.refl _) (.bind (h.findLeaf key n root) fun _ => .refl _) a ha
  scan n root kvs hscan := h.scan n root kvs hscan
  scanFrom n root start kvs hscan := h.scanFrom n root start kvs hscan

/-- The text with which `body_mut` ends the process when the page is not dirty. -/
def NOT_DIRTY : Error := .panic "body_mut sobre página no sucia"

lemma not_opRefused {e : Error} (h : e = NOT_DIRTY ∨ e = OUT_OF_SIGHT) :
    ¬ OpRefused TxPages e := by
  rintro (he | he | he)
  · rcases h with rfl | rfl <;> cases he
  · have he' : e = .panic "attempt to add with overflow" := he
    rcases h with rfl | rfl <;> revert he' <;> decide
  · rcases h with rfl | rfl <;> revert he <;> decide

/-- Copy-on-write: a tree of the file is owned as it needs it when a transaction begins; and from
there on, after any insertions and deletions, `body_mut` was only asked for dirty pages, the
pages are owned so still, none is left of an empty tree, and what was read through the pages of
the file is read the same. -/
theorem cow_ownership :
    (∀ (pager : PageLog) (k root : ℕ) (kvs : Entries), pager.nPages < 2 ^ 64 →
      TreeOf (TxPages.new pager) k root kvs →
      TxPages.Valid (TxPages.new pager) ∧ CowOwned (TxPages.new pager) root) ∧
    ∀ (s : TxPages) (k root : ℕ) (kvs : Entries), TxPages.Valid s → TreeOf s k root kvs →
      CowOwned s root → ∀ ops : List MapOp, (∀ op ∈ ops, op.Sized) →
      ∀ n, 2 * (k + (ops.map MapOp.growth).sum) ≤ n →
        (∀ e, runOps n ops s root = .error e → OpRefused TxPages e ∧ e ≠ NOT_DIRTY) ∧
        ∀ deleted root' t, runOps n ops s root = .ok (deleted, root', t) →
          TxPages.Valid t ∧ CowOwned t root' ∧ (mapAfter kvs ops = [] → t.dirty = []) ∧
          ReadsKept (TxPages.new s.pager) t := by
  refine ⟨fun pager k root kvs hpager h => ⟨TxPages.valid_new hpager, cowOwned_new hpager h⟩,
    fun s k root kvs hv h hcow ops hops n hn => ?_⟩
  obtain ⟨F, hholds, hnodup, -⟩ := h
  have hstart : TreeWith s k root kvs F := ⟨hv, hholds, hnodup⟩
  have hwhole := runOps_frame hops hstart hn
  obtain ⟨known, hstart', hown⟩ := part_of_store hstart hcow
  have hpart := runOps_frame hops hstart' hn
  refine ⟨fun e he => ⟨hwhole.of_error he, fun hdirty => ?_⟩, fun deleted root' t hrun => ?_⟩
  · exact not_opRefused (Or.inl hdirty) (hwhole.of_error he)
  have hstore := PartOf.partMap.runOps n ops (PartOf.mk s known) root
  rcases hstore with hout | hmap
  · exact absurd (hpart.of_error hout) (not_opRefused (Or.inr rfl))
  · change runOps n ops s root = _ at hmap
    rw [hmap] at hrun
    cases hx : runOps n ops (PartOf.mk s known) root with
    | error e =>
      rw [hx] at hrun
      cases hrun
    | ok r =>
      rw [hx] at hrun
      obtain ⟨F', hframe, hpart'⟩ := hpart.of_ok hx
      obtain ⟨G, hframe', hwhole'⟩ := hwhole.of_ok (hmap.trans (by rw [hx]; rfl))
      cases hrun
      have hall : ∀ id, Owned r.2.2 id → id ∈ F' := fun id hid => by
        rcases hframe.covered PartOf.cleanChains id hid with hid' | ⟨hid', hnot⟩
        · exact hid'
        · exact absurd (hown id hid') hnot
      refine ⟨hwhole'.valid, cowOwned_of_part hpart' hall, fun hempty => ?_,
        .of_sees (sees_of_file hv hframe')⟩
      have htree := hpart'.tree
      rw [hempty] at htree
      obtain rfl := htree.empty
      refine List.eq_nil_iff_forall_not_mem.2 fun p hp => ?_
      have hsome := (mem_iff_valueOf (TxPages.Valid.sorted hwhole'.valid)).1 hp
      have hd : isDirty r.2.2.store p.1 = true := by
        rw [TxPages.isDirty_eq, hsome]
        rfl
      have hstale : Owned r.2.2 p.1 :=
        ⟨hd, p.2, PartOf.body_eq_ok.2 ⟨Or.inl hd, TxPages.body_dirty hsome⟩⟩
      exact List.not_mem_nil (hall p.1 hstale)

/-- The theorem in a new file: a key that is put in and taken out leaves no page behind. -/
theorem cow_ownership_two : CowOwned (TxPages.new StaleCursor.noPages) NO_ROOT ∧
    ∀ deleted root' t, runOps 8 [.insert [2] [7], .delete [2]] (TxPages.new StaleCursor.noPages) NO_ROOT
      = .ok (deleted, root', t) → CowOwned t root' ∧ t.dirty = [] := by
  have hempty : TreeOf (TxPages.new StaleCursor.noPages) 0 NO_ROOT [] :=
    ⟨[], Or.inl ⟨rfl, rfl, rfl⟩, List.nodup_nil, le_rfl⟩
  have hpages : StaleCursor.noPages.nPages < 2 ^ 64 := by decide
  obtain ⟨hv, hcow⟩ := cow_ownership.1 StaleCursor.noPages 0 NO_ROOT [] hpages hempty
  refine ⟨hcow, fun deleted root' t hrun => ?_⟩
  obtain ⟨-, hcow', hdirty, -⟩ := (cow_ownership.2 (TxPages.new StaleCursor.noPages) 0 NO_ROOT [] hv hempty hcow
    [.insert [2] [7], .delete [2]] (by simp [MapOp.Sized]) 8 (by decide)).2 deleted root' t hrun
  exact ⟨hcow', hdirty (by decide)⟩

end Btree

end Arkeion
