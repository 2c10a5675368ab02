import Arkeion.BtreeInsert

/-!
Deleting from a tree: the entries afterwards are those of the map without the key. The range
of a node that became empty goes to its neighbour, and a node with one child left gives way
to it.
-/

namespace Arkeion

open Arkeion.Lib

namespace Btree

open NodeSource NodeStore Node LawfulNodeStore

section Delete
variable {σ : Type} [NodeStore σ] [LawfulNodeStore σ] {s : σ} {m n : ℕ} {lo hi : Option Bytes}
  {kvs : Entries} {F : List ℕ} {key : Bytes}

/-- What a deletion leaves: a node with the entries, or none if there are no entries left. -/
def Deleted (s : σ) (m n : ℕ) (lo hi : Option Bytes) (kvs : Entries) (F : List ℕ)
    (r : Option ℕ × Bool × σ) : Prop :=
  ∃ F', Frame s r.2.2 F F' ∧ F'.Nodup ∧ ((r.1 = none ∧ kvs = [] ∧ F' = []) ∨
    ∃ id, r.1 = some id ∧ id < 2 ^ 64 ∧ Holds r.2.2 m n (lo, hi, id) kvs F')

lemma Deleted.of_frame {s₀ : σ} {F₀ : List ℕ} {r : Option ℕ × Bool × σ}
    (h : Deleted s m n lo hi kvs F r) (hf : Frame s₀ s F₀ F) :
    Deleted s₀ m n lo hi kvs F₀ r := by
  obtain ⟨F', hframe, hrest⟩ := h
  exact ⟨F', hf.trans hframe, hrest⟩

/-- A node whose page is freed with what is left of it. -/
lemma frame_freed {s' : σ} {id : ℕ} {b : Bytes} {G G' : List ℕ} (hb : body s' id = .ok b)
    (hf : Frame s s' G (ownPages s' id ++ G')) : Frame s (free s' id) G G' :=
  hf.trans ((frame_free hf.valid hb).append_right G')

/-! ### Leaves -/

/-- A key taken out of a leaf. -/
lemma deleteLeaf_outcome (hv : Valid s) {id : ℕ} {b : Bytes} (hne : id ≠ NO_ROOT)
    (hlt : id < 2 ^ 64) (hb : body s id = .ok b) {cells : List LeafCell}
    (h : LeafHolds s m lo hi b kvs F cells) (hnodup : (ownPages s id ++ F).Nodup) {k : ℕ}
    (hk : m ≤ k) : Outcome (Refused σ) (deleteLeaf k s id b key) fun r =>
      Deleted s m (n + 1) lo hi (eraseKey key kvs) (ownPages s id ++ F) r ∧
      r.2.1 = (valueOf key kvs).isSome := by
  obtain ⟨z, pfx, hshape⟩ := h.leaf
  rw [deleteLeaf, hshape.parseLeaf_eq, ok_bind]
  obtain ⟨pre, post, rfl, hpre, hcase⟩ := binarySearch_cases h.ok.sorted key
  obtain ⟨k₁, k₂, F₁, F₂, rfl, rfl, h₁, h₂⟩ := h.ok.append
  have hk₁ := cat_cells_lt h₁.holds hpre
  rcases hcase with ⟨c, rest, rfl, rfl, hrest, hsearch⟩ | ⟨hpost, hsearch⟩
  · obtain ⟨k₃, k₄, F₃, F₄, rfl, rfl, ⟨w, rfl, -, hw⟩, h₄⟩ := h₂.uncons
    have hk₄ := cat_cells_gt h₄.holds hrest
    rw [eraseKey_middle hk₁ hk₄, valueOf_middle hk₁ hk₄, eraseKey_singleton, valueOf_singleton,
      List.nil_append]
    have hpages : ∀ j ∈ ownPages s id ++ (F₁ ++ F₄), j ∉ F₃ := by grind [List.nodup_append]
    have hnd₄ : (ownPages s id ++ (F₁ ++ F₄)).Nodup := by grind [List.nodup_append]
    obtain ⟨s', hfree, hframe⟩ := freePayload_frame hv hw (by grind [List.nodup_append]) hk
    obtain ⟨hb', hown'⟩ := ownPages_frame hframe hb fun j hj => hpages j (by simp [hj])
    have hf : Frame s s' (ownPages s id ++ (F₁ ++ (F₃ ++ F₄))) (ownPages s' id ++ (F₁ ++ F₄)) := by
      rw [hown']
      refine hframe.beside (ownPages s id ++ (F₁ ++ F₄)) (fun j => ?_) fun j => ?_
      · simp only [List.mem_append]
        tauto
      · simp only [List.mem_append, List.not_mem_nil, false_or]
    have hleft : CellsOk s' m lo hi (pre ++ rest) (k₁ ++ k₄) (F₁ ++ F₄) := by
      have hs := h.ok.sorted
      refine ⟨cat_append.2 ⟨k₁, k₄, F₁, F₄, rfl, rfl,
        (h₁.frame hframe fun j hj => hpages j (by simp [hj])).holds,
        (h₄.frame hframe fun j hj => hpages j (by simp [hj])).holds⟩, fun d hd => ?_, ?_,
        fun d hd => ?_⟩
      · exact h.ok.sized d (by simp only [List.mem_append, List.mem_cons] at hd ⊢; tauto)
      · rw [List.map_append] at hs ⊢
        exact hs.sublist ((List.Sublist.refl _).append (by simp))
      · exact h.ok.range d (by simp only [List.mem_append, List.mem_cons] at hd ⊢; tauto)
    have herase : (pre ++ c :: rest).eraseIdx pre.length = pre ++ rest := by
      rw [List.eraseIdx_append_of_length_le le_rfl, Nat.sub_self, List.eraseIdx_cons_zero]
    simp only [hsearch, freeCell, List.getElem?_append_right le_rfl, Nat.sub_self,
      List.getElem?_cons_zero, okOr_some, ok_bind, hfree, herase]
    rw [← hown'] at hnd₄
    split_ifs with hempty
    · obtain ⟨rfl, rfl⟩ := List.append_eq_nil_iff.1 hempty
      obtain ⟨hkvs, hF⟩ := hleft.holds
      rw [hF] at hf
      rw [hkvs]
      exact ⟨⟨[], frame_freed hb' hf, List.nodup_nil, Or.inl ⟨rfl, rfl, rfl⟩⟩, rfl⟩
    · rcases makeDirty_cases hframe.valid hb' hne hlt with
        ⟨e, he, hrefused⟩ | ⟨id', s₁, he, hown, hf₁⟩
      · rw [he]
        exact Or.inl hrefused
      · simp only [he, ok_bind]
        have hdisj : ∀ j ∈ F₁ ++ F₄, j ∉ ownPages s' id := fun j hj hj' =>
          (List.nodup_append.1 hnd₄).2.2 j hj' j hj rfl
        have hid' : id' ∉ F₁ ++ F₄ := fun hmem => by
          obtain ⟨-, b', hb'⟩ := hleft.owned id' hmem
          exact hf₁.not_mem hb' (hdisj id' hmem) (by simp)
        have hleft₁ := hleft.frame hf₁ hdisj
        rcases encodeInto_cases hf₁.valid hown (fun b' hb' => hleft₁.length_encoded hb') with
          ⟨-, henc⟩ | ⟨b', s₂, hfit, henc, hown₂, hf₂⟩
        · simp only [henc, ok_bind]
          exact Or.inr (Or.inr (Or.inl rfl))
        · simp only [henc, ok_bind, require_pos]
          have hleaf := holds_leaf (n := n) hown₂.ne_root hown₂.lt hown₂.body_eq
            ((hleft₁.frame hf₂ fun j hj => by
              rw [List.mem_singleton]
              rintro rfl
              exact hid' hj).leafHolds hempty (hleft₁.isLeaf hfit))
          rw [hown₂.ownPages_eq] at hleaf
          exact ⟨⟨[id'] ++ (F₁ ++ F₄),
            (hf.trans (hf₁.append_right _)).trans (hf₂.append_right _),
            List.nodup_cons.2 ⟨hid', (List.nodup_append.1 hnd₄).2.1⟩,
            Or.inr ⟨id', rfl, hown₂.lt, hleaf⟩⟩, rfl⟩
  · have hk₂ := cat_cells_gt h₂.holds hpost
    have hne' : ∀ p ∈ k₁ ++ k₂, p.1 ≠ key := fun p hp => by
      rcases List.mem_append.1 hp with hp | hp
      · exact (hk₁ p hp).ne
      · exact (hk₂ p hp).ne'
    rw [eraseKey_of_ne hne', valueOf_eq_none hne']
    simp only [hsearch]
    exact ⟨⟨_, .refl hv _, hnodup, Or.inr ⟨id, rfl, hlt, holds_leaf hne hlt hb h⟩⟩, rfl⟩

/-! ### Inner nodes -/

/-- An inner node written with the children that are left. -/
lemma rewriteInner_outcome (hv : Valid s) {id : ℕ} {b : Bytes} (hne : id ≠ NO_ROOT)
    (hlt : id < 2 ^ 64) (hb : body s id = .ok b) {cells : List InnerCell} {r : ℕ}
    (h : KidsOk s m n lo hi cells r kvs F) (hnodup : (ownPages s id ++ F).Nodup)
    (existed : Bool) : Outcome (Refused σ) (rewriteInner s id cells r existed) fun r =>
      Deleted s m (n + 1) lo hi kvs (ownPages s id ++ F) r ∧ r.2.1 = existed := by
  rw [rewriteInner]
  rcases makeDirty_cases hv hb hne hlt with ⟨e, he, hrefused⟩ | ⟨id', s₁, he, hown, hf₁⟩
  · rw [he]
    exact Or.inl hrefused
  · simp only [he, ok_bind]
    have hdisj : ∀ j ∈ F, j ∉ ownPages s id := fun j hj hj' =>
      (List.nodup_append.1 hnodup).2.2 j hj' j hj rfl
    have hid' : id' ∉ F := fun hmem => by
      obtain ⟨-, b', hb'⟩ := h.owned id' hmem
      exact hf₁.not_mem hb' (hdisj id' hmem) (by simp)
    have h₁ := h.frame hf₁ hdisj
    have hf₁' : Frame s s₁ (ownPages s id ++ F) ([id'] ++ F) := hf₁.append_right F
    rcases encodeInto_cases hf₁.valid hown (fun b' hb' => h₁.length_encoded hb') with
      ⟨-, henc⟩ | ⟨b', s₂, hfit, henc, hown₂, hf₂⟩
    · simp only [henc, ok_bind]
      exact Or.inr (Or.inr (Or.inr rfl))
    · simp only [henc, ok_bind, require_pos]
      have hinner := holds_inner hown₂.ne_root hown₂.lt hown₂.body_eq
        ((h₁.frame hf₂ fun j hj => by
          rw [List.mem_singleton]
          rintro rfl
          exact hid' hj).innerHolds (h₁.isInner hfit))
      rw [hown₂.ownPages_eq] at hinner
      exact ⟨⟨[id'] ++ F, hf₁'.trans (hf₂.append_right F),
        List.nodup_cons.2 ⟨hid', (List.nodup_append.1 hnodup).2.1⟩,
        Or.inr ⟨id', rfl, hown₂.lt, hinner⟩⟩, rfl⟩

omit [LawfulNodeStore σ] in
/-- What is left of the children when one has no entries left. -/
lemma removeChild_ok {b : Bytes} {cells pre post : List InnerCell} {r : ℕ} {k₁ k₂ : Entries}
    {F₁ F₂ : List ℕ} (ha : Around cells key pre post) (hi' : IsInner cells r b)
    (hin : ∀ c ∈ cells, Inside lo hi c.key) (h₁ : Cat (Holds s m n) (leftRanges lo pre) k₁ F₁)
    (h₂ : Cat (Holds s m n) (tailRanges hi r post) k₂ F₂) :
    (removeChild cells r (childIndex cells key) = none ∧ k₁ = [] ∧ k₂ = [] ∧ F₁ = [] ∧ F₂ = []) ∨
    ∃ cells' r', removeChild cells r (childIndex cells key) = some (cells', r') ∧
      KidsOk s m n lo hi cells' r' (k₁ ++ k₂) (F₁ ++ F₂) := by
  rw [removeChild, ha.index]
  have hs := hi'.sorted
  cases post with
  | cons c cs =>
    have heq : cells = pre ++ c :: cs := ha.eq
    subst heq
    refine Or.inr ⟨pre ++ cs, r, ?_, fun d hd => ?_, hi'.rightmost_lt, ?_, fun d hd => ?_, ?_⟩
    · rw [if_pos (by simp), List.eraseIdx_append_of_length_le le_rfl, Nat.sub_self,
        List.eraseIdx_cons_zero]
    · exact hi'.sized d (by simp only [List.mem_append, List.mem_cons] at hd ⊢; tauto)
    · rw [List.map_append] at hs ⊢
      exact hs.sublist ((List.Sublist.refl _).append (by simp))
    · exact hin d (by simp only [List.mem_append, List.mem_cons] at hd ⊢; tauto)
    · rw [childRanges_append]
      refine cat_append.2 ⟨k₁, k₂, F₁, F₂, rfl, rfl, h₁, ?_⟩
      refine cat_childRanges_widen (fun hl hu h => h.widen hl hu) (fun l hl => ?_) (.refl _) h₂
      refine ⟨c.key, rfl, ?_⟩
      rcases lastKey_mem hl with hl | ⟨d, hd, rfl⟩
      · exact ((hin c (by simp)).1 l hl).le
      · rw [List.map_append, List.map_cons, List.pairwise_append] at hs
        exact (hs.2.2 _ (List.mem_map_of_mem hd) _ (by simp)).le
  | nil =>
    have heq : cells = pre := ha.eq.trans (List.append_nil _)
    subst heq
    obtain ⟨rfl, rfl⟩ := h₂
    rw [if_neg (lt_irrefl _)]
    rcases List.eq_nil_or_concat' cells with rfl | ⟨qs, q, rfl⟩
    · obtain ⟨rfl, rfl⟩ := h₁
      exact Or.inl ⟨rfl, rfl, rfl, rfl, rfl⟩
    · refine Or.inr ⟨qs, q.child, by simp, fun d hd => ?_, (hi'.sized q (by simp)).child_lt, ?_,
        fun d hd => ?_, ?_⟩
      · exact hi'.sized d (by simp [hd])
      · rw [List.map_append] at hs
        exact (List.pairwise_append.1 hs).1
      · exact hin d (by simp [hd])
      · rw [leftRanges_append] at h₁
        have hA := childRanges_append lo hi qs [] q.child
        rw [List.append_nil] at hA
        rw [hA, List.append_nil, List.append_nil]
        obtain ⟨k₃, k₄, F₃, F₄, rfl, rfl, h₃, h₄⟩ := cat_append.1 h₁
        refine cat_append.2 ⟨k₃, k₄, F₃, F₄, rfl, rfl, h₃, cat_singleton.2 ?_⟩
        exact (cat_singleton.1 h₄).widen (.refl _) fun u hu =>
          ⟨q.key, rfl, ((hin q (by simp)).2 u hu).le⟩

/-- The node after one child was replaced or taken out. -/
lemma deleteInner_outcome (hv : Valid s) {id : ℕ} {b : Bytes} (hne : id ≠ NO_ROOT)
    (hlt : id < 2 ^ 64) (hb : body s id = .ok b) {cells pre post : List InnerCell} {r : ℕ}
    (hi' : IsInner cells r b) (hin : ∀ c ∈ cells, Inside lo hi c.key)
    (ha : Around cells key pre post) {k₁ kc k₂ : Entries} {F₁ Fc F₂ : List ℕ}
    (h₁ : Cat (Holds s m n) (leftRanges lo pre) k₁ F₁)
    (h₂ : Cat (Holds s m n) (tailRanges hi r post) k₂ F₂) {new_child : Option ℕ}
    (hnew : (new_child = none ∧ kc = [] ∧ Fc = []) ∨ ∃ cid, new_child = some cid ∧
      cid < 2 ^ 64 ∧ Holds s m n (lastKey lo pre, headUp hi post, cid) kc Fc)
    (hnodup : (ownPages s id ++ (F₁ ++ (Fc ++ F₂))).Nodup) (existed : Bool) :
    Outcome (Refused σ) (deleteInner s id key new_child existed) fun r =>
      Deleted s m (n + 1) lo hi (k₁ ++ (kc ++ k₂)) (ownPages s id ++ (F₁ ++ (Fc ++ F₂))) r ∧
      r.2.1 = existed := by
  rw [deleteInner]
  simp only [hb, ok_bind, hi'.parseInner_eq]
  rcases hnew with ⟨rfl, rfl, rfl⟩ | ⟨cid, rfl, hcid, hchild⟩
  · rcases removeChild_ok ha hi' hin h₁ h₂ with
      ⟨hnone, rfl, rfl, rfl, rfl⟩ | ⟨cells', r', hsome, hkids⟩
    · simp only [hnone]
      exact ⟨⟨[], by simpa using frame_free hv hb, List.nodup_nil, Or.inl ⟨rfl, rfl, rfl⟩⟩, rfl⟩
    · simp only [hsome, List.nil_append] at hnodup ⊢
      split_ifs with hempty
      · subst hempty
        have hr := cat_singleton.1 hkids.kids
        have hdisj : ∀ j ∈ F₁ ++ F₂, j ∉ ownPages s id := fun j hj hj' =>
          (List.nodup_append.1 hnodup).2.2 j hj' j hj rfl
        have hfree := frame_free hv hb
        exact ⟨⟨F₁ ++ F₂, hfree.append_right _, (List.nodup_append.1 hnodup).2.1,
          Or.inr ⟨r', rfl, hkids.rightmost_lt, (hr.frame hfree hdisj).mono le_rfl
            (Nat.le_succ n)⟩⟩, rfl⟩
      · exact rewriteInner_outcome hv hne hlt hb hkids hnodup existed
  · have hplace : setChild cells r (childIndex cells key) cid = placeChild cells r key cid none :=
      rfl
    simp only [hplace, ha.placeChild_eq]
    obtain ⟨hsz, hr, hs, hin'⟩ := ha.placed_ok hi' hin (.single hcid)
    have hkids : KidsOk s m n lo hi (pre ++ placedPost cid none post) (placedRightmost r cid none post)
        (k₁ ++ (kc ++ k₂)) (F₁ ++ (Fc ++ F₂)) := by
      refine ⟨hsz, hr, hs, hin', ?_⟩
      rw [childRanges_placed]
      exact cat_append.2 ⟨k₁, kc ++ k₂, F₁, Fc ++ F₂, rfl, rfl, h₁,
        cat_append.2 ⟨kc, k₂, Fc, F₂, rfl, rfl, cat_singleton.2 hchild, h₂⟩⟩
    exact rewriteInner_outcome hv hne hlt hb hkids hnodup existed

/-! ### The way down and back -/

/-- A key taken out of a tree. -/
lemma deleteRec_outcome {k id : ℕ} (hv : Valid s) (h : Holds s m n (lo, hi, id) kvs F)
    (hnodup : F.Nodup) (hk : n + m ≤ k) :
    Outcome (Refused σ) (deleteRec key k s id) fun r =>
      Deleted s m n lo hi (eraseKey key kvs) F r ∧ r.2.1 = (valueOf key kvs).isSome := by
  induction n generalizing k lo hi id kvs F with
  | zero => exact absurd h (fun h => h)
  | succ n ih =>
    obtain ⟨k, rfl⟩ : ∃ k', k = k' + 1 := ⟨k - 1, by omega⟩
    rw [deleteRec]
    obtain ⟨hne, hlt, b, F', hb, rfl, ⟨cells, hl⟩ | ⟨cells, r, hi'⟩⟩ := h
    · obtain ⟨z, pfx, hshape⟩ := hl.leaf
      simp only [hb, ok_bind, hshape.nodeType_eq, if_true]
      exact deleteLeaf_outcome hv hne hlt hb hl hnodup (by omega)
    · obtain ⟨pre, post, ha⟩ := exists_around hi'.inner.sorted key
      obtain ⟨k₁, kc, k₂, F₁, Fc, F₂, rfl, rfl, h₁, hchild, h₂, hlt₁, hgt₂⟩ := hi'.around ha
      have hneq : ¬ TYPE_INNER = TYPE_LEAF := by decide
      simp only [hb, ok_bind, hi'.inner.nodeType_eq, if_neg hneq, if_true,
        hi'.inner.innerChild_eq, ha.childAt_eq]
      refine (ih hchild (by grind [List.nodup_append]) (by omega)).bind ?_
      rintro ⟨new_child, existed, s'⟩ - ⟨⟨F'', hf, hnd, hnew⟩, hexisted⟩
      dsimp only at hf hnew hexisted ⊢
      rw [eraseKey_middle hlt₁ hgt₂, valueOf_middle hlt₁ hgt₂, ← hexisted]
      have howned : ∀ j ∈ ownPages s id ++ (F₁ ++ F₂), Owned s j := by
        intro j hj
        rcases List.mem_append.1 hj with hj | hj
        · exact owned_ownPages hb j hj
        · rcases List.mem_append.1 hj with hj | hj
          · exact h₁.forall_pages (fun _ _ _ _ hc => hc.owned) j hj
          · exact h₂.forall_pages (fun _ _ _ _ hc => hc.owned) j hj
      have hnodup' : (ownPages s id ++ (F₁ ++ (Fc ++ F₂)) ++ []).Nodup := by simpa using hnodup
      obtain ⟨hf', hnd', hdisj⟩ := exchange_frame hnodup' howned (by simpa using hf) hnd
      simp only [List.append_nil] at hf' hdisj
      obtain ⟨hb', hown'⟩ := ownPages_frame hf hb fun j hj => hdisj j (by simp [hj])
      have h₁' := h₁.imp fun _ _ _ G hG hc => hc.frame hf fun j hj => hdisj j (by simp [hG hj])
      have h₂' := h₂.imp fun _ _ _ G hG hc => hc.frame hf fun j hj => hdisj j (by simp [hG hj])
      split_ifs with hsame
      · obtain ⟨hnone, -, -⟩ | ⟨cid, hcid, -, hholds⟩ := hnew
        · rw [hsame] at hnone
          cases hnone
        · rw [hsame] at hcid
          cases hcid
          have hinner := holds_inner (n := n) hne hlt hb' (⟨hi'.inner, hi'.inside, by
            rw [ha.childRanges_eq]
            exact cat_append.2 ⟨k₁, _, F₁, _, rfl, rfl, h₁', _, k₂, F'', F₂, rfl, rfl, hholds, h₂'⟩⟩ :
              InnerHolds (Holds s' m n) lo hi b _ _ cells r)
          rw [hown'] at hinner
          exact ⟨⟨_, hf', hnd', Or.inr ⟨id, rfl, hlt, hinner⟩⟩, rfl⟩
      · rw [← hown'] at hnd'
        refine (deleteInner_outcome hf.valid hne hlt hb' hi'.inner hi'.inside ha h₁' h₂' hnew hnd'
          existed).imp fun _ _ h => ⟨h.1.of_frame ?_, h.2⟩
        rw [hown']
        exact hf'

/-- A key taken out of a whole tree, and whether it was there. -/
lemma delete_outcome {k root : ℕ} (hv : Valid s) (h : TreeHolds s m n root kvs F)
    (hnodup : F.Nodup) (hk : n + m ≤ k) :
    Outcome (Refused σ) (delete k s root key) fun r => ∃ F', Frame s r.2.2 F F' ∧ F'.Nodup ∧
      TreeHolds r.2.2 m n r.1 (eraseKey key kvs) F' ∧ r.2.1 = (valueOf key kvs).isSome := by
  rw [delete]
  split_ifs with hroot
  · rcases h with ⟨-, rfl, rfl⟩ | h
    · exact ⟨[], .refl hv _, List.nodup_nil, Or.inl ⟨rfl, rfl, rfl⟩, rfl⟩
    · cases n with
      | zero => exact absurd h (fun h => h)
      | succ n => exact absurd hroot h.1
  · have h₀ : Holds s m n (none, none, root) kvs F := by
      rcases h with ⟨hnone, -, -⟩ | h
      · exact absurd hnone hroot
      · exact h
    refine (deleteRec_outcome hv h₀ hnodup hk).bind ?_
    rintro ⟨new_root, existed, s'⟩ - ⟨⟨F', hf, hnd, hnew⟩, hexisted⟩
    refine ⟨F', hf, hnd, ?_, hexisted⟩
    rcases hnew with ⟨rfl, hkvs, hF⟩ | ⟨id, rfl, -, hholds⟩
    · exact Or.inl ⟨rfl, hkvs, hF⟩
    · exact Or.inr hholds

end Delete

end Btree

end Arkeion
