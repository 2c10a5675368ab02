import Arkeion.BtreeChain

/-!
Inserting into a tree: the entries afterwards are those of the map with the key put in, unless
the store refuses a page or an assertion on the size of a node fires.
-/

namespace Arkeion

open Arkeion.Lib

namespace Btree

open NodeSource NodeStore Node LawfulNodeStore

/-- The store refuses a page, or an assertion on the size of a node fires. -/
def Refused (σ : Type) [NodeStore σ] [LawfulNodeStore σ] (e : Error) : Prop :=
  AllocError σ e ∨ e = SPLIT_FITS ∨ e = LEAF_SHRINKS ∨ e = INNER_SHRINKS

/-! ### Where a split is made -/

lemma splitPointAux_bounds {α : Type} (size : α → ℕ) {total n i acc : ℕ} (l : List α)
    (hn : 2 ≤ n) : 1 ≤ splitPointAux size total n i acc l ∧
      splitPointAux size total n i acc l ≤ n - 1 := by
  induction l generalizing i acc with
  | nil => rw [splitPointAux]; omega
  | cons c l ih =>
    rw [splitPointAux]
    split_ifs
    · omega
    · exact ih

lemma splitPoint_bounds {α : Type} (size : α → ℕ) {cells : List α} (hn : 2 ≤ cells.length) :
    1 ≤ splitPoint size cells ∧ splitPoint size cells ≤ cells.length - 1 :=
  splitPointAux_bounds size cells hn

lemma splitPoint_lt {α : Type} (size : α → ℕ) {cells : List α} (hne : cells ≠ []) :
    splitPoint size cells < cells.length := by
  have hpos := List.length_pos_iff.2 hne
  rcases Nat.lt_or_ge cells.length 2 with hlt | hge
  · obtain ⟨c, rfl⟩ := List.length_eq_one_iff.1 (by omega : cells.length = 1)
    rw [splitPoint]
    simp only [splitPointAux, List.length_singleton]
    split_ifs <;> decide
  · have := splitPoint_bounds size hge
    omega

/-! ### The cells of a leaf, ready to be encoded -/

section Cells
variable {σ : Type} [NodeStore σ] {s : σ} {m : ℕ} {lo hi : Option Bytes} {cells : List LeafCell}
  {kvs : Entries} {F : List ℕ}

/-- Cells in order that stand for the entries. -/
structure CellsOk (s : σ) (m : ℕ) (lo hi : Option Bytes) (cells : List LeafCell) (kvs : Entries)
    (F : List ℕ) : Prop where
  holds : Cat (CellHolds s m) cells kvs F
  sized : ∀ c ∈ cells, CellSized c
  sorted : (cells.map LeafCell.key).Pairwise (· < ·)
  range : ∀ c ∈ cells, InRange lo hi c.key

lemma LeafHolds.ok {b : Bytes} (h : LeafHolds s m lo hi b kvs F cells) :
    CellsOk s m lo hi cells kvs F := by
  obtain ⟨z, pfx, hshape⟩ := h.leaf
  exact ⟨h.cells, hshape.sized, hshape.sorted, h.range⟩

namespace CellsOk

lemma isLeaf (h : CellsOk s m lo hi cells kvs F) {b : Bytes}
    (he : encodeLeaf cells BODY_SIZE = some b) : IsLeaf cells b :=
  isLeaf_of_encodeLeaf h.sized h.sorted he

lemma length_encoded (h : CellsOk s m lo hi cells kvs F) {b : Bytes}
    (he : encodeLeaf cells BODY_SIZE = some b) : b.length = BODY_SIZE := by
  obtain ⟨z, pfx, hshape⟩ := h.isLeaf he
  exact hshape.layout.length

lemma leafHolds (h : CellsOk s m lo hi cells kvs F) (hne : cells ≠ []) {b : Bytes}
    (hb : IsLeaf cells b) : LeafHolds s m lo hi b kvs F cells :=
  ⟨hb, hne, h.range, h.holds⟩

lemma owned (h : CellsOk s m lo hi cells kvs F) : ∀ id ∈ F, Owned s id :=
  h.holds.forall_pages fun _ _ _ _ hc => hc.owned

/-- One cell always fits, so cells that do not are at least two. -/
lemma two_le (h : CellsOk s m lo hi cells kvs F) (hne : cells ≠ [])
    (hnone : encodeLeaf cells BODY_SIZE = none) : 2 ≤ cells.length := by
  have hpos := List.length_pos_iff.2 hne
  by_contra hlt
  obtain ⟨c, rfl⟩ := List.length_eq_one_iff.1 (by omega : cells.length = 1)
  obtain ⟨v, -, hsize, -⟩ := cat_singleton.1 h.holds
  obtain ⟨b, hb⟩ := encodeLeaf_single hsize
  rw [hnone] at hb
  cases hb

/-- The cells before and from one of them. -/
lemma split {A B : List LeafCell} {c : LeafCell}
    (h : CellsOk s m lo hi (A ++ c :: B) kvs F) (hA : A ≠ []) :
    Inside lo hi c.key ∧ ∃ k₁ k₂ F₁ F₂, kvs = k₁ ++ k₂ ∧ F = F₁ ++ F₂ ∧
      CellsOk s m lo (some c.key) A k₁ F₁ ∧ CellsOk s m (some c.key) hi (c :: B) k₂ F₂ := by
  have hs := h.sorted
  rw [List.map_append, List.map_cons, List.pairwise_append, List.pairwise_cons] at hs
  obtain ⟨hsA, ⟨hcB, hsB⟩, hAB⟩ := hs
  have hlt : ∀ a ∈ A, a.key < c.key := fun a ha =>
    hAB _ (List.mem_map_of_mem ha) _ (by simp)
  obtain ⟨a, ha⟩ := List.exists_mem_of_ne_nil A hA
  obtain ⟨k₁, k₂, F₁, F₂, rfl, rfl, h₁, h₂⟩ := cat_append.1 h.holds
  refine ⟨⟨fun l hl => ((h.range a (by simp [ha])).1 l hl).trans_lt (hlt a ha),
    (h.range c (by simp)).2⟩, k₁, k₂, F₁, F₂, rfl, rfl,
    ⟨h₁, fun d hd => h.sized d (by simp [hd]), hsA, fun d hd =>
      ⟨(h.range d (by simp [hd])).1, fun u hu => by cases hu; exact hlt d hd⟩⟩,
    ⟨h₂, fun d hd => h.sized d (List.mem_append_right _ hd), List.pairwise_cons.2 ⟨hcB, hsB⟩,
      fun d hd => ⟨fun l hl => ?_, (h.range d (List.mem_append_right _ hd)).2⟩⟩⟩
  cases hl
  rcases List.mem_cons.1 hd with rfl | hd
  · exact le_rfl
  · exact (hcB _ (List.mem_map_of_mem hd)).le

/-- A cell between cells with keys below and above. -/
lemma insert {pre post : List LeafCell} {c : LeafCell} {k₁ k₂ kc : Entries} {F₁ F₂ Fc : List ℕ}
    (hpre : CellsOk s m lo hi pre k₁ F₁) (hpost : CellsOk s m lo hi post k₂ F₂)
    (hc : CellHolds s m c kc Fc) (hsized : CellSized c) (hrange : InRange lo hi c.key)
    (hlt : ∀ d ∈ pre, d.key < c.key) (hgt : ∀ d ∈ post, c.key < d.key) :
    CellsOk s m lo hi (pre ++ c :: post) (k₁ ++ (kc ++ k₂)) (F₁ ++ (Fc ++ F₂)) where
  holds := cat_append.2 ⟨k₁, kc ++ k₂, F₁, Fc ++ F₂, rfl, rfl, hpre.holds,
    cat_cons.2 ⟨kc, k₂, Fc, F₂, rfl, rfl, hc, hpost.holds⟩⟩
  sized d hd := by
    rcases List.mem_append.1 hd with hd | hd
    · exact hpre.sized d hd
    · rcases List.mem_cons.1 hd with rfl | hd
      · exact hsized
      · exact hpost.sized d hd
  sorted := by
    rw [List.map_append, List.map_cons, List.pairwise_append, List.pairwise_cons]
    refine ⟨hpre.sorted, ⟨fun k hk => ?_, hpost.sorted⟩, fun a ha k hk => ?_⟩
    · obtain ⟨d, hd, rfl⟩ := List.mem_map.1 hk
      exact hgt d hd
    · obtain ⟨d, hd, rfl⟩ := List.mem_map.1 ha
      rcases List.mem_cons.1 hk with rfl | hk
      · exact hlt d hd
      · obtain ⟨e, he, rfl⟩ := List.mem_map.1 hk
        exact (hlt d hd).trans (hgt e he)
  range d hd := by
    rcases List.mem_append.1 hd with hd | hd
    · exact hpre.range d hd
    · rcases List.mem_cons.1 hd with rfl | hd
      · exact hrange
      · exact hpost.range d hd

/-- The cells before some place and those from it on. -/
lemma append {pre post : List LeafCell} (h : CellsOk s m lo hi (pre ++ post) kvs F) :
    ∃ k₁ k₂ F₁ F₂, kvs = k₁ ++ k₂ ∧ F = F₁ ++ F₂ ∧ CellsOk s m lo hi pre k₁ F₁ ∧
      CellsOk s m lo hi post k₂ F₂ := by
  have hs := h.sorted
  rw [List.map_append, List.pairwise_append] at hs
  obtain ⟨k₁, k₂, F₁, F₂, rfl, rfl, h₁, h₂⟩ := cat_append.1 h.holds
  exact ⟨k₁, k₂, F₁, F₂, rfl, rfl,
    ⟨h₁, fun d hd => h.sized d (by simp [hd]), hs.1, fun d hd => h.range d (by simp [hd])⟩,
    ⟨h₂, fun d hd => h.sized d (by simp [hd]), hs.2.1, fun d hd => h.range d (by simp [hd])⟩⟩

/-- The first cell and the others. -/
lemma uncons {c : LeafCell} {post : List LeafCell} (h : CellsOk s m lo hi (c :: post) kvs F) :
    ∃ k₁ k₂ F₁ F₂, kvs = k₁ ++ k₂ ∧ F = F₁ ++ F₂ ∧ CellHolds s m c k₁ F₁ ∧
      CellsOk s m lo hi post k₂ F₂ := by
  have hs := h.sorted
  rw [List.map_cons, List.pairwise_cons] at hs
  obtain ⟨k₁, k₂, F₁, F₂, rfl, rfl, h₁, h₂⟩ := h.holds
  exact ⟨k₁, k₂, F₁, F₂, rfl, rfl, h₁,
    ⟨h₂, fun d hd => h.sized d (by simp [hd]), hs.2, fun d hd => h.range d (by simp [hd])⟩⟩

lemma frame [LawfulNodeStore σ] {s' : σ} {G G' : List ℕ} (hf : Frame s s' G G')
    (h : CellsOk s m lo hi cells kvs F) (hd : ∀ id ∈ F, id ∉ G) :
    CellsOk s' m lo hi cells kvs F :=
  ⟨h.holds.imp fun _ _ _ _ hH hc => hc.frame hf fun id hid => hd id (hH hid), h.sized, h.sorted,
    h.range⟩

end CellsOk

/-- Where a key is among cells in order. -/
lemma binarySearch_cases (hs : (cells.map LeafCell.key).Pairwise (· < ·)) (key : Bytes) :
    ∃ pre post, cells = pre ++ post ∧ (∀ c ∈ pre, c.key < key) ∧
      ((∃ c rest, post = c :: rest ∧ c.key = key ∧ (∀ d ∈ rest, key < d.key) ∧
        binarySearch cells key = .ok pre.length) ∨
      (∀ d ∈ post, key < d.key) ∧ binarySearch cells key = .error pre.length) := by
  obtain ⟨pre, post, rfl, hpre, hpost, hpt⟩ :=
    exists_partition (fun c : LeafCell => decide (c.key < key)) cells
  refine ⟨pre, post, rfl, fun c hc => by simpa using hpre c hc, ?_⟩
  rw [List.map_append, List.pairwise_append] at hs
  cases post with
  | nil =>
    refine Or.inr ⟨by simp, ?_⟩
    rw [List.append_nil] at hpt ⊢
    simp only [binarySearch, hpt, List.getElem?_length]
  | cons c rest =>
    have hge : key ≤ c.key := by simpa using hpost c (by simp)
    have hrest : ∀ d ∈ rest, c.key < d.key := fun d hd =>
      (List.pairwise_cons.1 hs.2.1).1 _ (List.mem_map_of_mem hd)
    have hget : (pre ++ c :: rest)[pre.length]? = some c := by simp
    by_cases heq : c.key = key
    · refine Or.inl ⟨c, rest, rfl, heq, fun d hd => heq ▸ hrest d hd, ?_⟩
      simp only [binarySearch, hpt, hget, if_pos heq]
    · have hlt : key < c.key := lt_of_le_of_ne hge (Ne.symm heq)
      refine Or.inr ⟨fun d hd => ?_, ?_⟩
      · rcases List.mem_cons.1 hd with rfl | hd
        · exact hlt
        · exact hlt.trans (hrest d hd)
      · simp only [binarySearch, hpt, hget, if_neg heq]

/-- The entries of cells before, at and behind a key. -/
lemma cat_cells_lt {pre : List LeafCell} {key : Bytes} (h : Cat (CellHolds s m) pre kvs F)
    (hpre : ∀ c ∈ pre, c.key < key) : ∀ p ∈ kvs, p.1 < key :=
  h.forall_entries fun c hc k G hk p hp => by
    obtain ⟨v, rfl, -, -⟩ := hk
    rw [List.mem_singleton.1 hp]
    exact hpre c hc

lemma cat_cells_gt {post : List LeafCell} {key : Bytes} (h : Cat (CellHolds s m) post kvs F)
    (hpost : ∀ c ∈ post, key < c.key) : ∀ p ∈ kvs, key < p.1 :=
  h.forall_entries fun c hc k G hk p hp => by
    obtain ⟨v, rfl, -, -⟩ := hk
    rw [List.mem_singleton.1 hp]
    exact hpost c hc

end Cells

section Insert
variable {σ : Type} [NodeStore σ] [LawfulNodeStore σ] {s : σ} {m n : ℕ} {lo hi : Option Bytes}
  {kvs : Entries} {F : List ℕ} {key v : Bytes} {payload : Payload}

/-- One part of some pages given for another. -/
lemma nodup_exchange {A B C D : List ℕ} (h : (A ++ (B ++ C) ++ D).Nodup) :
    (A ++ (D ++ C)).Nodup ∧ B.Nodup ∧ (∀ x ∈ A, x ∉ B) ∧ (∀ x ∈ C, x ∉ B) ∧ ∀ x ∈ D, x ∉ B := by
  grind [List.nodup_append]

lemma modify_length {α : Type} (pre rest : List α) (a : α) (f : α → α) :
    (pre ++ a :: rest).modify pre.length f = pre ++ f a :: rest := by
  induction pre with
  | nil => rfl
  | cons b pre ih => simpa using ih

/-- The cell goes in among the others, or takes the place of the one under its key, whose
chain is freed. -/
lemma putCell_ok (hv : Valid s) {cells : List LeafCell} {Fp : List ℕ}
    (h : CellsOk s m lo hi cells kvs F) (hp : PayloadHolds s m payload v Fp)
    (hnodup : (F ++ Fp).Nodup) (hc : CellSized ⟨key, payload⟩)
    (hsize : leafCellSize ⟨key, payload⟩ ≤ MAX_INLINE_CELL) (hrange : InRange lo hi key)
    (hn : m ≤ n) : ∃ cells' appended s' F',
      putCell n s cells key payload = .ok (cells', appended, s') ∧
      Frame s s' (F ++ Fp) F' ∧ F'.Nodup ∧
      CellsOk s' m lo hi cells' (insertKey key v kvs) F' ∧ cells' ≠ [] := by
  obtain ⟨pre, post, rfl, hpre, hcase⟩ := binarySearch_cases h.sorted key
  obtain ⟨k₁, k₂, F₁, F₂, rfl, rfl, h₁, h₂⟩ := h.append
  have hk₁ := cat_cells_lt h₁.holds hpre
  rcases hcase with ⟨c, rest, rfl, rfl, hrest, hsearch⟩ | ⟨hpost, hsearch⟩
  · obtain ⟨k₃, k₄, F₃, F₄, rfl, rfl, ⟨w, rfl, -, hw⟩, h₄⟩ := h₂.uncons
    obtain ⟨hnodup', hfreed, hd₁, hd₄, hdp⟩ := nodup_exchange hnodup
    obtain ⟨s', hfree, hframe⟩ := freePayload_frame hv hw hfreed hn
    refine ⟨pre ++ ⟨c.key, payload⟩ :: rest, false, s', F₁ ++ (Fp ++ F₄), ?_, ?_, hnodup', ?_,
      by simp⟩
    · simp only [putCell, hsearch, freeCell, List.getElem?_append_right le_rfl, Nat.sub_self,
        List.getElem?_cons_zero, okOr_some, ok_bind, hfree, modify_length]
    · refine hframe.beside (F₁ ++ F₄ ++ Fp) (fun j => ?_) fun j => ?_
      · simp only [List.mem_append]
        tauto
      · simp only [List.mem_append, List.not_mem_nil]
        tauto
    · rw [insertKey_append hk₁, List.singleton_append, insertKey_cons_eq]
      exact (h₁.frame hframe hd₁).insert (h₄.frame hframe hd₄)
        ⟨v, rfl, hsize, hp.frame hframe hdp⟩ hc hrange hpre hrest
  · refine ⟨pre ++ ⟨key, payload⟩ :: post, decide (pre.length = (pre ++ post).length), s,
      F₁ ++ (Fp ++ F₂), ?_, ?_, ?_, ?_, by simp⟩
    · simp only [putCell, hsearch, insertIdx_length]
    · refine (Frame.refl hv []).beside (F₁ ++ F₂ ++ Fp) (fun j => by simp) fun j => ?_
      simp only [List.mem_append, List.not_mem_nil]
      tauto
    · exact (@nodup_exchange F₁ [] F₂ Fp hnodup).1
    · rw [insertKey_append hk₁, insertKey_of_gt (cat_cells_gt h₂.holds hpost)]
      exact h₁.insert h₂ ⟨v, rfl, hsize, hp⟩ hc hrange hpre hpost

/-! ### Splits -/

/-- Both halves are written, the right one to a new page. -/
lemma writeHalves_outcome (hv : Valid s) {id : ℕ} {b : Bytes} (hown : OwnPage s id b)
    {right left : ℕ → Option Bytes}
    (hright : ∀ b', right BODY_SIZE = some b' → b'.length = BODY_SIZE)
    (hleft : ∀ b', left BODY_SIZE = some b' → b'.length = BODY_SIZE) :
    Outcome (Refused σ) (writeHalves s id right left) fun r => ∃ br bl,
      right BODY_SIZE = some br ∧ left BODY_SIZE = some bl ∧ OwnPage r.2 r.1 br ∧
      OwnPage r.2 id bl ∧ r.1 ≠ id ∧ Frame s r.2 [id] [id, r.1] := by
  rw [writeHalves]
  rcases alloc_cases hv with ⟨e, he, hrefused⟩ | ⟨rid, s₁, b₁, he, hown₁, hf₁⟩
  · rw [he]
    exact Or.inl hrefused
  · simp only [he, ok_bind]
    have hne : rid ≠ id := fun heq => hf₁.not_mem hown.body_eq (by simp) (by simp [heq])
    have hown' := hown.keep hf₁ (by simp)
    rcases encodeInto_cases hf₁.valid hown₁ hright with
      ⟨-, hnone⟩ | ⟨br, s₂, hbr, he₂, hown₂, hf₂⟩
    · simp only [hnone, ok_bind]
      exact Or.inr (Or.inl rfl)
    · simp only [he₂, ok_bind, require_pos]
      have hown'' := hown'.keep hf₂ (by simpa using hne.symm)
      rcases encodeInto_cases hf₂.valid hown'' hleft with
        ⟨-, hnone⟩ | ⟨bl, s₃, hbl, he₃, hown₃, hf₃⟩
      · simp only [hnone, ok_bind]
        exact Or.inr (Or.inl rfl)
      · simp only [he₃, ok_bind, require_pos]
        have hown₂' := hown₂.keep hf₃ (by simpa using hne)
        refine ⟨br, bl, hbr, hbl, hown₂', hown₃, hne, ?_⟩
        have h₂ : Frame s s₂ [id] [id, rid] :=
          (hf₁.trans hf₂).beside [id] (by simp) (by simp [or_comm])
        exact h₂.trans (hf₃.append_right [rid])

/-- What an insertion gives: a node, or two, with the new entries. -/
def Inserted (s : σ) (m n : ℕ) (lo hi : Option Bytes) (kvs : Entries) (F : List ℕ)
    (r : InsertOutcome × σ) : Prop :=
  ∃ F', Frame s r.2 F F' ∧ F'.Nodup ∧ SplitOk lo hi r.1.id r.1.split ∧
    Cat (Holds r.2 m n) (pieces lo hi r.1.id r.1.split) kvs F'

lemma Inserted.of_frame {s₀ : σ} {F₀ : List ℕ} {r : InsertOutcome × σ}
    (h : Inserted s m n lo hi kvs F r) (hf : Frame s₀ s F₀ F) :
    Inserted s₀ m n lo hi kvs F₀ r := by
  obtain ⟨F', hframe, hrest⟩ := h
  exact ⟨F', hf.trans hframe, hrest⟩

lemma SplitOk.single {id : ℕ} (h : id < 2 ^ 64) : SplitOk lo hi id none :=
  ⟨h, by simp, by simp, by simp, by simp⟩

/-- One node in place of the old one. -/
lemma Inserted.single {s' : σ} {id : ℕ} {tail : Option Tail} {F' : List ℕ} (hlt : id < 2 ^ 64)
    (hf : Frame s s' F F') (hnodup : F'.Nodup) (h : Holds s' m n (lo, hi, id) kvs F') :
    Inserted s m n lo hi kvs F (⟨id, none, tail⟩, s') :=
  ⟨F', hf, hnodup, .single hlt, cat_singleton.2 h⟩

lemma Inserted.pair {s' : σ} {id right : ℕ} {sep : Bytes} {tail : Option Tail}
    {k₁ k₂ : Entries} {F₁ F₂ : List ℕ} (hid : id < 2 ^ 64) (hright : right < 2 ^ 64)
    (hpos : 0 < sep.length) (hle : sep.length ≤ MAX_KEY_LEN) (hin : Inside lo hi sep)
    (hf : Frame s s' F (F₁ ++ F₂)) (hnodup : (F₁ ++ F₂).Nodup)
    (h₁ : Holds s' m n (lo, some sep, id) k₁ F₁) (h₂ : Holds s' m n (some sep, hi, right) k₂ F₂) :
    Inserted s m n lo hi (k₁ ++ k₂) F (⟨id, some (sep, right), tail⟩, s') := by
  refine ⟨F₁ ++ F₂, hf, hnodup, ⟨hid, ?_, ?_, ?_, ?_⟩,
    cat_cons.2 ⟨k₁, k₂, F₁, F₂, rfl, rfl, h₁, cat_singleton.2 h₂⟩⟩
  all_goals
    intro x hx
    cases hx
    assumption

/-- The pages of the halves of a node. -/
lemma halves_frame {s' : σ} {id right : ℕ} {F₁ F₂ : List ℕ} (hne : right ≠ id)
    (hf : Frame s s' [id] [id, right])
    (howned : ∀ j ∈ id :: (F₁ ++ F₂), Owned s j) (hnodup : (id :: (F₁ ++ F₂)).Nodup) :
    Frame s s' (id :: (F₁ ++ F₂)) (([id] ++ F₁) ++ ([right] ++ F₂)) ∧
      (([id] ++ F₁) ++ ([right] ++ F₂)).Nodup := by
  have hnot : right ∉ F₁ ++ F₂ := fun hmem => by
    obtain ⟨-, b, hb⟩ := howned right (List.mem_cons_of_mem _ hmem)
    exact hf.not_mem hb (by simpa using hne) (by simp)
  refine ⟨hf.beside (F₁ ++ F₂) (by simp) fun j => ?_, ?_⟩
  · simp only [List.mem_append, List.mem_cons, List.not_mem_nil, or_false]
    tauto
  · grind [List.nodup_append]

/-- A leaf that does not fit any more is split. -/
lemma splitLeaf_outcome (hv : Valid s) {id : ℕ} {b : Bytes} (hown : OwnPage s id b)
    {cells : List LeafCell} (h : CellsOk s m lo hi cells kvs F) (hne : cells ≠ [])
    (hnone : encodeLeaf cells BODY_SIZE = none) (hnodup : (id :: F).Nodup) (appended : Bool) :
    Outcome (Refused σ) (splitLeaf s id cells appended)
      (Inserted s m (n + 1) lo hi kvs (id :: F)) := by
  have htwo := h.two_le hne hnone
  rw [splitLeaf]
  set sp := if appended then cells.length - 1 else splitPoint leafCellSize cells with hsp
  have hbounds : 1 ≤ sp ∧ sp < cells.length := by
    have := splitPoint_bounds leafCellSize htwo
    rw [hsp]
    split_ifs <;> omega
  obtain ⟨c, B, hdrop⟩ := List.exists_cons_of_ne_nil (l := cells.drop sp) (by
    rw [ne_eq, List.drop_eq_nil_iff]; omega)
  have htake : cells.take sp ≠ [] := by
    rw [ne_eq, List.take_eq_nil_iff]
    rintro (h0 | h0)
    · omega
    · exact hne h0
  have hsplit : cells = cells.take sp ++ c :: B := by rw [← hdrop, List.take_append_drop]
  obtain ⟨hinside, k₁, k₂, F₁, F₂, rfl, rfl, h₁, h₂⟩ := (hsplit ▸ h : CellsOk s m lo hi
    (cells.take sp ++ c :: B) kvs F).split htake
  have hc := h.sized c (by rw [hsplit]; simp)
  simp only [hdrop, List.head?_cons, Option.map_some, okOr_some, ok_bind]
  refine (writeHalves_outcome hv hown (fun b' hb' => h₂.length_encoded hb')
    (fun b' hb' => h₁.length_encoded hb')).bind ?_
  rintro ⟨right, s'⟩ - ⟨br, bl, hbr, hbl, hownr, hownl, hrid, hframe⟩
  have howned : ∀ j ∈ id :: (F₁ ++ F₂), Owned s j := by
    intro j hj
    rcases List.mem_cons.1 hj with rfl | hj
    · exact ⟨hown.dirty, b, hown.body_eq⟩
    · exact h.owned j hj
  obtain ⟨hf, hnd⟩ := halves_frame hrid hframe howned hnodup
  have hid := (List.nodup_cons.1 hnodup).1
  have hl := holds_leaf (n := n) hown.ne_root hown.lt hownl.body_eq
    ((h₁.frame hframe fun j hj => by
      rw [List.mem_singleton]
      rintro rfl
      exact hid (by simp [hj])).leafHolds htake (h₁.isLeaf hbl))
  have hr := holds_leaf (n := n) hownr.ne_root hownr.lt hownr.body_eq
    ((h₂.frame hframe fun j hj => by
      rw [List.mem_singleton]
      rintro rfl
      exact hid (by simp [hj])).leafHolds (by simp) (h₂.isLeaf hbr))
  rw [hownl.ownPages_eq] at hl
  rw [hownr.ownPages_eq] at hr
  exact .pair hown.lt hownr.lt hc.key_pos hc.key_le hinside hf hnd hl hr

/-- A key put into a leaf. -/
lemma insertLeaf_outcome (hv : Valid s) {id : ℕ} {b : Bytes} (hne : id ≠ NO_ROOT)
    (hlt : id < 2 ^ 64) (hb : body s id = .ok b) {cells : List LeafCell}
    (h : LeafHolds s m lo hi b kvs F cells) {Fp : List ℕ} (hp : PayloadHolds s m payload v Fp)
    (hnodup : (ownPages s id ++ (F ++ Fp)).Nodup) (hc : CellSized ⟨key, payload⟩)
    (hsize : leafCellSize ⟨key, payload⟩ ≤ MAX_INLINE_CELL) (hrange : InRange lo hi key)
    {k : ℕ} (hk : m ≤ k) : Outcome (Refused σ) (insertLeaf k s id key payload)
      (Inserted s m (n + 1) lo hi (insertKey key v kvs) (ownPages s id ++ (F ++ Fp))) := by
  rw [insertLeaf]
  rcases makeDirty_cases hv hb hne hlt with ⟨e, he, hrefused⟩ | ⟨id', s₁, he, hown, hf₁⟩
  · rw [he]
    exact Or.inl hrefused
  · simp only [he, ok_bind]
    have hdisj : ∀ j ∈ F ++ Fp, j ∉ ownPages s id := fun j hj hj' =>
      (List.nodup_append.1 hnodup).2.2 j hj' j hj rfl
    have howned : ∀ j ∈ F ++ Fp, Owned s j := by
      intro j hj
      rcases List.mem_append.1 hj with hj | hj
      · exact h.ok.owned j hj
      · exact hp.owned j hj
    have hid' : id' ∉ F ++ Fp := fun hmem => by
      obtain ⟨-, b', hb'⟩ := howned id' hmem
      exact hf₁.not_mem hb' (hdisj id' hmem) (by simp)
    have hok₁ := h.ok.frame hf₁ fun j hj => hdisj j (by simp [hj])
    have hp₁ := hp.frame hf₁ fun j hj => hdisj j (by simp [hj])
    have hf₁' : Frame s s₁ (ownPages s id ++ (F ++ Fp)) ([id'] ++ (F ++ Fp)) :=
      hf₁.append_right _
    have hnd₁ : ([id'] ++ (F ++ Fp)).Nodup :=
      List.nodup_cons.2 ⟨hid', (List.nodup_append.1 hnodup).2.1⟩
    rw [bodyMut_eq hf₁.valid hown.body_eq hown.dirty, ok_bind]
    obtain ⟨z, pfx, hshape⟩ := h.leaf
    rcases hshape.leafAppend_cases id' hc with hnone | ⟨b', happ, hshape', hlast⟩
    · simp only [hnone, ok_bind, hown.body_eq, hshape.parseLeaf_eq]
      obtain ⟨cells', appended, s₂, F', hput, hf₂, hnd₂, hok₂, hne₂⟩ :=
        putCell_ok hf₁.valid hok₁ hp₁ (List.nodup_append.1 hnodup).2.1 hc hsize hrange hk
      have hown₂ := hown.keep hf₂ hid'
      have hnot : id' ∉ F' := hf₂.not_mem hown.body_eq hid'
      have hf₂' : Frame s₁ s₂ ([id'] ++ (F ++ Fp)) (id' :: F') :=
        hf₂.beside [id'] (by simp [or_comm]) (by simp [or_comm])
      have hnd₂' : (id' :: F').Nodup := List.nodup_cons.2 ⟨hnot, hnd₂⟩
      simp only [hput, ok_bind]
      rcases encodeInto_cases hf₂.valid hown₂ (fun b' hb' => hok₂.length_encoded hb') with
        ⟨hfull, henc⟩ | ⟨b', s₃, hfit, henc, hown₃, hf₃⟩
      · simp only [henc, ok_bind, Bool.false_eq_true, if_false]
        exact (splitLeaf_outcome hf₂.valid hown₂ hok₂ hne₂ hfull hnd₂' appended).imp
          fun r _ hr => hr.of_frame (hf₁'.trans hf₂')
      · simp only [henc, ok_bind, if_true]
        have hleaf := holds_leaf (n := n) hown₃.ne_root hown₃.lt hown₃.body_eq
          ((hok₂.frame hf₃ fun j hj => by
            rw [List.mem_singleton]
            rintro rfl
            exact hnot hj).leafHolds hne₂ (hok₂.isLeaf hfit))
        rw [hown₃.ownPages_eq] at hleaf
        exact .single hown₃.lt
          ((hf₁'.trans hf₂').trans (hf₃.append_right F')) hnd₂' hleaf
    · simp only [happ, ok_bind]
      obtain ⟨hown₂, hf₂⟩ := hown.setBody hf₁.valid hshape'.layout.length
      have hkvs : insertKey key v kvs = kvs ++ ([(key, v)] ++ []) := by
        have := insertKey_append (v := v) (r := []) (cat_cells_lt hok₁.holds hlast)
        simpa [insertKey] using this
      have hdisj₂ : ∀ j ∈ F ++ Fp, j ∉ [id'] := fun j hj => by
        rw [List.mem_singleton]
        rintro rfl
        exact hid' hj
      have hnil : CellsOk (setBody s₁ id' b') m lo hi [] [] [] :=
        ⟨⟨rfl, rfl⟩, by simp, by simp, by simp⟩
      have hok₂ := (hok₁.frame hf₂ fun j hj => hdisj₂ j (by simp [hj])).insert hnil
        ⟨v, rfl, hsize, hp₁.frame hf₂ fun j hj => hdisj₂ j (by simp [hj])⟩ hc hrange hlast (by simp)
      have hleaf := holds_leaf (n := n) hown₂.ne_root hown₂.lt hown₂.body_eq
        (hok₂.leafHolds (by simp) ⟨_, _, hshape'⟩)
      rw [hown₂.ownPages_eq, List.append_nil Fp] at hleaf
      rw [hkvs]
      exact .single hown₂.lt (hf₁'.trans (hf₂.append_right _)) hnd₁ hleaf

/-! ### Inner nodes, ready to be encoded -/

/-- Cells in order with children that hold the entries. -/
structure KidsOk (s : σ) (m n : ℕ) (lo hi : Option Bytes) (cells : List InnerCell) (r : ℕ)
    (kvs : Entries) (F : List ℕ) : Prop where
  sized : ∀ c ∈ cells, InnerCell.Sized c
  rightmost_lt : r < 2 ^ 64
  sorted : (cells.map InnerCell.key).Pairwise (· < ·)
  inside : ∀ c ∈ cells, Inside lo hi c.key
  kids : Cat (Holds s m n) (childRanges lo hi cells r) kvs F

namespace KidsOk
variable {cells : List InnerCell} {r : ℕ}

omit [LawfulNodeStore σ] in
lemma isInner (h : KidsOk s m n lo hi cells r kvs F) {b : Bytes}
    (he : encodeInner cells r BODY_SIZE = some b) : IsInner cells r b :=
  isInner_of_encodeInner h.sized h.rightmost_lt h.sorted he

omit [LawfulNodeStore σ] in
lemma length_encoded (h : KidsOk s m n lo hi cells r kvs F) {b : Bytes}
    (he : encodeInner cells r BODY_SIZE = some b) : b.length = BODY_SIZE :=
  (h.isInner he).layout.length

omit [LawfulNodeStore σ] in
lemma innerHolds (h : KidsOk s m n lo hi cells r kvs F) {b : Bytes} (hb : IsInner cells r b) :
    InnerHolds (Holds s m n) lo hi b kvs F cells r := ⟨hb, h.inside, h.kids⟩

omit [LawfulNodeStore σ] in
lemma owned (h : KidsOk s m n lo hi cells r kvs F) : ∀ id ∈ F, Owned s id :=
  h.kids.forall_pages fun _ _ _ _ hc => hc.owned

lemma frame {s' : σ} {G G' : List ℕ} (hf : Frame s s' G G')
    (h : KidsOk s m n lo hi cells r kvs F) (hd : ∀ id ∈ F, id ∉ G) :
    KidsOk s' m n lo hi cells r kvs F :=
  ⟨h.sized, h.rightmost_lt, h.sorted, h.inside,
    h.kids.imp fun _ _ _ _ hH hc => hc.frame hf fun id hid => hd id (hH hid)⟩

omit [LawfulNodeStore σ] in
/-- The cells before and behind one of them, whose key goes up. -/
lemma split {A B : List InnerCell} {c : InnerCell}
    (h : KidsOk s m n lo hi (A ++ c :: B) r kvs F) :
    Inside lo hi c.key ∧ InnerCell.Sized c ∧ ∃ k₁ k₂ F₁ F₂, kvs = k₁ ++ k₂ ∧ F = F₁ ++ F₂ ∧
      KidsOk s m n lo (some c.key) A c.child k₁ F₁ ∧
      KidsOk s m n (some c.key) hi B r k₂ F₂ := by
  have hs := h.sorted
  rw [List.map_append, List.map_cons, List.pairwise_append, List.pairwise_cons] at hs
  obtain ⟨hsA, ⟨hcB, hsB⟩, hAB⟩ := hs
  have hc := h.sized c (by simp)
  have hranges : childRanges lo hi (A ++ c :: B) r
      = childRanges lo (some c.key) A c.child ++ childRanges (some c.key) hi B r := by
    have hA := childRanges_append lo (some c.key) A [] c.child
    rw [List.append_nil] at hA
    rw [childRanges_append, hA]
    simp [childRanges]
  obtain ⟨k₁, k₂, F₁, F₂, rfl, rfl, h₁, h₂⟩ := cat_append.1 (hranges ▸ h.kids)
  refine ⟨h.inside c (by simp), hc, k₁, k₂, F₁, F₂, rfl, rfl,
    ⟨fun d hd => h.sized d (by simp [hd]), hc.child_lt, hsA, fun d hd => ?_, h₁⟩,
    ⟨fun d hd => h.sized d (by simp [hd]), h.rightmost_lt, hsB, fun d hd => ?_, h₂⟩⟩
  · refine ⟨(h.inside d (by simp [hd])).1, fun u hu => ?_⟩
    cases hu
    exact hAB _ (List.mem_map_of_mem hd) _ (by simp)
  · refine ⟨fun l hl => ?_, (h.inside d (by simp [hd])).2⟩
    cases hl
    exact hcB _ (List.mem_map_of_mem hd)

end KidsOk

/-- An inner node that does not fit any more is split. -/
lemma splitInner_outcome (hv : Valid s) {id : ℕ} {b : Bytes} (hown : OwnPage s id b)
    {cells : List InnerCell} {r : ℕ} (h : KidsOk s m n lo hi cells r kvs F)
    (hnone : encodeInner cells r BODY_SIZE = none) (hnodup : (id :: F).Nodup) (tail : Option Tail) :
    Outcome (Refused σ) (splitInner s id cells r tail)
      (Inserted s m (n + 1) lo hi kvs (id :: F)) := by
  have hne : cells ≠ [] := by
    rintro rfl
    simp [encodeInner, BODY_SIZE_eq, INNER_HDR] at hnone
  have hlt := splitPoint_lt innerCellSize hne
  rw [splitInner]
  set sp := splitPoint innerCellSize cells
  have hsplit : cells = cells.take sp ++ cells[sp] :: cells.drop (sp + 1) := by
    rw [List.getElem_cons_drop, List.take_append_drop]
  obtain ⟨hinside, hc, k₁, k₂, F₁, F₂, rfl, rfl, h₁, h₂⟩ := (hsplit ▸ h : KidsOk s m n lo hi
    (cells.take sp ++ cells[sp] :: cells.drop (sp + 1)) r kvs F).split
  simp only [List.getElem?_eq_getElem hlt, okOr_some, ok_bind]
  refine (writeHalves_outcome hv hown (fun b' hb' => h₂.length_encoded hb')
    (fun b' hb' => h₁.length_encoded hb')).bind ?_
  rintro ⟨right, s'⟩ - ⟨br, bl, hbr, hbl, hownr, hownl, hrid, hframe⟩
  have howned : ∀ j ∈ id :: (F₁ ++ F₂), Owned s j := by
    intro j hj
    rcases List.mem_cons.1 hj with rfl | hj
    · exact ⟨hown.dirty, b, hown.body_eq⟩
    · exact h.owned j hj
  obtain ⟨hf, hnd⟩ := halves_frame hrid hframe howned hnodup
  have hdisj : ∀ j ∈ F₁ ++ F₂, j ∉ [id] := fun j hj => by
    rw [List.mem_singleton]
    rintro rfl
    exact (List.nodup_cons.1 hnodup).1 hj
  have hl := holds_inner hown.ne_root hown.lt hownl.body_eq
    ((h₁.frame hframe fun j hj => hdisj j (by simp [hj])).innerHolds (h₁.isInner hbl))
  have hr := holds_inner hownr.ne_root hownr.lt hownr.body_eq
    ((h₂.frame hframe fun j hj => hdisj j (by simp [hj])).innerHolds (h₂.isInner hbr))
  rw [hownl.ownPages_eq] at hl
  rw [hownr.ownPages_eq] at hr
  exact .pair hown.lt hownr.lt hc.key_pos hc.key_le hinside hf hnd hl hr

/-! ### The way down and back -/

/-- The pages of a tree when those of one part of it have changed. -/
lemma exchange_frame {s' : σ} {O F₁ F₂ Fc Fp F' : List ℕ}
    (hnodup : (O ++ (F₁ ++ (Fc ++ F₂)) ++ Fp).Nodup)
    (howned : ∀ j ∈ O ++ (F₁ ++ F₂), Owned s j) (hf : Frame s s' (Fc ++ Fp) F')
    (hnd : F'.Nodup) :
    Frame s s' (O ++ (F₁ ++ (Fc ++ F₂)) ++ Fp) (O ++ (F₁ ++ (F' ++ F₂))) ∧
      (O ++ (F₁ ++ (F' ++ F₂))).Nodup ∧ ∀ j ∈ O ++ (F₁ ++ F₂), j ∉ Fc ++ Fp := by
  have hdisj : ∀ j ∈ O ++ (F₁ ++ F₂), j ∉ Fc ++ Fp := by grind [List.nodup_append]
  have hnot : ∀ j ∈ O ++ (F₁ ++ F₂), j ∉ F' := fun j hj => by
    obtain ⟨-, b, hb⟩ := howned j hj
    exact hf.not_mem hb (hdisj j hj)
  refine ⟨hf.beside (O ++ (F₁ ++ F₂)) (fun j => ?_) (fun j => ?_), ?_, hdisj⟩
  · simp only [List.mem_append]
    tauto
  · simp only [List.mem_append]
    tauto
  · grind [List.nodup_append]

/-- The children with those of one part in place of it. -/
lemma cat_exchange {s' : σ} {G F' F₁ F₂ : List ℕ} {as bs ps : Ranges} {k₁ k₂ kc : Entries}
    (h₁ : Cat (Holds s m n) as k₁ F₁) (h₂ : Cat (Holds s m n) bs k₂ F₂) (hf : Frame s s' G F')
    (hd : ∀ j ∈ F₁ ++ F₂, j ∉ G) (hp : Cat (Holds s' m n) ps kc F') :
    Cat (Holds s' m n) (as ++ (ps ++ bs)) (k₁ ++ (kc ++ k₂)) (F₁ ++ (F' ++ F₂)) :=
  cat_append.2 ⟨k₁, kc ++ k₂, F₁, F' ++ F₂, rfl, rfl,
    h₁.imp fun _ _ _ _ hG hc => hc.frame hf fun j hj => hd j (by simp [hG hj]),
    cat_append.2 ⟨kc, k₂, F', F₂, rfl, rfl, hp,
      h₂.imp fun _ _ _ _ hG hc => hc.frame hf fun j hj => hd j (by simp [hG hj])⟩⟩

/-- The node rewritten with other children, or split. -/
lemma insertInner_outcome (hv : Valid s) {id : ℕ} {b : Bytes} (hne : id ≠ NO_ROOT)
    (hlt : id < 2 ^ 64) (hb : body s id = .ok b) {cells : List InnerCell} {r cid : ℕ}
    {split : Option (Bytes × ℕ)} (hi' : IsInner cells r b)
    (h : KidsOk s m n lo hi (placeChild cells r key cid split).1
      (placeChild cells r key cid split).2 kvs F)
    (hnodup : (ownPages s id ++ F).Nodup) (tail : Option Tail) :
    Outcome (Refused σ) (insertInner s id key cid split tail)
      (Inserted s m (n + 1) lo hi kvs (ownPages s id ++ F)) := by
  rw [insertInner]
  simp only [hb, ok_bind, hi'.parseInner_eq]
  rcases makeDirty_cases hv hb hne hlt with ⟨e, he, hrefused⟩ | ⟨id', s₁, he, hown, hf₁⟩
  · rw [he]
    exact Or.inl hrefused
  · simp only [he, ok_bind]
    have hdisj : ∀ j ∈ F, j ∉ ownPages s id := fun j hj hj' =>
      (List.nodup_append.1 hnodup).2.2 j hj' j hj rfl
    have hid' : id' ∉ F := fun hmem => by
      obtain ⟨-, b', hb'⟩ := h.owned id' hmem
      exact hf₁.not_mem hb' (hdisj id' hmem) (by simp)
    have h₁ := h.frame hf₁ hdisj
    have hf₁' : Frame s s₁ (ownPages s id ++ F) ([id'] ++ F) := hf₁.append_right F
    have hnd₁ : (id' :: F).Nodup := List.nodup_cons.2 ⟨hid', (List.nodup_append.1 hnodup).2.1⟩
    rcases encodeInto_cases hf₁.valid hown (fun b' hb' => h₁.length_encoded hb') with
      ⟨hfull, henc⟩ | ⟨b', s₂, hfit, henc, hown₂, hf₂⟩
    · simp only [henc, ok_bind, Bool.false_eq_true, if_false]
      exact (splitInner_outcome hf₁.valid hown h₁ hfull hnd₁ tail).imp
        fun r _ hr => hr.of_frame hf₁'
    · simp only [henc, ok_bind, if_true]
      have hinner := holds_inner hown₂.ne_root hown₂.lt hown₂.body_eq
        ((h₁.frame hf₂ fun j hj => by
          rw [List.mem_singleton]
          rintro rfl
          exact hid' hj).innerHolds (h₁.isInner hfit))
      rw [hown₂.ownPages_eq] at hinner
      exact .single hown₂.lt (hf₁'.trans (hf₂.append_right F)) hnd₁ hinner

/-- A key put into a tree. -/
lemma insertRec_outcome {k id : ℕ} (hv : Valid s) (h : Holds s m n (lo, hi, id) kvs F)
    {Fp : List ℕ} (hp : PayloadHolds s m payload v Fp) (hnodup : (F ++ Fp).Nodup)
    (hc : CellSized ⟨key, payload⟩) (hsize : leafCellSize ⟨key, payload⟩ ≤ MAX_INLINE_CELL)
    (hrange : InRange lo hi key) (hk : n + m ≤ k) :
    Outcome (Refused σ) (insertRec key payload k s id)
      (Inserted s m n lo hi (insertKey key v kvs) (F ++ Fp)) := by
  induction n generalizing k lo hi id kvs F with
  | zero => exact absurd h (fun h => h)
  | succ n ih =>
    obtain ⟨k, rfl⟩ : ∃ k', k = k' + 1 := ⟨k - 1, by omega⟩
    rw [insertRec]
    obtain ⟨hne, hlt, b, F', hb, rfl, ⟨cells, hl⟩ | ⟨cells, r, hi'⟩⟩ := h
    · obtain ⟨z, pfx, hshape⟩ := hl.leaf
      rw [List.append_assoc] at hnodup ⊢
      simp only [hb, ok_bind, hshape.nodeType_eq, if_true]
      exact insertLeaf_outcome hv hne hlt hb hl hp hnodup hc hsize hrange (by omega)
    · obtain ⟨pre, post, ha⟩ := exists_around hi'.inner.sorted key
      obtain ⟨k₁, kc, k₂, F₁, Fc, F₂, rfl, rfl, h₁, hchild, h₂, hlt₁, hgt₂⟩ := hi'.around ha
      have hnodupc : (Fc ++ Fp).Nodup := by grind [List.nodup_append]
      have hneq : ¬ TYPE_INNER = TYPE_LEAF := by decide
      simp only [hb, ok_bind, hi'.inner.nodeType_eq, if_neg hneq, if_true,
        hi'.inner.innerChild_eq, ha.childAt_eq]
      refine (ih hchild hnodupc (ha.inRange hrange) (by omega)).bind ?_
      rintro ⟨out, s'⟩ - ⟨F'', hf, hnd, hok, hpieces⟩
      dsimp only at hf hok hpieces ⊢
      have howned : ∀ j ∈ ownPages s id ++ (F₁ ++ F₂), Owned s j := by
        intro j hj
        rcases List.mem_append.1 hj with hj | hj
        · exact owned_ownPages hb j hj
        · rcases List.mem_append.1 hj with hj | hj
          · exact h₁.forall_pages (fun _ _ _ _ hc => hc.owned) j hj
          · exact h₂.forall_pages (fun _ _ _ _ hc => hc.owned) j hj
      obtain ⟨hf', hnd', hdisj⟩ := exchange_frame hnodup howned hf hnd
      obtain ⟨hb', hown'⟩ := ownPages_frame hf hb fun j hj => hdisj j (by simp [hj])
      have hkids := cat_exchange h₁ h₂ hf (fun j hj => hdisj j (List.mem_append_right _ hj)) hpieces
      rw [insertKey_middle hlt₁ hgt₂]
      by_cases hsame : out.split = none ∧ out.id = headChild r post
      · rw [if_pos hsame]
        rw [hsame.1, hsame.2] at hkids
        have hinner := holds_inner (n := n) hne hlt hb' (⟨hi'.inner, hi'.inside, by
          rw [ha.childRanges_eq]
          exact hkids⟩ : InnerHolds (Holds s' m n) lo hi b _ _ cells r)
        rw [hown'] at hinner
        exact .single hlt hf' hnd' hinner
      · rw [if_neg hsame]
        obtain ⟨hsz, hr, hs, hin⟩ := ha.placed_ok hi'.inner hi'.inside hok
        have hkids' : KidsOk s' m n lo hi (placeChild cells r key out.id out.split).1
            (placeChild cells r key out.id out.split).2 (k₁ ++ (insertKey key v kc ++ k₂))
            (F₁ ++ (F'' ++ F₂)) := by
          rw [ha.placeChild_eq]
          exact ⟨hsz, hr, hs, hin, by rw [childRanges_placed]; exact hkids⟩
        rw [← hown'] at hnd'
        refine (insertInner_outcome hf.valid hne hlt hb' hi'.inner hkids' hnd' _).imp
          fun _ _ h => h.of_frame ?_
        rw [hown']
        exact hf'

/-! ### Whole insertions -/

/-- A value put aside for a tree: its chain is apart from the pages of the tree. -/
lemma makePayload_above (hv : Valid s) {root : ℕ} (h : TreeHolds s m n root kvs F)
    (hnodup : F.Nodup) (hpos : 0 < key.length) (hkey : key.length ≤ MAX_KEY_LEN)
    (hvalue : v.length < 2 ^ 64) : Outcome (Refused σ) (makePayload s key v) fun r =>
      ∃ Fp, PayloadHolds r.2 (max m v.length) r.1 v Fp ∧ (F ++ Fp).Nodup ∧
        TreeHolds r.2 (max m v.length) n root kvs F ∧ Frame s r.2 F (F ++ Fp) ∧
        CellSized ⟨key, r.1⟩ ∧ leafCellSize ⟨key, r.1⟩ ≤ MAX_INLINE_CELL := by
  have hpayload := makePayload_outcome hv hpos hkey hvalue
  cases hx : makePayload s key v with
  | error e => exact Or.inl (hpayload.of_error hx)
  | ok r =>
    obtain ⟨Fp, hp, hnodupp, hf, hc, hsize⟩ := hpayload.of_ok hx
    refine ⟨Fp, hp.mono (le_max_right m v.length), ?_, ?_, ?_, hc, hsize⟩
    · refine List.nodup_append.2 ⟨hnodup, hnodupp, fun a ha b hb hab => ?_⟩
      obtain ⟨-, c, hc⟩ := h.owned a ha
      exact hf.not_mem hc (by simp) (hab ▸ hb)
    · exact (h.mono (le_max_left m v.length) le_rfl).frame hf (by simp)
    · exact hf.beside F (by simp) (by simp [or_comm])

/-- The value goes to its chain, and the key into the tree, which may grow by a level. -/
lemma insertDown_outcome [CursorApart σ] {k root : ℕ} (hv : Valid s)
    (h : TreeHolds s m n root kvs F) (hnodup : F.Nodup) (hpos : 0 < key.length)
    (hkey : key.length ≤ MAX_KEY_LEN) (hvalue : v.length < 2 ^ 64)
    (hk : n + max m v.length ≤ k) :
    Outcome (Refused σ) (insertDown k s root key v) fun r => ∃ F', Frame s r.2 F F' ∧ F'.Nodup ∧
      Holds r.2 (max m v.length) (n + 1) (none, none, r.1) (insertKey key v kvs) F' := by
  have hrange : InRange none none key := ⟨by simp, by simp⟩
  rw [insertDown]
  refine (makePayload_above hv h hnodup hpos hkey hvalue).bind ?_
  rintro ⟨payload, s₁⟩ - ⟨Fp, hp, hnodup₁, h₁, hf₁, hc, hsize⟩
  dsimp only at hp h₁ hf₁ ⊢
  split_ifs with hroot
  · have hempty : kvs = [] ∧ F = [] := by
      rcases h with ⟨-, hkvs, hF⟩ | h
      · exact ⟨hkvs, hF⟩
      · cases n with
        | zero => exact absurd h (fun h => h)
        | succ n => exact absurd hroot h.1
    obtain ⟨rfl, rfl⟩ := hempty
    rcases alloc_cases hf₁.valid with ⟨e, he, hrefused⟩ | ⟨id, s₂, b, he, hown, hf₂⟩
    · rw [he]
      exact Or.inl hrefused
    · have hid : id ∉ Fp := fun hmem => by
        obtain ⟨-, b', hb'⟩ := hp.owned id hmem
        exact hf₂.not_mem hb' (by simp) (by simp)
      have hcells : CellsOk s₂ (max m v.length) none none [⟨key, payload⟩] [(key, v)] Fp :=
        ⟨cat_singleton.2 ⟨v, rfl, hsize, hp.frame hf₂ (by simp)⟩, by simpa using hc, by simp,
          by simpa using hrange⟩
      obtain ⟨b', hb'⟩ := encodeLeaf_single hsize
      rcases encodeInto_cases hf₂.valid hown (fun b' hb' => hcells.length_encoded hb') with
        ⟨hnone, -⟩ | ⟨b'', s₃, hfit, henc, hown₃, hf₃⟩
      · rw [hb'] at hnone
        cases hnone
      · simp only [he, ok_bind, henc, require_pos]
        have hf₄ := CursorApart.set none hf₃.valid
        have hcells₃ := (hcells.frame hf₃ fun j hj => by
          rw [List.mem_singleton]
          rintro rfl
          exact hid hj).frame hf₄ (by simp)
        have hown₄ := hown₃.keep hf₄ (by simp)
        have hleaf := holds_leaf (n := n) hown₄.ne_root hown₄.lt hown₄.body_eq
          (hcells₃.leafHolds (by simp) (hcells.isLeaf hfit))
        rw [hown₄.ownPages_eq] at hleaf
        have hf₂' : Frame s₁ s₃ [] [id] := hf₂.trans hf₃
        have hf : Frame s s₃ [] ([id] ++ Fp) := hf₁.trans (hf₂'.append_right Fp)
        refine ⟨[id] ++ Fp, hf.trans ?_, List.nodup_cons.2 ⟨hid, hnodup₁⟩, hleaf⟩
        exact hf₄.append_right ([id] ++ Fp)
  · have h₀ : Holds s₁ (max m v.length) n (none, none, root) kvs F := by
      rcases h₁ with ⟨hnone, -, -⟩ | h₁
      · exact absurd hnone hroot
      · exact h₁
    refine (insertRec_outcome hf₁.valid h₀ hp hnodup₁ hc hsize hrange hk).bind ?_
    rintro ⟨out, s₂⟩ - ⟨F', hf₂, hnd₂, hok, hpieces⟩
    dsimp only at hf₂ hok hpieces ⊢
    have hf₂' := hf₁.trans hf₂
    cases hsplit : out.split with
    | none =>
      rw [hsplit] at hpieces
      have hf₃ := CursorApart.set (out.tail.map fun t => ⟨out.id, t.leaf, t.fin, t.last_key⟩)
        hf₂.valid
      have htree := ((cat_singleton.1 hpieces).frame hf₃ (by simp)).mono le_rfl (Nat.le_succ n)
      exact ⟨F', hf₂'.trans (hf₃.append_right F'), hnd₂, htree⟩
    | some x =>
      obtain ⟨sep, right⟩ := x
      rw [hsplit] at hpieces hok
      rcases alloc_cases hf₂.valid with ⟨e, he, hrefused⟩ | ⟨id, s₃, b, he, hown, hf₃⟩
      · simp only [he]
        exact Or.inl hrefused
      · have hid : id ∉ F' := fun hmem => by
          obtain ⟨-, b', hb'⟩ := hpieces.forall_pages (fun _ _ _ _ hc => hc.owned) id hmem
          exact hf₃.not_mem hb' (by simp) (by simp)
        have hcell : InnerCell.Sized ⟨sep, out.id⟩ :=
          ⟨hok.key_pos _ rfl, hok.key_le _ rfl, hok.cid_lt⟩
        have hkids : KidsOk s₃ (max m v.length) n none none [⟨sep, out.id⟩] right
            (insertKey key v kvs) F' :=
          ⟨by simpa using hcell, hok.right_lt _ rfl, by simp, by simp [Inside],
            hpieces.imp fun _ _ _ _ _ hc => hc.frame hf₃ (by simp)⟩
        obtain ⟨b', hb'⟩ := @encodeInner_single right _ hcell
        rcases encodeInto_cases hf₃.valid hown (fun b' hb' => hkids.length_encoded hb') with
          ⟨hnone, -⟩ | ⟨b'', s₄, hfit, henc, hown₄, hf₄⟩
        · rw [hb'] at hnone
          cases hnone
        · simp only [he, ok_bind, henc, require_pos]
          have hf₅ := CursorApart.set (out.tail.map fun t => ⟨id, t.leaf, t.fin, t.last_key⟩)
            hf₄.valid
          have hkids₅ := (hkids.frame hf₄ fun j hj => by
            rw [List.mem_singleton]
            rintro rfl
            exact hid hj).frame hf₅ (by simp)
          have hown₅ := hown₄.keep hf₅ (by simp)
          have hinner := holds_inner hown₅.ne_root hown₅.lt hown₅.body_eq
            (hkids₅.innerHolds (hkids.isInner hfit))
          rw [hown₅.ownPages_eq] at hinner
          have hf₃' : Frame s₂ s₄ [] [id] := hf₃.trans hf₄
          have hf : Frame s s₄ F ([id] ++ F') := hf₂'.trans (hf₃'.append_right F')
          exact ⟨[id] ++ F', hf.trans (hf₅.append_right ([id] ++ F')),
            List.nodup_cons.2 ⟨hid, hnd₂⟩, hinner⟩

end Insert

end Btree

end Arkeion
