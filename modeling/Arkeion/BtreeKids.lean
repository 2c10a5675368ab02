import Arkeion.BtreeSpec

/-!
The children of an inner node around the one under a key, and what becomes of them when that
one is replaced, split or taken out.
-/

namespace Arkeion

open Arkeion.Lib

namespace Btree

open NodeSource NodeStore Node

abbrev Ranges := List (Option Bytes × Option Bytes × ℕ)

/-- The ranges of the children of some cells, without what follows them. -/
def leftRanges : Option Bytes → List InnerCell → Ranges
  | _, [] => []
  | lo, c :: cs => (lo, some c.key, c.child) :: leftRanges (some c.key) cs

/-- Where the range behind some cells begins. -/
def lastKey : Option Bytes → List InnerCell → Option Bytes
  | lo, [] => lo
  | _, c :: cs => lastKey (some c.key) cs

/-- Where the range of the first child ends. -/
def headUp (hi : Option Bytes) : List InnerCell → Option Bytes
  | [] => hi
  | c :: _ => some c.key

def headChild (rightmost : ℕ) : List InnerCell → ℕ
  | [] => rightmost
  | c :: _ => c.child

/-- The ranges of the children behind the first one. -/
def tailRanges (hi : Option Bytes) (rightmost : ℕ) : List InnerCell → Ranges
  | [] => []
  | c :: cs => childRanges (some c.key) hi cs rightmost

/-- A node, or the two it was split into, in the range of the node. -/
def pieces (l h : Option Bytes) (id : ℕ) : Option (Bytes × ℕ) → Ranges
  | none => [(l, h, id)]
  | some (sep, right) => [(l, some sep, id), (some sep, h, right)]

section Ranges
variable {lo hi : Option Bytes} {pre post cells : List InnerCell} {r : ℕ} {key : Bytes}

lemma childRanges_eq (lo hi : Option Bytes) (post : List InnerCell) (r : ℕ) :
    childRanges lo hi post r = (lo, headUp hi post, headChild r post) :: tailRanges hi r post := by
  cases post <;> rfl

lemma childRanges_append (lo hi : Option Bytes) (pre post : List InnerCell) (r : ℕ) :
    childRanges lo hi (pre ++ post) r
      = leftRanges lo pre ++ childRanges (lastKey lo pre) hi post r := by
  induction pre generalizing lo with
  | nil => rfl
  | cons c pre ih => simp [childRanges, leftRanges, lastKey, ih]

lemma leftRanges_append (lo : Option Bytes) (pre post : List InnerCell) :
    leftRanges lo (pre ++ post) = leftRanges lo pre ++ leftRanges (lastKey lo pre) post := by
  induction pre generalizing lo with
  | nil => rfl
  | cons c pre ih => simp [leftRanges, lastKey, ih]

lemma lastKey_snoc (lo : Option Bytes) (pre : List InnerCell) (c : InnerCell) :
    lastKey lo (pre ++ [c]) = some c.key := by
  induction pre generalizing lo with
  | nil => rfl
  | cons d pre ih => exact ih _

lemma lastKey_mem {l : Bytes} (h : l ∈ lastKey lo pre) :
    l ∈ lo ∨ ∃ c ∈ pre, c.key = l := by
  rcases List.eq_nil_or_concat' pre with rfl | ⟨qs, q, rfl⟩
  · exact Or.inl h
  · rw [lastKey_snoc] at h
    cases h
    exact Or.inr ⟨q, by simp, rfl⟩

lemma mem_leftRanges {x : Option Bytes × Option Bytes × ℕ} (h : x ∈ leftRanges lo pre) :
    ∃ c ∈ pre, x.2.1 = some c.key := by
  induction pre generalizing lo with
  | nil => simp [leftRanges] at h
  | cons c pre ih =>
    rcases List.mem_cons.1 h with rfl | h
    · exact ⟨c, by simp, rfl⟩
    · obtain ⟨d, hd, hx⟩ := ih h
      exact ⟨d, by simp [hd], hx⟩

lemma mem_tailRanges {x : Option Bytes × Option Bytes × ℕ} (h : x ∈ tailRanges hi r post) :
    ∃ c ∈ post, x.1 = some c.key := by
  have hall : ∀ (cs : List InnerCell) (c : InnerCell), x ∈ childRanges (some c.key) hi cs r →
      ∃ d ∈ c :: cs, x.1 = some d.key := by
    intro cs
    induction cs with
    | nil =>
      intro c hx
      rw [childRanges, List.mem_singleton] at hx
      exact ⟨c, by simp, by rw [hx]⟩
    | cons d cs ih =>
      intro c hx
      rcases List.mem_cons.1 hx with rfl | hx
      · exact ⟨c, by simp, rfl⟩
      · obtain ⟨e, he, hxe⟩ := ih d hx
        exact ⟨e, by simp [List.mem_cons.1 he], hxe⟩
  cases post with
  | nil => simp [tailRanges] at h
  | cons c cs => exact hall cs c h

/-! ### The child under a key -/

/-- The cells before and from the one that bounds the child under the key. -/
structure Around (cells : List InnerCell) (key : Bytes) (pre post : List InnerCell) : Prop where
  eq : cells = pre ++ post
  index : childIndex cells key = pre.length
  left : ∀ c ∈ pre, c.key ≤ key
  right : ∀ c ∈ post, key < c.key

lemma exists_around (hs : (cells.map InnerCell.key).Pairwise (· < ·)) (key : Bytes) :
    ∃ pre post, Around cells key pre post := by
  obtain ⟨pre, post, rfl, hpre, hpost, hpt⟩ :=
    exists_partition (fun c : InnerCell => decide (c.key ≤ key)) cells
  refine ⟨pre, post, rfl, hpt, fun c hc => by simpa using hpre c hc, fun c hc => ?_⟩
  cases post with
  | nil => simp at hc
  | cons d post =>
    have hd : key < d.key := by simpa using hpost d (by simp)
    rw [List.map_append, List.pairwise_append, List.map_cons, List.pairwise_cons] at hs
    rcases List.mem_cons.1 hc with rfl | hc
    · exact hd
    · exact hd.trans (hs.2.1.1 _ (List.mem_map_of_mem hc))

namespace Around

lemma childAt_eq (h : Around cells key pre post) :
    childAt cells r (childIndex cells key) = headChild r post := by
  rw [h.index, h.eq, childAt, List.getElem?_append_right le_rfl, Nat.sub_self]
  cases post <;> rfl

lemma childRanges_eq (h : Around cells key pre post) : childRanges lo hi cells r
    = leftRanges lo pre ++ (lastKey lo pre, headUp hi post, headChild r post)
      :: tailRanges hi r post := by
  rw [h.eq, childRanges_append, Btree.childRanges_eq (lastKey lo pre)]

lemma inRange (h : Around cells key pre post) (hk : InRange lo hi key) :
    InRange (lastKey lo pre) (headUp hi post) key := by
  constructor
  · intro l hl
    rcases lastKey_mem hl with hl | ⟨c, hc, rfl⟩
    · exact hk.1 l hl
    · exact h.left c hc
  · intro u hu
    cases post with
    | nil => exact hk.2 u hu
    | cons c post =>
      cases hu
      exact h.right c (by simp)

/-- Children on the left only have keys below, children on the right only keys above. -/
lemma left_lt {P : Option Bytes × Option Bytes × ℕ → Entries → List ℕ → Prop}
    (hP : ∀ {lo hi id k G}, P (lo, hi, id) k G → Ordered lo hi k) {kvs : Entries} {F : List ℕ}
    (h : Around cells key pre post) (hkids : Cat P (leftRanges lo pre) kvs F) :
    ∀ p ∈ kvs, p.1 < key := by
  refine hkids.forall_entries fun x hx k G hk p hp => ?_
  obtain ⟨c, hc, hx⟩ := mem_leftRanges hx
  exact (((hP hk).range p hp).2 c.key hx).trans_le (h.left c hc)

lemma right_gt {P : Option Bytes × Option Bytes × ℕ → Entries → List ℕ → Prop}
    (hP : ∀ {lo hi id k G}, P (lo, hi, id) k G → Ordered lo hi k) {kvs : Entries} {F : List ℕ}
    (h : Around cells key pre post) (hkids : Cat P (tailRanges hi r post) kvs F) :
    ∀ p ∈ kvs, key < p.1 := by
  refine hkids.forall_entries fun x hx k G hk p hp => ?_
  obtain ⟨c, hc, hx⟩ := mem_tailRanges hx
  exact (h.right c hc).trans_le (((hP hk).range p hp).1 c.key hx)

end Around

/-- The children of an inner node around the one under the key. -/
lemma InnerHolds.around {σ : Type} [NodeStore σ] {s : σ} {m n : ℕ} {kvs : Entries} {F : List ℕ}
    {b : Bytes} (h : InnerHolds (Holds s m n) lo hi b kvs F cells r)
    (ha : Around cells key pre post) :
    ∃ k₁ kc k₂ F₁ Fc F₂, kvs = k₁ ++ (kc ++ k₂) ∧ F = F₁ ++ (Fc ++ F₂) ∧
      Cat (Holds s m n) (leftRanges lo pre) k₁ F₁ ∧
      Holds s m n (lastKey lo pre, headUp hi post, headChild r post) kc Fc ∧
      Cat (Holds s m n) (tailRanges hi r post) k₂ F₂ ∧
      (∀ p ∈ k₁, p.1 < key) ∧ ∀ p ∈ k₂, key < p.1 := by
  obtain ⟨k₁, kr, F₁, Fr, rfl, rfl, h₁, hr⟩ := cat_append.1 (ha.childRanges_eq ▸ h.kids)
  obtain ⟨kc, k₂, Fc, F₂, rfl, rfl, hc, h₂⟩ := hr
  exact ⟨k₁, kc, k₂, F₁, Fc, F₂, rfl, rfl, h₁, hc, h₂,
    ha.left_lt (fun h => h.ordered) h₁, ha.right_gt (fun h => h.ordered) h₂⟩

/-! ### Replacing and splitting the child -/

lemma setChild_append_cons (pre cs : List InnerCell) (c : InnerCell) (r cid : ℕ) :
    setChild (pre ++ c :: cs) r pre.length cid = (pre ++ { c with child := cid } :: cs, r) := by
  have hmodify : (pre ++ c :: cs).modify pre.length (fun c => { c with child := cid })
      = pre ++ { c with child := cid } :: cs := by
    induction pre with
    | nil => rfl
    | cons d pre ih => simpa using ih
  rw [setChild, if_pos (by simp), hmodify]

lemma setChild_end (pre : List InnerCell) (r cid : ℕ) :
    setChild pre r pre.length cid = (pre, cid) := by
  rw [setChild, if_neg (lt_irrefl _)]

lemma insertIdx_length {α : Type} (pre rest : List α) (a : α) :
    (pre ++ rest).insertIdx pre.length a = pre ++ a :: rest := by
  induction pre with
  | nil => rfl
  | cons b pre ih => simpa using ih

/-- The cells that follow the replaced or split child. -/
def placedPost (cid : ℕ) (split : Option (Bytes × ℕ)) (post : List InnerCell) : List InnerCell :=
  match split, post with
  | none, [] => []
  | none, c :: cs => { c with child := cid } :: cs
  | some (sep, _), [] => [⟨sep, cid⟩]
  | some (sep, right), c :: cs => ⟨sep, cid⟩ :: { c with child := right } :: cs

def placedRightmost (r cid : ℕ) (split : Option (Bytes × ℕ)) : List InnerCell → ℕ
  | [] => (split.map Prod.snd).getD cid
  | _ :: _ => r

lemma Around.placeChild_eq (h : Around cells key pre post) (r cid : ℕ)
    (split : Option (Bytes × ℕ)) : placeChild cells r key cid split
      = (pre ++ placedPost cid split post, placedRightmost r cid split post) := by
  have hset : setChild cells r (childIndex cells key) cid
      = (pre ++ placedPost cid none post, placedRightmost r cid none post) := by
    rw [h.index, h.eq]
    cases post with
    | nil => rw [List.append_nil, setChild_end]; simp [placedPost, placedRightmost]
    | cons c cs => rw [setChild_append_cons]; rfl
  cases split with
  | none => exact hset
  | some sr =>
    obtain ⟨sep, right⟩ := sr
    rw [h.index] at hset
    simp only [placeChild, h.index, hset, insertIdx_length]
    have hlen : pre.length + 1 = (pre ++ [(⟨sep, cid⟩ : InnerCell)]).length := by simp
    cases post with
    | nil =>
      rw [placedPost, hlen, setChild_end]
      rfl
    | cons c cs =>
      have happ : pre ++ ⟨sep, cid⟩ :: placedPost cid none (c :: cs)
          = (pre ++ [⟨sep, cid⟩]) ++ { c with child := cid } :: cs := by
        simp [placedPost]
      rw [happ, hlen, setChild_append_cons]
      simp [placedPost, placedRightmost]

/-- The ranges after the child was replaced or split. -/
lemma childRanges_placed (lo hi : Option Bytes) (pre post : List InnerCell) (r cid : ℕ)
    (split : Option (Bytes × ℕ)) :
    childRanges lo hi (pre ++ placedPost cid split post) (placedRightmost r cid split post)
      = leftRanges lo pre ++ (pieces (lastKey lo pre) (headUp hi post) cid split
        ++ tailRanges hi r post) := by
  rw [childRanges_append]
  congr 1
  rcases split with _ | ⟨sep, right⟩ <;> cases post <;> rfl

/-- The separators after the child was replaced or split. -/
lemma placedPost_keys (cid : ℕ) (split : Option (Bytes × ℕ)) (post : List InnerCell) :
    (placedPost cid split post).map InnerCell.key
      = (split.map Prod.fst).toList ++ post.map InnerCell.key := by
  rcases split with _ | ⟨sep, right⟩ <;> cases post <;> rfl

lemma placedPost_child {cid : ℕ} {split : Option (Bytes × ℕ)} {c : InnerCell}
    (h : c ∈ placedPost cid split post) :
    c.child = cid ∨ (∃ sep, split = some (sep, c.child)) ∨ ∃ d ∈ post, c.child = d.child := by
  cases split with
  | none =>
    cases post with
    | nil => simp [placedPost] at h
    | cons d cs =>
      rcases List.mem_cons.1 h with rfl | h
      · exact Or.inl rfl
      · exact Or.inr (Or.inr ⟨c, by simp [h], rfl⟩)
  | some x =>
    obtain ⟨sep, right⟩ := x
    cases post with
    | nil =>
      rw [placedPost, List.mem_singleton] at h
      exact Or.inl (by rw [h])
    | cons d cs =>
      rcases List.mem_cons.1 h with rfl | h
      · exact Or.inl rfl
      · rcases List.mem_cons.1 h with rfl | h
        · exact Or.inr (Or.inl ⟨sep, rfl⟩)
        · exact Or.inr (Or.inr ⟨c, by simp [h], rfl⟩)

/-- The two parts of a split, or the one node, as sized cells want them. -/
structure SplitOk (l h : Option Bytes) (cid : ℕ) (split : Option (Bytes × ℕ)) : Prop where
  cid_lt : cid < 2 ^ 64
  right_lt : ∀ x ∈ split, x.2 < 2 ^ 64
  key_pos : ∀ x ∈ split, 0 < x.1.length
  key_le : ∀ x ∈ split, x.1.length ≤ MAX_KEY_LEN
  inside : ∀ x ∈ split, Inside l h x.1

/-- What encoding the cells with the replaced or split child asks of them. -/
lemma Around.placed_ok {b : Bytes} (h : Around cells key pre post) (hi' : IsInner cells r b)
    (hin : ∀ c ∈ cells, Inside lo hi c.key) {cid : ℕ} {split : Option (Bytes × ℕ)}
    (hok : SplitOk (lastKey lo pre) (headUp hi post) cid split) :
    (∀ c ∈ pre ++ placedPost cid split post, InnerCell.Sized c) ∧
    placedRightmost r cid split post < 2 ^ 64 ∧
    ((pre ++ placedPost cid split post).map InnerCell.key).Pairwise (· < ·) ∧
    ∀ c ∈ pre ++ placedPost cid split post, Inside lo hi c.key := by
  have hkeys := placedPost_keys cid split post
  have hmem : ∀ c ∈ placedPost cid split post,
      (∃ x ∈ split, c.key = x.1) ∨ ∃ d ∈ post, c.key = d.key := by
    intro c hc
    have : c.key ∈ (split.map Prod.fst).toList ++ post.map InnerCell.key :=
      hkeys ▸ List.mem_map_of_mem hc
    rcases List.mem_append.1 this with hx | hd
    · rw [Option.mem_toList, Option.map_eq_some_iff] at hx
      obtain ⟨x, hx, hxc⟩ := hx
      exact Or.inl ⟨x, hx, hxc.symm⟩
    · obtain ⟨d, hd, hdc⟩ := List.mem_map.1 hd
      exact Or.inr ⟨d, hd, hdc.symm⟩
  have hpost : ∀ d ∈ post, d ∈ cells := fun d hd => by rw [h.eq]; simp [hd]
  have hpre : ∀ d ∈ pre, d ∈ cells := fun d hd => by rw [h.eq]; simp [hd]
  have hinside : ∀ x ∈ split, Inside lo hi x.1 := by
    intro x hx
    refine ⟨fun l hl => ?_, fun u hu => ?_⟩
    · rcases List.eq_nil_or_concat' pre with hnil | ⟨qs, q, hq⟩
      · exact (hok.inside x hx).1 l (by rw [hnil]; exact hl)
      · have hqk := (hok.inside x hx).1 q.key (by rw [hq, lastKey_snoc]; rfl)
        exact ((hin q (hpre q (by simp [hq]))).1 l hl).trans hqk
    · cases hp : post with
      | nil => exact (hok.inside x hx).2 u (by rw [hp]; exact hu)
      | cons d ds =>
        have hdk := (hok.inside x hx).2 d.key (by rw [hp]; rfl)
        exact hdk.trans ((hin d (hpost d (by simp [hp]))).2 u hu)
  refine ⟨fun c hc => ?_, ?_, ?_, fun c hc => ?_⟩
  · rcases List.mem_append.1 hc with hc | hc
    · exact hi'.sized c (hpre c hc)
    · have hchild : c.child < 2 ^ 64 := by
        rcases placedPost_child hc with hc | ⟨sep, hsep⟩ | ⟨d, hd, hcd⟩
        · exact hc ▸ hok.cid_lt
        · exact hok.right_lt (sep, c.child) hsep
        · exact hcd ▸ (hi'.sized d (hpost d hd)).child_lt
      rcases hmem c hc with ⟨x, hx, hcx⟩ | ⟨d, hd, hcd⟩
      · exact ⟨hcx ▸ hok.key_pos x hx, hcx ▸ hok.key_le x hx, hchild⟩
      · exact ⟨hcd ▸ (hi'.sized d (hpost d hd)).key_pos, hcd ▸ (hi'.sized d (hpost d hd)).key_le,
          hchild⟩
  · cases post with
    | nil =>
      cases split with
      | none => exact hok.cid_lt
      | some x => exact hok.right_lt x rfl
    | cons d ds => exact hi'.rightmost_lt
  · have hs := hi'.sorted
    rw [h.eq, List.map_append, List.pairwise_append] at hs
    rw [List.map_append, hkeys]
    cases split with
    | none => simpa using List.pairwise_append.2 hs
    | some x =>
      have hx := hok.inside x rfl
      have hleft : ∀ k ∈ pre.map InnerCell.key, k < x.1 := by
        rcases List.eq_nil_or_concat' pre with hnil | ⟨qs, q, hq⟩
        · simp [hnil]
        · have hqk := hx.1 q.key (by rw [hq, lastKey_snoc]; rfl)
          intro k hk
          rw [hq, List.map_append] at hk hs
          rcases List.mem_append.1 hk with hk | hk
          · exact ((List.pairwise_append.1 hs.1).2.2 k hk q.key (by simp)).trans hqk
          · rw [List.map_singleton, List.mem_singleton] at hk
            rwa [hk]
      have hright : ∀ k ∈ post.map InnerCell.key, x.1 < k := by
        cases post with
        | nil => simp
        | cons d ds =>
          have hdk := hx.2 d.key rfl
          intro k hk
          rcases List.mem_cons.1 hk with rfl | hk
          · exact hdk
          · rw [List.map_cons, List.pairwise_cons] at hs
            exact hdk.trans (hs.2.1.1 k hk)
      simp only [Option.map_some, Option.toList_some, List.singleton_append]
      refine List.pairwise_append.2 ⟨hs.1, List.pairwise_cons.2 ⟨hright, hs.2.1⟩, ?_⟩
      intro a ha c hc
      rcases List.mem_cons.1 hc with rfl | hc
      · exact hleft a ha
      · exact hs.2.2 a ha c hc
  · rcases List.mem_append.1 hc with hc | hc
    · exact hin c (hpre c hc)
    · rcases hmem c hc with ⟨x, hx, hcx⟩ | ⟨d, hd, hcd⟩
      · exact hcx ▸ hinside x hx
      · exact hcd ▸ hin d (hpost d hd)

end Ranges

end Btree

end Arkeion
