import Arkeion.PageLog
import Mathlib.Data.Set.Function
import Mathlib.Data.Set.Lattice

/-!
An anchor fixes the history up to its version.

Two files whose audits accept the same anchor hold the same commits up to it, as long as
SHA-256 does not collide on what the two audits hash.
-/

namespace Arkeion

open Arkeion.Lib

/-- What a file holds of one commit. -/
structure CommitView where
  version : ℕ
  branch : String
  timestamp_ms : ℕ
  data_root : ℕ
  meta_root : ℕ
  bodies : List Bytes
  deriving DecidableEq, Repr

def viewOf (r : PageReader) (c : ℕ × CommitHeader) : CommitView :=
  ⟨c.2.version, c.2.branch, c.2.timestamp_ms, c.2.data_root, c.2.meta_root, dataBodies r c⟩

/-- The commits the walk from the head meets, oldest first. -/
def retained (fuel : ℕ) (r : PageReader) (head : Head) : List (ℕ × CommitHeader) :=
  match walkBack r head.version fuel head.commit_page [] with
  | .ok hs => hs
  | .error _ => []

/-- The retained history up to version `v`. -/
def historyUpTo (fuel : ℕ) (r : PageReader) (head : Head) (v : ℕ) : List CommitView :=
  ((retained fuel r head).filter (·.2.version ≤ v)).map (viewOf r)

/-- The messages an audit hashes. -/
def hashedMessages (fuel : ℕ) (r : PageReader) (head : Head) : List Bytes :=
  genesisMessage r.fileId ::
    (retained fuel r head).flatMap fun c => [c.2.chainMessage, (dataBodies r c).flatten]

section Walk
variable {sha : Sha256} {r : PageReader} {prev : Bytes} {v : ℕ} {cs : List (ℕ × CommitHeader)}

/-- The commits of a checked walk, cut after the one at version `w`. -/
lemma Checked.cut_at {w : ℕ} (h : Checked sha r prev v cs) (hw : ∃ c ∈ cs, c.2.version = w) :
    ∃ xs c ys, cs = (xs ++ [c]) ++ ys ∧ c.2.version = w ∧
      cs.filter (·.2.version ≤ w) = xs ++ [c] := by
  obtain ⟨c, hc, rfl⟩ := hw
  obtain ⟨xs, ys, rfl⟩ := List.append_of_mem hc
  have hsplit : xs ++ c :: ys = (xs ++ [c]) ++ ys := by simp
  rw [hsplit] at h ⊢
  obtain ⟨hxs, hys⟩ := Checked.append.1 h
  have hcv : c.2.version = v + (xs ++ [c]).length := by
    rw [Checked.append] at hxs
    have := hxs.2.1.version
    simp only [List.length_append, List.length_singleton]
    omega
  refine ⟨xs, c, ys, rfl, rfl, ?_⟩
  rw [List.filter_append, List.filter_eq_self.2, List.filter_eq_nil_iff.2, List.append_nil]
  · intro d hd
    have := (hys.version_bounds d hd).1
    simp only [decide_eq_true_eq]
    omega
  · intro d hd
    have := (hxs.version_bounds d hd).2
    simp only [decide_eq_true_eq]
    omega

lemma endHash_snoc (prev : Bytes) (xs : List (ℕ × CommitHeader)) (c : ℕ × CommitHeader) :
    endHash prev (xs ++ [c]) = c.2.chain_hash := by
  simp [endHash]

/-- The data pages of every commit are the ones its content hash was taken of. -/
lemma Checked.mem {c : ℕ × CommitHeader} (h : Checked sha r prev v cs) (hc : c ∈ cs) :
    sha.digest (dataBodies r c).flatten = c.2.content_hash ∧
      ∀ b ∈ dataBodies r c, b.length = BODY_SIZE := by
  induction cs generalizing prev v with
  | nil => simp at hc
  | cons d ds ih =>
    rcases List.mem_cons.1 hc with rfl | hc
    · exact ⟨h.1.content, h.1.reads.length_body⟩
    · exact ih h.2 hc

end Walk

/-- Equal items with equal data pages are equal views. -/
lemma views_eq {sha : Sha256} {r₁ r₂ : PageReader} {xs ys : List (ℕ × CommitHeader)}
    (hitems : xs.map (·.2.item) = ys.map (·.2.item))
    (hx : ∀ c ∈ xs, sha.digest (dataBodies r₁ c).flatten = c.2.content_hash ∧
      ∀ b ∈ dataBodies r₁ c, b.length = BODY_SIZE)
    (hy : ∀ c ∈ ys, sha.digest (dataBodies r₂ c).flatten = c.2.content_hash ∧
      ∀ b ∈ dataBodies r₂ c, b.length = BODY_SIZE)
    (hinj : ∀ c ∈ xs, ∀ d ∈ ys,
      sha.digest (dataBodies r₁ c).flatten = sha.digest (dataBodies r₂ d).flatten →
        (dataBodies r₁ c).flatten = (dataBodies r₂ d).flatten) :
    xs.map (viewOf r₁) = ys.map (viewOf r₂) := by
  induction xs generalizing ys with
  | nil =>
    cases ys with
    | nil => rfl
    | cons y ys => simp at hitems
  | cons x xs ih =>
    cases ys with
    | nil => simp at hitems
    | cons y ys =>
      simp only [List.map_cons, List.cons.injEq] at hitems
      obtain ⟨hxy, hitems⟩ := hitems
      have hcx := hx x (by simp)
      have hcy := hy y (by simp)
      have hch : x.2.content_hash = y.2.content_hash := congrArg ChainItem.content_hash hxy
      have hbodies : dataBodies r₁ x = dataBodies r₂ y :=
        flatten_inj (by decide : 0 < BODY_SIZE) hcx.2 hcy.2
          (hinj x (by simp) y (by simp) (by rw [hcx.1, hcy.1, hch]))
      have hview : viewOf r₁ x = viewOf r₂ y := by
        simp only [CommitHeader.item, ChainItem.mk.injEq] at hxy
        obtain ⟨-, hv, ht, hd, hm, hb⟩ := hxy
        simp only [viewOf, hv, ht, hd, hm, hb, hbodies]
      rw [List.map_cons, List.map_cons, hview, ih hitems (fun c hc => hx c (by simp [hc]))
        (fun c hc => hy c (by simp [hc])) (fun c hc d hd => hinj c (by simp [hc]) d (by simp [hd]))]

/-- An accepted audit, cut at the version of its anchor. -/
lemma accepted_cut {sha : Sha256} {fuel : ℕ} {r : PageReader} {head : Head} {a : AuditAnchor}
    {rep : AuditReport} (h : verifyAnchored sha fuel r head (some a) = .ok rep) :
    ∃ xs ys v, retained fuel r head = xs ++ ys ∧ xs ≠ [] ∧
      (retained fuel r head).filter (·.2.version ≤ a.version) = xs ∧
      Checked sha r (genesisChain sha r.fileId) v xs ∧
      (∀ c ∈ xs, c.2.item.Fits ∧ c.2.prev_chain.length = 32) ∧
      chainEnd (ChainItem.link sha) (genesisChain sha r.fileId) (xs.map (·.2.item))
        = a.chain_hash := by
  obtain ⟨hs, hwalk, hacc, -⟩ := verifyAnchored_eq_ok.1 h
  have hret : retained fuel r head = hs := by rw [retained, hwalk]
  obtain ⟨xs, c, ys, rfl, hv, hfilter⟩ := hacc.checked.cut_at (hacc.seen a rfl)
  have hchk := (Checked.append.1 hacc.checked).1
  have hlast : c.2.chain_hash = a.chain_hash := hacc.anchor_ok a rfl c (by simp) hv
  refine ⟨xs ++ [c], ys, _, hret, by simp, by rw [hret]; exact hfilter, hchk,
    fun d hd => walkBack_fits hwalk d (List.mem_append_left _ hd), ?_⟩
  rw [← hchk.endHash_eq, endHash_snoc, hlast]

section Hashed
variable {fuel : ℕ} {r : PageReader} {head : Head} {c : ℕ × CommitHeader}

lemma genesisMessage_hashed : genesisMessage r.fileId ∈ hashedMessages fuel r head := by
  simp [hashedMessages]

lemma chainMessage_hashed (hc : c ∈ retained fuel r head) :
    c.2.chainMessage ∈ hashedMessages fuel r head := by
  simp only [hashedMessages, List.mem_cons, List.mem_flatMap]
  exact Or.inr ⟨c, hc, by simp⟩

lemma bodies_hashed (hc : c ∈ retained fuel r head) :
    (dataBodies r c).flatten ∈ hashedMessages fuel r head := by
  simp only [hashedMessages, List.mem_cons, List.mem_flatMap]
  exact Or.inr ⟨c, hc, by simp⟩

end Hashed

/-- Two files that accept one anchor hold the same history up to it. -/
theorem anchor_sound {sha : Sha256} {fuel₁ fuel₂ : ℕ} {r₁ r₂ : PageReader} {head₁ head₂ : Head}
    {a : AuditAnchor} {rep₁ rep₂ : AuditReport}
    (h₁ : verifyAnchored sha fuel₁ r₁ head₁ (some a) = .ok rep₁)
    (h₂ : verifyAnchored sha fuel₂ r₂ head₂ (some a) = .ok rep₂)
    (hinj : Set.InjOn sha.digest
      {m | m ∈ hashedMessages fuel₁ r₁ head₁ ++ hashedMessages fuel₂ r₂ head₂}) :
    historyUpTo fuel₁ r₁ head₁ a.version = historyUpTo fuel₂ r₂ head₂ a.version ∧
      (retained fuel₁ r₁ head₁).head?.map (·.2.version)
        = (retained fuel₂ r₂ head₂).head?.map (·.2.version) := by
  obtain ⟨xs, xs', v, hret₁, hne₁, hfil₁, hchk₁, hfit₁, hend₁⟩ := accepted_cut h₁
  obtain ⟨ys, ys', w, hret₂, hne₂, hfil₂, hchk₂, hfit₂, hend₂⟩ := accepted_cut h₂
  have hmem₁ : ∀ c ∈ xs, c ∈ retained fuel₁ r₁ head₁ := fun c hc => by rw [hret₁]; simp [hc]
  have hmem₂ : ∀ c ∈ ys, c ∈ retained fuel₂ r₂ head₂ := fun c hc => by rw [hret₂]; simp [hc]
  have hin₁ {m : Bytes} (hm : m ∈ hashedMessages fuel₁ r₁ head₁) :
      m ∈ {m | m ∈ hashedMessages fuel₁ r₁ head₁ ++ hashedMessages fuel₂ r₂ head₂} :=
    List.mem_append_left _ hm
  have hin₂ {m : Bytes} (hm : m ∈ hashedMessages fuel₂ r₂ head₂) :
      m ∈ {m | m ∈ hashedMessages fuel₁ r₁ head₁ ++ hashedMessages fuel₂ r₂ head₂} :=
    List.mem_append_right _ hm
  -- A link's message is longer than a seed's, so no link gives back a seed.
  have hlen {c : ℕ × CommitHeader} {r : PageReader}
      (hc : c.2.item.Fits ∧ c.2.prev_chain.length = 32) :
      c.2.chainMessage ≠ genesisMessage r.fileId := by
    intro heq
    have hl := congrArg List.length heq
    rw [c.2.chainMessage_eq, ChainItem.length_message hc.2 hc.1, length_genesisMessage] at hl
    omega
  have hitems : xs.map (·.2.item) = ys.map (·.2.item) := by
    refine eq_of_chainEnd_eq (ChainItem.link sha) ?_ ?_ ?_ (hend₁.trans hend₂.symm)
    · intro p hp q hq hpq
      obtain ⟨c, hc, rfl⟩ := hchk₁.mem_links p hp
      obtain ⟨d, hd, rfl⟩ := hchk₂.mem_links q hq
      have hmsg := hinj (hin₁ (chainMessage_hashed (hmem₁ c hc)))
        (hin₂ (chainMessage_hashed (hmem₂ d hd))) hpq
      obtain ⟨hprev, hitem⟩ := ChainItem.message_inj (hfit₁ c hc).2 (hfit₂ d hd).2
        (hfit₁ c hc).1 (hfit₂ d hd).1 hmsg
      rw [hprev, hitem]
    · intro q hq hseed
      obtain ⟨d, hd, rfl⟩ := hchk₂.mem_links q hq
      exact hlen (hfit₂ d hd) (hinj (hin₂ (chainMessage_hashed (hmem₂ d hd)))
        (hin₁ genesisMessage_hashed) hseed)
    · intro p hp hseed
      obtain ⟨c, hc, rfl⟩ := hchk₁.mem_links p hp
      exact hlen (hfit₁ c hc) (hinj (hin₁ (chainMessage_hashed (hmem₁ c hc)))
        (hin₂ genesisMessage_hashed) hseed)
  have hviews : xs.map (viewOf r₁) = ys.map (viewOf r₂) :=
    views_eq hitems (fun c hc => hchk₁.mem hc) (fun c hc => hchk₂.mem hc)
      fun c hc d hd => hinj (hin₁ (bodies_hashed (hmem₁ c hc))) (hin₂ (bodies_hashed (hmem₂ d hd)))
  refine ⟨by rw [historyUpTo, historyUpTo, hfil₁, hfil₂, hviews], ?_⟩
  rw [hret₁, hret₂, List.head?_append_of_ne_nil _ hne₁, List.head?_append_of_ne_nil _ hne₂]
  have hversions := congrArg (fun l => (l.map CommitView.version).head?) hviews
  simpa [viewOf, List.map_map, Function.comp_def] using hversions

/-! ### A file and its continuation -/

namespace AnchorSample

def fileId : Bytes := List.replicate 16 7

def first : CommitHeader :=
  commitHeader .std (.after (genesisHead .std fileId) "main" 0) ⟨0, 0, 1000⟩ 0 []

def head₁ : Head := headFrom first 3

def second : CommitHeader := commitHeader .std (.after head₁ "main" 3) ⟨0, 0, 2000⟩ 1 []

def head₂ : Head := headFrom second 4

def short : PageLog := ⟨fileId, [commitBody first], by decide, by decide +kernel⟩

def long : PageLog := ⟨fileId, [commitBody first, commitBody second], by decide, by decide +kernel⟩

def anchor : AuditAnchor := ⟨1, first.chain_hash⟩

end AnchorSample

open AnchorSample in
/-- The one commit of a file is also the first of its continuation. -/
theorem anchor_sound_continued :
    historyUpTo 2 short.reader head₁ 1 = historyUpTo 3 long.reader head₂ 1 ∧
      (retained 2 short.reader head₁).head?.map (·.2.version)
        = (retained 3 long.reader head₂).head?.map (·.2.version) :=
  anchor_sound (a := anchor)
    (by decide +kernel : verifyAnchored .std 2 short.reader head₁ (some anchor)
      = .ok ⟨1, 1, true, first.chain_hash⟩)
    (by decide +kernel : verifyAnchored .std 3 long.reader head₂ (some anchor)
      = .ok ⟨2, 2, true, second.chain_hash⟩)
    fun m hm n hn => (by decide +kernel :
      ∀ m ∈ hashedMessages 2 short.reader head₁ ++ hashedMessages 3 long.reader head₂,
        ∀ n ∈ hashedMessages 2 short.reader head₁ ++ hashedMessages 3 long.reader head₂,
          Sha256.std.digest m = Sha256.std.digest n → m = n) m hm n hn

end Arkeion
