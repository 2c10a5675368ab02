import Arkeion.ChainItem

/-!
The commit page a transaction writes, and what decoding gives back of it.
-/

namespace Arkeion

open Arkeion.Lib

/-- The header fields of a commit that do not come from its data. -/
structure CommitParams where
  version : ℕ
  flags : ℕ
  prev_page : ℕ
  prev_chain : Bytes
  branch : String
  parent_page : ℕ
  deriving DecidableEq, Repr

/-- A normal commit after the head `base`. -/
def CommitParams.after (base : Head) (branch : String) (parent_page : ℕ) : CommitParams where
  version := base.version + 1
  flags := 0
  prev_page := base.commit_page
  prev_chain := base.chain_hash
  branch := branch
  parent_page := parent_page

/-- The first commit of a compacted file. -/
def CommitParams.checkpoint (version : ℕ) (prev_chain : Bytes) (branch : String) : CommitParams where
  version := version
  flags := COMMIT_FLAG_CHECKPOINT
  prev_page := 0
  prev_chain := prev_chain
  branch := branch
  parent_page := 0

/-- The roots and the time a commit records. -/
structure CommitData where
  data_root : ℕ
  meta_root : ℕ
  timestamp_ms : ℕ
  deriving DecidableEq, Repr

/-- The header of the commit that writes `bodies`; `nonce` counts the pages sealed before. -/
def commitHeader (sha : Sha256) (p : CommitParams) (d : CommitData) (nonce : ℕ)
    (bodies : List Bytes) : CommitHeader :=
  let header : CommitHeader :=
    { flags := p.flags
      version := p.version
      parent_page := p.parent_page
      prev_page := p.prev_page
      timestamp_ms := d.timestamp_ms
      data_root := d.data_root
      meta_root := d.meta_root
      nonce_counter := nonce + 1
      pages_written := bodies.length + 1
      branch := p.branch
      content_hash := sha.digest bodies.flatten
      prev_chain := p.prev_chain
      chain_hash := List.replicate 32 0 }
  { header with chain_hash := header.computeChain sha }

def zeroBody : Bytes := List.replicate BODY_SIZE 0

/-- The commit page itself. -/
def commitBody (h : CommitHeader) : Bytes := h.encodeInto zeroBody

/-! ### Decoding what was encoded -/

namespace CommitHeader

/-- The fields are of the widths of their types. -/
structure Sized (h : CommitHeader) : Prop where
  flags : h.flags < 2 ^ 32
  version : h.version < 2 ^ 64
  parent_page : h.parent_page < 2 ^ 64
  prev_page : h.prev_page < 2 ^ 64
  timestamp : h.timestamp_ms < 2 ^ 64
  data : h.data_root < 2 ^ 64
  meta_ : h.meta_root < 2 ^ 64
  nonce : h.nonce_counter < 2 ^ 64
  pages : h.pages_written < 2 ^ 64
  branch : (utf8 h.branch).length ≤ BRANCH_MAX
  content : h.content_hash.length = 32
  prev : h.prev_chain.length = 32
  chain : h.chain_hash.length = 32

/-- The fields of a commit page, and what is left of the body. -/
def pieces (h : CommitHeader) (rest : Bytes) : List Bytes :=
  [MAGIC_COMMIT, leBytes 4 h.flags, List.replicate 4 0, leBytes 8 h.version,
    leBytes 8 h.parent_page, leBytes 8 h.prev_page, leBytes 8 h.timestamp_ms,
    leBytes 8 h.data_root, leBytes 8 h.meta_root, leBytes 8 h.nonce_counter,
    leBytes 8 h.pages_written, branchField h.branch, h.content_hash, h.prev_chain, h.chain_hash,
    rest]

lemma length_fields {h : CommitHeader} (hs : h.Sized) : h.fields.length = 240 := by
  simp [fields, MAGIC_COMMIT, length_branchField hs.branch, hs.content, hs.prev, hs.chain,
    BRANCH_MAX]

lemma encodeInto_eq (h : CommitHeader) (body : Bytes) :
    h.encodeInto body = (h.pieces (body.drop h.fields.length)).flatten := by
  simp [encodeInto, writeAt, pieces, fields]

lemma length_encodeInto {h : CommitHeader} (hs : h.Sized) {body : Bytes}
    (hb : body.length = BODY_SIZE) : (h.encodeInto body).length = BODY_SIZE := by
  rw [encodeInto, length_writeAt, hb]
  rw [length_fields hs, hb]
  decide

lemma upToZero_branchField {s : String} (h : 0 ∉ utf8 s) : upToZero (branchField s) = utf8 s :=
  upToZero_append _ _ h

lemma fromUtf8_utf8 (s : String) : fromUtf8 (utf8 s) = some s := by
  have hb : (⟨(utf8 s).toArray⟩ : ByteArray) = s.toByteArray := by
    cases hs : s.toByteArray
    simp [utf8, hs]
  rw [fromUtf8, hb, String.fromUTF8?, dif_pos s.isValidUTF8]
  rfl

/-- All but the branch name is read back as it was written; of the name, what is before its
first zero byte. -/
theorem decode_encodeInto_eq {h : CommitHeader} (hs : h.Sized) (body : Bytes) :
    decode (h.encodeInto body)
      = (fromUtf8 (upToZero (branchField h.branch))).map fun b => { h with branch := b } := by
  rw [encodeInto_eq]
  set rest := body.drop h.fields.length
  have hbr := length_branchField hs.branch
  have piece (i : ℕ) {n len : ℕ} {x : Bytes} (hx : (h.pieces rest)[i]? = some x)
      (hp : n = ((h.pieces rest).take i).flatten.length) (hl : len = x.length) :
      sub (h.pieces rest).flatten n len = x := sub_flatten _ i hx hp hl
  have hcontent := hs.content
  have hprev := hs.prev
  have hchain := hs.chain
  rw [decode, piece 0 rfl (by simp) (by simp [MAGIC_COMMIT])]
  rw [if_neg (by simp)]
  rw [piece 11 (n := 80) rfl (by simp [pieces, MAGIC_COMMIT]) hbr.symm]
  simp only
  rw [piece 1 (n := 8) rfl (by simp [pieces, MAGIC_COMMIT]) (by simp),
    piece 3 (n := 16) rfl (by simp [pieces, MAGIC_COMMIT]) (by simp),
    piece 4 (n := 24) rfl (by simp [pieces, MAGIC_COMMIT]) (by simp),
    piece 5 (n := 32) rfl (by simp [pieces, MAGIC_COMMIT]) (by simp),
    piece 6 (n := 40) rfl (by simp [pieces, MAGIC_COMMIT]) (by simp),
    piece 7 (n := 48) rfl (by simp [pieces, MAGIC_COMMIT]) (by simp),
    piece 8 (n := 56) rfl (by simp [pieces, MAGIC_COMMIT]) (by simp),
    piece 9 (n := 64) rfl (by simp [pieces, MAGIC_COMMIT]) (by simp),
    piece 10 (n := 72) rfl (by simp [pieces, MAGIC_COMMIT]) (by simp),
    piece 12 (n := 144) rfl (by simp [pieces, MAGIC_COMMIT, hbr, BRANCH_MAX]) hcontent.symm,
    piece 13 (n := 176) rfl (by simp [pieces, MAGIC_COMMIT, hbr, BRANCH_MAX, hcontent])
      hprev.symm,
    piece 14 (n := 208) rfl (by simp [pieces, MAGIC_COMMIT, hbr, BRANCH_MAX, hcontent, hprev])
      hchain.symm,
    leNat_leBytes 4 hs.flags, leNat_leBytes 8 hs.version, leNat_leBytes 8 hs.parent_page,
    leNat_leBytes 8 hs.prev_page, leNat_leBytes 8 hs.timestamp, leNat_leBytes 8 hs.data,
    leNat_leBytes 8 hs.meta_, leNat_leBytes 8 hs.nonce, leNat_leBytes 8 hs.pages]
  cases fromUtf8 (upToZero (branchField h.branch)) <;> rfl

/-- A header whose branch name has no zero byte is read back as it was written. -/
theorem decode_encodeInto {h : CommitHeader} (hs : h.Sized) (hnul : 0 ∉ utf8 h.branch)
    (body : Bytes) : decode (h.encodeInto body) = some h := by
  rw [decode_encodeInto_eq hs, upToZero_branchField hnul, fromUtf8_utf8]
  rfl

/-- Whatever is read back differs from what was written in the branch name at most. -/
lemma decode_fields {h h' : CommitHeader} (hs : h.Sized) {body : Bytes}
    (hd : decode (h.encodeInto body) = some h') : h' = { h with branch := h'.branch } := by
  rw [decode_encodeInto_eq hs, Option.map_eq_some_iff] at hd
  obtain ⟨b, -, rfl⟩ := hd
  rfl

end CommitHeader

end Arkeion
