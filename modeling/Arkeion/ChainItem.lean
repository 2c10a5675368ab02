import Arkeion.Audit
import Arkeion.Lib.HashChain
import Mathlib.Data.List.TakeWhile

/-!
What a commit contributes to the hash chain, and that the hashed message determines it.
-/

namespace Arkeion

open Arkeion.Lib

/-- The fields of a header the chain hash covers, besides the digest before. -/
structure ChainItem where
  content_hash : Bytes
  version : ℕ
  timestamp_ms : ℕ
  data_root : ℕ
  meta_root : ℕ
  branch : String
  deriving DecidableEq, Repr

namespace ChainItem

def message (prev : Bytes) (c : ChainItem) : Bytes :=
  prev ++ c.content_hash ++ leBytes 8 c.version ++ leBytes 8 c.timestamp_ms
    ++ leBytes 8 c.data_root ++ leBytes 8 c.meta_root ++ branchField c.branch

/-- The digest after the item. -/
def link (sha : Sha256) (prev : Bytes) (c : ChainItem) : Bytes := sha.digest (c.message prev)

/-- The numbers are of 64 bits, the digest of 32 bytes, and the name fits its field. -/
structure Fits (c : ChainItem) : Prop where
  content : c.content_hash.length = 32
  version : c.version < 2 ^ 64
  timestamp : c.timestamp_ms < 2 ^ 64
  data : c.data_root < 2 ^ 64
  meta_ : c.meta_root < 2 ^ 64
  len : (utf8 c.branch).length ≤ BRANCH_MAX
  nul : 0 ∉ utf8 c.branch

end ChainItem

def CommitHeader.item (h : CommitHeader) : ChainItem :=
  ⟨h.content_hash, h.version, h.timestamp_ms, h.data_root, h.meta_root, h.branch⟩

lemma CommitHeader.chainMessage_eq (h : CommitHeader) :
    h.chainMessage = h.item.message h.prev_chain := rfl

lemma CommitHeader.computeChain_eq (sha : Sha256) (h : CommitHeader) :
    h.computeChain sha = h.item.link sha h.prev_chain := rfl

lemma utf8_inj {s t : String} (h : utf8 s = utf8 t) : s = t := by
  apply String.toByteArray_inj.1
  have : s.toByteArray.data = t.toByteArray.data := Array.toList_inj.1 h
  cases hs : s.toByteArray
  cases ht : t.toByteArray
  simp_all

lemma utf8_of_fromUtf8 {b : Bytes} {s : String} (h : fromUtf8 b = some s) : utf8 s = b := by
  unfold fromUtf8 String.fromUTF8? at h
  split at h
  · cases h; rfl
  · cases h

lemma upToZero_append (x : Bytes) (n : ℕ) (h : 0 ∉ x) :
    CommitHeader.upToZero (x ++ List.replicate n 0) = x := by
  unfold CommitHeader.upToZero
  have hx : ∀ a ∈ x, decide (a ≠ 0) = true := by
    intro a ha
    rw [decide_eq_true_iff]
    rintro rfl
    exact h ha
  rw [List.takeWhile_append_of_pos hx]
  cases n <;> simp [List.replicate_succ]

lemma length_branchField {s : String} (h : (utf8 s).length ≤ BRANCH_MAX) :
    (branchField s).length = BRANCH_MAX := by
  simp [branchField]; omega

lemma branchField_inj {s t : String} (hs : 0 ∉ utf8 s) (ht : 0 ∉ utf8 t)
    (h : branchField s = branchField t) : s = t := by
  apply utf8_inj
  rw [← upToZero_append _ _ hs, ← upToZero_append _ _ ht]
  exact congrArg _ h

/-- The message determines the digest before and the item. -/
lemma ChainItem.message_inj {d e : Bytes} {c b : ChainItem} (hd : d.length = 32)
    (he : e.length = 32) (hc : c.Fits) (hb : b.Fits) (h : c.message d = b.message e) :
    d = e ∧ c = b := by
  unfold message at h
  obtain ⟨h, hbr⟩ := List.append_inj' h
    (by rw [length_branchField hc.len, length_branchField hb.len])
  obtain ⟨h, hm⟩ := List.append_inj' h (by simp)
  obtain ⟨h, hdr⟩ := List.append_inj' h (by simp)
  obtain ⟨h, hts⟩ := List.append_inj' h (by simp)
  obtain ⟨h, hv⟩ := List.append_inj' h (by simp)
  obtain ⟨hde, hch⟩ := List.append_inj h (by rw [hd, he])
  refine ⟨hde, ?_⟩
  have hv := leBytes_inj hc.version hb.version hv
  have hts := leBytes_inj hc.timestamp hb.timestamp hts
  have hdr := leBytes_inj hc.data hb.data hdr
  have hm := leBytes_inj hc.meta_ hb.meta_ hm
  have hbr := branchField_inj hc.nul hb.nul hbr
  cases c; cases b; simp_all

lemma ChainItem.length_message {d : Bytes} {c : ChainItem} (hd : d.length = 32) (hc : c.Fits) :
    (c.message d).length = 160 := by
  simp [message, length_branchField hc.len, hd, hc.content, BRANCH_MAX]

/-! ### What decoding guarantees -/

lemma leNat_sub_lt (b : Bytes) (off : ℕ) : leNat (sub b off 8) < 2 ^ 64 := by
  have h := leNat_lt (sub b off 8)
  have hl : (sub b off 8).length ≤ 8 := by rw [length_sub]; omega
  calc leNat (sub b off 8) < 256 ^ (sub b off 8).length := h
    _ ≤ 256 ^ 8 := Nat.pow_le_pow_right (by omega) hl
    _ = 2 ^ 64 := by norm_num

lemma decode_fits {b : Bytes} {h : CommitHeader} (hb : b.length = BODY_SIZE)
    (hd : CommitHeader.decode b = some h) : h.item.Fits ∧ h.prev_chain.length = 32 := by
  unfold CommitHeader.decode at hd
  split at hd
  · cases hd
  · dsimp only at hd
    split at hd
    · cases hd
    · rename_i br hbr
      cases hd
      have hu := utf8_of_fromUtf8 hbr
      refine ⟨⟨?_, leNat_sub_lt _ _, leNat_sub_lt _ _, leNat_sub_lt _ _, leNat_sub_lt _ _, ?_, ?_⟩,
        ?_⟩
      · simp [CommitHeader.item, length_sub, hb, BODY_SIZE_eq]
      · simp only [CommitHeader.item, hu]
        refine ((List.takeWhile_sublist _).length_le).trans ?_
        rw [length_sub]
        omega
      · simp only [CommitHeader.item, hu]
        intro h0
        simpa using List.mem_takeWhile_imp h0
      · simp [length_sub, hb, BODY_SIZE_eq]

end Arkeion
