import Arkeion.Sessions

/-!
What writes leave of the bytes that are already in the zone.

A write at or after the end of some bytes keeps them, whether it lands or not; the records
of a commit, one after the other, put their layout there.
-/

namespace Arkeion

open Arkeion.Lib

lemma writeZone_isPrefix {p zone b : Bytes} {offset : ℕ} (h : p <+: zone) (hle : p.length ≤ offset) :
    p <+: writeZone zone offset b := by
  unfold writeZone
  split_ifs
  · exact h
  · rw [List.append_assoc, List.append_assoc]
    exact (List.prefix_take_iff.2 ⟨h, hle⟩).trans (List.prefix_append _ _)

lemma writeZone_extend {p zone b : Bytes} (h : p <+: zone) :
    p ++ b <+: writeZone zone p.length b := by
  obtain ⟨rest, rfl⟩ := h
  unfold writeZone
  split_ifs with hb
  · subst hb
    simp
  · rw [List.take_left' rfl, show p.length - (p ++ rest).length = 0 by simp]
    exact ⟨_, by simp only [List.replicate_zero, List.append_nil]; rfl⟩

/-- Writing at the end. -/
lemma writeZone_end (p b : Bytes) : writeZone p p.length b = p ++ b := by
  unfold writeZone
  split_ifs with hb
  · rw [hb, List.append_nil]
  · rw [List.take_length, Nat.sub_self, List.drop_of_length_le (by omega)]
    simp

/-- The write is at or after `n`, or not into the zone at all. -/
def FileWrite.Past (n : ℕ) : FileWrite → Prop
  | .bytes offset _ => n ≤ offset
  | .slot _ => True

lemma FileWrite.Past.mono {m n : ℕ} (h : m ≤ n) {w : FileWrite} (hw : w.Past n) : w.Past m := by
  cases w with
  | bytes offset b => exact h.trans hw
  | slot m => trivial

namespace Disk

lemma apply_isPrefix {d : Disk} {p : Bytes} {w : FileWrite} (h : p <+: d.zone)
    (hw : w.Past p.length) : p <+: (d.apply w).zone := by
  cases w with
  | bytes offset b => exact writeZone_isPrefix h hw
  | slot m =>
    simp only [apply]
    split <;> exact h

lemma applyAll_append (d : Disk) (ws vs : List FileWrite) :
    d.applyAll (ws ++ vs) = (d.applyAll ws).applyAll vs := by
  simp [applyAll]

lemma applyAll_isPrefix {d : Disk} {p : Bytes} {ws : List FileWrite} (h : p <+: d.zone)
    (hw : ∀ w ∈ ws, w.Past p.length) : p <+: (d.applyAll ws).zone := by
  induction ws generalizing d with
  | nil => exact h
  | cons w ws ih =>
    exact ih (apply_isPrefix h (hw w (by simp))) fun v hv => hw v (by simp [hv])

/-- No matter which of the writes a crash lets through. -/
lemma applyLanded_isPrefix {d : Disk} {p : Bytes} {ws : List FileWrite} {landed : List Bool}
    (h : p <+: d.zone) (hw : ∀ w ∈ ws, w.Past p.length) :
    p <+: (d.applyLanded ws landed).zone := by
  induction ws generalizing d landed with
  | nil => exact h
  | cons w ws ih =>
    cases landed with
    | nil => exact h
    | cons l ls =>
      refine ih ?_ fun v hv => hw v (by simp [hv])
      split
      · exact apply_isPrefix h (hw w (by simp))
      · exact h

lemma mem_metaSlots_apply {d : Disk} {w : FileWrite} {m : MetaSlot}
    (h : m ∈ (d.apply w).metaSlots) : m ∈ d.metaSlots ∨ w = .slot m := by
  cases w with
  | bytes offset b => exact Or.inl h
  | slot m' =>
    simp only [apply] at h
    split at h <;> simp only [metaSlots, List.mem_append, Option.mem_toList,
      Option.some.injEq] at h ⊢
    · rcases h with h | h
      · exact Or.inr (by rw [h])
      · exact Or.inl (Or.inr h)
    · rcases h with h | h
      · exact Or.inl (Or.inl h)
      · exact Or.inr (by rw [h])

lemma metaSlots_apply_ne {d : Disk} {w : FileWrite} (h : d.metaSlots ≠ []) :
    (d.apply w).metaSlots ≠ [] := by
  cases w with
  | bytes offset b => exact h
  | slot m =>
    simp only [apply]
    split <;> simp [metaSlots]

/-- A slot after a crash was there before, or was written. -/
lemma mem_metaSlots_applyLanded {d : Disk} {ws : List FileWrite} {landed : List Bool} {m : MetaSlot}
    (h : m ∈ (d.applyLanded ws landed).metaSlots) : m ∈ d.metaSlots ∨ FileWrite.slot m ∈ ws := by
  induction ws generalizing d landed with
  | nil => exact Or.inl h
  | cons w ws ih =>
    cases landed with
    | nil => exact Or.inl h
    | cons l ls =>
      rcases ih h with h | h
      · split at h
        · rcases mem_metaSlots_apply h with h | rfl
          · exact Or.inl h
          · exact Or.inr (by simp)
        · exact Or.inl h
      · exact Or.inr (by simp [h])

lemma metaSlots_applyLanded_ne {d : Disk} {ws : List FileWrite} {landed : List Bool}
    (h : d.metaSlots ≠ []) : (d.applyLanded ws landed).metaSlots ≠ [] := by
  induction ws generalizing d landed with
  | nil => exact h
  | cons w ws ih =>
    cases landed with
    | nil => exact h
    | cons l ls =>
      refine ih ?_
      split
      · exact metaSlots_apply_ne h
      · exact h

lemma applyLanded_replicate (d : Disk) (ws : List FileWrite) (k : ℕ) :
    d.applyLanded ws (List.replicate k true) = d.applyAll (ws.take k) := by
  induction ws generalizing d k with
  | nil =>
    rw [List.take_nil]
    rfl
  | cons w ws ih =>
    cases k with
    | zero => rfl
    | succ k => exact ih (d.apply w) k

lemma applyAll_eq_applyLanded (d : Disk) (ws : List FileWrite) :
    d.applyAll ws = d.applyLanded ws (List.replicate ws.length true) := by
  rw [applyLanded_replicate, List.take_length]

end Disk

/-! ### The records of a commit -/

section Records
variable (cfg : PagerConfig) {id counter offset : ℕ} {bs : List Bytes}

lemma layRecords_offset_le {r : PageRecord} (h : r ∈ cfg.layRecords id counter offset bs) :
    offset ≤ r.offset := by
  induction bs generalizing id counter offset with
  | nil => simp [PagerConfig.layRecords] at h
  | cons b bs ih =>
    rw [PagerConfig.layRecords, List.mem_cons] at h
    rcases h with rfl | h
    · rfl
    · have := ih h
      omega

lemma layRecords_bytes (id counter offset : ℕ) (bs : List Bytes) :
    ((cfg.layRecords id counter offset bs).map PageRecord.bytes).flatten
      = cfg.layout id (sealedFrom counter bs) := by
  induction bs generalizing id counter offset with
  | nil => rfl
  | cons b bs ih =>
    simp only [PagerConfig.layRecords, sealedFrom, PagerConfig.layout, List.map_cons,
      List.flatten_cons, ih]
    rfl

lemma layRecords_locs (id counter offset : ℕ) (bs : List Bytes) :
    (cfg.layRecords id counter offset bs).map PageRecord.loc
      = cfg.layoutLocs id offset (sealedFrom counter bs) := by
  induction bs generalizing id counter offset with
  | nil => rfl
  | cons b bs ih =>
    simp only [PagerConfig.layRecords, sealedFrom, PagerConfig.layoutLocs, List.map_cons, ih]
    rfl

/-- Writing the records after some bytes puts their layout there. -/
lemma applyAll_layRecords {d : Disk} {p : Bytes} (h : p <+: d.zone) (id counter : ℕ)
    (bs : List Bytes) :
    p ++ cfg.layout id (sealedFrom counter bs)
      <+: (d.applyAll (Session.recordWrites (cfg.layRecords id counter p.length bs))).zone := by
  induction bs generalizing id counter d p with
  | nil =>
    rw [sealedFrom, PagerConfig.layout, List.append_nil]
    exact h
  | cons b bs ih =>
    have hone : p ++ (cfg.recordAt id counter p.length b).bytes
        <+: (d.apply (.bytes p.length (cfg.recordAt id counter p.length b).bytes)).zone :=
      writeZone_extend h
    have hrest := ih hone (id + 1) (counter + 1)
    rw [List.length_append, List.append_assoc] at hrest
    exact hrest

/-- Writing the records at the end of the zone. -/
lemma applyAll_layRecords_end {d : Disk} (id counter : ℕ) (bs : List Bytes) :
    (d.applyAll (Session.recordWrites (cfg.layRecords id counter d.zone.length bs)))
      = { d with zone := d.zone ++ cfg.layout id (sealedFrom counter bs) } := by
  induction bs generalizing id counter d with
  | nil => simp [sealedFrom, PagerConfig.layout, PagerConfig.layRecords, Session.recordWrites,
      Disk.applyAll]
  | cons b bs ih =>
    have hone : d.apply (.bytes d.zone.length (cfg.recordAt id counter d.zone.length b).bytes)
        = { d with zone := d.zone ++ (cfg.recordAt id counter d.zone.length b).bytes } := by
      rw [Disk.apply, writeZone_end]
    have hrest := ih (d := { d with zone := d.zone ++ (cfg.recordAt id counter d.zone.length b).bytes })
      (id + 1) (counter + 1)
    simp only [List.length_append, List.append_assoc] at hrest
    rw [← hone] at hrest
    exact hrest

end Records

end Arkeion
