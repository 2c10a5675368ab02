import Arkeion.Recovery

/-!
What the pager reads back of the records it has written.
-/

namespace Arkeion

open Arkeion.Lib

lemma trimTrailingZeros_fill {body : Bytes} {n : ℕ} (h : body.length = n) :
    trimTrailingZeros body
      ++ List.replicate (n - (trimTrailingZeros body).length) 0 = body := by
  have happ := List.rdropWhile_append_rtakeWhile (p := fun b : UInt8 => b == 0) (l := body)
  have hlen := congrArg List.length happ
  rw [List.length_append, h] at hlen
  have hz : body.rtakeWhile (· == 0)
      = List.replicate (n - (trimTrailingZeros body).length) 0 := by
    refine List.eq_replicate_iff.2 ⟨?_, fun b hb => ?_⟩
    · rw [trimTrailingZeros]; omega
    · simpa using List.mem_rtakeWhile_imp hb
  rw [← hz]
  exact happ

lemma length_trimTrailingZeros_le (body : Bytes) :
    (trimTrailingZeros body).length ≤ body.length :=
  (List.rdropWhile_prefix _ _).length_le

namespace PagerConfig

variable (cfg : PagerConfig)

lemma decodeBody_bodyToSeal {trimmed : Bytes} (h : trimmed.length < 2 ^ 64) (id : ℕ) :
    cfg.decodeBody (cfg.bodyToSeal trimmed) id = .ok trimmed := by
  unfold bodyToSeal decodeBody
  cases hc : cfg.compressor with
  | none => rfl
  | some c =>
    cases hx : c.compress trimmed with
    | none => simp [hx]
    | some comp =>
      have hne : c.method ≠ METHOD_RAW := by
        intro h
        rw [c.raw h] at hx
        cases hx
      simp [hx, hne, c.decompress_compress _ _ h hx]

lemma length_bodyToSeal_le (trimmed : Bytes) :
    (cfg.bodyToSeal trimmed).length ≤ trimmed.length + 1 := by
  unfold bodyToSeal
  cases hc : cfg.compressor with
  | none => simp
  | some c =>
    cases hx : c.compress trimmed with
    | none => simp [hx]
    | some comp =>
      have := c.length_compress _ _ hx
      simp only [hx, List.length_cons]
      omega

lemma length_sealPage (id counter : ℕ) (body : Bytes) :
    (cfg.sealPage id counter body).length
      = CRYPTO_RESERVE + (cfg.bodyToSeal (trimTrailingZeros body)).length :=
  cfg.crypto.length_sealBytes _ _ _

/-- The length of a payload fits its prefix, and is no shorter than the reserve. -/
lemma sealPage_bounds (id counter : ℕ) {body : Bytes} (h : body.length = BODY_SIZE) :
    CRYPTO_RESERVE ≤ (cfg.sealPage id counter body).length ∧
      (cfg.sealPage id counter body).length < 256 ^ LEN_PREFIX_LEN := by
  have h1 := cfg.length_bodyToSeal_le (trimTrailingZeros body)
  have h2 := length_trimTrailingZeros_le body
  rw [length_sealPage]
  simp only [h, BODY_SIZE_eq] at h2
  simp only [CRYPTO_RESERVE, NONCE_LEN, TAG_LEN, LEN_PREFIX_LEN]
  omega

lemma length_framedRecord (stored : Bytes) :
    (cfg.framedRecord stored).length
      = LEN_PREFIX_LEN + stored.length + cfg.parityLen stored.length := by
  unfold framedRecord parityLen frame
  cases cfg.ecc with
  | none => simp
  | some e => simp [e.length_parity]; omega

lemma framedRecord_eq (stored : Bytes) :
    ∃ parity, cfg.framedRecord stored = leBytes LEN_PREFIX_LEN stored.length ++ stored ++ parity := by
  unfold framedRecord frame
  cases cfg.ecc with
  | none => exact ⟨[], by simp⟩
  | some e => exact ⟨e.parity stored, rfl⟩

end PagerConfig

/-! ### Pages laid one after the other -/

/-- A page body with the counter it is sealed under. -/
structure SealedPage where
  counter : ℕ
  body : Bytes
  deriving DecidableEq, Repr

/-- Full bodies, as pages have them. -/
def FullPages (ps : List SealedPage) : Prop := ∀ p ∈ ps, p.body.length = BODY_SIZE

namespace PagerConfig

variable (cfg : PagerConfig)

def recordBytes (id : ℕ) (p : SealedPage) : Bytes :=
  cfg.framedRecord (cfg.sealPage id p.counter p.body)

/-- The bytes of consecutive pages, the first one with the given id. -/
def layout : ℕ → List SealedPage → Bytes
  | _, [] => []
  | id, p :: ps => cfg.recordBytes id p ++ layout (id + 1) ps

/-- Their places, when the bytes begin at `offset`. -/
def layoutLocs : ℕ → ℕ → List SealedPage → List PhysLoc
  | _, _, [] => []
  | id, offset, p :: ps =>
    ⟨offset + LEN_PREFIX_LEN, (cfg.sealPage id p.counter p.body).length⟩
      :: layoutLocs (id + 1) (offset + (cfg.recordBytes id p).length) ps

lemma layout_append (id : ℕ) (ps qs : List SealedPage) :
    cfg.layout id (ps ++ qs) = cfg.layout id ps ++ cfg.layout (id + ps.length) qs := by
  induction ps generalizing id with
  | nil => rfl
  | cons p ps ih =>
    simp only [List.cons_append, layout, ih, List.length_cons, List.append_assoc]
    rw [show id + 1 + ps.length = id + (ps.length + 1) by omega]

lemma layoutLocs_append (id offset : ℕ) (ps qs : List SealedPage) :
    cfg.layoutLocs id offset (ps ++ qs) = cfg.layoutLocs id offset ps
      ++ cfg.layoutLocs (id + ps.length) (offset + (cfg.layout id ps).length) qs := by
  induction ps generalizing id offset with
  | nil => rfl
  | cons p ps ih =>
    simp only [List.cons_append, layout, layoutLocs, ih, List.length_cons, List.length_append]
    rw [show id + 1 + ps.length = id + (ps.length + 1) by omega, Nat.add_assoc offset]

@[simp] lemma length_layoutLocs (id offset : ℕ) (ps : List SealedPage) :
    (cfg.layoutLocs id offset ps).length = ps.length := by
  induction ps generalizing id offset with
  | nil => rfl
  | cons p ps ih => simp [layoutLocs, ih]

/-- The end of the last page: its payload and parity end where the layout does. -/
lemma layoutLocs_last (id offset : ℕ) (ps : List SealedPage) (p : SealedPage) :
    ∃ l, (cfg.layoutLocs id offset (ps ++ [p]))[ps.length]? = some l ∧
      l.offset + l.len + cfg.parityLen l.len = offset + (cfg.layout id (ps ++ [p])).length := by
  refine ⟨⟨offset + (cfg.layout id ps).length + LEN_PREFIX_LEN,
    (cfg.sealPage (id + ps.length) p.counter p.body).length⟩, ?_, ?_⟩
  · rw [layoutLocs_append, List.getElem?_append_right (by simp)]
    simp [layoutLocs]
  · simp only [layout_append, layout, List.length_append, List.append_nil, recordBytes,
      length_framedRecord]
    omega

lemma length_recordBytes_ge (id : ℕ) (p : SealedPage) :
    MIN_RECORD_LEN ≤ (cfg.recordBytes id p).length := by
  rw [recordBytes, length_framedRecord, length_sealPage]
  simp only [MIN_RECORD_LEN]
  omega

lemma length_layout_ge (id : ℕ) (ps : List SealedPage) :
    ps.length * MIN_RECORD_LEN ≤ (cfg.layout id ps).length := by
  induction ps generalizing id with
  | nil => simp [layout]
  | cons p ps ih =>
    have h1 := cfg.length_recordBytes_ge id p
    have h2 := ih (id + 1)
    simp only [layout, List.length_append, List.length_cons, Nat.add_mul]
    omega

/-- One record is swept over. -/
lemma sweepFrom_record (pre rest : Bytes) (id n : ℕ) {p : SealedPage}
    (hp : p.body.length = BODY_SIZE) :
    let zone := pre ++ cfg.recordBytes id p ++ rest
    cfg.sweepFrom zone (n + 1) pre.length
      = (⟨pre.length + LEN_PREFIX_LEN, (cfg.sealPage id p.counter p.body).length⟩
          :: (cfg.sweepFrom zone n (pre ++ cfg.recordBytes id p).length).1,
        (cfg.sweepFrom zone n (pre ++ cfg.recordBytes id p).length).2) := by
  intro zone
  set stored := cfg.sealPage id p.counter p.body with hstored
  obtain ⟨hlo, hhi⟩ : CRYPTO_RESERVE ≤ stored.length ∧ stored.length < 256 ^ LEN_PREFIX_LEN :=
    cfg.sealPage_bounds id p.counter hp
  obtain ⟨parity, hparity⟩ := cfg.framedRecord_eq stored
  have hslice : slice? zone pre.length LEN_PREFIX_LEN
      = some (leBytes LEN_PREFIX_LEN stored.length) := by
    have hz : zone = pre ++ leBytes LEN_PREFIX_LEN stored.length ++ (stored ++ parity ++ rest) := by
      simp only [zone, recordBytes, ← hstored, hparity, List.append_assoc]
    rw [hz]
    exact slice?_append _ _ _ rfl (by simp)
  have hnext : pre.length + LEN_PREFIX_LEN + stored.length + cfg.parityLen stored.length
      = (pre ++ cfg.recordBytes id p).length := by
    rw [List.length_append, recordBytes, ← hstored, length_framedRecord]
    omega
  have hfit : ¬ (stored.length < CRYPTO_RESERVE ∨
      (pre ++ cfg.recordBytes id p).length > zone.length) := by
    simp only [zone, List.length_append]
    omega
  rw [sweepFrom, hslice]
  simp only [leNat_leBytes LEN_PREFIX_LEN hhi, hnext, if_neg hfit]

/-- Laid pages are swept over. -/
lemma sweepFrom_layout (pre rest : Bytes) (id n : ℕ) {ps : List SealedPage}
    (hps : FullPages ps) :
    let zone := pre ++ cfg.layout id ps ++ rest
    cfg.sweepFrom zone (ps.length + n) pre.length
      = (cfg.layoutLocs id pre.length ps
          ++ (cfg.sweepFrom zone n (pre ++ cfg.layout id ps).length).1,
        (cfg.sweepFrom zone n (pre ++ cfg.layout id ps).length).2) := by
  induction ps generalizing pre id with
  | nil => simp [layout, layoutLocs]
  | cons p ps ih =>
    intro zone
    have hz : zone = pre ++ cfg.recordBytes id p ++ (cfg.layout (id + 1) ps ++ rest) := by
      simp only [zone, layout, List.append_assoc]
    have hz' : zone = pre ++ cfg.recordBytes id p ++ cfg.layout (id + 1) ps ++ rest := by
      simp only [zone, layout, List.append_assoc]
    have hone := cfg.sweepFrom_record pre (cfg.layout (id + 1) ps ++ rest) id (ps.length + n)
      (hps p (by simp))
    have hrest := ih (pre ++ cfg.recordBytes id p) (id + 1)
      (fun q hq => hps q (by simp [hq]))
    simp only [← hz] at hone
    simp only [← hz'] at hrest
    rw [List.length_cons, show ps.length + 1 + n = ps.length + n + 1 by omega, hone, hrest]
    simp [layout, layoutLocs, List.append_assoc]

/-- A laid page opens to its body. -/
lemma readLoc_record {pre rest : Bytes} {id : ℕ} {p : SealedPage}
    (hp : p.body.length = BODY_SIZE) :
    cfg.readLoc (pre ++ cfg.recordBytes id p ++ rest) id
      ⟨pre.length + LEN_PREFIX_LEN, (cfg.sealPage id p.counter p.body).length⟩ = .ok p.body := by
  set stored := cfg.sealPage id p.counter p.body with hstored
  obtain ⟨parity, hparity⟩ := cfg.framedRecord_eq stored
  have hslice : slice? (pre ++ cfg.recordBytes id p ++ rest) (pre.length + LEN_PREFIX_LEN)
      stored.length = some stored := by
    have hz : pre ++ cfg.recordBytes id p ++ rest
        = (pre ++ leBytes LEN_PREFIX_LEN stored.length) ++ stored ++ (parity ++ rest) := by
      simp only [recordBytes, ← hstored, hparity, List.append_assoc]
    rw [hz]
    exact slice?_append _ _ _ (by simp) rfl
  have hopen : cfg.crypto.openBytes stored id = .ok (cfg.bodyToSeal (trimTrailingZeros p.body)) := by
    rw [hstored, sealPage, cfg.crypto.openBytes_sealBytes]
  have hfill := trimTrailingZeros_fill hp
  have hle := length_trimTrailingZeros_le p.body
  have hshort : (trimTrailingZeros p.body).length < 2 ^ 64 := by
    rw [hp, BODY_SIZE_eq] at hle
    omega
  simp only [readLoc, hslice, okOr_some, ok_bind, openWithEcc, hopen,
    cfg.decodeBody_bodyToSeal hshort, fillBody]
  rw [require_pos (by omega), ok_bind, hfill]

lemma readLoc_layout (pre rest : Bytes) (id : ℕ) {i : ℕ} {ps : List SealedPage} (hps : FullPages ps)
    {p : SealedPage} (hi : ps[i]? = some p) :
    ∃ l, (cfg.layoutLocs id pre.length ps)[i]? = some l ∧
      cfg.readLoc (pre ++ cfg.layout id ps ++ rest) (id + i) l = .ok p.body := by
  obtain ⟨hlt, rfl⟩ := List.getElem?_eq_some_iff.1 hi
  have hsplit : ps = ps.take i ++ ps[i] :: ps.drop (i + 1) := by
    rw [List.getElem_cons_drop, List.take_append_drop]
  have hlen : (ps.take i).length = i := by rw [List.length_take]; omega
  refine ⟨⟨pre.length + (cfg.layout id (ps.take i)).length + LEN_PREFIX_LEN,
    (cfg.sealPage (id + i) ps[i].counter ps[i].body).length⟩, ?_, ?_⟩
  · conv_lhs => rw [hsplit, layoutLocs_append, hlen]
    rw [List.getElem?_append_right (by simp [hlen])]
    simp [hlen, layoutLocs]
  · have hz : pre ++ cfg.layout id ps ++ rest
        = (pre ++ cfg.layout id (ps.take i)) ++ cfg.recordBytes (id + i) ps[i]
          ++ (cfg.layout (id + i + 1) (ps.drop (i + 1)) ++ rest) := by
      conv_lhs => rw [hsplit, layout_append, hlen]
      simp only [layout, List.append_assoc]
    rw [hz, ← List.length_append]
    exact cfg.readLoc_record (hps _ (List.getElem_mem hlt))

end PagerConfig

end Arkeion
