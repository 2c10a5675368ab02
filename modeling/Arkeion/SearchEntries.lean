import Arkeion.PrefixWalk
import Arkeion.TableWrite

/-!
What keeps the entries for full text and for vectors up to date goes by the keys of these entries
alone, and none of its errors is the violation of a constraint.
-/

namespace Arkeion

open Arkeion.Lib Btree MapProgram

/-- Not the violation of a constraint. -/
def Error.NotConstraint : Error → Prop
  | .constraint _ => False
  | _ => True

namespace Catalog

/-! ### Walking over a prefix -/

section Prefix
variable {p : Bytes} {kvs kvs' : Entries}

/-- The keys with a prefix stand together. -/
lemma takeWhile_fromKey (h : SortedMap kvs) :
    (fromKey p kvs).takeWhile (fun kv => decide (p <+: kv.1))
      = kvs.filter fun kv => decide (p <+: kv.1) := by
  induction kvs with
  | nil => rfl
  | cons kv kvs ih =>
    obtain ⟨hlt, hs⟩ := sortedMap_cons.1 h
    rcases le_or_gt p kv.1 with hle | hgt
    · have hfrom : fromKey p (kv :: kvs) = kv :: kvs :=
        fromKey_of_ge (List.forall_mem_cons.2 ⟨hle, fun q hq => hle.trans (hlt q hq).le⟩)
      have hrest : fromKey p kvs = kvs := fromKey_of_ge fun q hq => hle.trans (hlt q hq).le
      rw [hfrom, List.takeWhile_cons, List.filter_cons]
      by_cases hp : p <+: kv.1
      · rw [if_pos (by simpa using hp), if_pos (by simpa using hp), ← ih hs, hrest]
      · rw [if_neg (by simpa using hp), if_neg (by simpa using hp), eq_comm,
          List.filter_eq_nil_iff]
        exact fun q hq => by simpa using not_begins_of_lt hle hp (hlt q hq)
    · have hnot : ¬ p <+: kv.1 := fun hp => absurd hgt (not_lt.2 (le_of_begins hp))
      have hfrom : fromKey p (kv :: kvs) = fromKey p kvs := by
        rw [fromKey, List.filter_cons, if_neg (by simpa using hgt)]
        rfl
      rw [hfrom, ih hs, List.filter_cons, if_neg (by simpa using hnot)]

/-- Maps that agree on some keys hold the same pairs with these. -/
lemma filter_eq_of_agree {P : Bytes → Prop} [DecidablePred P] (h : SortedMap kvs)
    (h' : SortedMap kvs') (heq : ∀ k, P k → valueOf k kvs = valueOf k kvs') :
    kvs.filter (fun kv => decide (P kv.1)) = kvs'.filter fun kv => decide (P kv.1) := by
  refine SortedMap.ext (h.filter _) (h'.filter _) fun k => ?_
  rw [valueOf_filter P k, valueOf_filter P k]
  split_ifs with hk
  · exact heq k hk
  · rfl

/-- A program that reads the pairs with a prefix and goes on by them alone. -/
lemma localTo_prefixWalk {α : Type} {P : Bytes → Prop} (hp : ∀ k, p <+: k → P k)
    {f : Entries → TreeM α} (hf : ∀ l, LocalTo TreeM.keyCheck P (f l)) :
    LocalTo TreeM.keyCheck P (MapProgram.readFrom p >>= fun kvs =>
      f (kvs.takeWhile fun kv => decide (p <+: kv.1))) := by
  intro l l' hl hl' heq
  rw [run_bind, run_bind, run_readFrom, run_readFrom]
  dsimp only [ok_bind]
  rw [takeWhile_fromKey hl, takeWhile_fromKey hl',
    filter_eq_of_agree hl hl' fun k hk => heq k (hp k hk)]
  exact hf _ l l' hl hl' heq

end Prefix

/-! ### Programs that keep to one space of keys -/

/-- The program fails without the violation of a constraint, and goes by the keys of a space
alone. -/
structure KeepsTo (space : UInt8) {α : Type} (p : TreeM α) : Prop where
  local_ : LocalTo TreeM.keyCheck (fun key => key.head? = some space) p
  fails : FailsWith TreeM.keyCheck Error.NotConstraint p

/-- The value is there, or its error is not the violation of a constraint. -/
abbrev Fine {α : Type} (x : Result α) : Prop := Outcome Error.NotConstraint x fun _ => True

section Rules
variable {space : UInt8} {α β : Type} {key value : Bytes}

lemma Fine.bind {x : Result α} {f : α → Result β} (hx : Fine x) (hf : ∀ a, Fine (f a)) :
    Fine (x >>= f) := Outcome.bind hx fun a _ _ => hf a

lemma fine_okOr {x : Option α} {e : Error} (he : e.NotConstraint) : Fine (okOr x e) := by
  cases x with
  | none => exact he
  | some a => trivial

lemma fine_require {c : Prop} [Decidable c] {e : Error} (he : e.NotConstraint) :
    Fine (require c e) := by
  rw [require]
  split_ifs
  · trivial
  · exact he

namespace KeepsTo

lemma pure (a : α) : KeepsTo space (Pure.pure a : TreeM α) := ⟨.pure a, .pure a⟩

lemma lift {x : Result α} (hx : Fine x) : KeepsTo space (liftM x : TreeM α) :=
  ⟨.lift x, .lift fun _ he => hx.of_error he⟩

lemma read (hk : key.head? = some space) : KeepsTo space (MapProgram.read key : TreeM _) :=
  ⟨.read hk, .read⟩

lemma erase (hk : key.head? = some space) : KeepsTo space (MapProgram.erase key : TreeM _) :=
  ⟨.erase hk, .erase⟩

lemma write (hk : key.head? = some space) : KeepsTo space (MapProgram.write key value : TreeM _) :=
  ⟨.write hk, .write fun e he => by
    rw [TreeM.keyCheck, require_eq_error] at he
    rw [← he.2]
    trivial⟩

lemma bind {p : TreeM α} {f : α → TreeM β} (hp : KeepsTo space p) (hf : ∀ a, KeepsTo space (f a)) :
    KeepsTo space (p >>= f) :=
  ⟨.bind hp.local_ fun a => (hf a).local_, .bind hp.fails fun a => (hf a).fails⟩

/-- The errors of a walk over a prefix are those of what follows it. -/
lemma prefixWalk {p : Bytes} (hp : ∀ k, p <+: k → k.head? = some space) {f : Entries → TreeM α}
    (hf : ∀ l, KeepsTo space (f l)) : KeepsTo space (MapProgram.readFrom p >>= fun kvs =>
      f (kvs.takeWhile fun kv => decide (p <+: kv.1))) :=
  ⟨localTo_prefixWalk hp fun l => (hf l).local_, .bind .readFrom fun _ => (hf _).fails⟩

end KeepsTo

end Rules

/-! ### Full text -/

section Fts
variable {fts_id : UInt32} {term : String} {rowid : Int64} {add : Bool}

lemma fine_addU64 (a b : ℕ) : Fine (addU64 a b) := .bind (fine_require trivial) fun _ => trivial

lemma fine_addU32 (a b : UInt32) : Fine (addU32 a b) :=
  .bind (fine_require trivial) fun _ => trivial

lemma fine_u32OfBytes (decode : Bytes → ℕ) (what : String) (v : Bytes) :
    Fine (u32OfBytes decode what v) := .bind (fine_require trivial) fun _ => trivial

lemma fine_adjusted (cur delta : ℕ) : Fine (adjusted add cur delta) := by
  rw [adjusted]
  split_ifs
  · exact fine_addU64 cur delta
  · trivial

lemma fine_pushTokens (col : ℕ) (tokens : List Token) (st : PerTerm × ℕ) :
    Fine (tokens.foldlM (pushToken col) st) := by
  induction tokens generalizing st with
  | nil => trivial
  | cons token tokens ih =>
    rw [List.foldlM_cons]
    exact .bind (.bind (fine_addU64 _ _) fun _ => trivial) ih

lemma fine_groupRecord (tk : String → List Token) (record : List Value) (cols : List ℕ)
    (st : PerTerm × ℕ) : Fine (groupRecord tk record cols st) := by
  induction cols generalizing st with
  | nil => trivial
  | cons col cols ih =>
    exact .bind (fine_okOr trivial) fun v => .bind (fine_pushTokens _ _ _) fun st => ih st

lemma fine_encodePositions (prev : UInt32) (positions : List UInt32) :
    Fine (encodePositions prev positions) := by
  induction positions generalizing prev with
  | nil => trivial
  | cons p positions ih =>
    exact .bind (fine_require trivial) fun _ => .bind (ih p) fun _ => trivial

lemma fine_encodePostingValue (fields : Fields) : Fine (encodePostingValue fields) := by
  induction fields with
  | nil => trivial
  | cons field fields ih =>
    exact .bind (fine_encodePositions _ _) fun _ => .bind ih fun _ => trivial

lemma keepsTo_lookupTermId : KeepsTo KS_FTS (ftsLookupTermId fts_id term) := by
  refine .bind (.read rfl) fun v => ?_
  cases v with
  | none => exact .pure _
  | some v => exact .bind (.lift (fine_u32OfBytes _ _ v)) fun id => .pure _

lemma keepsTo_allocTermId : KeepsTo KS_FTS (ftsAllocTermId fts_id term) := by
  refine .bind keepsTo_lookupTermId fun id => ?_
  cases id with
  | some id => exact .pure id
  | none =>
    refine .bind (.read rfl) fun v => .bind (.lift ?_) fun next =>
      .bind (.lift (fine_addU32 _ _)) fun after => .bind (.write rfl) fun _ =>
        .bind (.write rfl) fun _ => .pure next
    cases v with
    | none => trivial
    | some v => exact fine_u32OfBytes _ _ v

lemma keepsTo_adjustVarint {key : Bytes} (hk : key.head? = some KS_FTS) (delta : ℕ) :
    KeepsTo KS_FTS (ftsAdjustVarint key add delta) := by
  have hread : KeepsTo KS_FTS (ftsReadVarint key) := by
    refine .bind (.read hk) fun v => ?_
    cases v with
    | none => exact .pure 0
    | some v => exact .bind (.lift (fine_okOr trivial)) fun r => .pure _
  refine .bind hread fun cur => .bind (.lift (fine_adjusted cur delta)) fun new => ?_
  split_ifs
  · exact .bind (.erase hk) fun _ => .pure ()
  · exact .write hk

lemma keepsTo_adjustGlobal (doclen : ℕ) : KeepsTo KS_FTS (ftsAdjustGlobal fts_id add doclen) := by
  have hread : KeepsTo KS_FTS (ftsReadGlobal fts_id) := by
    refine .bind (.read rfl) fun v => ?_
    cases v with
    | none => exact .pure (0, 0)
    | some v =>
      exact .bind (.lift (fine_okOr trivial)) fun r => .bind (.lift (fine_okOr trivial)) fun r' =>
        .pure _
  refine .bind hread fun r => .bind (.lift (fine_adjusted _ _)) fun n =>
    .bind (.lift (fine_adjusted _ _)) fun total => ?_
  split_ifs
  · exact .bind (.erase rfl) fun _ => .pure ()
  · exact .write rfl

lemma keepsTo_applyFtsCell (fields : Fields) :
    KeepsTo KS_FTS (applyFtsCell fts_id rowid add term fields) := by
  rw [applyFtsCell]
  split_ifs
  · exact .bind keepsTo_allocTermId fun id => .bind (.lift (fine_encodePostingValue fields))
      fun value => .write rfl
  · refine .bind keepsTo_lookupTermId fun id => ?_
    cases id with
    | none => exact .pure ()
    | some id => exact .bind (.erase rfl) fun _ => .pure ()

lemma keepsTo_applyFtsTerms (per_term : PerTerm) :
    KeepsTo KS_FTS (applyFtsTerms fts_id rowid add per_term) := by
  induction per_term with
  | nil => exact .pure ()
  | cons entry per_term ih =>
    exact .bind (.bind (keepsTo_applyFtsCell _) fun _ => keepsTo_adjustVarint rfl 1) fun _ => ih

lemma keepsTo_applyDoclen (doclen : ℕ) : KeepsTo KS_FTS (applyDoclen fts_id rowid add doclen) := by
  rw [applyDoclen]
  split_ifs
  · exact .write rfl
  · exact .pure ()
  · exact .bind (.erase rfl) fun _ => .pure ()

lemma keepsTo_applyFtsEntries (tokenize : String → String → List Token) (record : List Value)
    (indexes : List FtsIndexDef) :
    KeepsTo KS_FTS (applyFtsEntries tokenize rowid record add indexes) := by
  induction indexes with
  | nil => exact .pure ()
  | cons fts indexes ih =>
    refine .bind ?_ fun _ => ih
    exact .bind (.lift (.bind (fine_require trivial) fun _ => trivial)) fun tk =>
      .bind (.lift (fine_groupRecord _ _ _ _)) fun r => .bind (keepsTo_applyFtsTerms _) fun _ =>
        .bind (keepsTo_applyDoclen _) fun _ => keepsTo_adjustGlobal _

end Fts

/-! ### Vectors -/

section Vectors
variable (M : VectorMath) {vidx_id : UInt32} {rowid : Int64} {add : Bool}

lemma fine_unpack (b : Bytes) : Fine (unpack M b) := by
  cases b with
  | nil => trivial
  | cons tag rest =>
    rw [unpack]
    split_ifs
    · exact .bind (fine_require trivial) fun _ => trivial
    · exact .bind (fine_okOr trivial) fun _ => trivial
    · trivial

lemma fine_unpackAll (bs : List Bytes) : Fine (unpackAll M bs) := by
  induction bs with
  | nil => trivial
  | cons b bs ih => exact .bind (fine_unpack M b) fun _ => .bind ih fun _ => trivial

lemma fine_rowVector (record : List Value) (column : ℕ) (metric : VectorMetric) :
    Fine (rowVector M record column metric) := by
  rw [rowVector]
  split
  · exact .bind (fine_unpack M _) fun _ => trivial
  · trivial

lemma keepsTo_readCentroids : KeepsTo KS_VECTOR (readCentroids M vidx_id) := by
  refine .prefixWalk (f := fun kvs => liftM (unpackAll M (kvs.map Prod.snd))) ?_ fun l =>
    .lift (fine_unpackAll M _)
  rintro k ⟨rest, rfl⟩
  rfl

lemma keepsTo_applyVectorEntries (record : List Value) (indexes : List VectorIndexDef) :
    KeepsTo KS_VECTOR (applyVectorEntries M rowid record add indexes) := by
  induction indexes with
  | nil => exact .pure ()
  | cons vidx indexes ih =>
    refine .bind (.bind (.lift (fine_rowVector M _ _ _)) fun v => ?_) fun _ => ih
    cases v with
    | none => exact .pure ()
    | some v =>
      refine .bind (keepsTo_readCentroids M) fun centroids => ?_
      dsimp only
      split_ifs
      · exact .pure ()
      · exact .bind (.bind (.read rfl) fun pq => .pure _) fun value => .write rfl
      · exact .bind (.erase rfl) fun _ => .pure ()

end Vectors

end Catalog

end Arkeion
