import Arkeion.CommitWrite
import Arkeion.KeyencSpec
import Arkeion.Proto.Message
import Arkeion.RecordSpec

/-!
A message that is encoded is decoded to itself, and so is the payload of a frame.
-/

namespace Arkeion.Proto

open Arkeion.Lib

/-! ### Fields -/

section Fields
variable {A : WithCapacity}

/-- The last field of a message. -/
lemma reads_last {α γ : Type} {r : WireReader α} {f : α → WireReader γ} {b : Bytes} {a : α} {d : γ}
    (h : ReadsBack (2 ^ 64) r b a) (hf : f a = pure d) : ReadsBack (2 ^ 64) (r >>= f) b d := by
  have hd : ReadsBack (2 ^ 64) (f a) [] d := by
    rw [hf]
    exact .pure d
  exact (h.bind hd).of_eq (List.append_nil b)

lemma reads_u8 (b : UInt8) : ReadsBack (2 ^ 64) takeU8 [b] b := fun x z _ => by
  have hb : (x ++ [b] ++ z)[x.length]? = some b := by simp
  rw [takeU8, hb]
  rfl

lemma reads_bytes (b : Bytes) : ReadsBack (2 ^ 64) (takeBytes b.length) b b := fun x z hlen => by
  simp only [List.length_append] at hlen
  rw [takeBytes, if_neg (by omega), slice?_append x b z rfl rfl]
  rfl

lemma reads_u32 (v : UInt32) : ReadsBack (2 ^ 64) takeU32 (leBytes 4 v.toNat) v := by
  have hbytes := reads_bytes (leBytes 4 v.toNat)
  have hv : UInt32.ofNat (leNat (leBytes 4 v.toNat)) = v := by
    rw [leNat_leBytes 4 v.toNat_lt, UInt32.ofNat_toNat]
  rw [length_leBytes] at hbytes
  exact reads_last hbytes (congrArg pure hv)

lemma reads_varint {v : ℕ} (h : v < 2 ^ 64) : ReadsBack (2 ^ 64) takeVarintE (putVarint v) v :=
  fun x z _ => by
    rw [takeVarintE, takeVarint_put x z rfl h, length_putVarint h]
    rfl

lemma reads_u64 (v : UInt64) : ReadsBack (2 ^ 64) takeVarintE (putVarint v.toNat) v.toNat :=
  reads_varint v.toNat_lt

lemma reads_str (s : String) : ReadsBack (2 ^ 64) takeStr (putStr s) s := by
  refine .of_length fun hlen => ?_
  rw [putStr, List.length_append] at hlen
  have htext : orError (fromUtf8 (utf8 s)) .badValue = .ok s := by
    rw [CommitHeader.fromUtf8_utf8]
    rfl
  have hlift : ReadsBack (2 ^ 64) (Reader.lift (orError (fromUtf8 (utf8 s)) .badValue) : WireReader String)
      [] s := .lift htext
  exact (reads_varint (by omega)).bind (((reads_bytes (utf8 s)).bind hlift).of_eq (List.append_nil _))

lemma recordCapacity_encode (hA : Grants A) {vals : List Value}
    (h : (encodeValues vals).length < 2 ^ 64) : recordCapacity A (encodeValues vals) = .ok () := by
  rw [recordCapacity, takeHeader_encode h]
  refine hA _ _ _ ?_
  rw [Nat.mul_one, List.length_map, encodeValues, List.length_append, List.length_append,
    List.length_map]
  omega

lemma reads_vals (hA : Grants A) (vals : List Value) :
    ReadsBack (2 ^ 64) (takeVals A) (putVals vals) vals := by
  refine .of_length fun hlen => ?_
  rw [putVals, List.length_append] at hlen
  have hsmall : (encodeValues vals).length < 2 ^ 64 := by omega
  have hdec : ofRecord (decodeValues (encodeValues vals)) = .ok vals := by
    rw [decodeValues_encode hsmall]
    rfl
  have hlift : ReadsBack (2 ^ 64) (.lift (recordCapacity A (encodeValues vals)) >>= fun _ =>
      .lift (ofRecord (decodeValues (encodeValues vals))) : WireReader (List Value)) [] vals :=
    (ReadsBack.lift (recordCapacity_encode hA hsmall)).bind (.lift hdec)
  exact (reads_varint hsmall).bind (((reads_bytes _).bind hlift).of_eq (List.append_nil _))

lemma reads_rowid (v : Int64) :
    ReadsBack (2 ^ 64) takeRowid (leBytes 8 v.toUInt64.toNat) v := by
  have hbytes := reads_bytes (leBytes 8 v.toUInt64.toNat)
  have hv : (UInt64.ofNat (leNat (leBytes 8 v.toUInt64.toNat))).toInt64 = v := by
    rw [leNat_leBytes 8 v.toUInt64.toNat_lt, UInt64.ofNat_toNat]
    rfl
  rw [length_leBytes] at hbytes
  exact reads_last hbytes (congrArg pure hv)

lemma reads_hash (c : ChainHash) : ReadsBack (2 ^ 64) takeHash c.val c := by
  have hbytes := reads_bytes c.val
  rw [c.property] at hbytes
  exact reads_last hbytes (dif_pos c.property)

/-- A capacity is granted where what is read next takes enough bytes. -/
lemma reads_capacity {α : Type} (hA : Grants A) {count least : ℕ} {f : Unit → WireReader α}
    {b : Bytes} {a : α} (hb : count * least ≤ b.length) (h : ReadsBack (2 ^ 64) (f ()) b a) :
    ReadsBack (2 ^ 64) (takeCapacity A count least >>= f) b a := by
  intro x z hlen
  have hleft : count * least ≤ (x ++ b ++ z).length - x.length := by
    simp only [List.length_append]
    omega
  change ((A count least _ >>= fun _ => .ok ((), x.length)) >>= fun p => f p.1 _ p.2) = _
  rw [hA _ _ _ hleft]
  exact h x z hlen

lemma times_eq_many {α : Type} (item : WireReader α) (n : ℕ) : times item n = item.many n := by
  induction n with
  | zero => rfl
  | succ n ih =>
    rw [times, ih]
    rfl

lemma length_flatMap_ge {α : Type} {put : α → Bytes} {least : ℕ} {as : List α}
    (h : ∀ a ∈ as, least ≤ (put a).length) : as.length * least ≤ (as.flatMap put).length := by
  induction as with
  | nil => simp
  | cons a as ih =>
    have ha := h a (by simp)
    have hrest := ih fun c hc => h c (by simp [hc])
    rw [List.flatMap_cons, List.length_append, List.length_cons, Nat.succ_mul]
    omega

lemma reads_list {α : Type} (hA : Grants A) {least : ℕ} (hpos : 1 ≤ least) {put : α → Bytes}
    {item : WireReader α} (hleast : ∀ a, least ≤ (put a).length)
    (h : ∀ a, ReadsBack (2 ^ 64) item (put a) a) (as : List α) :
    ReadsBack (2 ^ 64) (takeList (wire A) least item) (putVarint as.length ++ as.flatMap put) as := by
  refine .of_length fun hlen => ?_
  have hge : as.length * least ≤ (as.flatMap put).length := length_flatMap_ge fun a _ => hleast a
  have hcount : as.length ≤ as.length * least := Nat.le_mul_of_pos_right _ hpos
  rw [List.length_append] at hlen
  refine (reads_varint (by omega)).bind (reads_capacity hA hge ?_)
  rw [times_eq_many]
  exact .many fun a _ => h a

lemma one_le_putVarint (v : ℕ) : 1 ≤ (putVarint v).length := by
  rw [putVarint, putVarintAux]
  split_ifs <;> simp

end Fields

/-! ### Parts of messages -/

section Parts
variable {A : WithCapacity}

lemma reads_systemTime {t : SystemTime} (ht : 0 ≤ t.secs) :
    systemTime t.sinceEpoch.1 (UInt32.ofNat t.sinceEpoch.2) = .ok t := by
  have hnanos : (UInt32.ofNat t.nanos).toNat = t.nanos :=
    UInt32.toNat_ofNat_of_lt' (t.nanos_lt.trans (by decide))
  have hsecs := toNat_toUInt64 t.secs
  have hint := (nonneg_iff t.secs).1 ht
  rw [if_pos hint] at hsecs
  have hlt := t.secs.toInt_lt
  have hzero : t.nanos / 1000000000 = 0 := Nat.div_eq_of_lt t.nanos_lt
  have hback : Int64.ofNat t.secs.toUInt64.toNat = t.secs := by
    rw [← Int64.ofInt_eq_ofNat, hsecs, Int64.ofInt_toInt]
  have hmod := Nat.mod_eq_of_lt t.nanos_lt
  rw [SystemTime.sinceEpoch, if_pos ht]
  simp only [systemTime, hnanos, hzero, hmod, Nat.add_zero]
  rw [if_neg (by omega), if_neg (by omega)]
  simp only [hback]

/-- A time is not before the epoch. -/
def AsOf.SinceEpoch : AsOf → Prop
  | .timestamp t => 0 ≤ t.secs
  | _ => True

lemma reads_asof {a : AsOf} (ha : a.SinceEpoch) :
    ReadsBack (2 ^ 64) (takeAsof (wire A)) (putAsof a) a := by
  cases a with
  | head => exact (reads_u8 0).bind (.pure AsOf.head)
  | version v =>
    have hv : UInt64.ofNat v.toNat = v := UInt64.ofNat_toNat
    exact (reads_u8 1).bind (reads_last (reads_u64 v) (congrArg (fun v => pure (AsOf.version v)) hv))
  | timestamp t =>
    have hsecs : t.sinceEpoch.1 < 2 ^ 64 := by
      rw [SystemTime.sinceEpoch]
      split_ifs
      · exact t.secs.toUInt64.toNat_lt
      · exact Nat.two_pow_pos 64
    have hnanos : t.sinceEpoch.2 < 2 ^ 64 := by
      rw [SystemTime.sinceEpoch]
      have hlt := t.nanos_lt
      split_ifs <;> omega
    have htime : ReadsBack (2 ^ 64)
        (.lift (systemTime t.sinceEpoch.1 (UInt32.ofNat t.sinceEpoch.2)) >>= fun t =>
          pure (AsOf.timestamp t) : WireReader AsOf) [] (.timestamp t) :=
      reads_last (.lift (reads_systemTime ha)) rfl
    exact (reads_u8 2).bind ((reads_varint hsecs).bind
      (((reads_varint hnanos).bind htime).of_eq (List.append_nil _)))

lemma reads_kind (k : ChangeKind) : ReadsBack (2 ^ 64) (takeKind (wire A)) (putKind k) k := by
  cases k with
  | added => exact (reads_u8 0).bind (.pure ChangeKind.added)
  | removed => exact (reads_u8 1).bind (.pure ChangeKind.removed)
  | modified => exact (reads_u8 2).bind (.pure ChangeKind.modified)

lemma length_putKind (k : ChangeKind) : (putKind k).length = 1 := by cases k <;> rfl

lemma reads_schemaChange (A : WithCapacity) (sc : SchemaChange) :
    ReadsBack (2 ^ 64) (takeSchemaChange (wire A)) (putSchemaChange sc) sc := by
  exact (reads_str sc.table).bind (reads_last (reads_kind sc.kind) rfl)

lemma reads_rowChange (A : WithCapacity) (rc : RowChange) :
    ReadsBack (2 ^ 64) (takeRowChange (wire A)) (putRowChange rc) rc := by
  have hid : rc.table_id.toNat < 2 ^ 32 := rc.table_id.toNat_lt
  have hback : UInt32.ofNat rc.table_id.toNat = rc.table_id := UInt32.ofNat_toNat
  refine (reads_varint (by omega)).bind ?_
  rw [if_neg (not_le.2 hid), hback]
  exact (reads_rowid rc.rowid).bind (reads_last (reads_kind rc.kind) rfl)

lemma reads_diff (hA : Grants A) (d : Diff) :
    ReadsBack (2 ^ 64) (takeDiff (wire A)) (putDiff d) d := by
  have hschema (sc : SchemaChange) : 2 ≤ (putSchemaChange sc).length := by
    have h := one_le_putVarint (utf8 sc.table).length
    rw [putSchemaChange, putStr, List.length_append, List.length_append, length_putKind]
    omega
  have hrow (rc : RowChange) : 10 ≤ (putRowChange rc).length := by
    have h := one_le_putVarint rc.table_id.toNat
    rw [putRowChange, List.length_append, List.length_append, length_leBytes, length_putKind]
    omega
  have hlist := reads_list hA (by decide) hrow (reads_rowChange A) d.rows
  have hrows : ReadsBack (2 ^ 64) (takeList (wire A) 10 (takeRowChange (wire A)) >>= fun rows =>
      pure (Diff.mk d.schema rows)) _ d := reads_last hlist rfl
  have h : ReadsBack (2 ^ 64) (takeDiff (wire A)) _ d :=
    (reads_list hA (by decide) hschema (reads_schemaChange A) d.schema).bind hrows
  exact h.of_eq (List.append_assoc _ _ _)

end Parts

/-! ### Messages -/

/-- The time a request asks for is not before the epoch. -/
def Request.SinceEpoch : Request → Prop
  | .query _ _ as_of => as_of.SinceEpoch
  | _ => True

section Messages
variable {A : WithCapacity}

lemma reads_two {α : Type} (f : String → String → α) (a b : String) : ReadsBack (2 ^ 64)
    (takeStr >>= fun a => takeStr >>= fun b => pure (f a b)) (putStr a ++ putStr b) (f a b) :=
  (reads_str a).bind (reads_last (reads_str b) rfl)

lemma reads_request (hA : Grants A) {m : Request} (hm : m.SinceEpoch) :
    ReadsBack (2 ^ 64) (takeRequest (wire A)) m.encode m := by
  cases m with
  | hello version => exact (reads_u8 REQ_HELLO).bind (reads_last (reads_u32 version) rfl)
  | useBranch name => exact (reads_u8 REQ_USE_BRANCH).bind (reads_last (reads_str name) rfl)
  | execute sql params =>
    exact (reads_u8 REQ_EXECUTE).bind ((reads_str sql).bind (reads_last (reads_vals hA params) rfl))
  | query sql params as_of =>
    exact (reads_u8 REQ_QUERY).bind ((reads_str sql).bind ((reads_vals hA params).bind
      (reads_last (reads_asof hm) rfl)))
  | verify => exact (reads_u8 REQ_VERIFY).bind (.pure Request.verify)
  | diff from_ to_ => exact (reads_u8 REQ_DIFF).bind (reads_two Request.diff from_ to_)
  | merge from_ into_ => exact (reads_u8 REQ_MERGE).bind (reads_two Request.merge from_ into_)
  | auth user password => exact (reads_u8 REQ_AUTH).bind (reads_two Request.auth user password)

lemma flag_ne (b : Bool) : ((if b then 1 else 0 : UInt8) != 0) = b := by cases b <;> rfl

lemma two_le_putVals (vals : List Value) : 2 ≤ (putVals vals).length := by
  have hlen := one_le_putVarint (encodeValues vals).length
  have hcount := one_le_putVarint vals.length
  have henc : 1 ≤ (encodeValues vals).length := by
    rw [encodeValues, List.length_append, List.length_append]
    omega
  rw [putVals, List.length_append]
  omega

lemma one_le_putStr (s : String) : 1 ≤ (putStr s).length := by
  have hlen := one_le_putVarint (utf8 s).length
  rw [putStr, List.length_append]
  omega

lemma reads_rows (hA : Grants A) (columns : List String) (values : List (List Value)) :
    ReadsBack (2 ^ 64) (takeResponse (wire A)) (Response.rows columns values).encode
      (.rows columns values) := by
  have hcolumns := reads_list hA (Nat.le_refl 1) one_le_putStr reads_str columns
  have hvalues := reads_list hA (by decide) two_le_putVals (reads_vals hA) values
  have hlast : ReadsBack (2 ^ 64) (takeList (wire A) 2 (takeVals A) >>= fun values =>
      pure (Response.rows columns values)) _ (.rows columns values) := reads_last hvalues rfl
  have h : ReadsBack (2 ^ 64) (responseFields (wire A) RES_ROWS) _ (.rows columns values) :=
    hcolumns.bind hlast
  exact (reads_u8 RES_ROWS).bind (h.of_eq (List.append_assoc _ _ _))

lemma reads_response (hA : Grants A) (m : Response) :
    ReadsBack (2 ^ 64) (takeResponse (wire A)) m.encode m := by
  cases m with
  | welcome version branch =>
    exact (reads_u8 RES_WELCOME).bind ((reads_u32 version).bind (reads_last (reads_str branch) rfl))
  | affected n =>
    have hn : UInt64.ofNat n.toNat = n := UInt64.ofNat_toNat
    exact (reads_u8 RES_AFFECTED).bind
      (reads_last (reads_u64 n) (congrArg (fun n => pure (Response.affected n)) hn))
  | rows columns values => exact reads_rows hA columns values
  | audit head commits chain_ok chain_hash =>
    have hhead : UInt64.ofNat head.toNat = head := UInt64.ofNat_toNat
    have hcommits : UInt64.ofNat commits.toNat = commits := UInt64.ofNat_toNat
    refine (reads_u8 RES_AUDIT).bind ((reads_u64 head).bind ((reads_u64 commits).bind
      ((reads_u8 (if chain_ok then 1 else 0)).bind (reads_last (reads_hash chain_hash) ?_))))
    rw [hhead, hcommits, flag_ne]
  | error msg => exact (reads_u8 RES_ERROR).bind (reads_last (reads_str msg) rfl)
  | diff d => exact (reads_u8 RES_DIFF).bind (reads_last (reads_diff hA d) rfl)
  | merged version applied =>
    have hversion : UInt64.ofNat version.toNat = version := UInt64.ofNat_toNat
    have happlied : UInt64.ofNat applied.toNat = applied := UInt64.ofNat_toNat
    refine (reads_u8 RES_MERGED).bind ((reads_u64 version).bind (reads_last (reads_u64 applied) ?_))
    rw [hversion, happlied]

lemma decode_request (hA : Grants A) {m : Request} (hm : m.SinceEpoch)
    (h : m.encode.length < 2 ^ 64) : Request.decode A m.encode = .ok m := by
  rw [Request.decode, (reads_request hA hm).run h]
  rfl

lemma decode_response (hA : Grants A) {m : Response} (h : m.encode.length < 2 ^ 64) :
    Response.decode A m.encode = .ok m := by
  rw [Response.decode, (reads_response hA m).run h]
  rfl

end Messages

/-! ### Frames -/

lemma readExact_append (x y : Bytes) : readExact x.length (x ++ y) = .ok (x, y) := by
  rw [readExact, if_pos (by simp), List.take_left, List.drop_left]

lemma readFrame_writeFrame {p : Bytes} (hp : p.length ≤ MAX_FRAME) (rest : Bytes) :
    readFrame (writeFrame p ++ rest) = .ok (p, rest) := by
  have hlen := length_leBytes 4 p.length
  have hhead := readExact_append (leBytes 4 p.length) (p ++ rest)
  have hmax : MAX_FRAME = 64 * 1024 * 1024 := rfl
  have hnat : leNat (leBytes 4 p.length) = p.length := leNat_leBytes 4 (by omega)
  rw [hlen] at hhead
  rw [readFrame, writeFrame, List.append_assoc, hhead]
  change (if MAX_FRAME < leNat (leBytes 4 p.length) then _ else _) = _
  rw [hnat, if_neg (not_lt.2 hp), readExact_append]

def grantAll : WithCapacity := fun _ _ _ => .ok ()

lemma grants_grantAll : Grants grantAll := fun _ _ _ _ => rfl

/-- Messages that fit in memory, with times that are not before the epoch, are decoded to
themselves, so that no two are encoded alike; and a frame gives its payload back. -/
theorem wire_round_trip :
    (∀ A (m : Request), Grants A → m.SinceEpoch → m.encode.length < 2 ^ 64 →
      Request.decode A m.encode = .ok m) ∧
    (∀ A (m : Response), Grants A → m.encode.length < 2 ^ 64 →
      Response.decode A m.encode = .ok m) ∧
    (∀ m m' : Request, m.SinceEpoch → m'.SinceEpoch → m.encode.length < 2 ^ 64 →
      m.encode = m'.encode → m = m') ∧
    (∀ m m' : Response, m.encode.length < 2 ^ 64 → m.encode = m'.encode → m = m') ∧
    ∀ (p rest : Bytes), p.length ≤ MAX_FRAME → readFrame (writeFrame p ++ rest) = .ok (p, rest) := by
  refine ⟨fun A m hA hm h => decode_request hA hm h, fun A m hA h => decode_response hA h, ?_, ?_,
    fun p rest hp => readFrame_writeFrame hp rest⟩
  · intro m m' hm hm' h heq
    have hdec := decode_request grants_grantAll hm h
    rw [heq, decode_request grants_grantAll hm' (heq ▸ h)] at hdec
    exact (Except.ok.inj hdec).symm
  · intro m m' h heq
    have hdec := decode_response grants_grantAll h
    rw [heq, decode_response grants_grantAll (heq ▸ h)] at hdec
    exact (Except.ok.inj hdec).symm

/-- The theorem at a query of a version and at an answer with one row. -/
theorem wire_round_trip_query :
    Request.decode grantAll (Request.query "SELECT 1" [.real ⟨0⟩] (.version 7)).encode
      = .ok (.query "SELECT 1" [.real ⟨0⟩] (.version 7)) ∧
    Response.decode grantAll (Response.rows ["a"] [[.integer 5]]).encode
      = .ok (.rows ["a"] [[.integer 5]]) ∧
    readFrame (writeFrame [1, 2] ++ [3]) = .ok ([1, 2], [3]) :=
  ⟨wire_round_trip.1 _ _ grants_grantAll trivial (by decide +kernel),
    wire_round_trip.2.1 _ _ grants_grantAll (by decide +kernel),
    wire_round_trip.2.2.2.2 [1, 2] [3] (by decide)⟩

end Arkeion.Proto
