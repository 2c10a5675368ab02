import Arkeion.SchemaCodec
import Arkeion.TableHistory

/-!
Definitions in any history are read back as they are written.
-/

namespace Arkeion.Catalog

open Arkeion.Lib

/-! ### What is written of a definition -/

section RoundTrip
variable {d : TableDef}

lemma aliasOf_byte (h : d.columns.length ≤ MAX_COLUMNS) :
    aliasOf ((d.rowid_alias.map UInt8.ofNat).getD NO_ALIAS) = d.rowid_alias := by
  cases halias : d.rowid_alias with
  | none => rfl
  | some i =>
    have hlt := d.alias_lt i halias
    rw [show MAX_COLUMNS = 255 from rfl] at h
    have hbyte : (UInt8.ofNat i).toNat = i := by
      rw [UInt8.toNat_ofNat']
      omega
    have hne : ¬ UInt8.ofNat i = NO_ALIAS := by
      intro heq
      rw [heq] at hbyte
      have hnone : NO_ALIAS.toNat = 255 := rfl
      omega
    rw [Option.map_some, Option.getD_some, aliasOf, if_neg hne, hbyte]

lemma putText_ne_nil (s : String) : putText s ≠ [] :=
  List.append_ne_nil_of_left_ne_nil (putVarint_ne_nil _) _

lemma putForeignKey_ne_nil (fk : ForeignKey) : putForeignKey fk ≠ [] :=
  List.append_ne_nil_of_left_ne_nil (List.append_ne_nil_of_left_ne_nil (putVarint_ne_nil _) _) _

lemma reads_schema (h : Codable d) :
    ReadsBack (2 ^ 64) takeSchema (encodeDef d) ⟨d.table_id, (d.rowid_alias.map UInt8.ofNat).getD NO_ALIAS,
      d.columns, d.indexes, ⟨d.logical_order, d.logical⟩, d.foreign_keys, d.checks, d.fts_indexes,
      d.vector_indexes⟩ := by
  have hversion : 2 ≤ SCHEMA_VERSION ∧ SCHEMA_VERSION ≤ 10 := by decide
  have hcolumns : d.columns.length < 2 ^ 64 := h.size.trans_lt (by decide)
  have hsince {v : UInt8} (hv : v.toNat ≤ 10) : v ≤ SCHEMA_VERSION := hv
  have hindexes := reads_listSince (hsince (v := 2) (by decide)) (fun idx hidx =>
    reads_index (h.indexes idx hidx).1 (h.indexes idx hidx).2.1 (h.indexes idx hidx).2.2 h.size)
    fun idx _ => leBytes_ne_nil _ _
  have hkeys := reads_listSince (hsince (v := 4) (by decide)) (fun fk hfk =>
    reads_foreignKey (h.foreign_keys fk hfk).1 (h.foreign_keys fk hfk).2 h.size)
    fun fk _ => putForeignKey_ne_nil fk
  have hchecks : ReadsBack (2 ^ 64) (takeListSince SCHEMA_VERSION 7 (takeText "texto de CHECK no UTF-8"))
      (putList putText d.checks) d.checks :=
    reads_listSince (hsince (by decide)) (fun text _ => reads_text text _) fun text _ => putText_ne_nil text
  have hfts := reads_listSince (hsince (v := 8) (by decide)) (fun fts hf =>
    reads_ftsIndex (h.fts fts hf).1 (h.fts fts hf).2.1 (h.fts fts hf).2.2 h.size)
    fun fts _ => leBytes_ne_nil _ _
  have hvectors := reads_listSince (hsince (v := 9) (by decide)) (fun vi hvi =>
    reads_vectorIndex (h.vectors vi hvi).1 (h.vectors vi hvi).2 h.size)
    fun vi _ => leBytes_ne_nil _ _
  refine ((reads_byte SCHEMA_VERSION).bind ?_)
  rw [if_pos hversion]
  refine ((reads_u32 d.table_id).bind ((reads_byte _).bind (((reads_count hcolumns).bind ?_).of_eq
    (List.append_assoc _ _ _).symm)))
  rw [if_pos h.size]
  refine (ReadsBack.many fun col _ => reads_column col).bind (hindexes.bind
    ((reads_order d.logical h.size).bind (hkeys.bind (hchecks.bind (hfts.bind ?_)))))
  rw [← List.append_nil (putList putVectorIndex d.vector_indexes)]
  exact hvectors.bind (.pure _)

/-- A definition is read back as it is written. -/
lemma decodeDef_encodeDef (h : Codable d) (hlen : (encodeDef d).length < 2 ^ 64) :
    decodeDef d.name (encodeDef d) = .ok d := by
  have halias : ∀ i ∈ aliasOf ((d.rowid_alias.map UInt8.ofNat).getD NO_ALIAS), i < d.columns.length := by
    rw [aliasOf_byte h.size]
    exact d.alias_lt
  rw [decodeDef, (reads_schema h).run hlen, ok_bind]
  dsimp only
  rw [require_pos rfl, ok_bind, dif_pos halias]
  congr 2
  exact aliasOf_byte h.size

end RoundTrip

/-! ### In any history -/

section History
variable {d d' : TableDef} {name : String} {table_id : UInt32} {cols : List ColumnSpec}
  {tables : String → Result (Option TableDef)} {rowid_alias : Option ℕ}

lemma positionsOf_lt {names rest : List String} {e : Error} {ps : List ℕ}
    (h : positionsOf names e rest = .ok ps) : ∀ p ∈ ps, p < names.length := by
  induction rest generalizing ps with
  | nil =>
    cases h
    exact fun p hp => absurd hp List.not_mem_nil
  | cons name rest ih =>
    simp only [positionsOf, bind_eq_ok, okOr_eq_ok] at h
    obtain ⟨pos, hpos, positions, hrest, h⟩ := h
    cases h
    exact List.forall_mem_cons.2 ⟨(List.idxOf?_eq_some_iff.1 hpos).1, ih hrest⟩

/-- The parent has no more columns than a table may have. -/
lemma parentOf_size {parent : String} {names : List String} {alias_ : Option ℕ} {idxs : List IndexDef}
    (htables : ∀ name p, tables name = .ok (some p) → p.columns.length ≤ MAX_COLUMNS)
    (hcols : cols.length ≤ MAX_COLUMNS)
    (h : parentOf tables name cols rowid_alias parent = .ok (names, alias_, idxs)) :
    names.length ≤ MAX_COLUMNS := by
  rw [parentOf] at h
  split_ifs at h
  · cases h
    rwa [List.length_map]
  · simp only [bind_eq_ok, okOr_eq_ok] at h
    obtain ⟨found, hfound, p, rfl, h⟩ := h
    cases h
    rw [List.length_map]
    exact htables parent p hfound

lemma resolveForeignKey_lt {pf : ForeignKeySpec} {fk : ForeignKey}
    (htables : ∀ name p, tables name = .ok (some p) → p.columns.length ≤ MAX_COLUMNS)
    (hcols : cols.length ≤ MAX_COLUMNS)
    (h : resolveForeignKey tables name cols rowid_alias pf = .ok fk) :
    (∀ c ∈ fk.columns, c < cols.length) ∧ ∀ c ∈ fk.parent_columns, c < MAX_COLUMNS := by
  rw [resolveForeignKey] at h
  obtain ⟨columns, hcolumns, h⟩ := bind_eq_ok.1 h
  obtain ⟨⟨names, alias_, idxs⟩, hparent, h⟩ := bind_eq_ok.1 h
  obtain ⟨parents, hparents, h⟩ := bind_eq_ok.1 h
  have hlt := positionsOf_lt hcolumns
  rw [List.length_map] at hlt
  have hparent_lt : ∀ c ∈ parents, c < MAX_COLUMNS := fun c hc =>
    (positionsOf_lt hparents c hc).trans_le (parentOf_size htables hcols hparent)
  split_ifs at h
  · simp only [bind_eq_ok] at h
    obtain ⟨-, -, -, -, h⟩ := h
    cases h
    exact ⟨hlt, fun c hc => absurd hc List.not_mem_nil⟩
  · simp only [bind_eq_ok] at h
    obtain ⟨-, -, -, -, h⟩ := h
    cases h
    exact ⟨hlt, hparent_lt⟩

lemma resolveForeignKeys_lt {pending : List ForeignKeySpec} {fks : List ForeignKey}
    (htables : ∀ name p, tables name = .ok (some p) → p.columns.length ≤ MAX_COLUMNS)
    (hcols : cols.length ≤ MAX_COLUMNS)
    (h : resolveForeignKeys tables name cols rowid_alias pending = .ok fks) :
    ∀ fk ∈ fks, (∀ c ∈ fk.columns, c < cols.length) ∧ ∀ c ∈ fk.parent_columns, c < MAX_COLUMNS := by
  induction pending generalizing fks with
  | nil =>
    cases h
    exact fun fk hfk => absurd hfk List.not_mem_nil
  | cons pf pending ih =>
    simp only [resolveForeignKeys, bind_eq_ok] at h
    obtain ⟨fk, hfk, rest, hrest, h⟩ := h
    cases h
    exact List.forall_mem_cons.2 ⟨resolveForeignKey_lt htables hcols hfk, ih hrest⟩

/-- A new table, of parents that are no larger than tables may be. -/
lemma Codable.of_createTable {foreign_keys : List ForeignKeySpec} {checks : List String}
    (htables : ∀ name p, tables name = .ok (some p) → p.columns.length ≤ MAX_COLUMNS)
    (h : createTable tables name table_id cols foreign_keys checks = .ok d) : Codable d := by
  rw [createTable] at h
  obtain ⟨-, -, h⟩ := bind_eq_ok.1 h
  obtain ⟨u, hsize, h⟩ := bind_eq_ok.1 h
  have hcols := (require_eq_ok.1 hsize).2
  split at h
  · cases h
  · obtain ⟨fks, hfks, h⟩ := bind_eq_ok.1 h
    cases h
    have hlength : (cols.map ColumnSpec.toDef).length = cols.length := List.length_map _
    exact {
      size := hlength.trans_le hcols
      indexes := fun idx hidx => absurd hidx List.not_mem_nil
      fts := fun fts hfts => absurd hfts List.not_mem_nil
      vectors := fun vi hvi => absurd hvi List.not_mem_nil
      foreign_keys := fun fk hfk => by
        rw [hlength]
        exact resolveForeignKeys_lt htables hcols hfks fk hfk }

/-- More columns, and the same of everything else, at most. -/
lemma Codable.of_more (h : Codable d) (hsize : d'.columns.length ≤ MAX_COLUMNS)
    (hmore : d.columns.length ≤ d'.columns.length) (hindexes : d'.indexes ⊆ d.indexes)
    (hfts : d'.fts_indexes ⊆ d.fts_indexes) (hvectors : d'.vector_indexes ⊆ d.vector_indexes)
    (hkeys : d'.foreign_keys = d.foreign_keys) : Codable d' where
  size := hsize
  indexes idx hidx := by
    obtain ⟨hne, hlen, hlt⟩ := h.indexes idx (hindexes hidx)
    exact ⟨hne, hlen, fun c hc => (hlt c hc).trans_le hmore⟩
  fts fts hf := by
    obtain ⟨hne, hlen, hlt⟩ := h.fts fts (hfts hf)
    exact ⟨hne, hlen, fun c hc => (hlt c hc).trans_le hmore⟩
  vectors vi hvi := by
    obtain ⟨hlt, hprobe⟩ := h.vectors vi (hvectors hvi)
    exact ⟨hlt.trans_le hmore, hprobe⟩
  foreign_keys fk hfk := by
    obtain ⟨hlt, hparent⟩ := h.foreign_keys fk (hkeys ▸ hfk)
    exact ⟨fun c hc => (hlt c hc).trans_le hmore, hparent⟩

namespace TableDef

lemma indexColumns_lt {columns : List String} {positions : List ℕ}
    (h : d.indexColumns columns = .ok positions) : ∀ c ∈ positions, c < d.columns.length := by
  induction columns generalizing positions with
  | nil =>
    cases h
    exact fun c hc => absurd hc List.not_mem_nil
  | cons name columns ih =>
    simp only [indexColumns, bind_eq_ok, okOr_eq_ok] at h
    obtain ⟨pos, hpos, rest, hrest, h⟩ := h
    cases h
    exact List.forall_mem_cons.2 ⟨named_lt hpos, ih hrest⟩

end TableDef

open TableDef in
lemma Codable.of_apply (hd : Codable d) {change : TableChange} (h : d.apply change = .ok d') :
    Codable d' := by
  cases change with
  | addColumn column =>
    obtain ⟨-, -, h⟩ := bind_eq_ok.1 h
    simp only [addColumn, bind_eq_ok, require_eq_ok] at h
    obtain ⟨-, -, -, -, -, hsize, -, -, h⟩ := h
    cases h
    have hlength : (d.columns ++ [column.toDef]).length = d.columns.length + 1 := by simp
    exact hd.of_more (hlength ▸ hsize) (by rw [hlength]; exact Nat.le_succ _) (List.Subset.refl _)
      (List.Subset.refl _) (List.Subset.refl _) rfl
  | moveColumn column pos =>
    rw [apply, moveColumn_eq] at h
    obtain ⟨phys, -, h⟩ := bind_eq_ok.1 h
    obtain ⟨at_, -, h⟩ := bind_eq_ok.1 h
    split_ifs at h
    cases h
    exact hd.of_more hd.size le_rfl (List.Subset.refl _) (List.Subset.refl _) (List.Subset.refl _) rfl
  | reorderColumns order =>
    simp only [apply, reorderColumns] at h
    split_ifs at h
    split at h
    · cases h
    · cases h
      exact hd.of_more hd.size le_rfl (List.Subset.refl _) (List.Subset.refl _) (List.Subset.refl _) rfl
  | renameColumn old new =>
    simp only [apply, renameColumn, bind_eq_ok] at h
    obtain ⟨-, -, phys, -, -, -, h⟩ := h
    cases h
    have hlength := length_change d phys fun c => { c with name := new }
    exact hd.of_more (hlength ▸ hd.size) hlength.ge (List.Subset.refl _) (List.Subset.refl _)
      (List.Subset.refl _) rfl
  | dropColumn column =>
    simp only [apply, dropColumn, bind_eq_ok] at h
    obtain ⟨phys, -, -, -, -, -, -, -, -, -, h⟩ := h
    cases h
    have hlength := length_change d phys fun c => { c with dropped := true }
    exact hd.of_more (hlength ▸ hd.size) hlength.ge (List.Subset.refl _) (List.Subset.refl _)
      (List.Subset.refl _) rfl
  | createIndex name index_id columns unique =>
    simp only [apply, createIndex, bind_eq_ok, require_eq_ok] at h
    obtain ⟨positions, hpositions, -, -, -, hcount, -, -, h⟩ := h
    have hlt := indexColumns_lt hpositions
    cases h
    refine { hd with indexes := fun idx hidx => ?_ }
    rcases List.mem_append.1 hidx with hidx | hidx
    · exact hd.indexes idx hidx
    · rw [List.mem_singleton.1 hidx]
      exact ⟨hcount.1, hcount.2, hlt⟩
  | dropIndex pos =>
    cases h
    exact hd.of_more hd.size le_rfl (fun _ => List.mem_of_mem_eraseIdx) (List.Subset.refl _)
      (List.Subset.refl _) rfl
  | createFtsIndex name fts_id columns tokenizer =>
    simp only [apply, createFtsIndex, bind_eq_ok, require_eq_ok] at h
    obtain ⟨positions, hpositions, -, -, -, -, -, hcount, -, -, h⟩ := h
    have hlt := indexColumns_lt hpositions
    cases h
    refine { hd with fts := fun fts hfts => ?_ }
    rcases List.mem_append.1 hfts with hfts | hfts
    · exact hd.fts fts hfts
    · rw [List.mem_singleton.1 hfts]
      exact ⟨hcount.1, hcount.2, hlt⟩
  | dropFtsIndex pos =>
    cases h
    exact hd.of_more hd.size le_rfl (List.Subset.refl _) (fun _ => List.mem_of_mem_eraseIdx)
      (List.Subset.refl _) rfl
  | createVectorIndex name vidx_id column metric lists probes dim rerank_i8 =>
    simp only [apply, createVectorIndex, bind_eq_ok, okOr_eq_ok] at h
    obtain ⟨pos, hpos, m, -, -, -, col, -, -, -, h⟩ := h
    cases h
    refine { hd with vectors := fun vi hvi => ?_ }
    rcases List.mem_append.1 hvi with hvi | hvi
    · exact hd.vectors vi hvi
    · rw [List.mem_singleton.1 hvi]
      exact ⟨named_lt hpos, by dsimp only; omega⟩
  | dropVectorIndex pos =>
    cases h
    exact hd.of_more hd.size le_rfl (List.Subset.refl _) (List.Subset.refl _)
      (fun _ => List.mem_of_mem_eraseIdx) rfl

/-- A table that is created next to others like it, and then changed. -/
inductive Declared : TableDef → Prop
  | create {d : TableDef} {tables : String → Result (Option TableDef)} {name : String}
      {table_id : UInt32} {cols : List ColumnSpec} {foreign_keys : List ForeignKeySpec}
      {checks : List String} : (∀ name p, tables name = .ok (some p) → Declared p) →
      createTable tables name table_id cols foreign_keys checks = .ok d → Declared d
  | change {d d' : TableDef} {c : TableChange} : Declared d → d.apply c = .ok d' → Declared d'

lemma Declared.codable (h : Declared d) : Codable d := by
  induction h with
  | create _ h ih => exact .of_createTable (fun name p hp => (ih name p hp).size) h
  | change _ h ih => exact ih.of_apply h

lemma Declared.reachable (h : Declared d) : d.Reachable := by
  induction h with
  | create _ h _ => exact .create h
  | change _ h ih => exact .change ih h

/-- In any history, a definition is read back as it is written. -/
theorem Declared.decodeDef_encodeDef (h : Declared d) (hlen : (encodeDef d).length < 2 ^ 64) :
    decodeDef d.name (encodeDef d) = .ok d := Catalog.decodeDef_encodeDef h.codable hlen

end History

end Arkeion.Catalog
