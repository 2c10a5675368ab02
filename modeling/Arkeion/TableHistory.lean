import Arkeion.TableDef

/-!
The history of a table: its definition as it is created and then altered and indexed by any
statements that succeed. The names of the columns shown stay different, and the column of the rowid
stays shown.
-/

namespace Arkeion

open Arkeion.Lib

namespace Catalog

namespace TableDef

variable (d : TableDef)

/-! ### Indexes -/

/-- The columns an index statement names. -/
def indexColumns : List String → Result (List ℕ)
  | [] => .ok []
  | cname :: columns => do
    let pos ← okOr (d.named cname) (.sql s!"columna desconocida: {cname}")
    let positions ← indexColumns columns
    .ok (pos :: positions)

/-- The checks of the columns of an index one after the other. -/
def checkIndexColumns : List ℕ → Result Unit
  | [] => .ok ()
  | c :: columns => do
    require (c < d.columns.length) (.invalidInput "columna de índice inexistente")
    require (d.rowid_alias ≠ some c)
      (.invalidInput "no se indexa la PRIMARY KEY: ya es la clave primaria")
    checkIndexColumns columns

/-- An index whose name is free and which the rows allow. -/
def createIndex (name : String) (index_id : UInt32) (columns : List String) (unique : Bool) :
    Result TableDef := do
  let positions ← d.indexColumns columns
  validateName name "nombre de índice vacío o de más de 128 bytes"
  require (positions ≠ [] ∧ positions.length ≤ MAX_COLUMNS)
    (.invalidInput "un índice necesita entre 1 y 255 columnas")
  d.checkIndexColumns positions
  .ok { d with indexes := d.indexes ++ [⟨name, index_id, positions, unique⟩] }

def checkFtsColumns : List ℕ → Result Unit
  | [] => .ok ()
  | c :: columns => do
    let col ← okOr d.columns[c]? (.invalidInput "columna de índice FTS inexistente")
    require (col.col_type = .text) (.invalidInput "FULLTEXT solo indexa columnas TEXT")
    checkFtsColumns columns

def createFtsIndex (name : String) (fts_id : UInt32) (columns : List String)
    (tokenizer : Option String) : Result TableDef := do
  let positions ← d.indexColumns columns
  validateName name "nombre de índice FTS vacío o de más de 128 bytes"
  let tok := tokenizer.getD "unicode"
  require (tok = "unicode" ∨ tok = "ascii")
    (.sql s!"tokenizer FTS desconocido: «{tok}» (válidos: unicode, ascii)")
  require (positions ≠ [] ∧ positions.length ≤ MAX_COLUMNS)
    (.invalidInput "un índice FTS necesita entre 1 y 255 columnas")
  d.checkFtsColumns positions
  .ok { d with fts_indexes := d.fts_indexes ++ [⟨name, fts_id, positions, tok⟩] }

def vectorMetric : Option String → Result VectorMetric
  | none => .ok .cosine
  | some m =>
    if m = "cosine" then .ok .cosine
    else if m = "l2" then .ok .l2
    else .error (.sql s!"métrica vectorial desconocida: {m}")

/-- The lists asked for or 100, the probes or a tenth of the lists, and the dimension the vectors
turned out to have. -/
def createVectorIndex (name : String) (vidx_id : UInt32) (column : String)
    (metric : Option String) (lists probes : Option ℕ) (dim : UInt32) (rerank_i8 : Bool) :
    Result TableDef := do
  let pos ← okOr (d.named column) (.sql s!"columna desconocida: {column}")
  let metric ← vectorMetric metric
  let lists := max 1 (min (lists.getD 100) 65535)
  let nprobe := max 1 (min (probes.getD ((lists + 9) / 10)) 65535)
  validateName name "nombre de índice vectorial vacío o de más de 128 bytes"
  let col ← okOr d.columns[pos]? (.invalidInput "columna de índice vectorial inexistente")
  require (col.col_type = .blob) (.invalidInput "un índice vectorial requiere una columna BLOB")
  .ok { d with
    vector_indexes := d.vector_indexes
      ++ [⟨name, vidx_id, pos, UInt16.ofNat lists, metric, dim, nprobe, rerank_i8⟩] }

end TableDef

/-! ### Statements -/

/-- A statement that changes the definition of a table; indexes are dropped by their place. -/
inductive TableChange where
  | addColumn (column : ColumnSpec)
  | moveColumn (column : String) (pos : ColumnPos)
  | reorderColumns (order : List String)
  | renameColumn (old new : String)
  | dropColumn (column : String)
  | createIndex (name : String) (index_id : UInt32) (columns : List String) (unique : Bool)
  | dropIndex (pos : ℕ)
  | createFtsIndex (name : String) (fts_id : UInt32) (columns : List String)
      (tokenizer : Option String)
  | dropFtsIndex (pos : ℕ)
  | createVectorIndex (name : String) (vidx_id : UInt32) (column : String)
      (metric : Option String) (lists probes : Option ℕ) (dim : UInt32) (rerank_i8 : Bool)
  | dropVectorIndex (pos : ℕ)
  deriving DecidableEq, Repr

namespace TableDef

def apply (d : TableDef) : TableChange → Result TableDef
  | .addColumn column => do
    require (column.primary_key = false) (.sql "ALTER TABLE ADD: no se puede añadir una PRIMARY KEY")
    d.addColumn column.toDef
  | .moveColumn column pos => d.moveColumn column pos
  | .reorderColumns order => d.reorderColumns order
  | .renameColumn old new => d.renameColumn old new
  | .dropColumn column => d.dropColumn column
  | .createIndex name index_id columns unique => d.createIndex name index_id columns unique
  | .dropIndex pos => .ok { d with indexes := d.indexes.eraseIdx pos }
  | .createFtsIndex name fts_id columns tokenizer =>
    d.createFtsIndex name fts_id columns tokenizer
  | .dropFtsIndex pos => .ok { d with fts_indexes := d.fts_indexes.eraseIdx pos }
  | .createVectorIndex name vidx_id column metric lists probes dim rerank_i8 =>
    d.createVectorIndex name vidx_id column metric lists probes dim rerank_i8
  | .dropVectorIndex pos => .ok { d with vector_indexes := d.vector_indexes.eraseIdx pos }

/-- The definitions that a table is given by its creation and any changes. -/
inductive Reachable : TableDef → Prop
  | create {d : TableDef} {tables : String → Result (Option TableDef)} {name : String}
      {table_id : UInt32} {cols : List ColumnSpec} {foreign_keys : List ForeignKeySpec}
      {checks : List String} :
      createTable tables name table_id cols foreign_keys checks = .ok d → Reachable d
  | change {d d' : TableDef} {c : TableChange} : Reachable d → d.apply c = .ok d' → Reachable d'

/-! ### The columns shown -/

/-- The column stands at the position and is shown. -/
def Shows (d : TableDef) (i : ℕ) (c : ColumnDef) : Prop := d.columns[i]? = some c ∧ c.dropped = false

/-- The names of the columns shown are different, the column of the rowid is shown, and positions
are those of columns. -/
structure WellNamed (d : TableDef) : Prop where
  unique : ∀ i j c c', d.Shows i c → d.Shows j c' → c.name = c'.name → i = j
  alias_shown : ∀ i, d.rowid_alias = some i → ∃ c, d.Shows i c
  size : d.columns.length ≤ MAX_COLUMNS
  fts_lt : ∀ fts ∈ d.fts_indexes, ∀ i ∈ fts.columns, i < d.columns.length

variable {d d' : TableDef} {name : String} {i : ℕ} {c : ColumnDef}

lemma named_eq_some : d.named name = some i ↔
    (∃ c, d.columns[i]? = some c ∧ c.name = name) ∧
      ∀ j < i, ∀ c, d.columns[j]? = some c → c.name ≠ name := by
  simp only [named, List.findIdx?_eq_some_iff_getElem, beq_iff_eq, List.getElem?_eq_some_iff]
  constructor
  · rintro ⟨h, hname, hbefore⟩
    refine ⟨⟨_, ⟨h, rfl⟩, hname⟩, ?_⟩
    rintro j hj c ⟨hlt, rfl⟩
    simpa using hbefore j hj
  · rintro ⟨⟨c, ⟨h, rfl⟩, hname⟩, hbefore⟩
    exact ⟨h, hname, fun j hj => by simpa using hbefore j hj _ ⟨by omega, rfl⟩⟩

lemma named_eq_none : d.named name = none ↔ ∀ c ∈ d.columns, c.name ≠ name := by
  simp [named, List.findIdx?_eq_none_iff]

lemma visible_eq_none : d.visible name = none ↔
    ∀ c ∈ d.columns, c.dropped = false → c.name ≠ name := by
  simp [visible, List.findIdx?_eq_none_iff]

lemma shows_of_visible (h : d.visible name = some i) : ∃ c, d.Shows i c ∧ c.name = name := by
  obtain ⟨hlt, hc, -⟩ := List.findIdx?_eq_some_iff_getElem.1 h
  simp only [Bool.and_eq_true, Bool.not_eq_true', beq_iff_eq] at hc
  exact ⟨_, ⟨List.getElem?_eq_getElem hlt, hc.1⟩, hc.2⟩

lemma Shows.mem (h : d.Shows i c) : c ∈ d.columns := List.mem_of_getElem? h.1

/-- The name of a column shown denotes it. -/
lemma WellNamed.visible_eq (hd : d.WellNamed) (h : d.Shows i c) : d.visible c.name = some i := by
  cases hv : d.visible c.name with
  | none => exact absurd rfl (visible_eq_none.1 hv c h.mem h.2)
  | some j =>
    obtain ⟨c', hj, hname⟩ := shows_of_visible hv
    rw [hd.unique j i c' c hj h hname]

lemma WellNamed.of_columns (hd : d.WellNamed) (hc : d'.columns = d.columns)
    (ha : d'.rowid_alias = d.rowid_alias) (hf : ∀ fts ∈ d'.fts_indexes, ∀ i ∈ fts.columns,
      i < d.columns.length) : d'.WellNamed where
  unique i j c c' h h' := by
    rw [Shows, hc] at h h'
    exact hd.unique i j c c' h h'
  alias_shown i h := by
    simp only [Shows, hc]
    exact hd.alias_shown i (ha.symm.trans h)
  size := by
    rw [hc]
    exact hd.size
  fts_lt fts h i hi := by
    rw [hc]
    exact hf fts h i hi

lemma checkColumns_nodup {before cols : List ColumnSpec} {a r : Option ℕ}
    (h : checkColumns before cols a = .ok r) (hb : (before.map ColumnSpec.name).Nodup) :
    ((before ++ cols).map ColumnSpec.name).Nodup := by
  induction cols generalizing before a with
  | nil => simpa using hb
  | cons col cols ih =>
    have hall : before ++ col :: cols = (before ++ [col]) ++ cols := by simp
    simp only [checkColumns, bind_eq_ok, require_eq_ok] at h
    obtain ⟨-, -, -, hnew, h⟩ := h
    have hb' : ((before ++ [col]).map ColumnSpec.name).Nodup := by
      rw [List.map_append, List.map_singleton, List.nodup_append]
      refine ⟨hb, List.nodup_singleton _, fun x hx y hy he => ?_⟩
      obtain ⟨c, hc, rfl⟩ := List.mem_map.1 hx
      exact hnew c hc (he.trans (List.mem_singleton.1 hy))
    rw [hall]
    split_ifs at h
    · obtain ⟨-, -, h⟩ := bind_eq_ok.1 h
      obtain ⟨-, -, h⟩ := bind_eq_ok.1 h
      exact ih h hb'
    · exact ih h hb'

lemma WellNamed.of_createTable {tables : String → Result (Option TableDef)} {table_id : UInt32}
    {cols : List ColumnSpec} {fks : List ForeignKeySpec} {checks : List String}
    (h : createTable tables name table_id cols fks checks = .ok d) : d.WellNamed := by
  simp only [createTable, bind_eq_ok, require_eq_ok] at h
  obtain ⟨-, -, -, ⟨-, hsize⟩, h⟩ := h
  split at h
  · cases h
  · rename_i hcheck
    obtain ⟨fks', -, h⟩ := bind_eq_ok.1 h
    cases h
    have hnodup := checkColumns_nodup hcheck List.nodup_nil
    have hshows {i : ℕ} {c : ColumnSpec} (hc : cols[i]? = some c) :
        (cols.map ColumnSpec.toDef)[i]? = some c.toDef ∧ c.toDef.dropped = false := by
      rw [List.getElem?_map, hc]
      exact ⟨rfl, rfl⟩
    refine ⟨?_, fun i hi => ?_, by rwa [List.length_map], by simp⟩
    · rintro i j c c' ⟨hi, -⟩ ⟨hj, -⟩ hname
      simp only [List.getElem?_map, Option.map_eq_some_iff] at hi hj
      obtain ⟨a, ha, rfl⟩ := hi
      obtain ⟨b, hb, rfl⟩ := hj
      have hlt : i < (cols.map ColumnSpec.name).length := by
        rw [List.length_map]
        exact (List.getElem?_eq_some_iff.1 ha).1
      refine (List.getElem?_inj hlt hnodup).1 ?_
      rw [List.getElem?_map, List.getElem?_map, ha, hb]
      exact congrArg some hname
    · have hlt := newTable_alias hcheck i hi
      rw [List.length_map] at hlt
      exact ⟨_, hshows (List.getElem?_eq_getElem hlt)⟩

lemma WellNamed.of_addColumn (hd : d.WellNamed) {col : ColumnDef} (h : d.addColumn col = .ok d') :
    d'.WellNamed := by
  simp only [addColumn, bind_eq_ok, require_eq_ok] at h
  obtain ⟨-, -, -, hnew, -, hsize, -, -, h⟩ := h
  cases h
  have hold {i : ℕ} {c : ColumnDef} (hi : (d.columns ++ [col])[i]? = some c) :
      d.columns[i]? = some c ∨ i = d.columns.length ∧ c = col := by
    rcases Nat.lt_or_ge i d.columns.length with hlt | hge
    · rw [List.getElem?_append_left hlt] at hi
      exact Or.inl hi
    · rw [List.getElem?_append_right hge, List.getElem?_singleton] at hi
      split_ifs at hi
      cases hi
      exact Or.inr ⟨by omega, rfl⟩
  have hmem {i : ℕ} {c : ColumnDef} (hi : d.columns[i]? = some c) : c.name ≠ col.name :=
    hnew c (List.mem_of_getElem? hi)
  refine ⟨?_, fun i hi => ?_, ?_, fun fts hf i hi => ?_⟩
  · rintro i j c c' ⟨hi, hc⟩ ⟨hj, hc'⟩ hname
    rcases hold hi with ha | ⟨rfl, rfl⟩ <;> rcases hold hj with hb | ⟨rfl, rfl⟩
    · exact hd.unique i j c c' ⟨ha, hc⟩ ⟨hb, hc'⟩ hname
    · exact absurd hname (hmem ha)
    · exact absurd hname.symm (hmem hb)
    · rfl
  · obtain ⟨c, hc, hshown⟩ := hd.alias_shown i hi
    exact ⟨c, (List.getElem?_append_left (d.alias_lt i hi)).trans hc, hshown⟩
  · rw [List.length_append, List.length_singleton]
    exact hsize
  · rw [List.length_append]
    exact Nat.lt_add_right _ (hd.fts_lt fts hf i hi)

lemma shows_change {phys : ℕ} {f : ColumnDef → ColumnDef} (h : (d.change phys f).Shows i c) :
    ∃ c₀, d.columns[i]? = some c₀ ∧ c = (if phys = i then f c₀ else c₀) ∧ c.dropped = false := by
  obtain ⟨hc, hshown⟩ := h
  rw [change, List.getElem?_modify] at hc
  obtain ⟨c₀, hc₀, rfl⟩ := Option.map_eq_some_iff.1 hc
  exact ⟨c₀, hc₀, rfl, hshown⟩

lemma change_shows {phys : ℕ} {f : ColumnDef → ColumnDef} (hc : d.columns[i]? = some c)
    (hf : (if phys = i then f c else c).dropped = false) :
    (d.change phys f).Shows i (if phys = i then f c else c) := by
  refine ⟨?_, hf⟩
  rw [change, List.getElem?_modify, hc]
  rfl

lemma length_change (d : TableDef) (phys : ℕ) (f : ColumnDef → ColumnDef) :
    (d.change phys f).columns.length = d.columns.length := List.length_modify ..

lemma WellNamed.of_renameColumn (hd : d.WellNamed) {old new : String}
    (h : d.renameColumn old new = .ok d') : d'.WellNamed := by
  simp only [renameColumn, bind_eq_ok, require_eq_ok, okOr_eq_ok] at h
  obtain ⟨-, -, phys, hold, -, hnew, h⟩ := h
  cases h
  have hfree := visible_eq_none.1 hnew
  have hother {i : ℕ} {c : ColumnDef} (h : d.Shows i c) : c.name ≠ new := hfree c h.mem h.2
  refine ⟨?_, fun i hi => ?_, ?_, ?_⟩
  · intro i j c c' h h' hname
    obtain ⟨a, ha, rfl, hshown⟩ := shows_change h
    obtain ⟨b, hb, rfl, hshown'⟩ := shows_change h'
    by_cases hi : phys = i <;> by_cases hj : phys = j
    · exact hi.symm.trans hj
    · rw [if_pos hi, if_neg hj] at hname
      rw [if_neg hj] at hshown'
      exact absurd hname.symm (hother ⟨hb, hshown'⟩)
    · rw [if_neg hi, if_pos hj] at hname
      rw [if_neg hi] at hshown
      exact absurd hname (hother ⟨ha, hshown⟩)
    · rw [if_neg hi] at hshown
      rw [if_neg hj] at hshown'
      rw [if_neg hi, if_neg hj] at hname
      exact hd.unique i j a b ⟨ha, hshown⟩ ⟨hb, hshown'⟩ hname
  · obtain ⟨c, hc, hshown⟩ := hd.alias_shown i hi
    exact ⟨_, change_shows hc (by split_ifs <;> exact hshown)⟩
  · rw [length_change]
    exact hd.size
  · rw [length_change]
    exact hd.fts_lt

lemma WellNamed.of_dropColumn (hd : d.WellNamed) {col : String} (h : d.dropColumn col = .ok d') :
    d'.WellNamed := by
  simp only [dropColumn, bind_eq_ok, require_eq_ok, okOr_eq_ok] at h
  obtain ⟨phys, -, -, halias, -, -, -, -, -, -, h⟩ := h
  cases h
  have hstays {i : ℕ} {c : ColumnDef}
      (h : (d.change phys fun c => { c with dropped := true }).Shows i c) : d.Shows i c := by
    obtain ⟨a, ha, rfl, hshown⟩ := shows_change h
    split_ifs at hshown ⊢
    exact ⟨ha, hshown⟩
  refine ⟨fun i j c c' h h' => hd.unique i j c c' (hstays h) (hstays h'), fun i hi => ?_, ?_, ?_⟩
  · obtain ⟨c, hc, hshown⟩ := hd.alias_shown i hi
    have hne : ¬ phys = i := by
      rintro rfl
      exact halias hi
    have hs := @change_shows d i c phys (fun c => { c with dropped := true }) hc
    simp only [if_neg hne] at hs
    exact ⟨c, hs hshown⟩
  · rw [length_change]
    exact hd.size
  · rw [length_change]
    exact hd.fts_lt

lemma checkFtsColumns_lt {columns : List ℕ} {u : Unit} (h : d.checkFtsColumns columns = .ok u) :
    ∀ i ∈ columns, i < d.columns.length := by
  induction columns with
  | nil => simp
  | cons a columns ih =>
    simp only [checkFtsColumns, bind_eq_ok, okOr_eq_ok] at h
    obtain ⟨col, hcol, -, -, h⟩ := h
    exact List.forall_mem_cons.2 ⟨(List.getElem?_eq_some_iff.1 hcol).1, ih h⟩

/-- The place a column is moved to. -/
def place (d : TableDef) (col : String) (phys : ℕ) : ColumnPos → Result ℕ
  | .first => .ok 0
  | .before name => d.placeOf col phys name 0
  | .after name => d.placeOf col phys name 1

lemma moveColumn_eq (d : TableDef) (col : String) (pos : ColumnPos) : d.moveColumn col pos
    = okOr (d.named col) (.constraint "columna desconocida") >>= fun phys =>
      d.place col phys pos >>= fun at_ =>
        if h : phys < d.columns.length ∧ at_ ≤ (d.logical_order.filter (· != phys)).length then
          .ok { d with logical_order := d.moved phys at_, logical := d.moved_perm h.1 h.2 }
        else .error (.panic "insertion index out of bounds") := by
  cases pos <;> rfl

/-- What a statement does keeps the columns shown apart. -/
lemma WellNamed.of_apply (hd : d.WellNamed) {change : TableChange} (h : d.apply change = .ok d') :
    d'.WellNamed := by
  cases change with
  | addColumn column =>
    obtain ⟨-, -, h⟩ := bind_eq_ok.1 h
    exact hd.of_addColumn h
  | moveColumn column pos =>
    rw [apply, moveColumn_eq] at h
    obtain ⟨phys, -, h⟩ := bind_eq_ok.1 h
    obtain ⟨at_, -, h⟩ := bind_eq_ok.1 h
    split_ifs at h
    cases h
    exact hd.of_columns rfl rfl hd.fts_lt
  | reorderColumns order =>
    simp only [apply, reorderColumns] at h
    split_ifs at h
    split at h
    · cases h
    · cases h
      exact hd.of_columns rfl rfl hd.fts_lt
  | renameColumn old new => exact hd.of_renameColumn h
  | dropColumn column => exact hd.of_dropColumn h
  | createIndex name index_id columns unique =>
    simp only [apply, createIndex, bind_eq_ok] at h
    obtain ⟨positions, -, -, -, -, -, -, -, h⟩ := h
    cases h
    exact hd.of_columns rfl rfl hd.fts_lt
  | dropIndex pos =>
    cases h
    exact hd.of_columns rfl rfl hd.fts_lt
  | createFtsIndex name fts_id columns tokenizer =>
    simp only [apply, createFtsIndex, bind_eq_ok] at h
    obtain ⟨positions, -, -, -, -, -, -, -, u, hcheck, h⟩ := h
    cases h
    refine hd.of_columns rfl rfl fun fts hf => ?_
    rcases List.mem_append.1 hf with hf | hf
    · exact hd.fts_lt fts hf
    · rw [List.mem_singleton.1 hf]
      exact checkFtsColumns_lt hcheck
  | dropFtsIndex pos =>
    cases h
    exact hd.of_columns rfl rfl fun fts hf => hd.fts_lt fts (List.mem_of_mem_eraseIdx hf)
  | createVectorIndex name vidx_id column metric lists probes dim rerank_i8 =>
    simp only [apply, createVectorIndex, bind_eq_ok] at h
    obtain ⟨pos, -, m, -, -, -, col, -, -, -, h⟩ := h
    cases h
    exact hd.of_columns rfl rfl hd.fts_lt
  | dropVectorIndex pos =>
    cases h
    exact hd.of_columns rfl rfl hd.fts_lt

/-- In any history. -/
lemma Reachable.wellNamed (h : d.Reachable) : d.WellNamed := by
  induction h with
  | create h => exact .of_createTable h
  | change _ h ih => exact ih.of_apply h

end TableDef

end Catalog

end Arkeion
