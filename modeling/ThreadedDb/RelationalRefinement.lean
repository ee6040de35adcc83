import ThreadedDb.RelationalModel
import ThreadedDb.ForwardSimulation

/-!
# The executor refines the relational database

Files, cache and index together show one relational database: a cached table is the table in its
file, a table that is not cached is the table that opening it would give. Every statement answers
what the relational database answers and leaves files and cache that show its next state.
-/
namespace RelationalRefinement

open ByteText
open SchemaModel
open StorageModel
open StorageRoundTrip
open LineFraming (Terminated lines offsets offsets_lines_append lines_cons_line)
open SqlFrontEnd
open BPTreeHeap
open RuntimeModel
open IndexBuild
open ExecutorModel
open TableCache
open InsertSpec
open StatementRuns
open IndexCoherence
open InsertRows
open SelectSpec
open RelationalModel
open CheckedArray (Checked ok_bind bind_eq_ok)

theorem decodeLines_bad {n : ℕ} {ls : List (ℕ × Bytes)} (h : decodeLines n ls = none)
    (ms : List (ℕ × Bytes)) : decodeLines n (ls ++ ms) = none := by
  induction ls with
  | nil => cases h
  | cons l ls ih =>
    rw [List.cons_append]
    cases hall : decodeLines n (l :: (ls ++ ms)) with
    | none => rfl
    | some rows =>
      obtain ⟨row, rest, hrow, hrest, -⟩ := decodeLines_cons.mp hall
      cases hls : decodeLines n ls with
      | none =>
        rw [ih hls] at hrest
        cases hrest
      | some rs =>
        have hgood := (decodeLines_cons (o := l.1)).mpr ⟨row, rs, hrow, hls, rfl⟩
        rw [h] at hgood
        cases hgood

/-- A row appended after the last line end is one more row, if the others are rows. -/
theorem rows_append {n : ℕ} {contents : Bytes} {row : Row} (hterm : Terminated 10 contents)
    (hrow : row ≠ []) (hn : row.length = n) :
    (decodeFile n (contents ++ encodeRow row)).map (List.map Prod.snd) =
      ((decodeFile n contents).map (List.map Prod.snd)).map (· ++ [storedRow row]) := by
  cases hdec : decodeFile n contents with
  | none =>
    unfold decodeFile at hdec ⊢
    rw [offsets_lines_append hterm, decodeLines_bad hdec]
    rfl
  | some rows => simp [decodeFile_append hterm hdec hrow hn]

theorem file_update (disk : Disk) (dbDir name : CString) (contents : Bytes) :
    file (Function.update disk (dataPath dbDir name) (some contents)) dbDir name = contents := by
  rw [file, Function.update_self, Option.getD_some]

theorem ofNat_succ_toNat (m : UInt64) : UInt64.ofNat (m.toNat + 1) = m + 1 := by
  apply UInt64.toNat_inj.mp
  rw [UInt64.toNat_ofNat', UInt64.toNat_add, UInt64.toNat_one]

/-- The counter shows `k`: it has wrapped to 0 when the ids are used up. -/
structure Counts (next : UInt64) (k : ℕ) : Prop where
  value : next = UInt64.ofNat k
  positive : 0 < k
  bounded : k ≤ idLimit

theorem Counts.zero_iff {next : UInt64} {k : ℕ} (h : Counts next k) : next = 0 ↔ k = idLimit := by
  obtain ⟨rfl, hpos, hle⟩ := h
  rw [← UInt64.toNat_inj, UInt64.toNat_ofNat', UInt64.toNat_zero]
  unfold idLimit at *
  omega

theorem counts_after (m : UInt64) : Counts (m + 1) (m.toNat + 1) := by
  refine ⟨(ofNat_succ_toNat m).symm, Nat.succ_pos _, ?_⟩
  have hm : m.toNat < 2 ^ 64 := m.toNat_lt
  unfold idLimit
  omega

theorem Counts.next {next : UInt64} {k : ℕ} (h : Counts next k) (hne : next ≠ 0) :
    Counts (next + 1) (k + 1) := by
  have hk : next.toNat = k := by
    rw [Ne, h.zero_iff] at hne
    rw [h.value, UInt64.toNat_ofNat', Nat.mod_eq_of_lt]
    exact lt_of_le_of_ne h.bounded hne
  rw [← hk]
  exact counts_after next

structure Mirrors (contents : Bytes) (table : TableRuntime) (t : Table) : Prop where
  schema : t.schema = table.schema
  rows : t.rows = (decodeFile table.schema.columnCount contents).map (List.map Prod.snd)
  plain : table.idColumnIndex = none → t.nextId = none
  numbered : ∀ i, table.idColumnIndex = some i → ∃ k, t.nextId = some k ∧ Counts table.nextId k

theorem build_error_status {disk : Disk} {dbDir : CString} {schema : TableSchema} {i : ℕ}
    {e : EngineError} (h : buildIdIndexForTable disk dbDir schema i = .ok (.error e)) :
    e.status = .indexError := by
  unfold buildIdIndexForTable at h
  obtain ⟨scanned, -, h⟩ := bind_eq_ok.mp h
  cases scanned with
  | error e' =>
    cases h
    rfl
  | ok state =>
    dsimp only at h
    split at h
    · cases h
    split at h
    · cases h
      rfl
    · cases h

/-- A table opens as the file says: with its rows, or with an error of the same status. -/
theorem load_opens {disk disk' : Disk} {dbDir name : CString}
    {found : Except EngineError TableRuntime}
    (h : loadTableRuntime disk dbDir name = .ok (disk', found)) :
    (∃ e, found = .error e ∧ openTable disk dbDir name = .error e.status ∧
      (translateLoadError e).status = e.status) ∨
    ∃ table t, found = .ok table ∧ openTable disk dbDir name = .ok t ∧
      Mirrors (file disk dbDir name) table t := by
  unfold loadTableRuntime at h
  cases hschema : loadTableSchema name (disk (schemaPath dbDir name)) with
  | error message =>
    rw [hschema] at h
    cases h
    refine .inl ⟨_, rfl, ?_, rfl⟩
    rw [openTable, hschema]
  | ok schema =>
    have hname := loadTableSchema_name hschema
    rw [hschema] at h
    simp only [ensureTableDataFile] at h
    cases hid : schemaFindColumnIndex schema (.lit "id") with
    | none =>
      rw [hid] at h
      cases h
      refine .inr ⟨_, ⟨schema, (decodeFile schema.columnCount (file disk dbDir name)).map
        (List.map Prod.snd), none⟩, rfl, ?_, rfl, rfl, fun _ => rfl, fun i hi => by cases hi⟩
      rw [openTable, hschema]
      simp only [idName, hid]
    | some i =>
      rw [hid] at h
      obtain ⟨built, hbuild, h⟩ := bind_eq_ok.mp h
      have hfile : (Function.update disk (dataPath dbDir name)
          (some ((disk (dataPath dbDir name)).getD [])) (dataPath dbDir schema.tableName)).getD [] =
          file disk dbDir name := by
        rw [hname, Function.update_self, Option.getD_some]
        rfl
      cases built with
      | ok index =>
        obtain ⟨tree, next⟩ := index
        cases h
        obtain ⟨rows, entries, hb, rfl, hne⟩ := (build_iff _ _ _ _ _ _).mp hbuild
        rw [hfile] at hb
        refine .inr ⟨_, ⟨schema, some (rows.map Prod.snd),
          some ((maxId (entries.map Prod.fst)).toNat + 1)⟩, rfl, ?_, rfl, ?_, ?_, ?_⟩
        · rw [openTable, hschema]
          simp only [idName, hid, hb.decoded, Option.bind_some, hb.ids, Option.map_some]
          rw [if_pos ⟨hb.distinct, hne⟩]
        · rw [hb.decoded, Option.map_some]
        · intro hnone
          cases hnone
        · intro j _
          exact ⟨_, rfl, counts_after _⟩
      | error e =>
        cases h
        have hstatus := build_error_status hbuild
        refine .inl ⟨e, rfl, ?_, ?_⟩
        · rw [openTable, hschema, hstatus]
          simp only [idName, hid]
          cases hdec : decodeFile schema.columnCount (file disk dbDir name) with
          | none => rfl
          | some rows =>
            cases hids : idEntries i rows with
            | none => simp [hids]
            | some entries =>
              simp only [Option.bind_some, hids]
              -- distinct ids below the last one would have built
              rw [if_neg]
              rintro ⟨hnodup, hne⟩
              obtain ⟨es, tree, statuses, hrun, -⟩ := fold_build schema.tableName
                BPTreeMap.afterInserts_nil hids hnodup
              rw [List.nil_append] at hrun
              have hok := (build_iff _ dbDir schema i tree _).mpr
                ⟨rows, entries, ⟨hfile.symm ▸ hdec, hids, hnodup, es, statuses, hrun⟩, rfl, hne⟩
              rw [hbuild] at hok
              cases hok
        · unfold translateLoadError
          rw [hstatus]
          rfl

def FailsExec {α : Type} (x : Except EngineError α) : Prop :=
  ∀ e, x = .error e → e.status = .execError

theorem failsExec_ok {α : Type} (a : α) : FailsExec (.ok a) := by
  intro e he
  cases he

theorem failsExec_error {α : Type} (message : CString) :
    FailsExec (.error (execError message) : Except EngineError α) := by
  intro e he
  cases he
  rfl

theorem placeNamedValues_failsExec (schema : TableSchema) (named : List (CString × LiteralValue))
    (seen : List ℕ) (row : Row) : FailsExec (placeNamedValues schema named seen row) := by
  induction named generalizing seen row with
  | nil => exact failsExec_ok row
  | cons p named ih =>
    rw [placeNamedValues]
    split
    · exact failsExec_error _
    · split
      · exact failsExec_error _
      · exact ih _ _

theorem checkAutoIdColumns_failsExec (schema : TableSchema) (i : ℕ) (columns : List CString)
    (seen : List ℕ) : FailsExec (checkAutoIdColumns schema i columns seen) := by
  induction columns generalizing seen with
  | nil => exact failsExec_ok ()
  | cons column columns ih =>
    rw [checkAutoIdColumns]
    split
    · exact failsExec_error _
    · split
      · exact failsExec_error _
      · split
        · exact failsExec_error _
        · exact ih _

theorem placeAutoIdValues_failsExec (schema : TableSchema) (i : ℕ)
    (named : List (CString × LiteralValue)) (row : Row) :
    FailsExec (placeAutoIdValues schema i named row) := by
  induction named generalizing row with
  | nil => exact failsExec_ok row
  | cons p named ih =>
    rw [placeAutoIdValues]
    split
    · exact failsExec_error _
    · split
      · exact failsExec_error _
      · exact ih _

theorem validate_failsExec (table : TableRuntime) (stmt : InsertStatement) :
    FailsExec (validateInsertColumnsForAutoId table stmt) := by
  unfold validateInsertColumnsForAutoId
  split
  · exact failsExec_ok ()
  · dsimp only
    split
    · split
      · exact failsExec_error _
      · exact failsExec_ok ()
    · split
      · exact failsExec_error _
      · exact checkAutoIdColumns_failsExec _ _ _ _

theorem existing_failsExec (schema : TableSchema) (stmt : InsertStatement) :
    FailsExec (buildInsertRowExistingBehavior schema stmt) := by
  unfold buildInsertRowExistingBehavior
  split
  · split
    · exact failsExec_error _
    · exact failsExec_ok _
  · split
    · exact failsExec_error _
    · exact placeNamedValues_failsExec _ _ _ _

theorem generated_failsExec {table : TableRuntime} {stmt : InsertStatement} {id : UInt64}
    {built : Except EngineError Row}
    (h : buildInsertRowWithGeneratedId table stmt id = .ok built) : FailsExec built := by
  unfold buildInsertRowWithGeneratedId at h
  split at h
  · cases h
    exact failsExec_error _
  · dsimp only at h
    split at h
    · obtain ⟨row, -, h⟩ := bind_eq_ok.mp h
      cases h
      exact failsExec_ok row
    · cases h
      exact placeAutoIdValues_failsExec _ _ _ _

theorem builtRow_failsExec {table : TableRuntime} {stmt : InsertStatement}
    {built : Except EngineError Row} (h : builtRow table stmt = .ok built) : FailsExec built := by
  unfold builtRow at h
  split at h
  · have hvalid := validate_failsExec table stmt
    split at h
    · rename_i e he
      cases h
      intro e' he'
      cases he'
      exact hvalid e he
    · split at h
      · cases h
        exact failsExec_error _
      · exact generated_failsExec h
  · cases h
    exact existing_failsExec _ _

/-- What the relational database says about an outcome: the result, or the status of the error. -/
def view (out : Except EngineError ExecResult) : Except StatusCode ExecResult :=
  out.mapError EngineError.status

section Tables

variable {disk disk' : Disk} {dbDir : CString} {table : TableRuntime} {t : Table}

theorem mirrors_room {contents : Bytes} (h : Mirrors contents table t) :
    t.HasRoom ↔ (table.hasIdColumn = true → table.nextId ≠ 0) := by
  unfold Table.HasRoom
  cases hid : table.idColumnIndex with
  | none => simp [h.plain hid, TableRuntime.hasIdColumn, hid]
  | some i =>
    obtain ⟨k, hk, hcounts⟩ := h.numbered i hid
    simp [hk, TableRuntime.hasIdColumn, hid, hcounts.zero_iff]

theorem mirrors_row {contents : Bytes} (h : Mirrors contents table t) (hs : Sound table)
    (stmt : InsertStatement) :
    t.rowFor stmt = storedRow (expectedRow table.schema stmt table.nextId) := by
  unfold Table.rowFor
  rw [h.schema]
  cases hid : table.idColumnIndex with
  | some i =>
    obtain ⟨k, hk, hcounts⟩ := h.numbered i hid
    rw [hk, Option.getD_some, ← hcounts.value]
  | none =>
    -- without an `id` column no field is the number
    have hno : idName ∉ table.schema.columns := by
      rw [← findColumn_none]
      exact hs.id_column.symm.trans hid
    congr 1
    apply List.map_congr_left
    intro c hc
    have hne : c ≠ idName := fun heq => hno (heq ▸ hc)
    rw [expectedField, expectedField, if_neg hne, if_neg hne]

theorem insert_mirrors (hs : Sound table) {stmt : InsertStatement}
    (hterm : Terminated 10 (file disk dbDir stmt.tableName))
    (h : Mirrors (file disk dbDir stmt.tableName) table t) :
    ∃ disk' table' out, insertInto noFaults disk dbDir table stmt = .ok (disk', table', out) ∧
      view out = (t.insert stmt).2 ∧
      Mirrors (file disk' dbDir stmt.tableName) table' (t.insert stmt).1 := by
  have hroom := mirrors_room h
  rcases insertInto_cases disk dbDir stmt hs with
    ⟨e, hbuilt, hrun⟩ | ⟨row, table', g, hbuilt, hins, hrun⟩
  · have hno : ¬ (Admissible t.schema stmt ∧ t.HasRoom) := by
      rintro ⟨hadm, hr⟩
      obtain ⟨built, hb, hok, -⟩ := builtRow_builds hs (hroom.mp hr) stmt
      rw [hbuilt, Except.ok.injEq] at hb
      rw [h.schema] at hadm
      rw [← hb] at hok
      cases hok hadm
    refine ⟨disk, table, .error e, hrun, ?_, ?_⟩
    · rw [Table.insert, if_neg hno, view, Except.mapError, builtRow_failsExec hbuilt e rfl]
    · rw [Table.insert, if_neg hno]
      exact h
  · have hnext : table.hasIdColumn = true → table.nextId ≠ 0 := by
      intro hhas
      obtain ⟨i, hi⟩ := Option.isSome_iff_exists.mp hhas
      exact (hins.generated i hi).1
    obtain ⟨built, hb, hok, hrefused⟩ := builtRow_builds hs hnext stmt
    rw [hbuilt, Except.ok.injEq] at hb
    subst hb
    have hadm : Admissible table.schema stmt := by
      by_contra hnot
      obtain ⟨e, he⟩ := hrefused hnot
      cases he
    have hrow : row = expectedRow table.schema stmt table.nextId := Except.ok.inj (hok hadm)
    have hyes : Admissible t.schema stmt ∧ t.HasRoom := ⟨h.schema ▸ hadm, hroom.mpr hnext⟩
    obtain ⟨-, hschema', hcol'⟩ := hins.keeps
    refine ⟨_, table', _, hrun, ?_, ?_⟩
    · rw [Table.insert, if_pos hyes, view, Except.mapError]
      cases hid : table.idColumnIndex with
      | none =>
        rw [h.plain hid, (hins.plain hid).2]
        rfl
      | some i =>
        obtain ⟨k, hk, hcounts⟩ := h.numbered i hid
        rw [hk, (hins.generated i hid).2.1, hcounts.value]
        rfl
    · rw [Table.insert, if_pos hyes]
      refine ⟨h.schema.trans hschema'.symm, ?_, ?_, ?_⟩
      · dsimp only
        rw [hschema', h.rows, mirrors_row h hs stmt, ← hrow, file_update,
          rows_append hterm (row_ne_nil hins.row_length) hins.row_length]
      · intro hid
        rw [hcol'] at hid
        dsimp only
        rw [h.plain hid, Option.map_none]
      · intro i hi
        rw [hcol'] at hi
        obtain ⟨k, hk, hcounts⟩ := h.numbered i hi
        obtain ⟨hne, -, -, tree, -, rfl⟩ := hins.generated i hi
        refine ⟨k + 1, ?_, hcounts.next hne⟩
        dsimp only
        rw [hk, Option.map_some]

theorem firstUnknown_iff (schema : TableSchema) (columns : List CString) :
    firstUnknownColumn schema columns = none ↔ ∀ c ∈ columns, c ∈ schema.columns := by
  induction columns with
  | nil => simp [firstUnknownColumn]
  | cons column columns ih =>
    rw [firstUnknownColumn, List.forall_mem_cons, ← ih]
    cases hfind : schemaFindColumnIndex schema column with
    | none => simp [(findColumn_none schema column).mp hfind]
    | some i =>
      have hmem := List.mem_of_getElem? (findColumn_spec hfind).2
      simp [hmem]

theorem validate_sensible (schema : TableSchema) (stmt : SelectStatement) :
    validateSelectColumns schema stmt = .ok () ↔ Sensible schema stmt := by
  unfold validateSelectColumns
  dsimp only
  constructor
  · intro h
    split at h
    · cases h
    rename_i hcols
    have hknown : (if stmt.selectAll = true then none
        else firstUnknownColumn schema stmt.columns) = none := by
      by_contra hne
      obtain ⟨column, hcolumn⟩ := Option.ne_none_iff_exists'.mp hne
      rw [hcolumn] at h
      cases h
    rw [hknown] at h
    refine ⟨?_, ?_, ?_⟩
    · by_cases hall : stmt.selectAll = true
      · exact .inl hall
      · exact .inr fun hnil => hcols ⟨by simpa using hall, hnil⟩
    · by_cases hall : stmt.selectAll = true
      · exact .inl hall
      · rw [if_neg hall] at hknown
        exact .inr ((firstUnknown_iff schema stmt.columns).mp hknown)
    · intro clause hclause
      rw [Option.mem_def.mp hclause] at h
      dsimp only at h
      cases hfind : schemaFindColumnIndex schema clause.columnName with
      | none =>
        rw [hfind] at h
        cases h
      | some i => exact List.mem_of_getElem? (findColumn_spec hfind).2
  · intro h
    have hcols : ¬ (stmt.selectAll = false ∧ stmt.columns = []) := by
      rintro ⟨hall, hnil⟩
      rcases h.some_column with hall' | hne
      · rw [hall] at hall'
        cases hall'
      · exact hne hnil
    have hknown : (if stmt.selectAll = true then none
        else firstUnknownColumn schema stmt.columns) = none := by
      rcases h.known with hall | hknown
      · rw [if_pos hall]
      · rw [(firstUnknown_iff schema stmt.columns).mpr hknown, ite_self]
    rw [if_neg hcols, hknown]
    cases hwhere : stmt.whereClause with
    | none => rfl
    | some clause =>
      obtain ⟨i, hi, -⟩ := findColumn_mem (h.known_where clause hwhere)
      dsimp only
      rw [hi]

theorem validateSelect_failsExec (schema : TableSchema) (stmt : SelectStatement) :
    FailsExec (validateSelectColumns schema stmt) := by
  unfold validateSelectColumns
  dsimp only
  split
  · exact failsExec_error _
  · split
    · exact failsExec_error _
    · split
      · exact failsExec_ok ()
      · split
        · exact failsExec_error _
        · exact failsExec_ok ()

theorem selectedRows_answer {schema : TableSchema} {stmt : SelectStatement} {n : ℕ}
    {contents : Bytes} {rows : List (ℕ × Row)} (hn : n = schema.columnCount)
    (hvalid : validateSelectColumns schema stmt = .ok ())
    (hdec : decodeFile n contents = some rows) :
    selectedRows schema stmt rows = answerRows schema stmt (rows.map Prod.snd) := by
  apply List.map_congr_left
  intro row hrow
  obtain ⟨r, hr, rfl⟩ := List.mem_map.mp (List.mem_filter.mp hrow).1
  have hfields := projectSingleRow_fields hvalid ((decoded_lengths hdec hr).trans hn)
  have hget := congrArg (List.map (fun v => v.getD CString.empty)) hfields
  simpa [Function.comp_def] using hget

theorem canUseIdIndex_byId (hs : Sound table) {contents : Bytes} (h : Mirrors contents table t)
    (stmt : SelectStatement) : (canUseIdIndex table stmt).isSome = t.ById stmt := by
  have hready := hs.ready
  unfold canUseIdIndex Table.ById
  cases hid : table.idColumnIndex with
  | none => simp [h.plain hid, TableRuntime.hasIdColumn, hid]
  | some i =>
    obtain ⟨k, hk, -⟩ := h.numbered i hid
    have hhas : table.hasIdColumn = true := by simp [TableRuntime.hasIdColumn, hid]
    rw [hready, hhas, hk]
    cases stmt.whereClause with
    | none => simp
    | some clause =>
      by_cases hcol : clause.columnName = .lit "id"
      · simp [hcol, idName]
      · simp [hcol, idName]

theorem fullScan_unreadable (stmt : SelectStatement)
    (hdec : decodeFile table.schema.columnCount (file disk dbDir table.tableName) = none) :
    ∃ e, executeSelectWithFullScan disk dbDir table stmt = .ok (.error e) ∧
      e.status = .storageError := by
  have hgoes : ∀ (rows : List Row) (row : Row) (offset : ℕ),
      selectFullScanCallback table.schema stmt (stmt.whereClause.bind
        (fun clause => schemaFindColumnIndex table.schema clause.columnName)) rows row offset =
      .ok (.proceed (if rowMatchesWhereClause stmt (stmt.whereClause.bind
        (fun clause => schemaFindColumnIndex table.schema clause.columnName)) row
        then rows ++ [projectSingleRow table.schema stmt row] else rows)) := by
    intro rows row offset
    rw [selectFullScanCallback]
    split
    · rfl
    · rfl
  obtain ⟨scanned, hscan⟩ := scan_total disk dbDir table.tableName table.schema.columnCount
    (fun _ => True) (fun rows row offset _ => ⟨_, hgoes rows row offset, fun _ _ => trivial⟩)
    (trivial : (fun _ => True) ([] : List Row))
  cases scanned with
  | ok rows =>
    obtain ⟨rs, hrs⟩ := decoded_of_scan
      (fun rows row offset final => by rw [hgoes]; simp) hscan
    have hrs' : decodeFile table.schema.columnCount (file disk dbDir table.tableName) = some rs :=
      hrs
    rw [hdec] at hrs'
    cases hrs'
  | error e =>
    refine ⟨translateModuleStatus .storageError (.lit "STORAGE ERROR") e, ?_, rfl⟩
    unfold executeSelectWithFullScan
    dsimp only
    rw [hscan, ok_bind]

theorem select_mirrors (hs : Sound table)
    (hco : Coherent (disk (dataPath dbDir table.tableName)) table)
    (h : Mirrors (file disk dbDir table.tableName) table t) (stmt : SelectStatement) :
    ∃ out, selectFrom disk dbDir table stmt = .ok out ∧ view out = t.select stmt := by
  unfold selectFrom Table.select
  rw [h.schema, h.rows]
  cases hvalid : validateSelectColumns table.schema stmt with
  | error e =>
    refine ⟨.error e, rfl, ?_⟩
    rw [if_neg]
    · rw [view, Except.mapError, validateSelect_failsExec _ _ e hvalid]
    · intro hsense
      rw [(validate_sensible _ _).mpr hsense] at hvalid
      cases hvalid
  | ok u =>
    rw [if_pos ((validate_sensible _ _).mp hvalid)]
    dsimp only
    cases hdec : decodeFile table.schema.columnCount (file disk dbDir table.tableName) with
    | none =>
      -- the index of an id table was built from its rows
      have hplain : canUseIdIndex table stmt = none := by
        cases hid : table.idColumnIndex with
        | none => simp [canUseIdIndex, TableRuntime.hasIdColumn, hid]
        | some i =>
          obtain ⟨rows, entries, hb, -⟩ := hco.indexed i hid
          have := hb.decoded
          rw [file] at hdec
          rw [hdec] at this
          cases this
      obtain ⟨e, he, hstatus⟩ := fullScan_unreadable stmt hdec
      refine ⟨.error e, ?_, ?_⟩
      · rw [hplain]
        dsimp only
        rw [he, ok_bind]
      · rw [view, Except.mapError, hstatus]
        rfl
    | some rows =>
      have hsame := selectedRows_answer rfl hvalid hdec
      have hby := canUseIdIndex_byId hs h stmt
      refine ⟨.ok ⟨.select, (selectedRows table.schema stmt rows).length,
        ⟨queriedColumns table.schema stmt, selectedRows table.schema stmt rows⟩,
        (canUseIdIndex table stmt).isSome, none⟩, ?_, ?_⟩
      · cases hcan : canUseIdIndex table stmt with
        | none =>
          dsimp only
          rw [fullScan_selects stmt hdec, ok_bind]
          rfl
        | some k =>
          have hhas : ∃ i, table.idColumnIndex = some i := by
            cases hid : table.idColumnIndex with
            | none => simp [canUseIdIndex, TableRuntime.hasIdColumn, hid] at hcan
            | some i => exact ⟨i, rfl⟩
          obtain ⟨i, hid⟩ := hhas
          obtain ⟨contents, hcontents⟩ := hco.present
          obtain ⟨rows', entries, hb, -⟩ := hco.indexed i hid
          rw [hcontents, Option.getD_some] at hb
          have hrows : rows' = rows := by
            have := hb.decoded
            rw [file, hcontents, Option.getD_some, this, Option.some.injEq] at hdec
            exact hdec
          subst hrows
          dsimp only
          rw [idIndex_selects hs hid hb hcontents hcan, ok_bind]
          rfl
      · rw [hsame, hby]
        rfl

end Tables

structure Shows (dbDir : CString) (state : Disk × ExecutionContext) (db : Database) : Prop where
  dir : state.2.dbDir = dbDir
  healthy : Healthy state.1 state.2
  cached : ∀ name table, cached state.2 name = some table →
    ∃ t, db name = .ok t ∧ Mirrors (file state.1 state.2.dbDir name) table t
  other : ∀ name, TableCache.cached state.2 name = none →
    db name = openTable state.1 state.2.dbDir name

theorem openTable_congr {disk disk' : Disk} {dbDir name : CString}
    (hschema : disk' (schemaPath dbDir name) = disk (schemaPath dbDir name))
    (hfile : file disk' dbDir name = file disk dbDir name) :
    openTable disk' dbDir name = openTable disk dbDir name := by
  unfold openTable
  rw [hschema, hfile]

theorem shows_init {disk : Disk} {dbDir : CString}
    (hfiles : ∀ name, Terminated 10 (file disk dbDir name)) :
    Shows dbDir (disk, initExecutionContext dbDir) (openTable disk dbDir) := by
  refine ⟨rfl, healthy_init hfiles, ?_, fun name _ => rfl⟩
  intro name table hcached
  cases hcached

section Steps

variable {disk disk' : Disk} {dbDir : CString} {ctx : ExecutionContext} {db : Database}
  {name : CString}

theorem shows_resolve (h : Shows dbDir (disk, ctx) db) {found : Except EngineError TableRuntime}
    (hres : resolve disk ctx name = .ok (disk', found)) : Shows dbDir (disk', ctx) db := by
  have hfile := resolve_file hres
  refine ⟨h.dir, healthy_resolve h.healthy hres, ?_, ?_⟩
  · intro other table hcached
    obtain ⟨t, ht, hm⟩ := h.cached other table hcached
    exact ⟨t, ht, (hfile ctx.dbDir other).symm ▸ hm⟩
  · intro other hcached
    rw [h.other other hcached]
    refine (openTable_congr ?_ (hfile ctx.dbDir other)).symm
    exact resolve_disk_other hres (dataPath_ne_schemaPath _ _ _).symm

/-- A table that resolves is the one of the database, and one that does not is missing there. -/
theorem resolve_shows (h : Shows dbDir (disk, ctx) db) {found : Except EngineError TableRuntime}
    (hres : resolve disk ctx name = .ok (disk', found)) :
    (∃ e, found = .error e ∧ db name = .error e.status ∧
      (translateLoadError e).status = e.status) ∨
    ∃ table t, found = .ok table ∧ db name = .ok t ∧
      Mirrors (file disk' ctx.dbDir name) table t := by
  rw [resolve_file hres]
  unfold resolve at hres
  cases hcached : cached ctx name with
  | some table =>
    rw [hcached] at hres
    cases hres
    obtain ⟨t, ht, hm⟩ := h.cached name table hcached
    exact .inr ⟨table, t, rfl, ht, hm⟩
  | none =>
    rw [hcached] at hres
    have hother := h.other name hcached
    rcases load_opens hres with ⟨e, hfound, hopen, hstatus⟩ | ⟨table, t, hfound, hopen, hm⟩
    · exact .inl ⟨e, hfound, hother.trans hopen, hstatus⟩
    · exact .inr ⟨table, t, hfound, hother.trans hopen, hm⟩

theorem shows_remember (h : Shows dbDir (disk, ctx) db) {table : TableRuntime} {t : Table}
    (hhealthy : Healthy disk' (remember ctx table))
    (hdisk : ∀ path, path ≠ dataPath ctx.dbDir table.tableName → disk' path = disk path)
    (hm : Mirrors (file disk' ctx.dbDir table.tableName) table t) :
    Shows dbDir (disk', remember ctx table) (Function.update db table.tableName (.ok t)) := by
  have hfile : ∀ other, other ≠ table.tableName →
      file disk' ctx.dbDir other = file disk ctx.dbDir other := by
    intro other hne
    unfold file
    rw [hdisk _ (fun heq => hne (dataPath_inj heq))]
  refine ⟨(remember_dbDir _ _).trans h.dir, hhealthy, ?_, ?_⟩
  · intro other t' hcached
    rw [cached_remember] at hcached
    rw [remember_dbDir]
    split at hcached
    · rename_i heq
      cases hcached
      subst heq
      exact ⟨t, Function.update_self _ _ _, hm⟩
    · rename_i hne
      obtain ⟨t₁, ht₁, hm₁⟩ := h.cached other t' hcached
      refine ⟨t₁, ?_, (hfile other (Ne.symm hne)).symm ▸ hm₁⟩
      rw [Function.update_of_ne (Ne.symm hne)]
      exact ht₁
  · intro other hcached
    rw [cached_remember] at hcached
    split at hcached
    · cases hcached
    · rename_i hne
      rw [remember_dbDir, Function.update_of_ne (Ne.symm hne), h.other other hcached]
      refine (openTable_congr ?_ (hfile other (Ne.symm hne))).symm
      exact hdisk _ (dataPath_ne_schemaPath _ _ _).symm

theorem shows_loaded (h : Shows dbDir (disk, ctx) db) {table : TableRuntime}
    (hres : resolve disk ctx name = .ok (disk', .ok table)) :
    Shows dbDir (disk', remember ctx table) db := by
  have h₁ := shows_resolve h hres
  have hname := resolve_name hres
  rcases resolve_shows h hres with ⟨e, he, -⟩ | ⟨table', t, hfound, hdb, hm⟩
  · cases he
  cases hfound
  have hsame : Function.update db table.tableName (.ok t) = db := by
    rw [hname, ← hdb, Function.update_eq_self]
  rw [← hsame]
  refine shows_remember h₁ ?_ (fun _ _ => rfl) (hname.symm ▸ hm)
  apply healthy_remember h₁.healthy (resolve_sound h.healthy.sound hres)
  rw [hname]
  exact coherent_resolve h.healthy hres

/-- One call of `execute_statement`, with files and cache as one state. -/
def executeStep (state : Disk × ExecutionContext) (stmt : Statement) :
    Checked ((Disk × ExecutionContext) × Except EngineError ExecResult) := do
  let (disk, ctx, out) ← executeStatement noFaults state.1 state.2 stmt
  .ok ((disk, ctx), out)

theorem insert_simulates (h : Shows dbDir (disk, ctx) db) (stmt : InsertStatement) :
    ∃ state out, executeStep (disk, ctx) (.insert stmt) = .ok (state, out) ∧
      Shows dbDir state (statement db (.insert stmt)).1 ∧
      view out = (statement db (.insert stmt)).2 := by
  obtain ⟨disk₁, found, hres⟩ := resolve_total disk ctx stmt.tableName
  have h₁ := shows_resolve h hres
  unfold executeStep
  rcases resolve_shows h hres with ⟨e, rfl, hdb, hstatus⟩ | ⟨table, t, rfl, hdb, hm⟩
  · have hexec : executeStatement noFaults disk ctx (.insert stmt) =
        .ok (disk₁, ctx, .error (translateLoadError e)) := by
      simp only [executeStatement, executeInsert_resolve, hres, ok_bind]
    refine ⟨(disk₁, ctx), .error (translateLoadError e), by rw [hexec, ok_bind], ?_, ?_⟩
    · simp only [statement, hdb]
      exact h₁
    · simp only [statement, hdb, view, Except.mapError, hstatus]
  · have hs := resolve_sound h.healthy.sound hres
    have hname := resolve_name hres
    obtain ⟨disk₂, table', out, hins, hout, hm'⟩ :=
      insert_mirrors hs (h₁.healthy.terminated stmt.tableName) hm
    have hexec : executeStatement noFaults disk ctx (.insert stmt) =
        .ok (disk₂, remember ctx table', out) := by
      simp only [executeStatement, executeInsert_resolve, hres, ok_bind, hins]
    have heffect := effect_of_execute h.healthy.sound hexec
    have hname' : table'.tableName = stmt.tableName := (insertInto_keeps hins).1.trans hname
    refine ⟨(disk₂, remember ctx table'), out, by rw [hexec, ok_bind], ?_, ?_⟩
    · simp only [statement, hdb]
      rw [← hname'] at hm' ⊢
      refine shows_remember h (healthy_step h.healthy heffect) ?_ hm'
      intro path hpath
      rw [hname'] at hpath
      exact effect_disk_other heffect hpath
    · simp only [statement, hdb]
      exact hout

theorem select_simulates (h : Shows dbDir (disk, ctx) db) (stmt : SelectStatement) :
    ∃ state out, executeStep (disk, ctx) (.select stmt) = .ok (state, out) ∧
      Shows dbDir state (statement db (.select stmt)).1 ∧
      view out = (statement db (.select stmt)).2 := by
  obtain ⟨disk₁, found, hres⟩ := resolve_total disk ctx stmt.tableName
  unfold executeStep
  rcases resolve_shows h hres with ⟨e, rfl, hdb, hstatus⟩ | ⟨table, t, rfl, hdb, hm⟩
  · have hexec : executeStatement noFaults disk ctx (.select stmt) =
        .ok (disk₁, ctx, .error (translateLoadError e)) := by
      simp only [executeStatement, executeSelect_resolve, hres, ok_bind]
    refine ⟨(disk₁, ctx), .error (translateLoadError e), by rw [hexec, ok_bind],
      shows_resolve h hres, ?_⟩
    simp only [statement, hdb, view, Except.mapError, Except.bind, hstatus]
  · have hs := resolve_sound h.healthy.sound hres
    have hname := resolve_name hres
    have hco := coherent_resolve h.healthy hres
    rw [← hname] at hm hco
    obtain ⟨out, hsel, hout⟩ := select_mirrors hs hco hm stmt
    have hexec : executeStatement noFaults disk ctx (.select stmt) =
        .ok (disk₁, remember ctx table, out) := by
      simp only [executeStatement, executeSelect_resolve, hres, ok_bind, hsel]
    refine ⟨(disk₁, remember ctx table), out, by rw [hexec, ok_bind], shows_loaded h hres, ?_⟩
    simp only [statement, hdb, Except.bind]
    exact hout

theorem statements_simulated (dbDir : CString) :
    ForwardSimulation.Simulates executeStep statement (fun out answer => view out = answer)
      (Shows dbDir) := by
  rintro ⟨disk, ctx⟩ db stmt h
  cases stmt with
  | insert stmt => exact insert_simulates h stmt
  | select stmt => exact select_simulates h stmt

end Steps

theorem runStatements_run (disk : Disk) (ctx : ExecutionContext) (stmts : List Statement)
    {state : Disk × ExecutionContext} {outs : List (Except EngineError ExecResult)}
    (h : ForwardSimulation.run executeStep (disk, ctx) stmts = .ok (state, outs)) :
    runStatements disk ctx stmts = .ok (state.1, state.2, outs) := by
  induction stmts generalizing disk ctx outs with
  | nil =>
    cases h
    rfl
  | cons stmt stmts ih =>
    obtain ⟨⟨s₁, out⟩, hstep, h⟩ := bind_eq_ok.mp h
    obtain ⟨⟨s₂, rest⟩, hrest, h⟩ := bind_eq_ok.mp h
    cases h
    obtain ⟨⟨disk₁, ctx₁, out₁⟩, hexec, hstep⟩ := bind_eq_ok.mp hstep
    cases hstep
    exact runStatements_cons.mpr ⟨disk₁, ctx₁, out, rest, hexec, ih disk₁ ctx₁ hrest, rfl⟩

theorem readAll_iff (disk : Disk) (dbDir name : CString) (n : ℕ) (rows : List Row) :
    readAllRowsFromTable disk dbDir name n = .ok (.ok rows) ↔
      (decodeFile n (file disk dbDir name)).map (List.map Prod.snd) = some rows := by
  unfold readAllRowsFromTable
  constructor
  · intro h
    obtain ⟨stored, hdec⟩ := decoded_of_scan
      (fun _ _ _ _ => by rw [readAllRowsCallback]; simp) h
    rw [scan_decoded _ _ hdec, foldRows_readAll] at h
    rw [file, hdec]
    simpa using h
  · intro h
    obtain ⟨stored, hdec, rfl⟩ := Option.map_eq_some_iff.mp h
    rw [scan_decoded _ _ hdec, foldRows_readAll, List.nil_append]

theorem openTable_rows {disk : Disk} {dbDir name : CString} {t : Table}
    (h : openTable disk dbDir name = .ok t) :
    t.rows = (decodeFile t.schema.columnCount (file disk dbDir name)).map (List.map Prod.snd) := by
  unfold openTable at h
  split at h
  · cases h
  · dsimp only at h
    split at h
    · cases h
      rfl
    · split at h
      · cases h
      · split at h
        · cases h
          rfl
        · cases h

theorem shows_rows {disk : Disk} {dbDir : CString} {ctx : ExecutionContext} {db : Database}
    (h : Shows dbDir (disk, ctx) db) {name : CString} {t : Table} (ht : db name = .ok t)
    (rows : List Row) :
    readAllRowsFromTable disk dbDir name t.schema.columnCount = .ok (.ok rows) ↔
      t.rows = some rows := by
  rw [readAll_iff, ← h.dir]
  suffices hrows : t.rows = (decodeFile t.schema.columnCount (file disk ctx.dbDir name)).map
      (List.map Prod.snd) by rw [hrows]
  cases hcached : cached ctx name with
  | some table =>
    obtain ⟨t', ht', hm⟩ := h.cached name table hcached
    rw [ht] at ht'
    cases ht'
    rw [hm.schema]
    exact hm.rows
  | none =>
    have hopen := (h.other name hcached).symm.trans ht
    exact openTable_rows hopen

theorem run_shows (disk : Disk) (dbDir : CString)
    (hfiles : ∀ name, Terminated 10 (file disk dbDir name)) (stmts : List Statement) :
    ∃ disk' ctx' outs,
      runStatements disk (initExecutionContext dbDir) stmts = .ok (disk', ctx', outs) ∧
      Shows dbDir (disk', ctx')
        (ForwardSimulation.specRun statement (openTable disk dbDir) stmts).1 ∧
      outs.map view = (ForwardSimulation.specRun statement (openTable disk dbDir) stmts).2 := by
  obtain ⟨state, outs, hrun, hshows, houts⟩ :=
    ForwardSimulation.run_simulates (statements_simulated dbDir) (shows_init hfiles) stmts
  refine ⟨state.1, state.2, outs, runStatements_run _ _ _ hrun, hshows, ?_⟩
  rw [← List.forall₂_map_left_iff, List.forall₂_eq_eq_eq] at houts
  exact houts

/-- Over data files that are missing, empty or newline-terminated, and where no write and no
allocation fails, every run of statements from a fresh context answers, statement by statement, what the relational database of these files answers,
and at its end each file holds exactly the rows of its table. -/
theorem runs_refine_relational_database (disk : Disk) (dbDir : CString)
    (hfiles : ∀ name, Terminated 10 (file disk dbDir name)) (stmts : List Statement) :
    ∃ disk' ctx' outs,
      runStatements disk (initExecutionContext dbDir) stmts = .ok (disk', ctx', outs) ∧
      outs.map view = (ForwardSimulation.specRun statement (openTable disk dbDir) stmts).2 ∧
      ∀ name t, (ForwardSimulation.specRun statement (openTable disk dbDir) stmts).1 name = .ok t →
        ∀ rows, readAllRowsFromTable disk' dbDir name t.schema.columnCount = .ok (.ok rows) ↔
          t.rows = some rows := by
  obtain ⟨disk', ctx', outs, hrun, hshows, houts⟩ := run_shows disk dbDir hfiles stmts
  exact ⟨disk', ctx', outs, hrun, houts, fun name t ht rows => shows_rows hshows ht rows⟩

theorem users_run_relational :
    ∃ disk' ctx' outs,
      runStatements usersDisk (initExecutionContext (.lit "db"))
        [.insert kim, .select selectFirst] = .ok (disk', ctx', outs) ∧
      outs.map view = [.ok (insertResult (some 1)),
        .ok ⟨.select, 1, ⟨[.lit "name"], [[.lit "kim"]]⟩, true, none⟩] := by
  obtain ⟨disk', ctx', outs, hrun, houts, -⟩ := runs_refine_relational_database usersDisk
    (.lit "db") usersDisk_terminated [.insert kim, .select selectFirst]
  refine ⟨disk', ctx', outs, hrun, houts.trans ?_⟩
  decide +kernel

end RelationalRefinement
