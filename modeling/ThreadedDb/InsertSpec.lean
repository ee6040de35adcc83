import ThreadedDb.TableCache
import ThreadedDb.StorageRoundTrip

/-!
# The rows that INSERT builds

A row has one field for each column, and in a table with an id column the generated id stands in
it. Once the columns are validated, building the row neither fails nor reads past the values.
-/
namespace InsertSpec

open ByteText
open SchemaModel
open StorageModel
open StorageRoundTrip
open SqlFrontEnd
open BPTreeHeap
open RuntimeModel
open ExecutorModel
open TableCache
open CheckedArray (Checked ok_bind bind_eq_ok)

theorem findColumn_spec {schema : TableSchema} {column : CString} {i : ℕ}
    (h : schemaFindColumnIndex schema column = some i) :
    i < schema.columnCount ∧ schema.columns[i]? = some column := by
  unfold schemaFindColumnIndex at h
  rw [List.findIdx?_eq_some_iff_getElem] at h
  obtain ⟨hlt, heq, -⟩ := h
  refine ⟨hlt, ?_⟩
  rw [List.getElem?_eq_getElem hlt]
  simpa using heq

theorem findColumn_nth (schema : TableSchema) {j : ℕ} {column : CString}
    (h : schema.columns[j]? = some column) : schemaFindColumnIndex schema column = some j := by
  obtain ⟨hlt, heq⟩ := List.getElem?_eq_some_iff.mp h
  unfold schemaFindColumnIndex
  rw [List.findIdx?_eq_some_iff_getElem]
  refine ⟨hlt, by simpa using heq, fun m hm => ?_⟩
  have hne : schema.columns[m] ≠ column := by
    intro hm'
    have := (schema.columns_nodup.getElem_inj_iff).mp (hm'.trans heq.symm)
    omega
  simpa using hne

theorem columnCount_pos (schema : TableSchema) : 0 < schema.columnCount :=
  List.length_pos_iff.mpr schema.columns_ne_nil

theorem row_ne_nil {schema : TableSchema} {row : Row} (h : row.length = schema.columnCount) :
    row ≠ [] := by
  rintro rfl
  have := columnCount_pos schema
  simp at h
  omega

theorem placeNamedValues_length {schema : TableSchema} {named : List (CString × LiteralValue)}
    {seen : List ℕ} {row row' : Row} (h : placeNamedValues schema named seen row = .ok row') :
    row'.length = row.length := by
  induction named generalizing seen row with
  | nil =>
    cases h
    rfl
  | cons p named ih =>
    rw [placeNamedValues] at h
    cases hfind : schemaFindColumnIndex schema p.1 with
    | none =>
      rw [hfind] at h
      cases h
    | some i =>
      rw [hfind] at h
      dsimp only at h
      split at h
      · cases h
      · rw [ih h, List.length_set]

theorem existingRow_length {schema : TableSchema} {stmt : InsertStatement} {row : Row}
    (h : buildInsertRowExistingBehavior schema stmt = .ok row) :
    row.length = schema.columnCount := by
  unfold buildInsertRowExistingBehavior at h
  split at h
  · split at h
    · cases h
    · rename_i hcount
      cases h
      rw [List.length_map]
      exact not_not.mp hcount
  · split at h
    · cases h
    · rw [placeNamedValues_length h, List.length_replicate]

theorem placeOrderedValues_keeps {i : ℕ} {slots : Row} {k : ℕ} {values : List LiteralValue}
    {row : Row} (h : placeOrderedValues i k slots values = .ok row) :
    row.length = slots.length ∧ (k ≤ i → row[i - k]? = slots[i - k]?) := by
  induction slots generalizing k values row with
  | nil =>
    cases h
    exact ⟨rfl, fun _ => rfl⟩
  | cons slot slots ih =>
    rw [placeOrderedValues.eq_def] at h
    dsimp only at h
    split at h
    · rename_i hk
      obtain ⟨rest, hrest, heq⟩ := bind_eq_ok.mp h
      cases heq
      refine ⟨by rw [List.length_cons, List.length_cons, (ih hrest).1], fun _ => ?_⟩
      rw [hk, Nat.sub_self]
      rfl
    · rename_i hk
      cases values with
      | nil => cases h
      | cons value values =>
        obtain ⟨rest, hrest, heq⟩ := bind_eq_ok.mp h
        cases heq
        obtain ⟨hlen, hat⟩ := ih hrest
        refine ⟨by rw [List.length_cons, List.length_cons, hlen], fun hle => ?_⟩
        rw [show i - k = (i - (k + 1)) + 1 by omega, List.getElem?_cons_succ,
          List.getElem?_cons_succ]
        exact hat (by omega)

theorem placeOrderedValues_ok (i : ℕ) (slots : Row) (k : ℕ) (values : List LiteralValue)
    (hcount : values.length + (if k ≤ i ∧ i < k + slots.length then 1 else 0) = slots.length) :
    ∃ row, placeOrderedValues i k slots values = .ok row := by
  induction slots generalizing k values with
  | nil => exact ⟨[], rfl⟩
  | cons slot slots ih =>
    rw [placeOrderedValues.eq_def]
    dsimp only
    by_cases hk : k = i
    · subst hk
      rw [if_pos rfl]
      obtain ⟨row, hrow⟩ := ih (k + 1) values (by
        rw [if_neg (by omega)]
        rw [if_pos (by simp)] at hcount
        simpa using hcount)
      exact ⟨slot :: row, by simp [hrow]⟩
    · rw [if_neg hk]
      cases values with
      | nil =>
        exfalso
        simp only [List.length_nil, List.length_cons] at hcount
        split at hcount
        · omega
        · omega
      | cons value values =>
        obtain ⟨row, hrow⟩ := ih (k + 1) values (by
          simp only [List.length_cons] at hcount
          split at hcount
          · rw [if_pos (by omega)]
            omega
          · rw [if_neg (by omega)]
            omega)
        exact ⟨value.text :: row, by simp [hrow]⟩

theorem checkAutoIdColumns_ok {schema : TableSchema} {i : ℕ} {columns : List CString}
    {seen : List ℕ} (h : checkAutoIdColumns schema i columns seen = .ok ()) :
    ∀ c ∈ columns, ∃ j, schemaFindColumnIndex schema c = some j ∧ j ≠ i := by
  induction columns generalizing seen with
  | nil => simp
  | cons column columns ih =>
    rw [checkAutoIdColumns] at h
    cases hfind : schemaFindColumnIndex schema column with
    | none =>
      rw [hfind] at h
      cases h
    | some j =>
      rw [hfind] at h
      dsimp only at h
      split at h
      · cases h
      rename_i hne
      split at h
      · cases h
      intro c hc
      rcases List.mem_cons.mp hc with rfl | hc
      · exact ⟨j, hfind, hne⟩
      · exact ih h c hc

theorem placeAutoIdValues_keeps {schema : TableSchema} {i : ℕ}
    {named : List (CString × LiteralValue)} {row row' : Row}
    (h : placeAutoIdValues schema i named row = .ok row') :
    row'.length = row.length ∧ row'[i]? = row[i]? := by
  induction named generalizing row with
  | nil =>
    cases h
    exact ⟨rfl, rfl⟩
  | cons p named ih =>
    rw [placeAutoIdValues] at h
    split at h
    · cases h
    split at h
    · cases h
    rename_i j _ hj
    obtain ⟨hlen, hat⟩ := ih h
    rw [List.length_set] at hlen
    rw [List.getElem?_set_ne hj] at hat
    exact ⟨hlen, hat⟩

theorem placeAutoIdValues_ok {schema : TableSchema} {i : ℕ}
    {named : List (CString × LiteralValue)}
    (h : ∀ p ∈ named, ∃ j, schemaFindColumnIndex schema p.1 = some j ∧ j ≠ i) (row : Row) :
    ∃ row', placeAutoIdValues schema i named row = .ok row' := by
  induction named generalizing row with
  | nil => exact ⟨row, rfl⟩
  | cons p named ih =>
    obtain ⟨j, hfind, hj⟩ := h p List.mem_cons_self
    obtain ⟨row', hrow⟩ := ih (fun q hq => h q (List.mem_cons_of_mem _ hq)) (row.set j p.2.text)
    refine ⟨row', ?_⟩
    rw [placeAutoIdValues, hfind]
    dsimp only
    rw [if_neg hj, hrow]

theorem generatedRow_id {table : TableRuntime} {stmt : InsertStatement} {id : UInt64} {row : Row}
    {i : ℕ} (hid : table.idColumnIndex = some i) (hi : i < table.schema.columnCount)
    (h : buildInsertRowWithGeneratedId table stmt id = .ok (.ok row)) :
    row.length = table.schema.columnCount ∧ row[i]? = some (decimal id.toNat) := by
  have hblank : ((List.replicate table.schema.columnCount CString.empty).set i
      (decimal id.toNat))[i]? = some (decimal id.toNat) := by
    rw [List.getElem?_set_self (by simpa using hi)]
  simp only [buildInsertRowWithGeneratedId, hid] at h
  split at h
  · obtain ⟨placed, hplaced, heq⟩ := bind_eq_ok.mp h
    cases heq
    obtain ⟨hlen, hat⟩ := placeOrderedValues_keeps hplaced
    have hslot := hat (Nat.zero_le i)
    rw [Nat.sub_zero, hblank] at hslot
    exact ⟨by simpa using hlen, hslot⟩
  · rw [Except.ok.injEq] at h
    obtain ⟨hlen, hat⟩ := placeAutoIdValues_keeps h
    rw [hblank] at hat
    exact ⟨by simpa using hlen, hat⟩

theorem generatedRow_ok {table : TableRuntime} {stmt : InsertStatement} {i : ℕ}
    (hid : table.idColumnIndex = some i) (hi : i < table.schema.columnCount)
    (hvalid : validateInsertColumnsForAutoId table stmt = .ok ()) (k : UInt64) :
    ∃ row, buildInsertRowWithGeneratedId table stmt k = .ok (.ok row) := by
  simp only [validateInsertColumnsForAutoId, hid] at hvalid
  simp only [buildInsertRowWithGeneratedId, hid]
  by_cases hcols : stmt.columns = []
  · rw [if_pos hcols] at hvalid ⊢
    split at hvalid
    · cases hvalid
    rename_i hcount
    obtain ⟨row, hrow⟩ := placeOrderedValues_ok i
      ((List.replicate table.schema.columnCount CString.empty).set i (decimal k.toNat)) 0
      stmt.values (by
        rw [if_pos (by simpa using hi)]
        simp only [List.length_set, List.length_replicate]
        omega)
    exact ⟨row, by simp [hrow]⟩
  · rw [if_neg hcols] at hvalid ⊢
    split at hvalid
    · cases hvalid
    have hknown := checkAutoIdColumns_ok hvalid
    obtain ⟨row, hrow⟩ := @placeAutoIdValues_ok table.schema i
      (stmt.columns.zip stmt.values) (fun p hp => hknown p.1 (List.of_mem_zip hp).1)
      ((List.replicate table.schema.columnCount CString.empty).set i (decimal k.toNat))
    exact ⟨row, by rw [hrow]⟩

def appendAndIndex (faults : InsertFaults) (disk : Disk) (dbDir : CString) (table : TableRuntime)
    (tableName : CString) (row : Row) :
    Checked (Disk × TableRuntime × Except EngineError ExecResult) :=
  match appendRowToTableWithOffset faults.append disk dbDir tableName row with
  | (disk, .error e) =>
    .ok (disk, table, .error (translateModuleStatus .storageError (.lit "STORAGE ERROR") e))
  | (disk, .ok rowOffset) => do
    let (tree, status) ← bptreeInsert faults.index table.idIndex table.nextId rowOffset
    match status with
    | .error e =>
      .ok (disk, { table with idIndex := tree }, .error
        (translateModuleStatus .indexError (.lit "INDEX ERROR") ⟨.indexError, e.message⟩))
    | .ok _ =>
      .ok (disk,
        { table with idIndex := tree, nextId := table.nextId + 1, idIndexReady := true },
        .ok (insertResult (some table.nextId)))

/-- The row that an INSERT hands to the append function, or the error that turns it down. -/
def builtRow (table : TableRuntime) (stmt : InsertStatement) : Checked (Except EngineError Row) :=
  if table.hasIdColumn then
    match validateInsertColumnsForAutoId table stmt with
    | .error e => .ok (.error e)
    | .ok _ =>
      if table.nextId = 0 then
        .ok (.error (execError (.lit "EXEC ERROR: auto-generated id overflow")))
      else buildInsertRowWithGeneratedId table stmt table.nextId
  else .ok (buildInsertRowExistingBehavior table.schema stmt)

/-- An INSERT is turned down before it touches anything, or it has a next id and a row. -/
theorem insertWithGeneratedId_cases (faults : InsertFaults) (disk : Disk) (dbDir : CString)
    {table : TableRuntime} (stmt : InsertStatement) {i : ℕ} (hid : table.idColumnIndex = some i)
    (hi : i < table.schema.columnCount) :
    (∃ e, builtRow table stmt = .ok (.error e) ∧
      insertWithGeneratedId faults disk dbDir table stmt = .ok (disk, table, .error e)) ∨
    (table.nextId ≠ 0 ∧ ∃ row, builtRow table stmt = .ok (.ok row) ∧
      row.length = table.schema.columnCount ∧ row[i]? = some (decimal table.nextId.toNat) ∧
      insertWithGeneratedId faults disk dbDir table stmt =
        appendAndIndex faults disk dbDir table stmt.tableName row) := by
  unfold insertWithGeneratedId builtRow
  rw [if_pos (by simp [TableRuntime.hasIdColumn, hid])]
  cases hvalid : validateInsertColumnsForAutoId table stmt with
  | error e => exact Or.inl ⟨e, rfl, rfl⟩
  | ok u =>
    dsimp only
    by_cases hnext : table.nextId = 0
    · rw [if_pos hnext, if_pos hnext]
      exact Or.inl ⟨_, rfl, rfl⟩
    · right
      obtain ⟨row, hrow⟩ := generatedRow_ok hid hi hvalid table.nextId
      obtain ⟨hlen, hat⟩ := generatedRow_id hid hi hrow
      refine ⟨hnext, row, ?_, hlen, hat, ?_⟩
      · rw [if_neg hnext, hrow]
      · rw [if_neg hnext, hrow, ok_bind]
        rfl

theorem insertExisting_cases (faults : InsertFaults) (disk : Disk) (dbDir : CString)
    {table : TableRuntime} (stmt : InsertStatement) (hid : table.idColumnIndex = none) :
    (∃ e, builtRow table stmt = .ok (.error e) ∧
      insertExisting faults disk dbDir table stmt = (disk, .error e)) ∨
    ∃ row, builtRow table stmt = .ok (.ok row) ∧ row.length = table.schema.columnCount ∧
      insertExisting faults disk dbDir table stmt =
        match appendRowToTable faults.append disk dbDir stmt.tableName row with
        | (disk, .error e) =>
          (disk, .error (translateModuleStatus .storageError (.lit "STORAGE ERROR") e))
        | (disk, .ok _) => (disk, .ok (insertResult none)) := by
  unfold insertExisting builtRow
  rw [if_neg (by simp [TableRuntime.hasIdColumn, hid])]
  cases hrow : buildInsertRowExistingBehavior table.schema stmt with
  | error e => exact Or.inl ⟨e, rfl, rfl⟩
  | ok row => exact Or.inr ⟨row, rfl, existingRow_length hrow, rfl⟩

end InsertSpec
