import ThreadedDb.DbApiModel
import ThreadedDb.SelectSpec

/-!
# Every outcome has a response

The JSON writer reads as many values of a row as the result has columns. Every row that the
executor returns has that many, so no response reads past a row.
-/
namespace ApiResponses

open ByteText
open SchemaModel
open StorageModel
open StorageRoundTrip
open SqlFrontEnd
open RuntimeModel
open ExecutorModel
open StatementRuns
open SelectSpec
open DbApiModel
open CheckedArray (ok_bind bind_eq_ok)

theorem projectSingleRow_length (schema : TableSchema) (stmt : SelectStatement) (row : Row) :
    (projectSingleRow schema stmt row).length = (queriedColumns schema stmt).length := by
  unfold projectSingleRow queriedColumns
  by_cases hall : stmt.selectAll = true
  · rw [if_pos hall, if_pos hall, List.length_map, List.length_range]
    rfl
  · rw [if_neg hall, if_neg hall, List.length_map]

theorem fullScan_rectangular {disk : Disk} {dbDir : CString} {table : TableRuntime}
    {stmt : SelectStatement} {result : QueryResult} {usedIndex : Bool}
    (h : executeSelectWithFullScan disk dbDir table stmt = .ok (.ok (result, usedIndex))) :
    Rectangular result := by
  have hnever : ∀ rows row offset final, selectFullScanCallback table.schema stmt
      (stmt.whereClause.bind (fun clause => schemaFindColumnIndex table.schema clause.columnName))
      rows row offset ≠ .ok (.stop final) := by
    intro rows row offset final
    unfold selectFullScanCallback
    split
    · simp
    · simp
  have hdec : ∃ rows, decodeFile table.schema.columnCount
      (file disk dbDir table.tableName) = some rows := by
    unfold executeSelectWithFullScan at h
    dsimp only at h
    obtain ⟨scanned, hscan, h⟩ := bind_eq_ok.mp h
    cases scanned with
    | error e => cases h
    | ok rows => exact decoded_of_scan hnever hscan
  obtain ⟨rows, hrows⟩ := hdec
  rw [fullScan_selects stmt hrows] at h
  cases h
  intro row hrow
  obtain ⟨r, -, rfl⟩ := List.mem_map.mp hrow
  exact projectSingleRow_length _ _ _

theorem idIndex_rectangular {disk : Disk} {dbDir : CString} {table : TableRuntime}
    {stmt : SelectStatement} {k : UInt64} {result : QueryResult} {usedIndex : Bool}
    (h : executeSelectWithIdIndex disk dbDir table stmt k = .ok (.ok (result, usedIndex))) :
    Rectangular result := by
  have hnone : Rectangular ⟨initializeQueryResultColumns table.schema stmt, []⟩ := by
    intro row hrow
    cases hrow
  unfold executeSelectWithIdIndex at h
  dsimp only at h
  obtain ⟨searched, hsearch, h⟩ := bind_eq_ok.mp h
  split at h
  · cases h
  · cases h
    exact hnone
  · split at h
    · cases h
    · split at h
      · cases h
        intro row hrow
        rw [List.mem_singleton.mp hrow]
        exact projectSingleRow_length _ _ _
      · cases h
        exact hnone

theorem selectFrom_rectangular {disk : Disk} {dbDir : CString} {table : TableRuntime}
    {stmt : SelectStatement} {result : ExecResult}
    (h : selectFrom disk dbDir table stmt = .ok (.ok result)) :
    Rectangular result.queryResult := by
  unfold selectFrom at h
  split at h
  · cases h
  cases hcan : canUseIdIndex table stmt with
  | some k =>
    simp only [hcan] at h
    obtain ⟨selected, hsel, h⟩ := bind_eq_ok.mp h
    cases selected with
    | error e => cases h
    | ok r =>
      cases h
      exact idIndex_rectangular hsel
  | none =>
    simp only [hcan] at h
    obtain ⟨selected, hsel, h⟩ := bind_eq_ok.mp h
    cases selected with
    | error e => cases h
    | ok r =>
      cases h
      exact fullScan_rectangular hsel

theorem rowValuesJson_texts (row : Row) :
    rowValuesJson row.length row = .ok (row.map jsonAppendEscapedString) := by
  induction row with
  | nil => rfl
  | cons value row ih =>
    rw [List.length_cons, rowValuesJson, ih, ok_bind, List.map_cons]

theorem rowsJson_texts {n : ℕ} {rows : List Row} (h : ∀ row ∈ rows, row.length = n) :
    rowsJson n rows =
      .ok (rows.map (fun row => jsonArray (row.map jsonAppendEscapedString))) := by
  induction rows with
  | nil => rfl
  | cons row rows ih =>
    have hrow := rowValuesJson_texts row
    rw [h row List.mem_cons_self] at hrow
    rw [rowsJson, hrow, ok_bind, ih (fun r hr => h r (List.mem_cons_of_mem _ hr)), ok_bind,
      List.map_cons]

theorem makeSuccessJson_total {result : ExecResult} (h : Rectangular result.queryResult) :
    ∃ json, makeSuccessJson result = .ok json := by
  unfold makeSuccessJson
  split
  · exact ⟨_, by rw [appendRowsJson, rowsJson_texts h, ok_bind, ok_bind]⟩
  · exact ⟨_, rfl⟩

theorem executedResponse_total {disk disk' : Disk} {ctx ctx' : ExecutionContext}
    {stmt : Statement} {out : Except EngineError ExecResult}
    (h : Effect disk ctx stmt disk' ctx' out) : ∃ response, executedResponse out = .ok response := by
  have hsuccess {result : ExecResult} (hrect : Rectangular result.queryResult) :
      ∃ response, executedResponse (.ok result) = .ok response := by
    obtain ⟨json, hjson⟩ := makeSuccessJson_total hrect
    exact ⟨_, by rw [executedResponse, hjson, ok_bind]⟩
  cases h with
  | loadFailed _ hresolve => exact ⟨_, rfl⟩
  | rejected stmt hresolve hreject => exact ⟨_, rfl⟩
  | inserted stmt hresolve hinsert => exact ⟨_, rfl⟩
  | selected stmt hresolve hselect =>
    cases out with
    | error e => exact ⟨_, rfl⟩
    | ok result => exact hsuccess (selectFrom_rectangular hselect)

end ApiResponses
