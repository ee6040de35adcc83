import ThreadedDb.EventLog
import ThreadedDb.TableNames
import ThreadedDb.GateAgreement

/-!
# The files that a statement opens

The calls of `fopen` in `schema.c` and `storage.c`, logged through everything between them and the
two ways into the engine, `db_api_execute_sql` and the statement loop of `main.c`. Without the log
each function is the one of its model; the log holds no file but those of the statement's table.
-/
namespace FileAccess

open ByteText
open SchemaModel
open StorageModel (Row Signal AppendFault EnsureFault)
open SqlFrontEnd
open RuntimeModel (TableRuntime ExecutionContext initExecutionContext)
open ExecutorModel
open DbApiModel
open ScriptLoop (CliState CliOutcome)
open ConcurrentCalls (CallState)
open TableSections (Db)
open BPTreeHeap
open EventLog
open TableNames
open LexerRoundTrip
open CheckedArray (Checked Fault ok_bind bind_eq_ok)

inductive OpenMode where
  | read
  | readBinary
  | append
  | appendRead
  deriving DecidableEq

structure Opening where
  path : CString
  mode : OpenMode
  deriving DecidableEq

abbrev Access (α : Type) := Logged Opening Fault α

def fopen (path : CString) (mode : OpenMode) : Access Unit := emit ⟨path, mode⟩

def loadTableSchema (disk : Disk) (dbDir tableName : CString) :
    Access (Except CString TableSchema) := do
  fopen (schemaPath dbDir tableName) .read
  pure (SchemaModel.loadTableSchema tableName (disk (schemaPath dbDir tableName)))

def ensureTableDataFile (fault : Option EnsureFault) (disk : Disk) (dbDir tableName : CString) :
    Access (Disk × Except EngineError Unit) :=
  match fault with
  | some .allocatePath => pure (StorageModel.ensureTableDataFile fault disk dbDir tableName)
  | _ => do
    fopen (dataPath dbDir tableName) .append
    pure (StorageModel.ensureTableDataFile fault disk dbDir tableName)

def reopenDataFile (fault : Option AppendFault) (dbDir tableName : CString) : Access Unit :=
  match fault with
  | some .allocatePath => pure ()
  | _ => fopen (dataPath dbDir tableName) .appendRead

def appendRowToTableWithOffset (fault : Option AppendFault) (disk : Disk)
    (dbDir tableName : CString) (row : Row) : Access (Disk × Except EngineError ℕ) :=
  if row = [] then
    pure (StorageModel.appendRowToTableWithOffset fault disk dbDir tableName row)
  else do
    let (_, ensured) ← ensureTableDataFile (fault.bind AppendFault.atEnsure) disk dbDir tableName
    match ensured with
    | .error _ => pure (StorageModel.appendRowToTableWithOffset fault disk dbDir tableName row)
    | .ok _ => do
      reopenDataFile fault dbDir tableName
      pure (StorageModel.appendRowToTableWithOffset fault disk dbDir tableName row)

def appendRowToTable (fault : Option AppendFault) (disk : Disk) (dbDir tableName : CString)
    (row : Row) : Access (Disk × Except EngineError Unit) := do
  let (disk, appended) ← appendRowToTableWithOffset fault disk dbDir tableName row
  match appended with
  | .error e => pure (disk, .error e)
  | .ok _ => pure (disk, .ok ())

def scanTableRowsWithOffsets {σ : Type} (disk : Disk) (dbDir tableName : CString)
    (expectedColumnCount : ℕ) (callback : σ → Row → ℕ → Checked (Signal σ)) (state : σ) :
    Access (Except EngineError σ) := do
  fopen (dataPath dbDir tableName) .readBinary
  silent (StorageModel.scanTableRowsWithOffsets disk dbDir tableName expectedColumnCount callback
    state)

def readRowAtOffset (disk : Disk) (dbDir tableName : CString) (rowOffset : Int)
    (expectedColumnCount : ℕ) : Access (Except EngineError Row) :=
  if rowOffset < 0 then
    pure (StorageModel.readRowAtOffset disk dbDir tableName rowOffset expectedColumnCount)
  else do
    fopen (dataPath dbDir tableName) .readBinary
    pure (StorageModel.readRowAtOffset disk dbDir tableName rowOffset expectedColumnCount)

def buildIdIndexForTable (disk : Disk) (dbDir : CString) (schema : TableSchema)
    (idColumnIndex : ℕ) : Access (Except EngineError (BPTree × UInt64)) := do
  let scanned ← scanTableRowsWithOffsets disk dbDir schema.tableName schema.columnCount
    (RuntimeModel.buildIdIndexCallback idColumnIndex) ⟨bptreeInit, 0, false⟩
  match scanned with
  | .error e => pure (.error (RuntimeModel.indexError e.message))
  | .ok state =>
    if !state.sawRow then pure (.ok (state.tree, 1))
    else if state.maxId.toNat = RuntimeModel.uint64Max then
      pure (.error (RuntimeModel.indexError (.lit "INDEX ERROR: next id would overflow")))
    else pure (.ok (state.tree, state.maxId + 1))

def loadTableRuntime (disk : Disk) (dbDir tableName : CString) :
    Access (Disk × Except EngineError TableRuntime) := do
  let loaded ← loadTableSchema disk dbDir tableName
  match loaded with
  | .error message => pure (disk, .error ⟨.schemaError, message⟩)
  | .ok schema => do
    let (disk, ensured) ← ensureTableDataFile none disk dbDir tableName
    match ensured with
    | .error e => pure (disk, .error e)
    | .ok _ =>
      match schemaFindColumnIndex schema (.lit "id") with
      | none => pure (disk, .ok ⟨tableName, schema, none, false, 0, bptreeInit⟩)
      | some idColumnIndex => do
        let built ← buildIdIndexForTable disk dbDir schema idColumnIndex
        match built with
        | .error e => pure (disk, .error e)
        | .ok (tree, nextId) =>
          pure (disk, .ok ⟨tableName, schema, some idColumnIndex, true, nextId, tree⟩)

def getOrLoadTableRuntime (disk : Disk) (ctx : ExecutionContext) (tableName : CString) :
    Access (Disk × ExecutionContext × Except EngineError ℕ) :=
  match ctx.tables.findIdx? (·.tableName = tableName) with
  | some i => pure (disk, ctx, .ok i)
  | none => do
    let (disk, loaded) ← loadTableRuntime disk ctx.dbDir tableName
    match loaded with
    | .error e => pure (disk, ctx, .error e)
    | .ok table => pure (disk, ctx.push table, .ok ctx.tables.length)

def runtimePreloadTable (disk : Disk) (ctx : ExecutionContext) (tableName : CString) :
    Access (Disk × ExecutionContext × Except EngineError Unit) := do
  let (disk, ctx, outcome) ← getOrLoadTableRuntime disk ctx tableName
  pure (disk, ctx, outcome.map (fun _ => ()))

def insertWithGeneratedId (faults : InsertFaults) (disk : Disk) (dbDir : CString)
    (table : TableRuntime) (stmt : InsertStatement) :
    Access (Disk × TableRuntime × Except EngineError ExecResult) :=
  match validateInsertColumnsForAutoId table stmt with
  | .error e => pure (disk, table, .error e)
  | .ok _ =>
    let generatedId := table.nextId
    if generatedId = 0 then
      pure (disk, table, .error (execError (.lit "EXEC ERROR: auto-generated id overflow")))
    else do
      let built ← silent (buildInsertRowWithGeneratedId table stmt generatedId)
      match built with
      | .error e => pure (disk, table, .error e)
      | .ok row => do
        let (disk, appended) ←
          appendRowToTableWithOffset faults.append disk dbDir stmt.tableName row
        match appended with
        | .error e =>
          pure (disk, table, .error (translateModuleStatus .storageError (.lit "STORAGE ERROR") e))
        | .ok rowOffset => do
          let (tree, status) ←
            silent (bptreeInsert faults.index table.idIndex generatedId rowOffset)
          match status with
          | .error e =>
            pure (disk, { table with idIndex := tree }, .error
              (translateModuleStatus .indexError (.lit "INDEX ERROR") ⟨.indexError, e.message⟩))
          | .ok _ =>
            pure (disk,
              { table with idIndex := tree, nextId := table.nextId + 1, idIndexReady := true },
              .ok (insertResult (some generatedId)))

def insertExisting (faults : InsertFaults) (disk : Disk) (dbDir : CString) (table : TableRuntime)
    (stmt : InsertStatement) : Access (Disk × Except EngineError ExecResult) :=
  match buildInsertRowExistingBehavior table.schema stmt with
  | .error e => pure (disk, .error e)
  | .ok row => do
    let (disk, appended) ← appendRowToTable faults.append disk dbDir stmt.tableName row
    match appended with
    | .error e =>
      pure (disk, .error (translateModuleStatus .storageError (.lit "STORAGE ERROR") e))
    | .ok _ => pure (disk, .ok (insertResult none))

abbrev LoggedOutcome := Access (Disk × ExecutionContext × Except EngineError ExecResult)

def executeInsert (faults : InsertFaults) (disk : Disk) (ctx : ExecutionContext)
    (stmt : InsertStatement) : LoggedOutcome := do
  let (disk, ctx, loaded) ← getOrLoadTableRuntime disk ctx stmt.tableName
  match loaded with
  | .error e => pure (disk, ctx, .error (translateLoadError e))
  | .ok i =>
    match ctx.tables[i]? with
    | none => silent (.error .badPointer)
    | some table =>
      if table.hasIdColumn then do
        let (disk, table, outcome) ← insertWithGeneratedId faults disk ctx.dbDir table stmt
        pure (disk, { ctx with tables := ctx.tables.set i table }, outcome)
      else do
        let (disk, outcome) ← insertExisting faults disk ctx.dbDir table stmt
        pure (disk, ctx, outcome)

def executeSelectWithIdIndex (disk : Disk) (dbDir : CString) (table : TableRuntime)
    (stmt : SelectStatement) (idKey : UInt64) : Access Selected := do
  let columns := initializeQueryResultColumns table.schema stmt
  let searched ← silent (bptreeSearch table.idIndex idKey)
  match searched with
  | .error e =>
    pure (.error (translateModuleStatus .indexError (.lit "INDEX ERROR") ⟨.indexError, e.message⟩))
  | .ok none => pure (.ok (⟨columns, []⟩, true))
  | .ok (some rowOffset) => do
    let read ← readRowAtOffset disk dbDir table.tableName rowOffset table.schema.columnCount
    match read with
    | .error e => pure (.error (translateModuleStatus .storageError (.lit "STORAGE ERROR") e))
    | .ok row =>
      if rowMatchesWhereClause stmt table.idColumnIndex row then
        pure (.ok (⟨columns, [projectSingleRow table.schema stmt row]⟩, true))
      else pure (.ok (⟨columns, []⟩, true))

def executeSelectWithFullScan (disk : Disk) (dbDir : CString) (table : TableRuntime)
    (stmt : SelectStatement) : Access Selected := do
  let columns := initializeQueryResultColumns table.schema stmt
  let whereIndex := stmt.whereClause.bind
    (fun clause => schemaFindColumnIndex table.schema clause.columnName)
  let scanned ← scanTableRowsWithOffsets disk dbDir table.tableName table.schema.columnCount
    (selectFullScanCallback table.schema stmt whereIndex) []
  match scanned with
  | .error e => pure (.error (translateModuleStatus .storageError (.lit "STORAGE ERROR") e))
  | .ok rows => pure (.ok (⟨columns, rows⟩, false))

def selectFrom (disk : Disk) (dbDir : CString) (table : TableRuntime) (stmt : SelectStatement) :
    Access (Except EngineError ExecResult) :=
  match validateSelectColumns table.schema stmt with
  | .error e => pure (.error e)
  | .ok _ => do
    let selected ← match canUseIdIndex table stmt with
      | some idKey => executeSelectWithIdIndex disk dbDir table stmt idKey
      | none => executeSelectWithFullScan disk dbDir table stmt
    match selected with
    | .error e => pure (.error e)
    | .ok (result, usedIndex) =>
      pure (.ok ⟨.select, result.rows.length, result, usedIndex, none⟩)

def executeSelect (disk : Disk) (ctx : ExecutionContext) (stmt : SelectStatement) :
    LoggedOutcome := do
  let (disk, ctx, loaded) ← getOrLoadTableRuntime disk ctx stmt.tableName
  match loaded with
  | .error e => pure (disk, ctx, .error (translateLoadError e))
  | .ok i =>
    match ctx.tables[i]? with
    | none => silent (.error .badPointer)
    | some table => do
      let outcome ← selectFrom disk ctx.dbDir table stmt
      pure (disk, ctx, outcome)

def executeStatement (faults : InsertFaults) (disk : Disk) (ctx : ExecutionContext)
    (stmt : Statement) : LoggedOutcome :=
  match stmt with
  | .insert stmt => executeInsert faults disk ctx stmt
  | .select stmt => executeSelect disk ctx stmt

def dbApiExecuteSql (disk : Disk) (ctx : ExecutionContext) (sql : CString) :
    Access (Disk × ExecutionContext × ApiResponse) := do
  match ← silent (gate sql) with
  | .error response => pure (disk, ctx, response)
  | .ok (.select stmt) => do
    let (disk, ctx, preloaded) ← runtimePreloadTable disk ctx stmt.tableName
    match preloaded with
    | .error e => pure (disk, ctx, preloadErrorResponse e)
    | .ok _ => do
      let (disk, ctx, out) ← executeStatement noFaults disk ctx (.select stmt)
      let response ← silent (executedResponse out)
      pure (disk, ctx, response)
  | .ok (.insert stmt) => do
    let (disk, ctx, out) ← executeStatement noFaults disk ctx (.insert stmt)
    let response ← silent (executedResponse out)
    pure (disk, ctx, response)

/-- What the next section of a call opens, on the database as it finds it and whatever fails. -/
def openedBy (faults : InsertFaults) (state : CallState) (db : Db) : List Opening :=
  match state with
  | .insert stmt => (executeStatement faults db.disk db.ctx (.insert stmt)).events
  | .preload stmt => (runtimePreloadTable db.disk db.ctx stmt.tableName).events
  | .select stmt => (executeStatement faults db.disk db.ctx (.select stmt)).events
  | .returned _ => []

def statementLoop {σ : Type} (tokens : List Token)
    (body : σ → Statement → Access (σ × Except EngineError Unit)) :
    ℕ → ℕ → σ → Access (σ × ℕ × Except EngineError Unit)
  | 0, _, _ => silent (.error .unbounded)
  | rounds + 1, cursor, state =>
    match tokens[cursor]? with
    | none => pure (state, cursor, .ok ())
    | some token =>
      if token.type = .eof then pure (state, cursor, .ok ())
      else do
        match ← silent (parseNextStatement tokens cursor) with
        | (.error message, cursor) => pure (state, cursor, .error ⟨.parseError, message⟩)
        | (.ok stmt, cursor) => do
          let (state, worked) ← body state stmt
          match worked with
          | .error e => pure (state, cursor, .error e)
          | .ok _ => statementLoop tokens body rounds (skipSemicolons tokens cursor) state

def executeAndPrint (state : CliState) (stmt : Statement) :
    Access (CliState × Except EngineError Unit) := do
  let (disk, ctx, out) ← executeStatement noFaults state.disk state.ctx stmt
  match out with
  | .error e => pure (⟨disk, ctx, state.printed⟩, .error e)
  | .ok result => pure (⟨disk, ctx, state.printed ++ [result]⟩, .ok ())

def main (disk : Disk) (dbDir sqlFile : CString) (text : Option Bytes) : Access CliOutcome :=
  match text with
  | none =>
    pure ⟨disk, [], .fileError,
      some (.lit "FILE ERROR: failed to read SQL file '" ++ sqlFile ++ .lit "'")⟩
  | some buffer =>
    if (CString.ofBuffer buffer).trim.bytes = [] then
      pure ⟨disk, [], .fileError,
        some (.lit "FILE ERROR: SQL file '" ++ sqlFile ++ .lit "' is empty")⟩
    else
      match tokenizeSql (CString.ofBuffer buffer).trim with
      | .error message => pure ⟨disk, [], .lexError, some message⟩
      | .ok tokens => do
        let (state, _, ended) ← statementLoop tokens executeAndPrint (tokens.length + 1)
          (skipSemicolons tokens 0) ⟨disk, initExecutionContext dbDir, []⟩
        match ended with
        | .error e => pure ⟨state.disk, state.printed, e.status, some e.message⟩
        | .ok _ =>
          if state.printed = [] then
            pure ⟨state.disk, [], .parseError,
              some (.lit "PARSE ERROR: no executable SQL statement found")⟩
          else pure ⟨state.disk, state.printed, .ok, none⟩

section Erasure

variable (disk : Disk) (dbDir tableName : CString)

theorem ensureTableDataFile_erases (fault : Option EnsureFault) :
    (ensureTableDataFile fault disk dbDir tableName).result =
      .ok (StorageModel.ensureTableDataFile fault disk dbDir tableName) := by
  unfold ensureTableDataFile
  split
  · rfl
  · rfl

theorem appendRowToTableWithOffset_erases (fault : Option AppendFault) (row : Row) :
    (appendRowToTableWithOffset fault disk dbDir tableName row).result =
      .ok (StorageModel.appendRowToTableWithOffset fault disk dbDir tableName row) := by
  have hreopen : (reopenDataFile fault dbDir tableName).result = .ok () := by
    unfold reopenDataFile
    split
    · rfl
    · rfl
  unfold appendRowToTableWithOffset
  split
  · rfl
  rw [result_bind, ensureTableDataFile_erases]
  obtain ⟨ensuredDisk, ensured⟩ :=
    StorageModel.ensureTableDataFile (fault.bind AppendFault.atEnsure) disk dbDir tableName
  cases ensured with
  | error e => rfl
  | ok _ =>
    change (reopenDataFile fault dbDir tableName >>= fun _ => _).result = _
    rw [result_bind, hreopen]
    rfl

theorem appendRowToTable_erases (fault : Option AppendFault) (row : Row) :
    (appendRowToTable fault disk dbDir tableName row).result =
      .ok (StorageModel.appendRowToTable fault disk dbDir tableName row) := by
  unfold appendRowToTable StorageModel.appendRowToTable
  rw [result_bind, appendRowToTableWithOffset_erases]
  obtain ⟨disk', appended⟩ :=
    StorageModel.appendRowToTableWithOffset fault disk dbDir tableName row
  cases appended with
  | error e => rfl
  | ok _ => rfl

theorem readRowAtOffset_erases (rowOffset : Int) (columnCount : ℕ) :
    (readRowAtOffset disk dbDir tableName rowOffset columnCount).result =
      .ok (StorageModel.readRowAtOffset disk dbDir tableName rowOffset columnCount) := by
  unfold readRowAtOffset
  split
  · rfl
  · rfl

theorem buildIdIndexForTable_erases (schema : TableSchema) (idColumnIndex : ℕ) :
    (buildIdIndexForTable disk dbDir schema idColumnIndex).result =
      RuntimeModel.buildIdIndexForTable disk dbDir schema idColumnIndex := by
  refine erases_bind rfl ?_
  intro scanned
  cases scanned with
  | error e => rfl
  | ok state =>
    dsimp only
    split
    · rfl
    split
    · rfl
    · rfl

theorem loadTableSchema_erases : (loadTableSchema disk dbDir tableName).result =
    .ok (SchemaModel.loadTableSchema tableName (disk (schemaPath dbDir tableName))) := rfl

theorem loadTableRuntime_erases :
    (loadTableRuntime disk dbDir tableName).result =
      RuntimeModel.loadTableRuntime disk dbDir tableName := by
  unfold loadTableRuntime RuntimeModel.loadTableRuntime
  rw [result_bind, loadTableSchema_erases, ok_bind]
  cases SchemaModel.loadTableSchema tableName (disk (schemaPath dbDir tableName)) with
  | error message => rfl
  | ok schema =>
    dsimp only
    rw [result_bind, ensureTableDataFile_erases, ok_bind]
    obtain ⟨ensuredDisk, ensured⟩ :=
      StorageModel.ensureTableDataFile none disk dbDir tableName
    cases ensured with
    | error e => rfl
    | ok _ =>
      cases schemaFindColumnIndex schema (.lit "id") with
      | none => rfl
      | some idColumnIndex =>
        refine erases_bind (buildIdIndexForTable_erases ..) ?_
        intro built
        cases built with
        | error e => rfl
        | ok index => rfl

theorem getOrLoadTableRuntime_erases (ctx : ExecutionContext) :
    (getOrLoadTableRuntime disk ctx tableName).result =
      RuntimeModel.getOrLoadTableRuntime disk ctx tableName := by
  unfold getOrLoadTableRuntime RuntimeModel.getOrLoadTableRuntime
  cases ctx.tables.findIdx? (·.tableName = tableName) with
  | some i => rfl
  | none =>
    refine erases_bind (loadTableRuntime_erases ..) ?_
    rintro ⟨disk, loaded⟩
    cases loaded with
    | error e => rfl
    | ok table => rfl

theorem runtimePreloadTable_erases (ctx : ExecutionContext) :
    (runtimePreloadTable disk ctx tableName).result =
      RuntimeModel.runtimePreloadTable disk ctx tableName :=
  erases_bind (getOrLoadTableRuntime_erases ..) fun _ => rfl

theorem insertWithGeneratedId_erases (faults : InsertFaults) (table : TableRuntime)
    (stmt : InsertStatement) : (insertWithGeneratedId faults disk dbDir table stmt).result =
      ExecutorModel.insertWithGeneratedId faults disk dbDir table stmt := by
  unfold insertWithGeneratedId ExecutorModel.insertWithGeneratedId
  cases validateInsertColumnsForAutoId table stmt with
  | error e => rfl
  | ok _ =>
    dsimp only
    split
    · rfl
    refine erases_bind rfl ?_
    intro built
    cases built with
    | error e => rfl
    | ok row =>
      dsimp only
      rw [result_bind, appendRowToTableWithOffset_erases, ok_bind]
      obtain ⟨disk', appended⟩ := StorageModel.appendRowToTableWithOffset faults.append disk dbDir
        stmt.tableName row
      cases appended with
      | error e => rfl
      | ok rowOffset =>
        refine erases_bind rfl ?_
        rintro ⟨tree, status⟩
        cases status with
        | error e => rfl
        | ok _ => rfl

theorem insertExisting_erases (faults : InsertFaults) (table : TableRuntime)
    (stmt : InsertStatement) : (insertExisting faults disk dbDir table stmt).result =
      .ok (ExecutorModel.insertExisting faults disk dbDir table stmt) := by
  unfold insertExisting ExecutorModel.insertExisting
  cases buildInsertRowExistingBehavior table.schema stmt with
  | error e => rfl
  | ok row =>
    dsimp only
    rw [result_bind, appendRowToTable_erases, ok_bind]
    obtain ⟨disk', appended⟩ :=
      StorageModel.appendRowToTable faults.append disk dbDir stmt.tableName row
    cases appended with
    | error e => rfl
    | ok _ => rfl

theorem executeInsert_erases (faults : InsertFaults) (ctx : ExecutionContext)
    (stmt : InsertStatement) : (executeInsert faults disk ctx stmt).result =
      ExecutorModel.executeInsert faults disk ctx stmt := by
  refine erases_bind (getOrLoadTableRuntime_erases ..) ?_
  rintro ⟨disk, ctx, loaded⟩
  cases loaded with
  | error e => rfl
  | ok i =>
    dsimp only
    cases ctx.tables[i]? with
    | none => rfl
    | some table =>
      dsimp only
      split
      · exact erases_bind (insertWithGeneratedId_erases ..) fun _ => rfl
      · rw [result_bind, insertExisting_erases, ok_bind]
        rfl

theorem executeSelectWithIdIndex_erases (table : TableRuntime) (stmt : SelectStatement)
    (idKey : UInt64) : (executeSelectWithIdIndex disk dbDir table stmt idKey).result =
      ExecutorModel.executeSelectWithIdIndex disk dbDir table stmt idKey := by
  refine erases_bind rfl ?_
  intro searched
  cases searched with
  | error e => rfl
  | ok found =>
    cases found with
    | none => rfl
    | some rowOffset =>
      dsimp only
      rw [result_bind, readRowAtOffset_erases, ok_bind]
      cases StorageModel.readRowAtOffset disk dbDir table.tableName rowOffset
        table.schema.columnCount with
      | error e => rfl
      | ok row =>
        dsimp only
        split
        · rfl
        · rfl

theorem executeSelectWithFullScan_erases (table : TableRuntime) (stmt : SelectStatement) :
    (executeSelectWithFullScan disk dbDir table stmt).result =
      ExecutorModel.executeSelectWithFullScan disk dbDir table stmt := by
  refine erases_bind rfl ?_
  intro scanned
  cases scanned with
  | error e => rfl
  | ok rows => rfl

theorem selectFrom_erases (table : TableRuntime) (stmt : SelectStatement) :
    (selectFrom disk dbDir table stmt).result =
      ExecutorModel.selectFrom disk dbDir table stmt := by
  unfold selectFrom ExecutorModel.selectFrom
  cases validateSelectColumns table.schema stmt with
  | error e => rfl
  | ok _ =>
    dsimp only
    cases canUseIdIndex table stmt with
    | some idKey =>
      refine erases_bind (executeSelectWithIdIndex_erases ..) ?_
      intro selected
      cases selected with
      | error e => rfl
      | ok r => rfl
    | none =>
      refine erases_bind (executeSelectWithFullScan_erases ..) ?_
      intro selected
      cases selected with
      | error e => rfl
      | ok r => rfl

theorem executeSelect_erases (ctx : ExecutionContext) (stmt : SelectStatement) :
    (executeSelect disk ctx stmt).result = ExecutorModel.executeSelect disk ctx stmt := by
  refine erases_bind (getOrLoadTableRuntime_erases ..) ?_
  rintro ⟨disk, ctx, loaded⟩
  cases loaded with
  | error e => rfl
  | ok i =>
    dsimp only
    cases ctx.tables[i]? with
    | none => rfl
    | some table => exact erases_bind (selectFrom_erases ..) fun _ => rfl

theorem executeStatement_erases (faults : InsertFaults) (ctx : ExecutionContext)
    (stmt : Statement) : (executeStatement faults disk ctx stmt).result =
      ExecutorModel.executeStatement faults disk ctx stmt := by
  cases stmt with
  | insert stmt => exact executeInsert_erases ..
  | select stmt => exact executeSelect_erases ..

theorem dbApiExecuteSql_erases (ctx : ExecutionContext) (sql : CString) :
    (dbApiExecuteSql disk ctx sql).result = DbApiModel.dbApiExecuteSql disk ctx sql := by
  refine erases_bind rfl ?_
  intro checked
  cases checked with
  | error response => rfl
  | ok stmt =>
    cases stmt with
    | select stmt =>
      refine erases_bind (runtimePreloadTable_erases ..) ?_
      rintro ⟨disk, ctx, preloaded⟩
      cases preloaded with
      | error e => rfl
      | ok _ =>
        refine erases_bind (executeStatement_erases ..) ?_
        intro executed
        exact erases_bind rfl fun _ => rfl
    | insert stmt =>
      refine erases_bind (executeStatement_erases ..) ?_
      intro executed
      exact erases_bind rfl fun _ => rfl

theorem statementLoop_erases {σ : Type} {tokens : List Token}
    {body : σ → Statement → Access (σ × Except EngineError Unit)}
    {body' : σ → Statement → Checked (σ × Except EngineError Unit)}
    (hbody : ∀ state stmt, (body state stmt).result = body' state stmt) (rounds cursor : ℕ)
    (state : σ) : (statementLoop tokens body rounds cursor state).result =
      ScriptLoop.statementLoop tokens body' rounds cursor state := by
  induction rounds generalizing cursor state with
  | zero => rfl
  | succ rounds ih =>
    unfold statementLoop ScriptLoop.statementLoop
    cases tokens[cursor]? with
    | none => rfl
    | some token =>
      dsimp only
      split
      · rfl
      refine erases_bind rfl ?_
      rintro ⟨parsed, next⟩
      cases parsed with
      | error message => rfl
      | ok stmt =>
        refine erases_bind (hbody state stmt) ?_
        rintro ⟨state', worked⟩
        cases worked with
        | error e => rfl
        | ok _ => exact ih _ _

theorem executeAndPrint_erases (state : CliState) (stmt : Statement) :
    (executeAndPrint state stmt).result = ScriptLoop.executeAndPrint state stmt := by
  refine erases_bind (executeStatement_erases ..) ?_
  rintro ⟨disk, ctx, out⟩
  cases out with
  | error e => rfl
  | ok result => rfl

theorem main_erases (sqlFile : CString) (text : Option Bytes) :
    (main disk dbDir sqlFile text).result = ScriptLoop.main disk dbDir sqlFile text := by
  unfold main ScriptLoop.main
  cases text with
  | none => rfl
  | some buffer =>
    dsimp only
    split
    · rfl
    cases tokenizeSql (CString.ofBuffer buffer).trim with
    | error message => rfl
    | ok tokens =>
      refine erases_bind (statementLoop_erases executeAndPrint_erases ..) ?_
      rintro ⟨state, cursor, ended⟩
      cases ended with
      | error e => rfl
      | ok _ =>
        dsimp only
        split
        · rfl
        · rfl

end Erasure

def OfTable (dbDir name : CString) (opening : Opening) : Prop :=
  opening = ⟨schemaPath dbDir name, .read⟩ ∨ opening.path = dataPath dbDir name

section Tables

variable {disk : Disk} {dbDir name : CString} {ctx : ExecutionContext}

theorem opens_schema : Only (OfTable dbDir name) (fopen (schemaPath dbDir name) .read) :=
  only_emit (Or.inl rfl)

theorem opens_data {mode : OpenMode} :
    Only (OfTable dbDir name) (fopen (dataPath dbDir name) mode) :=
  only_emit (Or.inr rfl)

theorem loadTableSchema_opens : Only (OfTable dbDir name) (loadTableSchema disk dbDir name) :=
  only_bind opens_schema fun _ _ => only_pure _

theorem ensureTableDataFile_opens {fault : Option EnsureFault} :
    Only (OfTable dbDir name) (ensureTableDataFile fault disk dbDir name) := by
  unfold ensureTableDataFile
  split
  · exact only_pure _
  · exact only_bind opens_data fun _ _ => only_pure _

theorem appendRowToTableWithOffset_opens {fault : Option AppendFault} {row : Row} :
    Only (OfTable dbDir name) (appendRowToTableWithOffset fault disk dbDir name row) := by
  have hreopen : Only (OfTable dbDir name) (reopenDataFile fault dbDir name) := by
    unfold reopenDataFile
    split
    · exact only_pure _
    · exact opens_data
  unfold appendRowToTableWithOffset
  split
  · exact only_pure _
  refine only_bind ensureTableDataFile_opens ?_
  rintro ⟨ensuredDisk, ensured⟩ -
  cases ensured with
  | error e => exact only_pure _
  | ok _ => exact only_bind hreopen fun _ _ => only_pure _

theorem appendRowToTable_opens {fault : Option AppendFault} {row : Row} :
    Only (OfTable dbDir name) (appendRowToTable fault disk dbDir name row) := by
  refine only_bind appendRowToTableWithOffset_opens ?_
  rintro ⟨disk', appended⟩ -
  cases appended with
  | error e => exact only_pure _
  | ok _ => exact only_pure _

theorem scanTableRowsWithOffsets_opens {σ : Type} {columnCount : ℕ}
    {callback : σ → Row → ℕ → Checked (Signal σ)} {state : σ} : Only (OfTable dbDir name)
      (scanTableRowsWithOffsets disk dbDir name columnCount callback state) :=
  only_bind opens_data fun _ _ => only_silent _

theorem readRowAtOffset_opens {rowOffset : Int} {columnCount : ℕ} :
    Only (OfTable dbDir name) (readRowAtOffset disk dbDir name rowOffset columnCount) := by
  unfold readRowAtOffset
  split
  · exact only_pure _
  · exact only_bind opens_data fun _ _ => only_pure _

theorem buildIdIndexForTable_opens {schema : TableSchema} {idColumnIndex : ℕ} :
    Only (OfTable dbDir schema.tableName)
      (buildIdIndexForTable disk dbDir schema idColumnIndex) := by
  refine only_bind scanTableRowsWithOffsets_opens ?_
  intro scanned _
  cases scanned with
  | error e => exact only_pure _
  | ok state =>
    dsimp only
    split
    · exact only_pure _
    split
    · exact only_pure _
    · exact only_pure _

/-- The index of a table is built over the file that the loaded schema names, its own. -/
theorem loadTableRuntime_opens : Only (OfTable dbDir name) (loadTableRuntime disk dbDir name) := by
  refine only_bind loadTableSchema_opens ?_
  intro loaded hloaded
  cases loaded with
  | error message => exact only_pure _
  | ok schema =>
    have hname : schema.tableName = name := by
      rw [loadTableSchema_erases] at hloaded
      exact TableCache.loadTableSchema_name (Except.ok.inj hloaded)
    refine only_bind ensureTableDataFile_opens ?_
    rintro ⟨ensuredDisk, ensured⟩ -
    cases ensured with
    | error e => exact only_pure _
    | ok _ =>
      dsimp only
      cases schemaFindColumnIndex schema (.lit "id") with
      | none => exact only_pure _
      | some idColumnIndex =>
        refine only_bind (hname ▸ buildIdIndexForTable_opens) ?_
        intro built _
        cases built with
        | error e => exact only_pure _
        | ok index => exact only_pure _

theorem getOrLoadTableRuntime_opens :
    Only (OfTable ctx.dbDir name) (getOrLoadTableRuntime disk ctx name) := by
  unfold getOrLoadTableRuntime
  cases ctx.tables.findIdx? (·.tableName = name) with
  | some i => exact only_pure _
  | none =>
    refine only_bind loadTableRuntime_opens ?_
    rintro ⟨disk', loaded⟩ -
    cases loaded with
    | error e => exact only_pure _
    | ok table => exact only_pure _

theorem runtimePreloadTable_opens :
    Only (OfTable ctx.dbDir name) (runtimePreloadTable disk ctx name) :=
  only_bind getOrLoadTableRuntime_opens fun _ _ => only_pure _

end Tables

section Statements

variable {disk disk' : Disk} {ctx ctx' : ExecutionContext}

/-- The directory stays, and the table that is found has the name that was asked for. -/
theorem getOrLoad_found {name : CString} {out : Except EngineError ℕ}
    (h : RuntimeModel.getOrLoadTableRuntime disk ctx name = .ok (disk', ctx', out)) :
    ctx'.dbDir = ctx.dbDir ∧
      ∀ i table, out = .ok i → ctx'.tables[i]? = some table → table.tableName = name := by
  rcases TableCache.getOrLoad_resolve disk ctx name with
    ⟨found, i, hcached, hat, -, hget⟩ | ⟨-, hget⟩
  · rw [hget] at h
    cases h
    refine ⟨rfl, ?_⟩
    intro j table hj htable
    cases hj
    rw [hat] at htable
    cases htable
    exact TableCache.cached_name hcached
  · rw [hget] at h
    obtain ⟨⟨loadedDisk, loaded⟩, hload, h⟩ := bind_eq_ok.mp h
    cases loaded with
    | error e =>
      cases h
      exact ⟨rfl, fun i table hi => by cases hi⟩
    | ok found =>
      cases h
      refine ⟨rfl, ?_⟩
      intro j table hj htable
      cases hj
      rw [TableCache.push_get] at htable
      cases htable
      exact (TableCache.load_cases hload).2.1

theorem executeStatement_dbDir {faults : InsertFaults} {stmt : Statement}
    {out : Except EngineError ExecResult}
    (h : ExecutorModel.executeStatement faults disk ctx stmt = .ok (disk', ctx', out)) :
    ctx'.dbDir = ctx.dbDir := by
  cases stmt with
  | insert stmt =>
    rw [ExecutorModel.executeStatement, TableCache.executeInsert_resolve] at h
    obtain ⟨⟨foundDisk, found⟩, -, h⟩ := bind_eq_ok.mp h
    cases found with
    | error e =>
      cases h
      rfl
    | ok table =>
      obtain ⟨inserted, -, h⟩ := bind_eq_ok.mp h
      cases h
      exact TableCache.remember_dbDir _ _
  | select stmt =>
    rw [ExecutorModel.executeStatement, TableCache.executeSelect_resolve] at h
    obtain ⟨⟨foundDisk, found⟩, -, h⟩ := bind_eq_ok.mp h
    cases found with
    | error e =>
      cases h
      rfl
    | ok table =>
      obtain ⟨selected, -, h⟩ := bind_eq_ok.mp h
      cases h
      exact TableCache.remember_dbDir _ _

theorem preload_dbDir {name : CString} {out : Except EngineError Unit}
    (h : RuntimeModel.runtimePreloadTable disk ctx name = .ok (disk', ctx', out)) :
    ctx'.dbDir = ctx.dbDir := by
  obtain ⟨⟨loadedDisk, loadedCtx, loaded⟩, hload, h⟩ := bind_eq_ok.mp h
  cases h
  exact (getOrLoad_found hload).1

theorem insertWithGeneratedId_opens {faults : InsertFaults} {dbDir : CString}
    {table : TableRuntime} {stmt : InsertStatement} : Only (OfTable dbDir stmt.tableName)
      (insertWithGeneratedId faults disk dbDir table stmt) := by
  unfold insertWithGeneratedId
  cases validateInsertColumnsForAutoId table stmt with
  | error e => exact only_pure _
  | ok _ =>
    dsimp only
    split
    · exact only_pure _
    refine only_bind (only_silent _) ?_
    intro built _
    cases built with
    | error e => exact only_pure _
    | ok row =>
      refine only_bind appendRowToTableWithOffset_opens ?_
      rintro ⟨disk', appended⟩ -
      cases appended with
      | error e => exact only_pure _
      | ok rowOffset =>
        refine only_bind (only_silent _) ?_
        rintro ⟨tree, status⟩ -
        cases status with
        | error e => exact only_pure _
        | ok _ => exact only_pure _

theorem insertExisting_opens {faults : InsertFaults} {dbDir : CString} {table : TableRuntime}
    {stmt : InsertStatement} : Only (OfTable dbDir stmt.tableName)
      (insertExisting faults disk dbDir table stmt) := by
  unfold insertExisting
  cases buildInsertRowExistingBehavior table.schema stmt with
  | error e => exact only_pure _
  | ok row =>
    refine only_bind appendRowToTable_opens ?_
    rintro ⟨disk', appended⟩ -
    cases appended with
    | error e => exact only_pure _
    | ok _ => exact only_pure _

theorem executeSelectWithIdIndex_opens {dbDir : CString} {table : TableRuntime}
    {stmt : SelectStatement} {idKey : UInt64} : Only (OfTable dbDir table.tableName)
      (executeSelectWithIdIndex disk dbDir table stmt idKey) := by
  refine only_bind (only_silent _) ?_
  intro searched _
  cases searched with
  | error e => exact only_pure _
  | ok found =>
    cases found with
    | none => exact only_pure _
    | some rowOffset =>
      refine only_bind readRowAtOffset_opens ?_
      intro read _
      cases read with
      | error e => exact only_pure _
      | ok row =>
        dsimp only
        split
        · exact only_pure _
        · exact only_pure _

theorem executeSelectWithFullScan_opens {dbDir : CString} {table : TableRuntime}
    {stmt : SelectStatement} : Only (OfTable dbDir table.tableName)
      (executeSelectWithFullScan disk dbDir table stmt) := by
  refine only_bind scanTableRowsWithOffsets_opens ?_
  intro scanned _
  cases scanned with
  | error e => exact only_pure _
  | ok rows => exact only_pure _

theorem selectFrom_opens {dbDir : CString} {table : TableRuntime} {stmt : SelectStatement} :
    Only (OfTable dbDir table.tableName) (selectFrom disk dbDir table stmt) := by
  unfold selectFrom
  cases validateSelectColumns table.schema stmt with
  | error e => exact only_pure _
  | ok _ =>
    dsimp only
    cases canUseIdIndex table stmt with
    | some idKey =>
      refine only_bind executeSelectWithIdIndex_opens ?_
      intro selected _
      cases selected with
      | error e => exact only_pure _
      | ok r => exact only_pure _
    | none =>
      refine only_bind executeSelectWithFullScan_opens ?_
      intro selected _
      cases selected with
      | error e => exact only_pure _
      | ok r => exact only_pure _

theorem executeInsert_opens {faults : InsertFaults} {stmt : InsertStatement} :
    Only (OfTable ctx.dbDir stmt.tableName) (executeInsert faults disk ctx stmt) := by
  refine only_bind getOrLoadTableRuntime_opens ?_
  rintro ⟨loadedDisk, loadedCtx, loaded⟩ hloaded
  rw [getOrLoadTableRuntime_erases] at hloaded
  obtain ⟨hdir, -⟩ := getOrLoad_found hloaded
  rw [← hdir]
  cases loaded with
  | error e => exact only_pure _
  | ok i =>
    dsimp only
    cases loadedCtx.tables[i]? with
    | none => exact only_silent _
    | some table =>
      dsimp only
      split
      · exact only_bind insertWithGeneratedId_opens fun _ _ => only_pure _
      · exact only_bind insertExisting_opens fun _ _ => only_pure _

theorem executeSelect_opens {stmt : SelectStatement} :
    Only (OfTable ctx.dbDir stmt.tableName) (executeSelect disk ctx stmt) := by
  refine only_bind getOrLoadTableRuntime_opens ?_
  rintro ⟨loadedDisk, loadedCtx, loaded⟩ hloaded
  rw [getOrLoadTableRuntime_erases] at hloaded
  obtain ⟨hdir, hnames⟩ := getOrLoad_found hloaded
  rw [← hdir]
  cases loaded with
  | error e => exact only_pure _
  | ok i =>
    dsimp only
    cases htable : loadedCtx.tables[i]? with
    | none => exact only_silent _
    | some table =>
      rw [← hnames i table rfl htable]
      exact only_bind selectFrom_opens fun _ _ => only_pure _

theorem executeStatement_opens {faults : InsertFaults} {stmt : Statement} :
    Only (OfTable ctx.dbDir stmt.tableName) (executeStatement faults disk ctx stmt) := by
  cases stmt with
  | insert stmt => exact executeInsert_opens
  | select stmt => exact executeSelect_opens

end Statements

def InText (dbDir sql : CString) (opening : Opening) : Prop :=
  ∃ name, NamedIn sql name ∧ OfTable dbDir name opening

theorem only_inText {α : Type} {m : Access α} {dbDir sql name : CString} (hname : NamedIn sql name)
    (h : Only (OfTable dbDir name) m) : Only (InText dbDir sql) m :=
  h.mono fun _ hopening => ⟨name, hname, hopening⟩

theorem gate_names {sql : CString} {stmt : Statement} (h : gate sql = .ok (.ok stmt)) :
    NamedIn sql stmt.tableName := by
  rcases GateAgreement.gate_cases sql with ⟨response, hgate, -⟩ | ⟨tokens, stmt', k, hgate, htokens,
    hnext, -⟩
  · rw [h] at hgate
    cases hgate
  · rw [h] at hgate
    cases hgate
    exact parsed_table_named htokens hnext

theorem dbApiExecuteSql_opens (disk : Disk) (ctx : ExecutionContext) (sql : CString) :
    Only (InText ctx.dbDir sql) (dbApiExecuteSql disk ctx sql) := by
  refine only_bind (only_silent _) ?_
  intro checked hgate
  cases checked with
  | error response => exact only_pure _
  | ok stmt =>
    have hname := gate_names hgate
    cases stmt with
    | insert stmt =>
      refine only_bind (only_inText hname executeStatement_opens) ?_
      intro executed _
      exact only_bind (only_silent _) fun _ _ => only_pure _
    | select stmt =>
      refine only_bind (only_inText hname runtimePreloadTable_opens) ?_
      rintro ⟨loadedDisk, loadedCtx, preloaded⟩ hpreloaded
      rw [runtimePreloadTable_erases] at hpreloaded
      rw [← preload_dbDir hpreloaded]
      cases preloaded with
      | error e => exact only_pure _
      | ok _ =>
        refine only_bind (only_inText hname executeStatement_opens) ?_
        intro executed _
        exact only_bind (only_silent _) fun _ _ => only_pure _

/-- Each section opens files of its own statement only, whatever the other calls have done. -/
theorem openedBy_inText {sql : CString} {state : CallState} (h : GateAgreement.Passes sql state)
    (faults : InsertFaults) (db : Db) :
    ∀ opening ∈ openedBy faults state db, InText db.ctx.dbDir sql opening := by
  have hnamed {stmt : Statement} (hstmt : GateAgreement.statement state = some stmt) :
      NamedIn sql stmt.tableName := gate_names (GateAgreement.statement_passes h hstmt)
  cases state with
  | insert stmt => exact only_inText (hnamed rfl) executeStatement_opens
  | preload stmt => exact only_inText (hnamed rfl) runtimePreloadTable_opens
  | select stmt => exact only_inText (hnamed rfl) executeStatement_opens
  | returned response =>
    intro opening hopening
    cases hopening

/-- What the loop opens, round by round: the work on each parsed statement keeps `Inv`. -/
theorem statementLoop_opens {σ : Type} {tokens : List Token}
    {body : σ → Statement → Access (σ × Except EngineError Unit)} {P : Opening → Prop}
    (Inv : σ → Prop)
    (hbody : ∀ cursor stmt k, parseNextStatement tokens cursor = .ok (.ok stmt, k) →
      ∀ state, Inv state → Only P (body state stmt))
    (hkeeps : ∀ state stmt state' worked, Inv state →
      (body state stmt).result = .ok (state', worked) → Inv state')
    (rounds cursor : ℕ) {state : σ} (hstate : Inv state) :
    Only P (statementLoop tokens body rounds cursor state) := by
  induction rounds generalizing cursor state with
  | zero => exact only_silent _
  | succ rounds ih =>
    unfold statementLoop
    cases tokens[cursor]? with
    | none => exact only_pure _
    | some token =>
      dsimp only
      split
      · exact only_pure _
      refine only_bind (only_silent _) ?_
      rintro ⟨parsed, k⟩ hparsed
      cases parsed with
      | error message => exact only_pure _
      | ok stmt =>
        refine only_bind (hbody cursor stmt k hparsed state hstate) ?_
        rintro ⟨state', worked⟩ hworked
        cases worked with
        | error e => exact only_pure _
        | ok _ => exact ih _ (hkeeps _ _ _ _ hstate hworked)

theorem executeAndPrint_opens {state : CliState} {stmt : Statement} :
    Only (OfTable state.ctx.dbDir stmt.tableName) (executeAndPrint state stmt) := by
  refine only_bind executeStatement_opens ?_
  rintro ⟨disk, ctx, out⟩ -
  cases out with
  | error e => exact only_pure _
  | ok result => exact only_pure _

theorem executeAndPrint_dbDir {state state' : CliState} {stmt : Statement}
    {worked : Except EngineError Unit}
    (h : (executeAndPrint state stmt).result = .ok (state', worked)) :
    state'.ctx.dbDir = state.ctx.dbDir := by
  rw [executeAndPrint_erases] at h
  obtain ⟨⟨disk, ctx, out⟩, hexecute, h⟩ := bind_eq_ok.mp h
  have hdir := executeStatement_dbDir hexecute
  cases out with
  | error e =>
    cases h
    exact hdir
  | ok result =>
    cases h
    exact hdir

theorem main_opens (disk : Disk) (dbDir sqlFile : CString) (buffer : Bytes) :
    Only (InText dbDir (.ofBuffer buffer)) (main disk dbDir sqlFile (some buffer)) := by
  unfold main
  dsimp only
  split
  · exact only_pure _
  cases htokens : tokenizeSql (CString.ofBuffer buffer).trim with
  | error message => exact only_pure _
  | ok tokens =>
    rw [GateAgreement.tokenizeSql_trim] at htokens
    refine only_bind (statementLoop_opens (fun state => state.ctx.dbDir = dbDir) ?_ ?_ _ _ rfl) ?_
    · rintro cursor stmt k hparsed state rfl
      exact only_inText (parsed_table_named htokens hparsed) executeAndPrint_opens
    · rintro state stmt state' worked rfl hworked
      exact executeAndPrint_dbDir hworked
    · rintro ⟨state, cursor, ended⟩ -
      cases ended with
      | error e => exact only_pure _
      | ok _ =>
        dsimp only
        split
        · exact only_pure _
        · exact only_pure _

theorem table_paths (dbDir name : CString) :
    ∃ separator, (separator = [] ∨ separator = [47]) ∧
      (schemaPath dbDir name).bytes = dbDir.bytes ++ separator ++ name.bytes ++ ascii ".schema" ∧
      (dataPath dbDir name).bytes = dbDir.bytes ++ separator ++ name.bytes ++ ascii ".data" := by
  have hschema : (CString.lit ".schema").bytes = ascii ".schema" := by decide
  have hdata : (CString.lit ".data").bytes = ascii ".data" := by decide
  refine ⟨(if needsSeparator dbDir then CString.lit "/" else .empty).bytes, ?_, ?_, ?_⟩
  · split
    · exact Or.inr (by decide)
    · exact Or.inl rfl
  · simp only [schemaPath, buildTablePath, CString.bytes_append, hschema]
  · simp only [dataPath, buildTablePath, CString.bytes_append, hdata]

theorem word_harmless {b : Bytes} (h : Word b) :
    ∀ c ∈ b, c ≠ 47 ∧ c ≠ 92 ∧ c ≠ 46 ∧ 32 ≤ c ∧ c ≠ 127 := by
  intro c hc
  have hword := word_bytes h c hc
  simp only [isWordByte, isAlnum, isAlpha, isDigit] at hword
  grind

/-- Every file that a call opens, and every file that a script opens, is the schema file or the
data file of a table whose name is an unquoted word of the text; so is what each section of a call
opens between those of other calls, also when it fails. Without the log these are the call and the
program. The paths are made of the directory, at most one separator, the name and the suffix; the
names hold nothing that leads out of the directory, and the paths tell the files apart. -/
theorem sql_opens_only_named_tables :
    (∀ disk ctx sql,
      (dbApiExecuteSql disk ctx sql).result = DbApiModel.dbApiExecuteSql disk ctx sql ∧
      ∀ opening ∈ (dbApiExecuteSql disk ctx sql).events, InText ctx.dbDir sql opening) ∧
    (∀ sql state faults db, GateAgreement.Passes sql state →
      ∀ opening ∈ openedBy faults state db, InText db.ctx.dbDir sql opening) ∧
    (∀ disk dbDir sqlFile buffer,
      (main disk dbDir sqlFile (some buffer)).result =
        ScriptLoop.main disk dbDir sqlFile (some buffer) ∧
      ∀ opening ∈ (main disk dbDir sqlFile (some buffer)).events,
        InText dbDir (.ofBuffer buffer) opening) ∧
    (∀ dbDir name, ∃ separator, (separator = [] ∨ separator = [47]) ∧
      (schemaPath dbDir name).bytes = dbDir.bytes ++ separator ++ name.bytes ++ ascii ".schema" ∧
      (dataPath dbDir name).bytes = dbDir.bytes ++ separator ++ name.bytes ++ ascii ".data") ∧
    (∀ sql name, NamedIn sql name →
      ∀ c ∈ name.bytes, c ≠ 47 ∧ c ≠ 92 ∧ c ≠ 46 ∧ 32 ≤ c ∧ c ≠ 127) ∧
    (∀ dbDir name name', name ≠ name' → schemaPath dbDir name ≠ schemaPath dbDir name' ∧
      dataPath dbDir name ≠ dataPath dbDir name') ∧
    ∀ dbDir name name', dataPath dbDir name ≠ schemaPath dbDir name' := by
  refine ⟨?_, ?_, ?_, table_paths, ?_, ?_, TableCache.dataPath_ne_schemaPath⟩
  · intro disk ctx sql
    exact ⟨dbApiExecuteSql_erases disk ctx sql, dbApiExecuteSql_opens disk ctx sql⟩
  · intro sql state faults db h
    exact openedBy_inText h faults db
  · intro disk dbDir sqlFile buffer
    exact ⟨main_erases disk dbDir sqlFile (some buffer), main_opens disk dbDir sqlFile buffer⟩
  · intro sql name h
    exact word_harmless h.1
  · intro dbDir name name' hne
    constructor
    · exact fun h => hne (TableCache.buildTablePath_inj h)
    · exact fun h => hne (TableCache.dataPath_inj h)

example : (dbApiExecuteSql (fun _ => none) (initExecutionContext (.lit "db"))
    (.lit "SELECT * FROM users WHERE name = '../secret'")).events =
      [⟨.lit "db/users.schema", .read⟩] := by decide +kernel

end FileAccess
