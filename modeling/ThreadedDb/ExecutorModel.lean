import ThreadedDb.RuntimeModel

/-!
# The executor

`executor.c`: INSERT with and without a generated id, SELECT through the id index or a full
scan. A statement works on the files and the cache and returns both, whether it succeeds or
not. An INSERT can fail while it appends or while it allocates an index node.
-/
namespace ExecutorModel

open ByteText
open SchemaModel
open StorageModel
open SqlFrontEnd
open BPTreeHeap
open RuntimeModel
open CheckedArray (Checked)

structure QueryResult where
  columns : List CString
  rows : List Row
  deriving DecidableEq

inductive ExecResultType where
  | insert
  | select
  deriving DecidableEq

structure ExecResult where
  type : ExecResultType
  affectedRows : ℕ
  queryResult : QueryResult
  usedIndex : Bool
  generatedId : Option UInt64
  deriving DecidableEq

def Rectangular (result : QueryResult) : Prop :=
  ∀ row ∈ result.rows, row.length = result.columns.length

def Tabular (result : ExecResult) : Prop := result.type = .select → Rectangular result.queryResult

def execError (message : CString) : EngineError := ⟨.execError, setError message⟩

def translateModuleStatus (mappedStatus : StatusCode) (label : CString) (e : EngineError) :
    EngineError where
  status := mappedStatus
  message :=
    if e.message.bytes = [] then setError label
    else setError (label ++ .lit ": " ++ e.message)

/-- The loop over an explicit column list; `seen` holds the columns already set. -/
def placeNamedValues (schema : TableSchema) :
    List (CString × LiteralValue) → List ℕ → Row → Except EngineError Row
  | [], _, row => .ok row
  | (column, value) :: rest, seen, row =>
    match schemaFindColumnIndex schema column with
    | none => .error (execError (.lit "EXEC ERROR: unknown column " ++ quoted column))
    | some i =>
      if i ∈ seen then .error (execError (.lit "EXEC ERROR: duplicate column " ++ quoted column))
      else placeNamedValues schema rest (i :: seen) (row.set i value.text)

def columnValueMismatch (stmt : InsertStatement) : EngineError :=
  execError (.lit "EXEC ERROR: column count " ++ decimal stmt.columns.length ++
    .lit " does not match value count " ++ decimal stmt.values.length)

def buildInsertRowExistingBehavior (schema : TableSchema) (stmt : InsertStatement) :
    Except EngineError Row :=
  if stmt.columns = [] then
    if stmt.values.length ≠ schema.columnCount then
      .error (execError (.lit "EXEC ERROR: expected " ++ decimal schema.columnCount ++
        .lit " values but got " ++ decimal stmt.values.length))
    else .ok (stmt.values.map LiteralValue.text)
  else if stmt.columns.length ≠ stmt.values.length then .error (columnValueMismatch stmt)
  else
    placeNamedValues schema (stmt.columns.zip stmt.values) []
      (List.replicate schema.columnCount .empty)

/-- The loop of `validate_insert_columns_for_auto_id` over the column list. -/
def checkAutoIdColumns (schema : TableSchema) (idColumnIndex : ℕ) :
    List CString → List ℕ → Except EngineError Unit
  | [], _ => .ok ()
  | column :: rest, seen =>
    match schemaFindColumnIndex schema column with
    | none => .error (execError (.lit "EXEC ERROR: unknown column " ++ quoted column))
    | some i =>
      if i = idColumnIndex then
        .error (execError (.lit "EXEC ERROR: explicit 'id' values are not allowed"))
      else if i ∈ seen then
        .error (execError (.lit "EXEC ERROR: duplicate column " ++ quoted column))
      else checkAutoIdColumns schema idColumnIndex rest (i :: seen)

def validateInsertColumnsForAutoId (table : TableRuntime) (stmt : InsertStatement) :
    Except EngineError Unit :=
  match table.idColumnIndex with
  | none => .ok ()
  | some idColumnIndex =>
    let nonIdColumnCount := table.schema.columnCount - 1
    if stmt.columns = [] then
      if stmt.values.length ≠ nonIdColumnCount then
        .error (execError (.lit "EXEC ERROR: expected " ++ decimal nonIdColumnCount ++
          .lit " values for auto-id insert but got " ++ decimal stmt.values.length))
      else .ok ()
    else if stmt.columns.length ≠ stmt.values.length then .error (columnValueMismatch stmt)
    else checkAutoIdColumns table.schema idColumnIndex stmt.columns []

/-- Values in schema order around the id column; running out of values reads past the array. -/
def placeOrderedValues (idColumnIndex : ℕ) : ℕ → Row → List LiteralValue → Checked Row
  | _, [], _ => .ok []
  | i, slot :: slots, values =>
    if i = idColumnIndex then do
      let rest ← placeOrderedValues idColumnIndex (i + 1) slots values
      .ok (slot :: rest)
    else
      match values with
      | [] => .error .outOfBounds
      | value :: values => do
        let rest ← placeOrderedValues idColumnIndex (i + 1) slots values
        .ok (value.text :: rest)

/-- The loop of `build_insert_row_with_generated_id` over the column list. -/
def placeAutoIdValues (schema : TableSchema) (idColumnIndex : ℕ) :
    List (CString × LiteralValue) → Row → Except EngineError Row
  | [], row => .ok row
  | (column, value) :: rest, row =>
    match schemaFindColumnIndex schema column with
    | none => .error (execError (.lit "EXEC ERROR: invalid auto-id insert column"))
    | some i =>
      if i = idColumnIndex then
        .error (execError (.lit "EXEC ERROR: invalid auto-id insert column"))
      else placeAutoIdValues schema idColumnIndex rest (row.set i value.text)

def buildInsertRowWithGeneratedId (table : TableRuntime) (stmt : InsertStatement)
    (generatedId : UInt64) : Checked (Except EngineError Row) :=
  match table.idColumnIndex with
  | none => .ok (.error (execError (.lit "EXEC ERROR: invalid generated-id row arguments")))
  | some idColumnIndex =>
    let row := (List.replicate table.schema.columnCount CString.empty).set idColumnIndex
      (decimal generatedId.toNat)
    if stmt.columns = [] then do
      let row ← placeOrderedValues idColumnIndex 0 row stmt.values
      .ok (.ok row)
    else .ok (placeAutoIdValues table.schema idColumnIndex (stmt.columns.zip stmt.values) row)

/-- `append` is the fault while the row is appended, `index` the allocations of the index. -/
structure InsertFaults where
  append : Option AppendFault
  index : AllocPlan

def noFaults : InsertFaults := ⟨none, []⟩

/-- The error of `get_or_load_table_runtime` as the executor returns it. -/
def translateLoadError (e : EngineError) : EngineError :=
  match e.status with
  | .schemaError => translateModuleStatus .schemaError (.lit "SCHEMA ERROR") e
  | .storageError => translateModuleStatus .storageError (.lit "STORAGE ERROR") e
  | .indexError => translateModuleStatus .indexError (.lit "INDEX ERROR") e
  | _ => e

def insertResult (generatedId : Option UInt64) : ExecResult :=
  ⟨.insert, 1, ⟨[], []⟩, false, generatedId⟩

def insertWithGeneratedId (faults : InsertFaults) (disk : Disk) (dbDir : CString)
    (table : TableRuntime) (stmt : InsertStatement) :
    Checked (Disk × TableRuntime × Except EngineError ExecResult) :=
  match validateInsertColumnsForAutoId table stmt with
  | .error e => .ok (disk, table, .error e)
  | .ok _ =>
    let generatedId := table.nextId
    if generatedId = 0 then
      .ok (disk, table, .error (execError (.lit "EXEC ERROR: auto-generated id overflow")))
    else do
      let built ← buildInsertRowWithGeneratedId table stmt generatedId
      match built with
      | .error e => .ok (disk, table, .error e)
      | .ok row =>
        match appendRowToTableWithOffset faults.append disk dbDir stmt.tableName row with
        | (disk, .error e) =>
          .ok (disk, table, .error (translateModuleStatus .storageError (.lit "STORAGE ERROR") e))
        | (disk, .ok rowOffset) => do
          let (tree, status) ← bptreeInsert faults.index table.idIndex generatedId rowOffset
          match status with
          | .error e =>
            .ok (disk, { table with idIndex := tree }, .error
              (translateModuleStatus .indexError (.lit "INDEX ERROR") ⟨.indexError, e.message⟩))
          | .ok _ =>
            .ok (disk,
              { table with idIndex := tree, nextId := table.nextId + 1, idIndexReady := true },
              .ok (insertResult (some generatedId)))

def insertExisting (faults : InsertFaults) (disk : Disk) (dbDir : CString) (table : TableRuntime)
    (stmt : InsertStatement) : Disk × Except EngineError ExecResult :=
  match buildInsertRowExistingBehavior table.schema stmt with
  | .error e => (disk, .error e)
  | .ok row =>
    match appendRowToTable faults.append disk dbDir stmt.tableName row with
    | (disk, .error e) =>
      (disk, .error (translateModuleStatus .storageError (.lit "STORAGE ERROR") e))
    | (disk, .ok _) => (disk, .ok (insertResult none))

abbrev Outcome := Checked (Disk × ExecutionContext × Except EngineError ExecResult)

def executeInsert (faults : InsertFaults) (disk : Disk) (ctx : ExecutionContext)
    (stmt : InsertStatement) : Outcome := do
  let (disk, ctx, loaded) ← getOrLoadTableRuntime disk ctx stmt.tableName
  match loaded with
  | .error e => .ok (disk, ctx, .error (translateLoadError e))
  | .ok i =>
    match ctx.tables[i]? with
    | none => .error .badPointer
    | some table =>
      if table.hasIdColumn then do
        let (disk, table, outcome) ← insertWithGeneratedId faults disk ctx.dbDir table stmt
        .ok (disk, { ctx with tables := ctx.tables.set i table }, outcome)
      else
        let (disk, outcome) := insertExisting faults disk ctx.dbDir table stmt
        .ok (disk, ctx, outcome)

def firstUnknownColumn (schema : TableSchema) : List CString → Option CString
  | [] => none
  | column :: rest =>
    match schemaFindColumnIndex schema column with
    | none => some column
    | some _ => firstUnknownColumn schema rest

def validateSelectColumns (schema : TableSchema) (stmt : SelectStatement) :
    Except EngineError Unit :=
  let unknown (column : CString) : Except EngineError Unit :=
    .error (execError (.lit "EXEC ERROR: unknown column " ++ quoted column))
  if stmt.selectAll = false ∧ stmt.columns = [] then
    .error (execError (.lit "EXEC ERROR: empty select column list"))
  else
    match (if stmt.selectAll then none else firstUnknownColumn schema stmt.columns) with
    | some column => unknown column
    | none =>
      match stmt.whereClause with
      | none => .ok ()
      | some clause =>
        match schemaFindColumnIndex schema clause.columnName with
        | none => unknown clause.columnName
        | some _ => .ok ()

def initializeQueryResultColumns (schema : TableSchema) (stmt : SelectStatement) : List CString :=
  if stmt.selectAll then schema.columns else stmt.columns

def rowMatchesWhereClause (stmt : SelectStatement) (whereIndex : Option ℕ) (row : Row) : Bool :=
  match stmt.whereClause with
  | none => true
  | some clause =>
    match whereIndex with
    | none => false
    | some i =>
      match row[i]? with
      | none => false
      | some value => value = clause.value.text

/-- The value of one projected column; a column the row does not have is empty. -/
def projectedValue (row : Row) (columnIndex : Option ℕ) : CString :=
  match columnIndex with
  | none => .empty
  | some i => row.getD i .empty

def projectSingleRow (schema : TableSchema) (stmt : SelectStatement) (row : Row) : Row :=
  if stmt.selectAll then (List.range schema.columnCount).map (fun i => projectedValue row (some i))
  else stmt.columns.map (fun column => projectedValue row (schemaFindColumnIndex schema column))

def selectFullScanCallback (schema : TableSchema) (stmt : SelectStatement)
    (whereIndex : Option ℕ) (rows : List Row) (row : Row) (_rowOffset : ℕ) :
    Checked (Signal (List Row)) :=
  if rowMatchesWhereClause stmt whereIndex row then
    .ok (.proceed (rows ++ [projectSingleRow schema stmt row]))
  else .ok (.proceed rows)

def canUseIdIndex (table : TableRuntime) (stmt : SelectStatement) : Option UInt64 :=
  if table.hasIdColumn = false ∨ table.idIndexReady = false then none
  else
    match stmt.whereClause with
    | none => none
    | some clause =>
      if clause.columnName ≠ .lit "id" then none
      else tryParseIndexableIdLiteral clause.value

abbrev Selected := Except EngineError (QueryResult × Bool)

def executeSelectWithIdIndex (disk : Disk) (dbDir : CString) (table : TableRuntime)
    (stmt : SelectStatement) (idKey : UInt64) : Checked Selected := do
  let columns := initializeQueryResultColumns table.schema stmt
  let searched ← bptreeSearch table.idIndex idKey
  match searched with
  | .error e =>
    .ok (.error (translateModuleStatus .indexError (.lit "INDEX ERROR") ⟨.indexError, e.message⟩))
  | .ok none => .ok (.ok (⟨columns, []⟩, true))
  | .ok (some rowOffset) =>
    match readRowAtOffset disk dbDir table.tableName rowOffset table.schema.columnCount with
    | .error e => .ok (.error (translateModuleStatus .storageError (.lit "STORAGE ERROR") e))
    | .ok row =>
      if rowMatchesWhereClause stmt table.idColumnIndex row then
        .ok (.ok (⟨columns, [projectSingleRow table.schema stmt row]⟩, true))
      else .ok (.ok (⟨columns, []⟩, true))

def executeSelectWithFullScan (disk : Disk) (dbDir : CString) (table : TableRuntime)
    (stmt : SelectStatement) : Checked Selected := do
  let columns := initializeQueryResultColumns table.schema stmt
  let whereIndex := stmt.whereClause.bind
    (fun clause => schemaFindColumnIndex table.schema clause.columnName)
  let scanned ← scanTableRowsWithOffsets disk dbDir table.tableName table.schema.columnCount
    (selectFullScanCallback table.schema stmt whereIndex) []
  match scanned with
  | .error e => .ok (.error (translateModuleStatus .storageError (.lit "STORAGE ERROR") e))
  | .ok rows => .ok (.ok (⟨columns, rows⟩, false))

def selectFrom (disk : Disk) (dbDir : CString) (table : TableRuntime) (stmt : SelectStatement) :
    Checked (Except EngineError ExecResult) :=
  match validateSelectColumns table.schema stmt with
  | .error e => .ok (.error e)
  | .ok _ => do
    let selected ← match canUseIdIndex table stmt with
      | some idKey => executeSelectWithIdIndex disk dbDir table stmt idKey
      | none => executeSelectWithFullScan disk dbDir table stmt
    match selected with
    | .error e => .ok (.error e)
    | .ok (result, usedIndex) =>
      .ok (.ok ⟨.select, result.rows.length, result, usedIndex, none⟩)

def executeSelect (disk : Disk) (ctx : ExecutionContext) (stmt : SelectStatement) : Outcome := do
  let (disk, ctx, loaded) ← getOrLoadTableRuntime disk ctx stmt.tableName
  match loaded with
  | .error e => .ok (disk, ctx, .error (translateLoadError e))
  | .ok i =>
    match ctx.tables[i]? with
    | none => .error .badPointer
    | some table => do
      let outcome ← selectFrom disk ctx.dbDir table stmt
      .ok (disk, ctx, outcome)

def executeStatement (faults : InsertFaults) (disk : Disk) (ctx : ExecutionContext)
    (stmt : Statement) : Outcome :=
  match stmt with
  | .insert stmt => executeInsert faults disk ctx stmt
  | .select stmt => executeSelect disk ctx stmt

end ExecutorModel
