import ThreadedDb.StorageModel
import ThreadedDb.BPTreeHeap
import ThreadedDb.SqlFrontEnd

/-!
# Cached table runtimes

`runtime.c`: reading ids, building the id index from the data file, and the cache of loaded
tables. No call of this module fails on an allocation or on opening a file here; a pointer to a
cached table is its position in the cache.
-/
namespace RuntimeModel

open ByteText
open SchemaModel
open StorageModel
open SqlFrontEnd
open BPTreeHeap
open CheckedArray (Checked)

def uint64Max : ℕ := 2 ^ 64 - 1

/-- The loop of `parse_canonical_positive_uint64`: digits, with the check that the next value
still fits. -/
def parseDigits : Bytes → ℕ → Option ℕ
  | [], value => some value
  | b :: rest, value =>
    if b < 48 ∨ 57 < b then none
    else
      let digit := b.toNat - 48
      if (uint64Max - digit) / 10 < value then none
      else parseDigits rest (value * 10 + digit)

def parseCanonicalPositiveUInt64 (text : CString) : Option UInt64 :=
  match text.bytes with
  | [] => none
  | b :: rest =>
    if b = 48 then none
    else
      match parseDigits (b :: rest) 0 with
      | none => none
      | some value => if value = 0 then none else some (UInt64.ofNat value)

def parseStoredIdValue (text : CString) : Except CString UInt64 :=
  match parseCanonicalPositiveUInt64 text with
  | none => .error (setError (.lit "INDEX ERROR: invalid stored id " ++ quoted text))
  | some id => .ok id

def tryParseIndexableIdLiteral (literal : LiteralValue) : Option UInt64 :=
  parseCanonicalPositiveUInt64 literal.text

structure IdIndexBuildState where
  tree : BPTree
  maxId : UInt64
  sawRow : Bool

def buildIdIndexCallback (idColumnIndex : ℕ) (state : IdIndexBuildState) (row : Row)
    (rowOffset : ℕ) : Checked (Signal IdIndexBuildState) :=
  match row[idColumnIndex]? with
  | none => .ok (.fail (.lit "INDEX ERROR: missing stored id value"))
  | some text =>
    match parseStoredIdValue text with
    | .error message => .ok (.fail message)
    | .ok currentId => do
      let (tree, status) ← bptreeInsert [] state.tree currentId rowOffset
      match status with
      | .error e =>
        .ok (.fail (if e.message.bytes = [] then
          setError (.lit "INDEX ERROR: duplicate stored id " ++ decimal currentId.toNat)
        else e.message))
      | .ok _ =>
        .ok (.proceed
          { tree := tree
            maxId := if !state.sawRow || state.maxId < currentId then currentId else state.maxId
            sawRow := true })

def indexError (message : CString) : EngineError := ⟨.indexError, message⟩

def buildIdIndexForTable (disk : Disk) (dbDir : CString) (schema : TableSchema)
    (idColumnIndex : ℕ) : Checked (Except EngineError (BPTree × UInt64)) := do
  let scanned ← scanTableRowsWithOffsets disk dbDir schema.tableName schema.columnCount
    (buildIdIndexCallback idColumnIndex) ⟨bptreeInit, 0, false⟩
  match scanned with
  | .error e => .ok (.error (indexError e.message))
  | .ok state =>
    if !state.sawRow then .ok (.ok (state.tree, 1))
    else if state.maxId.toNat = uint64Max then
      .ok (.error (indexError (.lit "INDEX ERROR: next id would overflow")))
    else .ok (.ok (state.tree, state.maxId + 1))

/-- `id_column_index` is `none` where the source has `-1`; `has_id_column` says which. -/
structure TableRuntime where
  tableName : CString
  schema : TableSchema
  idColumnIndex : Option ℕ
  idIndexReady : Bool
  nextId : UInt64
  idIndex : BPTree
  deriving DecidableEq

def TableRuntime.hasIdColumn (table : TableRuntime) : Bool := table.idColumnIndex.isSome

structure ExecutionContext where
  dbDir : CString
  tables : List TableRuntime
  tableCapacity : ℕ
  deriving DecidableEq

def initExecutionContext (dbDir : CString) : ExecutionContext := ⟨dbDir, [], 0⟩

def loadTableRuntime (disk : Disk) (dbDir tableName : CString) :
    Checked (Disk × Except EngineError TableRuntime) :=
  match loadTableSchema tableName (disk (schemaPath dbDir tableName)) with
  | .error message => .ok (disk, .error ⟨.schemaError, message⟩)
  | .ok schema =>
    match ensureTableDataFile none disk dbDir tableName with
    | (disk, .error e) => .ok (disk, .error e)
    | (disk, .ok _) =>
      match schemaFindColumnIndex schema (.lit "id") with
      | none => .ok (disk, .ok ⟨tableName, schema, none, false, 0, bptreeInit⟩)
      | some idColumnIndex => do
        let built ← buildIdIndexForTable disk dbDir schema idColumnIndex
        match built with
        | .error e => .ok (disk, .error e)
        | .ok (tree, nextId) =>
          .ok (disk, .ok ⟨tableName, schema, some idColumnIndex, true, nextId, tree⟩)

def ExecutionContext.push (ctx : ExecutionContext) (table : TableRuntime) : ExecutionContext where
  dbDir := ctx.dbDir
  tables := ctx.tables ++ [table]
  tableCapacity :=
    if ctx.tables.length = ctx.tableCapacity then
      if ctx.tableCapacity = 0 then 4 else ctx.tableCapacity * 2
    else ctx.tableCapacity

/-- `get_or_load_table_runtime`: the position of the table in the cache. -/
def getOrLoadTableRuntime (disk : Disk) (ctx : ExecutionContext) (tableName : CString) :
    Checked (Disk × ExecutionContext × Except EngineError ℕ) :=
  match ctx.tables.findIdx? (·.tableName = tableName) with
  | some i => .ok (disk, ctx, .ok i)
  | none => do
    let (disk, loaded) ← loadTableRuntime disk ctx.dbDir tableName
    match loaded with
    | .error e => .ok (disk, ctx, .error e)
    | .ok table => .ok (disk, ctx.push table, .ok ctx.tables.length)

def runtimePreloadTable (disk : Disk) (ctx : ExecutionContext) (tableName : CString) :
    Checked (Disk × ExecutionContext × Except EngineError Unit) := do
  let (disk, ctx, outcome) ← getOrLoadTableRuntime disk ctx tableName
  .ok (disk, ctx, outcome.map (fun _ => ()))

end RuntimeModel
