import ThreadedDb.ExecutorModel

/-!
# The request handler

`db_api_execute_sql` of `db_api.c` with the writer of `json_writer.c`: what it checks before it
takes the lock, its locked sections, and its responses. The writer functions are given by the
bytes that they append to the buffer.
-/
namespace DbApiModel

open ByteText
open SchemaModel
open StorageModel
open SqlFrontEnd
open RuntimeModel
open ExecutorModel
open CheckedArray (Checked)

def hexDigit (d : ℕ) : UInt8 := if d < 10 then digit d else UInt8.ofNat (87 + d)

theorem hexDigit_ne_zero {d : ℕ} (h : d < 16) : hexDigit d ≠ 0 := by
  interval_cases d <;> decide

/-- One byte inside a quoted string; `%04x` of a control byte starts with two zeros. -/
def jsonEscapeByte (ch : UInt8) : Bytes :=
  if ch = 34 then ascii "\\\""
  else if ch = 92 then ascii "\\\\"
  else if ch = 10 then ascii "\\n"
  else if ch = 13 then ascii "\\r"
  else if ch = 9 then ascii "\\t"
  else if ch < 32 then ascii "\\u00" ++ [hexDigit (ch.toNat / 16), hexDigit (ch.toNat % 16)]
  else [ch]

def jsonAppendEscapedString (text : CString) : Bytes :=
  34 :: text.bytes.flatMap jsonEscapeByte ++ [34]

def appendSizeValue (value : ℕ) : Bytes := decimalBytes value

def appendU64Value (value : UInt64) : Bytes := decimalBytes value.toNat

def appendBoolValue (value : Bool) : Bytes := ascii (if value then "true" else "false")

def jsonArray (items : List Bytes) : Bytes := ascii "[" ++ List.intercalate [44] items ++ ascii "]"

def appendColumnsJson (result : QueryResult) : Bytes :=
  jsonArray (result.columns.map jsonAppendEscapedString)

/-- The first `columnCount` values of a row; a row with fewer is read past its end. -/
def rowValuesJson : ℕ → Row → Checked (List Bytes)
  | 0, _ => .ok []
  | _ + 1, [] => .error .outOfBounds
  | columnCount + 1, value :: values => do
    let rest ← rowValuesJson columnCount values
    .ok (jsonAppendEscapedString value :: rest)

def rowsJson (columnCount : ℕ) : List Row → Checked (List Bytes)
  | [] => .ok []
  | row :: rows => do
    let values ← rowValuesJson columnCount row
    let rest ← rowsJson columnCount rows
    .ok (jsonArray values :: rest)

def appendRowsJson (result : QueryResult) : Checked Bytes := do
  let rows ← rowsJson result.columns.length result.rows
  .ok (jsonArray rows)

def makeSuccessJson (result : ExecResult) : Checked Bytes :=
  match result.type with
  | .select => do
    let rows ← appendRowsJson result.queryResult
    .ok (ascii "\x7b\"success\":true,\"type\":\"select\",\"used_index\":" ++
      appendBoolValue result.usedIndex ++
      ascii ",\"row_count\":" ++ appendSizeValue result.queryResult.rows.length ++
      ascii ",\"columns\":" ++ appendColumnsJson result.queryResult ++
      ascii ",\"rows\":" ++ rows ++ ascii "\x7d")
  | .insert =>
    .ok (ascii "\x7b\"success\":true,\"type\":\"insert\",\"affected_rows\":" ++
      appendSizeValue result.affectedRows ++
      (match result.generatedId with
        | some id => ascii ",\"generated_id\":" ++ appendU64Value id
        | none => []) ++
      ascii "\x7d")

def makeErrorJson (errorCode message : CString) : Bytes :=
  ascii "\x7b\"success\":false,\"error_code\":" ++ jsonAppendEscapedString errorCode ++
    ascii ",\"message\":" ++ jsonAppendEscapedString message ++ ascii "\x7d"

structure ApiResponse where
  status : StatusCode
  httpStatus : ℕ
  json : Bytes
  deriving DecidableEq

def mapEngineStatus : StatusCode → ℕ × CString
  | .lexError => (400, .lit "SQL_PARSE_ERROR")
  | .parseError => (400, .lit "SQL_PARSE_ERROR")
  | .schemaError => (400, .lit "SCHEMA_ERROR")
  | .execError => (400, .lit "EXECUTION_ERROR")
  | .storageError => (500, .lit "STORAGE_ERROR")
  | .indexError => (500, .lit "INDEX_ERROR")
  | _ => (500, .lit "INTERNAL_ERROR")

def messageOr (fallback message : CString) : CString :=
  if message.bytes = [] then fallback else message

def requestError (status : StatusCode) (errorCode message : CString) : ApiResponse :=
  ⟨status, 400, makeErrorJson errorCode message⟩

def engineErrorResponse (fallback : CString) (e : EngineError) : ApiResponse :=
  let (httpStatus, errorCode) := mapEngineStatus e.status
  ⟨e.status, httpStatus, makeErrorJson errorCode (messageOr fallback e.message)⟩

def preloadErrorResponse : EngineError → ApiResponse :=
  engineErrorResponse (.lit "failed to preload table runtime")

def executedResponse (out : Except EngineError ExecResult) : Checked ApiResponse :=
  match out with
  | .error e => .ok (engineErrorResponse (.lit "sql execution failed") e)
  | .ok result => do
    let json ← makeSuccessJson result
    .ok ⟨.ok, 200, json⟩

def emptyQuery : ApiResponse :=
  requestError .invalidArgs (.lit "EMPTY_QUERY") (.lit "sql query is empty")

def unsupportedQuery : ApiResponse :=
  requestError .invalidArgs (.lit "UNSUPPORTED_QUERY") (.lit "only SELECT and INSERT are supported")

def multiStatement : ApiResponse :=
  requestError .invalidArgs (.lit "MULTI_STATEMENT_NOT_ALLOWED")
    (.lit "only one SQL statement is allowed")

/-- The part of `db_api_execute_sql` before its locked sections: the one statement of the
request, or the response that turns it down. -/
def gate (sql : CString) : Checked (Except ApiResponse Statement) :=
  if sql.trim.bytes = [] then .ok (.error emptyQuery)
  else
    match tokenizeSql sql.trim with
    | .error message =>
      .ok (.error (requestError .lexError (.lit "SQL_PARSE_ERROR")
        (messageOr (.lit "failed to tokenize sql") message)))
    | .ok tokens =>
      match tokens[skipSemicolons tokens 0]? with
      | none => .ok (.error emptyQuery)
      | some token =>
        if token.type = .eof then .ok (.error emptyQuery)
        else if token.type ≠ .select ∧ token.type ≠ .insert then .ok (.error unsupportedQuery)
        else do
          match ← parseNextStatement tokens (skipSemicolons tokens 0) with
          | (.error message, _) =>
            .ok (.error (requestError .parseError (.lit "SQL_PARSE_ERROR")
              (messageOr (.lit "failed to parse sql statement") message)))
          | (.ok stmt, cursor) =>
            if atEnd tokens (skipSemicolons tokens cursor) then .ok (.ok stmt)
            else .ok (.error multiStatement)

/-- A call on its own. A SELECT gives the lock up between loading its table and reading. -/
def dbApiExecuteSql (disk : Disk) (ctx : ExecutionContext) (sql : CString) :
    Checked (Disk × ExecutionContext × ApiResponse) := do
  match ← gate sql with
  | .error response => .ok (disk, ctx, response)
  | .ok (.select stmt) => do
    let (disk, ctx, preloaded) ← runtimePreloadTable disk ctx stmt.tableName
    match preloaded with
    | .error e => .ok (disk, ctx, preloadErrorResponse e)
    | .ok _ => do
      let (disk, ctx, out) ← executeStatement noFaults disk ctx (.select stmt)
      let response ← executedResponse out
      .ok (disk, ctx, response)
  | .ok (.insert stmt) => do
    let (disk, ctx, out) ← executeStatement noFaults disk ctx (.insert stmt)
    let response ← executedResponse out
    .ok (disk, ctx, response)

def runCalls (disk : Disk) (ctx : ExecutionContext) :
    List CString → Checked (Disk × ExecutionContext × List ApiResponse)
  | [] => .ok (disk, ctx, [])
  | sql :: rest => do
    let (disk, ctx, response) ← dbApiExecuteSql disk ctx sql
    let (disk, ctx, responses) ← runCalls disk ctx rest
    .ok (disk, ctx, response :: responses)

end DbApiModel
