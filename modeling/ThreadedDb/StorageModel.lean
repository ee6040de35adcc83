import ThreadedDb.SchemaModel
import ThreadedDb.CheckedArray

/-!
# Rows in the data file

`storage.c`: one escaped line for each row. Appending can fail at any of its calls; the fault
of a run says where, and how many of the bytes handed to the stream reached the file.
-/
namespace StorageModel

open ByteText
open SchemaModel
open CheckedArray (Checked)

abbrev Row := List CString

def escapeByte (b : UInt8) : Bytes :=
  if b = 92 then [92, 92]
  else if b = 124 then [92, 124]
  else if b = 10 then [92, 110]
  else [b]

def escapeField (value : CString) : Bytes := value.bytes.flatMap escapeByte

def unescapeBytes : Bytes → Option Bytes
  | [] => some []
  | b :: rest =>
    if b = 92 then
      match rest with
      | [] => none
      | c :: rest =>
        if c = 92 then (unescapeBytes rest).map (92 :: ·)
        else if c = 124 then (unescapeBytes rest).map (124 :: ·)
        else if c = 110 then (unescapeBytes rest).map (10 :: ·)
        else none
    else (unescapeBytes rest).map (b :: ·)

/-- `unescape_field`: nothing when an escape sequence is unknown or cut off. -/
def unescapeField (value : Bytes) : Option CString := (unescapeBytes value).map CString.ofBuffer

/-- `split_escaped_row` from one byte of the line on; `pending` is set after a backslash. -/
def splitFrom : Bytes → List CString → Bytes → Bool → Option (List CString)
  | [], fields, current, pending =>
    if pending then none else (unescapeField current).map (fun field => fields ++ [field])
  | b :: rest, fields, current, true => splitFrom rest fields (current ++ [b]) false
  | b :: rest, fields, current, false =>
    if b = 92 then splitFrom rest fields (current ++ [b]) true
    else if b = 124 then
      match unescapeField current with
      | none => none
      | some field => splitFrom rest (fields ++ [field]) [] false
    else splitFrom rest fields (current ++ [b]) false

def splitEscapedRow (line : CString) : Option (List CString) := splitFrom line.bytes [] [] false

def normalizeFieldCount (fields : List CString) (expectedCount : ℕ) : List CString :=
  fields.take expectedCount ++ List.replicate (expectedCount - fields.length) .empty

def parseLineIntoRow (line : CString) (expectedColumnCount : ℕ) : Option Row :=
  (splitEscapedRow line).map (normalizeFieldCount · expectedColumnCount)

def encodeFields : Row → Bytes
  | [] => []
  | [value] => escapeField value
  | value :: rest => escapeField value ++ 124 :: encodeFields rest

def encodeRow (row : Row) : Bytes := encodeFields row ++ [10]

/-- Where `ensure_table_data_file` fails; `reason` is the text of `strerror`. -/
inductive EnsureFault where
  | allocatePath
  | openFile (reason : CString)
  deriving DecidableEq

/-- Where `append_row_to_table_with_offset` fails. `persisted` counts the bytes that reached
the file before the stream was closed. -/
inductive AppendFault where
  | ensure (fault : EnsureFault)
  | allocatePath
  | reopen (reason : CString)
  | seekEnd
  | tell
  | escapeValue (i : ℕ) (persisted : ℕ)
  | writeValue (persisted : ℕ)
  | writeNewline (persisted : ℕ)
  | close (persisted : ℕ)
  deriving DecidableEq

def storageError (message : CString) : EngineError := ⟨.storageError, setError message⟩

def quoted (text : CString) : CString := .lit "'" ++ text ++ .lit "'"

/-- `ensure_table_data_file`: `fopen` in append mode creates the file. -/
def ensureTableDataFile (fault : Option EnsureFault) (disk : Disk)
    (dbDir tableName : CString) : Disk × Except EngineError Unit :=
  let path := dataPath dbDir tableName
  match fault with
  | some .allocatePath =>
    (disk, .error (storageError (.lit "failed to allocate data path for table " ++
      quoted tableName)))
  | some (.openFile reason) =>
    (disk, .error (storageError (.lit "failed to open data file " ++ quoted path ++ .lit ": " ++
      reason)))
  | none => (Function.update disk path (some ((disk path).getD [])), .ok ())

def AppendFault.atEnsure : AppendFault → Option EnsureFault
  | .ensure fault => some fault
  | _ => none

/-- The bytes that reach the file and the error, for a fault after the file is there. -/
def AppendFault.written (row : Row) (path tableName : CString) :
    AppendFault → Bytes × CString
  | .escapeValue i persisted => ((encodeFields (row.take i)).take persisted,
      .lit "failed to escape row value for table " ++ quoted tableName)
  | .writeValue persisted => ((encodeFields row).take persisted,
      .lit "failed to write row data to " ++ quoted path)
  | .writeNewline persisted => ((encodeFields row).take persisted,
      .lit "failed to terminate row in " ++ quoted path)
  | .close persisted => ((encodeRow row).take persisted,
      .lit "failed to finalize data file " ++ quoted path)
  | .seekEnd => ([], .lit "failed to seek to end of " ++ quoted path)
  | .tell => ([], .lit "failed to determine row offset in " ++ quoted path)
  | .reopen reason => ([], .lit "failed to append data file " ++ quoted path ++ .lit ": " ++ reason)
  | .allocatePath => ([], .lit "failed to allocate data path for table " ++ quoted tableName)
  | .ensure _ => ([], .empty)

/-- `append_row_to_table_with_offset`: the offset is the length of the file before. -/
def appendRowToTableWithOffset (fault : Option AppendFault) (disk : Disk)
    (dbDir tableName : CString) (row : Row) : Disk × Except EngineError ℕ :=
  if row = [] then
    (disk, .error (storageError (.lit "cannot append an empty row to table " ++ quoted tableName)))
  else
    match ensureTableDataFile (fault.bind AppendFault.atEnsure) disk dbDir tableName with
    | (disk, .error e) => (disk, .error e)
    | (disk, .ok _) =>
      let path := dataPath dbDir tableName
      let old := (disk path).getD []
      match fault with
      | none => (Function.update disk path (some (old ++ encodeRow row)), .ok old.length)
      | some f =>
        let (bytes, message) := f.written row path tableName
        (Function.update disk path (some (old ++ bytes)), .error (storageError message))

def appendRowToTable (fault : Option AppendFault) (disk : Disk) (dbDir tableName : CString)
    (row : Row) : Disk × Except EngineError Unit :=
  match appendRowToTableWithOffset fault disk dbDir tableName row with
  | (disk, .error e) => (disk, .error e)
  | (disk, .ok _) => (disk, .ok ())

/-- What a scan callback returns: 0, 1, or -1 with the error text it left. -/
inductive Signal (σ : Type) where
  | proceed (state : σ)
  | stop (state : σ)
  | fail (message : CString)

/-- The loop of `scan_table_rows_with_offsets`, from line `lineNumber + 1` on. -/
def scanLines {σ : Type} (tableName : CString) (expectedColumnCount : ℕ)
    (callback : σ → Row → ℕ → Checked (Signal σ)) :
    List (ℕ × CString) → ℕ → σ → Checked (Except EngineError σ)
  | [], _, state => .ok (.ok state)
  | (offset, line) :: rest, lineNumber, state =>
    match parseLineIntoRow line expectedColumnCount with
    | none =>
      .ok (.error (storageError (.lit "malformed row " ++ decimal (lineNumber + 1) ++
        .lit " in table " ++ quoted tableName)))
    | some row => do
      let signal ← callback state row offset
      match signal with
      | .proceed state => scanLines tableName expectedColumnCount callback rest (lineNumber + 1) state
      | .stop state => .ok (.ok state)
      | .fail message =>
        if message.bytes = [] then
          .ok (.error (storageError (.lit "row scan callback failed for table " ++
            quoted tableName)))
        else .ok (.error ⟨.storageError, message⟩)

/-- `scan_table_rows_with_offsets`; a missing file is scanned as an empty one. -/
def scanTableRowsWithOffsets {σ : Type} (disk : Disk) (dbDir tableName : CString)
    (expectedColumnCount : ℕ) (callback : σ → Row → ℕ → Checked (Signal σ)) (state : σ) :
    Checked (Except EngineError σ) :=
  match disk (dataPath dbDir tableName) with
  | none => .ok (.ok state)
  | some file => scanLines tableName expectedColumnCount callback (fileLines file) 0 state

def readRowAtOffset (disk : Disk) (dbDir tableName : CString) (rowOffset : Int)
    (expectedColumnCount : ℕ) : Except EngineError Row :=
  let path := dataPath dbDir tableName
  if rowOffset < 0 then .error (storageError (.lit "invalid row offset read arguments"))
  else
    match disk path with
    | none =>
      .error (storageError (.lit "failed to open data file " ++ quoted path ++
        .lit ": No such file or directory"))
    | some file =>
      match readLine (file.drop rowOffset.toNat) with
      | none =>
        .error (storageError (.lit "failed to read row at offset " ++ decimal rowOffset.toNat ++
          .lit " in " ++ quoted path))
      | some (line, _) =>
        match parseLineIntoRow line expectedColumnCount with
        | none =>
          .error (storageError (.lit "malformed row at offset " ++ decimal rowOffset.toNat ++
            .lit " in table " ++ quoted tableName))
        | some row => .ok row

def readAllRowsCallback (rows : List Row) (row : Row) (_rowOffset : ℕ) :
    Checked (Signal (List Row)) := .ok (.proceed (rows ++ [row]))

def readAllRowsFromTable (disk : Disk) (dbDir tableName : CString) (expectedColumnCount : ℕ) :
    Checked (Except EngineError (List Row)) :=
  scanTableRowsWithOffsets disk dbDir tableName expectedColumnCount readAllRowsCallback []

end StorageModel
