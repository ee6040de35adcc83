import ThreadedDb.ByteText

/-!
# Table files and schemas

The files of one database directory, `read_line`, which `schema.c` and `storage.c` share word
for word, and `schema.c`. A file is named by its path; two paths are two files, as they are for
the table names that the parser produces. Files are read whole: nothing writes while a loop
reads.
-/
namespace SchemaModel

open ByteText

abbrev Disk := CString → Option Bytes

def needsSeparator (dbDir : CString) : Bool :=
  match dbDir.bytes.getLast? with
  | none => false
  | some b => b ≠ 47 && b ≠ 92

/-- `build_table_path`: directory, separator if it needs one, table name, suffix. -/
def buildTablePath (dbDir tableName suffix : CString) : CString :=
  dbDir ++ (if needsSeparator dbDir then .lit "/" else .empty) ++ tableName ++ suffix

def dataPath (dbDir tableName : CString) : CString := buildTablePath dbDir tableName (.lit ".data")
def schemaPath (dbDir tableName : CString) : CString :=
  buildTablePath dbDir tableName (.lit ".schema")

def stripCr (raw : Bytes) : Bytes := if raw.getLast? = some 13 then raw.dropLast else raw

/-- `read_line`: the next line and what follows it, nothing at the end of the file. The caller
sees the buffer as a C string. -/
def readLine (rest : Bytes) : Option (CString × Bytes) :=
  let raw := rest.takeWhile (· ≠ 10)
  if rest = [] then none
  else some (.ofBuffer (stripCr raw), rest.drop (raw.length + 1))

/-- The lines that repeated calls of `read_line` return, each with `ftell` before the call. -/
def readLines : ℕ → ℕ → Bytes → List (ℕ × CString)
  | 0, _, _ => []
  | rounds + 1, offset, rest =>
    match readLine rest with
    | none => []
    | some (line, rest') =>
      (offset, line) :: readLines rounds (offset + (rest.length - rest'.length)) rest'

def fileLines (file : Bytes) : List (ℕ × CString) := readLines (file.length + 1) 0 file

def trimInPlace (text : CString) : CString := text.trim

structure TableSchema where
  tableName : CString
  columns : List CString
  columns_nodup : columns.Nodup
  columns_ne_nil : columns ≠ []
  deriving DecidableEq

def TableSchema.columnCount (schema : TableSchema) : ℕ := schema.columns.length

def loadColumns (tableName : CString) :
    List (ℕ × CString) → { cs : List CString // cs.Nodup } →
      Except CString { cs : List CString // cs.Nodup }
  | [], columns => .ok columns
  | (_, line) :: rest, columns =>
    let text := trimInPlace line
    if text.bytes = [] then loadColumns tableName rest columns
    else if h : text ∈ columns.val then
      .error (setError (.lit "duplicate column '" ++ text ++ .lit "' in table '" ++ tableName ++
        .lit "'"))
    else
      loadColumns tableName rest
        ⟨columns.val ++ [text], by simpa using List.Nodup.concat h columns.property⟩

/-- `load_table_schema` on the contents of the schema file: the schema, or the error text. -/
def loadTableSchema (tableName : CString) (file : Option Bytes) : Except CString TableSchema :=
  match file with
  | none => .error (setError (.lit "table '" ++ tableName ++ .lit "' not found"))
  | some contents =>
    match loadColumns tableName (fileLines contents) ⟨[], List.nodup_nil⟩ with
    | .error message => .error message
    | .ok columns =>
      if h : columns.val = [] then
        .error (setError (.lit "table '" ++ tableName ++ .lit "' has no columns"))
      else .ok ⟨tableName, columns.val, columns.property, h⟩

/-- `schema_find_column_index`: the first column of that name; `-1` is `none`. -/
def schemaFindColumnIndex (schema : TableSchema) (columnName : CString) : Option ℕ :=
  schema.columns.findIdx? (· = columnName)

end SchemaModel
