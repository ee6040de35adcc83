import ThreadedDb.SelectSpec
import ThreadedDb.InsertRows

/-!
# The database as its users see it

A table is its columns, its rows in the order of insertion and, with an `id` column, the number of
the next row. There are no files, no cache and no index: a statement answers from the table that it
names, and an INSERT adds one row to it.
-/
namespace RelationalModel

open ByteText
open SchemaModel
open StorageModel
open StorageRoundTrip
open SqlFrontEnd
open RuntimeModel
open IndexBuild
open ExecutorModel
open StatementRuns
open SelectSpec
open InsertRows
open CheckedArray (bind_eq_ok)

/-- `rows` is `none` where a line of the file is no row: such a table takes rows and returns
none. -/
structure Table where
  schema : TableSchema
  rows : Option (List Row)
  nextId : Option ℕ

abbrev Database := CString → Except StatusCode Table

instance (schema : TableSchema) (stmt : InsertStatement) : Decidable (Admissible schema stmt) :=
  inferInstanceAs (Decidable ((_ ∧ _) ∨ (_ ∧ _ ∧ _ ∧ _ ∧ _)))

def idLimit : ℕ := 2 ^ 64

def Table.HasRoom (t : Table) : Prop := t.nextId ≠ some idLimit

instance (t : Table) : Decidable t.HasRoom := inferInstanceAs (Decidable (_ ≠ _))

/-- The row that an INSERT adds. It has the values of the statement, but for one carriage return at
the end of its last value, which no table keeps. -/
def Table.rowFor (t : Table) (stmt : InsertStatement) : Row :=
  storedRow (expectedRow t.schema stmt (UInt64.ofNat (t.nextId.getD 0)))

def Table.insert (t : Table) (stmt : InsertStatement) : Table × Except StatusCode ExecResult :=
  if Admissible t.schema stmt ∧ t.HasRoom then
    ({ t with rows := t.rows.map (· ++ [t.rowFor stmt]), nextId := t.nextId.map (· + 1) },
      .ok (insertResult (t.nextId.map UInt64.ofNat)))
  else (t, .error .execError)

/-- The query names some columns, and only columns that the table has. -/
structure Sensible (schema : TableSchema) (stmt : SelectStatement) : Prop where
  some_column : stmt.selectAll = true ∨ stmt.columns ≠ []
  known : stmt.selectAll = true ∨ ∀ c ∈ stmt.columns, c ∈ schema.columns
  known_where : ∀ clause ∈ stmt.whereClause, clause.columnName ∈ schema.columns

instance (schema : TableSchema) (stmt : SelectStatement) : Decidable (Sensible schema stmt) :=
  decidable_of_iff ((stmt.selectAll = true ∨ stmt.columns ≠ []) ∧
    (stmt.selectAll = true ∨ ∀ c ∈ stmt.columns, c ∈ schema.columns) ∧
    ∀ clause ∈ stmt.whereClause, clause.columnName ∈ schema.columns)
    ⟨fun h => ⟨h.1, h.2.1, h.2.2⟩, fun h => ⟨h.some_column, h.known, h.known_where⟩⟩

def answerRows (schema : TableSchema) (stmt : SelectStatement) (rows : List Row) : List Row :=
  (rows.filter (fun row => Wanted schema stmt row)).map (fun row =>
    (queriedColumns schema stmt).map (fun c => (fieldOf schema row c).getD .empty))

def Table.ById (t : Table) (stmt : SelectStatement) : Bool :=
  t.nextId.isSome && stmt.whereClause.any (fun clause =>
    clause.columnName = idName && (tryParseIndexableIdLiteral clause.value).isSome)

def Table.select (t : Table) (stmt : SelectStatement) : Except StatusCode ExecResult :=
  if Sensible t.schema stmt then
    match t.rows with
    | none => .error .storageError
    | some rows =>
      .ok ⟨.select, (answerRows t.schema stmt rows).length,
        ⟨queriedColumns t.schema stmt, answerRows t.schema stmt rows⟩, t.ById stmt, none⟩
  else .error .execError

def statement (db : Database) : Statement → Database × Except StatusCode ExecResult
  | .insert stmt =>
    match db stmt.tableName with
    | .error status => (db, .error status)
    | .ok t => (Function.update db stmt.tableName (.ok (t.insert stmt).1), (t.insert stmt).2)
  | .select stmt => (db, (db stmt.tableName).bind (Table.select · stmt))

theorem select_tabular {t : Table} {stmt : SelectStatement} {result : ExecResult}
    (h : t.select stmt = .ok result) : Tabular result := by
  unfold Table.select at h
  split at h
  · split at h
    · cases h
    · cases h
      intro _ row hrow
      obtain ⟨r, -, rfl⟩ := List.mem_map.mp hrow
      exact List.length_map _
  · cases h

theorem insert_tabular {t : Table} {stmt : InsertStatement} {result : ExecResult}
    (h : (t.insert stmt).2 = .ok result) : Tabular result := by
  unfold Table.insert at h
  split at h
  · cases h
    intro htype
    cases htype
  · cases h

theorem statement_tabular {db : Database} {stmt : Statement} {result : ExecResult}
    (h : (statement db stmt).2 = .ok result) : Tabular result := by
  cases stmt with
  | insert stmt =>
    cases hdb : db stmt.tableName with
    | error status =>
      simp only [statement, hdb] at h
      cases h
    | ok t =>
      simp only [statement, hdb] at h
      exact insert_tabular h
  | select stmt =>
    obtain ⟨t, -, h⟩ := bind_eq_ok.mp h
    exact select_tabular h

/-- The table in the files of a directory. With an `id` column the stored ids have to be distinct,
and below the last possible one. -/
def openTable (disk : Disk) (dbDir name : CString) : Except StatusCode Table :=
  match loadTableSchema name (disk (schemaPath dbDir name)) with
  | .error _ => .error .schemaError
  | .ok schema =>
    let stored := decodeFile schema.columnCount (file disk dbDir name)
    match schemaFindColumnIndex schema idName with
    | none => .ok ⟨schema, stored.map (List.map Prod.snd), none⟩
    | some i =>
      match stored.bind (idEntries i) with
      | none => .error .indexError
      | some entries =>
        let ids := entries.map Prod.fst
        if ids.Nodup ∧ maxId ids + 1 ≠ 0 then
          .ok ⟨schema, stored.map (List.map Prod.snd), some ((maxId ids).toNat + 1)⟩
        else .error .indexError

end RelationalModel
