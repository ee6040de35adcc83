import ThreadedDb.IndexCoherence

/-!
# What one INSERT does to the data file

An INSERT that succeeds adds one row behind the others exactly when the file ends at a line end:
otherwise its row continues the last line. An INSERT that fails never moves the counter, but
there is no rollback: what reached the file stays there, and a failed index insertion leaves the
row without an entry.
-/
namespace InsertEffects

open ByteText
open SchemaModel
open StorageModel
open StorageRoundTrip
open LineFraming (Terminated)
open LabelledBPlusTree (lookup_insertEntry)
open SqlFrontEnd
open BPTreeHeap
open BPTreeMap
open RuntimeModel
open ExecutorModel
open TableCache
open InsertSpec
open StatementRuns
open IndexCoherence
open CheckedArray (ok_bind bind_eq_ok)

/-- The scan delivers the rows from before and one more, at the offset in the index. -/
def AddsOneRow (disk : Disk) (dbDir : CString) (table : TableRuntime) (result : ExecResult)
    (rows : List (ℕ × Row)) : Prop :=
  ∃ (o : ℕ) (row : Row), deliveredRows disk dbDir table.tableName table.schema.columnCount =
      .ok (.ok (rows ++ [(o, row)])) ∧
    (table.hasIdColumn = true → ∃ k, result.generatedId = some k ∧
      bptreeSearch table.idIndex k = .ok (.ok (some (o : Int))))

theorem inserted_found {table table' : TableRuntime} {row : Row} {offset : ℕ}
    {generatedId : Option UInt64} (hs : Sound table)
    (hins : Inserted table row offset table' generatedId) (hid : table'.hasIdColumn = true) :
    ∃ k, generatedId = some k ∧ bptreeSearch table'.idIndex k = .ok (.ok (some (offset : Int))) := by
  rw [TableRuntime.hasIdColumn, hins.keeps.2.2] at hid
  obtain ⟨i, hi⟩ := Option.isSome_iff_exists.mp hid
  obtain ⟨hnext, hgen, -, tree, htree, rfl⟩ := hins.generated i hi
  obtain ⟨es, hd, -⟩ := hs.index
  have hnew := hs.next_fresh hnext hd
  obtain ⟨tree', htree', hd'⟩ := bptreeInsert_fresh hd hnew (offset : Int)
  rw [htree] at htree'
  cases htree'
  refine ⟨table.nextId, hgen, ?_⟩
  change bptreeSearch tree table.nextId = _
  rw [bptreeSearch_lookup hd', lookup_insertEntry hnew, if_pos rfl]

/-- In any state that a run from a fresh context reaches, whatever the files hold: an INSERT
that succeeds adds exactly one row to the ones the scan delivers, exactly when the data file was
missing, empty or ended with a newline. -/
theorem insert_adds_one_row_iff (disk : Disk) (dbDir : CString) (stmts : List Statement)
    {disk' disk'' : Disk} {ctx' ctx'' : ExecutionContext}
    {outs : List (Except EngineError ExecResult)} {stmt : InsertStatement} {result : ExecResult}
    {table : TableRuntime} {rows : List (ℕ × Row)}
    (hrun : runStatements disk (initExecutionContext dbDir) stmts = .ok (disk', ctx', outs))
    (hexec : executeStatement noFaults disk' ctx' (.insert stmt) =
      .ok (disk'', ctx'', .ok result))
    (htable : cached ctx'' stmt.tableName = some table)
    (hrows : deliveredRows disk' dbDir stmt.tableName table.schema.columnCount = .ok (.ok rows)) :
    AddsOneRow disk'' dbDir table result rows ↔ Terminated 10 (file disk' dbDir stmt.tableName) := by
  obtain ⟨d, c, o, hrun', hsound, hdir⟩ := run_invariant
    (fun _ ctx => SoundContext ctx ∧ ctx.dbDir = dbDir) (fun _ _ h => h.1)
    (fun _ _ _ _ _ _ h heffect => ⟨effect_sound heffect h.1, (effect_dbDir heffect).trans h.2⟩)
    stmts disk (initExecutionContext dbDir) ⟨sound_init dbDir, rfl⟩
  rw [hrun] at hrun'
  cases hrun'
  have heffect := effect_of_execute hsound hexec
  generalize hstmt : Statement.insert stmt = s at heffect
  generalize hout : (Except.ok result : Except EngineError ExecResult) = out at heffect
  cases heffect with
  | loadFailed _ hresolve => cases hout
  | rejected _ hresolve hreject => cases hout
  | selected _ hresolve hselect => cases hstmt
  | @inserted _ disk₁ table₀ table' row generatedId hresolve hins =>
    cases hstmt
    cases hout
    have hname : table'.tableName = stmt.tableName := hins.keeps.1.trans (resolve_name hresolve)
    rw [cached_remember, if_pos hname, Option.some.injEq] at htable
    subst htable
    have hlength : row.length = table'.schema.columnCount := by
      rw [hins.row_length, hins.keeps.2.1]
    rw [deliveredRows_iff] at hrows
    have hdec : decodeFile table'.schema.columnCount (file disk' dbDir stmt.tableName) =
      some rows := hrows
    have hfile : file disk₁ dbDir stmt.tableName = file disk' dbDir stmt.tableName :=
      resolve_file hresolve dbDir stmt.tableName
    rw [hdir, hfile] at hins ⊢
    constructor
    · rintro ⟨o, row', hdelivered, -⟩
      by_contra hterm
      rw [deliveredRows_iff, hname, Function.update_self, Option.getD_some] at hdelivered
      have := decodeFile_continue hterm hdec hdelivered
      simp at this
    · intro hterm
      refine ⟨(file disk' dbDir stmt.tableName).length, storedRow row, ?_,
        inserted_found (resolve_sound hsound hresolve) hins⟩
      rw [deliveredRows_iff, hname, Function.update_self, Option.getD_some]
      exact decodeFile_append hterm hdec (row_ne_nil hlength) hlength

def closedLineDisk : Disk := fun path =>
  if path = schemaPath (.lit "db") (.lit "users") then some (ascii "id\nname\n")
  else if path = dataPath (.lit "db") (.lit "users") then some (ascii "1|a\n")
  else none

theorem users_insert_adds_one_row :
    ∃ disk'' ctx'' result table,
      executeStatement noFaults closedLineDisk (initExecutionContext (.lit "db")) (.insert kim) =
        .ok (disk'', ctx'', .ok result) ∧
      cached ctx'' (.lit "users") = some table ∧
      deliveredRows closedLineDisk (.lit "db") (.lit "users") table.schema.columnCount =
        .ok (.ok [(0, [.lit "1", .lit "a"])]) ∧
      AddsOneRow disk'' (.lit "db") table result [(0, [.lit "1", .lit "a"])] := by
  have houtcome : (executeStatement noFaults closedLineDisk (initExecutionContext (.lit "db"))
      (.insert kim)).map (fun r => (r.2.2, (cached r.2.1 (.lit "users")).map
        (fun t => t.schema.columnCount))) = .ok (.ok (insertResult (some 2)), some 2) := by
    decide +kernel
  have hrows : deliveredRows closedLineDisk (.lit "db") (.lit "users") 2 =
      .ok (.ok [(0, [.lit "1", .lit "a"])]) := by decide +kernel
  cases hexec : executeStatement noFaults closedLineDisk (initExecutionContext (.lit "db"))
      (.insert kim) with
  | error f =>
    rw [hexec] at houtcome
    cases houtcome
  | ok r =>
    obtain ⟨disk'', ctx'', out⟩ := r
    rw [hexec] at houtcome
    simp only [Except.map, Except.ok.injEq, Prod.mk.injEq, Option.map_eq_some_iff] at houtcome
    obtain ⟨rfl, table, htable, hcount⟩ := houtcome
    rw [← hcount] at hrows
    refine ⟨disk'', ctx'', _, table, rfl, htable, hrows, ?_⟩
    have hends : Terminated 10 (file closedLineDisk (.lit "db") (.lit "users")) := by
      decide +kernel
    exact (insert_adds_one_row_iff closedLineDisk (.lit "db") [] rfl hexec htable hrows).mpr hends

def openLineDisk : Disk := fun path =>
  if path = schemaPath (.lit "db") (.lit "users") then some (ascii "id\nname\n")
  else if path = dataPath (.lit "db") (.lit "users") then some (ascii "1|a")
  else none

/-- The table loads and its row is read, but the INSERT turns `1|a` into `1|a2|kim`. -/
theorem unterminated_line_is_continued :
    ∃ disk'' ctx'' result table,
      executeStatement noFaults openLineDisk (initExecutionContext (.lit "db")) (.insert kim) =
        .ok (disk'', ctx'', .ok result) ∧
      cached ctx'' (.lit "users") = some table ∧
      deliveredRows openLineDisk (.lit "db") (.lit "users") table.schema.columnCount =
        .ok (.ok [(0, [.lit "1", .lit "a"])]) ∧
      ¬ AddsOneRow disk'' (.lit "db") table result [(0, [.lit "1", .lit "a"])] := by
  have houtcome : (executeStatement noFaults openLineDisk (initExecutionContext (.lit "db"))
      (.insert kim)).map (fun r => (r.2.2, (cached r.2.1 (.lit "users")).map
        (fun t => (t.tableName, t.schema.columnCount)))) =
        .ok (.ok (insertResult (some 2)), some (.lit "users", 2)) := by decide +kernel
  have hrows : (executeStatement noFaults openLineDisk (initExecutionContext (.lit "db"))
      (.insert kim)).map (fun r => deliveredRows r.1 (.lit "db") (.lit "users") 2) =
        .ok (.ok (.ok [(0, [.lit "1", .lit "a2"])])) := by decide +kernel
  cases hexec : executeStatement noFaults openLineDisk (initExecutionContext (.lit "db"))
      (.insert kim) with
  | error f =>
    rw [hexec] at houtcome
    cases houtcome
  | ok r =>
    obtain ⟨disk'', ctx'', out⟩ := r
    rw [hexec] at houtcome hrows
    simp only [Except.map, Except.ok.injEq, Prod.mk.injEq, Option.map_eq_some_iff] at houtcome hrows
    obtain ⟨rfl, table, htable, hname, hcount⟩ := houtcome
    refine ⟨disk'', ctx'', _, table, rfl, htable, ?_, ?_⟩
    · rw [hcount]
      decide +kernel
    · rintro ⟨o, row, hdelivered, -⟩
      rw [hname, hcount, hrows] at hdelivered
      simp at hdelivered

theorem encodeFields_append (a b : Row) : encodeFields a <+: encodeFields (a ++ b) := by
  induction a with
  | nil => exact List.nil_prefix
  | cons v a ih =>
    cases a with
    | nil =>
      cases b with
      | nil => exact List.prefix_rfl
      | cons w b => exact List.prefix_append _ _
    | cons w a =>
      simp only [encodeFields, List.cons_append] at ih ⊢
      rw [List.prefix_append_right_inj, List.cons_prefix_cons]
      exact ⟨rfl, ih⟩

theorem written_beginning (row : Row) (path tableName : CString) (f : AppendFault) :
    (f.written row path tableName).1 <+: encodeRow row := by
  have hfields : encodeFields row <+: encodeRow row := List.prefix_append _ _
  cases f with
  | escapeValue i persisted =>
    have htake := encodeFields_append (row.take i) (row.drop i)
    rw [List.take_append_drop] at htake
    exact ((List.take_prefix _ _).trans htake).trans hfields
  | writeValue persisted => exact (List.take_prefix _ _).trans hfields
  | writeNewline persisted => exact (List.take_prefix _ _).trans hfields
  | close persisted => exact List.take_prefix _ _
  | ensure fault => exact List.nil_prefix
  | allocatePath => exact List.nil_prefix
  | reopen reason => exact List.nil_prefix
  | seekEnd => exact List.nil_prefix
  | tell => exact List.nil_prefix

section Append

variable {fault : Option AppendFault} {disk disk' : Disk} {dbDir tableName : CString} {row : Row}

theorem append_failed {e : EngineError}
    (h : appendRowToTableWithOffset fault disk dbDir tableName row = (disk', .error e)) :
    ∃ p, p <+: encodeRow row ∧ file disk' dbDir tableName = file disk dbDir tableName ++ p ∧
      (∀ path, path ≠ dataPath dbDir tableName → disk' path = disk path) ∧
      (fault = none → p = []) := by
  have hsame : ∃ p, p <+: encodeRow row ∧
      file disk dbDir tableName = file disk dbDir tableName ++ p ∧
      (∀ path, path ≠ dataPath dbDir tableName → disk path = disk path) ∧
      (fault = none → p = []) :=
    ⟨[], List.nil_prefix, by rw [List.append_nil], fun _ _ => rfl, fun _ => rfl⟩
  unfold appendRowToTableWithOffset at h
  split at h
  · cases h
    exact hsame
  cases fault with
  | none => simp [ensureTableDataFile] at h
  | some f =>
    cases hensure : f.atEnsure with
    | some g =>
      simp only [Option.bind_some, hensure] at h
      cases g with
      | allocatePath =>
        cases h
        exact hsame
      | openFile reason =>
        cases h
        exact hsame
    | none =>
      simp only [Option.bind_some, hensure, ensureTableDataFile, Function.update_self,
        Option.getD_some, Function.update_idem] at h
      cases h
      refine ⟨_, written_beginning row (dataPath dbDir tableName) tableName f, ?_, ?_, ?_⟩
      · rw [file, Function.update_self, Option.getD_some]
        rfl
      · intro path hpath
        rw [Function.update_of_ne hpath]
      · intro hnone
        cases hnone

theorem append_done {rowOffset : ℕ}
    (h : appendRowToTableWithOffset fault disk dbDir tableName row = (disk', .ok rowOffset)) :
    rowOffset = (file disk dbDir tableName).length ∧
      file disk' dbDir tableName = file disk dbDir tableName ++ encodeRow row ∧
      ∀ path, path ≠ dataPath dbDir tableName → disk' path = disk path := by
  unfold appendRowToTableWithOffset at h
  split at h
  · cases h
  cases fault with
  | none =>
    simp only [Option.bind_none, ensureTableDataFile, Function.update_self, Option.getD_some,
      Function.update_idem] at h
    cases h
    refine ⟨rfl, ?_, ?_⟩
    · rw [file, Function.update_self, Option.getD_some]
      rfl
    · intro path hpath
      rw [Function.update_of_ne hpath]
  | some f =>
    cases hensure : f.atEnsure with
    | some g =>
      simp only [Option.bind_some, hensure] at h
      cases g <;> cases h
    | none =>
      simp only [Option.bind_some, hensure, ensureTableDataFile] at h
      cases h

end Append

/-- What a failed INSERT leaves: `p`, the beginning of the row that the statement builds, at the
end of the file, the counter where it was, and the index as it was unless the whole row is in the
file. -/
structure FailedInsert (faults : InsertFaults) (disk : Disk) (dbDir : CString)
    (table : TableRuntime) (stmt : InsertStatement) (disk' : Disk) (table' : TableRuntime)
    (row : Row) (p : Bytes) : Prop where
  counter : table'.nextId = table.nextId
  built : p ≠ [] → builtRow table stmt = .ok (.ok row)
  beginning : p <+: encodeRow row
  contents : file disk' dbDir stmt.tableName = file disk dbDir stmt.tableName ++ p
  index : p ≠ encodeRow row → table' = table
  /-- With no fault of the append, bytes are left only where the index insertion failed. -/
  cause : faults.append = none → p ≠ [] → ∃ tree e,
    bptreeInsert faults.index table.idIndex table.nextId
      (file disk dbDir stmt.tableName).length = .ok (tree, .error e)

theorem failed_untouched (faults : InsertFaults) (disk : Disk) (dbDir : CString)
    (table : TableRuntime) (stmt : InsertStatement) :
    FailedInsert faults disk dbDir table stmt disk table [] [] :=
  ⟨rfl, fun h => absurd rfl h, List.nil_prefix, by rw [List.append_nil], fun _ => rfl,
    fun _ h => absurd rfl h⟩

section Insert

variable {faults : InsertFaults} {disk disk' : Disk} {dbDir : CString}
  {table table' : TableRuntime} {stmt : InsertStatement} {e : EngineError}

theorem insertWithGeneratedId_failed (hid : table.hasIdColumn = true)
    (h : insertWithGeneratedId faults disk dbDir table stmt = .ok (disk', table', .error e)) :
    (∃ row p, FailedInsert faults disk dbDir table stmt disk' table' row p) ∧
      ∀ path, path ≠ dataPath dbDir stmt.tableName → disk' path = disk path := by
  unfold insertWithGeneratedId at h
  split at h
  · cases h
    exact ⟨⟨_, _, failed_untouched _ _ _ _ _⟩, fun _ _ => rfl⟩
  rename_i hvalid
  dsimp only at h
  split at h
  · cases h
    exact ⟨⟨_, _, failed_untouched _ _ _ _ _⟩, fun _ _ => rfl⟩
  rename_i hnext
  obtain ⟨built, hbuilt, h⟩ := bind_eq_ok.mp h
  cases built with
  | error e' =>
    cases h
    exact ⟨⟨_, _, failed_untouched _ _ _ _ _⟩, fun _ _ => rfl⟩
  | ok row =>
    have hrow : builtRow table stmt = .ok (.ok row) := by
      rw [builtRow, if_pos hid, hvalid]
      dsimp only
      rw [if_neg hnext, hbuilt]
    dsimp only at h
    split at h
    · rename_i disk₁ e' happ
      cases h
      obtain ⟨p, hp, hfile, hother, hnone⟩ := append_failed happ
      exact ⟨⟨row, p, rfl, fun _ => hrow, hp, hfile, fun _ => rfl,
        fun hn hne => absurd (hnone hn) hne⟩, hother⟩
    · rename_i disk₁ rowOffset happ
      obtain ⟨rfl, hfile, hother⟩ := append_done happ
      obtain ⟨inserted, hins, h⟩ := bind_eq_ok.mp h
      obtain ⟨tree, status⟩ := inserted
      cases status with
      | error e' =>
        cases h
        exact ⟨⟨row, encodeRow row, rfl, fun _ => hrow, List.prefix_rfl, hfile,
          fun hne => absurd rfl hne, fun _ _ => ⟨tree, e', hins⟩⟩, hother⟩
      | ok u => cases h

theorem insertExisting_failed (hid : ¬table.hasIdColumn = true)
    (h : insertExisting faults disk dbDir table stmt = (disk', .error e)) :
    (∃ row p, FailedInsert faults disk dbDir table stmt disk' table row p) ∧
      ∀ path, path ≠ dataPath dbDir stmt.tableName → disk' path = disk path := by
  unfold insertExisting at h
  split at h
  · cases h
    exact ⟨⟨_, _, failed_untouched _ _ _ _ _⟩, fun _ _ => rfl⟩
  · rename_i row hbuilt
    have hrow : builtRow table stmt = .ok (.ok row) := by rw [builtRow, if_neg hid, hbuilt]
    unfold appendRowToTable at h
    cases happ : appendRowToTableWithOffset faults.append disk dbDir stmt.tableName row with
    | mk disk₁ appended =>
      rw [happ] at h
      cases appended with
      | ok o => cases h
      | error e' =>
        cases h
        obtain ⟨p, hp, hfile, hother, hnone⟩ := append_failed happ
        exact ⟨⟨row, p, rfl, fun _ => hrow, hp, hfile, fun _ => rfl,
          fun hn hne => absurd (hnone hn) hne⟩, hother⟩

theorem insertInto_failed
    (h : insertInto faults disk dbDir table stmt = .ok (disk', table', .error e)) :
    (∃ row p, FailedInsert faults disk dbDir table stmt disk' table' row p) ∧
      ∀ path, path ≠ dataPath dbDir stmt.tableName → disk' path = disk path := by
  unfold insertInto at h
  split at h
  · rename_i hid
    exact insertWithGeneratedId_failed hid h
  · rename_i hid
    rw [Except.ok.injEq, Prod.mk.injEq, Prod.mk.injEq] at h
    obtain ⟨rfl, rfl, hout⟩ := h
    apply insertExisting_failed hid
    rw [← hout]

end Insert

theorem delivered_of_file {disk disk' : Disk} {dbDir name : CString}
    (h : file disk' dbDir name = file disk dbDir name) (n : ℕ) :
    deliveredRows disk' dbDir name n = deliveredRows disk dbDir name n := by
  have h' : (disk' (dataPath dbDir name)).getD [] = (disk (dataPath dbDir name)).getD [] := h
  rw [deliveredRows, deliveredRows, scan_lines, scan_lines, h']

end InsertEffects
