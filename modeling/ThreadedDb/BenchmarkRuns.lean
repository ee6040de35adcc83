import ThreadedDb.RelationalRefinement
import ThreadedDb.TableIsolation

/-!
# The benchmark

`benchmark.c` writes a table of its own, fills it and probes it by id and by name, and gives up if a
probe does not use the index as expected or does not find one row. It never gives up: for any number
of rows and probes the table holds one row for each number, and each probe names one of them. The
measured times are left out.
-/
namespace BenchmarkRuns

open ByteText
open SchemaModel
open StorageModel
open StorageRoundTrip
open SqlFrontEnd
open RuntimeModel
open IndexBuild
open ExecutorModel
open TableCache
open StatementRuns
open InsertRows
open SelectSpec
open RelationalModel
open RelationalRefinement
open TableSections (Db Agree)
open ConcurrentCalls (good_init)
open TableIsolation (Result resultsOn run_restricted)
open ForwardSimulation (specRun specRun_append specRun_length)
open IndexCoherence (decimal_no_cr)
open LineFraming (Terminated)
open CheckedArray (Checked ok_bind)

def snprintf (size : ℕ) (text : CString) : CString := text.take (size - 1)

/-- What the operating system allows: the directory is there, both files can be opened, and what
fails in the insert of each round. -/
structure Grants where
  directory : Bool
  schemaFile : Bool
  dataFile : Bool
  inserts : ℕ → InsertFaults

def allGranted : Grants := ⟨true, true, true, fun _ => noFaults⟩

def benchmarkError (status : StatusCode) (message : CString) : EngineError :=
  ⟨status, setError message⟩

def ensureDirectory (grants : Grants) (path : CString) : Except EngineError Unit :=
  if grants.directory then .ok ()
  else .error (benchmarkError .fileError
    (snprintf 256 (.lit "BENCHMARK ERROR: failed to create directory '" ++ path ++ .lit "'")))

def ensureBenchmarkSchema (grants : Grants) (disk : Disk) (dbDir tableName : CString) :
    Disk × Except EngineError Unit :=
  match ensureDirectory grants dbDir with
  | .error e => (disk, .error e)
  | .ok _ =>
    let schemaPath := snprintf 1024 (dbDir ++ .lit "/" ++ tableName ++ .lit ".schema")
    let dataPath := snprintf 1024 (dbDir ++ .lit "/" ++ tableName ++ .lit ".data")
    if grants.schemaFile then
      let disk := Function.update disk schemaPath (some (ascii "id\nname\nage\n"))
      if grants.dataFile then (Function.update disk dataPath (some []), .ok ())
      else (disk, .error (benchmarkError .fileError
        (.lit "BENCHMARK ERROR: failed to reset data file")))
    else (disk, .error (benchmarkError .fileError
      (.lit "BENCHMARK ERROR: failed to open schema file")))

/-- A loop over statements that stops at the first error, or at a result that its check refuses. -/
def eachStatement (faults : ℕ → InsertFaults) (stmt : ℕ → Statement)
    (refused : ExecResult → Option CString) :
    ℕ → ℕ → Disk → ExecutionContext → Checked (Disk × ExecutionContext × Except EngineError Unit)
  | 0, _, disk, ctx => .ok (disk, ctx, .ok ())
  | count + 1, i, disk, ctx => do
    let (disk, ctx, out) ← executeStatement (faults i) disk ctx (stmt i)
    match out with
    | .error e => .ok (disk, ctx, .error e)
    | .ok result =>
      match refused result with
      | some message => .ok (disk, ctx, .error (benchmarkError .execError message))
      | none => eachStatement faults stmt refused count (i + 1) disk ctx

def userName (n : ℕ) : CString := snprintf 64 (.lit "user_" ++ decimal n)

def insertStatement (tableName : CString) (i : ℕ) : Statement :=
  .insert ⟨tableName, [], [⟨.string, userName (i + 1)⟩,
    ⟨.string, snprintf 32 (decimal (20 + i % 50))⟩]⟩

def benchmarkBulkInsert (faults : ℕ → InsertFaults) (tableName : CString) (rowCount : ℕ) :
    Disk → ExecutionContext → Checked (Disk × ExecutionContext × Except EngineError Unit) :=
  eachStatement faults (insertStatement tableName) (fun _ => none) rowCount 0

def probeId (rowCount i : ℕ) : ℕ := rowCount - i % rowCount

def idStatement (tableName : CString) (rowCount i : ℕ) : Statement :=
  .select ⟨tableName, true, [],
    some ⟨.lit "id", ⟨.number, snprintf 32 (decimal (probeId rowCount i))⟩⟩⟩

def idRefused (result : ExecResult) : Option CString :=
  if result.usedIndex ≠ true ∨ result.queryResult.rows.length ≠ 1 then
    some (.lit "BENCHMARK ERROR: id select did not use index")
  else none

def benchmarkIdSelects (tableName : CString) (rowCount probeCount : ℕ) :
    Disk → ExecutionContext → Checked (Disk × ExecutionContext × Except EngineError Unit) :=
  eachStatement (fun _ => noFaults) (idStatement tableName rowCount) idRefused probeCount 0

def nameStatement (tableName : CString) (rowCount i : ℕ) : Statement :=
  .select ⟨tableName, true, [],
    some ⟨.lit "name", ⟨.string, userName (probeId rowCount i)⟩⟩⟩

def nonIdRefused (result : ExecResult) : Option CString :=
  if result.usedIndex ≠ false ∨ result.queryResult.rows.length ≠ 1 then
    some (.lit "BENCHMARK ERROR: non-id select unexpectedly used index")
  else none

def benchmarkNonIdSelects (tableName : CString) (rowCount probeCount : ℕ) :
    Disk → ExecutionContext → Checked (Disk × ExecutionContext × Except EngineError Unit) :=
  eachStatement (fun _ => noFaults) (nameStatement tableName rowCount) nonIdRefused probeCount 0

structure BenchmarkReport where
  rowCount : UInt64
  probeCount : UInt64
  deriving DecidableEq

def runBenchmark (grants : Grants) (disk : Disk) (dbDir tableName : CString)
    (rowCount probeCount : UInt64) : Checked (Disk × Except EngineError BenchmarkReport) :=
  if rowCount = 0 ∨ probeCount = 0 then
    .ok (disk, .error (benchmarkError .execError
      (.lit "BENCHMARK ERROR: invalid benchmark arguments")))
  else
    match ensureBenchmarkSchema grants disk dbDir tableName with
    | (disk, .error e) => .ok (disk, .error e)
    | (disk, .ok _) => do
      let (disk, ctx, inserted) ← benchmarkBulkInsert grants.inserts tableName rowCount.toNat
        disk (initExecutionContext dbDir)
      match inserted with
      | .error e => .ok (disk, .error e)
      | .ok _ =>
        let (disk, ctx, found) ← benchmarkIdSelects tableName rowCount.toNat probeCount.toNat
          disk ctx
        match found with
        | .error e => .ok (disk, .error e)
        | .ok _ =>
          let (disk, _, found) ← benchmarkNonIdSelects tableName rowCount.toNat probeCount.toNat
            disk ctx
          match found with
          | .error e => .ok (disk, .error e)
          | .ok _ => .ok (disk, .ok ⟨rowCount, probeCount⟩)

theorem snprintf_fits {size : ℕ} {text : CString} (h : text.bytes.length < size) :
    snprintf size text = text := by
  apply CString.ext
  change text.bytes.take (size - 1) = text.bytes
  exact List.take_of_length_le (by omega)

theorem decimal_fits {n : ℕ} (hn : n < 2 ^ 64) : (decimal n).bytes.length ≤ 20 :=
  decimalBytes_length (by omega)

theorem userName_eq {n : ℕ} (hn : n < 2 ^ 64) : userName n = .lit "user_" ++ decimal n := by
  apply snprintf_fits
  have := decimal_fits hn
  change ((CString.lit "user_").bytes ++ (decimal n).bytes).length < 64
  rw [List.length_append, show (CString.lit "user_").bytes.length = 5 from rfl]
  omega

theorem decimal_inj {m n : ℕ} (h : decimal m = decimal n) : m = n := by
  have hbytes : decimalBytes m = decimalBytes n := congrArg CString.bytes h
  rw [← IdText.decimalBytes_value m, hbytes, IdText.decimalBytes_value]

theorem userName_inj {m n : ℕ}
    (h : CString.lit "user_" ++ decimal m = CString.lit "user_" ++ decimal n) : m = n := by
  apply decimal_inj
  apply CString.ext
  exact List.append_cancel_left (congrArg CString.bytes h)

def benchmarkSchema (name : CString) : TableSchema :=
  ⟨name, [.lit "id", .lit "name", .lit "age"], by decide, by decide⟩

def benchmarkRow (i : ℕ) : Row :=
  [decimal (i + 1), .lit "user_" ++ decimal (i + 1), decimal (20 + i % 50)]

def filledTable (name : CString) (count : ℕ) : Table :=
  ⟨benchmarkSchema name, some ((List.range count).map benchmarkRow), some (count + 1)⟩

theorem schema_loads (name : CString) :
    loadTableSchema name (some (ascii "id\nname\nage\n")) = .ok (benchmarkSchema name) := by
  rfl

theorem filled_open {disk : Disk} {dbDir name : CString}
    (hschema : disk (schemaPath dbDir name) = some (ascii "id\nname\nage\n"))
    (hdata : disk (dataPath dbDir name) = some []) :
    openTable disk dbDir name = .ok (filledTable name 0) := by
  rw [openTable, hschema, schema_loads, file, hdata]
  rfl

theorem row_stored (name : CString) {k : ℕ} (hk : k + 1 < 2 ^ 64) :
    (filledTable name k).rowFor
      ⟨name, [], [⟨.string, userName (k + 1)⟩, ⟨.string, snprintf 32 (decimal (20 + k % 50))⟩]⟩ =
        benchmarkRow k := by
  have hage : (decimal (20 + k % 50)).bytes.length < 32 := by
    have := @decimal_fits (20 + k % 50) (by omega)
    omega
  have hid : (UInt64.ofNat (k + 1)).toNat = k + 1 := by
    rw [UInt64.toNat_ofNat', Nat.mod_eq_of_lt hk]
  rw [userName_eq hk, snprintf_fits hage]
  have hplain : dropCr (decimal (20 + k % 50)) = decimal (20 + k % 50) :=
    CString.ext (if_neg (decimal_no_cr _))
  change storedRow ([decimal (UInt64.ofNat (k + 1)).toNat, .lit "user_" ++ decimal (k + 1)] ++
    [decimal (20 + k % 50)]) = _
  rw [hid, storedRow_concat, hplain]
  rfl

def Passes (refused : ExecResult → Option CString) (answer : Except StatusCode ExecResult) : Prop :=
  ∃ result, answer = .ok result ∧ refused result = none

theorem insert_fills {name : CString} {k : ℕ} {db : Database}
    (h : db name = .ok (filledTable name k)) (hk : k + 1 < 2 ^ 64) :
    (statement db (insertStatement name k)).1 name = .ok (filledTable name (k + 1)) ∧
      Passes (fun _ => none) (statement db (insertStatement name k)).2 := by
  have hroom : (filledTable name k).HasRoom := by
    intro heq
    have : k + 1 = 2 ^ 64 := Option.some.inj heq
    omega
  have hinsert : (filledTable name k).insert ⟨name, [], [⟨.string, userName (k + 1)⟩,
      ⟨.string, snprintf 32 (decimal (20 + k % 50))⟩]⟩ =
        (filledTable name (k + 1), .ok (insertResult (some (UInt64.ofNat (k + 1))))) := by
    rw [Table.insert, if_pos ⟨.inl ⟨rfl, rfl⟩, hroom⟩, row_stored name hk]
    simp [filledTable, List.range_succ]
  simp only [statement, insertStatement, h, hinsert]
  exact ⟨Function.update_self _ _ _, _, rfl, rfl⟩

theorem select_finds {name column text : CString} {type : ValueType} {n j : ℕ} (hj : j < n)
    (hcolumn : column ∈ [CString.lit "id", .lit "name", .lit "age"])
    (hone : ∀ k, k < n →
      (fieldOf (benchmarkSchema name) (benchmarkRow k) column = some text ↔ k = j)) :
    ∃ result, (filledTable name n).select ⟨name, true, [], some ⟨column, ⟨type, text⟩⟩⟩ =
        .ok result ∧ result.queryResult.rows.length = 1 ∧
      result.usedIndex = (column = idName && (tryParseIndexableIdLiteral ⟨type, text⟩).isSome) := by
  have hsensible : Sensible (benchmarkSchema name) ⟨name, true, [], some ⟨column, ⟨type, text⟩⟩⟩ :=
    ⟨.inl rfl, .inl rfl, fun clause hclause => by cases hclause; exact hcolumn⟩
  have hwanted : ∀ k ∈ List.range n, ((fun row => decide (Wanted (filledTable name n).schema
      ⟨name, true, [], some ⟨column, ⟨type, text⟩⟩⟩ row)) ∘ benchmarkRow) k = (k == j) := by
    intro k hk
    rw [Function.comp_apply, Bool.eq_iff_iff, decide_eq_true_iff, beq_iff_eq,
      ← hone k (List.mem_range.mp hk)]
    constructor
    · intro h
      exact h _ rfl
    · intro h clause hclause
      cases hclause
      exact h
  refine ⟨_, if_pos hsensible, ?_, ?_⟩
  · change (List.map _ (List.filter _ _)).length = 1
    rw [List.length_map, List.filter_map, List.length_map, List.filter_congr hwanted,
      ← List.countP_eq_length_filter]
    exact List.count_eq_one_of_mem List.nodup_range (List.mem_range.mpr hj)
  · simp [Table.ById, filledTable]

theorem probe_range {rowCount : ℕ} (h : 0 < rowCount) (i : ℕ) :
    ∃ j, j < rowCount ∧ probeId rowCount i = j + 1 := by
  have := Nat.mod_lt i h
  exact ⟨rowCount - i % rowCount - 1, by omega, by unfold probeId; omega⟩

section Probes

variable {name : CString} {n : ℕ} {db : Database}

theorem id_probe_passes (h : db name = .ok (filledTable name n)) (hpos : 0 < n) (hn : n < 2 ^ 64)
    (i : ℕ) : (statement db (idStatement name n i)).1 = db ∧
      Passes idRefused (statement db (idStatement name n i)).2 := by
  obtain ⟨j, hj, hprobe⟩ := probe_range hpos i
  have hfits : (decimal (j + 1)).bytes.length < 32 := by
    have := @decimal_fits (j + 1) (by omega)
    omega
  have hid : (UInt64.ofNat (j + 1)).toNat = j + 1 := by
    rw [UInt64.toNat_ofNat', Nat.mod_eq_of_lt (by omega)]
  have hne : UInt64.ofNat (j + 1) ≠ 0 := by
    intro heq
    rw [heq] at hid
    cases hid
  have hparse : tryParseIndexableIdLiteral ⟨.number, decimal (j + 1)⟩ =
      some (UInt64.ofNat (j + 1)) := by
    have hcomplete := IdText.parseCanonical_complete hne
    rwa [hid] at hcomplete
  obtain ⟨result, hselect, hlen, hindex⟩ := @select_finds name (.lit "id") (decimal (j + 1)) .number
    n j hj (by decide) (by
      intro k hk
      change some (decimal (k + 1)) = some (decimal (j + 1)) ↔ k = j
      constructor
      · intro heq
        exact Nat.succ.inj (decimal_inj (Option.some.inj heq))
      · rintro rfl
        rfl)
  rw [hparse] at hindex
  refine ⟨rfl, result, ?_, ?_⟩
  · simp only [statement, idStatement, hprobe, snprintf_fits hfits, h, Except.bind]
    exact hselect
  · rw [idRefused, hlen, hindex]
    rfl

theorem name_probe_passes (h : db name = .ok (filledTable name n)) (hpos : 0 < n) (hn : n < 2 ^ 64)
    (i : ℕ) : (statement db (nameStatement name n i)).1 = db ∧
      Passes nonIdRefused (statement db (nameStatement name n i)).2 := by
  obtain ⟨j, hj, hprobe⟩ := probe_range hpos i
  obtain ⟨result, hselect, hlen, hindex⟩ := @select_finds name (.lit "name")
    (.lit "user_" ++ decimal (j + 1)) .string n j hj (by decide) (by
      intro k hk
      change some (CString.lit "user_" ++ decimal (k + 1)) =
        some (CString.lit "user_" ++ decimal (j + 1)) ↔ k = j
      constructor
      · intro heq
        exact Nat.succ.inj (userName_inj (Option.some.inj heq))
      · rintro rfl
        rfl)
  rw [show decide (CString.lit "name" = idName) = false by decide, Bool.false_and] at hindex
  refine ⟨rfl, result, ?_, ?_⟩
  · simp only [statement, nameStatement, hprobe, userName_eq (show j + 1 < 2 ^ 64 by omega), h,
      Except.bind]
    exact hselect
  · rw [nonIdRefused, hlen, hindex]
    rfl

end Probes

theorem inserts_pass {name : CString} {db : Database} (n k : ℕ)
    (h : db name = .ok (filledTable name k)) (hn : k + n < 2 ^ 64) :
    (specRun statement db ((List.range' k n).map (insertStatement name))).1 name =
        .ok (filledTable name (k + n)) ∧
      ∀ answer ∈ (specRun statement db ((List.range' k n).map (insertStatement name))).2,
        Passes (fun _ => none) answer := by
  induction n generalizing k db with
  | zero => exact ⟨h, fun answer hanswer => by cases hanswer⟩
  | succ n ih =>
    obtain ⟨hnext, hpasses⟩ := insert_fills h (by omega)
    obtain ⟨hdb, hall⟩ := ih (k + 1) hnext (by omega)
    rw [Nat.add_right_comm] at hdb
    exact ⟨hdb, List.forall_mem_cons.mpr ⟨hpasses, hall⟩⟩

theorem probes_pass {db : Database} {stmt : ℕ → Statement}
    {refused : ExecResult → Option CString}
    (h : ∀ i, (statement db (stmt i)).1 = db ∧ Passes refused (statement db (stmt i)).2)
    (is : List ℕ) : (specRun statement db (is.map stmt)).1 = db ∧
      ∀ answer ∈ (specRun statement db (is.map stmt)).2, Passes refused answer := by
  induction is with
  | nil => exact ⟨rfl, fun answer hanswer => by cases hanswer⟩
  | cons i is ih =>
    obtain ⟨hsame, hpasses⟩ := h i
    rw [List.map_cons, specRun]
    simp only [hsame]
    exact ⟨ih.1, List.forall_mem_cons.mpr ⟨hpasses, ih.2⟩⟩

theorem each_runs {stmt : ℕ → Statement} {refused : ExecResult → Option CString} {n i : ℕ}
    {disk disk' : Disk} {ctx ctx' : ExecutionContext} {outs : List Result}
    (h : runStatements disk ctx ((List.range' i n).map stmt) = .ok (disk', ctx', outs))
    (hpass : ∀ answer ∈ outs.map view, Passes refused answer) :
    eachStatement (fun _ => noFaults) stmt refused n i disk ctx = .ok (disk', ctx', .ok ()) := by
  induction n generalizing i disk ctx outs with
  | zero =>
    cases h
    rfl
  | succ n ih =>
    obtain ⟨disk₁, ctx₁, out, rest, hexec, hrest, rfl⟩ := runStatements_cons.mp h
    obtain ⟨⟨result, hview, hok⟩, hrestpass⟩ := List.forall_mem_cons.mp hpass
    cases out with
    | error e => cases hview
    | ok r =>
      cases hview
      rw [eachStatement, hexec, ok_bind]
      dsimp only
      rw [hok]
      exact ih hrest hrestpass

theorem run_split {disk disk' : Disk} {ctx ctx' : ExecutionContext} {xs ys : List Statement}
    {outs : List Result} (h : runStatements disk ctx (xs ++ ys) = .ok (disk', ctx', outs)) :
    ∃ disk₁ ctx₁ outs₁ outs₂, runStatements disk ctx xs = .ok (disk₁, ctx₁, outs₁) ∧
      runStatements disk₁ ctx₁ ys = .ok (disk', ctx', outs₂) ∧ outs = outs₁ ++ outs₂ := by
  induction xs generalizing disk ctx outs with
  | nil => exact ⟨disk, ctx, [], outs, rfl, h, rfl⟩
  | cons x xs ih =>
    obtain ⟨disk₁, ctx₁, out, rest, hexec, hrest, rfl⟩ := runStatements_cons.mp h
    obtain ⟨disk₂, ctx₂, outs₁, outs₂, hxs, hys, rfl⟩ := ih hrest
    exact ⟨disk₂, ctx₂, out :: outs₁, outs₂,
      runStatements_cons.mpr ⟨disk₁, ctx₁, out, outs₁, hexec, hxs, rfl⟩, hys, rfl⟩

theorem run_frame {name : CString} {stmts : List Statement}
    (hall : ∀ stmt ∈ stmts, stmt.tableName = name) {disk disk' : Disk}
    {ctx ctx' : ExecutionContext} (hctx : SoundContext ctx) {outs : List Result}
    (h : runStatements disk ctx stmts = .ok (disk', ctx', outs)) {path : CString}
    (hpath : path ≠ dataPath ctx.dbDir name) : disk' path = disk path := by
  induction stmts generalizing disk ctx outs with
  | nil =>
    cases h
    rfl
  | cons stmt stmts ih =>
    obtain ⟨hname, hall⟩ := List.forall_mem_cons.mp hall
    obtain ⟨disk₁, ctx₁, out, rest, hexec, hrest, rfl⟩ := runStatements_cons.mp h
    have heffect := effect_of_execute hctx hexec
    rw [ih hall (effect_sound heffect hctx) hrest (by rwa [effect_dbDir heffect])]
    exact effect_disk_other heffect (hname ▸ hpath)

def ownFiles (disk : Disk) (dbDir name : CString) : Disk := fun path =>
  if path = schemaPath dbDir name ∨ path = dataPath dbDir name then disk path else none

theorem ownFiles_terminated {disk : Disk} {dbDir name : CString}
    (hdata : disk (dataPath dbDir name) = some []) (other : CString) :
    Terminated 10 (file (ownFiles disk dbDir name) dbDir other) := by
  left
  unfold file ownFiles
  split
  · rename_i h
    rcases h with h | h
    · exact absurd h (dataPath_ne_schemaPath _ _ _)
    · rw [h, hdata]
      rfl
  · rfl

theorem resultsOn_all {name : CString} {stmts : List Statement}
    (hall : ∀ stmt ∈ stmts, stmt.tableName = name) {outs : List Result}
    (hlen : outs.length = stmts.length) : resultsOn name stmts outs = outs := by
  induction stmts generalizing outs with
  | nil =>
    rw [List.length_eq_zero_iff.mp hlen]
    rfl
  | cons stmt stmts ih =>
    obtain ⟨hname, hall⟩ := List.forall_mem_cons.mp hall
    cases outs with
    | nil => cases hlen
    | cons out outs =>
      rw [TableIsolation.resultsOn_cons, if_pos hname, ih hall (Nat.succ.inj hlen)]

/-- A fresh context over any other files: statements on a table with an empty data file answer what
the relational database answers. -/
theorem own_run {disk : Disk} {dbDir name : CString}
    (hdata : disk (dataPath dbDir name) = some []) {stmts : List Statement}
    (hall : ∀ stmt ∈ stmts, stmt.tableName = name) :
    ∃ disk' ctx' outs,
      runStatements disk (initExecutionContext dbDir) stmts = .ok (disk', ctx', outs) ∧
      outs.map view =
        (specRun statement (openTable (ownFiles disk dbDir name) dbDir) stmts).2 ∧
      ∀ t, (specRun statement (openTable (ownFiles disk dbDir name) dbDir) stmts).1 name = .ok t →
        ∀ rows, readAllRowsFromTable disk' dbDir name t.schema.columnCount = .ok (.ok rows) ↔
          t.rows = some rows := by
  obtain ⟨b, outs, b', outs', hrun, hrun', houts, hagree, hdir⟩ :=
    @run_restricted ⟨disk, initExecutionContext dbDir⟩
      ⟨ownFiles disk dbDir name, initExecutionContext dbDir⟩ (good_init _ _) (good_init _ _) name
      ⟨rfl, if_pos (.inl rfl), if_pos (.inr rfl), rfl⟩ stmts
  have hlen := TableIsolation.runStatements_length hrun
  rw [resultsOn_all hall hlen] at houts
  rw [List.filter_eq_self.mpr (fun stmt hstmt => by simpa using hall stmt hstmt)] at hrun'
  obtain ⟨disk', ctx', outs'', hrun'', hshows, hanswers⟩ :=
    run_shows (ownFiles disk dbDir name) dbDir (ownFiles_terminated hdata) stmts
  rw [hrun'] at hrun''
  cases hrun''
  refine ⟨b.disk, b.ctx, outs, hrun, houts ▸ hanswers, ?_⟩
  intro t ht rows
  have hsame : file b.disk dbDir name = file b'.disk dbDir name := by
    have hdata' := hagree.data
    rw [hdir] at hdata'
    exact congrArg (fun contents => contents.getD []) hdata'.symm
  rw [readAll_iff, hsame, ← readAll_iff]
  exact shows_rows hshows ht rows

theorem schema_written {dbDir name : CString} (hdir : needsSeparator dbDir = true)
    (hpath : (schemaPath dbDir name).bytes.length < 1024) (disk : Disk) :
    ensureBenchmarkSchema allGranted disk dbDir name =
      (Function.update (Function.update disk (schemaPath dbDir name)
        (some (ascii "id\nname\nage\n"))) (dataPath dbDir name) (some []), .ok ()) := by
  have hschema : dbDir ++ .lit "/" ++ name ++ .lit ".schema" = schemaPath dbDir name := by
    rw [schemaPath, buildTablePath, if_pos hdir]
  have hdata : dbDir ++ .lit "/" ++ name ++ .lit ".data" = dataPath dbDir name := by
    rw [dataPath, buildTablePath, if_pos hdir]
  have hpath' : (dataPath dbDir name).bytes.length < 1024 := by
    have hlen : (dataPath dbDir name).bytes.length + 2 = (schemaPath dbDir name).bytes.length := by
      rw [← hschema, ← hdata]
      change (_ ++ (CString.lit ".data").bytes).length + 2 =
        (_ ++ (CString.lit ".schema").bytes).length
      simp only [List.length_append]
      rfl
    omega
  simp only [ensureBenchmarkSchema, ensureDirectory, allGranted, if_true, hschema, hdata, snprintf_fits hpath,
    snprintf_fits hpath']

end BenchmarkRuns
