import ThreadedDb.RelationalRefinement
import ThreadedDb.ScriptLoop
import ThreadedDb.ResultTable

/-!
# A script from the command line

`cli.c` and `main.c` as one program: options, the SQL file, the statement loop and what stands on
the terminal at the end. Parsing and executing alternate statement by statement, and yet the
statements are those of the text alone: running a script is splitting it first and handing the
statements to the relational database, up to the first one that fails.
-/
namespace CommandLine

open ByteText
open SchemaModel
open StorageModel
open SqlFrontEnd
open RuntimeModel
open ExecutorModel
open StatementRuns
open ParserBounds
open SqlGrammar
open ScriptLoop
open SelectSpec
open RelationalModel
open RelationalRefinement
open ResultTable
open LineFraming (Terminated)
open IndexCoherence (usersDisk usersDisk_terminated)
open CheckedArray (Checked ok_bind bind_eq_ok)

structure CliOptions where
  dbDir : Option CString
  sqlFile : Option CString
  helpRequested : Bool
  deriving DecidableEq

def initOptions : CliOptions := ⟨none, none, false⟩

/-- The loop over the arguments; an option without its value and an unknown word end it. -/
def parseArguments : CliOptions → List CString → Option CliOptions
  | options, [] => some options
  | options, arg :: args =>
    if arg = .lit "-h" ∨ arg = .lit "--help" then
      parseArguments { options with helpRequested := true } args
    else if arg = .lit "-d" ∨ arg = .lit "--db" then
      match args with
      | [] => none
      | value :: args => parseArguments { options with dbDir := some value } args
    else if arg = .lit "-f" ∨ arg = .lit "--file" then
      match args with
      | [] => none
      | value :: args => parseArguments { options with sqlFile := some value } args
    else none

def parseCliArgs (args : List CString) : Option CliOptions :=
  (parseArguments initOptions args).filter (fun options =>
    options.helpRequested || options.dbDir.isSome && options.sqlFile.isSome)

def printUsage (program : CString) : Bytes :=
  ascii "Usage: " ++ program.bytes ++ ascii " -d <db_dir> -f <sql_file>\n" ++
  ascii "       " ++ program.bytes ++ ascii " --db <db_dir> --file <sql_file>\n" ++
  ascii "       " ++ program.bytes ++ ascii " -h | --help\n"

def readTextFile (disk : Disk) (path : CString) : Option Bytes :=
  (disk path).filter (fun contents => contents ≠ [])

def printErrorMessage (message : CString) : Bytes :=
  if message.bytes = [] then [] else message.bytes ++ [10]

/-- What a process leaves: files, both streams, and the exit status. -/
structure Exit where
  disk : Disk
  stdout : Bytes
  stderr : Bytes
  status : StatusCode

/-- `main` of the command line, from `argv[0]` and the other arguments. -/
def main (disk : Disk) (program : CString) (args : List CString) : Checked Exit :=
  match parseCliArgs args with
  | none => .ok ⟨disk, printUsage program, [], .invalidArgs⟩
  | some options =>
    if options.helpRequested then .ok ⟨disk, printUsage program, [], .ok⟩
    else do
      let sqlFile := options.sqlFile.getD .empty
      let out ← ScriptLoop.main disk (options.dbDir.getD .empty) sqlFile (readTextFile disk sqlFile)
      let texts ← out.printed.mapM printExecResult
      .ok ⟨out.disk, texts.flatten, (out.message.map printErrorMessage).getD [], out.status⟩

section Tokens

variable {tokens : List Token}

/-- The statements of the loop do not depend on what is done with them: it works through those that
splitting finds, and ends as splitting ends if no work fails before. -/
theorem loop_splits (h : EndsInEof tokens) (rounds cursor : ℕ) (hcursor : cursor < tokens.length)
    (hrounds : tokens.length < cursor + rounds) :
    ∃ stmts k ended,
      (∀ found, statementLoop tokens (fun stmts stmt => .ok (stmts ++ [stmt], .ok ())) rounds cursor
        found = .ok (found ++ stmts, k, ended)) ∧
      ∀ (σ : Type) (body : σ → Statement → Checked (σ × Except EngineError Unit))
        (state state' : σ) (worked : Except EngineError Unit),
        workThrough body state stmts = .ok (state', worked) →
        ∃ k', statementLoop tokens body rounds cursor state =
          .ok (state', k', worked.bind (fun _ => ended)) := by
  induction rounds generalizing cursor with
  | zero => omega
  | succ rounds ih =>
    have hget := List.getElem?_eq_getElem hcursor
    by_cases heof : tokens[cursor].type = .eof
    · refine ⟨[], cursor, .ok (), ?_, ?_⟩
      · intro found
        rw [statementLoop, hget]
        dsimp only
        rw [if_pos heof, List.append_nil]
      · intro σ body state state' worked hwork
        cases hwork
        refine ⟨cursor, ?_⟩
        rw [statementLoop, hget]
        dsimp only
        rw [if_pos heof]
        rfl
    obtain ⟨r, k, hnext, -, -⟩ := parseNextStatement_total h hcursor
    cases r with
    | error message =>
      refine ⟨[], k, .error ⟨.parseError, message⟩, ?_, ?_⟩
      · intro found
        rw [statementLoop, hget]
        dsimp only
        rw [if_neg heof, hnext, ok_bind, List.append_nil]
      · intro σ body state state' worked hwork
        cases hwork
        refine ⟨k, ?_⟩
        rw [statementLoop, hget]
        dsimp only
        rw [if_neg heof, hnext, ok_bind]
        rfl
    | ok stmt =>
      obtain ⟨hlt, hk⟩ := next_advances h hnext
      obtain ⟨hskip, hskip'⟩ := skip_bounds h hk
      obtain ⟨stmts, k', ended, hsplit, hbody⟩ := ih _ hskip' (by omega)
      refine ⟨stmt :: stmts, k', ended, ?_, ?_⟩
      · intro found
        rw [statementLoop, hget]
        dsimp only
        rw [if_neg heof, hnext, ok_bind]
        dsimp only
        rw [ok_bind]
        dsimp only
        rw [hsplit, List.append_assoc, List.singleton_append]
      · intro σ body state state' worked hwork
        obtain ⟨⟨state₁, worked₁⟩, hstmt, hwork⟩ := bind_eq_ok.mp hwork
        rw [statementLoop, hget]
        dsimp only
        rw [if_neg heof, hnext, ok_bind]
        dsimp only
        rw [hstmt, ok_bind]
        cases worked₁ with
        | error e =>
          cases hwork
          exact ⟨k, rfl⟩
        | ok _ => exact hbody σ body state₁ state' worked hwork

theorem script_runs (h : EndsInEof tokens) :
    ∃ stmts k ended, splitStatements tokens = .ok (stmts, k, ended) ∧
      ∀ (σ : Type) (body : σ → Statement → Checked (σ × Except EngineError Unit))
        (state state' : σ) (worked : Except EngineError Unit),
        workThrough body state stmts = .ok (state', worked) →
        ∃ k', runScript tokens body state = .ok (state', k', worked.bind (fun _ => ended)) := by
  have hpos : 0 < tokens.length := by
    obtain ⟨body, eof, rfl, -⟩ := h
    simp
  obtain ⟨-, hskip⟩ := skip_bounds h hpos
  obtain ⟨stmts, k, ended, hsplit, hbody⟩ := loop_splits h (tokens.length + 1)
    (skipSemicolons tokens 0) hskip (by omega)
  exact ⟨stmts, k, ended, hsplit [], hbody⟩

end Tokens

/-- What a script does to a relational database: the answers before the first statement that fails,
and the status of that one. -/
structure Session where
  db : Database
  results : List ExecResult
  failed : Option StatusCode

def session (db : Database) : List Statement → Session
  | [] => ⟨db, [], none⟩
  | stmt :: stmts =>
    match statement db stmt with
    | (db, .error status) => ⟨db, [], some status⟩
    | (db, .ok result) => ⟨(session db stmts).db, result :: (session db stmts).results,
        (session db stmts).failed⟩

def failure : Except EngineError Unit → Option StatusCode
  | .error e => some e.status
  | .ok _ => none

/-- The exit status of a script: of the statement that fails, else of the text where no statement
can be read, else of a text without any. -/
def scriptStatus (s : Session) (stmts : List Statement) (ended : Except EngineError Unit) :
    StatusCode :=
  (s.failed <|> failure ended).getD (if stmts = [] then .parseError else .ok)

theorem session_error {db db' : Database} {stmt : Statement} {status : StatusCode}
    (h : statement db stmt = (db', .error status)) (stmts : List Statement) :
    session db (stmt :: stmts) = ⟨db', [], some status⟩ := by
  rw [session, h]

theorem session_ok {db db' : Database} {stmt : Statement} {result : ExecResult}
    (h : statement db stmt = (db', .ok result)) (stmts : List Statement) :
    session db (stmt :: stmts) = ⟨(session db' stmts).db, result :: (session db' stmts).results,
      (session db' stmts).failed⟩ := by
  rw [session, h]

theorem results_nil {db : Database} {stmts : List Statement}
    (h : (session db stmts).failed = none) : (session db stmts).results = [] ↔ stmts = [] := by
  cases stmts with
  | nil => simp [session]
  | cons stmt stmts =>
    cases hstmt : statement db stmt with
    | mk db' answer =>
      cases answer with
      | error status =>
        rw [session_error hstmt] at h
        cases h
      | ok result =>
        rw [session_ok hstmt]
        simp

/-- The work on the statements is a session of the database that files and cache show. -/
theorem work_shows {dbDir : CString} {disk : Disk} {ctx : ExecutionContext} {db : Database}
    (h : Shows dbDir (disk, ctx) db) (stmts : List Statement) (printed : List ExecResult) :
    ∃ disk' ctx' worked,
      workThrough executeAndPrint ⟨disk, ctx, printed⟩ stmts =
        .ok (⟨disk', ctx', printed ++ (session db stmts).results⟩, worked) ∧
      Shows dbDir (disk', ctx') (session db stmts).db ∧
      failure worked = (session db stmts).failed := by
  induction stmts generalizing disk ctx db printed with
  | nil => exact ⟨disk, ctx, .ok (), by rw [session, List.append_nil]; rfl, h, rfl⟩
  | cons stmt stmts ih =>
    obtain ⟨⟨disk₁, ctx₁⟩, out, hstep, hshows, hview⟩ := statements_simulated dbDir _ db stmt h
    obtain ⟨⟨disk₂, ctx₂, out₂⟩, hexec, hstep⟩ := bind_eq_ok.mp hstep
    cases hstep
    cases out with
    | error e =>
      have hstmt : statement db stmt = ((statement db stmt).1, .error e.status) :=
        Prod.ext rfl hview.symm
      refine ⟨disk₁, ctx₁, .error e, ?_, ?_, ?_⟩
      · rw [workThrough, executeAndPrint, hexec, session_error hstmt, List.append_nil]
        rfl
      · rw [session_error hstmt]
        exact hshows
      · rw [session_error hstmt]
        rfl
    | ok result =>
      have hstmt : statement db stmt = ((statement db stmt).1, .ok result) :=
        Prod.ext rfl hview.symm
      obtain ⟨disk', ctx', worked, hwork, hshows', hworked⟩ := ih hshows (printed ++ [result])
      refine ⟨disk', ctx', worked, ?_, ?_, ?_⟩
      · rw [workThrough, executeAndPrint, hexec, session_ok hstmt]
        simp only [ok_bind, hwork, List.append_assoc, List.singleton_append]
      · rw [session_ok hstmt]
        exact hshows'
      · rw [session_ok hstmt]
        exact hworked

theorem prints_ok {results : List ExecResult} (h : ∀ result ∈ results, Tabular result) :
    ∃ texts, results.mapM printExecResult = .ok texts := by
  induction results with
  | nil => exact ⟨[], rfl⟩
  | cons result results ih =>
    obtain ⟨hresult, hresults⟩ := List.forall_mem_cons.mp h
    obtain ⟨text, htext⟩ := print_ok hresult
    obtain ⟨texts, htexts⟩ := ih hresults
    refine ⟨text :: texts, ?_⟩
    rw [List.mapM_cons, htext, ok_bind, htexts, ok_bind]
    rfl

theorem session_tabular (db : Database) (stmts : List Statement) :
    ∀ result ∈ (session db stmts).results, Tabular result := by
  induction stmts generalizing db with
  | nil => exact fun result hresult => by cases hresult
  | cons stmt stmts ih =>
    cases hstmt : statement db stmt with
    | mk db' answer =>
      cases answer with
      | error status =>
        rw [session_error hstmt]
        exact fun result hresult => by cases hresult
      | ok result =>
        rw [session_ok hstmt]
        exact List.forall_mem_cons.mpr ⟨statement_tabular (congrArg Prod.snd hstmt), ih db'⟩

/-- `main` over a script that can be read and split into tokens: its statements are the text's, the
terminal shows the relational database's answers to them up to the first that fails, the status is
that one's, or the text's, and the files hold the database's rows. -/
theorem main_runs_script {disk : Disk} {dbDir : CString} {buffer : Bytes} {tokens : List Token}
    (htext : (CString.ofBuffer buffer).trim.bytes ≠ [])
    (htokens : tokenizeSql (CString.ofBuffer buffer).trim = .ok tokens)
    (hfiles : ∀ name, Terminated 10 (file disk dbDir name)) (sqlFile : CString) :
    ∃ stmts k ended out ctx,
      splitStatements tokens = .ok (stmts, k, ended) ∧
      ScriptLoop.main disk dbDir sqlFile (some buffer) = .ok out ∧
      out.printed = (session (openTable disk dbDir) stmts).results ∧
      out.status = scriptStatus (session (openTable disk dbDir) stmts) stmts ended ∧
      Shows dbDir (out.disk, ctx) (session (openTable disk dbDir) stmts).db := by
  obtain ⟨stmts, k, ended, hsplit, hbody⟩ := script_runs (tokenizeSql_ends htokens)
  obtain ⟨disk', ctx, worked, hwork, hshows, hfailed⟩ := work_shows (shows_init hfiles) stmts []
  obtain ⟨k', hrun⟩ := hbody _ executeAndPrint _ _ _ hwork
  rw [List.nil_append] at hrun
  have hstatus : scriptStatus (session (openTable disk dbDir) stmts) stmts ended =
      (failure worked <|> failure ended).getD (if stmts = [] then .parseError else .ok) := by
    rw [scriptStatus, hfailed]
  rw [ScriptLoop.main, if_neg htext, htokens]
  simp only [hrun, ok_bind]
  cases worked with
  | error e => exact ⟨stmts, k, ended, _, ctx, hsplit, rfl, rfl, hstatus.symm, hshows⟩
  | ok _ =>
    cases ended with
    | error e => exact ⟨stmts, k, .error e, _, ctx, hsplit, rfl, rfl, hstatus.symm, hshows⟩
    | ok _ =>
      have hnil := results_nil hfailed.symm
      simp only [Except.bind, hnil]
      by_cases hstmts : stmts = []
      · rw [if_pos hstmts] at hstatus ⊢
        exact ⟨stmts, k, .ok (), _, ctx, hsplit, rfl, (hnil.mpr hstmts).symm, hstatus.symm, hshows⟩
      · rw [if_neg hstmts] at hstatus ⊢
        exact ⟨stmts, k, .ok (), _, ctx, hsplit, rfl, rfl, hstatus.symm, hshows⟩

/-- From the arguments to the terminal: a script that is named, readable, lexically correct and not
only white space runs as a session of the relational database in the directory's files, where no
write and no allocation fails. Everything the session answers is
printed, without a read past a row, and nothing else; the exit status is the session's, and the
files hold the rows of the database that the session leaves. -/
theorem scripts_run_relational_sessions {disk : Disk} {args : List CString}
    {dbDir sqlFile : CString} {buffer : Bytes} {tokens : List Token}
    (hargs : parseCliArgs args = some ⟨some dbDir, some sqlFile, false⟩)
    (hread : readTextFile disk sqlFile = some buffer)
    (htext : (CString.ofBuffer buffer).trim.bytes ≠ [])
    (htokens : tokenizeSql (CString.ofBuffer buffer).trim = .ok tokens)
    (hfiles : ∀ name, Terminated 10 (file disk dbDir name)) (program : CString) :
    ∃ stmts k ended texts exit,
      splitStatements tokens = .ok (stmts, k, ended) ∧
      (session (openTable disk dbDir) stmts).results.mapM printExecResult = .ok texts ∧
      main disk program args = .ok exit ∧
      exit.stdout = texts.flatten ∧
      exit.status = scriptStatus (session (openTable disk dbDir) stmts) stmts ended ∧
      ∀ name t, (session (openTable disk dbDir) stmts).db name = .ok t →
        ∀ rows, readAllRowsFromTable exit.disk dbDir name t.schema.columnCount = .ok (.ok rows) ↔
          t.rows = some rows := by
  obtain ⟨stmts, k, ended, out, ctx, hsplit, hmain, hprinted, hstatus, hshows⟩ :=
    main_runs_script htext htokens hfiles sqlFile
  obtain ⟨texts, htexts⟩ := prints_ok (session_tabular (openTable disk dbDir) stmts)
  refine ⟨stmts, k, ended, texts, ⟨out.disk, texts.flatten,
    (out.message.map printErrorMessage).getD [], out.status⟩, hsplit, htexts, ?_, rfl, hstatus,
    fun name t ht rows => shows_rows hshows ht rows⟩
  rw [← hprinted] at htexts
  rw [main, hargs]
  simp only [Bool.false_eq_true, if_false, Option.getD_some, hread, hmain, htexts, ok_bind]

def misspeltScript : Bytes :=
  ascii "INSERT INTO users VALUES ('kim'); SELECT name FROM users WHERE id = 1; SELEC 1 FROM users;"

def scriptDisk : Disk := Function.update usersDisk (.lit "q.sql") (some misspeltScript)

theorem dataPath_ne_script (name : CString) : dataPath (.lit "db") name ≠ .lit "q.sql" := by
  intro heq
  have hhead : some 100 = (CString.lit "q.sql").bytes.head? :=
    congrArg (fun path => path.bytes.head?) heq
  revert hhead
  decide

theorem scriptDisk_terminated (name : CString) :
    Terminated 10 (file scriptDisk (.lit "db") name) := by
  rw [file, scriptDisk, Function.update_of_ne (dataPath_ne_script name)]
  exact usersDisk_terminated name

def expected (disk : Disk) (dbDir : CString) (text : CString) :
    Except CString (Checked (List Bytes × StatusCode)) := do
  let tokens ← tokenizeSql text
  .ok (do
    let (stmts, _, ended) ← splitStatements tokens
    let texts ← (session (openTable disk dbDir) stmts).results.mapM printExecResult
    .ok (texts, scriptStatus (session (openTable disk dbDir) stmts) stmts ended))

theorem misspelt_script_expected :
    expected scriptDisk (.lit "db") (CString.ofBuffer misspeltScript).trim =
      .ok (.ok ([ascii "INSERT 1\n", ascii "name\n----\nkim \n\n1 rows selected\n"],
        .parseError)) := by
  decide +kernel

theorem misspelt_script_runs :
    ∃ exit, main scriptDisk (.lit "sql") [.lit "-d", .lit "db", .lit "--file", .lit "q.sql"] =
        .ok exit ∧
      exit.stdout = ascii "INSERT 1\nname\n----\nkim \n\n1 rows selected\n" ∧
      exit.status = .parseError := by
  have heval := misspelt_script_expected
  obtain ⟨tokens, htokens, heval⟩ := bind_eq_ok.mp heval
  obtain ⟨stmts, k, ended, texts, exit, hsplit, htexts, hmain, hstdout, hstatus, -⟩ :=
    @scripts_run_relational_sessions scriptDisk
      [.lit "-d", .lit "db", .lit "--file", .lit "q.sql"] (.lit "db") (.lit "q.sql") misspeltScript
      tokens (by decide) (by decide) (by decide +kernel) htokens scriptDisk_terminated (.lit "sql")
  simp only [hsplit, htexts, ok_bind, Except.ok.injEq, Prod.mk.injEq] at heval
  refine ⟨exit, hmain, ?_, hstatus.trans heval.2⟩
  rw [hstdout, heval.1]
  decide

end CommandLine
