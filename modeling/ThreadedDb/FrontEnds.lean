import ThreadedDb.CommandLine
import ThreadedDb.RelationalService
import ThreadedDb.GateAgreement

/-!
# Two front ends, one database

The same statements can be put into a file for the command line, one on a line, or sent to the
server one by one. The lexer cuts the file at its lines, so both ways end in the same session of the
relational database: the terminal shows the results of the responses up to the first that is not
200, whose status is the exit status, and without such a response the files agree as well.
-/
namespace FrontEnds

open ByteText
open SchemaModel
open StorageModel
open SqlFrontEnd
open RuntimeModel
open ExecutorModel
open StatementRuns
open DbApiModel
open ParserBounds
open SqlGrammar
open ScriptLoop (Script splitStatements script_splits)
open LexerRoundTrip
open GateAgreement (Parsed gate_iff_parsed nextToken_behind tokenizeSql_trim)
open RelationalModel
open RelationalRefinement
open RelationalService
open CommandLine
open ResultTable
open LineFraming (Terminated)
open IndexCoherence (usersDisk usersDisk_terminated kim)
open SelectSpec (selectFirst)
open CheckedArray (Checked ok_bind)

theorem stringBytes_closed {w b text rest : Bytes} (hw : Parted w)
    (h : stringBytes b = .ok (text, rest)) : stringBytes (b ++ w) = .ok (text, rest ++ w) := by
  fun_induction stringBytes b generalizing text rest with
  | case1 => cases h
  | case2 =>
    cases h
    exact stringBytes_complete [] hw.no_quote
  | case3 b message hrec ih => cases h
  | case4 b text' rest' hrec ih =>
    cases h
    rw [stringBytes.eq_def]
    simp [ih hrec]
  | case5 c b hc =>
    cases h
    rw [stringBytes.eq_def]
    simp [hc]
  | case6 c b hc message hrec ih => cases h
  | case7 c b hc text' rest' hrec ih =>
    cases h
    rw [stringBytes.eq_def]
    simp [hc, ih hrec]

theorem nextToken_closed {w : Bytes} (hw : Parted w) {ch : UInt8} {b rest : Bytes} {token : Token}
    (h : nextToken ch b = .ok (token, rest)) :
    nextToken ch (b ++ w) = .ok (token, rest ++ w) := by
  rw [nextToken_behind hw ?_, h]
  · rfl
  rintro rfl
  cases hstring : stringBytes b with
  | error message =>
    rw [nextToken, if_neg (by decide), if_neg (by simp [isDigit]), if_pos rfl, tokenizeString,
      List.drop_one, List.tail_cons, hstring] at h
    cases h
  | ok r => exact stringBytes_closed hw hstring

/-- A text that lexes, and another one behind it after white space: the tokens of both. -/
theorem tokenizeFrom_then {w : Bytes} (hw : Parted w) {us : List Token}
    (hus : ∀ n, w.length < n → tokenizeFrom n w = .ok us) {rounds n : ℕ} {b : Bytes}
    {ts : List Token} (hrounds : b.length < rounds) (hn : (b ++ w).length < n)
    (h : tokenizeFrom rounds b = .ok (ts ++ [eofToken])) :
    tokenizeFrom n (b ++ w) = .ok (ts ++ us) := by
  induction rounds generalizing b ts n with
  | zero => omega
  | succ rounds ih =>
    cases b with
    | nil =>
      obtain rfl : ts = [] := by
        rw [tokenizeFrom_nil (Nat.succ_pos _)] at h
        cases ts with
        | nil => rfl
        | cons t ts => simp at h
      exact hus n hn
    | cons ch b =>
      obtain ⟨n, rfl⟩ : ∃ m, n = m + 1 := ⟨n - 1, by omega⟩
      rw [List.cons_append, List.length_cons] at hn
      rw [List.length_cons] at hrounds
      rw [List.cons_append]
      by_cases hch : isSpace ch = true
      · rw [tokenizeFrom_space hch] at h ⊢
        exact ih (by omega) (by omega) h
      · obtain ⟨t, tail, more, hnext, hmore, heq⟩ := tokenizeFrom_ok hch h
        have hshrink := nextToken_shrinks hnext
        cases ts with
        | nil =>
          -- the last token of a text is EOF, and no byte lexes to it
          obtain ⟨rfl, -⟩ := List.cons.inj heq
          exact absurd rfl (nextToken_type hnext)
        | cons u ts =>
          obtain ⟨rfl, rfl⟩ := List.cons.inj heq
          rw [List.length_append] at hn
          refine tokenizeFrom_token (by simpa using hch) (nextToken_closed hw hnext) ?_
          exact ih (by omega) (by rw [List.length_append]; omega) hmore

def oneOnALine (sqls : List CString) : Bytes := sqls.flatMap (fun sql => sql.bytes ++ [10])

theorem script_semicolons {semis rest : List Token} {stmts : List Statement}
    (hsemis : Semicolons semis) (h : Script rest stmts) : Script (semis ++ rest) stmts := by
  have hboth {more : List Token} (hmore : Semicolons more) : Semicolons (semis ++ more) := by
    intro t ht
    rcases List.mem_append.mp ht with ht | ht
    · exact hsemis t ht
    · exact hmore t ht
  cases h with
  | done hmore => exact .done (hboth hmore)
  | next hmore hsentence hrest =>
    rw [← List.append_assoc]
    exact .next (hboth hmore) hsentence hrest

theorem lines_script {sqls : List CString} {stmts : List Statement}
    (h : List.Forall₂ Parsed sqls stmts) :
    ∃ text, Script text stmts ∧ ∀ n, (oneOnALine sqls).length < n →
      tokenizeFrom n (oneOnALine sqls) = .ok (text ++ [eofToken]) := by
  induction h with
  | nil => exact ⟨[], .done (by simp [Semicolons]), fun n hn => tokenizeFrom_nil hn⟩
  | @cons sql stmt sqls stmts hparsed _ ih =>
    obtain ⟨text, hscript, hlex⟩ := ih
    obtain ⟨tokens, htokens, hparse⟩ := hparsed
    obtain ⟨ts, -, -, hts, -⟩ := lexed_spelled (Nat.lt_succ_self _) sql.nulFree htokens
    obtain ⟨before, body, after, eof, hone, hbefore, hsentence, hafter, -⟩ :=
      parseStatement_sound (tokenizeSql_ends htokens) hparse
    have hparts : ts = before ++ body ++ after := by
      rw [hone] at hts
      exact (List.append_inj_left' hts rfl).symm
    refine ⟨ts ++ text, ?_, ?_⟩
    · rw [hparts, List.append_assoc, List.append_assoc]
      exact .next hbefore hsentence (script_semicolons hafter hscript)
    · intro n hn
      have hparted : Parted (10 :: oneOnALine sqls) := by
        intro c hc
        cases hc
        decide
      have hnext : ∀ n, (10 :: oneOnALine sqls).length < n →
          tokenizeFrom n (10 :: oneOnALine sqls) = .ok (text ++ [eofToken]) := by
        intro n hn
        obtain ⟨n, rfl⟩ : ∃ m, n = m + 1 := ⟨n - 1, by omega⟩
        rw [List.length_cons] at hn
        rw [tokenizeFrom_space (by decide)]
        exact hlex n (by omega)
      have hline : oneOnALine (sql :: sqls) = sql.bytes ++ 10 :: oneOnALine sqls := by
        rw [oneOnALine, List.flatMap_cons, List.append_assoc]
        rfl
      rw [hts] at htokens
      rw [hline] at hn ⊢
      rw [List.append_assoc]
      exact tokenizeFrom_then hparted hnext (Nat.lt_succ_self _) hn htokens

theorem oneOnALine_nulFree (sqls : List CString) : 0 ∉ oneOnALine sqls := by
  intro hzero
  obtain ⟨sql, -, hmem⟩ := List.mem_flatMap.mp hzero
  rcases List.mem_append.mp hmem with hmem | hmem
  · exact sql.nulFree hmem
  · simp at hmem

theorem lines_split {sqls : List CString} {stmts : List Statement}
    (h : List.Forall₂ Parsed sqls stmts) (hne : stmts ≠ []) :
    ∃ tokens k, (CString.ofBuffer (oneOnALine sqls)).trim.bytes ≠ [] ∧
      tokenizeSql (CString.ofBuffer (oneOnALine sqls)).trim = .ok tokens ∧
      splitStatements tokens = .ok (stmts, k, .ok ()) := by
  obtain ⟨text, hscript, hlex⟩ := lines_script h
  have htokens : tokenizeSql (CString.ofBuffer (oneOnALine sqls)).trim =
      .ok (text ++ [eofToken]) := by
    rw [tokenizeSql_trim, tokenizeSql, ofBuffer_of_nulFree (oneOnALine_nulFree sqls)]
    exact hlex _ (Nat.lt_succ_self _)
  refine ⟨text ++ [eofToken], text.length, ?_, htokens, script_splits hscript rfl⟩
  intro hempty
  rw [tokenizeSql, hempty] at htokens
  cases hscript with
  | done => exact hne rfl
  | @next semis ts rest stmt stmts _ hsentence _ =>
    obtain ⟨t, tail, rfl, -⟩ := sentence_start hsentence
    have hlen := congrArg (fun r => r.toOption.map List.length) htokens
    simp [tokenizeFrom, Except.toOption] at hlen
    omega

theorem mapEngineStatus_failure (status : StatusCode) : (mapEngineStatus status).1 ≠ 200 := by
  cases status <;> decide

def Carries (response : ApiResponse) (result : ExecResult) : Prop :=
  response.httpStatus = 200 ∧ makeSuccessJson result = .ok response.json

theorem session_calls {sqls : List CString} {stmts : List Statement}
    (h : List.Forall₂ Parsed sqls stmts) {db : Database} {responses : List ApiResponse}
    (hall : List.Forall₂ Conveys responses (ForwardSimulation.specRun serve db sqls).2) :
    List.Forall₂ Carries (responses.takeWhile (fun r => r.httpStatus = 200))
      (session db stmts).results ∧
    (session db stmts).failed =
      (responses.find? (fun r => r.httpStatus ≠ 200)).map ApiResponse.status ∧
    ((session db stmts).failed = none →
      (session db stmts).db = (ForwardSimulation.specRun serve db sqls).1) := by
  induction h generalizing db responses with
  | nil =>
    cases hall
    exact ⟨.nil, rfl, fun _ => rfl⟩
  | @cons sql stmt sqls stmts hparsed _ ih =>
    have hrequest : request sql = .ok stmt := by
      rw [request, gate_iff_parsed.mpr hparsed]
    have hserve : serve db sql = ((statement db stmt).1, replyTo (statement db stmt).2) := by
      rw [serve, hrequest]
    have hrun : ForwardSimulation.specRun serve db (sql :: sqls) =
        ((ForwardSimulation.specRun serve (statement db stmt).1 sqls).1,
          replyTo (statement db stmt).2 ::
            (ForwardSimulation.specRun serve (statement db stmt).1 sqls).2) := by
      rw [ForwardSimulation.specRun, hserve]
    rw [hrun] at hall ⊢
    cases hall with
    | @cons response _ responses _ hconveys hall =>
      cases hanswer : (statement db stmt).2 with
      | error status =>
        have hstmt : statement db stmt = ((statement db stmt).1, .error status) :=
          Prod.ext rfl hanswer
        rw [hanswer] at hconveys
        obtain ⟨hstatus, hhttp, -⟩ := hconveys
        have hfail : response.httpStatus ≠ 200 := hhttp ▸ mapEngineStatus_failure status
        rw [session_error hstmt, List.takeWhile_cons_of_neg (by simpa using hfail),
          List.find?_cons_of_pos (by simpa using hfail)]
        refine ⟨.nil, ?_, fun hnone => by cases hnone⟩
        rw [Option.map_some, hstatus]
      | ok result =>
        have hstmt : statement db stmt = ((statement db stmt).1, .ok result) :=
          Prod.ext rfl hanswer
        rw [hanswer] at hconveys
        obtain ⟨-, hhttp, hjson⟩ := hconveys
        obtain ⟨hresults, hfailed, hdb⟩ := ih hall
        rw [session_ok hstmt, List.takeWhile_cons_of_pos (by simpa using hhttp),
          List.find?_cons_of_neg (by simpa using hhttp)]
        exact ⟨.cons ⟨hhttp, hjson⟩ hresults, hfailed, hdb⟩

theorem statement_schema {db : Database} {name : CString} {t : Table} (h : db name = .ok t)
    (stmt : Statement) : ∃ t', (statement db stmt).1 name = .ok t' ∧ t'.schema = t.schema := by
  cases stmt with
  | select stmt => exact ⟨t, h, rfl⟩
  | insert stmt =>
    cases hdb : db stmt.tableName with
    | error status =>
      refine ⟨t, ?_, rfl⟩
      simp only [statement, hdb]
      exact h
    | ok u =>
      simp only [statement, hdb]
      by_cases hname : name = stmt.tableName
      · subst hname
        rw [h] at hdb
        cases hdb
        refine ⟨_, Function.update_self _ _ _, ?_⟩
        unfold Table.insert
        split
        · rfl
        · rfl
      · exact ⟨t, by rw [Function.update_of_ne hname, h], rfl⟩

theorem session_schema {db : Database} {name : CString} {t : Table} (h : db name = .ok t)
    (stmts : List Statement) :
    ∃ t', (session db stmts).db name = .ok t' ∧ t'.schema = t.schema := by
  induction stmts generalizing db t with
  | nil => exact ⟨t, h, rfl⟩
  | cons stmt stmts ih =>
    obtain ⟨t₁, ht₁, hschema⟩ := statement_schema h stmt
    cases hanswer : (statement db stmt).2 with
    | error status =>
      rw [session_error (Prod.ext rfl hanswer)]
      exact ⟨t₁, ht₁, hschema⟩
    | ok result =>
      rw [session_ok (Prod.ext rfl hanswer)]
      obtain ⟨t', ht', hschema'⟩ := ih ht₁
      exact ⟨t', ht', hschema'.trans hschema⟩

/-- At least one statement that the server accepts, sent one by one, and a file with one of them on
each line for the command line, over the same data files, which are missing, empty or
newline-terminated, where no write and no allocation fails. The terminal shows the results of the
responses before the first that is not 200; the exit status is that of this response, or 0 without
one, and then every table that opens has the same rows in both sets of files. -/
theorem front_ends_agree {disk : Disk} {dbDir sqlFile : CString} {sqls : List CString}
    {stmts : List Statement} (hsqls : List.Forall₂ Parsed sqls stmts) (hne : sqls ≠ [])
    (hfile : disk sqlFile = some (oneOnALine sqls))
    (hfiles : ∀ name, Terminated 10 (file disk dbDir name)) {args : List CString}
    (hargs : parseCliArgs args = some ⟨some dbDir, some sqlFile, false⟩) (program : CString) :
    ∃ disk' ctx' responses exit results texts,
      runCalls disk (initExecutionContext dbDir) sqls = .ok (disk', ctx', responses) ∧
      main disk program args = .ok exit ∧
      List.Forall₂ Carries (responses.takeWhile (fun r => r.httpStatus = 200)) results ∧
      results.mapM printExecResult = .ok texts ∧ exit.stdout = texts.flatten ∧
      exit.status =
        ((responses.find? (fun r => r.httpStatus ≠ 200)).map ApiResponse.status).getD .ok ∧
      ((∀ r ∈ responses, r.httpStatus = 200) → ∀ name t, openTable disk dbDir name = .ok t →
        ∀ rows, readAllRowsFromTable disk' dbDir name t.schema.columnCount = .ok (.ok rows) ↔
          readAllRowsFromTable exit.disk dbDir name t.schema.columnCount = .ok (.ok rows)) := by
  have hstmts : stmts ≠ [] := by
    intro hnil
    rw [hnil] at hsqls
    cases hsqls
    exact hne rfl
  have hbuffer : oneOnALine sqls ≠ [] := by
    obtain ⟨sql, rest, rfl⟩ := List.exists_cons_of_ne_nil hne
    simp [oneOnALine]
  have hread : readTextFile disk sqlFile = some (oneOnALine sqls) := by
    rw [readTextFile, hfile, Option.filter_some_pos (by simpa using hbuffer)]
  obtain ⟨tokens, k, htext, htokens, hsplit⟩ := lines_split hsqls hstmts
  obtain ⟨stmts', k', ended, out, ctx, hsplit', hmain, hprinted, hstatus, hshows⟩ :=
    main_runs_script htext htokens hfiles sqlFile
  rw [hsplit] at hsplit'
  cases hsplit'
  obtain ⟨texts, htexts⟩ := prints_ok (session_tabular (openTable disk dbDir) stmts)
  obtain ⟨disk', ctx', responses, hcalls, hshows', hall⟩ := runCalls_shows hfiles sqls
  obtain ⟨hresults, hfailed, hdb⟩ := session_calls hsqls hall
  refine ⟨disk', ctx', responses, ⟨out.disk, texts.flatten,
    (out.message.map printErrorMessage).getD [], out.status⟩, _, texts, hcalls, ?_, hresults,
    htexts, rfl, ?_, ?_⟩
  · rw [← hprinted] at htexts
    rw [main, hargs]
    simp only [Bool.false_eq_true, if_false, Option.getD_some, hread, hmain, htexts, ok_bind]
  · rw [← hfailed, hstatus, scriptStatus, if_neg hstmts]
    cases (session (openTable disk dbDir) stmts).failed <;> rfl
  · intro hok name t ht rows
    have hnone : (session (openTable disk dbDir) stmts).failed = none := by
      rw [hfailed, List.find?_eq_none.mpr (fun r hr => by simpa using hok r hr)]
      rfl
    obtain ⟨t', ht', hschema⟩ := session_schema ht stmts
    rw [← hschema, shows_rows hshows ht', shows_rows hshows' (hdb hnone ▸ ht')]

/-- Two statements that succeed, and a query for a column that is not there. -/
def someSqls : List CString :=
  [.lit "INSERT INTO users VALUES ('kim');", .lit "SELECT name FROM users WHERE id = 1",
    .lit "SELECT age FROM users;"]

def someStatements : List Statement :=
  [.insert kim, .select selectFirst, .select ⟨.lit "users", false, [.lit "age"], none⟩]

def linesDisk : Disk := Function.update usersDisk (.lit "q.sql") (some (oneOnALine someSqls))

theorem someSqls_parsed : List.Forall₂ Parsed someSqls someStatements :=
  .cons (gate_iff_parsed.mp (by decide +kernel)) (.cons (gate_iff_parsed.mp (by decide +kernel))
    (.cons (gate_iff_parsed.mp (by decide +kernel)) .nil))

theorem linesDisk_terminated (name : CString) :
    Terminated 10 (file linesDisk (.lit "db") name) := by
  rw [file, linesDisk, Function.update_of_ne (dataPath_ne_script name)]
  exact usersDisk_terminated name

theorem third_query_fails_both :
    ∃ disk' ctx' responses exit,
      runCalls linesDisk (initExecutionContext (.lit "db")) someSqls =
        .ok (disk', ctx', responses) ∧
      main linesDisk (.lit "sql") [.lit "--db", .lit "db", .lit "-f", .lit "q.sql"] = .ok exit ∧
      responses.map (fun r => r.httpStatus) = [200, 200, 400] ∧ exit.status = .execError := by
  have heval : (runCalls linesDisk (initExecutionContext (.lit "db")) someSqls).map
      (fun r => r.2.2.map (fun response => (response.httpStatus, response.status))) =
        .ok [(200, .ok), (200, .ok), (400, .execError)] := by
    decide +kernel
  obtain ⟨disk', ctx', responses, exit, results, texts, hcalls, hmain, -, -, -, hstatus, -⟩ :=
    @front_ends_agree linesDisk (.lit "db") (.lit "q.sql") someSqls someStatements someSqls_parsed
      (by decide) (by decide) linesDisk_terminated
      [.lit "--db", .lit "db", .lit "-f", .lit "q.sql"] (by decide) (.lit "sql")
  rw [hcalls] at heval
  have hseen : responses.map (fun r => (r.httpStatus, r.status)) =
      [(200, .ok), (200, .ok), (400, .execError)] := by
    simpa [Except.map] using heval
  obtain ⟨r₁, rest, rfl, h₁, hseen⟩ := List.map_eq_cons_iff.mp hseen
  obtain ⟨r₂, rest, rfl, h₂, hseen⟩ := List.map_eq_cons_iff.mp hseen
  obtain ⟨r₃, rest, rfl, h₃, hseen⟩ := List.map_eq_cons_iff.mp hseen
  obtain rfl := List.map_eq_nil_iff.mp hseen
  obtain ⟨h₁, -⟩ := Prod.mk.inj h₁
  obtain ⟨h₂, -⟩ := Prod.mk.inj h₂
  obtain ⟨h₃, h₃'⟩ := Prod.mk.inj h₃
  refine ⟨disk', ctx', _, exit, hcalls, hmain, by simp [h₁, h₂, h₃], ?_⟩
  simpa [h₁, h₂, h₃, h₃'] using hstatus

end FrontEnds
