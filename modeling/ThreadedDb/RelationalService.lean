import ThreadedDb.RelationalRefinement
import ThreadedDb.ApiLinearizability

/-!
# Concurrent clients of one relational database

What `db_api_execute_sql` replies, said over the relational database: a request is turned down
before it reaches the database, or it is one statement on it. Calls one after another reply so,
and with the linearization so do concurrent calls, however their locked sections interleave.
-/
namespace RelationalService

open ByteText
open SchemaModel
open StorageModel
open LineFraming (Terminated)
open SqlFrontEnd
open RuntimeModel
open ExecutorModel
open TableCache
open StatementRuns
open DbApiModel
open ApiResponses
open ParserBounds
open TableSections (Db)
open LockedSections
open ConcurrentCalls
open ApiLinearizability
open RelationalModel
open RelationalRefinement
open IndexCoherence (usersDisk usersDisk_terminated)
open CheckedArray (Checked ok_bind bind_eq_ok)

/-- What a response tells its client; the text of an engine error is left open. -/
inductive Reply where
  | rejected (response : ApiResponse)
  | failed (status : StatusCode)
  | result (result : ExecResult)
  deriving DecidableEq

def replyTo : Except StatusCode ExecResult → Reply
  | .error status => .failed status
  | .ok result => .result result

/-- The statement of a request, or the response that turns it down; the gate never faults. -/
def request (sql : CString) : Except ApiResponse Statement :=
  match gate sql with
  | .ok checked => checked
  | .error _ => .error emptyQuery

def serve (db : Database) (sql : CString) : Database × Reply :=
  match request sql with
  | .error response => (db, .rejected response)
  | .ok stmt => ((statement db stmt).1, replyTo (statement db stmt).2)

/-- The response says the reply: with the status and the error code of a failure, or with the JSON
of the result. -/
def Conveys (response : ApiResponse) : Reply → Prop
  | .rejected r => response = r
  | .failed status => response.status = status ∧
      response.httpStatus = (mapEngineStatus status).1 ∧
      ∃ message, response.json = makeErrorJson (mapEngineStatus status).2 message
  | .result r => response.status = .ok ∧ response.httpStatus = 200 ∧
      makeSuccessJson r = .ok response.json

theorem gate_request (sql : CString) : gate sql = .ok (request sql) := by
  obtain ⟨checked, h⟩ := gate_total sql
  rw [request, h]

theorem engineError_conveys (fallback : CString) (e : EngineError) :
    Conveys (engineErrorResponse fallback e) (.failed e.status) :=
  ⟨rfl, rfl, messageOr fallback e.message, rfl⟩

theorem executed_conveys {out : Except EngineError ExecResult} {response : ApiResponse}
    (h : executedResponse out = .ok response) : Conveys response (replyTo (view out)) := by
  cases out with
  | error e =>
    cases h
    exact engineError_conveys _ e
  | ok result =>
    obtain ⟨json, hjson, h⟩ := bind_eq_ok.mp h
    cases h
    exact ⟨rfl, rfl, hjson⟩

/-- One call of `db_api_execute_sql`, with files and cache as one state. -/
def callStep (state : Disk × ExecutionContext) (sql : CString) :
    Checked ((Disk × ExecutionContext) × ApiResponse) := do
  let (disk, ctx, response) ← dbApiExecuteSql state.1 state.2 sql
  .ok ((disk, ctx), response)

section Call

variable {disk : Disk} {dbDir : CString} {ctx : ExecutionContext} {db : Database}

theorem execute_conveys (h : Shows dbDir (disk, ctx) db) (stmt : Statement) :
    ∃ disk' ctx' out response,
      executeStatement noFaults disk ctx stmt = .ok (disk', ctx', out) ∧
      executedResponse out = .ok response ∧ Shows dbDir (disk', ctx') (statement db stmt).1 ∧
      Conveys response (replyTo (statement db stmt).2) := by
  obtain ⟨⟨disk', ctx'⟩, out, hstep, hshows, hview⟩ :=
    statements_simulated dbDir (disk, ctx) db stmt h
  obtain ⟨⟨d, c, o⟩, hexec, hstep⟩ := bind_eq_ok.mp hstep
  cases hstep
  obtain ⟨response, hresponse⟩ :=
    executedResponse_total (effect_of_execute h.healthy.sound hexec)
  refine ⟨disk', ctx', out, response, hexec, hresponse, hshows, ?_⟩
  rw [← hview]
  exact executed_conveys hresponse

theorem call_simulates (h : Shows dbDir (disk, ctx) db) (sql : CString) :
    ∃ state response, callStep (disk, ctx) sql = .ok (state, response) ∧
      Shows dbDir state (serve db sql).1 ∧ Conveys response (serve db sql).2 := by
  have hgate := gate_request sql
  unfold callStep dbApiExecuteSql serve
  dsimp only
  rw [hgate, ok_bind]
  cases hrequest : request sql with
  | error response => exact ⟨(disk, ctx), response, rfl, h, rfl⟩
  | ok stmt =>
    cases stmt with
    | insert stmt =>
      obtain ⟨disk', ctx', out, response, hexec, hresponse, hshows, hconveys⟩ :=
        execute_conveys h (.insert stmt)
      refine ⟨(disk', ctx'), response, ?_, hshows, hconveys⟩
      simp only [hexec, ok_bind, hresponse]
    | select stmt =>
      obtain ⟨disk₁, found, hres⟩ := resolve_total disk ctx stmt.tableName
      simp only [runtimePreloadTable_resolve, hres, ok_bind]
      cases found with
      | error e =>
        refine ⟨(disk₁, ctx), preloadErrorResponse e, rfl, shows_resolve h hres, ?_⟩
        rcases resolve_shows h hres with ⟨e', he', hdb, -⟩ | ⟨table, t, hfound, -⟩
        · cases he'
          simp only [statement, hdb, Except.bind, replyTo]
          exact engineError_conveys _ e
        · cases hfound
      | ok table =>
        obtain ⟨disk', ctx', out, response, hexec, hresponse, hshows, hconveys⟩ :=
          execute_conveys (shows_loaded h hres) (.select stmt)
        refine ⟨(disk', ctx'), response, ?_, hshows, hconveys⟩
        simp only [ok_bind, hexec, hresponse]

end Call

theorem calls_simulated (dbDir : CString) :
    ForwardSimulation.Simulates callStep serve Conveys (Shows dbDir) := by
  rintro ⟨disk, ctx⟩ db sql h
  exact call_simulates h sql

theorem runCalls_run (disk : Disk) (ctx : ExecutionContext) (sqls : List CString)
    {state : Disk × ExecutionContext} {responses : List ApiResponse}
    (h : ForwardSimulation.run callStep (disk, ctx) sqls = .ok (state, responses)) :
    runCalls disk ctx sqls = .ok (state.1, state.2, responses) := by
  induction sqls generalizing disk ctx responses with
  | nil =>
    cases h
    rfl
  | cons sql sqls ih =>
    obtain ⟨⟨s₁, response⟩, hstep, h⟩ := bind_eq_ok.mp h
    obtain ⟨⟨s₂, rest⟩, hrest, h⟩ := bind_eq_ok.mp h
    cases h
    obtain ⟨⟨disk₁, ctx₁, response₁⟩, hcall, hstep⟩ := bind_eq_ok.mp hstep
    cases hstep
    exact runCalls_cons.mpr ⟨disk₁, ctx₁, response, rest, hcall, ih disk₁ ctx₁ hrest, rfl⟩

theorem runCalls_shows {disk : Disk} {dbDir : CString}
    (hfiles : ∀ name, Terminated 10 (file disk dbDir name)) (sqls : List CString) :
    ∃ disk' ctx' responses,
      runCalls disk (initExecutionContext dbDir) sqls = .ok (disk', ctx', responses) ∧
      Shows dbDir (disk', ctx') (ForwardSimulation.specRun serve (openTable disk dbDir) sqls).1 ∧
      List.Forall₂ Conveys responses
        (ForwardSimulation.specRun serve (openTable disk dbDir) sqls).2 := by
  obtain ⟨state, responses, hrun, hshows, hall⟩ :=
    ForwardSimulation.run_simulates (calls_simulated dbDir) (shows_init hfiles) sqls
  exact ⟨state.1, state.2, responses, runCalls_run _ _ _ hrun, hshows, hall⟩

section Clients

variable {Call : Type} [DecidableEq Call] {sql : Call → CString} {disk : Disk} {dbDir : CString}

/-- The calls that took the lock got the replies of one relational database, which the files show
at the end. -/
theorem settled_replies (hfiles : ∀ name, Terminated 10 (file disk dbDir name))
    {events : List (Event Call)} {s : State Call Db CallState}
    (hrun : runEvents api (serverStart disk dbDir sql) events = some s)
    (hdone : ∀ c ∈ s.acquired, Returned (s.stage c)) :
    ∃ ctx' responses,
      s.acquired.dedup.map s.stage =
        responses.map (fun r => Stage.outside (CallState.returned (.ok r))) ∧
      List.Forall₂ Conveys responses (ForwardSimulation.specRun serve (openTable disk dbDir)
        (s.acquired.dedup.map sql)).2 ∧
      Shows dbDir (s.shared.disk, ctx') (ForwardSimulation.specRun serve (openTable disk dbDir)
        (s.acquired.dedup.map sql)).1 ∧
      ∀ c, c ∉ s.acquired → s.stage c = .outside (started (sql c)) := by
  obtain ⟨ls, seq, responses, hstage, -, hsame, -, hnew, hseq, hanswers⟩ :=
    settled_linearized hrun hdone
  obtain ⟨disk', ctx', responses', hcalls, hshows, hall⟩ :=
    runCalls_shows hfiles (s.acquired.dedup.map sql)
  rw [hseq] at hcalls
  cases hcalls
  refine ⟨seq.ctx, responses, (stages_of_answers hstage hanswers).symm, hall, ?_, ?_⟩
  · rw [hsame.disk]
    exact hshows
  · intro c hc
    rw [hstage c, hnew c hc]

end Clients

/-- Over data files that are missing, empty or newline-terminated, and where no write and no
allocation fails: however the locked sections of
concurrent calls interleave, once the calls that took the lock have returned, their responses are
the replies of one relational database to them one after another, in the order in which each took
the lock for the last time, and the files hold its rows. A call that has not taken the lock is
where it was. -/
theorem concurrent_clients_see_one_database {Call : Type} [DecidableEq Call]
    (sql : Call → CString) (disk : Disk) (dbDir : CString)
    (hfiles : ∀ name, Terminated 10 (file disk dbDir name))
    {events : List (Event Call)} {s : State Call Db CallState}
    (hrun : runEvents api (serverStart disk dbDir sql) events = some s)
    (hdone : ∀ c ∈ s.acquired, Returned (s.stage c)) :
    (∃ responses, s.acquired.dedup.map s.stage =
        responses.map (fun r => Stage.outside (CallState.returned (.ok r))) ∧
      List.Forall₂ Conveys responses (ForwardSimulation.specRun serve (openTable disk dbDir)
        (s.acquired.dedup.map sql)).2) ∧
    (∀ c, c ∉ s.acquired → s.stage c = .outside (started (sql c))) ∧
    ∀ name t, (ForwardSimulation.specRun serve (openTable disk dbDir)
        (s.acquired.dedup.map sql)).1 name = .ok t →
      ∀ rows, readAllRowsFromTable s.shared.disk dbDir name t.schema.columnCount =
        .ok (.ok rows) ↔ t.rows = some rows := by
  obtain ⟨ctx', responses, hstages, hall, hshows, hnew⟩ := settled_replies hfiles hrun hdone
  exact ⟨⟨responses, hstages, hall⟩, hnew, fun name t ht rows => shows_rows hshows ht rows⟩

theorem users_clients_see_one_database : ∃ s responses,
    runEvents api (serverStart usersDisk (.lit "db") requests) schedule = some s ∧
    [1, 0, 2].map s.stage =
      responses.map (fun r => Stage.outside (CallState.returned (.ok r))) ∧
    List.Forall₂ Conveys responses [.result (insertResult (some 1)),
      .result ⟨.select, 1, ⟨[.lit "id", .lit "name"], [[.lit "1", .lit "kim"]]⟩, false, none⟩,
      .result ⟨.select, 1, ⟨[.lit "name"], [[.lit "kim"]]⟩, true, none⟩] := by
  have heval : (runEvents api (serverStart usersDisk (.lit "db") requests) schedule).map
      (fun s => (s.acquired, [0, 1, 2].map (fun c => decide (Returned (s.stage c))))) =
        some ([0, 1, 2, 0, 2], [true, true, true]) := by decide +kernel
  obtain ⟨s, hs, hstate⟩ := Option.map_eq_some_iff.mp heval
  simp only [Prod.mk.injEq, List.map_cons, List.map_nil, List.cons.injEq, decide_eq_true_eq,
    and_true] at hstate
  obtain ⟨hacquired, h0, h1, h2⟩ := hstate
  have hdone : ∀ c ∈ s.acquired, Returned (s.stage c) := by
    intro c _
    fin_cases c
    · exact h0
    · exact h1
    · exact h2
  obtain ⟨⟨responses, hstages, hall⟩, -⟩ := concurrent_clients_see_one_database requests usersDisk
    (.lit "db") usersDisk_terminated hs hdone
  have horder : s.acquired.dedup = [1, 0, 2] := by
    rw [hacquired]
    decide
  rw [horder] at hstages hall
  refine ⟨s, responses, hs, hstages, ?_⟩
  have hreplies : (ForwardSimulation.specRun serve (openTable usersDisk (.lit "db"))
      ([1, 0, 2].map requests)).2 = [.result (insertResult (some 1)),
        .result ⟨.select, 1, ⟨[.lit "id", .lit "name"], [[.lit "1", .lit "kim"]]⟩, false, none⟩,
        .result ⟨.select, 1, ⟨[.lit "name"], [[.lit "kim"]]⟩, true, none⟩] := by decide +kernel
  rwa [hreplies] at hall

end RelationalService
