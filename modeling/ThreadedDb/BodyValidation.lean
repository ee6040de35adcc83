import ThreadedDb.ServerModel
import ThreadedDb.HttpReading
import ThreadedDb.EventLog

/-!
# The body of a query

Which SQL the handler of a client executes. The body of a request has a length, while the JSON in
it is read as a C string: where the two differ, only the part before the first NUL is looked at.
-/
namespace BodyValidation

open ByteText
open DbApiModel (messageOr)
open JsonModel
open JsonGrammar
open HttpModel
open HttpReading
open ServerModel
open EventLog
open CheckedArray (Fault)

abbrev Executing (α : Type) := Logged CString Fault α

def dbApiExecuteSql (execute : CString → SqlOutcome) (sql : CString) : Executing SqlOutcome := do
  emit sql
  pure (execute sql)

def queryExecuting (body : Bytes) (execute : CString → SqlOutcome) :
    Executing (Option HttpResponse) := do
  match ← silent (jsonExtractStringField (.ofBuffer body) (.lit "sql")) with
  | .error ⟨.invalidJson, errbuf⟩ =>
    pure (httpSendErrorResponse 400 (.lit "INVALID_JSON") (messageOr (.lit "invalid json") errbuf))
  | .error ⟨.missingField, errbuf⟩ =>
    pure (httpSendErrorResponse 400 (.lit "MISSING_SQL_FIELD")
      (messageOr (.lit "missing sql field") errbuf))
  | .error ⟨.internalError, errbuf⟩ =>
    pure (httpSendErrorResponse 500 (.lit "INTERNAL_ERROR")
      (messageOr (.lit "internal server error") errbuf))
  | .ok sql => do
    let outcome ← dbApiExecuteSql execute sql
    match outcome.json with
    | none =>
      pure (httpSendErrorResponse 500 (.lit "INTERNAL_ERROR") (.lit "failed to build sql response"))
    | some json => pure (httpSendJsonResponse outcome.httpStatus (some json))

def routeExecuting (req : HttpRequest) (execute : CString → SqlOutcome) :
    Executing (Option HttpResponse) :=
  if req.path = .lit "/health" then
    if req.method ≠ .lit "GET" then
      pure (httpSendErrorResponse 405 (.lit "METHOD_NOT_ALLOWED")
        (.lit "only GET is allowed for /health"))
    else
      pure (httpSendJsonResponse 200
        (some (.lit "\x7b\"success\":true,\"service\":\"mini_db_server\"\x7d")))
  else if req.path = .lit "/query" then
    if req.method ≠ .lit "POST" then
      pure (httpSendErrorResponse 405 (.lit "METHOD_NOT_ALLOWED")
        (.lit "only POST is allowed for /query"))
    else queryExecuting req.body execute
  else pure (httpSendErrorResponse 404 (.lit "NOT_FOUND") (.lit "route not found"))

def handleExecuting (userData : Option Server) (memory : Bool) (socket : Socket)
    (execute : CString → SqlOutcome) : Executing (List SocketAction) :=
  match userData with
  | none => pure [.close]
  | some _ => do
    match ← silent (httpReadRequest memory socket) with
    | .payloadTooLarge errbuf =>
      pure (send (httpSendErrorResponse 413 (.lit "PAYLOAD_TOO_LARGE")
        (messageOr (.lit "request body too large") errbuf)) ++ [.close])
    | .internalError errbuf =>
      pure (send (httpSendErrorResponse 500 (.lit "INTERNAL_ERROR")
        (messageOr (.lit "internal server error") errbuf)) ++ [.close])
    | .badRequest errbuf =>
      pure (send (httpSendErrorResponse 400 (.lit "BAD_REQUEST")
        (messageOr (.lit "bad request") errbuf)) ++ [.close])
    | .ok req => do
      let response ← routeExecuting req execute
      pure (send response ++ [.close])

theorem query_erases (body : Bytes) (execute : CString → SqlOutcome) :
    (queryExecuting body execute).result = queryResponse body execute := by
  unfold queryExecuting queryResponse
  refine erases_bind rfl (fun extracted => ?_)
  split
  · rfl
  · rfl
  · rfl
  · rename_i sql
    rw [result_bind]
    change Except.bind (Except.ok (execute sql)) _ = _
    dsimp only [Except.bind]
    cases (execute sql).json with
    | none => rfl
    | some json => rfl

theorem route_erases (req : HttpRequest) (execute : CString → SqlOutcome) :
    (routeExecuting req execute).result = routeResponse req execute := by
  unfold routeExecuting routeResponse
  split
  · split
    · rfl
    · rfl
  split
  · split
    · rfl
    · exact query_erases req.body execute
  · rfl

theorem handle_erases (server : Server) (memory : Bool) (socket : Socket)
    (execute : CString → SqlOutcome) :
    (handleExecuting (some server) memory socket execute).result =
      httpReadRequest memory socket >>= fun read =>
        serverHandleClientTask (some server) read execute := by
  unfold handleExecuting
  refine erases_bind rfl (fun read => ?_)
  cases read with
  | ok req => exact erases_bind (route_erases req execute) (fun _ => rfl)
  | badRequest message => rfl
  | payloadTooLarge message => rfl
  | internalError message => rfl

theorem executed_first {α : Type} (execute : CString → SqlOutcome) (sql : CString)
    (next : SqlOutcome → Executing α) : (dbApiExecuteSql execute sql >>= next).events =
      sql :: (next (execute sql)).events := rfl

/-- The SQL is the text that is extracted from the body, and nothing else is executed. -/
theorem query_executes (body : Bytes) (execute : CString → SqlOutcome) (sql : CString) :
    sql ∈ (queryExecuting body execute).events ↔
      jsonExtractStringField (.ofBuffer body) (.lit "sql") = .ok (.ok sql) := by
  obtain ⟨r, hr⟩ := extract_total (.ofBuffer body) (.lit "sql")
  have hsilent : (silent (jsonExtractStringField (.ofBuffer body) (.lit "sql")) : Executing _) =
      ⟨[], .ok r⟩ := by
    rw [hr]
    rfl
  unfold queryExecuting
  rw [bind_of_ok hsilent, List.nil_append, hr]
  cases r with
  | error e =>
    obtain ⟨status, message⟩ := e
    cases status with
    | invalidJson => simp [pure]
    | missingField => simp [pure]
    | internalError => simp [pure]
  | ok value =>
    dsimp only
    rw [executed_first]
    cases (execute value).json with
    | none => simp [pure, eq_comm]
    | some json => simp [pure, eq_comm]

theorem handle_executes {server : Server} {memory : Bool} {socket : Socket} {req : HttpRequest}
    (hread : httpReadRequest memory socket = .ok (.ok req)) (hpath : req.path = .lit "/query")
    (hmethod : req.method = .lit "POST") (execute : CString → SqlOutcome) :
    (handleExecuting (some server) memory socket execute).events =
      (queryExecuting req.body execute).events := by
  have hsilent : (silent (httpReadRequest memory socket) : Executing _) = ⟨[], .ok (.ok req)⟩ := by
    rw [hread]
    rfl
  have hroute : routeExecuting req execute = queryExecuting req.body execute := by
    unfold routeExecuting
    rw [hpath, hmethod, if_neg (by decide), if_pos rfl, if_neg (by simp)]
  unfold handleExecuting
  dsimp only
  rw [bind_of_ok hsilent, List.nil_append]
  dsimp only
  rw [hroute, events_bind_pure]

theorem white_nulFree {b : Bytes} (h : White b) : 0 ∉ b := fun hmem => by
  cases h 0 hmem

theorem chars_source_nulFree {s text : Bytes} (h : Chars s text) : 0 ∉ s := by
  induction h with
  | nil => exact List.not_mem_nil
  | @plain c s text hcontrol hquote hslash hchars ih =>
    intro hmem
    rcases List.mem_cons.mp hmem with rfl | hrest
    · exact hcontrol (by decide)
    · exact ih hrest
  | @escape e c s text hescape hchars ih =>
    intro hmem
    simp only [List.mem_cons] at hmem
    rcases hmem with hslash | rfl | hrest
    · cases hslash
    · simp [escapes] at hescape
    · exact ih hrest

theorem quoted_nulFree {q : Bytes} {text : CString} (h : Quoted q text) : 0 ∉ q := by
  obtain ⟨hchars⟩ := h
  simpa using chars_source_nulFree hchars

theorem digits_nulFree {b : Bytes} (h : DigitRun b) : 0 ∉ b := fun hmem => by
  cases h.2 0 hmem

theorem fraction_nulFree {b : Bytes} (h : Fraction b) : 0 ∉ b := by
  cases h with
  | absent => exact List.not_mem_nil
  | given hdigits => simpa using digits_nulFree hdigits

theorem exponent_nulFree {b : Bytes} (h : Exponent b) : 0 ∉ b := by
  cases h with
  | absent => exact List.not_mem_nil
  | given hletter hsign hdigits =>
    have hrun := digits_nulFree hdigits
    rcases hletter with rfl | rfl <;> rcases hsign with rfl | rfl | rfl <;> simpa using hrun

theorem number_nulFree {b : Bytes} (h : Number b) : 0 ∉ b := by
  obtain ⟨hsign, hwhole, hfraction, hexponent⟩ := h
  have hrest := And.intro (digits_nulFree hwhole)
    (And.intro (fraction_nulFree hfraction) (exponent_nulFree hexponent))
  rcases hsign with rfl | rfl <;> simpa using hrest

theorem value_nulFree {b : Bytes} {value : Option CString} (h : Value b value) : 0 ∉ b := by
  cases h with
  | string hquoted => exact quoted_nulFree hquoted
  | word hword => rcases hword with rfl | rfl | rfl <;> decide
  | number hnumber => exact number_nulFree hnumber

theorem member_nulFree {b : Bytes} {m : Member} (h : MemberText b m) : 0 ∉ b := by
  obtain ⟨hbefore, hkey, hafter, hspace, hvalue⟩ := h
  simp [white_nulFree hbefore, quoted_nulFree hkey, white_nulFree hafter, white_nulFree hspace,
    value_nulFree hvalue]

theorem members_nulFree {b : Bytes} {ms : List Member} (h : Members b ms) : 0 ∉ b := by
  induction h with
  | last hmember hafter => simp [member_nulFree hmember, white_nulFree hafter]
  | cons hmember hafter _ ih => simp [member_nulFree hmember, white_nulFree hafter, ih]

theorem object_nulFree {b : Bytes} {ms : List Member} (h : Object b ms) : 0 ∉ b := by
  obtain ⟨hbefore, hbody, hafter⟩ := h
  simp [white_nulFree hbefore, members_nulFree hbody, white_nulFree hafter]

def GivesSql (text : Bytes) (sql : CString) : Prop :=
  ∃ ms, Object text ms ∧ Strings (.lit "sql") ms ∧ firstValue (.lit "sql") ms = some sql

/-- The body goes on behind a NUL, and what stands before it is complete. -/
def CutShort (body : Bytes) : Prop := 0 ∈ body ∧ ∃ sql, GivesSql (CString.ofBuffer body).bytes sql

theorem executes_iff {server : Server} {memory : Bool} {socket : Socket} {req : HttpRequest}
    (hread : httpReadRequest memory socket = .ok (.ok req)) (hpath : req.path = .lit "/query")
    (hmethod : req.method = .lit "POST") (execute : CString → SqlOutcome) (sql : CString) :
    sql ∈ (handleExecuting (some server) memory socket execute).events ↔
      GivesSql (CString.ofBuffer req.body).bytes sql := by
  rw [handle_executes hread hpath hmethod, query_executes]
  refine ⟨extract_sound, ?_⟩
  rintro ⟨ms, hobject, hstrings, hvalue⟩
  exact extract_complete hobject hstrings hvalue

/-- All bytes of the body decide what is executed, except where a NUL follows an object that is
complete. -/
theorem whole_body_validated_iff {memory : Bool} {socket : Socket} {req : HttpRequest}
    (hread : httpReadRequest memory socket = .ok (.ok req)) (hpath : req.path = .lit "/query")
    (hmethod : req.method = .lit "POST") (server : Server) (execute : CString → SqlOutcome) :
    (∀ sql ∈ (handleExecuting (some server) memory socket execute).events,
      GivesSql req.body sql) ↔ ¬ CutShort req.body := by
  constructor
  · rintro hvalid ⟨hnul, sql, hgives⟩
    obtain ⟨ms, hobject, -, -⟩ :=
      hvalid sql ((executes_iff hread hpath hmethod execute sql).mpr hgives)
    exact object_nulFree hobject hnul
  · intro hwhole sql hsql
    have hgives := (executes_iff hread hpath hmethod execute sql).mp hsql
    have hnul : 0 ∉ req.body := fun hnul => hwhole ⟨hnul, sql, hgives⟩
    rwa [ofBuffer_of_nulFree hnul] at hgives

def queryServer : Server :=
  ⟨⟨some (.lit "db"), 8080, 1, 1⟩, ⟨Vector.replicate 1 ⟨0⟩, 0, 0, 0, false⟩⟩

def sqlObject : Bytes := ascii "\x7b\"sql\":\"x\"\x7d"

def queryWith (length : String) (body : Bytes) : Socket :=
  ⟨ascii "POST /query HTTP/1.1\r\nContent-Length: " ++ ascii length ++ ascii "\r\n\r\n" ++ body, []⟩

def noOutcome (_ : CString) : SqlOutcome := ⟨none, 500⟩

theorem plain_body_validated :
    (handleExecuting (some queryServer) true (queryWith "11" sqlObject) noOutcome).events =
      [.lit "x"] ∧
    ∀ sql ∈ (handleExecuting (some queryServer) true (queryWith "11" sqlObject) noOutcome).events,
      GivesSql sqlObject sql := by
  have hread : httpReadRequest true (queryWith "11" sqlObject) =
      .ok (.ok ⟨.lit "POST", .lit "/query", sqlObject⟩) := by decide +kernel
  have hnul : 0 ∉ sqlObject := by decide
  exact ⟨by decide +kernel,
    (whole_body_validated_iff hread rfl rfl queryServer noOutcome).mpr (fun hcut => hnul hcut.1)⟩

/-- Behind the NUL the body may hold anything. -/
theorem bytes_behind_nul_ignored :
    httpReadRequest true (queryWith "13" (sqlObject ++ [0, 120])) =
      .ok (.ok ⟨.lit "POST", .lit "/query", sqlObject ++ [0, 120]⟩) ∧
    (handleExecuting (some queryServer) true (queryWith "13" (sqlObject ++ [0, 120]))
      noOutcome).events = [.lit "x"] ∧
    ¬ GivesSql (sqlObject ++ [0, 120]) (.lit "x") := by
  refine ⟨by decide +kernel, by decide +kernel, ?_⟩
  rintro ⟨ms, hobject, -, -⟩
  exact object_nulFree hobject (by decide)

end BodyValidation
