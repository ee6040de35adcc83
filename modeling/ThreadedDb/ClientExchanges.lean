import ThreadedDb.RelationalService
import ThreadedDb.ResponseTexts
import ThreadedDb.ServerModel
import ThreadedDb.HttpSending

/-!
# From a client's bytes to a client's bytes

One client: its bytes are read as a request, the SQL text in the request goes to the database, and
the response goes out. What the client learns from the bytes that it gets is the reply of the
relational database, however the bytes are cut on both ways and however the calls of all clients
interleave.
-/
namespace ClientExchanges

open ByteText
open SchemaModel
open StorageModel
open LineFraming (Terminated)
open RuntimeModel
open ExecutorModel
open StatementRuns (file)
open DbApiModel
open JsonModel
open JsonGrammar (extract_total)
open HttpModel
open HttpReading
open HttpSending
open ServerModel
open ResponseTexts
open Rfc8259 (decode)
open TableSections (Db)
open LockedSections
open ConcurrentCalls
open ApiLinearizability
open RelationalModel
open RelationalService
open IndexCoherence (usersDisk usersDisk_terminated)
open CheckedArray (Checked ok_bind bind_eq_ok)

/-- The SQL text that `server_handle_client_task` hands to `db_api_execute_sql`, if it does. -/
def queryText (read : HttpRead) : Option CString :=
  match read with
  | .ok req =>
    if req.path = .lit "/query" ∧ req.method = .lit "POST" then
      match jsonExtractStringField (.ofBuffer req.body) (.lit "sql") with
      | .ok (.ok sql) => some sql
      | _ => none
    else none
  | _ => none

/-- The SQL text in a stream; a stream without one is none to the database. -/
def sqlIn (stream : Bytes) : CString :=
  match requestOf stream with
  | .ok read => (queryText read).getD .empty
  | .error _ => .empty

def outcomeOf (response : ApiResponse) : SqlOutcome :=
  ⟨some (.ofBuffer response.json), Int32.ofNat response.httpStatus⟩

def sendActions : Peer → List SocketAction → Checked Peer
  | peer, [] => .ok peer
  | peer, .respond response :: rest => do
    let (peer, _) ← sendResponse peer response
    sendActions peer rest
  | peer, _ :: rest => sendActions peer rest

/-- `server_handle_client_task` for a client that `db_api_execute_sql` responds to. -/
def exchange (server : Server) (socket : Socket) (schedule : List SendEvent)
    (response : ApiResponse) : Checked Peer := do
  let read ← httpReadRequest true socket
  let actions ← serverHandleClientTask (some server) read (fun _ => outcomeOf response)
  sendActions ⟨[], schedule⟩ actions

/-- What a client learns from the bytes that it got: it takes the body, decodes it and looks its
members up. -/
def learned (wire : Bytes) : Option Reported :=
  (receivedBody wire).bind (fun body => (decode body).bind recover)

theorem escapeByte_nulFree (c : UInt8) : 0 ∉ jsonEscapeByte c := by
  have hc := c.toNat_lt
  unfold jsonEscapeByte
  repeat' split
  all_goals try decide
  · rw [List.mem_append, not_or]
    refine ⟨by decide, ?_⟩
    have hhigh := hexDigit_ne_zero (d := c.toNat / 16) (by omega)
    have hlow := hexDigit_ne_zero (d := c.toNat % 16) (by omega)
    simp [hhigh.symm, hlow.symm]
  · rename_i hcontrol
    rw [List.mem_singleton]
    rintro rfl
    exact hcontrol (by decide)

theorem string_nulFree (s : CString) : 0 ∉ jsonAppendEscapedString s := by
  simp only [jsonAppendEscapedString, List.mem_cons, List.mem_append, List.mem_flatMap,
    List.not_mem_nil, or_false, not_or, not_exists, not_and]
  exact ⟨⟨by decide, fun c _ => escapeByte_nulFree c⟩, by decide⟩

theorem decimalBytes_nulFree (n : ℕ) : 0 ∉ decimalBytes n := by
  intro h
  have := mem_decimalBytes h
  revert this
  decide

theorem bool_nulFree (b : Bool) : 0 ∉ appendBoolValue b := by
  cases b <;> decide

theorem intercalate_nulFree {items : List Bytes} (h : ∀ item ∈ items, 0 ∉ item) :
    0 ∉ List.intercalate [44] items := by
  unfold List.intercalate
  induction items with
  | nil => simp
  | cons item items ih =>
    obtain ⟨hitem, hitems⟩ := List.forall_mem_cons.mp h
    cases items with
    | nil => simpa using hitem
    | cons next items =>
      simp only [List.intersperse_cons_cons, List.flatten_cons, List.mem_append, not_or]
      exact ⟨hitem, by decide, ih hitems⟩

theorem array_nulFree {items : List Bytes} (h : ∀ item ∈ items, 0 ∉ item) :
    0 ∉ jsonArray items := by
  simp only [jsonArray, List.mem_append, not_or]
  exact ⟨⟨by decide, intercalate_nulFree h⟩, by decide⟩

theorem texts_nulFree (texts : List CString) :
    0 ∉ jsonArray (texts.map jsonAppendEscapedString) := by
  apply array_nulFree
  intro item hitem
  obtain ⟨text, -, rfl⟩ := List.mem_map.mp hitem
  exact string_nulFree text

theorem member_nulFree {name : String} (hname : name ∈ memberNames) {value : Bytes}
    (h : 0 ∉ value) : 0 ∉ memberText name value := by
  have hplain : 0 ∉ ascii name := fun hzero => (memberNames_plain name hname 0 hzero).1 (by decide)
  simp only [memberText, List.mem_cons, List.mem_append, not_or]
  exact ⟨by decide, hplain, by decide, by decide, h⟩

theorem object_nulFree {members : List Bytes} (h : ∀ m ∈ members, 0 ∉ m) :
    0 ∉ objectText members := by
  simp only [objectText, List.mem_cons, List.mem_append, List.not_mem_nil, or_false, not_or]
  exact ⟨by decide, intercalate_nulFree h, by decide⟩

theorem response_nulFree (data : Reported) : 0 ∉ responseText data := by
  have hname {name : String} {value : Bytes} (hmem : name ∈ memberNames) (h : 0 ∉ value) :=
    member_nulFree hmem h
  cases data with
  | select usedIndex rowCount columns rows =>
    have hrows : 0 ∉ jsonArray (rows.map (fun row => jsonArray (row.map jsonAppendEscapedString))) := by
      apply array_nulFree
      intro item hitem
      obtain ⟨row, -, rfl⟩ := List.mem_map.mp hitem
      exact texts_nulFree row
    apply object_nulFree
    simp only [List.forall_mem_cons]
    exact ⟨hname (by simp [memberNames]) (bool_nulFree true),
      hname (by simp [memberNames]) (string_nulFree _),
      hname (by simp [memberNames]) (bool_nulFree usedIndex),
      hname (by simp [memberNames]) (decimalBytes_nulFree rowCount),
      hname (by simp [memberNames]) (texts_nulFree columns),
      hname (by simp [memberNames]) hrows, fun m hm => by cases hm⟩
  | insert affectedRows generatedId =>
    apply object_nulFree
    simp only [List.cons_append, List.nil_append, List.forall_mem_cons]
    refine ⟨hname (by simp [memberNames]) (bool_nulFree true),
      hname (by simp [memberNames]) (string_nulFree _),
      hname (by simp [memberNames]) (decimalBytes_nulFree affectedRows), ?_⟩
    intro m hm
    obtain ⟨id, -, rfl⟩ := List.mem_map.mp hm
    exact hname (by simp [memberNames]) (decimalBytes_nulFree id.toNat)
  | error errorCode message =>
    apply object_nulFree
    simp only [List.forall_mem_cons]
    exact ⟨hname (by simp [memberNames]) (bool_nulFree false),
      hname (by simp [memberNames]) (string_nulFree errorCode),
      hname (by simp [memberNames]) (string_nulFree message), fun m hm => by cases hm⟩

/-- A query is answered with the JSON of the database, and the client is closed. -/
theorem handle_query (server : Server) {read : HttpRead} {sql : CString}
    (hquery : queryText read = some sql) (response : ApiResponse) :
    ∃ answer, httpSendJsonResponse (Int32.ofNat response.httpStatus)
        (some (.ofBuffer response.json)) = some answer ∧
      serverHandleClientTask (some server) read (fun _ => outcomeOf response) =
        .ok [.respond answer, .close] := by
  obtain ⟨answer, hanswer⟩ := json_response_starts (Int32.ofNat response.httpStatus)
    (some (.ofBuffer response.json))
  refine ⟨answer, hanswer, ?_⟩
  unfold queryText at hquery
  split at hquery
  · rename_i req
    split at hquery
    · rename_i hroute
      obtain ⟨hpath, hmethod⟩ := hroute
      have hhealth : (CString.lit "/query") ≠ .lit "/health" := by decide
      split at hquery
      · rename_i text hextract
        cases hquery
        simp only [serverHandleClientTask, routeResponse, queryResponse, hpath, hmethod,
          if_neg hhealth, if_true, ne_eq, not_true_eq_false, if_false, hextract, ok_bind,
          outcomeOf, hanswer, ServerModel.send]
        rfl
      · cases hquery
    · cases hquery
  · cases hquery

/-- What the client of a query learns is the data of the response, unless a `send` fails: then it
learns nothing. -/
theorem exchange_learned (server : Server) {socket : Socket} (hsteady : Steady socket)
    {read : HttpRead} (hread : requestOf socket.pending = .ok read) {sql : CString}
    (hquery : queryText read = some sql) {response : ApiResponse} {data : Reported}
    (hresponse : Response response.json data) (hlen : response.json.length < 2 ^ 64)
    (schedule : List SendEvent) :
    ∃ peer, exchange server socket schedule response = .ok peer ∧
      (learned peer.wire = some data ∨
        learned peer.wire = none ∧ ∃ e ∈ schedule, e = .failed ∨ e = .refused) := by
  obtain ⟨answer, hanswer, hhandle⟩ := handle_query server hquery response
  have htext : (CString.ofBuffer response.json).bytes = response.json := by
    apply ofBuffer_of_nulFree
    rw [response_text hresponse]
    exact response_nulFree data
  have hparts : answer = ⟨responseHeader (Int32.ofNat response.httpStatus)
      (UInt64.ofNat response.json.length), response.json⟩ := by
    unfold httpSendJsonResponse at hanswer
    simp only [Option.getD_some, htext] at hanswer
    rw [if_neg (Nat.not_le.mpr (responseHeader_length _ _))] at hanswer
    exact (Option.some.inj hanswer).symm
  obtain ⟨peer, result, cut, hsend, h⟩ := sendResponse_delivers ⟨[], schedule⟩ answer
  refine ⟨peer, ?_, ?_⟩
  · unfold exchange
    rw [httpReadRequest_stream hsteady, hread, ok_bind, hhandle, ok_bind]
    simp only [sendActions, hsend, ok_bind]
  · have hwire : peer.wire = cut := h.wire
    have hbeginning := h.beginning
    rw [hparts] at hbeginning
    unfold learned
    rw [hwire, received_of_cut _ hlen hbeginning]
    split
    · exact .inl (response_recovered hresponse).2
    · rename_i hcut
      refine .inr ⟨rfl, ?_⟩
      by_contra hnone
      push Not at hnone
      have hzero := (h.accepting hnone).1
      rw [h.reported, if_neg (by rw [hparts]; exact hcut)] at hzero
      cases hzero

def Tells (data : Reported) : Reply → Prop
  | .rejected response => Response response.json data
  | .failed status => ∃ message, data = .error (mapEngineStatus status).2 message
  | .result result => data = reported result

theorem rejected_error {sql : CString} {response : ApiResponse}
    (h : request sql = .error response) :
    ∃ errorCode message, response.json = makeErrorJson errorCode message := by
  have hgate := gate_request sql
  rw [h] at hgate
  unfold gate at hgate
  split at hgate
  · cases hgate
    exact ⟨_, _, rfl⟩
  split at hgate
  · cases hgate
    exact ⟨_, _, rfl⟩
  split at hgate
  · cases hgate
    exact ⟨_, _, rfl⟩
  split at hgate
  · cases hgate
    exact ⟨_, _, rfl⟩
  split at hgate
  · cases hgate
    exact ⟨_, _, rfl⟩
  obtain ⟨⟨parsed, cursor⟩, -, hgate⟩ := bind_eq_ok.mp hgate
  cases parsed with
  | error message =>
    cases hgate
    exact ⟨_, _, rfl⟩
  | ok stmt =>
    dsimp only at hgate
    split at hgate
    · cases hgate
    · cases hgate
      exact ⟨_, _, rfl⟩

def Readable : Reply → Prop
  | .rejected response => ∃ errorCode message, response.json = makeErrorJson errorCode message
  | .failed _ => True
  | .result result => Tabular result

theorem serve_readable (db : Database) (sql : CString) : Readable (serve db sql).2 := by
  unfold serve
  cases hrequest : request sql with
  | error response => exact rejected_error hrequest
  | ok stmt =>
    dsimp only
    cases hout : (statement db stmt).2 with
    | error status => trivial
    | ok result => exact statement_tabular hout

theorem conveys_tells {response : ApiResponse} {reply : Reply} (h : Conveys response reply)
    (hreadable : Readable reply) :
    ∃ data, Response response.json data ∧ Tells data reply := by
  cases reply with
  | rejected r =>
    obtain ⟨errorCode, message, hjson⟩ := hreadable
    have hsame : response = r := h
    subst hsame
    have htells : Response response.json (.error errorCode message) := by
      rw [hjson]
      exact .error errorCode message
    exact ⟨_, htells, htells⟩
  | failed status =>
    obtain ⟨-, -, message, hjson⟩ := h
    refine ⟨.error (mapEngineStatus status).2 message, ?_, message, rfl⟩
    rw [hjson]
    exact .error _ _
  | result r =>
    obtain ⟨-, -, hjson⟩ := h
    exact ⟨reported r, .success hreadable hjson, rfl⟩

section Clients

variable {Client : Type} [DecidableEq Client] {disk : Disk} {dbDir : CString}
  {sql : Client → CString}

theorem acquired_statement {events : List (Event Client)} {s : State Client Db CallState}
    (hrun : runEvents api (serverStart disk dbDir sql) events = some s) {c : Client}
    (hc : c ∈ s.acquired) : ∃ stmt, request (sql c) = .ok stmt := by
  have hinv : ∀ c response, started (sql c) = .returned response →
      s.stage c = .outside (.returned response) ∧ c ∉ s.acquired := by
    refine runEvents_invariant (fun s : State Client Db CallState => ∀ c response,
      started (sql c) = .returned response →
        s.stage c = .outside (.returned response) ∧ c ∉ s.acquired) ?_ ?_ hrun
    · intro s t e h hstep c response hstarted
      obtain ⟨hstage, hnot⟩ := h c response hstarted
      rcases step_cases hstep with ⟨d, access, l, hd, haccess, -, rfl⟩ | ⟨d, access, l, hd, rfl⟩ |
        ⟨d, access, l, hd, rfl⟩
      · have hne : c ≠ d := by
          rintro rfl
          rw [hstage] at hd
          cases hd
          cases haccess
        refine ⟨(Function.update_of_ne hne _ _).trans hstage, ?_⟩
        simp [State.enter, hnot, hne]
      · have hne : c ≠ d := by
          rintro rfl
          rw [hstage] at hd
          cases hd
        exact ⟨(Function.update_of_ne hne _ _).trans hstage, hnot⟩
      · have hne : c ≠ d := by
          rintro rfl
          rw [hstage] at hd
          cases hd
        exact ⟨(Function.update_of_ne hne _ _).trans hstage, hnot⟩
    · intro c response hstarted
      refine ⟨?_, by simp [serverStart, initial]⟩
      simp only [serverStart, initial, hstarted]
  cases hrequest : request (sql c) with
  | ok stmt => exact ⟨stmt, rfl⟩
  | error response =>
    have hstarted : started (sql c) = .returned (.ok response) := by
      rw [started, gate_request, hrequest]
    exact absurd hc (hinv c _ hstarted).2

end Clients

/-- The text that reaches the database is the one of the client's request. -/
theorem query_of_statement {stream : Bytes} {stmt : SqlFrontEnd.Statement}
    (h : request (sqlIn stream) = .ok stmt) :
    ∃ read, requestOf stream = .ok read ∧ queryText read = some (sqlIn stream) := by
  have hempty : request .empty = .error emptyQuery := by decide
  unfold sqlIn at h ⊢
  cases hread : requestOf stream with
  | error f =>
    rw [hread] at h
    dsimp only at h
    rw [hempty] at h
    cases h
  | ok read =>
    rw [hread] at h
    refine ⟨read, rfl, ?_⟩
    dsimp only at h ⊢
    cases hquery : queryText read with
    | none =>
      rw [hquery, Option.getD_none, hempty] at h
      cases h
    | some sql => rfl

/-- Over data files that are missing, empty or newline-terminated, and where no write and no
allocation fails: once the calls that took the lock have returned, every client of such a call
learns from the bytes that it receives what the relational database replies to it, the statements
taken in the order in which their calls last took the lock. This holds for every interleaving of
the calls, for every way to cut the bytes of the requests, and for every way to take the bytes of
the responses; a client learns nothing only if a `send` to it fails. -/
theorem clients_learn_database_replies {Client : Type} [DecidableEq Client] (server : Server)
    (sockets : Client → Socket) (schedules : Client → List SendEvent)
    (hsteady : ∀ c, Steady (sockets c)) (disk : Disk) (dbDir : CString)
    (hfiles : ∀ name, Terminated 10 (file disk dbDir name))
    {events : List (Event Client)} {s : State Client Db CallState}
    (hrun : runEvents api (serverStart disk dbDir (fun c => sqlIn (sockets c).pending)) events =
      some s)
    (hdone : ∀ c ∈ s.acquired, Returned (s.stage c))
    (hlen : ∀ c response, s.stage c = .outside (.returned (.ok response)) →
      response.json.length < 2 ^ 64) :
    List.Forall₂ (fun c reply => ∃ response data peer,
        s.stage c = .outside (.returned (.ok response)) ∧ Tells data reply ∧
        exchange server (sockets c) (schedules c) response = .ok peer ∧
        (learned peer.wire = some data ∨
          learned peer.wire = none ∧ ∃ e ∈ schedules c, e = .failed ∨ e = .refused))
      s.acquired.dedup
      (ForwardSimulation.specRun serve (openTable disk dbDir)
        (s.acquired.dedup.map (fun c => sqlIn (sockets c).pending))).2 := by
  obtain ⟨ctx', responses, hstages, hall, -, -⟩ := settled_replies hfiles hrun hdone
  have hreadable := ForwardSimulation.specRun_forall serve_readable (openTable disk dbDir)
    (s.acquired.dedup.map (fun c => sqlIn (sockets c).pending))
  have hacquired : ∀ c ∈ s.acquired.dedup, ∃ stmt,
      request (sqlIn (sockets c).pending) = .ok stmt := by
    intro c hc
    exact acquired_statement hrun (List.mem_dedup.mp hc)
  generalize (ForwardSimulation.specRun serve (openTable disk dbDir)
    (s.acquired.dedup.map (fun c => sqlIn (sockets c).pending))).2 = replies at hall hreadable ⊢
  generalize s.acquired.dedup = order at hstages hacquired ⊢
  -- clients, responses and replies side by side
  induction hall generalizing order with
  | nil =>
    rw [List.map_nil, List.map_eq_nil_iff] at hstages
    rw [hstages]
    exact .nil
  | @cons response reply responses replies hconveys _ ih =>
    obtain ⟨c, order, rfl⟩ : ∃ c rest, order = c :: rest := by
      apply List.exists_cons_of_ne_nil
      rintro rfl
      cases hstages
    rw [List.map_cons, List.map_cons, List.cons.injEq] at hstages
    obtain ⟨hreply, hreplies⟩ := List.forall_mem_cons.mp hreadable
    obtain ⟨⟨stmt, hstmt⟩, horder⟩ := List.forall_mem_cons.mp hacquired
    refine .cons ?_ (ih hreplies order hstages.2 horder)
    obtain ⟨data, hresponse, htells⟩ := conveys_tells hconveys hreply
    obtain ⟨read, hread, hquery⟩ := query_of_statement hstmt
    obtain ⟨peer, hexchange, hlearned⟩ := exchange_learned server (hsteady c) hread hquery
      hresponse (hlen c response hstages.1) (schedules c)
    exact ⟨response, data, peer, hstages.1, htells, hexchange, hlearned⟩

def posted (sql : String) : Socket :=
  let body := ascii "\x7b\"sql\":\"" ++ ascii sql ++ ascii "\"\x7d"
  ⟨ascii "POST /query HTTP/1.1\r\nContent-Length: " ++ decimalBytes body.length ++
    ascii "\r\n\r\n" ++ body, [.chunk 30, .interrupted, .chunk 20]⟩

def posts : Fin 2 → Socket
  | 0 => posted "INSERT INTO users VALUES ('kim')"
  | 1 => posted "SELECT name FROM users WHERE id = 1"

/-- The table is loaded for the query before the INSERT, and read after it. -/
def turns : List (Event (Fin 2)) :=
  [.acquire 1, .run 1, .release 1, .acquire 0, .run 0, .release 0, .acquire 1, .run 1, .release 1]

def oneWorker : Server :=
  ⟨⟨some (.lit "db"), 8080, 1, 1⟩, ⟨Vector.replicate 1 ⟨0⟩, 0, 0, 0, false⟩⟩

def short : Stage CallState → Bool
  | .outside (.returned (.ok response)) => response.json.length < 1000
  | _ => false

theorem two_clients_learn : ∃ s,
    runEvents api (serverStart usersDisk (.lit "db") (fun c => sqlIn (posts c).pending)) turns =
      some s ∧
    List.Forall₂ (fun c data => ∃ response peer,
        s.stage c = .outside (.returned (.ok response)) ∧
        exchange oneWorker (posts c) [.taken 3, .interrupted] response = .ok peer ∧
        learned peer.wire = some data)
      [0, 1] [.insert 1 (some 1), .select true 1 [.lit "name"] [[.lit "kim"]]] := by
  have heval : (runEvents api (serverStart usersDisk (.lit "db")
      (fun c => sqlIn (posts c).pending)) turns).map (fun s => (s.acquired,
        [0, 1].map (fun c => (decide (Returned (s.stage c)), short (s.stage c))))) =
      some ([1, 0, 1], [(true, true), (true, true)]) := by decide +kernel
  obtain ⟨s, hs, hstate⟩ := Option.map_eq_some_iff.mp heval
  simp only [Prod.mk.injEq, List.map_cons, List.map_nil, List.cons.injEq, decide_eq_true_eq,
    and_true] at hstate
  obtain ⟨hacquired, ⟨hdone₀, hshort₀⟩, hdone₁, hshort₁⟩ := hstate
  have hdone : ∀ c ∈ s.acquired, Returned (s.stage c) := by
    intro c _
    fin_cases c
    · exact hdone₀
    · exact hdone₁
  have hlen : ∀ c response, s.stage c = .outside (.returned (.ok response)) →
      response.json.length < 2 ^ 64 := by
    intro c response hstage
    have hshort : short (s.stage c) = true := by
      fin_cases c
      · exact hshort₀
      · exact hshort₁
    rw [hstage] at hshort
    have : response.json.length < 1000 := by simpa [short] using hshort
    omega
  have hsteady : ∀ c, Steady (posts c) := by
    intro c e he
    have hschedule : (posts c).schedule = [.chunk 30, .interrupted, .chunk 20] := by
      fin_cases c
      · rfl
      · rfl
    rw [hschedule] at he
    rintro rfl
    simp at he
  have hall := clients_learn_database_replies oneWorker posts
    (fun _ => [.taken 3, .interrupted]) hsteady usersDisk (.lit "db") usersDisk_terminated hs hdone
    hlen
  have horder : s.acquired.dedup = [0, 1] := by
    rw [hacquired]
    decide
  have hreplies : (ForwardSimulation.specRun serve (openTable usersDisk (.lit "db"))
      (([0, 1] : List (Fin 2)).map (fun c => sqlIn (posts c).pending))).2 =
        [.result (insertResult (some 1)),
          .result ⟨.select, 1, ⟨[.lit "name"], [[.lit "kim"]]⟩, true, none⟩] := by decide +kernel
  rw [horder, hreplies] at hall
  have hlearns {c : Fin 2} {reply : Reply} {data : Reported}
      (h : ∃ response data peer, s.stage c = .outside (.returned (.ok response)) ∧
        Tells data reply ∧
        exchange oneWorker (posts c) [.taken 3, .interrupted] response = .ok peer ∧
        (learned peer.wire = some data ∨ learned peer.wire = none ∧
          ∃ e ∈ [SendEvent.taken 3, .interrupted], e = .failed ∨ e = .refused))
      (hdata : ∀ d, Tells d reply → d = data) :
      ∃ response peer, s.stage c = .outside (.returned (.ok response)) ∧
        exchange oneWorker (posts c) [.taken 3, .interrupted] response = .ok peer ∧
        learned peer.wire = some data := by
    obtain ⟨response, d, peer, hstage, htells, hexchange, hlearned⟩ := h
    refine ⟨response, peer, hstage, hexchange, ?_⟩
    rcases hlearned with hlearned | ⟨-, hfailed⟩
    · rw [hlearned, hdata d htells]
    · simp at hfailed
  refine ⟨s, hs, ?_⟩
  obtain _ | ⟨h₀, _ | ⟨h₁, -⟩⟩ := hall
  exact .cons (hlearns h₀ (fun d h => h)) (.cons (hlearns h₁ (fun d h => h)) .nil)

end ClientExchanges
