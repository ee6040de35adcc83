import ThreadedDb.JsonGrammar
import ThreadedDb.HttpModel
import ThreadedDb.ThreadPool
import ThreadedDb.Custody

/-!
# The server

`server.c`: the handler of a client, the accept loop and the end of the server, as threads around
the task queue. The socket calls of all threads are kept in one log, from which it can be told
which descriptors are open: `accept` returns one that is not.
-/
namespace ServerModel

open ByteText
open DbApiModel (messageOr)
open JsonModel
open HttpModel
open CheckedArray (Checked)
open TaskQueueModel
open ThreadPool
open Custody

structure ServerConfig where
  dbDir : Option CString
  port : Int
  threadCount : ℕ
  queueCapacity : ℕ

structure Server where
  config : ServerConfig
  queue : TaskQueue config.queueCapacity

def serverInit (config : ServerConfig) : Option Server :=
  if config.dbDir = none ∨ config.threadCount = 0 ∨ config.queueCapacity = 0 ∨
      config.port ≤ 0 ∨ 65535 < config.port then none
  else (threadPoolInit config.threadCount config.queueCapacity).map (fun queue => ⟨config, queue⟩)

theorem serverInit_pool {config : ServerConfig} {server : Server}
    (h : serverInit config = some server) : 0 < server.config.threadCount ∧
      taskQueueInit server.config.queueCapacity = some server.queue := by
  unfold serverInit at h
  split at h
  · cases h
  obtain ⟨queue, hpool, rfl⟩ := Option.map_eq_some_iff.mp h
  unfold threadPoolInit at hpool
  split at hpool
  · cases hpool
  · rename_i hnonzero
    exact ⟨Nat.pos_of_ne_zero (fun hzero => hnonzero (Or.inl hzero)), hpool⟩

inductive SocketAction where
  | shutdownRead
  | respond (response : HttpResponse)
  | close
  deriving DecidableEq

def closes : SocketAction → Bool
  | .close => true
  | _ => false

def isResponse : SocketAction → Bool
  | .respond _ => true
  | _ => false

def send (response : Option HttpResponse) : List SocketAction :=
  (response.map SocketAction.respond).toList

/-- `*out_json` and `*out_http_status`; there is no JSON when it could not be built. -/
structure SqlOutcome where
  json : Option CString
  httpStatus : Int32

def queryResponse (body : Bytes) (execute : CString → SqlOutcome) :
    Checked (Option HttpResponse) := do
  match ← jsonExtractStringField (.ofBuffer body) (.lit "sql") with
  | .error ⟨.invalidJson, errbuf⟩ =>
    .ok (httpSendErrorResponse 400 (.lit "INVALID_JSON") (messageOr (.lit "invalid json") errbuf))
  | .error ⟨.missingField, errbuf⟩ =>
    .ok (httpSendErrorResponse 400 (.lit "MISSING_SQL_FIELD")
      (messageOr (.lit "missing sql field") errbuf))
  | .error ⟨.internalError, errbuf⟩ =>
    .ok (httpSendErrorResponse 500 (.lit "INTERNAL_ERROR")
      (messageOr (.lit "internal server error") errbuf))
  | .ok sql =>
    match (execute sql).json with
    | none =>
      .ok (httpSendErrorResponse 500 (.lit "INTERNAL_ERROR") (.lit "failed to build sql response"))
    | some json => .ok (httpSendJsonResponse (execute sql).httpStatus (some json))

def routeResponse (req : HttpRequest) (execute : CString → SqlOutcome) :
    Checked (Option HttpResponse) :=
  if req.path = .lit "/health" then
    if req.method ≠ .lit "GET" then
      .ok (httpSendErrorResponse 405 (.lit "METHOD_NOT_ALLOWED")
        (.lit "only GET is allowed for /health"))
    else
      .ok (httpSendJsonResponse 200
        (some (.lit "\x7b\"success\":true,\"service\":\"mini_db_server\"\x7d")))
  else if req.path = .lit "/query" then
    if req.method ≠ .lit "POST" then
      .ok (httpSendErrorResponse 405 (.lit "METHOD_NOT_ALLOWED")
        (.lit "only POST is allowed for /query"))
    else queryResponse req.body execute
  else .ok (httpSendErrorResponse 404 (.lit "NOT_FOUND") (.lit "route not found"))

/-- What is done to the socket on each path, by what `http_read_request` and `db_api_execute_sql`
return. -/
def serverHandleClientTask (userData : Option Server) (read : HttpRead)
    (execute : CString → SqlOutcome) : Checked (List SocketAction) :=
  match userData with
  | none => .ok [.close]
  | some _ =>
    match read with
    | .payloadTooLarge errbuf =>
      .ok (send (httpSendErrorResponse 413 (.lit "PAYLOAD_TOO_LARGE")
        (messageOr (.lit "request body too large") errbuf)) ++ [.close])
    | .internalError errbuf =>
      .ok (send (httpSendErrorResponse 500 (.lit "INTERNAL_ERROR")
        (messageOr (.lit "internal server error") errbuf)) ++ [.close])
    | .badRequest errbuf =>
      .ok (send (httpSendErrorResponse 400 (.lit "BAD_REQUEST")
        (messageOr (.lit "bad request") errbuf)) ++ [.close])
    | .ok req => do
      let response ← routeResponse req execute
      .ok (send response ++ [.close])

/-- What the accept loop does with a client that it could not submit: 1 is a full queue. -/
def rejection (submitResult : Int) : List SocketAction :=
  if submitResult = 1 then
    .shutdownRead :: send (httpSendErrorResponse 503 (.lit "QUEUE_FULL")
      (.lit "server task queue is full")) ++ [.close]
  else
    send (httpSendErrorResponse 500 (.lit "INTERNAL_ERROR")
      (.lit "failed to submit request to worker queue")) ++ [.close]

inductive Job where
  | taken (task : Option Task)
  | acting (clientFd : Int) (rest : List SocketAction)
  deriving DecidableEq

/-- The main thread in `server_run`, between that and `server_destroy`, and there. -/
inductive Main where
  | accepting
  | submitting (clientFd : Int)
  | refused (clientFd : Int) (submitResult : Int)
  | rejecting (clientFd : Int) (rest : List SocketAction) (submitResult : Int)
  | returned
  | destroying (d : Destroying)
  deriving DecidableEq

inductive ServerLocal where
  | worker (w : Worker Job)
  | main (m : Main)
  deriving DecidableEq

abbrev ServerThread (workers : ℕ) := Fin workers ⊕ Unit

structure ServerWorld (workers : ℕ) where
  log : List (Int × Entry (ServerThread workers) SocketAction)
  exited : Fin workers → Bool

inductive WorkerAct where
  | handle (read : HttpRead) (execute : CString → SqlOutcome)
  | perform
  | finish
  | exit

inductive MainAct where
  | accept (clientFd : Int)
  | acceptFailed (interrupted : Bool)
  | reject
  | perform
  | finish
  | destroy
  | join

section Threads

variable {workers : ℕ}

def ServerWorld.record (world : ServerWorld workers) (clientFd : Int)
    (e : Entry (ServerThread workers) SocketAction) : ServerWorld workers :=
  { world with log := world.log ++ [(clientFd, e)] }

def workerAct (server : Server) (i : Fin workers) : WorkerAct → Worker Job → ServerWorld workers →
    Option (ServerWorld workers × Worker Job)
  | .handle read execute, .handling (.taken (some task)), world =>
    match serverHandleClientTask (some server) read execute with
    | .error _ => none
    | .ok actions =>
      some (world.record task.clientFd (.taken (.inl i)), .handling (.acting task.clientFd actions))
  | .perform, .handling (.acting clientFd (a :: rest)), world =>
    some (world.record clientFd (.did (.inl i) a), .handling (.acting clientFd rest))
  | .finish, .handling (.acting _ []), world => some (world, .fetching)
  | .exit, .leaving, world => some ({ world with exited := Function.update world.exited i true },
      .exited)
  | _, _, _ => none

def mainAct : MainAct → Main → ServerWorld workers → Option (ServerWorld workers × Main)
  | .accept clientFd, .accepting, world =>
    if 0 ≤ clientFd ∧ isOpen closes world.log clientFd = false then
      some (world.record clientFd .opened, .submitting clientFd)
    else none
  | .acceptFailed interrupted, .accepting, world =>
    some (world, if interrupted then .accepting else .returned)
  | .reject, .refused clientFd submitResult, world =>
    some (world.record clientFd (.taken (.inr ())),
      .rejecting clientFd (rejection submitResult) submitResult)
  | .perform, .rejecting clientFd (a :: rest) submitResult, world =>
    some (world.record clientFd (.did (.inr ()) a), .rejecting clientFd rest submitResult)
  | .finish, .rejecting _ [] submitResult, world =>
    some (world, if submitResult = 1 then .accepting else .returned)
  | .destroy, .returned, world => some (world, .destroying .shuttingDown)
  | .join, .destroying d, world =>
    (destroyJoin world.exited d).map (fun d => (world, .destroying d))
  | _, _, _ => none

def serverCall : ServerThread workers → ServerLocal → Option QueueCall
  | .inl _, .worker w => workerCall w
  | .inr _, .main (.submitting clientFd) => some (.tryPush ⟨clientFd⟩)
  | .inr _, .main (.destroying d) => destroyCall d
  | _, _ => none

def serverReturned : ServerThread workers → ServerLocal → Reply → ServerLocal
  | .inl _, _, reply => .worker (workerReturned .taken reply)
  | .inr _, .main (.submitting clientFd), reply =>
    .main (if reply.result = 0 then .accepting else .refused clientFd reply.result)
  | .inr _, _, _ => .main (.destroying (.joining 0))

def serverAct (server : Server) : ServerThread workers → WorkerAct ⊕ MainAct → ServerLocal →
    ServerWorld workers → Option (ServerWorld workers × ServerLocal)
  | .inl i, .inl a, .worker w, world =>
    (workerAct server i a w world).map (fun r => (r.1, .worker r.2))
  | .inr _, .inr a, .main m, world => (mainAct a m world).map (fun r => (r.1, .main r.2))
  | _, _, _, _ => none

def serverLocals : ServerThread workers → ServerLocal
  | .inl _ => .worker .fetching
  | .inr _ => .main .accepting

end Threads

def serverAgents (server : Server) : Agents (ServerThread server.config.threadCount)
    (WorkerAct ⊕ MainAct) (ServerWorld server.config.threadCount) ServerLocal where
  call := serverCall
  returned := serverReturned
  act := serverAct server

abbrev ServerState (server : Server) := Monitors.State (ServerThread server.config.threadCount)
  QueueCond (Shared server.config.queueCapacity (ServerWorld server.config.threadCount)) ServerLocal

def serverStarted (server : Server) : ServerState server :=
  started server.queue ⟨[], fun _ => false⟩ serverLocals

end ServerModel
