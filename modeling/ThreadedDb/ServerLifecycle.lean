import ThreadedDb.ServerModel
import ThreadedDb.HttpReading

/-!
# From the command line to the end of the server

`server_main.c` with the starting, running and stopping of the server. Every call of the main thread
into the system may fail, the locks of the task queue included, and what was acquired before the
failure is given back. Giving back what is not held is a fault, and so is taking memory or locks
away under a running worker. `task_queue_shutdown` says nothing when its lock fails; the queue stays
open then, and the joins that follow do not end.
-/
namespace ServerLifecycle

open ByteText
open HttpReading (strtoull)
open ServerModel (ServerConfig)
open CheckedArray (Checked ok_bind)

/-- `strtol` in base 10: the value within the range of `long`, and what is left of the text. -/
def strtol (text : Bytes) : ℤ × Bytes :=
  let start := text.dropWhile isSpace
  let signed := start.head? = some 43 ∨ start.head? = some 45
  let digits := if signed then start.drop 1 else start
  let run := digits.takeWhile (fun c => 48 ≤ c && c ≤ 57)
  let value : ℤ := run.foldl (fun n c => n * 10 + (c.toNat - 48)) (0 : ℕ)
  if run = [] then (0, text)
  else if start.head? = some 45 then (max (-value) (-2 ^ 63), digits.drop run.length)
  else (min value (2 ^ 63 - 1), digits.drop run.length)

def parseIntArg (text : CString) (minValue maxValue : ℤ) : Option ℤ :=
  if text.bytes = [] then none
  else if (strtol text.bytes).2 ≠ [] ∨ (strtol text.bytes).1 < minValue ∨
      maxValue < (strtol text.bytes).1 then none
  else some (strtol text.bytes).1

def parseSizeArg (text : CString) : Option ℕ :=
  if text.bytes = [] then none
  else if (strtoull text.bytes).2 ≠ [] ∨ (strtoull text.bytes).1 = 0 then none
  else some (strtoull text.bytes).1

inductive Invocation where
  | usage
  | help
  | serve (config : ServerConfig)

def isOption (short long : String) (arg : CString) : Bool := arg = .lit short || arg = .lit long

/-- The loop of `parse_server_args`; an option at the end of the line has no value. -/
def parseOptions (config : ServerConfig) : List CString → Invocation
  | [] => if config.dbDir = none then .usage else .serve config
  | [arg] => if isOption "-h" "--help" arg then .help else .usage
  | arg :: value :: rest =>
    if isOption "-h" "--help" arg then .help
    else if isOption "-d" "--db" arg then parseOptions { config with dbDir := some value } rest
    else if isOption "-p" "--port" arg then
      match parseIntArg value 1 65535 with
      | none => .usage
      | some port => parseOptions { config with port := port } rest
    else if isOption "-t" "--threads" arg then
      match parseSizeArg value with
      | none => .usage
      | some threadCount => parseOptions { config with threadCount := threadCount } rest
    else if isOption "-q" "--queue-size" arg then
      match parseSizeArg value with
      | none => .usage
      | some queueCapacity => parseOptions { config with queueCapacity := queueCapacity } rest
    else .usage

def parseServerArgs (args : List CString) : Invocation := parseOptions ⟨none, 8080, 4, 64⟩ args

def printUsage (programName : CString) : Bytes :=
  ascii "Usage: " ++ programName.bytes ++
    ascii " -d <db_dir> [-p <port>] [-t <threads>] [-q <queue_size>]\n" ++
    ascii "       " ++ programName.bytes ++
    ascii " --db <db_dir> [--port <port>] [--threads <threads>] [--queue-size <queue_size>]\n" ++
    ascii "       " ++ programName.bytes ++ ascii " -h | --help\n"

inductive Resource where
  | dbDir
  | rwlock
  | listenSocket
  | items
  | mutex
  | notEmpty
  | notFull
  | threads
  | worker (i : ℕ)
  | client
  deriving DecidableEq

def Resource.isWorker : Resource → Bool
  | worker _ => true
  | _ => false

def Resource.shared : Resource → Bool
  | dbDir | rwlock | items | mutex | notEmpty | notFull => true
  | _ => false

/-- Whether the coming system calls of the main thread succeed (past the end they do), its calls of
`pthread_mutex_lock` apart from the others, and what the process holds. -/
structure System where
  calls : List Bool
  locks : List Bool
  held : Multiset Resource
  deriving DecidableEq

def attempt (sys : System) : Bool × System :=
  (sys.calls.headD true, ⟨sys.calls.tail, sys.locks, sys.held⟩)

def acquire (r : Resource) (sys : System) : Bool × System :=
  if sys.calls.headD true then (true, ⟨sys.calls.tail, sys.locks, {r} + sys.held⟩)
  else (false, ⟨sys.calls.tail, sys.locks, sys.held⟩)

def lock (sys : System) : Bool × System :=
  (sys.locks.headD true, ⟨sys.calls, sys.locks.tail, sys.held⟩)

def release (r : Resource) (sys : System) : Checked System :=
  if r ∉ sys.held then .error .badPointer
  else if r.shared ∧ 0 < sys.held.countP (fun other => other.isWorker) then .error .badPointer
  else .ok ⟨sys.calls, sys.locks, sys.held.erase r⟩

/-- The fields of a `TaskQueue`: `items != NULL`, `capacity`, `count` and `shutdown`. -/
structure QueueFields where
  items : Bool
  capacity : ℕ
  count : ℕ
  shutdown : Bool
  deriving DecidableEq

def zeroQueue : QueueFields := ⟨false, 0, 0, false⟩

def taskQueueInit (capacity : ℕ) (sys : System) : Checked (Bool × QueueFields × System) :=
  match acquire .items sys with
  | (false, sys) => .ok (false, zeroQueue, sys)
  | (true, sys) =>
    match acquire .mutex sys with
    | (false, sys) => do
      let sys ← release .items sys
      .ok (false, zeroQueue, sys)
    | (true, sys) =>
      match acquire .notEmpty sys with
      | (false, sys) => do
        let sys ← release .mutex sys
        let sys ← release .items sys
        .ok (false, zeroQueue, sys)
      | (true, sys) =>
        match acquire .notFull sys with
        | (false, sys) => do
          let sys ← release .notEmpty sys
          let sys ← release .mutex sys
          let sys ← release .items sys
          .ok (false, zeroQueue, sys)
        | (true, sys) => .ok (true, ⟨true, capacity, 0, false⟩, sys)

def taskQueueDestroy (queue : QueueFields) (sys : System) : Checked System :=
  if !queue.items then .ok sys
  else do
    let sys ← release .notFull sys
    let sys ← release .notEmpty sys
    let sys ← release .mutex sys
    release .items sys

def taskQueueTryPush (queue : QueueFields) (sys : System) : Int × QueueFields × System :=
  if !queue.items then (-1, queue, sys)
  else
    match lock sys with
    | (false, sys) => (-1, queue, sys)
    | (true, sys) =>
      if queue.shutdown then (-1, queue, sys)
      else if queue.count = queue.capacity then (1, queue, sys)
      else (0, { queue with count := queue.count + 1 }, sys)

def taskQueueShutdown (queue : QueueFields) (sys : System) : QueueFields × System :=
  if !queue.items then (queue, sys)
  else
    match lock sys with
    | (false, sys) => (queue, sys)
    | (true, sys) => ({ queue with shutdown := true }, sys)

/-- The queue of a `ThreadPool`, `threads != NULL`, `created_count` and `started`; and how many
tasks its workers have in hand. -/
structure PoolFields where
  queue : QueueFields
  threads : Bool
  createdCount : ℕ
  started : Bool
  busy : ℕ
  deriving DecidableEq

def zeroPool : PoolFields := ⟨zeroQueue, false, 0, false, 0⟩

def closeClients : ℕ → System → Checked System
  | 0, sys => .ok sys
  | n + 1, sys => do
    let sys ← release .client sys
    closeClients n sys

def joinEach : List ℕ → System → Checked System
  | [], sys => .ok sys
  | i :: rest, sys => do
    let sys ← release (.worker i) sys
    joinEach rest sys

/-- The loop over `pthread_join`. The workers of a queue that has been shut down handle the tasks
that are left, close their sockets and return; those of any other queue wait for more. -/
def joinWorkers (pool : PoolFields) (sys : System) : Checked System :=
  if pool.createdCount = 0 then .ok sys
  else if !pool.queue.shutdown then .error .unbounded
  else do
    let sys ← closeClients (pool.queue.count + pool.busy) sys
    joinEach (List.range pool.createdCount) sys

/-- The loop over `pthread_create`, with `left` workers to come. A failure shuts the queue down,
joins the workers there are and gives everything back. -/
def createWorkers : ℕ → PoolFields → System → Checked (Bool × PoolFields × System)
  | 0, pool, sys => .ok (true, { pool with started := true }, sys)
  | left + 1, pool, sys =>
    match acquire (.worker pool.createdCount) sys with
    | (false, sys) => do
      let (queue, sys) := taskQueueShutdown pool.queue sys
      let sys ← joinWorkers { pool with queue := queue } sys
      let sys ← release .threads sys
      let sys ← taskQueueDestroy queue sys
      .ok (false, zeroPool, sys)
    | (true, sys) => createWorkers left { pool with createdCount := pool.createdCount + 1 } sys

def threadPoolInit (threadCount queueCapacity : ℕ) (sys : System) :
    Checked (Bool × PoolFields × System) :=
  if threadCount = 0 ∨ queueCapacity = 0 then .ok (false, zeroPool, sys)
  else do
    let (ok, queue, sys) ← taskQueueInit queueCapacity sys
    if !ok then .ok (false, { zeroPool with queue := queue }, sys)
    else
      match acquire .threads sys with
      | (false, sys) => do
        let sys ← taskQueueDestroy queue sys
        .ok (false, zeroPool, sys)
      | (true, sys) => createWorkers threadCount { zeroPool with queue := queue, threads := true } sys

def threadPoolTrySubmit (pool : PoolFields) (sys : System) : Int × PoolFields × System :=
  if !pool.started then (-1, pool, sys)
  else
    match taskQueueTryPush pool.queue sys with
    | (result, queue, sys) => (result, { pool with queue := queue }, sys)

def threadPoolDestroy (pool : PoolFields) (sys : System) : Checked System := do
  let (queue, sys) := taskQueueShutdown pool.queue sys
  let sys ←
    if pool.threads then do
      let sys ← joinWorkers { pool with queue := queue } sys
      release .threads sys
    else .ok sys
  taskQueueDestroy queue sys

def dbApiInit (sys : System) : Checked (Bool × System) :=
  match acquire .dbDir sys with
  | (false, sys) => .ok (false, sys)
  | (true, sys) =>
    match acquire .rwlock sys with
    | (false, sys) => do
      let sys ← release .dbDir sys
      .ok (false, sys)
    | (true, sys) => .ok (true, sys)

def dbApiDestroy (dbDir : Bool) (sys : System) : Checked System :=
  if !dbDir then .ok sys
  else do
    let sys ← release .dbDir sys
    release .rwlock sys

structure ServerFields where
  listenFd : Bool
  pool : PoolFields
  dbApi : Bool
  deriving DecidableEq

def serverDestroy (server : ServerFields) (sys : System) : Checked System := do
  let sys ← if server.listenFd then release .listenSocket sys else .ok sys
  let sys ← threadPoolDestroy server.pool sys
  dbApiDestroy server.dbApi sys

def setErrnoError (message : String) (errnoText : CString) : CString :=
  setError (.lit message ++ .lit ": " ++ errnoText)

inductive StartError where
  | configuration
  | database
  | socket
  | reuseAddress
  | bind
  | listen
  | threadPool
  deriving DecidableEq, Repr

def StartError.message (errnoText : CString) : StartError → CString
  | configuration => setError (.lit "invalid server configuration")
  | database => setError (.lit "failed to initialize database adapter")
  | socket => setErrnoError "failed to create listen socket" errnoText
  | reuseAddress => setErrnoError "failed to set SO_REUSEADDR" errnoText
  | bind => setErrnoError "failed to bind listen socket" errnoText
  | listen => setErrnoError "failed to listen on socket" errnoText
  | threadPool => setError (.lit "failed to initialize thread pool")

def abandon (server : ServerFields) (error : StartError) (sys : System) :
    Checked (Except StartError ServerFields × System) := do
  let sys ← serverDestroy server sys
  .ok (.error error, sys)

def serverInit (config : ServerConfig) (sys : System) :
    Checked (Except StartError ServerFields × System) := do
  if config.dbDir = none ∨ config.threadCount = 0 ∨ config.queueCapacity = 0 ∨
      config.port ≤ 0 ∨ 65535 < config.port then .ok (.error .configuration, sys)
  else do
    let (ok, sys) ← dbApiInit sys
    if !ok then .ok (.error .database, sys)
    else
      match acquire .listenSocket sys with
      | (false, sys) => abandon ⟨false, zeroPool, true⟩ .socket sys
      | (true, sys) =>
        match attempt sys with
        | (false, sys) => abandon ⟨true, zeroPool, true⟩ .reuseAddress sys
        | (true, sys) =>
          match attempt sys with
          | (false, sys) => abandon ⟨true, zeroPool, true⟩ .bind sys
          | (true, sys) =>
            match attempt sys with
            | (false, sys) => abandon ⟨true, zeroPool, true⟩ .listen sys
            | (true, sys) => do
              let (ok, pool, sys) ← threadPoolInit config.threadCount config.queueCapacity sys
              if !ok then abandon ⟨true, pool, true⟩ .threadPool sys
              else .ok (.ok ⟨true, pool, true⟩, sys)

/-- What comes next while the server runs: `accept` returns with a socket, for a signal or with
another error, or a worker takes a task or is done with one. -/
inductive Event where
  | connected
  | interrupted
  | acceptFails
  | workerTakes
  | workerCloses
  deriving DecidableEq

/-- The loop of `server_run` through these events, with the error it ends with; without one it is
still waiting in `accept`. A worker does not take a task that is not there. -/
def acceptLoop (errnoText : CString) : List Event → ServerFields → System →
    Checked (Option CString × ServerFields × System)
  | [], server, sys => .ok (none, server, sys)
  | .interrupted :: events, server, sys => acceptLoop errnoText events server sys
  | .acceptFails :: _, server, sys =>
    .ok (some (setErrnoError "accept failed" errnoText), server, sys)
  | .workerTakes :: events, ⟨listenFd, pool, dbApi⟩, sys =>
    if pool.queue.count = 0 ∨ pool.createdCount ≤ pool.busy then
      acceptLoop errnoText events ⟨listenFd, pool, dbApi⟩ sys
    else
      acceptLoop errnoText events ⟨listenFd, { pool with
        queue := { pool.queue with count := pool.queue.count - 1 }, busy := pool.busy + 1 }, dbApi⟩ sys
  | .workerCloses :: events, ⟨listenFd, pool, dbApi⟩, sys =>
    if pool.busy = 0 then acceptLoop errnoText events ⟨listenFd, pool, dbApi⟩ sys
    else do
      let sys ← release .client sys
      acceptLoop errnoText events ⟨listenFd, { pool with busy := pool.busy - 1 }, dbApi⟩ sys
  | .connected :: events, ⟨listenFd, pool, dbApi⟩, sys =>
    match threadPoolTrySubmit pool ⟨sys.calls, sys.locks, {.client} + sys.held⟩ with
    | (submitResult, pool, sys) =>
      if submitResult = 0 then acceptLoop errnoText events ⟨listenFd, pool, dbApi⟩ sys
      else if submitResult = 1 then do
        let sys ← release .client sys
        acceptLoop errnoText events ⟨listenFd, pool, dbApi⟩ sys
      else do
        let sys ← release .client sys
        .ok (some (setError (.lit "failed to submit request to worker queue")),
          ⟨listenFd, pool, dbApi⟩, sys)

def serverRun (errnoText : CString) (events : List Event) (server : ServerFields) (sys : System) :
    Checked (Option CString × ServerFields × System) :=
  if !server.listenFd then .ok (some (setError (.lit "server is not initialized")), server, sys)
  else acceptLoop errnoText events server sys

/-- How far `main` has come: to its exit status with what it has printed on the two outputs, or it
is still accepting. -/
inductive Progress where
  | exited (status : ℕ) (out err : Bytes)
  | accepting (server : ServerFields)
  deriving DecidableEq

def printError (errbuf : CString) : Bytes := if errbuf.bytes = [] then [] else errbuf.bytes ++ [10]

/-- `server_run` never returns 0, so the last line of `main` is not reached. -/
def mainProgram (programName errnoText : CString) (args : List CString) (events : List Event)
    (sys : System) : Checked (Progress × System) :=
  match parseServerArgs args with
  | .usage => .ok (.exited 1 (printUsage programName) [], sys)
  | .help => .ok (.exited 0 (printUsage programName) [], sys)
  | .serve config => do
    match ← serverInit config sys with
    | (.error error, sys) => .ok (.exited 1 [] (printError (error.message errnoText)), sys)
    | (.ok server, sys) => do
      match ← serverRun errnoText events server sys with
      | (none, server, sys) => .ok (.accepting server, sys)
      | (some message, server, sys) => do
        let sys ← serverDestroy server sys
        .ok (.exited 1 [] (printError message), sys)

def Quiet (held : Multiset Resource) : Prop := held.countP (fun r => r.isWorker) = 0

theorem quiet_add {m m' : Multiset Resource} : Quiet (m + m') ↔ Quiet m ∧ Quiet m' := by
  unfold Quiet
  rw [Multiset.countP_add]
  omega

theorem quiet_single {r : Resource} (h : r.isWorker = false) : Quiet {r} := by
  unfold Quiet
  rw [← Multiset.cons_zero, Multiset.countP_cons_of_neg _ (by simp [h]), Multiset.countP_zero]

theorem release_held {r : Resource} {sys : System} {rest : Multiset Resource}
    (h : sys.held = {r} + rest) (hfree : r.shared = true → Quiet rest) :
    release r sys = .ok ⟨sys.calls, sys.locks, rest⟩ := by
  have hmem : ¬ r ∉ sys.held := by
    rw [h, Multiset.singleton_add, not_not]
    exact Multiset.mem_cons_self r rest
  have hquiet : ¬ (r.shared = true ∧ 0 < sys.held.countP (fun other => other.isWorker)) := by
    rintro ⟨hshared, hpos⟩
    have hnot : r.isWorker = false := by cases r <;> first | rfl | cases hshared
    have hq : Quiet sys.held := h ▸ quiet_add.mpr ⟨quiet_single hnot, hfree hshared⟩
    unfold Quiet at hq
    omega
  rw [release, if_neg hmem, if_neg hquiet, h, Multiset.singleton_add, Multiset.erase_cons_head]

theorem release_top (r : Resource) (calls locks : List Bool) {rest : Multiset Resource}
    (hquiet : Quiet rest) : release r ⟨calls, locks, {r} + rest⟩ = .ok ⟨calls, locks, rest⟩ :=
  release_held rfl (fun _ => hquiet)

theorem release_client (calls locks : List Bool) (rest : Multiset Resource) :
    release .client ⟨calls, locks, {.client} + rest⟩ = .ok ⟨calls, locks, rest⟩ :=
  release_held rfl (fun hshared => by cases hshared)

theorem headD_cases (outcomes : List Bool) :
    outcomes.headD true = true ∨ false ∈ outcomes ∧ outcomes.headD true = false := by
  cases outcomes with
  | nil => exact Or.inl rfl
  | cons ok rest =>
    cases ok with
    | true => exact Or.inl rfl
    | false => exact Or.inr ⟨List.mem_cons_self, rfl⟩

theorem acquire_cases (r : Resource) (sys : System) :
    acquire r sys = (true, ⟨sys.calls.tail, sys.locks, {r} + sys.held⟩) ∨
      (false ∈ sys.calls ∧ acquire r sys = (false, ⟨sys.calls.tail, sys.locks, sys.held⟩)) := by
  unfold acquire
  rcases headD_cases sys.calls with h | ⟨hf, h⟩
  · exact Or.inl (if_pos h)
  · exact Or.inr ⟨hf, if_neg (by rw [h]; decide)⟩

theorem attempt_cases (sys : System) :
    attempt sys = (true, ⟨sys.calls.tail, sys.locks, sys.held⟩) ∨
      (false ∈ sys.calls ∧ attempt sys = (false, ⟨sys.calls.tail, sys.locks, sys.held⟩)) := by
  unfold attempt
  rcases headD_cases sys.calls with h | ⟨hf, h⟩
  · exact Or.inl (by rw [h])
  · exact Or.inr ⟨hf, by rw [h]⟩

/-- From `sys` on, the rest of a function that started with `base` acquires `got` in all and returns
`full`, or a call fails. Then it ends with `base` again, or a lock fails too and it does not end. -/
def Settles {α : Type} (base : Multiset Resource) (sys : System)
    (result : Checked (Bool × α × System)) (got : Multiset Resource) (full zero : α) : Prop :=
  ∃ calls locks, calls <:+ sys.calls ∧ locks <:+ sys.locks ∧
    (result = .ok (true, full, ⟨calls, locks, got + base⟩) ∨
      (false ∈ sys.calls ∧ (result = .ok (false, zero, ⟨calls, locks, base⟩) ∨
        (false ∈ sys.locks ∧ result = .error .unbounded))))

section Settles

variable {α : Type} {base held got : Multiset Resource} {sys : System}
  {result : Checked (Bool × α × System)} {full zero : α}

theorem settles_failed (h : false ∈ sys.calls)
    (hresult : result = .ok (false, zero, ⟨sys.calls.tail, sys.locks, base⟩)) :
    Settles base sys result got full zero :=
  ⟨_, _, List.tail_suffix _, List.suffix_refl _, Or.inr ⟨h, Or.inl hresult⟩⟩

theorem settles_from {calls locks : List Bool} (hcalls : calls <:+ sys.calls)
    (hlocks : locks <:+ sys.locks) (h : Settles base ⟨calls, locks, held⟩ result got full zero) :
    Settles base sys result got full zero := by
  obtain ⟨calls', locks', hcalls', hlocks', hdone⟩ := h
  refine ⟨calls', locks', hcalls'.trans hcalls, hlocks'.trans hlocks, hdone.imp_right ?_⟩
  rintro ⟨hmem, hresult⟩
  exact ⟨hcalls.subset hmem, hresult.imp_right (fun hstuck => ⟨hlocks.subset hstuck.1, hstuck.2⟩)⟩

theorem settles_later (h : Settles base ⟨sys.calls.tail, sys.locks, held⟩ result got full zero) :
    Settles base sys result got full zero :=
  settles_from (List.tail_suffix _) (List.suffix_refl _) h

end Settles

def queueResources : Multiset Resource := {.notFull} + ({.notEmpty} + ({.mutex} + {.items}))

theorem taskQueueInit_settles (capacity : ℕ) {sys : System} (hquiet : Quiet sys.held) :
    ∃ calls, calls <:+ sys.calls ∧
      (taskQueueInit capacity sys = .ok (true, ⟨true, capacity, 0, false⟩,
          ⟨calls, sys.locks, queueResources + sys.held⟩) ∨
        (false ∈ sys.calls ∧
          taskQueueInit capacity sys = .ok (false, zeroQueue, ⟨calls, sys.locks, sys.held⟩))) := by
  have hitems : Quiet ({.items} + sys.held) := quiet_add.mpr ⟨quiet_single rfl, hquiet⟩
  have hmutex : Quiet ({.mutex} + ({.items} + sys.held)) :=
    quiet_add.mpr ⟨quiet_single rfl, hitems⟩
  have htail (l : List Bool) : l.tail <:+ l := List.tail_suffix l
  have h₂ := (htail _).trans (htail sys.calls)
  have h₃ := (htail _).trans h₂
  have h₄ := (htail _).trans h₃
  unfold taskQueueInit
  rcases acquire_cases .items sys with h | ⟨hf, h⟩
  swap
  · exact ⟨_, htail _, Or.inr ⟨hf, by rw [h]⟩⟩
  simp only [h]
  rcases acquire_cases .mutex ⟨sys.calls.tail, sys.locks, {.items} + sys.held⟩ with h | ⟨hf, h⟩
  swap
  · exact ⟨_, h₂, Or.inr ⟨(htail _).subset hf, by simp only [h, release_top _ _ _ hquiet, ok_bind]⟩⟩
  simp only [h]
  rcases acquire_cases .notEmpty
    ⟨sys.calls.tail.tail, sys.locks, {.mutex} + ({.items} + sys.held)⟩ with h | ⟨hf, h⟩
  swap
  · exact ⟨_, h₃, Or.inr ⟨h₂.subset hf, by
      simp only [h, release_top _ _ _ hitems, release_top _ _ _ hquiet, ok_bind]⟩⟩
  simp only [h]
  rcases acquire_cases .notFull
    ⟨sys.calls.tail.tail.tail, sys.locks, {.notEmpty} + ({.mutex} + ({.items} + sys.held))⟩ with
    h | ⟨hf, h⟩
  swap
  · exact ⟨_, h₄, Or.inr ⟨h₃.subset hf, by
      simp only [h, release_top _ _ _ hmutex, release_top _ _ _ hitems, release_top _ _ _ hquiet,
        ok_bind]⟩⟩
  simp only [h]
  refine ⟨_, h₄, Or.inl ?_⟩
  simp only [queueResources, add_assoc]

theorem taskQueueDestroy_releases {queue : QueueFields} (hitems : queue.items = true)
    {calls locks : List Bool} {rest : Multiset Resource} (hquiet : Quiet rest) :
    taskQueueDestroy queue ⟨calls, locks, queueResources + rest⟩ = .ok ⟨calls, locks, rest⟩ := by
  have hone : Quiet ({.items} + rest) := quiet_add.mpr ⟨quiet_single rfl, hquiet⟩
  have htwo : Quiet ({.mutex} + ({.items} + rest)) := quiet_add.mpr ⟨quiet_single rfl, hone⟩
  have hthree : Quiet ({.notEmpty} + ({.mutex} + ({.items} + rest))) :=
    quiet_add.mpr ⟨quiet_single rfl, htwo⟩
  simp only [taskQueueDestroy, hitems, queueResources, add_assoc, Bool.not_true,
    Bool.false_eq_true, if_false, release_top _ _ _ hthree, release_top _ _ _ htwo,
    release_top _ _ _ hone, release_top _ _ _ hquiet, ok_bind]

theorem taskQueueShutdown_eq {queue : QueueFields} (hitems : queue.items = true)
    (hopen : queue.shutdown = false) (sys : System) :
    taskQueueShutdown queue sys = ({ queue with shutdown := sys.locks.headD true },
      ⟨sys.calls, sys.locks.tail, sys.held⟩) := by
  obtain ⟨items, capacity, count, shutdown⟩ := queue
  cases hitems
  cases hopen
  unfold taskQueueShutdown lock
  cases sys.locks.headD true <;> rfl

def clients (count : ℕ) : Multiset Resource := Multiset.replicate count .client

theorem clients_succ (count : ℕ) : clients (count + 1) = {.client} + clients count := by
  rw [clients, Multiset.replicate_succ, Multiset.singleton_add]
  rfl

theorem closeClients_releases (count : ℕ) (calls locks : List Bool) (rest : Multiset Resource) :
    closeClients count ⟨calls, locks, clients count + rest⟩ = .ok ⟨calls, locks, rest⟩ := by
  induction count with
  | zero => simp [closeClients, clients]
  | succ count ih =>
    rw [closeClients, clients_succ, add_assoc, release_client, ok_bind]
    exact ih

def workers (count : ℕ) : Multiset Resource := (Multiset.range count).map .worker

theorem workers_succ (count : ℕ) : workers (count + 1) = {.worker count} + workers count := by
  rw [workers, Multiset.range_succ, Multiset.map_cons, Multiset.singleton_add]
  rfl

theorem joinEach_releases (indices : List ℕ) (calls locks : List Bool)
    (rest : Multiset Resource) :
    joinEach indices ⟨calls, locks, Multiset.map .worker indices + rest⟩ =
      .ok ⟨calls, locks, rest⟩ := by
  induction indices with
  | nil => simp [joinEach]
  | cons i indices ih =>
    have hheld : Multiset.map Resource.worker ↑(i :: indices) + rest =
        {.worker i} + (Multiset.map Resource.worker ↑indices + rest) := by
      rw [← Multiset.cons_coe, Multiset.map_cons, Multiset.cons_add, Multiset.singleton_add]
    have hrelease : release (.worker i) ⟨calls, locks, Multiset.map .worker ↑(i :: indices) + rest⟩ =
        .ok ⟨calls, locks, Multiset.map .worker ↑indices + rest⟩ :=
      release_held hheld (fun hshared => by cases hshared)
    simp only [joinEach, hrelease, ok_bind, ih]

def poolResources (count : ℕ) : Multiset Resource :=
  workers count + ({.threads} + queueResources)

theorem quiet_queue {rest : Multiset Resource} (hquiet : Quiet rest) :
    Quiet (queueResources + rest) := by
  refine quiet_add.mpr ⟨?_, hquiet⟩
  rfl

/-- A pool that is up, with `queued` tasks in its queue and `busy` in the hands of its workers. -/
def fullPool (capacity count queued busy : ℕ) : PoolFields :=
  ⟨⟨true, capacity, queued, false⟩, true, count, true, busy⟩

theorem joinWorkers_releases {pool : PoolFields} (hshut : pool.queue.shutdown = true)
    (hidle : pool.createdCount = 0 → pool.queue.count + pool.busy = 0) (calls locks : List Bool)
    (rest : Multiset Resource) :
    joinWorkers pool ⟨calls, locks, clients (pool.queue.count + pool.busy) +
        (poolResources pool.createdCount + rest)⟩ =
      .ok ⟨calls, locks, {.threads} + (queueResources + rest)⟩ := by
  unfold joinWorkers poolResources
  by_cases hnone : pool.createdCount = 0
  · rw [if_pos hnone, hidle hnone, hnone]
    simp [clients, workers]
  · rw [if_neg hnone, hshut, closeClients_releases, ok_bind, add_assoc, add_assoc]
    exact joinEach_releases (List.range pool.createdCount) calls locks _

theorem joinWorkers_stuck {pool : PoolFields} (hopen : pool.queue.shutdown = false)
    (hsome : pool.createdCount ≠ 0) (sys : System) : joinWorkers pool sys = .error .unbounded := by
  rw [joinWorkers, if_neg hsome, hopen]
  rfl

def risingPool (capacity created : ℕ) : PoolFields :=
  ⟨⟨true, capacity, 0, false⟩, true, created, false, 0⟩

theorem createWorkers_settles {base : Multiset Resource} (hquiet : Quiet base) (capacity left : ℕ)
    {created : ℕ} (calls locks : List Bool) :
    Settles base ⟨calls, locks, poolResources created + base⟩
      (createWorkers left (risingPool capacity created) ⟨calls, locks, poolResources created + base⟩)
      (poolResources (created + left)) (fullPool capacity (created + left) 0 0) zeroPool := by
  induction left generalizing created calls with
  | zero => exact ⟨calls, locks, List.suffix_refl _, List.suffix_refl _, Or.inl rfl⟩
  | succ left ih =>
    rw [createWorkers, risingPool]
    dsimp only
    rcases acquire_cases (.worker created) ⟨calls, locks, poolResources created + base⟩ with
      h | ⟨hf, h⟩
    · have hnext : ({.worker created} + (poolResources created + base) : Multiset Resource) =
          poolResources (created + 1) + base := by
        simp only [poolResources, workers_succ, add_assoc]
      simp only [h, hnext]
      rw [show created + (left + 1) = created + 1 + left by omega]
      exact settles_later (@ih (created + 1) calls.tail)
    · simp only [h]
      rw [taskQueueShutdown_eq rfl rfl]
      dsimp only
      by_cases hjoin : locks.headD true = true ∨ created = 0
      · -- the workers there are, then the array, then the queue
        have hrun : joinWorkers ⟨⟨true, capacity, 0, locks.headD true⟩, true, created, false, 0⟩
            ⟨calls.tail, locks.tail, poolResources created + base⟩ =
            .ok ⟨calls.tail, locks.tail, {.threads} + (queueResources + base)⟩ := by
          rcases hjoin with hlock | rfl
          · have hall := @joinWorkers_releases
              ⟨⟨true, capacity, 0, locks.headD true⟩, true, created, false, 0⟩ hlock (fun _ => rfl)
              calls.tail locks.tail base
            simpa only [clients, Nat.add_zero, Multiset.replicate_zero, zero_add] using hall
          · simp only [joinWorkers, if_true, poolResources, workers, Multiset.range_zero,
              Multiset.map_zero, zero_add, add_assoc]
        refine ⟨_, _, List.tail_suffix _, List.tail_suffix _, Or.inr ⟨hf, Or.inl ?_⟩⟩
        rw [hrun, ok_bind, release_top _ _ _ (quiet_queue hquiet), ok_bind,
          taskQueueDestroy_releases rfl hquiet, ok_bind]
      · rw [not_or] at hjoin
        obtain ⟨hlost, hlock⟩ := (headD_cases locks).resolve_left hjoin.1
        refine ⟨_, _, List.tail_suffix _, List.tail_suffix _, Or.inr ⟨hf, Or.inr ⟨hlost, ?_⟩⟩⟩
        rw [joinWorkers_stuck hlock hjoin.2]
        rfl

theorem threadPoolInit_settles {threadCount queueCapacity : ℕ} (hthreads : threadCount ≠ 0)
    (hcapacity : queueCapacity ≠ 0) {sys : System} (hquiet : Quiet sys.held) :
    Settles sys.held sys (threadPoolInit threadCount queueCapacity sys)
      (poolResources threadCount) (fullPool queueCapacity threadCount 0 0) zeroPool := by
  have hvalid : ¬ (threadCount = 0 ∨ queueCapacity = 0) := not_or.mpr ⟨hthreads, hcapacity⟩
  obtain ⟨calls, hsuffix, hqueue | ⟨hf, hqueue⟩⟩ := taskQueueInit_settles queueCapacity hquiet
  · simp only [threadPoolInit, if_neg hvalid, hqueue, ok_bind, Bool.not_true, Bool.false_eq_true,
      if_false]
    apply settles_from hsuffix (List.suffix_refl _)
    rcases acquire_cases .threads ⟨calls, sys.locks, queueResources + sys.held⟩ with h | ⟨hf, h⟩
    · have hstart : ({.threads} + (queueResources + sys.held) : Multiset Resource) =
          poolResources 0 + sys.held := by
        simp only [poolResources, workers, Multiset.range_zero, Multiset.map_zero, zero_add,
          add_assoc]
      have hworkers := @createWorkers_settles sys.held hquiet queueCapacity threadCount 0 calls.tail
        sys.locks
      rw [Nat.zero_add] at hworkers
      simp only [h, hstart]
      exact settles_later hworkers
    · refine settles_failed hf ?_
      simp only [h]
      rw [taskQueueDestroy_releases rfl hquiet, ok_bind]
  · refine ⟨calls, _, hsuffix, List.suffix_refl _, Or.inr ⟨hf, Or.inl ?_⟩⟩
    simp only [threadPoolInit, if_neg hvalid, hqueue, ok_bind, Bool.not_false, if_true]
    rfl

/-- A pool that is up comes down with every socket its tasks hold, unless the lock fails. -/
theorem threadPoolDestroy_releases {capacity count : ℕ} (hcount : count ≠ 0) (queued busy : ℕ)
    (calls locks : List Bool) {rest : Multiset Resource} (hquiet : Quiet rest) :
    threadPoolDestroy (fullPool capacity count queued busy)
        ⟨calls, locks, clients (queued + busy) + (poolResources count + rest)⟩ =
      if locks.headD true then .ok ⟨calls, locks.tail, rest⟩ else .error .unbounded := by
  unfold threadPoolDestroy fullPool
  dsimp only
  rw [taskQueueShutdown_eq rfl rfl]
  dsimp only
  rw [if_pos rfl]
  by_cases hlock : locks.headD true = true
  · have hjoin := @joinWorkers_releases
      ⟨⟨true, capacity, queued, locks.headD true⟩, true, count, true, busy⟩ hlock
      (fun hnone => absurd hnone hcount) calls locks.tail rest
    rw [hjoin, ok_bind, release_top _ _ _ (quiet_queue hquiet), ok_bind, if_pos hlock,
      taskQueueDestroy_releases rfl hquiet]
  · rw [joinWorkers_stuck (Bool.eq_false_iff.mpr hlock) hcount, if_neg hlock]
    rfl

def dbResources : Multiset Resource := {.dbDir} + {.rwlock}

theorem dbApiInit_settles {sys : System} (hquiet : Quiet sys.held) :
    ∃ calls, calls <:+ sys.calls ∧
      (dbApiInit sys = .ok (true, ⟨calls, sys.locks, dbResources + sys.held⟩) ∨
        (false ∈ sys.calls ∧ dbApiInit sys = .ok (false, ⟨calls, sys.locks, sys.held⟩))) := by
  unfold dbApiInit
  rcases acquire_cases .dbDir sys with h | ⟨hf, h⟩
  swap
  · exact ⟨_, List.tail_suffix _, Or.inr ⟨hf, by rw [h]⟩⟩
  simp only [h]
  have hsuffix : sys.calls.tail.tail <:+ sys.calls :=
    (List.tail_suffix _).trans (List.tail_suffix _)
  rcases acquire_cases .rwlock ⟨sys.calls.tail, sys.locks, {.dbDir} + sys.held⟩ with h | ⟨hf, h⟩
  · refine ⟨_, hsuffix, Or.inl ?_⟩
    simp only [h, dbResources, add_assoc, add_left_comm]
  · refine ⟨_, hsuffix, Or.inr ⟨List.mem_of_mem_tail hf, ?_⟩⟩
    simp only [h, release_top _ _ _ hquiet, ok_bind]

theorem quiet_db {rest : Multiset Resource} (hquiet : Quiet rest) : Quiet (dbResources + rest) := by
  refine quiet_add.mpr ⟨?_, hquiet⟩
  rfl

theorem dbApiDestroy_releases (calls locks : List Bool) {rest : Multiset Resource}
    (hquiet : Quiet rest) :
    dbApiDestroy true ⟨calls, locks, dbResources + rest⟩ = .ok ⟨calls, locks, rest⟩ := by
  have hlock : Quiet ({.rwlock} + rest) := quiet_add.mpr ⟨quiet_single rfl, hquiet⟩
  simp only [dbApiDestroy, dbResources, add_assoc, Bool.not_true, Bool.false_eq_true, if_false,
    release_top _ _ _ hlock, release_top _ _ _ hquiet, ok_bind]

theorem threadPoolDestroy_zero (sys : System) : threadPoolDestroy zeroPool sys = .ok sys := rfl

/-- Without a pool, `server_destroy` closes the socket, if there is one, and ends the adapter. -/
theorem abandon_early (error : StartError) (calls locks : List Bool) {base : Multiset Resource}
    (hquiet : Quiet base) :
    abandon ⟨false, zeroPool, true⟩ error ⟨calls, locks, dbResources + base⟩ =
      .ok (.error error, ⟨calls, locks, base⟩) := by
  simp only [abandon, serverDestroy, Bool.false_eq_true, if_false, threadPoolDestroy_zero,
    dbApiDestroy_releases _ _ hquiet, ok_bind]

theorem abandon_late (error : StartError) (calls locks : List Bool) {base : Multiset Resource}
    (hquiet : Quiet base) :
    abandon ⟨true, zeroPool, true⟩ error ⟨calls, locks, {.listenSocket} + (dbResources + base)⟩ =
      .ok (.error error, ⟨calls, locks, base⟩) := by
  simp only [abandon, serverDestroy, if_true, release_top _ _ _ (quiet_db hquiet),
    threadPoolDestroy_zero, dbApiDestroy_releases _ _ hquiet, ok_bind]

def serverResources (threadCount : ℕ) : Multiset Resource :=
  poolResources threadCount + ({.listenSocket} + dbResources)

/-- The server that runs, with `queued` tasks in its queue and `busy` in the hands of its workers. -/
def fullServer (config : ServerConfig) (queued busy : ℕ) : ServerFields :=
  ⟨true, fullPool config.queueCapacity config.threadCount queued busy, true⟩

def ValidConfig (config : ServerConfig) : Prop :=
  config.dbDir ≠ none ∧ config.threadCount ≠ 0 ∧ config.queueCapacity ≠ 0 ∧ 1 ≤ config.port ∧
    config.port ≤ 65535

/-- `server_init` from `sys` starts the server, or a call fails: then nothing is left, or a lock
fails too and it does not end. -/
def Starts (config : ServerConfig) (sys : System) : Prop :=
  ∃ calls locks, locks <:+ sys.locks ∧
    (serverInit config sys = .ok (.ok (fullServer config 0 0),
        ⟨calls, locks, serverResources config.threadCount + sys.held⟩) ∨
      (false ∈ sys.calls ∧
        ((∃ error, error ≠ .configuration ∧
            serverInit config sys = .ok (.error error, ⟨calls, locks, sys.held⟩)) ∨
          (false ∈ sys.locks ∧ serverInit config sys = .error .unbounded))))

theorem serverInit_starts {config : ServerConfig} (hconfig : ValidConfig config) {sys : System}
    (hquiet : Quiet sys.held) : Starts config sys := by
  obtain ⟨hdir, hthreads, hcapacity, hlow, hhigh⟩ := hconfig
  have hvalid : ¬ (config.dbDir = none ∨ config.threadCount = 0 ∨ config.queueCapacity = 0 ∨
      config.port ≤ 0 ∨ 65535 < config.port) := by
    simp only [not_or]
    exact ⟨hdir, hthreads, hcapacity, by omega, by omega⟩
  have hdb := quiet_db hquiet
  have hsocket : Quiet ({.listenSocket} + (dbResources + sys.held)) :=
    quiet_add.mpr ⟨quiet_single rfl, hdb⟩
  have hsame := List.suffix_refl sys.locks
  obtain ⟨calls, hsuffix, hinit | ⟨hf, hinit⟩⟩ := dbApiInit_settles hquiet
  swap
  · refine ⟨calls, _, hsame, Or.inr ⟨hf, Or.inl ⟨.database, by decide, ?_⟩⟩⟩
    simp only [serverInit, if_neg hvalid, hinit, ok_bind, Bool.not_false, if_true]
  unfold Starts
  simp only [serverInit, if_neg hvalid, hinit, ok_bind, Bool.not_true, Bool.false_eq_true, if_false]
  have htail (l : List Bool) : l.tail <:+ l := List.tail_suffix l
  have h₁ := (htail calls).trans hsuffix
  have h₂ := (htail _).trans h₁
  have h₃ := (htail _).trans h₂
  have h₄ := (htail _).trans h₃
  rcases acquire_cases .listenSocket ⟨calls, sys.locks, dbResources + sys.held⟩ with h | ⟨hf, h⟩
  swap
  · exact ⟨calls.tail, _, hsame, Or.inr ⟨hsuffix.subset hf, Or.inl ⟨.socket, by decide, by
      simp only [h, abandon_early _ _ _ hquiet]⟩⟩⟩
  simp only [h]
  rcases attempt_cases ⟨calls.tail, sys.locks, {.listenSocket} + (dbResources + sys.held)⟩ with
    h | ⟨hf, h⟩
  swap
  · exact ⟨calls.tail.tail, _, hsame, Or.inr ⟨h₁.subset hf, Or.inl ⟨.reuseAddress, by decide, by
      simp only [h, abandon_late _ _ _ hquiet]⟩⟩⟩
  simp only [h]
  rcases attempt_cases ⟨calls.tail.tail, sys.locks, {.listenSocket} + (dbResources + sys.held)⟩ with
    h | ⟨hf, h⟩
  swap
  · exact ⟨calls.tail.tail.tail, _, hsame, Or.inr ⟨h₂.subset hf, Or.inl ⟨.bind, by decide, by
      simp only [h, abandon_late _ _ _ hquiet]⟩⟩⟩
  simp only [h]
  rcases attempt_cases
    ⟨calls.tail.tail.tail, sys.locks, {.listenSocket} + (dbResources + sys.held)⟩ with h | ⟨hf, h⟩
  swap
  · exact ⟨calls.tail.tail.tail.tail, _, hsame, Or.inr ⟨h₃.subset hf, Or.inl ⟨.listen, by decide, by
      simp only [h, abandon_late _ _ _ hquiet]⟩⟩⟩
  simp only [h]
  obtain ⟨rest, locks, -, hlocks, hpool | ⟨hf, hpool | ⟨hlost, hpool⟩⟩⟩ :=
    @threadPoolInit_settles _ _ hthreads hcapacity
      ⟨calls.tail.tail.tail.tail, sys.locks, {.listenSocket} + (dbResources + sys.held)⟩ hsocket
  · refine ⟨rest, locks, hlocks, Or.inl ?_⟩
    simp only [hpool, ok_bind, Bool.not_true, Bool.false_eq_true, if_false, serverResources,
      fullServer, add_assoc]
  · exact ⟨rest, locks, hlocks, Or.inr ⟨h₄.subset hf, Or.inl ⟨.threadPool, by decide, by
      simp only [hpool, ok_bind, Bool.not_false, if_true, abandon_late _ _ _ hquiet]⟩⟩⟩
  · refine ⟨rest, locks, hlocks, Or.inr ⟨h₄.subset hf, Or.inr ⟨hlost, ?_⟩⟩⟩
    rw [hpool]
    rfl

theorem serverDestroy_releases {config : ServerConfig} (hcount : config.threadCount ≠ 0)
    (queued busy : ℕ) (calls locks : List Bool) {base : Multiset Resource} (hquiet : Quiet base) :
    serverDestroy (fullServer config queued busy)
        ⟨calls, locks, clients (queued + busy) + (serverResources config.threadCount + base)⟩ =
      if locks.headD true then .ok ⟨calls, locks.tail, base⟩ else .error .unbounded := by
  have hclose : release .listenSocket
      ⟨calls, locks, clients (queued + busy) + (serverResources config.threadCount + base)⟩ =
      .ok ⟨calls, locks,
        clients (queued + busy) + (poolResources config.threadCount + (dbResources + base))⟩ := by
    refine release_held ?_ (fun hshared => by cases hshared)
    simp only [serverResources, add_assoc, add_left_comm]
  unfold serverDestroy fullServer
  dsimp only
  rw [if_pos rfl, hclose, ok_bind, threadPoolDestroy_releases hcount _ _ _ _ (quiet_db hquiet)]
  by_cases hlock : locks.headD true = true
  · rw [if_pos hlock, if_pos hlock, ok_bind]
    exact dbApiDestroy_releases _ _ hquiet
  · rw [if_neg hlock, if_neg hlock]
    rfl

theorem message_ne_nil {text : CString} (h : text.bytes ≠ []) : (setError text).bytes ≠ [] := by
  change text.bytes.take 255 ≠ []
  simpa [List.take_eq_nil_iff] using h

theorem errnoMessage_ne_nil {message : String} (errnoText : CString)
    (h : (CString.lit message).bytes ≠ []) : (setErrnoError message errnoText).bytes ≠ [] := by
  refine message_ne_nil ?_
  simp [h]

theorem printError_ne_nil {text : CString} (h : text.bytes ≠ []) : printError text ≠ [] := by
  rw [printError, if_neg h]
  simp

theorem threadPoolTrySubmit_eq (capacity count queued busy : ℕ) (sys : System) :
    threadPoolTrySubmit (fullPool capacity count queued busy) sys =
      if sys.locks.headD true then
        if queued = capacity then
          (1, fullPool capacity count queued busy, ⟨sys.calls, sys.locks.tail, sys.held⟩)
        else (0, fullPool capacity count (queued + 1) busy, ⟨sys.calls, sys.locks.tail, sys.held⟩)
      else (-1, fullPool capacity count queued busy, ⟨sys.calls, sys.locks.tail, sys.held⟩) := by
  unfold threadPoolTrySubmit taskQueueTryPush lock fullPool
  cases sys.locks.headD true with
  | false => rfl
  | true =>
    by_cases hfull : queued = capacity
    · simp [hfull]
    · simp [hfull]

/-- One event leaves the server in its loop with every socket in the queue or in the hands of a
worker, or `server_run` ends with a message and the server as it was. -/
theorem acceptLoop_step (errnoText : CString) {config : ServerConfig} (event : Event)
    (events : List Event) {queued busy : ℕ} (hqueued : queued ≤ config.queueCapacity)
    (hbusy : busy ≤ config.threadCount) (calls locks : List Bool) (rest : Multiset Resource) :
    (∃ queued' busy' locks', queued' ≤ config.queueCapacity ∧ busy' ≤ config.threadCount ∧
      locks' <:+ locks ∧ event ≠ .acceptFails ∧
      acceptLoop errnoText (event :: events) (fullServer config queued busy)
          ⟨calls, locks, clients (queued + busy) + rest⟩ =
        acceptLoop errnoText events (fullServer config queued' busy')
          ⟨calls, locks', clients (queued' + busy') + rest⟩) ∨
    ∃ text locks', text.bytes ≠ [] ∧ (event = .acceptFails ∨ false ∈ locks) ∧ locks' <:+ locks ∧
      acceptLoop errnoText (event :: events) (fullServer config queued busy)
          ⟨calls, locks, clients (queued + busy) + rest⟩ =
        .ok (some text, fullServer config queued busy,
          ⟨calls, locks', clients (queued + busy) + rest⟩) := by
  cases event with
  | interrupted =>
    exact Or.inl ⟨queued, busy, locks, hqueued, hbusy, List.suffix_refl _, by decide, rfl⟩
  | acceptFails =>
    exact Or.inr ⟨_, locks, errnoMessage_ne_nil errnoText (by decide), Or.inl rfl,
      List.suffix_refl _, rfl⟩
  | workerTakes =>
    left
    by_cases hnone : queued = 0 ∨ config.threadCount ≤ busy
    · refine ⟨queued, busy, locks, hqueued, hbusy, List.suffix_refl _, by decide, ?_⟩
      exact if_pos hnone
    · refine ⟨queued - 1, busy + 1, locks, by omega, by omega, List.suffix_refl _, by decide, ?_⟩
      rw [show queued - 1 + (busy + 1) = queued + busy by omega]
      exact if_neg hnone
  | workerCloses =>
    left
    by_cases hidle : busy = 0
    · refine ⟨queued, busy, locks, hqueued, hbusy, List.suffix_refl _, by decide, ?_⟩
      exact if_pos hidle
    · obtain ⟨busy, rfl⟩ := Nat.exists_eq_succ_of_ne_zero hidle
      refine ⟨queued, busy, locks, hqueued, by omega, List.suffix_refl _, by decide, ?_⟩
      rw [Nat.add_succ, clients_succ, add_assoc, fullServer, fullPool, acceptLoop]
      dsimp only
      rw [if_neg hidle, release_client, ok_bind]
      rfl
  | connected =>
    rw [fullServer, acceptLoop, threadPoolTrySubmit_eq]
    rcases headD_cases locks with hlock | ⟨hlost, hlock⟩
    · left
      dsimp only
      rw [if_pos hlock]
      by_cases hfull : queued = config.queueCapacity
      · refine ⟨queued, busy, locks.tail, hqueued, hbusy, List.tail_suffix _, by decide, ?_⟩
        rw [if_pos hfull]
        dsimp only
        rw [if_neg (by decide), if_pos rfl, release_client, ok_bind, fullServer]
      · refine ⟨queued + 1, busy, locks.tail, by omega, hbusy, List.tail_suffix _, by decide, ?_⟩
        rw [if_neg hfull, Nat.add_right_comm, clients_succ, add_assoc, fullServer]
        exact if_pos rfl
    · refine Or.inr ⟨setError (.lit "failed to submit request to worker queue"), locks.tail,
        message_ne_nil (by decide), Or.inr hlost, List.tail_suffix _, ?_⟩
      dsimp only
      rw [hlock, if_neg Bool.false_ne_true]
      dsimp only
      rw [if_neg (by decide), if_neg (by decide), release_client, ok_bind]

/-- Through any events: the server still accepts, and `accept` has not failed, or it has failed, or
the lock of a submission, and `server_run` is back with a message. -/
theorem acceptLoop_keeps (errnoText : CString) {config : ServerConfig} (events : List Event)
    {queued busy : ℕ} (hqueued : queued ≤ config.queueCapacity) (hbusy : busy ≤ config.threadCount)
    (calls locks : List Bool) (rest : Multiset Resource) :
    ∃ message queued' busy' locks',
      acceptLoop errnoText events (fullServer config queued busy)
          ⟨calls, locks, clients (queued + busy) + rest⟩ =
        .ok (message, fullServer config queued' busy',
          ⟨calls, locks', clients (queued' + busy') + rest⟩) ∧
      queued' ≤ config.queueCapacity ∧ busy' ≤ config.threadCount ∧ locks' <:+ locks ∧
      (message = none → .acceptFails ∉ events) ∧
      ∀ text, message = some text →
        text.bytes ≠ [] ∧ (.acceptFails ∈ events ∨ false ∈ locks) := by
  induction events generalizing queued busy locks with
  | nil =>
    refine ⟨none, queued, busy, locks, rfl, hqueued, hbusy, List.suffix_refl _, ?_, ?_⟩
    · simp
    · rintro _ ⟨⟩
  | cons event events ih =>
    obtain ⟨queued', busy', locks', hqueued', hbusy', hlocks, hevent, hstep⟩ |
        ⟨text, locks', htext, hwhy, hlocks, hstep⟩ :=
      acceptLoop_step errnoText event events hqueued hbusy calls locks rest
    · obtain ⟨message, queued'', busy'', locks'', hrun, hq, hb, hlater, hnone, hsome⟩ :=
        ih hqueued' hbusy' locks'
      refine ⟨message, queued'', busy'', locks'', hstep.trans hrun, hq, hb, hlater.trans hlocks,
        ?_, ?_⟩
      · intro h
        rw [List.mem_cons, not_or]
        exact ⟨fun heq => hevent heq.symm, hnone h⟩
      · intro text h
        refine ⟨(hsome text h).1, (hsome text h).2.imp ?_ ?_⟩
        · exact List.mem_cons_of_mem event
        · exact fun hlost => hlocks.subset hlost
    · refine ⟨some text, queued, busy, locks', hstep, hqueued, hbusy, hlocks, ?_, ?_⟩
      · rintro ⟨⟩
      · rintro _ ⟨⟩
        refine ⟨htext, hwhy.imp_left ?_⟩
        rintro rfl
        exact List.mem_cons_self

theorem parseIntArg_bounds {text : CString} {lo hi value : ℤ}
    (h : parseIntArg text lo hi = some value) : lo ≤ value ∧ value ≤ hi := by
  unfold parseIntArg at h
  split at h
  · cases h
  split at h
  · cases h
  · rename_i hbad
    cases h
    simp only [not_or, not_lt] at hbad
    exact ⟨hbad.2.1, hbad.2.2⟩

theorem parseSizeArg_pos {text : CString} {value : ℕ} (h : parseSizeArg text = some value) :
    value ≠ 0 := by
  unfold parseSizeArg at h
  split at h
  · cases h
  split at h
  · cases h
  · rename_i hbad
    cases h
    exact (not_or.mp hbad).2

def Sized (config : ServerConfig) : Prop :=
  config.threadCount ≠ 0 ∧ config.queueCapacity ≠ 0 ∧ 1 ≤ config.port ∧ config.port ≤ 65535

theorem parseOptions_valid {config final : ServerConfig} {args : List CString} (h : Sized config)
    (hparse : parseOptions config args = .serve final) : ValidConfig final := by
  fun_induction parseOptions config args with
  | case2 config hdir =>
    cases hparse
    exact ⟨hdir, h⟩
  | case6 config arg value rest _ _ ih => exact ih h hparse
  | case8 config arg value rest _ _ _ port hport ih =>
    exact ih ⟨h.1, h.2.1, parseIntArg_bounds hport⟩ hparse
  | case10 config arg value rest _ _ _ _ threadCount hcount ih =>
    exact ih ⟨parseSizeArg_pos hcount, h.2⟩ hparse
  | case12 config arg value rest _ _ _ _ _ queueCapacity hcapacity ih =>
    exact ih ⟨h.1, parseSizeArg_pos hcapacity, h.2.2⟩ hparse
  | _ => cases hparse

theorem parsed_valid {args : List CString} {config : ServerConfig}
    (h : parseServerArgs args = .serve config) : ValidConfig config :=
  parseOptions_valid ⟨by decide, by decide, by decide, by decide⟩ h

theorem StartError.message_ne_nil (errnoText : CString) (error : StartError) :
    (error.message errnoText).bytes ≠ [] := by
  cases error <;> first
    | exact ServerLifecycle.message_ne_nil (by decide)
    | exact errnoMessage_ne_nil errnoText (by decide)

theorem printUsage_ne_nil (programName : CString) : printUsage programName ≠ [] := by
  have hword : ascii "Usage: " ≠ [] := by decide
  simp [printUsage, hword]

/-- What can have become of `main`: it has ended, holds nothing and has said why, or it accepts with
everything in place, or it waits for workers that nobody told to stop. -/
def Accounted (args : List CString) (events : List Event) (calls locks : List Bool)
    (main : Checked (Progress × System)) : Prop :=
  (∃ status out err sys, main = .ok (.exited status out err, sys) ∧ sys.held = 0 ∧
    out ++ err ≠ [] ∧ (status = 0 ↔ parseServerArgs args = .help) ∧
    ∀ config, parseServerArgs args = .serve config →
      false ∈ calls ∨ false ∈ locks ∨ .acceptFails ∈ events) ∨
  (∃ config queued busy sys, main = .ok (.accepting (fullServer config queued busy), sys) ∧
    parseServerArgs args = .serve config ∧ queued ≤ config.queueCapacity ∧
    busy ≤ config.threadCount ∧
    sys.held = clients (queued + busy) + serverResources config.threadCount ∧
    .acceptFails ∉ events) ∨
  (main = .error .unbounded ∧ false ∈ locks)

theorem mainProgram_accounted (programName errnoText : CString) (args : List CString)
    (events : List Event) (calls locks : List Bool) :
    Accounted args events calls locks
      (mainProgram programName errnoText args events ⟨calls, locks, 0⟩) := by
  unfold mainProgram
  cases hparse : parseServerArgs args with
  | usage =>
    refine Or.inl ⟨1, _, _, _, rfl, rfl, ?_, ?_, ?_⟩
    · simp [printUsage_ne_nil]
    · simp [hparse]
    · simp [hparse]
  | help =>
    refine Or.inl ⟨0, _, _, _, rfl, rfl, ?_, ?_, ?_⟩
    · simp [printUsage_ne_nil]
    · simp [hparse]
    · simp [hparse]
  | serve config =>
    have hvalid := parsed_valid hparse
    obtain ⟨rest, locks₁, hlocks₁, hinit | ⟨hf, ⟨error, -, hinit⟩ | ⟨hlost, hinit⟩⟩⟩ :=
      @serverInit_starts config hvalid ⟨calls, locks, 0⟩ rfl
    · -- the server is up, without a client
      obtain ⟨message, queued, busy, locks₂, hrun, hqueued, hbusy, hlocks₂, hnone, hsome⟩ :=
        @acceptLoop_keeps errnoText config events 0 0 (Nat.zero_le _) (Nat.zero_le _) rest locks₁
          (serverResources config.threadCount + 0)
      have hrun : serverRun errnoText events (fullServer config 0 0)
          ⟨rest, locks₁, serverResources config.threadCount + 0⟩ =
          .ok (message, fullServer config queued busy, ⟨rest, locks₂,
            clients (queued + busy) + (serverResources config.threadCount + 0)⟩) := by
        rw [clients, Nat.add_zero, Multiset.replicate_zero, zero_add] at hrun
        exact hrun
      simp only [hinit, ok_bind, hrun]
      cases message with
      | none =>
        refine Or.inr (Or.inl ⟨config, queued, busy, _, rfl, hparse, hqueued, hbusy, ?_, hnone rfl⟩)
        rw [add_zero]
      | some text =>
        obtain ⟨htext, hwhy⟩ := hsome text rfl
        have hwhy : false ∈ locks ∨ .acceptFails ∈ events :=
          hwhy.symm.imp_left (fun hlost => hlocks₁.subset hlost)
        simp only [serverDestroy_releases hvalid.2.1 queued busy rest locks₂ (rfl : Quiet 0)]
        rcases headD_cases locks₂ with hlock | ⟨hlost, hlock⟩
        · rw [if_pos hlock, ok_bind]
          refine Or.inl ⟨1, _, _, _, rfl, rfl, ?_, ?_, fun _ _ => Or.inr hwhy⟩
          · exact printError_ne_nil htext
          · simp [hparse]
        · rw [if_neg (by rw [hlock]; decide)]
          exact Or.inr (Or.inr ⟨rfl, hlocks₁.subset (hlocks₂.subset hlost)⟩)
    · simp only [hinit, ok_bind]
      refine Or.inl ⟨1, _, _, _, rfl, rfl, ?_, ?_, fun _ _ => Or.inl hf⟩
      · exact printError_ne_nil (error.message_ne_nil errnoText)
      · simp [hparse]
    · dsimp only
      rw [hinit]
      exact Or.inr (Or.inr ⟨rfl, hlost⟩)

def twoWorkers : List CString := [.lit "-d", .lit "db", .lit "-t", .lit "2"]

def busyDay : List Event :=
  [.connected, .workerTakes, .connected, .interrupted, .workerCloses, .acceptFails]

end ServerLifecycle
