import ThreadedDb.ServerModel

/-!
# Every connection is handled once

A descriptor is in the hands of the main thread, of the queue or of one worker, from the `accept`
that returns it to the `close` of whoever takes it up. The holdings do not change when a task
goes through the queue, so a run of the server keeps custody of its descriptors, and the pool is
drained before the workers are joined.
-/
namespace ServerRuns

open ByteText
open JsonModel
open HttpModel
open CheckedArray (Checked ok_bind)
open Monitors
open TaskQueueModel
open QueueRefinement
open ThreadPool
open Custody
open ServerModel

section Handling

variable {server : Server}

theorem error_response_sent (statusCode : Int32) (errorCode message : CString) :
    ∃ response, (.ok (httpSendErrorResponse statusCode errorCode message) :
      Checked (Option HttpResponse)) = .ok (some response) := by
  obtain ⟨response, hresponse⟩ := error_response_starts statusCode errorCode message
  exact ⟨response, by rw [hresponse]⟩

theorem json_response_sent (statusCode : Int32) (jsonBody : Option CString) :
    ∃ response, (.ok (httpSendJsonResponse statusCode jsonBody) :
      Checked (Option HttpResponse)) = .ok (some response) := by
  obtain ⟨response, hresponse⟩ := json_response_starts statusCode jsonBody
  exact ⟨response, by rw [hresponse]⟩

theorem queryResponse_total (body : Bytes) (execute : CString → SqlOutcome) :
    ∃ response, queryResponse body execute = .ok (some response) := by
  obtain ⟨extracted, hextract⟩ := JsonGrammar.extract_total (.ofBuffer body) (.lit "sql")
  simp only [queryResponse, hextract, ok_bind]
  rcases extracted with ⟨status, errbuf⟩ | sql
  · cases status with
    | missingField => apply error_response_sent
    | invalidJson => apply error_response_sent
    | internalError => apply error_response_sent
  · cases hjson : (execute sql).json with
    | none =>
      simp only [hjson]
      apply error_response_sent
    | some json =>
      simp only [hjson]
      apply json_response_sent

theorem routeResponse_total (req : HttpRequest) (execute : CString → SqlOutcome) :
    ∃ response, routeResponse req execute = .ok (some response) := by
  unfold routeResponse
  split
  · split
    · apply error_response_sent
    · apply json_response_sent
  split
  · split
    · apply error_response_sent
    · exact queryResponse_total _ _
  · apply error_response_sent

theorem send_error (statusCode : Int32) (errorCode message : CString) :
    ∃ response, send (httpSendErrorResponse statusCode errorCode message) ++ [.close] =
      [.respond response, .close] := by
  obtain ⟨response, hresponse⟩ := error_response_starts statusCode errorCode message
  exact ⟨response, by rw [hresponse]; rfl⟩

theorem handler_responds_once (server : Server) (read : HttpRead) (execute : CString → SqlOutcome) :
    ∃ response, serverHandleClientTask (some server) read execute =
      .ok [.respond response, .close] := by
  cases read with
  | ok req =>
    obtain ⟨response, hroute⟩ := routeResponse_total req execute
    refine ⟨response, ?_⟩
    simp only [serverHandleClientTask, hroute, ok_bind]
    rfl
  | badRequest errbuf => exact (send_error _ _ _).imp (fun _ hsend => congrArg Except.ok hsend)
  | payloadTooLarge errbuf => exact (send_error _ _ _).imp (fun _ hsend => congrArg Except.ok hsend)
  | internalError errbuf => exact (send_error _ _ _).imp (fun _ hsend => congrArg Except.ok hsend)

theorem rejection_responds_once (submitResult : Int) :
    ∃ first response, rejection submitResult = first ++ [.respond response, .close] ∧
      (first = [] ∨ first = [.shutdownRead]) := by
  unfold rejection
  split
  · obtain ⟨response, hsend⟩ := send_error 503 (.lit "QUEUE_FULL")
      (.lit "server task queue is full")
    exact ⟨[.shutdownRead], response, congrArg (SocketAction.shutdownRead :: ·) hsend, Or.inr rfl⟩
  · obtain ⟨response, hsend⟩ := send_error 500 (.lit "INTERNAL_ERROR")
      (.lit "failed to submit request to worker queue")
    exact ⟨[], response, hsend, Or.inl rfl⟩

def Handles (server : Server) {workers : ℕ} :
    ServerThread workers → List SocketAction → Prop
  | .inl _, actions =>
    ∃ read execute, serverHandleClientTask (some server) read execute = .ok actions
  | .inr _, actions => ∃ submitResult, actions = rejection submitResult

theorem handles_shape {workers : ℕ} {party : ServerThread workers} {actions : List SocketAction}
    (h : Handles server party actions) :
    ∃ first response, actions = first ++ [.respond response, .close] ∧
      (first = [] ∨ first = [.shutdownRead]) := by
  cases party with
  | inl i =>
    obtain ⟨read, execute, hactions⟩ := h
    obtain ⟨response, hresponse⟩ := handler_responds_once server read execute
    rw [hresponse] at hactions
    cases hactions
    exact ⟨[], response, rfl, Or.inl rfl⟩
  | inr u =>
    obtain ⟨submitResult, rfl⟩ := h
    exact rejection_responds_once submitResult

theorem handles_counts {workers : ℕ} {party : ServerThread workers} {actions : List SocketAction}
    (h : Handles server party actions) : actions.countP isResponse = 1 ∧
      actions.countP closes = 1 ∧ actions.getLast? = some .close := by
  obtain ⟨first, response, rfl, rfl | rfl⟩ := handles_shape h
  · exact ⟨rfl, rfl, rfl⟩
  · exact ⟨rfl, rfl, rfl⟩

theorem handles_closesLast {workers : ℕ} {party : ServerThread workers}
    {actions : List SocketAction} (h : Handles server party actions) :
    ClosesLast closes actions := by
  obtain ⟨first, response, rfl, hfirst⟩ := handles_shape h
  refine ⟨first ++ [.respond response], .close, by simp, rfl, ?_⟩
  rcases hfirst with rfl | rfl
  · simp [closes]
  · simp [closes]

end Handling

def contract (server : Server) (workers : ℕ) : Contract (ServerThread workers) SocketAction where
  closes := closes
  allowed := Handles server
  closes_last := handles_closesLast

section Acts

variable {server : Server} {workers : ℕ} {world world' : ServerWorld workers}

theorem workerAct_cases {i : Fin workers} {a : WorkerAct} {w w' : Worker Job}
    (h : workerAct server i a w world = some (world', w')) :
    (∃ task actions, Handles server (.inl i : ServerThread workers) actions ∧
      w = .handling (.taken (some task)) ∧
      world' = world.record task.clientFd (.taken (.inl i)) ∧
      w' = .handling (.acting task.clientFd actions)) ∨
    (∃ clientFd b rest, w = .handling (.acting clientFd (b :: rest)) ∧
      world' = world.record clientFd (.did (.inl i) b) ∧
      w' = .handling (.acting clientFd rest)) ∨
    (∃ clientFd, w = .handling (.acting clientFd []) ∧ world' = world ∧ w' = .fetching) ∨
    (w = .leaving ∧ world' = { world with exited := Function.update world.exited i true } ∧
      w' = .exited) := by
  unfold workerAct at h
  split at h
  · rename_i read execute task
    split at h
    · cases h
    · rename_i actions hactions
      cases h
      exact Or.inl ⟨task, actions, ⟨read, execute, hactions⟩, rfl, rfl, rfl⟩
  · cases h
    exact Or.inr (Or.inl ⟨_, _, _, rfl, rfl, rfl⟩)
  · cases h
    exact Or.inr (Or.inr (Or.inl ⟨_, rfl, rfl, rfl⟩))
  · cases h
    exact Or.inr (Or.inr (Or.inr ⟨rfl, rfl, rfl⟩))
  · cases h

theorem mainAct_cases {a : MainAct} {m m' : Main} (h : mainAct a m world = some (world', m')) :
    (∃ clientFd, isOpen closes world.log clientFd = false ∧ m = .accepting ∧
      world' = world.record clientFd .opened ∧ m' = .submitting clientFd) ∨
    (∃ clientFd submitResult, m = .refused clientFd submitResult ∧
      world' = world.record clientFd (.taken (.inr ())) ∧
      m' = .rejecting clientFd (rejection submitResult) submitResult) ∨
    (∃ clientFd b rest submitResult, m = .rejecting clientFd (b :: rest) submitResult ∧
      world' = world.record clientFd (.did (.inr ()) b) ∧
      m' = .rejecting clientFd rest submitResult) ∨
    ((m = .accepting ∨ ∃ clientFd submitResult, m = .rejecting clientFd [] submitResult) ∧
      world' = world ∧ (m' = .accepting ∨ m' = .returned)) ∨
    (m = .returned ∧ world' = world ∧ m' = .destroying .shuttingDown) ∨
    (∃ d d', m = .destroying d ∧ world' = world ∧ destroyJoin world.exited d = some d' ∧
      m' = .destroying d') := by
  unfold mainAct at h
  split at h
  · split at h
    · rename_i hfree
      cases h
      exact Or.inl ⟨_, hfree.2, rfl, rfl, rfl⟩
    · cases h
  · rename_i interrupted
    cases h
    refine Or.inr (Or.inr (Or.inr (Or.inl ⟨Or.inl rfl, rfl, ?_⟩)))
    cases interrupted with
    | false => exact Or.inr rfl
    | true => exact Or.inl rfl
  · cases h
    exact Or.inr (Or.inl ⟨_, _, rfl, rfl, rfl⟩)
  · cases h
    exact Or.inr (Or.inr (Or.inl ⟨_, _, _, _, rfl, rfl, rfl⟩))
  · rename_i submitResult
    cases h
    refine Or.inr (Or.inr (Or.inr (Or.inl ⟨Or.inr ⟨_, _, rfl⟩, rfl, ?_⟩)))
    split
    · exact Or.inl rfl
    · exact Or.inr rfl
  · cases h
    exact Or.inr (Or.inr (Or.inr (Or.inr (Or.inl ⟨rfl, rfl, rfl⟩))))
  · rename_i d
    obtain ⟨d', hjoin, hr⟩ := Option.map_eq_some_iff.mp h
    cases hr
    exact Or.inr (Or.inr (Or.inr (Or.inr (Or.inr ⟨d, d', rfl, rfl, hjoin, rfl⟩))))
  · cases h

theorem serverAct_cases {t : ServerThread workers} {a : WorkerAct ⊕ MainAct} {l l' : ServerLocal}
    (h : serverAct server t a l world = some (world', l')) :
    (∃ i b w w', t = .inl i ∧ l = .worker w ∧ l' = .worker w' ∧
      workerAct server i b w world = some (world', w')) ∨
    (∃ b m m', t = .inr () ∧ l = .main m ∧ l' = .main m' ∧
      mainAct b m world = some (world', m')) := by
  unfold serverAct at h
  split at h
  · rename_i i b w
    obtain ⟨⟨world₁, w'⟩, hworker, hr⟩ := Option.map_eq_some_iff.mp h
    cases hr
    exact Or.inl ⟨i, b, w, w', rfl, rfl, rfl, hworker⟩
  · rename_i u b m
    obtain ⟨⟨world₁, m'⟩, hmain, hr⟩ := Option.map_eq_some_iff.mp h
    cases hr
    exact Or.inr ⟨b, m, m', rfl, rfl, rfl, hmain⟩
  · cases h

end Acts

section Holdings

variable {workers capacity : ℕ}

def workerHeld (i : Fin workers) :
    Worker Job → Multiset (Int × Phase (ServerThread workers) SocketAction)
  | .handling (.taken (some task)) => {(task.clientFd, .pending)}
  | .handling (.acting clientFd rest) => pledge clientFd (.inl i) rest
  | _ => 0

def mainHeld : Main → Multiset (Int × Phase (ServerThread workers) SocketAction)
  | .submitting clientFd => {(clientFd, .pending)}
  | .refused clientFd _ => {(clientFd, .pending)}
  | .rejecting clientFd rest _ => pledge clientFd (.inr ()) rest
  | _ => 0

def threadHeld : ServerThread workers → ServerLocal →
    Multiset (Int × Phase (ServerThread workers) SocketAction)
  | .inl i, .worker w => workerHeld i w
  | .inr _, .main m => mainHeld m
  | _, _ => 0

def queuedTasks (queue : TaskQueue capacity) :
    Multiset (Int × Phase (ServerThread workers) SocketAction) :=
  (contents queue : Multiset Task).map (fun task => (task.clientFd, .pending))

def holdings (locals : ServerThread workers → ServerLocal) (queue : TaskQueue capacity) :
    Multiset (Int × Phase (ServerThread workers) SocketAction) :=
  ∑ t, threadHeld t (locals t) + queuedTasks queue

def heldByOthers (t : ServerThread workers) (locals : ServerThread workers → ServerLocal) :
    Multiset (Int × Phase (ServerThread workers) SocketAction) :=
  ∑ u ∈ Finset.univ.erase t, threadHeld u (locals u)

theorem holdings_split (t : ServerThread workers) (locals : ServerThread workers → ServerLocal)
    (queue : TaskQueue capacity) :
    holdings locals queue =
      threadHeld t (locals t) + (heldByOthers t locals + queuedTasks queue) := by
  rw [holdings, heldByOthers, ← Finset.add_sum_erase _ _ (Finset.mem_univ t), add_assoc]

theorem holdings_update (t : ServerThread workers) (locals : ServerThread workers → ServerLocal)
    (l : ServerLocal) (queue : TaskQueue capacity) :
    holdings (Function.update locals t l) queue =
      threadHeld t l + (heldByOthers t locals + queuedTasks queue) := by
  rw [holdings_split t, Function.update_self]
  have hothers : heldByOthers t (Function.update locals t l) = heldByOthers t locals := by
    apply Finset.sum_congr rfl
    intro u hu
    rw [Function.update_of_ne (Finset.ne_of_mem_erase hu)]
  rw [hothers]

theorem worker_call {i : Fin workers} {l : ServerLocal} {call : QueueCall}
    (h : serverCall (.inl i : ServerThread workers) l = some call) :
    l = .worker .fetching ∧ call = .pop := by
  cases l with
  | main m => cases h
  | worker w =>
    cases w with
    | fetching => exact ⟨rfl, (Option.some.inj h).symm⟩
    | _ => cases h

theorem main_call {u : Unit} {l : ServerLocal} {call : QueueCall}
    (h : serverCall (.inr u : ServerThread workers) l = some call) :
    (∃ clientFd, l = .main (.submitting clientFd) ∧ call = .tryPush ⟨clientFd⟩) ∨
      (l = .main (.destroying .shuttingDown) ∧ call = .shutdown) := by
  cases l with
  | worker w => cases h
  | main m =>
    cases m with
    | submitting clientFd => exact Or.inl ⟨clientFd, rfl, (Option.some.inj h).symm⟩
    | destroying d =>
      cases d with
      | shuttingDown => exact Or.inr ⟨rfl, (Option.some.inj h).symm⟩
      | _ => cases h
    | _ => cases h

section Effects

variable {queue queue' : TaskQueue capacity} {reply : Reply} {wake : QueueCond → Wake}

/-- A worker that comes back from `task_queue_pop` has a task, or has found the queue drained. -/
theorem popped_cases (heffect : Effect queue .pop (.leave queue' reply wake)) (i : Fin workers) :
    (∃ task, serverReturned (.inl i : ServerThread workers) (.worker .fetching) reply =
        .worker (.handling (.taken (some task))) ∧ contents queue = task :: contents queue') ∨
      (serverReturned (.inl i : ServerThread workers) (.worker .fetching) reply =
        .worker .leaving ∧ queue' = queue ∧ queue.shutdown = true ∧ queue.count = 0) := by
  rcases popped_effect heffect with ⟨task, rfl, -, hcontents⟩ | ⟨rfl, hsame, hdrained⟩
  · exact Or.inl ⟨task, rfl, hcontents⟩
  · exact Or.inr ⟨rfl, hsame, hdrained⟩

theorem submitted_cases (workers : ℕ) {clientFd : Int}
    (heffect : Effect queue (.tryPush ⟨clientFd⟩) (.leave queue' reply wake)) :
    (serverReturned (.inr () : ServerThread workers) (.main (.submitting clientFd)) reply =
        .main .accepting ∧ contents queue' = contents queue ++ [⟨clientFd⟩]) ∨
      (∃ result, serverReturned (.inr () : ServerThread workers) (.main (.submitting clientFd))
        reply = .main (.refused clientFd result) ∧ queue' = queue) := by
  cases heffect with
  | accept hcall _ _ _ _ _ hcontents =>
    rcases hcall with hcall | hcall
    · cases hcall
      exact Or.inl ⟨rfl, hcontents⟩
    · cases hcall
  | full => exact Or.inr ⟨1, rfl, rfl⟩
  | refuse => exact Or.inr ⟨-1, rfl, rfl⟩

theorem held_through_queue {t : ServerThread workers} {l : ServerLocal} {call : QueueCall}
    (hcall : serverCall t l = some call) (heffect : Effect queue call (.leave queue' reply wake)) :
    threadHeld t (serverReturned t l reply) + queuedTasks queue' =
      threadHeld t l + queuedTasks queue := by
  rcases t with i | u
  · obtain ⟨rfl, rfl⟩ := worker_call hcall
    rcases popped_cases heffect i with ⟨task, hback, hcontents⟩ | ⟨hback, rfl, -⟩
    · rw [hback, queuedTasks, queuedTasks, hcontents, ← Multiset.cons_coe, Multiset.map_cons,
        ← Multiset.singleton_add]
      simp [threadHeld, workerHeld]
    · rw [hback]
      rfl
  · rcases main_call hcall with ⟨clientFd, rfl, rfl⟩ | ⟨rfl, rfl⟩
    · rcases submitted_cases workers heffect with ⟨hback, hcontents⟩ | ⟨result, hback, rfl⟩
      · rw [hback, queuedTasks, queuedTasks, hcontents, ← Multiset.coe_add, Multiset.map_add,
          add_comm (Multiset.map _ _) (Multiset.map _ _), ← add_assoc]
        simp [threadHeld, mainHeld]
      · rw [hback]
        rfl
    · rw [shutdown_effect heffect]
      rfl

end Effects

theorem custody_act {server : Server} {t : ServerThread workers} {a : WorkerAct ⊕ MainAct}
    {l l' : ServerLocal} {world world' : ServerWorld workers}
    {others : Multiset (Int × Phase (ServerThread workers) SocketAction)}
    (hact : serverAct server t a l world = some (world', l'))
    (h : Kept (contract server workers) world.log (threadHeld t l + others)) :
    Kept (contract server workers) world'.log (threadHeld t l' + others) := by
  rcases serverAct_cases hact with ⟨i, b, w, w', rfl, rfl, rfl, hworker⟩ |
    ⟨b, m, m', rfl, rfl, rfl, hmain⟩
  · rcases workerAct_cases hworker with ⟨task, actions, hhandles, rfl, rfl, rfl⟩ |
      ⟨clientFd, b, rest, rfl, rfl, rfl⟩ | ⟨clientFd, rfl, rfl, rfl⟩ | ⟨rfl, rfl, rfl⟩
    · exact kept_take h hhandles
    · exact kept_act h
    · exact h
    · exact h
  · rcases mainAct_cases hmain with ⟨clientFd, hclosed, rfl, rfl, rfl⟩ |
      ⟨clientFd, submitResult, rfl, rfl, rfl⟩ | ⟨clientFd, b, rest, submitResult, rfl, rfl, rfl⟩ |
      ⟨hm, rfl, hm'⟩ | ⟨rfl, rfl, rfl⟩ | ⟨d, d', rfl, rfl, -, rfl⟩
    · have h₀ : Kept (contract server workers) world.log others := by
        change Kept (contract server workers) world.log (0 + others) at h
        rwa [zero_add] at h
      exact kept_open h₀ hclosed
    · exact kept_take h ⟨submitResult, rfl⟩
    · exact kept_act h
    · -- nothing is held on either side
      have hbefore : threadHeld (.inr () : ServerThread workers) (.main m) = 0 := by
        rcases hm with rfl | ⟨clientFd, submitResult, rfl⟩ <;> rfl
      have hafter : threadHeld (.inr () : ServerThread workers) (.main m') = 0 := by
        rcases hm' with rfl | rfl <;> rfl
      rwa [hafter, ← hbefore]
    · exact h
    · exact h

end Holdings

section Runs

variable {server : Server}

def InCustody (s : ServerState server) : Prop :=
  Kept (contract server server.config.threadCount) s.shared.world.log
    (holdings s.locals s.shared.queue)

theorem custody_step {s s' : ServerState server}
    {e : Event (ServerThread server.config.threadCount) (WorkerAct ⊕ MainAct)}
    (hstep : step (program (serverAgents server)) s e = some s') (hshape : Shape s.shared.queue)
    (h : InCustody s) : InCustody s' := by
  rcases step_moves hstep with ⟨hshared, hlocals⟩ | ⟨t, l', hlocals, ⟨a, hact⟩ | ⟨wake, hlocked⟩⟩
  · rwa [InCustody, hshared, hlocals]
  · obtain ⟨world, hserver, hshared⟩ := act_cases hact
    rw [InCustody, holdings_split t] at h
    rw [InCustody, hlocals, holdings_update, hshared]
    exact custody_act hserver h
  · obtain ⟨call, reply, hcall, rfl, hworld, heffect⟩ := locked_leave hshape hlocked
    have hheld : holdings s'.locals s'.shared.queue = holdings s.locals s.shared.queue := by
      have hthrough : threadHeld t ((serverAgents server).returned t (s.locals t) reply) +
          queuedTasks s'.shared.queue = threadHeld t (s.locals t) + queuedTasks s.shared.queue :=
        held_through_queue hcall heffect
      rw [hlocals, holdings_update, holdings_split t s.locals, add_left_comm, hthrough,
        add_left_comm]
    rwa [InCustody, hheld, hworld]

end Runs

section Winding

variable {workers capacity : ℕ} {locals : ServerThread workers → ServerLocal}
  {queue queue' : TaskQueue capacity} {exited : Fin workers → Bool}

/-- A worker leaves a pool that is shut down and empty, and the main thread joins workers that are
gone. -/
structure Winding (locals : ServerThread workers → ServerLocal) (queue : TaskQueue capacity)
    (exited : Fin workers → Bool) : Prop where
  left : ∀ i, locals (.inl i) = .worker .leaving ∨ locals (.inl i) = .worker .exited →
    queue.shutdown = true ∧ queue.count = 0
  gone : ∀ i, exited i = true → locals (.inl i) = .worker .exited
  joined : ∀ n, locals (.inr ()) = .main (.destroying (.joining n)) →
    ∀ i, i.val < n → exited i = true
  destroyed : locals (.inr ()) = .main (.destroying .destroyed) → ∀ i, exited i = true

theorem winding_worker (h : Winding locals queue exited) {i : Fin workers} {l : ServerLocal}
    (hlocal : locals (.inl i) ≠ .worker .exited)
    (hkeep : queue.shutdown = true ∧ queue.count = 0 → queue'.shutdown = true ∧ queue'.count = 0)
    (hleft : l = .worker .leaving ∨ l = .worker .exited →
      queue'.shutdown = true ∧ queue'.count = 0) :
    Winding (Function.update locals (.inl i) l) queue' exited := by
  refine ⟨?_, ?_, ?_, ?_⟩
  · intro j hj
    by_cases hji : j = i
    · subst hji
      rw [Function.update_self] at hj
      exact hleft hj
    · rw [Function.update_of_ne (by simpa using hji)] at hj
      exact hkeep (h.left j hj)
  · intro j hj
    have hji : j ≠ i := by
      rintro rfl
      exact hlocal (h.gone j hj)
    rw [Function.update_of_ne (by simpa using hji)]
    exact h.gone j hj
  · rw [Function.update_of_ne (by simp)]
    exact h.joined
  · rw [Function.update_of_ne (by simp)]
    exact h.destroyed

theorem winding_main (h : Winding locals queue exited) {l : ServerLocal}
    (hkeep : queue.shutdown = true ∧ queue.count = 0 → queue'.shutdown = true ∧ queue'.count = 0)
    (hjoined : ∀ n, l = .main (.destroying (.joining n)) → ∀ i, i.val < n → exited i = true)
    (hdestroyed : l = .main (.destroying .destroyed) → ∀ i, exited i = true) :
    Winding (Function.update locals (.inr ()) l) queue' exited := by
  refine ⟨?_, ?_, ?_, ?_⟩
  · intro j hj
    rw [Function.update_of_ne (by simp)] at hj
    exact hkeep (h.left j hj)
  · intro j hj
    rw [Function.update_of_ne (by simp)]
    exact h.gone j hj
  · rw [Function.update_self]
    exact hjoined
  · rw [Function.update_self]
    exact hdestroyed

theorem winding_exited (h : Winding locals queue exited) {i : Fin workers}
    (hlocal : locals (.inl i) = .worker .exited) :
    Winding locals queue (Function.update exited i true) := by
  have hmore (j : Fin workers) (hj : exited j = true) :
      Function.update exited i true j = true := by
    by_cases hji : j = i
    · rw [hji, Function.update_self]
    · rwa [Function.update_of_ne hji]
  refine ⟨h.left, ?_, ?_, ?_⟩
  · intro j hj
    by_cases hji : j = i
    · rwa [hji]
    · rw [Function.update_of_ne hji] at hj
      exact h.gone j hj
  · exact fun n hn j hj => hmore j (h.joined n hn j hj)
  · exact fun hd j => hmore j (h.destroyed hd j)

theorem winding_leave (h : Winding locals queue exited) {t : ServerThread workers}
    {call : QueueCall} {reply : Reply} {wake : QueueCond → Wake}
    (hcall : serverCall t (locals t) = some call)
    (heffect : Effect queue call (.leave queue' reply wake)) :
    Winding (Function.update locals t (serverReturned t (locals t) reply)) queue' exited := by
  have hkeep : queue.shutdown = true ∧ queue.count = 0 →
      queue'.shutdown = true ∧ queue'.count = 0 := fun hdrained =>
    ⟨effect_keeps_shutdown heffect hdrained.1,
      effect_keeps_drained heffect hdrained.1 hdrained.2⟩
  rcases t with i | u
  · obtain ⟨hlocal, rfl⟩ := worker_call hcall
    refine winding_worker h (by simp [hlocal]) hkeep ?_
    rw [hlocal]
    rcases popped_cases heffect i with ⟨task, hback, -⟩ | ⟨-, rfl, hshut, hempty⟩
    · simp [hback]
    · exact fun _ => ⟨hshut, hempty⟩
  · rcases main_call hcall with ⟨clientFd, hlocal, rfl⟩ | ⟨hlocal, rfl⟩
    · rw [hlocal]
      rcases submitted_cases workers heffect with ⟨hback, -⟩ | ⟨result, hback, -⟩
      · exact winding_main h hkeep (by simp [hback]) (by simp [hback])
      · exact winding_main h hkeep (by simp [hback]) (by simp [hback])
    · rw [hlocal]
      -- the first worker to be joined is worker 0
      refine winding_main h hkeep (fun n hn i hi => ?_) (by simp [serverReturned])
      cases hn
      omega

/-- A join that returns has found its worker gone, and the last one has found them all so. -/
theorem destroyJoin_exited {d d' : Destroying} (h : destroyJoin exited d = some d')
    (hjoined : ∀ n, d = .joining n → ∀ i : Fin workers, i.val < n → exited i = true) :
    (∀ n, d' = .joining n → ∀ i : Fin workers, i.val < n → exited i = true) ∧
      (d' = .destroyed → ∀ i, exited i = true) := by
  cases d with
  | joining n =>
    simp only [destroyJoin] at h
    split at h
    · rename_i hn
      split at h
      · rename_i hexited
        cases h
        refine ⟨fun m hm i hi => ?_, by simp⟩
        cases hm
        rcases Nat.lt_succ_iff_lt_or_eq.mp hi with hlt | heq
        · exact hjoined n rfl i hlt
        · have hi : i = ⟨n, hn⟩ := Fin.ext heq
          rwa [hi]
      · cases h
    · rename_i hn
      cases h
      refine ⟨by simp, fun _ i => hjoined n rfl i ?_⟩
      exact Nat.lt_of_lt_of_le i.isLt (Nat.not_lt.mp hn)
  | _ => cases h

theorem winding_act {server : Server} {t : ServerThread workers} {a : WorkerAct ⊕ MainAct}
    {l l' : ServerLocal} {world world' : ServerWorld workers}
    (h : Winding locals queue world.exited) (hlocal : locals t = l)
    (hact : serverAct server t a l world = some (world', l')) :
    Winding (Function.update locals t l') queue world'.exited := by
  rcases serverAct_cases hact with ⟨i, b, w, w', rfl, rfl, rfl, hworker⟩ |
    ⟨b, m, m', rfl, rfl, rfl, hmain⟩
  · rcases workerAct_cases hworker with ⟨task, actions, -, rfl, rfl, rfl⟩ |
      ⟨clientFd, b, rest, rfl, rfl, rfl⟩ | ⟨clientFd, rfl, rfl, rfl⟩ | ⟨rfl, rfl, rfl⟩
    · exact winding_worker h (by simp [hlocal]) id (by simp)
    · exact winding_worker h (by simp [hlocal]) id (by simp)
    · exact winding_worker h (by simp [hlocal]) id (by simp)
    · refine winding_exited (winding_worker h (by simp [hlocal]) id ?_) (Function.update_self ..)
      exact fun _ => h.left i (Or.inl hlocal)
  · rcases mainAct_cases hmain with ⟨clientFd, -, rfl, rfl, rfl⟩ |
      ⟨clientFd, submitResult, rfl, rfl, rfl⟩ | ⟨clientFd, b, rest, submitResult, rfl, rfl, rfl⟩ |
      ⟨-, rfl, rfl | rfl⟩ | ⟨rfl, rfl, rfl⟩ | ⟨d, d', rfl, rfl, hjoin, rfl⟩
    · exact winding_main h id (by simp) (by simp)
    · exact winding_main h id (by simp) (by simp)
    · exact winding_main h id (by simp) (by simp)
    · exact winding_main h id (by simp) (by simp)
    · exact winding_main h id (by simp) (by simp)
    · exact winding_main h id (by simp) (by simp)
    · obtain ⟨hnext, hlast⟩ := destroyJoin_exited hjoin (fun n hn => h.joined n (hn ▸ hlocal))
      refine winding_main h id (fun n hn => hnext n ?_) (fun hd => hlast ?_)
      · simpa using hn
      · simpa using hd

/-- When the main thread is through, everybody's hands are empty, and so is the queue. -/
theorem holdings_destroyed (h : Winding locals queue exited) (hshape : Shape queue)
    (hworkers : 0 < workers) (hmain : locals (.inr ()) = .main (.destroying .destroyed)) :
    holdings locals queue = 0 := by
  have hexited (i : Fin workers) : locals (.inl i) = .worker .exited :=
    h.gone i (h.destroyed hmain i)
  have hempty : contents queue = [] := by
    have hlength := contents_length hshape
    rw [(h.left ⟨0, hworkers⟩ (Or.inr (hexited _))).2] at hlength
    exact List.length_eq_zero_iff.mp hlength
  have hthreads : ∑ t, threadHeld t (locals t) = 0 := by
    apply Finset.sum_eq_zero
    intro t _
    rcases t with i | u
    · rw [hexited i]
      rfl
    · rw [hmain]
      rfl
  rw [holdings, hthreads, queuedTasks, hempty, zero_add]
  rfl

end Winding

section Server

variable {server : Server}

structure Sound (s : ServerState server) : Prop where
  refined : Refined s.shared
  custody : InCustody s
  winding : Winding s.locals s.shared.queue s.shared.world.exited

theorem sound_started {config : ServerConfig} (hinit : serverInit config = some server) :
    Sound (serverStarted server) := by
  have hqueue := (serverInit_pool hinit).2
  refine ⟨refined_init hqueue _, ?_, ⟨?_, ?_, ?_, ?_⟩⟩
  · have hempty : contents server.queue = [] := congrArg BoundedFifo.Fifo.items
      (init_shape hqueue).2.1
    have hthreads : ∑ t, threadHeld t
        (serverLocals (t : ServerThread server.config.threadCount)) = 0 := by
      apply Finset.sum_eq_zero
      intro t _
      cases t <;> rfl
    have hnothing : holdings (serverLocals : ServerThread server.config.threadCount → ServerLocal)
        server.queue = 0 := by
      rw [holdings, hthreads, queuedTasks, hempty, zero_add]
      rfl
    change Kept _ [] (holdings serverLocals server.queue)
    rw [hnothing]
    exact kept_nothing
  · rintro i (hi | hi)
    · cases hi
    · cases hi
  · intro i hi
    cases hi
  · intro n hn
    cases hn
  · intro hd
    cases hd

theorem sound_step {s s' : ServerState server}
    {e : Event (ServerThread server.config.threadCount) (WorkerAct ⊕ MainAct)}
    (hstep : step (program (serverAgents server)) s e = some s') (h : Sound s) : Sound s' := by
  refine ⟨refined_step hstep h.refined, custody_step hstep h.refined.shape h.custody, ?_⟩
  rcases step_moves hstep with ⟨hshared, hlocals⟩ | ⟨t, l', hlocals, ⟨a, hact⟩ | ⟨wake, hlocked⟩⟩
  · rw [hshared, hlocals]
    exact h.winding
  · obtain ⟨world, hserver, hshared⟩ := act_cases hact
    rw [hlocals, hshared]
    exact winding_act h.winding rfl hserver
  · obtain ⟨call, reply, hcall, rfl, hworld, heffect⟩ := locked_leave h.refined.shape hlocked
    rw [hlocals, hworld]
    exact winding_leave h.winding hcall heffect

theorem sound_run {config : ServerConfig} (hinit : serverInit config = some server)
    {events : List (Event (ServerThread server.config.threadCount) (WorkerAct ⊕ MainAct))}
    {s : ServerState server}
    (hrun : runEvents (program (serverAgents server)) (serverStarted server) events = some s) :
    Sound s :=
  runEvents_invariant (fun _ _ _ hstep h => sound_step hstep h) hrun (sound_started hinit)

/-- In every run of the server: the handler gets through on every path; a handler and a rejection
respond once and close once, at last. Every descriptor has, one after the other, sessions in each
of which it was accepted and then taken up by one worker's handler or by one rejection, which did
all that it does; the last session may still be waiting or under way, but not when
`server_destroy` has returned: then nothing is open. -/
theorem connections_handled_once {config : ServerConfig} (hinit : serverInit config = some server)
    {events : List (Event (ServerThread server.config.threadCount) (WorkerAct ⊕ MainAct))}
    {s : ServerState server}
    (hrun : runEvents (program (serverAgents server)) (serverStarted server) events = some s) :
    (∀ read execute, ∃ actions,
      serverHandleClientTask (some server) read execute = .ok actions) ∧
    (∀ (party : ServerThread server.config.threadCount) (actions : List SocketAction),
      Handles server party actions → actions.countP isResponse = 1 ∧
        actions.countP closes = 1 ∧ actions.getLast? = some .close) ∧
    ∀ clientFd, ∃ (sessions : List (ServerThread server.config.threadCount × List SocketAction))
      (current : List (Entry (ServerThread server.config.threadCount) SocketAction)),
      entries s.shared.world.log clientFd = chronicle sessions ++ current ∧
      (∀ x ∈ sessions, Handles server x.1 x.2) ∧
      (current = [] ∨ current = [.opened] ∨ ∃ party done rest, rest ≠ [] ∧
        Handles server party (done ++ rest) ∧ current = session party done) ∧
      (s.locals (.inr ()) = .main (.destroying .destroyed) →
        current = [] ∧ isOpen closes s.shared.world.log clientFd = false) := by
  have h := sound_run hinit hrun
  refine ⟨?_, fun party actions => handles_counts, fun clientFd => ?_⟩
  · intro read execute
    obtain ⟨response, hactions⟩ := handler_responds_once server read execute
    exact ⟨_, hactions⟩
  obtain ⟨sessions, current, hsessions, hcurrent, hlog⟩ := h.custody.standing clientFd
  refine ⟨sessions, current, hlog, hsessions, ?_, ?_⟩
  · cases hcurrent with
    | free => exact Or.inl rfl
    | pending => exact Or.inr (Or.inl rfl)
    | active _ hrest hallowed => exact Or.inr (Or.inr ⟨_, _, _, hrest, hallowed, rfl⟩)
  · intro hdestroyed
    have hnothing := holdings_destroyed h.winding h.refined.shape (serverInit_pool hinit).1
      hdestroyed
    rw [hnothing] at hcurrent
    cases hcurrent with
    | free =>
      refine ⟨rfl, ?_⟩
      rw [isOpen, hlog, List.append_nil]
      exact openAfter_sessions (fun x hx => handles_closesLast (hsessions x hx))
    | pending hmem => exact absurd hmem (Multiset.notMem_zero _)
    | active hmem => exact absurd hmem (Multiset.notMem_zero _)

end Server

def smallServer : Server := ⟨⟨some (.lit "db"), 8080, 1, 1⟩, oneSlot⟩

/-- The worker has taken the first client and the second one is in the queue when the third one
comes: it is turned away. Then `accept` fails, and the server is destroyed. -/
def threeClients : List (Event (ServerThread 1) (WorkerAct ⊕ MainAct)) :=
  let worker : ServerThread 1 := .inl (Fin.last 0)
  let main : ServerThread 1 := .inr ()
  let handle : WorkerAct := .handle (.badRequest .empty) (fun _ => ⟨none, 500⟩)
  [.act main (.inr (.accept 5)), .enter main ∅, .enter worker ∅,
    .act main (.inr (.accept 6)), .enter main ∅, .act main (.inr (.accept 7)), .enter main ∅,
    .act main (.inr .reject), .act worker (.inl handle), .act main (.inr .perform),
    .act main (.inr .perform), .act worker (.inl .perform), .act main (.inr .perform),
    .act worker (.inl .perform), .act worker (.inl .finish), .act main (.inr .finish),
    .act main (.inr (.acceptFailed false)), .act main (.inr .destroy), .enter main ∅,
    .enter worker ∅, .act worker (.inl handle), .act worker (.inl .perform),
    .act worker (.inl .perform), .act worker (.inl .finish), .enter worker ∅,
    .act worker (.inl .exit), .act main (.inr .join), .act main (.inr .join)]

theorem three_clients_closed : ∃ s : ServerState smallServer,
    runEvents (program (serverAgents smallServer)) (serverStarted smallServer) threeClients =
      some s ∧ s.shared.world.log.length = 13 ∧
      ∀ clientFd, isOpen closes s.shared.world.log clientFd = false := by
  have heval : (runEvents (program (serverAgents smallServer)) (serverStarted smallServer)
      threeClients).map (fun s => (s.locals (.inr ()), s.shared.world.log.length)) =
        some (.main (.destroying .destroyed), 13) := by
    decide +kernel
  obtain ⟨s, hs, hend⟩ := Option.map_eq_some_iff.mp heval
  obtain ⟨hdestroyed, hlength⟩ := Prod.mk.inj hend
  refine ⟨s, hs, hlength, fun clientFd => ?_⟩
  have hinit : serverInit smallServer.config = some smallServer := rfl
  obtain ⟨-, -, hclients⟩ := connections_handled_once hinit hs
  obtain ⟨sessions, current, -, -, -, hclosed⟩ := hclients clientFd
  exact (hclosed hdestroyed).2

end ServerRuns
