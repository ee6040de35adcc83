import ThreadedDb.QueueRefinement

/-!
# The thread pool

`thread_pool.c`: workers that pop tasks and handle them, and the owner that shuts the queue down
and joins the workers. No wake-up is lost, whatever calls producers make and however the steps of
all threads interleave.
-/
namespace ThreadPool

open Monitors
open TaskQueueModel
open QueueRefinement

/-- The queue of `thread_pool_init`; the workers are started behind it. -/
def threadPoolInit (threadCount queueCapacity : ℕ) : Option (TaskQueue queueCapacity) :=
  if threadCount = 0 ∨ queueCapacity = 0 then none else taskQueueInit queueCapacity

/-- `thread_pool_worker_main`: in `task_queue_pop`, in the handler with what is left to do there,
out of the loop, and gone. -/
inductive Worker (Job : Type) where
  | fetching
  | handling (job : Job)
  | leaving
  | exited
  deriving DecidableEq

section Worker

variable {Job : Type}

def workerCall : Worker Job → Option QueueCall
  | .fetching => some .pop
  | _ => none

/-- `if (task_queue_pop(...) != 0) break; pool->handler(task, ...);` -/
def workerReturned (handle : Option Task → Job) (reply : Reply) : Worker Job :=
  if reply.result ≠ 0 then .leaving else .handling (handle reply.outTask)

end Worker

/-- `thread_pool_destroy`: in `task_queue_shutdown`, at the join of a worker, and through. -/
inductive Destroying where
  | shuttingDown
  | joining (i : ℕ)
  | destroyed
  deriving DecidableEq

def destroyCall : Destroying → Option QueueCall
  | .shuttingDown => some .shutdown
  | _ => none

def destroyJoin {workers : ℕ} (exited : Fin workers → Bool) : Destroying → Option Destroying
  | .joining i =>
    if h : i < workers then
      if exited ⟨i, h⟩ then some (.joining (i + 1)) else none
    else some .destroyed
  | _ => none

inductive PoolLocal where
  | worker (w : Worker (Option Task))
  | producing
  | submitting (task : Task) (blocking : Bool)
  | serving
  | stopping
  | destroying (d : Destroying)

inductive PoolAct where
  | handle
  | exit
  | submit (task : Task) (blocking : Bool)
  | shutdown
  | destroy
  | join

abbrev PoolThread (workers : ℕ) (Producer : Type) := Fin workers ⊕ Producer ⊕ Unit

section Pool

variable (workers : ℕ) (Producer : Type)

def poolCall : PoolThread workers Producer → PoolLocal → Option QueueCall
  | .inl _, .worker w => workerCall w
  | .inr (.inl _), .submitting task blocking =>
    some (if blocking then .push task else .tryPush task)
  | .inr (.inr _), .stopping => some .shutdown
  | .inr (.inr _), .destroying d => destroyCall d
  | _, _ => none

def poolReturned : PoolThread workers Producer → PoolLocal → Reply → PoolLocal
  | .inl _, _, reply => .worker (workerReturned id reply)
  | .inr (.inl _), _, _ => .producing
  | .inr (.inr _), .stopping, _ => .serving
  | .inr (.inr _), _, _ => .destroying (.joining 0)

/-- What the threads do outside the queue; the world says which workers are gone. -/
def poolAct : PoolThread workers Producer → PoolAct → PoolLocal → (Fin workers → Bool) →
    Option ((Fin workers → Bool) × PoolLocal)
  | .inl _, .handle, .worker (.handling _), exited => some (exited, .worker .fetching)
  | .inl i, .exit, .worker .leaving, exited =>
    some (Function.update exited i true, .worker .exited)
  | .inr (.inl _), .submit task blocking, .producing, exited =>
    some (exited, .submitting task blocking)
  | .inr (.inr _), .shutdown, .serving, exited => some (exited, .stopping)
  | .inr (.inr _), .destroy, .serving, exited => some (exited, .destroying .shuttingDown)
  | .inr (.inr _), .join, .destroying d, exited =>
    (destroyJoin exited d).map (fun d => (exited, .destroying d))
  | _, _, _, _ => none

def pool : Agents (PoolThread workers Producer) PoolAct (Fin workers → Bool) PoolLocal where
  call := poolCall workers Producer
  returned := poolReturned workers Producer
  act := poolAct workers Producer

def poolLocals : PoolThread workers Producer → PoolLocal
  | .inl _ => .worker .fetching
  | .inr (.inl _) => .producing
  | .inr (.inr _) => .serving

end Pool

section Accounts

variable {capacity : ℕ}

theorem wait_cases {call : QueueCall} {queue : TaskQueue capacity} {c : QueueCond}
    (h : callSection call queue = .ok (.wait c)) :
    (call = .pop ∧ c = .notEmpty ∧ queue.count = 0 ∧ queue.shutdown = false) ∨
    ∃ task, call = .push task ∧ c = .notFull ∧ queue.count = capacity ∧ queue.shutdown = false := by
  cases call with
  | tryPush task =>
    simp only [callSection, taskQueueTryPush] at h
    split at h
    · cases h
    split at h
    · cases h
    cases henqueue : enqueue queue task <;> rw [henqueue] at h <;> cases h
  | push task =>
    simp only [callSection, taskQueuePush] at h
    split at h
    · rename_i hfull
      cases h
      simp only [Bool.and_eq_true, Bool.not_eq_true', decide_eq_true_eq] at hfull
      exact Or.inr ⟨task, rfl, rfl, hfull.2, hfull.1⟩
    split at h
    · cases h
    cases henqueue : enqueue queue task <;> rw [henqueue] at h <;> cases h
  | pop =>
    simp only [callSection, taskQueuePop] at h
    split at h
    · rename_i hempty
      cases h
      simp only [Bool.and_eq_true, Bool.not_eq_true', decide_eq_true_eq] at hempty
      exact Or.inl ⟨rfl, rfl, hempty.1, hempty.2⟩
    split at h
    · cases h
    cases hread : CheckedArray.read queue.items queue.head <;> rw [hread] at h <;> cases h
  | shutdown => cases h

variable {Thread Act World Local : Type} {agents : Agents Thread Act World Local}

theorem locked_wait {t : Thread} {l : Local} {shared : Shared capacity World} {c : QueueCond}
    (h : (program agents).locked t l shared = some (.wait c)) :
    ∃ call, agents.call t l = some call ∧ callSection call shared.queue = .ok (.wait c) := by
  obtain ⟨call, hcall, hsection⟩ := Option.bind_eq_some_iff.mp h
  refine ⟨call, hcall, ?_⟩
  unfold agentSection at hsection
  split at hsection
  · cases hsection
  · rename_i c' hwait
    cases hsection
    exact hwait
  · cases hsection

theorem locked_leave {t : Thread} {l l' : Local} {shared shared' : Shared capacity World}
    {wake : QueueCond → Wake} (hshape : Shape shared.queue)
    (h : (program agents).locked t l shared = some (.leave shared' l' wake)) :
    ∃ call reply, agents.call t l = some call ∧ l' = agents.returned t l reply ∧
      shared'.world = shared.world ∧
      Effect shared.queue call (.leave shared'.queue reply wake) := by
  obtain ⟨call, hcall, ⟨c, hwait, -⟩ | ⟨queue, reply, wake', hleave, heffect⟩⟩ :=
    locked_cases hshape h
  · cases hwait
  · cases hleave
    exact ⟨call, reply, hcall, rfl, rfl, heffect⟩

/-- How many threads could go on: one for each task, or one for each free slot. -/
def room : QueueCond → TaskQueue capacity → ℕ
  | .notEmpty, queue => queue.count
  | .notFull, queue => capacity - queue.count

section Effects

variable {queue queue' : TaskQueue capacity} {call : QueueCall} {reply : Reply}
  {wake : QueueCond → Wake}

theorem effect_closes (h : Effect queue call (.leave queue' reply wake))
    (hclosed : queue'.shutdown = true) (hopen : ¬ queue.shutdown = true) : wake = broadcast := by
  cases h with
  | accept _ _ _ _ hopen' => simp [hopen'] at hclosed
  | full => exact absurd hclosed hopen
  | refuse => exact absurd hclosed hopen
  | deliver _ hsame => exact absurd (hsame ▸ hclosed) hopen
  | drained => exact absurd hclosed hopen
  | close => rfl

theorem effect_keeps_shutdown (h : Effect queue call (.leave queue' reply wake))
    (hshut : queue.shutdown = true) : queue'.shutdown = true := by
  cases h with
  | accept _ hopen => simp [hopen] at hshut
  | full => exact hshut
  | refuse => exact hshut
  | deliver _ hsame => exact hsame.trans hshut
  | drained => exact hshut
  | close => rfl

theorem effect_keeps_drained (h : Effect queue call (.leave queue' reply wake))
    (hshut : queue.shutdown = true) (hempty : queue.count = 0) : queue'.count = 0 := by
  cases h with
  | accept _ hopen => simp [hopen] at hshut
  | full => exact hempty
  | refuse => exact hempty
  | deliver _ _ hcount => omega
  | drained => exact hempty
  | close => exact hempty

theorem effect_signals (h : Effect queue call (.leave queue' reply wake)) (c : QueueCond) :
    room c queue' ≤ room c queue + (if wake c = .signal then 1 else 0) := by
  cases h with
  | accept _ _ _ _ _ hcount =>
    cases c with
    | notEmpty => simp [room, hcount, signal]
    | notFull =>
      simp only [room, hcount]
      omega
  | full => exact Nat.le_add_right _ _
  | refuse => exact Nat.le_add_right _ _
  | deliver _ _ hcount =>
    cases c with
    | notEmpty =>
      simp only [room, hcount]
      omega
    | notFull =>
      simp only [room, hcount, signal, if_true]
      omega
  | drained => exact Nat.le_add_right _ _
  | close => cases c <;> exact Nat.le_add_right _ _

/-- A call that may wait takes what it has waited for, unless the queue is shut down. -/
theorem effect_uses (h : Effect queue call (.leave queue' reply wake)) {c : QueueCond}
    {queue₀ : TaskQueue capacity} (hwait : callSection call queue₀ = .ok (.wait c))
    (hopen : ¬ queue'.shutdown = true) : room c queue' < room c queue := by
  rcases wait_cases hwait with ⟨rfl, rfl, -⟩ | ⟨task, rfl, rfl, -⟩
  · rcases popped_effect h with ⟨task, -, hcount, -⟩ | ⟨-, rfl, hshut, -⟩
    · simp [room, hcount]
    · exact absurd hshut hopen
  · cases h with
    | accept _ _ hroom _ _ hcount =>
      simp only [room, hcount]
      omega
    | refuse _ hshut => exact absurd hshut hopen

end Effects

/-- Whatever the threads do outside the queue, its sections owe no wake-up. -/
def queueAccounts (agents : Agents Thread Act World Local) :
    Accounts (program agents : Program Thread QueueCond Act (Shared capacity World) Local) where
  valid shared := Shape shared.queue
  need c shared := room c shared.queue
  closed shared := shared.queue.shutdown = true
  act_keeps := by
    intro t a l shared shared' l' hact hvalid
    obtain ⟨world, -, rfl⟩ := act_cases hact
    exact ⟨hvalid, id, fun c => by cases c <;> rfl⟩
  wait_short := by
    intro t l shared c hwait
    obtain ⟨call, -, hsection⟩ := locked_wait hwait
    rcases wait_cases hsection with ⟨-, rfl, hempty, hopen⟩ | ⟨task, -, rfl, hfull, hopen⟩
    · exact ⟨hempty, by simp [hopen]⟩
    · exact ⟨by simp [room, hfull], by simp [hopen]⟩
  wait_same := by
    intro t l shared c shared' c' hwait hwait'
    obtain ⟨call, hcall, hsection⟩ := locked_wait hwait
    obtain ⟨call', hcall', hsection'⟩ := locked_wait hwait'
    cases hcall.symm.trans hcall'
    rcases wait_cases hsection with ⟨rfl, rfl, -⟩ | ⟨task, rfl, rfl, -⟩ <;>
      rcases wait_cases hsection' with ⟨hpop, rfl, -⟩ | ⟨task', hpush, rfl, -⟩
    · rfl
    · cases hpush
    · cases hpop
    · rfl
  leave_valid := by
    intro t l shared shared' l' wake hlocked hvalid
    obtain ⟨call, reply, -, -, -, heffect⟩ := locked_leave hvalid hlocked
    exact (effect_refines hvalid heffect).1
  leave_closes := by
    intro t l shared shared' l' wake hlocked hvalid hclosed hopen c
    obtain ⟨call, reply, -, -, -, heffect⟩ := locked_leave hvalid hlocked
    rw [effect_closes heffect hclosed hopen]
    rfl
  leave_signals := by
    intro t l shared shared' l' wake hlocked hvalid _ c
    obtain ⟨call, reply, -, -, -, heffect⟩ := locked_leave hvalid hlocked
    exact effect_signals heffect c
  leave_uses := by
    intro t l shared shared' l' wake shared₀ c hwait hlocked hvalid hopen
    obtain ⟨call, hcall, hsection⟩ := locked_wait hwait
    obtain ⟨call', reply, hcall', -, -, heffect⟩ := locked_leave hvalid hlocked
    cases hcall.symm.trans hcall'
    exact effect_uses heffect hsection hopen

end Accounts

section Pool

variable {workers : ℕ} {Producer : Type} {capacity : ℕ} {t : PoolThread workers Producer}
  {l : PoolLocal}

theorem pop_by_worker (h : poolCall workers Producer t l = some .pop) : ∃ i, t = .inl i := by
  rcases t with i | p | u
  · exact ⟨i, rfl⟩
  · cases l with
    | submitting task blocking => cases blocking <;> cases h
    | _ => cases h
  · cases l with
    | destroying d => cases d <;> cases h
    | _ => cases h

theorem push_by_producer {task : Task} (h : poolCall workers Producer t l = some (.push task)) :
    ∃ p, t = .inr (.inl p) := by
  rcases t with i | p | u
  · cases l with
    | worker w => cases w <;> cases h
    | _ => cases h
  · exact ⟨p, rfl⟩
  · cases l with
    | destroying d => cases d <;> cases h
    | _ => cases h

theorem waits_notEmpty {shared : Shared capacity (Fin workers → Bool)}
    (h : (program (pool workers Producer)).locked t l shared = some (.wait .notEmpty)) :
    ∃ i, t = .inl i := by
  obtain ⟨call, hcall, hsection⟩ := locked_wait h
  rcases wait_cases hsection with ⟨rfl, -⟩ | ⟨task, -, hcond, -⟩
  · exact pop_by_worker hcall
  · cases hcond

theorem waits_notFull {shared : Shared capacity (Fin workers → Bool)}
    (h : (program (pool workers Producer)).locked t l shared = some (.wait .notFull)) :
    ∃ p, t = .inr (.inl p) := by
  obtain ⟨call, hcall, hsection⟩ := locked_wait h
  rcases wait_cases hsection with ⟨-, hcond, -⟩ | ⟨task, rfl, -⟩
  · cases hcond
  · exact push_by_producer hcall

def ShutBeforeJoin (l : PoolLocal) (shared : Shared capacity (Fin workers → Bool)) : Prop :=
  ∀ d, l = .destroying d → d = .shuttingDown ∨ shared.queue.shutdown = true

theorem join_shut {exited exited' : Fin workers → Bool} {l' : PoolLocal} {a : PoolAct}
    {u : Unit} {shared : Shared capacity (Fin workers → Bool)} (hs : ShutBeforeJoin l shared)
    (hact : poolAct workers Producer (.inr (.inr u)) a l exited = some (exited', l')) :
    ShutBeforeJoin l' { shared with world := exited' } := by
  intro d hd
  subst hd
  cases l with
  | serving =>
    cases a with
    | destroy =>
      cases hact
      exact Or.inl rfl
    | _ => cases hact
  | destroying d₀ =>
    cases a with
    | join =>
      obtain ⟨d₁, hjoin, -⟩ := Option.map_eq_some_iff.mp hact
      rcases hs d₀ rfl with rfl | hshut
      · cases hjoin
      · exact Or.inr hshut
    | _ => cases hact
  | _ => cases a <;> cases hact

theorem owner_shuts {u : Unit} {queue queue' : TaskQueue capacity} {call : QueueCall}
    {reply : Reply} {wake : QueueCond → Wake}
    (hcall : poolCall workers Producer (.inr (.inr u)) l = some call)
    (heffect : Effect queue call (.leave queue' reply wake)) : queue'.shutdown = true := by
  have hshutdown : call = .shutdown := by
    cases l with
    | stopping => exact (Option.some.inj hcall).symm
    | destroying d =>
      cases d with
      | shuttingDown => exact (Option.some.inj hcall).symm
      | _ => cases hcall
    | _ => cases hcall
  subst hshutdown
  rw [shutdown_effect heffect]

variable [DecidableEq Producer] [Fintype Producer]

theorem shutBeforeJoin_step
    {s s' : State (PoolThread workers Producer) QueueCond (Shared capacity (Fin workers → Bool))
      PoolLocal} {e : Event (PoolThread workers Producer) PoolAct}
    (h : step (program (pool workers Producer)) s e = some s') (hshape : Shape s.shared.queue)
    (hs : ShutBeforeJoin (s.locals (.inr (.inr ()))) s.shared) :
    ShutBeforeJoin (s'.locals (.inr (.inr ()))) s'.shared := by
  rcases step_moves h with ⟨hshared, hlocals⟩ | ⟨t, l', hlocals, ⟨a, hact⟩ | ⟨wake, hlocked⟩⟩
  · rwa [hshared, hlocals]
  · obtain ⟨exited, hpool, hshared⟩ := act_cases hact
    rw [hlocals, hshared]
    by_cases ht : t = .inr (.inr ())
    · subst ht
      rw [Function.update_self]
      exact join_shut hs hpool
    · rw [Function.update_of_ne (Ne.symm ht)]
      exact hs
  · obtain ⟨call, reply, hcall, hl', -, heffect⟩ := locked_leave hshape hlocked
    rw [hlocals]
    by_cases ht : t = .inr (.inr ())
    · subst ht
      exact fun d _ => Or.inr (owner_shuts hcall heffect)
    · rw [Function.update_of_ne (Ne.symm ht)]
      intro d hd
      exact (hs d hd).imp id (effect_keeps_shutdown heffect)

end Pool

section Runs

variable {workers : ℕ} {Producer : Type} {capacity : ℕ}

/-- The workers that were woken on `not_empty` and have not resumed. -/
def wokenWorkers (s : State (PoolThread workers Producer) QueueCond
    (Shared capacity (Fin workers → Bool)) PoolLocal) : Finset (Fin workers) :=
  Finset.univ.filter (fun i => (s.stage (.inl i)).wokenOn = some .notEmpty)

/-- The producers that were woken on `not_full` and have not resumed. -/
def wokenProducers [Fintype Producer] (s : State (PoolThread workers Producer) QueueCond
    (Shared capacity (Fin workers → Bool)) PoolLocal) : Finset Producer :=
  Finset.univ.filter (fun p => (s.stage (.inr (.inl p))).wokenOn = some .notFull)

section Balanced

variable [Fintype Producer] {s : State (PoolThread workers Producer) QueueCond
  (Shared capacity (Fin workers → Bool)) PoolLocal}
  (hs : Balanced (queueAccounts (pool workers Producer)) s)

include hs

theorem card_wokenWorkers : (s.wokenOn .notEmpty).card = (wokenWorkers s).card := by
  refine card_wokenOn Function.Embedding.inl ?_
  intro t l hstage
  obtain ⟨shared, hwait⟩ := hs.waits t .notEmpty l (Or.inr hstage)
  obtain ⟨i, rfl⟩ := waits_notEmpty hwait
  exact ⟨i, rfl⟩

theorem card_wokenProducers : (s.wokenOn .notFull).card = (wokenProducers s).card := by
  refine card_wokenOn (Function.Embedding.inl.trans Function.Embedding.inr) ?_
  intro t l hstage
  obtain ⟨shared, hwait⟩ := hs.waits t .notFull l (Or.inr hstage)
  obtain ⟨p, rfl⟩ := waits_notFull hwait
  exact ⟨p, rfl⟩

theorem none_asleep_when_shut (hshut : s.shared.queue.shutdown = true)
    (t : PoolThread workers Producer) : (s.stage t).sleepsOn = none := by
  cases hsleeps : (s.stage t).sleepsOn with
  | none => rfl
  | some c => exact absurd hshut (hs.covered t c hsleeps).1

theorem worker_sleeps {i : Fin workers} {c : QueueCond}
    (h : (s.stage (.inl i)).sleepsOn = some c) : c = .notEmpty := by
  obtain ⟨l, hstage⟩ := sleepsOn_iff.mp h
  obtain ⟨shared, hwait⟩ := hs.waits _ c l (Or.inl hstage)
  cases c with
  | notEmpty => rfl
  | notFull =>
    obtain ⟨p, hp⟩ := waits_notFull hwait
    cases hp

theorem some_worker_awake (hworkers : 0 < workers) (hcount : 0 < s.shared.queue.count) :
    ∃ i, (s.stage (.inl i)).sleepsOn = none := by
  by_contra hall
  push Not at hall
  have hasleep (i : Fin workers) : (s.stage (.inl i)).sleepsOn = some .notEmpty := by
    obtain ⟨c, hc⟩ := Option.ne_none_iff_exists'.mp (hall i)
    rwa [worker_sleeps hs hc] at hc
  have hwoken := (hs.covered _ _ (hasleep ⟨0, hworkers⟩)).2
  rw [card_wokenWorkers hs] at hwoken
  have hpos : 0 < (wokenWorkers s).card := Nat.lt_of_lt_of_le hcount hwoken
  -- a woken worker is not asleep
  obtain ⟨i, hi⟩ := Finset.card_pos.mp hpos
  obtain ⟨l, hstage⟩ := wokenOn_iff.mp (Finset.mem_filter.mp hi).2
  have hsleeps := hasleep i
  rw [hstage] at hsleeps
  cases hsleeps

end Balanced

variable [DecidableEq Producer] [Fintype Producer]

theorem shutBeforeJoin_run {queue₀ : TaskQueue capacity}
    (hinit : taskQueueInit capacity = some queue₀)
    {events : List (Event (PoolThread workers Producer) PoolAct)}
    {s : State (PoolThread workers Producer) QueueCond (Shared capacity (Fin workers → Bool))
      PoolLocal}
    (hrun : runEvents (program (pool workers Producer))
      (started queue₀ (fun _ => false) (poolLocals workers Producer)) events = some s) :
    ShutBeforeJoin (s.locals (.inr (.inr ()))) s.shared := by
  refine (runEvents_invariant (P := fun s => Refined s.shared ∧
    ShutBeforeJoin (s.locals (.inr (.inr ()))) s.shared) ?_ hrun ⟨refined_init hinit _, ?_⟩).2
  · intro s e s' hstep h
    exact ⟨refined_step hstep h.1, shutBeforeJoin_step hstep h.1.shape h.2⟩
  · intro d hd
    cases hd

/-- In every state that the pool can reach: no worker is left asleep with fewer workers on their
way than there are tasks, no producer with fewer on their way than there are free slots, and no
thread at all once the queue is shut down. So there are never tasks with all workers asleep, and
no worker sleeps while the owner joins. -/
theorem no_lost_wakeups {queue₀ : TaskQueue capacity}
    (hinit : taskQueueInit capacity = some queue₀)
    {events : List (Event (PoolThread workers Producer) PoolAct)}
    {s : State (PoolThread workers Producer) QueueCond (Shared capacity (Fin workers → Bool))
      PoolLocal}
    (hrun : runEvents (program (pool workers Producer))
      (started queue₀ (fun _ => false) (poolLocals workers Producer)) events = some s) :
    ¬ (0 < s.shared.queue.count ∧ (∃ i, (s.stage (.inl i)).sleepsOn = some .notEmpty) ∧
      (wokenWorkers s).card < s.shared.queue.count) ∧
    ¬ (s.shared.queue.count < capacity ∧
      (∃ p, (s.stage (.inr (.inl p))).sleepsOn = some .notFull) ∧
      (wokenProducers s).card < capacity - s.shared.queue.count) ∧
    (s.shared.queue.shutdown = true → ∀ t, (s.stage t).sleepsOn = none) ∧
    (0 < workers → 0 < s.shared.queue.count → ∃ i, (s.stage (.inl i)).sleepsOn = none) ∧
    ∀ i, s.locals (.inr (.inr ())) = .destroying (.joining i) →
      s.shared.queue.shutdown = true ∧ ∀ w, (s.stage (.inl w)).sleepsOn = none := by
  have hshape := (init_shape hinit).1
  have hs : Balanced (queueAccounts (pool workers Producer)) s := balanced_run hshape hrun
  refine ⟨?_, ?_, ?_, ?_, ?_⟩
  · rintro ⟨-, ⟨i, hsleeps⟩, hfew⟩
    rw [← card_wokenWorkers hs] at hfew
    exact absurd (hs.covered _ _ hsleeps).2 (Nat.not_le.mpr hfew)
  · rintro ⟨-, ⟨p, hsleeps⟩, hfew⟩
    rw [← card_wokenProducers hs] at hfew
    exact absurd (hs.covered _ _ hsleeps).2 (Nat.not_le.mpr hfew)
  · exact none_asleep_when_shut hs
  · exact some_worker_awake hs
  · intro i hi
    rcases shutBeforeJoin_run hinit hrun _ hi with hd | hshut
    · cases hd
    · exact ⟨hshut, fun w => none_asleep_when_shut hs hshut (.inl w)⟩

end Runs

/-- Two workers go to sleep, and a producer submits one task: one of them is woken. -/
def oneTaskForTwo : List (Event (PoolThread 2 Unit) PoolAct) :=
  [.enter (.inl (Fin.last 1)) ∅, .enter (.inl (Fin.last 0).castSucc) ∅,
    .act (.inr (.inl ())) (.submit ⟨5⟩ false), .enter (.inr (.inl ())) {.inl (Fin.last 1)}]

theorem one_of_two_woken : ∃ s : State (PoolThread 2 Unit) QueueCond (Shared 1 (Fin 2 → Bool))
    PoolLocal, runEvents (program (pool 2 Unit))
      (started oneSlot (fun _ => false) (poolLocals 2 Unit)) oneTaskForTwo = some s ∧
    s.shared.queue.count = 1 ∧
    (s.stage (.inl (Fin.last 0).castSucc)).sleepsOn = some .notEmpty ∧
    ¬ (wokenWorkers s).card < 1 := by
  have heval : (runEvents (program (pool 2 Unit))
      (started oneSlot (fun _ => false) (poolLocals 2 Unit)) oneTaskForTwo).map
      (fun s => (s.shared.queue.count, (s.stage (.inl (Fin.last 0).castSucc)).sleepsOn)) =
        some (1, some .notEmpty) := by
    decide +kernel
  obtain ⟨s, hs, hstate⟩ := Option.map_eq_some_iff.mp heval
  obtain ⟨hcount, hsleeps⟩ := Prod.mk.inj hstate
  refine ⟨s, hs, hcount, hsleeps, fun hfew => ?_⟩
  exact (no_lost_wakeups rfl hs).1 ⟨by omega, ⟨_, hsleeps⟩, by omega⟩

end ThreadPool
