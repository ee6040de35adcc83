import ThreadedDb.CheckedArray
import ThreadedDb.Monitors

/-!
# The task queue

`task_queue.c`: a ring of tasks with a mutex and two conditions. Each call is its section under
the mutex, from the initialization of the queue to its destruction; a loop around
`pthread_cond_wait` starts the section over when the thread has been woken. Threads that use the
queue are given by what they do between their calls.
-/
namespace TaskQueueModel

open CheckedArray (Checked read write)
open Monitors

structure Task where
  clientFd : Int
  deriving DecidableEq, Repr

structure TaskQueue (capacity : ℕ) where
  items : Vector Task capacity
  head : ℕ
  tail : ℕ
  count : ℕ
  shutdown : Bool

def taskQueueInit (capacity : ℕ) : Option (TaskQueue capacity) :=
  if capacity = 0 then none
  else some ⟨Vector.replicate capacity ⟨0⟩, 0, 0, 0, false⟩

inductive QueueCond where
  | notEmpty
  | notFull
  deriving DecidableEq, Repr

instance fintypeQueueCond : Fintype QueueCond :=
  ⟨{.notEmpty, .notFull}, fun c => by cases c <;> decide⟩

inductive QueueCall where
  | tryPush (task : Task)
  | push (task : Task)
  | pop
  | shutdown
  deriving DecidableEq, Repr

/-- What a call returns, and `*out_task`; `task_queue_shutdown` returns nothing. -/
structure Reply where
  result : Int
  outTask : Option Task
  deriving DecidableEq, Repr

section Sections

variable {capacity : ℕ}

abbrev Section (capacity : ℕ) := Checked (Outcome QueueCond (TaskQueue capacity) Reply)

def quiet (_ : QueueCond) : Wake := .quiet

def signal (cond c : QueueCond) : Wake := if c = cond then .signal else .quiet

def broadcast (_ : QueueCond) : Wake := .broadcast

def enqueue (queue : TaskQueue capacity) (task : Task) : Checked (TaskQueue capacity) := do
  let items ← write queue.items queue.tail task
  .ok { queue with
    items := items
    tail := (queue.tail + 1) % capacity
    count := queue.count + 1 }

def taskQueueTryPush (task : Task) (queue : TaskQueue capacity) : Section capacity :=
  if queue.shutdown then .ok (.leave queue ⟨-1, none⟩ quiet)
  else if queue.count = capacity then .ok (.leave queue ⟨1, none⟩ quiet)
  else do
    let queue ← enqueue queue task
    .ok (.leave queue ⟨0, none⟩ (signal .notEmpty))

def taskQueuePush (task : Task) (queue : TaskQueue capacity) : Section capacity :=
  if !queue.shutdown && queue.count = capacity then .ok (.wait .notFull)
  else if queue.shutdown then .ok (.leave queue ⟨-1, none⟩ quiet)
  else do
    let queue ← enqueue queue task
    .ok (.leave queue ⟨0, none⟩ (signal .notEmpty))

def taskQueuePop (queue : TaskQueue capacity) : Section capacity :=
  if queue.count = 0 && !queue.shutdown then .ok (.wait .notEmpty)
  else if queue.shutdown && queue.count = 0 then .ok (.leave queue ⟨-1, none⟩ quiet)
  else do
    let task ← read queue.items queue.head
    .ok (.leave
      { queue with head := (queue.head + 1) % capacity, count := queue.count - 1 }
      ⟨0, some task⟩ (signal .notFull))

def taskQueueShutdown (queue : TaskQueue capacity) : Section capacity :=
  .ok (.leave { queue with shutdown := true } ⟨0, none⟩ broadcast)

def callSection : QueueCall → TaskQueue capacity → Section capacity
  | .tryPush task => taskQueueTryPush task
  | .push task => taskQueuePush task
  | .pop => taskQueuePop
  | .shutdown => taskQueueShutdown

end Sections

/-- The call that a thread is in, where it goes on when the call returns, and what it does outside
the queue, with the world that the threads share apart from the queue. -/
structure Agents (Thread Act World Local : Type) where
  call : Thread → Local → Option QueueCall
  returned : Thread → Local → Reply → Local
  act : Thread → Act → Local → World → Option (World × Local)

/-- A call that returned, with the queue before and after its last section. -/
structure Completed (capacity : ℕ) where
  call : QueueCall
  reply : Reply
  before : TaskQueue capacity
  after : TaskQueue capacity

/-- `completed` lists the calls in the order of their last sections. -/
structure Shared (capacity : ℕ) (World : Type) where
  queue : TaskQueue capacity
  completed : List (Completed capacity)
  world : World

section Program

variable {Thread Act World Local : Type} {capacity : ℕ}

/-- What the section of a call does to the shared state. A section that faults goes no further;
none does. -/
def agentSection (agents : Agents Thread Act World Local) (t : Thread) (l : Local)
    (shared : Shared capacity World) (call : QueueCall) :
    Option (Outcome QueueCond (Shared capacity World) Local) :=
  match callSection call shared.queue with
  | .error _ => none
  | .ok (.wait c) => some (.wait c)
  | .ok (.leave queue reply wake) =>
    some (.leave ⟨queue, shared.completed ++ [⟨call, reply, shared.queue, queue⟩], shared.world⟩
      (agents.returned t l reply) wake)

def program (agents : Agents Thread Act World Local) :
    Program Thread QueueCond Act (Shared capacity World) Local where
  locked t l shared := (agents.call t l).bind (agentSection agents t l shared)
  act t a l shared :=
    (agents.act t a l shared.world).map (fun r => ({ shared with world := r.1 }, r.2))

theorem act_cases {agents : Agents Thread Act World Local} {t : Thread} {a : Act} {l l' : Local}
    {shared shared' : Shared capacity World}
    (h : (program agents).act t a l shared = some (shared', l')) :
    ∃ world, agents.act t a l shared.world = some (world, l') ∧
      shared' = { shared with world := world } := by
  obtain ⟨⟨world, l₁⟩, hact, hr⟩ := Option.map_eq_some_iff.mp h
  obtain ⟨rfl, rfl⟩ := Prod.mk.inj hr
  exact ⟨world, hact, rfl⟩

def started (queue : TaskQueue capacity) (world : World) (locals : Thread → Local) :
    State Thread QueueCond (Shared capacity World) Local :=
  initial ⟨queue, [], world⟩ locals

end Program

end TaskQueueModel
