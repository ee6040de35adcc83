import ThreadedDb.TaskQueueModel
import ThreadedDb.RingBuffer
import ThreadedDb.BoundedFifo

/-!
# The task queue is a bounded FIFO

What each section does to a well-shaped queue, and the calls of any run as the run of an abstract
bounded queue whose items are the ring from the head on.
-/
namespace QueueRefinement

open CheckedArray (ok_bind)
open Monitors
open TaskQueueModel
open RingBuffer
open BoundedFifo

variable {capacity : ℕ}

structure Shape (queue : TaskQueue capacity) : Prop where
  head_lt : queue.head < capacity
  tail_lt : queue.tail < capacity
  count_le : queue.count ≤ capacity
  tail_eq : queue.tail = (queue.head + queue.count) % capacity

def contents (queue : TaskQueue capacity) : List Task := ring queue.items queue.head queue.count

inductive Effect (queue : TaskQueue capacity) :
    QueueCall → Outcome QueueCond (TaskQueue capacity) Reply → Prop
  | accept {call : QueueCall} {task : Task} {queue' : TaskQueue capacity} :
      call = .tryPush task ∨ call = .push task → queue.shutdown = false →
      queue.count < capacity → Shape queue' → queue'.shutdown = false →
      queue'.count = queue.count + 1 → contents queue' = contents queue ++ [task] →
      Effect queue call (.leave queue' ⟨0, none⟩ (signal .notEmpty))
  | full {task : Task} : queue.shutdown = false → queue.count = capacity →
      Effect queue (.tryPush task) (.leave queue ⟨1, none⟩ quiet)
  | refuse {call : QueueCall} {task : Task} : call = .tryPush task ∨ call = .push task →
      queue.shutdown = true → Effect queue call (.leave queue ⟨-1, none⟩ quiet)
  | waitFull {task : Task} : queue.shutdown = false → queue.count = capacity →
      Effect queue (.push task) (.wait .notFull)
  | deliver {task : Task} {queue' : TaskQueue capacity} : Shape queue' →
      queue'.shutdown = queue.shutdown → queue.count = queue'.count + 1 →
      contents queue = task :: contents queue' →
      Effect queue .pop (.leave queue' ⟨0, some task⟩ (signal .notFull))
  | drained : queue.shutdown = true → queue.count = 0 →
      Effect queue .pop (.leave queue ⟨-1, none⟩ quiet)
  | waitEmpty : queue.shutdown = false → queue.count = 0 → Effect queue .pop (.wait .notEmpty)
  | close : Effect queue .shutdown (.leave { queue with shutdown := true } ⟨0, none⟩ broadcast)

section Sections

variable {queue : TaskQueue capacity}

theorem enqueue_shape (h : Shape queue) (hroom : queue.count < capacity) (task : Task) :
    ∃ queue', enqueue queue task = .ok queue' ∧ Shape queue' ∧
      queue'.shutdown = queue.shutdown ∧ queue'.count = queue.count + 1 ∧
      contents queue' = contents queue ++ [task] := by
  obtain ⟨items, hwrite, hring⟩ := ring_write queue.items h.head_lt hroom task
  rw [← h.tail_eq] at hwrite
  refine ⟨⟨items, queue.head, (queue.tail + 1) % capacity, queue.count + 1, queue.shutdown⟩,
    by rw [enqueue, hwrite, ok_bind], ⟨h.head_lt, Nat.mod_lt _ ?_, hroom, ?_⟩, rfl, rfl, hring⟩
  · exact Nat.lt_of_le_of_lt (Nat.zero_le _) hroom
  · change (queue.tail + 1) % capacity = (queue.head + (queue.count + 1)) % capacity
    rw [h.tail_eq, Nat.mod_add_mod, Nat.add_assoc]

theorem dequeue_shape (h : Shape queue) (hitems : 0 < queue.count) :
    ∃ task, CheckedArray.read queue.items queue.head = .ok task ∧
      Shape { queue with head := (queue.head + 1) % capacity, count := queue.count - 1 } ∧
      contents queue = task :: contents
        { queue with head := (queue.head + 1) % capacity, count := queue.count - 1 } := by
  have hpos : 0 < capacity := Nat.lt_of_le_of_lt (Nat.zero_le _) h.head_lt
  have hle := h.count_le
  obtain ⟨task, hread, hring⟩ := ring_read queue.items h.head_lt (queue.count - 1)
  rw [Nat.sub_add_cancel hitems] at hring
  refine ⟨task, hread, ⟨Nat.mod_lt _ hpos, h.tail_lt, ?_, ?_⟩, hring⟩
  · exact (Nat.sub_le _ _).trans hle
  · change queue.tail = ((queue.head + 1) % capacity + (queue.count - 1)) % capacity
    rw [h.tail_eq, Nat.mod_add_mod]
    congr 1
    omega

theorem push_effect (h : Shape queue) (task : Task) {call : QueueCall}
    (hcall : call = .tryPush task ∨ call = .push task) (hopen : queue.shutdown = false)
    (hroom : queue.count ≠ capacity) : ∃ queue', enqueue queue task = .ok queue' ∧
      Effect queue call (.leave queue' ⟨0, none⟩ (signal .notEmpty)) := by
  have hlt : queue.count < capacity := lt_of_le_of_ne h.count_le hroom
  obtain ⟨queue', henqueue, hshape, hshut, hcount, hcontents⟩ := enqueue_shape h hlt task
  exact ⟨queue', henqueue, .accept hcall hopen hlt hshape (hshut.trans hopen) hcount hcontents⟩

theorem section_effect (h : Shape queue) (call : QueueCall) :
    ∃ outcome, callSection call queue = .ok outcome ∧ Effect queue call outcome := by
  cases call with
  | tryPush task =>
    simp only [callSection, taskQueueTryPush]
    by_cases hshut : queue.shutdown = true
    · exact ⟨_, if_pos hshut, .refuse (Or.inl rfl) hshut⟩
    have hopen : queue.shutdown = false := by simpa using hshut
    rw [if_neg hshut]
    by_cases hfull : queue.count = capacity
    · exact ⟨_, if_pos hfull, .full hopen hfull⟩
    obtain ⟨queue', henqueue, heffect⟩ := push_effect h task (Or.inl rfl) hopen hfull
    rw [if_neg hfull, henqueue]
    exact ⟨_, rfl, heffect⟩
  | push task =>
    simp only [callSection, taskQueuePush]
    by_cases hshut : queue.shutdown = true
    · rw [if_neg (by simp [hshut])]
      exact ⟨_, if_pos hshut, .refuse (Or.inr rfl) hshut⟩
    have hopen : queue.shutdown = false := by simpa using hshut
    by_cases hfull : queue.count = capacity
    · exact ⟨_, if_pos (by simp [hopen, hfull]), .waitFull hopen hfull⟩
    obtain ⟨queue', henqueue, heffect⟩ := push_effect h task (Or.inr rfl) hopen hfull
    rw [if_neg (by simp [hfull]), if_neg hshut, henqueue]
    exact ⟨_, rfl, heffect⟩
  | pop =>
    simp only [callSection, taskQueuePop]
    by_cases hempty : queue.count = 0
    · by_cases hshut : queue.shutdown = true
      · rw [if_neg (by simp [hshut])]
        exact ⟨_, if_pos (by simp [hshut, hempty]), .drained hshut hempty⟩
      have hopen : queue.shutdown = false := by simpa using hshut
      exact ⟨_, if_pos (by simp [hopen, hempty]), .waitEmpty hopen hempty⟩
    · have hpos := Nat.pos_of_ne_zero hempty
      obtain ⟨task, hread, hshape, hcontents⟩ := dequeue_shape h hpos
      rw [if_neg (by simp [hempty]), if_neg (by simp [hempty]), hread]
      exact ⟨_, rfl, .deliver hshape rfl (Nat.sub_add_cancel hpos).symm hcontents⟩
  | shutdown => exact ⟨_, rfl, .close⟩

theorem popped_effect {queue' : TaskQueue capacity} {reply : Reply} {wake : QueueCond → Wake}
    (h : Effect queue .pop (.leave queue' reply wake)) :
    (∃ task, reply = ⟨0, some task⟩ ∧ queue.count = queue'.count + 1 ∧
      contents queue = task :: contents queue') ∨
    (reply = ⟨-1, none⟩ ∧ queue' = queue ∧ queue.shutdown = true ∧ queue.count = 0) := by
  cases h with
  | deliver _ _ hcount hcontents => exact Or.inl ⟨_, rfl, hcount, hcontents⟩
  | drained hshut hempty => exact Or.inr ⟨rfl, rfl, hshut, hempty⟩
  | accept hcall => rcases hcall with hcall | hcall <;> cases hcall
  | refuse hcall => rcases hcall with hcall | hcall <;> cases hcall

theorem shutdown_effect {queue' : TaskQueue capacity} {reply : Reply} {wake : QueueCond → Wake}
    (h : Effect queue .shutdown (.leave queue' reply wake)) :
    queue' = { queue with shutdown := true } := by
  cases h with
  | close => rfl
  | accept hcall => rcases hcall with hcall | hcall <;> cases hcall
  | refuse hcall => rcases hcall with hcall | hcall <;> cases hcall

def fifo (queue : TaskQueue capacity) : Fifo Task := ⟨contents queue, queue.shutdown⟩

def label (call : QueueCall) (reply : Reply) : Label Task :=
  match call with
  | .tryPush task => pushed task
  | .push task => pushed task
  | .pop =>
    match reply.outTask with
    | some task => .deliver task
    | none => .drained
  | .shutdown => .close
where
  pushed (task : Task) : Label Task :=
    if reply.result = 0 then .accept task
    else if reply.result = 1 then .full task
    else .refuse task

theorem contents_length (h : Shape queue) : (contents queue).length = queue.count :=
  ring_length queue.items h.head_lt queue.count

/-- A section that leaves keeps the shape and is a step of the abstract queue. -/
theorem effect_refines (h : Shape queue) {call : QueueCall} {queue' : TaskQueue capacity}
    {reply : Reply} {wake : QueueCond → Wake}
    (heffect : Effect queue call (.leave queue' reply wake)) :
    Shape queue' ∧ Step capacity (fifo queue) (label call reply) (fifo queue') := by
  have hlen := contents_length h
  cases heffect with
  | @accept _ task _ hcall hopen hroom hshape hopen' hcount hcontents =>
    refine ⟨hshape, ?_⟩
    have hlabel : label call ⟨0, none⟩ = .accept task := by
      rcases hcall with rfl | rfl
      · rfl
      · rfl
    rw [hlabel, fifo, fifo, hopen, hopen', hcontents]
    exact .accept task (hlen ▸ hroom)
  | full hopen hfull =>
    refine ⟨h, ?_⟩
    rw [fifo, hopen]
    exact .full _ (hlen.trans hfull)
  | @refuse _ task hcall hshut =>
    refine ⟨h, ?_⟩
    have hlabel : label call ⟨-1, none⟩ = .refuse task := by
      rcases hcall with rfl | rfl
      · rfl
      · rfl
    rw [hlabel, fifo, hshut]
    exact .refuse task
  | @deliver task _ hshape hshut hcount hcontents =>
    refine ⟨hshape, ?_⟩
    rw [fifo, fifo, hcontents, hshut]
    exact .deliver task
  | drained hshut hempty =>
    refine ⟨h, ?_⟩
    rw [fifo, hshut, List.length_eq_zero_iff.mp (hlen.trans hempty)]
    exact .drained
  | close => exact ⟨⟨h.head_lt, h.tail_lt, h.count_le, h.tail_eq⟩, .close⟩

end Sections

def completedLabel (r : Completed capacity) : Label Task := label r.call r.reply

/-- The calls that returned are a run of the abstract queue up to the queue as it is. -/
structure Refined {World : Type} (shared : Shared capacity World) : Prop where
  shape : Shape shared.queue
  run : Run capacity .empty (shared.completed.map completedLabel) (fifo shared.queue)
  effects : ∀ r ∈ shared.completed, ∃ wake, Effect r.before r.call (.leave r.after r.reply wake)

section Runs

variable {Thread Act World Local : Type} {agents : Agents Thread Act World Local}
  {shared : Shared capacity World} {t : Thread} {l : Local}

theorem locked_cases (h : Shape shared.queue)
    {outcome : Outcome QueueCond (Shared capacity World) Local}
    (hlocked : (program agents).locked t l shared = some outcome) :
    ∃ call, agents.call t l = some call ∧
      ((∃ c, outcome = .wait c ∧ Effect shared.queue call (.wait c)) ∨
      ∃ queue reply wake, outcome = .leave ⟨queue, shared.completed ++
          [⟨call, reply, shared.queue, queue⟩], shared.world⟩ (agents.returned t l reply) wake ∧
        Effect shared.queue call (.leave queue reply wake)) := by
  obtain ⟨call, hcall, hsection⟩ := Option.bind_eq_some_iff.mp hlocked
  refine ⟨call, hcall, ?_⟩
  obtain ⟨result, hresult, heffect⟩ := section_effect h call
  unfold agentSection at hsection
  rw [hresult] at hsection
  cases result with
  | wait c =>
    cases hsection
    exact Or.inl ⟨c, rfl, heffect⟩
  | leave queue reply wake =>
    cases hsection
    exact Or.inr ⟨queue, reply, wake, rfl, heffect⟩

theorem refined_leave (h : Refined shared) {call : QueueCall} {queue : TaskQueue capacity}
    {reply : Reply} {wake : QueueCond → Wake}
    (heffect : Effect shared.queue call (.leave queue reply wake)) :
    Refined ⟨queue, shared.completed ++ [⟨call, reply, shared.queue, queue⟩], shared.world⟩ := by
  obtain ⟨hshape, hstep⟩ := effect_refines h.shape heffect
  refine ⟨hshape, ?_, ?_⟩
  · rw [List.map_append, List.map_singleton]
    exact .snoc h.run hstep
  · intro r hr
    rcases List.mem_append.mp hr with hr | hr
    · exact h.effects r hr
    · rw [List.mem_singleton] at hr
      subst hr
      exact ⟨wake, heffect⟩

variable [DecidableEq Thread] [Fintype Thread]

theorem refined_step {s s' : State Thread QueueCond (Shared capacity World) Local}
    {e : Event Thread Act} (hstep : step (program agents) s e = some s') (h : Refined s.shared) :
    Refined s'.shared := by
  rcases step_cases hstep with ⟨t, a, l, shared, l', hstage, hact, rfl⟩ | ⟨t, c, l, hstage, rfl⟩ |
    ⟨t, l, c, hready, hlocked, rfl⟩ | ⟨t, l, shared, l', wake, chosen, hready, hlocked, hfits, rfl⟩
  · obtain ⟨world, -, rfl⟩ := act_cases hact
    exact ⟨h.shape, h.run, h.effects⟩
  · exact h
  · exact h
  · obtain ⟨call, -, ⟨c, hwait, -⟩ | ⟨queue, reply, wake', hleave, heffect⟩⟩ :=
      locked_cases h.shape hlocked
    · cases hwait
    · cases hleave
      exact refined_leave h heffect

theorem init_shape {queue : TaskQueue capacity} (h : taskQueueInit capacity = some queue) :
    Shape queue ∧ fifo queue = .empty ∧ 0 < capacity := by
  unfold taskQueueInit at h
  split at h
  · cases h
  · rename_i hne
    cases h
    have hpos := Nat.pos_of_ne_zero hne
    exact ⟨⟨hpos, hpos, Nat.zero_le _, (Nat.zero_mod _).symm⟩, rfl, hpos⟩

theorem refined_init {queue : TaskQueue capacity} (hinit : taskQueueInit capacity = some queue)
    (world : World) : Refined ⟨queue, [], world⟩ := by
  obtain ⟨hshape, hempty, -⟩ := init_shape hinit
  refine ⟨hshape, ?_, fun r hr => absurd hr List.not_mem_nil⟩
  change Run capacity .empty [] (fifo queue)
  rw [hempty]
  exact .nil _

/-- Every run of threads around an initialized queue refines the abstract queue. -/
theorem refined_run {queue : TaskQueue capacity} (hinit : taskQueueInit capacity = some queue)
    {world : World} {locals : Thread → Local} {events : List (Event Thread Act)}
    {s : State Thread QueueCond (Shared capacity World) Local}
    (hrun : runEvents (program agents) (started queue world locals) events = some s) :
    Refined s.shared :=
  runEvents_invariant (P := fun s => Refined s.shared)
    (fun _ _ _ hstep h => refined_step hstep h) hrun (refined_init hinit world)

end Runs

inductive Client where
  | idle
  | calling (call : QueueCall)

def clients (Thread : Type) : Agents Thread QueueCall Unit Client where
  call
    | _, .idle => none
    | _, .calling call => some call
  returned _ _ _ := .idle
  act
    | _, call, .idle, _ => some ((), .calling call)
    | _, _, .calling _, _ => none

def acceptedTask (r : Completed capacity) : Option Task :=
  match r.call with
  | .tryPush task => if r.reply.result = 0 then some task else none
  | .push task => if r.reply.result = 0 then some task else none
  | _ => none

def poppedTask (r : Completed capacity) : Option Task :=
  match r.call with
  | .pop => if r.reply.result = 0 then r.reply.outTask else none
  | _ => none

theorem label_tasks {call : QueueCall} {reply : Reply} {before after : TaskQueue capacity}
    {wake : QueueCond → Wake} (h : Effect before call (.leave after reply wake)) :
    taken (label call reply) = acceptedTask ⟨call, reply, before, after⟩ ∧
      given (label call reply) = poppedTask ⟨call, reply, before, after⟩ := by
  cases h with
  | accept hcall =>
    rcases hcall with rfl | rfl
    · exact ⟨rfl, rfl⟩
    · exact ⟨rfl, rfl⟩
  | full => exact ⟨rfl, rfl⟩
  | refuse hcall =>
    rcases hcall with rfl | rfl
    · exact ⟨rfl, rfl⟩
    · exact ⟨rfl, rfl⟩
  | deliver => exact ⟨rfl, rfl⟩
  | drained => exact ⟨rfl, rfl⟩
  | close => exact ⟨rfl, rfl⟩

/-- A try that answers 1 found the queue full, and one that does not accept leaves it alone. -/
theorem tryPush_effect {task : Task} {reply : Reply} {before after : TaskQueue capacity}
    {wake : QueueCond → Wake} (h : Effect before (.tryPush task) (.leave after reply wake)) :
    (reply.result = 1 → before.count = capacity ∧ before.shutdown = false) ∧
      (reply.result ≠ 0 → after = before) := by
  cases h with
  | accept => exact ⟨fun hone => absurd hone (by decide), fun hzero => absurd rfl hzero⟩
  | full hopen hfull => exact ⟨fun _ => ⟨hfull, hopen⟩, fun _ => rfl⟩
  | refuse => exact ⟨fun hone => absurd hone (by decide), fun _ => rfl⟩

theorem failed_pop_effect {reply : Reply} {before after : TaskQueue capacity}
    {wake : QueueCond → Wake} (h : Effect before .pop (.leave after reply wake))
    (hresult : reply.result ≠ 0) :
    before.shutdown = true ∧ before.count = 0 ∧ label .pop reply = .drained := by
  rcases popped_effect h with ⟨task, rfl, -⟩ | ⟨rfl, -, hshut, hempty⟩
  · exact absurd rfl hresult
  · exact ⟨hshut, hempty, rfl⟩

/-- The accepted and the popped tasks of a run are those of the abstract run. -/
theorem completed_tasks {done : List (Completed capacity)}
    (h : ∀ r ∈ done, ∃ wake, Effect r.before r.call (.leave r.after r.reply wake)) :
    accepted (done.map completedLabel) = done.filterMap acceptedTask ∧
      delivered (done.map completedLabel) = done.filterMap poppedTask := by
  rw [accepted, delivered, List.filterMap_map, List.filterMap_map]
  constructor
  · apply List.filterMap_congr
    intro r hr
    obtain ⟨wake, heffect⟩ := h r hr
    exact (label_tasks heffect).1
  · apply List.filterMap_congr
    intro r hr
    obtain ⟨wake, heffect⟩ := h r hr
    exact (label_tasks heffect).2

section Bounded

variable {Thread : Type} [DecidableEq Thread] [Fintype Thread]

/-- In every state that any threads can reach with any calls: the indices are in shape; the tasks
popped, and then the ones in the ring, are the tasks accepted, in order; a try that does not
accept changes nothing, and it answers 1 only for a full queue that is not shut down; after a
shutdown no push is accepted; a pop fails only when the queue is shut down and empty, and then
everything accepted has been popped; and no section faults. -/
theorem queue_refines_bounded_fifo {queue₀ : TaskQueue capacity}
    (hinit : taskQueueInit capacity = some queue₀) {events : List (Event Thread QueueCall)}
    {s : State Thread QueueCond (Shared capacity Unit) Client}
    (hrun : runEvents (program (clients Thread)) (started queue₀ () (fun _ => .idle)) events =
      some s) :
    (s.shared.queue.head < capacity ∧ s.shared.queue.tail < capacity ∧
      s.shared.queue.count ≤ capacity ∧
      s.shared.queue.tail = (s.shared.queue.head + s.shared.queue.count) % capacity) ∧
    s.shared.completed.filterMap acceptedTask =
      s.shared.completed.filterMap poppedTask ++
        ring s.shared.queue.items s.shared.queue.head s.shared.queue.count ∧
    (∀ r ∈ s.shared.completed, ∀ task, r.call = .tryPush task →
      (r.reply.result = 1 → r.before.count = capacity ∧ r.before.shutdown = false) ∧
      (r.reply.result ≠ 0 → r.after = r.before)) ∧
    (∀ before r after, s.shared.completed = before ++ r :: after → r.call = .shutdown →
      after.filterMap acceptedTask = []) ∧
    (∀ before r after, s.shared.completed = before ++ r :: after → r.call = .pop →
      r.reply.result ≠ 0 → r.before.shutdown = true ∧ r.before.count = 0 ∧
        before.filterMap poppedTask = before.filterMap acceptedTask) ∧
    ∀ call, ∃ outcome, callSection call s.shared.queue = .ok outcome := by
  have h := refined_run hinit hrun
  have hpart {part : List (Completed capacity)} (hsub : part ⊆ s.shared.completed) :=
    completed_tasks (fun r hr => h.effects r (hsub hr))
  refine ⟨⟨h.shape.head_lt, h.shape.tail_lt, h.shape.count_le, h.shape.tail_eq⟩, ?_, ?_, ?_, ?_, ?_⟩
  · have hfifo := run_fifo h.run
    rw [(hpart (List.Subset.refl _)).1, (hpart (List.Subset.refl _)).2] at hfifo
    exact hfifo
  · intro r hr task hcall
    obtain ⟨wake, heffect⟩ := h.effects r hr
    rw [hcall] at heffect
    exact tryPush_effect heffect
  · intro before r after hdone hcall
    have hlabel : completedLabel r = .close := by rw [completedLabel, hcall]; rfl
    have hlabels := h.run
    rw [hdone, List.map_append, List.map_cons, hlabel, List.append_cons] at hlabels
    have hafter : after ⊆ s.shared.completed := by
      rw [hdone]
      exact fun r' hr' => List.mem_append_right _ (List.mem_cons_of_mem _ hr')
    rw [← (hpart hafter).1]
    exact none_accepted_after_close hlabels
  · intro before r after hdone hcall hresult
    obtain ⟨wake, heffect⟩ := h.effects r (by rw [hdone]; simp)
    rw [hcall] at heffect
    obtain ⟨hshut, hempty, hdrained⟩ := failed_pop_effect heffect hresult
    have hlabel : completedLabel r = .drained := by rw [completedLabel, hcall, hdrained]
    have hlabels := h.run
    rw [hdone, List.map_append, List.map_cons, hlabel, List.append_cons] at hlabels
    obtain ⟨q, hbefore, -⟩ := run_split hlabels
    have hsub : before ⊆ s.shared.completed := by
      rw [hdone]
      exact List.subset_append_left _ _
    rw [← (hpart hsub).1, ← (hpart hsub).2]
    exact ⟨hshut, hempty, (all_delivered_when_drained hbefore).symm⟩
  · intro call
    obtain ⟨outcome, hsection, -⟩ := section_effect h.shape call
    exact ⟨outcome, hsection⟩

end Bounded

def oneSlot : TaskQueue 1 := ⟨Vector.replicate 1 ⟨0⟩, 0, 0, 0, false⟩

/-- One thread pushes two tasks and shuts the queue down, the other one pops three times; the
second push waits for the first pop. -/
def handOver : List (Event Bool QueueCall) :=
  [.act true (.tryPush ⟨5⟩), .enter true ∅, .act true (.push ⟨6⟩), .enter true ∅,
    .act false .pop, .enter false {true}, .enter true ∅, .act true .shutdown, .enter true ∅,
    .act false .pop, .enter false ∅, .act false .pop, .enter false ∅]

theorem hand_over_in_order : ∃ s : State Bool QueueCond (Shared 1 Unit) Client,
    runEvents (program (clients Bool)) (started oneSlot () (fun _ => .idle)) handOver = some s ∧
      s.shared.completed.filterMap poppedTask = [⟨5⟩, ⟨6⟩] ∧
      s.shared.completed.filterMap acceptedTask = s.shared.completed.filterMap poppedTask ++
        ring s.shared.queue.items s.shared.queue.head s.shared.queue.count := by
  have heval : (runEvents (program (clients Bool)) (started oneSlot () (fun _ => .idle))
      handOver).map (fun s => s.shared.completed.filterMap poppedTask) = some [⟨5⟩, ⟨6⟩] := by
    decide +kernel
  obtain ⟨s, hs, hpopped⟩ := Option.map_eq_some_iff.mp heval
  exact ⟨s, hs, hpopped, (queue_refines_bounded_fifo rfl hs).2.1⟩

end QueueRefinement
