import ThreadedDb.ConcurrentCalls
import ThreadedDb.IndexCoherence

/-!
# Read-locked SELECTs write nothing

A SELECT loads its table under the write lock and reads under a read lock. Nothing that runs in
between drops the table from the cache, so the lazy loader of the read section finds it there.
-/
namespace ReadSections

open ByteText
open SchemaModel
open SqlFrontEnd
open RuntimeModel
open ExecutorModel
open TableCache
open TableSections
open StatementRuns
open ConcurrentCalls
open LockedSections
open IndexCoherence (usersDisk)
open CheckedArray (ok_bind)

/-- The local state that a call is in, or that its section works on. -/
def current {Local : Type} : Stage Local → Local
  | .outside l => l
  | .holding _ l => l
  | .leaving _ l => l

section Calls

variable {Call : Type} [DecidableEq Call]

/-- The table of every SELECT between its two sections is cached, whatever the others do. -/
structure Loaded (s : State Call Db CallState) : Prop where
  steady : Steady s.shared (fun c => current (s.stage c))
  access : ∀ c access l, s.stage c = .holding access l → api.access l = some access

theorem current_update (stage : Call → Stage CallState) (c : Call) (st : Stage CallState) :
    (fun d => current (Function.update stage c st d)) =
      Function.update (fun d => current (stage d)) c (current st) := by
  funext d
  by_cases hd : d = c
  · rw [hd, Function.update_self, Function.update_self]
  · rw [Function.update_of_ne hd, Function.update_of_ne hd]

/-- Taking the lock and giving it back leave every call in its local state. -/
theorem current_moved {stage : Call → Stage CallState} {c : Call} {st : Stage CallState}
    (h : current st = current (stage c)) :
    (fun d => current (Function.update stage c st d)) = fun d => current (stage d) := by
  rw [current_update, h, Function.update_eq_self c (fun d => current (stage d))]

theorem loaded_enter {s : State Call Db CallState} (h : Loaded s) {c : Call} {access : Access}
    {l : CallState} (hstage : s.stage c = .outside l) (haccess : api.access l = some access) :
    Loaded (s.enter c access l) := by
  constructor
  · have hmoved : current (Stage.holding access l) = current (s.stage c) := by
      rw [hstage]
      rfl
    exact (current_moved hmoved).symm ▸ h.steady
  · intro d a l' hd
    by_cases hdc : d = c
    · subst hdc
      rw [show (s.enter d access l).stage d = .holding access l from Function.update_self ..] at hd
      cases hd
      exact haccess
    · exact h.access d a l' ((Function.update_of_ne hdc ..).symm.trans hd)

theorem loaded_work {s : State Call Db CallState} (h : Loaded s) {c : Call} {access : Access}
    {l : CallState} (hstage : s.stage c = .holding access l) :
    Loaded (s.work api c access l) := by
  have hl : current (s.stage c) = l := by
    rw [hstage]
    rfl
  constructor
  · have hnext := steady_step h.steady (c := c) (by rw [hl]; exact h.access c access l hstage)
    rw [hl] at hnext
    exact (current_update s.stage c (.leaving access (api.body l s.shared).2)).symm ▸ hnext
  · intro d a l' hd
    by_cases hdc : d = c
    · subst hdc
      rw [show (s.work api d access l).stage d = .leaving access (api.body l s.shared).2 from
        Function.update_self ..] at hd
      cases hd
    · exact h.access d a l' ((Function.update_of_ne hdc ..).symm.trans hd)

theorem loaded_leave {s : State Call Db CallState} (h : Loaded s) {c : Call} {access : Access}
    {l : CallState} (hstage : s.stage c = .leaving access l) : Loaded (s.leave c access l) := by
  constructor
  · have hmoved : current (Stage.outside l) = current (s.stage c) := by
      rw [hstage]
      rfl
    exact (current_moved hmoved).symm ▸ h.steady
  · intro d a l' hd
    by_cases hdc : d = c
    · subst hdc
      rw [show (s.leave d access l).stage d = .outside l from Function.update_self ..] at hd
      cases hd
    · exact h.access d a l' ((Function.update_of_ne hdc ..).symm.trans hd)

theorem loaded_step {s t : State Call Db CallState} {e : Event Call} (h : Loaded s)
    (hstep : step api s e = some t) : Loaded t := by
  rcases step_cases hstep with ⟨c, access, l, hstage, haccess, -, rfl⟩ |
    ⟨c, access, l, hstage, rfl⟩ | ⟨c, access, l, hstage, rfl⟩
  · exact loaded_enter h hstage haccess
  · exact loaded_work h hstage
  · exact loaded_leave h hstage

theorem run_loaded {sql : Call → CString} {disk : Disk} {dbDir : CString}
    {events : List (Event Call)} {s : State Call Db CallState}
    (h : runEvents api (serverStart disk dbDir sql) events = some s) : Loaded s := by
  apply runEvents_invariant Loaded (fun s t e hs hstep => loaded_step hs hstep) _ h
  refine ⟨⟨good_init disk dbDir, ?_⟩, ?_⟩
  · intro c stmt hc
    exact absurd hc (started_ne_select _ _)
  · intro c access l hc
    cases hc

/-- On a cached table `get_or_load_table_runtime` returns the entry, and nothing else. -/
theorem cached_hit (disk : Disk) {ctx : ExecutionContext} {name : CString}
    (h : (cached ctx name).isSome) : ∃ i,
      ctx.tables.findIdx? (fun t => t.tableName = name) = some i ∧
      getOrLoadTableRuntime disk ctx name = .ok (disk, ctx, .ok i) := by
  rcases getOrLoad_resolve disk ctx name with ⟨table, i, hcached, -, hidx, hget⟩ | ⟨hcached, -⟩
  · rw [cached_name hcached] at hidx
    exact ⟨i, hidx, hget⟩
  · rw [hcached] at h
    cases h

/-- While a call holds the read lock, its section is a SELECT whose table is in the cache, and
executing it changes neither the context nor a file. -/
theorem read_section_changes_nothing (sql : Call → CString) (disk : Disk) (dbDir : CString)
    {events : List (Event Call)} {s : State Call Db CallState}
    (hrun : runEvents api (serverStart disk dbDir sql) events = some s) {c : Call} {l : CallState}
    (hread : s.stage c = .holding .read l) : ∃ stmt i out,
      l = .select stmt ∧
      s.shared.ctx.tables.findIdx? (fun t => t.tableName = stmt.tableName) = some i ∧
      getOrLoadTableRuntime s.shared.disk s.shared.ctx stmt.tableName =
        .ok (s.shared.disk, s.shared.ctx, .ok i) ∧
      executeStatement noFaults s.shared.disk s.shared.ctx (.select stmt) =
        .ok (s.shared.disk, s.shared.ctx, out) ∧
      ∀ t, step api s (.run c) = some t → t.shared = s.shared := by
  have h := run_loaded hrun
  have haccess := h.access c .read l hread
  have hcurrent : current (s.stage c) = l := by
    rw [hread]
    rfl
  rcases body_cases h.steady.good haccess with ⟨stmt, db', out, response, rfl, -⟩ |
    ⟨stmt, db', out, rfl, -⟩ | ⟨stmt, db', out, response, rfl, hexec, -, -, hbody⟩
  · cases haccess
  · cases haccess
  · have hcached := h.steady.cached c stmt hcurrent
    obtain ⟨i, hidx, hget⟩ := cached_hit s.shared.disk hcached
    obtain rfl := select_cached hexec hcached
    refine ⟨stmt, i, out, rfl, hidx, hget, ?_, ?_⟩
    · rw [execute_run, hexec, ok_bind]
    · intro t ht
      simp only [step, hread] at ht
      cases ht
      change (api.body (.select stmt) s.shared).1 = s.shared
      rw [hbody]

end Calls

def aboutToRead {Local : Type} : Stage Local → Bool
  | .holding .read _ => true
  | _ => false

theorem aboutToRead_holding {Local : Type} {stage : Stage Local} (h : aboutToRead stage = true) :
    ∃ l, stage = .holding .read l := by
  cases stage with
  | outside l => cases h
  | holding access l =>
    cases access with
    | read => exact ⟨l, rfl⟩
    | write => cases h
  | leaving access l => cases h

def readers (call : ℕ) : CString :=
  if call = 0 then .lit "SELECT * FROM users"
  else if call = 1 then .lit "INSERT INTO users VALUES ('kim')"
  else .lit "SELECT name FROM users WHERE id = 1"

/-- Both queries have loaded the table, the INSERT has run, and both hold the read lock. -/
def readersInside : List (Event ℕ) :=
  [.acquire 0, .run 0, .release 0, .acquire 2, .run 2, .release 2, .acquire 1, .run 1, .release 1,
    .acquire 2, .acquire 0]

theorem readers_change_nothing : ∃ s, runEvents api (serverStart usersDisk (.lit "db") readers)
      readersInside = some s ∧
    (∃ l, s.stage 0 = .holding .read l ∧ ∃ stmt i out, l = .select stmt ∧
      s.shared.ctx.tables.findIdx? (fun t => t.tableName = stmt.tableName) = some i ∧
      getOrLoadTableRuntime s.shared.disk s.shared.ctx stmt.tableName =
        .ok (s.shared.disk, s.shared.ctx, .ok i) ∧
      executeStatement noFaults s.shared.disk s.shared.ctx (.select stmt) =
        .ok (s.shared.disk, s.shared.ctx, out) ∧
      ∀ t, step api s (.run 0) = some t → t.shared = s.shared) := by
  have heval : (runEvents api (serverStart usersDisk (.lit "db") readers) readersInside).map
      (fun s => aboutToRead (s.stage 0)) = some true := by decide +kernel
  obtain ⟨s, hs, hreads⟩ := Option.map_eq_some_iff.mp heval
  obtain ⟨l, hstage⟩ := aboutToRead_holding hreads
  exact ⟨s, hs, l, hstage, read_section_changes_nothing readers usersDisk (.lit "db") hs hstage⟩

end ReadSections
