import ThreadedDb.ParserBounds
import ThreadedDb.ApiResponses
import ThreadedDb.TableSections
import ThreadedDb.LockedSections

/-!
# Calls as locked sections

`db_api_execute_sql` as its sections under `db_rwlock`: an INSERT executes under the write lock;
a SELECT loads its table under the write lock and then executes under a read lock. No section
faults, no read section changes anything, and the sections of one call in a row are the call.
-/
namespace ConcurrentCalls

open ByteText
open SchemaModel
open StorageModel
open SqlFrontEnd
open RuntimeModel
open ExecutorModel
open TableCache
open StatementRuns
open DbApiModel
open ApiResponses
open ParserBounds
open TableSections
open LockedSections
open CheckedArray (Checked ok_bind bind_eq_ok)

inductive CallState where
  | insert (stmt : InsertStatement)
  | preload (stmt : SelectStatement)
  | select (stmt : SelectStatement)
  | returned (response : Checked ApiResponse)

def started (sql : CString) : CallState :=
  match gate sql with
  | .error f => .returned (.error f)
  | .ok (.error response) => .returned (.ok response)
  | .ok (.ok (.insert stmt)) => .insert stmt
  | .ok (.ok (.select stmt)) => .preload stmt

def executeBody (stmt : Statement) (db : Db) : Db × CallState :=
  match executeStatement noFaults db.disk db.ctx stmt with
  | .error f => (db, .returned (.error f))
  | .ok (disk, ctx, out) => (⟨disk, ctx⟩, .returned (executedResponse out))

def afterPreload (stmt : SelectStatement) : Except EngineError Unit → CallState
  | .error e => .returned (.ok (preloadErrorResponse e))
  | .ok _ => .select stmt

def preloadBody (stmt : SelectStatement) (db : Db) : Db × CallState :=
  match runtimePreloadTable db.disk db.ctx stmt.tableName with
  | .error f => (db, .returned (.error f))
  | .ok (disk, ctx, out) => (⟨disk, ctx⟩, afterPreload stmt out)

def api : Machine Db CallState where
  access
    | .insert _ => some .write
    | .preload _ => some .write
    | .select _ => some .read
    | .returned _ => none
  body
    | .insert stmt => executeBody (.insert stmt)
    | .preload stmt => preloadBody stmt
    | .select stmt => executeBody (.select stmt)
    | .returned response => fun db => (db, .returned response)

def serverStart {Call : Type} (disk : Disk) (dbDir : CString) (sql : Call → CString) :
    State Call Db CallState :=
  initial ⟨disk, initExecutionContext dbDir⟩ (fun c => started (sql c))

def Returned (stage : Stage CallState) : Prop := ∃ response, stage = .outside (.returned response)

instance : DecidablePred Returned
  | .outside (.returned response) => isTrue ⟨response, rfl⟩
  | .outside (.insert _) => isFalse (by rintro ⟨_, h⟩; cases h)
  | .outside (.preload _) => isFalse (by rintro ⟨_, h⟩; cases h)
  | .outside (.select _) => isFalse (by rintro ⟨_, h⟩; cases h)
  | .holding _ _ => isFalse (by rintro ⟨_, h⟩; cases h)
  | .leaving _ _ => isFalse (by rintro ⟨_, h⟩; cases h)

structure Good (db : Db) : Prop where
  sound : SoundContext db.ctx
  unique : UniqueNames db.ctx

theorem good_init (disk : Disk) (dbDir : CString) : Good ⟨disk, initExecutionContext dbDir⟩ :=
  ⟨sound_init dbDir, unique_init dbDir⟩

theorem execute_ends {db : Db} (h : Good db) (stmt : Statement) : ∃ db' out response,
    (execute stmt).run db = .ok (db', out) ∧ Good db' ∧ executedResponse out = .ok response ∧
      executeBody stmt db = (db', .returned (.ok response)) := by
  obtain ⟨disk, ctx, out, hrun, heffect⟩ := executeStatement_effect db.disk h.sound stmt
  obtain ⟨response, hresponse⟩ := executedResponse_total heffect
  refine ⟨⟨disk, ctx⟩, out, response, ?_, ⟨effect_sound heffect h.sound,
    effect_unique heffect h.unique⟩, hresponse, ?_⟩
  · rw [execute_run] at hrun
    obtain ⟨r, hsec, hrun⟩ := bind_eq_ok.mp hrun
    cases hrun
    exact hsec
  · unfold executeBody
    rw [hrun]
    simp only [hresponse]

theorem preload_ends {db : Db} (h : Good db) (name : CString) : ∃ db' out,
    (preload name).run db = .ok (db', out) ∧ Good db' := by
  obtain ⟨disk, found, hres⟩ := resolve_total db.disk db.ctx name
  cases found with
  | error e => exact ⟨_, _, preload_unresolved hres, h.sound, h.unique⟩
  | ok table =>
    refine ⟨_, _, preload_resolved hres, ?_, uniqueNames_remember h.unique _⟩
    exact sound_remember h.sound (resolve_sound h.sound hres)

theorem execute_effect {stmt : Statement} {db db' : Db} {out : Except EngineError ExecResult}
    (h : Good db) (hrun : (execute stmt).run db = .ok (db', out)) :
    Effect db.disk db.ctx stmt db'.disk db'.ctx out := by
  apply effect_of_execute h.sound
  rw [execute_run, hrun, ok_bind]

theorem execute_good {stmt : Statement} {db db' : Db} {out : Except EngineError ExecResult}
    (h : Good db) (hrun : (execute stmt).run db = .ok (db', out)) : Good db' := by
  have heffect := execute_effect h hrun
  exact ⟨effect_sound heffect h.sound, effect_unique heffect h.unique⟩

theorem preload_good {name : CString} {db db' : Db} {out : Except EngineError Unit} (h : Good db)
    (hrun : (preload name).run db = .ok (db', out)) : Good db' := by
  obtain ⟨db₁, out₁, hrun₁, hgood⟩ := preload_ends h name
  rw [hrun] at hrun₁
  cases hrun₁
  exact hgood

theorem preloadBody_eq {stmt : SelectStatement} {db db' : Db} {out : Except EngineError Unit}
    (h : (preload stmt.tableName).run db = .ok (db', out)) :
    preloadBody stmt db = (db', afterPreload stmt out) := by
  unfold preloadBody
  rw [preload_run, h, ok_bind]

theorem call_rejected {sql : CString} {response : ApiResponse} (h : gate sql = .ok (.error response))
    (db : Db) : dbApiExecuteSql db.disk db.ctx sql = .ok (db.disk, db.ctx, response) := by
  rw [dbApiExecuteSql, h, ok_bind]

theorem call_insert {sql : CString} {stmt : InsertStatement}
    (h : gate sql = .ok (.ok (.insert stmt))) {db db' : Db} {out : Except EngineError ExecResult}
    {response : ApiResponse} (hrun : (execute (.insert stmt)).run db = .ok (db', out))
    (hresponse : executedResponse out = .ok response) :
    dbApiExecuteSql db.disk db.ctx sql = .ok (db'.disk, db'.ctx, response) := by
  rw [dbApiExecuteSql, h, ok_bind]
  dsimp only
  rw [execute_run, hrun]
  simp only [ok_bind, hresponse]

theorem call_unloaded {sql : CString} {stmt : SelectStatement}
    (h : gate sql = .ok (.ok (.select stmt))) {db db' : Db} {e : EngineError}
    (hload : (preload stmt.tableName).run db = .ok (db', .error e)) :
    dbApiExecuteSql db.disk db.ctx sql = .ok (db'.disk, db'.ctx, preloadErrorResponse e) := by
  rw [dbApiExecuteSql, h, ok_bind]
  dsimp only
  rw [preload_run, hload]
  simp only [ok_bind]

theorem call_select {sql : CString} {stmt : SelectStatement}
    (h : gate sql = .ok (.ok (.select stmt))) {db db' db'' : Db}
    (hload : (preload stmt.tableName).run db = .ok (db', .ok ()))
    {out : Except EngineError ExecResult} {response : ApiResponse}
    (hrun : (execute (.select stmt)).run db' = .ok (db'', out))
    (hresponse : executedResponse out = .ok response) :
    dbApiExecuteSql db.disk db.ctx sql = .ok (db''.disk, db''.ctx, response) := by
  rw [dbApiExecuteSql, h, ok_bind]
  dsimp only
  rw [preload_run, hload]
  simp only [ok_bind]
  rw [execute_run, hrun]
  simp only [ok_bind, hresponse]

theorem runCalls_cons {disk disk' : Disk} {ctx ctx' : ExecutionContext} {sql : CString}
    {sqls : List CString} {responses : List ApiResponse} :
    runCalls disk ctx (sql :: sqls) = .ok (disk', ctx', responses) ↔
      ∃ disk₁ ctx₁ response rest, dbApiExecuteSql disk ctx sql = .ok (disk₁, ctx₁, response) ∧
        runCalls disk₁ ctx₁ sqls = .ok (disk', ctx', rest) ∧ responses = response :: rest := by
  rw [runCalls]
  constructor
  · intro h
    obtain ⟨⟨disk₁, ctx₁, response⟩, hcall, h⟩ := bind_eq_ok.mp h
    obtain ⟨⟨disk₂, ctx₂, rest⟩, hrest, h⟩ := bind_eq_ok.mp h
    cases h
    exact ⟨disk₁, ctx₁, response, rest, hcall, hrest, rfl⟩
  · rintro ⟨disk₁, ctx₁, response, rest, hcall, hrest, rfl⟩
    simp only [hcall, hrest, ok_bind]

theorem runCalls_snoc {disk disk₁ disk' : Disk} {ctx ctx₁ ctx' : ExecutionContext}
    {sqls : List CString} {sql : CString} {responses : List ApiResponse} {response : ApiResponse}
    (h : runCalls disk ctx sqls = .ok (disk₁, ctx₁, responses))
    (hcall : dbApiExecuteSql disk₁ ctx₁ sql = .ok (disk', ctx', response)) :
    runCalls disk ctx (sqls ++ [sql]) = .ok (disk', ctx', responses ++ [response]) := by
  induction sqls generalizing disk ctx responses with
  | nil =>
    cases h
    exact runCalls_cons.mpr ⟨disk', ctx', response, [], hcall, rfl, rfl⟩
  | cons first sqls ih =>
    obtain ⟨disk₂, ctx₂, response₁, rest, hfirst, hrest, rfl⟩ := runCalls_cons.mp h
    exact runCalls_cons.mpr ⟨disk₂, ctx₂, response₁, rest ++ [response], hfirst, ih hrest, rfl⟩

theorem body_cases {db : Db} (h : Good db) {l : CallState} {access : Access}
    (haccess : api.access l = some access) :
    (∃ stmt db' out response, l = .insert stmt ∧ (execute (.insert stmt)).run db = .ok (db', out) ∧
      Good db' ∧ executedResponse out = .ok response ∧
      api.body l db = (db', .returned (.ok response))) ∨
    (∃ stmt db' out, l = .preload stmt ∧ (preload stmt.tableName).run db = .ok (db', out) ∧
      Good db' ∧ api.body l db = (db', afterPreload stmt out)) ∨
    (∃ stmt db' out response, l = .select stmt ∧ (execute (.select stmt)).run db = .ok (db', out) ∧
      Good db' ∧ executedResponse out = .ok response ∧
      api.body l db = (db', .returned (.ok response))) := by
  cases l with
  | insert stmt =>
    left
    obtain ⟨db', out, response, hrun, hgood, hresponse, hbody⟩ := execute_ends h (.insert stmt)
    exact ⟨stmt, db', out, response, rfl, hrun, hgood, hresponse, hbody⟩
  | preload stmt =>
    right
    left
    obtain ⟨db', out, hrun, hgood⟩ := preload_ends h stmt.tableName
    exact ⟨stmt, db', out, rfl, hrun, hgood, preloadBody_eq hrun⟩
  | select stmt =>
    right
    right
    obtain ⟨db', out, response, hrun, hgood, hresponse, hbody⟩ := execute_ends h (.select stmt)
    exact ⟨stmt, db', out, response, rfl, hrun, hgood, hresponse, hbody⟩
  | returned response => cases haccess

theorem run_keeps_cached {ρ : Type} {sec : Section ρ} {a b : Db} {out : ρ}
    (h : sec.run a = .ok (b, out)) {name : CString} (hcached : (cached a.ctx name).isSome) :
    (cached b.ctx name).isSome := by
  rcases run_cases h with ⟨disk, e, -, rfl, -⟩ | ⟨disk, table, disk', table', -, -, rfl⟩
  · exact hcached
  · rw [cached_remember]
    split
    · rfl
    · exact hcached

theorem preload_caches {name : CString} {a b : Db} (h : (preload name).run a = .ok (b, .ok ())) :
    (cached b.ctx name).isSome := by
  obtain ⟨disk, table, hres, rfl⟩ := preload_cases h
  rw [cached_remember, if_pos (resolve_name hres)]
  rfl

theorem select_cached {stmt : SelectStatement} {a b : Db} {out : Except EngineError ExecResult}
    (h : (execute (.select stmt)).run a = .ok (b, out))
    (hcached : (cached a.ctx stmt.tableName).isSome) : b = a := by
  obtain ⟨t, ht⟩ := Option.isSome_iff_exists.mp hcached
  have hres : resolve a.disk a.ctx (execute (.select stmt)).name = .ok (a.disk, .ok t) := by
    unfold resolve
    rw [show cached a.ctx (execute (.select stmt)).name = some t from ht]
  rcases run_cases h with ⟨disk, e, hres', -, -⟩ | ⟨disk, table, disk', table', hres', hwork, rfl⟩
  · rw [hres] at hres'
    cases hres'
  · rw [hres] at hres'
    cases hres'
    have hselect : selectWork stmt a.disk a.ctx.dbDir t = .ok (disk', table', out) := hwork
    unfold selectWork at hselect
    obtain ⟨result, hout, hselect⟩ := bind_eq_ok.mp hselect
    cases hselect
    rw [remember_cached ht]

section Atomic

variable {Call : Type} [DecidableEq Call] {sql : Call → CString} {disk : Disk} {dbDir : CString}

structure Steady (db : Db) (ls : Call → CallState) : Prop where
  good : Good db
  cached : ∀ c stmt, ls c = .select stmt → (cached db.ctx stmt.tableName).isSome

theorem started_ne_select (sql : CString) (stmt : SelectStatement) :
    started sql ≠ .select stmt := by
  unfold started
  split
  · simp
  · simp
  · simp
  · simp

theorem steady_update {ρ : Type} {sec : Section ρ} {db db' : Db} {ls : Call → CallState}
    (h : Steady db ls) {out : ρ} (hrun : sec.run db = .ok (db', out)) (hgood : Good db') {c : Call}
    {l : CallState}
    (hl : ∀ stmt, l = .select stmt → (TableCache.cached db'.ctx stmt.tableName).isSome) :
    Steady db' (Function.update ls c l) := by
  refine ⟨hgood, fun d stmt hd => ?_⟩
  by_cases hdc : d = c
  · rw [hdc, Function.update_self] at hd
    exact hl stmt hd
  · rw [Function.update_of_ne hdc] at hd
    exact run_keeps_cached hrun (h.cached d stmt hd)

theorem steady_step {db : Db} {ls : Call → CallState} (h : Steady db ls) {c : Call}
    {access : Access} (haccess : api.access (ls c) = some access) :
    Steady (api.body (ls c) db).1 (Function.update ls c (api.body (ls c) db).2) := by
  rcases body_cases h.good haccess with ⟨stmt, db', out, response, -, hrun, hgood, -, hbody⟩ |
    ⟨stmt, db', out, -, hrun, hgood, hbody⟩ | ⟨stmt, db', out, response, -, hrun, hgood, -, hbody⟩
  · rw [hbody]
    exact steady_update h hrun hgood (fun stmt' heq => by cases heq)
  · rw [hbody]
    apply steady_update h hrun hgood
    intro stmt' heq
    cases out with
    | error e => cases heq
    | ok u =>
      cases heq
      exact preload_caches hrun
  · rw [hbody]
    exact steady_update h hrun hgood (fun stmt' heq => by cases heq)

theorem atomic_steady {log : List Call} {db : Db} {ls : Call → CallState}
    (h : Atomic api ⟨disk, initExecutionContext dbDir⟩ (fun c => started (sql c)) log db ls) :
    Steady db ls := by
  induction h with
  | nil => exact ⟨good_init disk dbDir, fun c stmt hc => absurd hc (started_ne_select _ _)⟩
  | snoc _ haccess ih => exact steady_step ih haccess

theorem api_quiet : Quiet api ⟨disk, initExecutionContext dbDir⟩ (fun c => started (sql c)) := by
  intro log db ls hatomic c haccess
  have h := atomic_steady hatomic
  rcases body_cases h.good haccess with ⟨stmt, db', out, response, hl, -⟩ |
    ⟨stmt, db', out, hl, -⟩ | ⟨stmt, db', out, response, hl, hrun, -, -, hbody⟩
  · rw [hl] at haccess
    cases haccess
  · rw [hl] at haccess
    cases haccess
  · rw [hbody]
    exact select_cached hrun (h.cached c stmt hl)

end Atomic

end ConcurrentCalls
