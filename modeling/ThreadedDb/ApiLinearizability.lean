import ThreadedDb.ConcurrentCalls
import ThreadedDb.Movers

/-!
# Linearizability of the API

However the sections of concurrent calls interleave, the calls return what they return one after
another, in the order in which their last sections took the lock. The tables that a SELECT loads
before its turn are loads taken early; they can be put off to the SELECT itself.
-/
namespace ApiLinearizability

open ByteText
open SchemaModel
open SqlFrontEnd
open RuntimeModel
open ExecutorModel
open TableCache
open DbApiModel
open ParserBounds
open TableSections
open LockedSections
open ConcurrentCalls
open IndexCoherence (usersDisk)
open Movers

section Calls

variable {Call : Type} [DecidableEq Call] {sql : Call → CString} {disk : Disk} {dbDir : CString}

def LoadsFor (sql : Call → CString) (c : Call) (a b : Db) : Prop :=
  ∃ stmt, gate (sql c) = .ok (.ok (.select stmt)) ∧
    (preload stmt.tableName).run a = .ok (b, .ok ())

omit [DecidableEq Call] in
theorem run_passes {ρ : Type} {sec : Section ρ} (hl : sec.Local) :
    Passes Same (LoadsFor sql) (fun a out b => sec.run a = .ok (b, out)) := by
  rintro c a b b' out ⟨stmt, hgate, hload⟩ hrun
  obtain ⟨m, n, hm, hn, hsame⟩ := preload_passes hl hload hrun
  exact ⟨m, n, hm, ⟨stmt, hgate, hn⟩, hsame⟩

omit [DecidableEq Call] in
theorem loadsFor_respects (c : Call) :
    Respects Same (fun a (_ : Unit) b => LoadsFor sql c a b) := by
  rintro a a' b _ hsame ⟨stmt, hgate, hload⟩
  obtain ⟨b', hload', hsame'⟩ := run_same (preload_local _) hsame hload
  exact ⟨b', ⟨stmt, hgate, hload'⟩, hsame'⟩

omit [DecidableEq Call] in
theorem loadsFor_passes (c : Call) :
    Passes Same (LoadsFor sql) (fun a (_ : Unit) b => LoadsFor sql c a b) := by
  rintro d a b e _ hd ⟨stmt, hgate, hload⟩
  obtain ⟨m, n, hm, hn, hsame⟩ := run_passes (preload_local _) d a b e _ hd hload
  exact ⟨m, n, ⟨stmt, hgate, hm⟩, hn, hsame⟩

/-- The calls of `order` one after another have the responses of the atomic run, and lead to its
state but for the loads of the SELECTs that are between their sections. -/
structure Linearized (sql : Call → CString) (disk : Disk) (dbDir : CString) (log : List Call)
    (db : Db) (ls : Call → CallState) (pending : List Call) (seq : Db)
    (responses : List ApiResponse) : Prop where
  run : runCalls disk (initExecutionContext dbDir)
    ((log.dedup.filter (· ∉ pending)).map sql) = .ok (seq.disk, seq.ctx, responses)
  answers : responses.map (fun r => CallState.returned (.ok r)) =
    (log.dedup.filter (· ∉ pending)).map ls
  loads : ∃ db', Loads (LoadsFor sql) seq pending db' ∧ Same db' db
  fresh : ∀ c, c ∉ log → ls c = started (sql c)
  between : ∀ c ∈ pending, c ∈ log ∧ ∃ stmt, gate (sql c) = .ok (.ok (.select stmt)) ∧
    ls c = .select stmt
  nodup : pending.Nodup
  good : Good seq

theorem started_insert {text : CString} {stmt : InsertStatement}
    (h : started text = .insert stmt) : gate text = .ok (.ok (.insert stmt)) := by
  unfold started at h
  split at h
  · cases h
  · cases h
  · rename_i hgate
    cases h
    exact hgate
  · cases h

theorem started_preload {text : CString} {stmt : SelectStatement}
    (h : started text = .preload stmt) : gate text = .ok (.ok (.select stmt)) := by
  unfold started at h
  split at h
  · cases h
  · cases h
  · cases h
  · rename_i hgate
    cases h
    exact hgate

section Step

variable {log pending : List Call} {db db' seq seq' : Db} {ls : Call → CallState} {c : Call}
  {responses : List ApiResponse} {response : ApiResponse}

theorem linearized_initial :
    Linearized sql disk dbDir [] ⟨disk, initExecutionContext dbDir⟩ (fun c => started (sql c)) []
      ⟨disk, initExecutionContext dbDir⟩ [] where
  run := rfl
  answers := rfl
  loads := ⟨_, .nil _, Same.refl _⟩
  fresh c _ := rfl
  between c hc := by cases hc
  nodup := List.nodup_nil
  good := good_init disk dbDir

theorem Linearized.returned (h : Linearized sql disk dbDir log db ls pending seq responses)
    (hlog : c ∈ log) (hpending : c ∉ pending) : ∃ response, ls c = .returned (.ok response) := by
  have hmem : c ∈ log.dedup.filter (· ∉ pending) := by simp [hlog, hpending]
  have hls := List.mem_map_of_mem (f := ls) hmem
  rw [← h.answers] at hls
  obtain ⟨response, -, heq⟩ := List.mem_map.mp hls
  exact ⟨response, heq.symm⟩

theorem Linearized.return {pending' : List Call}
    (h : Linearized sql disk dbDir log db ls pending seq responses)
    (hnew : c ∉ log.dedup.filter (· ∉ pending))
    (horder : (log ++ [c]).dedup.filter (· ∉ pending') = log.dedup.filter (· ∉ pending) ++ [c])
    (hpending : ∀ d ∈ pending', d ∈ pending ∧ d ≠ c) (hnodup : pending'.Nodup) (hgood : Good seq')
    (hcall : dbApiExecuteSql seq.disk seq.ctx (sql c) = .ok (seq'.disk, seq'.ctx, response))
    (hloads : ∃ db₁, Loads (LoadsFor sql) seq' pending' db₁ ∧ Same db₁ db') :
    Linearized sql disk dbDir (log ++ [c]) db'
      (Function.update ls c (.returned (.ok response))) pending' seq'
      (responses ++ [response]) := by
  refine ⟨?_, ?_, hloads, fun d hd => ?_, fun d hd => ?_, hnodup, hgood⟩
  · rw [horder, List.map_append]
    exact runCalls_snoc h.run hcall
  · rw [horder, List.map_append, List.map_append, h.answers, List.map_singleton,
      List.map_singleton, Function.update_self]
    congr 1
    apply List.map_congr_left
    intro d hd
    have hne : d ≠ c := by
      rintro rfl
      exact hnew hd
    rw [Function.update_of_ne hne]
  · rw [List.mem_append, List.mem_singleton, not_or] at hd
    rw [Function.update_of_ne hd.2, h.fresh d hd.1]
  · obtain ⟨hmem, hne⟩ := hpending d hd
    obtain ⟨hlog, stmt, hgate, hls⟩ := h.between d hmem
    exact ⟨List.mem_append_left _ hlog, stmt, hgate, (Function.update_of_ne hne ..).trans hls⟩

theorem Linearized.once {ρ : Type} {sec : Section ρ} (hl : sec.Local)
    (hkeep : ∀ {a b : Db} {out : ρ}, Good a → sec.run a = .ok (b, out) → Good b) {out : ρ}
    (h : Linearized sql disk dbDir log db ls pending seq responses) (hlog : c ∉ log)
    (hrun : sec.run db = .ok (db', out))
    (hcall : ∀ seq', sec.run seq = .ok (seq', out) →
      dbApiExecuteSql seq.disk seq.ctx (sql c) = .ok (seq'.disk, seq'.ctx, response)) :
    ∃ seq', Linearized sql disk dbDir (log ++ [c]) db'
      (Function.update ls c (.returned (.ok response))) pending seq' (responses ++ [response]) := by
  have hpending : c ∉ pending := fun hc => hlog (h.between c hc).1
  obtain ⟨db₁, hloads, hsame⟩ := h.loads
  obtain ⟨db₂, hrun₂, hsame₂⟩ := run_same hl hsame.symm hrun
  obtain ⟨seq', db₃, hseq, hloads₃, hsame₃⟩ :=
    Loads.passes same_equivalence loadsFor_respects (run_passes hl) hloads hrun₂
  refine ⟨seq', h.return ?_ (done_new hlog hpending) (fun d hd => ⟨hd, ?_⟩) h.nodup
    (hkeep h.good hseq) (hcall seq' hseq) ⟨db₃, hloads₃, hsame₃.trans hsame₂.symm⟩⟩
  · simp [hlog]
  · exact fun heq => hpending (heq ▸ hd)

theorem Linearized.load {stmt : SelectStatement}
    (h : Linearized sql disk dbDir log db ls pending seq responses) (hlog : c ∉ log)
    (hgate : gate (sql c) = .ok (.ok (.select stmt)))
    (hrun : (preload stmt.tableName).run db = .ok (db', .ok ())) :
    Linearized sql disk dbDir (log ++ [c]) db' (Function.update ls c (.select stmt))
      (pending ++ [c]) seq responses := by
  have hpending : c ∉ pending := fun hc => hlog (h.between c hc).1
  obtain ⟨db₁, hloads, hsame⟩ := h.loads
  obtain ⟨db₂, hrun₂, hsame₂⟩ := run_same (preload_local _) hsame.symm hrun
  refine ⟨?_, ?_, ⟨db₂, hloads.snoc ⟨stmt, hgate, hrun₂⟩, hsame₂.symm⟩, fun d hd => ?_,
    fun d hd => ?_, ?_, h.good⟩
  · rw [done_pending hlog]
    exact h.run
  · rw [done_pending hlog, h.answers]
    apply List.map_congr_left
    intro d hd
    have hne : d ≠ c := by
      rintro rfl
      exact hlog (List.mem_dedup.mp (List.mem_filter.mp hd).1)
    rw [Function.update_of_ne hne]
  · rw [List.mem_append, List.mem_singleton, not_or] at hd
    rw [Function.update_of_ne hd.2, h.fresh d hd.1]
  · rcases List.mem_append.mp hd with hd | hd
    · obtain ⟨hdlog, stmt', hgate', hls⟩ := h.between d hd
      have hne : d ≠ c := fun heq => hpending (heq ▸ hd)
      exact ⟨List.mem_append_left _ hdlog, stmt', hgate', (Function.update_of_ne hne ..).trans hls⟩
    · rw [List.mem_singleton] at hd
      subst hd
      exact ⟨by simp, stmt, hgate, Function.update_self ..⟩
  · rw [← List.concat_eq_append]
    exact h.nodup.concat hpending

theorem Linearized.read {stmt : SelectStatement} {out : Except EngineError ExecResult}
    (h : Linearized sql disk dbDir log db ls pending seq responses) (hc : c ∈ pending)
    (hgate : gate (sql c) = .ok (.ok (.select stmt)))
    (hrun : (execute (.select stmt)).run db = .ok (db', out))
    (hresponse : executedResponse out = .ok response) :
    ∃ seq', Linearized sql disk dbDir (log ++ [c]) db'
      (Function.update ls c (.returned (.ok response))) (pending.erase c) seq'
      (responses ++ [response]) := by
  obtain ⟨db₁, hloads, hsame⟩ := h.loads
  obtain ⟨seq₁, db₂, ⟨stmt', hgate', hload⟩, hloads₂, hsame₂⟩ :=
    Loads.first same_equivalence loadsFor_respects loadsFor_passes hloads hc
  rw [hgate] at hgate'
  cases hgate'
  obtain ⟨db₃, hrun₃, hsame₃⟩ := run_same (execute_local _) (hsame₂.trans hsame).symm hrun
  obtain ⟨seq', db₄, hseq, hloads₄, hsame₄⟩ :=
    Loads.passes same_equivalence loadsFor_respects (run_passes (execute_local _)) hloads₂ hrun₃
  refine ⟨seq', h.return ?_ (done_resumed hc h.nodup) (fun d hd => ?_) (h.nodup.erase c)
    (execute_good (preload_good h.good hload) hseq) (call_select hgate hload hseq hresponse)
    ⟨db₄, hloads₄, hsame₄.trans hsame₃.symm⟩⟩
  · simp [hc]
  · exact ⟨List.mem_of_mem_erase hd, ((h.nodup.mem_erase_iff).mp hd).1⟩

theorem Linearized.step (h : Linearized sql disk dbDir log db ls pending seq responses)
    (hgood : Good db) {access : Access} (haccess : api.access (ls c) = some access) :
    ∃ pending' seq' responses', Linearized sql disk dbDir (log ++ [c]) (api.body (ls c) db).1
      (Function.update ls c (api.body (ls c) db).2) pending' seq' responses' := by
  by_cases hlog : c ∈ log
  · -- the call is between its sections, so this is the read of a SELECT
    by_cases hpending : c ∈ pending
    · obtain ⟨-, stmt, hgate, hls⟩ := h.between c hpending
      obtain ⟨db', out, response, hrun, -, hresponse, hbody⟩ := execute_ends hgood (.select stmt)
      obtain ⟨seq', hlin⟩ := h.read hpending hgate hrun hresponse
      have hbody' : api.body (ls c) db = (db', .returned (.ok response)) := by
        rw [hls]
        exact hbody
      rw [hbody']
      exact ⟨_, seq', _, hlin⟩
    · obtain ⟨response, hls⟩ := h.returned hlog hpending
      rw [hls] at haccess
      cases haccess
  · have hls := h.fresh c hlog
    rcases body_cases hgood haccess with ⟨stmt, db', out, response, hl, hrun, -, hresponse, hbody⟩ |
      ⟨stmt, db', out, hl, hrun, -, hbody⟩ | ⟨stmt, db', out, response, hl, -⟩
    · have hgate := started_insert (hls.symm.trans hl)
      rw [hbody]
      obtain ⟨seq', hlin⟩ := h.once (execute_local _) execute_good hlog hrun
        (fun seq' hseq => call_insert hgate hseq hresponse)
      exact ⟨pending, seq', _, hlin⟩
    · have hgate := started_preload (hls.symm.trans hl)
      rw [hbody]
      cases out with
      | error e =>
        obtain ⟨seq', hlin⟩ := h.once (preload_local _) preload_good hlog hrun
          (fun seq' hseq => call_unloaded hgate hseq)
        exact ⟨pending, seq', _, hlin⟩
      | ok u => exact ⟨pending ++ [c], seq, responses, h.load hlog hgate hrun⟩
    · exact absurd (hls.symm.trans hl) (started_ne_select _ _)

end Step

theorem atomic_linearized {log : List Call} {db : Db} {ls : Call → CallState}
    (h : Atomic api ⟨disk, initExecutionContext dbDir⟩ (fun c => started (sql c)) log db ls) :
    ∃ pending seq responses, Linearized sql disk dbDir log db ls pending seq responses := by
  induction h with
  | nil => exact ⟨[], _, [], linearized_initial⟩
  | snoc hatomic haccess ih =>
    obtain ⟨pending, seq, responses, hlin⟩ := ih
    exact hlin.step (atomic_steady hatomic).good haccess

def takesLock (text : CString) : Bool :=
  match gate text with
  | .ok (.ok _) => true
  | _ => false

theorem gate_rejects {text : CString} (h : takesLock text = false) :
    ∃ response, gate text = .ok (.error response) ∧ started text = .returned (.ok response) := by
  obtain ⟨g, hg⟩ := gate_total text
  cases g with
  | error response =>
    refine ⟨response, hg, ?_⟩
    unfold started
    rw [hg]
  | ok stmt => simp [takesLock, hg] at h

omit [DecidableEq Call] in
theorem runCalls_rejected {order : List Call} {ctx : ExecutionContext} {seq : Db}
    {responses : List ApiResponse} {ls : Call → CallState}
    (hfresh : ∀ c ∈ order, takesLock (sql c) = false → ls c = started (sql c))
    (hrun : runCalls disk ctx ((order.filter (fun c => takesLock (sql c))).map sql) =
      .ok (seq.disk, seq.ctx, responses))
    (hanswers : responses.map (fun r => CallState.returned (.ok r)) =
      (order.filter (fun c => takesLock (sql c))).map ls) :
    ∃ responses', runCalls disk ctx (order.map sql) = .ok (seq.disk, seq.ctx, responses') ∧
      responses'.map (fun r => CallState.returned (.ok r)) = order.map ls := by
  induction order generalizing disk ctx responses with
  | nil => exact ⟨responses, hrun, hanswers⟩
  | cons c order ih =>
    have hfresh' : ∀ d ∈ order, takesLock (sql d) = false → ls d = started (sql d) :=
      fun d hd => hfresh d (List.mem_cons_of_mem _ hd)
    cases hlock : takesLock (sql c) with
    | true =>
      rw [List.filter_cons_of_pos (p := fun c => takesLock (sql c)) hlock, List.map_cons]
        at hrun hanswers
      obtain ⟨disk₁, ctx₁, response, rest, hcall, hrest, rfl⟩ := runCalls_cons.mp hrun
      rw [List.map_cons, List.cons.injEq] at hanswers
      obtain ⟨responses', hrun', hanswers'⟩ := ih hfresh' hrest hanswers.2
      refine ⟨response :: responses', ?_, ?_⟩
      · exact runCalls_cons.mpr ⟨disk₁, ctx₁, response, responses', hcall, hrun', rfl⟩
      · rw [List.map_cons, List.map_cons, hanswers', hanswers.1]
    | false =>
      rw [List.filter_cons_of_neg (by simp [hlock])] at hrun hanswers
      obtain ⟨responses', hrun', hanswers'⟩ := ih hfresh' hrun hanswers
      obtain ⟨response, hgate, hstarted⟩ := gate_rejects hlock
      refine ⟨response :: responses', ?_, ?_⟩
      · exact runCalls_cons.mpr
          ⟨disk, ctx, response, responses', call_rejected hgate ⟨disk, ctx⟩, hrun', rfl⟩
      · rw [List.map_cons, List.map_cons, hanswers',
          hfresh c List.mem_cons_self hlock, hstarted]

/-- A run whose calls have returned: its linearization, and where it ends. -/
theorem settled_linearized {events : List (Event Call)} {s : State Call Db CallState}
    (hrun : runEvents api (serverStart disk dbDir sql) events = some s)
    (hdone : ∀ c ∈ s.acquired, Returned (s.stage c)) :
    ∃ ls seq responses, (∀ c, s.stage c = .outside (ls c)) ∧ Good s.shared ∧ Same seq s.shared ∧
      Good seq ∧ (∀ c, c ∉ s.acquired → ls c = started (sql c)) ∧
      runCalls disk (initExecutionContext dbDir) (s.acquired.dedup.map sql) =
        .ok (seq.disk, seq.ctx, responses) ∧
      responses.map (fun r => CallState.returned (.ok r)) = s.acquired.dedup.map ls := by
  obtain ⟨hguarded, sh, ls, hatomic, hfollows⟩ := runEvents_atomic api_quiet hrun
  have hidle : ∀ c, (s.stage c).held = none := by
    intro c
    cases hheld : (s.stage c).held with
    | none => rfl
    | some access =>
      obtain ⟨response, hstage⟩ := hdone c (hguarded.entered c access hheld)
      rw [hstage] at hheld
      cases hheld
  obtain ⟨rfl, hstage⟩ := hfollows.settled hidle
  obtain ⟨pending, seq, responses, hlin⟩ := atomic_linearized hatomic
  obtain rfl : pending = [] := by
    apply List.eq_nil_iff_forall_not_mem.mpr
    intro c hc
    obtain ⟨hlog, stmt, -, hls⟩ := hlin.between c hc
    obtain ⟨response, hreturned⟩ := hdone c hlog
    rw [hstage c, hls] at hreturned
    cases hreturned
  obtain ⟨db', hloads, hsame⟩ := hlin.loads
  cases hloads
  have hall : s.acquired.dedup.filter (· ∉ ([] : List Call)) = s.acquired.dedup := by simp
  have hseq := hlin.run
  have hanswers := hlin.answers
  rw [hall] at hseq hanswers
  exact ⟨ls, seq, responses, hstage, (atomic_steady hatomic).good, hsame, hlin.good, hlin.fresh,
    hseq, hanswers⟩

omit [DecidableEq Call] in
theorem stages_of_answers {s : State Call Db CallState} {ls : Call → CallState}
    (hstage : ∀ c, s.stage c = .outside (ls c)) {order : List Call} {responses : List ApiResponse}
    (h : responses.map (fun r => CallState.returned (.ok r)) = order.map ls) :
    responses.map (fun r => Stage.outside (CallState.returned (.ok r))) = order.map s.stage := by
  have hstages : order.map s.stage = (order.map ls).map Stage.outside := by
    rw [List.map_map]
    exact List.map_congr_left (fun c _ => hstage c)
  rw [hstages, ← h, List.map_map]
  rfl

/-- Every run of the server, in whatever order its calls take and give back the lock, equals the
run of the same calls one after another in the order of their last locked sections. -/
theorem concurrent_calls_linearize (sql : Call → CString) (disk : Disk) (dbDir : CString)
    {events : List (Event Call)} {s : State Call Db CallState}
    (hrun : runEvents api (serverStart disk dbDir sql) events = some s)
    (hdone : ∀ c ∈ s.acquired, Returned (s.stage c))
    (order : List Call)
    (horder : order.filter (fun c => takesLock (sql c)) = s.acquired.dedup) :
    ∃ ctx' responses,
      runCalls disk (initExecutionContext dbDir) (order.map sql) =
        .ok (s.shared.disk, ctx', responses) ∧
      order.map s.stage = responses.map (fun r => Stage.outside (CallState.returned (.ok r))) ∧
      ctx'.tables.Perm s.shared.ctx.tables := by
  obtain ⟨ls, seq, responses, hstage, hgood, hsame, hgood', hnew, hseq, hanswers⟩ :=
    settled_linearized hrun hdone
  rw [← horder] at hseq hanswers
  have hfresh : ∀ c ∈ order, takesLock (sql c) = false → ls c = started (sql c) := by
    intro c _ hlock
    apply hnew
    intro hc
    have hmem := List.mem_dedup.mpr hc
    rw [← horder, List.mem_filter, hlock] at hmem
    exact absurd hmem.2 (by simp)
  obtain ⟨responses', hrun', hanswers'⟩ := runCalls_rejected hfresh hseq hanswers
  refine ⟨seq.ctx, responses', ?_, ?_, ?_⟩
  · rw [hsame.disk]
    exact hrun'
  · exact (stages_of_answers hstage hanswers').symm
  · apply KeyedStore.perm_of_find hgood'.unique hgood.unique
    intro name
    exact (hsame.cached name).symm

end Calls

def requests : Fin 3 → CString
  | 0 => .lit "SELECT * FROM users"
  | 1 => .lit "INSERT INTO users VALUES ('kim')"
  | 2 => .lit "SELECT name FROM users WHERE id = 1;"

/-- The INSERT comes between the load and the read of the first query, and the two queries read
at the same time. -/
def schedule : List (Event (Fin 3)) :=
  [.acquire 0, .run 0, .release 0, .acquire 1, .run 1, .release 1, .acquire 2, .run 2, .release 2,
    .acquire 0, .acquire 2, .run 2, .run 0, .release 0, .release 2]

theorem insert_between_load_and_read : ∃ s ctx' responses,
    runEvents api (serverStart usersDisk (.lit "db") requests) schedule = some s ∧
    runCalls usersDisk (initExecutionContext (.lit "db")) ([1, 0, 2].map requests) =
      .ok (s.shared.disk, ctx', responses) ∧
    [1, 0, 2].map s.stage = responses.map (fun r => Stage.outside (CallState.returned (.ok r))) ∧
    ctx'.tables.Perm s.shared.ctx.tables := by
  have heval : (runEvents api (serverStart usersDisk (.lit "db") requests) schedule).map
      (fun s => (s.acquired, [0, 1, 2].map (fun c => decide (Returned (s.stage c))))) =
        some ([0, 1, 2, 0, 2], [true, true, true]) := by decide +kernel
  obtain ⟨s, hs, hstate⟩ := Option.map_eq_some_iff.mp heval
  simp only [Prod.mk.injEq, List.map_cons, List.map_nil, List.cons.injEq, decide_eq_true_eq,
    and_true] at hstate
  obtain ⟨hacquired, h0, h1, h2⟩ := hstate
  have hdone : ∀ c ∈ s.acquired, Returned (s.stage c) := by
    intro c _
    fin_cases c
    · exact h0
    · exact h1
    · exact h2
  have horder : ([1, 0, 2] : List (Fin 3)).filter (fun c => takesLock (requests c)) =
      s.acquired.dedup := by
    rw [hacquired]
    decide +kernel
  obtain ⟨ctx', responses, hseq, hanswers, hperm⟩ :=
    concurrent_calls_linearize requests usersDisk (.lit "db") hs hdone [1, 0, 2] horder
  exact ⟨s, ctx', responses, hs, hseq, hanswers, hperm⟩

end ApiLinearizability
