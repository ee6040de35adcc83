import ThreadedDb.ApiLinearizability

/-!
# Generated ids under concurrency

The calls on one id table, whatever their interleaving: the ids that the INSERTs are given count
up from the next id that the table was loaded with, and the file gets one row for each.
-/
namespace IdAllocation

open ByteText
open SchemaModel
open StorageModel
open StorageRoundTrip
open LineFraming (Terminated)
open SqlFrontEnd
open RuntimeModel
open IndexBuild
open ExecutorModel
open TableCache
open StatementRuns
open IndexCoherence
open SelectSpec
open DbApiModel
open ParserBounds
open TableSections
open LockedSections
open ConcurrentCalls
open ApiLinearizability
open CheckedArray (ok_bind)

structure Stands (dbDir name : CString) (db : Db) (disk₁ : Disk) (table : TableRuntime) (i : ℕ)
    (rows : List (ℕ × Row)) : Prop where
  dir : db.ctx.dbDir = dbDir
  resolved : resolve db.disk db.ctx name = .ok (disk₁, .ok table)
  sound : Sound table
  terminated : Terminated 10 (file disk₁ dbDir name)
  coherent : Coherent (disk₁ (dataPath dbDir name)) table
  id_column : table.idColumnIndex = some i
  decoded : decodeFile table.schema.columnCount (file disk₁ dbDir name) = some rows

section Stands

variable {dbDir name : CString} {db db' : Db} {disk₁ : Disk} {table : TableRuntime} {i : ℕ}
  {rows : List (ℕ × Row)}

theorem Stands.table_name (h : Stands dbDir name db disk₁ table i rows) : table.tableName = name :=
  resolve_name h.resolved

theorem Stands.built (h : Stands dbDir name db disk₁ table i rows) : ∃ entries,
    Built table.schema.columnCount i (file disk₁ dbDir name) table.idIndex rows entries := by
  obtain ⟨rows', entries, hb, -⟩ := h.coherent.indexed i h.id_column
  have hrows : rows' = rows := Option.some.inj (hb.decoded.symm.trans h.decoded)
  subst hrows
  exact ⟨entries, hb⟩

theorem stands_start {disk : Disk} (hterm : Terminated 10 (file disk dbDir name))
    (hload : loadTableRuntime disk dbDir name = .ok (disk₁, .ok table))
    (hid : table.idColumnIndex = some i) : ∃ rows,
      deliveredRows disk dbDir name table.schema.columnCount = .ok (.ok rows) ∧
      Stands dbDir name ⟨disk, initExecutionContext dbDir⟩ disk₁ table i rows := by
  have hresolve : resolve disk (initExecutionContext dbDir) name = .ok (disk₁, .ok table) := hload
  have hfile := resolve_file hresolve dbDir name
  obtain ⟨rows, entries, hb, -⟩ := (coherent_load hload).indexed i hid
  have hdec : decodeFile table.schema.columnCount (file disk₁ dbDir name) = some rows := hb.decoded
  refine ⟨rows, ?_, rfl, hresolve, sound_load hload, ?_, coherent_load hload, hid, hdec⟩
  · apply (deliveredRows_iff _ _ _ _ _).mpr
    rw [hfile] at hdec
    exact hdec
  · rw [hfile]
    exact hterm

theorem Stands.kept (h : Stands dbDir name db disk₁ table i rows)
    (hdisk : db'.disk = disk₁) (hctx : db'.ctx = remember db.ctx table) :
    Stands dbDir name db' disk₁ table i rows := by
  refine ⟨?_, ?_, h.sound, h.terminated, h.coherent, h.id_column, h.decoded⟩
  · rw [hctx, remember_dbDir, h.dir]
  · rw [hctx, hdisk]
    exact resolve_remembered h.table_name _

theorem Stands.same (h : Stands dbDir name db disk₁ table i rows) (hsame : Same db db') :
    Stands dbDir name db' disk₁ table i rows := by
  refine ⟨hsame.dbDir.trans h.dir, ?_, h.sound, h.terminated, h.coherent, h.id_column, h.decoded⟩
  have hresolved := h.resolved
  unfold resolve at hresolved ⊢
  rw [hsame.cached, hsame.disk, hsame.dbDir]
  exact hresolved

theorem stands_preload (h : Stands dbDir name db disk₁ table i rows)
    {out : Except EngineError Unit} (hrun : (preload name).run db = .ok (db', out)) :
    out = .ok () ∧ Stands dbDir name db' disk₁ table i rows := by
  rw [preload_resolved h.resolved] at hrun
  cases hrun
  exact ⟨rfl, h.kept rfl rfl⟩

theorem stands_inserted (h : Stands dbDir name db disk₁ table i rows) {row : Row}
    {table' : TableRuntime} {generatedId : Option UInt64}
    (hinsert : Inserted table row (file disk₁ dbDir name).length table' generatedId)
    (hdisk : db'.disk = Function.update disk₁ (dataPath dbDir name)
      (some (file disk₁ dbDir name ++ encodeRow row)))
    (hctx : db'.ctx = remember db.ctx table') :
    Stands dbDir name db' db'.disk table' i
      (rows ++ [((file disk₁ dbDir name).length, storedRow row)]) := by
  obtain ⟨hkeep, hschema, hcol⟩ := hinsert.keeps
  have hname' : table'.tableName = name := hkeep.trans h.table_name
  have hfile : file db'.disk dbDir name = file disk₁ dbDir name ++ encodeRow row := by
    rw [hdisk, file, Function.update_self, Option.getD_some]
  obtain ⟨contents, hcontents⟩ := h.coherent.present
  have hold : file disk₁ dbDir name = contents := by
    rw [file, hcontents, Option.getD_some]
  refine ⟨?_, ?_, sound_inserted h.sound hinsert, ?_, ?_, hcol.trans h.id_column, ?_⟩
  · rw [hctx, remember_dbDir, h.dir]
  · rw [hctx]
    exact resolve_remembered hname' _
  · rw [hfile]
    exact terminated_encodeRow _ _
  · rw [hdisk, Function.update_self, hold]
    rw [hold] at hinsert
    exact coherent_inserted h.sound (hold ▸ h.terminated) (hcontents ▸ h.coherent) hinsert
  · rw [hfile, hschema]
    exact decodeFile_append h.terminated h.decoded (InsertSpec.row_ne_nil hinsert.row_length)
      hinsert.row_length

/-- A statement on the table keeps it, or is an INSERT that takes the next id. -/
theorem stands_execute (h : Stands dbDir name db disk₁ table i rows) {stmt : Statement}
    (hname : stmt.tableName = name) {disk' : Disk} {ctx' : ExecutionContext}
    {out : Except EngineError ExecResult} (heffect : Effect db.disk db.ctx stmt disk' ctx' out) :
    (Stands dbDir name ⟨disk', ctx'⟩ disk₁ table i rows ∧
      ∀ ins, stmt = .insert ins → ∃ e, out = .error e) ∨
    ∃ ins table' offset row, stmt = .insert ins ∧ table.nextId ≠ 0 ∧
      out = .ok (insertResult (some table.nextId)) ∧ table'.schema = table.schema ∧
      table'.nextId = table.nextId + 1 ∧ row[i]? = some (decimal table.nextId.toNat) ∧
      Stands dbDir name ⟨disk', ctx'⟩ disk' table' i (rows ++ [(offset, row)]) := by
  obtain rfl := h.dir
  subst hname
  have hsame {d : Disk} {t : TableRuntime}
      (hres : resolve db.disk db.ctx stmt.tableName = .ok (d, .ok t)) : d = disk₁ ∧ t = table := by
    rw [h.resolved] at hres
    cases hres
    exact ⟨rfl, rfl⟩
  cases heffect with
  | loadFailed _ hresolve =>
    rw [h.resolved] at hresolve
    cases hresolve
  | rejected ins hresolve hreject =>
    obtain ⟨rfl, rfl⟩ := hsame hresolve
    exact Or.inl ⟨h.kept rfl rfl, fun _ _ => ⟨_, rfl⟩⟩
  | selected query hresolve hselect =>
    obtain ⟨rfl, rfl⟩ := hsame hresolve
    exact Or.inl ⟨h.kept rfl rfl, fun _ heq => by cases heq⟩
  | @inserted ins d t table' row generatedId hresolve hinsert =>
    obtain ⟨rfl, rfl⟩ := hsame hresolve
    right
    obtain ⟨hnext, rfl, hat, tree, -, htable⟩ := hinsert.generated i h.id_column
    refine ⟨ins, table', _, storedRow row, rfl, hnext, rfl, hinsert.keeps.2.1, ?_, ?_,
      stands_inserted h hinsert rfl rfl⟩
    · rw [htable]
    · exact storedRow_get hat (decimal_no_cr _)

end Stands

/-- The ids count up from `next`, and the counter did not pass 0 on the way. -/
structure Consecutive (next : UInt64) (ids : List UInt64) : Prop where
  values : ids.map UInt64.toNat = List.range' next.toNat ids.length
  nonzero : 0 ∉ ids

theorem consecutive_cons {next : UInt64} {ids : List UInt64} (hnext : next ≠ 0)
    (h : Consecutive (next + 1) ids) : Consecutive next (next :: ids) := by
  refine ⟨?_, ?_⟩
  · rw [List.map_cons, List.length_cons, List.range'_succ, h.values]
    congr 1
    cases ids with
    | nil => rfl
    | cons id ids =>
      have hvalues := h.values
      rw [List.map_cons, List.length_cons, List.range'_succ, List.cons.injEq] at hvalues
      have hid : id = next + 1 := UInt64.toNat_inj.mp hvalues.1
      have hne : next + 1 ≠ 0 := by
        rintro heq
        exact h.nonzero (by rw [hid, heq]; exact List.mem_cons_self)
      rw [toNat_succ hne]
  · rintro hmem
    rcases List.mem_cons.mp hmem with heq | hmem
    · exact hnext heq.symm
    · exact h.nonzero hmem

def isInsert (text : CString) : Bool :=
  match gate text with
  | .ok (.ok (.insert _)) => true
  | _ => false

def insertedResponse (id : UInt64) : ApiResponse where
  status := .ok
  httpStatus := 200
  json := ascii "\x7b\"success\":true,\"type\":\"insert\",\"affected_rows\":1,\"generated_id\":" ++
    appendU64Value id ++ ascii "\x7d"

theorem executed_inserted (id : UInt64) :
    executedResponse (.ok (insertResult (some id))) = .ok (insertedResponse id) := by
  have hjson : ascii "\x7b\"success\":true,\"type\":\"insert\",\"affected_rows\":" ++
      appendSizeValue 1 ++ ascii ",\"generated_id\":" =
      ascii "\x7b\"success\":true,\"type\":\"insert\",\"affected_rows\":1,\"generated_id\":" := by
    decide +kernel
  simp only [executedResponse, makeSuccessJson, insertResult, insertedResponse, ok_bind, ← hjson,
    List.append_assoc]

def accepted (text : CString) (response : ApiResponse) : Bool :=
  isInsert text && response.httpStatus = 200

theorem engineError_status (fallback : CString) (e : EngineError) :
    (engineErrorResponse fallback e).httpStatus ≠ 200 := by
  cases hstatus : e.status
  all_goals simp [engineErrorResponse, mapEngineStatus, hstatus]

section Calls

variable {dbDir name : CString} {db : Db} {disk₁ : Disk} {table : TableRuntime} {i : ℕ}
  {rows : List (ℕ × Row)}

/-- What a call on the table does: it leaves it, or it inserts a row with the next id. -/
theorem call_cases (h : Stands dbDir name db disk₁ table i rows) (hgood : Good db) {text : CString}
    (hone : ∀ stmt, gate text = .ok (.ok stmt) → stmt.tableName = name) {disk' : Disk}
    {ctx' : ExecutionContext} {response : ApiResponse}
    (hcall : dbApiExecuteSql db.disk db.ctx text = .ok (disk', ctx', response)) :
    Good ⟨disk', ctx'⟩ ∧
    ((accepted text response = false ∧ Stands dbDir name ⟨disk', ctx'⟩ disk₁ table i rows) ∨
    (accepted text response = true ∧ response = insertedResponse table.nextId ∧ table.nextId ≠ 0 ∧
      ∃ table' offset row, table'.schema = table.schema ∧ table'.nextId = table.nextId + 1 ∧
        row[i]? = some (decimal table.nextId.toNat) ∧
        Stands dbDir name ⟨disk', ctx'⟩ disk' table' i (rows ++ [(offset, row)]))) := by
  obtain ⟨g, hgate⟩ := gate_total text
  cases g with
  | error rejection =>
    rw [call_rejected hgate db] at hcall
    cases hcall
    exact ⟨hgood, Or.inl ⟨by simp [accepted, isInsert, hgate], h⟩⟩
  | ok stmt =>
    have hname := hone stmt hgate
    cases stmt with
    | insert ins =>
      obtain ⟨db', out, r, hrun, hgood', hr, -⟩ := execute_ends hgood (.insert ins)
      rw [call_insert hgate hrun hr] at hcall
      cases hcall
      refine ⟨hgood', ?_⟩
      rcases stands_execute h hname (execute_effect hgood hrun) with ⟨hstands, herror⟩ |
        ⟨ins', table', offset, row, hins, hnext, rfl, hschema, hnext', hat, hstands⟩
      · left
        obtain ⟨e, rfl⟩ := herror ins rfl
        cases hr
        exact ⟨by simp [accepted, engineError_status], hstands⟩
      · right
        rw [executed_inserted] at hr
        cases hr
        refine ⟨?_, rfl, hnext, table', offset, row, hschema, hnext', hat, hstands⟩
        simp [accepted, isInsert, hgate, insertedResponse]
    | select query =>
      have hinsert : isInsert text = false := by simp [isInsert, hgate]
      obtain ⟨db₁, loaded, hload, hgood₁⟩ := preload_ends hgood query.tableName
      subst hname
      obtain ⟨rfl, hstands₁⟩ := stands_preload h hload
      obtain ⟨db', out, r, hrun, hgood', hr, -⟩ := execute_ends hgood₁ (.select query)
      rw [call_select hgate hload hrun hr] at hcall
      cases hcall
      refine ⟨hgood', ?_⟩
      rcases stands_execute hstands₁ rfl (execute_effect hgood₁ hrun) with ⟨hstands, -⟩ |
        ⟨ins', table', offset, row, hins, -⟩
      · exact Or.inl ⟨by simp [accepted, hinsert], hstands⟩
      · cases hins

theorem run_allots {texts : List CString} (h : Stands dbDir name db disk₁ table i rows)
    (hgood : Good db) (hone : ∀ text ∈ texts, ∀ stmt, gate text = .ok (.ok stmt) →
      stmt.tableName = name) {disk' : Disk} {ctx' : ExecutionContext}
    {responses : List ApiResponse}
    (hrun : runCalls db.disk db.ctx texts = .ok (disk', ctx', responses)) :
    ∃ (ids : List UInt64) (new : List (ℕ × Row)) (disk₂ : Disk) (table' : TableRuntime),
      Stands dbDir name ⟨disk', ctx'⟩ disk₂ table' i (rows ++ new) ∧
      table'.schema = table.schema ∧
      ((texts.zip responses).filter (fun p => accepted p.1 p.2)).map Prod.snd =
        ids.map insertedResponse ∧
      Consecutive table.nextId ids ∧
      new.map (fun r => r.2[i]?) = ids.map (fun id => some (decimal id.toNat)) := by
  induction texts generalizing db disk₁ table rows responses with
  | nil =>
    cases hrun
    refine ⟨[], [], disk₁, table, ?_, rfl, rfl, ⟨rfl, by simp⟩, rfl⟩
    rw [List.append_nil]
    exact h
  | cons text texts ih =>
    obtain ⟨disk₂, ctx₂, response, rest, hcall, hrest, rfl⟩ := runCalls_cons.mp hrun
    obtain ⟨hgood₂, hcases⟩ := call_cases h hgood (hone text List.mem_cons_self) hcall
    have hone' : ∀ text ∈ texts, ∀ stmt, gate text = .ok (.ok stmt) → stmt.tableName = name :=
      fun t ht => hone t (List.mem_cons_of_mem _ ht)
    rcases hcases with ⟨hnot, hstands⟩ |
      ⟨hyes, rfl, hnext, table', offset, row, hschema, hnext', hat, hstands⟩
    · obtain ⟨ids, new, disk₃, table₃, hend, hschema, hids, hcons, hnew⟩ :=
        ih hstands hgood₂ hone' hrest
      refine ⟨ids, new, disk₃, table₃, hend, hschema, ?_, hcons, hnew⟩
      rw [List.zip_cons_cons, List.filter_cons_of_neg (by simp [hnot]), hids]
    · obtain ⟨ids, new, disk₃, table₃, hend, hschema', hids, hcons, hnew⟩ :=
        ih hstands hgood₂ hone' hrest
      rw [hnext'] at hcons
      refine ⟨table.nextId :: ids, (offset, row) :: new, disk₃, table₃, ?_, ?_, ?_, ?_, ?_⟩
      · rw [List.append_assoc, List.singleton_append] at hend
        exact hend
      · rw [hschema', hschema]
      · rw [List.zip_cons_cons, List.filter_cons_of_pos (by simp [hyes]), List.map_cons, hids,
          List.map_cons]
      · exact consecutive_cons hnext hcons
      · rw [List.map_cons, List.map_cons, hnew, hat]

end Calls

def allRows (schema : TableSchema) (rows : List Row) : ExecResult :=
  ⟨.select, rows.length, ⟨schema.columns, rows⟩, false, none⟩

theorem projectSingleRow_all {schema : TableSchema} {row : Row} (name : CString)
    (h : row.length = schema.columnCount) :
    projectSingleRow schema ⟨name, true, [], none⟩ row = row := by
  unfold projectSingleRow
  rw [if_pos rfl]
  apply List.ext_getElem?
  intro j
  rw [List.getElem?_map]
  by_cases hj : j < schema.columnCount
  · rw [List.getElem?_range hj, Option.map_some, projectedValue, List.getD_eq_getElem?_getD,
      List.getElem?_eq_getElem (h ▸ hj), Option.getD_some]
  · rw [List.getElem?_eq_none (by simpa using hj), List.getElem?_eq_none (by omega)]
    rfl

theorem selectedRows_all {schema : TableSchema} {contents : Bytes} {rows : List (ℕ × Row)}
    (name : CString) (h : decodeFile schema.columnCount contents = some rows) :
    selectedRows schema ⟨name, true, [], none⟩ rows = rows.map Prod.snd := by
  unfold selectedRows
  have hall : (rows.map Prod.snd).filter
      (fun row => Wanted schema ⟨name, true, [], none⟩ row) = rows.map Prod.snd := by
    rw [List.filter_eq_self]
    intro row _
    simp [Wanted]
  rw [hall]
  have hproject : (rows.map Prod.snd).map (projectSingleRow schema ⟨name, true, [], none⟩) =
      (rows.map Prod.snd).map id := by
    apply List.map_congr_left
    intro row hrow
    obtain ⟨⟨o, row⟩, hmem, rfl⟩ := List.mem_map.mp hrow
    exact projectSingleRow_all name (decoded_lengths h hmem)
  rw [hproject, List.map_id]

theorem stands_selectAll {dbDir name : CString} {db : Db} {disk₁ : Disk} {table : TableRuntime}
    {i : ℕ} {rows : List (ℕ × Row)} (h : Stands dbDir name db disk₁ table i rows) :
    (execute (.select ⟨name, true, [], none⟩)).run db = .ok (⟨disk₁, remember db.ctx table⟩,
      .ok (allRows table.schema (rows.map Prod.snd))) := by
  have hdec := h.decoded
  rw [← h.table_name] at hdec
  have hselect : selectFrom disk₁ dbDir table ⟨name, true, [], none⟩ =
      .ok (.ok (allRows table.schema (rows.map Prod.snd))) := by
    have hcan : canUseIdIndex table ⟨name, true, [], none⟩ = none := by
      unfold canUseIdIndex
      split
      · rfl
      · rfl
    have hvalid : validateSelectColumns table.schema ⟨name, true, [], none⟩ = .ok () := rfl
    unfold selectFrom
    rw [hvalid]
    dsimp only
    rw [hcan]
    dsimp only
    rw [fullScan_selects _ hdec, ok_bind, selectedRows_all name hdec]
    rfl
  apply run_worked h.resolved
  change selectWork ⟨name, true, [], none⟩ disk₁ db.ctx.dbDir table = _
  rw [selectWork, h.dir, hselect, ok_bind]

theorem consecutive_get {next : UInt64} {ids : List UInt64} (h : Consecutive next ids) {j : ℕ}
    {id : UInt64} (hj : ids[j]? = some id) : id.toNat = next.toNat + j := by
  have hmap : (ids.map UInt64.toNat)[j]? = some id.toNat := by
    rw [List.getElem?_map, hj, Option.map_some]
  rw [h.values, List.getElem?_range' (List.getElem?_eq_some_iff.mp hj).1] at hmap
  have := Option.some.inj hmap
  omega

theorem insertedResponse_inj {id id' : UInt64} (hid : id' ≠ 0)
    (h : insertedResponse id = insertedResponse id') : id = id' := by
  have hjson := congrArg ApiResponse.json h
  simp only [insertedResponse, List.append_cancel_left_eq, List.append_cancel_right_eq] at hjson
  exact decimal_of_id hid (CString.ext hjson)

def succeeded : Stage CallState → Bool
  | .outside (.returned (.ok response)) => response.httpStatus = 200
  | _ => false

section Runs

variable {Call : Type} [DecidableEq Call] {sql : Call → CString}

/-- The calls that inserted a row, in the order in which they took the lock; an INSERT takes it
once. -/
def insertedCalls (sql : Call → CString) (s : State Call Db CallState) : List Call :=
  s.acquired.dedup.filter (fun c => isInsert (sql c) && succeeded (s.stage c))

omit [DecidableEq Call] in
/-- The accepted responses of a sequential run are those of the calls that succeeded. -/
theorem filter_answers {stage : Call → Stage CallState} {order : List Call}
    {responses : List ApiResponse}
    (h : responses.map (fun r => Stage.outside (CallState.returned (.ok r))) = order.map stage) :
    (order.filter (fun c => isInsert (sql c) && succeeded (stage c))).map stage =
      ((((order.map sql).zip responses).filter (fun p => accepted p.1 p.2)).map Prod.snd).map
        (fun r => Stage.outside (CallState.returned (.ok r))) := by
  induction order generalizing responses with
  | nil => rfl
  | cons c order ih =>
    cases responses with
    | nil => cases h
    | cons r responses =>
      rw [List.map_cons, List.map_cons, List.cons.injEq] at h
      have hsame : (isInsert (sql c) && succeeded (stage c)) = accepted (sql c) r := by
        rw [← h.1]
        rfl
      rw [List.map_cons, List.zip_cons_cons, List.filter_cons, List.filter_cons, hsame]
      split
      · rw [List.map_cons, List.map_cons, List.map_cons, ih h.2, h.1]
      · exact ih h.2

/-- The ids of the rows that a run inserted, in the order of their INSERTs. -/
structure IdsAllotted (sql : Call → CString) (name : CString) (table : TableRuntime) (i : ℕ)
    (s : State Call Db CallState) (rows : List Row) (ids : List UInt64) (new : List Row) :
    Prop where
  answered : (insertedCalls sql s).map s.stage =
    ids.map (fun id => Stage.outside (CallState.returned (.ok (insertedResponse id))))
  consecutive : ids.map UInt64.toNat = List.range' table.nextId.toNat ids.length
  nonzero : 0 ∉ ids
  fresh : ∀ id ∈ ids, ∀ row ∈ rows, row[i]? ≠ some (decimal id.toNat)
  exhausted : ∀ before c after, s.acquired.dedup = before ++ c :: after →
    isInsert (sql c) = true →
    s.stage c = .outside (.returned (.ok (insertedResponse (UInt64.ofNat uint64Max)))) →
    ∀ d ∈ after, isInsert (sql d) = true → succeeded (s.stage d) = false
  stored : new.map (fun row => row[i]?) = ids.map (fun id => some (decimal id.toNat))
  final : ∀ text, gate text = .ok (.ok (.select ⟨name, true, [], none⟩)) →
    ∃ disk' ctx' response,
      dbApiExecuteSql s.shared.disk s.shared.ctx text = .ok (disk', ctx', response) ∧
      executedResponse (.ok (allRows table.schema (rows ++ new))) = .ok response

theorem exhausted_after {s : State Call Db CallState} {next : UInt64} {ids : List UInt64}
    (hanswered : (insertedCalls sql s).map s.stage =
      ids.map (fun id => Stage.outside (CallState.returned (.ok (insertedResponse id)))))
    (hcons : Consecutive next ids) {before after : List Call} {c d : Call}
    (horder : s.acquired.dedup = before ++ c :: after) (hc : isInsert (sql c) = true)
    (hlast : s.stage c =
      .outside (.returned (.ok (insertedResponse (UInt64.ofNat uint64Max)))))
    (hd : d ∈ after) (hinsert : isInsert (sql d) = true) : succeeded (s.stage d) = false := by
  by_contra hsucc
  rw [Bool.not_eq_false] at hsucc
  -- both calls are on the list of those that inserted, this one behind
  have hsplit : insertedCalls sql s =
      before.filter (fun c => isInsert (sql c) && succeeded (s.stage c)) ++
        c :: after.filter (fun c => isInsert (sql c) && succeeded (s.stage c)) := by
    rw [insertedCalls, horder, List.filter_append, List.filter_cons_of_pos]
    rw [hc, hlast]
    rfl
  have hmem : d ∈ after.filter (fun c => isInsert (sql c) && succeeded (s.stage c)) := by
    rw [List.mem_filter]
    exact ⟨hd, by rw [hinsert, hsucc]; rfl⟩
  obtain ⟨j, hj⟩ := List.mem_iff_getElem?.mp hmem
  have hat {p : ℕ} {x : Call} (hx : (insertedCalls sql s)[p]? = some x) : ∃ id,
      ids[p]? = some id ∧ s.stage x = .outside (.returned (.ok (insertedResponse id))) := by
    have hmap := congrArg (fun l => l[p]?) hanswered
    simp only [List.getElem?_map, hx, Option.map_some] at hmap
    obtain ⟨id, hid, heq⟩ := Option.map_eq_some_iff.mp hmap.symm
    exact ⟨id, hid, heq.symm⟩
  have hfirst : (insertedCalls sql s)[(before.filter
      (fun c => isInsert (sql c) && succeeded (s.stage c))).length]? = some c := by
    rw [hsplit, List.getElem?_append_right le_rfl, Nat.sub_self]
    rfl
  have hsecond : (insertedCalls sql s)[(before.filter
      (fun c => isInsert (sql c) && succeeded (s.stage c))).length + (j + 1)]? = some d := by
    rw [hsplit, List.getElem?_append_right (Nat.le_add_right _ _), Nat.add_sub_cancel_left,
      List.getElem?_cons_succ]
    exact hj
  obtain ⟨id, hid, hstage⟩ := hat hfirst
  obtain ⟨id', hid', -⟩ := hat hsecond
  rw [hlast] at hstage
  simp only [Stage.outside.injEq, CallState.returned.injEq, Except.ok.injEq] at hstage
  have hmax := insertedResponse_inj (by decide) hstage.symm
  have hvalue := consecutive_get hcons hid
  have hvalue' := consecutive_get hcons hid'
  have hlt : id'.toNat < 2 ^ 64 := id'.toNat_lt
  have hmaxvalue : id.toNat = 2 ^ 64 - 1 := by rw [hmax]; decide
  omega

/-- For calls on one id table in any interleaving that the lock permits: the ids given out count
up from the next id that the table was loaded with, in the order in which the INSERTs took the
lock, and the file ends with one new row for each. -/
theorem generated_ids_count_up (sql : Call → CString) (disk : Disk) (dbDir name : CString)
    (hone : ∀ c stmt, gate (sql c) = .ok (.ok stmt) → stmt.tableName = name)
    (hfile : Terminated 10 (file disk dbDir name)) {disk₁ : Disk} {table : TableRuntime} {i : ℕ}
    (hload : loadTableRuntime disk dbDir name = .ok (disk₁, .ok table))
    (hid : table.idColumnIndex = some i) {events : List (Event Call)}
    {s : State Call Db CallState}
    (hrun : runEvents api (serverStart disk dbDir sql) events = some s)
    (hdone : ∀ c ∈ s.acquired, Returned (s.stage c)) :
    ∃ rows ids new, deliveredRows disk dbDir name table.schema.columnCount = .ok (.ok rows) ∧
      IdsAllotted sql name table i s (rows.map Prod.snd) ids new := by
  obtain ⟨rows, hdelivered, hstands⟩ := stands_start hfile hload hid
  obtain ⟨ls, seq, responses, hstage, hgood, hsame, hgood', -, hseq, hanswers⟩ :=
    settled_linearized hrun hdone
  have hone' : ∀ text ∈ s.acquired.dedup.map sql, ∀ stmt, gate text = .ok (.ok stmt) →
      stmt.tableName = name := by
    intro text htext
    obtain ⟨c, -, rfl⟩ := List.mem_map.mp htext
    exact hone c
  obtain ⟨ids, new, disk₂, table', hend, hschema, hids, hcons, hnew⟩ :=
    run_allots hstands (good_init disk dbDir) hone' hseq
  have hanswered : (insertedCalls sql s).map s.stage =
      ids.map (fun id => Stage.outside (CallState.returned (.ok (insertedResponse id)))) := by
    rw [insertedCalls, filter_answers (stages_of_answers hstage hanswers), hids, List.map_map]
    rfl
  have hstored : (new.map Prod.snd).map (fun row => row[i]?) =
      ids.map (fun id => some (decimal id.toNat)) := by
    rw [List.map_map, ← hnew]
    rfl
  refine ⟨rows, ids, new.map Prod.snd, hdelivered, hanswered, hcons.values, hcons.nonzero, ?_, ?_,
    hstored, ?_⟩
  · intro id hmem row hrow heq
    obtain ⟨entries, hb⟩ := hend.built
    have hdistinct := ids_distinct hb
    rw [List.map_append, hnew] at hdistinct
    obtain ⟨r, hr, rfl⟩ := List.mem_map.mp hrow
    refine (List.nodup_append.mp hdistinct).2.2 _ (List.mem_map_of_mem hr) _ ?_ heq
    exact List.mem_map_of_mem hmem
  · intro before c after horder hc hlast d hd hinsert
    exact exhausted_after hanswered hcons horder hc hlast hd hinsert
  · intro text htext
    obtain ⟨db₁, loaded, hload₁, hgood₁⟩ := preload_ends hgood name
    obtain ⟨rfl, hstands₁⟩ := stands_preload (hend.same hsame) hload₁
    have hselect := stands_selectAll hstands₁
    obtain ⟨db₂, out, response, hrun₂, -, hresponse, -⟩ :=
      execute_ends hgood₁ (.select ⟨name, true, [], none⟩)
    rw [hselect] at hrun₂
    cases hrun₂
    refine ⟨_, _, response, call_select htext hload₁ hselect hresponse, ?_⟩
    rw [← List.map_append, ← hschema]
    exact hresponse

end Runs

/-- Two INSERTs around one that has too many values, and two queries. -/
def usersRequests : Fin 5 → CString
  | 0 => .lit "SELECT * FROM users"
  | 1 => .lit "INSERT INTO users VALUES ('kim')"
  | 2 => .lit "INSERT INTO users VALUES (7, 'lee')"
  | 3 => .lit "SELECT * FROM users WHERE id = 2"
  | 4 => .lit "INSERT INTO users VALUES ('lee')"

def usersSchedule : List (Event (Fin 5)) :=
  [.acquire 0, .run 0, .release 0, .acquire 4, .run 4, .release 4, .acquire 2, .run 2, .release 2,
    .acquire 3, .run 3, .release 3, .acquire 0, .acquire 3, .run 3, .run 0, .release 0, .release 3,
    .acquire 1, .run 1, .release 1]

/-- The ids 1 and 2 go to the two INSERTs that are accepted, in the order of the lock. -/
theorem users_ids_count_up : ∃ s table rows ids new,
    runEvents api (serverStart usersDisk (.lit "db") usersRequests) usersSchedule = some s ∧
    IdsAllotted usersRequests (.lit "users") table 0 s rows ids new ∧
    insertedCalls usersRequests s = [4, 1] ∧ ids.map UInt64.toNat = [1, 2] := by
  have hgates : ∀ c : Fin 5, (gate (usersRequests c)).toOption.bind
      (fun r => r.toOption.map Statement.tableName) = some (.lit "users") := by decide +kernel
  have hone : ∀ c stmt, gate (usersRequests c) = .ok (.ok stmt) →
      stmt.tableName = .lit "users" := by
    intro c stmt hgate
    have := hgates c
    rw [hgate] at this
    exact Option.some.inj this
  have hloaded : (loadTableRuntime usersDisk (.lit "db") (.lit "users")).toOption.map
      (fun r => r.2.toOption.map (fun t => (t.idColumnIndex, t.nextId))) =
        some (some (some 0, 1)) := by decide +kernel
  have hok {ε α : Type} {x : Except ε α} {a : α} (h : x.toOption = some a) : x = .ok a := by
    cases x with
    | error e => cases h
    | ok b =>
      cases h
      rfl
  obtain ⟨⟨disk₁, found⟩, hload, hfound⟩ := Option.map_eq_some_iff.mp hloaded
  obtain ⟨table, htable, hcolumn⟩ := Option.map_eq_some_iff.mp hfound
  obtain rfl := hok htable
  simp only [Prod.mk.injEq] at hcolumn
  have heval : (runEvents api (serverStart usersDisk (.lit "db") usersRequests)
      usersSchedule).map (fun s => (insertedCalls usersRequests s,
        (List.finRange 5).map (fun c => decide (Returned (s.stage c))))) =
        some ([4, 1], [true, true, true, true, true]) := by decide +kernel
  obtain ⟨s, hs, hstate⟩ := Option.map_eq_some_iff.mp heval
  simp only [Prod.mk.injEq] at hstate
  have hdone : ∀ c ∈ s.acquired, Returned (s.stage c) := by
    intro c _
    have hmem := List.mem_map_of_mem (f := fun c => decide (Returned (s.stage c)))
      (List.mem_finRange c)
    rw [hstate.2] at hmem
    simpa using hmem
  obtain ⟨rows, ids, new, -, hallotted⟩ := generated_ids_count_up usersRequests usersDisk
    (.lit "db") (.lit "users") hone (usersDisk_terminated _) (hok hload) hcolumn.1 hs hdone
  refine ⟨s, table, rows.map Prod.snd, ids, new, hs, hallotted, hstate.1, ?_⟩
  have hlength := congrArg List.length hallotted.answered
  rw [hstate.1, List.length_map, List.length_map] at hlength
  rw [hallotted.consecutive, ← hlength, hcolumn.2]
  decide

end IdAllocation
