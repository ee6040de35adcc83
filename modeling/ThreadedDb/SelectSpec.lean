import ThreadedDb.IndexCoherence

/-!
# What SELECT returns

A query picks the rows of the data file, in file order, whose WHERE field is the literal text,
and projects them column by column. Both paths of the executor compute this.
-/
namespace SelectSpec

open ByteText
open SchemaModel
open StorageModel
open StorageRoundTrip
open LineFraming (Terminated)
open SqlFrontEnd
open BPTreeHeap
open BPTreeMap
open RuntimeModel
open IndexBuild
open ExecutorModel
open TableCache
open InsertSpec
open StatementRuns
open IndexCoherence
open CheckedArray (ok_bind)

def fieldOf (schema : TableSchema) (row : Row) (column : CString) : Option CString :=
  (schemaFindColumnIndex schema column).bind (fun i => row[i]?)

def Wanted (schema : TableSchema) (stmt : SelectStatement) (row : Row) : Prop :=
  ∀ clause, stmt.whereClause = some clause →
    fieldOf schema row clause.columnName = some clause.value.text

instance (schema : TableSchema) (stmt : SelectStatement) (row : Row) :
    Decidable (Wanted schema stmt row) :=
  match h : stmt.whereClause with
  | none => isTrue (fun clause hc => by rw [h] at hc; cases hc)
  | some clause =>
    decidable_of_iff (fieldOf schema row clause.columnName = some clause.value.text)
      ⟨fun heq c hc => by rw [h] at hc; cases hc; exact heq, fun hall => hall clause h⟩

def queriedColumns (schema : TableSchema) (stmt : SelectStatement) : List CString :=
  if stmt.selectAll then schema.columns else stmt.columns

def queriedRows (schema : TableSchema) (stmt : SelectStatement) (rows : List Row) :
    List (List (Option CString)) :=
  (rows.filter (fun row => Wanted schema stmt row)).map
    (fun row => (queriedColumns schema stmt).map (fieldOf schema row))

theorem firstUnknown_none {schema : TableSchema} {columns : List CString}
    (h : firstUnknownColumn schema columns = none) :
    ∀ c ∈ columns, ∃ i, schemaFindColumnIndex schema c = some i := by
  induction columns with
  | nil => simp
  | cons column columns ih =>
    rw [firstUnknownColumn] at h
    cases hfind : schemaFindColumnIndex schema column with
    | none =>
      rw [hfind] at h
      cases h
    | some i =>
      rw [hfind] at h
      intro c hc
      rcases List.mem_cons.mp hc with rfl | hc
      · exact ⟨i, hfind⟩
      · exact ih h c hc

theorem validated_columns {schema : TableSchema} {stmt : SelectStatement}
    (h : validateSelectColumns schema stmt = .ok ()) :
    ∀ c ∈ queriedColumns schema stmt, ∃ i, schemaFindColumnIndex schema c = some i := by
  intro c hc
  unfold queriedColumns at hc
  by_cases hall : stmt.selectAll = true
  · rw [if_pos hall] at hc
    obtain ⟨j, hj⟩ := List.mem_iff_getElem?.mp hc
    exact ⟨j, findColumn_nth schema hj⟩
  · rw [if_neg hall] at hc
    unfold validateSelectColumns at h
    dsimp only at h
    split at h
    · cases h
    cases hunknown : firstUnknownColumn schema stmt.columns with
    | some column =>
      rw [hunknown] at h
      cases h
    | none => exact firstUnknown_none hunknown c hc

theorem fieldOf_known {schema : TableSchema} {row : Row} {c : CString}
    (hrow : row.length = schema.columnCount) {i : ℕ}
    (hi : schemaFindColumnIndex schema c = some i) :
    some (projectedValue row (some i)) = fieldOf schema row c := by
  have hlt : i < row.length := hrow ▸ (findColumn_spec hi).1
  simp only [projectedValue, fieldOf, hi, Option.bind_some, List.getD_eq_getElem?_getD,
    List.getElem?_eq_getElem hlt, Option.getD_some]

theorem projectSingleRow_fields {schema : TableSchema} {stmt : SelectStatement} {row : Row}
    (hvalid : validateSelectColumns schema stmt = .ok ())
    (hrow : row.length = schema.columnCount) :
    (projectSingleRow schema stmt row).map some =
      (queriedColumns schema stmt).map (fieldOf schema row) := by
  have hknown := validated_columns hvalid
  unfold projectSingleRow queriedColumns at *
  by_cases hall : stmt.selectAll = true
  · rw [if_pos hall] at hknown
    rw [if_pos hall, if_pos hall, List.map_map]
    apply List.ext_getElem?
    intro j
    rw [List.getElem?_map, List.getElem?_map]
    by_cases hj : j < schema.columnCount
    · have hcol : schema.columns[j]? = some schema.columns[j] := List.getElem?_eq_getElem hj
      rw [hcol, List.getElem?_range hj, Option.map_some, Option.map_some]
      exact congrArg some (fieldOf_known hrow (findColumn_nth schema hcol))
    · have hcol : schema.columns[j]? = none := List.getElem?_eq_none (not_lt.mp hj)
      rw [hcol, List.getElem?_eq_none (by simpa using hj)]
      rfl
  · rw [if_neg hall] at hknown
    rw [if_neg hall, if_neg hall, List.map_map]
    apply List.map_congr_left
    intro c hc
    obtain ⟨i, hi⟩ := hknown c hc
    simp only [Function.comp_apply, hi]
    exact fieldOf_known hrow hi

theorem rowMatches_wanted (schema : TableSchema) (stmt : SelectStatement) (row : Row) :
    rowMatchesWhereClause stmt (stmt.whereClause.bind
      (fun clause => schemaFindColumnIndex schema clause.columnName)) row =
      decide (Wanted schema stmt row) := by
  rw [Bool.eq_iff_iff, decide_eq_true_iff]
  unfold rowMatchesWhereClause Wanted fieldOf
  cases hwhere : stmt.whereClause with
  | none => simp
  | some clause =>
    simp only [Option.bind_some, Option.some.injEq, forall_eq']
    cases schemaFindColumnIndex schema clause.columnName with
    | none => simp
    | some i =>
      simp only [Option.bind_some]
      cases row[i]? with
      | none => simp
      | some v => simp

theorem foldRows_select (tableName : CString) (schema : TableSchema) (stmt : SelectStatement)
    (rows : List (ℕ × Row)) (found : List Row) :
    foldRows tableName (selectFullScanCallback schema stmt (stmt.whereClause.bind
      (fun clause => schemaFindColumnIndex schema clause.columnName))) rows found =
      .ok (.ok (found ++ ((rows.map Prod.snd).filter (fun row => Wanted schema stmt row)).map
        (projectSingleRow schema stmt))) := by
  induction rows generalizing found with
  | nil => simp [foldRows]
  | cons r rows ih =>
    rw [foldRows, selectFullScanCallback, rowMatches_wanted]
    by_cases hw : Wanted schema stmt r.2
    · rw [if_pos (decide_eq_true hw), ok_bind]
      simp [ih, hw]
    · rw [if_neg (by simpa using hw), ok_bind]
      simp [ih, hw]

section Table

variable {disk : Disk} {dbDir : CString} {table : TableRuntime} {stmt : SelectStatement}
  {rows : List (ℕ × Row)}

def selectedRows (schema : TableSchema) (stmt : SelectStatement) (rows : List (ℕ × Row)) :
    List Row :=
  ((rows.map Prod.snd).filter (fun row => Wanted schema stmt row)).map
    (projectSingleRow schema stmt)

theorem fullScan_selects (stmt : SelectStatement)
    (hdec : decodeFile table.schema.columnCount (file disk dbDir table.tableName) = some rows) :
    executeSelectWithFullScan disk dbDir table stmt =
      .ok (.ok (⟨queriedColumns table.schema stmt, selectedRows table.schema stmt rows⟩,
        false)) := by
  unfold executeSelectWithFullScan
  dsimp only
  rw [scan_decoded _ _ hdec, foldRows_select, ok_bind]
  rfl

theorem decoded_lengths {n : ℕ} {contents : Bytes} (hdec : decodeFile n contents = some rows)
    {o : ℕ} {row : Row} (hmem : (o, row) ∈ rows) : row.length = n := by
  obtain ⟨raw, -, hrow⟩ := mem_decodeLines hdec hmem
  exact decodeLine_length hrow

theorem selectedRows_fields
    (hvalid : validateSelectColumns table.schema stmt = .ok ())
    (hdec : decodeFile table.schema.columnCount (file disk dbDir table.tableName) = some rows) :
    (selectedRows table.schema stmt rows).map (List.map some) =
      queriedRows table.schema stmt (rows.map Prod.snd) := by
  unfold selectedRows queriedRows
  rw [List.map_map]
  apply List.map_congr_left
  intro row hrow
  obtain ⟨r, hr, rfl⟩ := List.mem_map.mp (List.mem_filter.mp hrow).1
  exact projectSingleRow_fields hvalid (decoded_lengths hdec hr)

theorem filter_unique {α β : Type} [DecidableEq β] {f : α → β} {l : List α}
    (hnodup : (l.map f).Nodup) {x : α} (hx : x ∈ l) : l.filter (fun y => f y = f x) = [x] := by
  induction l with
  | nil => cases hx
  | cons y l ih =>
    rw [List.map_cons, List.nodup_cons] at hnodup
    rcases List.mem_cons.mp hx with rfl | hx
    · rw [List.filter_cons_of_pos (by simp), List.filter_eq_nil_iff.mpr]
      intro z hz heq
      have hfz : f z = f x := by simpa using heq
      exact hnodup.1 (hfz ▸ List.mem_map_of_mem hz)
    · have hne : f y ≠ f x := fun heq => hnodup.1 (heq ▸ List.mem_map_of_mem hx)
      rw [List.filter_cons_of_neg (by simpa using hne), ih hnodup.2 hx]

/-- The index is used for `WHERE id = k` with the canonical text of an id only. -/
theorem canUseIdIndex_where {k : UInt64} (h : canUseIdIndex table stmt = some k) :
    ∃ clause, stmt.whereClause = some clause ∧ clause.columnName = .lit "id" ∧
      clause.value.text = decimal k.toNat := by
  unfold canUseIdIndex at h
  split at h
  · cases h
  cases hwhere : stmt.whereClause with
  | none =>
    rw [hwhere] at h
    cases h
  | some clause =>
    rw [hwhere] at h
    dsimp only at h
    split at h
    · cases h
    rename_i hcol
    exact ⟨clause, rfl, not_not.mp hcol, ((IdText.parseCanonical_iff _ k).mp h).2⟩

variable {contents : Bytes} {i : ℕ} {entries : List (UInt64 × Int)}

theorem wanted_id {clause : WhereClause} (hs : Sound table) (hid : table.idColumnIndex = some i)
    (hwhere : stmt.whereClause = some clause) (hcol : clause.columnName = .lit "id") (row : Row) :
    Wanted table.schema stmt row ↔ row[i]? = some clause.value.text := by
  have hfind : schemaFindColumnIndex table.schema clause.columnName = some i := by
    rw [hcol, ← hs.id_column, hid]
  unfold Wanted fieldOf
  constructor
  · intro hall
    simpa [hfind] using hall clause hwhere
  · intro heq c hc
    rw [hwhere] at hc
    cases hc
    simpa [hfind] using heq

theorem idIndex_selects (hs : Sound table) (hid : table.idColumnIndex = some i)
    (hb : Built table.schema.columnCount i contents table.idIndex rows entries)
    (hdisk : disk (dataPath dbDir table.tableName) = some contents) {k : UInt64}
    (hk : canUseIdIndex table stmt = some k) :
    executeSelectWithIdIndex disk dbDir table stmt k =
      .ok (.ok (⟨queriedColumns table.schema stmt, selectedRows table.schema stmt rows⟩,
        true)) := by
  obtain ⟨clause, hwhere, hcol, htext⟩ := canUseIdIndex_where hk
  have hwanted := wanted_id hs hid hwhere hcol
  have hindex : table.idColumnIndex = stmt.whereClause.bind
      (fun clause => schemaFindColumnIndex table.schema clause.columnName) := by
    rw [hwhere, Option.bind_some, hcol, hs.id_column]
  obtain ⟨es, statuses, hrun⟩ := hb.tree_run
  have hsearch := bptreeSearch_lookup hrun.denotes k
  unfold executeSelectWithIdIndex
  dsimp only
  rw [hsearch, ok_bind]
  cases hlook : es.lookup k with
  | none =>
    -- no row has this id
    have hnone : (rows.map Prod.snd).filter (fun row => Wanted table.schema stmt row) = [] := by
      rw [List.filter_eq_nil_iff]
      intro row hrow hw
      obtain ⟨⟨o, row⟩, hr, rfl⟩ := List.mem_map.mp hrow
      have hat : row[i]? = some (decimal k.toNat) := htext ▸ (hwanted row).mp (by simpa using hw)
      have hfound := (search_iff_row hb k o).mpr ⟨o, row, hr, rfl, hat⟩
      rw [hsearch, hlook] at hfound
      cases hfound
    simp only [selectedRows, hnone]
    rfl
  | some v =>
    rw [hlook] at hsearch
    obtain ⟨o, row, hr, rfl, hat⟩ := (search_iff_row hb k v).mp hsearch
    have hone : rows.filter (fun r => r.2[i]? = row[i]?) = [(o, row)] :=
      filter_unique (f := fun r : ℕ × Row => r.2[i]?) (ids_distinct hb) hr
    have hsome : (rows.map Prod.snd).filter (fun row => Wanted table.schema stmt row) = [row] := by
      have hpred : ∀ r ∈ rows, ((fun row => decide (Wanted table.schema stmt row)) ∘ Prod.snd) r =
          decide (r.2[i]? = row[i]?) := by
        intro r _
        rw [Function.comp_apply, decide_eq_decide, hwanted, htext, hat]
      rw [List.filter_map, List.filter_congr hpred, hone]
      rfl
    have hmatch : rowMatchesWhereClause stmt table.idColumnIndex row = true := by
      rw [hindex, rowMatches_wanted, decide_eq_true_iff, hwanted, htext, hat]
    simp only [readRowAtOffset_decoded hdisk hb.decoded hr, hmatch, if_true, selectedRows, hsome]
    rfl

end Table

/-- The outcome of a query on an id table: the queried columns and rows over the rows of the
data file, and the same through the index as through a full scan. -/
structure Answers (disk : Disk) (dbDir : CString) (table : TableRuntime) (stmt : SelectStatement)
    (out : Except EngineError ExecResult) (rows : List (ℕ × Row)) (result : ExecResult) :
    Prop where
  delivered : deliveredRows disk dbDir table.tableName table.schema.columnCount = .ok (.ok rows)
  success : out = .ok result
  columns : result.queryResult.columns = queriedColumns table.schema stmt
  rows : result.queryResult.rows.map (List.map some) =
    queriedRows table.schema stmt (rows.map Prod.snd)
  same_paths : ∀ k, canUseIdIndex table stmt = some k →
    executeSelectWithIdIndex disk dbDir table stmt k = .ok (.ok (result.queryResult, true)) ∧
    executeSelectWithFullScan disk dbDir table stmt = .ok (.ok (result.queryResult, false))

theorem selectFrom_answers {disk : Disk} {dbDir : CString} {table : TableRuntime}
    {stmt : SelectStatement} {i : ℕ} (hs : Sound table)
    (hco : Coherent (disk (dataPath dbDir table.tableName)) table)
    (hid : table.idColumnIndex = some i)
    (hvalid : validateSelectColumns table.schema stmt = .ok ())
    {out : Except EngineError ExecResult} (hout : selectFrom disk dbDir table stmt = .ok out) :
    ∃ rows result, Answers disk dbDir table stmt out rows result := by
  obtain ⟨contents, hcontents⟩ := hco.present
  obtain ⟨rows, entries, hb, -⟩ := hco.indexed i hid
  rw [hcontents, Option.getD_some] at hb
  have hdec : decodeFile table.schema.columnCount (file disk dbDir table.tableName) = some rows := by
    rw [file, hcontents, Option.getD_some]
    exact hb.decoded
  have hscan := fullScan_selects stmt hdec
  unfold selectFrom at hout
  rw [hvalid] at hout
  dsimp only at hout
  refine ⟨rows, ⟨.select, (selectedRows table.schema stmt rows).length,
    ⟨queriedColumns table.schema stmt, selectedRows table.schema stmt rows⟩,
    (canUseIdIndex table stmt).isSome, none⟩, ?_, ?_, rfl, selectedRows_fields hvalid hdec, ?_⟩
  · exact (deliveredRows_iff _ _ _ _ _).mpr hdec
  · cases hcan : canUseIdIndex table stmt with
    | none =>
      rw [hcan] at hout
      dsimp only at hout
      rw [hscan, ok_bind] at hout
      cases hout
      rfl
    | some k =>
      rw [hcan] at hout
      dsimp only at hout
      rw [idIndex_selects hs hid hb hcontents hcan, ok_bind] at hout
      cases hout
      rfl
  · intro k hk
    exact ⟨idIndex_selects hs hid hb hcontents hk, hscan⟩

/-- In every state that a run from a fresh context reaches, a validated query on an id table
returns the matching rows of the data file in file order, whichever path it takes. -/
theorem select_returns_matching_rows (disk : Disk) (dbDir : CString)
    (hfiles : ∀ name, Terminated 10 (file disk dbDir name)) (stmts : List Statement) :
    ∃ disk' ctx' outs,
      runStatements disk (initExecutionContext dbDir) stmts = .ok (disk', ctx', outs) ∧
      ∀ stmt : SelectStatement, ∃ disk'' ctx'' out,
        executeStatement noFaults disk' ctx' (.select stmt) = .ok (disk'', ctx'', out) ∧
        ∀ table i, cached ctx'' stmt.tableName = some table → table.idColumnIndex = some i →
          validateSelectColumns table.schema stmt = .ok () →
          file disk'' dbDir stmt.tableName = file disk' dbDir stmt.tableName ∧
          ∃ rows result, Answers disk'' dbDir table stmt out rows result := by
  obtain ⟨disk', ctx', outs, hrun, h, hdir⟩ := run_invariant
    (fun disk ctx => Healthy disk ctx ∧ ctx.dbDir = dbDir) (fun _ _ h => h.1.sound)
    (fun _ _ _ _ _ _ h heffect =>
      ⟨healthy_step h.1 heffect, (effect_dbDir heffect).trans h.2⟩)
    stmts disk (initExecutionContext dbDir) ⟨healthy_init hfiles, rfl⟩
  refine ⟨disk', ctx', outs, hrun, fun stmt => ?_⟩
  obtain ⟨disk'', ctx'', out, hexec, heffect⟩ :=
    executeStatement_effect disk' h.sound (.select stmt)
  refine ⟨disk'', ctx'', out, hexec, fun table i hcached hid hvalid => ?_⟩
  cases heffect with
  | loadFailed _ hresolve =>
    -- a table that is cached is found
    have hcached' : cached ctx' (Statement.select stmt).tableName = some table := hcached
    rw [resolve, hcached'] at hresolve
    cases hresolve
  | @selected _ _ t _ hresolve hselect =>
    have hname := resolve_name hresolve
    rw [cached_remember, if_pos hname] at hcached
    cases hcached
    refine ⟨resolve_file hresolve dbDir _, ?_⟩
    have hco := coherent_resolve h hresolve
    rw [hdir] at hselect hco
    exact selectFrom_answers (resolve_sound h.sound hresolve) (hname.symm ▸ hco) hid hvalid hselect

def selectFirst : SelectStatement :=
  ⟨.lit "users", false, [.lit "name"], some ⟨.lit "id", ⟨.number, .lit "1"⟩⟩⟩

theorem users_query_by_id :
    ∃ disk' ctx' outs disk'' ctx'' out table rows result,
      runStatements usersDisk (initExecutionContext (.lit "db")) [.insert kim] =
        .ok (disk', ctx', outs) ∧
      executeStatement noFaults disk' ctx' (.select selectFirst) = .ok (disk'', ctx'', out) ∧
      cached ctx'' (.lit "users") = some table ∧ table.idColumnIndex = some 0 ∧
      Answers disk'' (.lit "db") table selectFirst out rows result := by
  obtain ⟨disk', ctx', outs, hrun, hall⟩ :=
    select_returns_matching_rows usersDisk (.lit "db") usersDisk_terminated [.insert kim]
  obtain ⟨disk'', ctx'', out, hexec, hanswer⟩ := hall selectFirst
  have heval : (runStatements usersDisk (initExecutionContext (.lit "db"))
      [.insert kim, .select selectFirst]).map (fun r => (cached r.2.1 (.lit "users")).map
        (fun t => (t.idColumnIndex, (validateSelectColumns t.schema selectFirst).toOption))) =
        .ok (some (some 0, some ())) := by decide +kernel
  have hboth : runStatements usersDisk (initExecutionContext (.lit "db"))
      [.insert kim, .select selectFirst] = .ok (disk'', ctx'', outs ++ [out]) := by
    apply runStatements_append hrun
    exact runStatements_cons.mpr ⟨disk'', ctx'', out, [], hexec, rfl, rfl⟩
  rw [hboth] at heval
  obtain ⟨table, hcached, hid, hvalid⟩ : ∃ table, cached ctx'' (.lit "users") = some table ∧
      table.idColumnIndex = some 0 ∧ validateSelectColumns table.schema selectFirst = .ok () := by
    simp only [Except.map, Except.ok.injEq, Option.map_eq_some_iff, Prod.mk.injEq] at heval
    obtain ⟨table, hcached, hid, hvalid⟩ := heval
    refine ⟨table, hcached, hid, ?_⟩
    cases hv : validateSelectColumns table.schema selectFirst with
    | error e =>
      rw [hv] at hvalid
      cases hvalid
    | ok u => rfl
  obtain ⟨-, rows, result, hans⟩ := hanswer table 0 hcached hid hvalid
  exact ⟨disk', ctx', outs, disk'', ctx'', out, table, rows, result, hrun, hexec, hcached, hid,
    hans⟩

end SelectSpec
