import ThreadedDb.StatementRuns

/-!
# Locked sections and the tables they touch

A locked section resolves one table and works on it. It reads the two files and the cache entry
of that table only, and writes to its data file and its cache entry only.
-/
namespace TableSections

open ByteText
open SchemaModel
open StorageModel
open SqlFrontEnd
open RuntimeModel
open ExecutorModel
open TableCache
open InsertSpec
open StatementRuns
open StorageRoundTrip (appendRow_ok)
open CheckedArray (Checked ok_bind bind_eq_ok)

structure Db where
  disk : Disk
  ctx : ExecutionContext

/-- A section: its table, its outcome when the table does not load, and its work on the table. -/
structure Section (ρ : Type) where
  name : CString
  failed : EngineError → ρ
  work : Disk → CString → TableRuntime → Checked (Disk × TableRuntime × ρ)

def Section.run {ρ : Type} (sec : Section ρ) (db : Db) : Checked (Db × ρ) := do
  let (disk, found) ← resolve db.disk db.ctx sec.name
  match found with
  | .error e => .ok (⟨disk, db.ctx⟩, sec.failed e)
  | .ok table => do
    let (disk, table, out) ← sec.work disk db.ctx.dbDir table
    .ok (⟨disk, remember db.ctx table⟩, out)

def preload (name : CString) : Section (Except EngineError Unit) where
  name := name
  failed := .error
  work disk _ table := .ok (disk, table, .ok ())

def selectWork (stmt : SelectStatement) (disk : Disk) (dbDir : CString) (table : TableRuntime) :
    Checked (Disk × TableRuntime × Except EngineError ExecResult) := do
  let out ← selectFrom disk dbDir table stmt
  .ok (disk, table, out)

def execute (stmt : Statement) : Section (Except EngineError ExecResult) where
  name := stmt.tableName
  failed e := .error (translateLoadError e)
  work disk dbDir table :=
    match stmt with
    | .insert stmt => insertInto noFaults disk dbDir table stmt
    | .select stmt => selectWork stmt disk dbDir table

theorem preload_run (db : Db) (name : CString) :
    runtimePreloadTable db.disk db.ctx name = (do
      let (db, out) ← (preload name).run db
      .ok (db.disk, db.ctx, out)) := by
  rw [runtimePreloadTable_resolve, Section.run]
  cases hres : resolve db.disk db.ctx name with
  | error f =>
    rw [show resolve db.disk db.ctx (preload name).name = _ from hres]
    rfl
  | ok r =>
    obtain ⟨disk, found⟩ := r
    rw [show resolve db.disk db.ctx (preload name).name = _ from hres]
    cases found with
    | error e => rfl
    | ok table => rfl

theorem execute_run (db : Db) (stmt : Statement) :
    executeStatement noFaults db.disk db.ctx stmt = (do
      let (db, out) ← (execute stmt).run db
      .ok (db.disk, db.ctx, out)) := by
  cases stmt with
  | insert stmt =>
    rw [executeStatement, executeInsert_resolve, Section.run]
    cases hres : resolve db.disk db.ctx stmt.tableName with
    | error f =>
      rw [show resolve db.disk db.ctx (execute (.insert stmt)).name = _ from hres]
      rfl
    | ok r =>
      obtain ⟨disk, found⟩ := r
      rw [show resolve db.disk db.ctx (execute (.insert stmt)).name = _ from hres]
      cases found with
      | error e => rfl
      | ok table =>
        simp only [ok_bind, execute]
        cases insertInto noFaults disk db.ctx.dbDir table stmt with
        | error f => rfl
        | ok r => rfl
  | select stmt =>
    rw [executeStatement, executeSelect_resolve, Section.run]
    cases hres : resolve db.disk db.ctx stmt.tableName with
    | error f =>
      rw [show resolve db.disk db.ctx (execute (.select stmt)).name = _ from hres]
      rfl
    | ok r =>
      obtain ⟨disk, found⟩ := r
      rw [show resolve db.disk db.ctx (execute (.select stmt)).name = _ from hres]
      cases found with
      | error e => rfl
      | ok table =>
        simp only [ok_bind, execute, selectWork]
        cases selectFrom disk db.ctx.dbDir table stmt with
        | error f => rfl
        | ok out => rfl

theorem run_cases {ρ : Type} {sec : Section ρ} {db db' : Db} {out : ρ}
    (h : sec.run db = .ok (db', out)) :
    (∃ disk e, resolve db.disk db.ctx sec.name = .ok (disk, .error e) ∧ db' = ⟨disk, db.ctx⟩ ∧
      out = sec.failed e) ∨
    (∃ disk table disk' table', resolve db.disk db.ctx sec.name = .ok (disk, .ok table) ∧
      sec.work disk db.ctx.dbDir table = .ok (disk', table', out) ∧
      db' = ⟨disk', remember db.ctx table'⟩) := by
  unfold Section.run at h
  obtain ⟨⟨disk, found⟩, hres, h⟩ := bind_eq_ok.mp h
  cases found with
  | error e =>
    cases h
    exact Or.inl ⟨disk, e, hres, rfl, rfl⟩
  | ok table =>
    dsimp only at h
    obtain ⟨⟨disk', table', out'⟩, hwork, h⟩ := bind_eq_ok.mp h
    cases h
    exact Or.inr ⟨disk, table, disk', table', hres, hwork, rfl⟩

theorem run_failed {ρ : Type} {sec : Section ρ} {db : Db} {disk : Disk} {e : EngineError}
    (h : resolve db.disk db.ctx sec.name = .ok (disk, .error e)) :
    sec.run db = .ok (⟨disk, db.ctx⟩, sec.failed e) := by
  rw [Section.run, h, ok_bind]

theorem run_worked {ρ : Type} {sec : Section ρ} {db : Db} {disk disk' : Disk}
    {table table' : TableRuntime} {out : ρ}
    (h : resolve db.disk db.ctx sec.name = .ok (disk, .ok table))
    (hwork : sec.work disk db.ctx.dbDir table = .ok (disk', table', out)) :
    sec.run db = .ok (⟨disk', remember db.ctx table'⟩, out) := by
  rw [Section.run, h, ok_bind]
  dsimp only
  rw [hwork, ok_bind]

section Locality

variable {d d' : Disk} {dbDir name : CString}

theorem update_same (h : d (dataPath dbDir name) = d' (dataPath dbDir name)) :
    Function.update d' (dataPath dbDir name) (d (dataPath dbDir name)) = d' := by
  rw [h, Function.update_eq_self]

theorem scan_agree (h : d (dataPath dbDir name) = d' (dataPath dbDir name)) {σ : Type} (n : ℕ)
    (callback : σ → Row → ℕ → Checked (Signal σ)) (state : σ) :
    scanTableRowsWithOffsets d dbDir name n callback state =
      scanTableRowsWithOffsets d' dbDir name n callback state := by
  unfold scanTableRowsWithOffsets
  rw [h]

theorem readRow_agree (h : d (dataPath dbDir name) = d' (dataPath dbDir name)) (o : Int) (n : ℕ) :
    readRowAtOffset d dbDir name o n = readRowAtOffset d' dbDir name o n := by
  unfold readRowAtOffset
  dsimp only
  rw [h]

theorem selectFrom_agree {table : TableRuntime} (hname : table.tableName = name)
    (h : d (dataPath dbDir name) = d' (dataPath dbDir name)) (stmt : SelectStatement) :
    selectFrom d dbDir table stmt = selectFrom d' dbDir table stmt := by
  subst hname
  have hindexed (k : UInt64) : executeSelectWithIdIndex d dbDir table stmt k =
      executeSelectWithIdIndex d' dbDir table stmt k := by
    unfold executeSelectWithIdIndex
    simp only [readRow_agree h]
  have hscanned : executeSelectWithFullScan d dbDir table stmt =
      executeSelectWithFullScan d' dbDir table stmt := by
    unfold executeSelectWithFullScan
    simp only [scan_agree h]
  unfold selectFrom
  simp only [hindexed, hscanned]

/-- Appending changes the data file, and the rest follows from the file alone. -/
theorem append_agree (h : d (dataPath dbDir name) = d' (dataPath dbDir name)) (row : Row) :
    appendRowToTableWithOffset none d' dbDir name row =
      (Function.update d' (dataPath dbDir name)
        ((appendRowToTableWithOffset none d dbDir name row).1 (dataPath dbDir name)),
        (appendRowToTableWithOffset none d dbDir name row).2) := by
  by_cases hrow : row = []
  · simp only [appendRowToTableWithOffset, if_pos hrow, update_same h]
  · obtain ⟨e, he, rfl⟩ := appendRow_ok d dbDir name hrow
    obtain ⟨e', he', rfl⟩ := appendRow_ok d' dbDir name hrow
    rw [he, he']
    simp only [Function.update_self, h]

theorem appendAndIndex_agree {e : Disk} {table table' : TableRuntime} {row : Row}
    {out : Except EngineError ExecResult}
    (h : d (dataPath dbDir name) = d' (dataPath dbDir name))
    (hrun : appendAndIndex noFaults d dbDir table name row = .ok (e, table', out)) :
    appendAndIndex noFaults d' dbDir table name row =
      .ok (Function.update d' (dataPath dbDir name) (e (dataPath dbDir name)), table', out) := by
  dsimp only [appendAndIndex, noFaults] at hrun ⊢
  rw [append_agree h]
  generalize appendRowToTableWithOffset none d dbDir name row = appended at hrun ⊢
  obtain ⟨e₁, appended⟩ := appended
  cases appended with
  | error err =>
    cases hrun
    rfl
  | ok rowOffset =>
    dsimp only at hrun ⊢
    obtain ⟨⟨tree, status⟩, hins, hrun⟩ := bind_eq_ok.mp hrun
    rw [hins, ok_bind]
    cases status with
    | error err =>
      cases hrun
      rfl
    | ok u =>
      cases hrun
      rfl

theorem insertWithGeneratedId_agree {e : Disk} {table table' : TableRuntime}
    {stmt : InsertStatement} {out : Except EngineError ExecResult} (hname : stmt.tableName = name)
    (h : d (dataPath dbDir name) = d' (dataPath dbDir name))
    (hrun : insertWithGeneratedId noFaults d dbDir table stmt = .ok (e, table', out)) :
    insertWithGeneratedId noFaults d' dbDir table stmt =
      .ok (Function.update d' (dataPath dbDir name) (e (dataPath dbDir name)), table', out) := by
  unfold insertWithGeneratedId at hrun ⊢
  cases hvalid : validateInsertColumnsForAutoId table stmt with
  | error err =>
    rw [hvalid] at hrun
    cases hrun
    simp only [update_same h]
  | ok u =>
    simp only [hvalid] at hrun ⊢
    by_cases hnext : table.nextId = 0
    · rw [if_pos hnext] at hrun ⊢
      cases hrun
      simp only [update_same h]
    rw [if_neg hnext] at hrun ⊢
    obtain ⟨built, hbuild, hrun⟩ := bind_eq_ok.mp hrun
    rw [hbuild, ok_bind]
    cases built with
    | error err =>
      cases hrun
      simp only [update_same h]
    | ok row =>
      subst hname
      exact appendAndIndex_agree h hrun

theorem insertExisting_agree {table : TableRuntime} {stmt : InsertStatement}
    (hname : stmt.tableName = name) (h : d (dataPath dbDir name) = d' (dataPath dbDir name)) :
    insertExisting noFaults d' dbDir table stmt =
      (Function.update d' (dataPath dbDir name)
        ((insertExisting noFaults d dbDir table stmt).1 (dataPath dbDir name)),
        (insertExisting noFaults d dbDir table stmt).2) := by
  unfold insertExisting appendRowToTable
  cases hbuild : buildInsertRowExistingBehavior table.schema stmt with
  | error err => simp only [update_same h]
  | ok row =>
    dsimp only [noFaults]
    rw [hname, append_agree h]
    obtain ⟨e₁, appended⟩ := appendRowToTableWithOffset none d dbDir name row
    cases appended with
    | error err => rfl
    | ok rowOffset => rfl

theorem insertInto_agree {e : Disk} {table table' : TableRuntime} {stmt : InsertStatement}
    {out : Except EngineError ExecResult} (hname : stmt.tableName = name)
    (h : d (dataPath dbDir name) = d' (dataPath dbDir name))
    (hrun : insertInto noFaults d dbDir table stmt = .ok (e, table', out)) :
    insertInto noFaults d' dbDir table stmt =
      .ok (Function.update d' (dataPath dbDir name) (e (dataPath dbDir name)), table', out) := by
  unfold insertInto at hrun ⊢
  by_cases hid : table.hasIdColumn = true
  · rw [if_pos hid] at hrun ⊢
    exact insertWithGeneratedId_agree hname h hrun
  · rw [if_neg hid] at hrun ⊢
    cases hrun
    rw [insertExisting_agree hname h]

theorem load_agree {e : Disk} {loaded : Except EngineError TableRuntime}
    (hschema : d (schemaPath dbDir name) = d' (schemaPath dbDir name))
    (h : d (dataPath dbDir name) = d' (dataPath dbDir name))
    (hrun : loadTableRuntime d dbDir name = .ok (e, loaded)) :
    loadTableRuntime d' dbDir name =
      .ok (Function.update d' (dataPath dbDir name) (e (dataPath dbDir name)), loaded) := by
  unfold loadTableRuntime at hrun ⊢
  rw [← hschema]
  cases hload : loadTableSchema name (d (schemaPath dbDir name)) with
  | error message =>
    rw [hload] at hrun
    cases hrun
    simp only [update_same h]
  | ok schema =>
    simp only [hload, ensureTableDataFile] at hrun ⊢
    rw [← h]
    cases hid : schemaFindColumnIndex schema (.lit "id") with
    | none =>
      simp only [hid] at hrun ⊢
      cases hrun
      rw [Function.update_self]
    | some i =>
      simp only [hid] at hrun ⊢
      have hsame : Function.update d (dataPath dbDir name)
            (some ((d (dataPath dbDir name)).getD [])) (dataPath dbDir name) =
          Function.update d' (dataPath dbDir name) (some ((d (dataPath dbDir name)).getD []))
            (dataPath dbDir name) := by
        rw [Function.update_self, Function.update_self]
      have hbuild : buildIdIndexForTable (Function.update d (dataPath dbDir name)
            (some ((d (dataPath dbDir name)).getD []))) dbDir schema i =
          buildIdIndexForTable (Function.update d' (dataPath dbDir name)
            (some ((d (dataPath dbDir name)).getD []))) dbDir schema i := by
        unfold buildIdIndexForTable
        rw [loadTableSchema_name hload]
        simp only [scan_agree hsame]
      rw [← hbuild]
      obtain ⟨built, hb, hrun⟩ := bind_eq_ok.mp hrun
      rw [hb, ok_bind]
      cases built with
      | error err =>
        cases hrun
        rw [Function.update_self]
      | ok index =>
        cases hrun
        rw [Function.update_self]

end Locality

/-- Work that reads and writes the data file of its table only, and keeps the table's name. -/
def Section.Local {ρ : Type} (sec : Section ρ) : Prop :=
  ∀ {d d' e : Disk} {dbDir : CString} {table table' : TableRuntime} {out : ρ},
    table.tableName = sec.name →
    d (dataPath dbDir sec.name) = d' (dataPath dbDir sec.name) →
    sec.work d dbDir table = .ok (e, table', out) → table'.tableName = sec.name ∧
      sec.work d' dbDir table = .ok (Function.update d' (dataPath dbDir sec.name)
        (e (dataPath dbDir sec.name)), table', out)

theorem preload_local (name : CString) : (preload name).Local := by
  intro d d' e dbDir table table' out hname h hwork
  cases hwork
  refine ⟨hname, ?_⟩
  rw [update_same h]
  rfl

theorem execute_local (stmt : Statement) : (execute stmt).Local := by
  intro d d' e dbDir table table' out hname h hwork
  cases stmt with
  | insert stmt =>
    have hinsert : insertInto noFaults d dbDir table stmt = .ok (e, table', out) := hwork
    exact ⟨(insertInto_keeps hinsert).1.trans hname, insertInto_agree rfl h hinsert⟩
  | select stmt =>
    have hselect : selectWork stmt d dbDir table = .ok (e, table', out) := hwork
    change _ ∧ selectWork stmt d' dbDir table = _
    unfold selectWork at hselect ⊢
    rw [← selectFrom_agree hname h]
    obtain ⟨result, hout, hselect⟩ := bind_eq_ok.mp hselect
    cases hselect
    refine ⟨hname, ?_⟩
    rw [hout, ok_bind, update_same h]

structure Agree (a b : Db) (name : CString) : Prop where
  dbDir : b.ctx.dbDir = a.ctx.dbDir
  schema : b.disk (schemaPath a.ctx.dbDir name) = a.disk (schemaPath a.ctx.dbDir name)
  data : b.disk (dataPath a.ctx.dbDir name) = a.disk (dataPath a.ctx.dbDir name)
  cached : cached b.ctx name = cached a.ctx name

/-- The same but for the data file and the cache entry of the table of that name. -/
structure Untouched (a b : Db) (name : CString) : Prop where
  dbDir : b.ctx.dbDir = a.ctx.dbDir
  disk : ∀ path, path ≠ dataPath a.ctx.dbDir name → b.disk path = a.disk path
  cached : ∀ other, other ≠ name → cached b.ctx other = cached a.ctx other

theorem Untouched.agree {a b : Db} {name other : CString} (h : Untouched a b name)
    (hne : other ≠ name) : Agree a b other where
  dbDir := h.dbDir
  schema := h.disk _ (dataPath_ne_schemaPath _ _ _).symm
  data := h.disk _ (fun heq => hne (dataPath_inj heq))
  cached := h.cached other hne

theorem Agree.symm {a b : Db} {name : CString} (h : Agree a b name) : Agree b a name := by
  refine ⟨h.dbDir.symm, ?_, ?_, h.cached.symm⟩
  · rw [h.dbDir, h.schema]
  · rw [h.dbDir, h.data]

theorem Agree.trans {a b c : Db} {name : CString} (h : Agree a b name) (h' : Agree b c name) :
    Agree a c name := by
  refine ⟨h'.dbDir.trans h.dbDir, ?_, ?_, h'.cached.trans h.cached⟩
  · rw [← h.dbDir, h'.schema, h.dbDir, h.schema]
  · rw [← h.dbDir, h'.data, h.dbDir, h.data]

theorem Agree.resolve {a a' : Db} {name : CString} (h : Agree a a' name) {e : Disk}
    {found : Except EngineError TableRuntime}
    (hrun : resolve a.disk a.ctx name = .ok (e, found)) :
    TableCache.resolve a'.disk a'.ctx name = .ok (Function.update a'.disk
      (dataPath a.ctx.dbDir name) (e (dataPath a.ctx.dbDir name)), found) := by
  unfold TableCache.resolve at hrun ⊢
  rw [h.cached, h.dbDir]
  cases hcached : TableCache.cached a.ctx name with
  | some table =>
    rw [hcached] at hrun
    cases hrun
    simp only [update_same h.data.symm]
  | none =>
    rw [hcached] at hrun
    exact load_agree h.schema.symm h.data.symm hrun

section Run

variable {ρ : Type} {sec : Section ρ} {a a' b : Db} {out : ρ}

theorem run_untouched (hl : sec.Local) (h : sec.run a = .ok (b, out)) :
    Untouched a b sec.name := by
  rcases run_cases h with ⟨disk, e, hres, rfl, rfl⟩ | ⟨disk, table, disk', table', hres, hwork, rfl⟩
  · exact ⟨rfl, fun path hpath => resolve_disk_other hres hpath, fun _ _ => rfl⟩
  · obtain ⟨hname, hself⟩ := hl (resolve_name hres) rfl hwork
    rw [hwork] at hself
    have hdisk : disk' = Function.update disk (dataPath a.ctx.dbDir sec.name)
        (disk' (dataPath a.ctx.dbDir sec.name)) := congrArg Prod.fst (Except.ok.inj hself)
    refine ⟨remember_dbDir _ _, fun path hpath => ?_, fun other hother => ?_⟩
    · change disk' path = a.disk path
      rw [hdisk, Function.update_of_ne hpath]
      exact resolve_disk_other hres hpath
    · change cached (remember a.ctx table') other = _
      rw [cached_remember, if_neg]
      rw [hname]
      exact hother.symm

theorem run_agree (hl : sec.Local) (hagree : Agree a a' sec.name) (h : sec.run a = .ok (b, out)) :
    ∃ b', sec.run a' = .ok (b', out) ∧ Agree b b' sec.name := by
  have hb := run_untouched hl h
  -- what is left after the run: the data file and the cache entry
  have hfinish {b' : Db} (hrun : sec.run a' = .ok (b', out))
      (hdata : b'.disk (dataPath a.ctx.dbDir sec.name) = b.disk (dataPath a.ctx.dbDir sec.name))
      (hcached : cached b'.ctx sec.name = cached b.ctx sec.name) : Agree b b' sec.name := by
    have hb' := run_untouched hl hrun
    refine ⟨?_, ?_, ?_, hcached⟩
    · rw [hb'.dbDir, hb.dbDir, hagree.dbDir]
    · have hpath : schemaPath a.ctx.dbDir sec.name ≠ dataPath a'.ctx.dbDir sec.name := by
        rw [hagree.dbDir]
        exact (dataPath_ne_schemaPath _ _ _).symm
      rw [hb.dbDir, hb.disk _ (dataPath_ne_schemaPath _ _ _).symm, hb'.disk _ hpath,
        hagree.schema]
    · rw [hb.dbDir, hdata]
  rcases run_cases h with ⟨disk, e, hres, rfl, rfl⟩ | ⟨disk, table, disk', table', hres, hwork, rfl⟩
  · have hrun := run_failed (hagree.resolve hres)
    exact ⟨_, hrun, hfinish hrun (Function.update_self ..) hagree.cached⟩
  · have hfile : disk (dataPath a.ctx.dbDir sec.name) = Function.update a'.disk
        (dataPath a.ctx.dbDir sec.name) (disk (dataPath a.ctx.dbDir sec.name))
        (dataPath a.ctx.dbDir sec.name) := by
      rw [Function.update_self]
    obtain ⟨hname, hwork'⟩ := hl (resolve_name hres) hfile hwork
    have hrun := run_worked (hagree.resolve hres) (by rw [hagree.dbDir]; exact hwork')
    refine ⟨_, hrun, hfinish hrun (Function.update_self ..) ?_⟩
    rw [cached_remember, cached_remember, if_pos hname, if_pos hname]

end Run

structure Same (a b : Db) : Prop where
  disk : b.disk = a.disk
  dbDir : b.ctx.dbDir = a.ctx.dbDir
  cached : ∀ name, cached b.ctx name = cached a.ctx name

theorem Same.refl (a : Db) : Same a a := ⟨rfl, rfl, fun _ => rfl⟩

theorem Same.symm {a b : Db} (h : Same a b) : Same b a :=
  ⟨h.disk.symm, h.dbDir.symm, fun name => (h.cached name).symm⟩

theorem Same.trans {a b c : Db} (h : Same a b) (h' : Same b c) : Same a c :=
  ⟨h'.disk.trans h.disk, h'.dbDir.trans h.dbDir, fun name => (h'.cached name).trans (h.cached name)⟩

theorem same_equivalence : Equivalence Same := ⟨Same.refl, Same.symm, Same.trans⟩

theorem Same.agree {a b : Db} (h : Same a b) (name : CString) : Agree a b name :=
  ⟨h.dbDir, by rw [h.disk], by rw [h.disk], h.cached name⟩

/-- Two states that agree on one table and come from two that are equal elsewhere are equal. -/
theorem same_of_agree {a b b' : Db} {name : CString} (h : Untouched a b name)
    (h' : Untouched a b' name) (hagree : Agree b b' name) : Same b b' := by
  refine ⟨?_, hagree.dbDir, fun other => ?_⟩
  · funext path
    by_cases hpath : path = dataPath a.ctx.dbDir name
    · have hdata := hagree.data
      rw [h.dbDir] at hdata
      rw [hpath, hdata]
    · rw [h.disk path hpath, h'.disk path hpath]
  · by_cases hother : other = name
    · rw [hother, hagree.cached]
    · rw [h.cached other hother, h'.cached other hother]

section Run

variable {ρ : Type} {sec : Section ρ} {a a' b : Db} {out : ρ}

theorem run_same (hl : sec.Local) (hsame : Same a a') (h : sec.run a = .ok (b, out)) :
    ∃ b', sec.run a' = .ok (b', out) ∧ Same b b' := by
  obtain ⟨b', hrun, hagree⟩ := run_agree hl (hsame.agree sec.name) h
  have hb := run_untouched hl h
  have hb' := run_untouched hl hrun
  refine ⟨b', hrun, same_of_agree hb ⟨?_, fun path hpath => ?_, fun other hother => ?_⟩ hagree⟩
  · rw [hb'.dbDir, hsame.dbDir]
  · rw [hb'.disk path (by rw [hsame.dbDir]; exact hpath), hsame.disk]
  · rw [hb'.cached other hother, hsame.cached]

end Run

theorem preload_resolved {name : CString} {db : Db} {disk : Disk} {table : TableRuntime}
    (h : resolve db.disk db.ctx name = .ok (disk, .ok table)) :
    (preload name).run db = .ok (⟨disk, remember db.ctx table⟩, .ok ()) :=
  run_worked h rfl

theorem preload_unresolved {name : CString} {db : Db} {disk : Disk} {e : EngineError}
    (h : resolve db.disk db.ctx name = .ok (disk, .error e)) :
    (preload name).run db = .ok (⟨disk, db.ctx⟩, .error e) :=
  run_failed h

theorem preload_cases {name : CString} {a b : Db} (h : (preload name).run a = .ok (b, .ok ())) :
    ∃ disk table, resolve a.disk a.ctx name = .ok (disk, .ok table) ∧
      b = ⟨disk, remember a.ctx table⟩ := by
  rcases run_cases h with ⟨disk, e, -, -, hout⟩ | ⟨disk, table, disk', table', hres, hwork, rfl⟩
  · cases hout
  · cases hwork
    exact ⟨disk, table, hres, rfl⟩

theorem resolve_remembered {ctx : ExecutionContext} {name : CString} {table : TableRuntime}
    (hname : table.tableName = name) (disk : Disk) :
    resolve disk (remember ctx table) name = .ok (disk, .ok table) := by
  unfold resolve
  rw [cached_remember, if_pos hname]

theorem preload_cached {name : CString} {a : Db} {table : TableRuntime}
    (h : cached a.ctx name = some table) : (preload name).run a = .ok (a, .ok ()) := by
  have hres : resolve a.disk a.ctx name = .ok (a.disk, .ok table) := by
    unfold resolve
    rw [h]
  rw [preload_resolved hres, remember_cached h]

section Passes

variable {ρ : Type} {sec : Section ρ} {name : CString} {a b c : Db} {out : ρ}

theorem preload_passes_same (hl : sec.Local) (hload : (preload sec.name).run a = .ok (b, .ok ()))
    (hrun : sec.run b = .ok (c, out)) : ∃ b' c', sec.run a = .ok (b', out) ∧
      (preload sec.name).run b' = .ok (c', .ok ()) ∧ Same c' c := by
  obtain ⟨disk, table, hres, rfl⟩ := preload_cases hload
  have hname := resolve_name hres
  rcases run_cases hrun with ⟨disk₁, e, hres', -, -⟩ | ⟨disk₁, t, disk', table', hres', hwork, rfl⟩
  · rw [resolve_remembered hname] at hres'
    cases hres'
  · rw [resolve_remembered hname] at hres'
    cases hres'
    rw [remember_dbDir] at hwork
    have hname' : table'.tableName = sec.name := (hl hname rfl hwork).1
    have hfound : cached (remember a.ctx table') sec.name = some table' := by
      rw [cached_remember, if_pos hname']
    refine ⟨_, _, run_worked hres hwork, preload_cached hfound, rfl, ?_, fun other => ?_⟩
    · simp only [remember_dbDir]
    · simp only [cached_remember, hname, hname']
      by_cases hother : sec.name = other
      · rw [if_pos hother, if_pos hother]
      · rw [if_neg hother, if_neg hother, if_neg hother]

theorem run_commutes {ρ' : Type} {first : Section ρ'} {out' : ρ'} (hf : first.Local)
    (hl : sec.Local) (hne : first.name ≠ sec.name) (hfirst : first.run a = .ok (b, out'))
    (hrun : sec.run b = .ok (c, out)) :
    ∃ b' c', sec.run a = .ok (b', out) ∧ first.run b' = .ok (c', out') ∧ Same c' c := by
  have hb := run_untouched hf hfirst
  have hc := run_untouched hl hrun
  obtain ⟨b', hrun', hagree⟩ := run_agree hl (hb.agree hne.symm).symm hrun
  have hb' := run_untouched hl hrun'
  obtain ⟨c', hfirst', hagree'⟩ := run_agree hf (hb'.agree hne) hfirst
  have hc' := run_untouched hf hfirst'
  refine ⟨b', c', hrun', hfirst', ?_⟩
  have hdirc : c.ctx.dbDir = b.ctx.dbDir := hc.dbDir
  have hdirb' : b'.ctx.dbDir = b.ctx.dbDir := hb'.dbDir.trans hb.dbDir.symm
  refine ⟨?_, ?_, fun other => ?_⟩
  · funext path
    by_cases hpath : path = dataPath b.ctx.dbDir first.name
    · rw [hpath, hagree'.data, hc.disk _ (fun heq => hne (dataPath_inj heq))]
    by_cases hpath' : path = dataPath b.ctx.dbDir sec.name
    · have hdata := hagree.data
      rw [hdirc] at hdata
      rw [hpath', ← hdata, hc'.disk _ (fun heq => hne (dataPath_inj (hdirb' ▸ heq)).symm)]
    · rw [hc.disk path hpath', hc'.disk path (by rw [hdirb']; exact hpath),
        hb'.disk path (by rw [← hb.dbDir]; exact hpath'),
        hb.disk path (by rw [← hb.dbDir]; exact hpath)]
  · rw [hc'.dbDir, hdirb', hdirc]
  · by_cases hother : other = first.name
    · rw [hother, hagree'.cached, hc.cached _ hne]
    by_cases hother' : other = sec.name
    · rw [hother', ← hagree.cached, hc'.cached _ hne.symm]
    · rw [hc.cached other hother', hc'.cached other hother, hb'.cached other hother',
        hb.cached other hother]

theorem preload_passes (hl : sec.Local) (hload : (preload name).run a = .ok (b, .ok ()))
    (hrun : sec.run b = .ok (c, out)) : ∃ b' c', sec.run a = .ok (b', out) ∧
      (preload name).run b' = .ok (c', .ok ()) ∧ Same c' c := by
  by_cases hname : name = sec.name
  · subst hname
    exact preload_passes_same hl hload hrun
  · exact run_commutes (preload_local name) hl hname hload hrun

end Passes

end TableSections
