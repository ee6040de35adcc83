import ThreadedDb.ExecutorModel
import ThreadedDb.KeyedStore

/-!
# The cache as a map from table names

Positions in the cache are pointers of the source; what a statement does depends on the table
found under its name only. Here a statement is resolving its table, working on the table and its
data file, and remembering the table.
-/
namespace TableCache

open ByteText
open SchemaModel
open StorageModel
open SqlFrontEnd
open RuntimeModel
open ExecutorModel
open CheckedArray (Checked ok_bind bind_eq_ok)

theorem buildTablePath_inj {dbDir a b suffix : CString}
    (h : buildTablePath dbDir a suffix = buildTablePath dbDir b suffix) : a = b := by
  have hbytes := congrArg CString.bytes h
  simp only [buildTablePath, CString.bytes_append, List.append_assoc, List.append_cancel_left_eq,
    List.append_cancel_right_eq] at hbytes
  exact CString.ext hbytes

theorem dataPath_inj {dbDir a b : CString} (h : dataPath dbDir a = dataPath dbDir b) : a = b :=
  buildTablePath_inj h

theorem dataPath_ne_schemaPath (dbDir a b : CString) : dataPath dbDir a ≠ schemaPath dbDir b := by
  intro h
  have hbytes := congrArg (fun s : CString => s.bytes.reverse) h
  have hdata : (CString.lit ".data").bytes.reverse = [97, 116, 97, 100, 46] := by decide
  have hschema : (CString.lit ".schema").bytes.reverse = [97, 109, 101, 104, 99, 115, 46] := by
    decide
  simp only [dataPath, schemaPath, buildTablePath, CString.bytes_append, List.reverse_append,
    hdata, hschema, List.cons_append, List.cons.injEq] at hbytes
  exact absurd hbytes.2.1 (by decide)

def cached (ctx : ExecutionContext) (name : CString) : Option TableRuntime :=
  KeyedStore.find TableRuntime.tableName ctx.tables name

def UniqueNames (ctx : ExecutionContext) : Prop :=
  KeyedStore.Unique TableRuntime.tableName ctx.tables

/-- The context with this table in the place of the one of its name, or added. -/
def remember (ctx : ExecutionContext) (table : TableRuntime) : ExecutionContext :=
  match ctx.tables.findIdx? (fun t => t.tableName = table.tableName) with
  | some i => { ctx with tables := ctx.tables.set i table }
  | none => ctx.push table

@[simp] theorem remember_dbDir (ctx : ExecutionContext) (table : TableRuntime) :
    (remember ctx table).dbDir = ctx.dbDir := by
  unfold remember
  split <;> rfl

theorem remember_tables (ctx : ExecutionContext) (table : TableRuntime) :
    (remember ctx table).tables = KeyedStore.put TableRuntime.tableName ctx.tables table := by
  cases h : ctx.tables.findIdx? (fun t => t.tableName = table.tableName) with
  | some i => simp only [remember, KeyedStore.put, h]
  | none => simp only [remember, KeyedStore.put, ExecutionContext.push, h]

theorem cached_remember (ctx : ExecutionContext) (table : TableRuntime) (name : CString) :
    cached (remember ctx table) name =
      if table.tableName = name then some table else cached ctx name := by
  unfold cached
  rw [remember_tables, KeyedStore.find_put]

theorem uniqueNames_remember {ctx : ExecutionContext} (h : UniqueNames ctx)
    (table : TableRuntime) : UniqueNames (remember ctx table) := by
  unfold UniqueNames
  rw [remember_tables]
  exact KeyedStore.unique_put h table

theorem cached_name {ctx : ExecutionContext} {name : CString} {table : TableRuntime}
    (h : cached ctx name = some table) : table.tableName = name := KeyedStore.key_of_find h

theorem remember_cached {ctx : ExecutionContext} {name : CString} {table : TableRuntime}
    (h : cached ctx name = some table) : remember ctx table = ctx := by
  have htables : (remember ctx table).tables = ctx.tables := by
    rw [remember_tables, KeyedStore.put_self h]
  have hname := cached_name h
  unfold remember at htables ⊢
  split at htables
  · dsimp only at htables
    rw [htables]
  · rename_i hidx
    have := KeyedStore.find_of_findIdx_none hidx
    rw [hname] at this
    rw [cached, this] at h
    cases h

def resolve (disk : Disk) (ctx : ExecutionContext) (name : CString) :
    Checked (Disk × Except EngineError TableRuntime) :=
  match cached ctx name with
  | some table => .ok (disk, .ok table)
  | none => loadTableRuntime disk ctx.dbDir name

theorem resolve_ok_cases {disk disk' : Disk} {ctx : ExecutionContext} {name : CString}
    {table : TableRuntime} (h : resolve disk ctx name = .ok (disk', .ok table)) :
    (cached ctx name = some table ∧ disk' = disk) ∨
      (cached ctx name = none ∧ loadTableRuntime disk ctx.dbDir name = .ok (disk', .ok table)) := by
  unfold resolve at h
  split at h
  · rename_i t hcached
    cases h
    exact Or.inl ⟨hcached, rfl⟩
  · rename_i hcached
    exact Or.inr ⟨hcached, h⟩

def insertInto (faults : InsertFaults) (disk : Disk) (dbDir : CString) (table : TableRuntime)
    (stmt : InsertStatement) : Checked (Disk × TableRuntime × Except EngineError ExecResult) :=
  if table.hasIdColumn then insertWithGeneratedId faults disk dbDir table stmt
  else
    .ok ((insertExisting faults disk dbDir table stmt).1, table,
      (insertExisting faults disk dbDir table stmt).2)

theorem loadTableSchema_name {name : CString} {file : Option Bytes} {schema : TableSchema}
    (h : loadTableSchema name file = .ok schema) : schema.tableName = name := by
  unfold loadTableSchema at h
  split at h
  · cases h
  · split at h
    · cases h
    · split at h
      · cases h
      · cases h
        rfl

/-- What loading a table gives: its schema, and for an id column the index over the file. -/
theorem load_cases {disk disk' : Disk} {dbDir name : CString} {table : TableRuntime}
    (h : loadTableRuntime disk dbDir name = .ok (disk', .ok table)) :
    loadTableSchema name (disk (schemaPath dbDir name)) = .ok table.schema ∧
      table.tableName = name ∧
      disk' = Function.update disk (dataPath dbDir name)
        (some ((disk (dataPath dbDir name)).getD [])) ∧
      table.idColumnIndex = schemaFindColumnIndex table.schema (.lit "id") ∧
      table.idIndexReady = table.hasIdColumn ∧
      (table.idColumnIndex = none → table.idIndex = BPTreeHeap.bptreeInit) ∧
      ∀ i, table.idColumnIndex = some i →
        buildIdIndexForTable disk' dbDir table.schema i =
          .ok (.ok (table.idIndex, table.nextId)) := by
  unfold loadTableRuntime at h
  split at h
  · cases h
  rename_i schema hschema
  simp only [ensureTableDataFile] at h
  split at h
  · rename_i hid
    cases h
    exact ⟨hschema, rfl, rfl, hid.symm, rfl, fun _ => rfl, fun i hi => by cases hi⟩
  · rename_i i hid
    obtain ⟨built, hbuild, h⟩ := bind_eq_ok.mp h
    cases built with
    | error e => cases h
    | ok index =>
      cases h
      refine ⟨hschema, rfl, rfl, hid.symm, rfl, (fun hnone => by cases hnone), ?_⟩
      intro j hj
      cases hj
      exact hbuild

theorem resolve_name {disk disk' : Disk} {ctx : ExecutionContext} {name : CString}
    {table : TableRuntime} (h : resolve disk ctx name = .ok (disk', .ok table)) :
    table.tableName = name := by
  rcases resolve_ok_cases h with ⟨hcached, -⟩ | ⟨-, hload⟩
  · exact cached_name hcached
  · exact (load_cases hload).2.1

theorem insertWithGeneratedId_keeps {faults : InsertFaults} {disk disk' : Disk} {dbDir : CString}
    {table table' : TableRuntime} {stmt : InsertStatement}
    {out : Except EngineError ExecResult}
    (h : insertWithGeneratedId faults disk dbDir table stmt = .ok (disk', table', out)) :
    table'.tableName = table.tableName ∧ table'.schema = table.schema ∧
      table'.idColumnIndex = table.idColumnIndex := by
  unfold insertWithGeneratedId at h
  split at h
  · cases h
    exact ⟨rfl, rfl, rfl⟩
  dsimp only at h
  split at h
  · cases h
    exact ⟨rfl, rfl, rfl⟩
  obtain ⟨built, hbuilt, h⟩ := bind_eq_ok.mp h
  split at h
  · cases h
    exact ⟨rfl, rfl, rfl⟩
  split at h
  · cases h
    exact ⟨rfl, rfl, rfl⟩
  rename_i row disk₁ rowOffset happ
  obtain ⟨inserted, hins, h⟩ := bind_eq_ok.mp h
  obtain ⟨tree, status⟩ := inserted
  cases status with
  | error e =>
    cases h
    exact ⟨rfl, rfl, rfl⟩
  | ok u =>
    cases h
    exact ⟨rfl, rfl, rfl⟩

theorem insertInto_keeps {faults : InsertFaults} {disk disk' : Disk} {dbDir : CString}
    {table table' : TableRuntime} {stmt : InsertStatement}
    {out : Except EngineError ExecResult}
    (h : insertInto faults disk dbDir table stmt = .ok (disk', table', out)) :
    table'.tableName = table.tableName ∧ table'.schema = table.schema ∧
      table'.idColumnIndex = table.idColumnIndex := by
  unfold insertInto at h
  split at h
  · exact insertWithGeneratedId_keeps h
  · cases h
    exact ⟨rfl, rfl, rfl⟩

/-- `get_or_load_table_runtime` resolves the table and returns where it stands in the cache. -/
theorem getOrLoad_resolve (disk : Disk) (ctx : ExecutionContext) (name : CString) :
    (∃ table i, cached ctx name = some table ∧ ctx.tables[i]? = some table ∧
      ctx.tables.findIdx? (fun t => t.tableName = table.tableName) = some i ∧
      getOrLoadTableRuntime disk ctx name = .ok (disk, ctx, .ok i)) ∨
    (cached ctx name = none ∧ getOrLoadTableRuntime disk ctx name =
      (do
        let (disk, loaded) ← loadTableRuntime disk ctx.dbDir name
        match loaded with
        | .error e => .ok (disk, ctx, .error e)
        | .ok table => .ok (disk, ctx.push table, .ok ctx.tables.length))) := by
  unfold getOrLoadTableRuntime
  cases hidx : ctx.tables.findIdx? (fun t => t.tableName = name) with
  | some i =>
    left
    obtain ⟨table, hget, hfind⟩ := KeyedStore.get_findIdx hidx
    have hname : table.tableName = name := KeyedStore.key_of_find hfind
    subst hname
    exact ⟨table, i, hfind, hget, hidx, rfl⟩
  | none =>
    right
    exact ⟨KeyedStore.find_of_findIdx_none hidx, rfl⟩

theorem remember_new {ctx : ExecutionContext} {table : TableRuntime}
    (h : cached ctx table.tableName = none) : remember ctx table = ctx.push table := by
  unfold remember
  cases hidx : ctx.tables.findIdx? (fun t => t.tableName = table.tableName) with
  | none => rfl
  | some i =>
    obtain ⟨t, -, hfind⟩ := KeyedStore.get_findIdx hidx
    rw [cached, hfind] at h
    cases h

theorem push_set (ctx : ExecutionContext) (table table' : TableRuntime) :
    ({ ctx.push table with tables := (ctx.push table).tables.set ctx.tables.length table' } :
      ExecutionContext) = ctx.push table' := by
  simp [ExecutionContext.push]

theorem push_get (ctx : ExecutionContext) (table : TableRuntime) :
    (ctx.push table).tables[ctx.tables.length]? = some table := by
  simp [ExecutionContext.push]

theorem runtimePreloadTable_resolve (disk : Disk) (ctx : ExecutionContext) (name : CString) :
    runtimePreloadTable disk ctx name = (do
      let (disk, found) ← resolve disk ctx name
      match found with
      | .error e => .ok (disk, ctx, .error e)
      | .ok table => .ok (disk, remember ctx table, .ok ())) := by
  unfold runtimePreloadTable resolve
  rcases getOrLoad_resolve disk ctx name with ⟨table, i, hcached, -, -, hget⟩ | ⟨hcached, hget⟩
  · rw [hget, hcached]
    simp only [ok_bind, remember_cached hcached]
    rfl
  · rw [hget, hcached]
    cases hload : loadTableRuntime disk ctx.dbDir name with
    | error f => rfl
    | ok loaded =>
      obtain ⟨disk', loaded⟩ := loaded
      cases loaded with
      | error e => rfl
      | ok table =>
        have hname := (load_cases hload).2.1
        simp only [ok_bind]
        rw [remember_new (hname ▸ hcached)]
        rfl

theorem executeInsert_resolve (faults : InsertFaults) (disk : Disk) (ctx : ExecutionContext)
    (stmt : InsertStatement) :
    executeInsert faults disk ctx stmt = (do
      let (disk, found) ← resolve disk ctx stmt.tableName
      match found with
      | .error e => .ok (disk, ctx, .error (translateLoadError e))
      | .ok table => do
        let (disk, table, out) ← insertInto faults disk ctx.dbDir table stmt
        .ok (disk, remember ctx table, out)) := by
  unfold executeInsert resolve
  rcases getOrLoad_resolve disk ctx stmt.tableName with
    ⟨table, i, hcached, hat, hidx, hget⟩ | ⟨hcached, hget⟩
  · rw [hget, hcached]
    simp only [ok_bind, hat, insertInto]
    split
    · cases hins : insertWithGeneratedId faults disk ctx.dbDir table stmt with
      | error f => rfl
      | ok r =>
        have hname : r.2.1.tableName = table.tableName := (insertWithGeneratedId_keeps hins).1
        simp only [ok_bind, remember, hname, hidx]
    · simp only [ok_bind, remember_cached hcached]
  · rw [hget, hcached]
    cases hload : loadTableRuntime disk ctx.dbDir stmt.tableName with
    | error f => rfl
    | ok loaded =>
      obtain ⟨disk', loaded⟩ := loaded
      cases loaded with
      | error e => rfl
      | ok table =>
        have hname := (load_cases hload).2.1
        simp only [ok_bind, push_get, insertInto]
        split
        · rw [show (ctx.push table).dbDir = ctx.dbDir from rfl]
          cases hins : insertWithGeneratedId faults disk' ctx.dbDir table stmt with
          | error f => rfl
          | ok r =>
            have hkeep : r.2.1.tableName = table.tableName := (insertWithGeneratedId_keeps hins).1
            rw [ok_bind, ok_bind, remember_new (by rw [hkeep, hname]; exact hcached)]
            exact congrArg (fun c => Except.ok (r.1, c, r.2.2)) (push_set ctx table r.2.1)
        · simp only [ok_bind]
          rw [remember_new (hname ▸ hcached)]
          rfl

theorem executeSelect_resolve (disk : Disk) (ctx : ExecutionContext) (stmt : SelectStatement) :
    executeSelect disk ctx stmt = (do
      let (disk, found) ← resolve disk ctx stmt.tableName
      match found with
      | .error e => .ok (disk, ctx, .error (translateLoadError e))
      | .ok table => do
        let out ← selectFrom disk ctx.dbDir table stmt
        .ok (disk, remember ctx table, out)) := by
  unfold executeSelect resolve
  rcases getOrLoad_resolve disk ctx stmt.tableName with
    ⟨table, i, hcached, hat, -, hget⟩ | ⟨hcached, hget⟩
  · rw [hget, hcached]
    simp only [ok_bind, hat, remember_cached hcached]
  · rw [hget, hcached]
    cases hload : loadTableRuntime disk ctx.dbDir stmt.tableName with
    | error f => rfl
    | ok loaded =>
      obtain ⟨disk', loaded⟩ := loaded
      cases loaded with
      | error e => rfl
      | ok table =>
        have hname := (load_cases hload).2.1
        simp only [ok_bind, push_get]
        rw [remember_new (hname ▸ hcached)]
        rfl

end TableCache
