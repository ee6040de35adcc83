import ThreadedDb.InsertSpec
import ThreadedDb.IndexBuild

/-!
# Statements and runs of statements

What one statement does when no file operation and no allocation fails: it resolves its table,
and then rejects, appends one row, or reads. Every cached table stays sound, so no statement
runs into a fault, whatever the files hold.
-/
namespace StatementRuns

open ByteText
open SchemaModel
open StorageModel
open StorageRoundTrip
open SqlFrontEnd
open BPTreeHeap
open BPTreeMap
open LabelledBPlusTree (insertEntry insertEntry_perm)
open RuntimeModel
open IndexBuild
open ExecutorModel
open TableCache
open InsertSpec
open CheckedArray (Checked ok_bind bind_eq_ok)

def file (disk : Disk) (dbDir name : CString) : Bytes := (disk (dataPath dbDir name)).getD []

/-- A cached table: its id column is the schema's, its tree is well formed, and the next id lies
above every key, or wrapped to 0. -/
structure Sound (table : TableRuntime) : Prop where
  schema_name : table.schema.tableName = table.tableName
  id_column : table.idColumnIndex = schemaFindColumnIndex table.schema (.lit "id")
  ready : table.idIndexReady = table.hasIdColumn
  index : ∃ es, Denotes table.idIndex es ∧
    ∀ k ∈ es.map Prod.fst, table.nextId = 0 ∨ k < table.nextId

def SoundContext (ctx : ExecutionContext) : Prop :=
  ∀ name table, cached ctx name = some table → Sound table

theorem Sound.id_lt {table : TableRuntime} (h : Sound table) {i : ℕ}
    (hi : table.idColumnIndex = some i) : i < table.schema.columnCount :=
  (findColumn_spec (h.id_column.symm.trans hi)).1

theorem lt_succ_of_le {k m : UInt64} (h : k ≤ m) (hm : m + 1 ≠ 0) : k < m + 1 := by
  rw [Ne, succ_eq_zero_iff] at hm
  have hmlt : m.toNat < 2 ^ 64 := m.toNat_lt
  simp only [uint64Max] at hm
  rw [UInt64.le_iff_toNat_le] at h
  rw [UInt64.lt_iff_toNat_lt, UInt64.toNat_add, UInt64.toNat_one, Nat.mod_eq_of_lt (by omega)]
  omega

theorem toNat_succ {m : UInt64} (hm : m + 1 ≠ 0) : (m + 1).toNat = m.toNat + 1 := by
  rw [Ne, succ_eq_zero_iff] at hm
  have hmlt : m.toNat < 2 ^ 64 := m.toNat_lt
  simp only [uint64Max] at hm
  rw [UInt64.toNat_add, UInt64.toNat_one, Nat.mod_eq_of_lt (by omega)]

theorem sound_load {disk disk' : Disk} {dbDir name : CString} {table : TableRuntime}
    (h : loadTableRuntime disk dbDir name = .ok (disk', .ok table)) : Sound table := by
  obtain ⟨hschema, hname, -, hid, hready, hnoid, hbuilt⟩ := load_cases h
  refine ⟨by rw [loadTableSchema_name hschema, hname], hid, hready, ?_⟩
  cases hcol : table.idColumnIndex with
  | none => exact ⟨[], by rw [hnoid hcol]; exact denotes_init, by simp⟩
  | some i =>
    obtain ⟨rows, entries, hb, hnext, hne⟩ := (build_iff _ _ _ _ _ _).mp (hbuilt i hcol)
    obtain ⟨es, statuses, hrun⟩ := hb.tree_run
    refine ⟨es, hrun.denotes, fun k hk => Or.inr ?_⟩
    rw [hnext] at hne ⊢
    exact lt_succ_of_le (le_maxId ((hrun.keys k).mp hk)) hne

theorem load_total (disk : Disk) (dbDir name : CString) :
    ∃ disk' loaded, loadTableRuntime disk dbDir name = .ok (disk', loaded) := by
  unfold loadTableRuntime
  split
  · exact ⟨_, _, rfl⟩
  rename_i schema _
  simp only [ensureTableDataFile]
  split
  · exact ⟨_, _, rfl⟩
  · rename_i i _
    obtain ⟨built, hbuilt⟩ := build_total (Function.update disk (dataPath dbDir name)
      (some ((disk (dataPath dbDir name)).getD []))) dbDir schema i
    rw [hbuilt, ok_bind]
    cases built with
    | error e => exact ⟨_, _, rfl⟩
    | ok index => exact ⟨_, _, rfl⟩

theorem load_disk {disk disk' : Disk} {dbDir name : CString}
    {loaded : Except EngineError TableRuntime}
    (h : loadTableRuntime disk dbDir name = .ok (disk', loaded)) :
    disk' = disk ∨ disk' = Function.update disk (dataPath dbDir name)
      (some ((disk (dataPath dbDir name)).getD [])) := by
  unfold loadTableRuntime at h
  split at h
  · cases h
    exact Or.inl rfl
  rename_i schema _
  simp only [ensureTableDataFile] at h
  split at h
  · cases h
    exact Or.inr rfl
  · rename_i i _
    obtain ⟨built, hbuilt⟩ := build_total (Function.update disk (dataPath dbDir name)
      (some ((disk (dataPath dbDir name)).getD []))) dbDir schema i
    rw [hbuilt, ok_bind] at h
    cases built with
    | error e =>
      cases h
      exact Or.inr rfl
    | ok index =>
      cases h
      exact Or.inr rfl

theorem resolve_total (disk : Disk) (ctx : ExecutionContext) (name : CString) :
    ∃ disk' found, resolve disk ctx name = .ok (disk', found) := by
  unfold resolve
  split
  · exact ⟨_, _, rfl⟩
  · exact load_total disk ctx.dbDir name

theorem resolve_disk {disk disk' : Disk} {ctx : ExecutionContext} {name : CString}
    {found : Except EngineError TableRuntime} (h : resolve disk ctx name = .ok (disk', found)) :
    disk' = disk ∨ disk' = Function.update disk (dataPath ctx.dbDir name)
      (some ((disk (dataPath ctx.dbDir name)).getD [])) := by
  unfold resolve at h
  split at h
  · cases h
    exact Or.inl rfl
  · exact load_disk h

theorem resolve_file {disk disk' : Disk} {ctx : ExecutionContext} {name : CString}
    {found : Except EngineError TableRuntime} (h : resolve disk ctx name = .ok (disk', found))
    (dbDir other : CString) : file disk' dbDir other = file disk dbDir other := by
  rcases resolve_disk h with rfl | rfl
  · rfl
  · unfold file
    by_cases hp : dataPath dbDir other = dataPath ctx.dbDir name
    · rw [hp, Function.update_self, Option.getD_some]
    · rw [Function.update_of_ne hp]

theorem resolve_sound {disk disk' : Disk} {ctx : ExecutionContext} {name : CString}
    {table : TableRuntime} (hctx : SoundContext ctx)
    (h : resolve disk ctx name = .ok (disk', .ok table)) : Sound table := by
  rcases resolve_ok_cases h with ⟨hcached, -⟩ | ⟨-, hload⟩
  · exact hctx name table hcached
  · exact sound_load hload

/-- One row went to the data file at `offset`, and with an id column into the index. -/
structure Inserted (table : TableRuntime) (row : Row) (offset : ℕ) (table' : TableRuntime)
    (generatedId : Option UInt64) : Prop where
  row_length : row.length = table.schema.columnCount
  plain : table.idColumnIndex = none → table' = table ∧ generatedId = none
  generated : ∀ i, table.idColumnIndex = some i → table.nextId ≠ 0 ∧
    generatedId = some table.nextId ∧ row[i]? = some (decimal table.nextId.toNat) ∧
    ∃ tree, bptreeInsert [] table.idIndex table.nextId offset = .ok (tree, .ok ()) ∧
      table' = { table with idIndex := tree, nextId := table.nextId + 1, idIndexReady := true }

theorem Inserted.keeps {table table' : TableRuntime} {row : Row} {offset : ℕ}
    {generatedId : Option UInt64} (h : Inserted table row offset table' generatedId) :
    table'.tableName = table.tableName ∧ table'.schema = table.schema ∧
      table'.idColumnIndex = table.idColumnIndex := by
  cases hid : table.idColumnIndex with
  | none =>
    obtain ⟨rfl, -⟩ := h.plain hid
    exact ⟨rfl, rfl, hid⟩
  | some i =>
    obtain ⟨-, -, -, tree, -, rfl⟩ := h.generated i hid
    exact ⟨rfl, rfl, hid⟩

theorem Sound.next_fresh {table : TableRuntime} (h : Sound table) (hnext : table.nextId ≠ 0)
    {es : List (UInt64 × Int)} (hd : Denotes table.idIndex es) :
    table.nextId ∉ es.map Prod.fst := by
  obtain ⟨es', hd', hkeys⟩ := h.index
  have hsame : ∀ k, k ∈ es.map Prod.fst → k ∈ es'.map Prod.fst := by
    intro k hk
    by_contra hnot
    have h₁ := bptreeInsert_duplicate hd hk 0
    obtain ⟨tree', h₂, -⟩ := bptreeInsert_fresh hd' hnot 0
    rw [h₁] at h₂
    cases h₂
  intro hmem
  rcases hkeys _ (hsame _ hmem) with hzero | hlt
  · exact hnext hzero
  · exact lt_irrefl _ hlt

theorem sound_inserted {table table' : TableRuntime} {row : Row} {offset : ℕ}
    {generatedId : Option UInt64} (h : Sound table)
    (hins : Inserted table row offset table' generatedId) : Sound table' := by
  cases hid : table.idColumnIndex with
  | none => exact (hins.plain hid).1 ▸ h
  | some i =>
    obtain ⟨hnext, -, -, tree, htree, rfl⟩ := hins.generated i hid
    obtain ⟨es, hd, hkeys⟩ := h.index
    obtain ⟨tree', htree', hd'⟩ := bptreeInsert_fresh hd (h.next_fresh hnext hd) (offset : Int)
    rw [htree] at htree'
    cases htree'
    refine ⟨h.schema_name, h.id_column, ?_, insertEntry table.nextId offset es, hd', ?_⟩
    · change true = table.idColumnIndex.isSome
      rw [hid]
      rfl
    · intro k hk
      change table.nextId + 1 = 0 ∨ k < table.nextId + 1
      by_cases hwrap : table.nextId + 1 = 0
      · exact Or.inl hwrap
      · right
        apply lt_succ_of_le _ hwrap
        rw [((insertEntry_perm table.nextId (offset : Int) es).map Prod.fst).mem_iff] at hk
        rcases List.mem_cons.mp hk with rfl | hk
        · exact le_rfl
        · exact ((hkeys k hk).resolve_left hnext).le

/-- Without faults an INSERT is turned down and changes nothing, or it inserts one row. -/
theorem insertInto_cases (disk : Disk) (dbDir : CString) {table : TableRuntime}
    (stmt : InsertStatement) (h : Sound table) :
    (∃ e, builtRow table stmt = .ok (.error e) ∧
      insertInto noFaults disk dbDir table stmt = .ok (disk, table, .error e)) ∨
    ∃ row table' generatedId, builtRow table stmt = .ok (.ok row) ∧
      Inserted table row (file disk dbDir stmt.tableName).length table' generatedId ∧
      insertInto noFaults disk dbDir table stmt =
        .ok (Function.update disk (dataPath dbDir stmt.tableName)
          (some (file disk dbDir stmt.tableName ++ encodeRow row)), table',
          .ok (insertResult generatedId)) := by
  unfold insertInto
  cases hid : table.idColumnIndex with
  | some i =>
    rw [if_pos (by simp [TableRuntime.hasIdColumn, hid])]
    rcases insertWithGeneratedId_cases noFaults disk dbDir stmt hid (h.id_lt hid) with
      ⟨e, hbuilt, he⟩ | ⟨hnext, row, hbuilt, hlen, hat, hrun⟩
    · exact Or.inl ⟨e, hbuilt, he⟩
    · right
      obtain ⟨es, hd, -⟩ := h.index
      obtain ⟨tree, htree, -⟩ := bptreeInsert_fresh hd (h.next_fresh hnext hd)
        ((file disk dbDir stmt.tableName).length : Int)
      obtain ⟨disk', happ, hdisk⟩ := appendRow_ok disk dbDir stmt.tableName (row_ne_nil hlen)
      refine ⟨row, { table with idIndex := tree, nextId := table.nextId + 1, idIndexReady := true },
        some table.nextId, hbuilt, ⟨hlen, fun hnone => ?_, fun j hj => ?_⟩, ?_⟩
      · rw [hid] at hnone
        cases hnone
      · rw [hid] at hj
        cases hj
        exact ⟨hnext, rfl, hat, tree, htree, rfl⟩
      · have hindex : bptreeInsert noFaults.index table.idIndex table.nextId
            (((disk (dataPath dbDir stmt.tableName)).getD []).length : Int) =
            .ok (tree, .ok ()) := htree
        rw [hrun, appendAndIndex, show noFaults.append = none from rfl, happ]
        simp only [hindex, ok_bind, hdisk]
        rfl
  | none =>
    rw [if_neg (by simp [TableRuntime.hasIdColumn, hid])]
    rcases insertExisting_cases noFaults disk dbDir stmt hid with
      ⟨e, hbuilt, he⟩ | ⟨row, hbuilt, hlen, hrun⟩
    · left
      exact ⟨e, hbuilt, by rw [he]⟩
    · right
      obtain ⟨disk', happ, hdisk⟩ := appendRow_ok disk dbDir stmt.tableName (row_ne_nil hlen)
      refine ⟨row, table, none, hbuilt, ⟨hlen, fun _ => ⟨rfl, rfl⟩, fun j hj => ?_⟩, ?_⟩
      · rw [hid] at hj
        cases hj
      · rw [hrun, appendRowToTable, show noFaults.append = none from rfl, happ]
        simp only [hdisk]
        rfl

theorem selectFrom_total (disk : Disk) (dbDir : CString) {table : TableRuntime} (h : Sound table)
    (stmt : SelectStatement) : ∃ out, selectFrom disk dbDir table stmt = .ok out := by
  have hindexed (k : UInt64) :
      ∃ selected, executeSelectWithIdIndex disk dbDir table stmt k = .ok selected := by
    obtain ⟨es, hd, -⟩ := h.index
    simp only [executeSelectWithIdIndex, bptreeSearch_lookup hd, ok_bind]
    cases es.lookup k with
    | none => exact ⟨_, rfl⟩
    | some o =>
      dsimp only
      split
      · exact ⟨_, rfl⟩
      · split
        · exact ⟨_, rfl⟩
        · exact ⟨_, rfl⟩
  have hscanned : ∃ selected, executeSelectWithFullScan disk dbDir table stmt = .ok selected := by
    simp only [executeSelectWithFullScan]
    have hcall : ∀ (rows : List Row) (row : Row) (offset : ℕ), True → ∃ signal,
        selectFullScanCallback table.schema stmt (stmt.whereClause.bind
          (fun clause => schemaFindColumnIndex table.schema clause.columnName)) rows row offset =
          .ok signal ∧ ∀ rows', signal = .proceed rows' → True := by
      intro rows row offset _
      unfold selectFullScanCallback
      split
      · exact ⟨_, rfl, fun _ _ => trivial⟩
      · exact ⟨_, rfl, fun _ _ => trivial⟩
    obtain ⟨r, hr⟩ := scan_total disk dbDir table.tableName table.schema.columnCount
      (fun _ => True) hcall (trivial : (fun _ => True) ([] : List Row))
    rw [hr, ok_bind]
    cases r with
    | error e => exact ⟨_, rfl⟩
    | ok rows => exact ⟨_, rfl⟩
  unfold selectFrom
  split
  · exact ⟨_, rfl⟩
  · cases canUseIdIndex table stmt with
    | some k =>
      obtain ⟨selected, hsel⟩ := hindexed k
      dsimp only
      rw [hsel, ok_bind]
      cases selected with
      | error e => exact ⟨_, rfl⟩
      | ok r => exact ⟨_, rfl⟩
    | none =>
      obtain ⟨selected, hsel⟩ := hscanned
      dsimp only
      rw [hsel, ok_bind]
      cases selected with
      | error e => exact ⟨_, rfl⟩
      | ok r => exact ⟨_, rfl⟩

inductive Effect (disk : Disk) (ctx : ExecutionContext) :
    Statement → Disk → ExecutionContext → Except EngineError ExecResult → Prop
  | loadFailed (stmt : Statement) {disk' : Disk} {e : EngineError}
      (hresolve : resolve disk ctx stmt.tableName = .ok (disk', .error e)) :
      Effect disk ctx stmt disk' ctx (.error (translateLoadError e))
  | rejected (stmt : InsertStatement) {disk' : Disk} {table : TableRuntime} {e : EngineError}
      (hresolve : resolve disk ctx stmt.tableName = .ok (disk', .ok table))
      (hreject : insertInto noFaults disk' ctx.dbDir table stmt = .ok (disk', table, .error e)) :
      Effect disk ctx (.insert stmt) disk' (remember ctx table) (.error e)
  | inserted (stmt : InsertStatement) {disk' : Disk} {table table' : TableRuntime} {row : Row}
      {generatedId : Option UInt64}
      (hresolve : resolve disk ctx stmt.tableName = .ok (disk', .ok table))
      (hinsert : Inserted table row (file disk' ctx.dbDir stmt.tableName).length table'
        generatedId) :
      Effect disk ctx (.insert stmt)
        (Function.update disk' (dataPath ctx.dbDir stmt.tableName)
          (some (file disk' ctx.dbDir stmt.tableName ++ encodeRow row)))
        (remember ctx table') (.ok (insertResult generatedId))
  | selected (stmt : SelectStatement) {disk' : Disk} {table : TableRuntime}
      {out : Except EngineError ExecResult}
      (hresolve : resolve disk ctx stmt.tableName = .ok (disk', .ok table))
      (hselect : selectFrom disk' ctx.dbDir table stmt = .ok out) :
      Effect disk ctx (.select stmt) disk' (remember ctx table) out

theorem executeStatement_effect (disk : Disk) {ctx : ExecutionContext} (hctx : SoundContext ctx)
    (stmt : Statement) :
    ∃ disk' ctx' out, executeStatement noFaults disk ctx stmt = .ok (disk', ctx', out) ∧
      Effect disk ctx stmt disk' ctx' out := by
  obtain ⟨disk₁, found, hresolve⟩ := resolve_total disk ctx stmt.tableName
  cases found with
  | error e =>
    refine ⟨disk₁, ctx, .error (translateLoadError e), ?_, .loadFailed stmt hresolve⟩
    cases stmt with
    | insert stmt =>
      have hresolve' : resolve disk ctx stmt.tableName = .ok (disk₁, .error e) := hresolve
      rw [executeStatement, executeInsert_resolve, hresolve', ok_bind]
    | select stmt =>
      have hresolve' : resolve disk ctx stmt.tableName = .ok (disk₁, .error e) := hresolve
      rw [executeStatement, executeSelect_resolve, hresolve', ok_bind]
  | ok table =>
    have hsound := resolve_sound hctx hresolve
    cases stmt with
    | insert stmt =>
      have hresolve' : resolve disk ctx stmt.tableName = .ok (disk₁, .ok table) := hresolve
      rcases insertInto_cases disk₁ ctx.dbDir stmt hsound with
        ⟨e, -, he⟩ | ⟨row, table', generatedId, -, hins, hrun⟩
      · refine ⟨disk₁, remember ctx table, .error e, ?_, .rejected stmt hresolve' he⟩
        simp only [executeStatement, executeInsert_resolve, hresolve', ok_bind, he]
      · refine ⟨_, remember ctx table', _, ?_, .inserted stmt hresolve' hins⟩
        simp only [executeStatement, executeInsert_resolve, hresolve', ok_bind, hrun]
    | select stmt =>
      have hresolve' : resolve disk ctx stmt.tableName = .ok (disk₁, .ok table) := hresolve
      obtain ⟨out, hout⟩ := selectFrom_total disk₁ ctx.dbDir hsound stmt
      refine ⟨disk₁, remember ctx table, out, ?_, .selected stmt hresolve' hout⟩
      simp only [executeStatement, executeSelect_resolve, hresolve', ok_bind, hout]

theorem effect_of_execute {disk disk' : Disk} {ctx ctx' : ExecutionContext}
    (hctx : SoundContext ctx) {stmt : Statement} {out : Except EngineError ExecResult}
    (h : executeStatement noFaults disk ctx stmt = .ok (disk', ctx', out)) :
    Effect disk ctx stmt disk' ctx' out := by
  obtain ⟨d, c, o, hrun, heffect⟩ := executeStatement_effect disk hctx stmt
  rw [h] at hrun
  cases hrun
  exact heffect

section Effect

variable {disk disk' : Disk} {ctx ctx' : ExecutionContext} {stmt : Statement}
  {out : Except EngineError ExecResult}

theorem effect_dbDir (h : Effect disk ctx stmt disk' ctx' out) : ctx'.dbDir = ctx.dbDir := by
  cases h with
  | loadFailed _ hresolve => rfl
  | rejected stmt hresolve hreject => exact remember_dbDir _ _
  | inserted stmt hresolve hinsert => exact remember_dbDir _ _
  | selected stmt hresolve hselect => exact remember_dbDir _ _

theorem effect_unique (h : Effect disk ctx stmt disk' ctx' out) (hu : UniqueNames ctx) :
    UniqueNames ctx' := by
  cases h with
  | loadFailed _ hresolve => exact hu
  | rejected stmt hresolve hreject => exact uniqueNames_remember hu _
  | inserted stmt hresolve hinsert => exact uniqueNames_remember hu _
  | selected stmt hresolve hselect => exact uniqueNames_remember hu _

theorem sound_remember {table : TableRuntime} (hctx : SoundContext ctx) (h : Sound table) :
    SoundContext (remember ctx table) := by
  intro name t ht
  rw [cached_remember] at ht
  split at ht
  · cases ht
    exact h
  · exact hctx name t ht

theorem effect_sound (h : Effect disk ctx stmt disk' ctx' out) (hctx : SoundContext ctx) :
    SoundContext ctx' := by
  cases h with
  | loadFailed _ hresolve => exact hctx
  | rejected stmt hresolve hreject => exact sound_remember hctx (resolve_sound hctx hresolve)
  | inserted stmt hresolve hinsert =>
    exact sound_remember hctx (sound_inserted (resolve_sound hctx hresolve) hinsert)
  | selected stmt hresolve hselect => exact sound_remember hctx (resolve_sound hctx hresolve)

theorem effect_cached_other (h : Effect disk ctx stmt disk' ctx' out) {name : CString}
    (hname : name ≠ stmt.tableName) : cached ctx' name = cached ctx name := by
  have hcache {table : TableRuntime} (htable : table.tableName = stmt.tableName) :
      cached (remember ctx table) name = cached ctx name := by
    rw [cached_remember, if_neg]
    rw [htable]
    exact hname.symm
  cases h with
  | loadFailed _ hresolve => rfl
  | rejected stmt hresolve hreject => exact hcache (resolve_name hresolve)
  | inserted stmt hresolve hinsert =>
    exact hcache (hinsert.keeps.1.trans (resolve_name hresolve))
  | selected stmt hresolve hselect => exact hcache (resolve_name hresolve)

theorem resolve_disk_other {found : Except EngineError TableRuntime} {name : CString}
    (h : resolve disk ctx name = .ok (disk', found)) {path : CString}
    (hpath : path ≠ dataPath ctx.dbDir name) : disk' path = disk path := by
  rcases resolve_disk h with rfl | rfl
  · rfl
  · rw [Function.update_of_ne hpath]

theorem effect_disk_other (h : Effect disk ctx stmt disk' ctx' out) {path : CString}
    (hpath : path ≠ dataPath ctx.dbDir stmt.tableName) : disk' path = disk path := by
  cases h with
  | loadFailed _ hresolve => exact resolve_disk_other hresolve hpath
  | rejected stmt hresolve hreject => exact resolve_disk_other hresolve hpath
  | inserted stmt hresolve hinsert =>
    exact (Function.update_of_ne hpath _ _).trans (resolve_disk_other hresolve hpath)
  | selected stmt hresolve hselect => exact resolve_disk_other hresolve hpath

end Effect

/-- `execute_statement` for each statement in turn, with the outcome of each. -/
def runStatements (disk : Disk) (ctx : ExecutionContext) :
    List Statement → Checked (Disk × ExecutionContext × List (Except EngineError ExecResult))
  | [] => .ok (disk, ctx, [])
  | stmt :: rest => do
    let (disk, ctx, out) ← executeStatement noFaults disk ctx stmt
    let (disk, ctx, outs) ← runStatements disk ctx rest
    .ok (disk, ctx, out :: outs)

theorem runStatements_cons {disk disk' : Disk} {ctx ctx' : ExecutionContext} {stmt : Statement}
    {stmts : List Statement} {outs : List (Except EngineError ExecResult)} :
    runStatements disk ctx (stmt :: stmts) = .ok (disk', ctx', outs) ↔
      ∃ disk₁ ctx₁ out rest, executeStatement noFaults disk ctx stmt = .ok (disk₁, ctx₁, out) ∧
        runStatements disk₁ ctx₁ stmts = .ok (disk', ctx', rest) ∧ outs = out :: rest := by
  rw [runStatements]
  constructor
  · intro h
    obtain ⟨⟨disk₁, ctx₁, out⟩, hexec, h⟩ := bind_eq_ok.mp h
    obtain ⟨⟨disk₂, ctx₂, rest⟩, hrest, h⟩ := bind_eq_ok.mp h
    cases h
    exact ⟨disk₁, ctx₁, out, rest, hexec, hrest, rfl⟩
  · rintro ⟨disk₁, ctx₁, out, rest, hexec, hrest, rfl⟩
    simp only [hexec, hrest, ok_bind]

theorem runStatements_append {disk disk₁ disk' : Disk} {ctx ctx₁ ctx' : ExecutionContext}
    {stmts more : List Statement} {outs outs' : List (Except EngineError ExecResult)}
    (h : runStatements disk ctx stmts = .ok (disk₁, ctx₁, outs))
    (hmore : runStatements disk₁ ctx₁ more = .ok (disk', ctx', outs')) :
    runStatements disk ctx (stmts ++ more) = .ok (disk', ctx', outs ++ outs') := by
  induction stmts generalizing disk ctx outs with
  | nil =>
    cases h
    exact hmore
  | cons stmt stmts ih =>
    obtain ⟨disk₂, ctx₂, out, rest, hexec, hrest, rfl⟩ := runStatements_cons.mp h
    exact runStatements_cons.mpr ⟨disk₂, ctx₂, out, rest ++ outs', hexec, ih hrest, rfl⟩

theorem run_invariant (P : Disk → ExecutionContext → Prop)
    (hsound : ∀ disk ctx, P disk ctx → SoundContext ctx)
    (hstep : ∀ disk ctx stmt disk' ctx' out, P disk ctx → Effect disk ctx stmt disk' ctx' out →
      P disk' ctx') (stmts : List Statement) (disk : Disk) (ctx : ExecutionContext)
    (h : P disk ctx) :
    ∃ disk' ctx' outs, runStatements disk ctx stmts = .ok (disk', ctx', outs) ∧ P disk' ctx' := by
  induction stmts generalizing disk ctx with
  | nil => exact ⟨disk, ctx, [], rfl, h⟩
  | cons stmt stmts ih =>
    obtain ⟨disk₁, ctx₁, out, hexec, heffect⟩ :=
      executeStatement_effect disk (hsound disk ctx h) stmt
    obtain ⟨disk', ctx', outs, hrun, hP⟩ := ih disk₁ ctx₁ (hstep _ _ _ _ _ _ h heffect)
    exact ⟨disk', ctx', out :: outs,
      runStatements_cons.mpr ⟨disk₁, ctx₁, out, outs, hexec, hrun, rfl⟩, hP⟩

theorem sound_init (dbDir : CString) : SoundContext (initExecutionContext dbDir) := by
  intro name table h
  cases h

theorem unique_init (dbDir : CString) : UniqueNames (initExecutionContext dbDir) :=
  List.nodup_nil

end StatementRuns
