import ThreadedDb.IndexCoherence

/-!
# Restarting

A context that only inserts into one table is thrown away and the table is loaded again. The
index that loading builds is the one that inserting built, because both insert the ids in file
order. They part when the last id, `2^64 - 1`, was given out: the counter wrapped to 0 and went
on serving, while loading refuses the file.
-/
namespace RestartEquivalence

open ByteText
open SchemaModel
open StorageModel
open StorageRoundTrip
open LineFraming (Terminated)
open SqlFrontEnd
open BPTreeHeap
open BPTreeMap
open RuntimeModel
open IndexBuild
open ExecutorModel
open TableCache
open InsertSpec
open StatementRuns
open IndexCoherence
open CheckedArray (ok_bind)

/-- The context has this table, or would load it, and knows no other. -/
structure Serves (dbDir name : CString) (disk : Disk) (ctx : ExecutionContext) (disk₁ : Disk)
    (table : TableRuntime) (i : ℕ) : Prop where
  dir : ctx.dbDir = dbDir
  resolved : resolve disk ctx name = .ok (disk₁, .ok table)
  alone : ∀ t : TableRuntime, t.tableName = name →
    remember ctx t = (initExecutionContext dbDir).push t
  sound : Sound table
  terminated : Terminated 10 (file disk₁ dbDir name)
  coherent : Coherent (disk₁ (dataPath dbDir name)) table
  schema : loadTableSchema name (disk₁ (schemaPath dbDir name)) = .ok table.schema
  id_column : table.idColumnIndex = some i

theorem cached_init (dbDir name : CString) : cached (initExecutionContext dbDir) name = none := rfl

theorem remember_push {dbDir : CString} {table t : TableRuntime}
    (h : t.tableName = table.tableName) :
    remember ((initExecutionContext dbDir).push table) t =
      (initExecutionContext dbDir).push t := by
  unfold remember
  simp [ExecutionContext.push, initExecutionContext, h]

theorem cached_push (dbDir : CString) (table : TableRuntime) :
    cached ((initExecutionContext dbDir).push table) table.tableName = some table := by
  simp [cached, KeyedStore.find, ExecutionContext.push, initExecutionContext]

theorem serves_fresh {dbDir name : CString} {disk disk₁ : Disk} {table : TableRuntime} {i : ℕ}
    (hterm : Terminated 10 (file disk dbDir name))
    (hload : loadTableRuntime disk dbDir name = .ok (disk₁, .ok table))
    (hid : table.idColumnIndex = some i) :
    Serves dbDir name disk (initExecutionContext dbDir) disk₁ table i := by
  have hresolve : resolve disk (initExecutionContext dbDir) name = .ok (disk₁, .ok table) := hload
  refine ⟨rfl, hresolve, ?_, sound_load hload, ?_, coherent_load hload, ?_, hid⟩
  · intro t _
    exact remember_new (cached_init dbDir _)
  · rw [resolve_file hresolve]
    exact hterm
  · have hsame : disk₁ (schemaPath dbDir name) = disk (schemaPath dbDir name) :=
      resolve_disk_other hresolve (dataPath_ne_schemaPath _ _ _).symm
    rw [hsame]
    exact (load_cases hload).1

theorem serves_insert {dbDir name : CString} {disk disk₁ disk' : Disk}
    {ctx ctx' : ExecutionContext} {table : TableRuntime} {i : ℕ} {stmt : InsertStatement}
    {result : ExecResult} (h : Serves dbDir name disk ctx disk₁ table i)
    (hname : stmt.tableName = name)
    (heffect : Effect disk ctx (.insert stmt) disk' ctx' (.ok result)) :
    ∃ table', Serves dbDir name disk' ctx' disk' table' i ∧ table.nextId ≠ 0 ∧
      table'.nextId = table.nextId + 1 := by
  subst hname
  generalize hs : Statement.insert stmt = s at heffect
  generalize ho : (Except.ok result : Except EngineError ExecResult) = out at heffect
  cases heffect with
  | loadFailed _ hresolve => cases ho
  | rejected stmt' hresolve hreject => cases ho
  | selected stmt' hresolve hselect => cases hs
  | @inserted stmt' disk₂ t table' row generatedId hresolve hinsert =>
    cases hs
    rw [h.resolved] at hresolve
    cases hresolve
    obtain ⟨hnext, -, -, tree, -, htable⟩ := hinsert.generated i h.id_column
    obtain ⟨hkeep, hschema, hcol⟩ := hinsert.keeps
    have hname : table.tableName = stmt.tableName := resolve_name h.resolved
    have hname' : table'.tableName = stmt.tableName := hkeep.trans hname
    obtain ⟨contents, hcontents⟩ := h.coherent.present
    have hfile : file disk₁ dbDir stmt.tableName = contents := by
      rw [file, hcontents, Option.getD_some]
    have hterm : Terminated 10 contents := hfile ▸ h.terminated
    rw [h.dir, hfile] at hinsert ⊢
    refine ⟨table', ⟨?_, ?_, ?_, sound_inserted h.sound hinsert, ?_, ?_, ?_, ?_⟩, hnext, ?_⟩
    · rw [remember_dbDir, h.dir]
    · rw [h.alone table' hname', resolve, ← hname', cached_push]
    · intro t ht
      rw [h.alone table' hname', remember_push (ht.trans hname'.symm)]
    · rw [file, Function.update_self, Option.getD_some]
      exact terminated_encodeRow contents row
    · rw [Function.update_self]
      exact coherent_inserted h.sound hterm (hcontents ▸ h.coherent) hinsert
    · rw [Function.update_of_ne (dataPath_ne_schemaPath _ _ _).symm, hschema]
      exact h.schema
    · rw [hcol]
      exact h.id_column
    · rw [htable]

/-- The counter after `k` successful INSERTs: it moved by `k`, and wrapped at the very last one
if at all. -/
structure Advanced (before after : UInt64) (k : ℕ) : Prop where
  value : after.toNat = (before.toNat + k) % 2 ^ 64
  room : k ≠ 0 → before ≠ 0 ∧ before.toNat + k ≤ 2 ^ 64

theorem advanced_cons {before middle after : UInt64} {k : ℕ} (hne : before ≠ 0)
    (hstep : middle = before + 1) (h : Advanced middle after k) : Advanced before after (k + 1) := by
  have hbefore : before.toNat < 2 ^ 64 := before.toNat_lt
  have hmiddle : middle.toNat = (before.toNat + 1) % 2 ^ 64 := by
    rw [hstep, UInt64.toNat_add, UInt64.toNat_one]
  obtain ⟨hvalue, hroom⟩ := h
  refine ⟨by omega, fun _ => ⟨hne, ?_⟩⟩
  by_cases hk : k = 0
  · omega
  · obtain ⟨hne', hle⟩ := hroom hk
    have hpos : middle.toNat ≠ 0 := by
      intro hzero
      exact hne' (UInt64.toNat_inj.mp (by simpa using hzero))
    omega

theorem serves_run {dbDir name : CString} {stmts : List InsertStatement}
    (hnames : ∀ s ∈ stmts, s.tableName = name) {disk disk₁ disk' : Disk}
    {ctx ctx' : ExecutionContext} {table : TableRuntime} {i : ℕ}
    {outs : List (Except EngineError ExecResult)}
    (h : Serves dbDir name disk ctx disk₁ table i) (hctx : SoundContext ctx)
    (hrun : runStatements disk ctx (stmts.map .insert) = .ok (disk', ctx', outs))
    (hok : ∀ out ∈ outs, ∃ result, out = .ok result) :
    ∃ disk₂ table', Serves dbDir name disk' ctx' disk₂ table' i ∧
      Advanced table.nextId table'.nextId stmts.length := by
  induction stmts generalizing disk disk₁ ctx table outs with
  | nil =>
    cases hrun
    have hlt : table.nextId.toNat < 2 ^ 64 := table.nextId.toNat_lt
    refine ⟨disk₁, table, h, ⟨?_, fun hne => absurd rfl hne⟩⟩
    rw [List.length_nil, Nat.add_zero, Nat.mod_eq_of_lt hlt]
  | cons stmt stmts ih =>
    obtain ⟨disk₂, ctx₂, out, rest, hexec, hrest, rfl⟩ := runStatements_cons.mp hrun
    obtain ⟨result, rfl⟩ := hok out List.mem_cons_self
    have heffect := effect_of_execute hctx hexec
    obtain ⟨table₂, hserves, hne, hnext⟩ :=
      serves_insert h (hnames stmt List.mem_cons_self) heffect
    obtain ⟨disk₃, table', hserves', hadv⟩ := ih
      (fun s hs => hnames s (List.mem_cons_of_mem _ hs)) hserves (effect_sound heffect hctx) hrest
      (fun o ho => hok o (List.mem_cons_of_mem _ ho))
    exact ⟨disk₃, table', hserves', advanced_cons hne hnext hadv⟩

/-- A coherent table whose counter did not wrap is what loading its file gives. -/
theorem load_coherent {disk : Disk} {dbDir name : CString} {table : TableRuntime} {i : ℕ}
    (hname : table.tableName = name) (hs : Sound table)
    (hco : Coherent (disk (dataPath dbDir name)) table)
    (hschema : loadTableSchema name (disk (schemaPath dbDir name)) = .ok table.schema)
    (hid : table.idColumnIndex = some i) (hnext : table.nextId ≠ 0) :
    loadTableRuntime disk dbDir name = .ok (disk, .ok table) := by
  obtain ⟨contents, hcontents⟩ := hco.present
  obtain ⟨rows, entries, hb, hmax⟩ := hco.indexed i hid
  have hsame : Function.update disk (dataPath dbDir name)
      (some ((disk (dataPath dbDir name)).getD [])) = disk := by
    rw [hcontents, Option.getD_some, ← hcontents, Function.update_eq_self]
  have hbuild : buildIdIndexForTable disk dbDir table.schema i =
      .ok (.ok (table.idIndex, table.nextId)) := by
    rw [build_iff, hs.schema_name, hname]
    exact ⟨rows, entries, hb, hmax, hnext⟩
  have hready : table.idIndexReady = true := by
    rw [hs.ready, TableRuntime.hasIdColumn, hid]
    rfl
  have hcol : schemaFindColumnIndex table.schema (.lit "id") = some i :=
    hs.id_column.symm.trans hid
  unfold loadTableRuntime
  rw [hschema]
  simp only [ensureTableDataFile, hsame, hcol, hbuild, ok_bind]
  rw [← hname, ← hid, ← hready]

theorem load_exhausted {disk : Disk} {dbDir name : CString} {table : TableRuntime} {i : ℕ}
    (hco : Coherent (disk (dataPath dbDir name)) table)
    (hschema : loadTableSchema name (disk (schemaPath dbDir name)) = .ok table.schema)
    (hs : Sound table) (hid : table.idColumnIndex = some i) (hnext : table.nextId = 0)
    {disk' : Disk} {table' : TableRuntime} :
    loadTableRuntime disk dbDir name ≠ .ok (disk', .ok table') := by
  intro hload
  obtain ⟨hsame, -, hdisk, hcol, -, -, hbuilt⟩ := load_cases hload
  rw [hschema, Except.ok.injEq] at hsame
  obtain ⟨rows, entries, hb, hmax⟩ := hco.indexed i hid
  have hid' : table'.idColumnIndex = some i := by
    rw [hcol, ← hsame, ← hs.id_column, hid]
  obtain ⟨rows', entries', hb', hmax', hne⟩ := (build_iff _ _ _ _ _ _).mp (hbuilt i hid')
  rw [← hsame, loadTableSchema_name hschema, hdisk, Function.update_self, Option.getD_some] at hb'
  have hrows : rows' = rows := Option.some.inj (hb'.decoded.symm.trans hb.decoded)
  subst hrows
  have hentries : entries' = entries := Option.some.inj (hb'.ids.symm.trans hb.ids)
  subst hentries
  exact hne (hmax'.trans (hmax.symm.trans hnext))

/-- The new context loads the table, with the index contents and the next id of the old one,
and from there on every run of statements is the same in both. -/
def SameAfterRestart (disk : Disk) (ctx : ExecutionContext) (dbDir name : CString) : Prop :=
  ∃ fresh old : Disk × ExecutionContext, ∃ i j : ℕ, ∃ table table' : TableRuntime,
    getOrLoadTableRuntime disk (initExecutionContext dbDir) name =
      .ok (fresh.1, fresh.2, .ok i) ∧
    fresh.2.tables[i]? = some table ∧
    getOrLoadTableRuntime disk ctx name = .ok (old.1, old.2, .ok j) ∧
    old.2.tables[j]? = some table' ∧
    (∀ k, bptreeSearch table.idIndex k = bptreeSearch table'.idIndex k) ∧
    table.nextId = table'.nextId ∧
    ∀ more, runStatements fresh.1 fresh.2 more = runStatements old.1 old.2 more

theorem getOrLoad_fresh {disk disk' : Disk} {dbDir name : CString}
    {loaded : Except EngineError TableRuntime}
    (h : loadTableRuntime disk dbDir name = .ok (disk', loaded)) :
    getOrLoadTableRuntime disk (initExecutionContext dbDir) name = .ok (disk',
      match loaded with
      | .error e => (initExecutionContext dbDir, .error e)
      | .ok table => ((initExecutionContext dbDir).push table, .ok 0)) := by
  rcases getOrLoad_resolve disk (initExecutionContext dbDir) name with
    ⟨table, i, hcached, -⟩ | ⟨-, hget⟩
  · cases hcached
  · have hload : loadTableRuntime disk (initExecutionContext dbDir).dbDir name =
        .ok (disk', loaded) := h
    rw [hget, hload, ok_bind]
    cases loaded <;> rfl

/-- The old context ends up with this table alone, cached already or loaded now. -/
theorem serves_getOrLoad {dbDir name : CString} {disk disk₁ : Disk} {ctx : ExecutionContext}
    {table : TableRuntime} {i : ℕ} (h : Serves dbDir name disk ctx disk₁ table i) :
    ∃ j, getOrLoadTableRuntime disk ctx name =
        .ok (disk₁, (initExecutionContext dbDir).push table, .ok j) ∧
      ((initExecutionContext dbDir).push table).tables[j]? = some table := by
  have hname : table.tableName = name := resolve_name h.resolved
  have hctx := h.alone table hname
  rcases getOrLoad_resolve disk ctx name with ⟨t, j, hcached, hat, -, hget⟩ | ⟨hcached, hget⟩
  · rcases resolve_ok_cases h.resolved with ⟨hsame, rfl⟩ | ⟨hnone, -⟩
    · rw [hcached, Option.some.injEq] at hsame
      subst hsame
      rw [remember_cached hcached] at hctx
      rw [hctx] at hat
      refine ⟨j, ?_, hat⟩
      rw [hget, ← hctx]
    · rw [hcached] at hnone
      cases hnone
  · rcases resolve_ok_cases h.resolved with ⟨hsome, -⟩ | ⟨-, hload⟩
    · rw [hcached] at hsome
      cases hsome
    · rw [remember_new (hname ▸ hcached)] at hctx
      refine ⟨ctx.tables.length, ?_, hctx ▸ push_get ctx table⟩
      rw [hget, hload, ok_bind]
      dsimp only
      rw [hctx]

/-- From a fresh context, a table with an id column that loads, and only successful INSERTs
into it: restarting changes nothing exactly as long as the last id is not given out. -/
theorem restart_same_iff {disk disk₀ : Disk} {dbDir name : CString} {table : TableRuntime}
    {i : ℕ} (hterm : Terminated 10 (file disk dbDir name))
    (hload : loadTableRuntime disk dbDir name = .ok (disk₀, .ok table))
    (hid : table.idColumnIndex = some i) (stmts : List InsertStatement)
    (hnames : ∀ s ∈ stmts, s.tableName = name) {disk' : Disk} {ctx' : ExecutionContext}
    {outs : List (Except EngineError ExecResult)}
    (hrun : runStatements disk (initExecutionContext dbDir) (stmts.map .insert) =
      .ok (disk', ctx', outs))
    (hok : ∀ out ∈ outs, ∃ result, out = .ok result) :
    SameAfterRestart disk' ctx' dbDir name ↔ table.nextId.toNat + stmts.length < 2 ^ 64 := by
  obtain ⟨disk₂, table', hserves, hadv⟩ := serves_run hnames (serves_fresh hterm hload hid)
    (sound_init dbDir) hrun hok
  have hname : table'.tableName = name := resolve_name hserves.resolved
  have hfirst : table.nextId ≠ 0 := by
    obtain ⟨-, -, -, -, -, -, hbuilt⟩ := load_cases hload
    obtain ⟨-, -, -, -, hne⟩ := (build_iff _ _ _ _ _ _).mp (hbuilt i hid)
    exact hne
  have hwrap : table'.nextId = 0 ↔ ¬ table.nextId.toNat + stmts.length < 2 ^ 64 := by
    have hlt : table.nextId.toNat < 2 ^ 64 := table.nextId.toNat_lt
    have hpos : table.nextId.toNat ≠ 0 := by
      intro hzero
      exact hfirst (UInt64.toNat_inj.mp (by simpa using hzero))
    have hzero : table'.nextId = 0 ↔ table'.nextId.toNat = 0 := by
      rw [← UInt64.toNat_inj]
      rfl
    have hvalue := hadv.value
    rw [hzero]
    by_cases hk : stmts.length = 0
    · omega
    · have := (hadv.room hk).2
      omega
  constructor
  · rintro ⟨fresh, old, j, -, t, -, hfresh, -⟩
    by_contra hnot
    have hzero := hwrap.mpr hnot
    -- the old context has the table in its cache: it could not have loaded it
    have hdisk : disk₂ = disk' := by
      rcases resolve_ok_cases hserves.resolved with ⟨-, hsame⟩ | ⟨-, hold⟩
      · exact hsame
      · obtain ⟨-, -, -, -, -, -, hbuilt⟩ := load_cases hold
        obtain ⟨-, -, -, -, hne⟩ := (build_iff _ _ _ _ _ _).mp (hbuilt i hserves.id_column)
        exact absurd hzero hne
    subst hdisk
    obtain ⟨d, loaded, hd⟩ := load_total disk₂ dbDir name
    rw [getOrLoad_fresh hd] at hfresh
    cases loaded with
    | error e => simp at hfresh
    | ok t' =>
      exact load_exhausted hserves.coherent hserves.schema hserves.sound hserves.id_column hzero hd
  · intro hroom
    have hne : table'.nextId ≠ 0 := fun hzero => hwrap.mp hzero hroom
    obtain ⟨j, hold, hat⟩ := serves_getOrLoad hserves
    have hreload : loadTableRuntime disk' dbDir name = .ok (disk₂, .ok table') := by
      rcases resolve_ok_cases hserves.resolved with ⟨-, rfl⟩ | ⟨-, hold⟩
      · exact load_coherent hname hserves.sound hserves.coherent hserves.schema hserves.id_column hne
      · rw [hserves.dir] at hold
        exact hold
    exact ⟨(disk₂, (initExecutionContext dbDir).push table'),
      (disk₂, (initExecutionContext dbDir).push table'), 0, j, table', table',
      getOrLoad_fresh hreload, by simp [ExecutionContext.push, initExecutionContext], hold, hat,
      fun _ => rfl, rfl, fun _ => rfl⟩

theorem users_restart :
    ∃ disk' ctx' outs,
      runStatements usersDisk (initExecutionContext (.lit "db")) [.insert kim] =
        .ok (disk', ctx', outs) ∧ SameAfterRestart disk' ctx' (.lit "db") (.lit "users") := by
  obtain ⟨disk₀, loaded, hload⟩ := load_total usersDisk (.lit "db") (.lit "users")
  obtain ⟨disk', ctx', outs, hrun, -⟩ := run_healthy (healthy_init usersDisk_terminated)
    [.insert kim]
  have hloaded : (loadTableRuntime usersDisk (.lit "db") (.lit "users")).map
      (fun r => r.2.toOption.map (fun t => (t.idColumnIndex, t.nextId))) =
        .ok (some (some 0, 1)) := by decide +kernel
  have houts : (runStatements usersDisk (initExecutionContext (.lit "db"))
      [.insert kim]).map (fun r => r.2.2) = .ok [.ok (insertResult (some 1))] := by decide +kernel
  rw [hload] at hloaded
  rw [hrun] at houts
  cases loaded with
  | error e => cases hloaded
  | ok table =>
    simp only [Except.map, Except.toOption, Option.map_some, Except.ok.injEq, Option.some.injEq,
      Prod.mk.injEq] at hloaded
    simp only [Except.map, Except.ok.injEq] at houts
    refine ⟨disk', ctx', outs, hrun, ?_⟩
    apply (restart_same_iff (usersDisk_terminated _) hload hloaded.1 [kim] ?_ hrun ?_).mpr
    · rw [hloaded.2]
      decide
    · intro s hs
      rw [List.mem_singleton.mp hs]
      rfl
    · intro out hout
      rw [houts] at hout
      exact ⟨_, List.mem_singleton.mp hout⟩

/-- The table `users (id, name)` with one row, whose id leaves one more to give out. -/
def lastIdDisk : Disk := fun path =>
  if path = schemaPath (.lit "db") (.lit "users") then some (ascii "id\nname\n")
  else if path = dataPath (.lit "db") (.lit "users") then
    some (ascii "18446744073709551614|x\n")
  else none

/-- The INSERT of the last id succeeds, and then the table does not load any more. -/
theorem last_id_ends_restart :
    ∃ disk₀ table disk' ctx' outs,
      Terminated 10 (file lastIdDisk (.lit "db") (.lit "users")) ∧
      loadTableRuntime lastIdDisk (.lit "db") (.lit "users") = .ok (disk₀, .ok table) ∧
      table.idColumnIndex = some 0 ∧
      runStatements lastIdDisk (initExecutionContext (.lit "db")) [.insert kim] =
        .ok (disk', ctx', outs) ∧
      (∀ out ∈ outs, ∃ result, out = .ok result) ∧
      ¬ SameAfterRestart disk' ctx' (.lit "db") (.lit "users") := by
  obtain ⟨disk₀, loaded, hload⟩ := load_total lastIdDisk (.lit "db") (.lit "users")
  have hloaded : (loadTableRuntime lastIdDisk (.lit "db") (.lit "users")).map
      (fun r => r.2.toOption.map TableRuntime.idColumnIndex) = .ok (some (some 0)) := by
    decide +kernel
  have houts : (runStatements lastIdDisk (initExecutionContext (.lit "db"))
      [.insert kim]).map (fun r => (r.2.2, (getOrLoadTableRuntime r.1
        (initExecutionContext (.lit "db")) (.lit "users")).map (fun l => l.2.2.toOption))) =
      .ok ([.ok (insertResult (some 18446744073709551615))], .ok none) := by decide +kernel
  rw [hload] at hloaded
  cases loaded with
  | error e => cases hloaded
  | ok table =>
    cases hrun : runStatements lastIdDisk (initExecutionContext (.lit "db")) [.insert kim] with
    | error f =>
      rw [hrun] at houts
      cases houts
    | ok r =>
      obtain ⟨disk', ctx', outs⟩ := r
      rw [hrun] at houts
      simp only [Except.map, Except.ok.injEq, Prod.mk.injEq] at houts
      refine ⟨disk₀, table, disk', ctx', outs, Or.inr (by decide +kernel), hload, ?_, rfl, ?_, ?_⟩
      · simpa [Except.map, Except.toOption] using hloaded
      · intro out hout
        rw [houts.1] at hout
        exact ⟨_, List.mem_singleton.mp hout⟩
      · rintro ⟨fresh, old, i, j, t, t', hfresh, -⟩
        rw [hfresh] at houts
        cases houts.2

end RestartEquivalence
