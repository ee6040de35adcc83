import ThreadedDb.StatementRuns

/-!
# File, index and counter agree

Over data files that end at a line end, every cached table with an id column has exactly the
rows of its file in its index, and its next id is one above the largest stored id. Loading
establishes this and every statement keeps it.
-/
namespace IndexCoherence

open ByteText
open SchemaModel
open StorageModel
open StorageRoundTrip
open LineFraming (Terminated)
open SqlFrontEnd
open BPTreeHeap
open BPTreeMap
open RuntimeModel
open IndexBuild
open ExecutorModel
open TableCache
open InsertSpec
open StatementRuns

/-- The data file is there, and with an id column it holds what the index and the counter
say. -/
structure Coherent (data : Option Bytes) (table : TableRuntime) : Prop where
  present : ∃ contents, data = some contents
  indexed : ∀ i, table.idColumnIndex = some i → ∃ rows entries,
    Built table.schema.columnCount i (data.getD []) table.idIndex rows entries ∧
      table.nextId = maxId (entries.map Prod.fst) + 1

structure Healthy (disk : Disk) (ctx : ExecutionContext) : Prop where
  unique : UniqueNames ctx
  sound : SoundContext ctx
  terminated : ∀ name, Terminated 10 (file disk ctx.dbDir name)
  coherent : ∀ name table, cached ctx name = some table →
    Coherent (disk (dataPath ctx.dbDir name)) table

theorem healthy_init {disk : Disk} {dbDir : CString}
    (h : ∀ name, Terminated 10 (file disk dbDir name)) :
    Healthy disk (initExecutionContext dbDir) := by
  refine ⟨unique_init dbDir, sound_init dbDir, h, ?_⟩
  intro name table hcached
  cases hcached

theorem coherent_load {disk disk' : Disk} {dbDir name : CString} {table : TableRuntime}
    (h : loadTableRuntime disk dbDir name = .ok (disk', .ok table)) :
    Coherent (disk' (dataPath dbDir name)) table := by
  obtain ⟨hschema, -, hdisk, -, -, -, hbuilt⟩ := load_cases h
  constructor
  · rw [hdisk, Function.update_self]
    exact ⟨_, rfl⟩
  · intro i hi
    obtain ⟨rows, entries, hb, hnext, -⟩ := (build_iff _ _ _ _ _ _).mp (hbuilt i hi)
    rw [loadTableSchema_name hschema] at hb
    exact ⟨rows, entries, hb, hnext⟩

theorem resolve_present {disk disk' : Disk} {ctx : ExecutionContext} {name : CString}
    {found : Except EngineError TableRuntime} (h : resolve disk ctx name = .ok (disk', found))
    {path : CString} {contents : Bytes} (hpath : disk path = some contents) :
    disk' path = some contents := by
  rcases resolve_disk h with rfl | rfl
  · exact hpath
  · by_cases hp : path = dataPath ctx.dbDir name
    · subst hp
      rw [Function.update_self, hpath, Option.getD_some]
    · rw [Function.update_of_ne hp, hpath]

theorem healthy_resolve {disk disk' : Disk} {ctx : ExecutionContext} {name : CString}
    {found : Except EngineError TableRuntime} (h : Healthy disk ctx)
    (hresolve : resolve disk ctx name = .ok (disk', found)) : Healthy disk' ctx := by
  refine ⟨h.unique, h.sound, ?_, ?_⟩
  · intro other
    rw [resolve_file hresolve]
    exact h.terminated other
  · intro other table hcached
    have hco := h.coherent other table hcached
    obtain ⟨contents, hcontents⟩ := hco.present
    rw [resolve_present hresolve hcontents, ← hcontents]
    exact hco

theorem coherent_resolve {disk disk' : Disk} {ctx : ExecutionContext} {name : CString}
    {table : TableRuntime} (h : Healthy disk ctx)
    (hresolve : resolve disk ctx name = .ok (disk', .ok table)) :
    Coherent (disk' (dataPath ctx.dbDir name)) table := by
  rcases resolve_ok_cases hresolve with ⟨hcached, rfl⟩ | ⟨-, hload⟩
  · exact h.coherent name table hcached
  · exact coherent_load hload

theorem healthy_remember {disk : Disk} {ctx : ExecutionContext} {table : TableRuntime}
    (h : Healthy disk ctx) (hs : Sound table)
    (hco : Coherent (disk (dataPath ctx.dbDir table.tableName)) table) :
    Healthy disk (remember ctx table) := by
  refine ⟨uniqueNames_remember h.unique table, sound_remember h.sound hs, ?_, ?_⟩
  · rw [remember_dbDir]
    exact h.terminated
  · intro name t ht
    rw [remember_dbDir]
    rw [cached_remember] at ht
    split at ht
    · rename_i hname
      cases ht
      exact hname ▸ hco
    · exact h.coherent name t ht

/-- A field that does not end in a carriage return comes back from the file. -/
theorem storedRow_get {row : Row} {i : ℕ} {v : CString} (hv : row[i]? = some v)
    (hcr : v.bytes.getLast? ≠ some 13) : (storedRow row)[i]? = some v := by
  have hrow : row ≠ [] := by
    rintro rfl
    cases hv
  obtain ⟨init, w, rfl⟩ := exists_concat hrow
  rw [storedRow_concat]
  rcases Nat.lt_or_ge i init.length with hlt | hge
  · rw [List.getElem?_append_left hlt] at hv ⊢
    exact hv
  · have hi : i = init.length := by
      have := (List.getElem?_eq_some_iff.mp hv).1
      simp only [List.length_append, List.length_singleton] at this
      omega
    subst hi
    rw [List.getElem?_concat_length] at hv ⊢
    cases hv
    congr 1
    exact CString.ext (stripCr_other hcr)

theorem decimal_no_cr (n : ℕ) : (decimal n).bytes.getLast? ≠ some 13 := by
  intro h
  have := mem_decimalBytes (List.mem_of_getLast? h)
  revert this
  decide

theorem idOf_stored {row : Row} {i : ℕ} {k : UInt64} (hk : k ≠ 0)
    (h : row[i]? = some (decimal k.toNat)) : idOf i (storedRow row) = some k :=
  (idOf_iff i _ k).mpr ⟨hk, storedRow_get h (decimal_no_cr _)⟩

/-- The row that an INSERT appended is the new last row, its id the new largest one. -/
theorem coherent_inserted {table table' : TableRuntime} {row : Row} {contents : Bytes}
    {generatedId : Option UInt64} (hs : Sound table) (hterm : Terminated 10 contents)
    (h : Coherent (some contents) table)
    (hins : Inserted table row contents.length table' generatedId) :
    Coherent (some (contents ++ encodeRow row)) table' := by
  refine ⟨⟨_, rfl⟩, ?_⟩
  intro i hi
  obtain ⟨-, hschema, hcol⟩ := hins.keeps
  rw [hcol] at hi
  obtain ⟨hnext, -, hat, tree, htree, rfl⟩ := hins.generated i hi
  obtain ⟨rows, entries, hb, hmax⟩ := h.indexed i hi
  obtain ⟨es, statuses, hrun⟩ := hb.tree_run
  have hfresh : table.nextId ∉ entries.map Prod.fst := by
    intro hmem
    exact hs.next_fresh hnext hrun.denotes ((hrun.keys _).mpr hmem)
  obtain ⟨es', tree', htree', hrun', -⟩ :=
    afterInserts_step hrun table.nextId (contents.length : Int)
  rw [htree, Except.ok.injEq, Prod.mk.injEq] at htree'
  obtain ⟨rfl, -⟩ := htree'
  refine ⟨rows ++ [(contents.length, storedRow row)],
    entries ++ [(table.nextId, (contents.length : Int))], ⟨?_, ?_, ?_, es', _, hrun'⟩, ?_⟩
  · exact decodeFile_append hterm hb.decoded (row_ne_nil hins.row_length) hins.row_length
  · rw [idEntries_append hb.ids, idEntries, idOf_stored hnext hat]
    rfl
  · rw [List.map_append, List.map_singleton, ← List.concat_eq_append]
    exact List.Nodup.concat hfresh hb.distinct
  · change table.nextId + 1 = _
    have hle : maxId (entries.map Prod.fst) ≤ table.nextId := by
      rw [hmax] at hnext ⊢
      exact (lt_succ_of_le le_rfl hnext).le
    rw [List.map_append, List.map_singleton, maxId_concat, max_eq_right hle]

theorem healthy_step {disk disk' : Disk} {ctx ctx' : ExecutionContext} {stmt : Statement}
    {out : Except EngineError ExecResult} (h : Healthy disk ctx)
    (heffect : Effect disk ctx stmt disk' ctx' out) : Healthy disk' ctx' := by
  cases heffect with
  | loadFailed _ hresolve => exact healthy_resolve h hresolve
  | rejected stmt hresolve hreject =>
    apply healthy_remember (healthy_resolve h hresolve) (resolve_sound h.sound hresolve)
    rw [resolve_name hresolve]
    exact coherent_resolve h hresolve
  | selected stmt hresolve hselect =>
    apply healthy_remember (healthy_resolve h hresolve) (resolve_sound h.sound hresolve)
    rw [resolve_name hresolve]
    exact coherent_resolve h hresolve
  | @inserted stmt disk₁ table table' row generatedId hresolve hinsert =>
    have h₁ := healthy_resolve h hresolve
    have hs := resolve_sound h.sound hresolve
    have hco := coherent_resolve h hresolve
    obtain ⟨contents, hcontents⟩ := hco.present
    have hfile : file disk₁ ctx.dbDir stmt.tableName = contents := by
      rw [file, hcontents, Option.getD_some]
    rw [hfile] at hinsert ⊢
    have hterm : Terminated 10 contents := hfile ▸ h₁.terminated stmt.tableName
    have hname : table'.tableName = stmt.tableName :=
      hinsert.keeps.1.trans (resolve_name hresolve)
    refine ⟨uniqueNames_remember h.unique table',
      sound_remember h.sound (sound_inserted hs hinsert), ?_, ?_⟩
    · intro name
      rw [remember_dbDir, file]
      by_cases hp : dataPath ctx.dbDir name = dataPath ctx.dbDir stmt.tableName
      · rw [hp, Function.update_self, Option.getD_some]
        exact terminated_encodeRow contents row
      · rw [Function.update_of_ne hp]
        exact h₁.terminated name
    · intro name t ht
      rw [remember_dbDir]
      rw [cached_remember, hname] at ht
      split at ht
      · rename_i heq
        cases ht
        rw [← heq, Function.update_self]
        exact coherent_inserted hs hterm (hcontents ▸ hco) hinsert
      · rename_i hne
        rw [Function.update_of_ne (fun hp => hne (dataPath_inj hp).symm)]
        exact h₁.coherent name t ht

theorem run_healthy {disk : Disk} {ctx : ExecutionContext} (h : Healthy disk ctx)
    (stmts : List Statement) :
    ∃ disk' ctx' outs, runStatements disk ctx stmts = .ok (disk', ctx', outs) ∧
      Healthy disk' ctx' :=
  run_invariant Healthy (fun _ _ h => h.sound)
    (fun _ _ _ _ _ _ h heffect => healthy_step h heffect) stmts disk ctx h

theorem exhausted_step {disk disk' : Disk} {ctx ctx' : ExecutionContext} {stmt : Statement}
    {out : Except EngineError ExecResult} {name : CString} {table : TableRuntime} {i : ℕ}
    (hcached : cached ctx name = some table) (hid : table.idColumnIndex = some i)
    (hnext : table.nextId = 0) (heffect : Effect disk ctx stmt disk' ctx' out) :
    cached ctx' name = some table ∧
      ∀ ins, stmt = .insert ins → ins.tableName = name → ∃ e, out = .error e := by
  have hkeep {d : Disk} {t : TableRuntime} (hresolve : resolve disk ctx name = .ok (d, .ok t)) :
      t = table := by
    rw [resolve, hcached] at hresolve
    cases hresolve
    rfl
  by_cases hname : name = stmt.tableName
  · subst hname
    cases heffect with
    | loadFailed _ hresolve => exact ⟨hcached, fun ins _ _ => ⟨_, rfl⟩⟩
    | rejected stmt hresolve hreject =>
      obtain rfl := hkeep hresolve
      rw [remember_cached hcached]
      exact ⟨hcached, fun ins _ _ => ⟨_, rfl⟩⟩
    | inserted stmt hresolve hinsert =>
      obtain rfl := hkeep hresolve
      exact absurd hnext (hinsert.generated i hid).1
    | selected stmt hresolve hselect =>
      obtain rfl := hkeep hresolve
      rw [remember_cached hcached]
      exact ⟨hcached, fun ins heq _ => by cases heq⟩
  · refine ⟨(effect_cached_other heffect hname).trans hcached, ?_⟩
    rintro ins rfl hins
    exact absurd hins.symm hname

theorem exhausted_run {ctx : ExecutionContext} {name : CString} {table : TableRuntime} {i : ℕ}
    (hctx : SoundContext ctx) (hcached : cached ctx name = some table)
    (hid : table.idColumnIndex = some i) (hnext : table.nextId = 0) (disk : Disk)
    (stmts : List Statement) :
    ∃ disk' ctx' outs, runStatements disk ctx stmts = .ok (disk', ctx', outs) ∧
      ∀ (j : ℕ) (ins : InsertStatement), stmts[j]? = some (.insert ins) →
        ins.tableName = name → ∃ e, outs[j]? = some (.error e) := by
  induction stmts generalizing disk ctx with
  | nil => exact ⟨disk, ctx, [], rfl, by simp⟩
  | cons stmt stmts ih =>
    obtain ⟨disk₁, ctx₁, out, hexec, heffect⟩ := executeStatement_effect disk hctx stmt
    obtain ⟨hcached₁, hout⟩ := exhausted_step hcached hid hnext heffect
    obtain ⟨disk', ctx', outs, hrun, hall⟩ := ih (effect_sound heffect hctx) hcached₁ disk₁
    refine ⟨disk', ctx', out :: outs,
      runStatements_cons.mpr ⟨disk₁, ctx₁, out, outs, hexec, hrun, rfl⟩, ?_⟩
    intro j ins hj hins
    cases j with
    | zero =>
      obtain ⟨e, rfl⟩ := hout ins (by simpa using hj) hins
      exact ⟨e, rfl⟩
    | succ j => exact hall j ins (by simpa using hj) hins

section Rows

variable {contents : Bytes} {table : TableRuntime} {i : ℕ} {rows : List (ℕ × Row)}
  {entries : List (UInt64 × Int)}

theorem decimal_of_id {k j : UInt64} (hj : j ≠ 0) (h : decimal k.toNat = decimal j.toNat) :
    k = j := by
  have hparse := (IdText.parseCanonical_iff (decimal j.toNat) j).mpr ⟨hj, rfl⟩
  rw [← h] at hparse
  by_cases hk : k = 0
  · subst hk
    cases hparse
  · have hparse' := (IdText.parseCanonical_iff (decimal k.toNat) k).mpr ⟨hk, rfl⟩
    rw [hparse] at hparse'
    cases hparse'
    rfl

theorem row_has_id (hb : Built table.schema.columnCount i contents table.idIndex rows entries)
    {o : ℕ} {row : Row} (hmem : (o, row) ∈ rows) :
    ∃ k, k ∈ entries.map Prod.fst ∧ k ≠ 0 ∧ row[i]? = some (decimal k.toNat) := by
  have hids := idEntries_ids hb.ids
  have hin : idOf i row ∈ rows.map (fun r => idOf i r.2) := List.mem_map_of_mem hmem
  rw [hids] at hin
  obtain ⟨k, hk, hid⟩ := List.mem_map.mp hin
  obtain ⟨hne, htext⟩ := (idOf_iff i row k).mp hid.symm
  exact ⟨k, hk, hne, htext⟩

theorem search_iff_row
    (hb : Built table.schema.columnCount i contents table.idIndex rows entries) (k : UInt64)
    (v : Int) :
    bptreeSearch table.idIndex k = .ok (.ok (some v)) ↔
      ∃ o row, (o, row) ∈ rows ∧ v = (o : Int) ∧ row[i]? = some (decimal k.toNat) := by
  obtain ⟨es, statuses, hrun⟩ := hb.tree_run
  rw [bptreeSearch_lookup hrun.denotes, hrun.lookups, Except.ok.injEq, Except.ok.injEq,
    ← mem_iff_lookup hb.distinct, mem_idEntries hb.ids]
  constructor
  · rintro ⟨o, row, hmem, rfl, hid⟩
    exact ⟨o, row, hmem, rfl, ((idOf_iff i row k).mp hid).2⟩
  · rintro ⟨o, row, hmem, rfl, htext⟩
    obtain ⟨j, -, hj, htext'⟩ := row_has_id hb hmem
    rw [htext] at htext'
    have hkj : k = j := decimal_of_id hj (Option.some.inj htext')
    exact ⟨o, row, hmem, rfl, (idOf_iff i row k).mpr ⟨hkj ▸ hj, htext⟩⟩

theorem ids_distinct
    (hb : Built table.schema.columnCount i contents table.idIndex rows entries) :
    (rows.map (fun r => r.2[i]?)).Nodup := by
  have hids : (rows.map (fun r => idOf i r.2)).Nodup := by
    rw [idEntries_ids hb.ids]
    exact hb.distinct.map (Option.some_injective _)
  have hmap : rows.map (fun r => idOf i r.2) =
      (rows.map (fun r => r.2[i]?)).map (fun t => t.bind parseCanonicalPositiveUInt64) := by
    rw [List.map_map]
    rfl
  rw [hmap] at hids
  exact hids.of_map

end Rows

/-- These rows are the data file, and index and counter of the table are about them. -/
structure RowsIndexed (disk : Disk) (ctx : ExecutionContext) (table : TableRuntime) (i : ℕ)
    (rows : List (ℕ × Row)) : Prop where
  delivered : deliveredRows disk ctx.dbDir table.tableName table.schema.columnCount =
    .ok (.ok rows)
  found_iff : ∀ (k : UInt64) (v : Int), bptreeSearch table.idIndex k = .ok (.ok (some v)) ↔
    ∃ o row, (o, row) ∈ rows ∧ v = (o : Int) ∧ row[i]? = some (decimal k.toNat)
  distinct : (rows.map (fun r => r.2[i]?)).Nodup
  below_next : ∀ o row, (o, row) ∈ rows → ∃ k : UInt64, row[i]? = some (decimal k.toNat) ∧
    (table.nextId ≠ 0 → k < table.nextId)
  exhausted : table.nextId = 0 → ∀ more, ∃ disk' ctx' outs,
    runStatements disk ctx more = .ok (disk', ctx', outs) ∧
    ∀ (j : ℕ) (ins : InsertStatement), more[j]? = some (.insert ins) →
      ins.tableName = table.tableName → ∃ e, outs[j]? = some (.error e)

/-- From a fresh context over data files that are missing, empty or newline-terminated, every
run keeps file, index and counter of every cached id table together. -/
theorem run_keeps_index_coherent (disk : Disk) (dbDir : CString)
    (hfiles : ∀ name, Terminated 10 (file disk dbDir name)) (stmts : List Statement) :
    ∃ disk' ctx' outs,
      runStatements disk (initExecutionContext dbDir) stmts = .ok (disk', ctx', outs) ∧
      ∀ table ∈ ctx'.tables, ∀ i, table.idColumnIndex = some i →
        ∃ rows, RowsIndexed disk' ctx' table i rows := by
  obtain ⟨disk', ctx', outs, hrun, h⟩ := run_healthy (healthy_init hfiles) stmts
  refine ⟨disk', ctx', outs, hrun, ?_⟩
  intro table htable i hi
  have hcached : cached ctx' table.tableName = some table := KeyedStore.find_of_mem h.unique htable
  obtain ⟨rows, entries, hb, hnext⟩ := (h.coherent _ table hcached).indexed i hi
  refine ⟨rows, (deliveredRows_iff _ _ _ _ _).mpr hb.decoded, search_iff_row hb, ids_distinct hb,
    ?_, ?_⟩
  · intro o row hmem
    obtain ⟨k, hk, -, htext⟩ := row_has_id hb hmem
    refine ⟨k, htext, fun hne => ?_⟩
    rw [hnext] at hne ⊢
    exact lt_succ_of_le (le_maxId hk) hne
  · intro hzero more
    exact exhausted_run h.sound hcached hi hzero disk' more

def usersDisk : Disk := fun path =>
  if path = schemaPath (.lit "db") (.lit "users") then some (ascii "id\nname\n") else none

theorem usersDisk_terminated (name : CString) : Terminated 10 (file usersDisk (.lit "db") name) := by
  left
  unfold file usersDisk
  rw [if_neg (dataPath_ne_schemaPath _ _ _), Option.getD_none]

def kim : InsertStatement := ⟨.lit "users", [], [⟨.string, .lit "kim"⟩]⟩

theorem users_cached {disk' : Disk} {ctx' : ExecutionContext}
    {outs : List (Except EngineError ExecResult)}
    (h : runStatements usersDisk (initExecutionContext (.lit "db")) [.insert kim] =
      .ok (disk', ctx', outs)) :
    ∃ table, cached ctx' (.lit "users") = some table ∧ table.idColumnIndex = some 0 := by
  have heval : (runStatements usersDisk (initExecutionContext (.lit "db")) [.insert kim]).map
      (fun r => (cached r.2.1 (.lit "users")).map TableRuntime.idColumnIndex) =
        .ok (some (some 0)) := by decide +kernel
  rw [h] at heval
  simpa [Except.map] using heval

theorem users_index_coherent :
    ∃ disk' ctx' outs,
      runStatements usersDisk (initExecutionContext (.lit "db")) [.insert kim] =
        .ok (disk', ctx', outs) ∧
      ∃ table ∈ ctx'.tables, table.idColumnIndex = some 0 ∧
        ∃ rows, RowsIndexed disk' ctx' table 0 rows := by
  obtain ⟨disk', ctx', outs, hrun, hall⟩ :=
    run_keeps_index_coherent usersDisk (.lit "db") usersDisk_terminated [.insert kim]
  obtain ⟨table, hcached, hid⟩ := users_cached hrun
  have hmem := KeyedStore.mem_of_find hcached
  exact ⟨disk', ctx', outs, hrun, table, hmem, hid, hall table hmem 0 hid⟩

end IndexCoherence
