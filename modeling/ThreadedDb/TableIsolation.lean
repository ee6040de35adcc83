import ThreadedDb.TableSections
import ThreadedDb.ConcurrentCalls

/-!
# Tables do not interfere

Two runs through one context each: all statements, and only those on one table. Both see the same
files and the same cache entry of that table at every step, so the statements on it have the same
results.
-/
namespace TableIsolation

open ByteText
open SchemaModel
open SqlFrontEnd
open RuntimeModel
open ExecutorModel
open TableCache
open StatementRuns
open TableSections
open ConcurrentCalls
open CheckedArray (ok_bind)

abbrev Result := Except EngineError ExecResult

def resultsOn (name : CString) (stmts : List Statement) (outs : List Result) : List Result :=
  ((stmts.zip outs).filter (fun p => p.1.tableName = name)).map Prod.snd

theorem resultsOn_cons (name : CString) (stmt : Statement) (stmts : List Statement) (out : Result)
    (outs : List Result) : resultsOn name (stmt :: stmts) (out :: outs) =
      if stmt.tableName = name then out :: resultsOn name stmts outs
      else resultsOn name stmts outs := by
  unfold resultsOn
  by_cases hname : stmt.tableName = name
  · rw [if_pos hname, List.zip_cons_cons, List.filter_cons_of_pos (by simpa using hname),
      List.map_cons]
  · rw [if_neg hname, List.zip_cons_cons, List.filter_cons_of_neg (by simpa using hname)]

theorem statement_ends {db : Db} (h : Good db) (stmt : Statement) : ∃ db' out,
    (execute stmt).run db = .ok (db', out) ∧ Good db' ∧
      executeStatement noFaults db.disk db.ctx stmt = .ok (db'.disk, db'.ctx, out) := by
  obtain ⟨db', out, response, hrun, hgood, -, -⟩ := execute_ends h stmt
  refine ⟨db', out, hrun, hgood, ?_⟩
  rw [execute_run, hrun, ok_bind]

/-- Two runs whose states agree on a table: the second skips the statements on the others. -/
theorem run_restricted {a a' : Db} (hgood : Good a) (hgood' : Good a') {name : CString}
    (hagree : Agree a a' name) (stmts : List Statement) : ∃ b outs b' outs',
      runStatements a.disk a.ctx stmts = .ok (b.disk, b.ctx, outs) ∧
      runStatements a'.disk a'.ctx (stmts.filter (fun stmt => stmt.tableName = name)) =
        .ok (b'.disk, b'.ctx, outs') ∧
      outs' = resultsOn name stmts outs ∧ Agree b b' name ∧ b.ctx.dbDir = a.ctx.dbDir := by
  induction stmts generalizing a a' with
  | nil => exact ⟨a, [], a', [], rfl, rfl, rfl, hagree, rfl⟩
  | cons stmt stmts ih =>
    obtain ⟨b, out, hrun, hb, hexec⟩ := statement_ends hgood stmt
    have huntouched := run_untouched (execute_local stmt) hrun
    by_cases hname : stmt.tableName = name
    · -- both runs execute the statement
      subst hname
      obtain ⟨b', hrun', hagree'⟩ := run_agree (execute_local stmt) hagree hrun
      have hb' := execute_good hgood' hrun'
      have hexec' : executeStatement noFaults a'.disk a'.ctx stmt = .ok (b'.disk, b'.ctx, out) := by
        rw [execute_run, hrun', ok_bind]
      obtain ⟨c, outs, c', outs', hrest, hrest', houts, hc, hdir⟩ := ih hb hb' hagree'
      refine ⟨c, out :: outs, c', out :: outs',
        runStatements_cons.mpr ⟨_, _, out, outs, hexec, hrest, rfl⟩, ?_, ?_, hc,
        hdir.trans huntouched.dbDir⟩
      · rw [List.filter_cons_of_pos (by simp)]
        exact runStatements_cons.mpr ⟨_, _, out, outs', hexec', hrest', rfl⟩
      · rw [resultsOn_cons, if_pos rfl, houts]
    · -- only the first does, on another table
      have hother : Agree b a name := (huntouched.agree (Ne.symm hname)).symm
      obtain ⟨c, outs, c', outs', hrest, hrest', houts, hc, hdir⟩ :=
        ih hb hgood' (hother.trans hagree)
      refine ⟨c, out :: outs, c', outs',
        runStatements_cons.mpr ⟨_, _, out, outs, hexec, hrest, rfl⟩, ?_, ?_, hc,
        hdir.trans huntouched.dbDir⟩
      · rw [List.filter_cons_of_neg (by simpa using hname)]
        exact hrest'
      · rw [resultsOn_cons, if_neg hname, houts]

theorem run_statements_same {a a' : Db} (hgood : Good a) (hgood' : Good a') (hsame : Same a a')
    (stmts : List Statement) : ∃ b b' outs,
      runStatements a.disk a.ctx stmts = .ok (b.disk, b.ctx, outs) ∧
      runStatements a'.disk a'.ctx stmts = .ok (b'.disk, b'.ctx, outs) ∧ Same b b' := by
  induction stmts generalizing a a' with
  | nil => exact ⟨a, a', [], rfl, rfl, hsame⟩
  | cons stmt stmts ih =>
    obtain ⟨b, out, hrun, hb, hexec⟩ := statement_ends hgood stmt
    obtain ⟨b', hrun', hsame'⟩ := run_same (execute_local stmt) hsame hrun
    have hexec' : executeStatement noFaults a'.disk a'.ctx stmt = .ok (b'.disk, b'.ctx, out) := by
      rw [execute_run, hrun', ok_bind]
    obtain ⟨c, c', outs, hrest, hrest', hc⟩ := ih hb (execute_good hgood' hrun') hsame'
    exact ⟨c, c', out :: outs, runStatements_cons.mpr ⟨_, _, out, outs, hexec, hrest, rfl⟩,
      runStatements_cons.mpr ⟨_, _, out, outs, hexec', hrest', rfl⟩, hc⟩

theorem statements_swap {a : Db} (hgood : Good a) {x y : Statement}
    (hne : x.tableName ≠ y.tableName) : ∃ b c out out',
      runStatements a.disk a.ctx [x, y] = .ok (b.disk, b.ctx, [out, out']) ∧
      runStatements a.disk a.ctx [y, x] = .ok (c.disk, c.ctx, [out', out]) ∧
      Good b ∧ Good c ∧ Same c b := by
  obtain ⟨a₁, out, hx, hgood₁, hexec₁⟩ := statement_ends hgood x
  obtain ⟨b, out', hxy, hb, hexec₂⟩ := statement_ends hgood₁ y
  obtain ⟨c₁, c, hy, hyx, hsame⟩ := run_commutes (execute_local x) (execute_local y) hne hx hxy
  have hc₁ := execute_good hgood hy
  have hexec₃ : executeStatement noFaults a.disk a.ctx y = .ok (c₁.disk, c₁.ctx, out') := by
    rw [execute_run, hy, ok_bind]
  have hexec₄ : executeStatement noFaults c₁.disk c₁.ctx x = .ok (c.disk, c.ctx, out) := by
    rw [execute_run, hyx, ok_bind]
  refine ⟨b, c, out, out', ?_, ?_, hb, execute_good hc₁ hyx, hsame⟩
  · exact runStatements_cons.mpr ⟨_, _, out, [out'], hexec₁,
      runStatements_cons.mpr ⟨_, _, out', [], hexec₂, rfl, rfl⟩, rfl⟩
  · exact runStatements_cons.mpr ⟨_, _, out', [out], hexec₃,
      runStatements_cons.mpr ⟨_, _, out, [], hexec₄, rfl, rfl⟩, rfl⟩

theorem statements_end {a : Db} (hgood : Good a) (stmts : List Statement) : ∃ b outs,
    runStatements a.disk a.ctx stmts = .ok (b.disk, b.ctx, outs) ∧ Good b := by
  induction stmts generalizing a with
  | nil => exact ⟨a, [], rfl, hgood⟩
  | cons stmt stmts ih =>
    obtain ⟨b, out, -, hb, hexec⟩ := statement_ends hgood stmt
    obtain ⟨c, outs, hrest, hc⟩ := ih hb
    exact ⟨c, out :: outs, runStatements_cons.mpr ⟨_, _, out, outs, hexec, hrest, rfl⟩, hc⟩

/-- Swapping two statements on different tables inside a run swaps their results; all other
results, every file and every cached table stay. -/
def SwapsFreely (disk : Disk) (dbDir : CString) (before : List Statement) (x y : Statement)
    (after : List Statement) : Prop :=
  ∃ disk' ctx₁ ctx₂ outs out out' outs',
    runStatements disk (initExecutionContext dbDir) (before ++ [x, y] ++ after) =
      .ok (disk', ctx₁, outs ++ [out, out'] ++ outs') ∧
    runStatements disk (initExecutionContext dbDir) (before ++ [y, x] ++ after) =
      .ok (disk', ctx₂, outs ++ [out', out] ++ outs') ∧
    outs.length = before.length ∧ ∀ name, cached ctx₁ name = cached ctx₂ name

theorem runStatements_length {disk disk' : Disk} {ctx ctx' : ExecutionContext}
    {stmts : List Statement} {outs : List Result}
    (h : runStatements disk ctx stmts = .ok (disk', ctx', outs)) : outs.length = stmts.length := by
  induction stmts generalizing disk ctx outs with
  | nil =>
    cases h
    rfl
  | cons stmt stmts ih =>
    obtain ⟨disk₁, ctx₁, out, rest, -, hrest, rfl⟩ := runStatements_cons.mp h
    rw [List.length_cons, List.length_cons, ih hrest]

theorem statements_swap_inside (disk : Disk) (dbDir : CString) (before after : List Statement)
    {x y : Statement} (hne : x.tableName ≠ y.tableName) :
    SwapsFreely disk dbDir before x y after := by
  obtain ⟨a, outs, hbefore, ha⟩ := statements_end (good_init disk dbDir) before
  obtain ⟨b, c, out, out', hxy, hyx, hb, hc, hsame⟩ := statements_swap ha hne
  obtain ⟨e, e', outs', hafter', hafter, hsame'⟩ := run_statements_same hc hb hsame after
  refine ⟨e'.disk, e'.ctx, e.ctx, outs, out, out', outs', ?_, ?_, runStatements_length hbefore,
    hsame'.cached⟩
  · exact runStatements_append (runStatements_append hbefore hxy) hafter
  · rw [hsame'.disk]
    exact runStatements_append (runStatements_append hbefore hyx) hafter'

/-- For every table, a run of statements on any tables does what the run of the statements on
that table alone does: the same results, the same two files, and the same cached schema, index
and next id. Statements on different tables commute. -/
theorem tables_do_not_interfere (disk : Disk) (dbDir : CString) (stmts : List Statement)
    (name : CString) :
    (∃ disk₁ ctx₁ outs disk₂ ctx₂,
      runStatements disk (initExecutionContext dbDir) stmts = .ok (disk₁, ctx₁, outs) ∧
      runStatements disk (initExecutionContext dbDir)
        (stmts.filter (fun stmt => stmt.tableName = name)) =
          .ok (disk₂, ctx₂, resultsOn name stmts outs) ∧
      disk₂ (dataPath dbDir name) = disk₁ (dataPath dbDir name) ∧
      disk₂ (schemaPath dbDir name) = disk₁ (schemaPath dbDir name) ∧
      cached ctx₂ name = cached ctx₁ name) ∧
    ∀ before x y after, x.tableName ≠ y.tableName → SwapsFreely disk dbDir before x y after := by
  constructor
  · have hgood := good_init disk dbDir
    obtain ⟨b, outs, b', outs', hrun, hrun', rfl, hagree, hdir⟩ :=
      run_restricted hgood hgood ((Same.refl _).agree name) stmts
    change b.ctx.dbDir = dbDir at hdir
    refine ⟨b.disk, b.ctx, outs, b'.disk, b'.ctx, hrun, hrun', ?_, ?_, hagree.cached⟩
    · rw [← hdir]
      exact hagree.data
    · rw [← hdir]
      exact hagree.schema
  · intro before x y after hne
    exact statements_swap_inside disk dbDir before after hne

end TableIsolation
