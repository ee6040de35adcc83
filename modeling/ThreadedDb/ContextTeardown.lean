import ThreadedDb.BPTreeDestruction
import ThreadedDb.StatementRuns

/-!
# Taking the execution context down

`free_execution_context` destroys the index of every cached table. Each of these indexes came from
`bptree_init` by inserts, those of the build over the data file and those of the INSERTs behind it,
so the teardown frees all nodes of all indexes.
-/
namespace ContextTeardown

open ByteText
open SchemaModel
open StorageModel (Row)
open SqlFrontEnd (Statement)
open BPTreeHeap
open BPTreeInsertion
open BPTreeMap
open BPTreeFailures
open BPTreeDestruction
open RuntimeModel
open ExecutorModel
open TableCache
open IndexBuild
open StatementRuns
open CheckedArray (Checked ok_bind)

/-- The loop of `free_execution_context` over the indexes: the nodes freed, table by table. Names
and schemas have one owner each and are left out. -/
def freeIndexes : List TableRuntime → Checked (List (List Ptr))
  | [] => .ok []
  | table :: rest => do
    let (_, freed) ← bptreeDestroy table.idIndex
    let others ← freeIndexes rest
    .ok (freed :: others)

def freeExecutionContext (ctx : ExecutionContext) : Checked (List (List Ptr)) :=
  freeIndexes ctx.tables

def AllNodesOf (table : TableRuntime) (freed : List Ptr) : Prop :=
  freed.Perm (List.range table.idIndex.nodes.length)

theorem freeIndexes_frees {tables : List TableRuntime}
    (h : ∀ table ∈ tables, Reachable table.idIndex) :
    ∃ freed, freeIndexes tables = .ok freed ∧ List.Forall₂ AllNodesOf tables freed := by
  induction tables with
  | nil => exact ⟨[], rfl, .nil⟩
  | cons table tables ih =>
    obtain ⟨es, hfills⟩ := reachable_fills (h table List.mem_cons_self)
    obtain ⟨freed, hdestroy, hfreed⟩ := bptreeDestroy_fills hfills
    obtain ⟨others, hothers, hall⟩ := ih (fun t ht => h t (List.mem_cons_of_mem _ ht))
    refine ⟨freed :: others, ?_, .cons hfreed hall⟩
    simp only [freeIndexes, hdestroy, hothers, ok_bind]

structure Grown (ctx : ExecutionContext) : Prop where
  sound : SoundContext ctx
  indexes : ∀ table ∈ ctx.tables, Reachable table.idIndex

theorem reachable_insert {tree tree' : BPTree} (h : Reachable tree) {key : UInt64} {offset : Int}
    {status : IndexStatus} (hins : bptreeInsert [] tree key offset = .ok (tree', status)) :
    Reachable tree' :=
  .insert h (.inr (.inr (grants_nil _))) hins

theorem reachable_load {disk disk' : Disk} {dbDir name : CString} {table : TableRuntime}
    (h : loadTableRuntime disk dbDir name = .ok (disk', .ok table)) :
    Reachable table.idIndex := by
  obtain ⟨-, -, -, -, -, hnoid, hbuilt⟩ := load_cases h
  cases hcol : table.idColumnIndex with
  | none =>
    rw [hnoid hcol]
    exact .init
  | some i =>
    obtain ⟨rows, entries, hb, -, -⟩ := (build_iff _ _ _ _ _ _).mp (hbuilt i hcol)
    obtain ⟨es, statuses, hrun⟩ := hb.tree_run
    exact reachable_insertAll .init hrun.run

theorem reachable_resolve {disk disk' : Disk} {ctx : ExecutionContext} {name : CString}
    {table : TableRuntime} (hctx : Grown ctx)
    (h : resolve disk ctx name = .ok (disk', .ok table)) : Reachable table.idIndex := by
  rcases resolve_ok_cases h with ⟨hcached, -⟩ | ⟨-, hload⟩
  · exact hctx.indexes table (KeyedStore.mem_of_find hcached)
  · exact reachable_load hload

theorem reachable_inserted {table table' : TableRuntime} {row : Row} {offset : ℕ}
    {generatedId : Option UInt64} (h : Reachable table.idIndex)
    (hins : Inserted table row offset table' generatedId) : Reachable table'.idIndex := by
  cases hid : table.idColumnIndex with
  | none =>
    obtain ⟨rfl, -⟩ := hins.plain hid
    exact h
  | some i =>
    obtain ⟨-, -, -, tree, htree, rfl⟩ := hins.generated i hid
    exact reachable_insert h htree

theorem grown_remember {ctx : ExecutionContext} {table : TableRuntime} (hctx : Grown ctx)
    (hsound : Sound table) (h : Reachable table.idIndex) : Grown (remember ctx table) := by
  refine ⟨sound_remember hctx.sound hsound, ?_⟩
  intro t ht
  rw [remember_tables] at ht
  rcases KeyedStore.mem_put ht with rfl | ht
  · exact h
  · exact hctx.indexes t ht

theorem grown_step {disk disk' : Disk} {ctx ctx' : ExecutionContext} {stmt : Statement}
    {out : Except EngineError ExecResult} (hctx : Grown ctx)
    (h : Effect disk ctx stmt disk' ctx' out) : Grown ctx' := by
  cases h with
  | loadFailed _ hresolve => exact hctx
  | rejected stmt hresolve hreject =>
    exact grown_remember hctx (resolve_sound hctx.sound hresolve) (reachable_resolve hctx hresolve)
  | inserted stmt hresolve hinsert =>
    exact grown_remember hctx (sound_inserted (resolve_sound hctx.sound hresolve) hinsert)
      (reachable_inserted (reachable_resolve hctx hresolve) hinsert)
  | selected stmt hresolve hselect =>
    exact grown_remember hctx (resolve_sound hctx.sound hresolve) (reachable_resolve hctx hresolve)

theorem grown_init (dbDir : CString) : Grown (initExecutionContext dbDir) :=
  ⟨sound_init dbDir, fun _ h => absurd h List.not_mem_nil⟩

/-- Whatever the files hold and whatever is run, statements that are turned down included, where no
write and no allocation fails: the teardown ends without a fault and frees every node of every
index exactly once. -/
theorem teardown_frees_every_index (disk : Disk) (dbDir : CString) (stmts : List Statement) :
    ∃ disk' ctx outs, runStatements disk (initExecutionContext dbDir) stmts =
        .ok (disk', ctx, outs) ∧
      ∃ freed, freeExecutionContext ctx = .ok freed ∧
        List.Forall₂ AllNodesOf ctx.tables freed := by
  obtain ⟨disk', ctx, outs, hrun, hgrown⟩ := run_invariant (fun _ ctx => Grown ctx)
    (fun _ _ h => h.sound) (fun _ _ _ _ _ _ h heffect => grown_step h heffect) stmts disk _
    (grown_init dbDir)
  exact ⟨disk', ctx, outs, hrun, freeIndexes_frees hgrown.indexes⟩

end ContextTeardown
