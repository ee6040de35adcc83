import ThreadedDb.BPTreeMap
import ThreadedDb.StorageRoundTrip
import ThreadedDb.IdText

/-!
# The index that loading builds

`build_id_index_for_table` succeeds exactly when every line decodes, every id field is a
canonical id, no id comes twice and the largest one has a successor. The tree is then the one
that inserting the ids in file order builds.
-/
namespace IndexBuild

open ByteText
open SchemaModel
open StorageModel
open StorageRoundTrip
open BPTreeHeap
open BPTreeMap
open RuntimeModel
open CheckedArray (ok_bind bind_eq_ok)

def idOf (i : ℕ) (row : Row) : Option UInt64 := row[i]?.bind parseCanonicalPositiveUInt64

/-- Id and offset of every row, or nothing if a row has no canonical id. -/
def idEntries (i : ℕ) : List (ℕ × Row) → Option (List (UInt64 × Int))
  | [] => some []
  | (o, row) :: rest =>
    match idOf i row, idEntries i rest with
    | some k, some entries => some ((k, (o : Int)) :: entries)
    | _, _ => none

def maxId (ids : List UInt64) : UInt64 := ids.foldl max 0

theorem idEntries_cons {i o : ℕ} {row : Row} {rows : List (ℕ × Row)}
    {entries : List (UInt64 × Int)} :
    idEntries i ((o, row) :: rows) = some entries ↔ ∃ k rest, idOf i row = some k ∧
      idEntries i rows = some rest ∧ entries = (k, (o : Int)) :: rest := by
  rw [idEntries]
  cases idOf i row with
  | none => simp
  | some k =>
    cases idEntries i rows with
    | none => simp
    | some rest => simp [eq_comm]

theorem idEntries_append {i : ℕ} {rows more : List (ℕ × Row)} {entries : List (UInt64 × Int)}
    (h : idEntries i rows = some entries) :
    idEntries i (rows ++ more) = (idEntries i more).map (entries ++ ·) := by
  induction rows generalizing entries with
  | nil =>
    cases h
    simp
  | cons r rows ih =>
    obtain ⟨k, rest, hk, hrest, rfl⟩ := idEntries_cons.mp h
    rw [List.cons_append, idEntries, hk, ih hrest]
    cases idEntries i more with
    | none => rfl
    | some es => rfl

theorem mem_idEntries {i : ℕ} {rows : List (ℕ × Row)} {entries : List (UInt64 × Int)}
    (h : idEntries i rows = some entries) (k : UInt64) (v : Int) :
    (k, v) ∈ entries ↔ ∃ o row, (o, row) ∈ rows ∧ v = (o : Int) ∧ idOf i row = some k := by
  induction rows generalizing entries with
  | nil =>
    cases h
    simp
  | cons r rows ih =>
    obtain ⟨k', rest, hk, hrest, rfl⟩ := idEntries_cons.mp h
    rw [List.mem_cons, ih hrest]
    constructor
    · rintro (heq | ⟨o, row, hmem, hv, hid⟩)
      · cases heq
        exact ⟨r.1, r.2, List.mem_cons_self, rfl, hk⟩
      · exact ⟨o, row, List.mem_cons_of_mem _ hmem, hv, hid⟩
    · rintro ⟨o, row, hmem, hv, hid⟩
      rcases List.mem_cons.mp hmem with heq | hmem
      · left
        subst heq
        rw [hk] at hid
        cases hid
        rw [hv]
      · exact Or.inr ⟨o, row, hmem, hv, hid⟩

theorem idEntries_ids {i : ℕ} {rows : List (ℕ × Row)} {entries : List (UInt64 × Int)}
    (h : idEntries i rows = some entries) :
    rows.map (fun r => idOf i r.2) = (entries.map Prod.fst).map some := by
  induction rows generalizing entries with
  | nil =>
    cases h
    rfl
  | cons r rows ih =>
    obtain ⟨k, rest, hk, hrest, rfl⟩ := idEntries_cons.mp h
    rw [List.map_cons, ih hrest, hk]
    rfl

theorem idOf_iff (i : ℕ) (row : Row) (k : UInt64) :
    idOf i row = some k ↔ k ≠ 0 ∧ row[i]? = some (decimal k.toNat) := by
  unfold idOf
  rw [Option.bind_eq_some_iff]
  constructor
  · rintro ⟨text, htext, hparse⟩
    obtain ⟨hk, rfl⟩ := (IdText.parseCanonical_iff text k).mp hparse
    exact ⟨hk, htext⟩
  · rintro ⟨hk, htext⟩
    exact ⟨_, htext, (IdText.parseCanonical_iff _ k).mpr ⟨hk, rfl⟩⟩

theorem foldl_max_le (ids : List UInt64) (m : UInt64) :
    m ≤ ids.foldl max m ∧ ∀ k ∈ ids, k ≤ ids.foldl max m := by
  induction ids generalizing m with
  | nil => exact ⟨le_rfl, by simp⟩
  | cons k ids ih =>
    obtain ⟨hm, hall⟩ := ih (max m k)
    refine ⟨(le_max_left m k).trans hm, ?_⟩
    intro j hj
    rcases List.mem_cons.mp hj with rfl | hj
    · exact (le_max_right m j).trans hm
    · exact hall j hj

theorem le_maxId {ids : List UInt64} {k : UInt64} (hk : k ∈ ids) : k ≤ maxId ids :=
  (foldl_max_le ids 0).2 k hk

theorem maxId_concat (ids : List UInt64) (k : UInt64) :
    maxId (ids ++ [k]) = max (maxId ids) k := by
  simp [maxId, List.foldl_append]

theorem larger_eq_max (m k : UInt64) : (if decide (m < k) = true then k else m) = max m k := by
  by_cases hlt : m < k
  · rw [if_pos (decide_eq_true hlt), max_eq_right hlt.le]
  · rw [if_neg (by simpa using hlt), max_eq_left (not_lt.mp hlt)]

def buildState (tree : BPTree) (seen : List (UInt64 × Int)) : IdIndexBuildState where
  tree := tree
  maxId := maxId (seen.map Prod.fst)
  sawRow := !seen.isEmpty

/-- A row without a canonical id, or with one seen before, ends the build; any other adds its
entry. -/
theorem callback_cases {seen es : List (UInt64 × Int)} {tree : BPTree}
    {statuses : List IndexStatus} (h : AfterInserts seen es tree statuses) (i : ℕ) (row : Row)
    (o : ℕ) :
    (∃ message, buildIdIndexCallback i (buildState tree seen) row o = .ok (.fail message) ∧
      ∀ k, idOf i row = some k → k ∈ seen.map Prod.fst) ∨
    ∃ k es' tree', idOf i row = some k ∧ k ∉ seen.map Prod.fst ∧
      AfterInserts (seen ++ [(k, (o : Int))]) es' tree' (statuses ++ [.ok ()]) ∧
      buildIdIndexCallback i (buildState tree seen) row o =
        .ok (.proceed (buildState tree' (seen ++ [(k, (o : Int))]))) := by
  unfold buildIdIndexCallback idOf parseStoredIdValue
  cases hfield : row[i]? with
  | none =>
    left
    exact ⟨_, rfl, fun k hk => by cases hk⟩
  | some text =>
    simp only [Option.bind_some]
    cases hparse : parseCanonicalPositiveUInt64 text with
    | none =>
      left
      exact ⟨_, rfl, fun k hk => by cases hk⟩
    | some k =>
      obtain ⟨es', tree', hins, h', -⟩ := afterInserts_step h k (o : Int)
      have hins' : bptreeInsert [] (buildState tree seen).tree k (o : Int) =
          .ok (tree', statusAfter seen k) := hins
      simp only [hins', ok_bind]
      by_cases hmem : k ∈ seen.map Prod.fst
      · left
        simp only [statusAfter, if_pos hmem]
        refine ⟨_, rfl, ?_⟩
        intro j hj
        cases hj
        exact hmem
      · right
        have hstatus : statusAfter seen k = .ok () := (statusAfter_ok seen k).mpr hmem
        rw [hstatus] at h'
        refine ⟨k, es', tree', rfl, hmem, h', ?_⟩
        simp only [hstatus, buildState, List.map_append, List.map_singleton, maxId_concat]
        congr 3
        · cases seen with
          | nil => simp [maxId]
          | cons e seen =>
            simp only [List.isEmpty_cons, Bool.not_false, Bool.not_true, Bool.false_or]
            exact larger_eq_max _ _
        · simp

/-- Rows with canonical ids, all different, are taken in one after the other. -/
theorem fold_build {i : ℕ} (tableName : CString) {rows : List (ℕ × Row)}
    {seen new es : List (UInt64 × Int)} {tree : BPTree} {statuses : List IndexStatus}
    (h : AfterInserts seen es tree statuses) (hnew : idEntries i rows = some new)
    (hnodup : ((seen ++ new).map Prod.fst).Nodup) :
    ∃ es' tree' statuses', AfterInserts (seen ++ new) es' tree' statuses' ∧
      foldRows tableName (buildIdIndexCallback i) rows (buildState tree seen) =
        .ok (.ok (buildState tree' (seen ++ new))) := by
  induction rows generalizing seen new es tree statuses with
  | nil =>
    cases hnew
    exact ⟨es, tree, statuses, by simpa using h, by simp [foldRows]⟩
  | cons r rows ih =>
    obtain ⟨k, rest, hk, hrest, rfl⟩ := idEntries_cons.mp hnew
    have hassoc : seen ++ (k, (r.1 : Int)) :: rest = (seen ++ [(k, (r.1 : Int))]) ++ rest := by simp
    rw [hassoc] at hnodup ⊢
    rcases callback_cases h i r.2 r.1 with ⟨m, -, hseen⟩ | ⟨k', es', tree', hk', -, h', hstep⟩
    · have hmem := hseen k hk
      rw [List.map_append, List.map_append, List.nodup_append, List.nodup_append] at hnodup
      exact absurd rfl (hnodup.1.2.2 k hmem k (by simp))
    · rw [hk] at hk'
      cases hk'
      obtain ⟨es'', tree'', statuses'', h'', hfold⟩ := ih h' hrest hnodup
      refine ⟨es'', tree'', statuses'', h'', ?_⟩
      rw [foldRows, hstep, ok_bind]
      exact hfold

/-- Whatever the rows hold, the build ends; it succeeds on canonical and distinct ids only. -/
theorem build_fold {i : ℕ} (tableName : CString) (rows : List (ℕ × Row))
    {seen es : List (UInt64 × Int)} {tree : BPTree} {statuses : List IndexStatus}
    (h : AfterInserts seen es tree statuses) (hnodup : (seen.map Prod.fst).Nodup)
    {final : IdIndexBuildState}
    (hfold : foldRows tableName (buildIdIndexCallback i) rows (buildState tree seen) =
      .ok (.ok final)) :
    ∃ new, idEntries i rows = some new ∧ ((seen ++ new).map Prod.fst).Nodup := by
  induction rows generalizing seen es tree statuses with
  | nil => exact ⟨[], rfl, by simpa using hnodup⟩
  | cons r rows ih =>
    rw [foldRows] at hfold
    rcases callback_cases h i r.2 r.1 with ⟨m, hfail, -⟩ | ⟨k, es', tree', hk, hk', h', hstep⟩
    · rw [hfail, ok_bind] at hfold
      dsimp only at hfold
      split at hfold <;> cases hfold
    · rw [hstep, ok_bind] at hfold
      have hnodup' : ((seen ++ [(k, (r.1 : Int))]).map Prod.fst).Nodup := by
        rw [List.map_append, List.map_singleton, ← List.concat_eq_append]
        exact List.Nodup.concat hk' hnodup
      obtain ⟨rest, hrest, hall⟩ := ih h' hnodup' hfold
      refine ⟨(k, (r.1 : Int)) :: rest, idEntries_cons.mpr ⟨k, rest, hk, hrest, rfl⟩, ?_⟩
      simpa using hall

structure Built (n i : ℕ) (file : Bytes) (tree : BPTree) (rows : List (ℕ × Row))
    (entries : List (UInt64 × Int)) : Prop where
  decoded : decodeFile n file = some rows
  ids : idEntries i rows = some entries
  distinct : (entries.map Prod.fst).Nodup
  tree_run : ∃ es statuses, AfterInserts entries es tree statuses

theorem callback_never_stops (i : ℕ) (state : IdIndexBuildState) (row : Row) (o : ℕ)
    (final : IdIndexBuildState) :
    buildIdIndexCallback i state row o ≠ .ok (.stop final) := by
  unfold buildIdIndexCallback
  intro h
  split at h
  · cases h
  split at h
  · cases h
  · rename_i k hk
    obtain ⟨r, hins, h⟩ := bind_eq_ok.mp h
    obtain ⟨tree, status⟩ := r
    cases status <;> cases h

/-- The build reports an error or hands out the index; it never runs into a fault. -/
theorem build_total (disk : Disk) (dbDir : CString) (schema : TableSchema) (i : ℕ) :
    ∃ built, buildIdIndexForTable disk dbDir schema i = .ok built := by
  -- every state of the build comes from a run of inserts
  have hcall : ∀ state row offset, (∃ seen es statuses tree,
      AfterInserts seen es tree statuses ∧ state = buildState tree seen) →
      ∃ signal, buildIdIndexCallback i state row offset = .ok signal ∧
        ∀ state', signal = .proceed state' → ∃ seen es statuses tree,
          AfterInserts seen es tree statuses ∧ state' = buildState tree seen := by
    rintro state row o ⟨seen, es, statuses, tree, h, rfl⟩
    rcases callback_cases h i row o with ⟨m, hfail, -⟩ | ⟨k, es', tree', -, -, h', hstep⟩
    · exact ⟨_, hfail, fun state' heq => by cases heq⟩
    · refine ⟨_, hstep, fun state' heq => ?_⟩
      cases heq
      exact ⟨_, _, _, _, h', rfl⟩
  obtain ⟨r, hr⟩ := scan_total disk dbDir schema.tableName schema.columnCount _ hcall
    (⟨[], [], [], bptreeInit, afterInserts_nil, rfl⟩ : ∃ seen es statuses tree,
      AfterInserts seen es tree statuses ∧
        (⟨bptreeInit, 0, false⟩ : IdIndexBuildState) = buildState tree seen)
  unfold buildIdIndexForTable
  rw [hr, ok_bind]
  cases r with
  | error e => exact ⟨_, rfl⟩
  | ok state =>
    dsimp only
    split
    · exact ⟨_, rfl⟩
    split
    · exact ⟨_, rfl⟩
    · exact ⟨_, rfl⟩

theorem succ_eq_zero_iff (m : UInt64) : m + 1 = 0 ↔ m.toNat = uint64Max := by
  have hm : m.toNat < 2 ^ 64 := m.toNat_lt
  rw [← UInt64.toNat_inj, UInt64.toNat_add]
  simp only [uint64Max, UInt64.toNat_one, UInt64.toNat_zero]
  omega

/-- The build succeeds exactly on files whose rows have distinct canonical ids, the largest of
them not the largest number. -/
theorem build_iff (disk : Disk) (dbDir : CString) (schema : TableSchema) (i : ℕ) (tree : BPTree)
    (next : UInt64) :
    buildIdIndexForTable disk dbDir schema i = .ok (.ok (tree, next)) ↔
      ∃ rows entries,
        Built schema.columnCount i ((disk (dataPath dbDir schema.tableName)).getD []) tree rows
          entries ∧ next = maxId (entries.map Prod.fst) + 1 ∧ next ≠ 0 := by
  constructor
  · intro h
    unfold buildIdIndexForTable at h
    obtain ⟨r, hscan, h⟩ := bind_eq_ok.mp h
    cases r with
    | error e => cases h
    | ok final =>
      obtain ⟨rows, hrows⟩ := decoded_of_scan (callback_never_stops i) hscan
      rw [scan_decoded _ _ hrows] at hscan
      obtain ⟨entries, hids, hnodup⟩ := build_fold schema.tableName rows afterInserts_nil
        List.nodup_nil hscan
      obtain ⟨es, tree', statuses, hrun, hfold⟩ := fold_build schema.tableName afterInserts_nil
        hids hnodup
      have hfinal := hfold.symm.trans hscan
      cases hfinal
      rw [List.nil_append] at hrun hnodup
      dsimp only [buildState, List.nil_append] at h
      split at h
      · -- no row at all
        rename_i hempty
        have hnil : entries = [] := by simpa using hempty
        subst hnil
        cases h
        exact ⟨rows, [], ⟨hrows, hids, hnodup, es, statuses, hrun⟩, rfl, by decide⟩
      split at h
      · cases h
      · rename_i hmax
        cases h
        refine ⟨rows, entries, ⟨hrows, hids, hnodup, es, statuses, hrun⟩, rfl, ?_⟩
        rw [Ne, succ_eq_zero_iff]
        exact hmax
  · rintro ⟨rows, entries, ⟨hrows, hids, hnodup, es, statuses, hrun⟩, rfl, hnext⟩
    obtain ⟨es', tree', statuses', hrun', hfold⟩ := fold_build schema.tableName afterInserts_nil
      hids hnodup
    rw [List.nil_append] at hrun' hfold
    have htree : tree' = tree := by
      have := hrun'.run.symm.trans hrun.run
      simp only [Except.ok.injEq, Prod.mk.injEq] at this
      exact this.1
    subst htree
    have hinit : (⟨bptreeInit, 0, false⟩ : IdIndexBuildState) = buildState bptreeInit [] := rfl
    rw [buildIdIndexForTable, hinit, scan_decoded _ _ hrows, hfold, ok_bind]
    dsimp only [buildState]
    rw [Ne, succ_eq_zero_iff] at hnext
    rw [if_neg hnext]
    split
    · rename_i hempty
      have hnil : entries = [] := by simpa using hempty
      subst hnil
      rfl
    · rfl

end IndexBuild
