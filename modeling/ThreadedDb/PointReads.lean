import ThreadedDb.StorageRoundTrip
import ThreadedDb.EventLog

/-!
# Scans and point reads

What `scan_table_rows_with_offsets` hands to its callback, logged before each call. Every row in
the log is the one that `read_row_at_offset` reads at the offset beside it, and a scan that is not
stopped goes through the line starts of the file up to the first line that is no row.
-/
namespace PointReads

open ByteText
open SchemaModel
open StorageModel (Row Signal parseLineIntoRow readRowAtOffset storageError quoted)
open StorageRoundTrip
open LineFraming
open EventLog
open CheckedArray (Checked Fault)

abbrev Delivery (α : Type) := Logged (ℕ × Row) Fault α

section Scan

variable {σ : Type} (tableName : CString) (expectedColumnCount : ℕ)
variable (callback : σ → Row → ℕ → Checked (Signal σ))

def malformedRow (lineNumber : ℕ) : EngineError :=
  storageError (.lit "malformed row " ++ decimal lineNumber ++ .lit " in table " ++
    quoted tableName)

def scanLines : List (ℕ × CString) → ℕ → σ → Delivery (Except EngineError σ)
  | [], _, state => pure (.ok state)
  | (offset, line) :: rest, lineNumber, state =>
    match parseLineIntoRow line expectedColumnCount with
    | none => pure (.error (malformedRow tableName (lineNumber + 1)))
    | some row => do
      emit (offset, row)
      let signal ← silent (callback state row offset)
      match signal with
      | .proceed state => scanLines rest (lineNumber + 1) state
      | .stop state => pure (.ok state)
      | .fail message =>
        if message.bytes = [] then
          pure (.error (storageError (.lit "row scan callback failed for table " ++
            quoted tableName)))
        else pure (.error ⟨.storageError, message⟩)

end Scan

def scanTableRowsWithOffsets {σ : Type} (disk : Disk) (dbDir tableName : CString)
    (expectedColumnCount : ℕ) (callback : σ → Row → ℕ → Checked (Signal σ)) (state : σ) :
    Delivery (Except EngineError σ) :=
  match disk (dataPath dbDir tableName) with
  | none => pure (.ok state)
  | some file => scanLines tableName expectedColumnCount callback (fileLines file) 0 state

theorem scanLines_result {σ : Type} (tableName : CString) (n : ℕ)
    (callback : σ → Row → ℕ → Checked (Signal σ)) (ls : List (ℕ × CString)) (lineNumber : ℕ)
    (state : σ) :
    (scanLines tableName n callback ls lineNumber state).result =
      StorageModel.scanLines tableName n callback ls lineNumber state := by
  induction ls generalizing lineNumber state with
  | nil => rfl
  | cons l ls ih =>
    rw [scanLines, StorageModel.scanLines]
    cases parseLineIntoRow l.2 n with
    | none => rfl
    | some row =>
      change (silent (callback state row l.1) >>= _ : Delivery _).result = _
      refine erases_bind rfl fun signal => ?_
      cases signal with
      | proceed state => exact ih (lineNumber + 1) state
      | stop state => rfl
      | fail message =>
        dsimp only
        split
        · rfl
        · rfl

theorem scan_result {σ : Type} (disk : Disk) (dbDir tableName : CString) (n : ℕ)
    (callback : σ → Row → ℕ → Checked (Signal σ)) (state : σ) :
    (scanTableRowsWithOffsets disk dbDir tableName n callback state).result =
      StorageModel.scanTableRowsWithOffsets disk dbDir tableName n callback state := by
  unfold scanTableRowsWithOffsets StorageModel.scanTableRowsWithOffsets
  cases disk (dataPath dbDir tableName) with
  | none => rfl
  | some file => exact scanLines_result tableName n callback (fileLines file) 0 state

theorem scanLines_only {σ : Type} (tableName : CString) (n : ℕ)
    (callback : σ → Row → ℕ → Checked (Signal σ)) (ls : List (ℕ × CString)) (lineNumber : ℕ)
    (state : σ) :
    Only (fun p => ∃ line, (p.1, line) ∈ ls ∧ parseLineIntoRow line n = some p.2)
      (scanLines tableName n callback ls lineNumber state) := by
  induction ls generalizing lineNumber state with
  | nil => exact only_pure _
  | cons l ls ih =>
    rw [scanLines]
    cases hrow : parseLineIntoRow l.2 n with
    | none => exact only_pure _
    | some row =>
      refine only_bind (only_emit ⟨l.2, List.mem_cons_self, hrow⟩) fun _ _ => ?_
      refine only_bind (only_silent _) fun signal _ => ?_
      cases signal with
      | proceed state =>
        refine (ih (lineNumber + 1) state).mono ?_
        rintro p ⟨line, hmem, hparse⟩
        exact ⟨line, List.mem_cons_of_mem _ hmem, hparse⟩
      | stop state => exact only_pure _
      | fail message =>
        dsimp only
        split
        · exact only_pure _
        · exact only_pure _

def lineAt (file : Bytes) (offset : ℕ) : CString :=
  .ofBuffer (stripCr ((file.drop offset).takeWhile (· ≠ 10)))

theorem fileLines_at {file : Bytes} {o : ℕ} {line : CString} (h : (o, line) ∈ fileLines file) :
    file.drop o ≠ [] ∧ line = lineAt file o := by
  rw [fileLines_lines] at h
  obtain ⟨p, hp, heq⟩ := List.mem_map.mp h
  cases heq
  obtain ⟨hne, htake⟩ := line_at_offset hp
  refine ⟨hne, ?_⟩
  rw [lineAt, htake]

theorem readRowAtOffset_line {disk : Disk} {dbDir tableName : CString} {file : Bytes} {n o : ℕ}
    {row : Row} (hfile : disk (dataPath dbDir tableName) = some file) (hne : file.drop o ≠ [])
    (hrow : parseLineIntoRow (lineAt file o) n = some row) :
    readRowAtOffset disk dbDir tableName o n = .ok row := by
  unfold lineAt at hrow
  simp only [readRowAtOffset, hfile, readLine, if_neg (not_lt.mpr (Int.natCast_nonneg o)),
    Int.toNat_natCast, if_neg hne, hrow]

theorem scan_delivers_point_reads {σ : Type} {disk : Disk} {dbDir tableName : CString}
    {file : Bytes} (hfile : disk (dataPath dbDir tableName) = some file) (n : ℕ)
    (callback : σ → Row → ℕ → Checked (Signal σ)) (state : σ) :
    Only (fun p => readRowAtOffset disk dbDir tableName p.1 n = .ok p.2)
      (scanTableRowsWithOffsets disk dbDir tableName n callback state) := by
  rw [scanTableRowsWithOffsets, hfile]
  refine (scanLines_only tableName n callback (fileLines file) 0 state).mono ?_
  rintro p ⟨line, hmem, hparse⟩
  obtain ⟨hne, rfl⟩ := fileLines_at hmem
  exact readRowAtOffset_line hfile hne hparse

def Continues {σ : Type} (callback : σ → Row → ℕ → Checked (Signal σ)) : Prop :=
  ∀ state row offset, ∃ next, callback state row offset = .ok (.proceed next)

def accepted (n : ℕ) (line : CString) : Bool := (parseLineIntoRow line n).isSome

/-- The scan answers with the callback's state, or with the number of the first line that is no
row. -/
def Answered {σ : Type} (tableName : CString) (whole : Bool) (lineNumber : ℕ)
    (result : Checked (Except EngineError σ)) : Prop :=
  if whole then ∃ final, result = .ok (.ok final)
  else result = .ok (.error (malformedRow tableName lineNumber))

theorem scanLines_continues {σ : Type} {callback : σ → Row → ℕ → Checked (Signal σ)}
    (hrun : Continues callback) (tableName : CString) (n : ℕ) (ls : List (ℕ × CString))
    (lineNumber : ℕ) (state : σ) :
    (scanLines tableName n callback ls lineNumber state).events.map Prod.fst =
        (ls.takeWhile (fun l => accepted n l.2)).map Prod.fst ∧
      Answered tableName (ls.all (fun l => accepted n l.2))
        (lineNumber + (ls.takeWhile (fun l => accepted n l.2)).length + 1)
        (scanLines tableName n callback ls lineNumber state).result := by
  induction ls generalizing lineNumber state with
  | nil => exact ⟨rfl, state, rfl⟩
  | cons l ls ih =>
    cases hrow : parseLineIntoRow l.2 n with
    | none =>
      have hno : accepted n l.2 = false := by rw [accepted, hrow, Option.isSome_none]
      have hscan : scanLines tableName n callback (l :: ls) lineNumber state =
          pure (.error (malformedRow tableName (lineNumber + 1))) := by
        rw [scanLines, hrow]
      rw [hscan, List.takeWhile_cons, if_neg (by simp [hno]), List.all_cons, hno]
      exact ⟨rfl, rfl⟩
    | some row =>
      obtain ⟨next, hnext⟩ := hrun state row l.1
      have hyes : accepted n l.2 = true := by rw [accepted, hrow, Option.isSome_some]
      have hscan : scanLines tableName n callback (l :: ls) lineNumber state =
          ⟨(l.1, row) :: (scanLines tableName n callback ls (lineNumber + 1) next).events,
            (scanLines tableName n callback ls (lineNumber + 1) next).result⟩ := by
        rw [scanLines, hrow]
        dsimp only
        rw [hnext]
        rfl
      obtain ⟨hevents, hanswer⟩ := ih (lineNumber + 1) next
      rw [hscan, List.takeWhile_cons, if_pos hyes, List.all_cons, hyes, Bool.true_and]
      refine ⟨?_, ?_⟩
      · rw [List.map_cons, List.map_cons, hevents]
      · rw [List.length_cons,
          show lineNumber + ((ls.takeWhile (fun l => accepted n l.2)).length + 1) + 1 =
            lineNumber + 1 + (ls.takeWhile (fun l => accepted n l.2)).length + 1 by omega]
        exact hanswer

theorem fileLines_starts (file : Bytes) :
    fileLines file = (starts 10 file).map (fun o => (o, lineAt file o)) := by
  have hoffsets : (fileLines file).map Prod.fst = starts 10 file := by
    rw [fileLines_lines, List.map_map]
    change (offsets 0 (lines 10 file)).map Prod.fst = _
    rw [offsets_starts]
    simp
  rw [← hoffsets, List.map_map]
  conv_lhs => rw [← List.map_id (fileLines file)]
  refine List.map_congr_left fun p hp => ?_
  exact Prod.ext rfl (fileLines_at hp).2

/-- The offset of a line that `parse_line_into_row` takes for a row. -/
def isRowAt (n : ℕ) (file : Bytes) (offset : ℕ) : Bool := accepted n (lineAt file offset)

/-- Every row that a scan hands to its callback is what a point read finds at its offset. A scan
that is not stopped delivers the rows at the line starts of the file, in order, up to the first
line that is no row; there it fails. -/
theorem point_reads_agree_with_scan (disk : Disk) (dbDir tableName : CString) {file : Bytes}
    (hfile : disk (dataPath dbDir tableName) = some file) (n : ℕ) {σ : Type}
    (callback : σ → Row → ℕ → Checked (Signal σ)) (state : σ) :
    let run := scanTableRowsWithOffsets disk dbDir tableName n callback state
    run.result = StorageModel.scanTableRowsWithOffsets disk dbDir tableName n callback state ∧
      (∀ offset row, (offset, row) ∈ run.events →
        readRowAtOffset disk dbDir tableName offset n = .ok row) ∧
      (Continues callback →
        run.events.map Prod.fst = (starts 10 file).takeWhile (isRowAt n file) ∧
        Answered tableName ((starts 10 file).all (isRowAt n file)) (run.events.length + 1)
          run.result) := by
  intro run
  refine ⟨scan_result disk dbDir tableName n callback state, ?_, ?_⟩
  · intro offset row hmem
    exact scan_delivers_point_reads hfile n callback state (offset, row) hmem
  · intro hrun
    have hscan : run = scanLines tableName n callback (fileLines file) 0 state := by
      change scanTableRowsWithOffsets _ _ _ _ _ _ = _
      rw [scanTableRowsWithOffsets, hfile]
    obtain ⟨hevents, hanswer⟩ := scanLines_continues hrun tableName n (fileLines file) 0 state
    have hrows : ((fileLines file).takeWhile (fun l => accepted n l.2)).map Prod.fst =
        (starts 10 file).takeWhile (isRowAt n file) := by
      rw [fileLines_starts, List.takeWhile_map, List.map_map]
      exact List.map_id _
    have hall : (fileLines file).all (fun l => accepted n l.2) =
        (starts 10 file).all (isRowAt n file) := by
      rw [fileLines_starts, List.all_map]
      rfl
    have hcount := congrArg List.length hevents
    rw [List.length_map, List.length_map] at hcount
    rw [← hcount, hall, Nat.zero_add] at hanswer
    rw [hscan]
    exact ⟨hevents.trans hrows, hanswer⟩

/-- A line that ends in CRLF, an empty line and an unknown escape sequence. -/
theorem point_reads_up_to_unknown_escape :
    let file : Bytes := [49, 124, 97, 13, 10, 10, 50, 92, 113]
    let run := scanTableRowsWithOffsets (fun _ => some file) (.lit "db") (.lit "t") 2 recordRow []
    run.events.map Prod.fst = [0, 5] ∧
      run.result = .ok (.error (malformedRow (.lit "t") 3)) := by
  intro file run
  have hagree := point_reads_agree_with_scan (fun _ => some file) (.lit "db") (.lit "t") rfl 2
    recordRow []
  obtain ⟨-, -, hrun⟩ := hagree
  obtain ⟨hevents, hanswer⟩ := hrun fun seen row offset => ⟨_, rfl⟩
  have hstarts : (starts 10 file).takeWhile (isRowAt 2 file) = [0, 5] := by decide
  have hcount : run.events.length = 2 := by
    have := congrArg List.length (hevents.trans hstarts)
    rwa [List.length_map] at this
  refine ⟨hevents.trans hstarts, ?_⟩
  rw [show (starts 10 file).all (isRowAt 2 file) = false by decide] at hanswer
  have hfails : run.result = .ok (.error (malformedRow (.lit "t") (run.events.length + 1))) :=
    hanswer
  rwa [hcount] at hfails

end PointReads
