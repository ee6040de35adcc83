import ThreadedDb.InsertRows

/-!
# Schema files

What `load_table_schema` makes of a file without NUL bytes: its lines, trimmed, without the blank
ones, if there are any and no two are equal. The out parameter is cleared first and filled last,
and `schema_find_column_index` is the inverse of the list of columns.
-/
namespace SchemaLoading

open ByteText
open SchemaModel
open StorageRoundTrip (fileLines_lines)
open LineFraming (lines offsets_lines mem_of_mem_lines)
open InsertSpec (findColumn_nth)
open InsertRows (findColumn_none)

def trimSpace (raw : Bytes) : Bytes := (raw.dropWhile isSpace).rdropWhile isSpace

theorem trim_bytes (text : CString) : (trimInPlace text).bytes = trimSpace text.bytes := rfl

theorem trimSpace_concat (raw : Bytes) {b : UInt8} (hb : isSpace b = true) :
    trimSpace (raw ++ [b]) = trimSpace raw := by
  unfold trimSpace
  rw [List.dropWhile_append]
  split
  · rename_i hall
    rw [List.isEmpty_iff] at hall
    rw [hall, List.dropWhile_cons_of_pos hb]
    rfl
  · rw [List.rdropWhile_concat_pos _ _ _ hb]

/-- A carriage return at the end of a line is white space to the trimming. -/
theorem trimSpace_stripCr (raw : Bytes) : trimSpace (stripCr raw) = trimSpace raw := by
  unfold stripCr
  split
  · rename_i hlast
    obtain ⟨init, rfl⟩ := List.getLast?_eq_some_iff.mp hlast
    rw [List.dropLast_concat, trimSpace_concat init (by decide)]
  · rfl

theorem stripCr_subset (raw : Bytes) : stripCr raw ⊆ raw := by
  unfold stripCr
  split
  · exact List.dropLast_subset raw
  · exact fun _ hb => hb

theorem trim_line {raw : Bytes} (h : 0 ∉ raw) :
    (trimInPlace (.ofBuffer (stripCr raw))).bytes = trimSpace raw := by
  rw [trim_bytes, ofBuffer_of_nulFree fun hmem => h (stripCr_subset raw hmem), trimSpace_stripCr]

def columnTexts (ls : List (ℕ × CString)) : List CString :=
  (ls.map (fun l => trimInPlace l.2)).filter (fun text => text.bytes ≠ [])

theorem columnTexts_cons (l : ℕ × CString) (ls : List (ℕ × CString)) :
    columnTexts (l :: ls) = if (trimInPlace l.2).bytes = [] then columnTexts ls
      else trimInPlace l.2 :: columnTexts ls := by
  unfold columnTexts
  rw [List.map_cons, List.filter_cons]
  split
  · rename_i h
    rw [if_neg (of_decide_eq_true h)]
  · rename_i h
    rw [if_pos (by simpa using h)]

/-- The loop succeeds exactly when no text comes twice, with the texts appended. -/
theorem loadColumns_iff (tableName : CString) (ls : List (ℕ × CString))
    (columns : { cs : List CString // cs.Nodup }) (loaded : List CString) :
    (∃ r, loadColumns tableName ls columns = .ok r ∧ r.val = loaded) ↔
      loaded = columns.val ++ columnTexts ls ∧ loaded.Nodup := by
  induction ls generalizing columns with
  | nil =>
    rw [show columnTexts [] = [] from rfl, List.append_nil]
    constructor
    · rintro ⟨r, hr, rfl⟩
      cases hr
      exact ⟨rfl, columns.property⟩
    · rintro ⟨rfl, -⟩
      exact ⟨columns, rfl, rfl⟩
  | cons l ls ih =>
    rw [columnTexts_cons, loadColumns]
    by_cases hblank : (trimInPlace l.2).bytes = []
    · rw [if_pos hblank, if_pos hblank]
      exact ih columns
    · rw [if_neg hblank, if_neg hblank]
      by_cases hmem : trimInPlace l.2 ∈ columns.val
      · rw [dif_pos hmem]
        constructor
        · rintro ⟨r, hr, -⟩
          cases hr
        · rintro ⟨rfl, hnodup⟩
          exact absurd rfl ((List.nodup_append.mp hnodup).2.2 _ hmem _ List.mem_cons_self)
      · rw [dif_neg hmem, ih]
        simp only [List.append_assoc, List.singleton_append]

def columnNames (contents : Bytes) : List Bytes :=
  ((lines 10 contents).map trimSpace).filter (· ≠ [])

theorem columnTexts_file {contents : Bytes} (hnul : 0 ∉ contents) :
    (columnTexts (fileLines contents)).map CString.bytes = columnNames contents := by
  have htexts : ((fileLines contents).map (fun l => trimInPlace l.2)).map CString.bytes =
      (lines 10 contents).map trimSpace := by
    rw [fileLines_lines, List.map_map, List.map_map, ← offsets_lines 0 (lines 10 contents),
      List.map_map, offsets_lines]
    refine List.map_congr_left fun p hp => ?_
    have hline : p.2 ∈ lines 10 contents := by
      rw [← offsets_lines 0 (lines 10 contents)]
      exact List.mem_map_of_mem hp
    exact trim_line fun hzero => hnul (mem_of_mem_lines hline hzero)
  unfold columnNames columnTexts
  rw [← htexts]
  conv_rhs => rw [List.filter_map]
  rfl

theorem bytes_injective : Function.Injective CString.bytes := fun _ _ h => CString.ext h

/-- A file without NUL bytes loads exactly when it names columns and none twice. -/
theorem load_iff (tableName : CString) {contents : Bytes} (hnul : 0 ∉ contents)
    (columns : List CString) :
    (∃ schema, loadTableSchema tableName (some contents) = .ok schema ∧
        schema.tableName = tableName ∧ schema.columns = columns) ↔
      columns.map CString.bytes = columnNames contents ∧ columnNames contents ≠ [] ∧
        (columnNames contents).Nodup := by
  have hloop := loadColumns_iff tableName (fileLines contents) ⟨[], List.nodup_nil⟩
  simp only [List.nil_append] at hloop
  rw [← columnTexts_file hnul, List.map_injective_iff.mpr bytes_injective |>.eq_iff, Ne,
    List.map_eq_nil_iff, List.nodup_map_iff bytes_injective]
  constructor
  · rintro ⟨schema, hload, -, rfl⟩
    unfold loadTableSchema at hload
    dsimp only at hload
    split at hload
    · cases hload
    rename_i r hr
    split at hload
    · cases hload
    rename_i hne
    cases hload
    obtain ⟨htexts, hnodup⟩ := (hloop r.val).mp ⟨r, hr, rfl⟩
    exact ⟨htexts, fun h => hne (htexts.trans h), htexts ▸ hnodup⟩
  · rintro ⟨rfl, hne, hnodup⟩
    obtain ⟨r, hr, htexts⟩ := (hloop _).mpr ⟨rfl, hnodup⟩
    refine ⟨⟨tableName, r.val, r.property, htexts ▸ hne⟩, ?_, rfl, htexts⟩
    unfold loadTableSchema
    simp only [hr]
    rw [dif_neg]

structure OutSchema where
  tableName : Option CString
  columns : Option (List CString)
  columnCount : ℕ
  deriving DecidableEq

def OutSchema.blank : OutSchema := ⟨none, none, 0⟩

def OutSchema.of (schema : TableSchema) : OutSchema :=
  ⟨some schema.tableName, some schema.columns, schema.columnCount⟩

/-- `load_table_schema` as its caller sees it: whatever the record held is cleared first, and the
fields are set when everything else has succeeded. -/
def loadTableSchemaInto (tableName : CString) (file : Option Bytes) (out : OutSchema) :
    OutSchema × Except CString Unit :=
  let out := { out with tableName := none, columns := none, columnCount := 0 }
  match loadTableSchema tableName file with
  | .error message => (out, .error message)
  | .ok schema =>
    let out := { out with tableName := some schema.tableName }
    ({ out with columns := some schema.columns, columnCount := schema.columnCount }, .ok ())

/-- The `int` that `schema_find_column_index` returns: the low 32 bits of the position. -/
def findColumnIndexInt (schema : TableSchema) (columnName : CString) : Int :=
  match schemaFindColumnIndex schema columnName with
  | none => -1
  | some i => (i : Int).bmod (2 ^ 32)

theorem findColumnIndexInt_of {schema : TableSchema} {columnName : CString} {i : ℕ}
    (h : schemaFindColumnIndex schema columnName = some i) (hi : i < 2 ^ 31) :
    findColumnIndexInt schema columnName = i := by
  rw [findColumnIndexInt, h]
  exact Int.bmod_eq_of_le (by omega) (by omega)

end SchemaLoading
