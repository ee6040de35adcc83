import ThreadedDb.IndexCoherence

/-!
# Which INSERTs succeed, and with which row

An INSERT assigns its values to the columns it lists, or to all columns but `id` in the order of
the schema. The row has the generated id under `id`, the assigned values under their columns and
empty fields elsewhere, whatever the order of the list.
-/
namespace InsertRows

open ByteText
open SchemaModel
open StorageModel
open SqlFrontEnd
open RuntimeModel
open ExecutorModel
open TableCache
open InsertSpec
open StatementRuns
open IndexCoherence (usersDisk kim)
open CheckedArray (ok_bind)

def idName : CString := .lit "id"

def positionalColumns (schema : TableSchema) : List CString := schema.columns.filter (· ≠ idName)

def targetColumns (schema : TableSchema) (stmt : InsertStatement) : List CString :=
  if stmt.columns = [] then positionalColumns schema else stmt.columns

/-- The statements that `execute_insert` accepts for a table with this schema. -/
def Admissible (schema : TableSchema) (stmt : InsertStatement) : Prop :=
  (stmt.columns = [] ∧ stmt.values.length = (positionalColumns schema).length) ∨
  (stmt.columns ≠ [] ∧ stmt.columns.length = stmt.values.length ∧
    (∀ c ∈ stmt.columns, c ∈ schema.columns) ∧ stmt.columns.Nodup ∧
    (idName ∈ schema.columns → idName ∉ stmt.columns))

/-- The row of a statement: the id, the given values, and empty fields. -/
structure RowOf (schema : TableSchema) (stmt : InsertStatement) (nextId : UInt64) (row : Row) :
    Prop where
  length : row.length = schema.columnCount
  generated : ∀ i : ℕ, schema.columns[i]? = some idName → row[i]? = some (decimal nextId.toNat)
  given : ∀ (i j : ℕ) c value, schema.columns[i]? = some c →
    (targetColumns schema stmt)[j]? = some c → stmt.values[j]? = some value →
    row[i]? = some value.text
  other : ∀ (i : ℕ) c, schema.columns[i]? = some c → c ≠ idName →
    c ∉ targetColumns schema stmt → row[i]? = some .empty

def assigned (schema : TableSchema) (stmt : InsertStatement) : List (CString × LiteralValue) :=
  (targetColumns schema stmt).zip stmt.values

def expectedField (schema : TableSchema) (stmt : InsertStatement) (nextId : UInt64)
    (c : CString) : CString :=
  if c = idName then decimal nextId.toNat
  else ((assigned schema stmt).lookup c).elim .empty LiteralValue.text

def expectedRow (schema : TableSchema) (stmt : InsertStatement) (nextId : UInt64) : Row :=
  schema.columns.map (expectedField schema stmt nextId)

theorem lookup_zip {α β : Type} [BEq α] [LawfulBEq α] {ks : List α} {vs : List β}
    (hnodup : ks.Nodup) {j : ℕ} {k : α} {v : β} (hk : ks[j]? = some k) (hv : vs[j]? = some v) :
    (ks.zip vs).lookup k = some v := by
  induction ks generalizing vs j with
  | nil => simp at hk
  | cons a ks ih =>
    obtain ⟨hnot, hrest⟩ := List.nodup_cons.mp hnodup
    cases vs with
    | nil => simp at hv
    | cons b vs =>
      rw [List.zip_cons_cons, List.lookup_cons]
      cases j with
      | zero =>
        simp only [List.getElem?_cons_zero, Option.some.injEq] at hk hv
        simp [hk, hv]
      | succ j =>
        rw [List.getElem?_cons_succ] at hk hv
        have hne : k ≠ a := fun heq => hnot (heq ▸ List.mem_of_getElem? hk)
        rw [beq_false_of_ne hne]
        exact ih hrest hk hv

theorem lookup_zip_none {α β : Type} [BEq α] [LawfulBEq α] {ks : List α} (vs : List β) {k : α}
    (hk : k ∉ ks) : (ks.zip vs).lookup k = none := by
  rw [List.lookup_eq_none_iff]
  intro p hp
  have hne : k ≠ p.1 := fun heq => hk (heq ▸ (List.of_mem_zip hp).1)
  simpa using hne

theorem lookup_perm {α β : Type} [BEq α] [LawfulBEq α] {l l' : List (α × β)} (hperm : l.Perm l')
    (hnodup : (l.map Prod.fst).Nodup) (k : α) : l.lookup k = l'.lookup k := by
  induction hperm with
  | nil => rfl
  | cons p _ ih =>
    rw [List.lookup_cons, List.lookup_cons, ih (List.nodup_cons.mp hnodup).2]
  | swap p q l =>
    have hne : q.1 ≠ p.1 := by
      intro heq
      simp [heq] at hnodup
    rw [List.lookup_cons, List.lookup_cons, List.lookup_cons, List.lookup_cons]
    by_cases hp : k = p.1
    · subst hp
      simp [beq_false_of_ne (Ne.symm hne)]
    · simp [beq_false_of_ne hp]
  | trans h₁ _ ih₁ ih₂ =>
    rw [ih₁ hnodup, ih₂ ((h₁.map Prod.fst).nodup_iff.mp hnodup)]

theorem findColumn_none (schema : TableSchema) (c : CString) :
    schemaFindColumnIndex schema c = none ↔ c ∉ schema.columns := by
  unfold schemaFindColumnIndex
  rw [List.findIdx?_eq_none_iff]
  constructor
  · intro h hmem
    simpa using h c hmem
  · intro h x hx
    have hne : x ≠ c := fun heq => h (heq ▸ hx)
    simpa using hne

theorem findColumn_mem {schema : TableSchema} {c : CString} (h : c ∈ schema.columns) :
    ∃ i, schemaFindColumnIndex schema c = some i ∧ schema.columns[i]? = some c := by
  obtain ⟨i, hi⟩ := List.mem_iff_getElem?.mp h
  exact ⟨i, findColumn_nth schema hi, hi⟩

def Seen (schema : TableSchema) (before : List CString) (seen : List ℕ) : Prop :=
  ∀ i, i ∈ seen ↔ ∃ c ∈ before, schema.columns[i]? = some c

theorem seen_cons {schema : TableSchema} {before : List CString} {seen : List ℕ}
    (h : Seen schema before seen) {c : CString} {i : ℕ} (hc : schema.columns[i]? = some c) :
    Seen schema (c :: before) (i :: seen) := by
  intro j
  rw [List.mem_cons, h j]
  constructor
  · rintro (rfl | ⟨d, hd, hj⟩)
    · exact ⟨c, List.mem_cons_self, hc⟩
    · exact ⟨d, List.mem_cons_of_mem _ hd, hj⟩
  · rintro ⟨d, hd, hj⟩
    rcases List.mem_cons.mp hd with rfl | hd
    · left
      have hfind := findColumn_nth schema hc
      rw [findColumn_nth schema hj, Option.some.injEq] at hfind
      exact hfind
    · exact Or.inr ⟨d, hd, hj⟩

/-- The loop passes a list of known columns without the id column and without repetition. -/
theorem checkAutoIdColumns_iff {schema : TableSchema} {idColumnIndex : ℕ} {before : List CString}
    {columns : List CString} {seen : List ℕ} (hseen : Seen schema before seen) :
    checkAutoIdColumns schema idColumnIndex columns seen = .ok () ↔
      (∀ c ∈ columns, c ∈ schema.columns ∧ schema.columns[idColumnIndex]? ≠ some c ∧
        c ∉ before) ∧ columns.Nodup := by
  induction columns generalizing before seen with
  | nil => simp [checkAutoIdColumns]
  | cons column columns ih =>
    rw [checkAutoIdColumns, List.forall_mem_cons, List.nodup_cons]
    cases hfind : schemaFindColumnIndex schema column with
    | none =>
      have hnot := (findColumn_none schema column).mp hfind
      simp [hnot]
    | some i =>
      obtain ⟨-, hcol⟩ := findColumn_spec hfind
      have hmem := List.mem_of_getElem? hcol
      dsimp only
      by_cases hid : i = idColumnIndex
      · subst hid
        simp [hcol]
      have hne : schema.columns[idColumnIndex]? ≠ some column := by
        intro heq
        rw [findColumn_nth schema heq, Option.some.injEq] at hfind
        exact hid hfind.symm
      rw [if_neg hid]
      by_cases hdup : i ∈ seen
      · obtain ⟨c, hc, hci⟩ := (hseen i).mp hdup
        rw [hcol, Option.some.injEq] at hci
        subst hci
        simp [hdup, hc]
      have hnew : column ∉ before := fun hc => hdup ((hseen i).mpr ⟨column, hc, hcol⟩)
      rw [if_neg hdup, ih (seen_cons hseen hcol)]
      constructor
      · rintro ⟨hall, hnodup⟩
        refine ⟨⟨⟨hmem, hne, hnew⟩, fun c hc => ?_⟩, ?_, hnodup⟩
        · obtain ⟨h₁, h₂, h₃⟩ := hall c hc
          exact ⟨h₁, h₂, fun hb => h₃ (List.mem_cons_of_mem _ hb)⟩
        · exact fun hc => (hall column hc).2.2 List.mem_cons_self
      · rintro ⟨⟨-, hall⟩, hnot, hnodup⟩
        refine ⟨fun c hc => ?_, hnodup⟩
        obtain ⟨h₁, h₂, h₃⟩ := hall c hc
        refine ⟨h₁, h₂, fun hb => ?_⟩
        rcases List.mem_cons.mp hb with rfl | hb
        · exact hnot hc
        · exact h₃ hb

/-- The assignments of both loops over a column list, without the checks. -/
def placeValues (schema : TableSchema) : List (CString × LiteralValue) → Row → Row
  | [], row => row
  | (column, value) :: rest, row =>
    placeValues schema rest
      ((schemaFindColumnIndex schema column).elim row (fun i => row.set i value.text))

/-- The loop of `build_insert_row_existing_behavior` makes the checks of the auto-id validation,
with no column excluded. -/
theorem placeNamedValues_checked (schema : TableSchema) (named : List (CString × LiteralValue))
    (seen : List ℕ) (row : Row) :
    placeNamedValues schema named seen row =
      (checkAutoIdColumns schema schema.columnCount (named.map Prod.fst) seen).map
        (fun _ => placeValues schema named row) := by
  induction named generalizing seen row with
  | nil => rfl
  | cons p named ih =>
    rw [placeNamedValues, List.map_cons, checkAutoIdColumns, placeValues]
    cases hfind : schemaFindColumnIndex schema p.1 with
    | none => rfl
    | some i =>
      have hne : i ≠ schema.columnCount := (findColumn_spec hfind).1.ne
      dsimp only
      rw [if_neg hne]
      by_cases hdup : i ∈ seen
      · rw [if_pos hdup, if_pos hdup]
        rfl
      · rw [if_neg hdup, if_neg hdup, ih]
        rfl

theorem placeAutoIdValues_checked {schema : TableSchema} {idColumnIndex : ℕ}
    {named : List (CString × LiteralValue)}
    (h : ∀ c ∈ named.map Prod.fst, c ∈ schema.columns ∧ schema.columns[idColumnIndex]? ≠ some c)
    (row : Row) :
    placeAutoIdValues schema idColumnIndex named row = .ok (placeValues schema named row) := by
  induction named generalizing row with
  | nil => rfl
  | cons p named ih =>
    rw [List.map_cons, List.forall_mem_cons] at h
    obtain ⟨⟨hmem, hne⟩, hrest⟩ := h
    obtain ⟨i, hfind, hcol⟩ := findColumn_mem hmem
    have hid : i ≠ idColumnIndex := by
      rintro rfl
      exact hne hcol
    rw [placeAutoIdValues, placeValues, hfind]
    dsimp only
    rw [if_neg hid, ih hrest]
    rfl

theorem placeValues_length (schema : TableSchema) (named : List (CString × LiteralValue))
    (row : Row) : (placeValues schema named row).length = row.length := by
  induction named generalizing row with
  | nil => rfl
  | cons p named ih =>
    rw [placeValues, ih]
    cases schemaFindColumnIndex schema p.1 with
    | none => rfl
    | some i => exact List.length_set

theorem placeValues_get {schema : TableSchema} {named : List (CString × LiteralValue)}
    (hnodup : (named.map Prod.fst).Nodup) {row : Row} (hrow : row.length = schema.columnCount)
    {i : ℕ} {c : CString} (hc : schema.columns[i]? = some c) :
    (placeValues schema named row)[i]? =
      ((named.lookup c).map LiteralValue.text).or row[i]? := by
  induction named generalizing row with
  | nil => rfl
  | cons p named ih =>
    obtain ⟨hnot, hrest⟩ := List.nodup_cons.mp hnodup
    rw [placeValues, ih hrest, List.lookup_cons]
    · by_cases heq : c = p.1
      · subst heq
        have hnone : named.lookup p.1 = none := by
          rw [List.lookup_eq_none_iff]
          intro q hq
          have hne : p.1 ≠ q.1 := fun h => hnot (h ▸ List.mem_map_of_mem hq)
          simpa using hne
        have hlt : i < row.length := hrow ▸ (List.getElem?_eq_some_iff.mp hc).1
        rw [findColumn_nth schema hc, hnone]
        simp [hlt]
      · rw [beq_false_of_ne heq]
        congr 1
        cases hfind : schemaFindColumnIndex schema p.1 with
        | none => rfl
        | some j =>
          have hji : j ≠ i := by
            rintro rfl
            have hcol := (findColumn_spec hfind).2
            rw [hc, Option.some.injEq] at hcol
            exact heq hcol
          exact List.getElem?_set_ne hji
    · cases schemaFindColumnIndex schema p.1 with
      | none => exact hrow
      | some j => simpa using hrow

/-- The loop of `build_insert_row_with_generated_id` over the columns from position `k` on: the
id column keeps its field, and the others take the values one after another. -/
theorem placeOrderedValues_row {idColumnIndex : ℕ} {cs : List CString} {slots : Row} {k : ℕ}
    {values : List LiteralValue} (hslots : slots.length = cs.length) (hnodup : cs.Nodup)
    (hid : ∀ (p : ℕ) c, cs[p]? = some c → (c = idName ↔ k + p = idColumnIndex))
    (hcount : values.length = (cs.filter (· ≠ idName)).length) :
    ∃ row, placeOrderedValues idColumnIndex k slots values = .ok row ∧
      row.length = slots.length ∧
      ∀ (p : ℕ) c, cs[p]? = some c → row[p]? =
        if c = idName then slots[p]?
        else (((cs.filter (· ≠ idName)).zip values).lookup c).map LiteralValue.text := by
  induction cs generalizing slots k values with
  | nil =>
    rw [List.length_nil, List.length_eq_zero_iff] at hslots
    subst hslots
    exact ⟨[], rfl, rfl, fun p c hc => by simp at hc⟩
  | cons a cs ih =>
    obtain ⟨hnot, hrest⟩ := List.nodup_cons.mp hnodup
    cases slots with
    | nil => simp at hslots
    | cons slot slots =>
      have hslots' : slots.length = cs.length := by simpa using hslots
      have hid' : ∀ (p : ℕ) c, cs[p]? = some c → (c = idName ↔ k + 1 + p = idColumnIndex) := by
        intro p c hc
        have := hid (p + 1) c (by simpa using hc)
        rwa [← Nat.add_assoc, Nat.add_right_comm] at this
      have hfirst : a = idName ↔ k = idColumnIndex := hid 0 a rfl
      rw [placeOrderedValues.eq_def]
      dsimp only
      by_cases ha : a = idName
      · rw [if_pos (hfirst.mp ha)]
        rw [List.filter_cons_of_neg (by simpa using ha)] at hcount
        obtain ⟨row, hrow, hlen, hget⟩ := ih hslots' hrest hid' hcount
        refine ⟨slot :: row, by rw [hrow, ok_bind], by simp [hlen], ?_⟩
        intro p c hc
        cases p with
        | zero =>
          obtain rfl : a = c := by simpa using hc
          rw [if_pos ha]
          rfl
        | succ p =>
          rw [List.filter_cons_of_neg (by simpa using ha)]
          exact hget p c (by simpa using hc)
      · rw [if_neg (fun h => ha (hfirst.mpr h))]
        rw [List.filter_cons_of_pos (by simpa using ha)] at hcount
        cases values with
        | nil => simp at hcount
        | cons value values =>
          obtain ⟨row, hrow, hlen, hget⟩ := ih hslots' hrest hid' (by simpa using hcount)
          refine ⟨value.text :: row, by simp only [hrow, ok_bind], by simp [hlen], ?_⟩
          intro p c hc
          rw [List.filter_cons_of_pos (by simpa using ha), List.zip_cons_cons, List.lookup_cons]
          cases p with
          | zero =>
            obtain rfl : a = c := by simpa using hc
            rw [if_neg ha]
            simp
          | succ p =>
            have hc' : cs[p]? = some c := by simpa using hc
            have hne : c ≠ a := fun heq => hnot (heq ▸ List.mem_of_getElem? hc')
            rw [beq_false_of_ne hne]
            exact hget p c hc'

theorem row_eq_expected {schema : TableSchema} {stmt : InsertStatement} {nextId : UInt64}
    {row : Row} (hlength : row.length = schema.columnCount)
    (hget : ∀ (i : ℕ) c, schema.columns[i]? = some c →
      row[i]? = some (expectedField schema stmt nextId c)) :
    row = expectedRow schema stmt nextId := by
  apply List.ext_getElem?
  intro i
  rw [expectedRow, List.getElem?_map]
  cases hc : schema.columns[i]? with
  | some c => exact hget i c hc
  | none =>
    rw [List.getElem?_eq_none_iff] at hc
    rw [Option.map_none, List.getElem?_eq_none_iff, hlength]
    exact hc

theorem positional_length {schema : TableSchema} (h : idName ∈ schema.columns) :
    (positionalColumns schema).length = schema.columnCount - 1 := by
  have herase := schema.columns_nodup.erase_eq_filter idName
  have hsame : positionalColumns schema = schema.columns.erase idName := by
    rw [herase]
    apply List.filter_congr
    intro c _
    by_cases hc : c = idName
    · simp [hc]
    · simp [hc, bne_iff_ne]
  rw [hsame, List.length_erase_of_mem h]
  rfl

theorem positional_all {schema : TableSchema} (h : idName ∉ schema.columns) :
    positionalColumns schema = schema.columns := by
  apply List.filter_eq_self.mpr
  intro c hc
  have hne : c ≠ idName := fun heq => h (heq ▸ hc)
  simpa using hne

theorem seen_nil (schema : TableSchema) : Seen schema [] [] := by simp [Seen]

theorem named_columns {columns : List CString} {values : List LiteralValue}
    (h : columns.length = values.length) : (columns.zip values).map Prod.fst = columns :=
  List.map_fst_zip h.le

theorem error_of_not_ok {x : Except EngineError Unit} (h : x ≠ .ok ()) : ∃ e, x = .error e := by
  cases x with
  | error e => exact ⟨e, rfl⟩
  | ok u => exact absurd rfl h

/-- The row that the assignments of a column list leave, from the fields that were there. -/
theorem placed_expected {schema : TableSchema} {stmt : InsertStatement} {nextId : UInt64}
    {base : Row} (hcols : stmt.columns ≠ []) (hlen : stmt.columns.length = stmt.values.length)
    (hnodup : stmt.columns.Nodup) (hno : idName ∈ schema.columns → idName ∉ stmt.columns)
    (hbase : base.length = schema.columnCount)
    (hget : ∀ (i : ℕ) c, schema.columns[i]? = some c →
      base[i]? = some (if c = idName then decimal nextId.toNat else .empty)) :
    placeValues schema (stmt.columns.zip stmt.values) base = expectedRow schema stmt nextId := by
  have hnames := named_columns hlen
  apply row_eq_expected ((placeValues_length _ _ _).trans hbase)
  intro i c hc
  rw [placeValues_get (by rw [hnames]; exact hnodup) hbase hc, hget i c hc, expectedField, assigned,
    targetColumns, if_neg hcols]
  by_cases hid : c = idName
  · subst hid
    rw [lookup_zip_none _ (hno (List.mem_of_getElem? hc))]
    simp
  · rw [if_neg hid, if_neg hid]
    cases (stmt.columns.zip stmt.values).lookup c with
    | none => rfl
    | some value => rfl

/-- The statement is admissible and gets its row, or it is not and is refused. -/
def Builds (schema : TableSchema) (stmt : InsertStatement) (nextId : UInt64)
    (built : Except EngineError Row) : Prop :=
  (Admissible schema stmt → built = .ok (expectedRow schema stmt nextId)) ∧
    (¬ Admissible schema stmt → ∃ e, built = .error e)

section Existing

variable {schema : TableSchema} (hno : idName ∉ schema.columns) (stmt : InsertStatement)
  (nextId : UInt64)

include hno

theorem existing_positional (hcols : stmt.columns = []) :
    Builds schema stmt nextId (buildInsertRowExistingBehavior schema stmt) := by
  unfold Builds buildInsertRowExistingBehavior
  rw [if_pos hcols]
  have hiff : Admissible schema stmt ↔ stmt.values.length = schema.columnCount := by
    rw [Admissible, positional_all hno]
    simp [hcols, TableSchema.columnCount]
  rw [hiff]
  constructor
  · intro hcount
    rw [if_neg (not_not.mpr hcount)]
    congr 1
    apply row_eq_expected (by simpa using hcount)
    intro i c hc
    have hlt : i < stmt.values.length := hcount ▸ (List.getElem?_eq_some_iff.mp hc).1
    have hv := List.getElem?_eq_getElem hlt
    have hne : c ≠ idName := fun heq => hno (heq ▸ List.mem_of_getElem? hc)
    rw [expectedField, if_neg hne, assigned, targetColumns, if_pos hcols, positional_all hno,
      lookup_zip schema.columns_nodup hc hv, List.getElem?_map, hv]
    rfl
  · intro hcount
    rw [if_pos hcount]
    exact ⟨_, rfl⟩

theorem existing_named (hcols : stmt.columns ≠ []) :
    Builds schema stmt nextId (buildInsertRowExistingBehavior schema stmt) := by
  unfold Builds buildInsertRowExistingBehavior
  rw [if_neg hcols]
  by_cases hlen : stmt.columns.length = stmt.values.length
  · rw [if_neg (not_not.mpr hlen), placeNamedValues_checked, named_columns hlen]
    have hcheck : checkAutoIdColumns schema schema.columnCount stmt.columns [] = .ok () ↔ _ :=
      checkAutoIdColumns_iff (seen_nil schema)
    have hiff : Admissible schema stmt ↔
        checkAutoIdColumns schema schema.columnCount stmt.columns [] = .ok () := by
      rw [hcheck, Admissible]
      simp [hcols, hlen, hno, TableSchema.columnCount]
    constructor
    · intro hadm
      obtain ⟨hall, hnodup⟩ := hcheck.mp (hiff.mp hadm)
      rw [hiff.mp hadm]
      refine congrArg Except.ok (placed_expected hcols hlen hnodup (fun h => absurd h hno)
        (List.length_replicate ..) ?_)
      intro i c hc
      have hne : c ≠ idName := fun heq => hno (heq ▸ List.mem_of_getElem? hc)
      have hlt : i < schema.columnCount := (List.getElem?_eq_some_iff.mp hc).1
      rw [if_neg hne, List.getElem?_replicate, if_pos hlt]
    · intro hnot
      obtain ⟨e, he⟩ := error_of_not_ok (fun h => hnot (hiff.mpr h))
      rw [he]
      exact ⟨e, rfl⟩
  · rw [if_pos hlen]
    have hnot : ¬ Admissible schema stmt := by simp [Admissible, hcols, hlen]
    exact ⟨fun h => absurd h hnot, fun _ => ⟨_, rfl⟩⟩

end Existing

section Generated

variable {table : TableRuntime} {i : ℕ} (hindex : table.idColumnIndex = some i)
  (hcol : table.schema.columns[i]? = some idName) (stmt : InsertStatement)

include hcol in
theorem id_position {p : ℕ} {c : CString} (hc : table.schema.columns[p]? = some c) :
    c = idName ↔ p = i := by
  constructor
  · rintro rfl
    have hfind := findColumn_nth table.schema hcol
    rw [findColumn_nth table.schema hc, Option.some.injEq] at hfind
    exact hfind
  · rintro rfl
    rw [hcol, Option.some.injEq] at hc
    exact hc.symm

include hcol in
theorem blank_get {j : ℕ} {c : CString} (hc : table.schema.columns[j]? = some c) (k : UInt64) :
    ((List.replicate table.schema.columnCount CString.empty).set i (decimal k.toNat))[j]? =
      some (if c = idName then decimal k.toNat else .empty) := by
  have hlt : j < table.schema.columnCount := (List.getElem?_eq_some_iff.mp hc).1
  by_cases hid : c = idName
  · obtain rfl := (id_position hcol hc).mp hid
    rw [if_pos hid, List.getElem?_set_self (by simpa using hlt)]
  · have hij : i ≠ j := fun heq => hid ((id_position hcol hc).mpr heq.symm)
    rw [if_neg hid, List.getElem?_set_ne hij, List.getElem?_replicate, if_pos hlt]

include hindex hcol

theorem validate_iff : validateInsertColumnsForAutoId table stmt = .ok () ↔
    Admissible table.schema stmt := by
  have hmem := List.mem_of_getElem? hcol
  simp only [validateInsertColumnsForAutoId, hindex]
  by_cases hcols : stmt.columns = []
  · rw [if_pos hcols, Admissible, positional_length hmem]
    by_cases hcount : stmt.values.length = table.schema.columnCount - 1
    · simp [hcols, hcount]
    · simp [hcols, hcount]
  · rw [if_neg hcols]
    by_cases hlen : stmt.columns.length = stmt.values.length
    · rw [if_neg (not_not.mpr hlen), checkAutoIdColumns_iff (seen_nil table.schema), hcol]
      simp only [Admissible, hcols, hlen, hmem, false_and, false_or, ne_eq, not_false_eq_true,
        true_and, Option.some.injEq, List.not_mem_nil, and_true, true_implies]
      constructor
      · rintro ⟨hall, hnodup⟩
        exact ⟨fun c hc => (hall c hc).1, hnodup, fun hin => (hall _ hin).2 rfl⟩
      · rintro ⟨hknown, hnodup, hno⟩
        exact ⟨fun c hc => ⟨hknown c hc, fun heq => hno (heq ▸ hc)⟩, hnodup⟩
    · rw [if_pos hlen]
      simp [Admissible, hcols, hlen]

theorem generated_expected (hadm : Admissible table.schema stmt) (k : UInt64) :
    buildInsertRowWithGeneratedId table stmt k = .ok (.ok (expectedRow table.schema stmt k)) := by
  have hmem := List.mem_of_getElem? hcol
  have hblank : ((List.replicate table.schema.columnCount CString.empty).set i
      (decimal k.toNat)).length = table.schema.columnCount := by simp
  simp only [buildInsertRowWithGeneratedId, hindex]
  rcases hadm with ⟨hcols, hcount⟩ | ⟨hcols, hlen, hknown, hnodup, hno⟩
  · have hposition : ∀ (p : ℕ) c, table.schema.columns[p]? = some c →
        (c = idName ↔ 0 + p = i) := by
      intro p c hc
      rw [Nat.zero_add]
      exact id_position hcol hc
    obtain ⟨row, hrow, hlength, hget⟩ :=
      placeOrderedValues_row hblank table.schema.columns_nodup hposition hcount
    rw [if_pos hcols, hrow, ok_bind]
    refine congrArg (fun r => Except.ok (Except.ok r)) (row_eq_expected (hlength.trans hblank) ?_)
    intro p c hc
    rw [hget p c hc, blank_get hcol hc, expectedField, assigned, targetColumns, if_pos hcols]
    by_cases hid : c = idName
    · rw [if_pos hid, if_pos hid, if_pos hid]
    · rw [if_neg hid, if_neg hid]
      -- every column but the id has a value
      have htarget : c ∈ positionalColumns table.schema :=
        List.mem_filter.mpr ⟨List.mem_of_getElem? hc, by simpa using hid⟩
      obtain ⟨j, hj⟩ := List.mem_iff_getElem?.mp htarget
      have hlt : j < stmt.values.length := hcount ▸ (List.getElem?_eq_some_iff.mp hj).1
      have hlookup := lookup_zip (table.schema.columns_nodup.filter _) hj
        (List.getElem?_eq_getElem hlt)
      rw [positionalColumns, hlookup]
      rfl
  · rw [if_neg hcols, placeAutoIdValues_checked]
    · exact congrArg (fun r => Except.ok (Except.ok r))
        (placed_expected hcols hlen hnodup hno hblank (fun j c hc => blank_get hcol hc k))
    · intro c hc
      rw [named_columns hlen] at hc
      refine ⟨hknown c hc, ?_⟩
      rw [hcol, Ne, Option.some.injEq]
      rintro rfl
      exact hno hmem hc

end Generated

theorem builtRow_builds {table : TableRuntime} (h : Sound table)
    (hnext : table.hasIdColumn = true → table.nextId ≠ 0) (stmt : InsertStatement) :
    ∃ built, builtRow table stmt = .ok built ∧ Builds table.schema stmt table.nextId built := by
  unfold builtRow
  cases hindex : table.idColumnIndex with
  | none =>
    have hno : idName ∉ table.schema.columns := by
      rw [← findColumn_none]
      exact h.id_column.symm.trans hindex
    rw [if_neg (by simp [TableRuntime.hasIdColumn, hindex])]
    refine ⟨_, rfl, ?_⟩
    by_cases hcols : stmt.columns = []
    · exact existing_positional hno stmt table.nextId hcols
    · exact existing_named hno stmt table.nextId hcols
  | some i =>
    have hcol := (findColumn_spec (h.id_column.symm.trans hindex)).2
    have hhas : table.hasIdColumn = true := by simp [TableRuntime.hasIdColumn, hindex]
    have hiff := validate_iff hindex hcol stmt
    rw [if_pos hhas]
    by_cases hadm : Admissible table.schema stmt
    · rw [hiff.mpr hadm]
      dsimp only
      rw [if_neg (hnext hhas), generated_expected hindex hcol stmt hadm]
      exact ⟨_, rfl, fun _ => rfl, fun hnot => absurd hadm hnot⟩
    · obtain ⟨e, he⟩ := error_of_not_ok (fun hok => hadm (hiff.mp hok))
      rw [he]
      exact ⟨_, rfl, fun h => absurd h hadm, fun _ => ⟨e, rfl⟩⟩

theorem target_nodup {schema : TableSchema} {stmt : InsertStatement}
    (h : Admissible schema stmt) : (targetColumns schema stmt).Nodup := by
  unfold targetColumns
  rcases h with ⟨hcols, -⟩ | ⟨hcols, -, -, hnodup, -⟩
  · rw [if_pos hcols]
    exact schema.columns_nodup.filter _
  · rw [if_neg hcols]
    exact hnodup

theorem target_not_id {schema : TableSchema} {stmt : InsertStatement}
    (h : Admissible schema stmt) {c : CString} (hc : c ∈ targetColumns schema stmt)
    (hmem : c ∈ schema.columns) : c ≠ idName := by
  unfold targetColumns at hc
  rcases h with ⟨hcols, -⟩ | ⟨hcols, -, -, -, hno⟩
  · rw [if_pos hcols] at hc
    simpa using (List.mem_filter.mp hc).2
  · rw [if_neg hcols] at hc
    rintro rfl
    exact hno hmem hc

theorem rowOf_expected {schema : TableSchema} {stmt : InsertStatement}
    (h : Admissible schema stmt) (nextId : UInt64) :
    RowOf schema stmt nextId (expectedRow schema stmt nextId) := by
  have hget : ∀ (i : ℕ) c, schema.columns[i]? = some c →
      (expectedRow schema stmt nextId)[i]? = some (expectedField schema stmt nextId c) := by
    intro i c hc
    rw [expectedRow, List.getElem?_map, hc]
    rfl
  refine ⟨List.length_map _, ?_, ?_, ?_⟩
  · intro i hc
    rw [hget i idName hc, expectedField, if_pos rfl]
  · intro i j c value hc htarget hvalue
    have hne := target_not_id h (List.mem_of_getElem? htarget) (List.mem_of_getElem? hc)
    rw [hget i c hc, expectedField, if_neg hne, assigned,
      lookup_zip (target_nodup h) htarget hvalue]
    rfl
  · intro i c hc hne hnot
    rw [hget i c hc, expectedField, if_neg hne, assigned, lookup_zip_none _ hnot]
    rfl

structure Rearranged (stmt stmt' : InsertStatement) : Prop where
  tableName : stmt'.tableName = stmt.tableName
  given : stmt.columns ≠ []
  length : stmt.columns.length = stmt.values.length
  length' : stmt'.columns.length = stmt'.values.length
  perm : (stmt.columns.zip stmt.values).Perm (stmt'.columns.zip stmt'.values)

theorem Rearranged.columns {stmt stmt' : InsertStatement} (h : Rearranged stmt stmt') :
    stmt.columns.Perm stmt'.columns := by
  have := h.perm.map Prod.fst
  rwa [named_columns h.length, named_columns h.length'] at this

theorem rearranged_admissible {schema : TableSchema} {stmt stmt' : InsertStatement}
    (h : Rearranged stmt stmt') (hadm : Admissible schema stmt) : Admissible schema stmt' := by
  have hperm := h.columns
  rcases hadm with ⟨hcols, -⟩ | ⟨hcols, hlen, hknown, hnodup, hno⟩
  · exact absurd hcols h.given
  · refine .inr ⟨?_, h.length', ?_, hperm.nodup_iff.mp hnodup, ?_⟩
    · intro hnil
      rw [hnil] at hperm
      exact hcols hperm.eq_nil
    · exact fun c hc => hknown c (hperm.mem_iff.mpr hc)
    · exact fun hid hc => hno hid (hperm.mem_iff.mpr hc)

theorem rearranged_row {schema : TableSchema} {stmt stmt' : InsertStatement}
    (h : Rearranged stmt stmt') (hadm : Admissible schema stmt) (nextId : UInt64) :
    expectedRow schema stmt' nextId = expectedRow schema stmt nextId := by
  have hgiven' : stmt'.columns ≠ [] := by
    intro hnil
    have hperm := h.columns
    rw [hnil] at hperm
    exact h.given hperm.eq_nil
  have hnodup : ((stmt.columns.zip stmt.values).map Prod.fst).Nodup := by
    have := target_nodup hadm
    rwa [targetColumns, if_neg h.given, ← named_columns h.length] at this
  apply List.map_congr_left
  intro c _
  unfold expectedField assigned targetColumns
  rw [if_neg h.given, if_neg hgiven', lookup_perm h.perm hnodup]

theorem inserted_unique {table t t' : TableRuntime} {row : Row} {offset : ℕ}
    {g g' : Option UInt64} (h : Inserted table row offset t g)
    (h' : Inserted table row offset t' g') : t = t' ∧ g = g' := by
  cases hid : table.idColumnIndex with
  | none =>
    obtain ⟨rfl, rfl⟩ := h.plain hid
    obtain ⟨rfl, rfl⟩ := h'.plain hid
    exact ⟨rfl, rfl⟩
  | some i =>
    obtain ⟨-, rfl, -, tree, htree, rfl⟩ := h.generated i hid
    obtain ⟨-, rfl, -, tree', htree', rfl⟩ := h'.generated i hid
    rw [htree] at htree'
    cases htree'
    exact ⟨rfl, rfl⟩

theorem insertInto_outcome (disk : Disk) (dbDir : CString) {table : TableRuntime}
    (h : Sound table) (hnext : table.hasIdColumn = true → table.nextId ≠ 0)
    (stmt : InsertStatement) :
    (¬ Admissible table.schema stmt ∧
      ∃ e, insertInto noFaults disk dbDir table stmt = .ok (disk, table, .error e)) ∨
    (Admissible table.schema stmt ∧ ∃ table' generatedId,
      Inserted table (expectedRow table.schema stmt table.nextId)
        (file disk dbDir stmt.tableName).length table' generatedId ∧
      insertInto noFaults disk dbDir table stmt =
        .ok (Function.update disk (dataPath dbDir stmt.tableName)
          (some (file disk dbDir stmt.tableName ++
            encodeRow (expectedRow table.schema stmt table.nextId))), table',
          .ok (insertResult generatedId))) := by
  obtain ⟨built, hbuilt, hok, hrefused⟩ := builtRow_builds h hnext stmt
  rcases insertInto_cases disk dbDir stmt h with
    ⟨e, hrow, hrun⟩ | ⟨row, table', generatedId, hrow, hins, hrun⟩
  · rw [hbuilt, Except.ok.injEq] at hrow
    refine .inl ⟨fun hadm => ?_, e, hrun⟩
    rw [hok hadm] at hrow
    cases hrow
  · rw [hbuilt, Except.ok.injEq] at hrow
    have hadm : Admissible table.schema stmt := by
      by_contra hnot
      obtain ⟨e, he⟩ := hrefused hnot
      rw [he] at hrow
      cases hrow
    rw [hok hadm, Except.ok.injEq] at hrow
    subst hrow
    exact .inr ⟨hadm, table', generatedId, hins, hrun⟩

/-- In any state that a run from a fresh context reaches, whatever the files hold: an INSERT into
a table that is cached or loads succeeds exactly when it is admissible. It then appends the row of
the statement, and the same assignments in another order have the same outcome. Otherwise the
files, the index and the next id are what they were. -/
theorem insert_builds_row_or_refuses (disk : Disk) (dbDir : CString) (stmts : List Statement)
    {disk' disk₁ : Disk} {ctx' : ExecutionContext} {outs : List (Except EngineError ExecResult)}
    (stmt : InsertStatement) {table : TableRuntime}
    (hrun : runStatements disk (initExecutionContext dbDir) stmts = .ok (disk', ctx', outs))
    (hload : resolve disk' ctx' stmt.tableName = .ok (disk₁, .ok table))
    (hnext : table.hasIdColumn = true → table.nextId ≠ 0) :
    ∃ disk'' ctx'' out,
      executeStatement noFaults disk' ctx' (.insert stmt) = .ok (disk'', ctx'', out) ∧
      ((∃ result, out = .ok result) ↔ Admissible table.schema stmt) ∧
      (∀ result, out = .ok result → ∃ row, RowOf table.schema stmt table.nextId row ∧
        disk'' = Function.update disk₁ (dataPath dbDir stmt.tableName)
          (some (file disk' dbDir stmt.tableName ++ encodeRow row)) ∧
        ∀ stmt', Rearranged stmt stmt' →
          executeStatement noFaults disk' ctx' (.insert stmt') = .ok (disk'', ctx'', out)) ∧
      ∀ e, out = .error e → (∀ name, file disk'' dbDir name = file disk' dbDir name) ∧
        cached ctx'' stmt.tableName = some table := by
  obtain ⟨d, c, o, hrun', hsound, hdir⟩ := run_invariant
    (fun _ ctx => SoundContext ctx ∧ ctx.dbDir = dbDir) (fun _ _ h => h.1)
    (fun _ _ _ _ _ _ h heffect => ⟨effect_sound heffect h.1, (effect_dbDir heffect).trans h.2⟩)
    stmts disk (initExecutionContext dbDir) ⟨sound_init dbDir, rfl⟩
  rw [hrun] at hrun'
  cases hrun'
  have htable := resolve_sound hsound hload
  have hname := resolve_name hload
  have hfile := resolve_file hload dbDir
  rcases insertInto_outcome disk₁ dbDir htable hnext stmt with
    ⟨hnot, e, hinto⟩ | ⟨hadm, table', generatedId, hins, hinto⟩
  · refine ⟨disk₁, remember ctx' table, .error e, ?_, ?_, ?_, ?_⟩
    · simp only [executeStatement, executeInsert_resolve, hload, ok_bind, hdir, hinto]
    · constructor
      · rintro ⟨result, hresult⟩
        cases hresult
      · exact fun hadm => absurd hadm hnot
    · intro result hresult
      cases hresult
    · intro e' _
      refine ⟨hfile, ?_⟩
      rw [cached_remember, if_pos hname]
  · rw [hfile] at hinto
    refine ⟨Function.update disk₁ (dataPath dbDir stmt.tableName)
      (some (file disk' dbDir stmt.tableName ++
        encodeRow (expectedRow table.schema stmt table.nextId))),
      remember ctx' table', .ok (insertResult generatedId), ?_, ?_, ?_, ?_⟩
    · simp only [executeStatement, executeInsert_resolve, hload, ok_bind, hdir, hinto]
    · exact ⟨fun _ => hadm, fun _ => ⟨_, rfl⟩⟩
    · intro result _
      refine ⟨_, rowOf_expected hadm table.nextId, rfl, fun stmt' hre => ?_⟩
      have hadm' := rearranged_admissible hre hadm
      have hrow := rearranged_row hre hadm table.nextId
      rcases insertInto_outcome disk₁ dbDir htable hnext stmt' with
        ⟨hnot, -⟩ | ⟨-, table'', generatedId', hins', hinto'⟩
      · exact absurd hadm' hnot
      rw [hre.tableName, hrow] at hins' hinto'
      obtain ⟨rfl, rfl⟩ := inserted_unique hins hins'
      rw [hfile] at hinto'
      have hload' : resolve disk' ctx' stmt'.tableName = .ok (disk₁, .ok table) := by
        rw [hre.tableName]
        exact hload
      simp only [executeStatement, executeInsert_resolve, hload', ok_bind, hdir, hinto']
    · intro e he
      cases he

theorem users_insert_row :
    ∃ disk₁ table, resolve usersDisk (initExecutionContext (.lit "db")) kim.tableName =
        .ok (disk₁, .ok table) ∧
      ∃ disk'' ctx'' result row, executeStatement noFaults usersDisk
          (initExecutionContext (.lit "db")) (.insert kim) = .ok (disk'', ctx'', .ok result) ∧
        Admissible table.schema kim ∧ RowOf table.schema kim 1 row ∧
        disk'' = Function.update disk₁ (dataPath (.lit "db") kim.tableName)
          (some (file usersDisk (.lit "db") kim.tableName ++ encodeRow row)) ∧
        ∀ stmt', Rearranged kim stmt' →
          executeStatement noFaults usersDisk (initExecutionContext (.lit "db")) (.insert stmt') =
            .ok (disk'', ctx'', .ok result) := by
  have heval : (resolve usersDisk (initExecutionContext (.lit "db")) kim.tableName).map
      (fun r => r.2.map TableRuntime.nextId) = .ok (.ok 1) := by decide +kernel
  have hdone : (executeStatement noFaults usersDisk (initExecutionContext (.lit "db"))
      (.insert kim)).map (fun r => r.2.2.toBool) = .ok true := by decide +kernel
  cases hload : resolve usersDisk (initExecutionContext (.lit "db")) kim.tableName with
  | error f =>
    rw [hload] at heval
    cases heval
  | ok r =>
    obtain ⟨disk₁, found⟩ := r
    rw [hload] at heval
    cases found with
    | error e => cases heval
    | ok table =>
      have hone : table.nextId = 1 := by simpa [Except.map] using heval
      obtain ⟨disk'', ctx'', out, hexec, hiff, hrow, -⟩ := insert_builds_row_or_refuses usersDisk
        (.lit "db") [] kim rfl hload (fun _ => by rw [hone]; decide)
      rw [hexec] at hdone
      cases out with
      | error e => cases hdone
      | ok result =>
        obtain ⟨row, hbuilt, hdisk, hsame⟩ := hrow result rfl
        exact ⟨disk₁, table, rfl, disk'', ctx'', result, row, hexec, hiff.mp ⟨result, rfl⟩,
          hone ▸ hbuilt, hdisk, hsame⟩

end InsertRows
