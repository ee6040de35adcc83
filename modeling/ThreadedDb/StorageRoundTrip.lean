import ThreadedDb.StorageModel
import ThreadedDb.LineFraming

/-!
# What the data file holds

The loops over `read_line` see the lines of the file with their positions, and a scan that
reads every line is a fold over the decoded rows. An encoded row is one line. It decodes to the
row itself, except that a carriage return at the end of the last field is lost.
-/
namespace StorageRoundTrip

open ByteText
open SchemaModel
open StorageModel
open LineFraming
open CheckedArray (Checked ok_bind bind_eq_ok)

theorem readLines_lines (rounds o : ℕ) (b : Bytes) (h : b.length < rounds) :
    readLines rounds o b =
      (offsets o (lines 10 b)).map (fun p => (p.1, CString.ofBuffer (stripCr p.2))) := by
  induction rounds generalizing o b with
  | zero => omega
  | succ rounds ih =>
    by_cases hb : b = []
    · subst hb
      rfl
    · have hlen : (b.takeWhile (· ≠ 10)).length ≤ b.length := (List.takeWhile_prefix _).length_le
      have hpos : 0 < b.length := List.length_pos_iff.mpr hb
      rw [readLines, readLine, if_neg hb, lines_step hb, offsets, List.map_cons]
      simp only [List.length_drop]
      rw [ih _ _ (by simp only [List.length_drop]; omega)]
      by_cases hlast : (b.takeWhile (· ≠ 10)).length < b.length
      · congr 3
        omega
      · -- the whole stream was the last line
        have hnil : b.drop ((b.takeWhile (· ≠ 10)).length + 1) = [] :=
          List.drop_of_length_le (by omega)
        rw [hnil]
        rfl

theorem fileLines_lines (b : Bytes) : fileLines b =
    (offsets 0 (lines 10 b)).map (fun p => (p.1, CString.ofBuffer (stripCr p.2))) :=
  readLines_lines _ _ _ (Nat.lt_succ_self _)

def decodeLine (n : ℕ) (raw : Bytes) : Option Row := parseLineIntoRow (.ofBuffer (stripCr raw)) n

def decodeLines (n : ℕ) : List (ℕ × Bytes) → Option (List (ℕ × Row))
  | [] => some []
  | (o, raw) :: rest =>
    match decodeLine n raw, decodeLines n rest with
    | some row, some rows => some ((o, row) :: rows)
    | _, _ => none

def decodeFile (n : ℕ) (file : Bytes) : Option (List (ℕ × Row)) :=
  decodeLines n (offsets 0 (lines 10 file))

theorem decodeLines_cons {n o : ℕ} {raw : Bytes} {ls : List (ℕ × Bytes)}
    {rows : List (ℕ × Row)} :
    decodeLines n ((o, raw) :: ls) = some rows ↔ ∃ row rest, decodeLine n raw = some row ∧
      decodeLines n ls = some rest ∧ rows = (o, row) :: rest := by
  rw [decodeLines]
  cases decodeLine n raw with
  | none => simp
  | some row =>
    cases decodeLines n ls with
    | none => simp
    | some rest => simp [eq_comm]

theorem decodeLines_append {n : ℕ} {ls ms : List (ℕ × Bytes)} {rs : List (ℕ × Row)}
    (h : decodeLines n ls = some rs) :
    decodeLines n (ls ++ ms) = (decodeLines n ms).map (rs ++ ·) := by
  induction ls generalizing rs with
  | nil =>
    cases h
    simp
  | cons l ls ih =>
    obtain ⟨row, rest, hrow, hrest, rfl⟩ := decodeLines_cons.mp h
    rw [List.cons_append, decodeLines, hrow, ih hrest]
    cases decodeLines n ms with
    | none => rfl
    | some rs' => rfl

theorem decodeLines_length {n : ℕ} {ls : List (ℕ × Bytes)} {rows : List (ℕ × Row)}
    (h : decodeLines n ls = some rows) : rows.length = ls.length := by
  induction ls generalizing rows with
  | nil =>
    cases h
    rfl
  | cons l ls ih =>
    obtain ⟨row, rest, -, hrest, rfl⟩ := decodeLines_cons.mp h
    rw [List.length_cons, List.length_cons, ih hrest]

theorem mem_decodeLines {n : ℕ} {ls : List (ℕ × Bytes)} {rows : List (ℕ × Row)}
    (h : decodeLines n ls = some rows) {o : ℕ} {row : Row} (hmem : (o, row) ∈ rows) :
    ∃ raw, (o, raw) ∈ ls ∧ decodeLine n raw = some row := by
  induction ls generalizing rows with
  | nil =>
    cases h
    cases hmem
  | cons l ls ih =>
    obtain ⟨r, rest, hr, hrest, rfl⟩ := decodeLines_cons.mp h
    rcases List.mem_cons.mp hmem with heq | hmem
    · cases heq
      exact ⟨l.2, List.mem_cons_self, hr⟩
    · obtain ⟨raw, hin, hdec⟩ := ih hrest hmem
      exact ⟨raw, List.mem_cons_of_mem _ hin, hdec⟩

theorem normalize_length (fields : List CString) (n : ℕ) :
    (normalizeFieldCount fields n).length = n := by
  simp only [normalizeFieldCount, List.length_append, List.length_take, List.length_replicate]
  omega

theorem decodeLine_length {n : ℕ} {raw : Bytes} {row : Row} (h : decodeLine n raw = some row) :
    row.length = n := by
  unfold decodeLine parseLineIntoRow at h
  rw [Option.map_eq_some_iff] at h
  obtain ⟨fields, -, rfl⟩ := h
  exact normalize_length fields n

def foldRows {σ : Type} (tableName : CString) (callback : σ → Row → ℕ → Checked (Signal σ)) :
    List (ℕ × Row) → σ → Checked (Except EngineError σ)
  | [], state => .ok (.ok state)
  | (offset, row) :: rest, state => do
    let signal ← callback state row offset
    match signal with
    | .proceed state => foldRows tableName callback rest state
    | .stop state => .ok (.ok state)
    | .fail message =>
      if message.bytes = [] then
        .ok (.error (storageError (.lit "row scan callback failed for table " ++ quoted tableName)))
      else .ok (.error ⟨.storageError, message⟩)

theorem scanLines_decoded {σ : Type} (tableName : CString) {n : ℕ}
    (callback : σ → Row → ℕ → Checked (Signal σ)) {ls : List (ℕ × Bytes)}
    {rows : List (ℕ × Row)} (h : decodeLines n ls = some rows) (lineNumber : ℕ) (state : σ) :
    scanLines tableName n callback
        (ls.map (fun p => (p.1, CString.ofBuffer (stripCr p.2)))) lineNumber state =
      foldRows tableName callback rows state := by
  induction ls generalizing rows lineNumber state with
  | nil =>
    cases h
    rfl
  | cons l ls ih =>
    obtain ⟨row, rest, hrow, hrest, rfl⟩ := decodeLines_cons.mp h
    have hparse : parseLineIntoRow (CString.ofBuffer (stripCr l.2)) n = some row := hrow
    rw [List.map_cons, scanLines, hparse, foldRows]
    apply bind_congr
    intro signal
    cases signal with
    | proceed state => exact ih hrest _ _
    | stop state => rfl
    | fail message => rfl

theorem decoded_of_scanLines {σ : Type} {tableName : CString} {n : ℕ}
    {callback : σ → Row → ℕ → Checked (Signal σ)}
    (hrun : ∀ state row offset final, callback state row offset ≠ .ok (.stop final))
    {ls : List (ℕ × Bytes)} {lineNumber : ℕ} {state final : σ}
    (h : scanLines tableName n callback
      (ls.map (fun p => (p.1, CString.ofBuffer (stripCr p.2)))) lineNumber state =
        .ok (.ok final)) : ∃ rows, decodeLines n ls = some rows := by
  induction ls generalizing lineNumber state with
  | nil => exact ⟨[], rfl⟩
  | cons l ls ih =>
    rw [List.map_cons, scanLines] at h
    cases hrow : parseLineIntoRow (CString.ofBuffer (stripCr l.2)) n with
    | none =>
      rw [hrow] at h
      cases h
    | some row =>
      rw [hrow] at h
      obtain ⟨signal, hsig, h⟩ := bind_eq_ok.mp h
      cases signal with
      | stop last => exact absurd hsig (hrun _ _ _ _)
      | fail message =>
        dsimp only at h
        split at h <;> cases h
      | proceed state =>
        obtain ⟨rows, hrows⟩ := ih h
        exact ⟨_, decodeLines_cons.mpr ⟨row, rows, hrow, hrows, rfl⟩⟩

/-- A callback that keeps `P` and answers under it makes a scan that answers. -/
theorem scanLines_total {σ : Type} {callback : σ → Row → ℕ → Checked (Signal σ)} (P : σ → Prop)
    (hcall : ∀ state row offset, P state → ∃ signal, callback state row offset = .ok signal ∧
      ∀ state', signal = .proceed state' → P state')
    (tableName : CString) (n : ℕ) (ls : List (ℕ × CString)) (lineNumber : ℕ) {state : σ}
    (hstate : P state) : ∃ r, scanLines tableName n callback ls lineNumber state = .ok r := by
  induction ls generalizing lineNumber state with
  | nil => exact ⟨_, rfl⟩
  | cons l ls ih =>
    rw [scanLines]
    cases parseLineIntoRow l.2 n with
    | none => exact ⟨_, rfl⟩
    | some row =>
      obtain ⟨signal, hsignal, hkeep⟩ := hcall state row l.1 hstate
      simp only [hsignal, ok_bind]
      cases signal with
      | proceed state' => exact ih (lineNumber + 1) (hkeep state' rfl)
      | stop state' => exact ⟨_, rfl⟩
      | fail message =>
        dsimp only
        split
        · exact ⟨_, rfl⟩
        · exact ⟨_, rfl⟩

section Scan

variable {disk : Disk} {dbDir tableName : CString} {n : ℕ}

theorem scan_lines {σ : Type} (disk : Disk) (dbDir tableName : CString) (n : ℕ)
    (callback : σ → Row → ℕ → Checked (Signal σ)) (state : σ) :
    scanTableRowsWithOffsets disk dbDir tableName n callback state =
      scanLines tableName n callback
        ((offsets 0 (lines 10 ((disk (dataPath dbDir tableName)).getD []))).map
          (fun p => (p.1, CString.ofBuffer (stripCr p.2)))) 0 state := by
  unfold scanTableRowsWithOffsets
  cases hfile : disk (dataPath dbDir tableName) with
  | none => rfl
  | some file =>
    rw [Option.getD_some]
    exact congrArg (fun ls => scanLines tableName n callback ls 0 state) (fileLines_lines file)

theorem scan_decoded {σ : Type} (callback : σ → Row → ℕ → Checked (Signal σ)) (state : σ)
    {rows : List (ℕ × Row)}
    (h : decodeFile n ((disk (dataPath dbDir tableName)).getD []) = some rows) :
    scanTableRowsWithOffsets disk dbDir tableName n callback state =
      foldRows tableName callback rows state := by
  rw [scan_lines, scanLines_decoded tableName callback h]

theorem decoded_of_scan {σ : Type} {callback : σ → Row → ℕ → Checked (Signal σ)}
    (hrun : ∀ state row offset final, callback state row offset ≠ .ok (.stop final))
    {state final : σ}
    (h : scanTableRowsWithOffsets disk dbDir tableName n callback state = .ok (.ok final)) :
    ∃ rows, decodeFile n ((disk (dataPath dbDir tableName)).getD []) = some rows := by
  rw [scan_lines] at h
  exact decoded_of_scanLines hrun h

theorem scan_total (disk : Disk) (dbDir tableName : CString) (n : ℕ) {σ : Type}
    {callback : σ → Row → ℕ → Checked (Signal σ)} (P : σ → Prop)
    (hcall : ∀ state row offset, P state → ∃ signal, callback state row offset = .ok signal ∧
      ∀ state', signal = .proceed state' → P state') {state : σ} (hstate : P state) :
    ∃ r, scanTableRowsWithOffsets disk dbDir tableName n callback state = .ok r := by
  rw [scan_lines]
  exact scanLines_total P hcall _ _ _ _ hstate

end Scan

def recordRow (seen : List (ℕ × Row)) (row : Row) (rowOffset : ℕ) :
    Checked (Signal (List (ℕ × Row))) := .ok (.proceed (seen ++ [(rowOffset, row)]))

/-- The `(offset, row)` pairs that `scan_table_rows_with_offsets` delivers. -/
def deliveredRows (disk : Disk) (dbDir tableName : CString) (expectedColumnCount : ℕ) :
    Checked (Except EngineError (List (ℕ × Row))) :=
  scanTableRowsWithOffsets disk dbDir tableName expectedColumnCount recordRow []

theorem foldRows_record (tableName : CString) (rows seen : List (ℕ × Row)) :
    foldRows tableName recordRow rows seen = .ok (.ok (seen ++ rows)) := by
  induction rows generalizing seen with
  | nil => rw [foldRows, List.append_nil]
  | cons r rows ih =>
    rw [foldRows, recordRow, ok_bind]
    simpa using ih (seen ++ [r])

theorem deliveredRows_iff (disk : Disk) (dbDir tableName : CString) (n : ℕ)
    (rows : List (ℕ × Row)) :
    deliveredRows disk dbDir tableName n = .ok (.ok rows) ↔
      decodeFile n ((disk (dataPath dbDir tableName)).getD []) = some rows := by
  constructor
  · intro h
    obtain ⟨rows', hrows⟩ := decoded_of_scan (fun _ _ _ _ heq => by cases heq) h
    rw [deliveredRows, scan_decoded _ _ hrows, foldRows_record] at h
    cases h
    exact hrows
  · intro h
    rw [deliveredRows, scan_decoded _ _ h, foldRows_record]
    rfl

theorem escapeByte_plain {b : UInt8} (h₁ : b ≠ 92) (h₂ : b ≠ 124) (h₃ : b ≠ 10) :
    escapeByte b = [b] := by simp [escapeByte, h₁, h₂, h₃]

theorem notMem_escapeByte {c : UInt8} (hc : c ≠ 92 ∧ c ≠ 124 ∧ c ≠ 110) {b : UInt8}
    (hb : c = 10 ∨ b ≠ c) : c ∉ escapeByte b := by
  unfold escapeByte
  split
  · simp [hc.1]
  split
  · simp [hc.1, hc.2.1]
  split
  · simp [hc.1, hc.2.2]
  · rename_i h₁ h₂ h₃
    rw [List.mem_singleton]
    rcases hb with rfl | hb
    · exact Ne.symm h₃
    · exact Ne.symm hb

/-- An escaped field has neither a newline nor, as the field itself, a NUL. -/
theorem notMem_escapeField (v : CString) : 10 ∉ escapeField v ∧ 0 ∉ escapeField v := by
  constructor
  · intro h
    obtain ⟨b, -, hb⟩ := List.mem_flatMap.mp h
    exact notMem_escapeByte (by decide) (Or.inl rfl) hb
  · intro h
    obtain ⟨b, hmem, hb⟩ := List.mem_flatMap.mp h
    refine notMem_escapeByte (by decide) (Or.inr ?_) hb
    rintro rfl
    exact v.nulFree hmem

theorem notMem_encodeFields (row : Row) : 10 ∉ encodeFields row ∧ 0 ∉ encodeFields row := by
  induction row with
  | nil => simp [encodeFields]
  | cons v rest ih =>
    cases rest with
    | nil => exact notMem_escapeField v
    | cons w rest =>
      have hv := notMem_escapeField v
      simp only [encodeFields, List.mem_append, List.mem_cons, not_or]
      exact ⟨⟨hv.1, by decide, ih.1⟩, hv.2, by decide, ih.2⟩

theorem unescape_plain {b : UInt8} (hb : b ≠ 92) (rest : Bytes) :
    unescapeBytes (b :: rest) = (unescapeBytes rest).map (b :: ·) := by
  cases rest <;> simp [unescapeBytes, hb]

theorem unescape_escape (v : Bytes) : unescapeBytes (v.flatMap escapeByte) = some v := by
  induction v with
  | nil => rfl
  | cons b v ih =>
    rw [List.flatMap_cons]
    by_cases h₁ : b = 92
    · subst h₁
      simp [escapeByte, unescapeBytes, ih]
    by_cases h₂ : b = 124
    · subst h₂
      simp [escapeByte, unescapeBytes, ih]
    by_cases h₃ : b = 10
    · subst h₃
      simp [escapeByte, unescapeBytes, ih]
    · rw [escapeByte_plain h₁ h₂ h₃, List.singleton_append, unescape_plain h₁, ih]
      rfl

theorem unescapeField_escapeField (v : CString) : unescapeField (escapeField v) = some v := by
  rw [unescapeField, escapeField, unescape_escape, Option.map_some, CString.ofBuffer_bytes]

theorem splitFrom_escaped (v rest : Bytes) (fields : List CString) (current : Bytes) :
    splitFrom (v.flatMap escapeByte ++ rest) fields current false =
      splitFrom rest fields (current ++ v.flatMap escapeByte) false := by
  induction v generalizing current with
  | nil => simp
  | cons b v ih =>
    rw [List.flatMap_cons, List.append_assoc]
    by_cases h₁ : b = 92
    · subst h₁
      simp [escapeByte, splitFrom, ih]
    by_cases h₂ : b = 124
    · subst h₂
      simp [escapeByte, splitFrom, ih]
    by_cases h₃ : b = 10
    · subst h₃
      simp [escapeByte, splitFrom, ih]
    · rw [escapeByte_plain h₁ h₂ h₃, List.singleton_append, splitFrom, if_neg h₁, if_neg h₂, ih]
      simp

theorem splitFrom_encoded {row : Row} (hrow : row ≠ []) (fields : List CString) :
    splitFrom (encodeFields row) fields [] false = some (fields ++ row) := by
  induction row generalizing fields with
  | nil => exact absurd rfl hrow
  | cons v rest ih =>
    cases rest with
    | nil =>
      have := splitFrom_escaped v.bytes [] fields []
      rw [List.append_nil, List.nil_append] at this
      rw [encodeFields, escapeField, this, splitFrom, if_neg (by decide)]
      rw [← escapeField, unescapeField_escapeField, Option.map_some]
    | cons w rest =>
      rw [encodeFields, escapeField, splitFrom_escaped, List.nil_append, splitFrom,
        if_neg (by decide), if_pos rfl, ← escapeField, unescapeField_escapeField]
      simp only
      rw [ih (List.cons_ne_nil _ _)]
      simp
      · exact List.cons_ne_nil _ _

def dropCr (v : CString) : CString where
  bytes := stripCr v.bytes
  nulFree h := by
    unfold stripCr at h
    split at h
    · exact v.nulFree (List.dropLast_subset _ h)
    · exact v.nulFree h

/-- A row as it comes back from the file: the last field loses one carriage return. -/
def storedRow (row : Row) : Row :=
  match row.getLast? with
  | none => []
  | some v => row.dropLast ++ [dropCr v]

theorem storedRow_concat (init : Row) (v : CString) :
    storedRow (init ++ [v]) = init ++ [dropCr v] := by
  simp [storedRow]

theorem exists_concat {α : Type} {l : List α} (hl : l ≠ []) : ∃ init v, l = init ++ [v] :=
  ⟨l.dropLast, l.getLast hl, (List.dropLast_concat_getLast hl).symm⟩

theorem storedRow_length (row : Row) : (storedRow row).length = row.length := by
  by_cases hrow : row = []
  · subst hrow
    rfl
  · obtain ⟨init, v, rfl⟩ := exists_concat hrow
    simp [storedRow_concat]

theorem encodeFields_concat (init : Row) (v : CString) :
    encodeFields (init ++ [v]) =
      init.flatMap (fun w => escapeField w ++ [124]) ++ escapeField v := by
  induction init with
  | nil => rfl
  | cons w init ih =>
    rw [List.cons_append, List.flatMap_cons, List.append_assoc, List.append_assoc, ← ih]
    cases hrest : init ++ [v] with
    | nil => simp at hrest
    | cons x rest => rfl

theorem stripCr_append (pre : Bytes) {xs : Bytes} (hxs : xs ≠ []) :
    stripCr (pre ++ xs) = pre ++ stripCr xs := by
  unfold stripCr
  rw [List.getLast?_append_of_ne_nil _ hxs]
  split
  · rw [List.dropLast_append_of_ne_nil hxs]
  · rfl

theorem stripCr_other {xs : Bytes} (h : xs.getLast? ≠ some 13) : stripCr xs = xs := if_neg h

theorem stripCr_escapeField (v : CString) : stripCr (escapeField v) = escapeField (dropCr v) := by
  change stripCr (v.bytes.flatMap escapeByte) = (stripCr v.bytes).flatMap escapeByte
  by_cases hv : v.bytes = []
  · rw [hv]
    rfl
  · obtain ⟨bs, b, hbs⟩ := exists_concat hv
    rw [hbs, List.flatMap_append, List.flatMap_singleton]
    by_cases hb : b = 13
    · subst hb
      have hcr : escapeByte 13 = [13] := by decide
      rw [hcr]
      simp [stripCr]
    · have hlast : (escapeByte b).getLast? ≠ some 13 := by
        unfold escapeByte
        split
        · decide
        split
        · decide
        split
        · decide
        · simpa using hb
      have hne : escapeByte b ≠ [] := by
        unfold escapeByte
        split
        · decide
        split
        · decide
        split
        · decide
        · exact List.cons_ne_nil _ _
      rw [stripCr_append _ hne, stripCr_other hlast, stripCr_other (by simpa using hb)]
      rw [List.flatMap_append, List.flatMap_singleton]

theorem stripCr_encodeFields (row : Row) :
    stripCr (encodeFields row) = encodeFields (storedRow row) := by
  by_cases hrow : row = []
  · subst hrow
    rfl
  obtain ⟨init, v, rfl⟩ := exists_concat hrow
  rw [storedRow_concat, encodeFields_concat, encodeFields_concat]
  by_cases hv : escapeField v = []
  · -- an empty last field ends the line with a separator, or leaves it empty
    have hdrop : escapeField (dropCr v) = [] := by
      rw [← stripCr_escapeField, hv]
      rfl
    rw [hv, hdrop, List.append_nil]
    apply stripCr_other
    by_cases hinit : init = []
    · subst hinit
      simp
    · obtain ⟨pre, w, rfl⟩ := exists_concat hinit
      simp
  · rw [stripCr_append _ hv, stripCr_escapeField]

theorem normalize_exact {row : Row} {n : ℕ} (h : row.length = n) :
    normalizeFieldCount row n = row := by
  subst h
  simp [normalizeFieldCount]

theorem decodeLine_encodeFields {row : Row} {n : ℕ} (hrow : row ≠ []) (hn : row.length = n) :
    decodeLine n (encodeFields row) = some (storedRow row) := by
  have hne : storedRow row ≠ [] := by
    intro hnil
    have := storedRow_length row
    rw [hnil] at this
    exact hrow (List.length_eq_zero_iff.mp this.symm)
  have htext : (CString.ofBuffer (stripCr (encodeFields row))).bytes =
      encodeFields (storedRow row) := by
    rw [stripCr_encodeFields]
    exact congrArg CString.bytes
      (CString.ofBuffer_bytes ⟨encodeFields (storedRow row), (notMem_encodeFields _).2⟩)
  rw [decodeLine, parseLineIntoRow, splitEscapedRow, htext, splitFrom_encoded hne,
    List.nil_append, Option.map_some, normalize_exact ((storedRow_length row).trans hn)]

/-- Appending a row to a file that ends at a line end adds exactly that row. -/
theorem decodeFile_append {n : ℕ} {file : Bytes} {rows : List (ℕ × Row)} {row : Row}
    (hfile : Terminated 10 file) (hdec : decodeFile n file = some rows) (hrow : row ≠ [])
    (hn : row.length = n) :
    decodeFile n (file ++ encodeRow row) = some (rows ++ [(file.length, storedRow row)]) := by
  unfold decodeFile encodeRow at *
  rw [offsets_lines_append hfile, decodeLines_append hdec,
    lines_cons_line (notMem_encodeFields row).1]
  simp only [lines, offsets, decodeLines, decodeLine_encodeFields hrow hn, Option.map_some]

theorem decodeFile_continue {n : ℕ} {file : Bytes} {rows rows' : List (ℕ × Row)} {row : Row}
    (hfile : ¬ Terminated 10 file) (hdec : decodeFile n file = some rows)
    (hdec' : decodeFile n (file ++ encodeRow row) = some rows') : rows'.length = rows.length := by
  have hlen (ls : List Bytes) : (offsets 0 ls).length = ls.length := by
    rw [← List.length_map (f := Prod.snd), offsets_lines]
  rw [decodeLines_length hdec', decodeLines_length hdec, hlen, hlen]
  exact lines_continue hfile (notMem_encodeFields row).1

theorem terminated_encodeRow (file : Bytes) (row : Row) : Terminated 10 (file ++ encodeRow row) :=
  terminated_concat 10 file (encodeFields row)

theorem readRowAtOffset_decoded {disk : Disk} {dbDir tableName : CString} {n : ℕ} {file : Bytes}
    (hfile : disk (dataPath dbDir tableName) = some file) {rows : List (ℕ × Row)}
    (hdec : decodeFile n file = some rows) {o : ℕ} {row : Row} (hmem : (o, row) ∈ rows) :
    readRowAtOffset disk dbDir tableName o n = .ok row := by
  obtain ⟨raw, hraw, hrow⟩ := mem_decodeLines hdec hmem
  obtain ⟨hne, htake⟩ := line_at_offset hraw
  have hparse : parseLineIntoRow (CString.ofBuffer (stripCr raw)) n = some row := hrow
  simp only [readRowAtOffset, hfile, readLine, if_neg (not_lt.mpr (Int.natCast_nonneg o)),
    Int.toNat_natCast, if_neg hne, htake, hparse]

/-- `append_row_to_table` for each row in turn, up to the first failure. -/
def appendRows (disk : Disk) (dbDir tableName : CString) : List Row →
    Disk × Except EngineError Unit
  | [] => (disk, .ok ())
  | row :: rest =>
    match appendRowToTable none disk dbDir tableName row with
    | (disk, .error e) => (disk, .error e)
    | (disk, .ok _) => appendRows disk dbDir tableName rest

theorem appendRow_ok (disk : Disk) (dbDir tableName : CString) {row : Row} (hrow : row ≠ []) :
    ∃ disk', appendRowToTableWithOffset none disk dbDir tableName row =
        (disk', .ok ((disk (dataPath dbDir tableName)).getD []).length) ∧
      disk' = Function.update disk (dataPath dbDir tableName)
        (some ((disk (dataPath dbDir tableName)).getD [] ++ encodeRow row)) := by
  refine ⟨_, ?_, rfl⟩
  simp [appendRowToTableWithOffset, hrow, ensureTableDataFile]

theorem appendRows_decoded {n : ℕ} (hn : 1 ≤ n) (dbDir tableName : CString) {rows : List Row}
    (hrows : ∀ row ∈ rows, row.length = n) (disk : Disk) {seen : List (ℕ × Row)}
    (hterm : Terminated 10 ((disk (dataPath dbDir tableName)).getD []))
    (hseen : decodeFile n ((disk (dataPath dbDir tableName)).getD []) = some seen) :
    ∃ disk' added, appendRows disk dbDir tableName rows = (disk', .ok ()) ∧
      decodeFile n ((disk' (dataPath dbDir tableName)).getD []) = some (seen ++ added) ∧
      added.map Prod.snd = rows.map storedRow := by
  induction rows generalizing disk seen with
  | nil => exact ⟨disk, [], rfl, by simpa using hseen, rfl⟩
  | cons row rows ih =>
    have hlen := hrows row List.mem_cons_self
    have hrow : row ≠ [] := by
      rintro rfl
      simp at hlen
      omega
    obtain ⟨disk₁, happ, hdisk⟩ := appendRow_ok disk dbDir tableName hrow
    have hfile : (disk₁ (dataPath dbDir tableName)).getD [] =
        (disk (dataPath dbDir tableName)).getD [] ++ encodeRow row := by
      rw [hdisk, Function.update_self, Option.getD_some]
    have hdec := decodeFile_append hterm hseen hrow hlen
    rw [← hfile] at hdec
    obtain ⟨disk', added, hrun, hdec', hadded⟩ := ih
      (fun r hr => hrows r (List.mem_cons_of_mem _ hr)) disk₁
      (hfile ▸ terminated_encodeRow _ row) hdec
    refine ⟨disk', _ :: added, ?_, by simpa using hdec', ?_⟩
    · simp only [appendRows, appendRowToTable, happ, hrun]
    · rw [List.map_cons, List.map_cons, hadded]

theorem foldRows_readAll (tableName : CString) (rows : List (ℕ × Row)) (seen : List Row) :
    foldRows tableName readAllRowsCallback rows seen = .ok (.ok (seen ++ rows.map Prod.snd)) := by
  induction rows generalizing seen with
  | nil => rw [foldRows, List.map_nil, List.append_nil]
  | cons r rows ih =>
    rw [foldRows, readAllRowsCallback, ok_bind]
    simpa using ih (seen ++ [r.2])

/-- A row comes back as it went in exactly when its last field does not end in a carriage
return. -/
theorem storedRow_eq_iff (row : Row) :
    storedRow row = row ↔ ∀ v ∈ row.getLast?, v.bytes.getLast? ≠ some 13 := by
  by_cases hrow : row = []
  · subst hrow
    simp [storedRow]
  obtain ⟨init, v, rfl⟩ := exists_concat hrow
  rw [storedRow_concat, List.getLast?_concat]
  simp only [List.append_cancel_left_eq, List.cons.injEq, and_true, Option.mem_some_iff,
    forall_eq']
  constructor
  · intro heq hcr
    have hlen := congrArg (fun s : CString => s.bytes.length) heq
    have hne : v.bytes ≠ [] := by
      rintro hnil
      rw [hnil] at hcr
      cases hcr
    have hpos := List.length_pos_iff.mpr hne
    simp only [dropCr, stripCr, if_pos hcr, List.length_dropLast] at hlen
    omega
  · intro hcr
    exact CString.ext (stripCr_other hcr)

/-- Rows appended to an empty or missing data file are read back as they are, exactly when the
last field of none of them ends in a carriage return. -/
theorem rows_round_trip_iff {n : ℕ} (hn : 1 ≤ n) (disk : Disk) (dbDir tableName : CString)
    (hfile : (disk (dataPath dbDir tableName)).getD [] = []) {rows : List Row}
    (hrows : ∀ row ∈ rows, row.length = n) :
    ∃ disk', appendRows disk dbDir tableName rows = (disk', .ok ()) ∧
      (readAllRowsFromTable disk' dbDir tableName n = .ok (.ok rows) ↔
        ∀ row ∈ rows, ∀ v ∈ row.getLast?, v.bytes.getLast? ≠ some 13) := by
  obtain ⟨disk', added, hrun, hdec, hadded⟩ := @appendRows_decoded n hn dbDir tableName rows hrows
    disk [] (by rw [hfile]; exact Or.inl rfl) (by rw [hfile]; rfl)
  have hsame : rows.map storedRow = rows ↔ ∀ row ∈ rows, storedRow row = row := by
    simpa using List.map_inj_left (f := storedRow) (g := id) (l := rows)
  refine ⟨disk', hrun, ?_⟩
  rw [readAllRowsFromTable, scan_decoded _ _ hdec, foldRows_readAll, List.nil_append,
    List.nil_append, hadded, Except.ok.injEq, Except.ok.injEq, hsame]
  exact forall₂_congr (fun row _ => storedRow_eq_iff row)

theorem rows_round_trip_pipe_and_newline :
    ∃ disk', appendRows (fun _ => none) (.lit "db") (.lit "t")
        [[.lit "a|b", .lit "c"], [.lit "", .lit "d\ne"]] = (disk', .ok ()) ∧
      (readAllRowsFromTable disk' (.lit "db") (.lit "t") 2 =
          .ok (.ok [[.lit "a|b", .lit "c"], [.lit "", .lit "d\ne"]]) ↔
        ∀ row ∈ [[CString.lit "a|b", .lit "c"], [.lit "", .lit "d\ne"]],
          ∀ v ∈ row.getLast?, v.bytes.getLast? ≠ some 13) :=
  rows_round_trip_iff (by decide) (fun _ => none) (.lit "db") (.lit "t") rfl (by decide)

/-- The row `["a\r"]` comes back as `["a"]`. -/
theorem carriage_return_is_lost :
    ¬ ∃ disk', appendRows (fun _ => none) (.lit "db") (.lit "t") [[.lit "a\r"]] = (disk', .ok ()) ∧
      readAllRowsFromTable disk' (.lit "db") (.lit "t") 1 = .ok (.ok [[.lit "a\r"]]) := by
  rintro ⟨disk', hrun, hread⟩
  have hdisk : disk' = (appendRows (fun _ => none) (.lit "db") (.lit "t") [[.lit "a\r"]]).1 := by
    rw [hrun]
  rw [hdisk] at hread
  revert hread
  decide

end StorageRoundTrip
