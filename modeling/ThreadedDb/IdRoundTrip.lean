import ThreadedDb.IndexCoherence

/-!
# Ids written and read back

`parse_canonical_positive_uint64` with the 64-bit arithmetic of the machine, which never wraps
around, and the text that `build_insert_row_with_generated_id` prints: the numbers from 1 to
`UINT64_MAX` and the texts that are accepted determine each other.
-/
namespace IdRoundTrip

open ByteText
open SchemaModel
open StorageModel
open StorageRoundTrip
open LineFraming (takeWhile_line)
open SqlFrontEnd
open RuntimeModel
open ExecutorModel
open InsertSpec
open IndexCoherence
open IdText

/-- The loop of `parse_canonical_positive_uint64` on `uint64_t` values. -/
def parseDigitsWrapping : Bytes → UInt64 → Option UInt64
  | [], value => some value
  | b :: rest, value =>
    if b < 48 ∨ 57 < b then none
    else
      let digit : UInt64 := (b - 48).toUInt64
      if (UInt64.ofNat uint64Max - digit) / 10 < value then none
      else parseDigitsWrapping rest (value * 10 + digit)

def parseCanonicalWrapping (text : CString) : Option UInt64 :=
  match text.bytes with
  | [] => none
  | b :: rest =>
    if b = 48 then none
    else
      match parseDigitsWrapping (b :: rest) 0 with
      | none => none
      | some value => if value = 0 then none else some value

theorem digit_word {b : UInt8} (hlo : ¬ b < 48) (hhi : ¬ 57 < b) :
    (b - 48).toUInt64.toNat = b.toNat - 48 ∧ b.toNat - 48 < 10 := by
  have hhi' : b.toNat ≤ 57 := UInt8.le_iff_toNat_le.mp (UInt8.not_lt.mp hhi)
  rw [UInt8.toNat_toUInt64, UInt8.toNat_sub_of_le _ _ (UInt8.not_lt.mp hlo)]
  exact ⟨rfl, by omega⟩

theorem guard_word {digit value : UInt64} (hd : digit.toNat < 10) :
    (UInt64.ofNat uint64Max - digit) / 10 < value ↔
      (uint64Max - digit.toNat) / 10 < value.toNat := by
  have hmax : (UInt64.ofNat uint64Max).toNat = uint64Max := rfl
  have hle : digit ≤ UInt64.ofNat uint64Max := by
    rw [UInt64.le_iff_toNat_le, hmax]
    have : uint64Max = 2 ^ 64 - 1 := rfl
    omega
  rw [UInt64.lt_iff_toNat_lt, UInt64.toNat_div, UInt64.toNat_sub_of_le _ _ hle, hmax]
  rfl

theorem step_word {digit value : UInt64} (hd : digit.toNat < 10)
    (hroom : ¬ (uint64Max - digit.toNat) / 10 < value.toNat) :
    (value * 10 + digit).toNat = value.toNat * 10 + digit.toNat := by
  have hmax : uint64Max = 2 ^ 64 - 1 := rfl
  rw [UInt64.toNat_add, UInt64.toNat_mul]
  change (value.toNat * 10 % 2 ^ 64 + digit.toNat) % 2 ^ 64 = _
  omega

theorem parseDigits_wrapping (bs : Bytes) (value : UInt64) :
    parseDigitsWrapping bs value = (parseDigits bs value.toNat).map UInt64.ofNat := by
  induction bs generalizing value with
  | nil =>
    rw [parseDigitsWrapping, parseDigits, Option.map_some, UInt64.ofNat_toNat]
  | cons b bs ih =>
    rw [parseDigitsWrapping, parseDigits]
    by_cases hrange : b < 48 ∨ 57 < b
    · rw [if_pos hrange, if_pos hrange]
      rfl
    · rw [if_neg hrange, if_neg hrange]
      rw [not_or] at hrange
      obtain ⟨hdigit, hlt⟩ := digit_word hrange.1 hrange.2
      rw [← hdigit] at hlt ⊢
      dsimp only
      by_cases hroom : (uint64Max - (b - 48).toUInt64.toNat) / 10 < value.toNat
      · rw [if_pos ((guard_word hlt).mpr hroom), if_pos hroom]
        rfl
      · rw [if_neg fun h => hroom ((guard_word hlt).mp h), if_neg hroom, ih,
          step_word hlt hroom]

/-- The arithmetic of the machine gives what the arithmetic of numbers gives. -/
theorem parseCanonical_wrapping (text : CString) :
    parseCanonicalWrapping text = parseCanonicalPositiveUInt64 text := by
  unfold parseCanonicalWrapping parseCanonicalPositiveUInt64
  cases text.bytes with
  | nil => rfl
  | cons b rest =>
    dsimp only
    rw [parseDigits_wrapping, UInt64.toNat_zero]
    split
    · rfl
    cases hparse : parseDigits (b :: rest) 0 with
    | none => rfl
    | some value =>
      obtain ⟨-, -, -, -, hle⟩ := digits_of_parseDigits hparse (Nat.zero_le _)
      have hmax : uint64Max = 2 ^ 64 - 1 := rfl
      have hzero : UInt64.ofNat value = 0 ↔ value = 0 := by
        rw [← UInt64.toNat_inj, UInt64.toNat_ofNat', UInt64.toNat_zero]
        omega
      simp only [Option.map_some, hzero]

theorem accepted_iff (text : CString) (n : ℕ) :
    (∃ id, parseCanonicalPositiveUInt64 text = some id ∧ id.toNat = n) ↔
      1 ≤ n ∧ n ≤ 2 ^ 64 - 1 ∧ text = decimal n := by
  constructor
  · rintro ⟨id, hparse, rfl⟩
    obtain ⟨hid, htext⟩ := (parseCanonical_iff text id).mp hparse
    have hpos : id.toNat ≠ 0 := fun h => hid (UInt64.toNat_inj.mp h)
    have hlt : id.toNat < 2 ^ 64 := id.toNat_lt
    exact ⟨by omega, by omega, htext⟩
  · rintro ⟨hpos, hle, rfl⟩
    have hword : (UInt64.ofNat n).toNat = n := by
      rw [UInt64.toNat_ofNat']
      omega
    refine ⟨UInt64.ofNat n, (parseCanonical_iff _ _).mpr ⟨?_, by rw [hword]⟩, hword⟩
    intro h
    rw [h] at hword
    change 0 = n at hword
    omega

theorem refused_iff (text : CString) : parseCanonicalPositiveUInt64 text = none ↔
    ∀ n, 1 ≤ n → n ≤ 2 ^ 64 - 1 → text ≠ decimal n := by
  constructor
  · intro hnone n hpos hle htext
    obtain ⟨id, hid, -⟩ := (accepted_iff text n).mpr ⟨hpos, hle, htext⟩
    rw [hnone] at hid
    cases hid
  · intro h
    cases hparse : parseCanonicalPositiveUInt64 text with
    | none => rfl
    | some id =>
      obtain ⟨hpos, hle, htext⟩ := (accepted_iff text id.toNat).mp ⟨id, hparse, rfl⟩
      exact absurd htext (h _ hpos hle)

theorem decimal_fits (id : UInt64) : (decimal id.toNat).bytes.length < 32 :=
  (decimalBytes_length (id.toNat_lt.trans (by decide))).trans_lt (by decide)

/-- What `read_line` and `parse_line_into_row` make of the line of a row that was appended. -/
def readBack (n : ℕ) (row : Row) (rest : Bytes) : Option (Row × Bytes) :=
  match readLine (encodeRow row ++ rest) with
  | none => none
  | some (line, rest) => (parseLineIntoRow line n).map (fun stored => (stored, rest))

theorem readBack_stored {n : ℕ} {row : Row} (hrow : row ≠ []) (hn : row.length = n)
    (rest : Bytes) : readBack n row rest = some (storedRow row, rest) := by
  have htake : (encodeRow row ++ rest).takeWhile (· ≠ 10) = encodeFields row := by
    rw [encodeRow, List.append_assoc]
    exact takeWhile_line (notMem_encodeFields row).1 rest
  have hdrop : (encodeRow row ++ rest).drop ((encodeFields row).length + 1) = rest := by
    rw [encodeRow, List.drop_left' (by simp)]
  have hne : encodeRow row ++ rest ≠ [] := by simp [encodeRow]
  have hparse :
      parseLineIntoRow (.ofBuffer (stripCr (encodeFields row))) n = some (storedRow row) :=
    decodeLine_encodeFields hrow hn
  simp only [readBack, readLine, if_neg hne, htake, hdrop, hparse, Option.map_some]

theorem generated_id_reloads {table : TableRuntime} {stmt : InsertStatement} {id : UInt64}
    {row : Row} (hcolumn : table.idColumnIndex = schemaFindColumnIndex table.schema (.lit "id"))
    (hid : id ≠ 0) (h : buildInsertRowWithGeneratedId table stmt id = .ok (.ok row))
    (rest : Bytes) :
    ∃ i stored text, table.idColumnIndex = some i ∧
      readBack table.schema.columnCount row rest = some (stored, rest) ∧
      stored[i]? = some text ∧ parseStoredIdValue text = .ok id := by
  cases hindex : table.idColumnIndex with
  | none =>
    simp only [buildInsertRowWithGeneratedId, hindex] at h
    cases h
  | some i =>
    have hi := (findColumn_spec (hcolumn.symm.trans hindex)).1
    obtain ⟨hlen, hat⟩ := generatedRow_id hindex hi h
    have hparse := (parseCanonical_iff (decimal id.toNat) id).mpr ⟨hid, rfl⟩
    refine ⟨i, storedRow row, decimal id.toNat, rfl, readBack_stored (row_ne_nil hlen) hlen rest,
      storedRow_get hat (decimal_no_cr _), ?_⟩
    rw [parseStoredIdValue, hparse]

theorem no_row_without_id (faults : InsertFaults) (disk : Disk) (dbDir : CString)
    {table : TableRuntime} (stmt : InsertStatement) (hnext : table.nextId = 0) :
    ∃ e, insertWithGeneratedId faults disk dbDir table stmt = .ok (disk, table, .error e) := by
  unfold insertWithGeneratedId
  cases validateInsertColumnsForAutoId table stmt with
  | error e => exact ⟨e, rfl⟩
  | ok _ =>
    dsimp only
    rw [if_pos hnext]
    exact ⟨_, rfl⟩

/-- Ids as numbers and ids as text: a text is accepted with the value `n` exactly when it is the
decimal text of `n` and `n` lies between 1 and `UINT64_MAX`, no value wraps around on the way,
a text that is no such number has no id, and an id that an INSERT prints is read back. -/
theorem id_texts_and_ids_correspond :
    (∀ text, parseCanonicalWrapping text = parseCanonicalPositiveUInt64 text) ∧
    (∀ text n, (∃ id, parseCanonicalPositiveUInt64 text = some id ∧ id.toNat = n) ↔
      1 ≤ n ∧ n ≤ 2 ^ 64 - 1 ∧ text = decimal n) ∧
    (∀ text text' id, parseCanonicalPositiveUInt64 text = some id →
      parseCanonicalPositiveUInt64 text' = some id → text = text') ∧
    (∀ literal : LiteralValue, tryParseIndexableIdLiteral literal = none ↔
      ∀ n, 1 ≤ n → n ≤ 2 ^ 64 - 1 → literal.text ≠ decimal n) ∧
    (∀ id : UInt64, (decimal id.toNat).bytes.length < 32) ∧
    (∀ (table : TableRuntime) (stmt : InsertStatement) (id : UInt64) (row : Row) (rest : Bytes),
      table.idColumnIndex = schemaFindColumnIndex table.schema (.lit "id") → id ≠ 0 →
      buildInsertRowWithGeneratedId table stmt id = .ok (.ok row) →
      ∃ i stored text, table.idColumnIndex = some i ∧
        readBack table.schema.columnCount row rest = some (stored, rest) ∧
        stored[i]? = some text ∧ parseStoredIdValue text = .ok id) ∧
    (∀ (faults : InsertFaults) (disk : Disk) (dbDir : CString) (table : TableRuntime)
      (stmt : InsertStatement), table.nextId = 0 →
      ∃ e, insertWithGeneratedId faults disk dbDir table stmt = .ok (disk, table, .error e)) := by
  refine ⟨parseCanonical_wrapping, accepted_iff, ?_, ?_, decimal_fits, ?_, ?_⟩
  · intro text text' id h h'
    rw [((parseCanonical_iff text id).mp h).2, ((parseCanonical_iff text' id).mp h').2]
  · intro literal
    exact refused_iff literal.text
  · intro table stmt id row rest hcolumn hid h
    exact generated_id_reloads hcolumn hid h rest
  · intro faults disk dbDir table stmt hnext
    exact no_row_without_id faults disk dbDir stmt hnext

def sevenNext : TableRuntime :=
  ⟨.lit "users", ⟨.lit "users", [.lit "id", .lit "name"], by decide, by decide⟩, some 0, true, 7,
    BPTreeHeap.bptreeInit⟩

/-- The largest id is accepted, the next number is not, and the id 7 comes back. -/
theorem largest_id_and_reload :
    (∃ id, parseCanonicalPositiveUInt64 (decimal (2 ^ 64 - 1)) = some id ∧
      id.toNat = 2 ^ 64 - 1) ∧
    parseCanonicalPositiveUInt64 (.lit "18446744073709551616") = none ∧
    ∃ row stored text, buildInsertRowWithGeneratedId sevenNext kim 7 = .ok (.ok row) ∧
      readBack 2 row [] = some (stored, []) ∧ stored[0]? = some text ∧
      parseStoredIdValue text = .ok 7 := by
  obtain ⟨hwords, haccepted, -, -, -, hreload, -⟩ := id_texts_and_ids_correspond
  refine ⟨(haccepted _ _).mpr ⟨by decide, le_rfl, rfl⟩, ?_, ?_⟩
  · rw [← hwords]
    decide
  · have hbuilt : buildInsertRowWithGeneratedId sevenNext kim 7 =
        .ok (.ok [decimal 7, .lit "kim"]) := by rfl
    obtain ⟨i, stored, text, hi, hread, hat, hparse⟩ :=
      hreload sevenNext kim 7 _ [] (by decide) (by decide) hbuilt
    cases hi
    exact ⟨_, stored, text, hbuilt, hread, hat, hparse⟩

end IdRoundTrip
