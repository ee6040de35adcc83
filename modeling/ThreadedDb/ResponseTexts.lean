import ThreadedDb.ApiResponses
import ThreadedDb.JsonReadBack
import ThreadedDb.IdText
import ThreadedDb.Rfc8259

/-!
# What a client reads in a response

The texts of `make_success_json` and `make_error_json` are JSON documents. A client that decodes
one and looks its members up gets the data of the response back.
-/
namespace ResponseTexts

open ByteText
open SchemaModel
open StorageModel
open SqlFrontEnd
open RuntimeModel
open ExecutorModel
open TableCache
open DbApiModel
open ApiResponses
open JsonReadBack (UnicodeEscaped jsonEscapeByte_cases)
open Rfc8259 (Json Piece Chars Quoted Number Member Value Document decode)
open CheckedArray (ok_bind bind_eq_ok)

inductive Reported where
  | select (usedIndex : Bool) (rowCount : ℕ) (columns : List CString) (rows : List Row)
  | insert (affectedRows : ℕ) (generatedId : Option UInt64)
  | error (errorCode message : CString)
  deriving DecidableEq

def reported (result : ExecResult) : Reported :=
  match result.type with
  | .select => .select result.usedIndex result.queryResult.rows.length result.queryResult.columns
      result.queryResult.rows
  | .insert => .insert result.affectedRows result.generatedId

def textValue (s : CString) : Json := .string s.bytes

def rowValue (row : Row) : Json := .array (row.map textValue)

def responseValue : Reported → Json
  | .select usedIndex rowCount columns rows =>
    .object [(ascii "success", .bool true), (ascii "type", .string (ascii "select")),
      (ascii "used_index", .bool usedIndex), (ascii "row_count", .number rowCount),
      (ascii "columns", .array (columns.map textValue)),
      (ascii "rows", .array (rows.map rowValue))]
  | .insert affectedRows generatedId =>
    .object ([(ascii "success", .bool true), (ascii "type", .string (ascii "insert")),
      (ascii "affected_rows", .number affectedRows)] ++
      generatedId.toList.map (fun id => (ascii "generated_id", .number id.toNat)))
  | .error errorCode message =>
    .object [(ascii "success", .bool false), (ascii "error_code", textValue errorCode),
      (ascii "message", textValue message)]

def field (name : String) : Json → Option Json
  | .object members => members.lookup (ascii name)
  | _ => none

def asBool : Json → Option Bool
  | .bool value => some value
  | _ => none

def asNat : Json → Option ℕ
  | .number value => if value.den = 1 ∧ 0 ≤ value.num then some value.num.toNat else none
  | _ => none

def asText : Json → Option CString
  | .string text => if h : 0 ∉ text then some ⟨text, h⟩ else none
  | _ => none

def asList {α : Type} (item : Json → Option α) : Json → Option (List α)
  | .array items => items.mapM item
  | _ => none

def recover (document : Json) : Option Reported := do
  let success ← (field "success" document).bind asBool
  if success then do
    let type ← (field "type" document).bind asText
    if type = .lit "select" then do
      let usedIndex ← (field "used_index" document).bind asBool
      let rowCount ← (field "row_count" document).bind asNat
      let columns ← (field "columns" document).bind (asList asText)
      let rows ← (field "rows" document).bind (asList (asList asText))
      some (.select usedIndex rowCount columns rows)
    else do
      let affectedRows ← (field "affected_rows" document).bind asNat
      match field "generated_id" document with
      | none => some (.insert affectedRows none)
      | some id => do
        let id ← asNat id
        some (.insert affectedRows (some (UInt64.ofNat id)))
  else do
    let errorCode ← (field "error_code" document).bind asText
    let message ← (field "message" document).bind asText
    some (.error errorCode message)

theorem asText_textValue (s : CString) : asText (textValue s) = some s := by
  simp only [textValue, asText, dif_pos s.nulFree]

theorem asNat_number (n : ℕ) : asNat (.number n) = some n := by
  simp [asNat]

theorem mapM_back {α β : Type} {f : α → Json} {item : Json → Option β} {g : α → β}
    (h : ∀ a, item (f a) = some (g a)) (as : List α) :
    (as.map f).mapM item = some (as.map g) := by
  induction as with
  | nil => rfl
  | cons a as ih =>
    rw [List.map_cons, List.mapM_cons, h, ih]
    rfl

theorem asList_texts (ss : List CString) :
    asList asText (.array (ss.map textValue)) = some ss := by
  have htext : ∀ s, asText (textValue s) = some (id s) := asText_textValue
  have hback := mapM_back htext ss
  rwa [List.map_id] at hback

theorem asList_rows (rows : List Row) :
    asList (asList asText) (.array (rows.map rowValue)) = some rows := by
  have hrow : ∀ row, asList asText (rowValue row) = some (id row) := asList_texts
  have hback := mapM_back hrow rows
  rwa [List.map_id] at hback

theorem recover_select (usedIndex : Bool) (rowCount : ℕ) (columns : List CString)
    (rows : List Row) : recover (responseValue (.select usedIndex rowCount columns rows)) =
      some (.select usedIndex rowCount columns rows) := by
  set document := responseValue (.select usedIndex rowCount columns rows)
  have htext : asText (.string (ascii "select")) = some (.lit "select") := by decide
  have hsuccess : field "success" document = some (.bool true) := rfl
  have htype : field "type" document = some (.string (ascii "select")) := rfl
  have hused : field "used_index" document = some (.bool usedIndex) := rfl
  have hcount : field "row_count" document = some (.number rowCount) := rfl
  have hcolumns : field "columns" document = some (.array (columns.map textValue)) := rfl
  have hrows : field "rows" document = some (.array (rows.map rowValue)) := rfl
  simp only [recover, hsuccess, htype, hused, hcount, hcolumns, hrows, Option.bind_some, asBool,
    htext, asNat_number, asList_texts, asList_rows, if_true, Option.bind_eq_bind]

theorem recover_insert (affectedRows : ℕ) (generatedId : Option UInt64) :
    recover (responseValue (.insert affectedRows generatedId)) =
      some (.insert affectedRows generatedId) := by
  set document := responseValue (.insert affectedRows generatedId)
  have htext : asText (.string (ascii "insert")) = some (.lit "insert") := by decide
  have hother : CString.lit "insert" ≠ CString.lit "select" := by decide
  have hsuccess : field "success" document = some (.bool true) := rfl
  have htype : field "type" document = some (.string (ascii "insert")) := rfl
  have haffected : field "affected_rows" document = some (.number affectedRows) := rfl
  have hid : field "generated_id" document = generatedId.map (fun id => .number id.toNat) := by
    cases generatedId with
    | none => rfl
    | some id => rfl
  simp only [recover, hsuccess, htype, haffected, hid, Option.bind_some, asBool, htext,
    asNat_number, if_true, if_neg hother, Option.bind_eq_bind]
  cases generatedId with
  | none => rfl
  | some id =>
    simp only [Option.map_some, asNat_number, Option.bind_some, UInt64.ofNat_toNat]

theorem recover_error (errorCode message : CString) :
    recover (responseValue (.error errorCode message)) = some (.error errorCode message) := by
  set document := responseValue (.error errorCode message)
  have hsuccess : field "success" document = some (.bool false) := rfl
  have hcode : field "error_code" document = some (textValue errorCode) := rfl
  have hmessage : field "message" document = some (textValue message) := rfl
  simp only [recover, hsuccess, hcode, hmessage, Option.bind_some, asBool, asText_textValue,
    Bool.false_eq_true, if_false, Option.bind_eq_bind]

theorem recover_responseValue (data : Reported) : recover (responseValue data) = some data := by
  cases data with
  | select usedIndex rowCount columns rows => exact recover_select usedIndex rowCount columns rows
  | insert affectedRows generatedId => exact recover_insert affectedRows generatedId
  | error errorCode message => exact recover_error errorCode message

def writtenPiece (c : UInt8) : Piece := if UnicodeEscaped c then .unit c.toNat else .byte c

theorem unicodeEscaped_lt {c : UInt8} (h : UnicodeEscaped c) : c.toNat < 32 := h.1

theorem spell_written (b : Bytes) : Rfc8259.spell (b.map writtenPiece) = b := by
  induction b with
  | nil => rfl
  | cons c b ih =>
    rw [List.map_cons, writtenPiece]
    split
    · rename_i hc
      have hlt := unicodeEscaped_lt hc
      rw [Rfc8259.spell_unit (by omega), ih, UInt8.ofNat_toNat]
    · rw [Rfc8259.spell, ih]

theorem codeUnit_control (c : UInt8) (h : c < 32) :
    Rfc8259.codeUnit 48 48 (hexDigit (c.toNat / 16)) (hexDigit (c.toNat % 16)) = some c.toNat := by
  have hunits : ∀ n < 32,
      Rfc8259.codeUnit 48 48 (hexDigit (n / 16)) (hexDigit (n % 16)) = some n := by decide +kernel
  exact hunits c.toNat (UInt8.lt_iff_toNat_lt.mp h)

theorem escapes_known : ∀ p ∈ JsonGrammar.escapes, p ∈ Rfc8259.escapes := by
  simp [JsonGrammar.escapes, Rfc8259.escapes]

theorem chars_written (b : Bytes) :
    Chars (b.flatMap jsonEscapeByte) (b.map writtenPiece) := by
  induction b with
  | nil => exact .nil
  | cons c b ih =>
    rw [List.flatMap_cons, List.map_cons, writtenPiece]
    rcases jsonEscapeByte_cases c with ⟨hc, hcontrol, hquote, hslash, heq⟩ | ⟨hc, e, he, heq⟩ |
      ⟨hc, heq⟩
    · rw [heq, if_neg hc]
      exact .plain hcontrol hquote hslash ih
    · rw [heq, if_neg hc]
      exact .escape (escapes_known _ he) ih
    · rw [heq, if_pos hc]
      exact .unicode (codeUnit_control c hc.1) ih

theorem quoted_written (s : CString) : Quoted (jsonAppendEscapedString s) s.bytes := by
  have hquoted := Quoted.mk (chars_written s.bytes)
  rw [spell_written] at hquoted
  exact hquoted

theorem natural_digits {ds : List ℕ} (h : ∀ d ∈ ds, d < 10) :
    Rfc8259.natural (ds.map digit) = IdText.valueOf ds := by
  have hback : (ds.map digit).reverse.map (fun c => c.toNat - 48) = ds.reverse := by
    rw [← List.map_reverse, List.map_map]
    conv_rhs => rw [← List.map_id ds.reverse]
    apply List.map_congr_left
    intro d hd
    have hlt := h d (List.mem_reverse.mp hd)
    simp only [Function.comp, digit_toNat hlt, id]
    omega
  rw [Rfc8259.natural, hback, IdText.valueOf_eq_ofDigits]

theorem digitRun_digits {ds : List ℕ} (hne : ds ≠ []) (h : ∀ d ∈ ds, d < 10) :
    Rfc8259.DigitRun (ds.map digit) := by
  refine ⟨by simpa using hne, fun c hc => ?_⟩
  obtain ⟨d, hd, rfl⟩ := List.mem_map.mp hc
  have hvalue := digit_toNat (h d hd)
  have hlt := h d hd
  simp only [Rfc8259.isDigit, Bool.and_eq_true, decide_eq_true_eq, UInt8.le_iff_toNat_le, hvalue]
  exact ⟨by simp, by simp; omega⟩

theorem whole_decimal (n : ℕ) :
    Rfc8259.Whole (decimalBytes n) ∧ Rfc8259.natural (decimalBytes n) = n := by
  by_cases hn : n = 0
  · subst hn
    exact ⟨.zero, by decide⟩
  · obtain ⟨ds, hlt, hbytes, hvalue, d, rest, rfl, hd⟩ := IdText.decimalBytes_digits hn
    rw [hbytes]
    refine ⟨.digits ?_ (digitRun_digits (by simp) hlt), by rw [natural_digits hlt, hvalue]⟩
    rw [ne_eq, IdText.digit_zero_iff (hlt d List.mem_cons_self)]
    exact hd

theorem number_decimal (n : ℕ) : Number (decimalBytes n) n := by
  obtain ⟨hwhole, hvalue⟩ := whole_decimal n
  have hnumber := Number.mk .plus hwhole .absent .absent
  rw [List.append_nil, List.append_nil, List.nil_append, hvalue] at hnumber
  simpa using hnumber

section Nested

variable {d : ℕ}

theorem value_string (s : CString) : Value d (jsonAppendEscapedString s) (textValue s) :=
  Rfc8259.value_scalar (.string (quoted_written s)) d

theorem value_nat (n : ℕ) : Value d (decimalBytes n) (.number n) :=
  Rfc8259.value_scalar (.number (number_decimal n)) d

theorem value_bool (b : Bool) : Value d (appendBoolValue b) (.bool b) := by
  cases b with
  | true => exact Rfc8259.value_scalar .true d
  | false => exact Rfc8259.value_scalar .false d

theorem value_array {ts : List Bytes} {vs : List Json} (h : List.Forall₂ (Value d) ts vs) :
    Value (d + 1) (jsonArray ts) (.array vs) :=
  .inr (.inl ⟨vs, rfl, Rfc8259.bracketed_intercalate 91 93 h⟩)

theorem value_texts (ss : List CString) :
    Value (d + 1) (jsonArray (ss.map jsonAppendEscapedString)) (.array (ss.map textValue)) := by
  apply value_array
  rw [List.forall₂_map_left_iff, List.forall₂_map_right_iff, List.forall₂_same]
  exact fun s _ => value_string s

theorem value_rows (rows : List Row) :
    Value (d + 2) (jsonArray (rows.map (fun row => jsonArray (row.map jsonAppendEscapedString))))
      (.array (rows.map rowValue)) := by
  apply value_array
  rw [List.forall₂_map_left_iff, List.forall₂_map_right_iff, List.forall₂_same]
  exact fun row _ => value_texts row

end Nested

def memberText (name : String) (value : Bytes) : Bytes :=
  34 :: (ascii name ++ 34 :: 58 :: value)

def objectText (members : List Bytes) : Bytes :=
  123 :: (List.intercalate [44] members ++ [125])

def PlainName (name : String) : Prop := ∀ c ∈ ascii name, ¬ c < 32 ∧ c ≠ 34 ∧ c ≠ 92

def memberNames : List String :=
  ["success", "type", "used_index", "row_count", "columns", "rows", "affected_rows",
    "generated_id", "error_code", "message"]

theorem memberNames_plain : ∀ name ∈ memberNames, PlainName name := by
  have hall : memberNames.all (fun name =>
      (ascii name).all (fun c => 32 ≤ c && c ≠ 34 && c ≠ 92)) = true := by decide +kernel
  intro name hname c hc
  have hbyte := List.all_eq_true.mp (List.all_eq_true.mp hall name hname) c hc
  simp only [Bool.and_eq_true, decide_eq_true_eq] at hbyte
  exact ⟨UInt8.not_lt.mpr hbyte.1.1, hbyte.1.2, hbyte.2⟩

theorem member_written {d : ℕ} {name : String} {t : Bytes} {v : Json} (hname : name ∈ memberNames)
    (h : Value d t v) : Member (Value d) (memberText name t) (ascii name, v) := by
  have hmember := Member.mk (Rfc8259.quoted_plain (memberNames_plain name hname))
    Rfc8259.white_nil Rfc8259.white_nil h
  simpa [memberText] using hmember

theorem object_written {d : ℕ} {ts : List Bytes} {members : List (Bytes × Json)}
    (h : List.Forall₂ (Member (Value d)) ts members) :
    Document (objectText ts) (.object members) :=
  Rfc8259.document_value (d := d + 1)
    (.inr (.inr ⟨members, rfl, Rfc8259.bracketed_intercalate 123 125 h⟩))

def responseText : Reported → Bytes
  | .select usedIndex rowCount columns rows =>
    objectText [memberText "success" (appendBoolValue true),
      memberText "type" (jsonAppendEscapedString (.lit "select")),
      memberText "used_index" (appendBoolValue usedIndex),
      memberText "row_count" (appendSizeValue rowCount),
      memberText "columns" (jsonArray (columns.map jsonAppendEscapedString)),
      memberText "rows"
        (jsonArray (rows.map (fun row => jsonArray (row.map jsonAppendEscapedString))))]
  | .insert affectedRows generatedId =>
    objectText ([memberText "success" (appendBoolValue true),
      memberText "type" (jsonAppendEscapedString (.lit "insert")),
      memberText "affected_rows" (appendSizeValue affectedRows)] ++
      generatedId.toList.map (fun id => memberText "generated_id" (appendU64Value id)))
  | .error errorCode message =>
    objectText [memberText "success" (appendBoolValue false),
      memberText "error_code" (jsonAppendEscapedString errorCode),
      memberText "message" (jsonAppendEscapedString message)]

theorem response_document (data : Reported) :
    Document (responseText data) (responseValue data) := by
  cases data with
  | select usedIndex rowCount columns rows =>
    refine object_written (d := 2)
      (.cons ?_ (.cons ?_ (.cons ?_ (.cons ?_ (.cons ?_ (.cons ?_ .nil))))))
    · exact member_written (by simp [memberNames]) (value_bool true)
    · exact member_written (by simp [memberNames]) (value_string (.lit "select"))
    · exact member_written (by simp [memberNames]) (value_bool usedIndex)
    · exact member_written (by simp [memberNames]) (value_nat rowCount)
    · exact member_written (by simp [memberNames]) (value_texts columns)
    · exact member_written (by simp [memberNames]) (value_rows rows)
  | insert affectedRows generatedId =>
    refine object_written (d := 0) (.cons ?_ (.cons ?_ (.cons ?_ ?_)))
    · exact member_written (by simp [memberNames]) (value_bool true)
    · exact member_written (by simp [memberNames]) (value_string (.lit "insert"))
    · exact member_written (by simp [memberNames]) (value_nat affectedRows)
    · cases generatedId with
      | none => exact .nil
      | some id => exact .cons (member_written (by simp [memberNames]) (value_nat id.toNat)) .nil
  | error errorCode message =>
    refine object_written (d := 0) (.cons ?_ (.cons ?_ (.cons ?_ .nil)))
    · exact member_written (by simp [memberNames]) (value_bool false)
    · exact member_written (by simp [memberNames]) (value_string errorCode)
    · exact member_written (by simp [memberNames]) (value_string message)

theorem objectText_cons (m m' : Bytes) (ms : List Bytes) :
    objectText (m :: m' :: ms) = 123 :: (m ++ 44 :: (objectText (m' :: ms)).drop 1) := by
  simp [objectText, List.intercalate]

theorem objectText_singleton (m : Bytes) : objectText [m] = 123 :: (m ++ [125]) := by
  simp [objectText, List.intercalate]

theorem makeSuccessJson_text {result : ExecResult} (h : Tabular result) :
    makeSuccessJson result = .ok (responseText (reported result)) := by
  unfold makeSuccessJson reported
  cases htype : result.type with
  | select =>
    dsimp only
    rw [appendRowsJson, rowsJson_texts (h htype), ok_bind, ok_bind]
    simp only [responseText, objectText_cons, objectText_singleton, List.drop_one, List.tail_cons,
      memberText, List.append_assoc, List.cons_append]
    rfl
  | insert =>
    dsimp only
    cases result.generatedId with
    | none =>
      simp only [responseText, Option.toList_none, List.map_nil, List.append_nil, objectText_cons,
        objectText_singleton, List.drop_one, List.tail_cons, memberText, List.append_assoc,
        List.cons_append]
      rfl
    | some id =>
      simp only [responseText, Option.toList_some, List.map_cons, List.map_nil, List.cons_append,
        List.nil_append, objectText_cons, objectText_singleton, List.drop_one, List.tail_cons,
        memberText, List.append_assoc]
      rfl

theorem makeErrorJson_text (errorCode message : CString) :
    makeErrorJson errorCode message = responseText (.error errorCode message) := by
  simp only [makeErrorJson, responseText, objectText_cons, objectText_singleton, List.drop_one,
    List.tail_cons, memberText, List.append_assoc, List.cons_append]
  rfl

/-- The executor returns this result in some state, with whatever faults on the way. -/
def Produced (result : ExecResult) : Prop :=
  ∃ faults disk ctx stmt disk' ctx', executeStatement faults disk ctx stmt =
    .ok (disk', ctx', .ok result)

theorem insertWithGeneratedId_result {faults : InsertFaults} {disk disk' : Disk} {dbDir : CString}
    {table table' : TableRuntime} {stmt : InsertStatement} {result : ExecResult}
    (h : insertWithGeneratedId faults disk dbDir table stmt = .ok (disk', table', .ok result)) :
    result.type = .insert := by
  unfold insertWithGeneratedId at h
  split at h
  · cases h
  dsimp only at h
  split at h
  · cases h
  obtain ⟨built, -, h⟩ := bind_eq_ok.mp h
  cases built with
  | error e => cases h
  | ok row =>
    dsimp only at h
    split at h
    · cases h
    obtain ⟨⟨tree, status⟩, -, h⟩ := bind_eq_ok.mp h
    cases status with
    | error e => cases h
    | ok u =>
      cases h
      rfl

theorem insertExisting_result {faults : InsertFaults} {disk : Disk} {dbDir : CString}
    {table : TableRuntime} {stmt : InsertStatement} {result : ExecResult}
    (h : (insertExisting faults disk dbDir table stmt).2 = .ok result) : result.type = .insert := by
  unfold insertExisting at h
  split at h
  · cases h
  split at h
  · cases h
  · cases h
    rfl

theorem insertInto_result {faults : InsertFaults} {disk disk' : Disk} {dbDir : CString}
    {table table' : TableRuntime} {stmt : InsertStatement} {result : ExecResult}
    (h : insertInto faults disk dbDir table stmt = .ok (disk', table', .ok result)) :
    result.type = .insert := by
  unfold insertInto at h
  split at h
  · exact insertWithGeneratedId_result h
  · rw [Except.ok.injEq, Prod.mk.injEq, Prod.mk.injEq] at h
    exact insertExisting_result h.2.2

theorem produced_tabular {result : ExecResult} (h : Produced result) : Tabular result := by
  obtain ⟨faults, disk, ctx, stmt, disk', ctx', hrun⟩ := h
  cases stmt with
  | insert stmt =>
    intro htype
    rw [executeStatement, executeInsert_resolve] at hrun
    obtain ⟨⟨disk₁, found⟩, -, hrun⟩ := bind_eq_ok.mp hrun
    cases found with
    | error e => cases hrun
    | ok table =>
      obtain ⟨⟨disk₂, table', out⟩, hinto, hok⟩ := bind_eq_ok.mp hrun
      cases hok
      rw [insertInto_result hinto] at htype
      cases htype
  | select stmt =>
    intro _
    rw [executeStatement, executeSelect_resolve] at hrun
    obtain ⟨⟨disk₁, found⟩, -, hrun⟩ := bind_eq_ok.mp hrun
    cases found with
    | error e => cases hrun
    | ok table =>
      obtain ⟨out, hselect, hok⟩ := bind_eq_ok.mp hrun
      cases hok
      exact selectFrom_rectangular hselect

inductive Response : Bytes → Reported → Prop
  | success {result : ExecResult} {text : Bytes} : Tabular result →
      makeSuccessJson result = .ok text → Response text (reported result)
  | error (errorCode message : CString) :
      Response (makeErrorJson errorCode message) (.error errorCode message)

theorem response_text {text : Bytes} {data : Reported} (h : Response text data) :
    text = responseText data := by
  cases h with
  | success htabular hjson =>
    rw [makeSuccessJson_text htabular, Except.ok.injEq] at hjson
    exact hjson.symm
  | error errorCode message => exact makeErrorJson_text errorCode message

theorem response_recovered {text : Bytes} {data : Reported} (h : Response text data) :
    Document text (responseValue data) ∧ (decode text).bind recover = some data := by
  rw [response_text h]
  refine ⟨response_document data, ?_⟩
  rw [Rfc8259.decode_iff.mpr (response_document data), Option.bind_some]
  exact recover_responseValue data

/-- Every result of the executor is written. What is written is one JSON document, from which a
client gets the data back; so different data are never written as one text. -/
theorem responses_are_faithful_json :
    (∀ result, Produced result → Tabular result) ∧
    (∀ result, Tabular result → ∃ text, makeSuccessJson result = .ok text) ∧
    (∀ text data, Response text data →
      Document text (responseValue data) ∧ (decode text).bind recover = some data) ∧
    ∀ text data data', Response text data → Response text data' → data = data' := by
  refine ⟨fun result => produced_tabular, fun result h => ⟨_, makeSuccessJson_text h⟩,
    fun text data => response_recovered, ?_⟩
  intro text data data' h h'
  have hdata := (response_recovered h).2
  have hdata' := (response_recovered h').2
  exact Option.some.inj (hdata.symm.trans hdata')

end ResponseTexts
