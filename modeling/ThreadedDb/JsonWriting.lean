import ThreadedDb.GrowableText
import ThreadedDb.DbApiModel

/-!
# The JSON writer in memory

`json_writer.c` as it computes: a buffer that doubles, `memcpy` and single stores behind the text,
and the chains of appends with which `db_api.c` and `http.c` make their responses. The texts of
`DbApiModel` are what these chains leave in the buffer, whatever the allocator does on the way.
-/
namespace JsonWriting

open ByteText
open GrowableText
open ExecutorModel
open StorageModel (Row)
open CheckedArray (Checked ok_bind bind_eq_ok)

def sizeRange : ℕ := 2 ^ 64

structure JsonBuffer where
  data : Option (Block UInt8)
  len : ℕ
  cap : ℕ
  deriving DecidableEq

/-- `while (required_len + 1U > new_cap)`: a capacity that has wrapped to 0 never ends the loop, and
there are no more rounds than a `size_t` has bits before that. -/
def doubleUntil (required : ℕ) : ℕ → ℕ → Checked ℕ
  | 0, _ => .error .unbounded
  | rounds + 1, newCap =>
    if newCap < required then doubleUntil required rounds (newCap * 2 % sizeRange) else .ok newCap

def growBlock (a : Allocator) (data : Option (Block UInt8)) (size : ℕ) :
    Allocator × Option (Block UInt8) :=
  match data with
  | none => malloc a size
  | some block => realloc a block size

def jsonEnsureCapacity (requiredLen : ℕ) : Program JsonBuffer := fun a buf =>
  let required := (requiredLen + 1) % sizeRange
  if required ≤ buf.cap then .ok (true, a, buf)
  else do
    let newCap ← doubleUntil required 65 (if buf.cap = 0 then 256 else buf.cap)
    match growBlock a buf.data newCap with
    | (a, none) => .ok (false, a, buf)
    | (a, some grown) => .ok (true, a, { buf with data := some grown, cap := newCap })

def JsonBuffer.put (buf : JsonBuffer) (i : ℕ) (bytes : Bytes) : Checked JsonBuffer :=
  match buf.data with
  | none => .error .badPointer
  | some block => do
    let block ← copyIn block i bytes
    .ok { buf with data := some block }

def jsonAppend (text : CString) : Program JsonBuffer := fun a buf => do
  let textLen := text.bytes.length
  let (ok, a, buf) ← jsonEnsureCapacity ((buf.len + textLen) % sizeRange) a buf
  if ok then do
    let buf ← buf.put buf.len (text.bytes ++ [0])
    .ok (true, a, { buf with len := (buf.len + textLen) % sizeRange })
  else .ok (false, a, buf)

def jsonAppendChar (ch : UInt8) : Program JsonBuffer := fun a buf => do
  let (ok, a, buf) ← jsonEnsureCapacity ((buf.len + 1) % sizeRange) a buf
  if ok then do
    let buf ← buf.put buf.len [ch]
    let len := (buf.len + 1) % sizeRange
    let buf ← buf.put len [0]
    .ok (true, a, { buf with len := len })
  else .ok (false, a, buf)

def jsonBufferInit (a : Allocator) : Checked (Allocator × Option JsonBuffer) :=
  match malloc a 256 with
  | (a, none) => .ok (a, none)
  | (a, some data) => do
    let data ← store data 0 0
    .ok (a, some ⟨some data, 0, 256⟩)

def jsonBufferFree (a : Allocator) (buf : JsonBuffer) : Allocator × JsonBuffer :=
  (free a buf.data, ⟨none, 0, 0⟩)

def jsonBufferTake (buf : JsonBuffer) : Option (Block UInt8) × JsonBuffer :=
  (buf.data, ⟨none, 0, 0⟩)

def controlEscape (ch : UInt8) : CString :=
  .lit "\\u00" ++
    .ofBuffer [DbApiModel.hexDigit (ch.toNat / 16), DbApiModel.hexDigit (ch.toNat % 16)]

def appendEscapedByte (ch : UInt8) : Program JsonBuffer :=
  if ch = 34 then jsonAppend (.lit "\\\"")
  else if ch = 92 then jsonAppend (.lit "\\\\")
  else if ch = 10 then jsonAppend (.lit "\\n")
  else if ch = 13 then jsonAppend (.lit "\\r")
  else if ch = 9 then jsonAppend (.lit "\\t")
  else if ch < 32 then jsonAppend (controlEscape ch)
  else jsonAppendChar ch

def jsonAppendEscapedString (text : CString) : Program JsonBuffer :=
  ((jsonAppendChar 34).andThen (.each appendEscapedByte text.bytes)).andThen (jsonAppendChar 34)

def appendSizeValue (value : ℕ) : Program JsonBuffer := jsonAppend (decimal value)
def appendU64Value (value : UInt64) : Program JsonBuffer := jsonAppend (decimal value.toNat)
def appendBoolValue (value : Bool) : Program JsonBuffer :=
  jsonAppend (if value then .lit "true" else .lit "false")

def appendArray (count : ℕ) (item : ℕ → Program JsonBuffer) : Program JsonBuffer :=
  ((jsonAppendChar 91).andThen
    (.each (fun i => (if 0 < i then jsonAppendChar 44 else .skip).andThen (item i))
      (List.range count))).andThen (jsonAppendChar 93)

def appendTextAt (texts : List CString) (i : ℕ) : Program JsonBuffer :=
  match texts[i]? with
  | none => fun _ _ => .error .outOfBounds
  | some text => jsonAppendEscapedString text

def appendColumnsJson (result : QueryResult) : Program JsonBuffer :=
  appendArray result.columns.length (appendTextAt result.columns)

def appendRowAt (result : QueryResult) (i : ℕ) : Program JsonBuffer :=
  match result.rows[i]? with
  | none => fun _ _ => .error .outOfBounds
  | some row => appendArray result.columns.length (appendTextAt row)

def appendRowsJson (result : QueryResult) : Program JsonBuffer :=
  appendArray result.rows.length (appendRowAt result)

def chain (programs : List (Program JsonBuffer)) : Program JsonBuffer := .each id programs

def appendSelect (result : ExecResult) : Program JsonBuffer :=
  chain
    [jsonAppend (.lit "\x7b\"success\":true,\"type\":\"select\",\"used_index\":"),
      appendBoolValue result.usedIndex,
      jsonAppend (.lit ",\"row_count\":"),
      appendSizeValue result.queryResult.rows.length,
      jsonAppend (.lit ",\"columns\":"),
      appendColumnsJson result.queryResult,
      jsonAppend (.lit ",\"rows\":"),
      appendRowsJson result.queryResult,
      jsonAppendChar 125]

def appendGeneratedId : Option UInt64 → Program JsonBuffer
  | some id => chain [jsonAppend (.lit ",\"generated_id\":"), appendU64Value id]
  | none => .skip

def appendInsert (result : ExecResult) : Program JsonBuffer :=
  chain
    [jsonAppend (.lit "\x7b\"success\":true,\"type\":\"insert\",\"affected_rows\":"),
      appendSizeValue result.affectedRows,
      appendGeneratedId result.generatedId,
      jsonAppendChar 125]

def appendError (errorCode message : CString) : Program JsonBuffer :=
  chain
    [jsonAppend (.lit "\x7b\"success\":false,\"error_code\":"),
      jsonAppendEscapedString errorCode,
      jsonAppend (.lit ",\"message\":"),
      jsonAppendEscapedString message,
      jsonAppendChar 125]

/-- A new buffer, the appends, and the text taken out; nothing where something fails. -/
def makeJson (a : Allocator) (append : Program JsonBuffer) :
    Checked (Allocator × Option (Block UInt8)) := do
  match ← jsonBufferInit a with
  | (a, none) => .ok (a, none)
  | (a, some buf) => do
    let (ok, a, buf) ← append a buf
    if ok then
      let (json, buf) := jsonBufferTake buf
      let (a, _) := jsonBufferFree a buf
      .ok (a, json)
    else
      let (a, _) := jsonBufferFree a buf
      .ok (a, none)

def makeSuccessJson (a : Allocator) (result : ExecResult) :
    Checked (Allocator × Option (Block UInt8)) :=
  match result.type with
  | .select => makeJson a (appendSelect result)
  | .insert => makeJson a (appendInsert result)

def makeErrorJson (a : Allocator) (errorCode message : CString) :
    Checked (Allocator × Option (Block UInt8)) :=
  makeJson a (appendError errorCode message)

def textLimit : ℕ := 2 ^ 63 - 1

theorem doubleUntil_reaches {required c rounds : ℕ} (hc : 0 < c) (hrequired : required ≤ 2 ^ 63)
    (hrounds : required ≤ c * 2 ^ rounds) :
    ∃ newCap, doubleUntil required (rounds + 1) c = .ok newCap ∧ required ≤ newCap ∧
      c ≤ newCap ∧ (newCap = c ∨ newCap < 2 * required) := by
  induction rounds generalizing c with
  | zero =>
    rw [pow_zero, mul_one] at hrounds
    refine ⟨c, ?_, hrounds, le_rfl, Or.inl rfl⟩
    rw [doubleUntil, if_neg (by omega)]
  | succ rounds ih =>
    by_cases hlt : c < required
    · have hwrap : c * 2 % sizeRange = c * 2 := Nat.mod_eq_of_lt (by unfold sizeRange; omega)
      obtain ⟨newCap, hrun, hreach, hle, hbound⟩ := @ih (c * 2) (by omega)
        (by rw [pow_succ] at hrounds; linarith)
      refine ⟨newCap, ?_, hreach, by omega, Or.inr ?_⟩
      · rw [doubleUntil, if_pos hlt, hwrap, hrun]
      · rcases hbound with rfl | hbound <;> omega
    · refine ⟨c, ?_, by omega, le_rfl, Or.inl rfl⟩
      rw [doubleUntil, if_neg hlt]

/-- The buffer holds the text and has room for `room` bytes, the NUL among them. -/
structure Fits (buf : JsonBuffer) (text : Bytes) (room : ℕ) : Prop where
  clean : 0 ∉ text
  len : buf.len = text.length
  block : ∃ block, buf.data = some block ∧ block.length = buf.cap ∧ Starts block (text ++ [0])
  roomy : room ≤ buf.cap
  tight : buf.cap = 256 ∨ buf.cap < 2 * room

def keeping : Keeping JsonBuffer where
  Holds buf text := Fits buf text (text.length + 1)
  blocks buf := if buf.data.isSome then 1 else 0

theorem fits_blocks {buf : JsonBuffer} {text : Bytes} {room : ℕ} (h : Fits buf text room) :
    keeping.blocks buf = 1 := by
  obtain ⟨block, hdata, -, -⟩ := h.block
  simp [keeping, hdata]

/-- `json_ensure_capacity` makes the room, or changes nothing and its one request was refused. -/
theorem ensureCapacity_fits (a : Allocator) {buf : JsonBuffer} {text : Bytes}
    (h : Fits buf text (text.length + 1)) {extra : ℕ} (hlimit : text.length + extra ≤ textLimit) :
    ∃ n ok buf', jsonEnsureCapacity ((buf.len + extra) % sizeRange) a buf =
        .ok (ok, ⟨a.plan.drop n, a.live⟩, buf') ∧
      (ok = true ↔ Granted a.plan n) ∧ keeping.blocks buf' = 1 ∧
      (ok = true → Fits buf' text (text.length + extra + 1)) := by
  obtain ⟨block, hdata, hlength, hstarts⟩ := h.block
  have hcap := starts_length hstarts
  rw [List.length_append, List.length_singleton, hlength] at hcap
  unfold textLimit at hlimit
  have hsum : (buf.len + extra) % sizeRange = text.length + extra := by
    rw [h.len, Nat.mod_eq_of_lt (by unfold sizeRange; omega)]
  have hrequired : (text.length + extra + 1) % sizeRange = text.length + extra + 1 :=
    Nat.mod_eq_of_lt (by unfold sizeRange; omega)
  rw [hsum]
  simp only [jsonEnsureCapacity, hrequired]
  by_cases hroom : text.length + extra + 1 ≤ buf.cap
  · refine ⟨0, true, buf, ?_, by simp [granted_zero], fits_blocks h, fun _ => ?_⟩
    · rw [if_pos hroom, List.drop_zero]
    · exact ⟨h.clean, h.len, h.block, hroom, h.tight.imp_right (by omega)⟩
  · have hpos : buf.cap ≠ 0 := by omega
    obtain ⟨newCap, hdouble, hreach, hle, hbound⟩ :=
      @doubleUntil_reaches (text.length + extra + 1) buf.cap 64 (by omega) (by omega) (by omega)
    rw [if_neg hroom, if_neg hpos, hdouble, ok_bind, hdata]
    cases hplan : a.plan.headD true with
    | false =>
      refine ⟨1, false, buf, ?_, ?_, fits_blocks h, fun h => by cases h⟩
      · simp only [growBlock, realloc_refused hplan]
      · rw [granted_one, hplan]
    | true =>
      obtain ⟨hsize, hstarts'⟩ := @resize_starts _ block _ hstarts newCap (by omega)
      have htight : newCap < 2 * (text.length + extra + 1) := by
        rcases hbound with rfl | hbound <;> omega
      refine ⟨1, true, { buf with data := some (resize block newCap), cap := newCap }, ?_, ?_,
        rfl, fun _ => ?_⟩
      · simp only [growBlock, realloc_granted hplan]
      · rw [granted_one, hplan]
      · exact ⟨h.clean, h.len, ⟨_, rfl, hsize, hstarts'⟩, hreach, Or.inr htight⟩

theorem put_fits {buf : JsonBuffer} {block : Block UInt8} {text new : Bytes}
    (hdata : buf.data = some block) (hstarts : Starts block text) (hroom : text.length + new.length ≤ block.length) :
    ∃ block', buf.put text.length new = .ok { buf with data := some block' } ∧
      block'.length = block.length ∧ Starts block' (text ++ new) := by
  obtain ⟨block', hcopy, hlen, hstarts'⟩ := copyIn_starts hstarts new hroom
  refine ⟨block', ?_, hlen, hstarts'⟩
  simp only [JsonBuffer.put, hdata, hcopy, ok_bind]

theorem live_unchanged (a : Allocator) {buf buf' : JsonBuffer} (h : keeping.blocks buf = 1)
    (h' : keeping.blocks buf' = 1) :
    a.live + keeping.blocks buf' - keeping.blocks buf = a.live := by
  rw [h, h']
  ring

theorem fits_put {buf : JsonBuffer} {block : Block UInt8} {text new : Bytes}
    (hclean : 0 ∉ text ++ new) (hlength : block.length = buf.cap) (hstarts : Starts block (text ++ new ++ [0]))
    (htight : buf.cap = 256 ∨ buf.cap < 2 * (text.length + new.length + 1)) :
    Fits { buf with data := some block, len := text.length + new.length } (text ++ new)
      ((text ++ new).length + 1) := by
  have hroom := starts_length hstarts
  rw [List.length_append, List.length_singleton, hlength] at hroom
  rw [← List.length_append] at htight
  exact ⟨hclean, List.length_append.symm, ⟨block, rfl, hlength, hstarts⟩, hroom, htight⟩

theorem writes_append (text : CString) : Writes keeping textLimit (jsonAppend text) text.bytes := by
  intro a buf written hs hlen
  obtain ⟨n, ok, buf₁, hrun, hok, hblocks, hfits⟩ := ensureCapacity_fits a hs hlen
  cases ok with
  | false =>
    refine ⟨n, false, buf₁, ?_, hok, fun h => by cases h⟩
    rw [live_unchanged a (fits_blocks hs) hblocks]
    simp only [jsonAppend, hrun, ok_bind, Bool.false_eq_true, if_false]
  | true =>
    have h := hfits rfl
    obtain ⟨block, hdata, hlength, hstarts⟩ := h.block
    have hroom := h.roomy
    obtain ⟨block', hput, hlength', hstarts'⟩ := @put_fits buf₁ block written (text.bytes ++ [0])
      hdata (starts_of_append hstarts) (by
        rw [List.length_append, List.length_singleton]
        omega)
    rw [← List.append_assoc] at hstarts'
    have hclean : 0 ∉ written ++ text.bytes := by
      rw [List.mem_append]
      exact not_or.mpr ⟨h.clean, text.nulFree⟩
    have hfinal := @fits_put buf₁ block' written text.bytes hclean (hlength'.trans hlength)
      hstarts' h.tight
    refine ⟨n, true, _, ?_, hok, fun _ => hfinal⟩
    rw [live_unchanged a (fits_blocks hs) (fits_blocks hfinal)]
    unfold textLimit at hlen
    have hsum : (written.length + text.bytes.length) % sizeRange =
        written.length + text.bytes.length := Nat.mod_eq_of_lt (by unfold sizeRange; omega)
    simp only [jsonAppend, hrun, ok_bind, if_true, h.len, hput, hsum]

theorem writes_appendChar {ch : UInt8} (hch : ch ≠ 0) :
    Writes keeping textLimit (jsonAppendChar ch) [ch] := by
  intro a buf written hs hlen
  rw [List.length_singleton] at hlen
  obtain ⟨n, ok, buf₁, hrun, hok, hblocks, hfits⟩ := ensureCapacity_fits a hs hlen
  cases ok with
  | false =>
    refine ⟨n, false, buf₁, ?_, hok, fun h => by cases h⟩
    rw [live_unchanged a (fits_blocks hs) hblocks]
    simp only [jsonAppendChar, hrun, ok_bind, Bool.false_eq_true, if_false]
  | true =>
    have h := hfits rfl
    obtain ⟨block, hdata, hlength, hstarts⟩ := h.block
    have hroom := h.roomy
    -- the character, then the NUL behind it
    obtain ⟨block₁, hput, hlength₁, hstarts₁⟩ := @put_fits buf₁ block written [ch]
      hdata (starts_of_append hstarts) (by
        rw [List.length_singleton]
        omega)
    obtain ⟨block₂, hput₂, hlength₂, hstarts₂⟩ := @put_fits
      { buf₁ with data := some block₁ } block₁ (written ++ [ch]) [0] rfl hstarts₁ (by
        rw [List.length_append, List.length_singleton, List.length_singleton]
        omega)
    have hclean : 0 ∉ written ++ [ch] := by
      rw [List.mem_append, List.mem_singleton]
      exact not_or.mpr ⟨h.clean, fun heq => hch heq.symm⟩
    have hfinal := @fits_put buf₁ block₂ written [ch] hclean
      (hlength₂.trans (hlength₁.trans hlength)) hstarts₂ h.tight
    refine ⟨n, true, _, ?_, hok, fun _ => hfinal⟩
    rw [live_unchanged a (fits_blocks hs) (fits_blocks hfinal)]
    unfold textLimit at hlen
    have hsum : (written.length + 1) % sizeRange = written.length + 1 :=
      Nat.mod_eq_of_lt (by unfold sizeRange; omega)
    simp only [List.length_append, List.length_singleton, h.len] at hput₂
    simp only [jsonAppendChar, hrun, ok_bind, if_true, h.len, hput, hsum, hput₂,
      List.length_singleton]

theorem controlEscape_bytes {ch : UInt8} (hch : ch < 32) : (controlEscape ch).bytes =
    ascii "\\u00" ++
      [DbApiModel.hexDigit (ch.toNat / 16), DbApiModel.hexDigit (ch.toNat % 16)] := by
  have hlt : ch.toNat < 32 := UInt8.lt_iff_toNat_lt.mp hch
  have hclean : 0 ∉ [DbApiModel.hexDigit (ch.toNat / 16), DbApiModel.hexDigit (ch.toNat % 16)] := by
    have h₁ := DbApiModel.hexDigit_ne_zero (show ch.toNat / 16 < 16 by omega)
    have h₂ := DbApiModel.hexDigit_ne_zero (show ch.toNat % 16 < 16 by omega)
    simp only [List.mem_cons, List.not_mem_nil, or_false, not_or]
    exact ⟨h₁.symm, h₂.symm⟩
  rw [controlEscape, CString.bytes_append, ofBuffer_of_nulFree hclean]
  rfl

theorem writes_lit (text : String) (hclean : 0 ∉ ascii text) :
    Writes keeping textLimit (jsonAppend (.lit text)) (ascii text) := by
  have h := writes_append (.lit text)
  rwa [CString.lit, ofBuffer_of_nulFree hclean] at h

theorem writes_escapedByte {ch : UInt8} (hch : ch ≠ 0) :
    Writes keeping textLimit (appendEscapedByte ch) (DbApiModel.jsonEscapeByte ch) := by
  unfold appendEscapedByte DbApiModel.jsonEscapeByte
  split_ifs with h₁ h₂ h₃ h₄ h₅ hcontrol
  · exact writes_lit _ (by decide)
  · exact writes_lit _ (by decide)
  · exact writes_lit _ (by decide)
  · exact writes_lit _ (by decide)
  · exact writes_lit _ (by decide)
  · rw [← controlEscape_bytes hcontrol]
    exact writes_append _
  · exact writes_appendChar hch

theorem writes_escapedString (text : CString) : Writes keeping textLimit
    (jsonAppendEscapedString text) (DbApiModel.jsonAppendEscapedString text) := by
  have hbody : Writes keeping textLimit (.each appendEscapedByte text.bytes)
      (text.bytes.flatMap DbApiModel.jsonEscapeByte) :=
    writes_each (fun ch hmem => writes_escapedByte (fun heq => text.nulFree (heq ▸ hmem)))
  have hquote : Writes keeping textLimit (jsonAppendChar 34) [34] := writes_appendChar (by decide)
  exact writes_andThen (writes_andThen hquote hbody) hquote

theorem intercalate_cons (first : Bytes) (rest : List Bytes) :
    List.intercalate [44] (first :: rest) = first ++ rest.flatMap (fun item => [44] ++ item) := by
  induction rest generalizing first with
  | nil => simp
  | cons second rest ih =>
    rw [List.intercalate_cons_cons, ih, List.flatMap_cons, List.append_assoc, List.append_assoc]

theorem intercalate_commas (items : List Bytes) :
    (List.range items.length).flatMap (fun i => (if 0 < i then [44] else []) ++ items.getD i []) =
      List.intercalate [44] items := by
  cases items with
  | nil => rfl
  | cons first rest =>
    have hrest : (List.range rest.length).map (fun i => rest.getD i []) = rest := by
      apply List.ext_getElem
      · rw [List.length_map, List.length_range]
      · intro i h₁ h₂
        simp [h₂]
    rw [intercalate_cons, List.length_cons, List.range_succ_eq_map, List.flatMap_cons,
      List.flatMap_map]
    conv_rhs => rw [← hrest, List.flatMap_map]
    simp

theorem writes_array {count : ℕ} {item : ℕ → Program JsonBuffer} {items : List Bytes}
    (hcount : items.length = count)
    (hitem : ∀ i text, items[i]? = some text → Writes keeping textLimit (item i) text) :
    Writes keeping textLimit (appendArray count item) (DbApiModel.jsonArray items) := by
  have hloop : Writes keeping textLimit
      (.each (fun i => (if 0 < i then jsonAppendChar 44 else .skip).andThen (item i))
        (List.range count)) (List.intercalate [44] items) := by
    rw [← intercalate_commas, hcount]
    refine writes_each (fun i hi => writes_andThen ?_ (hitem i _ ?_))
    · split
      · exact writes_appendChar (by decide)
      · exact writes_skip
    · have hlt : i < items.length := by rw [hcount]; exact List.mem_range.mp hi
      rw [List.getD_eq_getElem?_getD, List.getElem?_eq_getElem hlt, Option.getD_some]
  exact writes_andThen (writes_andThen (writes_appendChar (by decide)) hloop)
    (writes_appendChar (by decide))

theorem writes_texts (texts : List CString) {count : ℕ} (hcount : count ≤ texts.length) :
    Writes keeping textLimit (appendArray count (appendTextAt texts))
      (DbApiModel.jsonArray ((texts.take count).map DbApiModel.jsonAppendEscapedString)) := by
  apply writes_array
  · rw [List.length_map, List.length_take]
    omega
  · intro i text hi
    rw [List.getElem?_map, Option.map_eq_some_iff] at hi
    obtain ⟨s, hs, rfl⟩ := hi
    rw [List.getElem?_take] at hs
    split at hs
    · simp only [appendTextAt, hs]
      exact writes_escapedString s
    · cases hs

theorem rowValuesJson_ok {count : ℕ} {row : Row} {values : List Bytes}
    (h : DbApiModel.rowValuesJson count row = .ok values) : count ≤ row.length ∧
      values = (row.take count).map DbApiModel.jsonAppendEscapedString := by
  induction count generalizing row values with
  | zero =>
    cases h
    exact ⟨Nat.zero_le _, rfl⟩
  | succ count ih =>
    cases row with
    | nil => cases h
    | cons value row =>
      obtain ⟨rest, hrest, h⟩ := bind_eq_ok.mp h
      cases h
      obtain ⟨hle, rfl⟩ := ih hrest
      exact ⟨Nat.succ_le_succ hle, rfl⟩

theorem rowsJson_ok {count : ℕ} {rows : List Row} {texts : List Bytes}
    (h : DbApiModel.rowsJson count rows = .ok texts) : texts.length = rows.length ∧
      ∀ (i : ℕ) text, texts[i]? = some text → ∃ row, rows[i]? = some row ∧ count ≤ row.length ∧
        text = DbApiModel.jsonArray
          ((row.take count).map DbApiModel.jsonAppendEscapedString) := by
  induction rows generalizing texts with
  | nil =>
    cases h
    exact ⟨rfl, fun i text hi => by simp at hi⟩
  | cons row rows ih =>
    obtain ⟨values, hvalues, h⟩ := bind_eq_ok.mp h
    obtain ⟨rest, hrest, h⟩ := bind_eq_ok.mp h
    cases h
    obtain ⟨hle, rfl⟩ := rowValuesJson_ok hvalues
    obtain ⟨hlen, hrows⟩ := ih hrest
    refine ⟨by rw [List.length_cons, List.length_cons, hlen], fun i text hi => ?_⟩
    cases i with
    | zero =>
      cases hi
      exact ⟨row, rfl, hle, rfl⟩
    | succ i => exact hrows i text hi

theorem writes_columns (result : QueryResult) : Writes keeping textLimit (appendColumnsJson result)
    (DbApiModel.appendColumnsJson result) := by
  have h := @writes_texts result.columns _ le_rfl
  rwa [List.take_length] at h

theorem writes_rows {result : QueryResult} {text : Bytes}
    (h : DbApiModel.appendRowsJson result = .ok text) :
    Writes keeping textLimit (appendRowsJson result) text := by
  obtain ⟨rows, hrows, h⟩ := bind_eq_ok.mp h
  cases h
  obtain ⟨hlen, hat⟩ := rowsJson_ok hrows
  refine writes_array hlen (fun i text hi => ?_)
  obtain ⟨row, hrow, hle, rfl⟩ := hat i text hi
  simp only [appendRowAt, hrow]
  exact writes_texts row hle

theorem writes_chain {programs : List (Program JsonBuffer)} {texts : List Bytes}
    (h : List.Forall₂ (Writes keeping textLimit) programs texts) :
    Writes keeping textLimit (chain programs) texts.flatten := by
  induction h with
  | nil => exact writes_skip
  | cons hpart _ ih => exact writes_andThen hpart ih

theorem writes_bool (value : Bool) : Writes keeping textLimit (appendBoolValue value)
    (DbApiModel.appendBoolValue value) := by
  cases value
  · exact writes_lit "false" (by decide)
  · exact writes_lit "true" (by decide)

theorem writes_close : Writes keeping textLimit (jsonAppendChar 125) (ascii "\x7d") :=
  writes_appendChar (by decide)

theorem writes_select {result : ExecResult} (htype : result.type = .select) {text : Bytes}
    (h : DbApiModel.makeSuccessJson result = .ok text) :
    Writes keeping textLimit (appendSelect result) text := by
  rw [DbApiModel.makeSuccessJson, htype] at h
  obtain ⟨rows, hrows, h⟩ := bind_eq_ok.mp h
  cases h
  have hchain := writes_chain
    (.cons (writes_lit "\x7b\"success\":true,\"type\":\"select\",\"used_index\":" (by decide))
      (.cons (writes_bool result.usedIndex)
        (.cons (writes_lit ",\"row_count\":" (by decide))
          (.cons (writes_append (decimal result.queryResult.rows.length))
            (.cons (writes_lit ",\"columns\":" (by decide))
              (.cons (writes_columns result.queryResult)
                (.cons (writes_lit ",\"rows\":" (by decide))
                  (.cons (writes_rows hrows) (.cons writes_close .nil)))))))))
  simp only [List.flatten_cons, List.flatten_nil, List.append_nil] at hchain
  simp only [List.append_assoc]
  exact hchain

theorem writes_insert {result : ExecResult} (htype : result.type = .insert) {text : Bytes}
    (h : DbApiModel.makeSuccessJson result = .ok text) :
    Writes keeping textLimit (appendInsert result) text := by
  rw [DbApiModel.makeSuccessJson, htype] at h
  cases h
  have hopen := writes_lit "\x7b\"success\":true,\"type\":\"insert\",\"affected_rows\":"
    (by decide)
  have hrows := writes_append (decimal result.affectedRows)
  cases hid : result.generatedId with
  | none =>
    have hchain := writes_chain (.cons hopen (.cons hrows (.cons writes_skip
      (.cons writes_close .nil))))
    simp only [List.flatten_cons, List.flatten_nil, List.append_nil] at hchain
    simp only [appendInsert, hid, List.append_assoc]
    exact hchain
  | some id =>
    have hgenerated := writes_chain (.cons (writes_lit ",\"generated_id\":" (by decide))
      (.cons (writes_append (decimal id.toNat)) .nil))
    have hchain := writes_chain (.cons hopen (.cons hrows (.cons hgenerated
      (.cons writes_close .nil))))
    simp only [List.flatten_cons, List.flatten_nil, List.append_nil, List.append_assoc] at hchain
    simp only [appendInsert, hid, List.append_assoc]
    exact hchain

theorem writes_error (errorCode message : CString) : Writes keeping textLimit
    (appendError errorCode message) (DbApiModel.makeErrorJson errorCode message) := by
  have hchain := writes_chain
    (.cons (writes_lit "\x7b\"success\":false,\"error_code\":" (by decide))
      (.cons (writes_escapedString errorCode)
        (.cons (writes_lit ",\"message\":" (by decide))
          (.cons (writes_escapedString message) (.cons writes_close .nil)))))
  simp only [List.flatten_cons, List.flatten_nil, List.append_nil] at hchain
  simp only [DbApiModel.makeErrorJson, List.append_assoc]
  exact hchain

/-- What a call hands out: nothing exactly when one of its requests was refused, and then it holds
no memory; else one block with the text, and no more than twice its size. -/
structure Delivers (a : Allocator) (text : Bytes) (after : Allocator)
    (json : Option (Block UInt8)) : Prop where
  requests : ∃ n, after.plan = a.plan.drop n ∧ (json.isSome ↔ Granted a.plan n)
  account : after.live = a.live + json.toList.length
  reads : ∀ block ∈ json, readText block = .ok text ∧
    (block.length = 256 ∨ block.length < 2 * (text.length + 1))

theorem init_holds (a : Allocator) : ∃ n init, jsonBufferInit a =
      .ok (⟨a.plan.drop n, a.live + init.toList.length⟩, init) ∧
    (init.isSome ↔ Granted a.plan n) ∧ ∀ buf ∈ init, keeping.Holds buf [] := by
  cases hplan : a.plan.headD true with
  | false =>
    refine ⟨1, none, ?_, ?_, fun buf h => by cases h⟩
    · rw [jsonBufferInit, malloc_refused hplan, Option.toList_none, List.length_nil, Nat.cast_zero,
        add_zero]
    · rw [granted_one, hplan, Option.isSome_none]
  | true =>
    obtain ⟨block, hstore, hlength, hstarts⟩ :=
      store_starts (starts_nil (List.replicate 256 none)) (by rw [List.length_replicate]; decide)
        (0 : UInt8)
    refine ⟨1, some ⟨some block, 0, 256⟩, ?_, ?_, ?_⟩
    · rw [List.length_nil] at hstore
      rw [jsonBufferInit, malloc_granted hplan]
      simp only [hstore, ok_bind, Option.toList_some, List.length_singleton, Nat.cast_one]
    · rw [granted_one, hplan, Option.isSome_some]
    · intro buf h
      cases h
      refine ⟨List.not_mem_nil, rfl, ⟨block, rfl, ?_, hstarts⟩, Nat.le_of_ble_eq_true rfl,
        Or.inl rfl⟩
      rw [hlength, List.length_replicate]

theorem free_blocks (plan : List Bool) (live : ℤ) (buf : JsonBuffer) :
    (jsonBufferFree ⟨plan, live + keeping.blocks buf⟩ buf).1 = ⟨plan, live⟩ := by
  cases hdata : buf.data with
  | none => simp [jsonBufferFree, free, keeping, hdata]
  | some block => simp [jsonBufferFree, free, keeping, hdata]

theorem makeJson_delivers (a : Allocator) {append : Program JsonBuffer} {text : Bytes}
    (h : Writes keeping textLimit append text) (hlen : text.length ≤ textLimit) :
    ∃ after json, makeJson a append = .ok (after, json) ∧ Delivers a text after json := by
  obtain ⟨m, init, hinit, hgranted, hholds⟩ := init_holds a
  cases init with
  | none =>
    refine ⟨⟨a.plan.drop m, a.live⟩, none, ?_, ⟨m, rfl, hgranted⟩, by simp, fun b hb => by cases hb⟩
    simp only [makeJson, hinit, ok_bind, Option.toList_none, List.length_nil, Nat.cast_zero,
      add_zero]
  | some buf =>
    have hs := hholds buf rfl
    have hm : Granted a.plan m := hgranted.mp rfl
    obtain ⟨n, ok, buf', hrun, hok, hdone⟩ :=
      h ⟨a.plan.drop m, a.live + 1⟩ buf [] hs (by rw [List.length_nil, Nat.zero_add]; exact hlen)
    rw [List.drop_drop, fits_blocks hs] at hrun
    have hrequests : ok = true ↔ Granted a.plan (m + n) := by
      rw [granted_add, hok]
      exact ⟨fun hn => ⟨hm, hn⟩, fun hn => hn.2⟩
    cases ok with
    | false =>
      refine ⟨⟨a.plan.drop (m + n), a.live⟩, none, ?_, ⟨m + n, rfl, ?_⟩, by simp,
        fun b hb => by cases hb⟩
      · have hlive : a.live + 1 + keeping.blocks buf' - 1 = a.live + keeping.blocks buf' := by ring
        rw [hlive] at hrun
        simp only [makeJson, hinit, ok_bind, Option.toList_some, List.length_singleton,
          Nat.cast_one, hrun, Bool.false_eq_true, if_false, free_blocks]
      · rw [Option.isSome_none]
        exact hrequests
    | true =>
      have hfits := hdone rfl
      rw [List.nil_append] at hfits
      obtain ⟨block, hdata, hlength, hstarts⟩ := hfits.block
      rw [fits_blocks hfits] at hrun
      refine ⟨⟨a.plan.drop (m + n), a.live + 1⟩, some block, ?_, ⟨m + n, rfl, ?_⟩, by simp, ?_⟩
      · simp only [makeJson, hinit, ok_bind, Option.toList_some, List.length_singleton,
          Nat.cast_one, hrun, if_true, jsonBufferTake, jsonBufferFree, free, hdata,
          add_sub_cancel_right]
      · rw [Option.isSome_some]
        exact hrequests
      · intro b hb
        cases hb
        exact ⟨readText_starts hstarts hfits.clean, by rw [hlength]; exact hfits.tight⟩

/-- `make_success_json`, and `make_error_json` with the same chain in `http_send_error_response`:
for every behaviour of the allocator they stay inside their buffers, end, and hand out the text that
the response model has, in one block; they fail only for want of memory and then keep none. -/
theorem responses_built_in_memory (a : Allocator) :
    (∀ result text, DbApiModel.makeSuccessJson result = .ok text → text.length ≤ textLimit →
      ∃ after json, makeSuccessJson a result = .ok (after, json) ∧ Delivers a text after json) ∧
    ∀ errorCode message, (DbApiModel.makeErrorJson errorCode message).length ≤ textLimit →
      ∃ after json, makeErrorJson a errorCode message = .ok (after, json) ∧
        Delivers a (DbApiModel.makeErrorJson errorCode message) after json := by
  constructor
  · intro result text h hlen
    cases htype : result.type with
    | select =>
      rw [makeSuccessJson, htype]
      exact makeJson_delivers a (writes_select htype h) hlen
    | insert =>
      rw [makeSuccessJson, htype]
      exact makeJson_delivers a (writes_insert htype h) hlen
  · intro errorCode message hlen
    exact makeJson_delivers a (writes_error errorCode message) hlen

def oneRow : ExecResult := ⟨.select, 0, ⟨[.lit "id"], [[.lit "7"]]⟩, true, none⟩

theorem one_row_built : ∃ text, DbApiModel.makeSuccessJson oneRow = .ok text ∧
    ∃ after json, makeSuccessJson ⟨[true], 0⟩ oneRow = .ok (after, json) ∧
      Delivers ⟨[true], 0⟩ text after json :=
  ⟨_, rfl, (responses_built_in_memory _).1 _ _ rfl (by decide)⟩

end JsonWriting
