import ThreadedDb.OwnedMemory
import ThreadedDb.StorageModel
import Mathlib.Tactic.Abel

/-!
# Rows in memory

How `storage.c` takes a line of a data file apart: a buffer that doubles, an array of fields that
grows by one, and a way out at every allocation. Whatever allocations are refused, no call leaves its
blocks, frees or uses a block that is gone, or leaves one behind; and a row that is returned is the
row of `StorageModel`.
-/
namespace RowMemory

open ByteText
open StorageModel (Row unescapeBytes splitFrom)
open GrowableText (Starts starts_nil starts_length resize_starts)
open OwnedMemory
open CheckedArray (Checked ok_bind)

def sizeRange : ℕ := 2 ^ 64

structure TextBuffer where
  chunk : Option (Chunk UInt8)
  length : ℕ
  capacity : ℕ

def appendTo (m : Memory) (c : Chunk UInt8) (length capacity : ℕ) (ch : UInt8) :
    Checked (Memory × TextBuffer × Bool) :=
  if capacity ≤ (length + 1) % sizeRange then do
    let (m, grown) ← realloc m (some c) (capacity * 2 % sizeRange)
    match grown with
    | none => .ok (m, ⟨some c, length, capacity * 2 % sizeRange⟩, false)
    | some c => do
      let c ← writeCell m c length ch
      .ok (m, ⟨some c, length + 1, capacity * 2 % sizeRange⟩, true)
  else do
    let c ← writeCell m c length ch
    .ok (m, ⟨some c, length + 1, capacity⟩, true)

def appendChar (m : Memory) (buffer : TextBuffer) (ch : UInt8) :
    Checked (Memory × TextBuffer × Bool) :=
  match buffer.chunk with
  | none =>
    match malloc m 32 with
    | (m, none) => .ok (m, ⟨none, buffer.length, 32⟩, false)
    | (m, some c) => appendTo m c 0 32 ch
  | some c => appendTo m c buffer.length buffer.capacity ch

def discard (m : Memory) (c : Chunk UInt8) : Checked (Memory × Option (Chunk UInt8)) := do
  let m ← free m (some c)
  .ok (m, none)

/-- The loop of `unescape_field` over the bytes that `strlen` counted. -/
def unescapeLoop (m : Memory) : List UInt8 → Chunk UInt8 → ℕ →
    Checked (Memory × Option (Chunk UInt8))
  | [], out, dst => do
    let out ← writeCell m out dst 0
    .ok (m, some out)
  | b :: rest, out, dst =>
    if b ≠ 92 then do
      let out ← writeCell m out dst b
      unescapeLoop m rest out (dst + 1)
    else
      match rest with
      | [] => discard m out
      | c :: rest =>
        if c = 92 then do
          let out ← writeCell m out dst 92
          unescapeLoop m rest out (dst + 1)
        else if c = 124 then do
          let out ← writeCell m out dst 124
          unescapeLoop m rest out (dst + 1)
        else if c = 110 then do
          let out ← writeCell m out dst 10
          unescapeLoop m rest out (dst + 1)
        else discard m out

def unescapeField (m : Memory) (value : Option (Chunk UInt8)) :
    Checked (Memory × Option (Chunk UInt8)) :=
  match value with
  | none => .ok (m, none)
  | some c => do
    let bytes ← readString m c
    match malloc m (bytes.length + 1) with
    | (m, none) => .ok (m, none)
    | (m, some out) => unescapeLoop m bytes out 0

abbrev Text := Option (Chunk UInt8)

abbrev FieldArray := Option (Chunk Text)

def elements (size n : ℕ) : ℕ := n * size % sizeRange / size

def pushField (m : Memory) (fields : FieldArray) (count : ℕ) (value : Text) :
    Checked (Memory × FieldArray × Bool) := do
  let (m, grown) ← realloc m fields (elements 8 (count + 1))
  match grown with
  | none => .ok (m, fields, false)
  | some array => do
    let array ← writeCell m array count value
    .ok (m, some array, true)

def freeFieldArray (m : Memory) (fields : FieldArray) (count : ℕ) : Checked Memory :=
  freeArray free m fields count

def dupBytes (m : Memory) (bytes : List UInt8) : Checked (Memory × Text) :=
  match malloc m (bytes.length + 1) with
  | (m, none) => .ok (m, none)
  | (m, some copy) => do
    let copy ← writeCells m copy (bytes ++ [0])
    .ok (m, some copy)

def textBytes (m : Memory) (value : Text) : Checked Bytes :=
  match value with
  | none => .ok []
  | some c => readString m c

def dupString (m : Memory) (value : Text) : Checked (Memory × Text) := do
  let bytes ← textBytes m value
  dupBytes m bytes

/-- The padding loop of `normalize_field_count`; a field that cannot be made ends it with the array
freed. -/
def padFields : ℕ → ℕ → Memory → Chunk Text → Checked (Memory × FieldArray × ℕ × Bool)
  | 0, i, m, array => .ok (m, some array, i, true)
  | n + 1, i, m, array => do
    -- the literal "" is copied as NULL is
    let (m, value) ← dupString m none
    let array ← writeCell m array i value
    match value with
    | none => do
      let m ← freeFieldArray m (some array) i
      .ok (m, none, 0, false)
    | some _ => padFields n (i + 1) m array

def normalizeFieldCount (m : Memory) (fields : FieldArray) (count expected : ℕ) :
    Checked (Memory × FieldArray × ℕ × Bool) :=
  if count = expected then .ok (m, fields, count, true)
  else if expected < count then
    match fields with
    | none => .error .badPointer
    | some array => do
      let m ← freeEach free array (count - expected) expected m
      if expected = 0 then do
        let m ← free m (some array)
        .ok (m, none, 0, true)
      else .ok (m, some array, expected, true)
  else do
    let (m, grown) ← realloc m fields (elements 8 expected)
    match grown with
    | none => .ok (m, fields, count, false)
    | some array => padFields (expected - count) count m array

/-- `free_field_array(fields, field_count); free(current_raw); return 1;` -/
def abandon {α : Type} (m : Memory) (fields : FieldArray) (count : ℕ) (buffer : TextBuffer) :
    Checked (Memory × Option α) := do
  let m ← freeFieldArray m fields count
  let m ← free m buffer.chunk
  .ok (m, none)

/-- The end of a field: the text of the buffer is closed, unescaped and pushed. -/
def closeField (m : Memory) (fields : FieldArray) (count : ℕ) (buffer : TextBuffer) :
    Checked (Memory × Option (FieldArray × TextBuffer)) := do
  let (m, buffer, ok) ← appendChar m buffer 0
  if ok then do
    let (m, value) ← unescapeField m buffer.chunk
    match value with
    | none => abandon m fields count buffer
    | some v => do
      let (m, fields, ok) ← pushField m fields count (some v)
      if ok then .ok (m, some (fields, buffer))
      else do
        let m ← free m (some v)
        abandon m fields count buffer
  else abandon m fields count buffer

def splitLoop : List UInt8 → Memory → FieldArray → ℕ → TextBuffer → Bool →
    Checked (Memory × Option (FieldArray × ℕ))
  | [], m, fields, count, buffer, pending =>
    if pending then abandon m fields count buffer
    else do
      let (m, closed) ← closeField m fields count buffer
      match closed with
      | none => .ok (m, none)
      | some (fields, buffer) => do
        let m ← free m buffer.chunk
        .ok (m, some (fields, count + 1))
  | b :: rest, m, fields, count, buffer, pending =>
    if pending = false ∧ b = 124 then do
      let (m, closed) ← closeField m fields count buffer
      match closed with
      | none => .ok (m, none)
      | some (fields, buffer) =>
        splitLoop rest m fields (count + 1) { buffer with length := 0 } false
    else do
      -- a byte after a backslash, a backslash, or any other byte
      let (m, buffer, ok) ← appendChar m buffer b
      if ok then splitLoop rest m fields count buffer (!pending && b = 92)
      else abandon m fields count buffer

def splitEscapedRow (m : Memory) (line : Chunk UInt8) :
    Checked (Memory × Option (FieldArray × ℕ)) := do
  let bytes ← readString m line
  splitLoop bytes m none 0 ⟨none, 0, 0⟩ false

structure RowBlock where
  values : FieldArray
  count : ℕ

def parseLineIntoRow (m : Memory) (line : Chunk UInt8) (expectedColumnCount : ℕ) :
    Checked (Memory × Option RowBlock) := do
  let (m, split) ← splitEscapedRow m line
  match split with
  | none => .ok (m, none)
  | some (fields, count) => do
    let (m, fields, count, ok) ← normalizeFieldCount m fields count expectedColumnCount
    if ok then .ok (m, some ⟨fields, count⟩)
    else do
      let m ← freeFieldArray m fields count
      .ok (m, none)

def valueBytes (m : Memory) (row : RowBlock) (i : ℕ) : Checked Bytes :=
  match row.values with
  | none => .error .badPointer
  | some array => do
    let value ← readCell m array i
    textBytes m value

def freeRow (m : Memory) (row : RowBlock) : Checked Memory := freeFieldArray m row.values row.count

/-- The buffer holds a text, in a block that stays small as long as texts stay below `limit`. -/
def Holds (limit : ℕ) (buffer : TextBuffer) (text : List UInt8) : Prop :=
  match buffer.chunk with
  | none => text = []
  | some c => buffer.length = text.length ∧ c.cells.length = buffer.capacity ∧
      Starts c.cells text ∧ text.length < buffer.capacity ∧ buffer.capacity ≤ max 32 (2 * limit)

section Buffer

variable {limit : ℕ} {m : Memory}

theorem appendTo_holds (hlimit : limit < 2 ^ 62) {c : Chunk UInt8} {capacity : ℕ}
    {text : List UInt8} (h : Holds limit ⟨some c, text.length, capacity⟩ text)
    (hroom : text.length + 1 ≤ limit) (hheld : ids (some c) ≤ m.live) (ch : UInt8) :
    ∃ m' buffer' ok, appendTo m c text.length capacity ch = .ok (m', buffer', ok) ∧
      Keeps m m' (ids (some c)) (ids buffer'.chunk) ∧
      (ok = true → Holds limit buffer' (text ++ [ch])) ∧ (ok = false → false ∈ m.plan) := by
  obtain ⟨-, hcells, hstarts, hlt, hcap⟩ := h
  dsimp only at hcells hlt hcap
  have hsmall : (text.length + 1) % sizeRange = text.length + 1 := by
    unfold sizeRange
    omega
  have hdouble : capacity * 2 % sizeRange = capacity * 2 := by
    unfold sizeRange
    omega
  unfold appendTo
  rw [hsmall, hdouble]
  by_cases hfull : capacity ≤ text.length + 1
  · rw [if_pos hfull]
    obtain ⟨m', grown, hcall, hnone, hsome⟩ := realloc_keeps hheld (capacity * 2)
    rw [hcall, ok_bind]
    cases grown with
    | none =>
      obtain ⟨hno, hkeeps⟩ := hnone rfl
      exact ⟨m', _, false, rfl, hkeeps, fun h => (by cases h), fun _ => hno⟩
    | some g =>
      obtain ⟨hkeeps, hg⟩ := hsome g rfl
      obtain ⟨hlen, hstarts'⟩ := @resize_starts _ c.cells text hstarts (capacity * 2) (by omega)
      change g.cells = GrowableText.resize c.cells (capacity * 2) at hg
      rw [← hg] at hlen hstarts'
      obtain ⟨w, hwrite, hid, hwlen, hw⟩ :=
        writeCell_starts (mem_of_held (hkeeps.held hheld)) hstarts' (by omega) ch
      refine ⟨m', ⟨some w, text.length + 1, capacity * 2⟩, true, ?_, ?_, ?_, fun h => by cases h⟩
      · dsimp only
        rw [hwrite, ok_bind]
      · exact hkeeps.cast rfl (by rw [ids, ids, hid])
      · intro _
        refine ⟨by simp, hwlen.trans hlen, hw, ?_, ?_⟩
        · simp only [List.length_append, List.length_singleton]
          omega
        · dsimp only
          omega
  · rw [if_neg hfull]
    obtain ⟨w, hwrite, hid, hwlen, hw⟩ :=
      writeCell_starts (mem_of_held hheld) hstarts (by omega) ch
    refine ⟨m, ⟨some w, text.length + 1, capacity⟩, true, ?_, ?_, ?_, fun h => by cases h⟩
    · rw [hwrite, ok_bind]
    · exact (Keeps.refl m _).cast rfl (by rw [ids, ids, hid])
    · intro _
      refine ⟨by simp, hwlen.trans hcells, hw, ?_, hcap⟩
      simp only [List.length_append, List.length_singleton]
      omega

theorem appendChar_holds (hlimit : limit < 2 ^ 62) {buffer : TextBuffer} {text : List UInt8}
    (h : Holds limit buffer text) (hroom : text.length + 1 ≤ limit)
    (hheld : ids buffer.chunk ≤ m.live) (ch : UInt8) :
    ∃ m' buffer' ok, appendChar m buffer ch = .ok (m', buffer', ok) ∧
      Keeps m m' (ids buffer.chunk) (ids buffer'.chunk) ∧
      (ok = true → Holds limit buffer' (text ++ [ch])) ∧ (ok = false → false ∈ m.plan) := by
  obtain ⟨chunk, length, capacity⟩ := buffer
  cases chunk with
  | none =>
    obtain rfl : text = [] := h
    obtain ⟨m₁, p, hcall, hkeeps, hnone, hsome⟩ := malloc_keeps (α := UInt8) m 32
    rw [appendChar]
    dsimp only
    rw [hcall]
    cases p with
    | none => exact ⟨m₁, _, false, rfl, hkeeps, fun h => (by cases h), fun _ => hnone rfl⟩
    | some c =>
      have hfresh : Holds limit ⟨some c, ([] : List UInt8).length, 32⟩ [] := by
        refine ⟨rfl, ?_, starts_nil _, Nat.succ_pos 31, le_max_left _ _⟩
        rw [hsome c rfl, List.length_replicate]
      obtain ⟨m', buffer', ok, hrun, hkeeps', hok, hno⟩ :=
        appendTo_holds hlimit hfresh hroom (hkeeps.held (Multiset.zero_le _)) ch
      exact ⟨m', buffer', ok, hrun, hkeeps.trans hkeeps', hok, fun h => hkeeps.refused (hno h)⟩
  | some c =>
    have hlength : length = text.length := h.1
    subst hlength
    exact appendTo_holds hlimit h hroom hheld ch

end Buffer

section Unescaping

variable {m : Memory}

/-- A call that has `out` in hand, with `done` written to it, returns it with the rest of a text and
a NUL behind it, or frees it where there is none. -/
def Finishes (m : Memory) (out : Chunk UInt8) (done : List UInt8)
    (call : Checked (Memory × Option (Chunk UInt8))) (rest : Option (List UInt8)) : Prop :=
  ∃ m' value, call = .ok (m', value) ∧ Keeps m m' (ids (some out)) (ids value) ∧
    (value = none → rest = none) ∧
    ∀ c, value = some c → ∃ text, rest = some text ∧ Starts c.cells (done ++ text ++ [0])

theorem discard_finishes {out : Chunk UInt8} (hheld : ids (some out) ≤ m.live)
    (done : List UInt8) : Finishes m out done (discard m out) none := by
  obtain ⟨m', hfree, hkeeps⟩ := free_keeps hheld
  refine ⟨m', none, ?_, hkeeps, fun _ => rfl, fun c hc => by cases hc⟩
  rw [discard, hfree, ok_bind]

theorem write_finishes {out : Chunk UInt8} {done bytes : List UInt8}
    (hstarts : Starts out.cells done) (hroom : done.length + 1 + bytes.length < out.cells.length)
    (hheld : ids (some out) ≤ m.live) (v : UInt8)
    (h : ∀ {out' : Chunk UInt8} {done' : List UInt8}, Starts out'.cells done' →
      done'.length + bytes.length < out'.cells.length → ids (some out') ≤ m.live →
      Finishes m out' done' (unescapeLoop m bytes out' done'.length) (unescapeBytes bytes)) :
    Finishes m out done (do
      let out ← writeCell m out done.length v
      unescapeLoop m bytes out (done.length + 1)) ((unescapeBytes bytes).map (v :: ·)) := by
  obtain ⟨w, hwrite, hid, hlen, hw⟩ :=
    writeCell_starts (mem_of_held hheld) hstarts (by omega) v
  have hlength : (done ++ [v]).length = done.length + 1 := by simp
  obtain ⟨m', value, hrun, hkeeps, hnone, hsome⟩ :=
    h hw (by rw [hlength, hlen]; exact hroom) (by rw [ids, hid]; exact hheld)
  rw [hlength] at hrun
  refine ⟨m', value, ?_, hkeeps.cast (by rw [ids, ids, hid]) rfl, ?_, ?_⟩
  · rw [hwrite, ok_bind, hrun]
  · intro hvalue
    rw [hnone hvalue]
    rfl
  · intro c hc
    obtain ⟨text, hrest, htext⟩ := hsome c hc
    exact ⟨v :: text, by rw [hrest]; rfl, by simpa using htext⟩

theorem unescapeLoop_finishes (bytes : List UInt8) {out : Chunk UInt8} {done : List UInt8}
    (hstarts : Starts out.cells done) (hroom : done.length + bytes.length < out.cells.length)
    (hheld : ids (some out) ≤ m.live) :
    Finishes m out done (unescapeLoop m bytes out done.length) (unescapeBytes bytes) := by
  fun_induction unescapeBytes bytes generalizing out done with
  | case1 =>
    obtain ⟨w, hwrite, hid, -, hw⟩ := writeCell_starts (mem_of_held hheld) hstarts hroom 0
    refine ⟨m, some w, ?_, (Keeps.refl m _).cast rfl (by rw [ids, ids, hid]),
      fun h => (by cases h), fun c hc => ?_⟩
    · rw [unescapeLoop, hwrite, ok_bind]
    · cases hc
      exact ⟨[], rfl, by simpa using hw⟩
  | case2 => exact discard_finishes hheld done
  | case3 rest ih => exact write_finishes hstarts (by simp at hroom; omega) hheld 92 ih
  | case4 rest _ ih => exact write_finishes hstarts (by simp at hroom; omega) hheld 124 ih
  | case5 rest _ _ ih => exact write_finishes hstarts (by simp at hroom; omega) hheld 10 ih
  | case6 c rest h₁ h₂ h₃ =>
    rw [unescapeLoop, if_neg (by simp)]
    simp only [if_neg h₁, if_neg h₂, if_neg h₃]
    exact discard_finishes hheld done
  | case7 b rest hb ih =>
    rw [unescapeLoop.eq_def]
    simp only [if_pos hb]
    exact write_finishes hstarts (by simp at hroom; omega) hheld b ih

theorem unescapeField_keeps {raw : Chunk UInt8} {text : List UInt8}
    (hstarts : Starts raw.cells (text ++ [0])) (hclean : 0 ∉ text)
    (hheld : ids (some raw) ≤ m.live) :
    ∃ m' value, unescapeField m (some raw) = .ok (m', value) ∧ Keeps m m' 0 (ids value) ∧
      (value = none → unescapeBytes text = none ∨ false ∈ m.plan) ∧
      ∀ c, value = some c → ∃ field, unescapeBytes text = some field ∧
        Starts c.cells (field ++ [0]) := by
  obtain ⟨m₁, p, hcall, hkeeps, hnone, hsome⟩ := malloc_keeps (α := UInt8) m (text.length + 1)
  rw [unescapeField, readString_starts (mem_of_held hheld) hstarts hclean, ok_bind, hcall]
  cases p with
  | none =>
    exact ⟨m₁, none, rfl, hkeeps, fun _ => .inr (hnone rfl), fun c hc => by cases hc⟩
  | some out =>
    have hcells : out.cells.length = text.length + 1 := by
      rw [hsome out rfl, List.length_replicate]
    obtain ⟨m', value, hrun, hkeeps', hbad, hgood⟩ := unescapeLoop_finishes text
      (starts_nil out.cells) (by rw [hcells, List.length_nil]; omega)
      (hkeeps.held (Multiset.zero_le _))
    refine ⟨m', value, hrun, hkeeps.trans hkeeps', fun h => .inl (hbad h), ?_⟩
    simpa using hgood

end Unescaping

def textIds (texts : List Text) : Multiset ℕ := totalIds ids texts

theorem textIds_append (values more : List Text) :
    textIds (values ++ more) = textIds values + textIds more := totalIds_append ids values more

theorem textIds_singleton (v : Text) : textIds [v] = ids v := by
  rw [textIds, totalIds_cons, totalIds_nil, add_zero]

def Reads (value : Text) (text : CString) : Prop :=
  ∃ c, value = some c ∧ Starts c.cells (text.bytes ++ [0])

def Texts (values : List Text) (texts : List CString) : Prop := List.Forall₂ Reads values texts

section Fields

variable {m : Memory}

theorem elements_eq {size n : ℕ} (hsize : 0 < size) (h : n * size < 2 ^ 64) :
    elements size n = n := by
  rw [elements, sizeRange, Nat.mod_eq_of_lt h, Nat.mul_div_cancel n hsize]

theorem pushField_keeps {fields : FieldArray} {values : List Text}
    (h : Lists fields values) (hcount : values.length + 1 < 2 ^ 61) (hheld : ids fields ≤ m.live)
    (v : Text) :
    ∃ m' fields' ok, pushField m fields values.length v = .ok (m', fields', ok) ∧
      Keeps m m' (ids fields) (ids fields') ∧
      (ok = true → Lists fields' (values ++ [v])) ∧
      (ok = false → fields' = fields ∧ false ∈ m.plan) := by
  obtain ⟨m', grown, hcall, hnone, hsome⟩ := grow_keeps h hheld (Nat.le_succ values.length)
  rw [pushField, elements_eq (by omega) (by omega), hcall, ok_bind]
  cases grown with
  | none =>
    obtain ⟨hno, hkeeps⟩ := hnone rfl
    exact ⟨m', fields, false, rfl, hkeeps, fun h => (by cases h), fun _ => ⟨rfl, hno⟩⟩
  | some array =>
    obtain ⟨hkeeps, hlen, hstarts⟩ := hsome array rfl
    obtain ⟨w, hwrite, hid, hwlen, hw⟩ :=
      writeCell_starts (mem_of_held (hkeeps.held hheld)) hstarts (by omega) v
    refine ⟨m', some w, true, ?_, hkeeps.cast rfl (by rw [ids, ids, hid]), ?_, fun h => by cases h⟩
    · dsimp only
      rw [hwrite, ok_bind]
    · intro _
      exact lists_of_length hw (by simp [hwlen, hlen])

theorem free_releases (v : Text) : Releases free ids v := fun _ h => free_keeps h

theorem freeFieldArray_keeps {fields : FieldArray} {values : List Text} (h : Leads fields values)
    (hheld : textIds values + ids fields ≤ m.live) :
    ∃ m', freeFieldArray m fields values.length = .ok m' ∧
      Keeps m m' (textIds values + ids fields) 0 :=
  freeArray_keeps (fun v _ => free_releases v) h hheld

theorem abandon_keeps {α : Type} {fields : FieldArray} {values : List Text}
    (h : Lists fields values) {buffer : TextBuffer}
    (hheld : textIds values + ids fields + ids buffer.chunk ≤ m.live) :
    ∃ m', (abandon m fields values.length buffer : Checked (Memory × Option α)) = .ok (m', none) ∧
      Keeps m m' (textIds values + ids fields + ids buffer.chunk) 0 := by
  obtain ⟨m₁, hrun, hkeeps⟩ := freeFieldArray_keeps h.leads (held_left hheld)
  have hkeeps₁ := hkeeps.frame (ids buffer.chunk)
  rw [zero_add] at hkeeps₁
  obtain ⟨m', hfree, hkeeps'⟩ := free_keeps (hkeeps₁.held hheld)
  refine ⟨m', ?_, hkeeps₁.trans hkeeps'⟩
  rw [abandon, hrun, ok_bind, hfree, ok_bind]

end Fields

theorem unescape_clean {raw field : List UInt8} (h : unescapeBytes raw = some field)
    (hclean : 0 ∉ raw) : 0 ∉ field := by
  fun_induction unescapeBytes raw generalizing field with
  | case1 =>
    cases h
    exact hclean
  | case2 => cases h
  | case3 rest ih =>
    obtain ⟨text, htext, rfl⟩ := Option.map_eq_some_iff.mp h
    simp only [List.mem_cons, not_or] at hclean ⊢
    exact ⟨by decide, ih htext hclean.2.2⟩
  | case4 rest _ ih =>
    obtain ⟨text, htext, rfl⟩ := Option.map_eq_some_iff.mp h
    simp only [List.mem_cons, not_or] at hclean ⊢
    exact ⟨by decide, ih htext hclean.2.2⟩
  | case5 rest _ _ ih =>
    obtain ⟨text, htext, rfl⟩ := Option.map_eq_some_iff.mp h
    simp only [List.mem_cons, not_or] at hclean ⊢
    exact ⟨by decide, ih htext hclean.2.2⟩
  | case6 => cases h
  | case7 b rest _ ih =>
    obtain ⟨text, htext, rfl⟩ := Option.map_eq_some_iff.mp h
    simp only [List.mem_cons, not_or] at hclean ⊢
    exact ⟨hclean.1, ih htext hclean.2⟩

section Splitting

variable {limit : ℕ} {m : Memory}

theorem holds_reset {buffer : TextBuffer} {text : List UInt8} (h : Holds limit buffer text) :
    Holds limit { buffer with length := 0 } [] := by
  obtain ⟨chunk, length, capacity⟩ := buffer
  cases chunk with
  | none => rfl
  | some c =>
    obtain ⟨-, hcells, -, hlt, hcap⟩ := h
    exact ⟨rfl, hcells, starts_nil _, Nat.zero_lt_of_lt hlt, hcap⟩

/-- The end of a field with this text: it joins the others, or everything is given back. -/
theorem closeField_keeps (hlimit : limit < 2 ^ 62) {buffer : TextBuffer} {text : List UInt8}
    (hb : Holds limit buffer text) (hroom : text.length + 1 ≤ limit) (hclean : 0 ∉ text)
    {fields : FieldArray} {values : List Text} (hl : Lists fields values)
    (hcount : values.length + 1 < 2 ^ 61)
    (hheld : textIds values + ids fields + ids buffer.chunk ≤ m.live) :
    ∃ m' closed, closeField m fields values.length buffer = .ok (m', closed) ∧
      (closed = none → Keeps m m' (textIds values + ids fields + ids buffer.chunk) 0 ∧
        (StorageModel.unescapeField text = none ∨ false ∈ m.plan)) ∧
      ∀ fields' buffer', closed = some (fields', buffer') → ∃ v field,
        StorageModel.unescapeField text = some field ∧ Starts v.cells (field.bytes ++ [0]) ∧
        Lists fields' (values ++ [some v]) ∧ Holds limit buffer' (text ++ [0]) ∧
        Keeps m m' (textIds values + ids fields + ids buffer.chunk)
          (textIds (values ++ [some v]) + ids fields' + ids buffer'.chunk) := by
  obtain ⟨m₁, buffer₁, ok, happend, hk, hok, hno⟩ :=
    appendChar_holds hlimit hb hroom (held_right hheld) 0
  have hk₁ := (hk.frame (textIds values + ids fields)).cast (add_comm _ _) (add_comm _ _)
  have hheld₁ := hk₁.held hheld
  rw [closeField, happend, ok_bind]
  dsimp only
  cases ok with
  | false =>
    obtain ⟨m', hrun, hk'⟩ := @abandon_keeps m₁ (FieldArray × TextBuffer) _ _ hl _ hheld₁
    exact ⟨m', none, hrun, fun _ => ⟨hk₁.trans hk', .inr (hno rfl)⟩, fun _ _ h => by cases h⟩
  | true =>
    rw [if_pos rfl]
    have hb₁ := hok rfl
    obtain ⟨chunk, length, capacity⟩ := buffer₁
    cases chunk with
    | none => exact absurd hb₁ (by simp [Holds])
    | some raw =>
      obtain ⟨m₂, value, hunescape, hk, hbad, hgood⟩ :=
        unescapeField_keeps hb₁.2.2.1 hclean (held_right hheld₁)
      have hk₂ := (hk.frame (textIds values + ids fields + ids (some raw))).cast (zero_add _) rfl
      rw [hunescape, ok_bind]
      cases value with
      | none =>
        dsimp only
        have hk₂ := hk₂.cast rfl (zero_add _)
        obtain ⟨m', hrun, hk'⟩ := @abandon_keeps m₂ (FieldArray × TextBuffer) _ _ hl
          ⟨some raw, length, capacity⟩ (hk₂.held hheld₁)
        refine ⟨m', none, hrun, fun _ => ⟨(hk₁.trans hk₂).trans hk', ?_⟩, fun _ _ h => by cases h⟩
        rcases hbad rfl with hbad | hno
        · left
          rw [StorageModel.unescapeField, hbad]
          rfl
        · exact .inr (hk₁.refused hno)
      | some v =>
        obtain ⟨field, hfield, hv⟩ := hgood v rfl
        have hheld₂ := hk₂.held hheld₁
        obtain ⟨m₃, fields₃, ok, hpush, hk, hok, hno⟩ :=
          @pushField_keeps m₂ _ _ hl hcount (held_right (held_left (held_right hheld₂))) (some v)
        have hk₃ := (hk.frame (ids (some v) + textIds values + ids (some raw))).cast
          (show _ = ids (some v) + (textIds values + ids fields + ids (some raw)) by abel) rfl
        dsimp only
        rw [hpush, ok_bind]
        dsimp only
        cases ok with
        | false =>
          obtain ⟨rfl, hrefused⟩ := hno rfl
          have hk₃ := hk₃.cast rfl
            (show _ = ids (some v) + (textIds values + ids fields₃ + ids (some raw)) by abel)
          have hheld₃ := hk₃.held hheld₂
          obtain ⟨m₄, hfree, hk⟩ := free_keeps (held_left hheld₃)
          have hk₄ := (hk.frame (textIds values + ids fields₃ + ids (some raw))).cast rfl
            (zero_add _)
          obtain ⟨m', hrun, hk'⟩ := @abandon_keeps m₄ (FieldArray × TextBuffer) _ _ hl
            ⟨some raw, length, capacity⟩ (hk₄.held hheld₃)
          rw [if_neg (by decide), hfree, ok_bind]
          exact ⟨m', none, hrun, fun _ => ⟨(((hk₁.trans hk₂).trans hk₃).trans hk₄).trans hk',
            .inr (hk₁.refused (hk₂.refused hrefused))⟩, fun _ _ h => by cases h⟩
        | true =>
          rw [if_pos rfl]
          refine ⟨m₃, _, rfl, fun h => (by cases h), ?_⟩
          rintro fields' buffer' heq
          cases heq
          have hbytes : (CString.ofBuffer field).bytes = field :=
            ofBuffer_of_nulFree (unescape_clean hfield hclean)
          refine ⟨v, CString.ofBuffer field, ?_, ?_, hok rfl, hb₁, ?_⟩
          · rw [StorageModel.unescapeField, hfield]
            rfl
          · rw [hbytes]
            exact hv
          · refine ((hk₁.trans hk₂).trans hk₃).cast rfl ?_
            rw [textIds_append, textIds_singleton]
            abel

/-- A call with the blocks `old` in hand returns the fields of a row, each in a block of its own, or
gives everything back where there is no row or no memory. -/
def Splits (m : Memory) (old : Multiset ℕ) (call : Checked (Memory × Option (FieldArray × ℕ)))
    (row : Option Row) : Prop :=
  ∃ m' result, call = .ok (m', result) ∧
    (result = none → Keeps m m' old 0 ∧ (row = none ∨ false ∈ m.plan)) ∧
    ∀ fields count, result = some (fields, count) → ∃ values texts, row = some texts ∧
      count = values.length ∧ Lists fields values ∧ Texts values texts ∧
      Keeps m m' old (textIds values + ids fields)

theorem Splits.after {m' : Memory} {old mid : Multiset ℕ}
    {call : Checked (Memory × Option (FieldArray × ℕ))} {row : Option Row}
    (hk : Keeps m m' old mid) (h : Splits m' mid call row) : Splits m old call row := by
  obtain ⟨m'', result, hcall, hnone, hsome⟩ := h
  refine ⟨m'', result, hcall, ?_, ?_⟩
  · intro hr
    obtain ⟨hk', hwhy⟩ := hnone hr
    exact ⟨hk.trans hk', hwhy.imp_right hk.refused⟩
  · intro fields count hr
    obtain ⟨values, texts, hrow, hcount, hl, ht, hk'⟩ := hsome fields count hr
    exact ⟨values, texts, hrow, hcount, hl, ht, hk.trans hk'⟩

theorem abandon_splits {fields : FieldArray} {values : List Text}
    (h : Lists fields values) {buffer : TextBuffer} {row : Option Row}
    (hheld : textIds values + ids fields + ids buffer.chunk ≤ m.live)
    (hwhy : row = none ∨ false ∈ m.plan) :
    Splits m (textIds values + ids fields + ids buffer.chunk)
      (abandon m fields values.length buffer) row := by
  obtain ⟨m', hrun, hk⟩ := @abandon_keeps m (FieldArray × ℕ) _ _ h _ hheld
  exact ⟨m', none, hrun, fun _ => ⟨hk, hwhy⟩, fun _ _ hr => by cases hr⟩

theorem texts_append {values : List Text} {texts : List CString} (h : Texts values texts)
    {v : Chunk UInt8} {field : CString} (hv : Starts v.cells (field.bytes ++ [0])) :
    Texts (values ++ [some v]) (texts ++ [field]) :=
  List.rel_append h (List.Forall₂.cons ⟨v, rfl, hv⟩ List.Forall₂.nil)

theorem splitFrom_byte {b : UInt8} {pending : Bool} (h : ¬(pending = false ∧ b = 124))
    (rest text : List UInt8) (texts : List CString) :
    splitFrom (b :: rest) texts text pending =
      splitFrom rest texts (text ++ [b]) (!pending && b = 92) := by
  cases pending with
  | true => rfl
  | false =>
    by_cases hb : b = 92
    · rw [splitFrom, if_pos hb, hb]
      rfl
    · rw [splitFrom, if_neg hb, if_neg (fun h' => h ⟨rfl, h'⟩)]
      simp [hb]

theorem splitLoop_splits (hlimit : limit < 2 ^ 61) (bytes : List UInt8) {fields : FieldArray}
    {values : List Text} {texts : List CString} {buffer : TextBuffer} {text : List UInt8}
    (pending : Bool) (hb : Holds limit buffer text) (hroom : text.length + bytes.length + 1 ≤ limit)
    (hcount : values.length + bytes.length + 1 ≤ limit) (hclean : 0 ∉ text ++ bytes)
    (hl : Lists fields values) (ht : Texts values texts)
    (hheld : textIds values + ids fields + ids buffer.chunk ≤ m.live) :
    Splits m (textIds values + ids fields + ids buffer.chunk)
      (splitLoop bytes m fields values.length buffer pending)
      (splitFrom bytes texts text pending) := by
  have hsmall : values.length + 1 < 2 ^ 61 := by omega
  induction bytes generalizing m fields values texts buffer text pending with
  | nil =>
    rw [List.append_nil] at hclean
    rw [List.length_nil] at hroom
    cases pending with
    | true => exact abandon_splits hl hheld (.inl rfl)
    | false =>
      obtain ⟨m₁, closed, hclose, hnone, hsome⟩ :=
        closeField_keeps (by omega) hb hroom hclean hl hsmall hheld
      rw [splitLoop, if_neg (by decide), hclose, ok_bind, splitFrom, if_neg (by decide)]
      cases closed with
      | none =>
        obtain ⟨hk, hwhy⟩ := hnone rfl
        refine ⟨m₁, none, rfl, fun _ => ⟨hk, hwhy.imp_left fun h => ?_⟩, fun _ _ hr => by cases hr⟩
        rw [h]
        rfl
      | some closed =>
        obtain ⟨fields', buffer'⟩ := closed
        obtain ⟨v, field, hfield, hv, hl', -, hk⟩ := hsome _ _ rfl
        obtain ⟨m₂, hfree, hk₂⟩ := free_keeps (held_right (hk.held hheld))
        have hk₂ := (hk₂.frame (textIds (values ++ [some v]) + ids fields')).cast (add_comm _ _)
          (zero_add _)
        refine ⟨m₂, some (fields', values.length + 1), ?_, fun hr => (by cases hr), ?_⟩
        · dsimp only
          rw [hfree, ok_bind]
        · rintro _ _ hr
          cases hr
          refine ⟨values ++ [some v], texts ++ [field], by rw [hfield]; rfl, by simp, hl',
            texts_append ht hv, hk.trans hk₂⟩
  | cons b rest ih =>
    rw [List.length_cons] at hroom hcount
    by_cases hbar : pending = false ∧ b = 124
    · obtain ⟨rfl, rfl⟩ := hbar
      have hclean' : 0 ∉ text := fun h => hclean (List.mem_append_left _ h)
      have hrest : 0 ∉ [] ++ rest := fun h =>
        hclean (List.mem_append_right _ (List.mem_cons_of_mem _ h))
      obtain ⟨m₁, closed, hclose, hnone, hsome⟩ :=
        closeField_keeps (by omega) hb (by omega) hclean' hl hsmall hheld
      rw [splitLoop, if_pos ⟨rfl, rfl⟩, hclose, ok_bind, splitFrom, if_neg (by decide),
        if_pos rfl]
      cases closed with
      | none =>
        obtain ⟨hk, hwhy⟩ := hnone rfl
        refine ⟨m₁, none, rfl, fun _ => ⟨hk, hwhy.imp_left fun h => ?_⟩, fun _ _ hr => by cases hr⟩
        rw [h]
      | some closed =>
        obtain ⟨fields', buffer'⟩ := closed
        obtain ⟨v, field, hfield, hv, hl', hb', hk⟩ := hsome _ _ rfl
        have hlength : (values ++ [some v]).length = values.length + 1 := by simp
        rw [hfield]
        have h := @ih m₁ fields' (values ++ [some v]) (texts ++ [field])
          { buffer' with length := 0 } [] false (holds_reset hb')
          (by rw [List.length_nil]; omega) (by rw [hlength]; omega) hrest hl'
          (texts_append ht hv) (hk.held hheld) (by rw [hlength]; omega)
        rw [hlength] at h
        exact h.after hk
    · obtain ⟨m₁, buffer₁, ok, happend, hk, hok, hno⟩ :=
        appendChar_holds (m := m) (by omega) hb (by omega) (held_right hheld) b
      have hk₁ := (hk.frame (textIds values + ids fields)).cast (add_comm _ _) (add_comm _ _)
      rw [splitLoop, if_neg hbar, happend, ok_bind, splitFrom_byte hbar]
      dsimp only
      cases ok with
      | false =>
        rw [if_neg (by decide)]
        obtain ⟨m', hrun, hk'⟩ := @abandon_keeps m₁ (FieldArray × ℕ) _ _ hl _ (hk₁.held hheld)
        exact ⟨m', none, hrun, fun _ => ⟨hk₁.trans hk', .inr (hno rfl)⟩, fun _ _ hr => by cases hr⟩
      | true =>
        rw [if_pos rfl]
        have h := @ih m₁ fields values texts buffer₁ (text ++ [b]) (!pending && b = 92) (hok rfl)
          (by simp; omega) (by omega) (by simpa using hclean) hl ht (hk₁.held hheld) hsmall
        exact h.after hk₁

end Splitting

def rowIds (row : RowBlock) : Multiset ℕ :=
  match row.values with
  | none => 0
  | some array =>
    ((array.cells.take row.count).map (fun cell => ids (cell.getD none))).sum + ids (some array)

def RowHolds (block : RowBlock) (row : Row) : Prop :=
  ∃ values, Leads block.values values ∧ block.count = values.length ∧ Texts values row

theorem rowIds_eq {fields : FieldArray} {values : List Text} (h : Leads fields values) :
    rowIds ⟨fields, values.length⟩ = textIds values + ids fields := by
  cases fields with
  | none =>
    obtain rfl : values = [] := h
    rfl
  | some array =>
    obtain ⟨rest, hrest⟩ : Starts array.cells values := h
    have htake : array.cells.take values.length = values.map some := by
      rw [← hrest, List.take_left' (List.length_map _)]
    rw [rowIds, textIds, totalIds]
    dsimp only
    rw [htake, List.map_map]
    rfl

section Rows

variable {m : Memory}

theorem freeRow_keeps {block : RowBlock} {row : Row} (h : RowHolds block row)
    (hheld : rowIds block ≤ m.live) :
    ∃ m', freeRow m block = .ok m' ∧ Keeps m m' (rowIds block) 0 := by
  obtain ⟨fields, count⟩ := block
  obtain ⟨values, hl, rfl, -⟩ := h
  rw [rowIds_eq hl] at hheld ⊢
  exact freeFieldArray_keeps hl hheld

theorem dupBytes_keeps (m : Memory) (text : CString) :
    ∃ m' copy, dupBytes m text.bytes = .ok (m', copy) ∧ Keeps m m' 0 (ids copy) ∧
      (copy = none → false ∈ m.plan) ∧ (copy ≠ none → Reads copy text) := by
  obtain ⟨m', p, hcall, hkeeps, hnone, hsome⟩ :=
    malloc_keeps (α := UInt8) m (text.bytes.length + 1)
  rw [dupBytes, hcall]
  cases p with
  | none => exact ⟨m', none, rfl, hkeeps, hnone, fun h => absurd rfl h⟩
  | some c =>
    have hroom : (text.bytes ++ [0]).length ≤ c.cells.length := by simp [hsome c rfl]
    obtain ⟨w, hwrite, hid, -, hw⟩ :=
      writeCells_starts (mem_of_held (hkeeps.held (Multiset.zero_le _))) hroom
    refine ⟨m', some w, ?_, hkeeps.cast rfl (by rw [ids, ids, hid]), fun h => (by cases h),
      fun _ => ⟨w, rfl, hw⟩⟩
    dsimp only
    rw [hwrite, ok_bind]

theorem textBytes_reads {value : Text} {text : CString} (h : Reads value text)
    (hheld : ids value ≤ m.live) : textBytes m value = .ok text.bytes := by
  obtain ⟨c, rfl, hc⟩ := h
  exact readString_starts (mem_of_held hheld) hc text.nulFree

theorem valueBytes_holds {block : RowBlock} {row : Row} (h : RowHolds block row)
    (hheld : rowIds block ≤ m.live) {i : ℕ} {text : CString} (hi : row[i]? = some text) :
    valueBytes m block i = .ok text.bytes := by
  obtain ⟨fields, count⟩ := block
  obtain ⟨values, hl, rfl, ht⟩ := h
  rw [rowIds_eq hl] at hheld
  obtain ⟨hrow, rfl⟩ := List.getElem?_eq_some_iff.mp hi
  have hlength : values.length = row.length := List.Forall₂.length_eq ht
  have hvalues : values[i]? = some values[i] := List.getElem?_eq_getElem (hlength ▸ hrow)
  cases fields with
  | none =>
    obtain rfl : values = [] := hl
    cases hvalues
  | some array =>
    have hstarts : Starts array.cells values := hl
    have hreads : Reads values[i] row[i] := List.Forall₂.get ht (hlength ▸ hrow) hrow
    have hle : ids values[i] ≤ textIds values := le_totalIds ids (List.getElem_mem _)
    rw [valueBytes]
    dsimp only
    rw [readCell_starts (mem_of_held (held_right hheld)) hstarts hvalues, ok_bind]
    exact textBytes_reads hreads (hle.trans (held_left hheld))

theorem texts_length {values : List Text} {texts : List CString} (h : Texts values texts) :
    values.length = texts.length := List.Forall₂.length_eq h

theorem padFields_keeps (n : ℕ) {array : Chunk Text} {values : List Text} {texts : List CString}
    (hstarts : Starts array.cells values) (hroom : values.length + n ≤ array.cells.length)
    (ht : Texts values texts) (hheld : textIds values + ids (some array) ≤ m.live) :
    ∃ m' fields count ok row, padFields n values.length m array = .ok (m', fields, count, ok) ∧
      RowHolds ⟨fields, count⟩ row ∧
      Keeps m m' (textIds values + ids (some array)) (rowIds ⟨fields, count⟩) ∧
      (ok = true → row = texts ++ List.replicate n .empty) ∧ (ok = false → false ∈ m.plan) := by
  induction n generalizing m array values texts with
  | zero =>
    have hl : Leads (some array) values := hstarts
    refine ⟨m, some array, values.length, true, texts, rfl, ⟨values, hl, rfl, ht⟩, ?_, ?_, ?_⟩
    · rw [rowIds_eq hl]
      exact Keeps.refl m _
    · intro _
      rw [List.replicate_zero, List.append_nil]
    · exact fun h => by cases h
  | succ n ih =>
    obtain ⟨m₁, value, hdup, hk, hno, hyes⟩ := dupBytes_keeps m .empty
    have hk₁ := (hk.frame (textIds values + ids (some array))).cast (zero_add _) rfl
    have hheld₁ := hk₁.held hheld
    obtain ⟨w, hwrite, hid, hlen, hw⟩ :=
      writeCell_starts (mem_of_held (held_right (held_right hheld₁))) hstarts (by omega) value
    have hids : ids (some w) = ids (some array) := by rw [ids, ids, hid]
    change dupBytes m [] = .ok (m₁, value) at hdup
    rw [padFields, dupString, textBytes, ok_bind, hdup, ok_bind]
    dsimp only
    rw [hwrite, ok_bind]
    cases value with
    | none =>
      have hl : Leads (some w) values := GrowableText.starts_of_append hw
      have hk₁ := hk₁.cast rfl (show _ = textIds values + ids (some w) by rw [hids]; exact zero_add _)
      obtain ⟨m', hfree, hk'⟩ := freeFieldArray_keeps hl (hk₁.held hheld)
      refine ⟨m', none, 0, false, [], ?_, ⟨[], rfl, rfl, List.Forall₂.nil⟩, hk₁.trans hk', ?_, ?_⟩
      · dsimp only
        rw [hfree, ok_bind]
      · exact fun h => by cases h
      · exact fun _ => hno rfl
    | some v =>
      have hk₁ := hk₁.cast rfl (show _ = textIds (values ++ [some v]) + ids (some w) by
        rw [hids, textIds_append, textIds_singleton]
        abel)
      have hlength : (values ++ [some v]).length = values.length + 1 := by simp
      have ht' : Texts (values ++ [some v]) (texts ++ [.empty]) :=
        List.rel_append ht (List.Forall₂.cons (hyes (by simp)) List.Forall₂.nil)
      obtain ⟨m', fields, count, ok, row, hrun, hrow, hk', hyes', hno'⟩ :=
        ih hw (by rw [hlength, hlen]; omega) ht' (hk₁.held hheld)
      rw [hlength] at hrun
      refine ⟨m', fields, count, ok, row, hrun, hrow, hk₁.trans hk', ?_, fun h =>
        hk₁.refused (hno' h)⟩
      intro h
      rw [hyes' h, List.replicate_succ, List.append_assoc]
      rfl

/-- The fields from the expected count on are freed; the array goes with them when none is left. -/
theorem cutFields_keeps {array : Chunk Text} {values : List Text} {texts : List CString}
    (hstarts : Starts array.cells values) (ht : Texts values texts) {expected : ℕ}
    (hlt : expected < values.length) (hheld : textIds values + ids (some array) ≤ m.live) :
    ∃ m' fields count, normalizeFieldCount m (some array) values.length expected =
        .ok (m', fields, count, true) ∧
      RowHolds ⟨fields, count⟩ (texts.take expected) ∧
      Keeps m m' (textIds values + ids (some array)) (rowIds ⟨fields, count⟩) := by
  have hsplit : values.take expected ++ values.drop expected = values := List.take_append_drop _ _
  have hids : textIds values + ids (some array) =
      textIds (values.drop expected) + ids (some array) + textIds (values.take expected) := by
    conv_lhs => rw [← hsplit]
    rw [textIds_append]
    abel
  have htake : (values.take expected).length = expected := List.length_take_of_le hlt.le
  rw [hids] at hheld ⊢
  obtain ⟨m₁, hrun, hk⟩ := @freeEach_keeps _ m free ids array (values.drop expected)
    (values.take expected) [] (fun v _ => free_releases v) (by rw [List.append_nil, hsplit]; exact hstarts) (held_left hheld)
  rw [List.length_drop, htake] at hrun
  have hk₁ := (hk.frame (textIds (values.take expected))).cast rfl (add_comm _ _)
  rw [normalizeFieldCount, if_neg (by omega), if_pos hlt, hrun, ok_bind]
  by_cases hzero : expected = 0
  · subst hzero
    rw [if_pos rfl]
    have hk₁ := hk₁.cast rfl (show _ = ids (some array) from zero_add _)
    obtain ⟨m', hfree, hk'⟩ := free_keeps (hk₁.held hheld)
    refine ⟨m', none, 0, ?_, ⟨[], rfl, rfl, List.Forall₂.nil⟩, hk₁.trans hk'⟩
    rw [hfree, ok_bind]
  · rw [if_neg hzero]
    have hl : Leads (some array) (values.take expected) := by
      rw [← hsplit] at hstarts
      exact GrowableText.starts_of_append hstarts
    have hrow := rowIds_eq hl
    rw [htake] at hrow
    refine ⟨m₁, some array, expected, rfl, ⟨values.take expected, hl, htake.symm,
      List.forall₂_take _ ht⟩, ?_⟩
    rw [hrow]
    exact hk₁

theorem normalizeFieldCount_keeps {fields : FieldArray} {values : List Text}
    {texts : List CString} (hl : Lists fields values) (ht : Texts values texts) {expected : ℕ}
    (hexpected : expected < 2 ^ 61) (hheld : textIds values + ids fields ≤ m.live) :
    ∃ m' fields' count ok row, normalizeFieldCount m fields values.length expected =
        .ok (m', fields', count, ok) ∧ RowHolds ⟨fields', count⟩ row ∧
      Keeps m m' (textIds values + ids fields) (rowIds ⟨fields', count⟩) ∧
      (ok = true → row = StorageModel.normalizeFieldCount texts expected) ∧
      (ok = false → false ∈ m.plan) := by
  have hlength := texts_length ht
  have hstay : RowHolds ⟨fields, values.length⟩ texts := ⟨values, hl.leads, rfl, ht⟩
  have hsame : textIds values + ids fields = rowIds ⟨fields, values.length⟩ :=
    (rowIds_eq hl.leads).symm
  rcases Nat.lt_trichotomy expected values.length with hlt | heq | hgt
  · cases fields with
    | none =>
      obtain rfl : values = [] := hl
      exact absurd hlt (Nat.not_lt_zero _)
    | some array =>
      obtain ⟨m', fields', count, hrun, hrow, hk⟩ := cutFields_keeps hl.leads ht hlt hheld
      refine ⟨m', fields', count, true, _, hrun, hrow, hk, fun _ => ?_, fun h => by cases h⟩
      rw [StorageModel.normalizeFieldCount, ← hlength, Nat.sub_eq_zero_of_le hlt.le,
        List.replicate_zero, List.append_nil]
  · refine ⟨m, fields, values.length, true, texts, if_pos heq.symm, hstay, ?_, fun _ => ?_,
      fun h => by cases h⟩
    · exact (Keeps.refl m _).cast rfl hsame
    · rw [StorageModel.normalizeFieldCount, heq, hlength, Nat.sub_self, List.take_length,
        List.replicate_zero, List.append_nil]
  · obtain ⟨m₁, grown, hcall, hnone, hsome⟩ := grow_keeps hl (held_right hheld) hgt.le
    unfold normalizeFieldCount
    rw [if_neg (by omega), if_neg (by omega), elements_eq (by omega) (by omega), hcall, ok_bind]
    cases grown with
    | none =>
      obtain ⟨hno, hk⟩ := hnone rfl
      refine ⟨m₁, fields, values.length, false, texts, rfl, hstay, ?_, fun h => (by cases h),
        fun _ => hno⟩
      exact (hk.frame (textIds values)).cast (add_comm _ _) ((add_comm _ _).trans hsame)
    | some array =>
      obtain ⟨hk, hlen, hgrown⟩ := hsome array rfl
      have hk₁ := (hk.frame (textIds values)).cast (add_comm _ _) (add_comm _ _)
      obtain ⟨m', fields', count, ok, row, hrun, hrow, hk', hyes, hno⟩ :=
        padFields_keeps (expected - values.length) hgrown (by omega) ht (hk₁.held hheld)
      refine ⟨m', fields', count, ok, row, hrun, hrow, hk₁.trans hk', fun h => ?_, fun h =>
        hk₁.refused (hno h)⟩
      rw [hyes h, StorageModel.normalizeFieldCount, hlength,
        List.take_of_length_le (by omega)]

theorem splitEscapedRow_splits {line : Chunk UInt8} {raw : List UInt8}
    (hstarts : Starts line.cells (raw ++ [0])) (hline : line.id ∈ m.live)
    (hsize : raw.length + 1 < 2 ^ 61) :
    Splits m 0 (splitEscapedRow m line) (StorageModel.splitEscapedRow (.ofBuffer raw)) := by
  have hlength : (raw.takeWhile (· ≠ 0)).length ≤ raw.length :=
    (List.takeWhile_prefix _).length_le
  have hzero : textIds [] + ids (none : FieldArray) + ids (none : Text) = 0 := rfl
  have hfresh : Holds (raw.length + 1) ⟨none, 0, 0⟩ [] := rfl
  have hempty : Lists (none : FieldArray) [] := rfl
  rw [splitEscapedRow, readString_takeWhile hline hstarts, ok_bind, StorageModel.splitEscapedRow,
    ← hzero]
  refine splitLoop_splits hsize (CString.ofBuffer raw).bytes false hfresh ?_ ?_ ?_ hempty
    List.Forall₂.nil (Multiset.zero_le _)
  · change 0 + (raw.takeWhile (· ≠ 0)).length + 1 ≤ raw.length + 1
    omega
  · change 0 + (raw.takeWhile (· ≠ 0)).length + 1 ≤ raw.length + 1
    omega
  · rw [List.nil_append]
    exact (CString.ofBuffer raw).nulFree

/-- `parse_line_into_row` of a line in memory: the row of the model, in blocks of its own, or
nothing. -/
theorem parseLineIntoRow_keeps {line : Chunk UInt8} {raw : List UInt8}
    (hstarts : Starts line.cells (raw ++ [0])) (hline : line.id ∈ m.live)
    (hsize : raw.length + 1 < 2 ^ 61) {expected : ℕ} (hexpected : expected < 2 ^ 61) :
    ∃ m' result, parseLineIntoRow m line expected = .ok (m', result) ∧
      (result = none → Keeps m m' 0 0 ∧
        (StorageModel.parseLineIntoRow (.ofBuffer raw) expected = none ∨ false ∈ m.plan)) ∧
      ∀ block, result = some block → ∃ row, RowHolds block row ∧ Keeps m m' 0 (rowIds block) ∧
        StorageModel.parseLineIntoRow (.ofBuffer raw) expected = some row := by
  obtain ⟨m₁, split, hrun, hnone, hsome⟩ := splitEscapedRow_splits hstarts hline hsize
  rw [parseLineIntoRow, hrun, ok_bind, StorageModel.parseLineIntoRow]
  cases split with
  | none =>
    obtain ⟨hk, hwhy⟩ := hnone rfl
    refine ⟨m₁, none, rfl, fun _ => ⟨hk, hwhy.imp_left fun h => ?_⟩, fun _ h => by cases h⟩
    rw [h]
    rfl
  | some split =>
    obtain ⟨fields, count⟩ := split
    obtain ⟨values, texts, hrow, rfl, hl, ht, hk⟩ := hsome fields count rfl
    obtain ⟨m₂, fields', count', ok, row, hnorm, hholds, hk₂, hyes, hno⟩ :=
      normalizeFieldCount_keeps hl ht hexpected (hk.held (Multiset.zero_le _))
    have hk₂ := hk.trans hk₂
    dsimp only
    rw [hnorm, ok_bind, hrow]
    dsimp only
    cases ok with
    | true =>
      rw [if_pos rfl]
      refine ⟨m₂, _, rfl, fun h => (by cases h), ?_⟩
      rintro _ ⟨⟩
      refine ⟨row, hholds, hk₂, ?_⟩
      rw [hyes rfl]
      rfl
    | false =>
      obtain ⟨m₃, hfree, hk₃⟩ := freeRow_keeps hholds (hk₂.held (Multiset.zero_le _))
      rw [freeRow] at hfree
      rw [if_neg (by decide), hfree, ok_bind]
      exact ⟨m₃, none, rfl, fun _ => ⟨hk₂.trans hk₃, .inr (hk.refused (hno rfl))⟩,
        fun _ h => by cases h⟩

end Rows

end RowMemory
