import ThreadedDb.RowMemory
import ThreadedDb.StorageRoundTrip

/-!
# Tables in memory

`scan_table_rows_with_offsets` and `read_all_rows_from_table` as programs over memory: each line is
read into a buffer of its own, taken apart, copied into the array of rows and freed. A scan that
fails, for a malformed line or for want of memory, gives back every block; one that succeeds leaves
the rows of `StorageModel` and nothing else.
-/
namespace TableMemory

open ByteText
open SchemaModel (Disk dataPath stripCr readLines fileLines)
open StorageModel (Row storageError quoted)
open GrowableText (Starts starts_nil starts_of_append)
open OwnedMemory
open RowMemory
open CheckedArray (Checked ok_bind)

inductive LineRead where
  | failed
  | atEnd
  | line (buffer : Chunk UInt8) (rest : Bytes)

def closeLine (m : Memory) (c : Chunk UInt8) (length : ℕ) (rest : Bytes) (eof : Bool) :
    Checked (Memory × LineRead) :=
  if eof = true ∧ length = 0 then do
    let m ← free m (some c)
    .ok (m, .atEnd)
  else if 0 < length then do
    let last ← readCell m c (length - 1)
    let c ← writeCell m c (if last = 13 then length - 1 else length) 0
    .ok (m, .line c rest)
  else do
    let c ← writeCell m c length 0
    .ok (m, .line c rest)

def readLoop (m : Memory) : Bytes → Chunk UInt8 → ℕ → ℕ → Checked (Memory × LineRead)
  | [], c, length, _ => closeLine m c length [] true
  | b :: rest, c, length, capacity =>
    if b = 10 then closeLine m c length rest false
    else do
      let (m, buffer, ok) ← appendTo m c length capacity b
      match ok, buffer.chunk with
      | true, some c => readLoop m rest c buffer.length buffer.capacity
      | _, chunk => do
        let m ← free m chunk
        .ok (m, .failed)

def readLine (m : Memory) (file : Bytes) : Checked (Memory × LineRead) :=
  match malloc m 128 with
  | (m, none) => .ok (m, .failed)
  | (m, some c) => readLoop m file c 0 128

/-- Copies of what `fetch` reads go into an array of NULLs, from cell `i` on; a copy that cannot be
made ends this with the row freed. -/
def fillValues (fetch : Memory → ℕ → Checked Bytes) (count : ℕ) :
    ℕ → ℕ → Memory → Chunk Text → Checked (Memory × RowBlock × Bool)
  | 0, _, m, array => .ok (m, ⟨some array, count⟩, true)
  | n + 1, i, m, array => do
    let bytes ← fetch m i
    let (m, copy) ← dupBytes m bytes
    let array ← writeCell m array i copy
    match copy with
    | none => do
      let m ← freeRow m ⟨some array, count⟩
      .ok (m, ⟨none, 0⟩, false)
    | some _ => fillValues fetch count n (i + 1) m array

def makeRow (fetch : Memory → ℕ → Checked Bytes) (m : Memory) (count : ℕ) :
    Checked (Memory × RowBlock × Bool) :=
  match calloc m count (none : Text) with
  | (m, none) => .ok (m, ⟨none, 0⟩, false)
  | (m, some array) => fillValues fetch count count 0 m array

def copyRow (m : Memory) (src : RowBlock) : Checked (Memory × RowBlock × Bool) :=
  if src.count = 0 then .ok (m, ⟨none, 0⟩, true)
  else makeRow (fun m i => valueBytes m src i) m src.count

abbrev RowArray := Option (Chunk RowBlock)

inductive Pushed where
  | done
  | noArray
  | noCopy

/-- A copy of the row at the end of an array of rows, as `read_all_rows_callback` and
`append_result_row` make it. -/
def pushRow (m : Memory) (state : RowArray × ℕ) (row : RowBlock) :
    Checked (Memory × (RowArray × ℕ) × Pushed) := do
  let (m, grown) ← realloc m state.1 (elements 16 (state.2 + 1))
  match grown with
  | none => .ok (m, state, .noArray)
  | some rows => do
    let (m, copy, ok) ← copyRow m row
    let rows ← writeCell m rows state.2 copy
    if ok then .ok (m, (some rows, state.2 + 1), .done)
    else .ok (m, (some rows, state.2), .noCopy)

/-- What a callback returns: 0, 1, or -1 with the error text it left. -/
inductive Status where
  | proceed
  | stop
  | fail (message : CString)

def readAllRowsCallback (m : Memory) (state : RowArray × ℕ) (row : RowBlock) (_rowOffset : ℕ) :
    Checked (Memory × (RowArray × ℕ) × Status) := do
  let (m, state, pushed) ← pushRow m state row
  match pushed with
  | .done => .ok (m, state, .proceed)
  | .noArray => .ok (m, state, .fail (setError (.lit "failed to allocate row array")))
  | .noCopy => .ok (m, state, .fail (setError (.lit "failed to copy table row")))

section Scan

variable {σ : Type}

def scanLoop (dataPath tableName : CString) (expectedColumnCount : ℕ)
    (callback : Memory → σ → RowBlock → ℕ → Checked (Memory × σ × Status)) :
    ℕ → ℕ → Bytes → ℕ → Memory → σ → Checked (Memory × σ × Except EngineError Unit)
  | 0, _, _, _, m, state => .ok (m, state, .ok ())
  | rounds + 1, offset, file, lineNumber, m, state => do
    let (m, read) ← readLine m file
    match read with
    | .atEnd => .ok (m, state, .ok ())
    | .failed =>
      .ok (m, state, .error (storageError (.lit "failed to read data file " ++ quoted dataPath)))
    | .line line rest => do
      let (m, parsed) ← parseLineIntoRow m line expectedColumnCount
      match parsed with
      | none => do
        let m ← free m (some line)
        .ok (m, state, .error (storageError (.lit "malformed row " ++ decimal (lineNumber + 1) ++
          .lit " in table " ++ quoted tableName)))
      | some row => do
        let (m, state, status) ← callback m state row offset
        let m ← freeRow m row
        let m ← free m (some line)
        match status with
        | .proceed =>
          scanLoop dataPath tableName expectedColumnCount callback rounds
            (offset + (file.length - rest.length)) rest (lineNumber + 1) m state
        | .stop => .ok (m, state, .ok ())
        | .fail message =>
          if message.bytes = [] then
            .ok (m, state, .error (storageError (.lit "row scan callback failed for table " ++
              quoted tableName)))
          else .ok (m, state, .error ⟨.storageError, message⟩)

def buildDataPath (m : Memory) (dbDir tableName : CString) : Checked (Memory × Text) :=
  dupBytes m (dataPath dbDir tableName).bytes

def scanTableRowsWithOffsets (m : Memory) (file : Option Bytes) (dbDir tableName : CString)
    (expectedColumnCount : ℕ)
    (callback : Memory → σ → RowBlock → ℕ → Checked (Memory × σ × Status)) (state : σ) :
    Checked (Memory × σ × Except EngineError Unit) := do
  let (m, path) ← buildDataPath m dbDir tableName
  match path, file with
  | none, _ =>
    .ok (m, state, .error (storageError (.lit "failed to allocate data path for table " ++
      quoted tableName)))
  | some _, none => do
    let m ← free m path
    .ok (m, state, .ok ())
  | some _, some bytes => do
    let (m, state, status) ← scanLoop (dataPath dbDir tableName) tableName expectedColumnCount
      callback (bytes.length + 1) 0 bytes 0 m state
    let m ← free m path
    .ok (m, state, status)

end Scan

def freeRows (m : Memory) (rows : RowArray) (rowCount : ℕ) : Checked Memory :=
  freeArray freeRow m rows rowCount

def readAllRowsFromTable (m : Memory) (file : Option Bytes) (dbDir tableName : CString)
    (expectedColumnCount : ℕ) : Checked (Memory × Except EngineError (RowArray × ℕ)) := do
  let (m, state, status) ← scanTableRowsWithOffsets m file dbDir tableName expectedColumnCount
    readAllRowsCallback (none, 0)
  match status with
  | .ok _ => .ok (m, .ok state)
  | .error e => do
    let m ← freeRows m state.1 state.2
    .ok (m, .error e)

section Lines

variable {m : Memory}

/-- A call with the blocks `old` in hand reads the first line of the file into a block, or gives all
back at the end of the file or for want of memory. -/
def ReadsLine (m : Memory) (old : Multiset ℕ) (call : Checked (Memory × LineRead)) (file : Bytes) :
    Prop :=
  ∃ m' read, call = .ok (m', read) ∧
    (read = .failed → Keeps m m' old 0 ∧ false ∈ m.plan) ∧
    (read = .atEnd → Keeps m m' old 0 ∧ SchemaModel.readLine file = none) ∧
    ∀ c rest, read = .line c rest → Keeps m m' old (ids (some c)) ∧
      ∃ raw, SchemaModel.readLine file = some (.ofBuffer raw, rest) ∧
        Starts c.cells (raw ++ [0]) ∧ raw.length ≤ file.length

theorem ReadsLine.after {m' : Memory} {old mid : Multiset ℕ} {call : Checked (Memory × LineRead)}
    {file : Bytes} (hk : Keeps m m' old mid) (h : ReadsLine m' mid call file) :
    ReadsLine m old call file := by
  obtain ⟨m'', read, hcall, hfailed, hend, hline⟩ := h
  refine ⟨m'', read, hcall, ?_, ?_, ?_⟩
  · intro hr
    exact ⟨hk.trans (hfailed hr).1, hk.refused (hfailed hr).2⟩
  · intro hr
    exact ⟨hk.trans (hend hr).1, (hend hr).2⟩
  · intro c rest hr
    exact ⟨hk.trans (hline c rest hr).1, (hline c rest hr).2⟩

theorem writeEnd_starts {c : Chunk UInt8} {text : Bytes} (hstarts : Starts c.cells text)
    (hroom : text.length < c.cells.length) (hheld : ids (some c) ≤ m.live) (rest : Bytes)
    (eof : Bool) (hmore : ¬(eof = true ∧ text.length = 0)) :
    ∃ c', closeLine m c text.length rest eof = .ok (m, .line c' rest) ∧ c'.id = c.id ∧
      Starts c'.cells (stripCr text ++ [0]) := by
  have hmem := mem_of_held hheld
  rw [closeLine, if_neg hmore]
  rcases List.eq_nil_or_concat text with rfl | ⟨front, last, rfl⟩
  · obtain ⟨w, hwrite, hid, -, hw⟩ := writeCell_starts hmem hstarts hroom 0
    refine ⟨w, ?_, hid, hw⟩
    rw [if_neg (by simp), hwrite, ok_bind]
  · rw [List.concat_eq_append] at hstarts hroom ⊢
    have hread : readCell m c ((front ++ [last]).length - 1) = .ok last :=
      readCell_starts hmem hstarts (by simp)
    have hlength : (front ++ [last]).length - 1 = front.length := by simp
    rw [if_pos (by simp), hread, ok_bind]
    by_cases hcr : last = 13
    · subst hcr
      obtain ⟨w, hwrite, hid, -, hw⟩ := writeCell_starts hmem (starts_of_append hstarts)
        (by simp at hroom; omega) 0
      refine ⟨w, ?_, hid, ?_⟩
      · rw [if_pos rfl, hlength, hwrite, ok_bind]
      · rw [stripCr, if_pos (by simp), List.dropLast_concat]
        exact hw
    · obtain ⟨w, hwrite, hid, -, hw⟩ := writeCell_starts hmem hstarts hroom 0
      refine ⟨w, ?_, hid, ?_⟩
      · rw [if_neg hcr, hwrite, ok_bind]
      · rw [stripCr, if_neg (by simp [hcr])]
        exact hw

theorem stripCr_length (text : Bytes) : (stripCr text).length ≤ text.length := by
  unfold stripCr
  split
  · rw [List.length_dropLast]
    omega
  · exact Nat.le_refl _

theorem takeWhile_line {text : Bytes} (htext : 10 ∉ text) (file : Bytes) :
    (text ++ file).takeWhile (· ≠ 10) = text ++ file.takeWhile (· ≠ 10) := by
  rw [List.takeWhile_append_of_pos]
  intro b hb
  exact decide_eq_true (fun heq => htext (heq ▸ hb))

theorem readLine_text {text : Bytes} (htext : 10 ∉ text) {file : Bytes}
    (hfile : file.takeWhile (· ≠ 10) = []) (hmore : text ++ file ≠ []) :
    SchemaModel.readLine (text ++ file) = some (.ofBuffer (stripCr text), file.drop 1) := by
  rw [SchemaModel.readLine, if_neg hmore, takeWhile_line htext, hfile, List.append_nil,
    List.drop_append]
  simp

theorem closeLine_reads {c : Chunk UInt8} {text : Bytes} (hstarts : Starts c.cells text)
    (hroom : text.length < c.cells.length) (htext : 10 ∉ text) (file : Bytes)
    (hfile : file.takeWhile (· ≠ 10) = []) (hheld : ids (some c) ≤ m.live) :
    ReadsLine m (ids (some c)) (closeLine m c text.length (file.drop 1) (file = []))
      (text ++ file) := by
  by_cases hend : file = [] ∧ text = []
  · obtain ⟨rfl, rfl⟩ := hend
    obtain ⟨m', hfree, hk⟩ := free_keeps hheld
    refine ⟨m', .atEnd, ?_, fun h => (by cases h), fun _ => ⟨hk, rfl⟩, fun _ _ h => by cases h⟩
    rw [closeLine, if_pos (by simp), hfree, ok_bind]
  · have hmore : ¬(decide (file = []) = true ∧ text.length = 0) := by
      simpa using hend
    obtain ⟨w, hrun, hid, hw⟩ := writeEnd_starts hstarts hroom hheld (file.drop 1) _ hmore
    refine ⟨m, _, hrun, fun h => (by cases h), fun h => (by cases h), ?_⟩
    rintro _ _ ⟨⟩
    refine ⟨(Keeps.refl m _).cast rfl (by rw [ids, ids, hid]), stripCr text, ?_, hw, ?_⟩
    · refine readLine_text htext hfile ?_
      rw [ne_eq, List.append_eq_nil_iff]
      exact fun h => hend h.symm
    · rw [List.length_append]
      exact (stripCr_length text).trans (Nat.le_add_right _ _)

theorem readLoop_reads {limit : ℕ} (hlimit : limit < 2 ^ 62) (file : Bytes) {c : Chunk UInt8}
    {capacity : ℕ} {text : Bytes} (hb : Holds limit ⟨some c, text.length, capacity⟩ text)
    (hroom : text.length + file.length ≤ limit) (htext : 10 ∉ text)
    (hheld : ids (some c) ≤ m.live) :
    ReadsLine m (ids (some c)) (readLoop m file c text.length capacity) (text ++ file) := by
  induction file generalizing m c capacity text with
  | nil =>
    obtain ⟨-, hcells, hstarts, hlt, -⟩ := hb
    exact closeLine_reads hstarts (hcells ▸ hlt) htext [] rfl hheld
  | cons b file ih =>
    rw [List.length_cons] at hroom
    by_cases hline : b = 10
    · subst hline
      obtain ⟨-, hcells, hstarts, hlt, -⟩ := hb
      exact closeLine_reads hstarts (hcells ▸ hlt) htext (10 :: file) rfl hheld
    · obtain ⟨m₁, ⟨chunk, length, capacity'⟩, ok, happend, hk, hok, hno⟩ :=
        appendTo_holds hlimit hb (by omega) hheld b
      rw [readLoop, if_neg hline, happend, ok_bind]
      cases ok with
      | false =>
        obtain ⟨m', hfree, hk'⟩ := free_keeps (hk.held hheld)
        refine ⟨m', .failed, ?_, fun _ => ⟨hk.trans hk', hno rfl⟩, fun h => (by cases h),
          fun _ _ h => by cases h⟩
        dsimp only
        rw [hfree, ok_bind]
      | true =>
        have hb' := hok rfl
        cases chunk with
        | none => exact absurd hb' (by simp [Holds])
        | some c' =>
          obtain rfl : length = (text ++ [b]).length := hb'.1
          have htext' : 10 ∉ text ++ [b] := by
            rw [List.mem_append, List.mem_singleton, not_or]
            exact ⟨htext, fun h => hline h.symm⟩
          have h := ih hb' (by simp; omega) htext' (hk.held hheld)
          rw [List.append_assoc] at h
          exact h.after hk

theorem readLine_reads (m : Memory) {file : Bytes} (hfile : file.length < 2 ^ 61) :
    ReadsLine m 0 (readLine m file) file := by
  obtain ⟨m₁, p, hcall, hk, hnone, hsome⟩ := malloc_keeps (α := UInt8) m 128
  rw [readLine, hcall]
  cases p with
  | none =>
    exact ⟨m₁, .failed, rfl, fun _ => ⟨hk, hnone rfl⟩, fun h => (by cases h),
      fun _ _ h => by cases h⟩
  | some c =>
    have hfresh : Holds (file.length + 64) ⟨some c, ([] : Bytes).length, 128⟩ [] := by
      refine ⟨rfl, ?_, starts_nil _, Nat.succ_pos 127, ?_⟩
      · rw [hsome c rfl, List.length_replicate]
      · dsimp only
        omega
    have h := readLoop_reads (by omega) file hfresh (by simp) (by simp)
      (hk.held (Multiset.zero_le _))
    exact h.after hk

theorem readLine_shorter {file rest : Bytes} {line : CString}
    (h : SchemaModel.readLine file = some (line, rest)) : rest.length < file.length := by
  by_cases hfile : file = []
  · rw [SchemaModel.readLine, if_pos hfile] at h
    cases h
  · rw [SchemaModel.readLine, if_neg hfile] at h
    cases h
    have hpos := List.length_pos_iff.mpr hfile
    rw [List.length_drop]
    omega

end Lines

section Copies

variable {m : Memory}

theorem textIds_null (n : ℕ) : textIds (List.replicate n none) = 0 := by
  rw [textIds, totalIds, List.map_replicate, List.sum_replicate]
  exact nsmul_zero n

/-- The rest of the texts is copied behind those that are there; NULLs fill the array. What is
fetched lies in `shared`. -/
theorem fillValues_keeps {fetch : Memory → ℕ → Checked Bytes} {shared : Multiset ℕ}
    (now : List CString) {done : List Text} {array : Chunk Text} {texts : List CString}
    (hfetch : ∀ m : Memory, shared ≤ m.live → ∀ j text, now[j]? = some text →
      fetch m (done.length + j) = .ok text.bytes)
    (harray : array.cells = (done ++ List.replicate now.length none).map some)
    (hdone : Texts done texts) (hheld : textIds done + ids (some array) + shared ≤ m.live) :
    ∃ m' copy ok, fillValues fetch (done.length + now.length) now.length done.length m array =
        .ok (m', copy, ok) ∧ Keeps m m' (textIds done + ids (some array)) (rowIds copy) ∧
      (ok = true → RowHolds copy (texts ++ now)) ∧
      (ok = false → copy = ⟨none, 0⟩ ∧ false ∈ m.plan) := by
  induction now generalizing m done array texts with
  | nil =>
    have hl : Lists (some array) done := by
      rw [List.length_nil, List.replicate_zero, List.append_nil] at harray
      exact harray
    refine ⟨m, ⟨some array, done.length⟩, true, rfl, ?_, fun _ => ?_, fun h => by cases h⟩
    · rw [rowIds_eq hl.leads]
      exact Keeps.refl m _
    · rw [List.append_nil]
      exact ⟨done, hl.leads, rfl, hdone⟩
  | cons text now ih =>
    obtain ⟨m₁, copy, hdup, hk, hno, hyes⟩ := dupBytes_keeps m text
    have hfirst : fetch m done.length = .ok text.bytes := hfetch m (held_right hheld) 0 text rfl
    have hk₁ : Keeps m m₁ (textIds done + ids (some array)) (textIds (done ++ [copy]) +
        ids (some array)) := by
      refine ((hk.frame (textIds done + ids (some array))).cast (zero_add _) ?_)
      rw [textIds_append, textIds_singleton]
      abel
    have hheld₁ := (hk₁.frame shared).held hheld
    have hwrite : writeCell m₁ array done.length copy =
        .ok ⟨array.id, (done ++ copy :: List.replicate now.length none).map some⟩ :=
      writeCell_set (mem_of_held (held_right (held_left hheld₁))) harray copy
    have hlength : done.length + (now.length + 1) = (done ++ [copy]).length + now.length := by
      rw [List.length_append, List.length_singleton]
      omega
    rw [List.length_cons, fillValues, hfirst, ok_bind, hdup, ok_bind]
    dsimp only
    rw [hwrite, ok_bind]
    cases copy with
    | none =>
      -- the row is freed with the NULLs it still holds
      have hlists : Lists (some ⟨array.id, (done ++ none :: List.replicate now.length none).map
          some⟩) (done ++ none :: List.replicate now.length none) := rfl
      have hfull : (done ++ none :: List.replicate now.length none).length =
          done.length + (now.length + 1) := by simp
      have hrest : textIds (done ++ none :: List.replicate now.length none) =
          textIds (done ++ [none]) := by
        rw [textIds_append, textIds_append, ← List.replicate_succ, textIds_null,
          textIds_singleton]
        rfl
      obtain ⟨m', hfree, hk'⟩ := @freeFieldArray_keeps m₁ _ _ hlists.leads (by
        rw [hrest]
        exact held_left hheld₁)
      rw [hrest] at hk'
      rw [hfull] at hfree
      refine ⟨m', ⟨none, 0⟩, false, ?_, hk₁.trans hk', fun h => (by cases h),
        fun _ => ⟨rfl, hno rfl⟩⟩
      dsimp only
      rw [freeRow, hfree, ok_bind]
    | some c =>
      obtain ⟨m', copy', ok, hrun, hk', hyes', hno'⟩ := @ih m₁ (done ++ [some c])
        ⟨array.id, (done ++ some c :: List.replicate now.length none).map some⟩ (texts ++ [text])
        (fun m hm j v hv => by
          rw [List.length_append, List.length_singleton, Nat.add_assoc, Nat.add_comm 1]
          exact hfetch m hm (j + 1) v hv)
        (by simp) (List.rel_append hdone (List.Forall₂.cons (hyes (by simp)) List.Forall₂.nil))
        hheld₁
      have hnext : (done ++ [some c]).length = done.length + 1 := by simp
      rw [← hlength, hnext] at hrun
      refine ⟨m', copy', ok, hrun, hk₁.trans hk', ?_, ?_⟩
      · intro h
        rw [List.append_cons]
        exact hyes' h
      · intro h
        exact ⟨(hno' h).1, hk₁.refused (hno' h).2⟩

theorem makeRow_keeps {fetch : Memory → ℕ → Checked Bytes} {shared : Multiset ℕ} (row : Row)
    (hfetch : ∀ m : Memory, shared ≤ m.live → ∀ i text, row[i]? = some text →
      fetch m i = .ok text.bytes) (hheld : shared ≤ m.live) :
    ∃ m' copy ok, makeRow fetch m row.length = .ok (m', copy, ok) ∧ Keeps m m' 0 (rowIds copy) ∧
      (ok = true → RowHolds copy row) ∧ (ok = false → copy = ⟨none, 0⟩ ∧ false ∈ m.plan) := by
  obtain ⟨m₁, p, hcall, hk, hnone, hsome⟩ := calloc_keeps m row.length (none : Text)
  rw [makeRow, hcall]
  cases p with
  | none =>
    exact ⟨m₁, ⟨none, 0⟩, false, rfl, hk, fun h => (by cases h), fun _ => ⟨rfl, hnone rfl⟩⟩
  | some array =>
    have hk₁ := (hk.frame shared).cast (zero_add _) rfl
    obtain ⟨m', copy, ok, hrun, hk', hyes, hno⟩ := @fillValues_keeps m₁ fetch shared row [] array []
      (fun m hm j v hv => by
        rw [List.length_nil, Nat.zero_add]
        exact hfetch m hm j v hv)
      (by rw [hsome array rfl]; simp) List.Forall₂.nil (by
        change 0 + ids (some array) + shared ≤ _
        rw [zero_add]
        exact hk₁.held hheld)
    rw [List.length_nil, Nat.zero_add] at hrun
    exact ⟨m', copy, ok, hrun, hk.trans (hk'.cast (zero_add _) rfl), hyes,
      fun h => ⟨(hno h).1, hk.refused (hno h).2⟩⟩

theorem rowHolds_length {block : RowBlock} {row : Row} (h : RowHolds block row) :
    block.count = row.length := by
  obtain ⟨values, -, hcount, ht⟩ := h
  exact hcount.trans (texts_length ht)

theorem copyRow_keeps {src : RowBlock} {row : Row} (h : RowHolds src row)
    (hheld : rowIds src ≤ m.live) :
    ∃ m' copy ok, copyRow m src = .ok (m', copy, ok) ∧ Keeps m m' 0 (rowIds copy) ∧
      (ok = true → RowHolds copy row) ∧ (ok = false → copy = ⟨none, 0⟩ ∧ false ∈ m.plan) := by
  rw [copyRow, rowHolds_length h]
  by_cases hzero : row.length = 0
  · obtain rfl := List.length_eq_zero_iff.mp hzero
    exact ⟨m, ⟨none, 0⟩, true, rfl, Keeps.refl m 0, fun _ => ⟨[], rfl, rfl, List.Forall₂.nil⟩,
      fun h => by cases h⟩
  · rw [if_neg hzero]
    exact makeRow_keeps row (fun m hm i text hi => valueBytes_holds h hm hi) hheld

end Copies

def rowsIds (blocks : List RowBlock) : Multiset ℕ := totalIds rowIds blocks

/-- The rows of this table, in the blocks `owned`, with room to count `n` more. -/
def RowsHold (n : ℕ) (state : RowArray × ℕ) (owned : Multiset ℕ) (table : List Row) : Prop :=
  ∃ blocks, Lists state.1 blocks ∧ state.2 = blocks.length ∧ List.Forall₂ RowHolds blocks table ∧
    owned = rowsIds blocks + ids state.1 ∧ blocks.length + n < 2 ^ 60

def RowsLead (state : RowArray × ℕ) (owned : Multiset ℕ) : Prop :=
  ∃ blocks table, Leads state.1 blocks ∧ state.2 = blocks.length ∧
    List.Forall₂ RowHolds blocks table ∧ owned = rowsIds blocks + ids state.1

section Rows

variable {m : Memory} {state : RowArray × ℕ} {owned : Multiset ℕ} {table : List Row}

theorem RowsHold.lead {n : ℕ} (h : RowsHold n state owned table) : RowsLead state owned := by
  obtain ⟨blocks, hl, hcount, ht, howned, -⟩ := h
  exact ⟨blocks, table, hl.leads, hcount, ht, howned⟩

theorem RowsHold.skip {n : ℕ} (h : RowsHold (n + 1) state owned table) :
    RowsHold n state owned table := by
  obtain ⟨blocks, hl, hcount, ht, howned, hroom⟩ := h
  exact ⟨blocks, hl, hcount, ht, howned, by omega⟩

theorem rowsHold_none {n : ℕ} (hn : n < 2 ^ 60) : RowsHold n (none, 0) 0 [] :=
  ⟨[], rfl, rfl, List.Forall₂.nil, rfl, by rwa [List.length_nil, Nat.zero_add]⟩

/-- The row joins the others, or for want of memory they stay as they were. -/
theorem pushRow_keeps {n : ℕ} {row : RowBlock} {text : Row}
    (h : RowsHold (n + 1) state owned table) (hrow : RowHolds row text)
    (hheld : owned + rowIds row ≤ m.live) :
    ∃ m' state' owned' pushed, pushRow m state row = .ok (m', state', pushed) ∧
      Keeps m m' owned owned' ∧
      (pushed = .done → RowsHold n state' owned' (table ++ [text])) ∧
      (pushed ≠ .done → false ∈ m.plan ∧ RowsLead state' owned') := by
  obtain ⟨rows, count⟩ := state
  obtain ⟨blocks, hl, rfl, ht, rfl, hroom⟩ := h
  dsimp only at hl hheld ⊢
  obtain ⟨m₁, grown, hcall, hnone, hsome⟩ :=
    grow_keeps hl (held_right (held_left hheld)) (Nat.le_succ blocks.length)
  rw [pushRow, elements_eq (by omega) (by omega), hcall, ok_bind]
  cases grown with
  | none =>
    obtain ⟨hno, hk⟩ := hnone rfl
    refine ⟨m₁, (rows, blocks.length), rowsIds blocks + ids rows, .noArray, rfl,
      (hk.frame (rowsIds blocks)).cast (add_comm _ _) (add_comm _ _), fun h => (by cases h),
      fun _ => ⟨hno, blocks, table, hl.leads, rfl, ht, rfl⟩⟩
  | some array =>
    obtain ⟨hk, hlen, hstarts⟩ := hsome array rfl
    have hk₁ : Keeps m m₁ (rowsIds blocks + ids rows + rowIds row)
        (ids (some array) + (rowsIds blocks + rowIds row)) := by
      refine (hk.frame (rowsIds blocks + rowIds row)).cast ?_ rfl
      abel
    have hheld₁ := hk₁.held hheld
    obtain ⟨m₂, copy, ok, hcopy, hk₂, hyes, hno⟩ :=
      copyRow_keeps hrow (held_right (held_right hheld₁))
    have hheld₂ := ((hk₂.frame _).cast (zero_add _) rfl).held hheld₁
    obtain ⟨w, hwrite, hid, hwlen, hw⟩ :=
      writeCell_starts (mem_of_held (held_left (held_right hheld₂))) hstarts (by omega) copy
    have hids : ids (some w) = ids (some array) := by rw [ids, ids, hid]
    have hkeeps : Keeps m m₂ (rowsIds blocks + ids rows)
        (rowsIds blocks + rowIds copy + ids (some w)) := by
      refine ((hk.frame (rowsIds blocks)).cast (add_comm _ _) rfl).trans
        ((hk₂.frame _).cast (zero_add _) ?_)
      rw [hids]
      abel
    dsimp only
    rw [hcopy, ok_bind]
    dsimp only
    rw [hwrite, ok_bind]
    cases ok with
    | true =>
      refine ⟨m₂, (some w, blocks.length + 1), rowsIds blocks + rowIds copy + ids (some w), .done,
        if_pos rfl, hkeeps, fun _ => ⟨blocks ++ [copy], lists_of_length hw ?_, ?_, ?_, ?_, ?_⟩,
        fun h => absurd rfl h⟩
      · rw [hwlen, hlen, List.length_append, List.length_singleton]
      · rw [List.length_append, List.length_singleton]
      · exact List.rel_append ht (List.Forall₂.cons (hyes rfl) List.Forall₂.nil)
      · rw [rowsIds, rowsIds, totalIds_append, totalIds_cons, totalIds_nil, add_zero]
      · rw [List.length_append, List.length_singleton]
        omega
    | false =>
      obtain ⟨rfl, hrefused⟩ := hno rfl
      refine ⟨m₂, (some w, blocks.length), rowsIds blocks + ids (some w), .noCopy,
        if_neg (by decide), hkeeps.cast rfl ?_, fun h => (by cases h), fun _ =>
        ⟨hk.refused hrefused, blocks, table, starts_of_append hw, rfl, ht, rfl⟩⟩
      rw [show rowIds ⟨none, 0⟩ = 0 from rfl, add_zero]

theorem freeRows_keeps (h : RowsLead state owned) (hheld : owned ≤ m.live) :
    ∃ m', freeRows m state.1 state.2 = .ok m' ∧ Keeps m m' owned 0 := by
  obtain ⟨blocks, table, hl, hcount, ht, rfl⟩ := h
  rw [hcount]
  refine freeArray_keeps (fun block hblock m hm => ?_) hl hheld
  obtain ⟨i, hi, rfl⟩ := List.mem_iff_getElem.mp hblock
  exact freeRow_keeps (List.Forall₂.get ht hi (by rwa [← ht.length_eq])) hm

end Rows

/-- What a callback does with the state of a scan. `Good n` relates the state to that of the model
and leaves room for `n` more rows; `Weak` is what is left where the callback fails. -/
structure Callback {σ τ : Type} (callback : Memory → σ → RowBlock → ℕ → Checked (Memory × σ × Status))
    (model : τ → Row → ℕ → Checked (StorageModel.Signal τ))
    (Good : ℕ → σ → Multiset ℕ → τ → Prop) (Weak : σ → Multiset ℕ → Prop) : Prop where
  weak : ∀ {n state owned tau}, Good n state owned tau → Weak state owned
  fewer : ∀ {n state owned tau}, Good (n + 1) state owned tau → Good n state owned tau
  step : ∀ {n m state owned tau row text offset}, Good (n + 1) state owned tau →
    RowHolds row text → owned + rowIds row ≤ m.live →
    ∃ m' state' owned' status, callback m state row offset = .ok (m', state', status) ∧
      Keeps m m' owned owned' ∧
      ((status = .proceed ∧ ∃ tau', model tau text offset = .ok (.proceed tau') ∧
          Good n state' owned' tau') ∨
        ∃ message, status = .fail message ∧ message.bytes ≠ [] ∧ false ∈ m.plan ∧
          Weak state' owned')

section Scans

variable {σ τ : Type} {m : Memory}

/-- A scan with the blocks `old` in hand ends with a state, and with the outcome of the model unless
a request was refused. -/
def Scanned (Good : ℕ → σ → Multiset ℕ → τ → Prop) (Weak : σ → Multiset ℕ → Prop) (m : Memory)
    (old : Multiset ℕ) (call : Checked (Memory × σ × Except EngineError Unit))
    (model : Checked (Except EngineError τ)) : Prop :=
  ∃ m' state owned status, call = .ok (m', state, status) ∧ Keeps m m' old owned ∧
    Weak state owned ∧
    (status = .ok () → ∃ n tau, Good n state owned tau ∧ model = .ok (.ok tau)) ∧
    ∀ e, status = .error e → model = .ok (.error e) ∨ false ∈ m.plan

theorem Scanned.after {Good : ℕ → σ → Multiset ℕ → τ → Prop} {Weak : σ → Multiset ℕ → Prop}
    {m' : Memory} {old mid : Multiset ℕ} {call : Checked (Memory × σ × Except EngineError Unit)}
    {model : Checked (Except EngineError τ)} (hk : Keeps m m' old mid)
    (h : Scanned Good Weak m' mid call model) : Scanned Good Weak m old call model := by
  obtain ⟨m'', state, owned, status, hcall, hk', hweak, hok, herror⟩ := h
  exact ⟨m'', state, owned, status, hcall, hk.trans hk', hweak, hok,
    fun e he => (herror e he).imp_right hk.refused⟩

theorem Callback.le {callback : Memory → σ → RowBlock → ℕ → Checked (Memory × σ × Status)}
    {model : τ → Row → ℕ → Checked (StorageModel.Signal τ)}
    {Good : ℕ → σ → Multiset ℕ → τ → Prop} {Weak : σ → Multiset ℕ → Prop}
    (h : Callback callback model Good Weak) {k n : ℕ} (hle : k ≤ n) {state : σ}
    {owned : Multiset ℕ} {tau : τ} (hgood : Good n state owned tau) : Good k state owned tau := by
  induction n, hle using Nat.le_induction with
  | base => exact hgood
  | succ n _ ih => exact ih (h.fewer hgood)

theorem release_keeps {row : RowBlock} {text : Row} (hrow : RowHolds row text)
    {line : Chunk UInt8} {old new : Multiset ℕ}
    (hheld : old + rowIds row + ids (some line) ≤ m.live) {m' : Memory}
    (hk : Keeps m m' old new) :
    ∃ m₁ m₂, freeRow m' row = .ok m₁ ∧ free m₁ (some line) = .ok m₂ ∧
      Keeps m m₂ (old + rowIds row + ids (some line)) new := by
  have hk' : Keeps m m' (old + rowIds row + ids (some line))
      (rowIds row + (ids (some line) + new)) := by
    refine (hk.frame (rowIds row + ids (some line))).cast ?_ ?_ <;> abel
  obtain ⟨m₁, hfreeRow, hk₁⟩ := freeRow_keeps hrow (held_left (hk'.held hheld))
  have hk₁ := hk'.trans ((hk₁.frame _).cast rfl (zero_add _))
  obtain ⟨m₂, hfree, hk₂⟩ := free_keeps (held_left (hk₁.held hheld))
  exact ⟨m₁, m₂, hfreeRow, hfree, hk₁.trans ((hk₂.frame _).cast rfl (zero_add _))⟩

theorem scanLoop_scans {callback : Memory → σ → RowBlock → ℕ → Checked (Memory × σ × Status)}
    {model : τ → Row → ℕ → Checked (StorageModel.Signal τ)}
    {Good : ℕ → σ → Multiset ℕ → τ → Prop} {Weak : σ → Multiset ℕ → Prop}
    (hcallback : Callback callback model Good Weak) (path tableName : CString) {expected : ℕ}
    (hexpected : expected < 2 ^ 61) (rounds offset : ℕ) {file : Bytes}
    (hrounds : file.length < rounds) (hsize : file.length < 2 ^ 60) (lineNumber : ℕ) {state : σ}
    {owned : Multiset ℕ} {tau : τ} (hgood : Good file.length state owned tau)
    (hheld : owned ≤ m.live) :
    Scanned Good Weak m owned
      (scanLoop path tableName expected callback rounds offset file lineNumber m state)
      (StorageModel.scanLines tableName expected model (readLines rounds offset file) lineNumber
        tau) := by
  induction rounds generalizing m offset file lineNumber state owned tau with
  | zero => exact absurd hrounds (Nat.not_lt_zero _)
  | succ rounds ih =>
    obtain ⟨m₁, read, hread, hfailed, hend, hline⟩ :=
      readLine_reads m (by omega : file.length < 2 ^ 61)
    rw [scanLoop, hread, ok_bind]
    cases read with
    | failed =>
      obtain ⟨hk, hno⟩ := hfailed rfl
      exact ⟨m₁, state, owned, _, rfl, (hk.frame _).cast (zero_add _) (zero_add _),
        hcallback.weak hgood, fun h => (by cases h), fun _ _ => .inr hno⟩
    | atEnd =>
      obtain ⟨hk, hnone⟩ := hend rfl
      refine ⟨m₁, state, owned, _, rfl, (hk.frame _).cast (zero_add _) (zero_add _),
        hcallback.weak hgood, fun _ => ⟨_, tau, hgood, ?_⟩, fun _ h => by cases h⟩
      rw [readLines, hnone]
      rfl
    | line line rest =>
      obtain ⟨hk₁, raw, hmodel, hstarts, hraw⟩ := hline line rest rfl
      have hshorter := readLine_shorter hmodel
      have hk₁ : Keeps m m₁ owned (ids (some line) + owned) := (hk₁.frame _).cast (zero_add _) rfl
      have hheld₁ := hk₁.held hheld
      obtain ⟨m₂, parsed, hparse, hbad, hparsed⟩ := parseLineIntoRow_keeps hstarts
        (mem_of_held (held_left hheld₁)) (by omega) hexpected
      dsimp only
      rw [hparse, ok_bind, readLines, hmodel, StorageModel.scanLines]
      cases parsed with
      | none =>
        obtain ⟨hk₂, hwhy⟩ := hbad rfl
        have hk₂ := hk₁.trans ((hk₂.frame _).cast (zero_add _) (zero_add _))
        obtain ⟨m₃, hfree, hk₃⟩ := free_keeps (held_left (hk₂.held hheld))
        refine ⟨m₃, state, owned, .error (storageError (.lit "malformed row " ++
          decimal (lineNumber + 1) ++ .lit " in table " ++ quoted tableName)), ?_,
          hk₂.trans ((hk₃.frame _).cast rfl (zero_add _)), hcallback.weak hgood,
          fun h => (by cases h), ?_⟩
        · dsimp only
          rw [hfree, ok_bind]
        · rintro e ⟨⟩
          refine hwhy.imp (fun h => ?_) hk₁.refused
          rw [h]
      | some row =>
        obtain ⟨text, hrow, hk₂, htext⟩ := hparsed row rfl
        have hk₂ : Keeps m m₂ owned (owned + rowIds row + ids (some line)) := by
          refine hk₁.trans ((hk₂.frame _).cast (zero_add _) ?_)
          abel
        have hheld₂ := hk₂.held hheld
        obtain ⟨n, hn⟩ : ∃ n, file.length = n + 1 := ⟨file.length - 1, by omega⟩
        obtain ⟨m₃, state', owned', status, hcall, hk₃, hafter⟩ :=
          @hcallback.step n m₂ state owned tau row text offset (hn ▸ hgood) hrow (held_left hheld₂)
        obtain ⟨m₄, m₅, hfreeRow, hfree, hk₅⟩ := release_keeps hrow hheld₂ hk₃
        have hk₅ := hk₂.trans hk₅
        rw [htext]
        dsimp only
        rw [hcall, ok_bind]
        dsimp only
        rw [hfreeRow, ok_bind, hfree, ok_bind]
        rcases hafter with ⟨rfl, tau', hstep, hgood'⟩ | ⟨message, rfl, hmessage, hno, hweak⟩
        · have h := @ih m₅ (offset + (file.length - rest.length)) rest (by omega) (by omega)
            (lineNumber + 1) state' owned' tau' (hcallback.le (by omega) hgood') (hk₅.held hheld)
          rw [hstep, ok_bind]
          exact h.after hk₅
        · refine ⟨m₅, state', owned', .error ⟨.storageError, message⟩, if_neg hmessage, hk₅, hweak,
            fun h => (by cases h), fun _ _ => .inr (hk₂.refused hno)⟩

theorem readAllRowsCallback_callback :
    Callback readAllRowsCallback StorageModel.readAllRowsCallback RowsHold RowsLead where
  weak := RowsHold.lead
  fewer := RowsHold.skip
  step := by
    intro n m state owned table row text offset hgood hrow hheld
    obtain ⟨m', state', owned', pushed, hpush, hk, hdone, hfail⟩ := pushRow_keeps hgood hrow hheld
    rw [readAllRowsCallback, hpush, ok_bind]
    cases pushed with
    | done =>
      exact ⟨m', state', owned', .proceed, rfl, hk, .inl ⟨rfl, _, rfl, hdone rfl⟩⟩
    | noArray =>
      exact ⟨m', state', owned', _, rfl, hk, .inr ⟨_, rfl, by decide +kernel, hfail (by simp)⟩⟩
    | noCopy =>
      exact ⟨m', state', owned', _, rfl, hk, .inr ⟨_, rfl, by decide +kernel, hfail (by simp)⟩⟩

theorem scanTable_scans {callback : Memory → σ → RowBlock → ℕ → Checked (Memory × σ × Status)}
    {model : τ → Row → ℕ → Checked (StorageModel.Signal τ)}
    {Good : ℕ → σ → Multiset ℕ → τ → Prop} {Weak : σ → Multiset ℕ → Prop}
    (hcallback : Callback callback model Good Weak) (disk : Disk) (dbDir tableName : CString)
    {expected : ℕ} (hexpected : expected < 2 ^ 61)
    (hfile : ∀ file, disk (dataPath dbDir tableName) = some file → file.length < 2 ^ 60)
    {state : σ} {owned : Multiset ℕ} {tau : τ} (hgood : ∀ n, n < 2 ^ 60 → Good n state owned tau)
    (hheld : owned ≤ m.live) :
    Scanned Good Weak m owned
      (scanTableRowsWithOffsets m (disk (dataPath dbDir tableName)) dbDir tableName expected
        callback state)
      (StorageModel.scanTableRowsWithOffsets disk dbDir tableName expected model tau) := by
  have hzero := hgood 0 (by decide)
  obtain ⟨m₁, path, hpath, hk, hno, -⟩ := dupBytes_keeps m (dataPath dbDir tableName)
  have hk₁ : Keeps m m₁ owned (ids path + owned) := (hk.frame _).cast (zero_add _) rfl
  unfold StorageModel.scanTableRowsWithOffsets
  rw [scanTableRowsWithOffsets, buildDataPath, hpath, ok_bind]
  cases path with
  | none =>
    exact ⟨m₁, state, owned, .error _, rfl, hk₁.cast rfl (zero_add _), hcallback.weak hzero,
      fun h => (by cases h), fun _ _ => .inr (hno rfl)⟩
  | some c =>
    cases hdisk : disk (dataPath dbDir tableName) with
    | none =>
      obtain ⟨m₂, hfree, hk₂⟩ := free_keeps (held_left (hk₁.held hheld))
      refine ⟨m₂, state, owned, .ok (), ?_, hk₁.trans ((hk₂.frame _).cast rfl (zero_add _)),
        hcallback.weak hzero, fun _ => ⟨_, _, hzero, rfl⟩, fun _ h => by cases h⟩
      dsimp only
      rw [hfree, ok_bind]
    | some file =>
      have hsize := hfile file hdisk
      obtain ⟨m₂, state', owned', status, hrun, hk₂, hweak, hok, herror⟩ :=
        scanLoop_scans hcallback (dataPath dbDir tableName) tableName hexpected
          (file.length + 1) 0 (Nat.lt_succ_self _) hsize 0 (hgood _ hsize)
          (held_right (hk₁.held hheld))
      have hk₂ : Keeps m m₂ owned (ids (some c) + owned') :=
        hk₁.trans ((hk₂.frame (ids (some c))).cast (add_comm _ _) (add_comm _ _))
      obtain ⟨m₃, hfree, hk₃⟩ := free_keeps (held_left (hk₂.held hheld))
      refine ⟨m₃, state', owned', status, ?_, hk₂.trans ((hk₃.frame _).cast rfl (zero_add _)),
        hweak, hok, fun e he => (herror e he).imp_right hk.refused⟩
      dsimp only
      rw [hrun, ok_bind]
      dsimp only
      rw [hfree, ok_bind]

/-- `read_all_rows_from_table` in memory, whatever allocations are refused. A failure gives back
every block, and unless an allocation was refused it is the error of the model. A success leaves the
rows of the model, each value with its NUL in a block that is out; beside them only the arrays are
out, and `free_rows` gives everything back. -/
theorem tables_read_in_memory (m : Memory) (disk : Disk) (dbDir tableName : CString) {expected : ℕ}
    (hexpected : expected < 2 ^ 61)
    (hfile : ∀ file, disk (dataPath dbDir tableName) = some file → file.length < 2 ^ 60) :
    ∃ m' result, readAllRowsFromTable m (disk (dataPath dbDir tableName)) dbDir tableName expected =
        .ok (m', result) ∧
      (∀ e, result = .error e → m'.live = m.live ∧
        (StorageModel.readAllRowsFromTable disk dbDir tableName expected = .ok (.error e) ∨
          false ∈ m.plan)) ∧
      ∀ rows count, result = .ok (rows, count) → ∃ blocks table,
        StorageModel.readAllRowsFromTable disk dbDir tableName expected = .ok (.ok table) ∧
        Lists rows blocks ∧ count = blocks.length ∧ List.Forall₂ RowHolds blocks table ∧
        m'.live = m.live + (rowsIds blocks + ids rows) ∧
        ∃ m'', freeRows m' rows count = .ok m'' ∧ m''.live = m.live := by
  obtain ⟨m₁, state, owned, status, hrun, hk, hweak, hok, herror⟩ :=
    scanTable_scans readAllRowsCallback_callback disk dbDir tableName hexpected hfile
      (fun _ => rowsHold_none) (Multiset.zero_le m.live)
  obtain ⟨m₂, hfree, hk₂⟩ := freeRows_keeps hweak (hk.held (Multiset.zero_le _))
  have hback : m₂.live = m.live := by
    simpa using (hk.trans hk₂).live
  rw [readAllRowsFromTable, hrun, ok_bind]
  cases status with
  | error e =>
    refine ⟨m₂, .error e, ?_, ?_, fun _ _ h => by cases h⟩
    · dsimp only
      rw [hfree, ok_bind]
    · rintro _ ⟨⟩
      exact ⟨hback, herror e rfl⟩
  | ok _ =>
    obtain ⟨n, table, ⟨blocks, hl, hcount, ht, rfl, -⟩, hmodel⟩ := hok rfl
    refine ⟨m₁, .ok state, rfl, fun _ h => (by cases h), ?_⟩
    rintro _ _ ⟨⟩
    exact ⟨blocks, table, hmodel, hl, hcount, ht, by simpa using hk.live, m₂, hfree, hback⟩

theorem one_row_read :
    ∃ m' rows, readAllRowsFromTable ⟨[true, true], 5, {3}⟩ (some (ascii "1|a\\|b\n")) (.lit "db")
        (.lit "users") 2 = .ok (m', .ok (rows, 1)) ∧
      (∃ block, Lists rows [block] ∧ RowHolds block [.lit "1", .lit "a|b"]) ∧
      ∃ m'', freeRows m' rows 1 = .ok m'' ∧ m''.live = {3} := by
  have hmodel : StorageModel.readAllRowsFromTable (fun _ => some (ascii "1|a\\|b\n")) (.lit "db")
      (.lit "users") 2 = .ok (.ok [[.lit "1", .lit "a|b"]]) := by decide +kernel
  obtain ⟨m', result, hrun, herror, hok⟩ := tables_read_in_memory ⟨[true, true], 5, {3}⟩
    (fun _ => some (ascii "1|a\\|b\n")) (.lit "db") (.lit "users") (by decide : 2 < 2 ^ 61) (by
      rintro _ ⟨⟩
      decide +kernel)
  cases result with
  | error e =>
    rcases (herror e rfl).2 with h | h
    · rw [hmodel] at h
      cases h
    · simp at h
  | ok result =>
    obtain ⟨rows, count⟩ := result
    obtain ⟨blocks, table, htable, hl, hcount, ht, -, hfree⟩ := hok rows count rfl
    rw [hmodel] at htable
    cases htable
    obtain rfl : count = 1 := hcount.trans ht.length_eq
    obtain ⟨block, rest, hblock, hrest, rfl⟩ := List.forall₂_cons_right_iff.mp ht
    obtain rfl := List.forall₂_nil_right_iff.mp hrest
    exact ⟨m', rows, hrun, ⟨block, hl, hblock⟩, hfree⟩

end Scans

end TableMemory
