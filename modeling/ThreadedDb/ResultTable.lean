import ThreadedDb.ExecutorModel
import ThreadedDb.IdText

/-!
# Results on the terminal

`result.c`: the summary of an INSERT, and the table of a SELECT with columns as wide as their
longest text. The widths stand in the rule under the header, so a reader gets every text of the
table back, up to spaces at its end, also where texts hold newlines or column marks.
-/
namespace ResultTable

open ByteText
open ExecutorModel
open StorageModel (Row)
open CheckedArray (Checked ok_bind)

def widen : List ℕ → Row → Checked (List ℕ)
  | [], _ => .ok []
  | _ :: _, [] => .error .outOfBounds
  | w :: ws, value :: values => do
    let rest ← widen ws values
    .ok (max w value.bytes.length :: rest)

def widenAll (ws : List ℕ) : List Row → Checked (List ℕ)
  | [] => .ok ws
  | row :: rows => do
    let ws ← widen ws row
    widenAll ws rows

/-- The field width that `"%-*s"` takes from `(int)width`: the sign only says left. -/
def fieldWidth (w : ℕ) : ℕ := (((w + 2 ^ 31) % 2 ^ 32 : ℤ) - 2 ^ 31).natAbs

def padded (w : ℕ) (text : CString) : Bytes :=
  text.bytes ++ List.replicate (fieldWidth w - text.bytes.length) 32

/-- One line: as many cells as there are widths, with bars between them. -/
def tableLine : List ℕ → List CString → Checked Bytes
  | [], _ => .ok [10]
  | _ :: _, [] => .error .outOfBounds
  | [w], text :: _ => .ok (padded w text ++ [10])
  | w :: w' :: ws, text :: texts => do
    let rest ← tableLine (w' :: ws) texts
    .ok (padded w text ++ ascii " | " ++ rest)

def printSeparator : List ℕ → Bytes
  | [] => [10]
  | [w] => List.replicate w 45 ++ [10]
  | w :: w' :: ws => List.replicate w 45 ++ ascii "-+-" ++ printSeparator (w' :: ws)

def tableLines (ws : List ℕ) : List Row → Checked Bytes
  | [] => .ok []
  | row :: rows => do
    let line ← tableLine ws row
    let rest ← tableLines ws rows
    .ok (line ++ rest)

def printTable (result : QueryResult) : Checked Bytes := do
  let ws ← widenAll (result.columns.map (fun c => c.bytes.length)) result.rows
  let header ← tableLine ws result.columns
  let lines ← tableLines ws result.rows
  .ok (header ++ (printSeparator ws ++ (lines ++ [10] ++ decimalBytes result.rows.length ++
    ascii " rows selected\n")))

def printExecResult (result : ExecResult) : Checked Bytes :=
  match result.type with
  | .insert => .ok (ascii "INSERT " ++ decimalBytes result.affectedRows ++ [10])
  | .select => printTable result.queryResult

def takeLine (text : Bytes) : Bytes × Bytes :=
  (text.takeWhile (· ≠ 10), (text.dropWhile (· ≠ 10)).drop 1)

/-- The widths in a rule of dashes: each `-+-` ends one column and begins the next. -/
def readRule : ℕ → Bytes → List ℕ
  | n, [] => [n]
  | n, c :: rest =>
    if c = 43 then
      match rest with
      | [] => [n - 1]
      | _ :: rest => (n - 1) :: readRule 0 rest
    else readRule (n + 1) rest

def withoutPadding (cell : Bytes) : Bytes := cell.rdropWhile (· = 32)

def readCells : List ℕ → Bytes → List Bytes
  | [], _ => []
  | w :: ws, line => withoutPadding (line.take w) :: readCells ws (line.drop (w + 3))

def lineSize (ws : List ℕ) : ℕ := ws.sum + 3 * (ws.length - 1) + 1

def readLines (ws : List ℕ) : ℕ → Bytes → List (List Bytes)
  | 0, _ => []
  | count + 1, text => readCells ws text :: readLines ws count (text.drop (lineSize ws))

def readCount (text : Bytes) : ℕ :=
  ((text.take (text.length - 15)).rtakeWhile (fun c => 48 ≤ c && c ≤ 57)).foldl
    (fun n c => n * 10 + (c.toNat - 48)) 0

def readTable (text : Bytes) : List Bytes × List (List Bytes) :=
  let ws := readRule 0 (takeLine (takeLine text).2).1
  let body := (takeLine (takeLine text).2).2
  (readCells ws (takeLine text).1, readLines ws (readCount body) body)

theorem widen_ok {ws : List ℕ} {row : Row} (h : row.length = ws.length) :
    ∃ ws', widen ws row = .ok ws' ∧ ws'.length = ws.length := by
  induction ws generalizing row with
  | nil => exact ⟨[], rfl, rfl⟩
  | cons w ws ih =>
    cases row with
    | nil => cases h
    | cons value row =>
      obtain ⟨ws', hwiden, hlen⟩ := ih (Nat.succ.inj h)
      refine ⟨max w value.bytes.length :: ws', ?_, by rw [List.length_cons, hlen, List.length_cons]⟩
      simp only [widen, hwiden, ok_bind]

theorem widenAll_ok {ws : List ℕ} {rows : List Row}
    (h : ∀ row ∈ rows, row.length = ws.length) :
    ∃ ws', widenAll ws rows = .ok ws' ∧ ws'.length = ws.length := by
  induction rows generalizing ws with
  | nil => exact ⟨ws, rfl, rfl⟩
  | cons row rows ih =>
    obtain ⟨hrow, hrows⟩ := List.forall_mem_cons.mp h
    obtain ⟨ws₁, hwiden, hlen₁⟩ := widen_ok hrow
    obtain ⟨ws', hall, hlen'⟩ := ih (by rwa [hlen₁])
    refine ⟨ws', ?_, hlen'.trans hlen₁⟩
    simp only [widenAll, hwiden, ok_bind, hall]

theorem tableLine_ok {ws : List ℕ} {texts : List CString} (h : texts.length = ws.length) :
    ∃ line, tableLine ws texts = .ok line := by
  induction ws generalizing texts with
  | nil => exact ⟨[10], rfl⟩
  | cons w ws ih =>
    cases texts with
    | nil => cases h
    | cons text texts =>
      cases ws with
      | nil => exact ⟨_, rfl⟩
      | cons w' ws =>
        obtain ⟨line, hline⟩ := ih (Nat.succ.inj h)
        exact ⟨padded w text ++ ascii " | " ++ line, by simp only [tableLine, hline, ok_bind]⟩

theorem tableLines_ok {ws : List ℕ} {rows : List Row}
    (h : ∀ row ∈ rows, row.length = ws.length) : ∃ lines, tableLines ws rows = .ok lines := by
  induction rows with
  | nil => exact ⟨[], rfl⟩
  | cons row rows ih =>
    obtain ⟨hrow, hrows⟩ := List.forall_mem_cons.mp h
    obtain ⟨line, hline⟩ := tableLine_ok hrow
    obtain ⟨lines, hlines⟩ := ih hrows
    exact ⟨line ++ lines, by simp only [tableLines, hline, hlines, ok_bind]⟩

theorem print_ok {result : ExecResult} (h : Tabular result) :
    ∃ text, printExecResult result = .ok text := by
  unfold printExecResult
  cases htype : result.type with
  | insert => exact ⟨_, rfl⟩
  | select =>
    have hrows := h htype
    have hlen : (result.queryResult.columns.map (fun c => c.bytes.length)).length =
        result.queryResult.columns.length := List.length_map _
    obtain ⟨ws, hwiden, hws⟩ := @widenAll_ok
      (result.queryResult.columns.map (fun c => c.bytes.length)) result.queryResult.rows
      (by rwa [hlen])
    rw [hlen] at hws
    obtain ⟨header, hheader⟩ := tableLine_ok hws.symm
    obtain ⟨lines, hlines⟩ := @tableLines_ok ws _ (by rwa [hws])
    dsimp only
    rw [printTable, hwiden, ok_bind, hheader, ok_bind, hlines, ok_bind]
    exact ⟨_, rfl⟩

def Fits (ws : List ℕ) (texts : List CString) : Prop :=
  List.Forall₂ (fun w text => text.bytes.length ≤ w) ws texts

def Small (ws : List ℕ) : Prop := ∀ w ∈ ws, w < 2 ^ 31

theorem fieldWidth_eq {w : ℕ} (h : w < 2 ^ 31) : fieldWidth w = w := by
  unfold fieldWidth
  omega

theorem padded_length {w : ℕ} {text : CString} (hw : w < 2 ^ 31)
    (hfits : text.bytes.length ≤ w) : (padded w text).length = w := by
  rw [padded, fieldWidth_eq hw, List.length_append, List.length_replicate]
  omega

theorem padded_read (w : ℕ) (text : CString) :
    withoutPadding (padded w text) = withoutPadding text.bytes := by
  unfold padded withoutPadding
  induction fieldWidth w - text.bytes.length with
  | zero => rw [List.replicate_zero, List.append_nil]
  | succ k ih =>
    rw [List.replicate_succ', ← List.append_assoc, List.rdropWhile_concat_pos _ _ _ (by decide), ih]

theorem widen_fits {ws : List ℕ} {row : Row} (hlen : row.length = ws.length) (hws : Small ws)
    (hrow : ∀ text ∈ row, text.bytes.length < 2 ^ 31) :
    ∃ ws', widen ws row = .ok ws' ∧ ws'.length = ws.length ∧ Small ws' ∧ Fits ws' row ∧
      ∀ texts, Fits ws texts → Fits ws' texts := by
  induction ws generalizing row with
  | nil =>
    obtain rfl := List.eq_nil_of_length_eq_zero hlen
    exact ⟨[], rfl, rfl, hws, .nil, fun texts h => h⟩
  | cons w ws ih =>
    cases row with
    | nil => cases hlen
    | cons value row =>
      obtain ⟨hw, hws⟩ := List.forall_mem_cons.mp hws
      obtain ⟨hvalue, hrow⟩ := List.forall_mem_cons.mp hrow
      obtain ⟨ws', hwiden, hlen', hsmall, hfits, hkeep⟩ := ih (Nat.succ.inj hlen) hws hrow
      refine ⟨max w value.bytes.length :: ws', ?_, ?_, ?_, .cons (le_max_right _ _) hfits, ?_⟩
      · simp only [widen, hwiden, ok_bind]
      · rw [List.length_cons, List.length_cons, hlen']
      · exact List.forall_mem_cons.mpr ⟨max_lt hw hvalue, hsmall⟩
      · intro texts h
        cases h with
        | cons hhead htail => exact .cons (hhead.trans (le_max_left _ _)) (hkeep _ htail)

theorem widenAll_fits {ws : List ℕ} {rows : List Row} (hws : Small ws)
    (hrows : ∀ row ∈ rows, row.length = ws.length ∧ ∀ text ∈ row, text.bytes.length < 2 ^ 31) :
    ∃ ws', widenAll ws rows = .ok ws' ∧ ws'.length = ws.length ∧ Small ws' ∧
      (∀ row ∈ rows, Fits ws' row) ∧ ∀ texts, Fits ws texts → Fits ws' texts := by
  induction rows generalizing ws with
  | nil => exact ⟨ws, rfl, rfl, hws, (fun row hrow => by cases hrow), fun texts h => h⟩
  | cons row rows ih =>
    obtain ⟨⟨hlen, htexts⟩, hrows⟩ := List.forall_mem_cons.mp hrows
    obtain ⟨ws₁, hwiden, hlen₁, hsmall₁, hfits₁, hkeep₁⟩ := widen_fits hlen hws htexts
    obtain ⟨ws', hall, hlen', hsmall, hfits, hkeep⟩ := ih hsmall₁ (by rwa [hlen₁])
    refine ⟨ws', ?_, hlen'.trans hlen₁, hsmall, ?_, fun texts h => hkeep _ (hkeep₁ _ h)⟩
    · simp only [widenAll, hwiden, ok_bind, hall]
    · exact List.forall_mem_cons.mpr ⟨hkeep _ hfits₁, hfits⟩

def shown (text : CString) : Bytes := withoutPadding text.bytes

theorem tableLine_reads {ws : List ℕ} {texts : List CString} (hne : ws ≠ []) (hsmall : Small ws)
    (hfits : Fits ws texts) :
    ∃ line, tableLine ws texts = .ok (line ++ [10]) ∧ line.length + 1 = lineSize ws ∧
      (∀ rest, readCells ws (line ++ rest) = texts.map shown) ∧
      ((∀ text ∈ texts, 10 ∉ text.bytes) → 10 ∉ line) := by
  induction hfits with
  | nil => exact absurd rfl hne
  | @cons w text ws texts hw hrest ih =>
    obtain ⟨hsmallw, hsmall⟩ := List.forall_mem_cons.mp hsmall
    have hlength := padded_length hsmallw hw
    have hplain : 10 ∉ text.bytes → 10 ∉ padded w text := by
      intro h
      rw [padded, List.mem_append, not_or]
      exact ⟨h, fun hmem => by simpa using List.eq_of_mem_replicate hmem⟩
    have hcell (rest : Bytes) : withoutPadding ((padded w text ++ rest).take w) = shown text := by
      rw [List.take_append_of_le_length hlength.ge, List.take_of_length_le hlength.le, padded_read]
      rfl
    cases hrest with
    | nil =>
      refine ⟨padded w text, rfl, ?_, ?_, ?_⟩
      · simp [lineSize, hlength]
      · intro rest
        simp only [readCells, hcell, List.map_cons, List.map_nil]
      · intro h
        exact hplain (h text List.mem_cons_self)
    | @cons w' text' ws texts hw' hrest =>
      obtain ⟨line, hline, hlen, hread, hnl⟩ := ih (List.cons_ne_nil _ _) hsmall
      refine ⟨padded w text ++ ascii " | " ++ line, ?_, ?_, ?_, ?_⟩
      · simp only [tableLine, hline, ok_bind, List.append_assoc]
      · simp only [lineSize, List.sum_cons, List.length_cons, List.length_append, hlength] at hlen ⊢
        simp only [show (ascii " | ").length = 3 from rfl]
        omega
      · intro rest
        have hdrop : (padded w text ++ ascii " | " ++ line ++ rest).drop (w + 3) =
            line ++ rest := by
          have hskip : (padded w text ++ ascii " | ").length = w + 3 := by
            rw [List.length_append, hlength]
            rfl
          rw [List.append_assoc (padded w text ++ ascii " | "), ← hskip, List.drop_left]
        rw [readCells, hdrop, hread, List.append_assoc, List.append_assoc, hcell]
        rfl
      · intro h
        obtain ⟨htext, htexts⟩ := List.forall_mem_cons.mp h
        simp only [List.mem_append, not_or]
        exact ⟨⟨hplain htext, by decide⟩, hnl htexts⟩

theorem tableLines_read {ws : List ℕ} {rows : List Row} (hne : ws ≠ []) (hsmall : Small ws)
    (hfits : ∀ row ∈ rows, Fits ws row) :
    ∃ lines, tableLines ws rows = .ok lines ∧
      ∀ rest, readLines ws rows.length (lines ++ rest) = rows.map (List.map shown) := by
  induction rows with
  | nil => exact ⟨[], rfl, fun rest => rfl⟩
  | cons row rows ih =>
    obtain ⟨hrow, hrows⟩ := List.forall_mem_cons.mp hfits
    obtain ⟨line, hline, hlen, hread, -⟩ := tableLine_reads hne hsmall hrow
    obtain ⟨lines, hlines, hall⟩ := ih hrows
    refine ⟨line ++ [10] ++ lines, ?_, fun rest => ?_⟩
    · simp only [tableLines, hline, hlines, ok_bind]
    · have hsize : (line ++ [10]).length = lineSize ws := by
        rw [List.length_append, List.length_singleton, hlen]
      rw [List.length_cons, readLines, List.append_assoc, ← hsize, List.drop_left, hall,
        List.append_assoc, hread, List.map_cons]

theorem readRule_dash (n : ℕ) (rest : Bytes) : readRule n (45 :: rest) = readRule (n + 1) rest := by
  rw [readRule.eq_def]
  simp

theorem readRule_cross (n : ℕ) (c : UInt8) (rest : Bytes) :
    readRule n (43 :: c :: rest) = (n - 1) :: readRule 0 rest := by
  rw [readRule.eq_def]
  simp

theorem readRule_dashes (n w : ℕ) (rest : Bytes) :
    readRule n (List.replicate w 45 ++ rest) = readRule (n + w) rest := by
  induction w generalizing n with
  | zero => rfl
  | succ w ih =>
    rw [List.replicate_succ, List.cons_append, readRule_dash, ih]
    congr 1
    omega

theorem printSeparator_reads {ws : List ℕ} (hne : ws ≠ []) :
    ∃ rule, printSeparator ws = rule ++ [10] ∧ 10 ∉ rule ∧ readRule 0 rule = ws := by
  induction ws with
  | nil => exact absurd rfl hne
  | cons w ws ih =>
    have hdashes : (10 : UInt8) ∉ List.replicate w 45 := by
      intro hmem
      simpa using List.eq_of_mem_replicate hmem
    cases ws with
    | nil =>
      refine ⟨List.replicate w 45, rfl, hdashes, ?_⟩
      have h := readRule_dashes 0 w []
      rwa [List.append_nil, Nat.zero_add] at h
    | cons w' ws =>
      obtain ⟨rule, hrule, hplain, hread⟩ := ih (List.cons_ne_nil _ _)
      refine ⟨List.replicate w 45 ++ (ascii "-+-" ++ rule), ?_, ?_, ?_⟩
      · rw [printSeparator, hrule]
        simp only [List.append_assoc]
      · simp only [List.mem_append, not_or]
        exact ⟨hdashes, by decide, hplain⟩
      · rw [readRule_dashes, Nat.zero_add]
        change readRule w (45 :: 43 :: 45 :: rule) = w :: w' :: ws
        rw [readRule_dash, readRule_cross, hread, Nat.add_sub_cancel]

theorem takeLine_line {line : Bytes} (h : 10 ∉ line) (rest : Bytes) :
    takeLine (line ++ [10] ++ rest) = (line, rest) := by
  have hall : ∀ c ∈ line, (decide (c ≠ 10)) = true := by
    intro c hc
    have : c ≠ 10 := fun heq => h (heq ▸ hc)
    simpa using this
  rw [takeLine, List.append_assoc, List.takeWhile_append_of_pos hall,
    List.dropWhile_append_of_pos hall]
  simp

theorem rtakeWhile_after {p : UInt8 → Bool} {before digits : Bytes} {c : UInt8} (hc : p c = false)
    (hdigits : ∀ d ∈ digits, p d = true) : (before ++ [c] ++ digits).rtakeWhile p = digits := by
  induction digits using List.reverseRecOn with
  | nil =>
    rw [List.append_nil]
    exact List.rtakeWhile_concat_neg _ _ _ (by rw [hc]; decide)
  | append_singleton digits d ih =>
    rw [← List.append_assoc, List.rtakeWhile_concat_pos _ _ _ (hdigits d (by simp)), ih]
    exact fun e he => hdigits e (List.mem_append_left _ he)

theorem readCount_summary (lines : Bytes) (count : ℕ) :
    readCount (lines ++ [10] ++ decimalBytes count ++ ascii " rows selected\n") = count := by
  have htail : (ascii " rows selected\n").length = 15 := rfl
  have hdigits : ∀ d ∈ decimalBytes count, (48 ≤ d && d ≤ 57) = true := by
    intro d hd
    have := mem_decimalBytes hd
    simp only [Bool.and_eq_true, decide_eq_true_eq, UInt8.le_iff_toNat_le]
    exact this
  rw [readCount, List.length_append, htail, Nat.add_sub_cancel, List.take_left,
    rtakeWhile_after (by decide) hdigits]
  exact IdText.decimalBytes_value count

/-- A table that the executor can return: some columns, whose names are lines of a schema file, and
rows of that many values; `int` holds the lengths of all texts. -/
structure Printable (result : QueryResult) : Prop where
  columns : result.columns ≠ []
  names : ∀ c ∈ result.columns, 10 ∉ c.bytes
  rows : ∀ row ∈ result.rows, row.length = result.columns.length
  short : ∀ texts ∈ result.columns :: result.rows, ∀ text ∈ texts, text.bytes.length < 2 ^ 31

theorem printTable_reads {result : QueryResult} (h : Printable result) :
    ∃ text, printTable result = .ok text ∧
      readTable text = (result.columns.map shown, result.rows.map (List.map shown)) := by
  obtain ⟨hcolumns, hrows⟩ := List.forall_mem_cons.mp h.short
  have hstart : Small (result.columns.map (fun c => c.bytes.length)) := by
    intro w hw
    obtain ⟨c, hc, rfl⟩ := List.mem_map.mp hw
    exact hcolumns c hc
  have hself : Fits (result.columns.map (fun c => c.bytes.length)) result.columns := by
    rw [Fits, List.forall₂_map_left_iff]
    exact List.forall₂_same.mpr (fun c _ => le_rfl)
  obtain ⟨ws, hwiden, hlen, hsmall, hfits, hkeep⟩ := @widenAll_fits _ result.rows hstart (by
    intro row hrow
    rw [List.length_map]
    exact ⟨h.rows row hrow, hrows row hrow⟩)
  have hne : ws ≠ [] := by
    intro hnil
    rw [hnil, List.length_map] at hlen
    exact h.columns (List.eq_nil_of_length_eq_zero hlen.symm)
  obtain ⟨header, hheader, -, hcells, hplain⟩ := tableLine_reads hne hsmall (hkeep _ hself)
  obtain ⟨lines, hlines, hread⟩ := tableLines_read hne hsmall hfits
  obtain ⟨rule, hrule, hruleplain, hws⟩ := printSeparator_reads hne
  have hheaderplain : 10 ∉ header := hplain h.names
  have hcount := readCount_summary lines result.rows.length
  have hcells' := hcells []
  rw [List.append_nil] at hcells'
  refine ⟨header ++ [10] ++ (rule ++ [10] ++ (lines ++ [10] ++ decimalBytes result.rows.length ++
    ascii " rows selected\n")), ?_, ?_⟩
  · simp only [printTable, hwiden, hheader, hlines, ok_bind, hrule]
  · simp only [readTable, takeLine_line hheaderplain, takeLine_line hruleplain, hws, hcells',
      hcount]
    rw [List.append_assoc, List.append_assoc, hread]

/-- A reader of the terminal gets every table back: the columns, and as many rows as there are, each
text up to spaces at its end. Values may hold newlines, bars and dashes. -/
theorem printed_table_reads_back {result : ExecResult} (htype : result.type = .select)
    (h : Printable result.queryResult) :
    ∃ text, printExecResult result = .ok text ∧
      readTable text = (result.queryResult.columns.map shown,
        result.queryResult.rows.map (List.map shown)) := by
  rw [printExecResult, htype]
  exact printTable_reads h

def awkwardTable : ExecResult :=
  ⟨.select, 1, ⟨[.lit "id", .lit "note"], [[.lit "1", .lit "a | b\nc "]]⟩, false, none⟩

theorem awkward_table_reads_back : ∃ text, printExecResult awkwardTable = .ok text ∧
    readTable text =
      ([.lit "id", .lit "note"].map shown, [[.lit "1", .lit "a | b\nc "].map shown]) :=
  printed_table_reads_back rfl ⟨by decide, by decide, by decide, by decide⟩

end ResultTable
