import ThreadedDb.SqlGrammar

/-!
# The statement loop of the command line

`main.c` reads a script, splits it into statements and executes them one after another. The loop
is given with the work on a statement as a parameter; `main` executes and prints.
-/
namespace ScriptLoop

open ByteText
open SchemaModel
open SqlFrontEnd
open RuntimeModel
open ExecutorModel
open ParserBounds
open SqlGrammar
open CheckedArray (Checked ok_bind)

section Loop

variable {σ : Type} (tokens : List Token)
  (body : σ → Statement → Checked (σ × Except EngineError Unit))

/-- `while (cursor < count && items[cursor] is not EOF)`: parse a statement, work on it, skip the
semicolons after it. The state, the cursor and the error that ended the loop, if one did. -/
def statementLoop : ℕ → ℕ → σ → Checked (σ × ℕ × Except EngineError Unit)
  | 0, _, _ => .error .unbounded
  | rounds + 1, cursor, state =>
    match tokens[cursor]? with
    | none => .ok (state, cursor, .ok ())
    | some token =>
      if token.type = .eof then .ok (state, cursor, .ok ())
      else do
        match ← parseNextStatement tokens cursor with
        | (.error message, cursor) => .ok (state, cursor, .error ⟨.parseError, message⟩)
        | (.ok stmt, cursor) => do
          let (state, worked) ← body state stmt
          match worked with
          | .error e => .ok (state, cursor, .error e)
          | .ok _ => statementLoop rounds (skipSemicolons tokens cursor) state

def runScript (state : σ) : Checked (σ × ℕ × Except EngineError Unit) :=
  statementLoop tokens body (tokens.length + 1) (skipSemicolons tokens 0) state

end Loop

def splitStatements (tokens : List Token) :
    Checked (List Statement × ℕ × Except EngineError Unit) :=
  runScript tokens (fun stmts stmt => .ok (stmts ++ [stmt], .ok ())) []

structure CliState where
  disk : Disk
  ctx : ExecutionContext
  printed : List ExecResult

def executeAndPrint (state : CliState) (stmt : Statement) :
    Checked (CliState × Except EngineError Unit) := do
  let (disk, ctx, out) ← executeStatement noFaults state.disk state.ctx stmt
  match out with
  | .error e => .ok (⟨disk, ctx, state.printed⟩, .error e)
  | .ok result => .ok (⟨disk, ctx, state.printed ++ [result]⟩, .ok ())

/-- The files afterwards, what was printed, and the returned status with the message on stderr. -/
structure CliOutcome where
  disk : Disk
  printed : List ExecResult
  status : StatusCode
  message : Option CString

/-- `main` from the text of the SQL file on; a file that cannot be read has none. -/
def main (disk : Disk) (dbDir sqlFile : CString) (text : Option Bytes) : Checked CliOutcome :=
  match text with
  | none =>
    .ok ⟨disk, [], .fileError,
      some (.lit "FILE ERROR: failed to read SQL file '" ++ sqlFile ++ .lit "'")⟩
  | some buffer =>
    if (CString.ofBuffer buffer).trim.bytes = [] then
      .ok ⟨disk, [], .fileError, some (.lit "FILE ERROR: SQL file '" ++ sqlFile ++ .lit "' is empty")⟩
    else
      match tokenizeSql (CString.ofBuffer buffer).trim with
      | .error message => .ok ⟨disk, [], .lexError, some message⟩
      | .ok tokens => do
        let (state, _, ended) ← runScript tokens executeAndPrint
          ⟨disk, initExecutionContext dbDir, []⟩
        match ended with
        | .error e => .ok ⟨state.disk, state.printed, e.status, some e.message⟩
        | .ok _ =>
          if state.printed = [] then
            .ok ⟨state.disk, [], .parseError,
              some (.lit "PARSE ERROR: no executable SQL statement found")⟩
          else .ok ⟨state.disk, state.printed, .ok, none⟩

/-- Statements with any number of semicolons before, between and after them. -/
inductive Script : List Token → List Statement → Prop
  | done {semis : List Token} : Semicolons semis → Script semis []
  | next {semis ts rest : List Token} {stmt : Statement} {stmts : List Statement} :
      Semicolons semis → Sentence ts stmt → Script rest stmts →
      Script (semis ++ (ts ++ rest)) (stmt :: stmts)

/-- What the loop does with the statements of a script: the work on each, up to the first error. -/
def workThrough {σ : Type} (body : σ → Statement → Checked (σ × Except EngineError Unit)) :
    σ → List Statement → Checked (σ × Except EngineError Unit)
  | state, [] => .ok (state, .ok ())
  | state, stmt :: stmts => do
    let (state, worked) ← body state stmt
    match worked with
    | .error e => .ok (state, .error e)
    | .ok _ => workThrough body state stmts

section Tokens

variable {tokens : List Token}

theorem script_start {text : List Token} {stmts : List Statement} (h : Script text stmts)
    {j e : ℕ} (hspan : Span tokens j text e) {eof : Token} (heof : tokens[e]? = some eof)
    (htype : eof.type = .eof) : NextIsNot tokens j .where := by
  have hlast : Span tokens j (text ++ [eof]) (e + 1) :=
    span_append hspan (span_one.mpr ⟨heof, rfl⟩)
  cases h with
  | @done semis hsemi =>
    cases text with
    | nil => exact nextIsNot_of_span hlast (by simp [htype])
    | cons t ts => exact nextIsNot_of_span hlast (by simp [hsemi t List.mem_cons_self])
  | @next semis ts rest stmt stmts hsemi hsentence _ =>
    cases semis with
    | cons t semis => exact nextIsNot_of_span hlast (by simp [hsemi t List.mem_cons_self])
    | nil =>
      obtain ⟨t, tail, rfl, ht⟩ := sentence_start hsentence
      exact nextIsNot_of_span hlast (by rcases ht with ht | ht <;> simp [ht])

theorem loop_script {σ : Type} (body : σ → Statement → Checked (σ × Except EngineError Unit))
    {text : List Token} {stmts : List Statement} (h : Script text stmts) {c e : ℕ}
    (hspan : Span tokens c text e) {eof : Token} (heof : tokens[e]? = some eof)
    (htype : eof.type = .eof) {rounds : ℕ} (hrounds : stmts.length < rounds) (state : σ)
    (hwork : ∀ state stmt, ∃ state', body state stmt = .ok (state', .ok ())) :
    ∃ state', workThrough body state stmts = .ok (state', .ok ()) ∧
      statementLoop tokens body rounds (skipSemicolons tokens c) state =
        .ok (state', e, .ok ()) := by
  induction h generalizing c rounds state with
  | @done semis hsemi =>
    obtain ⟨rounds, rfl⟩ : ∃ r, rounds = r + 1 := ⟨rounds - 1, by omega⟩
    refine ⟨state, rfl, ?_⟩
    rw [skip_past hspan hsemi, skip_stop ⟨eof, heof, by simp [htype]⟩, statementLoop, heof]
    dsimp only
    rw [if_pos htype]
  | @next semis ts rest stmt stmts hsemi hsentence hrest ih =>
    obtain ⟨rounds, rfl⟩ : ∃ r, rounds = r + 1 := ⟨rounds - 1, by omega⟩
    obtain ⟨i, hbefore, hafter⟩ := span_split hspan
    obtain ⟨j, hbody, hspan'⟩ := span_split hafter
    obtain ⟨t, tail, rfl, ht⟩ := sentence_start hsentence
    obtain ⟨_, hone, -⟩ := span_split (a := [t]) hbody
    have hget := (span_one.mp hone).1
    have hskip : skipSemicolons tokens c = i := by
      rw [skip_past hbefore hsemi]
      exact skip_stop ⟨t, hget, by rcases ht with ht | ht <;> simp [ht]⟩
    obtain ⟨after, k, hnext, hk, hsemi'⟩ := next_complete (span_nil i) (by simp [Semicolons]) hbody
      hsentence (script_start hrest hspan' heof htype)
    obtain ⟨state₁, hbody₁⟩ := hwork state stmt
    obtain ⟨state', hwork', hloop⟩ := ih hspan' (by simpa using hrounds) state₁
    refine ⟨state', ?_, ?_⟩
    · rw [workThrough, hbody₁, ok_bind]
      exact hwork'
    · rw [hskip, statementLoop, hget]
      dsimp only
      rw [if_neg (by rcases ht with ht | ht <;> simp [ht]), hnext, ok_bind]
      dsimp only
      rw [hbody₁, ok_bind]
      dsimp only
      rw [← skip_past hk hsemi']
      exact hloop

theorem next_advances (h : EndsInEof tokens) {cursor k : ℕ} {stmt : Statement}
    (hnext : parseNextStatement tokens cursor = .ok (.ok stmt, k)) :
    cursor < k ∧ k < tokens.length := by
  obtain ⟨before, body, after, i, j, hbefore, -, hbody, hsentence, hafter, -⟩ := next_sound hnext
  constructor
  · obtain ⟨t, rest, rfl, -⟩ := sentence_start hsentence
    rw [hafter.stop, hbody.stop, hbefore.stop, List.length_cons]
    omega
  · have hcursor : cursor < tokens.length := by
      by_contra hout
      unfold parseNextStatement at hnext
      split at hnext
      · cases hnext
      · rw [if_pos (by omega)] at hnext
        cases hnext
    obtain ⟨r, k', hrun, -, hk⟩ := parseNextStatement_total h hcursor
    rw [hnext] at hrun
    cases hrun
    exact hk

theorem skip_bounds (h : EndsInEof tokens) {i : ℕ} (hi : i < tokens.length) :
    i ≤ skipSemicolons tokens i ∧ skipSemicolons tokens i < tokens.length := by
  obtain ⟨ts, hspan, hsemi⟩ := skip_span tokens i
  refine ⟨by rw [hspan.stop]; omega, ?_⟩
  by_contra hout
  -- all the tokens from the cursor on would be semicolons, the last one too
  have hall : tokens.drop i = ts := by
    rw [hspan.text, List.drop_eq_nil_of_le (by omega), List.append_nil]
  obtain ⟨body, eof, rfl, heof, -⟩ := h
  rw [List.length_append, List.length_singleton] at hi
  have hmem : eof ∈ ts := by
    rw [← hall, List.drop_append_of_le_length (by omega)]
    simp
  have := hsemi eof hmem
  rw [heof] at this
  cases this

/-- The loop ends after at most one round for each token, at EOF or with an error of the parser,
if the work on a statement always goes well. -/
theorem loop_ends {σ : Type} (h : EndsInEof tokens)
    (body : σ → Statement → Checked (σ × Except EngineError Unit))
    (hwork : ∀ state stmt, ∃ state', body state stmt = .ok (state', .ok ())) (rounds cursor : ℕ)
    (hcursor : cursor < tokens.length) (hrounds : tokens.length < cursor + rounds) (state : σ) :
    ∃ state' k ended, statementLoop tokens body rounds cursor state = .ok (state', k, ended) ∧
      (ended = .ok () ∧ atEnd tokens k = true ∨ ∃ e, ended = .error e ∧ e.status = .parseError) := by
  induction rounds generalizing cursor state with
  | zero => omega
  | succ rounds ih =>
    have hget := List.getElem?_eq_getElem hcursor
    rw [statementLoop, hget]
    dsimp only
    by_cases heof : tokens[cursor].type = .eof
    · rw [if_pos heof]
      refine ⟨state, cursor, .ok (), rfl, Or.inl ⟨rfl, ?_⟩⟩
      rw [atEnd, hget]
      simpa using heof
    rw [if_neg heof]
    obtain ⟨r, k, hnext, -, -⟩ := parseNextStatement_total h hcursor
    rw [hnext, ok_bind]
    cases r with
    | error message =>
      exact ⟨state, k, _, rfl, Or.inr ⟨_, rfl, rfl⟩⟩
    | ok stmt =>
      obtain ⟨hlt, hk⟩ := next_advances h hnext
      obtain ⟨hskip, hskip'⟩ := skip_bounds h hk
      obtain ⟨state₁, hbody⟩ := hwork state stmt
      dsimp only
      rw [hbody, ok_bind]
      exact ih _ hskip' (by omega) state₁

end Tokens

/-- The statements that a sentence can mean: a list of values is not empty, and neither is a
select list. -/
def WellFormed : Statement → Prop
  | .insert stmt => stmt.values ≠ []
  | .select stmt => stmt.selectAll = true ↔ stmt.columns = []

section Rendering

variable {α : Type} {Item : List Token → α → Prop}

theorem tail_exists (h : ∀ a, ∃ ts, Item ts a) (as : List α) : ∃ ts, CommaTail Item ts as := by
  induction as with
  | nil => exact ⟨[], .nil⟩
  | cons a as ih =>
    obtain ⟨rest, hrest⟩ := ih
    obtain ⟨ts, hts⟩ := h a
    exact ⟨(⟨.comma, .lit ","⟩ : Token) :: (ts ++ rest), .cons rfl hts hrest⟩

theorem list_exists (h : ∀ a, ∃ ts, Item ts a) {as : List α} (hne : as ≠ []) :
    ∃ ts, CommaList Item ts as := by
  cases as with
  | nil => exact absurd rfl hne
  | cons a as =>
    obtain ⟨ts, hts⟩ := h a
    obtain ⟨rest, hrest⟩ := tail_exists h as
    exact ⟨ts ++ rest, .mk hts hrest⟩

theorem list_ne_nil {ts : List Token} {as : List α} (h : CommaList Item ts as) : as ≠ [] := by
  cases h
  simp

end Rendering

theorem ident_exists (name : CString) : ∃ ts, Ident ts name :=
  ⟨[⟨.identifier, name⟩], .mk rfl⟩

theorem literal_exists (value : LiteralValue) : ∃ ts, Literal ts value := by
  obtain ⟨type, text⟩ := value
  cases type with
  | string => exact ⟨[⟨.string, text⟩], .string rfl⟩
  | number => exact ⟨[⟨.number, text⟩], .number rfl⟩

theorem columns_exist (columns : List CString) : ∃ ts, Columns ts columns := by
  by_cases hne : columns = []
  · rw [hne]
    exact ⟨[], .absent⟩
  · obtain ⟨ts, hts⟩ := list_exists ident_exists hne
    exact ⟨(⟨.lparen, .lit "("⟩ : Token) :: (ts ++ [⟨.rparen, .lit ")"⟩]), .listed rfl hts rfl⟩

theorem condition_exists (clause : Option WhereClause) : ∃ ts, Condition ts clause := by
  cases clause with
  | none => exact ⟨[], .absent⟩
  | some clause =>
    obtain ⟨is, his⟩ := ident_exists clause.columnName
    obtain ⟨vs, hvs⟩ := literal_exists clause.value
    exact ⟨(⟨.where, .lit "WHERE"⟩ : Token) :: (is ++ (⟨.equal, .lit "="⟩ : Token) :: vs),
      .given rfl his rfl hvs⟩

theorem selectList_exists {selectAll : Bool} {columns : List CString}
    (h : selectAll = true ↔ columns = []) : ∃ ts, SelectList ts (selectAll, columns) := by
  cases selectAll with
  | true =>
    rw [h.mp rfl]
    exact ⟨[⟨.star, .lit "*"⟩], .star rfl⟩
  | false =>
    obtain ⟨ts, hts⟩ := list_exists ident_exists (fun hnil => by simpa using h.mpr hnil)
    exact ⟨ts, .columns hts⟩

theorem wellFormed_iff_sentence {stmt : Statement} : WellFormed stmt ↔ ∃ ts, Sentence ts stmt := by
  constructor
  · intro h
    cases stmt with
    | insert stmt =>
      obtain ⟨t, ht⟩ := ident_exists stmt.tableName
      obtain ⟨cs, hcs⟩ := columns_exist stmt.columns
      obtain ⟨ls, hls⟩ := list_exists literal_exists h
      have hrest : InsertRest ((⟨.into, .lit "INTO"⟩ : Token) :: (t ++ (cs ++
          (⟨.values, .lit "VALUES"⟩ : Token) :: ⟨.lparen, .lit "("⟩ :: (ls ++
            [⟨.rparen, .lit ")"⟩])))) stmt := .mk rfl ht hcs rfl rfl hls rfl
      exact ⟨⟨.insert, .lit "INSERT"⟩ :: _, .insert rfl hrest⟩
    | select stmt =>
      obtain ⟨sl, hsl⟩ := selectList_exists h
      obtain ⟨t, ht⟩ := ident_exists stmt.tableName
      obtain ⟨w, hw⟩ := condition_exists stmt.whereClause
      have hrest : SelectRest (sl ++ (⟨.from, .lit "FROM"⟩ : Token) :: (t ++ w)) stmt :=
        .mk hsl rfl ht hw
      exact ⟨⟨.select, .lit "SELECT"⟩ :: _, .select rfl hrest⟩
  · rintro ⟨ts, hsentence⟩
    cases hsentence with
    | insert _ hrest =>
      cases hrest with
      | mk _ _ _ _ _ hvalues _ => exact list_ne_nil hvalues
    | select _ hrest =>
      cases hrest with
      | mk hlist _ _ _ =>
        cases hlist with
        | star _ => simp [WellFormed]
        | columns hnames => simpa [WellFormed] using list_ne_nil hnames

theorem workThrough_collects (found stmts : List Statement) :
    workThrough (fun stmts stmt => .ok (stmts ++ [stmt], .ok ())) found stmts =
      .ok (found ++ stmts, .ok ()) := by
  induction stmts generalizing found with
  | nil => rw [workThrough, List.append_nil]
  | cons stmt stmts ih =>
    rw [workThrough, ok_bind]
    dsimp only
    rw [ih, List.append_assoc, List.singleton_append]

/-- The rounds of the loop are enough: a statement has at least one token. -/
theorem script_length {text : List Token} {stmts : List Statement} (h : Script text stmts) :
    stmts.length ≤ text.length := by
  induction h with
  | done => simp
  | @next semis ts rest stmt stmts _ hsentence _ ih =>
    obtain ⟨t, tail, rfl, -⟩ := sentence_start hsentence
    simp only [List.length_append, List.length_cons]
    omega

theorem script_splits {text : List Token} {stmts : List Statement} (h : Script text stmts)
    {eof : Token} (heof : eof.type = .eof) :
    splitStatements (text ++ [eof]) = .ok (stmts, text.length, .ok ()) := by
  have hspan : Span (text ++ [eof]) 0 text text.length := by
    refine ⟨?_, by rw [Nat.zero_add]⟩
    rw [List.drop_zero, List.drop_left]
  have hrounds : stmts.length < (text ++ [eof]).length + 1 := by
    have := script_length h
    rw [List.length_append]
    omega
  obtain ⟨found, hwork, hloop⟩ := loop_script
    (fun stmts stmt => .ok (stmts ++ [stmt], .ok ())) h hspan
    (List.getElem?_concat_length ..) heof hrounds [] (fun _ _ => ⟨_, rfl⟩)
  rw [workThrough_collects] at hwork
  cases hwork
  exact hloop

/-- The loop finds exactly the statements of a script, whatever semicolons stand around them;
every well-formed statement can stand there. On the tokens of any text each returned statement
moves the cursor on, at most to EOF, so the loop ends, at EOF or with a parse error. -/
theorem scripts_split_and_loop_ends :
    (∀ text stmts eof, Script text stmts → eof.type = .eof →
      splitStatements (text ++ [eof]) = .ok (stmts, text.length, .ok ())) ∧
    (∀ stmt, WellFormed stmt ↔ ∃ ts, Sentence ts stmt) ∧
    ∀ sql tokens, tokenizeSql sql = .ok tokens →
      (∀ cursor stmt k, parseNextStatement tokens cursor = .ok (.ok stmt, k) →
        cursor < k ∧ k < tokens.length) ∧
      ∃ stmts k ended, splitStatements tokens = .ok (stmts, k, ended) ∧
        (ended = .ok () ∧ atEnd tokens k = true ∨
          ∃ e, ended = .error e ∧ e.status = .parseError) := by
  refine ⟨fun text stmts eof h heof => script_splits h heof, fun stmt => wellFormed_iff_sentence,
    fun sql tokens htokens => ?_⟩
  have hends := tokenizeSql_ends htokens
  have hpos : 0 < tokens.length := by
    obtain ⟨body, eof, rfl, -⟩ := hends
    simp
  obtain ⟨-, hskip⟩ := skip_bounds hends hpos
  exact ⟨fun cursor stmt k hnext => next_advances hends hnext,
    loop_ends hends _ (fun _ _ => ⟨_, rfl⟩) _ _ hskip (by omega) []⟩

end ScriptLoop
