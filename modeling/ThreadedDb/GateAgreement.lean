import ThreadedDb.ConcurrentCalls
import ThreadedDb.LexerRoundTrip
import ThreadedDb.ScriptLoop

/-!
# The server's gate and `parse_statement`

`db_api_execute_sql` trims its text and checks on its own that it is one statement. White space
around a text makes no difference to its tokens, so the gate lets through what `parse_statement`
accepts on the text as it came, and every section of the call works on that statement.
-/
namespace GateAgreement

open ByteText
open SchemaModel
open SqlFrontEnd
open RuntimeModel
open DbApiModel
open ParserBounds
open SqlGrammar
open ScriptLoop
open LexerRoundTrip
open Scanning
open TableSections
open ConcurrentCalls
open CheckedArray (ok_bind)

def behind {α : Type} (w : Bytes) : Except CString (α × Bytes) → Except CString (α × Bytes)
  | .error message => .error message
  | .ok (a, rest) => .ok (a, rest ++ w)

theorem white_parts {w : Bytes} (hw : White w) : Parted w := by
  intro c hc
  exact hw c (List.mem_of_mem_head? hc)

theorem numberBytes_behind {w : Bytes} (hw : Parted w) (b : Bytes) :
    numberBytes (b ++ w) false = behind w (numberBytes b false) := by
  have hdigit := hw.stops_digit
  obtain ⟨htake, hdrop⟩ := cut_behind hdigit b
  by_cases hdot : (b.dropWhile isDigit).head? = some 46
  · obtain ⟨rest, hrest⟩ : ∃ rest, b.dropWhile isDigit = 46 :: rest :=
      List.head?_eq_some_iff.mp hdot
    rw [hrest, List.cons_append] at hdrop
    by_cases hd : Stops isDigit rest
    · rw [numberBytes_dangling (hd.append hdigit) hdrop, numberBytes_dangling hd hrest]
      rfl
    · obtain ⟨d, hd, hdig⟩ : ∃ d, rest.head? = some d ∧ isDigit d = true := by
        simpa [Stops] using hd
      obtain ⟨rest, rfl⟩ := List.head?_eq_some_iff.mp hd
      rw [List.cons_append] at hdrop
      obtain ⟨htake', hdrop'⟩ := cut_behind hdigit (d :: rest)
      rw [List.cons_append] at htake' hdrop'
      rw [numberBytes_fraction hdig hdrop, numberBytes_fraction hdig hrest, htake, htake', hdrop']
      rfl
  · have hnodot : ((b ++ w).dropWhile isDigit).head? ≠ some 46 := by
      rw [hdrop]
      cases hcut : b.dropWhile isDigit with
      | nil => exact hw.no_dot
      | cons c rest =>
        rw [hcut] at hdot
        exact hdot
    rw [numberBytes_whole hnodot, numberBytes_whole hdot, htake, hdrop]
    rfl

theorem stringBytes_of_white {w : Bytes} (hw : White w) :
    stringBytes w = .error (setError (.lit "LEX ERROR: unterminated string literal")) := by
  induction w with
  | nil => rfl
  | cons c w ih =>
    have hc := (space_not_word c (hw c List.mem_cons_self)).2.2
    rw [stringBytes.eq_def]
    dsimp only
    rw [if_neg hc, ih (fun d hd => hw d (List.mem_cons_of_mem _ hd))]

theorem stringBytes_white {w : Bytes} (hw : White w) (b : Bytes) :
    stringBytes (b ++ w) = behind w (stringBytes b) := by
  fun_induction stringBytes b with
  | case1 => exact stringBytes_of_white hw
  | case2 => exact stringBytes_complete [] (white_parts hw).no_quote
  | case3 b message hrec ih =>
    rw [hrec] at ih
    rw [stringBytes.eq_def]
    simp [ih, behind]
  | case4 b text rest hrec ih =>
    rw [hrec] at ih
    rw [stringBytes.eq_def]
    simp [ih, behind]
  | case5 c b hc =>
    rw [stringBytes.eq_def]
    simp [hc, behind]
  | case6 c b hc message hrec ih =>
    rw [hrec] at ih
    rw [stringBytes.eq_def]
    simp [hc, ih, behind]
  | case7 c b hc text rest hrec ih =>
    rw [hrec] at ih
    rw [stringBytes.eq_def]
    simp [hc, ih, behind]

/-- What stands behind a token, after white space, stays behind it, if it closes no string
literal. -/
theorem nextToken_behind {w : Bytes} (hparted : Parted w) {ch : UInt8} {b : Bytes}
    (hstring : ch = 39 → stringBytes (b ++ w) = behind w (stringBytes b)) :
    nextToken ch (b ++ w) = behind w (nextToken ch b) := by
  have hhead : ((b ++ w).head?.map isDigit).getD false = (b.head?.map isDigit).getD false := by
    cases b with
    | nil =>
      cases w with
      | nil => rfl
      | cons c w => exact hparted.stops_digit c rfl
    | cons c b => rfl
  unfold nextToken
  rw [hhead]
  split
  · obtain ⟨htake, hdrop⟩ := cut_behind hparted.stops_word (ch :: b)
    rw [List.cons_append] at htake hdrop
    unfold tokenizeIdentifier
    rw [htake, hdrop]
    rfl
  split
  · have hsign (x : Bytes) : (ch :: x).drop (if ch = 45 then [ch] else []).length =
        (if ch = 45 then [] else [ch]) ++ x := by
      split
      · rfl
      · rfl
    have hnum := numberBytes_behind hparted ((if ch = 45 then [] else [ch]) ++ b)
    simp only [tokenizeNumber, List.head?_cons, Option.some.injEq, List.take_succ_cons,
      List.take_zero, hsign]
    rw [List.append_assoc] at hnum
    rw [hnum]
    cases numberBytes ((if ch = 45 then [] else [ch]) ++ b) false with
    | error message => rfl
    | ok r => rfl
  split
  · rename_i hquote
    unfold tokenizeString
    rw [List.drop_one, List.drop_one, List.tail_cons, List.tail_cons, hstring hquote]
    cases stringBytes b with
    | error message => rfl
    | ok r => rfl
  · unfold tokenizeSymbol
    cases symbolType ch with
    | none => rfl
    | some type => rfl

theorem tokenizeFrom_behind {w : Bytes} (hw : White w) {rounds rounds' : ℕ} {b : Bytes}
    (hrounds : b.length < rounds) (hrounds' : (b ++ w).length < rounds') :
    tokenizeFrom rounds' (b ++ w) = tokenizeFrom rounds b := by
  induction rounds generalizing b rounds' with
  | zero => omega
  | succ rounds ih =>
    cases b with
    | nil =>
      have hwhite := tokenizeFrom_white (b := []) hw (Nat.le_of_lt hrounds')
      rw [List.append_nil] at hwhite
      rw [List.nil_append] at hrounds' ⊢
      rw [hwhite, tokenizeFrom_nil (by omega), tokenizeFrom_nil (by omega)]
    | cons ch b =>
      obtain ⟨rounds', rfl⟩ : ∃ r, rounds' = r + 1 := ⟨rounds' - 1, by omega⟩
      rw [List.cons_append, List.length_cons] at hrounds'
      rw [List.length_cons] at hrounds
      rw [List.cons_append, tokenizeFrom, tokenizeFrom,
        nextToken_behind (white_parts hw) (fun _ => stringBytes_white hw b)]
      by_cases hch : isSpace ch = true
      · rw [if_pos hch, if_pos hch]
        exact ih (by omega) (by omega)
      rw [if_neg hch, if_neg hch]
      cases hnext : nextToken ch b with
      | error message => rfl
      | ok r =>
        obtain ⟨token, rest⟩ := r
        have hshrink := nextToken_shrinks hnext
        rw [List.length_append] at hrounds'
        simp only [behind]
        rw [ih (by omega) (by rw [List.length_append]; omega)]

theorem trim_white (sql : CString) :
    ∃ before after, White before ∧ White after ∧
      sql.bytes = before ++ (sql.trim.bytes ++ after) := by
  have hwhite (b : Bytes) : White (b.takeWhile isSpace) := fun c hc => List.mem_takeWhile_imp hc
  have hcut (b : Bytes) := List.takeWhile_append_dropWhile (p := isSpace) (l := b)
  refine ⟨sql.bytes.takeWhile isSpace,
    ((sql.bytes.dropWhile isSpace).reverse.takeWhile isSpace).reverse, hwhite _, ?_, ?_⟩
  · intro c hc
    exact hwhite _ c (List.mem_reverse.mp hc)
  · change _ = _ ++ (List.reverse _ ++ _)
    rw [← List.reverse_append, hcut, List.reverse_reverse, hcut]

theorem tokenizeSql_trim (sql : CString) : tokenizeSql sql.trim = tokenizeSql sql := by
  obtain ⟨before, after, hbefore, hafter, hbytes⟩ := trim_white sql
  have hrounds : (sql.trim.bytes ++ after).length <
      (before ++ (sql.trim.bytes ++ after)).length + 1 - before.length := by
    simp only [List.length_append]
    omega
  rw [tokenizeSql, tokenizeSql, hbytes,
    tokenizeFrom_white hbefore (by rw [List.length_append]; omega)]
  exact (tokenizeFrom_behind hafter (Nat.lt_succ_self _) hrounds).symm

/-- `tokenize_sql` and `parse_statement` succeed on the text as it is. -/
def Parsed (sql : CString) (stmt : Statement) : Prop :=
  ∃ tokens, tokenizeSql sql = .ok tokens ∧ parseStatement tokens = .ok (.ok stmt)

def Refusal (response : ApiResponse) : Prop :=
  response.httpStatus = 400 ∧
    ∃ errorCode message, response.json = makeErrorJson errorCode message

theorem requestError_refuses (status : StatusCode) (errorCode message : CString) :
    Refusal (requestError status errorCode message) := ⟨rfl, errorCode, message, rfl⟩

theorem gate_cases (sql : CString) :
    (∃ response, gate sql = .ok (.error response) ∧ Refusal response) ∨
    ∃ tokens stmt k, gate sql = .ok (.ok stmt) ∧ tokenizeSql sql = .ok tokens ∧
      parseNextStatement tokens (skipSemicolons tokens 0) = .ok (.ok stmt, k) ∧
      atEnd tokens (skipSemicolons tokens k) = true := by
  unfold gate
  rw [tokenizeSql_trim]
  split
  · exact Or.inl ⟨_, rfl, requestError_refuses _ _ _⟩
  split
  · exact Or.inl ⟨_, rfl, requestError_refuses _ _ _⟩
  rename_i tokens htokens
  split
  · exact Or.inl ⟨_, rfl, requestError_refuses _ _ _⟩
  rename_i token htoken
  split
  · exact Or.inl ⟨_, rfl, requestError_refuses _ _ _⟩
  split
  · exact Or.inl ⟨_, rfl, requestError_refuses _ _ _⟩
  obtain ⟨r, k, hnext, -, -⟩ := parseNextStatement_total (tokenizeSql_ends htokens)
    (List.getElem?_eq_some_iff.mp htoken).1
  rw [hnext, ok_bind]
  cases r with
  | error message => exact Or.inl ⟨_, rfl, requestError_refuses _ _ _⟩
  | ok stmt =>
    dsimp only
    split
    · rename_i hend
      exact Or.inr ⟨tokens, stmt, k, rfl, htokens, hnext, hend⟩
    · exact Or.inl ⟨_, rfl, requestError_refuses _ _ _⟩

theorem gate_of_oneStatement {sql : CString} {tokens : List Token} {stmt : Statement}
    (htokens : tokenizeSql sql = .ok tokens) (h : OneStatement tokens stmt) :
    gate sql = .ok (.ok stmt) := by
  obtain ⟨t, ht, htype, hfound⟩ := next_of_oneStatement h
  obtain ⟨k, hnext, hend⟩ := hfound _ (Or.inr rfl)
  have hne : t.type ≠ .eof := by rcases htype with htype | htype <;> simp [htype]
  have hkeyword : ¬ (t.type ≠ .select ∧ t.type ≠ .insert) := by
    rintro ⟨hselect, hinsert⟩
    rcases htype with htype | htype
    · exact hinsert htype
    · exact hselect htype
  have htext : sql.trim.bytes ≠ [] := by
    intro hempty
    rw [← tokenizeSql_trim, tokenizeSql, hempty] at htokens
    cases htokens
    rw [show skipSemicolons [⟨.eof, .empty⟩] 0 = 0 from rfl] at ht
    cases ht
    exact hne rfl
  unfold gate
  rw [if_neg htext, tokenizeSql_trim, htokens]
  dsimp only
  rw [ht]
  dsimp only
  rw [if_neg hne, if_neg hkeyword, hnext, ok_bind]
  dsimp only
  rw [if_pos hend]

theorem gate_iff_parsed {sql : CString} {stmt : Statement} :
    gate sql = .ok (.ok stmt) ↔ Parsed sql stmt := by
  constructor
  · intro h
    rcases gate_cases sql with ⟨response, hgate, -⟩ | ⟨tokens, stmt', k, hgate, htokens, hnext, hend⟩
    · rw [h] at hgate
      cases hgate
    · rw [h] at hgate
      cases hgate
      obtain ⟨pre, hpre, hsemi⟩ := skip_span tokens 0
      exact ⟨tokens, htokens, parseStatement_complete
        (oneStatement_of_next (tokenizeSql_ends htokens) hpre hsemi hnext hend)⟩
  · rintro ⟨tokens, htokens, hparse⟩
    exact gate_of_oneStatement htokens (parseStatement_sound (tokenizeSql_ends htokens) hparse)

def statement : CallState → Option Statement
  | .insert stmt => some (.insert stmt)
  | .preload stmt => some (.select stmt)
  | .select stmt => some (.select stmt)
  | .returned _ => none

/-- The states of one call, whatever the other calls do to the database between its sections. -/
inductive Passes (sql : CString) : CallState → Prop
  | start : Passes sql (started sql)
  | next {state : CallState} (db : Db) : Passes sql state → Passes sql (api.body state db).2

def Executes (sql : CString) (stmt : Statement) : Prop :=
  ∃ state, Passes sql state ∧ statement state = some stmt

theorem statement_started {sql : CString} {stmt : Statement} :
    statement (started sql) = some stmt ↔ gate sql = .ok (.ok stmt) := by
  unfold started
  cases gate sql with
  | error f => simp [statement]
  | ok g =>
    cases g with
    | error response => simp [statement]
    | ok stmt' => cases stmt' <;> simp [statement]

theorem statement_body (state : CallState) (db : Db) :
    statement (api.body state db).2 = statement state ∨ statement (api.body state db).2 = none := by
  have hexecute (stmt : Statement) : statement (executeBody stmt db).2 = none := by
    unfold executeBody
    split
    · rfl
    · rfl
  cases state with
  | insert stmt => exact Or.inr (hexecute _)
  | preload stmt =>
    change statement (preloadBody stmt db).2 = _ ∨ statement (preloadBody stmt db).2 = _
    unfold preloadBody
    split
    · exact Or.inr rfl
    · rename_i disk ctx out _
      cases out with
      | error e => exact Or.inr rfl
      | ok _ => exact Or.inl rfl
  | select stmt => exact Or.inr (hexecute _)
  | returned response => exact Or.inl rfl

theorem statement_passes {sql : CString} {state : CallState} (h : Passes sql state)
    {stmt : Statement} (hstmt : statement state = some stmt) : gate sql = .ok (.ok stmt) := by
  induction h with
  | start => exact statement_started.mp hstmt
  | @next state db _ ih =>
    rcases statement_body state db with hsame | hnone
    · exact ih (hsame ▸ hstmt)
    · rw [hnone] at hstmt
      cases hstmt

/-- A call executes a statement exactly if `parse_statement` accepts its text, and then the
statement that it returns. Any other text is answered with 400 and an error body, without a
section; so is every text in which the loop of the command line finds two statements or more. -/
theorem gate_agrees_with_parsing (sql : CString) :
    (∀ stmt, Executes sql stmt ↔ Parsed sql stmt) ∧
    ((∀ stmt, ¬ Parsed sql stmt) → ∃ response, Refusal response ∧
      started sql = .returned (.ok response) ∧
      ∀ disk ctx, dbApiExecuteSql disk ctx sql = .ok (disk, ctx, response)) ∧
    ∀ tokens stmts k ended, tokenizeSql sql = .ok tokens →
      splitStatements tokens = .ok (stmts, k, ended) → 2 ≤ stmts.length →
      ∀ stmt, ¬ Executes sql stmt := by
  have hexecutes (stmt : Statement) : Executes sql stmt ↔ Parsed sql stmt := by
    rw [← gate_iff_parsed]
    constructor
    · rintro ⟨state, hpasses, hstmt⟩
      exact statement_passes hpasses hstmt
    · intro hgate
      exact ⟨started sql, .start, statement_started.mpr hgate⟩
  refine ⟨hexecutes, ?_, ?_⟩
  · intro hnone
    rcases gate_cases sql with ⟨response, hgate, hrefusal⟩ | ⟨tokens, stmt, k, hgate, -⟩
    · refine ⟨response, hrefusal, ?_, fun disk ctx => call_rejected hgate ⟨disk, ctx⟩⟩
      unfold started
      rw [hgate]
    · exact absurd (gate_iff_parsed.mp hgate) (hnone stmt)
  · intro tokens stmts k ended htokens hsplit htwo stmt hstmt
    obtain ⟨tokens', htokens', hparse⟩ := (hexecutes stmt).mp hstmt
    rw [htokens] at htokens'
    cases htokens'
    -- one statement between semicolons is a script of one statement
    obtain ⟨before, body, after, eof, rfl, hsemi, hsentence, hsemi', heof⟩ :=
      parseStatement_sound (tokenizeSql_ends htokens) hparse
    have hscript := Script.next hsemi hsentence (.done hsemi')
    rw [List.append_assoc before, script_splits hscript heof] at hsplit
    cases hsplit
    simp at htwo

end GateAgreement
