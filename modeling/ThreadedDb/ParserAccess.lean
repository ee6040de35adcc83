import ThreadedDb.EventLog
import ThreadedDb.SqlGrammar

/-!
# The tokens that the parser reads

`parser.c` with a log of every token that it reads and of every token that it goes over. No access
is checked in the source: over tokens that end in their only EOF all of them lie inside the array,
since the parser goes over a token only after it has seen that the token is not EOF.
-/
namespace ParserAccess

open ByteText
open SqlFrontEnd (Token TokenType Statement InsertStatement SelectStatement WhereClause LiteralValue
  Parse)
open ParserBounds
open SqlGrammar (Span Semicolons leading_sound accepts_bind accepts_pure accepts_peek_iff)
open EventLog
open CheckedArray (Fault ok_bind)

/-- `parser_peek` and `parser_previous` read a token; `parser_advance` goes over one. -/
inductive Access where
  | read (index : Int)
  | consume (index : ℕ)
  deriving DecidableEq

abbrev Traced := ExceptT CString (StateT ℕ (Logged Access Fault))

def Traced.start {α : Type} (p : Traced α) (cursor : ℕ) :
    Logged Access Fault (Except CString α × ℕ) := StateT.run (ExceptT.run p) cursor

def record (access : Access) : Traced Unit := ExceptT.mk fun cursor => do
  emit access
  pure (.ok (), cursor)

def fault {α : Type} (f : Fault) : Traced α := ExceptT.mk fun _ => silent (.error f)

def parseError {α : Type} (message : CString) : Traced α := throw (setError message)

section Parser

variable (tokens : List Token)

def tokenAt (i : ℕ) : Traced Token := do
  record (.read i)
  match tokens[i]? with
  | some token => pure token
  | none => fault .outOfBounds

def parserPeek : Traced Token := do tokenAt tokens (← get)

def parserPrevious : Traced Token := do
  match (← get) with
  | 0 => do
    record (.read (-1))
    fault .outOfBounds
  | i + 1 => tokenAt tokens i

def goOver : Traced Unit := do
  record (.consume (← get))
  modify (· + 1)

def parserAdvance : Traced Token := do
  let token ← parserPeek tokens
  if token.type ≠ .eof then goOver
  parserPrevious tokens

def parserMatch (type : TokenType) : Traced Bool := do
  let token ← parserPeek tokens
  if token.type ≠ type then pure false
  else do
    let _ ← parserAdvance tokens
    pure true

def parserSkipSemicolons : ℕ → Traced Unit
  | 0 => fault .unbounded
  | rounds + 1 => do
    if ← parserMatch tokens .semicolon then parserSkipSemicolons rounds else pure ()

def parserExpectWithMessage (type : TokenType) (message : CString) : Traced Unit := do
  if ← parserMatch tokens type then pure () else parseError message

def parseIdentifier : Traced CString := do
  let token ← parserPeek tokens
  if token.type ≠ .identifier then parseError (.lit "PARSE ERROR: expected identifier")
  else do
    let token ← parserAdvance tokens
    pure token.text

def parseLiteral : Traced LiteralValue := do
  let token ← parserPeek tokens
  match token.type with
  | .string => do
    let _ ← parserAdvance tokens
    pure ⟨.string, token.text⟩
  | .number => do
    let _ ← parserAdvance tokens
    pure ⟨.number, token.text⟩
  | _ => parseError (.lit "PARSE ERROR: expected literal")

def parseListTail {α : Type} (item : Traced α) : ℕ → List α → Traced (List α)
  | 0, _ => fault .unbounded
  | rounds + 1, items => do
    if ← parserMatch tokens .comma then do
      let next ← item
      parseListTail item rounds (items ++ [next])
    else pure items

def parseList {α : Type} (item : Traced α) : Traced (List α) := do
  let first ← item
  parseListTail tokens item (tokens.length + 1) [first]

def parseIdentifierList : Traced (List CString) := parseList tokens (parseIdentifier tokens)

def parseLiteralList : Traced (List LiteralValue) := parseList tokens (parseLiteral tokens)

def parseWhereClause : Traced (Option WhereClause) := do
  if ← parserMatch tokens .where then do
    let columnName ← parseIdentifier tokens
    parserExpectWithMessage tokens .equal (.lit "PARSE ERROR: expected '=' in WHERE clause")
    let value ← parseLiteral tokens
    pure (some ⟨columnName, value⟩)
  else pure none

def parseInsertColumns : Traced (List CString) := do
  if ← parserMatch tokens .lparen then do
    let columns ← parseIdentifierList tokens
    parserExpectWithMessage tokens .rparen (.lit "PARSE ERROR: expected ')' after column list")
    pure columns
  else pure []

def parseInsert : Traced InsertStatement := do
  parserExpectWithMessage tokens .into (.lit "PARSE ERROR: expected INTO after INSERT")
  let tableName ← parseIdentifier tokens
  let columns ← parseInsertColumns tokens
  parserExpectWithMessage tokens .values (.lit "PARSE ERROR: expected VALUES in INSERT statement")
  parserExpectWithMessage tokens .lparen (.lit "PARSE ERROR: expected '(' before value list")
  let values ← parseLiteralList tokens
  parserExpectWithMessage tokens .rparen (.lit "PARSE ERROR: expected ')' after value list")
  pure ⟨tableName, columns, values⟩

def parseSelectList : Traced (Bool × List CString) := do
  if ← parserMatch tokens .star then pure (true, [])
  else do
    let columns ← parseIdentifierList tokens
    pure (false, columns)

def parseSelect : Traced SelectStatement := do
  let (selectAll, columns) ← parseSelectList tokens
  parserExpectWithMessage tokens .from (.lit "PARSE ERROR: expected FROM after select list")
  let tableName ← parseIdentifier tokens
  let whereClause ← parseWhereClause tokens
  pure ⟨tableName, selectAll, columns, whereClause⟩

def parseByKeyword : Traced Statement := do
  if ← parserMatch tokens .insert then do
    let stmt ← parseInsert tokens
    pure (.insert stmt)
  else if ← parserMatch tokens .select then do
    let stmt ← parseSelect tokens
    pure (.select stmt)
  else parseError (.lit "PARSE ERROR: expected INSERT or SELECT")

def parseTerminated : Traced Statement := do
  let stmt ← parseByKeyword tokens
  let _ ← parserMatch tokens .semicolon
  pure stmt

def parseLeading : Traced Bool := do
  parserSkipSemicolons tokens (tokens.length + 1)
  let token ← parserPeek tokens
  pure (token.type = .eof)

def parseNextStatement (cursor : ℕ) : Logged Access Fault (Except CString Statement × ℕ) :=
  if tokens = [] then
    pure (.error (setError (.lit "PARSE ERROR: invalid token stream")), cursor)
  else if tokens.length ≤ cursor then
    pure (.error (setError (.lit "PARSE ERROR: parser cursor out of range")), cursor)
  else do
    match ← (parseLeading tokens).start cursor with
    | (.error message, _) => pure (.error message, cursor)
    | (.ok true, current) =>
      pure (.error (setError (.lit "PARSE ERROR: expected INSERT or SELECT")), current)
    | (.ok false, current) =>
      match ← (parseTerminated tokens).start current with
      | (.error message, _) => pure (.error message, cursor)
      | (.ok stmt, current) => pure (.ok stmt, current)

/-- The loop of `parse_statement` over the semicolons after the statement. -/
def skipTrailing : ℕ → ℕ → Logged Access Fault ℕ
  | 0, _ => silent (.error .unbounded)
  | rounds + 1, cursor =>
    match tokens[cursor]? with
    | none => pure cursor
    | some token => do
      emit (.read cursor)
      if token.type = .semicolon then skipTrailing rounds (cursor + 1) else pure cursor

def parseStatement : Logged Access Fault (Except CString Statement) := do
  match ← parseNextStatement tokens 0 with
  | (.error message, _) => pure (.error message)
  | (.ok stmt, cursor) => do
    let cursor ← skipTrailing tokens (tokens.length + 1) cursor
    match tokens[cursor]? with
    | none => pure (.error (setError (.lit "PARSE ERROR: unexpected trailing tokens")))
    | some token => do
      emit (.read cursor)
      if token.type = .eof then pure (.ok stmt)
      else pure (.error (setError (.lit "PARSE ERROR: unexpected trailing tokens")))

end Parser

def Safe (tokens : List Token) : Access → Prop
  | .read index => 0 ≤ index ∧ index < tokens.length
  | .consume index => ∃ token, tokens[index]? = some token ∧ token.type ≠ .eof

def resume {α β : Type} (f : α → Traced β) :
    Except CString α × ℕ → Logged Access Fault (Except CString β × ℕ)
  | (.error message, cursor) => pure (.error message, cursor)
  | (.ok a, cursor) => (f a).start cursor

theorem traced_bind {α β : Type} (p : Traced α) (f : α → Traced β) (i : ℕ) :
    (p >>= f).start i = p.start i >>= resume f := by
  change StateT.run (ExceptT.run (ExceptT.bind p f)) i = _
  simp only [ExceptT.run, ExceptT.bind, ExceptT.mk, StateT.run, bind, StateT.bind]
  congr 1
  funext r
  obtain ⟨a, j⟩ := r
  cases a with
  | error message => rfl
  | ok a => rfl

section Tokens

variable {tokens : List Token}

/-- From inside the tokens, `p` does what `q` does, and its accesses are safe. -/
def Tracks (tokens : List Token) {α : Type} (p : Traced α) (q : Parse α) : Prop :=
  ∀ i < tokens.length, (p.start i).result = q.start i ∧ Only (Safe tokens) (p.start i)

theorem tracks_pure {α : Type} (a : α) : Tracks tokens (pure a) (pure a) :=
  fun _ _ => ⟨rfl, only_pure _⟩

theorem tracks_error {α : Type} (message : CString) :
    Tracks tokens (parseError message : Traced α) (SqlFrontEnd.parseError message) :=
  fun _ _ => ⟨rfl, only_pure _⟩

theorem tracks_fault {α : Type} (f : Fault) :
    Tracks tokens (fault f : Traced α) (SqlFrontEnd.fault f) :=
  fun _ _ => ⟨rfl, only_silent _⟩

theorem tracks_bind {α β : Type} {p : Traced α} {q : Parse α} {f : α → Traced β}
    {g : α → Parse β} (hp : Tracks tokens p q) (hq : Stays tokens q)
    (hf : ∀ a, Tracks tokens (f a) (g a)) : Tracks tokens (p >>= f) (q >>= g) := by
  intro i hi
  obtain ⟨hresult, honly⟩ := hp i hi
  obtain ⟨r, j, hrun, -, hj⟩ := hq i hi
  rw [hrun] at hresult
  rw [traced_bind, result_bind, hresult, start_bind, hrun]
  refine ⟨?_, only_bind honly fun x hx => ?_⟩
  · cases r with
    | error message => rfl
    | ok a => exact (hf a j hj).1
  · rw [hresult] at hx
    cases hx
    cases r with
    | error message => exact only_pure _
    | ok a => exact (hf a j hj).2

theorem tracks_ite {α : Type} {c : Prop} [Decidable c] {p p' : Traced α} {q q' : Parse α}
    (h : Tracks tokens p q) (h' : Tracks tokens p' q') :
    Tracks tokens (if c then p else p') (if c then q else q') := by
  split
  · exact h
  · exact h'

theorem safe_read {i : ℕ} (hi : i < tokens.length) : Safe tokens (.read i) :=
  ⟨Int.natCast_nonneg i, Int.ofNat_lt.mpr hi⟩

theorem peek_traced {i : ℕ} {t : Token} (ht : tokens[i]? = some t) :
    (parserPeek tokens).start i = ⟨[.read i], .ok (.ok t, i)⟩ := by
  change (tokenAt tokens i).start i = _
  rw [tokenAt, traced_bind, ht]
  rfl

theorem previous_traced {i : ℕ} {t : Token} (ht : tokens[i]? = some t) :
    (parserPrevious tokens).start (i + 1) = ⟨[.read i], .ok (.ok t, i + 1)⟩ := by
  change (tokenAt tokens i).start (i + 1) = _
  rw [tokenAt, traced_bind, ht]
  rfl

theorem advance_traced {i : ℕ} {t : Token} (ht : tokens[i]? = some t) (htype : t.type ≠ .eof) :
    (parserAdvance tokens).start i = ⟨[.read i, .consume i, .read i], .ok (.ok t, i + 1)⟩ := by
  have hover : (goOver >>= fun _ => parserPrevious tokens).start i =
      ⟨[.consume i, .read i], .ok (.ok t, i + 1)⟩ := by
    have hgo : goOver.start i = ⟨[.consume i], .ok (.ok (), i + 1)⟩ := rfl
    rw [traced_bind, bind_of_ok hgo]
    simp only [resume, previous_traced ht, List.singleton_append]
  rw [parserAdvance, traced_bind, bind_of_ok (peek_traced ht)]
  simp only [resume, if_pos htype, hover, List.singleton_append]

theorem tracks_peek : Tracks tokens (parserPeek tokens) (SqlFrontEnd.parserPeek tokens) := by
  intro i hi
  rw [peek_start (List.getElem?_eq_getElem hi), peek_traced (List.getElem?_eq_getElem hi)]
  refine ⟨rfl, ?_⟩
  intro access haccess
  rw [List.mem_singleton.mp haccess]
  exact safe_read hi

theorem tracks_consume (h : EndsInEof tokens) {α : Type} {i : ℕ} {t : Token}
    (ht : tokens[i]? = some t) (htype : t.type ≠ .eof) {f : Token → Traced α}
    {g : Token → Parse α} (hf : Tracks tokens (f t) (g t)) :
    ((parserAdvance tokens >>= f).start i).result =
        (SqlFrontEnd.parserAdvance tokens >>= g).start i ∧
      Only (Safe tokens) ((parserAdvance tokens >>= f).start i) := by
  obtain ⟨hresult, honly⟩ := hf (i + 1) (h.next_lt ht htype)
  rw [traced_bind, bind_of_ok (advance_traced ht htype), start_bind, advance_start ht htype]
  refine ⟨hresult, ?_⟩
  have hread := safe_read (List.getElem?_eq_some_iff.mp ht).1
  intro access haccess
  rcases List.mem_append.mp haccess with hmem | hmem
  · simp only [List.mem_cons, List.not_mem_nil, or_false] at hmem
    rcases hmem with rfl | rfl | rfl
    · exact hread
    · exact ⟨t, ht, htype⟩
    · exact hread
  · exact honly access hmem

theorem tracks_look {α : Type} {f : Token → Traced α} {g : Token → Parse α}
    (hf : ∀ i t, tokens[i]? = some t → ((f t).start i).result = (g t).start i ∧
      Only (Safe tokens) ((f t).start i)) :
    Tracks tokens (parserPeek tokens >>= f) (SqlFrontEnd.parserPeek tokens >>= g) := by
  intro i hi
  have ht := List.getElem?_eq_getElem hi
  obtain ⟨hresult, honly⟩ := hf i _ ht
  rw [traced_bind, bind_of_ok (peek_traced ht), start_bind, peek_start ht]
  refine ⟨hresult, ?_⟩
  intro access haccess
  rcases List.mem_append.mp haccess with hmem | hmem
  · rw [List.mem_singleton.mp hmem]
    exact safe_read hi
  · exact honly access hmem

theorem tracks_match (h : EndsInEof tokens) {type : TokenType} (htype : type ≠ .eof) :
    Tracks tokens (parserMatch tokens type) (SqlFrontEnd.parserMatch tokens type) := by
  apply tracks_look
  intro i t ht
  by_cases hmatch : t.type = type
  · rw [if_neg (not_not.mpr hmatch), if_neg (not_not.mpr hmatch)]
    exact tracks_consume h ht (hmatch ▸ htype) (tracks_pure true)
  · rw [if_pos hmatch, if_pos hmatch]
    exact tracks_pure false i (List.getElem?_eq_some_iff.mp ht).1

theorem tracks_identifier (h : EndsInEof tokens) :
    Tracks tokens (parseIdentifier tokens) (SqlFrontEnd.parseIdentifier tokens) := by
  apply tracks_look
  intro i t ht
  by_cases hid : t.type = .identifier
  · rw [if_neg (not_not.mpr hid), if_neg (not_not.mpr hid)]
    exact tracks_consume h ht (by simp [hid]) (tracks_pure t.text)
  · rw [if_pos hid, if_pos hid]
    exact tracks_error _ i (List.getElem?_eq_some_iff.mp ht).1

theorem tracks_literal (h : EndsInEof tokens) :
    Tracks tokens (parseLiteral tokens) (SqlFrontEnd.parseLiteral tokens) := by
  apply tracks_look
  intro i t ht
  cases hkind : t.type with
  | string =>
    exact tracks_consume h ht (by simp [hkind]) (f := fun _ => pure _) (g := fun _ => pure _)
      (tracks_pure _)
  | number =>
    exact tracks_consume h ht (by simp [hkind]) (f := fun _ => pure _) (g := fun _ => pure _)
      (tracks_pure _)
  | _ => exact tracks_error _ i (List.getElem?_eq_some_iff.mp ht).1

theorem tracks_choice (h : EndsInEof tokens) {type : TokenType} (htype : type ≠ .eof) {α : Type}
    {p p' : Traced α} {q q' : Parse α} (hp : Tracks tokens p q) (hp' : Tracks tokens p' q') :
    Tracks tokens (do if ← parserMatch tokens type then p else p')
      (do if ← SqlFrontEnd.parserMatch tokens type then q else q') := by
  apply tracks_bind (tracks_match h htype) (stays_match h htype)
  intro matched
  exact tracks_ite hp hp'

theorem tracks_expect (h : EndsInEof tokens) {type : TokenType} (htype : type ≠ .eof)
    (message : CString) : Tracks tokens (parserExpectWithMessage tokens type message)
      (SqlFrontEnd.parserExpectWithMessage tokens type message) :=
  tracks_choice h htype (tracks_pure ()) (tracks_error message)

theorem tracks_after (h : EndsInEof tokens) {type : TokenType} (htype : type ≠ .eof)
    (message : CString) {α : Type} {p : Traced α} {q : Parse α} (hp : Tracks tokens p q) :
    Tracks tokens (do parserExpectWithMessage tokens type message; p)
      (do SqlFrontEnd.parserExpectWithMessage tokens type message; q) :=
  tracks_bind (tracks_expect h htype message) (stays_expect h htype message) (fun _ => hp)

theorem tracks_listTail (h : EndsInEof tokens) {α : Type} {item : Traced α} {item' : Parse α}
    (hitem : Tracks tokens item item') (hstays : Stays tokens item') (rounds : ℕ)
    (items : List α) : Tracks tokens (parseListTail tokens item rounds items)
      (SqlFrontEnd.parseListTail tokens item' rounds items) := by
  induction rounds generalizing items with
  | zero => exact tracks_fault .unbounded
  | succ rounds ih =>
    apply tracks_choice h (by decide) _ (tracks_pure items)
    exact tracks_bind hitem hstays (fun next => ih (items ++ [next]))

theorem tracks_list (h : EndsInEof tokens) {α : Type} {item : Traced α} {item' : Parse α}
    (hitem : Tracks tokens item item') (hstays : Stays tokens item') :
    Tracks tokens (parseList tokens item) (SqlFrontEnd.parseList tokens item') := by
  apply tracks_bind hitem hstays
  intro first
  exact tracks_listTail h hitem hstays _ _

theorem tracks_identifierList (h : EndsInEof tokens) :
    Tracks tokens (parseIdentifierList tokens) (SqlFrontEnd.parseIdentifierList tokens) :=
  tracks_list h (tracks_identifier h) (stays_identifier h)

theorem tracks_whereClause (h : EndsInEof tokens) :
    Tracks tokens (parseWhereClause tokens) (SqlFrontEnd.parseWhereClause tokens) := by
  apply tracks_choice h (by decide) _ (tracks_pure none)
  apply tracks_bind (tracks_identifier h) (stays_identifier h)
  intro columnName
  apply tracks_after h (by decide)
  apply tracks_bind (tracks_literal h) (stays_literal h)
  intro value
  exact tracks_pure _

theorem tracks_insertColumns (h : EndsInEof tokens) :
    Tracks tokens (parseInsertColumns tokens) (SqlFrontEnd.parseInsertColumns tokens) := by
  apply tracks_choice h (by decide) _ (tracks_pure [])
  apply tracks_bind (tracks_identifierList h) (stays_list h (stays_identifier h))
  intro columns
  apply tracks_after h (by decide)
  exact tracks_pure columns

theorem tracks_insert (h : EndsInEof tokens) :
    Tracks tokens (parseInsert tokens) (SqlFrontEnd.parseInsert tokens) := by
  apply tracks_after h (by decide)
  apply tracks_bind (tracks_identifier h) (stays_identifier h)
  intro tableName
  apply tracks_bind (tracks_insertColumns h) (stays_insertColumns h)
  intro columns
  apply tracks_after h (by decide)
  apply tracks_after h (by decide)
  apply tracks_bind (tracks_list h (tracks_literal h) (stays_literal h))
    (stays_list h (stays_literal h))
  intro values
  apply tracks_after h (by decide)
  exact tracks_pure _

theorem tracks_selectList (h : EndsInEof tokens) :
    Tracks tokens (parseSelectList tokens) (SqlFrontEnd.parseSelectList tokens) := by
  apply tracks_choice h (by decide) (tracks_pure _)
  apply tracks_bind (tracks_identifierList h) (stays_list h (stays_identifier h))
  intro columns
  exact tracks_pure _

theorem tracks_select (h : EndsInEof tokens) :
    Tracks tokens (parseSelect tokens) (SqlFrontEnd.parseSelect tokens) := by
  apply tracks_bind (tracks_selectList h) (stays_selectList h)
  intro list
  apply tracks_after h (by decide)
  apply tracks_bind (tracks_identifier h) (stays_identifier h)
  intro tableName
  apply tracks_bind (tracks_whereClause h) (stays_whereClause h)
  intro whereClause
  exact tracks_pure _

theorem tracks_keyword (h : EndsInEof tokens) :
    Tracks tokens (parseByKeyword tokens) (SqlFrontEnd.parseByKeyword tokens) := by
  apply tracks_choice h (by decide)
  · apply tracks_bind (tracks_insert h) (stays_insert h)
    intro stmt
    exact tracks_pure _
  apply tracks_choice h (by decide) _ (tracks_error _)
  apply tracks_bind (tracks_select h) (stays_select h)
  intro stmt
  exact tracks_pure _

theorem tracks_terminated (h : EndsInEof tokens) :
    Tracks tokens (parseTerminated tokens) (SqlFrontEnd.parseTerminated tokens) := by
  apply tracks_bind (tracks_keyword h) (stays_keyword h)
  intro stmt
  apply tracks_bind (tracks_match h (by decide)) (stays_match h (by decide))
  intro _
  exact tracks_pure stmt

theorem tracks_skipSemicolons (h : EndsInEof tokens) (rounds : ℕ) :
    Tracks tokens (parserSkipSemicolons tokens rounds)
      (SqlFrontEnd.parserSkipSemicolons tokens rounds) := by
  induction rounds with
  | zero => exact tracks_fault .unbounded
  | succ rounds ih =>
    exact tracks_choice h (by decide) ih (tracks_pure ())

theorem tracks_leading (h : EndsInEof tokens) :
    Tracks tokens (parseLeading tokens) (SqlFrontEnd.parseLeading tokens) := by
  apply tracks_bind (tracks_skipSemicolons h _) (stays_skipAll h)
  intro _
  exact tracks_bind tracks_peek stays_peek (fun token => tracks_pure _)

theorem next_tracks (h : EndsInEof tokens) {cursor : ℕ} (hcursor : cursor < tokens.length) :
    (parseNextStatement tokens cursor).result = SqlFrontEnd.parseNextStatement tokens cursor ∧
      Only (Safe tokens) (parseNextStatement tokens cursor) := by
  have hne : tokens ≠ [] := List.length_pos_iff.mp (Nat.zero_lt_of_lt hcursor)
  unfold parseNextStatement SqlFrontEnd.parseNextStatement
  rw [if_neg hne, if_neg (by omega), if_neg hne, if_neg (by omega)]
  obtain ⟨hlead, hsafe⟩ := tracks_leading h cursor hcursor
  obtain ⟨r, i, hrun, -, hi⟩ := stays_leading h cursor hcursor
  rw [hrun] at hlead
  rw [result_bind, hlead, hrun, ok_bind, ok_bind]
  refine ⟨?_, only_bind hsafe fun x hx => ?_⟩
  · cases r with
    | error message => rfl
    | ok ended =>
      cases ended with
      | true => rfl
      | false =>
        obtain ⟨hstmt, -⟩ := tracks_terminated h i hi
        refine erases_bind hstmt fun outcome => ?_
        obtain ⟨r', k⟩ := outcome
        cases r' with
        | error message => rfl
        | ok stmt => rfl
  · rw [hlead] at hx
    cases hx
    cases r with
    | error message => exact only_pure _
    | ok ended =>
      cases ended with
      | true => exact only_pure _
      | false =>
        refine only_bind (tracks_terminated h i hi).2 fun outcome _ => ?_
        obtain ⟨r', k⟩ := outcome
        cases r' with
        | error message => exact only_pure _
        | ok stmt => exact only_pure _

theorem skip_step {cursor : ℕ} {t : Token} (ht : tokens[cursor]? = some t) :
    SqlFrontEnd.skipSemicolons tokens cursor =
      if t.type = .semicolon then SqlFrontEnd.skipSemicolons tokens (cursor + 1) else cursor := by
  obtain ⟨hlt, rfl⟩ := List.getElem?_eq_some_iff.mp ht
  unfold SqlFrontEnd.skipSemicolons
  rw [List.drop_eq_getElem_cons hlt, List.takeWhile_cons]
  by_cases hsemi : tokens[cursor].type = .semicolon
  · rw [if_pos (decide_eq_true hsemi), if_pos hsemi, List.length_cons]
    omega
  · rw [if_neg (by simpa using hsemi), if_neg hsemi]
    rfl

theorem skip_tracks (rounds : ℕ) {cursor : ℕ} (hcursor : cursor ≤ tokens.length)
    (hrounds : tokens.length < cursor + rounds) :
    (skipTrailing tokens rounds cursor).result = .ok (SqlFrontEnd.skipSemicolons tokens cursor) ∧
      Only (Safe tokens) (skipTrailing tokens rounds cursor) := by
  induction rounds generalizing cursor with
  | zero => omega
  | succ rounds ih =>
    unfold skipTrailing
    cases ht : tokens[cursor]? with
    | none =>
      have hend : tokens.drop cursor = [] :=
        List.drop_eq_nil_of_le (List.getElem?_eq_none_iff.mp ht)
      refine ⟨?_, only_pure _⟩
      rw [SqlFrontEnd.skipSemicolons, hend]
      rfl
    | some t =>
      have hlt := (List.getElem?_eq_some_iff.mp ht).1
      rw [skip_step ht]
      by_cases hsemi : t.type = .semicolon
      · have hnext : cursor + 1 ≤ tokens.length := hlt
        obtain ⟨hresult, honly⟩ := ih hnext (by omega)
        simp only [if_pos hsemi]
        exact ⟨hresult, only_bind (only_emit (safe_read hlt)) fun _ _ => honly⟩
      · simp only [if_neg hsemi]
        exact ⟨rfl, only_bind (only_emit (safe_read hlt)) fun _ _ => only_pure _⟩

theorem statement_tracks (h : EndsInEof tokens) :
    (parseStatement tokens).result = SqlFrontEnd.parseStatement tokens ∧
      Only (Safe tokens) (parseStatement tokens) := by
  have hpos : 0 < tokens.length := by
    obtain ⟨body, eof, rfl, -⟩ := h
    simp
  obtain ⟨hnext, hsafe⟩ := next_tracks h hpos
  obtain ⟨r, cursor, hrun, -, hcursor⟩ := parseNextStatement_total h hpos
  rw [hrun] at hnext
  unfold parseStatement SqlFrontEnd.parseStatement
  rw [result_bind, hnext, hrun, ok_bind, ok_bind]
  obtain ⟨hskip, honly⟩ := skip_tracks (tokens.length + 1) hcursor.le (by omega)
  refine ⟨?_, only_bind hsafe fun x hx => ?_⟩
  · cases r with
    | error message => rfl
    | ok stmt =>
      dsimp only
      rw [result_bind, hskip, ok_bind, SqlFrontEnd.atEnd]
      cases ht : tokens[SqlFrontEnd.skipSemicolons tokens cursor]? with
      | none => rfl
      | some t =>
        by_cases heof : t.type = .eof
        · simp only [Option.map_some, heof, if_pos, decide_true]
          rfl
        · simp only [Option.map_some, heof, Option.some.injEq, decide_false, if_false]
          rfl
  · rw [hnext] at hx
    cases hx
    cases r with
    | error message => exact only_pure _
    | ok stmt =>
      refine only_bind honly fun k hk => ?_
      cases ht : tokens[k]? with
      | none => exact only_pure _
      | some t =>
        have hlt := (List.getElem?_eq_some_iff.mp ht).1
        refine only_bind (only_emit (safe_read hlt)) fun _ _ => ?_
        split
        · exact only_pure _
        · exact only_pure _

/-- Only semicolons stand between the two cursors, and EOF at the second. -/
def EofAfterSemicolons (tokens : List Token) (cursor cursor' : ℕ) : Prop :=
  ∃ ts t, Span tokens cursor ts cursor' ∧ Semicolons ts ∧ tokens[cursor']? = some t ∧
    t.type = .eof

theorem leading_eof {i j : ℕ}
    (hlead : (SqlFrontEnd.parseLeading tokens).start i = .ok (.ok true, j)) :
    EofAfterSemicolons tokens i j := by
  obtain ⟨ts, hspan, hsemi⟩ := leading_sound hlead
  obtain ⟨_, k, -, hrest⟩ := accepts_bind.mp hlead
  obtain ⟨t, l, hpeek, hpure⟩ := accepts_bind.mp hrest
  obtain ⟨heof, rfl⟩ := accepts_pure.mp hpure
  obtain ⟨ht, rfl⟩ := accepts_peek_iff.mp hpeek
  exact ⟨ts, t, hspan, hsemi, ht, of_decide_eq_true heof⟩

theorem failure_cursor (h : EndsInEof tokens) {cursor cursor' : ℕ}
    (hcursor : cursor < tokens.length) {message : CString}
    (hfail : SqlFrontEnd.parseNextStatement tokens cursor = .ok (.error message, cursor')) :
    cursor' = cursor ∨ EofAfterSemicolons tokens cursor cursor' := by
  have hne : tokens ≠ [] := List.length_pos_iff.mp (Nat.zero_lt_of_lt hcursor)
  unfold SqlFrontEnd.parseNextStatement at hfail
  rw [if_neg hne, if_neg (by omega)] at hfail
  obtain ⟨r, i, hrun, -, hi⟩ := stays_leading h cursor hcursor
  rw [hrun, ok_bind] at hfail
  cases r with
  | error e =>
    cases hfail
    exact Or.inl rfl
  | ok ended =>
    cases ended with
    | true =>
      cases hfail
      exact Or.inr (leading_eof hrun)
    | false =>
      obtain ⟨r', k, hrun', -, -⟩ := stays_terminated h i hi
      dsimp only at hfail
      rw [hrun', ok_bind] at hfail
      cases r' with
      | error e =>
        cases hfail
        exact Or.inl rfl
      | ok stmt => cases hfail

theorem parseStatement_total (h : EndsInEof tokens) :
    ∃ outcome, SqlFrontEnd.parseStatement tokens = .ok outcome := by
  have hpos : 0 < tokens.length := by
    obtain ⟨body, eof, rfl, -⟩ := h
    simp
  obtain ⟨r, cursor, hrun, -, -⟩ := parseNextStatement_total h hpos
  unfold SqlFrontEnd.parseStatement
  rw [hrun, ok_bind]
  cases r with
  | error message => exact ⟨_, rfl⟩
  | ok stmt =>
    dsimp only
    split
    · exact ⟨_, rfl⟩
    · exact ⟨_, rfl⟩

/-- Over tokens that end in their only EOF and from any cursor below their number, the parser
reads inside the array only and never goes over EOF; it ends, the cursor that it leaves lies inside
the array, and a failure leaves the cursor where it was unless EOF follows the leading
semicolons. -/
theorem parser_never_passes_eof (h : EndsInEof tokens) {cursor : ℕ}
    (hcursor : cursor < tokens.length) :
    (∀ access ∈ (parseNextStatement tokens cursor).events, Safe tokens access) ∧
      (∃ outcome cursor', (parseNextStatement tokens cursor).result = .ok (outcome, cursor') ∧
        SqlFrontEnd.parseNextStatement tokens cursor = .ok (outcome, cursor') ∧
        cursor ≤ cursor' ∧ cursor' < tokens.length ∧
        ∀ message, outcome = .error message →
          cursor' = cursor ∨ EofAfterSemicolons tokens cursor cursor') ∧
      (∀ access ∈ (parseStatement tokens).events, Safe tokens access) ∧
      ∃ outcome, (parseStatement tokens).result = .ok outcome ∧
        SqlFrontEnd.parseStatement tokens = .ok outcome := by
  obtain ⟨hnext, hsafe⟩ := next_tracks h hcursor
  obtain ⟨hstatement, hsafe'⟩ := statement_tracks h
  obtain ⟨r, cursor', hrun, hle, hlt⟩ := parseNextStatement_total h hcursor
  obtain ⟨outcome, houtcome⟩ := parseStatement_total h
  refine ⟨hsafe, ⟨r, cursor', hnext.trans hrun, hrun, hle, hlt, ?_⟩, hsafe', outcome,
    hstatement.trans houtcome, houtcome⟩
  rintro message rfl
  exact failure_cursor h hcursor hrun

end Tokens

/-- `; SELECT` and nothing after it, from the keyword on: the parser fails and puts the cursor back. -/
theorem truncated_select_reads :
    let tokens : List Token :=
      [⟨.semicolon, .lit ";"⟩, ⟨.select, .lit "SELECT"⟩, ⟨.eof, .empty⟩]
    (∀ access ∈ (parseNextStatement tokens 1).events, Safe tokens access) ∧
      (∃ message, (parseNextStatement tokens 1).result = .ok (.error message, 1) ∧
        SqlFrontEnd.parseNextStatement tokens 1 = .ok (.error message, 1)) ∧
      (∀ access ∈ (parseStatement tokens).events, Safe tokens access) ∧
      ∃ outcome, (parseStatement tokens).result = .ok outcome ∧
        SqlFrontEnd.parseStatement tokens = .ok outcome := by
  intro tokens
  have hends : EndsInEof tokens := ⟨[⟨.semicolon, .lit ";"⟩, ⟨.select, .lit "SELECT"⟩],
    ⟨.eof, .empty⟩, rfl, rfl, by simp⟩
  have hfails : (SqlFrontEnd.parseNextStatement tokens 1).map (fun r => (r.1.toBool, r.2)) =
      .ok (false, 1) := by decide +kernel
  obtain ⟨hsafe, ⟨outcome, cursor', hresult, hbase, -, -, -⟩, hsafe', hwhole⟩ :=
    parser_never_passes_eof hends (show 1 < tokens.length by decide)
  rw [hbase] at hfails
  cases outcome with
  | ok stmt => cases hfails
  | error message =>
    obtain rfl : cursor' = 1 := by simpa [Except.map, Except.toBool] using hfails
    exact ⟨hsafe, ⟨message, hresult, hbase⟩, hsafe', hwhole⟩

end ParserAccess
