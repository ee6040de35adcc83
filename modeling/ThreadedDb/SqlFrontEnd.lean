import ThreadedDb.ByteText
import ThreadedDb.CheckedArray

/-!
# Statements, tokens and the parser

`ast.h`, `lexer.c` and `parser.c`. The lexer works on the bytes from its index on; the parser
reads the token array at its cursor, and a read outside the array is a fault.
-/
namespace SqlFrontEnd

open ByteText
open CheckedArray (Checked Fault)

inductive ValueType where
  | string
  | number
  deriving DecidableEq, Repr

structure LiteralValue where
  type : ValueType
  text : CString
  deriving DecidableEq

structure InsertStatement where
  tableName : CString
  columns : List CString
  values : List LiteralValue
  deriving DecidableEq

structure WhereClause where
  columnName : CString
  value : LiteralValue
  deriving DecidableEq

structure SelectStatement where
  tableName : CString
  selectAll : Bool
  columns : List CString
  whereClause : Option WhereClause
  deriving DecidableEq

inductive Statement where
  | insert (stmt : InsertStatement)
  | select (stmt : SelectStatement)
  deriving DecidableEq

def Statement.tableName : Statement → CString
  | .insert stmt => stmt.tableName
  | .select stmt => stmt.tableName

inductive TokenType where
  | eof
  | identifier
  | string
  | number
  | comma
  | lparen
  | rparen
  | semicolon
  | star
  | insert
  | into
  | values
  | select
  | from
  | where
  | equal
  deriving DecidableEq, Repr

structure Token where
  type : TokenType
  text : CString
  deriving DecidableEq

-- the character classes of `ctype.h` in the C locale
def isDigit (b : UInt8) : Bool := 48 ≤ b && b ≤ 57
def isAlpha (b : UInt8) : Bool := (65 ≤ b && b ≤ 90) || (97 ≤ b && b ≤ 122)
def isAlnum (b : UInt8) : Bool := isAlpha b || isDigit b
def toUpper (b : UInt8) : UInt8 := if 97 ≤ b && b ≤ 122 then b - 32 else b

def stringsEqualIgnoreCase (lhs rhs : CString) : Bool :=
  lhs.bytes.map toUpper = rhs.bytes.map toUpper

def keywordType (text : CString) : TokenType :=
  if stringsEqualIgnoreCase text (.lit "INSERT") then .insert
  else if stringsEqualIgnoreCase text (.lit "INTO") then .into
  else if stringsEqualIgnoreCase text (.lit "VALUES") then .values
  else if stringsEqualIgnoreCase text (.lit "SELECT") then .select
  else if stringsEqualIgnoreCase text (.lit "FROM") then .from
  else if stringsEqualIgnoreCase text (.lit "WHERE") then .where
  else .identifier

def isWordByte (b : UInt8) : Bool := isAlnum b || b = 95

abbrev Lexed := Except CString (Token × Bytes)

def tokenizeIdentifier (rest : Bytes) : Lexed :=
  let text := CString.ofBuffer (rest.takeWhile isWordByte)
  .ok (⟨keywordType text, text⟩, rest.dropWhile isWordByte)

/-- The loop of `tokenize_number`: digits, and one dot if a digit follows it. -/
def numberBytes : Bytes → Bool → Except CString (Bytes × Bytes)
  | [], _ => .ok ([], [])
  | b :: rest, seenDot =>
    if isDigit b then
      match numberBytes rest seenDot with
      | .error message => .error message
      | .ok (text, rest) => .ok (b :: text, rest)
    else if seenDot = false ∧ b = 46 then
      match rest with
      | [] => .error (setError (.lit "LEX ERROR: invalid number literal"))
      | c :: _ =>
        if isDigit c then
          match numberBytes rest true with
          | .error message => .error message
          | .ok (text, rest) => .ok (b :: text, rest)
        else .error (setError (.lit "LEX ERROR: invalid number literal"))
    else .ok ([], b :: rest)

def tokenizeNumber (rest : Bytes) : Lexed :=
  let sign := if rest.head? = some 45 then rest.take 1 else []
  match numberBytes (rest.drop sign.length) false with
  | .error message => .error message
  | .ok (text, rest) => .ok (⟨.number, .ofBuffer (sign ++ text)⟩, rest)

/-- The loop of `tokenize_string` after the opening quote; a doubled quote is one quote. -/
def stringBytes : Bytes → Except CString (Bytes × Bytes)
  | [] => .error (setError (.lit "LEX ERROR: unterminated string literal"))
  | b :: rest =>
    if b = 39 then
      match rest with
      | [] => .ok ([], rest)
      | c :: rest' =>
        if c = 39 then
          match stringBytes rest' with
          | .error message => .error message
          | .ok (text, rest) => .ok (39 :: text, rest)
        else .ok ([], rest)
    else
      match stringBytes rest with
      | .error message => .error message
      | .ok (text, rest) => .ok (b :: text, rest)

def tokenizeString (rest : Bytes) : Lexed :=
  match stringBytes (rest.drop 1) with
  | .error message => .error message
  | .ok (text, rest) => .ok (⟨.string, .ofBuffer text⟩, rest)

def symbolType (ch : UInt8) : Option TokenType :=
  if ch = 44 then some .comma
  else if ch = 40 then some .lparen
  else if ch = 41 then some .rparen
  else if ch = 59 then some .semicolon
  else if ch = 42 then some .star
  else if ch = 61 then some .equal
  else none

def tokenizeSymbol (ch : UInt8) (rest : Bytes) : Lexed :=
  match symbolType ch with
  | none => .error (setError (.lit "LEX ERROR: invalid character"))
  | some type => .ok (⟨type, .ofBuffer [ch]⟩, rest)

def nextToken (ch : UInt8) (rest : Bytes) : Lexed :=
  if isAlpha ch || ch = 95 then tokenizeIdentifier (ch :: rest)
  else if isDigit ch || (ch = 45 && (rest.head?.map isDigit).getD false) then
    tokenizeNumber (ch :: rest)
  else if ch = 39 then tokenizeString (ch :: rest)
  else tokenizeSymbol ch rest

def tokenizeFrom : ℕ → Bytes → Except CString (List Token)
  | 0, _ => .ok []
  | _ + 1, [] => .ok [⟨.eof, .empty⟩]
  | rounds + 1, ch :: rest =>
    if isSpace ch then tokenizeFrom rounds rest
    else
      match nextToken ch rest with
      | .error message => .error message
      | .ok (token, rest) =>
        match tokenizeFrom rounds rest with
        | .error message => .error message
        | .ok tokens => .ok (token :: tokens)

def tokenizeSql (sql : CString) : Except CString (List Token) :=
  tokenizeFrom (sql.bytes.length + 1) sql.bytes

/-- A parser moves the cursor, also where it fails with an error text. -/
abbrev Parse := ExceptT CString (StateT ℕ (Except Fault))

def Parse.start {α : Type} (p : Parse α) (cursor : ℕ) : Checked (Except CString α × ℕ) :=
  StateT.run (ExceptT.run p) cursor

def fault {α : Type} (f : Fault) : Parse α := ExceptT.mk (fun _ => .error f)

def parseError {α : Type} (message : CString) : Parse α := throw (setError message)

section Parser

variable (tokens : List Token)

def tokenAt (i : ℕ) : Parse Token :=
  match tokens[i]? with
  | some token => pure token
  | none => fault .outOfBounds

def parserPeek : Parse Token := do tokenAt tokens (← get)

/-- The token before the cursor; before the first one is outside the array. -/
def parserPrevious : Parse Token := do
  match (← get) with
  | 0 => fault .outOfBounds
  | i + 1 => tokenAt tokens i

def parserAdvance : Parse Token := do
  let token ← parserPeek tokens
  if token.type ≠ .eof then modify (· + 1)
  parserPrevious tokens

def parserMatch (type : TokenType) : Parse Bool := do
  let token ← parserPeek tokens
  if token.type ≠ type then pure false
  else do
    let _ ← parserAdvance tokens
    pure true

def parserSkipSemicolons : ℕ → Parse Unit
  | 0 => fault .unbounded
  | rounds + 1 => do
    if ← parserMatch tokens .semicolon then parserSkipSemicolons rounds else pure ()

def parserExpectWithMessage (type : TokenType) (message : CString) : Parse Unit := do
  if ← parserMatch tokens type then pure () else parseError message

def parseIdentifier : Parse CString := do
  let token ← parserPeek tokens
  if token.type ≠ .identifier then parseError (.lit "PARSE ERROR: expected identifier")
  else do
    let token ← parserAdvance tokens
    pure token.text

def parseLiteral : Parse LiteralValue := do
  let token ← parserPeek tokens
  match token.type with
  | .string => do
    let _ ← parserAdvance tokens
    pure ⟨.string, token.text⟩
  | .number => do
    let _ ← parserAdvance tokens
    pure ⟨.number, token.text⟩
  | _ => parseError (.lit "PARSE ERROR: expected literal")

/-- The rest of a list after its first item: a comma and one more item each round. -/
def parseListTail {α : Type} (item : Parse α) : ℕ → List α → Parse (List α)
  | 0, _ => fault .unbounded
  | rounds + 1, items => do
    if ← parserMatch tokens .comma then do
      let next ← item
      parseListTail item rounds (items ++ [next])
    else pure items

/-- The shape that `parse_identifier_list` and `parse_literal_list` share. -/
def parseList {α : Type} (item : Parse α) : Parse (List α) := do
  let first ← item
  parseListTail tokens item (tokens.length + 1) [first]

def parseIdentifierList : Parse (List CString) := parseList tokens (parseIdentifier tokens)

def parseLiteralList : Parse (List LiteralValue) := parseList tokens (parseLiteral tokens)

def parseWhereClause : Parse (Option WhereClause) := do
  if ← parserMatch tokens .where then do
    let columnName ← parseIdentifier tokens
    parserExpectWithMessage tokens .equal (.lit "PARSE ERROR: expected '=' in WHERE clause")
    let value ← parseLiteral tokens
    pure (some ⟨columnName, value⟩)
  else pure none

def parseInsertColumns : Parse (List CString) := do
  if ← parserMatch tokens .lparen then do
    let columns ← parseIdentifierList tokens
    parserExpectWithMessage tokens .rparen (.lit "PARSE ERROR: expected ')' after column list")
    pure columns
  else pure []

def parseInsert : Parse InsertStatement := do
  parserExpectWithMessage tokens .into (.lit "PARSE ERROR: expected INTO after INSERT")
  let tableName ← parseIdentifier tokens
  let columns ← parseInsertColumns tokens
  parserExpectWithMessage tokens .values (.lit "PARSE ERROR: expected VALUES in INSERT statement")
  parserExpectWithMessage tokens .lparen (.lit "PARSE ERROR: expected '(' before value list")
  let values ← parseLiteralList tokens
  parserExpectWithMessage tokens .rparen (.lit "PARSE ERROR: expected ')' after value list")
  pure ⟨tableName, columns, values⟩

def parseSelectList : Parse (Bool × List CString) := do
  if ← parserMatch tokens .star then pure (true, [])
  else do
    let columns ← parseIdentifierList tokens
    pure (false, columns)

def parseSelect : Parse SelectStatement := do
  let (selectAll, columns) ← parseSelectList tokens
  parserExpectWithMessage tokens .from (.lit "PARSE ERROR: expected FROM after select list")
  let tableName ← parseIdentifier tokens
  let whereClause ← parseWhereClause tokens
  pure ⟨tableName, selectAll, columns, whereClause⟩

def parseByKeyword : Parse Statement := do
  if ← parserMatch tokens .insert then do
    let stmt ← parseInsert tokens
    pure (.insert stmt)
  else if ← parserMatch tokens .select then do
    let stmt ← parseSelect tokens
    pure (.select stmt)
  else parseError (.lit "PARSE ERROR: expected INSERT or SELECT")

def parseTerminated : Parse Statement := do
  let stmt ← parseByKeyword tokens
  let _ ← parserMatch tokens .semicolon
  pure stmt

/-- The semicolons in front of a statement, and whether the tokens end there. -/
def parseLeading : Parse Bool := do
  parserSkipSemicolons tokens (tokens.length + 1)
  let token ← parserPeek tokens
  pure (token.type = .eof)

/-- `parse_next_statement`: the statement and the cursor as the call leaves it. It moves on
success and where the tokens end; any other failure leaves it. -/
def parseNextStatement (cursor : ℕ) : Checked (Except CString Statement × ℕ) :=
  if tokens = [] then
    .ok (.error (setError (.lit "PARSE ERROR: invalid token stream")), cursor)
  else if tokens.length ≤ cursor then
    .ok (.error (setError (.lit "PARSE ERROR: parser cursor out of range")), cursor)
  else do
    match ← (parseLeading tokens).start cursor with
    | (.error message, _) => .ok (.error message, cursor)
    | (.ok true, current) =>
      .ok (.error (setError (.lit "PARSE ERROR: expected INSERT or SELECT")), current)
    | (.ok false, current) =>
      match ← (parseTerminated tokens).start current with
      | (.error message, _) => .ok (.error message, cursor)
      | (.ok stmt, current) => .ok (.ok stmt, current)

def skipSemicolons (cursor : ℕ) : ℕ :=
  cursor + ((tokens.drop cursor).takeWhile (fun token => token.type = .semicolon)).length

def atEnd (cursor : ℕ) : Bool := (tokens[cursor]?.map Token.type) = some .eof

def parseStatement : Checked (Except CString Statement) := do
  match ← parseNextStatement tokens 0 with
  | (.error message, _) => .ok (.error message)
  | (.ok stmt, cursor) =>
    if atEnd tokens (skipSemicolons tokens cursor) then .ok (.ok stmt)
    else .ok (.error (setError (.lit "PARSE ERROR: unexpected trailing tokens")))

end Parser

end SqlFrontEnd
