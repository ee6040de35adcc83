import ThreadedDb.SqlFrontEnd

/-!
# The request body

`json_parser.c`: one string field of a flat JSON object. A cursor into the text is the bytes from
it on; where none is left the cursor is at the terminating NUL.
-/
namespace JsonModel

open ByteText
open SqlFrontEnd (isDigit)
open CheckedArray (Checked)

inductive JsonFieldStatus where
  | missingField
  | invalidJson
  | internalError
  deriving DecidableEq, Repr

structure JsonError where
  status : JsonFieldStatus
  message : CString
  deriving DecidableEq

def invalidJson {α : Type} (message : CString) : Except JsonError α :=
  .error ⟨.invalidJson, setError message⟩

def missingField {α : Type} (message : CString) : Except JsonError α :=
  .error ⟨.missingField, setError message⟩

def isJsonSpace (b : UInt8) : Bool := b = 32 || b = 9 || b = 10 || b = 13

def skipWhitespace (cursor : Bytes) : Bytes := cursor.dropWhile isJsonSpace

def unescape (escaped : UInt8) : Option UInt8 :=
  if escaped = 34 ∨ escaped = 92 then some escaped
  else if escaped = 110 then some 10
  else if escaped = 114 then some 13
  else if escaped = 116 then some 9
  else none

def jsonStringBytes : Bytes → Except JsonError (Bytes × Bytes)
  | [] => invalidJson (.lit "unterminated string")
  | ch :: rest =>
    if ch = 34 then .ok ([], rest)
    else if ch < 32 then invalidJson (.lit "invalid control character in string")
    else if ch = 92 then
      match rest with
      | [] => invalidJson (.lit "unterminated escape sequence")
      | escaped :: rest =>
        match unescape escaped with
        | none => invalidJson (.lit "unsupported escape sequence")
        | some ch =>
          match jsonStringBytes rest with
          | .error e => .error e
          | .ok (text, rest) => .ok (ch :: text, rest)
    else
      match jsonStringBytes rest with
      | .error e => .error e
      | .ok (text, rest) => .ok (ch :: text, rest)

def parseJsonString (cursor : Bytes) : Except JsonError (CString × Bytes) :=
  if cursor.head? ≠ some 34 then invalidJson (.lit "invalid json string")
  else do
    let (text, rest) ← jsonStringBytes (cursor.drop 1)
    .ok (.ofBuffer text, rest)

def consumeDigits (message : CString) (cursor : Bytes) : Except JsonError Bytes :=
  if (cursor.head?.map isDigit).getD false then .ok (cursor.dropWhile isDigit)
  else invalidJson message

def consumeFraction (cursor : Bytes) : Except JsonError Bytes :=
  if cursor.head? = some 46 then consumeDigits (.lit "invalid json number") (cursor.drop 1)
  else .ok cursor

def consumeExponent (cursor : Bytes) : Except JsonError Bytes :=
  if cursor.head? = some 101 ∨ cursor.head? = some 69 then
    let cursor := cursor.drop 1
    let cursor := if cursor.head? = some 43 ∨ cursor.head? = some 45 then cursor.drop 1 else cursor
    consumeDigits (.lit "invalid json number") cursor
  else .ok cursor

def consumeNumber (start : Bytes) : Except JsonError Bytes := do
  let cursor := if start.head? = some 45 then start.drop 1 else start
  let cursor ← consumeDigits (.lit "invalid json value") cursor
  let cursor ← consumeFraction cursor
  let cursor ← consumeExponent cursor
  if cursor.length = start.length then invalidJson (.lit "invalid json value") else .ok cursor

def consumeJsonValue (cursor : Bytes) : Except JsonError Bytes :=
  if cursor.head? = some 34 then do
    let (_, cursor) ← parseJsonString cursor
    .ok cursor
  else if cursor.head? = some 123 ∨ cursor.head? = some 91 then
    invalidJson (.lit "nested json values are not supported")
  else if ascii "true" <+: cursor then .ok (cursor.drop 4)
  else if ascii "false" <+: cursor then .ok (cursor.drop 5)
  else if ascii "null" <+: cursor then .ok (cursor.drop 4)
  else consumeNumber cursor

/-- The value of a member; only the first one under the field's name is kept. -/
def parseMemberValue (fieldName key : CString) (cursor : Bytes) (foundValue : Option CString) :
    Except JsonError (Option CString × Bytes) :=
  if key = fieldName then
    if cursor.head? ≠ some 34 then do
      let _ ← consumeJsonValue cursor
      missingField (.lit "sql field must be a string")
    else do
      let (value, cursor) ← parseJsonString cursor
      .ok (foundValue.or (some value), cursor)
  else do
    let cursor ← consumeJsonValue cursor
    .ok (foundValue, cursor)

def parseMember (fieldName : CString) (cursor : Bytes) (foundValue : Option CString) :
    Except JsonError (Option CString × Bytes) :=
  let cursor := skipWhitespace cursor
  if cursor.head? ≠ some 34 then invalidJson (.lit "expected object key")
  else do
    let (key, cursor) ← parseJsonString cursor
    let cursor := skipWhitespace cursor
    if cursor.head? ≠ some 58 then invalidJson (.lit "expected ':' after object key")
    else parseMemberValue fieldName key (skipWhitespace (cursor.drop 1)) foundValue

/-- `for (;;)`: the members up to the closing brace; every round consumes a byte. -/
def memberLoop (fieldName : CString) :
    ℕ → Bytes → Option CString → Checked (Except JsonError (Option CString × Bytes))
  | 0, _, _ => .error .unbounded
  | rounds + 1, cursor, foundValue =>
    match parseMember fieldName cursor foundValue with
    | .error e => .ok (.error e)
    | .ok (foundValue, cursor) =>
      let cursor := skipWhitespace cursor
      if cursor.head? = some 44 then memberLoop fieldName rounds (cursor.drop 1) foundValue
      else if cursor.head? = some 125 then .ok (.ok (foundValue, cursor.drop 1))
      else .ok (invalidJson (.lit "expected ',' or '\x7d' after object entry"))

def jsonExtractStringField (json fieldName : CString) : Checked (Except JsonError CString) :=
  let cursor := skipWhitespace json.bytes
  if cursor.head? ≠ some 123 then
    .ok (invalidJson (.lit "top-level json value must be an object"))
  else
    let cursor := skipWhitespace (cursor.drop 1)
    if cursor.head? = some 125 then .ok (missingField (.lit "missing sql field"))
    else do
      match ← memberLoop fieldName (cursor.length + 1) cursor none with
      | .error e => .ok (.error e)
      | .ok (foundValue, cursor) =>
        if skipWhitespace cursor ≠ [] then
          .ok (invalidJson (.lit "unexpected trailing characters after json object"))
        else
          match foundValue with
          | none => .ok (missingField (.lit "missing sql field"))
          | some value => .ok (.ok value)

end JsonModel
