import ThreadedDb.DbApiModel

/-!
# HTTP responses

`http.c`: what a request holds when it has been read, and the responses. A response is started
with its header; how much of it reaches the client is up to the socket.
-/
namespace HttpModel

open ByteText
open DbApiModel

/-- `body` has the `body_len` bytes that stand before its terminating NUL. -/
structure HttpRequest where
  method : CString
  path : CString
  body : Bytes
  deriving DecidableEq

/-- `HttpReadStatus`, with the request or with the text in `errbuf`. -/
inductive HttpRead where
  | ok (req : HttpRequest)
  | badRequest (message : CString)
  | payloadTooLarge (message : CString)
  | internalError (message : CString)
  deriving DecidableEq

def httpStatusText (statusCode : Int32) : Bytes :=
  if statusCode = 200 then ascii "OK"
  else if statusCode = 400 then ascii "Bad Request"
  else if statusCode = 404 then ascii "Not Found"
  else if statusCode = 405 then ascii "Method Not Allowed"
  else if statusCode = 413 then ascii "Payload Too Large"
  else if statusCode = 500 then ascii "Internal Server Error"
  else if statusCode = 503 then ascii "Service Unavailable"
  else ascii "Internal Server Error"

def intBytes (value : Int) : Bytes :=
  if value < 0 then 45 :: decimalBytes value.natAbs else decimalBytes value.natAbs

def responseHeader (statusCode : Int32) (bodyLen : UInt64) : Bytes :=
  ascii "HTTP/1.1 " ++ intBytes statusCode.toInt ++ ascii " " ++ httpStatusText statusCode ++
    ascii "\r\nContent-Type: application/json\r\nContent-Length: " ++ decimalBytes bodyLen.toNat ++
    ascii "\r\nConnection: close\r\n\r\n"

structure HttpResponse where
  header : Bytes
  body : Bytes
  deriving DecidableEq

/-- `http_send_json_response` up to its first `send`; nothing is sent when the header does not fit
into its buffer. -/
def httpSendJsonResponse (statusCode : Int32) (jsonBody : Option CString) : Option HttpResponse :=
  let body := (jsonBody.getD .empty).bytes
  let header := responseHeader statusCode (UInt64.ofNat body.length)
  if 256 ≤ header.length then none else some ⟨header, body⟩

def httpSendErrorResponse (statusCode : Int32) (errorCode message : CString) :
    Option HttpResponse :=
  httpSendJsonResponse statusCode (some (.ofBuffer (makeErrorJson errorCode message)))

theorem intBytes_length (value : Int32) : (intBytes value.toInt).length ≤ 21 := by
  have hlow := value.le_toInt
  have hhigh := value.toInt_lt
  have hdigits : (decimalBytes value.toInt.natAbs).length ≤ 20 := by
    apply decimalBytes_length
    omega
  unfold intBytes
  split
  · rw [List.length_cons]
    omega
  · omega

theorem httpStatusText_length (statusCode : Int32) : (httpStatusText statusCode).length ≤ 21 := by
  unfold httpStatusText
  repeat' split
  all_goals decide

theorem responseHeader_length (statusCode : Int32) (bodyLen : UInt64) :
    (responseHeader statusCode bodyLen).length < 256 := by
  have hstatus := intBytes_length statusCode
  have htext := httpStatusText_length statusCode
  have hlen : (decimalBytes bodyLen.toNat).length ≤ 20 := by
    apply decimalBytes_length
    have := bodyLen.toNat_lt
    omega
  have hstart : (ascii "HTTP/1.1 ").length = 9 := by decide
  have hspace : (ascii " ").length = 1 := by decide
  have htype : (ascii "\r\nContent-Type: application/json\r\nContent-Length: ").length = 50 := by
    decide
  have hend : (ascii "\r\nConnection: close\r\n\r\n").length = 23 := by decide
  simp only [responseHeader, List.length_append, hstart, hspace, htype, hend]
  omega

theorem json_response_starts (statusCode : Int32) (jsonBody : Option CString) :
    ∃ response, httpSendJsonResponse statusCode jsonBody = some response :=
  ⟨_, if_neg (Nat.not_le.mpr (responseHeader_length _ _))⟩

theorem error_response_starts (statusCode : Int32) (errorCode message : CString) :
    ∃ response, httpSendErrorResponse statusCode errorCode message = some response :=
  json_response_starts statusCode _

end HttpModel
