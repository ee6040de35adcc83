import ThreadedDb.ContentLength
import ThreadedDb.IdText

/-!
# Sending a response

`write_all` and `http_send_json_response` of `http.c` over a socket that takes as much of each
`send` as it likes. What reaches the client is a beginning of the response, the whole of it exactly
when the call reports success, and the client can tell: the header ends where the body begins, and
it says how long the body is.
-/
namespace HttpSending

open ByteText
open HttpModel
open HttpReading
open Occurrences
open ContentLength
open SqlFrontEnd (isDigit)
open CheckedArray (Checked ok_bind)

/-- What the next `send` does: it fails with `EINTR` or another error, returns 0, or takes one byte
and at most `extra` more. -/
inductive SendEvent where
  | interrupted
  | failed
  | refused
  | taken (extra : ℕ)
  deriving DecidableEq

/-- The bytes that the peer gets; a `send` past the schedule takes all that it is given. -/
structure Peer where
  wire : Bytes
  schedule : List SendEvent

/-- What `send` returns; a negative result is an interruption or a failure. -/
inductive Sent where
  | interrupted
  | failed
  | written (count : ℕ)

def Peer.take (peer : Peer) (buf : Bytes) (count : ℕ) : Sent × Peer :=
  (.written (buf.take count).length, ⟨peer.wire ++ buf.take count, peer.schedule.tail⟩)

def send (peer : Peer) (buf : Bytes) : Sent × Peer :=
  match peer.schedule with
  | .interrupted :: rest => (.interrupted, { peer with schedule := rest })
  | .failed :: rest => (.failed, { peer with schedule := rest })
  | .refused :: rest => (.written 0, { peer with schedule := rest })
  | .taken extra :: _ => peer.take buf (extra + 1)
  | [] => peer.take buf buf.length

def writeAllLoop (buf : Bytes) : ℕ → Peer → ℕ → Checked (Peer × Int)
  | 0, _, _ => .error .unbounded
  | fuel + 1, peer, sent =>
    if sent < buf.length then
      match send peer (buf.drop sent) with
      | (.interrupted, peer) => writeAllLoop buf fuel peer sent
      | (.failed, peer) => .ok (peer, -1)
      | (.written count, peer) =>
        if count = 0 then .ok (peer, -1) else writeAllLoop buf fuel peer (sent + count)
    else .ok (peer, 0)

/-- `write_all`: every round but the last uses up an event of the schedule or sends a byte. -/
def writeAll (peer : Peer) (buf : Bytes) : Checked (Peer × Int) :=
  writeAllLoop buf (peer.schedule.length + buf.length + 1) peer 0

def sendResponse (peer : Peer) (response : HttpResponse) : Checked (Peer × Int) := do
  let (peer, result) ← writeAll peer response.header
  if result ≠ 0 then .ok (peer, -1)
  else if response.body = [] then .ok (peer, 0)
  else do
    let (peer, result) ← writeAll peer response.body
    .ok (peer, if result ≠ 0 then -1 else 0)

def httpSendJsonResponseTo (peer : Peer) (statusCode : Int32) (jsonBody : Option CString) :
    Checked (Peer × Int) :=
  match httpSendJsonResponse statusCode jsonBody with
  | none => .ok (peer, -1)
  | some response => sendResponse peer response

def Accepting (peer : Peer) : Prop :=
  ∀ e ∈ peer.schedule, e ≠ .failed ∧ e ≠ .refused

/-- A beginning of `bytes` went out, all of it exactly if the result is 0. -/
structure Delivered (bytes : Bytes) (peer peer' : Peer) (result : Int) (cut : Bytes) : Prop where
  wire : peer'.wire = peer.wire ++ cut
  beginning : cut <+: bytes
  reported : result = if cut = bytes then 0 else -1
  accepting : Accepting peer → result = 0 ∧ Accepting peer'

theorem Delivered.after {bytes cut : Bytes} {peer peer₁ peer' : Peer} {result : Int}
    (h : Delivered bytes peer₁ peer' result cut) (front : Bytes) (hwire : peer₁.wire = peer.wire ++ front)
    (hacc : Accepting peer → Accepting peer₁) :
    Delivered (front ++ bytes) peer peer' result (front ++ cut) := by
  refine ⟨?_, (List.prefix_append_right_inj _).mpr h.beginning, ?_, ?_⟩
  · rw [h.wire, hwire, List.append_assoc]
  · simp only [List.append_cancel_left_eq]
    exact h.reported
  · exact fun hpeer => h.accepting (hacc hpeer)

theorem send_cases (peer : Peer) {buf : Bytes} (hbuf : buf ≠ []) :
    (∃ peer', send peer buf = (.interrupted, peer') ∧ peer'.wire = peer.wire ∧
      peer'.schedule.length < peer.schedule.length ∧ (Accepting peer → Accepting peer')) ∨
    (∃ sent peer', send peer buf = (sent, peer') ∧ (sent = .failed ∨ sent = .written 0) ∧
      peer'.wire = peer.wire ∧ ¬ Accepting peer) ∨
    ∃ count peer', send peer buf = (.written count, peer') ∧ 0 < count ∧ count ≤ buf.length ∧
      peer'.wire = peer.wire ++ buf.take count ∧
      peer'.schedule.length ≤ peer.schedule.length ∧ (Accepting peer → Accepting peer') := by
  obtain ⟨wire, schedule⟩ := peer
  have hpos := List.length_pos_iff.mpr hbuf
  have htake {n : ℕ} (hn : 0 < n) :
      ∃ count peer', Peer.take ⟨wire, schedule⟩ buf n = (.written count, peer') ∧ 0 < count ∧
        count ≤ buf.length ∧ peer'.wire = wire ++ buf.take count ∧
        peer'.schedule.length ≤ schedule.length ∧
        (Accepting ⟨wire, schedule⟩ → Accepting peer') := by
    refine ⟨_, _, rfl, ?_, ?_, ?_, ?_, ?_⟩
    · rw [List.length_take]
      omega
    · rw [List.length_take]
      omega
    · rw [List.length_take, List.take_eq_take_min]
    · simp
    · exact fun h e he => h e (List.mem_of_mem_tail he)
  cases schedule with
  | nil => exact .inr (.inr (htake hpos))
  | cons event rest =>
    cases event with
    | interrupted =>
      refine .inl ⟨⟨wire, rest⟩, rfl, rfl, Nat.lt_succ_self _, ?_⟩
      exact fun h e he => h e (List.mem_cons_of_mem _ he)
    | failed =>
      refine .inr (.inl ⟨_, ⟨wire, rest⟩, rfl, .inl rfl, rfl, ?_⟩)
      exact fun h => (h _ List.mem_cons_self).1 rfl
    | refused =>
      refine .inr (.inl ⟨_, ⟨wire, rest⟩, rfl, .inr rfl, rfl, ?_⟩)
      exact fun h => (h _ List.mem_cons_self).2 rfl
    | taken extra => exact .inr (.inr (htake (Nat.succ_pos extra)))

theorem writeAllLoop_delivers (buf : Bytes) {fuel : ℕ} {peer : Peer} {sent : ℕ}
    (hsent : sent ≤ buf.length)
    (hfuel : peer.schedule.length + (buf.length - sent) < fuel) :
    ∃ peer' result cut, writeAllLoop buf fuel peer sent = .ok (peer', result) ∧
      Delivered (buf.drop sent) peer peer' result cut := by
  induction fuel generalizing peer sent with
  | zero => omega
  | succ fuel ih =>
    rw [writeAllLoop]
    by_cases hmore : sent < buf.length
    · rw [if_pos hmore]
      have hrest : buf.drop sent ≠ [] := by
        rw [Ne, List.drop_eq_nil_iff]
        omega
      rcases send_cases peer hrest with ⟨peer₁, hsend, hwire, hlen, hacc⟩ |
        ⟨result, peer₁, hsend, hfail, hwire, hacc⟩ |
        ⟨count, peer₁, hsend, hpos, hle, hwire, hlen, hacc⟩
      · rw [hsend]
        obtain ⟨peer', result, cut, hrun, hd⟩ := @ih peer₁ sent hsent (by omega)
        exact ⟨peer', result, cut, hrun, hd.after [] (by simpa using hwire) hacc⟩
      · rw [hsend]
        refine ⟨peer₁, -1, [], ?_, by simpa using hwire, List.nil_prefix, ?_, ?_⟩
        · rcases hfail with rfl | rfl
          · rfl
          · rfl
        · rw [if_neg (Ne.symm hrest)]
        · exact fun h => absurd h hacc
      · rw [hsend]
        dsimp only
        rw [if_neg (by omega)]
        rw [List.length_drop] at hle
        obtain ⟨peer', result, cut, hrun, hd⟩ :=
          @ih peer₁ (sent + count) (by omega) (by omega)
        have hsplit : buf.drop sent = (buf.drop sent).take count ++ buf.drop (sent + count) := by
          rw [← List.drop_drop, List.take_append_drop]
        rw [hsplit]
        exact ⟨peer', result, _, hrun, hd.after _ hwire hacc⟩
    · rw [if_neg hmore]
      have hnil : buf.drop sent = [] := List.drop_eq_nil_iff.mpr (by omega)
      refine ⟨peer, 0, [], rfl, by simp, List.nil_prefix, ?_, fun h => ⟨rfl, h⟩⟩
      rw [hnil, if_pos rfl]

theorem writeAll_delivers (peer : Peer) (buf : Bytes) :
    ∃ peer' result cut, writeAll peer buf = .ok (peer', result) ∧
      Delivered buf peer peer' result cut :=
  @writeAllLoop_delivers buf _ peer 0 (Nat.zero_le _) (by omega)

theorem sendResponse_delivers (peer : Peer) (response : HttpResponse) :
    ∃ peer' result cut, sendResponse peer response = .ok (peer', result) ∧
      Delivered (response.header ++ response.body) peer peer' result cut := by
  obtain ⟨peer₁, result, cut, hheader, h⟩ := writeAll_delivers peer response.header
  unfold sendResponse
  rw [hheader, ok_bind]
  dsimp only
  by_cases hall : cut = response.header
  · have hzero : result = 0 := by rw [h.reported, if_pos hall]
    have hwire : peer₁.wire = peer.wire ++ response.header := hall ▸ h.wire
    rw [if_neg (not_not.mpr hzero)]
    by_cases hbody : response.body = []
    · rw [if_pos hbody, hbody, List.append_nil]
      exact ⟨peer₁, 0, cut, rfl, hzero ▸ h⟩
    · obtain ⟨peer', result', cut', hrun, h'⟩ := writeAll_delivers peer₁ response.body
      rw [if_neg hbody, hrun, ok_bind]
      have hsame : (if result' ≠ 0 then (-1 : Int) else 0) = result' := by
        rw [h'.reported]
        split
        · rfl
        · rfl
      refine ⟨peer', result', response.header ++ cut', ?_, ?_⟩
      · dsimp only
        rw [hsame]
      · exact h'.after _ hwire (fun hacc => (h.accepting hacc).2)
  · have hfailed : result = -1 := by rw [h.reported, if_neg hall]
    rw [if_pos (by rw [hfailed]; decide)]
    refine ⟨peer₁, -1, cut, rfl, h.wire, h.beginning.trans (List.prefix_append _ _), ?_, ?_⟩
    · rw [if_neg]
      rintro heq
      have hlen := congrArg List.length heq
      have hle := h.beginning.length_le
      rw [List.length_append] at hlen
      exact hall (h.beginning.eq_of_length (by omega))
    · intro hacc
      have := (h.accepting hacc).1
      rw [hfailed] at this
      cases this

def lineBlock (lines : List Bytes) : Bytes := lines.flatMap (· ++ crlf)

def HeaderLine (line : Bytes) : Prop := line ≠ [] ∧ 13 ∉ line

theorem lineBlock_cons (line : Bytes) (lines : List Bytes) :
    lineBlock (line :: lines) = line ++ (crlf ++ lineBlock lines) := by
  simp [lineBlock]

theorem lineBlock_length (lines : List Bytes) : 2 * lines.length ≤ (lineBlock lines).length := by
  induction lines with
  | nil => exact Nat.zero_le _
  | cons line lines ih =>
    rw [lineBlock_cons, List.length_append, List.length_append, List.length_cons]
    simp only [crlf, List.length_cons, List.length_nil]
    omega

theorem firstLine_block {line : Bytes} (h : HeaderLine line) (rest : Bytes) :
    firstMatch crlf (line ++ (crlf ++ rest)) = some line.length :=
  firstMatch_here h.2 rest

theorem headerLines_block {lines : List Bytes} (h : ∀ l ∈ lines, HeaderLine l) (rest : Bytes)
    {fuel : ℕ} (hfuel : lines.length < fuel) :
    headerLines fuel (lineBlock lines ++ (crlf ++ rest)) = lines := by
  induction lines generalizing fuel with
  | nil =>
    obtain ⟨fuel, rfl⟩ : ∃ f, fuel = f + 1 := ⟨fuel - 1, by simp at hfuel; omega⟩
    have hfirst : firstMatch crlf (crlf ++ rest) = some 0 :=
      firstMatch_here (List.not_mem_nil) rest
    rw [headerLines, lineBlock, List.flatMap_nil, List.nil_append, hfirst]
    rfl
  | cons line lines ih =>
    rw [List.length_cons] at hfuel
    obtain ⟨fuel, rfl⟩ : ∃ f, fuel = f + 1 := ⟨fuel - 1, by omega⟩
    obtain ⟨hline, hlines⟩ := List.forall_mem_cons.mp h
    have hpos := List.length_pos_iff.mpr hline.1
    have hnext : (line ++ (crlf ++ (lineBlock lines ++ (crlf ++ rest)))).drop (line.length + 2) =
        lineBlock lines ++ (crlf ++ rest) := by
      rw [← List.append_assoc]
      exact List.drop_left' (by simp [crlf])
    rw [lineBlock_cons, List.append_assoc, List.append_assoc, headerLines, firstLine_block hline]
    dsimp only
    rw [if_neg (by omega), List.take_left, hnext, ih hlines (by omega)]

theorem findHeaderEnd_block {lines : List Bytes} (h : ∀ l ∈ lines, HeaderLine l)
    (hne : lines ≠ []) (rest : Bytes) :
    findHeaderEnd (lineBlock lines ++ (crlf ++ rest)) = some ((lineBlock lines).length - 2) := by
  unfold findHeaderEnd blankLine
  induction lines with
  | nil => exact absurd rfl hne
  | cons line lines ih =>
    obtain ⟨hline, hlines⟩ := List.forall_mem_cons.mp h
    rw [lineBlock_cons, List.append_assoc, List.append_assoc, firstMatch_skip hline.2]
    cases lines with
    | nil =>
      have hhere : firstMatch [13, 10, 13, 10] (crlf ++ (lineBlock [] ++ (crlf ++ rest))) =
          some 0 := by
        rw [crlf, List.cons_append, firstMatch, if_pos (by simp [lineBlock, crlf])]
      rw [hhere]
      simp [lineBlock, crlf]
    | cons next lines =>
      -- the line behind this one starts with something else
      obtain ⟨hnext, -⟩ := List.forall_mem_cons.mp hlines
      obtain ⟨c, tail, hc⟩ := List.exists_cons_of_ne_nil hnext.1
      have hcr : c ≠ 13 := fun heq => hnext.2 (by simp [hc, heq])
      have hlonger := lineBlock_length (next :: lines)
      rw [List.length_cons] at hlonger
      have hpass : firstMatch [13, 10, 13, 10] (crlf ++ (lineBlock (next :: lines) ++
          (crlf ++ rest))) = (firstMatch [13, 10, 13, 10] (lineBlock (next :: lines) ++
          (crlf ++ rest))).map (· + 2) := by
        have hstart : lineBlock (next :: lines) ++ (crlf ++ rest) =
            c :: (tail ++ (crlf ++ lineBlock lines) ++ (crlf ++ rest)) := by
          rw [lineBlock_cons, hc]
          simp
        rw [hstart, crlf, List.cons_append, List.cons_append, List.nil_append,
          firstMatch_later (by simp [hcr.symm]), firstMatch_later (by simp), Option.map_map]
        rfl
      rw [hpass, ih hlines (by simp), Option.map_some, Option.map_some]
      simp only [List.length_append, crlf, List.length_cons, List.length_nil]
      congr 1
      omega

/-- The body of a response: what stands behind the first blank line, as long as the only
`Content-Length` line says. Nothing while some of it is missing. -/
def receivedBody (stream : Bytes) : Option Bytes :=
  match findHeaderEnd stream, lengthTexts (linesOf stream) with
  | some headerEnd, [text] =>
    if text = [] ∨ ¬ text.all isDigit ∨ stream.length < headerEnd + 4 + digitsValue text then none
    else some ((stream.drop (headerEnd + 4)).take (digitsValue text))
  | _, _ => none

def statusLine (statusCode : Int32) : Bytes :=
  ascii "HTTP/1.1 " ++ intBytes statusCode.toInt ++ ascii " " ++ httpStatusText statusCode

def lengthLine (bodyLen : ℕ) : Bytes := ascii "Content-Length: " ++ decimalBytes bodyLen

def responseLines (statusCode : Int32) (bodyLen : ℕ) : List Bytes :=
  [statusLine statusCode, ascii "Content-Type: application/json", lengthLine bodyLen,
    ascii "Connection: close"]

theorem responseHeader_block (statusCode : Int32) (bodyLen : UInt64) :
    responseHeader statusCode bodyLen = lineBlock (responseLines statusCode bodyLen.toNat) ++ crlf := by
  have htype : ascii "\r\nContent-Type: application/json\r\nContent-Length: " =
      crlf ++ (ascii "Content-Type: application/json" ++ (crlf ++ ascii "Content-Length: ")) := by
    decide
  have hend : ascii "\r\nConnection: close\r\n\r\n" =
      crlf ++ (ascii "Connection: close" ++ (crlf ++ crlf)) := by decide
  simp only [responseHeader, responseLines, statusLine, lengthLine, lineBlock, htype, hend,
    List.flatMap_cons, List.flatMap_nil, List.append_assoc, List.append_nil]

theorem decimalBytes_no_cr (n : ℕ) : 13 ∉ decimalBytes n := by
  intro h
  have := mem_decimalBytes h
  revert this
  decide

theorem intBytes_no_cr (value : Int) : 13 ∉ intBytes value := by
  unfold intBytes
  split
  · rw [List.mem_cons, not_or]
    exact ⟨by decide, decimalBytes_no_cr _⟩
  · exact decimalBytes_no_cr _

theorem httpStatusText_no_cr (statusCode : Int32) : 13 ∉ httpStatusText statusCode := by
  unfold httpStatusText
  repeat' split
  all_goals decide

theorem responseLines_lines (statusCode : Int32) (bodyLen : ℕ) :
    ∀ l ∈ responseLines statusCode bodyLen, HeaderLine l := by
  have hstatus : HeaderLine (statusLine statusCode) := by
    refine ⟨by simp [statusLine, ascii], ?_⟩
    simp only [statusLine, List.mem_append, not_or]
    exact ⟨⟨⟨by decide, intBytes_no_cr _⟩, by decide⟩, httpStatusText_no_cr _⟩
  have hlength : HeaderLine (lengthLine bodyLen) := by
    refine ⟨by simp [lengthLine, ascii], ?_⟩
    simp only [lengthLine, List.mem_append, not_or]
    exact ⟨by decide, decimalBytes_no_cr _⟩
  intro l hl
  simp only [responseLines, List.mem_cons, List.not_mem_nil, or_false] at hl
  rcases hl with rfl | rfl | rfl | rfl
  · exact hstatus
  · exact ⟨by decide, by decide⟩
  · exact hlength
  · exact ⟨by decide, by decide⟩

theorem decimalBytes_reads (n : ℕ) :
    PureDigits (decimalBytes n) ∧ digitsValue (decimalBytes n) = n := by
  constructor
  · constructor
    · unfold decimalBytes
      split
      · simp
      · rename_i hn
        simpa [Nat.digits_eq_nil_iff_eq_zero] using hn
    · intro c hc
      have := mem_decimalBytes hc
      simp only [isDigit, Bool.and_eq_true, decide_eq_true_eq, UInt8.le_iff_toNat_le]
      exact this
  · exact IdText.decimalBytes_value n

theorem responseLines_length (statusCode : Int32) (bodyLen : ℕ) :
    lengthTexts (responseLines statusCode bodyLen) = [decimalBytes bodyLen] := by
  have hstatus : isContentLength (statusLine statusCode) = false := by
    rw [statusLine, List.append_assoc, List.append_assoc,
      show ascii "HTTP/1.1 " = 72 :: ascii "TTP/1.1 " by decide]
    simp [isContentLength, startsIgnoringCase, contentLengthName, ascii, toLower]
  have htype : isContentLength (ascii "Content-Type: application/json") = false := by decide
  have hclose : isContentLength (ascii "Connection: close") = false := by decide
  have hlength : isContentLength (lengthLine bodyLen) = true := by
    rw [isContentLength, startsIgnoringCase, lengthLine,
      show ascii "Content-Length: " = contentLengthName ++ [32] by decide, List.append_assoc,
      List.take_left]
    simp
  have htext : lengthText (lengthLine bodyLen) = decimalBytes bodyLen := by
    obtain ⟨d, rest, hd, hdigit⟩ := pureDigits_head (decimalBytes_reads bodyLen).1
    rw [lengthText, lengthLine, show ascii "Content-Length: " = contentLengthName ++ [32] by decide,
      List.append_assoc, List.drop_left, hd]
    have hother : (d = 32 || d = 9) = false := by
      simp only [isDigit] at hdigit
      grind
    simp [hother]
  simp [lengthTexts, responseLines, hstatus, htype, hclose, hlength, htext]

/-- A header, whatever stands behind it: where it ends, and the length that it gives. -/
theorem header_reads (statusCode : Int32) (bodyLen : UInt64) (rest : Bytes) :
    findHeaderEnd (responseHeader statusCode bodyLen ++ rest) =
        some ((responseHeader statusCode bodyLen).length - 4) ∧
      4 ≤ (responseHeader statusCode bodyLen).length ∧
      lengthTexts (linesOf (responseHeader statusCode bodyLen ++ rest)) =
        [decimalBytes bodyLen.toNat] := by
  have hlines := responseLines_lines statusCode bodyLen.toNat
  have hlong := lineBlock_length (responseLines statusCode bodyLen.toNat)
  have hfour : (responseLines statusCode bodyLen.toNat).length = 4 := rfl
  have hcrlf : crlf.length = 2 := rfl
  rw [responseHeader_block, List.append_assoc, List.length_append, hcrlf]
  refine ⟨?_, by omega, ?_⟩
  · rw [findHeaderEnd_block hlines (by simp [responseLines])]
    congr 1
  · rw [linesOf, headerLines_block hlines, responseLines_length]
    rw [List.length_append]
    omega

/-- Of a response that is cut off somewhere the client gets nothing, of the whole one the body. -/
theorem received_of_cut (statusCode : Int32) {body cut : Bytes} (hlen : body.length < 2 ^ 64)
    (hcut : cut <+: responseHeader statusCode (UInt64.ofNat body.length) ++ body) :
    receivedBody cut =
      if cut = responseHeader statusCode (UInt64.ofNat body.length) ++ body then some body
      else none := by
  have hnat : (UInt64.ofNat body.length).toNat = body.length := by
    rw [UInt64.toNat_ofNat', Nat.mod_eq_of_lt hlen]
  have hreads := header_reads statusCode (UInt64.ofNat body.length)
  rw [hnat] at hreads
  generalize responseHeader statusCode (UInt64.ofNat body.length) = header at hcut hreads
  obtain ⟨hwhole, hfour, -⟩ := hreads body
  cases hfind : findHeaderEnd cut with
  | none =>
    rw [if_neg]
    · simp only [receivedBody, hfind]
    · rintro rfl
      rw [hwhole] at hfind
      cases hfind
  | some i =>
    -- the header has gone out, and then a beginning of the body
    have hi : i = header.length - 4 := by
      obtain ⟨more, hmore⟩ := hcut
      have happend := firstMatch_append blankLine_ne hfind more
      rw [hmore] at happend
      exact Option.some.inj (happend.symm.trans hwhole)
    have hle : header.length ≤ cut.length := by
      have := firstMatch_length blankLine_ne hfind
      simp only [blankLine, List.length_cons, List.length_nil] at this
      omega
    obtain ⟨start, rfl⟩ := List.prefix_of_prefix_length_le (List.prefix_append _ _) hcut hle
    have hstart : start <+: body := (List.prefix_append_right_inj _).mp hcut
    obtain ⟨hpure, hvalue⟩ := decimalBytes_reads body.length
    have hall : (decimalBytes body.length).all isDigit = true := List.all_eq_true.mpr hpure.2
    have hends : header.length - 4 + 4 = header.length := by omega
    simp only [receivedBody, hfind, (hreads start).2.2, hi, hvalue, hpure.1, hall, hends,
      List.length_append, List.drop_left, List.append_cancel_left_eq, not_true_eq_false, false_or]
    by_cases hsame : start = body
    · rw [if_pos hsame, if_neg (by rw [hsame]; omega), hsame, List.take_length]
    · have hshort : start.length < body.length :=
        lt_of_le_of_ne hstart.length_le (fun heq => hsame (hstart.eq_of_length heq))
      rw [if_neg hsame, if_pos (by omega)]

/-- Whatever the socket takes of each `send`, the call ends, and it reports success exactly when
the client has the whole response. On a connection that got nothing before, the client then reads
the body back, and after a failure it reads none. No failure is reported unless a `send` failed. -/
theorem response_whole_or_detected (statusCode : Int32) (jsonBody : Option CString)
    (hlen : (jsonBody.getD .empty).bytes.length < 2 ^ 64) (schedule : List SendEvent) :
    ∃ peer' result,
      httpSendJsonResponseTo ⟨[], schedule⟩ statusCode jsonBody = .ok (peer', result) ∧
      (result = 0 ∨ result = -1) ∧
      receivedBody peer'.wire = (if result = 0 then some (jsonBody.getD .empty).bytes else none) ∧
      ((∀ e ∈ schedule, e ≠ .failed ∧ e ≠ .refused) → result = 0) := by
  unfold httpSendJsonResponseTo httpSendJsonResponse
  dsimp only
  generalize (jsonBody.getD .empty).bytes = body at hlen
  rw [if_neg (Nat.not_le.mpr (responseHeader_length _ _))]
  obtain ⟨peer', result, cut, hrun, h⟩ := sendResponse_delivers ⟨[], schedule⟩
    ⟨responseHeader statusCode (UInt64.ofNat body.length), body⟩
  have hwire : peer'.wire = cut := h.wire
  have hreported := h.reported
  refine ⟨peer', result, hrun, ?_, ?_, fun hsteady => (h.accepting hsteady).1⟩
  · rw [hreported]
    split
    · exact .inl rfl
    · exact .inr rfl
  · rw [hwire, received_of_cut statusCode hlen h.beginning, hreported]
    split
    · rfl
    · rfl

theorem health_response_in_pieces :
    ∃ peer', httpSendJsonResponseTo ⟨[], [.taken 6, .interrupted, .taken 100, .taken 0]⟩ 200
        (some (.lit "\x7b\"success\":true\x7d")) = .ok (peer', 0) ∧
      receivedBody peer'.wire = some (ascii "\x7b\"success\":true\x7d") := by
  obtain ⟨peer', result, hrun, -, hbody, hok⟩ := response_whole_or_detected 200
    (some (.lit "\x7b\"success\":true\x7d")) (by decide)
    [.taken 6, .interrupted, .taken 100, .taken 0]
  have hzero : result = 0 := hok (by decide)
  subst hzero
  refine ⟨peer', hrun, ?_⟩
  rw [hbody]
  decide

end HttpSending
