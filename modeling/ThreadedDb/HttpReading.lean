import ThreadedDb.HttpModel
import ThreadedDb.Occurrences

/-!
# Reading a request

`http_read_request` of `http.c` over a socket that delivers a finite stream piece by piece. How
the stream is cut, and where a call is interrupted, is up to the socket; the request that is read
is a function of the stream.
-/
namespace HttpReading

open ByteText
open HttpModel
open Occurrences
open CheckedArray (Checked ok_bind bind_eq_ok)

/-- What the next `recv` does: it fails with `EINTR` or another error, or it delivers one byte and
at most `extra` more. -/
inductive RecvEvent where
  | interrupted
  | failed
  | chunk (extra : ℕ)
  deriving DecidableEq

/-- The bytes that are still to come, then the end of the stream; a `recv` past the schedule
delivers all that it is asked for. -/
structure Socket where
  pending : Bytes
  schedule : List RecvEvent

inductive Received where
  | interrupted
  | failed
  | bytes (chunk : Bytes)

def deliver (socket : Socket) (count : ℕ) : Received × Socket :=
  (.bytes (socket.pending.take count),
    ⟨socket.pending.drop count, socket.schedule.tail⟩)

def recv (socket : Socket) (size : ℕ) : Received × Socket :=
  match socket.schedule with
  | .interrupted :: rest => (.interrupted, { socket with schedule := rest })
  | .failed :: rest => (.failed, { socket with schedule := rest })
  | .chunk extra :: _ => deliver socket (min size (extra + 1))
  | [] => deliver socket size

/-- No more calls than this can pass before the end of the stream has been seen. -/
def Socket.bound (socket : Socket) : ℕ := socket.schedule.length + socket.pending.length + 1

def httpMaxHeaderSize : ℕ := 8192
def httpMaxBodySize : ℕ := 8192
def httpMaxMethodSize : ℕ := 8
def httpMaxPathSize : ℕ := 256

def bufferSize : ℕ := httpMaxHeaderSize + httpMaxBodySize + 1

def crlf : Bytes := [13, 10]
def blankLine : Bytes := [13, 10, 13, 10]

def findHeaderEnd (buffer : Bytes) : Option ℕ := firstMatch blankLine buffer

inductive Refusal where
  | badRequest (message : CString)
  | payloadTooLarge (message : CString)
  deriving DecidableEq

def Refusal.status : Refusal → HttpRead
  | badRequest message => .badRequest message
  | payloadTooLarge message => .payloadTooLarge message

def badRequest (message : String) : Refusal := .badRequest (.lit message)

/-- The loop that reads up to the end of the header: the buffer, where the header ends in it, and
the socket. -/
def readHeader : ℕ → Socket → Bytes → Checked (Except Refusal (Bytes × ℕ × Socket))
  | 0, _, _ => .error .unbounded
  | fuel + 1, socket, buffer =>
    if httpMaxHeaderSize ≤ buffer.length then .ok (.error (badRequest "request header too large"))
    else
      match recv socket (bufferSize - 1 - buffer.length) with
      | (.interrupted, socket) => readHeader fuel socket buffer
      | (.failed, _) => .ok (.error (badRequest "failed to read request"))
      | (.bytes chunk, socket) =>
        if chunk = [] then .ok (.error (badRequest "unexpected EOF while reading request"))
        else
          match findHeaderEnd (buffer ++ chunk) with
          | some headerEndIndex => .ok (.ok (buffer ++ chunk, headerEndIndex, socket))
          | none => readHeader fuel socket (buffer ++ chunk)

def parseRequestLine (line : CString) : Option (CString × CString) :=
  match firstMatch [32] line.bytes with
  | none => none
  | some methodLen =>
    match firstMatch [32] (line.bytes.drop (methodLen + 1)) with
    | none => none
    | some pathLen =>
      if methodLen = 0 ∨ httpMaxMethodSize ≤ methodLen ∨ pathLen = 0 ∨ httpMaxPathSize ≤ pathLen ∨
          ¬ ascii "HTTP/" <+: line.bytes.drop (methodLen + 1 + (pathLen + 1)) then none
      else some (line.take methodLen, .ofBuffer ((line.bytes.drop (methodLen + 1)).take pathLen))

def toLower (c : UInt8) : UInt8 := if 65 ≤ c ∧ c ≤ 90 then c + 32 else c

def startsIgnoringCase (name : Bytes) (line : Bytes) : Bool :=
  (line.take name.length).map toLower = name.map toLower

/-- `strtoull` in base 10: the value, and what is left of the text. Without digits nothing is taken
off it; a value past the largest one becomes the largest one, and a minus sign negates modulo
`2 ^ 64`. -/
def strtoull (text : Bytes) : ℕ × Bytes :=
  let start := text.dropWhile isSpace
  let signed := start.head? = some 43 ∨ start.head? = some 45
  let digits := if signed then start.drop 1 else start
  let run := digits.takeWhile (fun c => 48 ≤ c && c ≤ 57)
  let value := run.foldl (fun n c => n * 10 + (c.toNat - 48)) 0
  if run = [] then (0, text)
  else if 2 ^ 64 ≤ value then (2 ^ 64 - 1, digits.drop run.length)
  else if start.head? = some 45 then ((2 ^ 64 - value) % 2 ^ 64, digits.drop run.length)
  else (value, digits.drop run.length)

def contentLengthName : Bytes := ascii "Content-Length:"

def contentLengthValue (line : Bytes) : Except Refusal ℕ :=
  let value := (line.drop contentLengthName.length).dropWhile (fun c => c = 32 || c = 9)
  if value = [] then .error (badRequest "missing Content-Length")
  else if (strtoull value).2 ≠ [] then .error (badRequest "invalid Content-Length")
  else .ok (strtoull value).1

/-- The loop of `parse_content_length` over the header lines, up to an empty one or the end of the
text. -/
def contentLengthLoop : ℕ → Bytes → Option ℕ → Checked (Except Refusal (Option ℕ))
  | 0, _, _ => .error .unbounded
  | fuel + 1, text, found =>
    if text = [] then .ok (.ok found)
    else
      match firstMatch crlf text with
      | none => .ok (.error (badRequest "malformed request headers"))
      | some lineEnd =>
        if lineEnd = 0 then .ok (.ok found)
        else if startsIgnoringCase contentLengthName (text.take lineEnd) then
          if found.isSome then .ok (.error (badRequest "duplicate Content-Length"))
          else
            match contentLengthValue (text.take lineEnd) with
            | .error e => .ok (.error e)
            | .ok length => contentLengthLoop fuel (text.drop (lineEnd + 2)) (some length)
        else contentLengthLoop fuel (text.drop (lineEnd + 2)) found

/-- `parse_content_length`: the length, or nothing if no line gives it. -/
def parseContentLength (headers : CString) : Checked (Except Refusal (Option ℕ)) :=
  contentLengthLoop (headers.bytes.length + 1) headers.bytes none

/-- What `http_read_request` takes out of the header: the method, the path and the length of the
body. -/
def parseHeader (buffer : Bytes) : Checked (Except Refusal (CString × CString × ℕ)) :=
  match firstMatch crlf (CString.ofBuffer buffer).bytes with
  | none => .ok (.error (badRequest "malformed request line"))
  | some headerLineEnd =>
    match parseRequestLine ((CString.ofBuffer buffer).take headerLineEnd) with
    | none => .ok (.error (badRequest "malformed request line"))
    | some (method, path) =>
      if method = .lit "POST" then do
        match ← parseContentLength (.ofBuffer (buffer.drop (headerLineEnd + 2))) with
        | .error e => .ok (.error e)
        | .ok none => .ok (.error (badRequest "missing Content-Length"))
        | .ok (some bodyLength) =>
          if httpMaxBodySize < bodyLength then
            .ok (.error (.payloadTooLarge (.lit "request body too large")))
          else .ok (.ok (method, path, bodyLength))
      else .ok (.ok (method, path, 0))

def readBody (bodyLength : ℕ) : ℕ → Socket → Bytes → Checked (Except Refusal Bytes)
  | 0, _, _ => .error .unbounded
  | fuel + 1, socket, copied =>
    if bodyLength ≤ copied.length then .ok (.ok copied)
    else
      match recv socket (bodyLength - copied.length) with
      | (.interrupted, socket) => readBody bodyLength fuel socket copied
      | (.failed, _) => .ok (.error (badRequest "failed to read request body"))
      | (.bytes chunk, socket) =>
        if chunk = [] then .ok (.error (badRequest "unexpected EOF while reading request body"))
        else readBody bodyLength fuel socket (copied ++ chunk)

/-- `http_read_request`; `memory` says whether the body can be allocated. -/
def httpReadRequest (memory : Bool) (socket : Socket) : Checked HttpRead := do
  match ← readHeader socket.bound socket [] with
  | .error e => .ok e.status
  | .ok (buffer, headerEndIndex, socket) =>
    let headerLength := headerEndIndex + 4
    if httpMaxHeaderSize < headerLength then .ok (badRequest "request header too large").status
    else do
      match ← parseHeader buffer with
      | .error e => .ok e.status
      | .ok (method, path, bodyLength) =>
        if memory = false then .ok (.internalError (.lit "out of memory"))
        else do
          match ← readBody bodyLength socket.bound socket
            ((buffer.drop headerLength).take bodyLength) with
          | .error e => .ok e.status
          | .ok body => .ok (.ok ⟨method, path, body⟩)

def requestOf (stream : Bytes) : Checked HttpRead :=
  match findHeaderEnd stream with
  | none =>
    if httpMaxHeaderSize ≤ stream.length then .ok (badRequest "request header too large").status
    else .ok (badRequest "unexpected EOF while reading request").status
  | some headerEndIndex =>
    if httpMaxHeaderSize < headerEndIndex + 4 then .ok (badRequest "request header too large").status
    else do
      match ← parseHeader (stream.take (headerEndIndex + 4)) with
      | .error e => .ok e.status
      | .ok (method, path, bodyLength) =>
        if stream.length < headerEndIndex + 4 + bodyLength then
          .ok (badRequest "unexpected EOF while reading request body").status
        else .ok (.ok ⟨method, path, (stream.drop (headerEndIndex + 4)).take bodyLength⟩)

def Steady (socket : Socket) : Prop := ∀ e ∈ socket.schedule, e ≠ .failed

/-- A call is interrupted, or takes a piece of the stream; it takes nothing only at its end. -/
theorem recv_cases {socket : Socket} (h : Steady socket) {size : ℕ} (hsize : 0 < size) :
    (∃ socket', recv socket size = (.interrupted, socket') ∧ Steady socket' ∧
      socket'.pending = socket.pending ∧ socket'.bound < socket.bound) ∨
    ∃ chunk socket', recv socket size = (.bytes chunk, socket') ∧ Steady socket' ∧
      socket.pending = chunk ++ socket'.pending ∧ chunk.length ≤ size ∧
      (chunk = [] → socket.pending = []) ∧ (chunk ≠ [] → socket'.bound < socket.bound) := by
  obtain ⟨pending, schedule⟩ := socket
  have hdeliver {count : ℕ} (hcount : 0 < count) (hle : count ≤ size)
      (hsteady : Steady ⟨pending.drop count, schedule.tail⟩) :
      ∃ chunk socket', deliver ⟨pending, schedule⟩ count = (.bytes chunk, socket') ∧
        Steady socket' ∧ pending = chunk ++ socket'.pending ∧ chunk.length ≤ size ∧
        (chunk = [] → pending = []) ∧
        (chunk ≠ [] → socket'.bound < Socket.bound ⟨pending, schedule⟩) := by
    refine ⟨pending.take count, ⟨pending.drop count, schedule.tail⟩, rfl, hsteady, ?_, ?_, ?_, ?_⟩
    · exact (List.take_append_drop count pending).symm
    · rw [List.length_take]
      omega
    · intro hnil
      rcases List.take_eq_nil_iff.mp hnil with hzero | hnil
      · omega
      · exact hnil
    · intro hne
      have hpos : 0 < pending.length := by
        apply List.length_pos_iff.mpr
        rintro rfl
        exact hne (List.take_nil)
      simp only [Socket.bound, List.length_drop, List.length_tail]
      omega
  have htail : Steady ⟨pending, schedule.tail⟩ := fun e he => h e (List.mem_of_mem_tail he)
  cases schedule with
  | nil => exact .inr (hdeliver hsize le_rfl htail)
  | cons event rest =>
    cases event with
    | interrupted =>
      refine .inl ⟨⟨pending, rest⟩, rfl, htail, rfl, ?_⟩
      simp only [Socket.bound, List.length_cons]
      omega
    | failed => exact absurd rfl (h _ List.mem_cons_self)
    | chunk extra => exact .inr (hdeliver (by omega) (Nat.min_le_left _ _) htail)

inductive HeaderRead (stream : Bytes) : Except Refusal (Bytes × ℕ × Socket) → Prop
  | found {buffer : Bytes} {i : ℕ} {socket : Socket} : buffer ++ socket.pending = stream →
      findHeaderEnd buffer = some i → Steady socket → HeaderRead stream (.ok (buffer, i, socket))
  | tooLarge {buffer rest : Bytes} : stream = buffer ++ rest → findHeaderEnd buffer = none →
      httpMaxHeaderSize ≤ buffer.length →
      HeaderRead stream (.error (badRequest "request header too large"))
  | ended : findHeaderEnd stream = none → stream.length < httpMaxHeaderSize →
      HeaderRead stream (.error (badRequest "unexpected EOF while reading request"))

theorem readHeader_reads {fuel : ℕ} {socket : Socket} {buffer : Bytes} (h : Steady socket)
    (hfuel : socket.bound ≤ fuel) (hnone : findHeaderEnd buffer = none) :
    ∃ r, readHeader fuel socket buffer = .ok r ∧ HeaderRead (buffer ++ socket.pending) r := by
  induction fuel generalizing socket buffer with
  | zero =>
    simp only [Socket.bound] at hfuel
    omega
  | succ fuel ih =>
    rw [readHeader]
    by_cases hlarge : httpMaxHeaderSize ≤ buffer.length
    · rw [if_pos hlarge]
      exact ⟨_, rfl, .tooLarge rfl hnone hlarge⟩
    rw [if_neg hlarge]
    have hsize : 0 < bufferSize - 1 - buffer.length := by
      unfold bufferSize httpMaxBodySize
      omega
    rcases recv_cases h hsize with ⟨socket', hrecv, hsteady, hpending, hbound⟩ |
      ⟨chunk, socket', hrecv, hsteady, hpending, -, hend, hbound⟩
    · rw [hrecv, ← hpending]
      exact ih hsteady (by omega) hnone
    · rw [hrecv, hpending]
      dsimp only
      by_cases hchunk : chunk = []
      · rw [if_pos hchunk]
        have hempty : chunk ++ socket'.pending = [] := hpending ▸ hend hchunk
        rw [hempty, List.append_nil]
        exact ⟨_, rfl, .ended hnone (by omega)⟩
      · rw [if_neg hchunk, ← List.append_assoc]
        cases hfound : findHeaderEnd (buffer ++ chunk) with
        | some i => exact ⟨_, rfl, .found rfl hfound hsteady⟩
        | none => exact ih hsteady (by have := hbound hchunk; omega) hfound

theorem readBody_reads {bodyLength fuel : ℕ} {socket : Socket} {copied : Bytes} (h : Steady socket)
    (hfuel : socket.bound ≤ fuel) (hle : copied.length ≤ bodyLength) :
    readBody bodyLength fuel socket copied =
      .ok (if (copied ++ socket.pending).length < bodyLength then
          .error (badRequest "unexpected EOF while reading request body")
        else .ok ((copied ++ socket.pending).take bodyLength)) := by
  induction fuel generalizing socket copied with
  | zero =>
    simp only [Socket.bound] at hfuel
    omega
  | succ fuel ih =>
    rw [readBody]
    by_cases hdone : bodyLength ≤ copied.length
    · have heq : bodyLength = copied.length := by omega
      rw [if_pos hdone, if_neg (by rw [List.length_append]; omega), heq, List.take_left]
    rw [if_neg hdone]
    rcases recv_cases h (by omega : 0 < bodyLength - copied.length) with
      ⟨socket', hrecv, hsteady, hpending, hbound⟩ |
      ⟨chunk, socket', hrecv, hsteady, hpending, hlen, hend, hbound⟩
    · rw [hrecv, ← hpending]
      exact ih hsteady (by omega) hle
    · rw [hrecv]
      dsimp only
      by_cases hchunk : chunk = []
      · rw [if_pos hchunk, hend hchunk, List.append_nil, if_pos (by omega)]
      · rw [if_neg hchunk, ih hsteady (by have := hbound hchunk; omega)
          (by rw [List.length_append]; omega), hpending, List.append_assoc]

theorem crlf_ne : crlf ≠ [] := by decide
theorem blankLine_ne : blankLine ≠ [] := by decide

/-- A buffer ends as a string at its first NUL, which is in a beginning of it or not. -/
theorem ofBuffer_front (front rest : Bytes) :
    (0 ∈ front ∧ CString.ofBuffer (front ++ rest) = CString.ofBuffer front) ∨
    (0 ∉ front ∧ (CString.ofBuffer (front ++ rest)).bytes = front ++ (CString.ofBuffer rest).bytes ∧
      (CString.ofBuffer front).bytes = front) := by
  by_cases hmem : (0 : UInt8) ∈ front
  · refine .inl ⟨hmem, CString.ext ?_⟩
    simp only [CString.ofBuffer]
    rw [List.takeWhile_append, if_neg]
    intro hlen
    have hall := List.takeWhile_eq_self_iff.mp ((List.takeWhile_prefix _).eq_of_length hlen)
    simpa using hall 0 hmem
  · have hself := ofBuffer_of_nulFree hmem
    refine .inr ⟨hmem, ?_, hself⟩
    simp only [CString.ofBuffer] at hself ⊢
    rw [List.takeWhile_append_of_pos (List.takeWhile_eq_self_iff.mp hself)]

def EndsBlank (text : Bytes) : Prop := blankLine <:+ crlf ++ text

theorem suffix_matches {text : Bytes} (h : crlf <:+ text) :
    crlf <+: text.drop (text.length - 2) := by
  obtain ⟨front, rfl⟩ := h
  have hlen : (front ++ crlf).length - 2 = front.length := by simp [crlf]
  rw [hlen, List.drop_left]

theorem endsBlank_match {text : Bytes} (h : EndsBlank text) :
    ∃ lineEnd, firstMatch crlf text = some lineEnd := by
  have hlen : 2 ≤ text.length := by
    have hle := h.length_le
    simp only [blankLine, crlf, List.length_append, List.length_cons, List.length_nil] at hle
    omega
  have hends : crlf <:+ text :=
    List.suffix_of_suffix_length_le ((List.suffix_append crlf crlf).trans h)
      (List.suffix_append crlf text) hlen
  cases hmatch : firstMatch crlf text with
  | some lineEnd => exact ⟨lineEnd, rfl⟩
  | none => exact absurd (suffix_matches hends) ((firstMatch_none crlf_ne).mp hmatch _)

/-- Behind a line that is not empty, the header goes on for at least another line. -/
theorem endsBlank_next {text : Bytes} (h : EndsBlank text) {lineEnd : ℕ}
    (hmatch : firstMatch crlf text = some lineEnd) (hne : lineEnd ≠ 0) :
    EndsBlank (text.drop (lineEnd + 2)) := by
  obtain ⟨hhere, hfirst⟩ := (firstMatch_iff crlf_ne).mp hmatch
  have hle := firstMatch_length crlf_ne hmatch
  have htwo : crlf.length = 2 := rfl
  have hsplit := match_split hhere
  rw [htwo] at hsplit
  have hline : (text.take lineEnd).length = lineEnd := by
    rw [List.length_take]
    omega
  generalize text.take lineEnd = line at hsplit hline
  generalize text.drop (lineEnd + 2) = rest at hsplit
  by_cases hlong : 2 ≤ rest.length
  · refine List.suffix_of_suffix_length_le h ⟨crlf ++ line, by rw [hsplit]; simp⟩ ?_
    simp only [blankLine, crlf, List.length_append, List.length_cons, List.length_nil]
    omega
  obtain ⟨front, hfront⟩ := h
  rw [hsplit] at hfront
  exfalso
  rcases rest with _ | ⟨x, _ | ⟨y, rest⟩⟩
  · -- the line would end with CRLF itself
    have hcut : (front ++ crlf) ++ crlf = (crlf ++ line) ++ crlf := by
      simpa [blankLine, crlf] using hfront
    have hinner : front ++ crlf = crlf ++ line := (List.append_inj' hcut rfl).1
    by_cases hshort : 2 ≤ line.length
    · have hends : crlf <:+ line := List.suffix_of_suffix_length_le ⟨front, hinner⟩
        (List.suffix_append crlf line) hshort
      refine hfirst (line.length - 2) (by omega) ?_
      rw [hsplit]
      rw [match_append (by rw [htwo]; omega)]
      exact suffix_matches hends
    · obtain ⟨c, rfl⟩ : ∃ c, line = [c] := List.length_eq_one_iff.mp (by omega)
      have hlast : (front ++ [13]) ++ [10] = (crlf ++ []) ++ [c] := by simpa [crlf] using hinner
      have hbefore := (List.append_inj' hlast rfl).1
      have hten : (front) ++ [(13 : UInt8)] = [13] ++ [10] := by simpa [crlf] using hbefore
      exact absurd (List.append_inj' hten rfl).2 (by decide)
  · have hcut : (front ++ [13]) ++ [10, 13, 10] = (crlf ++ line) ++ [13, 10, x] := by
      simpa [blankLine, crlf] using hfront
    exact absurd (List.cons.inj (List.append_inj' hcut rfl).2).1 (by decide)
  · simp at hlong

/-- The loop stops at the empty line, so it does not see what stands behind the header. -/
theorem contentLengthLoop_front {fuel fuel' : ℕ} {text : Bytes} (rest : Bytes) (found : Option ℕ)
    (h : EndsBlank text) (hfuel : text.length < fuel) (hfuel' : text.length < fuel') :
    contentLengthLoop fuel (text ++ rest) found = contentLengthLoop fuel' text found := by
  induction fuel generalizing fuel' text found with
  | zero => omega
  | succ fuel ih =>
    obtain ⟨fuel', rfl⟩ : ∃ f, fuel' = f + 1 := ⟨fuel' - 1, by omega⟩
    obtain ⟨lineEnd, hmatch⟩ := endsBlank_match h
    have hle := firstMatch_length crlf_ne hmatch
    have htwo : crlf.length = 2 := rfl
    have hne : text ≠ [] := by
      rintro rfl
      simp only [List.length_nil] at hle
      omega
    have hline : (text ++ rest).take lineEnd = text.take lineEnd :=
      List.take_append_of_le_length (by omega)
    have hdrop : (text ++ rest).drop (lineEnd + 2) = text.drop (lineEnd + 2) ++ rest :=
      List.drop_append_of_le_length (by omega)
    rw [contentLengthLoop, contentLengthLoop, if_neg (by simp [hne]), if_neg hne,
      firstMatch_append crlf_ne hmatch, hmatch]
    dsimp only
    rw [hline, hdrop]
    by_cases hblank : lineEnd = 0
    · rw [if_pos hblank, if_pos hblank]
    rw [if_neg hblank, if_neg hblank]
    have hnext (found : Option ℕ) :
        contentLengthLoop fuel (text.drop (lineEnd + 2) ++ rest) found =
          contentLengthLoop fuel' (text.drop (lineEnd + 2)) found := by
      apply ih
      · exact endsBlank_next h hmatch hblank
      · rw [List.length_drop]
        omega
      · rw [List.length_drop]
        omega
    simp only [hnext]

theorem contentLengthLoop_total {fuel : ℕ} {text : Bytes} (found : Option ℕ)
    (hfuel : text.length < fuel) : ∃ r, contentLengthLoop fuel text found = .ok r := by
  induction fuel generalizing text found with
  | zero => omega
  | succ fuel ih =>
    have hnext (found : Option ℕ) (lineEnd : ℕ) (hne : text ≠ []) :
        ∃ r, contentLengthLoop fuel (text.drop (lineEnd + 2)) found = .ok r := by
      apply ih
      have hpos := List.length_pos_iff.mpr hne
      rw [List.length_drop]
      omega
    rw [contentLengthLoop]
    split
    · exact ⟨_, rfl⟩
    rename_i hne
    split
    · exact ⟨_, rfl⟩
    split
    · exact ⟨_, rfl⟩
    split
    · split
      · exact ⟨_, rfl⟩
      · split
        · exact ⟨_, rfl⟩
        · exact hnext _ _ hne
    · exact hnext _ _ hne

theorem parseHeader_total (buffer : Bytes) : ∃ r, parseHeader buffer = .ok r := by
  unfold parseHeader
  split
  · exact ⟨_, rfl⟩
  split
  · exact ⟨_, rfl⟩
  split
  · rename_i headerLineEnd _ _ _ _ _ _
    obtain ⟨r, hr⟩ := contentLengthLoop_total none
      (Nat.lt_succ_self (CString.ofBuffer (buffer.drop (headerLineEnd + 2))).bytes.length)
    rw [parseContentLength, hr, ok_bind]
    split
    · exact ⟨_, rfl⟩
    · exact ⟨_, rfl⟩
    · split
      · exact ⟨_, rfl⟩
      · exact ⟨_, rfl⟩
  · exact ⟨_, rfl⟩

theorem firstLine_front {header : Bytes} {i : ℕ} (hend : findHeaderEnd header = some i)
    (rest : Bytes) :
    firstMatch crlf (CString.ofBuffer (header ++ rest)).bytes =
      firstMatch crlf (CString.ofBuffer header).bytes := by
  rcases ofBuffer_front header rest with ⟨-, heq⟩ | ⟨-, hboth, hself⟩
  · rw [heq]
  · rw [hboth, hself]
    obtain ⟨hblank, -⟩ := (firstMatch_iff blankLine_ne).mp hend
    have hcrlf : crlf <+: header.drop i := (List.prefix_append crlf crlf).trans hblank
    cases hmatch : firstMatch crlf header with
    | none => exact absurd hcrlf ((firstMatch_none crlf_ne).mp hmatch i)
    | some k => exact firstMatch_append crlf_ne hmatch _

theorem lines_endBlank {header : Bytes} {k : ℕ}
    (hline : firstMatch crlf (CString.ofBuffer header).bytes = some k)
    (hblank : blankLine <:+ header) (hk : k + 4 ≤ header.length) :
    EndsBlank (header.drop (k + 2)) := by
  have hmatch : crlf <+: header.drop k := by
    have hin := ((firstMatch_iff crlf_ne).mp hline).1
    have hcut := List.takeWhile_append_dropWhile (p := fun c : UInt8 => decide (c ≠ 0))
      (l := header)
    have hle := firstMatch_length crlf_ne hline
    rw [← hcut]
    exact (match_append hle).mpr hin
  obtain ⟨tail, htail⟩ := hmatch
  have hdrop : header.drop (k + 2) = tail := by
    rw [← List.drop_drop, ← htail]
    rfl
  unfold EndsBlank
  rw [hdrop, htail]
  refine List.suffix_of_suffix_length_le hblank (List.drop_suffix _ _) ?_
  rw [List.length_drop]
  simp only [blankLine, List.length_cons, List.length_nil]
  omega

theorem parseContentLength_front {header : Bytes} {k : ℕ}
    (hline : firstMatch crlf (CString.ofBuffer header).bytes = some k)
    (hblank : blankLine <:+ header) (hk : k + 4 ≤ header.length) (rest : Bytes) :
    parseContentLength (.ofBuffer ((header ++ rest).drop (k + 2))) =
      parseContentLength (.ofBuffer (header.drop (k + 2))) := by
  rw [List.drop_append_of_le_length (by omega)]
  rcases ofBuffer_front (header.drop (k + 2)) rest with ⟨-, heq⟩ | ⟨-, hboth, hself⟩
  · rw [heq]
  · unfold parseContentLength
    rw [hboth, hself]
    apply contentLengthLoop_front _ _ (lines_endBlank hline hblank hk)
    · rw [List.length_append]
      omega
    · omega

theorem firstLine_buffer {buffer : Bytes} {k : ℕ}
    (hline : firstMatch crlf (CString.ofBuffer buffer).bytes = some k) :
    firstMatch crlf buffer = some k := by
  have hcut := List.takeWhile_append_dropWhile (p := fun c : UInt8 => decide (c ≠ 0)) (l := buffer)
  have hmore := firstMatch_append crlf_ne hline (buffer.dropWhile (fun c => decide (c ≠ 0)))
  rwa [CString.ofBuffer, hcut] at hmore

theorem firstLine_le {header : Bytes} {i k : ℕ} (hend : findHeaderEnd header = some i)
    (hline : firstMatch crlf (CString.ofBuffer header).bytes = some k) : k ≤ i := by
  obtain ⟨hblank, -⟩ := (firstMatch_iff blankLine_ne).mp hend
  have hcrlf : crlf <+: header.drop i := (List.prefix_append crlf crlf).trans hblank
  obtain ⟨-, hfirst⟩ := (firstMatch_iff crlf_ne).mp (firstLine_buffer hline)
  by_contra hlater
  exact hfirst i (by omega) hcrlf

theorem header_endsBlank {header : Bytes} {i : ℕ} (hend : findHeaderEnd header = some i)
    (hlen : header.length = i + 4) : blankLine <:+ header := by
  obtain ⟨⟨tail, htail⟩, -⟩ := (firstMatch_iff blankLine_ne).mp hend
  have hnil : tail = [] := by
    have hboth := congrArg List.length htail
    simp only [blankLine, List.length_append, List.length_cons, List.length_nil,
      List.length_drop] at hboth
    exact List.length_eq_zero_iff.mp (by omega)
  rw [hnil, List.append_nil] at htail
  rw [htail]
  exact List.drop_suffix _ _

/-- What is taken out of the header does not depend on what has been read behind it. -/
theorem parseHeader_front {header : Bytes} {i : ℕ} (hend : findHeaderEnd header = some i)
    (hlen : header.length = i + 4) (rest : Bytes) :
    parseHeader (header ++ rest) = parseHeader header := by
  unfold parseHeader
  rw [firstLine_front hend]
  cases hline : firstMatch crlf (CString.ofBuffer header).bytes with
  | none => rfl
  | some k =>
    have hk := firstLine_le hend hline
    have hfirst :
        (CString.ofBuffer (header ++ rest)).take k = (CString.ofBuffer header).take k := by
      rcases ofBuffer_front header rest with ⟨-, heq⟩ | ⟨-, hboth, hself⟩
      · rw [heq]
      · apply CString.ext
        simp only [CString.take]
        rw [hboth, hself, List.take_append_of_le_length (by omega)]
    dsimp only
    rw [hfirst, parseContentLength_front hline (header_endsBlank hend hlen) (by omega)]

theorem header_cut {text : Bytes} {i : ℕ} (hend : findHeaderEnd text = some i) :
    findHeaderEnd (text.take (i + 4)) = some i ∧ (text.take (i + 4)).length = i + 4 := by
  have hle := firstMatch_length blankLine_ne hend
  have hfour : blankLine.length = 4 := rfl
  have hlen : (text.take (i + 4)).length = i + 4 := by
    rw [List.length_take]
    omega
  refine ⟨?_, hlen⟩
  have hwhole : firstMatch blankLine (text.take (i + 4) ++ text.drop (i + 4)) = some i := by
    rw [List.take_append_drop]
    exact hend
  exact firstMatch_seen blankLine_ne hwhole (by omega)

theorem parseHeader_cut {text : Bytes} {i : ℕ} (hend : findHeaderEnd text = some i) :
    parseHeader text = parseHeader (text.take (i + 4)) := by
  obtain ⟨hcut, hlen⟩ := header_cut hend
  have hfront := parseHeader_front hcut hlen (text.drop (i + 4))
  rwa [List.take_append_drop] at hfront

theorem take_read_early (early later : Bytes) (n : ℕ) :
    (early.take n ++ later).take n = (early ++ later).take n ∧
      ((early.take n ++ later).length < n ↔ (early ++ later).length < n) := by
  by_cases hn : n ≤ early.length
  · have hlen : (early.take n).length = n := by
      rw [List.length_take]
      omega
    rw [List.take_append_of_le_length (by omega), List.take_append_of_le_length hn, List.take_take,
      List.length_append, List.length_append, hlen]
    exact ⟨by rw [Nat.min_self], by omega⟩
  · rw [List.take_of_length_le (l := early) (by omega)]
    exact ⟨rfl, Iff.rfl⟩

theorem requestOf_total (stream : Bytes) : ∃ r, requestOf stream = .ok r := by
  unfold requestOf
  split
  · split
    · exact ⟨_, rfl⟩
    · exact ⟨_, rfl⟩
  split
  · exact ⟨_, rfl⟩
  · rename_i i _ _
    obtain ⟨parsed, hparsed⟩ := parseHeader_total (stream.take (i + 4))
    rw [hparsed, ok_bind]
    cases parsed with
    | error e => exact ⟨_, rfl⟩
    | ok head =>
      dsimp only
      split
      · exact ⟨_, rfl⟩
      · exact ⟨_, rfl⟩

theorem httpReadRequest_stream {socket : Socket} (h : Steady socket) :
    httpReadRequest true socket = requestOf socket.pending := by
  obtain ⟨r, hr, hread⟩ := @readHeader_reads _ _ [] h le_rfl rfl
  rw [List.nil_append] at hread
  unfold httpReadRequest requestOf
  rw [hr, ok_bind]
  cases hread with
  | @found buffer i socket' hstream hend hsteady =>
    have hle := firstMatch_length blankLine_ne hend
    have hfour : blankLine.length = 4 := rfl
    have hwhole : findHeaderEnd socket.pending = some i := by
      rw [← hstream]
      exact firstMatch_append blankLine_ne hend _
    have hhead : buffer.take (i + 4) = socket.pending.take (i + 4) := by
      rw [← hstream, List.take_append_of_le_length (by omega)]
    have hbehind : socket.pending.drop (i + 4) = buffer.drop (i + 4) ++ socket'.pending := by
      rw [← hstream, List.drop_append_of_le_length (by omega)]
    rw [hwhole]
    dsimp only
    by_cases hlarge : httpMaxHeaderSize < i + 4
    · rw [if_pos hlarge, if_pos hlarge]
    rw [if_neg hlarge, if_neg hlarge, parseHeader_cut hend, hhead]
    obtain ⟨parsed, hparsed⟩ := parseHeader_total (socket.pending.take (i + 4))
    rw [hparsed, ok_bind, ok_bind]
    cases parsed with
    | error e => rfl
    | ok head =>
      obtain ⟨method, path, bodyLength⟩ := head
      obtain ⟨hbody, hshort⟩ := take_read_early (buffer.drop (i + 4)) socket'.pending bodyLength
      dsimp only
      rw [if_neg (by decide), readBody_reads hsteady le_rfl (by rw [List.length_take]; omega),
        ok_bind, hbody, hbehind]
      have hlen : socket.pending.length < i + 4 + bodyLength ↔
          (buffer.drop (i + 4) ++ socket'.pending).length < bodyLength := by
        rw [← hbehind, List.length_drop, ← hstream, List.length_append]
        omega
      by_cases hcut : socket.pending.length < i + 4 + bodyLength
      · rw [if_pos (hshort.mpr (hlen.mp hcut)), if_pos hcut]
      · rw [if_neg (fun h => hcut (hlen.mpr (hshort.mp h))), if_neg hcut]
  | @tooLarge buffer rest hstream hnone hlarge =>
    have hlong : httpMaxHeaderSize ≤ socket.pending.length := by
      rw [hstream, List.length_append]
      omega
    cases hwhole : findHeaderEnd socket.pending with
    | none =>
      dsimp only
      rw [if_pos hlong]
    | some i =>
      dsimp only
      rw [if_pos]
      -- otherwise the end would have been found in what was read
      by_contra hsmall
      rw [hstream] at hwhole
      have hseen := firstMatch_seen blankLine_ne hwhole
        (by simp only [blankLine, List.length_cons, List.length_nil]; omega)
      rw [findHeaderEnd, hseen] at hnone
      cases hnone
  | ended hnone hshort =>
    rw [hnone]
    dsimp only
    rw [if_neg (by omega)]

theorem space_split {text : Bytes} {n : ℕ} (h : firstMatch [32] text = some n) :
    text = text.take n ++ 32 :: text.drop (n + 1) ∧ 32 ∉ text.take n := by
  obtain ⟨hhere, hfirst⟩ := (firstMatch_iff (by decide)).mp h
  refine ⟨match_split hhere, fun hmem => ?_⟩
  obtain ⟨j, hj⟩ := List.mem_iff_getElem?.mp hmem
  have hlt : j < n := by
    have hbound := (List.getElem?_eq_some_iff.mp hj).1
    rw [List.length_take] at hbound
    omega
  rw [List.getElem?_take_of_lt hlt] at hj
  refine hfirst j hlt ⟨text.drop (j + 1), ?_⟩
  rw [List.singleton_append, List.drop_eq_getElem_cons (List.getElem?_eq_some_iff.mp hj).1,
    (List.getElem?_eq_some_iff.mp hj).2]

theorem parseRequestLine_words {line method path : CString}
    (h : parseRequestLine line = some (method, path)) :
    ∃ version, line.bytes = method.bytes ++ 32 :: (path.bytes ++ 32 :: version) ∧
      32 ∉ method.bytes ∧ 32 ∉ path.bytes := by
  unfold parseRequestLine at h
  split at h
  · cases h
  rename_i methodLen hmethod
  split at h
  · cases h
  rename_i pathLen hpath
  split at h
  · cases h
  cases h
  obtain ⟨hline, hfirst⟩ := space_split hmethod
  obtain ⟨hrest, hsecond⟩ := space_split hpath
  have hbytes : (CString.ofBuffer ((line.bytes.drop (methodLen + 1)).take pathLen)).bytes =
      (line.bytes.drop (methodLen + 1)).take pathLen := by
    have hfree : (0 : UInt8) ∉ (line.bytes.drop (methodLen + 1)).take pathLen := fun hmem =>
      line.nulFree (List.mem_of_mem_drop (List.mem_of_mem_take hmem))
    exact ofBuffer_of_nulFree hfree
  refine ⟨(line.bytes.drop (methodLen + 1)).drop (pathLen + 1), ?_, hfirst, ?_⟩
  · rw [hbytes, ← hrest]
    exact hline
  · rw [hbytes]
    exact hsecond

/-- The method, the path and the length of the body, as the header gives them. -/
theorem parseHeader_words {header : Bytes} {method path : CString} {bodyLength : ℕ}
    (h : parseHeader header = .ok (.ok (method, path, bodyLength))) :
    ∃ line version, firstMatch crlf header = some line.length ∧ line <+: header ∧
      line = method.bytes ++ 32 :: (path.bytes ++ 32 :: version) ∧
      32 ∉ method.bytes ∧ 32 ∉ path.bytes ∧
      (method = .lit "POST" → parseContentLength (.ofBuffer (header.drop (line.length + 2))) =
        .ok (.ok (some bodyLength))) ∧
      (method ≠ .lit "POST" → bodyLength = 0) := by
  unfold parseHeader at h
  split at h
  · cases h
  rename_i k hline
  split at h
  · cases h
  rename_i method' path' hwords
  have hle := firstMatch_length crlf_ne hline
  have hlen : ((CString.ofBuffer header).take k).bytes.length = k := by
    simp only [CString.take, List.length_take]
    omega
  have hprefix : ((CString.ofBuffer header).take k).bytes <+: header :=
    (List.take_prefix _ _).trans (List.takeWhile_prefix _)
  obtain ⟨version, hbytes, hmethod, hpath⟩ := parseRequestLine_words hwords
  split at h
  · rename_i hpost
    obtain ⟨parsed, hparsed, h⟩ := bind_eq_ok.mp h
    split at h
    · cases h
    · cases h
    split at h
    · cases h
    · cases h
      refine ⟨_, version, ?_, hprefix, hbytes, hmethod, hpath, fun _ => ?_, fun hne => ?_⟩
      · rw [hlen]
        exact firstLine_buffer hline
      · rw [hlen]
        exact hparsed
      · exact absurd hpost hne
  · rename_i hpost
    cases h
    refine ⟨_, version, ?_, hprefix, hbytes, hmethod, hpath, fun heq => ?_, fun _ => rfl⟩
    · rw [hlen]
      exact firstLine_buffer hline
    · exact absurd heq hpost

structure RequestIn (stream : Bytes) (req : HttpRequest) : Prop where
  firstLine : ∃ line version, firstMatch crlf stream = some line.length ∧ line <+: stream ∧
    line = req.method.bytes ++ 32 :: (req.path.bytes ++ 32 :: version) ∧
    32 ∉ req.method.bytes ∧ 32 ∉ req.path.bytes
  body : ∃ headerEnd, firstMatch blankLine stream = some headerEnd ∧
    req.body <+: stream.drop (headerEnd + 4) ∧
    (req.method = .lit "POST" → ∃ lineEnd, firstMatch crlf stream = some lineEnd ∧
      parseContentLength (.ofBuffer ((stream.take (headerEnd + 4)).drop (lineEnd + 2))) =
        .ok (.ok (some req.body.length))) ∧
    (req.method ≠ .lit "POST" → req.body = [])

theorem requestOf_in {stream : Bytes} {req : HttpRequest}
    (h : requestOf stream = .ok (.ok req)) : RequestIn stream req := by
  unfold requestOf at h
  split at h
  · split at h
    · cases h
    · cases h
  rename_i i hend
  split at h
  · cases h
  obtain ⟨parsed, hparsed, h⟩ := bind_eq_ok.mp h
  split at h
  · rename_i e
    cases e with
    | badRequest message => cases h
    | payloadTooLarge message => cases h
  rename_i method path bodyLength
  split at h
  · cases h
  rename_i hlong
  cases h
  obtain ⟨line, version, hline, hprefix, hbytes, hmethod, hpath, hpost, hother⟩ :=
    parseHeader_words hparsed
  have hwhole : firstMatch crlf stream = some line.length := by
    have hmore := firstMatch_append crlf_ne hline (stream.drop (i + 4))
    rwa [List.take_append_drop] at hmore
  have hlen : ((stream.drop (i + 4)).take bodyLength).length = bodyLength := by
    rw [List.length_take, List.length_drop]
    omega
  refine ⟨⟨line, version, hwhole, hprefix.trans (List.take_prefix _ _), hbytes, hmethod, hpath⟩,
    ⟨i, hend, List.take_prefix _ _, fun heq => ⟨_, hwhole, ?_⟩, fun hne => ?_⟩⟩
  · rw [hlen]
    exact hpost heq
  · dsimp only
    rw [hother hne, List.take_zero]

/-- One stream gives one result, however it is cut into pieces and wherever a call is interrupted.
If the result is a request, its method and path are the first two words of the first line, and its
body is what stands behind the first empty line, as long as the header says. -/
theorem reading_ignores_packet_boundaries (stream : Bytes) :
    ∃ result, (∀ schedule, (∀ e ∈ schedule, e ≠ RecvEvent.failed) →
        httpReadRequest true ⟨stream, schedule⟩ = .ok result) ∧
      ∀ req, result = .ok req → RequestIn stream req := by
  obtain ⟨result, hresult⟩ := requestOf_total stream
  refine ⟨result, fun schedule hsteady => ?_, fun req hreq => ?_⟩
  · have hread : httpReadRequest true ⟨stream, schedule⟩ = requestOf stream :=
      httpReadRequest_stream hsteady
    rw [hread, hresult]
  · rw [hreq] at hresult
    exact requestOf_in hresult

/-- Two deliveries of one request, the second a byte at a time with interruptions. -/
example : (httpReadRequest true ⟨ascii "GET /health HTTP/1.1\r\n\r\n", []⟩ =
      .ok (.ok ⟨.lit "GET", .lit "/health", []⟩)) ∧
    httpReadRequest true ⟨ascii "GET /health HTTP/1.1\r\n\r\n",
      .interrupted :: List.replicate 24 (.chunk 0)⟩ =
      .ok (.ok ⟨.lit "GET", .lit "/health", []⟩) := by decide +kernel

end HttpReading
