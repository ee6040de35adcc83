import ThreadedDb.HttpReading
import ThreadedDb.Scanning

/-!
# The length of a body

What `parse_content_length` makes of the header lines of a request. The number goes through
`strtoull`, which takes more than digits, and the lines go through a C string, which ends at the
first NUL: the cases in which the header says one thing and the server reads another.
-/
namespace ContentLength

open ByteText
open SqlFrontEnd (isDigit)
open HttpModel
open HttpReading
open Occurrences
open Scanning
open CheckedArray (ok_bind bind_eq_ok)

def PureDigits (text : Bytes) : Prop := text ≠ [] ∧ ∀ c ∈ text, isDigit c = true

def digitsValue (text : Bytes) : ℕ := text.foldl (fun n c => n * 10 + (c.toNat - 48)) 0

inductive Prefixed : Bytes → Prop
  | mk {white sign digits : Bytes} : (∀ c ∈ white, isSpace c = true) →
      sign = [] ∨ sign = [43] ∨ sign = [45] → PureDigits digits → white ++ sign ≠ [] →
      Prefixed (white ++ (sign ++ digits))

theorem digit_other (c : UInt8) (h : isDigit c = true) :
    isSpace c = false ∧ c ≠ 43 ∧ c ≠ 45 := by
  simp only [isDigit, isSpace] at *
  grind

theorem pureDigits_head {digits : Bytes} (h : PureDigits digits) :
    ∃ d rest, digits = d :: rest ∧ isDigit d = true := by
  obtain ⟨d, rest, rfl⟩ := List.exists_cons_of_ne_nil h.1
  exact ⟨d, rest, rfl, h.2 d List.mem_cons_self⟩

theorem digits_run {digits : Bytes} (h : PureDigits digits) :
    digits.takeWhile (fun c => 48 ≤ c && c ≤ 57) = digits :=
  List.takeWhile_eq_self_iff.mpr h.2

/-- `strtoull` takes white space, a sign and digits up to the end of the text. -/
theorem strtoull_all {white sign digits : Bytes} (hwhite : ∀ c ∈ white, isSpace c = true)
    (hsign : sign = [] ∨ sign = [43] ∨ sign = [45]) (hdigits : PureDigits digits) :
    (strtoull (white ++ (sign ++ digits))).2 = [] := by
  obtain ⟨d, rest, hd, hdecimal⟩ := pureDigits_head hdigits
  obtain ⟨hspace, hplus, hminus⟩ := digit_other d hdecimal
  have hstops : Stops isSpace (sign ++ digits) := by
    rcases hsign with rfl | rfl | rfl
    · rw [List.nil_append, hd]
      exact stops_cons hspace _
    · exact stops_cons (by decide) _
    · exact stops_cons (by decide) _
  have hstart := (takeWhile_stops hwhite hstops).2
  have hafter : (if (sign ++ digits).head? = some 43 ∨ (sign ++ digits).head? = some 45 then
      (sign ++ digits).drop 1 else sign ++ digits) = digits := by
    rcases hsign with rfl | rfl | rfl
    · rw [List.nil_append, if_neg]
      rw [hd]
      simp [hplus, hminus]
    · simp
    · simp
  unfold strtoull
  dsimp only
  rw [hstart, hafter, digits_run hdigits, if_neg hdigits.1]
  split
  · simp
  split
  · simp
  · simp

theorem strtoull_end {text : Bytes} (hne : text ≠ []) (h : (strtoull text).2 = []) :
    ∃ white sign digits, text = white ++ (sign ++ digits) ∧ (∀ c ∈ white, isSpace c = true) ∧
      (sign = [] ∨ sign = [43] ∨ sign = [45]) ∧ PureDigits digits := by
  obtain ⟨white, hcut, hwhite⟩ := scan_cut isSpace text
  generalize hstart : text.dropWhile isSpace = start at hcut
  obtain ⟨sign, digits, hsigned, hsign, hdigits⟩ : ∃ sign digits, start = sign ++ digits ∧
      (sign = [] ∨ sign = [43] ∨ sign = [45]) ∧
      (if start.head? = some 43 ∨ start.head? = some 45 then start.drop 1 else start) = digits := by
    by_cases hplus : start.head? = some 43
    · obtain ⟨rest, rfl⟩ := List.head?_eq_some_iff.mp hplus
      exact ⟨[43], rest, rfl, Or.inr (Or.inl rfl), by simp⟩
    by_cases hminus : start.head? = some 45
    · obtain ⟨rest, rfl⟩ := List.head?_eq_some_iff.mp hminus
      exact ⟨[45], rest, rfl, Or.inr (Or.inr rfl), by simp⟩
    · exact ⟨[], start, rfl, Or.inl rfl, if_neg (by simp [hplus, hminus])⟩
  refine ⟨white, sign, digits, by rw [hcut, hsigned], hwhite, hsign, ?_⟩
  unfold strtoull at h
  dsimp only at h
  rw [hstart, hdigits] at h
  generalize hrun : digits.takeWhile (fun c => 48 ≤ c && c ≤ 57) = run at h
  by_cases hempty : run = []
  · rw [if_pos hempty] at h
    exact absurd h hne
  rw [if_neg hempty] at h
  have hrest : digits.drop run.length = [] := by
    split at h
    · exact h
    split at h
    · exact h
    · exact h
  have hall : run = digits := by
    have hprefix : run <+: digits := hrun ▸ List.takeWhile_prefix _
    obtain ⟨tail, rfl⟩ := hprefix
    rw [List.drop_left] at hrest
    rw [hrest, List.append_nil]
  rw [← hall]
  exact ⟨hempty, fun c hc => List.mem_takeWhile_imp (hrun ▸ hc)⟩

theorem strtoull_digits {digits : Bytes} (h : PureDigits digits) :
    strtoull digits = (min (digitsValue digits) (2 ^ 64 - 1), []) := by
  obtain ⟨d, rest, hd, hdecimal⟩ := pureDigits_head h
  obtain ⟨hspace, hplus, hminus⟩ := digit_other d hdecimal
  have hstart : digits.dropWhile isSpace = digits := by
    rw [hd, List.dropWhile_cons_of_neg (by simp [hspace])]
  have hsign : ¬ (digits.head? = some 43 ∨ digits.head? = some 45) := by
    rw [hd]
    simp [hplus, hminus]
  unfold strtoull
  dsimp only
  rw [hstart, if_neg hsign, digits_run h, if_neg h.1]
  change (if 2 ^ 64 ≤ digitsValue digits then _ else _) = _
  split
  · rename_i hlarge
    rw [min_eq_right (by omega), List.drop_length]
  · rename_i hsmall
    rw [if_neg (fun hm => hsign (Or.inr hm)), List.drop_length, min_eq_left (by omega)]
    rfl

def headerLines : ℕ → Bytes → List Bytes
  | 0, _ => []
  | fuel + 1, text =>
    match firstMatch crlf text with
    | none => []
    | some lineEnd =>
      if lineEnd = 0 then [] else text.take lineEnd :: headerLines fuel (text.drop (lineEnd + 2))

def isContentLength (line : Bytes) : Bool := startsIgnoringCase contentLengthName line

/-- What stands behind the name of the header, without the spaces and tabs in front of it. -/
def lengthText (line : Bytes) : Bytes :=
  (line.drop contentLengthName.length).dropWhile (fun c => c = 32 || c = 9)

def lengthTexts (lines : List Bytes) : List Bytes := (lines.filter isContentLength).map lengthText

/-- The lines before the first NUL, which are all that the loop sees. -/
def seenLines (lines : List Bytes) : List Bytes := lines.takeWhile (fun line => 0 ∉ line)

def hiddenLines (lines : List Bytes) : List Bytes := lines.dropWhile (fun line => 0 ∉ line)

/-- The first NUL, if there is one, stands at the beginning of a line. -/
def endsBetween (lines : List Bytes) : Bool :=
  match hiddenLines lines with
  | [] => true
  | line :: _ => line.head? = some 0

def scanLines : List Bytes → Option ℕ → Except Refusal (Option ℕ)
  | [], found => .ok found
  | line :: rest, found =>
    if isContentLength line then
      if found.isSome then .error (badRequest "duplicate Content-Length")
      else
        match contentLengthValue line with
        | .error e => .error e
        | .ok length => scanLines rest (some length)
    else scanLines rest found

def lengthOutcome (lines : List Bytes) (found : Option ℕ) : Except Refusal (Option ℕ) :=
  match scanLines (seenLines lines) found with
  | .error e => .error e
  | .ok length =>
    if endsBetween lines then .ok length else .error (badRequest "malformed request headers")

theorem seen_cons {line : Bytes} (h : 0 ∉ line) (lines : List Bytes) :
    seenLines (line :: lines) = line :: seenLines lines ∧
      hiddenLines (line :: lines) = hiddenLines lines :=
  ⟨List.takeWhile_cons_of_pos (by simpa using h), List.dropWhile_cons_of_pos (by simpa using h)⟩

theorem hidden_cons {line : Bytes} (h : 0 ∈ line) (lines : List Bytes) :
    seenLines (line :: lines) = [] ∧ hiddenLines (line :: lines) = line :: lines :=
  ⟨List.takeWhile_cons_of_neg (by simpa using h), List.dropWhile_cons_of_neg (by simpa using h)⟩

theorem outcome_seen {line : Bytes} (h : 0 ∉ line) (lines : List Bytes) (found : Option ℕ) :
    lengthOutcome (line :: lines) found =
      if isContentLength line then
        if found.isSome then .error (badRequest "duplicate Content-Length")
        else contentLengthValue line >>= fun length => lengthOutcome lines (some length)
      else lengthOutcome lines found := by
  obtain ⟨hseen, hhidden⟩ := seen_cons h lines
  have hends : endsBetween (line :: lines) = endsBetween lines := by
    unfold endsBetween
    rw [hhidden]
  unfold lengthOutcome
  rw [hseen, hends, scanLines]
  by_cases hname : isContentLength line = true
  · rw [if_pos hname, if_pos hname]
    by_cases hfound : found.isSome = true
    · rw [if_pos hfound, if_pos hfound]
    · rw [if_neg hfound, if_neg hfound]
      cases contentLengthValue line with
      | error e => rfl
      | ok length => rfl
  · rw [if_neg hname, if_neg hname]

/-- A line with a NUL ends the loop: at its beginning quietly, elsewhere with an error. -/
theorem outcome_hidden {line : Bytes} (h : 0 ∈ line) (lines : List Bytes) (found : Option ℕ) :
    lengthOutcome (line :: lines) found =
      if line.head? = some 0 then .ok found
      else .error (badRequest "malformed request headers") := by
  obtain ⟨hseen, hhidden⟩ := hidden_cons h lines
  unfold lengthOutcome endsBetween
  rw [hseen, hhidden]
  simp only [scanLines, decide_eq_true_eq]

theorem no_line_end {text line tail : Bytes} (hmatch : firstMatch crlf text = some line.length)
    (htext : text = line ++ tail) : firstMatch crlf (CString.ofBuffer line).bytes = none := by
  rw [firstMatch_none crlf_ne]
  intro j hj
  have hle := match_length crlf_ne hj
  obtain ⟨more, hmore⟩ : (CString.ofBuffer line).bytes <+: text :=
    (List.takeWhile_prefix _).trans ⟨tail, htext.symm⟩
  have hshort : (CString.ofBuffer line).bytes.length ≤ line.length :=
    (List.takeWhile_prefix _).length_le
  have htwo : crlf.length = 2 := rfl
  refine ((firstMatch_iff crlf_ne).mp hmatch).2 j (by omega) ?_
  rw [← hmore]
  exact (match_append hle).mpr hj

theorem string_empty_iff {line : Bytes} (h : line.length ≠ 0) :
    (CString.ofBuffer line).bytes = [] ↔ line.head? = some 0 := by
  cases line with
  | nil => exact absurd rfl h
  | cons c line => by_cases hc : c = 0 <;> simp [CString.ofBuffer, hc]

theorem loop_seen {fuel : ℕ} {line cs : Bytes} {lines : List Bytes} (hline : line.length ≠ 0)
    (hmatch : firstMatch crlf (line ++ crlf) = some line.length) (hnul : 0 ∉ line)
    (hrest : ∀ found, contentLengthLoop fuel cs found = .ok (lengthOutcome lines found))
    (found : Option ℕ) : contentLengthLoop (fuel + 1) ((line ++ crlf) ++ cs) found =
      .ok (lengthOutcome (line :: lines) found) := by
  have htake : ((line ++ crlf) ++ cs).take line.length = line := by
    rw [List.append_assoc, List.take_left]
  have hdrop : ((line ++ crlf) ++ cs).drop (line.length + 2) = cs :=
    List.drop_left' (by simp [crlf])
  rw [outcome_seen hnul, contentLengthLoop, if_neg (by simp [crlf]),
    firstMatch_append crlf_ne hmatch]
  dsimp only
  rw [if_neg hline, htake, hdrop]
  unfold isContentLength
  by_cases hname : startsIgnoringCase contentLengthName line = true
  · rw [if_pos hname, if_pos hname]
    by_cases hfound : found.isSome = true
    · rw [if_pos hfound, if_pos hfound]
    · rw [if_neg hfound, if_neg hfound]
      cases contentLengthValue line with
      | error e => rfl
      | ok length => exact hrest (some length)
  · rw [if_neg hname, if_neg hname]
    exact hrest found

theorem loop_hidden {fuel : ℕ} {line : Bytes} (lines : List Bytes) (hline : line.length ≠ 0)
    (hmatch : firstMatch crlf (CString.ofBuffer line).bytes = none) (hnul : 0 ∈ line)
    (found : Option ℕ) : contentLengthLoop (fuel + 1) (CString.ofBuffer line).bytes found =
      .ok (lengthOutcome (line :: lines) found) := by
  rw [outcome_hidden hnul, contentLengthLoop, hmatch]
  by_cases hhead : line.head? = some 0
  · rw [if_pos hhead, if_pos ((string_empty_iff hline).mpr hhead)]
  · rw [if_neg hhead, if_neg (fun hnil => hhead ((string_empty_iff hline).mp hnil))]

theorem loop_lines {fuel fuel' : ℕ} {text : Bytes} (h : EndsBlank text)
    (hfuel : (CString.ofBuffer text).bytes.length < fuel) (hfuel' : text.length < fuel')
    (found : Option ℕ) :
    contentLengthLoop fuel (CString.ofBuffer text).bytes found =
      .ok (lengthOutcome (headerLines fuel' text) found) := by
  induction fuel generalizing fuel' text found with
  | zero => omega
  | succ fuel ih =>
    obtain ⟨fuel', rfl⟩ : ∃ f, fuel' = f + 1 := ⟨fuel' - 1, by omega⟩
    obtain ⟨n, hmatch⟩ := endsBlank_match h
    have hle := firstMatch_length crlf_ne hmatch
    have htwo : crlf.length = 2 := rfl
    have hsplit := match_split ((firstMatch_iff crlf_ne).mp hmatch).1
    rw [htwo] at hsplit
    have hline : (text.take n).length = n := by
      rw [List.length_take]
      omega
    rw [headerLines, hmatch]
    dsimp only
    by_cases hblank : n = 0
    · subst hblank
      have hbytes : (CString.ofBuffer text).bytes =
          crlf ++ (CString.ofBuffer (text.drop 2)).bytes := by
        rw [hsplit]
        rfl
      rw [if_pos rfl, hbytes, contentLengthLoop, if_neg (by simp [crlf]),
        firstMatch_append crlf_ne (show firstMatch crlf crlf = some 0 by decide)]
      rfl
    rw [if_neg hblank]
    have hnext := endsBlank_next h hmatch hblank
    generalize text.take n = line at hsplit hline
    generalize text.drop (n + 2) = rest at hsplit hnext
    subst hline
    rw [hsplit] at hmatch
    rcases ofBuffer_front line (crlf ++ rest) with ⟨hnul, heq⟩ | ⟨hnul, hbytes, -⟩
    · rw [hsplit, heq]
      exact loop_hidden _ hblank (no_line_end hmatch rfl) hnul found
    · have hcs : (CString.ofBuffer text).bytes =
          (line ++ crlf) ++ (CString.ofBuffer rest).bytes := by
        rw [hsplit, hbytes, List.append_assoc]
        rfl
      have hshort : (CString.ofBuffer rest).bytes.length < fuel ∧ rest.length < fuel' := by
        have hlen := congrArg List.length hsplit
        have hlen' := congrArg List.length hcs
        simp only [List.length_append] at hlen hlen'
        omega
      rw [← List.append_assoc] at hmatch
      have hfirst := firstMatch_seen crlf_ne hmatch (by rw [List.length_append])
      rw [hcs]
      exact loop_seen hblank hfirst hnul (fun found => ih hnext hshort.1 hshort.2 found) found

inductive Reads (text : Bytes) : Except Refusal ℕ → Prop
  | digits : PureDigits text → Reads text (.ok (min (digitsValue text) (2 ^ 64 - 1)))
  | withPrefix (n : ℕ) : Prefixed text → Reads text (.ok n)
  | refused (message : CString) : ¬ PureDigits text → ¬ Prefixed text →
      Reads text (.error (.badRequest message))

theorem not_prefixed {text : Bytes} (h : PureDigits text) : ¬ Prefixed text := by
  rintro ⟨hwhite, hsign, -, hne⟩
  rename_i white sign digits
  obtain ⟨c, before, hcut⟩ := List.exists_cons_of_ne_nil hne
  have hmem : c ∈ white ++ sign := hcut ▸ List.mem_cons_self
  obtain ⟨hspace, hplus, hminus⟩ := digit_other c (h.2 c (by
    rw [← List.append_assoc]
    exact List.mem_append_left _ hmem))
  rcases List.mem_append.mp hmem with hc | hc
  · exact absurd (hwhite c hc) (by simp [hspace])
  · rcases hsign with rfl | rfl | rfl
    · cases hc
    · exact hplus (List.mem_singleton.mp hc)
    · exact hminus (List.mem_singleton.mp hc)

theorem value_reads (line : Bytes) : Reads (lengthText line) (contentLengthValue line) := by
  unfold contentLengthValue
  change Reads (lengthText line) (if lengthText line = [] then _ else
    if (strtoull (lengthText line)).2 ≠ [] then _ else .ok (strtoull (lengthText line)).1)
  generalize lengthText line = text
  by_cases hpure : PureDigits text
  · rw [if_neg hpure.1, strtoull_digits hpure, if_neg (by simp)]
    exact .digits hpure
  by_cases hprefixed : Prefixed text
  · have hne : text ≠ [] := by
      obtain ⟨-, -, hdigits, -⟩ := hprefixed
      simp [hdigits.1]
    have hall : (strtoull text).2 = [] := by
      obtain ⟨hwhite, hsign, hdigits, -⟩ := hprefixed
      exact strtoull_all hwhite hsign hdigits
    rw [if_neg hne, if_neg (by simp [hall])]
    exact .withPrefix _ hprefixed
  by_cases hne : text = []
  · rw [if_pos hne]
    exact .refused _ hpure hprefixed
  rw [if_neg hne]
  by_cases hall : (strtoull text).2 = []
  · exfalso
    obtain ⟨white, sign, digits, rfl, hwhite, hsign, hdigits⟩ := strtoull_end hne hall
    by_cases hbefore : white ++ sign = []
    · obtain ⟨rfl, rfl⟩ := List.append_eq_nil_iff.mp hbefore
      exact hpure hdigits
    · exact hprefixed (.mk hwhite hsign hdigits hbefore)
  · rw [if_pos hall]
    exact .refused _ hpure hprefixed

inductive Scanned : List Bytes → Except Refusal (Option ℕ) → Prop
  | missing : Scanned [] (.ok none)
  | one {text : Bytes} {n : ℕ} : Reads text (.ok n) → Scanned [text] (.ok (some n))
  | refused {texts : List Bytes} (message : CString) : texts ≠ [] →
      (∀ text, texts = [text] → ¬ PureDigits text ∧ ¬ Prefixed text) →
      Scanned texts (.error (.badRequest message))

theorem lengthTexts_cons (line : Bytes) (lines : List Bytes) :
    lengthTexts (line :: lines) =
      if isContentLength line then lengthText line :: lengthTexts lines
      else lengthTexts lines := by
  unfold lengthTexts
  rw [List.filter_cons]
  split
  · rw [List.map_cons]
  · rfl

theorem scan_found (lines : List Bytes) (n : ℕ) :
    scanLines lines (some n) =
      if lengthTexts lines = [] then .ok (some n)
      else .error (badRequest "duplicate Content-Length") := by
  induction lines with
  | nil => rfl
  | cons line lines ih =>
    rw [scanLines, lengthTexts_cons]
    by_cases hname : isContentLength line = true
    · rw [if_pos hname, if_pos hname, if_pos Option.isSome_some, if_neg (List.cons_ne_nil _ _)]
    · rw [if_neg hname, if_neg hname, ih]

theorem scan_reads (lines : List Bytes) : Scanned (lengthTexts lines) (scanLines lines none) := by
  induction lines with
  | nil => exact .missing
  | cons line lines ih =>
    rw [scanLines, lengthTexts_cons]
    by_cases hname : isContentLength line = true
    · rw [if_pos hname, if_pos hname, if_neg (by simp)]
      have hreads := value_reads line
      cases hvalue : contentLengthValue line with
      | error e =>
        rw [hvalue] at hreads
        obtain ⟨-⟩ | ⟨-, -⟩ | ⟨message, hpure, hprefixed⟩ := hreads
        refine .refused message (List.cons_ne_nil _ _) (fun text heq => ?_)
        obtain ⟨rfl, -⟩ := List.cons.inj heq
        exact ⟨hpure, hprefixed⟩
      | ok n =>
        rw [hvalue] at hreads
        dsimp only
        rw [scan_found]
        by_cases hmore : lengthTexts lines = []
        · rw [if_pos hmore, hmore]
          exact .one hreads
        · rw [if_neg hmore]
          refine .refused _ (List.cons_ne_nil _ _) (fun text heq => ?_)
          exact absurd (List.cons.inj heq).2 hmore
    · rw [if_neg hname, if_neg hname]
      exact ih

/-- The one `Content-Length` of the lines is a number in decimal digits. -/
def Sole (lines : List Bytes) (n : ℕ) : Prop :=
  ∃ text, lengthTexts lines = [text] ∧ PureDigits text ∧ digitsValue text = n

theorem sole_unique {lines : List Bytes} {n m : ℕ} (hn : Sole lines n) (hm : Sole lines m) :
    n = m := by
  obtain ⟨text, htext, -, rfl⟩ := hn
  obtain ⟨other, hother, -, rfl⟩ := hm
  rw [htext] at hother
  rw [(List.cons.inj hother).1]

/-- What becomes of a `POST` request with these lines before its body is read. -/
def verdict (lines : List Bytes) : Except Refusal ℕ :=
  match lengthOutcome lines none with
  | .error e => .error e
  | .ok none => .error (badRequest "missing Content-Length")
  | .ok (some bodyLength) =>
    if httpMaxBodySize < bodyLength then
      .error (.payloadTooLarge (.lit "request body too large"))
    else .ok bodyLength

inductive Misread (lines : List Bytes) : Prop
  | withPrefix {text : Bytes} : endsBetween lines = true →
      lengthTexts (seenLines lines) = [text] → Prefixed text → Misread lines
  | duplicate {text : Bytes} : endsBetween lines = true →
      lengthTexts (seenLines lines) = [text] → PureDigits text →
      lengthTexts (hiddenLines lines) ≠ [] → Misread lines
  | unseen {n : ℕ} : Sole lines n → httpMaxBodySize < n →
      lengthTexts (seenLines lines) = [] ∨ endsBetween lines = false → Misread lines

theorem lengthTexts_split (lines : List Bytes) :
    lengthTexts lines = lengthTexts (seenLines lines) ++ lengthTexts (hiddenLines lines) := by
  unfold lengthTexts seenLines hiddenLines
  rw [← List.map_append, ← List.filter_append, List.takeWhile_append_dropWhile]

theorem verdict_cases (lines : List Bytes) :
    (∃ text n, endsBetween lines = true ∧ lengthTexts (seenLines lines) = [text] ∧
      Reads text (.ok n) ∧ verdict lines =
        if httpMaxBodySize < n then .error (.payloadTooLarge (.lit "request body too large"))
        else .ok n) ∨
    ((∃ message, verdict lines = .error (.badRequest message)) ∧
      (lengthTexts (seenLines lines) = [] ∨ endsBetween lines = false ∨
        ∀ text, lengthTexts (seenLines lines) = [text] →
          ¬ PureDigits text ∧ ¬ Prefixed text)) := by
  have hscan := scan_reads (seenLines lines)
  unfold verdict lengthOutcome
  generalize htexts : lengthTexts (seenLines lines) = texts at hscan
  cases hends : endsBetween lines with
  | true =>
    generalize scanLines (seenLines lines) none = r at hscan
    cases hscan with
    | missing => exact .inr ⟨⟨_, rfl⟩, .inl rfl⟩
    | one hreads => exact .inl ⟨_, _, rfl, rfl, hreads, rfl⟩
    | refused message hne hother => exact .inr ⟨⟨_, rfl⟩, .inr (.inr hother)⟩
  | false =>
    refine .inr ⟨?_, .inr (.inl rfl)⟩
    generalize scanLines (seenLines lines) none = r at hscan
    cases hscan with
    | missing => exact ⟨_, rfl⟩
    | one hreads => exact ⟨_, rfl⟩
    | refused message hne hother => exact ⟨_, rfl⟩

structure Faithful (lines : List Bytes) : Prop where
  proceeds : ∀ n, verdict lines = .ok n → Sole lines n ∧ n ≤ httpMaxBodySize
  large : ∀ n, Sole lines n → httpMaxBodySize < n →
    ∃ message, verdict lines = .error (.payloadTooLarge message)
  other : (¬ ∃ n, Sole lines n) → ∃ message, verdict lines = .error (.badRequest message)

theorem faithful_of_sole {lines : List Bytes} {text : Bytes} (htexts : lengthTexts lines = [text])
    (hpure : PureDigits text)
    (hverdict : verdict lines = if httpMaxBodySize < min (digitsValue text) (2 ^ 64 - 1) then
        .error (.payloadTooLarge (.lit "request body too large"))
      else .ok (min (digitsValue text) (2 ^ 64 - 1))) : Faithful lines := by
  have hsole : Sole lines (digitsValue text) := ⟨text, htexts, hpure, rfl⟩
  have hlimit : httpMaxBodySize < 2 ^ 64 - 1 := by decide
  by_cases hlarge : httpMaxBodySize < min (digitsValue text) (2 ^ 64 - 1)
  · rw [if_pos hlarge] at hverdict
    exact ⟨fun n hn => (nomatch hverdict.symm.trans hn), fun _ _ _ => ⟨_, hverdict⟩,
      fun hnone => absurd ⟨_, hsole⟩ hnone⟩
  · rw [if_neg hlarge] at hverdict
    have hvalue : min (digitsValue text) (2 ^ 64 - 1) = digitsValue text := by omega
    rw [hvalue] at hverdict hlarge
    refine ⟨fun n hn => ?_, fun n hn hmore => ?_, fun hnone => absurd ⟨_, hsole⟩ hnone⟩
    · rw [hverdict] at hn
      cases hn
      exact ⟨hsole, by omega⟩
    · rw [sole_unique hn hsole] at hmore
      exact absurd hmore hlarge

theorem faithful_of_not_misread {lines : List Bytes} (h : ¬ Misread lines) : Faithful lines := by
  have hsplit := lengthTexts_split lines
  rcases verdict_cases lines with ⟨text, n, hends, hseen, hreads, hverdict⟩ |
    ⟨⟨message, hverdict⟩, hwhy⟩
  · cases hreads with
    | withPrefix n hprefixed => exact absurd (.withPrefix hends hseen hprefixed) h
    | digits hpure =>
      have hhidden : lengthTexts (hiddenLines lines) = [] := by
        by_contra hmore
        exact h (.duplicate hends hseen hpure hmore)
      rw [hseen, hhidden] at hsplit
      exact faithful_of_sole hsplit hpure hverdict
  · refine ⟨fun n hn => (nomatch hverdict.symm.trans hn), fun n hn hlarge => ?_,
      fun _ => ⟨_, hverdict⟩⟩
    exfalso
    rcases hwhy with hnone | hends | hother
    · exact h (.unseen hn hlarge (.inl hnone))
    · exact h (.unseen hn hlarge (.inr hends))
    · obtain ⟨text, htexts, hpure, rfl⟩ := hn
      rw [hsplit] at htexts
      rcases List.append_eq_singleton_iff.mp htexts with ⟨hnone, -⟩ | ⟨hone, -⟩
      · exact h (.unseen ⟨text, by rw [hsplit, htexts], hpure, rfl⟩ hlarge (.inl hnone))
      · exact (hother text hone).1 hpure

/-- A header that is seen alone but is not the sole one, or not one of digits, is taken anyway. -/
theorem taken_anyway {lines : List Bytes} {text : Bytes} (hends : endsBetween lines = true)
    (hseen : lengthTexts (seenLines lines) = [text]) (htext : PureDigits text ∨ Prefixed text)
    (hsole : ¬ ∃ n, Sole lines n) : ¬ Faithful lines := by
  intro hfaithful
  obtain ⟨message, hbad⟩ := hfaithful.other hsole
  rcases verdict_cases lines with ⟨_, n, -, -, -, hverdict⟩ | ⟨-, hwhy⟩
  · rw [hbad] at hverdict
    split at hverdict
    · cases hverdict
    · cases hverdict
  · rcases hwhy with hnone | hinside | hother
    · rw [hseen] at hnone
      cases hnone
    · rw [hends] at hinside
      cases hinside
    · obtain ⟨hpure, hprefixed⟩ := hother text hseen
      exact htext.elim hpure hprefixed

theorem faithful_iff (lines : List Bytes) : Faithful lines ↔ ¬ Misread lines := by
  refine ⟨fun hfaithful hmisread => ?_, faithful_of_not_misread⟩
  have hsplit := lengthTexts_split lines
  cases hmisread with
  | withPrefix hends hseen hprefixed =>
    refine taken_anyway hends hseen (.inr hprefixed) ?_ hfaithful
    rintro ⟨n, other, hother, hpure, -⟩
    rw [hsplit, hseen] at hother
    obtain ⟨rfl, -⟩ := List.cons.inj hother
    exact not_prefixed hpure hprefixed
  | duplicate hends hseen hpure hmore =>
    refine taken_anyway hends hseen (.inl hpure) ?_ hfaithful
    rintro ⟨n, other, hother, -, -⟩
    rw [hsplit, hseen] at hother
    exact hmore (List.cons.inj hother).2
  | unseen hsole hlarge hwhy =>
    obtain ⟨message, htoo⟩ := hfaithful.large _ hsole hlarge
    rcases verdict_cases lines with ⟨text, n, hends, hseen, -, -⟩ | ⟨⟨_, hbad⟩, -⟩
    · rcases hwhy with hnone | hinside
      · rw [hnone] at hseen
        cases hseen
      · rw [hends] at hinside
        cases hinside
    · rw [hbad] at htoo
      cases htoo

def linesOf (text : Bytes) : List Bytes := headerLines (text.length + 1) text

/-- The header of a `POST` request has been read, with these lines behind the first one. -/
inductive PostRead (socket : Socket) (lines : List Bytes) : Prop
  | mk {buffer : Bytes} {i k : ℕ} {rest : Socket} {path : CString} :
      readHeader socket.bound socket [] = .ok (.ok (buffer, i, rest)) →
      i + 4 ≤ httpMaxHeaderSize → firstMatch crlf (CString.ofBuffer buffer).bytes = some k →
      parseRequestLine ((CString.ofBuffer buffer).take k) = some (.lit "POST", path) →
      linesOf ((buffer.take (i + 4)).drop (k + 2)) = lines → PostRead socket lines

inductive Proceeds (socket : Socket) (n : ℕ) : Prop
  | mk {buffer : Bytes} {i : ℕ} {rest : Socket} {method path : CString} :
      readHeader socket.bound socket [] = .ok (.ok (buffer, i, rest)) →
      i + 4 ≤ httpMaxHeaderSize → parseHeader buffer = .ok (.ok (method, path, n)) →
      Proceeds socket n

theorem readHeader_found {fuel i : ℕ} {socket rest : Socket} {start buffer : Bytes}
    (h : readHeader fuel socket start = .ok (.ok (buffer, i, rest))) :
    findHeaderEnd buffer = some i := by
  induction fuel generalizing socket start with
  | zero => cases h
  | succ fuel ih =>
    rw [readHeader] at h
    split at h
    · cases h
    split at h
    · exact ih h
    · cases h
    split at h
    · cases h
    split at h
    · rename_i hfound
      cases h
      exact hfound
    · exact ih h

theorem parseHeader_post {buffer : Bytes} {i k : ℕ} {path : CString}
    (hend : findHeaderEnd buffer = some i)
    (hline : firstMatch crlf (CString.ofBuffer buffer).bytes = some k)
    (hpost : parseRequestLine ((CString.ofBuffer buffer).take k) = some (.lit "POST", path)) :
    parseHeader buffer =
      .ok ((verdict (linesOf ((buffer.take (i + 4)).drop (k + 2)))).map
        (fun n => (.lit "POST", path, n))) := by
  obtain ⟨hcut, hlen⟩ := header_cut hend
  have hfront := firstLine_front hcut (buffer.drop (i + 4))
  rw [List.take_append_drop, hline] at hfront
  have hk := firstLine_le hcut hfront.symm
  have hblank := header_endsBlank hcut hlen
  have hlength := parseContentLength_front hfront.symm hblank (by omega) (buffer.drop (i + 4))
  rw [List.take_append_drop] at hlength
  have hloop := loop_lines (lines_endBlank hfront.symm hblank (by omega)) (Nat.lt_succ_self _)
    (Nat.lt_succ_self _) none
  unfold parseHeader
  rw [hline]
  dsimp only
  rw [hpost]
  dsimp only
  rw [if_pos rfl, hlength, parseContentLength]
  change contentLengthLoop _ _ none = .ok (lengthOutcome (linesOf _) none) at hloop
  rw [hloop, ok_bind]
  unfold verdict
  cases lengthOutcome (linesOf ((buffer.take (i + 4)).drop (k + 2))) none with
  | error e => rfl
  | ok found =>
    cases found with
    | none => rfl
    | some bodyLength =>
      dsimp only
      split
      · rfl
      · rfl

theorem recv_length {socket socket' : Socket} {size : ℕ} {chunk : Bytes}
    (h : recv socket size = (.bytes chunk, socket')) : chunk.length ≤ size := by
  unfold recv deliver at h
  split at h
  · cases h
  · cases h
  · cases h
    rw [List.length_take]
    omega
  · cases h
    rw [List.length_take]
    omega

theorem readBody_length {bodyLength fuel : ℕ} {socket : Socket} {copied body : Bytes}
    (h : readBody bodyLength fuel socket copied = .ok (.ok body))
    (hle : copied.length ≤ bodyLength) : body.length = bodyLength := by
  induction fuel generalizing socket copied with
  | zero => cases h
  | succ fuel ih =>
    rw [readBody] at h
    split at h
    · cases h
      omega
    split at h
    · exact ih h hle
    · cases h
    rename_i chunk socket' hrecv
    split at h
    · cases h
    · have hchunk := recv_length hrecv
      refine ih h ?_
      rw [List.length_append]
      omega

theorem proceeds_of_ok {memory : Bool} {socket : Socket} {req : HttpRequest}
    (h : httpReadRequest memory socket = .ok (.ok req)) : Proceeds socket req.body.length := by
  unfold httpReadRequest at h
  obtain ⟨read, hread, h⟩ := bind_eq_ok.mp h
  split at h
  · rename_i e
    cases e <;> cases h
  dsimp only at h
  split at h
  · cases h
  rename_i buffer i rest hsmall
  obtain ⟨parsed, hparsed, h⟩ := bind_eq_ok.mp h
  split at h
  · rename_i e
    cases e <;> cases h
  rename_i method path bodyLength
  split at h
  · cases h
  obtain ⟨copied, hcopied, h⟩ := bind_eq_ok.mp h
  split at h
  · rename_i e
    cases e <;> cases h
  cases h
  have hlength := readBody_length hcopied (by rw [List.length_take]; omega)
  rw [hlength]
  exact .mk hread (by omega) hparsed

theorem read_refused {memory : Bool} {socket rest : Socket} {buffer : Bytes} {i : ℕ} {e : Refusal}
    (hread : readHeader socket.bound socket [] = .ok (.ok (buffer, i, rest)))
    (hsmall : i + 4 ≤ httpMaxHeaderSize) (hparsed : parseHeader buffer = .ok (.error e)) :
    httpReadRequest memory socket = .ok e.status := by
  unfold httpReadRequest
  rw [hread, ok_bind]
  dsimp only
  rw [if_neg (by omega), hparsed, ok_bind]

/-- `Content-Length` means what it says: the body that is read is as long as the sole number says,
a sole number past the limit is too large, and everything else is a bad request. -/
structure MeansWhatItSays (memory : Bool) (socket : Socket) (lines : List Bytes) : Prop where
  proceeds : ∀ n, Proceeds socket n → Sole lines n ∧ n ≤ httpMaxBodySize
  returned : ∀ req, httpReadRequest memory socket = .ok (.ok req) → Sole lines req.body.length
  large : ∀ n, Sole lines n → httpMaxBodySize < n →
    ∃ message, httpReadRequest memory socket = .ok (.payloadTooLarge message)
  other : (¬ ∃ n, Sole lines n) →
    ∃ message, httpReadRequest memory socket = .ok (.badRequest message)

theorem status_injective : Function.Injective Refusal.status := by
  intro e e' h
  cases e <;> cases e' <;> cases h <;> rfl

theorem means_iff_faithful {memory : Bool} {socket : Socket} {lines : List Bytes}
    (h : PostRead socket lines) : MeansWhatItSays memory socket lines ↔ Faithful lines := by
  obtain ⟨hread, hsmall, hline, hpost, rfl⟩ := h
  rename_i buffer i k rest path
  have hparsed := parseHeader_post (readHeader_found hread) hline hpost
  generalize linesOf ((buffer.take (i + 4)).drop (k + 2)) = lines at hparsed
  have hproceeds (n : ℕ) : Proceeds socket n ↔ verdict lines = .ok n := by
    constructor
    · rintro ⟨hread', -, hparsed'⟩
      rw [hread] at hread'
      cases hread'
      rw [hparsed] at hparsed'
      cases hverdict : verdict lines with
      | error e =>
        rw [hverdict] at hparsed'
        cases hparsed'
      | ok m =>
        rw [hverdict] at hparsed'
        cases hparsed'
        rfl
    · intro hverdict
      rw [hverdict] at hparsed
      exact .mk hread hsmall hparsed
  have hrefused {e : Refusal} (he : verdict lines = .error e) :
      httpReadRequest memory socket = .ok e.status := by
    rw [he] at hparsed
    exact read_refused hread hsmall hparsed
  have hsame {e e' : Refusal} (he : verdict lines = .error e)
      (hanswer : httpReadRequest memory socket = .ok e'.status) : e = e' :=
    status_injective (Except.ok.inj ((hrefused he).symm.trans hanswer))
  constructor
  · intro hmeans
    refine ⟨fun n hn => hmeans.proceeds n ((hproceeds n).mpr hn), fun n hn hlarge => ?_,
      fun hnone => ?_⟩
    · obtain ⟨message, hanswer⟩ := hmeans.large n hn hlarge
      cases hverdict : verdict lines with
      | error e => exact ⟨message, congrArg _ (hsame hverdict hanswer)⟩
      | ok m =>
        obtain ⟨hm, hle⟩ := hmeans.proceeds m ((hproceeds m).mpr hverdict)
        rw [sole_unique hn hm] at hlarge
        exact absurd hle (by omega)
    · obtain ⟨message, hanswer⟩ := hmeans.other hnone
      cases hverdict : verdict lines with
      | error e => exact ⟨message, congrArg _ (hsame hverdict hanswer)⟩
      | ok m => exact absurd ⟨m, (hmeans.proceeds m ((hproceeds m).mpr hverdict)).1⟩ hnone
  · intro hfaithful
    have htaken (n : ℕ) (hn : Proceeds socket n) := hfaithful.proceeds n ((hproceeds n).mp hn)
    refine ⟨htaken, fun req hreq => (htaken _ (proceeds_of_ok hreq)).1, fun n hn hlarge => ?_,
      fun hnone => ?_⟩
    · obtain ⟨message, hverdict⟩ := hfaithful.large n hn hlarge
      exact ⟨message, hrefused hverdict⟩
    · obtain ⟨message, hverdict⟩ := hfaithful.other hnone
      exact ⟨message, hrefused hverdict⟩

/-- The length means what it says except where it is misread. -/
theorem length_means_what_it_says_iff {memory : Bool} {socket : Socket} {lines : List Bytes}
    (h : PostRead socket lines) : MeansWhatItSays memory socket lines ↔ ¬ Misread lines :=
  (means_iff_faithful h).trans (faithful_iff lines)

def postWith (value : String) : Socket :=
  ⟨ascii "POST / HTTP/1.1\r\nContent-Length: " ++ ascii value ++ ascii "\r\n\r\nx", []⟩

theorem plain_length_is_meant :
    PostRead (postWith "1") [ascii "Content-Length: 1"] ∧
      MeansWhatItSays true (postWith "1") [ascii "Content-Length: 1"] := by
  have hpost : PostRead (postWith "1") [ascii "Content-Length: 1"] :=
    .mk (i := 34) (k := 15) (by rfl) (by decide) (by decide +kernel)
      (show _ = some (_, .lit "/") by decide +kernel) (by decide +kernel)
  have htexts : lengthTexts [ascii "Content-Length: 1"] = [[49]] := by decide +kernel
  have hpure : PureDigits [49] := ⟨by decide, by simp [isDigit]⟩
  have hseen : seenLines [ascii "Content-Length: 1"] = [ascii "Content-Length: 1"] := by
    decide +kernel
  refine ⟨hpost, (length_means_what_it_says_iff hpost).mpr ?_⟩
  rintro (⟨-, htext, hprefixed⟩ | ⟨-, -, -, hmore⟩ | ⟨hsole, hlarge, -⟩)
  · rw [hseen, htexts] at htext
    obtain ⟨rfl, -⟩ := List.cons.inj htext
    exact not_prefixed hpure hprefixed
  · exact hmore (by decide +kernel)
  · rw [sole_unique hsole ⟨_, htexts, hpure, rfl⟩] at hlarge
    exact absurd hlarge (by decide)

/-- A sign is not a digit, yet the body is read. -/
theorem signed_length_is_taken :
    PostRead (postWith "+1") [ascii "Content-Length: +1"] ∧
      httpReadRequest true (postWith "+1") = .ok (.ok ⟨.lit "POST", .lit "/", ascii "x"⟩) ∧
      ¬ MeansWhatItSays true (postWith "+1") [ascii "Content-Length: +1"] := by
  have hread : httpReadRequest true (postWith "+1") =
      .ok (.ok ⟨.lit "POST", .lit "/", ascii "x"⟩) := by decide +kernel
  refine ⟨?_, hread, fun hmeans => ?_⟩
  · exact .mk (i := 35) (k := 15) (by rfl) (by decide) (by decide +kernel)
      (show _ = some (_, .lit "/") by decide +kernel) (by decide +kernel)
  · obtain ⟨text, htext, hpure, -⟩ := hmeans.returned _ hread
    have hsigned : lengthTexts [ascii "Content-Length: +1"] = [[43, 49]] := by decide +kernel
    rw [hsigned] at htext
    obtain ⟨rfl, -⟩ := List.cons.inj htext
    exact absurd (hpure.2 43 List.mem_cons_self) (by decide)

end ContentLength
