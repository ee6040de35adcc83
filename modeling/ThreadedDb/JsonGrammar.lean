import ThreadedDb.JsonModel
import ThreadedDb.LexerRoundTrip

/-!
# The format of a request body

Flat JSON objects as texts, with their decoded members, and `json_extract_string_field` against
them: it returns a value exactly for the texts of this format that give the field a string value
wherever they name it, and then the first one.
-/
namespace JsonGrammar

open ByteText
open SqlFrontEnd (isDigit)
open LexerRoundTrip (Digits)
open JsonModel
open Scanning
open CheckedArray (ok_bind bind_eq_ok)

def White (b : Bytes) : Prop := ∀ c ∈ b, isJsonSpace c = true

def escapes : List (UInt8 × UInt8) := [(34, 34), (92, 92), (110, 10), (114, 13), (116, 9)]

inductive Chars : Bytes → Bytes → Prop
  | nil : Chars [] []
  | plain {c : UInt8} {s text : Bytes} : ¬ c < 32 → c ≠ 34 → c ≠ 92 → Chars s text →
      Chars (c :: s) (c :: text)
  | escape {e c : UInt8} {s text : Bytes} : (e, c) ∈ escapes → Chars s text →
      Chars (92 :: e :: s) (c :: text)

inductive Quoted : Bytes → CString → Prop
  | mk {s : Bytes} {text : CString} : Chars s text.bytes → Quoted (34 :: (s ++ [34])) text

def DigitRun (b : Bytes) : Prop := b ≠ [] ∧ Digits b

inductive Fraction : Bytes → Prop
  | absent : Fraction []
  | given {ds : Bytes} : DigitRun ds → Fraction (46 :: ds)

inductive Exponent : Bytes → Prop
  | absent : Exponent []
  | given {e : UInt8} {sign ds : Bytes} : e = 101 ∨ e = 69 → sign = [] ∨ sign = [43] ∨ sign = [45] →
      DigitRun ds → Exponent (e :: (sign ++ ds))

inductive Number : Bytes → Prop
  | mk {sign whole fraction exponent : Bytes} : sign = [] ∨ sign = [45] → DigitRun whole →
      Fraction fraction → Exponent exponent → Number (sign ++ (whole ++ (fraction ++ exponent)))

inductive Value : Bytes → Option CString → Prop
  | string {q : Bytes} {text : CString} : Quoted q text → Value q (some text)
  | word {b : Bytes} : b = ascii "true" ∨ b = ascii "false" ∨ b = ascii "null" → Value b none
  | number {b : Bytes} : Number b → Value b none

structure Member where
  key : CString
  value : Option CString

inductive MemberText : Bytes → Member → Prop
  | mk {before k afterKey beforeValue v : Bytes} {key : CString} {value : Option CString} :
      White before → Quoted k key → White afterKey → White beforeValue → Value v value →
      MemberText (before ++ (k ++ (afterKey ++ 58 :: (beforeValue ++ v)))) ⟨key, value⟩

inductive Members : Bytes → List Member → Prop
  | last {b after : Bytes} {m : Member} : MemberText b m → White after → Members (b ++ after) [m]
  | cons {b after rest : Bytes} {m : Member} {ms : List Member} : MemberText b m → White after →
      Members rest ms → Members (b ++ (after ++ 44 :: rest)) (m :: ms)

inductive Object : Bytes → List Member → Prop
  | mk {before body after : Bytes} {ms : List Member} : White before → Members body ms →
      White after → Object (before ++ 123 :: (body ++ 125 :: after)) ms

def Strings (fieldName : CString) (ms : List Member) : Prop :=
  ∀ m ∈ ms, m.key = fieldName → m.value ≠ none

def firstValue (fieldName : CString) (ms : List Member) : Option CString :=
  (ms.find? (fun m => m.key = fieldName)).bind Member.value

theorem skip_cut (b : Bytes) : ∃ w, b = w ++ skipWhitespace b ∧ White w := scan_cut isJsonSpace b

theorem skip_white {w tail : Bytes} (hw : White w) (htail : Stops isJsonSpace tail) :
    skipWhitespace (w ++ tail) = tail := (takeWhile_stops hw htail).2

theorem skip_idem (b : Bytes) : skipWhitespace (skipWhitespace b) = skipWhitespace b :=
  skip_white (w := []) (by simp [White]) (dropWhile_stops isJsonSpace b)

theorem unescape_iff {e c : UInt8} : unescape e = some c ↔ (e, c) ∈ escapes := by
  unfold unescape escapes
  constructor
  · intro h
    split at h
    · rename_i hself
      cases h
      rcases hself with rfl | rfl
      · decide
      · decide
    · repeat' split at h
      all_goals simp_all
  · intro h
    simp only [List.mem_cons, Prod.mk.injEq, List.not_mem_nil, or_false] at h
    rcases h with ⟨rfl, rfl⟩ | ⟨rfl, rfl⟩ | ⟨rfl, rfl⟩ | ⟨rfl, rfl⟩ | ⟨rfl, rfl⟩
    all_goals rfl

theorem chars_sound {b text rest : Bytes} (h : jsonStringBytes b = .ok (text, rest)) :
    ∃ s, b = s ++ 34 :: rest ∧ Chars s text := by
  fun_induction jsonStringBytes b generalizing text rest with
  | case1 => cases h
  | case2 =>
    cases h
    exact ⟨[], rfl, .nil⟩
  | case3 => cases h
  | case4 => cases h
  | case5 => cases h
  | case6 => cases h
  | case7 e b c hescape text' rest' hrec _ _ ih =>
    cases h
    obtain ⟨s, rfl, hs⟩ := ih hrec
    exact ⟨92 :: e :: s, rfl, .escape (unescape_iff.mp hescape) hs⟩
  | case8 => cases h
  | case9 c b hquote hcontrol hescape text' rest' hrec ih =>
    cases h
    obtain ⟨s, rfl, hs⟩ := ih hrec
    exact ⟨c :: s, rfl, .plain hcontrol hquote hescape hs⟩

theorem chars_complete {s text : Bytes} (h : Chars s text) (rest : Bytes) :
    jsonStringBytes (s ++ 34 :: rest) = .ok (text, rest) := by
  induction h with
  | nil =>
    rw [List.nil_append, jsonStringBytes.eq_def]
    rfl
  | @plain c s text hcontrol hquote hescape _ ih =>
    rw [List.cons_append, jsonStringBytes.eq_def]
    dsimp only
    rw [if_neg hquote, if_neg hcontrol, if_neg hescape, ih]
  | @escape e c s text hmem _ ih =>
    rw [List.cons_append, List.cons_append, jsonStringBytes.eq_def]
    dsimp only
    rw [if_neg (by decide), if_neg (by decide), if_pos rfl, unescape_iff.mpr hmem]
    dsimp only
    rw [ih]

theorem chars_nulFree {s text : Bytes} (h : Chars s text) : 0 ∉ text := by
  have hescapes : ∀ p ∈ escapes, p.2 ≠ 0 := by simp [escapes]
  induction h with
  | nil => simp
  | @plain c s text hcontrol _ _ _ ih =>
    intro hzero
    rcases List.mem_cons.mp hzero with rfl | hzero
    · exact hcontrol (by decide)
    · exact ih hzero
  | @escape e c s text hmem _ ih =>
    intro hzero
    rcases List.mem_cons.mp hzero with rfl | hzero
    · exact hescapes _ hmem rfl
    · exact ih hzero

theorem string_sound {b rest : Bytes} {text : CString} (h : parseJsonString b = .ok (text, rest)) :
    ∃ q, b = q ++ rest ∧ Quoted q text := by
  unfold parseJsonString at h
  split at h
  · cases h
  rename_i hquote
  obtain ⟨tail, rfl⟩ := List.head?_eq_some_iff.mp (not_not.mp hquote)
  obtain ⟨⟨decoded, rest'⟩, hdecoded, hok⟩ := bind_eq_ok.mp h
  cases hok
  obtain ⟨s, hs, hchars⟩ := chars_sound hdecoded
  rw [List.drop_one, List.tail_cons] at hs
  refine ⟨34 :: (s ++ [34]), by simp [hs], .mk ?_⟩
  rw [ofBuffer_of_nulFree (chars_nulFree hchars)]
  exact hchars

theorem string_complete {q : Bytes} {text : CString} (h : Quoted q text) (rest : Bytes) :
    parseJsonString (q ++ rest) = .ok (text, rest) := by
  obtain ⟨hchars⟩ := h
  rename_i s
  have hdecoded := chars_complete hchars rest
  unfold parseJsonString
  rw [if_neg (by simp), bind_eq_ok]
  refine ⟨(text.bytes, rest), ?_, ?_⟩
  · rw [List.cons_append, List.drop_one, List.tail_cons, List.append_assoc]
    exact hdecoded
  · dsimp only
    rw [CString.ofBuffer_bytes]

theorem quoted_start {q : Bytes} {text : CString} (h : Quoted q text) (tail : Bytes) :
    (q ++ tail).head? = some 34 := by
  obtain ⟨-⟩ := h
  rfl

theorem digits_sound {message : CString} {b rest : Bytes} (h : consumeDigits message b = .ok rest) :
    ∃ ds, b = ds ++ rest ∧ DigitRun ds := by
  unfold consumeDigits at h
  split at h
  · rename_i hdigit
    cases h
    refine ⟨b.takeWhile isDigit, List.takeWhile_append_dropWhile.symm, ?_,
      fun c hc => List.mem_takeWhile_imp hc⟩
    cases b with
    | nil => cases hdigit
    | cons c b =>
      rw [List.takeWhile_cons_of_pos (by simpa using hdigit)]
      simp
  · cases h

theorem digits_complete {ds tail : Bytes} (h : DigitRun ds) (htail : Stops isDigit tail)
    (message : CString) : consumeDigits message (ds ++ tail) = .ok tail := by
  obtain ⟨hne, hdigits⟩ := h
  obtain ⟨d, more, rfl⟩ := List.exists_cons_of_ne_nil hne
  unfold consumeDigits
  rw [if_pos (by simpa using hdigits d List.mem_cons_self), (takeWhile_stops hdigits htail).2]

theorem fraction_sound {b rest : Bytes} (h : consumeFraction b = .ok rest) :
    ∃ f, b = f ++ rest ∧ Fraction f := by
  unfold consumeFraction at h
  split at h
  · rename_i hdot
    obtain ⟨tail, rfl⟩ := List.head?_eq_some_iff.mp hdot
    obtain ⟨ds, hds, hrun⟩ := digits_sound h
    rw [List.drop_one, List.tail_cons] at hds
    exact ⟨46 :: ds, by rw [hds, List.cons_append], .given hrun⟩
  · cases h
    exact ⟨[], rfl, .absent⟩

theorem fraction_complete {f tail : Bytes} (h : Fraction f) (hdigit : Stops isDigit tail)
    (hdot : tail.head? ≠ some 46) : consumeFraction (f ++ tail) = .ok tail := by
  unfold consumeFraction
  cases h with
  | absent => rw [List.nil_append, if_neg hdot]
  | given hrun =>
    rw [List.cons_append, List.head?_cons, if_pos rfl, List.drop_one, List.tail_cons]
    exact digits_complete hrun hdigit _

theorem exponent_sound {b rest : Bytes} (h : consumeExponent b = .ok rest) :
    ∃ e, b = e ++ rest ∧ Exponent e := by
  unfold consumeExponent at h
  split at h
  · rename_i he
    obtain ⟨e, tail, rfl, hletter⟩ : ∃ e tail, b = e :: tail ∧ (e = 101 ∨ e = 69) := by
      rcases he with he | he
      · obtain ⟨tail, rfl⟩ := List.head?_eq_some_iff.mp he
        exact ⟨101, tail, rfl, Or.inl rfl⟩
      · obtain ⟨tail, rfl⟩ := List.head?_eq_some_iff.mp he
        exact ⟨69, tail, rfl, Or.inr rfl⟩
    obtain ⟨ds, hds, hrun⟩ := digits_sound h
    rw [List.drop_one, List.tail_cons] at hds
    split at hds
    · rename_i hsign
      rcases hsign with hsign | hsign
      · obtain ⟨tail, rfl⟩ := List.head?_eq_some_iff.mp hsign
        rw [List.drop_one, List.tail_cons] at hds
        exact ⟨e :: ([43] ++ ds), by simp [hds], .given hletter (Or.inr (Or.inl rfl)) hrun⟩
      · obtain ⟨tail, rfl⟩ := List.head?_eq_some_iff.mp hsign
        rw [List.drop_one, List.tail_cons] at hds
        exact ⟨e :: ([45] ++ ds), by simp [hds], .given hletter (Or.inr (Or.inr rfl)) hrun⟩
    · exact ⟨e :: ([] ++ ds), by simp [hds], .given hletter (Or.inl rfl) hrun⟩
  · cases h
    exact ⟨[], rfl, .absent⟩

theorem exponent_complete {e tail : Bytes} (h : Exponent e) (hdigit : Stops isDigit tail)
    (hletter : ¬ (tail.head? = some 101 ∨ tail.head? = some 69)) :
    consumeExponent (e ++ tail) = .ok tail := by
  unfold consumeExponent
  cases h with
  | absent => rw [List.nil_append, if_neg hletter]
  | @given e sign ds he hsign hrun =>
    have hhead : (e :: (sign ++ ds) ++ tail).head? = some 101 ∨
        (e :: (sign ++ ds) ++ tail).head? = some 69 := by
      rcases he with rfl | rfl
      · exact Or.inl rfl
      · exact Or.inr rfl
    rw [if_pos hhead]
    dsimp only
    rw [List.cons_append, List.drop_one, List.tail_cons, List.append_assoc]
    rcases hsign with rfl | rfl | rfl
    · have hsigned : ¬ (([] ++ (ds ++ tail)).head? = some 43 ∨
          ([] ++ (ds ++ tail)).head? = some 45) := by
        obtain ⟨d, more, rfl⟩ := List.exists_cons_of_ne_nil hrun.1
        have hd : isDigit d = true := hrun.2 d List.mem_cons_self
        rintro (hd' | hd')
        · cases hd'
          exact absurd hd (by decide)
        · cases hd'
          exact absurd hd (by decide)
      rw [if_neg hsigned]
      exact digits_complete hrun hdigit _
    · rw [List.singleton_append, List.head?_cons, if_pos (Or.inl rfl)]
      exact digits_complete hrun hdigit _
    · rw [List.singleton_append, List.head?_cons, if_pos (Or.inr rfl)]
      exact digits_complete hrun hdigit _

/-- What may stand behind a value: white space, a comma or the closing brace. -/
def endsValue (c : UInt8) : Bool := isJsonSpace c || c = 44 || c = 125

def Closed (tail : Bytes) : Prop := ∃ c rest, tail = c :: rest ∧ endsValue c = true

theorem ends_other (c : UInt8) (h : endsValue c = true) :
    isDigit c = false ∧ c ≠ 46 ∧ c ≠ 101 ∧ c ≠ 69 := by
  simp only [endsValue, isJsonSpace, isDigit] at *
  grind

theorem number_sound {b rest : Bytes} (h : consumeNumber b = .ok rest) :
    ∃ n, b = n ++ rest ∧ Number n := by
  unfold consumeNumber at h
  obtain ⟨rest₁, hwhole, h⟩ := bind_eq_ok.mp h
  obtain ⟨rest₂, hfraction, h⟩ := bind_eq_ok.mp h
  obtain ⟨rest₃, hexponent, h⟩ := bind_eq_ok.mp h
  split at h
  · cases h
  cases h
  obtain ⟨whole, hcut, hrun⟩ := digits_sound hwhole
  obtain ⟨fraction, rfl, hf⟩ := fraction_sound hfraction
  obtain ⟨exponent, rfl, he⟩ := exponent_sound hexponent
  split at hcut
  · rename_i hminus
    obtain ⟨tail, rfl⟩ := List.head?_eq_some_iff.mp hminus
    rw [List.drop_one, List.tail_cons] at hcut
    exact ⟨[45] ++ (whole ++ (fraction ++ exponent)), by simp [hcut],
      .mk (Or.inr rfl) hrun hf he⟩
  · exact ⟨[] ++ (whole ++ (fraction ++ exponent)), by simp [hcut],
      .mk (Or.inl rfl) hrun hf he⟩

theorem number_complete {n tail : Bytes} (h : Number n) (htail : Closed tail) :
    consumeNumber (n ++ tail) = .ok tail := by
  obtain ⟨c, rest, rfl, hc⟩ := htail
  obtain ⟨hdigit, hdot, he, hE⟩ := ends_other c hc
  have hend : Stops isDigit (c :: rest) := stops_cons hdigit _
  cases h with
  | @mk sign whole fraction exponent hsign hrun hfraction hexponent =>
    -- neither an exponent nor what follows a number goes on with a digit or a dot
    have hafter : Stops isDigit (exponent ++ c :: rest) ∧
        (exponent ++ c :: rest).head? ≠ some 46 := by
      cases hexponent with
      | absent => exact ⟨hend, by simpa using hdot⟩
      | given hletter _ _ =>
        rcases hletter with rfl | rfl
        · exact ⟨stops_cons (by decide) _, by simp⟩
        · exact ⟨stops_cons (by decide) _, by simp⟩
    have hbehind : Stops isDigit (fraction ++ (exponent ++ c :: rest)) := by
      cases hfraction with
      | absent => exact hafter.1
      | given _ => exact stops_cons (by decide) _
    have hstart : (if (sign ++ (whole ++ (fraction ++ (exponent ++ c :: rest)))).head? = some 45
        then (sign ++ (whole ++ (fraction ++ (exponent ++ c :: rest)))).drop 1
        else sign ++ (whole ++ (fraction ++ (exponent ++ c :: rest)))) =
          whole ++ (fraction ++ (exponent ++ c :: rest)) := by
      rcases hsign with rfl | rfl
      · obtain ⟨d, more, rfl⟩ := List.exists_cons_of_ne_nil hrun.1
        have hd : isDigit d = true := hrun.2 d List.mem_cons_self
        rw [if_neg]
        · rfl
        · intro hminus
          cases hminus
          exact absurd hd (by decide)
      · rfl
    have hlonger : (c :: rest).length ≠
        (sign ++ (whole ++ (fraction ++ (exponent ++ c :: rest)))).length := by
      have hpos := List.length_pos_iff.mpr hrun.1
      simp only [List.length_append]
      omega
    simp only [List.append_assoc]
    unfold consumeNumber
    rw [hstart, bind_eq_ok]
    refine ⟨_, digits_complete hrun hbehind _, bind_eq_ok.mpr
      ⟨_, fraction_complete hfraction hafter.1 hafter.2, bind_eq_ok.mpr
        ⟨_, exponent_complete hexponent hend (by simp [he, hE]), ?_⟩⟩⟩
    rw [if_neg hlonger]

theorem word_sound {word b : Bytes} (h : word <+: b) {n : ℕ} (hn : word.length = n) :
    b = word ++ b.drop n := by
  obtain ⟨rest, rfl⟩ := h
  rw [← hn, List.drop_left]

theorem value_sound {b rest : Bytes} (h : consumeJsonValue b = .ok rest) :
    ∃ v value, b = v ++ rest ∧ Value v value := by
  unfold consumeJsonValue at h
  split at h
  · obtain ⟨⟨text, rest'⟩, hstring, hok⟩ := bind_eq_ok.mp h
    cases hok
    obtain ⟨q, hcut, hquoted⟩ := string_sound hstring
    exact ⟨q, some text, hcut, .string hquoted⟩
  split at h
  · cases h
  split at h
  · rename_i hword
    cases h
    exact ⟨_, none, word_sound hword rfl, .word (Or.inl rfl)⟩
  split at h
  · rename_i hword
    cases h
    exact ⟨_, none, word_sound hword rfl, .word (Or.inr (Or.inl rfl))⟩
  split at h
  · rename_i hword
    cases h
    exact ⟨_, none, word_sound hword rfl, .word (Or.inr (Or.inr rfl))⟩
  · obtain ⟨n, hcut, hnumber⟩ := number_sound h
    exact ⟨n, none, hcut, .number hnumber⟩

theorem number_start {n : Bytes} (h : Number n) :
    ∃ c rest, n = c :: rest ∧ (c = 45 ∨ isDigit c = true) := by
  cases h with
  | @mk sign whole fraction exponent hsign hrun _ _ =>
    rcases hsign with rfl | rfl
    · obtain ⟨d, more, rfl⟩ := List.exists_cons_of_ne_nil hrun.1
      exact ⟨d, _, rfl, Or.inr (hrun.2 d List.mem_cons_self)⟩
    · exact ⟨45, _, rfl, Or.inl rfl⟩

theorem value_complete {v tail : Bytes} {value : Option CString} (h : Value v value)
    (htail : Closed tail) : consumeJsonValue (v ++ tail) = .ok tail := by
  unfold consumeJsonValue
  cases h with
  | string hquoted =>
    rw [if_pos (quoted_start hquoted tail), string_complete hquoted tail]
    rfl
  | word hword =>
    rcases hword with rfl | rfl | rfl
    · rw [if_neg (by simp [ascii]), if_neg (by simp [ascii]), if_pos (List.prefix_append _ _)]
      rfl
    · rw [if_neg (by simp [ascii]), if_neg (by simp [ascii]), if_neg (by simp [ascii]),
        if_pos (List.prefix_append _ _)]
      rfl
    · rw [if_neg (by simp [ascii]), if_neg (by simp [ascii]), if_neg (by simp [ascii]),
        if_neg (by simp [ascii]), if_pos (List.prefix_append _ _)]
      rfl
  | number hnumber =>
    have hother (c : UInt8) (hc : c = 45 ∨ isDigit c = true) :
        c ≠ 34 ∧ c ≠ 123 ∧ c ≠ 91 ∧ c ≠ 116 ∧ c ≠ 102 ∧ c ≠ 110 := by
      simp only [isDigit] at *
      grind
    have hnum := number_complete hnumber htail
    obtain ⟨c, rest, rfl, hc⟩ := number_start hnumber
    obtain ⟨h1, h2, h3, h4, h5, h6⟩ := hother c hc
    rw [if_neg (by simpa using h1), if_neg (by simp [h2, h3]),
      if_neg (by simp [ascii, List.cons_prefix_cons, h4.symm]),
      if_neg (by simp [ascii, List.cons_prefix_cons, h5.symm]),
      if_neg (by simp [ascii, List.cons_prefix_cons, h6.symm]), hnum]

def fieldValue (fieldName : CString) (m : Member) : Option CString :=
  if m.key = fieldName then m.value else none

theorem firstValue_cons {fieldName : CString} {m : Member} (ms : List Member)
    (hm : m.key = fieldName → m.value ≠ none) :
    firstValue fieldName (m :: ms) = (fieldValue fieldName m).or (firstValue fieldName ms) := by
  unfold firstValue fieldValue
  by_cases hkey : m.key = fieldName
  · rw [List.find?_cons_of_pos (by simpa using hkey), if_pos hkey]
    cases hvalue : m.value with
    | none => exact absurd hvalue (hm hkey)
    | some value => simp [hvalue]
  · rw [List.find?_cons_of_neg (by simpa using hkey), if_neg hkey]
    rfl

theorem memberValue_sound {fieldName key : CString} {b rest : Bytes} {found found' : Option CString}
    (h : parseMemberValue fieldName key b found = .ok (found', rest)) :
    ∃ v value, b = v ++ rest ∧ Value v value ∧ (key = fieldName → value ≠ none) ∧
      found' = found.or (fieldValue fieldName ⟨key, value⟩) := by
  unfold parseMemberValue at h
  split at h
  · rename_i hkey
    split at h
    · obtain ⟨_, -, hmissing⟩ := bind_eq_ok.mp h
      cases hmissing
    · obtain ⟨⟨value, rest'⟩, hstring, hok⟩ := bind_eq_ok.mp h
      cases hok
      obtain ⟨q, hcut, hquoted⟩ := string_sound hstring
      refine ⟨q, some value, hcut, .string hquoted, fun _ => by simp, ?_⟩
      rw [fieldValue, if_pos hkey]
  · rename_i hkey
    obtain ⟨rest', hvalue, hok⟩ := bind_eq_ok.mp h
    cases hok
    obtain ⟨v, value, hcut, hv⟩ := value_sound hvalue
    refine ⟨v, value, hcut, hv, fun hkey' => absurd hkey' hkey, ?_⟩
    rw [fieldValue, if_neg hkey, Option.or_none]

theorem memberValue_complete {fieldName key : CString} {v tail : Bytes} {value : Option CString}
    (hv : Value v value) (hvalue : key = fieldName → value ≠ none) (htail : Closed tail)
    (found : Option CString) : parseMemberValue fieldName key (v ++ tail) found =
      .ok (found.or (fieldValue fieldName ⟨key, value⟩), tail) := by
  unfold parseMemberValue fieldValue
  by_cases hkey : key = fieldName
  · rw [if_pos hkey, if_pos hkey]
    cases hv with
    | string hquoted =>
      rw [if_neg (not_not.mpr (quoted_start hquoted tail)), string_complete hquoted tail]
      rfl
    | word _ => exact absurd rfl (hvalue hkey)
    | number _ => exact absurd rfl (hvalue hkey)
  · rw [if_neg hkey, if_neg hkey, value_complete hv htail, Option.or_none]
    rfl

theorem member_sound {fieldName : CString} {b rest : Bytes} {found found' : Option CString}
    (h : parseMember fieldName b found = .ok (found', rest)) :
    ∃ t m, b = t ++ rest ∧ MemberText t m ∧ (m.key = fieldName → m.value ≠ none) ∧
      found' = found.or (fieldValue fieldName m) := by
  unfold parseMember at h
  dsimp only at h
  split at h
  · cases h
  obtain ⟨⟨key, rest₁⟩, hkey, h⟩ := bind_eq_ok.mp h
  dsimp only at h
  split at h
  · cases h
  rename_i hcolon
  obtain ⟨rest₂, hrest₂⟩ := List.head?_eq_some_iff.mp (not_not.mp hcolon)
  rw [hrest₂, List.drop_one, List.tail_cons] at h
  obtain ⟨before, hbefore, hwhite⟩ := skip_cut b
  obtain ⟨k, hk, hquoted⟩ := string_sound hkey
  obtain ⟨afterKey, hafter, hwhite'⟩ := skip_cut rest₁
  obtain ⟨beforeValue, hspace, hwhite''⟩ := skip_cut rest₂
  obtain ⟨v, value, hv, hvalue, hstring, hfound⟩ := memberValue_sound h
  refine ⟨_, ⟨key, value⟩, ?_, .mk hwhite hquoted hwhite' hwhite'' hvalue, hstring, hfound⟩
  rw [hbefore, hk, hafter, hrest₂, hspace, hv]
  simp

theorem quoted_stops {q : Bytes} {text : CString} (h : Quoted q text) (tail : Bytes) :
    Stops isJsonSpace (q ++ tail) := by
  obtain ⟨-⟩ := h
  exact stops_cons (by decide) _

theorem value_stops {v : Bytes} {value : Option CString} (h : Value v value) (tail : Bytes) :
    Stops isJsonSpace (v ++ tail) := by
  have hother (c : UInt8) (hc : c = 45 ∨ isDigit c = true) : isJsonSpace c = false := by
    simp only [isDigit, isJsonSpace] at *
    grind
  cases h with
  | string hquoted => exact quoted_stops hquoted tail
  | word hword =>
    rcases hword with rfl | rfl | rfl
    · exact stops_cons (by decide) _
    · exact stops_cons (by decide) _
    · exact stops_cons (by decide) _
  | number hnumber =>
    obtain ⟨c, rest, rfl, hc⟩ := number_start hnumber
    exact stops_cons (hother c hc) _

theorem member_complete {fieldName : CString} {t tail : Bytes} {m : Member} (h : MemberText t m)
    (hm : m.key = fieldName → m.value ≠ none) (htail : Closed tail) (found : Option CString) :
    parseMember fieldName (t ++ tail) found =
      .ok (found.or (fieldValue fieldName m), tail) := by
  cases h with
  | @mk before k afterKey beforeValue v key value hwhite hquoted hwhite' hwhite'' hvalue =>
    have hcolon : Stops isJsonSpace (58 :: (beforeValue ++ (v ++ tail))) := stops_cons (by decide) _
    simp only [List.append_assoc, List.cons_append]
    unfold parseMember
    dsimp only
    rw [skip_white hwhite (quoted_stops hquoted _), if_neg (not_not.mpr (quoted_start hquoted _)),
      bind_eq_ok]
    refine ⟨_, string_complete hquoted _, ?_⟩
    dsimp only
    rw [skip_white hwhite' hcolon, List.head?_cons, if_neg (by simp), List.drop_one, List.tail_cons,
      skip_white hwhite'' (value_stops hvalue _)]
    exact memberValue_complete hvalue hm htail found

theorem member_nonempty {t : Bytes} {m : Member} (h : MemberText t m) : 0 < t.length := by
  cases h with
  | mk _ _ _ _ _ =>
    simp only [List.length_append, List.length_cons]
    omega

section Loop

variable {fieldName : CString}

theorem loop_sound {rounds : ℕ} {b rest : Bytes} {found found' : Option CString}
    (h : memberLoop fieldName rounds b found = .ok (.ok (found', rest))) :
    ∃ t ms, b = t ++ 125 :: rest ∧ Members t ms ∧ Strings fieldName ms ∧
      found' = found.or (firstValue fieldName ms) := by
  induction rounds generalizing b found with
  | zero => cases h
  | succ rounds ih =>
    rw [memberLoop] at h
    cases hmember : parseMember fieldName b found with
    | error e =>
      rw [hmember] at h
      cases h
    | ok r =>
      obtain ⟨found₁, rest₁⟩ := r
      rw [hmember] at h
      dsimp only at h
      obtain ⟨t, m, rfl, ht, hm, rfl⟩ := member_sound hmember
      obtain ⟨after, hafter, hwhite⟩ := skip_cut rest₁
      split at h
      · rename_i hcomma
        obtain ⟨rest₂, hrest₂⟩ := List.head?_eq_some_iff.mp hcomma
        rw [hrest₂, List.drop_one, List.tail_cons] at h
        obtain ⟨t', ms, rfl, hms, hstrings, rfl⟩ := ih h
        refine ⟨t ++ (after ++ 44 :: t'), m :: ms, ?_, .cons ht hwhite hms, ?_, ?_⟩
        · rw [hafter, hrest₂]
          simp
        · intro m' hm'
          rcases List.mem_cons.mp hm' with rfl | hm'
          · exact hm
          · exact hstrings m' hm'
        · rw [firstValue_cons ms hm, Option.or_assoc]
      split at h
      · rename_i hbrace
        obtain ⟨rest₂, hrest₂⟩ := List.head?_eq_some_iff.mp hbrace
        rw [hrest₂, List.drop_one, List.tail_cons] at h
        cases h
        refine ⟨t ++ after, [m], ?_, .last ht hwhite, ?_, ?_⟩
        · rw [hafter, hrest₂]
          simp
        · intro m' hm'
          rw [List.mem_singleton] at hm'
          exact hm' ▸ hm
        · rw [firstValue_cons [] hm]
          simp [firstValue]
      · cases h

theorem white_closed {w : Bytes} (hw : White w) {c : UInt8} (hc : c = 44 ∨ c = 125) (rest : Bytes) :
    Closed (w ++ c :: rest) := by
  cases w with
  | nil => exact ⟨c, rest, rfl, by rcases hc with rfl | rfl <;> decide⟩
  | cons d w =>
    have hd : isJsonSpace d = true := hw d List.mem_cons_self
    exact ⟨d, w ++ c :: rest, rfl, by simp [endsValue, hd]⟩

theorem loop_complete {t : Bytes} {ms : List Member} (h : Members t ms)
    (hstrings : Strings fieldName ms) {rounds : ℕ} (hrounds : ms.length ≤ rounds) (rest : Bytes)
    (found : Option CString) : memberLoop fieldName rounds (t ++ 125 :: rest) found =
      .ok (.ok (found.or (firstValue fieldName ms), rest)) := by
  induction h generalizing rounds found with
  | @last b after m hb hafter =>
    obtain ⟨rounds, rfl⟩ : ∃ r, rounds = r + 1 := ⟨rounds - 1, by simp at hrounds; omega⟩
    have hm := hstrings m List.mem_cons_self
    rw [List.append_assoc, memberLoop,
      member_complete hb hm (white_closed hafter (Or.inr rfl) rest)]
    dsimp only
    rw [skip_white hafter (stops_cons (by decide) _), List.head?_cons, if_neg (by simp),
      if_pos rfl, firstValue_cons [] hm]
    simp [firstValue]
  | @cons b after tail m ms hb hafter _ ih =>
    obtain ⟨rounds, rfl⟩ : ∃ r, rounds = r + 1 := ⟨rounds - 1, by simp at hrounds; omega⟩
    have hm := hstrings m List.mem_cons_self
    rw [List.append_assoc, List.append_assoc, List.cons_append, memberLoop,
      member_complete hb hm (white_closed hafter (Or.inl rfl) _)]
    dsimp only
    rw [skip_white hafter (stops_cons (by decide) _), List.head?_cons, if_pos rfl, List.drop_one,
      List.tail_cons, ih (fun m' hm' => hstrings m' (List.mem_cons_of_mem _ hm'))
        (by simpa using hrounds), firstValue_cons ms hm, Option.or_assoc]

theorem loop_total {rounds : ℕ} {b : Bytes} (hrounds : b.length < rounds)
    (found : Option CString) : ∃ r, memberLoop fieldName rounds b found = .ok r := by
  induction rounds generalizing b found with
  | zero => omega
  | succ rounds ih =>
    rw [memberLoop]
    cases hmember : parseMember fieldName b found with
    | error e => exact ⟨_, rfl⟩
    | ok r =>
      obtain ⟨found₁, rest₁⟩ := r
      dsimp only
      split
      · obtain ⟨t, m, rfl, ht, -, -⟩ := member_sound hmember
        have hpos := member_nonempty ht
        obtain ⟨w, hw, -⟩ := skip_cut rest₁
        have hlen := congrArg List.length hw
        rw [List.length_append] at hlen hrounds
        exact ih (by rw [List.length_drop]; omega) _
      split
      · exact ⟨_, rfl⟩
      · exact ⟨_, rfl⟩

end Loop

theorem members_length {t : Bytes} {ms : List Member} (h : Members t ms) :
    ms.length ≤ t.length := by
  induction h with
  | last hb _ =>
    have hpos := member_nonempty hb
    rw [List.length_append, List.length_singleton]
    omega
  | cons hb _ _ ih =>
    have hpos := member_nonempty hb
    simp only [List.length_append, List.length_cons]
    omega

theorem members_start {t : Bytes} {ms : List Member} (h : Members t ms) :
    ∃ w t', t = w ++ t' ∧ White w ∧ Members t' ms ∧ t'.head? = some 34 := by
  have hstrip {b : Bytes} {m : Member} (hb : MemberText b m) :
      ∃ w b', b = w ++ b' ∧ White w ∧ MemberText b' m ∧ ∀ tail, (b' ++ tail).head? = some 34 := by
    cases hb with
    | @mk before k afterKey beforeValue v key value hwhite hquoted hwhite' hwhite'' hvalue =>
      refine ⟨before, [] ++ (k ++ (afterKey ++ 58 :: (beforeValue ++ v))), rfl, hwhite,
        .mk (by simp [White]) hquoted hwhite' hwhite'' hvalue, fun tail => ?_⟩
      rw [List.nil_append, List.append_assoc]
      exact quoted_start hquoted _
  cases h with
  | last hb hafter =>
    obtain ⟨w, b', rfl, hw, hb', hhead⟩ := hstrip hb
    exact ⟨w, _, List.append_assoc _ _ _, hw, .last hb' hafter, hhead _⟩
  | cons hb hafter hrest =>
    obtain ⟨w, b', rfl, hw, hb', hhead⟩ := hstrip hb
    exact ⟨w, _, List.append_assoc _ _ _, hw, .cons hb' hafter hrest, hhead _⟩

theorem quote_stops {b : Bytes} (h : b.head? = some 34) (tail : Bytes) :
    Stops isJsonSpace (b ++ tail) := by
  obtain ⟨rest, rfl⟩ := List.head?_eq_some_iff.mp h
  exact stops_cons (by decide) _

theorem loop_skip (fieldName : CString) (rounds : ℕ) (b : Bytes) (found : Option CString) :
    memberLoop fieldName rounds (skipWhitespace b) found =
      memberLoop fieldName rounds b found := by
  cases rounds with
  | zero => rfl
  | succ rounds =>
    rw [memberLoop, memberLoop, parseMember, parseMember]
    dsimp only
    rw [skip_idem]

theorem extract_sound {json fieldName value : CString}
    (h : jsonExtractStringField json fieldName = .ok (.ok value)) :
    ∃ ms, Object json.bytes ms ∧ Strings fieldName ms ∧ firstValue fieldName ms = some value := by
  unfold jsonExtractStringField at h
  dsimp only at h
  split at h
  · cases h
  rename_i hbrace
  split at h
  · cases h
  obtain ⟨before, hbefore, hwhite⟩ := skip_cut json.bytes
  obtain ⟨rest, hrest⟩ := List.head?_eq_some_iff.mp (not_not.mp hbrace)
  rw [hrest, List.drop_one, List.tail_cons, loop_skip] at h
  obtain ⟨r, hloop, h⟩ := bind_eq_ok.mp h
  cases r with
  | error e => cases h
  | ok r =>
    obtain ⟨found, tail⟩ := r
    obtain ⟨body, ms, rfl, hms, hstrings, rfl⟩ := loop_sound hloop
    obtain ⟨after, hafter, hwhite'⟩ := skip_cut tail
    dsimp only at h
    split at h
    · cases h
    rename_i hend
    rw [not_not.mp hend, List.append_nil] at hafter
    refine ⟨ms, ?_, hstrings, ?_⟩
    · rw [hbefore, hrest, hafter]
      exact .mk hwhite hms hwhite'
    · rw [Option.none_or] at h
      cases hvalue : firstValue fieldName ms with
      | none =>
        rw [hvalue] at h
        cases h
      | some v =>
        rw [hvalue] at h
        cases h
        rfl

theorem extract_complete {json fieldName value : CString} {ms : List Member}
    (h : Object json.bytes ms) (hstrings : Strings fieldName ms)
    (hvalue : firstValue fieldName ms = some value) :
    jsonExtractStringField json fieldName = .ok (.ok value) := by
  unfold jsonExtractStringField
  generalize json.bytes = text at h
  cases h with
  | @mk before body after ms hbefore hbody hafter =>
    obtain ⟨w, body', rfl, hw, hbody', hhead⟩ := members_start hbody
    have hrounds : ms.length ≤ (body' ++ 125 :: after).length + 1 := by
      have hlen := members_length hbody'
      rw [List.length_append]
      omega
    have hquote : (body' ++ 125 :: after).head? ≠ some 125 := by
      obtain ⟨rest, rfl⟩ := List.head?_eq_some_iff.mp hhead
      simp
    have hend : skipWhitespace after = [] := by
      have hskip := skip_white hafter stops_nil
      rwa [List.append_nil] at hskip
    dsimp only
    rw [skip_white hbefore (stops_cons (by decide) _), List.head?_cons, if_neg (by simp),
      List.drop_one, List.tail_cons, List.append_assoc, skip_white hw (quote_stops hhead _),
      if_neg hquote, loop_complete hbody' hstrings hrounds after none, ok_bind]
    dsimp only
    rw [if_neg (not_not.mpr hend), Option.none_or, hvalue]

theorem extract_total (json fieldName : CString) :
    ∃ r, jsonExtractStringField json fieldName = .ok r := by
  unfold jsonExtractStringField
  dsimp only
  split
  · exact ⟨_, rfl⟩
  split
  · exact ⟨_, rfl⟩
  obtain ⟨r, hloop⟩ := @loop_total fieldName _ _ (Nat.lt_succ_self
    (skipWhitespace ((skipWhitespace json.bytes).drop 1)).length) none
  rw [hloop, ok_bind]
  cases r with
  | error e => exact ⟨_, rfl⟩
  | ok r =>
    dsimp only
    split
    · exact ⟨_, rfl⟩
    split
    · exact ⟨_, rfl⟩
    · exact ⟨_, rfl⟩

/-- `json_extract_string_field` returns for every text, and it returns a value exactly if the text
is an object of this format in which every member under the field's name is a string, the first
of them with this value. -/
theorem extracts_exactly_the_format (json fieldName : CString) :
    (∃ r, jsonExtractStringField json fieldName = .ok r) ∧
    ∀ value, jsonExtractStringField json fieldName = .ok (.ok value) ↔
      ∃ ms, Object json.bytes ms ∧ (∀ m ∈ ms, m.key = fieldName → m.value ≠ none) ∧
        ∃ m, ms.find? (fun m => m.key = fieldName) = some m ∧ m.value = some value := by
  refine ⟨extract_total json fieldName, fun value => ⟨fun h => ?_, ?_⟩⟩
  · obtain ⟨ms, hobject, hstrings, hfirst⟩ := extract_sound h
    exact ⟨ms, hobject, hstrings, Option.bind_eq_some_iff.mp hfirst⟩
  · rintro ⟨ms, hobject, hstrings, hfirst⟩
    exact extract_complete hobject hstrings (Option.bind_eq_some_iff.mpr hfirst)

end JsonGrammar
