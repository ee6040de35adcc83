import ThreadedDb.ParserBounds
import ThreadedDb.Scanning

/-!
# Lexing undoes rendering

How each token is spelled, and the lexer against it: white space apart, a text that lexes is the
spelling of its tokens, and tokens spelled with white space between them lex to themselves.
-/
namespace LexerRoundTrip

open ByteText
open SqlFrontEnd
open ParserBounds
open Scanning

def White (b : Bytes) : Prop := ∀ c ∈ b, isSpace c = true

def Digits (b : Bytes) : Prop := ∀ c ∈ b, isDigit c = true

def Word (b : Bytes) : Prop :=
  ∃ first rest, b = first :: rest ∧ (isAlpha first = true ∨ first = 95) ∧
    ∀ c ∈ rest, isWordByte c = true

def Number (b : Bytes) : Prop :=
  ∃ sign whole fraction, b = sign ++ whole ++ fraction ∧ (sign = [] ∨ sign = [45]) ∧
    whole ≠ [] ∧ Digits whole ∧
      (fraction = [] ∨ ∃ ds, fraction = 46 :: ds ∧ ds ≠ [] ∧ Digits ds)

def keywords : List (TokenType × Bytes) :=
  [(.insert, ascii "INSERT"), (.into, ascii "INTO"), (.values, ascii "VALUES"),
    (.select, ascii "SELECT"), (.from, ascii "FROM"), (.where, ascii "WHERE")]

def symbols : List (TokenType × UInt8) :=
  [(.comma, 44), (.lparen, 40), (.rparen, 41), (.semicolon, 59), (.star, 42), (.equal, 61)]

def doubled (b : Bytes) : Bytes := b.flatMap (fun c => if c = 39 then [39, 39] else [c])

inductive Lexeme : Token → Bytes → Prop
  | identifier {text : CString} : Word text.bytes →
      (∀ k ∈ keywords, text.bytes.map toUpper ≠ k.2) → Lexeme ⟨.identifier, text⟩ text.bytes
  | keyword {type : TokenType} {word : Bytes} {text : CString} : (type, word) ∈ keywords →
      text.bytes.map toUpper = word → Lexeme ⟨type, text⟩ text.bytes
  | number {text : CString} : Number text.bytes → Lexeme ⟨.number, text⟩ text.bytes
  | string {text : CString} : Lexeme ⟨.string, text⟩ (39 :: doubled text.bytes ++ [39])
  | symbol {type : TokenType} {ch : UInt8} : (type, ch) ∈ symbols →
      Lexeme ⟨type, .ofBuffer [ch]⟩ [ch]

/-- Tokens one after another, from the first one on, with such gaps between them. -/
inductive Spelled (Gap : Bytes → Prop) : List Token → Bytes → Prop
  | none : Spelled Gap [] []
  | last {t : Token} {lex after : Bytes} : Lexeme t lex → White after →
      Spelled Gap [t] (lex ++ after)
  | cons {t u : Token} {ts : List Token} {lex gap rest : Bytes} : Lexeme t lex → Gap gap →
      Spelled Gap (u :: ts) rest → Spelled Gap (t :: u :: ts) (lex ++ (gap ++ rest))

def Apart (b : Bytes) : Prop := White b ∧ b ≠ []

def eofToken : Token := ⟨.eof, .empty⟩

theorem word_not_nul (c : UInt8) (h : isWordByte c = true) : c ≠ 0 := by
  rintro rfl
  exact absurd h (by decide)

theorem digit_is_word (c : UInt8) (h : isDigit c = true) : isWordByte c = true := by
  simp [isWordByte, isAlnum, h]

theorem alpha_is_word (c : UInt8) (h : isAlpha c = true ∨ c = 95) : isWordByte c = true := by
  rcases h with h | rfl
  · simp [isWordByte, isAlnum, h]
  · decide

theorem space_not_word (c : UInt8) (h : isSpace c = true) :
    isWordByte c = false ∧ c ≠ 46 ∧ c ≠ 39 := by
  simp only [isSpace, isWordByte, isAlnum, isAlpha, isDigit] at *
  grind

theorem space_not_digit {c : UInt8} (h : isSpace c = true) : isDigit c = false := by
  by_contra hdigit
  have hword := digit_is_word c (by simpa using hdigit)
  rw [(space_not_word c h).1] at hword
  cases hword

theorem alpha_of_upper (c : UInt8) (h : isAlpha (toUpper c) = true) : isAlpha c = true := by
  simp only [isAlpha, toUpper] at *
  grind

theorem numberBytes_digit_ok {c : UInt8} (hc : isDigit c = true) {b text rest : Bytes}
    {seenDot : Bool} (h : numberBytes b seenDot = .ok (text, rest)) :
    numberBytes (c :: b) seenDot = .ok (c :: text, rest) := by
  rw [numberBytes.eq_def]
  dsimp only
  rw [if_pos hc, h]

theorem numberBytes_digit_error {c : UInt8} (hc : isDigit c = true) {b : Bytes}
    {seenDot : Bool} {message : CString} (h : numberBytes b seenDot = .error message) :
    numberBytes (c :: b) seenDot = .error message := by
  rw [numberBytes.eq_def]
  dsimp only
  rw [if_pos hc, h]

theorem numberBytes_end {c : UInt8} (hc : isDigit c = false) {b : Bytes} {seenDot : Bool}
    (hdot : seenDot = false → c ≠ 46) : numberBytes (c :: b) seenDot = .ok ([], c :: b) := by
  rw [numberBytes.eq_def]
  dsimp only
  rw [if_neg (by simp [hc]), if_neg (fun h => hdot h.1 h.2)]

theorem numberBytes_seen (b : Bytes) :
    numberBytes b true = .ok (b.takeWhile isDigit, b.dropWhile isDigit) := by
  induction b with
  | nil => rfl
  | cons c b ih =>
    by_cases hc : isDigit c = true
    · rw [numberBytes_digit_ok hc ih, List.takeWhile_cons_of_pos hc, List.dropWhile_cons_of_pos hc]
    · rw [numberBytes_end (by simpa using hc) (by simp), List.takeWhile_cons_of_neg hc,
        List.dropWhile_cons_of_neg hc]

theorem numberBytes_whole {b : Bytes} (h : (b.dropWhile isDigit).head? ≠ some 46) :
    numberBytes b false = .ok (b.takeWhile isDigit, b.dropWhile isDigit) := by
  induction b with
  | nil => rfl
  | cons c b ih =>
    by_cases hc : isDigit c = true
    · rw [List.dropWhile_cons_of_pos hc] at h
      rw [numberBytes_digit_ok hc (ih h), List.takeWhile_cons_of_pos hc,
        List.dropWhile_cons_of_pos hc]
    · rw [List.dropWhile_cons_of_neg hc] at h
      have hdot : c ≠ 46 := by simpa using h
      rw [numberBytes_end (by simpa using hc) (fun _ => hdot), List.takeWhile_cons_of_neg hc,
        List.dropWhile_cons_of_neg hc]

theorem numberBytes_fraction {b rest : Bytes} {d : UInt8} (hd : isDigit d = true)
    (h : b.dropWhile isDigit = 46 :: d :: rest) : numberBytes b false =
      .ok (b.takeWhile isDigit ++ 46 :: (d :: rest).takeWhile isDigit,
        (d :: rest).dropWhile isDigit) := by
  induction b with
  | nil => cases h
  | cons c b ih =>
    by_cases hc : isDigit c = true
    · rw [List.dropWhile_cons_of_pos hc] at h
      rw [numberBytes_digit_ok hc (ih h), List.takeWhile_cons_of_pos hc, List.cons_append]
    · rw [List.dropWhile_cons_of_neg hc] at h
      cases h
      rw [numberBytes.eq_def]
      dsimp only
      rw [if_neg (by decide), if_pos ⟨rfl, rfl⟩, if_pos hd, numberBytes_seen,
        List.takeWhile_cons_of_neg hc, List.nil_append]

theorem numberBytes_dangling {b rest : Bytes} (hd : Stops isDigit rest)
    (h : b.dropWhile isDigit = 46 :: rest) : numberBytes b false =
      .error (setError (.lit "LEX ERROR: invalid number literal")) := by
  induction b with
  | nil => cases h
  | cons c b ih =>
    by_cases hc : isDigit c = true
    · rw [List.dropWhile_cons_of_pos hc] at h
      exact numberBytes_digit_error hc (ih h)
    · rw [List.dropWhile_cons_of_neg hc] at h
      cases h
      rw [numberBytes.eq_def]
      dsimp only
      rw [if_neg (by decide), if_pos ⟨rfl, rfl⟩]
      cases rest with
      | nil => rfl
      | cons d rest => simp [hd d rfl]

theorem numberBytes_sound {b text rest : Bytes} (h : numberBytes b false = .ok (text, rest)) :
    b = text ++ rest ∧ ∃ whole fraction, text = whole ++ fraction ∧
      whole = b.takeWhile isDigit ∧
      (fraction = [] ∨ ∃ ds, fraction = 46 :: ds ∧ ds ≠ [] ∧ Digits ds) := by
  have hcut := List.takeWhile_append_dropWhile (p := isDigit) (l := b)
  by_cases hdot : (b.dropWhile isDigit).head? = some 46
  · obtain ⟨rest', hrest⟩ : ∃ rest', b.dropWhile isDigit = 46 :: rest' :=
      List.head?_eq_some_iff.mp hdot
    cases rest' with
    | nil =>
      rw [numberBytes_dangling stops_nil hrest] at h
      cases h
    | cons d rest' =>
      by_cases hd : isDigit d = true
      · rw [numberBytes_fraction hd hrest] at h
        cases h
        have hcut' := List.takeWhile_append_dropWhile (p := isDigit) (l := d :: rest')
        refine ⟨?_, _, _, rfl, rfl, Or.inr ⟨_, rfl, ?_, ?_⟩⟩
        · rw [List.append_assoc, List.cons_append, hcut', ← hrest, hcut]
        · rw [List.takeWhile_cons_of_pos hd]
          simp
        · intro c hc
          exact List.mem_takeWhile_imp hc
      · rw [numberBytes_dangling (stops_cons (by simpa using hd) _) hrest] at h
        cases h
  · rw [numberBytes_whole hdot] at h
    cases h
    exact ⟨hcut.symm, _, [], (List.append_nil _).symm, rfl, Or.inl rfl⟩

theorem stringBytes_sound {b text rest : Bytes} (h : stringBytes b = .ok (text, rest)) :
    b = doubled text ++ 39 :: rest := by
  fun_induction stringBytes b generalizing text rest with
  | case1 => cases h
  | case2 =>
    cases h
    rfl
  | case3 => cases h
  | case4 tail text' rest' hrec ih =>
    cases h
    rw [ih hrec]
    rfl
  | case5 c tail hc =>
    cases h
    rfl
  | case6 => cases h
  | case7 c tail hc text' rest' hrec ih =>
    cases h
    rw [ih hrec]
    simp [doubled, hc]

theorem stringBytes_complete (text : Bytes) {rest : Bytes} (hrest : rest.head? ≠ some 39) :
    stringBytes (doubled text ++ 39 :: rest) = .ok (text, rest) := by
  induction text with
  | nil =>
    change stringBytes (39 :: rest) = _
    rw [stringBytes.eq_def]
    cases rest with
    | nil => rfl
    | cons c rest =>
      have hc : c ≠ 39 := by simpa using hrest
      simp [hc]
  | cons c text ih =>
    by_cases hc : c = 39
    · subst hc
      change stringBytes (39 :: 39 :: (doubled text ++ 39 :: rest)) = _
      rw [stringBytes.eq_def]
      simp [ih]
    · have hcons : doubled (c :: text) ++ 39 :: rest = c :: (doubled text ++ 39 :: rest) := by
        simp [doubled, hc]
      rw [hcons, stringBytes.eq_def]
      simp [hc, ih]

theorem keywordType_find (text : CString) : keywordType text =
    ((keywords.find? (fun k => k.2 = text.bytes.map toUpper)).map Prod.fst).getD .identifier := by
  have hequal (w : String) (hw : (CString.lit w).bytes.map toUpper = ascii w) :
      stringsEqualIgnoreCase text (.lit w) = decide (ascii w = text.bytes.map toUpper) := by
    rw [stringsEqualIgnoreCase, hw]
    exact decide_eq_decide.mpr eq_comm
  unfold keywordType keywords
  rw [hequal "INSERT" (by decide), hequal "INTO" (by decide), hequal "VALUES" (by decide),
    hequal "SELECT" (by decide), hequal "FROM" (by decide), hequal "WHERE" (by decide)]
  simp only [List.find?, decide_eq_true_eq]
  repeat' split
  all_goals simp_all

theorem keyword_words_distinct : ∀ k ∈ keywords, ∀ k' ∈ keywords, k.2 = k'.2 → k = k' := by
  decide

theorem keywordType_keyword {type : TokenType} {word : Bytes} {text : CString}
    (hmem : (type, word) ∈ keywords) (hword : text.bytes.map toUpper = word) :
    keywordType text = type := by
  rw [keywordType_find]
  cases hfind : keywords.find? (fun k => k.2 = text.bytes.map toUpper) with
  | none =>
    rw [List.find?_eq_none] at hfind
    exact absurd hword.symm (by simpa using hfind _ hmem)
  | some k =>
    have hk : k.2 = word := by simpa [hword] using List.find?_some hfind
    rw [keyword_words_distinct k (List.mem_of_find?_eq_some hfind) _ hmem hk]
    rfl

theorem word_lexeme {text : CString} (h : Word text.bytes) :
    Lexeme ⟨keywordType text, text⟩ text.bytes := by
  rw [keywordType_find]
  cases hfind : keywords.find? (fun k => k.2 = text.bytes.map toUpper) with
  | none =>
    rw [List.find?_eq_none] at hfind
    refine .identifier h (fun k hk heq => ?_)
    exact hfind k hk (by simp [heq])
  | some k =>
    have hk : k.2 = text.bytes.map toUpper := by simpa using List.find?_some hfind
    exact .keyword (List.mem_of_find?_eq_some hfind) hk.symm

theorem keywordType_identifier {text : CString}
    (h : ∀ k ∈ keywords, text.bytes.map toUpper ≠ k.2) : keywordType text = .identifier := by
  rw [keywordType_find, List.find?_eq_none.mpr]
  · rfl
  · intro k hk heq
    exact h k hk (by simpa using (of_decide_eq_true heq).symm)

theorem keyword_letters : ∀ k ∈ keywords, k.2 ≠ [] ∧ ∀ c ∈ k.2, isAlpha c = true := by
  have hall : ∀ k ∈ keywords, k.2 ≠ [] ∧ k.2.all isAlpha = true := by decide
  intro k hk
  obtain ⟨hne, hletters⟩ := hall k hk
  exact ⟨hne, List.all_eq_true.mp hletters⟩

theorem keyword_is_word {type : TokenType} {word : Bytes} {text : CString}
    (hmem : (type, word) ∈ keywords) (hword : text.bytes.map toUpper = word) :
    Word text.bytes := by
  obtain ⟨hne, hletters⟩ := keyword_letters _ hmem
  have hall (c : UInt8) (hc : c ∈ text.bytes) : isAlpha c = true := by
    apply alpha_of_upper
    apply hletters
    rw [← hword]
    exact List.mem_map_of_mem hc
  cases hbytes : text.bytes with
  | nil =>
    rw [hbytes] at hword
    exact absurd hword.symm hne
  | cons c rest =>
    rw [hbytes] at hall
    refine ⟨c, rest, rfl, Or.inl (hall c List.mem_cons_self), fun d hd => ?_⟩
    exact alpha_is_word d (Or.inl (hall d (List.mem_cons_of_mem _ hd)))

theorem word_bytes {b : Bytes} (h : Word b) : ∀ c ∈ b, isWordByte c = true := by
  obtain ⟨first, rest, rfl, hfirst, hrest⟩ := h
  intro c hc
  rcases List.mem_cons.mp hc with rfl | hc
  · exact alpha_is_word c hfirst
  · exact hrest c hc

theorem nulFree_append {a b : Bytes} (h : 0 ∉ a ++ b) : 0 ∉ a :=
  fun hmem => h (List.mem_append_left _ hmem)

theorem number_lexeme {sign b text tail : Bytes} (hsign : sign = [] ∨ sign = [45])
    (hb : (b.head?.map isDigit).getD false = true) (hnul : 0 ∉ sign ++ b)
    (h : numberBytes b false = .ok (text, tail)) : sign ++ b = (sign ++ text) ++ tail ∧
      Lexeme ⟨.number, .ofBuffer (sign ++ text)⟩ (sign ++ text) := by
  obtain ⟨rfl, whole, fraction, rfl, hwhole, hfraction⟩ := numberBytes_sound h
  have hassoc : sign ++ (whole ++ fraction ++ tail) = sign ++ (whole ++ fraction) ++ tail := by
    simp only [List.append_assoc]
  refine ⟨hassoc, ?_⟩
  rw [hassoc] at hnul
  have hbytes := ofBuffer_of_nulFree (nulFree_append hnul)
  have hnumber : Number (CString.ofBuffer (sign ++ (whole ++ fraction))).bytes := by
    rw [hbytes]
    refine ⟨sign, whole, fraction, by rw [List.append_assoc], hsign, ?_, ?_, hfraction⟩
    · rintro rfl
      -- the first byte is a digit, so it is taken
      cases hcons : [] ++ fraction ++ tail with
      | nil =>
        rw [hcons] at hb
        cases hb
      | cons c b =>
        rw [hcons] at hb hwhole
        have hc : isDigit c = true := by simpa using hb
        rw [List.takeWhile_cons_of_pos hc] at hwhole
        cases hwhole
    · intro c hc
      rw [hwhole] at hc
      exact List.mem_takeWhile_imp hc
  have hlex := Lexeme.number hnumber
  rwa [hbytes] at hlex

theorem number_sound {ch : UInt8} {rest tail : Bytes} {token : Token}
    (hch : (isDigit ch || (ch = 45 && (rest.head?.map isDigit).getD false)) = true)
    (hnul : 0 ∉ ch :: rest) (h : tokenizeNumber (ch :: rest) = .ok (token, tail)) :
    ∃ lex, ch :: rest = lex ++ tail ∧ Lexeme token lex := by
  unfold tokenizeNumber at h
  dsimp only at h
  split at h
  · cases h
  rename_i text tail' hnum
  cases h
  by_cases hsign : ch = 45
  · subst hsign
    have hminus : isDigit 45 = false := by decide
    have hdigit : (rest.head?.map isDigit).getD false = true := by simpa [hminus] using hch
    exact ⟨[45] ++ text, number_lexeme (Or.inr rfl) hdigit hnul hnum⟩
  · have hdigit : isDigit ch = true := by simpa [hsign] using hch
    have hnone : (if (ch :: rest).head? = some 45 then (ch :: rest).take 1 else []) = [] := by
      rw [List.head?_cons, if_neg (by simpa using hsign)]
    rw [hnone] at hnum ⊢
    exact ⟨[] ++ text, number_lexeme (Or.inl rfl) (by simpa using hdigit) hnul hnum⟩

theorem string_sound {rest tail : Bytes} {token : Token} (hnul : 0 ∉ rest)
    (h : tokenizeString (39 :: rest) = .ok (token, tail)) :
    ∃ lex, 39 :: rest = lex ++ tail ∧ Lexeme token lex := by
  unfold tokenizeString at h
  split at h
  · cases h
  rename_i text tail' hstr
  cases h
  have hrest : rest = doubled text ++ 39 :: tail := stringBytes_sound hstr
  have hbytes : (CString.ofBuffer text).bytes = text := by
    apply ofBuffer_of_nulFree
    intro hzero
    apply hnul
    rw [hrest]
    apply List.mem_append_left
    exact List.mem_flatMap.mpr ⟨0, hzero, by decide⟩
  refine ⟨39 :: doubled text ++ [39], ?_, ?_⟩
  · rw [hrest]
    simp
  · have hlex := @Lexeme.string (CString.ofBuffer text)
    rwa [hbytes] at hlex

theorem symbolType_iff {type : TokenType} {ch : UInt8} :
    symbolType ch = some type ↔ (type, ch) ∈ symbols := by
  unfold symbolType symbols
  constructor
  · intro h
    repeat' split at h
    all_goals cases h
    all_goals simp_all
  · intro h
    simp only [List.mem_cons, Prod.mk.injEq, List.not_mem_nil, or_false] at h
    rcases h with ⟨rfl, rfl⟩ | ⟨rfl, rfl⟩ | ⟨rfl, rfl⟩ | ⟨rfl, rfl⟩ | ⟨rfl, rfl⟩ | ⟨rfl, rfl⟩
    all_goals rfl

/-- A token that is read stands at the start of the text, spelled as it is. -/
theorem nextToken_sound {ch : UInt8} {rest tail : Bytes} {token : Token} (hnul : 0 ∉ ch :: rest)
    (h : nextToken ch rest = .ok (token, tail)) :
    ∃ lex, ch :: rest = lex ++ tail ∧ Lexeme token lex := by
  unfold nextToken at h
  split at h
  · rename_i hch
    have hfirst : isAlpha ch = true ∨ ch = 95 := by simpa using hch
    cases h
    have hcut := List.takeWhile_append_dropWhile (p := isWordByte) (l := ch :: rest)
    have hfree : 0 ∉ (ch :: rest).takeWhile isWordByte := by
      intro hzero
      exact word_not_nul 0 (List.mem_takeWhile_imp hzero) rfl
    have hbytes := ofBuffer_of_nulFree hfree
    refine ⟨_, hcut.symm, ?_⟩
    have hword : Word ((ch :: rest).takeWhile isWordByte) := by
      rw [List.takeWhile_cons_of_pos (alpha_is_word ch hfirst)]
      exact ⟨ch, _, rfl, hfirst, fun c hc => List.mem_takeWhile_imp hc⟩
    have hlex := word_lexeme (hbytes.symm ▸ hword)
    rwa [hbytes] at hlex
  split at h
  · rename_i hch
    exact number_sound hch hnul h
  split at h
  · rename_i hch
    subst hch
    exact string_sound (fun hzero => hnul (List.mem_cons_of_mem _ hzero)) h
  · unfold tokenizeSymbol at h
    split at h
    · cases h
    · rename_i type htype
      cases h
      exact ⟨[ch], rfl, .symbol (symbolType_iff.mp htype)⟩

def Parted (tail : Bytes) : Prop := ∀ c, tail.head? = some c → isSpace c = true

theorem Parted.stops_word {tail : Bytes} (h : Parted tail) : Stops isWordByte tail :=
  fun c hc => (space_not_word c (h c hc)).1

theorem Parted.stops_digit {tail : Bytes} (h : Parted tail) : Stops isDigit tail :=
  fun c hc => space_not_digit (h c hc)

theorem Parted.no_dot {tail : Bytes} (h : Parted tail) : tail.head? ≠ some 46 :=
  fun hc => (space_not_word 46 (h 46 hc)).2.1 rfl

theorem Parted.no_quote {tail : Bytes} (h : Parted tail) : tail.head? ≠ some 39 :=
  fun hc => (space_not_word 39 (h 39 hc)).2.2 rfl

theorem word_complete {text : CString} (h : Word text.bytes) {tail : Bytes}
    (htail : Stops isWordByte tail) {ch : UInt8} {rest : Bytes}
    (hcons : text.bytes ++ tail = ch :: rest) :
    nextToken ch rest = .ok (⟨keywordType text, text⟩, tail) := by
  have hbytes := word_bytes h
  obtain ⟨first, more, heq, hfirst, -⟩ := h
  rw [heq, List.cons_append] at hcons
  obtain ⟨rfl, rfl⟩ := List.cons.inj hcons
  unfold nextToken
  rw [if_pos (by simpa using hfirst), tokenizeIdentifier, ← List.cons_append, ← heq]
  obtain ⟨htake, hdrop⟩ := takeWhile_stops hbytes htail
  rw [htake, hdrop, CString.ofBuffer_bytes]

theorem numberBytes_complete {whole fraction tail : Bytes} (hwhole : Digits whole)
    (hfraction : fraction = [] ∨ ∃ ds, fraction = 46 :: ds ∧ ds ≠ [] ∧ Digits ds)
    (htail : Parted tail) :
    numberBytes (whole ++ (fraction ++ tail)) false = .ok (whole ++ fraction, tail) := by
  rcases hfraction with rfl | ⟨ds, rfl, hne, hds⟩
  · rw [List.nil_append]
    obtain ⟨htake, hdrop⟩ := takeWhile_stops hwhole htail.stops_digit
    rw [numberBytes_whole (by rw [hdrop]; exact htail.no_dot), htake, hdrop, List.append_nil]
  · have hstop : Stops isDigit (46 :: ds ++ tail) := stops_cons (by decide) _
    obtain ⟨htake, hdrop⟩ := takeWhile_stops hwhole hstop
    obtain ⟨htake', hdrop'⟩ := takeWhile_stops hds htail.stops_digit
    cases ds with
    | nil => exact absurd rfl hne
    | cons d ds =>
      have hfraction :=
        @numberBytes_fraction _ (ds ++ tail) d (hds d List.mem_cons_self) hdrop
      rw [List.cons_append] at htake' hdrop'
      rw [hfraction, htake, htake', hdrop']

theorem tokenizeNumber_unsigned {b text rest : Bytes} (hb : b.head? ≠ some 45)
    (h : numberBytes b false = .ok (text, rest)) :
    tokenizeNumber b = .ok (⟨.number, .ofBuffer text⟩, rest) := by
  simp only [tokenizeNumber, if_neg hb, List.length_nil, List.drop_zero, h, List.nil_append]

theorem tokenizeNumber_signed {b text rest : Bytes} (h : numberBytes b false = .ok (text, rest)) :
    tokenizeNumber (45 :: b) = .ok (⟨.number, .ofBuffer (45 :: text)⟩, rest) := by
  simp [tokenizeNumber, h]

theorem number_complete {text : CString} (h : Number text.bytes) {tail : Bytes}
    (htail : Parted tail) {ch : UInt8} {rest : Bytes} (hcons : text.bytes ++ tail = ch :: rest) :
    nextToken ch rest = .ok (⟨.number, text⟩, tail) := by
  have hword (c : UInt8) (hc : isDigit c = true) : isAlpha c = false ∧ c ≠ 95 ∧ c ≠ 45 := by
    simp only [isAlpha, isDigit] at *
    grind
  obtain ⟨sign, whole, fraction, heq, hsign, hne, hwhole, hfraction⟩ := h
  have hnum := numberBytes_complete hwhole hfraction htail
  obtain ⟨d, more, rfl⟩ := List.exists_cons_of_ne_nil hne
  have hd := hwhole d List.mem_cons_self
  obtain ⟨halpha, hlow, hminus⟩ := hword d hd
  have htext : CString.ofBuffer (sign ++ (d :: more ++ fraction)) = text := by
    rw [← List.append_assoc, ← heq, CString.ofBuffer_bytes]
  rw [heq, List.append_assoc, List.append_assoc] at hcons
  unfold nextToken
  rcases hsign with rfl | rfl
  · rw [List.nil_append] at hcons htext
    rw [hcons] at hnum
    obtain ⟨rfl, -⟩ := List.cons.inj hcons
    rw [if_neg (by simp [halpha, hlow]), if_pos (by simp [hd]),
      tokenizeNumber_unsigned (by simpa using hminus) hnum, htext]
  · rw [List.singleton_append] at hcons
    obtain ⟨rfl, rfl⟩ := List.cons.inj hcons
    rw [if_neg (by decide), if_pos (by simp [hd]), tokenizeNumber_signed hnum]
    exact congrArg (fun t => Except.ok (Token.mk .number t, tail)) htext

theorem string_complete (text : CString) {tail : Bytes} (htail : Parted tail) :
    nextToken 39 (doubled text.bytes ++ 39 :: tail) = .ok (⟨.string, text⟩, tail) := by
  unfold nextToken
  rw [if_neg (by decide), if_neg (by simp [show isDigit 39 = false by decide]), if_pos rfl]
  unfold tokenizeString
  rw [List.drop_one, List.tail_cons, stringBytes_complete text.bytes htail.no_quote]
  dsimp only
  rw [CString.ofBuffer_bytes]

theorem symbol_complete {type : TokenType} {ch : UInt8} (h : (type, ch) ∈ symbols) (tail : Bytes) :
    nextToken ch tail = .ok (⟨type, .ofBuffer [ch]⟩, tail) := by
  have hother : ∀ s ∈ symbols, isAlpha s.2 = false ∧ s.2 ≠ 95 ∧ isDigit s.2 = false ∧ s.2 ≠ 45 ∧
      s.2 ≠ 39 := by decide
  obtain ⟨halpha, hlow, hdigit, hminus, hquote⟩ := hother _ h
  unfold nextToken
  rw [if_neg (by simp [halpha, hlow]), if_neg (by simp [hdigit, hminus]), if_neg hquote,
    tokenizeSymbol, symbolType_iff.mpr h]

theorem nextToken_complete {token : Token} {lex tail : Bytes} (h : Lexeme token lex)
    (htail : Parted tail) {ch : UInt8} {rest : Bytes} (hcons : lex ++ tail = ch :: rest) :
    nextToken ch rest = .ok (token, tail) := by
  cases h with
  | @identifier text hword hnot =>
    rw [word_complete hword htail.stops_word hcons, keywordType_identifier hnot]
  | @keyword type word text hmem hword =>
    rw [word_complete (keyword_is_word hmem hword) htail.stops_word hcons,
      keywordType_keyword hmem hword]
  | number hnumber => exact number_complete hnumber htail hcons
  | @string text =>
    simp only [List.cons_append, List.append_assoc, List.nil_append] at hcons
    obtain ⟨rfl, rfl⟩ := List.cons.inj hcons
    exact string_complete text htail
  | symbol hmem =>
    obtain ⟨rfl, rfl⟩ := List.cons.inj hcons
    exact symbol_complete hmem tail

theorem lexeme_start {token : Token} {lex : Bytes} (h : Lexeme token lex) :
    ∃ ch rest, lex = ch :: rest ∧ isSpace ch = false := by
  have hvisible (c : UInt8) (hc : isWordByte c = true ∨ c = 45) : isSpace c = false := by
    simp only [isSpace, isWordByte, isAlnum, isAlpha, isDigit] at *
    grind
  have hword {text : Bytes} (hw : Word text) :
      ∃ ch rest, text = ch :: rest ∧ isSpace ch = false := by
    obtain ⟨first, rest, rfl, hfirst, -⟩ := hw
    exact ⟨first, rest, rfl, hvisible first (Or.inl (alpha_is_word first hfirst))⟩
  cases h with
  | identifier hw _ => exact hword hw
  | keyword hmem hw => exact hword (keyword_is_word hmem hw)
  | number hnumber =>
    obtain ⟨sign, whole, fraction, heq, hsign, hne, hwhole, -⟩ := hnumber
    obtain ⟨d, more, rfl⟩ := List.exists_cons_of_ne_nil hne
    rcases hsign with rfl | rfl
    · exact ⟨d, more ++ fraction, heq,
        hvisible d (Or.inl (digit_is_word d (hwhole d List.mem_cons_self)))⟩
    · exact ⟨45, d :: more ++ fraction, heq, by decide⟩
  | string => exact ⟨39, _, rfl, by decide⟩
  | @symbol type ch hmem =>
    have hall : ∀ s ∈ symbols, isSpace s.2 = false := by decide
    exact ⟨ch, [], rfl, hall _ hmem⟩

theorem tokenizeFrom_space {rounds : ℕ} {ch : UInt8} {rest : Bytes} (h : isSpace ch = true) :
    tokenizeFrom (rounds + 1) (ch :: rest) = tokenizeFrom rounds rest := by
  rw [tokenizeFrom, if_pos h]

theorem tokenizeFrom_token {rounds : ℕ} {ch : UInt8} {rest tail : Bytes} {token : Token}
    (hch : isSpace ch = false) (hnext : nextToken ch rest = .ok (token, tail))
    {tokens : List Token} (h : tokenizeFrom rounds tail = .ok tokens) :
    tokenizeFrom (rounds + 1) (ch :: rest) = .ok (token :: tokens) := by
  rw [tokenizeFrom, if_neg (by simp [hch]), hnext]
  dsimp only
  rw [h]

/-- Rounds beyond one for each byte and one for the end make no difference. -/
theorem tokenizeFrom_white {w b : Bytes} (hw : White w) {rounds : ℕ} (hrounds : w.length ≤ rounds) :
    tokenizeFrom rounds (w ++ b) = tokenizeFrom (rounds - w.length) b := by
  induction w generalizing rounds with
  | nil => rfl
  | cons c w ih =>
    obtain ⟨rounds, rfl⟩ : ∃ r, rounds = r + 1 := ⟨rounds - 1, by simp at hrounds; omega⟩
    rw [List.length_cons] at hrounds
    rw [List.cons_append, tokenizeFrom_space (hw c List.mem_cons_self),
      ih (fun d hd => hw d (List.mem_cons_of_mem _ hd)) (by omega), List.length_cons]
    congr 1
    omega

theorem tokenizeFrom_nil {rounds : ℕ} (h : 0 < rounds) :
    tokenizeFrom rounds [] = .ok [eofToken] := by
  obtain ⟨rounds, rfl⟩ : ∃ r, rounds = r + 1 := ⟨rounds - 1, by omega⟩
  rfl

theorem tokenizeFrom_lexeme {t : Token} {lex tail : Bytes} (hlex : Lexeme t lex)
    (htail : Parted tail) {tokens : List Token}
    (h : ∀ rounds, tail.length < rounds → tokenizeFrom rounds tail = .ok tokens) {rounds : ℕ}
    (hrounds : (lex ++ tail).length < rounds) :
    tokenizeFrom rounds (lex ++ tail) = .ok (t :: tokens) := by
  obtain ⟨ch, rest, rfl, hch⟩ := lexeme_start hlex
  obtain ⟨rounds, rfl⟩ : ∃ r, rounds = r + 1 := ⟨rounds - 1, by omega⟩
  rw [List.cons_append, List.length_cons, List.length_append] at hrounds
  exact tokenizeFrom_token hch (nextToken_complete hlex htail rfl) (h rounds (by omega))

theorem white_parted {w b : Bytes} (hw : White w) (h : w ≠ [] ∨ Parted b) : Parted (w ++ b) := by
  intro c hc
  cases w with
  | nil => exact h.resolve_left (by simp) c hc
  | cons d w =>
    cases hc
    exact hw c List.mem_cons_self

theorem spelled_lexes {ts : List Token} {b : Bytes} (h : Spelled Apart ts b) {rounds : ℕ}
    (hrounds : b.length < rounds) : tokenizeFrom rounds b = .ok (ts ++ [eofToken]) := by
  induction h generalizing rounds with
  | none => exact tokenizeFrom_nil hrounds
  | @last t lex after hlex hafter =>
    have hend : ∀ rounds, after.length < rounds → tokenizeFrom rounds after = .ok [eofToken] := by
      intro rounds hlt
      have hwhite := @tokenizeFrom_white after [] hafter rounds hlt.le
      rw [List.append_nil] at hwhite
      rw [hwhite, tokenizeFrom_nil (by omega)]
    have hparted := white_parted (b := []) hafter (Or.inr (by simp [Parted]))
    rw [List.append_nil] at hparted
    exact tokenizeFrom_lexeme hlex hparted hend hrounds
  | @cons t u ts lex gap rest hlex hgap _ ih =>
    refine tokenizeFrom_lexeme hlex (white_parted hgap.1 (Or.inl hgap.2)) (fun rounds hlt => ?_)
      hrounds
    rw [List.length_append] at hlt
    rw [tokenizeFrom_white hgap.1 (by omega)]
    exact ih (by omega)

/-- A text that lexes is the spelling of its tokens, with white space around them. -/
theorem lexed_spelled {rounds : ℕ} {b : Bytes} (hrounds : b.length < rounds) (hnul : 0 ∉ b)
    {tokens : List Token} (h : tokenizeFrom rounds b = .ok tokens) :
    ∃ ts w rest, tokens = ts ++ [eofToken] ∧ b = w ++ rest ∧ White w ∧ Spelled White ts rest := by
  induction rounds generalizing b tokens with
  | zero => omega
  | succ rounds ih =>
    cases b with
    | nil =>
      cases h
      exact ⟨[], [], [], rfl, rfl, by simp [White], .none⟩
    | cons ch b =>
      rw [List.length_cons] at hrounds
      by_cases hch : isSpace ch = true
      · rw [tokenizeFrom_space hch] at h
        obtain ⟨ts, w, rest, htokens, rfl, hw, hspelled⟩ :=
          ih (by omega) (fun hzero => hnul (List.mem_cons_of_mem _ hzero)) h
        refine ⟨ts, ch :: w, rest, htokens, rfl, ?_, hspelled⟩
        intro c hc
        rcases List.mem_cons.mp hc with rfl | hc
        · exact hch
        · exact hw c hc
      · obtain ⟨t, tail, more, hnext, hmore, rfl⟩ := tokenizeFrom_ok hch h
        obtain ⟨lex, hcut, hlex⟩ := nextToken_sound hnul hnext
        have hshrink := nextToken_shrinks hnext
        rw [hcut] at hnul ⊢
        obtain ⟨ts, w, rest, rfl, rfl, hw, hspelled⟩ := ih (by omega)
          (fun hzero => hnul (List.mem_append_right _ hzero)) hmore
        refine ⟨t :: ts, [], lex ++ (w ++ rest), rfl, rfl, by simp [White], ?_⟩
        cases hspelled with
        | none =>
          rw [List.append_nil]
          exact .last hlex hw
        | last hlex' hafter => exact .cons hlex hw (.last hlex' hafter)
        | cons hlex' hgap hrest => exact .cons hlex hw (.cons hlex' hgap hrest)

/-- Tokens spelled with white space between them lex to exactly these tokens and EOF; and a text
that lexes is exactly the spelling of its tokens, with nothing but white space around them. -/
theorem lexing_undoes_rendering :
    (∀ sql : CString, ∀ ts w b, White w → Spelled Apart ts b → sql.bytes = w ++ b →
      tokenizeSql sql = .ok (ts ++ [eofToken])) ∧
    ∀ sql tokens, tokenizeSql sql = .ok tokens → ∃ ts w b, tokens = ts ++ [eofToken] ∧
      sql.bytes = w ++ b ∧ White w ∧ Spelled White ts b := by
  constructor
  · intro sql ts w b hw hspelled hbytes
    rw [tokenizeSql, hbytes, List.length_append, tokenizeFrom_white hw (by omega)]
    exact spelled_lexes hspelled (by omega)
  · intro sql tokens h
    exact lexed_spelled (Nat.lt_succ_self _) sql.nulFree h

end LexerRoundTrip
