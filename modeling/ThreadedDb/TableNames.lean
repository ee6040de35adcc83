import ThreadedDb.SqlGrammar
import ThreadedDb.LexerRoundTrip

/-!
# Table names in the text

Where the name of a statement's table comes from: it follows a keyword as a word of its own,
outside of all quotes. A text is cut at any token; string literals, with their quotes doubled
inside, hold an even number of quotes, so a cut is never inside of one.
-/
namespace TableNames

open ByteText
open SqlFrontEnd
open ParserBounds
open SqlGrammar
open LexerRoundTrip
open Scanning

/-- The word stands in the text with no letter, digit or `_` beside it, and behind an even number
of quotes. -/
def UnquotedWord (text word : Bytes) : Prop :=
  ∃ before after, text = before ++ word ++ after ∧ Even (before.count 39) ∧
    (∀ c, before.getLast? = some c → isWordByte c = false) ∧ Stops isWordByte after

def NamedIn (sql name : CString) : Prop :=
  Word name.bytes ∧ UnquotedWord sql.bytes name.bytes

theorem white_quotes {w : Bytes} (h : White w) : w.count 39 = 0 := by
  rw [List.count_eq_zero]
  intro hquote
  exact (space_not_word 39 (h 39 hquote)).2.2 rfl

theorem word_quotes {w : Bytes} (h : Word w) : w.count 39 = 0 := by
  rw [List.count_eq_zero]
  intro hquote
  have := word_bytes h 39 hquote
  simp [show isWordByte 39 = false by decide] at this

theorem doubled_quotes (b : Bytes) : (doubled b).count 39 = 2 * b.count 39 := by
  induction b with
  | nil => rfl
  | cons c b ih =>
    have hcons : doubled (c :: b) = (if c = 39 then [39, 39] else [c]) ++ doubled b := rfl
    rw [hcons, List.count_append, ih]
    by_cases hc : c = 39
    · subst hc
      have htwo : ([39, 39] : Bytes).count 39 = 2 := by decide
      rw [if_pos rfl, htwo, List.count_cons_self]
      omega
    · rw [if_neg hc, List.count_cons_of_ne hc, List.count_cons_of_ne hc, List.count_nil]
      omega

theorem digits_quotes {b : Bytes} (h : Digits b) : b.count 39 = 0 := by
  rw [List.count_eq_zero]
  intro hquote
  have := h 39 hquote
  simp [show isDigit 39 = false by decide] at this

theorem number_quotes {b : Bytes} (h : Number b) : b.count 39 = 0 := by
  obtain ⟨sign, whole, fraction, rfl, hsign, -, hwhole, hfraction⟩ := h
  have hminus : sign.count 39 = 0 := by
    rcases hsign with rfl | rfl
    · rfl
    · decide
  have hdot : fraction.count 39 = 0 := by
    rcases hfraction with rfl | ⟨ds, rfl, -, hds⟩
    · rfl
    · rw [List.count_cons_of_ne (by decide), digits_quotes hds]
  rw [List.count_append, List.count_append, hminus, digits_quotes hwhole, hdot]

theorem lexeme_quotes {token : Token} {lex : Bytes} (h : Lexeme token lex) :
    Even (lex.count 39) := by
  cases h with
  | identifier hword _ => simp [word_quotes hword]
  | keyword hmem hword => simp [word_quotes (keyword_is_word hmem hword)]
  | number hnumber => simp [number_quotes hnumber]
  | @string text =>
    have hopen : (39 :: doubled text.bytes ++ [39]).count 39 = 2 * (text.bytes.count 39 + 1) := by
      rw [List.count_append, List.count_cons_self, doubled_quotes, List.count_singleton_self]
      omega
    rw [hopen]
    exact even_two_mul _
  | @symbol type ch hmem =>
    have hnone : ∀ s ∈ symbols, ([s.2] : Bytes).count 39 = 0 := by decide
    simp [hnone _ hmem]

def Found (text : Bytes) (tokens : List Token) : Prop :=
  ∃ rounds, text.length < rounds ∧ tokenizeFrom rounds text = .ok tokens

/-- What the lexer read before it found these tokens, and the text that it found them in. -/
structure Cut (text : Bytes) (tokens : List Token) (read rest : Bytes) : Prop where
  text_eq : text = read ++ rest
  even : Even (read.count 39)
  found : Found rest tokens

theorem Cut.nulFree {text read rest : Bytes} {tokens : List Token} (h : Cut text tokens read rest)
    (hnul : 0 ∉ text) : 0 ∉ rest := by
  intro hzero
  rw [h.text_eq] at hnul
  exact hnul (List.mem_append_right _ hzero)

theorem Cut.append {text read read' rest rest' : Bytes} {ts us : List Token}
    (h : Cut text ts read rest) (h' : Cut rest us read' rest') :
    Cut text us (read ++ read') rest' := by
  constructor
  · rw [h.text_eq, h'.text_eq, List.append_assoc]
  · rw [List.count_append]
    exact h.even.add h'.even
  · exact h'.found

theorem cut_white {text : Bytes} {tokens : List Token} (h : Found text tokens) :
    ∃ w rest, White w ∧ Stops isSpace rest ∧ Cut text tokens w rest := by
  obtain ⟨rounds, hrounds, h⟩ := h
  have hwhite : White (text.takeWhile isSpace) := fun c hc => List.mem_takeWhile_imp hc
  have hcut := List.takeWhile_append_dropWhile (p := isSpace) (l := text)
  have hlen := congrArg List.length hcut
  rw [List.length_append] at hlen
  refine ⟨_, _, hwhite, dropWhile_stops isSpace text, hcut.symm, ?_, ?_⟩
  · simp [white_quotes hwhite]
  · refine ⟨rounds - (text.takeWhile isSpace).length, by omega, ?_⟩
    rw [← tokenizeFrom_white hwhite (by omega), hcut, h]

theorem nextToken_word {ch : UInt8} {b lex rest : Bytes} {t : Token}
    (h : nextToken ch b = .ok (t, rest)) (hcut : ch :: b = lex ++ rest) (hword : Word lex) :
    Stops isWordByte rest := by
  obtain ⟨first, more, rfl, hfirst, -⟩ := hword
  obtain ⟨rfl, -⟩ := List.cons.inj hcut
  unfold nextToken at h
  rw [if_pos (by simpa using hfirst)] at h
  cases h
  exact dropWhile_stops isWordByte _

theorem cut_next {text : Bytes} {t u : Token} {tokens : List Token} (hnul : 0 ∉ text)
    (h : Found text (t :: u :: tokens)) :
    ∃ w lex rest, White w ∧ Lexeme t lex ∧ Cut text (t :: u :: tokens) w (lex ++ rest) ∧
      Cut text (u :: tokens) (w ++ lex) rest ∧ (Word lex → Stops isWordByte rest) := by
  obtain ⟨w, start, hw, hstart, hwhite⟩ := cut_white h
  have hfree := hwhite.nulFree hnul
  obtain ⟨rounds, hrounds, hfound⟩ := hwhite.found
  obtain ⟨rounds, rfl⟩ : ∃ r, rounds = r + 1 := ⟨rounds - 1, by omega⟩
  cases start with
  | nil => cases hfound
  | cons ch b =>
    obtain ⟨t', rest, more, hnext, hmore, heq⟩ := tokenizeFrom_ok (by simp [hstart ch rfl]) hfound
    cases heq
    obtain ⟨lex, hcut, hlex⟩ := nextToken_sound hfree hnext
    have hshrink := nextToken_shrinks hnext
    rw [List.length_cons] at hrounds
    have htoken : Cut (ch :: b) (u :: tokens) lex rest :=
      ⟨hcut, lexeme_quotes hlex, rounds, by omega, hmore⟩
    exact ⟨w, lex, rest, hw, hlex, hcut ▸ hwhite, hwhite.append htoken, nextToken_word hnext hcut⟩

theorem cut_before {before tokens : List Token} (hne : tokens ≠ []) {text : Bytes}
    (hnul : 0 ∉ text) (h : Found text (before ++ tokens)) :
    ∃ read rest, Cut text tokens read rest := by
  induction before generalizing text with
  | nil => exact ⟨[], text, rfl, by simp, h⟩
  | cons t before ih =>
    obtain ⟨u, us, hus⟩ : ∃ u us, before ++ tokens = u :: us :=
      List.exists_cons_of_ne_nil (by simp [hne])
    rw [List.cons_append, hus] at h
    obtain ⟨w, lex, rest, -, -, -, hcut, -⟩ := cut_next hnul h
    obtain ⟨read, rest', hcut'⟩ := ih (hcut.nulFree hnul) (hus ▸ hcut.found)
    exact ⟨_, rest', hcut.append hcut'⟩

def KeywordToken (t : Token) : Prop := ∃ k ∈ keywords, t.type = k.1

theorem lexeme_of_keyword {t : Token} {lex : Bytes} (h : Lexeme t lex) (ht : KeywordToken t) :
    Word lex := by
  have hother : ∀ k ∈ keywords, k.1 ≠ .identifier ∧ k.1 ≠ .number ∧ k.1 ≠ .string ∧
      ∀ s ∈ symbols, k.1 ≠ s.1 := by decide
  obtain ⟨k, hk, htype⟩ := ht
  obtain ⟨hid, hnumber, hstring, hsymbol⟩ := hother k hk
  cases h with
  | identifier hword _ => exact hword
  | keyword hmem hword => exact keyword_is_word hmem hword
  | number _ => exact absurd htype.symm hnumber
  | string => exact absurd htype.symm hstring
  | symbol hmem => exact absurd htype.symm (hsymbol _ hmem)

theorem lexeme_of_identifier {t : Token} {lex : Bytes} (h : Lexeme t lex)
    (ht : t.type = .identifier) : lex = t.text.bytes ∧ Word lex := by
  have hkeyword : ∀ k ∈ keywords, k.1 ≠ .identifier := by decide
  have hsymbol : ∀ s ∈ symbols, s.1 ≠ .identifier := by decide
  cases h with
  | identifier hword _ => exact ⟨rfl, hword⟩
  | keyword hmem _ => exact absurd ht (hkeyword _ hmem)
  | number _ => cases ht
  | string => cases ht
  | symbol hmem => exact absurd ht (hsymbol _ hmem)

theorem white_between {w word rest : Bytes} (hw : White w) (hword : Word word)
    (hstops : Stops isWordByte (w ++ (word ++ rest))) (read : Bytes) (d : UInt8)
    (hd : (read ++ w).getLast? = some d) : isWordByte d = false := by
  have hne : w ≠ [] := by
    rintro rfl
    have hfirst := word_bytes hword
    obtain ⟨first, more, rfl, -, -⟩ := hword
    have hstop := hstops first rfl
    rw [hfirst first List.mem_cons_self] at hstop
    cases hstop
  rw [List.getLast?_append_of_ne_nil _ hne] at hd
  exact (space_not_word d (hw d (List.mem_of_getLast? hd))).1

theorem identifier_unquoted {before after : List Token} {k t : Token} {text : Bytes}
    (hnul : 0 ∉ text) (hk : KeywordToken k) (ht : t.type = .identifier) (hafter : after ≠ [])
    (h : Found text (before ++ k :: t :: after)) :
    Word t.text.bytes ∧ UnquotedWord text t.text.bytes := by
  obtain ⟨u, us, rfl⟩ := List.exists_cons_of_ne_nil hafter
  obtain ⟨read, rest, hbefore⟩ := cut_before (by simp) hnul h
  have hfree := hbefore.nulFree hnul
  obtain ⟨w, klex, rest₁, -, hklex, -, hkeyword, hkstops⟩ := cut_next hfree hbefore.found
  obtain ⟨gap, lex, rest₂, hgap, hlex, hwhite, -, hstops⟩ :=
    cut_next (hkeyword.nulFree hfree) hkeyword.found
  obtain ⟨rfl, hword⟩ := lexeme_of_identifier hlex ht
  have hread := (hbefore.append hkeyword).append hwhite
  refine ⟨hword, _, rest₂, ?_, hread.even, ?_, hstops hword⟩
  · rw [hread.text_eq, List.append_assoc _ t.text.bytes]
  · -- the keyword ends before the gap, so the gap is not empty
    have htouch := hkstops (lexeme_of_keyword hklex hk)
    rw [hwhite.text_eq] at htouch
    exact white_between hgap hword htouch _

theorem sentence_table {ts : List Token} {stmt : Statement} (h : Sentence ts stmt) :
    ∃ before k t after, ts = before ++ k :: t :: after ∧ KeywordToken k ∧
      t.type = .identifier ∧ t.text = stmt.tableName := by
  cases h with
  | @insert kw _ _ _ hrest =>
    cases hrest with
    | @mk into _ _ _ _ _ _ _ _ _ hinto hident _ _ _ _ _ =>
      cases hident with
      | @mk t ht =>
        have hkeyword : KeywordToken into := ⟨(.into, ascii "INTO"), by decide, hinto⟩
        exact ⟨[kw], into, t, _, rfl, hkeyword, ht, rfl⟩
  | @select kw _ _ _ hrest =>
    cases hrest with
    | @mk from_ sl _ _ _ _ _ _ hfrom hident _ =>
      cases hident with
      | @mk t ht =>
        have hkeyword : KeywordToken from_ := ⟨(.from, ascii "FROM"), by decide, hfrom⟩
        exact ⟨kw :: sl, from_, t, _, rfl, hkeyword, ht, rfl⟩

/-- The table of a statement that is parsed anywhere in a text is named in the text. -/
theorem parsed_table_named {sql : CString} {tokens : List Token}
    (htokens : tokenizeSql sql = .ok tokens) {cursor k : ℕ} {stmt : Statement}
    (h : parseNextStatement tokens cursor = .ok (.ok stmt, k)) : NamedIn sql stmt.tableName := by
  obtain ⟨-, body, -, i, j, -, -, hbody, hsentence, -, -⟩ := next_sound h
  obtain ⟨before, kw, t, after, rfl, hkw, ht, hname⟩ := sentence_table hsentence
  rw [← hname]
  have htext : tokens = (tokens.take i ++ before) ++ kw :: t :: (after ++ tokens.drop j) := by
    conv_lhs => rw [← List.take_append_drop i tokens, hbody.text]
    simp only [List.append_assoc, List.cons_append]
  have hafter : after ++ tokens.drop j ≠ [] := by
    -- the last token is EOF, and no identifier
    intro hnil
    obtain ⟨front, eof, heq, heof, -⟩ := tokenizeSql_ends htokens
    rw [hnil] at htext
    have hlast := congrArg List.getLast? (heq.symm.trans htext)
    simp only [List.getLast?_append, List.getLast?_singleton, List.getLast?_cons_cons,
      Option.some_or, Option.some.injEq] at hlast
    rw [← hlast, heof] at ht
    cases ht
  have hfound : Found sql.bytes tokens := ⟨_, Nat.lt_succ_self _, htokens⟩
  rw [htext] at hfound
  exact identifier_unquoted sql.nulFree hkw ht hafter hfound

end TableNames
