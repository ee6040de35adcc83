import ThreadedDb.DbApiModel

/-!
# The parser stays inside its tokens

The lexer ends every token array with its only EOF token. The parser never steps over that
token, so it reads no index outside the array, and every loop ends.
-/
namespace ParserBounds

open ByteText
open SqlFrontEnd
open DbApiModel
open CheckedArray (ok_bind)

def EndsInEof (tokens : List Token) : Prop :=
  ∃ body eof, tokens = body ++ [eof] ∧ eof.type = .eof ∧ ∀ t ∈ body, t.type ≠ .eof

theorem nextToken_type {ch : UInt8} {rest rest' : Bytes} {token : Token}
    (h : nextToken ch rest = .ok (token, rest')) : token.type ≠ .eof := by
  have hkeyword (text : CString) : keywordType text ≠ .eof := by
    unfold keywordType
    repeat' split
    all_goals decide
  have hsymbol {type : TokenType} (hs : symbolType ch = some type) : type ≠ .eof := by
    unfold symbolType at hs
    repeat' split at hs
    all_goals cases hs
    all_goals decide
  unfold nextToken at h
  split at h
  · cases h
    exact hkeyword _
  split at h
  · unfold tokenizeNumber at h
    dsimp only at h
    split at h
    · cases h
    · cases h
      simp
  split at h
  · unfold tokenizeString at h
    split at h
    · cases h
    · cases h
      simp
  · unfold tokenizeSymbol at h
    split at h
    · cases h
    · rename_i type htype
      cases h
      exact hsymbol htype

theorem numberBytes_shrinks {b : Bytes} {seenDot : Bool} {text rest : Bytes}
    (h : numberBytes b seenDot = .ok (text, rest)) : rest.length ≤ b.length := by
  fun_induction numberBytes b seenDot generalizing text rest with
  | case1 =>
    cases h
    exact le_rfl
  | case2 => cases h
  | case3 b tail seenDot hb text' rest' hrec ih =>
    cases h
    exact (ih hrec).trans (Nat.le_succ _)
  | case4 => cases h
  | case5 b seenDot hb hdot c tail hc message hrec =>
    rw [hrec] at h
    cases h
  | case6 b seenDot hb hdot c tail hc text' rest' hrec ih =>
    rw [hrec] at h
    cases h
    exact (ih hrec).trans (Nat.le_succ _)
  | case7 => cases h
  | case8 =>
    cases h
    exact le_rfl

theorem numberBytes_digit {c : UInt8} {b text rest : Bytes} {seenDot : Bool}
    (hc : isDigit c = true) (h : numberBytes (c :: b) seenDot = .ok (text, rest)) :
    rest.length ≤ b.length := by
  rw [numberBytes.eq_def] at h
  dsimp only at h
  rw [if_pos hc] at h
  split at h
  · cases h
  · rename_i hrec
    cases h
    exact numberBytes_shrinks hrec

theorem stringBytes_shrinks {b text rest : Bytes} (h : stringBytes b = .ok (text, rest)) :
    rest.length ≤ b.length := by
  fun_induction stringBytes b generalizing text rest with
  | case1 => cases h
  | case2 =>
    cases h
    simp
  | case3 => cases h
  | case4 tail text' rest' hrec ih =>
    cases h
    have := ih hrec
    simp only [List.length_cons]
    omega
  | case5 c tail hc =>
    cases h
    simp
  | case6 => cases h
  | case7 c tail hc text' rest' hrec ih =>
    cases h
    exact (ih hrec).trans (Nat.le_succ _)

theorem nextToken_shrinks {ch : UInt8} {rest rest' : Bytes} {token : Token}
    (h : nextToken ch rest = .ok (token, rest')) : rest'.length ≤ rest.length := by
  unfold nextToken at h
  split at h
  · rename_i hch
    have hword : isWordByte ch = true := by
      simp only [isWordByte, isAlnum, Bool.or_eq_true] at hch ⊢
      rcases hch with halpha | hlow
      · exact Or.inl (Or.inl halpha)
      · exact Or.inr hlow
    cases h
    rw [List.dropWhile_cons_of_pos hword]
    exact (List.dropWhile_sublist _).length_le
  split at h
  · rename_i hch
    unfold tokenizeNumber at h
    dsimp only at h
    split at h
    · cases h
    rename_i text rest₁ hnum
    cases h
    by_cases hsign : ch = 45
    · subst hsign
      exact numberBytes_shrinks hnum
    · have hdigit : isDigit ch = true := by simpa [hsign] using hch
      rw [List.head?_cons, if_neg (by simpa using hsign)] at hnum
      exact numberBytes_digit hdigit hnum
  split at h
  · unfold tokenizeString at h
    split at h
    · cases h
    · rename_i hstr
      cases h
      exact stringBytes_shrinks hstr
  · unfold tokenizeSymbol at h
    split at h
    · cases h
    · cases h
      exact le_rfl

theorem endsInEof_cons {token : Token} (htoken : token.type ≠ .eof) {tokens : List Token}
    (h : EndsInEof tokens) : EndsInEof (token :: tokens) := by
  obtain ⟨body, eof, rfl, heof, hbody⟩ := h
  refine ⟨token :: body, eof, rfl, heof, ?_⟩
  intro t ht
  rcases List.mem_cons.mp ht with rfl | ht
  · exact htoken
  · exact hbody t ht

/-- A text that starts with a token: the token, and then the tokens of the rest. -/
theorem tokenizeFrom_ok {rounds : ℕ} {ch : UInt8} {b : Bytes} {tokens : List Token}
    (hch : ¬ isSpace ch = true) (h : tokenizeFrom (rounds + 1) (ch :: b) = .ok tokens) :
    ∃ token rest more, nextToken ch b = .ok (token, rest) ∧ tokenizeFrom rounds rest = .ok more ∧
      tokens = token :: more := by
  rw [tokenizeFrom, if_neg hch] at h
  split at h
  · cases h
  · rename_i token rest hnext
    split at h
    · cases h
    · rename_i more hmore
      cases h
      exact ⟨token, rest, more, hnext, hmore, rfl⟩

theorem tokenizeFrom_ends {rounds : ℕ} {b : Bytes} (hlen : b.length < rounds)
    {tokens : List Token} (h : tokenizeFrom rounds b = .ok tokens) : EndsInEof tokens := by
  induction rounds generalizing b tokens with
  | zero => omega
  | succ rounds ih =>
    cases b with
    | nil =>
      cases h
      exact ⟨[], _, rfl, rfl, by simp⟩
    | cons ch rest =>
      rw [List.length_cons] at hlen
      by_cases hch : isSpace ch = true
      · rw [tokenizeFrom, if_pos hch] at h
        exact ih (by omega) h
      · obtain ⟨token, rest', more, hnext, hmore, rfl⟩ := tokenizeFrom_ok hch h
        have hshrink := nextToken_shrinks hnext
        exact endsInEof_cons (nextToken_type hnext) (ih (by omega) hmore)

theorem tokenizeSql_ends {sql : CString} {tokens : List Token}
    (h : tokenizeSql sql = .ok tokens) : EndsInEof tokens :=
  tokenizeFrom_ends (Nat.lt_succ_self _) h

theorem start_bind {α β : Type} (p : Parse α) (f : α → Parse β) (i : ℕ) :
    (p >>= f).start i = (match p.start i with
      | .error fault => .error fault
      | .ok (.error message, j) => .ok (.error message, j)
      | .ok (.ok a, j) => (f a).start j) := by
  change StateT.run (ExceptT.run (ExceptT.bind p f)) i = _
  simp only [Parse.start, ExceptT.run, ExceptT.bind, ExceptT.mk, StateT.run, bind, StateT.bind,
    Except.bind]
  cases hp : p i with
  | error fault => rfl
  | ok r =>
    obtain ⟨a, j⟩ := r
    cases a with
    | error message => rfl
    | ok a => rfl

section Tokens

variable {tokens : List Token}

/-- From a position inside the tokens, `p` ends, inside them and not before. -/
def Stays (tokens : List Token) {α : Type} (p : Parse α) : Prop :=
  ∀ i < tokens.length, ∃ r j, p.start i = .ok (r, j) ∧ i ≤ j ∧ j < tokens.length

theorem stays_pure {α : Type} (a : α) : Stays tokens (pure a : Parse α) :=
  fun i hi => ⟨.ok a, i, rfl, le_rfl, hi⟩

theorem stays_error {α : Type} (message : CString) :
    Stays tokens (parseError message : Parse α) :=
  fun i hi => ⟨.error (setError message), i, rfl, le_rfl, hi⟩

theorem stays_bind {α β : Type} {p : Parse α} {f : α → Parse β} (hp : Stays tokens p)
    (hf : ∀ a, Stays tokens (f a)) : Stays tokens (p >>= f) := by
  intro i hi
  obtain ⟨r, j, hrun, hij, hj⟩ := hp i hi
  rw [start_bind, hrun]
  cases r with
  | error message => exact ⟨.error message, j, rfl, hij, hj⟩
  | ok a =>
    obtain ⟨r', k, hrun', hjk, hk⟩ := hf a j hj
    exact ⟨r', k, hrun', hij.trans hjk, hk⟩

theorem stays_ite {α : Type} {c : Prop} [Decidable c] {p q : Parse α} (hp : Stays tokens p)
    (hq : Stays tokens q) : Stays tokens (if c then p else q) := by
  split
  · exact hp
  · exact hq

theorem peek_start {i : ℕ} {t : Token} (ht : tokens[i]? = some t) :
    (parserPeek tokens).start i = .ok (.ok t, i) := by
  change (tokenAt tokens i).start i = _
  unfold tokenAt
  rw [ht]
  rfl

theorem previous_start {i : ℕ} {t : Token} (ht : tokens[i]? = some t) :
    (parserPrevious tokens).start (i + 1) = .ok (.ok t, i + 1) := by
  change (tokenAt tokens i).start (i + 1) = _
  unfold tokenAt
  rw [ht]
  rfl

theorem advance_start {i : ℕ} {t : Token} (ht : tokens[i]? = some t) (htype : t.type ≠ .eof) :
    (parserAdvance tokens).start i = .ok (.ok t, i + 1) := by
  unfold parserAdvance
  rw [start_bind, peek_start ht]
  dsimp only
  rw [if_pos htype, start_bind]
  exact previous_start ht

theorem match_start {i : ℕ} {t : Token} (ht : tokens[i]? = some t) {type : TokenType}
    (htype : type ≠ .eof) : (parserMatch tokens type).start i =
      if t.type = type then .ok (.ok true, i + 1) else .ok (.ok false, i) := by
  unfold parserMatch
  rw [start_bind, peek_start ht]
  dsimp only
  by_cases hmatch : t.type = type
  · rw [if_pos hmatch, if_neg (not_not.mpr hmatch), start_bind,
      advance_start ht (hmatch ▸ htype)]
    rfl
  · rw [if_neg hmatch, if_pos hmatch]
    rfl

theorem EndsInEof.next_lt (h : EndsInEof tokens) {i : ℕ} {t : Token} (ht : tokens[i]? = some t)
    (htype : t.type ≠ .eof) : i + 1 < tokens.length := by
  obtain ⟨body, eof, rfl, heof, -⟩ := h
  by_contra hlast
  have hi := (List.getElem?_eq_some_iff.mp ht).1
  rw [List.length_append, List.length_singleton] at hi hlast
  have : i = body.length := by omega
  subst this
  rw [List.getElem?_concat_length] at ht
  cases ht
  exact htype heof

theorem stays_peek : Stays tokens (parserPeek tokens) :=
  fun i hi => ⟨_, i, peek_start (List.getElem?_eq_getElem hi), le_rfl, hi⟩

theorem match_cases (h : EndsInEof tokens) {type : TokenType} (htype : type ≠ .eof) {i : ℕ}
    (hi : i < tokens.length) :
    ((parserMatch tokens type).start i = .ok (.ok true, i + 1) ∧ i + 1 < tokens.length) ∨
      (parserMatch tokens type).start i = .ok (.ok false, i) := by
  have ht := List.getElem?_eq_getElem hi
  rw [match_start ht htype]
  by_cases hmatch : tokens[i].type = type
  · rw [if_pos hmatch]
    exact Or.inl ⟨rfl, h.next_lt ht (hmatch ▸ htype)⟩
  · rw [if_neg hmatch]
    exact Or.inr rfl

theorem stays_match (h : EndsInEof tokens) {type : TokenType} (htype : type ≠ .eof) :
    Stays tokens (parserMatch tokens type) := by
  intro i hi
  rcases match_cases h htype hi with ⟨hrun, hlt⟩ | hrun
  · exact ⟨_, i + 1, hrun, Nat.le_succ i, hlt⟩
  · exact ⟨_, i, hrun, le_rfl, hi⟩

theorem stays_consume (h : EndsInEof tokens) {α : Type} {i : ℕ} {t : Token}
    (ht : tokens[i]? = some t) (htype : t.type ≠ .eof) {g : Token → Parse α}
    (hg : Stays tokens (g t)) :
    ∃ r j, (parserAdvance tokens >>= g).start i = .ok (r, j) ∧ i ≤ j ∧ j < tokens.length := by
  obtain ⟨r, j, hrun, hij, hj⟩ := hg (i + 1) (h.next_lt ht htype)
  refine ⟨r, j, ?_, (Nat.le_succ i).trans hij, hj⟩
  rw [start_bind, advance_start ht htype]
  exact hrun

theorem stays_expect (h : EndsInEof tokens) {type : TokenType} (htype : type ≠ .eof)
    (message : CString) : Stays tokens (parserExpectWithMessage tokens type message) := by
  apply stays_bind (stays_match h htype)
  intro matched
  exact stays_ite (stays_pure ()) (stays_error message)

theorem stays_identifier (h : EndsInEof tokens) : Stays tokens (parseIdentifier tokens) := by
  intro i hi
  have ht := List.getElem?_eq_getElem hi
  unfold parseIdentifier
  rw [start_bind, peek_start ht]
  dsimp only
  by_cases hid : tokens[i].type = .identifier
  · rw [if_neg (not_not.mpr hid)]
    exact stays_consume h ht (by simp [hid]) (stays_pure _)
  · rw [if_pos hid]
    exact stays_error _ i hi

theorem stays_literal (h : EndsInEof tokens) : Stays tokens (parseLiteral tokens) := by
  intro i hi
  have ht := List.getElem?_eq_getElem hi
  unfold parseLiteral
  rw [start_bind, peek_start ht]
  dsimp only
  split
  · rename_i hstring
    exact stays_consume h ht (by simp [hstring]) (stays_pure _)
  · rename_i hnumber
    exact stays_consume h ht (by simp [hnumber]) (stays_pure _)
  · exact stays_error _ i hi

/-- Every round of a list goes over a comma, so as many rounds as tokens are enough. -/
theorem stays_listTail (h : EndsInEof tokens) {α : Type} {item : Parse α}
    (hitem : Stays tokens item) (rounds : ℕ) (items : List α) {i : ℕ} (hi : i < tokens.length)
    (hrounds : tokens.length < i + rounds) : ∃ r j,
      (parseListTail tokens item rounds items).start i = .ok (r, j) ∧ i ≤ j ∧
        j < tokens.length := by
  induction rounds generalizing i items with
  | zero => omega
  | succ rounds ih =>
    rw [parseListTail, start_bind]
    rcases match_cases h (show TokenType.comma ≠ .eof by decide) hi with ⟨hrun, hlt⟩ | hrun
    · rw [hrun]
      dsimp only
      rw [if_pos rfl, start_bind]
      obtain ⟨r, j, hnext, hij, hj⟩ := hitem (i + 1) hlt
      rw [hnext]
      cases r with
      | error message => exact ⟨.error message, j, rfl, by omega, hj⟩
      | ok next =>
        obtain ⟨r', k, hrest, hjk, hk⟩ := ih (items ++ [next]) hj (by omega)
        exact ⟨r', k, hrest, by omega, hk⟩
    · rw [hrun]
      exact stays_pure items i hi

theorem stays_list (h : EndsInEof tokens) {α : Type} {item : Parse α}
    (hitem : Stays tokens item) : Stays tokens (parseList tokens item) := by
  apply stays_bind hitem
  intro first i hi
  exact stays_listTail h hitem _ _ hi (by omega)

theorem stays_whereClause (h : EndsInEof tokens) : Stays tokens (parseWhereClause tokens) := by
  apply stays_bind (stays_match h (by decide))
  intro matched
  apply stays_ite _ (stays_pure none)
  apply stays_bind (stays_identifier h)
  intro columnName
  apply stays_bind (stays_expect h (by decide) _)
  intro _
  exact stays_bind (stays_literal h) (fun value => stays_pure _)

theorem stays_insertColumns (h : EndsInEof tokens) :
    Stays tokens (parseInsertColumns tokens) := by
  apply stays_bind (stays_match h (by decide))
  intro matched
  apply stays_ite _ (stays_pure [])
  apply stays_bind (stays_list h (stays_identifier h))
  intro columns
  exact stays_bind (stays_expect h (by decide) _) (fun _ => stays_pure columns)

theorem stays_insert (h : EndsInEof tokens) : Stays tokens (parseInsert tokens) := by
  apply stays_bind (stays_expect h (by decide) _)
  intro _
  apply stays_bind (stays_identifier h)
  intro tableName
  apply stays_bind (stays_insertColumns h)
  intro columns
  apply stays_bind (stays_expect h (by decide) _)
  intro _
  apply stays_bind (stays_expect h (by decide) _)
  intro _
  apply stays_bind (stays_list h (stays_literal h))
  intro values
  exact stays_bind (stays_expect h (by decide) _) (fun _ => stays_pure _)

theorem stays_selectList (h : EndsInEof tokens) : Stays tokens (parseSelectList tokens) := by
  apply stays_bind (stays_match h (by decide))
  intro matched
  apply stays_ite (stays_pure _)
  exact stays_bind (stays_list h (stays_identifier h)) (fun columns => stays_pure _)

theorem stays_select (h : EndsInEof tokens) : Stays tokens (parseSelect tokens) := by
  apply stays_bind (stays_selectList h)
  intro list
  apply stays_bind (stays_expect h (by decide) _)
  intro _
  apply stays_bind (stays_identifier h)
  intro tableName
  exact stays_bind (stays_whereClause h) (fun clause => stays_pure _)

theorem stays_keyword (h : EndsInEof tokens) : Stays tokens (parseByKeyword tokens) := by
  apply stays_bind (stays_match h (by decide))
  intro isInsert
  apply stays_ite (stays_bind (stays_insert h) (fun stmt => stays_pure _))
  apply stays_bind (stays_match h (by decide))
  intro isSelect
  exact stays_ite (stays_bind (stays_select h) (fun stmt => stays_pure _)) (stays_error _)

theorem stays_terminated (h : EndsInEof tokens) : Stays tokens (parseTerminated tokens) := by
  apply stays_bind (stays_keyword h)
  intro stmt
  exact stays_bind (stays_match h (by decide)) (fun _ => stays_pure stmt)

theorem stays_skipSemicolons (h : EndsInEof tokens) (rounds : ℕ) {i : ℕ}
    (hi : i < tokens.length) (hrounds : tokens.length < i + rounds) : ∃ r j,
      (parserSkipSemicolons tokens rounds).start i = .ok (r, j) ∧ i ≤ j ∧ j < tokens.length := by
  induction rounds generalizing i with
  | zero => omega
  | succ rounds ih =>
    rw [parserSkipSemicolons, start_bind]
    rcases match_cases h (show TokenType.semicolon ≠ .eof by decide) hi with ⟨hrun, hlt⟩ | hrun
    · rw [hrun]
      obtain ⟨r, j, hrest, hij, hj⟩ := ih hlt (by omega)
      exact ⟨r, j, hrest, by omega, hj⟩
    · rw [hrun]
      exact stays_pure () i hi

theorem stays_skipAll (h : EndsInEof tokens) :
    Stays tokens (parserSkipSemicolons tokens (tokens.length + 1)) :=
  fun _ hi => stays_skipSemicolons h _ hi (by omega)

theorem stays_leading (h : EndsInEof tokens) : Stays tokens (parseLeading tokens) := by
  apply stays_bind (stays_skipAll h)
  intro _
  exact stays_bind stays_peek (fun token => stays_pure _)

/-- `parse_next_statement` ends, with its cursor where it was or further, inside the tokens. -/
theorem parseNextStatement_total (h : EndsInEof tokens) {cursor : ℕ}
    (hcursor : cursor < tokens.length) : ∃ r cursor',
      parseNextStatement tokens cursor = .ok (r, cursor') ∧ cursor ≤ cursor' ∧
        cursor' < tokens.length := by
  unfold parseNextStatement
  rw [if_neg (by rintro rfl; simp at hcursor), if_neg (by omega)]
  obtain ⟨r, i, hrun, hle, hi⟩ := stays_leading h cursor hcursor
  rw [hrun, ok_bind]
  cases r with
  | error message => exact ⟨_, cursor, rfl, le_rfl, hcursor⟩
  | ok ended =>
    cases ended with
    | true => exact ⟨_, i, rfl, hle, hi⟩
    | false =>
      obtain ⟨r', j, hrun', hij, hj⟩ := stays_terminated h i hi
      dsimp only
      rw [hrun', ok_bind]
      cases r' with
      | error message => exact ⟨_, cursor, rfl, le_rfl, hcursor⟩
      | ok stmt => exact ⟨_, j, rfl, hle.trans hij, hj⟩

end Tokens

theorem gate_total (sql : CString) : ∃ g, gate sql = .ok g := by
  unfold gate
  split
  · exact ⟨_, rfl⟩
  split
  · exact ⟨_, rfl⟩
  rename_i tokens htokens
  split
  · exact ⟨_, rfl⟩
  rename_i token htoken
  split
  · exact ⟨_, rfl⟩
  split
  · exact ⟨_, rfl⟩
  obtain ⟨r, cursor, hrun, -, -⟩ := parseNextStatement_total (tokenizeSql_ends htokens)
    (List.getElem?_eq_some_iff.mp htoken).1
  rw [hrun, ok_bind]
  cases r with
  | error message => exact ⟨_, rfl⟩
  | ok stmt =>
    dsimp only
    split
    · exact ⟨_, rfl⟩
    · exact ⟨_, rfl⟩

end ParserBounds
