import ThreadedDb.ParserBounds

/-!
# The grammar of statements

The sentences of the language as sequences of tokens, with the statement that each one means,
and the parser against them: a parser function accepts the tokens between two cursors exactly
when they form its part of the grammar, up to the one token that it looks ahead.
-/
namespace SqlGrammar

open ByteText
open SqlFrontEnd
open ParserBounds
open CheckedArray (ok_bind bind_eq_ok)

def Semicolons (ts : List Token) : Prop := ∀ t ∈ ts, t.type = .semicolon

inductive Ident : List Token → CString → Prop
  | mk {t : Token} : t.type = .identifier → Ident [t] t.text

inductive Literal : List Token → LiteralValue → Prop
  | string {t : Token} : t.type = .string → Literal [t] ⟨.string, t.text⟩
  | number {t : Token} : t.type = .number → Literal [t] ⟨.number, t.text⟩

inductive CommaTail {α : Type} (Item : List Token → α → Prop) : List Token → List α → Prop
  | nil : CommaTail Item [] []
  | cons {comma : Token} {ts rest : List Token} {a : α} {as : List α} : comma.type = .comma →
      Item ts a → CommaTail Item rest as → CommaTail Item (comma :: (ts ++ rest)) (a :: as)

inductive CommaList {α : Type} (Item : List Token → α → Prop) : List Token → List α → Prop
  | mk {ts rest : List Token} {a : α} {as : List α} : Item ts a → CommaTail Item rest as →
      CommaList Item (ts ++ rest) (a :: as)

inductive Columns : List Token → List CString → Prop
  | absent : Columns [] []
  | listed {l r : Token} {ts : List Token} {columns : List CString} : l.type = .lparen →
      CommaList Ident ts columns → r.type = .rparen → Columns (l :: (ts ++ [r])) columns

inductive SelectList : List Token → Bool × List CString → Prop
  | star {t : Token} : t.type = .star → SelectList [t] (true, [])
  | columns {ts : List Token} {columns : List CString} : CommaList Ident ts columns →
      SelectList ts (false, columns)

inductive Condition : List Token → Option WhereClause → Prop
  | absent : Condition [] none
  | given {w e : Token} {i v : List Token} {columnName : CString} {value : LiteralValue} :
      w.type = .where → Ident i columnName → e.type = .equal → Literal v value →
      Condition (w :: (i ++ e :: v)) (some ⟨columnName, value⟩)

inductive InsertRest : List Token → InsertStatement → Prop
  | mk {into val l r : Token} {t cs ls : List Token} {tableName : CString}
      {columns : List CString} {values : List LiteralValue} : into.type = .into →
      Ident t tableName → Columns cs columns → val.type = .values → l.type = .lparen →
      CommaList Literal ls values → r.type = .rparen →
      InsertRest (into :: (t ++ (cs ++ val :: l :: (ls ++ [r])))) ⟨tableName, columns, values⟩

inductive SelectRest : List Token → SelectStatement → Prop
  | mk {from_ : Token} {sl t w : List Token} {list : Bool × List CString} {tableName : CString}
      {clause : Option WhereClause} : SelectList sl list → from_.type = .from →
      Ident t tableName → Condition w clause →
      SelectRest (sl ++ from_ :: (t ++ w)) ⟨tableName, list.1, list.2, clause⟩

inductive Sentence : List Token → Statement → Prop
  | insert {k : Token} {ts : List Token} {stmt : InsertStatement} : k.type = .insert →
      InsertRest ts stmt → Sentence (k :: ts) (.insert stmt)
  | select {k : Token} {ts : List Token} {stmt : SelectStatement} : k.type = .select →
      SelectRest ts stmt → Sentence (k :: ts) (.select stmt)

/-- A text of one statement: semicolons, the statement, semicolons, EOF. -/
def OneStatement (tokens : List Token) (stmt : Statement) : Prop :=
  ∃ before body after eof, tokens = before ++ body ++ after ++ [eof] ∧ Semicolons before ∧
    Sentence body stmt ∧ Semicolons after ∧ eof.type = .eof

def Accepts {α : Type} (p : Parse α) (i : ℕ) (a : α) (j : ℕ) : Prop := p.start i = .ok (.ok a, j)

theorem accepts_bind {α β : Type} {p : Parse α} {f : α → Parse β} {i k : ℕ} {b : β} :
    Accepts (p >>= f) i b k ↔ ∃ a j, Accepts p i a j ∧ Accepts (f a) j b k := by
  unfold Accepts
  rw [start_bind]
  constructor
  · intro h
    split at h
    · cases h
    · cases h
    · rename_i a j hp
      exact ⟨a, j, hp, h⟩
  · rintro ⟨a, j, hp, hf⟩
    rw [hp]
    exact hf

theorem accepts_pure {α : Type} {a b : α} {i j : ℕ} :
    Accepts (pure a : Parse α) i b j ↔ a = b ∧ i = j := by
  constructor
  · intro h
    cases h
    exact ⟨rfl, rfl⟩
  · rintro ⟨rfl, rfl⟩
    rfl

theorem not_accepts_error {α : Type} {message : CString} {i j : ℕ} {a : α} :
    ¬ Accepts (parseError message : Parse α) i a j := by
  intro h
  cases h

section Tokens

variable {tokens : List Token}

structure Span (tokens : List Token) (i : ℕ) (ts : List Token) (j : ℕ) : Prop where
  text : tokens.drop i = ts ++ tokens.drop j
  stop : j = i + ts.length

theorem span_nil (i : ℕ) : Span tokens i [] i := ⟨rfl, rfl⟩

theorem span_append {i j k : ℕ} {a b : List Token} (h : Span tokens i a j)
    (h' : Span tokens j b k) : Span tokens i (a ++ b) k := by
  refine ⟨?_, ?_⟩
  · rw [h.text, h'.text, List.append_assoc]
  · rw [h'.stop, h.stop, List.length_append, Nat.add_assoc]

theorem span_split {i k : ℕ} {a b : List Token} (h : Span tokens i (a ++ b) k) :
    ∃ j, Span tokens i a j ∧ Span tokens j b k := by
  have hdrop : tokens.drop (i + a.length) = b ++ tokens.drop k := by
    rw [← List.drop_drop, h.text, List.append_assoc, List.drop_left]
  refine ⟨i + a.length, ⟨?_, rfl⟩, hdrop, ?_⟩
  · rw [hdrop, h.text, List.append_assoc]
  · rw [h.stop, List.length_append, Nat.add_assoc]

theorem span_one {i j : ℕ} {t : Token} :
    Span tokens i [t] j ↔ tokens[i]? = some t ∧ j = i + 1 := by
  constructor
  · intro h
    refine ⟨?_, h.stop⟩
    have hhead := congrArg List.head? h.text
    rwa [List.head?_drop] at hhead
  · rintro ⟨ht, rfl⟩
    refine ⟨?_, rfl⟩
    obtain ⟨hi, rfl⟩ := List.getElem?_eq_some_iff.mp ht
    exact List.drop_eq_getElem_cons hi

theorem span_length {i j : ℕ} {ts : List Token} (h : Span tokens i ts j) :
    ts.length ≤ tokens.length := by
  have hlen := congrArg List.length h.text
  rw [List.length_drop, List.length_append] at hlen
  omega

def NextIsNot (tokens : List Token) (i : ℕ) (type : TokenType) : Prop :=
  ∃ t, tokens[i]? = some t ∧ t.type ≠ type

theorem nextIsNot_of_span {i j : ℕ} {t : Token} {ts : List Token} (h : Span tokens i (t :: ts) j)
    {type : TokenType} (hne : t.type ≠ type) : NextIsNot tokens i type := by
  obtain ⟨k, hspan, -⟩ := span_split (a := [t]) h
  exact ⟨t, (span_one.mp hspan).1, hne⟩

theorem accepts_peek_iff {i j : ℕ} {t : Token} :
    Accepts (parserPeek tokens) i t j ↔ tokens[i]? = some t ∧ i = j := by
  cases ht : tokens[i]? with
  | none =>
    have hstart : (parserPeek tokens).start i = .error .outOfBounds := by
      change (tokenAt tokens i).start i = _
      unfold tokenAt
      rw [ht]
      rfl
    simp [Accepts, hstart]
  | some t' => simp [Accepts, peek_start ht]

theorem peek_fault {i : ℕ} (h : tokens[i]? = none) {α : Type} (f : Token → Parse α) (a : α)
    (j : ℕ) : ¬ Accepts (parserPeek tokens >>= f) i a j := by
  intro haccept
  obtain ⟨t, k, hpeek, -⟩ := accepts_bind.mp haccept
  rw [accepts_peek_iff, h] at hpeek
  cases hpeek.1

theorem accepts_match {type : TokenType} (htype : type ≠ .eof) {i j : ℕ} {b : Bool} :
    Accepts (parserMatch tokens type) i b j ↔
      (b = true ∧ ∃ t, t.type = type ∧ Span tokens i [t] j) ∨
        (b = false ∧ j = i ∧ NextIsNot tokens i type) := by
  cases ht : tokens[i]? with
  | none =>
    constructor
    · intro h
      exact absurd h (peek_fault ht _ _ _)
    · rintro (⟨-, t, -, hspan⟩ | ⟨-, -, t, hget, -⟩)
      · rw [span_one, ht] at hspan
        cases hspan.1
      · rw [ht] at hget
        cases hget
  | some t =>
    unfold Accepts
    rw [match_start ht htype]
    constructor
    · intro h
      split at h
      · rename_i hmatch
        cases h
        exact Or.inl ⟨rfl, t, hmatch, span_one.mpr ⟨ht, rfl⟩⟩
      · rename_i hmatch
        cases h
        exact Or.inr ⟨rfl, rfl, t, ht, hmatch⟩
    · rintro (⟨rfl, t', hmatch, hspan⟩ | ⟨rfl, rfl, t', hget, hmatch⟩)
      · obtain ⟨hget, rfl⟩ := span_one.mp hspan
        rw [ht] at hget
        cases hget
        rw [if_pos hmatch]
      · rw [ht] at hget
        cases hget
        rw [if_neg hmatch]

theorem accepts_expect {type : TokenType} (htype : type ≠ .eof) {message : CString} {i j : ℕ}
    {u : Unit} : Accepts (parserExpectWithMessage tokens type message) i u j ↔
      ∃ t, t.type = type ∧ Span tokens i [t] j := by
  unfold parserExpectWithMessage
  rw [accepts_bind]
  constructor
  · rintro ⟨b, k, hmatch, hrest⟩
    rcases (accepts_match htype).mp hmatch with ⟨rfl, hspan⟩ | ⟨rfl, -, -⟩
    · rw [if_pos rfl, accepts_pure] at hrest
      rw [← hrest.2]
      exact hspan
    · rw [if_neg (by simp)] at hrest
      exact absurd hrest not_accepts_error
  · intro hspan
    exact ⟨true, j, (accepts_match htype).mpr (Or.inl ⟨rfl, hspan⟩), accepts_pure.mpr ⟨rfl, rfl⟩⟩

theorem accepts_advance {i j : ℕ} {t : Token} {α : Type} {f : Token → Parse α} {a : α}
    (ht : tokens[i]? = some t) (htype : t.type ≠ .eof) :
    Accepts (parserAdvance tokens >>= f) i a j ↔ Accepts (f t) (i + 1) a j := by
  unfold Accepts
  rw [start_bind, advance_start ht htype]

theorem accepts_peek {i j : ℕ} {t : Token} {α : Type} {f : Token → Parse α} {a : α}
    (ht : tokens[i]? = some t) : Accepts (parserPeek tokens >>= f) i a j ↔ Accepts (f t) i a j := by
  unfold Accepts
  rw [start_bind, peek_start ht]

theorem accepts_identifier {i j : ℕ} {name : CString} :
    Accepts (parseIdentifier tokens) i name j ↔ ∃ ts, Span tokens i ts j ∧ Ident ts name := by
  unfold parseIdentifier
  constructor
  · intro h
    cases ht : tokens[i]? with
    | none => exact absurd h (peek_fault ht _ _ _)
    | some t =>
      rw [accepts_peek ht] at h
      split at h
      · exact absurd h not_accepts_error
      · rename_i hid
        have hid := not_not.mp hid
        rw [accepts_advance ht (by simp [hid]), accepts_pure] at h
        obtain ⟨rfl, rfl⟩ := h
        exact ⟨[t], span_one.mpr ⟨ht, rfl⟩, .mk hid⟩
  · rintro ⟨ts, hspan, hident⟩
    cases hident with
    | @mk t hid =>
      obtain ⟨ht, rfl⟩ := span_one.mp hspan
      rw [accepts_peek ht, if_neg (not_not.mpr hid), accepts_advance ht (by simp [hid]),
        accepts_pure]
      exact ⟨rfl, rfl⟩

theorem accepts_literal {i j : ℕ} {value : LiteralValue} :
    Accepts (parseLiteral tokens) i value j ↔ ∃ ts, Span tokens i ts j ∧ Literal ts value := by
  unfold parseLiteral
  constructor
  · intro h
    cases ht : tokens[i]? with
    | none => exact absurd h (peek_fault ht _ _ _)
    | some t =>
      rw [accepts_peek ht] at h
      split at h
      · rename_i hstring
        rw [accepts_advance ht (by simp [hstring]), accepts_pure] at h
        obtain ⟨rfl, rfl⟩ := h
        exact ⟨[t], span_one.mpr ⟨ht, rfl⟩, .string hstring⟩
      · rename_i hnumber
        rw [accepts_advance ht (by simp [hnumber]), accepts_pure] at h
        obtain ⟨rfl, rfl⟩ := h
        exact ⟨[t], span_one.mpr ⟨ht, rfl⟩, .number hnumber⟩
      · exact absurd h not_accepts_error
  · rintro ⟨ts, hspan, hliteral⟩
    cases hliteral with
    | @string t htype =>
      obtain ⟨ht, rfl⟩ := span_one.mp hspan
      rw [accepts_peek ht]
      simp only [htype]
      rw [accepts_advance ht (by simp [htype]), accepts_pure]
      exact ⟨rfl, rfl⟩
    | @number t htype =>
      obtain ⟨ht, rfl⟩ := span_one.mp hspan
      rw [accepts_peek ht]
      simp only [htype]
      rw [accepts_advance ht (by simp [htype]), accepts_pure]
      exact ⟨rfl, rfl⟩

section Lists

variable {α : Type} {item : Parse α} {Item : List Token → α → Prop}

theorem listTail_sound (hitem : ∀ i a j, Accepts item i a j → ∃ ts, Span tokens i ts j ∧ Item ts a)
    {rounds : ℕ} {items result : List α} {i j : ℕ}
    (h : Accepts (parseListTail tokens item rounds items) i result j) :
    ∃ ts more, Span tokens i ts j ∧ CommaTail Item ts more ∧ result = items ++ more := by
  induction rounds generalizing items i with
  | zero => cases h
  | succ rounds ih =>
    rw [parseListTail, accepts_bind] at h
    obtain ⟨b, k, hmatch, hrest⟩ := h
    rcases (accepts_match (by decide)).mp hmatch with ⟨rfl, comma, hcomma, hspan⟩ | ⟨rfl, rfl, -⟩
    · rw [if_pos rfl, accepts_bind] at hrest
      obtain ⟨next, l, hnext, htail⟩ := hrest
      obtain ⟨ts, hts, hnext⟩ := hitem _ _ _ hnext
      obtain ⟨rest, more, hrest, hmore, rfl⟩ := ih htail
      refine ⟨comma :: (ts ++ rest), next :: more, ?_, .cons hcomma hnext hmore, by simp⟩
      exact span_append hspan (span_append hts hrest)
    · rw [if_neg (by simp), accepts_pure] at hrest
      obtain ⟨rfl, rfl⟩ := hrest
      exact ⟨[], [], span_nil _, .nil, by simp⟩

/-- The rounds are enough when there are more of them than tokens in the list. -/
theorem listTail_complete
    (hitem : ∀ i ts a j, Span tokens i ts j → Item ts a → Accepts item i a j)
    {rounds : ℕ} {items more : List α} {ts : List Token} {i j : ℕ} (hmore : CommaTail Item ts more)
    (hspan : Span tokens i ts j) (hstop : NextIsNot tokens j .comma) (hrounds : ts.length < rounds) :
    Accepts (parseListTail tokens item rounds items) i (items ++ more) j := by
  induction hmore generalizing rounds items i with
  | nil =>
    obtain ⟨rounds, rfl⟩ : ∃ r, rounds = r + 1 := ⟨rounds - 1, by omega⟩
    obtain rfl : j = i := hspan.stop
    rw [parseListTail, accepts_bind]
    refine ⟨false, j, (accepts_match (by decide)).mpr (Or.inr ⟨rfl, rfl, hstop⟩), ?_⟩
    rw [if_neg (by simp), List.append_nil]
    rfl
  | @cons comma ts rest a as hcomma ha _ ih =>
    obtain ⟨rounds, rfl⟩ : ∃ r, rounds = r + 1 := ⟨rounds - 1, by omega⟩
    obtain ⟨k, hc, hafter⟩ := span_split (a := [comma]) hspan
    obtain ⟨l, hts, hrest⟩ := span_split hafter
    rw [parseListTail, accepts_bind]
    refine ⟨true, k, (accepts_match (by decide)).mpr (Or.inl ⟨rfl, comma, hcomma, hc⟩), ?_⟩
    rw [if_pos rfl, accepts_bind]
    refine ⟨a, l, hitem _ _ _ _ hts ha, ?_⟩
    have hrest : Accepts (parseListTail tokens item rounds (items ++ [a])) l
        (items ++ [a] ++ as) j := by
      refine ih hrest ?_
      rw [List.length_cons, List.length_append] at hrounds
      omega
    rwa [List.append_assoc] at hrest

theorem list_sound (hitem : ∀ i a j, Accepts item i a j → ∃ ts, Span tokens i ts j ∧ Item ts a)
    {result : List α} {i j : ℕ} (h : Accepts (parseList tokens item) i result j) :
    ∃ ts, Span tokens i ts j ∧ CommaList Item ts result := by
  obtain ⟨first, k, hfirst, htail⟩ := accepts_bind.mp h
  obtain ⟨ts, hts, hfirst⟩ := hitem _ _ _ hfirst
  obtain ⟨rest, more, hrest, hmore, rfl⟩ := listTail_sound hitem htail
  exact ⟨ts ++ rest, span_append hts hrest, .mk hfirst hmore⟩

theorem list_complete
    (hitem : ∀ i ts a j, Span tokens i ts j → Item ts a → Accepts item i a j)
    {result : List α} {ts : List Token} {i j : ℕ} (hspan : Span tokens i ts j)
    (h : CommaList Item ts result) (hstop : NextIsNot tokens j .comma) :
    Accepts (parseList tokens item) i result j := by
  cases h with
  | @mk ts rest a as ha hmore =>
    obtain ⟨k, hts, hrest⟩ := span_split hspan
    refine accepts_bind.mpr ⟨a, k, hitem _ _ _ _ hts ha, ?_⟩
    exact listTail_complete hitem hmore hrest hstop (Nat.lt_succ_of_le (span_length hrest))

end Lists

theorem identifiers_sound {i j : ℕ} {columns : List CString}
    (h : Accepts (parseIdentifierList tokens) i columns j) :
    ∃ ts, Span tokens i ts j ∧ CommaList Ident ts columns :=
  list_sound (fun _ _ _ ha => accepts_identifier.mp ha) h

theorem identifiers_complete {i j : ℕ} {ts : List Token} {columns : List CString}
    (hspan : Span tokens i ts j) (h : CommaList Ident ts columns)
    (hstop : NextIsNot tokens j .comma) : Accepts (parseIdentifierList tokens) i columns j :=
  list_complete (fun _ ts _ _ hts ha => accepts_identifier.mpr ⟨ts, hts, ha⟩) hspan h hstop

theorem literals_sound {i j : ℕ} {values : List LiteralValue}
    (h : Accepts (parseLiteralList tokens) i values j) :
    ∃ ts, Span tokens i ts j ∧ CommaList Literal ts values :=
  list_sound (fun _ _ _ ha => accepts_literal.mp ha) h

theorem literals_complete {i j : ℕ} {ts : List Token} {values : List LiteralValue}
    (hspan : Span tokens i ts j) (h : CommaList Literal ts values)
    (hstop : NextIsNot tokens j .comma) : Accepts (parseLiteralList tokens) i values j :=
  list_complete (fun _ ts _ _ hts ha => accepts_literal.mpr ⟨ts, hts, ha⟩) hspan h hstop

theorem columns_sound {i j : ℕ} {columns : List CString}
    (h : Accepts (parseInsertColumns tokens) i columns j) :
    ∃ ts, Span tokens i ts j ∧ Columns ts columns := by
  obtain ⟨b, k, hmatch, hrest⟩ := accepts_bind.mp h
  rcases (accepts_match (by decide)).mp hmatch with ⟨rfl, l, hl, hspan⟩ | ⟨rfl, rfl, -⟩
  · rw [if_pos rfl, accepts_bind] at hrest
    obtain ⟨names, m, hnames, hrest⟩ := hrest
    obtain ⟨u, n, hclose, hpure⟩ := accepts_bind.mp hrest
    obtain ⟨ts, hts, hnames⟩ := identifiers_sound hnames
    obtain ⟨r, hr, hspan'⟩ := (accepts_expect (by decide)).mp hclose
    obtain ⟨rfl, rfl⟩ := accepts_pure.mp hpure
    exact ⟨l :: (ts ++ [r]), span_append hspan (span_append hts hspan'), .listed hl hnames hr⟩
  · rw [if_neg (by simp), accepts_pure] at hrest
    obtain ⟨rfl, rfl⟩ := hrest
    exact ⟨[], span_nil _, .absent⟩

theorem columns_complete {i j : ℕ} {ts : List Token} {columns : List CString}
    (hspan : Span tokens i ts j) (h : Columns ts columns) (hstop : NextIsNot tokens j .lparen) :
    Accepts (parseInsertColumns tokens) i columns j := by
  cases h with
  | absent =>
    obtain rfl : j = i := hspan.stop
    refine accepts_bind.mpr ⟨false, j,
      (accepts_match (by decide)).mpr (Or.inr ⟨rfl, rfl, hstop⟩), ?_⟩
    rw [if_neg (by simp)]
    rfl
  | @listed l r ts _ hl hnames hr =>
    obtain ⟨k, hspanl, hafter⟩ := span_split (a := [l]) hspan
    obtain ⟨m, hts, hspanr⟩ := span_split hafter
    refine accepts_bind.mpr ⟨true, k,
      (accepts_match (by decide)).mpr (Or.inl ⟨rfl, l, hl, hspanl⟩), ?_⟩
    rw [if_pos rfl, accepts_bind]
    refine ⟨columns, m, identifiers_complete hts hnames
      (nextIsNot_of_span hspanr (by simp [hr])), accepts_bind.mpr ⟨(), j, ?_, rfl⟩⟩
    exact (accepts_expect (by decide)).mpr ⟨r, hr, hspanr⟩

theorem selectList_sound {i j : ℕ} {list : Bool × List CString}
    (h : Accepts (parseSelectList tokens) i list j) :
    ∃ ts, Span tokens i ts j ∧ SelectList ts list := by
  obtain ⟨b, k, hmatch, hrest⟩ := accepts_bind.mp h
  rcases (accepts_match (by decide)).mp hmatch with ⟨rfl, star, hstar, hspan⟩ | ⟨rfl, rfl, -⟩
  · rw [if_pos rfl, accepts_pure] at hrest
    obtain ⟨rfl, rfl⟩ := hrest
    exact ⟨[star], hspan, .star hstar⟩
  · rw [if_neg (by simp), accepts_bind] at hrest
    obtain ⟨names, m, hnames, hpure⟩ := hrest
    obtain ⟨ts, hts, hnames⟩ := identifiers_sound hnames
    obtain ⟨rfl, rfl⟩ := accepts_pure.mp hpure
    exact ⟨ts, hts, .columns hnames⟩

theorem identifiers_start {ts : List Token} {columns : List CString}
    (h : CommaList Ident ts columns) : ∃ t rest, ts = t :: rest ∧ t.type = .identifier := by
  cases h with
  | @mk ts rest a as ha hmore =>
    cases ha with
    | @mk t ht => exact ⟨t, rest, rfl, ht⟩

theorem selectList_complete {i j : ℕ} {ts : List Token} {list : Bool × List CString}
    (hspan : Span tokens i ts j) (h : SelectList ts list) (hstop : NextIsNot tokens j .comma) :
    Accepts (parseSelectList tokens) i list j := by
  cases h with
  | @star t ht =>
    refine accepts_bind.mpr ⟨true, j,
      (accepts_match (by decide)).mpr (Or.inl ⟨rfl, t, ht, hspan⟩), ?_⟩
    rw [if_pos rfl]
    rfl
  | @columns _ names hnames =>
    obtain ⟨t, rest, rfl, ht⟩ := identifiers_start hnames
    refine accepts_bind.mpr ⟨false, i, (accepts_match (by decide)).mpr
      (Or.inr ⟨rfl, rfl, nextIsNot_of_span hspan (by simp [ht])⟩), ?_⟩
    rw [if_neg (by simp), accepts_bind]
    exact ⟨names, j, identifiers_complete hspan hnames hstop, rfl⟩

theorem condition_sound {i j : ℕ} {clause : Option WhereClause}
    (h : Accepts (parseWhereClause tokens) i clause j) :
    ∃ ts, Span tokens i ts j ∧ Condition ts clause := by
  obtain ⟨b, k, hmatch, hrest⟩ := accepts_bind.mp h
  rcases (accepts_match (by decide)).mp hmatch with ⟨rfl, w, hw, hspan⟩ | ⟨rfl, rfl, -⟩
  · rw [if_pos rfl, accepts_bind] at hrest
    obtain ⟨name, l, hname, hrest⟩ := hrest
    obtain ⟨u, m, hequal, hrest⟩ := accepts_bind.mp hrest
    obtain ⟨value, n, hvalue, hpure⟩ := accepts_bind.mp hrest
    obtain ⟨is, his, hname⟩ := accepts_identifier.mp hname
    obtain ⟨e, he, hspane⟩ := (accepts_expect (by decide)).mp hequal
    obtain ⟨vs, hvs, hvalue⟩ := accepts_literal.mp hvalue
    obtain ⟨rfl, rfl⟩ := accepts_pure.mp hpure
    exact ⟨w :: (is ++ e :: vs), span_append hspan (span_append his (span_append hspane hvs)),
      .given hw hname he hvalue⟩
  · rw [if_neg (by simp), accepts_pure] at hrest
    obtain ⟨rfl, rfl⟩ := hrest
    exact ⟨[], span_nil _, .absent⟩

theorem condition_complete {i j : ℕ} {ts : List Token} {clause : Option WhereClause}
    (hspan : Span tokens i ts j) (h : Condition ts clause) (hstop : NextIsNot tokens j .where) :
    Accepts (parseWhereClause tokens) i clause j := by
  cases h with
  | absent =>
    obtain rfl : j = i := hspan.stop
    refine accepts_bind.mpr ⟨false, j,
      (accepts_match (by decide)).mpr (Or.inr ⟨rfl, rfl, hstop⟩), ?_⟩
    rw [if_neg (by simp)]
    rfl
  | @given w e is vs name value hw hname he hvalue =>
    obtain ⟨k, hspanw, hafter⟩ := span_split (a := [w]) hspan
    obtain ⟨l, his, hafter⟩ := span_split hafter
    obtain ⟨m, hspane, hvs⟩ := span_split (a := [e]) hafter
    refine accepts_bind.mpr ⟨true, k,
      (accepts_match (by decide)).mpr (Or.inl ⟨rfl, w, hw, hspanw⟩), ?_⟩
    rw [if_pos rfl, accepts_bind]
    refine ⟨name, l, accepts_identifier.mpr ⟨is, his, hname⟩, accepts_bind.mpr ⟨(), m, ?_, ?_⟩⟩
    · exact (accepts_expect (by decide)).mpr ⟨e, he, hspane⟩
    · exact accepts_bind.mpr ⟨value, j, accepts_literal.mpr ⟨vs, hvs, hvalue⟩, rfl⟩

theorem insert_sound {i j : ℕ} {stmt : InsertStatement} (h : Accepts (parseInsert tokens) i stmt j) :
    ∃ ts, Span tokens i ts j ∧ InsertRest ts stmt := by
  obtain ⟨_, i₁, hinto, h⟩ := accepts_bind.mp h
  obtain ⟨tableName, i₂, hname, h⟩ := accepts_bind.mp h
  obtain ⟨columns, i₃, hcolumns, h⟩ := accepts_bind.mp h
  obtain ⟨_, i₄, hval, h⟩ := accepts_bind.mp h
  obtain ⟨_, i₅, hopen, h⟩ := accepts_bind.mp h
  obtain ⟨values, i₆, hvalues, h⟩ := accepts_bind.mp h
  obtain ⟨_, i₇, hclose, h⟩ := accepts_bind.mp h
  obtain ⟨into, hin, hs₁⟩ := (accepts_expect (by decide)).mp hinto
  obtain ⟨ts, hs₂, hname⟩ := accepts_identifier.mp hname
  obtain ⟨cs, hs₃, hcolumns⟩ := columns_sound hcolumns
  obtain ⟨val, hv, hs₄⟩ := (accepts_expect (by decide)).mp hval
  obtain ⟨l, hl, hs₅⟩ := (accepts_expect (by decide)).mp hopen
  obtain ⟨ls, hs₆, hvalues⟩ := literals_sound hvalues
  obtain ⟨r, hr, hs₇⟩ := (accepts_expect (by decide)).mp hclose
  obtain ⟨rfl, rfl⟩ := accepts_pure.mp h
  refine ⟨_, ?_, .mk hin hname hcolumns hv hl hvalues hr⟩
  exact span_append hs₁ (span_append hs₂ (span_append hs₃ (span_append hs₄ (span_append hs₅
    (span_append hs₆ hs₇)))))

theorem insert_complete {i j : ℕ} {ts : List Token} {stmt : InsertStatement}
    (hspan : Span tokens i ts j) (h : InsertRest ts stmt) :
    Accepts (parseInsert tokens) i stmt j := by
  cases h with
  | @mk into val l r ts cs ls tableName columns values hin hname hcolumns hv hl hvalues hr =>
    obtain ⟨i₁, hs₁, hafter⟩ := span_split (a := [into]) hspan
    obtain ⟨i₂, hs₂, hafter⟩ := span_split hafter
    obtain ⟨i₃, hs₃, hafter⟩ := span_split hafter
    obtain ⟨i₄, hs₄, hafter⟩ := span_split (a := [val]) hafter
    obtain ⟨i₅, hs₅, hafter⟩ := span_split (a := [l]) hafter
    obtain ⟨i₆, hs₆, hs₇⟩ := span_split hafter
    refine accepts_bind.mpr ⟨(), i₁, (accepts_expect (by decide)).mpr ⟨into, hin, hs₁⟩, ?_⟩
    refine accepts_bind.mpr ⟨tableName, i₂, accepts_identifier.mpr ⟨ts, hs₂, hname⟩, ?_⟩
    refine accepts_bind.mpr ⟨columns, i₃, columns_complete hs₃ hcolumns
      (nextIsNot_of_span hs₄ (by simp [hv])), ?_⟩
    refine accepts_bind.mpr ⟨(), i₄, (accepts_expect (by decide)).mpr ⟨val, hv, hs₄⟩, ?_⟩
    refine accepts_bind.mpr ⟨(), i₅, (accepts_expect (by decide)).mpr ⟨l, hl, hs₅⟩, ?_⟩
    refine accepts_bind.mpr ⟨values, i₆, literals_complete hs₆ hvalues
      (nextIsNot_of_span hs₇ (by simp [hr])), ?_⟩
    exact accepts_bind.mpr ⟨(), j, (accepts_expect (by decide)).mpr ⟨r, hr, hs₇⟩, rfl⟩

theorem select_sound {i j : ℕ} {stmt : SelectStatement} (h : Accepts (parseSelect tokens) i stmt j) :
    ∃ ts, Span tokens i ts j ∧ SelectRest ts stmt := by
  obtain ⟨list, i₁, hlist, h⟩ := accepts_bind.mp h
  obtain ⟨_, i₂, hfrom, h⟩ := accepts_bind.mp h
  obtain ⟨tableName, i₃, hname, h⟩ := accepts_bind.mp h
  obtain ⟨clause, i₄, hclause, h⟩ := accepts_bind.mp h
  obtain ⟨sl, hs₁, hlist⟩ := selectList_sound hlist
  obtain ⟨f, hf, hs₂⟩ := (accepts_expect (by decide)).mp hfrom
  obtain ⟨ts, hs₃, hname⟩ := accepts_identifier.mp hname
  obtain ⟨ws, hs₄, hclause⟩ := condition_sound hclause
  obtain ⟨rfl, rfl⟩ := accepts_pure.mp h
  exact ⟨sl ++ f :: (ts ++ ws), span_append hs₁ (span_append hs₂ (span_append hs₃ hs₄)),
    .mk hlist hf hname hclause⟩

theorem select_complete {i j : ℕ} {ts : List Token} {stmt : SelectStatement}
    (hspan : Span tokens i ts j) (h : SelectRest ts stmt) (hstop : NextIsNot tokens j .where) :
    Accepts (parseSelect tokens) i stmt j := by
  cases h with
  | @mk f sl ts ws list tableName clause hlist hf hname hclause =>
    obtain ⟨i₁, hs₁, hafter⟩ := span_split hspan
    obtain ⟨i₂, hs₂, hafter⟩ := span_split (a := [f]) hafter
    obtain ⟨i₃, hs₃, hs₄⟩ := span_split hafter
    refine accepts_bind.mpr ⟨list, i₁, selectList_complete hs₁ hlist
      (nextIsNot_of_span hs₂ (by simp [hf])), ?_⟩
    refine accepts_bind.mpr ⟨(), i₂, (accepts_expect (by decide)).mpr ⟨f, hf, hs₂⟩, ?_⟩
    refine accepts_bind.mpr ⟨tableName, i₃, accepts_identifier.mpr ⟨ts, hs₃, hname⟩, ?_⟩
    exact accepts_bind.mpr ⟨clause, j, condition_complete hs₄ hclause hstop, rfl⟩

theorem keyword_sound {i j : ℕ} {stmt : Statement} (h : Accepts (parseByKeyword tokens) i stmt j) :
    ∃ ts, Span tokens i ts j ∧ Sentence ts stmt := by
  obtain ⟨b, k, hmatch, hrest⟩ := accepts_bind.mp h
  rcases (accepts_match (by decide)).mp hmatch with ⟨rfl, t, ht, hspan⟩ | ⟨rfl, rfl, -⟩
  · rw [if_pos rfl, accepts_bind] at hrest
    obtain ⟨insert, m, hinsert, hpure⟩ := hrest
    obtain ⟨ts, hts, hinsert⟩ := insert_sound hinsert
    obtain ⟨rfl, rfl⟩ := accepts_pure.mp hpure
    exact ⟨t :: ts, span_append hspan hts, .insert ht hinsert⟩
  rw [if_neg (by simp), accepts_bind] at hrest
  obtain ⟨b, l, hmatch, hrest⟩ := hrest
  rcases (accepts_match (by decide)).mp hmatch with ⟨rfl, t, ht, hspan⟩ | ⟨rfl, rfl, -⟩
  · rw [if_pos rfl, accepts_bind] at hrest
    obtain ⟨select, m, hselect, hpure⟩ := hrest
    obtain ⟨ts, hts, hselect⟩ := select_sound hselect
    obtain ⟨rfl, rfl⟩ := accepts_pure.mp hpure
    exact ⟨t :: ts, span_append hspan hts, .select ht hselect⟩
  · rw [if_neg (by simp)] at hrest
    exact absurd hrest not_accepts_error

theorem keyword_complete {i j : ℕ} {ts : List Token} {stmt : Statement} (hspan : Span tokens i ts j)
    (h : Sentence ts stmt) (hstop : NextIsNot tokens j .where) :
    Accepts (parseByKeyword tokens) i stmt j := by
  cases h with
  | @insert k ts insert hk hinsert =>
    obtain ⟨i₁, hs₁, hs₂⟩ := span_split (a := [k]) hspan
    refine accepts_bind.mpr ⟨true, i₁,
      (accepts_match (by decide)).mpr (Or.inl ⟨rfl, k, hk, hs₁⟩), ?_⟩
    rw [if_pos rfl, accepts_bind]
    exact ⟨insert, j, insert_complete hs₂ hinsert, rfl⟩
  | @select k ts select hk hselect =>
    obtain ⟨i₁, hs₁, hs₂⟩ := span_split (a := [k]) hspan
    refine accepts_bind.mpr ⟨false, i, (accepts_match (by decide)).mpr
      (Or.inr ⟨rfl, rfl, nextIsNot_of_span hspan (by simp [hk])⟩), ?_⟩
    rw [if_neg (by simp), accepts_bind]
    refine ⟨true, i₁, (accepts_match (by decide)).mpr (Or.inl ⟨rfl, k, hk, hs₁⟩), ?_⟩
    rw [if_pos rfl, accepts_bind]
    exact ⟨select, j, select_complete hs₂ hselect hstop, rfl⟩

theorem semicolons_sound {rounds i j : ℕ} {u : Unit}
    (h : Accepts (parserSkipSemicolons tokens rounds) i u j) :
    ∃ ts, Span tokens i ts j ∧ Semicolons ts := by
  induction rounds generalizing i with
  | zero => cases h
  | succ rounds ih =>
    rw [parserSkipSemicolons, accepts_bind] at h
    obtain ⟨b, k, hmatch, hrest⟩ := h
    rcases (accepts_match (by decide)).mp hmatch with ⟨rfl, t, ht, hspan⟩ | ⟨rfl, rfl, -⟩
    · rw [if_pos rfl] at hrest
      obtain ⟨ts, hts, hsemi⟩ := ih hrest
      refine ⟨t :: ts, span_append hspan hts, ?_⟩
      intro x hx
      rcases List.mem_cons.mp hx with rfl | hx
      · exact ht
      · exact hsemi x hx
    · rw [if_neg (by simp), accepts_pure] at hrest
      obtain ⟨-, rfl⟩ := hrest
      exact ⟨[], span_nil _, by simp [Semicolons]⟩

theorem semicolons_complete {rounds i j : ℕ} {ts : List Token} (hspan : Span tokens i ts j)
    (hsemi : Semicolons ts) (hstop : NextIsNot tokens j .semicolon) (hrounds : ts.length < rounds) :
    Accepts (parserSkipSemicolons tokens rounds) i () j := by
  induction ts generalizing rounds i with
  | nil =>
    obtain ⟨rounds, rfl⟩ : ∃ r, rounds = r + 1 := ⟨rounds - 1, by omega⟩
    obtain rfl : j = i := hspan.stop
    rw [parserSkipSemicolons, accepts_bind]
    refine ⟨false, j, (accepts_match (by decide)).mpr (Or.inr ⟨rfl, rfl, hstop⟩), ?_⟩
    rw [if_neg (by simp)]
    rfl
  | cons t ts ih =>
    obtain ⟨rounds, rfl⟩ : ∃ r, rounds = r + 1 := ⟨rounds - 1, by omega⟩
    obtain ⟨k, ht, hts⟩ := span_split (a := [t]) hspan
    rw [parserSkipSemicolons, accepts_bind]
    refine ⟨true, k, (accepts_match (by decide)).mpr
      (Or.inl ⟨rfl, t, hsemi t List.mem_cons_self, ht⟩), ?_⟩
    rw [if_pos rfl]
    rw [List.length_cons] at hrounds
    exact ih hts (fun x hx => hsemi x (List.mem_cons_of_mem _ hx)) (by omega)

theorem skip_span (tokens : List Token) (i : ℕ) :
    ∃ ts, Span tokens i ts (skipSemicolons tokens i) ∧ Semicolons ts := by
  refine ⟨(tokens.drop i).takeWhile (fun t => t.type = .semicolon), ⟨?_, rfl⟩, ?_⟩
  · have hcut := List.takeWhile_append_dropWhile (p := fun t : Token => decide (t.type = .semicolon))
      (l := tokens.drop i)
    have hdrop : (tokens.drop i).drop ((tokens.drop i).takeWhile
        (fun t => t.type = .semicolon)).length =
          (tokens.drop i).dropWhile (fun t => t.type = .semicolon) := by
      nth_rewrite 2 [← hcut]
      exact List.drop_left
    rw [skipSemicolons, ← List.drop_drop, hdrop, hcut]
  · intro t ht
    simpa using List.mem_takeWhile_imp ht

theorem skip_past {i j : ℕ} {ts : List Token} (hspan : Span tokens i ts j) (hsemi : Semicolons ts) :
    skipSemicolons tokens i = skipSemicolons tokens j := by
  unfold skipSemicolons
  rw [hspan.text, List.takeWhile_append_of_pos (fun t ht => by simpa using hsemi t ht),
    List.length_append, hspan.stop]
  omega

theorem skip_stop {i : ℕ} (h : NextIsNot tokens i .semicolon) : skipSemicolons tokens i = i := by
  obtain ⟨t, ht, hne⟩ := h
  obtain ⟨hi, rfl⟩ := List.getElem?_eq_some_iff.mp ht
  unfold skipSemicolons
  rw [List.drop_eq_getElem_cons hi, List.takeWhile_cons_of_neg (by simpa using hne)]
  rfl

theorem leading_sound {i j : ℕ} {ended : Bool} (h : Accepts (parseLeading tokens) i ended j) :
    ∃ ts, Span tokens i ts j ∧ Semicolons ts := by
  obtain ⟨_, k, hskip, hrest⟩ := accepts_bind.mp h
  obtain ⟨t, l, hpeek, hpure⟩ := accepts_bind.mp hrest
  obtain ⟨-, rfl⟩ := accepts_pure.mp hpure
  obtain ⟨-, rfl⟩ := accepts_peek_iff.mp hpeek
  exact semicolons_sound hskip

theorem leading_complete {i j : ℕ} {ts : List Token} {t : Token} (hspan : Span tokens i ts j)
    (hsemi : Semicolons ts) (ht : tokens[j]? = some t) (hne : t.type ≠ .semicolon) :
    Accepts (parseLeading tokens) i (decide (t.type = .eof)) j := by
  refine accepts_bind.mpr ⟨(), j, semicolons_complete hspan hsemi ⟨t, ht, hne⟩
    (Nat.lt_succ_of_le (span_length hspan)), ?_⟩
  rw [accepts_peek ht]
  rfl

theorem terminated_sound {i k : ℕ} {stmt : Statement}
    (h : Accepts (parseTerminated tokens) i stmt k) : ∃ ts j after, Span tokens i ts j ∧
      Sentence ts stmt ∧ Span tokens j after k ∧ Semicolons after := by
  obtain ⟨stmt', j, hstmt, hrest⟩ := accepts_bind.mp h
  obtain ⟨b, l, hmatch, hpure⟩ := accepts_bind.mp hrest
  obtain ⟨rfl, rfl⟩ := accepts_pure.mp hpure
  obtain ⟨ts, hts, hsentence⟩ := keyword_sound hstmt
  rcases (accepts_match (by decide)).mp hmatch with ⟨rfl, t, ht, hspan⟩ | ⟨rfl, rfl, -⟩
  · exact ⟨ts, j, [t], hts, hsentence, hspan, by simpa [Semicolons] using ht⟩
  · exact ⟨ts, l, [], hts, hsentence, span_nil l, by simp [Semicolons]⟩

theorem terminated_complete {i j : ℕ} {ts : List Token} {stmt : Statement}
    (hspan : Span tokens i ts j) (h : Sentence ts stmt) (hstop : NextIsNot tokens j .where) :
    ∃ after k, Accepts (parseTerminated tokens) i stmt k ∧ Span tokens j after k ∧
      Semicolons after := by
  have hstmt := keyword_complete hspan h hstop
  obtain ⟨t, ht, -⟩ := hstop
  by_cases hsemi : t.type = .semicolon
  · have hone : Span tokens j [t] (j + 1) := span_one.mpr ⟨ht, rfl⟩
    refine ⟨[t], j + 1, accepts_bind.mpr ⟨stmt, j, hstmt, accepts_bind.mpr ⟨true, j + 1, ?_, rfl⟩⟩,
      hone, by simpa [Semicolons] using hsemi⟩
    exact (accepts_match (by decide)).mpr (Or.inl ⟨rfl, t, hsemi, hone⟩)
  · refine ⟨[], j, accepts_bind.mpr ⟨stmt, j, hstmt, accepts_bind.mpr ⟨false, j, ?_, rfl⟩⟩,
      span_nil j, by simp [Semicolons]⟩
    exact (accepts_match (by decide)).mpr (Or.inr ⟨rfl, rfl, t, ht, hsemi⟩)

/-- A statement that is returned stands in the tokens, between semicolons. -/
theorem next_sound {cursor k : ℕ} {stmt : Statement}
    (h : parseNextStatement tokens cursor = .ok (.ok stmt, k)) :
    ∃ before body after i j, Span tokens cursor before i ∧ Semicolons before ∧
      Span tokens i body j ∧ Sentence body stmt ∧ Span tokens j after k ∧ Semicolons after := by
  unfold parseNextStatement at h
  split at h
  · cases h
  split at h
  · cases h
  obtain ⟨⟨r, i⟩, hlead, h⟩ := bind_eq_ok.mp h
  cases r with
  | error message => cases h
  | ok ended =>
    cases ended with
    | true => cases h
    | false =>
      dsimp only at h
      obtain ⟨⟨r, l⟩, hterm, h⟩ := bind_eq_ok.mp h
      cases r with
      | error message => cases h
      | ok stmt' =>
        cases h
        obtain ⟨before, hbefore, hsemi⟩ := leading_sound hlead
        obtain ⟨body, j, after, hbody, hsentence, hafter, hsemi'⟩ := terminated_sound hterm
        exact ⟨before, body, after, i, j, hbefore, hsemi, hbody, hsentence, hafter, hsemi'⟩

theorem sentence_start {ts : List Token} {stmt : Statement} (h : Sentence ts stmt) :
    ∃ t rest, ts = t :: rest ∧ (t.type = .insert ∨ t.type = .select) := by
  cases h with
  | @insert k ts _ hk _ => exact ⟨k, ts, rfl, Or.inl hk⟩
  | @select k ts _ hk _ => exact ⟨k, ts, rfl, Or.inr hk⟩

/-- A statement at the cursor, after semicolons, is returned, if no WHERE follows it. -/
theorem next_complete {cursor i j : ℕ} {before body : List Token} {stmt : Statement}
    (hbefore : Span tokens cursor before i) (hsemi : Semicolons before)
    (hbody : Span tokens i body j) (h : Sentence body stmt) (hstop : NextIsNot tokens j .where) :
    ∃ after k, parseNextStatement tokens cursor = .ok (.ok stmt, k) ∧ Span tokens j after k ∧
      Semicolons after := by
  obtain ⟨t, rest, rfl, ht⟩ := sentence_start h
  obtain ⟨l, hone, -⟩ := span_split (a := [t]) hbody
  have hget := (span_one.mp hone).1
  have hi := (List.getElem?_eq_some_iff.mp hget).1
  have hcursor : cursor ≤ i := by
    rw [hbefore.stop]
    omega
  have hlead := leading_complete hbefore hsemi hget (by rcases ht with ht | ht <;> simp [ht])
  have hne : t.type ≠ .eof := by rcases ht with ht | ht <;> simp [ht]
  rw [decide_eq_false hne] at hlead
  obtain ⟨after, k, hterm, hafter, hsemi'⟩ := terminated_complete hbody h hstop
  refine ⟨after, k, ?_, hafter, hsemi'⟩
  unfold parseNextStatement
  rw [if_neg (by rintro rfl; simp at hi), if_neg (by omega), show
    (parseLeading tokens).start cursor = _ from hlead, ok_bind]
  dsimp only
  rw [show (parseTerminated tokens).start i = _ from hterm, ok_bind]

theorem eof_last (h : EndsInEof tokens) {i : ℕ} {t : Token} (ht : tokens[i]? = some t)
    (heof : t.type = .eof) : tokens.drop i = [t] := by
  obtain ⟨body, eof, rfl, -, hbody⟩ := h
  obtain ⟨hi, hget⟩ := List.getElem?_eq_some_iff.mp ht
  rw [List.length_append, List.length_singleton] at hi
  by_cases hlt : i < body.length
  · rw [List.getElem_append_left hlt] at hget
    exact absurd heof (hbody t (hget ▸ List.getElem_mem hlt))
  · obtain rfl : i = body.length := by omega
    rw [List.getElem?_concat_length] at ht
    cases ht
    rw [List.drop_left]

/-- A statement found after leading semicolons, with only semicolons before EOF after it. -/
theorem oneStatement_of_next (h : EndsInEof tokens) {cursor k : ℕ} {pre : List Token}
    (hpre : Span tokens 0 pre cursor) (hsemi : Semicolons pre) {stmt : Statement}
    (hnext : parseNextStatement tokens cursor = .ok (.ok stmt, k))
    (hend : atEnd tokens (skipSemicolons tokens k) = true) : OneStatement tokens stmt := by
  obtain ⟨before, body, after, i, j, hbefore, hsemi₁, hbody, hsentence, hafter, hsemi₂⟩ :=
    next_sound hnext
  obtain ⟨more, hmore, hsemi₃⟩ := skip_span tokens k
  simp only [atEnd, decide_eq_true_eq, Option.map_eq_some_iff] at hend
  obtain ⟨eof, heof, htype⟩ := hend
  have htext := (span_append (span_append (span_append (span_append hpre hbefore) hbody)
    hafter) hmore).text
  rw [eof_last h heof htype, List.drop_zero] at htext
  refine ⟨pre ++ before, body, after ++ more, eof, ?_, ?_, hsentence, ?_, htype⟩
  · rw [htext]
    simp only [List.append_assoc]
  · intro t ht
    rcases List.mem_append.mp ht with ht | ht
    · exact hsemi t ht
    · exact hsemi₁ t ht
  · intro t ht
    rcases List.mem_append.mp ht with ht | ht
    · exact hsemi₂ t ht
    · exact hsemi₃ t ht

/-- The statement of a text is found from the start and from its first token. -/
theorem next_of_oneStatement {stmt : Statement} (h : OneStatement tokens stmt) :
    ∃ t, tokens[skipSemicolons tokens 0]? = some t ∧ (t.type = .insert ∨ t.type = .select) ∧
      ∀ cursor, cursor = 0 ∨ cursor = skipSemicolons tokens 0 →
        ∃ k, parseNextStatement tokens cursor = .ok (.ok stmt, k) ∧
          atEnd tokens (skipSemicolons tokens k) = true := by
  obtain ⟨before, body, after, eof, htext, hsemi, hsentence, hsemi', heof⟩ := h
  have hall : Span tokens 0 (before ++ body ++ after ++ [eof]) tokens.length := by
    refine ⟨?_, by rw [Nat.zero_add, htext]⟩
    rw [List.drop_zero, List.drop_length, List.append_nil, htext]
  obtain ⟨e, hall, hlast⟩ := span_split hall
  obtain ⟨j, hall, hafter⟩ := span_split hall
  obtain ⟨i, hbefore, hbody⟩ := span_split hall
  have hstop : NextIsNot tokens j .where := by
    cases after with
    | nil => exact nextIsNot_of_span (span_append hafter hlast) (by simp [heof])
    | cons t after =>
      exact nextIsNot_of_span hafter (by simp [hsemi' t List.mem_cons_self])
  obtain ⟨t, rest, hstart, htype⟩ := sentence_start hsentence
  have hne : t.type ≠ .semicolon := by rcases htype with htype | htype <;> simp [htype]
  have hfirst : Span tokens i (t :: rest) j := hstart ▸ hbody
  obtain ⟨l, hone, -⟩ := span_split (a := [t]) hfirst
  have hskip : skipSemicolons tokens 0 = i := by
    rw [skip_past hbefore hsemi]
    exact skip_stop (nextIsNot_of_span hfirst hne)
  -- wherever the statement leaves the cursor, the semicolons after it end at EOF
  have hfound (cursor : ℕ) (pre : List Token) (hpre : Span tokens cursor pre i)
      (hsemi : Semicolons pre) :
      ∃ k, parseNextStatement tokens cursor = .ok (.ok stmt, k) ∧
        atEnd tokens (skipSemicolons tokens k) = true := by
    obtain ⟨taken, k, hnext, htaken, hsemi''⟩ := next_complete hpre hsemi hbody hsentence hstop
    have hend : skipSemicolons tokens k = e := by
      rw [← skip_past htaken hsemi'', skip_past hafter hsemi']
      exact skip_stop (nextIsNot_of_span hlast (by simp [heof]))
    refine ⟨k, hnext, ?_⟩
    rw [hend, atEnd, (span_one.mp hlast).1]
    simp [heof]
  refine ⟨t, by rw [hskip]; exact (span_one.mp hone).1, htype, ?_⟩
  rintro cursor (rfl | rfl)
  · exact hfound 0 before hbefore hsemi
  · rw [hskip]
    exact hfound i [] (span_nil i) (by simp [Semicolons])

theorem parseStatement_sound (h : EndsInEof tokens) {stmt : Statement}
    (hparse : parseStatement tokens = .ok (.ok stmt)) : OneStatement tokens stmt := by
  unfold parseStatement at hparse
  obtain ⟨⟨r, k⟩, hnext, hparse⟩ := bind_eq_ok.mp hparse
  cases r with
  | error message => cases hparse
  | ok stmt' =>
    dsimp only at hparse
    split at hparse
    · rename_i hend
      cases hparse
      exact oneStatement_of_next h (span_nil 0) (by simp [Semicolons]) hnext hend
    · cases hparse

theorem parseStatement_complete {stmt : Statement} (h : OneStatement tokens stmt) :
    parseStatement tokens = .ok (.ok stmt) := by
  obtain ⟨t, -, -, hfound⟩ := next_of_oneStatement h
  obtain ⟨k, hnext, hend⟩ := hfound 0 (Or.inl rfl)
  unfold parseStatement
  rw [hnext, ok_bind]
  dsimp only
  rw [if_pos hend]

theorem parseStatement_total (h : EndsInEof tokens) : ∃ r, parseStatement tokens = .ok r := by
  have hpos : 0 < tokens.length := by
    obtain ⟨body, eof, rfl, -⟩ := h
    simp
  obtain ⟨r, k, hnext, -, -⟩ := parseNextStatement_total h hpos
  unfold parseStatement
  rw [hnext, ok_bind]
  cases r with
  | error message => exact ⟨_, rfl⟩
  | ok stmt =>
    dsimp only
    split
    · exact ⟨_, rfl⟩
    · exact ⟨_, rfl⟩

/-- `parse_statement` returns, and it returns a statement exactly when the tokens are a sentence
of the grammar that means it. -/
theorem parse_accepts_grammar (h : EndsInEof tokens) : (∃ r, parseStatement tokens = .ok r) ∧
    ∀ stmt, parseStatement tokens = .ok (.ok stmt) ↔ OneStatement tokens stmt :=
  ⟨parseStatement_total h, fun _ => ⟨parseStatement_sound h, parseStatement_complete⟩⟩

end Tokens

def queryTokens : List Token :=
  [⟨.semicolon, .lit ";"⟩, ⟨.select, .lit "SELECT"⟩, ⟨.identifier, .lit "name"⟩,
    ⟨.from, .lit "FROM"⟩, ⟨.identifier, .lit "users"⟩, ⟨.where, .lit "WHERE"⟩,
    ⟨.identifier, .lit "id"⟩, ⟨.equal, .lit "="⟩, ⟨.number, .lit "1"⟩, ⟨.eof, .empty⟩]

theorem query_tokens_accepted : EndsInEof queryTokens ∧ OneStatement queryTokens
    (.select ⟨.lit "users", false, [.lit "name"], some ⟨.lit "id", ⟨.number, .lit "1"⟩⟩⟩) := by
  have hends : EndsInEof queryTokens :=
    ⟨queryTokens.take 9, ⟨.eof, .empty⟩, by decide, rfl, by decide⟩
  refine ⟨hends, ((parse_accepts_grammar hends).2 _).mp ?_⟩
  decide +kernel

end SqlGrammar
