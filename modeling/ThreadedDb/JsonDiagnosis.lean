import ThreadedDb.JsonGrammar

/-!
# Which error a request body gets

`json_extract_string_field` has three ways to report a missing field, and checks the whole text on
one of them only. Behind an empty object and behind a value of the field that is not a string it
looks at nothing more.
-/
namespace JsonDiagnosis

open ByteText
open JsonModel
open JsonGrammar
open Scanning
open CheckedArray (ok_bind bind_eq_ok)

def EmptyThen (text rest : Bytes) : Prop :=
  ∃ before inner, text = before ++ 123 :: (inner ++ 125 :: rest) ∧ White before ∧ White inner

def WellFormed (text : Bytes) : Prop :=
  (∃ ms, Object text ms) ∨ ∃ rest, EmptyThen text rest ∧ White rest

inductive Passed (fieldName : CString) : Bytes → Prop
  | nil : Passed fieldName []
  | cons {b after rest : Bytes} {m : Member} : MemberText b m →
      (m.key = fieldName → m.value ≠ none) → White after → Passed fieldName rest →
      Passed fieldName (b ++ (after ++ 44 :: rest))

/-- The field's name, a value that is not a string, and what follows the value. -/
def NonStringMember (fieldName : CString) (b rest : Bytes) : Prop :=
  ∃ before k afterKey beforeValue value,
    b = before ++ (k ++ (afterKey ++ 58 :: (beforeValue ++ value))) ∧ White before ∧
      Quoted k fieldName ∧ White afterKey ∧ White beforeValue ∧ value.head? ≠ some 34 ∧
      consumeJsonValue value = .ok rest

/-- An object up to its first value of the field that is not a string, and what follows. -/
def NonStringThen (fieldName : CString) (text rest : Bytes) : Prop :=
  ∃ before passed b, text = before ++ 123 :: (passed ++ b) ∧ White before ∧
    Passed fieldName passed ∧ NonStringMember fieldName b rest

inductive Completes : Bytes → Prop
  | close {after tail : Bytes} : White after → White tail → Completes (after ++ 125 :: tail)
  | more {after t tail : Bytes} {ms : List Member} : White after → Members t ms → White tail →
      Completes (after ++ 44 :: (t ++ 125 :: tail))

def SyntaxOnly {α : Type} (x : Except JsonError α) : Prop :=
  ∀ e, x = .error e → e.status = .invalidJson

theorem syntaxOnly_ok {α : Type} (a : α) : SyntaxOnly (.ok a : Except JsonError α) := by
  intro e h
  cases h

theorem syntaxOnly_invalid {α : Type} (message : CString) :
    SyntaxOnly (invalidJson message : Except JsonError α) := by
  intro e h
  cases h
  rfl

theorem syntaxOnly_bind {α β : Type} {x : Except JsonError α} {f : α → Except JsonError β}
    (hx : SyntaxOnly x) (hf : ∀ a, SyntaxOnly (f a)) : SyntaxOnly (x >>= f) := by
  intro e h
  cases x with
  | error e' =>
    cases h
    exact hx e rfl
  | ok a => exact hf a e h

theorem syntaxOnly_ite {α : Type} {c : Prop} [Decidable c] {x y : Except JsonError α}
    (hx : SyntaxOnly x) (hy : SyntaxOnly y) : SyntaxOnly (if c then x else y) := by
  split
  · exact hx
  · exact hy

theorem stringBytes_syntaxOnly (b : Bytes) : SyntaxOnly (jsonStringBytes b) := by
  fun_induction jsonStringBytes b with
  | case1 => exact syntaxOnly_invalid _
  | case2 => exact syntaxOnly_ok _
  | case3 => exact syntaxOnly_invalid _
  | case4 => exact syntaxOnly_invalid _
  | case5 => exact syntaxOnly_invalid _
  | case6 _ _ _ _ e hrec _ _ ih =>
    rw [hrec] at ih
    exact ih
  | case7 => exact syntaxOnly_ok _
  | case8 _ _ _ _ _ e hrec ih =>
    rw [hrec] at ih
    exact ih
  | case9 => exact syntaxOnly_ok _

theorem string_syntaxOnly (b : Bytes) : SyntaxOnly (parseJsonString b) :=
  syntaxOnly_ite (syntaxOnly_invalid _)
    (syntaxOnly_bind (stringBytes_syntaxOnly _) fun _ => syntaxOnly_ok _)

theorem digits_syntaxOnly (message : CString) (b : Bytes) : SyntaxOnly (consumeDigits message b) :=
  syntaxOnly_ite (syntaxOnly_ok _) (syntaxOnly_invalid _)

theorem number_syntaxOnly (b : Bytes) : SyntaxOnly (consumeNumber b) := by
  apply syntaxOnly_bind (digits_syntaxOnly _ _)
  intro rest
  apply syntaxOnly_bind (syntaxOnly_ite (digits_syntaxOnly _ _) (syntaxOnly_ok _))
  intro rest
  apply syntaxOnly_bind (syntaxOnly_ite (digits_syntaxOnly _ _) (syntaxOnly_ok _))
  intro rest
  exact syntaxOnly_ite (syntaxOnly_invalid _) (syntaxOnly_ok _)

theorem value_syntaxOnly (b : Bytes) : SyntaxOnly (consumeJsonValue b) := by
  apply syntaxOnly_ite
  · exact syntaxOnly_bind (string_syntaxOnly b) fun _ => syntaxOnly_ok _
  apply syntaxOnly_ite (syntaxOnly_invalid _)
  apply syntaxOnly_ite (syntaxOnly_ok _)
  apply syntaxOnly_ite (syntaxOnly_ok _)
  apply syntaxOnly_ite (syntaxOnly_ok _)
  exact number_syntaxOnly b

/-- A member fails over its syntax, or over a value of the field that is not a string. -/
theorem member_error {fieldName : CString} {b : Bytes} {found : Option CString} {e : JsonError}
    (h : parseMember fieldName b found = .error e) :
    e.status = .invalidJson ∨
      e.status = .missingField ∧ ∃ rest, NonStringMember fieldName b rest := by
  unfold parseMember at h
  dsimp only at h
  split at h
  · cases h
    exact Or.inl rfl
  obtain ⟨before, hbefore, hwhite⟩ := skip_cut b
  cases hkey : parseJsonString (skipWhitespace b) with
  | error e' =>
    rw [hkey] at h
    cases h
    exact Or.inl (string_syntaxOnly _ e hkey)
  | ok r =>
    obtain ⟨key, rest₁⟩ := r
    rw [hkey] at h
    change (if _ then _ else _) = _ at h
    split at h
    · cases h
      exact Or.inl rfl
    rename_i hcolon
    obtain ⟨rest₂, hrest₂⟩ := List.head?_eq_some_iff.mp (not_not.mp hcolon)
    rw [hrest₂, List.drop_one, List.tail_cons] at h
    obtain ⟨k, hk, hquoted⟩ := string_sound hkey
    obtain ⟨afterKey, hafter, hwhite'⟩ := skip_cut rest₁
    obtain ⟨beforeValue, hspace, hwhite''⟩ := skip_cut rest₂
    unfold parseMemberValue at h
    split at h
    · rename_i hname
      subst hname
      split at h
      · rename_i hquote
        cases hvalue : consumeJsonValue (skipWhitespace rest₂) with
        | error e' =>
          rw [hvalue] at h
          cases h
          exact Or.inl (value_syntaxOnly _ e hvalue)
        | ok rest =>
          rw [hvalue] at h
          cases h
          refine Or.inr ⟨rfl, rest, before, k, afterKey, beforeValue, _, ?_, hwhite, hquoted,
            hwhite', hwhite'', hquote, hvalue⟩
          have hcut : skipWhitespace rest₁ = 58 :: rest₂ := hrest₂
          rw [← hspace, ← hcut, ← hafter, ← hk, ← hbefore]
      · exact Or.inl (syntaxOnly_bind (string_syntaxOnly _) (fun _ => syntaxOnly_ok _) e h)
    · exact Or.inl (syntaxOnly_bind (value_syntaxOnly _) (fun _ => syntaxOnly_ok _) e h)

theorem loop_error {fieldName : CString} {rounds : ℕ} {b : Bytes} {found : Option CString}
    {e : JsonError} (h : memberLoop fieldName rounds b found = .ok (.error e)) :
    e.status = .invalidJson ∨ e.status = .missingField ∧ ∃ passed b' rest, b = passed ++ b' ∧
      Passed fieldName passed ∧ NonStringMember fieldName b' rest := by
  induction rounds generalizing b found with
  | zero => cases h
  | succ rounds ih =>
    rw [memberLoop] at h
    cases hmember : parseMember fieldName b found with
    | error e' =>
      rw [hmember] at h
      cases h
      rcases member_error hmember with hsyntax | ⟨hmissing, rest, hrest⟩
      · exact Or.inl hsyntax
      · exact Or.inr ⟨hmissing, [], b, rest, rfl, .nil, hrest⟩
    | ok r =>
      obtain ⟨found₁, rest₁⟩ := r
      rw [hmember] at h
      dsimp only at h
      obtain ⟨t, m, rfl, ht, hm, -⟩ := member_sound hmember
      obtain ⟨after, hafter, hwhite⟩ := skip_cut rest₁
      split at h
      · rename_i hcomma
        obtain ⟨rest₂, hrest₂⟩ := List.head?_eq_some_iff.mp hcomma
        rw [hrest₂, List.drop_one, List.tail_cons] at h
        rcases ih h with hsyntax | ⟨hmissing, passed, b', rest, rfl, hpassed, hrest⟩
        · exact Or.inl hsyntax
        · refine Or.inr ⟨hmissing, t ++ (after ++ 44 :: passed), b', rest, ?_,
            .cons ht hm hwhite hpassed, hrest⟩
          rw [hafter, hrest₂]
          simp
      split at h
      · cases h
      · cases h
        exact Or.inl rfl

/-- A missing field is reported behind an empty object, behind a value that is not a string, or
at the end of an object. -/
theorem missing_cases {json fieldName : CString} {e : JsonError}
    (h : jsonExtractStringField json fieldName = .ok (.error e)) :
    e.status = .invalidJson ∨ e.status = .missingField ∧
      ((∃ rest, EmptyThen json.bytes rest) ∨ (∃ rest, NonStringThen fieldName json.bytes rest) ∨
        ∃ ms, Object json.bytes ms) := by
  unfold jsonExtractStringField at h
  dsimp only at h
  split at h
  · cases h
    exact Or.inl rfl
  rename_i hbrace
  obtain ⟨before, hbefore, hwhite⟩ := skip_cut json.bytes
  obtain ⟨rest, hrest⟩ := List.head?_eq_some_iff.mp (not_not.mp hbrace)
  rw [hrest] at hbefore
  rw [hrest, List.drop_one, List.tail_cons] at h
  obtain ⟨inner, hinner, hwhite'⟩ := skip_cut rest
  split at h
  · rename_i hclose
    cases h
    obtain ⟨tail, htail⟩ := List.head?_eq_some_iff.mp hclose
    refine Or.inr ⟨rfl, Or.inl ⟨tail, before, inner, ?_, hwhite, hwhite'⟩⟩
    rw [hbefore, ← htail, ← hinner]
  rw [loop_skip] at h
  obtain ⟨r, hloop, hresult⟩ := bind_eq_ok.mp h
  cases r with
  | error e' =>
    cases hresult
    rcases loop_error hloop with hsyntax | ⟨hmissing, passed, b, tail, rfl, hpassed, hb⟩
    · exact Or.inl hsyntax
    · exact Or.inr ⟨hmissing, Or.inr (Or.inl ⟨tail, before, passed, b, hbefore, hwhite, hpassed,
        hb⟩)⟩
  | ok r =>
    obtain ⟨found, tail⟩ := r
    obtain ⟨body, ms, rfl, hms, -, -⟩ := loop_sound hloop
    obtain ⟨after, hafter, hwhite''⟩ := skip_cut tail
    dsimp only at hresult
    split at hresult
    · cases hresult
      exact Or.inl rfl
    rename_i hend
    rw [not_not.mp hend, List.append_nil] at hafter
    subst hafter
    cases found with
    | none =>
      cases hresult
      exact Or.inr ⟨rfl, Or.inr (Or.inr ⟨ms, hbefore ▸ .mk hwhite hms hwhite''⟩)⟩
    | some value => cases hresult

def Missing (json fieldName : CString) : Prop :=
  ∃ e, jsonExtractStringField json fieldName = .ok (.error e) ∧ e.status = .missingField

theorem brace_stops (tail : Bytes) : Stops isJsonSpace (123 :: tail) := stops_cons (by decide) _

theorem empty_missing {json : CString} {rest : Bytes} (h : EmptyThen json.bytes rest)
    (fieldName : CString) : Missing json fieldName := by
  obtain ⟨before, inner, htext, hbefore, hinner⟩ := h
  refine ⟨⟨.missingField, setError (.lit "missing sql field")⟩, ?_, rfl⟩
  unfold jsonExtractStringField
  dsimp only
  rw [htext, skip_white hbefore (brace_stops _), List.head?_cons, if_neg (by simp), List.drop_one,
    List.tail_cons, skip_white hinner (stops_cons (by decide) _), List.head?_cons, if_pos rfl]
  rfl

theorem nonString_stops {value rest : Bytes} (h : consumeJsonValue value = .ok rest) :
    Stops isJsonSpace value := by
  obtain ⟨v, w, rfl, hv⟩ := value_sound h
  exact value_stops hv rest

theorem nonString_value {fieldName : CString} {b rest : Bytes}
    (h : NonStringMember fieldName b rest) (name : CString) (found : Option CString) :
    ∃ value, parseMember name b found = parseMemberValue name fieldName value found ∧
      value.head? ≠ some 34 ∧ consumeJsonValue value = .ok rest := by
  obtain ⟨before, k, afterKey, beforeValue, value, rfl, hwhite, hquoted, hwhite', hwhite'', hquote,
    hvalue⟩ := h
  refine ⟨value, ?_, hquote, hvalue⟩
  unfold parseMember
  dsimp only
  rw [skip_white hwhite (quoted_stops hquoted _), if_neg (not_not.mpr (quoted_start hquoted _)),
    string_complete hquoted _]
  change (if _ then _ else _) = _
  dsimp only
  rw [skip_white hwhite' (stops_cons (by decide) _), List.head?_cons, if_neg (by simp),
    List.drop_one, List.tail_cons, skip_white hwhite'' (nonString_stops hvalue)]

theorem skip_length (b : Bytes) : (skipWhitespace b).length ≤ b.length :=
  (List.dropWhile_sublist _).length_le

theorem loop_missing {fieldName : CString} {passed b rest : Bytes}
    (hpassed : Passed fieldName passed) (hb : NonStringMember fieldName b rest) :
    ∃ n ≤ (skipWhitespace (passed ++ b)).length, ∀ rounds found, n < rounds →
      memberLoop fieldName rounds (passed ++ b) found =
        .ok (missingField (.lit "sql field must be a string")) := by
  induction hpassed with
  | nil =>
    refine ⟨0, Nat.zero_le _, fun rounds found hrounds => ?_⟩
    obtain ⟨rounds, rfl⟩ : ∃ r, rounds = r + 1 := ⟨rounds - 1, by omega⟩
    obtain ⟨value, hmember, hquote, hvalue⟩ := nonString_value hb fieldName found
    rw [List.nil_append, memberLoop, hmember, parseMemberValue, if_pos rfl, if_pos hquote, hvalue]
    rfl
  | @cons t after passed m ht hm hafter _ ih =>
    obtain ⟨n, hn, hloop⟩ := ih
    refine ⟨n + 1, ?_, fun rounds found hrounds => ?_⟩
    · have hskip := skip_length (passed ++ b)
      cases ht with
      | mk hwhite hquoted _ _ _ =>
        simp only [List.append_assoc, List.cons_append]
        rw [skip_white hwhite (quoted_stops hquoted _)]
        simp only [List.length_append, List.length_cons] at hskip ⊢
        omega
    · obtain ⟨rounds, rfl⟩ : ∃ r, rounds = r + 1 := ⟨rounds - 1, by omega⟩
      simp only [List.append_assoc, List.cons_append]
      rw [memberLoop, member_complete ht hm (white_closed hafter (Or.inl rfl) _)]
      dsimp only
      rw [skip_white hafter (stops_cons (by decide) _), List.head?_cons, if_pos rfl, List.drop_one,
        List.tail_cons, hloop rounds _ (by omega)]

theorem passed_start {fieldName : CString} {passed b rest : Bytes}
    (hpassed : Passed fieldName passed) (hb : NonStringMember fieldName b rest) :
    (skipWhitespace (passed ++ b)).head? = some 34 := by
  cases hpassed with
  | nil =>
    obtain ⟨before, k, afterKey, beforeValue, value, rfl, hwhite, hquoted, -⟩ := hb
    rw [List.nil_append, skip_white hwhite (quoted_stops hquoted _)]
    exact quoted_start hquoted _
  | cons ht _ _ _ =>
    cases ht with
    | mk hwhite hquoted _ _ _ =>
      simp only [List.append_assoc]
      rw [skip_white hwhite (quoted_stops hquoted _)]
      exact quoted_start hquoted _

theorem nonString_missing {json fieldName : CString} {rest : Bytes}
    (h : NonStringThen fieldName json.bytes rest) : Missing json fieldName := by
  obtain ⟨before, passed, b, htext, hbefore, hpassed, hb⟩ := h
  obtain ⟨n, hn, hloop⟩ := loop_missing hpassed hb
  refine ⟨⟨.missingField, setError (.lit "sql field must be a string")⟩, ?_, rfl⟩
  unfold jsonExtractStringField
  dsimp only
  rw [htext, skip_white hbefore (brace_stops _), List.head?_cons, if_neg (by simp), List.drop_one,
    List.tail_cons, passed_start hpassed hb, if_neg (by decide), loop_skip,
    hloop _ none (by omega), ok_bind]
  rfl

theorem same_brace {before before' tail tail' : Bytes} (h : White before) (h' : White before')
    (heq : before ++ 123 :: tail = before' ++ 123 :: tail') : tail = tail' := by
  have hskip := congrArg skipWhitespace heq
  rw [skip_white h (brace_stops _), skip_white h' (brace_stops _)] at hskip
  exact (List.cons.inj hskip).2

theorem empty_wellFormed {text rest : Bytes} (h : EmptyThen text rest) (hwf : WellFormed text) :
    White rest := by
  obtain ⟨before, inner, rfl, hbefore, hinner⟩ := h
  have hskip : skipWhitespace (inner ++ 125 :: rest) = 125 :: rest :=
    skip_white hinner (stops_cons (by decide) _)
  rcases hwf with ⟨ms, hobject⟩ | ⟨rest', ⟨before', inner', heq, hbefore', hinner'⟩, hrest'⟩
  · generalize htext : before ++ 123 :: (inner ++ 125 :: rest) = text at hobject
    cases hobject with
    | mk hbefore' hbody hafter =>
      obtain ⟨w, body', rfl, hw, -, hquote⟩ := members_start hbody
      have hsame := congrArg skipWhitespace (same_brace hbefore hbefore' htext)
      rw [hskip, List.append_assoc, skip_white hw (quote_stops hquote _)] at hsame
      obtain ⟨more, rfl⟩ := List.head?_eq_some_iff.mp hquote
      cases hsame
  · have hsame := congrArg skipWhitespace (same_brace hbefore hbefore' heq)
    rw [hskip, skip_white hinner' (stops_cons (by decide) _)] at hsame
    exact (List.cons.inj hsame).2 ▸ hrest'

theorem fresh_name (a b : CString) : ∃ name : CString, a ≠ name ∧ b ≠ name := by
  refine ⟨a ++ b ++ .lit "x", ?_, ?_⟩
  · intro h
    have := congrArg (fun s : CString => s.bytes.length) h
    simp only [CString.bytes_append, List.length_append] at this
    have hx : (CString.lit "x").bytes.length = 1 := by decide
    omega
  · intro h
    have := congrArg (fun s : CString => s.bytes.length) h
    simp only [CString.bytes_append, List.length_append] at this
    have hx : (CString.lit "x").bytes.length = 1 := by decide
    omega

theorem member_end {t t' tail tail' : Bytes} {m m' : Member} (h : MemberText t m)
    (h' : MemberText t' m') (htail : Closed tail) (htail' : Closed tail')
    (heq : t ++ tail = t' ++ tail') : tail = tail' := by
  obtain ⟨name, hname, hname'⟩ := fresh_name m.key m'.key
  have hparse := member_complete h (fun hkey => absurd hkey hname) htail none
  rw [heq, member_complete h' (fun hkey => absurd hkey hname') htail' none] at hparse
  injection hparse with hpair
  exact (Prod.mk.inj hpair).2.symm

theorem nonString_end {fieldName : CString} {b rest t tail : Bytes} {m : Member}
    (hb : NonStringMember fieldName b rest) (ht : MemberText t m) (htail : Closed tail)
    (heq : b = t ++ tail) : rest = tail := by
  obtain ⟨name, hname, hname'⟩ := fresh_name fieldName m.key
  obtain ⟨value, hmember, -, hvalue⟩ := nonString_value hb name none
  rw [parseMemberValue, if_neg hname, hvalue, heq,
    member_complete ht (fun hkey => absurd hkey hname') htail none] at hmember
  injection hmember with hpair
  exact (Prod.mk.inj hpair).2.symm

theorem members_complete {fieldName : CString} {passed b rest t after : Bytes} {ms : List Member}
    (hpassed : Passed fieldName passed) (hb : NonStringMember fieldName b rest)
    (hms : Members t ms) (hafter : White after) (heq : passed ++ b = t ++ 125 :: after) :
    Completes rest := by
  induction hpassed generalizing t ms with
  | nil =>
    cases hms with
    | last ht hwhite =>
      rw [List.nil_append, List.append_assoc] at heq
      rw [nonString_end hb ht (white_closed hwhite (Or.inr rfl) _) heq]
      exact .close hwhite hafter
    | cons ht hwhite hms =>
      simp only [List.nil_append, List.append_assoc, List.cons_append] at heq
      rw [nonString_end hb ht (white_closed hwhite (Or.inl rfl) _) heq]
      exact .more hwhite hms hafter
  | cons hp _ hwhite' _ ih =>
    simp only [List.append_assoc, List.cons_append] at heq
    have hclosed := white_closed hwhite' (Or.inl rfl) (c := 44)
    cases hms with
    | last ht hwhite =>
      rw [List.append_assoc] at heq
      have hend := member_end hp ht (hclosed _) (white_closed hwhite (Or.inr rfl) _) heq
      have hskip := congrArg skipWhitespace hend
      rw [skip_white hwhite' (stops_cons (by decide) _),
        skip_white hwhite (stops_cons (by decide) _)] at hskip
      cases hskip
    | cons ht hwhite hms =>
      simp only [List.append_assoc, List.cons_append] at heq
      have hend := member_end hp ht (hclosed _) (white_closed hwhite (Or.inl rfl) _) heq
      have hskip := congrArg skipWhitespace hend
      rw [skip_white hwhite' (stops_cons (by decide) _),
        skip_white hwhite (stops_cons (by decide) _)] at hskip
      exact ih hms (List.cons.inj hskip).2

theorem nonString_wellFormed {fieldName : CString} {text rest : Bytes}
    (h : NonStringThen fieldName text rest) (hwf : WellFormed text) : Completes rest := by
  obtain ⟨before, passed, b, rfl, hbefore, hpassed, hb⟩ := h
  rcases hwf with ⟨ms, hobject⟩ | ⟨rest', ⟨before', inner, heq, hbefore', hinner⟩, -⟩
  · generalize htext : before ++ 123 :: (passed ++ b) = text at hobject
    cases hobject with
    | mk hbefore' hbody hafter =>
      exact members_complete hpassed hb hbody hafter (same_brace hbefore hbefore' htext)
  · have hstart := passed_start hpassed hb
    rw [same_brace hbefore hbefore' heq, skip_white hinner (stops_cons (by decide) _)] at hstart
    cases hstart

theorem passed_members {fieldName : CString} {passed t : Bytes} {ms : List Member}
    (hpassed : Passed fieldName passed) (ht : Members t ms) : ∃ ms', Members (passed ++ t) ms' := by
  induction hpassed with
  | nil => exact ⟨ms, ht⟩
  | cons hm _ hwhite _ ih =>
    obtain ⟨ms', hms'⟩ := ih
    simp only [List.append_assoc, List.cons_append]
    exact ⟨_, .cons hm hwhite hms'⟩

theorem completes_wellFormed {fieldName : CString} {text rest : Bytes}
    (h : NonStringThen fieldName text rest) (hrest : Completes rest) : WellFormed text := by
  obtain ⟨before, passed, b, rfl, hbefore, hpassed, before', k, afterKey, beforeValue, value, rfl,
    hwhite, hquoted, hwhite', hwhite'', -, hvalue⟩ := h
  obtain ⟨v, w, rfl, hv⟩ := value_sound hvalue
  have hmember := MemberText.mk hwhite hquoted hwhite' hwhite'' hv
  cases hrest with
  | close hafter htail =>
    obtain ⟨ms, hms⟩ := passed_members hpassed (.last hmember hafter)
    refine Or.inl ⟨ms, ?_⟩
    have hobject := Object.mk hbefore hms htail
    simpa only [List.append_assoc, List.cons_append] using hobject
  | more hafter hmore htail =>
    obtain ⟨ms, hms⟩ := passed_members hpassed (.cons hmember hafter hmore)
    refine Or.inl ⟨ms, ?_⟩
    have hobject := Object.mk hbefore hms htail
    simpa only [List.append_assoc, List.cons_append] using hobject

/-- The field is reported as missing for objects of the format only, and every other text is
reported as invalid. -/
def DiagnosedRight (json fieldName : CString) : Prop :=
  (Missing json fieldName → WellFormed json.bytes) ∧
    (¬ WellFormed json.bytes →
      ∃ e, jsonExtractStringField json fieldName = .ok (.error e) ∧ e.status = .invalidJson)

/-- The diagnosis is right exactly for the texts that do not go wrong behind an early exit. -/
theorem malformed_never_missing_iff (json fieldName : CString) : DiagnosedRight json fieldName ↔
    (∀ rest, EmptyThen json.bytes rest → White rest) ∧
      ∀ rest, NonStringThen fieldName json.bytes rest → Completes rest := by
  constructor
  · rintro ⟨hmissing, -⟩
    refine ⟨fun rest h => ?_, fun rest h => ?_⟩
    · exact empty_wellFormed h (hmissing (empty_missing h fieldName))
    · exact nonString_wellFormed h (hmissing (nonString_missing h))
  · rintro ⟨hempty, hnonString⟩
    have hmissing : Missing json fieldName → WellFormed json.bytes := by
      rintro ⟨e, hrun, hstatus⟩
      rcases missing_cases hrun with hinvalid | ⟨-, ⟨rest, h⟩ | ⟨rest, h⟩ | ⟨ms, h⟩⟩
      · rw [hstatus] at hinvalid
        cases hinvalid
      · exact Or.inr ⟨rest, h, hempty rest h⟩
      · exact completes_wellFormed h (hnonString rest h)
      · exact Or.inl ⟨ms, h⟩
    refine ⟨hmissing, fun hwf => ?_⟩
    obtain ⟨r, hrun⟩ := extract_total json fieldName
    cases r with
    | ok value =>
      obtain ⟨ms, hobject, -, -⟩ := extract_sound hrun
      exact absurd (Or.inl ⟨ms, hobject⟩) hwf
    | error e =>
      rcases missing_cases hrun with hinvalid | ⟨hstatus, -⟩
      · exact ⟨e, hrun, hinvalid⟩
      · exact absurd (hmissing ⟨e, hrun, hstatus⟩) hwf

/-- An empty object with a letter behind it, and an object that ends behind a number. -/
theorem early_exits_hide_errors :
    ¬ DiagnosedRight (.lit "\x7b\x7dx") (.lit "sql") ∧
      ¬ DiagnosedRight (.lit "\x7b\"sql\":1") (.lit "sql") := by
  constructor
  · rintro ⟨hmissing, -⟩
    have hempty : EmptyThen (CString.lit "\x7b\x7dx").bytes [120] :=
      ⟨[], [], by decide, by simp [White], by simp [White]⟩
    have hwhite := empty_wellFormed hempty (hmissing (empty_missing hempty _))
    exact absurd (hwhite 120 List.mem_cons_self) (by decide)
  · rintro ⟨hmissing, -⟩
    have hchars : Chars [115, 113, 108] (CString.lit "sql").bytes :=
      .plain (by decide) (by decide) (by decide) (.plain (by decide) (by decide) (by decide)
        (.plain (by decide) (by decide) (by decide) .nil))
    have hmember : NonStringMember (.lit "sql") [34, 115, 113, 108, 34, 58, 49] [] :=
      ⟨[], [34, 115, 113, 108, 34], [], [], [49], rfl, by simp [White], .mk hchars,
        by simp [White], by simp [White], by decide, by rfl⟩
    have hnumber : NonStringThen (.lit "sql") (CString.lit "\x7b\"sql\":1").bytes [] :=
      ⟨[], [], _, by decide, by simp [White], .nil, hmember⟩
    have hcompletes := nonString_wellFormed hnumber (hmissing (nonString_missing hnumber))
    generalize hrest : ([] : Bytes) = rest at hcompletes
    cases hcompletes with
    | close _ _ => simp at hrest
    | more _ _ _ => simp at hrest

end JsonDiagnosis
