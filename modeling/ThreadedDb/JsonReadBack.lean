import ThreadedDb.JsonGrammar
import ThreadedDb.DbApiModel

/-!
# Reading a written string back

`parse_json_string` on what `json_append_escaped_string` wrote. The writer has a `\u00XX` form
for the control bytes without a short escape, and the reader takes no unicode escapes.
-/
namespace JsonReadBack

open ByteText
open JsonModel
open JsonGrammar
open DbApiModel
open CheckedArray (bind_eq_ok)

def UnicodeEscaped (c : UInt8) : Prop := c < 32 ∧ c ≠ 9 ∧ c ≠ 10 ∧ c ≠ 13

instance (c : UInt8) : Decidable (UnicodeEscaped c) := by
  unfold UnicodeEscaped
  infer_instance

/-- How the writer spells a byte: as it is, by a short escape, or by four hexadecimal digits. -/
theorem jsonEscapeByte_cases (c : UInt8) :
    (¬ UnicodeEscaped c ∧ ¬ c < 32 ∧ c ≠ 34 ∧ c ≠ 92 ∧ jsonEscapeByte c = [c]) ∨
    (¬ UnicodeEscaped c ∧ ∃ e, (e, c) ∈ escapes ∧ jsonEscapeByte c = [92, e]) ∨
    (UnicodeEscaped c ∧ jsonEscapeByte c =
      [92, 117, 48, 48, hexDigit (c.toNat / 16), hexDigit (c.toNat % 16)]) := by
  by_cases hquote : c = 34
  · subst hquote
    exact .inr (.inl ⟨by decide, 34, by decide, rfl⟩)
  by_cases hslash : c = 92
  · subst hslash
    exact .inr (.inl ⟨by decide, 92, by decide, rfl⟩)
  by_cases hnewline : c = 10
  · subst hnewline
    exact .inr (.inl ⟨by decide, 110, by decide, rfl⟩)
  by_cases hreturn : c = 13
  · subst hreturn
    exact .inr (.inl ⟨by decide, 114, by decide, rfl⟩)
  by_cases htab : c = 9
  · subst htab
    exact .inr (.inl ⟨by decide, 116, by decide, rfl⟩)
  by_cases hcontrol : c < 32
  · refine .inr (.inr ⟨⟨hcontrol, htab, hnewline, hreturn⟩, ?_⟩)
    simp only [jsonEscapeByte, if_neg hquote, if_neg hslash, if_neg hnewline, if_neg hreturn,
      if_neg htab, if_pos hcontrol]
    rfl
  · refine .inl ⟨fun h => hcontrol h.1, hcontrol, hquote, hslash, ?_⟩
    simp only [jsonEscapeByte, if_neg hquote, if_neg hslash, if_neg hnewline, if_neg hreturn,
      if_neg htab, if_neg hcontrol]

theorem jsonStringBytes_plain {c : UInt8} (hcontrol : ¬ c < 32) (hquote : c ≠ 34)
    (hslash : c ≠ 92) (rest : Bytes) :
    jsonStringBytes (c :: rest) = (jsonStringBytes rest).map (fun p => (c :: p.1, p.2)) := by
  rw [jsonStringBytes.eq_def]
  dsimp only
  rw [if_neg hquote, if_neg hcontrol, if_neg hslash]
  cases jsonStringBytes rest with
  | error e => rfl
  | ok p => rfl

theorem jsonStringBytes_escape {e c : UInt8} (h : (e, c) ∈ escapes) (rest : Bytes) :
    jsonStringBytes (92 :: e :: rest) = (jsonStringBytes rest).map (fun p => (c :: p.1, p.2)) := by
  rw [jsonStringBytes.eq_def]
  dsimp only
  rw [if_neg (by decide), if_neg (by decide), if_pos rfl, unescape_iff.mpr h]
  dsimp only
  cases jsonStringBytes rest with
  | error e => rfl
  | ok p => rfl

theorem jsonStringBytes_unicode (rest : Bytes) :
    jsonStringBytes (92 :: 117 :: rest) = invalidJson (.lit "unsupported escape sequence") := by
  rw [jsonStringBytes.eq_def]
  rfl

theorem jsonStringBytes_written (text rest : Bytes) :
    jsonStringBytes (text.flatMap jsonEscapeByte ++ 34 :: rest) =
      if ∀ c ∈ text, ¬ UnicodeEscaped c then .ok (text, rest)
      else invalidJson (.lit "unsupported escape sequence") := by
  induction text with
  | nil => simpa using chars_complete .nil rest
  | cons c text ih =>
    rw [List.flatMap_cons, List.append_assoc]
    rcases jsonEscapeByte_cases c with ⟨hc, hcontrol, hquote, hslash, heq⟩ | ⟨hc, e, he, heq⟩ |
      ⟨hc, heq⟩
    · rw [heq, List.singleton_append, jsonStringBytes_plain hcontrol hquote hslash, ih]
      simp only [List.forall_mem_cons, hc, not_false_eq_true, true_and]
      split
      · rfl
      · rfl
    · rw [heq, List.cons_append, List.singleton_append, jsonStringBytes_escape he, ih]
      simp only [List.forall_mem_cons, hc, not_false_eq_true, true_and]
      split
      · rfl
      · rfl
    · rw [heq, if_neg (fun h => h c List.mem_cons_self hc)]
      exact jsonStringBytes_unicode _

/-- A written string is read back when no byte of it needs a unicode escape, and is refused
otherwise. -/
theorem written_string_read_back (s : CString) (rest : Bytes) :
    parseJsonString (jsonAppendEscapedString s ++ rest) =
      if ∀ c ∈ s.bytes, ¬ UnicodeEscaped c then .ok (s, rest)
      else invalidJson (.lit "unsupported escape sequence") := by
  have hinside : (jsonAppendEscapedString s ++ rest).drop 1 =
      s.bytes.flatMap jsonEscapeByte ++ 34 :: rest := by simp [jsonAppendEscapedString]
  unfold parseJsonString
  rw [if_neg (by simp [jsonAppendEscapedString]), hinside, jsonStringBytes_written]
  split
  · apply bind_eq_ok.mpr
    refine ⟨(s.bytes, rest), rfl, ?_⟩
    dsimp only
    rw [CString.ofBuffer_bytes]
  · rfl

/-- The byte 1 is written as `\u0001`, which the reader refuses. -/
theorem control_byte_not_read_back :
    ¬ ∀ (s : CString) (rest : Bytes),
      parseJsonString (jsonAppendEscapedString s ++ rest) = .ok (s, rest) := by
  intro h
  have hone := h ⟨[1], by decide⟩ []
  revert hone
  decide

end JsonReadBack
