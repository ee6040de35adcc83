import ThreadedDb.StorageRoundTrip

/-!
# The lines that are rows

`split_escaped_row` cuts a line at its unescaped separators and `unescape_field` reads each
piece. A line that both accept is the encoding of the fields they return, and they accept a
line exactly when every escape in it is one that `escape_field` writes.
-/
namespace RowCodec

open ByteText
open StorageModel
open StorageRoundTrip

/-- The byte after each backslash that starts an escape, read from the left. -/
def escapeTails : Bytes → List (Option UInt8)
  | [] => []
  | [b] => if b = 92 then [none] else []
  | b :: c :: rest => if b = 92 then some c :: escapeTails rest else escapeTails (c :: rest)

/-- The escapes that `escape_field` writes; a dangling backslash has no byte after it. -/
def KnownEscape (tail : Option UInt8) : Prop := tail = some 92 ∨ tail = some 124 ∨ tail = some 110

def EscapesKnown (raw : Bytes) : Prop := ∀ tail ∈ escapeTails raw, KnownEscape tail

/-- What `current_raw` holds between two separators while no escape is pending. -/
inductive Piece : Bytes → Prop where
  | nil : Piece []
  | plain {b : UInt8} {rest : Bytes} (hslash : b ≠ 92) (hbar : b ≠ 124) (h : Piece rest) :
      Piece (b :: rest)
  | escape {c : UInt8} {rest : Bytes} (h : Piece rest) : Piece (92 :: c :: rest)

def Scanned (current : Bytes) : Bool → Prop
  | false => Piece current
  | true => ∃ raw, Piece raw ∧ current = raw ++ [92]

theorem unescape_slash {c : UInt8} {rest v : Bytes}
    (h : unescapeBytes (92 :: c :: rest) = some v) :
    ∃ d w, escapeByte d = [92, c] ∧ unescapeBytes rest = some w ∧ v = d :: w := by
  simp only [unescapeBytes, if_true] at h
  split at h
  · next hc =>
    obtain ⟨w, hw, rfl⟩ := Option.map_eq_some_iff.mp h
    exact ⟨92, w, by rw [hc]; rfl, hw, rfl⟩
  split at h
  · next hc =>
    obtain ⟨w, hw, rfl⟩ := Option.map_eq_some_iff.mp h
    exact ⟨124, w, by rw [hc]; rfl, hw, rfl⟩
  split at h
  · next hc =>
    obtain ⟨w, hw, rfl⟩ := Option.map_eq_some_iff.mp h
    exact ⟨10, w, by rw [hc]; rfl, hw, rfl⟩
  · cases h

theorem escapeTails_plain {b : UInt8} (hb : b ≠ 92) (rest : Bytes) :
    escapeTails (b :: rest) = escapeTails rest := by
  cases rest with
  | nil => simp [escapeTails, hb]
  | cons c rest => rw [escapeTails, if_neg hb]

theorem escapeTails_slash (c : UInt8) (rest : Bytes) :
    escapeTails (92 :: c :: rest) = some c :: escapeTails rest := by rw [escapeTails, if_pos rfl]

/-- `unescape_field` answers exactly when it knows every escape of the piece. -/
theorem unescape_isSome (raw : Bytes) : (unescapeBytes raw).isSome ↔ EscapesKnown raw := by
  unfold EscapesKnown
  induction raw using escapeTails.induct with
  | case1 => simp [unescapeBytes, escapeTails]
  | case2 => simp [unescapeBytes, escapeTails, KnownEscape]
  | case3 b hb => simp [unescapeBytes, escapeTails, hb]
  | case4 c rest ih =>
    rw [escapeTails_slash, unescapeBytes, if_pos rfl]
    by_cases h₁ : c = 92
    · simp [h₁, ih, KnownEscape]
    by_cases h₂ : c = 124
    · simp [h₂, ih, KnownEscape]
    by_cases h₃ : c = 110
    · simp [h₃, ih, KnownEscape]
    · simp [h₁, h₂, h₃, KnownEscape]
  | case5 b c rest hb ih => rw [unescape_plain hb, escapeTails_plain hb, Option.isSome_map, ih]

theorem piece_append {raw more : Bytes} (h : Piece raw) (hmore : Piece more) :
    Piece (raw ++ more) := by
  induction h with
  | nil => exact hmore
  | plain hslash hbar _ ih => exact .plain hslash hbar ih
  | escape _ ih => exact .escape ih

theorem escapeTails_piece {raw : Bytes} (h : Piece raw) (more : Bytes) :
    escapeTails (raw ++ more) = escapeTails raw ++ escapeTails more := by
  induction h with
  | nil => rfl
  | plain hslash _ _ ih =>
    rw [List.cons_append, escapeTails_plain hslash, escapeTails_plain hslash, ih]
  | escape _ ih =>
    rw [List.cons_append, List.cons_append, escapeTails_slash, escapeTails_slash, ih]
    rfl

theorem escape_unescape {raw v : Bytes} (h : Piece raw) (hnl : 10 ∉ raw)
    (hv : unescapeBytes raw = some v) : v.flatMap escapeByte = raw := by
  induction h generalizing v with
  | nil =>
    cases hv
    rfl
  | plain hslash hbar _ ih =>
    rw [unescape_plain hslash] at hv
    obtain ⟨w, hw, rfl⟩ := Option.map_eq_some_iff.mp hv
    rw [List.mem_cons, not_or] at hnl
    rw [List.flatMap_cons, ih hnl.2 hw, escapeByte_plain hslash hbar (Ne.symm hnl.1)]
    rfl
  | escape _ ih =>
    obtain ⟨d, w, hd, hw, rfl⟩ := unescape_slash hv
    have hrest := fun hmem => hnl (List.mem_cons_of_mem _ (List.mem_cons_of_mem _ hmem))
    rw [List.flatMap_cons, ih hrest hw, hd]
    rfl

theorem escapeField_unescapeField {raw : Bytes} {field : CString} (h : Piece raw)
    (hnl : 10 ∉ raw) (hnul : 0 ∉ raw) (hfield : unescapeField raw = some field) :
    escapeField field = raw := by
  obtain ⟨v, hv, rfl⟩ := Option.map_eq_some_iff.mp hfield
  have hback := escape_unescape h hnl hv
  -- a NUL in the field would have been one in the piece
  have hfree : 0 ∉ v := by
    intro hmem
    apply hnul
    rw [← hback]
    exact List.mem_flatMap.mpr ⟨0, hmem, by decide⟩
  rw [escapeField, CString.ofBuffer_bytes ⟨v, hfree⟩]
  exact hback

theorem scanned_nil : Scanned [] false := Piece.nil

theorem scanned_slash {current : Bytes} (h : Scanned current false) :
    Scanned (current ++ [92]) true := ⟨current, h, rfl⟩

theorem scanned_escaped {current : Bytes} (h : Scanned current true) (b : UInt8) :
    Scanned (current ++ [b]) false := by
  obtain ⟨raw, hraw, rfl⟩ := h
  rw [List.append_assoc]
  exact piece_append hraw (.escape .nil)

theorem scanned_plain {current : Bytes} (h : Scanned current false) {b : UInt8}
    (hslash : b ≠ 92) (hbar : b ≠ 124) : Scanned (current ++ [b]) false :=
  piece_append h (.plain hslash hbar .nil)

theorem splitFrom_bar (rest current : Bytes) (fields : List CString) :
    splitFrom (124 :: rest) fields current false =
      (unescapeField current).bind (fun field => splitFrom rest (fields ++ [field]) [] false) := by
  rw [splitFrom, if_neg (by decide), if_pos rfl]
  cases unescapeField current with
  | none => rfl
  | some field => rfl

theorem encodeFields_cons {row : Row} (hrow : row ≠ []) (field : CString) :
    encodeFields (field :: row) = escapeField field ++ 124 :: encodeFields row := by
  cases row with
  | nil => exact absurd rfl hrow
  | cons value row => rfl

/-- The fields read so far are kept, and those still to come encode the rest of the line. -/
theorem splitFrom_encodes {line : Bytes} {fields result : List CString} {current : Bytes}
    {pending : Bool} (hscan : Scanned current pending) (hnl : 10 ∉ current ++ line)
    (hnul : 0 ∉ current ++ line) (h : splitFrom line fields current pending = some result) :
    ∃ row, row ≠ [] ∧ result = fields ++ row ∧ encodeFields row = current ++ line := by
  induction line generalizing fields current pending with
  | nil =>
    rw [List.append_nil] at hnl hnul ⊢
    cases pending with
    | true => cases h
    | false =>
      rw [splitFrom, if_neg (by decide)] at h
      obtain ⟨field, hfield, rfl⟩ := Option.map_eq_some_iff.mp h
      exact ⟨[field], List.cons_ne_nil _ _, rfl,
        escapeField_unescapeField hscan hnl hnul hfield⟩
  | cons b rest ih =>
    rw [List.append_cons] at hnl hnul
    cases pending with
    | true =>
      rw [List.append_cons]
      exact ih (scanned_escaped hscan b) hnl hnul h
    | false =>
      by_cases hslash : b = 92
      · subst hslash
        rw [List.append_cons]
        exact ih (scanned_slash hscan) hnl hnul h
      by_cases hbar : b = 124
      · subst hbar
        simp only [List.mem_append, not_or] at hnl hnul
        rw [splitFrom_bar] at h
        obtain ⟨field, hfield, h⟩ := Option.bind_eq_some_iff.mp h
        obtain ⟨row, hrow, rfl, henc⟩ := ih scanned_nil hnl.2 hnul.2 h
        refine ⟨field :: row, List.cons_ne_nil _ _, by simp, ?_⟩
        rw [encodeFields_cons hrow, henc,
          escapeField_unescapeField hscan hnl.1.1 hnul.1.1 hfield]
        rfl
      · rw [splitFrom, if_neg hslash, if_neg hbar] at h
        rw [List.append_cons]
        exact ih (scanned_plain hscan hslash hbar) hnl hnul h

theorem splitFrom_isSome {line : Bytes} (fields : List CString) {current : Bytes}
    {pending : Bool} (hscan : Scanned current pending) :
    (splitFrom line fields current pending).isSome ↔ EscapesKnown (current ++ line) := by
  induction line generalizing fields current pending with
  | nil =>
    rw [List.append_nil]
    cases pending with
    | true =>
      obtain ⟨raw, hraw, rfl⟩ := hscan
      simp [splitFrom, EscapesKnown, escapeTails_piece hraw, escapeTails, KnownEscape]
    | false =>
      rw [splitFrom, if_neg (by decide), Option.isSome_map, unescapeField, Option.isSome_map]
      exact unescape_isSome current
  | cons b rest ih =>
    cases pending with
    | true =>
      rw [List.append_cons]
      exact ih fields (scanned_escaped hscan b)
    | false =>
      by_cases hslash : b = 92
      · subst hslash
        rw [List.append_cons]
        exact ih fields (scanned_slash hscan)
      by_cases hbar : b = 124
      · subst hbar
        have hcur := unescape_isSome current
        rw [splitFrom_bar, EscapesKnown, escapeTails_piece hscan, escapeTails_plain (by decide)]
        rw [List.forall_mem_append, ← EscapesKnown, ← EscapesKnown, ← hcur, unescapeField]
        cases unescapeBytes current with
        | none => simp
        | some v => simpa using ih (fields ++ [.ofBuffer v]) scanned_nil
      · rw [splitFrom, if_neg hslash, if_neg hbar, List.append_cons current b rest]
        exact ih fields (scanned_plain hscan hslash hbar)

/-- The codec is a bijection between the non-empty rows and the lines it accepts. -/
theorem row_codec_bijection :
    (∀ fields : Row, fields ≠ [] → 10 ∉ encodeFields fields ∧
      ∃ line : CString, line.bytes = encodeFields fields ∧ splitEscapedRow line = some fields) ∧
    (∀ (line : CString) (fields : Row), 10 ∉ line.bytes → splitEscapedRow line = some fields →
      fields ≠ [] ∧ encodeFields fields = line.bytes) ∧
    (∀ line : CString, 10 ∉ line.bytes → ((splitEscapedRow line).isSome ↔
      ∃ fields : Row, fields ≠ [] ∧ encodeFields fields = line.bytes)) ∧
    ∀ line : CString, splitEscapedRow line = none ↔
      ∃ tail ∈ escapeTails line.bytes, ¬ KnownEscape tail := by
  have hforward : ∀ fields : Row, fields ≠ [] →
      ∃ line : CString, line.bytes = encodeFields fields ∧ splitEscapedRow line = some fields :=
    fun fields hne => ⟨⟨encodeFields fields, (notMem_encodeFields fields).2⟩, rfl,
      splitFrom_encoded hne []⟩
  have hback : ∀ (line : CString) (fields : Row), 10 ∉ line.bytes →
      splitEscapedRow line = some fields → fields ≠ [] ∧ encodeFields fields = line.bytes := by
    intro line fields hnl h
    obtain ⟨row, hrow, rfl, henc⟩ := splitFrom_encodes scanned_nil hnl line.nulFree h
    exact ⟨hrow, henc⟩
  refine ⟨fun fields hne => ⟨(notMem_encodeFields fields).1, hforward fields hne⟩, hback, ?_, ?_⟩
  · intro line hnl
    constructor
    · intro h
      obtain ⟨fields, hfields⟩ := Option.isSome_iff_exists.mp h
      exact ⟨fields, hback line fields hnl hfields⟩
    · rintro ⟨fields, hne, henc⟩
      obtain ⟨line', hbytes, hsplit⟩ := hforward fields hne
      have hline : line' = line := CString.ext (hbytes.trans henc)
      rw [← hline, hsplit]
      rfl
  · intro line
    have hknown : (splitFrom line.bytes [] [] false).isSome ↔ EscapesKnown line.bytes :=
      splitFrom_isSome [] scanned_nil
    rw [← Option.not_isSome_iff_eq_none, splitEscapedRow, hknown]
    simp [EscapesKnown]

end RowCodec
