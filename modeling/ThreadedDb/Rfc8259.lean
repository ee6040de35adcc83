import ThreadedDb.Scanning

/-!
# JSON texts

The grammar of RFC 8259 over bytes, with the value that each text stands for, and a decoder that
returns a value exactly for the texts of the grammar. Bytes from 128 on are taken as they are.
The grammar leaves the meaning of an unpaired surrogate open; here it is encoded like any other
code point.
-/
namespace Rfc8259

open Scanning

abbrev Bytes := List UInt8

inductive Json where
  | null
  | bool (value : Bool)
  | number (value : ℚ)
  | string (text : Bytes)
  | array (items : List Json)
  | object (members : List (Bytes × Json))

def isWhite (c : UInt8) : Bool := c = 32 || c = 9 || c = 10 || c = 13

def White (b : Bytes) : Prop := ∀ c ∈ b, isWhite c = true

/-- What a string is made of: bytes, and the code units of `\u` escapes. -/
inductive Piece where
  | byte (c : UInt8)
  | unit (u : ℕ)

def escapes : List (UInt8 × UInt8) :=
  [(34, 34), (92, 92), (47, 47), (98, 8), (102, 12), (110, 10), (114, 13), (116, 9)]

def hexValue (c : UInt8) : Option ℕ :=
  if 48 ≤ c ∧ c ≤ 57 then some (c.toNat - 48)
  else if 65 ≤ c ∧ c ≤ 70 then some (c.toNat - 55)
  else if 97 ≤ c ∧ c ≤ 102 then some (c.toNat - 87)
  else none

def codeUnit (h₁ h₂ h₃ h₄ : UInt8) : Option ℕ := do
  let d₁ ← hexValue h₁
  let d₂ ← hexValue h₂
  let d₃ ← hexValue h₃
  let d₄ ← hexValue h₄
  some (4096 * d₁ + 256 * d₂ + 16 * d₃ + d₄)

inductive Chars : Bytes → List Piece → Prop
  | nil : Chars [] []
  | plain {c : UInt8} {b : Bytes} {ps : List Piece} : ¬ c < 32 → c ≠ 34 → c ≠ 92 → Chars b ps →
      Chars (c :: b) (.byte c :: ps)
  | escape {e c : UInt8} {b : Bytes} {ps : List Piece} : (e, c) ∈ escapes → Chars b ps →
      Chars (92 :: e :: b) (.byte c :: ps)
  | unicode {h₁ h₂ h₃ h₄ : UInt8} {u : ℕ} {b : Bytes} {ps : List Piece} :
      codeUnit h₁ h₂ h₃ h₄ = some u → Chars b ps →
      Chars (92 :: 117 :: h₁ :: h₂ :: h₃ :: h₄ :: b) (.unit u :: ps)

def utf8 (u : ℕ) : Bytes :=
  if u < 128 then [UInt8.ofNat u]
  else if u < 2048 then [UInt8.ofNat (192 + u / 64), UInt8.ofNat (128 + u % 64)]
  else if u < 65536 then
    [UInt8.ofNat (224 + u / 4096), UInt8.ofNat (128 + u / 64 % 64), UInt8.ofNat (128 + u % 64)]
  else
    [UInt8.ofNat (240 + u / 262144), UInt8.ofNat (128 + u / 4096 % 64),
      UInt8.ofNat (128 + u / 64 % 64), UInt8.ofNat (128 + u % 64)]

def isPair (high low : ℕ) : Bool :=
  55296 ≤ high && high < 56320 && 56320 ≤ low && low < 57344

/-- The text that the pieces spell; a surrogate pair is one code point. -/
def spell : List Piece → Bytes
  | [] => []
  | .byte c :: ps => c :: spell ps
  | .unit u :: .unit v :: ps =>
    if isPair u v then utf8 (65536 + (u - 55296) * 1024 + (v - 56320)) ++ spell ps
    else utf8 u ++ spell (.unit v :: ps)
  | .unit u :: ps => utf8 u ++ spell ps

inductive Quoted : Bytes → Bytes → Prop
  | mk {b : Bytes} {ps : List Piece} : Chars b ps → Quoted (34 :: (b ++ [34])) (spell ps)

def isDigit (c : UInt8) : Bool := 48 ≤ c && c ≤ 57

def DigitRun (b : Bytes) : Prop := b ≠ [] ∧ ∀ c ∈ b, isDigit c = true

def natural (ds : Bytes) : ℕ := Nat.ofDigits 10 (ds.reverse.map (fun c => c.toNat - 48))

inductive Sign : Bytes → ℤ → Prop
  | plus : Sign [] 1
  | minus : Sign [45] (-1)

inductive Whole : Bytes → Prop
  | zero : Whole [48]
  | digits {c : UInt8} {ds : Bytes} : c ≠ 48 → DigitRun (c :: ds) → Whole (c :: ds)

inductive Fraction : Bytes → Bytes → Prop
  | absent : Fraction [] []
  | given {ds : Bytes} : DigitRun ds → Fraction (46 :: ds) ds

inductive ExponentSign : Bytes → ℤ → Prop
  | absent : ExponentSign [] 1
  | plus : ExponentSign [43] 1
  | minus : ExponentSign [45] (-1)

inductive Exponent : Bytes → ℤ → Prop
  | absent : Exponent [] 0
  | given {e : UInt8} {sign ds : Bytes} {s : ℤ} : e = 101 ∨ e = 69 → ExponentSign sign s →
      DigitRun ds → Exponent (e :: (sign ++ ds)) (s * natural ds)

inductive Number : Bytes → ℚ → Prop
  | mk {sign whole fraction ds exponent : Bytes} {s x : ℤ} : Sign sign s → Whole whole →
      Fraction fraction ds → Exponent exponent x →
      Number (sign ++ (whole ++ (fraction ++ exponent)))
        (s * natural (whole ++ ds) * 10 ^ (x - ds.length))

def trueWord : Bytes := [116, 114, 117, 101]
def falseWord : Bytes := [102, 97, 108, 115, 101]
def nullWord : Bytes := [110, 117, 108, 108]

inductive Scalar : Bytes → Json → Prop
  | null : Scalar nullWord .null
  | true : Scalar trueWord (.bool true)
  | false : Scalar falseWord (.bool false)
  | number {b : Bytes} {q : ℚ} : Number b q → Scalar b (.number q)
  | string {b text : Bytes} : Quoted b text → Scalar b (.string text)

/-- One or more items with commas between them and white space around them. -/
inductive Sequence {α : Type} (Item : Bytes → α → Prop) : Bytes → List α → Prop
  | last {before b after : Bytes} {a : α} : White before → Item b a → White after →
      Sequence Item (before ++ (b ++ after)) [a]
  | cons {before b after rest : Bytes} {a : α} {as : List α} : White before → Item b a →
      White after → Sequence Item rest as →
      Sequence Item (before ++ (b ++ (after ++ 44 :: rest))) (a :: as)

inductive Bracketed {α : Type} (opening closing : UInt8) (Item : Bytes → α → Prop) :
    Bytes → List α → Prop
  | empty {w : Bytes} : White w → Bracketed opening closing Item (opening :: (w ++ [closing])) []
  | items {b : Bytes} {as : List α} : Sequence Item b as →
      Bracketed opening closing Item (opening :: (b ++ [closing])) as

inductive Member (Item : Bytes → Json → Prop) : Bytes → Bytes × Json → Prop
  | mk {k key before after b : Bytes} {v : Json} : Quoted k key → White before → White after →
      Item b v → Member Item (k ++ (before ++ 58 :: (after ++ b))) (key, v)

/-- The values in which arrays and objects are nested at most `d` deep. -/
def Value : ℕ → Bytes → Json → Prop
  | 0, b, v => Scalar b v
  | d + 1, b, v => Scalar b v ∨ (∃ items, v = .array items ∧ Bracketed 91 93 (Value d) b items) ∨
      ∃ members, v = .object members ∧ Bracketed 123 125 (Member (Value d)) b members

def Document (text : Bytes) (v : Json) : Prop :=
  ∃ d before b after, text = before ++ (b ++ after) ∧ White before ∧ Value d b v ∧ White after

abbrev Reader (α : Type) := Bytes → Option (α × Bytes)

def skip (b : Bytes) : Bytes := b.dropWhile isWhite

def chars : Reader (List Piece)
  | [] => none
  | c :: b =>
    if c = 34 then some ([], b)
    else if c = 92 then
      match b with
      | [] => none
      | e :: b =>
        if e = 117 then
          match b with
          | h₁ :: h₂ :: h₃ :: h₄ :: b => do
            let u ← codeUnit h₁ h₂ h₃ h₄
            let (ps, rest) ← chars b
            some (.unit u :: ps, rest)
          | _ => none
        else do
          let c ← escapes.lookup e
          let (ps, rest) ← chars b
          some (.byte c :: ps, rest)
    else if c < 32 then none
    else do
      let (ps, rest) ← chars b
      some (.byte c :: ps, rest)

def quoted : Reader Bytes
  | [] => none
  | c :: b =>
    if c = 34 then do
      let (ps, rest) ← chars b
      some (spell ps, rest)
    else none

def sign (b : Bytes) : ℤ × Bytes := if b.head? = some 45 then (-1, b.drop 1) else (1, b)

def digitRun (b : Bytes) : Option (Bytes × Bytes) :=
  if b.takeWhile isDigit = [] then none else some (b.takeWhile isDigit, b.dropWhile isDigit)

def whole (b : Bytes) : Option (Bytes × Bytes) :=
  if b.head? = some 48 then some ([48], b.drop 1) else digitRun b

def fraction (b : Bytes) : Option (Bytes × Bytes) :=
  if b.head? = some 46 then digitRun (b.drop 1) else some ([], b)

def exponentSign (b : Bytes) : ℤ × Bytes :=
  if b.head? = some 43 then (1, b.drop 1) else sign b

def exponent (b : Bytes) : Option (ℤ × Bytes) :=
  if b.head? = some 101 ∨ b.head? = some 69 then do
    let (ds, rest) ← digitRun (exponentSign (b.drop 1)).2
    some ((exponentSign (b.drop 1)).1 * natural ds, rest)
  else some (0, b)

def number : Reader ℚ := fun b => do
  let (w, rest) ← whole (sign b).2
  let (ds, rest) ← fraction rest
  let (x, rest) ← exponent rest
  some ((sign b).1 * natural (w ++ ds) * 10 ^ (x - ds.length), rest)

def word (w : Bytes) (v : Json) : Reader Json := fun b =>
  if w <+: b then some (v, b.drop w.length) else none

def scalar : Reader Json := fun b =>
  if b.head? = some 34 then (quoted b).map (Prod.map .string id)
  else if b.head? = some 116 then word trueWord (.bool true) b
  else if b.head? = some 102 then word falseWord (.bool false) b
  else if b.head? = some 110 then word nullWord .null b
  else (number b).map (Prod.map .number id)

def sequence {α : Type} (closing : UInt8) (item : Reader α) : ℕ → Reader (List α)
  | 0, _ => none
  | n + 1, b => do
    let (a, rest) ← item (skip b)
    if (skip rest).head? = some 44 then do
      let (as, rest) ← sequence closing item n ((skip rest).drop 1)
      some (a :: as, rest)
    else if (skip rest).head? = some closing then some ([a], (skip rest).drop 1)
    else none

def bracketed {α : Type} (closing : UInt8) (item : Reader α) : Reader (List α) := fun b =>
  if (skip b).head? = some closing then some ([], (skip b).drop 1)
  else sequence closing item b.length b

def member (item : Reader Json) : Reader (Bytes × Json) := fun b => do
  let (key, rest) ← quoted b
  if (skip rest).head? = some 58 then do
    let (v, rest) ← item (skip ((skip rest).drop 1))
    some ((key, v), rest)
  else none

def value : ℕ → Reader Json
  | 0, b => scalar b
  | d + 1, b =>
    if b.head? = some 91 then
      (bracketed 93 (value d) (b.drop 1)).map (Prod.map .array id)
    else if b.head? = some 123 then
      (bracketed 125 (member (value d)) (b.drop 1)).map (Prod.map .object id)
    else scalar b

def decode (text : Bytes) : Option Json := do
  let (v, rest) ← value text.length (skip text)
  if skip rest = [] then some v else none

/-- What the reader takes is a text of the format, and it takes such a text off whatever may
follow it. -/
structure Reads {α : Type} (read : Reader α) (Text : Bytes → α → Prop) (Follow : Bytes → Prop) :
    Prop where
  sound : ∀ {b rest : Bytes} {a : α}, read b = some (a, rest) → ∃ t, b = t ++ rest ∧ Text t a
  complete : ∀ {t tail : Bytes} {a : α}, Text t a → Follow tail → read (t ++ tail) = some (a, tail)

theorem bind_some {α β : Type} {x : Option α} {f : α → Option β} {b : β} :
    (x >>= f) = some b ↔ ∃ a, x = some a ∧ f a = some b := Option.bind_eq_some_iff

theorem head_cut {b : Bytes} {c : UInt8} (h : b.head? = some c) : b = c :: b.drop 1 := by
  obtain ⟨tail, rfl⟩ := List.head?_eq_some_iff.mp h
  rfl

theorem skip_cut (b : Bytes) : ∃ w rest, b = w ++ rest ∧ White w ∧ skip b = rest := by
  obtain ⟨w, hcut, hwhite⟩ := scan_cut isWhite b
  exact ⟨w, _, hcut, hwhite, rfl⟩

theorem skip_white {w tail : Bytes} (hw : White w) (htail : Stops isWhite tail) :
    skip (w ++ tail) = tail := (takeWhile_stops hw htail).2

theorem skip_white_cons {w : Bytes} {c : UInt8} (hw : White w) (hc : isWhite c = false)
    (tail : Bytes) : skip (w ++ c :: tail) = c :: tail := skip_white hw (stops_cons hc tail)

theorem lookup_escapes {e c : UInt8} : escapes.lookup e = some c ↔ (e, c) ∈ escapes := by
  constructor
  · intro h
    obtain ⟨l₁, l₂, hsplit, -⟩ := List.lookup_eq_some_iff.mp h
    rw [hsplit]
    simp
  · intro h
    simp only [escapes, List.mem_cons, Prod.mk.injEq, List.not_mem_nil, or_false] at h
    rcases h with ⟨rfl, rfl⟩ | ⟨rfl, rfl⟩ | ⟨rfl, rfl⟩ | ⟨rfl, rfl⟩ | ⟨rfl, rfl⟩ | ⟨rfl, rfl⟩ |
      ⟨rfl, rfl⟩ | ⟨rfl, rfl⟩
    all_goals decide

theorem chars_sound {b rest : Bytes} {ps : List Piece} (h : chars b = some (ps, rest)) :
    ∃ s, b = s ++ 34 :: rest ∧ Chars s ps := by
  fun_induction chars b generalizing ps rest with
  | case1 => cases h
  | case2 =>
    cases h
    exact ⟨[], rfl, .nil⟩
  | case3 => cases h
  | case4 h₁ h₂ h₃ h₄ b _ ih =>
    obtain ⟨u, hu, h⟩ := bind_some.mp h
    obtain ⟨⟨ps', rest'⟩, hps, h⟩ := bind_some.mp h
    cases h
    obtain ⟨s, rfl, hs⟩ := ih hps
    exact ⟨_, rfl, .unicode hu hs⟩
  | case5 => cases h
  | case6 e b he _ ih =>
    obtain ⟨c, hc, h⟩ := bind_some.mp h
    obtain ⟨⟨ps', rest'⟩, hps, h⟩ := bind_some.mp h
    cases h
    obtain ⟨s, rfl, hs⟩ := ih hps
    exact ⟨_, rfl, .escape (lookup_escapes.mp hc) hs⟩
  | case7 => cases h
  | case8 c b hquote hslash hcontrol ih =>
    obtain ⟨⟨ps', rest'⟩, hps, h⟩ := bind_some.mp h
    cases h
    obtain ⟨s, rfl, hs⟩ := ih hps
    exact ⟨_, rfl, .plain hcontrol hquote hslash hs⟩

theorem chars_complete {s : Bytes} {ps : List Piece} (h : Chars s ps) (rest : Bytes) :
    chars (s ++ 34 :: rest) = some (ps, rest) := by
  have hnotUnit : ∀ p ∈ escapes, p.1 ≠ 117 := by simp [escapes]
  induction h with
  | nil =>
    rw [List.nil_append, chars.eq_def]
    rfl
  | @plain c b ps hcontrol hquote hslash _ ih =>
    rw [List.cons_append, chars.eq_def]
    dsimp only
    rw [if_neg hquote, if_neg hslash, if_neg hcontrol, ih]
    rfl
  | @escape e c b ps hmem _ ih =>
    rw [List.cons_append, List.cons_append, chars.eq_def]
    dsimp only
    rw [if_neg (by decide), if_pos rfl, if_neg (hnotUnit _ hmem), lookup_escapes.mpr hmem, ih]
    rfl
  | @unicode h₁ h₂ h₃ h₄ u b ps hu _ ih =>
    simp only [List.cons_append]
    rw [chars.eq_def]
    dsimp only
    rw [if_neg (by decide), if_pos rfl, if_pos rfl, hu, ih]
    rfl

theorem quoted_reads : Reads quoted Quoted (fun _ => True) where
  sound := by
    intro b rest text h
    cases b with
    | nil => cases h
    | cons c b =>
      simp only [quoted] at h
      split at h
      · rename_i hc
        obtain ⟨⟨ps, rest'⟩, hps, h⟩ := bind_some.mp h
        cases h
        obtain ⟨s, rfl, hs⟩ := chars_sound hps
        exact ⟨34 :: (s ++ [34]), by simp [hc], .mk hs⟩
      · cases h
  complete := by
    rintro t tail text ⟨hs⟩ -
    simp only [List.cons_append, List.append_assoc, List.nil_append, quoted, if_true]
    rw [chars_complete hs]
    rfl

def endsValue (c : UInt8) : Bool := isWhite c || c = 44 || c = 93 || c = 125

def Ends (tail : Bytes) : Prop := Stops (fun c => !endsValue c) tail

theorem digitRun_reads : Reads digitRun (fun t ds => t = ds ∧ DigitRun ds) (Stops isDigit) where
  sound := by
    intro b rest ds h
    unfold digitRun at h
    split at h
    · cases h
    · rename_i hne
      cases h
      exact ⟨_, List.takeWhile_append_dropWhile.symm, rfl, hne,
        fun c hc => List.mem_takeWhile_imp hc⟩
  complete := by
    rintro t tail ds ⟨rfl, hne, hdigits⟩ htail
    obtain ⟨htake, hdrop⟩ := takeWhile_stops hdigits htail
    unfold digitRun
    rw [htake, hdrop, if_neg hne]

theorem whole_reads : Reads whole (fun t ds => t = ds ∧ Whole ds) (Stops isDigit) where
  sound := by
    intro b rest ds h
    unfold whole at h
    split at h
    · rename_i hzero
      cases h
      exact ⟨[48], head_cut hzero, rfl, .zero⟩
    · rename_i hzero
      obtain ⟨t, rfl, rfl, hne, hdigits⟩ := digitRun_reads.sound h
      obtain ⟨c, ds, rfl⟩ := List.exists_cons_of_ne_nil hne
      exact ⟨_, rfl, rfl, .digits (by simpa using hzero) ⟨hne, hdigits⟩⟩
  complete := by
    rintro t tail ds ⟨rfl, hwhole⟩ htail
    unfold whole
    cases hwhole with
    | zero => rfl
    | digits hc hrun =>
      rw [if_neg (by simpa using hc)]
      exact digitRun_reads.complete ⟨rfl, hrun⟩ htail

theorem fraction_reads :
    Reads fraction Fraction (fun tail => Stops isDigit tail ∧ tail.head? ≠ some 46) where
  sound := by
    intro b rest ds h
    unfold fraction at h
    split at h
    · rename_i hdot
      obtain ⟨t, ht, rfl, hrun⟩ := digitRun_reads.sound h
      exact ⟨46 :: t, by rw [head_cut hdot, ht, List.cons_append], .given hrun⟩
    · cases h
      exact ⟨[], rfl, .absent⟩
  complete := by
    rintro t tail ds hfraction ⟨hdigit, hdot⟩
    unfold fraction
    cases hfraction with
    | absent => rw [List.nil_append, if_neg hdot]
    | given hrun =>
      rw [List.cons_append, List.head?_cons, if_pos rfl]
      exact digitRun_reads.complete ⟨rfl, hrun⟩ hdigit

theorem sign_sound (b : Bytes) : ∃ t, b = t ++ (sign b).2 ∧ Sign t (sign b).1 := by
  unfold sign
  split
  · rename_i hminus
    exact ⟨[45], head_cut hminus, .minus⟩
  · exact ⟨[], rfl, .plus⟩

theorem sign_complete {t tail : Bytes} {s : ℤ} (h : Sign t s) (htail : tail.head? ≠ some 45) :
    sign (t ++ tail) = (s, tail) := by
  unfold sign
  cases h with
  | plus => rw [List.nil_append, if_neg htail]
  | minus => rfl

theorem sign_exponentSign {t : Bytes} {s : ℤ} (h : Sign t s) : ExponentSign t s := by
  cases h with
  | plus => exact .absent
  | minus => exact .minus

theorem exponentSign_sound (b : Bytes) :
    ∃ t, b = t ++ (exponentSign b).2 ∧ ExponentSign t (exponentSign b).1 := by
  unfold exponentSign
  split
  · rename_i hplus
    exact ⟨[43], head_cut hplus, .plus⟩
  · obtain ⟨t, ht, hsign⟩ := sign_sound b
    exact ⟨t, ht, sign_exponentSign hsign⟩

theorem exponentSign_complete {t tail : Bytes} {s : ℤ} (h : ExponentSign t s)
    (hplus : tail.head? ≠ some 43) (hminus : tail.head? ≠ some 45) :
    exponentSign (t ++ tail) = (s, tail) := by
  unfold exponentSign
  cases h with
  | absent =>
    rw [List.nil_append, if_neg hplus]
    exact sign_complete .plus hminus
  | plus => rfl
  | minus => rfl

theorem digitRun_head {ds : Bytes} (h : DigitRun ds) {c : UInt8} (hc : isDigit c = false)
    (tail : Bytes) : (ds ++ tail).head? ≠ some c := by
  obtain ⟨hne, hdigits⟩ := h
  obtain ⟨d, ds, rfl⟩ := List.exists_cons_of_ne_nil hne
  intro heq
  cases heq
  rw [hdigits c List.mem_cons_self] at hc
  cases hc

theorem ends_other (c : UInt8) (h : endsValue c = true) :
    isDigit c = false ∧ c ≠ 46 ∧ c ≠ 101 ∧ c ≠ 69 := by
  simp only [endsValue, isWhite, isDigit] at *
  grind

theorem ends_head {tail : Bytes} (h : Ends tail) {c : UInt8} (hc : endsValue c = false) :
    tail.head? ≠ some c := by
  intro heq
  have hend : endsValue c = true := by simpa using h c heq
  rw [hc] at hend
  cases hend

theorem ends_digits {tail : Bytes} (h : Ends tail) : Stops isDigit tail := by
  intro c hc
  have hend : endsValue c = true := by simpa using h c hc
  exact (ends_other c hend).1

theorem exponent_reads : Reads exponent Exponent Ends where
  sound := by
    intro b rest x h
    unfold exponent at h
    split at h
    · rename_i hletter
      obtain ⟨⟨ds, rest'⟩, hds, h⟩ := bind_some.mp h
      cases h
      obtain ⟨t, ht, rfl, hrun⟩ := digitRun_reads.sound hds
      obtain ⟨signText, hsign, hs⟩ := exponentSign_sound (b.drop 1)
      rw [ht] at hsign
      rcases hletter with he | he
      · exact ⟨101 :: (signText ++ t), by rw [head_cut he, hsign]; simp, .given (.inl rfl) hs hrun⟩
      · exact ⟨69 :: (signText ++ t), by rw [head_cut he, hsign]; simp, .given (.inr rfl) hs hrun⟩
    · cases h
      exact ⟨[], rfl, .absent⟩
  complete := by
    rintro t tail x hexponent htail
    unfold exponent
    cases hexponent with
    | absent =>
      rw [List.nil_append, if_neg]
      rintro (he | he)
      · exact ends_head htail (by decide) he
      · exact ends_head htail (by decide) he
    | @given e sign ds s he hsign hrun =>
      rw [if_pos (by simpa using he), List.cons_append, List.drop_one, List.tail_cons,
        List.append_assoc, exponentSign_complete hsign (digitRun_head hrun (by decide) tail)
          (digitRun_head hrun (by decide) tail),
        digitRun_reads.complete ⟨rfl, hrun⟩ (ends_digits htail)]
      rfl

/-- What follows the digits of a number goes on with a point, an exponent or the end. -/
theorem exponent_follows {t tail : Bytes} {x : ℤ} (h : Exponent t x) (htail : Ends tail) :
    Stops isDigit (t ++ tail) ∧ (t ++ tail).head? ≠ some 46 := by
  cases h with
  | absent => exact ⟨ends_digits htail, ends_head htail (by decide)⟩
  | given he _ _ =>
    rcases he with rfl | rfl
    · exact ⟨stops_cons (by decide) _, by simp⟩
    · exact ⟨stops_cons (by decide) _, by simp⟩

theorem fraction_follows {t ds tail : Bytes} (h : Fraction t ds) (htail : Stops isDigit tail) :
    Stops isDigit (t ++ tail) := by
  cases h with
  | absent => exact htail
  | given _ => exact stops_cons (by decide) _

theorem whole_head {t tail : Bytes} (h : Whole t) : (t ++ tail).head? ≠ some 45 := by
  cases h with
  | zero => simp
  | digits _ hrun => exact digitRun_head hrun (by decide) tail

theorem number_reads : Reads number Number Ends where
  sound := by
    intro b rest q h
    obtain ⟨⟨w, rest₁⟩, hw, h⟩ := bind_some.mp h
    obtain ⟨⟨ds, rest₂⟩, hds, h⟩ := bind_some.mp h
    obtain ⟨⟨x, rest₃⟩, hx, h⟩ := bind_some.mp h
    cases h
    obtain ⟨signText, hsign, hs⟩ := sign_sound b
    obtain ⟨t₁, ht₁, rfl, hwhole⟩ := whole_reads.sound hw
    obtain ⟨t₂, ht₂, hfraction⟩ := fraction_reads.sound hds
    obtain ⟨t₃, ht₃, hexponent⟩ := exponent_reads.sound hx
    refine ⟨signText ++ (t₁ ++ (t₂ ++ t₃)), ?_, .mk hs hwhole hfraction hexponent⟩
    rw [hsign, ht₁, ht₂, ht₃]
    simp
  complete := by
    rintro t tail q ⟨hsign, hwhole, hfraction, hexponent⟩ htail
    rename_i signText w f ds e s x
    have hafter := exponent_follows hexponent htail
    have hcut : sign (signText ++ (w ++ (f ++ (e ++ tail)))) = (s, w ++ (f ++ (e ++ tail))) :=
      sign_complete hsign (whole_head hwhole)
    simp only [List.append_assoc, number, hcut]
    rw [whole_reads.complete ⟨rfl, hwhole⟩ (fraction_follows hfraction hafter.1)]
    simp only [Option.bind_eq_bind, Option.bind_some]
    rw [fraction_reads.complete hfraction hafter]
    simp only [Option.bind_some]
    rw [exponent_reads.complete hexponent htail]
    rfl

def startsValue (c : UInt8) : Bool :=
  isDigit c || c = 45 || c = 34 || c = 116 || c = 102 || c = 110 || c = 91 || c = 123

def Starts (t : Bytes) : Prop := ∃ c rest, t = c :: rest ∧ startsValue c = true

theorem starts_other (c : UInt8) (h : startsValue c = true) :
    isWhite c = false ∧ c ≠ 93 ∧ c ≠ 125 := by
  refine ⟨?_, ?_, ?_⟩
  · by_contra hwhite
    simp only [isWhite, Bool.not_eq_false, Bool.or_eq_true, decide_eq_true_eq] at hwhite
    rcases hwhite with ((rfl | rfl) | rfl) | rfl <;> exact absurd h (by decide)
  · rintro rfl
    exact absurd h (by decide)
  · rintro rfl
    exact absurd h (by decide)

theorem number_start {t : Bytes} {q : ℚ} (h : Number t q) :
    ∃ c rest, t = c :: rest ∧ (isDigit c = true ∨ c = 45) := by
  obtain ⟨hsign, hwhole, -, -⟩ := h
  cases hsign with
  | plus =>
    cases hwhole with
    | zero => exact ⟨48, _, rfl, .inl (by decide)⟩
    | digits _ hrun => exact ⟨_, _, rfl, .inl (hrun.2 _ List.mem_cons_self)⟩
  | minus => exact ⟨45, _, rfl, .inr rfl⟩

theorem number_head (c : UInt8) (h : isDigit c = true ∨ c = 45) :
    startsValue c = true ∧ c ≠ 34 ∧ c ≠ 116 ∧ c ≠ 102 ∧ c ≠ 110 ∧ c ≠ 91 ∧ c ≠ 123 := by
  simp only [startsValue, isDigit] at *
  grind

theorem scalar_start {t : Bytes} {v : Json} (h : Scalar t v) :
    ∃ c rest, t = c :: rest ∧ startsValue c = true ∧ c ≠ 91 ∧ c ≠ 123 := by
  cases h with
  | null => exact ⟨110, _, rfl, by decide, by decide, by decide⟩
  | true => exact ⟨116, _, rfl, by decide, by decide, by decide⟩
  | false => exact ⟨102, _, rfl, by decide, by decide, by decide⟩
  | number hnumber =>
    obtain ⟨c, rest, rfl, hc⟩ := number_start hnumber
    have hother := number_head c hc
    exact ⟨c, rest, rfl, hother.1, hother.2.2.2.2.2.1, hother.2.2.2.2.2.2⟩
  | string hquoted =>
    obtain ⟨-⟩ := hquoted
    exact ⟨34, _, rfl, by decide, by decide, by decide⟩

theorem word_reads (w : Bytes) (v : Json) :
    Reads (word w v) (fun t a => t = w ∧ a = v) (fun _ => True) where
  sound := by
    intro b rest a h
    unfold word at h
    split at h
    · rename_i hprefix
      cases h
      obtain ⟨tail, rfl⟩ := hprefix
      exact ⟨w, by rw [List.drop_left], rfl, rfl⟩
    · cases h
  complete := by
    rintro t tail a ⟨rfl, rfl⟩ -
    unfold word
    rw [if_pos (List.prefix_append _ _), List.drop_left]

theorem map_some {α β : Type} {x : Option (α × Bytes)} {f : α → β} {b : β} {rest : Bytes} :
    x.map (Prod.map f id) = some (b, rest) ↔ ∃ a, x = some (a, rest) ∧ f a = b := by
  constructor
  · intro h
    obtain ⟨⟨a, rest'⟩, hx, heq⟩ := Option.map_eq_some_iff.mp h
    cases heq
    exact ⟨a, hx, rfl⟩
  · rintro ⟨a, rfl, rfl⟩
    rfl

theorem scalar_reads : Reads scalar Scalar Ends where
  sound := by
    intro b rest v h
    unfold scalar at h
    split at h
    · obtain ⟨text, htext, rfl⟩ := map_some.mp h
      obtain ⟨t, rfl, hquoted⟩ := quoted_reads.sound htext
      exact ⟨t, rfl, .string hquoted⟩
    split at h
    · obtain ⟨t, rfl, rfl, rfl⟩ := (word_reads _ _).sound h
      exact ⟨_, rfl, .true⟩
    split at h
    · obtain ⟨t, rfl, rfl, rfl⟩ := (word_reads _ _).sound h
      exact ⟨_, rfl, .false⟩
    split at h
    · obtain ⟨t, rfl, rfl, rfl⟩ := (word_reads _ _).sound h
      exact ⟨_, rfl, .null⟩
    · obtain ⟨q, hq, rfl⟩ := map_some.mp h
      obtain ⟨t, rfl, hnumber⟩ := number_reads.sound hq
      exact ⟨t, rfl, .number hnumber⟩
  complete := by
    rintro t tail v hscalar htail
    unfold scalar
    cases hscalar with
    | null =>
      have hhead : (nullWord ++ tail).head? = some 110 := rfl
      rw [hhead, if_neg (by decide), if_neg (by decide), if_neg (by decide), if_pos rfl]
      exact (word_reads _ _).complete ⟨rfl, rfl⟩ trivial
    | true =>
      have hhead : (trueWord ++ tail).head? = some 116 := rfl
      rw [hhead, if_neg (by decide), if_pos rfl]
      exact (word_reads _ _).complete ⟨rfl, rfl⟩ trivial
    | false =>
      have hhead : (falseWord ++ tail).head? = some 102 := rfl
      rw [hhead, if_neg (by decide), if_neg (by decide), if_pos rfl]
      exact (word_reads _ _).complete ⟨rfl, rfl⟩ trivial
    | number hnumber =>
      obtain ⟨c, rest, hcut, hc⟩ := number_start hnumber
      have hother := number_head c hc
      have hhead : (t ++ tail).head? = some c := by rw [hcut, List.cons_append, List.head?_cons]
      have hne {d : UInt8} (hd : c ≠ d) : ¬ some c = some d := fun h => hd (Option.some.inj h)
      rw [hhead, if_neg (hne hother.2.1), if_neg (hne hother.2.2.1), if_neg (hne hother.2.2.2.1),
        if_neg (hne hother.2.2.2.2.1), number_reads.complete hnumber htail]
      rfl
    | string hquoted =>
      have hhead : (t ++ tail).head? = some 34 := by
        obtain ⟨-⟩ := hquoted
        rfl
      rw [if_pos hhead, quoted_reads.complete hquoted trivial]
      rfl

theorem ends_behind {after : Bytes} {c : UInt8} (hafter : White after) (hc : endsValue c = true)
    (tail : Bytes) : Ends (after ++ c :: tail) := by
  intro d hd
  have hend : endsValue d = true := by
    cases after with
    | nil =>
      cases hd
      exact hc
    | cons w after =>
      cases hd
      unfold endsValue
      rw [hafter d List.mem_cons_self]
      rfl
  simp [hend]

section Items

variable {α : Type} {item : Reader α} {Item : Bytes → α → Prop} {closing : UInt8}

theorem skip_item (hstart : ∀ t a, Item t a → Starts t) {before t : Bytes} {a : α}
    (hbefore : White before) (h : Item t a) (tail : Bytes) :
    skip (before ++ (t ++ tail)) = t ++ tail := by
  obtain ⟨c, rest, rfl, hc⟩ := hstart _ _ h
  exact skip_white_cons hbefore (starts_other c hc).1 _

theorem sequence_sound (hitem : Reads item Item Ends) {n : ℕ} {b rest : Bytes} {as : List α}
    (h : sequence closing item n b = some (as, rest)) :
    ∃ t, b = t ++ closing :: rest ∧ Sequence Item t as := by
  induction n generalizing b rest as with
  | zero => cases h
  | succ n ih =>
    obtain ⟨⟨a, rest₁⟩, ha, hnext⟩ := bind_some.mp h
    obtain ⟨before, rest₀, rfl, hwhite, hskip⟩ := skip_cut b
    rw [hskip] at ha
    obtain ⟨t, rfl, hItem⟩ := hitem.sound ha
    obtain ⟨after, rest₂, rfl, hwhite', hskip'⟩ := skip_cut rest₁
    dsimp only at hnext
    rw [hskip'] at hnext
    split at hnext
    · rename_i hcomma
      obtain ⟨⟨as', rest₃⟩, has, hok⟩ := bind_some.mp hnext
      cases hok
      obtain ⟨t', ht', hseq⟩ := ih has
      refine ⟨before ++ (t ++ (after ++ 44 :: t')), ?_, .cons hwhite hItem hwhite' hseq⟩
      rw [head_cut hcomma, ht']
      simp
    split at hnext
    · rename_i hclosing
      cases hnext
      refine ⟨before ++ (t ++ after), ?_, .last hwhite hItem hwhite'⟩
      rw [head_cut hclosing]
      simp
    · cases hnext

theorem sequence_complete (hitem : Reads item Item Ends) (hstart : ∀ t a, Item t a → Starts t)
    (hclosing : closing = 93 ∨ closing = 125) {t : Bytes} {as : List α} (h : Sequence Item t as)
    {n : ℕ} (hn : t.length ≤ n) (tail : Bytes) :
    sequence closing item n (t ++ closing :: tail) = some (as, tail) := by
  have hother : isWhite closing = false ∧ endsValue closing = true ∧ some closing ≠ some 44 := by
    rcases hclosing with rfl | rfl
    · decide
    · decide
  induction h generalizing n with
  | @last before b after a hbefore hItem hafter =>
    obtain ⟨c, rest, hb, -⟩ := hstart _ _ hItem
    cases n with
    | zero => simp [hb] at hn
    | succ n =>
      simp only [sequence, List.append_assoc]
      rw [skip_item hstart hbefore hItem,
        hitem.complete hItem (ends_behind hafter hother.2.1 tail)]
      simp only [Option.bind_eq_bind, Option.bind_some]
      rw [skip_white_cons hafter hother.1, List.head?_cons, if_neg hother.2.2, if_pos rfl]
      rfl
  | @cons before b after rest a as hbefore hItem hafter _ ih =>
    cases n with
    | zero => simp at hn
    | succ n =>
      have hrest : rest.length ≤ n := by
        simp only [List.length_append, List.length_cons] at hn
        omega
      simp only [sequence, List.append_assoc, List.cons_append]
      rw [skip_item hstart hbefore hItem, hitem.complete hItem (ends_behind hafter (by decide) _)]
      simp only [Option.bind_eq_bind, Option.bind_some]
      rw [skip_white_cons hafter (by decide), List.head?_cons, if_pos rfl, List.drop_one,
        List.tail_cons, ih hrest]
      rfl

theorem sequence_head (hstart : ∀ t a, Item t a → Starts t) {t : Bytes} {as : List α}
    (h : Sequence Item t as) (hclosing : closing = 93 ∨ closing = 125) (tail : Bytes) :
    (skip (t ++ tail)).head? ≠ some closing := by
  have hfirst {before b more : Bytes} {a : α} (hbefore : White before) (hItem : Item b a) :
      (skip (before ++ (b ++ more))).head? ≠ some closing := by
    rw [skip_item hstart hbefore hItem]
    obtain ⟨c, rest, rfl, hc⟩ := hstart _ _ hItem
    have hother := starts_other c hc
    intro heq
    cases heq
    rcases hclosing with rfl | rfl
    · exact hother.2.1 rfl
    · exact hother.2.2 rfl
  cases h with
  | last hbefore hItem _ =>
    rw [List.append_assoc, List.append_assoc]
    exact hfirst hbefore hItem
  | cons hbefore hItem _ _ =>
    rw [List.append_assoc, List.append_assoc]
    exact hfirst hbefore hItem

theorem bracketed_sound (hitem : Reads item Item Ends) {opening : UInt8} {b rest : Bytes}
    {as : List α} (h : bracketed closing item b = some (as, rest)) :
    ∃ t, opening :: b = t ++ rest ∧ Bracketed opening closing Item t as := by
  unfold bracketed at h
  split at h
  · rename_i hclosing
    obtain ⟨w, inside, rfl, hwhite, hskip⟩ := skip_cut b
    rw [hskip] at hclosing h
    cases h
    exact ⟨_, by rw [head_cut hclosing]; simp, .empty hwhite⟩
  · obtain ⟨t, rfl, hseq⟩ := sequence_sound hitem h
    exact ⟨_, by simp, .items hseq⟩

theorem bracketed_complete (hitem : Reads item Item Ends) (hstart : ∀ t a, Item t a → Starts t)
    (hclosing : closing = 93 ∨ closing = 125) {opening : UInt8} {t : Bytes} {as : List α}
    (h : Bracketed opening closing Item t as) (tail : Bytes) :
    (t ++ tail).head? = some opening ∧
      bracketed closing item ((t ++ tail).drop 1) = some (as, tail) := by
  have hwhite : isWhite closing = false := by
    rcases hclosing with rfl | rfl
    · decide
    · decide
  unfold bracketed
  cases h with
  | empty hw =>
    refine ⟨rfl, ?_⟩
    simp only [List.cons_append, List.drop_one, List.tail_cons, List.append_assoc, List.nil_append]
    rw [skip_white_cons hw hwhite, List.head?_cons, if_pos rfl]
    rfl
  | items hseq =>
    refine ⟨rfl, ?_⟩
    simp only [List.cons_append, List.drop_one, List.tail_cons, List.append_assoc, List.nil_append]
    rw [if_neg (sequence_head hstart hseq hclosing _),
      sequence_complete hitem hstart hclosing hseq (by simp)]

end Items

theorem quoted_start {k key : Bytes} (h : Quoted k key) : ∃ rest, k = 34 :: rest := by
  obtain ⟨-⟩ := h
  exact ⟨_, rfl⟩

theorem member_reads {item : Reader Json} {Item : Bytes → Json → Prop}
    (hitem : Reads item Item Ends) (hstart : ∀ t v, Item t v → Starts t) :
    Reads (member item) (Member Item) Ends where
  sound := by
    intro b rest m h
    obtain ⟨⟨key, rest₁⟩, hkey, hnext⟩ := bind_some.mp h
    obtain ⟨k, rfl, hquoted⟩ := quoted_reads.sound hkey
    obtain ⟨before, rest₂, rfl, hwhite, hskip⟩ := skip_cut rest₁
    dsimp only at hnext
    rw [hskip] at hnext
    split at hnext
    · rename_i hcolon
      obtain ⟨⟨v, rest₃⟩, hv, hok⟩ := bind_some.mp hnext
      cases hok
      obtain ⟨after, rest₄, hafter, hwhite', hskip'⟩ := skip_cut (rest₂.drop 1)
      rw [hskip'] at hv
      obtain ⟨t, rfl, hItem⟩ := hitem.sound hv
      refine ⟨k ++ (before ++ 58 :: (after ++ t)), ?_, .mk hquoted hwhite hwhite' hItem⟩
      rw [head_cut hcolon, hafter]
      simp
    · cases hnext
  complete := by
    rintro t tail m ⟨hquoted, hbefore, hafter, hItem⟩ htail
    simp only [List.append_assoc, List.cons_append, member]
    rw [quoted_reads.complete hquoted trivial]
    simp only [Option.bind_eq_bind, Option.bind_some]
    rw [skip_white_cons hbefore (by decide), List.head?_cons, if_pos rfl, List.drop_one,
      List.tail_cons, skip_item hstart hafter hItem, hitem.complete hItem htail]
    rfl

theorem bracketed_start {α : Type} {opening closing : UInt8} {Item : Bytes → α → Prop} {t : Bytes}
    {as : List α} (h : Bracketed opening closing Item t as) : ∃ rest, t = opening :: rest := by
  cases h with
  | empty _ => exact ⟨_, rfl⟩
  | items _ => exact ⟨_, rfl⟩

theorem scalar_starts {t : Bytes} {v : Json} (h : Scalar t v) : Starts t := by
  obtain ⟨c, rest, hcut, hc, -⟩ := scalar_start h
  exact ⟨c, rest, hcut, hc⟩

theorem value_scalar {t : Bytes} {v : Json} (h : Scalar t v) (d : ℕ) : Value d t v := by
  cases d with
  | zero => exact h
  | succ d => exact .inl h

theorem value_starts {d : ℕ} {t : Bytes} {v : Json} (h : Value d t v) : Starts t := by
  cases d with
  | zero => exact scalar_starts h
  | succ d =>
    rcases h with hscalar | ⟨items, -, harray⟩ | ⟨members, -, hobject⟩
    · exact scalar_starts hscalar
    · obtain ⟨rest, rfl⟩ := bracketed_start harray
      exact ⟨91, rest, rfl, by decide⟩
    · obtain ⟨rest, rfl⟩ := bracketed_start hobject
      exact ⟨123, rest, rfl, by decide⟩

theorem member_starts {Item : Bytes → Json → Prop} {t : Bytes} {m : Bytes × Json}
    (h : Member Item t m) : Starts t := by
  obtain ⟨hquoted, -, -, -⟩ := h
  obtain ⟨rest, rfl⟩ := quoted_start hquoted
  exact ⟨34, _, rfl, by decide⟩

theorem value_reads (d : ℕ) : Reads (value d) (Value d) Ends := by
  induction d with
  | zero => exact ⟨scalar_reads.sound, scalar_reads.complete⟩
  | succ d ih =>
    have hmember := member_reads ih (fun _ _ => value_starts)
    constructor
    · intro b rest v h
      simp only [value] at h
      split at h
      · rename_i hopening
        obtain ⟨items, hitems, rfl⟩ := map_some.mp h
        obtain ⟨t, ht, harray⟩ := bracketed_sound ih hitems
        exact ⟨t, by rw [head_cut hopening, ht], .inr (.inl ⟨items, rfl, harray⟩)⟩
      split at h
      · rename_i hopening
        obtain ⟨members, hmembers, rfl⟩ := map_some.mp h
        obtain ⟨t, ht, hobject⟩ := bracketed_sound hmember hmembers
        exact ⟨t, by rw [head_cut hopening, ht], .inr (.inr ⟨members, rfl, hobject⟩)⟩
      · obtain ⟨t, ht, hscalar⟩ := scalar_reads.sound h
        exact ⟨t, ht, .inl hscalar⟩
    · rintro t tail v (hscalar | ⟨items, rfl, harray⟩ | ⟨members, rfl, hobject⟩) htail
      · obtain ⟨c, rest, hcut, -, harray, hobject⟩ := scalar_start hscalar
        have hhead : (t ++ tail).head? = some c := by rw [hcut, List.cons_append, List.head?_cons]
        simp only [value]
        rw [hhead, if_neg (fun h => harray (Option.some.inj h)),
          if_neg (fun h => hobject (Option.some.inj h)), scalar_reads.complete hscalar htail]
      · obtain ⟨hhead, hread⟩ :=
          bracketed_complete ih (fun _ _ => value_starts) (.inl rfl) harray tail
        simp only [value]
        rw [if_pos hhead, hread]
        rfl
      · obtain ⟨hhead, hread⟩ :=
          bracketed_complete hmember (fun _ _ => member_starts) (.inr rfl) hobject tail
        simp only [value]
        rw [hhead, if_neg (by decide), if_pos rfl, hread]
        rfl

theorem sequence_mono {α : Type} {Item Item' : Bytes → α → Prop} {t : Bytes} {as : List α}
    (h : Sequence Item t as) (himp : ∀ {b a}, b.length ≤ t.length → Item b a → Item' b a) :
    Sequence Item' t as := by
  induction h with
  | last hbefore hItem hafter =>
    exact .last hbefore (himp (by simp only [List.length_append]; omega) hItem) hafter
  | cons hbefore hItem hafter _ ih =>
    refine .cons hbefore (himp (by simp only [List.length_append]; omega) hItem) hafter
      (ih fun hlen => himp ?_)
    simp only [List.length_append, List.length_cons]
    omega

theorem bracketed_mono {α : Type} {opening closing : UInt8} {Item Item' : Bytes → α → Prop}
    {t : Bytes} {as : List α} (h : Bracketed opening closing Item t as)
    (himp : ∀ {b a}, b.length + 2 ≤ t.length → Item b a → Item' b a) :
    Bracketed opening closing Item' t as := by
  cases h with
  | empty hw => exact .empty hw
  | items hseq =>
    refine .items (sequence_mono hseq fun hlen => himp ?_)
    simp only [List.length_cons, List.length_append, List.length_nil]
    omega

theorem bracketed_length {α : Type} {opening closing : UInt8} {Item : Bytes → α → Prop} {t : Bytes}
    {as : List α} (h : Bracketed opening closing Item t as) : 2 ≤ t.length := by
  cases h with
  | empty _ => simp
  | items _ => simp

theorem value_depth {d e : ℕ} {t : Bytes} {v : Json} (h : Value d t v) (he : t.length ≤ e) :
    Value e t v := by
  induction d generalizing t v e with
  | zero => exact value_scalar h e
  | succ d ih =>
    rcases h with hscalar | ⟨items, rfl, harray⟩ | ⟨members, rfl, hobject⟩
    · exact value_scalar hscalar e
    · have htwo := bracketed_length harray
      obtain ⟨e, rfl⟩ : ∃ e', e = e' + 1 := ⟨e - 1, by omega⟩
      refine .inr (.inl ⟨items, rfl, bracketed_mono harray fun hlen hvalue => ?_⟩)
      exact ih hvalue (by omega)
    · have htwo := bracketed_length hobject
      obtain ⟨e, rfl⟩ : ∃ e', e = e' + 1 := ⟨e - 1, by omega⟩
      refine .inr (.inr ⟨members, rfl, bracketed_mono hobject fun hlen hmember => ?_⟩)
      obtain ⟨hquoted, hbefore, hafter, hvalue⟩ := hmember
      refine .mk hquoted hbefore hafter (ih hvalue ?_)
      simp only [List.length_append, List.length_cons] at hlen
      omega

theorem decode_iff {text : Bytes} {v : Json} : decode text = some v ↔ Document text v := by
  constructor
  · intro h
    obtain ⟨⟨v', rest⟩, hread, h⟩ := bind_some.mp h
    dsimp only at h
    split at h
    · rename_i hrest
      cases h
      obtain ⟨before, rest₁, hbefore, hwhite, hskip⟩ := skip_cut text
      rw [hskip] at hread
      obtain ⟨b, rfl, hvalue⟩ := (value_reads _).sound hread
      obtain ⟨after, rest₂, rfl, hwhite', hskip'⟩ := skip_cut rest
      rw [hskip'] at hrest
      rw [hrest, List.append_nil] at hbefore
      exact ⟨_, before, b, after, hbefore, hwhite, hvalue, hwhite'⟩
    · cases h
  · rintro ⟨d, before, b, after, rfl, hbefore, hvalue, hafter⟩
    have hends : Ends after := by
      intro c hc
      have hwhite := hafter c (List.mem_of_head? hc)
      simp [endsValue, hwhite]
    have hnil : skip after = [] := by
      have hskip := skip_white hafter stops_nil
      rwa [List.append_nil] at hskip
    have hdeep : Value (before ++ (b ++ after)).length b v :=
      value_depth hvalue (by simp only [List.length_append]; omega)
    unfold decode
    have hstart : ∀ t a, Value d t a → Starts t := fun _ _ => value_starts
    rw [skip_item hstart hbefore hvalue, (value_reads _).complete hdeep hends]
    simp only [Option.bind_eq_bind, Option.bind_some]
    rw [if_pos hnil]

theorem white_nil : White [] := by
  intro c hc
  cases hc

theorem sequence_intercalate {α : Type} {Item : Bytes → α → Prop} {t : Bytes} {a : α}
    {ts : List Bytes} {as : List α} (h : Item t a) (hrest : List.Forall₂ Item ts as) :
    Sequence Item (List.intercalate [44] (t :: ts)) (a :: as) := by
  induction hrest generalizing t a with
  | nil =>
    have hlast := Sequence.last white_nil h white_nil
    rw [List.append_nil, List.nil_append] at hlast
    simpa [List.intercalate] using hlast
  | @cons t' a' ts as h' _ ih =>
    have hcons := Sequence.cons white_nil h white_nil (ih h')
    rwa [List.nil_append, List.nil_append] at hcons

theorem bracketed_intercalate {α : Type} {Item : Bytes → α → Prop} {ts : List Bytes} {as : List α}
    (opening closing : UInt8) (h : List.Forall₂ Item ts as) :
    Bracketed opening closing Item (opening :: (List.intercalate [44] ts ++ [closing])) as := by
  cases h with
  | nil => exact .empty white_nil
  | cons h hrest => exact .items (sequence_intercalate h hrest)

theorem document_value {d : ℕ} {t : Bytes} {v : Json} (h : Value d t v) : Document t v :=
  ⟨d, [], t, [], by simp, white_nil, h, white_nil⟩

theorem spell_unit {u : ℕ} (hu : u < 128) (ps : List Piece) :
    spell (.unit u :: ps) = UInt8.ofNat u :: spell ps := by
  have hutf : utf8 u = [UInt8.ofNat u] := by rw [utf8, if_pos hu]
  have hpair (v : ℕ) : isPair u v = false := by
    have hlow : ¬ 55296 ≤ u := by omega
    simp [isPair, hlow]
  cases ps with
  | nil => simp [spell, hutf]
  | cons p ps =>
    cases p with
    | byte c => simp [spell, hutf]
    | unit v => simp [spell, hutf, hpair]

/-- A text without quotes, backslashes and control bytes needs no escapes. -/
theorem quoted_plain {b : Bytes} (h : ∀ c ∈ b, ¬ c < 32 ∧ c ≠ 34 ∧ c ≠ 92) :
    Quoted (34 :: (b ++ [34])) b := by
  have hplain : Chars b (b.map .byte) ∧ spell (b.map .byte) = b := by
    induction b with
    | nil => exact ⟨.nil, rfl⟩
    | cons c b ih =>
      obtain ⟨hcontrol, hquote, hslash⟩ := h c List.mem_cons_self
      obtain ⟨hchars, hspell⟩ := ih (fun d hd => h d (List.mem_cons_of_mem _ hd))
      exact ⟨.plain hcontrol hquote hslash hchars, by rw [List.map_cons, spell, hspell]⟩
  have hquoted := Quoted.mk hplain.1
  rwa [hplain.2] at hquoted

end Rfc8259
