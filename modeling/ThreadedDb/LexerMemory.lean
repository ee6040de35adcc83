import ThreadedDb.RowMemory
import ThreadedDb.LexerRoundTrip

/-!
# Tokens in memory

`tokenize_sql` with its blocks: a copy of each text, a buffer for string literals and an array that
doubles. A refused `malloc` of `xmalloc` ends the process, a refused `realloc` is an error of the
lexer. Every other run ends with the tokens of `SqlFrontEnd` and no block beside theirs, or with the
error of `SqlFrontEnd` and every block given back.
-/
namespace LexerMemory

open ByteText
open SqlFrontEnd (Token TokenType keywordType isWordByte isAlpha isDigit numberBytes stringBytes
  symbolType)
open GrowableText (Starts starts_nil starts_length starts_of_append resize_starts)
open OwnedMemory
open RowMemory (TextBuffer Text sizeRange elements elements_eq)
open CheckedArray (Checked ok_bind)

structure TokenBlock where
  type : TokenType
  text : Chunk UInt8

structure TokenArray where
  items : Option (Chunk TokenBlock)
  count : ℕ
  capacity : ℕ

inductive Source where
  | block (c : Chunk UInt8)
  | static (text : CString)

def Source.read (m : Memory) : Source → Checked Bytes
  | .block c => readString m c
  | .static text => .ok text.bytes

def xmalloc (m : Memory) (size : ℕ) : Process (Memory × Chunk UInt8) :=
  match malloc m (if size = 0 then 1 else size) with
  | (_, none) => .error .exit
  | (m, some c) => .ok (m, c)

def strdupSafe (m : Memory) (src : Source) : Process (Memory × Chunk UInt8) := do
  let bytes ← attempt (src.read m)
  let (m, copy) ← xmalloc m (bytes.length + 1)
  let copy ← attempt (writeCells m copy (bytes ++ [0]))
  .ok (m, copy)

def outOfMemory : CString := setError (.lit "LEX ERROR: out of memory")

def newCapacity (first capacity : ℕ) : ℕ := if capacity = 0 then first else capacity * 2 % sizeRange

def storeToken (m : Memory) (items : Chunk TokenBlock) (count capacity : ℕ) (type : TokenType)
    (text : Source) : Process (Memory × TokenArray × Except CString Unit) := do
  let (m, copy) ← strdupSafe m text
  let items ← attempt (writeCell m items count ⟨type, copy⟩)
  .ok (m, ⟨some items, count + 1, capacity⟩, .ok ())

def appendToken (m : Memory) (tokens : TokenArray) (type : TokenType) (text : Source) :
    Process (Memory × TokenArray × Except CString Unit) :=
  if tokens.count = tokens.capacity then do
    let (m, grown) ← attempt (realloc m tokens.items (elements 16 (newCapacity 8 tokens.capacity)))
    match grown with
    | none => .ok (m, tokens, .error outOfMemory)
    | some items => storeToken m items tokens.count (newCapacity 8 tokens.capacity) type text
  else
    match tokens.items with
    | none => .error (.fault .badPointer)
    | some items => storeToken m items tokens.count tokens.capacity type text

def copyRange (m : Memory) (bytes : Bytes) : Process (Memory × Chunk UInt8) := do
  let (m, text) ← xmalloc m (bytes.length + 1)
  let text ← attempt (writeCells m text bytes)
  let text ← attempt (writeCell m text bytes.length 0)
  .ok (m, text)

def appendFreed (m : Memory) (tokens : TokenArray) (type : TokenType) (text : Source)
    (owned : Text) (after : Bytes) : Process (Memory × TokenArray × Except CString Bytes) := do
  let (m, tokens, status) ← appendToken m tokens type text
  let m ← attempt (free m owned)
  .ok (m, tokens, status.map (fun _ => after))

/-- What `tokenize_identifier` and `tokenize_number` do with the bytes they found. -/
def appendRange (m : Memory) (tokens : TokenArray) (typeOf : CString → TokenType)
    (bytes after : Bytes) : Process (Memory × TokenArray × Except CString Bytes) := do
  let (m, text) ← copyRange m bytes
  let word ← attempt (readString m text)
  appendFreed m tokens (typeOf (.ofBuffer word)) (.block text) (some text) after

def tokenizeIdentifier (m : Memory) (tokens : TokenArray) (rest : Bytes) :
    Process (Memory × TokenArray × Except CString Bytes) :=
  appendRange m tokens keywordType (rest.takeWhile isWordByte) (rest.dropWhile isWordByte)

def tokenizeNumber (m : Memory) (tokens : TokenArray) (rest : Bytes) :
    Process (Memory × TokenArray × Except CString Bytes) :=
  let sign := if rest.head? = some 45 then rest.take 1 else []
  match numberBytes (rest.drop sign.length) false with
  | .error message => .ok (m, tokens, .error message)
  | .ok (digits, after) => appendRange m tokens (fun _ => .number) (sign ++ digits) after

def putChar (m : Memory) (c : Chunk UInt8) (length capacity : ℕ) (ch : UInt8) :
    Checked (Memory × TextBuffer × Bool) := do
  let c ← writeCell m c length ch
  let c ← writeCell m c (length + 1) 0
  .ok (m, ⟨some c, length + 1, capacity⟩, true)

def appendStringChar (m : Memory) (buffer : TextBuffer) (ch : UInt8) :
    Checked (Memory × TextBuffer × Bool) :=
  if buffer.capacity ≤ (buffer.length + 1) % sizeRange then do
    let (m, grown) ← realloc m buffer.chunk (newCapacity 16 buffer.capacity)
    match grown with
    | none => .ok (m, buffer, false)
    | some c => putChar m c buffer.length (newCapacity 16 buffer.capacity) ch
  else
    match buffer.chunk with
    | none => .error .badPointer
    | some c => putChar m c buffer.length buffer.capacity ch

def dropBuffer (m : Memory) (buffer : TextBuffer) (message : CString) :
    Checked (Memory × Except CString (TextBuffer × Bytes)) := do
  let m ← free m buffer.chunk
  .ok (m, .error message)

def stringLoop : Bytes → Memory → TextBuffer →
    Checked (Memory × Except CString (TextBuffer × Bytes))
  | [], m, buffer => dropBuffer m buffer (setError (.lit "LEX ERROR: unterminated string literal"))
  | b :: rest, m, buffer =>
    if b = 39 then
      match rest with
      | [] => .ok (m, .ok (buffer, rest))
      | c :: rest' =>
        if c = 39 then do
          let (m, buffer, ok) ← appendStringChar m buffer 39
          if ok then stringLoop rest' m buffer else dropBuffer m buffer outOfMemory
        else .ok (m, .ok (buffer, rest))
    else do
      let (m, buffer, ok) ← appendStringChar m buffer b
      if ok then stringLoop rest m buffer else dropBuffer m buffer outOfMemory

def bufferSource (buffer : TextBuffer) : Source :=
  match buffer.chunk with
  | none => .static .empty
  | some c => .block c

def tokenizeString (m : Memory) (tokens : TokenArray) (rest : Bytes) :
    Process (Memory × TokenArray × Except CString Bytes) := do
  let (m, scanned) ← attempt (stringLoop (rest.drop 1) m ⟨none, 0, 0⟩)
  match scanned with
  | .error message => .ok (m, tokens, .error message)
  | .ok (buffer, after) =>
    appendFreed m tokens .string (bufferSource buffer) buffer.chunk after

def tokenizeSymbol (m : Memory) (tokens : TokenArray) (ch : UInt8) (rest : Bytes) :
    Process (Memory × TokenArray × Except CString Bytes) :=
  match symbolType ch with
  | none => .ok (m, tokens, .error (setError (.lit "LEX ERROR: invalid character")))
  | some type => do
    let (m, tokens, status) ← appendToken m tokens type (.static (.ofBuffer [ch]))
    .ok (m, tokens, status.map (fun _ => rest))

def nextToken (m : Memory) (tokens : TokenArray) (ch : UInt8) (rest : Bytes) :
    Process (Memory × TokenArray × Except CString Bytes) :=
  if isAlpha ch || ch = 95 then tokenizeIdentifier m tokens (ch :: rest)
  else if isDigit ch || (ch = 45 && (rest.head?.map isDigit).getD false) then
    tokenizeNumber m tokens (ch :: rest)
  else if ch = 39 then tokenizeString m tokens (ch :: rest)
  else tokenizeSymbol m tokens ch rest

def freeTokenArray (m : Memory) (tokens : TokenArray) : Checked Memory :=
  freeArray (fun m token => free m (some token.text)) m tokens.items tokens.count

def dropTokens (m : Memory) (tokens : TokenArray) (message : CString) :
    Process (Memory × Except CString TokenArray) := do
  let m ← attempt (freeTokenArray m tokens)
  .ok (m, .error message)

def tokenizeLoop : ℕ → Bytes → Memory → TokenArray →
    Process (Memory × Except CString TokenArray)
  | 0, _, m, tokens => .ok (m, .ok tokens)
  | _ + 1, [], m, tokens => do
    let (m, tokens, status) ← appendToken m tokens .eof (.static .empty)
    match status with
    | .error message => dropTokens m tokens message
    | .ok _ => .ok (m, .ok tokens)
  | rounds + 1, ch :: rest, m, tokens =>
    if isSpace ch then tokenizeLoop rounds rest m tokens
    else do
      let (m, tokens, status) ← nextToken m tokens ch rest
      match status with
      | .error message => dropTokens m tokens message
      | .ok rest => tokenizeLoop rounds rest m tokens

def tokenizeSql (m : Memory) (sql : CString) : Process (Memory × Except CString TokenArray) :=
  tokenizeLoop (sql.bytes.length + 1) sql.bytes m ⟨none, 0, 0⟩

theorem newCapacity_room {limit capacity first : ℕ} (hlimit : limit < 2 ^ 59)
    (hle : capacity ≤ limit) (hfirst : 2 ≤ first) :
    capacity < newCapacity first capacity ∧ 2 ≤ newCapacity first capacity ∧
      newCapacity first capacity ≤ max first (2 * limit) := by
  have hmod : capacity * 2 % sizeRange = capacity * 2 :=
    Nat.mod_eq_of_lt (by unfold sizeRange; omega)
  rw [newCapacity, hmod]
  split
  · omega
  · omega

def Source.ids : Source → Multiset ℕ
  | .block c => {c.id}
  | .static _ => 0

def Source.Holds : Source → CString → Prop
  | .block c, text => Starts c.cells (text.bytes ++ [0])
  | .static t, text => t = text

section Copies

variable {m : Memory}

theorem source_read {src : Source} {text : CString} (h : src.Holds text)
    (hheld : src.ids ≤ m.live) : src.read m = .ok text.bytes := by
  cases src with
  | block c => exact readString_starts (mem_of_held hheld) h text.nulFree
  | static t =>
    obtain rfl : t = text := h
    rfl

theorem xmalloc_runs (m : Memory) (size : ℕ) : Runs m (xmalloc m (size + 1)) fun m' c =>
    Keeps m m' 0 (ids (some c)) ∧ c.cells = List.replicate (size + 1) none := by
  obtain ⟨m', p, hcall, hk, hnone, hsome⟩ := malloc_keeps (α := UInt8) m (size + 1)
  rw [xmalloc, if_neg (Nat.succ_ne_zero size), hcall]
  cases p with
  | none => exact .inl ⟨rfl, hnone rfl⟩
  | some c => exact .inr ⟨m', c, rfl, hk.plan, hk, hsome c rfl⟩

theorem strdupSafe_runs {src : Source} {text : CString} (h : src.Holds text)
    (hheld : src.ids ≤ m.live) : Runs m (strdupSafe m src) fun m' c =>
      Keeps m m' 0 (ids (some c)) ∧ Starts c.cells (text.bytes ++ [0]) := by
  rw [strdupSafe, attempt_ok (source_read h hheld)]
  refine (xmalloc_runs m text.bytes.length).bind fun m' c _ ⟨hk, hcells⟩ => ?_
  have hroom : (text.bytes ++ [0]).length ≤ c.cells.length := by simp [hcells]
  obtain ⟨w, hwrite, hid, -, hw⟩ :=
    writeCells_starts (mem_of_held (hk.held (Multiset.zero_le _))) hroom
  dsimp only
  rw [attempt_ok hwrite]
  exact Runs.pure ⟨hk.cast rfl (by rw [ids, ids, hid]), hw⟩

theorem copyRange_runs (m : Memory) (bytes : Bytes) : Runs m (copyRange m bytes) fun m' c =>
    Keeps m m' 0 (ids (some c)) ∧ Starts c.cells (bytes ++ [0]) := by
  refine (xmalloc_runs m bytes.length).bind fun m' c _ ⟨hk, hcells⟩ => ?_
  have hmem := mem_of_held (hk.held (Multiset.zero_le _))
  have hlength : c.cells.length = bytes.length + 1 := by rw [hcells, List.length_replicate]
  obtain ⟨w, hcopy, hid, hlen, hw⟩ := writeCells_starts hmem (by omega : bytes.length ≤ _)
  obtain ⟨v, hwrite, hid', -, hv⟩ := writeCell_starts (hid ▸ hmem) hw (by omega) 0
  dsimp only
  rw [attempt_ok hcopy]
  change Runs m' (attempt (writeCell m' w bytes.length 0) >>= fun text => .ok (m', text)) _
  rw [attempt_ok hwrite]
  exact Runs.pure ⟨hk.cast rfl (by rw [ids, ids, hid', hid]), hv⟩

end Copies

def tokenIds (blocks : List TokenBlock) : Multiset ℕ :=
  totalIds (fun token => ids (some token.text)) blocks

def TokenHolds (block : TokenBlock) (token : Token) : Prop :=
  block.type = token.type ∧ Starts block.text.cells (token.text.bytes ++ [0])

/-- The array holds these tokens, and stays small as long as they are fewer than `limit`. -/
structure Carries (limit : ℕ) (tokens : TokenArray) (blocks : List TokenBlock)
    (list : List Token) : Prop where
  count : tokens.count = blocks.length
  holds : List.Forall₂ TokenHolds blocks list
  room : blocks.length ≤ tokens.capacity
  small : tokens.capacity ≤ max 8 (2 * limit)
  leads : Leads tokens.items blocks
  none : tokens.items = none → tokens.capacity = 0
  cells : ∀ items, tokens.items = some items → items.cells.length = tokens.capacity

/-- A call that may add a token, with the blocks `old` in hand: the outcome of the model with the
token behind the others, or an error that leaves them as they were. -/
def Adds {β : Type} (limit : ℕ) (m : Memory) (old : Multiset ℕ) (list : List Token)
    (outcome : Except CString (Token × β)) (m' : Memory) (r : TokenArray × Except CString β) :
    Prop :=
  ∃ blocks, Keeps m m' old (tokenIds blocks + ids r.1.items) ∧
    (∀ e, r.2 = .error e → (outcome = .error e ∨ false ∈ m.plan) ∧ Carries limit r.1 blocks list) ∧
    ∀ b, r.2 = .ok b → ∃ token, outcome = .ok (token, b) ∧
      Carries limit r.1 blocks (list ++ [token])

section Array

variable {limit : ℕ} {m : Memory} {tokens : TokenArray} {blocks : List TokenBlock}
  {list : List Token} {src : Source} {text : CString}

theorem storeToken_runs {items : Chunk TokenBlock} {capacity : ℕ}
    (hstarts : Starts items.cells blocks) (hroom : blocks.length < items.cells.length)
    (hcapacity : items.cells.length = capacity) (hsmall : capacity ≤ max 8 (2 * limit))
    (hlist : List.Forall₂ TokenHolds blocks list) (hsrc : src.Holds text)
    (hheld : tokenIds blocks + ids (some items) ≤ m.live) (hsource : src.ids ≤ m.live)
    (type : TokenType) :
    Runs m (storeToken m items blocks.length capacity type src)
      (Adds limit m (tokenIds blocks + ids (some items)) list (.ok (⟨type, text⟩, ()))) := by
  refine (strdupSafe_runs hsrc hsource).bind fun m' copy _ ⟨hk, hcopy⟩ => ?_
  have hk' := (hk.frame (tokenIds blocks + ids (some items))).cast (zero_add _) rfl
  obtain ⟨w, hwrite, hid, hlen, hw⟩ := writeCell_starts
    (mem_of_held (held_right (held_right (hk'.held hheld)))) hstarts hroom ⟨type, copy⟩
  dsimp only
  rw [attempt_ok hwrite]
  refine Runs.pure ⟨blocks ++ [⟨type, copy⟩], hk'.cast rfl ?_, fun e he => (by cases he), ?_⟩
  · dsimp only
    rw [tokenIds, tokenIds, totalIds_append, totalIds_cons, totalIds_nil, ids, ids, ids, hid]
    abel
  · rintro ⟨⟩ -
    refine ⟨⟨type, text⟩, rfl, ?_⟩
    exact { count := by simp
            holds := List.rel_append hlist (List.Forall₂.cons ⟨rfl, hcopy⟩ List.Forall₂.nil)
            room := by simp; omega
            small := hsmall
            leads := hw
            none := fun h => by cases h
            cells := fun _ h => by cases h; exact hlen.trans hcapacity }

theorem Adds.after {β : Type} {m₁ m' : Memory} {old mid : Multiset ℕ}
    {outcome : Except CString (Token × β)} {r : TokenArray × Except CString β}
    (hk : Keeps m m₁ old mid) (h : Adds limit m₁ mid list outcome m' r) :
    Adds limit m old list outcome m' r := by
  obtain ⟨blocks, hk', herror, hok⟩ := h
  exact ⟨blocks, hk.trans hk', fun e he => ⟨(herror e he).1.imp_right hk.refused, (herror e he).2⟩,
    hok⟩

theorem appendToken_runs (hlimit : limit < 2 ^ 59) (h : Carries limit tokens blocks list)
    (hfew : blocks.length < limit) (hsrc : src.Holds text) {more : Multiset ℕ}
    (hsource : src.ids ≤ more) (hheld : tokenIds blocks + ids tokens.items + more ≤ m.live)
    (type : TokenType) :
    Runs m (appendToken m tokens type src)
      (Adds limit m (tokenIds blocks + ids tokens.items) list (.ok (⟨type, text⟩, ()))) := by
  unfold appendToken
  rw [h.count]
  by_cases hfull : blocks.length = tokens.capacity
  · obtain ⟨hroom, -, hsmall⟩ :=
      @newCapacity_room limit tokens.capacity 8 hlimit (by omega) (by decide)
    have helements : elements 16 (newCapacity 8 tokens.capacity) = newCapacity 8 tokens.capacity :=
      elements_eq (by omega) (by omega)
    have hlists : Lists tokens.items blocks := by
      have hleads := h.leads
      cases hitems : tokens.items with
      | none =>
        rw [hitems] at hleads
        exact hleads
      | some items =>
        rw [hitems] at hleads
        exact lists_of_length hleads ((h.cells items hitems).trans hfull.symm)
    obtain ⟨m₁, grown, hcall, hnone, hsome⟩ :=
      grow_keeps hlists (held_right (held_left hheld)) (hfull.trans_lt hroom).le
    rw [if_pos hfull, helements, attempt_ok hcall]
    cases grown with
    | none =>
      obtain ⟨hno, hk⟩ := hnone rfl
      refine .inr ⟨m₁, _, rfl, hk.plan, blocks,
        (hk.frame (tokenIds blocks)).cast (add_comm _ _) (add_comm _ _), ?_, fun _ he => by cases he⟩
      exact fun _ _ => ⟨.inr hno, h⟩
    | some items =>
      obtain ⟨hk, hlen, hstarts⟩ := hsome items rfl
      have hk' : Keeps m m₁ (tokenIds blocks + ids tokens.items + more)
          (tokenIds blocks + ids (some items) + more) := by
        refine (hk.frame (tokenIds blocks + more)).cast ?_ ?_ <;> abel
      have hheld' := hk'.held hheld
      have hrun := storeToken_runs hstarts (by omega) hlen hsmall h.holds hsrc (held_left hheld')
        (hsource.trans (held_right hheld')) type
      have hk₁ := (hk.frame (tokenIds blocks)).cast (add_comm _ _) (add_comm _ _)
      exact hrun.after hk.plan fun _ _ hadds => hadds.after hk₁
  · rw [if_neg hfull]
    have hleads := h.leads
    cases hitems : tokens.items with
    | none =>
      rw [hitems] at hleads
      obtain rfl : blocks = [] := hleads
      exact absurd (h.none hitems).symm hfull
    | some items =>
      rw [hitems] at hleads hheld
      have hlen := h.cells items hitems
      have hroom := h.room
      exact storeToken_runs hleads (by omega) hlen h.small h.holds hsrc (held_left hheld)
        (hsource.trans (held_right hheld)) type

theorem Adds.map {m' : Memory} {old : Multiset ℕ} {token : Token} {tokens' : TokenArray}
    {status : Except CString Unit}
    (h : Adds limit m old list (.ok (token, ())) m' (tokens', status)) (after : Bytes) :
    Adds limit m old list (.ok (token, after)) m' (tokens', status.map (fun _ => after)) := by
  obtain ⟨blocks', hk, herror, hok⟩ := h
  refine ⟨blocks', hk, ?_, ?_⟩
  · intro e he
    cases status with
    | error message =>
      obtain ⟨hno, hcarries⟩ := herror message rfl
      cases he
      exact ⟨hno.imp_left fun h => (by cases h), hcarries⟩
    | ok _ => cases he
  · intro b hb
    cases status with
    | error message => cases hb
    | ok _ =>
      cases hb
      obtain ⟨token', htoken, hcarries⟩ := hok () rfl
      cases htoken
      exact ⟨_, rfl, hcarries⟩

/-- The text that was copied goes back when its token is there or could not be made. -/
theorem appendFreed_runs (hlimit : limit < 2 ^ 59) (h : Carries limit tokens blocks list)
    (hfew : blocks.length < limit) (hsrc : src.Holds text) {owned : Text}
    (hsource : src.ids ≤ ids owned)
    (hheld : tokenIds blocks + ids tokens.items + ids owned ≤ m.live) (type : TokenType)
    (after : Bytes) :
    Runs m (appendFreed m tokens type src owned after)
      (Adds limit m (tokenIds blocks + ids tokens.items + ids owned) list
        (.ok (⟨type, text⟩, after))) := by
  refine (appendToken_runs hlimit h hfew hsrc hsource hheld type).bind ?_
  rintro m₁ ⟨tokens', status⟩ - hadds
  obtain ⟨blocks', hk, herror, hok⟩ := hadds.map after
  have hk₁ := hk.frame (ids owned)
  obtain ⟨m', hfree, hk'⟩ := free_keeps (held_right (hk₁.held hheld))
  have hk₂ := (hk'.frame (tokenIds blocks' + ids tokens'.items)).cast (add_comm _ _) (zero_add _)
  dsimp only
  rw [attempt_ok hfree]
  exact .inr ⟨m', _, rfl, hk'.plan, blocks', hk₁.trans hk₂, herror, hok⟩

theorem appendRange_runs (hlimit : limit < 2 ^ 59) (h : Carries limit tokens blocks list)
    (hfew : blocks.length < limit) (hheld : tokenIds blocks + ids tokens.items ≤ m.live)
    (typeOf : CString → TokenType) {bytes : Bytes} (hclean : 0 ∉ bytes) (after : Bytes) :
    Runs m (appendRange m tokens typeOf bytes after)
      (Adds limit m (tokenIds blocks + ids tokens.items) list
        (.ok (⟨typeOf (.ofBuffer bytes), .ofBuffer bytes⟩, after))) := by
  refine (copyRange_runs m bytes).bind fun m₁ c _ ⟨hk, hc⟩ => ?_
  have hk₁ : Keeps m m₁ (tokenIds blocks + ids tokens.items)
      (tokenIds blocks + ids tokens.items + ids (some c)) :=
    (hk.frame _).cast (zero_add _) (add_comm _ _)
  have hheld₁ := hk₁.held hheld
  have hsrc : (Source.block c).Holds (.ofBuffer bytes) := by
    rw [Source.Holds, ofBuffer_of_nulFree hclean]
    exact hc
  dsimp only
  rw [attempt_ok (readString_starts (mem_of_held (held_right hheld₁)) hc hclean)]
  exact (appendFreed_runs hlimit h hfew hsrc (le_refl _) hheld₁ _ after).after
    (List.suffix_refl _) fun _ _ hadds => hadds.after hk₁

end Array

/-- The buffer of a string literal, NULL or with a NUL behind its text. -/
def Collected (limit : ℕ) (buffer : TextBuffer) (text : Bytes) : Prop :=
  match buffer.chunk with
  | none => text = [] ∧ buffer.length = 0 ∧ buffer.capacity = 0
  | some c => buffer.length = text.length ∧ c.cells.length = buffer.capacity ∧
      Starts c.cells (text ++ [0]) ∧ buffer.capacity ≤ max 16 (2 * limit)

section Strings

variable {limit : ℕ} {m : Memory} {buffer : TextBuffer} {text : Bytes}

theorem putChar_collected {c : Chunk UInt8} {capacity : ℕ} (hstarts : Starts c.cells text)
    (hlength : c.cells.length = capacity) (hroom : text.length + 2 ≤ capacity)
    (hsmall : capacity ≤ max 16 (2 * limit)) (hheld : ids (some c) ≤ m.live) (ch : UInt8) :
    ∃ c', putChar m c text.length capacity ch = .ok (m, ⟨some c', text.length + 1, capacity⟩, true) ∧
      c'.id = c.id ∧ Collected limit ⟨some c', text.length + 1, capacity⟩ (text ++ [ch]) := by
  have hmem := mem_of_held hheld
  obtain ⟨w, hwrite, hid, hlen, hw⟩ := writeCell_starts hmem hstarts (by omega) ch
  have hnext : (text ++ [ch]).length = text.length + 1 := by simp
  obtain ⟨v, hnul, hid', hlen', hv⟩ := writeCell_starts (hid ▸ hmem) hw (by omega) 0
  rw [hnext] at hnul
  refine ⟨v, ?_, hid'.trans hid, hnext.symm, ?_, hv, hsmall⟩
  · rw [putChar, hwrite, ok_bind, hnul, ok_bind]
  · dsimp only
    omega

theorem collected_cells (h : Collected limit buffer text) :
    Starts ((buffer.chunk.map Chunk.cells).getD []) text ∧
      ((buffer.chunk.map Chunk.cells).getD []).length = buffer.capacity ∧
      buffer.length = text.length ∧ buffer.capacity ≤ max 16 (2 * limit) ∧
      (text.length < buffer.capacity ∨ text.length = 0 ∧ buffer.capacity = 0) := by
  obtain ⟨chunk, length, capacity⟩ := buffer
  cases chunk with
  | none =>
    obtain ⟨rfl, hlength, hcapacity⟩ := h
    dsimp only at hlength hcapacity
    subst hlength hcapacity
    exact ⟨starts_nil _, rfl, rfl, Nat.zero_le _, .inr ⟨rfl, rfl⟩⟩
  | some c =>
    obtain ⟨hlength, hcells, hstarts, hsmall⟩ := h
    have hroom := starts_length hstarts
    rw [List.length_append, List.length_singleton] at hroom
    exact ⟨starts_of_append hstarts, hcells, hlength, hsmall, .inl (by rw [← hcells]; omega)⟩

theorem appendStringChar_collected (hlimit : limit < 2 ^ 59) (h : Collected limit buffer text)
    (hroom : text.length + 1 ≤ limit) (hheld : ids buffer.chunk ≤ m.live) (ch : UInt8) :
    ∃ m' buffer' ok, appendStringChar m buffer ch = .ok (m', buffer', ok) ∧
      Keeps m m' (ids buffer.chunk) (ids buffer'.chunk) ∧
      (ok = true → Collected limit buffer' (text ++ [ch])) ∧ (ok = false → false ∈ m.plan) := by
  obtain ⟨hstarts, hcells, hlength, hsmall, hused⟩ := collected_cells h
  have hmod : (text.length + 1) % sizeRange = text.length + 1 :=
    Nat.mod_eq_of_lt (by unfold sizeRange; omega)
  unfold appendStringChar
  rw [hlength, hmod]
  by_cases hfull : buffer.capacity ≤ text.length + 1
  · obtain ⟨hmore, htwo, hnew⟩ :=
      @newCapacity_room limit buffer.capacity 16 hlimit (hfull.trans hroom) (by decide)
    obtain ⟨m₁, grown, hcall, hnone, hsome⟩ := realloc_keeps hheld (newCapacity 16 buffer.capacity)
    rw [if_pos hfull, hcall, ok_bind]
    cases grown with
    | none =>
      obtain ⟨hno, hk⟩ := hnone rfl
      exact ⟨m₁, buffer, false, rfl, hk, fun h => (by cases h), fun _ => hno⟩
    | some c =>
      obtain ⟨hk, hc⟩ := hsome c rfl
      obtain ⟨hlen, hgrown⟩ := resize_starts hstarts (by omega :
        _ ≤ newCapacity 16 buffer.capacity)
      rw [← hc] at hlen hgrown
      obtain ⟨w, hput, hid, hw⟩ :=
        putChar_collected hgrown hlen (by omega) hnew (hk.held hheld) ch
      exact ⟨m₁, _, true, hput, hk.cast rfl (by rw [ids, ids, hid]), fun _ => hw,
        fun h => by cases h⟩
  · rw [if_neg hfull]
    obtain ⟨chunk, length, capacity⟩ := buffer
    cases chunk with
    | none =>
      obtain ⟨-, -, hzero⟩ := h
      dsimp only at hzero hfull
      omega
    | some c =>
      change Starts c.cells text at hstarts
      change c.cells.length = capacity at hcells
      dsimp only at hfull hsmall
      obtain ⟨w, hput, hid, hw⟩ := putChar_collected hstarts hcells (by omega) hsmall hheld ch
      exact ⟨m, _, true, hput, (Keeps.refl m _).cast rfl (by rw [ids, ids, hid]), fun _ => hw,
        fun h => by cases h⟩

/-- A call that goes on with a string literal of which `text` is read. -/
def Collects (limit : ℕ) (m : Memory) (old : Multiset ℕ) (text : Bytes)
    (call : Checked (Memory × Except CString (TextBuffer × Bytes)))
    (outcome : Except CString (Bytes × Bytes)) : Prop :=
  ∃ m' r, call = .ok (m', r) ∧
    (∀ e, r = .error e → Keeps m m' old 0 ∧ (outcome = .error e ∨ false ∈ m.plan)) ∧
    ∀ buffer after, r = .ok (buffer, after) → ∃ more, outcome = .ok (more, after) ∧
      Collected limit buffer (text ++ more) ∧ Keeps m m' old (ids buffer.chunk)

theorem dropBuffer_collects (hheld : ids buffer.chunk ≤ m.live) {message : CString}
    {outcome : Except CString (Bytes × Bytes)} (hwhy : outcome = .error message ∨ false ∈ m.plan) :
    Collects limit m (ids buffer.chunk) text (dropBuffer m buffer message) outcome := by
  obtain ⟨m', hfree, hk⟩ := free_keeps hheld
  refine ⟨m', .error message, ?_, ?_, fun _ _ h => by cases h⟩
  · rw [dropBuffer, hfree, ok_bind]
  · rintro _ ⟨⟩
    exact ⟨hk, hwhy⟩

theorem put_collects (hlimit : limit < 2 ^ 59) (h : Collected limit buffer text) {bytes : Bytes}
    (hroom : text.length + bytes.length + 1 ≤ limit) (hheld : ids buffer.chunk ≤ m.live)
    {ch : UInt8} {outcome : Except CString (Bytes × Bytes)}
    (houtcome : (stringBytes bytes).map (fun p => (ch :: p.1, p.2)) = outcome)
    (ih : ∀ {m : Memory} {buffer : TextBuffer} {text : Bytes}, Collected limit buffer text →
      text.length + bytes.length ≤ limit → ids buffer.chunk ≤ m.live →
      Collects limit m (ids buffer.chunk) text (stringLoop bytes m buffer) (stringBytes bytes)) :
    Collects limit m (ids buffer.chunk) text (do
      let (m, buffer, ok) ← appendStringChar m buffer ch
      if ok then stringLoop bytes m buffer else dropBuffer m buffer outOfMemory) outcome := by
  obtain ⟨m₁, buffer₁, ok, happend, hk, hyes, hno⟩ :=
    appendStringChar_collected hlimit h (by omega) hheld ch
  rw [happend, ok_bind]
  dsimp only
  cases ok with
  | false =>
    rw [if_neg (by decide)]
    obtain ⟨m', hfree, hk'⟩ := free_keeps (hk.held hheld)
    refine ⟨m', .error outOfMemory, ?_, fun _ _ => ⟨hk.trans hk', .inr (hno rfl)⟩,
      fun _ _ h => by cases h⟩
    rw [dropBuffer, hfree, ok_bind]
  | true =>
    rw [if_pos rfl]
    obtain ⟨m', r, hrun, hbad, hgood⟩ := ih (hyes rfl) (by simp; omega) (hk.held hheld)
    refine ⟨m', r, hrun, ?_, ?_⟩
    · intro e he
      obtain ⟨hk', hwhy⟩ := hbad e he
      refine ⟨hk.trans hk', hwhy.imp (fun h => ?_) hk.refused⟩
      rw [← houtcome, h]
      rfl
    · intro buffer' after hr
      obtain ⟨more, hmore, hcollected, hk'⟩ := hgood buffer' after hr
      refine ⟨ch :: more, ?_, ?_, hk.trans hk'⟩
      · rw [← houtcome, hmore]
        rfl
      · rw [List.append_cons]
        exact hcollected

theorem stringLoop_collects (hlimit : limit < 2 ^ 59) (bytes : Bytes)
    (h : Collected limit buffer text) (hroom : text.length + bytes.length ≤ limit)
    (hheld : ids buffer.chunk ≤ m.live) :
    Collects limit m (ids buffer.chunk) text (stringLoop bytes m buffer) (stringBytes bytes) := by
  fun_induction stringBytes bytes generalizing m buffer text with
  | case1 => exact dropBuffer_collects hheld (.inl rfl)
  | case2 =>
    refine ⟨m, .ok (buffer, []), rfl, fun _ h => (by cases h), ?_⟩
    rintro _ _ ⟨⟩
    exact ⟨[], rfl, by simpa using h, Keeps.refl m _⟩
  | case3 rest message hrec ih =>
    exact put_collects hlimit h (by simp at hroom; omega) hheld (by rw [hrec]; rfl) ih
  | case4 rest more after hrec ih =>
    exact put_collects hlimit h (by simp at hroom; omega) hheld (by rw [hrec]; rfl) ih
  | case5 c rest hc =>
    refine ⟨m, .ok (buffer, c :: rest), ?_, fun _ h => (by cases h), ?_⟩
    · rw [stringLoop, if_pos rfl]
      exact if_neg hc
    · rintro _ _ ⟨⟩
      exact ⟨[], rfl, by simpa using h, Keeps.refl m _⟩
  | case6 b rest hb message hrec ih =>
    rw [stringLoop.eq_def]
    simp only [if_neg hb]
    exact put_collects hlimit h (by simp at hroom; omega) hheld (by rw [hrec]; rfl) ih
  | case7 b rest hb more after hrec ih =>
    rw [stringLoop.eq_def]
    simp only [if_neg hb]
    exact put_collects hlimit h (by simp at hroom; omega) hheld (by rw [hrec]; rfl) ih

theorem bufferSource_holds (h : Collected limit buffer text) (hclean : 0 ∉ text) :
    (bufferSource buffer).Holds (.ofBuffer text) ∧
      (bufferSource buffer).ids ≤ ids buffer.chunk := by
  obtain ⟨chunk, length, capacity⟩ := buffer
  cases chunk with
  | none =>
    obtain ⟨rfl, -⟩ := h
    exact ⟨rfl, le_refl _⟩
  | some c =>
    refine ⟨?_, le_refl _⟩
    change Starts c.cells ((CString.ofBuffer text).bytes ++ [0])
    rw [ofBuffer_of_nulFree hclean]
    exact h.2.2.1

end Strings

section Tokens

variable {limit : ℕ} {m : Memory} {tokens : TokenArray} {blocks : List TokenBlock}
  {list : List Token}

theorem refused_adds {β : Type} {outcome : Except CString (Token × β)} {message : CString}
    (h : Carries limit tokens blocks list) (houtcome : outcome = .error message) :
    Adds limit m (tokenIds blocks + ids tokens.items) list outcome m (tokens, .error message) := by
  refine ⟨blocks, Keeps.refl m _, ?_, fun _ h => by cases h⟩
  rintro _ ⟨⟩
  exact ⟨.inl houtcome, h⟩

theorem tokenizeNumber_runs (hlimit : limit < 2 ^ 59) (h : Carries limit tokens blocks list)
    (hfew : blocks.length < limit) (hheld : tokenIds blocks + ids tokens.items ≤ m.live)
    {rest : Bytes} (hclean : 0 ∉ rest) :
    Runs m (tokenizeNumber m tokens rest)
      (Adds limit m (tokenIds blocks + ids tokens.items) list (SqlFrontEnd.tokenizeNumber rest)) := by
  unfold tokenizeNumber SqlFrontEnd.tokenizeNumber
  generalize hsign : (if rest.head? = some 45 then rest.take 1 else []) = sign
  dsimp only
  cases hdigits : numberBytes (rest.drop sign.length) false with
  | error message => exact Runs.pure (refused_adds h rfl)
  | ok digits =>
    obtain ⟨digits, after⟩ := digits
    have hcut := (LexerRoundTrip.numberBytes_sound hdigits).1
    refine appendRange_runs hlimit h hfew hheld _ ?_ after
    rw [List.mem_append, not_or]
    constructor
    · intro hzero
      rw [← hsign] at hzero
      split at hzero
      · exact hclean (List.mem_of_mem_take hzero)
      · cases hzero
    · intro hzero
      have hmem : 0 ∈ rest.drop sign.length := by
        rw [hcut]
        exact List.mem_append_left _ hzero
      exact hclean (List.mem_of_mem_drop hmem)

theorem tokenizeString_runs (hlimit : limit < 2 ^ 59) (h : Carries limit tokens blocks list)
    (hfew : blocks.length < limit) (hheld : tokenIds blocks + ids tokens.items ≤ m.live)
    {rest : Bytes} (hclean : 0 ∉ rest) (hroom : rest.length ≤ limit) :
    Runs m (tokenizeString m tokens rest)
      (Adds limit m (tokenIds blocks + ids tokens.items) list (SqlFrontEnd.tokenizeString rest)) := by
  have hfresh : Collected limit ⟨none, 0, 0⟩ [] := ⟨rfl, rfl, rfl⟩
  obtain ⟨m₁, r, hrun, hbad, hgood⟩ := @stringLoop_collects limit m ⟨none, 0, 0⟩ [] hlimit
    (rest.drop 1) hfresh (by simp; omega) (Multiset.zero_le _)
  unfold tokenizeString SqlFrontEnd.tokenizeString
  rw [attempt_ok hrun]
  cases r with
  | error message =>
    obtain ⟨hk, hwhy⟩ := hbad message rfl
    refine .inr ⟨m₁, (tokens, .error message), rfl, hk.plan, blocks,
      (hk.frame _).cast (zero_add _) (zero_add _), ?_, fun _ h => by cases h⟩
    rintro _ ⟨⟩
    refine ⟨hwhy.imp_left fun h => ?_, h⟩
    rw [h]
  | ok r =>
    obtain ⟨buffer, after⟩ := r
    obtain ⟨text, htext, hcollected, hk⟩ := hgood buffer after rfl
    have hzero : 0 ∉ text := by
      intro hzero
      have hcut := LexerRoundTrip.stringBytes_sound htext
      apply hclean
      apply List.mem_of_mem_drop (i := 1)
      rw [hcut]
      apply List.mem_append_left
      exact List.mem_flatMap.mpr ⟨0, hzero, by decide⟩
    obtain ⟨hsrc, hsource⟩ := bufferSource_holds hcollected hzero
    have hk₁ : Keeps m m₁ (tokenIds blocks + ids tokens.items)
        (tokenIds blocks + ids tokens.items + ids buffer.chunk) :=
      (hk.frame _).cast (zero_add _) (add_comm _ _)
    have hrun := appendFreed_runs hlimit h hfew hsrc hsource (hk₁.held hheld) .string after
    rw [htext]
    exact hrun.after hk.plan fun _ _ hadds => hadds.after hk₁

theorem tokenizeSymbol_runs (hlimit : limit < 2 ^ 59) (h : Carries limit tokens blocks list)
    (hfew : blocks.length < limit) (hheld : tokenIds blocks + ids tokens.items ≤ m.live)
    (ch : UInt8) (rest : Bytes) :
    Runs m (tokenizeSymbol m tokens ch rest)
      (Adds limit m (tokenIds blocks + ids tokens.items) list
        (SqlFrontEnd.tokenizeSymbol ch rest)) := by
  unfold tokenizeSymbol SqlFrontEnd.tokenizeSymbol
  cases symbolType ch with
  | none => exact Runs.pure (refused_adds h rfl)
  | some type =>
    have hrun := @appendToken_runs limit m tokens blocks list (.static (.ofBuffer [ch]))
      (.ofBuffer [ch]) hlimit h hfew rfl 0 (le_refl _) (by rwa [add_zero]) type
    refine hrun.bind ?_
    rintro m₁ ⟨tokens', status⟩ - hadds
    exact Runs.pure (hadds.map rest)

theorem nextToken_runs (hlimit : limit < 2 ^ 59) (h : Carries limit tokens blocks list)
    (hfew : blocks.length < limit) (hheld : tokenIds blocks + ids tokens.items ≤ m.live)
    {ch : UInt8} {rest : Bytes} (hclean : 0 ∉ ch :: rest) (hroom : rest.length + 1 ≤ limit) :
    Runs m (nextToken m tokens ch rest)
      (Adds limit m (tokenIds blocks + ids tokens.items) list (SqlFrontEnd.nextToken ch rest)) := by
  unfold nextToken SqlFrontEnd.nextToken
  split
  · refine appendRange_runs hlimit h hfew hheld keywordType ?_ _
    exact fun hzero => hclean ((List.takeWhile_prefix _).subset hzero)
  · split
    · exact tokenizeNumber_runs hlimit h hfew hheld hclean
    · split
      · exact tokenizeString_runs hlimit h hfew hheld hclean (by simpa using hroom)
      · exact tokenizeSymbol_runs hlimit h hfew hheld ch rest

theorem freeTokenArray_keeps (h : Carries limit tokens blocks list)
    (hheld : tokenIds blocks + ids tokens.items ≤ m.live) :
    ∃ m', freeTokenArray m tokens = .ok m' ∧
      Keeps m m' (tokenIds blocks + ids tokens.items) 0 := by
  rw [freeTokenArray, h.count]
  exact freeArray_keeps (fun _ _ _ hm => free_keeps hm) h.leads hheld

def Tokenizes (limit : ℕ) (m : Memory) (old : Multiset ℕ) (list : List Token)
    (outcome : Except CString (List Token)) (m' : Memory) (r : Except CString TokenArray) : Prop :=
  (∀ e, r = .error e → Keeps m m' old 0 ∧ (outcome = .error e ∨ false ∈ m.plan)) ∧
    ∀ tokens, r = .ok tokens → ∃ blocks more, outcome = .ok more ∧
      Carries limit tokens blocks (list ++ more) ∧
      Keeps m m' old (tokenIds blocks + ids tokens.items)

theorem dropTokens_tokenizes {m₁ : Memory} {old : Multiset ℕ}
    {outcome : Except CString (List Token)} {message : CString}
    (h : Carries limit tokens blocks list)
    (hk : Keeps m m₁ old (tokenIds blocks + ids tokens.items)) (hold : old ≤ m.live)
    (hwhy : outcome = .error message ∨ false ∈ m.plan) :
    Runs m₁ (dropTokens m₁ tokens message) (Tokenizes limit m old list outcome) := by
  obtain ⟨m', hfree, hk'⟩ := freeTokenArray_keeps h (hk.held hold)
  rw [dropTokens, attempt_ok hfree]
  refine .inr ⟨m', .error message, rfl, hk'.plan, ?_, fun _ h => by cases h⟩
  rintro _ ⟨⟩
  exact ⟨hk.trans hk', hwhy⟩

theorem tokenizeLoop_runs (hlimit : limit < 2 ^ 59) (rounds : ℕ) {bytes : Bytes}
    (hrounds : bytes.length < rounds) (h : Carries limit tokens blocks list)
    (hfew : list.length + bytes.length < limit) (hclean : 0 ∉ bytes)
    (hheld : tokenIds blocks + ids tokens.items ≤ m.live) :
    Runs m (tokenizeLoop rounds bytes m tokens)
      (Tokenizes limit m (tokenIds blocks + ids tokens.items) list
        (SqlFrontEnd.tokenizeFrom rounds bytes)) := by
  induction rounds generalizing m bytes tokens blocks list with
  | zero => exact absurd hrounds (Nat.not_lt_zero _)
  | succ rounds ih =>
    have hlength := h.holds.length_eq
    cases bytes with
    | nil =>
      have hrun := @appendToken_runs limit m tokens blocks list (.static .empty) .empty hlimit h
        (by simp at hfew; omega) rfl 0 (le_refl _) (by rwa [add_zero]) .eof
      refine hrun.bind ?_
      rintro m₁ ⟨tokens', status⟩ - ⟨blocks', hk, herror, hok⟩
      cases status with
      | error message =>
        obtain ⟨hwhy, hcarries⟩ := herror message rfl
        exact dropTokens_tokenizes hcarries hk hheld (hwhy.imp_left fun h => by cases h)
      | ok _ =>
        obtain ⟨token, htoken, hcarries⟩ := hok () rfl
        cases htoken
        refine Runs.pure ⟨fun _ h => (by cases h), ?_⟩
        rintro _ ⟨⟩
        exact ⟨blocks', _, rfl, hcarries, hk⟩
    | cons ch rest =>
      rw [List.length_cons] at hrounds hfew
      have hrest : 0 ∉ rest := fun hzero => hclean (List.mem_cons_of_mem _ hzero)
      rw [tokenizeLoop, SqlFrontEnd.tokenizeFrom]
      by_cases hspace : isSpace ch = true
      · rw [if_pos hspace, if_pos hspace]
        exact ih (by omega) h (by omega) hrest hheld
      · rw [if_neg hspace, if_neg hspace]
        refine (nextToken_runs hlimit h (by omega) hheld hclean (by omega)).bind ?_
        rintro m₁ ⟨tokens', status⟩ - ⟨blocks', hk, herror, hok⟩
        cases status with
        | error message =>
          obtain ⟨hwhy, hcarries⟩ := herror message rfl
          refine dropTokens_tokenizes hcarries hk hheld (hwhy.imp_left fun h => ?_)
          rw [h]
        | ok tail =>
          obtain ⟨token, htoken, hcarries⟩ := hok tail rfl
          obtain ⟨lex, hcut, hlex⟩ := LexerRoundTrip.nextToken_sound hclean htoken
          obtain ⟨first, more, rfl, -⟩ := LexerRoundTrip.lexeme_start hlex
          have htail : rest.length = more.length + tail.length := by
            simpa using congrArg List.length hcut
          have hfree : 0 ∉ tail := fun hzero => hclean (hcut ▸ List.mem_append_right _ hzero)
          have hnext := ih (by omega : tail.length < rounds) hcarries (by simp; omega) hfree
            (hk.held hheld)
          rw [htoken]
          refine hnext.after (List.suffix_refl _) ?_
          rintro m' r ⟨hbad, hgood⟩
          refine ⟨?_, ?_⟩
          · intro e he
            obtain ⟨hk', hwhy⟩ := hbad e he
            refine ⟨hk.trans hk', hwhy.imp (fun h => ?_) hk.refused⟩
            dsimp only
            rw [h]
          · intro tokens'' hr
            obtain ⟨blocks'', more', hmore, hcarries', hk'⟩ := hgood tokens'' hr
            refine ⟨blocks'', token :: more', ?_, ?_, hk.trans hk'⟩
            · dsimp only
              rw [hmore]
            · rw [List.append_cons]
              exact hcarries'

/-- `tokenize_sql` in memory, whatever allocations are refused: the process ends for want of memory,
or the lexer fails with every block given back, with the error of the model unless an allocation was
refused, or it leaves the tokens of the model, each text with its NUL in a block that is out. Then
beside these only the array is out, and `free_token_array` gives everything back. -/
theorem tokens_read_in_memory (m : Memory) (sql : CString) (hsql : sql.bytes.length < 2 ^ 58) :
    (tokenizeSql m sql = .error .exit ∧ false ∈ m.plan) ∨
      ∃ m' result, tokenizeSql m sql = .ok (m', result) ∧
        (∀ e, result = .error e → m'.live = m.live ∧
          (SqlFrontEnd.tokenizeSql sql = .error e ∨ false ∈ m.plan)) ∧
        ∀ tokens, result = .ok tokens → ∃ blocks list,
          SqlFrontEnd.tokenizeSql sql = .ok list ∧ Leads tokens.items blocks ∧
          tokens.count = blocks.length ∧ List.Forall₂ TokenHolds blocks list ∧
          m'.live = m.live + (tokenIds blocks + ids tokens.items) ∧
          ∃ m'', freeTokenArray m' tokens = .ok m'' ∧ m''.live = m.live := by
  have hfresh : Carries (sql.bytes.length + 1) ⟨none, 0, 0⟩ [] [] :=
    { count := rfl
      holds := List.Forall₂.nil
      room := Nat.le_refl _
      small := Nat.zero_le _
      leads := rfl
      none := fun _ => rfl
      cells := fun _ h => by cases h }
  have hrun := @tokenizeLoop_runs (sql.bytes.length + 1) m ⟨none, 0, 0⟩ [] [] (by omega)
    (sql.bytes.length + 1) sql.bytes (Nat.lt_succ_self _) hfresh (by simp) sql.nulFree
    (Multiset.zero_le _)
  obtain hexit | ⟨m', result, hrun, -, hbad, hgood⟩ := hrun
  · exact .inl hexit
  · refine .inr ⟨m', result, hrun, ?_, ?_⟩
    · intro e he
      obtain ⟨hk, hwhy⟩ := hbad e he
      have hk : Keeps m m' 0 0 := hk
      exact ⟨by simpa using hk.live, hwhy⟩
    · intro tokens hr
      obtain ⟨blocks, list, hlist, hcarries, hk⟩ := hgood tokens hr
      have hk : Keeps m m' 0 (tokenIds blocks + ids tokens.items) := hk
      obtain ⟨m'', hfree, hk'⟩ := freeTokenArray_keeps hcarries (hk.held (Multiset.zero_le _))
      refine ⟨blocks, list, hlist, hcarries.leads, hcarries.count, hcarries.holds, ?_, m'', hfree, ?_⟩
      · simpa using hk.live
      · simpa using (hk.trans hk').live

theorem literal_read :
    ∃ m' tokens, tokenizeSql ⟨[true, true], 5, {3}⟩ (.lit "SELECT 'it''s';") =
        .ok (m', .ok tokens) ∧ tokens.count = 4 ∧
      ∃ m'', freeTokenArray m' tokens = .ok m'' ∧ m''.live = {3} := by
  have hmodel : SqlFrontEnd.tokenizeSql (.lit "SELECT 'it''s';") = .ok [⟨.select, .lit "SELECT"⟩,
      ⟨.string, .lit "it's"⟩, ⟨.semicolon, .lit ";"⟩, ⟨.eof, .empty⟩] := by decide +kernel
  obtain ⟨-, hno⟩ | ⟨m', result, hrun, herror, hok⟩ :=
    tokens_read_in_memory ⟨[true, true], 5, {3}⟩ (.lit "SELECT 'it''s';") (by decide +kernel)
  · simp at hno
  · cases result with
    | error e =>
      rcases (herror e rfl).2 with h | h
      · rw [hmodel] at h
        cases h
      · simp at h
    | ok tokens =>
      obtain ⟨blocks, list, hlist, -, hcount, hholds, -, hfree⟩ := hok tokens rfl
      rw [hmodel] at hlist
      cases hlist
      exact ⟨m', tokens, hrun, hcount.trans hholds.length_eq, hfree⟩

end Tokens

end LexerMemory
