import ThreadedDb.CheckedArray

/-!
# Texts that grow in allocated memory

Allocated blocks whose bytes are nothing until they are written, an allocator that may refuse any
request, and programs that append to a text. `Writes` says that such a program appends a given text
whenever its allocations succeed, reports failure exactly when one of them is refused, and keeps
account of the blocks it holds; sequences and loops of programs inherit it.
-/
namespace GrowableText

open CheckedArray (Checked ok_bind)

section Blocks

variable {α : Type}

abbrev Block (α : Type) := List (Option α)

def store (block : Block α) (i : ℕ) (b : α) : Checked (Block α) :=
  if i < block.length then .ok (block.set i (some b)) else .error .outOfBounds

def copyIn (block : Block α) (i : ℕ) : List α → Checked (Block α)
  | [] => .ok block
  | b :: bs => do
    let block ← store block i b
    copyIn block (i + 1) bs

def resize (block : Block α) (size : ℕ) : Block α :=
  block.take size ++ List.replicate (size - block.length) none

def Starts (block : Block α) (text : List α) : Prop := text.map some <+: block

theorem starts_nil (block : Block α) : Starts block [] := List.nil_prefix

theorem starts_length {block : Block α} {text : List α} (h : Starts block text) :
    text.length ≤ block.length := by
  simpa using List.IsPrefix.length_le h

theorem starts_of_append {block : Block α} {text more : List α}
    (h : Starts block (text ++ more)) : Starts block text := by
  unfold Starts at h
  rw [List.map_append] at h
  exact (List.prefix_append _ _).trans h

theorem store_starts {block : Block α} {text : List α} (h : Starts block text)
    (hroom : text.length < block.length) (b : α) :
    ∃ block', store block text.length b = .ok block' ∧ block'.length = block.length ∧
      Starts block' (text ++ [b]) := by
  refine ⟨block.set text.length (some b), if_pos hroom, List.length_set, ?_⟩
  obtain ⟨rest, rfl⟩ := h
  cases rest with
  | nil => simp at hroom
  | cons c rest =>
    refine ⟨rest, ?_⟩
    simp

theorem copyIn_starts {block : Block α} {text : List α} (h : Starts block text)
    (new : List α) (hroom : text.length + new.length ≤ block.length) :
    ∃ block', copyIn block text.length new = .ok block' ∧ block'.length = block.length ∧
      Starts block' (text ++ new) := by
  induction new generalizing block text with
  | nil => exact ⟨block, rfl, rfl, by simpa using h⟩
  | cons b new ih =>
    rw [List.length_cons] at hroom
    obtain ⟨block₁, hstore, hlen₁, h₁⟩ := store_starts h (by omega) b
    obtain ⟨block', hcopy, hlen, h'⟩ := ih h₁ (by
      rw [List.length_append, List.length_singleton]
      omega)
    rw [List.length_append, List.length_singleton] at hcopy
    refine ⟨block', ?_, hlen.trans hlen₁, by simpa using h'⟩
    simp only [copyIn, hstore, ok_bind, hcopy]

theorem resize_starts {block : Block α} {text : List α} (h : Starts block text) {size : ℕ}
    (hsize : block.length ≤ size) :
    (resize block size).length = size ∧ Starts (resize block size) text := by
  unfold resize
  rw [List.take_of_length_le hsize]
  constructor
  · rw [List.length_append, List.length_replicate]
    omega
  · exact List.IsPrefix.trans h (List.prefix_append _ _)

end Blocks

def readText : Block UInt8 → Checked (List UInt8)
  | [] => .error .outOfBounds
  | none :: _ => .error .uninitialized
  | some b :: rest =>
    if b = 0 then .ok []
    else do
      let bs ← readText rest
      .ok (b :: bs)

theorem readText_takeWhile {block : Block UInt8} {text : List UInt8}
    (h : Starts block (text ++ [0])) : readText block = .ok (text.takeWhile (· ≠ 0)) := by
  obtain ⟨rest, rfl⟩ := h
  induction text with
  | nil => rfl
  | cons b text ih =>
    by_cases hb : b = 0
    · rw [hb]
      rfl
    · have hkeep : (b :: text).takeWhile (· ≠ 0) = b :: text.takeWhile (· ≠ 0) :=
        List.takeWhile_cons_of_pos (decide_eq_true hb)
      simp only [List.cons_append, List.map_cons, readText, if_neg hb, ih, ok_bind, hkeep]

theorem readText_starts {block : Block UInt8} {text : List UInt8} (h : Starts block (text ++ [0]))
    (hclean : 0 ∉ text) : readText block = .ok text := by
  rw [readText_takeWhile h, List.takeWhile_eq_self_iff.mpr]
  intro b hb
  exact decide_eq_true (fun heq => hclean (heq ▸ hb))

/-- Whether the coming requests succeed (past the end of the plan they do), and the number of blocks
that are out. -/
structure Allocator where
  plan : List Bool
  live : ℤ
  deriving DecidableEq

def malloc (a : Allocator) (size : ℕ) : Allocator × Option (Block UInt8) :=
  if a.plan.headD true then (⟨a.plan.tail, a.live + 1⟩, some (List.replicate size none))
  else (⟨a.plan.tail, a.live⟩, none)

def realloc (a : Allocator) (block : Block UInt8) (size : ℕ) : Allocator × Option (Block UInt8) :=
  (⟨a.plan.tail, a.live⟩, if a.plan.headD true then some (resize block size) else none)

theorem malloc_granted {a : Allocator} (h : a.plan.headD true = true) (size : ℕ) :
    malloc a size = (⟨a.plan.drop 1, a.live + 1⟩, some (List.replicate size none)) := by
  simp only [malloc, h, if_true, List.drop_one]

theorem malloc_refused {a : Allocator} (h : a.plan.headD true = false) (size : ℕ) :
    malloc a size = (⟨a.plan.drop 1, a.live⟩, none) := by
  simp only [malloc, h, Bool.false_eq_true, if_false, List.drop_one]

theorem realloc_granted {a : Allocator} (h : a.plan.headD true = true) (block : Block UInt8)
    (size : ℕ) : realloc a block size = (⟨a.plan.drop 1, a.live⟩, some (resize block size)) := by
  simp only [realloc, h, if_true, List.drop_one]

theorem realloc_refused {a : Allocator} (h : a.plan.headD true = false) (block : Block UInt8)
    (size : ℕ) : realloc a block size = (⟨a.plan.drop 1, a.live⟩, none) := by
  simp only [realloc, h, Bool.false_eq_true, if_false, List.drop_one]

def free (a : Allocator) (block : Option (Block UInt8)) : Allocator :=
  match block with
  | some _ => ⟨a.plan, a.live - 1⟩
  | none => a

def Granted (plan : List Bool) (n : ℕ) : Prop := ∀ i < n, plan.getD i true = true

theorem granted_zero (plan : List Bool) : Granted plan 0 := by
  intro i hi
  omega

theorem granted_one (plan : List Bool) : Granted plan 1 ↔ plan.headD true = true := by
  constructor
  · intro h
    have := h 0 Nat.one_pos
    cases plan with
    | nil => rfl
    | cons b plan => exact this
  · intro h i hi
    obtain rfl : i = 0 := by omega
    cases plan with
    | nil => rfl
    | cons b plan => exact h

theorem granted_add (plan : List Bool) (m n : ℕ) :
    Granted plan (m + n) ↔ Granted plan m ∧ Granted (plan.drop m) n := by
  have hdrop : ∀ i, (plan.drop m).getD i true = plan.getD (m + i) true := by
    intro i
    simp [List.getD_eq_getElem?_getD]
  constructor
  · intro h
    refine ⟨fun i hi => h i (by omega), fun i hi => ?_⟩
    rw [hdrop]
    exact h (m + i) (by omega)
  · rintro ⟨hm, hn⟩ i hi
    rcases Nat.lt_or_ge i m with hlt | hge
    · exact hm i hlt
    · have := hn (i - m) (by omega)
      rwa [hdrop, Nat.add_sub_cancel' hge] at this

section Programs

variable {σ : Type}

/-- Success or failure, the allocator and the state behind the call. -/
abbrev Program (σ : Type) := Allocator → σ → Checked (Bool × Allocator × σ)

def Program.andThen (f g : Program σ) : Program σ := fun a s => do
  let (ok, a, s) ← f a s
  if ok then g a s else .ok (false, a, s)

def Program.skip : Program σ := fun a s => .ok (true, a, s)

def Program.each {α : Type} (body : α → Program σ) : List α → Program σ
  | [] => .skip
  | x :: xs => (body x).andThen (each body xs)

structure Keeping (σ : Type) where
  Holds : σ → List UInt8 → Prop
  blocks : σ → ℤ

/-- The program appends `text` as long as the whole stays within `limit`. -/
def Writes (k : Keeping σ) (limit : ℕ) (program : Program σ) (text : List UInt8) : Prop :=
  ∀ a s written, k.Holds s written → written.length + text.length ≤ limit →
    ∃ n ok s', program a s = .ok (ok, ⟨a.plan.drop n, a.live + k.blocks s' - k.blocks s⟩, s') ∧
      (ok = true ↔ Granted a.plan n) ∧ (ok = true → k.Holds s' (written ++ text))

variable {k : Keeping σ} {limit : ℕ}

theorem writes_skip : Writes k limit .skip [] := by
  intro a s written hs _
  refine ⟨0, true, s, ?_, by simp [granted_zero], fun _ => by simpa using hs⟩
  simp [Program.skip]

theorem writes_andThen {f g : Program σ} {text more : List UInt8} (hf : Writes k limit f text)
    (hg : Writes k limit g more) : Writes k limit (f.andThen g) (text ++ more) := by
  intro a s written hs hlen
  rw [List.length_append] at hlen
  obtain ⟨m, ok, s₁, hrun, hok, hs₁⟩ := hf a s written hs (by omega)
  cases ok with
  | false =>
    refine ⟨m, false, s₁, ?_, hok, fun h => by cases h⟩
    simp only [Program.andThen, hrun, ok_bind, Bool.false_eq_true, if_false]
  | true =>
    obtain ⟨n, ok', s₂, hrun', hok', hs₂⟩ := hg ⟨a.plan.drop m, a.live + k.blocks s₁ - k.blocks s⟩
      s₁ (written ++ text) (hs₁ rfl) (by rw [List.length_append]; omega)
    refine ⟨m + n, ok', s₂, ?_, ?_, fun h => by simpa using hs₂ h⟩
    · simp only [Program.andThen, hrun, ok_bind, if_true, hrun', List.drop_drop]
      congr 4
      ring
    · rw [granted_add, ← hok, hok']
      exact ⟨fun h => ⟨rfl, h⟩, fun h => h.2⟩

theorem writes_each {α : Type} {body : α → Program σ} {text : α → List UInt8} {xs : List α}
    (h : ∀ x ∈ xs, Writes k limit (body x) (text x)) :
    Writes k limit (Program.each body xs) (xs.flatMap text) := by
  induction xs with
  | nil => exact writes_skip
  | cons x xs ih =>
    exact writes_andThen (h x List.mem_cons_self) (ih (fun y hy => h y (List.mem_cons_of_mem _ hy)))

end Programs

end GrowableText
