import ThreadedDb.GrowableText
import Mathlib.Data.Multiset.AddSub

/-!
# Memory with an account of its blocks

Every block has a number of its own, and reading, writing or freeing a block faults if its number is
not out. So a program that ends has freed nothing twice and used nothing that was freed. `Keeps` is
its account: which blocks it held before and which it holds afterwards, all others being as they
were.
-/
namespace OwnedMemory

open GrowableText (Block store copyIn resize readText Starts)
open CheckedArray (Checked Fault ok_bind)

variable {α : Type}

structure Chunk (α : Type) where
  id : ℕ
  cells : Block α

/-- Whether the coming requests succeed (past the end of the plan they do), the next number, and the
numbers that are out. -/
structure Memory where
  plan : List Bool
  next : ℕ
  live : Multiset ℕ

def malloc (m : Memory) (size : ℕ) : Memory × Option (Chunk α) :=
  if m.plan.headD true then
    (⟨m.plan.tail, m.next + 1, m.next ::ₘ m.live⟩, some ⟨m.next, List.replicate size none⟩)
  else (⟨m.plan.tail, m.next, m.live⟩, none)

/-- `calloc`, of cells that read as `zero` when all their bytes are zero. -/
def calloc (m : Memory) (count : ℕ) (zero : α) : Memory × Option (Chunk α) :=
  match (malloc m count : Memory × Option (Chunk α)) with
  | (m, none) => (m, none)
  | (m, some c) => (m, some ⟨c.id, List.replicate count (some zero)⟩)

def realloc (m : Memory) (p : Option (Chunk α)) (size : ℕ) :
    Checked (Memory × Option (Chunk α)) :=
  match p with
  | none => .ok (malloc m size)
  | some c =>
    if c.id ∈ m.live then
      if m.plan.headD true then
        .ok (⟨m.plan.tail, m.next + 1, m.next ::ₘ m.live.erase c.id⟩,
          some ⟨m.next, resize c.cells size⟩)
      else .ok (⟨m.plan.tail, m.next, m.live⟩, none)
    else .error .badPointer

def free (m : Memory) (p : Option (Chunk α)) : Checked Memory :=
  match p with
  | none => .ok m
  | some c =>
    if c.id ∈ m.live then .ok { m with live := m.live.erase c.id } else .error .badPointer

def writeCell (m : Memory) (c : Chunk α) (i : ℕ) (v : α) : Checked (Chunk α) :=
  if c.id ∈ m.live then do
    let cells ← store c.cells i v
    .ok ⟨c.id, cells⟩
  else .error .badPointer

def writeCells (m : Memory) (c : Chunk α) (values : List α) : Checked (Chunk α) :=
  if c.id ∈ m.live then do
    let cells ← copyIn c.cells 0 values
    .ok ⟨c.id, cells⟩
  else .error .badPointer

def readCell (m : Memory) (c : Chunk α) (i : ℕ) : Checked α :=
  if c.id ∈ m.live then
    match c.cells[i]? with
    | none => .error .outOfBounds
    | some none => .error .uninitialized
    | some (some v) => .ok v
  else .error .badPointer

def readString (m : Memory) (c : Chunk UInt8) : Checked (List UInt8) :=
  if c.id ∈ m.live then readText c.cells else .error .badPointer

def freeEach (release : Memory → α → Checked Memory) (array : Chunk α) :
    ℕ → ℕ → Memory → Checked Memory
  | 0, _, m => .ok m
  | n + 1, i, m => do
    let value ← readCell m array i
    let m ← release m value
    freeEach release array n (i + 1) m

def freeArray (release : Memory → α → Checked Memory) (m : Memory) (p : Option (Chunk α))
    (count : ℕ) : Checked Memory :=
  match p with
  | none => .ok m
  | some array => do
    let m ← freeEach release array count 0 m
    free m (some array)

def ids (p : Option (Chunk α)) : Multiset ℕ :=
  match p with
  | none => 0
  | some c => {c.id}

/-- From `m` to `m'`, with the blocks `old` in hand before and `new` afterwards. -/
structure Keeps (m m' : Memory) (old new : Multiset ℕ) : Prop where
  plan : m'.plan <:+ m.plan
  live : m'.live + old = m.live + new

namespace Keeps

variable {m m' m'' : Memory} {old mid new : Multiset ℕ}

theorem refl (m : Memory) (held : Multiset ℕ) : Keeps m m held held :=
  ⟨List.suffix_refl _, rfl⟩

theorem trans (h : Keeps m m' old mid) (h' : Keeps m' m'' mid new) : Keeps m m'' old new := by
  refine ⟨h'.plan.trans h.plan, ?_⟩
  apply add_right_cancel (b := mid)
  calc m''.live + old + mid = m''.live + mid + old := add_right_comm _ _ _
    _ = m'.live + old + new := by rw [h'.live, add_right_comm]
    _ = m.live + new + mid := by rw [h.live, add_right_comm]

theorem frame (h : Keeps m m' old new) (more : Multiset ℕ) :
    Keeps m m' (old + more) (new + more) := by
  refine ⟨h.plan, ?_⟩
  rw [← add_assoc, h.live, add_assoc]

theorem held (h : Keeps m m' old new) (hold : old ≤ m.live) : new ≤ m'.live := by
  obtain ⟨rest, hrest⟩ := Multiset.le_iff_exists_add.mp hold
  have hlive := h.live
  rw [hrest, add_comm m'.live, add_assoc] at hlive
  rw [add_left_cancel hlive]
  exact Multiset.le_add_left new rest

theorem cast (h : Keeps m m' old new) {old' new' : Multiset ℕ} (ho : old = old')
    (hn : new = new') : Keeps m m' old' new' := by
  subst ho hn
  exact h

theorem refused (h : Keeps m m' old new) (hno : false ∈ m'.plan) : false ∈ m.plan :=
  h.plan.subset hno

end Keeps

theorem mem_of_held {c : Chunk α} {m : Memory} (h : ids (some c) ≤ m.live) : c.id ∈ m.live :=
  Multiset.singleton_le.mp h

theorem held_left {m : Memory} {first rest : Multiset ℕ} (h : first + rest ≤ m.live) :
    first ≤ m.live :=
  (Multiset.le_add_right first rest).trans h

theorem held_right {m : Memory} {first rest : Multiset ℕ} (h : first + rest ≤ m.live) :
    rest ≤ m.live :=
  (Multiset.le_add_left rest first).trans h

theorem refused_head {plan : List Bool} (h : plan.headD true = false) : false ∈ plan := by
  cases plan with
  | nil => cases h
  | cons b plan =>
    cases h
    exact List.mem_cons_self

theorem malloc_keeps (m : Memory) (size : ℕ) :
    ∃ m' p, (malloc m size : Memory × Option (Chunk α)) = (m', p) ∧ Keeps m m' 0 (ids p) ∧
      (p = none → false ∈ m.plan) ∧ ∀ c, p = some c → c.cells = List.replicate size none := by
  cases hplan : m.plan.headD true with
  | false =>
    refine ⟨⟨m.plan.tail, m.next, m.live⟩, none, ?_, ⟨List.tail_suffix _, rfl⟩,
      fun _ => refused_head hplan, fun c hc => by cases hc⟩
    rw [malloc, hplan]
    rfl
  | true =>
    refine ⟨⟨m.plan.tail, m.next + 1, m.next ::ₘ m.live⟩, some ⟨m.next, List.replicate size none⟩,
      if_pos hplan, ⟨List.tail_suffix _, ?_⟩, fun hnone => (by cases hnone),
      fun c hc => (by cases hc; rfl)⟩
    change m.next ::ₘ m.live + 0 = m.live + {m.next}
    rw [add_zero, add_comm, Multiset.singleton_add]

theorem calloc_keeps (m : Memory) (count : ℕ) (zero : α) :
    ∃ m' p, calloc m count zero = (m', p) ∧ Keeps m m' 0 (ids p) ∧
      (p = none → false ∈ m.plan) ∧
      ∀ c, p = some c → c.cells = List.replicate count (some zero) := by
  obtain ⟨m', p, hcall, hkeeps, hnone, -⟩ := malloc_keeps (α := α) m count
  rw [calloc, hcall]
  cases p with
  | none => exact ⟨m', none, rfl, hkeeps, hnone, fun c hc => by cases hc⟩
  | some c => exact ⟨m', _, rfl, hkeeps, fun h => (by cases h), fun d hd => by cases hd; rfl⟩

theorem realloc_keeps {m : Memory} {p : Option (Chunk α)} (hp : ids p ≤ m.live) (size : ℕ) :
    ∃ m' q, realloc m p size = .ok (m', q) ∧
      (q = none → false ∈ m.plan ∧ Keeps m m' (ids p) (ids p)) ∧
      ∀ c, q = some c → Keeps m m' (ids p) (ids q) ∧
        c.cells = resize ((p.map Chunk.cells).getD []) size := by
  cases p with
  | none =>
    obtain ⟨m', q, hcall, hkeeps, hnone, hsome⟩ := malloc_keeps (α := α) m size
    refine ⟨m', q, by rw [realloc, hcall], ?_, ?_⟩
    · rintro rfl
      exact ⟨hnone rfl, hkeeps⟩
    · intro c hc
      refine ⟨hkeeps, (hsome c hc).trans ?_⟩
      simp [resize]
  | some c =>
    have hmem := mem_of_held hp
    cases hplan : m.plan.headD true with
    | false =>
      refine ⟨⟨m.plan.tail, m.next, m.live⟩, none, ?_, ?_, fun d hd => by cases hd⟩
      · rw [realloc, if_pos hmem, hplan]
        rfl
      · intro _
        exact ⟨refused_head hplan, List.tail_suffix _, rfl⟩
    | true =>
      refine ⟨_, _, by rw [realloc, if_pos hmem, if_pos hplan], fun hnone => (by cases hnone), ?_⟩
      rintro d hd
      cases hd
      refine ⟨⟨List.tail_suffix _, ?_⟩, rfl⟩
      change m.next ::ₘ m.live.erase c.id + {c.id} = m.live + {m.next}
      rw [Multiset.cons_add, add_comm, Multiset.singleton_add, Multiset.cons_erase hmem, add_comm,
        Multiset.singleton_add]

theorem free_keeps {m : Memory} {p : Option (Chunk α)} (hp : ids p ≤ m.live) :
    ∃ m', free m p = .ok m' ∧ Keeps m m' (ids p) 0 := by
  cases p with
  | none => exact ⟨m, rfl, Keeps.refl m 0⟩
  | some c =>
    have hmem := mem_of_held hp
    refine ⟨_, if_pos hmem, List.suffix_refl _, ?_⟩
    change m.live.erase c.id + {c.id} = m.live + 0
    rw [add_comm, Multiset.singleton_add, Multiset.cons_erase hmem, add_zero]

theorem writeCell_starts {m : Memory} {c : Chunk α} (hc : c.id ∈ m.live) {text : List α}
    (h : Starts c.cells text) (hroom : text.length < c.cells.length) (v : α) :
    ∃ c', writeCell m c text.length v = .ok c' ∧ c'.id = c.id ∧
      c'.cells.length = c.cells.length ∧ Starts c'.cells (text ++ [v]) := by
  obtain ⟨cells, hstore, hlen, hstarts⟩ := GrowableText.store_starts h hroom v
  refine ⟨⟨c.id, cells⟩, ?_, rfl, hlen, hstarts⟩
  rw [writeCell, if_pos hc, hstore, ok_bind]

theorem writeCell_set {m : Memory} {c : Chunk α} (hc : c.id ∈ m.live) {before after : List α}
    {old : α} (h : c.cells = (before ++ old :: after).map some) (v : α) :
    writeCell m c before.length v = .ok ⟨c.id, (before ++ v :: after).map some⟩ := by
  rw [writeCell, if_pos hc, store, if_pos (by simp [h]), h]
  simp

theorem writeCells_starts {m : Memory} {c : Chunk α} (hc : c.id ∈ m.live) {values : List α}
    (hroom : values.length ≤ c.cells.length) :
    ∃ c', writeCells m c values = .ok c' ∧ c'.id = c.id ∧
      c'.cells.length = c.cells.length ∧ Starts c'.cells values := by
  obtain ⟨cells, hcopy, hlen, hstarts⟩ := GrowableText.copyIn_starts (GrowableText.starts_nil c.cells)
    values (by rwa [List.length_nil, Nat.zero_add])
  refine ⟨⟨c.id, cells⟩, ?_, rfl, hlen, hstarts⟩
  rw [List.length_nil] at hcopy
  rw [writeCells, if_pos hc, hcopy, ok_bind]

theorem readCell_starts {m : Memory} {c : Chunk α} (hc : c.id ∈ m.live) {values : List α}
    (h : Starts c.cells values) {i : ℕ} {v : α} (hv : values[i]? = some v) :
    readCell m c i = .ok v := by
  have hcell : c.cells[i]? = some (some v) := by
    obtain ⟨rest, hrest⟩ := h
    obtain ⟨hi, hget⟩ := List.getElem?_eq_some_iff.mp hv
    rw [← hrest, List.getElem?_append_left (by rwa [List.length_map]), List.getElem?_map, hv]
    rfl
  rw [readCell, if_pos hc, hcell]

theorem readString_takeWhile {m : Memory} {c : Chunk UInt8} (hc : c.id ∈ m.live)
    {text : List UInt8} (h : Starts c.cells (text ++ [0])) :
    readString m c = .ok (text.takeWhile (· ≠ 0)) := by
  rw [readString, if_pos hc]
  exact GrowableText.readText_takeWhile h

theorem readString_starts {m : Memory} {c : Chunk UInt8} (hc : c.id ∈ m.live)
    {text : List UInt8} (h : Starts c.cells (text ++ [0])) (hclean : 0 ∉ text) :
    readString m c = .ok text := by
  rw [readString, if_pos hc]
  exact GrowableText.readText_starts h hclean

def totalIds (blocks : α → Multiset ℕ) (values : List α) : Multiset ℕ := (values.map blocks).sum

theorem totalIds_nil (blocks : α → Multiset ℕ) : totalIds blocks [] = 0 := rfl

theorem totalIds_cons (blocks : α → Multiset ℕ) (v : α) (values : List α) :
    totalIds blocks (v :: values) = blocks v + totalIds blocks values := by
  rw [totalIds, List.map_cons, List.sum_cons, totalIds]

theorem totalIds_append (blocks : α → Multiset ℕ) (values more : List α) :
    totalIds blocks (values ++ more) = totalIds blocks values + totalIds blocks more := by
  rw [totalIds, List.map_append, List.sum_append, totalIds, totalIds]

theorem le_totalIds (blocks : α → Multiset ℕ) {v : α} {values : List α} (h : v ∈ values) :
    blocks v ≤ totalIds blocks values := by
  obtain ⟨before, after, rfl⟩ := List.append_of_mem h
  rw [totalIds_append, totalIds_cons]
  exact (Multiset.le_add_right _ _).trans (Multiset.le_add_left _ _)

def Lists (p : Option (Chunk α)) (values : List α) : Prop :=
  match p with
  | none => values = []
  | some array => array.cells = values.map some

/-- The array starts with these values; what follows counts no more. -/
def Leads (p : Option (Chunk α)) (values : List α) : Prop :=
  match p with
  | none => values = []
  | some array => Starts array.cells values

section Arrays

variable {m : Memory} {p : Option (Chunk α)} {values : List α}

theorem Lists.leads (h : Lists p values) : Leads p values := by
  cases p with
  | none => exact h
  | some array =>
    have hcells : array.cells = values.map some := h
    rw [Leads, Starts, hcells]

theorem lists_of_length {array : Chunk α} (h : Starts array.cells values)
    (hlength : array.cells.length = values.length) : Lists (some array) values :=
  (List.IsPrefix.eq_of_length h (by rw [List.length_map, hlength])).symm

theorem grow_keeps (h : Lists p values) (hp : ids p ≤ m.live) {size : ℕ}
    (hsize : values.length ≤ size) :
    ∃ m' q, realloc m p size = .ok (m', q) ∧
      (q = none → false ∈ m.plan ∧ Keeps m m' (ids p) (ids p)) ∧
      ∀ array, q = some array → Keeps m m' (ids p) (ids q) ∧ array.cells.length = size ∧
        Starts array.cells values := by
  have hold : (p.map Chunk.cells).getD [] = values.map some := by
    cases p with
    | none =>
      obtain rfl : values = [] := h
      rfl
    | some old => exact h
  have hstarts : Starts (values.map some) values := List.prefix_refl _
  obtain ⟨m', q, hcall, hnone, hsome⟩ := realloc_keeps hp size
  refine ⟨m', q, hcall, hnone, ?_⟩
  intro array hq
  obtain ⟨hkeeps, hcells⟩ := hsome array hq
  rw [hcells, hold]
  exact ⟨hkeeps, @GrowableText.resize_starts _ _ _ hstarts size (by rwa [List.length_map])⟩

def Releases (release : Memory → α → Checked Memory) (blocks : α → Multiset ℕ) (v : α) : Prop :=
  ∀ m : Memory, blocks v ≤ m.live → ∃ m', release m v = .ok m' ∧ Keeps m m' (blocks v) 0

variable {release : Memory → α → Checked Memory} {blocks : α → Multiset ℕ}

theorem freeEach_keeps {array : Chunk α} (now : List α) {before after : List α}
    (hrelease : ∀ v ∈ now, Releases release blocks v)
    (hstarts : Starts array.cells (before ++ now ++ after))
    (hheld : totalIds blocks now + ids (some array) ≤ m.live) :
    ∃ m', freeEach release array now.length before.length m = .ok m' ∧
      Keeps m m' (totalIds blocks now + ids (some array)) (ids (some array)) := by
  induction now generalizing before m with
  | nil => exact ⟨m, rfl, (Keeps.refl m _).cast (zero_add _).symm rfl⟩
  | cons v now ih =>
    rw [totalIds_cons, add_assoc] at hheld
    have hread : readCell m array before.length = .ok v :=
      readCell_starts (mem_of_held (held_right (held_right hheld))) hstarts (by simp)
    obtain ⟨m₁, hfree, hkeeps⟩ := hrelease v List.mem_cons_self m (held_left hheld)
    have hkeeps₁ := (hkeeps.frame (totalIds blocks now + ids (some array))).cast rfl (zero_add _)
    obtain ⟨m', hrun, hkeeps'⟩ := @ih m₁ (before ++ [v])
      (fun w hw => hrelease w (List.mem_cons_of_mem v hw)) (by simpa using hstarts)
      (hkeeps₁.held hheld)
    rw [List.length_append, List.length_singleton] at hrun
    refine ⟨m', ?_, ?_⟩
    · rw [List.length_cons, freeEach, hread, ok_bind, hfree, ok_bind, hrun]
    · rw [totalIds_cons, add_assoc]
      exact hkeeps₁.trans hkeeps'

theorem freeArray_keeps (hrelease : ∀ v ∈ values, Releases release blocks v)
    (h : Leads p values) (hheld : totalIds blocks values + ids p ≤ m.live) :
    ∃ m', freeArray release m p values.length = .ok m' ∧
      Keeps m m' (totalIds blocks values + ids p) 0 := by
  cases p with
  | none =>
    obtain rfl : values = [] := h
    exact ⟨m, rfl, Keeps.refl m 0⟩
  | some array =>
    have hstarts : Starts array.cells values := h
    obtain ⟨m₁, hrun, hkeeps⟩ := @freeEach_keeps _ m release blocks array values [] []
      hrelease (by simpa using hstarts) hheld
    obtain ⟨m', hfree, hkeeps'⟩ := free_keeps (hkeeps.held hheld)
    refine ⟨m', ?_, hkeeps.trans hkeeps'⟩
    rw [List.length_nil] at hrun
    rw [freeArray, hrun, ok_bind, hfree]

end Arrays

inductive Halt where
  | fault (f : Fault)
  | exit

abbrev Process (α : Type) := Except Halt α

def attempt (x : Checked α) : Process α := x.mapError .fault

theorem attempt_ok {x : Checked α} {a : α} (h : x = .ok a) : attempt x = .ok a := by
  rw [h]
  rfl

section Processes

variable {β : Type} {m : Memory}

/-- The program ends the process for want of memory, or returns as `post` says. -/
def Runs (m : Memory) (call : Process (Memory × α)) (post : Memory → α → Prop) : Prop :=
  (call = .error .exit ∧ false ∈ m.plan) ∨
    ∃ m' r, call = .ok (m', r) ∧ m'.plan <:+ m.plan ∧ post m' r

theorem Runs.bind {call : Process (Memory × α)} {f : Memory × α → Process (Memory × β)}
    {post : Memory → α → Prop} {post' : Memory → β → Prop} (h : Runs m call post)
    (hf : ∀ m' r, m'.plan <:+ m.plan → post m' r → Runs m' (f (m', r)) post') :
    Runs m (call >>= f) post' := by
  obtain ⟨rfl, hno⟩ | ⟨m₁, r, rfl, hplan, hpost⟩ := h
  · exact .inl ⟨rfl, hno⟩
  · obtain ⟨hexit, hno⟩ | ⟨m₂, r', hrun, hplan', hpost'⟩ := hf m₁ r hplan hpost
    · exact .inl ⟨hexit, hplan.subset hno⟩
    · exact .inr ⟨m₂, r', hrun, hplan'.trans hplan, hpost'⟩

theorem Runs.after {m₁ : Memory} {call : Process (Memory × α)} {post post' : Memory → α → Prop}
    (hplan : m₁.plan <:+ m.plan) (h : Runs m₁ call post)
    (himp : ∀ m' r, post m' r → post' m' r) : Runs m call post' := by
  obtain ⟨hexit, hno⟩ | ⟨m', r, hrun, hplan', hpost⟩ := h
  · exact .inl ⟨hexit, hplan.subset hno⟩
  · exact .inr ⟨m', r, hrun, hplan'.trans hplan, himp m' r hpost⟩

theorem Runs.pure {r : α} {post : Memory → α → Prop} (hpost : post m r) :
    Runs m (.ok (m, r)) post :=
  .inr ⟨m, r, rfl, List.suffix_refl _, hpost⟩

end Processes

end OwnedMemory
