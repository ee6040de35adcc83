import Mathlib

/-!
# Fixed arrays with checked access

Reads and writes outside an array, reads of a slot nobody wrote, bad pointers and loops that
do not end are faults instead of undefined behaviour. `Holds a xs` says that the first slots
of `a` are the list `xs`; the loops below are specified through it.
-/
namespace CheckedArray

inductive Fault where
  | outOfBounds
  | uninitialized
  | badPointer
  | unbounded
  deriving DecidableEq, Repr

abbrev Checked (α : Type) := Except Fault α

@[simp] theorem ok_bind {α β : Type} (a : α) (f : α → Checked β) :
    (Except.ok a >>= f : Checked β) = f a := rfl
theorem bind_eq_ok {ε α β : Type} {x : Except ε α} {f : α → Except ε β} {b : β} :
    (x >>= f) = .ok b ↔ ∃ a, x = .ok a ∧ f a = .ok b := by
  constructor
  · intro h
    cases x with
    | error e => cases h
    | ok a => exact ⟨a, rfl, h⟩
  · rintro ⟨a, rfl, h⟩
    exact h

@[simp] theorem pure_eq_ok {α : Type} (a : α) : (pure a : Checked α) = .ok a := rfl
@[simp] theorem map_ok {α β : Type} (f : α → β) (a : α) :
    (f <$> (Except.ok a : Checked α)) = .ok (f a) := rfl

variable {α : Type} {n : ℕ}

def read (a : Vector α n) (i : ℕ) : Checked α :=
  match a[i]? with
  | some x => .ok x
  | none => .error .outOfBounds

def write (a : Vector α n) (i : ℕ) (x : α) : Checked (Vector α n) :=
  if h : i < n then .ok (a.set i x h) else .error .outOfBounds

def readInit (a : Vector (Option α) n) (i : ℕ) : Checked α :=
  match a[i]? with
  | some (some x) => .ok x
  | some none => .error .uninitialized
  | none => .error .outOfBounds

def shiftUp (a : Vector α n) (lo : ℕ) : ℕ → Checked (Vector α n)
  | 0 => .ok a
  | i + 1 =>
    if lo < i + 1 then do
      let x ← read a i
      let a ← write a (i + 1) x
      shiftUp a lo i
    else .ok a

def advance (a : Vector α n) (p : α → Bool) (count : ℕ) : ℕ → ℕ → Checked ℕ
  | 0, i => .ok i
  | fuel + 1, i =>
    if i < count then do
      let x ← read a i
      if p x then advance a p count fuel (i + 1) else .ok i
    else .ok i

def fill (fetch : ℕ → Checked α) (dst : Vector α n) (d : ℕ) : ℕ → ℕ → Checked (Vector α n)
  | _, 0 => .ok dst
  | i, k + 1 => do
    let x ← fetch i
    let dst ← write dst (i + d) x
    fill fetch dst d (i + 1) k

def Holds (a : Vector α n) (xs : List α) : Prop :=
  ∀ (i : ℕ) (x : α), xs[i]? = some x → a[i]? = some x

theorem holds_nil (a : Vector α n) : Holds a [] := by
  intro i x h
  simp at h

theorem Holds.length_le {a : Vector α n} {xs : List α} (h : Holds a xs) : xs.length ≤ n := by
  by_contra hn
  have hlt : n < xs.length := by omega
  have := h n _ (List.getElem?_eq_getElem hlt)
  simp at this

theorem read_holds {a : Vector α n} {xs : List α} (h : Holds a xs) {i : ℕ} {x : α}
    (hx : xs[i]? = some x) : read a i = .ok x := by
  simp [read, h i x hx]

theorem readInit_holds {a : Vector (Option α) n} {xs : List α} (h : Holds a (xs.map some))
    {i : ℕ} {x : α} (hx : xs[i]? = some x) : readInit a i = .ok x := by
  have := h i (some x) (by simp [hx])
  simp [readInit, this]

theorem write_append {a : Vector α n} {xs : List α} (h : Holds a xs) (hn : xs.length < n)
    (x : α) : ∃ a', write a xs.length x = .ok a' ∧ Holds a' (xs ++ [x]) := by
  refine ⟨a.set xs.length x hn, by simp [write, hn], ?_⟩
  intro i y hy
  rw [Vector.getElem?_set]
  rcases Nat.lt_trichotomy i xs.length with hi | hi | hi
  · rw [List.getElem?_append_left hi] at hy
    rw [if_neg (by omega)]
    exact h i y hy
  · subst i
    rw [List.getElem?_concat_length] at hy
    simpa using hy
  · rw [List.getElem?_eq_none (by simp; omega)] at hy
    cases hy

theorem fill_append (fetch : ℕ → Checked α) {dst : Vector α n} {xs : List α} (ys : List α) {d i : ℕ}
    (h : Holds dst xs) (hi : xs.length = i + d) (hn : xs.length + ys.length ≤ n)
    (hf : ∀ j y, ys[j]? = some y → fetch (i + j) = .ok y) :
    ∃ dst', fill fetch dst d i ys.length = .ok dst' ∧ Holds dst' (xs ++ ys) := by
  induction ys generalizing dst xs i with
  | nil => exact ⟨dst, rfl, by simpa using h⟩
  | cons y ys ih =>
    simp only [List.length_cons] at hn
    obtain ⟨a, hw, ha⟩ := write_append h (by omega) y
    have hy : fetch i = .ok y := by simpa using hf 0 y rfl
    obtain ⟨dst', hfill, hd⟩ := ih (i := i + 1) ha (by simp; omega)
      (by simp only [List.length_append, List.length_cons, List.length_nil]; omega)
      (fun j z hz => by simpa [Nat.add_assoc, Nat.add_comm 1 j] using hf (j + 1) z hz)
    refine ⟨dst', ?_, by simpa using hd⟩
    simp only [List.length_cons, fill, hy, ok_bind, ← hi, hw, hfill]

theorem fill_fresh (fetch : ℕ → Checked α) (dst : Vector α n) (ys : List α)
    (hn : ys.length ≤ n) (hf : ∀ j y, ys[j]? = some y → fetch j = .ok y) :
    ∃ dst', fill fetch dst 0 0 ys.length = .ok dst' ∧ Holds dst' ys := by
  have h : Holds dst ([] : List α) := holds_nil dst
  simpa using fill_append fetch ys h (d := 0) (i := 0) rfl (by simpa using hn) (by simpa using hf)

theorem shiftUp_slots (a : Vector α n) (lo top : ℕ) (hn : top < n) :
    ∃ a', shiftUp a lo top = .ok a' ∧
      ∀ j, a'[j]? = if lo < j ∧ j ≤ top then a[j - 1]? else a[j]? := by
  induction top generalizing a with
  | zero =>
    refine ⟨a, rfl, fun j => ?_⟩
    rw [if_neg (by omega)]
  | succ i ih =>
    by_cases hlo : lo < i + 1
    · have hi : i < n := by omega
      have hread : read a i = .ok a[i] := by simp [read, Vector.getElem?_eq_getElem hi]
      obtain ⟨a', hs, ha⟩ := ih (a.set (i + 1) a[i] hn) (by omega)
      refine ⟨a', ?_, fun j => ?_⟩
      · simp only [shiftUp, if_pos hlo, hread, ok_bind, write, dif_pos hn, hs]
      · rw [ha]
        by_cases hj : lo < j ∧ j ≤ i
        · rw [if_pos hj, if_pos ⟨hj.1, by omega⟩, Vector.getElem?_set, if_neg (by omega)]
        · rw [if_neg hj, Vector.getElem?_set]
          by_cases hji : i + 1 = j
          · subst j
            rw [if_pos rfl, if_pos ⟨hlo, le_rfl⟩]
            simp
          · rw [if_neg hji, if_neg (by omega)]
    · refine ⟨a, by simp only [shiftUp, if_neg hlo], fun j => ?_⟩
      rw [if_neg (by omega)]

theorem shift_insert {a : Vector α n} {l r : List α} (h : Holds a (l ++ r))
    (hn : l.length + r.length < n) (x : α) :
    ∃ a₁ a₂, shiftUp a l.length (l.length + r.length) = .ok a₁ ∧
      write a₁ l.length x = .ok a₂ ∧ Holds a₂ (l ++ x :: r) := by
  obtain ⟨a₁, hs, ha⟩ := shiftUp_slots a l.length (l.length + r.length) hn
  have hl : l.length < n := by omega
  refine ⟨a₁, a₁.set l.length x hl, hs, by simp [write, hl], ?_⟩
  intro i y hy
  have hi : i < (l ++ x :: r).length := (List.getElem?_eq_some_iff.mp hy).1
  simp only [List.length_append, List.length_cons] at hi
  rw [Vector.getElem?_set]
  rcases Nat.lt_trichotomy i l.length with hil | hil | hil
  · rw [if_neg (by omega), ha, if_neg (by omega)]
    apply h
    rw [List.getElem?_append_left hil] at hy ⊢
    exact hy
  · subst i
    rw [List.getElem?_append_right le_rfl] at hy
    simpa using hy
  · rw [if_neg (by omega), ha, if_pos ⟨hil, by omega⟩]
    apply h
    rw [List.getElem?_append_right (by omega)] at hy ⊢
    rw [show i - l.length = (i - 1 - l.length) + 1 by omega, List.getElem?_cons_succ] at hy
    exact hy

theorem advance_holds {a : Vector α n} {xs : List α} (p : α → Bool) (h : Holds a xs) :
    advance a p xs.length xs.length 0 = .ok (xs.takeWhile p).length := by
  have main : ∀ pre post : List α, xs = pre ++ post →
      advance a p xs.length post.length pre.length =
        .ok (pre.length + (post.takeWhile p).length) := by
    intro pre post
    induction post generalizing pre with
    | nil => intro hxs; simp [advance]
    | cons y post ih =>
      intro hxs
      have hread : read a pre.length = .ok y := read_holds h (by simp [hxs])
      have hlt : pre.length < xs.length := by simp [hxs]
      by_cases hy : p y = true
      · have := ih (pre ++ [y]) (by simp [hxs])
        simp only [List.length_append, List.length_cons, List.length_nil, Nat.zero_add] at this
        simp only [List.length_cons, advance, if_pos hlt, hread, ok_bind, hy, if_true, this,
          List.takeWhile_cons_of_pos hy]
        congr 1
        omega
      · simp only [List.length_cons, advance, if_pos hlt, hread, ok_bind, hy,
          List.takeWhile_cons_of_neg hy]
        rfl
  simpa using main [] xs rfl

end CheckedArray
