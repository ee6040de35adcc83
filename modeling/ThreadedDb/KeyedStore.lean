import Mathlib

/-!
# Lists searched by key

A list of records found by linear search for a key. Putting a record replaces the one found
under its key, or goes to the end.
-/
namespace KeyedStore

variable {α κ : Type} [DecidableEq κ] (key : α → κ)

def find (xs : List α) (k : κ) : Option α := xs.find? (fun x => key x = k)

def put (xs : List α) (x : α) : List α :=
  match xs.findIdx? (fun y => key y = key x) with
  | some i => xs.set i x
  | none => xs ++ [x]

def Unique (xs : List α) : Prop := (xs.map key).Nodup

variable {key}

theorem find_cons (x : α) (xs : List α) (k : κ) :
    find key (x :: xs) k = if key x = k then some x else find key xs k := by
  unfold find
  rw [List.find?_cons]
  by_cases hk : key x = k <;> simp [hk]

theorem put_nil (x : α) : put key [] x = [x] := rfl

theorem put_cons (y : α) (ys : List α) (x : α) :
    put key (y :: ys) x = if key y = key x then x :: ys else y :: put key ys x := by
  unfold put
  rw [List.findIdx?_cons]
  by_cases hk : key y = key x
  · simp [hk]
  · simp only [hk, decide_false, if_false, Bool.false_eq_true]
    cases ys.findIdx? (fun y => key y = key x) with
    | none => simp
    | some i => simp

theorem key_of_find {xs : List α} {k : κ} {x : α} (h : find key xs k = some x) : key x = k := by
  simpa using List.find?_some h

theorem mem_of_find {xs : List α} {k : κ} {x : α} (h : find key xs k = some x) : x ∈ xs :=
  List.mem_of_find?_eq_some h

theorem mem_put {xs : List α} {x y : α} (h : y ∈ put key xs x) : y = x ∨ y ∈ xs := by
  unfold put at h
  split at h
  · exact (List.mem_or_eq_of_mem_set h).symm
  · rcases List.mem_append.mp h with h | h
    · exact Or.inr h
    · exact Or.inl (List.mem_singleton.mp h)

/-- A search after a put finds the record put, under its key, and otherwise what it found. -/
theorem find_put (xs : List α) (x : α) (k : κ) :
    find key (put key xs x) k = if key x = k then some x else find key xs k := by
  induction xs with
  | nil =>
    rw [put_nil, find_cons]
  | cons y ys ih =>
    rw [put_cons]
    by_cases hy : key y = key x
    · rw [if_pos hy, find_cons, find_cons]
      by_cases hk : key x = k
      · rw [if_pos hk, if_pos hk]
      · rw [if_neg hk, if_neg hk, if_neg (hy ▸ hk)]
    · rw [if_neg hy, find_cons, find_cons, ih]
      by_cases hk : key x = k
      · rw [if_pos hk, if_neg (fun h => hy (h.trans hk.symm)), if_pos hk]
      · rw [if_neg hk, if_neg hk]

theorem find_none_iff {xs : List α} {k : κ} : find key xs k = none ↔ k ∉ xs.map key := by
  unfold find
  rw [List.find?_eq_none]
  constructor
  · intro h hmem
    obtain ⟨x, hx, rfl⟩ := List.mem_map.mp hmem
    simpa using h x hx
  · intro h x hx
    have : key x ≠ k := fun heq => h (heq ▸ List.mem_map_of_mem hx)
    simpa using this

theorem get_findIdx {xs : List α} {k : κ} {i : ℕ}
    (h : xs.findIdx? (fun x => key x = k) = some i) : ∃ x, xs[i]? = some x ∧
      find key xs k = some x := by
  induction xs generalizing i with
  | nil => cases h
  | cons y ys ih =>
    rw [List.findIdx?_cons] at h
    rw [find_cons]
    by_cases hk : key y = k
    · simp only [hk, decide_true, if_true, Option.some.injEq] at h
      subst h
      exact ⟨y, rfl, if_pos hk⟩
    · simp only [hk, decide_false, if_false, Bool.false_eq_true, Option.map_eq_some_iff] at h
      obtain ⟨j, hj, rfl⟩ := h
      obtain ⟨x, hx, hfind⟩ := ih hj
      refine ⟨x, hx, ?_⟩
      rw [if_neg hk, hfind]

theorem find_of_findIdx_none {xs : List α} {k : κ}
    (h : xs.findIdx? (fun x => key x = k) = none) : find key xs k = none := by
  rw [List.findIdx?_eq_none_iff] at h
  unfold find
  rw [List.find?_eq_none]
  intro x hx
  simpa using h x hx

theorem put_self {xs : List α} {k : κ} {x : α} (h : find key xs k = some x) :
    put key xs x = xs := by
  induction xs with
  | nil => cases h
  | cons y ys ih =>
    rw [find_cons] at h
    rw [put_cons]
    by_cases hk : key y = k
    · rw [if_pos hk] at h
      cases h
      rw [if_pos rfl]
    · rw [if_neg hk] at h
      rw [if_neg (fun heq => hk (heq.trans (key_of_find h))), ih h]

theorem unique_put {xs : List α} (h : Unique key xs) (x : α) : Unique key (put key xs x) := by
  unfold put
  cases hidx : xs.findIdx? (fun y => key y = key x) with
  | some i =>
    obtain ⟨y, hy, hfind⟩ := get_findIdx hidx
    have hkey : key y = key x := key_of_find hfind
    have hmap : (xs.set i x).map key = xs.map key := by
      apply List.ext_getElem?
      intro j
      rw [List.map_set, List.getElem?_set, List.length_map]
      split
      · rename_i hij
        subst hij
        rw [if_pos (List.getElem?_eq_some_iff.mp hy).1, List.getElem?_map, hy, Option.map_some,
          hkey]
      · rfl
    rw [Unique, hmap]
    exact h
  | none =>
    have hnot := find_none_iff.mp (find_of_findIdx_none hidx)
    rw [Unique, List.map_append, List.map_singleton, ← List.concat_eq_append]
    exact List.Nodup.concat hnot h

theorem find_of_mem {xs : List α} (h : Unique key xs) {x : α} (hx : x ∈ xs) :
    find key xs (key x) = some x := by
  induction xs with
  | nil => cases hx
  | cons y ys ih =>
    rw [Unique, List.map_cons, List.nodup_cons] at h
    rw [find_cons]
    rcases List.mem_cons.mp hx with rfl | hx
    · rw [if_pos rfl]
    · rw [if_neg, ih h.2 hx]
      intro heq
      exact h.1 (heq ▸ List.mem_map_of_mem hx)

theorem perm_of_find {xs ys : List α} (hx : Unique key xs) (hy : Unique key ys)
    (h : ∀ k, find key xs k = find key ys k) : xs.Perm ys := by
  apply (List.perm_ext_iff_of_nodup hx.of_map hy.of_map).mpr
  intro x
  constructor
  · intro hmem
    apply mem_of_find (k := key x)
    rw [← h, find_of_mem hx hmem]
  · intro hmem
    apply mem_of_find (k := key x)
    rw [h, find_of_mem hy hmem]

end KeyedStore
