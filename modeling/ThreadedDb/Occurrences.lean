import Mathlib

/-!
# The first occurrence of a pattern

Where a pattern first stands in a list, and what more of the list does to it: nothing, once it has
been found.
-/
namespace Occurrences

variable {α : Type} {pat xs ys : List α} {i : ℕ}

theorem match_length (hpat : pat ≠ []) (h : pat <+: xs.drop i) : i + pat.length ≤ xs.length := by
  have hle := h.length_le
  have hpos := List.length_pos_iff.mpr hpat
  rw [List.length_drop] at hle
  omega

theorem match_append (hle : i + pat.length ≤ xs.length) :
    pat <+: (xs ++ ys).drop i ↔ pat <+: xs.drop i := by
  rw [List.drop_append_of_le_length (by omega)]
  constructor
  · intro h
    exact List.prefix_of_prefix_length_le h (List.prefix_append _ _)
      (by rw [List.length_drop]; omega)
  · exact List.prefix_append_of_prefix

theorem match_split (h : pat <+: xs.drop i) :
    xs = xs.take i ++ (pat ++ xs.drop (i + pat.length)) := by
  obtain ⟨rest, hrest⟩ := h
  have hdrop : xs.drop (i + pat.length) = rest := by
    rw [← List.drop_drop, ← hrest, List.drop_left]
  rw [hdrop, hrest, List.take_append_drop]

variable [DecidableEq α]

def firstMatch (pat : List α) : List α → Option ℕ
  | [] => if pat = [] then some 0 else none
  | c :: xs => if pat <+: c :: xs then some 0 else (firstMatch pat xs).map (· + 1)

theorem firstMatch_iff (hpat : pat ≠ []) :
    firstMatch pat xs = some i ↔ pat <+: xs.drop i ∧ ∀ j < i, ¬ pat <+: xs.drop j := by
  induction xs generalizing i with
  | nil => simp [firstMatch, hpat]
  | cons c xs ih =>
    rw [firstMatch]
    split
    · rename_i hhere
      rw [Option.some.injEq]
      constructor
      · rintro rfl
        exact ⟨hhere, fun j hj => absurd hj (Nat.not_lt_zero j)⟩
      · rintro ⟨-, hfirst⟩
        by_contra hne
        exact hfirst 0 (by omega) hhere
    · rename_i hhere
      constructor
      · intro h
        obtain ⟨k, hk, rfl⟩ := Option.map_eq_some_iff.mp h
        obtain ⟨hmatch, hfirst⟩ := ih.mp hk
        refine ⟨hmatch, fun j hj => ?_⟩
        cases j with
        | zero => exact hhere
        | succ j => exact hfirst j (by omega)
      · rintro ⟨hmatch, hfirst⟩
        cases i with
        | zero => exact absurd hmatch hhere
        | succ i =>
          have hrest := ih.mpr ⟨hmatch, fun j hj => hfirst (j + 1) (by omega)⟩
          rw [hrest, Option.map_some]

theorem firstMatch_none (hpat : pat ≠ []) :
    firstMatch pat xs = none ↔ ∀ j, ¬ pat <+: xs.drop j := by
  constructor
  · intro h j
    induction j using Nat.strong_induction_on with
    | _ j ih =>
      intro hmatch
      have hsome := (firstMatch_iff hpat).mpr ⟨hmatch, ih⟩
      rw [h] at hsome
      cases hsome
  · intro h
    cases hfound : firstMatch pat xs with
    | none => rfl
    | some i => exact absurd ((firstMatch_iff hpat).mp hfound).1 (h i)

theorem firstMatch_length (hpat : pat ≠ []) (h : firstMatch pat xs = some i) :
    i + pat.length ≤ xs.length := match_length hpat ((firstMatch_iff hpat).mp h).1

theorem firstMatch_append (hpat : pat ≠ []) (h : firstMatch pat xs = some i) (ys : List α) :
    firstMatch pat (xs ++ ys) = some i := by
  have hle := firstMatch_length hpat h
  obtain ⟨hmatch, hfirst⟩ := (firstMatch_iff hpat).mp h
  refine (firstMatch_iff hpat).mpr ⟨(match_append hle).mpr hmatch, fun j hj => ?_⟩
  rw [match_append (by omega)]
  exact hfirst j hj

theorem firstMatch_seen (hpat : pat ≠ []) (h : firstMatch pat (xs ++ ys) = some i)
    (hle : i + pat.length ≤ xs.length) : firstMatch pat xs = some i := by
  obtain ⟨hmatch, hfirst⟩ := (firstMatch_iff hpat).mp h
  refine (firstMatch_iff hpat).mpr ⟨(match_append hle).mp hmatch, fun j hj hother => ?_⟩
  exact hfirst j hj ((match_append (by omega)).mpr hother)

theorem firstMatch_later {c : α} (h : ¬ pat <+: c :: xs) :
    firstMatch pat (c :: xs) = (firstMatch pat xs).map (· + 1) := if_neg h

theorem firstMatch_skip {c : α} {line : List α} (h : c ∉ line) (rest : List α) :
    firstMatch (c :: pat) (line ++ rest) =
      (firstMatch (c :: pat) rest).map (· + line.length) := by
  induction line with
  | nil => simp
  | cons d line ih =>
    have hd : ¬ c :: pat <+: d :: (line ++ rest) := by
      rw [List.cons_prefix_cons]
      rintro ⟨rfl, -⟩
      exact h List.mem_cons_self
    rw [List.cons_append, firstMatch_later hd, ih (fun hc => h (List.mem_cons_of_mem _ hc)),
      Option.map_map]
    congr 1

theorem firstMatch_here {c : α} {line : List α} (h : c ∉ line) (rest : List α) :
    firstMatch (c :: pat) (line ++ (c :: pat ++ rest)) = some line.length := by
  rw [firstMatch_skip h, List.cons_append, firstMatch, if_pos (by simp)]
  simp

end Occurrences
