import Mathlib

/-!
# Scans over a list

A scan takes the longest beginning of a list whose items satisfy a test. It takes exactly a part
that satisfies the test if the list behind that part does not go on with such an item.
-/
namespace Scanning

variable {α : Type} {P : α → Bool}

def Stops (P : α → Bool) (tail : List α) : Prop := ∀ c, tail.head? = some c → P c = false

theorem stops_nil : Stops P [] := by
  intro c hc
  cases hc

theorem stops_cons {c : α} (hc : P c = false) (tail : List α) : Stops P (c :: tail) := by
  intro d hd
  cases hd
  exact hc

/-- A list that stops a scan still does with another one behind it that stops it, too. -/
theorem Stops.append {b tail : List α} (hb : Stops P b) (htail : Stops P tail) :
    Stops P (b ++ tail) := by
  intro c hc
  cases b with
  | nil => exact htail c hc
  | cons d b => exact hb c hc

theorem dropWhile_stops (P : α → Bool) (b : List α) : Stops P (b.dropWhile P) := by
  intro c hc
  have hnot := List.head?_dropWhile_not P b
  rw [hc] at hnot
  simpa using hnot

theorem takeWhile_stops {b tail : List α} (hb : ∀ c ∈ b, P c = true) (htail : Stops P tail) :
    (b ++ tail).takeWhile P = b ∧ (b ++ tail).dropWhile P = tail := by
  have hstop : tail.takeWhile P = [] ∧ tail.dropWhile P = tail := by
    cases tail with
    | nil => exact ⟨rfl, rfl⟩
    | cons c tail =>
      have hc := htail c rfl
      exact ⟨List.takeWhile_cons_of_neg (by simp [hc]), List.dropWhile_cons_of_neg (by simp [hc])⟩
  rw [List.takeWhile_append_of_pos hb, List.dropWhile_append_of_pos hb, hstop.1, hstop.2,
    List.append_nil]
  exact ⟨rfl, rfl⟩

theorem cut_behind {tail : List α} (htail : Stops P tail) (b : List α) :
    (b ++ tail).takeWhile P = b.takeWhile P ∧
      (b ++ tail).dropWhile P = b.dropWhile P ++ tail := by
  have hcut := List.takeWhile_append_dropWhile (p := P) (l := b)
  have hboth := takeWhile_stops (b := b.takeWhile P) (fun c hc => List.mem_takeWhile_imp hc)
    ((dropWhile_stops P b).append htail)
  rwa [← List.append_assoc, hcut] at hboth

theorem scan_cut (P : α → Bool) (b : List α) :
    ∃ taken, b = taken ++ b.dropWhile P ∧ ∀ c ∈ taken, P c = true :=
  ⟨b.takeWhile P, List.takeWhile_append_dropWhile.symm, fun _ hc => List.mem_takeWhile_imp hc⟩

end Scanning
