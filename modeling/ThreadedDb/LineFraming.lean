import Mathlib

/-!
# Lines in a stream

A stream is cut into lines at a terminator; what follows the last terminator is a line of its
own unless it is empty. Appending to a stream adds lines when the stream ends at a terminator,
and lengthens its last line when it does not.
-/
namespace LineFraming

variable {α : Type}

def Terminated (nl : α) (b : List α) : Prop := b = [] ∨ b.getLast? = some nl

/-- Each line with the position where it starts, the first one at `o`. -/
def offsets : ℕ → List (List α) → List (ℕ × List α)
  | _, [] => []
  | o, l :: ls => (o, l) :: offsets (o + l.length + 1) ls

/-- The length of the stream that consists of these lines, each terminated. -/
def span (ls : List (List α)) : ℕ := (ls.map (fun l => l.length + 1)).sum

theorem offsets_append (o : ℕ) (ls ms : List (List α)) :
    offsets o (ls ++ ms) = offsets o ls ++ offsets (o + span ls) ms := by
  induction ls generalizing o with
  | nil => simp [offsets, span]
  | cons l ls ih =>
    rw [List.cons_append, offsets, ih, offsets, List.cons_append]
    congr 3
    simp only [span, List.map_cons, List.sum_cons]
    omega

theorem offsets_lines (o : ℕ) (ls : List (List α)) : (offsets o ls).map Prod.snd = ls := by
  induction ls generalizing o with
  | nil => rfl
  | cons l ls ih => rw [offsets, List.map_cons, ih]

theorem terminated_tail {nl : α} {l rest : List α} (h : Terminated nl (l ++ nl :: rest)) :
    Terminated nl rest := by
  cases rest with
  | nil => exact Or.inl rfl
  | cons c rest =>
    right
    rcases h with h | h
    · simp at h
    · rw [List.getLast?_append, List.getLast?_cons_cons] at h
      rw [List.getLast?_eq_some_getLast (List.cons_ne_nil c rest)] at h ⊢
      simpa using h

theorem terminated_concat (nl : α) (b l : List α) : Terminated nl (b ++ (l ++ [nl])) := by
  right
  simp

theorem not_terminated_last {nl : α} {l : List α} (hl : nl ∉ l) (hne : l ≠ []) :
    ¬ Terminated nl l := by
  rintro (h | h)
  · exact hne h
  · exact hl (List.mem_of_getLast? h)

theorem terminated_cons_line {nl : α} {l rest : List α} :
    Terminated nl (l ++ nl :: rest) ↔ Terminated nl rest := by
  constructor
  · exact terminated_tail
  · rintro (rfl | h)
    · right
      simp
    · right
      rw [List.getLast?_append, List.getLast?_cons, h]
      rfl

variable [DecidableEq α]

def lines (nl : α) : List α → List (List α)
  | [] => []
  | b :: rest =>
    if b = nl then [] :: lines nl rest
    else match lines nl rest with
      | [] => [[b]]
      | l :: ls => (b :: l) :: ls

instance (nl : α) (b : List α) : Decidable (Terminated nl b) :=
  inferInstanceAs (Decidable (_ ∨ _))

variable {nl : α}

theorem lines_cons_line {l : List α} (hl : nl ∉ l) (rest : List α) :
    lines nl (l ++ nl :: rest) = l :: lines nl rest := by
  induction l with
  | nil => simp [lines]
  | cons b l ih =>
    rw [List.mem_cons, not_or] at hl
    rw [List.cons_append, lines, if_neg (Ne.symm hl.1), ih hl.2]

theorem lines_last {l : List α} (hl : nl ∉ l) (hne : l ≠ []) : lines nl l = [l] := by
  induction l with
  | nil => exact absurd rfl hne
  | cons b l ih =>
    rw [List.mem_cons, not_or] at hl
    rw [lines, if_neg (Ne.symm hl.1)]
    cases l with
    | nil => rfl
    | cons c l => rw [ih hl.2 (List.cons_ne_nil _ _)]

/-- Either a terminated line stands in front, or the whole stream is one line. -/
theorem first_line (nl : α) {b : List α} (hb : b ≠ []) :
    (∃ l rest, b = l ++ nl :: rest ∧ nl ∉ l) ∨ nl ∉ b := by
  by_cases hmem : nl ∈ b
  · left
    obtain ⟨l, rest, rfl, hl⟩ := List.eq_append_cons_of_mem hmem
    exact ⟨l, rest, rfl, hl⟩
  · exact Or.inr hmem

theorem takeWhile_line {l : List α} (hl : nl ∉ l) (rest : List α) :
    (l ++ nl :: rest).takeWhile (· ≠ nl) = l := by
  rw [List.takeWhile_append_of_pos]
  · simp
  · intro b hb
    have : b ≠ nl := fun h => hl (h ▸ hb)
    simpa using this

theorem takeWhile_last {l : List α} (hl : nl ∉ l) : l.takeWhile (· ≠ nl) = l := by
  rw [List.takeWhile_eq_self_iff]
  intro b hb
  have : b ≠ nl := fun h => hl (h ▸ hb)
  simpa using this

/-- Reading up to the terminator and past it gives the first line and leaves the others. -/
theorem lines_step {b : List α} (hb : b ≠ []) :
    lines nl b = b.takeWhile (· ≠ nl) ::
      lines nl (b.drop ((b.takeWhile (· ≠ nl)).length + 1)) := by
  rcases first_line nl hb with ⟨l, rest, rfl, hl⟩ | hl
  · rw [takeWhile_line hl, lines_cons_line hl]
    congr 2
    rw [← List.singleton_append, ← List.append_assoc, List.drop_append_of_le_length (by simp),
      List.drop_of_length_le (by simp), List.nil_append]
  · rw [takeWhile_last hl, lines_last hl hb, List.drop_of_length_le (by omega)]
    rfl

/-- Streams are built from the front: a terminated line and a shorter stream, or the rest. -/
theorem stream_induction (nl : α) {motive : List α → Prop} (empty : motive [])
    (last : ∀ l, nl ∉ l → l ≠ [] → motive l)
    (line : ∀ l rest, nl ∉ l → motive rest → motive (l ++ nl :: rest)) (b : List α) :
    motive b := by
  generalize hn : b.length = n
  induction n using Nat.strong_induction_on generalizing b with
  | _ n ih =>
    by_cases hb : b = []
    · exact hb ▸ empty
    · rcases first_line nl hb with ⟨l, rest, rfl, hl⟩ | hl
      · refine line l rest hl (ih rest.length ?_ rest rfl)
        simp only [List.length_append, List.length_cons] at hn
        omega
      · exact last b hl hb

/-- The lines of a terminated stream and of what is appended to it are separate. -/
theorem lines_append {b : List α} (hb : Terminated nl b) (c : List α) :
    lines nl (b ++ c) = lines nl b ++ lines nl c ∧ span (lines nl b) = b.length := by
  induction b using stream_induction nl with
  | empty => exact ⟨rfl, rfl⟩
  | last l hl hne => exact absurd hb (not_terminated_last hl hne)
  | line l rest hl ih =>
    obtain ⟨happ, hspan⟩ := ih (terminated_cons_line.mp hb)
    constructor
    · rw [List.append_assoc, List.cons_append, lines_cons_line hl, lines_cons_line hl, happ,
        List.cons_append]
    · rw [lines_cons_line hl]
      simp only [span, List.map_cons, List.sum_cons, List.length_append, List.length_cons] at hspan ⊢
      omega

theorem offsets_lines_append {b : List α} (hb : Terminated nl b) (c : List α) :
    offsets 0 (lines nl (b ++ c)) = offsets 0 (lines nl b) ++ offsets b.length (lines nl c) := by
  obtain ⟨happ, hspan⟩ := lines_append hb c
  rw [happ, offsets_append, hspan, Nat.zero_add]

theorem lines_continue {b l : List α} (hb : ¬ Terminated nl b) (hl : nl ∉ l) :
    (lines nl (b ++ (l ++ [nl]))).length = (lines nl b).length := by
  induction b using stream_induction nl with
  | empty => exact absurd (Or.inl rfl) hb
  | last a ha hne =>
    have hmem : nl ∉ a ++ l := by
      rw [List.mem_append, not_or]
      exact ⟨ha, hl⟩
    rw [← List.append_assoc, lines_cons_line hmem, lines_last ha hne]
    rfl
  | line a rest ha ih =>
    rw [List.append_assoc, List.cons_append, lines_cons_line ha, lines_cons_line ha]
    simp [ih (fun h => hb (terminated_cons_line.mpr h))]

omit [DecidableEq α] in
theorem offsets_ge {o : ℕ} {ls : List (List α)} {q : ℕ} {l : List α}
    (h : (q, l) ∈ offsets o ls) : o ≤ q := by
  induction ls generalizing o with
  | nil => cases h
  | cons m ls ih =>
    rw [offsets, List.mem_cons] at h
    rcases h with h | h
    · cases h
      exact le_rfl
    · have := ih h
      omega

/-- At the position of a line, reading up to the terminator gives that line. -/
theorem line_at_offset {b : List α} {o : ℕ} {l : List α} (h : (o, l) ∈ offsets 0 (lines nl b)) :
    b.drop o ≠ [] ∧ (b.drop o).takeWhile (· ≠ nl) = l := by
  have main : ∀ p q, (q, l) ∈ offsets p (lines nl b) →
      b.drop (q - p) ≠ [] ∧ (b.drop (q - p)).takeWhile (· ≠ nl) = l := by
    clear h
    induction b using stream_induction nl with
    | empty =>
      intro p q hq
      cases hq
    | last a ha hne =>
      intro p q hq
      rw [lines_last ha hne, offsets, List.mem_cons] at hq
      rcases hq with hq | hq
      · cases hq
        rw [Nat.sub_self]
        exact ⟨hne, takeWhile_last ha⟩
      · cases hq
    | line a rest ha ih =>
      intro p q hq
      rw [lines_cons_line ha, offsets, List.mem_cons] at hq
      rcases hq with hq | hq
      · cases hq
        rw [Nat.sub_self]
        exact ⟨by simp, takeWhile_line ha rest⟩
      · have hge := offsets_ge hq
        have hdrop : (a ++ nl :: rest).drop (q - p) = rest.drop (q - (p + a.length + 1)) := by
          rw [show q - p = a.length + ((q - (p + a.length + 1)) + 1) by omega,
            List.drop_length_add_append, List.drop_succ_cons]
        rw [hdrop]
        exact ih _ _ hq
  exact main 0 o h

theorem mem_of_mem_lines {b l : List α} (hl : l ∈ lines nl b) {c : α} (hc : c ∈ l) : c ∈ b := by
  induction b using stream_induction nl with
  | empty => cases hl
  | last a ha hne =>
    rw [lines_last ha hne, List.mem_singleton] at hl
    exact hl ▸ hc
  | line a rest ha ih =>
    rw [lines_cons_line ha, List.mem_cons] at hl
    rcases hl with rfl | hl
    · exact List.mem_append_left _ hc
    · exact List.mem_append_right _ (List.mem_cons_of_mem _ (ih hl))

/-- The first position of the stream and those just after a terminator. -/
def starts (nl : α) (b : List α) : List ℕ :=
  (List.range b.length).filter (fun o => o = 0 ∨ b[o - 1]? = some nl)

theorem starts_last {l : List α} (hl : nl ∉ l) (hne : l ≠ []) : starts nl l = [0] := by
  obtain ⟨n, hn⟩ := Nat.exists_eq_succ_of_ne_zero (List.length_pos_iff.mpr hne).ne'
  have hrest : (List.range n).filter (fun o => decide (l[o]? = some nl)) = [] := by
    rw [List.filter_eq_nil_iff]
    intro o _ h
    exact hl (List.mem_of_getElem? (of_decide_eq_true h))
  rw [starts, hn, List.range_succ_eq_map, List.filter_cons_of_pos (by simp), List.filter_map]
  simpa [Function.comp_def] using hrest

theorem starts_line {l : List α} (hl : nl ∉ l) (rest : List α) :
    starts nl (l ++ nl :: rest) = 0 :: (starts nl rest).map (l.length + 1 + ·) := by
  have hfirst : (List.range (l.length + 1)).filter
      (fun o => decide (o = 0 ∨ (l ++ nl :: rest)[o - 1]? = some nl)) = [0] := by
    rw [List.range_succ_eq_map, List.filter_cons_of_pos (by simp), List.filter_map]
    simp only [List.cons.injEq, List.map_eq_nil_iff, List.filter_eq_nil_iff, true_and]
    intro o ho h
    have hlt := List.mem_range.mp ho
    simp only [Function.comp_apply, Nat.succ_eq_add_one, Nat.add_eq_zero_iff, one_ne_zero,
      and_false, false_or, Nat.add_sub_cancel, decide_eq_true_eq,
      List.getElem?_append_left hlt] at h
    exact hl (List.mem_of_getElem? h)
  have hlen : (l ++ nl :: rest).length = l.length + 1 + rest.length := by
    rw [List.length_append, List.length_cons]
    omega
  rw [starts, hlen, List.range_add, List.filter_append, hfirst, List.filter_map]
  refine congrArg (fun ps => 0 :: List.map _ ps) (List.filter_congr fun q _ => ?_)
  cases q with
  | zero => simp
  | succ q =>
    have hget : (l ++ nl :: rest)[l.length + 1 + (q + 1) - 1]? = rest[q]? := by
      rw [List.getElem?_append_right (by omega),
        show l.length + 1 + (q + 1) - 1 - l.length = q + 1 by omega, List.getElem?_cons_succ]
    simp only [Function.comp_apply, hget]
    simp

/-- The positions of the lines are those after the terminators, and the first. -/
theorem offsets_starts (o : ℕ) (b : List α) :
    (offsets o (lines nl b)).map Prod.fst = (starts nl b).map (o + ·) := by
  induction b using stream_induction nl generalizing o with
  | empty => rfl
  | last l hl hne =>
    rw [lines_last hl hne, starts_last hl hne]
    rfl
  | line l rest hl ih =>
    rw [lines_cons_line hl, offsets, List.map_cons, ih, starts_line hl, List.map_cons,
      List.map_map]
    refine congrArg (List.cons o) (List.map_congr_left fun q _ => ?_)
    simp only [Function.comp_apply]
    omega

end LineFraming
