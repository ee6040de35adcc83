import Mathlib

/-!
# Separator chains

A list of separators cuts a key range `[lo, hi)` into consecutive half-open ranges, one for
each child. An absent bound stands for the open end. The child type and the property each
child must satisfy within its range are parameters.
-/
namespace SeparatorChain

variable {K α : Type}

/-- The bounds of the hole left after `ls` separators and before `rs`. -/
def holeLower (ls : List K) (lo : Option K) : Option K := ls.getLast?.or lo
def holeUpper (rs : List K) (hi : Option K) : Option K := rs.head?.or hi

@[simp] theorem holeLower_nil (lo : Option K) : holeLower [] lo = lo := rfl
@[simp] theorem holeUpper_nil (hi : Option K) : holeUpper [] hi = hi := rfl
@[simp] theorem holeUpper_cons (k : K) (ks : List K) (hi : Option K) :
    holeUpper (k :: ks) hi = some k := rfl

theorem holeLower_cons (k : K) (ks : List K) (lo : Option K) :
    holeLower (k :: ks) lo = holeLower ks (some k) := by
  cases ks with
  | nil => rfl
  | cons a as => simp [holeLower, List.getLast?_cons]

theorem holeLower_concat (ls : List K) (s : K) (lo : Option K) :
    holeLower (ls ++ [s]) lo = some s := by simp [holeLower]

variable [LinearOrder K]

def Above (lo : Option K) (k : K) : Prop := ∀ l ∈ lo, l < k
def AtLeast (lo : Option K) (k : K) : Prop := ∀ l ∈ lo, l ≤ k
def Below (k : K) (hi : Option K) : Prop := ∀ u ∈ hi, k < u

/-- Child `i` satisfies `P` between the separators on either side of it; the first and the
last child use the outer bounds. Separators lie strictly inside the outer range. -/
def Chain (P : α → Option K → Option K → Prop) :
    List K → List α → Option K → Option K → Prop
  | [], [c], lo, hi => P c lo hi
  | k :: ks, c :: cs, lo, hi =>
    Above lo k ∧ Below k hi ∧ P c lo (some k) ∧ Chain P ks cs (some k) hi
  | _, _, _, _ => False

theorem Above.atLeast {lo : Option K} {k : K} (h : Above lo k) : AtLeast lo k :=
  fun l hl => le_of_lt (h l hl)

theorem AtLeast.trans {lo : Option K} {a b : K} (h : AtLeast lo a) (hab : a ≤ b) :
    AtLeast lo b := fun l hl => le_trans (h l hl) hab

theorem Above.trans {lo : Option K} {a b : K} (h : Above lo a) (hab : a ≤ b) :
    Above lo b := fun l hl => lt_of_lt_of_le (h l hl) hab

theorem Below.trans {hi : Option K} {a b : K} (hab : a ≤ b) (h : Below b hi) :
    Below a hi := fun u hu => lt_of_le_of_lt hab (h u hu)

@[simp] theorem above_none (k : K) : Above none k := by simp [Above]
@[simp] theorem atLeast_none (k : K) : AtLeast none k := by simp [AtLeast]
@[simp] theorem below_none (k : K) : Below k none := by simp [Below]
@[simp] theorem above_some (l k : K) : Above (some l) k ↔ l < k := by simp [Above]
@[simp] theorem atLeast_some (l k : K) : AtLeast (some l) k ↔ l ≤ k := by simp [AtLeast]
@[simp] theorem below_some (k u : K) : Below k (some u) ↔ k < u := by simp [Below]

theorem chain_length {P : α → Option K → Option K → Prop} {ks : List K} {cs : List α}
    {lo hi : Option K} (h : Chain P ks cs lo hi) : cs.length = ks.length + 1 := by
  induction ks generalizing cs lo with
  | nil =>
    match cs with
    | [] => exact h.elim
    | [_] => rfl
    | _ :: _ :: _ => exact h.elim
  | cons k ks ih =>
    match cs with
    | [] => exact h.elim
    | c :: cs => simp [ih h.2.2.2]

/-- Separators are strictly increasing and strictly inside the outer bounds. -/
theorem chain_seps {P : α → Option K → Option K → Prop} {ks : List K} {cs : List α}
    {lo hi : Option K} (h : Chain P ks cs lo hi) :
    ks.Pairwise (· < ·) ∧ ∀ k ∈ ks, Above lo k ∧ Below k hi := by
  induction ks generalizing cs lo with
  | nil => exact ⟨List.Pairwise.nil, fun k hk => by cases hk⟩
  | cons k ks ih =>
    match cs with
    | [] => exact h.elim
    | c :: cs =>
      obtain ⟨hlo, hhi, _, hrest⟩ := h
      obtain ⟨hs, hb⟩ := ih hrest
      refine ⟨List.pairwise_cons.mpr ⟨fun a ha => ?_, hs⟩, ?_⟩
      · simpa using (hb a ha).1
      · intro a ha
        rcases List.mem_cons.mp ha with rfl | ha
        · exact ⟨hlo, hhi⟩
        · exact ⟨hlo.trans (le_of_lt (by simpa using (hb a ha).1)), (hb a ha).2⟩

theorem chain_focus {P : α → Option K → Option K → Prop} {ls rs : List K}
    {lk rk : List α} {t : α} {lo hi : Option K} (hl : ls.length = lk.length)
    (h : Chain P (ls ++ rs) (lk ++ t :: rk) lo hi) :
    P t (holeLower ls lo) (holeUpper rs hi) := by
  induction ls generalizing lk lo with
  | nil =>
    obtain rfl : lk = [] := List.length_eq_zero_iff.mp hl.symm
    match rs, rk with
    | [], [] => exact h
    | [], _ :: _ => exact h.elim
    | r :: rs, rk => exact h.2.2.1
  | cons k ls ih =>
    match lk with
    | [] => simp at hl
    | c :: lk =>
      rw [holeLower_cons]
      exact ih (by simpa using hl) h.2.2.2

/-- Any child that fits the hole's bounds may take the place of the one in it. -/
theorem chain_replace {P : α → Option K → Option K → Prop} {ls rs : List K}
    {lk rk : List α} {t t' : α} {lo hi : Option K} (hl : ls.length = lk.length)
    (h : Chain P (ls ++ rs) (lk ++ t :: rk) lo hi)
    (ht : P t' (holeLower ls lo) (holeUpper rs hi)) :
    Chain P (ls ++ rs) (lk ++ t' :: rk) lo hi := by
  induction ls generalizing lk lo with
  | nil =>
    obtain rfl : lk = [] := List.length_eq_zero_iff.mp hl.symm
    match rs, rk with
    | [], [] => exact ht
    | [], _ :: _ => exact h.elim
    | r :: rs, rk => exact ⟨h.1, h.2.1, ht, h.2.2.2⟩
  | cons k ls ih =>
    match lk with
    | [] => simp at hl
    | c :: lk =>
      rw [holeLower_cons] at ht
      exact ⟨h.1, h.2.1, h.2.2.1, ih (by simpa using hl) h.2.2.2 ht⟩

/-- Two children with a separator strictly inside the hole may take the place of one. -/
theorem chain_widen {P : α → Option K → Option K → Prop} {ls rs : List K}
    {lk rk : List α} {t l r : α} {s : K} {lo hi : Option K} (hl : ls.length = lk.length)
    (h : Chain P (ls ++ rs) (lk ++ t :: rk) lo hi)
    (hleft : P l (holeLower ls lo) (some s)) (hright : P r (some s) (holeUpper rs hi))
    (hlo : Above (holeLower ls lo) s) (hhi : Below s (holeUpper rs hi)) :
    Chain P (ls ++ s :: rs) (lk ++ l :: r :: rk) lo hi := by
  induction ls generalizing lk lo with
  | nil =>
    obtain rfl : lk = [] := List.length_eq_zero_iff.mp hl.symm
    match rs, rk with
    | [], [] => exact ⟨hlo, hhi, hleft, hright⟩
    | [], _ :: _ => exact h.elim
    | a :: rs, rk =>
      have hsa : s < a := by simpa using hhi
      exact ⟨hlo, Below.trans hsa.le h.2.1, hleft, by simpa using hsa, h.2.1, hright, h.2.2.2⟩
  | cons k ls ih =>
    match lk with
    | [] => simp at hl
    | c :: lk =>
      rw [holeLower_cons] at hleft hlo
      exact ⟨h.1, h.2.1, h.2.2.1, ih (by simpa using hl) h.2.2.2 hleft hlo⟩

/-- Cutting a chain at one of its separators gives a chain on either side of it. -/
theorem chain_cut {P : α → Option K → Option K → Prop} {ls rs : List K}
    {lk rk : List α} {s : K} {lo hi : Option K} (hl : lk.length = ls.length + 1)
    (h : Chain P (ls ++ s :: rs) (lk ++ rk) lo hi) :
    Chain P ls lk lo (some s) ∧ Chain P rs rk (some s) hi := by
  induction ls generalizing lk lo with
  | nil =>
    match lk with
    | [] => simp at hl
    | [c] => exact ⟨h.2.2.1, h.2.2.2⟩
    | _ :: _ :: _ => simp at hl
  | cons k ls ih =>
    match lk with
    | [] => simp at hl
    | c :: lk =>
      have hk : k < s := by
        have := (chain_seps h).1
        simp only [List.cons_append, List.pairwise_cons] at this
        exact this.1 s (by simp)
      obtain ⟨hleft, hright⟩ := ih (by simpa using hl) h.2.2.2
      exact ⟨⟨h.1, by simpa using hk, h.2.2.1, hleft⟩, hright⟩

theorem chain_forall {P : α → Option K → Option K → Prop} {ks : List K} {cs : List α}
    {lo hi : Option K} (h : Chain P ks cs lo hi) : ∀ c ∈ cs, ∃ l u, P c l u := by
  induction ks generalizing cs lo with
  | nil =>
    match cs with
    | [] => exact h.elim
    | [c] =>
      intro d hd
      rw [List.mem_singleton] at hd
      exact ⟨lo, hi, hd ▸ h⟩
    | _ :: _ :: _ => exact h.elim
  | cons k ks ih =>
    match cs with
    | [] => exact h.elim
    | c :: cs =>
      intro d hd
      rcases List.mem_cons.mp hd with rfl | hd
      · exact ⟨lo, some k, h.2.2.1⟩
      · exact ih h.2.2.2 d hd

/-- Routing by `takeWhile (· ≤ k)` sends `k` to a hole whose bounds contain it. -/
theorem route_lower {ks : List K} {k : K} {lo : Option K} (h : AtLeast lo k) :
    AtLeast (holeLower (ks.takeWhile (· ≤ k)) lo) k := by
  unfold holeLower
  cases hlast : (ks.takeWhile (· ≤ k)).getLast? with
  | none => exact h
  | some a =>
    have ha := List.mem_takeWhile_imp (List.mem_of_getLast? hlast)
    simpa using ha

theorem route_upper {ks : List K} {k : K} {hi : Option K} (h : Below k hi) :
    Below k (holeUpper (ks.dropWhile (· ≤ k)) hi) := by
  cases hd : ks.dropWhile (· ≤ k) with
  | nil => exact h
  | cons a as =>
    have ha := List.head?_dropWhile_not (· ≤ k) ks
    rw [hd] at ha
    simpa using ha

theorem route_unique {ls rs : List K} {k : K} {lo hi : Option K}
    (hsorted : (ls ++ rs).Pairwise (· < ·)) (hlo : AtLeast (holeLower ls lo) k)
    (hhi : Below k (holeUpper rs hi)) : (ls ++ rs).takeWhile (· ≤ k) = ls := by
  have hls : ∀ a ∈ ls, decide (a ≤ k) = true := by
    intro a ha
    rcases List.eq_nil_or_concat ls with rfl | ⟨init, b, rfl⟩
    · cases ha
    · rw [List.concat_eq_append] at ha hsorted hlo
      rw [holeLower_concat, atLeast_some] at hlo
      have hinit := (List.pairwise_append.mp (List.pairwise_append.mp hsorted).1).2.2
      rcases List.mem_append.mp ha with ha | ha
      · simpa using (hinit a ha b List.mem_cons_self).le.trans hlo
      · simpa [List.mem_singleton.mp ha] using hlo
  rw [List.takeWhile_append_of_pos hls]
  cases rs with
  | nil => simp
  | cons b rs =>
    rw [holeUpper_cons, below_some] at hhi
    rw [List.takeWhile_cons_of_neg (by simpa using hhi), List.append_nil]

/-- Separators that are in order, with the outer ones inside the range, are all inside it. -/
theorem seps_within {ks : List K} {lo hi : Option K} (hsorted : ks.Pairwise (· < ·))
    (hfirst : ∀ k ∈ ks.head?, Above lo k) (hlast : ∀ k ∈ ks.getLast?, Below k hi) :
    ∀ k ∈ ks, Above lo k ∧ Below k hi := by
  intro k hk
  constructor
  · cases ks with
    | nil => cases hk
    | cons a ks =>
      rcases List.mem_cons.mp hk with rfl | hmem
      · exact hfirst k rfl
      · exact (hfirst a rfl).trans ((List.pairwise_cons.mp hsorted).1 k hmem).le
  · rcases List.eq_nil_or_concat ks with rfl | ⟨init, b, rfl⟩
    · cases hk
    · rw [List.concat_eq_append] at hk hsorted hlast
      have hb := hlast b (by simp)
      rcases List.mem_append.mp hk with hmem | hmem
      · exact Below.trans ((List.pairwise_append.mp hsorted).2.2 k hmem b List.mem_cons_self).le hb
      · exact List.mem_singleton.mp hmem ▸ hb

theorem hole_inside {ls rs : List K} {lo hi : Option K}
    (hwithin : ∀ k ∈ ls ++ rs, Above lo k ∧ Below k hi) {k : K}
    (hlo : AtLeast (holeLower ls lo) k) (hhi : Below k (holeUpper rs hi)) :
    AtLeast lo k ∧ Below k hi := by
  constructor
  · cases hlast : ls.getLast? with
    | none => simpa [holeLower, hlast] using hlo
    | some a =>
      have ha : a ≤ k := by simpa [holeLower, hlast] using hlo
      exact (hwithin a (List.mem_append_left _ (List.mem_of_getLast? hlast))).1.atLeast.trans ha
  · cases rs with
    | nil => exact hhi
    | cons a rs =>
      rw [holeUpper_cons, below_some] at hhi
      exact Below.trans hhi.le (hwithin a (by simp)).2

/-- A property of keys that holds of every child within its range holds within the whole
range, and children list their keys in order. -/
theorem chain_flat {P : α → Option K → Option K → Prop} {f : α → List K}
    (hP : ∀ c lo hi, P c lo hi →
      (f c).Pairwise (· < ·) ∧ ∀ k ∈ f c, AtLeast lo k ∧ Below k hi)
    {ks : List K} {cs : List α} {lo hi : Option K} (h : Chain P ks cs lo hi) :
    (cs.flatMap f).Pairwise (· < ·) ∧ ∀ k ∈ cs.flatMap f, AtLeast lo k ∧ Below k hi := by
  induction ks generalizing cs lo with
  | nil =>
    match cs with
    | [] => exact h.elim
    | [c] => simpa using hP c lo hi h
    | _ :: _ :: _ => exact h.elim
  | cons s ks ih =>
    match cs with
    | [] => exact h.elim
    | c :: cs =>
      obtain ⟨hlo, hhi, hc, hrest⟩ := h
      obtain ⟨hs, hb⟩ := hP c lo (some s) hc
      obtain ⟨hs', hb'⟩ := ih hrest
      have hleft : ∀ k ∈ f c, k < s := fun k hk => by simpa using (hb k hk).2
      have hright : ∀ k ∈ cs.flatMap f, s ≤ k := fun k hk => by simpa using (hb' k hk).1
      rw [List.flatMap_cons]
      refine ⟨List.pairwise_append.mpr ⟨hs, hs', fun a ha b hb => ?_⟩, fun k hk => ?_⟩
      · exact lt_of_lt_of_le (hleft a ha) (hright b hb)
      · rcases List.mem_append.mp hk with hk | hk
        · exact ⟨(hb k hk).1, Below.trans (hleft k hk).le hhi⟩
        · exact ⟨hlo.atLeast.trans (hright k hk), (hb' k hk).2⟩

theorem hole_within {P : α → Option K → Option K → Prop} {ls rs : List K} {cs : List α}
    {lo hi : Option K} {k : K} (h : Chain P (ls ++ rs) cs lo hi) :
    (AtLeast (holeLower ls lo) k → AtLeast lo k) ∧ (Below k (holeUpper rs hi) → Below k hi) := by
  have hs := (chain_seps h).2
  constructor
  · intro hk
    rcases List.eq_nil_or_concat ls with rfl | ⟨ls', s, rfl⟩
    · exact hk
    · rw [List.concat_eq_append, holeLower_concat, atLeast_some] at hk
      exact (hs s (by simp)).1.atLeast.trans hk
  · intro hk
    match rs with
    | [] => exact hk
    | s :: rs => exact Below.trans (le_of_lt (by simpa using hk)) (hs s (by simp)).2

/-- Keys of the children left of the hole lie below every key the hole admits, keys of the
children right of it above. -/
theorem chain_sides {P : α → Option K → Option K → Prop} {f : α → List K}
    (hP : ∀ c lo hi, P c lo hi →
      (f c).Pairwise (· < ·) ∧ ∀ k ∈ f c, AtLeast lo k ∧ Below k hi)
    {ls rs : List K} {lk rk : List α} {t : α} {lo hi : Option K} {k : K}
    (hl : ls.length = lk.length) (h : Chain P (ls ++ rs) (lk ++ t :: rk) lo hi)
    (hk : AtLeast (holeLower ls lo) k) (hk' : Below k (holeUpper rs hi)) :
    (∀ a ∈ lk.flatMap f, a < k) ∧ ∀ a ∈ rk.flatMap f, k < a := by
  constructor
  · rcases List.eq_nil_or_concat ls with rfl | ⟨ls', s, rfl⟩
    · obtain rfl : lk = [] := List.length_eq_zero_iff.mp hl.symm
      intro a ha
      simp at ha
    · rw [List.concat_eq_append] at hl h hk
      rw [holeLower_concat, atLeast_some] at hk
      rw [List.append_assoc, List.singleton_append] at h
      obtain ⟨hleft, -⟩ := chain_cut (by simpa using hl.symm) h
      intro a ha
      have := ((chain_flat hP hleft).2 a ha).2
      exact lt_of_lt_of_le (by simpa using this) hk
  · match rs with
    | [] =>
      have hlen := chain_length h
      simp only [List.append_nil, List.length_append, List.length_cons] at hlen
      obtain rfl : rk = [] := List.length_eq_zero_iff.mp (by omega)
      intro a ha
      simp at ha
    | s :: rs =>
      have h' : Chain P (ls ++ s :: rs) ((lk ++ [t]) ++ rk) lo hi := by simpa using h
      obtain ⟨-, hright⟩ := chain_cut (by simpa using hl.symm) h'
      intro a ha
      have := ((chain_flat hP hright).2 a ha).1
      exact lt_of_lt_of_le (by simpa using hk') (by simpa using this)

end SeparatorChain
