import ThreadedDb.LabelledBPlusTree

/-!
# How full the nodes of a B+ tree are

Dividing a leaf of `cap + 1` entries leaves `(cap + 1) / 2` on either side. Dividing a branch
hands one separator outwards, so its right half may be one short of that. Only the root may hold
less. Insertion keeps these bounds, and they bound the height by the number of entries.
-/
namespace BPlusOccupancy

open SeparatorChain
open LabelledBPlusTree

variable {K V P : Type}

def leafMin (cap : ℕ) : ℕ := (cap + 1) / 2
def branchMin (cap : ℕ) : ℕ := cap / 2

/-- The node counts of a tree that stands at the root (`atRoot`) or below another node. -/
def Sized (cap : ℕ) : Bool → {h : ℕ} → Tree K V P h → Prop
  | atRoot, 0, t => (atRoot = false → leafMin cap ≤ t.toLeaf.entries.length) ∧
      t.toLeaf.entries.length ≤ cap
  | atRoot, _ + 1, t => 1 ≤ t.toBranch.seps.length ∧
      (atRoot = false → branchMin cap ≤ t.toBranch.seps.length) ∧
      t.toBranch.seps.length ≤ cap ∧ t.toBranch.children.length = t.toBranch.seps.length + 1 ∧
      ∀ c ∈ t.toBranch.children, Sized cap false c

def holeAtRoot : {h : ℕ} → Context K V P h → Bool
  | _, .root => true
  | _, .inside _ _ _ _ _ _ _ _ => false

theorem sized_leaf (cap : ℕ) (atRoot : Bool) (l : Leaf K V P) :
    Sized cap atRoot (Tree.leaf l) ↔
      (atRoot = false → leafMin cap ≤ l.entries.length) ∧ l.entries.length ≤ cap := Iff.rfl

theorem sized_branch (cap : ℕ) (atRoot : Bool) {h : ℕ} (p : P) (ks : List K)
    (cs : List (Tree K V P h)) :
    Sized cap atRoot (Tree.branch p ks cs) ↔ 1 ≤ ks.length ∧
      (atRoot = false → branchMin cap ≤ ks.length) ∧ ks.length ≤ cap ∧
      cs.length = ks.length + 1 ∧ ∀ c ∈ cs, Sized cap false c := Iff.rfl

theorem sized_focus {cap h : ℕ} (c : Context K V P h) (t : Tree K V P h)
    (hs : Sized cap true (c.plug t).tree) : Sized cap (holeAtRoot c) t := by
  induction c with
  | root => exact hs
  | inside label ls lk rs rk hl hr outer ih =>
    have hb := (sized_branch _ _ _ _ _).mp (ih _ hs)
    exact hb.2.2.2.2 t (by simp)

theorem sized_replace {cap h : ℕ} (c : Context K V P h) (t t' : Tree K V P h)
    (hs : Sized cap true (c.plug t).tree) (ht : Sized cap (holeAtRoot c) t') :
    Sized cap true (c.plug t').tree := by
  induction c with
  | root => exact ht
  | inside label ls lk rs rk hl hr outer ih =>
    obtain ⟨hone, hmin, hcap, hcount, hkids⟩ := (sized_branch _ _ _ _ _).mp (sized_focus outer _ hs)
    refine ih _ _ hs ((sized_branch _ _ _ _ _).mpr ⟨hone, hmin, hcap, by simpa using hcount, ?_⟩)
    intro u hu
    rcases List.mem_append.mp hu with hu | hu
    · exact hkids u (List.mem_append_left _ hu)
    rcases List.mem_cons.mp hu with rfl | hu
    · exact ht
    · exact hkids u (List.mem_append_right _ (List.mem_cons_of_mem _ hu))

/-- Two trees in the place of one: a branch with room grows by a child, a full one is divided
and both halves are full enough to stand below the root. -/
theorem sized_absorb {cap : ℕ} (hcap : 2 ≤ cap) (fresh : ℕ → P) {h : ℕ} (c : Context K V P h)
    (i : ℕ) (t l r : Tree K V P h) (s : K) (hs : Sized cap true (c.plug t).tree)
    (hleft : Sized cap false l) (hright : Sized cap false r) :
    Sized cap true (c.absorb cap fresh i l s r).tree := by
  induction c generalizing i s with
  | root =>
    refine (sized_branch _ _ _ _ _).mpr ⟨by simp, by simp, ?_, rfl, ?_⟩
    · simp only [List.length_singleton]
      omega
    · intro u hu
      simp only [List.mem_cons, List.not_mem_nil, or_false] at hu
      rcases hu with rfl | rfl
      · exact hleft
      · exact hright
  | inside label ls lk rs rk hl hr outer ih =>
    obtain ⟨hone, hmin, hle, hcount, hkids⟩ := (sized_branch _ _ _ _ _).mp (sized_focus outer _ hs)
    have hwide : ∀ u ∈ lk ++ l :: r :: rk, Sized cap false u := by
      intro u hu
      rcases List.mem_append.mp hu with hu | hu
      · exact hkids u (List.mem_append_left _ hu)
      rcases List.mem_cons.mp hu with rfl | hu
      · exact hleft
      rcases List.mem_cons.mp hu with rfl | hu
      · exact hright
      · exact hkids u (List.mem_append_right _ (List.mem_cons_of_mem _ hu))
    simp only [List.length_append] at hone hle hmin
    by_cases hroom : ls.length + rs.length < cap
    · rw [absorb_room fresh label hl hr outer hroom]
      refine sized_replace outer _ _ hs ((sized_branch _ _ _ _ _).mpr ⟨?_, ?_, ?_, ?_, hwide⟩)
      · simp only [List.length_append, List.length_cons]
        omega
      · intro houter
        have := hmin houter
        simp only [List.length_append, List.length_cons]
        omega
      · simp only [List.length_append, List.length_cons]
        omega
      · simp only [List.length_append, List.length_cons]
        omega
    · obtain ⟨left, p, right, cl, cr, hseps, hchildren, hlen, hcl, heq⟩ :=
        absorb_full fresh label hl hr outer hroom i l r s
      have hsum := congrArg List.length hseps
      have hsum' := congrArg List.length hchildren
      simp only [List.length_append, List.length_cons] at hsum hsum'
      rw [hchildren] at hwide
      rw [heq]
      refine ih (i + 1) _ _ _ p hs ?_ ?_
      · refine (sized_branch _ _ _ _ _).mpr ⟨by omega, fun _ => ?_, by omega, hcl, ?_⟩
        · unfold branchMin
          omega
        · exact fun u hu => hwide u (List.mem_append_left _ hu)
      · refine (sized_branch _ _ _ _ _).mpr ⟨by omega, fun _ => ?_, by omega, by omega, ?_⟩
        · unfold branchMin
          omega
        · exact fun u hu => hwide u (List.mem_append_right _ hu)

theorem sized_insertAt [LinearOrder K] {cap : ℕ} (hcap : 2 ≤ cap) (fresh : ℕ → P)
    (c : Context K V P 0) (i : ℕ) (leaf : Leaf K V P) (k : K) (v : V)
    (hs : Sized cap true (c.plug (Tree.leaf leaf)).tree) :
    Sized cap true (c.insertAt cap fresh i leaf k v).tree := by
  obtain ⟨hmin, hle⟩ := (sized_leaf _ _ _).mp (sized_focus c _ hs)
  by_cases hroom : leaf.entries.length < cap
  · rw [insertAt_room fresh c hroom]
    refine sized_replace c _ _ hs ((sized_leaf _ _ _).mpr ⟨fun hbelow => ?_, ?_⟩)
    · have := hmin hbelow
      rw [insertEntry_length]
      omega
    · rw [insertEntry_length]
      omega
  · obtain ⟨left, e, right, hes, hlen, heq⟩ := insertAt_full fresh c hroom i k v
    have hsum := congrArg List.length hes
    rw [insertEntry_length, List.length_append, List.length_cons] at hsum
    rw [heq]
    refine sized_absorb hcap fresh c (i + 1) _ _ _ e.1 hs ?_ ?_
    · refine (sized_leaf _ _ _).mpr ⟨fun _ => ?_, ?_⟩
      · change leafMin cap ≤ left.length
        unfold leafMin
        omega
      · change left.length ≤ cap
        omega
    · refine (sized_leaf _ _ _).mpr ⟨fun _ => ?_, ?_⟩
      · simp only [leafMin, List.length_cons]
        omega
      · simp only [List.length_cons]
        omega

theorem entries_branch {h : ℕ} (p : P) (ks : List K) (cs : List (Tree K V P h)) :
    (Tree.branch p ks cs).entries = cs.flatMap Tree.entries := by
  unfold Tree.entries
  rw [Tree.leaves_branch, List.flatMap_assoc]

theorem length_flatMap_ge {α β : Type} {f : α → List β} {xs : List α} {n : ℕ}
    (h : ∀ x ∈ xs, n ≤ (f x).length) : xs.length * n ≤ (xs.flatMap f).length := by
  induction xs with
  | nil => simp
  | cons x xs ih =>
    have hx := h x List.mem_cons_self
    have hxs := ih (fun y hy => h y (List.mem_cons_of_mem _ hy))
    rw [List.flatMap_cons, List.length_append, List.length_cons, Nat.succ_mul]
    omega

theorem entries_below {cap h : ℕ} (t : Tree K V P h) (hs : Sized cap false t) :
    leafMin cap * (branchMin cap + 1) ^ h ≤ t.entries.length := by
  induction h with
  | zero =>
    have hleaf : t.entries = t.toLeaf.entries := by simp [Tree.entries, Tree.leaves]
    rw [pow_zero, mul_one, hleaf]
    exact hs.1 rfl
  | succ h ih =>
    obtain ⟨-, hmin, -, hcount, hkids⟩ := hs
    have hflat : t.entries = t.toBranch.children.flatMap Tree.entries := entries_branch _ _ _
    have heach := length_flatMap_ge (fun c hc => ih c (hkids c hc))
    rw [hflat]
    calc leafMin cap * (branchMin cap + 1) ^ (h + 1)
        = (branchMin cap + 1) * (leafMin cap * (branchMin cap + 1) ^ h) := by ring
      _ ≤ t.toBranch.children.length * (leafMin cap * (branchMin cap + 1) ^ h) := by
          apply Nat.mul_le_mul_right
          rw [hcount]
          exact Nat.succ_le_succ (hmin rfl)
      _ ≤ (t.toBranch.children.flatMap Tree.entries).length := heach

theorem entries_root {cap h : ℕ} (t : Tree K V P (h + 1)) (hs : Sized cap true t) :
    2 * (leafMin cap * (branchMin cap + 1) ^ h) ≤ t.entries.length := by
  obtain ⟨hone, -, -, hcount, hkids⟩ := hs
  have hflat : t.entries = t.toBranch.children.flatMap Tree.entries := entries_branch _ _ _
  have heach := length_flatMap_ge (fun c hc => entries_below c (hkids c hc))
  rw [hflat]
  refine le_trans (Nat.mul_le_mul_right _ ?_) heach
  omega

end BPlusOccupancy
