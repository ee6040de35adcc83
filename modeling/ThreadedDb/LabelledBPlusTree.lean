import ThreadedDb.SeparatorChain

/-!
# Labelled B+ trees and their contexts

Every node carries a label, such as its address. The height is an index of the type, so all
leaves of a tree have one depth. A context is a tree with a hole, written from the hole
outwards: bottom-up insertion walks it towards the root.
-/
namespace LabelledBPlusTree

open SeparatorChain

variable {K V P : Type}

structure Leaf (K V P : Type) where
  label : P
  entries : List (K × V)
  next : Option P

structure Branch (K P α : Type) where
  label : P
  seps : List K
  children : List α

def Tree (K V P : Type) : ℕ → Type
  | 0 => Leaf K V P
  | h + 1 => Branch K P (Tree K V P h)

/-- The two constructors and the projections of `Tree`, at the type `Tree`. -/
def Tree.leaf (l : Leaf K V P) : Tree K V P 0 := l
def Tree.branch {h : ℕ} (label : P) (seps : List K) (children : List (Tree K V P h)) :
    Tree K V P (h + 1) := Branch.mk label seps children
def Tree.toLeaf (t : Tree K V P 0) : Leaf K V P := t
def Tree.toBranch {h : ℕ} (t : Tree K V P (h + 1)) : Branch K P (Tree K V P h) := t

def Tree.label : {h : ℕ} → Tree K V P h → P
  | 0, t => t.toLeaf.label
  | _ + 1, t => t.toBranch.label

def Tree.leaves : {h : ℕ} → Tree K V P h → List (Leaf K V P)
  | 0, t => [t.toLeaf]
  | _ + 1, t => t.toBranch.children.flatMap Tree.leaves

def Tree.labels : {h : ℕ} → Tree K V P h → List P
  | 0, t => [t.toLeaf.label]
  | _ + 1, t => t.toBranch.label :: t.toBranch.children.flatMap Tree.labels

@[simp] theorem Tree.label_leaf (l : Leaf K V P) : (Tree.leaf l).label = l.label := rfl
@[simp] theorem Tree.leaves_leaf (l : Leaf K V P) : (Tree.leaf l).leaves = [l] := rfl
@[simp] theorem Tree.labels_leaf (l : Leaf K V P) : (Tree.leaf l).labels = [l.label] := rfl
@[simp] theorem Tree.label_branch {h : ℕ} (p : P) (ks : List K) (cs : List (Tree K V P h)) :
    (Tree.branch p ks cs).label = p := rfl
@[simp] theorem Tree.leaves_branch {h : ℕ} (p : P) (ks : List K) (cs : List (Tree K V P h)) :
    (Tree.branch p ks cs).leaves = cs.flatMap Tree.leaves := rfl
@[simp] theorem Tree.labels_branch {h : ℕ} (p : P) (ks : List K) (cs : List (Tree K V P h)) :
    (Tree.branch p ks cs).labels = p :: cs.flatMap Tree.labels := rfl

def Tree.entries {h : ℕ} (t : Tree K V P h) : List (K × V) := t.leaves.flatMap Leaf.entries

structure Root (K V P : Type) where
  height : ℕ
  tree : Tree K V P height

def Root.leaves (r : Root K V P) : List (Leaf K V P) := r.tree.leaves
def Root.labels (r : Root K V P) : List P := r.tree.labels
def Root.entries (r : Root K V P) : List (K × V) := r.tree.entries

/-- The siblings on either side of the hole come with as many separators. -/
inductive Context (K V P : Type) : ℕ → Type
  | root {h : ℕ} : Context K V P h
  | inside {h : ℕ} (label : P) (ls : List K) (lk : List (Tree K V P h)) (rs : List K)
      (rk : List (Tree K V P h)) (hl : ls.length = lk.length) (hr : rs.length = rk.length)
      (outer : Context K V P (h + 1)) : Context K V P h

def Context.plug : {h : ℕ} → Context K V P h → Tree K V P h → Root K V P
  | h, .root, t => ⟨h, t⟩
  | _, .inside label ls lk rs rk _ _ outer, t =>
    outer.plug (Tree.branch label (ls ++ rs) (lk ++ t :: rk))

def Context.before : {h : ℕ} → Context K V P h → List (Leaf K V P)
  | _, .root => []
  | _, .inside _ _ lk _ _ _ _ outer => outer.before ++ lk.flatMap Tree.leaves

def Context.after : {h : ℕ} → Context K V P h → List (Leaf K V P)
  | _, .root => []
  | _, .inside _ _ _ _ rk _ _ outer => rk.flatMap Tree.leaves ++ outer.after

def Context.labels : {h : ℕ} → Context K V P h → List P
  | _, .root => []
  | _, .inside label _ lk _ rk _ _ outer =>
    label :: (lk.flatMap Tree.labels ++ rk.flatMap Tree.labels ++ outer.labels)

def Context.lower : {h : ℕ} → Context K V P h → Option K
  | _, .root => none
  | _, .inside _ ls _ _ _ _ _ outer => holeLower ls outer.lower

def Context.upper : {h : ℕ} → Context K V P h → Option K
  | _, .root => none
  | _, .inside _ _ _ rs _ _ _ outer => holeUpper rs outer.upper

/-- Put two trees and a separator in the place of one. A branch with more than `cap`
separators is divided in the middle and hands its middle separator outwards; `fresh i` is the
next unused label. -/
def Context.absorb (cap : ℕ) (fresh : ℕ → P) : {h : ℕ} → Context K V P h → ℕ →
    Tree K V P h → K → Tree K V P h → Root K V P
  | h, .root, i, l, s, r => ⟨h + 1, Tree.branch (fresh i) [s] [l, r]⟩
  | _, .inside label ls lk rs rk _ _ outer, i, l, s, r =>
    let seps := ls ++ s :: rs
    let kids := lk ++ l :: r :: rk
    let m := seps.length / 2
    if ls.length + rs.length < cap then outer.plug (Tree.branch label seps kids)
    else match seps.drop m with
      | [] => outer.plug (Tree.branch label seps kids)
      | p :: right =>
        outer.absorb cap fresh (i + 1) (Tree.branch label (seps.take m) (kids.take (m + 1))) p
          (Tree.branch (fresh i) right (kids.drop (m + 1)))

def Context.spent (cap : ℕ) : {h : ℕ} → Context K V P h → ℕ
  | _, .root => 1
  | _, .inside _ ls _ rs _ _ _ outer =>
    if ls.length + rs.length < cap then 0 else outer.spent cap + 1

theorem absorb_full {cap : ℕ} (fresh : ℕ → P) {h : ℕ} (label : P) {ls rs : List K}
    {lk rk : List (Tree K V P h)} (hl : ls.length = lk.length) (hr : rs.length = rk.length)
    (outer : Context K V P (h + 1)) (hfull : ¬ ls.length + rs.length < cap) (i : ℕ)
    (l r : Tree K V P h) (s : K) :
    ∃ left p right cl cr, ls ++ s :: rs = left ++ p :: right ∧
      lk ++ l :: r :: rk = cl ++ cr ∧ left.length = (ls.length + rs.length + 1) / 2 ∧
      cl.length = left.length + 1 ∧
      (Context.inside label ls lk rs rk hl hr outer).absorb cap fresh i l s r =
        outer.absorb cap fresh (i + 1) (Tree.branch label left cl) p
          (Tree.branch (fresh i) right cr) := by
  have hlen : (ls ++ s :: rs).length = ls.length + rs.length + 1 := by
    simp only [List.length_append, List.length_cons]; omega
  have hdrop : (ls ++ s :: rs).drop ((ls ++ s :: rs).length / 2) ≠ [] := by
    intro hd
    have := congrArg List.length hd
    simp only [List.length_drop, List.length_nil] at this
    omega
  obtain ⟨p, right, hp⟩ := List.exists_cons_of_ne_nil hdrop
  refine ⟨(ls ++ s :: rs).take ((ls ++ s :: rs).length / 2), p, right,
    (lk ++ l :: r :: rk).take ((ls ++ s :: rs).length / 2 + 1),
    (lk ++ l :: r :: rk).drop ((ls ++ s :: rs).length / 2 + 1), ?_, ?_, ?_, ?_, ?_⟩
  · rw [← hp, List.take_append_drop]
  · rw [List.take_append_drop]
  · rw [List.length_take, hlen]; omega
  · rw [List.length_take, List.length_take, hlen]
    simp only [List.length_append, List.length_cons]
    omega
  · simp only [Context.absorb, if_neg hfull, hp]

theorem absorb_room {cap : ℕ} (fresh : ℕ → P) {h : ℕ} (label : P) {ls rs : List K}
    {lk rk : List (Tree K V P h)} (hl : ls.length = lk.length) (hr : rs.length = rk.length)
    (outer : Context K V P (h + 1)) (hroom : ls.length + rs.length < cap) (i : ℕ)
    (l r : Tree K V P h) (s : K) :
    (Context.inside label ls lk rs rk hl hr outer).absorb cap fresh i l s r =
      outer.plug (Tree.branch label (ls ++ s :: rs) (lk ++ l :: r :: rk)) := by
  simp only [Context.absorb, if_pos hroom]

theorem leaves_plug {h : ℕ} (c : Context K V P h) (t : Tree K V P h) :
    (c.plug t).leaves = c.before ++ t.leaves ++ c.after := by
  induction c with
  | root => simp [Context.plug, Root.leaves, Context.before, Context.after]
  | inside label ls lk rs rk hl hr outer ih =>
    rw [Context.plug, ih]
    simp [Context.before, Context.after]

theorem leaves_absorb (cap : ℕ) (fresh : ℕ → P) {h : ℕ} (c : Context K V P h) (i : ℕ)
    (l r : Tree K V P h) (s : K) :
    (c.absorb cap fresh i l s r).leaves = c.before ++ l.leaves ++ r.leaves ++ c.after := by
  induction c generalizing i s with
  | root => simp [Context.absorb, Root.leaves, Context.before, Context.after]
  | inside label ls lk rs rk hl hr outer ih =>
    by_cases hroom : ls.length + rs.length < cap
    · rw [absorb_room fresh label hl hr outer hroom, leaves_plug]
      simp [Context.before, Context.after]
    · obtain ⟨left, p, right, cl, cr, -, hkids, -, -, heq⟩ :=
        absorb_full fresh label hl hr outer hroom i l r s
      have hflat := congrArg (List.flatMap Tree.leaves) hkids
      rw [heq, ih]
      simp only [List.flatMap_append, List.flatMap_cons] at hflat
      simp only [Context.before, Context.after, Tree.leaves_branch, List.append_assoc]
      rw [← List.append_assoc (cl.flatMap Tree.leaves), ← hflat]
      simp only [List.append_assoc]

theorem labels_plug {h : ℕ} (c : Context K V P h) (t : Tree K V P h) :
    (c.plug t).labels.Perm (t.labels ++ c.labels) := by
  induction c with
  | root => simp [Context.plug, Root.labels, Context.labels]
  | inside label ls lk rs rk hl hr outer ih =>
    refine (ih _).trans ?_
    classical
    rw [List.perm_iff_count]
    intro a
    simp only [Context.labels, Tree.labels_branch, List.flatMap_append, List.flatMap_cons,
      List.count_append, List.count_cons]
    omega

theorem labels_absorb (cap : ℕ) (fresh : ℕ → P) {h : ℕ} (c : Context K V P h) (i : ℕ)
    (l r : Tree K V P h) (s : K) :
    (c.absorb cap fresh i l s r).labels.Perm
      (l.labels ++ (r.labels ++ (c.labels ++ (List.range' i (c.spent cap)).map fresh))) := by
  induction c generalizing i s with
  | root =>
    simp only [Context.absorb, Root.labels, Tree.labels_branch, Context.labels, Context.spent]
    simp only [List.flatMap_cons, List.flatMap_nil, List.append_nil, List.range'_one,
      List.map_cons, List.map_nil, List.nil_append]
    rw [← List.append_assoc]
    exact (List.perm_append_singleton _ _).symm
  | inside label ls lk rs rk hl hr outer ih =>
    by_cases hroom : ls.length + rs.length < cap
    · rw [absorb_room fresh label hl hr outer hroom]
      refine (labels_plug _ _).trans ?_
      classical
      rw [List.perm_iff_count]
      intro a
      simp only [Context.labels, Context.spent, if_pos hroom, Tree.labels_branch,
        List.flatMap_append,
        List.flatMap_cons, List.count_append, List.count_cons, List.range'_zero, List.map_nil,
        List.count_nil]
      omega
    · obtain ⟨left, p, right, cl, cr, -, hkids, -, -, heq⟩ :=
        absorb_full fresh label hl hr outer hroom i l r s
      have hflat := congrArg (List.flatMap Tree.labels) hkids
      rw [heq]
      refine (ih _ _ _ _).trans ?_
      classical
      rw [List.perm_iff_count]
      intro a
      have hcount := congrArg (List.count a) hflat
      simp only [List.flatMap_append, List.flatMap_cons, List.count_append] at hcount
      simp only [Context.labels, Context.spent, if_neg hroom, Tree.labels_branch,
        List.count_append, List.count_cons, List.range'_succ, List.map_cons]
      omega

section Order

variable [LinearOrder K]

/-- Keys of a leaf increase and lie in `[lo, hi)`; children of a branch are ordered between
their separators. -/
def Tree.Ordered : {h : ℕ} → Tree K V P h → Option K → Option K → Prop
  | 0, t, lo, hi => (t.toLeaf.entries.map Prod.fst).Pairwise (· < ·) ∧
    ∀ k ∈ t.toLeaf.entries.map Prod.fst, AtLeast lo k ∧ Below k hi
  | _ + 1, t, lo, hi => Chain Tree.Ordered t.toBranch.seps t.toBranch.children lo hi

def Root.Ordered (r : Root K V P) : Prop := r.tree.Ordered none none

theorem ordered_leaf (l : Leaf K V P) (lo hi : Option K) :
    (Tree.leaf l).Ordered lo hi ↔ (l.entries.map Prod.fst).Pairwise (· < ·) ∧
      ∀ k ∈ l.entries.map Prod.fst, AtLeast lo k ∧ Below k hi := Iff.rfl

theorem ordered_branch {h : ℕ} (p : P) (ks : List K) (cs : List (Tree K V P h))
    (lo hi : Option K) :
    (Tree.branch p ks cs).Ordered lo hi ↔ Chain Tree.Ordered ks cs lo hi := Iff.rfl

theorem ordered_focus {h : ℕ} (c : Context K V P h) (t : Tree K V P h)
    (ho : (c.plug t).Ordered) : t.Ordered c.lower c.upper := by
  induction c with
  | root => exact ho
  | inside label ls lk rs rk hl hr outer ih =>
    have hb := ih _ ho
    rw [ordered_branch] at hb
    exact chain_focus hl hb

theorem ordered_replace {h : ℕ} (c : Context K V P h) (t t' : Tree K V P h)
    (ho : (c.plug t).Ordered) (ht : t'.Ordered c.lower c.upper) : (c.plug t').Ordered := by
  induction c with
  | root => exact ht
  | inside label ls lk rs rk hl hr outer ih =>
    have hb := ordered_focus outer _ ho
    rw [ordered_branch] at hb
    exact ih _ _ ho ((ordered_branch _ _ _ _ _).mpr (chain_replace hl hb ht))

theorem ordered_absorb (cap : ℕ) (fresh : ℕ → P) {h : ℕ} (c : Context K V P h) (i : ℕ)
    (t l r : Tree K V P h) (s : K) (ho : (c.plug t).Ordered)
    (hleft : l.Ordered c.lower (some s)) (hright : r.Ordered (some s) c.upper)
    (hlo : Above c.lower s) (hhi : Below s c.upper) :
    (c.absorb cap fresh i l s r).Ordered := by
  induction c generalizing i s with
  | root =>
    simp only [Context.absorb, Root.Ordered, ordered_branch]
    exact ⟨hlo, hhi, hleft, hright⟩
  | inside label ls lk rs rk hl hr outer ih =>
    have hb := ordered_focus outer _ ho
    rw [ordered_branch] at hb
    have hwide := chain_widen hl hb hleft hright hlo hhi
    by_cases hroom : ls.length + rs.length < cap
    · rw [absorb_room fresh label hl hr outer hroom]
      exact ordered_replace outer _ _ ho ((ordered_branch _ _ _ _ _).mpr hwide)
    · obtain ⟨left, p, right, cl, cr, hseps, hkids, -, hcl, heq⟩ :=
        absorb_full fresh label hl hr outer hroom i l r s
      rw [hseps, hkids] at hwide
      obtain ⟨hcutl, hcutr⟩ := chain_cut hcl hwide
      have hp := (chain_seps hwide).2 p (by simp)
      rw [heq]
      exact ih (i + 1) _ _ _ p ho hcutl hcutr hp.1 hp.2

/-- All keys of an ordered tree, in leaf order, increase and stay within its bounds. -/
theorem ordered_keys {h : ℕ} (t : Tree K V P h) (lo hi : Option K) (ho : t.Ordered lo hi) :
    (t.entries.map Prod.fst).Pairwise (· < ·) ∧
      ∀ k ∈ t.entries.map Prod.fst, AtLeast lo k ∧ Below k hi := by
  induction h generalizing lo hi with
  | zero => simpa [Tree.entries, Tree.leaves, Tree.Ordered] using ho
  | succ h ih =>
    have := chain_flat (f := fun c : Tree K V P h => c.entries.map Prod.fst)
      (fun c lo hi hc => ih c lo hi hc) ho
    simpa [Tree.entries, Tree.leaves, List.map_flatMap, List.flatMap_assoc] using this

theorem root_keys_sorted {r : Root K V P} (ho : r.Ordered) :
    (r.entries.map Prod.fst).Pairwise (· < ·) := (ordered_keys r.tree none none ho).1

/-- Keys left of the hole are below every key the hole's bounds admit, keys right of it
above. -/
theorem sides_of_hole {h : ℕ} (c : Context K V P h) (t : Tree K V P h)
    (ho : (c.plug t).Ordered) {k : K} (hk : AtLeast c.lower k) (hk' : Below k c.upper) :
    (∀ a ∈ (c.before.flatMap Leaf.entries).map Prod.fst, a < k) ∧
      ∀ a ∈ (c.after.flatMap Leaf.entries).map Prod.fst, k < a := by
  induction c with
  | root => simp [Context.before, Context.after]
  | @inside h label ls lk rs rk hl hr outer ih =>
    have hb := ordered_focus outer _ ho
    rw [ordered_branch] at hb
    have hwithin := hole_within (k := k) hb
    obtain ⟨ihb, iha⟩ := ih _ ho (hwithin.1 hk) (hwithin.2 hk')
    obtain ⟨hsb, hsa⟩ := chain_sides (f := fun c : Tree K V P h => c.entries.map Prod.fst)
      (fun c lo hi hc => ordered_keys c lo hi hc) hl hb hk hk'
    simp only [Context.before, Context.after, List.flatMap_append, List.map_append,
      List.flatMap_assoc, List.mem_append, List.map_flatMap]
    simp only [List.map_flatMap] at ihb iha
    refine ⟨fun a ha => ha.elim (ihb a) (fun ha => hsb a ?_),
      fun a ha => ha.elim (fun ha => hsa a ?_) (iha a)⟩
    · simpa [Tree.entries, List.map_flatMap] using ha
    · simpa [Tree.entries, List.map_flatMap] using ha

/-- The sorted list `es` with the entry `(k, v)` put before the first key not below `k`. -/
def insertEntry (k : K) (v : V) (es : List (K × V)) : List (K × V) :=
  es.takeWhile (fun e => e.1 < k) ++ (k, v) :: es.dropWhile (fun e => e.1 < k)

theorem insertEntry_perm (k : K) (v : V) (es : List (K × V)) :
    (insertEntry k v es).Perm ((k, v) :: es) := by
  unfold insertEntry
  refine List.perm_middle.trans (List.Perm.cons _ ?_)
  rw [List.takeWhile_append_dropWhile]

theorem insertEntry_length (k : K) (v : V) (es : List (K × V)) :
    (insertEntry k v es).length = es.length + 1 := by
  simpa using (insertEntry_perm k v es).length_eq

/-- Entries with smaller keys in front and larger keys behind are passed over. -/
theorem insertEntry_between (k : K) (v : V) {xs es ys : List (K × V)}
    (hx : ∀ a ∈ xs.map Prod.fst, a < k) (hy : ∀ a ∈ ys.map Prod.fst, k < a) :
    insertEntry k v (xs ++ es ++ ys) = xs ++ insertEntry k v es ++ ys := by
  have hx' : ∀ e ∈ xs, decide (e.1 < k) = true := by
    intro e he
    simpa using hx e.1 (List.mem_map_of_mem he)
  have hy' : ∀ e ∈ ys.head?, decide (e.1 < k) = false := by
    intro e he
    have := hy e.1 (List.mem_map_of_mem (List.mem_of_mem_head? he))
    simpa using this.le
  have htake : ys.takeWhile (fun e => e.1 < k) = [] := by
    match ys, hy' with
    | [], _ => rfl
    | y :: ys, hy' => simpa using hy' y (by simp)
  have hdrop : ys.dropWhile (fun e => e.1 < k) = ys := by
    have := List.takeWhile_append_dropWhile (p := fun e : K × V => decide (e.1 < k)) (l := ys)
    rwa [htake, List.nil_append] at this
  have hes : (es ++ ys).takeWhile (fun e => e.1 < k) = es.takeWhile (fun e => e.1 < k) ∧
      (es ++ ys).dropWhile (fun e => e.1 < k) = es.dropWhile (fun e => e.1 < k) ++ ys := by
    clear hx hx'
    induction es with
    | nil => simp only [List.nil_append, List.takeWhile_nil, List.dropWhile_nil, htake, hdrop,
        and_self]
    | cons e es ih =>
      by_cases he : e.1 < k
      · simp only [List.cons_append, List.takeWhile_cons, List.dropWhile_cons, he,
          decide_true, if_true, ih, and_self]
      · simp [he]
  unfold insertEntry
  rw [List.append_assoc xs, List.takeWhile_append_of_pos hx', List.dropWhile_append_of_pos hx',
    hes.1, hes.2]
  simp

theorem insertEntry_sorted {k : K} {v : V} {es : List (K × V)}
    (hs : (es.map Prod.fst).Pairwise (· < ·)) (hk : k ∉ es.map Prod.fst) :
    ((insertEntry k v es).map Prod.fst).Pairwise (· < ·) := by
  have hsplit := List.takeWhile_append_dropWhile (p := fun e : K × V => decide (e.1 < k)) (l := es)
  rw [← hsplit, List.map_append, List.pairwise_append] at hs
  obtain ⟨hleft, hright, hcross⟩ := hs
  have hbelow : ∀ a ∈ (es.takeWhile (fun e => e.1 < k)).map Prod.fst, a < k := by
    intro a ha
    obtain ⟨e, he, rfl⟩ := List.mem_map.mp ha
    simpa using List.mem_takeWhile_imp he
  have habove : ∀ a ∈ (es.dropWhile (fun e => e.1 < k)).map Prod.fst, k < a := by
    intro a ha
    have hne : a ≠ k := by
      rintro rfl
      exact hk (List.map_subset _ (List.dropWhile_subset _) ha)
    cases hd : es.dropWhile (fun e => e.1 < k) with
    | nil => simp [hd] at ha
    | cons e rest =>
      have hhead := List.head?_dropWhile_not (fun e : K × V => decide (e.1 < k)) es
      rw [hd] at hhead ha hright
      have hke : k ≤ e.1 := by simpa using hhead
      rw [List.map_cons, List.pairwise_cons] at hright
      rcases List.mem_cons.mp ha with rfl | ha
      · exact lt_of_le_of_ne hke (Ne.symm hne)
      · exact lt_of_le_of_lt hke (hright.1 a ha)
  unfold insertEntry
  rw [List.map_append, List.map_cons, List.pairwise_append, List.pairwise_cons]
  refine ⟨hleft, ⟨habove, hright⟩, ?_⟩
  intro a ha b hb
  rcases List.mem_cons.mp hb with rfl | hb
  · exact hbelow a ha
  · exact hcross a ha b hb

end Order

section Lookup

variable [BEq K] [LawfulBEq K]

theorem lookup_none_of_notMem {k : K} {es : List (K × V)} (hk : k ∉ es.map Prod.fst) :
    es.lookup k = none := by
  rw [List.lookup_eq_none_iff]
  intro e he
  have : k ≠ e.1 := fun h => hk (h ▸ List.mem_map_of_mem he)
  simpa using this

variable [LinearOrder K]

theorem lookup_insertEntry {k : K} {v : V} {es : List (K × V)} (hk : k ∉ es.map Prod.fst)
    (a : K) : (insertEntry k v es).lookup a = if a = k then some v else es.lookup a := by
  have hsplit := List.takeWhile_append_dropWhile (p := fun e : K × V => decide (e.1 < k)) (l := es)
  unfold insertEntry
  rw [List.lookup_append, List.lookup_cons]
  by_cases ha : a = k
  · subst a
    have hnone : (es.takeWhile (fun e => e.1 < k)).lookup k = none :=
      lookup_none_of_notMem (fun h => hk (List.map_subset _ (List.takeWhile_subset _) h))
    simp [hnone]
  · rw [if_neg ha, beq_false_of_ne ha]
    conv_rhs => rw [← hsplit, List.lookup_append]

/-- In an ordered tree the hole that admits a key is the only place it can be. -/
theorem lookup_plug {h : ℕ} (c : Context K V P h) (t : Tree K V P h) (ho : (c.plug t).Ordered)
    {k : K} (hk : AtLeast c.lower k) (hk' : Below k c.upper) :
    (c.plug t).entries.lookup k = t.entries.lookup k := by
  obtain ⟨hb, ha⟩ := sides_of_hole c t ho hk hk'
  have hbefore : (c.before.flatMap Leaf.entries).lookup k = none :=
    lookup_none_of_notMem (fun h => lt_irrefl k (hb k h))
  have hafter : (c.after.flatMap Leaf.entries).lookup k = none :=
    lookup_none_of_notMem (fun h => lt_irrefl k (ha k h))
  have heq : (c.plug t).entries = c.before.flatMap Leaf.entries ++ t.entries ++
      c.after.flatMap Leaf.entries := by
    change ((c.plug t).leaves).flatMap Leaf.entries = _
    rw [leaves_plug, List.flatMap_append, List.flatMap_append]
    rfl
  rw [heq, List.lookup_append, List.lookup_append, hbefore, hafter]
  simp

end Lookup

/-- Every leaf names its right neighbour and the last one names none. -/
def Linked : List (Leaf K V P) → Prop
  | [] => True
  | [a] => a.next = none
  | a :: b :: rest => a.next = some b.label ∧ Linked (b :: rest)

def firstLabel (ys : List (Leaf K V P)) : Option P := ys.head?.map Leaf.label

theorem linked_cons (a : Leaf K V P) (ys : List (Leaf K V P)) :
    Linked (a :: ys) ↔ a.next = firstLabel ys ∧ Linked ys := by
  cases ys with
  | nil => simp [Linked, firstLabel]
  | cons b ys => simp [Linked, firstLabel]

/-- Leaves may be replaced by others that start with the same label and link up. -/
theorem linked_splice {xs ys new : List (Leaf K V P)} {a : Leaf K V P}
    (h : Linked (xs ++ a :: ys)) (hnew : firstLabel (new ++ ys) = some a.label)
    (hlink : a.next = firstLabel ys → Linked ys → Linked (new ++ ys)) :
    Linked (xs ++ (new ++ ys)) := by
  induction xs with
  | nil =>
    rw [List.nil_append, linked_cons] at h
    exact hlink h.1 h.2
  | cons x xs ih =>
    rw [List.cons_append, linked_cons] at h ⊢
    refine ⟨?_, ih h.2⟩
    rw [h.1]
    cases xs with
    | nil => simpa [firstLabel] using hnew.symm
    | cons y xs => simp [firstLabel]

section InsertAt

variable [LinearOrder K]

/-- Insert into the leaf in the hole. A leaf with more than `cap` entries is divided in the
middle; the first key of its right half becomes the separator. -/
def Context.insertAt (cap : ℕ) (fresh : ℕ → P) (c : Context K V P 0) (i : ℕ)
    (leaf : Leaf K V P) (k : K) (v : V) : Root K V P :=
  let es := insertEntry k v leaf.entries
  let m := es.length / 2
  if leaf.entries.length < cap then c.plug (Tree.leaf { leaf with entries := es })
  else match es.drop m with
    | [] => c.plug (Tree.leaf { leaf with entries := es })
    | e :: right =>
      c.absorb cap fresh (i + 1)
        (Tree.leaf { leaf with entries := es.take m, next := some (fresh i) }) e.1
        (Tree.leaf { label := fresh i, entries := e :: right, next := leaf.next })

theorem insertAt_room {cap : ℕ} (fresh : ℕ → P) (c : Context K V P 0) {leaf : Leaf K V P}
    (hroom : leaf.entries.length < cap) (i : ℕ) (k : K) (v : V) :
    c.insertAt cap fresh i leaf k v =
      c.plug (Tree.leaf { leaf with entries := insertEntry k v leaf.entries }) := by
  simp only [Context.insertAt, if_pos hroom]

theorem insertAt_full {cap : ℕ} (fresh : ℕ → P) (c : Context K V P 0) {leaf : Leaf K V P}
    (hfull : ¬ leaf.entries.length < cap) (i : ℕ) (k : K) (v : V) :
    ∃ left e right, insertEntry k v leaf.entries = left ++ e :: right ∧
      left.length = (leaf.entries.length + 1) / 2 ∧
      c.insertAt cap fresh i leaf k v = c.absorb cap fresh (i + 1)
        (Tree.leaf { leaf with entries := left, next := some (fresh i) }) e.1
        (Tree.leaf { label := fresh i, entries := e :: right, next := leaf.next }) := by
  have hlen := insertEntry_length k v leaf.entries
  have hdrop : (insertEntry k v leaf.entries).drop
      ((insertEntry k v leaf.entries).length / 2) ≠ [] := by
    intro hd
    have := congrArg List.length hd
    simp only [List.length_drop, List.length_nil] at this
    omega
  obtain ⟨e, right, he⟩ := List.exists_cons_of_ne_nil hdrop
  refine ⟨(insertEntry k v leaf.entries).take ((insertEntry k v leaf.entries).length / 2),
    e, right, ?_, ?_, ?_⟩
  · rw [← he, List.take_append_drop]
  · rw [List.length_take, hlen]; omega
  · simp only [Context.insertAt, if_neg hfull, he]

theorem entries_insertAt (cap : ℕ) (fresh : ℕ → P) (c : Context K V P 0) (i : ℕ)
    (leaf : Leaf K V P) {k : K} (v : V) (ho : (c.plug (Tree.leaf leaf)).Ordered)
    (hk : AtLeast c.lower k)
    (hk' : Below k c.upper) :
    (c.insertAt cap fresh i leaf k v).entries =
      insertEntry k v (c.plug (Tree.leaf leaf)).entries := by
  obtain ⟨hb, ha⟩ := sides_of_hole c _ ho hk hk'
  have hold : (c.plug (Tree.leaf leaf)).entries =
      c.before.flatMap Leaf.entries ++ leaf.entries ++ c.after.flatMap Leaf.entries := by
    change ((c.plug (Tree.leaf leaf)).leaves).flatMap Leaf.entries = _
    simp [leaves_plug]
  rw [hold, insertEntry_between k v hb ha]
  change ((c.insertAt cap fresh i leaf k v).leaves).flatMap Leaf.entries = _
  by_cases hroom : leaf.entries.length < cap
  · rw [insertAt_room fresh c hroom, leaves_plug]
    simp
  · obtain ⟨left, e, right, hes, -, heq⟩ := insertAt_full fresh c hroom i k v
    rw [heq, leaves_absorb, hes]
    simp

theorem ordered_insertAt (cap : ℕ) (fresh : ℕ → P) (c : Context K V P 0) (i : ℕ)
    (leaf : Leaf K V P) {k : K} (v : V) (ho : (c.plug (Tree.leaf leaf)).Ordered)
    (hk : AtLeast c.lower k)
    (hk' : Below k c.upper) (hnew : k ∉ leaf.entries.map Prod.fst) (hcap : 0 < cap) :
    (c.insertAt cap fresh i leaf k v).Ordered := by
  have hleaf := ordered_focus c _ ho
  rw [ordered_leaf] at hleaf
  have hs := insertEntry_sorted (v := v) hleaf.1 hnew
  have hbound : ∀ a ∈ (insertEntry k v leaf.entries).map Prod.fst,
      AtLeast c.lower a ∧ Below a c.upper := by
    intro a ha
    rcases List.mem_cons.mp (((insertEntry_perm k v leaf.entries).map Prod.fst).mem_iff.mp ha)
      with rfl | ha
    · exact ⟨hk, hk'⟩
    · exact hleaf.2 a ha
  by_cases hroom : leaf.entries.length < cap
  · rw [insertAt_room fresh c hroom]
    exact ordered_replace c _ _ ho ((ordered_leaf _ _ _).mpr ⟨hs, hbound⟩)
  · obtain ⟨left, e, right, hes, hlen, heq⟩ := insertAt_full fresh c hroom i k v
    rw [hes, List.map_append, List.map_cons] at hs hbound
    rw [List.pairwise_append] at hs
    obtain ⟨hsl, hsr, hcross⟩ := hs
    have hsr' := List.pairwise_cons.mp hsr
    have hmid := hbound e.1 (by simp)
    rw [heq]
    refine ordered_absorb cap fresh c (i + 1) _ _ _ e.1 ho ?_ ?_ ?_ hmid.2
    · refine (ordered_leaf _ _ _).mpr ⟨hsl, fun a ha => ⟨(hbound a (by simp [ha])).1, ?_⟩⟩
      exact (below_some a e.1).mpr (hcross a ha e.1 (by simp))
    · refine (ordered_leaf _ _ _).mpr ⟨hsr, fun a ha => ⟨?_, (hbound a ?_).2⟩⟩
      · rw [atLeast_some]
        rcases List.mem_cons.mp ha with rfl | ha
        · exact le_rfl
        · exact (hsr'.1 a ha).le
      · exact List.mem_append_right _ ha
    · -- the left half is not empty, so its first key separates the bound from the new separator
      cases left with
      | nil => simp only [List.length_nil] at hlen; omega
      | cons d left =>
        have hd := hcross d.1 (by simp) e.1 (by simp)
        intro l hl
        exact lt_of_le_of_lt ((hbound d.1 (by simp)).1 l hl) hd

theorem linked_insertAt (cap : ℕ) (fresh : ℕ → P) (c : Context K V P 0) (i : ℕ)
    (leaf : Leaf K V P) (k : K) (v : V) (hlink : Linked (c.plug (Tree.leaf leaf)).leaves) :
    Linked (c.insertAt cap fresh i leaf k v).leaves := by
  rw [leaves_plug, Tree.leaves_leaf, List.append_assoc, List.singleton_append] at hlink
  by_cases hroom : leaf.entries.length < cap
  · rw [insertAt_room fresh c hroom, leaves_plug, Tree.leaves_leaf, List.append_assoc]
    refine linked_splice hlink (by simp [firstLabel]) fun hn hy => ?_
    exact (linked_cons _ _).mpr ⟨hn, hy⟩
  · obtain ⟨left, e, right, -, -, heq⟩ := insertAt_full fresh c hroom i k v
    rw [heq, leaves_absorb, Tree.leaves_leaf, Tree.leaves_leaf, List.append_assoc,
      List.append_assoc, ← List.append_assoc [_] [_]]
    refine linked_splice hlink (by simp [firstLabel]) fun hn hy => ?_
    rw [List.singleton_append, List.cons_append, List.singleton_append, linked_cons, linked_cons]
    exact ⟨rfl, hn, hy⟩

end InsertAt

end LabelledBPlusTree
