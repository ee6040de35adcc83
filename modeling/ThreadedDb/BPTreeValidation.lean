import ThreadedDb.BPTreeMap

/-!
# Reachable trees validate, and the leaf chain lists their contents

`bptree_validate` accepts every tree that a run of inserts leaves behind. The leaves found by
following `next` from the leftmost leaf are those found through the child pointers.
-/
namespace BPTreeValidation

open CheckedArray
open SeparatorChain
open LabelledBPlusTree
open BPTreeHeap
open BPTreeOwnership
open BPTreeInsertion
open BPTreeMap

theorem keysIncrease_sorted {node : BPTreeNode} {ks : List UInt64} (h : Holds node.keys ks)
    (hs : ks.Pairwise (· < ·)) : keysIncrease node 1 (ks.length - 1) = .ok true := by
  have main : ∀ (pre : List UInt64) (a : UInt64) (post : List UInt64), ks = pre ++ a :: post →
      keysIncrease node (pre.length + 1) post.length = .ok true := by
    intro pre a post
    induction post generalizing pre a with
    | nil => intro _; rfl
    | cons b post ih =>
      intro hks
      have ha : read node.keys pre.length = .ok a := read_holds h (by simp [hks])
      have hb : read node.keys (pre.length + 1) = .ok b := read_holds h (by simp [hks])
      have hlt : a < b := by
        rw [hks, List.pairwise_append, List.pairwise_cons] at hs
        exact hs.2.1.1 b List.mem_cons_self
      have hrest := ih (pre ++ [a]) b (by simp [hks])
      simp only [List.length_append, List.length_cons, List.length_nil, Nat.zero_add] at hrest
      simp only [List.length_cons, keysIncrease, Nat.add_sub_cancel, ha, hb, ok_bind,
        if_neg (not_le.mpr hlt), hrest]
  cases ks with
  | nil => rfl
  | cons a post => exact main [] a post rfl

theorem keysInRange_within {node : BPTreeNode} {ks : List UInt64} {lo hi : Option UInt64}
    (h : Holds node.keys ks) (hin : ∀ k ∈ ks, AtLeast lo k ∧ Below k hi) :
    keysInRange node lo hi 0 ks.length = .ok true := by
  have main : ∀ pre post : List UInt64, ks = pre ++ post →
      keysInRange node lo hi pre.length post.length = .ok true := by
    intro pre post
    induction post generalizing pre with
    | nil => intro _; rfl
    | cons k post ih =>
      intro hks
      have hk : read node.keys pre.length = .ok k := read_holds h (by simp [hks])
      have hrest := ih (pre ++ [k]) (by simp [hks])
      simp only [List.length_append, List.length_cons, List.length_nil, Nat.zero_add] at hrest
      obtain ⟨hlo, hhi⟩ := hin k (by simp [hks])
      have hout : outsideRange lo hi k = false := by
        cases lo <;> cases hi <;> simp_all [outsideRange]
      simp only [List.length_cons, keysInRange, hk, ok_bind, hout, Bool.false_eq_true, if_false,
        hrest]
  exact main [] ks rfl

def Apart (lo hi : Option UInt64) : Prop := ∀ l ∈ lo, ∀ u ∈ hi, l < u

def Expects (d : ℕ) (state : ValidationState) : Prop :=
  state.leafDepthSet = true → state.leafDepth = d

theorem childLower_hole {node : BPTreeNode} {pre ks : List UInt64} (lo : Option UInt64)
    (h : Holds node.keys (pre ++ ks)) :
    childLower node lo pre.length = .ok (holeLower pre lo) := by
  unfold childLower
  rcases List.eq_nil_or_concat pre with rfl | ⟨init, k, rfl⟩
  · rfl
  · have hk : read node.keys init.length = .ok k := read_holds h (by simp)
    rw [List.concat_eq_append, holeLower_concat, if_pos (by simp)]
    simp only [List.length_append, List.length_cons, List.length_nil, Nat.zero_add,
      Nat.add_sub_cancel, hk, map_ok]

theorem childUpper_hole {node : BPTreeNode} {pre ks : List UInt64} (hi : Option UInt64)
    (h : Holds node.keys (pre ++ ks)) (hcount : node.keyCount = (pre ++ ks).length) :
    childUpper node hi pre.length = .ok (holeUpper ks hi) := by
  unfold childUpper
  cases ks with
  | nil => rw [if_neg (by simp [hcount]), holeUpper_nil]
  | cons k ks =>
    have hk : read node.keys pre.length = .ok k := read_holds h (by simp)
    rw [if_pos (by simp [hcount]), hk, holeUpper_cons, map_ok]

theorem not_empty_range {lo hi : Option UInt64} (h : Apart lo hi) :
    lo.any (fun l => hi.any (· ≤ l)) = false := by
  cases lo <;> cases hi <;> simp_all [Apart]

theorem validateChildren_chain {h : ℕ} {node : BPTreeNode} {seps : List UInt64} {kids : List Ptr}
    {parent : Option Ptr} (hb : IsBranchNode node seps kids parent)
    (visit : Ptr → Option UInt64 → Option UInt64 → ValidationState → Checked Verdict) {d : ℕ}
    {lo hi : Option UInt64} (pre ks : List UInt64) (prek : List Ptr) (cs : List (NodeTree h))
    (hseps : seps = pre ++ ks) (hkids : kids = prek ++ cs.map Tree.label)
    (hpre : pre.length = prek.length) (hchain : Chain Tree.Ordered ks cs (holeLower pre lo) hi)
    (hapart : Apart (holeLower pre lo) hi)
    (hvisit : ∀ c ∈ cs, ∀ lo hi state, c.Ordered lo hi → Apart lo hi → Expects d state →
      visit c.label lo hi state = .ok (.ok ⟨d, true⟩))
    {state : ValidationState} (hstate : Expects d state) :
    validateChildren visit node lo hi pre.length cs.length state = .ok (.ok ⟨d, true⟩) := by
  induction cs generalizing pre ks prek state with
  | nil =>
    have := chain_length hchain
    simp at this
  | cons c cs ih =>
    have hkeys := hseps ▸ hb.keys
    have hchild : read node.children pre.length = .ok (some c.label) := by
      apply read_holds hb.children
      rw [hkids, hpre]
      simp
    have hlower := childLower_hole lo hkeys
    have hupper := childUpper_hole hi hkeys (by rw [hb.count, hseps])
    obtain ⟨hord, hap⟩ : c.Ordered (holeLower pre lo) (holeUpper ks hi) ∧
        Apart (holeLower pre lo) (holeUpper ks hi) := by
      cases ks with
      | nil =>
        cases cs with
        | nil => exact ⟨hchain, hapart⟩
        | cons _ _ => exact hchain.elim
      | cons k ks =>
        refine ⟨hchain.2.2.1, fun l hl u hu => ?_⟩
        cases hu
        exact hchain.1 l hl
    have hverdict := hvisit c List.mem_cons_self _ _ state hord hap hstate
    simp only [List.length_cons, validateChildren, hchild, ok_bind, hlower, hupper,
      not_empty_range hap, Bool.false_eq_true, if_false, hverdict]
    cases ks with
    | nil =>
      cases cs with
      | nil => rfl
      | cons _ _ => exact hchain.elim
    | cons k ks =>
      have hrest := ih (pre ++ [k]) ks (prek ++ [c.label]) (by simp [hseps]) (by simp [hkids])
        (by simp [hpre]) (by rw [holeLower_concat]; exact hchain.2.2.2)
        (by
          rw [holeLower_concat]
          intro l hl u hu
          cases hl
          exact hchain.2.1 u hu)
        (fun c hc => hvisit c (List.mem_cons_of_mem _ hc)) (fun _ => rfl : Expects d ⟨d, true⟩)
      simpa using hrest

theorem validateNode_ordered {nodes : List BPTreeNode} {h : ℕ} (t : NodeTree h) (depth : ℕ)
    (state : ValidationState) {parent : Option Ptr} {lo hi : Option UInt64} {fuel : ℕ}
    (hfuel : h < fuel) (ho : Owns nodes t parent) (hord : t.Ordered lo hi) (hapart : Apart lo hi)
    (hstate : Expects (depth + h) state) :
    validateNode nodes fuel (some t.label) parent lo hi depth state =
      .ok (.ok ⟨depth + h, true⟩) := by
  obtain ⟨fuel, rfl⟩ : ∃ f, fuel = f + 1 := ⟨fuel - 1, by omega⟩
  induction h generalizing parent lo hi fuel depth state with
  | zero =>
    obtain ⟨node, hn, hl⟩ := ho
    have hcap := hl.keys.length_le
    have hinc := keysIncrease_sorted hl.keys hord.1
    have hrange := keysInRange_within hl.keys hord.2
    rw [List.length_map, ← hl.count] at hcap hinc hrange
    simp only [validateNode, deref, hn, ok_bind, hl.parent_eq, ne_eq, not_true, if_false,
      if_neg (not_lt.mpr hcap), hinc, hl.isLeaf, hrange, if_true, Bool.not_true,
      Bool.false_eq_true, Nat.add_zero]
    cases hset : state.leafDepthSet with
    | false => simp
    | true =>
      obtain ⟨leafDepth, leafDepthSet⟩ := state
      have hdepth := hstate hset
      simp_all
  | succ h ih =>
    obtain ⟨⟨node, hn, hb⟩, hkids⟩ := ho
    have hcap := hb.keys.length_le
    have hinc := keysIncrease_sorted hb.keys (chain_seps hord).1
    rw [← hb.count] at hcap hinc
    obtain ⟨fuel, rfl⟩ : ∃ f, fuel = f + 1 := ⟨fuel - 1, by omega⟩
    have hvisit : ∀ c ∈ t.toBranch.children, ∀ lo hi state, c.Ordered lo hi → Apart lo hi →
        Expects (depth + (h + 1)) state → validateNode nodes (fuel + 1) (some c.label)
          (some t.label) lo hi (depth + 1) state = .ok (.ok ⟨depth + (h + 1), true⟩) := by
      intro c hc lo hi state hco hap hst
      have heq : depth + (h + 1) = depth + 1 + h := by omega
      rw [heq] at hst ⊢
      exact ih c (depth + 1) state (hkids c hc) hco hap hst fuel (by omega)
    have hchildren := validateChildren_chain hb
      (fun child lo hi st => validateNode nodes (fuel + 1) (some child) (some t.label) lo hi
        (depth + 1) st)
      [] t.toBranch.seps [] t.toBranch.children rfl rfl rfl hord hapart hvisit hstate
    have hcount : node.keyCount + 1 = t.toBranch.children.length := by
      rw [hb.count, chain_length hord]
    simp only [validateNode, deref, hn, ok_bind, hb.parent_eq, ne_eq, not_true, if_false,
      if_neg (not_lt.mpr hcap), hinc, hb.isBranch, Bool.not_true, Bool.false_eq_true, hcount]
    exact hchildren

theorem leaves_ne_nil {h : ℕ} (t : NodeTree h) {lo hi : Option UInt64} (hord : t.Ordered lo hi) :
    t.leaves ≠ [] := by
  induction h generalizing lo hi with
  | zero => exact List.cons_ne_nil _ _
  | succ h ih =>
    cases hc : t.toBranch.children with
    | nil =>
      have := chain_length hord
      simp [hc] at this
    | cons c cs =>
      obtain ⟨l, u, hco⟩ := chain_forall hord c (by simp [hc])
      simp only [Tree.leaves, hc, List.flatMap_cons]
      intro hnil
      exact ih c hco (List.append_eq_nil_iff.mp hnil).1

theorem firstLabel_append {xs : List LeafNode} (hx : xs ≠ []) (ys : List LeafNode) :
    firstLabel (xs ++ ys) = firstLabel xs := by
  cases xs with
  | nil => exact absurd rfl hx
  | cons x xs => rfl

theorem findLeftmostLeaf_first {nodes : List BPTreeNode} {h : ℕ} (t : NodeTree h)
    {parent : Option Ptr} {lo hi : Option UInt64} {fuel : ℕ} (hfuel : h < fuel)
    (ho : Owns nodes t parent) (hord : t.Ordered lo hi) :
    findLeftmostLeaf nodes fuel (some t.label) = .ok (firstLabel t.leaves) := by
  obtain ⟨fuel, rfl⟩ : ∃ f, fuel = f + 1 := ⟨fuel - 1, by omega⟩
  induction h generalizing parent lo hi fuel with
  | zero =>
    obtain ⟨node, hn, hl⟩ := ho
    simp only [findLeftmostLeaf, deref, hn, ok_bind, hl.isLeaf, if_true]
    rfl
  | succ h ih =>
    obtain ⟨⟨node, hn, hb⟩, hkids⟩ := ho
    obtain ⟨fuel, rfl⟩ : ∃ f, fuel = f + 1 := ⟨fuel - 1, by omega⟩
    cases hc : t.toBranch.children with
    | nil =>
      have := chain_length hord
      simp [hc] at this
    | cons c cs =>
      have hmem : c ∈ t.toBranch.children := by simp [hc]
      obtain ⟨l, u, hco⟩ := chain_forall hord c hmem
      have hread : read node.children 0 = .ok (some c.label) :=
        read_holds hb.children (by simp [hc])
      have hfirst : firstLabel t.leaves = firstLabel c.leaves := by
        simp only [Tree.leaves, hc, List.flatMap_cons]
        exact firstLabel_append (leaves_ne_nil c hco) _
      rw [findLeftmostLeaf, hfirst]
      simp only [deref, hn, ok_bind, hb.isBranch, Bool.false_eq_true, if_false, hread]
      exact ih c (hkids c hmem) hco fuel (by omega)

theorem owns_leaves {nodes : List BPTreeNode} {h : ℕ} {t : NodeTree h} {parent : Option Ptr}
    (ho : Owns nodes t parent) : ∀ l ∈ t.leaves, ∃ node p,
      nodes[l.label]? = some node ∧ IsLeafNode node l p := by
  induction h generalizing parent with
  | zero =>
    intro l hl
    rw [List.mem_singleton.mp hl]
    obtain ⟨node, hn, hleaf⟩ := ho
    exact ⟨node, parent, hn, hleaf⟩
  | succ h ih =>
    intro l hl
    obtain ⟨c, hc, hl⟩ := List.mem_flatMap.mp hl
    exact ih (ho.2 c hc) l hl

theorem chainKeys_sorted {node : BPTreeNode} {ks : List UInt64} (h : Holds node.keys ks)
    (previous : Option UInt64) (counted : ℕ) (hs : ks.Pairwise (· < ·))
    (hprev : ∀ p ∈ previous, ∀ k ∈ ks, p < k) :
    chainKeys node 0 ks.length previous counted =
      .ok (some (ks.getLast?.or previous, counted + ks.length)) := by
  have main : ∀ (pre post : List UInt64) (previous : Option UInt64) (counted : ℕ),
      ks = pre ++ post → (∀ p ∈ previous, ∀ k ∈ post, p < k) →
      chainKeys node pre.length post.length previous counted =
        .ok (some (post.getLast?.or previous, counted + post.length)) := by
    intro pre post
    induction post generalizing pre with
    | nil => intro previous counted _ _; rfl
    | cons k post ih =>
      intro previous counted hks hprev
      have hk : read node.keys pre.length = .ok k := read_holds h (by simp [hks])
      have hafter : ∀ a ∈ post, k < a := by
        rw [hks, List.pairwise_append, List.pairwise_cons] at hs
        exact hs.2.1.1
      have hrest := ih (pre ++ [k]) (some k) (counted + 1) (by simp [hks])
        (fun p hp a ha => by cases hp; exact hafter a ha)
      simp only [List.length_append, List.length_cons, List.length_nil, Nat.zero_add] at hrest
      have hfine : previous.any (k ≤ ·) = false := by
        cases previous with
        | none => rfl
        | some p => simpa using hprev p rfl k List.mem_cons_self
      simp only [List.length_cons, chainKeys, hk, ok_bind, hfine, Bool.false_eq_true, if_false,
        hrest]
      congr 3
      · cases post with
        | nil => rfl
        | cons a post => simp [List.getLast?_cons]
      · omega
  exact main [] ks previous counted rfl hprev

def Stored (nodes : List BPTreeNode) (ls : List LeafNode) : Prop :=
  ∀ l ∈ ls, ∃ node p, nodes[l.label]? = some node ∧ IsLeafNode node l p

theorem validateChain_linked {nodes : List BPTreeNode} {ls : List LeafNode} {fuel : ℕ}
    (hfuel : ls.length ≤ fuel) (hstored : Stored nodes ls) (hlink : Linked ls)
    (hs : ((ls.flatMap Leaf.entries).map Prod.fst).Pairwise (· < ·)) (previous : Option UInt64)
    (hprev : ∀ p ∈ previous, ∀ k ∈ (ls.flatMap Leaf.entries).map Prod.fst, p < k) (counted : ℕ) :
    validateChain nodes fuel (firstLabel ls) previous counted =
      .ok (.ok (counted + (ls.flatMap Leaf.entries).length)) := by
  induction ls generalizing fuel previous counted with
  | nil => cases fuel <;> rfl
  | cons l ls ih =>
    obtain ⟨fuel, rfl⟩ : ∃ f, fuel = f + 1 := ⟨fuel - 1, by simp at hfuel; omega⟩
    obtain ⟨node, p, hn, hleaf⟩ := hstored l List.mem_cons_self
    obtain ⟨hnext, hrest⟩ := (linked_cons l ls).mp hlink
    rw [List.flatMap_cons, List.map_append] at hs hprev
    obtain ⟨hsl, hsr, hcross⟩ := List.pairwise_append.mp hs
    have hkeys := chainKeys_sorted hleaf.keys previous counted hsl
      (fun a ha k hk => hprev a ha k (List.mem_append_left _ hk))
    rw [List.length_map, ← hleaf.count] at hkeys
    have hprev' : ∀ a ∈ ((l.entries.map Prod.fst).getLast?.or previous),
        ∀ k ∈ (ls.flatMap Leaf.entries).map Prod.fst, a < k := by
      intro a ha k hk
      cases hlast : (l.entries.map Prod.fst).getLast? with
      | none =>
        rw [hlast, Option.none_or] at ha
        exact hprev a ha k (List.mem_append_right _ hk)
      | some b =>
        rw [hlast, Option.some_or, Option.mem_some_iff] at ha
        exact hcross a (List.mem_of_getLast? (ha ▸ hlast)) k hk
    have htail := ih (by simpa using hfuel) (fun l hl => hstored l (List.mem_cons_of_mem _ hl))
      hrest hsr _ hprev' (counted + node.keyCount)
    have hfirst : firstLabel (l :: ls) = some l.label := rfl
    rw [hfirst]
    simp only [validateChain, deref, hn, ok_bind, hleaf.isLeaf, Bool.not_true, Bool.false_eq_true,
      if_false, hkeys, hleaf.next_eq, hnext, htail, List.flatMap_cons, List.length_append]
    rw [hleaf.count, Nat.add_assoc]

theorem leaf_labels_sublist {h : ℕ} (t : NodeTree h) :
    (t.leaves.map Leaf.label).Sublist t.labels := by
  induction h with
  | zero => exact List.Sublist.refl _
  | succ h ih =>
    simp only [Tree.leaves, Tree.labels, List.map_flatMap]
    refine List.Sublist.trans ?_ (List.sublist_cons_self _ _)
    generalize t.toBranch.children = cs
    induction cs with
    | nil => exact List.Sublist.refl _
    | cons c cs ihc => exact List.Sublist.append (ih c) ihc

theorem layout_leaves {tree : BPTree} {t : RootTree} (hl : Layout tree t) :
    t.leaves.length ≤ tree.nodes.length + 1 := by
  have h₁ := (leaf_labels_sublist t.tree).length_le
  have h₂ := nodup_length_le hl.distinct (owns_lt hl.owned)
  have h₃ : t.labels.length = t.tree.labels.length := rfl
  have h₄ : t.leaves.length = (t.tree.leaves.map Leaf.label).length := by simp [Root.leaves]
  omega

theorem bptreeValidate_denotes {tree : BPTree} {es : List (UInt64 × Int)}
    (hd : Denotes tree es) : bptreeValidate tree = .ok (.ok ()) := by
  cases hd with
  | empty hroot hcount => simp [bptreeValidate, hroot, hcount]
  | node t hl =>
    have hnode := validateNode_ordered t.tree 0 ⟨0, false⟩
      (layout_height hl) hl.owned hl.ordered (by intro l hl; cases hl) (by intro h; cases h)
    have hfirst := findLeftmostLeaf_first t.tree (layout_height hl) hl.owned hl.ordered
    have hchain := validateChain_linked (layout_leaves hl) (owns_leaves hl.owned) hl.linked
      (root_keys_sorted hl.ordered) none (by intro p hp; cases hp) 0
    have hcount : (t.leaves.flatMap Leaf.entries).length = tree.keyCount := hl.count.symm
    rw [hcount, Nat.zero_add] at hchain
    have hchain' : validateChain tree.nodes (tree.nodes.length + 1) (firstLabel t.tree.leaves)
        none 0 = .ok (.ok tree.keyCount) := hchain
    simp only [bptreeValidate, hl.root, hnode, ok_bind, hfirst, hchain', ne_eq, not_true, if_false]

def chainLeaves (nodes : List BPTreeNode) : ℕ → Option Ptr → Checked (List Ptr)
  | _, none => .ok []
  | 0, some _ => .error .unbounded
  | fuel + 1, some p => do
    let leaf ← deref nodes p
    let rest ← chainLeaves nodes fuel leaf.next
    .ok (p :: rest)

def collectChildren (visit : Ptr → Checked (List Ptr)) (node : BPTreeNode) :
    ℕ → ℕ → Checked (List Ptr)
  | _, 0 => .ok []
  | i, rounds + 1 => do
    let child ← read node.children i
    match child with
    | none => .error .badPointer
    | some child => do
      let found ← visit child
      let rest ← collectChildren visit node (i + 1) rounds
      .ok (found ++ rest)

/-- The leaves below a node, through the child pointers, from left to right. -/
def leavesBelow (nodes : List BPTreeNode) : ℕ → Ptr → Checked (List Ptr)
  | 0, _ => .error .unbounded
  | fuel + 1, p => do
    let node ← deref nodes p
    if node.isLeaf then .ok [p]
    else collectChildren (leavesBelow nodes fuel) node 0 (node.keyCount + 1)

def leafPairs (nodes : List BPTreeNode) : List Ptr → Checked (List (UInt64 × Int))
  | [] => .ok []
  | p :: rest => do
    let leaf ← deref nodes p
    let pairs ← leafPairs nodes rest
    .ok ((leaf.keys.toList.take leaf.keyCount).zip (leaf.rowOffsets.toList.take leaf.keyCount)
      ++ pairs)

theorem chainLeaves_linked {nodes : List BPTreeNode} {ls : List LeafNode} {fuel : ℕ}
    (hfuel : ls.length ≤ fuel) (hstored : Stored nodes ls) (hlink : Linked ls) :
    chainLeaves nodes fuel (firstLabel ls) = .ok (ls.map Leaf.label) := by
  induction ls generalizing fuel with
  | nil => cases fuel <;> rfl
  | cons l ls ih =>
    obtain ⟨fuel, rfl⟩ : ∃ f, fuel = f + 1 := ⟨fuel - 1, by simp at hfuel; omega⟩
    obtain ⟨node, p, hn, hleaf⟩ := hstored l List.mem_cons_self
    obtain ⟨hnext, hrest⟩ := (linked_cons l ls).mp hlink
    have htail := ih (by simpa using hfuel) (fun l hl => hstored l (List.mem_cons_of_mem _ hl)) hrest
    have hfirst : firstLabel (l :: ls) = some l.label := rfl
    rw [hfirst]
    simp only [chainLeaves, deref, hn, ok_bind, hleaf.next_eq, hnext, htail, List.map_cons]

theorem collectChildren_each {h : ℕ} {node : BPTreeNode} {seps : List UInt64}
    {cs : List (NodeTree h)} {parent : Option Ptr}
    (hb : IsBranchNode node seps (cs.map Tree.label) parent) (visit : Ptr → Checked (List Ptr))
    (hvisit : ∀ c ∈ cs, visit c.label = .ok (c.leaves.map Leaf.label)) :
    collectChildren visit node 0 cs.length =
      .ok ((cs.flatMap Tree.leaves).map Leaf.label) := by
  have main : ∀ pre post : List (NodeTree h), cs = pre ++ post →
      collectChildren visit node pre.length post.length =
        .ok ((post.flatMap Tree.leaves).map Leaf.label) := by
    intro pre post
    induction post generalizing pre with
    | nil => intro _; rfl
    | cons c post ih =>
      intro hcs
      have hread : read node.children pre.length = .ok (some c.label) :=
        read_holds hb.children (by simp [hcs])
      have hrest := ih (pre ++ [c]) (by simp [hcs])
      simp only [List.length_append, List.length_cons, List.length_nil, Nat.zero_add] at hrest
      simp only [List.length_cons, collectChildren, hread, ok_bind, hvisit c (by simp [hcs]),
        hrest, List.flatMap_cons, List.map_append]
  exact main [] cs rfl

theorem leavesBelow_leaves {nodes : List BPTreeNode} {h : ℕ} (t : NodeTree h)
    {parent : Option Ptr} {lo hi : Option UInt64} {fuel : ℕ} (hfuel : h < fuel)
    (ho : Owns nodes t parent) (hord : t.Ordered lo hi) :
    leavesBelow nodes fuel t.label = .ok (t.leaves.map Leaf.label) := by
  obtain ⟨fuel, rfl⟩ : ∃ f, fuel = f + 1 := ⟨fuel - 1, by omega⟩
  induction h generalizing parent lo hi fuel with
  | zero =>
    obtain ⟨node, hn, hl⟩ := ho
    simp only [leavesBelow, deref, hn, ok_bind, hl.isLeaf, if_true]
    rfl
  | succ h ih =>
    obtain ⟨⟨node, hn, hb⟩, hkids⟩ := ho
    obtain ⟨fuel, rfl⟩ : ∃ f, fuel = f + 1 := ⟨fuel - 1, by omega⟩
    have hcount : node.keyCount + 1 = t.toBranch.children.length := by
      rw [hb.count, chain_length hord]
    have hcollect := collectChildren_each hb (leavesBelow nodes (fuel + 1)) (by
      intro c hc
      obtain ⟨l, u, hco⟩ := chain_forall hord c hc
      exact ih c (hkids c hc) hco fuel (by omega))
    rw [leavesBelow]
    simp only [deref, hn, ok_bind, hb.isBranch, Bool.false_eq_true, if_false, hcount]
    exact hcollect

theorem leafPairs_entries {nodes : List BPTreeNode} {ls : List LeafNode}
    (hstored : Stored nodes ls) :
    leafPairs nodes (ls.map Leaf.label) = .ok (ls.flatMap Leaf.entries) := by
  induction ls with
  | nil => rfl
  | cons l ls ih =>
    obtain ⟨node, p, hn, hleaf⟩ := hstored l List.mem_cons_self
    have hkeys := take_holds hleaf.keys
    have hoffsets := take_holds hleaf.offsets
    rw [List.length_map, ← hleaf.count] at hkeys hoffsets
    have hzip : (l.entries.map Prod.fst).zip (l.entries.map Prod.snd) = l.entries := by
      rw [List.zip_map']
      simp
    simp only [List.map_cons, leafPairs, deref, hn, ok_bind,
      ih (fun l hl => hstored l (List.mem_cons_of_mem _ hl)), hkeys, hoffsets, hzip,
      List.flatMap_cons]

theorem lookup_iff_first (ops : List (UInt64 × Int)) (k : UInt64) (o : Int) :
    ops.lookup k = some o ↔
      ∃ i : ℕ, ops[i]? = some (k, o) ∧ k ∉ (ops.take i).map Prod.fst := by
  induction ops with
  | nil => simp
  | cons op ops ih =>
    obtain ⟨a, b⟩ := op
    rw [List.lookup_cons]
    by_cases hk : k = a
    · subst hk
      simp only [beq_self_eq_true, Option.some.injEq]
      constructor
      · rintro rfl
        exact ⟨0, rfl, by simp⟩
      · rintro ⟨i, hi, hnot⟩
        cases i with
        | zero => simpa using hi
        | succ i => simp at hnot
    · have hne : (k == a) = false := beq_false_of_ne hk
      simp only [hne]
      rw [ih]
      constructor
      · rintro ⟨i, hi, hnot⟩
        exact ⟨i + 1, by simpa using hi, by simpa [hk] using hnot⟩
      · rintro ⟨i, hi, hnot⟩
        cases i with
        | zero => simp [Ne.symm hk] at hi
        | succ i => exact ⟨i, by simpa using hi, by simpa [hk] using hnot⟩

theorem entry_iff_inserted {ops es : List (UInt64 × Int)} {tree : BPTree}
    {statuses : List IndexStatus} (h : AfterInserts ops es tree statuses) (k : UInt64) (o : Int) :
    (k, o) ∈ es ↔ ∃ i : ℕ, ops[i]? = some (k, o) ∧ statuses[i]? = some (.ok ()) := by
  rw [mem_iff_lookup ((denotes_sorted h.denotes).imp ne_of_lt), h.lookups, lookup_iff_first]
  apply exists_congr
  intro i
  apply and_congr_right
  intro hi
  rw [h.outcome i k o hi, Option.some.injEq, statusAfter_ok]

/-- A tree built by any run of inserts passes `bptree_validate`; its leaf chain visits the
leaves below the root once each, from left to right, and lists the inserted pairs in order. -/
theorem inserts_validate_and_chain (ops : List (UInt64 × Int)) :
    ∃ tree statuses, insertAll bptreeInit ops = .ok (tree, statuses) ∧
      bptreeValidate tree = .ok (.ok ()) ∧
      ∃ start chain pairs,
        findLeftmostLeaf tree.nodes (tree.nodes.length + 1) tree.root = .ok start ∧
        chainLeaves tree.nodes (tree.nodes.length + 1) start = .ok chain ∧
        (match tree.root with
          | none => chain = []
          | some root => leavesBelow tree.nodes (tree.nodes.length + 1) root = .ok chain) ∧
        chain.Nodup ∧
        leafPairs tree.nodes chain = .ok pairs ∧
        (pairs.map Prod.fst).Pairwise (· < ·) ∧
        ∀ k o, (k, o) ∈ pairs ↔
          ∃ i : ℕ, ops[i]? = some (k, o) ∧ statuses[i]? = some (.ok ()) := by
  obtain ⟨es, tree, statuses, h⟩ := afterInserts_run ops
  refine ⟨tree, statuses, h.run, bptreeValidate_denotes h.denotes, ?_⟩
  have hmem := entry_iff_inserted h
  have hsorted := denotes_sorted h.denotes
  have hden := h.denotes
  cases hden with
  | empty hroot _ =>
    rw [hroot]
    exact ⟨none, [], [], rfl, by simp [chainLeaves], rfl, List.nodup_nil, rfl, hsorted, hmem⟩
  | node t hl =>
    rw [hl.root]
    exact ⟨firstLabel t.leaves, t.leaves.map Leaf.label, t.entries,
      findLeftmostLeaf_first t.tree (layout_height hl) hl.owned hl.ordered,
      chainLeaves_linked (layout_leaves hl) (owns_leaves hl.owned) hl.linked,
      leavesBelow_leaves t.tree (layout_height hl) hl.owned hl.ordered,
      (leaf_labels_sublist t.tree).nodup hl.distinct,
      leafPairs_entries (owns_leaves hl.owned), hsorted, hmem⟩

end BPTreeValidation
