import ThreadedDb.BPTreeHeap
import ThreadedDb.LabelledBPlusTree

/-!
# Which labelled tree a heap of nodes holds

`Owns nodes t parent` says that the nodes at the labels of `t` are laid out as `t` prescribes,
below the pointer `parent`. It is a property of those nodes only, which gives the frame rules.
The descent of `find_leaf_node` is a walk into a context.
-/
namespace BPTreeOwnership

open CheckedArray
open SeparatorChain
open LabelledBPlusTree
open BPTreeHeap

abbrev NodeTree (h : ℕ) := Tree UInt64 Int Ptr h
abbrev NodeContext (h : ℕ) := Context UInt64 Int Ptr h
abbrev LeafNode := Leaf UInt64 Int Ptr
abbrev RootTree := Root UInt64 Int Ptr

structure IsLeafNode (node : BPTreeNode) (l : LeafNode) (parent : Option Ptr) : Prop where
  isLeaf : node.isLeaf = true
  parent_eq : node.parent = parent
  next_eq : node.next = l.next
  count : node.keyCount = l.entries.length
  keys : Holds node.keys (l.entries.map Prod.fst)
  offsets : Holds node.rowOffsets (l.entries.map Prod.snd)

structure IsBranchNode (node : BPTreeNode) (seps : List UInt64) (kids : List Ptr)
    (parent : Option Ptr) : Prop where
  isBranch : node.isLeaf = false
  parent_eq : node.parent = parent
  count : node.keyCount = seps.length
  keys : Holds node.keys seps
  children : Holds node.children (kids.map some)

def Owns (nodes : List BPTreeNode) : {h : ℕ} → NodeTree h → Option Ptr → Prop
  | 0, t, parent => ∃ node, nodes[t.label]? = some node ∧ IsLeafNode node t.toLeaf parent
  | _ + 1, t, parent =>
    (∃ node, nodes[t.label]? = some node ∧
      IsBranchNode node t.toBranch.seps (t.toBranch.children.map Tree.label) parent) ∧
    ∀ c ∈ t.toBranch.children, Owns nodes c (some t.label)

theorem owns_leaf (nodes : List BPTreeNode) (l : LeafNode) (parent : Option Ptr) :
    Owns nodes (Tree.leaf l) parent ↔
      ∃ node, nodes[l.label]? = some node ∧ IsLeafNode node l parent := Iff.rfl

theorem owns_branch (nodes : List BPTreeNode) {h : ℕ} (p : Ptr) (ks : List UInt64)
    (cs : List (NodeTree h)) (parent : Option Ptr) :
    Owns nodes (Tree.branch p ks cs) parent ↔
      (∃ node, nodes[p]? = some node ∧ IsBranchNode node ks (cs.map Tree.label) parent) ∧
      ∀ c ∈ cs, Owns nodes c (some p) := Iff.rfl

def parentOf : {h : ℕ} → NodeContext h → Option Ptr
  | _, .root => none
  | _, .inside label _ _ _ _ _ _ _ => some label

def OwnsContext (nodes : List BPTreeNode) : {h : ℕ} → NodeContext h → Ptr → Prop
  | _, .root, _ => True
  | _, .inside label ls lk rs rk _ _ outer, hole =>
    (∃ node, nodes[label]? = some node ∧ IsBranchNode node (ls ++ rs)
      (lk.map Tree.label ++ hole :: rk.map Tree.label) (parentOf outer)) ∧
    (∀ c ∈ lk ++ rk, Owns nodes c (some label)) ∧ OwnsContext nodes outer label

theorem owns_plug (nodes : List BPTreeNode) {h : ℕ} (c : NodeContext h) (t : NodeTree h) :
    Owns nodes (c.plug t).tree none ↔
      OwnsContext nodes c t.label ∧ Owns nodes t (parentOf c) := by
  induction c with
  | root => simp [Context.plug, OwnsContext, parentOf]
  | inside label ls lk rs rk hl hr outer ih =>
    rw [Context.plug, ih, owns_branch]
    simp only [OwnsContext, parentOf, Tree.label_branch, List.map_append, List.map_cons,
      List.mem_append, List.mem_cons]
    constructor
    · rintro ⟨hout, hnode, hkids⟩
      exact ⟨⟨hnode, fun c hc => hkids c (hc.elim Or.inl (fun h => Or.inr (Or.inr h))), hout⟩,
        hkids t (Or.inr (Or.inl rfl))⟩
    · rintro ⟨⟨hnode, hkids, hout⟩, ht⟩
      refine ⟨hout, hnode, ?_⟩
      rintro c (hc | rfl | hc)
      · exact hkids c (Or.inl hc)
      · exact ht
      · exact hkids c (Or.inr hc)

theorem label_mem {h : ℕ} (t : NodeTree h) : t.label ∈ t.labels := by
  cases h with
  | zero => exact List.mem_singleton.mpr rfl
  | succ h => exact List.mem_cons_self

theorem owns_congr {nodes nodes' : List BPTreeNode} {h : ℕ} {t : NodeTree h}
    {parent : Option Ptr} (hsame : ∀ p ∈ t.labels, nodes'[p]? = nodes[p]?)
    (ho : Owns nodes t parent) : Owns nodes' t parent := by
  induction h generalizing parent with
  | zero =>
    obtain ⟨node, hn, hl⟩ := ho
    exact ⟨node, (hsame _ (label_mem t)).trans hn, hl⟩
  | succ h ih =>
    obtain ⟨⟨node, hn, hb⟩, hkids⟩ := ho
    refine ⟨⟨node, (hsame _ (label_mem t)).trans hn, hb⟩, fun c hc => ?_⟩
    exact ih (fun p hp => hsame p (List.mem_cons_of_mem _ (List.mem_flatMap.mpr ⟨c, hc, hp⟩)))
      (hkids c hc)

theorem ownsContext_congr {nodes nodes' : List BPTreeNode} {h : ℕ} {c : NodeContext h}
    {hole : Ptr} (hsame : ∀ p ∈ c.labels, nodes'[p]? = nodes[p]?)
    (ho : OwnsContext nodes c hole) : OwnsContext nodes' c hole := by
  induction c generalizing hole with
  | root => trivial
  | inside label ls lk rs rk hl hr outer ih =>
    obtain ⟨⟨node, hn, hb⟩, hkids, hout⟩ := ho
    simp only [Context.labels, List.mem_cons, List.mem_append, List.mem_flatMap] at hsame
    refine ⟨⟨node, (hsame label (Or.inl rfl)).trans hn, hb⟩, fun c hc => ?_, ?_⟩
    · refine owns_congr (fun p hp => hsame p (Or.inr (Or.inl ?_))) (hkids c hc)
      rcases List.mem_append.mp hc with hc | hc
      · exact Or.inl ⟨c, hc, hp⟩
      · exact Or.inr ⟨c, hc, hp⟩
    · exact ih (fun p hp => hsame p (Or.inr (Or.inr hp))) hout

/-- A subtree moves below another parent when only the parent field of its top node changes. -/
theorem owns_moved {nodes nodes' : List BPTreeNode} {h : ℕ} {t : NodeTree h}
    {parent parent' : Option Ptr} (hnodup : t.labels.Nodup) (ho : Owns nodes t parent)
    (htop : nodes'[t.label]? = nodes[t.label]?.map (fun n => { n with parent := parent' }))
    (hsame : ∀ p ∈ t.labels, p ≠ t.label → nodes'[p]? = nodes[p]?) : Owns nodes' t parent' := by
  cases h with
  | zero =>
    obtain ⟨node, hn, hl⟩ := ho
    refine ⟨{ node with parent := parent' }, by rw [htop, hn]; rfl, ?_⟩
    exact ⟨hl.isLeaf, rfl, hl.next_eq, hl.count, hl.keys, hl.offsets⟩
  | succ h =>
    obtain ⟨⟨node, hn, hb⟩, hkids⟩ := ho
    have hnotin := (List.nodup_cons.mp hnodup).1
    refine ⟨⟨{ node with parent := parent' }, by rw [htop, hn]; rfl, ?_⟩, fun c hc => ?_⟩
    · exact ⟨hb.isBranch, rfl, hb.count, hb.keys, hb.children⟩
    · refine owns_congr (fun p hp => ?_) (hkids c hc)
      have hp' : p ∈ t.toBranch.children.flatMap Tree.labels := List.mem_flatMap.mpr ⟨c, hc, hp⟩
      refine hsame p (List.mem_cons_of_mem _ hp') ?_
      rintro rfl
      exact hnotin hp'

theorem owns_lt {nodes : List BPTreeNode} {h : ℕ} {t : NodeTree h} {parent : Option Ptr}
    (ho : Owns nodes t parent) : ∀ p ∈ t.labels, p < nodes.length := by
  induction h generalizing parent with
  | zero =>
    obtain ⟨node, hn, -⟩ := ho
    intro p hp
    rw [List.mem_singleton.mp hp]
    exact (List.getElem?_eq_some_iff.mp hn).1
  | succ h ih =>
    obtain ⟨⟨node, hn, -⟩, hkids⟩ := ho
    intro p hp
    rcases List.mem_cons.mp hp with rfl | hp
    · exact (List.getElem?_eq_some_iff.mp hn).1
    · obtain ⟨c, hc, hp⟩ := List.mem_flatMap.mp hp
      exact ih (hkids c hc) p hp

theorem ownsContext_lt {nodes : List BPTreeNode} {h : ℕ} {c : NodeContext h} {hole : Ptr}
    (ho : OwnsContext nodes c hole) : ∀ p ∈ c.labels, p < nodes.length := by
  induction c generalizing hole with
  | root => intro p hp; cases hp
  | inside label ls lk rs rk hl hr outer ih =>
    obtain ⟨⟨node, hn, -⟩, hkids, hout⟩ := ho
    intro p hp
    simp only [Context.labels, List.mem_cons, List.mem_append, List.mem_flatMap] at hp
    rcases hp with rfl | (⟨c, hc, hp⟩ | ⟨c, hc, hp⟩) | hp
    · exact (List.getElem?_eq_some_iff.mp hn).1
    · exact owns_lt (hkids c (List.mem_append_left _ hc)) p hp
    · exact owns_lt (hkids c (List.mem_append_right _ hc)) p hp
    · exact ih hout p hp

theorem nodup_length_le {l : List Ptr} {n : ℕ} (hnodup : l.Nodup) (hlt : ∀ p ∈ l, p < n) :
    l.length ≤ n := by
  have hsub : l ⊆ List.range n := fun p hp => List.mem_range.mpr (hlt p hp)
  simpa using (List.subperm_of_subset hnodup hsub).length_le

theorem height_lt_labels {h : ℕ} (t : NodeTree h) {lo hi : Option UInt64}
    (ho : t.Ordered lo hi) : h < t.labels.length := by
  induction h generalizing lo hi with
  | zero => exact Nat.one_pos
  | succ h ih =>
    have hlen := chain_length ho
    cases hc : t.toBranch.children with
    | nil => simp [hc] at hlen
    | cons c cs =>
      obtain ⟨l, u, hco⟩ := chain_forall ho c (by simp [hc])
      have := ih c hco
      simp only [Tree.labels, hc, List.flatMap_cons, List.length_cons, List.length_append]
      omega

theorem findLeafNode_descends {nodes : List BPTreeNode} (key : UInt64) {h : ℕ}
    (t : NodeTree h) (c : NodeContext h) {parent : Option Ptr} {fuel : ℕ} (hfuel : h < fuel)
    (ho : Owns nodes t parent) (hord : t.Ordered c.lower c.upper)
    (hlo : AtLeast c.lower key) (hhi : Below key c.upper) :
    ∃ (leaf : LeafNode) (c' : NodeContext 0), c'.plug (Tree.leaf leaf) = c.plug t ∧
      findLeafNode nodes key fuel (some t.label) = .ok (some leaf.label) ∧
      AtLeast c'.lower key ∧ Below key c'.upper := by
  obtain ⟨fuel, rfl⟩ : ∃ f, fuel = f + 1 := ⟨fuel - 1, by omega⟩
  induction h generalizing parent fuel with
  | zero =>
    obtain ⟨node, hn, hl⟩ := ho
    refine ⟨t.toLeaf, c, rfl, ?_, hlo, hhi⟩
    simp only [findLeafNode, deref, hn, ok_bind, hl.isLeaf, if_true]
    rfl
  | succ h ih =>
    obtain ⟨⟨node, hn, hb⟩, hkids⟩ := ho
    have hlen := chain_length hord
    have hsplit := List.takeWhile_append_dropWhile (p := fun k => decide (k ≤ key))
      (l := t.toBranch.seps)
    have hle : (t.toBranch.seps.takeWhile (· ≤ key)).length ≤ t.toBranch.seps.length :=
      (List.takeWhile_prefix _).length_le
    -- the child between the last separator not above the key and the first above it
    obtain ⟨child, rk, hdrop⟩ : ∃ child rk,
        t.toBranch.children.drop (t.toBranch.seps.takeWhile (· ≤ key)).length = child :: rk := by
      apply List.exists_cons_of_ne_nil
      intro hd
      have := congrArg List.length hd
      simp only [List.length_drop, List.length_nil] at this
      omega
    have hkidsplit := List.take_append_drop
      (t.toBranch.seps.takeWhile (· ≤ key)).length t.toBranch.children
    rw [hdrop] at hkidsplit
    have hl : (t.toBranch.seps.takeWhile (· ≤ key)).length = (t.toBranch.children.take
        (t.toBranch.seps.takeWhile (· ≤ key)).length).length := by
      rw [List.length_take]; omega
    have hr : (t.toBranch.seps.dropWhile (· ≤ key)).length = rk.length := by
      have h1 := congrArg List.length hsplit
      have h2 := congrArg List.length hkidsplit
      simp only [List.length_append, List.length_cons] at h1 h2
      omega
    let inner : NodeContext h := .inside t.label (t.toBranch.seps.takeWhile (· ≤ key))
      (t.toBranch.children.take (t.toBranch.seps.takeWhile (· ≤ key)).length)
      (t.toBranch.seps.dropWhile (· ≤ key)) rk hl hr c
    have hplug : inner.plug child = c.plug t := by
      simp only [inner, Context.plug, hsplit, hkidsplit]
      rfl
    have hmem : child ∈ t.toBranch.children := by rw [← hkidsplit]; simp
    have hord' : child.Ordered inner.lower inner.upper := by
      apply chain_focus hl
      rw [hsplit, hkidsplit]
      exact hord
    obtain ⟨leaf, c', hp, hfind, hlo', hhi'⟩ := ih child inner (hkids child hmem) hord'
      (route_lower hlo) (route_upper hhi) (fuel - 1) (by omega)
    refine ⟨leaf, c', hp.trans hplug, ?_, hlo', hhi'⟩
    obtain ⟨fuel, rfl⟩ : ∃ f, fuel = f + 1 := ⟨fuel - 1, by omega⟩
    have hadv := advance_holds (fun k => decide (k ≤ key)) hb.keys
    have hread : read node.children (t.toBranch.seps.takeWhile (· ≤ key)).length =
        .ok (some child.label) := by
      apply read_holds hb.children
      conv_lhs => rw [← hkidsplit, List.map_append, List.map_append]
      rw [List.getElem?_append_right (by simp), List.length_map, List.length_map,
        ← hl, Nat.sub_self]
      rfl
    rw [findLeafNode]
    simp only [deref, hn, ok_bind, hb.isBranch, hb.count, hadv, hread]
    exact hfind

theorem searchLeaf_lookup {node : BPTreeNode} {l : LeafNode} {parent : Option Ptr}
    (hl : IsLeafNode node l parent) (key : UInt64) :
    searchLeaf node key 0 node.keyCount = .ok (l.entries.lookup key) := by
  have main : ∀ pre post : List (UInt64 × Int), l.entries = pre ++ post →
      searchLeaf node key pre.length post.length = .ok (post.lookup key) := by
    intro pre post
    induction post generalizing pre with
    | nil => intro _; rfl
    | cons e post ih =>
      obtain ⟨k, offset⟩ := e
      intro he
      have hk : read node.keys pre.length = .ok k := read_holds hl.keys (by simp [he])
      have ho : read node.rowOffsets pre.length = .ok offset :=
        read_holds hl.offsets (by simp [he])
      have hrest := ih (pre ++ [(k, offset)]) (by simp [he])
      simp only [List.length_append, List.length_cons, List.length_nil, Nat.zero_add] at hrest
      simp only [List.length_cons, searchLeaf, hk, ho, ok_bind, hrest, List.lookup_cons]
      by_cases heq : k = key
      · subst heq
        simp
      · have h₁ : (k == key) = false := beq_false_of_ne heq
        have h₂ : (key == k) = false := beq_false_of_ne (Ne.symm heq)
        simp [h₁, h₂]
  rw [hl.count]
  exact main [] l.entries rfl

end BPTreeOwnership
