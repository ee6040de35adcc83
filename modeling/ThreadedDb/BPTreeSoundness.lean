import ThreadedDb.BPTreeValidation

/-!
# What a successful validation says about search

`bptree_validate` against heaps of nodes of any shape. Where it succeeds, every node below the
root has its keys in order and keeps the keys below it in the range that was handed down, so the
descent of a search meets the only leaf that can hold its key.
-/
namespace BPTreeSoundness

open CheckedArray
open SeparatorChain
open LabelledBPlusTree
open BPTreeHeap
open BPTreeOwnership
open BPTreeMap
open BPTreeValidation

inductive Reaches (nodes : List BPTreeNode) : ℕ → Ptr → Ptr → Prop
  | here (p : Ptr) : Reaches nodes 0 p p
  | child {d : ℕ} {p c q : Ptr} {node : BPTreeNode} (i : ℕ) : nodes[p]? = some node →
      node.isLeaf = false → i ≤ node.keyCount → node.children[i]? = some (some c) →
      Reaches nodes d c q → Reaches nodes (d + 1) p q

def LeafStores (nodes : List BPTreeNode) (q : Ptr) (key : UInt64) (offset : Int) : Prop :=
  ∃ node, nodes[q]? = some node ∧ node.isLeaf = true ∧
    ∃ i < node.keyCount, node.keys[i]? = some key ∧ node.rowOffsets[i]? = some offset

def usedKeys (node : BPTreeNode) : List UInt64 := node.keys.toList.take node.keyCount

def usedEntries (node : BPTreeNode) : List (UInt64 × Int) :=
  (node.keys.toList.zip node.rowOffsets.toList).take node.keyCount

theorem getElem?_usedKeys {node : BPTreeNode} {i : ℕ} {k : UInt64} :
    (usedKeys node)[i]? = some k ↔ i < node.keyCount ∧ node.keys[i]? = some k := by
  rw [usedKeys, List.getElem?_take]
  split
  · next hi => simp [hi]
  · next hi => simp [hi]

theorem usedKeys_holds (node : BPTreeNode) : Holds node.keys (usedKeys node) :=
  fun _ _ hk => (getElem?_usedKeys.mp hk).2

theorem usedKeys_length {node : BPTreeNode} (hcount : node.keyCount ≤ bptreeMaxKeys) :
    (usedKeys node).length = node.keyCount := by
  simpa [usedKeys] using hcount

theorem getElem?_usedEntries {node : BPTreeNode} {i : ℕ} {k : UInt64} {o : Int} :
    (usedEntries node)[i]? = some (k, o) ↔
      i < node.keyCount ∧ node.keys[i]? = some k ∧ node.rowOffsets[i]? = some o := by
  rw [usedEntries, List.getElem?_take]
  split
  · next hi => simp [hi, List.getElem?_zip_eq_some]
  · next hi => simp [hi]

theorem usedEntries_keys (node : BPTreeNode) : (usedEntries node).map Prod.fst = usedKeys node := by
  rw [usedEntries, usedKeys, List.map_take, List.map_fst_zip (by simp)]

theorem usedEntries_leaf {node : BPTreeNode} (hleaf : node.isLeaf = true)
    (hcount : node.keyCount ≤ bptreeMaxKeys) (q : Ptr) :
    IsLeafNode node ⟨q, usedEntries node, node.next⟩ node.parent := by
  refine ⟨hleaf, rfl, rfl, ?_, ?_, ?_⟩
  · rw [← usedKeys_length hcount, ← usedEntries_keys, List.length_map]
  · rw [usedEntries_keys]
    exact usedKeys_holds node
  · intro i o ho
    rw [List.getElem?_map, Option.map_eq_some_iff] at ho
    obtain ⟨e, he, rfl⟩ := ho
    exact (getElem?_usedEntries.mp he).2.2

theorem leafStores_iff {nodes : List BPTreeNode} {q : Ptr} {node : BPTreeNode}
    (hnode : nodes[q]? = some node) (hleaf : node.isLeaf = true) (key : UInt64) (offset : Int) :
    LeafStores nodes q key offset ↔ (key, offset) ∈ usedEntries node := by
  constructor
  · rintro ⟨node', hnode', -, i, hi, hk, ho⟩
    obtain rfl : node' = node := Option.some.inj (hnode'.symm.trans hnode)
    exact List.mem_iff_getElem?.mpr ⟨i, getElem?_usedEntries.mpr ⟨hi, hk, ho⟩⟩
  · intro hmem
    obtain ⟨i, hi⟩ := List.mem_iff_getElem?.mp hmem
    exact ⟨node, hnode, hleaf, i, getElem?_usedEntries.mp hi⟩

theorem sorted_of_keysIncrease {node : BPTreeNode} {ks : List UInt64} (h : Holds node.keys ks)
    (hok : keysIncrease node 1 (ks.length - 1) = .ok true) : ks.Pairwise (· < ·) := by
  have main : ∀ (pre : List UInt64) (a : UInt64) (post : List UInt64), ks = pre ++ a :: post →
      keysIncrease node (pre.length + 1) post.length = .ok true → (a :: post).IsChain (· < ·) := by
    intro pre a post
    induction post generalizing pre a with
    | nil => exact fun _ _ => List.isChain_singleton a
    | cons b post ih =>
      intro hks hrun
      have ha : read node.keys pre.length = .ok a := read_holds h (by simp [hks])
      have hb : read node.keys (pre.length + 1) = .ok b := read_holds h (by simp [hks])
      simp only [List.length_cons, keysIncrease, Nat.add_sub_cancel, ha, hb, ok_bind] at hrun
      split at hrun
      · cases hrun
      · next hlt =>
        have hrest := ih (pre ++ [a]) b (by simp [hks]) (by simpa using hrun)
        exact List.isChain_cons_cons.mpr ⟨not_le.mp hlt, hrest⟩
  cases ks with
  | nil => exact List.Pairwise.nil
  | cons a post => exact (main [] a post rfl hok).pairwise

theorem within_of_keysInRange {node : BPTreeNode} {ks : List UInt64} {lo hi : Option UInt64}
    (h : Holds node.keys ks) (hok : keysInRange node lo hi 0 ks.length = .ok true) :
    ∀ k ∈ ks, AtLeast lo k ∧ Below k hi := by
  have main : ∀ pre post : List UInt64, ks = pre ++ post →
      keysInRange node lo hi pre.length post.length = .ok true →
      ∀ k ∈ post, AtLeast lo k ∧ Below k hi := by
    intro pre post
    induction post generalizing pre with
    | nil => simp
    | cons a post ih =>
      intro hks hrun k hk
      have ha : read node.keys pre.length = .ok a := read_holds h (by simp [hks])
      simp only [List.length_cons, keysInRange, ha, ok_bind] at hrun
      split at hrun
      · cases hrun
      · next hinside =>
        rcases List.mem_cons.mp hk with rfl | hk
        · cases lo <;> cases hi <;> simp_all [outsideRange]
        · exact ih (pre ++ [a]) (by simp [hks]) (by simpa using hrun) k hk
  exact main [] ks rfl hok

theorem read_ok {α : Type} {n : ℕ} {a : Vector α n} {i : ℕ} {x : α}
    (h : CheckedArray.read a i = .ok x) : a[i]? = some x := by
  unfold CheckedArray.read at h
  split at h
  · next hx =>
    cases h
    exact hx
  · cases h

theorem deref_ok {nodes : List BPTreeNode} {p : Ptr} {node : BPTreeNode}
    (h : deref nodes p = .ok node) : nodes[p]? = some node := by
  unfold deref at h
  split at h
  · next hx =>
    cases h
    exact hx
  · cases h

theorem apart_of_check {lo hi : Option UInt64}
    (h : ¬ (lo.any (fun l => hi.any (· ≤ l))) = true) : Apart lo hi := by
  cases lo <;> cases hi <;> simp_all [Apart]

/-- Every child in use was visited, with a range of its own that is not empty. -/
theorem validateChildren_each
    {visit : Ptr → Option UInt64 → Option UInt64 → ValidationState → Checked Verdict}
    {node : BPTreeNode} {lower upper : Option UInt64} {rounds i : ℕ}
    {state state' : ValidationState}
    (h : validateChildren visit node lower upper i rounds state = .ok (.ok state')) (j : ℕ)
    (hj : i ≤ j ∧ j < i + rounds) :
    ∃ c lo hi st st', node.children[j]? = some (some c) ∧ childLower node lower j = .ok lo ∧
      childUpper node upper j = .ok hi ∧ Apart lo hi ∧ visit c lo hi st = .ok (.ok st') := by
  induction rounds generalizing i state with
  | zero => omega
  | succ rounds ih =>
    rw [validateChildren] at h
    obtain ⟨child, hchild, h⟩ := bind_eq_ok.mp h
    cases child with
    | none => cases h
    | some c =>
      obtain ⟨lo, hlo, h⟩ := bind_eq_ok.mp h
      obtain ⟨hi, hhi, h⟩ := bind_eq_ok.mp h
      split at h
      · cases h
      next hap =>
      obtain ⟨verdict, hvisit, h⟩ := bind_eq_ok.mp h
      cases verdict with
      | error e => cases h
      | ok st' =>
        by_cases hij : i = j
        · subst hij
          exact ⟨c, lo, hi, state, st', read_ok hchild, hlo, hhi, apart_of_check hap, hvisit⟩
        · exact ih h (by omega)

theorem validateNode_found {nodes : List BPTreeNode} {fuel : ℕ} {p : Ptr} {parent : Option Ptr}
    {lower upper : Option UInt64} {depth : ℕ} {state state' : ValidationState}
    (h : validateNode nodes (fuel + 1) (some p) parent lower upper depth state =
      .ok (.ok state')) :
    ∃ node, nodes[p]? = some node ∧ node.keyCount ≤ bptreeMaxKeys ∧
      (usedKeys node).Pairwise (· < ·) ∧
      (node.isLeaf = true → ∀ k ∈ usedKeys node, AtLeast lower k ∧ Below k upper) ∧
      (node.isLeaf = false → ∀ pre post, usedKeys node = pre ++ post →
        ∃ c st st', node.children[pre.length]? = some (some c) ∧
          Apart (holeLower pre lower) (holeUpper post upper) ∧
          validateNode nodes fuel (some c) (some p) (holeLower pre lower) (holeUpper post upper)
            (depth + 1) st = .ok (.ok st')) := by
  rw [validateNode] at h
  obtain ⟨node, hnode, h⟩ := bind_eq_ok.mp h
  split at h
  · cases h
  split at h
  · cases h
  next hcount =>
  have hcount' := not_lt.mp hcount
  have hholds := usedKeys_holds node
  have hlen := usedKeys_length hcount'
  obtain ⟨increasing, hinc, h⟩ := bind_eq_ok.mp h
  cases increasing with
  | false => cases h
  | true =>
    rw [← hlen] at hinc
    have hsorted := sorted_of_keysIncrease hholds hinc
    refine ⟨node, deref_ok hnode, hcount', hsorted, fun hleaf => ?_, fun hbranch => ?_⟩
    · simp only [hleaf, Bool.not_true, Bool.false_eq_true, if_false, if_true] at h
      obtain ⟨inRange, hrange, h⟩ := bind_eq_ok.mp h
      cases inRange with
      | false => cases h
      | true =>
        rw [← hlen] at hrange
        exact within_of_keysInRange hholds hrange
    · simp only [hbranch, Bool.not_true, Bool.false_eq_true, if_false] at h
      intro pre post hks
      have hle : pre.length ≤ node.keyCount := by
        rw [← hlen, hks, List.length_append]
        omega
      obtain ⟨c, lo, hi, st, st', hc, hlo, hhi, hap, hvisit⟩ :=
        validateChildren_each h pre.length ⟨Nat.zero_le _, by omega⟩
      rw [hks] at hholds hlen
      rw [childLower_hole lower hholds] at hlo
      rw [childUpper_hole upper hholds hlen.symm] at hhi
      cases hlo
      cases hhi
      exact ⟨c, st, st', hc, hap, hvisit⟩

section Node

variable {nodes : List BPTreeNode} {fuel : ℕ} {p : Ptr} {parent : Option Ptr}
variable {lower upper : Option UInt64} {depth d : ℕ} {state state' : ValidationState}

/-- The keys of an internal node lie inside its range, though only the children are checked. -/
theorem separators_within {ks : List UInt64} (hsorted : ks.Pairwise (· < ·))
    (hapart : ∀ pre post, ks = pre ++ post → Apart (holeLower pre lower) (holeUpper post upper)) :
    ∀ k ∈ ks, Above lower k ∧ Below k upper := by
  apply seps_within hsorted
  · intro k hk l hl
    obtain ⟨post, rfl⟩ := List.head?_eq_some_iff.mp hk
    exact hapart [] (k :: post) rfl l hl k rfl
  · intro k hk u hu
    obtain ⟨pre, rfl⟩ := List.getLast?_eq_some_iff.mp hk
    refine hapart (pre ++ [k]) [] (by simp) k ?_ u hu
    rw [holeLower_concat]
    rfl

theorem reaches_leaf {q : Ptr} {node : BPTreeNode} (hnode : nodes[p]? = some node)
    (hleaf : node.isLeaf = true) (hreach : Reaches nodes d p q) : q = p := by
  cases hreach with
  | here => rfl
  | child i hnode' hbranch =>
    rw [hnode, Option.some.injEq] at hnode'
    rw [← hnode', hleaf] at hbranch
    cases hbranch

/-- The way from an internal node to a leaf goes through a child between two separators. -/
theorem reaches_child {q : Ptr} {node : BPTreeNode} {key : UInt64} {offset : Int}
    (hnode : nodes[p]? = some node) (hbranch : node.isLeaf = false)
    (hcount : node.keyCount ≤ bptreeMaxKeys) (hreach : Reaches nodes d p q)
    (hstores : LeafStores nodes q key offset) :
    ∃ c pre post, usedKeys node = pre ++ post ∧
      node.children[pre.length]? = some (some c) ∧ ∃ d', Reaches nodes d' c q := by
  cases hreach with
  | here =>
    obtain ⟨node', hnode', hleaf, -⟩ := hstores
    obtain rfl : node' = node := Option.some.inj (hnode'.symm.trans hnode)
    rw [hleaf] at hbranch
    cases hbranch
  | @child d' _ c _ node' i hnode' _ hi hc hrest =>
    obtain rfl : node' = node := Option.some.inj (hnode'.symm.trans hnode)
    have hlen := usedKeys_length hcount
    refine ⟨c, (usedKeys node').take i, (usedKeys node').drop i,
      (List.take_append_drop _ _).symm, ?_, d', hrest⟩
    rwa [List.length_take, hlen, Nat.min_eq_left hi]

theorem stored_within (h : validateNode nodes fuel (some p) parent lower upper depth state =
    .ok (.ok state')) {q : Ptr} {key : UInt64} {offset : Int} (hreach : Reaches nodes d p q)
    (hstores : LeafStores nodes q key offset) : AtLeast lower key ∧ Below key upper := by
  induction fuel generalizing p d parent lower upper depth state state' with
  | zero => cases h
  | succ fuel ih =>
    obtain ⟨node, hnode, hcount, hsorted, hleaf, hbranch⟩ := validateNode_found h
    cases hkind : node.isLeaf with
    | true =>
      obtain rfl := reaches_leaf hnode hkind hreach
      have hmem := (leafStores_iff hnode hkind key offset).mp hstores
      exact hleaf hkind key (usedEntries_keys node ▸ List.mem_map_of_mem hmem)
    | false =>
      obtain ⟨c, pre, post, hks, hc, d', hrest⟩ := reaches_child hnode hkind hcount hreach hstores
      obtain ⟨c', st, st', hc', -, hvisit⟩ := hbranch hkind pre post hks
      obtain rfl : c' = c := by simpa using hc'.symm.trans hc
      obtain ⟨hlo, hhi⟩ := ih hvisit hrest
      have hapart : ∀ pre post, usedKeys node = pre ++ post →
          Apart (holeLower pre lower) (holeUpper post upper) := by
        intro pre post hks
        obtain ⟨-, -, -, -, hap, -⟩ := hbranch hkind pre post hks
        exact hap
      exact hole_inside (hks ▸ separators_within hsorted hapart) hlo hhi

/-- The descent for a key in range ends in a leaf, and no other leaf stores the key. -/
theorem search_descends (h : validateNode nodes fuel (some p) parent lower upper depth state =
    .ok (.ok state')) {key : UInt64} (hlo : AtLeast lower key) (hhi : Below key upper) :
    ∃ q d node, findLeafNode nodes key fuel (some p) = .ok (some q) ∧ Reaches nodes d p q ∧
      nodes[q]? = some node ∧ node.isLeaf = true ∧ node.keyCount ≤ bptreeMaxKeys ∧
      (usedKeys node).Pairwise (· < ·) ∧
      ∀ q' d' offset, Reaches nodes d' p q' → LeafStores nodes q' key offset → q' = q := by
  induction fuel generalizing p parent lower upper depth state state' with
  | zero => cases h
  | succ fuel ih =>
    obtain ⟨node, hnode, hcount, hsorted, hleaf, hbranch⟩ := validateNode_found h
    cases hkind : node.isLeaf with
    | true =>
      refine ⟨p, 0, node, ?_, .here p, hnode, hkind, hcount, hsorted, ?_⟩
      · simp only [findLeafNode, deref, hnode, ok_bind, hkind, if_true]
      · intro q' d' offset hreach _
        exact reaches_leaf hnode hkind hreach
    | false =>
      have hks : usedKeys node = (usedKeys node).takeWhile (· ≤ key) ++
          (usedKeys node).dropWhile (· ≤ key) := List.takeWhile_append_dropWhile.symm
      obtain ⟨c, st, st', hc, -, hvisit⟩ := hbranch hkind _ _ hks
      obtain ⟨q, below, leaf, hfind, hreach, hq, hql, hqc, hqs, honly⟩ :=
        ih hvisit (route_lower hlo) (route_upper hhi)
      have hadv : advance node.keys (· ≤ key) node.keyCount node.keyCount 0 =
          .ok ((usedKeys node).takeWhile (· ≤ key)).length := by
        have := advance_holds (· ≤ key) (usedKeys_holds node)
        rwa [usedKeys_length hcount] at this
      have hread : CheckedArray.read node.children
          ((usedKeys node).takeWhile (· ≤ key)).length = .ok (some c) := by
        simp only [CheckedArray.read, hc]
      refine ⟨q, below + 1, leaf, ?_, ?_, hq, hql, hqc, hqs, ?_⟩
      · simp only [findLeafNode, deref, hnode, ok_bind, hkind, hadv, hread]
        exact hfind
      · refine .child _ hnode hkind ?_ hc hreach
        rw [← usedKeys_length hcount]
        exact (List.takeWhile_prefix _).length_le
      · intro q' d' offset hreach' hstores
        obtain ⟨c', pre, post, hks', hc', d'', hrest⟩ :=
          reaches_child hnode hkind hcount hreach' hstores
        obtain ⟨d, st₁, st₂, hd, -, hvisit'⟩ := hbranch hkind pre post hks'
        obtain rfl : d = c' := by simpa using hd.symm.trans hc'
        obtain ⟨hlo', hhi'⟩ := stored_within hvisit' hrest hstores
        -- the key is in the range of this child too, so routing led there
        have hroute := route_unique (hks' ▸ hsorted) hlo' hhi'
        rw [← hks'] at hroute
        rw [hroute] at hc
        obtain rfl : c = d := by simpa using hc.symm.trans hc'
        exact honly q' d'' offset hrest hstores

end Node

theorem searchLeaf_finds {nodes : List BPTreeNode} {q : Ptr} {node : BPTreeNode}
    (hnode : nodes[q]? = some node) (hleaf : node.isLeaf = true)
    (hcount : node.keyCount ≤ bptreeMaxKeys) (hsorted : (usedKeys node).Pairwise (· < ·))
    (key : UInt64) :
    ∃ found, searchLeaf node key 0 node.keyCount = .ok found ∧
      ∀ offset, found = some offset ↔ LeafStores nodes q key offset := by
  refine ⟨_, searchLeaf_lookup (usedEntries_leaf hleaf hcount q) key, fun offset => ?_⟩
  have hnodup : ((usedEntries node).map Prod.fst).Nodup := by
    rw [usedEntries_keys]
    exact hsorted.imp (fun hlt => ne_of_lt hlt)
  rw [leafStores_iff hnode hleaf, mem_iff_lookup hnodup]

def InTree (tree : BPTree) (q : Ptr) : Prop :=
  ∃ root d, tree.root = some root ∧ Reaches tree.nodes d root q

/-- Where `bptree_validate` succeeds, on whatever tree, a search succeeds, it finds the offset
that is stored beside its key in a leaf below the root and nothing if there is none, and no two
leaves store the same key. -/
theorem validated_search_finds {tree : BPTree} (h : bptreeValidate tree = .ok (.ok ())) :
    (∀ key, ∃ found, bptreeSearch tree key = .ok (.ok found) ∧
      (found ≠ none ↔ ∃ q offset, InTree tree q ∧ LeafStores tree.nodes q key offset) ∧
      ∀ q offset, InTree tree q → LeafStores tree.nodes q key offset → found = some offset) ∧
    ∀ key q q' offset offset', InTree tree q → InTree tree q' →
      LeafStores tree.nodes q key offset → LeafStores tree.nodes q' key offset' → q = q' := by
  cases hroot : tree.root with
  | none =>
    have hno : ∀ q, ¬ InTree tree q := by
      rintro q ⟨root, -, hsome, -⟩
      rw [hroot] at hsome
      cases hsome
    refine ⟨fun key => ⟨none, by simp only [bptreeSearch, hroot], ?_, ?_⟩, ?_⟩
    · constructor
      · intro hne
        exact absurd rfl hne
      · rintro ⟨q, -, hq, -⟩
        exact absurd hq (hno q)
    · intro q offset hq
      exact absurd hq (hno q)
    · intro key q q' offset offset' hq
      exact absurd hq (hno q)
  | some root =>
    simp only [bptreeValidate, hroot] at h
    obtain ⟨verdict, hverdict, h⟩ := bind_eq_ok.mp h
    cases verdict with
    | error e => cases h
    | ok state =>
      have hleaf : ∀ {q}, InTree tree q → ∃ d, Reaches tree.nodes d root q := by
        rintro q ⟨root', d, hsome, hreach⟩
        rw [hroot, Option.some.injEq] at hsome
        exact ⟨d, hsome ▸ hreach⟩
      have hdescent := fun key => search_descends hverdict (atLeast_none key) (below_none key)
      constructor
      · intro key
        obtain ⟨q, d, node, hfind, hreach, hnode, hkind, hcount, hsorted, honly⟩ := hdescent key
        obtain ⟨found, hsearch, hfound⟩ := searchLeaf_finds hnode hkind hcount hsorted key
        refine ⟨found, ?_, ?_, ?_⟩
        · simp only [bptreeSearch, hroot, hfind, ok_bind, deref, hnode, hsearch]
        · constructor
          · intro hne
            obtain ⟨offset, rfl⟩ := Option.ne_none_iff_exists'.mp hne
            exact ⟨q, offset, ⟨root, d, hroot, hreach⟩, (hfound offset).mp rfl⟩
          · rintro ⟨q', offset, hq', hstores⟩ hnone
            obtain ⟨d', hd'⟩ := hleaf hq'
            obtain rfl := honly q' d' offset hd' hstores
            cases hnone.symm.trans ((hfound offset).mpr hstores)
        · intro q' offset hq' hstores
          obtain ⟨d', hd'⟩ := hleaf hq'
          obtain rfl := honly q' d' offset hd' hstores
          exact (hfound offset).mpr hstores
      · intro key q q' offset offset' hq hq' hstores hstores'
        obtain ⟨r, -, -, -, -, -, -, -, -, honly⟩ := hdescent key
        obtain ⟨d, hd⟩ := hleaf hq
        obtain ⟨d', hd'⟩ := hleaf hq'
        rw [honly q d offset hd hstores, honly q' d' offset' hd' hstores']

/-- A root without keys above one leaf, a shape that no run of inserts builds. -/
def keylessRoot : BPTree where
  nodes := [
    { blankNode false with children := (blankNode false).children.setIfInBounds 0 (some 1) },
    { blankNode true with
      keyCount := 1
      keys := (blankNode true).keys.setIfInBounds 0 7
      rowOffsets := (blankNode true).rowOffsets.setIfInBounds 0 70
      parent := some 0 }]
  root := some 0
  keyCount := 1

theorem keylessRoot_search :
    bptreeValidate keylessRoot = .ok (.ok ()) ∧
      ∃ found, bptreeSearch keylessRoot 7 = .ok (.ok found) ∧
        (found ≠ none ↔ ∃ q offset, InTree keylessRoot q ∧
          LeafStores keylessRoot.nodes q 7 offset) := by
  have hvalid : bptreeValidate keylessRoot = .ok (.ok ()) := by decide +kernel
  refine ⟨hvalid, ?_⟩
  obtain ⟨found, hsearch, hiff, -⟩ := (validated_search_finds hvalid).1 7
  exact ⟨found, hsearch, hiff⟩

end BPTreeSoundness
