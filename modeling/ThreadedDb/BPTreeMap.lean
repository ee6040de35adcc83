import ThreadedDb.BPTreeInsertion

/-!
# The B+Tree is a finite map

`Denotes tree es` says that `tree` is laid out on its heap as an ordered, linked B+ tree whose
entries, from left to right, are `es`. Searches read `es`, insertions of a new key add one
entry to it and duplicates change nothing; by induction this holds along every run of inserts.
-/
namespace BPTreeMap

open CheckedArray
open SeparatorChain
open LabelledBPlusTree
open BPTreeHeap
open BPTreeOwnership
open BPTreeInsertion

structure Layout (tree : BPTree) (t : RootTree) : Prop where
  root : tree.root = some t.tree.label
  owned : Owns tree.nodes t.tree none
  distinct : t.labels.Nodup
  ordered : t.Ordered
  linked : Linked t.leaves
  count : tree.keyCount = t.entries.length

inductive Denotes (tree : BPTree) : List (UInt64 × Int) → Prop
  | empty (hroot : tree.root = none) (hcount : tree.keyCount = 0) : Denotes tree []
  | node (t : RootTree) (hlayout : Layout tree t) : Denotes tree t.entries

theorem denotes_init : Denotes bptreeInit [] := .empty rfl rfl

theorem denotes_sorted {tree : BPTree} {es : List (UInt64 × Int)} (hd : Denotes tree es) :
    (es.map Prod.fst).Pairwise (· < ·) := by
  cases hd with
  | empty _ _ => exact List.Pairwise.nil
  | node t hlayout => exact root_keys_sorted hlayout.ordered

theorem denotes_count {tree : BPTree} {es : List (UInt64 × Int)} (hd : Denotes tree es) :
    tree.keyCount = es.length := by
  cases hd with
  | empty _ hcount => simpa using hcount
  | node t hlayout => exact hlayout.count

theorem layout_height {tree : BPTree} {t : RootTree} (hl : Layout tree t) :
    t.height < tree.nodes.length + 1 := by
  have h₁ := height_lt_labels t.tree hl.ordered
  have h₂ := nodup_length_le hl.distinct (owns_lt hl.owned)
  have h₃ : t.labels.length = t.tree.labels.length := rfl
  omega

/-- The descent reaches the leaf in whose bounds the key lies, with its context. -/
theorem layout_descends {tree : BPTree} {t : RootTree} (hl : Layout tree t) (key : UInt64) :
    ∃ (leaf : LeafNode) (c : NodeContext 0) (node : BPTreeNode),
      c.plug (Tree.leaf leaf) = t ∧ tree.nodes[leaf.label]? = some node ∧
      IsLeafNode node leaf (parentOf c) ∧ OwnsContext tree.nodes c leaf.label ∧
      findLeafNode tree.nodes key (tree.nodes.length + 1) tree.root = .ok (some leaf.label) ∧
      AtLeast c.lower key ∧ Below key c.upper := by
  obtain ⟨leaf, c, hplug, hfind, hlo, hhi⟩ := findLeafNode_descends key t.tree .root
    (layout_height hl) hl.owned hl.ordered (by intro l hl; cases hl) (by intro u hu; cases hu)
  have hplug' : c.plug (Tree.leaf leaf) = t := hplug
  have hown := hl.owned
  rw [← hplug'] at hown
  obtain ⟨hctx, node, hn, hleaf⟩ := (owns_plug _ _ _).mp hown
  exact ⟨leaf, c, node, hplug', hn, hleaf, hctx, hl.root ▸ hfind, hlo, hhi⟩

theorem bptreeSearch_lookup {tree : BPTree} {es : List (UInt64 × Int)} (hd : Denotes tree es)
    (key : UInt64) : bptreeSearch tree key = .ok (.ok (es.lookup key)) := by
  cases hd with
  | empty hroot _ => simp only [bptreeSearch, hroot, List.lookup_nil]
  | node t hl =>
    obtain ⟨leaf, c, node, rfl, hn, hleaf, -, hfind, hlo, hhi⟩ := layout_descends hl key
    rw [hl.root] at hfind
    have hlookup := lookup_plug c (Tree.leaf leaf) hl.ordered hlo hhi
    have hentries : (Tree.leaf leaf).entries = leaf.entries := by simp [Tree.entries]
    rw [hentries] at hlookup
    simp only [bptreeSearch, hl.root, hfind, ok_bind, deref, hn, searchLeaf_lookup hleaf, hlookup]

theorem duplicate_rejected {tree : BPTree} {t : RootTree} (hl : Layout tree t) {key : UInt64}
    (hmem : key ∈ t.entries.map Prod.fst) (offset : Int) (plan : AllocPlan) :
    bptreeInsert plan tree key offset = .ok (tree, .error (.duplicateKey key)) := by
  obtain ⟨leaf, c, node, rfl, hn, hleaf, -, hfind, hlo, hhi⟩ := layout_descends hl key
  have hin : key ∈ leaf.entries.map Prod.fst := by
    by_contra hnot
    have hlookup := lookup_plug c (Tree.leaf leaf) hl.ordered hlo hhi
    have hentries : (Tree.leaf leaf).entries = leaf.entries := by simp [Tree.entries]
    rw [hentries, lookup_none_of_notMem hnot, List.lookup_eq_none_iff] at hlookup
    obtain ⟨e, he, rfl⟩ := List.mem_map.mp hmem
    simpa using hlookup e he
  have hsorted := ((ordered_leaf _ _ _).mp (ordered_focus c _ hl.ordered)).1
  have hpos := insertPosition_leaf hleaf hsorted key
  rw [decide_eq_true hin] at hpos
  rw [hl.root] at hfind
  by_cases hroom : node.keyCount < bptreeMaxKeys
  · simp only [bptreeInsert, hl.root, hfind, ok_bind, deref, hn, if_pos hroom, insertIntoLeaf, hpos,
      if_true]
  · simp only [bptreeInsert, hl.root, hfind, ok_bind, deref, hn, if_neg hroom, splitLeafAndInsert,
      hpos, if_true]

theorem leaf_key_mem (c : NodeContext 0) (leaf : LeafNode) {key : UInt64}
    (h : key ∈ leaf.entries.map Prod.fst) :
    key ∈ (c.plug (Tree.leaf leaf)).entries.map Prod.fst := by
  obtain ⟨e, he, rfl⟩ := List.mem_map.mp h
  refine List.mem_map_of_mem ?_
  change e ∈ ((c.plug (Tree.leaf leaf)).leaves).flatMap Leaf.entries
  rw [leaves_plug]
  simp [he]

section Descended

variable {tree : BPTree} {c : NodeContext 0} {leaf : LeafNode} {node : BPTreeNode} {key : UInt64}
  (hl : Layout tree (c.plug (Tree.leaf leaf))) (hn : tree.nodes[leaf.label]? = some node)
  (hleaf : IsLeafNode node leaf (parentOf c)) (hctx : OwnsContext tree.nodes c leaf.label)
  (hfind : findLeafNode tree.nodes key (tree.nodes.length + 1) (some (c.plug (Tree.leaf
    leaf)).tree.label) = .ok (some leaf.label))
  (hnew : key ∉ leaf.entries.map Prod.fst)

include hl

theorem leaf_sorted : (leaf.entries.map Prod.fst).Pairwise (· < ·) :=
  ((ordered_leaf _ _ _).mp (ordered_focus c _ hl.ordered)).1

theorem labels_distinct : (leaf.label :: c.labels).Nodup :=
  (labels_plug c (Tree.leaf leaf)).nodup_iff.mp hl.distinct

theorem label_outside : ∀ q ∈ c.labels, q ≠ leaf.label := by
  rintro q hq rfl
  exact (List.nodup_cons.mp (labels_distinct hl)).1 hq

include hn hleaf hctx hfind hnew

theorem insert_room (hroom : node.keyCount < bptreeMaxKeys) (offset : Int) (plan : AllocPlan) :
    ∃ nodes', bptreeInsert plan tree key offset = .ok (⟨nodes', some (c.insertAt bptreeMaxKeys id
        tree.nodes.length leaf key offset).tree.label, tree.keyCount + 1⟩, .ok ()) ∧
      Owns nodes' (c.insertAt bptreeMaxKeys id tree.nodes.length leaf key offset).tree none ∧
      (c.insertAt bptreeMaxKeys id tree.nodes.length leaf key offset).labels.Nodup ∧
      nodes'.length + (c.plug (Tree.leaf leaf)).labels.length =
        tree.nodes.length +
          (c.insertAt bptreeMaxKeys id tree.nodes.length leaf key offset).labels.length := by
  obtain ⟨node', hins, hleaf'⟩ := insertIntoLeaf_room hleaf (leaf_sorted hl) hnew offset hroom
  have hroom' : leaf.entries.length < bptreeMaxKeys := hleaf.count ▸ hroom
  rw [insertAt_room id c hroom']
  refine ⟨tree.nodes.set leaf.label node', ?_, ?_, ?_, ?_⟩
  · have hlabel : (c.plug (Tree.leaf leaf)).tree.label = (c.plug (Tree.leaf
        { leaf with entries := insertEntry key offset leaf.entries })).tree.label :=
      plug_label c rfl
    simp only [bptreeInsert, hl.root, hfind, ok_bind, deref, hn, if_pos hroom, hins,
      assign_of_get hn]
    rw [hlabel]
  · refine (owns_plug _ _ _).mpr ⟨?_, (owns_leaf _ _ _).mpr ⟨node', get_set_self hn _, hleaf'⟩⟩
    exact ownsContext_congr (fun q hq => get_set_ne (label_outside hl q hq) _) hctx
  · have hdistinct := labels_distinct hl
    exact (labels_plug _ _).nodup_iff.mpr hdistinct
  · rw [List.length_set, (labels_plug _ _).length_eq, (labels_plug _ _).length_eq]
    simp only [Tree.labels_leaf]

theorem insert_full (hfull : ¬ node.keyCount < bptreeMaxKeys) (offset : Int) {plan : AllocPlan}
    (hplan : Grants plan (neededNodes tree key)) :
    ∃ nodes', bptreeInsert plan tree key offset = .ok (⟨nodes', some (c.insertAt bptreeMaxKeys id
        tree.nodes.length leaf key offset).tree.label, tree.keyCount + 1⟩, .ok ()) ∧
      Owns nodes' (c.insertAt bptreeMaxKeys id tree.nodes.length leaf key offset).tree none ∧
      (c.insertAt bptreeMaxKeys id tree.nodes.length leaf key offset).labels.Nodup ∧
      nodes'.length + (c.plug (Tree.leaf leaf)).labels.length =
        tree.nodes.length +
          (c.insertAt bptreeMaxKeys id tree.nodes.length leaf key offset).labels.length := by
  have hfull' : ¬ leaf.entries.length < bptreeMaxKeys := hleaf.count ▸ hfull
  have hdistinct := labels_distinct hl
  have hctxlt := ownsContext_lt hctx
  have hlt := (List.getElem?_eq_some_iff.mp hn).1
  obtain ⟨left, e, right, hes, hleft, heq⟩ :=
    insertAt_full id c hfull' tree.nodes.length key offset
  have hdepth : depth c < tree.nodes.length + 1 := by
    have h₁ := depth_le_labels c
    have h₂ := nodup_length_le (List.nodup_cons.mp hdistinct).2 hctxlt
    omega
  have hneeded : neededNodes tree key = c.spent bptreeMaxKeys + 1 := by
    simp only [neededNodes, hl.root, hfind, hn, if_neg hfull, hleaf.parent_eq,
      splitsAbove_spent c hctx hdepth]
  rw [hneeded] at hplan
  obtain ⟨nodes', hsplit, hlen, hol, hor, hothers⟩ :=
    splitLeaf_divides (grants_head hplan) hn hleaf (leaf_sorted hl) hnew offset hfull' hes hleft
  have hbelow : ∀ q ∈ leaf.label :: tree.nodes.length :: c.labels, q ≤ tree.nodes.length := by
    intro q hq
    rcases List.mem_cons.mp hq with rfl | hq
    · exact hlt.le
    rcases List.mem_cons.mp hq with rfl | hq
    · exact le_rfl
    · exact (hctxlt q hq).le
  have hnd : (leaf.label :: tree.nodes.length :: c.labels).Nodup := by
    refine ((List.Perm.swap _ _ _).nodup_iff).mpr (List.nodup_cons.mpr ⟨?_, hdistinct⟩)
    intro hmem
    rcases List.mem_cons.mp hmem with heq | hmem
    · exact hlt.ne heq.symm
    · exact lt_irrefl _ (hctxlt _ hmem)
  have hctx' : OwnsContext nodes' c leaf.label :=
    ownsContext_congr (fun q hq => hothers q (hctxlt q hq) (label_outside hl q hq)) hctx
  have hroot : tree.root = some (c.plug
      (Tree.leaf { leaf with entries := left, next := some tree.nodes.length })).tree.label :=
    hl.root.trans (congrArg some (plug_label c rfl))
  obtain ⟨nodes'', hrun, hown, hgrown⟩ := @insertIntoParent_absorbs 0 c
    (Tree.leaf { leaf with entries := left, next := some tree.nodes.length })
    (Tree.leaf ⟨tree.nodes.length, e :: right, leaf.next⟩) e.1
    { tree with nodes := nodes' } (nodes'.length + 1) _ (by omega) (grants_tail hplan) hctx' hol
    hor hnd hroot
  dsimp only at hrun hown hgrown
  rw [hlen] at hsplit hrun hown hgrown
  have hsplit' := hsplit.trans hrun
  rw [heq]
  refine ⟨nodes'', ?_, hown, (labels_absorb _ _ _ _ _ _ _).nodup_iff.mpr ?_, ?_⟩
  · simp only [bptreeInsert, hl.root, hfind, ok_bind, deref, hn, if_neg hfull, hsplit', id_eq]
  · -- the labels spent above the new leaf are past the end of the old heap
    have hall : ((leaf.label :: tree.nodes.length :: c.labels) ++
        (List.range' (tree.nodes.length + 1) (c.spent bptreeMaxKeys)).map id).Nodup := by
      rw [List.map_id, List.nodup_append]
      refine ⟨hnd, List.nodup_range', ?_⟩
      intro a ha b hb
      exact (lt_of_le_of_lt (hbelow a ha) (List.mem_range'_1.mp hb).1).ne
    exact hall
  · rw [hgrown, (labels_plug _ _).length_eq, (labels_absorb _ _ _ _ _ _ _).length_eq]
    simp only [Tree.labels_leaf, List.length_append, List.length_singleton, List.length_map,
      List.length_range']
    omega

end Descended

/-- A new key goes into the leaf that admits it, as `insertAt` says, and the heap grows by the
nodes that the tree gains. -/
theorem insert_layout_heap {tree : BPTree} {t : RootTree} (hl : Layout tree t) {key : UInt64}
    (hnew : key ∉ t.entries.map Prod.fst) (offset : Int) {plan : AllocPlan}
    (hplan : Grants plan (neededNodes tree key)) :
    ∃ (tree' : BPTree) (c : NodeContext 0) (leaf : LeafNode), c.plug (Tree.leaf leaf) = t ∧
      bptreeInsert plan tree key offset = .ok (tree', .ok ()) ∧
      Layout tree' (c.insertAt bptreeMaxKeys id tree.nodes.length leaf key offset) ∧
      (c.insertAt bptreeMaxKeys id tree.nodes.length leaf key offset).entries =
        insertEntry key offset t.entries ∧
      tree'.nodes.length + t.labels.length = tree.nodes.length +
        (c.insertAt bptreeMaxKeys id tree.nodes.length leaf key offset).labels.length := by
  obtain ⟨leaf, c, node, rfl, hn, hleaf, hctx, hfind, hlo, hhi⟩ := layout_descends hl key
  rw [hl.root] at hfind
  have hnewleaf : key ∉ leaf.entries.map Prod.fst := fun hmem => hnew (leaf_key_mem c leaf hmem)
  have hents := entries_insertAt bptreeMaxKeys id c tree.nodes.length leaf offset hl.ordered hlo hhi
  have hord := ordered_insertAt bptreeMaxKeys id c tree.nodes.length leaf offset hl.ordered hlo hhi
    hnewleaf (by decide)
  have hlink := linked_insertAt bptreeMaxKeys id c tree.nodes.length leaf key offset hl.linked
  have hcount : tree.keyCount + 1 =
      (c.insertAt bptreeMaxKeys id tree.nodes.length leaf key offset).entries.length := by
    rw [hents, insertEntry_length, hl.count]
  obtain ⟨nodes', hins, hown, hdistinct, hgrown⟩ : ∃ nodes', bptreeInsert plan tree key offset =
        .ok (⟨nodes', some (c.insertAt bptreeMaxKeys id tree.nodes.length leaf key
          offset).tree.label, tree.keyCount + 1⟩, .ok ()) ∧
      Owns nodes' (c.insertAt bptreeMaxKeys id tree.nodes.length leaf key offset).tree none ∧
      (c.insertAt bptreeMaxKeys id tree.nodes.length leaf key offset).labels.Nodup ∧
      nodes'.length + (c.plug (Tree.leaf leaf)).labels.length = tree.nodes.length +
        (c.insertAt bptreeMaxKeys id tree.nodes.length leaf key offset).labels.length := by
    by_cases hroom : node.keyCount < bptreeMaxKeys
    · exact insert_room hl hn hleaf hctx hfind hnewleaf hroom offset plan
    · exact insert_full hl hn hleaf hctx hfind hnewleaf hroom offset hplan
  exact ⟨_, c, leaf, rfl, hins, ⟨rfl, hown, hdistinct, hord, hlink, hcount⟩, hents, hgrown⟩

theorem insert_layout {tree : BPTree} {t : RootTree} (hl : Layout tree t) {key : UInt64}
    (hnew : key ∉ t.entries.map Prod.fst) (offset : Int) {plan : AllocPlan}
    (hplan : Grants plan (neededNodes tree key)) :
    ∃ (tree' : BPTree) (c : NodeContext 0) (leaf : LeafNode), c.plug (Tree.leaf leaf) = t ∧
      bptreeInsert plan tree key offset = .ok (tree', .ok ()) ∧
      Layout tree' (c.insertAt bptreeMaxKeys id tree.nodes.length leaf key offset) ∧
      (c.insertAt bptreeMaxKeys id tree.nodes.length leaf key offset).entries =
        insertEntry key offset t.entries := by
  obtain ⟨tree', c, leaf, hplug, hins, hlayout, hents, -⟩ :=
    insert_layout_heap hl hnew offset hplan
  exact ⟨tree', c, leaf, hplug, hins, hlayout, hents⟩

theorem insert_empty {tree : BPTree} (hroot : tree.root = none) (key : UInt64) (offset : Int)
    {plan : AllocPlan} (hplan : plan.headD true = true) :
    ∃ tree', bptreeInsert plan tree key offset = .ok (tree', .ok ()) ∧
      Layout tree' ⟨0, Tree.leaf ⟨tree.nodes.length, [(key, offset)], none⟩⟩ := by
  have hblank : (tree.nodes ++ [blankNode true])[tree.nodes.length]? = some (blankNode true) := by
    simp
  refine ⟨⟨(tree.nodes ++ [blankNode true]).set tree.nodes.length { blankNode true with
      keys := (blankNode true).keys.set 0 key
      rowOffsets := (blankNode true).rowOffsets.set 0 offset
      keyCount := 1 }, some tree.nodes.length, 1⟩, ?_,
    rfl, ?_, List.nodup_singleton _, ?_, rfl, rfl⟩
  · simp only [bptreeInsert, hroot, createNode_grows hplan, assign_of_get hblank, ok_bind]
  · refine (owns_leaf _ _ _).mpr ⟨_, get_set_self hblank _, rfl, rfl, rfl, rfl, ?_, ?_⟩
    · intro i x hx
      match i, hx with
      | 0, hx =>
        have hx' : ([key] : List UInt64)[0]? = some x := hx
        simpa using hx'
    · intro i x hx
      match i, hx with
      | 0, hx =>
        have hx' : ([offset] : List Int)[0]? = some x := hx
        simpa using hx'
  · refine (ordered_leaf _ _ _).mpr ⟨List.pairwise_singleton _ _, fun k _ => ⟨?_, ?_⟩⟩
    · intro l hl
      cases hl
    · intro u hu
      cases hu

theorem bptreeInsert_rejects {tree : BPTree} {es : List (UInt64 × Int)} (hd : Denotes tree es)
    {key : UInt64} (hmem : key ∈ es.map Prod.fst) (offset : Int) (plan : AllocPlan) :
    bptreeInsert plan tree key offset = .ok (tree, .error (.duplicateKey key)) := by
  cases hd with
  | empty _ _ => cases hmem
  | node t hlayout => exact duplicate_rejected hlayout hmem offset plan

theorem bptreeInsert_granted {tree : BPTree} {es : List (UInt64 × Int)} (hd : Denotes tree es)
    {key : UInt64} (hnew : key ∉ es.map Prod.fst) (offset : Int) {plan : AllocPlan}
    (hplan : Grants plan (neededNodes tree key)) :
    ∃ tree', bptreeInsert plan tree key offset = .ok (tree', .ok ()) ∧
      Denotes tree' (insertEntry key offset es) := by
  cases hd with
  | empty hroot _ =>
    have hone : neededNodes tree key = 1 := by rw [neededNodes, hroot]
    rw [hone] at hplan
    obtain ⟨tree', hins, hlayout⟩ := insert_empty hroot key offset (grants_head hplan)
    exact ⟨tree', hins, .node _ hlayout⟩
  | node t hlayout =>
    obtain ⟨tree', c, leaf, -, hins, hlayout', hents⟩ := insert_layout hlayout hnew offset hplan
    exact ⟨tree', hins, hents ▸ .node _ hlayout'⟩

theorem bptreeInsert_duplicate {tree : BPTree} {es : List (UInt64 × Int)} (hd : Denotes tree es)
    {key : UInt64} (hmem : key ∈ es.map Prod.fst) (offset : Int) :
    bptreeInsert [] tree key offset = .ok (tree, .error (.duplicateKey key)) :=
  bptreeInsert_rejects hd hmem offset []

theorem bptreeInsert_fresh {tree : BPTree} {es : List (UInt64 × Int)} (hd : Denotes tree es)
    {key : UInt64} (hnew : key ∉ es.map Prod.fst) (offset : Int) :
    ∃ tree', bptreeInsert [] tree key offset = .ok (tree', .ok ()) ∧
      Denotes tree' (insertEntry key offset es) :=
  bptreeInsert_granted hd hnew offset (grants_nil _)

theorem mem_iff_lookup {es : List (UInt64 × Int)} (hs : (es.map Prod.fst).Nodup)
    (k : UInt64) (o : Int) : (k, o) ∈ es ↔ es.lookup k = some o := by
  induction es with
  | nil => simp
  | cons e es ih =>
    obtain ⟨a, b⟩ := e
    rw [List.map_cons, List.nodup_cons] at hs
    rw [List.mem_cons, List.lookup_cons, ih hs.2]
    by_cases hk : k = a
    · subst hk
      have hnot : es.lookup k = none := lookup_none_of_notMem hs.1
      simp [hnot, eq_comm]
    · have hne : (k == a) = false := beq_false_of_ne hk
      simp [hne, hk]

def insertAll (tree : BPTree) : List (UInt64 × Int) → Checked (BPTree × List IndexStatus)
  | [] => .ok (tree, [])
  | (key, rowOffset) :: rest => do
    let (tree, status) ← bptreeInsert [] tree key rowOffset
    let (tree, statuses) ← insertAll tree rest
    .ok (tree, status :: statuses)

theorem insertAll_append {tree tree' : BPTree} {statuses : List IndexStatus}
    {ops : List (UInt64 × Int)} (h : insertAll tree ops = .ok (tree', statuses))
    (more : List (UInt64 × Int)) :
    insertAll tree (ops ++ more) = (do
      let (tree, rest) ← insertAll tree' more
      .ok (tree, statuses ++ rest)) := by
  induction ops generalizing tree statuses with
  | nil =>
    obtain ⟨rfl, rfl⟩ : tree = tree' ∧ [] = statuses := by simpa [insertAll] using h
    rw [List.nil_append]
    cases insertAll tree more <;> rfl
  | cons op ops ih =>
    obtain ⟨key, offset⟩ := op
    rw [List.cons_append]
    simp only [insertAll] at h ⊢
    obtain ⟨next, hins, h⟩ := bind_eq_ok.mp h
    obtain ⟨last, hrest, h⟩ := bind_eq_ok.mp h
    obtain ⟨rfl, rfl⟩ : last.1 = tree' ∧ next.2 :: last.2 = statuses := by simpa using h
    rw [hins, ok_bind, ih hrest]
    cases insertAll last.1 more <;> rfl

def statusAfter (before : List (UInt64 × Int)) (key : UInt64) : IndexStatus :=
  if key ∈ before.map Prod.fst then .error (.duplicateKey key) else .ok ()

theorem statusAfter_ok (before : List (UInt64 × Int)) (key : UInt64) :
    statusAfter before key = .ok () ↔ key ∉ before.map Prod.fst := by
  unfold statusAfter
  split <;> simp_all

structure AfterInserts (ops es : List (UInt64 × Int)) (tree : BPTree)
    (statuses : List IndexStatus) : Prop where
  run : insertAll bptreeInit ops = .ok (tree, statuses)
  denotes : Denotes tree es
  keys : ∀ k, k ∈ es.map Prod.fst ↔ k ∈ ops.map Prod.fst
  lookups : ∀ k, es.lookup k = ops.lookup k
  count : statuses.length = ops.length
  outcome : ∀ (i : ℕ) (key : UInt64) (offset : Int), ops[i]? = some (key, offset) →
    statuses[i]? = some (statusAfter (ops.take i) key)

theorem lookup_concat (ops : List (UInt64 × Int)) (key : UInt64) (offset : Int) (k : UInt64) :
    (ops ++ [(key, offset)]).lookup k =
      if k ∈ ops.map Prod.fst then ops.lookup k
      else if k = key then some offset else none := by
  rw [List.lookup_append, List.lookup_cons]
  by_cases hmem : k ∈ ops.map Prod.fst
  · rw [if_pos hmem]
    cases hlook : ops.lookup k with
    | some v => rfl
    | none =>
      rw [List.lookup_eq_none_iff] at hlook
      obtain ⟨e, he, rfl⟩ := List.mem_map.mp hmem
      simpa using hlook e he
  · rw [if_neg hmem, lookup_none_of_notMem hmem]
    by_cases hk : k = key
    · subst hk
      simp
    · have hne : (k == key) = false := beq_false_of_ne hk
      simp [hne, hk]

theorem afterInserts_nil : AfterInserts [] [] bptreeInit [] :=
  ⟨rfl, denotes_init, by simp, by simp, rfl, by simp⟩

/-- What one more insert does to the entries, against the list of all inserts. -/
theorem insert_follows {ops es : List (UInt64 × Int)} {tree : BPTree}
    {statuses : List IndexStatus} (h : AfterInserts ops es tree statuses) (key : UInt64)
    (offset : Int) :
    ∃ es' tree', bptreeInsert [] tree key offset = .ok (tree', statusAfter ops key) ∧
      Denotes tree' es' ∧
      (∀ k, k ∈ es'.map Prod.fst ↔ k ∈ (ops ++ [(key, offset)]).map Prod.fst) ∧
      (∀ k, es'.lookup k = (ops ++ [(key, offset)]).lookup k) ∧
      (key ∈ ops.map Prod.fst → tree' = tree) := by
  by_cases hmem : key ∈ ops.map Prod.fst
  · refine ⟨es, tree, ?_, h.denotes, ?_, ?_, fun _ => rfl⟩
    · rw [bptreeInsert_duplicate h.denotes ((h.keys key).mpr hmem), statusAfter, if_pos hmem]
    · intro k
      rw [h.keys k, List.map_append, List.mem_append, List.map_singleton, List.mem_singleton]
      constructor
      · exact Or.inl
      · rintro (hk | rfl)
        · exact hk
        · exact hmem
    · intro k
      rw [h.lookups, lookup_concat]
      split
      · rfl
      · rename_i hk
        rw [lookup_none_of_notMem hk, if_neg]
        rintro rfl
        exact hk hmem
  · have hnew : key ∉ es.map Prod.fst := fun hk => hmem ((h.keys key).mp hk)
    obtain ⟨tree', hins, hden⟩ := bptreeInsert_fresh h.denotes hnew offset
    refine ⟨_, tree', ?_, hden, ?_, ?_, fun hk => absurd hk hmem⟩
    · rw [hins, statusAfter, if_neg hmem]
    · intro k
      rw [((insertEntry_perm key offset es).map Prod.fst).mem_iff]
      simp only [List.map_cons, List.mem_cons, h.keys k, List.map_append, List.mem_append,
        List.map_nil, List.not_mem_nil, or_false]
      exact or_comm
    · intro k
      rw [lookup_insertEntry hnew, lookup_concat, h.lookups]
      by_cases hk : k = key
      · subst hk
        rw [if_pos rfl, if_neg hmem, if_pos rfl]
      · rw [if_neg hk, if_neg hk]
        split
        · rfl
        · rename_i hk'
          exact lookup_none_of_notMem hk'

theorem afterInserts_step {ops es : List (UInt64 × Int)} {tree : BPTree}
    {statuses : List IndexStatus} (h : AfterInserts ops es tree statuses) (key : UInt64)
    (offset : Int) :
    ∃ es' tree', bptreeInsert [] tree key offset = .ok (tree', statusAfter ops key) ∧
      AfterInserts (ops ++ [(key, offset)]) es' tree' (statuses ++ [statusAfter ops key]) ∧
      (key ∈ ops.map Prod.fst → tree' = tree) := by
  obtain ⟨es', tree', hins, hden, hkeys, hlook, hsame⟩ := insert_follows h key offset
  refine ⟨es', tree', hins, ⟨?_, hden, hkeys, hlook, ?_, ?_⟩, hsame⟩
  · rw [insertAll_append h.run]
    simp only [insertAll, hins, ok_bind]
  · simp [h.count]
  · intro i k o hi
    rcases Nat.lt_or_ge i ops.length with hlt | hge
    · rw [List.getElem?_append_left hlt] at hi
      rw [List.getElem?_append_left (h.count ▸ hlt), h.outcome i k o hi,
        List.take_append_of_le_length hlt.le]
    · have hi' : i = ops.length := by
        have := (List.getElem?_eq_some_iff.mp hi).1
        simp only [List.length_append, List.length_cons, List.length_nil] at this
        omega
      subst hi'
      rw [List.getElem?_concat_length] at hi
      cases hi
      rw [← h.count, List.getElem?_concat_length, h.count, List.take_left]

theorem afterInserts_run (ops : List (UInt64 × Int)) :
    ∃ es tree statuses, AfterInserts ops es tree statuses := by
  induction ops using List.reverseRecOn with
  | nil => exact ⟨[], bptreeInit, [], afterInserts_nil⟩
  | append_singleton ops op ih =>
    obtain ⟨es, tree, statuses, h⟩ := ih
    obtain ⟨es', tree', -, h', -⟩ := afterInserts_step h op.1 op.2
    exact ⟨es', tree', _, h'⟩

theorem afterInserts_count {ops es : List (UInt64 × Int)} {tree : BPTree}
    {statuses : List IndexStatus} (h : AfterInserts ops es tree statuses) :
    tree.keyCount = (ops.map Prod.fst).toFinset.card := by
  have hnodup : (es.map Prod.fst).Nodup :=
    (denotes_sorted h.denotes).imp (fun hlt => ne_of_lt hlt)
  have hsame : (ops.map Prod.fst).toFinset = (es.map Prod.fst).toFinset := by
    ext k
    rw [List.mem_toFinset, List.mem_toFinset, h.keys k]
  rw [hsame, List.toFinset_card_of_nodup hnodup, List.length_map, denotes_count h.denotes]

theorem mem_take_keys {ops : List (UInt64 × Int)} {i : ℕ} {key : UInt64} :
    key ∈ (ops.take i).map Prod.fst ↔ ∃ j < i, ∃ o, ops[j]? = some (key, o) := by
  constructor
  · intro hmem
    obtain ⟨⟨k, o⟩, he, rfl⟩ := List.mem_map.mp hmem
    obtain ⟨j, hj⟩ := List.mem_iff_getElem?.mp he
    have hlt : j < i := by
      have := (List.getElem?_eq_some_iff.mp hj).1
      simp only [List.length_take] at this
      omega
    rw [List.getElem?_take_of_lt hlt] at hj
    exact ⟨j, hlt, o, hj⟩
  · rintro ⟨j, hj, o, hop⟩
    refine List.mem_map.mpr ⟨(key, o), List.mem_iff_getElem?.mpr ⟨j, ?_⟩, rfl⟩
    rw [List.getElem?_take_of_lt hj]
    exact hop

theorem afterInserts_status {ops es : List (UInt64 × Int)} {tree : BPTree}
    {statuses : List IndexStatus} (h : AfterInserts ops es tree statuses) {i : ℕ} {key : UInt64}
    {offset : Int} (hi : ops[i]? = some (key, offset)) :
    statuses[i]? = some (.ok ()) ↔
      ¬ ∃ j < i, ∃ o, ops[j]? = some (key, o) ∧ statuses[j]? = some (.ok ()) := by
  have hfirst : ∀ i, key ∈ (ops.take i).map Prod.fst →
      ∃ j < i, ∃ o, ops[j]? = some (key, o) ∧ statuses[j]? = some (.ok ()) := by
    intro i
    induction i using Nat.strong_induction_on with
    | _ i ih =>
      intro hmem
      obtain ⟨j, hj, o, hop⟩ := mem_take_keys.mp hmem
      by_cases hbefore : key ∈ (ops.take j).map Prod.fst
      · obtain ⟨j', hj', hfound⟩ := ih j hj hbefore
        exact ⟨j', hj'.trans hj, hfound⟩
      · refine ⟨j, hj, o, hop, ?_⟩
        rw [h.outcome j key o hop, (statusAfter_ok _ _).mpr hbefore]
  rw [h.outcome i key offset hi, Option.some.injEq, statusAfter_ok]
  constructor
  · rintro hnot ⟨j, hj, o, hop, -⟩
    exact hnot (mem_take_keys.mpr ⟨j, hj, o, hop⟩)
  · intro hnone hmem
    exact hnone (hfirst i hmem)

/-- From `bptree_init`, any run of `bptree_insert` calls builds a finite map: a call succeeds
exactly when no earlier call with its key did, a rejected call changes neither the searches nor
the count, searches find the offset of the first call, and the count is that of the keys. -/
theorem inserts_build_finite_map (ops : List (UInt64 × Int)) :
    ∃ tree statuses, insertAll bptreeInit ops = .ok (tree, statuses) ∧
      statuses.length = ops.length ∧
      (∀ (i : ℕ) (key : UInt64) (offset : Int), ops[i]? = some (key, offset) →
        (statuses[i]? = some (.ok ()) ↔
          ¬ ∃ j < i, ∃ o, ops[j]? = some (key, o) ∧ statuses[j]? = some (.ok ()))) ∧
      (∀ (key : UInt64) (offset : Int), ∃ tree' status,
        bptreeInsert [] tree key offset = .ok (tree', status) ∧
        insertAll bptreeInit (ops ++ [(key, offset)]) = .ok (tree', statuses ++ [status]) ∧
        (status ≠ .ok () → tree'.keyCount = tree.keyCount ∧
          ∀ k, bptreeSearch tree' k = bptreeSearch tree k)) ∧
      (∀ k, bptreeSearch tree k = .ok (.ok (ops.lookup k))) ∧
      tree.keyCount = (ops.map Prod.fst).toFinset.card := by
  obtain ⟨es, tree, statuses, h⟩ := afterInserts_run ops
  refine ⟨tree, statuses, h.run, h.count, fun i key offset hi => afterInserts_status h hi, ?_, ?_,
    afterInserts_count h⟩
  · intro key offset
    obtain ⟨es', tree', hins, h', hsame⟩ := afterInserts_step h key offset
    refine ⟨tree', _, hins, h'.run, fun hrejected => ?_⟩
    have hmem : key ∈ ops.map Prod.fst := by
      by_contra hnot
      exact hrejected ((statusAfter_ok ops key).mpr hnot)
    rw [hsame hmem]
    exact ⟨rfl, fun _ => rfl⟩
  · intro k
    rw [bptreeSearch_lookup h.denotes, h.lookups]

theorem statusAfter_error {before : List (UInt64 × Int)} {key : UInt64} {e : IndexError}
    (h : statusAfter before key = .error e) : e = .duplicateKey key := by
  unfold statusAfter at h
  split at h
  · cases h
    rfl
  · cases h

/-- Along every run of inserts, and for every insert or search after it, no access leaves its
array, no temporary slot is read before it is written, no pointer that is followed is bad, and
the only error a call can return is that of a duplicate key. -/
theorem inserts_stay_in_bounds (ops : List (UInt64 × Int)) :
    ∃ tree statuses, insertAll bptreeInit ops = .ok (tree, statuses) ∧
      (∀ (i : ℕ) (key : UInt64) (offset : Int) (e : IndexError), ops[i]? = some (key, offset) →
        statuses[i]? = some (.error e) → e = .duplicateKey key) ∧
      (∀ (key : UInt64) (offset : Int), ∃ tree' status,
        bptreeInsert [] tree key offset = .ok (tree', status) ∧
        ∀ e, status = .error e → e = .duplicateKey key) ∧
      ∀ key, ∃ found, bptreeSearch tree key = .ok (.ok found) := by
  obtain ⟨es, tree, statuses, h⟩ := afterInserts_run ops
  refine ⟨tree, statuses, h.run, ?_, ?_, fun key => ⟨_, bptreeSearch_lookup h.denotes key⟩⟩
  · intro i key offset e hop hstatus
    rw [h.outcome i key offset hop, Option.some.injEq] at hstatus
    exact statusAfter_error hstatus
  · intro key offset
    obtain ⟨-, tree', hins, -⟩ := afterInserts_step h key offset
    exact ⟨tree', _, hins, fun e he => statusAfter_error he⟩

end BPTreeMap
