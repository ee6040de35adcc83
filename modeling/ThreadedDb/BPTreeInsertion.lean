import ThreadedDb.BPTreeOwnership

/-!
# Insertion into the heap is insertion into the labelled tree

Each function of `bptree.c` that changes nodes is described slot by slot: which nodes differ
afterwards and how. From this `insert_into_parent` is `Context.absorb`, by induction on the
context from the hole to the root, and `bptree_insert` is `Context.insertAt`.
-/
namespace BPTreeInsertion

open CheckedArray
open SeparatorChain
open LabelledBPlusTree
open BPTreeHeap
open BPTreeOwnership

theorem assign_of_get {nodes : List BPTreeNode} {p : Ptr} {node : BPTreeNode}
    (hn : nodes[p]? = some node) (f : BPTreeNode → BPTreeNode) :
    assign nodes p f = .ok (nodes.set p (f node)) := by
  simp only [assign, deref, hn, ok_bind]

theorem get_set_self {nodes : List BPTreeNode} {p : Ptr} {node : BPTreeNode}
    (hn : nodes[p]? = some node) (x : BPTreeNode) : (nodes.set p x)[p]? = some x := by
  have hlt := (List.getElem?_eq_some_iff.mp hn).1
  simp [hlt]

theorem get_set_ne {nodes : List BPTreeNode} {p q : Ptr} (hne : q ≠ p) (x : BPTreeNode) :
    (nodes.set p x)[q]? = nodes[q]? := List.getElem?_set_ne (Ne.symm hne)

def Grants (plan : AllocPlan) (n : ℕ) : Prop := ∀ i < n, plan.getD i true = true

theorem grants_nil (n : ℕ) : Grants [] n := by
  intro i _
  rfl

theorem grants_head {plan : AllocPlan} {n : ℕ} (h : Grants plan (n + 1)) :
    plan.headD true = true := by
  have hfirst := h 0 (Nat.succ_pos n)
  cases plan with
  | nil => rfl
  | cons b plan => exact hfirst

theorem grants_tail {plan : AllocPlan} {n : ℕ} (h : Grants plan (n + 1)) :
    Grants plan.tail n := by
  intro i hi
  have hnext := h (i + 1) (Nat.succ_lt_succ hi)
  cases plan with
  | nil => rfl
  | cons b plan => exact hnext

theorem createNode_grows {plan : AllocPlan} (hplan : plan.headD true = true)
    (nodes : List BPTreeNode) (isLeaf : Bool) :
    createNode plan nodes isLeaf = (some nodes.length, nodes ++ [blankNode isLeaf]) := by
  rw [createNode, if_pos hplan]

theorem createNode_refused {plan : AllocPlan} (hplan : plan.headD true = false)
    (nodes : List BPTreeNode) (isLeaf : Bool) : createNode plan nodes isLeaf = (none, nodes) := by
  rw [createNode, if_neg (by rw [hplan]; decide)]

theorem gather_holds {α : Type} {n m : ℕ} {src : Vector α n} {l r : List α}
    (h : Holds src (l ++ r)) (hm : l.length + r.length < m) (x : α) :
    ∃ temp : Vector (Option α) m, gather src l.length (l.length + r.length) x = .ok temp ∧
      Holds temp ((l ++ x :: r).map some) := by
  have hfetch : ∀ i y, (l ++ r)[i]? = some y → some <$> read src i = .ok (some y) := by
    intro i y hy
    rw [read_holds h hy, map_ok]
  obtain ⟨t₁, h₁, hold₁⟩ := fill_fresh (fun i => some <$> read src i)
    (Vector.replicate m (none : Option α)) (l.map some) (by simp; omega) (by
      intro j y hy
      simp only [List.getElem?_map, Option.map_eq_some_iff] at hy
      obtain ⟨z, hz, rfl⟩ := hy
      apply hfetch
      rw [List.getElem?_append_left (List.getElem?_eq_some_iff.mp hz).1]
      exact hz)
  obtain ⟨t₂, h₂, hold₂⟩ := write_append hold₁ (by simp; omega) (some x)
  obtain ⟨t₃, h₃, hold₃⟩ := fill_append (fun i => some <$> read src i) (r.map some)
    (d := 1) (i := l.length) hold₂ (by simp) (by simp; omega) (by
      intro j y hy
      simp only [List.getElem?_map, Option.map_eq_some_iff] at hy
      obtain ⟨z, hz, rfl⟩ := hy
      apply hfetch
      rw [List.getElem?_append_right (by omega)]
      simpa using hz)
  simp only [List.length_map] at h₁ h₂ h₃
  refine ⟨t₃, ?_, by simpa using hold₃⟩
  simp only [gather, h₁, ok_bind, h₂, Nat.add_sub_cancel_left, h₃]

theorem reparent_slots (p : Ptr) (kids : List Ptr) (nodes : List BPTreeNode)
    (hlt : ∀ q ∈ kids, q < nodes.length) :
    ∃ nodes', reparent nodes p (kids.map some) = .ok nodes' ∧ nodes'.length = nodes.length ∧
      (∀ q ∈ kids, nodes'[q]? = nodes[q]?.map (fun n => { n with parent := some p })) ∧
      ∀ q, q ∉ kids → nodes'[q]? = nodes[q]? := by
  induction kids generalizing nodes with
  | nil => exact ⟨nodes, rfl, rfl, by simp, by simp⟩
  | cons k kids ih =>
    obtain ⟨node, hk⟩ : ∃ node, nodes[k]? = some node :=
      ⟨_, List.getElem?_eq_getElem (hlt k List.mem_cons_self)⟩
    obtain ⟨nodes', hr, hlen, hin, hout⟩ := ih (nodes.set k { node with parent := some p })
      (by simpa using fun q hq => hlt q (List.mem_cons_of_mem _ hq))
    refine ⟨nodes', ?_, by simpa using hlen, ?_, ?_⟩
    · simp only [List.map_cons, reparent, assign_of_get hk, ok_bind, hr]
    · intro q hq
      by_cases hqk : q = k
      · subst q
        by_cases hmem : k ∈ kids
        · rw [hin k hmem, get_set_self hk, hk]
          rfl
        · rw [hout k hmem, get_set_self hk, hk]
          rfl
      · have hmem : q ∈ kids := (List.mem_cons.mp hq).resolve_left hqk
        rw [hin q hmem, get_set_ne hqk]
    · intro q hq
      rw [List.mem_cons, not_or] at hq
      rw [hout q hq.2, get_set_ne hq.1]

private theorem sizes : bptreeOrder = 64 ∧ bptreeMaxKeys = 63 ∧ bptreeMaxChildren = 64 :=
  ⟨rfl, rfl, rfl⟩

/-- Pointers around a full node, after it has been divided into `left` and `right`. -/
structure Divided (nodes nodes' : List BPTreeNode) (p : Ptr) (left right : List UInt64)
    (cl cr : List Ptr) (parent : Option Ptr) : Prop where
  length_eq : nodes'.length = nodes.length + 1
  left_node : ∃ node, nodes'[p]? = some node ∧ IsBranchNode node left cl parent
  right_node : ∃ node, nodes'[nodes.length]? = some node ∧ IsBranchNode node right cr parent
  left_kids : ∀ q ∈ cl, nodes'[q]? = nodes[q]?.map (fun n => { n with parent := some p })
  right_kids : ∀ q ∈ cr,
    nodes'[q]? = nodes[q]?.map (fun n => { n with parent := some nodes.length })
  others : ∀ q, q < nodes.length → q ≠ p → q ∉ cl → q ∉ cr → nodes'[q]? = nodes[q]?

theorem take_holds {α : Type} {n : ℕ} {a : Vector α n} {xs : List α} (h : Holds a xs) :
    a.toList.take xs.length = xs := by
  apply List.ext_getElem?
  intro i
  by_cases hi : i < xs.length
  · have hx : xs[i]? = some xs[i] := List.getElem?_eq_getElem hi
    rw [List.getElem?_take_of_lt hi, hx]
    simpa using h i _ hx
  · rw [List.getElem?_eq_none (by simp; omega), List.getElem?_eq_none (by omega)]

theorem fill_stretch {α : Type} {n m : ℕ} (pre ys post : List α) {temp : Vector (Option α) m}
    (h : Holds temp ((pre ++ ys ++ post).map some)) (dst : Vector α n) (hn : ys.length ≤ n) :
    ∃ dst', fill (fun i => readInit temp (pre.length + i)) dst 0 0 ys.length = .ok dst' ∧
      Holds dst' ys := by
  apply fill_fresh _ dst ys hn
  intro j y hy
  apply readInit_holds h
  have hj := (List.getElem?_eq_some_iff.mp hy).1
  rw [List.append_assoc, List.getElem?_append_right (by omega), Nat.add_sub_cancel_left,
    List.getElem?_append_left hj]
  exact hy

/-- Both halves written over the old node and a fresh one, and their children hung under them. -/
theorem rehang_divides {nodes : List BPTreeNode} {p : Ptr} {leftNode rightNode : BPTreeNode}
    {left right : List UInt64} {cl cr : List Ptr} {parent : Option Ptr} (hp : p < nodes.length)
    (hleft : IsBranchNode leftNode left cl parent)
    (hright : IsBranchNode rightNode right cr parent)
    (hlt : ∀ q ∈ cl ++ cr, q < nodes.length) (hnodup : (p :: (cl ++ cr)).Nodup) :
    ∃ middle nodes',
      reparent ((nodes ++ [blankNode false]).set p leftNode) p (cl.map some) = .ok middle ∧
      middle[nodes.length]? = some (blankNode false) ∧
      reparent (middle.set nodes.length rightNode) nodes.length (cr.map some) = .ok nodes' ∧
      Divided nodes nodes' p left right cl cr parent := by
  obtain ⟨hpnot, hkidsnd⟩ := List.nodup_cons.mp hnodup
  rw [List.mem_append, not_or] at hpnot
  have hfresh : ∀ q ∈ cl ++ cr, q ≠ nodes.length := fun q hq => (hlt q hq).ne
  have hne : ∀ q ∈ cl ++ cr, q ≠ p := by
    rintro q hq rfl
    exact (List.mem_append.mp hq).elim hpnot.1 hpnot.2
  obtain ⟨written, hwritten⟩ : ∃ written, written = (nodes ++ [blankNode false]).set p leftNode :=
    ⟨_, rfl⟩
  have hlen₁ : written.length = nodes.length + 1 := by simp [hwritten]
  have hle₁ : nodes.length ≤ written.length := by omega
  have hold : ∀ q, q < nodes.length → q ≠ p → written[q]? = nodes[q]? := by
    intro q hq hqp
    rw [hwritten, get_set_ne hqp, List.getElem?_append_left hq]
  obtain ⟨middle, hmiddle, hlen₂, hin₂, hout₂⟩ := reparent_slots p cl written (fun q hq =>
    (hlt q (List.mem_append_left _ hq)).trans_le hle₁)
  have hblank : middle[nodes.length]? = some (blankNode false) := by
    rw [hout₂ _ (fun h => hfresh _ (List.mem_append_left _ h) rfl), hwritten, get_set_ne hp.ne']
    simp
  have hlen₃ : (middle.set nodes.length rightNode).length = written.length := by
    rw [List.length_set, hlen₂]
  obtain ⟨nodes', hnodes', hlen₄, hin₄, hout₄⟩ := reparent_slots nodes.length cr
    (middle.set nodes.length rightNode) (fun q hq =>
      (hlt q (List.mem_append_right _ hq)).trans_le (hle₁.trans_eq hlen₃.symm))
  refine ⟨middle, nodes', hwritten ▸ hmiddle, hblank, hnodes',
    hlen₄.trans (hlen₃.trans hlen₁), ?_, ?_, ?_, ?_, ?_⟩
  · have hgrown : p < (nodes ++ [blankNode false]).length := by
      rw [List.length_append]
      exact Nat.lt_add_right _ hp
    rw [hout₄ p hpnot.2, get_set_ne hp.ne, hout₂ p hpnot.1, hwritten, List.getElem?_set_self hgrown]
    exact ⟨_, rfl, hleft⟩
  · rw [hout₄ _ (fun h => hfresh _ (List.mem_append_right _ h) rfl), get_set_self hblank]
    exact ⟨_, rfl, hright⟩
  · intro q hq
    have hmem := List.mem_append_left cr hq
    have hnotr : q ∉ cr := fun h => (List.disjoint_of_nodup_append hkidsnd) hq h
    rw [hout₄ q hnotr, get_set_ne (hfresh q hmem), hin₂ q hq, hold q (hlt q hmem) (hne q hmem)]
  · intro q hq
    have hmem := List.mem_append_right cl hq
    have hnotl : q ∉ cl := fun h => (List.disjoint_of_nodup_append hkidsnd) h hq
    rw [hin₄ q hq, get_set_ne (hfresh q hmem), hout₂ q hnotl, hold q (hlt q hmem) (hne q hmem)]
  · intro q hq hqp hcl hcr
    rw [hout₄ q hcr, get_set_ne hq.ne, hout₂ q hcl, hold q hq hqp]

theorem splitInternal_divides {nodes : List BPTreeNode} {p r : Ptr} {node : BPTreeNode}
    {ls rs left right : List UInt64} {lk rk cl cr : List Ptr} {hole : Ptr} {s promoted : UInt64}
    {parent : Option Ptr} {plan : AllocPlan} (hplan : plan.headD true = true)
    (hn : nodes[p]? = some node)
    (hb : IsBranchNode node (ls ++ rs) (lk ++ hole :: rk) parent) (hl : ls.length = lk.length)
    (hr : rs.length = rk.length) (hfull : (ls ++ rs).length = bptreeMaxKeys)
    (hseps : ls ++ s :: rs = left ++ promoted :: right) (hkids : lk ++ hole :: r :: rk = cl ++ cr)
    (hleft : left.length = (ls.length + rs.length + 1) / 2) (hcl : cl.length = left.length + 1)
    (hlt : ∀ q ∈ cl ++ cr, q < nodes.length) (hnodup : (p :: (cl ++ cr)).Nodup) :
    ∃ nodes', splitInternalAndInsert plan nodes p ls.length s (some r) =
        .ok (.ok ⟨nodes', promoted, nodes.length⟩) ∧
      Divided nodes nodes' p left right cl cr parent := by
  have hp : p < nodes.length := (List.getElem?_eq_some_iff.mp hn).1
  obtain ⟨horder, hmax, hmaxc⟩ := sizes
  have hlens := congrArg List.length hseps
  have hlens' := congrArg List.length hkids
  simp only [List.length_append, List.length_cons] at hlens hlens' hfull
  have hcr : cr.length = right.length + 1 := by omega
  -- the temporaries
  obtain ⟨tk, hgk, htk⟩ := gather_holds (m := bptreeOrder) hb.keys
    (by omega) s
  have hkids' : Holds node.children ((lk ++ [hole]).map some ++ rk.map some) := by
    simpa using hb.children
  obtain ⟨tc, hgc, htc⟩ := gather_holds (m := bptreeOrder + 1) hkids'
    (by simp; omega) (some r)
  have hcs : (lk ++ [hole]).map some ++ some r :: rk.map some = (cl ++ cr).map some := by
    rw [← hkids]; simp
  rw [hseps] at htk
  rw [hcs] at htc
  have hpromoted : readInit tk left.length = .ok promoted := readInit_holds htk (by simp)
  -- the four arrays
  obtain ⟨keys, hfk, hkeys⟩ := fill_stretch [] left (promoted :: right)
    (by simpa using htk) (Vector.replicate bptreeMaxKeys (0 : UInt64)) (by omega)
  obtain ⟨children, hfc, hchildren⟩ := fill_stretch [] (cl.map some) (cr.map some)
    (by simpa using htc) (Vector.replicate bptreeMaxChildren (none : Option Ptr)) (by simp; omega)
  obtain ⟨rightKeys, hfrk, hrightKeys⟩ := fill_stretch (left ++ [promoted]) right []
    (by simpa using htk) (Vector.replicate bptreeMaxKeys (0 : UInt64)) (by omega)
  obtain ⟨rightChildren, hfrc, hrightChildren⟩ := fill_stretch (cl.map some) (cr.map some) []
    (by simpa using htc) (Vector.replicate bptreeMaxChildren (none : Option Ptr)) (by simp; omega)
  -- the loops over the children
  have htakel : children.toList.take (left.length + 1) = cl.map some := by
    rw [← hcl]; simpa using take_holds hchildren
  have htaker : rightChildren.toList.take (right.length + 1) = cr.map some := by
    rw [← hcr]; simpa using take_holds hrightChildren
  have hgrown : (nodes ++ [blankNode false])[p]? = some node := by
    rw [List.getElem?_append_left hp]; exact hn
  have hleftNode : IsBranchNode { node with
      keyCount := left.length
      keys := keys
      children := children } left cl parent :=
    ⟨hb.isBranch, hb.parent_eq, rfl, hkeys, hchildren⟩
  have hrightNode : IsBranchNode { blankNode false with
      keyCount := right.length
      parent := node.parent
      keys := rightKeys
      children := rightChildren } right cr parent :=
    ⟨rfl, hb.parent_eq, rfl, hrightKeys, hrightChildren⟩
  obtain ⟨middle, nodes', hmiddle, hblank, hnodes', hdivided⟩ :=
    rehang_divides hp hleftNode hrightNode hlt hnodup
  have hcount : node.keyCount = ls.length + rs.length := by rw [hb.count, List.length_append]
  refine ⟨nodes', ?_, hdivided⟩
  have hsplit : (node.keyCount + 1) / 2 = left.length := by omega
  have hrest : node.keyCount + 1 - left.length - 1 = right.length := by omega
  have hgap : ((lk ++ [hole]).map some).length = ls.length + 1 := by simp [hl]
  have hcountc : ((lk ++ [hole]).map some).length + (rk.map some).length =
      node.keyCount + 1 := by simp [hcount, hl, hr]; omega
  rw [← hcount] at hgk
  rw [hcountc, hgap] at hgc
  simp only [List.length_nil, Nat.zero_add, List.length_map, List.length_append,
    List.length_cons, hcl, hcr] at hfk hfc hfrk hfrc
  simp only [splitInternalAndInsert, deref, hn, ok_bind, hgk, hgc, createNode_grows hplan,
    hsplit, hpromoted, hfk, hfc, assign_of_get hgrown, htakel, hmiddle, hrest,
    hfrk, hfrc, assign_of_get hblank, htaker, hnodes']

theorem insertIntoInternal_slots {nodes : List BPTreeNode} {p r : Ptr} {node child : BPTreeNode}
    {ls rs : List UInt64} {lk rk : List Ptr} {hole : Ptr} {parent : Option Ptr} (s : UInt64)
    (hn : nodes[p]? = some node) (hc : nodes[r]? = some child) (hne : r ≠ p)
    (hb : IsBranchNode node (ls ++ rs) (lk ++ hole :: rk) parent) (hl : ls.length = lk.length)
    (hr : rs.length = rk.length) (hroom : ls.length + rs.length < bptreeMaxKeys) :
    ∃ nodes', insertIntoInternalNode nodes p ls.length s r = .ok nodes' ∧
      nodes'.length = nodes.length ∧
      (∃ node', nodes'[p]? = some node' ∧
        IsBranchNode node' (ls ++ s :: rs) (lk ++ hole :: r :: rk) parent) ∧
      nodes'[r]? = some { child with parent := some p } ∧
      ∀ q, q ≠ p → q ≠ r → nodes'[q]? = nodes[q]? := by
  obtain ⟨horder, hmax, hmaxc⟩ := sizes
  obtain ⟨k₁, k₂, hk₁, hk₂, hkeys⟩ := shift_insert hb.keys hroom s
  have hkids : Holds node.children ((lk ++ [hole]).map some ++ rk.map some) := by
    simpa using hb.children
  obtain ⟨c₁, c₂, hc₁, hc₂, hchildren⟩ := shift_insert hkids (by simp; omega) (some r)
  have hcount : node.keyCount = ls.length + rs.length := by rw [hb.count, List.length_append]
  have hgap : ((lk ++ [hole]).map some).length = ls.length + 1 := by simp [hl]
  have hcountc : ((lk ++ [hole]).map some).length + (rk.map some).length = node.keyCount + 1 := by
    simp [hcount, hl, hr]; omega
  rw [← hcount] at hk₁
  rw [hcountc, hgap] at hc₁
  rw [hgap] at hc₂
  obtain ⟨n₁, hn₁⟩ : ∃ n₁, n₁ = nodes.set p { node with keys := k₂, children := c₂ } := ⟨_, rfl⟩
  have hp₁ : n₁[p]? = some { node with keys := k₂, children := c₂ } := by
    rw [hn₁, get_set_self hn]
  have hr₁ : n₁[r]? = some child := by rw [hn₁, get_set_ne hne, hc]
  obtain ⟨n₂, hn₂⟩ : ∃ n₂, n₂ = n₁.set r { child with parent := some p } := ⟨_, rfl⟩
  have hp₂ : n₂[p]? = some { node with keys := k₂, children := c₂ } := by
    rw [hn₂, get_set_ne hne.symm, hp₁]
  refine ⟨n₂.set p { node with keys := k₂, children := c₂, keyCount := node.keyCount + 1 },
    ?_, ?_, ⟨_, get_set_self hp₂ _, ?_⟩, ?_, ?_⟩
  · simp only [insertIntoInternalNode, deref, hn, ok_bind, hk₁, hc₁, hk₂, hc₂, assign_of_get hn,
      ← hn₁, assign_of_get hr₁, ← hn₂, assign_of_get hp₂]
  · simp [hn₁, hn₂]
  · refine ⟨hb.isBranch, hb.parent_eq, ?_, hkeys, by simpa using hchildren⟩
    simp only [hcount, List.length_append, List.length_cons]
    omega
  · rw [get_set_ne hne, hn₂, get_set_self hr₁]
  · intro q hqp hqr
    rw [get_set_ne hqp, hn₂, get_set_ne hqr, hn₁, get_set_ne hqp]

theorem plug_label {h : ℕ} (c : NodeContext h) {t t' : NodeTree h} (hlabel : t.label = t'.label) :
    (c.plug t).tree.label = (c.plug t').tree.label := by
  induction c with
  | root => exact hlabel
  | inside label ls lk rs rk hl hr outer ih => exact ih rfl

theorem kids_top {h : ℕ} {cs : List (NodeTree h)} (hnodup : (cs.flatMap Tree.labels).Nodup)
    {t : NodeTree h} (ht : t ∈ cs) {p : Ptr} (hp : p ∈ t.labels) (htop : p ∈ cs.map Tree.label) :
    p = t.label := by
  obtain ⟨u, hu, rfl⟩ := List.mem_map.mp htop
  by_contra hne
  have hsymm : Std.Symm (Function.onFun List.Disjoint (Tree.labels (K := UInt64) (V := Int)
      (P := Ptr) (h := h))) := ⟨fun _ _ hd _ ha hb => hd hb ha⟩
  have hdisj := (List.nodup_flatMap.mp hnodup).2.forall ht hu (fun heq => hne (by rw [heq]))
  exact hdisj hp (label_mem u)

theorem kids_nodup {h : ℕ} {cs : List (NodeTree h)} (hnodup : (cs.flatMap Tree.labels).Nodup) :
    (cs.map Tree.label).Nodup := by
  refine List.Pairwise.map _ ?_ (List.nodup_flatMap.mp hnodup).2
  intro t u hdisj heq
  exact hdisj (label_mem t) (heq ▸ label_mem u)

def depth : {h : ℕ} → NodeContext h → ℕ
  | _, .root => 0
  | _, .inside _ _ _ _ _ _ _ outer => depth outer + 1

theorem depth_le_labels {h : ℕ} (c : NodeContext h) : depth c ≤ c.labels.length := by
  induction c with
  | root => exact Nat.zero_le _
  | inside label ls lk rs rk hl hr outer ih =>
    simp only [depth, Context.labels, List.length_cons, List.length_append]
    omega

theorem owns_top {nodes : List BPTreeNode} {h : ℕ} {t : NodeTree h} {parent : Option Ptr}
    (ho : Owns nodes t parent) : ∃ node, nodes[t.label]? = some node ∧ node.parent = parent := by
  cases h with
  | zero =>
    obtain ⟨node, hn, hl⟩ := ho
    exact ⟨node, hn, hl.parent_eq⟩
  | succ h =>
    obtain ⟨⟨node, hn, hb⟩, -⟩ := ho
    exact ⟨node, hn, hb.parent_eq⟩

theorem insertIntoParent_root {h : ℕ} (l r : NodeTree h) (s : UInt64) {tree : BPTree} {fuel : ℕ}
    {plan : AllocPlan} (hplan : plan.headD true = true)
    (hleft : Owns tree.nodes l none) (hright : Owns tree.nodes r none)
    (hnodup : (l.labels ++ r.labels).Nodup) :
    ∃ nodes', insertIntoParent (fuel + 1) plan tree (some l.label) s (some r.label) =
        .ok ({ tree with nodes := nodes', root := some tree.nodes.length }, .ok ()) ∧
      Owns nodes' (Tree.branch tree.nodes.length [s] [l, r]) none ∧
      nodes'.length = tree.nodes.length + 1 := by
  obtain ⟨ln, hln, hlp⟩ := owns_top hleft
  obtain ⟨rn, hrn, -⟩ := owns_top hright
  have hllt := owns_lt hleft
  have hrlt := owns_lt hright
  have hdisj := List.disjoint_of_nodup_append hnodup
  have hne : r.label ≠ l.label := fun heq => hdisj (label_mem l) (heq ▸ label_mem r)
  obtain ⟨top, htop⟩ : ∃ top : BPTreeNode, top = { blankNode false with
      keys := (blankNode false).keys.set 0 s
      children := ((blankNode false).children.set 0 (some l.label)).set 1 (some r.label)
      keyCount := 1 } := ⟨_, rfl⟩
  obtain ⟨n₀, hn₀⟩ : ∃ n₀, n₀ = (tree.nodes ++ [blankNode false]).set tree.nodes.length top :=
    ⟨_, rfl⟩
  have hblank : (tree.nodes ++ [blankNode false])[tree.nodes.length]? = some (blankNode false) := by
    simp
  have hold : ∀ q, q < tree.nodes.length → n₀[q]? = tree.nodes[q]? := by
    intro q hq
    rw [hn₀, get_set_ne hq.ne, List.getElem?_append_left hq]
  have hl₀ := (hold _ (hllt _ (label_mem l))).trans hln
  obtain ⟨n₁, hn₁⟩ : ∃ n₁, n₁ = n₀.set l.label { ln with parent := some tree.nodes.length } :=
    ⟨_, rfl⟩
  have hr₁ : n₁[r.label]? = some rn := by
    rw [hn₁, get_set_ne hne, hold _ (hrlt _ (label_mem r)), hrn]
  obtain ⟨n₂, hn₂⟩ : ∃ n₂, n₂ = n₁.set r.label { rn with parent := some tree.nodes.length } :=
    ⟨_, rfl⟩
  have hsame : ∀ q, q < tree.nodes.length → q ≠ l.label → q ≠ r.label →
      n₂[q]? = tree.nodes[q]? := by
    intro q hq hql hqr
    rw [hn₂, get_set_ne hqr, hn₁, get_set_ne hql, hold q hq]
  refine ⟨n₂, ?_, ?_, by simp [hn₂, hn₁, hn₀]⟩
  · simp only [insertIntoParent, deref, hln, ok_bind, hlp, createNode_grows hplan,
      assign_of_get hblank]
    rw [← htop, ← hn₀]
    simp only [assign_of_get hl₀, ok_bind, ← hn₁, assign_of_get hr₁, ← hn₂]
  · rw [owns_branch]
    refine ⟨⟨top, ?_, ?_⟩, ?_⟩
    · rw [hn₂, get_set_ne (hrlt _ (label_mem r)).ne', hn₁, get_set_ne (hllt _ (label_mem l)).ne',
        hn₀, get_set_self hblank]
    · subst htop
      refine ⟨rfl, rfl, rfl, ?_, ?_⟩
      · intro i x hx
        rcases i with _ | i
        · simpa using hx
        · cases hx
      · intro i x hx
        rcases i with _ | _ | i
        · simpa [blankNode] using hx
        · simpa [blankNode] using hx
        · cases hx
    · intro t ht
      rcases List.mem_cons.mp ht with rfl | ht
      · refine owns_moved (List.nodup_append.mp hnodup).1 hleft ?_ ?_
        · rw [hn₂, get_set_ne hne.symm, hn₁, get_set_self hl₀, hln]
          rfl
        · intro q hq hqt
          exact hsame q (hllt q hq) hqt (fun h => hdisj hq (h ▸ label_mem r))
      · rw [List.mem_singleton.mp ht]
        refine owns_moved (List.nodup_append.mp hnodup).2.1 hright ?_ ?_
        · rw [hn₂, get_set_self hr₁, hrn]
          rfl
        · intro q hq hqt
          exact hsame q (hrlt q hq) (fun h => hdisj (h ▸ label_mem l) hq) hqt

/-- The search of `insert_into_parent` for its left child among the children of the parent. -/
theorem childIndex_of_hole {node : BPTreeNode} {seps : List UInt64} {lk rk : List Ptr} {hole : Ptr}
    {parent : Option Ptr} (hb : IsBranchNode node seps (lk ++ hole :: rk) parent)
    (hcount : (lk ++ hole :: rk).length = seps.length + 1) (hfirst : hole ∉ lk) :
    advance node.children (· ≠ some hole) (node.keyCount + 1) (node.keyCount + 1) 0 =
      .ok lk.length := by
  have hadv := advance_holds (fun c => decide (c ≠ some hole)) hb.children
  have hstop : ((lk ++ hole :: rk).map some).takeWhile (fun c => decide (c ≠ some hole)) =
      lk.map some := by
    rw [List.map_append, List.takeWhile_append_of_pos]
    · simp
    · intro c hc
      obtain ⟨q, hq, rfl⟩ := List.mem_map.mp hc
      have : q ≠ hole := fun heq => hfirst (heq ▸ hq)
      simpa using this
  rw [hstop, List.length_map, List.length_map, hcount, ← hb.count] at hadv
  exact hadv

theorem divided_owns {nodes nodes' : List BPTreeNode} {h : ℕ} {p : Ptr} {left right : List UInt64}
    {cl cr : List (NodeTree h)} {parent : Option Ptr}
    (hd : Divided nodes nodes' p left right (cl.map Tree.label) (cr.map Tree.label) parent)
    (hkids : ∀ t ∈ cl ++ cr, Owns nodes t (some p))
    (hnodup : (p :: (cl ++ cr).flatMap Tree.labels).Nodup) :
    Owns nodes' (Tree.branch p left cl) parent ∧
      Owns nodes' (Tree.branch nodes.length right cr) parent := by
  obtain ⟨hp, hflat⟩ := List.nodup_cons.mp hnodup
  have hown : ∀ t ∈ cl ++ cr, ∀ parent', nodes'[t.label]? =
      nodes[t.label]?.map (fun n => { n with parent := parent' }) → Owns nodes' t parent' := by
    intro t ht parent' htop
    refine owns_moved ((List.nodup_flatMap.mp hflat).1 t ht) (hkids t ht) htop ?_
    intro q hq hqt
    have hnot : q ∉ (cl ++ cr).map Tree.label := fun h => hqt (kids_top hflat ht hq h)
    rw [List.map_append, List.mem_append, not_or] at hnot
    refine hd.others q (owns_lt (hkids t ht) q hq) ?_ hnot.1 hnot.2
    rintro rfl
    exact hp (List.mem_flatMap.mpr ⟨t, ht, hq⟩)
  constructor
  · refine (owns_branch _ _ _ _ _).mpr ⟨hd.left_node, fun t ht => ?_⟩
    exact hown t (List.mem_append_left _ ht) _ (hd.left_kids _ (List.mem_map_of_mem ht))
  · refine (owns_branch _ _ _ _ _).mpr ⟨hd.right_node, fun t ht => ?_⟩
    exact hown t (List.mem_append_right _ ht) _ (hd.right_kids _ (List.mem_map_of_mem ht))

/-- The node around the hole, with two subtrees in the place of one. -/
structure Site (nodes : List BPTreeNode) {h : ℕ} (label : Ptr) (ls : List UInt64)
    (lk : List (NodeTree h)) (rs : List UInt64) (rk : List (NodeTree h))
    (outer : NodeContext (h + 1)) (l r : NodeTree h) : Prop where
  left_count : ls.length = lk.length
  right_count : rs.length = rk.length
  node : ∃ node, nodes[label]? = some node ∧ IsBranchNode node (ls ++ rs)
    (lk.map Tree.label ++ l.label :: rk.map Tree.label) (parentOf outer)
  kids : ∀ t ∈ lk ++ l :: r :: rk, Owns nodes t (some label)
  around : OwnsContext nodes outer label
  distinct : ((label :: (lk ++ l :: r :: rk).flatMap Tree.labels) ++ outer.labels).Nodup

section Site

variable {tree : BPTree} {h : ℕ} {label : Ptr} {ls rs : List UInt64} {lk rk : List (NodeTree h)}
  {outer : NodeContext (h + 1)} {l r : NodeTree h}

theorem labels_inside (hl : ls.length = lk.length) (hr : rs.length = rk.length) :
    (l.labels ++ (r.labels ++ (Context.inside label ls lk rs rk hl hr outer).labels)).Perm
      ((label :: (lk ++ l :: r :: rk).flatMap Tree.labels) ++ outer.labels) := by
  rw [List.perm_iff_count]
  intro a
  simp only [Context.labels, List.flatMap_append, List.flatMap_cons, List.count_append,
    List.count_cons]
  omega

theorem site_of_context {hl : ls.length = lk.length} {hr : rs.length = rk.length}
    (hctx : OwnsContext tree.nodes (Context.inside label ls lk rs rk hl hr outer) l.label)
    (hleft : Owns tree.nodes l (some label)) (hright : Owns tree.nodes r (some label))
    (hnodup : (l.labels ++ (r.labels ++
      (Context.inside label ls lk rs rk hl hr outer).labels)).Nodup) :
    Site tree.nodes label ls lk rs rk outer l r := by
  obtain ⟨hnode, hkids, hout⟩ := hctx
  refine ⟨hl, hr, hnode, ?_, hout, (labels_inside hl hr).nodup_iff.mp hnodup⟩
  intro t ht
  rcases List.mem_append.mp ht with ht | ht
  · exact hkids t (List.mem_append_left _ ht)
  rcases List.mem_cons.mp ht with rfl | ht
  · exact hleft
  rcases List.mem_cons.mp ht with rfl | ht
  · exact hright
  · exact hkids t (List.mem_append_right _ ht)

theorem Site.flat (hs : Site tree.nodes label ls lk rs rk outer l r) :
    ((lk ++ l :: r :: rk).flatMap Tree.labels).Nodup :=
  (List.nodup_cons.mp (List.nodup_append.mp hs.distinct).1).2

theorem Site.label_notMem (hs : Site tree.nodes label ls lk rs rk outer l r) {t : NodeTree h}
    (ht : t ∈ lk ++ l :: r :: rk) : label ∉ t.labels := fun hmem =>
  (List.nodup_cons.mp (List.nodup_append.mp hs.distinct).1).1 (List.mem_flatMap.mpr ⟨t, ht, hmem⟩)

theorem Site.outer_notMem (hs : Site tree.nodes label ls lk rs rk outer l r) {q : Ptr}
    (hq : q ∈ outer.labels) : q ≠ label ∧ ∀ t ∈ lk ++ l :: r :: rk, q ∉ t.labels := by
  have hdisj := List.disjoint_of_nodup_append hs.distinct
  constructor
  · rintro rfl
    exact hdisj List.mem_cons_self hq
  · intro t ht hmem
    exact hdisj (List.mem_cons_of_mem _ (List.mem_flatMap.mpr ⟨t, ht, hmem⟩)) hq

theorem Site.label_lt (hs : Site tree.nodes label ls lk rs rk outer l r) :
    ∀ q ∈ (label :: (lk ++ l :: r :: rk).flatMap Tree.labels) ++ outer.labels,
      q < tree.nodes.length := by
  intro q hq
  obtain ⟨node, hn, -⟩ := hs.node
  rcases List.mem_append.mp hq with hq | hq
  · rcases List.mem_cons.mp hq with rfl | hq
    · exact (List.getElem?_eq_some_iff.mp hn).1
    · obtain ⟨t, ht, hq⟩ := List.mem_flatMap.mp hq
      exact owns_lt (hs.kids t ht) q hq
  · exact ownsContext_lt hs.around q hq

theorem Site.insertIntoParent_eq (hs : Site tree.nodes label ls lk rs rk outer l r) (s : UInt64)
    (fuel : ℕ) (plan : AllocPlan) :
    insertIntoParent (fuel + 1) plan tree (some l.label) s (some r.label) =
      (if ls.length + rs.length < bptreeMaxKeys then do
        let nodes ← insertIntoInternalNode tree.nodes label ls.length s r.label
        .ok ({ tree with nodes := nodes }, .ok ())
      else do
        let promotion ← splitInternalAndInsert plan tree.nodes label ls.length s (some r.label)
        match promotion with
        | .error e => .ok (tree, .error e)
        | .ok ⟨nodes, promotedKey, rightNode⟩ =>
          insertIntoParent fuel plan.tail { tree with nodes := nodes } (some label) promotedKey
            (some rightNode)) := by
  obtain ⟨node, hn, hb⟩ := hs.node
  obtain ⟨ln, hln, hlp⟩ := owns_top (hs.kids l (by simp))
  have hfirst : l.label ∉ lk.map Tree.label := by
    have hnd := kids_nodup hs.flat
    rw [List.map_append, List.map_cons] at hnd
    intro hmem
    exact (List.disjoint_of_nodup_append hnd) hmem List.mem_cons_self
  have hl := hs.left_count
  have hr := hs.right_count
  have hindex := childIndex_of_hole hb (by simp [hl, hr]; omega) hfirst
  rw [List.length_map, ← hl] at hindex
  have hcount : node.keyCount = ls.length + rs.length := by rw [hb.count, List.length_append]
  have hnot : ¬ ls.length + rs.length < ls.length := by omega
  rw [hcount] at hindex
  generalize hrhs : (if ls.length + rs.length < bptreeMaxKeys then _ else _) = rhs
  simp only [insertIntoParent, deref, hln, ok_bind, hlp, hn, hcount, hindex, if_neg hnot]
  exact hrhs

theorem Site.room (hs : Site tree.nodes label ls lk rs rk outer l r) (s : UInt64) (fuel : ℕ)
    (plan : AllocPlan) (hroom : ls.length + rs.length < bptreeMaxKeys) :
    ∃ nodes', insertIntoParent (fuel + 1) plan tree (some l.label) s (some r.label) =
        .ok ({ tree with nodes := nodes' }, .ok ()) ∧
      Owns nodes' (outer.plug (Tree.branch label (ls ++ s :: rs) (lk ++ l :: r :: rk))).tree none ∧
      nodes'.length = tree.nodes.length := by
  have hmem : r ∈ lk ++ l :: r :: rk := by simp
  have hl : ls.length = (lk.map Tree.label).length := by rw [List.length_map, hs.left_count]
  have hr : rs.length = (rk.map Tree.label).length := by rw [List.length_map, hs.right_count]
  obtain ⟨node, hn, hb⟩ := hs.node
  obtain ⟨rn, hrn, hrp⟩ := owns_top (hs.kids r hmem)
  have hrne : r.label ≠ label := fun heq => hs.label_notMem hmem (heq ▸ label_mem r)
  obtain ⟨nodes', hins, hlen, hnode', hr', hothers⟩ :=
    insertIntoInternal_slots s hn hrn hrne hb hl hr hroom
  -- the right child already points to its parent
  have hsame : ∀ q, q ≠ label → nodes'[q]? = tree.nodes[q]? := by
    intro q hq
    by_cases hqr : q = r.label
    · rw [hqr, hr', hrn, ← hrp]
    · exact hothers q hq hqr
  refine ⟨nodes', ?_, ?_, hlen⟩
  · rw [hs.insertIntoParent_eq, if_pos hroom, hins]
    rfl
  · refine (owns_plug _ _ _).mpr ⟨?_, (owns_branch _ _ _ _ _).mpr ⟨by simpa using hnode', ?_⟩⟩
    · exact ownsContext_congr (fun q hq => hsame q (hs.outer_notMem hq).1) hs.around
    · intro t ht
      refine owns_congr (fun q hq => hsame q ?_) (hs.kids t ht)
      rintro rfl
      exact hs.label_notMem ht hq

theorem Site.full (hs : Site tree.nodes label ls lk rs rk outer l r) {s promoted : UInt64}
    {left right : List UInt64} {cl cr : List (NodeTree h)} (fuel : ℕ)
    {plan : AllocPlan} (hplan : plan.headD true = true)
    (hfull : ¬ ls.length + rs.length < bptreeMaxKeys)
    (hseps : ls ++ s :: rs = left ++ promoted :: right) (hkids : lk ++ l :: r :: rk = cl ++ cr)
    (hleft : left.length = (ls.length + rs.length + 1) / 2) (hcl : cl.length = left.length + 1) :
    ∃ nodes', insertIntoParent (fuel + 1) plan tree (some l.label) s (some r.label) =
        insertIntoParent fuel plan.tail { tree with nodes := nodes' } (some label) promoted
          (some tree.nodes.length) ∧
      OwnsContext nodes' outer label ∧
      Owns nodes' (Tree.branch label left cl) (parentOf outer) ∧
      Owns nodes' (Tree.branch tree.nodes.length right cr) (parentOf outer) ∧
      nodes'.length = tree.nodes.length + 1 := by
  have hl : ls.length = (lk.map Tree.label).length := by rw [List.length_map, hs.left_count]
  have hr : rs.length = (rk.map Tree.label).length := by rw [List.length_map, hs.right_count]
  obtain ⟨node, hn, hb⟩ := hs.node
  have hmax : ls.length + rs.length ≤ bptreeMaxKeys := by simpa using hb.keys.length_le
  have hlt : ∀ q ∈ cl.map Tree.label ++ cr.map Tree.label, q < tree.nodes.length := by
    rw [← List.map_append, ← hkids]
    intro q hq
    obtain ⟨t, ht, rfl⟩ := List.mem_map.mp hq
    exact owns_lt (hs.kids t ht) _ (label_mem t)
  have hnd : (label :: (cl.map Tree.label ++ cr.map Tree.label)).Nodup := by
    rw [← List.map_append, ← hkids]
    refine List.nodup_cons.mpr ⟨fun hmem => ?_, kids_nodup hs.flat⟩
    obtain ⟨t, ht, heq⟩ := List.mem_map.mp hmem
    exact hs.label_notMem ht (heq ▸ label_mem t)
  obtain ⟨nodes', hsplit, hd⟩ := splitInternal_divides hplan hn hb hl hr
    (by rw [List.length_append]; omega) hseps
    (by simpa using congrArg (List.map Tree.label) hkids) hleft
    (by rw [List.length_map, hcl]) hlt hnd
  have hown := hs.kids
  have hdistinct := (List.nodup_append.mp hs.distinct).1
  rw [hkids] at hown hdistinct
  obtain ⟨hol, hor⟩ := divided_owns hd hown hdistinct
  refine ⟨nodes', ?_, ?_, hol, hor, hd.length_eq⟩
  · rw [hs.insertIntoParent_eq, if_neg hfull, hsplit]
    rfl
  · refine ownsContext_congr (fun q hq => ?_) hs.around
    obtain ⟨hqp, hqk⟩ := hs.outer_notMem hq
    rw [hkids] at hqk
    refine hd.others q (ownsContext_lt hs.around q hq) hqp (fun hmem => ?_) (fun hmem => ?_)
    · obtain ⟨t, ht, rfl⟩ := List.mem_map.mp hmem
      exact hqk t (List.mem_append_left _ ht) (label_mem t)
    · obtain ⟨t, ht, rfl⟩ := List.mem_map.mp hmem
      exact hqk t (List.mem_append_right _ ht) (label_mem t)

end Site

/-- `insert_into_parent` replaces the left subtree by the two halves, as `absorb` says. -/
theorem insertIntoParent_absorbs {h : ℕ} (c : NodeContext h) (l r : NodeTree h) (s : UInt64)
    {tree : BPTree} {fuel : ℕ} {plan : AllocPlan} (hfuel : depth c < fuel)
    (hplan : Grants plan (c.spent bptreeMaxKeys))
    (hctx : OwnsContext tree.nodes c l.label) (hleft : Owns tree.nodes l (parentOf c))
    (hright : Owns tree.nodes r (parentOf c))
    (hnodup : (l.labels ++ (r.labels ++ c.labels)).Nodup)
    (hroot : tree.root = some (c.plug l).tree.label) :
    ∃ nodes', insertIntoParent fuel plan tree (some l.label) s (some r.label) =
        .ok ({ tree with
          nodes := nodes'
          root := some (c.absorb bptreeMaxKeys id tree.nodes.length l s r).tree.label }, .ok ()) ∧
      Owns nodes' (c.absorb bptreeMaxKeys id tree.nodes.length l s r).tree none ∧
      nodes'.length = tree.nodes.length + c.spent bptreeMaxKeys := by
  obtain ⟨fuel, rfl⟩ : ∃ f, fuel = f + 1 := ⟨fuel - 1, by omega⟩
  induction c generalizing s tree fuel plan with
  | root =>
    have hnd : (l.labels ++ r.labels).Nodup := by simpa [Context.labels] using hnodup
    exact insertIntoParent_root l r s (grants_head hplan) hleft hright hnd
  | inside label ls lk rs rk hl hr outer ih =>
    have hs := site_of_context hctx hleft hright hnodup
    by_cases hroom : ls.length + rs.length < bptreeMaxKeys
    · obtain ⟨nodes', hrun, hown, hlen⟩ := hs.room s fuel plan hroom
      rw [absorb_room id label hl hr outer hroom]
      refine ⟨nodes', ?_, hown, ?_⟩
      · rw [hrun, hroot, Context.plug]
        exact congrArg (fun p => Except.ok (BPTree.mk nodes' (some p) tree.keyCount, Except.ok ()))
          (plug_label outer rfl)
      · simp only [Context.spent, if_pos hroom, hlen, Nat.add_zero]
    · rw [Context.spent, if_neg hroom] at hplan
      obtain ⟨left, promoted, right, cl, cr, hseps, hkids, hleftlen, hcl, habsorb⟩ :=
        absorb_full id label hl hr outer hroom tree.nodes.length l r s
      obtain ⟨nodes', hrun, hout, hol, hor, hlen⟩ :=
        hs.full fuel (grants_head hplan) hroom hseps hkids hleftlen hcl
      simp only [depth] at hfuel
      obtain ⟨fuel, rfl⟩ : ∃ f, fuel = f + 1 := ⟨fuel - 1, by omega⟩
      have hdistinct : ((Tree.branch label left cl).labels ++
          ((Tree.branch tree.nodes.length right cr).labels ++ outer.labels)).Nodup := by
        have hfresh : tree.nodes.length ∉
            (label :: (lk ++ l :: r :: rk).flatMap Tree.labels) ++ outer.labels :=
          fun hmem => lt_irrefl _ (hs.label_lt _ hmem)
        refine List.Perm.nodup ?_ (List.nodup_cons.mpr ⟨hfresh, hs.distinct⟩)
        rw [hkids, List.perm_iff_count]
        intro a
        simp only [Tree.labels_branch, List.flatMap_append, List.count_append, List.count_cons]
        omega
      obtain ⟨nodes'', hrun', hown, hlen'⟩ := @ih (Tree.branch label left cl)
        (Tree.branch tree.nodes.length right cr) promoted { tree with nodes := nodes' } plan.tail
        (grants_tail hplan) hout hol hor hdistinct
        (by rw [hroot, Context.plug]; exact congrArg some (plug_label outer rfl)) fuel (by omega)
      dsimp only at hrun' hown hlen'
      rw [hlen] at hrun' hown hlen'
      rw [habsorb]
      refine ⟨nodes'', ?_, hown, ?_⟩
      · rw [hrun]
        exact hrun'
      · rw [hlen', Context.spent, if_neg hroom]
        omega

theorem insertPosition_leaf {node : BPTreeNode} {l : LeafNode} {parent : Option Ptr}
    (hl : IsLeafNode node l parent) (hsorted : (l.entries.map Prod.fst).Pairwise (· < ·))
    (key : UInt64) :
    insertPosition node key = .ok ((l.entries.takeWhile (fun e => e.1 < key)).length,
      decide (key ∈ l.entries.map Prod.fst)) := by
  have hadv := advance_holds (fun k => decide (k < key)) hl.keys
  rw [List.length_map, ← hl.count, List.takeWhile_map, List.length_map] at hadv
  have hsplit := List.takeWhile_append_dropWhile (p := fun e : UInt64 × Int => decide (e.1 < key))
    (l := l.entries)
  have hsmall : ∀ a ∈ (l.entries.takeWhile (fun e => e.1 < key)).map Prod.fst, a < key := by
    intro a ha
    obtain ⟨e, he, rfl⟩ := List.mem_map.mp ha
    simpa using List.mem_takeWhile_imp he
  unfold insertPosition
  simp only [Function.comp_def] at hadv
  rw [hadv, ok_bind]
  cases hd : l.entries.dropWhile (fun e => e.1 < key) with
  | nil =>
    rw [hd, List.append_nil] at hsplit
    have hnot : key ∉ l.entries.map Prod.fst := by
      intro hmem
      rw [← hsplit] at hmem
      exact lt_irrefl _ (hsmall key hmem)
    rw [hsplit, hl.count, if_neg (lt_irrefl _)]
    simp [hnot]
  | cons e rest =>
    rw [hd] at hsplit
    have hlt : (l.entries.takeWhile (fun e => e.1 < key)).length < node.keyCount := by
      have := congrArg List.length hsplit
      simp only [List.length_append, List.length_cons] at this
      rw [hl.count]
      omega
    have hread : read node.keys (l.entries.takeWhile (fun e => e.1 < key)).length = .ok e.1 := by
      apply read_holds hl.keys
      generalize l.entries.takeWhile (fun e => e.1 < key) = pre at hsplit
      rw [← hsplit]
      simp
    have hhead : key ≤ e.1 := by
      have := List.head?_dropWhile_not (fun e : UInt64 × Int => decide (e.1 < key)) l.entries
      rw [hd] at this
      simpa using this
    have hmem : key ∈ l.entries.map Prod.fst ↔ e.1 = key := by
      rw [← hsplit, List.map_append, List.map_cons, List.mem_append, List.mem_cons]
      rw [← hsplit, List.map_append, List.map_cons, List.pairwise_append, List.pairwise_cons]
        at hsorted
      constructor
      · rintro (hmem | heq | hmem)
        · exact absurd (hsmall key hmem) (lt_irrefl _)
        · exact heq.symm
        · exact absurd (hsorted.2.1.1 key hmem) (not_lt.mpr hhead)
      · intro heq
        exact Or.inr (Or.inl heq.symm)
    rw [if_pos hlt, hread, ok_bind]
    simp only [hmem, Except.ok.injEq, Prod.mk.injEq, true_and]
    rfl

theorem insertPosition_new {node : BPTreeNode} {l : LeafNode} {parent : Option Ptr}
    (hl : IsLeafNode node l parent) (hsorted : (l.entries.map Prod.fst).Pairwise (· < ·))
    {key : UInt64} (hnew : key ∉ l.entries.map Prod.fst) (offset : Int) :
    ∃ pre post, l.entries = pre ++ post ∧ insertPosition node key = .ok (pre.length, false) ∧
      insertEntry key offset l.entries = pre ++ (key, offset) :: post := by
  have hpos := insertPosition_leaf hl hsorted key
  rw [decide_eq_false hnew] at hpos
  exact ⟨_, _, List.takeWhile_append_dropWhile.symm, hpos, rfl⟩

/-- Array slots `l ++ r` become `l ++ x :: r`, for keys and offsets alike. -/
theorem insertIntoLeaf_room {node : BPTreeNode} {l : LeafNode} {parent : Option Ptr}
    (hl : IsLeafNode node l parent) (hsorted : (l.entries.map Prod.fst).Pairwise (· < ·))
    {key : UInt64} (hnew : key ∉ l.entries.map Prod.fst) (offset : Int)
    (hroom : node.keyCount < bptreeMaxKeys) :
    ∃ node', insertIntoLeaf node key offset = .ok (some node') ∧
      IsLeafNode node' { l with entries := insertEntry key offset l.entries } parent := by
  obtain ⟨pre, post, hsplit, hpos, hentry⟩ := insertPosition_new hl hsorted hnew offset
  have hkeys := hl.keys
  have hoffsets := hl.offsets
  have hcount := hl.count
  rw [hsplit, List.map_append] at hkeys hoffsets
  rw [hsplit, List.length_append] at hcount
  rw [hentry]
  obtain ⟨k₁, k₂, hk₁, hk₂, hk⟩ := shift_insert hkeys (by simp; omega) key
  obtain ⟨o₁, o₂, ho₁, ho₂, ho⟩ := shift_insert hoffsets (by simp; omega) offset
  simp only [List.length_map, ← hcount] at hk₁ hk₂ ho₁ ho₂
  refine ⟨{ node with keys := k₂, rowOffsets := o₂, keyCount := node.keyCount + 1 }, ?_, ?_⟩
  · unfold insertIntoLeaf
    rw [hpos, ok_bind]
    simp only [Bool.false_eq_true, if_false, hk₁, hk₂, ho₁, ho₂, ok_bind]
  · refine ⟨hl.isLeaf, hl.parent_eq, hl.next_eq, ?_, by simpa using hk, by simpa using ho⟩
    simp only [hcount, List.length_append, List.length_cons]
    omega

/-- The two temporaries of a leaf split hold the old slots and the new entry. -/
theorem leaf_temporaries {node : BPTreeNode} {l : LeafNode} {parent : Option Ptr}
    (hl : IsLeafNode node l parent) {pre post : List (UInt64 × Int)}
    (hsplit : l.entries = pre ++ post) (key : UInt64) (offset : Int) :
    ∃ (tk : Vector (Option UInt64) bptreeOrder) (tv : Vector (Option Int) bptreeOrder),
      gather node.keys pre.length node.keyCount key = .ok tk ∧
      gather node.rowOffsets pre.length node.keyCount offset = .ok tv ∧
      Holds tk ((pre.map Prod.fst ++ key :: post.map Prod.fst).map some) ∧
      Holds tv ((pre.map Prod.snd ++ offset :: post.map Prod.snd).map some) := by
  have hkeys := hl.keys
  have hoffsets := hl.offsets
  have hcount := hl.count
  obtain ⟨horder, hmax, -⟩ := sizes
  have hcap : l.entries.length ≤ bptreeMaxKeys := by simpa using hkeys.length_le
  rw [hsplit, List.length_append] at hcount hcap
  rw [hsplit, List.map_append] at hkeys hoffsets
  obtain ⟨tk, hgk, htk⟩ := gather_holds (m := bptreeOrder) hkeys (by simp; omega) key
  obtain ⟨tv, hgo, hto⟩ := gather_holds (m := bptreeOrder) hoffsets (by simp; omega) offset
  simp only [List.length_map, ← hcount] at hgk hgo
  exact ⟨tk, tv, hgk, hgo, htk, hto⟩

theorem splitLeaf_refused {tree : BPTree} {node : BPTreeNode} {l : LeafNode} {parent : Option Ptr}
    {plan : AllocPlan} (hplan : plan.headD true = false) (hn : tree.nodes[l.label]? = some node)
    (hl : IsLeafNode node l parent) (hsorted : (l.entries.map Prod.fst).Pairwise (· < ·))
    {key : UInt64} (hnew : key ∉ l.entries.map Prod.fst) (offset : Int) :
    splitLeafAndInsert plan tree (some l.label) key offset = .ok (tree, .error .outOfMemory) := by
  obtain ⟨pre, post, hsplit, hpos, -⟩ := insertPosition_new hl hsorted hnew offset
  obtain ⟨tk, tv, hgk, hgo, -, -⟩ := leaf_temporaries hl hsplit key offset
  simp only [splitLeafAndInsert, deref, hn, ok_bind, hpos, Bool.false_eq_true, if_false, hgk, hgo,
    createNode_refused hplan]

/-- A full leaf is divided; what remains is the call of `insert_into_parent`. -/
theorem splitLeaf_divides {tree : BPTree} {node : BPTreeNode} {l : LeafNode}
    {parent : Option Ptr} {plan : AllocPlan} (hplan : plan.headD true = true)
    (hn : tree.nodes[l.label]? = some node) (hl : IsLeafNode node l parent)
    (hsorted : (l.entries.map Prod.fst).Pairwise (· < ·)) {key : UInt64}
    (hnew : key ∉ l.entries.map Prod.fst) (offset : Int)
    (hfull : ¬ l.entries.length < bptreeMaxKeys) {left right : List (UInt64 × Int)}
    {e : UInt64 × Int} (hes : insertEntry key offset l.entries = left ++ e :: right)
    (hleft : left.length = (l.entries.length + 1) / 2) :
    ∃ nodes', splitLeafAndInsert plan tree (some l.label) key offset =
        insertIntoParent (nodes'.length + 1) plan.tail { tree with nodes := nodes' } (some l.label) e.1
          (some tree.nodes.length) ∧
      nodes'.length = tree.nodes.length + 1 ∧
      Owns nodes' (Tree.leaf { l with entries := left, next := some tree.nodes.length }) parent ∧
      Owns nodes' (Tree.leaf ⟨tree.nodes.length, e :: right, l.next⟩) parent ∧
      ∀ q, q < tree.nodes.length → q ≠ l.label → nodes'[q]? = tree.nodes[q]? := by
  obtain ⟨pre, post, hsplit, hpos, hentry⟩ := insertPosition_new hl hsorted hnew offset
  have hcount := hl.count
  rw [hentry] at hes
  obtain ⟨horder, hmax, -⟩ := sizes
  have hp : l.label < tree.nodes.length := (List.getElem?_eq_some_iff.mp hn).1
  have hcap : l.entries.length ≤ bptreeMaxKeys := by simpa using hl.keys.length_le
  have hlens := congrArg List.length hes
  have hlens' := congrArg List.length hsplit
  simp only [List.length_append, List.length_cons] at hlens hlens'
  obtain ⟨tk, tv, hgk, hgo, htk, hto⟩ := leaf_temporaries hl hsplit key offset
  have hkeysplit : pre.map Prod.fst ++ key :: post.map Prod.fst =
      left.map Prod.fst ++ (e :: right).map Prod.fst := by
    simpa using congrArg (List.map Prod.fst) hes
  have hoffsplit : pre.map Prod.snd ++ offset :: post.map Prod.snd =
      left.map Prod.snd ++ (e :: right).map Prod.snd := by
    simpa using congrArg (List.map Prod.snd) hes
  rw [hkeysplit] at htk
  rw [hoffsplit] at hto
  -- the four arrays
  obtain ⟨keys, hfk, hk⟩ := fill_stretch [] (left.map Prod.fst) ((e :: right).map Prod.fst)
    (by simpa using htk) (Vector.replicate bptreeMaxKeys (0 : UInt64)) (by simp; omega)
  obtain ⟨offsets, hfo, ho⟩ := fill_stretch [] (left.map Prod.snd) ((e :: right).map Prod.snd)
    (by simpa using hto) (Vector.replicate bptreeMaxKeys (0 : Int)) (by simp; omega)
  obtain ⟨rightKeys, hfrk, hrk⟩ := fill_stretch (left.map Prod.fst)
    ((e :: right).map Prod.fst) [] (by simpa using htk)
    (Vector.replicate bptreeMaxKeys (0 : UInt64)) (by simp; omega)
  obtain ⟨rightOffsets, hfro, hro⟩ := fill_stretch (left.map Prod.snd)
    ((e :: right).map Prod.snd) [] (by simpa using hto)
    (Vector.replicate bptreeMaxKeys (0 : Int)) (by simp; omega)
  have hgrown : (tree.nodes ++ [blankNode true])[l.label]? = some node := by
    rw [List.getElem?_append_left hp]; exact hn
  obtain ⟨n₁, hn₁⟩ : ∃ n₁, n₁ = (tree.nodes ++ [blankNode true]).set l.label { node with
      keyCount := left.length
      keys := keys
      rowOffsets := offsets
      next := some tree.nodes.length } := ⟨_, rfl⟩
  have hblank : n₁[tree.nodes.length]? = some (blankNode true) := by
    rw [hn₁, get_set_ne hp.ne']
    simp
  obtain ⟨n₂, hn₂⟩ : ∃ n₂, n₂ = n₁.set tree.nodes.length { blankNode true with
      keyCount := right.length + 1
      keys := rightKeys
      rowOffsets := rightOffsets
      next := node.next
      parent := node.parent } := ⟨_, rfl⟩
  have hlast : read rightKeys 0 = .ok e.1 := read_holds hrk (by simp)
  refine ⟨n₂, ?_, by simp [hn₂, hn₁], ?_, ?_, ?_⟩
  · have hhalf : (node.keyCount + 1) / 2 = left.length := by omega
    have hrest : node.keyCount + 1 - left.length = right.length + 1 := by omega
    simp only [List.length_nil, Nat.zero_add, List.length_map, List.length_cons]
      at hfk hfo hfrk hfro
    simp only [splitLeafAndInsert, deref, hn, ok_bind, hpos, Bool.false_eq_true, if_false, hgk, hgo,
      createNode_grows hplan, hhalf, hfk, hfo, hrest, hfrk, hfro, assign_of_get hgrown, ← hn₁,
      assign_of_get hblank, ← hn₂, hlast]
  · refine (owns_leaf _ _ _).mpr ?_
    rw [hn₂, get_set_ne hp.ne, hn₁, get_set_self hgrown]
    exact ⟨_, rfl, hl.isLeaf, hl.parent_eq, rfl, rfl, hk, ho⟩
  · refine (owns_leaf _ _ _).mpr ?_
    rw [hn₂, get_set_self hblank]
    exact ⟨_, rfl, rfl, hl.parent_eq, hl.next_eq, rfl, hrk, hro⟩
  · intro q hq hqp
    rw [hn₂, get_set_ne hq.ne, hn₁, get_set_ne hqp, List.getElem?_append_left hq]

/-- The divisions above a divided node, from its parent on: each full node on the way, and a new
root behind the last one. -/
def splitsAbove (nodes : List BPTreeNode) : ℕ → Option Ptr → ℕ
  | 0, _ => 0
  | _ + 1, none => 1
  | fuel + 1, some p =>
    match nodes[p]? with
    | none => 0
    | some node =>
      if node.keyCount < bptreeMaxKeys then 0 else splitsAbove nodes fuel node.parent + 1

def neededNodes (tree : BPTree) (key : UInt64) : ℕ :=
  match tree.root with
  | none => 1
  | some root =>
    match findLeafNode tree.nodes key (tree.nodes.length + 1) (some root) with
    | .ok (some leaf) =>
      match tree.nodes[leaf]? with
      | none => 0
      | some node =>
        if node.keyCount < bptreeMaxKeys then 0
        else splitsAbove tree.nodes (tree.nodes.length + 1) node.parent + 1
    | _ => 0

theorem splitsAbove_spent {nodes : List BPTreeNode} {h : ℕ} (c : NodeContext h) {hole : Ptr}
    {fuel : ℕ} (hctx : OwnsContext nodes c hole) (hfuel : depth c < fuel) :
    splitsAbove nodes fuel (parentOf c) = c.spent bptreeMaxKeys := by
  obtain ⟨fuel, rfl⟩ : ∃ f, fuel = f + 1 := ⟨fuel - 1, by omega⟩
  induction c generalizing hole fuel with
  | root => rfl
  | inside label ls lk rs rk hl hr outer ih =>
    obtain ⟨⟨node, hn, hb⟩, -, hout⟩ := hctx
    simp only [depth] at hfuel
    obtain ⟨fuel, rfl⟩ : ∃ f, fuel = f + 1 := ⟨fuel - 1, by omega⟩
    have hcount : node.keyCount = ls.length + rs.length := by rw [hb.count, List.length_append]
    simp only [splitsAbove, parentOf, hn, hcount, Context.spent]
    split
    · rfl
    · rw [hb.parent_eq, ih hout fuel (by omega)]

end BPTreeInsertion
