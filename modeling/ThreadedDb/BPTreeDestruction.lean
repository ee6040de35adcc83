import ThreadedDb.BPTreeFailures

/-!
# Taking the B+Tree down

`bptree_destroy` walks the tree in postorder and frees each node behind its children. A freed node
can be neither read nor freed again: both are faults of the program. Along every run of inserts
the tree keeps all the nodes it has allocated, so the walk frees each of them exactly once.
-/
namespace BPTreeDestruction

open CheckedArray
open SeparatorChain
open LabelledBPlusTree
open BPTreeHeap
open BPTreeOwnership
open BPTreeInsertion
open BPTreeMap
open BPTreeFailures

def load (nodes : List BPTreeNode) (freed : List Ptr) (p : Ptr) : Checked BPTreeNode :=
  if p ∈ freed then .error .badPointer else deref nodes p

/-- `free`: the node must be there and must not have been freed before. -/
def release (nodes : List BPTreeNode) (freed : List Ptr) (p : Ptr) : Checked (List Ptr) := do
  let _ ← load nodes freed p
  .ok (freed ++ [p])

/-- `for (i = 0; i <= node->key_count; ++i)`; `visit` is the recursive call. -/
def destroyChildren (visit : Option Ptr → List Ptr → Checked (List Ptr))
    (nodes : List BPTreeNode) (p : Ptr) : ℕ → ℕ → List Ptr → Checked (List Ptr)
  | 0, _, _ => .error .unbounded
  | rounds + 1, i, freed => do
    let node ← load nodes freed p
    if i ≤ node.keyCount then do
      let child ← read node.children i
      let freed ← visit child freed
      destroyChildren visit nodes p rounds (i + 1) freed
    else .ok freed

def destroyNode (nodes : List BPTreeNode) : ℕ → Option Ptr → List Ptr → Checked (List Ptr)
  | _, none, freed => .ok freed
  | 0, some _, _ => .error .unbounded
  | fuel + 1, some p, freed => do
    let node ← load nodes freed p
    if node.isLeaf then release nodes freed p
    else do
      let freed ← destroyChildren (destroyNode nodes fuel) nodes p (bptreeMaxChildren + 1) 0 freed
      release nodes freed p

/-- `bptree_destroy`: the emptied tree, and the nodes in the order in which they were freed. -/
def bptreeDestroy (tree : BPTree) : Checked (BPTree × List Ptr) := do
  let freed ← destroyNode tree.nodes (tree.nodes.length + 1) tree.root []
  .ok ({ tree with root := none, keyCount := 0 }, freed)

def postorder : {h : ℕ} → NodeTree h → List Ptr
  | 0, t => [t.label]
  | _ + 1, t => t.toBranch.children.flatMap postorder ++ [t.label]

theorem postorder_perm {h : ℕ} (t : NodeTree h) : (postorder t).Perm t.labels := by
  induction h with
  | zero => exact List.Perm.refl _
  | succ h ih =>
    have hkids : (t.toBranch.children.flatMap postorder).Perm
        (t.toBranch.children.flatMap Tree.labels) :=
      List.Perm.flatMap_left _ (fun c _ => ih c)
    exact (List.perm_append_singleton _ _).trans (hkids.cons _)

theorem mem_postorder {h : ℕ} {t : NodeTree h} {p : Ptr} : p ∈ postorder t ↔ p ∈ t.labels :=
  (postorder_perm t).mem_iff

theorem load_live {nodes : List BPTreeNode} {freed : List Ptr} {p : Ptr} {node : BPTreeNode}
    (hn : nodes[p]? = some node) (hlive : p ∉ freed) : load nodes freed p = .ok node := by
  simp only [load, if_neg hlive, deref, hn]

theorem release_live {nodes : List BPTreeNode} {freed : List Ptr} {p : Ptr} {node : BPTreeNode}
    (hn : nodes[p]? = some node) (hlive : p ∉ freed) :
    release nodes freed p = .ok (freed ++ [p]) := by
  simp only [release, load_live hn hlive, ok_bind]

section Children

variable {nodes : List BPTreeNode} {h : ℕ} {p : Ptr} {node : BPTreeNode}
  {visit : Option Ptr → List Ptr → Checked (List Ptr)}

theorem destroyChildren_frees {seps : List UInt64} {kids : List (NodeTree h)} {parent : Option Ptr}
    (hn : nodes[p]? = some node) (hb : IsBranchNode node seps (kids.map Tree.label) parent)
    (hcount : kids.length = seps.length + 1) {done rest : List (NodeTree h)}
    (hkids : kids = done ++ rest) {rounds : ℕ} (hrounds : rest.length < rounds) {freed : List Ptr}
    (hp : p ∉ freed) (hpkids : p ∉ rest.flatMap Tree.labels)
    (hnodup : (rest.flatMap Tree.labels).Nodup)
    (hlive : ∀ q ∈ rest.flatMap Tree.labels, q ∉ freed)
    (hvisit : ∀ c ∈ rest, ∀ freed : List Ptr, c.labels.Nodup → (∀ q ∈ c.labels, q ∉ freed) →
      visit (some c.label) freed = .ok (freed ++ postorder c)) :
    destroyChildren visit nodes p rounds done.length freed =
      .ok (freed ++ rest.flatMap postorder) := by
  obtain ⟨rounds, rfl⟩ : ∃ r, rounds = r + 1 := ⟨rounds - 1, by omega⟩
  have hlen : done.length + rest.length = node.keyCount + 1 := by
    rw [hb.count, ← hcount, hkids, List.length_append]
  induction rest generalizing done rounds freed with
  | nil =>
    rw [List.length_nil] at hlen
    have hlast : ¬ done.length ≤ node.keyCount := by omega
    simp only [destroyChildren, load_live hn hp, ok_bind, if_neg hlast, List.flatMap_nil,
      List.append_nil]
  | cons c rest ih =>
    simp only [List.length_cons] at hlen hrounds
    simp only [List.flatMap_cons, List.mem_append, not_or] at hpkids hnodup hlive
    obtain ⟨hnodupc, hnoduprest, hdisj⟩ := List.nodup_append.mp hnodup
    have hin : done.length ≤ node.keyCount := by omega
    have hread : read node.children done.length = .ok (some c.label) :=
      read_holds hb.children (by simp [hkids])
    have hc := hvisit c List.mem_cons_self freed hnodupc (fun q hq => hlive q (.inl hq))
    have hp' : p ∉ freed ++ postorder c := by
      rw [List.mem_append, mem_postorder]
      exact not_or.mpr ⟨hp, hpkids.1⟩
    have hlive' : ∀ q ∈ rest.flatMap Tree.labels, q ∉ freed ++ postorder c := by
      intro q hq hmem
      rcases List.mem_append.mp hmem with hmem | hmem
      · exact hlive q (.inr hq) hmem
      · exact hdisj q (mem_postorder.mp hmem) q hq rfl
    obtain ⟨rounds, rfl⟩ : ∃ r, rounds = r + 1 := ⟨rounds - 1, by omega⟩
    have hrest := @ih (done ++ [c]) (by simp [hkids]) (freed ++ postorder c) hp' hpkids.2
      hnoduprest hlive' (fun c' hc' => hvisit c' (List.mem_cons_of_mem _ hc')) rounds (by omega)
      (by simp only [List.length_append, List.length_singleton]; omega)
    rw [List.length_append, List.length_singleton] at hrest
    rw [destroyChildren]
    simp only [load_live hn hp, ok_bind, if_pos hin, hread, hc, hrest, List.flatMap_cons,
      List.append_assoc]

end Children

/-- `destroy_node` frees the nodes of its subtree, each one behind its children. -/
theorem destroyNode_frees {nodes : List BPTreeNode} {h : ℕ} (t : NodeTree h) {parent : Option Ptr}
    {lo hi : Option UInt64} {fuel : ℕ} (hfuel : h < fuel) (ho : Owns nodes t parent)
    (hord : t.Ordered lo hi) {freed : List Ptr} (hnodup : t.labels.Nodup)
    (hlive : ∀ q ∈ t.labels, q ∉ freed) :
    destroyNode nodes fuel (some t.label) freed = .ok (freed ++ postorder t) := by
  obtain ⟨fuel, rfl⟩ : ∃ f, fuel = f + 1 := ⟨fuel - 1, by omega⟩
  have htop : t.label ∉ freed := hlive _ (label_mem t)
  induction h generalizing parent lo hi fuel freed with
  | zero =>
    obtain ⟨node, hn, hl⟩ := ho
    simp only [destroyNode, load_live hn htop, ok_bind, hl.isLeaf, if_true, release_live hn htop,
      postorder]
  | succ h ih =>
    obtain ⟨⟨node, hn, hb⟩, hkids⟩ := ho
    obtain ⟨fuel, rfl⟩ : ∃ f, fuel = f + 1 := ⟨fuel - 1, by omega⟩
    obtain ⟨hnotin, hnodupkids⟩ := List.nodup_cons.mp hnodup
    have hcount : t.toBranch.children.length = t.toBranch.seps.length + 1 := chain_length hord
    have hwidth : t.toBranch.children.length < bptreeMaxChildren + 1 := by
      have := hb.children.length_le
      simp only [List.length_map] at this
      omega
    have hlivekids : ∀ q ∈ t.toBranch.children.flatMap Tree.labels, q ∉ freed :=
      fun q hq => hlive q (List.mem_cons_of_mem _ hq)
    have hvisit : ∀ c ∈ t.toBranch.children, ∀ freed : List Ptr, c.labels.Nodup →
        (∀ q ∈ c.labels, q ∉ freed) →
        destroyNode nodes (fuel + 1) (some c.label) freed = .ok (freed ++ postorder c) := by
      intro c hc freed hnd hl
      obtain ⟨l, u, hco⟩ := chain_forall hord c hc
      exact ih c (hkids c hc) hco hnd hl fuel (by omega) (hl _ (label_mem c))
    have hloop := @destroyChildren_frees nodes h t.label node (destroyNode nodes (fuel + 1))
      t.toBranch.seps t.toBranch.children parent hn hb hcount [] t.toBranch.children rfl
      (bptreeMaxChildren + 1) hwidth freed htop hnotin hnodupkids hlivekids hvisit
    have htop' : t.label ∉ freed ++ t.toBranch.children.flatMap postorder := by
      rw [List.mem_append, not_or]
      refine ⟨htop, fun hmem => hnotin ?_⟩
      obtain ⟨c, hc, hmem⟩ := List.mem_flatMap.mp hmem
      exact List.mem_flatMap.mpr ⟨c, hc, mem_postorder.mp hmem⟩
    rw [destroyNode]
    simp only [load_live hn htop, ok_bind, hb.isBranch, Bool.false_eq_true, if_false]
    rw [List.length_nil] at hloop
    simp only [hloop, ok_bind, release_live hn htop', postorder, List.append_assoc]

theorem bptreeDestroy_layout {tree : BPTree} {t : RootTree} (hl : Layout tree t) :
    bptreeDestroy tree = .ok ({ tree with root := none, keyCount := 0 }, postorder t.tree) := by
  have hwalk := destroyNode_frees t.tree (layout_height hl) hl.owned hl.ordered hl.distinct
    (fun q _ => (List.not_mem_nil : q ∉ []))
  rw [bptreeDestroy, hl.root]
  simp only [hwalk, ok_bind, List.nil_append]

inductive Fills (tree : BPTree) : List (UInt64 × Int) → Prop
  | empty (hroot : tree.root = none) (hcount : tree.keyCount = 0) (hnodes : tree.nodes = []) :
    Fills tree []
  | node (t : RootTree) (hlayout : Layout tree t) (hall : t.labels.length = tree.nodes.length) :
    Fills tree t.entries

theorem fills_denotes {tree : BPTree} {es : List (UInt64 × Int)} (h : Fills tree es) :
    Denotes tree es := by
  cases h with
  | empty hroot hcount _ => exact .empty hroot hcount
  | node t hlayout _ => exact .node t hlayout

theorem insert_first_grows {tree tree' : BPTree} (hroot : tree.root = none) {key : UInt64}
    {offset : Int} {plan : AllocPlan} (hplan : plan.headD true = true)
    (hins : bptreeInsert plan tree key offset = .ok (tree', .ok ())) :
    tree'.nodes.length = tree.nodes.length + 1 := by
  have hblank : (tree.nodes ++ [blankNode true])[tree.nodes.length]? = some (blankNode true) := by
    simp
  simp only [bptreeInsert, hroot, createNode_grows hplan, assign_of_get hblank, ok_bind] at hins
  cases hins
  simp

/-- A granted insert of a new key keeps every node, old or new, in the tree. -/
theorem fills_granted {tree : BPTree} {es : List (UInt64 × Int)} (h : Fills tree es)
    {key : UInt64} (hnew : key ∉ es.map Prod.fst) (offset : Int) {plan : AllocPlan}
    (hplan : Grants plan (neededNodes tree key)) :
    ∃ tree' es', bptreeInsert plan tree key offset = .ok (tree', .ok ()) ∧ Fills tree' es' := by
  cases h with
  | empty hroot hcount hnodes =>
    have hone : neededNodes tree key = 1 := by rw [neededNodes, hroot]
    rw [hone] at hplan
    obtain ⟨tree', hins, hlayout⟩ := insert_empty hroot key offset (grants_head hplan)
    have hgrown := insert_first_grows hroot (grants_head hplan) hins
    rw [hnodes] at hgrown
    exact ⟨tree', _, hins, .node _ hlayout hgrown.symm⟩
  | node t hlayout hall =>
    obtain ⟨tree', c, leaf, -, hins, hlayout', -, hgrown⟩ :=
      insert_layout_heap hlayout hnew offset hplan
    exact ⟨tree', _, hins, .node _ hlayout' (by omega)⟩

theorem fills_step {tree : BPTree} {es : List (UInt64 × Int)} (h : Fills tree es)
    {plan : AllocPlan} {key : UInt64} (hsafe : Survivable plan tree key) (offset : Int) :
    ∃ tree' es' status, bptreeInsert plan tree key offset = .ok (tree', status) ∧
      Fills tree' es' := by
  have hd := fills_denotes h
  by_cases hmem : key ∈ es.map Prod.fst
  · exact ⟨tree, es, _, bptreeInsert_rejects hd hmem offset plan, h⟩
  have hgranted (hplan : Grants plan (neededNodes tree key)) :
      ∃ tree' es' status, bptreeInsert plan tree key offset = .ok (tree', status) ∧
        Fills tree' es' := by
    obtain ⟨tree', es', hins, hf⟩ := fills_granted h hmem offset hplan
    exact ⟨tree', es', _, hins, hf⟩
  rcases hsafe with ⟨found, hfound⟩ | hfirst | hplan
  · rw [bptreeSearch_lookup hd, lookup_none_of_notMem hmem] at hfound
    cases hfound
  · by_cases hneeded : neededNodes tree key = 0
    · exact hgranted (fun i hi => absurd hi (by omega))
    · exact ⟨tree, es, _, bptreeInsert_refused hd hmem offset hfirst hneeded, h⟩
  · exact hgranted hplan

theorem reachable_fills {tree : BPTree} (h : Reachable tree) : ∃ es, Fills tree es := by
  induction h with
  | init => exact ⟨[], .empty rfl rfl rfl⟩
  | @insert tree tree' plan key offset status _ hsafe hins ih =>
    obtain ⟨es, hf⟩ := ih
    obtain ⟨tree'', es', status', hins', hf'⟩ := fills_step hf hsafe offset
    rw [hins] at hins'
    cases hins'
    exact ⟨es', hf'⟩

theorem labels_fill {tree : BPTree} {t : RootTree} (hl : Layout tree t)
    (hall : t.labels.length = tree.nodes.length) :
    t.labels.Perm (List.range tree.nodes.length) := by
  have hsub : t.labels ⊆ List.range tree.nodes.length :=
    fun p hp => List.mem_range.mpr (owns_lt hl.owned p hp)
  have hsubperm := List.subperm_of_subset hl.distinct hsub
  exact hsubperm.perm_of_length_le (by rw [List.length_range, hall])

theorem bptreeDestroy_fills {tree : BPTree} {es : List (UInt64 × Int)} (h : Fills tree es) :
    ∃ freed, bptreeDestroy tree = .ok ({ tree with root := none, keyCount := 0 }, freed) ∧
      freed.Perm (List.range tree.nodes.length) := by
  cases h with
  | empty hroot hcount hnodes =>
    refine ⟨[], ?_, ?_⟩
    · simp only [bptreeDestroy, hroot, destroyNode, ok_bind]
    · rw [hnodes]
      exact List.Perm.refl _
  | node t hlayout hall =>
    exact ⟨_, bptreeDestroy_layout hlayout,
      (postorder_perm t.tree).trans (labels_fill hlayout hall)⟩

/-- `bptree_destroy` after any run of inserts whose failures are survivable: the walk ends, reads no
freed node, frees every node the run has allocated exactly once, and leaves an empty tree. A second
call, which a failed index build brings about, frees nothing. -/
theorem destroy_frees_each_node_once {tree : BPTree} (hreach : Reachable tree) :
    ∃ tree' freed, bptreeDestroy tree = .ok (tree', freed) ∧
      freed.Perm (List.range tree.nodes.length) ∧ Denotes tree' [] ∧
      bptreeDestroy tree' = .ok (tree', []) := by
  obtain ⟨es, hf⟩ := reachable_fills hreach
  obtain ⟨freed, hdestroy, hfreed⟩ := bptreeDestroy_fills hf
  exact ⟨_, freed, hdestroy, hfreed, .empty rfl rfl, rfl⟩

def sixtyFourKeys : List (UInt64 × Int) :=
  (List.range 64).map (fun i => (UInt64.ofNat i, Int.ofNat i))

theorem sixty_four_keys_freed : ∃ tree statuses,
    insertAll bptreeInit sixtyFourKeys = .ok (tree, statuses) ∧
    ∃ tree' freed, bptreeDestroy tree = .ok (tree', freed) ∧
      freed.Perm (List.range tree.nodes.length) ∧ Denotes tree' [] ∧
      bptreeDestroy tree' = .ok (tree', []) := by
  obtain ⟨_, tree, statuses, h⟩ := afterInserts_run sixtyFourKeys
  exact ⟨tree, statuses, h.run, destroy_frees_each_node_once (reachable_insertAll .init h.run)⟩

end BPTreeDestruction
