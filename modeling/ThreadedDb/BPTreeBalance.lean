import ThreadedDb.BPTreeSoundness
import ThreadedDb.BPlusOccupancy

/-!
# Trees built by inserts are balanced

The bounds on how full a node is, read off the heap: they hold of every node that child pointers
reach from the root, in every tree that a run of `bptree_insert` calls leaves behind.
-/
namespace BPTreeBalance

open CheckedArray
open LabelledBPlusTree
open BPlusOccupancy
open BPTreeHeap
open BPTreeOwnership
open BPTreeInsertion
open BPTreeMap
open BPTreeSoundness

inductive Balanced (tree : BPTree) : List (UInt64 × Int) → Prop
  | empty (hroot : tree.root = none) (hcount : tree.keyCount = 0) : Balanced tree []
  | node (t : RootTree) (hlayout : Layout tree t) (hsized : Sized bptreeMaxKeys true t.tree) :
      Balanced tree t.entries

theorem Balanced.denotes {tree : BPTree} {es : List (UInt64 × Int)} (h : Balanced tree es) :
    Denotes tree es := by
  cases h with
  | empty hroot hcount => exact .empty hroot hcount
  | node t hlayout _ => exact .node t hlayout

theorem balanced_step {tree : BPTree} {es : List (UInt64 × Int)} (h : Balanced tree es)
    (key : UInt64) (offset : Int) :
    ∃ tree' status es', bptreeInsert [] tree key offset = .ok (tree', status) ∧
      Balanced tree' es' := by
  by_cases hmem : key ∈ es.map Prod.fst
  · exact ⟨tree, _, es, bptreeInsert_duplicate h.denotes hmem offset, h⟩
  · cases h with
    | empty hroot _ =>
      obtain ⟨tree', hins, hlayout⟩ := insert_empty hroot key offset (grants_head (grants_nil 1))
      refine ⟨tree', _, _, hins, .node _ hlayout ((sized_leaf _ _ _).mpr ⟨?_, ?_⟩)⟩
      · intro hbelow
        cases hbelow
      · exact (by decide : 1 ≤ bptreeMaxKeys)
    | node t hlayout hsized =>
      obtain ⟨tree', c, leaf, rfl, hins, hlayout', -⟩ := insert_layout hlayout hmem offset
        (grants_nil _)
      exact ⟨tree', _, _, hins,
        .node _ hlayout' (sized_insertAt (by decide) id c _ leaf key offset hsized)⟩

theorem balanced_run (ops : List (UInt64 × Int)) {tree : BPTree} {es : List (UInt64 × Int)}
    (h : Balanced tree es) : ∃ tree' statuses es', insertAll tree ops = .ok (tree', statuses) ∧
      Balanced tree' es' := by
  induction ops generalizing tree es with
  | nil => exact ⟨tree, [], es, rfl, h⟩
  | cons op ops ih =>
    obtain ⟨next, status, es₁, hins, hnext⟩ := balanced_step h op.1 op.2
    obtain ⟨tree', statuses, es', hrun, hlast⟩ := ih hnext
    refine ⟨tree', status :: statuses, es', ?_, hlast⟩
    simp only [insertAll, hins, ok_bind, hrun]

theorem reaches_subtree {nodes : List BPTreeNode} {h : ℕ} (t : NodeTree h) {parent : Option Ptr}
    {atRoot : Bool} {d : ℕ} {p : Ptr} (hown : Owns nodes t parent) (hnodup : t.labels.Nodup)
    (hsized : Sized bptreeMaxKeys atRoot t) (hreach : Reaches nodes d t.label p) :
    ∃ (k : ℕ) (u : NodeTree k) (parent' : Option Ptr), h = k + d ∧ u.label = p ∧
      Owns nodes u parent' ∧ u.labels.Nodup ∧
      Sized bptreeMaxKeys (atRoot && decide (d = 0)) u := by
  induction d generalizing h parent atRoot with
  | zero =>
    obtain rfl : p = t.label := by
      cases hreach
      rfl
    exact ⟨h, t, parent, rfl, rfl, hown, hnodup, by simpa using hsized⟩
  | succ d ih =>
    cases hreach with
    | @child _ _ c _ node i hnode hbranch hi hc hrest =>
      cases h with
      | zero =>
        obtain ⟨node', hnode', hleaf⟩ := hown
        obtain rfl : node' = node := Option.some.inj (hnode'.symm.trans hnode)
        rw [hleaf.isLeaf] at hbranch
        cases hbranch
      | succ h =>
        obtain ⟨⟨node', hnode', hb⟩, hkids⟩ := hown
        obtain rfl : node' = node := Option.some.inj (hnode'.symm.trans hnode)
        obtain ⟨-, -, -, hcount, hsizes⟩ := hsized
        have hlt : i < t.toBranch.children.length := by
          rw [hcount, ← hb.count]
          omega
        have hmem := List.getElem_mem hlt
        have hslot := hb.children i (some (t.toBranch.children[i]).label) (by simp [hlt])
        obtain rfl : c = (t.toBranch.children[i]).label := by simpa using hc.symm.trans hslot
        have hsub : (t.toBranch.children[i]).labels.Nodup :=
          (List.nodup_flatMap.mp (List.nodup_cons.mp hnodup).2).1 _ hmem
        obtain ⟨k, u, parent', hk, hu, hou, hnu, hsu⟩ :=
          ih _ (hkids _ hmem) hsub (hsizes _ hmem) hrest
        refine ⟨k, u, parent', by omega, hu, hou, hnu, by simpa using hsu⟩

theorem kids_sublist {h : ℕ} (cs : List (NodeTree h)) :
    (cs.map Tree.label).Sublist (cs.flatMap Tree.labels) := by
  induction cs with
  | nil => exact List.Sublist.slnil
  | cons c cs ih =>
    rw [List.map_cons, List.flatMap_cons, ← List.singleton_append]
    exact (List.singleton_sublist.mpr (label_mem c)).append ih

structure NodeBounds (below : Bool) (node : BPTreeNode) : Prop where
  leaf : below = true → node.isLeaf = true → 32 ≤ node.keyCount ∧ node.keyCount ≤ 63
  branch : below = true → node.isLeaf = false → 31 ≤ node.keyCount ∧ node.keyCount ≤ 63
  kids : node.isLeaf = false → 1 ≤ node.keyCount ∧ ∃ kids : List Ptr,
    kids.length = node.keyCount + 1 ∧ kids.Nodup ∧ Holds node.children (kids.map some)

theorem nodeBounds_sized {nodes : List BPTreeNode} {k : ℕ} {u : NodeTree k} {parent : Option Ptr}
    {below : Bool} {node : BPTreeNode} (hown : Owns nodes u parent) (hnodup : u.labels.Nodup)
    (hsized : Sized bptreeMaxKeys (!below) u) (hnode : nodes[u.label]? = some node) :
    NodeBounds below node := by
  cases k with
  | zero =>
    obtain ⟨node', hnode', hleaf⟩ := hown
    obtain rfl : node' = node := Option.some.inj (hnode'.symm.trans hnode)
    obtain ⟨hmin, hmax⟩ := hsized
    rw [← hleaf.count] at hmin hmax
    refine ⟨fun hbelow _ => ⟨hmin (by simp [hbelow]), hmax⟩, ?_, ?_⟩
    · intro _ hbranch
      rw [hleaf.isLeaf] at hbranch
      cases hbranch
    · intro hbranch
      rw [hleaf.isLeaf] at hbranch
      cases hbranch
  | succ k =>
    obtain ⟨⟨node', hnode', hb⟩, -⟩ := hown
    obtain rfl : node' = node := Option.some.inj (hnode'.symm.trans hnode)
    obtain ⟨hone, hmin, hmax, hcount, -⟩ := hsized
    rw [← hb.count] at hone hmin hmax hcount
    refine ⟨?_, fun hbelow _ => ⟨hmin (by simp [hbelow]), hmax⟩, fun _ => ⟨hone, ?_⟩⟩
    · intro _ hleaf
      rw [hb.isBranch] at hleaf
      cases hleaf
    · refine ⟨u.toBranch.children.map Tree.label, by simpa using hcount, ?_, hb.children⟩
      exact (kids_sublist _).nodup (List.nodup_cons.mp hnodup).2

theorem keys_of_depth {tree : BPTree} {t : RootTree} (hlayout : Layout tree t)
    (hsized : Sized bptreeMaxKeys true t.tree) {d : ℕ} (hheight : t.height = d) (hd : 1 ≤ d) :
    2 * 32 ^ d ≤ tree.keyCount := by
  obtain ⟨h, t⟩ := t
  cases h with
  | zero =>
    dsimp only at hheight
    omega
  | succ h =>
    dsimp only at hheight
    have hroot := entries_root t hsized
    rw [hlayout.count, ← hheight, pow_succ']
    exact hroot

/-- In every tree that a run of inserts builds, nodes below the root are at least half full, an
internal root has two children, and the number of keys is exponential in the depth of a leaf. -/
theorem inserts_keep_balance (ops : List (UInt64 × Int)) :
    ∃ tree statuses, insertAll bptreeInit ops = .ok (tree, statuses) ∧
      (∀ root d p node, tree.root = some root → Reaches tree.nodes d root p →
        tree.nodes[p]? = some node →
        (p ≠ root → node.isLeaf = true → 32 ≤ node.keyCount ∧ node.keyCount ≤ 63) ∧
        (p ≠ root → node.isLeaf = false → 31 ≤ node.keyCount ∧ node.keyCount ≤ 63) ∧
        (node.isLeaf = false → 1 ≤ node.keyCount ∧ ∃ kids : List Ptr,
          kids.length = node.keyCount + 1 ∧ kids.Nodup ∧ Holds node.children (kids.map some))) ∧
      ∀ root d q node, tree.root = some root → Reaches tree.nodes d root q →
        tree.nodes[q]? = some node → node.isLeaf = true → 1 ≤ d →
        2 * 32 ^ d ≤ tree.keyCount ∧ d ≤ Nat.log 32 (tree.keyCount / 2) := by
  have hinit : Balanced bptreeInit [] := .empty rfl rfl
  obtain ⟨tree, statuses, es, hrun, hbal⟩ := balanced_run ops hinit
  refine ⟨tree, statuses, hrun, ?_⟩
  cases hbal with
  | empty hroot _ =>
    constructor
    · intro root d p node hsome
      rw [hroot] at hsome
      cases hsome
    · intro root d q node hsome
      rw [hroot] at hsome
      cases hsome
  | node t hlayout hsized =>
    have hsub : ∀ root d p, tree.root = some root → Reaches tree.nodes d root p →
        ∃ (k : ℕ) (u : NodeTree k) (parent : Option Ptr), t.height = k + d ∧ u.label = p ∧
          Owns tree.nodes u parent ∧ u.labels.Nodup ∧
          Sized bptreeMaxKeys (decide (d = 0)) u := by
      intro root d p hsome hreach
      rw [hlayout.root, Option.some.injEq] at hsome
      rw [← hsome] at hreach
      simpa using reaches_subtree t.tree hlayout.owned hlayout.distinct hsized hreach
    constructor
    · intro root d p node hsome hreach hnode
      obtain ⟨k, u, parent, -, rfl, hown, hnodup, hsz⟩ := hsub root d p hsome hreach
      have hbounds : NodeBounds (decide (d ≠ 0)) node :=
        nodeBounds_sized hown hnodup (by simpa using hsz) hnode
      have hbelow : u.label ≠ root → decide (d ≠ 0) = true := by
        intro hne
        cases hreach with
        | here => exact absurd rfl hne
        | child => simp
      exact ⟨fun hne => hbounds.leaf (hbelow hne), fun hne => hbounds.branch (hbelow hne),
        hbounds.kids⟩
    · intro root d q node hsome hreach hnode hleaf hd
      obtain ⟨k, u, parent, hheight, rfl, hown, -, -⟩ := hsub root d q hsome hreach
      cases k with
      | succ k =>
        obtain ⟨⟨node', hnode', hb⟩, -⟩ := hown
        obtain rfl : node' = node := Option.some.inj (hnode'.symm.trans hnode)
        rw [hb.isBranch] at hleaf
        cases hleaf
      | zero =>
        have hkeys := keys_of_depth hlayout hsized (hheight.trans (Nat.zero_add d)) hd
        refine ⟨hkeys, Nat.le_log_of_pow_le (by decide) ?_⟩
        omega

end BPTreeBalance
