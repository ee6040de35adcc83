import ThreadedDb.CheckedArray
import ThreadedDb.ByteText

/-!
# The B+Tree over its heap of nodes

`bptree.c` as it computes: nodes with fixed arrays, `parent`, `next` and child pointers, and
the loops that shift and copy array slots. Each tree owns its nodes, so the heap is part of the
tree; a pointer is an index into it and a new node is put at its end. The two members of the
`ptrs` union are separate fields, since `is_leaf` never changes and selects one of them.

`create_node` can fail: an allocation plan says, call by call, whether it does, and every call
past the end of the plan succeeds. Loops and recursion along pointers are bounded by the number
of nodes; exceeding the bound is the fault of a program that does not return.
-/
namespace BPTreeHeap

open CheckedArray
open ByteText (CString setError decimal)

def bptreeOrder : ℕ := 64
abbrev bptreeMaxKeys : ℕ := 63
abbrev bptreeMaxChildren : ℕ := 64

abbrev Ptr := ℕ

instance linearOrderUInt64 : LinearOrder UInt64 where
  le_refl _ := UInt64.le_refl _
  le_trans _ _ _ := UInt64.le_trans
  le_antisymm _ _ := UInt64.le_antisymm
  le_total := UInt64.le_total
  lt_iff_le_not_ge a b := by
    simp only [UInt64.lt_iff_toNat_lt, UInt64.le_iff_toNat_le]
    omega
  toDecidableLE := inferInstance
  toDecidableEq := inferInstance
  toDecidableLT := inferInstance

structure BPTreeNode where
  isLeaf : Bool
  keyCount : ℕ
  keys : Vector UInt64 bptreeMaxKeys
  parent : Option Ptr
  next : Option Ptr
  children : Vector (Option Ptr) bptreeMaxChildren
  rowOffsets : Vector Int bptreeMaxKeys
  deriving DecidableEq

structure BPTree where
  nodes : List BPTreeNode
  root : Option Ptr
  keyCount : ℕ
  deriving DecidableEq

/-- What makes a function of `bptree.c` return `STATUS_INDEX_ERROR`. -/
inductive IndexError where
  | outOfMemory
  | duplicateKey (key : UInt64)
  | invalidParentInsertion
  | invalidLeafSplit
  | invalidInternalSplit
  | brokenParentChild
  | noLeaf
  | noInsertionLeaf
  | nullNode
  | invalidParentPointer
  | keyCountOverflow
  | keysNotIncreasing
  | leafKeyOutsideRange
  | leafDepthMismatch
  | nullChild
  | invalidChildRange
  | emptyTreeKeyCount
  | chainInternalNode
  | chainNotSorted
  | keyCountMismatch
  deriving DecidableEq, Repr

def IndexError.message : IndexError → CString
  | outOfMemory => .lit "INDEX ERROR: out of memory"
  | duplicateKey key => setError (.lit "INDEX ERROR: duplicate key " ++ decimal key.toNat)
  | invalidParentInsertion => .lit "INDEX ERROR: invalid parent insertion arguments"
  | invalidLeafSplit => .lit "INDEX ERROR: invalid leaf split arguments"
  | invalidInternalSplit => .lit "INDEX ERROR: invalid internal split arguments"
  | brokenParentChild => .lit "INDEX ERROR: parent-child relationship is broken"
  | noLeaf => .lit "INDEX ERROR: failed to locate leaf"
  | noInsertionLeaf => .lit "INDEX ERROR: failed to locate insertion leaf"
  | nullNode => .lit "INDEX ERROR: null node encountered"
  | invalidParentPointer => .lit "INDEX ERROR: invalid parent pointer"
  | keyCountOverflow => .lit "INDEX ERROR: key count overflow"
  | keysNotIncreasing => .lit "INDEX ERROR: keys are not strictly increasing"
  | leafKeyOutsideRange => .lit "INDEX ERROR: leaf key outside allowed range"
  | leafDepthMismatch => .lit "INDEX ERROR: leaf depth mismatch"
  | nullChild => .lit "INDEX ERROR: internal node has null child"
  | invalidChildRange => .lit "INDEX ERROR: invalid child key range"
  | emptyTreeKeyCount => .lit "INDEX ERROR: empty tree has non-zero key count"
  | chainInternalNode => .lit "INDEX ERROR: leaf chain contains internal node"
  | chainNotSorted => .lit "INDEX ERROR: leaf chain is not sorted"
  | keyCountMismatch => .lit "INDEX ERROR: key count mismatch"

abbrev IndexStatus := Except IndexError Unit

abbrev AllocPlan := List Bool

def blankNode (isLeaf : Bool) : BPTreeNode where
  isLeaf := isLeaf
  keyCount := 0
  keys := Vector.replicate _ 0
  parent := none
  next := none
  children := Vector.replicate _ none
  rowOffsets := Vector.replicate _ 0

/-- `create_node`: the pointer, if the allocation succeeds, and the heap with the new node. -/
def createNode (plan : AllocPlan) (nodes : List BPTreeNode) (isLeaf : Bool) :
    Option Ptr × List BPTreeNode :=
  if plan.headD true then (some nodes.length, nodes ++ [blankNode isLeaf]) else (none, nodes)

def deref (nodes : List BPTreeNode) (p : Ptr) : Checked BPTreeNode :=
  match nodes[p]? with
  | some node => .ok node
  | none => .error .badPointer

/-- Assign through a pointer: the node at `p` becomes `f` of itself. -/
def assign (nodes : List BPTreeNode) (p : Ptr) (f : BPTreeNode → BPTreeNode) :
    Checked (List BPTreeNode) := do
  let node ← deref nodes p
  .ok (nodes.set p (f node))

def findLeafNode (nodes : List BPTreeNode) (key : UInt64) : ℕ → Option Ptr → Checked (Option Ptr)
  | _, none => .ok none
  | 0, some _ => .error .unbounded
  | fuel + 1, some p => do
    let node ← deref nodes p
    if node.isLeaf then .ok (some p)
    else do
      let childIndex ← advance node.keys (· ≤ key) node.keyCount node.keyCount 0
      let child ← read node.children childIndex
      findLeafNode nodes key fuel child

/-- The index of the first key not below `key`, and whether `key` stands there. -/
def insertPosition (leaf : BPTreeNode) (key : UInt64) : Checked (ℕ × Bool) := do
  let insertIndex ← advance leaf.keys (· < key) leaf.keyCount leaf.keyCount 0
  if insertIndex < leaf.keyCount then do
    let found ← read leaf.keys insertIndex
    .ok (insertIndex, found == key)
  else .ok (insertIndex, false)

/-- `insert_into_leaf`: the changed leaf, or nothing when the key is a duplicate. -/
def insertIntoLeaf (leaf : BPTreeNode) (key : UInt64) (rowOffset : Int) :
    Checked (Option BPTreeNode) := do
  let (insertIndex, duplicate) ← insertPosition leaf key
  if duplicate then .ok none
  else do
    let keys ← shiftUp leaf.keys insertIndex leaf.keyCount
    let rowOffsets ← shiftUp leaf.rowOffsets insertIndex leaf.keyCount
    let keys ← write keys insertIndex key
    let rowOffsets ← write rowOffsets insertIndex rowOffset
    .ok (some { leaf with keys := keys, rowOffsets := rowOffsets, keyCount := leaf.keyCount + 1 })

def insertIntoInternalNode (nodes : List BPTreeNode) (p : Ptr) (leftChildIndex : ℕ)
    (separatorKey : UInt64) (rightChild : Ptr) : Checked (List BPTreeNode) := do
  let node ← deref nodes p
  let keys ← shiftUp node.keys leftChildIndex node.keyCount
  let children ← shiftUp node.children (leftChildIndex + 1) (node.keyCount + 1)
  let keys ← write keys leftChildIndex separatorKey
  let children ← write children (leftChildIndex + 1) (some rightChild)
  let nodes ← assign nodes p (fun node => { node with keys := keys, children := children })
  let nodes ← assign nodes rightChild (fun child => { child with parent := some p })
  assign nodes p (fun node => { node with keyCount := node.keyCount + 1 })

/-- Copy `count` slots into a temporary array, leaving a gap of one slot at `gap` for `x`. -/
def gather {α : Type} {n m : ℕ} (src : Vector α n) (gap count : ℕ) (x : α) :
    Checked (Vector (Option α) m) := do
  let fetch := fun i => some <$> read src i
  let temp ← fill fetch (Vector.replicate m none) 0 0 gap
  let temp ← write temp gap (some x)
  fill fetch temp 1 gap (count - gap)

/-- `children[i]->parent = p;` for each child pointer that is not `NULL`. -/
def reparent (nodes : List BPTreeNode) (p : Ptr) : List (Option Ptr) → Checked (List BPTreeNode)
  | [] => .ok nodes
  | none :: rest => reparent nodes p rest
  | some c :: rest => do
    let nodes ← assign nodes c (fun child => { child with parent := some p })
    reparent nodes p rest

structure Promotion where
  nodes : List BPTreeNode
  promotedKey : UInt64
  rightNode : Ptr

/-- `split_internal_and_insert` up to its call of `insert_into_parent`. -/
def splitInternalAndInsert (plan : AllocPlan) (nodes : List BPTreeNode) (p : Ptr)
    (leftChildIndex : ℕ) (separatorKey : UInt64) (rightChild : Option Ptr) :
    Checked (Except IndexError Promotion) := do
  match rightChild with
  | none => .ok (.error .invalidInternalSplit)
  | some rightChild => do
    let node ← deref nodes p
    let tempKeys : Vector (Option UInt64) bptreeOrder ←
      gather node.keys leftChildIndex node.keyCount separatorKey
    let tempChildren : Vector (Option (Option Ptr)) (bptreeOrder + 1) ←
      gather node.children (leftChildIndex + 1) (node.keyCount + 1) (some rightChild)
    match createNode plan nodes false with
    | (none, _) => .ok (.error .outOfMemory)
    | (some rightNode, nodes) => do
      let totalKeys := node.keyCount + 1
      let splitIndex := totalKeys / 2
      let promotedKey ← readInit tempKeys splitIndex
      let keys ← fill (readInit tempKeys) (Vector.replicate _ 0) 0 0 splitIndex
      let children ← fill (readInit tempChildren) (Vector.replicate _ none) 0 0 (splitIndex + 1)
      let nodes ← assign nodes p
        (fun node => { node with keyCount := splitIndex, keys := keys, children := children })
      let nodes ← reparent nodes p (children.toList.take (splitIndex + 1))
      let rightKeyCount := totalKeys - splitIndex - 1
      let rightKeys ← fill (fun i => readInit tempKeys (splitIndex + 1 + i))
        (Vector.replicate _ 0) 0 0 rightKeyCount
      let rightChildren ← fill (fun i => readInit tempChildren (splitIndex + 1 + i))
        (Vector.replicate _ none) 0 0 (rightKeyCount + 1)
      let nodes ← assign nodes rightNode (fun right =>
        { right with
          keyCount := rightKeyCount
          parent := node.parent
          keys := rightKeys
          children := rightChildren })
      let nodes ← reparent nodes rightNode (rightChildren.toList.take (rightKeyCount + 1))
      .ok (.ok ⟨nodes, promotedKey, rightNode⟩)

/-- `insert_into_parent`, with the tail call that `split_internal_and_insert` makes. -/
def insertIntoParent : ℕ → AllocPlan → BPTree → Option Ptr → UInt64 → Option Ptr →
    Checked (BPTree × IndexStatus)
  | 0, _, _, _, _, _ => .error .unbounded
  | fuel + 1, plan, tree, some left, separatorKey, some right => do
    let leftNode ← deref tree.nodes left
    match leftNode.parent with
    | none =>
      match createNode plan tree.nodes false with
      | (none, _) => .ok (tree, .error .outOfMemory)
      | (some newRoot, nodes) => do
        let nodes ← assign nodes newRoot (fun node =>
          { node with
            keys := node.keys.set 0 separatorKey
            children := (node.children.set 0 (some left)).set 1 (some right)
            keyCount := 1 })
        let nodes ← assign nodes left (fun node => { node with parent := some newRoot })
        let nodes ← assign nodes right (fun node => { node with parent := some newRoot })
        .ok ({ tree with nodes := nodes, root := some newRoot }, .ok ())
    | some parent => do
      let parentNode ← deref tree.nodes parent
      let leftChildIndex ← advance parentNode.children (· ≠ some left)
        (parentNode.keyCount + 1) (parentNode.keyCount + 1) 0
      if parentNode.keyCount < leftChildIndex then .ok (tree, .error .brokenParentChild)
      else if parentNode.keyCount < bptreeMaxKeys then do
        let nodes ← insertIntoInternalNode tree.nodes parent leftChildIndex separatorKey right
        .ok ({ tree with nodes := nodes }, .ok ())
      else do
        let promotion ← splitInternalAndInsert plan tree.nodes parent leftChildIndex
          separatorKey (some right)
        match promotion with
        | .error e => .ok (tree, .error e)
        | .ok ⟨nodes, promotedKey, rightNode⟩ =>
          insertIntoParent fuel plan.tail { tree with nodes := nodes } (some parent)
            promotedKey (some rightNode)
  | _ + 1, _, tree, _, _, _ => .ok (tree, .error .invalidParentInsertion)

def splitLeafAndInsert (plan : AllocPlan) (tree : BPTree) (leaf : Option Ptr) (key : UInt64)
    (rowOffset : Int) : Checked (BPTree × IndexStatus) := do
  match leaf with
  | none => .ok (tree, .error .invalidLeafSplit)
  | some leaf => do
    let node ← deref tree.nodes leaf
    let (insertIndex, duplicate) ← insertPosition node key
    if duplicate then .ok (tree, .error (.duplicateKey key))
    else do
      let tempKeys : Vector (Option UInt64) bptreeOrder ←
        gather node.keys insertIndex node.keyCount key
      let tempOffsets : Vector (Option Int) bptreeOrder ←
        gather node.rowOffsets insertIndex node.keyCount rowOffset
      match createNode plan tree.nodes true with
      | (none, _) => .ok (tree, .error .outOfMemory)
      | (some newLeaf, nodes) => do
        let totalKeys := node.keyCount + 1
        let leftCount := totalKeys / 2
        let rightCount := totalKeys - leftCount
        let keys ← fill (readInit tempKeys) (Vector.replicate _ 0) 0 0 leftCount
        let rowOffsets ← fill (readInit tempOffsets) (Vector.replicate _ 0) 0 0 leftCount
        let rightKeys ← fill (fun i => readInit tempKeys (leftCount + i))
          (Vector.replicate _ 0) 0 0 rightCount
        let rightOffsets ← fill (fun i => readInit tempOffsets (leftCount + i))
          (Vector.replicate _ 0) 0 0 rightCount
        let nodes ← assign nodes leaf (fun node =>
          { node with
            keyCount := leftCount
            keys := keys
            rowOffsets := rowOffsets
            next := some newLeaf })
        let nodes ← assign nodes newLeaf (fun right =>
          { right with
            keyCount := rightCount
            keys := rightKeys
            rowOffsets := rightOffsets
            next := node.next
            parent := node.parent })
        let separatorKey ← read rightKeys 0
        insertIntoParent (nodes.length + 1) plan.tail { tree with nodes := nodes } (some leaf)
          separatorKey (some newLeaf)

def bptreeInit : BPTree := ⟨[], none, 0⟩

def searchLeaf (leaf : BPTreeNode) (key : UInt64) : ℕ → ℕ → Checked (Option Int)
  | _, 0 => .ok none
  | i, rounds + 1 => do
    let k ← read leaf.keys i
    if k == key then do
      let offset ← read leaf.rowOffsets i
      .ok (some offset)
    else searchLeaf leaf key (i + 1) rounds

/-- `bptree_search`: the offset stored for `key`, nothing when it is not found. -/
def bptreeSearch (tree : BPTree) (key : UInt64) : Checked (Except IndexError (Option Int)) := do
  match tree.root with
  | none => .ok (.ok none)
  | some root => do
    let leaf ← findLeafNode tree.nodes key (tree.nodes.length + 1) (some root)
    match leaf with
    | none => .ok (.error .noLeaf)
    | some leaf => do
      let node ← deref tree.nodes leaf
      let found ← searchLeaf node key 0 node.keyCount
      .ok (.ok found)

/-- `bptree_insert`: the tree is returned on failure too, as the call leaves it. -/
def bptreeInsert (plan : AllocPlan) (tree : BPTree) (key : UInt64) (rowOffset : Int) :
    Checked (BPTree × IndexStatus) := do
  match tree.root with
  | none =>
    match createNode plan tree.nodes true with
    | (none, _) => .ok (tree, .error .outOfMemory)
    | (some root, nodes) => do
      let nodes ← assign nodes root (fun node =>
        { node with
          keys := node.keys.set 0 key
          rowOffsets := node.rowOffsets.set 0 rowOffset
          keyCount := 1 })
      .ok (⟨nodes, some root, 1⟩, .ok ())
  | some root => do
    let leaf ← findLeafNode tree.nodes key (tree.nodes.length + 1) (some root)
    match leaf with
    | none => .ok (tree, .error .noInsertionLeaf)
    | some leaf => do
      let node ← deref tree.nodes leaf
      if node.keyCount < bptreeMaxKeys then do
        let changed ← insertIntoLeaf node key rowOffset
        match changed with
        | none => .ok (tree, .error (.duplicateKey key))
        | some changed => do
          let nodes ← assign tree.nodes leaf (fun _ => changed)
          .ok ({ tree with nodes := nodes, keyCount := tree.keyCount + 1 }, .ok ())
      else do
        let (tree, status) ← splitLeafAndInsert plan tree (some leaf) key rowOffset
        match status with
        | .error e => .ok (tree, .error e)
        | .ok _ => .ok ({ tree with keyCount := tree.keyCount + 1 }, .ok ())

structure ValidationState where
  leafDepth : ℕ
  leafDepthSet : Bool
  deriving DecidableEq

/-- `for (i = 1; i < key_count; ++i)`: are the keys from slot `i - 1` on strictly increasing? -/
def keysIncrease (node : BPTreeNode) : ℕ → ℕ → Checked Bool
  | _, 0 => .ok true
  | i, rounds + 1 => do
    let previous ← read node.keys (i - 1)
    let current ← read node.keys i
    if current ≤ previous then .ok false else keysIncrease node (i + 1) rounds

/-- `has_lower` and `lower_bound`, `has_upper` and `upper_bound`, are one optional key each. -/
def outsideRange (lower upper : Option UInt64) (key : UInt64) : Bool :=
  lower.any (key < ·) || upper.any (· ≤ key)

def keysInRange (node : BPTreeNode) (lower upper : Option UInt64) : ℕ → ℕ → Checked Bool
  | _, 0 => .ok true
  | i, rounds + 1 => do
    let key ← read node.keys i
    if outsideRange lower upper key then .ok false
    else keysInRange node lower upper (i + 1) rounds

def childLower (node : BPTreeNode) (lower : Option UInt64) (i : ℕ) : Checked (Option UInt64) :=
  if 0 < i then some <$> read node.keys (i - 1) else .ok lower
def childUpper (node : BPTreeNode) (upper : Option UInt64) (i : ℕ) : Checked (Option UInt64) :=
  if i < node.keyCount then some <$> read node.keys i else .ok upper

abbrev Verdict := Except IndexError ValidationState

/-- The loop of `validate_node` over the children; `visit` is the recursive call. -/
def validateChildren
    (visit : Ptr → Option UInt64 → Option UInt64 → ValidationState → Checked Verdict)
    (node : BPTreeNode) (lower upper : Option UInt64) : ℕ → ℕ → ValidationState → Checked Verdict
  | _, 0, state => .ok (.ok state)
  | i, rounds + 1, state => do
    let child ← read node.children i
    match child with
    | none => .ok (.error .nullChild)
    | some child => do
      let lo ← childLower node lower i
      let hi ← childUpper node upper i
      if lo.any (fun l => hi.any (· ≤ l)) then .ok (.error .invalidChildRange)
      else do
        let verdict ← visit child lo hi state
        match verdict with
        | .error e => .ok (.error e)
        | .ok state => validateChildren visit node lower upper (i + 1) rounds state

def validateNode (nodes : List BPTreeNode) : ℕ → Option Ptr → Option Ptr → Option UInt64 →
    Option UInt64 → ℕ → ValidationState → Checked Verdict
  | 0, _, _, _, _, _, _ => .error .unbounded
  | _ + 1, none, _, _, _, _, _ => .ok (.error .nullNode)
  | fuel + 1, some p, expectedParent, lower, upper, depth, state => do
    let node ← deref nodes p
    if node.parent ≠ expectedParent then .ok (.error .invalidParentPointer)
    else if bptreeMaxKeys < node.keyCount then .ok (.error .keyCountOverflow)
    else do
      let increasing ← keysIncrease node 1 (node.keyCount - 1)
      if !increasing then .ok (.error .keysNotIncreasing)
      else if node.isLeaf then do
        let inRange ← keysInRange node lower upper 0 node.keyCount
        if !inRange then .ok (.error .leafKeyOutsideRange)
        else if !state.leafDepthSet then .ok (.ok ⟨depth, true⟩)
        else if state.leafDepth ≠ depth then .ok (.error .leafDepthMismatch)
        else .ok (.ok state)
      else
        validateChildren
          (fun child lo hi st => validateNode nodes fuel (some child) (some p) lo hi (depth + 1) st)
          node lower upper 0 (node.keyCount + 1) state

def findLeftmostLeaf (nodes : List BPTreeNode) : ℕ → Option Ptr → Checked (Option Ptr)
  | _, none => .ok none
  | 0, some _ => .error .unbounded
  | fuel + 1, some p => do
    let node ← deref nodes p
    if node.isLeaf then .ok (some p)
    else do
      let child ← read node.children 0
      findLeftmostLeaf nodes fuel child

/-- One leaf of the chain: the last key so far and the number of keys, or an unsorted pair. -/
def chainKeys (leaf : BPTreeNode) : ℕ → ℕ → Option UInt64 → ℕ →
    Checked (Option (Option UInt64 × ℕ))
  | _, 0, previous, counted => .ok (some (previous, counted))
  | i, rounds + 1, previous, counted => do
    let key ← read leaf.keys i
    if previous.any (key ≤ ·) then .ok none
    else chainKeys leaf (i + 1) rounds (some key) (counted + 1)

def validateChain (nodes : List BPTreeNode) : ℕ → Option Ptr → Option UInt64 → ℕ →
    Checked (Except IndexError ℕ)
  | _, none, _, counted => .ok (.ok counted)
  | 0, some _, _, _ => .error .unbounded
  | fuel + 1, some p, previous, counted => do
    let leaf ← deref nodes p
    if !leaf.isLeaf then .ok (.error .chainInternalNode)
    else do
      let outcome ← chainKeys leaf 0 leaf.keyCount previous counted
      match outcome with
      | none => .ok (.error .chainNotSorted)
      | some (previous, counted) => validateChain nodes fuel leaf.next previous counted

def bptreeValidate (tree : BPTree) : Checked IndexStatus := do
  match tree.root with
  | none =>
    if tree.keyCount ≠ 0 then .ok (.error .emptyTreeKeyCount) else .ok (.ok ())
  | some root => do
    let verdict ← validateNode tree.nodes (tree.nodes.length + 1) (some root) none none none 0
      ⟨0, false⟩
    match verdict with
    | .error e => .ok (.error e)
    | .ok _ => do
      let leaf ← findLeftmostLeaf tree.nodes (tree.nodes.length + 1) (some root)
      let counted ← validateChain tree.nodes (tree.nodes.length + 1) leaf none 0
      match counted with
      | .error e => .ok (.error e)
      | .ok counted =>
        if counted ≠ tree.keyCount then .ok (.error .keyCountMismatch) else .ok (.ok ())

end BPTreeHeap
