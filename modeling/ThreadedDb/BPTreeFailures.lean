import ThreadedDb.BPTreeValidation

/-!
# Inserts without memory

`split_leaf_and_insert` allocates the new leaf before it changes anything, but it has rewritten the
old leaf when an allocation further up fails. So an insert that fails changes nothing if its first
allocation fails, and leaves half of a leaf out of the tree if a later one does.
-/
namespace BPTreeFailures

open CheckedArray
open BPTreeHeap
open BPTreeOwnership
open LabelledBPlusTree
open BPTreeInsertion
open BPTreeMap
open BPTreeValidation

/-- The key is there already, or the first allocation fails, or none that the call needs does. -/
def Survivable (plan : AllocPlan) (tree : BPTree) (key : UInt64) : Prop :=
  (∃ offset, bptreeSearch tree key = .ok (.ok (some offset))) ∨ plan.headD true = false ∨
    Grants plan (neededNodes tree key)

theorem bptreeInsert_refused {tree : BPTree} {es : List (UInt64 × Int)} (hd : Denotes tree es)
    {key : UInt64} (hnew : key ∉ es.map Prod.fst) (offset : Int) {plan : AllocPlan}
    (hplan : plan.headD true = false) (hneeded : neededNodes tree key ≠ 0) :
    bptreeInsert plan tree key offset = .ok (tree, .error .outOfMemory) := by
  cases hd with
  | empty hroot _ => simp only [bptreeInsert, hroot, createNode_refused hplan]
  | node t hl =>
    obtain ⟨leaf, c, node, rfl, hn, hleaf, -, hfind, -, -⟩ := layout_descends hl key
    rw [hl.root] at hfind
    have hsorted := ((ordered_leaf _ _ _).mp (ordered_focus c _ hl.ordered)).1
    have hfull : ¬ node.keyCount < bptreeMaxKeys := by
      intro hroom
      apply hneeded
      simp only [neededNodes, hl.root, hfind, hn, if_pos hroom]
    have hnewleaf := fun hmem => hnew (leaf_key_mem c leaf hmem)
    simp only [bptreeInsert, hl.root, hfind, ok_bind, deref, hn, if_neg hfull,
      splitLeaf_refused hplan hn hleaf hsorted hnewleaf offset]

theorem survivable_step {tree : BPTree} {es : List (UInt64 × Int)} (hd : Denotes tree es)
    {plan : AllocPlan} {key : UInt64} (h : Survivable plan tree key) (offset : Int) :
    (∃ tree' es', bptreeInsert plan tree key offset = .ok (tree', .ok ()) ∧ Denotes tree' es') ∨
      ∃ e, bptreeInsert plan tree key offset = .ok (tree, .error e) := by
  by_cases hmem : key ∈ es.map Prod.fst
  · exact .inr ⟨_, bptreeInsert_rejects hd hmem offset plan⟩
  have hgranted (hplan : Grants plan (neededNodes tree key)) :
      ∃ tree' es', bptreeInsert plan tree key offset = .ok (tree', .ok ()) ∧ Denotes tree' es' := by
    obtain ⟨tree', hins, hd'⟩ := bptreeInsert_granted hd hmem offset hplan
    exact ⟨tree', _, hins, hd'⟩
  rcases h with ⟨offset', hfound⟩ | hfirst | hplan
  · rw [bptreeSearch_lookup hd, lookup_none_of_notMem hmem] at hfound
    cases hfound
  · by_cases hneeded : neededNodes tree key = 0
    · refine .inl (hgranted ?_)
      intro i hi
      omega
    · exact .inr ⟨_, bptreeInsert_refused hd hmem offset hfirst hneeded⟩
  · exact .inl (hgranted hplan)

inductive Reachable : BPTree → Prop
  | init : Reachable bptreeInit
  | insert {tree tree' : BPTree} {plan : AllocPlan} {key : UInt64} {offset : Int}
      {status : IndexStatus} : Reachable tree → Survivable plan tree key →
      bptreeInsert plan tree key offset = .ok (tree', status) → Reachable tree'

theorem reachable_denotes {tree : BPTree} (h : Reachable tree) : ∃ es, Denotes tree es := by
  induction h with
  | init => exact ⟨[], denotes_init⟩
  | @insert tree tree' plan key offset status _ hsafe hins ih =>
    obtain ⟨es, hd⟩ := ih
    rcases survivable_step hd hsafe offset with ⟨tree'', es', hins', hd'⟩ | ⟨e, hins'⟩
    · rw [hins] at hins'
      cases hins'
      exact ⟨es', hd'⟩
    · rw [hins] at hins'
      cases hins'
      exact ⟨es, hd⟩

theorem reachable_insertAll {tree tree' : BPTree} {ops : List (UInt64 × Int)}
    {statuses : List IndexStatus} (hreach : Reachable tree)
    (hrun : insertAll tree ops = .ok (tree', statuses)) : Reachable tree' := by
  induction ops generalizing tree statuses with
  | nil =>
    cases hrun
    exact hreach
  | cons op ops ih =>
    obtain ⟨key, offset⟩ := op
    obtain ⟨⟨next, status⟩, hins, hrun⟩ := bind_eq_ok.mp hrun
    obtain ⟨⟨last, rest⟩, hrest, hrun⟩ := bind_eq_ok.mp hrun
    cases hrun
    exact ih (.insert hreach (.inr (.inr (grants_nil _))) hins) hrest

/-- Along every run of such calls, a call that returns an error has changed neither the searches
nor the count, and the tree validates. -/
theorem failed_insert_changes_nothing {tree : BPTree} (hreach : Reachable tree) {plan : AllocPlan}
    {key : UInt64} (hsafe : Survivable plan tree key) (offset : Int) :
    ∃ tree' status, bptreeInsert plan tree key offset = .ok (tree', status) ∧
      bptreeValidate tree' = .ok (.ok ()) ∧
      (status ≠ .ok () → (∀ k, bptreeSearch tree' k = bptreeSearch tree k) ∧
        tree'.keyCount = tree.keyCount) := by
  obtain ⟨es, hd⟩ := reachable_denotes hreach
  rcases survivable_step hd hsafe offset with ⟨tree', es', hins, hd'⟩ | ⟨e, hins⟩
  · exact ⟨tree', _, hins, bptreeValidate_denotes hd', fun hfailed => absurd rfl hfailed⟩
  · exact ⟨tree, _, hins, bptreeValidate_denotes hd, fun _ => ⟨fun _ => rfl, rfl⟩⟩

def oneLeaf : List (UInt64 × Int) := (List.range 63).map (fun i => (UInt64.ofNat i, (i : Int)))

/-- A run, a search, one more call, and the search and the validation after it. -/
def probe (ops : List (UInt64 × Int)) (plan : AllocPlan) (key : UInt64) (offset : Int)
    (searched : UInt64) : Checked (Except IndexError (Option Int) × IndexStatus ×
      Except IndexError (Option Int) × IndexStatus) := do
  let (tree, _) ← insertAll bptreeInit ops
  let before ← bptreeSearch tree searched
  let (tree, status) ← bptreeInsert plan tree key offset
  let after ← bptreeSearch tree searched
  let verdict ← bptreeValidate tree
  .ok (before, status, after, verdict)

theorem probe_cases {ops : List (UInt64 × Int)} {plan : AllocPlan} {key searched : UInt64}
    {offset : Int} {before after : Except IndexError (Option Int)} {status verdict : IndexStatus}
    (h : probe ops plan key offset searched = .ok (before, status, after, verdict)) :
    ∃ tree statuses tree', insertAll bptreeInit ops = .ok (tree, statuses) ∧
      bptreeInsert plan tree key offset = .ok (tree', status) ∧
      bptreeSearch tree searched = .ok before ∧ bptreeSearch tree' searched = .ok after := by
  unfold probe at h
  obtain ⟨⟨tree, statuses⟩, hrun, h⟩ := bind_eq_ok.mp h
  obtain ⟨before', hbefore, h⟩ := bind_eq_ok.mp h
  obtain ⟨⟨tree', status'⟩, hins, h⟩ := bind_eq_ok.mp h
  obtain ⟨after', hafter, h⟩ := bind_eq_ok.mp h
  obtain ⟨verdict', -, h⟩ := bind_eq_ok.mp h
  cases h
  exact ⟨tree, statuses, tree', hrun, hins, hbefore, hafter⟩

/-- The 64th key, without memory for a second leaf. -/
theorem full_leaf_refuses :
    ∃ tree statuses tree', insertAll bptreeInit oneLeaf = .ok (tree, statuses) ∧
      bptreeInsert [false] tree 63 63 = .ok (tree', .error .outOfMemory) ∧
      bptreeValidate tree' = .ok (.ok ()) ∧
      (∀ k, bptreeSearch tree' k = bptreeSearch tree k) ∧ tree'.keyCount = tree.keyCount := by
  have hprobe : probe oneLeaf [false] 63 63 40 =
      .ok (.ok (some 40), .error .outOfMemory, .ok (some 40), .ok ()) := by decide +kernel
  obtain ⟨tree, statuses, tree', hrun, hins, -, -⟩ := probe_cases hprobe
  obtain ⟨tree'', status, hins', hvalid, hsame⟩ := failed_insert_changes_nothing
    (reachable_insertAll .init hrun) (.inr (.inl rfl) : Survivable [false] tree 63) 63
  rw [hins] at hins'
  cases hins'
  obtain ⟨hsearch, hcount⟩ := hsame (by simp)
  exact ⟨tree, statuses, tree', hrun, hins, hvalid, hsearch, hcount⟩

/-- The 64th key, with memory for a second leaf and none for a root above the two: the upper
half of the keys is lost to searches. -/
theorem upper_half_lost :
    ¬ ∀ (ops : List (UInt64 × Int)) (tree : BPTree) (statuses : List IndexStatus),
      insertAll bptreeInit ops = .ok (tree, statuses) →
      ∀ (plan : AllocPlan) (key : UInt64) (offset : Int) (tree' : BPTree) (e : IndexError),
        bptreeInsert plan tree key offset = .ok (tree', .error e) →
        (∀ k, bptreeSearch tree' k = bptreeSearch tree k) ∧ tree'.keyCount = tree.keyCount ∧
          bptreeValidate tree' = .ok (.ok ()) := by
  intro hclaim
  have hprobe : probe oneLeaf [true, false] 63 63 40 =
      .ok (.ok (some 40), .error .outOfMemory, .ok none, .error .keyCountMismatch) := by
    decide +kernel
  obtain ⟨tree, statuses, tree', hrun, hins, hbefore, hafter⟩ := probe_cases hprobe
  have hsame := (hclaim oneLeaf tree statuses hrun _ _ _ tree' _ hins).1 40
  rw [hbefore, hafter] at hsame
  cases hsame

end BPTreeFailures
