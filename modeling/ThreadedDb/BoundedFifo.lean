import Mathlib

/-!
# Bounded first-in first-out queues

The abstract queue: a list of at most `capacity` items that can be closed. A closed queue takes
no item any more and still gives out the ones that it has. Over a run from the empty queue the
items given out and then the ones still inside are exactly the items taken, in order.
-/
namespace BoundedFifo

variable {α : Type}

structure Fifo (α : Type) where
  items : List α
  closed : Bool

def Fifo.empty : Fifo α := ⟨[], false⟩

inductive Label (α : Type) where
  | accept (a : α)
  | full (a : α)
  | refuse (a : α)
  | deliver (a : α)
  | drained
  | close

inductive Step (capacity : ℕ) : Fifo α → Label α → Fifo α → Prop
  | accept {items : List α} (a : α) : items.length < capacity →
      Step capacity ⟨items, false⟩ (.accept a) ⟨items ++ [a], false⟩
  | full {items : List α} (a : α) : items.length = capacity →
      Step capacity ⟨items, false⟩ (.full a) ⟨items, false⟩
  | refuse {items : List α} (a : α) : Step capacity ⟨items, true⟩ (.refuse a) ⟨items, true⟩
  | deliver {items : List α} {closed : Bool} (a : α) :
      Step capacity ⟨a :: items, closed⟩ (.deliver a) ⟨items, closed⟩
  | drained : Step capacity ⟨[], true⟩ .drained ⟨[], true⟩
  | close {items : List α} {closed : Bool} : Step capacity ⟨items, closed⟩ .close ⟨items, true⟩

inductive Run (capacity : ℕ) : Fifo α → List (Label α) → Fifo α → Prop
  | nil (q : Fifo α) : Run capacity q [] q
  | snoc {q q' q'' : Fifo α} {labels : List (Label α)} {label : Label α} :
      Run capacity q labels q' → Step capacity q' label q'' →
      Run capacity q (labels ++ [label]) q''

def taken : Label α → Option α
  | .accept a => some a
  | _ => none

def given : Label α → Option α
  | .deliver a => some a
  | _ => none

def accepted (labels : List (Label α)) : List α := labels.filterMap taken

def delivered (labels : List (Label α)) : List α := labels.filterMap given

theorem accepted_snoc (labels : List (Label α)) (label : Label α) :
    accepted (labels ++ [label]) = accepted labels ++ (taken label).toList := by
  rw [accepted, List.filterMap_append]
  cases label <;> rfl

theorem delivered_snoc (labels : List (Label α)) (label : Label α) :
    delivered (labels ++ [label]) = delivered labels ++ (given label).toList := by
  rw [delivered, List.filterMap_append]
  cases label <;> rfl

variable {capacity : ℕ} {q q' : Fifo α} {labels : List (Label α)}

theorem run_fifo (h : Run capacity q labels q') :
    q.items ++ accepted labels = delivered labels ++ q'.items := by
  induction h with
  | nil => exact List.append_nil _
  | @snoc q₁ q₂ labels label _ hstep ih =>
    have hstep : q₁.items ++ (taken label).toList = (given label).toList ++ q₂.items := by
      cases hstep <;> simp [taken, given]
    calc q.items ++ accepted (labels ++ [label])
        = delivered labels ++ (q₁.items ++ (taken label).toList) := by
          rw [accepted_snoc, ← List.append_assoc, ih, List.append_assoc]
      _ = delivered (labels ++ [label]) ++ q₂.items := by
          rw [hstep, delivered_snoc, List.append_assoc]

theorem run_last {label : Label α} (h : Run capacity q (labels ++ [label]) q') :
    ∃ m, Run capacity q labels m ∧ Step capacity m label q' := by
  generalize hall : labels ++ [label] = all at h
  cases h with
  | nil => simp at hall
  | snoc hrun hstep =>
    obtain ⟨hinit, hlast⟩ := List.append_inj' hall rfl
    cases hlast
    subst hinit
    exact ⟨_, hrun, hstep⟩

theorem run_split {labels' : List (Label α)} (h : Run capacity q (labels ++ labels') q') :
    ∃ m, Run capacity q labels m ∧ Run capacity m labels' q' := by
  induction labels' using List.reverseRecOn generalizing q' with
  | nil => exact ⟨q', by simpa using h, .nil q'⟩
  | append_singleton labels' label ih =>
    rw [← List.append_assoc] at h
    obtain ⟨q₁, hrun, hstep⟩ := run_last h
    obtain ⟨m, hleft, hright⟩ := ih hrun
    exact ⟨m, hleft, .snoc hright hstep⟩

theorem run_closed (h : Run capacity q labels q') (hq : q.closed = true) :
    q'.closed = true ∧ accepted labels = [] := by
  induction h with
  | nil => exact ⟨hq, rfl⟩
  | @snoc q₁ q₂ labels label _ hstep ih =>
    obtain ⟨hclosed, hnone⟩ := ih
    rw [accepted_snoc, hnone]
    cases hstep <;> simp_all [taken]

theorem none_accepted_after_close {before after : List (Label α)}
    (h : Run capacity q (before ++ [.close] ++ after) q') : accepted after = [] := by
  obtain ⟨m, hbefore, hafter⟩ := run_split h
  obtain ⟨m', -, hclose⟩ := run_last hbefore
  cases hclose
  exact (run_closed hafter rfl).2

/-- When the queue is found drained, everything accepted has been delivered. -/
theorem all_delivered_when_drained {before : List (Label α)}
    (h : Run capacity .empty (before ++ [.drained]) q') : accepted before = delivered before := by
  obtain ⟨m, hbefore, hdrained⟩ := run_last h
  cases hdrained
  simpa [Fifo.empty] using run_fifo hbefore

end BoundedFifo
