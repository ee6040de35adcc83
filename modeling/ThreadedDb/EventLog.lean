import Mathlib

/-!
# Computations with a log

A computation that can fail, with the events that it emitted until it ended. Without its log it
is a computation in `Except`; the events of a sequence are those of its parts, as far as it gets.
-/
namespace EventLog

structure Logged (ε φ α : Type) where
  events : List ε
  result : Except φ α

variable {ε φ α β : Type}

namespace Logged

def bind (m : Logged ε φ α) (f : α → Logged ε φ β) : Logged ε φ β :=
  match m.result with
  | .error e => ⟨m.events, .error e⟩
  | .ok a => ⟨m.events ++ (f a).events, (f a).result⟩

instance : Monad (Logged ε φ) where
  pure a := ⟨[], .ok a⟩
  bind := bind

end Logged

def emit (event : ε) : Logged ε φ Unit := ⟨[event], .ok ()⟩

def silent (result : Except φ α) : Logged ε φ α := ⟨[], result⟩

@[simp] theorem result_bind (m : Logged ε φ α) (f : α → Logged ε φ β) :
    (m >>= f).result = m.result >>= fun a => (f a).result := by
  change (Logged.bind m f).result = _
  unfold Logged.bind
  cases m.result with
  | error e => rfl
  | ok a => rfl

theorem bind_of_ok {m : Logged ε φ α} {events : List ε} {a : α} (h : m = ⟨events, .ok a⟩)
    (f : α → Logged ε φ β) : m >>= f = ⟨events ++ (f a).events, (f a).result⟩ := by
  rw [h]
  rfl

/-- A sequence computes what the sequence of its parts without their logs computes. -/
theorem erases_bind {m : Logged ε φ α} {f : α → Logged ε φ β} {x : Except φ α}
    {g : α → Except φ β} (hm : m.result = x) (hf : ∀ a, (f a).result = g a) :
    (m >>= f).result = x >>= g := by
  rw [result_bind, hm]
  exact bind_congr hf

theorem events_bind_pure (m : Logged ε φ α) (f : α → β) :
    (m >>= fun a => pure (f a)).events = m.events := by
  change (Logged.bind m fun a => pure (f a)).events = _
  unfold Logged.bind
  cases m.result with
  | error e => rfl
  | ok a => exact List.append_nil _

def Only (P : ε → Prop) (m : Logged ε φ α) : Prop := ∀ event ∈ m.events, P event

variable {P Q : ε → Prop}

theorem only_pure (a : α) : Only P (pure a : Logged ε φ α) := by
  intro event hevent
  cases hevent

theorem only_silent (r : Except φ α) : Only P (silent r : Logged ε φ α) := by
  intro event hevent
  cases hevent

theorem only_emit {e : ε} (h : P e) : Only P (emit e : Logged ε φ Unit) := by
  intro event hevent
  rwa [List.mem_singleton.mp hevent]

theorem only_bind {m : Logged ε φ α} {f : α → Logged ε φ β} (hm : Only P m)
    (hf : ∀ a, m.result = .ok a → Only P (f a)) : Only P (m >>= f) := by
  intro event hevent
  change event ∈ (Logged.bind m f).events at hevent
  unfold Logged.bind at hevent
  split at hevent
  · exact hm event hevent
  · rename_i a ha
    rcases List.mem_append.mp hevent with hmem | hmem
    · exact hm event hmem
    · exact hf a ha event hmem

theorem Only.mono {m : Logged ε φ α} (h : Only P m) (hPQ : ∀ event, P event → Q event) :
    Only Q m := fun event hevent => hPQ event (h event hevent)

end EventLog
