import ThreadedDb.CheckedArray

/-!
# Forward simulation

A machine whose steps can run into a fault, and a specification that answers every input. If each
step of the machine succeeds, answers what the specification answers and keeps a relation between
the two states, then so does every run.
-/
namespace ForwardSimulation

open CheckedArray (bind_eq_ok)

variable {ε S A I O P : Type}

def run (step : S → I → Except ε (S × O)) : S → List I → Except ε (S × List O)
  | s, [] => .ok (s, [])
  | s, i :: rest => do
    let (s, o) ← step s i
    let (s, os) ← run step s rest
    .ok (s, o :: os)

def specRun (spec : A → I → A × P) : A → List I → A × List P
  | a, [] => (a, [])
  | a, i :: rest =>
    let (a, p) := spec a i
    let (a, ps) := specRun spec a rest
    (a, p :: ps)

/-- `Says o p`: the output `o` is what the specification answers with `p`. -/
def Simulates (step : S → I → Except ε (S × O)) (spec : A → I → A × P) (Says : O → P → Prop)
    (R : S → A → Prop) : Prop :=
  ∀ s a i, R s a → ∃ s' o, step s i = .ok (s', o) ∧ R s' (spec a i).1 ∧ Says o (spec a i).2

theorem run_simulates {step : S → I → Except ε (S × O)} {spec : A → I → A × P}
    {Says : O → P → Prop} {R : S → A → Prop} (h : Simulates step spec Says R) {s : S} {a : A}
    (hR : R s a) (is : List I) :
    ∃ s' os, run step s is = .ok (s', os) ∧ R s' (specRun spec a is).1 ∧
      List.Forall₂ Says os (specRun spec a is).2 := by
  induction is generalizing s a with
  | nil => exact ⟨s, [], rfl, hR, .nil⟩
  | cons i is ih =>
    obtain ⟨s₁, o, hstep, hR₁, hsays⟩ := h s a i hR
    obtain ⟨s', os, hrun, hR', hall⟩ := ih hR₁
    refine ⟨s', o :: os, ?_, hR', .cons hsays hall⟩
    exact bind_eq_ok.mpr ⟨_, hstep, bind_eq_ok.mpr ⟨_, hrun, rfl⟩⟩

theorem specRun_append (spec : A → I → A × P) (a : A) (xs ys : List I) :
    specRun spec a (xs ++ ys) = ((specRun spec (specRun spec a xs).1 ys).1,
      (specRun spec a xs).2 ++ (specRun spec (specRun spec a xs).1 ys).2) := by
  induction xs generalizing a with
  | nil => rfl
  | cons x xs ih =>
    simp only [List.cons_append, specRun, ih]

theorem specRun_length (spec : A → I → A × P) (a : A) (is : List I) :
    (specRun spec a is).2.length = is.length := by
  induction is generalizing a with
  | nil => rfl
  | cons i is ih => exact congrArg Nat.succ (ih _)

theorem specRun_forall {spec : A → I → A × P} {Q : P → Prop} (h : ∀ a i, Q (spec a i).2) (a : A)
    (is : List I) : ∀ p ∈ (specRun spec a is).2, Q p := by
  induction is generalizing a with
  | nil => exact fun p hp => by cases hp
  | cons i is ih =>
    intro p hp
    rcases List.mem_cons.mp hp with rfl | hp
    · exact h a i
    · exact ih _ p hp

end ForwardSimulation
