import Mathlib

/-!
# Steps that may be taken later

`load k` is a step that any operation passes: taking it before the operation or after it comes to
the same, up to `Same`. Loads taken early can then be put off past any operation, and any one of
them can be brought to the front.
-/
namespace Movers

variable {σ κ : Type} (Same : σ → σ → Prop) (load : κ → σ → σ → Prop)

/-- An operation with a result does the same from states that are the same. -/
def Respects {ρ : Type} (op : σ → ρ → σ → Prop) : Prop :=
  ∀ a a' b r, Same a a' → op a r b → ∃ b', op a' r b' ∧ Same b b'

def Passes {ρ : Type} (op : σ → ρ → σ → Prop) : Prop :=
  ∀ k a b c r, load k a b → op b r c → ∃ b' c', op a r b' ∧ load k b' c' ∧ Same c' c

inductive Loads : σ → List κ → σ → Prop
  | nil (a : σ) : Loads a [] a
  | cons {a b c : σ} {k : κ} {ks : List κ} : load k a b → Loads b ks c → Loads a (k :: ks) c

variable {Same load}

theorem Loads.snoc {a b c : σ} {ks : List κ} {k : κ} (h : Loads load a ks b) (hk : load k b c) :
    Loads load a (ks ++ [k]) c := by
  induction h with
  | nil a => exact .cons hk (.nil c)
  | cons hload _ ih => exact .cons hload (ih hk)

section Steps

variable (hequiv : Equivalence Same)
  (hload : ∀ k, Respects Same (fun a (_ : Unit) b => load k a b))

include hload

theorem Loads.respects {a a' b : σ} {ks : List κ} (hsame : Same a a') (h : Loads load a ks b) :
    ∃ b', Loads load a' ks b' ∧ Same b b' := by
  induction h generalizing a' with
  | nil a => exact ⟨a', .nil a', hsame⟩
  | cons hk _ ih =>
    obtain ⟨m, hm, hsame'⟩ := hload _ _ _ _ () hsame hk
    obtain ⟨b', hb', hend⟩ := ih hsame'
    exact ⟨b', .cons hm hb', hend⟩

include hequiv

theorem Loads.passes {ρ : Type} {op : σ → ρ → σ → Prop} (hpass : Passes Same load op) {a b c : σ}
    {ks : List κ} {r : ρ} (h : Loads load a ks b) (hop : op b r c) :
    ∃ b' c', op a r b' ∧ Loads load b' ks c' ∧ Same c' c := by
  induction h generalizing c with
  | nil a => exact ⟨c, c, hop, .nil c, hequiv.refl c⟩
  | cons hk _ ih =>
    obtain ⟨m, n, hm, hloads, hsame⟩ := ih hop
    obtain ⟨b', m', hb', hk', hsame'⟩ := hpass _ _ _ _ _ hk hm
    obtain ⟨n', hloads', hend⟩ := Loads.respects hload (hequiv.symm hsame') hloads
    exact ⟨b', n', hb', .cons hk' hloads', hequiv.trans (hequiv.symm hend) hsame⟩

theorem Loads.first [DecidableEq κ]
    (hpass : ∀ k, Passes Same load (fun a (_ : Unit) b => load k a b)) {a b : σ} {ks : List κ}
    {k : κ} (h : Loads load a ks b) (hk : k ∈ ks) :
    ∃ a' b', load k a a' ∧ Loads load a' (ks.erase k) b' ∧ Same b' b := by
  induction h with
  | nil a => cases hk
  | @cons a m c j js hj hrest ih =>
    by_cases hjk : j = k
    · subst hjk
      rw [List.erase_cons_head]
      exact ⟨m, c, hj, hrest, hequiv.refl c⟩
    · have hmem : k ∈ js := (List.mem_cons.mp hk).resolve_left (fun heq => hjk heq.symm)
      obtain ⟨n, c', hn, hloads, hsame⟩ := ih hmem
      obtain ⟨m', n', hm', hj', hsame'⟩ := hpass k _ _ _ _ () hj hn
      obtain ⟨c'', hloads', hend⟩ := Loads.respects hload (hequiv.symm hsame') hloads
      refine ⟨m', c'', hm', ?_, hequiv.trans (hequiv.symm hend) hsame⟩
      rw [List.erase_cons_tail (by simpa using hjk)]
      exact .cons hj' hloads'

end Steps

end Movers
