import ThreadedDb.CheckedArray

/-!
# Ring buffers

The items of a ring: `count` slots of an array from `head` on, going on at slot 0 behind the last
one. Writing behind the last item appends it; moving the head drops the first one.
-/
namespace RingBuffer

open CheckedArray (read write)

variable {α : Type} {n : ℕ}

def ring (a : Vector α n) : ℕ → ℕ → List α
  | _, 0 => []
  | head, count + 1 => a[head]?.toList ++ ring a ((head + 1) % n) count

theorem ring_succ (a : Vector α n) {head : ℕ} (hhead : head < n) (count : ℕ) :
    ring a head (count + 1) = a[head] :: ring a ((head + 1) % n) count := by
  rw [ring, Vector.getElem?_eq_getElem hhead]
  rfl

theorem ring_length (a : Vector α n) {head : ℕ} (hhead : head < n) (count : ℕ) :
    (ring a head count).length = count := by
  induction count generalizing head with
  | zero => rfl
  | succ count ih =>
    rw [ring_succ a hhead, List.length_cons, ih (Nat.mod_lt _ (by omega))]

theorem free_slot_ne {head count : ℕ} (hhead : head < n) (hcount : count + 1 < n) :
    (head + (count + 1)) % n ≠ head := by
  intro h
  by_cases hwrap : head + (count + 1) < n
  · rw [Nat.mod_eq_of_lt hwrap] at h
    omega
  · rw [Nat.mod_eq_sub_mod (by omega), Nat.mod_eq_of_lt (by omega)] at h
    omega

theorem ring_write (a : Vector α n) {head count : ℕ} (hhead : head < n) (hcount : count < n)
    (x : α) : ∃ a', write a ((head + count) % n) x = .ok a' ∧
      ring a' head (count + 1) = ring a head count ++ [x] := by
  have hslot : (head + count) % n < n := Nat.mod_lt _ (by omega)
  refine ⟨a.set ((head + count) % n) x hslot, by rw [write, dif_pos hslot], ?_⟩
  generalize hj : (head + count) % n = j at hslot
  induction count generalizing head with
  | zero =>
    rw [Nat.add_zero, Nat.mod_eq_of_lt hhead] at hj
    subst hj
    simp [ring]
  | succ count ih =>
    have hne : j ≠ head := hj ▸ free_slot_ne hhead hcount
    have hnext : ((head + 1) % n + count) % n = j := by
      rw [Nat.mod_add_mod, ← hj]
      congr 1
      omega
    rw [ring_succ _ hhead, ih (Nat.mod_lt _ (by omega)) (by omega) hnext, ring_succ a hhead,
      Vector.getElem_set_ne hslot hhead hne]
    rfl

theorem ring_read (a : Vector α n) {head : ℕ} (hhead : head < n) (count : ℕ) :
    ∃ x, read a head = .ok x ∧
      ring a head (count + 1) = x :: ring a ((head + 1) % n) count := by
  refine ⟨a[head], ?_, ring_succ a hhead count⟩
  simp [CheckedArray.read, Vector.getElem?_eq_getElem hhead]

end RingBuffer
