import Mathlib

/-! A bounded FIFO queue kept in a circular array with separate head, tail and count. The pending
elements are read off from the head; under the counter equation of `Valid`, pushing appends to them
and popping takes the first. -/

structure CircularQueue (α : Type) where
  cells : Nat → α
  head : Nat
  tail : Nat
  count : Nat

namespace CircularQueue

variable {α : Type} {n : Nat} {r : CircularQueue α}

/-- The three counters agree, and the queue is not over its capacity `n`. -/
structure Valid (n : Nat) (r : CircularQueue α) : Prop where
  head_lt : r.head < n
  count_le : r.count ≤ n
  tail_eq : r.tail = (r.head + r.count) % n

/-- The pending elements, oldest first. -/
def pending (n : Nat) (r : CircularQueue α) : List α :=
  (List.range r.count).map fun k => r.cells ((r.head + k) % n)

def push (n : Nat) (r : CircularQueue α) (x : α) : CircularQueue α where
  cells := Function.update r.cells r.tail x
  head := r.head
  tail := (r.tail + 1) % n
  count := r.count + 1

def pop (n : Nat) (r : CircularQueue α) : CircularQueue α :=
  { r with head := (r.head + 1) % n, count := r.count - 1 }

@[simp] theorem pending_length : (pending n r).length = r.count := by
  simp [pending]

theorem Valid.push (h : Valid n r) (x : α) (hroom : r.count < n) : Valid n (push n r x) where
  head_lt := h.head_lt
  count_le := hroom
  tail_eq := by
    change (r.tail + 1) % n = (r.head + (r.count + 1)) % n
    rw [h.tail_eq, Nat.mod_add_mod]
    rfl

theorem Valid.pop (h : Valid n r) (hsome : 0 < r.count) : Valid n (pop n r) where
  head_lt := Nat.mod_lt _ (by have := h.head_lt; omega)
  count_le := by
    have := h.count_le
    change r.count - 1 ≤ n
    omega
  tail_eq := by
    change r.tail = ((r.head + 1) % n + (r.count - 1)) % n
    rw [Nat.mod_add_mod, h.tail_eq]
    congr 1
    omega

/-- Distinct offsets below the capacity fall on distinct cells. -/
theorem cell_ne (a : Nat) {i j : Nat} (hij : i < j) (hj : j < n) :
    (a + i) % n ≠ (a + j) % n := by
  intro heq
  have hdvd : n ∣ (a + j) - (a + i) := (Nat.modEq_iff_dvd' (by omega)).mp heq
  rw [show a + j - (a + i) = j - i by omega] at hdvd
  have := Nat.le_of_dvd (by omega) hdvd
  omega

theorem pending_push (h : Valid n r) (x : α) (hroom : r.count < n) :
    pending n (push n r x) = pending n r ++ [x] := by
  have hold : ∀ k ∈ List.range r.count, (push n r x).cells ((r.head + k) % n) =
      r.cells ((r.head + k) % n) := by
    intro k hk
    have hne := cell_ne r.head (List.mem_range.mp hk) hroom
    rw [← h.tail_eq] at hne
    exact Function.update_of_ne hne _ _
  change (List.range (r.count + 1)).map (fun k => (push n r x).cells ((r.head + k) % n)) = _
  rw [List.range_succ, List.map_append, List.map_congr_left hold, List.map_singleton, ← h.tail_eq]
  congr 2
  exact Function.update_self _ _ _

theorem pending_pop (h : Valid n r) (hsome : 0 < r.count) :
    pending n r = r.cells r.head :: pending n (pop n r) := by
  obtain ⟨c, hc⟩ : ∃ c, r.count = c + 1 := ⟨r.count - 1, by omega⟩
  have hpop : pending n (pop n r) =
      (List.range c).map fun k => r.cells (((r.head + 1) % n + k) % n) := by
    simp [pending, pop, hc]
  rw [hpop, pending, hc, List.range_succ_eq_map, List.map_cons, List.map_map]
  simp only [Nat.add_zero, Nat.mod_eq_of_lt h.head_lt]
  congr 1
  apply List.map_congr_left
  intro k _
  simp only [Function.comp_apply, Nat.mod_add_mod]
  congr 2
  omega

end CircularQueue
