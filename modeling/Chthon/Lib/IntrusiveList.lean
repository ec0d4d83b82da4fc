import Mathlib

/-! Singly linked lists whose links are kept in the nodes: a head, and a successor for every node.
The nodes may be used elsewhere as well, so a list is described by what its links lead through. -/

namespace IntrusiveList

variable {α : Type} {next : α → Option α} {head : Option α} {a : α} {l : List α}

/-- The links lead from `head` through the nodes `l`, in this order, and end there. -/
def Chain (next : α → Option α) : Option α → List α → Prop
  | head, [] => head = none
  | head, a :: l => head = some a ∧ Chain next (next a) l

/-- The links determine the nodes, so no two lists share a head. -/
theorem Chain.unique {l' : List α} (h : Chain next head l) (h' : Chain next head l') : l = l' := by
  induction l generalizing head l' with
  | nil =>
      cases l' with
      | nil => rfl
      | cons b l' =>
          rw [Chain] at h
          rw [h] at h'
          cases h'.1
  | cons a l ih =>
      cases l' with
      | nil =>
          rw [Chain] at h'
          rw [h'] at h
          cases h.1
      | cons b l' =>
          obtain rfl : a = b := Option.some.inj (h.1.symm.trans h'.1)
          rw [ih h.2 h'.2]

/-- Walking from a node, no node comes again: a list that ends has no cycle. -/
theorem Chain.nodup (h : Chain next head l) : l.Nodup := by
  induction l generalizing head with
  | nil => exact List.nodup_nil
  | cons a l ih =>
      refine List.nodup_cons.mpr ⟨fun hmem => ?_, ih h.2⟩
      -- the rest would have to be its own proper end
      obtain ⟨before, after, rfl⟩ := List.append_of_mem hmem
      have hend : ∀ (head : Option α) (before : List α), Chain next head (before ++ a :: after) →
          Chain next (next a) after := by
        intro head before
        induction before generalizing head with
        | nil => exact fun h => h.2
        | cons b before ih => exact fun h => ih (next b) h.2
      have hlength := congrArg List.length (h.2.unique (hend _ before h.2))
      rw [List.length_append, List.length_cons] at hlength
      omega

/-- A list of addresses below a bound is no longer than the bound. -/
theorem Chain.length_le {next : Nat → Option Nat} {head : Option Nat} {l : List Nat}
    (h : Chain next head l) {bound : Nat} (hl : ∀ a ∈ l, a < bound) : l.length ≤ bound := by
  have hsub : l ⊆ List.range bound := fun a ha => List.mem_range.mpr (hl a ha)
  have hle := (h.nodup.subperm hsub).length_le
  rwa [List.length_range] at hle

section Update

variable [DecidableEq α]

/-- The link of a node outside does not matter. -/
theorem Chain.update_of_not_mem (h : Chain next head l) (ha : a ∉ l) (x : Option α) :
    Chain (Function.update next a x) head l := by
  induction l generalizing head with
  | nil => exact h
  | cons b l ih =>
      rw [List.mem_cons, not_or] at ha
      refine ⟨h.1, ?_⟩
      rw [Function.update_of_ne (Ne.symm ha.1)]
      exact ih h.2 ha.2

/-- A new node is put in front. -/
theorem Chain.push (h : Chain next head l) (ha : a ∉ l) :
    Chain (Function.update next a head) (some a) (a :: l) := by
  refine ⟨rfl, ?_⟩
  rw [Function.update_self]
  exact h.update_of_not_mem ha head

/-- The node behind `prev` is taken out: the link of `prev` skips it. -/
theorem Chain.unlink {before after : List α} {prev : α}
    (h : Chain next head (before ++ prev :: a :: after)) :
    Chain (Function.update next prev (next a)) head (before ++ prev :: after) := by
  have hnodup := h.nodup
  induction before generalizing head with
  | nil =>
      obtain ⟨hhead, hprev, hafter⟩ := h
      refine ⟨hhead, ?_⟩
      rw [Function.update_self]
      rw [List.nil_append, List.nodup_cons, List.mem_cons, not_or] at hnodup
      exact hafter.update_of_not_mem hnodup.1.2 _
  | cons b before ih =>
      rw [List.cons_append, List.nodup_cons] at hnodup
      have hne : b ≠ prev := by
        rintro rfl
        exact hnodup.1 (List.mem_append_right _ List.mem_cons_self)
      refine ⟨h.1, ?_⟩
      rw [Function.update_of_ne hne]
      exact ih h.2 hnodup.2

end Update

/-- The first node that passes the test, looked for along the links. A search that is not over after
`fuel` nodes has no result. -/
def search (next : α → Option α) (test : α → Bool) : Nat → Option α → Option (Option α)
  | _, none => some none
  | 0, some _ => none
  | fuel + 1, some a => if test a then some (some a) else search next test fuel (next a)

/-- On a list that ends, a search is over within its length. -/
theorem Chain.search_eq (h : Chain next head l) (test : α → Bool) {fuel : Nat}
    (hfuel : l.length ≤ fuel) : search next test fuel head = some (l.find? test) := by
  induction l generalizing head fuel with
  | nil =>
      rw [Chain] at h
      rw [h, search, List.find?_nil]
  | cons a l ih =>
      obtain ⟨rfl, hrest⟩ := h
      cases fuel with
      | zero => simp at hfuel
      | succ fuel =>
          rw [search, List.find?_cons]
          cases htest : test a with
          | true => rfl
          | false =>
              rw [List.length_cons] at hfuel
              exact ih hrest (by omega)

/-- The nodes along the links, at most `fuel` of them. -/
def collect (next : α → Option α) : Nat → Option α → List α
  | _, none => []
  | 0, some _ => []
  | fuel + 1, some a => a :: collect next fuel (next a)

theorem Chain.collect_eq (h : Chain next head l) {fuel : Nat} (hfuel : l.length ≤ fuel) :
    collect next fuel head = l := by
  induction l generalizing head fuel with
  | nil =>
      rw [Chain] at h
      rw [h, collect]
  | cons a l ih =>
      obtain ⟨rfl, hrest⟩ := h
      cases fuel with
      | zero => simp at hfuel
      | succ fuel =>
          rw [List.length_cons] at hfuel
          rw [collect, ih hrest (by omega)]

end IntrusiveList
