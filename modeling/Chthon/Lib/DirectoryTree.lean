import Mathlib

/-! Directory trees as finite maps from absolute paths to labelled nodes. Two names are reserved:
`dot` for a directory itself and `dotdot` for its parent. A walk over arbitrary names only ever ends
where the textual normal form of those names points, and over plain names it is a lookup. -/

namespace DirectoryTree

variable {α β : Type} [DecidableEq α]

structure Node (α β : Type) where
  path : List α
  label : β
  isDir : Bool

abbrev Tree (α β : Type) := List (Node α β)

def find (T : Tree α β) (p : List α) : Option (Node α β) := T.find? fun n => n.path = p

/-- The nodes directly below `p`, oldest first. -/
def children (T : Tree α β) (p : List α) : List (Node α β) :=
  T.filter fun n => n.path ≠ [] ∧ n.path.dropLast = p

variable (dot dotdot : α)

def step (T : Tree α β) (n : Node α β) (t : α) : Option (Node α β) :=
  if n.isDir then
    if t = dot then some n
    else if t = dotdot then find T n.path.dropLast
    else find T (n.path ++ [t])
  else none

def lookup (T : Tree α β) : Node α β → List α → Option (Node α β)
  | n, [] => some n
  | n, t :: ts => (step dot dotdot T n t).bind fun k => lookup T k ts

def normalizeStep (p : List α) (t : α) : List α :=
  if t = dot then p else if t = dotdot then p.dropLast else p ++ [t]

/-- The textual resolution of a sequence of names against the root. -/
def normalize (ts : List α) : List α := ts.foldl (normalizeStep dot dotdot) []

/-- A plain name is neither reserved one. -/
def Plain (t : α) : Prop := t ≠ dot ∧ t ≠ dotdot

/-- Paths are distinct and plain, and every node but the root has a directory above it. -/
structure WellFormed (T : Tree α β) : Prop where
  nodup : (T.map Node.path).Nodup
  parent : ∀ n ∈ T, n.path ≠ [] → ∃ p, find T n.path.dropLast = some p ∧ p.isDir = true
  plain : ∀ n ∈ T, ∀ t ∈ n.path, Plain dot dotdot t

variable {dot dotdot} {T : Tree α β} {n k : Node α β}

theorem find_some {p : List α} (h : find T p = some n) : n ∈ T ∧ n.path = p :=
  ⟨List.mem_of_find?_eq_some h, by simpa using List.find?_some h⟩

theorem find_none {p : List α} : find T p = none ↔ ∀ n ∈ T, n.path ≠ p := by
  simp [find, List.find?_eq_none]

theorem WellFormed.find_mem (h : WellFormed dot dotdot T) (hn : n ∈ T) :
    find T n.path = some n := by
  cases hfind : find T n.path with
  | none => exact absurd rfl (find_none.mp hfind n hn)
  | some k =>
      obtain ⟨hk, hpath⟩ := find_some hfind
      rw [List.inj_on_of_nodup_map h.nodup hk hn hpath]

theorem normalizeStep_plain {p : List α} {t : α} (ht : Plain dot dotdot t) :
    normalizeStep dot dotdot p t = p ++ [t] := by
  rw [normalizeStep, if_neg ht.1, if_neg ht.2]

theorem normalize_append (ts : List α) (t : α) :
    normalize dot dotdot (ts ++ [t]) = normalizeStep dot dotdot (normalize dot dotdot ts) t := by
  simp [normalize]

theorem step_path {t : α} (h : step dot dotdot T n t = some k) :
    k.path = normalizeStep dot dotdot n.path t := by
  rw [step] at h
  split_ifs at h with hdir hdot hdotdot
  · cases h
    rw [normalizeStep, if_pos hdot]
  · rw [(find_some h).2, normalizeStep, if_neg hdot, if_pos hdotdot]
  · rw [(find_some h).2, normalizeStep, if_neg hdot, if_neg hdotdot]

theorem lookup_path {ts : List α} (h : lookup dot dotdot T n ts = some k) :
    k.path = ts.foldl (normalizeStep dot dotdot) n.path := by
  induction ts generalizing n with
  | nil =>
      cases h
      rfl
  | cons t ts ih =>
      rw [lookup, Option.bind_eq_some_iff] at h
      obtain ⟨next, hstep, hrest⟩ := h
      rw [ih hrest, List.foldl_cons, step_path hstep]

theorem lookup_append (ts us : List α) :
    lookup dot dotdot T n (ts ++ us) =
      (lookup dot dotdot T n ts).bind fun k => lookup dot dotdot T k us := by
  induction ts generalizing n with
  | nil => rfl
  | cons t ts ih =>
      simp only [List.cons_append, lookup, Option.bind_assoc, ih]

theorem lookup_singleton (t : α) : lookup dot dotdot T n [t] = step dot dotdot T n t := by
  simp [lookup]

/-- Every step of a walk ends on a node of the tree. -/
theorem lookup_mem {ts : List α} (hn : n ∈ T) (h : lookup dot dotdot T n ts = some k) : k ∈ T := by
  induction ts generalizing n with
  | nil =>
      cases h
      exact hn
  | cons t ts ih =>
      rw [lookup, Option.bind_eq_some_iff] at h
      obtain ⟨next, hstep, hrest⟩ := h
      apply ih _ hrest
      rw [step] at hstep
      split_ifs at hstep
      · cases hstep
        exact hn
      · exact (find_some hstep).1
      · exact (find_some hstep).1

/-- From the root, a walk over plain names is a lookup of the path they spell. -/
theorem WellFormed.lookup_plain (h : WellFormed dot dotdot T) (hroot : find T [] = some n)
    (p : List α) (hp : ∀ t ∈ p, Plain dot dotdot t) : lookup dot dotdot T n p = find T p := by
  induction p using List.reverseRecOn with
  | nil => rw [hroot]; rfl
  | append_singleton p t ih =>
      have ht := hp t (by simp)
      have hclosed : ∀ q, find T (p ++ [t]) = some q → ∃ r, find T p = some r ∧ r.isDir = true := by
        intro q hq
        obtain ⟨hmem, hpath⟩ := find_some hq
        have := h.parent q hmem (by simp [hpath])
        rwa [hpath, List.dropLast_concat] at this
      rw [lookup_append, ih fun s hs => hp s (by simp [hs])]
      cases hfind : find T p with
      | none =>
          cases hnext : find T (p ++ [t]) with
          | none => rfl
          | some q =>
              obtain ⟨r, hr, _⟩ := hclosed q hnext
              rw [hfind] at hr
              cases hr
      | some r =>
          rw [Option.bind_some, lookup_singleton, step, if_neg ht.1, if_neg ht.2,
            (find_some hfind).2]
          split_ifs with hdir
          · rfl
          · cases hnext : find T (p ++ [t]) with
            | none => rfl
            | some q =>
                obtain ⟨r', hr', hdir'⟩ := hclosed q hnext
                rw [hfind] at hr'
                cases hr'
                exact absurd hdir' hdir

/-! Adding a node. -/

theorem find_insert (q : List α) (hfresh : find T n.path = none) :
    find (T ++ [n]) q = if q = n.path then some n else find T q := by
  rw [find, List.find?_append]
  split_ifs with hq
  · subst hq
    have hnone : T.find? (fun k => k.path = n.path) = none := hfresh
    rw [hnone]
    simp
  · have hlast : [n].find? (fun k => k.path = q) = none := by simp [Ne.symm hq]
    rw [hlast, Option.or_none]
    rfl

theorem find_insert_of_some {q : List α} (hfresh : find T n.path = none) (h : find T q = some k) :
    find (T ++ [n]) q = some k := by
  rw [find_insert q hfresh, if_neg, h]
  rintro rfl
  rw [hfresh] at h
  cases h

theorem WellFormed.insert (h : WellFormed dot dotdot T) (hfresh : find T n.path = none)
    (hparent : ∃ p, find T n.path.dropLast = some p ∧ p.isDir = true)
    (hplain : ∀ t ∈ n.path, Plain dot dotdot t) : WellFormed dot dotdot (T ++ [n]) where
  nodup := by
    rw [List.map_append, List.map_singleton, List.nodup_append]
    refine ⟨h.nodup, List.nodup_singleton _, ?_⟩
    intro p hp q hq heq
    obtain ⟨k, hk, rfl⟩ := List.mem_map.mp hp
    rw [List.mem_singleton] at hq
    exact find_none.mp hfresh k hk (heq.trans hq)
  parent := by
    intro k hk hne
    have hold : ∃ p, find T k.path.dropLast = some p ∧ p.isDir = true := by
      rcases List.mem_append.mp hk with hk | hk
      · exact h.parent k hk hne
      · rw [List.mem_singleton.mp hk]
        exact hparent
    obtain ⟨p, hp, hdir⟩ := hold
    exact ⟨p, find_insert_of_some hfresh hp, hdir⟩
  plain := by
    intro k hk
    rcases List.mem_append.mp hk with hk | hk
    · exact h.plain k hk
    · rw [List.mem_singleton.mp hk]
      exact hplain

theorem lookup_insert_of_some {ts : List α} (hfresh : find T n.path = none) {r : Node α β}
    (h : lookup dot dotdot T r ts = some k) : lookup dot dotdot (T ++ [n]) r ts = some k := by
  induction ts generalizing r with
  | nil => exact h
  | cons t ts ih =>
      rw [lookup, Option.bind_eq_some_iff] at h ⊢
      obtain ⟨next, hstep, hrest⟩ := h
      refine ⟨next, ?_, ih hrest⟩
      rw [step] at hstep ⊢
      split_ifs at hstep ⊢
      · exact hstep
      · exact find_insert_of_some hfresh hstep
      · exact find_insert_of_some hfresh hstep

theorem children_insert (p : List α) :
    children (T ++ [n]) p =
      children T p ++ if n.path ≠ [] ∧ n.path.dropLast = p then [n] else [] := by
  rw [children, List.filter_append, children]
  split_ifs with h
  · rw [List.filter_cons_of_pos (by simpa using h), List.filter_nil]
  · rw [List.filter_cons_of_neg (by simpa using h), List.filter_nil]

/-! Removing a node that has nothing below it. -/

/-- The tree without the node at `p`. -/
def erase (T : Tree α β) (p : List α) : Tree α β := T.filter fun n => n.path ≠ p

theorem mem_erase {p : List α} : n ∈ erase T p ↔ n ∈ T ∧ n.path ≠ p := by
  simp [erase]

theorem erase_sublist (T : Tree α β) (p : List α) : (erase T p).Sublist T := List.filter_sublist

theorem find_erase_of_ne {p q : List α} (h : q ≠ p) : find (erase T p) q = find T q := by
  rw [find, erase, List.find?_filter, find]
  congr 1
  funext k
  by_cases hk : k.path = q
  · simp [hk, h]
  · simp [hk]

theorem children_erase (p q : List α) :
    children (erase T p) q = (children T q).filter fun n => n.path ≠ p := by
  rw [children, children, erase, List.filter_filter, List.filter_filter]
  apply List.filter_congr
  intro k _
  exact Bool.and_comm _ _

theorem WellFormed.erase (h : WellFormed dot dotdot T) {p : List α}
    (hleaf : ∀ k, find T p = some k → k.isDir = false) : WellFormed dot dotdot (erase T p) where
  nodup := h.nodup.sublist ((erase_sublist T p).map Node.path)
  parent := by
    intro k hk hne
    obtain ⟨q, hq, hdir⟩ := h.parent k (mem_erase.mp hk).1 hne
    have hqp : k.path.dropLast ≠ p := by
      rintro rfl
      rw [hleaf q hq] at hdir
      cases hdir
    exact ⟨q, (find_erase_of_ne hqp).trans hq, hdir⟩
  plain k hk := h.plain k (mem_erase.mp hk).1

end DirectoryTree
