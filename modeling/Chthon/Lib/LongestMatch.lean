import Mathlib

/-! The scan of a list for the entry of greatest weight among those that match, as a loop with a
running maximum computes it: an entry of weight zero is never taken, and of two equal ones the
first is kept. -/

namespace LongestMatch

variable {α : Type} (p q : α → Prop) [DecidablePred p] (w : α → Nat)

/-- The loop, with the greatest weight so far and its entry. -/
def scan (l : List α) : Option α :=
  (l.foldl (fun (best : Nat × Option α) a =>
    if p a ∧ w a > best.1 then (w a, some a) else best) (0, none)).2

variable {p q w} {l : List α} {a b : α}

/-- The entries the loop can take. -/
def candidates (p : α → Prop) [DecidablePred p] (w : α → Nat) (l : List α) : List α :=
  l.filter fun a => p a ∧ 0 < w a

theorem mem_candidates : a ∈ candidates p w l ↔ a ∈ l ∧ p a ∧ 0 < w a := by
  rw [candidates, List.mem_filter, decide_eq_true_eq]

theorem candidates_concat (l : List α) (a : α) : candidates p w (l ++ [a]) =
    candidates p w l ++ if p a ∧ 0 < w a then [a] else [] := by
  rw [candidates, List.filter_append, ← candidates, List.filter_singleton]
  by_cases h : p a ∧ 0 < w a <;> simp [h]

theorem scan_eq_argmax (l : List α) : scan p w l = (candidates p w l).argmax w := by
  -- the running weight is that of the running entry
  suffices hfold : l.foldl (fun (best : Nat × Option α) a =>
      if p a ∧ w a > best.1 then (w a, some a) else best) (0, none) =
      (((candidates p w l).argmax w).elim 0 w, (candidates p w l).argmax w) by
    rw [scan, hfold]
  induction l using List.reverseRecOn with
  | nil => rfl
  | append_singleton l a ih =>
      rw [List.foldl_append, ih, List.foldl_cons, List.foldl_nil, candidates_concat]
      by_cases hp : p a ∧ 0 < w a
      · rw [if_pos hp, List.argmax_concat]
        cases (candidates p w l).argmax w with
        | none => exact if_pos hp
        | some c =>
            by_cases hlt : w c < w a <;> simp [hp.1, hlt]
      · have hkeep : ¬(p a ∧ w a > ((candidates p w l).argmax w).elim 0 w) :=
          fun h => hp ⟨h.1, Nat.zero_lt_of_lt h.2⟩
        rw [if_neg hkeep, if_neg hp, List.append_nil]

theorem scan_spec (h : scan p w l = some a) : a ∈ l ∧ p a ∧ 0 < w a := by
  rw [scan_eq_argmax] at h
  exact mem_candidates.mp (List.argmax_mem h)

theorem scan_longest (h : scan p w l = some a) (hb : b ∈ l) (hp : p b) : w b ≤ w a := by
  rw [scan_eq_argmax] at h
  by_cases hpos : 0 < w b
  · exact List.le_of_mem_argmax (mem_candidates.mpr ⟨hb, hp, hpos⟩) h
  · omega

theorem scan_exists (hb : b ∈ l) (hp : p b) (hpos : 0 < w b) : ∃ a, scan p w l = some a := by
  rw [scan_eq_argmax, ← Option.ne_none_iff_exists', Ne, List.argmax_eq_none]
  exact List.ne_nil_of_mem (mem_candidates.mpr ⟨hb, hp, hpos⟩)

/-- The scan serves a finer test just when each match that fails the finer test is outweighed by
one that passes. -/
theorem scan_refines_iff (hfiner : ∀ a, q a → p a)
    (hsame : ∀ a b, p a → p b → w a = w b → q a → q b)
    (hsome : ∃ a ∈ l, q a ∧ 0 < w a) :
    (∃ a, scan p w l = some a ∧ q a ∧ ∀ b ∈ l, q b → w b ≤ w a) ↔
      ∀ b ∈ l, p b → ¬q b → ∃ c ∈ l, q c ∧ w b < w c := by
  constructor
  · rintro ⟨a, ha, hq, -⟩ b hb hp hnot
    have hpa := hfiner a hq
    refine ⟨a, (scan_spec ha).1, hq, lt_of_le_of_ne (scan_longest ha hb hp) ?_⟩
    exact fun heq => hnot (hsame a b hpa hp heq.symm hq)
  · intro h
    obtain ⟨c, hc, hqc, hpos⟩ := hsome
    obtain ⟨a, ha⟩ := scan_exists hc (hfiner c hqc) hpos
    refine ⟨a, ha, ?_, fun b hb hq => scan_longest ha hb (hfiner b hq)⟩
    by_contra hnot
    obtain ⟨d, hd, hqd, hlt⟩ := h a (scan_spec ha).1 (scan_spec ha).2.1 hnot
    exact absurd (scan_longest ha hd (hfiner d hqd)) (by omega)

end LongestMatch
