import Mathlib

/-! Path texts over any alphabet with a separator: the components of a text (its maximal non-empty
separator-free runs), the cut at the last separator, and the absolute text of a component list. -/

namespace PathText

variable {α : Type} [DecidableEq α] (sep : α)

def components (s : List α) : List (List α) := (s.splitOn sep).filter (· ≠ [])

/-- Cut at the last separator into what stands before and after it. -/
def splitLast : List α → Option (List α × List α)
  | [] => none
  | c :: cs =>
      match splitLast cs with
      | some (before, after) => some (c :: before, after)
      | none => if c = sep then some ([], cs) else none

/-- Every component preceded by a separator. -/
def render (cs : List (List α)) : List α := cs.flatMap (sep :: ·)

/-- A text that can be a component. -/
def IsComponent (c : List α) : Prop := c ≠ [] ∧ sep ∉ c

@[simp] theorem components_nil : components sep [] = [] := by
  simp [components]

theorem components_append_sep (s t : List α) :
    components sep (s ++ sep :: t) = components sep s ++ components sep t := by
  rw [components, List.splitOn_append_cons_self, List.filter_append]
  rfl

@[simp] theorem components_sep_cons (s : List α) :
    components sep (sep :: s) = components sep s := by
  simpa using components_append_sep sep [] s

theorem components_of_isComponent {c : List α} (hc : IsComponent sep c) :
    components sep c = [c] := by
  rw [components, List.splitOn_eq_singleton hc.2]
  simp [hc.1]

theorem components_append_component (s : List α) {c : List α} (hc : IsComponent sep c) :
    components sep (s ++ sep :: c) = components sep s ++ [c] := by
  rw [components_append_sep, components_of_isComponent sep hc]

/-- Texts are built from separator-free runs, so a property that survives a leading run and a
leading separator holds of every text. -/
theorem text_induction {motive : List α → Prop}
    (run : ∀ c, sep ∉ c → motive c)
    (cut : ∀ c s, sep ∉ c → motive s → motive (c ++ sep :: s)) : ∀ s, motive s := by
  intro s
  induction hlen : s.length using Nat.strong_induction_on generalizing s with
  | _ n ih =>
      by_cases hmem : sep ∈ s
      · obtain ⟨c, t, rfl, hc⟩ := List.eq_append_cons_of_mem hmem
        exact cut c t hc (ih t.length (by simp at hlen; omega) t rfl)
      · exact run s hmem

theorem mem_components {s c : List α} (hc : c ∈ components sep s) :
    IsComponent sep c ∧ ∀ x ∈ c, x ∈ s := by
  induction s using text_induction sep generalizing c with
  | run t ht =>
      rw [components, List.splitOn_eq_singleton ht] at hc
      simp only [ne_eq, decide_not, List.mem_filter, List.mem_singleton, Bool.not_eq_eq_eq_not,
        Bool.not_true, decide_eq_false_iff_not] at hc
      obtain ⟨rfl, hne⟩ := hc
      exact ⟨⟨hne, ht⟩, fun _ hx => hx⟩
  | cut t s ht ih =>
      rw [components_append_sep, List.mem_append] at hc
      rcases hc with hc | hc
      · rw [components, List.splitOn_eq_singleton ht] at hc
        simp only [ne_eq, decide_not, List.mem_filter, List.mem_singleton, Bool.not_eq_eq_eq_not,
          Bool.not_true, decide_eq_false_iff_not] at hc
        obtain ⟨rfl, hne⟩ := hc
        exact ⟨⟨hne, ht⟩, fun x hx => List.mem_append_left _ hx⟩
      · obtain ⟨hcomp, hsub⟩ := ih hc
        exact ⟨hcomp, fun x hx => List.mem_append_right _ (List.mem_cons_of_mem _ (hsub x hx))⟩

theorem components_render {cs : List (List α)} (hcs : ∀ c ∈ cs, IsComponent sep c) :
    components sep (render sep cs) = cs := by
  induction cs with
  | nil => simp [render]
  | cons c cs ih =>
      have htail := ih fun d hd => hcs d (List.mem_cons_of_mem _ hd)
      have hc := hcs c List.mem_cons_self
      rw [render, List.flatMap_cons, List.cons_append, components_sep_cons]
      cases cs with
      | nil => simpa using components_of_isComponent sep hc
      | cons d ds =>
          rw [render, List.flatMap_cons, List.cons_append, components_sep_cons] at htail
          rw [List.flatMap_cons, List.cons_append, components_append_sep,
            components_of_isComponent sep hc, htail]
          rfl

theorem splitLast_eq_none {s : List α} : splitLast sep s = none ↔ sep ∉ s := by
  induction s with
  | nil => simp [splitLast]
  | cons c cs ih =>
      rw [splitLast]
      cases hcs : splitLast sep cs with
      | some p =>
          have hmem : sep ∈ cs := by
            by_contra hnot
            rw [ih.mpr hnot] at hcs
            cases hcs
          simp [hmem]
      | none =>
          have hnot := ih.mp hcs
          by_cases hc : c = sep
          · simp [hc]
          · simp [hc, hnot, Ne.symm hc]

theorem splitLast_append {d b : List α} (hb : sep ∉ b) :
    splitLast sep (d ++ sep :: b) = some (d, b) := by
  induction d with
  | nil => simp [splitLast, (splitLast_eq_none sep).mpr hb]
  | cons c cs ih => simp [splitLast, ih]

theorem eq_of_splitLast {s d b : List α} (h : splitLast sep s = some (d, b)) :
    s = d ++ sep :: b ∧ sep ∉ b := by
  induction s generalizing d with
  | nil => simp [splitLast] at h
  | cons c cs ih =>
      rw [splitLast] at h
      cases hcs : splitLast sep cs with
      | some p =>
          obtain ⟨before, after⟩ := p
          rw [hcs] at h
          simp only [Option.some.injEq, Prod.mk.injEq] at h
          obtain ⟨rfl, rfl⟩ := h
          obtain ⟨heq, hafter⟩ := ih hcs
          exact ⟨by rw [heq]; rfl, hafter⟩
      | none =>
          rw [hcs] at h
          by_cases hc : c = sep
          · simp only [hc, if_true, Option.some.injEq, Prod.mk.injEq] at h
            obtain ⟨rfl, rfl⟩ := h
            exact ⟨by simp [hc], (splitLast_eq_none sep).mp hcs⟩
          · simp [hc] at h

/-! Putting texts together. -/

/-- A text that does not end at a separator goes on with its last component. -/
theorem components_last {s : List α} (hs : s ≠ []) (hlast : s.getLast? ≠ some sep) :
    ∃ cs c, IsComponent sep c ∧ ∀ t, components sep (s ++ t) = cs ++ components sep (c ++ t) := by
  cases hcut : splitLast sep s with
  | none => exact ⟨[], s, ⟨hs, (splitLast_eq_none sep).mp hcut⟩, fun t => rfl⟩
  | some p =>
      obtain ⟨d, c⟩ := p
      obtain ⟨rfl, hc⟩ := eq_of_splitLast sep hcut
      have hne : c ≠ [] := by
        rintro rfl
        exact hlast List.getLast?_concat
      refine ⟨components sep d, c, ⟨hne, hc⟩, fun t => ?_⟩
      rw [List.append_assoc, List.cons_append, components_append_sep]

/-- A text that does not start with a separator goes on what stands before it. -/
theorem components_first {t : List α} (ht : t ≠ []) (hhead : t.head? ≠ some sep) :
    ∃ c cs, ∀ s, sep ∉ s → components sep (s ++ t) = (s ++ c) :: cs := by
  by_cases hmem : sep ∈ t
  · obtain ⟨c, u, rfl, hc⟩ := List.eq_append_cons_of_mem hmem
    have hne : c ≠ [] := by
      rintro rfl
      exact hhead rfl
    refine ⟨c, components sep u, fun s hs => ?_⟩
    have hsc : IsComponent sep (s ++ c) := ⟨by simp [hne], by simp [hs, hc]⟩
    rw [← List.append_assoc, components_append_sep, components_of_isComponent sep hsc]
    rfl
  · refine ⟨t, [], fun s hs => ?_⟩
    exact components_of_isComponent sep ⟨by simp [ht], by simp [hs, hmem]⟩

/-- Two texts put together keep their components just when no component of the one runs into one of
the other. -/
theorem components_append_iff (s t : List α) :
    components sep (s ++ t) = components sep s ++ components sep t ↔
      s = [] ∨ t = [] ∨ s.getLast? = some sep ∨ t.head? = some sep := by
  constructor
  · intro heq
    by_contra hnot
    simp only [not_or] at hnot
    obtain ⟨hs, ht, hlast, hhead⟩ := hnot
    obtain ⟨cs, c, hc, hext⟩ := components_last sep hs hlast
    obtain ⟨d, ds, hfirst⟩ := components_first sep ht hhead
    have hs' : components sep s = cs ++ [c] := by
      have hself := hext []
      rwa [List.append_nil, List.append_nil, components_of_isComponent sep hc] at hself
    have ht' : components sep t = d :: ds := hfirst [] (by simp)
    rw [hext, hfirst c hc.2, hs', ht'] at heq
    have hlen := congrArg List.length heq
    simp only [List.length_append, List.length_cons, List.length_nil] at hlen
    omega
  · rintro (rfl | rfl | hlast | hhead)
    · simp
    · simp
    · obtain ⟨d, rfl⟩ := List.getLast?_eq_some_iff.mp hlast
      rw [List.append_assoc, List.singleton_append, components_append_sep,
        components_append_sep sep d [], components_nil, List.append_nil]
    · obtain ⟨u, rfl⟩ := List.head?_eq_some_iff.mp hhead
      rw [components_append_sep, components_sep_cons]

end PathText
