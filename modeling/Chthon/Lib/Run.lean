import Mathlib

/-! Finite runs of a partial step function, recorded as the list of events with their results.
Each step may be required to meet a condition on the state it is taken in. -/

namespace Run

variable {σ ε ρ : Type} {step : σ → ε → Option (ρ × σ)} {ok : σ → ε → Prop}

/-- `Steps step ok s trace t`: the events of `trace` lead from `s` to `t`, each with its recorded
result, and each met `ok` in the state it was taken in. -/
inductive Steps (step : σ → ε → Option (ρ × σ)) (ok : σ → ε → Prop) (s : σ) :
    List (ε × ρ) → σ → Prop
  | nil : Steps step ok s [] s
  | snoc {trace : List (ε × ρ)} {t u : σ} {e : ε} {r : ρ} (prior : Steps step ok s trace t)
      (allowed : ok t e) (taken : step t e = some (r, u)) : Steps step ok s (trace ++ [(e, r)]) u

/-- The state after an event; where the step is undefined, the state before it. -/
def next (step : σ → ε → Option (ρ × σ)) (s : σ) (e : ε) : σ := ((step s e).map Prod.snd).getD s

theorem step_next {s : σ} {e : ε} {r : ρ} (h : (step s e).map Prod.fst = some r) :
    step s e = some (r, next step s e) := by
  rw [Option.map_eq_some_iff] at h
  obtain ⟨⟨r', u⟩, hstep, rfl⟩ := h
  rw [next, hstep]
  rfl

/-- A run goes on with an event whose result is known. -/
theorem Steps.extend {s t : σ} {trace : List (ε × ρ)} (h : Steps step ok s trace t) (e : ε) (r : ρ)
    (allowed : ok t e) (result : (step t e).map Prod.fst = some r) :
    Steps step ok s (trace ++ [(e, r)]) (next step t e) :=
  h.snoc allowed (step_next result)

/-- What holds at the start and is kept by every allowed step holds after every run. -/
theorem Steps.invariant {P : List (ε × ρ) → σ → Prop} {s t : σ} {trace : List (ε × ρ)}
    (h : Steps step ok s trace t) (start : P [] s)
    (keep : ∀ trace t e r u, P trace t → ok t e → step t e = some (r, u) →
      P (trace ++ [(e, r)]) u) : P trace t := by
  induction h with
  | nil => exact start
  | snoc _ allowed taken ih => exact keep _ _ _ _ _ ih allowed taken

/-- The invariant rule for a property of the state alone. -/
theorem Steps.preserves {P : σ → Prop} {s t : σ} {trace : List (ε × ρ)}
    (h : Steps step ok s trace t) (start : P s)
    (keep : ∀ t e r u, P t → ok t e → step t e = some (r, u) → P u) : P t :=
  h.invariant (P := fun _ t => P t) start fun _ t e r u => keep t e r u

theorem Steps.append {s t u : σ} {trace trace' : List (ε × ρ)} (h : Steps step ok s trace t)
    (h' : Steps step ok t trace' u) : Steps step ok s (trace ++ trace') u := by
  induction h' with
  | nil =>
      rw [List.append_nil]
      exact h
  | snoc _ allowed taken ih =>
      rw [← List.append_assoc]
      exact ih.snoc allowed taken

/-- A run is followed by another system that can answer each of its steps with the same result. -/
theorem Steps.simulate {τ : Type} {R : σ → τ → Prop} {s t : σ} {s' : τ} {trace : List (ε × ρ)}
    (h : Steps step ok s trace t) (step' : τ → ε → Option (ρ × τ)) (start : R s s')
    (follow : ∀ t t' e r u, R t t' → step t e = some (r, u) →
      ∃ u', step' t' e = some (r, u') ∧ R u u') :
    ∃ t', Steps step' (fun _ _ => True) s' trace t' ∧ R t t' := by
  induction h with
  | nil => exact ⟨s', .nil, start⟩
  | snoc _ _ taken ih =>
      obtain ⟨t', hprior, hrel⟩ := ih
      obtain ⟨u', htaken, hrel'⟩ := follow _ _ _ _ _ hrel taken
      exact ⟨u', hprior.snoc trivial htaken, hrel'⟩

/-! Runs that carry their own history, for conditions on what happened before. -/

def recorded (step : σ → ε → Option (ρ × σ)) (s : σ × List (ε × ρ)) (e : ε) :
    Option (ρ × (σ × List (ε × ρ))) :=
  (step s.1 e).map fun (r, t) => (r, t, s.2 ++ [(e, r)])

theorem recorded_some {s t : σ × List (ε × ρ)} {e : ε} {r : ρ}
    (h : recorded step s e = some (r, t)) :
    step s.1 e = some (r, t.1) ∧ t.2 = s.2 ++ [(e, r)] := by
  rw [recorded, Option.map_eq_some_iff] at h
  obtain ⟨⟨r', u⟩, hstep, heq⟩ := h
  cases heq
  exact ⟨hstep, rfl⟩

/-- The history is that of the run. -/
theorem Steps.history {ok : σ × List (ε × ρ) → ε → Prop} {s : σ} {t : σ × List (ε × ρ)}
    {trace : List (ε × ρ)} (h : Steps (recorded step) ok (s, []) trace t) : t.2 = trace := by
  apply h.invariant (P := fun trace t => t.2 = trace) rfl
  intro trace t e r u ht _ hstep
  rw [(recorded_some hstep).2, ht]

/-! Runs given by their events. -/

/-- The results of a sequence of events. -/
def replies (step : σ → ε → Option (ρ × σ)) (s : σ) : List ε → Option (List ρ)
  | [] => some []
  | e :: es => (step s e).bind fun (r, t) => (replies step t es).map (r :: ·)

/-- Every event of the sequence meets `ok` in the state it is taken in. -/
def Admits (step : σ → ε → Option (ρ × σ)) (ok : σ → ε → Prop) (s : σ) : List ε → Prop
  | [] => True
  | e :: es => ok s e ∧ Admits step ok (next step s e) es

instance decidableAdmits [∀ s e, Decidable (ok s e)] :
    (s : σ) → (es : List ε) → Decidable (Admits step ok s es)
  | _, [] => .isTrue trivial
  | s, e :: es =>
      have := decidableAdmits (next step s e) es
      inferInstanceAs (Decidable (ok s e ∧ Admits step ok (next step s e) es))

theorem admits_true (s : σ) (es : List ε) : Admits step (fun _ _ => True) s es := by
  induction es generalizing s with
  | nil => trivial
  | cons e es ih => exact ⟨trivial, ih _⟩

theorem steps_of_replies (step : σ → ε → Option (ρ × σ)) (s : σ) (es : List ε) (rs : List ρ)
    (h : replies step s es = some rs) (hok : Admits step ok s es) :
    Steps step ok s (es.zip rs) (es.foldl (next step) s) := by
  induction es generalizing s rs with
  | nil =>
      cases h
      exact Steps.nil
  | cons e es ih =>
      rw [replies, Option.bind_eq_some_iff] at h
      obtain ⟨⟨r, t⟩, hstep, h⟩ := h
      rw [Option.map_eq_some_iff] at h
      obtain ⟨rs, hrest, rfl⟩ := h
      have hnext : next step s e = t := by
        rw [next, hstep]
        rfl
      have hfirst : Steps step ok s ([] ++ [(e, r)]) t := Steps.nil.snoc hok.1 hstep
      rw [List.zip_cons_cons, List.foldl_cons, hnext]
      exact hfirst.append (ih t rs hrest (hnext ▸ hok.2))

/-- A run ends where its events lead. -/
theorem Steps.foldl_next {s t : σ} {trace : List (ε × ρ)} (h : Steps step ok s trace t) :
    (trace.map Prod.fst).foldl (next step) s = t := by
  induction h with
  | nil => rfl
  | snoc _ _ taken ih =>
      rw [List.map_append, List.foldl_append, ih, List.map_singleton, List.foldl_cons,
        List.foldl_nil, next, taken]
      rfl

/-- A system that can follow another in every admitted step answers every admitted sequence of
events as the other does, and no step of it is undefined. -/
theorem Admits.follow {τ : Type} {R : σ → τ → Prop} {s : σ} {s' : τ} {es : List ε}
    (h : Admits step ok s es) (step' : τ → ε → Option (ρ × τ)) (start : R s s')
    (keep : ∀ t t' e, R t t' → ok t e →
      ∃ r u u', step t e = some (r, u) ∧ step' t' e = some (r, u') ∧ R u u') :
    ∃ rs, replies step s es = some rs ∧ replies step' s' es = some rs ∧
      R (es.foldl (next step) s) (es.foldl (next step') s') := by
  induction es generalizing s s' with
  | nil => exact ⟨[], rfl, rfl, start⟩
  | cons e es ih =>
      obtain ⟨r, u, u', htaken, htaken', hrel⟩ := keep s s' e start h.1
      have hnext : next step s e = u := by
        rw [next, htaken]
        rfl
      have hnext' : next step' s' e = u' := by
        rw [next, htaken']
        rfl
      obtain ⟨rs, hrs, hrs', hend⟩ := ih (hnext ▸ h.2) hrel
      refine ⟨r :: rs, ?_, ?_, ?_⟩
      · simp only [replies, htaken, Option.bind_some, hrs, Option.map_some]
      · simp only [replies, htaken', Option.bind_some, hrs', Option.map_some]
      · rw [List.foldl_cons, List.foldl_cons, hnext, hnext']
        exact hend

end Run
