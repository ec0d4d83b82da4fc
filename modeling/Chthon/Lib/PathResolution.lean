import Chthon.Lib.PathText
import Chthon.Lib.DirectoryTree

/-! Resolving absolute paths: how deep a sequence of names leads, which names of it are still there
at the end, and the canonical texts, each of which is the text of its own components. -/

namespace PathResolution

open PathText DirectoryTree

/-- Where a longer sequence is cut at a name: the name is its last one, or the cut is one of the
sequence without it. -/
theorem append_singleton_eq_split {α : Type} {ts before after : List α} {s t : α}
    (h : ts ++ [s] = before ++ t :: after) :
    (before = ts ∧ t = s ∧ after = []) ∨
      ∃ after', after = after' ++ [s] ∧ ts = before ++ t :: after' := by
  induction after using List.reverseRecOn with
  | nil =>
      obtain ⟨rfl, hs⟩ := List.append_inj' h rfl
      obtain rfl : s = t := by simpa using hs
      exact .inl ⟨rfl, rfl, rfl⟩
  | append_singleton after' u _ =>
      rw [← List.cons_append, ← List.append_assoc] at h
      obtain ⟨hts, hs⟩ := List.append_inj' h rfl
      obtain rfl : s = u := by simpa using hs
      exact .inr ⟨after', rfl, hts⟩

section Depth

variable {α : Type} [DecidableEq α] (dot dotdot : α)

def depthStep (d : Nat) (t : α) : Nat := if t = dot then d else if t = dotdot then d - 1 else d + 1

/-- How far below the root a sequence of names leads. -/
def depth (ts : List α) : Nat := ts.foldl (depthStep dot dotdot) 0

/-- A plain name of a sequence leads below depth `k`, and the sequence does not come back there. -/
structure StaysBelow (ts : List α) (k : Nat) (before : List α) (t : α) (after : List α) : Prop where
  split : ts = before ++ t :: after
  plain : Plain dot dotdot t
  below : ∀ mid, mid <+: after → k < depth dot dotdot (before ++ t :: mid)

variable {dot dotdot} {ts before after : List α} {s t : α} {k : Nat}

theorem depth_append (ts : List α) (t : α) :
    depth dot dotdot (ts ++ [t]) = depthStep dot dotdot (depth dot dotdot ts) t := by
  simp [depth]

theorem depthStep_plain (d : Nat) (ht : Plain dot dotdot t) :
    depthStep dot dotdot d t = d + 1 := by
  rw [depthStep, if_neg ht.1, if_neg ht.2]

theorem length_normalizeStep (p : List α) (t : α) :
    (normalizeStep dot dotdot p t).length = depthStep dot dotdot p.length t := by
  rw [normalizeStep, depthStep]
  split_ifs <;> simp

theorem length_normalize (ts : List α) :
    (normalize dot dotdot ts).length = depth dot dotdot ts := by
  induction ts using List.reverseRecOn with
  | nil => rfl
  | append_singleton ts t ih => rw [normalize_append, depth_append, length_normalizeStep, ih]

theorem StaysBelow.deep (h : StaysBelow dot dotdot ts k before t after) :
    k < depth dot dotdot ts := by
  rw [h.split]
  exact h.below after List.prefix_rfl

/-- One more name: it is the one that stays below, or an earlier one does and is not taken back. -/
theorem staysBelow_append_iff : StaysBelow dot dotdot (ts ++ [s]) k before t after ↔
    (before = ts ∧ t = s ∧ after = [] ∧ Plain dot dotdot s ∧ k ≤ depth dot dotdot ts) ∨
      ∃ after', after = after' ++ [s] ∧ k < depth dot dotdot (ts ++ [s]) ∧
        StaysBelow dot dotdot ts k before t after' := by
  constructor
  · intro h
    rcases append_singleton_eq_split h.split with ⟨rfl, rfl, rfl⟩ | ⟨after', rfl, hts⟩
    · have hdeep := h.deep
      rw [depth_append, depthStep_plain _ h.plain] at hdeep
      exact .inl ⟨rfl, rfl, rfl, h.plain, by omega⟩
    · exact .inr ⟨after', rfl, h.deep, hts, h.plain,
        fun mid hmid => h.below mid (hmid.trans (List.prefix_append _ _))⟩
  · rintro (⟨rfl, rfl, rfl, hplain, hk⟩ | ⟨after', rfl, hdeep, h⟩)
    · refine ⟨rfl, hplain, ?_⟩
      intro mid hmid
      rw [List.prefix_nil.mp hmid, depth_append, depthStep_plain _ hplain]
      omega
    · refine ⟨by rw [h.split]; simp, h.plain, ?_⟩
      intro mid hmid
      rcases List.prefix_concat_iff.mp hmid with rfl | hmid
      · rw [h.split] at hdeep
        simpa using hdeep
      · exact h.below mid hmid

/-- The name at place `k` of a resolution, found in the sequence: it stays below the depth it was
met at. -/
theorem survivor_append_iff :
    (∃ before after, depth dot dotdot before = k ∧
        StaysBelow dot dotdot (ts ++ [s]) k before t after) ↔
      (Plain dot dotdot s ∧ t = s ∧ depth dot dotdot ts = k) ∨
        (k < depth dot dotdot (ts ++ [s]) ∧
          ∃ before after, depth dot dotdot before = k ∧
            StaysBelow dot dotdot ts k before t after) := by
  constructor
  · rintro ⟨before, after, hplace, h⟩
    rcases staysBelow_append_iff.mp h with ⟨rfl, rfl, -, hplain, -⟩ | ⟨after', -, hdeep, hbelow⟩
    · exact .inl ⟨hplain, rfl, hplace⟩
    · exact .inr ⟨hdeep, before, after', hplace, hbelow⟩
  · rintro (⟨hplain, rfl, hplace⟩ | ⟨hdeep, before, after, hplace, h⟩)
    · exact ⟨ts, [], hplace, staysBelow_append_iff.mpr (.inl ⟨rfl, rfl, rfl, hplain, hplace.ge⟩)⟩
    · exact ⟨before, after ++ [s], hplace, staysBelow_append_iff.mpr (.inr ⟨after, rfl, hdeep, h⟩)⟩

/-- The names of the resolution are the ones that stay below, each at its place. -/
theorem normalize_getElem? : (normalize dot dotdot ts)[k]? = some t ↔
    ∃ before after, depth dot dotdot before = k ∧
      StaysBelow dot dotdot ts k before t after := by
  induction ts using List.reverseRecOn generalizing k t with
  | nil =>
      constructor
      · intro h
        cases h
      · rintro ⟨before, after, -, h⟩
        simpa using h.split
  | append_singleton ts s ih =>
      rw [survivor_append_iff, ← ih, normalize_append, depth_append, ← length_normalize]
      rw [normalizeStep, depthStep]
      split_ifs with hdot hdotdot
      · have hplain : ¬ Plain dot dotdot s := fun h => h.1 hdot
        simp only [hplain, false_and, false_or]
        exact ⟨fun h => ⟨(List.getElem?_eq_some_iff.mp h).1, h⟩, fun h => h.2⟩
      · have hplain : ¬ Plain dot dotdot s := fun h => h.2 hdotdot
        simp only [hplain, false_and, false_or, List.getElem?_dropLast]
        split_ifs with hk <;> simp [hk]
      · have hplain : Plain dot dotdot s := ⟨hdot, hdotdot⟩
        rw [List.getElem?_append]
        split_ifs with hk
        · have hne : (normalize dot dotdot ts).length ≠ k := by omega
          have hlt : k < (normalize dot dotdot ts).length + 1 := by omega
          simp [hne, hlt]
        · have hnone : (normalize dot dotdot ts)[k]? = none := by simpa using hk
          rw [List.getElem?_singleton, hnone]
          simp only [hplain, true_and]
          by_cases heq : k = (normalize dot dotdot ts).length
          · simp [heq, eq_comm]
          · have hpos : k - (normalize dot dotdot ts).length ≠ 0 := by omega
            simp [hpos, Ne.symm heq]

theorem mem_normalize : t ∈ normalize dot dotdot ts ↔
    ∃ before after, StaysBelow dot dotdot ts (depth dot dotdot before) before t after := by
  rw [List.mem_iff_getElem?]
  constructor
  · rintro ⟨k, hk⟩
    obtain ⟨before, after, rfl, h⟩ := normalize_getElem?.mp hk
    exact ⟨before, after, h⟩
  · rintro ⟨before, after, h⟩
    exact ⟨_, normalize_getElem?.mpr ⟨before, after, rfl, h⟩⟩

/-- Resolving plain names changes nothing. -/
theorem foldl_normalizeStep_plain (p : List α) (hts : ∀ t ∈ ts, Plain dot dotdot t) :
    ts.foldl (normalizeStep dot dotdot) p = p ++ ts := by
  induction ts generalizing p with
  | nil => simp
  | cons t ts ih =>
      rw [List.foldl_cons, normalizeStep_plain (hts t List.mem_cons_self),
        ih _ fun s hs => hts s (List.mem_cons_of_mem _ hs)]
      simp

/-- A resolution keeps whatever holds of the names it starts from and of the plain ones it adds. -/
theorem forall_mem_foldl_normalizeStep {P : α → Prop} (p : List α) (hp : ∀ t ∈ p, P t)
    (hts : ∀ t ∈ ts, Plain dot dotdot t → P t) :
    ∀ t ∈ ts.foldl (normalizeStep dot dotdot) p, P t := by
  induction ts generalizing p with
  | nil => exact hp
  | cons s ts ih =>
      apply ih _ _ fun t ht => hts t (List.mem_cons_of_mem _ ht)
      intro t ht
      rw [normalizeStep] at ht
      split_ifs at ht with hdot hdotdot
      · exact hp t ht
      · exact hp t (List.mem_of_mem_dropLast ht)
      · rcases List.mem_append.mp ht with ht | ht
        · exact hp t ht
        · obtain rfl := List.mem_singleton.mp ht
          exact hts t List.mem_cons_self ⟨hdot, hdotdot⟩

end Depth

section Text

variable {α : Type} [DecidableEq α] (sep : α) (dot dotdot : List α)

/-- The absolute text of a component list; the root is the separator alone. -/
def absolute (cs : List (List α)) : List α := if cs = [] then [sep] else render sep cs

/-- A text that can be told to be resolved by looking at it. -/
structure Canonical (s : List α) : Prop where
  rooted : s.head? = some sep
  noEmpty : s ≠ [sep] → [] ∉ s.tail.splitOn sep
  plain : ∀ c ∈ components sep s, Plain dot dotdot c
  noTrailing : s ≠ [sep] → s.getLast? ≠ some sep

variable {sep dot dotdot} {s : List α} {c : List α} {cs : List (List α)}

omit [DecidableEq α] in
theorem render_cons : render sep (c :: cs) = sep :: c ++ render sep cs := rfl

omit [DecidableEq α] in
theorem render_append (cs ds : List (List α)) :
    render sep (cs ++ ds) = render sep cs ++ render sep ds := by
  simp [render]

omit [DecidableEq α] in
theorem render_singleton (c : List α) : render sep [c] = sep :: c := by
  simp [render]

theorem splitOn_tail_render (hcs : ∀ d ∈ c :: cs, sep ∉ d) :
    (render sep (c :: cs)).tail.splitOn sep = c :: cs := by
  induction cs generalizing c with
  | nil =>
      rw [render_singleton, List.tail_cons, List.splitOn_eq_singleton (hcs c List.mem_cons_self)]
  | cons d ds ih =>
      have htail := ih fun e he => hcs e (List.mem_cons_of_mem _ he)
      rw [render_cons, List.cons_append, List.tail_cons] at htail
      rw [render_cons, List.cons_append, List.tail_cons, render_cons, List.cons_append,
        List.splitOn_append_cons_self, List.splitOn_eq_singleton (hcs c List.mem_cons_self)]
      exact congrArg (c :: ·) htail

theorem render_splitOn (t : List α) : render sep (t.splitOn sep) = sep :: t := by
  induction t using text_induction sep with
  | run c hc => rw [List.splitOn_eq_singleton hc, render_singleton]
  | cut c t hc ih =>
      rw [List.splitOn_append_cons_self, List.splitOn_eq_singleton hc, render_append, ih,
        render_singleton]
      rfl

theorem components_absolute (hcs : ∀ c ∈ cs, IsComponent sep c) :
    components sep (absolute sep cs) = cs := by
  rw [absolute]
  split_ifs with h
  · rw [h, components_sep_cons, components_nil]
  · exact components_render sep hcs

/-- The text of a list of plain components is canonical. -/
theorem canonical_absolute (hcs : ∀ c ∈ cs, IsComponent sep c ∧ Plain dot dotdot c) :
    Canonical sep dot dotdot (absolute sep cs) where
  rooted := by
    cases cs <;> rfl
  noEmpty := by
    intro hne hmem
    cases cs with
    | nil => exact hne rfl
    | cons c cs =>
        rw [absolute, if_neg (List.cons_ne_nil _ _),
          splitOn_tail_render fun d hd => (hcs d hd).1.2] at hmem
        exact (hcs [] hmem).1.1 rfl
  plain := by
    rw [components_absolute fun c hc => (hcs c hc).1]
    exact fun c hc => (hcs c hc).2
  noTrailing := by
    intro hne hlast
    induction cs using List.reverseRecOn with
    | nil => exact hne rfl
    | append_singleton cs c _ =>
        have hc := (hcs c (by simp)).1
        rw [absolute, if_neg (by simp), render_append, render_singleton,
          List.getLast?_append_of_ne_nil _ (List.cons_ne_nil _ _),
          List.getLast?_cons_of_ne_nil hc.1] at hlast
        exact hc.2 (List.mem_of_getLast? hlast)

/-- A canonical text is the text of its own components. -/
theorem Canonical.eq_absolute (h : Canonical sep dot dotdot s) :
    s = absolute sep (components sep s) := by
  have hs := List.eq_cons_of_mem_head? h.rooted
  by_cases hroot : s = [sep]
  · rw [hroot, components_sep_cons, components_nil]
    rfl
  have hsplit : components sep s = s.tail.splitOn sep := by
    rw [hs, components_sep_cons, components, List.tail_cons, List.filter_eq_self]
    intro c hc
    simpa using fun hnil : c = [] => h.noEmpty hroot (hnil ▸ hc)
  have hne : s.tail.splitOn sep ≠ [] := List.splitOn_ne_nil _ _
  rw [hsplit, absolute, if_neg hne, render_splitOn]
  exact hs

theorem Canonical.isComponent (h : Canonical sep dot dotdot s) :
    ∀ c ∈ components sep s, IsComponent sep c ∧ Plain dot dotdot c :=
  fun c hc => ⟨(mem_components sep hc).1, h.plain c hc⟩

/-- Splitting a text and putting its components together again makes it no longer. -/
theorem length_render_components (s : List α) :
    (render sep (components sep s)).length ≤ s.length + 1 := by
  induction s using text_induction sep with
  | run c hc =>
      by_cases hnil : c = []
      · simp [hnil, render]
      · rw [components_of_isComponent sep ⟨hnil, hc⟩, render_singleton, List.length_cons]
  | cut c t hc ih =>
      have hhead : (render sep (components sep c)).length ≤ c.length + 1 := by
        by_cases hnil : c = []
        · simp [hnil, render]
        · rw [components_of_isComponent sep ⟨hnil, hc⟩, render_singleton, List.length_cons]
      rw [components_append_sep, render_append, List.length_append, List.length_append,
        List.length_cons]
      omega

end Text

end PathResolution
