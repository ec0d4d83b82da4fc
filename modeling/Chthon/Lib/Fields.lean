import Mathlib

/-! The fields of a list: its maximal nonempty stretches without a separator. A scan from left to
right, over the separators to the next element that is none and from there to the next separator,
comes by all of them in order. -/

namespace Fields

variable {α : Type} (sep : α → Bool) (s : List α)

/-- The `n` elements from position `i` on are a field. -/
structure IsField (i n : Nat) : Prop where
  pos : 0 < n
  inside : i + n ≤ s.length
  plain : ∀ k c, i ≤ k → k < i + n → s[k]? = some c → sep c = false
  starts : ∀ c, 0 < i → s[i - 1]? = some c → sep c = true
  ends : ∀ c, s[i + n]? = some c → sep c = true

/-- These are the fields that start at `p` or later, in order. -/
structure FieldsFrom (p : Nat) (fs : List (Nat × Nat)) : Prop where
  ordered : fs.Pairwise fun f g => f.1 + f.2 < g.1
  exact : ∀ i n, (i, n) ∈ fs ↔ p ≤ i ∧ IsField sep s i n

section Fields

variable {sep s} {i j n m p : Nat} {fs gs : List (Nat × Nat)}

/-- A field does not start at a separator. -/
theorem IsField.starts_plain (h : IsField sep s i n) : ∃ c, s[i]? = some c ∧ sep c = false := by
  have hin := h.inside
  have hpos := h.pos
  have hat : s[i]? = some s[i] := List.getElem?_eq_getElem (by omega)
  exact ⟨_, hat, h.plain i _ le_rfl (by omega) hat⟩

/-- No field starts inside another, nor where that one ends. -/
theorem IsField.next (h : IsField sep s i n) (h' : IsField sep s j m) (hlt : i < j) : i + n < j := by
  by_contra hle
  have hin := h.inside
  obtain ⟨d, hd, hplain'⟩ := h'.starts_plain
  rcases Nat.lt_or_ge j (i + n) with hj | hj
  · have hbefore : s[j - 1]? = some s[j - 1] := List.getElem?_eq_getElem (by omega)
    have hplain := h.plain (j - 1) _ (by omega) (by omega) hbefore
    have hstart := h'.starts _ (by omega) hbefore
    rw [hplain] at hstart
    cases hstart
  · obtain rfl : j = i + n := by omega
    rw [h.ends d hd] at hplain'
    cases hplain'

/-- Two fields that start together end together. -/
theorem IsField.unique (h : IsField sep s i n) (h' : IsField sep s i m) : n = m := by
  have hle : ∀ {n m}, IsField sep s i n → IsField sep s i m → n ≤ m := by
    intro n m h h'
    by_contra hlt
    have hin := h.inside
    have hat : s[i + m]? = some s[i + m] := List.getElem?_eq_getElem (by omega)
    have hplain := h.plain (i + m) _ (by omega) (by omega) hat
    rw [h'.ends _ hat] at hplain
    cases hplain
  exact le_antisymm (hle h h') (hle h' h)

/-- Nothing but separators is left. -/
theorem FieldsFrom.of_seps (h : ∀ k c, p ≤ k → s[k]? = some c → sep c = true) :
    FieldsFrom sep s p [] where
  ordered := List.Pairwise.nil
  exact i n := by
    refine iff_of_false List.not_mem_nil ?_
    rintro ⟨hp, hfield⟩
    obtain ⟨c, hc, hplain⟩ := hfield.starts_plain
    rw [h i c hp hc] at hplain
    cases hplain

/-- The next field is behind separators, and the others start behind its end. -/
theorem FieldsFrom.cons {q : Nat} (hfield : IsField sep s i n) (hp : p ≤ i)
    (hskip : ∀ k c, p ≤ k → k < i → s[k]? = some c → sep c = true) (hq : i + n ≤ q ∧ q ≤ i + n + 1)
    (h : FieldsFrom sep s q fs) : FieldsFrom sep s p ((i, n) :: fs) where
  ordered := by
    rw [List.pairwise_cons]
    refine ⟨?_, h.ordered⟩
    rintro ⟨j, m⟩ hmem
    obtain ⟨hj, hfield'⟩ := (h.exact j m).mp hmem
    have hpos := hfield.pos
    exact hfield.next hfield' (by omega)
  exact j m := by
    rw [List.mem_cons, h.exact, Prod.mk.injEq]
    constructor
    · rintro (⟨rfl, rfl⟩ | ⟨hj, hfield'⟩)
      · exact ⟨hp, hfield⟩
      · exact ⟨by omega, hfield'⟩
    · rintro ⟨hj, hfield'⟩
      rcases Nat.lt_trichotomy j i with hlt | rfl | hgt
      · -- between `p` and the next field there are separators only
        obtain ⟨c, hc, hplain⟩ := hfield'.starts_plain
        rw [hskip j c hj hlt hc] at hplain
        cases hplain
      · exact .inl ⟨rfl, hfield'.unique hfield⟩
      · have hnext := hfield.next hfield' hgt
        exact .inr ⟨by omega, hfield'⟩

theorem exists_fieldsFrom (sep : α → Bool) (s : List α) (p : Nat) : ∃ fs, FieldsFrom sep s p fs := by
  classical
  let field (i : Nat) : Option (Nat × Nat) :=
    if h : p ≤ i ∧ ∃ n, IsField sep s i n then some (i, h.2.choose) else none
  have hfield : ∀ {i j m}, field i = some (j, m) ↔ i = j ∧ p ≤ j ∧ IsField sep s j m := by
    intro i j m
    by_cases h : p ≤ i ∧ ∃ n, IsField sep s i n
    · simp only [field, dif_pos h, Option.some.injEq, Prod.mk.injEq]
      constructor
      · rintro ⟨rfl, rfl⟩
        exact ⟨rfl, h.1, h.2.choose_spec⟩
      · rintro ⟨rfl, -, hm⟩
        exact ⟨rfl, h.2.choose_spec.unique hm⟩
    · simp only [field, dif_neg h]
      refine iff_of_false (by simp) ?_
      rintro ⟨rfl, hp, hm⟩
      exact h ⟨hp, m, hm⟩
  refine ⟨(List.range s.length).filterMap field, ?_, ?_⟩
  · rw [List.pairwise_filterMap]
    refine List.pairwise_lt_range.imp ?_
    rintro i j hlt ⟨i', n⟩ hi ⟨j', m⟩ hj
    obtain ⟨rfl, -, hn⟩ := hfield.mp hi
    obtain ⟨rfl, -, hm⟩ := hfield.mp hj
    exact hn.next hm hlt
  · intro i n
    rw [List.mem_filterMap]
    constructor
    · rintro ⟨j, -, hj⟩
      exact (hfield.mp hj).2
    · rintro ⟨hp, hn⟩
      have hin := hn.inside
      have hpos := hn.pos
      exact ⟨i, List.mem_range.mpr (by omega), hfield.mpr ⟨rfl, hp, hn⟩⟩

/-- There is only one such list. -/
theorem FieldsFrom.unique (h : FieldsFrom sep s p fs) (h' : FieldsFrom sep s p gs) : fs = gs := by
  have hlt : ∀ {l : List (Nat × Nat)}, l.Pairwise (fun f g => f.1 + f.2 < g.1) →
      l.Pairwise fun f g => f.1 < g.1 :=
    fun hl => hl.imp fun hfg => by omega
  have hperm : fs.Perm gs := by
    refine (List.perm_ext_iff_of_nodup ?_ ?_).mpr fun f => ?_
    · exact (hlt h.ordered).imp fun hfg heq => absurd (heq ▸ hfg) (lt_irrefl _)
    · exact (hlt h'.ordered).imp fun hfg heq => absurd (heq ▸ hfg) (lt_irrefl _)
    · rw [h.exact f.1 f.2, h'.exact f.1 f.2]
  refine hperm.eq_of_pairwise ?_ (hlt h.ordered) (hlt h'.ordered)
  intro f g _ _ hfg hgf
  exact absurd hfg (lt_asymm hgf)

end Fields

/-! Scanning. -/

section Scan

variable {sep} {u v w : List α}

/-- A stretch between separators, or the ends of the list. -/
theorem isField_append (hv : v ≠ []) (hplain : ∀ c ∈ v, sep c = false)
    (hstart : ∀ c, u.getLast? = some c → sep c = true)
    (hend : ∀ c, w.head? = some c → sep c = true) :
    IsField sep (u ++ (v ++ w)) u.length v.length where
  pos := List.length_pos_iff.mpr hv
  inside := by
    rw [List.length_append, List.length_append]
    omega
  plain k c hlo hhi hc := by
    rw [List.getElem?_append_right hlo, List.getElem?_append_left (by omega)] at hc
    exact hplain c (List.mem_of_getElem? hc)
  starts c hpos hc := by
    apply hstart c
    rw [List.getElem?_append_left (by omega)] at hc
    rw [List.getLast?_eq_getElem?, hc]
  ends c hc := by
    apply hend c
    rw [List.getElem?_append_right (by omega), List.getElem?_append_right (by omega)] at hc
    rw [List.head?_eq_getElem?, ← hc]
    congr 1
    omega

/-- Behind `u`, which ends in a separator, the scan skips separators and takes the stretch up to the
next one. -/
theorem isField_scan (hu : ∀ c, u.getLast? = some c → sep c = true) (t : List α)
    (hne : t.dropWhile sep ≠ []) : IsField sep (u ++ t) (u.length + (t.takeWhile sep).length)
      ((t.dropWhile sep).takeWhile (!sep ·)).length := by
  set v := (t.dropWhile sep).takeWhile (!sep ·) with hv
  set w := (t.dropWhile sep).dropWhile (!sep ·) with hw
  have hsplit : u ++ t = (u ++ t.takeWhile sep) ++ (v ++ w) := by
    rw [hv, hw, List.takeWhile_append_dropWhile, List.append_assoc, List.takeWhile_append_dropWhile]
  rw [hsplit, ← List.length_append]
  apply isField_append
  · rw [hv]
    intro hnil
    have hhead := List.head_dropWhile_not sep hne
    have hpos := List.length_pos_iff.mpr hne
    rw [List.head_eq_getElem] at hhead
    apply List.takeWhile_eq_nil_iff.mp hnil hpos
    rw [List.get_eq_getElem, hhead]
    rfl
  · intro c hc
    have hplain := List.mem_takeWhile_imp (hv ▸ hc)
    rwa [Bool.not_eq_true'] at hplain
  · intro c hc
    rw [List.getLast?_append] at hc
    cases hlast : (t.takeWhile sep).getLast? with
    | none =>
        rw [hlast, Option.none_or] at hc
        exact hu c hc
    | some d =>
        rw [hlast, Option.some_or] at hc
        cases hc
        exact List.mem_takeWhile_imp (List.mem_of_getLast? hlast)
  · intro c hc
    rw [hw] at hc
    have hhead := List.head?_dropWhile_not (!sep ·) (t.dropWhile sep)
    rw [hc] at hhead
    simpa using hhead

/-- What it skips are separators. -/
theorem seps_scan (u t : List α) {k : Nat} {c : α} (hlo : u.length ≤ k)
    (hhi : k < u.length + (t.takeWhile sep).length) (hc : (u ++ t)[k]? = some c) : sep c = true := by
  rw [List.getElem?_append_right hlo] at hc
  obtain ⟨hk, rfl⟩ := List.getElem?_eq_some_iff.mp hc
  have hlt : k - u.length < (t.takeWhile sep).length := by omega
  rw [← (List.takeWhile_prefix sep).getElem hlt]
  exact List.mem_takeWhile_imp (List.getElem_mem hlt)

/-- Without a stretch to take, separators are all that is left. -/
theorem seps_of_dropWhile {u t : List α} (h : t.dropWhile sep = []) {k : Nat} {c : α}
    (hlo : u.length ≤ k) (hc : (u ++ t)[k]? = some c) : sep c = true := by
  rw [List.getElem?_append_right hlo] at hc
  exact List.dropWhile_eq_nil_iff.mp h c (List.mem_of_getElem? hc)

end Scan

end Fields
