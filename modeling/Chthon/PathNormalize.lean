import Chthon.Lib.PathResolution
import Chthon.AbyssTree
import Chthon.VfsModel

/-! `vfs_normalize_path` works through the bytes of a path and never notes where a component starts.
Component by component it still is a fold: the names `.` and `..` are resolved, but a name that ends
in one dot loses it and a name that ends in two is dropped whole. -/

namespace Chthon

open PathText DirectoryTree PathResolution

/-- A path `vfs_normalize_path` is made for: it starts at the root and fits the buffer `temp`. -/
structure BufferedPath extends CString where
  rooted : chars.head? = some slash
  short : chars.length < maxPath

/-! The loop inside a component. -/

def SegmentEnds (src : Str) : Prop := src = [] ∨ src.head? = some slash

/-- No dot of `e` looks like the last or the last but one byte of a component when `t` follows. -/
def Quiet (e t : Str) : Prop := ∀ e₁ e₂, e = e₁ ++ 46 :: e₂ →
  ¬ SegmentEnds (e₂ ++ t) ∧ ∀ rest, e₂ ++ t = 46 :: rest → ¬ SegmentEnds rest

variable {e t c rest out : Str} {cs : List Str}

theorem not_segmentEnds_append (he : slash ∉ e) (h : e ≠ [] ∨ ¬ SegmentEnds t) :
    ¬ SegmentEnds (e ++ t) := by
  cases e with
  | nil => simpa using h
  | cons x xs =>
      rintro (hnil | hhead)
      · cases hnil
      · exact he (by simpa using Or.inl (Option.some.inj hhead).symm)

theorem normalizeLoop_push {x : UInt8} {src : Str} (hx : x ≠ slash)
    (hdot : x = 46 → ¬ SegmentEnds src ∧ ∀ rest, src = 46 :: rest → ¬ SegmentEnds rest) :
    normalizeLoop (x :: src) out = normalizeLoop src (x :: out) := by
  have hone : ¬ (x = 46 ∧ (src = [] ∨ src.head? = some slash)) := fun h => (hdot h.1).1 h.2
  rw [normalizeLoop.eq_def]
  simp only [hx, if_false, hone]
  cases src with
  | nil => rfl
  | cons d rest =>
      refine if_neg ?_
      rintro ⟨hx, rfl, hends⟩
      exact (hdot hx).2 rest rfl hends

theorem normalizeLoop_append (he : slash ∉ e) (hquiet : Quiet e t) :
    normalizeLoop (e ++ t) out = normalizeLoop t (e.reverse ++ out) := by
  induction e generalizing out with
  | nil => rfl
  | cons x xs ih =>
      have hx : x ≠ slash := fun h => he (by simp [h])
      have hrest : normalizeLoop (xs ++ t) (x :: out) =
          normalizeLoop t (xs.reverse ++ x :: out) := by
        apply ih fun h => he (List.mem_cons_of_mem _ h)
        intro e₁ e₂ hsplit
        exact hquiet (x :: e₁) e₂ (by rw [hsplit]; rfl)
      calc normalizeLoop (x :: (xs ++ t)) out
          = normalizeLoop (xs ++ t) (x :: out) :=
            normalizeLoop_push hx fun hdot => hquiet [] xs (by rw [hdot]; rfl)
        _ = normalizeLoop t (xs.reverse ++ x :: out) := hrest
        _ = normalizeLoop t ((x :: xs).reverse ++ out) := by simp

/-- What follows a dot of a name that does not end in one. -/
theorem tail_of_last_ne {e₁ e₂ : Str} (hlast : e.getLast? ≠ some 46) (h : e = e₁ ++ 46 :: e₂) :
    e₂ ≠ [] ∧ ∀ y, e₂ = 46 :: y → y ≠ [] := by
  constructor
  · rintro rfl
    exact hlast (by rw [h]; simp)
  · rintro y rfl rfl
    exact hlast (by rw [h]; simp)

theorem quiet_before (he : slash ∉ e) (hlast : e.getLast? ≠ some 46) (t : Str) : Quiet e t := by
  intro e₁ e₂ hsplit
  obtain ⟨hne, hnext⟩ := tail_of_last_ne hlast hsplit
  have hslash : slash ∉ e₂ := fun h => he (by rw [hsplit]; simp [h])
  refine ⟨not_segmentEnds_append hslash (.inl hne), ?_⟩
  intro r hr
  cases e₂ with
  | nil => exact absurd rfl hne
  | cons y ys =>
      obtain ⟨rfl, rfl⟩ := List.cons.inj hr
      exact not_segmentEnds_append (fun h => hslash (List.mem_cons_of_mem _ h))
        (.inl (hnext ys rfl))

theorem quiet_before_dots (he : slash ∉ e) (t : Str) : Quiet e (46 :: 46 :: t) := by
  have hdots : ∀ u : Str, ¬ SegmentEnds (46 :: u) := by
    rintro u (hnil | hhead)
    · cases hnil
    · exact absurd (Option.some.inj hhead) (by decide)
  intro e₁ e₂ hsplit
  have hslash : slash ∉ e₂ := fun h => he (by rw [hsplit]; simp [h])
  refine ⟨not_segmentEnds_append hslash (.inr (hdots _)), ?_⟩
  intro r hr
  cases e₂ with
  | nil =>
      obtain rfl := (List.cons.inj hr).2
      exact hdots t
  | cons y ys =>
      obtain ⟨rfl, rfl⟩ := List.cons.inj hr
      exact not_segmentEnds_append (fun h => hslash (List.mem_cons_of_mem _ h)) (.inr (hdots _))

theorem normalizeLoop_dot (he : slash ∉ e) (hlast : e.getLast? ≠ some 46)
    (hrest : SegmentEnds rest) :
    normalizeLoop (e ++ 46 :: rest) out = normalizeLoop rest (e.reverse ++ out) := by
  rw [normalizeLoop_append he (quiet_before he hlast _), normalizeLoop.eq_def]
  have hne : (46 : UInt8) ≠ slash := by decide
  simp only [hne, if_false, true_and]
  exact if_pos hrest

theorem normalizeLoop_dots (he : slash ∉ e) (hrest : SegmentEnds rest) :
    normalizeLoop (e ++ 46 :: 46 :: rest) out =
      normalizeLoop rest (dropSegment (e.reverse ++ out)) := by
  rw [normalizeLoop_append he (quiet_before_dots he _), normalizeLoop.eq_def]
  have hne : (46 : UInt8) ≠ slash := by decide
  have hmore : ¬ ((46 :: rest : Str) = [] ∨ (46 :: rest : Str).head? = some slash) := by
    rintro (hnil | hhead)
    · cases hnil
    · exact hne (Option.some.inj hhead)
  simp only [hne, if_false, hmore, and_false, true_and]
  exact if_pos hrest

/-! The loop from component to component. -/

/-- What the loop makes of one component, given those it holds. -/
def segmentStep (cs : List Str) (c : Str) : List Str :=
  if c = dotName then cs
  else if c = dotdotName then cs.dropLast
  else if dotdotName <:+ c then cs
  else if dotName <:+ c then cs ++ [c.dropLast]
  else cs ++ [c]

/-- The components `vfs_normalize_path` leaves of a path. -/
def normalizedComponents (path : Str) : List Str :=
  (components slash path).foldl segmentStep []

/-- `temp` at the start of a component, last byte first. -/
def directoryBuffer (cs : List Str) : Str := slash :: (render slash cs).reverse

/-- `temp` holds the components `cs`, with or without a slash behind them. -/
def BufferOf (cs : List Str) (out : Str) : Prop :=
  out = directoryBuffer cs ∨ (cs ≠ [] ∧ out = (render slash cs).reverse)

/-- A component as `temp` holds it: none of them ends in a dot. -/
def KeptName (c : Str) : Prop := IsComponent slash c ∧ ¬ dotName <:+ c

theorem dotName_suffix_iff : dotName <:+ c ↔ c.getLast? = some 46 := by
  constructor
  · rintro ⟨e, rfl⟩
    simp [dotName, ascii]
  · intro h
    obtain ⟨e, rfl⟩ := List.getLast?_eq_some_iff.mp h
    exact ⟨e, rfl⟩

theorem KeptName.plain (h : KeptName c) : Plain dotName dotdotName c := by
  constructor
  · rintro rfl
    exact h.2 List.suffix_rfl
  · rintro rfl
    exact h.2 ⟨dotName, rfl⟩

theorem segmentStep_kept (h : KeptName c) : segmentStep cs c = cs ++ [c] := by
  have hdots : ¬ dotdotName <:+ c := fun hs => h.2 ((show dotName <:+ dotdotName by decide).trans hs)
  rw [segmentStep, if_neg h.plain.1, if_neg h.plain.2, if_neg hdots, if_neg h.2]

/-- Each branch holds on to names that are kept. -/
theorem segmentStep_keptName (hcs : ∀ d ∈ cs, KeptName d) (hc : IsComponent slash c) :
    ∀ d ∈ segmentStep cs c, KeptName d := by
  intro d hd
  rw [segmentStep] at hd
  split_ifs at hd with hdot hdotdot hdots hone
  · exact hcs d hd
  · exact hcs d (List.mem_of_mem_dropLast hd)
  · exact hcs d hd
  · rcases List.mem_append.mp hd with hd | hd
    · exact hcs d hd
    obtain rfl := List.mem_singleton.mp hd
    obtain ⟨e, rfl⟩ := hone
    have heq : (e ++ dotName).dropLast = e := List.dropLast_concat
    rw [heq]
    refine ⟨⟨?_, fun h => hc.2 (List.mem_append_left _ h)⟩, ?_⟩
    · rintro rfl
      exact hdot rfl
    · rintro ⟨f, rfl⟩
      exact hdots ⟨f, by simp [dotName, dotdotName, ascii]⟩
  · rcases List.mem_append.mp hd with hd | hd
    · exact hcs d hd
    obtain rfl := List.mem_singleton.mp hd
    exact ⟨hc, hone⟩

theorem dropWhile_directoryBuffer (he : slash ∉ e) :
    (e.reverse ++ directoryBuffer cs).dropWhile (· ≠ slash) = directoryBuffer cs := by
  rw [List.dropWhile_append_of_pos]
  · simp [directoryBuffer]
  · intro x hx
    have hne : x ≠ slash := fun h => he (by simpa [h] using hx)
    simpa using hne

/-- Two dots behind a name take the name back. -/
theorem dropSegment_name (he : slash ∉ e) (hne : e ≠ []) :
    dropSegment (e.reverse ++ directoryBuffer cs) = directoryBuffer cs := by
  induction e using List.reverseRecOn with
  | nil => exact absurd rfl hne
  | append_singleton e x _ =>
      have hlen : ((e ++ [x]).reverse ++ directoryBuffer cs).length > 1 := by
        simp [directoryBuffer]
      rw [dropSegment, if_pos hlen, List.reverse_append, List.reverse_singleton,
        List.singleton_append, List.cons_append, List.tail_cons]
      exact dropWhile_directoryBuffer fun h => he (List.mem_append_left _ h)

/-- Two dots of their own take the last component back, if there is one. -/
theorem dropSegment_directoryBuffer (hcs : ∀ d ∈ cs, KeptName d) :
    dropSegment (directoryBuffer cs) = directoryBuffer cs.dropLast := by
  induction cs using List.reverseRecOn with
  | nil => rfl
  | append_singleton cs c _ =>
      have hc := (hcs c (by simp)).1
      have hlen : (directoryBuffer (cs ++ [c])).length > 1 := by
        simp [directoryBuffer, render]
      have hbuffer : (directoryBuffer (cs ++ [c])).tail = c.reverse ++ directoryBuffer cs := by
        rw [directoryBuffer, List.tail_cons, render_append, render_singleton, List.reverse_append,
          List.reverse_cons, directoryBuffer, List.append_assoc]
        rfl
      rw [dropSegment, if_pos hlen, hbuffer, List.dropLast_concat, dropWhile_directoryBuffer hc.2]

theorem bufferOf_push (cs : List Str) (c : Str) :
    BufferOf (cs ++ [c]) (c.reverse ++ directoryBuffer cs) := by
  refine .inr ⟨by simp, ?_⟩
  rw [directoryBuffer, render_append, render_singleton, List.reverse_append, List.reverse_cons,
    List.append_assoc]
  rfl

/-- One component, up to where the next one starts or the path ends. -/
theorem normalizeLoop_component (hcs : ∀ d ∈ cs, KeptName d) (hc : IsComponent slash c)
    (hrest : SegmentEnds rest) :
    ∃ out, normalizeLoop (c ++ rest) (directoryBuffer cs) = normalizeLoop rest out ∧
      BufferOf (segmentStep cs c) out := by
  rw [segmentStep]
  split_ifs with hdot hdotdot hdots hone
  · rw [hdot]
    exact ⟨_, normalizeLoop_dot (e := []) (by simp) (by simp) hrest, .inl rfl⟩
  · rw [hdotdot]
    refine ⟨_, normalizeLoop_dots (e := []) (by simp) hrest, .inl ?_⟩
    exact dropSegment_directoryBuffer hcs
  · obtain ⟨e, rfl⟩ := hdots
    have he : slash ∉ e := fun h => hc.2 (List.mem_append_left _ h)
    have hne : e ≠ [] := by
      rintro rfl
      exact hdotdot rfl
    rw [List.append_assoc]
    exact ⟨_, normalizeLoop_dots he hrest, .inl (dropSegment_name he hne)⟩
  · obtain ⟨e, rfl⟩ := hone
    have he : slash ∉ e := fun h => hc.2 (List.mem_append_left _ h)
    have hlast : e.getLast? ≠ some 46 := by
      intro h
      obtain ⟨f, rfl⟩ := dotName_suffix_iff.mpr h
      exact hdots ⟨f, by simp [dotName, dotdotName, ascii]⟩
    have heq : (e ++ dotName).dropLast = e := List.dropLast_concat
    rw [heq, List.append_assoc]
    exact ⟨_, normalizeLoop_dot he hlast hrest, bufferOf_push cs e⟩
  · have hlast : c.getLast? ≠ some 46 := fun h => hone (dotName_suffix_iff.mpr h)
    exact ⟨_, normalizeLoop_append hc.2 (quiet_before hc.2 hlast _), bufferOf_push cs c⟩

theorem BufferOf.head (h : BufferOf cs out) (hcs : ∀ d ∈ cs, KeptName d) :
    out = directoryBuffer cs ∨
      (out ≠ [] ∧ out.head? ≠ some slash ∧ slash :: out = directoryBuffer cs) := by
  rcases h with rfl | ⟨hne, rfl⟩
  · exact .inl rfl
  right
  refine ⟨?_, ?_, rfl⟩
  · cases cs with
    | nil => exact absurd rfl hne
    | cons c cs => simp [render_cons]
  · induction cs using List.reverseRecOn with
    | nil => exact absurd rfl hne
    | append_singleton cs c _ =>
        have hc := (hcs c (by simp)).1
        rw [List.head?_reverse, render_append, render_singleton,
          List.getLast?_append_of_ne_nil _ (List.cons_ne_nil _ _),
          List.getLast?_cons_of_ne_nil hc.1]
        exact fun hlast => hc.2 (List.mem_of_getLast? hlast)

theorem normalizeLoop_slash (h : BufferOf cs out) (hcs : ∀ d ∈ cs, KeptName d) (src : Str) :
    normalizeLoop (slash :: src) out = normalizeLoop src (directoryBuffer cs) := by
  rw [normalizeLoop.eq_def]
  simp only [if_true]
  rcases h.head hcs with rfl | ⟨hne, hhead, hbuffer⟩
  · exact if_pos (.inr rfl)
  · rw [if_neg (not_or.mpr ⟨hne, hhead⟩), hbuffer]

theorem components_run (hc : slash ∉ c) :
    c = [] ∧ components slash c = [] ∨ IsComponent slash c ∧ components slash c = [c] := by
  by_cases hnil : c = []
  · exact .inl ⟨hnil, by rw [hnil, components_nil]⟩
  · exact .inr ⟨⟨hnil, hc⟩, components_of_isComponent slash ⟨hnil, hc⟩⟩

/-- From the start of a component on, the loop is a fold over the components that follow. -/
theorem normalizeLoop_components (src : Str) : ∀ cs : List Str, (∀ d ∈ cs, KeptName d) →
    BufferOf ((components slash src).foldl segmentStep cs)
      (normalizeLoop src (directoryBuffer cs)) := by
  induction src using text_induction slash with
  | run c hc =>
      intro cs hcs
      rcases components_run hc with ⟨rfl, hcomp⟩ | ⟨hname, hcomp⟩
      · rw [hcomp]
        exact .inl rfl
      · obtain ⟨out, hloop, hout⟩ := normalizeLoop_component hcs hname (.inl rfl)
        rw [List.append_nil] at hloop
        rw [hcomp, hloop]
        exact hout
  | cut c s hc ih =>
      intro cs hcs
      rw [components_append_sep, List.foldl_append]
      rcases components_run hc with ⟨rfl, hcomp⟩ | ⟨hname, hcomp⟩
      · rw [hcomp, List.nil_append, normalizeLoop_slash (.inl rfl) hcs]
        exact ih cs hcs
      · have hends : SegmentEnds (slash :: s) := .inr rfl
        obtain ⟨out, hloop, hout⟩ := normalizeLoop_component hcs hname hends
        have hkept := segmentStep_keptName hcs hname
        rw [hcomp, hloop, normalizeLoop_slash hout hkept]
        exact ih _ hkept

/-- Copying `temp` back without the slash behind the last component. -/
theorem BufferOf.text (h : BufferOf cs out) (hcs : ∀ d ∈ cs, KeptName d) :
    (if out = [] then [slash]
      else if out.length > 1 ∧ out.head? = some slash then out.tail.reverse
      else out.reverse) = absolute slash cs := by
  rcases h.head hcs with rfl | ⟨hne, hhead, hbuffer⟩
  · have hne : directoryBuffer cs ≠ [] := List.cons_ne_nil _ _
    rw [if_neg hne, absolute]
    cases cs with
    | nil => rfl
    | cons c cs =>
        have hlen : (directoryBuffer (c :: cs)).length > 1 := by
          simp [directoryBuffer, render_cons]
        rw [if_pos ⟨hlen, rfl⟩, if_neg (List.cons_ne_nil _ _), directoryBuffer, List.tail_cons,
          List.reverse_reverse]
  · have hout : out = (render slash cs).reverse := (List.cons.inj hbuffer).2
    have hcsne : cs ≠ [] := by
      rintro rfl
      exact hne hout
    rw [if_neg hne, if_neg fun hlong => hhead hlong.2, absolute, if_neg hcsne, hout,
      List.reverse_reverse]

theorem foldl_segmentStep_keptName {ts : List Str} (hts : ∀ t ∈ ts, IsComponent slash t)
    (hcs : ∀ d ∈ cs, KeptName d) : ∀ d ∈ ts.foldl segmentStep cs, KeptName d := by
  induction ts generalizing cs with
  | nil => exact hcs
  | cons t ts ih =>
      exact ih (fun s hs => hts s (List.mem_cons_of_mem _ hs))
        (segmentStep_keptName hcs (hts t List.mem_cons_self))

theorem normalizedComponents_keptName (path : Str) :
    ∀ c ∈ normalizedComponents path, KeptName c :=
  foldl_segmentStep_keptName (fun _ ht => (mem_components slash ht).1) (by simp)

/-- The text `vfs_normalize_path` leaves is that of the components left over. -/
theorem vfsNormalizePath_eq {path : Str} (h : path.head? = some slash) :
    vfsNormalizePath path = absolute slash (normalizedComponents path) := by
  obtain ⟨src, rfl⟩ : ∃ src, path = slash :: src := ⟨_, List.eq_cons_of_mem_head? h⟩
  have hloop := normalizeLoop_components src [] (by simp)
  have hkept := normalizedComponents_keptName (slash :: src)
  rw [normalizedComponents, components_sep_cons] at hkept ⊢
  exact hloop.text hkept

/-! Canonical paths. -/

/-- A canonical absolute path. -/
abbrev CanonicalPath (path : Str) : Prop := Canonical slash dotName dotdotName path

theorem length_absolute (cs : List Str) :
    (absolute slash cs).length = max 1 (render slash cs).length := by
  rw [absolute]
  cases cs with
  | nil => rfl
  | cons c cs =>
      rw [if_neg (List.cons_ne_nil _ _), render_cons]
      simp

theorem length_render_segmentStep (cs : List Str) (c : Str) :
    (render slash (segmentStep cs c)).length ≤ (render slash cs).length + (c.length + 1) := by
  rw [segmentStep]
  split_ifs
  · omega
  · induction cs using List.reverseRecOn with
    | nil => simp [render]
    | append_singleton cs d _ =>
        rw [List.dropLast_concat, render_append, List.length_append]
        omega
  · omega
  · rw [render_append, render_singleton]
    simp
  · rw [render_append, render_singleton]
    simp

theorem length_render_foldl (ts cs : List Str) :
    (render slash (ts.foldl segmentStep cs)).length ≤
      (render slash cs).length + (render slash ts).length := by
  induction ts generalizing cs with
  | nil => simp
  | cons t ts ih =>
      have hstep := length_render_segmentStep cs t
      have hrest := ih (segmentStep cs t)
      rw [List.foldl_cons, render_cons]
      simp only [List.cons_append, List.length_cons, List.length_append]
      omega

theorem foldl_segmentStep_kept {ts : List Str} (hts : ∀ t ∈ ts, KeptName t) (cs : List Str) :
    ts.foldl segmentStep cs = cs ++ ts := by
  induction ts generalizing cs with
  | nil => simp
  | cons t ts ih =>
      rw [List.foldl_cons, segmentStep_kept (hts t List.mem_cons_self),
        ih fun s hs => hts s (List.mem_cons_of_mem _ hs)]
      simp

theorem canonicalPath_vfsNormalizePath {path : Str} (h : path.head? = some slash) :
    CanonicalPath (vfsNormalizePath path) := by
  rw [vfsNormalizePath_eq h]
  apply canonical_absolute
  intro c hc
  have hkept := normalizedComponents_keptName path c hc
  exact ⟨hkept.1, hkept.plain⟩

theorem length_vfsNormalizePath {path : Str} (h : path.head? = some slash) :
    (vfsNormalizePath path).length ≤ path.length := by
  obtain ⟨src, rfl⟩ : ∃ src, path = slash :: src := ⟨_, List.eq_cons_of_mem_head? h⟩
  have hsplit : (render slash (components slash src)).length ≤ src.length + 1 :=
    length_render_components src
  have hfold := length_render_foldl (components slash src) []
  rw [vfsNormalizePath_eq h, length_absolute, normalizedComponents, components_sep_cons]
  simp only [render, List.flatMap_nil, List.length_nil, zero_add] at hfold
  simp only [List.length_cons]
  exact max_le (by omega) (hfold.trans hsplit)

/-- No name that was kept ends in a dot, so a second pass finds nothing to resolve. -/
theorem vfsNormalizePath_idem {path : Str} (h : path.head? = some slash) :
    vfsNormalizePath (vfsNormalizePath path) = vfsNormalizePath path := by
  have hkept := normalizedComponents_keptName path
  have hfix : normalizedComponents (vfsNormalizePath path) = normalizedComponents path := by
    calc normalizedComponents (vfsNormalizePath path)
        = (normalizedComponents path).foldl segmentStep [] := by
          rw [vfsNormalizePath_eq h, normalizedComponents,
            components_absolute fun c hc => (hkept c hc).1]
      _ = normalizedComponents path := foldl_segmentStep_kept hkept []
  calc vfsNormalizePath (vfsNormalizePath path)
      = absolute slash (normalizedComponents (vfsNormalizePath path)) :=
        vfsNormalizePath_eq (canonicalPath_vfsNormalizePath h).rooted
    _ = absolute slash (normalizedComponents path) := by rw [hfix]
    _ = vfsNormalizePath path := (vfsNormalizePath_eq h).symm

/-- Normalising is a projection onto the canonical paths that never makes a path longer. -/
theorem normalizing_projects (path : BufferedPath) :
    CanonicalPath (vfsNormalizePath path.chars) ∧
      (vfsNormalizePath path.chars).length ≤ path.chars.length ∧
      vfsNormalizePath (vfsNormalizePath path.chars) = vfsNormalizePath path.chars :=
  ⟨canonicalPath_vfsNormalizePath path.rooted, length_vfsNormalizePath path.rooted,
    vfsNormalizePath_idem path.rooted⟩

/-! Against the standard resolution. -/

/-- What a path stands for: empty components and `.` are dropped, `..` takes the last kept component
back, and every other name stays as it is. -/
def standardResolution (path : Str) : Str :=
  absolute slash (normalize dotName dotdotName (components slash path))

/-- How deep a sequence of names leads, `..` at the root leading nowhere. -/
abbrev nameDepth (ts : List Str) : Nat := depth dotName dotdotName ts

/-- Every name that ends in a dot is taken back by a later `..`, and one that ends in two of them is
even followed by a return to the root. -/
structure DotsTakenBack (ts : List Str) : Prop where
  one : ∀ before c after, ts = before ++ c :: after → Plain dotName dotdotName c → dotName <:+ c →
    ∃ mid, mid <+: after ∧ nameDepth (before ++ c :: mid) ≤ nameDepth before
  two : ∀ before c after, ts = before ++ c :: after → Plain dotName dotdotName c →
    dotdotName <:+ c → ∃ mid, mid <+: after ∧ nameDepth (before ++ c :: mid) = 0

/-- A name that the loop drops whole still counts, as nothing after it leads back to the root. -/
def DroppedBelowRoot (ts : List Str) : Prop := ∃ before c after, dotdotName <:+ c ∧
  StaysBelow dotName dotdotName ts 0 before c after

/-- A name without its last dot. -/
def stripDot (c : Str) : Str := if dotName <:+ c then c.dropLast else c

theorem segmentStep_plain (hc : Plain dotName dotdotName c) (hdots : ¬ dotdotName <:+ c) :
    segmentStep cs c = cs ++ [stripDot c] := by
  rw [segmentStep, if_neg hc.1, if_neg hc.2, if_neg hdots, stripDot]
  split_ifs <;> rfl

theorem droppedBelowRoot_append_iff {ts : List Str} {s : Str} : DroppedBelowRoot (ts ++ [s]) ↔
    (Plain dotName dotdotName s ∧ dotdotName <:+ s) ∨
      (0 < nameDepth (ts ++ [s]) ∧ DroppedBelowRoot ts) := by
  constructor
  · rintro ⟨before, c, after, hdots, h⟩
    rcases staysBelow_append_iff.mp h with ⟨-, rfl, -, hplain, -⟩ | ⟨after', -, hdeep, hbelow⟩
    · exact .inl ⟨hplain, hdots⟩
    · exact .inr ⟨hdeep, before, c, after', hdots, hbelow⟩
  · rintro (⟨hplain, hdots⟩ | ⟨hdeep, before, c, after, hdots, h⟩)
    · exact ⟨ts, s, [], hdots,
        staysBelow_append_iff.mpr (.inl ⟨rfl, rfl, rfl, hplain, Nat.zero_le _⟩)⟩
    · exact ⟨before, c, after ++ [s], hdots,
        staysBelow_append_iff.mpr (.inr ⟨after, rfl, hdeep, h⟩)⟩

/-- While no dropped name counts, the loop holds the standard components without their last dots;
while one does, it holds fewer. -/
theorem foldl_segmentStep_normalize (ts : List Str) :
    (¬ DroppedBelowRoot ts →
      ts.foldl segmentStep [] = (normalize dotName dotdotName ts).map stripDot) ∧
    (DroppedBelowRoot ts →
      (ts.foldl segmentStep []).length < (normalize dotName dotdotName ts).length) := by
  induction ts using List.reverseRecOn with
  | nil =>
      refine ⟨fun _ => rfl, ?_⟩
      rintro ⟨before, c, after, -, h⟩
      simpa using h.split
  | append_singleton ts s ih =>
      obtain ⟨hsame, hfewer⟩ := ih
      have hlen : (DirectoryTree.normalize dotName dotdotName ts).length =
          depth dotName dotdotName ts := length_normalize ts
      rw [droppedBelowRoot_append_iff, List.foldl_append, List.foldl_cons, List.foldl_nil,
        normalize_append, nameDepth, depth_append]
      by_cases hdot : s = dotName
      · have hplain : ¬ Plain dotName dotdotName s := fun h => h.1 hdot
        simp only [hplain, false_and, false_or, segmentStep, normalizeStep, depthStep, if_pos hdot,
          ← hlen, not_and]
        refine ⟨fun h => hsame fun hd => h ?_ hd, fun h => hfewer h.2⟩
        exact (Nat.zero_le _).trans_lt (hfewer hd)
      by_cases hdotdot : s = dotdotName
      · have hplain : ¬ Plain dotName dotdotName s := fun h => h.2 hdotdot
        simp only [hplain, false_and, false_or, segmentStep, normalizeStep, depthStep, if_neg hdot,
          if_pos hdotdot, ← hlen, List.length_dropLast, not_and]
        constructor
        · intro h
          by_cases hd : DroppedBelowRoot ts
          · -- back at the root nothing is left on either side
            have hlt := hfewer hd
            have hroot : (normalize dotName dotdotName ts).length - 1 = 0 := by
              by_contra hne
              exact h (Nat.pos_of_ne_zero hne) hd
            have hstandard : (normalize dotName dotdotName ts).dropLast = [] :=
              List.eq_nil_of_length_eq_zero (by rw [List.length_dropLast, hroot])
            have hcode : ts.foldl segmentStep [] = [] :=
              List.eq_nil_of_length_eq_zero (by omega)
            rw [hstandard, hcode]
            rfl
          · rw [hsame hd, List.map_dropLast]
        · rintro ⟨hpos, hd⟩
          have hlt := hfewer hd
          omega
      have hplain : Plain dotName dotdotName s := ⟨hdot, hdotdot⟩
      rw [normalizeStep_plain hplain]
      by_cases hdots : dotdotName <:+ s
      · have hkeep : segmentStep (ts.foldl segmentStep []) s = ts.foldl segmentStep [] := by
          rw [segmentStep, if_neg hdot, if_neg hdotdot, if_pos hdots]
        rw [hkeep]
        refine ⟨fun h => absurd (.inl ⟨hplain, hdots⟩) h, fun _ => ?_⟩
        rw [List.length_append, List.length_singleton, Nat.lt_succ_iff]
        by_cases hd : DroppedBelowRoot ts
        · exact (hfewer hd).le
        · rw [hsame hd, List.length_map]
      · rw [segmentStep_plain hplain hdots, depthStep_plain _ hplain]
        simp only [hdots, and_false, false_or, Nat.succ_pos, true_and]
        refine ⟨fun hd => ?_, fun hd => ?_⟩
        · rw [hsame hd, List.map_append]
          rfl
        · rw [List.length_append, List.length_append]
          exact Nat.add_lt_add_right (hfewer hd) 1

theorem stripDot_eq_self (hne : c ≠ []) : stripDot c = c ↔ ¬ dotName <:+ c := by
  rw [stripDot]
  split_ifs with h
  · have hlen := List.length_pos_iff.mpr hne
    have hshort : c.dropLast ≠ c := by
      intro heq
      have := congrArg List.length heq
      rw [List.length_dropLast] at this
      omega
    simp [hshort, h]
  · simp [h]

theorem map_stripDot_eq_self (hcs : ∀ c ∈ cs, IsComponent slash c) :
    cs.map stripDot = cs ↔ ∀ c ∈ cs, ¬ dotName <:+ c := by
  induction cs with
  | nil => simp
  | cons c cs ih =>
      have htail := ih fun d hd => hcs d (List.mem_cons_of_mem _ hd)
      rw [List.map_cons, List.cons.injEq, htail, List.forall_mem_cons,
        stripDot_eq_self (hcs c List.mem_cons_self).1]

theorem isComponent_normalize (path : Str) :
    ∀ c ∈ normalize dotName dotdotName (components slash path), IsComponent slash c :=
  forall_mem_foldl_normalizeStep [] (by simp) fun _ ht _ => (mem_components slash ht).1

theorem absolute_inj {ds : List Str} (hcs : ∀ c ∈ cs, IsComponent slash c)
    (hds : ∀ d ∈ ds, IsComponent slash d) : absolute slash cs = absolute slash ds ↔ cs = ds := by
  constructor
  · intro h
    rw [← components_absolute hcs, h, components_absolute hds]
  · rintro rfl
    rfl

theorem not_droppedBelowRoot_iff {ts : List Str} : ¬ DroppedBelowRoot ts ↔
    ∀ before c after, ts = before ++ c :: after → Plain dotName dotdotName c →
      dotdotName <:+ c → ∃ mid, mid <+: after ∧ nameDepth (before ++ c :: mid) = 0 := by
  constructor
  · intro h before c after hsplit hplain hdots
    by_contra hnone
    push Not at hnone
    exact h ⟨before, c, after, hdots, hsplit, hplain,
      fun mid hmid => Nat.pos_of_ne_zero (hnone mid hmid)⟩
  · rintro h ⟨before, c, after, hdots, hstay⟩
    obtain ⟨mid, hmid, hroot⟩ := h before c after hstay.split hstay.plain hdots
    exact (hstay.below mid hmid).ne' hroot

theorem no_kept_dot_iff {ts : List Str} :
    (∀ c ∈ normalize dotName dotdotName ts, ¬ dotName <:+ c) ↔
      ∀ before c after, ts = before ++ c :: after → Plain dotName dotdotName c → dotName <:+ c →
        ∃ mid, mid <+: after ∧ nameDepth (before ++ c :: mid) ≤ nameDepth before := by
  constructor
  · intro h before c after hsplit hplain hdot
    by_contra hnone
    push Not at hnone
    exact h c (mem_normalize.mpr ⟨before, after, hsplit, hplain, hnone⟩) hdot
  · intro h c hc hdot
    obtain ⟨before, after, hstay⟩ := mem_normalize.mp hc
    obtain ⟨mid, hmid, hback⟩ := h before c after hstay.split hstay.plain hdot
    exact absurd (hstay.below mid hmid) (Nat.not_lt.mpr hback)

/-- `vfs_normalize_path` resolves a path as it should exactly when every name of it that ends in a
dot is taken back again. -/
theorem normalizes_standardly_iff (path : BufferedPath) :
    vfsNormalizePath path.chars = standardResolution path.chars ↔
      DotsTakenBack (components slash path.chars) := by
  set ts := components slash path.chars with hts
  obtain ⟨hsame, hfewer⟩ := foldl_segmentStep_normalize ts
  have hcode : ∀ c ∈ ts.foldl segmentStep [], IsComponent slash c :=
    fun c hc => (normalizedComponents_keptName path.chars c hc).1
  rw [vfsNormalizePath_eq path.rooted, standardResolution, normalizedComponents, ← hts,
    absolute_inj hcode (isComponent_normalize path.chars)]
  by_cases hd : DroppedBelowRoot ts
  · have hne : ts.foldl segmentStep [] ≠ normalize dotName dotdotName ts := by
      intro heq
      exact absurd (congrArg List.length heq) (hfewer hd).ne
    exact iff_of_false hne fun h => not_droppedBelowRoot_iff.mpr h.two hd
  · rw [hsame hd, map_stripDot_eq_self (isComponent_normalize path.chars), no_kept_dot_iff]
    exact ⟨fun h => ⟨h, not_droppedBelowRoot_iff.mp hd⟩, DotsTakenBack.one⟩

/-- The last dot of a name is taken for the name `.`. -/
theorem dotted_name_misread :
    ¬ ∀ path : BufferedPath, vfsNormalizePath path.chars = standardResolution path.chars := by
  intro h
  have hpath := h ⟨⟨ascii "/a.", by decide⟩, by decide, by decide⟩
  exact absurd hpath (by decide)

end Chthon
