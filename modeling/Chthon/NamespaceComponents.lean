import Chthon.NamespaceDecay

/-! Bindings against path components. `resolve_namespace_path` takes the first binding whose new path
starts the text, also where it ends in the middle of a name, and puts the old path in front of the
rest as it is, with the separators that either brings. -/

namespace Chthon

open PathText

/-- The new path is the path itself or leads to it by whole components. -/
def ComponentStart (new path : Str) : Prop :=
  new <+: path ∧
    components slash path = components slash new ++ components slash (path.drop new.length)

instance decidableComponentStart (new path : Str) : Decidable (ComponentStart new path) :=
  inferInstanceAs (Decidable (_ ∧ _))

/-- The old path and the remainder with one separator between them. -/
def joinOnce (old rest : Str) : Str :=
  if rest = [] then old
  else old.rdropWhile (· = slash) ++ slash :: rest.dropWhile (· = slash)

/-- The most recent binding for the path by components. -/
def componentBinding (ns : List Namespace) (path : Str) : Option Namespace :=
  ns.find? fun b => ComponentStart b.newPath path

/-- The path with that binding applied. -/
def componentPath (ns : List Namespace) (path : Str) : Str :=
  match componentBinding ns path with
  | none => path
  | some b => joinOnce b.oldPath (path.drop b.newPath.length)

/-- `resolve_namespace_path` applies the binding for the path by components, and as it should. -/
structure ResolvesByComponents (k : Kernel) (ns : List Namespace) (path : Str) : Prop where
  binding : inForce k path = componentBinding ns path
  text : (resolveNamespacePath k path).map Prod.fst = some (componentPath ns path)

/-- Nothing is cut inside a name. -/
def CutsAtEdge (new rest : Str) : Prop :=
  new = [] ∨ rest = [] ∨ new.getLast? = some slash ∨ rest.head? = some slash

/-- The two texts bring at most one separator to where they meet, and an empty old path leaves it to
the remainder. -/
def MeetsAtOneSlash (old rest : Str) : Prop :=
  rest = [] ∨ ((old.rtakeWhile (· = slash)).length + (rest.takeWhile (· = slash)).length ≤ 1 ∧
    (old = [] → rest.head? = some slash))

section Cut

variable {new path old rest : Str}

theorem componentStart_iff :
    ComponentStart new path ↔ new <+: path ∧ CutsAtEdge new (path.drop new.length) := by
  refine and_congr_right fun hstart => ?_
  rw [CutsAtEdge, ← components_append_iff slash new, ← List.prefix_iff_eq_append.mp hstart]
  simp

/-! Joining. -/

theorem rtakeWhile_eq_nil_iff_getLast : old.rtakeWhile (· = slash) = [] ↔
    old.getLast? ≠ some slash := by
  induction old using List.reverseRecOn with
  | nil => simp
  | append_singleton cs c _ =>
      rw [List.rtakeWhile_concat, List.getLast?_concat]
      by_cases hc : c = slash <;> simp [hc]

theorem takeWhile_eq_nil_iff_head : rest.takeWhile (· = slash) = [] ↔
    rest.head? ≠ some slash := by
  cases rest with
  | nil => simp
  | cons c cs =>
      rw [List.takeWhile_cons, List.head?_cons]
      by_cases hc : c = slash <;> simp [hc]

theorem joint_length (old rest : Str) : (joint old rest).length =
    if rest ≠ [] ∧ rest.takeWhile (· = slash) = [] ∧ old.rtakeWhile (· = slash) = [] then 1
    else 0 := by
  simp only [joint, takeWhile_eq_nil_iff_head, rtakeWhile_eq_nil_iff_getLast]
  split_ifs <;> rfl

theorem mem_joint {c : UInt8} (hc : c ∈ joint old rest) : c = slash := by
  rw [joint] at hc
  split_ifs at hc
  · exact List.mem_singleton.mp hc
  · cases hc

/-- What `resolve_namespace_path` puts together has one separator at the joint just where the two
texts bring at most one. -/
theorem joint_eq_joinOnce_iff : old ++ joint old rest ++ rest = joinOnce old rest ↔ rest = [] ∨
    (old.rtakeWhile (· = slash)).length + (rest.takeWhile (· = slash)).length ≤ 1 := by
  by_cases hrest : rest = []
  · rw [hrest, joinOnce, if_pos rfl, joint, if_neg (fun h => h.1 rfl)]
    simp
  rw [or_iff_right hrest]
  have hmiddle : old ++ joint old rest ++ rest = old.rdropWhile (· = slash) ++
      ((old.rtakeWhile (· = slash) ++ joint old rest ++ rest.takeWhile (· = slash)) ++
        rest.dropWhile (· = slash)) :=
    calc old ++ joint old rest ++ rest
        = (old.rdropWhile (· = slash) ++ old.rtakeWhile (· = slash)) ++ joint old rest ++
            (rest.takeWhile (· = slash) ++ rest.dropWhile (· = slash)) := by
          rw [List.rdropWhile_append_rtakeWhile, List.takeWhile_append_dropWhile]
      _ = _ := by simp only [List.append_assoc]
  have hone : [slash] = List.replicate 1 slash := rfl
  have hjoint := joint_length old rest
  simp only [ne_eq, hrest, not_false_eq_true, true_and, ← List.length_eq_zero_iff] at hjoint
  rw [joinOnce, if_neg hrest, hmiddle, List.append_right_inj, ← List.singleton_append,
    List.append_left_inj, hone, List.eq_replicate_iff, and_iff_left]
  · rw [List.length_append, List.length_append, hjoint]
    split_ifs <;> omega
  · intro c hc
    rw [List.mem_append, List.mem_append] at hc
    rcases hc with (hc | hc) | hc
    · simpa using List.mem_rtakeWhile_imp hc
    · exact mem_joint hc
    · simpa using List.mem_takeWhile_imp hc

end Cut

section Resolve

variable {k : Kernel} {p : Process} {path : Str}

theorem inForce_of_current (hcur : k.currentProcess = some p) :
    inForce k path = p.ns.find? fun b => b.newPath.isPrefixOf path := by
  rw [inForce, hcur]
  rfl

/-- The text of a binding that is in force. -/
theorem resolveNamespacePath_bound {b : Namespace} (hbound : inForce k path = some b)
    (hroom : BufferRoom k.heapPos = true) :
    (resolveNamespacePath k path).map Prod.fst = boundPath b path := by
  rw [resolveNamespacePath_eq, hbound]
  dsimp only
  rw [if_pos hroom, Option.map_map]
  exact congrFun Option.map_id (boundPath b path)

/-- A binding gives the path with one separator at the joint where the two texts meet so. -/
theorem boundPath_eq_joinOnce_iff {b : Namespace} (hshort : (b.oldPath ++
    joint b.oldPath (path.drop b.newPath.length) ++ path.drop b.newPath.length).length < maxPath) :
    boundPath b path = some (joinOnce b.oldPath (path.drop b.newPath.length)) ↔
      MeetsAtOneSlash b.oldPath (path.drop b.newPath.length) := by
  rw [boundPath, MeetsAtOneSlash]
  split_ifs with hempty hlong
  · refine iff_of_false (by simp) ?_
    rintro (hnil | ⟨-, hhead⟩)
    · exact hempty.1 hnil
    · exact hempty.2.1 (hhead hempty.2.2)
  · omega
  · rw [Option.some.injEq, joint_eq_joinOnce_iff]
    refine or_congr_right' fun hrest => (and_iff_left ?_).symm
    intro hold
    by_contra hhead
    exact hempty ⟨hrest, hhead, hold⟩

/-- The first binding that starts the text is the one for the path by components if it is one at
all. -/
theorem componentBinding_eq_iff {ns : List Namespace} {b : Namespace}
    (hfirst : (ns.find? fun b => b.newPath.isPrefixOf path) = some b) :
    componentBinding ns path = some b ↔ ComponentStart b.newPath path := by
  constructor
  · intro h
    simpa using List.find?_some h
  · intro hstart
    obtain ⟨-, pre, post, rfl, hpre⟩ := List.find?_eq_some_iff_append.mp hfirst
    refine List.find?_eq_some_iff_append.mpr ⟨decide_eq_true hstart, pre, post, rfl, ?_⟩
    intro a ha
    have hnot := hpre a ha
    simp only [Bool.not_eq_true', decide_eq_false_iff_not] at hnot ⊢
    rintro ⟨hstarts, -⟩
    rw [List.isPrefixOf_iff_prefix.mpr hstarts] at hnot
    cases hnot

/-- With no binding at the start of the text there is none by components. -/
theorem componentBinding_eq_none {ns : List Namespace}
    (hnone : (ns.find? fun b => b.newPath.isPrefixOf path) = none) :
    componentBinding ns path = none := by
  rw [List.find?_eq_none] at hnone
  refine List.find?_eq_none.mpr fun b hb hstart => hnone b hb ?_
  exact List.isPrefixOf_iff_prefix.mpr (of_decide_eq_true hstart).1

/-- The substitution is one of path components just when the most recent binding that starts the
text cuts it at the edge of a name and brings one separator to the joint. -/
theorem substitution_component_iff (k : Kernel) (p : Process) (path : Str)
    (hcur : k.currentProcess = some p) (hroom : BufferRoom k.heapPos = true)
    (hshort : ∀ b, inForce k path = some b → (b.oldPath ++
      joint b.oldPath (path.drop b.newPath.length) ++ path.drop b.newPath.length).length < maxPath) :
    ResolvesByComponents k p.ns path ↔ ∀ pre b post, p.ns = pre ++ b :: post →
      (∀ a ∈ pre, ¬a.newPath <+: path) → b.newPath <+: path →
      CutsAtEdge b.newPath (path.drop b.newPath.length) ∧
        MeetsAtOneSlash b.oldPath (path.drop b.newPath.length) := by
  cases hfirst : p.ns.find? fun b => b.newPath.isPrefixOf path with
  | none =>
      have hnot : ∀ b ∈ p.ns, ¬b.newPath <+: path := fun b hb hstart =>
        List.find?_eq_none.mp hfirst b hb (List.isPrefixOf_iff_prefix.mpr hstart)
      have hforce : inForce k path = none := (inForce_of_current hcur).trans hfirst
      have hcomp := componentBinding_eq_none hfirst
      refine iff_of_true ⟨hforce.trans hcomp.symm, ?_⟩ ?_
      · rw [componentPath, hcomp, resolveNamespacePath_eq, hforce]
        rfl
      · intro pre b post hns _ hstart
        exact absurd hstart (hnot b (by rw [hns]; simp))
  | some b =>
      have hforce : inForce k path = some b := (inForce_of_current hcur).trans hfirst
      obtain ⟨hstart, pre, post, hns, hpre⟩ := List.find?_eq_some_iff_append.mp hfirst
      rw [List.isPrefixOf_iff_prefix] at hstart
      have hmeets := boundPath_eq_joinOnce_iff (hshort b hforce)
      constructor
      · rintro ⟨hbinding, htext⟩ pre' b' post' hns' hpre' hstart'
        have hb' : (p.ns.find? fun b => b.newPath.isPrefixOf path) = some b' := by
          refine List.find?_eq_some_iff_append.mpr
            ⟨List.isPrefixOf_iff_prefix.mpr hstart', pre', post', hns', fun a ha => ?_⟩
          rw [Bool.not_eq_true', Bool.eq_false_iff, Ne, List.isPrefixOf_iff_prefix]
          exact hpre' a ha
        obtain rfl : b = b' := Option.some.inj (hfirst.symm.trans hb')
        have hcomp : componentBinding p.ns path = some b := hbinding.symm.trans hforce
        rw [componentPath, hcomp, resolveNamespacePath_bound hforce hroom] at htext
        exact ⟨(componentStart_iff.mp ((componentBinding_eq_iff hfirst).mp hcomp)).2,
          hmeets.mp htext⟩
      · intro h
        obtain ⟨hedge, hmeet⟩ := h pre b post hns (fun a ha hstarts => by
          have hnot := hpre a ha
          rw [List.isPrefixOf_iff_prefix.mpr hstarts] at hnot
          cases hnot) hstart
        have hcomp : componentBinding p.ns path = some b :=
          (componentBinding_eq_iff hfirst).mpr (componentStart_iff.mpr ⟨hstart, hedge⟩)
        refine ⟨hforce.trans hcomp.symm, ?_⟩
        rw [componentPath, hcomp, resolveNamespacePath_bound hforce hroom]
        exact hmeets.mpr hmeet

end Resolve

/-! `/tmp` bound at `/tmp/mine`. -/

def boundProcess : Process := { shellProcess with ns := [⟨ascii "/tmp", ascii "/tmp/mine", 16⟩] }

theorem boundKernel_room : BufferRoom boundKernel.heapPos = true := by
  rw [boundKernel_heap]
  decide

theorem substitution_component_below :
    ResolvesByComponents boundKernel boundProcess.ns (ascii "/tmp/mine/a") ↔
      ∀ pre b post, boundProcess.ns = pre ++ b :: post →
        (∀ a ∈ pre, ¬a.newPath <+: ascii "/tmp/mine/a") → b.newPath <+: ascii "/tmp/mine/a" →
        CutsAtEdge b.newPath ((ascii "/tmp/mine/a").drop b.newPath.length) ∧
          MeetsAtOneSlash b.oldPath ((ascii "/tmp/mine/a").drop b.newPath.length) := by
  refine substitution_component_iff boundKernel boundProcess (ascii "/tmp/mine/a") rfl
    boundKernel_room ?_
  intro b hb
  have hbound : inForce boundKernel (ascii "/tmp/mine/a") =
      some ⟨ascii "/tmp", ascii "/tmp/mine", 16⟩ := by decide
  cases hbound.symm.trans hb
  decide

/-- `/tmp/minerals` becomes `/tmp/rals`, as `/tmp/mine` starts the text. -/
theorem sibling_substituted : ¬ ∀ (k : Kernel) (p : Process) (path : Str),
    k.currentProcess = some p → BufferRoom k.heapPos = true →
    (∀ b, inForce k path = some b → (b.oldPath ++
      joint b.oldPath (path.drop b.newPath.length) ++ path.drop b.newPath.length).length < maxPath) →
      ResolvesByComponents k p.ns path := by
  intro h
  have hbound : inForce boundKernel (ascii "/tmp/minerals") =
      some ⟨ascii "/tmp", ascii "/tmp/mine", 16⟩ := by decide
  have hresolves := h boundKernel boundProcess (ascii "/tmp/minerals") rfl boundKernel_room
    (fun b hb => by
      cases hbound.symm.trans hb
      decide)
  have hnone : componentBinding boundProcess.ns (ascii "/tmp/minerals") = none := by
    decide +kernel
  have hsame := hresolves.binding
  rw [hbound, hnone] at hsame
  cases hsame

end Chthon
