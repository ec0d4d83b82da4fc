import Chthon.VfsRouting

/-! The two ways in which the bindings of a process are applied to a path. `resolve_path`, for
`vfs_open`, puts the new path of a binding in the place of its old one; `resolve_namespace_path`, for
`vfs_read_dir`, puts the old one in the place of the new one and sees to the slash between. -/

namespace Chthon

open ByteMemory

/-- Both resolvers give the same text. -/
def ResolversAgree (k : Kernel) (path : Str) : Prop :=
  ∃ resolved k', resolvePath k path = some resolved ∧
    resolveNamespacePath k path = some (resolved, k')

/-- The heap has room for the buffer of `resolve_namespace_path`, which goes without the bindings
otherwise. -/
def BufferRoom (heapPos : Nat) : Bool := (kalloc heapPos maxPath).1.isSome

/-- What `resolve_namespace_path` puts between the old path and the rest. -/
def joint (old rest : Str) : Str :=
  if rest ≠ [] ∧ rest.head? ≠ some slash ∧ old.getLast? ≠ some slash then [slash] else []

/-- With `a` the first binding whose old path starts the text and `b` the first whose new path does:
there are neither, or both and the new path of `a` with what follows its old one is the old path of `b`
with what follows its new one. -/
def SubstitutionsMeet (ns : List Namespace) (heapPos : Nat) (path : Str) : Prop :=
  match ns.find? fun a => a.oldPath.isPrefixOf path, ns.find? fun b => b.newPath.isPrefixOf path with
  | none, none => path.length < maxPath
  | none, some _ => BufferRoom heapPos = false ∧ path.length < maxPath
  | some _, none => False
  | some a, some b =>
      let rest := path.drop b.newPath.length
      if BufferRoom heapPos then
        a.newPath ++ path.drop a.oldPath.length = b.oldPath ++ joint b.oldPath rest ++ rest ∧
          (b.oldPath ++ joint b.oldPath rest ++ rest).length < maxPath ∧
          (b.oldPath = [] → rest = [] ∨ rest.head? = some slash)
      else a.newPath = a.oldPath ∧ path.length < maxPath

/-- After a binding, the two names of what is below it are opened alike: in the same file system and
under the same path. -/
def OpensAlike (k : Kernel) (old new rest : Str) : Prop :=
  ∃ route, openRoute k (new ++ slash :: rest) = some route ∧
    openRoute k (old ++ slash :: rest) = some route

/-- The new name fits the buffer and is not itself substituted. -/
def StandsForItself (ns : List Namespace) (path : Str) : Prop :=
  path.length < maxPath ∧
    ∀ b, (ns.find? fun b => b.oldPath.isPrefixOf path) = some b → b.newPath = b.oldPath

section Resolve

variable {k k' : Kernel} {p : ProcessPtr} {path : Str}

theorem kalloc_room {heapPos : Nat} (h : BufferRoom heapPos = true) :
    kalloc heapPos maxPath = (some heapPos, heapPos + maxPath) := by
  rcases kalloc_cases heapPos maxPath with hkalloc | hkalloc
  · rw [BufferRoom, hkalloc] at h
    cases h
  · exact hkalloc

theorem kalloc_no_room {heapPos : Nat} (h : BufferRoom heapPos = false) :
    kalloc heapPos maxPath = (none, heapPos) := by
  rcases kalloc_cases heapPos maxPath with hkalloc | hkalloc
  · exact hkalloc
  · rw [BufferRoom, hkalloc] at h
    cases h

theorem drop_of_isPrefixOf {start : Str} (h : start.isPrefixOf path = true) :
    start ++ path.drop start.length = path :=
  (List.prefix_iff_eq_append.mp (List.isPrefixOf_iff_prefix.mp h))

/-- Another start in the place of `start` gives the same text only if it is the same. -/
theorem replace_eq_self_iff {start other : Str} (h : start.isPrefixOf path = true) :
    other ++ path.drop start.length = path ↔ other = start := by
  constructor
  · intro heq
    rw [← drop_of_isPrefixOf h, List.drop_left] at heq
    exact List.append_cancel_right heq
  · rintro rfl
    exact drop_of_isPrefixOf h

theorem resolvePath_eq (hcur : k.current = some p) (path : Str) :
    resolvePath k path =
      match (k.procs p).ns.find? fun a => a.oldPath.isPrefixOf path with
      | some a => if (a.newPath ++ path.drop a.oldPath.length).length ≥ maxPath then none
          else some (a.newPath ++ path.drop a.oldPath.length)
      | none => if path.length ≥ maxPath then none else some path := by
  rw [resolvePath, Kernel.currentProcess, hcur, Option.map_some]
  dsimp only
  cases (k.procs p).ns.find? fun a => a.oldPath.isPrefixOf path <;> rfl

/-- The text that `resolve_namespace_path` returns. -/
theorem resolveNamespacePath_fst (hcur : k.current = some p) (path : Str) :
    (resolveNamespacePath k path).map Prod.fst =
      match (k.procs p).ns.find? fun b => b.newPath.isPrefixOf path with
      | none => some path
      | some b =>
          let rest := path.drop b.newPath.length
          if BufferRoom k.heapPos then
            if rest ≠ [] ∧ rest.head? ≠ some slash ∧ b.oldPath = [] then none
            else if (b.oldPath ++ joint b.oldPath rest ++ rest).length ≥ maxPath then none
            else some (b.oldPath ++ joint b.oldPath rest ++ rest)
          else some path := by
  rw [resolveNamespacePath, Kernel.currentProcess, hcur, Option.map_some]
  dsimp only
  cases (k.procs p).ns.find? fun b => b.newPath.isPrefixOf path with
  | none => rfl
  | some b =>
      dsimp only
      cases hroom : BufferRoom k.heapPos with
      | false =>
          rw [kalloc_no_room hroom]
          rfl
      | true =>
          rw [kalloc_room hroom]
          simp only [joint, if_true]
          split_ifs <;> rfl

theorem resolversAgree_iff_fst (path : Str) :
    ResolversAgree k path ↔ ∃ resolved, resolvePath k path = some resolved ∧
      (resolveNamespacePath k path).map Prod.fst = some resolved := by
  simp only [ResolversAgree, Option.map_eq_some_iff, Prod.exists, exists_and_right, exists_eq_right,
    exists_and_left]

/-- The open fits its buffer, and the listing has the same text. -/
theorem agree_of_length {text : Str} {listed : Option Str} :
    (∃ resolved, (if text.length ≥ maxPath then none else some text) = some resolved ∧
      listed = some resolved) ↔ text.length < maxPath ∧ listed = some text := by
  split_ifs with hlong
  · simp [hlong]
  · simp [Nat.lt_of_not_le hlong]

theorem resolversAgree_iff (hcur : k.current = some p) (path : Str) :
    ResolversAgree k path ↔ SubstitutionsMeet (k.procs p).ns k.heapPos path := by
  rw [resolversAgree_iff_fst, resolvePath_eq hcur, resolveNamespacePath_fst hcur, SubstitutionsMeet]
  cases hopen : (k.procs p).ns.find? fun a => a.oldPath.isPrefixOf path with
  | none =>
      cases hlist : (k.procs p).ns.find? fun b => b.newPath.isPrefixOf path with
      | none =>
          dsimp only
          rw [agree_of_length]
          simp
      | some b =>
          dsimp only
          rw [agree_of_length]
          cases hroom : BufferRoom k.heapPos with
          | false => simp
          | true =>
              -- the listing would start with an old path, and no old path starts the text
              simp only [Bool.true_eq_false, false_and, iff_false, if_true]
              rintro ⟨_, htext⟩
              split_ifs at htext
              rw [Option.some.injEq] at htext
              rw [List.find?_eq_none] at hopen
              refine hopen b (List.mem_of_find?_eq_some hlist) ?_
              rw [← htext, List.append_assoc]
              exact List.isPrefixOf_iff_prefix.mpr (List.prefix_append _ _)
  | some a =>
      have ha := List.find?_some hopen
      cases hlist : (k.procs p).ns.find? fun b => b.newPath.isPrefixOf path with
      | none =>
          dsimp only
          rw [agree_of_length, iff_false]
          rintro ⟨_, htext⟩
          rw [Option.some.injEq] at htext
          rw [List.find?_eq_none] at hlist
          refine hlist a (List.mem_of_find?_eq_some hopen) ?_
          rw [htext]
          exact List.isPrefixOf_iff_prefix.mpr (List.prefix_append _ _)
      | some b =>
          dsimp only
          rw [agree_of_length]
          cases hroom : BufferRoom k.heapPos with
          | false =>
              simp only [Bool.false_eq_true, if_false, Option.some.injEq]
              constructor
              · rintro ⟨hlen, htext⟩
                rw [← htext] at hlen
                exact ⟨(replace_eq_self_iff ha).mp htext.symm, hlen⟩
              · rintro ⟨hsame, hlen⟩
                have htext := (replace_eq_self_iff ha).mpr hsame
                rw [htext]
                exact ⟨hlen, rfl⟩
          | true =>
              simp only [if_true]
              constructor
              · rintro ⟨hlen, htext⟩
                split_ifs at htext with hindex
                rw [Option.some.injEq] at htext
                refine ⟨htext.symm, htext ▸ hlen, fun hempty => ?_⟩
                by_contra hrest
                rw [not_or] at hrest
                exact hindex ⟨hrest.1, hrest.2, hempty⟩
              · rintro ⟨htext, hlen, hindex⟩
                refine ⟨htext ▸ hlen, ?_⟩
                rw [if_neg, if_neg (Nat.not_le_of_lt hlen), htext]
                rintro ⟨hrest, hslash, hempty⟩
                rcases hindex hempty with hnil | hhead
                · exact hrest hnil
                · exact hslash hhead

/-! Binding. -/

theorem resolveNamespacePath_kernel {resolved : Str}
    (h : resolveNamespacePath k path = some (resolved, k')) :
    k'.procs = k.procs ∧ k'.current = k.current := by
  unfold resolveNamespacePath at h
  split at h
  · cases h
    exact ⟨rfl, rfl⟩
  · split at h
    · cases h
      exact ⟨rfl, rfl⟩
    · split at h
      · cases h
        exact ⟨rfl, rfl⟩
      · dsimp only at h
        split_ifs at h <;> cases h <;> exact ⟨rfl, rfl⟩

theorem vfsReadDir_kernel {entries : Option (List (Nat × Str))} {count : Nat}
    (h : vfsReadDir k path count = some (entries, k')) :
    k'.procs = k.procs ∧ k'.current = k.current := by
  unfold vfsReadDir at h
  split at h
  · cases h
  · rename_i hresolve
    have hkernel := resolveNamespacePath_kernel hresolve
    split at h
    · cases h
      exact hkernel
    · rw [Option.map_eq_some_iff] at h
      obtain ⟨_, _, heq⟩ := h
      cases heq
      exact hkernel

theorem createNamespace_some {heapPos heapPos' : Nat} {old new : Str} {flags : Int} {ns : Namespace}
    (h : createNamespace heapPos old new flags = (some ns, heapPos')) : ns = ⟨old, new, flags⟩ := by
  unfold createNamespace at h
  split at h
  · cases h
  · dsimp only at h
    split_ifs at h
    · cases h
    · exact (Option.some.inj (Prod.mk.inj h).1).symm

/-- A successful `bind` puts the binding in front of the others. -/
theorem bind_ok {old new : Str} {flags : Int} (hcur : k.current = some p)
    (h : bind k old new flags = some (0, k')) :
    k'.current = some p ∧ (k'.procs p).ns = ⟨old, new, flags⟩ :: (k.procs p).ns := by
  unfold bind at h
  split at h
  · cases h
  · cases h
  · rename_i k₁ hold
    obtain ⟨hprocs₁, hcur₁⟩ := vfsReadDir_kernel hold
    split at h
    · cases h
    · cases h
    · rename_i k₂ hnew
      obtain ⟨hprocs₂, hcur₂⟩ := vfsReadDir_kernel hnew
      split at h
      · cases h
      · rename_i ns heapPos hns
        rw [createNamespace_some hns] at h
        have hcurrent : k₂.current = some p := by rw [hcur₂, hcur₁, hcur]
        simp only [hcurrent, Option.some.injEq, Prod.mk.injEq, true_and] at h
        rw [← h]
        refine ⟨rfl, ?_⟩
        simp [Kernel.setProc, hprocs₂, hprocs₁]

/-- The route of an open is the resolved text. -/
theorem opensAlike_iff_resolve (old new rest : Str) :
    OpensAlike k old new rest ↔ ∃ resolved, resolvePath k (new ++ slash :: rest) = some resolved ∧
      resolvePath k (old ++ slash :: rest) = some resolved := by
  simp only [OpensAlike, openRoute, Option.map_eq_some_iff]
  constructor
  · rintro ⟨_, ⟨text, hnew, rfl⟩, text', hold, heq⟩
    obtain ⟨_, rfl⟩ := Prod.mk.inj heq
    exact ⟨text', hnew, hold⟩
  · rintro ⟨text, hnew, hold⟩
    exact ⟨_, ⟨text, hnew, rfl⟩, text, hold, rfl⟩

/-- Below the binding made last, the old name is opened as the new one. -/
theorem opensAlike_iff {old new : Str} {flags : Int} {ns : List Namespace}
    (hcur : k.current = some p) (hns : (k.procs p).ns = ⟨old, new, flags⟩ :: ns) (rest : Str) :
    OpensAlike k old new rest ↔
      StandsForItself (⟨old, new, flags⟩ :: ns) (new ++ slash :: rest) := by
  have hold : resolvePath k (old ++ slash :: rest) =
      if (new ++ slash :: rest).length ≥ maxPath then none else some (new ++ slash :: rest) := by
    have hfirst : old.isPrefixOf (old ++ slash :: rest) = true :=
      List.isPrefixOf_iff_prefix.mpr (List.prefix_append _ _)
    rw [resolvePath_eq hcur, hns, List.find?_cons, hfirst]
    dsimp only
    rw [List.drop_left]
  rw [opensAlike_iff_resolve, hold, resolvePath_eq hcur, hns, StandsForItself]
  set path := new ++ slash :: rest
  cases hfind : (Namespace.mk old new flags :: ns).find? fun a => a.oldPath.isPrefixOf path with
  | none =>
      dsimp only
      rw [agree_of_length]
      split_ifs with hlong
      · simp [hlong]
      · simp [Nat.lt_of_not_le hlong]
  | some a =>
      have ha := List.find?_some hfind
      dsimp only
      rw [agree_of_length]
      simp only [Option.some.injEq, forall_eq']
      rw [← replace_eq_self_iff ha]
      constructor
      · rintro ⟨hlen, htext⟩
        split_ifs at htext
        rw [Option.some.injEq] at htext
        exact ⟨htext ▸ hlen, htext.symm⟩
      · rintro ⟨hlen, htext⟩
        rw [htext, if_neg (Nat.not_le_of_lt hlen)]
        exact ⟨hlen, rfl⟩

end Resolve

/-- The resolvers agree on a path exactly where the two substitutions meet; and after a `bind`, its two
names for what is below it are opened alike exactly if no binding leads from the new one to yet
another. -/
theorem namespace_resolvers_iff (k : Kernel) (p : ProcessPtr) (hcur : k.current = some p) :
    (∀ path, ResolversAgree k path ↔ SubstitutionsMeet (k.procs p).ns k.heapPos path) ∧
    ∀ old new flags k', bind k old new flags = some (0, k') → ∀ rest,
      (OpensAlike k' old new rest ↔
        StandsForItself (⟨old, new, flags⟩ :: (k.procs p).ns) (new ++ slash :: rest)) := by
  refine ⟨resolversAgree_iff hcur, fun old new flags k' hbind rest => ?_⟩
  obtain ⟨hcur', hns⟩ := bind_ok hcur hbind
  exact opensAlike_iff hcur' hns rest

/-- A shell without bindings, and below the first one it makes. -/
theorem namespace_resolvers_first_bind :
    ResolversAgree (shellKernel fun _ => 0) (ascii "/tmp/data") ∧
    ∃ k', bind (shellKernel fun _ => 0) (ascii "/tmp/data") (ascii "/tmp/mine") 16 = some (0, k') ∧
      OpensAlike k' (ascii "/tmp/data") (ascii "/tmp/mine") (ascii "a") := by
  obtain ⟨hagree, halike⟩ := namespace_resolvers_iff (shellKernel fun _ => 0) (.heap 0) rfl
  refine ⟨(hagree _).mpr ?_, ?_⟩
  · change (ascii "/tmp/data").length < maxPath
    decide
  · have hbind : (bind (shellKernel fun _ => 0) (ascii "/tmp/data") (ascii "/tmp/mine") 16).map
        Prod.fst = some 0 := by decide +kernel
    rw [Option.map_eq_some_iff] at hbind
    obtain ⟨⟨_, k'⟩, hbind, rfl⟩ := hbind
    refine ⟨k', hbind, (halike _ _ _ k' hbind _).mpr ⟨by decide, ?_⟩⟩
    have hnone : (Namespace.mk (ascii "/tmp/data") (ascii "/tmp/mine") 16 ::
        ((shellKernel fun _ => 0).procs (.heap 0)).ns).find? (fun b => b.oldPath.isPrefixOf
          (ascii "/tmp/mine" ++ slash :: ascii "a")) = none := by decide
    intro b hb
    rw [hnone] at hb
    cases hb

/-- Below the new name of a binding, `vfs_open` and `vfs_read_dir` are on different paths. -/
theorem bound_path_resolved_apart :
    ∃ k', bind (shellKernel fun _ => 0) (ascii "/tmp/data") (ascii "/tmp/mine") 16 = some (0, k') ∧
      resolvePath k' (ascii "/tmp/mine/a") = some (ascii "/tmp/mine/a") ∧
      (resolveNamespacePath k' (ascii "/tmp/mine/a")).map Prod.fst = some (ascii "/tmp/data/a") ∧
      ¬ResolversAgree k' (ascii "/tmp/mine/a") := by
  have hrun : (bind (shellKernel fun _ => 0) (ascii "/tmp/data") (ascii "/tmp/mine") 16).map
      (fun r => (r.1, resolvePath r.2 (ascii "/tmp/mine/a"),
        (resolveNamespacePath r.2 (ascii "/tmp/mine/a")).map Prod.fst)) =
      some (0, some (ascii "/tmp/mine/a"), some (ascii "/tmp/data/a")) := by decide +kernel
  rw [Option.map_eq_some_iff] at hrun
  obtain ⟨⟨result, k'⟩, hbind, heq⟩ := hrun
  obtain ⟨rfl, heq⟩ := Prod.mk.inj heq
  obtain ⟨hopen, hlist⟩ := Prod.mk.inj heq
  refine ⟨k', hbind, hopen, hlist, ?_⟩
  rw [resolversAgree_iff_fst, hopen, hlist]
  rintro ⟨resolved, hresolved, hother⟩
  exact absurd (hresolved.trans hother.symm) (by decide)

end Chthon
