import Chthon.CopyMessage
import Chthon.NamespaceLinks
import Chthon.VfsCapacity

/-! What the services of the file systems leave alone. No call of `vfs.c` touches a process or the
memory of one; the heap is only taken from, and descriptors are only handed out, up to the size of the
table. A binding goes to a process, the one that asks for it. -/

namespace Chthon

/-- The kernels differ in the files, the heap and the descriptors only, and the last two have only
grown. -/
structure FilesOnly (k k' : Kernel) : Prop where
  rest : { k' with
    heapPos := k.heapPos, abyss := k.abyss, ramfs := k.ramfs
    fdTable := k.fdTable, nextFd := k.nextFd } = k
  heap : k.heapPos ≤ k'.heapPos
  next : k.nextFd ≤ k'.nextFd
  bound : k.nextFd ≤ maxFd → k'.nextFd ≤ maxFd

section Frames

variable {k k' k₁ k₂ : Kernel} {path : Str} {fd result : Int}

theorem FilesOnly.refl (k : Kernel) : FilesOnly k k := ⟨rfl, le_rfl, le_rfl, id⟩

theorem FilesOnly.trans (h : FilesOnly k k₁) (h' : FilesOnly k₁ k₂) : FilesOnly k k₂ where
  rest := by
    rw [← h'.rest] at h
    exact h.rest
  heap := h.heap.trans h'.heap
  next := h.next.trans h'.next
  bound hk := h'.bound (h.bound hk)

theorem FilesOnly.procs (h : FilesOnly k k') : k'.procs = k.procs := by
  have hprocs := congrArg Kernel.procs h.rest
  exact hprocs

theorem FilesOnly.current (h : FilesOnly k k') : k'.current = k.current := by
  have hcurrent := congrArg Kernel.current h.rest
  exact hcurrent

theorem FilesOnly.currentProcess (h : FilesOnly k k') : k'.currentProcess = k.currentProcess := by
  rw [Kernel.currentProcess, Kernel.currentProcess, h.procs, h.current]

/-- Other files, and heap that was taken. -/
theorem FilesOnly.files (k : Kernel) {heapPos : Nat} (h : k.heapPos ≤ heapPos) (abyss : Abyssfs)
    (ramfs : Ramfs) :
    FilesOnly k { k with heapPos := heapPos, abyss := abyss, ramfs := ramfs } :=
  ⟨rfl, h, le_rfl, id⟩

theorem FilesOnly.setFile (k : Kernel) (fd : Int) (file : Option VfsFile) :
    FilesOnly k (k.setFile fd file) := ⟨rfl, le_rfl, le_rfl, id⟩

theorem handed_le {heapPos heapPos' : Nat} {file : Option VfsFile}
    (h : Descriptors.Handed heapPos file heapPos') : heapPos ≤ heapPos' := by
  cases h with
  | refused => exact le_rfl
  | filled file => exact Nat.le_add_right _ _

/-- A descriptor is handed out while there is one, and counts for good. -/
theorem allocFd_effect (k : Kernel) (file : VfsFile) : FilesOnly k (allocFd k file).2 ∧
    (allocFd k file).2.nextFd = if 0 ≤ (allocFd k file).1 then k.nextFd + 1 else k.nextFd := by
  obtain ⟨hfull, halloc⟩ | ⟨hroom, halloc⟩ := allocFd_cases k file
  · rw [halloc]
    exact ⟨.refl k, rfl⟩
  · rw [halloc]
    refine ⟨⟨rfl, le_rfl, Nat.le_succ _, fun _ => hroom⟩, ?_⟩
    rw [if_pos (Int.natCast_nonneg _)]
    rfl

theorem fsOpen_effect (k : Kernel) (path : Str) (fs : FileOps) :
    FilesOnly k (fsOpen k path fs).2 ∧ (fsOpen k path fs).2.nextFd = k.nextFd := by
  have hheap := handed_le (Descriptors.handed_fsOpen k path fs)
  cases fs with
  | ramfs => exact ⟨.files k hheap k.abyss k.ramfs, rfl⟩
  | abyssfs => exact ⟨.files k hheap k.abyss k.ramfs, rfl⟩

theorem fsCreate_effect {fs : FileOps} {file : Option VfsFile}
    (h : fsCreate k path fs = some (file, k')) : FilesOnly k k' ∧ k'.nextFd = k.nextFd := by
  obtain ⟨hheap, hnext⟩ := Descriptors.handed_fsCreate h
  refine ⟨?_, hnext⟩
  cases fs with
  | ramfs =>
      simp only [fsCreate, Option.map_eq_some_iff] at h
      obtain ⟨_, _, heq⟩ := h
      cases heq
      exact .files k (handed_le hheap) k.abyss _
  | abyssfs =>
      simp only [fsCreate, Option.map_eq_some_iff] at h
      obtain ⟨_, _, heq⟩ := h
      cases heq
      exact .files k (handed_le hheap) _ k.ramfs

/-- An open takes a descriptor exactly when it answers with one. -/
theorem vfsOpen_effect (h : vfsOpen k path = some (fd, k')) :
    FilesOnly k k' ∧ k'.nextFd = if 0 ≤ fd then k.nextFd + 1 else k.nextFd := by
  unfold vfsOpen at h
  split at h
  · cases h
  · cases h
    exact ⟨.refl k, rfl⟩
  · rename_i fs resolved _
    obtain ⟨hopen, hnext⟩ := fsOpen_effect k resolved fs
    cases hfs : fsOpen k resolved fs with
    | mk file k₁ =>
        rw [hfs] at h hopen hnext
        cases file with
        | none =>
            cases h
            exact ⟨hopen, hnext⟩
        | some file =>
            obtain ⟨halloc, hcount⟩ := allocFd_effect k₁ file
            rw [Option.some.inj h] at halloc hcount
            rw [hnext] at hcount
            exact ⟨hopen.trans halloc, hcount⟩

/-- So does a create. -/
theorem vfsCreate_effect (h : vfsCreate k path = some (fd, k')) :
    FilesOnly k k' ∧ k'.nextFd = if 0 ≤ fd then k.nextFd + 1 else k.nextFd := by
  unfold vfsCreate at h
  split at h
  · cases h
  · cases h
    exact ⟨.refl k, rfl⟩
  · split at h
    · cases h
    · rename_i hcreate
      cases h
      exact fsCreate_effect hcreate
    · rename_i file k₁ hcreate
      obtain ⟨hfs, hnext⟩ := fsCreate_effect hcreate
      obtain ⟨halloc, hcount⟩ := allocFd_effect k₁ file
      rw [Option.some.inj h] at halloc hcount
      rw [hnext] at hcount
      exact ⟨hfs.trans halloc, hcount⟩

/-- The calls that take no descriptor. -/
def FilesOnlyKept (k k' : Kernel) : Prop := FilesOnly k k' ∧ k'.nextFd = k.nextFd

theorem FilesOnlyKept.trans (h : FilesOnlyKept k k₁) (h' : FilesOnlyKept k₁ k₂) :
    FilesOnlyKept k k₂ := ⟨h.1.trans h'.1, h'.2.trans h.2⟩

theorem vfsRead_effect {bytes : Option Str} {count : Nat}
    (h : vfsRead k fd count = some (bytes, k')) : FilesOnlyKept k k' := by
  unfold vfsRead at h
  split at h
  · cases h
    exact ⟨.refl k, rfl⟩
  · split at h
    · obtain ⟨_, _, heq⟩ := Option.map_eq_some_iff.mp h
      cases heq
      exact ⟨.setFile k _ _, rfl⟩
    · obtain ⟨_, _, heq⟩ := Option.map_eq_some_iff.mp h
      cases heq
      exact ⟨.setFile k _ _, rfl⟩

theorem vfsWrite_effect {buf : Str} (h : vfsWrite k fd buf = some (result, k')) :
    FilesOnlyKept k k' := by
  unfold vfsWrite at h
  split at h
  · cases h
    exact ⟨.refl k, rfl⟩
  · split at h
    · obtain ⟨_, _, heq⟩ := Option.map_eq_some_iff.mp h
      cases heq
      exact ⟨⟨rfl, le_rfl, le_rfl, id⟩, rfl⟩
    · cases h
      exact ⟨.files k le_rfl _ k.ramfs, rfl⟩

theorem vfsClose_effect (k : Kernel) (fd : Int) : FilesOnlyKept k (vfsClose k fd).2 := by
  rw [vfsClose_kernel]
  exact ⟨⟨rfl, le_rfl, le_rfl, id⟩, rfl⟩

theorem vfsUnlink_effect (h : vfsUnlink k path = some (result, k')) : FilesOnlyKept k k' := by
  unfold vfsUnlink at h
  split at h
  · cases h
  · cases h
    exact ⟨.refl k, rfl⟩
  · rename_i fs given _
    cases fs with
    | ramfs =>
        cases h
        exact ⟨.files k le_rfl k.abyss _, rfl⟩
    | abyssfs =>
        obtain ⟨_, _, heq⟩ := Option.map_eq_some_iff.mp h
        cases heq
        exact ⟨.files k le_rfl _ k.ramfs, rfl⟩

theorem vfsMkdir_effect (h : vfsMkdir k path = some (result, k')) : FilesOnlyKept k k' := by
  unfold vfsMkdir at h
  split at h
  · cases h
  · cases h
    exact ⟨.refl k, rfl⟩
  · rename_i fs full _
    cases fs with
    | ramfs =>
        cases h
        exact ⟨.files k le_rfl k.abyss _, rfl⟩
    | abyssfs =>
        obtain ⟨_, _, heq⟩ := Option.map_eq_some_iff.mp h
        cases heq
        exact ⟨.files k le_rfl _ k.ramfs, rfl⟩

theorem vfsRemoveRecursive_effect (h : vfsRemoveRecursive k path = some (result, k')) :
    FilesOnlyKept k k' := by
  unfold vfsRemoveRecursive at h
  split at h
  · cases h
  · cases h
    exact ⟨.refl k, rfl⟩
  · rename_i fs full _
    cases fs with
    | ramfs =>
        cases h
        exact ⟨.refl k, rfl⟩
    | abyssfs =>
        obtain ⟨_, _, heq⟩ := Option.map_eq_some_iff.mp h
        cases heq
        exact ⟨.files k le_rfl _ k.ramfs, rfl⟩

/-- Resolving a path takes a buffer. -/
theorem resolveNamespacePath_effect {resolved : Str}
    (h : resolveNamespacePath k path = some (resolved, k')) : FilesOnlyKept k k' := by
  unfold resolveNamespacePath at h
  split at h
  · cases h
    exact ⟨.refl k, rfl⟩
  · split at h
    · cases h
      exact ⟨.refl k, rfl⟩
    · split at h
      · cases h
        exact ⟨.refl k, rfl⟩
      · rename_i heapPos hkalloc
        have hheap := kalloc_le hkalloc
        dsimp only at h
        split_ifs at h
        all_goals
          cases h
          exact ⟨.files k hheap k.abyss k.ramfs, rfl⟩

theorem vfsReadDir_effect {maxEntries : Nat} {dirents : Option (List (Nat × Str))}
    (h : vfsReadDir k path maxEntries = some (dirents, k')) : FilesOnlyKept k k' := by
  unfold vfsReadDir at h
  split at h
  · cases h
  · rename_i hresolve
    have hbuffer := resolveNamespacePath_effect hresolve
    split at h
    · cases h
      exact hbuffer
    · obtain ⟨_, _, heq⟩ := Option.map_eq_some_iff.mp h
      cases heq
      exact hbuffer

theorem copyLoop_effect {src dst : Int} {complete : Bool} (fuel : Nat) :
    ∀ {k : Kernel}, copyLoop src dst fuel k = some (complete, k') → FilesOnlyKept k k' := by
  induction fuel with
  | zero =>
      intro k h
      cases h
  | succ fuel ih =>
      intro k h
      rw [copyLoop] at h
      split at h
      · cases h
      · rename_i hread
        cases h
        exact vfsRead_effect hread
      · rename_i bytes k₁ hread
        have hfirst := vfsRead_effect hread
        split_ifs at h
        · cases h
          exact hfirst
        · split at h
          · cases h
          · rename_i written k₂ hwrite
            have hboth := hfirst.trans (vfsWrite_effect hwrite)
            split_ifs at h
            · cases h
              exact hboth
            · exact hboth.trans (ih h)

/-- A copy that was begun has opened two files. -/
theorem copyFile_effect {src dst : Str} {complete : Option Bool}
    (h : copyFile k src dst = some (complete, k')) :
    FilesOnly k k' ∧ (complete ≠ none → k'.nextFd = k.nextFd + 2) := by
  rw [copyFile] at h
  split at h
  · cases h
  · rename_i srcFd k₁ hopen
    obtain ⟨hfirst, hcount⟩ := vfsOpen_effect hopen
    split_ifs at h with hneg
    · cases h
      exact ⟨hfirst, fun hne => absurd rfl hne⟩
    · rw [if_pos (Int.not_lt.mp hneg)] at hcount
      split at h
      · cases h
      · rename_i dstFd k₂ hcreate
        obtain ⟨hsecond, hcount'⟩ := vfsCreate_effect hcreate
        split_ifs at h with hneg'
        · cases h
          exact ⟨(hfirst.trans hsecond).trans (vfsClose_effect k₂ srcFd).1,
            fun hne => absurd rfl hne⟩
        · rw [if_pos (Int.not_lt.mp hneg')] at hcount'
          obtain ⟨⟨_, k₃⟩, hloop, heq⟩ := Option.map_eq_some_iff.mp h
          cases heq
          have hcopy := copyLoop_effect _ hloop
          have hclose := (vfsClose_effect k₃ srcFd).trans (vfsClose_effect _ dstFd)
          have hrest := hcopy.trans hclose
          refine ⟨(hfirst.trans hsecond).trans hrest.1, fun _ => ?_⟩
          calc _ = k₂.nextFd := hrest.2
            _ = k.nextFd + 2 := by rw [hcount', hcount]

end Frames

/-! What goes to a process. -/

/-- Of the processes only the current one has changed, in its directory and its bindings; the heap and
the descriptors have only grown. -/
structure OwnOnly (k k' : Kernel) : Prop where
  rest : { k' with
    heapPos := k.heapPos, abyss := k.abyss, ramfs := k.ramfs
    fdTable := k.fdTable, nextFd := k.nextFd, procs := k.procs } = k
  others : ∀ q, k.current ≠ some q → k'.procs q = k.procs q
  own : ∀ p, k.current = some p →
    k'.procs p = { k.procs p with cwd := (k'.procs p).cwd, ns := (k'.procs p).ns }
  heap : k.heapPos ≤ k'.heapPos
  next : k.nextFd ≤ k'.nextFd
  bound : k.nextFd ≤ maxFd → k'.nextFd ≤ maxFd

/-- The working directory, which `pwd` prints. -/
def cwdOf (k : Kernel) : Option Str := k.currentProcess.map Process.cwd

section Own

variable {k k' k₁ : Kernel} {p : ProcessPtr} {result : Int}

theorem createNamespace_le {heapPos heapPos' : Nat} {old new : Str} {flags : Int}
    {ns : Option Namespace} (h : createNamespace heapPos old new flags = (ns, heapPos')) :
    heapPos ≤ heapPos' := by
  unfold createNamespace at h
  split at h
  · rename_i hkalloc
    cases h
    exact kalloc_le hkalloc
  · rename_i heapPos₁ hkalloc
    have hle : heapPos ≤ (kalloc (kalloc heapPos₁ (old.length + 1)).2 (new.length + 1)).2 :=
      calc heapPos ≤ heapPos₁ := kalloc_le hkalloc
        _ ≤ (kalloc heapPos₁ (old.length + 1)).2 := kalloc_le rfl
        _ ≤ _ := kalloc_le rfl
    dsimp only at h
    split_ifs at h
    all_goals
      cases h
      exact hle

theorem OwnOnly.current (h : OwnOnly k k') : k'.current = k.current := by
  have hcurrent := congrArg Kernel.current h.rest
  exact hcurrent

theorem OwnOnly.trans {k'' : Kernel} (h : OwnOnly k k') (h' : OwnOnly k' k'') : OwnOnly k k'' where
  rest := by
    have hrest := h.rest
    rw [← h'.rest] at hrest
    exact hrest
  others q hq := by
    have hq' : k'.current ≠ some q := h.current ▸ hq
    exact (h'.others q hq').trans (h.others q hq)
  own p hp := by
    have hp' : k'.current = some p := h.current.trans hp
    rw [h'.own p hp', h.own p hp]
  heap := h.heap.trans h'.heap
  next := h.next.trans h'.next
  bound hk := h'.bound (h.bound hk)

/-- Files are used, and then the current process gets a directory and bindings. -/
theorem OwnOnly.set (h : FilesOnly k k₁) (hcur : k.current = some p) (cwd : Str)
    (ns : List Namespace) :
    OwnOnly k (k₁.setProc p { k₁.procs p with cwd := cwd, ns := ns }) where
  rest := by
    have hrest := h.rest
    rw [h.procs] at hrest
    exact hrest
  others q hq := by
    have hne : q ≠ p := fun heq => hq (heq ▸ hcur)
    calc (k₁.setProc p { k₁.procs p with cwd := cwd, ns := ns }).procs q
        = k₁.procs q := Function.update_of_ne hne _ _
      _ = k.procs q := congrFun h.procs q
  own q hq := by
    obtain rfl : p = q := Option.some.inj (hcur.symm.trans hq)
    rw [Kernel.setProc]
    dsimp only
    rw [Function.update_self, h.procs]
  heap := h.heap
  next := h.next
  bound := h.bound

theorem ownOnly_of_files (h : FilesOnly k k') : OwnOnly k k' where
  rest := by
    rw [← h.procs]
    exact h.rest
  others q _ := by rw [h.procs]
  own p _ := by rw [h.procs]
  heap := h.heap
  next := h.next
  bound := h.bound

theorem OwnOnly.refl (k : Kernel) : OwnOnly k k := ownOnly_of_files (.refl k)

/-- A binding goes to the current process. -/
theorem bind_effect {old new : Str} {flags : Int} (h : bind k old new flags = some (result, k')) :
    OwnOnly k k' ∧ cwdOf k' = cwdOf k := by
  have hfiles : ∀ {k₁ : Kernel}, FilesOnly k k₁ → OwnOnly k k₁ ∧ cwdOf k₁ = cwdOf k :=
    fun {k₁} hfiles => ⟨ownOnly_of_files hfiles, by rw [cwdOf, hfiles.currentProcess]; rfl⟩
  unfold bind at h
  split at h
  · cases h
  · rename_i hold
    cases h
    exact hfiles (vfsReadDir_effect hold).1
  · rename_i entries k₂ hold
    have hfirst := (vfsReadDir_effect hold).1
    split at h
    · cases h
    · rename_i hnew
      cases h
      exact hfiles (hfirst.trans (vfsReadDir_effect hnew).1)
    · rename_i entries' k₃ hnew
      have hboth := hfirst.trans (vfsReadDir_effect hnew).1
      have hheap : ∀ {ns : Option Namespace} {heapPos : Nat},
          createNamespace k₃.heapPos old new flags = (ns, heapPos) →
            FilesOnly k { k₃ with heapPos := heapPos } := by
        intro ns heapPos hcreate
        exact hboth.trans (.files k₃ (createNamespace_le hcreate) k₃.abyss k₃.ramfs)
      split at h
      · rename_i hcreate
        cases h
        exact hfiles (hheap hcreate)
      · rename_i ns heapPos hcreate
        dsimp only at h
        split at h
        · cases h
          exact hfiles (hheap hcreate)
        · rename_i q hcur
          cases h
          have hcur' : k.current = some q := (hheap hcreate).current.symm.trans hcur
          refine ⟨.set (hheap hcreate) hcur' _ _, ?_⟩
          rw [cwdOf, cwdOf, ← (hheap hcreate).currentProcess]
          simp only [Kernel.currentProcess, Kernel.setProc, hcur, Option.map_some,
            Function.update_self]

theorem unbind_effect (k : Kernel) (path : Str) :
    OwnOnly k (unbind k path).2 ∧ cwdOf (unbind k path).2 = cwdOf k := by
  unfold unbind
  split
  · exact ⟨.refl k, rfl⟩
  · rename_i p hcur
    split_ifs
    · refine ⟨.set (.refl k) hcur _ _, ?_⟩
      simp only [cwdOf, Kernel.currentProcess, Kernel.setProc, hcur, Option.map_some,
        Function.update_self]
    · exact ⟨.refl k, rfl⟩

end Own

end Chthon
