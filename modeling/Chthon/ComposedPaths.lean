import Chthon.ProcessDirectories
import Chthon.RamfsListing
import Chthon.VfsNames

/-! Paths put together from the working directory and the text of a message. Each operation builds
them in a buffer of 256 bytes, RAMFS copies the result to one of 32, and neither asks for the
length. -/

namespace Chthon

open ByteMemory Run

inductive PathOp where
  | chdir
  | create
  | unlink
  | mkdir
  | removeRecursive
  deriving DecidableEq

/-- The path that a message asks for. -/
def requestedPath (cwd path : Str) : Str :=
  if path.head? = some slash then path
  else cwd ++ (if cwd.getLast? = some slash then [] else [slash]) ++ path

/-- The text that the operation goes on with once it has filled its buffer. -/
def PathOp.handedOn (k : Kernel) (path : Str) : PathOp → Option Str
  | .chdir => chdirPath k path
  | .create => (createRoute k path).map Prod.snd
  | .unlink => (unlinkRoute k path).map Prod.snd
  | .mkdir => (mkdirRoute k path).map Prod.snd
  | .removeRecursive => (removeRecursiveRoute k path).map Prod.snd

/-- What is kept of the path: a directory change keeps it whole, in normal form, and a create or
mkdir on RAMFS that succeeds in a slot with room for it. -/
def PathOp.Keeps (k : Kernel) (path full : Str) : PathOp → Prop
  | .chdir => (vfsNormalizePath full).take (maxPath - 1) = vfsNormalizePath full
  | .create => createRoute k path = some (some .ramfs, full) →
      ∃ file heapPos fs, ramfsCreate k.heapPos k.ramfs full = some (file, heapPos, fs) ∧
        ∀ f, file = some f → (fs f.privateData).Named full
  | .mkdir => mkdirRoute k path = some (some .ramfs, full) → (ramfsMkdir k.ramfs full).1 = 0 →
      ∃ i, ramfsFree k.ramfs = some i ∧ ((ramfsMkdir k.ramfs full).2 i).Named full
  | _ => True

/-- The operation goes on with the path it was asked for, and RAMFS keeps it. -/
structure PathOp.Exact (op : PathOp) (k : Kernel) (cwd path : Str) : Prop where
  handed : op.handedOn k path = some (requestedPath cwd path)
  kept : op.Keeps k path (requestedPath cwd path)

/-- What is asked of the path besides: an unlink has it in full, as that is what it hands on, and on
RAMFS a slot has room for it. -/
def PathOp.Room (k : Kernel) (path full : Str) : PathOp → Prop
  | .unlink => path.head? = some slash
  | .create => tmpMount <+: full → (ramfsFullPath full).length < slotPath ∧
      (tmpPrefix <+: full ∨ ramfsFree k.ramfs = none ∨ HeapFull k.heapPos)
  | .mkdir => tmpMount <+: full → full.length < slotPath ∨ ramfsFree k.ramfs = none
  | _ => True

/-- The path has room in the buffers. -/
structure PathOp.Fits (op : PathOp) (k : Kernel) (cwd path : Str) : Prop where
  short : (requestedPath cwd path).length < maxPath
  room : op.Room k path (requestedPath cwd path)

section Requests

variable {k : Kernel} {p : ProcessPtr} {path full : Str}

theorem requested_usable {cwd : Str} (hcwd : UsableDirectory cwd) (hnul : 0 ∉ path) :
    (requestedPath cwd path).head? = some slash ∧ 0 ∉ requestedPath cwd path := by
  rw [requestedPath]
  split_ifs with habs
  · exact ⟨habs, hnul⟩
  · rw [List.append_nil]
    exact hcwd.append hnul
  · rw [List.append_assoc]
    refine hcwd.append ?_
    simpa [slash] using hnul

/-- Where the buffer is large enough it holds the path asked for. -/
theorem fullPath_requested (path : Str) (hcur : k.current = some p)
    (hcwd : UsableDirectory (k.procs p).cwd) : fullPath k path =
      if (requestedPath (k.procs p).cwd path).length ≥ maxPath then none
      else some (requestedPath (k.procs p).cwd path) := by
  have hne : (k.procs p).cwd ≠ [] := by
    intro hnil
    exact not_usableDirectory_nil (hnil ▸ hcwd)
  rw [fullPath, requestedPath]
  by_cases habs : path.head? = some slash
  · rw [if_pos habs, if_pos habs]
  · rw [if_neg habs, if_neg habs]
    simp only [Kernel.currentProcess, hcur, Option.map_some, if_neg hne]
    by_cases hlast : (k.procs p).cwd.getLast? = some slash
    · rw [if_pos hlast, if_pos hlast, List.append_nil]
    · rw [if_neg hlast, if_neg hlast]

theorem chdirPath_requested (hcur : k.current = some p)
    (hcwd : UsableDirectory (k.procs p).cwd) :
    chdirPath k path = some (requestedPath (k.procs p).cwd path) ↔
      (requestedPath (k.procs p).cwd path).length < maxPath := by
  rw [chdirPath]
  by_cases habs : path.head? = some slash
  · rw [if_pos habs, requestedPath, if_pos habs, Option.some.injEq, List.take_eq_self_iff, maxPath]
    omega
  · rw [if_neg habs, fullPath_requested path hcur hcwd]
    split_ifs with hlong
    · exact iff_of_false (by simp) (by omega)
    · exact iff_of_true rfl (by omega)

theorem requested_eq_iff {cwd : Str} (hcwd : UsableDirectory cwd) (hnul : 0 ∉ path) :
    path = requestedPath cwd path ↔ path.head? = some slash := by
  constructor
  · intro heq
    have habs := (requested_usable hcwd hnul).1
    rwa [← heq] at habs
  · intro habs
    rw [requestedPath, if_pos habs]

end Requests

section Slots

variable {fs : Ramfs} {heapPos : Nat} {full : Str}

theorem ramfsFullPath_eq_self_iff : ramfsFullPath full = full ↔ tmpPrefix <+: full := by
  rw [ramfsFullPath]
  split_ifs with htmp <;> rw [List.isPrefixOf_iff_prefix] at htmp
  · exact iff_of_true rfl htmp
  · exact iff_of_false (fun heq => htmp (heq ▸ List.prefix_append _ _)) htmp

theorem ramfsCreate_heapFull {f : VfsFile} {heapPos' : Nat} {fs' : Ramfs}
    (hheap : HeapFull heapPos) :
    ramfsCreate heapPos fs full ≠ some (some f, heapPos', fs') := by
  intro h
  unfold ramfsCreate at h
  dsimp only at h
  split_ifs at h
  split at h
  · cases h
  · split at h
    · cases h
    · rename_i hkalloc
      rw [HeapFull, hkalloc] at hheap
      cases hheap

/-- A create keeps the path where it has room for it and does not put `/tmp/` in front. -/
theorem ramfsCreate_keeps_iff (hnul : 0 ∉ full) :
    (∃ file heapPos' fs', ramfsCreate heapPos fs full = some (file, heapPos', fs') ∧
      ∀ f, file = some f → (fs' f.privateData).Named full) ↔
    (ramfsFullPath full).length < slotPath ∧
      (tmpPrefix <+: full ∨ ramfsFree fs = none ∨ HeapFull heapPos) := by
  constructor
  · rintro ⟨file, heapPos', fs', hcreate, hnamed⟩
    cases file with
    | none =>
        have hshort : (ramfsFullPath full).length < slotPath := by
          by_contra hlong
          rw [ramfsCreate, if_pos (by omega)] at hcreate
          cases hcreate
        rcases ramfsCreate_none hcreate with ⟨hfree, -⟩ | ⟨_, -, hheap, -, -⟩
        · exact ⟨hshort, .inr (.inl hfree)⟩
        · exact ⟨hshort, .inr (.inr hheap)⟩
    | some f =>
        obtain ⟨i, -, rfl, hshort, rfl⟩ := ramfsCreate_some hcreate
        have hfull := hnamed _ rfl
        rw [Function.update_self] at hfull
        have hstored := newSlot_named (fs i) true hshort (ramfsFullPath_nul_free hnul)
        exact ⟨hshort, .inl (ramfsFullPath_eq_self_iff.mp (hstored.unique hfull))⟩
  · rintro ⟨hshort, hkept⟩
    obtain ⟨⟨file, heapPos', fs'⟩, hcreate⟩ : ∃ r, ramfsCreate heapPos fs full = some r := by
      rw [ramfsCreate, if_neg (by omega)]
      dsimp only
      split
      · exact ⟨_, rfl⟩
      · split <;> exact ⟨_, rfl⟩
    refine ⟨file, heapPos', fs', hcreate, ?_⟩
    rintro f rfl
    obtain ⟨i, hfree, rfl, -, rfl⟩ := ramfsCreate_some hcreate
    rcases hkept with htmp | hnone | hheap
    · rw [Function.update_self]
      have hstored := newSlot_named (fs i) true hshort (ramfsFullPath_nul_free hnul)
      rwa [ramfsFullPath_eq_self_iff.mpr htmp] at hstored ⊢
    · rw [hfree] at hnone
      cases hnone
    · exact absurd hcreate (ramfsCreate_heapFull hheap)

/-- A mkdir keeps the path where it has room for it, or takes no slot. -/
theorem ramfsMkdir_keeps_iff (hnul : 0 ∉ full) :
    ((ramfsMkdir fs full).1 = 0 →
      ∃ i, ramfsFree fs = some i ∧ ((ramfsMkdir fs full).2 i).Named full) ↔
    full.length < slotPath ∨ ramfsFree fs = none := by
  rw [ramfsMkdir]
  cases ramfsFree fs with
  | none => exact iff_of_true (fun h => absurd h (show (-1 : Int) ≠ 0 by decide)) (.inr rfl)
  | some i =>
      dsimp only
      constructor
      · intro h
        obtain ⟨j, -, hnamed⟩ := h rfl
        exact .inl hnamed.short
      · rintro (hshort | hnone) -
        · refine ⟨i, rfl, ?_⟩
          rw [Function.update_self]
          exact named_of_store hshort hnul fun _ _ => rfl
        · cases hnone

end Slots

section Operations

variable {k : Kernel} {p : ProcessPtr} {path : Str}

theorem PathOp.handedOn_iff (hcur : k.current = some p) (hcwd : UsableDirectory (k.procs p).cwd)
    (hnul : 0 ∉ path) (op : PathOp) :
    op.handedOn k path = some (requestedPath (k.procs p).cwd path) ↔
      (requestedPath (k.procs p).cwd path).length < maxPath ∧
        (op = .unlink → path.head? = some slash) := by
  have hfull := fullPath_requested path hcur hcwd
  cases op with
  | chdir => simpa [PathOp.handedOn] using chdirPath_requested hcur hcwd
  | unlink =>
      rw [PathOp.handedOn, unlinkRoute, hfull, Option.map_map]
      split_ifs with hlong
      · exact iff_of_false (by simp) (by omega)
      · rw [Option.map_some, Option.some.injEq, and_iff_right (by omega)]
        simpa using requested_eq_iff hcwd hnul
  | _ =>
      simp only [PathOp.handedOn, createRoute, mkdirRoute, removeRecursiveRoute, hfull,
        Option.map_map]
      split_ifs with hlong
      · exact iff_of_false (by simp) (by omega)
      · exact iff_of_true rfl ⟨by omega, by simp⟩

/-- The file system for the path asked for, by its start. -/
theorem routes_requested (hcur : k.current = some p) (hcwd : UsableDirectory (k.procs p).cwd)
    (hnul : 0 ∉ path) (hshort : (requestedPath (k.procs p).cwd path).length < maxPath)
    (h : tmpMount <+: requestedPath (k.procs p).cwd path) :
    createRoute k path = some (some .ramfs, requestedPath (k.procs p).cwd path) ∧
      mkdirRoute k path = some (some .ramfs, requestedPath (k.procs p).cwd path) := by
  have habs := (requested_usable hcwd hnul).1
  have hfull := fullPath_requested path hcur hcwd
  rw [if_neg (by omega)] at hfull
  rw [createRoute, mkdirRoute, hfull, Option.map_some, Option.map_some, createMount_eq habs,
    findMount_absolute habs, if_pos h]
  exact ⟨rfl, rfl⟩

theorem routes_elsewhere (hcur : k.current = some p) (hcwd : UsableDirectory (k.procs p).cwd)
    (hnul : 0 ∉ path) (hshort : (requestedPath (k.procs p).cwd path).length < maxPath)
    (h : ¬tmpMount <+: requestedPath (k.procs p).cwd path) :
    createRoute k path ≠ some (some .ramfs, requestedPath (k.procs p).cwd path) ∧
      mkdirRoute k path ≠ some (some .ramfs, requestedPath (k.procs p).cwd path) := by
  have habs := (requested_usable hcwd hnul).1
  have hfull := fullPath_requested path hcur hcwd
  rw [if_neg (by omega)] at hfull
  rw [createRoute, mkdirRoute, hfull, Option.map_some, Option.map_some, createMount_eq habs,
    findMount_absolute habs, if_neg h]
  exact ⟨by simp, by simp⟩

theorem PathOp.keeps_iff (hcur : k.current = some p) (hcwd : UsableDirectory (k.procs p).cwd)
    (hnul : 0 ∉ path) (hshort : (requestedPath (k.procs p).cwd path).length < maxPath)
    (op : PathOp) : op.Keeps k path (requestedPath (k.procs p).cwd path) ∧
      (op = .unlink → path.head? = some slash) ↔
        op.Room k path (requestedPath (k.procs p).cwd path) := by
  obtain ⟨habs, hfree⟩ := requested_usable hcwd hnul
  cases op with
  | chdir =>
      have hlen := length_vfsNormalizePath habs
      refine iff_of_true ⟨List.take_of_length_le ?_, by simp⟩ trivial
      omega
  | create =>
      rw [PathOp.Keeps, PathOp.Room, and_iff_left (by simp)]
      by_cases htmp : tmpMount <+: requestedPath (k.procs p).cwd path
      · rw [← ramfsCreate_keeps_iff hfree]
        simp only [(routes_requested hcur hcwd hnul hshort htmp).1, htmp, true_imp_iff]
      · simp only [(routes_elsewhere hcur hcwd hnul hshort htmp).1, htmp, false_imp_iff]
  | mkdir =>
      rw [PathOp.Keeps, PathOp.Room, and_iff_left (by simp), ramfsMkdir_keeps_iff hfree]
      by_cases htmp : tmpMount <+: requestedPath (k.procs p).cwd path
      · simp only [(routes_requested hcur hcwd hnul hshort htmp).2, htmp, true_imp_iff]
      · simp only [(routes_elsewhere hcur hcwd hnul hshort htmp).2, htmp, false_imp_iff]
  | unlink => simp [PathOp.Keeps, PathOp.Room]
  | removeRecursive => simp [PathOp.Keeps, PathOp.Room]

theorem PathOp.exact_iff (hcur : k.current = some p) (hcwd : UsableDirectory (k.procs p).cwd)
    (hnul : 0 ∉ path) (op : PathOp) :
    op.Exact k (k.procs p).cwd path ↔ op.Fits k (k.procs p).cwd path := by
  have hhanded := op.handedOn_iff hcur hcwd hnul
  constructor
  · rintro ⟨hhand, hkept⟩
    obtain ⟨hshort, hunlink⟩ := hhanded.mp hhand
    exact ⟨hshort, (op.keeps_iff hcur hcwd hnul hshort).mp ⟨hkept, hunlink⟩⟩
  · rintro ⟨hshort, hroom⟩
    obtain ⟨hkept, hunlink⟩ := (op.keeps_iff hcur hcwd hnul hshort).mpr hroom
    exact ⟨hhanded.mpr ⟨hshort, hunlink⟩, hkept⟩

/-- In every state that runs with directory changes reach, an operation goes on with the path it was
asked for just when the path has room in the buffers. -/
theorem composed_paths_iff (img : Image) (s₀ s : System) (hstart : Started img s₀)
    (trace : List (DirEvent × DirReply)) (hrun : Steps (dirStep img) (fun _ _ => True) s₀ trace s)
    (p : ProcessPtr) (hcur : s.kernel.current = some p) (hplaced : p ∉ unplaced s₀ trace)
    (op : PathOp) (path : CString) :
    op.Exact s.kernel (s.kernel.procs p).cwd path.chars ↔
      op.Fits s.kernel (s.kernel.procs p).cwd path.chars := by
  have hinv := hstart.directoryInv_run hrun
  exact op.exact_iff hcur (hinv.placed p (hinv.current p hcur) hplaced) path.nul_free

end Operations

/-! The shell's child at work in `/tmp`. -/

theorem moved_started : Started blankImage emptySystem := .empty blankKernel blankKernel_zero

theorem moved_run : Steps (dirStep blankImage) (fun _ _ => True) emptySystem
    (forkAndMove.zip forkAndMoveReplies) (forkAndMoveAfter 5) :=
  forkAndMove_run 5 (by decide +kernel)

theorem moved_current : (forkAndMoveAfter 5).kernel.current = some (.processes 0) := by
  decide +kernel

theorem moved_placed :
    ProcessPtr.processes 0 ∉ unplaced emptySystem (forkAndMove.zip forkAndMoveReplies) := by
  decide +kernel

theorem composed_paths_moved : PathOp.Exact .create (forkAndMoveAfter 5).kernel
      ((forkAndMoveAfter 5).kernel.procs (.processes 0)).cwd nameA.chars ↔
    PathOp.Fits .create (forkAndMoveAfter 5).kernel
      ((forkAndMoveAfter 5).kernel.procs (.processes 0)).cwd nameA.chars :=
  composed_paths_iff blankImage emptySystem (forkAndMoveAfter 5) moved_started _ moved_run
    (.processes 0) moved_current moved_placed .create nameA

theorem slotName_nul_free : 0 ∉ List.replicate 27 (97 : UInt8) := by decide

def slotName : CString := ⟨List.replicate 27 97, slotName_nul_free⟩

/-- In `/tmp` a name of 27 bytes makes a path of 32, one more than a slot has room for. -/
theorem long_name_overflows : ¬ ∀ (img : Image) (s₀ s : System) (trace : List (DirEvent × DirReply))
    (p : ProcessPtr), Started img s₀ → Steps (dirStep img) (fun _ _ => True) s₀ trace s →
    s.kernel.current = some p → p ∉ unplaced s₀ trace → ∀ (op : PathOp) (path : CString),
      path.chars.length ≤ 255 → op.Exact s.kernel (s.kernel.procs p).cwd path.chars := by
  intro h
  have hexact := h blankImage emptySystem _ _ (.processes 0) moved_started moved_run moved_current
    moved_placed .create slotName (by decide)
  have hrequested : requestedPath ((forkAndMoveAfter 5).kernel.procs (.processes 0)).cwd
      slotName.chars = tmpPrefix ++ slotName.chars := by decide +kernel
  have hroute : createRoute (forkAndMoveAfter 5).kernel slotName.chars =
      some (some .ramfs, tmpPrefix ++ slotName.chars) := by decide +kernel
  have hkept := hexact.kept
  rw [hrequested] at hkept
  obtain ⟨file, heapPos, fs, hcreate, -⟩ := hkept hroute
  rw [ramfsCreate, if_pos (by decide)] at hcreate
  cases hcreate

end Chthon
