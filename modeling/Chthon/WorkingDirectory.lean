import Chthon.AbyssCreate
import Chthon.VfsRouting

/-! Absolute paths and the working directory. `vfs_create` hands the full path on, but
`abyssfs_create` takes its first slash away, and `create_file` completes what has no slash left with
the working directory once more. So a file in the root is made there only from a directory that is
the root. `vfs_mkdir` and `vfs_unlink` do not look at the directory again. -/

namespace Chthon

open ByteMemory PathText

/-- A C string that starts with a slash: an absolute path, or what `cwd` holds. -/
structure AbsolutePath extends CString where
  absolute : chars.head? = some slash

/-- The kernel while process `p` works in `cwd`. -/
def inDirectory (k : Kernel) (p : ProcessPtr) (cwd : AbsolutePath) : Kernel :=
  k.setProc p { k.procs p with cwd := cwd.chars }

/-- An answer to a call by process `p`, told as if `p` worked in `cwd`. -/
def answerIn (p : ProcessPtr) (cwd : AbsolutePath) (answer : Int × Kernel) : Int × Kernel :=
  (answer.1, inDirectory answer.2 p cwd)

/-- Two runs of a call from two directories: the same result, and the same kernel but for the
directory. -/
def CwdIndependent (k : Kernel) (p : ProcessPtr) (c₁ c₂ : AbsolutePath)
    (call : Kernel → Option (Int × Kernel)) : Prop :=
  (call (inDirectory k p c₁)).map (answerIn p c₂) = call (inDirectory k p c₂)

/-- The directory that an absolute path is in: what is before its last slash, looked up. -/
def parentDirectory (m : Memory) (path : Str) : Option (Option Nat) :=
  match splitLast slash path with
  | none => some none
  | some (dir, _) => getInodeByPath m dir

/-- The directory that `create_file` puts the entry of `abyssfs_create` into. -/
def entryDirectory (m : Memory) (cwd path : Str) : Option (Option Nat) :=
  (createParent m (some cwd) (skipSlash path)).map (·.map Prod.fst)

/-- Where `vfs_create` gets as far as `create_file`, the entry goes to the directory of the path. -/
def EntryInParent (k : Kernel) (cwd : AbsolutePath) (path : Str) : Prop :=
  ∀ full, createRoute k path = some (some .abyssfs, full) → (allocInode k.abyss).1 ≠ 0 →
    entryDirectory (allocInode k.abyss).2.mem cwd.chars full =
      parentDirectory (allocInode k.abyss).2.mem full

/-- The directory that `create_file` takes the working directory for. -/
def cwdDirectory (m : Memory) (cwd : Str) : Option (Option Nat) :=
  if cwd = ascii "/" then some (some rootInode) else getInodeByPath m cwd.tail

/-- The path leads to RAMFS or has a second slash, or no inode is free, or both working directories
lead to the root. -/
def IgnoresCwd (k : Kernel) (c₁ c₂ : AbsolutePath) (path : Str) : Prop :=
  ∀ full, createRoute k path = some (some .abyssfs, full) →
    (allocInode k.abyss).1 = 0 ∨ slash ∈ full.tail ∨
      (cwdDirectory (allocInode k.abyss).2.mem c₁.chars = some (some rootInode) ∧
        cwdDirectory (allocInode k.abyss).2.mem c₂.chars = some (some rootInode))

/-! Calls that do not look at the directory. -/

section Runs

variable {k : Kernel} {p : ProcessPtr} {c c₁ c₂ : AbsolutePath} {path full : Str}
  {call : Kernel → Option (Int × Kernel)}

theorem inDirectory_inDirectory (k : Kernel) (p : ProcessPtr) (c₁ c₂ : AbsolutePath) :
    inDirectory (inDirectory k p c₁) p c₂ = inDirectory k p c₂ := by
  unfold inDirectory Kernel.setProc
  dsimp only
  rw [Function.update_idem, Function.update_self]

theorem answerIn_answerIn (p : ProcessPtr) (c₁ c₂ : AbsolutePath) (answer : Int × Kernel) :
    answerIn p c₂ (answerIn p c₁ answer) = answerIn p c₂ answer :=
  congrArg (Prod.mk answer.1) (inDirectory_inDirectory answer.2 p c₁ c₂)

/-- A call whose outcome is the same from every directory. -/
theorem CwdIndependent.of_outcome {outcome : Option (Int × Kernel)}
    (h₁ : call (inDirectory k p c₁) = outcome.map (answerIn p c₁))
    (h₂ : call (inDirectory k p c₂) = outcome.map (answerIn p c₂)) :
    CwdIndependent k p c₁ c₂ call := by
  rw [CwdIndependent, h₁, h₂, Option.map_map]
  congr 1
  funext answer
  exact answerIn_answerIn p c₁ c₂ answer

theorem fullPath_inDirectory (habs : path.head? = some slash) :
    fullPath (inDirectory k p c) path = fullPath k path := by
  rw [fullPath, fullPath, if_pos habs, if_pos habs]

theorem createRoute_inDirectory (habs : path.head? = some slash) :
    createRoute (inDirectory k p c) path = createRoute k path := by
  rw [createRoute, createRoute, fullPath_inDirectory habs]

theorem mkdirRoute_inDirectory (habs : path.head? = some slash) :
    mkdirRoute (inDirectory k p c) path = mkdirRoute k path := by
  rw [mkdirRoute, mkdirRoute, fullPath_inDirectory habs]

theorem unlinkRoute_inDirectory (habs : path.head? = some slash) :
    unlinkRoute (inDirectory k p c) path = unlinkRoute k path := by
  rw [unlinkRoute, unlinkRoute, fullPath_inDirectory habs]

theorem fsMkdir_inDirectory (k : Kernel) (p : ProcessPtr) (c : AbsolutePath) (path : Str)
    (fs : FileOps) :
    fsMkdir (inDirectory k p c) path fs = (fsMkdir k path fs).map (answerIn p c) := by
  cases fs with
  | ramfs => rfl
  | abyssfs =>
      rw [fsMkdir, fsMkdir, Option.map_map]
      rfl

theorem fsUnlink_inDirectory (k : Kernel) (p : ProcessPtr) (c : AbsolutePath) (path : Str)
    (fs : FileOps) :
    fsUnlink (inDirectory k p c) path fs = (fsUnlink k path fs).map (answerIn p c) := by
  cases fs with
  | ramfs => rfl
  | abyssfs =>
      rw [fsUnlink, fsUnlink, Option.map_map]
      rfl

theorem vfsMkdir_inDirectory (habs : path.head? = some slash) :
    vfsMkdir (inDirectory k p c) path = (vfsMkdir k path).map (answerIn p c) := by
  rw [vfsMkdir, vfsMkdir, mkdirRoute_inDirectory habs]
  rcases mkdirRoute k path with _ | ⟨_ | fs, full⟩
  · rfl
  · rfl
  · exact fsMkdir_inDirectory k p c full fs

theorem vfsUnlink_inDirectory (habs : path.head? = some slash) :
    vfsUnlink (inDirectory k p c) path = (vfsUnlink k path).map (answerIn p c) := by
  rw [vfsUnlink, vfsUnlink, unlinkRoute_inDirectory habs]
  rcases unlinkRoute k path with _ | ⟨_ | fs, full⟩
  · rfl
  · rfl
  · exact fsUnlink_inDirectory k p c full fs

theorem allocFd_inDirectory (k : Kernel) (p : ProcessPtr) (c : AbsolutePath) (file : VfsFile) :
    allocFd (inDirectory k p c) file = answerIn p c (allocFd k file) := by
  unfold allocFd
  rw [show (inDirectory k p c).nextFd = k.nextFd from rfl]
  split_ifs
  · rfl
  · rfl

/-! `vfs_create`. -/

/-- Where the path does not lead to AbyssFS, the directory is not looked at. -/
theorem vfsCreate_elsewhere (habs : path.head? = some slash)
    (helse : ∀ full, createRoute k path ≠ some (some .abyssfs, full)) :
    vfsCreate (inDirectory k p c) path = (vfsCreate k path).map (answerIn p c) := by
  rw [vfsCreate, vfsCreate, createRoute_inDirectory habs]
  rcases hroute : createRoute k path with _ | ⟨_ | fs, full⟩
  · rfl
  · rfl
  cases fs with
  | abyssfs => exact absurd hroute (helse full)
  | ramfs =>
      dsimp only [fsCreate]
      rw [show ramfsCreate (inDirectory k p c).heapPos (inDirectory k p c).ramfs full =
        ramfsCreate k.heapPos k.ramfs full from rfl]
      rcases ramfsCreate k.heapPos k.ramfs full with _ | ⟨_ | file, heapPos, ramfs⟩
      · rfl
      · rfl
      · exact congrArg some
          (allocFd_inDirectory { k with heapPos := heapPos, ramfs := ramfs } p c file)

/-- What `vfs_create` makes of the handle of `abyssfs_create`. -/
def createAnswer (k : Kernel) : Option VfsFile × Nat × Abyssfs → Int × Kernel
  | (none, heapPos, fs) => (-1, { k with heapPos := heapPos, abyss := fs })
  | (some file, heapPos, fs) => allocFd { k with heapPos := heapPos, abyss := fs } file

theorem createAnswer_inDirectory (k : Kernel) (p : ProcessPtr) (c : AbsolutePath)
    (made : Option VfsFile × Nat × Abyssfs) :
    createAnswer (inDirectory k p c) made = answerIn p c (createAnswer k made) := by
  rcases made with ⟨_ | file, heapPos, fs⟩
  · rfl
  · exact allocFd_inDirectory { k with heapPos := heapPos, abyss := fs } p c file

theorem currentProcess_inDirectory (hcur : k.current = some p) :
    (inDirectory k p c).currentProcess.map Process.cwd = some c.chars := by
  rw [Kernel.currentProcess, inDirectory, Kernel.setProc, hcur]
  dsimp only [Option.map_some]
  rw [Function.update_self]

/-- On AbyssFS the directory is handed down to `create_file`. -/
theorem vfsCreate_abyssfs (habs : path.head? = some slash) (hcur : k.current = some p)
    (hroute : createRoute k path = some (some .abyssfs, full)) :
    vfsCreate (inDirectory k p c) path =
      ((abyssfsCreate k.heapPos k.abyss (some c.chars) full).map (createAnswer k)).map
        (answerIn p c) := by
  rw [vfsCreate, createRoute_inDirectory habs, hroute]
  dsimp only [fsCreate]
  rw [currentProcess_inDirectory hcur, Option.map_map,
    show abyssfsCreate (inDirectory k p c).heapPos (inDirectory k p c).abyss (some c.chars) full =
      abyssfsCreate k.heapPos k.abyss (some c.chars) full from rfl]
  rcases abyssfsCreate k.heapPos k.abyss (some c.chars) full with _ | ⟨_ | file, heapPos, fs⟩
  · rfl
  · rfl
  · exact congrArg some (createAnswer_inDirectory k p c (some file, heapPos, fs))

end Runs

/-! Where `create_file` puts the entry. -/

section Entries

variable {m : Memory} {path : Str}

/-- A name after the only slash is completed with the working directory. -/
theorem createParent_of_plain (m : Memory) (cwd : Str) (hlen : path.length < 256)
    (habs : path.head? = some slash) (hplain : slash ∉ path.tail) :
    createParent m (some cwd) (skipSlash path) =
      (cwdDirectory m cwd).map (·.map (·, path.tail)) := by
  obtain ⟨rest, rfl⟩ := List.head?_eq_some_iff.mp habs
  rw [List.tail_cons] at hplain
  rw [List.length_cons] at hlen
  rw [skipSlash_slash, createParent, maxPath, List.take_of_length_le (by omega),
    (splitLast_eq_none slash).mpr hplain, cwdDirectory]
  dsimp only
  split_ifs
  · rfl
  · rfl

theorem entryDirectory_of_plain (m : Memory) (cwd : Str) (hlen : path.length < 256)
    (habs : path.head? = some slash) (hplain : slash ∉ path.tail) :
    entryDirectory m cwd path = cwdDirectory m cwd := by
  rw [entryDirectory, createParent_of_plain m cwd hlen habs hplain]
  rcases cwdDirectory m cwd with _ | _ | dir
  · rfl
  · rfl
  · rfl

theorem parentDirectory_of_plain (m : Memory) (habs : path.head? = some slash)
    (hplain : slash ∉ path.tail) : parentDirectory m path = some (some rootInode) := by
  obtain ⟨rest, rfl⟩ := List.head?_eq_some_iff.mp habs
  have hsplit : splitLast slash (slash :: rest) = some ([], rest) :=
    splitLast_append (d := []) slash hplain
  rw [parentDirectory, hsplit]
  rfl

/-- The name keeps a slash, so the directory before it is looked up. -/
theorem createParent_of_nested (m : Memory) (hlen : path.length < 256)
    (habs : path.head? = some slash) (hnested : slash ∈ path.tail) :
    ∃ base, ∀ cwd, createParent m (some cwd) (skipSlash path) =
      (parentDirectory m path).map (·.map (·, base)) := by
  obtain ⟨rest, rfl⟩ := List.head?_eq_some_iff.mp habs
  rw [List.tail_cons] at hnested
  rw [List.length_cons] at hlen
  cases hsplit : splitLast slash (slash :: rest) with
  | none =>
      have hnone := (splitLast_eq_none slash).mp hsplit
      exact absurd List.mem_cons_self hnone
  | some split =>
      obtain ⟨dir, base⟩ := split
      have hdir : dir ≠ [] := by
        rintro rfl
        obtain ⟨heq, hbase⟩ := eq_of_splitLast slash hsplit
        rw [List.nil_append, List.cons.injEq] at heq
        rw [heq.2] at hnested
        exact hbase hnested
      refine ⟨base, fun cwd => ?_⟩
      rw [skipSlash_slash, createParent_absolute m (by omega) hsplit fun h => absurd h hdir,
        parentDirectory, hsplit]

theorem entryDirectory_of_nested (m : Memory) (cwd : Str) (hlen : path.length < 256)
    (habs : path.head? = some slash) (hnested : slash ∈ path.tail) :
    entryDirectory m cwd path = parentDirectory m path := by
  obtain ⟨base, hparent⟩ := createParent_of_nested m hlen habs hnested
  rw [entryDirectory, hparent]
  rcases parentDirectory m path with _ | _ | dir
  · rfl
  · rfl
  · rfl

theorem abyssfsCreate_congr {s : Abyssfs} {cwd₁ cwd₂ : Option Str} (heapPos : Nat)
    (h : (allocInode s).1 ≠ 0 → createParent (allocInode s).2.mem cwd₁ (skipSlash path) =
      createParent (allocInode s).2.mem cwd₂ (skipSlash path)) :
    abyssfsCreate heapPos s cwd₁ path = abyssfsCreate heapPos s cwd₂ path := by
  unfold abyssfsCreate
  rcases halloc : allocInode s with ⟨_ | i, s₁⟩
  · rfl
  · rw [halloc] at h
    simp only [createFile, h (Nat.succ_ne_zero i)]

/-- `abyssfs_mkdir` keeps the first slash, so it never needs the working directory. -/
theorem mkdirParent_parentDirectory (habs : path.head? = some slash) {dir num : Nat} {base : Str}
    (h : mkdirParent m path = some (some (dir, num, base))) :
    parentDirectory m path = some (some dir) := by
  have hlen : path.length < 256 := by
    by_contra hlong
    rw [mkdirParent, maxPath, if_pos (by omega)] at h
    cases h
  obtain ⟨rest, rfl⟩ := List.head?_eq_some_iff.mp habs
  cases hsplit : splitLast slash (slash :: rest) with
  | none =>
      have hnone := (splitLast_eq_none slash).mp hsplit
      exact absurd List.mem_cons_self hnone
  | some split =>
      obtain ⟨before, last⟩ := split
      have hlast : last ≠ [] := by
        rintro rfl
        rw [mkdirParent, maxPath, if_neg (by omega), hsplit] at h
        cases h
      rw [mkdirParent_absolute m (by omega) hsplit hlast] at h
      rw [parentDirectory, hsplit]
      dsimp only
      rcases hfound : getInodeByPath m before with _ | _ | found
      · rw [hfound] at h
        cases h
      · rw [hfound] at h
        cases h
      · rw [hfound] at h
        cases h
        rfl

end Entries

/-! The two runs. -/

section Independence

variable {k : Kernel} {p : ProcessPtr} {c c₁ c₂ : AbsolutePath} {path full : Str}
  {fs : Option FileOps}

theorem createRoute_full (habs : path.head? = some slash)
    (hroute : createRoute k path = some (fs, full)) : full = path ∧ path.length < 256 := by
  rw [createRoute, fullPath, if_pos habs] at hroute
  by_cases hlen : path.length ≥ maxPath
  · rw [if_pos hlen] at hroute
    cases hroute
  · rw [if_neg hlen, Option.map_some, Option.some.injEq, Prod.mk.injEq] at hroute
    exact ⟨hroute.2.symm, Nat.lt_of_not_le hlen⟩

theorem EntryInParent.of_ignores (habs : path.head? = some slash)
    (hroot : ∀ full, createRoute k path = some (some .abyssfs, full) →
      (allocInode k.abyss).1 = 0 ∨ slash ∈ full.tail ∨
        cwdDirectory (allocInode k.abyss).2.mem c.chars = some (some rootInode)) :
    EntryInParent k c path := by
  intro full hroute hinode
  obtain ⟨rfl, hlen⟩ := createRoute_full habs hroute
  by_cases hnested : slash ∈ full.tail
  · exact entryDirectory_of_nested _ _ hlen habs hnested
  rcases hroot full hroute with hzero | hmem | hcwd
  · exact absurd hzero hinode
  · exact absurd hmem hnested
  · rw [entryDirectory_of_plain _ _ hlen habs hnested, hcwd,
      parentDirectory_of_plain _ habs hnested]

theorem vfsCreate_independent (habs : path.head? = some slash) (hcur : k.current = some p)
    (h : IgnoresCwd k c₁ c₂ path) : CwdIndependent k p c₁ c₂ (vfsCreate · path) := by
  by_cases hroute : ∃ full, createRoute k path = some (some .abyssfs, full)
  · obtain ⟨full, hroute⟩ := hroute
    have hsame : abyssfsCreate k.heapPos k.abyss (some c₂.chars) full =
        abyssfsCreate k.heapPos k.abyss (some c₁.chars) full := by
      apply abyssfsCreate_congr
      intro hinode
      obtain ⟨rfl, hlen⟩ := createRoute_full habs hroute
      by_cases hnested : slash ∈ full.tail
      · obtain ⟨base, hparent⟩ := createParent_of_nested (allocInode k.abyss).2.mem hlen habs hnested
        rw [hparent, hparent]
      rcases h full hroute with hzero | hmem | ⟨hcwd₁, hcwd₂⟩
      · exact absurd hzero hinode
      · exact absurd hmem hnested
      · rw [createParent_of_plain _ _ hlen habs hnested, createParent_of_plain _ _ hlen habs hnested,
          hcwd₁, hcwd₂]
    apply CwdIndependent.of_outcome (vfsCreate_abyssfs habs hcur hroute)
    rw [vfsCreate_abyssfs habs hcur hroute, hsame]
  · rw [not_exists] at hroute
    exact CwdIndependent.of_outcome (vfsCreate_elsewhere habs hroute)
      (vfsCreate_elsewhere habs hroute)

theorem IgnoresCwd.of_entries (habs : path.head? = some slash) (h₁ : EntryInParent k c₁ path)
    (h₂ : EntryInParent k c₂ path) : IgnoresCwd k c₁ c₂ path := by
  intro full hroute
  obtain ⟨rfl, hlen⟩ := createRoute_full habs hroute
  by_cases hinode : (allocInode k.abyss).1 = 0
  · exact Or.inl hinode
  by_cases hnested : slash ∈ full.tail
  · exact Or.inr (Or.inl hnested)
  have hroot : ∀ c, EntryInParent k c full →
      cwdDirectory (allocInode k.abyss).2.mem c.chars = some (some rootInode) := by
    intro c hentry
    calc cwdDirectory (allocInode k.abyss).2.mem c.chars
        = entryDirectory (allocInode k.abyss).2.mem c.chars full :=
          (entryDirectory_of_plain _ _ hlen habs hnested).symm
      _ = parentDirectory (allocInode k.abyss).2.mem full := hentry full hroute hinode
      _ = some (some rootInode) := parentDirectory_of_plain _ habs hnested
  exact Or.inr (Or.inr ⟨hroot c₁ h₁, hroot c₂ h₂⟩)

/-- `vfs_create` of an absolute path has one outcome from two working directories, with the entry in
the directory of the path, exactly where the condition holds. `vfs_mkdir` and `vfs_unlink` always
have one outcome, and the directory `abyssfs_mkdir` works in is that of the path. -/
theorem absolute_create_iff (k : Kernel) (p : ProcessPtr) (hcur : k.current = some p)
    (c₁ c₂ path : AbsolutePath) :
    (CwdIndependent k p c₁ c₂ (vfsCreate · path.chars) ∧
        EntryInParent k c₁ path.chars ∧ EntryInParent k c₂ path.chars ↔
      IgnoresCwd k c₁ c₂ path.chars) ∧
    CwdIndependent k p c₁ c₂ (vfsMkdir · path.chars) ∧
    CwdIndependent k p c₁ c₂ (vfsUnlink · path.chars) ∧
    ∀ dir num base, mkdirParent k.abyss.mem path.chars = some (some (dir, num, base)) →
      parentDirectory k.abyss.mem path.chars = some (some dir) := by
  refine ⟨⟨?_, ?_⟩, ?_, ?_, ?_⟩
  · rintro ⟨_, h₁, h₂⟩
    exact IgnoresCwd.of_entries path.absolute h₁ h₂
  · intro h
    refine ⟨vfsCreate_independent path.absolute hcur h, ?_, ?_⟩
    · exact EntryInParent.of_ignores path.absolute fun full hroute =>
        (h full hroute).imp_right (Or.imp_right And.left)
    · exact EntryInParent.of_ignores path.absolute fun full hroute =>
        (h full hroute).imp_right (Or.imp_right And.right)
  · exact CwdIndependent.of_outcome (vfsMkdir_inDirectory path.absolute)
      (vfsMkdir_inDirectory path.absolute)
  · exact CwdIndependent.of_outcome (vfsUnlink_inDirectory path.absolute)
      (vfsUnlink_inDirectory path.absolute)
  · intro dir num base hparent
    exact mkdirParent_parentDirectory path.absolute hparent

end Independence

def rootDirectory : AbsolutePath := ⟨⟨ascii "/", by decide⟩, by decide⟩
theorem dirD_nul_free : 0 ∉ ascii "/d" := by decide

def dirD : AbsolutePath := ⟨⟨ascii "/d", dirD_nul_free⟩, by decide⟩
def fileX : AbsolutePath := ⟨⟨ascii "/x", by decide⟩, by decide⟩
def fileDX : AbsolutePath := ⟨⟨ascii "/d/x", by decide⟩, by decide⟩

/-- The inode that a path leads to after a call. -/
def foundAfter (answer : Option (Int × Kernel)) (path : AbsolutePath) : Option (Option Nat) :=
  answer.bind fun answer => getInodeByPath answer.2.abyss.mem path.chars

/-- A file below `/d`, made from the root and from `/d`. -/
theorem absolute_create_nested :
    ∃ k, vfsMkdir (shellKernel fun _ => 0) dirD.chars = some (0, k) ∧
      CwdIndependent k (.heap 0) rootDirectory dirD (vfsCreate · fileDX.chars) ∧
      foundAfter (vfsCreate (inDirectory k (.heap 0) dirD) fileDX.chars) fileDX =
        some (some (inodeAddr 3)) := by
  have hruns : (vfsMkdir (shellKernel fun _ => 0) dirD.chars).map (fun answer =>
      (answer.1, answer.2.current,
        foundAfter (vfsCreate (inDirectory answer.2 (.heap 0) dirD) fileDX.chars) fileDX)) =
      some (0, some (.heap 0), some (some (inodeAddr 3))) := by
    decide +kernel
  obtain ⟨⟨result, k⟩, hmkdir, heq⟩ := Option.map_eq_some_iff.mp hruns
  obtain ⟨rfl, heq⟩ := Prod.mk.inj heq
  obtain ⟨hcur, hfound⟩ := Prod.mk.inj heq
  have hiff := (absolute_create_iff k (.heap 0) hcur rootDirectory dirD fileDX).1
  refine ⟨k, hmkdir, (hiff.mpr ?_).1, hfound⟩
  intro full hroute
  obtain ⟨rfl, _⟩ := createRoute_full fileDX.absolute hroute
  exact Or.inr (Or.inl (by decide))

/-- In `/d`, the file `/x` is not made in the root but in `/d`. -/
theorem root_file_lands_in_directory :
    ∃ k, vfsMkdir (shellKernel fun _ => 0) dirD.chars = some (0, k) ∧
      ¬CwdIndependent k (.heap 0) rootDirectory dirD (vfsCreate · fileX.chars) ∧
      foundAfter (vfsCreate (inDirectory k (.heap 0) dirD) fileX.chars) fileX = some none ∧
      foundAfter (vfsCreate (inDirectory k (.heap 0) dirD) fileX.chars) fileDX =
        some (some (inodeAddr 3)) := by
  have hruns : (vfsMkdir (shellKernel fun _ => 0) dirD.chars).map (fun answer =>
      (answer.1,
        foundAfter (vfsCreate (inDirectory answer.2 (.heap 0) rootDirectory) fileX.chars) fileX,
        foundAfter (vfsCreate (inDirectory answer.2 (.heap 0) dirD) fileX.chars) fileX,
        foundAfter (vfsCreate (inDirectory answer.2 (.heap 0) dirD) fileX.chars) fileDX)) =
      some (0, some (some (inodeAddr 3)), some none, some (some (inodeAddr 3))) := by
    decide +kernel
  rw [Option.map_eq_some_iff] at hruns
  obtain ⟨⟨result, k⟩, hmkdir, heq⟩ := hruns
  obtain ⟨rfl, heq⟩ := Prod.mk.inj heq
  obtain ⟨hroot, heq⟩ := Prod.mk.inj heq
  obtain ⟨hlost, hfound⟩ := Prod.mk.inj heq
  refine ⟨k, hmkdir, ?_, hlost, hfound⟩
  intro hsame
  have hobserved := congrArg (foundAfter · fileX) hsame
  dsimp only at hobserved
  rw [hlost, foundAfter, Option.bind_map] at hobserved
  have hmoved : foundAfter (vfsCreate (inDirectory k (.heap 0) rootDirectory) fileX.chars) fileX =
      some none := hobserved
  rw [hroot] at hmoved
  cases hmoved

end Chthon
