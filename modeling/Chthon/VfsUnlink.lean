import Chthon.AbyssNaming
import Chthon.AbyssRemove
import Chthon.VfsRouting

/-! What `vfs_unlink` removes. The absolute path of its argument names a node of the tree or a slot
of RAMFS; the file system gets the argument as it was given, and AbyssFS looks that text up in the
root directory. So the right entry goes exactly if the argument is an absolute path of RAMFS, or the
bare name of a file in the root. -/

namespace Chthon

open ByteMemory DirectoryTree PathText

/-- The absolute path of a text in a working directory. -/
def absolutePath (cwd path : Str) : Str :=
  if path.head? = some slash then path
  else (if cwd.getLast? = some slash then cwd else cwd ++ [slash]) ++ path

/-- What an absolute path can name: a node of AbyssFS or a slot of RAMFS. -/
inductive PathTarget where
  | abyss (node : FileNode)
  | ramfs (slot : Nat)

/-- RAMFS is mounted at `/tmp`, and compares whole paths; all else is looked up component by
component from the root of the tree. -/
def pathTarget (T : FileTree) (fs : Ramfs) (full : Str) : Option PathTarget :=
  if tmpPrefix <+: full ∨ full = tmpMount then (ramfsFind fs full).map .ramfs
  else
    ((find T []).bind fun root =>
      lookup dotName dotdotName T root (components slash full)).map .abyss

/-- A regular file that the path names is the one entry that disappears; a path that names nothing
is refused, and no directory changes. -/
def UnlinkExact (T : FileTree) (k : Kernel) (cwd path : Str) : Prop :=
  match pathTarget T k.ramfs (absolutePath cwd path) with
  | some (.abyss n) => n.isDir = false → ∃ k', vfsUnlink k path = some (0, k') ∧
      Mounted (erase T n.path) k'.abyss ∧ k'.ramfs = k.ramfs
  | some (.ramfs i) => ∃ k', vfsUnlink k path = some (0, k') ∧ k'.abyss = k.abyss ∧
      k'.ramfs = Function.update k.ramfs i { k.ramfs i with used := false, size := 0 }
  | none => ∃ k', vfsUnlink k path = some (-1, k') ∧ k'.abyss = k.abyss ∧ k'.ramfs = k.ramfs

/-- The path fits its buffer. If it names a file of AbyssFS, it does not start with `/tmp`, the file
is in the root directory, and the text is its name with at most one slash before it. If it names a
slot of RAMFS, the text is absolute. If it names nothing, then neither does the bare text where it
will be looked up. -/
def UnlinkPlain (T : FileTree) (k : Kernel) (cwd path : Str) : Prop :=
  match pathTarget T k.ramfs (absolutePath cwd path) with
  | some (.abyss n) => n.isDir = true ∨ ((absolutePath cwd path).length < 256 ∧
      ¬tmpMount <+: absolutePath cwd path ∧ n.path = [skipSlash path])
  | some (.ramfs _) => path.head? = some slash ∧ path.length < 256
  | none => (absolutePath cwd path).length < 256 ∧
      if tmpMount <+: absolutePath cwd path then ramfsFind k.ramfs path = none
      else Plain dotName dotdotName (skipSlash path) ∧ find T [skipSlash path] = none

section Unlink

variable {T : FileTree} {k : Kernel} {p : Process}

theorem absolutePath_head {cwd : Str} (h : cwd.head? = some slash) (path : Str) :
    (absolutePath cwd path).head? = some slash := by
  unfold absolutePath
  split_ifs with habs hlast
  · exact habs
  · rw [List.head?_append, h]
    rfl
  · rw [List.head?_append, List.head?_append, h]
    rfl

theorem fullPath_eq (hcur : k.currentProcess = some p) (hcwd : p.cwd.head? = some slash)
    (path : Str) : fullPath k path = if (absolutePath p.cwd path).length < 256 then
      some (absolutePath p.cwd path) else none := by
  have hne : p.cwd ≠ [] := by
    intro heq
    rw [heq] at hcwd
    cases hcwd
  rw [fullPath, absolutePath]
  simp only [hcur, maxPath, ge_iff_le, if_neg hne]
  by_cases habs : path.head? = some slash
  · rw [if_pos habs, if_pos habs]
    by_cases hlen : path.length < 256
    · rw [if_pos hlen, if_neg (by omega)]
    · rw [if_neg hlen, if_pos (by omega)]
  · rw [if_neg habs, if_neg habs]
    by_cases hlen : ((if p.cwd.getLast? = some slash then p.cwd else p.cwd ++ [slash]) ++
        path).length < 256
    · rw [if_pos hlen, if_neg (by omega)]
    · rw [if_neg hlen, if_pos (by omega)]

theorem vfsUnlink_eq (hcur : k.currentProcess = some p) (hcwd : p.cwd.head? = some slash)
    {path : Str} (hlen : (absolutePath p.cwd path).length < 256) :
    vfsUnlink k path =
      fsUnlink k path (if tmpMount <+: absolutePath p.cwd path then .ramfs else .abyssfs) := by
  rw [vfsUnlink, unlinkRoute, fullPath_eq hcur hcwd, if_pos hlen, Option.map_some,
    findMount_absolute (absolutePath_head hcwd path)]

theorem vfsUnlink_long (hcur : k.currentProcess = some p) (hcwd : p.cwd.head? = some slash)
    {path : Str} (hlen : ¬(absolutePath p.cwd path).length < 256) : vfsUnlink k path = none := by
  rw [vfsUnlink, unlinkRoute, fullPath_eq hcur hcwd, if_neg hlen, Option.map_none]

/-- An unlink on RAMFS that succeeds has changed RAMFS. -/
theorem fsUnlink_ramfs_ne {k k' : Kernel} {path : Str}
    (h : fsUnlink k path .ramfs = some (0, k')) : k'.ramfs ≠ k.ramfs := by
  unfold fsUnlink ramfsUnlink at h
  cases hfind : ramfsFind k.ramfs path with
  | none =>
      simp only [hfind, Option.some.injEq, Prod.mk.injEq] at h
      cases h.1
  | some i =>
      simp only [hfind, Option.some.injEq, Prod.mk.injEq, true_and] at h
      obtain ⟨_, hstores, _⟩ := ramfsFind_eq_some.mp hfind
      intro heq
      have hused := congrArg RamfsFile.used (congrFun heq i)
      rw [← h, hstores.1] at hused
      simp at hused

/-- The slot of an absolute path of RAMFS. -/
theorem unlinkExact_ramfs (hcur : k.currentProcess = some p) (hcwd : p.cwd.head? = some slash)
    {path : CString} {i : Nat} (htmp : tmpMount <+: absolutePath p.cwd path.chars)
    (hfind : ramfsFind k.ramfs (absolutePath p.cwd path.chars) = some i) :
    (∃ k', vfsUnlink k path.chars = some (0, k') ∧ k'.abyss = k.abyss ∧
      k'.ramfs = Function.update k.ramfs i { k.ramfs i with used := false, size := 0 }) ↔
    path.chars.head? = some slash ∧ path.chars.length < 256 := by
  obtain ⟨_, hstores, _⟩ := ramfsFind_eq_some.mp hfind
  constructor
  · rintro ⟨k', hcall, _, hfs⟩
    by_cases hlen : (absolutePath p.cwd path.chars).length < 256
    · have hused : (k.ramfs i).used = true := hstores.1
      rw [vfsUnlink_eq hcur hcwd hlen, if_pos htmp, fsUnlink] at hcall
      dsimp only at hcall
      rw [Option.some.injEq, Prod.mk.injEq] at hcall
      obtain ⟨hresult, rfl⟩ := hcall
      have hfound := ramfsUnlink_slot hused (Prod.ext hresult hfs)
      have habs := hstores.absolute (absolutePath_head hcwd _) (ramfsFind_eq_some.mp hfound).2.1
      rw [absolutePath, if_pos habs] at hlen
      exact ⟨habs, hlen⟩
    · rw [vfsUnlink_long hcur hcwd hlen] at hcall
      cases hcall
  · rintro ⟨habs, hlen⟩
    have hsame : absolutePath p.cwd path.chars = path.chars := if_pos habs
    rw [hsame] at htmp hfind
    rw [vfsUnlink_eq hcur hcwd (by rwa [hsame]), hsame, if_pos htmp, fsUnlink, ramfsUnlink]
    simp only [hfind]
    exact ⟨_, rfl, rfl, rfl⟩

/-- A regular file of the tree. -/
theorem unlinkExact_abyss (hmount : Mounted T k.abyss) (hcur : k.currentProcess = some p)
    (hcwd : p.cwd.head? = some slash) {path : CString} {n : FileNode} (hn : n ∈ T)
    (hfile : n.isDir = false) :
    (∃ k', vfsUnlink k path.chars = some (0, k') ∧ Mounted (erase T n.path) k'.abyss ∧
      k'.ramfs = k.ramfs) ↔
    (absolutePath p.cwd path.chars).length < 256 ∧ ¬tmpMount <+: absolutePath p.cwd path.chars ∧
      n.path = [skipSlash path.chars] := by
  constructor
  · rintro ⟨k', hcall, hmount', hfs⟩
    by_cases hlen : (absolutePath p.cwd path.chars).length < 256
    · rw [vfsUnlink_eq hcur hcwd hlen] at hcall
      by_cases htmp : tmpMount <+: absolutePath p.cwd path.chars
      · rw [if_pos htmp] at hcall
        exact absurd hfs (fsUnlink_ramfs_ne hcall)
      · rw [if_neg htmp, fsUnlink, Option.map_eq_some_iff] at hcall
        obtain ⟨⟨result, s'⟩, hunlink, heq⟩ := hcall
        obtain ⟨rfl, rfl⟩ := Prod.mk.inj heq
        refine ⟨hlen, htmp, ?_⟩
        by_contra hpath
        exact hmount.unlink_other path.nul_free hunlink hpath hmount'
    · rw [vfsUnlink_long hcur hcwd hlen] at hcall
      cases hcall
  · rintro ⟨hlen, htmp, hpath⟩
    have hfind : find T [skipSlash path.chars] = some n := by
      rw [← hpath]
      exact hmount.rep.tree.find_mem hn
    obtain ⟨s', hunlink, hmount', _⟩ := hmount.unlink_file path.nul_free hfind hfile
    rw [vfsUnlink_eq hcur hcwd hlen, if_neg htmp, fsUnlink, hunlink, hpath]
    exact ⟨_, rfl, hmount', rfl⟩

/-- A path that names nothing. -/
theorem unlinkExact_missing (hmount : Mounted T k.abyss) (hcur : k.currentProcess = some p)
    (hcwd : p.cwd.head? = some slash) {path : CString} :
    (∃ k', vfsUnlink k path.chars = some (-1, k') ∧ k'.abyss = k.abyss ∧ k'.ramfs = k.ramfs) ↔
    (absolutePath p.cwd path.chars).length < 256 ∧
      if tmpMount <+: absolutePath p.cwd path.chars then ramfsFind k.ramfs path.chars = none
      else Plain dotName dotdotName (skipSlash path.chars) ∧
        find T [skipSlash path.chars] = none := by
  by_cases hlen : (absolutePath p.cwd path.chars).length < 256
  · rw [vfsUnlink_eq hcur hcwd hlen]
    by_cases htmp : tmpMount <+: absolutePath p.cwd path.chars
    · simp only [hlen, if_pos htmp, true_and, fsUnlink, ramfsUnlink]
      cases hfind : ramfsFind k.ramfs path.chars with
      | none => simp
      | some i => simp
    · simp only [hlen, if_neg htmp, true_and, fsUnlink]
      constructor
      · rintro ⟨k', hcall, _⟩
        rw [Option.map_eq_some_iff] at hcall
        obtain ⟨⟨result, s'⟩, hunlink, heq⟩ := hcall
        obtain rfl : result = -1 := (Prod.mk.inj heq).1
        have hplain : Plain dotName dotdotName (skipSlash path.chars) := by
          constructor
          · intro hdot
            cases (hmount.unlink_dots path.nul_free (Or.inl hdot) hunlink).1
          · intro hdotdot
            cases (hmount.unlink_dots path.nul_free (Or.inr hdotdot) hunlink).1
        refine ⟨hplain, ?_⟩
        cases hfind : find T [skipSlash path.chars] with
        | none => rfl
        | some n =>
            obtain ⟨root, _, _, _, _, hroot⟩ := hmount.rootNode
            obtain ⟨s'', _, hcall', _⟩ := hmount.unlink_child hroot path.nul_free hfind
            rw [hcall'] at hunlink
            cases hunlink
      · rintro ⟨hplain, hfind⟩
        rw [hmount.unlink_missing path.nul_free hplain hfind]
        exact ⟨_, rfl, rfl, rfl⟩
  · rw [vfsUnlink_long hcur hcwd hlen]
    simp [hlen]

/-- When `vfs_unlink` removes exactly what its path names, from every working directory and on every
volume that holds a tree of names. -/
theorem vfs_unlink_exact_iff (T : FileTree) (k : Kernel) (p : Process)
    (hmount : Mounted T k.abyss) (hcur : k.currentProcess = some p)
    (hcwd : p.cwd.head? = some slash) (path : CString) :
    UnlinkExact T k p.cwd path.chars ↔ UnlinkPlain T k p.cwd path.chars := by
  unfold UnlinkExact UnlinkPlain
  cases htarget : pathTarget T k.ramfs (absolutePath p.cwd path.chars) with
  | none => exact unlinkExact_missing hmount hcur hcwd
  | some target =>
      unfold pathTarget at htarget
      cases target with
      | abyss n =>
          split_ifs at htarget with htmp
          · rw [Option.map_eq_some_iff] at htarget
            obtain ⟨i, _, heq⟩ := htarget
            cases heq
          · rw [Option.map_eq_some_iff] at htarget
            obtain ⟨n', hlookup, heq⟩ := htarget
            cases heq
            rw [Option.bind_eq_some_iff] at hlookup
            obtain ⟨root, hroot, hlookup⟩ := hlookup
            have hn : n ∈ T := lookup_mem (find_some hroot).1 hlookup
            dsimp only
            cases hdir : n.isDir with
            | true => simp
            | false =>
                rw [unlinkExact_abyss hmount hcur hcwd hn hdir]
                simp
      | ramfs i =>
          split_ifs at htarget with htmp
          · rw [Option.map_eq_some_iff] at htarget
            obtain ⟨j, hfind, heq⟩ := htarget
            cases heq
            have hprefix : tmpMount <+: absolutePath p.cwd path.chars := by
              rcases htmp with htmp | htmp
              · exact tmpMount_start htmp
              · rw [htmp]
            exact unlinkExact_ramfs hcur hcwd hprefix hfind
          · rw [Option.map_eq_some_iff] at htarget
            obtain ⟨n', _, heq⟩ := htarget
            cases heq

end Unlink

theorem boot_mounted (s : Abyssfs) : Mounted [rootNode] (bootVolume s).fs :=
  ⟨boot_represents s, boot_blocks_root s⟩

/-- The shell at work in `cwd`, with one file on RAMFS. -/
def tmpFileKernel (cwd : Str) : Kernel :=
  { shellKernel fun _ => 0 with
    ramfs := Function.update ramfsInit 0 (newSlot (ramfsInit 0) (ascii "/tmp/a") true)
    procs := fun _ => { shellProcess with cwd := cwd } }

theorem tmpFileKernel_target (cwd path : Str) (h : absolutePath cwd path = ascii "/tmp/a") :
    pathTarget [rootNode] (tmpFileKernel cwd).ramfs (absolutePath cwd path) = some (.ramfs 0) := by
  have hfind : ramfsFind (tmpFileKernel cwd).ramfs (ascii "/tmp/a") = some 0 := by
    change ramfsFind (Function.update ramfsInit 0 (newSlot (ramfsInit 0) (ascii "/tmp/a") true))
      (ascii "/tmp/a") = some 0
    decide +kernel
  rw [h, pathTarget, if_pos (by decide), hfind]
  rfl

/-- The file under its absolute path, from the root. -/
theorem vfs_unlink_exact_tmp_file :
    Mounted [rootNode] (tmpFileKernel (ascii "/")).abyss ∧
    pathTarget [rootNode] (tmpFileKernel (ascii "/")).ramfs
      (absolutePath (ascii "/") (ascii "/tmp/a")) = some (.ramfs 0) ∧
    UnlinkExact [rootNode] (tmpFileKernel (ascii "/")) (ascii "/") (ascii "/tmp/a") := by
  have htarget := tmpFileKernel_target (ascii "/") (ascii "/tmp/a") (by decide)
  refine ⟨boot_mounted blankFs, htarget, ?_⟩
  refine (vfs_unlink_exact_iff [rootNode] (tmpFileKernel (ascii "/"))
    { shellProcess with cwd := ascii "/" } (boot_mounted blankFs) rfl rfl
    ⟨ascii "/tmp/a", by decide⟩).mpr ?_
  change UnlinkPlain [rootNode] (tmpFileKernel (ascii "/")) (ascii "/") (ascii "/tmp/a")
  unfold UnlinkPlain
  rw [htarget]
  exact ⟨by decide, by decide⟩

/-- The same file under its relative name, from the directory it is in. -/
theorem relative_unlink_misses :
    Mounted [rootNode] (tmpFileKernel (ascii "/tmp")).abyss ∧
    (tmpFileKernel (ascii "/tmp")).currentProcess = some { shellProcess with cwd := ascii "/tmp" } ∧
    pathTarget [rootNode] (tmpFileKernel (ascii "/tmp")).ramfs
      (absolutePath (ascii "/tmp") (ascii "a")) = some (.ramfs 0) ∧
    (vfsUnlink (tmpFileKernel (ascii "/tmp")) (ascii "a")).map Prod.fst = some (-1) ∧
    ¬UnlinkExact [rootNode] (tmpFileKernel (ascii "/tmp")) (ascii "/tmp") (ascii "a") := by
  have htarget := tmpFileKernel_target (ascii "/tmp") (ascii "a") (by decide)
  have hcall : (vfsUnlink (tmpFileKernel (ascii "/tmp")) (ascii "a")).map Prod.fst = some (-1) := by
    decide +kernel
  refine ⟨boot_mounted blankFs, rfl, htarget, hcall, ?_⟩
  unfold UnlinkExact
  rw [htarget]
  rintro ⟨k', hunlink, _⟩
  rw [hunlink] at hcall
  cases hcall

end Chthon
