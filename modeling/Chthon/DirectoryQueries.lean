import Chthon.ProcessDirectories
import Chthon.RamfsListing
import Chthon.VfsNames

/-! Listing as the test for a directory. `MSG_CHDIR` and `bind` only ask for the sign of what
`vfs_read_dir` returns, and neither file system looks at what kind of file it lists. -/

namespace Chthon

open ByteMemory PathText PathResolution Run

/-- A directory of RAMFS. The slots do not tell one from a file; `made` says which of them
`ramfs_mkdir` has filled. -/
inductive RamfsDirectory (fs : Ramfs) (made : Nat → Bool) (text : Str) : Prop
  | mount (place : standardResolution text = tmpMount)
  | slot (i : Nat) (path : Str) (bound : i < maxFiles) (used : (fs i).used = true)
      (kind : made i = true) (named : (fs i).Named path)
      (place : standardResolution path = standardResolution text)

/-- The text leads to a directory of the file system. -/
def DirectoryAt (k : Kernel) (made : Nat → Bool) (text : Str) : FileOps → Prop
  | .ramfs => RamfsDirectory k.ramfs made text
  | .abyssfs => skipSlash text = [] ∨ ∃ inode,
      getInodeByPath k.abyss.mem (skipSlash text) = some (some inode) ∧
        mode k.abyss.mem inode &&& dirMode ≠ 0

/-- The path resolves to an existing directory. -/
def LeadsToDirectory (k : Kernel) (made : Nat → Bool) (path : Str) : Prop :=
  ∃ text k' fs, resolveNamespacePath k path = some (text, k') ∧ findMount text = some fs ∧
    DirectoryAt k' made text fs

/-- On AbyssFS it is the block of the inode that decides, and it must lie within the 64 for the
directories and behind them for the files. On RAMFS nothing but a directory may be asked for. -/
def ToldApart (k : Kernel) (made : Nat → Bool) (text : Str) : FileOps → Prop
  | .ramfs => RamfsDirectory k.ramfs made text
  | .abyssfs => skipSlash text = [] ∨ ∀ inode,
      getInodeByPath k.abyss.mem (skipSlash text) = some (some inode) →
        (blocks k.abyss.mem inode < totalBlocks ↔ mode k.abyss.mem inode &&& dirMode ≠ 0)

def PathToldApart (k : Kernel) (made : Nat → Bool) (path : Str) : Prop :=
  ∀ text k' fs, resolveNamespacePath k path = some (text, k') → findMount text = some fs →
    ToldApart k' made text fs

section Queries

variable {k k' k₁ : Kernel} {made : Nat → Bool} {path text : Str} {maxEntries : Nat}
  {entries : Option (List (Nat × Str))}

/-- AbyssFS lists what has a block within the 64. -/
theorem abyssfsReadDir_isSome_iff {m : ByteMemory.Memory}
    (h : abyssfsReadDir m text maxEntries = some entries) :
    entries.isSome ↔ skipSlash text = [] ∨ ∃ inode,
      getInodeByPath m (skipSlash text) = some (some inode) ∧ blocks m inode < totalBlocks := by
  rw [← Option.ne_none_iff_isSome, Ne, abyssfsReadDir_none_iff h, NoDirectory]
  by_cases hroot : skipSlash text = []
  · simp [hroot]
  · rw [and_iff_right hroot, or_iff_right hroot]
    cases hfound : getInodeByPath m (skipSlash text) with
    | none => simp [abyssfsReadDir, hroot, hfound] at h
    | some found =>
        cases found with
        | none => simp
        | some inode => simp [getBlock]

/-- The count is the one asked for exactly where block and mode of the inode go together. -/
theorem answered_iff {fs : FileOps} (h : fsReadDir k text maxEntries fs = some entries) :
    (entries.isSome ↔ DirectoryAt k made text fs) ↔ ToldApart k made text fs := by
  cases fs with
  | ramfs =>
      obtain ⟨files, -, rfl⟩ := Option.map_eq_some_iff.mp h
      simp [DirectoryAt, ToldApart]
  | abyssfs =>
      rw [abyssfsReadDir_isSome_iff h, DirectoryAt, ToldApart]
      by_cases hroot : skipSlash text = []
      · simp [hroot]
      · rw [or_iff_right hroot, or_iff_right hroot, or_iff_right hroot]
        constructor
        · intro hsame inode hfound
          have hone (P : Nat → Prop) : (∃ i, getInodeByPath k.abyss.mem (skipSlash text) =
              some (some i) ∧ P i) ↔ P inode := by
            simp [hfound]
          rwa [hone, hone] at hsame
        · intro hsame
          exact exists_congr fun inode => and_congr_right fun hfound => hsame inode hfound

theorem leadsToDirectory_iff (hresolve : resolveNamespacePath k path = some (text, k')) :
    LeadsToDirectory k made path ↔ ∃ fs, findMount text = some fs ∧ DirectoryAt k' made text fs := by
  simp [LeadsToDirectory, hresolve]

theorem pathToldApart_iff (hresolve : resolveNamespacePath k path = some (text, k')) :
    PathToldApart k made path ↔ ∀ fs, findMount text = some fs → ToldApart k' made text fs := by
  simp only [PathToldApart, hresolve, Option.some.injEq, Prod.mk.injEq]
  constructor
  · intro h fs hmount
    exact h text k' fs ⟨rfl, rfl⟩ hmount
  · rintro h _ _ fs ⟨rfl, rfl⟩ hmount
    exact h fs hmount

/-- The same for a path, which the bindings and the mounts lead to a file system. -/
theorem vfsReadDir_answered_iff (h : vfsReadDir k path maxEntries = some (entries, k')) :
    (entries.isSome ↔ LeadsToDirectory k made path) ↔ PathToldApart k made path := by
  rw [vfsReadDir_eq, Option.bind_eq_some_iff] at h
  obtain ⟨⟨text, k₁⟩, hresolve, hanswer⟩ := h
  obtain ⟨_, hlist, heq⟩ := Option.map_eq_some_iff.mp hanswer
  cases heq
  rw [leadsToDirectory_iff hresolve, pathToldApart_iff hresolve]
  rw [dirAnswer] at hlist
  cases hmount : findMount text with
  | none =>
      rw [hmount] at hlist
      cases hlist
      simp
  | some fs =>
      rw [hmount] at hlist
      simpa using answered_iff hlist

/-- A directory change goes by the answer for the path it has put together. -/
theorem chdirMessage_asks {p : ProcessPtr} {msg msg' : Message} {result : Int} {full : Str}
    (hcur : k.current = some p) (htext : k.text msg.path = some path)
    (hpath : chdirPath k path = some full) (h : chdirMessage k msg = some (result, msg', k')) :
    ∃ entries k₁, vfsReadDir k (vfsNormalizePath full) 1 = some (entries, k₁) ∧
      (result = 0 ↔ entries.isSome) ∧ (k'.procs p).cwd =
        if result = 0 then (vfsNormalizePath full).take (maxPath - 1) else (k.procs p).cwd := by
  simp only [chdirMessage, hcur, htext, Option.bind_some, hpath] at h
  cases hread : vfsReadDir k (vfsNormalizePath full) 1 with
  | none => simp [hread] at h
  | some answer =>
      obtain ⟨entries, k₁⟩ := answer
      obtain ⟨heapPos, rfl⟩ := vfsReadDir_takes hread
      rw [hread] at h
      refine ⟨entries, _, rfl, ?_⟩
      cases entries with
      | none =>
          cases h
          simp
      | some entries =>
          cases h
          simp [Kernel.setProc]

/-- A binding is made once both names have been listed. -/
theorem bind_asks {old new : Str} {flags : Int} (hold : vfsReadDir k old 1 = some (entries, k₁))
    (h : bind k old new flags = some (0, k')) :
    entries.isSome ∧ ∃ listed k₂, vfsReadDir k₁ new 1 = some (some listed, k₂) := by
  rw [bind, hold] at h
  cases entries with
  | none => cases h
  | some first =>
      refine ⟨rfl, ?_⟩
      cases hnew : vfsReadDir k₁ new 1 with
      | none => simp [hnew] at h
      | some answer =>
          obtain ⟨listed, k₂⟩ := answer
          cases listed with
          | none => simp [hnew] at h
          | some listed => exact ⟨listed, k₂, rfl⟩

end Queries

/-- A listing, a directory change and a binding take exactly the existing directories for
directories where block and mode of what the path leads to go together. -/
theorem directory_queries_iff (k : Kernel) (made : Nat → Bool) :
    (∀ path maxEntries entries k', vfsReadDir k path maxEntries = some (entries, k') →
      ((entries.isSome ↔ LeadsToDirectory k made path) ↔ PathToldApart k made path)) ∧
    (∀ p msg path full result msg' k', k.current = some p → k.text msg.path = some path →
      chdirPath k path = some full → chdirMessage k msg = some (result, msg', k') →
      ((k'.procs p).cwd = if result = 0 then (vfsNormalizePath full).take (maxPath - 1)
        else (k.procs p).cwd) ∧
      ((result = 0 ↔ LeadsToDirectory k made (vfsNormalizePath full)) ↔
        PathToldApart k made (vfsNormalizePath full))) ∧
    ∀ old new flags entries k₁ k', vfsReadDir k old 1 = some (entries, k₁) →
      bind k old new flags = some (0, k') →
      (LeadsToDirectory k made old ∧ LeadsToDirectory k₁ made new ↔
        PathToldApart k made old ∧ PathToldApart k₁ made new) := by
  refine ⟨fun _ _ _ _ => vfsReadDir_answered_iff, ?_, ?_⟩
  · intro p msg path full result msg' k' hcur htext hpath h
    obtain ⟨entries, k₁, hread, hresult, hcwd⟩ := chdirMessage_asks hcur htext hpath h
    refine ⟨hcwd, ?_⟩
    rw [hresult]
    exact vfsReadDir_answered_iff hread
  · intro old new flags entries k₁ k' hold h
    obtain ⟨hlisted, listed, k₂, hnew⟩ := bind_asks hold h
    have hfirst : LeadsToDirectory k made old ↔ PathToldApart k made old := by
      rw [← vfsReadDir_answered_iff hold, iff_true_left hlisted]
    have hsecond : LeadsToDirectory k₁ made new ↔ PathToldApart k₁ made new := by
      rw [← vfsReadDir_answered_iff hnew, iff_true_left Option.isSome_some]
    exact and_congr hfirst hsecond

/-- The shell has made the directory `/d` and has its name at address 64. -/
def shellWithD : Kernel := { directoryMade with user := store (fun _ => 0) 64 (ascii "/d") }

theorem directory_queries_made : LeadsToDirectory shellWithD (fun _ => false) (ascii "/d") ∧
    (∃ msg' k', chdirMessage shellWithD chdirRequest = some (0, msg', k') ∧
      (k'.procs (.heap 0)).cwd = ascii "/d") ∧
    ∃ k', bind shellWithD (ascii "/") (ascii "/d") 0 = some (0, k') ∧
      LeadsToDirectory shellWithD (fun _ => false) (ascii "/") := by
  obtain ⟨hlist, hchdir, hbind⟩ := directory_queries_iff shellWithD fun _ => false
  have hresolve (path : Str) : resolveNamespacePath shellWithD path = some (path, shellWithD) := rfl
  have hroot : PathToldApart shellWithD (fun _ => false) (ascii "/") := by
    rw [pathToldApart_iff (hresolve _)]
    intro fs hmount
    have habyss : findMount (ascii "/") = some .abyssfs := by decide
    obtain rfl := Option.some.inj (habyss.symm.trans hmount)
    exact .inl rfl
  have hmade : PathToldApart shellWithD (fun _ => false) (ascii "/d") := by
    rw [pathToldApart_iff (hresolve _)]
    intro fs hmount
    have habyss : findMount (ascii "/d") = some .abyssfs := by decide
    obtain rfl := Option.some.inj (habyss.symm.trans hmount)
    refine .inr fun inode hfound => ?_
    have hinode : getInodeByPath shellWithD.abyss.mem (skipSlash (ascii "/d")) =
        some (some (inodeAddr 2)) := by decide +kernel
    obtain rfl := Option.some.inj (Option.some.inj (hinode.symm.trans hfound))
    decide +kernel
  have hlisted (path : Str)
      (h : (dirAnswer shellWithD path 1).map Option.isSome = some true) :
      ∃ entries, vfsReadDir shellWithD path 1 = some (entries, shellWithD) ∧ entries.isSome := by
    obtain ⟨entries, hanswer, hsome⟩ := Option.map_eq_some_iff.mp h
    refine ⟨entries, ?_, hsome⟩
    rw [vfsReadDir_eq, hresolve, Option.bind_some]
    exact congrArg (Option.map _) hanswer
  obtain ⟨entries, hread, hsome⟩ := hlisted (ascii "/d") (by decide +kernel)
  obtain ⟨_, hreadRoot, -⟩ := hlisted (ascii "/") (by decide +kernel)
  have hmoved : (chdirMessage shellWithD chdirRequest).map Prod.fst = some 0 := by decide +kernel
  obtain ⟨⟨result, msg', k'⟩, hmove, rfl⟩ := Option.map_eq_some_iff.mp hmoved
  obtain ⟨hcwd, -⟩ := hchdir (.heap 0) chdirRequest (ascii "/d") (ascii "/d") _ _ _ rfl
    (by decide +kernel) (by decide) hmove
  have hbound : (bind shellWithD (ascii "/") (ascii "/d") 0).map Prod.fst = some 0 := by
    decide +kernel
  obtain ⟨⟨_, k₂⟩, hcall, rfl⟩ := Option.map_eq_some_iff.mp hbound
  refine ⟨((hlist _ _ _ _ hread).mpr hmade).mp hsome, ⟨msg', k', hmove, ?_⟩, k₂, hcall, ?_⟩
  · exact hcwd.trans (by decide)
  · exact ((hbind _ _ _ _ _ _ hreadRoot hcall).mpr ⟨hroot, hmade⟩).1

/-- The shell has made the file `/a`. -/
def fileMade : Kernel := next fileStep (shellKernel fun _ => 0) (.create nameA)

/-- A file of AbyssFS is listed, and so is a path that RAMFS has nothing under. -/
theorem non_directories_listed :
    (∃ k', vfsReadDir fileMade (ascii "/a") 32 = some (some [], k')) ∧
    (¬LeadsToDirectory fileMade (fun _ => false) (ascii "/a")) ∧
    (∃ k', vfsReadDir fileMade (ascii "/tmp/none") 32 =
      some (some [(1, ascii "."), (1, ascii "..")], k')) ∧
    ¬LeadsToDirectory fileMade (fun _ => false) (ascii "/tmp/none") := by
  have hresolve (path : Str) : resolveNamespacePath fileMade path = some (path, fileMade) := rfl
  have hlisted (path : Str) (records : List (Nat × Str))
      (h : (vfsReadDir fileMade path 32).map Prod.fst = some (some records)) :
      ∃ k', vfsReadDir fileMade path 32 = some (some records, k') := by
    obtain ⟨⟨_, k'⟩, hcall, rfl⟩ := Option.map_eq_some_iff.mp h
    exact ⟨k', hcall⟩
  refine ⟨hlisted _ _ (by decide +kernel), ?_, hlisted _ _ (by decide +kernel), ?_⟩
  · rw [leadsToDirectory_iff (hresolve _)]
    rintro ⟨fs, hmount, hat⟩
    have habyss : findMount (ascii "/a") = some .abyssfs := by decide
    obtain rfl := Option.some.inj (habyss.symm.trans hmount)
    obtain hroot | ⟨inode, hfound, hmode⟩ := hat
    · cases hroot
    · have hinode : getInodeByPath fileMade.abyss.mem (skipSlash (ascii "/a")) =
          some (some (inodeAddr 2)) := by decide +kernel
      obtain rfl := Option.some.inj (Option.some.inj (hinode.symm.trans hfound))
      exact hmode (by decide +kernel)
  · rw [leadsToDirectory_iff (hresolve _)]
    rintro ⟨fs, hmount, hat⟩
    have hram : findMount (ascii "/tmp/none") = some .ramfs := by decide
    obtain rfl := Option.some.inj (hram.symm.trans hmount)
    obtain hplace | ⟨i, path, -, -, hkind, -, -⟩ := hat
    · revert hplace
      decide +kernel
    · cases hkind

end Chthon
