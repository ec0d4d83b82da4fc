import Chthon.RamfsNames
import Chthon.VfsModel

/-! Where the five path operations send a path. `vfs_open` takes the text as it stands and looks for
`/tmp/`, `vfs_create` and the others complete it with the working directory and look for `/tmp`, and
`vfs_unlink` completes it to choose the file system but then hands over the original. They agree
exactly on absolute paths away from the edge of the mount. -/

namespace Chthon

open ByteMemory

def tmpMount : Str := ascii "/tmp"

/-- A process at work in an absolute directory, without bindings. -/
structure PlainProcess (k : Kernel) (p : Process) : Prop where
  current : k.currentProcess = some p
  absolute : p.cwd.head? = some slash
  unbound : p.ns = []

/-- All five operations choose the same file system and the same absolute path for it. (RAMFS has no
recursive removal; it is chosen all the same, and the call then refuses.) -/
def RoutesAlike (k : Kernel) (path : Str) : Prop :=
  ∃ fs full, full.head? = some slash ∧ openRoute k path = some (some fs, full) ∧
    createRoute k path = some (some fs, full) ∧ unlinkRoute k path = some (some fs, full) ∧
    mkdirRoute k path = some (some fs, full) ∧ removeRecursiveRoute k path = some (some fs, full)

/-- The text fits the path buffers, is absolute, and its first component is `tmp` or does not even
start so. -/
def PlainlyRouted (path : Str) : Prop :=
  path.head? = some slash ∧ path.length < 256 ∧
    (tmpPrefix <+: path ∨ ¬tmpMount <+: path)

/-! Mounts. -/

theorem slash_prefix_iff (path : Str) : ascii "/" <+: path ↔ path.head? = some slash := by
  cases path with
  | nil => simp [ascii]
  | cons c cs =>
      change [slash] <+: c :: cs ↔ _
      rw [List.cons_prefix_cons]
      simp [eq_comm]

theorem tmpMount_start {path : Str} (h : tmpPrefix <+: path) : tmpMount <+: path :=
  List.IsPrefix.trans ⟨[slash], rfl⟩ h

/-- `find_mount` on an absolute path. -/
theorem findMount_absolute {path : Str} (h : path.head? = some slash) :
    findMount path = some (if tmpMount <+: path then .ramfs else .abyssfs) := by
  have hslash : (ascii "/").isPrefixOf path = true := by
    rw [List.isPrefixOf_iff_prefix, slash_prefix_iff]
    exact h
  rw [findMount]
  split_ifs with hroot htmp htmp
  · rcases hroot with rfl | rfl
    · cases h
    · exact absurd htmp (by decide)
  · rfl
  · have hprefix : (ascii "/tmp").isPrefixOf path = true := List.isPrefixOf_iff_prefix.mpr htmp
    simp only [mountPoints, List.foldl_cons, List.foldl_nil, hslash, hprefix]
    rfl
  · have hprefix : (ascii "/tmp").isPrefixOf path = false := by
      rw [Bool.eq_false_iff, Ne, List.isPrefixOf_iff_prefix]
      exact htmp
    simp only [mountPoints, List.foldl_cons, List.foldl_nil, hslash, hprefix]
    rfl

/-- The test of `vfs_create` in front of `find_mount` changes nothing. -/
theorem createMount_eq {path : Str} (h : path.head? = some slash) :
    (if tmpPrefix.isPrefixOf path ∨ path = ascii "/tmp" then some .ramfs else findMount path) =
      findMount path := by
  split_ifs with htmp
  · have hmount : tmpMount <+: path := by
      rcases htmp with htmp | rfl
      · exact tmpMount_start (List.isPrefixOf_iff_prefix.mp htmp)
      · exact List.prefix_rfl
    rw [findMount_absolute h, if_pos hmount]
  · rfl

/-! Completing a path. -/

theorem fullPath_absolute (k : Kernel) {path : Str} (h : path.head? = some slash)
    (hlen : path.length < 256) : fullPath k path = some path := by
  rw [fullPath, if_pos h, if_neg (by simp only [maxPath]; omega)]

theorem fullPath_some {k : Kernel} {p : Process} (hp : PlainProcess k p) {path full : Str}
    (h : fullPath k path = some full) :
    full.head? = some slash ∧ full.length < 256 ∧
      (path.head? = some slash → full = path) ∧
      (path.head? ≠ some slash → full ≠ path) := by
  unfold fullPath at h
  by_cases habs : path.head? = some slash
  · rw [if_pos habs] at h
    split_ifs at h with hlen
    cases h
    exact ⟨habs, Nat.lt_of_not_le hlen, fun _ => rfl, fun hne => absurd habs hne⟩
  · rw [if_neg habs, hp.current] at h
    dsimp only at h
    split_ifs at h with hnil hlast hlen hlen
    all_goals
      cases h
      cases hcwd : p.cwd with
      | nil => exact absurd hcwd hnil
      | cons c cs =>
          have hc : c = slash := by simpa [hcwd] using hp.absolute
          subst hc
          rw [hcwd] at hlen
          refine ⟨rfl, Nat.lt_of_not_le hlen, fun h => absurd h habs, fun _ heq => ?_⟩
          rw [← heq] at habs
          exact habs rfl

theorem resolvePath_unbound {k : Kernel} {p : Process} (hp : PlainProcess k p) (path : Str) :
    resolvePath k path = if path.length ≥ maxPath then none else some path := by
  rw [resolvePath, hp.current]
  simp only [hp.unbound, List.find?_nil]

section Routes

variable {k : Kernel} {p : Process} {path : Str}

theorem openRoute_some (hp : PlainProcess k p) (hlen : path.length < 256) :
    openRoute k path = some (some (if tmpPrefix <+: path then .ramfs else .abyssfs), path) := by
  rw [openRoute, resolvePath_unbound hp, if_neg (by simp only [maxPath]; omega)]
  simp only [Option.map_some, List.isPrefixOf_iff_prefix]

theorem mountRoute_absolute (k : Kernel) (habs : path.head? = some slash)
    (hlen : path.length < 256) :
    mkdirRoute k path = some (some (if tmpMount <+: path then .ramfs else .abyssfs), path) := by
  rw [mkdirRoute, fullPath_absolute k habs hlen, Option.map_some, findMount_absolute habs]

/-- On an absolute path the three operations that ask `find_mount` route alike. -/
theorem unlinkRoute_absolute (k : Kernel) (habs : path.head? = some slash)
    (hlen : path.length < 256) : unlinkRoute k path = mkdirRoute k path := by
  rw [unlinkRoute, mkdirRoute, fullPath_absolute k habs hlen]
  rfl

theorem createRoute_absolute (k : Kernel) (habs : path.head? = some slash)
    (hlen : path.length < 256) : createRoute k path = mkdirRoute k path := by
  rw [createRoute, mkdirRoute, fullPath_absolute k habs hlen, Option.map_some, Option.map_some,
    createMount_eq habs]

/-- The five operations route alike exactly on the plainly routed paths. -/
theorem routesAlike_iff (hp : PlainProcess k p) : RoutesAlike k path ↔ PlainlyRouted path := by
  constructor
  · rintro ⟨fs, full, habs, hopen, hcreate, hunlink, hmkdir, _⟩
    -- an unlink hands over the text itself, so the text is the full path
    rw [unlinkRoute, Option.map_eq_some_iff] at hunlink
    obtain ⟨full', hfull, heq⟩ := hunlink
    obtain ⟨hmount, rfl⟩ := Prod.mk.inj heq
    obtain ⟨_, hlen, hsame, _⟩ := fullPath_some hp hfull
    rw [hsame habs] at hlen
    refine ⟨habs, hlen, ?_⟩
    rw [openRoute_some hp hlen] at hopen
    rw [mountRoute_absolute k habs hlen] at hmkdir
    have hfs := hopen.trans hmkdir.symm
    by_cases htmp : tmpPrefix <+: path
    · exact Or.inl htmp
    · right
      intro hmount
      rw [if_neg htmp, if_pos hmount] at hfs
      cases hfs
  · rintro ⟨habs, hlen, htmp⟩
    have hmkdir := mountRoute_absolute k habs hlen
    have hiff : tmpPrefix <+: path ↔ tmpMount <+: path := by
      constructor
      · exact tmpMount_start
      · intro hmount
        rcases htmp with htmp | hnot
        · exact htmp
        · exact absurd hmount hnot
    refine ⟨_, path, habs, openRoute_some hp hlen, ?_, ?_, ?_, ?_⟩
    · rw [createRoute_absolute k habs hlen, hmkdir]
      simp only [hiff]
    · rw [unlinkRoute_absolute k habs hlen, hmkdir]
      simp only [hiff]
    · rw [hmkdir]
      simp only [hiff]
    · have hsame : removeRecursiveRoute k path = mkdirRoute k path := rfl
      rw [hsame, hmkdir]
      simp only [hiff]

end Routes

/-! Descriptors. -/

/-- The kernel after `alloc_fd` has entered a file. -/
def Kernel.withFile (k : Kernel) (file : VfsFile) : Kernel :=
  { k with
    fdTable := Function.update k.fdTable k.nextFd (some file)
    nextFd := k.nextFd + 1 }

theorem allocFd_cases (k : Kernel) (file : VfsFile) :
    (32 ≤ k.nextFd ∧ allocFd k file = (-1, k)) ∨
    (k.nextFd < 32 ∧ allocFd k file = ((k.nextFd : Int), k.withFile file)) := by
  by_cases hfull : k.nextFd ≥ maxFd
  · exact Or.inl ⟨hfull, if_pos hfull⟩
  · exact Or.inr ⟨Nat.lt_of_not_le hfull, if_neg hfull⟩

theorem getFile_withFile (k : Kernel) (file : VfsFile) (h : k.nextFd < 32) :
    getFile (k.withFile file) k.nextFd = some file := by
  rw [getFile, if_neg (by simp only [maxFd]; omega)]
  exact Function.update_self _ _ _

/-- A create that returns a descriptor: its file system made the file, and the table has it. -/
theorem vfsCreate_ok {k k₁ : Kernel} {path : Str} {fd : Int}
    (h : vfsCreate k path = some (fd, k₁)) (hfd : 0 ≤ fd) :
    ∃ fs full file k₂, createRoute k path = some (some fs, full) ∧
      fsCreate k full fs = some (some file, k₂) ∧ k₁ = k₂.withFile file ∧ getFile k₁ fd = some file := by
  unfold vfsCreate at h
  split at h
  · cases h
  · cases h
    omega
  rename_i fs full hroute
  split at h
  · cases h
  · cases h
    omega
  rename_i file k₂ hcreate
  rw [Option.some.injEq] at h
  rcases allocFd_cases k₂ file with ⟨_, halloc⟩ | ⟨hroom, halloc⟩
  · rw [halloc] at h
    cases h
    omega
  · rw [halloc] at h
    cases h
    exact ⟨fs, full, file, k₂, hroute, hcreate, rfl, getFile_withFile k₂ file hroom⟩

/-! The file a created path leads to. -/

/-- `vfs_open` and `vfs_unlink` of the path act on this slot: the open hands out a handle on it
whenever there is heap and a descriptor left, and the unlink gives up this slot and nothing else. -/
def ReachesSlot (k : Kernel) (path : Str) (slot : Nat) : Prop :=
  (∃ fd k', vfsOpen k path = some (fd, k') ∧
    if (kalloc k.heapPos vfsFileSize).1.isSome ∧ k.nextFd < 32 then
      getFile k' fd = some ⟨.ramfs, slot, 0⟩
    else fd = -1) ∧
  ∃ k', vfsUnlink k path = some (0, k') ∧ k'.abyss = k.abyss ∧
    k'.ramfs = Function.update k.ramfs slot { k.ramfs slot with used := false, size := 0 }

/-- The text starts with `/tmp/`, and no slot before the first free one stores it already. -/
def FreshName (fs : Ramfs) (path : Str) : Prop :=
  tmpPrefix <+: path ∧ ∀ i j, ramfsFree fs = some i → ramfsFind fs path = some j → i < j

theorem ramfsFullPath_of_tmp {path : Str} (h : tmpPrefix <+: path) : ramfsFullPath path = path :=
  if_pos (List.isPrefixOf_iff_prefix.mpr h)

theorem ramfsFullPath_head (path : Str) : (ramfsFullPath path).head? = some slash := by
  rw [ramfsFullPath]
  split_ifs with h
  · obtain ⟨rest, rfl⟩ := List.isPrefixOf_iff_prefix.mp h
    rfl
  · rfl

section Slot

variable {k k₁ : Kernel} {p : Process} {path : CString} {fd : Int} {slot : Nat}

/-- The unlink that follows removes the new slot only if the text is the path stored in it. -/
theorem ReachesSlot.find {full : Str} (h : ReachesSlot k path.chars slot)
    (hfull : fullPath k path.chars = some full) (hmount : findMount full = some .ramfs)
    (hused : (k.ramfs slot).used = true) : ramfsFind k.ramfs path.chars = some slot := by
  obtain ⟨_, k', hunlink, _, hfs⟩ := h
  have hroute : unlinkRoute k path.chars = some (some .ramfs, path.chars) := by
    rw [unlinkRoute, hfull, Option.map_some, hmount]
  unfold vfsUnlink fsUnlink at hunlink
  rw [hroute] at hunlink
  dsimp only at hunlink
  rw [Option.some.injEq, Prod.mk.injEq] at hunlink
  obtain ⟨hresult, rfl⟩ := hunlink
  exact ramfsUnlink_slot hused (Prod.ext hresult hfs)

theorem reachesSlot_of_find (hp : PlainProcess k p) (htmp : tmpPrefix <+: path.chars)
    (hlen : path.chars.length < 256) (hfind : ramfsFind k.ramfs path.chars = some slot) :
    ReachesSlot k path.chars slot := by
  have habs : path.chars.head? = some slash := by
    obtain ⟨rest, hrest⟩ := htmp
    rw [← hrest]
    rfl
  constructor
  · have hroute : openRoute k path.chars = some (some .ramfs, path.chars) := by
      rw [openRoute_some hp hlen, if_pos htmp]
    unfold vfsOpen fsOpen ramfsOpen
    rw [hroute]
    simp only [hfind]
    cases hkalloc : kalloc k.heapPos vfsFileSize with
    | mk addr heapPos =>
        cases addr with
        | none => exact ⟨_, _, rfl, by simp⟩
        | some addr =>
            rcases allocFd_cases { k with heapPos := heapPos } ⟨.ramfs, slot, 0⟩ with
              ⟨hfull, halloc⟩ | ⟨hroom, halloc⟩
            · refine ⟨_, _, congrArg some halloc, ?_⟩
              rw [if_neg (by rintro ⟨_, hroom⟩; exact absurd hroom (Nat.not_lt.mpr hfull))]
            · refine ⟨_, _, congrArg some halloc, ?_⟩
              rw [if_pos ⟨rfl, hroom⟩]
              exact getFile_withFile _ _ hroom
  · have hroute : unlinkRoute k path.chars = some (some .ramfs, path.chars) := by
      rw [unlinkRoute_absolute k habs hlen, mountRoute_absolute k habs hlen,
        if_pos (tmpMount_start htmp)]
    unfold vfsUnlink fsUnlink ramfsUnlink
    rw [hroute]
    simp only [hfind]
    exact ⟨_, rfl, rfl, rfl⟩

/-- A slot that stores a relative text was not filled by a create. -/
theorem newSlot_relative (rf : RamfsFile) {full path : Str} (hfull : full.head? = some slash)
    (hpath : path.head? ≠ some slash) : ¬(newSlot rf full true).Stores path := by
  rintro ⟨_, hstored⟩
  cases full with
  | nil => cases hfull
  | cons c cs =>
      obtain rfl : c = slash := by simpa using hfull
      have hbyte : (newSlot rf (slash :: cs) true).bytes 0 = slash := by
        change store (store rf.bytes 0 (slash :: cs ++ [0])) slotPath [0] 0 = slash
        rw [store_of_lt _ _ (by decide)]
        exact store_cons_head _ _ _ _
      cases path with
      | nil =>
          simp only [strEq, hbyte, beq_iff_eq] at hstored
          exact absurd hstored (by decide)
      | cons d ds =>
          simp only [strEq, hbyte, Bool.and_eq_true, beq_iff_eq] at hstored
          exact hpath (by simp [hstored.1])

theorem fsCreate_ramfs {k k₂ : Kernel} {full : Str} {fs : FileOps} {slot : Nat}
    (h : fsCreate k full fs = some (some ⟨.ramfs, slot, 0⟩, k₂)) :
    fs = .ramfs ∧ ∃ heapPos, ramfsFree k.ramfs = some slot ∧ (ramfsFullPath full).length < 32 ∧
      k₂ = { k with
        heapPos := heapPos
        ramfs := Function.update k.ramfs slot
          (newSlot (k.ramfs slot) (ramfsFullPath full) true) } := by
  cases fs with
  | abyssfs =>
      rw [fsCreate, Option.map_eq_some_iff] at h
      obtain ⟨⟨file, heapPos, fs⟩, hcall, heq⟩ := h
      obtain ⟨rfl, _⟩ := Prod.mk.inj heq
      rcases abyssfsCreate_cases hcall with ⟨hnone, _⟩ | ⟨i, _, _, _, _, ⟨hnone, _⟩ |
        ⟨_, _, _, _, _, _, _, _, _, hnone | hsome⟩⟩
      · cases hnone
      · cases hnone
      · cases hnone
      · cases hsome
  | ramfs =>
      rw [fsCreate, Option.map_eq_some_iff] at h
      obtain ⟨⟨file, heapPos, fs⟩, hcall, heq⟩ := h
      obtain ⟨rfl, rfl⟩ := Prod.mk.inj heq
      obtain ⟨i, hfree, hfile, hlen, rfl⟩ := ramfsCreate_some hcall
      obtain rfl : slot = i := congrArg VfsFile.privateData hfile
      exact ⟨rfl, heapPos, hfree, hlen, rfl⟩

/-- After a create on RAMFS the path leads to the new file exactly if it is a fresh name. -/
theorem reachesSlot_iff (hp : PlainProcess k p) (hcreate : vfsCreate k path.chars = some (fd, k₁))
    (hfd : 0 ≤ fd) (hfile : getFile k₁ fd = some ⟨.ramfs, slot, 0⟩) :
    ReachesSlot k₁ path.chars slot ↔ FreshName k.ramfs path.chars := by
  obtain ⟨fs, full, file, k₂, hroute, hmade, rfl, hentry⟩ := vfsCreate_ok hcreate hfd
  obtain rfl : file = ⟨.ramfs, slot, 0⟩ := Option.some.inj (hentry.symm.trans hfile)
  obtain ⟨rfl, heapPos, hfree, hshort, rfl⟩ := fsCreate_ramfs hmade
  rw [createRoute, Option.map_eq_some_iff] at hroute
  obtain ⟨full', hfull, heq⟩ := hroute
  obtain ⟨hfs, rfl⟩ := Prod.mk.inj heq
  obtain ⟨habs, hlen, hsame, _⟩ := fullPath_some hp hfull
  rw [createMount_eq habs] at hfs
  set k₁ := Kernel.withFile { k with
    heapPos := heapPos
    ramfs := Function.update k.ramfs slot
      (newSlot (k.ramfs slot) (ramfsFullPath full') true) } ⟨.ramfs, slot, 0⟩ with hk₁
  have hp₁ : PlainProcess k₁ p := ⟨hp.current, hp.absolute, hp.unbound⟩
  have hslots : k₁.ramfs = Function.update k.ramfs slot
      (newSlot (k.ramfs slot) (ramfsFullPath full') true) := rfl
  have hfull₁ : fullPath k₁ path.chars = some full' := hfull
  constructor
  · intro hreach
    have hused : (k₁.ramfs slot).used = true := by
      rw [hslots, Function.update_self]
      rfl
    have hfind := hreach.find hfull₁ hfs hused
    have hstores := (ramfsFind_eq_some.mp hfind).2.1
    rw [hslots, Function.update_self] at hstores
    by_cases hpath : path.chars.head? = some slash
    · obtain rfl := hsame hpath
      have htmp : tmpPrefix <+: path.chars := by
        by_contra hnot
        have hprefixed : ramfsFullPath path.chars = tmpPrefix ++ path.chars :=
          if_neg fun h => hnot (List.isPrefixOf_iff_prefix.mp h)
        rw [hprefixed] at hshort hstores
        have hnul : 0 ∉ tmpPrefix ++ path.chars := by
          rw [List.mem_append]
          rintro (h | h)
          · exact absurd h (by decide)
          · exact path.nul_free h
        have hlong := congrArg List.length ((newSlot_stores _ hshort hnul path.nul_free).mp hstores)
        have hpos : 0 < tmpPrefix.length := by decide
        rw [List.length_append] at hlong
        omega
      rw [ramfsFullPath_of_tmp htmp] at hshort hslots
      rw [hslots] at hfind
      refine ⟨htmp, fun i j hi hj => ?_⟩
      obtain rfl : slot = i := Option.some.inj (hfree.symm.trans hi)
      exact (ramfsFind_created hfree hshort path.nul_free).mp hfind j hj
    · exact absurd hstores (newSlot_relative _ (ramfsFullPath_head _) hpath)
  · rintro ⟨htmp, hlater⟩
    have hpath : path.chars.head? = some slash := by
      obtain ⟨rest, hrest⟩ := htmp
      rw [← hrest]
      rfl
    obtain rfl := hsame hpath
    rw [ramfsFullPath_of_tmp htmp] at hshort hslots
    apply reachesSlot_of_find hp₁ htmp hlen
    rw [hslots]
    exact (ramfsFind_created hfree hshort path.nul_free).mpr fun j hj => hlater slot j hfree hj

end Slot

/-- When the five path operations route alike, and when a file made on RAMFS is the one its path
leads to afterwards. -/
theorem path_routing_iff (k : Kernel) (p : Process) (hp : PlainProcess k p) (path : CString) :
    (RoutesAlike k path.chars ↔ PlainlyRouted path.chars) ∧
    ∀ fd k₁ slot, vfsCreate k path.chars = some (fd, k₁) → 0 ≤ fd →
      getFile k₁ fd = some ⟨.ramfs, slot, 0⟩ →
      (ReachesSlot k₁ path.chars slot ↔ FreshName k.ramfs path.chars) :=
  ⟨routesAlike_iff hp, fun _ _ _ hcreate hfd hfile => reachesSlot_iff hp hcreate hfd hfile⟩

theorem shellKernel_plain (user : Memory) : PlainProcess (shellKernel user) shellProcess :=
  ⟨rfl, rfl, rfl⟩

/-- The first file the shell makes below `/tmp/`. -/
theorem path_routing_tmp_file :
    PlainProcess (shellKernel fun _ => 0) shellProcess ∧
    RoutesAlike (shellKernel fun _ => 0) (ascii "/tmp/a") ∧
    ∃ k₁, vfsCreate (shellKernel fun _ => 0) (ascii "/tmp/a") = some (0, k₁) ∧
      ReachesSlot k₁ (ascii "/tmp/a") 0 := by
  have hp := shellKernel_plain fun _ => 0
  have hiff := path_routing_iff (shellKernel fun _ => 0) shellProcess hp
    ⟨ascii "/tmp/a", by decide⟩
  refine ⟨hp, hiff.1.mpr ⟨by decide, by decide, Or.inl (by decide)⟩, ?_⟩
  have hcall : (vfsCreate (shellKernel fun _ => 0) (ascii "/tmp/a")).map
      (fun r => (r.1, getFile r.2 r.1)) = some (0, some ⟨.ramfs, 0, 0⟩) := by decide +kernel
  rw [Option.map_eq_some_iff] at hcall
  obtain ⟨⟨fd, k₁⟩, hcreate, heq⟩ := hcall
  obtain ⟨rfl, hfile⟩ := Prod.mk.inj heq
  refine ⟨k₁, hcreate, (hiff.2 0 k₁ 0 hcreate le_rfl hfile).mpr ⟨by decide, fun i j _ hj => ?_⟩⟩
  have hnone : ramfsFind (shellKernel fun _ => 0).ramfs (ascii "/tmp/a") = none := by decide +kernel
  rw [hnone] at hj
  cases hj

/-- A name in the root that starts with `tmp`: it is created on RAMFS and opened on AbyssFS, and no
unlink finds the new file. -/
theorem tmpfile_routed_apart :
    PlainProcess (shellKernel fun _ => 0) shellProcess ∧
    ¬RoutesAlike (shellKernel fun _ => 0) (ascii "/tmpfile") ∧
    ∃ k₁, vfsCreate (shellKernel fun _ => 0) (ascii "/tmpfile") = some (0, k₁) ∧
      getFile k₁ 0 = some ⟨.ramfs, 0, 0⟩ ∧ ¬ReachesSlot k₁ (ascii "/tmpfile") 0 := by
  refine ⟨shellKernel_plain _, ?_, ?_⟩
  · rintro ⟨fs, full, _, hopen, hcreate, _⟩
    have hne : openRoute (shellKernel fun _ => 0) (ascii "/tmpfile") ≠
        createRoute (shellKernel fun _ => 0) (ascii "/tmpfile") := by decide +kernel
    exact hne (hopen.trans hcreate.symm)
  · have hcall : (vfsCreate (shellKernel fun _ => 0) (ascii "/tmpfile")).map
        (fun r => (r.1, getFile r.2 r.1, (vfsUnlink r.2 (ascii "/tmpfile")).map Prod.fst)) =
        some (0, some ⟨.ramfs, 0, 0⟩, some (-1)) := by decide +kernel
    rw [Option.map_eq_some_iff] at hcall
    obtain ⟨⟨fd, k₁⟩, hcreate, heq⟩ := hcall
    obtain ⟨rfl, heq⟩ := Prod.mk.inj heq
    obtain ⟨hfile, hunlink⟩ := Prod.mk.inj heq
    refine ⟨k₁, hcreate, hfile, ?_⟩
    rintro ⟨_, k', hreached, _⟩
    rw [hreached] at hunlink
    cases hunlink

end Chthon
