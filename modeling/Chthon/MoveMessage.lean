import Chthon.CopyMessage

/-! `MSG_MOVE` from one RAMFS file to another: a copy and an unlink of the source. Within RAMFS the
only step that can fail is the making of the new file, and then the source has not been touched. -/

namespace Chthon

/-- There is a slot, and heap and descriptors for the two files a copy opens. -/
def RoomForCopy (k : Kernel) : Prop :=
  (ramfsFree k.ramfs).isSome = true ∧ (kalloc k.heapPos vfsFileSize).1.isSome = true ∧
    (kalloc (kalloc k.heapPos vfsFileSize).2 vfsFileSize).1.isSome = true ∧ k.nextFd + 2 ≤ 32

instance (k : Kernel) : Decidable (RoomForCopy k) := inferInstanceAs (Decidable (_ ∧ _ ∧ _ ∧ _))

/-- No slot in use has changed. -/
def KeepsFiles (fs fs' : Ramfs) : Prop := ∀ l, (fs l).used = true → fs' l = fs l

/-- At most a free slot has got the path, with nothing in it. -/
def AtMostNamed (fs fs' : Ramfs) (path : Str) : Prop :=
  fs' = fs ∨ ∃ j used, (fs j).used = false ∧ fs' = Function.update fs j (newSlot (fs j) path used)

theorem AtMostNamed.keepsFiles {fs fs' : Ramfs} {path : Str} (h : AtMostNamed fs fs' path) :
    KeepsFiles fs fs' := by
  intro l hl
  rcases h with rfl | ⟨j, used, hfree, rfl⟩
  · rfl
  · apply Function.update_of_ne
    rintro rfl
    rw [hfree] at hl
    cases hl

section Making

variable {k : Kernel} {p : Process} {path : Str} {i : Nat}

/-- Opening a file changes neither file system. -/
theorem vfsOpen_files {fd : Int} {k' : Kernel} (h : vfsOpen k path = some (fd, k')) :
    k'.ramfs = k.ramfs ∧ k'.abyss = k.abyss := by
  have halloc : ∀ (k : Kernel) (file : VfsFile), (allocFd k file).2.ramfs = k.ramfs ∧
      (allocFd k file).2.abyss = k.abyss := by
    intro k file
    rcases allocFd_cases k file with ⟨-, heq⟩ | ⟨-, heq⟩
    · rw [heq]
      exact ⟨rfl, rfl⟩
    · rw [heq]
      exact ⟨rfl, rfl⟩
  have hfs : ∀ (path : Str) (fs : FileOps), (fsOpen k path fs).2.ramfs = k.ramfs ∧
      (fsOpen k path fs).2.abyss = k.abyss := by
    intro path fs
    cases fs <;> exact ⟨rfl, rfl⟩
  unfold vfsOpen at h
  split at h
  · cases h
  · cases h
    exact ⟨rfl, rfl⟩
  · rename_i fs resolved _
    have hsame := hfs resolved fs
    cases hopen : fsOpen k resolved fs with
    | mk file k₁ =>
        rw [hopen] at h hsame
        cases file with
        | none =>
            cases h
            exact hsame
        | some file =>
            obtain ⟨hramfs, habyss⟩ := halloc k₁ file
            have hk' : (allocFd k₁ file).2 = k' := congrArg Prod.snd (Option.some.inj h)
            rw [← hk']
            exact ⟨hramfs.trans hsame.1, habyss.trans hsame.2⟩

/-- A create below `/tmp` makes its file exactly when there is a slot, heap and a descriptor for it;
otherwise no file is touched. -/
theorem vfsCreate_tmp_cases (k : Kernel) (htmp : tmpPrefix <+: path) (hlen : path.length < 32) :
    ((ramfsFree k.ramfs).isSome = true ∧ (kalloc k.heapPos vfsFileSize).1.isSome = true ∧
        k.nextFd < 32 ∧ ∃ k', vfsCreate k path = some ((k.nextFd : Int), k')) ∨
      ¬((ramfsFree k.ramfs).isSome = true ∧ (kalloc k.heapPos vfsFileSize).1.isSome = true ∧
        k.nextFd < 32) ∧ ∃ k', vfsCreate k path = some (-1, k') ∧
          AtMostNamed k.ramfs k'.ramfs path := by
  have hfull : ¬path.length ≥ slotPath := Nat.not_le.mpr hlen
  simp only [vfsCreate, createRoute_tmp k htmp (by omega), fsCreate, ramfsCreate,
    ramfsFullPath_of_tmp htmp, if_neg hfull]
  cases hfree : ramfsFree k.ramfs with
  | none => exact .inr ⟨by simp, _, rfl, .inl rfl⟩
  | some j =>
      have hunused := (ramfsFree_some hfree).2
      cases hkalloc : kalloc k.heapPos vfsFileSize with
      | mk addr heapPos =>
          cases addr with
          | none => exact .inr ⟨by simp, _, rfl, .inr ⟨j, _, hunused, rfl⟩⟩
          | some addr =>
              rcases allocFd_cases { k with
                heapPos := heapPos
                ramfs := Function.update k.ramfs j (newSlot (k.ramfs j) path true) }
                ⟨.ramfs, j, 0⟩ with ⟨hnone, halloc⟩ | ⟨hroom, halloc⟩
              · refine .inr ⟨?_, _, congrArg some halloc, .inr ⟨j, _, hunused, rfl⟩⟩
                rintro ⟨-, -, hroom⟩
                exact absurd hroom (Nat.not_lt.mpr hnone)
              · exact .inl ⟨rfl, rfl, hroom, _, congrArg some halloc⟩

variable {src dst : CString}

/-- Between two paths below `/tmp`, a copy fails for want of room only, and then has touched no
file. -/
theorem copyFile_tmp_cases (hcur : k.currentProcess = some p) (hns : p.ns = [])
    (hsrc : tmpPrefix <+: src.chars) (hdst : tmpPrefix <+: dst.chars)
    (hsrclen : src.chars.length < 32) (hdstlen : dst.chars.length < 32)
    (hfind : ramfsFind k.ramfs src.chars = some i) (hsize : (k.ramfs i).size ≤ maxContent) :
    (¬RoomForCopy k ∧ ∃ k', copyFile k src.chars dst.chars = some (none, k') ∧
        AtMostNamed k.ramfs k'.ramfs dst.chars) ∨
      RoomForCopy k ∧ ∃ k' j rf, copyFile k src.chars dst.chars = some (some true, k') ∧
        ramfsFree k.ramfs = some j ∧ i ≠ j ∧ k'.currentProcess = some p ∧
        k'.ramfs = Function.update k.ramfs j rf ∧ rf.contents = (k.ramfs i).contents ∧
        rf.used = true ∧
        ∀ a < slotPath, rf.bytes a = (newSlot (k.ramfs j) dst.chars true).bytes a := by
  have hopen := vfsOpen_tmp hcur hns hsrc (by omega) hfind
  split_ifs at hopen with hroom
  · set k₁ := { k with heapPos := (kalloc k.heapPos vfsFileSize).2 }.withFile ⟨.ramfs, i, 0⟩
    have hpos : ¬((k.nextFd : Int) < 0) := by omega
    rcases vfsCreate_tmp_cases k₁ hdst hdstlen with ⟨hslot, hheap, hnext, k₂, hcreate⟩ |
      ⟨hnone, k₂, hcreate, hkept⟩
    · right
      have hpos' : ¬((k₁.nextFd : Int) < 0) := by omega
      refine ⟨⟨hslot, hroom.1, hheap, Nat.succ_le_of_lt hnext⟩, ?_⟩
      rcases copyFile_tmp hcur hns hsrc hdst hsrclen hdstlen hfind hsize with ⟨k', hcopy⟩ | hcopied
      · exfalso
        simp only [copyFile, hopen, if_neg hpos, hcreate, if_neg hpos', Option.map_eq_some_iff] at hcopy
        obtain ⟨_, _, heq⟩ := hcopy
        cases heq
      · exact hcopied
    · left
      refine ⟨fun hall => hnone ⟨hall.1, hall.2.2.1, Nat.lt_of_succ_le hall.2.2.2⟩, ?_⟩
      refine ⟨(vfsClose k₂ k.nextFd).2, ?_, ?_⟩
      · simp only [copyFile, hopen, if_neg hpos, hcreate]
        rfl
      · rw [vfsClose_kernel]
        exact hkept
  · left
    obtain ⟨k', hopen⟩ := hopen
    refine ⟨fun hall => hroom ⟨hall.2.1, by have := hall.2.2.2; omega⟩, k', ?_, ?_⟩
    · simp only [copyFile, hopen]
      rfl
    · exact .inl (vfsOpen_files hopen).1

end Making

section Moving

variable {k : Kernel} {p : Process} {src dst : CString} {i j : Nat}

/-- The file of a slot reads as the contents of the slot. -/
theorem readsAs_slot (hcur : k.currentProcess = some p) (hns : p.ns = [])
    (hdst : tmpPrefix <+: dst.chars) (hdstlen : dst.chars.length < 32)
    (hfind : ramfsFind k.ramfs dst.chars = some j) (hsize : (k.ramfs j).size ≤ maxContent) :
    ReadsAs k dst.chars (k.ramfs j).contents := by
  have hopen := vfsOpen_tmp hcur hns hdst (by omega) hfind
  split_ifs at hopen with hroom
  · refine ⟨_, _, hopen, ?_⟩
    rw [if_pos hroom]
    refine ⟨by omega, fun chunk hchunk hsmall => ?_⟩
    rw [RamfsFile.contents_length]
    have hfile := getFile_withFile { k with heapPos := (kalloc k.heapPos vfsFileSize).2 }
      ⟨.ramfs, j, 0⟩ hroom.2
    refine readAll_slot hchunk hsmall _ hfile hsize (Nat.zero_le _) ?_
    exact Nat.lt_of_lt_of_le (Nat.lt_succ_self _) (Nat.le_add_left _ _)
  · obtain ⟨k', hopen⟩ := hopen
    exact ⟨_, k', hopen, by rw [if_neg hroom]⟩

/-- What a move from slot `i` to the path `dst` leaves behind: the slot is free, another one that was
free holds its contents under the new name, and every other slot is as it was. -/
def MovedTo (k k' : Kernel) (dst : Str) (i : Nat) : Prop :=
  (k'.ramfs i).used = false ∧ ∃ j ≠ i, (k.ramfs j).used = false ∧
    (∀ l, l ≠ i → l ≠ j → k'.ramfs l = k.ramfs l) ∧ ramfsFind k'.ramfs dst = some j ∧
    (k'.ramfs j).contents = (k.ramfs i).contents ∧ ReadsAs k' dst (k.ramfs i).contents

/-- An unlink below `/tmp` gives up the slot of the path. -/
theorem vfsUnlink_tmp (hsrc : tmpPrefix <+: src.chars) (hsrclen : src.chars.length < 32)
    (hfind : ramfsFind k.ramfs src.chars = some i) :
    vfsUnlink k src.chars = some (0, { k with
      ramfs := Function.update k.ramfs i { k.ramfs i with used := false, size := 0 } }) := by
  have hroute : unlinkRoute k src.chars = some (some .ramfs, src.chars) := by
    rw [unlinkRoute_absolute k (tmp_absolute hsrc) (by omega),
      mountRoute_absolute k (tmp_absolute hsrc) (by omega), if_pos (tmpMount_start hsrc)]
  simp only [vfsUnlink, hroute, fsUnlink, ramfsUnlink, hfind]

/-- The copy and the unlink make a move. -/
theorem movedTo_of_slots {k' : Kernel} {rf : RamfsFile} (hcur : k'.currentProcess = some p)
    (hns : p.ns = []) (hdst : tmpPrefix <+: dst.chars) (hdstlen : dst.chars.length < 32)
    (hsize : (k.ramfs i).size ≤ maxContent) (hfresh : ramfsFind k.ramfs dst.chars = none)
    (hfree : ramfsFree k.ramfs = some j) (hne : i ≠ j)
    (hramfs : k'.ramfs = Function.update (Function.update k.ramfs j rf) i
      { k.ramfs i with used := false, size := 0 })
    (hcontents : rf.contents = (k.ramfs i).contents) (hused : rf.used = true)
    (hpath : ∀ a < slotPath, rf.bytes a = (newSlot (k.ramfs j) dst.chars true).bytes a) :
    MovedTo k k' dst.chars i := by
  obtain ⟨hj, hunused, _⟩ := ramfsFree_eq_some.mp hfree
  have htarget : k'.ramfs j = rf := by
    rw [hramfs, Function.update_of_ne hne.symm, Function.update_self]
  have hsource : (k'.ramfs i).used = false := by
    rw [hramfs, Function.update_self]
  have hothers : ∀ l, l ≠ i → l ≠ j → k'.ramfs l = k.ramfs l := by
    intro l hli hlj
    rw [hramfs, Function.update_of_ne hli, Function.update_of_ne hlj]
  have hfound : ramfsFind k'.ramfs dst.chars = some j := by
    refine ramfsFind_eq_some.mpr ⟨hj, ?_, ?_⟩
    · rw [htarget, RamfsFile.Stores, strEq_newSlot _ hpath hdstlen dst.nul_free dst.nul_free]
      exact ⟨hused, rfl⟩
    · intro l hl hstores
      by_cases hli : l = i
      · rw [hli, RamfsFile.Stores, hsource] at hstores
        exact absurd hstores.1 (by decide)
      · rw [hothers l hli (by omega)] at hstores
        exact ramfsFind_eq_none.mp hfresh l (by omega) hstores
  have hsizes : (k'.ramfs j).size ≤ maxContent := by
    calc (k'.ramfs j).size = rf.contents.length := by rw [htarget, RamfsFile.contents_length]
      _ = (k.ramfs i).size := by rw [hcontents, RamfsFile.contents_length]
      _ ≤ maxContent := hsize
  have hsame : (k'.ramfs j).contents = (k.ramfs i).contents := by rw [htarget, hcontents]
  refine ⟨hsource, j, hne.symm, hunused, hothers, hfound, hsame, ?_⟩
  rw [← hsame]
  exact readsAs_slot hcur hns hdst hdstlen hfound hsizes

/-- A move within RAMFS never loses data. It comes to an end; it succeeds exactly when there is room
for a second file, and then the file is under its new name only; otherwise every file is as it
was, and all that may be new is an empty one under the name of the destination. -/
theorem move_within_ramfs (out : Outside) (k : Kernel) (p : Process) (msg : Message)
    (src dst : CString) (i : Nat) (hcur : k.currentProcess = some p) (hns : p.ns = [])
    (htype : MsgType.all[msg.type]? = some .move) (hpath : msg.path ≠ 0) (hdata : msg.data ≠ 0)
    (hsrcText : k.text msg.path = some src.chars) (hdstText : k.text msg.data = some dst.chars)
    (hsrc : tmpPrefix <+: src.chars) (hdst : tmpPrefix <+: dst.chars)
    (hsrclen : src.chars.length < 32) (hdstlen : dst.chars.length < 32)
    (hfind : ramfsFind k.ramfs src.chars = some i) (hsize : (k.ramfs i).size ≤ 4096)
    (hfresh : ramfsFind k.ramfs dst.chars = none) :
    ∃ k', if RoomForCopy k
      then sendMessage out k msg = some (0, msg, k') ∧ MovedTo k k' dst.chars i
      else sendMessage out k msg = some (-1, msg, k') ∧ KeepsFiles k.ramfs k'.ramfs ∧
        AtMostNamed k.ramfs k'.ramfs dst.chars := by
  have hsend : sendMessage out k msg =
      (moveMessage k src.chars dst.chars).map fun answer => (answer.1, msg, answer.2) := by
    simp only [sendMessage, htype, withPaths, hpath, hdata, or_self, if_false, hsrcText, hdstText]
  rw [hsend]
  rcases copyFile_tmp_cases hcur hns hsrc hdst hsrclen hdstlen hfind hsize with
    ⟨hroom, k', hcopy, hkept⟩ |
    ⟨hroom, k', j, rf, hcopy, hfree, hne, hcur', hramfs, hcontents, hused, hbytes⟩
  · refine ⟨k', ?_⟩
    rw [if_neg hroom]
    refine ⟨?_, hkept.keepsFiles, hkept⟩
    simp only [moveMessage, hcopy, Option.map_some]
  · have hdiffer : src.chars ≠ dst.chars := by
      intro heq
      rw [heq, hfresh] at hfind
      cases hfind
    -- the new file is not in the way of the source
    have hstill : ramfsFind k'.ramfs src.chars = some i := by
      rw [hramfs, ramfsFind_update_other (ramfsFree_some hfree).2, hfind]
      rintro ⟨-, hstores⟩
      rw [strEq_newSlot _ hbytes hdstlen dst.nul_free src.nul_free] at hstores
      exact hdiffer hstores
    have hunlink := vfsUnlink_tmp hsrc hsrclen hstill
    refine ⟨{ k' with
      ramfs := Function.update k'.ramfs i { k'.ramfs i with used := false, size := 0 } }, ?_⟩
    rw [if_pos hroom]
    refine ⟨?_, ?_⟩
    · simp only [moveMessage, hcopy, hunlink]
      rfl
    · refine movedTo_of_slots hcur' hns hdst hdstlen hsize hfresh hfree hne ?_ hcontents hused hbytes
      have hsource : k'.ramfs i = k.ramfs i := by
        rw [hramfs, Function.update_of_ne hne]
      dsimp only
      rw [hsource, hramfs]

end Moving

def moveRequest : Message := ⟨19, 4096, 0, 5000, 0, 0, 0, 0, 0, 0, 0, 0, 0⟩

theorem move_within_ramfs_two_files : ∃ k',
    sendMessage ⟨⟨0, 0⟩, 0, some⟩ copyShell moveRequest = some (0, moveRequest, k') ∧
      MovedTo copyShell k' tmpB.chars 0 := by
  have hroom : RoomForCopy copyShell := by decide +kernel
  obtain ⟨k', hmove⟩ := move_within_ramfs ⟨⟨0, 0⟩, 0, some⟩ copyShell shellProcess moveRequest tmpA
    tmpB 0 rfl rfl rfl (by decide) (by decide) (by decide +kernel) (by decide +kernel) (by decide)
    (by decide) (by decide) (by decide) (by decide +kernel) (by decide +kernel) (by decide +kernel)
  rw [if_pos hroom] at hmove
  exact ⟨k', hmove⟩

end Chthon
