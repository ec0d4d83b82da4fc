import Chthon.MessageModel
import Chthon.RamfsFiles
import Chthon.VfsRouting

/-! `MSG_COPY` from one RAMFS file to another: the source and the new file are read and written
through two descriptors, in pieces of 1024 bytes. -/

namespace Chthon

open ByteMemory FlatFile

/-- Reading a descriptor to the end, in pieces of `chunk` bytes. -/
def readAll (fd : Int) (chunk : Nat) : Nat → Kernel → Option Str
  | 0, _ => none
  | fuel + 1, k =>
      match vfsRead k fd chunk with
      | some (some bytes, k) =>
          if bytes = [] then some [] else (readAll fd chunk fuel k).map (bytes ++ ·)
      | _ => none

/-- The path can be opened as long as there is heap and a descriptor left, and then reads as
`data`, whatever the size of the pieces. -/
def ReadsAs (k : Kernel) (path data : Str) : Prop :=
  ∃ fd k', vfsOpen k path = some (fd, k') ∧
    if (kalloc k.heapPos vfsFileSize).1.isSome ∧ k.nextFd < 32 then
      0 ≤ fd ∧ ∀ chunk, 0 < chunk → chunk ≤ 2 ^ 32 →
        readAll fd chunk (data.length + 1) k' = some data
    else fd = -1

/-! Descriptors on RAMFS slots. -/

section Descriptors

variable {k : Kernel} {fd fd' : Int} {i j pos : Nat}

theorem getFile_eq_some {file : VfsFile} :
    getFile k fd = some file ↔ 0 ≤ fd ∧ fd < 32 ∧ k.fdTable fd.toNat = some file := by
  unfold getFile
  by_cases hrange : fd < 0 ∨ fd ≥ maxFd
  · rw [if_pos hrange]
    apply iff_of_false (Option.some_ne_none file).symm
    simp only [maxFd] at hrange
    omega
  · rw [if_neg hrange]
    simp only [maxFd] at hrange
    exact ⟨fun h => ⟨by omega, by omega, h⟩, fun h => h.2.2⟩

theorem getFile_setFile {file file' : VfsFile} (h : getFile k fd = some file) :
    getFile (k.setFile fd (some file')) fd = some file' := by
  obtain ⟨hlow, hhigh, _⟩ := getFile_eq_some.mp h
  exact getFile_eq_some.mpr ⟨hlow, hhigh, Function.update_self _ _ _⟩

theorem getFile_setFile_of_ne {file' : VfsFile} {entry : Option VfsFile} (hfd : 0 ≤ fd)
    (h' : getFile k fd' = some file') (hne : fd' ≠ fd) :
    getFile (k.setFile fd entry) fd' = some file' := by
  obtain ⟨hlow, hhigh, hentry⟩ := getFile_eq_some.mp h'
  refine getFile_eq_some.mpr ⟨hlow, hhigh, ?_⟩
  dsimp only [Kernel.setFile]
  rw [Function.update_of_ne (by omega)]
  exact hentry

theorem vfsRead_slot (count : Nat) (h : getFile k fd = some ⟨.ramfs, i, pos⟩)
    (hfits : pos + count < 2 ^ 64) :
    vfsRead k fd count = some (some (((k.ramfs i).contents.drop pos).take count),
      k.setFile fd (some ⟨.ramfs, i,
        pos + (((k.ramfs i).contents.drop pos).take count).length⟩)) := by
  have hread := ramfsRead_contents k.ramfs ⟨.ramfs, i, pos⟩ hfits
  simp only [vfsRead, h, hread, Option.map_some]

/-- A write at the end of a file for which there is room. -/
theorem vfsWrite_slot (data : Str) (h : getFile k fd = some ⟨.ramfs, j, pos⟩)
    (hend : (k.ramfs j).size = pos) (hroom : pos + data.length ≤ maxContent) :
    ∃ rf, vfsWrite k fd data = some ((data.length : Int),
        { k.setFile fd (some ⟨.ramfs, j, pos + data.length⟩) with
          ramfs := Function.update k.ramfs j rf }) ∧
      rf.contents = (k.ramfs j).contents ++ data ∧ rf.used = (k.ramfs j).used ∧
      ∀ a < slotPath, rf.bytes a = (k.ramfs j).bytes a := by
  have hlimit : maxContent < 2 ^ 64 := by decide
  obtain ⟨rf, hwrite, hcontents, hused, hpath⟩ := ramfsWrite_contents k.ramfs
    ⟨.ramfs, j, pos⟩ (show pos ≤ (k.ramfs j).size by rw [hend])
    (show (k.ramfs j).size ≤ maxContent by omega) (show pos + data.length < 2 ^ 64 by omega)
  dsimp only at hcontents hused hpath
  rw [File.fitting_of_le hroom] at hcontents hwrite
  refine ⟨rf, ?_, ?_, hused, hpath⟩
  · simp only [vfsWrite, h, hwrite, Option.map_some]
  · rw [hcontents, ← hend, ← (k.ramfs j).contents_length, patch_end]

/-- From any position, the rest of the file is read. -/
theorem readAll_slot {chunk : Nat} (hchunk : 0 < chunk) (hsmall : chunk ≤ 2 ^ 32) (fuel : Nat) :
    ∀ {k : Kernel} {pos : Nat}, getFile k fd = some ⟨.ramfs, i, pos⟩ →
      (k.ramfs i).size ≤ maxContent → pos ≤ (k.ramfs i).size → (k.ramfs i).size < pos + fuel →
      readAll fd chunk fuel k = some ((k.ramfs i).contents.drop pos) := by
  induction fuel with
  | zero =>
      intro k pos _ _ hpos hfuel
      omega
  | succ fuel ih =>
      intro k pos hfile hsize hpos hfuel
      simp only [maxContent] at hsize
      rw [readAll, vfsRead_slot _ hfile (by omega)]
      dsimp only
      have hlength : (((k.ramfs i).contents.drop pos).take chunk).length =
          min chunk ((k.ramfs i).size - pos) := by
        rw [List.length_take, List.length_drop, RamfsFile.contents_length]
      split_ifs with hempty
      · rw [hempty, List.length_nil] at hlength
        rw [List.drop_of_length_le]
        rw [RamfsFile.contents_length]
        omega
      · have hlong := List.length_pos_of_ne_nil hempty
        rw [ih (getFile_setFile hfile) hsize (by dsimp only [Kernel.setFile]; omega)
          (by dsimp only [Kernel.setFile]; omega)]
        rw [Option.map_some, ← List.drop_drop]
        dsimp only [Kernel.setFile]
        rw [hlength, List.take_eq_take_min, List.length_drop, RamfsFile.contents_length,
          List.take_append_drop]

end Descriptors

/-! The copy. -/

section Copy

variable {k : Kernel} {src dst : Int} {i j pos : Nat}

/-- The first `pos` bytes of slot `i` have been copied to slot `j`. -/
structure Copying (k : Kernel) (src dst : Int) (i j pos : Nat) : Prop where
  source : getFile k src = some ⟨.ramfs, i, pos⟩
  target : getFile k dst = some ⟨.ramfs, j, pos⟩
  descriptors : src ≠ dst
  slots : i ≠ j
  size : (k.ramfs i).size ≤ maxContent
  inside : pos ≤ (k.ramfs i).size
  copied : (k.ramfs j).contents = (k.ramfs i).contents.take pos

/-- A round of the loop before the end of the source. -/
theorem Copying.round (h : Copying k src dst i j pos) (hmore : pos < (k.ramfs i).size) :
    ∃ bytes k₁ k₂ rf, vfsRead k src 1024 = some (some bytes, k₁) ∧ bytes ≠ [] ∧
      vfsWrite k₁ dst bytes = some ((bytes.length : Int), k₂) ∧
      Copying k₂ src dst i j (pos + bytes.length) ∧
      k₂ = { k with fdTable := k₂.fdTable, ramfs := Function.update k.ramfs j rf } ∧
      rf.used = (k.ramfs j).used ∧ ∀ a < slotPath, rf.bytes a = (k.ramfs j).bytes a := by
  have hsize := h.size
  simp only [maxContent] at hsize
  set bytes := ((k.ramfs i).contents.drop pos).take 1024 with hbytes
  have hlength : bytes.length = min 1024 ((k.ramfs i).size - pos) := by
    rw [hbytes, List.length_take, List.length_drop, RamfsFile.contents_length]
  have hread := vfsRead_slot 1024 h.source (by omega)
  rw [← hbytes] at hread
  set k₁ := k.setFile src (some ⟨.ramfs, i, pos + bytes.length⟩) with hk₁
  have hsrc : 0 ≤ src := (getFile_eq_some.mp h.source).1
  have hdst : 0 ≤ dst := (getFile_eq_some.mp h.target).1
  have htarget : getFile k₁ dst = some ⟨.ramfs, j, pos⟩ :=
    getFile_setFile_of_ne hsrc h.target h.descriptors.symm
  have hend : (k₁.ramfs j).size = pos := by
    change (k.ramfs j).size = pos
    rw [← RamfsFile.contents_length, h.copied, List.length_take, RamfsFile.contents_length]
    omega
  obtain ⟨rf, hwrite, hcontents, hused, hpath⟩ := vfsWrite_slot bytes htarget hend
    (by simp only [maxContent]; omega)
  refine ⟨bytes, k₁, _, rf, hread, ?_, hwrite, ?_, rfl, hused, hpath⟩
  · intro hempty
    rw [hempty, List.length_nil] at hlength
    omega
  · have hkeep : Function.update k₁.ramfs j rf i = k.ramfs i := Function.update_of_ne h.slots _ _
    refine ⟨?_, ?_, h.descriptors, h.slots, ?_, ?_, ?_⟩
    · exact getFile_setFile_of_ne hdst (getFile_setFile h.source) h.descriptors
    · exact getFile_setFile htarget
    · dsimp only
      rw [hkeep]
      exact h.size
    · dsimp only
      rw [hkeep, hlength]
      omega
    · dsimp only
      rw [hkeep, Function.update_self, hcontents]
      change (k.ramfs j).contents ++ bytes = _
      have htake : ((k.ramfs i).contents.drop pos).take bytes.length = bytes := by
        rw [hbytes, List.length_take, ← List.take_eq_take_min]
      rw [h.copied, List.take_add, htake]

/-- The loop ends, and then the whole source has been copied. -/
theorem copyLoop_slots (fuel : Nat) : ∀ {k : Kernel} {pos : Nat}, Copying k src dst i j pos →
    (k.ramfs i).size < pos + fuel →
    ∃ k' rf, copyLoop src dst fuel k = some (true, k') ∧
      k' = { k with fdTable := k'.fdTable, ramfs := Function.update k.ramfs j rf } ∧
      rf.contents = (k.ramfs i).contents ∧ rf.used = (k.ramfs j).used ∧
      ∀ a < slotPath, rf.bytes a = (k.ramfs j).bytes a := by
  induction fuel with
  | zero =>
      intro k pos h hfuel
      have := h.inside
      omega
  | succ fuel ih =>
      intro k pos h hfuel
      rcases Nat.lt_or_ge pos (k.ramfs i).size with hmore | hend
      · obtain ⟨bytes, k₁, k₂, rf, hread, hne, hwrite, hnext, hk₂, hused, hpath⟩ := h.round hmore
        have hlong := List.length_pos_of_ne_nil hne
        have hsource : k₂.ramfs i = k.ramfs i := by
          rw [hk₂]
          exact Function.update_of_ne h.slots _ _
        have htarget : k₂.ramfs j = rf := by
          rw [hk₂]
          exact Function.update_self _ _ _
        obtain ⟨k', rf', hloop, hk', hcontents, hused', hpath'⟩ :=
          ih hnext (by rw [hsource]; omega)
        rw [hsource] at hcontents
        rw [htarget] at hused' hpath'
        refine ⟨k', rf', ?_, ?_, hcontents, hused'.trans hused,
          fun a ha => (hpath' a ha).trans (hpath a ha)⟩
        · simp only [copyLoop, hread, if_neg hne, hwrite, ne_eq, not_true_eq_false, if_false]
          exact hloop
        · rw [hk', hk₂]
          simp only [Function.update_idem]
      · have hread := vfsRead_slot 1024 h.source
          (by have := h.size; simp only [maxContent] at this; have := h.inside; omega)
        have hempty : ((k.ramfs i).contents.drop pos).take 1024 = [] := by
          rw [List.drop_of_length_le (by rw [RamfsFile.contents_length]; exact hend), List.take_nil]
        rw [hempty, List.length_nil, Nat.add_zero] at hread
        refine ⟨k.setFile src (some ⟨.ramfs, i, pos⟩), k.ramfs j, ?_, ?_, ?_, rfl, fun _ _ => rfl⟩
        · simp only [copyLoop, hread, if_true]
        · rw [Function.update_eq_self]
          rfl
        · rw [h.copied, List.take_of_length_le (by rw [RamfsFile.contents_length]; exact hend)]

end Copy

/-! Opening and creating a path below `/tmp`. -/

section Paths

variable {k : Kernel} {p : Process} {path : Str} {i : Nat}

theorem tmp_absolute (htmp : tmpPrefix <+: path) : path.head? = some slash := by
  obtain ⟨rest, rfl⟩ := htmp
  rfl

theorem openRoute_tmp (hcur : k.currentProcess = some p) (hns : p.ns = [])
    (htmp : tmpPrefix <+: path) (hlen : path.length < 256) :
    openRoute k path = some (some .ramfs, path) := by
  rw [openRoute, resolvePath, hcur]
  simp only [hns, List.find?_nil]
  rw [if_neg (by simp only [maxPath]; omega), Option.map_some,
    if_pos (List.isPrefixOf_iff_prefix.mpr htmp)]

theorem createRoute_tmp (k : Kernel) (htmp : tmpPrefix <+: path) (hlen : path.length < 256) :
    createRoute k path = some (some .ramfs, path) := by
  rw [createRoute_absolute k (tmp_absolute htmp) hlen,
    mountRoute_absolute k (tmp_absolute htmp) hlen, if_pos (tmpMount_start htmp)]

/-- Opening the file of a slot fails only for want of heap or of a descriptor. -/
theorem vfsOpen_tmp (hcur : k.currentProcess = some p) (hns : p.ns = [])
    (htmp : tmpPrefix <+: path) (hlen : path.length < 256) (hfind : ramfsFind k.ramfs path = some i) :
    if (kalloc k.heapPos vfsFileSize).1.isSome ∧ k.nextFd < 32 then
      vfsOpen k path = some ((k.nextFd : Int),
        { k with heapPos := (kalloc k.heapPos vfsFileSize).2 }.withFile ⟨.ramfs, i, 0⟩)
    else ∃ k', vfsOpen k path = some (-1, k') := by
  simp only [vfsOpen, openRoute_tmp hcur hns htmp hlen, fsOpen, ramfsOpen, hfind]
  cases hkalloc : kalloc k.heapPos vfsFileSize with
  | mk addr heapPos =>
      cases addr with
      | none =>
          rw [if_neg (by simp)]
          exact ⟨_, rfl⟩
      | some addr =>
          rcases allocFd_cases { k with heapPos := heapPos } ⟨.ramfs, i, 0⟩ with
            ⟨hfull, halloc⟩ | ⟨hroom, halloc⟩
          · rw [if_neg (by rintro ⟨_, hroom⟩; exact absurd hroom (Nat.not_lt.mpr hfull))]
            exact ⟨_, congrArg some halloc⟩
          · rw [if_pos ⟨rfl, hroom⟩]
            exact congrArg some halloc

/-- A create gives a descriptor on a slot that was free before, or -1. -/
theorem vfsCreate_tmp (k : Kernel) (htmp : tmpPrefix <+: path) (hlen : path.length < 32) :
    (∃ k', vfsCreate k path = some (-1, k')) ∨
      ∃ j heapPos, ramfsFree k.ramfs = some j ∧ k.nextFd < 32 ∧
        vfsCreate k path = some ((k.nextFd : Int),
          { k with
            heapPos := heapPos
            ramfs := Function.update k.ramfs j (newSlot (k.ramfs j) path true) }.withFile
              ⟨.ramfs, j, 0⟩) := by
  have hfull : ¬path.length ≥ slotPath := Nat.not_le.mpr hlen
  simp only [vfsCreate, createRoute_tmp k htmp (by omega), fsCreate, ramfsCreate,
    ramfsFullPath_of_tmp htmp, if_neg hfull]
  cases hfree : ramfsFree k.ramfs with
  | none => exact Or.inl ⟨_, rfl⟩
  | some j =>
      cases hkalloc : kalloc k.heapPos vfsFileSize with
      | mk addr heapPos =>
          cases addr with
          | none => exact Or.inl ⟨_, rfl⟩
          | some addr =>
              rcases allocFd_cases { k with
                heapPos := heapPos
                ramfs := Function.update k.ramfs j (newSlot (k.ramfs j) path true) }
                ⟨.ramfs, j, 0⟩ with ⟨_, halloc⟩ | ⟨hroom, halloc⟩
              · exact Or.inl ⟨_, congrArg some halloc⟩
              · exact Or.inr ⟨j, heapPos, rfl, hroom, congrArg some halloc⟩

theorem vfsClose_kernel (k : Kernel) (fd : Int) :
    (vfsClose k fd).2 = { k with fdTable := (vfsClose k fd).2.fdTable } := by
  rw [vfsClose]
  split <;> rfl

end Paths

/-! The message. -/

section Message

variable {k : Kernel} {p : Process} {src dst : CString} {i : Nat}

/-- Between two paths below `/tmp`, a copy that has made its new file completes. -/
theorem copyFile_tmp (hcur : k.currentProcess = some p) (hns : p.ns = [])
    (hsrc : tmpPrefix <+: src.chars) (hdst : tmpPrefix <+: dst.chars)
    (hsrclen : src.chars.length < 32) (hdstlen : dst.chars.length < 32)
    (hfind : ramfsFind k.ramfs src.chars = some i) (hsize : (k.ramfs i).size ≤ maxContent) :
    (∃ k', copyFile k src.chars dst.chars = some (none, k')) ∨
      ∃ k' j rf, copyFile k src.chars dst.chars = some (some true, k') ∧
        ramfsFree k.ramfs = some j ∧ i ≠ j ∧ k'.currentProcess = some p ∧
        k'.ramfs = Function.update k.ramfs j rf ∧ rf.contents = (k.ramfs i).contents ∧
        rf.used = true ∧
        ∀ a < slotPath, rf.bytes a = (newSlot (k.ramfs j) dst.chars true).bytes a := by
  have hopen := vfsOpen_tmp hcur hns hsrc (by omega) hfind
  split_ifs at hopen with hroom
  · set k₁ := { k with heapPos := (kalloc k.heapPos vfsFileSize).2 }.withFile ⟨.ramfs, i, 0⟩
    have hpos : ¬((k.nextFd : Int) < 0) := by omega
    rcases vfsCreate_tmp k₁ hdst hdstlen with ⟨k', hcreate⟩ | ⟨j, heapPos, hfree, hnext, hcreate⟩
    · left
      exact ⟨_, by simp only [copyFile, hopen, if_neg hpos, hcreate]; rfl⟩
    · have hne : i ≠ j := by
        rintro rfl
        have hused := (ramfsFind_some hfind).2
        have hunused : (k.ramfs i).used = false := (ramfsFree_some hfree).2
        rw [hused] at hunused
        cases hunused
      have hpos' : ¬((k₁.nextFd : Int) < 0) := by omega
      set k₂ := { k₁ with
        heapPos := heapPos
        ramfs := Function.update k₁.ramfs j (newSlot (k₁.ramfs j) dst.chars true) }.withFile
          ⟨.ramfs, j, 0⟩ with hk₂
      have hsource : k₂.ramfs i = k.ramfs i := Function.update_of_ne hne _ _
      have htarget : k₂.ramfs j = newSlot (k.ramfs j) dst.chars true := Function.update_self _ _ _
      -- the descriptors are two consecutive entries of the table
      have hlow : k₁.nextFd = k.nextFd + 1 := rfl
      have hapart : (k.nextFd : Int) ≠ k₁.nextFd := by
        rw [hlow]
        omega
      have hcopying : Copying k₂ k.nextFd k₁.nextFd i j 0 := by
        refine ⟨?_, getFile_withFile _ _ hnext, hapart, hne, ?_, Nat.zero_le _, ?_⟩
        · refine getFile_eq_some.mpr ⟨by omega, by omega, ?_⟩
          calc k₂.fdTable (k.nextFd : Int).toNat
            _ = k₁.fdTable k.nextFd :=
                Function.update_of_ne (show k.nextFd ≠ k.nextFd + 1 by omega) _ _
            _ = some ⟨.ramfs, i, 0⟩ := Function.update_self _ _ _
        · rw [hsource]
          exact hsize
        · rw [htarget, List.take_zero]
          rfl
      obtain ⟨k₃, rf, hloop, hk₃, hcontents, hused, hpath⟩ :=
        copyLoop_slots (2 ^ 64) hcopying (by
          have hlimit : maxContent < 2 ^ 64 := by decide
          rw [hsource]
          omega)
      rw [hsource] at hcontents
      rw [htarget] at hused hpath
      right
      refine ⟨(vfsClose (vfsClose k₃ k.nextFd).2 k₁.nextFd).2, j, rf, ?_, hfree, hne, ?_, ?_,
        hcontents, hused, hpath⟩
      · simp only [copyFile, hopen, if_neg hpos, hcreate, if_neg hpos', hloop, Option.map_some]
      · rw [vfsClose_kernel, vfsClose_kernel, hk₃]
        exact hcur
      · rw [vfsClose_kernel, vfsClose_kernel, hk₃]
        dsimp only
        rw [hk₂]
        exact Function.update_idem _ _ _
  · obtain ⟨k', hopen⟩ := hopen
    left
    exact ⟨k', by simp only [copyFile, hopen]; rfl⟩

/-- What a copy from slot `i` to the path `dst` leaves behind. -/
def CopiedTo (k k' : Kernel) (src dst : Str) (i : Nat) : Prop :=
  ∃ j ≠ i, (k.ramfs j).used = false ∧ (∀ l ≠ j, k'.ramfs l = k.ramfs l) ∧
    ramfsFind k'.ramfs src = some i ∧ ramfsFind k'.ramfs dst = some j ∧
    (k'.ramfs j).size = (k.ramfs i).size ∧ (k'.ramfs j).contents = (k.ramfs i).contents ∧
    ReadsAs k' dst (k.ramfs i).contents

/-- A slot that was free and now holds the source's contents under the destination's name. -/
theorem copiedTo_of_slot {k' : Kernel} {j : Nat} {rf : RamfsFile}
    (hcur : k'.currentProcess = some p) (hns : p.ns = []) (hdst : tmpPrefix <+: dst.chars)
    (hdstlen : dst.chars.length < 32) (hfind : ramfsFind k.ramfs src.chars = some i)
    (hsize : (k.ramfs i).size ≤ 4096) (hfresh : ramfsFind k.ramfs dst.chars = none)
    (hfree : ramfsFree k.ramfs = some j) (hne : i ≠ j)
    (hramfs : k'.ramfs = Function.update k.ramfs j rf)
    (hcontents : rf.contents = (k.ramfs i).contents) (hused : rf.used = true)
    (hpath : ∀ a < slotPath, rf.bytes a = (newSlot (k.ramfs j) dst.chars true).bytes a) :
    CopiedTo k k' src.chars dst.chars i := by
  obtain ⟨hj, hunused, _⟩ := ramfsFree_eq_some.mp hfree
  have hself : k'.ramfs j = rf := by
    rw [hramfs, Function.update_self]
  have hstores : ∀ {path : Str}, 0 ∉ path → (rf.Stores path ↔ path = dst.chars) := by
    intro path hnul
    rw [RamfsFile.Stores, strEq_newSlot _ hpath hdstlen dst.nul_free hnul]
    exact and_iff_right hused
  have hdiffer : src.chars ≠ dst.chars := by
    intro heq
    rw [heq, hfresh] at hfind
    cases hfind
  have hfound : ramfsFind k'.ramfs dst.chars = some j := by
    refine ramfsFind_eq_some.mpr ⟨hj, ?_, fun l hl => ?_⟩
    · rw [hself]
      exact (hstores dst.nul_free).mpr rfl
    · rw [hramfs, Function.update_of_ne (by omega)]
      exact ramfsFind_eq_none.mp hfresh l (by omega)
  have hlength : (k'.ramfs j).size = (k.ramfs i).size := by
    rw [hself, ← RamfsFile.contents_length, hcontents, RamfsFile.contents_length]
  refine ⟨j, hne.symm, hunused, fun l hl => ?_, ?_, hfound, hlength, by rw [hself, hcontents], ?_⟩
  · rw [hramfs, Function.update_of_ne hl]
  · rw [hramfs, ramfsFind_update_other hunused, hfind]
    exact fun h => hdiffer ((hstores src.nul_free).mp h)
  have hopen := vfsOpen_tmp hcur hns hdst (by omega) hfound
  split_ifs at hopen with hroom
  · refine ⟨_, _, hopen, ?_⟩
    rw [if_pos hroom]
    refine ⟨by omega, fun chunk hchunk hsmall => ?_⟩
    rw [← hcontents, ← hself, RamfsFile.contents_length]
    have hfile := getFile_withFile { k' with heapPos := (kalloc k'.heapPos vfsFileSize).2 }
      ⟨.ramfs, j, 0⟩ hroom.2
    refine readAll_slot hchunk hsmall _ hfile ?_ (Nat.zero_le _) ?_
    · exact hlength.trans_le hsize
    · exact Nat.lt_of_lt_of_le (Nat.lt_succ_self _) (Nat.le_add_left _ _)
  · obtain ⟨k'', hopen⟩ := hopen
    exact ⟨_, k'', hopen, by rw [if_neg hroom]⟩

/-- A copy within RAMFS comes to an end, and a result of zero means that the destination reads as
the source while nothing else has changed, as long as a descriptor and the heap for it are left. -/
theorem copy_within_ramfs (out : Outside) (k : Kernel) (p : Process) (msg : Message)
    (src dst : CString) (i : Nat) (hcur : k.currentProcess = some p) (hns : p.ns = [])
    (htype : MsgType.all[msg.type]? = some .copy) (hsrcText : k.text msg.path = some src.chars)
    (hdstText : k.text msg.data = some dst.chars) (hsrc : tmpPrefix <+: src.chars)
    (hdst : tmpPrefix <+: dst.chars) (hsrclen : src.chars.length < 32)
    (hdstlen : dst.chars.length < 32) (hfind : ramfsFind k.ramfs src.chars = some i)
    (hsize : (k.ramfs i).size ≤ 4096) (hfresh : ramfsFind k.ramfs dst.chars = none) :
    ∃ result k', sendMessage out k msg = some (result, msg, k') ∧ (result = 0 ∨ result = -1) ∧
      (result = 0 → CopiedTo k k' src.chars dst.chars i) := by
  have hsend : sendMessage out k msg = withPaths k msg (copyMessage k) := by
    simp only [sendMessage, htype]
  rw [hsend, withPaths]
  by_cases hnull : msg.path = 0 ∨ msg.data = 0
  · rw [if_pos hnull]
    exact ⟨-1, k, rfl, Or.inr rfl, fun h => absurd h (by decide)⟩
  rw [if_neg hnull]
  simp only [hsrcText, hdstText]
  rcases copyFile_tmp hcur hns hsrc hdst hsrclen hdstlen hfind hsize with ⟨k', hcopy⟩ |
    ⟨k', j, rf, hcopy, hfree, hne, hcur', hramfs, hcontents, hused, hpath⟩
  · refine ⟨-1, k', ?_, Or.inr rfl, fun h => absurd h (by decide)⟩
    simp only [copyMessage, hcopy, Option.map_some]
    rfl
  refine ⟨0, k', ?_, Or.inl rfl, fun _ => ?_⟩
  · simp only [copyMessage, hcopy, Option.map_some]
    rfl
  exact copiedTo_of_slot hcur' hns hdst hdstlen hfind hsize hfresh hfree hne hramfs hcontents hused
    hpath

end Message

/-- The shell asks for `/tmp/a`, which the kernel brought along, to be copied to `/tmp/b`. -/
def copyShell : Kernel :=
  { shellKernel (store (store (fun _ => 0) 4096 tmpA.chars) 5000 tmpB.chars) with
    ramfs := (ramfsCreateFile ramfsInit tmpA.chars (ascii "hi")).2 }

def copyRequest : Message := ⟨17, 4096, 0, 5000, 0, 0, 0, 0, 0, 0, 0, 0, 0⟩

theorem copy_within_ramfs_two_files : ∃ k',
    sendMessage ⟨⟨0, 0⟩, 0, some⟩ copyShell copyRequest = some (0, copyRequest, k') ∧
      CopiedTo copyShell k' tmpA.chars tmpB.chars 0 := by
  obtain ⟨result, k', hsend, -, hcopied⟩ := copy_within_ramfs ⟨⟨0, 0⟩, 0, some⟩ copyShell
    shellProcess copyRequest tmpA tmpB 0 rfl rfl rfl (by decide +kernel) (by decide +kernel)
    (by decide) (by decide) (by decide) (by decide) (by decide +kernel) (by decide +kernel)
    (by decide +kernel)
  have hresult : (sendMessage ⟨⟨0, 0⟩, 0, some⟩ copyShell copyRequest).map Prod.fst = some 0 := by
    decide +kernel
  rw [hsend] at hresult
  obtain rfl : result = 0 := Option.some.inj hresult
  exact ⟨k', hsend, hcopied rfl⟩

/-- The copy has taken the last two descriptors, and its file cannot be opened. -/
theorem copied_file_cannot_be_opened :
    ramfsFind copyShell.ramfs tmpA.chars = some 0 ∧ ramfsFind copyShell.ramfs tmpB.chars = none ∧
      ∃ k' k'', sendMessage ⟨⟨0, 0⟩, 0, some⟩ { copyShell with nextFd := 30 } copyRequest =
          some (0, copyRequest, k') ∧ vfsOpen k' tmpB.chars = some (-1, k'') := by
  have hresult : (sendMessage ⟨⟨0, 0⟩, 0, some⟩ { copyShell with nextFd := 30 } copyRequest).map
      (fun answer => (answer.1, answer.2.1, (vfsOpen answer.2.2 tmpB.chars).map Prod.fst)) =
        some (0, copyRequest, some (-1)) := by decide +kernel
  obtain ⟨⟨result, msg, k'⟩, hsend, heq⟩ := Option.map_eq_some_iff.mp hresult
  simp only [Prod.mk.injEq, Option.map_eq_some_iff] at heq
  obtain ⟨rfl, rfl, ⟨fd, k''⟩, hopen, rfl⟩ := heq
  exact ⟨by decide +kernel, by decide +kernel, k', k'', hsend, hopen⟩

end Chthon
