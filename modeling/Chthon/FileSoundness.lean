import Chthon.AbyssOpen
import Chthon.AbyssReach
import Chthon.MoveMessage

/-! What the calls of the VFS leave of the files. Both file systems stay as their own calls make them,
and a handle keeps to its slot or inode. A descriptor that stays with a program comes from `vfs_open`,
since the creates of messages close theirs; on AbyssFS it is bound to inode 0, which no call ever gives
data. -/

namespace Chthon

open ByteMemory Run

/-! AbyssFS. -/

/-- The volume is as its calls leave it, and inode 0 has no data. -/
structure AbyssSound (s : Abyssfs) : Prop where
  reached : AbyssReached s
  empty : size s.mem (inodeAddr 0) = 0

section Volume

variable {s s' : Abyssfs}

theorem AbyssSound.boot (s : Abyssfs) : AbyssSound (bootVolume s).fs where
  reached := .boot s
  empty := by
    rw [(boot_inode s (by decide)).size]
    exact boot_word s (by decide) (by decide) (by decide)

theorem AbyssSound.create (h : AbyssSound s) {heapPos heapPos' : Nat} {cwd : Option Str}
    {path : Str} {file : Option VfsFile}
    (hcall : abyssfsCreate heapPos s cwd path = some (file, heapPos', s')) : AbyssSound s' := by
  refine ⟨h.reached.create hcall, ?_⟩
  have hrange := h.reached.blocksInRange
  rcases abyssfsCreate_cases hcall with ⟨_, rfl, _⟩ | ⟨i, hi1, _, _, _, ⟨_, rfl⟩ |
    ⟨p, filename, b, e, m', hparent, hdir, happend, rfl, _⟩⟩
  · exact h.empty
  · exact (freshInode_other s.mem (by omega)).size.trans h.empty
  · have hb := (hrange.fresh i).directory (createParent_addr hparent).1 hdir
    have hsame := SameInode.of_data (n := 0) (by decide) (appendEntry_table happend hb)
    exact hsame.size.trans ((freshInode_other s.mem (by omega)).size.trans h.empty)

theorem AbyssSound.mkdir (h : AbyssSound s) {path : Str} {result : Int}
    (hcall : abyssfsMkdir s path = some (result, s')) : AbyssSound s' := by
  refine ⟨h.reached.mkdir hcall, ?_⟩
  have hrange := h.reached.blocksInRange
  cases abyssfsMkdir_outcome hcall with
  | noParent => exact h.empty
  | noInode => exact h.empty
  | noBlock _ hi => exact (freshInode_other s.mem (by omega)).size.trans h.empty
  | noDirectory _ hi _ hb =>
      exact (preparedDir_other s.mem _ hb.1 (by decide) (by omega)).size.trans h.empty
  | @made p num base i b pb e m' hparent hi hb hdir happend =>
      have hpb := (hrange.prepared num hi.2 hb.1 hb.2).directory (mkdirParent_addr hparent).1 hdir
      have hsame := SameInode.of_data (n := 0) (by decide) (appendEntry_table happend hpb)
      have hother : SameInode s.mem (preparedDir s.mem i b num) 0 :=
        preparedDir_other s.mem num hb.1 (by decide) (by omega)
      exact hsame.size.trans (hother.size.trans h.empty)

theorem AbyssSound.unlink (h : AbyssSound s) {path : Str} {result : Int}
    (hcall : abyssfsUnlink s path = some (result, s')) : AbyssSound s' := by
  refine ⟨h.reached.unlink hcall, ?_⟩
  unfold abyssfsUnlink at hcall
  dsimp only at hcall
  split at hcall
  · cases hcall
  · cases hcall
    exact h.empty
  · rename_i dir hfind
    have hdir : 36864 ≤ dir := findEntry_ge heapSize hfind
    obtain ⟨m, hremove, heq⟩ := Option.map_eq_some_iff.mp hcall
    cases heq
    have hsame : SameInode (releaseInode s (entryInode s.mem dir)).mem m 0 :=
      SameInode.of_data (by decide) fun x hx => removeEntry_below hremove (by omega)
    exact hsame.size.trans ((releaseInode_size s _ 0).trans h.empty)

/-- A write through a handle that was created. -/
theorem AbyssSound.write (h : AbyssSound s) {file : VfsFile} (hlt : file.privateData < 512)
    (hne : file.privateData ≠ 0) (data : Str) : AbyssSound (abyssfsWrite s file data).2 := by
  refine ⟨h.reached.write file data, ?_⟩
  have hrange : blocks s.mem (inodeAddr file.privateData) < 64 := by
    rcases h.reached.blocksInRange _ hlt with hzero | ⟨_, hblock⟩
    · omega
    · exact hblock
  rcases abyssfsWrite_cases s file data rfl hlt hrange with
    ⟨_, _, hcall⟩ | ⟨b, _, hb9, _, _, hcall⟩ | ⟨hblock, hcall⟩
  · rw [hcall]
    exact h.empty
  · rw [hcall]
    have hentry := SameInode.write32 s.mem 8 b (n := 0) (by decide) hne.symm
    exact (writtenFile_other _ hb9 (by decide) hne.symm).size.trans (hentry.size.trans h.empty)
  · rw [hcall]
    have hb9 := ((h.reached.blocksInRange _ hlt).resolve_left hblock).1
    exact (writtenFile_other _ hb9 (by decide) hne.symm).size.trans h.empty

end Volume

/-! RAMFS. -/

/-- Every file is empty or has the contents of one that was there. -/
def NoNewData (fs fs' : Ramfs) : Prop :=
  ∀ i, (fs' i).contents = [] ∨ ∃ j, (fs' i).contents = (fs j).contents

section Slots

variable {fs fs' fs'' : Ramfs} {path : Str}

theorem NoNewData.refl (fs : Ramfs) : NoNewData fs fs := fun i => .inr ⟨i, rfl⟩

theorem NoNewData.trans (h : NoNewData fs fs') (h' : NoNewData fs' fs'') : NoNewData fs fs'' := by
  intro i
  rcases h' i with hempty | ⟨j, hj⟩
  · exact .inl hempty
  · rw [hj]
    exact h j

/-- A slot is replaced. -/
theorem NoNewData.update {rf : RamfsFile} (i : Nat)
    (h : rf.contents = [] ∨ ∃ j, rf.contents = (fs j).contents) :
    NoNewData fs (Function.update fs i rf) := by
  intro j
  by_cases hj : j = i
  · subst hj
    rw [Function.update_self]
    exact h
  · rw [Function.update_of_ne hj]
    exact .inr ⟨j, rfl⟩

theorem NoNewData.create {heapPos heapPos' : Nat} {file : Option VfsFile}
    (h : ramfsCreate heapPos fs path = some (file, heapPos', fs')) : NoNewData fs fs' := by
  cases file with
  | none =>
      rcases ramfsCreate_none h with ⟨-, rfl⟩ | ⟨i, -, -, -, rfl⟩
      · exact .refl _
      · exact .update i (.inl rfl)
  | some file =>
      obtain ⟨i, -, -, -, rfl⟩ := ramfsCreate_some h
      exact .update i (.inl rfl)

theorem NoNewData.unlink (fs : Ramfs) (path : Str) : NoNewData fs (ramfsUnlink fs path).2 := by
  rw [ramfsUnlink]
  split
  · exact .refl fs
  · exact .update _ (.inl rfl)

theorem NoNewData.mkdir (fs : Ramfs) (path : Str) : NoNewData fs (ramfsMkdir fs path).2 := by
  rw [ramfsMkdir]
  split
  · exact .refl fs
  · exact .update _ (.inl rfl)

end Slots

/-! Handles and descriptors. -/

/-- What a handle of either file system stays. -/
def VfsFile.Fits (file : VfsFile) : Prop :=
  match file.fOps with
  | .ramfs => file.privateData < maxFiles ∧ file.fPos ≤ maxContent
  | .abyssfs => file.privateData < maxInodes

/-- On AbyssFS, a handle of `abyssfs_open`. -/
def VfsFile.Opened (file : VfsFile) : Prop := file.fOps = .abyssfs → file.privateData = 0

/-- The bytes in the file of a handle. -/
def fileSize (k : Kernel) (file : VfsFile) : Nat :=
  match file.fOps with
  | .ramfs => (k.ramfs file.privateData).size
  | .abyssfs => size k.abyss.mem (inodeAddr file.privateData)

/-- A handle that an open in this state gives out. -/
structure VfsFile.OpenedIn (k : Kernel) (file : VfsFile) : Prop where
  fits : file.Fits
  start : file.fPos = 0
  opened : file.Opened
  used : file.fOps = .ramfs → (k.ramfs file.privateData).used = true

/-- A handle that a create gives out, on a file that was free and is empty. -/
structure VfsFile.CreatedIn (k k' : Kernel) (file : VfsFile) : Prop where
  fits : file.Fits
  start : file.fPos = 0
  created : file.fOps = .abyssfs → file.privateData ≠ 0
  unused : file.fOps = .ramfs → (k.ramfs file.privateData).used = false
  empty : fileSize k' file = 0

/-- The volumes are sound, with no data on RAMFS that was not there. -/
structure VolumesKept (k k' : Kernel) : Prop where
  abyss : AbyssSound k'.abyss
  ramfs : RamfsReached k'.ramfs
  data : NoNewData k.ramfs k'.ramfs

/-- The files are sound, and so is every handle in the descriptor table. -/
structure FilesSound (k : Kernel) : Prop where
  abyss : AbyssSound k.abyss
  ramfs : RamfsReached k.ramfs
  handles : ∀ fd file, k.fdTable fd = some file → file.Fits

/-- Between the traps, moreover, no descriptor comes from a create. -/
structure TrapSound (k : Kernel) : Prop extends FilesSound k where
  opened : ∀ fd file, k.fdTable fd = some file → file.Opened

/-- The descriptor that was given to a file. -/
structure Given (k : Kernel) (fd : Int) (file : VfsFile) (k' : Kernel) : Prop where
  fd_eq : fd = k.nextFd
  room : k.nextFd < maxFd
  table : k'.fdTable = Function.update k.fdTable k.nextFd (some file)
  next : k'.nextFd = k.nextFd + 1

section Descriptors

variable {k k' k₁ : Kernel} {fd result : Int} {path : Str} {file : VfsFile}

theorem Given.getFile (h : Given k fd file k') : getFile k' fd = some file := by
  rw [getFile_eq_some, h.fd_eq, h.table, Int.toNat_natCast, Function.update_self]
  have hroom := h.room
  simp only [maxFd] at hroom
  exact ⟨by omega, by omega, rfl⟩

/-- An entry of the table afterwards. -/
theorem Given.entry (h : Given k fd file k') {n : Nat} {f : VfsFile} (hf : k'.fdTable n = some f) :
    f = file ∨ k.fdTable n = some f := by
  rw [h.table] at hf
  by_cases hn : n = k.nextFd
  · subst hn
    rw [Function.update_self] at hf
    exact .inl (Option.some.inj hf).symm
  · rw [Function.update_of_ne hn] at hf
    exact .inr hf

theorem Given.congr (h : Given k₁ fd file k') (htable : k₁.fdTable = k.fdTable)
    (hnext : k₁.nextFd = k.nextFd) : Given k fd file k' where
  fd_eq := hnext ▸ h.fd_eq
  room := hnext ▸ h.room
  table := by rw [h.table, htable, hnext]
  next := by rw [h.next, hnext]

theorem allocFd_given {k : Kernel} {file : VfsFile} (h : allocFd k file = (fd, k')) :
    fd < 0 ∧ k' = k ∨ k'.abyss = k.abyss ∧ k'.ramfs = k.ramfs ∧ Given k fd file k' := by
  rcases allocFd_cases k file with ⟨_, halloc⟩ | ⟨hroom, halloc⟩
  · rw [halloc] at h
    cases h
    exact .inl ⟨by decide, rfl⟩
  · rw [halloc] at h
    cases h
    exact .inr ⟨rfl, rfl, rfl, hroom, rfl, rfl⟩

theorem fsOpen_handle {fs : FileOps} (h : (fsOpen k path fs).1 = some file) :
    file.OpenedIn k ∧ file.fOps = fs := by
  cases fs with
  | ramfs =>
      change (ramfsOpen k.heapPos k.ramfs path).1 = some file at h
      unfold ramfsOpen at h
      split at h
      · cases h
      · rename_i i hfind
        obtain ⟨hi, hused⟩ := ramfsFind_some hfind
        split at h <;> cases h
        exact ⟨⟨⟨hi, Nat.zero_le _⟩, rfl, nofun, fun _ => hused⟩, rfl⟩
  | abyssfs =>
      change (abyssfsOpen k.heapPos path).1 = some file at h
      rcases abyssfsOpen_cases k.heapPos path with ⟨-, hopen⟩ | ⟨-, hopen⟩ <;> rw [hopen] at h <;> cases h
      exact ⟨⟨show 0 < maxInodes by decide, rfl, fun _ => rfl, nofun⟩, rfl⟩

/-- An open changes no file, and gives out at most one handle. -/
theorem vfsOpen_given (h : vfsOpen k path = some (fd, k')) :
    k'.abyss = k.abyss ∧ k'.ramfs = k.ramfs ∧
      (fd < 0 ∧ k'.fdTable = k.fdTable ∨ ∃ file, file.OpenedIn k ∧ Given k fd file k' ∧
        ∃ resolved, openRoute k path = some (some file.fOps, resolved)) := by
  obtain ⟨hramfs, habyss⟩ := vfsOpen_files h
  refine ⟨habyss, hramfs, ?_⟩
  unfold vfsOpen at h
  split at h
  · cases h
  · cases h
    exact .inl ⟨by decide, rfl⟩
  · rename_i fs resolved hroute
    have htable : (fsOpen k resolved fs).2.fdTable = k.fdTable ∧
        (fsOpen k resolved fs).2.nextFd = k.nextFd := by
      cases fs <;> exact ⟨rfl, rfl⟩
    split at h
    · rename_i hopen
      rw [hopen] at htable
      cases h
      exact .inl ⟨by decide, htable.1⟩
    · rename_i file k₁ hopen
      rw [hopen] at htable
      rcases allocFd_given (Option.some.inj h) with ⟨hneg, rfl⟩ | ⟨-, -, hgiven⟩
      · exact .inl ⟨hneg, htable.1⟩
      · obtain ⟨hopened, rfl⟩ := fsOpen_handle (congrArg Prod.fst hopen)
        exact .inr ⟨file, hopened, hgiven.congr htable.1 htable.2, resolved, hroute⟩

theorem VolumesKept.refl (hk : FilesSound k) : VolumesKept k k := ⟨hk.abyss, hk.ramfs, .refl _⟩

theorem VolumesKept.trans (h : VolumesKept k k₁) (h' : VolumesKept k₁ k') : VolumesKept k k' :=
  ⟨h'.abyss, h'.ramfs, h.data.trans h'.data⟩

theorem VolumesKept.same (h : VolumesKept k k₁) (habyss : k'.abyss = k₁.abyss)
    (hramfs : k'.ramfs = k₁.ramfs) : VolumesKept k k' :=
  ⟨habyss ▸ h.abyss, hramfs ▸ h.ramfs, hramfs ▸ h.data⟩

/-- What a create does to the files and the handle it gives out. -/
theorem fsCreate_handle {fs : FileOps} {file : Option VfsFile} (hk : FilesSound k)
    (h : fsCreate k path fs = some (file, k')) :
    VolumesKept k k' ∧ k'.fdTable = k.fdTable ∧ k'.nextFd = k.nextFd ∧
      ∀ f ∈ file, f.CreatedIn k k' := by
  cases fs with
  | ramfs =>
      obtain ⟨⟨file', heapPos, fs⟩, hcreate, heq⟩ := Option.map_eq_some_iff.mp h
      cases heq
      refine ⟨⟨hk.abyss, hk.ramfs.create hcreate, .create hcreate⟩, rfl, rfl, ?_⟩
      rintro f rfl
      obtain ⟨i, hfree, rfl, -, rfl⟩ := ramfsCreate_some hcreate
      obtain ⟨hi, hunused⟩ := ramfsFree_some hfree
      refine ⟨⟨hi, Nat.zero_le _⟩, rfl, nofun, fun _ => hunused, ?_⟩
      dsimp only [fileSize]
      rw [Function.update_self]
      rfl
  | abyssfs =>
      obtain ⟨⟨file', heapPos, fs⟩, hcreate, heq⟩ := Option.map_eq_some_iff.mp h
      cases heq
      refine ⟨⟨hk.abyss.create hcreate, hk.ramfs, .refl _⟩, rfl, rfl, ?_⟩
      rintro f rfl
      rcases abyssfsCreate_cases hcreate with ⟨hnone, -⟩ | ⟨i, hi1, hi, -, -, ⟨hnone, -⟩ |
        ⟨p, filename, b, e, m', hparent, hdir, happend, rfl, hnone | hfile⟩⟩
      · cases hnone
      · cases hnone
      · cases hnone
      · cases hfile
        refine ⟨hi, rfl, fun _ => Nat.ne_of_gt hi1, nofun, ?_⟩
        have hb := (hk.abyss.reached.blocksInRange.fresh i).directory (createParent_addr hparent).1 hdir
        exact (SameInode.of_data hi (appendEntry_table happend hb)).size.trans (freshInode_size _ i)

theorem vfsCreate_given (hk : FilesSound k) (h : vfsCreate k path = some (fd, k')) :
    VolumesKept k k' ∧
      (fd < 0 ∧ k'.fdTable = k.fdTable ∨ ∃ file, file.CreatedIn k k' ∧ Given k fd file k') := by
  unfold vfsCreate at h
  split at h
  · cases h
  · cases h
    exact ⟨.refl hk, .inl ⟨by decide, rfl⟩⟩
  · split at h
    · cases h
    · rename_i hcreate
      cases h
      obtain ⟨hkept, htable, -, -⟩ := fsCreate_handle hk hcreate
      exact ⟨hkept, .inl ⟨by decide, htable⟩⟩
    · rename_i file k₁ hcreate
      obtain ⟨hkept, htable, hnext, hfile⟩ := fsCreate_handle hk hcreate
      rcases allocFd_given (Option.some.inj h) with ⟨hneg, rfl⟩ | ⟨habyss, hramfs, hgiven⟩
      · exact ⟨hkept, .inl ⟨hneg, htable⟩⟩
      · have hcreated := hfile file rfl
        refine ⟨hkept.same habyss hramfs, .inr ⟨file, ?_, hgiven.congr htable hnext⟩⟩
        refine { hcreated with empty := ?_ }
        rw [fileSize, habyss, hramfs]
        exact hcreated.empty

/-! The calls keep the files sound. -/

theorem FilesSound.given (hk : FilesSound k) (hkept : VolumesKept k k') (hgiven : Given k fd file k')
    (hfits : file.Fits) : FilesSound k' := by
  refine ⟨hkept.abyss, hkept.ramfs, fun n f hf => ?_⟩
  rcases hgiven.entry hf with rfl | hold
  · exact hfits
  · exact hk.handles n f hold

theorem FilesSound.openPath (hk : FilesSound k) (h : vfsOpen k path = some (fd, k')) :
    FilesSound k' ∧ VolumesKept k k' := by
  obtain ⟨habyss, hramfs, hgiven⟩ := vfsOpen_given h
  have hkept := (VolumesKept.refl hk).same habyss hramfs
  rcases hgiven with ⟨-, htable⟩ | ⟨file, hfile, hgiven, -⟩
  · exact ⟨⟨hkept.abyss, hkept.ramfs, htable ▸ hk.handles⟩, hkept⟩
  · exact ⟨hk.given hkept hgiven hfile.fits, hkept⟩

theorem FilesSound.create (hk : FilesSound k) (h : vfsCreate k path = some (fd, k')) :
    FilesSound k' := by
  obtain ⟨hkept, ⟨-, htable⟩ | ⟨file, hfile, hgiven⟩⟩ := vfsCreate_given hk h
  · exact ⟨hkept.abyss, hkept.ramfs, htable ▸ hk.handles⟩
  · exact hk.given hkept hgiven hfile.fits

/-- An entry after one has been replaced. -/
theorem setFile_entry {entry : Option VfsFile} {n : Nat} {f : VfsFile}
    (h : (k.setFile fd entry).fdTable n = some f) : entry = some f ∨ k.fdTable n = some f := by
  change Function.update k.fdTable fd.toNat entry n = some f at h
  by_cases hn : n = fd.toNat
  · rw [hn, Function.update_self] at h
    exact .inl h
  · rw [Function.update_of_ne hn] at h
    exact .inr h

theorem FilesSound.setFile (hk : FilesSound k) (fd : Int) {entry : Option VfsFile}
    (hentry : ∀ f ∈ entry, f.Fits) : FilesSound (k.setFile fd entry) := by
  refine ⟨hk.abyss, hk.ramfs, fun n f hf => ?_⟩
  rcases setFile_entry hf with rfl | hold
  · exact hentry f rfl
  · exact hk.handles n f hold

theorem FilesSound.close (hk : FilesSound k) (fd : Int) : FilesSound (vfsClose k fd).2 := by
  rw [vfsClose]
  split
  · exact hk
  · apply hk.setFile fd
    intro f hf
    cases hf

/-- A read leaves the handle where it was, further on in its file. -/
theorem ramfsRead_fits {fs : Ramfs} {file file' : VfsFile} {count : Nat} {bytes : Str}
    (hpos : file.fPos ≤ maxContent) (hsize : (fs file.privateData).size ≤ maxContent)
    (h : ramfsRead fs file count = some (bytes, file')) :
    file'.fOps = file.fOps ∧ file'.privateData = file.privateData ∧ file'.fPos ≤ maxContent := by
  simp only [ramfsRead] at h
  split_ifs at h with hend hover hlimit hlimit
  · cases h
    exact ⟨rfl, rfl, hpos⟩
  all_goals
    cases h
    exact ⟨rfl, rfl, by dsimp only; omega⟩

theorem vfsRead_handle (hk : FilesSound k) {count : Nat} {bytes : Option Str}
    (h : vfsRead k fd count = some (bytes, k')) : k' = k ∨ ∃ file file', getFile k fd = some file ∧
      file'.fOps = file.fOps ∧ file'.privateData = file.privateData ∧ file'.Fits ∧
        k' = k.setFile fd (some file') := by
  unfold vfsRead at h
  split at h
  · cases h
    exact .inl rfl
  · rename_i file hfile
    have hfits := hk.handles _ file (getFile_eq_some.mp hfile).2.2
    rw [VfsFile.Fits] at hfits
    right
    split at h
    · rename_i hops
      obtain ⟨⟨_, file'⟩, hread, heq⟩ := Option.map_eq_some_iff.mp h
      cases heq
      rw [hops] at hfits
      obtain ⟨hops', hdata, hpos⟩ := ramfsRead_fits hfits.2 (hk.ramfs.size_le _) hread
      refine ⟨file, file', hfile, hops', hdata, ?_, rfl⟩
      rw [VfsFile.Fits, hops', hops, hdata]
      exact ⟨hfits.1, hpos⟩
    · rename_i hops
      obtain ⟨⟨_, file'⟩, hread, heq⟩ := Option.map_eq_some_iff.mp h
      cases heq
      rw [hops] at hfits
      have hsame : file'.fOps = file.fOps ∧ file'.privateData = file.privateData := by
        unfold abyssfsRead at hread
        split at hread
        · cases hread
          exact ⟨rfl, rfl⟩
        · dsimp only at hread
          split_ifs at hread <;> cases hread <;> exact ⟨rfl, rfl⟩
      refine ⟨file, file', hfile, hsame.1, hsame.2, ?_, rfl⟩
      rw [VfsFile.Fits, hsame.1, hops, hsame.2]
      exact hfits

theorem FilesSound.read (hk : FilesSound k) {count : Nat} {bytes : Option Str}
    (h : vfsRead k fd count = some (bytes, k')) : FilesSound k' := by
  rcases vfsRead_handle hk h with rfl | ⟨_, file', -, -, -, hfits, rfl⟩
  · exact hk
  · exact hk.setFile fd fun f hf => Option.some.inj hf ▸ hfits

/-- What a write leaves of the handle it goes through. -/
theorem vfsWrite_handle (hk : FilesSound k) {buf : Str} (hfile : getFile k fd = some file)
    (hcreated : file.fOps = .abyssfs → file.privateData ≠ 0)
    (h : vfsWrite k fd buf = some (result, k')) : AbyssSound k'.abyss ∧ RamfsReached k'.ramfs ∧
      (∀ i, file.fOps = .ramfs → i ≠ file.privateData → k'.ramfs i = k.ramfs i) ∧
      (file.fOps = .abyssfs → k'.ramfs = k.ramfs) ∧
      ∃ file', file'.fOps = file.fOps ∧ file'.privateData = file.privateData ∧ file'.Fits ∧
        k'.fdTable = Function.update k.fdTable fd.toNat (some file') := by
  have hentry := (getFile_eq_some.mp hfile).2.2
  have hfits := hk.handles _ file hentry
  rw [VfsFile.Fits] at hfits
  simp only [vfsWrite, hfile] at h
  cases hops : file.fOps with
  | ramfs =>
      simp only [hops] at h hfits
      obtain ⟨⟨count, file', fs⟩, hwrite, heq⟩ := Option.map_eq_some_iff.mp h
      cases heq
      obtain ⟨-, hend, rfl, hslot⟩ := ramfsWrite_cases hfits.2 hwrite
      refine ⟨hk.abyss, hk.ramfs.write hwrite, ?_, ?_, { file with fPos := file.fPos + count },
        hops, rfl, ?_, rfl⟩
      · intro i _ hne
        rcases hslot with ⟨-, rfl⟩ | rfl
        · rfl
        · exact Function.update_of_ne hne _ _
      · intro habyss
        cases habyss
      · rw [VfsFile.Fits]
        simp only [hops]
        exact ⟨hfits.1, hend⟩
  | abyssfs =>
      simp only [hops] at h hfits
      cases h
      refine ⟨hk.abyss.write hfits (hcreated hops) buf, hk.ramfs, ?_, fun _ => rfl, file, hops,
        rfl, ?_, ?_⟩
      · intro i hramfs
        cases hramfs
      · rw [VfsFile.Fits, hops]
        exact hfits
      · rw [← hentry, Function.update_eq_self]

theorem FilesSound.unlink (hk : FilesSound k) (h : vfsUnlink k path = some (result, k')) :
    FilesSound k' ∧ VolumesKept k k' ∧ k'.fdTable = k.fdTable := by
  unfold vfsUnlink at h
  split at h
  · cases h
  · cases h
    exact ⟨hk, .refl hk, rfl⟩
  · rename_i fs given _
    cases fs with
    | ramfs =>
        cases h
        have hramfs := hk.ramfs.unlink given
        exact ⟨⟨hk.abyss, hramfs, hk.handles⟩, ⟨hk.abyss, hramfs, .unlink _ _⟩, rfl⟩
    | abyssfs =>
        obtain ⟨_, hunlink, heq⟩ := Option.map_eq_some_iff.mp h
        cases heq
        have habyss := hk.abyss.unlink hunlink
        exact ⟨⟨habyss, hk.ramfs, hk.handles⟩, ⟨habyss, hk.ramfs, .refl _⟩, rfl⟩

theorem FilesSound.mkdir (hk : FilesSound k) (h : vfsMkdir k path = some (result, k')) :
    FilesSound k' ∧ VolumesKept k k' ∧ k'.fdTable = k.fdTable := by
  unfold vfsMkdir at h
  split at h
  · cases h
  · cases h
    exact ⟨hk, .refl hk, rfl⟩
  · rename_i fs full _
    cases fs with
    | ramfs =>
        cases h
        have hramfs := hk.ramfs.mkdir full
        exact ⟨⟨hk.abyss, hramfs, hk.handles⟩, ⟨hk.abyss, hramfs, .mkdir _ _⟩, rfl⟩
    | abyssfs =>
        obtain ⟨_, hmkdir, heq⟩ := Option.map_eq_some_iff.mp h
        cases heq
        have habyss := hk.abyss.mkdir hmkdir
        exact ⟨⟨habyss, hk.ramfs, hk.handles⟩, ⟨habyss, hk.ramfs, .refl _⟩, rfl⟩

end Descriptors

/-! The files as they are at the start. -/

theorem shellKernel_sound (user : Memory) : TrapSound (shellKernel user) where
  abyss := .boot blankFs
  ramfs := .init
  handles := nofun
  opened := nofun

end Chthon
