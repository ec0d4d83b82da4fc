import Chthon.FileSoundness

/-! The loop of the copies, between any two files. It comes to an end, brings no new data to RAMFS, and
copies nothing from AbyssFS, whose handles read nothing. -/

namespace Chthon

open ByteMemory

/-! The copies. -/

/-- How many bytes a handle of an open has not read. -/
def unread (k : Kernel) (file : VfsFile) : Nat :=
  match file.fOps with
  | .ramfs => (k.ramfs file.privateData).size - file.fPos
  | .abyssfs => 0

/-- In the loop: a handle of an open is read, a handle of a create on another file is written. -/
structure Copies (k₀ k : Kernel) (src dst : Int) (source target : VfsFile) : Prop where
  sound : FilesSound k
  read : getFile k src = some source
  write : getFile k dst = some target
  apart : src ≠ dst
  opened : source.Opened
  created : target.fOps = .abyssfs → target.privateData ≠ 0
  slots : source.fOps = .ramfs → target.fOps = .ramfs → source.privateData ≠ target.privateData
  others : ∀ n, n ≠ src.toNat → n ≠ dst.toNat → k.fdTable n = k₀.fdTable n

section Copying

variable {k₀ k k' : Kernel} {src dst : Int} {source target : VfsFile}

/-- A write of a buffer has an outcome. -/
theorem ramfsWrite_defined (fs : Ramfs) {file : VfsFile} {buf : Str} (hpos : file.fPos ≤ maxContent)
    (hbuf : buf.length ≤ 1024) : ∃ answer, ramfsWrite fs file buf = some answer := by
  have hcount : file.fPos + (if (file.fPos + buf.length) % 2 ^ 64 > maxContent
      then (maxContent + 2 ^ 64 - file.fPos) % 2 ^ 64 else buf.length) ≤ maxContent := by
    split_ifs with hover <;> simp only [maxContent] at hpos hover ⊢ <;> omega
  simp only [ramfsWrite]
  generalize (if (file.fPos + buf.length) % 2 ^ 64 > maxContent
    then (maxContent + 2 ^ 64 - file.fPos) % 2 ^ 64 else buf.length) = count at hcount ⊢
  rw [if_neg (Nat.not_lt.mpr hcount)]
  split_ifs <;> exact ⟨_, rfl⟩

theorem vfsWrite_defined (hk : FilesSound k) {fd : Int} {buf : Str} (hbuf : buf.length ≤ 1024) :
    ∃ written k', vfsWrite k fd buf = some (written, k') := by
  unfold vfsWrite
  split
  · exact ⟨_, _, rfl⟩
  · rename_i file hfile
    have hfits := hk.handles _ file (getFile_eq_some.mp hfile).2.2
    rw [VfsFile.Fits] at hfits
    split
    · rename_i hops
      rw [hops] at hfits
      obtain ⟨answer, hwrite⟩ := ramfsWrite_defined k.ramfs hfits.2 hbuf
      rw [hwrite]
      exact ⟨_, _, rfl⟩
    · exact ⟨_, _, rfl⟩

theorem setFile_self {fd : Int} {file : VfsFile} (hfile : getFile k fd = some file) :
    k.setFile fd (some file) = k := by
  rw [Kernel.setFile, ← (getFile_eq_some.mp hfile).2.2, Function.update_eq_self]

/-- Nothing is read through a handle of `abyssfs_open`. -/
theorem vfsRead_abyss (hk : FilesSound k) {fd : Int} {file : VfsFile} (hfile : getFile k fd = some file)
    (hops : file.fOps = .abyssfs) (hopened : file.Opened) (count : Nat) :
    vfsRead k fd count = some (some [], k) := by
  have hzero : file.privateData % 2 ^ 32 = 0 := by rw [hopened hops, Nat.zero_mod]
  have hread : abyssfsRead k.abyss file count = some (some [], file) := by
    rw [abyssfsRead, hzero, getInode_of_lt (by decide)]
    dsimp only
    rw [if_pos (by rw [hk.abyss.empty]; exact Nat.zero_le _)]
  simp only [vfsRead, hfile, hops, hread, Option.map_some, setFile_self hfile]

theorem Copies.setSource (h : Copies k₀ k src dst source target) {source' : VfsFile}
    (hops : source'.fOps = source.fOps) (hdata : source'.privateData = source.privateData)
    (hfits : source'.Fits) :
    Copies k₀ (k.setFile src (some source')) src dst source' target where
  sound := h.sound.setFile src fun f hf => Option.some.inj hf ▸ hfits
  read := getFile_setFile h.read
  write := getFile_setFile_of_ne (getFile_eq_some.mp h.read).1 h.write h.apart.symm
  apart := h.apart
  opened := fun hsource => hdata.trans (h.opened (hops.symm.trans hsource))
  created := h.created
  slots := fun hsource => hdata ▸ h.slots (hops.symm.trans hsource)
  others n hsrc hdst := by
    rw [← h.others n hsrc hdst]
    exact Function.update_of_ne hsrc _ _

/-- A round leaves less to be read. -/
theorem Copies.round (h : Copies k₀ k src dst source target) (hmore : unread k source ≠ 0) :
    ∃ bytes k₁ written k₂ source' target', vfsRead k src 1024 = some (some bytes, k₁) ∧ bytes ≠ [] ∧
      vfsWrite k₁ dst bytes = some (written, k₂) ∧ Copies k₀ k₂ src dst source' target' ∧
      unread k₂ source' < unread k source ∧ target'.fOps = target.fOps ∧
      (target.fOps = .abyssfs → k₂.ramfs = k.ramfs) := by
  obtain ⟨ops, i, pos⟩ := source
  cases ops with
  | abyssfs => exact absurd rfl hmore
  | ramfs =>
      have hsize := h.sound.ramfs.size_le i
      change (k.ramfs i).size - pos ≠ 0 at hmore
      simp only [maxContent] at hsize
      set bytes := ((k.ramfs i).contents.drop pos).take 1024 with hbytes
      have hlength : bytes.length = min 1024 ((k.ramfs i).size - pos) := by
        rw [hbytes, List.length_take, List.length_drop, RamfsFile.contents_length]
      have hread := vfsRead_slot 1024 h.read (by omega)
      rw [← hbytes] at hread
      have hfits : (VfsFile.mk .ramfs i (pos + bytes.length)).Fits := by
        refine ⟨(h.sound.handles _ _ (getFile_eq_some.mp h.read).2.2).1, ?_⟩
        simp only [maxContent]
        omega
      set source' : VfsFile := ⟨.ramfs, i, pos + bytes.length⟩ with hsource'
      have hmoved : Copies k₀ (k.setFile src (some source')) src dst source' target :=
        h.setSource rfl rfl hfits
      obtain ⟨written, k₂, hwrite⟩ : ∃ written k₂,
          vfsWrite (k.setFile src (some source')) dst bytes = some (written, k₂) :=
        vfsWrite_defined hmoved.sound (by omega)
      obtain ⟨habyss, hramfs, hslot, hsame, target', hops', hdata', hfits', htable⟩ :=
        vfsWrite_handle hmoved.sound hmoved.write h.created hwrite
      have hlong : bytes ≠ [] := by
        intro hempty
        rw [hempty, List.length_nil] at hlength
        omega
      have hsrc : 0 ≤ src := (getFile_eq_some.mp h.read).1
      have hdst : 0 ≤ dst := (getFile_eq_some.mp h.write).1
      have hapart := h.apart
      have hkept : k₂.ramfs i = k.ramfs i := by
        cases hops : target.fOps with
        | ramfs => exact hslot i hops (h.slots rfl hops)
        | abyssfs => exact congrFun (hsame hops) i
      refine ⟨bytes, _, written, k₂, source', target', hread, hlong, hwrite,
        ⟨⟨habyss, hramfs, ?_⟩, ?_, ?_, h.apart, ?_, ?_, ?_, ?_⟩, ?_, hops', hsame⟩
      · intro n f hf
        rw [htable] at hf
        by_cases hn : n = dst.toNat
        · rw [hn, Function.update_self] at hf
          exact Option.some.inj hf ▸ hfits'
        · rw [Function.update_of_ne hn] at hf
          exact hmoved.sound.handles n f hf
      · rw [getFile_eq_some, htable, Function.update_of_ne (by omega)]
        exact getFile_eq_some.mp hmoved.read
      · rw [getFile_eq_some, htable, Function.update_self]
        exact ⟨hdst, (getFile_eq_some.mp h.write).2.1, rfl⟩
      · intro habyss
        cases habyss
      · exact fun hops => hdata' ▸ h.created (hops' ▸ hops)
      · exact fun _ hops => hdata' ▸ h.slots rfl (hops' ▸ hops)
      · intro n hsrc hdst
        rw [htable, Function.update_of_ne hdst]
        exact hmoved.others n hsrc hdst
      · change (k₂.ramfs i).size - (pos + bytes.length) < (k.ramfs i).size - pos
        have hpos := List.length_pos_of_ne_nil hlong
        rw [hkept]
        omega

/-- At the end of the source nothing is read. -/
theorem Copies.read_end (h : Copies k₀ k src dst source target) (hend : unread k source = 0) :
    ∃ k₁, vfsRead k src 1024 = some (some [], k₁) := by
  obtain ⟨ops, i, pos⟩ := source
  cases ops with
  | abyssfs => exact ⟨_, vfsRead_abyss h.sound h.read rfl h.opened 1024⟩
  | ramfs =>
      change (k.ramfs i).size - pos = 0 at hend
      have hfits : pos ≤ 4096 := (h.sound.handles _ _ (getFile_eq_some.mp h.read).2.2).2
      have hempty : (k.ramfs i).contents.drop pos = [] :=
        List.drop_of_length_le (by rw [RamfsFile.contents_length]; omega)
      have hread := vfsRead_slot 1024 h.read (by omega)
      rw [hempty] at hread
      exact ⟨_, hread⟩

/-- The loop comes to an end. -/
theorem copyLoop_ends (fuel : Nat) : ∀ {k : Kernel} {source target : VfsFile},
    Copies k₀ k src dst source target → unread k source < fuel →
    ∃ complete k', copyLoop src dst fuel k = some (complete, k') ∧ FilesSound k' ∧
      (∀ n, n ≠ src.toNat → n ≠ dst.toNat → k'.fdTable n = k₀.fdTable n) ∧
      (target.fOps = .abyssfs → k'.ramfs = k.ramfs) := by
  induction fuel with
  | zero => exact fun _ hfuel => absurd hfuel (Nat.not_lt_zero _)
  | succ fuel ih =>
      intro k source target h hfuel
      rw [copyLoop]
      by_cases hmore : unread k source = 0
      · obtain ⟨k₁, hread⟩ := h.read_end hmore
        rw [hread]
        rcases vfsRead_handle h.sound hread with rfl | ⟨_, file', -, -, -, -, rfl⟩
        · exact ⟨true, k₁, rfl, h.sound, h.others, fun _ => rfl⟩
        · refine ⟨true, _, rfl, h.sound.read hread, fun n hsrc hdst => ?_, fun _ => rfl⟩
          rw [← h.others n hsrc hdst]
          exact Function.update_of_ne hsrc _ _
      · obtain ⟨bytes, k₁, written, k₂, source', target', hread, hlong, hwrite, hnext, hless, hops,
          hkept⟩ := h.round hmore
        rw [hread]
        dsimp only
        rw [if_neg hlong, hwrite]
        dsimp only
        split_ifs
        · exact ⟨false, k₂, rfl, hnext.sound, hnext.others, hkept⟩
        · obtain ⟨complete, k', hloop, hsound, hothers, hramfs⟩ := ih hnext (by omega)
          refine ⟨complete, k', hloop, hsound, hothers, fun htarget => ?_⟩
          exact (hramfs (hops.trans htarget)).trans (hkept htarget)

end Copying

section Traps

variable {k k' k₁ : Kernel} {fd : Int} {path : Str}

theorem TrapSound.openPath (hk : TrapSound k) (h : vfsOpen k path = some (fd, k')) :
    TrapSound k' ∧ VolumesKept k k' := by
  obtain ⟨hsound, hkept⟩ := hk.toFilesSound.openPath h
  refine ⟨⟨hsound, fun n f hf => ?_⟩, hkept⟩
  obtain ⟨-, -, ⟨-, htable⟩ | ⟨file, hfile, hgiven, -⟩⟩ := vfsOpen_given h
  · rw [htable] at hf
    exact hk.opened n f hf
  · rcases hgiven.entry hf with rfl | hold
    · exact hfile.opened
    · exact hk.opened n f hold

theorem vfsClose_entry {n : Nat} {f : VfsFile} (h : (vfsClose k fd).2.fdTable n = some f) :
    k.fdTable n = some f ∧ (0 ≤ fd → fd < 32 → n ≠ fd.toNat) := by
  rw [vfsClose] at h
  split at h
  · rename_i hnone
    refine ⟨h, fun hlow hhigh hn => ?_⟩
    have hfile : getFile k fd = some f := getFile_eq_some.mpr ⟨hlow, hhigh, hn ▸ h⟩
    rw [hnone] at hfile
    cases hfile
  · change Function.update k.fdTable fd.toNat none n = some f at h
    by_cases hn : n = fd.toNat
    · rw [hn, Function.update_self] at h
      cases h
    · rw [Function.update_of_ne hn] at h
      exact ⟨h, fun _ _ => hn⟩

theorem TrapSound.close (hk : TrapSound k) (fd : Int) :
    TrapSound (vfsClose k fd).2 ∧ VolumesKept k (vfsClose k fd).2 := by
  refine ⟨⟨hk.toFilesSound.close fd, fun n f hf => hk.opened n f (vfsClose_entry hf).1⟩, ?_⟩
  rw [vfsClose_kernel]
  exact (VolumesKept.refl hk.toFilesSound).same rfl rfl

theorem TrapSound.read (hk : TrapSound k) {count : Nat} {bytes : Option Str}
    (h : vfsRead k fd count = some (bytes, k')) : TrapSound k' ∧ VolumesKept k k' := by
  have hsound := hk.toFilesSound.read h
  rcases vfsRead_handle hk.toFilesSound h with rfl | ⟨file, file', hfile, hops, hdata, -, rfl⟩
  · exact ⟨hk, .refl hsound⟩
  · refine ⟨⟨hsound, fun n f hf => ?_⟩, ⟨hk.abyss, hk.ramfs, .refl _⟩⟩
    rcases setFile_entry hf with hnew | hold
    · cases hnew
      have hopened := hk.opened _ _ (getFile_eq_some.mp hfile).2.2
      exact fun h => hdata.trans (hopened (hops.symm.trans h))
    · exact hk.opened n f hold

/-- A create whose descriptor is closed again. -/
theorem TrapSound.create (hk : TrapSound k) (h : vfsCreate k path = some (fd, k')) :
    fd < 0 ∧ TrapSound k' ∧ VolumesKept k k' ∨
      0 ≤ fd ∧ TrapSound (vfsClose k' fd).2 ∧ VolumesKept k (vfsClose k' fd).2 := by
  have hsound := hk.toFilesSound.create h
  obtain ⟨hkept, ⟨hneg, htable⟩ | ⟨file, -, hgiven⟩⟩ := vfsCreate_given hk.toFilesSound h
  · exact .inl ⟨hneg, ⟨hsound, htable ▸ hk.opened⟩, hkept⟩
  · have hroom := hgiven.room
    have hfd := hgiven.fd_eq
    simp only [maxFd] at hroom
    refine .inr ⟨by omega, ⟨hsound.close fd, fun n f hf => ?_⟩, ?_⟩
    · obtain ⟨hentry, hne⟩ := vfsClose_entry hf
      have hn := hne (by omega) (by omega)
      rw [hgiven.table, Function.update_of_ne (by omega)] at hentry
      exact hk.opened n f hentry
    · rw [vfsClose_kernel]
      exact hkept.same rfl rfl

/-- A copy for which both descriptors were given. -/
structure Begun (k : Kernel) (src dst : Str) (srcFd dstFd : Int) (source target : VfsFile)
    (k₁ k₂ : Kernel) : Prop where
  opening : vfsOpen k src = some (srcFd, k₁)
  creating : vfsCreate k₁ dst = some (dstFd, k₂)
  read : Given k srcFd source k₁
  write : Given k₁ dstFd target k₂
  opened : source.OpenedIn k
  route : ∃ resolved, openRoute k src = some (some source.fOps, resolved)
  created : target.CreatedIn k₁ k₂
  volumes : k₁.abyss = k.abyss ∧ k₁.ramfs = k.ramfs
  sound : FilesSound k₂
  kept : VolumesKept k k₂

section Begun

variable {src dst : Str} {srcFd dstFd : Int} {source target : VfsFile} {k₂ : Kernel}

theorem Begun.sourceSlot (h : Begun k src dst srcFd dstFd source target k₁ k₂) :
    0 ≤ srcFd ∧ srcFd < dstFd ∧ dstFd < 32 := by
  have hsrc := h.read.fd_eq
  have hdst := h.write.fd_eq
  have hnext := h.read.next
  have hroom := h.write.room
  simp only [maxFd] at hroom
  omega

theorem Begun.copies (h : Begun k src dst srcFd dstFd source target k₁ k₂) :
    Copies k₂ k₂ srcFd dstFd source target := by
  obtain ⟨hsrc, hless, hdst⟩ := h.sourceSlot
  have hentry := (getFile_eq_some.mp h.read.getFile).2.2
  have hnext := h.write.fd_eq
  refine ⟨h.sound, ?_, h.write.getFile, by omega, h.opened.opened, h.created.created, ?_,
    fun _ _ _ => rfl⟩
  · rw [getFile_eq_some, h.write.table, Function.update_of_ne (by omega)]
    exact ⟨hsrc, by omega, hentry⟩
  · -- the source was in use, the slot of the new file was not
    intro hops hops' hsame
    have hused := h.opened.used hops
    have hunused := h.created.unused hops'
    rw [h.volumes.2, ← hsame, hused] at hunused
    cases hunused

theorem copyLoop_abyss {k₀ : Kernel} {src dst : Int} (h : Copies k₀ k src dst source target)
    (hops : source.fOps = .abyssfs) {fuel : Nat} (hfuel : fuel ≠ 0) :
    copyLoop src dst fuel k = some (true, k) := by
  obtain ⟨fuel, rfl⟩ := Nat.exists_eq_succ_of_ne_zero hfuel
  rw [copyLoop, vfsRead_abyss h.sound h.read hops h.opened]
  dsimp only
  rw [if_pos rfl]

/-- The loop of a copy that was begun. -/
theorem Begun.ends (h : Begun k src dst srcFd dstFd source target k₁ k₂) :
    ∃ complete k₃, copyLoop srcFd dstFd (2 ^ 64) k₂ = some (complete, k₃) ∧ FilesSound k₃ ∧
      (∀ n, n ≠ srcFd.toNat → n ≠ dstFd.toNat → k₃.fdTable n = k₂.fdTable n) ∧
      (target.fOps = .abyssfs → k₃.ramfs = k₂.ramfs) := by
  have hsize := h.sound.ramfs.size_le source.privateData
  simp only [maxContent] at hsize
  have hfuel : unread k₂ source < 2 ^ 64 := by
    rw [unread]
    split <;> omega
  exact copyLoop_ends _ h.copies hfuel

theorem Begun.copying (h : Begun k src dst srcFd dstFd source target k₁ k₂)
    (hops : source.fOps = .ramfs) (hops' : target.fOps = .ramfs) :
    Copying k₂ srcFd dstFd source.privateData target.privateData 0 := by
  obtain ⟨ops, i, pos⟩ := source
  obtain ⟨ops', j, pos'⟩ := target
  obtain rfl : ops = .ramfs := hops
  obtain rfl : ops' = .ramfs := hops'
  obtain rfl : pos = 0 := h.opened.start
  obtain rfl : pos' = 0 := h.created.start
  refine ⟨h.copies.read, h.copies.write, h.copies.apart, h.copies.slots rfl rfl,
    h.sound.ramfs.size_le i, Nat.zero_le _, ?_⟩
  have hempty : (k₂.ramfs j).size = 0 := h.created.empty
  rw [List.take_zero, ← List.length_eq_zero_iff, RamfsFile.contents_length, hempty]

/-- Between two slots the whole source is copied. -/
theorem Begun.slots (h : Begun k src dst srcFd dstFd source target k₁ k₂)
    (hops : source.fOps = .ramfs) (hops' : target.fOps = .ramfs) :
    ∃ k' rf, copyLoop srcFd dstFd (2 ^ 64) k₂ = some (true, k') ∧
      k' = { k₂ with
        fdTable := k'.fdTable, ramfs := Function.update k₂.ramfs target.privateData rf } ∧
      rf.contents = (k₂.ramfs source.privateData).contents ∧
      rf.used = (k₂.ramfs target.privateData).used ∧
      ∀ a < slotPath, rf.bytes a = (k₂.ramfs target.privateData).bytes a := by
  have hsize := h.sound.ramfs.size_le source.privateData
  simp only [maxContent] at hsize
  exact copyLoop_slots (2 ^ 64) (h.copying hops hops') (by omega)

/-- On RAMFS the new file is still empty, or it has become the source. -/
theorem Begun.loop (h : Begun k src dst srcFd dstFd source target k₁ k₂) :
    ∃ complete k₃, copyLoop srcFd dstFd (2 ^ 64) k₂ = some (complete, k₃) ∧ FilesSound k₃ ∧
      NoNewData k₂.ramfs k₃.ramfs ∧
      ∀ n, n ≠ srcFd.toNat → n ≠ dstFd.toNat → k₃.fdTable n = k₂.fdTable n := by
  obtain ⟨complete, k₃, hloop, hsound, hothers, hramfs⟩ := h.ends
  refine ⟨complete, k₃, hloop, hsound, ?_, hothers⟩
  cases hops' : target.fOps with
  | abyssfs =>
      rw [hramfs hops']
      exact .refl _
  | ramfs =>
      cases hops : source.fOps with
      | abyssfs =>
          rw [copyLoop_abyss h.copies hops (by decide)] at hloop
          cases hloop
          exact .refl _
      | ramfs =>
          obtain ⟨k', rf, hloop', hk', hcontents, -, -⟩ := h.slots hops hops'
          rw [hloop] at hloop'
          cases hloop'
          rw [hk']
          exact .update _ (.inr ⟨_, hcontents⟩)

end Begun

/-- A copy is undefined only where the open or the create is; it is refused by one of them, or its
loop is run. -/
theorem copyFile_cases (hk : TrapSound k) (src dst : Str) :
    copyFile k src dst = none ∧ (vfsOpen k src = none ∨
      ∃ fd k₁, vfsOpen k src = some (fd, k₁) ∧ 0 ≤ fd ∧ vfsCreate k₁ dst = none) ∨
    (∃ k', copyFile k src dst = some (none, k') ∧ TrapSound k' ∧ VolumesKept k k') ∨
    ∃ srcFd dstFd source target k₁ k₂, Begun k src dst srcFd dstFd source target k₁ k₂ ∧
      copyFile k src dst = (copyLoop srcFd dstFd (2 ^ 64) k₂).map fun r =>
        (some r.1, (vfsClose (vfsClose r.2 srcFd).2 dstFd).2) := by
  rw [copyFile]
  cases hopen : vfsOpen k src with
  | none => exact .inl ⟨rfl, .inl rfl⟩
  | some answer =>
      obtain ⟨srcFd, k₁⟩ := answer
      obtain ⟨hk₁, hfirst⟩ := hk.openPath hopen
      dsimp only
      obtain ⟨habyss, hramfs, ⟨hneg, -⟩ | ⟨source, hsource, hread, hroute⟩⟩ := vfsOpen_given hopen
      · rw [if_pos hneg]
        exact .inr (.inl ⟨k₁, rfl, hk₁, hfirst⟩)
      · have hsrc := hread.fd_eq
        rw [if_neg (by omega)]
        cases hcreate : vfsCreate k₁ dst with
        | none => exact .inl ⟨rfl, .inr ⟨srcFd, k₁, rfl, by omega, hcreate⟩⟩
        | some answer =>
            obtain ⟨dstFd, k₂⟩ := answer
            have hk₂ := hk₁.toFilesSound.create hcreate
            right
            dsimp only
            obtain ⟨hsecond, ⟨hneg, htable⟩ | ⟨target, htarget, hwrite⟩⟩ :=
              vfsCreate_given hk₁.toFilesSound hcreate
            · rw [if_pos hneg]
              have hsound : TrapSound k₂ := ⟨hk₂, htable ▸ hk₁.opened⟩
              obtain ⟨hclosed, hkept⟩ := hsound.close srcFd
              exact .inl ⟨_, rfl, hclosed, (hfirst.trans hsecond).trans hkept⟩
            · have hdst := hwrite.fd_eq
              rw [if_neg (by omega)]
              exact .inr ⟨srcFd, dstFd, source, target, k₁, k₂, ⟨hopen, hcreate, hread, hwrite,
                hsource, hroute, htarget, ⟨habyss, hramfs⟩, hk₂, hfirst.trans hsecond⟩, rfl⟩

/-- Both descriptors are gone after the copy. -/
theorem copyFile_ends (hk : TrapSound k) (src dst : Str) :
    copyFile k src dst = none ∧ (vfsOpen k src = none ∨
      ∃ fd k₁, vfsOpen k src = some (fd, k₁) ∧ 0 ≤ fd ∧ vfsCreate k₁ dst = none) ∨
    ∃ complete k', copyFile k src dst = some (complete, k') ∧ TrapSound k' ∧ VolumesKept k k' := by
  rcases copyFile_cases hk src dst with hnone | ⟨k', hcopy, hk', hkept⟩ |
    ⟨srcFd, dstFd, source, target, k₁, k₂, hbegun, hcopy⟩
  · exact .inl hnone
  · exact .inr ⟨none, k', hcopy, hk', hkept⟩
  · obtain ⟨complete, k₃, hloop, hk₃, hdata, hothers⟩ := hbegun.loop
    rw [hloop, Option.map_some] at hcopy
    have hvolumes : VolumesKept k k₃ :=
      hbegun.kept.trans ⟨hk₃.abyss, hk₃.ramfs, hdata⟩
    refine .inr ⟨some complete, _, hcopy, ⟨(hk₃.close srcFd).close dstFd, fun n f hf => ?_⟩,
      hvolumes.same ?_ ?_⟩
    · obtain ⟨hsrc, hless, hdst⟩ := hbegun.sourceSlot
      have hsrcFd := hbegun.read.fd_eq
      have hdstFd := hbegun.write.fd_eq
      obtain ⟨hfirst, hne⟩ := vfsClose_entry hf
      obtain ⟨hentry, hne'⟩ := vfsClose_entry hfirst
      have hn := hne (by omega) (by omega)
      have hn' := hne' (by omega) (by omega)
      rw [hothers n hn' hn, hbegun.write.table, Function.update_of_ne (by omega),
        hbegun.read.table, Function.update_of_ne (by omega)] at hentry
      exact hk.opened n f hentry
    · rw [vfsClose_kernel, vfsClose_kernel]
    · rw [vfsClose_kernel, vfsClose_kernel]

/-- The new file of a copy is as its create left it, and so is everything else. -/
def EmptyCopy (k : Kernel) (src dst : Str) (k' : Kernel) : Prop :=
  ∃ srcFd k₁ dstFd k₂ target, vfsOpen k src = some (srcFd, k₁) ∧
    vfsCreate k₁ dst = some (dstFd, k₂) ∧ getFile k₂ dstFd = some target ∧
    k'.abyss = k₂.abyss ∧ k'.ramfs = k₂.ramfs ∧ fileSize k' target = 0

/-- Any path on AbyssFS is copied as an empty file. -/
theorem copyFile_from_abyss (hk : TrapSound k) {src dst resolved : Str} {complete : Bool}
    (hroute : openRoute k src = some (some .abyssfs, resolved))
    (h : copyFile k src dst = some (some complete, k')) :
    complete = true ∧ EmptyCopy k src dst k' := by
  rcases copyFile_cases hk src dst with ⟨hnone, -⟩ | ⟨_, hrefused, -⟩ |
    ⟨srcFd, dstFd, source, target, k₁, k₂, hbegun, hcopy⟩
  · rw [hnone] at h
    cases h
  · rw [hrefused] at h
    cases h
  · obtain ⟨_, hsource⟩ := hbegun.route
    have hops : source.fOps = .abyssfs := by
      rw [hroute, Option.some.injEq, Prod.mk.injEq, Option.some.injEq] at hsource
      exact hsource.1.symm
    rw [hcopy, copyLoop_abyss hbegun.copies hops (by decide), Option.map_some] at h
    cases h
    refine ⟨rfl, srcFd, k₁, dstFd, k₂, target, hbegun.opening, hbegun.creating,
      hbegun.write.getFile, ?_, ?_, ?_⟩
    · rw [vfsClose_kernel, vfsClose_kernel]
    · rw [vfsClose_kernel, vfsClose_kernel]
    · rw [vfsClose_kernel, vfsClose_kernel]
      exact hbegun.created.empty

end Traps

end Chthon
