import Chthon.AbyssAccounting
import Chthon.AbyssFiles
import Chthon.CopyEnds
import Chthon.VfsFrames
import Chthon.VfsNames

/-! When a copy or a move is refused, as a condition on the kernel before it. The source must open, the
destination must be created with what that leaves of the heap and the descriptors, and data on its way
to AbyssFS needs one block. A move then unlinks its source, by a path that need not lead to what was
copied. -/

namespace Chthon

open ByteMemory PathText

/-! The conditions. -/

/-- The heap and the descriptor that an open takes. -/
def afterOpen (k : Kernel) : Kernel :=
  { k with heapPos := k.heapPos + vfsFileSize, nextFd := k.nextFd + 1 }

/-- A new file is listed in the root directory of AbyssFS, under this name. -/
def EntersRoot (k : Kernel) (full name : Str) : Prop :=
  ∃ dir, createParent (allocInode k.abyss).2.mem (k.currentProcess.map Process.cwd)
      (skipSlash full) = some (some (dir, name)) ∧
    directoryBlock (allocInode k.abyss).2.mem dir = some 9

/-- The root directory of AbyssFS lists `rs`, its block is marked as taken, and there is room in it for
the record of the new file if that goes there. -/
structure RootInOrder (k : Kernel) (full : Str) (rs : List DirEntry) : Prop where
  listing : DirAt k.abyss.mem 9 rs
  marked : k.abyss.used 9 = true
  room : ∀ name, EntersRoot k full name → 0 ∉ name ∧ name.length ≤ 245 ∧
    extent rs + (name.length + 10) / 4 * 4 + 6 ≤ 4096

section Starting

variable {k k' : Kernel} {path : Str} {fd : Int}

theorem fsOpen_after {fs : FileOps} {file : VfsFile} (h : fsOpen k path fs = (some file, k')) :
    k' = { k with heapPos := k.heapPos + vfsFileSize } := by
  cases fs with
  | ramfs =>
      rw [fsOpen, ramfsOpen] at h
      cases hfind : ramfsFind k.ramfs path with
      | none =>
          rw [hfind] at h
          cases h
      | some i =>
          rw [hfind] at h
          obtain hheap | hheap := kalloc_cases k.heapPos vfsFileSize
          all_goals
            simp only [hheap] at h
            cases h
          rfl
  | abyssfs =>
      rw [fsOpen, abyssfsOpen] at h
      obtain hheap | hheap := kalloc_cases k.heapPos vfsFileSize
      all_goals
        simp only [hheap] at h
        cases h
      rfl

theorem vfsOpen_after (h : vfsOpen k path = some (fd, k')) (hfd : 0 ≤ fd) :
    ∃ table, k' = { afterOpen k with fdTable := table } := by
  unfold vfsOpen at h
  split at h
  · cases h
  · cases h
    omega
  · split at h
    · cases h
      omega
    · rename_i file k₁ hopen
      have hk₁ := fsOpen_after hopen
      rcases allocFd_cases k₁ file with ⟨-, halloc⟩ | ⟨-, halloc⟩
      · rw [halloc] at h
        cases h
        omega
      · rw [halloc] at h
        cases h
        subst hk₁
        exact ⟨_, rfl⟩

theorem fsCreate_fOps {fs : FileOps} {file : VfsFile} (h : fsCreate k path fs = some (some file, k')) :
    file.fOps = fs := by
  cases fs with
  | ramfs =>
      obtain ⟨⟨_, _, _⟩, hcreate, heq⟩ := Option.map_eq_some_iff.mp h
      cases heq
      obtain ⟨_, -, rfl, -⟩ := ramfsCreate_some hcreate
      rfl
  | abyssfs =>
      obtain ⟨⟨_, _, _⟩, hcreate, heq⟩ := Option.map_eq_some_iff.mp h
      cases heq
      rcases abyssfsCreate_cases hcreate with ⟨hnone, -⟩ | ⟨i, -, -, -, -, ⟨hnone, -⟩ |
        ⟨_, _, _, _, _, -, -, -, -, hnone | hfile⟩⟩
      · cases hnone
      · cases hnone
      · cases hnone
      · cases hfile
        rfl

/-- A create that gives out a descriptor has made a file. -/
theorem vfsCreate_made {file : VfsFile} (h : vfsCreate k path = some (fd, k'))
    (hfile : Given k fd file k') : ∃ full k₁, createRoute k path = some (some file.fOps, full) ∧
      fsCreate k full file.fOps = some (some file, k₁) ∧ k'.abyss = k₁.abyss ∧
        k'.ramfs = k₁.ramfs := by
  have hfd := hfile.fd_eq
  unfold vfsCreate at h
  split at h
  · cases h
  · cases h
    omega
  · rename_i fs full hroute
    split at h
    · cases h
    · cases h
      omega
    · rename_i file' k₁ hcreate
      have hops := fsCreate_fOps hcreate
      rcases allocFd_given (Option.some.inj h) with ⟨hneg, -⟩ | ⟨habyss, hramfs, hgiven⟩
      · omega
      · obtain rfl : file = file' :=
          Option.some.inj (hfile.getFile.symm.trans hgiven.getFile)
        subst hops
        exact ⟨full, k₁, hroute, hcreate, habyss, hramfs⟩

end Starting

/-! The loop on a file of AbyssFS. -/

/-- The root directory is as in `m`, and its block is not that of the inode and will not be. -/
structure RootKept (m : Memory) (n : Nat) (s : Abyssfs) : Prop where
  bytes : ∀ x, 36864 ≤ x → x < 40960 → s.mem x = m x
  marked : s.used 9 = true
  block : blocks s.mem (inodeAddr n) = 0 ∨
    10 ≤ blocks s.mem (inodeAddr n) ∧ blocks s.mem (inodeAddr n) < 64

section Loop

variable {n : Nat} {s : Abyssfs} {m : Memory} {target : VfsFile}

theorem abyssfsWrite_rootKept (hdata : target.privateData = n) (hn : n < 512)
    (h : RootKept m n s) (buf : Str) : RootKept m n (abyssfsWrite s target buf).2 := by
  have hlt : blocks s.mem (inodeAddr n) < 64 := by
    rcases h.block with hzero | ⟨-, hlt⟩
    · omega
    · exact hlt
  have hentry := inodeAddr_eq n
  rcases abyssfsWrite_cases s target buf hdata hn hlt with
    ⟨-, -, hcall⟩ | ⟨b, -, hb9, hb64, hunused, hcall⟩ | ⟨hblock, hcall⟩
  · rw [hcall]
    exact h
  · rw [hcall]
    have hne : b ≠ 9 := by
      rintro rfl
      rw [h.marked] at hunused
      cases hunused
    refine ⟨fun x hlo hhi => ?_, ?_, .inr ?_⟩
    · dsimp only
      rw [writtenFile_outside _ (by omega) (by omega), write32_outside _ _ (by omega)]
      exact h.bytes x hlo hhi
    · change (s.take b).used 9 = true
      rw [take_used s hb64, h.marked, Bool.true_or]
    · dsimp only
      rw [writtenFile_blocks _ hb9 hn, blocks, read32_write32]
      omega
  · rw [hcall]
    have hb10 := (h.block.resolve_left hblock).1
    refine ⟨fun x hlo hhi => ?_, h.marked, .inr ?_⟩
    · dsimp only
      rw [writtenFile_outside _ (by omega) (by omega)]
      exact h.bytes x hlo hhi
    · dsimp only
      rw [writtenFile_blocks _ (by omega) hn]
      exact ⟨hb10, hlt⟩

/-- A read leaves the other descriptors and AbyssFS alone. -/
theorem vfsRead_other {k k' : Kernel} {src dst : Int} {count : Nat} {bytes : Option Str}
    (hsrc : 0 ≤ src) (hne : dst ≠ src) (hfile : getFile k dst = some target)
    (h : vfsRead k src count = some (bytes, k')) :
    getFile k' dst = some target ∧ k'.abyss = k.abyss := by
  unfold vfsRead at h
  split at h
  · cases h
    exact ⟨hfile, rfl⟩
  · split at h
    all_goals
      obtain ⟨_, _, heq⟩ := Option.map_eq_some_iff.mp h
      cases heq
      exact ⟨getFile_setFile_of_ne hsrc hfile hne, rfl⟩

/-- What every write of the loop keeps, the loop keeps, and it is left early only at a short write. -/
theorem copyLoop_volume {P : Abyssfs → Prop} {src dst : Int} {k' : Kernel} {complete : Bool}
    (hsrc : 0 ≤ src) (hne : dst ≠ src) (hops : target.fOps = .abyssfs)
    (hP : ∀ s buf, P s → P (abyssfsWrite s target buf).2) (fuel : Nat) : ∀ {k : Kernel},
    getFile k dst = some target → P k.abyss → copyLoop src dst fuel k = some (complete, k') →
      P k'.abyss ∧ (complete = false → ∃ s buf, P s ∧ buf.length ≤ 1024 ∧
        (abyssfsWrite s target buf).1 ≠ buf.length) := by
  induction fuel with
  | zero =>
      intro k _ _ h
      cases h
  | succ fuel ih =>
      intro k hfile hk h
      rw [copyLoop] at h
      split at h
      · cases h
      · rename_i k₁ hread
        cases h
        rw [(vfsRead_other hsrc hne hfile hread).2]
        exact ⟨hk, fun hfalse => absurd hfalse (by decide)⟩
      · rename_i bytes k₁ hread
        have hlen := vfsRead_length hread (by decide)
        have hstart := vfsRead_other hsrc hne hfile hread
        split_ifs at h
        · cases h
          rw [hstart.2]
          exact ⟨hk, fun hfalse => absurd hfalse (by decide)⟩
        · simp only [vfsWrite, hstart.1, hops] at h
          split_ifs at h with hshort
          · cases h
            dsimp only
            rw [hstart.2] at hshort ⊢
            exact ⟨hP _ _ hk, fun _ => ⟨_, bytes, hk, hlen, hshort⟩⟩
          · refine ih ?_ ?_ h
            · exact hstart.1
            · dsimp only
              rw [hstart.2]
              exact hP _ _ hk

end Loop

/-! The copy. -/

section Copy

variable {k k₁ k₂ k' : Kernel} {src dst full : Str} {srcFd dstFd : Int} {source target : VfsFile}
  {complete : Bool} {rs : List DirEntry}

theorem Begun.onAbyss (h : Begun k src dst srcFd dstFd source target k₁ k₂)
    (hops : target.fOps = .abyssfs) : ∃ full heapPos',
      createRoute k dst = some (some .abyssfs, full) ∧
      abyssfsCreate (afterOpen k).heapPos k.abyss (k.currentProcess.map Process.cwd) full =
        some (some target, heapPos', k₂.abyss) ∧
      k₂.ramfs = k.ramfs := by
  obtain ⟨full, k₃, hroute, hcreate, habyss, hramfs⟩ := vfsCreate_made h.creating h.write
  obtain ⟨table, rfl⟩ := vfsOpen_after h.opening h.sourceSlot.1
  rw [hops] at hroute hcreate
  obtain ⟨⟨_, heapPos', s⟩, hcall, heq⟩ := Option.map_eq_some_iff.mp hcreate
  cases heq
  have hs : k₂.abyss = s := habyss
  refine ⟨full, heapPos', hroute, ?_, hramfs⟩
  rw [hs]
  exact hcall

/-- The source is the slot its path names. -/
theorem Begun.slot (h : Begun k src dst srcFd dstFd source target k₁ k₂)
    (hops : source.fOps = .ramfs) : ∃ resolved, openRoute k src = some (some .ramfs, resolved) ∧
      ramfsFind k.ramfs resolved = some source.privateData := by
  obtain ⟨resolved, hroute⟩ := h.route
  rw [hops] at hroute
  refine ⟨resolved, hroute, ?_⟩
  have hopen := h.opening
  have hfd := h.read.fd_eq
  simp only [vfsOpen, hroute, fsOpen, ramfsOpen] at hopen
  split at hopen
  · cases hopen
    omega
  · rename_i file k₃ hfile
    have hgiven := allocFd_given (Option.some.inj hopen)
    rcases hgiven with ⟨hneg, -⟩ | ⟨-, -, hgiven⟩
    · omega
    obtain rfl := Option.some.inj (h.read.getFile.symm.trans hgiven.getFile)
    cases hfind : ramfsFind k.ramfs resolved with
    | none =>
        rw [hfind] at hfile
        cases hfile
    | some i =>
        rw [hfind] at hfile
        obtain hheap | hheap := kalloc_cases k.heapPos vfsFileSize
        all_goals
          simp only [hheap] at hfile
          cases hfile
        rfl

end Copy

/-! What a finished copy leaves to be found. -/

section Finished

variable {k k₁ k₂ k' : Kernel} {src dst full given : Str} {srcFd dstFd : Int}
  {source target : VfsFile} {complete : Bool} {rs : List DirEntry} {rf : RamfsFile} {m : Memory}

/-- The root directory after a create. -/
theorem RootInOrder.created (h : RootInOrder k full rs) (hk : AbyssSound k.abyss) {s' : Abyssfs}
    {heapPos heapPos' : Nat} {file : VfsFile}
    (hcall : abyssfsCreate heapPos k.abyss (k.currentProcess.map Process.cwd) full =
      some (some file, heapPos', s')) :
    ∃ rs', DirAt s'.mem 9 rs' ∧ ∀ name, name ∈ rs'.map DirEntry.name ↔
      name ∈ rs.map DirEntry.name ∨ EntersRoot k full name := by
  rcases abyssfsCreate_cases hcall with ⟨hnone, -⟩ | ⟨i, -, hi, -, halloc, ⟨hnone, -⟩ |
    ⟨p, filename, b, e, m', hparent, hdir, happend, rfl, -⟩⟩
  · cases hnone
  · cases hnone
  have henters : ∀ name, EntersRoot k full name ↔ name = filename ∧ b = 9 := by
    intro name
    rw [EntersRoot, halloc, hparent]
    constructor
    · rintro ⟨dir, heq, hblock⟩
      cases heq
      rw [hdir] at hblock
      exact ⟨rfl, Option.some.inj hblock⟩
    · rintro ⟨rfl, rfl⟩
      exact ⟨p, rfl, hdir⟩
  have hfresh : DirAt (freshInode k.abyss.mem i) 9 rs :=
    h.listing.congr fun x hlo _ => freshInode_outside _ (by rw [inodeAddr_eq]; omega)
  by_cases hb : b = 9
  · subst hb
    obtain ⟨hnul, hshort, hroom⟩ := h.room filename ((henters filename).mpr ⟨rfl, rfl⟩)
    obtain ⟨r, hinode, hname⟩ : ∃ r : DirEntry, r.inode = i ∧ r.name = filename :=
      ⟨⟨i, filename, by omega, hnul, hshort⟩, rfl, rfl⟩
    have hspan : extent rs + r.span + 6 ≤ 4096 := by
      rw [DirEntry.span, hname]
      exact hroom
    obtain ⟨m'', happend', hdirAt, -⟩ := appendEntry_dir (by decide) hfresh r hspan
    rw [hinode, hname, happend] at happend'
    cases happend'
    refine ⟨_, hdirAt, fun name => ?_⟩
    rw [List.map_append, List.mem_append, henters, and_iff_left rfl, List.map_singleton,
      List.mem_singleton, hname]
  · have hb9 := (hk.reached.blocksInRange.fresh i).directory (createParent_addr hparent).1 hdir
    have hbelow : 40960 ≤ b * 4096 := by omega
    refine ⟨rs, hfresh.congr fun x _ hhi => ?_, fun name => ?_⟩
    · exact appendEntry_below happend (Nat.lt_of_lt_of_le hhi hbelow)
    · rw [henters, or_iff_left fun hname => hb hname.2]

theorem Begun.root (h : Begun k src dst srcFd dstFd source target k₁ k₂) (hk : FilesSound k)
    (hops : target.fOps = .abyssfs) (hroute : createRoute k dst = some (some .abyssfs, full))
    (hroot : RootInOrder k full rs)
    (hloop : copyLoop srcFd dstFd (2 ^ 64) k₂ = some (complete, k')) :
    ∃ rs', DirAt k'.abyss.mem 9 rs' ∧ ∀ name, name ∈ rs'.map DirEntry.name ↔
      name ∈ rs.map DirEntry.name ∨ EntersRoot k full name := by
  obtain ⟨full', _, hroute', hcall, -⟩ := h.onAbyss hops
  rw [hroute] at hroute'
  cases hroute'
  have hempty := hk.abyss.reached.blocksInRange.created hcall
  obtain ⟨rs', hdir, hnames⟩ := hroot.created hk.abyss hcall
  have hstart : RootKept k₂.abyss.mem target.privateData k₂.abyss := by
    refine ⟨fun _ _ _ => rfl, ?_, .inl hempty.noBlock⟩
    rw [(create_marks hcall).used]
    exact hroot.marked
  obtain ⟨hkept, -⟩ := copyLoop_volume (P := RootKept k₂.abyss.mem target.privateData)
    h.sourceSlot.1 h.copies.apart.symm hops
    (fun s buf hs => abyssfsWrite_rootKept rfl hempty.inode hs buf) _ h.copies.write hstart hloop
  exact ⟨rs', hdir.congr fun x hlo hhi => hkept.bytes x (by omega) (by omega), hnames⟩

end Finished

/-! The messages. -/

section Messages

variable {k k' : Kernel} {src dst : Str} {result : Int}

end Messages

end Chthon
