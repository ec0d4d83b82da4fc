import Chthon.AbyssSession

/-! What every call on AbyssFS keeps, also where a record runs out of its block or the root is
unlinked: the inode table is written by the allocators and by nothing else, so that an inode names
no block or a data block. -/

namespace Chthon

open ByteMemory PathText

/-- Every inode names no block or a data block. -/
def BlocksInRange (m : Memory) : Prop :=
  ∀ n < 512, blocks m (inodeAddr n) = 0 ∨ 9 ≤ blocks m (inodeAddr n) ∧ blocks m (inodeAddr n) < 64

section Range

variable {m m' : Memory} {i b : Nat}

theorem BlocksInRange.of_blocks (h : BlocksInRange m)
    (hm : ∀ n < 512, blocks m' (inodeAddr n) = blocks m (inodeAddr n)) : BlocksInRange m' := by
  intro n hn
  rw [hm n hn]
  exact h n hn

/-- What is written from the first data block on does not matter. -/
theorem BlocksInRange.of_data (h : BlocksInRange m) (hm : ∀ x < 36864, m' x = m x) :
    BlocksInRange m' :=
  h.of_blocks fun _ hn => (SameInode.of_data hn hm).blocks

theorem BlocksInRange.fresh (h : BlocksInRange m) (i : Nat) : BlocksInRange (freshInode m i) := by
  intro n hn
  by_cases hni : n = i
  · rw [hni]
    exact Or.inl (freshInode_blocks m i)
  · rw [(freshInode_other m hni).blocks]
    exact h n hn

theorem BlocksInRange.prepared (h : BlocksInRange m) (parent : Nat) (hi : i < 512) (hb : 9 ≤ b)
    (hb' : b < 64) : BlocksInRange (preparedDir m i b parent) := by
  intro n hn
  by_cases hni : n = i
  · rw [hni, preparedDir_blocks m parent hb hb' hi]
    exact Or.inr ⟨hb, hb'⟩
  · rw [(preparedDir_other m parent hb hn hni).blocks]
    exact h n hn

/-- A parent's record is appended behind the inode table. -/
theorem BlocksInRange.directory (h : BlocksInRange m) {p : Nat} (hp : ∃ n < 512, p = inodeAddr n)
    (hdir : directoryBlock m p = some b) : 9 ≤ b := by
  obtain ⟨n, hn, rfl⟩ := hp
  unfold directoryBlock at hdir
  split_ifs at hdir with hzero hroot
  · cases hdir
    decide
  · cases hdir
    exact ((h n hn).resolve_left hzero).1

theorem appendEntry_table {e : Nat} {name : Str} (happend : appendEntry m b i name = some (e, m'))
    (hb : 9 ≤ b) : ∀ x < 36864, m' x = m x :=
  fun _ hx => appendEntry_below happend (by omega)

end Range

/-! The outcomes of the calls. -/

/-- What `abyssfs_mkdir` can return and leave behind. -/
inductive MkdirOutcome (s : Abyssfs) (path : Str) : Int → Abyssfs → Prop
  | noParent (hparent : mkdirParent s.mem path = some none) : MkdirOutcome s path (-1) s
  | noInode {target : Nat × Nat × Str} (hparent : mkdirParent s.mem path = some (some target))
      (halloc : allocInode s = (0, s)) : MkdirOutcome s path (-1) s
  | noBlock {target : Nat × Nat × Str} {i : Nat}
      (hparent : mkdirParent s.mem path = some (some target)) (hi : 1 ≤ i ∧ i < 512)
      (hfree : mode s.mem (inodeAddr i) = 0)
      (halloc : allocInode s = (i, { s with mem := freshInode s.mem i })) :
      MkdirOutcome s path (-1) { s with mem := freshInode s.mem i }
  | noDirectory {p num : Nat} {base : Str} {i b : Nat}
      (hparent : mkdirParent s.mem path = some (some (p, num, base))) (hi : 1 ≤ i ∧ i < 512)
      (hfree : mode s.mem (inodeAddr i) = 0) (hb : 9 ≤ b ∧ b < 64) (hunused : s.used b = false)
      (halloc : allocInode s = (i, { s with mem := freshInode s.mem i })) :
      MkdirOutcome s path (-1) { s.take b with mem := preparedDir s.mem i b num }
  | made {p num : Nat} {base : Str} {i b pb e : Nat} {m' : Memory}
      (hparent : mkdirParent s.mem path = some (some (p, num, base))) (hi : 1 ≤ i ∧ i < 512)
      (hb : 9 ≤ b ∧ b < 64) (hdir : directoryBlock (preparedDir s.mem i b num) p = some pb)
      (happend : appendEntry (preparedDir s.mem i b num) pb i base = some (e, m')) :
      MkdirOutcome s path 0 { s.take b with mem := m' }

theorem abyssfsMkdir_outcome {s s' : Abyssfs} {path : Str} {result : Int}
    (h : abyssfsMkdir s path = some (result, s')) : MkdirOutcome s path result s' := by
  rcases abyssfsMkdir_cases h with ⟨hparent, rfl, rfl⟩ | ⟨p, num, base, hparent, hrest⟩
  · exact .noParent hparent
  rcases hrest with ⟨halloc, rfl, rfl⟩ | ⟨i, hi1, hi, hfree, halloc, hrest⟩
  · exact .noInode hparent halloc
  rcases hrest with ⟨rfl, rfl⟩ | ⟨b, hb9, hb64, hunused, _, hrest⟩
  · exact .noBlock hparent ⟨hi1, hi⟩ hfree halloc
  rcases hrest with ⟨_, rfl, rfl⟩ | ⟨pb, e, m', hdir, _, happend, rfl, rfl⟩
  · exact .noDirectory hparent ⟨hi1, hi⟩ hfree ⟨hb9, hb64⟩ hunused halloc
  · exact .made hparent ⟨hi1, hi⟩ ⟨hb9, hb64⟩ hdir happend

/-- The search only goes forward. -/
theorem findEntry_ge {m : Memory} {token : Str} (fuel : Nat) :
    ∀ {dir e : Nat}, findEntry m token fuel dir = some (some e) → dir ≤ e := by
  induction fuel with
  | zero =>
      intro dir e h
      cases h
  | succ fuel ih =>
      intro dir e h
      rw [findEntry] at h
      split_ifs at h with hstop hfound
      · cases h
      · cases h
        exact le_rfl
      · exact (Nat.le_add_right _ _).trans (ih h)

/-! The invariant. -/

section Calls

variable {s s' : Abyssfs}

theorem BlocksInRange.create (h : BlocksInRange s.mem) {heapPos heapPos' : Nat} {cwd : Option Str}
    {path : Str} {file : Option VfsFile}
    (hcall : abyssfsCreate heapPos s cwd path = some (file, heapPos', s')) :
    BlocksInRange s'.mem := by
  rcases abyssfsCreate_cases hcall with ⟨_, rfl, _⟩ | ⟨i, _, _, _, _, ⟨_, rfl⟩ |
    ⟨p, filename, b, e, m', hparent, hdir, happend, rfl, _⟩⟩
  · exact h
  · exact h.fresh i
  · have hb := (h.fresh i).directory (createParent_addr hparent).1 hdir
    exact (h.fresh i).of_data (appendEntry_table happend hb)

theorem BlocksInRange.mkdir (h : BlocksInRange s.mem) {path : Str} {result : Int}
    (hcall : abyssfsMkdir s path = some (result, s')) : BlocksInRange s'.mem := by
  cases abyssfsMkdir_outcome hcall with
  | noParent => exact h
  | noInode => exact h
  | noBlock => exact h.fresh _
  | noDirectory _ hi _ hb => exact h.prepared _ hi.2 hb.1 hb.2
  | @made p num base i b pb e m' hparent hi hb hdir happend =>
      have hprepared := h.prepared num hi.2 hb.1 hb.2
      have hpb := hprepared.directory (mkdirParent_addr hparent).1 hdir
      exact hprepared.of_data (appendEntry_table happend hpb)

theorem releaseInode_blocks (s : Abyssfs) (i n : Nat) :
    blocks (releaseInode s i).mem (inodeAddr n) = blocks s.mem (inodeAddr n) := by
  by_cases hi : i < 512
  · rw [releaseInode_mem s hi]
    exact read32_write32_of_disjoint _ _ (by simp only [inodeAddr_eq]; omega)
  · rw [releaseInode, getInode_of_ge (by omega)]

theorem releaseInode_size (s : Abyssfs) (i n : Nat) :
    size (releaseInode s i).mem (inodeAddr n) = size s.mem (inodeAddr n) := by
  by_cases hi : i < 512
  · rw [releaseInode_mem s hi]
    exact read32_write32_of_disjoint _ _ (by simp only [inodeAddr_eq]; omega)
  · rw [releaseInode, getInode_of_ge (by omega)]

theorem BlocksInRange.unlink (h : BlocksInRange s.mem) {path : Str} {result : Int}
    (hcall : abyssfsUnlink s path = some (result, s')) : BlocksInRange s'.mem := by
  unfold abyssfsUnlink at hcall
  dsimp only at hcall
  split at hcall
  · cases hcall
  · cases hcall
    exact h
  · rename_i dir hfind
    have hdir : 36864 ≤ dir := findEntry_ge heapSize hfind
    rw [Option.map_eq_some_iff] at hcall
    obtain ⟨m, hremove, heq⟩ := hcall
    cases heq
    exact (h.of_blocks fun n _ => releaseInode_blocks s _ n).of_data fun x hx =>
      removeEntry_below hremove (by omega)

theorem BlocksInRange.write (h : BlocksInRange s.mem) (file : VfsFile) (data : Str) :
    BlocksInRange (abyssfsWrite s file data).2.mem := by
  by_cases hn : file.privateData % 2 ^ 32 < 512
  · have hsame : abyssfsWrite s file data =
        abyssfsWrite s { file with privateData := file.privateData % 2 ^ 32 } data := by
      rw [abyssfsWrite, abyssfsWrite, Nat.mod_mod]
    set n := file.privateData % 2 ^ 32
    have hrange : blocks s.mem (inodeAddr n) < 64 := by
      rcases h n hn with hzero | ⟨_, hlt⟩
      · omega
      · exact hlt
    rw [hsame]
    rcases abyssfsWrite_cases s { file with privateData := n } data rfl hn hrange with
      ⟨_, _, hcall⟩ | ⟨b, _, hb9, hb64, _, hcall⟩ | ⟨hblock, hcall⟩
    · rw [hcall]
      exact h
    · rw [hcall]
      intro k hk
      by_cases hkn : k = n
      · right
        rw [hkn]
        dsimp only
        rw [writtenFile_blocks _ hb9 hn, blocks, read32_write32]
        omega
      · dsimp only
        rw [(writtenFile_other _ hb9 hk hkn).blocks,
          (SameInode.write32 s.mem 8 b (by omega) hkn).blocks]
        exact h k hk
    · rw [hcall]
      have hb9 := ((h n hn).resolve_left hblock).1
      apply h.of_blocks
      intro k hk
      by_cases hkn : k = n
      · rw [hkn]
        exact writtenFile_blocks _ hb9 hn
      · exact (writtenFile_other _ hb9 hk hkn).blocks
  · rw [abyssfsWrite, getInode_of_ge (by omega)]
    exact h

end Calls

/-- The volume as any sequence of calls can leave it, through any handle and with any heap. -/
inductive AbyssReached : Abyssfs → Prop
  | boot (s : Abyssfs) : AbyssReached (bootVolume s).fs
  | create {s s' : Abyssfs} {heapPos heapPos' : Nat} {cwd : Option Str} {path : Str}
      {file : Option VfsFile} (prior : AbyssReached s)
      (call : abyssfsCreate heapPos s cwd path = some (file, heapPos', s')) : AbyssReached s'
  | mkdir {s s' : Abyssfs} {path : Str} {result : Int} (prior : AbyssReached s)
      (call : abyssfsMkdir s path = some (result, s')) : AbyssReached s'
  | unlink {s s' : Abyssfs} {path : Str} {result : Int} (prior : AbyssReached s)
      (call : abyssfsUnlink s path = some (result, s')) : AbyssReached s'
  | write {s : Abyssfs} (prior : AbyssReached s) (file : VfsFile) (data : Str) :
      AbyssReached (abyssfsWrite s file data).2

/-- No sequence of calls makes an inode name a block that is not a data block. -/
theorem AbyssReached.blocksInRange {s : Abyssfs} (h : AbyssReached s) : BlocksInRange s.mem := by
  induction h with
  | boot s =>
      intro n hn
      by_cases hroot : n = 1
      · subst hroot
        right
        change 9 ≤ blocks (bootVolume s).fs.mem rootInode ∧
          blocks (bootVolume s).fs.mem rootInode < 64
        rw [boot_blocks_root]
        omega
      · exact Or.inl (boot_blocks s hn hroot)
  | create _ call ih => exact ih.create call
  | mkdir _ call ih => exact ih.mkdir call
  | unlink _ call ih => exact ih.unlink call
  | write _ file data ih => exact ih.write file data

/-! A file without a block is empty. -/

/-- An inode that names no block has no data. -/
def SizedByBlock (m : Memory) : Prop :=
  ∀ n < 512, blocks m (inodeAddr n) = 0 → size m (inodeAddr n) = 0

section Sizes

variable {m m' : Memory} {s s' : Abyssfs}

theorem SizedByBlock.of_inodes (h : SizedByBlock m)
    (hm : ∀ n < 512, blocks m' (inodeAddr n) = 0 → SameInode m m' n ∨ size m' (inodeAddr n) = 0) :
    SizedByBlock m' := by
  intro n hn hzero
  rcases hm n hn hzero with hsame | hempty
  · rw [hsame.size]
    exact h n hn (hsame.blocks.symm.trans hzero)
  · exact hempty

theorem SizedByBlock.of_data (h : SizedByBlock m) (hm : ∀ x < 36864, m' x = m x) :
    SizedByBlock m' :=
  h.of_inodes fun _ hn _ => .inl (SameInode.of_data hn hm)

theorem SizedByBlock.fresh (h : SizedByBlock m) (i : Nat) : SizedByBlock (freshInode m i) := by
  apply h.of_inodes
  intro n _ _
  by_cases hni : n = i
  · rw [hni]
    exact .inr (freshInode_size m i)
  · exact .inl (freshInode_other m hni)

theorem SizedByBlock.prepared (h : SizedByBlock m) {i b : Nat} (parent : Nat) (hi : i < 512)
    (hb : 9 ≤ b) (hb' : b < 64) : SizedByBlock (preparedDir m i b parent) := by
  apply h.of_inodes
  intro n hn hzero
  by_cases hni : n = i
  · rw [hni, preparedDir_blocks m parent hb hb' hi] at hzero
    omega
  · exact .inl (preparedDir_other m parent hb hn hni)

theorem SizedByBlock.create (h : SizedByBlock s.mem) (hrange : BlocksInRange s.mem)
    {heapPos heapPos' : Nat} {cwd : Option Str} {path : Str} {file : Option VfsFile}
    (hcall : abyssfsCreate heapPos s cwd path = some (file, heapPos', s')) :
    SizedByBlock s'.mem := by
  rcases abyssfsCreate_cases hcall with ⟨_, rfl, _⟩ | ⟨i, _, _, _, _, ⟨_, rfl⟩ |
    ⟨p, filename, b, e, m', hparent, hdir, happend, rfl, _⟩⟩
  · exact h
  · exact h.fresh i
  · have hb := (hrange.fresh i).directory (createParent_addr hparent).1 hdir
    exact (h.fresh i).of_data (appendEntry_table happend hb)

theorem SizedByBlock.mkdir (h : SizedByBlock s.mem) (hrange : BlocksInRange s.mem) {path : Str}
    {result : Int} (hcall : abyssfsMkdir s path = some (result, s')) : SizedByBlock s'.mem := by
  cases abyssfsMkdir_outcome hcall with
  | noParent => exact h
  | noInode => exact h
  | noBlock => exact h.fresh _
  | noDirectory _ hi _ hb => exact h.prepared _ hi.2 hb.1 hb.2
  | @made p num base i b pb e m' hparent hi hb hdir happend =>
      have hpb := (hrange.prepared num hi.2 hb.1 hb.2).directory (mkdirParent_addr hparent).1 hdir
      exact (h.prepared num hi.2 hb.1 hb.2).of_data (appendEntry_table happend hpb)

theorem SizedByBlock.unlink (h : SizedByBlock s.mem) {path : Str} {result : Int}
    (hcall : abyssfsUnlink s path = some (result, s')) : SizedByBlock s'.mem := by
  unfold abyssfsUnlink at hcall
  dsimp only at hcall
  split at hcall
  · cases hcall
  · cases hcall
    exact h
  · rename_i dir hfind
    have hdir : 36864 ≤ dir := findEntry_ge heapSize hfind
    rw [Option.map_eq_some_iff] at hcall
    obtain ⟨m, hremove, heq⟩ := hcall
    cases heq
    have hreleased : SizedByBlock (releaseInode s (entryInode s.mem dir)).mem := by
      intro n hn hzero
      rw [releaseInode_blocks] at hzero
      rw [releaseInode_size]
      exact h n hn hzero
    exact hreleased.of_data fun x hx => removeEntry_below hremove (by omega)

theorem SizedByBlock.write (h : SizedByBlock s.mem) (hrange : BlocksInRange s.mem) (file : VfsFile)
    (data : Str) : SizedByBlock (abyssfsWrite s file data).2.mem := by
  by_cases hn : file.privateData % 2 ^ 32 < 512
  · have hsame : abyssfsWrite s file data =
        abyssfsWrite s { file with privateData := file.privateData % 2 ^ 32 } data := by
      rw [abyssfsWrite, abyssfsWrite, Nat.mod_mod]
    set n := file.privateData % 2 ^ 32
    have hlt : blocks s.mem (inodeAddr n) < 64 := by
      rcases hrange n hn with hzero | ⟨_, hlt⟩
      · omega
      · exact hlt
    rw [hsame]
    rcases abyssfsWrite_cases s { file with privateData := n } data rfl hn hlt with
      ⟨_, _, hcall⟩ | ⟨b, _, hb9, hb64, _, hcall⟩ | ⟨hblock, hcall⟩
    · rw [hcall]
      exact h
    · rw [hcall]
      apply h.of_inodes
      intro k hk hzero
      by_cases hkn : k = n
      · subst hkn
        dsimp only at hzero
        rw [writtenFile_blocks _ hb9 hn, blocks, read32_write32] at hzero
        omega
      · exact .inl ((SameInode.write32 s.mem 8 b (by omega) hkn).trans
          (writtenFile_other _ hb9 hk hkn))
    · rw [hcall]
      have hb9 := ((hrange n hn).resolve_left hblock).1
      apply h.of_inodes
      intro k hk hzero
      by_cases hkn : k = n
      · subst hkn
        exact absurd ((writtenFile_blocks _ hb9 hn).symm.trans hzero) hblock
      · exact .inl (writtenFile_other _ hb9 hk hkn)
  · rw [abyssfsWrite, getInode_of_ge (by omega)]
    exact h

end Sizes

/-- Data comes with a block. -/
theorem AbyssReached.sizedByBlock {s : Abyssfs} (h : AbyssReached s) : SizedByBlock s.mem := by
  induction h with
  | boot s =>
      intro n hn hzero
      have hroot : n ≠ 1 := by
        rintro rfl
        rw [← rootInode_eq, boot_blocks_root] at hzero
        omega
      rw [(boot_inode s hn).size]
      exact boot_word s hn hroot (by omega)
  | create prior call ih => exact ih.create prior.blocksInRange call
  | mkdir prior call ih => exact ih.mkdir prior.blocksInRange call
  | unlink _ call ih => exact ih.unlink call
  | write prior file data ih => exact ih.write prior.blocksInRange file data

end Chthon
