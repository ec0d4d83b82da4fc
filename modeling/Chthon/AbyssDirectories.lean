import Chthon.AbyssListing
import Chthon.AbyssReach
import Chthon.AbyssSession

/-! Every directory in use, and not only the root, as a list of pairs. A property `Q` of such lists
is followed through the calls: what an entry appended to a block, a new directory and an entry taken
out of the root ask of it is stated once. -/

namespace Chthon

open ByteMemory PathText

/-- Inode `n` has the mode of a directory. -/
def IsDirectory (m : Memory) (n : Nat) : Prop := (mode m (inodeAddr n)).testBit 14 = true

/-- Every directory has a number `alloc_inode` hands out and lists pairs that satisfy `Q`. -/
def Listed (Q : List (Nat × Str) → Prop) (s : Abyssfs) : Prop :=
  ∀ n < 512, IsDirectory s.mem n →
    1 ≤ n ∧ ∃ rs, DirAt s.mem (blocks s.mem (inodeAddr n)) rs ∧ Q (rs.map DirEntry.pair)

/-- What `Q` has to allow: new directories, and listings with entries left out. -/
structure AllowsEdits (Q : List (Nat × Str) → Prop) : Prop where
  empty : ∀ i p, Q [(i, ascii "."), (p, ascii "..")]
  sublist : ∀ ps qs : List (Nat × Str), qs.Sublist ps → Q ps → Q qs

/-- Block `b` is that of a directory. -/
def DirectoryBlock (m : Memory) (b : Nat) : Prop :=
  ∃ n < 512, IsDirectory m n ∧ blocks m (inodeAddr n) = b

/-- A record of this name can be added to whatever block `b` lists. -/
def Extends (Q : List (Nat × Str) → Prop) (m : Memory) (b : Nat) (name : Str) : Prop :=
  ∀ rs i, DirAt m b rs → Q (rs.map DirEntry.pair) → Q (rs.map DirEntry.pair ++ [(i, name)])

/-- The walk of a new directory in the next free block ends behind its two records. -/
def CleanBlock (s : Abyssfs) : Prop :=
  (allocBlock s).1 = 0 ∨ s.mem ((allocBlock s).1 * 4096 + 261) = 0

/-- A handle on inode `n` writes to a file in use, or to a new block. -/
def WritesFile (s : Abyssfs) (n : Nat) : Prop :=
  ¬ IsDirectory s.mem n ∧ (mode s.mem (inodeAddr n) ≠ 0 ∨ blocks s.mem (inodeAddr n) = 0)

section Directories

variable {Q : List (Nat × Str) → Prop} {s s' : Abyssfs} {es : List DirEntry} {n b i : Nat}

theorem IsDirectory.inUse {m : Memory} (h : IsDirectory m n) : mode m (inodeAddr n) ≠ 0 := by
  intro hzero
  rw [IsDirectory, hzero] at h
  simp at h

theorem SameInode.isDirectory {m m' : Memory} (h : SameInode m m' n) :
    IsDirectory m' n ↔ IsDirectory m n := by
  rw [IsDirectory, IsDirectory, h.mode]

/-- The pairs a block lists are what `abyssfs_read_dir` decodes. -/
theorem DirAt.pairs_unique {m : Memory} {rs rs' : List DirEntry} (h : DirAt m b rs)
    (h' : DirAt m b rs') : rs.map DirEntry.pair = rs'.map DirEntry.pair := by
  have hlen := (Listing.bound h).2
  have hlen' := (Listing.bound h').2
  have hdecode : (rs.map DirEntry.pair).take 4096 = (rs'.map DirEntry.pair).take 4096 := by
    apply Option.some.inj
    rw [← Listing.direntsFrom h, ← Listing.direntsFrom h']
  rwa [List.take_of_length_le (by rw [List.length_map]; omega),
    List.take_of_length_le (by rw [List.length_map]; omega)] at hdecode

theorem Owned.block_range (h : Owned es s) (hn : n < 512) :
    blocks s.mem (inodeAddr n) = 0 ∨
      9 ≤ blocks s.mem (inodeAddr n) ∧ blocks s.mem (inodeAddr n) < 64 := by
  by_cases hone : n = 1
  · rw [hone, ← rootInode_eq, h.rootBlock]
    omega
  · rcases h.range n hn hone with hzero | hrange
    · exact .inl hzero
    · exact .inr ⟨by omega, hrange.2⟩

theorem Owned.rootDirectory (h : Owned es s) : IsDirectory s.mem 1 := by
  rw [IsDirectory, ← rootInode_eq, h.rootMode]
  decide

/-- A directory listed in a state is listed in another if its inode and its block are the same, or
if the new state lists it anew. -/
theorem Listed.frame (h : Listed Q s)
    (hdir : ∀ n < 512, IsDirectory s'.mem n →
      (SameInode s.mem s'.mem n ∧ ∀ x, blocks s.mem (inodeAddr n) * 4096 ≤ x →
        x < blocks s.mem (inodeAddr n) * 4096 + 4096 → s'.mem x = s.mem x) ∨
      1 ≤ n ∧ ∃ rs, DirAt s'.mem (blocks s'.mem (inodeAddr n)) rs ∧ Q (rs.map DirEntry.pair)) :
    Listed Q s' := by
  intro n hn hdirectory
  rcases hdir n hn hdirectory with ⟨hsame, hbytes⟩ | hlisted
  · obtain ⟨hlo, rs, hrs, hq⟩ := h n hn (hsame.isDirectory.mp hdirectory)
    rw [hsame.blocks]
    exact ⟨hlo, rs, hrs.congr hbytes, hq⟩
  · exact hlisted

theorem boot_listed (hallows : AllowsEdits Q) (s₀ : Abyssfs) : Listed Q (bootVolume s₀).fs := by
  intro n hn hdir
  have hone : n = 1 := by
    by_contra hne
    exact hdir.inUse (boot_mode s₀ hn hne)
  rw [hone, ← rootInode_eq, boot_blocks_root]
  exact ⟨le_rfl, _, boot_root_dir s₀, hallows.empty 1 1⟩

/-! Taking an inode and a block. -/

theorem Listed.alloc (h : Listed Q s) (howned : Owned es s) (hi : i < 512) :
    Listed Q { s with mem := freshInode s.mem i } := by
  apply h.frame
  intro n hn hdir
  have hne : n ≠ i := by
    rintro rfl
    rw [IsDirectory, freshInode_mode] at hdir
    exact absurd hdir (by decide)
  have hrange := howned.block_range hn
  refine .inl ⟨freshInode_other s.mem hne, ?_⟩
  intro x hlo hhi
  exact freshInode_outside s.mem (by rw [inodeAddr_eq]; omega)

/-- A directory that has been prepared in a clean block is listed, and so are the others. -/
theorem Listed.prepare (h : Listed Q s) (howned : Owned es s) (hallows : AllowsEdits Q)
    {parent : Nat} (hi1 : 1 ≤ i) (hi : i < 512) (hparent : parent < 2 ^ 32) (hb9 : 9 ≤ b) (hb64 : b < 64)
    (hunused : s.used b = false) (hclean : s.mem (b * 4096 + 261) = 0) :
    Listed Q { s.take b with mem := preparedDir s.mem i b parent } := by
  apply h.frame
  intro n hn hdir
  by_cases hne : n = i
  · subst hne
    right
    have hlisted := preparedDir_dir s.mem hb9 hi hparent hclean
    rw [preparedDir_blocks s.mem parent hb9 hb64 hi]
    exact ⟨hi1, _, hlisted, hallows.empty n parent⟩
  · left
    have hsame := preparedDir_other s.mem parent hb9 hn hne (i := i)
    have hother := howned.block_ne hn (hsame.isDirectory.mp hdir).inUse hunused (by omega)
    have hrange := howned.block_range hn
    refine ⟨hsame, ?_⟩
    intro x hlo hhi
    exact preparedDir_outside s.mem parent (by rw [inodeAddr_eq]; omega) (by omega)

/-! Appending a record. -/

theorem appendEntry_block_lt {m m' : Memory} {e : Nat} {name : Str}
    (happend : appendEntry m b i name = some (e, m')) : b < 64 := by
  rw [appendEntry, getBlock] at happend
  split_ifs at happend with hb
  exact Nat.not_le.mp hb

/-- A record appended to a block joins the pairs of the directories there. -/
theorem DirAt.append_pair {m m' : Memory} {rs : List DirEntry} {e : Nat} {name : Str}
    (h : DirAt m b rs) (hroom : AppendRoom m b name) (hi : i < 2 ^ 32) (hnul : 0 ∉ name)
    (happend : appendEntry m b i name = some (e, m')) :
    DirAt m' b (rs ++ [⟨i, name, hi, hnul, hroom.1⟩]) := by
  have hb := appendEntry_block_lt happend
  have hspare := hroom.2 _ (appendPosition_dir hb h)
  let r : DirEntry := ⟨i, name, hi, hnul, hroom.1⟩
  have hfits : extent rs + r.span + 6 ≤ 4096 := by
    rw [show (minRecLen name.length).toNat = r.span from r.minRecLen_eq] at hspare
    omega
  obtain ⟨m'', happend', hlisted, -⟩ := appendEntry_dir hb h r hfits
  rw [happend, Option.some.injEq, Prod.mk.injEq] at happend'
  rw [happend'.2]
  exact hlisted

theorem Listed.append (h : Listed Q s) {name : Str} {e : Nat} {m' : Memory} (hb : 9 ≤ b)
    (hroom : AppendRoom s.mem b name) (hi : i < 2 ^ 32) (hnul : 0 ∉ name)
    (hextends : DirectoryBlock s.mem b → Extends Q s.mem b name) (happend : appendEntry s.mem b i name = some (e, m')) :
    Listed Q { s with mem := m' } := by
  have honly := hroom.onlyBlock happend
  apply h.frame
  intro n hn hdir
  have hsame : SameInode s.mem m' n := SameInode.of_data hn fun x hx => honly x (by omega)
  by_cases hblock : blocks s.mem (inodeAddr n) = b
  · have hbefore := hsame.isDirectory.mp hdir
    obtain ⟨hlo, rs, hrs, hq⟩ := h n hn hbefore
    rw [hblock] at hrs
    right
    rw [hsame.blocks, hblock]
    refine ⟨hlo, _, hrs.append_pair hroom hi hnul happend, ?_⟩
    rw [List.map_append]
    exact hextends ⟨n, hn, hbefore, hblock⟩ rs i hrs hq
  · exact .inl ⟨hsame, fun x hlo hhi => honly x (by omega)⟩

/-! The calls. -/

theorem Owned.directoryBlock_ge (h : Owned es s) {p : Nat} (hp : ∃ n < 512, p = inodeAddr n)
    (hdir : directoryBlock s.mem p = some b) : 9 ≤ b := by
  obtain ⟨n, hn, rfl⟩ := hp
  have hblock := h.directoryBlock_eq hn hdir
  omega

theorem Listed.create (h : Listed Q s) (howned : Owned es s) {heapPos heapPos' : Nat}
    {cwd : Option Str} {path : Str} {file : Option VfsFile} (hnul : 0 ∉ path)
    (hroom : ∀ p filename b,
      createParent (allocInode s).2.mem cwd (skipSlash path) = some (some (p, filename)) →
      directoryBlock (allocInode s).2.mem p = some b →
      AppendRoom (allocInode s).2.mem b filename ∧
        (DirectoryBlock (allocInode s).2.mem b → Extends Q (allocInode s).2.mem b filename))
    (hcall : abyssfsCreate heapPos s cwd path = some (file, heapPos', s')) : Listed Q s' := by
  rcases abyssfsCreate_cases hcall with ⟨-, rfl, -⟩ | ⟨i, hi1, hi, hfree, halloc, hrest⟩
  · exact h
  have hfresh := h.alloc howned hi
  obtain ⟨-, -, hownedFresh⟩ := howned.alloc hi1 hi hfree
  rw [halloc] at hroom
  rcases hrest with ⟨-, rfl⟩ | ⟨p, filename, b, e, m', hparent, hdir, happend, rfl, -⟩
  · exact hfresh
  obtain ⟨hp, hname⟩ := createParent_addr hparent
  obtain ⟨hspare, hextends⟩ := hroom p filename b hparent hdir
  have hlt : i < 2 ^ 32 := by omega
  exact hfresh.append (hownedFresh.directoryBlock_ge hp hdir) hspare hlt
    (hname (skipSlash_nul_free hnul)) hextends happend

theorem mkdirParent_num {m : Memory} {path base : Str} {p num : Nat}
    (h : mkdirParent m path = some (some (p, num, base))) : num < 2 ^ 32 := by
  have hnum : ∀ q, parentInodeNum q < 2 ^ 32 := by
    intro q
    rw [parentInodeNum]
    cases hfind : (List.range' 1 maxInodes).find? fun i => getInode i = some q with
    | none => decide
    | some i =>
        have hmem := List.mem_of_find?_eq_some hfind
        rw [List.mem_range'_1, maxInodes_eq] at hmem
        rw [Option.getD_some]
        omega
  unfold mkdirParent at h
  split_ifs at h with hlen
  split at h
  · cases h
  · split_ifs at h with hempty hroot
    · cases h
    · cases h
      decide
    · simp only [Option.map_eq_some_iff, Prod.mk.injEq] at h
      obtain ⟨-, -, q, -, -, rfl, -⟩ := h
      exact hnum q

/-- The target of `abyssfs_mkdir` from the values it looks up on the way. -/
theorem mkdirTarget_unique {path base base' : Str} {m : Memory} {p num pb pb' : Nat}
    (htarget : mkdirTarget s path = some (some (m, pb', base')))
    (hparent : mkdirParent s.mem path = some (some (p, num, base)))
    (hinode : (allocInode s).1 = i) (hblock : (allocBlock s).1 = b)
    (hdir : directoryBlock (preparedDir s.mem i b num) p = some pb) :
    m = preparedDir s.mem i b num ∧ pb' = pb ∧ base' = base := by
  rw [mkdirTarget, hparent] at htarget
  simp only [hinode, hblock] at htarget
  split_ifs at htarget
  · cases htarget
  · rw [hdir] at htarget
    cases htarget
    exact ⟨rfl, rfl, rfl⟩

theorem CleanBlock.zero (h : CleanBlock s) (hb : (allocBlock s).1 = b) (hb9 : 9 ≤ b) :
    s.mem (b * 4096 + 261) = 0 := by
  rcases h with hnone | hzero
  · omega
  · rwa [hb] at hzero

theorem Listed.mkdir (h : Listed Q s) (howned : Owned es s) (hallows : AllowsEdits Q) {path : Str}
    {result : Int} (hnul : 0 ∉ path) (hclean : CleanBlock s)
    (hroom : ∀ m b base, mkdirTarget s path = some (some (m, b, base)) →
      AppendRoom m b base ∧ (DirectoryBlock m b → Extends Q m b base))
    (hcall : abyssfsMkdir s path = some (result, s')) : Listed Q s' := by
  rcases abyssfsMkdir_cases hcall with ⟨-, -, rfl⟩ | ⟨p, num, base, hparent, hrest⟩
  · exact h
  obtain ⟨hp, hname⟩ := mkdirParent_addr hparent
  rcases hrest with ⟨-, -, rfl⟩ | ⟨i, hi1, hi, hfree, -, hrest⟩
  · exact h
  rcases hrest with ⟨-, rfl⟩ | ⟨b, hb9, hb64, hunused, hb, hrest⟩
  · exact h.alloc howned hi
  have hprep := h.prepare howned hallows hi1 hi (mkdirParent_num hparent) hb9 hb64 hunused
    (hclean.zero hb hb9)
  rcases hrest with ⟨-, -, rfl⟩ | ⟨pb, e, m', hdir, htarget, happend, -, rfl⟩
  · exact hprep
  · obtain ⟨hspare, hextends⟩ := hroom _ _ _ htarget
    have hownedPrep := howned.prepare num hi1 hi hfree hb9 hb64 hunused
    exact hprep.append (hownedPrep.directoryBlock_ge hp hdir) hspare (by omega) (hname hnul)
      hextends happend

/-- The root loses the entry that is unlinked; the other directories are as they were. -/
theorem Listed.unlink (h : Listed Q s) (howned : Owned es s) (hallows : AllowsEdits Q) {path : Str}
    {result : Int} (hnul : 0 ∉ path) (hdot : skipSlash path ≠ ascii ".")
    (hdotdot : skipSlash path ≠ ascii "..") (hcall : abyssfsUnlink s path = some (result, s')) :
    Listed Q s' := by
  rcases howned.unlink hnul hdot hdotdot with ⟨-, hsame, -⟩ |
    ⟨pre, r, post, s₁, rfl, -, -, hsome, -, hafter, -, honly⟩
  · rw [hsame, Option.some.injEq, Prod.mk.injEq] at hcall
    rw [← hcall.2]
    exact h
  rw [hsome, Option.some.injEq, Prod.mk.injEq] at hcall
  obtain ⟨-, rfl⟩ := hcall
  have hr := (howned.entries.inUse r (by simp)).2.1
  apply h.frame
  intro n hn hdir
  have hne : n ≠ r.inode := by
    rintro rfl
    exact hdir.inUse (released_mode hr honly)
  have hsame := released_other honly hn hne
  by_cases hone : n = 1
  · subst hone
    right
    obtain ⟨-, rs, hrs, hq⟩ := h 1 hn howned.rootDirectory
    rw [← rootInode_eq, howned.rootBlock] at hrs
    rw [hrs.pairs_unique howned.entries.listed] at hq
    rw [← rootInode_eq, hafter.rootBlock]
    refine ⟨le_rfl, _, hafter.entries.listed, hallows.sublist _ _ ?_ hq⟩
    exact ((((List.sublist_cons_self r post).append_left pre).cons_cons _).cons_cons _).map _
  · left
    have hmode := (hsame.isDirectory.mp hdir).inUse
    have hrange := howned.range n hn hone
    refine ⟨hsame, ?_⟩
    intro x hlo hhi
    rw [honly x (by omega), write32_outside _ _ (by rw [inodeAddr_eq]; omega)]

/-- What is written to the block `c` of inode `n` is no part of a directory with another block. -/
theorem Listed.written (h : Listed Q s) (howned : Owned es s) {m : Memory} {c : Nat} {data : Str}
    (hn : n < 512) (hc : 9 ≤ c) (hlen : data.length ≤ 4096)
    (hsame : ∀ k < 512, k ≠ n → SameInode s.mem m k)
    (hbytes : ∀ x, x < inodeAddr n ∨ inodeAddr n + 64 ≤ x → m x = s.mem x)
    (hfile : ¬ IsDirectory m n)
    (hapart : ∀ k < 512, k ≠ n → IsDirectory s.mem k → blocks s.mem (inodeAddr k) ≠ c)
    (hmem : s'.mem = writtenFile m n c data) : Listed Q s' := by
  apply h.frame
  rw [hmem]
  intro k hk hdir
  have hne : k ≠ n := by
    rintro rfl
    rw [IsDirectory, writtenFile_mode m hc hn] at hdir
    exact hfile hdir
  have hother : SameInode s.mem (writtenFile m n c data) k :=
    (hsame k hk hne).trans (writtenFile_other m hc hk hne)
  have hblock := hapart k hk hne (hother.isDirectory.mp hdir)
  have hrange := howned.block_range hk
  refine .inl ⟨hother, ?_⟩
  intro x hlo hhi
  calc writtenFile m n c data x = m x :=
        writtenFile_outside m (by rw [inodeAddr_eq]; omega) (by omega)
    _ = s.mem x := hbytes x (by rw [inodeAddr_eq]; omega)

/-- A write changes the inode and the block of a file. -/
theorem Listed.write (h : Listed Q s) (howned : Owned es s) {file : VfsFile} (buf : Str)
    (hfile : file.privateData = n) (hn : n < 512) (hwrites : WritesFile s n) :
    Listed Q (abyssfsWrite s file buf).2 := by
  obtain ⟨hnotdir, hlive⟩ := hwrites
  have hlen : (buf.take 4096).length ≤ 4096 := by simp
  rcases abyssfsWrite_cases s file buf hfile hn (howned.blocks_lt hn) with ⟨-, -, hcall⟩ |
    ⟨b, -, hb9, -, hunused, hcall⟩ | ⟨hblock, hcall⟩
  · rw [hcall]
    exact h
  · rw [hcall]
    apply h.written howned hn hb9 hlen
    · exact fun k hk hne => SameInode.write32 s.mem 8 b (by omega) hne
    · exact fun x hx => write32_outside _ _ (by omega)
    · rw [IsDirectory, mode, read32_write32_of_disjoint _ _ (by omega)]
      exact hnotdir
    · exact fun k hk _ hdir => howned.block_ne hk hdir.inUse hunused (by omega)
    · rfl
  · rw [hcall]
    have hge : 9 ≤ blocks s.mem (inodeAddr n) := ((howned.block_range hn).resolve_left hblock).1
    apply h.written (m := s.mem) howned hn hge hlen
    · exact fun k _ _ => SameInode.refl s.mem k
    · exact fun _ _ => rfl
    · exact hnotdir
    · intro k hk hne hdir heq
      exact hne (howned.distinct k hk n hn hdir.inUse (hlive.resolve_right hblock) heq (heq ▸ hblock))
    · rfl

end Directories

end Chthon
