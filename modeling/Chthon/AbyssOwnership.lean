import Chthon.AbyssAppend

/-! Which inode owns which block. `Owned` is what the operations keep between them: the root is a
directory in block 9 whose records, beyond the two it starts with, name distinct inodes in use;
blocks of inodes in use are marked and never shared. -/

namespace Chthon

open ByteMemory PathText

/-- The entries of the root directory beyond its own two. -/
structure RootEntries (s : Abyssfs) (es : List DirEntry) : Prop where
  listed : DirAt s.mem 9 (dotEntry 1 rootNumber_lt :: dotdotEntry 1 rootNumber_lt :: es)
  inUse : ∀ r ∈ es, 2 ≤ r.inode ∧ r.inode < 512 ∧ mode s.mem (inodeAddr r.inode) ≠ 0
  nodup : (es.map DirEntry.inode).Nodup

structure Owned (es : List DirEntry) (s : Abyssfs) : Prop where
  rootMode : mode s.mem rootInode = dirMode
  rootBlock : blocks s.mem rootInode = 9
  rootUsed : s.used 9 = true
  range : ∀ n < 512, n ≠ 1 → blocks s.mem (inodeAddr n) = 0 ∨
    10 ≤ blocks s.mem (inodeAddr n) ∧ blocks s.mem (inodeAddr n) < 64
  marked : ∀ n < 512, mode s.mem (inodeAddr n) ≠ 0 → blocks s.mem (inodeAddr n) ≠ 0 →
    s.used (blocks s.mem (inodeAddr n)) = true
  distinct : ∀ n < 512, ∀ k < 512, mode s.mem (inodeAddr n) ≠ 0 → mode s.mem (inodeAddr k) ≠ 0 →
    blocks s.mem (inodeAddr n) = blocks s.mem (inodeAddr k) →
    blocks s.mem (inodeAddr n) ≠ 0 → n = k
  entries : RootEntries s es

theorem boot_owned (s : Abyssfs) : Owned [] (bootVolume s).fs where
  rootMode := boot_mode_root s
  rootBlock := boot_blocks_root s
  rootUsed := by simp [boot_used]
  range n hn hne := Or.inl (boot_blocks s hn hne)
  marked n hn hmode hblock := by
    by_cases hne : n = 1
    · subst hne
      rw [← rootInode_eq, boot_blocks_root, boot_used]
      rfl
    · exact absurd (boot_blocks s hn hne) hblock
  distinct n hn k hk hmode hmode' _ _ := by
    have hone : ∀ j < 512, mode (bootVolume s).fs.mem (inodeAddr j) ≠ 0 → j = 1 := by
      intro j hj hne
      by_contra hj1
      exact hne (boot_mode s hj hj1)
    rw [hone n hn hmode, hone k hk hmode']
  entries := ⟨boot_root_dir s, by simp, by simp⟩

section Keep

variable {es : List DirEntry} {s s' : Abyssfs}

/-- No inode in use owns a free block. -/
theorem Owned.block_ne (h : Owned es s) {n b : Nat} (hn : n < 512)
    (hmode : mode s.mem (inodeAddr n) ≠ 0) (hfree : s.used b = false) (hb : b ≠ 0) :
    blocks s.mem (inodeAddr n) ≠ b := by
  rintro rfl
  rw [h.marked n hn hmode hb] at hfree
  cases hfree

/-- The step rule for one inode other than the root: what is asked of its new fields, and that the
rest of the table, the root directory and the marks of other owners stay. -/
theorem Owned.update (h : Owned es s) {i : Nat} (hi : i < 512) (hne : i ≠ 1)
    (hother : ∀ n < 512, n ≠ i → SameInode s.mem s'.mem n)
    (hroot : ∀ x, 36864 ≤ x → x < 40960 → s'.mem x = s.mem x)
    (hused : ∀ b, s.used b = true → s'.used b = true)
    (hinUse : mode s.mem (inodeAddr i) ≠ 0 → mode s'.mem (inodeAddr i) ≠ 0)
    (hrange : blocks s'.mem (inodeAddr i) = 0 ∨
      10 ≤ blocks s'.mem (inodeAddr i) ∧ blocks s'.mem (inodeAddr i) < 64)
    (hown : mode s'.mem (inodeAddr i) ≠ 0 → blocks s'.mem (inodeAddr i) ≠ 0 →
      s'.used (blocks s'.mem (inodeAddr i)) = true ∧ ∀ n < 512, n ≠ i →
        mode s.mem (inodeAddr n) ≠ 0 →
        blocks s.mem (inodeAddr n) ≠ blocks s'.mem (inodeAddr i)) : Owned es s' := by
  have hone := hother 1 (by omega) (Ne.symm hne)
  refine ⟨?_, ?_, hused 9 h.rootUsed, ?_, ?_, ?_, ?_⟩
  · rw [rootInode_eq, hone.mode]
    exact h.rootMode
  · rw [rootInode_eq, hone.blocks]
    exact h.rootBlock
  · intro n hn hn1
    by_cases hni : n = i
    · subst hni
      exact hrange
    · rw [(hother n hn hni).blocks]
      exact h.range n hn hn1
  · intro n hn hmode hblock
    by_cases hni : n = i
    · subst hni
      exact (hown hmode hblock).1
    · rw [(hother n hn hni).blocks] at hblock ⊢
      rw [(hother n hn hni).mode] at hmode
      exact hused _ (h.marked n hn hmode hblock)
  · intro n hn k hk hmode hmode' heq hblock
    by_cases hni : n = i
    · by_cases hki : k = i
      · rw [hni, hki]
      · subst hni
        rw [(hother k hk hki).mode] at hmode'
        rw [(hother k hk hki).blocks] at heq
        exact absurd heq.symm ((hown hmode hblock).2 k hk hki hmode')
    · rw [(hother n hn hni).mode] at hmode
      rw [(hother n hn hni).blocks] at heq hblock
      by_cases hki : k = i
      · subst hki
        exact absurd heq ((hown hmode' (heq ▸ hblock)).2 n hn hni hmode)
      · rw [(hother k hk hki).mode] at hmode'
        rw [(hother k hk hki).blocks] at heq
        exact h.distinct n hn k hk hmode hmode' heq hblock
  · obtain ⟨hlisted, hes, hnodup⟩ := h.entries
    refine ⟨hlisted.congr fun x hlo hhi => hroot x (by omega) (by omega), ?_, hnodup⟩
    intro r hr
    obtain ⟨hlo, hhi, hmode⟩ := hes r hr
    refine ⟨hlo, hhi, ?_⟩
    by_cases hri : r.inode = i
    · rw [hri] at hmode ⊢
      exact hinUse hmode
    · rwa [(hother _ hhi hri).mode]

/-- What is written from block 10 on is not part of the invariant. -/
theorem Owned.data (h : Owned es s) {m : Memory} (hm : ∀ x < 40960, m x = s.mem x) :
    Owned es { s with mem := m } := by
  have hsame : ∀ n < 512, SameInode s.mem m n := fun n hn =>
    SameInode.of_data hn fun x hx => hm x (by omega)
  -- inode 0 is as good as any
  refine h.update (i := 0) (by omega) (by omega) (fun n hn _ => hsame n hn)
    (fun x _ hx => hm x hx) (fun _ hused => hused) ?_ ?_ ?_
  · rw [(hsame 0 (by omega)).mode]
    exact id
  · rw [(hsame 0 (by omega)).blocks]
    exact h.range 0 (by omega) (by omega)
  · rw [(hsame 0 (by omega)).mode, (hsame 0 (by omega)).blocks]
    intro hmode hblock
    refine ⟨h.marked 0 (by omega) hmode hblock, ?_⟩
    intro n hn hn0 hmode' heq
    exact hn0 (h.distinct n hn 0 (by omega) hmode' hmode heq (heq ▸ hblock))

/-- The inode `alloc_inode` hands out is neither the root nor named by it. -/
theorem Owned.alloc (h : Owned es s) {i : Nat} (hi1 : 1 ≤ i) (hi : i < 512)
    (hfree : mode s.mem (inodeAddr i) = 0) :
    2 ≤ i ∧ (∀ r ∈ es, r.inode ≠ i) ∧ Owned es { s with mem := freshInode s.mem i } := by
  have hne : i ≠ 1 := by
    rintro rfl
    have hroot := h.rootMode
    rw [rootInode_eq, hfree] at hroot
    cases hroot
  refine ⟨by omega, ?_, ?_⟩
  · rintro r hr rfl
    exact (h.entries.inUse r hr).2.2 hfree
  · refine h.update hi hne (fun n _ hni => freshInode_other s.mem hni) ?_ (fun _ hused => hused)
      (fun hmode => absurd hfree hmode) (Or.inl (freshInode_blocks _ _)) ?_
    · intro x hlo _
      exact freshInode_outside s.mem (by rw [inodeAddr_eq]; omega)
    · intro _ hblock
      exact absurd (freshInode_blocks _ _) hblock

/-- A new directory takes a free inode and a free block. -/
theorem Owned.prepare (h : Owned es s) {i b : Nat} (parent : Nat) (hi1 : 1 ≤ i) (hi : i < 512)
    (hfree : mode s.mem (inodeAddr i) = 0) (hb9 : 9 ≤ b) (hb64 : b < 64)
    (hbfree : s.used b = false) :
    Owned es { s.take b with mem := preparedDir s.mem i b parent } := by
  have hb10 : b ≠ 9 := by
    rintro rfl
    rw [h.rootUsed] at hbfree
    cases hbfree
  have hi2 := (h.alloc hi1 hi hfree).1
  have hblock : blocks (preparedDir s.mem i b parent) (inodeAddr i) = b :=
    preparedDir_blocks s.mem parent hb9 hb64 hi
  refine h.update hi (by omega) (fun n hn hni => preparedDir_other s.mem parent hb9 hn hni) ?_ ?_
    (fun hmode => absurd hfree hmode) (Or.inr ?_) ?_
  · intro x hlo hhi
    exact preparedDir_outside s.mem parent (by rw [inodeAddr_eq]; omega) (by omega)
  · intro c hused
    change (s.take b).used c = true
    rw [take_used s hb64, hused, Bool.true_or]
  · change 10 ≤ blocks (preparedDir s.mem i b parent) (inodeAddr i) ∧ _
    rw [hblock]
    omega
  · intro _ _
    change (s.take b).used (blocks (preparedDir s.mem i b parent) (inodeAddr i)) = true ∧ _
    rw [hblock]
    refine ⟨by simp [take_used s hb64], ?_⟩
    intro n hn _ hmode heq
    exact h.block_ne hn hmode hbfree (by omega) heq

end Keep

/-! Appending to a directory. -/

/-- Where there is room, appending writes nothing outside the block. -/
theorem AppendRoom.onlyBlock {m m' : Memory} {b i e : Nat} {name : Str} (h : AppendRoom m b name)
    (happend : appendEntry m b i name = some (e, m')) : OnlyBlock m m' b := by
  obtain ⟨hshort, hroom⟩ := h
  have hpos := appendEntry_position happend
  have hspare := hroom e hpos
  have hlen : name.length ≤ 255 := by omega
  have hcovers := (minRecLen_covers hlen).mpr hshort
  obtain ⟨e', m'', happend', _, honly⟩ :=
    (appendEntry_inside (i := i) hlen).mpr ⟨hshort, e, hpos, by omega⟩
  rw [happend] at happend'
  cases happend'
  exact honly

section Directory

variable {es : List DirEntry} {s : Abyssfs}

/-- The block a directory inode leads to is the root's or lies behind it. -/
theorem Owned.directoryBlock_eq (h : Owned es s) {n b : Nat} (hn : n < 512)
    (hdir : directoryBlock s.mem (inodeAddr n) = some b) : b = 9 ∨ 10 ≤ b := by
  rw [directoryBlock] at hdir
  by_cases hn1 : n = 1
  · subst hn1
    rw [← rootInode_eq, h.rootBlock] at hdir
    simp at hdir
    omega
  · split_ifs at hdir with hzero hroot
    · rw [rootInode_eq, inodeAddr_inj] at hroot
      exact absurd hroot hn1
    · rw [Option.some.injEq] at hdir
      subst hdir
      rcases h.range n hn hn1 with hrange | hrange
      · exact absurd hrange hzero
      · exact Or.inr hrange.1

/-- A record appended to the root joins its entries; one appended elsewhere changes nothing here. -/
theorem Owned.append (h : Owned es s) {n b i e : Nat} {name : Str} {m' : Memory} (hn : n < 512)
    (hdir : directoryBlock s.mem (inodeAddr n) = some b)
    (happend : appendEntry s.mem b i name = some (e, m')) (hroom : AppendRoom s.mem b name)
    (hi2 : 2 ≤ i) (hi : i < 512) (hmode : mode s.mem (inodeAddr i) ≠ 0)
    (hnew : ∀ r ∈ es, r.inode ≠ i) (hnul : 0 ∉ name) :
    ∃ es', Owned es' { s with mem := m' } := by
  rcases h.directoryBlock_eq hn hdir with rfl | hb
  · let r : DirEntry := ⟨i, name, by omega, hnul, hroom.1⟩
    have hfits : extent (dotEntry 1 rootNumber_lt :: dotdotEntry 1 rootNumber_lt :: es) + r.span + 6 ≤
        4096 := by
      have hspare := hroom.2 _ (appendPosition_dir (by omega) h.entries.listed)
      rw [r.minRecLen_eq] at hspare
      omega
    obtain ⟨m'', happend', hlisted, honly⟩ := appendEntry_dir (by omega) h.entries.listed r hfits
    have hm : m'' = m' := by
      rw [happend, Option.some.injEq, Prod.mk.injEq] at happend'
      exact happend'.2.symm
    subst hm
    have hsame : ∀ k < 512, SameInode s.mem m'' k := fun k hk =>
      SameInode.of_data hk fun x hx => honly x (Or.inl (by omega))
    refine ⟨es ++ [r], ?_, ?_, h.rootUsed, ?_, ?_, ?_, hlisted, ?_, ?_⟩
    · rw [rootInode_eq, (hsame 1 (by omega)).mode]
      exact h.rootMode
    · rw [rootInode_eq, (hsame 1 (by omega)).blocks]
      exact h.rootBlock
    · intro k hk hk1
      rw [(hsame k hk).blocks]
      exact h.range k hk hk1
    · intro k hk
      rw [(hsame k hk).mode, (hsame k hk).blocks]
      exact h.marked k hk
    · intro k hk j hj
      rw [(hsame k hk).mode, (hsame k hk).blocks, (hsame j hj).mode, (hsame j hj).blocks]
      exact h.distinct k hk j hj
    · intro q hq
      rcases List.mem_append.mp hq with hq | hq
      · obtain ⟨hlo, hhi, hq⟩ := h.entries.inUse q hq
        exact ⟨hlo, hhi, by rwa [(hsame _ hhi).mode]⟩
      · obtain rfl := List.mem_singleton.mp hq
        exact ⟨hi2, hi, by rwa [(hsame _ hi).mode]⟩
    · rw [List.map_append, List.map_singleton, List.nodup_append]
      refine ⟨h.entries.nodup, List.nodup_singleton _, ?_⟩
      intro a ha b hb
      obtain ⟨q, hq, rfl⟩ := List.mem_map.mp ha
      rw [List.mem_singleton.mp hb]
      exact hnew q hq
  · exact ⟨es, h.data fun x hx => appendEntry_below happend (by omega)⟩

end Directory

/-! Writing. -/

/-- What a write of `data` to the block `c` of inode `n` leaves behind. -/
def writtenFile (m : Memory) (n c : Nat) (data : Str) : Memory :=
  let m := store m (c * 4096) data
  if data.length > 0 then
    write32 m (inodeAddr n + 4) (size m (inodeAddr n) + data.length)
  else m

section Written

variable (m : Memory) {n c : Nat} {data : Str}

theorem writtenFile_outside {x : Nat} (hsize : x < inodeAddr n + 4 ∨ inodeAddr n + 8 ≤ x)
    (hdata : x < c * 4096 ∨ c * 4096 + data.length ≤ x) : writtenFile m n c data x = m x := by
  simp only [writtenFile]
  split_ifs
  · rw [write32_outside _ _ (by omega), store_outside _ _ hdata]
  · exact store_outside _ _ hdata

theorem writtenFile_other {k : Nat} (hc : 9 ≤ c) (hk : k < 512) (hne : k ≠ n) :
    SameInode m (writtenFile m n c data) k :=
  SameInode.of_bytes fun j hj => writtenFile_outside m (by simp only [inodeAddr_eq]; omega)
    (by simp only [inodeAddr_eq]; omega)

theorem writtenFile_mode (hc : 9 ≤ c) (hn : n < 512) :
    mode (writtenFile m n c data) (inodeAddr n) = mode m (inodeAddr n) :=
  read32_congr fun k hk => writtenFile_outside m (by omega) (by rw [inodeAddr_eq]; omega)

theorem writtenFile_blocks (hc : 9 ≤ c) (hn : n < 512) :
    blocks (writtenFile m n c data) (inodeAddr n) = blocks m (inodeAddr n) :=
  read32_congr fun k hk => writtenFile_outside m (by omega) (by rw [inodeAddr_eq]; omega)

end Written

theorem writeToBlocks_of_block {s : Abyssfs} {n c : Nat} (buf : Str)
    (hblock : blocks s.mem (inodeAddr n) = c) (hc : c ≠ 0) (hc64 : c < 64) :
    writeToBlocks s (inodeAddr n) buf =
      ((buf.take 4096).length, { s with mem := store s.mem (c * 4096) (buf.take 4096) }) := by
  have hmod : c * 4096 % 2 ^ 32 = c * 4096 := Nat.mod_eq_of_lt (by omega)
  simp only [writeToBlocks, hblock, blockSize_eq, hmod]
  rw [if_neg hc]

theorem writeToBlocks_of_alloc {s : Abyssfs} {n b : Nat} (buf : Str)
    (hblock : blocks s.mem (inodeAddr n) = 0) (hb9 : 9 ≤ b) (hb64 : b < 64)
    (halloc : allocBlock s = (b, s.take b)) :
    writeToBlocks s (inodeAddr n) buf = ((buf.take 4096).length, { s.take b with
      mem := store (write32 s.mem (inodeAddr n + 8) b) (b * 4096) (buf.take 4096) }) := by
  have hnew : blocks (write32 s.mem (inodeAddr n + 8) b) (inodeAddr n) = b := by
    rw [blocks, read32_write32]
    omega
  have hmod : b * 4096 % 2 ^ 32 = b * 4096 := Nat.mod_eq_of_lt (by omega)
  obtain ⟨b, rfl⟩ : ∃ c, b = c + 1 := ⟨b - 1, by omega⟩
  simp only [writeToBlocks, hblock, if_true, halloc, take_mem, hnew, blockSize_eq, hmod]

/-- What `abyssfs_write` can do with a handle on inode `n`. -/
theorem abyssfsWrite_cases (s : Abyssfs) (file : VfsFile) (buf : Str) {n : Nat}
    (hfile : file.privateData = n) (hn : n < 512) (hrange : blocks s.mem (inodeAddr n) < 64) :
    (blocks s.mem (inodeAddr n) = 0 ∧ (∀ b, 9 ≤ b → b < 64 → s.used b = true) ∧
      abyssfsWrite s file buf = (0, s)) ∨
    (∃ b, blocks s.mem (inodeAddr n) = 0 ∧ 9 ≤ b ∧ b < 64 ∧ s.used b = false ∧
      abyssfsWrite s file buf = (((buf.take 4096).length : Int), { s.take b with
        mem := writtenFile (write32 s.mem (inodeAddr n + 8) b) n b (buf.take 4096) })) ∨
    (blocks s.mem (inodeAddr n) ≠ 0 ∧
      abyssfsWrite s file buf = (((buf.take 4096).length : Int), { s with
        mem := writtenFile s.mem n (blocks s.mem (inodeAddr n)) (buf.take 4096) })) := by
  have hmod : file.privateData % 2 ^ 32 = n := by
    rw [hfile]
    omega
  rw [abyssfsWrite, hmod, getInode_of_lt hn]
  simp only
  by_cases hblock : blocks s.mem (inodeAddr n) = 0
  · rcases allocBlock_cases s with ⟨halloc, hfull⟩ | ⟨b, hb9, hb64, hfree, halloc⟩
    · refine Or.inl ⟨hblock, hfull, ?_⟩
      simp [writeToBlocks, hblock, halloc]
    · right; left
      refine ⟨b, hblock, hb9, hb64, hfree, ?_⟩
      rw [writeToBlocks_of_alloc buf hblock hb9 hb64 halloc]
      simp only [writtenFile]
      split_ifs <;> rfl
  · right; right
    refine ⟨hblock, ?_⟩
    rw [writeToBlocks_of_block buf rfl hblock hrange]
    simp only [writtenFile]
    split_ifs <;> rfl

theorem Owned.blocks_lt {es : List DirEntry} {s : Abyssfs} (h : Owned es s) {n : Nat}
    (hn : n < 512) : blocks s.mem (inodeAddr n) < 64 := by
  by_cases hn1 : n = 1
  · rw [hn1, ← rootInode_eq, h.rootBlock]
    omega
  · rcases h.range n hn hn1 with hzero | hrange
    · omega
    · exact hrange.2

/-- A write through any handle but one on the root keeps the owners. -/
theorem Owned.write {es : List DirEntry} {s : Abyssfs} (h : Owned es s) {file : VfsFile} {n : Nat}
    (buf : Str) (hfile : file.privateData = n) (hn : n < 512) (hne : n ≠ 1) :
    Owned es (abyssfsWrite s file buf).2 := by
  have hlen : (buf.take 4096).length ≤ 4096 := by simp
  rcases abyssfsWrite_cases s file buf hfile hn (h.blocks_lt hn) with ⟨_, _, hcall⟩ |
    ⟨b, hzero, hb9, hb64, hfree, hcall⟩ | ⟨hblock, hcall⟩
  · rw [hcall]
    exact h
  · have hb10 : b ≠ 9 := by
      rintro rfl
      rw [h.rootUsed] at hfree
      cases hfree
    rw [hcall]
    set m := writtenFile (write32 s.mem (inodeAddr n + 8) b) n b (buf.take 4096) with hm
    have hblocks : blocks m (inodeAddr n) = b := by
      rw [hm, writtenFile_blocks _ hb9 hn, blocks, read32_write32]
      omega
    have hmode : mode m (inodeAddr n) = mode s.mem (inodeAddr n) := by
      rw [hm, writtenFile_mode _ hb9 hn, mode, mode, read32_write32_of_disjoint _ _ (by omega)]
    refine h.update hn hne ?_ ?_ ?_ (by simpa only [hmode] using id) (Or.inr ?_) ?_
    · intro k hk hkn
      exact (SameInode.write32 s.mem 8 b (by omega) hkn).trans (writtenFile_other _ hb9 hk hkn)
    · intro x hlo hhi
      change m x = s.mem x
      rw [hm, writtenFile_outside _ (by rw [inodeAddr_eq]; omega) (by omega),
        write32_outside _ _ (by rw [inodeAddr_eq]; omega)]
    · intro c hused
      change (s.take b).used c = true
      rw [take_used s hb64, hused, Bool.true_or]
    · change 10 ≤ blocks m (inodeAddr n) ∧ blocks m (inodeAddr n) < 64
      rw [hblocks]
      omega
    · intro _ _
      change (s.take b).used (blocks m (inodeAddr n)) = true ∧ _
      rw [hblocks]
      refine ⟨by simp [take_used s hb64], ?_⟩
      intro k hk _ hkmode heq
      exact h.block_ne hk hkmode hfree (by omega) heq
  · have hrange : 10 ≤ blocks s.mem (inodeAddr n) ∧ blocks s.mem (inodeAddr n) < 64 :=
      (h.range n hn hne).resolve_left hblock
    rw [hcall]
    set c := blocks s.mem (inodeAddr n) with hc
    set m := writtenFile s.mem n c (buf.take 4096) with hm
    have hblocks : blocks m (inodeAddr n) = c := writtenFile_blocks _ (by omega) hn
    have hmode : mode m (inodeAddr n) = mode s.mem (inodeAddr n) :=
      writtenFile_mode _ (by omega) hn
    refine h.update hn hne ?_ ?_ (fun _ hused => hused) (by simpa only [hmode] using id) ?_ ?_
    · intro k hk hkn
      exact writtenFile_other _ (by omega) hk hkn
    · intro x hlo hhi
      exact writtenFile_outside _ (by rw [inodeAddr_eq]; omega) (by omega)
    · simp only [hblocks]
      exact Or.inr hrange
    · simp only [hblocks, hmode]
      intro hmoden _
      refine ⟨h.marked n hn hmoden hblock, ?_⟩
      intro k hk hkn hkmode heq
      exact hkn (h.distinct k hk n hn hkmode hmoden heq (heq ▸ hblock))

/-! Unlinking. -/

/-- The inode number of the record `abyssfs_unlink` finds. -/
def unlinkTarget (m : Memory) (path : Str) : Option Nat :=
  match findEntry m (skipSlash path) heapSize ((inodeBlocks + 1) * blockSize) with
  | some (some dir) => some (entryInode m dir)
  | _ => none

section Unlink

variable {s : Abyssfs}

theorem releaseInode_mem (s : Abyssfs) {i : Nat} (hi : i < 512) :
    (releaseInode s i).mem = write32 s.mem (inodeAddr i) 0 := by
  rw [releaseInode, getInode_of_lt hi]
  simp only
  split_ifs
  · rfl
  · rw [freeBlock_mem]

theorem releaseInode_used (s : Abyssfs) {i c : Nat} (hi : i < 512)
    (hrange : blocks s.mem (inodeAddr i) < 64) (hc : c < 64) :
    (releaseInode s i).used c =
      (s.used c && decide (blocks s.mem (inodeAddr i) = 0 ∨ blocks s.mem (inodeAddr i) ≠ c)) := by
  have hblocks : blocks (write32 s.mem (inodeAddr i) 0) (inodeAddr i) =
      blocks s.mem (inodeAddr i) := read32_write32_of_disjoint _ _ (by omega)
  rw [releaseInode, getInode_of_lt hi]
  simp only [hblocks]
  split_ifs with hzero
  · simp [hzero, Abyssfs.used]
  · rw [freeBlock_used _ hrange c hc]
    simp [hzero, Abyssfs.used]

/-- The search of `abyssfs_unlink` in the root directory. -/
theorem abyssfsUnlink_root {rs : List DirEntry} (h : DirAt s.mem 9 rs) {path : Str}
    (hnul : 0 ∉ path) :
    ((∀ q ∈ rs, q.name ≠ skipSlash path) ∧ abyssfsUnlink s path = some (-1, s) ∧
      unlinkTarget s.mem path = none) ∨
    ∃ pre r post e, rs = pre ++ r :: post ∧ r.name = skipSlash path ∧
      (∀ q ∈ pre, q.name ≠ skipSlash path) ∧ Packed s.mem (9 * 4096) pre e ∧
      unlinkTarget s.mem path = some r.inode ∧
      abyssfsUnlink s path = (removeEntry (releaseInode s r.inode).mem (9 * 4096) e).map
        fun m => (0, { releaseInode s r.inode with mem := m }) := by
  have hlen := (Listing.bound h).2
  have hfuel : rs.length < heapSize := by simp [heapSize]; omega
  rcases Listing.findEntry (skipSlash_nul_free hnul) h hfuel with
    ⟨pre, r, post, e, rfl, hr, hpre, hpacked, hfind⟩ | ⟨hnone, hfind⟩
  · have hinode : entryInode s.mem e = r.inode := (Listing.drop h hpacked).head_inode
    refine Or.inr ⟨pre, r, post, e, rfl, hr, hpre, hpacked, ?_, ?_⟩
    · simp only [unlinkTarget, inodeBlocks_eq, blockSize_eq, Nat.reduceAdd, hfind, hinode]
    · simp only [abyssfsUnlink, inodeBlocks_eq, blockSize_eq, Nat.reduceAdd, hfind, hinode]
  · refine Or.inl ⟨hnone, ?_, ?_⟩
    · simp only [abyssfsUnlink, inodeBlocks_eq, blockSize_eq, Nat.reduceAdd, hfind]
    · simp only [unlinkTarget, inodeBlocks_eq, blockSize_eq, Nat.reduceAdd, hfind]

/-- The two dots come first, so an entry of another name lies behind them. -/
theorem behind_dots {es pre' post : List DirEntry} {r : DirEntry}
    (heq : dotEntry 1 rootNumber_lt :: dotdotEntry 1 rootNumber_lt :: es = pre' ++ r :: post)
    (hdot : r.name ≠ ascii ".") (hdotdot : r.name ≠ ascii "..") :
    ∃ pre, pre' = dotEntry 1 rootNumber_lt :: dotdotEntry 1 rootNumber_lt :: pre ∧
      es = pre ++ r :: post := by
  cases pre' with
  | nil =>
      rw [List.nil_append, List.cons.injEq] at heq
      rw [← heq.1] at hdot
      exact absurd rfl hdot
  | cons q pre' =>
      rw [List.cons_append, List.cons.injEq] at heq
      obtain ⟨rfl, heq⟩ := heq
      cases pre' with
      | nil =>
          rw [List.nil_append, List.cons.injEq] at heq
          rw [← heq.1] at hdotdot
          exact absurd rfl hdotdot
      | cons q pre' =>
          rw [List.cons_append, List.cons.injEq] at heq
          exact ⟨pre', by rw [heq.1], heq.2⟩

section Released

variable {m m' : Memory} {i n : Nat} (hi : i < 512)
  (honly : OnlyBlock (write32 m (inodeAddr i) 0) m' 9)

include honly

/-- Giving an inode back and changing the root's block leaves the other inodes. -/
theorem released_other (hn : n < 512) (hne : n ≠ i) : SameInode m m' n := by
  have hbytes : ∀ x < 36864, m' x = write32 m (inodeAddr i) 0 x := fun x hx =>
    honly x (Or.inl (by omega))
  exact (SameInode.write32 m 0 0 (by omega) hne).trans (SameInode.of_data hn hbytes)

include hi

theorem released_mode : mode m' (inodeAddr i) = 0 := by
  have hbytes : ∀ x < 36864, m' x = write32 m (inodeAddr i) 0 x := fun x hx =>
    honly x (Or.inl (by omega))
  rw [(SameInode.of_data hi hbytes).mode, mode, read32_write32]
  rfl

theorem released_blocks : blocks m' (inodeAddr i) = blocks m (inodeAddr i) := by
  have hbytes : ∀ x < 36864, m' x = write32 m (inodeAddr i) 0 x := fun x hx =>
    honly x (Or.inl (by omega))
  rw [(SameInode.of_data hi hbytes).blocks]
  exact read32_write32_of_disjoint _ _ (by omega)

end Released

/-- Taking out the entry of an inode, with the inode and its block. -/
theorem Owned.release {pre post : List DirEntry} {r : DirEntry} (h : Owned (pre ++ r :: post) s)
    {m' : Memory}
    (hdir : DirAt m' 9 (dotEntry 1 rootNumber_lt :: dotdotEntry 1 rootNumber_lt :: (pre ++ post)))
    (honly : OnlyBlock (write32 s.mem (inodeAddr r.inode) 0) m' 9) :
    Owned (pre ++ post) { releaseInode s r.inode with mem := m' } := by
  obtain ⟨hlo, hhi, hmode⟩ := h.entries.inUse r (by simp)
  have hnodup := h.entries.nodup
  rw [List.map_append, List.map_cons] at hnodup
  have hne : ∀ q ∈ pre ++ post, q.inode ≠ r.inode := by
    intro q hq heq
    have hmid := (List.nodup_middle.mp hnodup).notMem
    rw [← List.map_append] at hmid
    exact hmid (List.mem_map.mpr ⟨q, hq, heq⟩)
  have hother : ∀ n < 512, n ≠ r.inode → SameInode s.mem m' n := fun n hn hnr =>
    released_other honly hn hnr
  have hgone := released_mode hhi honly
  have hlt := h.blocks_lt hhi
  have hused : ∀ c < 64, s.used c = true → blocks s.mem (inodeAddr r.inode) ≠ c →
      Abyssfs.used { releaseInode s r.inode with mem := m' } c = true := by
    intro c hc hused hcr
    change (releaseInode s r.inode).used c = true
    rw [releaseInode_used s hhi hlt hc, hused, Bool.true_and, decide_eq_true_iff]
    exact Or.inr hcr
  have hrange := h.range r.inode hhi (by omega)
  refine ⟨?_, ?_, hused 9 (by omega) h.rootUsed (by omega), ?_, ?_, ?_, hdir, ?_, ?_⟩
  · rw [rootInode_eq, (hother 1 (by omega) (by omega)).mode]
    exact h.rootMode
  · rw [rootInode_eq, (hother 1 (by omega) (by omega)).blocks]
    exact h.rootBlock
  · intro n hn hn1
    by_cases hnr : n = r.inode
    · rw [hnr, released_blocks hhi honly]
      exact hrange
    · rw [(hother n hn hnr).blocks]
      exact h.range n hn hn1
  · intro n hn hmode' hblock
    by_cases hnr : n = r.inode
    · rw [hnr] at hmode'
      exact absurd hgone hmode'
    · rw [(hother n hn hnr).mode] at hmode'
      rw [(hother n hn hnr).blocks] at hblock ⊢
      apply hused _ (h.blocks_lt hn) (h.marked n hn hmode' hblock)
      intro heq
      exact hnr (h.distinct n hn _ hhi hmode' hmode heq.symm hblock)
  · intro n hn k hk hmode₁ hmode₂ heq hblock
    have hnr : n ≠ r.inode := by
      rintro rfl
      exact hmode₁ hgone
    have hkr : k ≠ r.inode := by
      rintro rfl
      exact hmode₂ hgone
    rw [(hother n hn hnr).mode] at hmode₁
    rw [(hother k hk hkr).mode] at hmode₂
    rw [(hother n hn hnr).blocks] at heq hblock
    rw [(hother k hk hkr).blocks] at heq
    exact h.distinct n hn k hk hmode₁ hmode₂ heq hblock
  · intro q hq
    obtain ⟨hqlo, hqhi, hqmode⟩ := h.entries.inUse q (by
      rcases List.mem_append.mp hq with hq | hq
      · exact List.mem_append_left _ hq
      · exact List.mem_append_right _ (List.mem_cons_of_mem _ hq))
    exact ⟨hqlo, hqhi, by rwa [(hother _ hqhi (hne q hq)).mode]⟩
  · rw [List.map_append]
    exact (List.nodup_cons.mp (List.nodup_middle.mp hnodup)).2

/-- Unlinking a name other than the two dots either finds nothing or takes out the first entry of
that name, with its inode and block. -/
theorem Owned.unlink {es : List DirEntry} (h : Owned es s) {path : Str} (hnul : 0 ∉ path)
    (hdot : skipSlash path ≠ ascii ".") (hdotdot : skipSlash path ≠ ascii "..") :
    ((∀ q ∈ es, q.name ≠ skipSlash path) ∧ abyssfsUnlink s path = some (-1, s) ∧
      unlinkTarget s.mem path = none) ∨
    ∃ pre r post s', es = pre ++ r :: post ∧ r.name = skipSlash path ∧
      (∀ q ∈ pre, q.name ≠ skipSlash path) ∧ abyssfsUnlink s path = some (0, s') ∧
      unlinkTarget s.mem path = some r.inode ∧ Owned (pre ++ post) s' ∧
      s'.blockBitmap = (releaseInode s r.inode).blockBitmap ∧
      OnlyBlock (write32 s.mem (inodeAddr r.inode) 0) s'.mem 9 := by
  rcases abyssfsUnlink_root h.entries.listed hnul with ⟨hnone, hcall⟩ |
    ⟨pre', r, post, e, heq, hr, hpre, hpacked, htarget, hcall⟩
  · exact Or.inl ⟨fun q hq => hnone q (by simp [hq]), hcall⟩
  rw [← hr] at hdot hdotdot
  obtain ⟨pre, rfl, rfl⟩ := behind_dots heq hdot hdotdot
  obtain ⟨hlo, hhi, hmode⟩ := h.entries.inUse r (by simp)
  have hmem := releaseInode_mem s hhi
  have hlisted : DirAt (releaseInode s r.inode).mem 9
      (dotEntry 1 rootNumber_lt :: dotdotEntry 1 rootNumber_lt :: pre ++ r :: post) := by
    rw [hmem]
    exact h.entries.listed.congr fun x hx _ => write32_outside _ _ (by rw [inodeAddr_eq]; omega)
  have hpacked' : Packed (releaseInode s r.inode).mem (9 * 4096)
      (dotEntry 1 rootNumber_lt :: dotdotEntry 1 rootNumber_lt :: pre) e := by
    rw [hmem]
    exact hpacked.congr fun x hx _ => write32_outside _ _ (by rw [inodeAddr_eq]; omega)
  obtain ⟨m', hremove, hdir', honly⟩ := removeEntry_dir hlisted hpacked' (List.cons_ne_nil _ _)
  rw [hremove] at hcall
  rw [hmem] at honly
  exact Or.inr ⟨pre, r, post, { releaseInode s r.inode with mem := m' }, rfl, hr,
    fun q hq => hpre q (by simp [hq]), hcall, htarget, h.release hdir' honly, rfl, honly⟩

end Unlink

end Chthon
