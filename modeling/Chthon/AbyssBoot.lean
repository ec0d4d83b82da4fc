import Chthon.AbyssEdits

/-! The state `abyssfs_init` leaves behind: every inode but the root is free, the root owns block 9
and lists itself twice, and the data blocks after it are zero. -/

namespace Chthon

open ByteMemory

/-- The file system together with the heap its handles are allocated from. -/
structure Volume where
  heapPos : Nat
  fs : Abyssfs

/-- `abyssfs_init` at boot, the first user of the heap. -/
def bootVolume (s : Abyssfs) : Volume :=
  let (heapPos, fs) := abyssfsInit 0 s
  ⟨heapPos, fs⟩

/-- A disk before `abyssfs_init`. -/
def blankFs : Abyssfs := ⟨fun _ => 0, 0, 0⟩

/-- The memory once the root inode is filled in. -/
def bootMemory (m : Memory) : Memory :=
  let m := fill m 0 (blockSize * totalBlocks) 0
  let m := (List.range inodeBlocks).foldl (fun m i => fill m (inodeAddr i) inodeSize 0) m
  write32 (write32 (write32 m rootInode dirMode) (rootInode + 4) blockSize) (rootInode + 8)
    (inodeBlocks + 1)

theorem bootVolume_eq (s : Abyssfs) :
    bootVolume s = ⟨262144, initDirectory (bootMemory s.mem) 36864 1 1, 0x3FF#64, 55⟩ := by
  have hkalloc : kalloc 0 (blockSize * totalBlocks) = (some 0, 262144) := kalloc_of_le (by decide)
  have hbitmap : (List.range (inodeBlocks + 1)).foldl (fun b i => b ||| BitVec.twoPow 64 i) 0 |||
      BitVec.twoPow 64 (inodeBlocks + 1) = 0x3FF#64 := by decide
  have hblock : (inodeBlocks + 1) * blockSize = 36864 := rfl
  have hfree : totalBlocks - inodeBlocks - 1 = 55 := rfl
  unfold bootVolume abyssfsInit
  rw [hkalloc]
  dsimp only
  rw [hbitmap, hblock, hfree]
  rfl

theorem foldl_fill_zero {m : Memory} {x : Nat} (h : m x = 0) (ns : List Nat) :
    ns.foldl (fun m i => fill m (inodeAddr i) inodeSize 0) m x = 0 := by
  induction ns generalizing m with
  | nil => exact h
  | cons n ns ih =>
      apply ih
      change fill m (inodeAddr n) inodeSize 0 x = 0
      by_cases hx : x < inodeAddr n ∨ inodeAddr n + 64 ≤ x
      · rw [fill_outside _ _ (by simpa using hx), h]
      · exact fill_inside _ _ (by omega) (by simp only [inodeSize_eq]; omega)

/-- Away from the root inode the blocks are zero. -/
theorem bootMemory_zero (m : Memory) {x : Nat} (hx : x < 262144)
    (hroot : x < inodeAddr 1 ∨ inodeAddr 1 + 12 ≤ x) : bootMemory m x = 0 := by
  rw [bootMemory, write32_outside _ _ (by rw [rootInode_eq]; omega),
    write32_outside _ _ (by rw [rootInode_eq]; omega),
    write32_outside _ _ (by rw [rootInode_eq]; omega)]
  exact foldl_fill_zero (fill_inside _ _ (Nat.zero_le x) (by simpa using hx)) _

section Fields

variable (s : Abyssfs)

/-- The inode table at boot is that of `bootMemory`. -/
theorem boot_inode {n : Nat} (hn : n < 512) :
    SameInode (bootMemory s.mem) (bootVolume s).fs.mem n := by
  rw [bootVolume_eq]
  apply SameInode.of_data hn
  intro x hx
  exact initDirectory_outside (bootMemory s.mem) (Or.inl hx)

theorem boot_mode_root : mode (bootVolume s).fs.mem rootInode = dirMode := by
  rw [rootInode_eq, (boot_inode s (by omega)).mode, mode, bootMemory, rootInode_eq,
    read32_write32_of_disjoint _ _ (by omega), read32_write32_of_disjoint _ _ (by omega),
    read32_write32]
  rfl

theorem boot_blocks_root : blocks (bootVolume s).fs.mem rootInode = 9 := by
  rw [rootInode_eq, (boot_inode s (by omega)).blocks, blocks, bootMemory, rootInode_eq,
    read32_write32]
  rfl

theorem boot_word {n off : Nat} (hn : n < 512) (hne : n ≠ 1) (hoff : off ≤ 60) :
    read32 (bootMemory s.mem) (inodeAddr n + off) = 0 := by
  have hzero : read32 (bootMemory s.mem) (inodeAddr n + off) =
      read32 (fun _ => 0) (inodeAddr n + off) := by
    apply read32_congr
    intro k hk
    apply bootMemory_zero <;> simp only [inodeAddr_eq] <;> omega
  rw [hzero]
  rfl

/-- Every inode but the root is free. -/
theorem boot_mode {n : Nat} (hn : n < 512) (hne : n ≠ 1) :
    mode (bootVolume s).fs.mem (inodeAddr n) = 0 := by
  rw [(boot_inode s hn).mode]
  have hword := boot_word s hn hne (Nat.zero_le 60)
  rwa [Nat.add_zero] at hword

theorem boot_blocks {n : Nat} (hn : n < 512) (hne : n ≠ 1) :
    blocks (bootVolume s).fs.mem (inodeAddr n) = 0 := by
  rw [(boot_inode s hn).blocks]
  exact boot_word s hn hne (by omega)

theorem boot_used (b : Nat) : (bootVolume s).fs.used b = decide (b < 10) := by
  rw [bootVolume_eq]
  by_cases hb : b < 64
  · have hall : ∀ c : Fin 64, (0x3FF#64).getLsbD c = decide (c.val < 10) := by decide
    exact hall ⟨b, hb⟩
  · rw [Abyssfs.used, BitVec.getLsbD_of_ge _ _ (by omega), eq_comm, decide_eq_false_iff_not]
    omega

theorem boot_root_dir :
    DirAt (bootVolume s).fs.mem 9 [dotEntry 1 rootNumber_lt, dotdotEntry 1 rootNumber_lt] := by
  have hzero : bootMemory s.mem (9 * 4096 + 261) = 0 :=
    bootMemory_zero _ (by omega) (by rw [inodeAddr_eq]; omega)
  have hblock : 36864 = 9 * 4096 := rfl
  rw [bootVolume_eq, hblock]
  exact initDirectory_dir _ 9 _ _ hzero

/-- The data blocks after the root's are zero. -/
theorem boot_data {x : Nat} (hlo : 40960 ≤ x) (hhi : x < 262144) :
    (bootVolume s).fs.mem x = 0 := by
  rw [bootVolume_eq]
  change initDirectory (bootMemory s.mem) 36864 1 1 x = 0
  rw [initDirectory_outside _ (Or.inr (by omega))]
  exact bootMemory_zero _ hhi (by rw [inodeAddr_eq]; omega)

end Fields

end Chthon
