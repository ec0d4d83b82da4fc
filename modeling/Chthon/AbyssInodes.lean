import Chthon.AbyssModel

/-! The inode table and the block bitmap: where inodes lie, what the allocators can return, and
which fields a write leaves alone. -/

namespace Chthon

open ByteMemory

/-- `block_bitmap & (1 << b)` -/
def Abyssfs.used (s : Abyssfs) (b : Nat) : Bool := s.blockBitmap.getLsbD b

def dataStart : Nat := firstDataBlock * blockSize

@[simp] theorem dataStart_eq : dataStart = 36864 := rfl
@[simp] theorem blockSize_eq : blockSize = 4096 := rfl
@[simp] theorem totalBlocks_eq : totalBlocks = 64 := rfl
@[simp] theorem inodeBlocks_eq : inodeBlocks = 8 := rfl
@[simp] theorem firstDataBlock_eq : firstDataBlock = 9 := rfl
@[simp] theorem maxInodes_eq : maxInodes = 512 := rfl
@[simp] theorem inodeSize_eq : inodeSize = 64 := rfl

theorem kalloc_of_le {heapPos size : Nat} (h : heapPos + size ≤ heapSize) :
    kalloc heapPos size = (some heapPos, heapPos + size) := by
  have hlt : (heapPos + size) % 2 ^ 64 = heapPos + size := by
    apply Nat.mod_eq_of_lt
    simp only [heapSize] at h
    omega
  rw [kalloc, hlt, if_neg (Nat.not_lt.mpr h)]

theorem kalloc_cases (heapPos size : Nat) :
    kalloc heapPos size = (none, heapPos) ∨ kalloc heapPos size = (some heapPos, heapPos + size) := by
  rw [kalloc]
  split_ifs
  · exact Or.inl rfl
  · exact Or.inr rfl

theorem inodeAddr_eq (n : Nat) : inodeAddr n = 4096 + 64 * n := rfl

theorem getBlock_of_lt {b : Nat} (hb : b < 64) : getBlock b = some (b * 4096) := by
  simp [getBlock, Nat.not_le.mpr hb]

theorem getInode_of_lt {n : Nat} (hn : n < 512) : getInode n = some (inodeAddr n) := by
  have hblock : 1 + n / 64 < 64 := by omega
  simp only [getInode, maxInodes_eq, ge_iff_le, Nat.not_le.mpr hn, if_false, blockSize_eq,
    inodeSize_eq, getBlock_of_lt hblock, Option.map_some, inodeAddr, Nat.reduceDiv]
  congr 1
  omega

theorem getInode_of_ge {n : Nat} (hn : 512 ≤ n) : getInode n = none := by
  simp [getInode, hn]

theorem getInode_eq_some {n p : Nat} : getInode n = some p ↔ n < 512 ∧ p = inodeAddr n := by
  by_cases hn : n < 512
  · simp [getInode_of_lt hn, hn, eq_comm]
  · simp [getInode_of_ge (by omega : 512 ≤ n), hn]

theorem inodeAddr_inj {n k : Nat} : inodeAddr n = inodeAddr k ↔ n = k := by
  simp only [inodeAddr_eq]
  omega

theorem rootInode_eq : rootInode = inodeAddr 1 := rfl

theorem parentInodeNum_inodeAddr {n : Nat} (h1 : 1 ≤ n) (hn : n < 512) :
    parentInodeNum (inodeAddr n) = n := by
  have hfind : (List.range' 1 maxInodes).find? (fun i => getInode i = some (inodeAddr n)) =
      some n := by
    rw [List.find?_range'_eq_some]
    refine ⟨by simp [getInode_of_lt hn], by simp; omega, ?_⟩
    intro j hj hlt
    simp [getInode_of_lt (show j < 512 by omega), inodeAddr_inj]
    omega
  rw [parentInodeNum, hfind, Option.getD_some]

/-! Fields are determined by the inode's own bytes. -/

section Congr

variable {m m' : Memory} {n : Nat}

theorem mode_congr (h : ∀ k < 64, m' (inodeAddr n + k) = m (inodeAddr n + k)) :
    mode m' (inodeAddr n) = mode m (inodeAddr n) :=
  read32_congr fun k hk => h k (by omega)

theorem size_congr (h : ∀ k < 64, m' (inodeAddr n + k) = m (inodeAddr n + k)) :
    size m' (inodeAddr n) = size m (inodeAddr n) :=
  read32_congr fun k hk => by rw [Nat.add_assoc]; exact h _ (by omega)

theorem blocks_congr (h : ∀ k < 64, m' (inodeAddr n + k) = m (inodeAddr n + k)) :
    blocks m' (inodeAddr n) = blocks m (inodeAddr n) :=
  read32_congr fun k hk => by rw [Nat.add_assoc]; exact h _ (by omega)

end Congr

/-- The three fields of inode `n` that the file system reads. -/
structure SameInode (m m' : Memory) (n : Nat) : Prop where
  mode : mode m' (inodeAddr n) = mode m (inodeAddr n)
  size : size m' (inodeAddr n) = size m (inodeAddr n)
  blocks : blocks m' (inodeAddr n) = blocks m (inodeAddr n)

theorem SameInode.of_bytes {m m' : Memory} {n : Nat}
    (h : ∀ k < 64, m' (inodeAddr n + k) = m (inodeAddr n + k)) : SameInode m m' n :=
  ⟨mode_congr h, size_congr h, blocks_congr h⟩

theorem SameInode.refl (m : Memory) (n : Nat) : SameInode m m n := ⟨rfl, rfl, rfl⟩

theorem SameInode.trans {m m' m'' : Memory} {n : Nat} (h : SameInode m m' n)
    (h' : SameInode m' m'' n) : SameInode m m'' n :=
  ⟨h'.mode.trans h.mode, h'.size.trans h.size, h'.blocks.trans h.blocks⟩

/-- What is written from the first data block on does not reach the inode table. -/
theorem SameInode.of_data {m m' : Memory} {n : Nat} (hn : n < 512)
    (h : ∀ x < 36864, m' x = m x) : SameInode m m' n :=
  SameInode.of_bytes fun k hk => h _ (by rw [inodeAddr_eq]; omega)

/-- Writing a word of one inode leaves every other inode alone. -/
theorem SameInode.write32 (m : Memory) {n k : Nat} (off v : Nat) (hoff : off ≤ 60) (hne : n ≠ k) :
    SameInode m (write32 m (inodeAddr k + off) v) n :=
  SameInode.of_bytes fun j hj => write32_outside _ _ (by simp only [inodeAddr_eq]; omega)

/-! Allocators. -/

theorem used_iff (s : Abyssfs) {b : Nat} (hb : b < 64) :
    s.blockBitmap &&& BitVec.twoPow 64 b = 0 ↔ s.used b = false := by
  rw [BitVec.and_twoPow, Abyssfs.used]
  cases h : s.blockBitmap.getLsbD b with
  | false => simp
  | true =>
      simp only [if_true, Bool.true_eq_false, iff_false]
      intro hzero
      have hbit := congrArg (fun v : BitVec 64 => v.getLsbD b) hzero
      simp [hb] at hbit

/-- Marking a block. -/
def Abyssfs.take (s : Abyssfs) (b : Nat) : Abyssfs :=
  { s with
    blockBitmap := s.blockBitmap ||| BitVec.twoPow 64 b
    freeBlocks := (s.freeBlocks + (2 ^ 32 - 1)) % 2 ^ 32 }

@[simp] theorem take_mem (s : Abyssfs) (b : Nat) : (s.take b).mem = s.mem := rfl

theorem take_used (s : Abyssfs) {b : Nat} (hb : b < 64) (c : Nat) :
    (s.take b).used c = (s.used c || decide (b = c)) := by
  simp [Abyssfs.take, Abyssfs.used, BitVec.getLsbD_or, BitVec.getLsbD_twoPow, hb]

/-- The block allocator returns 0 on a full bitmap, else a free data block, now marked. -/
theorem allocBlock_cases (s : Abyssfs) :
    (allocBlock s = (0, s) ∧ ∀ b, 9 ≤ b → b < 64 → s.used b = true) ∨
    ∃ b, 9 ≤ b ∧ b < 64 ∧ s.used b = false ∧ allocBlock s = (b, s.take b) := by
  rw [allocBlock]
  cases hfind : (List.range' firstDataBlock (totalBlocks - firstDataBlock)).find?
      fun i => s.blockBitmap &&& BitVec.twoPow 64 i = 0 with
  | none =>
      refine Or.inl ⟨rfl, ?_⟩
      intro b hlo hhi
      rw [List.find?_eq_none] at hfind
      have hb := hfind b (by simp [List.mem_range'_1]; omega)
      rw [decide_eq_true_iff, used_iff s hhi] at hb
      simpa using hb
  | some b =>
      have hmem := List.mem_of_find?_eq_some hfind
      have hp := List.find?_some hfind
      simp only [firstDataBlock_eq, totalBlocks_eq, List.mem_range', Nat.one_mul] at hmem
      obtain ⟨i, hi, rfl⟩ := hmem
      rw [decide_eq_true_iff, used_iff s (by omega)] at hp
      exact Or.inr ⟨9 + i, by omega, by omega, hp, rfl⟩

theorem freeBlock_used (s : Abyssfs) {b : Nat} (hb : b < 64) (c : Nat) (hc : c < 64) :
    (freeBlock s b).used c = (s.used c && decide (b ≠ c)) := by
  rw [freeBlock, if_pos (by simpa using hb)]
  simp [Abyssfs.used, hc, eq_comm]

@[simp] theorem freeBlock_mem (s : Abyssfs) (b : Nat) : (freeBlock s b).mem = s.mem := by
  rw [freeBlock]
  split_ifs <;> rfl

/-- The inode as the allocator leaves it: zeroed, with the mode of a regular file. -/
def freshInode (m : Memory) (n : Nat) : Memory :=
  write32 (fill m (inodeAddr n) inodeSize 0) (inodeAddr n) fileMode

theorem allocInode_cases (s : Abyssfs) :
    (allocInode s = (0, s) ∧ ∀ n, 1 ≤ n → n < 512 → mode s.mem (inodeAddr n) ≠ 0) ∨
    ∃ n, 1 ≤ n ∧ n < 512 ∧ mode s.mem (inodeAddr n) = 0 ∧
      allocInode s = (n, { s with mem := freshInode s.mem n }) := by
  rw [allocInode]
  cases hfind : (List.range' 1 (maxInodes - 1)).find? fun i => mode s.mem (inodeAddr i) = 0 with
  | none =>
      refine Or.inl ⟨rfl, ?_⟩
      intro n hlo hhi
      rw [List.find?_eq_none] at hfind
      have hn := hfind n (by simp [List.mem_range'_1]; omega)
      simpa using hn
  | some n =>
      have hmem := List.mem_of_find?_eq_some hfind
      have hp := List.find?_some hfind
      simp only [maxInodes_eq, List.mem_range', Nat.one_mul] at hmem
      obtain ⟨i, hi, rfl⟩ := hmem
      rw [decide_eq_true_iff] at hp
      exact Or.inr ⟨1 + i, by omega, by omega, hp, rfl⟩

theorem freshInode_outside (m : Memory) {n x : Nat} (hx : x < inodeAddr n ∨ inodeAddr n + 64 ≤ x) :
    freshInode m n x = m x := by
  rw [freshInode, write32_outside _ _ (by omega), fill_outside _ _ (by simpa using hx)]

theorem freshInode_other (m : Memory) {n k : Nat} (hne : k ≠ n) :
    SameInode m (freshInode m n) k :=
  SameInode.of_bytes fun j hj => freshInode_outside m (by simp only [inodeAddr_eq]; omega)

theorem freshInode_mode (m : Memory) (n : Nat) : mode (freshInode m n) (inodeAddr n) = fileMode := by
  rw [mode, freshInode, read32_write32]
  rfl

theorem freshInode_word (m : Memory) (n off : Nat) (hlo : 4 ≤ off) (hhi : off ≤ 60) :
    read32 (freshInode m n) (inodeAddr n + off) = 0 := by
  rw [freshInode, read32_write32_of_disjoint _ _ (by omega)]
  have hzero : ∀ k < 4, fill m (inodeAddr n) inodeSize 0 (inodeAddr n + off + k) = 0 :=
    fun k hk => fill_inside _ _ (by omega) (by simp; omega)
  simp only [read32, hzero 1 (by omega), hzero 2 (by omega), hzero 3 (by omega)]
  rw [show fill m (inodeAddr n) inodeSize 0 (inodeAddr n + off) = 0 from hzero 0 (by omega)]
  rfl

theorem freshInode_size (m : Memory) (n : Nat) : size (freshInode m n) (inodeAddr n) = 0 :=
  freshInode_word m n 4 (by omega) (by omega)

theorem freshInode_blocks (m : Memory) (n : Nat) : blocks (freshInode m n) (inodeAddr n) = 0 :=
  freshInode_word m n 8 (by omega) (by omega)

end Chthon
