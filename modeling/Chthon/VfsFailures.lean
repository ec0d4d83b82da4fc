import Chthon.AbyssReach
import Chthon.RamfsNames
import Chthon.VfsRefusals
import Chthon.VfsRouting

/-! What a creating call that returns -1 has left behind. Only the calls that fail before they take
anything leave the stores as they were; an inode, a block, a record or a slot that was taken first
is not given back. -/

namespace Chthon

open ByteMemory

/-- The inodes in use, the bitmap and its count, the directories and the slots. -/
structure SameStore (k k' : Kernel) : Prop where
  inodes : ∀ n, 1 ≤ n → n < maxInodes →
    (mode k'.abyss.mem (inodeAddr n) = 0 ↔ mode k.abyss.mem (inodeAddr n) = 0)
  bitmap : k'.abyss.blockBitmap = k.abyss.blockBitmap
  free : k'.abyss.freeBlocks = k.abyss.freeBlocks
  directories : ∀ n < maxInodes, mode k.abyss.mem (inodeAddr n) &&& dirMode ≠ 0 →
    mode k'.abyss.mem (inodeAddr n) &&& dirMode ≠ 0 ∧
      load k'.abyss.mem (blocks k'.abyss.mem (inodeAddr n) * blockSize) blockSize =
        load k.abyss.mem (blocks k.abyss.mem (inodeAddr n) * blockSize) blockSize
  slots : k'.ramfs = k.ramfs

/-- The slot stores the path and is empty, as a failed create leaves it. -/
structure Cleared (rf : RamfsFile) (path : Str) : Prop where
  path : load rf.bytes 0 (path.length + 1) = path ++ [0]
  content : rf.bytes slotPath = 0
  size : rf.size = 0

/-- The create fails before it takes anything: no inode, no slot, or no heap with a free slot that
looks as the failed create will leave it. -/
def FsCreateAtomic (k : Kernel) (full : Str) : FileOps → Prop
  | .ramfs => ∀ i, ramfsFree k.ramfs = some i →
      HeapFull k.heapPos ∧ Cleared (k.ramfs i) (ramfsFullPath full)
  | .abyssfs => (allocInode k.abyss).1 = 0

def CreateAtomic (k : Kernel) (path : Str) : Prop :=
  match createRoute k path with
  | some (some fs, full) => FsCreateAtomic k full fs
  | _ => True

/-- The directory fails before it takes anything: no parent, or no inode. -/
def FsMkdirAtomic (k : Kernel) (full : Str) : FileOps → Prop
  | .ramfs => True
  | .abyssfs => mkdirParent k.abyss.mem full = some none ∨ (allocInode k.abyss).1 = 0

def MkdirAtomic (k : Kernel) (path : Str) : Prop :=
  match mkdirRoute k path with
  | some (some fs, full) => FsMkdirAtomic k full fs
  | _ => True

section Stores

variable {k k' : Kernel}

theorem SameStore.of_eq (habyss : k'.abyss = k.abyss) (hramfs : k'.ramfs = k.ramfs) :
    SameStore k k' where
  inodes n _ _ := by rw [habyss]
  bitmap := by rw [habyss]
  free := by rw [habyss]
  directories n _ hdir := by
    rw [habyss]
    exact ⟨hdir, rfl⟩
  slots := hramfs

/-- An inode that has been taken shows. -/
theorem not_sameStore_of_inode {i : Nat} (hi : 1 ≤ i ∧ i < 512)
    (hfree : mode k.abyss.mem (inodeAddr i) = 0) (htaken : mode k'.abyss.mem (inodeAddr i) ≠ 0) :
    ¬SameStore k k' :=
  fun h => htaken ((h.inodes i hi.1 hi.2).mpr hfree)

theorem allocInode_fst_ne {s : Abyssfs} {i : Nat} (hi : 1 ≤ i)
    (halloc : allocInode s = (i, { s with mem := freshInode s.mem i })) : (allocInode s).1 ≠ 0 := by
  rw [halloc]
  dsimp only
  omega

end Stores

/-! RAMFS. -/

/-- A failed create leaves a slot as it was only if it looked like that before. -/
theorem newSlot_eq_iff {rf : RamfsFile} {full : Str} (hunused : rf.used = false)
    (hlen : full.length < 32) : newSlot rf full false = rf ↔ Cleared rf full := by
  have hstore : ∀ a, newSlot rf full false = rf → store (store rf.bytes 0 (full ++ [0]))
      slotPath [0] a = rf.bytes a := fun a h => congrFun (congrArg RamfsFile.bytes h) a
  constructor
  · intro h
    refine ⟨?_, ?_, (congrArg RamfsFile.size h).symm⟩
    · calc load rf.bytes 0 (full.length + 1)
        _ = load (store rf.bytes 0 (full ++ [0])) 0 (full.length + 1) := by
          apply load_congr
          intro a ha
          rw [← hstore (0 + a) h]
          exact store_of_lt _ _ (by simp only [slotPath]; omega)
        _ = full ++ [0] := by
          have hload := load_store rf.bytes 0 (full ++ [0])
          rwa [List.length_append, List.length_singleton] at hload
    · rw [← hstore slotPath h]
      exact store_cons_head _ _ _ _
  · rintro ⟨hpath, hcontent, hsize⟩
    obtain ⟨bytes, size, used⟩ := rf
    dsimp only at hpath hcontent hsize hunused
    subst hsize hunused
    rw [newSlot, RamfsFile.mk.injEq]
    refine ⟨?_, rfl, rfl⟩
    funext a
    rcases Nat.lt_trichotomy a slotPath with hlt | rfl | hgt
    · rw [store_of_lt _ _ hlt]
      by_cases hin : a < full.length + 1
      · have hbyte := store_at bytes 0 (full ++ [0]) a (by simpa using hin)
        rw [Nat.zero_add] at hbyte
        have hload := load_getElem bytes 0 (full.length + 1) a (by rw [load_length]; exact hin)
        rw [hbyte, show bytes a = bytes (0 + a) by rw [Nat.zero_add], ← hload]
        simp only [hpath]
      · exact store_of_ge _ _ (by simp; omega)
    · rw [store_cons_head, hcontent]
    · rw [store_of_ge _ _ (by simp; omega)]
      exact store_of_ge _ _ (by simp only [slotPath] at hgt; simp; omega)

/-! The calls. -/

section Calls

variable {k k' : Kernel} {full : Str}

theorem abyssfsCreate_atomic_iff (hrange : BlocksInRange k.abyss.mem) {heapPos : Nat}
    {cwd : Option Str} {file : Option VfsFile} {s' : Abyssfs}
    (hcall : abyssfsCreate k.heapPos k.abyss cwd full = some (file, heapPos, s'))
    (habyss : k'.abyss = s') (hramfs : k'.ramfs = k.ramfs) :
    SameStore k k' ↔ (allocInode k.abyss).1 = 0 := by
  subst habyss
  rcases abyssfsCreate_cases hcall with ⟨_, hsame, halloc⟩ | ⟨i, hi1, hi, hfree, halloc, hrest⟩
  · exact iff_of_true (.of_eq hsame hramfs) (by rw [halloc])
  refine iff_of_false (not_sameStore_of_inode ⟨hi1, hi⟩ hfree ?_) (allocInode_fst_ne hi1 halloc)
  rcases hrest with ⟨_, hmem⟩ | ⟨p, filename, b, e, m', hparent, hdir, happend, hmem, _⟩
  · rw [hmem, freshInode_mode]
    decide
  · have hb := (hrange.fresh i).directory (createParent_addr hparent).1 hdir
    rw [hmem, (SameInode.of_data hi (appendEntry_table happend hb)).mode, freshInode_mode]
    decide

/-- A file that was made but got no descriptor keeps its slot. -/
theorem ramfsCreate_atomic_iff {heapPos : Nat} {file : Option VfsFile} {fs' : Ramfs}
    (hcall : ramfsCreate k.heapPos k.ramfs full = some (file, heapPos, fs'))
    (habyss : k'.abyss = k.abyss) (hramfs : k'.ramfs = fs') :
    SameStore k k' ↔ FsCreateAtomic k full .ramfs := by
  subst hramfs
  cases file with
  | none =>
      rcases ramfsCreate_none hcall with ⟨hfree, hsame⟩ | ⟨i, hfree, hheap, hlen, hslots⟩
      · apply iff_of_true (.of_eq habyss hsame)
        intro i hi
        rw [hfree] at hi
        cases hi
      · have hcleared := newSlot_eq_iff (ramfsFree_some hfree).2 hlen
        rw [← Function.update_eq_self_iff (f := k.ramfs), ← hslots] at hcleared
        constructor
        · intro h j hj
          obtain rfl : i = j := Option.some.inj (hfree.symm.trans hj)
          exact ⟨hheap, hcleared.mp h.slots⟩
        · intro h
          exact .of_eq habyss (hcleared.mpr (h i hfree).2)
  | some file =>
      obtain ⟨i, hfree, _, _, hslots⟩ := ramfsCreate_some hcall
      refine iff_of_false (fun h => ?_) fun h => ?_
      · have hused := congrArg RamfsFile.used (congrFun h.slots i)
        rw [hslots, Function.update_self, (ramfsFree_some hfree).2] at hused
        cases hused
      · -- the call has found heap for its handle
        have hheap := (h i hfree).1
        unfold HeapFull at hheap
        unfold ramfsCreate at hcall
        dsimp only at hcall
        rw [hfree] at hcall
        split_ifs at hcall
        cases hkalloc : kalloc k.heapPos vfsFileSize with
        | mk addr heapPos' =>
            rw [hkalloc] at hheap hcall
            dsimp only at hheap
            subst hheap
            cases hcall

theorem fsCreate_atomic_iff (hrange : BlocksInRange k.abyss.mem) {fs : FileOps}
    {file : Option VfsFile} {k₁ : Kernel} (hcall : fsCreate k full fs = some (file, k₁))
    (habyss : k'.abyss = k₁.abyss) (hramfs : k'.ramfs = k₁.ramfs) :
    SameStore k k' ↔ FsCreateAtomic k full fs := by
  cases fs with
  | ramfs =>
      rw [fsCreate, Option.map_eq_some_iff] at hcall
      obtain ⟨⟨file', heapPos, fs'⟩, hcall, heq⟩ := hcall
      cases heq
      exact ramfsCreate_atomic_iff hcall habyss hramfs
  | abyssfs =>
      rw [fsCreate, Option.map_eq_some_iff] at hcall
      obtain ⟨⟨file', heapPos, s'⟩, hcall, heq⟩ := hcall
      cases heq
      exact abyssfsCreate_atomic_iff hrange hcall habyss hramfs

theorem vfsCreate_atomic_iff (hrange : BlocksInRange k.abyss.mem) {path : Str} {fd : Int}
    (h : vfsCreate k path = some (fd, k')) (hneg : fd < 0) :
    SameStore k k' ↔ CreateAtomic k path := by
  unfold vfsCreate at h
  unfold CreateAtomic
  cases hroute : createRoute k path with
  | none =>
      rw [hroute] at h
      cases h
  | some route =>
      obtain ⟨fs, full⟩ := route
      rw [hroute] at h
      cases fs with
      | none =>
          cases h
          exact iff_of_true (.of_eq rfl rfl) trivial
      | some fs =>
          dsimp only at h ⊢
          cases hcall : fsCreate k full fs with
          | none =>
              rw [hcall] at h
              cases h
          | some answer =>
              obtain ⟨file, k₁⟩ := answer
              rw [hcall] at h
              cases file with
              | none =>
                  cases h
                  exact fsCreate_atomic_iff hrange hcall rfl rfl
              | some file =>
                  rw [Option.some.injEq] at h
                  rcases allocFd_cases k₁ file with ⟨_, hfd⟩ | ⟨_, hfd⟩
                  · rw [hfd] at h
                    cases h
                    exact fsCreate_atomic_iff hrange hcall rfl rfl
                  · rw [hfd] at h
                    cases h
                    omega

theorem fsMkdir_atomic_iff {fs : FileOps} {result : Int} (h : fsMkdir k full fs = some (result, k'))
    (hneg : result < 0) : SameStore k k' ↔ FsMkdirAtomic k full fs := by
  cases fs with
  | ramfs =>
      rw [fsMkdir, ramfsMkdir] at h
      cases hfree : ramfsFree k.ramfs with
      | none =>
          simp only [hfree] at h
          cases h
          exact iff_of_true (.of_eq rfl rfl) trivial
      | some i =>
          simp only [hfree] at h
          cases h
          omega
  | abyssfs =>
      rw [fsMkdir, Option.map_eq_some_iff] at h
      obtain ⟨⟨result', s'⟩, hcall, heq⟩ := h
      cases heq
      unfold FsMkdirAtomic
      cases abyssfsMkdir_outcome hcall with
      | noParent hparent => exact iff_of_true (.of_eq rfl rfl) (Or.inl hparent)
      | noInode _ halloc => exact iff_of_true (.of_eq rfl rfl) (Or.inr (by rw [halloc]))
      | @noBlock target i hparent hi hfree halloc =>
          refine iff_of_false (not_sameStore_of_inode hi hfree ?_) ?_
          · dsimp only
            rw [freshInode_mode]
            decide
          · rw [hparent]
            exact not_or.mpr ⟨by simp, allocInode_fst_ne hi.1 halloc⟩
      | @noDirectory p num base i b hparent hi hfree hb _ halloc =>
          refine iff_of_false (not_sameStore_of_inode hi hfree ?_) ?_
          · dsimp only
            rw [preparedDir_mode _ _ hb.1 hi.2]
            decide
          · rw [hparent]
            exact not_or.mpr ⟨by simp, allocInode_fst_ne hi.1 halloc⟩
      | made => omega

theorem vfsMkdir_atomic_iff {path : Str} {result : Int} (h : vfsMkdir k path = some (result, k'))
    (hneg : result < 0) : SameStore k k' ↔ MkdirAtomic k path := by
  unfold vfsMkdir at h
  unfold MkdirAtomic
  cases hroute : mkdirRoute k path with
  | none =>
      rw [hroute] at h
      cases h
  | some route =>
      obtain ⟨fs, full⟩ := route
      rw [hroute] at h
      cases fs with
      | none =>
          cases h
          exact iff_of_true (.of_eq rfl rfl) trivial
      | some fs => exact fsMkdir_atomic_iff h hneg

end Calls

/-- When a creating call that returns a negative value has changed nothing. -/
theorem failed_creation_atomic_iff (k : Kernel) (hk : AbyssReached k.abyss) (path : CString) :
    (∀ fd k', vfsCreate k path.chars = some (fd, k') → fd < 0 →
      (SameStore k k' ↔ CreateAtomic k path.chars)) ∧
    ∀ result k', vfsMkdir k path.chars = some (result, k') → result < 0 →
      (SameStore k k' ↔ MkdirAtomic k path.chars) :=
  ⟨fun _ _ h hneg => vfsCreate_atomic_iff hk.blocksInRange h hneg,
    fun _ _ h hneg => vfsMkdir_atomic_iff h hneg⟩

/-- A shell on a machine whose RAMFS is full. -/
def fullShell : Kernel := { shellKernel (fun _ => 0) with ramfs := fun _ => ⟨fun _ => 0, 0, true⟩ }

def tmpFull : CString := ⟨ascii "/tmp/full", by decide⟩

/-- Without a slot, nothing has been taken when the call fails. -/
theorem failed_creation_atomic_full :
    ∃ k', vfsCreate fullShell tmpFull.chars = some (-1, k') ∧ SameStore fullShell k' := by
  have hresult : (vfsCreate fullShell tmpFull.chars).map Prod.fst = some (-1) := by decide +kernel
  rw [Option.map_eq_some_iff] at hresult
  obtain ⟨⟨_, k'⟩, hcall, rfl⟩ := hresult
  refine ⟨k', hcall, ?_⟩
  have hiff := (failed_creation_atomic_iff fullShell (.boot blankFs) tmpFull).1 _ k' hcall
    (by decide)
  rw [hiff, CreateAtomic, show createRoute fullShell tmpFull.chars =
    some (some .ramfs, tmpFull.chars) by decide +kernel]
  intro i hfree
  have hnone : ramfsFree fullShell.ramfs = none := by decide +kernel
  rw [hnone] at hfree
  cases hfree

def orphanPath : CString := ⟨ascii "/nodir/a", by decide⟩

/-- A file without a parent directory costs an inode. -/
theorem orphan_create_takes_inode :
    ∃ k', vfsCreate (shellKernel fun _ => 0) orphanPath.chars = some (-1, k') ∧
      ¬SameStore (shellKernel fun _ => 0) k' := by
  have hresult : (vfsCreate (shellKernel fun _ => 0) orphanPath.chars).map
      (fun answer => (answer.1, mode answer.2.abyss.mem (inodeAddr 2))) =
        some (-1, fileMode) := by decide +kernel
  rw [Option.map_eq_some_iff] at hresult
  obtain ⟨⟨fd, k'⟩, hcall, heq⟩ := hresult
  obtain ⟨rfl, hmode⟩ := Prod.mk.inj heq
  refine ⟨k', hcall, not_sameStore_of_inode (i := 2) (by omega) ?_ ?_⟩
  · decide +kernel
  · dsimp only at hmode
    rw [hmode]
    decide

end Chthon
