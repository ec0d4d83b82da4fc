import Chthon.AbyssAppend
import Chthon.NamespaceDecay
import Chthon.VfsCapacity

/-! When a call on files is refused. Every call behind `send_message` that can fail has a condition on
the state before it, and returns a negative number exactly under that condition. -/

namespace Chthon

open ByteMemory PathText

/-! The conditions. -/

/-- The heap has no room for another file. -/
def HeapFull (heapPos : Nat) : Prop := (kalloc heapPos vfsFileSize).1 = none

/-- AbyssFS has no inode for a new file, or no directory to list it in. -/
def NoEntry (s : Abyssfs) (cwd : Option Str) (path : Str) : Prop :=
  (allocInode s).1 = 0 ∨
    match createParent (allocInode s).2.mem cwd (skipSlash path) with
    | none => False
    | some none => True
    | some (some (dir, _)) => directoryBlock (allocInode s).2.mem dir = none

/-- The text does not lead to a directory of AbyssFS. -/
def NoDirectory (m : Memory) (path : Str) : Prop :=
  skipSlash path ≠ [] ∧
    match getInodeByPath m (skipSlash path) with
    | none => False
    | some none => True
    | some (some inode) => getBlock (blocks m inode) = none

section Calls

variable {k k' : Kernel} {path : Str} {fd result : Int}

theorem createFile_neg_iff {s s' : Abyssfs} {cwd : Option Str} {name : Str} {i : Nat}
    (h : createFile s cwd name i = some (result, s')) :
    result < 0 ↔ match createParent s.mem cwd name with
      | none => False
      | some none => True
      | some (some (dir, _)) => directoryBlock s.mem dir = none := by
  unfold createFile at h
  cases hparent : createParent s.mem cwd name with
  | none =>
      rw [hparent] at h
      cases h
  | some found =>
      rw [hparent] at h
      cases found with
      | none =>
          cases h
          exact iff_of_true (by decide) trivial
      | some target =>
          obtain ⟨dir, filename⟩ := target
          dsimp only at h ⊢
          cases hblock : directoryBlock s.mem dir with
          | none =>
              rw [hblock] at h
              cases h
              exact iff_of_true (by decide) rfl
          | some b =>
              simp only [hblock, Option.map_eq_some_iff] at h
              obtain ⟨_, _, heq⟩ := h
              cases heq
              simp

theorem abyssfsCreate_none_iff {heapPos heapPos' : Nat} {s s' : Abyssfs} {cwd : Option Str}
    {file : Option VfsFile} (h : abyssfsCreate heapPos s cwd path = some (file, heapPos', s')) :
    file = none ↔ NoEntry s cwd path ∨ HeapFull heapPos := by
  unfold NoEntry HeapFull
  cases halloc : allocInode s with
  | mk i s₁ =>
      cases i with
      | zero =>
          rw [abyssfsCreate, halloc] at h
          cases h
          simp
      | succ i =>
          rw [abyssfsCreate_of_alloc heapPos cwd path halloc i.succ_pos] at h
          split at h
          · cases h
          · rename_i hcreate
            rw [or_iff_right i.succ_ne_zero, ← createFile_neg_iff hcreate]
            split_ifs at h with hneg
            · cases h
              simp [hneg]
            · obtain hheap | hheap := kalloc_cases heapPos vfsFileSize
              all_goals
                rw [hheap] at h ⊢
                cases h
                simp [hneg]

theorem ramfsCreate_none_iff {heapPos heapPos' : Nat} {fs fs' : Ramfs} {file : Option VfsFile}
    (h : ramfsCreate heapPos fs path = some (file, heapPos', fs')) :
    file = none ↔ ramfsFree fs = none ∨ HeapFull heapPos := by
  unfold ramfsCreate at h
  unfold HeapFull
  dsimp only at h
  split_ifs at h
  cases hfree : ramfsFree fs with
  | none =>
      simp only [hfree] at h
      cases h
      simp
  | some i =>
      obtain hheap | hheap := kalloc_cases heapPos vfsFileSize
      all_goals
        simp only [hfree, hheap] at h
        cases h
        simp [hheap]

theorem abyssfsReadDir_none_iff {m : Memory} {count : Nat} {entries : Option (List (Nat × Str))}
    (h : abyssfsReadDir m path count = some entries) : entries = none ↔ NoDirectory m path := by
  unfold abyssfsReadDir at h
  unfold NoDirectory
  dsimp only at h
  by_cases hroot : skipSlash path = []
  · simp only [hroot, if_true] at h
    have hblock : getBlock (inodeBlocks + 1) = some ((inodeBlocks + 1) * blockSize) := by decide
    simp only [hblock, Option.map_eq_some_iff] at h
    obtain ⟨_, _, rfl⟩ := h
    simp [hroot]
  · simp only [hroot, if_false] at h
    rw [and_iff_right hroot]
    cases hinode : getInodeByPath m (skipSlash path) with
    | none => simp [hinode] at h
    | some inode =>
        cases inode with
        | none =>
            simp only [hinode, Option.map_some, Option.map_none, Option.some.injEq] at h
            simp [← h]
        | some inode =>
            simp only [hinode, Option.map_some] at h
            split at h <;> rename_i hblock
            · cases h
              simp [hblock]
            · rw [Option.map_eq_some_iff] at h
              obtain ⟨_, _, rfl⟩ := h
              simp [hblock]

theorem unbind_neg_iff (k : Kernel) (path : Str) :
    (unbind k path).1 < 0 ↔ ∀ p, k.current = some p → ∀ ns ∈ (k.procs p).ns, ns.newPath ≠ path := by
  unfold unbind
  cases k.current with
  | none => simp
  | some p =>
      dsimp only
      split_ifs with hany
      · simp only [List.any_eq_true, decide_eq_true_eq] at hany
        obtain ⟨ns, hns, hpath⟩ := hany
        exact iff_of_false (lt_irrefl _) fun h => h p rfl ns hns hpath
      · simp only [List.any_eq_true, decide_eq_true_eq, not_exists, not_and] at hany
        apply iff_of_true (show (-1 : Int) < 0 by decide)
        rintro _ ⟨⟩
        exact hany

theorem ramfsRead_length {fs : Ramfs} {file file' : VfsFile} {count : Nat} {bytes : Str}
    (h : ramfsRead fs file count = some (bytes, file')) (hcount : count < 2 ^ 64) :
    bytes.length ≤ count := by
  unfold ramfsRead at h
  dsimp only at h
  split_ifs at h with hend hwrap hpast hpast <;> cases h
  · exact Nat.zero_le _
  · rw [load_length]
    omega
  · rw [load_length]

theorem abyssfsRead_length {s : Abyssfs} {file file' : VfsFile} {count : Nat} {bytes : Str}
    (h : abyssfsRead s file count = some (some bytes, file')) (hcount : count < 2 ^ 64) :
    bytes.length ≤ count := by
  unfold abyssfsRead at h
  split at h
  · cases h
  · dsimp only at h
    split_ifs at h with hend hwrap hpast hpast <;> cases h
    · exact Nat.zero_le _
    · rw [load_length]
      omega
    · rw [load_length]

theorem vfsRead_length {count : Nat} {bytes : Str}
    (h : vfsRead k fd count = some (some bytes, k')) (hcount : count < 2 ^ 64) :
    bytes.length ≤ count := by
  unfold vfsRead at h
  split at h
  · cases h
  · split at h
    all_goals
      rw [Option.map_eq_some_iff] at h
      obtain ⟨⟨_, file⟩, hread, heq⟩ := h
      cases heq
    · exact ramfsRead_length hread hcount
    · exact abyssfsRead_length hread hcount

end Calls

end Chthon
