import Chthon.AbyssContents

/-! Reaching AbyssFS files by name. `abyssfs_open` allocates a handle without looking at its path, so
every opened handle is on inode 0, which no directory lists. What a path resolves to, what reading a
created file back returns, and whether two handles are apart, all come down to inode 0. -/

namespace Chthon

open ByteMemory

/-- There is heap left for a `struct vfs_file`. -/
def HandleRoom (heapPos : Nat) : Prop := (kalloc heapPos vfsFileSize).1.isSome = true

theorem abyssfsOpen_cases (heapPos : Nat) (path : Str) :
    (HandleRoom heapPos ∧ (abyssfsOpen heapPos path).1 = some ⟨.abyssfs, 0, 0⟩) ∨
    (¬HandleRoom heapPos ∧ (abyssfsOpen heapPos path).1 = none) := by
  unfold abyssfsOpen HandleRoom
  cases kalloc heapPos vfsFileSize with
  | mk addr heapPos' =>
      cases addr with
      | none => exact Or.inr ⟨by simp, rfl⟩
      | some addr => exact Or.inl ⟨rfl, rfl⟩

/-! Resolving a path. -/

/-- An open of the path fails if it resolves to nothing, and else is on the inode it resolves to. -/
def OpenFinds (heapPos : Nat) (path : Str) : Option Nat → Prop
  | none => (abyssfsOpen heapPos path).1 = none
  | some inode => ∃ file, (abyssfsOpen heapPos path).1 = some file ∧
      getInode file.privateData = some inode

theorem openFinds_iff (heapPos : Nat) (path : Str) (target : Option Nat) :
    OpenFinds heapPos path target ↔
      (¬HandleRoom heapPos ∧ target = none) ∨ (HandleRoom heapPos ∧ target = some (inodeAddr 0)) := by
  have hzero : getInode 0 = some (inodeAddr 0) := getInode_of_lt (by omega)
  rcases abyssfsOpen_cases heapPos path with ⟨hroom, hopen⟩ | ⟨hroom, hopen⟩
  · cases target with
    | none => simp [OpenFinds, hopen, hroom]
    | some inode => simp [OpenFinds, hopen, hroom, hzero, eq_comm]
  · cases target with
    | none => simp [OpenFinds, hopen, hroom]
    | some inode => simp [OpenFinds, hopen, hroom]

/-! Reading back. -/

/-- Opening the path and reading returns exactly `data`, whatever the size of the buffer. -/
def ReadsBack (heapPos : Nat) (s : Abyssfs) (path data : Str) : Prop :=
  ∃ file, (abyssfsOpen heapPos path).1 = some file ∧
    ∀ count, data.length ≤ count → count < 2 ^ 64 →
      (abyssfsRead s file count).map Prod.fst = some (some data)

/-- What inode 0 says it holds. -/
def zeroText (s : Abyssfs) : Str :=
  load s.mem (blocks s.mem (inodeAddr 0) * 4096 % 2 ^ 32) (size s.mem (inodeAddr 0))

/-- A read from the start through an opened handle. -/
theorem abyssfsRead_zero (s : Abyssfs) {count : Nat} (hcount : count < 2 ^ 64) :
    (abyssfsRead s ⟨.abyssfs, 0, 0⟩ count).map Prod.fst = some (some ((zeroText s).take count)) := by
  have hslice : ∀ c ≤ size s.mem (inodeAddr 0),
      load s.mem (blocks s.mem (inodeAddr 0) * 4096 % 2 ^ 32) c = (zeroText s).take c := by
    intro c hc
    have := load_drop_take s.mem (blocks s.mem (inodeAddr 0) * 4096 % 2 ^ 32)
      (size s.mem (inodeAddr 0)) 0 c (by omega)
    simpa [zeroText] using this
  have hlen : (zeroText s).length = size s.mem (inodeAddr 0) := load_length _ _ _
  have hinode : getInode ((⟨.abyssfs, 0, 0⟩ : VfsFile).privateData % 2 ^ 32) =
      some (inodeAddr 0) := getInode_of_lt (show 0 % 2 ^ 32 < 512 by decide)
  unfold abyssfsRead
  rw [hinode]
  simp only [blockSize_eq, Nat.zero_add, Nat.mod_eq_of_lt hcount, Nat.sub_zero, Nat.add_zero]
  by_cases hend : 0 ≥ size s.mem (inodeAddr 0)
  · rw [if_pos hend, List.eq_nil_of_length_eq_zero (hlen.trans (by omega))]
    simp
  · rw [if_neg hend]
    by_cases hover : count > size s.mem (inodeAddr 0)
    · rw [if_pos hover, if_neg (by omega), Option.map_some, hslice _ le_rfl,
        List.take_of_length_le (by omega), List.take_of_length_le (by omega)]
    · rw [if_neg hover, if_neg hover, Option.map_some, hslice _ (by omega)]

theorem readsBack_iff (heapPos : Nat) (s : Abyssfs) (path : Str) {data : Str}
    (hdata : data.length ≤ 4096) :
    ReadsBack heapPos s path data ↔ HandleRoom heapPos ∧ zeroText s = data := by
  rcases abyssfsOpen_cases heapPos path with ⟨hroom, hopen⟩ | ⟨hroom, hopen⟩
  · constructor
    · rintro ⟨file, hfile, hread⟩
      obtain rfl : (⟨.abyssfs, 0, 0⟩ : VfsFile) = file := Option.some.inj (hopen.symm.trans hfile)
      -- the size is a 32-bit number, so one read can ask for everything
      have hsize : (zeroText s).length < 2 ^ 32 := by
        rw [zeroText, load_length]
        exact read32_lt _ _
      have hall := hread (2 ^ 32) (by omega) (by omega)
      rw [abyssfsRead_zero s (by omega), List.take_of_length_le (by omega)] at hall
      exact ⟨hroom, Option.some.inj (Option.some.inj hall)⟩
    · rintro ⟨_, rfl⟩
      refine ⟨_, hopen, fun count hlen hcount => ?_⟩
      rw [abyssfsRead_zero s hcount, List.take_of_length_le hlen]
  · constructor
    · rintro ⟨file, hfile, _⟩
      rw [hopen] at hfile
      cases hfile
    · rintro ⟨h, _⟩
      exact absurd h hroom

/-! Inode 0 through a create and a write. -/

section Untouched

variable {es : List DirEntry} {s s₁ : Abyssfs} {heapPos heapPos₁ : Nat} {cwd : Option Str}
  {path : Str} {file : VfsFile}

theorem Owned.create_zero (h : Owned es s)
    (hroom : ∀ dirInode filename b,
      createParent (allocInode s).2.mem cwd (skipSlash path) = some (some (dirInode, filename)) →
      directoryBlock (allocInode s).2.mem dirInode = some b →
      AppendRoom (allocInode s).2.mem b filename)
    (hcall : abyssfsCreate heapPos s cwd path = some (some file, heapPos₁, s₁)) :
    SameInode s.mem s₁.mem 0 ∧ file.privateData ≠ 0 ∧ file.privateData < 512 ∧
      blocks s₁.mem (inodeAddr file.privateData) = 0 := by
  rcases abyssfsCreate_cases hcall with ⟨hnone, _⟩ | ⟨i, hi1, hi, hfree, halloc, hrest⟩
  · cases hnone
  rw [halloc] at hroom
  rcases hrest with ⟨hnone, _⟩ | ⟨p, filename, b, e, m', hparent, hdir, happend, rfl, hfile⟩
  · cases hnone
  obtain ⟨hi2, _, hfresh⟩ := h.alloc hi1 hi hfree
  obtain ⟨n, hn, rfl⟩ := (createParent_addr hparent).1
  have hb := hfresh.directoryBlock_eq hn hdir
  have honly := (hroom _ filename b hparent hdir).onlyBlock happend
  have hsame : ∀ k < 512, SameInode (freshInode s.mem i) m' k := fun k hk =>
    SameInode.of_data hk fun x hx => honly x (Or.inl (by omega))
  rcases hfile with hfile | hfile
  · cases hfile
  · obtain rfl := Option.some.inj hfile
    refine ⟨(freshInode_other s.mem (by omega)).trans (hsame 0 (by omega)), by simp; omega, hi, ?_⟩
    rw [(hsame i hi).blocks]
    exact freshInode_blocks s.mem i

theorem abyssfsWrite_zero (s : Abyssfs) (file : VfsFile) (data : Str)
    (hne : file.privateData ≠ 0) (hlt : file.privateData < 512)
    (hblock : blocks s.mem (inodeAddr file.privateData) = 0) :
    SameInode s.mem (abyssfsWrite s file data).2.mem 0 := by
  rcases abyssfsWrite_cases s file data rfl hlt (by omega) with ⟨_, _, hcall⟩ |
    ⟨b, _, hb9, _, _, hcall⟩ | ⟨hno, _⟩
  · rw [hcall]
    exact SameInode.refl _ _
  · rw [hcall]
    exact (SameInode.write32 s.mem 8 b (by omega) hne.symm).trans
      (writtenFile_other _ hb9 (by omega) hne.symm)
  · exact absurd hblock hno

end Untouched

/-- Two opened handles are on different inodes. -/
def HandlesApart (heapPos heapPos' : Nat) (path path' : Str) : Prop :=
  ∀ file file', (abyssfsOpen heapPos path).1 = some file →
    (abyssfsOpen heapPos' path').1 = some file' → file.privateData ≠ file'.privateData

theorem handlesApart_iff (heapPos heapPos' : Nat) (path path' : Str) :
    HandlesApart heapPos heapPos' path path' ↔ ¬HandleRoom heapPos ∨ ¬HandleRoom heapPos' := by
  rcases abyssfsOpen_cases heapPos path with ⟨hroom, hopen⟩ | ⟨hroom, hopen⟩
  · rcases abyssfsOpen_cases heapPos' path' with ⟨hroom', hopen'⟩ | ⟨hroom', hopen'⟩
    · simp [HandlesApart, hopen, hopen', hroom, hroom']
    · simp [HandlesApart, hopen', hroom']
  · simp [HandlesApart, hopen, hroom]

/-- When files are reachable by name: an open finds what its path resolves to only if that is inode
0, or nothing while the heap is exhausted; a file that is created, written and opened again reads
back only what inode 0 holds then, which is nothing as long as inode 0 has not been written; and two
opened handles are apart only if one of the opens fails. -/
theorem open_by_name_iff (heapPos : Nat) (s : Abyssfs) (path : Str) :
    (∀ target : Option Nat, getInodeByPath s.mem path = some target →
      (OpenFinds heapPos path target ↔ (¬HandleRoom heapPos ∧ target = none) ∨
        (HandleRoom heapPos ∧ target = some (inodeAddr 0)))) ∧
    (∀ (heapPos₁ : Nat) (s₁ s₂ : Abyssfs) (cwd : Option Str) (data : Str) (file : VfsFile),
      data.length ≤ 4096 →
      abyssfsCreate heapPos s cwd path = some (some file, heapPos₁, s₁) →
      abyssfsWrite s₁ file data = ((data.length : Int), s₂) →
      (ReadsBack heapPos₁ s₂ path data ↔ HandleRoom heapPos₁ ∧ zeroText s₂ = data) ∧
      (∀ es, Owned es s → (∀ dirInode filename b,
          createParent (allocInode s).2.mem cwd (skipSlash path) = some (some (dirInode, filename)) →
          directoryBlock (allocInode s).2.mem dirInode = some b →
          AppendRoom (allocInode s).2.mem b filename) →
        size s.mem (inodeAddr 0) = 0 →
        (ReadsBack heapPos₁ s₂ path data ↔ HandleRoom heapPos₁ ∧ data = []))) ∧
    (∀ (heapPos' : Nat) (path' : Str),
      HandlesApart heapPos heapPos' path path' ↔ ¬HandleRoom heapPos ∨ ¬HandleRoom heapPos') := by
  refine ⟨fun target _ => openFinds_iff heapPos path target, ?_, fun heapPos' path' =>
    handlesApart_iff heapPos heapPos' path path'⟩
  intro heapPos₁ s₁ s₂ cwd data file hdata hcreate hwrite
  have hread := readsBack_iff heapPos₁ s₂ path hdata
  refine ⟨hread, fun es howned hroom hempty => ?_⟩
  obtain ⟨hsame, hne, hlt, hblock⟩ := howned.create_zero hroom hcreate
  have hsame' := abyssfsWrite_zero s₁ file data hne hlt hblock
  rw [hwrite] at hsame'
  have hsize : size s₂.mem (inodeAddr 0) = 0 := by
    rw [hsame'.size, hsame.size, hempty]
  have hzero : zeroText s₂ = [] := by
    rw [zeroText, hsize]
    rfl
  rw [hread, hzero, eq_comm (a := data)]

/-- An empty file on a fresh file system: the one content that is read back. -/
theorem open_by_name_empty_file :
    ∃ file heapPos₁ s₁ s₂,
      abyssfsCreate 262144 (bootVolume blankFs).fs (some (ascii "/")) (ascii "/a") =
        some (some file, heapPos₁, s₁) ∧
      abyssfsWrite s₁ file [] = (0, s₂) ∧ ReadsBack heapPos₁ s₂ (ascii "/a") [] := by
  have hcall : (abyssfsCreate 262144 (bootVolume blankFs).fs (some (ascii "/")) (ascii "/a")).map
      (fun r => r.1.map fun file => ((kalloc r.2.1 vfsFileSize).1.isSome,
        (abyssfsWrite r.2.2 file []).1, zeroText (abyssfsWrite r.2.2 file []).2)) =
      some (some (true, 0, [])) := by decide +kernel
  rw [Option.map_eq_some_iff] at hcall
  obtain ⟨⟨made, heapPos₁, s₁⟩, hcreate, hrest⟩ := hcall
  rw [Option.map_eq_some_iff] at hrest
  obtain ⟨file, rfl, hrest⟩ := hrest
  obtain ⟨hroom, hrest⟩ := Prod.mk.inj hrest
  obtain ⟨hresult, hzero⟩ := Prod.mk.inj hrest
  have hwrite : abyssfsWrite s₁ file [] = (0, (abyssfsWrite s₁ file []).2) := Prod.ext hresult rfl
  refine ⟨file, heapPos₁, s₁, _, hcreate, hwrite, ?_⟩
  exact (((open_by_name_iff 262144 _ _).2.1 heapPos₁ s₁ _ _ [] file (by simp) hcreate hwrite).1).mpr
    ⟨hroom, hzero⟩

/-- The first file made after boot: its path resolves to its own inode, but an open is on inode 0,
the two bytes written are not read back, and a handle on a second file is on the same inode. -/
theorem open_misses_created_file :
    ∃ file heapPos₁ s₁ s₂,
      abyssfsCreate 262144 (bootVolume blankFs).fs (some (ascii "/")) (ascii "/a") =
        some (some file, heapPos₁, s₁) ∧
      abyssfsWrite s₁ file (ascii "hi") = (2, s₂) ∧
      getInodeByPath s₂.mem (ascii "/a") = some (some (inodeAddr 2)) ∧
      ¬OpenFinds heapPos₁ (ascii "/a") (some (inodeAddr 2)) ∧
      ¬ReadsBack heapPos₁ s₂ (ascii "/a") (ascii "hi") ∧
      ¬HandlesApart heapPos₁ heapPos₁ (ascii "/a") (ascii "/b") := by
  have hcall : (abyssfsCreate 262144 (bootVolume blankFs).fs (some (ascii "/")) (ascii "/a")).map
      (fun r => r.1.map fun file => ((kalloc r.2.1 vfsFileSize).1.isSome,
        (abyssfsWrite r.2.2 file (ascii "hi")).1,
        decide (getInodeByPath (abyssfsWrite r.2.2 file (ascii "hi")).2.mem (ascii "/a") =
          some (some (inodeAddr 2))), zeroText (abyssfsWrite r.2.2 file (ascii "hi")).2)) =
      some (some (true, 2, true, [])) := by decide +kernel
  rw [Option.map_eq_some_iff] at hcall
  obtain ⟨⟨made, heapPos₁, s₁⟩, hcreate, hrest⟩ := hcall
  rw [Option.map_eq_some_iff] at hrest
  obtain ⟨file, rfl, hrest⟩ := hrest
  obtain ⟨hroom, hrest⟩ := Prod.mk.inj hrest
  obtain ⟨hresult, hrest⟩ := Prod.mk.inj hrest
  obtain ⟨hpath, hzero⟩ := Prod.mk.inj hrest
  refine ⟨file, heapPos₁, s₁, _, hcreate, Prod.ext hresult rfl, of_decide_eq_true hpath,
    ?_, ?_, ?_⟩
  · rw [openFinds_iff]
    rintro (⟨hfull, _⟩ | ⟨_, heq⟩)
    · exact hfull hroom
    · exact absurd heq (by decide)
  · rw [readsBack_iff heapPos₁ _ _ (by decide)]
    rintro ⟨_, heq⟩
    exact absurd (hzero.symm.trans heq) (by decide)
  · rw [handlesApart_iff]
    rintro (hfull | hfull)
    · exact hfull hroom
    · exact hfull hroom

end Chthon
