import Chthon.AbyssDirectories
import Chthon.AbyssTree
import Chthon.VfsFailures

/-! Distinct names. None of `create_file`, `abyssfs_mkdir`, `ramfs_create` and `ramfs_mkdir` looks
whether the name it adds is there already, so names stay distinct exactly as long as the callers add
new ones. -/

namespace Chthon

open ByteMemory PathText Run

/-- No two pairs of a listing have the same name. -/
def NamesApart (pairs : List (Nat × Str)) : Prop := (pairs.map Prod.snd).Nodup

/-- No directory of AbyssFS holds two records of one name, and no two slots in use of RAMFS have the
same path. -/
structure UniqueNames (k : Kernel) : Prop where
  directories : Listed NamesApart k.abyss
  slots : UniqueSlots k.ramfs

/-- The search for the name of a record finds that record, and the search for the path of a slot
that slot. -/
structure FindsEach (k : Kernel) : Prop where
  records : ∀ n < 512, IsDirectory k.abyss.mem n →
    ∀ rs, DirAt k.abyss.mem (blocks k.abyss.mem (inodeAddr n)) rs → ∀ r ∈ rs,
      ∃ e, findEntry k.abyss.mem r.name heapSize (blocks k.abyss.mem (inodeAddr n) * blockSize) =
        some (some e) ∧ entryInode k.abyss.mem e = r.inode
  slots : ∀ i < maxFiles, ∀ path : CString, (k.ramfs i).Stores path.chars →
    ramfsFind k.ramfs path.chars = some i

/-! Directories. -/

/-- The directory in block `b` has no record of this name. -/
def NameAbsent (m : Memory) (b : Nat) (name : Str) : Prop :=
  findEntry m name heapSize (b * blockSize) = some none

theorem allowsEdits_namesApart : AllowsEdits NamesApart where
  empty _ _ := by
    change [ascii ".", ascii ".."].Nodup
    decide
  sublist _ _ hsub h := h.sublist (hsub.map Prod.snd)

section Records

variable {m m' : Memory} {b i n : Nat} {name : Str} {rs : List DirEntry} {s s' : Abyssfs}
  {es : List DirEntry}

/-- A name is absent exactly when no record of the listing has it. -/
theorem DirAt.nameAbsent_iff (h : DirAt m b rs) (hnul : 0 ∉ name) :
    NameAbsent m b name ↔ name ∉ (rs.map DirEntry.pair).map Prod.snd := by
  obtain ⟨found, hfind, hinode⟩ := h.findEntry_key hnul
  rw [NameAbsent, blockSize_eq, hfind, Option.some.injEq]
  constructor
  · rintro rfl hmem
    rw [Option.map_none, eq_comm, Option.map_eq_none_iff, List.find?_eq_none] at hinode
    obtain ⟨key, hkey, rfl⟩ := List.mem_map.mp hmem
    exact hinode key hkey (decide_eq_true rfl)
  · intro hnone
    have hmiss : (rs.map DirEntry.key).find? (·.2 = name) = none := by
      rw [List.find?_eq_none]
      intro key hkey heq
      exact hnone (List.mem_map.mpr ⟨key, hkey, of_decide_eq_true heq⟩)
    rw [hmiss, Option.map_none, Option.map_eq_none_iff] at hinode
    exact hinode

theorem namesApart_append {pairs : List (Nat × Str)} (h : NamesApart pairs) :
    NamesApart (pairs ++ [(i, name)]) ↔ name ∉ pairs.map Prod.snd := by
  rw [NamesApart, List.map_append, List.map_singleton, List.nodup_append]
  constructor
  · rintro ⟨-, -, hapart⟩ hmem
    exact hapart name hmem name (List.mem_singleton_self _) rfl
  · intro hnew
    refine ⟨h, List.nodup_singleton _, ?_⟩
    intro a ha c hc
    rw [List.mem_singleton.mp hc]
    rintro rfl
    exact hnew ha

theorem extends_of_absent (hnul : 0 ∉ name) (h : NameAbsent m b name) :
    Extends NamesApart m b name :=
  fun _ _ hrs hapart => (namesApart_append hapart).mpr ((hrs.nameAbsent_iff hnul).mp h)

/-- Under distinct names every record is the one its name leads to. -/
theorem NamesApart.finds (h : NamesApart (rs.map DirEntry.pair)) (hrs : DirAt m b rs) {r : DirEntry}
    (hr : r ∈ rs) : ∃ e, findEntry m r.name heapSize (b * blockSize) = some (some e) ∧
      entryInode m e = r.inode := by
  obtain ⟨found, hfind, hinode⟩ := hrs.findEntry_key r.nul_free
  have hfirst : (rs.map DirEntry.key).find? (·.2 = r.name) = some r.key := by
    cases hkey : (rs.map DirEntry.key).find? (·.2 = r.name) with
    | none =>
        rw [List.find?_eq_none] at hkey
        exact absurd (decide_eq_true rfl) (hkey r.key (List.mem_map_of_mem hr))
    | some key =>
        have hname : key.2 = r.name := by simpa using List.find?_some hkey
        exact congrArg some (List.inj_on_of_nodup_map h (List.mem_of_find?_eq_some hkey)
          (List.mem_map_of_mem hr) hname)
  rw [hfirst, Option.map_some, Option.map_eq_some_iff] at hinode
  obtain ⟨e, rfl, he⟩ := hinode
  exact ⟨e, hfind, he⟩

/-- Appending a record to a directory keeps the names distinct exactly when its name is absent. -/
theorem Listed.append_iff (h : Listed NamesApart s) {e : Nat} (hb : 9 ≤ b)
    (hroom : AppendRoom s.mem b name) (hi : i < 2 ^ 32) (hnul : 0 ∉ name)
    (happend : appendEntry s.mem b i name = some (e, m')) :
    Listed NamesApart { s with mem := m' } ↔ (DirectoryBlock s.mem b → NameAbsent s.mem b name) := by
  constructor
  · intro hafter hdir
    obtain ⟨n, hn, hdirectory, rfl⟩ := hdir
    obtain ⟨-, rs, hrs, hapart⟩ := h n hn hdirectory
    have honly := hroom.onlyBlock happend
    have hsame : SameInode s.mem m' n := SameInode.of_data hn fun x hx => honly x (by omega)
    obtain ⟨-, rs', hrs', hapart'⟩ := hafter n hn (hsame.isDirectory.mpr hdirectory)
    rw [hsame.blocks] at hrs'
    rw [hrs'.pairs_unique (hrs.append_pair hroom hi hnul happend), List.map_append] at hapart'
    exact (hrs.nameAbsent_iff hnul).mpr ((namesApart_append hapart).mp hapart')
  · intro habsent
    exact h.append hb hroom hi hnul (fun hdir => extends_of_absent hnul (habsent hdir)) happend

/-- A record that `abyssfs_create` gets to writing is written. -/
theorem abyssfsCreate_appended {heapPos heapPos' : Nat} {cwd : Option Str} {path filename : Str}
    {file : Option VfsFile} {p : Nat} (halloc : allocInode s = (i, { s with mem := freshInode s.mem i }))
    (hi : 1 ≤ i)
    (hparent : createParent (freshInode s.mem i) cwd (skipSlash path) = some (some (p, filename)))
    (hdir : directoryBlock (freshInode s.mem i) p = some b)
    (hcall : abyssfsCreate heapPos s cwd path = some (file, heapPos', s')) :
    ∃ e m', appendEntry (freshInode s.mem i) b i filename = some (e, m') ∧
      s' = { s with mem := m' } := by
  rw [abyssfsCreate_of_alloc heapPos cwd path halloc hi, createFile, hparent] at hcall
  simp only [hdir] at hcall
  cases happend : appendEntry (freshInode s.mem i) b i filename with
  | none =>
      rw [happend] at hcall
      cases hcall
  | some result =>
      obtain ⟨e, m'⟩ := result
      refine ⟨e, m', rfl, ?_⟩
      rw [happend, Option.map_some] at hcall
      simp only [if_false, lt_self_iff_false] at hcall
      split at hcall <;> cases hcall <;> rfl

/-- The record `abyssfs_create` is about to write: the block it goes to and its name. -/
def CreatesAt (s : Abyssfs) (cwd : Option Str) (path : Str) (b : Nat) (filename : Str) : Prop :=
  (allocInode s).1 ≠ 0 ∧ ∃ p,
    createParent (allocInode s).2.mem cwd (skipSlash path) = some (some (p, filename)) ∧
    directoryBlock (allocInode s).2.mem p = some b

/-- `abyssfs_create` keeps the names of every directory distinct exactly when its own is new. -/
theorem Listed.create_iff (h : Listed NamesApart s) (howned : Owned es s) {heapPos heapPos' : Nat}
    {cwd : Option Str} {path : Str} {file : Option VfsFile} (hnul : 0 ∉ path)
    (hroom : ∀ p filename b,
      createParent (allocInode s).2.mem cwd (skipSlash path) = some (some (p, filename)) →
      directoryBlock (allocInode s).2.mem p = some b → AppendRoom (allocInode s).2.mem b filename)
    (hcall : abyssfsCreate heapPos s cwd path = some (file, heapPos', s')) :
    Listed NamesApart s' ↔ ∀ b filename, CreatesAt s cwd path b filename →
      DirectoryBlock (allocInode s).2.mem b → NameAbsent (allocInode s).2.mem b filename := by
  rcases allocInode_cases s with ⟨halloc, -⟩ | ⟨i, hi1, hi, hfree, halloc⟩
  · have hsame : s' = s := by
      simp only [abyssfsCreate, halloc, Option.some.injEq, Prod.mk.injEq] at hcall
      exact hcall.2.2.symm
    rw [hsame]
    refine iff_of_true h ?_
    rintro b filename ⟨hne, -⟩
    rw [halloc] at hne
    exact absurd rfl hne
  have hfresh := h.alloc howned hi
  obtain ⟨-, -, hownedFresh⟩ := howned.alloc hi1 hi hfree
  rw [halloc] at hroom
  constructor
  · rintro hafter b filename ⟨-, p, hparent, hdir⟩
    rw [halloc] at hparent hdir ⊢
    obtain ⟨hp, hname⟩ := createParent_addr hparent
    obtain ⟨e, m', happend, rfl⟩ := abyssfsCreate_appended halloc hi1 hparent hdir hcall
    exact (hfresh.append_iff (hownedFresh.directoryBlock_ge hp hdir) (hroom p filename b hparent hdir)
      (by omega) (hname (skipSlash_nul_free hnul)) happend).mp hafter
  · intro habsent
    apply h.create howned hnul _ hcall
    intro p filename b hparent hdir
    have hat : CreatesAt s cwd path b filename := by
      rw [halloc] at hparent hdir
      rw [CreatesAt, halloc]
      exact ⟨Nat.ne_of_gt hi1, p, hparent, hdir⟩
    have hname := (createParent_addr hparent).2 (skipSlash_nul_free hnul)
    rw [halloc] at hparent hdir habsent ⊢
    exact ⟨hroom p filename b hparent hdir,
      fun hblock => extends_of_absent hname (habsent b filename hat hblock)⟩

theorem mkdirTarget_result {path base : Str} {m : Memory} {result : Int}
    (htarget : mkdirTarget s path = some (some (m, b, base)))
    (hcall : abyssfsMkdir s path = some (result, s')) : result = 0 := by
  rcases abyssfsMkdir_target s path with ⟨hnone, -⟩ | ⟨hnone, -⟩ | ⟨m₁, b₁, base₁, -, -, -, hmade⟩
  · rw [hnone] at htarget
    cases htarget
  · rw [hnone] at htarget
    cases htarget
  · rw [hmade, Option.map_eq_some_iff] at hcall
    obtain ⟨entry, -, hresult⟩ := hcall
    exact (congrArg Prod.fst hresult).symm

theorem mkdirTarget_nul_free {path base : Str} {m : Memory}
    (htarget : mkdirTarget s path = some (some (m, b, base))) (hnul : 0 ∉ path) : 0 ∉ base := by
  rw [mkdirTarget] at htarget
  split at htarget
  · cases htarget
  · cases htarget
  · rename_i p num base₁ hparent
    split_ifs at htarget
    · cases htarget
    · rw [Option.some.injEq, Option.map_eq_some_iff] at htarget
      obtain ⟨pb, -, heq⟩ := htarget
      cases heq
      exact (mkdirParent_addr hparent).2 hnul

/-- `abyssfs_mkdir` keeps the names of every directory distinct exactly when its own is new. -/
theorem Listed.mkdir_iff (h : Listed NamesApart s) (howned : Owned es s) {path : Str} {result : Int}
    (hnul : 0 ∉ path) (hclean : CleanBlock s)
    (hroom : ∀ m b base, mkdirTarget s path = some (some (m, b, base)) → AppendRoom m b base)
    (hcall : abyssfsMkdir s path = some (result, s')) :
    Listed NamesApart s' ↔ ∀ m b base, mkdirTarget s path = some (some (m, b, base)) →
      DirectoryBlock m b → NameAbsent m b base := by
  constructor
  · intro hafter m b base htarget
    obtain rfl := mkdirTarget_result htarget hcall
    rcases abyssfsMkdir_cases hcall with ⟨-, hfails, -⟩ | ⟨p, num, base', hparent, hrest⟩
    · cases hfails
    rcases hrest with ⟨-, hfails, -⟩ | ⟨i, hi1, hi, hfree, -, hrest⟩
    · cases hfails
    rcases hrest with ⟨hfails, -⟩ | ⟨c, hc9, hc64, hunused, hc, hrest⟩
    · cases hfails
    rcases hrest with ⟨-, hfails, -⟩ | ⟨pb, e, m', hdir, htarget', happend, -, rfl⟩
    · cases hfails
    rw [htarget'] at htarget
    cases htarget
    have hprep := h.prepare howned allowsEdits_namesApart hi1 hi (mkdirParent_num hparent) hc9 hc64
      hunused (hclean.zero hc hc9)
    have hownedPrep := howned.prepare num hi1 hi hfree hc9 hc64 hunused
    exact (hprep.append_iff (hownedPrep.directoryBlock_ge (mkdirParent_addr hparent).1 hdir)
      (hroom _ _ _ htarget') (by omega) ((mkdirParent_addr hparent).2 hnul) happend).mp hafter
  · intro habsent
    apply h.mkdir howned allowsEdits_namesApart hnul hclean _ hcall
    intro m b base htarget
    exact ⟨hroom m b base htarget, fun hblock =>
      extends_of_absent (mkdirTarget_nul_free htarget hnul) (habsent m b base htarget hblock)⟩

end Records

/-! The calls of `vfs.c`. -/

/-- A call on files, or what the processes do between two of them. -/
inductive FileEvent where
  | create (path : CString)
  | mkdir (path : CString)
  | unlink (path : CString)
  | write (fd : Int) (buf : Str)
  | elsewhere (heapPos : Nat) (procs : ProcessPtr → Process) (current : Option ProcessPtr)

def fileStep (k : Kernel) : FileEvent → Option (Int × Kernel)
  | .create path => vfsCreate k path.chars
  | .mkdir path => vfsMkdir k path.chars
  | .unlink path => vfsUnlink k path.chars
  | .write fd buf => vfsWrite k fd buf
  | .elsewhere heapPos procs current =>
      some (0, { k with heapPos := heapPos, procs := procs, current := current })

def FsCreateContained (k : Kernel) (full : Str) : FileOps → Prop
  | .ramfs => True
  | .abyssfs => ∀ p filename b,
      createParent (allocInode k.abyss).2.mem (k.currentProcess.map Process.cwd) (skipSlash full) =
        some (some (p, filename)) →
      directoryBlock (allocInode k.abyss).2.mem p = some b →
      AppendRoom (allocInode k.abyss).2.mem b filename

def FsMkdirContained (k : Kernel) (full : Str) : FileOps → Prop
  | .ramfs => full.length < slotPath
  | .abyssfs => CleanBlock k.abyss ∧
      ∀ m b base, mkdirTarget k.abyss full = some (some (m, b, base)) → AppendRoom m b base

/-- The calls that keep what is on the volumes intact: a record leaves six bytes to spare, a new
directory gets a clean block, a path fits its slot, the dots of the root are not unlinked, and no
handle is written through that is on an unlinked file. -/
def FileEvent.Contained (k : Kernel) : FileEvent → Prop
  | .create path =>
      match createRoute k path.chars with
      | some (some fs, full) => FsCreateContained k full fs
      | _ => True
  | .mkdir path =>
      match mkdirRoute k path.chars with
      | some (some fs, full) => FsMkdirContained k full fs
      | _ => True
  | .unlink path =>
      match unlinkRoute k path.chars with
      | some (some .abyssfs, text) => skipSlash text ≠ ascii "." ∧ skipSlash text ≠ ascii ".."
      | _ => True
  | .write fd _ =>
      ∀ file, getFile k fd = some file → file.fOps = .abyssfs → WritesFile k.abyss file.privateData
  | .elsewhere _ procs _ => ∀ p, 0 ∉ (procs p).cwd

def FsCreateNew (k : Kernel) (full : Str) : FileOps → Prop
  | .ramfs => ramfsFree k.ramfs = none ∨ HeapFull k.heapPos ∨
      ramfsFind k.ramfs (ramfsFullPath full) = none
  | .abyssfs => ∀ b filename, CreatesAt k.abyss (k.currentProcess.map Process.cwd) full b filename →
      DirectoryBlock (allocInode k.abyss).2.mem b →
      NameAbsent (allocInode k.abyss).2.mem b filename

def FsMkdirNew (k : Kernel) (full : Str) : FileOps → Prop
  | .ramfs => ramfsFree k.ramfs = none ∨ ramfsFind k.ramfs full = none
  | .abyssfs => ∀ m b base, mkdirTarget k.abyss full = some (some (m, b, base)) →
      DirectoryBlock m b → NameAbsent m b base

/-- Nothing has the name yet that the call is about to add. -/
def FileEvent.NewName (k : Kernel) : FileEvent → Prop
  | .create path =>
      match createRoute k path.chars with
      | some (some fs, full) => FsCreateNew k full fs
      | _ => True
  | .mkdir path =>
      match mkdirRoute k path.chars with
      | some (some fs, full) => FsMkdirNew k full fs
      | _ => True
  | _ => True

/-- Along a run: every block has one owner, no path of RAMFS runs into contents, no handle is on the
root, and the texts of processes end. -/
structure FilesInv (k : Kernel) : Prop where
  owned : ∃ es, Owned es k.abyss
  slots : NamedSlots k.ramfs
  handles : ∀ fd file, k.fdTable fd = some file → file.fOps = .abyssfs →
    2 ≤ file.privateData ∧ file.privateData < 512
  directories : ∀ p, 0 ∉ (k.procs p).cwd

section Calls

variable {k k' : Kernel} {full : Str} {result : Int}

theorem fullPath_nul_free {path : Str} (hdirs : ∀ p, 0 ∉ (k.procs p).cwd) (hnul : 0 ∉ path)
    (h : fullPath k path = some full) : 0 ∉ full := by
  rw [fullPath] at h
  split_ifs at h
  · cases h
    exact hnul
  · cases hcur : k.current with
    | none =>
        simp only [Kernel.currentProcess, hcur, Option.map_none] at h
        cases h
    | some p =>
        have hcwd := hdirs p
        simp only [Kernel.currentProcess, hcur, Option.map_some] at h
        split_ifs at h
        · cases h
          rw [List.mem_append, not_or]
          exact ⟨hcwd, hnul⟩
        · cases h
          rw [List.mem_append, List.mem_append, List.mem_singleton, not_or, not_or]
          exact ⟨⟨hcwd, by decide⟩, hnul⟩

/-- A call on one volume leaves the names of the other alone. -/
theorem UniqueNames.abyss_iff (h : UniqueNames k) (hramfs : k'.ramfs = k.ramfs) {p : Prop}
    (hiff : Listed NamesApart k'.abyss ↔ p) : UniqueNames k' ↔ p :=
  ⟨fun h' => hiff.mp h'.directories, fun hp => ⟨hiff.mpr hp, hramfs ▸ h.slots⟩⟩

theorem UniqueNames.ramfs_iff (h : UniqueNames k) (habyss : k'.abyss = k.abyss) {p : Prop}
    (hiff : UniqueSlots k'.ramfs ↔ p) : UniqueNames k' ↔ p :=
  ⟨fun h' => hiff.mp h'.slots, fun hp => ⟨habyss ▸ h.directories, hiff.mpr hp⟩⟩

theorem ramfsFullPath_nul_free (hnul : 0 ∉ full) : 0 ∉ ramfsFullPath full := by
  rw [ramfsFullPath]
  split_ifs
  · exact hnul
  · rw [List.mem_append, not_or]
    exact ⟨by decide, hnul⟩

/-- The slots after a create, and when their paths are still apart. -/
theorem ramfsCreate_names {fs fs' : Ramfs} {heapPos heapPos' : Nat} {file : Option VfsFile}
    (hslots : NamedSlots fs) (hunique : UniqueSlots fs) (hnul : 0 ∉ full)
    (hcall : ramfsCreate heapPos fs full = some (file, heapPos', fs')) :
    NamedSlots fs' ∧ (UniqueSlots fs' ↔ ramfsFree fs = none ∨ HeapFull heapPos ∨
      ramfsFind fs (ramfsFullPath full) = none) := by
  have hfull := ramfsFullPath_nul_free hnul
  have hrefused := ramfsCreate_none_iff hcall
  cases file with
  | none =>
      have hnew : ramfsFree fs = none ∨ HeapFull heapPos ∨ ramfsFind fs (ramfsFullPath full) = none :=
        (hrefused.mp rfl).imp id Or.inl
      rcases ramfsCreate_none hcall with ⟨-, rfl⟩ | ⟨i, -, -, -, rfl⟩
      · exact ⟨hslots, iff_of_true hunique hnew⟩
      · constructor
        · apply hslots.update
          intro hused
          cases hused
        · refine iff_of_true (hunique.mono ?_) hnew
          intro j hj path hstores
          by_cases hji : j = i
          · rw [hji, Function.update_self] at hstores
            cases hstores.1
          · rwa [Function.update_of_ne hji] at hstores
  | some file =>
      obtain ⟨i, hfree, -, hlen, rfl⟩ := ramfsCreate_some hcall
      have hnamed := newSlot_named (fs i) true hlen hfull
      refine ⟨hslots.update fun _ => ⟨_, hnamed⟩, (hunique.take_iff hfree hnamed rfl).trans ?_⟩
      rw [← or_assoc, ← hrefused]
      simp

theorem ramfsMkdir_names {fs fs' : Ramfs} (hslots : NamedSlots fs) (hunique : UniqueSlots fs)
    (hnul : 0 ∉ full) (hlen : full.length < slotPath) (hcall : ramfsMkdir fs full = (result, fs')) :
    NamedSlots fs' ∧ (UniqueSlots fs' ↔ ramfsFree fs = none ∨ ramfsFind fs full = none) := by
  rw [ramfsMkdir] at hcall
  cases hfree : ramfsFree fs with
  | none =>
      simp only [hfree] at hcall
      cases hcall
      exact ⟨hslots, iff_of_true hunique (.inl rfl)⟩
  | some i =>
      simp only [hfree] at hcall
      cases hcall
      have hnamed : RamfsFile.Named ⟨store (fs i).bytes 0 (full ++ [0]), 0, true⟩ full :=
        named_of_store hlen hnul fun _ _ => rfl
      refine ⟨hslots.update fun _ => ⟨_, hnamed⟩, (hunique.take_iff hfree hnamed rfl).trans ?_⟩
      simp

theorem ramfsUnlink_names {fs fs' : Ramfs} {path : Str} (hslots : NamedSlots fs)
    (hunique : UniqueSlots fs) (hcall : ramfsUnlink fs path = (result, fs')) :
    NamedSlots fs' ∧ UniqueSlots fs' := by
  rw [ramfsUnlink] at hcall
  cases hfind : ramfsFind fs path with
  | none =>
      simp only [hfind] at hcall
      cases hcall
      exact ⟨hslots, hunique⟩
  | some i =>
      simp only [hfind] at hcall
      cases hcall
      constructor
      · apply hslots.update
        intro hused
        cases hused
      · apply hunique.mono
        intro j hj path hstores
        by_cases hji : j = i
        · rw [hji, Function.update_self] at hstores
          cases hstores.1
        · rwa [Function.update_of_ne hji] at hstores

theorem ramfsWrite_names {fs fs' : Ramfs} {file file' : VfsFile} {buf : Str} {count : Nat}
    (hslots : NamedSlots fs) (hunique : UniqueSlots fs)
    (hcall : ramfsWrite fs file buf = some (count, file', fs')) :
    NamedSlots fs' ∧ UniqueSlots fs' := by
  have hpath := ramfsWrite_path hcall
  constructor
  · intro i hi hused
    rw [(hpath i).1] at hused
    obtain ⟨path, hnamed⟩ := hslots i hi hused
    exact ⟨path, hnamed.congr (hpath i).2⟩
  · apply hunique.mono
    rintro i hi path ⟨hused, hstores⟩
    rw [(hpath i).1] at hused
    obtain ⟨full, hnamed⟩ := hslots i hi hused
    rw [(hnamed.congr (hpath i).2).strEq_iff path.nul_free] at hstores
    exact ⟨hused, (hnamed.strEq_iff path.nul_free).mpr hstores⟩

theorem ramfsWrite_fOps {fs fs' : Ramfs} {file file' : VfsFile} {buf : Str} {count : Nat}
    (hcall : ramfsWrite fs file buf = some (count, file', fs')) : file'.fOps = file.fOps := by
  rw [ramfsWrite] at hcall
  dsimp only at hcall
  split_ifs at hcall <;> cases hcall <;> rfl

/-! One call. -/

/-- What a creating call of a file system leaves. -/
theorem FilesInv.fsCreate (h : FilesInv k) (hunique : UniqueNames k) {fs : FileOps}
    {file : Option VfsFile} (hnul : 0 ∉ full) (hcontained : FsCreateContained k full fs)
    (hcall : fsCreate k full fs = some (file, k')) :
    FilesInv k' ∧ (∀ f, file = some f → f.fOps = .abyssfs →
      2 ≤ f.privateData ∧ f.privateData < 512) ∧ (UniqueNames k' ↔ FsCreateNew k full fs) := by
  cases fs with
  | ramfs =>
      simp only [Chthon.fsCreate, Option.map_eq_some_iff] at hcall
      obtain ⟨⟨created, heapPos, slots⟩, hcreate, heq⟩ := hcall
      cases heq
      obtain ⟨hslots, hiff⟩ := ramfsCreate_names h.slots hunique.slots hnul hcreate
      refine ⟨⟨h.owned, hslots, h.handles, h.directories⟩, ?_, ?_⟩
      · rintro f rfl hops
        obtain ⟨i, -, rfl, -⟩ := ramfsCreate_some hcreate
        cases hops
      · apply hunique.ramfs_iff
        · rfl
        · exact hiff
  | abyssfs =>
      obtain ⟨es, howned⟩ := h.owned
      simp only [Chthon.fsCreate, Option.map_eq_some_iff] at hcall
      obtain ⟨⟨created, heapPos, volume⟩, hcreate, heq⟩ := hcall
      cases heq
      obtain ⟨howned', hfile⟩ := howned.create hnul hcontained hcreate
      refine ⟨⟨howned', h.slots, h.handles, h.directories⟩, fun f hf _ => hfile f hf, ?_⟩
      apply hunique.abyss_iff
      · rfl
      · exact hunique.directories.create_iff howned hnul hcontained hcreate

theorem FilesInv.fsMkdir (h : FilesInv k) (hunique : UniqueNames k) {fs : FileOps}
    (hnul : 0 ∉ full) (hcontained : FsMkdirContained k full fs)
    (hcall : fsMkdir k full fs = some (result, k')) :
    FilesInv k' ∧ (UniqueNames k' ↔ FsMkdirNew k full fs) := by
  cases fs with
  | ramfs =>
      simp only [Chthon.fsMkdir] at hcall
      cases hcall
      obtain ⟨hslots, hiff⟩ := ramfsMkdir_names h.slots hunique.slots hnul hcontained rfl
      refine ⟨⟨h.owned, hslots, h.handles, h.directories⟩, ?_⟩
      apply hunique.ramfs_iff
      · rfl
      · exact hiff
  | abyssfs =>
      obtain ⟨es, howned⟩ := h.owned
      simp only [Chthon.fsMkdir, Option.map_eq_some_iff] at hcall
      obtain ⟨⟨made, volume⟩, hmkdir, heq⟩ := hcall
      cases heq
      refine ⟨⟨howned.mkdir hnul hcontained.2 hmkdir, h.slots, h.handles, h.directories⟩, ?_⟩
      apply hunique.abyss_iff
      · rfl
      · exact hunique.directories.mkdir_iff howned hnul hcontained.1 hcontained.2 hmkdir

theorem FilesInv.create (h : FilesInv k) (hunique : UniqueNames k) {path : CString}
    (hcontained : (FileEvent.create path).Contained k)
    (hcall : vfsCreate k path.chars = some (result, k')) :
    FilesInv k' ∧ (UniqueNames k' ↔ (FileEvent.create path).NewName k) := by
  unfold FileEvent.Contained at hcontained
  unfold FileEvent.NewName
  rw [vfsCreate] at hcall
  cases hroute : createRoute k path.chars with
  | none =>
      rw [hroute] at hcall
      cases hcall
  | some route =>
      obtain ⟨fs, full⟩ := route
      rw [hroute] at hcall
      simp only [hroute] at hcontained ⊢
      cases fs with
      | none =>
          cases hcall
          exact ⟨h, iff_of_true hunique trivial⟩
      | some fs =>
          have hnul : 0 ∉ full := by
            rw [createRoute, Option.map_eq_some_iff] at hroute
            obtain ⟨full', hfull, heq⟩ := hroute
            have hsame : full' = full := congrArg Prod.snd heq
            rw [hsame] at hfull
            exact fullPath_nul_free h.directories path.nul_free hfull
          dsimp only at hcall
          split at hcall
          · cases hcall
          · rename_i k₁ hcreate
            cases hcall
            obtain ⟨hinv, -, hiff⟩ := h.fsCreate hunique hnul hcontained hcreate
            exact ⟨hinv, hiff⟩
          · rename_i file k₁ hcreate
            obtain ⟨hinv, hfile, hiff⟩ := h.fsCreate hunique hnul hcontained hcreate
            rcases allocFd_cases k₁ file with ⟨-, halloc⟩ | ⟨-, halloc⟩
            · rw [halloc] at hcall
              cases hcall
              exact ⟨hinv, hiff⟩
            · rw [halloc] at hcall
              cases hcall
              refine ⟨⟨hinv.owned, hinv.slots, ?_, hinv.directories⟩, Iff.trans ?_ hiff⟩
              · intro fd f hf hops
                change Function.update k₁.fdTable k₁.nextFd (some file) fd = some f at hf
                by_cases hfd : fd = k₁.nextFd
                · rw [hfd, Function.update_self] at hf
                  exact hfile f hf hops
                · rw [Function.update_of_ne hfd] at hf
                  exact hinv.handles fd f hf hops
              · exact ⟨fun hu => ⟨hu.directories, hu.slots⟩, fun hu => ⟨hu.directories, hu.slots⟩⟩

theorem FilesInv.mkdir (h : FilesInv k) (hunique : UniqueNames k) {path : CString}
    (hcontained : (FileEvent.mkdir path).Contained k)
    (hcall : vfsMkdir k path.chars = some (result, k')) :
    FilesInv k' ∧ (UniqueNames k' ↔ (FileEvent.mkdir path).NewName k) := by
  unfold FileEvent.Contained at hcontained
  unfold FileEvent.NewName
  rw [vfsMkdir] at hcall
  cases hroute : mkdirRoute k path.chars with
  | none =>
      rw [hroute] at hcall
      cases hcall
  | some route =>
      obtain ⟨fs, full⟩ := route
      rw [hroute] at hcall
      simp only [hroute] at hcontained ⊢
      cases fs with
      | none =>
          cases hcall
          exact ⟨h, iff_of_true hunique trivial⟩
      | some fs =>
          rw [mkdirRoute, Option.map_eq_some_iff] at hroute
          obtain ⟨full', hfull, heq⟩ := hroute
          have hsame : full' = full := congrArg Prod.snd heq
          rw [hsame] at hfull
          have hnul := fullPath_nul_free h.directories path.nul_free hfull
          exact h.fsMkdir hunique hnul hcontained hcall

theorem FilesInv.unlink (h : FilesInv k) (hunique : UniqueNames k) {path : CString}
    (hcontained : (FileEvent.unlink path).Contained k)
    (hcall : vfsUnlink k path.chars = some (result, k')) : FilesInv k' ∧ UniqueNames k' := by
  unfold FileEvent.Contained at hcontained
  rw [vfsUnlink] at hcall
  cases hfull : fullPath k path.chars with
  | none =>
      simp only [unlinkRoute, hfull, Option.map_none] at hcall
      cases hcall
  | some full =>
      simp only [unlinkRoute, hfull, Option.map_some] at hcall hcontained
      cases hmount : findMount full with
      | none =>
          simp only [hmount] at hcall
          cases hcall
          exact ⟨h, hunique⟩
      | some fs =>
          simp only [hmount] at hcall hcontained
          cases fs with
          | ramfs =>
              simp only [Chthon.fsUnlink] at hcall
              cases hcall
              obtain ⟨hslots, hapart⟩ := ramfsUnlink_names h.slots hunique.slots rfl
              exact ⟨⟨h.owned, hslots, h.handles, h.directories⟩, hunique.directories, hapart⟩
          | abyssfs =>
              obtain ⟨es, howned⟩ := h.owned
              obtain ⟨hdot, hdotdot⟩ := hcontained
              simp only [Chthon.fsUnlink, Option.map_eq_some_iff] at hcall
              obtain ⟨⟨unlinked, volume⟩, hunlink, heq⟩ := hcall
              cases heq
              have hlisted := hunique.directories.unlink howned allowsEdits_namesApart
                path.nul_free hdot hdotdot hunlink
              refine ⟨⟨?_, h.slots, h.handles, h.directories⟩, hlisted, hunique.slots⟩
              rcases howned.unlink path.nul_free hdot hdotdot with ⟨-, hsame, -⟩ |
                ⟨pre, r, post, s', -, -, -, hsome, -, howned', -⟩
              · rw [hsame] at hunlink
                cases hunlink
                exact ⟨es, howned⟩
              · rw [hsome] at hunlink
                cases hunlink
                exact ⟨_, howned'⟩

theorem FilesInv.write (h : FilesInv k) (hunique : UniqueNames k) {fd : Int} {buf : Str}
    (hcontained : (FileEvent.write fd buf).Contained k)
    (hcall : vfsWrite k fd buf = some (result, k')) : FilesInv k' ∧ UniqueNames k' := by
  rw [vfsWrite] at hcall
  cases hfile : getFile k fd with
  | none =>
      simp only [hfile] at hcall
      cases hcall
      exact ⟨h, hunique⟩
  | some file =>
      simp only [hfile] at hcall
      cases hops : file.fOps with
      | ramfs =>
          simp only [hops, Option.map_eq_some_iff] at hcall
          obtain ⟨⟨count, file', slots⟩, hwrite, heq⟩ := hcall
          cases heq
          obtain ⟨hslots, hapart⟩ := ramfsWrite_names h.slots hunique.slots hwrite
          refine ⟨⟨h.owned, hslots, ?_, h.directories⟩, hunique.directories, hapart⟩
          intro n f hf habyss
          change Function.update k.fdTable fd.toNat (some file') n = some f at hf
          by_cases hn : n = fd.toNat
          · rw [hn, Function.update_self, Option.some.injEq] at hf
            rw [← hf, ramfsWrite_fOps hwrite, hops] at habyss
            cases habyss
          · rw [Function.update_of_ne hn] at hf
            exact h.handles n f hf habyss
      | abyssfs =>
          obtain ⟨es, howned⟩ := h.owned
          simp only [hops] at hcall
          cases hcall
          have hbound : k.fdTable fd.toNat = some file := by
            rw [getFile] at hfile
            split_ifs at hfile
            exact hfile
          obtain ⟨hlo, hhi⟩ := h.handles _ _ hbound hops
          have howned' := howned.write buf rfl hhi (by omega : file.privateData ≠ 1)
          exact ⟨⟨⟨es, howned'⟩, h.slots, h.handles, h.directories⟩,
            hunique.directories.write howned buf rfl hhi (hcontained file hfile hops), hunique.slots⟩

/-- One call keeps the volumes intact, and the names distinct exactly when it adds a new one. -/
theorem FilesInv.step (h : FilesInv k) (hunique : UniqueNames k) {e : FileEvent}
    (hcontained : e.Contained k) (hcall : fileStep k e = some (result, k')) :
    FilesInv k' ∧ (UniqueNames k' ↔ e.NewName k) := by
  cases e with
  | create path => exact h.create hunique hcontained hcall
  | mkdir path => exact h.mkdir hunique hcontained hcall
  | unlink path =>
      obtain ⟨hinv, hapart⟩ := h.unlink hunique hcontained hcall
      exact ⟨hinv, iff_of_true hapart trivial⟩
  | write fd buf =>
      obtain ⟨hinv, hapart⟩ := h.write hunique hcontained hcall
      exact ⟨hinv, iff_of_true hapart trivial⟩
  | elsewhere heapPos procs current =>
      cases hcall
      exact ⟨⟨h.owned, h.slots, h.handles, hcontained⟩,
        iff_of_true ⟨hunique.directories, hunique.slots⟩ trivial⟩

theorem UniqueNames.findsEach (h : UniqueNames k) : FindsEach k where
  records n hn hdir rs hrs r hr := by
    obtain ⟨-, rs', hrs', hapart⟩ := h.directories n hn hdir
    rw [hrs'.pairs_unique hrs] at hapart
    exact hapart.finds hrs hr
  slots i hi path hstores := h.slots.find hi path.nul_free hstores

end Calls

/-- A kernel that has just initialised its two volumes and opened nothing. -/
structure FreshFiles (k : Kernel) : Prop where
  abyss : ∃ s₀, k.abyss = (bootVolume s₀).fs
  ramfs : k.ramfs = ramfsInit
  fdTable : ∀ fd, k.fdTable fd = none
  directories : ∀ p, 0 ∉ (k.procs p).cwd

theorem FreshFiles.start {k : Kernel} (h : FreshFiles k) : FilesInv k ∧ UniqueNames k := by
  obtain ⟨s₀, habyss⟩ := h.abyss
  refine ⟨⟨⟨[], habyss ▸ boot_owned s₀⟩, ?_, ?_, h.directories⟩, ?_, ?_⟩
  · intro i hi hused
    rw [h.ramfs] at hused
    cases hused
  · intro fd file hfile
    rw [h.fdTable] at hfile
    cases hfile
  · rw [habyss]
    exact boot_listed allowsEdits_namesApart s₀
  · intro i hi j hj path hstores
    rw [h.ramfs] at hstores
    cases hstores.1

/-- In every state of every run whose calls add new names only, the names of each directory and the
paths of the slots are distinct and searches find them; and a further call keeps them distinct if
and only if it adds a new name. -/
theorem names_unique_iff (k₀ : Kernel) (hfresh : FreshFiles k₀) (trace : List (FileEvent × Int))
    (k : Kernel) (hrun : Steps fileStep (fun k e => e.Contained k ∧ e.NewName k) k₀ trace k) :
    UniqueNames k ∧ FindsEach k ∧ ∀ e r k', e.Contained k → fileStep k e = some (r, k') →
      (UniqueNames k' ↔ e.NewName k) := by
  have hinv : FilesInv k ∧ UniqueNames k := by
    apply hrun.preserves hfresh.start
    rintro t e r u ⟨hinv, hunique⟩ ⟨hcontained, hnew⟩ hcall
    obtain ⟨hinv', hiff⟩ := hinv.step hunique hcontained hcall
    exact ⟨hinv', hiff.mpr hnew⟩
  obtain ⟨hinv, hunique⟩ := hinv
  exact ⟨hunique, hunique.findsEach, fun e r k' hcontained hcall =>
    (hinv.step hunique hcontained hcall).2⟩

/-! Runs of a shell. -/

def makeD : FileEvent := .mkdir ⟨ascii "/d", by decide⟩
def makeTmpA : FileEvent := .create tmpA

/-- The shell has made the directory `/d`. -/
def directoryMade : Kernel := next fileStep (shellKernel fun _ => 0) makeD

theorem shell_fresh : FreshFiles (shellKernel fun _ => 0) where
  abyss := ⟨blankFs, rfl⟩
  ramfs := rfl
  fdTable _ := rfl
  directories _ := by
    change 0 ∉ ascii "/"
    decide

theorem directoryMade_run : Steps fileStep (fun k e => e.Contained k ∧ e.NewName k)
    (shellKernel fun _ => 0) ([] ++ [(makeD, 0)]) directoryMade := by
  have htarget : ∀ m b base, mkdirTarget (shellKernel fun _ => 0).abyss (ascii "/d") =
      some (some (m, b, base)) →
      m = preparedDir (shellKernel fun _ => 0).abyss.mem 2 10 1 ∧ b = 9 ∧ base = ascii "d" := by
    intro m b base h
    exact mkdirTarget_unique (p := 4160) h (by decide +kernel) (by decide +kernel)
      (by decide +kernel) (by decide +kernel)
  apply Steps.nil.extend
  · constructor
    · refine ⟨.inr (by decide +kernel), ?_⟩
      intro m b base h
      obtain ⟨rfl, rfl, rfl⟩ := htarget m b base h
      refine ⟨by decide, ?_⟩
      intro e hend
      have hposition : appendPosition (preparedDir (shellKernel fun _ => 0).abyss.mem 2 10 1) 9 =
          some 36884 := by decide +kernel
      rw [hposition] at hend
      cases hend
      decide
    · intro m b base h _
      obtain ⟨rfl, rfl, rfl⟩ := htarget m b base h
      unfold NameAbsent
      decide +kernel
  · decide +kernel

theorem names_unique_until_repeated : UniqueNames directoryMade ∧
    ∃ k₁, fileStep directoryMade makeTmpA = some (0, k₁) ∧ UniqueNames k₁ := by
  obtain ⟨hunique, -, hnext⟩ := names_unique_iff _ shell_fresh _ _ directoryMade_run
  refine ⟨hunique, ?_⟩
  have hresult : (fileStep directoryMade makeTmpA).map Prod.fst = some 0 := by decide +kernel
  obtain ⟨⟨result, k₁⟩, hcall, rfl⟩ := Option.map_eq_some_iff.mp hresult
  refine ⟨k₁, hcall, (hnext makeTmpA _ k₁ ?_ hcall).mpr ?_⟩
  · trivial
  · exact .inr (.inr (by decide +kernel))

/-- The same file is created twice in the root, and twice in RAMFS. -/
def createTwice : List FileEvent :=
  [.create nameA, .create nameA, makeTmpA, makeTmpA]

def createdTwice : Kernel := createTwice.foldl (next fileStep) (shellKernel fun _ => 0)

theorem created_twice_repeats :
    (¬ ∀ trace k, Steps fileStep (fun _ _ => True) (shellKernel fun _ => 0) trace k →
      Listed NamesApart k.abyss) ∧
    ¬ ∀ trace k, Steps fileStep (fun _ _ => True) (shellKernel fun _ => 0) trace k →
      UniqueSlots k.ramfs := by
  have hrun := steps_of_replies fileStep (shellKernel fun _ => 0) createTwice [0, 1, 2, 3]
    (by decide +kernel) (admits_true _ _)
  constructor
  · intro h
    obtain ⟨-, rs, hrs, hapart⟩ := h _ createdTwice hrun 1 (by decide)
      (by unfold IsDirectory; decide +kernel)
    have hdecode := Listing.direntsFrom hrs 4
    have hroot : blocks createdTwice.abyss.mem (inodeAddr 1) = 9 := by decide +kernel
    rw [hroot] at hdecode
    have hnames : ((direntsFrom createdTwice.abyss.mem 4 (9 * 4096)).map fun pairs =>
        decide (pairs.map Prod.snd).Nodup) = some false := by decide +kernel
    rw [hdecode, Option.map_some, Option.some.injEq, decide_eq_false_iff_not, List.map_take] at hnames
    exact hnames (hapart.sublist (List.take_sublist _ _))
  · intro h
    have hfirst : (createdTwice.ramfs 0).Stores (ascii "/tmp/a") := ⟨rfl, by decide +kernel⟩
    have hsecond : (createdTwice.ramfs 1).Stores (ascii "/tmp/a") := ⟨rfl, by decide +kernel⟩
    have heq := h _ createdTwice hrun 0 (by decide) 1 (by decide) ⟨ascii "/tmp/a", by decide⟩ hfirst
      hsecond
    cases heq

end Chthon
