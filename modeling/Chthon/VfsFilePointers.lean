import Chthon.Lib.Run
import Chthon.AbyssInodes
import Chthon.MessageModel

/-! The descriptor table as the code keeps it: `fd_table` holds pointers, and the files they lead to
lie on the heap. The calls of `vfs.c` on descriptors are given once more over these pointers. No two
entries ever share a file, so the calls take the same steps as those of `VfsModel`, where an entry
holds its file itself. -/

namespace Chthon

open Run

inductive FdEvent where
  | openPath (path : Str)
  | createPath (path : Str)
  | close (fd : Int)
  | read (fd : Int) (count : Nat)
  | write (fd : Int) (buf : Str)
  | unlink (path : Str)

/-- The calls that return a new descriptor. -/
def FdEvent.Opens : FdEvent → Prop
  | .openPath _ | .createPath _ => True
  | _ => False

theorem FdEvent.Opens.not_close {e : FdEvent} (h : e.Opens) (fd : Int) : e ≠ .close fd := by
  rintro rfl
  exact h

/-- A read or a write on `fd`. -/
def FdEvent.Transfers (fd : Int) : FdEvent → Prop
  | .read fd' _ | .write fd' _ => fd' = fd
  | _ => False

theorem FdEvent.Transfers.unique {e : FdEvent} {fd fd' : Int} (h : e.Transfers fd)
    (h' : e.Transfers fd') : fd = fd' := by
  cases e with
  | read => exact h.symm.trans h'
  | write => exact h.symm.trans h'
  | _ => exact h.elim

theorem FdEvent.Transfers.not_opens {e : FdEvent} {fd : Int} (h : e.Transfers fd) : ¬e.Opens := by
  cases e with
  | openPath => exact h.elim
  | createPath => exact h.elim
  | _ => exact id

theorem FdEvent.Transfers.not_close {e : FdEvent} {fd : Int} (h : e.Transfers fd) (fd' : Int) :
    e ≠ .close fd' := by
  rintro rfl
  exact h

inductive FdReply where
  | opened (fd : Int)
  | bytes (bytes : Option Str)
  | result (result : Int)
  deriving DecidableEq

/-- One call, on the table with the files in it. -/
def fdStep (k : Kernel) : FdEvent → Option (FdReply × Kernel)
  | .openPath path => (vfsOpen k path).map fun (fd, k) => (.opened fd, k)
  | .createPath path => (vfsCreate k path).map fun (fd, k) => (.opened fd, k)
  | .close fd => some (.result (vfsClose k fd).1, (vfsClose k fd).2)
  | .read fd count => (vfsRead k fd count).map fun (bytes, k) => (.bytes bytes, k)
  | .write fd buf => (vfsWrite k fd buf).map fun (written, k) => (.result written, k)
  | .unlink path => (vfsUnlink k path).map fun (result, k) => (.result result, k)

/-- The kernel with its pointers. The table of `kernel` is not looked at. -/
structure Descriptors where
  kernel : Kernel
  fdTable : Nat → Option Nat
  files : Nat → VfsFile

namespace Descriptors

/-- Kernel `k` with the files that the pointers of `d` lead to. -/
def viewOf (d : Descriptors) (k : Kernel) : Kernel :=
  { k with fdTable := fun fd => (d.fdTable fd).map d.files }

def view (d : Descriptors) : Kernel := d.viewOf d.kernel

def allocFd (d : Descriptors) (file : Nat) : Int × Descriptors :=
  if d.kernel.nextFd ≥ maxFd then (-1, d)
  else
    (d.kernel.nextFd, { d with
      kernel := { d.kernel with nextFd := d.kernel.nextFd + 1 }
      fdTable := Function.update d.fdTable d.kernel.nextFd (some file) })

def getFile (d : Descriptors) (fd : Int) : Option Nat :=
  if fd < 0 ∨ fd ≥ maxFd then none else d.fdTable fd.toNat

/-- A file system has filled in a file and left kernel `k`. The file is the one thing it allocates,
so its address is where the heap ended before. -/
def handOut (d : Descriptors) (k : Kernel) (file : VfsFile) : Int × Descriptors :=
  allocFd { d with
    kernel := k
    files := Function.update d.files d.kernel.heapPos file } d.kernel.heapPos

def vfsOpen (d : Descriptors) (path : Str) : Option (Int × Descriptors) :=
  match openRoute d.kernel path with
  | none => none
  | some (none, _) => some (-1, d)
  | some (some fs, resolved) =>
      match fsOpen d.kernel resolved fs with
      | (none, k) => some (-1, { d with kernel := k })
      | (some file, k) => some (d.handOut k file)

def vfsCreate (d : Descriptors) (path : Str) : Option (Int × Descriptors) :=
  match createRoute d.kernel path with
  | none => none
  | some (none, _) => some (-1, d)
  | some (some fs, full) =>
      match fsCreate d.kernel full fs with
      | none => none
      | some (none, k) => some (-1, { d with kernel := k })
      | some (some file, k) => some (d.handOut k file)

def setFile (d : Descriptors) (addr : Nat) (file : VfsFile) : Descriptors :=
  { d with files := Function.update d.files addr file }

def vfsRead (d : Descriptors) (fd : Int) (count : Nat) : Option (Option Str × Descriptors) :=
  match d.getFile fd with
  | none => some (none, d)
  | some addr =>
      match (d.files addr).fOps with
      | .ramfs =>
          (ramfsRead d.kernel.ramfs (d.files addr) count).map fun (bytes, file) =>
            (some bytes, d.setFile addr file)
      | .abyssfs =>
          (abyssfsRead d.kernel.abyss (d.files addr) count).map fun (bytes, file) =>
            (bytes, d.setFile addr file)

def vfsWrite (d : Descriptors) (fd : Int) (buf : Str) : Option (Int × Descriptors) :=
  match d.getFile fd with
  | none => some (-1, d)
  | some addr =>
      match (d.files addr).fOps with
      | .ramfs =>
          (ramfsWrite d.kernel.ramfs (d.files addr) buf).map fun (written, file, fs) =>
            (written, { d.setFile addr file with kernel := { d.kernel with ramfs := fs } })
      | .abyssfs =>
          let (written, fs) := abyssfsWrite d.kernel.abyss (d.files addr) buf
          some (written, { d with kernel := { d.kernel with abyss := fs } })

/-- `kfree` does nothing. -/
def vfsClose (d : Descriptors) (fd : Int) : Int × Descriptors :=
  match d.getFile fd with
  | none => (-1, d)
  | some _ => (0, { d with fdTable := Function.update d.fdTable fd.toNat none })

def vfsUnlink (d : Descriptors) (path : Str) : Option (Int × Descriptors) :=
  (Chthon.vfsUnlink d.kernel path).map fun (result, k) => (result, { d with kernel := k })

def step (d : Descriptors) : FdEvent → Option (FdReply × Descriptors)
  | .openPath path => (d.vfsOpen path).map fun (fd, d) => (.opened fd, d)
  | .createPath path => (d.vfsCreate path).map fun (fd, d) => (.opened fd, d)
  | .close fd => some (.result (d.vfsClose fd).1, (d.vfsClose fd).2)
  | .read fd count => (d.vfsRead fd count).map fun (bytes, d) => (.bytes bytes, d)
  | .write fd buf => (d.vfsWrite fd buf).map fun (written, d) => (.result written, d)
  | .unlink path => (d.vfsUnlink path).map fun (result, d) => (.result result, d)

/-- `fd_table` and `next_fd` are zero at boot. -/
structure Empty (d : Descriptors) : Prop where
  fdTable : ∀ fd, d.fdTable fd = none
  nextFd : d.kernel.nextFd = 0

/-- Every pointer leads to memory that was allocated for it. -/
structure Own (d : Descriptors) : Prop where
  unused : ∀ fd, d.kernel.nextFd ≤ fd → d.fdTable fd = none
  inTable : d.kernel.nextFd ≤ maxFd
  allocated : ∀ fd addr, d.fdTable fd = some addr → addr < d.kernel.heapPos
  distinct : ∀ fd fd' addr, d.fdTable fd = some addr → d.fdTable fd' = some addr → fd = fd'

/-! What one call does to the table and the files. -/

/-- `idle` also covers the file that a full table does not take. -/
inductive FdEffect (d d' : Descriptors) : FdEvent → FdReply → Prop
  | idle {e : FdEvent} {r : FdReply} (fdTable : d'.fdTable = d.fdTable)
      (files : ∀ addr < d.kernel.heapPos, d'.files addr = d.files addr)
      (nextFd : d'.kernel.nextFd = d.kernel.nextFd) (heap : d.kernel.heapPos ≤ d'.kernel.heapPos)
      (refused : ∀ fd, r = .opened fd → fd = -1)
      (kept : ∀ fd, e = .close fd → r = .result (-1)) : FdEffect d d' e r
  | opened {e : FdEvent} (file : VfsFile) (room : d.kernel.nextFd < maxFd)
      (fdTable : d'.fdTable = Function.update d.fdTable d.kernel.nextFd (some d.kernel.heapPos))
      (files : d'.files = Function.update d.files d.kernel.heapPos file)
      (nextFd : d'.kernel.nextFd = d.kernel.nextFd + 1)
      (heap : d.kernel.heapPos < d'.kernel.heapPos) (call : e.Opens) :
      FdEffect d d' e (.opened d.kernel.nextFd)
  | moved {e : FdEvent} {r : FdReply} (fd addr : Nat) (file : VfsFile)
      (call : e.Transfers fd)
      (reply : ∀ fd, r ≠ .opened fd) (bound : d.fdTable fd = some addr)
      (fdTable : d'.fdTable = d.fdTable) (files : d'.files = Function.update d.files addr file)
      (nextFd : d'.kernel.nextFd = d.kernel.nextFd)
      (heap : d'.kernel.heapPos = d.kernel.heapPos) : FdEffect d d' e r
  | closed (fd addr : Nat) (bound : d.fdTable fd = some addr)
      (fdTable : d'.fdTable = Function.update d.fdTable fd none) (files : d'.files = d.files)
      (nextFd : d'.kernel.nextFd = d.kernel.nextFd)
      (heap : d'.kernel.heapPos = d.kernel.heapPos) : FdEffect d d' (.close fd) (.result 0)

/-- What a file system answers to an open or a create: nothing, or a file in new memory. -/
inductive Handed (heapPos : Nat) : Option VfsFile → Nat → Prop
  | refused : Handed heapPos none heapPos
  | filled (file : VfsFile) : Handed heapPos (some file) (heapPos + vfsFileSize)

theorem Handed.none_eq {heapPos heapPos' : Nat} (h : Handed heapPos none heapPos') :
    heapPos' = heapPos := by
  cases h
  rfl

theorem Handed.some_lt {heapPos heapPos' : Nat} {file : VfsFile}
    (h : Handed heapPos (some file) heapPos') : heapPos < heapPos' := by
  cases h
  exact Nat.lt_add_of_pos_right (by decide)

theorem handed_fsOpen (k : Kernel) (path : Str) (fs : FileOps) :
    Handed k.heapPos (fsOpen k path fs).1 (fsOpen k path fs).2.heapPos := by
  obtain hheap | hheap := kalloc_cases k.heapPos vfsFileSize
  · cases fs with
    | ramfs =>
        simp only [fsOpen, ramfsOpen, hheap]
        cases ramfsFind k.ramfs path <;> exact .refused
    | abyssfs =>
        simp only [fsOpen, abyssfsOpen, hheap]
        exact .refused
  · cases fs with
    | ramfs =>
        simp only [fsOpen, ramfsOpen, hheap]
        cases ramfsFind k.ramfs path with
        | none => exact .refused
        | some i => exact .filled _
    | abyssfs =>
        simp only [fsOpen, abyssfsOpen, hheap]
        exact .filled _

theorem fsOpen_nextFd (k : Kernel) (path : Str) (fs : FileOps) :
    (fsOpen k path fs).2.nextFd = k.nextFd := by
  cases fs <;> rfl

theorem handed_ramfsCreate {heapPos heapPos' : Nat} {fs fs' : Ramfs} {path : Str}
    {file : Option VfsFile} (h : ramfsCreate heapPos fs path = some (file, heapPos', fs')) :
    Handed heapPos file heapPos' := by
  unfold ramfsCreate at h
  dsimp only at h
  split_ifs at h
  cases hfree : ramfsFree fs with
  | none =>
      simp only [hfree] at h
      cases h
      exact .refused
  | some i =>
      obtain hheap | hheap := kalloc_cases heapPos vfsFileSize
      all_goals
        simp only [hfree, hheap] at h
        cases h
      · exact .refused
      · exact .filled _

theorem handed_abyssfsCreate {heapPos heapPos' : Nat} {s s' : Abyssfs} {cwd : Option Str}
    {path : Str} {file : Option VfsFile}
    (h : abyssfsCreate heapPos s cwd path = some (file, heapPos', s')) :
    Handed heapPos file heapPos' := by
  unfold abyssfsCreate at h
  split at h
  · cases h
    exact .refused
  · split at h
    · cases h
    · split_ifs at h
      · cases h
        exact .refused
      · obtain hheap | hheap := kalloc_cases heapPos vfsFileSize
        all_goals
          rw [hheap] at h
          cases h
        · exact .refused
        · exact .filled _

theorem handed_fsCreate {k k' : Kernel} {path : Str} {fs : FileOps} {file : Option VfsFile}
    (h : fsCreate k path fs = some (file, k')) :
    Handed k.heapPos file k'.heapPos ∧ k'.nextFd = k.nextFd := by
  cases fs with
  | ramfs =>
      simp only [fsCreate, Option.map_eq_some_iff] at h
      obtain ⟨_, hcreate, heq⟩ := h
      cases heq
      exact ⟨handed_ramfsCreate hcreate, rfl⟩
  | abyssfs =>
      simp only [fsCreate, Option.map_eq_some_iff] at h
      obtain ⟨_, hcreate, heq⟩ := h
      cases heq
      exact ⟨handed_abyssfsCreate hcreate, rfl⟩

section Calls

variable {d d' : Descriptors} {e : FdEvent} {r : FdReply} {fd : Int}

/-- An open or create for which the file system has no file. -/
theorem effect_refused {k : Kernel} (hhanded : Handed d.kernel.heapPos none k.heapPos)
    (hnext : k.nextFd = d.kernel.nextFd) (he : e.Opens) :
    FdEffect d { d with kernel := k } e (.opened (-1)) := by
  refine .idle rfl (fun _ _ => rfl) hnext hhanded.none_eq.ge ?_
    fun fd hclose => absurd hclose (he.not_close fd)
  rintro fd ⟨⟩
  rfl

/-- An open or create for which the file system has filled a file in. -/
theorem effect_handOut {k : Kernel} {file : VfsFile}
    (hhanded : Handed d.kernel.heapPos (some file) k.heapPos) (hnext : k.nextFd = d.kernel.nextFd)
    (he : e.Opens) (hout : some (d.handOut k file) = some (fd, d')) :
    FdEffect d d' e (.opened fd) := by
  unfold handOut allocFd at hout
  split_ifs at hout with hfull
  · cases hout
    refine .idle rfl ?_ hnext hhanded.some_lt.le ?_ fun fd hclose => absurd hclose (he.not_close fd)
    · exact fun addr haddr => Function.update_of_ne haddr.ne _ _
    · rintro fd ⟨⟩
      rfl
  · dsimp only at hfull hout
    rw [hnext] at hfull hout
    cases hout
    exact .opened file (Nat.lt_of_not_le hfull) rfl rfl rfl hhanded.some_lt he

theorem effect_open {path : Str} (h : d.step (.openPath path) = some (r, d')) :
    FdEffect d d' (.openPath path) r := by
  simp only [step, Option.map_eq_some_iff] at h
  obtain ⟨⟨fd, d₂⟩, hopen, heq⟩ := h
  cases heq
  unfold vfsOpen at hopen
  split at hopen
  · cases hopen
  · cases hopen
    exact effect_refused (k := d.kernel) .refused rfl trivial
  · rename_i fs resolved _
    have hhanded := handed_fsOpen d.kernel resolved fs
    have hnext := fsOpen_nextFd d.kernel resolved fs
    split at hopen <;> rename_i hfile <;> rw [hfile] at hhanded hnext
    · cases hopen
      exact effect_refused hhanded hnext trivial
    · exact effect_handOut hhanded hnext trivial hopen

theorem effect_create {path : Str} (h : d.step (.createPath path) = some (r, d')) :
    FdEffect d d' (.createPath path) r := by
  simp only [step, Option.map_eq_some_iff] at h
  obtain ⟨⟨fd, d₂⟩, hcreate, heq⟩ := h
  cases heq
  unfold vfsCreate at hcreate
  split at hcreate
  · cases hcreate
  · cases hcreate
    exact effect_refused (k := d.kernel) .refused rfl trivial
  · split at hcreate
    · cases hcreate
    · rename_i hfile
      obtain ⟨hhanded, hnext⟩ := handed_fsCreate hfile
      cases hcreate
      exact effect_refused hhanded hnext trivial
    · rename_i hfile
      obtain ⟨hhanded, hnext⟩ := handed_fsCreate hfile
      exact effect_handOut hhanded hnext trivial hcreate

/-- A descriptor that `get_file` accepts is an index of the table. -/
theorem getFile_some {addr : Nat} (h : d.getFile fd = some addr) :
    ∃ n : Nat, fd = n ∧ n < maxFd ∧ d.fdTable n = some addr := by
  unfold getFile at h
  split_ifs at h with hrange
  refine ⟨fd.toNat, ?_, ?_, h⟩
  · omega
  · omega

theorem effect_close (h : d.step (.close fd) = some (r, d')) : FdEffect d d' (.close fd) r := by
  cases h
  unfold vfsClose
  cases hfile : d.getFile fd with
  | none => exact .idle rfl (fun _ _ => rfl) rfl le_rfl (by simp) (by simp)
  | some addr =>
      obtain ⟨n, rfl, -, hbound⟩ := getFile_some hfile
      exact .closed n addr hbound rfl rfl rfl rfl

/-- A call that neither opens nor closes and moves no file. -/
theorem effect_other {k : Kernel} (hnext : k.nextFd = d.kernel.nextFd)
    (hheap : k.heapPos = d.kernel.heapPos) (hr : ∀ fd, r ≠ .opened fd) (he : ∀ fd, e ≠ .close fd) :
    FdEffect d { d with kernel := k } e r :=
  .idle rfl (fun _ _ => rfl) hnext hheap.ge (fun fd h => absurd h (hr fd))
    fun fd h => absurd h (he fd)

theorem effect_read {count : Nat} (h : d.step (.read fd count) = some (r, d')) :
    FdEffect d d' (.read fd count) r := by
  simp only [step, Option.map_eq_some_iff] at h
  obtain ⟨⟨bytes, d₂⟩, hread, heq⟩ := h
  cases heq
  unfold vfsRead at hread
  cases hfile : d.getFile fd with
  | none =>
      rw [hfile] at hread
      cases hread
      exact effect_other rfl rfl (by simp) (by simp)
  | some addr =>
      obtain ⟨n, rfl, -, hbound⟩ := getFile_some hfile
      simp only [hfile] at hread
      split at hread
      all_goals
        rw [Option.map_eq_some_iff] at hread
        obtain ⟨⟨_, file⟩, _, heq⟩ := hread
        cases heq
        exact .moved n addr file rfl (by simp) hbound rfl rfl rfl rfl

theorem effect_write {buf : Str} (h : d.step (.write fd buf) = some (r, d')) :
    FdEffect d d' (.write fd buf) r := by
  simp only [step, Option.map_eq_some_iff] at h
  obtain ⟨⟨written, d₂⟩, hwrite, heq⟩ := h
  cases heq
  unfold vfsWrite at hwrite
  cases hfile : d.getFile fd with
  | none =>
      rw [hfile] at hwrite
      cases hwrite
      exact effect_other rfl rfl (by simp) (by simp)
  | some addr =>
      obtain ⟨n, rfl, -, hbound⟩ := getFile_some hfile
      simp only [hfile] at hwrite
      split at hwrite
      · rw [Option.map_eq_some_iff] at hwrite
        obtain ⟨⟨_, file, fs⟩, _, heq⟩ := hwrite
        cases heq
        exact .moved n addr file rfl (by simp) hbound rfl rfl rfl rfl
      · cases hwrite
        exact effect_other rfl rfl (by simp) (by simp)

theorem effect_unlink {path : Str} (h : d.step (.unlink path) = some (r, d')) :
    FdEffect d d' (.unlink path) r := by
  simp only [step, vfsUnlink, Option.map_eq_some_iff] at h
  obtain ⟨_, ⟨⟨result, k⟩, hunlink, rfl⟩, heq⟩ := h
  cases heq
  unfold Chthon.vfsUnlink at hunlink
  split at hunlink
  · cases hunlink
  · cases hunlink
    exact effect_other rfl rfl (by simp) (by simp)
  · rename_i fs path' _
    cases fs with
    | ramfs =>
        cases hunlink
        exact effect_other rfl rfl (by simp) (by simp)
    | abyssfs =>
        simp only [fsUnlink, Option.map_eq_some_iff] at hunlink
        obtain ⟨_, _, heq⟩ := hunlink
        cases heq
        exact effect_other rfl rfl (by simp) (by simp)

theorem step_effect (h : d.step e = some (r, d')) : FdEffect d d' e r := by
  cases e with
  | openPath path => exact effect_open h
  | createPath path => exact effect_create h
  | close fd => exact effect_close h
  | read fd count => exact effect_read h
  | write fd buf => exact effect_write h
  | unlink path => exact effect_unlink h

/-! Memory from the heap is not handed out twice, which keeps the files of two entries apart. -/

theorem Empty.own (h : Empty d) : Own d where
  unused := fun fd _ => h.fdTable fd
  inTable := h.nextFd ▸ Nat.zero_le maxFd
  allocated := fun fd addr hfd => by
    rw [h.fdTable] at hfd
    cases hfd
  distinct := fun fd fd' addr hfd => by
    rw [h.fdTable] at hfd
    cases hfd

/-- A table with the same entries. -/
theorem Own.keep (h : Own d) (hfd : d'.fdTable = d.fdTable)
    (hnext : d'.kernel.nextFd = d.kernel.nextFd) (hheap : d.kernel.heapPos ≤ d'.kernel.heapPos) :
    Own d' where
  unused := by
    rw [hfd, hnext]
    exact h.unused
  inTable := hnext ▸ h.inTable
  allocated := fun fd addr hbound => by
    rw [hfd] at hbound
    exact (h.allocated fd addr hbound).trans_le hheap
  distinct := by
    rw [hfd]
    exact h.distinct

theorem Own.effect (h : Own d) (heff : FdEffect d d' e r) : Own d' := by
  cases heff with
  | idle hfd _ hnext hheap _ _ => exact h.keep hfd hnext hheap
  | moved fd addr file _ _ _ hfd _ hnext hheap => exact h.keep hfd hnext hheap.ge
  | closed fd addr _ hfd _ hnext hheap =>
      have hbefore : ∀ fd' addr, d'.fdTable fd' = some addr → d.fdTable fd' = some addr := by
        intro fd' addr hbound
        rw [hfd] at hbound
        by_cases heq : fd' = fd
        · rw [heq, Function.update_self] at hbound
          cases hbound
        · rwa [Function.update_of_ne heq] at hbound
      refine ⟨fun fd' hle => ?_, hnext ▸ h.inTable, fun fd' addr hbound => ?_,
        fun fd₁ fd₂ addr h₁ h₂ => h.distinct fd₁ fd₂ addr (hbefore _ _ h₁) (hbefore _ _ h₂)⟩
      · cases hbound : d'.fdTable fd' with
        | none => rfl
        | some addr =>
            rw [hnext] at hle
            rw [← hbefore _ _ hbound]
            exact h.unused fd' hle
      · rw [hheap]
        exact h.allocated fd' addr (hbefore _ _ hbound)
  | opened file hroom hfd _ hnext hheap _ =>
      have hbefore : ∀ fd addr, d'.fdTable fd = some addr →
          (fd = d.kernel.nextFd ∧ addr = d.kernel.heapPos) ∨ d.fdTable fd = some addr := by
        intro fd addr hbound
        rw [hfd] at hbound
        by_cases heq : fd = d.kernel.nextFd
        · rw [heq, Function.update_self] at hbound
          exact .inl ⟨heq, (Option.some.inj hbound).symm⟩
        · rw [Function.update_of_ne heq] at hbound
          exact .inr hbound
      refine ⟨fun fd hle => ?_, hnext ▸ hroom, fun fd addr hbound => ?_,
        fun fd₁ fd₂ addr h₁ h₂ => ?_⟩
      · rw [hnext] at hle
        rw [hfd, Function.update_of_ne (by omega)]
        exact h.unused fd (by omega)
      · obtain ⟨-, rfl⟩ | hold := hbefore _ _ hbound
        · exact hheap
        · exact (h.allocated fd addr hold).trans hheap
      · obtain ⟨rfl, rfl⟩ | hold₁ := hbefore _ _ h₁ <;> obtain ⟨rfl, hnew⟩ | hold₂ := hbefore _ _ h₂
        · rfl
        · exact absurd (h.allocated _ _ hold₂) (lt_irrefl _)
        · rw [hnew] at hold₁
          exact absurd (h.allocated _ _ hold₁) (lt_irrefl _)
        · exact h.distinct _ _ _ hold₁ hold₂

/-- What an entry leads to, when one file has been filled in or moved. -/
theorem Own.files_other (h : Own d) {fd fd' addr addr' : Nat} (hfd : d.fdTable fd = some addr)
    (hfd' : d.fdTable fd' = some addr') (hne : fd' ≠ fd) (file : VfsFile) :
    Function.update d.files addr file addr' = d.files addr' := by
  apply Function.update_of_ne
  intro heq
  exact hne (h.distinct fd' fd addr (heq ▸ hfd') hfd)

/-! The calls on pointers are the calls on files. -/

theorem view_setFile (h : Own d) {n addr : Nat} (hbound : d.fdTable n = some addr)
    (file : VfsFile) : (d.setFile addr file).view = d.view.setFile n (some file) := by
  have htable : (d.setFile addr file).view.fdTable =
      Function.update d.view.fdTable n (some file) := by
    funext m
    change (d.fdTable m).map (Function.update d.files addr file) = _
    by_cases hm : m = n
    · rw [hm, hbound, Function.update_self, Option.map_some, Function.update_self]
    · rw [Function.update_of_ne hm]
      cases hother : d.fdTable m with
      | none => simp [view, viewOf, hother]
      | some addr' =>
          rw [Option.map_some, h.files_other hbound hother hm]
          simp [view, viewOf, hother]
  change { d.kernel with fdTable := (d.setFile addr file).view.fdTable } = _
  rw [htable]
  rfl

theorem view_getFile (d : Descriptors) (fd : Int) :
    Chthon.getFile d.view fd = (d.getFile fd).map d.files := by
  unfold Chthon.getFile getFile
  split_ifs
  · rfl
  · rfl

theorem view_handOut (h : Own d) (k : Kernel) (file : VfsFile) :
    ((d.handOut k file).1, (d.handOut k file).2.view) = Chthon.allocFd (d.viewOf k) file := by
  have hkeep : ∀ fd addr, d.fdTable fd = some addr →
      Function.update d.files d.kernel.heapPos file addr = d.files addr := by
    intro fd addr hbound
    exact Function.update_of_ne (h.allocated fd addr hbound).ne _ _
  have htable : ∀ fd, (d.fdTable fd).map (Function.update d.files d.kernel.heapPos file) =
      (d.fdTable fd).map d.files := by
    intro fd
    cases hbound : d.fdTable fd with
    | none => rfl
    | some addr => rw [Option.map_some, Option.map_some, hkeep fd addr hbound]
  unfold handOut allocFd Chthon.allocFd
  by_cases hfull : k.nextFd ≥ maxFd
  · simp only [viewOf, view, hfull, if_true, htable]
  · simp only [viewOf, view, hfull, if_false, Prod.mk.injEq, true_and]
    congr 1
    funext fd
    by_cases hfd : fd = k.nextFd
    · rw [hfd, Function.update_self, Function.update_self, Option.map_some, Function.update_self]
    · rw [Function.update_of_ne hfd, Function.update_of_ne hfd]
      exact htable fd

theorem vfsOpen_view (h : Own d) (path : Str) :
    (d.vfsOpen path).map (fun (fd, d) => (fd, d.view)) = Chthon.vfsOpen d.view path := by
  have hroute : openRoute d.view path = openRoute d.kernel path := rfl
  unfold vfsOpen Chthon.vfsOpen
  rw [hroute]
  cases openRoute d.kernel path with
  | none => rfl
  | some route =>
      obtain ⟨fs, resolved⟩ := route
      cases fs with
      | none => rfl
      | some fs =>
          have hopen : fsOpen d.view resolved fs =
              ((fsOpen d.kernel resolved fs).1, d.viewOf (fsOpen d.kernel resolved fs).2) := by
            cases fs <;> rfl
          dsimp only
          rw [hopen]
          cases fsOpen d.kernel resolved fs with
          | mk file k =>
              cases file with
              | none => rfl
              | some file => exact congrArg some (view_handOut h k file)

theorem vfsCreate_view (h : Own d) (path : Str) :
    (d.vfsCreate path).map (fun (fd, d) => (fd, d.view)) = Chthon.vfsCreate d.view path := by
  have hroute : createRoute d.view path = createRoute d.kernel path := rfl
  unfold vfsCreate Chthon.vfsCreate
  rw [hroute]
  cases createRoute d.kernel path with
  | none => rfl
  | some route =>
      obtain ⟨fs, full⟩ := route
      cases fs with
      | none => rfl
      | some fs =>
          have hcreate : fsCreate d.view full fs =
              (fsCreate d.kernel full fs).map fun (file, k) => (file, d.viewOf k) := by
            cases fs with
            | ramfs =>
                rw [fsCreate, fsCreate, Option.map_map]
                rfl
            | abyssfs =>
                rw [fsCreate, fsCreate, Option.map_map]
                rfl
          dsimp only
          rw [hcreate]
          cases fsCreate d.kernel full fs with
          | none => rfl
          | some answer =>
              obtain ⟨file, k⟩ := answer
              cases file with
              | none => rfl
              | some file => exact congrArg some (view_handOut h k file)

theorem vfsRead_view (h : Own d) (fd : Int) (count : Nat) :
    (d.vfsRead fd count).map (fun (bytes, d) => (bytes, d.view)) =
      Chthon.vfsRead d.view fd count := by
  unfold vfsRead Chthon.vfsRead
  rw [view_getFile]
  cases hfile : d.getFile fd with
  | none => rfl
  | some addr =>
      obtain ⟨n, rfl, -, hbound⟩ := getFile_some hfile
      dsimp only [Option.map_some]
      cases (d.files addr).fOps with
      | ramfs =>
          rw [Option.map_map]
          apply Option.map_congr
          intro _ _
          exact Prod.ext rfl (view_setFile h hbound _)
      | abyssfs =>
          rw [Option.map_map]
          apply Option.map_congr
          intro _ _
          exact Prod.ext rfl (view_setFile h hbound _)

theorem vfsWrite_view (h : Own d) (fd : Int) (buf : Str) :
    (d.vfsWrite fd buf).map (fun (written, d) => (written, d.view)) =
      Chthon.vfsWrite d.view fd buf := by
  unfold vfsWrite Chthon.vfsWrite
  rw [view_getFile]
  cases hfile : d.getFile fd with
  | none => rfl
  | some addr =>
      obtain ⟨n, rfl, -, hbound⟩ := getFile_some hfile
      dsimp only [Option.map_some]
      cases (d.files addr).fOps with
      | ramfs =>
          rw [Option.map_map]
          refine Option.map_congr fun answer _ => Prod.ext rfl ?_
          change { (d.setFile addr answer.2.1).view with ramfs := answer.2.2 } = _
          rw [view_setFile h hbound]
      | abyssfs => rfl

theorem vfsClose_view (d : Descriptors) (fd : Int) :
    ((d.vfsClose fd).1, (d.vfsClose fd).2.view) = Chthon.vfsClose d.view fd := by
  unfold vfsClose Chthon.vfsClose
  rw [view_getFile]
  cases d.getFile fd with
  | none => rfl
  | some addr =>
      have htable : ∀ m, (Function.update d.fdTable fd.toNat none m).map d.files =
          Function.update d.view.fdTable fd.toNat none m := by
        intro m
        by_cases hm : m = fd.toNat
        · rw [hm, Function.update_self, Function.update_self]
          rfl
        · rw [Function.update_of_ne hm, Function.update_of_ne hm]
          rfl
      dsimp only [Option.map_some]
      rw [Kernel.setFile, ← funext htable]
      rfl

theorem vfsUnlink_view (d : Descriptors) (path : Str) :
    (d.vfsUnlink path).map (fun (result, d) => (result, d.view)) =
      Chthon.vfsUnlink d.view path := by
  have hroute : unlinkRoute d.view path = unlinkRoute d.kernel path := rfl
  unfold vfsUnlink Chthon.vfsUnlink
  rw [hroute, Option.map_map]
  cases unlinkRoute d.kernel path with
  | none => rfl
  | some route =>
      obtain ⟨fs, path'⟩ := route
      cases fs with
      | none => rfl
      | some fs =>
          cases fs with
          | ramfs => rfl
          | abyssfs =>
              dsimp only [fsUnlink]
              rw [Option.map_map]
              rfl

theorem Own.step_view (h : Own d) (e : FdEvent) :
    (d.step e).map (fun (r, d) => (r, d.view)) = fdStep d.view e := by
  cases e with
  | openPath path =>
      rw [fdStep, ← vfsOpen_view h, step, Option.map_map, Option.map_map]
      rfl
  | createPath path =>
      rw [fdStep, ← vfsCreate_view h, step, Option.map_map, Option.map_map]
      rfl
  | close fd =>
      rw [fdStep, ← vfsClose_view, step]
      rfl
  | read fd count =>
      rw [fdStep, ← vfsRead_view h, step, Option.map_map, Option.map_map]
      rfl
  | write fd buf =>
      rw [fdStep, ← vfsWrite_view h, step, Option.map_map, Option.map_map]
      rfl
  | unlink path =>
      rw [fdStep, ← vfsUnlink_view, step, Option.map_map, Option.map_map]
      rfl

end Calls

end Descriptors

end Chthon
