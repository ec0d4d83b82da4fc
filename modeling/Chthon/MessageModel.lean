import Chthon.VfsModel

/-! `send_message`, the kernel's one entry for services, with every message type. The message comes
back with the fields the call has filled in; what it writes through `data` goes to user memory.
Console output is not modelled. -/

namespace Chthon

open ByteMemory

/-- `sizeof(struct dirent)` -/
def direntSize : Nat := 264
def maxDirents : Nat := 32
/-- `MREPL` -/
def mrepl : Int := 16

/-- `enum msg_type`, in its order. -/
inductive MsgType where
  | none
  | openFile
  | read
  | write
  | close
  | stat
  | bind
  | mount
  | fork
  | exec
  | wait
  | pipe
  | readDir
  | create
  | mkdir
  | getcwd
  | chdir
  | copy
  | remove
  | move
  | unbind
  | putc
  | getc
  | puts
  deriving DecidableEq

def MsgType.all : List MsgType :=
  [.none, .openFile, .read, .write, .close, .stat, .bind, .mount, .fork, .exec, .wait, .pipe,
    .readDir, .create, .mkdir, .getcwd, .chdir, .copy, .remove, .move, .unbind, .putc, .getc, .puts]

/-- What the kernel meets outside: the linker's addresses, the next byte of the console, and the
state in which a process that has given up the processor finds the kernel when it runs again, if it
ever does. -/
structure Outside where
  image : Image
  console : UInt8
  resume : Kernel → Option Kernel

/-- The C string a pointer of the message leads to. -/
def Kernel.text (k : Kernel) (addr : Nat) : Option Str := stringWithin k.user heapSize addr

/-- `while ((bytes_read = vfs_read(..)) > 0)` of a copy: whether every chunk was written in full. A
failing read ends the loop as the end of the file does. -/
def copyLoop (src dst : Int) : Nat → Kernel → Option (Bool × Kernel)
  | 0, _ => none
  | fuel + 1, k =>
      match vfsRead k src 1024 with
      | none => none
      | some (none, k) => some (true, k)
      | some (some bytes, k) =>
          if bytes = [] then some (true, k)
          else
            match vfsWrite k dst bytes with
            | none => none
            | some (written, k) =>
                if written ≠ bytes.length then some (false, k) else copyLoop src dst fuel k

/-- Opening the source, creating the destination and copying, as `MSG_COPY` and `MSG_MOVE` both
start; both descriptors are closed again. `some none` is the -1 before there is anything to copy.
Positions are 64-bit numbers, so no copy takes more rounds. -/
def copyFile (k : Kernel) (src dst : Str) : Option (Option Bool × Kernel) :=
  match vfsOpen k src with
  | none => none
  | some (srcFd, k) =>
      if srcFd < 0 then some (none, k)
      else
        match vfsCreate k dst with
        | none => none
        | some (dstFd, k) =>
            if dstFd < 0 then some (none, (vfsClose k srcFd).2)
            else
              (copyLoop srcFd dstFd (2 ^ 64) k).map fun (complete, k) =>
                (some complete, (vfsClose (vfsClose k srcFd).2 dstFd).2)

/-- `MSG_COPY` -/
def copyMessage (k : Kernel) (src dst : Str) : Option (Int × Kernel) :=
  (copyFile k src dst).map fun (complete, k) => (if complete = some true then 0 else -1, k)

/-- `MSG_MOVE`: a copy, after which the source is unlinked; where that or a write fails, the
destination is. -/
def moveMessage (k : Kernel) (src dst : Str) : Option (Int × Kernel) :=
  match copyFile k src dst with
  | none => none
  | some (none, k) => some (-1, k)
  | some (some false, k) => (vfsUnlink k dst).map fun (_, k) => (-1, k)
  | some (some true, k) =>
      match vfsUnlink k src with
      | none => none
      | some (result, k) =>
          if result < 0 then (vfsUnlink k dst).map fun (_, k) => (-1, k) else some (0, k)

/-- The ways through a move. -/
theorem moveMessage_cases {k k' : Kernel} {src dst : Str} {result : Int}
    (h : moveMessage k src dst = some (result, k')) :
    ∃ complete k₁, copyFile k src dst = some (complete, k₁) ∧
      (complete = none ∧ result = -1 ∧ k' = k₁ ∨
        complete = some false ∧ result = -1 ∧ (∃ undone, vfsUnlink k₁ dst = some (undone, k')) ∨
        complete = some true ∧ ∃ removed k₂, vfsUnlink k₁ src = some (removed, k₂) ∧
          (removed < 0 ∧ result = -1 ∧ (∃ undone, vfsUnlink k₂ dst = some (undone, k')) ∨
            0 ≤ removed ∧ result = 0 ∧ k' = k₂)) := by
  rw [moveMessage] at h
  split at h
  · cases h
  · rename_i hcopy
    cases h
    exact ⟨none, k', hcopy, .inl ⟨rfl, rfl, rfl⟩⟩
  · rename_i k₁ hcopy
    obtain ⟨⟨undone, _⟩, hunlink, heq⟩ := Option.map_eq_some_iff.mp h
    cases heq
    exact ⟨some false, k₁, hcopy, .inr (.inl ⟨rfl, rfl, undone, hunlink⟩)⟩
  · rename_i k₁ hcopy
    refine ⟨some true, k₁, hcopy, .inr (.inr ⟨rfl, ?_⟩)⟩
    split at h
    · cases h
    · rename_i removed k₂ hremove
      refine ⟨removed, k₂, hremove, ?_⟩
      split_ifs at h with hneg
      · obtain ⟨⟨undone, _⟩, hunlink, heq⟩ := Option.map_eq_some_iff.mp h
        cases heq
        exact .inl ⟨hneg, rfl, undone, hunlink⟩
      · cases h
        exact .inr ⟨Int.not_lt.mp hneg, rfl, rfl⟩

/-- The directory entries as they are laid out for the caller. The bytes behind a name are left
over in the kernel's array and not modelled. -/
def storeDirents (m : Memory) (data : Nat) : List (Nat × Str) → Memory
  | [] => m
  | (inode, name) :: rest =>
      storeDirents (store m data (le32 inode ++ le32 (inode / 2 ^ 32) ++ name ++ [0]))
        (data + direntSize) rest

def handleReadDirMessage (k : Kernel) (msg : Message) : Option (Int × Message × Kernel) :=
  if msg.path = 0 then some (-1, msg, k)
  else
    match k.text msg.path with
    | none => none
    | some path =>
        match vfsReadDir k path maxDirents with
        | none => none
        | some (none, k) => some (-1, msg, k)
        | some (some dirents, k) =>
            if msg.data ≠ 0 ∧ msg.size ≥ dirents.length * direntSize then
              some (dirents.length, { msg with direntCount := dirents.length },
                { k with user := storeDirents k.user msg.data dirents })
            else some (dirents.length, { msg with direntCount := 0 }, k)

/-- `MSG_WAIT`: look for a child that has exited, and once more after another process has run. -/
def waitMessage (out : Outside) (k : Kernel) (msg : Message) : Option (Int × Message × Kernel) :=
  match k.current with
  | none => none
  | some p =>
      match zombieChild k (k.procs p) with
      | some child => some (0, { msg with status := (k.procs child).exitStatus }, k)
      | none =>
          match (schedule (k.setState p .blocked)).bind out.resume with
          | none => none
          | some k =>
              match zombieChild k (k.procs p) with
              | some child => some (0, { msg with status := (k.procs child).exitStatus }, k)
              | none => some (-1, msg, k)

/-- `MSG_GETCWD` -/
def getcwdMessage (k : Kernel) (msg : Message) : Int × Message × Kernel :=
  match k.currentProcess with
  | none => (-1, msg, k)
  | some p =>
      if msg.data ≠ 0 ∧ msg.size > 0 ∧ p.cwd.length < msg.size then
        (0, { msg with size := p.cwd.length }, { k with user := store k.user msg.data (p.cwd ++ [0]) })
      else (-1, msg, k)

/-- The path a directory change starts from: an absolute one is cut to the buffer, a relative one is
appended to the working directory. -/
def chdirPath (k : Kernel) (path : Str) : Option Str :=
  if path.head? = some slash then some (path.take (maxPath - 1)) else fullPath k path

/-- `MSG_CHDIR` -/
def chdirMessage (k : Kernel) (msg : Message) : Option (Int × Message × Kernel) :=
  match k.current with
  | none => some (-1, { msg with status := -1 }, k)
  | some p =>
      match (k.text msg.path).bind (chdirPath k) with
      | none => none
      | some full =>
          let full := vfsNormalizePath full
          match vfsReadDir k full 1 with
          | none => none
          | some (none, k) => some (-1, { msg with status := -1 }, k)
          | some (some _, k) =>
              some (0, { msg with status := 0 }, k.setProc p { k.procs p with
                cwd := full.take (maxPath - 1) })

/-- Messages with a source and a destination path, in `path` and `data`. -/
def withPaths (k : Kernel) (msg : Message) (call : Str → Str → Option (Int × Kernel)) :
    Option (Int × Message × Kernel) :=
  if msg.path = 0 ∨ msg.data = 0 then some (-1, msg, k)
  else
    match k.text msg.path, k.text msg.data with
    | some src, some dst => (call src dst).map fun (result, k) => (result, msg, k)
    | _, _ => none

def sendMessage (out : Outside) (k : Kernel) (msg : Message) : Option (Int × Message × Kernel) :=
  match MsgType.all[msg.type]? with
  | some .openFile =>
      (k.text msg.path).bind fun path => (vfsOpen k path).map fun (fd, k) =>
        (fd, { msg with fd := fd }, k)
  | some .read =>
      (vfsRead k msg.fd 256).map fun (bytes, k) =>
        match bytes with
        | none => (-1, msg, k)
        | some [] => (0, msg, k)
        | some bytes => (bytes.length, { msg with size := bytes.length },
            { k with user := store k.user msg.data bytes })
  | some .fork =>
      (createProcess out.image k).map fun (new, k) => (0, { msg with pid := (k.procs new).pid }, k)
  | some .exec => (handleExecMessage k msg).map fun (result, k) => (result, msg, k)
  | some .wait => waitMessage out k msg
  | some .pipe => some (0, msg, k)
  | some .readDir => handleReadDirMessage k msg
  | some .create =>
      (k.text msg.path).bind fun path => (vfsCreate k path).map fun (fd, k) =>
        if fd ≥ 0 then (0, { msg with fd := fd }, (vfsClose k fd).2) else (-1, msg, k)
  | some .mkdir =>
      (k.text msg.path).bind fun path => (vfsMkdir k path).map fun (result, k) => (result, msg, k)
  | some .getcwd => some (getcwdMessage k msg)
  | some .chdir => chdirMessage k msg
  | some .copy => withPaths k msg (copyMessage k)
  | some .remove =>
      if msg.path = 0 then some (-1, msg, k)
      else
        (k.text msg.path).bind fun path => (vfsUnlink k path).map fun (result, k) =>
          (if result < 0 then -1 else 0, msg, k)
  | some .move => withPaths k msg (moveMessage k)
  | some .bind =>
      withPaths k msg fun source target => (bind k target source mrepl).map fun (result, k) =>
        (if result < 0 then -1 else 0, k)
  | some .unbind =>
      (k.text msg.path).map fun path => ((unbind k path).1, msg, (unbind k path).2)
  | some .putc => some (0, msg, k)
  -- `char` is unsigned on this target
  | some .getc => some (out.console.toNat, { msg with character := out.console }, k)
  | some .puts => some (0, msg, k)
  | _ => some (-1, msg, k)

end Chthon
