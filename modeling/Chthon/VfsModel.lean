import Chthon.KernelModel

/-! The path and descriptor layer of `vfs.c` with the bindings of `namespace.c`. Every operation on
a path first chooses a file system and the text it hands to it; that choice is a definition of its
own for each of the five entry points. -/

namespace Chthon

open ByteMemory PathText

def maxFd : Nat := 32
/-- `sizeof(struct namespace)` -/
def namespaceSize : Nat := 32

/-- The C string at an address, looked for over a bounded stretch of memory. -/
def stringWithin (m : Memory) : Nat → Nat → Option Str
  | 0, _ => none
  | bound + 1, a => if m a = 0 then some [] else (stringWithin m bound (a + 1)).map (m a :: ·)

/-! Choosing a file system. -/

/-- `mount_points` after `vfs_init`. -/
def mountPoints : List (Str × FileOps) := [(ascii "/", .abyssfs), (ascii "/tmp", .ramfs)]

def findMount (path : Str) : Option FileOps :=
  if path = [] ∨ path = ascii "/" then mountPoints.head?.map Prod.snd
  else
    (mountPoints.foldl (fun (best : Nat × Option FileOps) (mp : Str × FileOps) =>
      if mp.1.isPrefixOf path ∧ mp.1.length > best.1 then (mp.1.length, some mp.2) else best)
      (0, none)).2

/-- The buffer `full_path` that `vfs_create`, `vfs_unlink`, `vfs_mkdir` and `vfs_remove_recursive`
fill in the same way; it holds 256 bytes, and an empty `cwd` is read at index -1. -/
def fullPath (k : Kernel) (path : Str) : Option Str :=
  if path.head? = some slash then
    if path.length ≥ maxPath then none else some path
  else
    match k.currentProcess with
    | none => none
    | some p =>
        if p.cwd = [] then none
        else
          let dir := if p.cwd.getLast? = some slash then p.cwd else p.cwd ++ [slash]
          if (dir ++ path).length ≥ maxPath then none else some (dir ++ path)

/-- `resolve_path`: the first binding whose old path starts the text. -/
def resolvePath (k : Kernel) (path : Str) : Option Str :=
  match k.currentProcess with
  | none => none
  | some p =>
      let resolved := match p.ns.find? fun ns => ns.oldPath.isPrefixOf path with
        | some ns => ns.newPath ++ path.drop ns.oldPath.length
        | none => path
      if resolved.length ≥ maxPath then none else some resolved

def openRoute (k : Kernel) (path : Str) : Option (Option FileOps × Str) :=
  (resolvePath k path).map fun resolved =>
    (some (if tmpPrefix.isPrefixOf resolved then .ramfs else .abyssfs), resolved)

def createRoute (k : Kernel) (path : Str) : Option (Option FileOps × Str) :=
  (fullPath k path).map fun full =>
    (if tmpPrefix.isPrefixOf full ∨ full = ascii "/tmp" then some .ramfs else findMount full, full)

/-- The file system is chosen by the full path, but gets the text as it was given. -/
def unlinkRoute (k : Kernel) (path : Str) : Option (Option FileOps × Str) :=
  (fullPath k path).map fun full => (findMount full, path)

def mkdirRoute (k : Kernel) (path : Str) : Option (Option FileOps × Str) :=
  (fullPath k path).map fun full => (findMount full, full)

def removeRecursiveRoute (k : Kernel) (path : Str) : Option (Option FileOps × Str) :=
  (fullPath k path).map fun full => (findMount full, full)

/-! Directory listings. -/

/-- The records from `dir` on, at most as many as there is room for. A name is copied to a buffer
of 256 bytes. -/
def direntsFrom (m : Memory) : Nat → Nat → Option (List (Nat × Str))
  | 0, _ => some []
  | room + 1, dir =>
      if recLen m dir = 0 then some []
      else
        match stringWithin m maxPath (entryName dir) with
        | none => none
        | some name =>
            (direntsFrom m room (dir + recLen m dir)).map ((entryInode m dir, name) :: ·)

/-- `abyssfs_read_dir`; `some none` is -1. -/
def abyssfsReadDir (m : Memory) (path : Str) (maxEntries : Nat) :
    Option (Option (List (Nat × Str))) :=
  let path := skipSlash path
  let dirBlock := if path = [] then some (some (inodeBlocks + 1))
    else (getInodeByPath m path).map (·.map (blocks m ·))
  match dirBlock with
  | none => none
  | some none => some none
  | some (some dirBlock) =>
      match getBlock dirBlock with
      | none => some none
      | some dir => (direntsFrom m maxEntries dir).map some

/-- `is_file_in_dir` of `ramfs.c` -/
def isFileInDir (filePath dirPath : Str) : Bool :=
  if dirPath.isPrefixOf filePath then
    if dirPath = ascii "/tmp" then
      if filePath[dirPath.length]? ≠ some slash then false
      else !(filePath.drop (dirPath.length + 1)).contains slash
    else
      match splitLast slash filePath with
      | none => false
      | some (dir, _) => dir.length = dirPath.length
  else false

/-- `get_basename` -/
def getBasename (path : Str) : Str :=
  match splitLast slash path with
  | none => path
  | some (_, base) => base

/-- The loop of `ramfs_read_dir` over the slots, as long as there is room. -/
def ramfsDirents (fs : Ramfs) (path : Str) : Nat → List Nat → Option (List (Nat × Str))
  | 0, _ => some []
  | _, [] => some []
  | room + 1, i :: rest =>
      if (fs i).used then
        match stringWithin (fs i).bytes (slotPath + maxContent) 0 with
        | none => none
        | some filePath =>
            if isFileInDir filePath path then
              if (getBasename filePath).length ≥ maxPath then none
              else (ramfsDirents fs path room rest).map ((i + 2, getBasename filePath) :: ·)
            else ramfsDirents fs path (room + 1) rest
      else ramfsDirents fs path (room + 1) rest

/-- `ramfs_read_dir`: every text is a directory here. -/
def ramfsReadDir (fs : Ramfs) (path : Str) (maxEntries : Nat) : Option (List (Nat × Str)) :=
  (ramfsDirents fs path (maxEntries - 2) (List.range maxFiles)).map fun files =>
    [(1, ascii "."), (1, ascii "..")].take maxEntries ++ files

/-- `abyssfs_remove_recursive`. The paths of the recursive calls grow and must fit a buffer of 256
bytes, which bounds the depth. -/
def abyssfsRemoveRecursive : Nat → Abyssfs → Str → Option (Int × Abyssfs)
  | 0, _, _ => none
  | depth + 1, s, path =>
      match abyssfsReadDir s.mem path 256 with
      | none => none
      | some entries =>
          let removed := (entries.getD []).foldlM (fun (s : Abyssfs) (entry : Nat × Str) =>
            if entry.2 = ascii "." ∨ entry.2 = ascii ".." then some s
            else if (path ++ slash :: entry.2).length ≥ maxPath then none
            else
              match getInode entry.1 with
              | none => (abyssfsUnlink s (path ++ slash :: entry.2)).map Prod.snd
              | some inode =>
                  if mode s.mem inode &&& dirMode = 0 then
                    (abyssfsUnlink s (path ++ slash :: entry.2)).map Prod.snd
                  else (abyssfsRemoveRecursive depth s (path ++ slash :: entry.2)).map Prod.snd) s
          match removed with
          | none => none
          | some s => abyssfsUnlink s path

/-! The operations of the chosen file system. -/

def fsOpen (k : Kernel) (path : Str) : FileOps → Option VfsFile × Kernel
  | .ramfs =>
      let (file, heapPos) := ramfsOpen k.heapPos k.ramfs path
      (file, { k with heapPos := heapPos })
  | .abyssfs =>
      let (file, heapPos) := abyssfsOpen k.heapPos path
      (file, { k with heapPos := heapPos })

def fsCreate (k : Kernel) (path : Str) : FileOps → Option (Option VfsFile × Kernel)
  | .ramfs =>
      (ramfsCreate k.heapPos k.ramfs path).map fun (file, heapPos, fs) =>
        (file, { k with heapPos := heapPos, ramfs := fs })
  | .abyssfs =>
      (abyssfsCreate k.heapPos k.abyss (k.currentProcess.map Process.cwd) path).map
        fun (file, heapPos, fs) => (file, { k with heapPos := heapPos, abyss := fs })

def fsUnlink (k : Kernel) (path : Str) : FileOps → Option (Int × Kernel)
  | .ramfs =>
      let (result, fs) := ramfsUnlink k.ramfs path
      some (result, { k with ramfs := fs })
  | .abyssfs => (abyssfsUnlink k.abyss path).map fun (result, fs) => (result, { k with abyss := fs })

def fsMkdir (k : Kernel) (path : Str) : FileOps → Option (Int × Kernel)
  | .ramfs =>
      let (result, fs) := ramfsMkdir k.ramfs path
      some (result, { k with ramfs := fs })
  | .abyssfs => (abyssfsMkdir k.abyss path).map fun (result, fs) => (result, { k with abyss := fs })

def fsReadDir (k : Kernel) (path : Str) (maxEntries : Nat) :
    FileOps → Option (Option (List (Nat × Str)))
  | .ramfs => (ramfsReadDir k.ramfs path maxEntries).map some
  | .abyssfs => abyssfsReadDir k.abyss.mem path maxEntries

/-- `remove_recursive` is NULL for RAMFS, which `vfs_remove_recursive` answers with -1. -/
def fsRemoveRecursive (k : Kernel) (path : Str) : FileOps → Option (Int × Kernel)
  | .ramfs => some (-1, k)
  | .abyssfs =>
      (abyssfsRemoveRecursive maxPath k.abyss path).map fun (result, fs) =>
        (result, { k with abyss := fs })

/-! Descriptors. -/

def allocFd (k : Kernel) (file : VfsFile) : Int × Kernel :=
  if k.nextFd ≥ maxFd then (-1, k)
  else
    (k.nextFd, { k with
      fdTable := Function.update k.fdTable k.nextFd (some file)
      nextFd := k.nextFd + 1 })

def getFile (k : Kernel) (fd : Int) : Option VfsFile :=
  if fd < 0 ∨ fd ≥ maxFd then none else k.fdTable fd.toNat

def Kernel.setFile (k : Kernel) (fd : Int) (file : Option VfsFile) : Kernel :=
  { k with fdTable := Function.update k.fdTable fd.toNat file }

def vfsOpen (k : Kernel) (path : Str) : Option (Int × Kernel) :=
  match openRoute k path with
  | none => none
  | some (none, _) => some (-1, k)
  | some (some fs, resolved) =>
      match fsOpen k resolved fs with
      | (none, k) => some (-1, k)
      | (some file, k) => some (allocFd k file)

def vfsCreate (k : Kernel) (path : Str) : Option (Int × Kernel) :=
  match createRoute k path with
  | none => none
  | some (none, _) => some (-1, k)
  | some (some fs, full) =>
      match fsCreate k full fs with
      | none => none
      | some (none, k) => some (-1, k)
      | some (some file, k) => some (allocFd k file)

/-- `vfs_read`: the bytes, or `some none` for -1. -/
def vfsRead (k : Kernel) (fd : Int) (count : Nat) : Option (Option Str × Kernel) :=
  match getFile k fd with
  | none => some (none, k)
  | some file =>
      match file.fOps with
      | .ramfs =>
          (ramfsRead k.ramfs file count).map fun (bytes, file) =>
            (some bytes, k.setFile fd (some file))
      | .abyssfs =>
          (abyssfsRead k.abyss file count).map fun (bytes, file) => (bytes, k.setFile fd (some file))

def vfsWrite (k : Kernel) (fd : Int) (buf : Str) : Option (Int × Kernel) :=
  match getFile k fd with
  | none => some (-1, k)
  | some file =>
      match file.fOps with
      | .ramfs =>
          (ramfsWrite k.ramfs file buf).map fun (written, file, fs) =>
            (written, { k.setFile fd (some file) with ramfs := fs })
      | .abyssfs =>
          let (written, fs) := abyssfsWrite k.abyss file buf
          some (written, { k with abyss := fs })

def vfsClose (k : Kernel) (fd : Int) : Int × Kernel :=
  match getFile k fd with
  | none => (-1, k)
  | some _ => (0, k.setFile fd none)

def vfsUnlink (k : Kernel) (path : Str) : Option (Int × Kernel) :=
  match unlinkRoute k path with
  | none => none
  | some (none, _) => some (-1, k)
  | some (some fs, path) => fsUnlink k path fs

def vfsMkdir (k : Kernel) (path : Str) : Option (Int × Kernel) :=
  match mkdirRoute k path with
  | none => none
  | some (none, _) => some (-1, k)
  | some (some fs, full) => fsMkdir k full fs

def vfsRemoveRecursive (k : Kernel) (path : Str) : Option (Int × Kernel) :=
  match removeRecursiveRoute k path with
  | none => none
  | some (none, _) => some (-1, k)
  | some (some fs, full) => fsRemoveRecursive k full fs

/-! Bindings. -/

/-- `resolve_namespace_path`: the first binding whose new path starts the text, with a buffer of
256 bytes from the heap for the result. -/
def resolveNamespacePath (k : Kernel) (path : Str) : Option (Str × Kernel) :=
  match k.currentProcess with
  | none => some (path, k)
  | some p =>
      match p.ns.find? fun ns => ns.newPath.isPrefixOf path with
      | none => some (path, k)
      | some ns =>
          match kalloc k.heapPos maxPath with
          | (none, _) => some (path, k)
          | (some _, heapPos) =>
              let rest := path.drop ns.newPath.length
              -- an empty old path is read at index -1
              if rest ≠ [] ∧ rest.head? ≠ some slash ∧ ns.oldPath = [] then none
              else
                let joint := if rest ≠ [] ∧ rest.head? ≠ some slash ∧
                  ns.oldPath.getLast? ≠ some slash then [slash] else []
                if (ns.oldPath ++ joint ++ rest).length ≥ maxPath then none
                else some (ns.oldPath ++ joint ++ rest, { k with heapPos := heapPos })

def vfsReadDir (k : Kernel) (path : Str) (maxEntries : Nat) :
    Option (Option (List (Nat × Str)) × Kernel) :=
  match resolveNamespacePath k path with
  | none => none
  | some (resolved, k) =>
      match findMount resolved with
      | none => some (none, k)
      | some fs => (fsReadDir k resolved maxEntries fs).map fun dirents => (dirents, k)

/-- `create_namespace`; the three allocations are made before any is checked. -/
def createNamespace (heapPos : Nat) (old new : Str) (flags : Int) : Option Namespace × Nat :=
  match kalloc heapPos namespaceSize with
  | (none, heapPos) => (none, heapPos)
  | (some _, heapPos) =>
      let (oldAddr, heapPos) := kalloc heapPos (old.length + 1)
      let (newAddr, heapPos) := kalloc heapPos (new.length + 1)
      if oldAddr.isNone ∨ newAddr.isNone then (none, heapPos) else (some ⟨old, new, flags⟩, heapPos)

def bind (k : Kernel) (old new : Str) (flags : Int) : Option (Int × Kernel) :=
  match vfsReadDir k old 1 with
  | none => none
  | some (none, k) => some (-1, k)
  | some (some _, k) =>
      match vfsReadDir k new 1 with
      | none => none
      | some (none, k) => some (-1, k)
      | some (some _, k) =>
          match createNamespace k.heapPos old new flags with
          | (none, heapPos) => some (-1, { k with heapPos := heapPos })
          | (some ns, heapPos) =>
              let k := { k with heapPos := heapPos }
              match k.current with
              | none => some (0, k)
              | some p => some (0, k.setProc p { k.procs p with ns := ns :: (k.procs p).ns })

def unbind (k : Kernel) (path : Str) : Int × Kernel :=
  match k.current with
  | none => (-1, k)
  | some p =>
      if (k.procs p).ns.any fun ns => ns.newPath = path then
        (0, k.setProc p { k.procs p with
          ns := (k.procs p).ns.eraseP fun ns => ns.newPath = path })
      else (-1, k)

/-! Normalising the path of a directory change. -/

/-- The characters of `..` and of the name before it are taken back; `out` holds the buffer `temp`,
last byte first. -/
def dropSegment (out : Str) : Str :=
  if out.length > 1 then out.tail.dropWhile (· ≠ slash) else out

/-- The loop of `vfs_normalize_path`. A dot is dropped wherever a segment ends behind it, also at
the end of a name. -/
def normalizeLoop : Str → Str → Str
  | [], out => out
  | c :: src, out =>
      if c = slash then
        if out = [] ∨ out.head? = some slash then normalizeLoop src out
        else normalizeLoop src (slash :: out)
      else if c = 46 ∧ (src = [] ∨ src.head? = some slash) then normalizeLoop src out
      else
        match src with
        | d :: rest =>
            if c = 46 ∧ d = 46 ∧ (rest = [] ∨ rest.head? = some slash) then
              normalizeLoop rest (dropSegment out)
            else normalizeLoop (d :: rest) (c :: out)
        | [] => normalizeLoop [] (c :: out)

def vfsNormalizePath (path : Str) : Str :=
  let out := match path with
    | [] => normalizeLoop [] []
    | c :: src => if c = slash then normalizeLoop src [slash] else normalizeLoop path []
  if out = [] then [slash]
  else if out.length > 1 ∧ out.head? = some slash then out.tail.reverse
  else out.reverse

end Chthon
