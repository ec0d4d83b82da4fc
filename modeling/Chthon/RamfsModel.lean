import Chthon.AbyssModel

/-! The in-memory file system of `ramfs.c`: sixteen slots, each with its path stored beside its
contents. A handle keeps the index of its slot. -/

namespace Chthon

open ByteMemory

def maxFiles : Nat := 16
/-- `MAX_PATH` of `ramfs.c`. -/
def slotPath : Nat := 32
def maxContent : Nat := 4096

/-- `struct ramfs_file`. The arrays `path` and `content` lie one behind the other in `bytes`, so
that a path copied past its array runs into the contents. -/
structure RamfsFile where
  bytes : Memory
  size : Nat
  used : Bool

/-- The array `files`, by index. -/
abbrev Ramfs := Nat → RamfsFile

/-- `ramfs_init` -/
def ramfsInit : Ramfs := fun _ => ⟨fun _ => 0, 0, false⟩

def tmpPrefix : Str := ascii "/tmp/"

/-- The first slot in use whose path is `path`. -/
def ramfsFind (fs : Ramfs) (path : Str) : Option Nat :=
  (List.range maxFiles).find? fun i => (fs i).used && strEq (fs i).bytes 0 path

/-- The first slot not in use. -/
def ramfsFree (fs : Ramfs) : Option Nat := (List.range maxFiles).find? fun i => !(fs i).used

def ramfsOpen (heapPos : Nat) (fs : Ramfs) (path : Str) : Option VfsFile × Nat :=
  match ramfsFind fs path with
  | none => (none, heapPos)
  | some i =>
      match kalloc heapPos vfsFileSize with
      | (none, heapPos) => (none, heapPos)
      | (some _, heapPos) => (some ⟨.ramfs, i, 0⟩, heapPos)

/-- The path a new file is stored under. -/
def ramfsFullPath (path : Str) : Str :=
  if tmpPrefix.isPrefixOf path then path else tmpPrefix ++ path

def ramfsCreate (heapPos : Nat) (fs : Ramfs) (path : Str) :
    Option (Option VfsFile × Nat × Ramfs) :=
  let fullPath := ramfsFullPath path
  -- `full_path` is a buffer of 32 bytes on the stack
  if fullPath.length ≥ slotPath then none
  else
    match ramfsFree fs with
    | none => some (none, heapPos, fs)
    | some i =>
        let bytes := store (store (fs i).bytes 0 (fullPath ++ [0])) slotPath [0]
        match kalloc heapPos vfsFileSize with
        | (none, heapPos) => some (none, heapPos, Function.update fs i ⟨bytes, 0, false⟩)
        | (some _, heapPos) =>
            some (some ⟨.ramfs, i, 0⟩, heapPos, Function.update fs i ⟨bytes, 0, true⟩)

def ramfsUnlink (fs : Ramfs) (path : Str) : Int × Ramfs :=
  match ramfsFind fs path with
  | none => (-1, fs)
  | some i => (0, Function.update fs i { fs i with used := false, size := 0 })

def ramfsMkdir (fs : Ramfs) (path : Str) : Int × Ramfs :=
  match ramfsFree fs with
  | none => (-1, fs)
  | some i => (0, Function.update fs i ⟨store (fs i).bytes 0 (path ++ [0]), 0, true⟩)

/-- The bytes read, and the advanced handle. A sum that wraps leaves the count as it is, and the
copy runs out of the array. -/
def ramfsRead (fs : Ramfs) (file : VfsFile) (count : Nat) : Option (Str × VfsFile) :=
  let rf := fs file.privateData
  if file.fPos ≥ rf.size then some ([], file)
  else
    let count := if (file.fPos + count) % 2 ^ 64 > rf.size then rf.size - file.fPos else count
    if file.fPos + count > rf.size then none
    else some (load rf.bytes (slotPath + file.fPos) count, { file with fPos := file.fPos + count })

/-- A count that wraps, or a position past the contents, makes the copy run out of the array. -/
def ramfsWrite (fs : Ramfs) (file : VfsFile) (buf : Str) : Option (Nat × VfsFile × Ramfs) :=
  let rf := fs file.privateData
  let count := if (file.fPos + buf.length) % 2 ^ 64 > maxContent
    then (maxContent + 2 ^ 64 - file.fPos) % 2 ^ 64 else buf.length
  if count = 0 then some (0, file, fs)
  else if file.fPos + count > maxContent then none
  else
    let fPos := file.fPos + count
    some (count, { file with fPos := fPos }, Function.update fs file.privateData { rf with
      bytes := store rf.bytes (slotPath + file.fPos) (buf.take count)
      size := if fPos > rf.size then fPos else rf.size })

end Chthon
