import Chthon.CString

/-! The block file system of `abyssfs.c`. Its 64 blocks are one byte-addressed memory, starting at
`abyssfs.blocks`; inodes and packed directory records are read and written in place, and a pointer
is its byte offset. Results are wrapped in `Option`: `none` is an execution the C code gives no
meaning to (a NULL dereference, an overrun stack buffer, a walk or a `memset` that runs off the
heap), while a returned NULL or -1 is an ordinary value. -/

namespace Chthon

open ByteMemory PathText

def blockSize : Nat := 4096
def totalBlocks : Nat := 64
def inodeBlocks : Nat := 8
def firstDataBlock : Nat := inodeBlocks + 1
def inodeSize : Nat := 64
def maxInodes : Nat := inodeBlocks * (blockSize / inodeSize)
def dirMode : Nat := 0x4000
def fileMode : Nat := 0x1FF
def heapSize : Nat := 1024 * 1024
def maxPath : Nat := 256
/-- `sizeof(struct vfs_file)` -/
def vfsFileSize : Nat := 304

/-- The mutable part of the file system: the bytes from `abyssfs.blocks` on, the bitmap and the
superblock's count of free blocks. The rest of the superblock is constant after `abyssfs_init`. -/
structure Abyssfs where
  mem : Memory
  blockBitmap : BitVec 64
  freeBlocks : Nat

/-- `f_ops`: which file system a handle belongs to. -/
inductive FileOps where
  | ramfs
  | abyssfs
  deriving DecidableEq

/-- The fields of `struct vfs_file` that are read back: an AbyssFS handle keeps an inode number in
`private_data`, a RAMFS handle the index of its slot. -/
structure VfsFile where
  fOps : FileOps
  privateData : Nat
  fPos : Nat
  deriving DecidableEq

/-- `kalloc`: the address handed out, if any, and the new `heap_pos`. -/
def kalloc (heapPos size : Nat) : Option Nat × Nat :=
  if (heapPos + size) % 2 ^ 64 > heapSize then (none, heapPos) else (some heapPos, heapPos + size)

/-- Both parameters and the result are `uint8_t`, so the sum wraps at 256. -/
def roundUp (val align : UInt8) : UInt8 := (val + align - 1) &&& ~~~(align - 1)

/-- `ABYSSFS_DIR_ENTRY_FIXED_SIZE + name_len + 1` rounded up to 4, as passed to `round_up`. -/
def minRecLen (nameLen : Nat) : UInt8 := roundUp (UInt8.ofNat (6 + nameLen + 1)) 4

def getBlock (blockNum : Nat) : Option Nat :=
  if blockNum ≥ totalBlocks then none else some (blockNum * blockSize)

def getInode (inodeNum : Nat) : Option Nat :=
  if inodeNum ≥ maxInodes then none
  else
    let inodesPerBlock := blockSize / inodeSize
    (getBlock (1 + inodeNum / inodesPerBlock)).map (· + inodeSize * (inodeNum % inodesPerBlock))

/-- The address `get_inode` computes for an index in range (`getInode_eq`). -/
def inodeAddr (inodeNum : Nat) : Nat := blockSize + inodeSize * inodeNum

def rootInode : Nat := inodeAddr 1

/-! Fields of `struct abyssfs_inode` at address `p` and of `struct abyssfs_dir_entry` at `e`. -/

def mode (m : Memory) (p : Nat) : Nat := read32 m p
def size (m : Memory) (p : Nat) : Nat := read32 m (p + 4)
def blocks (m : Memory) (p : Nat) : Nat := read32 m (p + 8)
def entryInode (m : Memory) (e : Nat) : Nat := read32 m e
def nameLen (m : Memory) (e : Nat) : Nat := (m (e + 4)).toNat
def recLen (m : Memory) (e : Nat) : Nat := (m (e + 5)).toNat
def entryName (e : Nat) : Nat := e + 6

/-- The bytes of a directory record: its four fields and the terminated name. -/
def recordBytes (inode : Nat) (nameLen recLen : UInt8) (name : Str) : Str :=
  le32 inode ++ nameLen :: recLen :: name ++ [0]

/-- The two entries every directory starts with. The length of the second is `BLOCK_SIZE - 8`
stored in one byte. -/
def initDirectory (m : Memory) (dir inode parent : Nat) : Memory :=
  let dotLen := roundUp (UInt8.ofNat (6 + 1 + 1)) 4
  let m := store m dir (recordBytes inode 1 dotLen (ascii "."))
  store m (dir + dotLen.toNat)
    (recordBytes parent 2 (UInt8.ofNat (blockSize - dotLen.toNat)) (ascii ".."))

def abyssfsInit (heapPos : Nat) (s : Abyssfs) : Nat × Abyssfs :=
  match kalloc heapPos (blockSize * totalBlocks) with
  | (none, heapPos) => (heapPos, s)
  | (some _, heapPos) =>
      let m := fill s.mem 0 (blockSize * totalBlocks) 0
      let m := (List.range inodeBlocks).foldl (fun m i => fill m (inodeAddr i) inodeSize 0) m
      let bitmap := (List.range (inodeBlocks + 1)).foldl (fun b i => b ||| BitVec.twoPow 64 i) 0
      let m := write32 m rootInode dirMode
      let m := write32 m (rootInode + 4) blockSize
      let m := write32 m (rootInode + 8) (inodeBlocks + 1)
      (heapPos, {
        mem := initDirectory m ((inodeBlocks + 1) * blockSize) 1 1
        blockBitmap := bitmap ||| BitVec.twoPow 64 (inodeBlocks + 1)
        freeBlocks := totalBlocks - inodeBlocks - 1 })

/-! Allocation. -/

def allocBlock (s : Abyssfs) : Nat × Abyssfs :=
  match (List.range' firstDataBlock (totalBlocks - firstDataBlock)).find?
      fun i => s.blockBitmap &&& BitVec.twoPow 64 i = 0 with
  | some i => (i, { s with
      blockBitmap := s.blockBitmap ||| BitVec.twoPow 64 i
      freeBlocks := (s.freeBlocks + (2 ^ 32 - 1)) % 2 ^ 32 })
  | none => (0, s)

def freeBlock (s : Abyssfs) (blockNum : Nat) : Abyssfs :=
  if blockNum < totalBlocks then { s with
    blockBitmap := s.blockBitmap &&& ~~~BitVec.twoPow 64 blockNum
    freeBlocks := (s.freeBlocks + 1) % 2 ^ 32 }
  else s

def allocInode (s : Abyssfs) : Nat × Abyssfs :=
  match (List.range' 1 (maxInodes - 1)).find? fun i => mode s.mem (inodeAddr i) = 0 with
  | some i => (i, { s with
      mem := write32 (fill s.mem (inodeAddr i) inodeSize 0) (inodeAddr i) fileMode })
  | none => (0, s)

/-! Directory walks. -/

/-- `while (dir && dir->rec_len > 0)` until a record named `token`. The walk is not bounded by the
block; one that outlasts the heap has no defined end. -/
def findEntry (m : Memory) (token : Str) : Nat → Nat → Option (Option Nat)
  | 0, _ => none
  | fuel + 1, dir =>
      if recLen m dir = 0 then some none
      else if strEq m (entryName dir) token then some (some dir)
      else findEntry m token fuel (dir + recLen m dir)

/-- The last record before `block_end` in the walks of `create_file` and `abyssfs_mkdir`. -/
def lastEntry (m : Memory) (blockEnd : Nat) : Nat → Nat → Option Nat → Option Nat
  | 0, _, prev => prev
  | fuel + 1, entry, prev =>
      if entry < blockEnd ∧ recLen m entry > 0 then
        lastEntry m blockEnd fuel (entry + recLen m entry) (some entry)
      else prev

/-- The loop over the tokens of `get_inode_by_path`; the current inode may be NULL. -/
def walkTokens (m : Memory) : List Str → Option Nat → Option (Option Nat)
  | [], inode => some inode
  | _ :: _, none => none
  | token :: rest, some inode =>
      if blocks m inode = 0 then some none
      else
        match getBlock (blocks m inode) with
        | none => some none
        | some dir =>
            match findEntry m token heapSize dir with
            | none => none
            | some none => some none
            | some (some entry) => walkTokens m rest (getInode (entryInode m entry))

def getInodeByPath (m : Memory) (path : Str) : Option (Option Nat) :=
  let path := skipSlash path
  if path = [] then some (some rootInode)
  else walkTokens m (tokens (path.take (maxPath - 1))) (some rootInode)

/-! Creating entries. -/

/-- The record `create_file` and `abyssfs_mkdir` write at `entry`. -/
def writeEntry (m : Memory) (entry inodeNum : Nat) (name : Str) : Memory :=
  let len := UInt8.ofNat name.length
  store m entry (recordBytes inodeNum len (minRecLen len.toNat) (name.take len.toNat))

/-- The tail that `create_file` and `abyssfs_mkdir` share: shrink the last record of the parent's
block, clear what follows and write the new record. The local `entry` is returned as well. -/
def appendEntry (m : Memory) (blockNum inodeNum : Nat) (name : Str) : Option (Nat × Memory) :=
  match getBlock blockNum with
  | none => none
  | some blockStart =>
      let blockEnd := blockStart + blockSize
      match lastEntry m blockEnd blockSize blockStart none with
      | none => some (blockStart, writeEntry m blockStart inodeNum name)
      | some prev =>
          let prevMin := minRecLen (nameLen m prev)
          let m := store m (prev + 5) [prevMin]
          let entry := prev + prevMin.toNat
          -- past the end the size argument of `memset` is negative
          if entry > blockEnd then none
          else some (entry, writeEntry (fill m entry (blockEnd - entry) 0) entry inodeNum name)

/-- The directory and file name `create_file` works with; `some none` is its first -1 exit. A name
without a slash belongs to the working directory of the current process, if there is one. -/
def createParent (m : Memory) (cwd : Option Str) (name : Str) : Option (Option (Nat × Str)) :=
  match splitLast slash (name.take (maxPath - 1)) with
  | some (dir, filename) =>
      if dir = [] then some (some (rootInode, filename))
      else (getInodeByPath m dir).map (·.map (·, filename))
  | none =>
      match cwd with
      | none => none
      | some cwd =>
          if cwd = ascii "/" then some (some (rootInode, name))
          else (getInodeByPath m cwd.tail).map (·.map (·, name))

/-- `dir_inode->blocks`, with the fallback both functions have for the root. -/
def directoryBlock (m : Memory) (dirInode : Nat) : Option Nat :=
  if blocks m dirInode = 0 then
    if dirInode = rootInode then some (inodeBlocks + 1) else none
  else some (blocks m dirInode)

def createFile (s : Abyssfs) (cwd : Option Str) (name : Str) (inodeNum : Nat) :
    Option (Int × Abyssfs) :=
  match createParent s.mem cwd name with
  | none => none
  | some none => some (-1, s)
  | some (some (dirInode, filename)) =>
      match directoryBlock s.mem dirInode with
      | none => some (-1, s)
      | some dirBlock =>
          (appendEntry s.mem dirBlock inodeNum filename).map fun (_, m) => (0, { s with mem := m })

/-- `abyssfs_create`: the new handle, if any. -/
def abyssfsCreate (heapPos : Nat) (s : Abyssfs) (cwd : Option Str) (path : Str) :
    Option (Option VfsFile × Nat × Abyssfs) :=
  match allocInode s with
  | (0, s) => some (none, heapPos, s)
  | (inodeNum, s) =>
      match createFile s cwd (skipSlash path) inodeNum with
      | none => none
      | some (result, s) =>
          if result < 0 then some (none, heapPos, s)
          else
            match kalloc heapPos vfsFileSize with
            | (none, heapPos) => some (none, heapPos, s)
            | (some _, heapPos) => some (some ⟨.abyssfs, inodeNum, 0⟩, heapPos, s)

/-- The handle is not bound to `path`: `private_data` is NULL and `f_pos` keeps the zero of fresh
heap memory. -/
def abyssfsOpen (heapPos : Nat) (_path : Str) : Option VfsFile × Nat :=
  match kalloc heapPos vfsFileSize with
  | (none, heapPos) => (none, heapPos)
  | (some _, heapPos) => (some ⟨.abyssfs, 0, 0⟩, heapPos)

/-- The search for the parent's number; it falls back to the root's. -/
def parentInodeNum (parent : Nat) : Nat :=
  ((List.range' 1 maxInodes).find? fun i => getInode i = some parent).getD 1

/-- The parent directory `abyssfs_mkdir` looks up, as pointer and number, with the base name;
`some none` is a -1 exit. -/
def mkdirParent (m : Memory) (path : Str) : Option (Option (Nat × Nat × Str)) :=
  if path.length ≥ maxPath then none
  else
    match splitLast slash path with
    | none => some none
    | some (parentPath, basename) =>
        if basename = [] then some none
        else if parentPath = [] ∨ parentPath = ascii "/" then some (some (rootInode, 1, basename))
        else
          (getInodeByPath m parentPath.tail).map (·.map fun p => (p, parentInodeNum p, basename))

def abyssfsMkdir (s : Abyssfs) (path : Str) : Option (Int × Abyssfs) :=
  match mkdirParent s.mem path with
  | none => none
  | some none => some (-1, s)
  | some (some (parent, parentNum, basename)) =>
      match allocInode s with
      | (0, s) => some (-1, s)
      | (inodeNum, s) =>
          match allocBlock s with
          | (0, s) => some (-1, s)
          | (dirBlock, s) =>
              let inode := inodeAddr inodeNum
              let m := write32 s.mem (inode + 8) dirBlock
              let m := write32 m (inode + 4) blockSize
              let m := write32 m inode (mode m inode ||| dirMode)
              let m := initDirectory m (dirBlock * blockSize) inodeNum parentNum
              let s := { s with mem := m }
              match directoryBlock m parent with
              | none => some (-1, s)
              | some parentBlock =>
                  (appendEntry m parentBlock inodeNum basename).map fun (_, m) =>
                    (0, { s with mem := m })

/-! Reading, writing and removing. -/

/-- The bytes read (`none` is -1) and the advanced handle. A sum that wraps leaves the count as it
is, and no buffer holds that many bytes. -/
def abyssfsRead (s : Abyssfs) (file : VfsFile) (count : Nat) : Option (Option Str × VfsFile) :=
  match getInode (file.privateData % 2 ^ 32) with
  | none => some (none, file)
  | some inode =>
      if file.fPos ≥ size s.mem inode then some (some [], file)
      else
        let count := if (file.fPos + count) % 2 ^ 64 > size s.mem inode
          then size s.mem inode - file.fPos else count
        if file.fPos + count > size s.mem inode then none
        else
          some (some (load s.mem (blocks s.mem inode * blockSize % 2 ^ 32 + file.fPos) count),
            { file with fPos := file.fPos + count })

def writeToBlocks (s : Abyssfs) (inode : Nat) (buf : Str) : Nat × Abyssfs :=
  let buf := buf.take blockSize
  if blocks s.mem inode = 0 then
    match allocBlock s with
    | (0, s) => (0, s)
    | (blockNum, s) =>
        let m := write32 s.mem (inode + 8) blockNum
        (buf.length, { s with mem := store m (blocks m inode * blockSize % 2 ^ 32) buf })
  else (buf.length, { s with mem := store s.mem (blocks s.mem inode * blockSize % 2 ^ 32) buf })

/-- Every write starts at the beginning of the block; the handle's position does not move. -/
def abyssfsWrite (s : Abyssfs) (file : VfsFile) (buf : Str) : Int × Abyssfs :=
  match getInode (file.privateData % 2 ^ 32) with
  | none => (-1, s)
  | some inode =>
      let (written, s) := writeToBlocks s inode buf
      if written > 0 then
        (written, { s with mem := write32 s.mem (inode + 4) (size s.mem inode + written) })
      else (written, s)

/-- Clearing the inode a record names and giving its block back. -/
def releaseInode (s : Abyssfs) (inodeNum : Nat) : Abyssfs :=
  match getInode inodeNum with
  | none => s
  | some inode =>
      let s := { s with mem := write32 s.mem inode 0 }
      if blocks s.mem inode = 0 then s else freeBlock s (blocks s.mem inode)

/-- Closing the gap of the record at `dir` in the block at `block`. -/
def removeEntry (m : Memory) (block dir : Nat) : Option Memory :=
  let next := dir + recLen m dir
  if recLen m next > 0 then
    if next > block + blockSize then none
    else some (move m dir next (blockSize - (next - block)))
  else some (fill m dir (recLen m dir) 0)

/-- The search runs over the root directory, whatever the path. -/
def abyssfsUnlink (s : Abyssfs) (path : Str) : Option (Int × Abyssfs) :=
  let rootBlock := (inodeBlocks + 1) * blockSize
  match findEntry s.mem (skipSlash path) heapSize rootBlock with
  | none => none
  | some none => some (-1, s)
  | some (some dir) =>
      let s := releaseInode s (entryInode s.mem dir)
      (removeEntry s.mem rootBlock dir).map fun m => (0, { s with mem := m })

end Chthon
