import Chthon.AbyssContents
import Chthon.AbyssReach

/-! A file of AbyssFS under several writes. Each write goes to the beginning of the file's block and
adds its length to the size, so that the file reads as the concatenation only where the chunks
happen to overlap in that way. -/

namespace Chthon

open ByteMemory

/-- Chunks written one after the other through a handle. Of each, the part is kept that the count
returned to the caller covers. -/
def writeAll (file : VfsFile) : Abyssfs → List Str → List Str × Abyssfs
  | s, [] => ([], s)
  | s, chunk :: rest =>
      let (written, s) := abyssfsWrite s file chunk
      let (accepted, s) := writeAll file s rest
      (chunk.take written.toNat :: accepted, s)

/-- The file of the handle is the flat byte file `data`. -/
structure IsByteFile (s : Abyssfs) (file : VfsFile) (data : Str) : Prop where
  bytes : ∀ count < 2 ^ 64, (abyssfsRead s { file with fPos := 0 } count).map Prod.fst =
    some (some (data.take count))
  size_eq : size s.mem (inodeAddr file.privateData) = data.length
  bounded : size s.mem (inodeAddr file.privateData) ≤ blockSize
  inside : ∀ pos count bytes file', pos + count < 2 ^ 64 →
    abyssfsRead s { file with fPos := pos } count = some (some bytes, file') → bytes ≠ [] →
    pos + bytes.length ≤ blockSize

/-- The last of the chunks that reaches beyond position `i`. -/
def lastReaching (chunks : List Str) (i : Nat) : Option Str :=
  chunks.reverse.find? fun chunk => i < chunk.length

/-- The byte at `i` once every chunk has been laid over the beginning of `block`. -/
def overlayByte (block : Nat → UInt8) (chunks : List Str) (i : Nat) : UInt8 :=
  ((lastReaching chunks i).bind (·[i]?)).getD (block i)

/-- The chunks fit the block together, and at each position of their concatenation the last chunk
that reaches it, or else the old block, has the same byte. -/
def LaidInOrder (block : Nat → UInt8) (chunks : List Str) : Prop :=
  chunks.flatten.length ≤ blockSize ∧
    ∀ i < chunks.flatten.length, chunks.flatten[i]? = some (overlayByte block chunks i)

/-- What a write accepts: up to a block, and nothing if there is no block left to allocate. -/
def acceptedChunk (s : Abyssfs) (chunk : Str) : Str :=
  if (allocBlock s).1 = 0 then [] else chunk.take blockSize

/-! Laying chunks over each other. -/

theorem lastReaching_cons (chunk : Str) (chunks : List Str) (i : Nat) :
    lastReaching (chunk :: chunks) i =
      (lastReaching chunks i).or (if i < chunk.length then some chunk else none) := by
  rw [lastReaching, List.reverse_cons, List.find?_append, lastReaching, List.find?_singleton]
  simp only [decide_eq_true_eq]

/-- The first chunk may be laid over the block before the others are. -/
theorem overlayByte_cons (block : Nat → UInt8) (chunk : Str) (chunks : List Str) (i : Nat) :
    overlayByte block (chunk :: chunks) i =
      overlayByte (fun j => chunk[j]?.getD (block j)) chunks i := by
  rw [overlayByte, overlayByte, lastReaching_cons]
  cases hlast : lastReaching chunks i with
  | none =>
      rw [Option.none_or, Option.bind_none, Option.getD_none]
      split_ifs with hreach
      · rfl
      · rw [Option.bind_none, Option.getD_none, List.getElem?_eq_none (by omega), Option.getD_none]
  | some last =>
      have hreach : i < last.length := by
        have hp := List.find?_some hlast
        simpa using hp
      rw [Option.some_or, Option.bind_some, List.getElem?_eq_getElem hreach, Option.getD_some,
        Option.getD_some]

/-- A single chunk is laid in order. -/
theorem laidInOrder_single (block : Nat → UInt8) {chunk : Str} (h : chunk.length ≤ blockSize) :
    LaidInOrder block [chunk] := by
  rw [LaidInOrder, List.flatten_singleton]
  refine ⟨h, fun i hi => ?_⟩
  rw [overlayByte, lastReaching_cons, if_pos hi]
  simp [lastReaching, List.getElem?_eq_getElem hi]

/-! Single writes. -/

section Write

variable {s : Abyssfs} {file : VfsFile} {n b : Nat}

theorem take_accepted (chunk : Str) :
    chunk.take ((chunk.take 4096).length : Int).toNat = chunk.take 4096 := by
  rw [Int.toNat_natCast, List.length_take, ← List.take_eq_take_min]

theorem writtenFile_size (m : Memory) (data : Str) (hb : 9 ≤ b) (hn : n < 512) :
    size (writtenFile m n b data) (inodeAddr n) = (size m (inodeAddr n) + data.length) % 2 ^ 32 := by
  have hstored : size (store m (b * 4096) data) (inodeAddr n) = size m (inodeAddr n) :=
    read32_congr fun k hk => store_outside _ _ (by rw [inodeAddr_eq]; omega)
  have hlt : size m (inodeAddr n) < 2 ^ 32 := read32_lt _ _
  simp only [writtenFile, hstored]
  split_ifs with hpos
  · rw [size, read32_write32]
  · rw [hstored]
    omega

theorem writtenFile_byte (m : Memory) {data : Str} (hb : 9 ≤ b) (hn : n < 512) (i : Nat) :
    writtenFile m n b data (b * 4096 + i) = data[i]?.getD (m (b * 4096 + i)) := by
  have hstored : store m (b * 4096) data (b * 4096 + i) = data[i]?.getD (m (b * 4096 + i)) := by
    rw [store, if_pos (Nat.le_add_right _ _), Nat.add_sub_cancel_left]
  simp only [writtenFile]
  split_ifs
  · rw [write32_outside _ _ (by rw [inodeAddr_eq]; omega), hstored]
  · exact hstored

/-- Where a block is found, the first write goes on as if the file had had it before. -/
theorem abyssfsWrite_alloc (hfile : file.privateData = n) (hn : n < 512)
    (hzero : blocks s.mem (inodeAddr n) = 0) (hb9 : 9 ≤ b) (hb64 : b < 64)
    (halloc : allocBlock s = (b, s.take b)) (chunk : Str) :
    abyssfsWrite s file chunk =
      abyssfsWrite { s.take b with mem := write32 s.mem (inodeAddr n + 8) b } file chunk := by
  have hmod : file.privateData % 2 ^ 32 = n := by
    rw [hfile]
    omega
  have hnew : blocks (write32 s.mem (inodeAddr n + 8) b) (inodeAddr n) = b := by
    rw [blocks, read32_write32]
    omega
  have hfirst := writeToBlocks_of_alloc chunk hzero hb9 hb64 halloc
  have hlater := writeToBlocks_of_block (s := { s.take b with
    mem := write32 s.mem (inodeAddr n + 8) b }) chunk hnew (by omega) hb64
  simp only [abyssfsWrite, hmod, getInode_of_lt hn, hfirst, hlater]

/-- Writing chunks to a file that has a block. -/
theorem writeAll_block (hfile : file.privateData = n) (hn : n < 512) (hb9 : 9 ≤ b) (hb64 : b < 64)
    (chunks : List Str) : ∀ {s : Abyssfs}, blocks s.mem (inodeAddr n) = b →
    ∃ m, writeAll file s chunks = (chunks.map (List.take 4096), { s with mem := m }) ∧
      blocks m (inodeAddr n) = b ∧ mode m (inodeAddr n) = mode s.mem (inodeAddr n) ∧
      size m (inodeAddr n) = (size s.mem (inodeAddr n) +
        (chunks.map (List.take 4096)).flatten.length) % 2 ^ 32 ∧
      ∀ i, m (b * 4096 + i) =
        overlayByte (fun j => s.mem (b * 4096 + j)) (chunks.map (List.take 4096)) i := by
  induction chunks with
  | nil =>
      intro s hblock
      have hlt : size s.mem (inodeAddr n) < 2 ^ 32 := read32_lt _ _
      refine ⟨s.mem, rfl, hblock, rfl, ?_, fun _ => rfl⟩
      rw [List.map_nil, List.flatten_nil, List.length_nil]
      omega
  | cons chunk rest ih =>
      intro s hblock
      obtain ⟨hzero, _⟩ | ⟨_, hzero, _⟩ | ⟨-, hcall⟩ :=
        abyssfsWrite_cases s file chunk hfile hn (by omega)
      · omega
      · omega
      rw [hblock] at hcall
      set m₁ := writtenFile s.mem n b (chunk.take 4096) with hm₁
      obtain ⟨m, hrest, hblock', hmode, hsize, hbytes⟩ := ih (s := { s with mem := m₁ })
        ((writtenFile_blocks s.mem hb9 hn).trans hblock)
      refine ⟨m, ?_, hblock', hmode.trans (writtenFile_mode s.mem hb9 hn), ?_, fun i => ?_⟩
      · simp only [writeAll, hcall, hrest, take_accepted, List.map_cons]
      · have hfirst := writtenFile_size s.mem (chunk.take 4096) hb9 hn
        simp only [hsize, List.map_cons, List.flatten_cons, List.length_append]
        rw [hfirst]
        omega
      · rw [hbytes, List.map_cons, overlayByte_cons]
        congr 1
        funext j
        exact writtenFile_byte s.mem hb9 hn j

/-- No read goes past the size. -/
theorem abyssfsRead_end {file' : VfsFile} {count : Nat} {bytes : Str} (hfile : file.privateData = n)
    (hn : n < 512) (hcount : file.fPos + count < 2 ^ 64)
    (h : abyssfsRead s file count = some (some bytes, file')) (hne : bytes ≠ []) :
    file.fPos + bytes.length ≤ size s.mem (inodeAddr n) := by
  have hmod : file.privateData % 2 ^ 32 = n := by
    rw [hfile]
    omega
  rw [abyssfsRead, hmod, getInode_of_lt hn] at h
  simp only [Nat.mod_eq_of_lt hcount] at h
  split_ifs at h with hend hover hpast <;> cases h
  · exact absurd rfl hne
  · rw [load_length]
    omega
  · rw [load_length]
    omega

/-- A file with a block that holds `data` is the byte file `data`, and the other way round. -/
theorem isByteFile_iff (hfile : file.privateData = n) (hn : n < 512)
    (hmode : mode s.mem (inodeAddr n) ≠ 0) (hblock : blocks s.mem (inodeAddr n) < 64)
    {data : Str} (hsome : data ≠ [] → blocks s.mem (inodeAddr n) ≠ 0)
    (hsize : size s.mem (inodeAddr n) = data.length % 2 ^ 32) :
    IsByteFile s file data ↔ data.length ≤ 4096 ∧ ∀ i < data.length,
      data[i]? = some (s.mem (blocks s.mem (inodeAddr n) * 4096 + i)) := by
  constructor
  · intro h
    have hlen : data.length ≤ 4096 := by
      have hbounded := h.bounded
      rwa [h.size_eq] at hbounded
    refine ⟨hlen, fun i hi => ?_⟩
    -- the whole file, read from the beginning
    have hread := h.bytes data.length (by omega)
    have hmod : file.privateData % 2 ^ 32 = n := by
      rw [hfile]
      omega
    have haddr : blocks s.mem (inodeAddr n) * 4096 % 2 ^ 32 = blocks s.mem (inodeAddr n) * 4096 :=
      Nat.mod_eq_of_lt (by omega)
    rw [List.take_length, abyssfsRead, hmod, getInode_of_lt hn] at hread
    simp only [hsize, blockSize_eq, haddr, Nat.zero_add, Nat.add_zero,
      Nat.mod_eq_of_lt (show data.length < 2 ^ 32 by omega),
      Nat.mod_eq_of_lt (show data.length < 2 ^ 64 by omega), gt_iff_lt, lt_irrefl, if_false] at hread
    rw [if_neg (by omega)] at hread
    simp only [Option.map_some, Option.some.injEq] at hread
    rw [← hread, List.getElem?_eq_getElem (by rw [load_length]; exact hi), load_getElem]
  · rintro ⟨hlen, hbytes⟩
    have hsize' : size s.mem (inodeAddr n) = data.length := by
      rw [hsize]
      omega
    have hholds : FileHolds s n data := by
      refine ⟨hmode, hsize', hlen, hsome, ?_⟩
      apply List.ext_getElem? fun i => ?_
      by_cases hi : i < data.length
      · rw [hbytes i hi, List.getElem?_eq_getElem (by rw [load_length]; exact hi), load_getElem]
      · rw [List.getElem?_eq_none (by rw [load_length]; omega), List.getElem?_eq_none (by omega)]
    refine ⟨fun count hcount => ?_, by rw [hfile]; exact hsize', ?_, ?_⟩
    · exact hholds.read hn hblock { file with fPos := 0 } hfile (by dsimp only; omega)
    · rw [hfile, hsize']
      exact hlen
    · intro pos count bytes file' hcount hread hne
      have hmoved : ({ file with fPos := pos } : VfsFile).privateData = n := hfile
      have hend := abyssfsRead_end hmoved hn hcount hread hne
      rw [hsize'] at hend
      exact hend.trans hlen

end Write

/-! A created file. -/

section Created

variable {s s' : Abyssfs} {file : VfsFile}

/-- The handle of a create is on an empty file without a block. -/
structure EmptyFile (s : Abyssfs) (file : VfsFile) : Prop where
  inode : file.privateData < 512
  inUse : mode s.mem (inodeAddr file.privateData) ≠ 0
  size_eq : size s.mem (inodeAddr file.privateData) = 0
  noBlock : blocks s.mem (inodeAddr file.privateData) = 0

theorem BlocksInRange.created (h : BlocksInRange s.mem) {heapPos heapPos' : Nat}
    {cwd : Option Str} {path : Str}
    (hcall : abyssfsCreate heapPos s cwd path = some (some file, heapPos', s')) :
    EmptyFile s' file := by
  rcases abyssfsCreate_cases hcall with ⟨hnone, _⟩ | ⟨i, hi1, hi, _, _, ⟨hnone, _⟩ |
    ⟨p, filename, b, e, m', hparent, hdir, happend, rfl, hnone | hfile⟩⟩
  · cases hnone
  · cases hnone
  · cases hnone
  obtain rfl := Option.some.inj hfile
  have hb := (h.fresh i).directory (createParent_addr hparent).1 hdir
  have hsame : SameInode (freshInode s.mem i) m' i :=
    SameInode.of_data hi (appendEntry_table happend hb)
  refine ⟨hi, ?_, ?_, ?_⟩
  · dsimp only
    rw [hsame.mode, freshInode_mode]
    decide
  · exact hsame.size.trans (freshInode_size s.mem i)
  · exact hsame.blocks.trans (freshInode_blocks s.mem i)

theorem EmptyFile.write_full (h : EmptyFile s file)
    (hfull : ∀ b, 9 ≤ b → b < 64 → s.used b = true) (chunk : Str) :
    abyssfsWrite s file chunk = (0, s) := by
  rcases abyssfsWrite_cases s file chunk rfl h.inode (by rw [h.noBlock]; omega) with
    ⟨_, _, hcall⟩ | ⟨b, _, hb9, hb64, hunused, _⟩ | ⟨hblock, _⟩
  · exact hcall
  · rw [hfull b hb9 hb64] at hunused
    cases hunused
  · exact absurd h.noBlock hblock

/-- On a full disk nothing is accepted. -/
theorem EmptyFile.writeAll_full (h : EmptyFile s file) (hfull : (allocBlock s).1 = 0)
    (chunks : List Str) : writeAll file s chunks = (chunks.map fun _ => [], s) := by
  induction chunks with
  | nil => rfl
  | cons chunk rest ih =>
      have hall : ∀ b, 9 ≤ b → b < 64 → s.used b = true := by
        rcases allocBlock_cases s with ⟨_, hall⟩ | ⟨c, hc, _, _, halloc⟩
        · exact hall
        · rw [halloc] at hfull
          dsimp only at hfull
          omega
      simp only [writeAll, h.write_full hall chunk, ih, Int.toNat_zero, List.take_zero, List.map_cons]

theorem EmptyFile.byteFile_iff (h : EmptyFile s file) (chunks : List Str) :
    (writeAll file s chunks).1 = chunks.map (acceptedChunk s) ∧
      (IsByteFile (writeAll file s chunks).2 file (writeAll file s chunks).1.flatten ↔
        LaidInOrder (fun i => s.mem ((allocBlock s).1 * blockSize + i))
          (chunks.map (acceptedChunk s))) := by
  have hnothing : ∀ {accepted : List Str}, accepted.flatten = [] → ∀ block,
      (IsByteFile s file accepted.flatten ↔ LaidInOrder block accepted) := by
    intro accepted hempty block
    rw [isByteFile_iff rfl h.inode h.inUse (by rw [h.noBlock]; omega) (by simp [hempty])
      (by simp [hempty, h.size_eq]), LaidInOrder]
    simp [hempty]
  rcases allocBlock_cases s with ⟨halloc, _⟩ | ⟨b, hb9, hb64, _, halloc⟩
  · have haccepted : chunks.map (acceptedChunk s) = chunks.map fun _ => [] :=
      List.map_congr_left fun chunk _ => by rw [acceptedChunk, halloc, if_pos rfl]
    rw [h.writeAll_full (by rw [halloc]) chunks, haccepted]
    exact ⟨rfl, hnothing (by simp) _⟩
  · have hb : (allocBlock s).1 = b := by rw [halloc]
    have haccepted : chunks.map (acceptedChunk s) = chunks.map (List.take 4096) :=
      List.map_congr_left fun chunk _ => by rw [acceptedChunk, hb, if_neg (by omega), blockSize_eq]
    rw [haccepted, hb]
    cases chunks with
    | nil => exact ⟨rfl, hnothing rfl _⟩
    | cons chunk rest =>
        set s₁ : Abyssfs := { s.take b with
          mem := write32 s.mem (inodeAddr file.privateData + 8) b } with hs₁
        have hwrite : writeAll file s (chunk :: rest) = writeAll file s₁ (chunk :: rest) := by
          rw [writeAll, writeAll, abyssfsWrite_alloc rfl h.inode h.noBlock hb9 hb64 halloc]
        have hblock : blocks s₁.mem (inodeAddr file.privateData) = b := by
          rw [hs₁, blocks, read32_write32]
          omega
        have hmode : mode s₁.mem (inodeAddr file.privateData) =
            mode s.mem (inodeAddr file.privateData) :=
          read32_write32_of_disjoint _ _ (by omega)
        have hsize : size s₁.mem (inodeAddr file.privateData) = 0 := by
          rw [← h.size_eq]
          exact read32_write32_of_disjoint _ _ (by omega)
        have hold : (fun i => s₁.mem (b * 4096 + i)) = fun i => s.mem (b * blockSize + i) := by
          funext i
          have hn := h.inode
          exact write32_outside _ _ (by rw [inodeAddr_eq]; omega)
        obtain ⟨m, hall, hblock', hmode', hsize', hbytes⟩ :=
          writeAll_block rfl h.inode hb9 hb64 (chunk :: rest) hblock
        rw [hwrite, hall]
        refine ⟨rfl, ?_⟩
        rw [hsize, Nat.zero_add] at hsize'
        rw [isByteFile_iff rfl h.inode (by rw [hmode', hmode]; exact h.inUse)
          (by dsimp only; omega) (fun _ => by dsimp only; omega) hsize', LaidInOrder, ← hold]
        simp only [hblock', hbytes, blockSize_eq]

end Created

/-- On any volume, a file that is created and then written through its handle is the flat byte file
of what the writes accepted exactly if the chunks are laid in order. -/
theorem byte_file_iff (s₀ : Abyssfs) (h : AbyssReached s₀) (heapPos heapPos' : Nat)
    (cwd : Option Str) (path : CString) (file : VfsFile) (s : Abyssfs)
    (hcreate : abyssfsCreate heapPos s₀ cwd path.chars = some (some file, heapPos', s))
    (chunks : List Str) :
    (writeAll file s chunks).1 = chunks.map (acceptedChunk s) ∧
      (IsByteFile (writeAll file s chunks).2 file (writeAll file s chunks).1.flatten ↔
        LaidInOrder (fun i => s.mem ((allocBlock s).1 * blockSize + i))
          (chunks.map (acceptedChunk s))) :=
  (h.blocksInRange.created hcreate).byteFile_iff chunks

def notesName : CString := ⟨ascii "/notes", by decide⟩

/-- The first create on a new volume. -/
def firstFile : Option (Option VfsFile × Nat × Abyssfs) :=
  abyssfsCreate (bootVolume blankFs).heapPos (bootVolume blankFs).fs (some (ascii "/"))
    notesName.chars

/-- One write is read back. -/
theorem byte_file_one_write : ∃ file heapPos s, firstFile = some (some file, heapPos, s) ∧
    (writeAll file s [ascii "hello"]).1 = [ascii "hello"] ∧
      IsByteFile (writeAll file s [ascii "hello"]).2 file (ascii "hello") := by
  have hmade : (firstFile.bind Prod.fst).isSome := by decide +kernel
  cases hfirst : firstFile with
  | none => simp [hfirst] at hmade
  | some answer =>
      obtain ⟨file, heapPos, s⟩ := answer
      cases file with
      | none => simp [hfirst] at hmade
      | some file =>
          have hroom : firstFile.map (fun answer => (allocBlock answer.2.2).1) = some 10 := by
            decide +kernel
          rw [hfirst] at hroom
          have hb : (allocBlock s).1 = 10 := Option.some.inj hroom
          obtain ⟨haccepted, hiff⟩ := byte_file_iff (bootVolume blankFs).fs (.boot blankFs)
            (bootVolume blankFs).heapPos heapPos (some (ascii "/")) notesName file s hfirst
            [ascii "hello"]
          have hchunk : [ascii "hello"].map (acceptedChunk s) = [ascii "hello"] := by
            simp [acceptedChunk, hb, ascii]
          rw [hchunk] at haccepted hiff
          rw [haccepted] at hiff
          exact ⟨file, heapPos, s, rfl, haccepted,
            hiff.mpr (laidInOrder_single _ (by decide))⟩

/-- A second write lands on the first. -/
theorem second_write_overwrites :
    firstFile.map (fun answer =>
      answer.1.map fun file =>
        let after := writeAll file answer.2.2 [ascii "ab", ascii "cd"]
        (after.1, (abyssfsRead after.2 { file with fPos := 0 } 1024).map Prod.fst)) =
      some (some ([ascii "ab", ascii "cd"], some (some (ascii "cd" ++ [0, 0])))) ∧
    ¬∀ file heapPos s, firstFile = some (some file, heapPos, s) → ∀ chunks,
      IsByteFile (writeAll file s chunks).2 file (writeAll file s chunks).1.flatten := by
  have hrun : firstFile.map (fun answer =>
      answer.1.map fun file =>
        let after := writeAll file answer.2.2 [ascii "ab", ascii "cd"]
        (after.1, (abyssfsRead after.2 { file with fPos := 0 } 1024).map Prod.fst)) =
      some (some ([ascii "ab", ascii "cd"], some (some (ascii "cd" ++ [0, 0])))) := by
    decide +kernel
  refine ⟨hrun, fun hall => ?_⟩
  cases hfirst : firstFile with
  | none => simp [hfirst] at hrun
  | some answer =>
      obtain ⟨file, heapPos, s⟩ := answer
      cases file with
      | none => simp [hfirst] at hrun
      | some file =>
          rw [hfirst] at hrun
          simp only [Option.map_some, Option.some.injEq, Prod.mk.injEq] at hrun
          have hread := (hall file heapPos s hfirst [ascii "ab", ascii "cd"]).bytes 1024 (by decide)
          rw [hrun.1, hrun.2] at hread
          revert hread
          decide

end Chthon
