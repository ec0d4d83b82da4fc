import Chthon.CopyMessage
import Chthon.TrapReturn

/-! `MSG_READ`. The request goes through a buffer of 256 bytes in the kernel, and what the file system
put there is copied to the caller whole; the size in the message is set but never looked at. -/

namespace Chthon

open ByteMemory Run

/-- The bytes of the file behind a handle, as many as its size says. -/
def handleContents (k : Kernel) (file : VfsFile) : Option Str :=
  match file.fOps with
  | .ramfs => some (k.ramfs file.privateData).contents
  | .abyssfs => (getInode (file.privateData % 2 ^ 32)).map fun inode =>
      load k.abyss.mem (blocks k.abyss.mem inode * blockSize % 2 ^ 32) (size k.abyss.mem inode)

/-- An open descriptor, the bytes of its file, and RAMFS files no longer than their arrays. -/
structure ReadableAt (k : Kernel) (fd : Int) (file : VfsFile) (contents : Str) : Prop where
  handle : getFile k fd = some file
  contents : handleContents k file = some contents
  sizes : ∀ i, (k.ramfs i).size ≤ maxContent

/-- The next bytes of the file are at the caller's address, no more than the caller has room for; the
result is their number, and the position moves on by it. -/
structure ReadWithin (k : Kernel) (file : VfsFile) (contents : Str) (msg : Message) (result : Int)
    (k' : Kernel) (bytes : Str) : Prop where
  next : bytes = (contents.drop file.fPos).take bytes.length
  stored : k'.user = store k.user msg.data bytes
  room : bytes.length ≤ msg.size
  result : result = bytes.length
  position : getFile k' msg.fd = some { file with fPos := file.fPos + bytes.length }

/-- A read from `fd` into `size` bytes at `data`. -/
structure ReadRequest where
  data : Nat
  size : Nat

def ReadRequest.message (fd : Int) (req : ReadRequest) : Message :=
  ⟨MsgType.read.code, 0, 0, req.data, req.size, 0, fd, 0, 0, 0, 0, 0, 0⟩

/-- The bytes that a read leaves at the caller's address, by its result. -/
def readStep (out : Outside) (fd : Int) (k : Kernel) (req : ReadRequest) :
    Option (Str × Kernel) :=
  (sendMessage out k (req.message fd)).map fun (result, _, k') =>
    (load k'.user req.data result.toNat, k')

section Clamp

variable {m : ByteMemory.Memory} {base total pos count : Nat}

/-- Both file systems cut a count to what is left of the file. -/
theorem clamped_eq_min (hpos : pos < total) (hcount : count < 2 ^ 64)
    (htotal : total + count < 2 ^ 64) :
    (if (pos + count) % 2 ^ 64 > total then total - pos else count) = min count (total - pos) := by
  split_ifs <;> omega

theorem load_clamped (hpos : pos < total) : load m (base + pos) (min count (total - pos)) =
    ((load m base total).drop pos).take count := by
  rw [load_drop_take m base total pos _ (by omega), List.take_eq_take_iff, List.length_drop,
    load_length]
  omega

/-- What is taken from a text is as much of it as was taken. -/
theorem eq_take_length {text bytes : Str} (h : bytes = text.take count) :
    bytes = text.take bytes.length := by
  rw [h, List.length_take, List.take_eq_take_iff]
  omega

end Clamp

section Read

variable {k k' : Kernel} {fd : Int} {file : VfsFile} {contents : Str} {out : Outside}

/-- Behind the end there is nothing to read, and the position stays. -/
theorem read_past_end (contents : Str) (file : VfsFile) (count : Nat)
    (h : contents.length ≤ file.fPos) :
    (contents.drop file.fPos).take count = [] ∧
      { file with fPos := file.fPos + ((contents.drop file.fPos).take count).length } = file := by
  have hnil : (contents.drop file.fPos).take count = [] := by
    rw [List.drop_of_length_le h, List.take_nil]
  rw [hnil]
  exact ⟨rfl, rfl⟩

theorem ramfsRead_next (fs : Ramfs) (file : VfsFile) {count : Nat} (hcount : count < 2 ^ 32)
    (hsize : (fs file.privateData).size ≤ maxContent)
    (hcontents : (fs file.privateData).contents = contents) :
    ramfsRead fs file count = some ((contents.drop file.fPos).take count,
      { file with fPos := file.fPos + ((contents.drop file.fPos).take count).length }) := by
  by_cases hfits : file.fPos + count < 2 ^ 64
  · rw [← hcontents]
    exact ramfsRead_contents fs file hfits
  · have hlen := RamfsFile.contents_length (fs file.privateData)
    rw [hcontents] at hlen
    rw [maxContent] at hsize
    obtain ⟨hnil, hsame⟩ := read_past_end contents file count (by omega)
    rw [hsame, hnil, ramfsRead, if_pos (by omega)]

theorem abyssfsRead_next (s : Abyssfs) (file : VfsFile) {count inode : Nat} (hcount : count < 2 ^ 32)
    (hinode : getInode (file.privateData % 2 ^ 32) = some inode)
    (hcontents : load s.mem (blocks s.mem inode * blockSize % 2 ^ 32) (size s.mem inode) = contents) :
    abyssfsRead s file count = some (some ((contents.drop file.fPos).take count),
      { file with fPos := file.fPos + ((contents.drop file.fPos).take count).length }) := by
  have hlen : contents.length = size s.mem inode := by rw [← hcontents, load_length]
  have hsize : size s.mem inode < 2 ^ 32 := read32_lt s.mem (inode + 4)
  simp only [abyssfsRead, hinode]
  by_cases hend : file.fPos ≥ size s.mem inode
  · obtain ⟨hnil, hsame⟩ := read_past_end contents file count (by omega)
    rw [if_pos hend, hsame, hnil]
  · rw [if_neg hend, clamped_eq_min (by omega) (by omega) (by omega), if_neg (by omega),
      load_clamped (by omega), hcontents, List.length_take, List.length_drop, hlen]

/-- Either file system reads the next bytes of the file. -/
theorem ReadableAt.vfsRead (h : ReadableAt k fd file contents) (count : Nat)
    (hcount : count < 2 ^ 32) :
    vfsRead k fd count = some (some ((contents.drop file.fPos).take count),
      k.setFile fd (some { file with
        fPos := file.fPos + ((contents.drop file.fPos).take count).length })) := by
  have hcontents := h.contents
  rw [handleContents] at hcontents
  unfold Chthon.vfsRead
  simp only [h.handle]
  cases hops : file.fOps with
  | ramfs =>
      simp only [hops, Option.some.injEq] at hcontents
      simp only [ramfsRead_next k.ramfs file hcount (h.sizes _) hcontents, Option.map_some, hops]
  | abyssfs =>
      simp only [hops, Option.map_eq_some_iff] at hcontents
      obtain ⟨inode, hinode, hcontents⟩ := hcontents
      simp only [abyssfsRead_next k.abyss file hcount hinode hcontents, Option.map_some, hops]

/-- What `MSG_READ` does: the next 256 bytes, or what is left, go to the caller. -/
theorem ReadableAt.sendMessage (h : ReadableAt k fd file contents) (out : Outside) (msg : Message)
    (htype : MsgType.all[msg.type]? = some .read) (hfd : msg.fd = fd) :
    ∃ msg' k', sendMessage out k msg =
        some ((((contents.drop file.fPos).take 256).length : Int), msg', k') ∧
      k'.user = store k.user msg.data ((contents.drop file.fPos).take 256) ∧
      getFile k' fd = some { file with
        fPos := file.fPos + ((contents.drop file.fPos).take 256).length } ∧
      k'.ramfs = k.ramfs ∧ k'.abyss = k.abyss := by
  have hread := h.vfsRead 256 (by decide)
  obtain ⟨moved, hmoved⟩ : ∃ moved, { file with
    fPos := file.fPos + ((contents.drop file.fPos).take 256).length } = moved := ⟨_, rfl⟩
  have hhandle : getFile (k.setFile fd (some moved)) fd = some moved := getFile_setFile h.handle
  unfold Chthon.sendMessage
  rw [hmoved] at hread ⊢
  simp only [htype, hfd, hread, Option.map_some]
  cases (contents.drop file.fPos).take 256 with
  | nil => exact ⟨msg, _, rfl, (store_nil _ _).symm, hhandle, rfl, rfl⟩
  | cons c cs => exact ⟨_, _, rfl, rfl, hhandle, rfl, rfl⟩

/-- A read that meets the caller's size is one whose bytes fit there. -/
theorem ReadableAt.within_iff (h : ReadableAt k fd file contents) {msg : Message}
    (htype : MsgType.all[msg.type]? = some .read) (hfd : msg.fd = fd) :
    ∃ result msg' k', Chthon.sendMessage out k msg = some (result, msg', k') ∧
      ((∃ bytes, ReadWithin k file contents msg result k' bytes) ↔
        min 256 (contents.length - file.fPos) ≤ msg.size) := by
  obtain ⟨msg', k', hsend, hstored, hposition, -, -⟩ := h.sendMessage out msg htype hfd
  have hlen : ((contents.drop file.fPos).take 256).length =
      min 256 (contents.length - file.fPos) := by
    rw [List.length_take, List.length_drop]
  refine ⟨_, msg', k', hsend, ?_⟩
  constructor
  · rintro ⟨bytes, hwithin⟩
    have hsame : ((contents.drop file.fPos).take 256).length = bytes.length :=
      Int.ofNat_inj.mp hwithin.result
    rw [← hlen, hsame]
    exact hwithin.room
  · intro hroom
    exact ⟨_, eq_take_length rfl, hstored, hlen ▸ hroom, rfl, hfd ▸ hposition⟩

/-- A read leaves the next bytes with the caller and the file as it was. -/
theorem ReadableAt.readStep (h : ReadableAt k fd file contents) {req : ReadRequest} {bytes : Str}
    (hstep : readStep out fd k req = some (bytes, k')) :
    bytes = (contents.drop file.fPos).take 256 ∧
      ReadableAt k' fd { file with fPos := file.fPos + bytes.length } contents := by
  obtain ⟨msg', k₁, hsend, hstored, hposition, hramfs, habyss⟩ :=
    h.sendMessage out (req.message fd) rfl rfl
  rw [Chthon.readStep, hsend, Option.map_some, Option.some.injEq, Prod.mk.injEq] at hstep
  obtain ⟨hbytes, rfl⟩ := hstep
  rw [hstored, Int.toNat_natCast] at hbytes
  have hnext : bytes = (contents.drop file.fPos).take 256 := hbytes.symm.trans (load_store _ _ _)
  refine ⟨hnext, hnext ▸ hposition, ?_, fun i => hramfs ▸ h.sizes i⟩
  rw [← h.contents, handleContents, handleContents, hramfs, habyss]

/-- After a run of reads the caller has the bytes up to the position. -/
theorem ReadableAt.run (h : ReadableAt k fd file contents) {trace : List (ReadRequest × Str)}
    (hrun : Steps (Chthon.readStep out fd) (fun _ _ => True) k trace k') :
    ReadableAt k' fd
        { file with fPos := file.fPos + (trace.map Prod.snd).flatten.length } contents ∧
      (trace.map Prod.snd).flatten =
        (contents.drop file.fPos).take (trace.map Prod.snd).flatten.length := by
  induction hrun with
  | nil => exact ⟨h, rfl⟩
  | @snoc trace t u req bytes _ _ taken ih =>
      obtain ⟨hreadable, hsofar⟩ := ih
      obtain ⟨hbytes, hreadable'⟩ := hreadable.readStep taken
      have hflat : ((trace ++ [(req, bytes)]).map Prod.snd).flatten =
          (trace.map Prod.snd).flatten ++ bytes := by simp
      rw [hflat, List.length_append]
      refine ⟨by simpa only [Nat.add_assoc] using hreadable', ?_⟩
      rw [List.take_add, List.drop_drop, ← eq_take_length hbytes, ← hsofar]

/-- A read respects the caller's buffer just when the rest of the file, or 256 bytes of it, fit there.
Reads in a row always deliver the file from the position on, up to the end once one brings nothing. -/
theorem read_message_iff (out : Outside) (k : Kernel) (fd : Int) (file : VfsFile) (contents : Str)
    (h : ReadableAt k fd file contents) :
    (∀ msg, MsgType.all[msg.type]? = some .read → msg.fd = fd →
      ∃ result msg' k', sendMessage out k msg = some (result, msg', k') ∧
        ((∃ bytes, ReadWithin k file contents msg result k' bytes) ↔
          min 256 (contents.length - file.fPos) ≤ msg.size)) ∧
    ∀ trace k', Steps (readStep out fd) (fun _ _ => True) k trace k' →
      (trace.map Prod.snd).flatten <+: contents.drop file.fPos ∧
      ∀ prior req, trace = prior ++ [(req, [])] →
        (trace.map Prod.snd).flatten = contents.drop file.fPos := by
  refine ⟨fun msg htype hfd => h.within_iff htype hfd, fun trace k' hrun => ?_⟩
  refine ⟨(h.run hrun).2 ▸ List.take_prefix _ _, fun prior req hlast => ?_⟩
  cases hrun with
  | nil => simp at hlast
  | @snoc trace t u req' bytes before _ taken =>
      obtain ⟨-, hevent⟩ := List.append_inj' hlast rfl
      cases hevent
      obtain ⟨hreadable, hall⟩ := h.run before
      have hnext := (hreadable.readStep taken).1
      have hend := List.take_eq_nil_iff.mp hnext.symm
      rw [or_iff_right (by decide), List.drop_eq_nil_iff] at hend
      dsimp only at hend
      rw [List.map_append, List.flatten_append, hall, List.take_of_length_le]
      · simp
      · rw [List.length_drop]
        omega

end Read

/-- Descriptor 0 is open on a RAMFS file of a hundred bytes. -/
def openedKernel : Kernel :=
  { shellKernel fun _ => 0 with
    ramfs := fun _ => ⟨fun _ => 97, 100, true⟩
    fdTable := fun _ => some ⟨.ramfs, 0, 0⟩ }

def openedContents : Str := List.replicate 100 97

theorem openedKernel_readable : ReadableAt openedKernel 0 ⟨.ramfs, 0, 0⟩ openedContents where
  handle := rfl
  contents := by decide
  sizes _ := by
    show 100 ≤ maxContent
    decide

theorem read_message_opened :
    (∀ msg, MsgType.all[msg.type]? = some .read → msg.fd = 0 →
      ∃ result msg' k', sendMessage quietOutside openedKernel msg = some (result, msg', k') ∧
        ((∃ bytes, ReadWithin openedKernel ⟨.ramfs, 0, 0⟩ openedContents msg result k' bytes) ↔
          min 256 (openedContents.length - 0) ≤ msg.size)) ∧
    ∀ trace k', Steps (readStep quietOutside 0) (fun _ _ => True) openedKernel trace k' →
      (trace.map Prod.snd).flatten <+: openedContents.drop 0 ∧
      ∀ prior req, trace = prior ++ [(req, [])] →
        (trace.map Prod.snd).flatten = openedContents.drop 0 :=
  read_message_iff quietOutside openedKernel 0 ⟨.ramfs, 0, 0⟩ openedContents openedKernel_readable

/-- A buffer of 64 bytes is given a hundred. -/
theorem read_past_buffer : ¬ ∀ (out : Outside) (k : Kernel) (fd : Int) (file : VfsFile)
    (contents : Str), ReadableAt k fd file contents → ∀ msg,
      MsgType.all[msg.type]? = some .read → msg.fd = fd →
        ∃ result msg' k', sendMessage out k msg = some (result, msg', k') ∧
          ∃ bytes, ReadWithin k file contents msg result k' bytes := by
  intro h
  obtain ⟨result, msg', k', hsend, bytes, hwithin⟩ := h quietOutside openedKernel 0 ⟨.ramfs, 0, 0⟩
    openedContents openedKernel_readable (ReadRequest.message 0 ⟨4096, 64⟩) rfl rfl
  have hresult : (sendMessage quietOutside openedKernel (ReadRequest.message 0 ⟨4096, 64⟩)).map
      Prod.fst = some 100 := by decide +kernel
  rw [hsend, Option.map_some, Option.some.injEq] at hresult
  have hroom := hwithin.room
  have hlen := hwithin.result
  simp only [ReadRequest.message] at hroom
  omega

end Chthon
