import Chthon.RamfsNames

/-! The slots of RAMFS as flat files. All handles on a slot share its contents, and each has a
position of its own. -/

namespace Chthon

open ByteMemory Run FlatFile

/-- `ramfs_create_file`, for files the kernel brings along. Both texts are cut to their arrays. -/
def ramfsCreateFile (fs : Ramfs) (path content : Str) : Int × Ramfs :=
  match ramfsFree fs with
  | none => (-1, fs)
  | some i =>
      let bytes := store (fs i).bytes 0 (path.take (slotPath - 1) ++ [0])
      (0, Function.update fs i
        ⟨store bytes slotPath (content.take (maxContent - 1) ++ [0]),
          (content.take (maxContent - 1)).length, true⟩)

/-- The slots as the functions of `ramfs.c` can leave them, through any handle. -/
inductive RamfsReached : Ramfs → Prop
  | init : RamfsReached ramfsInit
  | createFile {fs : Ramfs} (prior : RamfsReached fs) (path content : Str) :
      RamfsReached (ramfsCreateFile fs path content).2
  | create {fs fs' : Ramfs} {heapPos heapPos' : Nat} {path : Str} {file : Option VfsFile}
      (prior : RamfsReached fs) (call : ramfsCreate heapPos fs path = some (file, heapPos', fs')) :
      RamfsReached fs'
  | mkdir {fs : Ramfs} (prior : RamfsReached fs) (path : Str) : RamfsReached (ramfsMkdir fs path).2
  | unlink {fs : Ramfs} (prior : RamfsReached fs) (path : Str) :
      RamfsReached (ramfsUnlink fs path).2
  | write {fs fs' : Ramfs} {file file' : VfsFile} {data : Str} {count : Nat}
      (prior : RamfsReached fs) (call : ramfsWrite fs file data = some (count, file', fs')) :
      RamfsReached fs'

/-- The bytes of a file. -/
def RamfsFile.contents (rf : RamfsFile) : Str := load rf.bytes slotPath rf.size

theorem RamfsFile.contents_length (rf : RamfsFile) : rf.contents.length = rf.size :=
  load_length _ _ _

/-! One slot and the handles on it. -/

structure SlotSession where
  fs : Ramfs
  handles : List VfsFile

inductive SlotOp where
  /-- A handle is returned by `ramfs_open` or `ramfs_create`. -/
  | openHandle
  | read (handle count : Nat)
  | write (handle : Nat) (data : Str)
  /-- Anything that leaves this slot alone. -/
  | elsewhere (fs : Ramfs)

/-- The reply is the return value and the bytes that were read. -/
def slotStep (slot : Nat) (s : SlotSession) : SlotOp → Option ((Nat × Str) × SlotSession)
  | .openHandle => some ((0, []), { s with handles := s.handles ++ [⟨.ramfs, slot, 0⟩] })
  | .read handle count =>
      s.handles[handle]?.bind fun file => (ramfsRead s.fs file count).map fun (bytes, file) =>
        ((bytes.length, bytes), { s with handles := s.handles.set handle file })
  | .write handle data =>
      s.handles[handle]?.bind fun file => (ramfsWrite s.fs file data).map fun (count, file, fs) =>
        ((count, []), ⟨fs, s.handles.set handle file⟩)
  | .elsewhere fs => some ((0, []), { s with fs := Function.update fs slot (s.fs slot) })

/-- Position and count do not wrap. -/
def SlotOp.Fits (s : SlotSession) : SlotOp → Prop
  | .read handle count => ∀ file ∈ s.handles[handle]?, file.fPos + count < 2 ^ 64
  | .write handle data => ∀ file ∈ s.handles[handle]?, file.fPos + data.length < 2 ^ 64
  | _ => True

/-- The same operations on a flat file of `maxContent` bytes. -/
def flatStep (f : File UInt8 maxContent) : SlotOp → Option ((Nat × Str) × File UInt8 maxContent)
  | .openHandle => some ((0, []), f.openCursor)
  | .read handle count => (f.read handle count).map fun (bytes, f) => ((bytes.length, bytes), f)
  | .write handle data => (f.write handle data).map fun (count, f) => ((count, []), f)
  | .elsewhere _ => some ((0, []), f)

structure SlotIs (slot : Nat) (s : SlotSession) (f : File UInt8 maxContent) : Prop where
  contents : (s.fs slot).contents = f.contents
  handles : s.handles = f.cursors.map fun pos => ⟨.ramfs, slot, pos⟩

/-! What single calls do to a slot. -/

section Calls

variable {fs fs' : Ramfs} {file file' : VfsFile}

theorem ramfsRead_contents (fs : Ramfs) (file : VfsFile) {count : Nat}
    (hfits : file.fPos + count < 2 ^ 64) :
    ramfsRead fs file count =
      some (((fs file.privateData).contents.drop file.fPos).take count,
        { file with fPos := file.fPos +
          (((fs file.privateData).contents.drop file.fPos).take count).length }) :=
  ramfsRead_load fs file hfits rfl

theorem RamfsFile.contents_write (rf : RamfsFile) {pos : Nat} (data : Str) (hpos : pos ≤ rf.size)
    {size : Nat} (hsize : size = max rf.size (pos + data.length)) :
    load (store rf.bytes (slotPath + pos) data) slotPath size = patch rf.contents pos data := by
  have hbytes : load rf.bytes slotPath rf.contents.length = rf.contents := by
    rw [rf.contents_length]
    rfl
  rw [hsize, ← rf.contents_length]
  exact load_patch data (by rwa [rf.contents_length]) hbytes

theorem larger_eq_max (a b : Nat) : (if a > b then a else b) = max b a := by
  split_ifs <;> omega

/-- A write changes its own slot only, and there neither the path nor whether it is in use. -/
theorem ramfsWrite_contents (fs : Ramfs) (file : VfsFile) {data : Str}
    (hpos : file.fPos ≤ (fs file.privateData).size)
    (hsize : (fs file.privateData).size ≤ maxContent) (hfits : file.fPos + data.length < 2 ^ 64) :
    ∃ rf, ramfsWrite fs file data = some ((File.fitting maxContent file.fPos data).length,
        { file with fPos := file.fPos + (File.fitting maxContent file.fPos data).length },
        Function.update fs file.privateData rf) ∧
      rf.contents = patch (fs file.privateData).contents file.fPos
        (File.fitting maxContent file.fPos data) ∧
      rf.used = (fs file.privateData).used ∧
      ∀ a < slotPath, rf.bytes a = (fs file.privateData).bytes a := by
  set rf := fs file.privateData with hrf
  set stored := File.fitting maxContent file.fPos data with hstored
  have hend : file.fPos + stored.length ≤ maxContent :=
    File.fitting_end data (hpos.trans hsize)
  have hlength : stored.length = min (4096 - file.fPos) data.length := List.length_take
  have hcount : (if (file.fPos + data.length) % 2 ^ 64 > maxContent
      then (maxContent + 2 ^ 64 - file.fPos) % 2 ^ 64 else data.length) = stored.length := by
    rw [Nat.mod_eq_of_lt hfits, hlength]
    by_cases hover : file.fPos + data.length > maxContent
    · rw [if_pos hover]
      simp only [maxContent] at hsize hover ⊢
      omega
    · rw [if_neg hover]
      simp only [maxContent] at hover
      omega
  have htake : data.take stored.length = stored := by
    rw [hstored, File.fitting, List.length_take, ← List.take_eq_take_min]
  simp only [ramfsWrite, ← hrf, hcount]
  by_cases hzero : stored.length = 0
  · refine ⟨rf, ?_, ?_, rfl, fun _ _ => rfl⟩
    · rw [if_pos hzero, hzero, Nat.add_zero, hrf, Function.update_eq_self]
    · rw [List.length_eq_zero_iff.mp hzero, patch_nil]
  · rw [if_neg hzero, if_neg (by omega), htake]
    refine ⟨_, rfl, ?_, rfl, fun a ha => store_of_lt _ _ (by omega)⟩
    exact rf.contents_write stored hpos (larger_eq_max _ _)

theorem ramfsWrite_size {data : Str} {count : Nat}
    (h : ramfsWrite fs file data = some (count, file', fs')) (i : Nat) :
    (fs' i).size ≤ max (fs i).size maxContent := by
  simp only [ramfsWrite, larger_eq_max] at h
  generalize (if (file.fPos + data.length) % 2 ^ 64 > maxContent
    then (maxContent + 2 ^ 64 - file.fPos) % 2 ^ 64 else data.length) = n at h
  split_ifs at h with hzero hover
  · cases h
    exact le_max_left _ _
  · simp only [Option.some.injEq, Prod.mk.injEq] at h
    obtain ⟨_, _, rfl⟩ := h
    by_cases hi : i = file.privateData
    · subst hi
      rw [Function.update_self]
      exact max_le_max_left _ (Nat.le_of_not_gt hover)
    · rw [Function.update_of_ne hi]
      exact le_max_left _ _

end Calls

theorem update_size_le {fs : Ramfs} (h : ∀ i, (fs i).size ≤ maxContent) (i : Nat) {rf : RamfsFile}
    (hrf : rf.size ≤ maxContent) (j : Nat) : (Function.update fs i rf j).size ≤ maxContent := by
  by_cases hj : j = i
  · rwa [hj, Function.update_self]
  · rw [Function.update_of_ne hj]
    exact h j

/-- No slot ever holds more than its array. -/
theorem RamfsReached.size_le {fs : Ramfs} (h : RamfsReached fs) : ∀ i, (fs i).size ≤ maxContent := by
  induction h with
  | init => exact fun _ => Nat.zero_le _
  | createFile _ path content ih =>
      unfold ramfsCreateFile
      split
      · exact ih
      · apply update_size_le ih _
        rw [List.length_take]
        simp only [maxContent]
        omega
  | create _ call ih =>
      unfold ramfsCreate at call
      dsimp only at call
      split_ifs at call
      split at call
      · cases call
        exact ih
      · split at call <;> cases call <;> exact update_size_le ih _ (Nat.zero_le _)
  | mkdir _ path ih =>
      unfold ramfsMkdir
      split
      · exact ih
      · exact update_size_le ih _ (Nat.zero_le _)
  | unlink _ path ih =>
      unfold ramfsUnlink
      split
      · exact ih
      · exact update_size_le ih _ (Nat.zero_le _)
  | write _ call ih =>
      intro i
      apply (ramfsWrite_size call i).trans
      exact max_le (ih i) le_rfl

/-! The refinement. -/

section Refinement

variable {slot : Nat} {s : SlotSession} {f : File UInt8 maxContent}

theorem SlotIs.size_le (h : SlotIs slot s f) : (s.fs slot).size ≤ maxContent := by
  rw [← (s.fs slot).contents_length, h.contents]
  exact f.short

theorem SlotIs.handle (h : SlotIs slot s f) (i : Nat) :
    s.handles[i]? = f.cursors[i]?.map fun pos => ⟨.ramfs, slot, pos⟩ := by
  rw [h.handles, List.getElem?_map]

theorem SlotIs.inside (h : SlotIs slot s f) :
    ∀ file ∈ s.handles, file.privateData = slot ∧ file.fPos ≤ (s.fs slot).size := by
  intro file hfile
  rw [h.handles] at hfile
  obtain ⟨pos, hpos, rfl⟩ := List.mem_map.mp hfile
  refine ⟨rfl, ?_⟩
  rw [← (s.fs slot).contents_length, h.contents]
  exact f.inside pos hpos

/-- The slot and the flat file answer an operation alike, and stay alike. -/
theorem SlotIs.step (h : SlotIs slot s f) {op : SlotOp} (hfits : op.Fits s) :
    (slotStep slot s op = none ∧ flatStep f op = none) ∨
      ∃ reply s' f', slotStep slot s op = some (reply, s') ∧ flatStep f op = some (reply, f') ∧
        SlotIs slot s' f' := by
  cases op with
  | openHandle =>
      refine Or.inr ⟨_, _, _, rfl, rfl, h.contents, ?_⟩
      rw [File.openCursor, List.map_append, ← h.handles]
      rfl
  | elsewhere fs =>
      refine Or.inr ⟨_, _, _, rfl, rfl, ?_, h.handles⟩
      dsimp only
      rw [Function.update_self]
      exact h.contents
  | read handle count =>
      have hhandle := h.handle handle
      simp only [slotStep, flatStep]
      cases hcursor : f.cursors[handle]? with
      | none =>
          rw [hcursor, Option.map_none] at hhandle
          rw [hhandle, File.read_eq_none hcursor]
          exact Or.inl ⟨rfl, rfl⟩
      | some pos =>
          rw [hcursor, Option.map_some] at hhandle
          obtain ⟨g, hread, hgcontents, hgcursors⟩ := File.read_of_cursor hcursor count
          have hcall := ramfsRead_contents s.fs ⟨.ramfs, slot, pos⟩
            (hfits _ (by rw [hhandle]; rfl))
          simp only [h.contents] at hcall
          rw [hhandle, Option.bind_some, hcall, hread]
          refine Or.inr ⟨_, _, _, rfl, rfl, h.contents.trans hgcontents.symm, ?_⟩
          rw [hgcursors, List.map_set, h.handles]
          rfl
  | write handle data =>
      have hhandle := h.handle handle
      simp only [slotStep, flatStep]
      cases hcursor : f.cursors[handle]? with
      | none =>
          rw [hcursor, Option.map_none] at hhandle
          rw [hhandle, File.write_eq_none hcursor]
          exact Or.inl ⟨rfl, rfl⟩
      | some pos =>
          rw [hcursor, Option.map_some] at hhandle
          obtain ⟨g, hwrite, hgcontents, hgcursors⟩ := File.write_of_cursor hcursor data
          have hpos := (h.inside _ (List.mem_of_getElem? hhandle)).2
          obtain ⟨rf, hcall, hcontents, -, -⟩ := ramfsWrite_contents s.fs
            ⟨.ramfs, slot, pos⟩ hpos h.size_le (hfits _ (by rw [hhandle]; rfl))
          rw [hhandle, Option.bind_some, hcall, hwrite]
          refine Or.inr ⟨_, _, _, rfl, rfl, ?_, ?_⟩
          · dsimp only
            rw [Function.update_self, hcontents, hgcontents, h.contents]
          · rw [hgcursors, List.map_set, h.handles]

end Refinement

/-- What every handle on a slot meets, whatever the others have done. -/
structure SlotSession.Flat (slot : Nat) (s : SlotSession) : Prop where
  inside : ∀ file ∈ s.handles, file.fPos ≤ (s.fs slot).size
  short : (s.fs slot).size ≤ 4096
  write : ∀ (handle : Nat) (file : VfsFile) (data : Str), s.handles[handle]? = some file →
    file.fPos + data.length < 2 ^ 64 → ∃ fs,
      slotStep slot s (.write handle data) = some (((data.take (4096 - file.fPos)).length, []),
        ⟨fs, s.handles.set handle
          { file with fPos := file.fPos + (data.take (4096 - file.fPos)).length }⟩) ∧
      (fs slot).contents =
        patch (s.fs slot).contents file.fPos (data.take (4096 - file.fPos)) ∧
      (fs slot).size = max (s.fs slot).size (file.fPos + (data.take (4096 - file.fPos)).length) ∧
      ∀ i ≠ slot, fs i = s.fs i
  read : ∀ (handle : Nat) (file : VfsFile) (count : Nat), s.handles[handle]? = some file →
    file.fPos + count < 2 ^ 64 → ∀ bytes, bytes = ((s.fs slot).contents.drop file.fPos).take count →
      slotStep slot s (.read handle count) = some ((bytes.length, bytes),
        { s with handles := s.handles.set handle { file with fPos := file.fPos + bytes.length } })

theorem SlotIs.flat {slot : Nat} {s : SlotSession} {f : File UInt8 maxContent}
    (h : SlotIs slot s f) : s.Flat slot where
  inside file hfile := (h.inside file hfile).2
  short := h.size_le
  write handle file data hhandle hfits := by
    obtain ⟨rfl, hpos⟩ := h.inside file (List.mem_of_getElem? hhandle)
    obtain ⟨rf, hcall, hcontents, -, -⟩ := ramfsWrite_contents s.fs file hpos h.size_le hfits
    refine ⟨Function.update s.fs file.privateData rf, ?_, ?_, ?_, ?_⟩
    · rw [slotStep, hhandle, Option.bind_some, hcall]
      rfl
    · rw [Function.update_self, hcontents]
      rfl
    · have hlength : (patch _ _ (File.fitting maxContent file.fPos data)).length = _ :=
        patch_length (hpos.trans_eq (RamfsFile.contents_length _).symm)
      rw [← hcontents, RamfsFile.contents_length, RamfsFile.contents_length] at hlength
      rwa [Function.update_self]
    · exact fun i hi => Function.update_of_ne hi _ _
  read handle file count hhandle hfits bytes hbytes := by
    obtain ⟨rfl, -⟩ := h.inside file (List.mem_of_getElem? hhandle)
    rw [slotStep, hhandle, Option.bind_some, ramfsRead_contents s.fs file hfits, ← hbytes]
    rfl

/-- A reached slot as a flat file on which no handle is open yet. -/
def RamfsReached.flatFile {fs : Ramfs} (h : RamfsReached fs) (slot : Nat) :
    File UInt8 maxContent where
  contents := (fs slot).contents
  cursors := []
  short := by
    rw [(fs slot).contents_length]
    exact h.size_le slot
  inside p hp := absurd hp List.not_mem_nil

/-- Every run of reads and writes through handles on a slot is one of a flat file. -/
theorem ramfs_handles_flat_file (fs : Ramfs) (hfs : RamfsReached fs) (slot : Nat)
    (trace : List (SlotOp × (Nat × Str))) (s : SlotSession)
    (h : Steps (slotStep slot) (fun s op => op.Fits s) ⟨fs, []⟩ trace s) :
    s.Flat slot ∧ ∃ f, Steps flatStep (fun _ _ => True) (hfs.flatFile slot) trace f ∧
      SlotIs slot s f := by
  have hrun : ∃ f, Steps flatStep (fun _ _ => True) (hfs.flatFile slot) trace f ∧
      SlotIs slot s f := by
    induction h with
    | nil => exact ⟨_, .nil, rfl, rfl⟩
    | snoc _ hfits htaken ih =>
        obtain ⟨f, hprior, his⟩ := ih
        rcases his.step hfits with ⟨hstuck, -⟩ | ⟨reply, s', f', hslot, hflat, his'⟩
        · rw [hstuck] at htaken
          cases htaken
        · rw [hslot] at htaken
          cases htaken
          exact ⟨f', hprior.snoc trivial hflat, his'⟩
  obtain ⟨f, hflat, his⟩ := hrun
  exact ⟨his.flat, f, hflat, his⟩

/-- A file is written through one handle and read through another. -/
theorem ramfs_handles_flat_file_two : ∃ trace s, trace.map Prod.snd =
      [(0, []), (0, []), (2, []), (1, ascii "h")] ∧ s.Flat 0 ∧
    ∃ f, Steps flatStep (fun _ _ => True) (RamfsReached.init.flatFile 0) trace f ∧
      SlotIs 0 s f := by
  refine ⟨_, _, rfl, ramfs_handles_flat_file ramfsInit .init 0 _ _
    (steps_of_replies (slotStep 0) ⟨ramfsInit, []⟩
      [.openHandle, .openHandle, .write 0 (ascii "hi"), .read 1 1]
      [(0, []), (0, []), (2, []), (1, ascii "h")] (by decide +kernel) ?_)⟩
  · refine ⟨trivial, trivial, ?_, ?_, trivial⟩
    all_goals
      intro file hfile
      cases hfile
      decide +kernel

end Chthon
