import Chthon.AbyssContents
import Chthon.Lib.FlatFile
import Chthon.RamfsModel

/-! Sessions on RAMFS. The history of a file, whether it is still linked and the writes that went to
it, stands beside the slots and is read by no call. -/

namespace Chthon

open ByteMemory Run FlatFile

structure LinkedFile where
  slot : Nat
  alive : Bool
  writes : List (Nat × Str)
  deriving DecidableEq

/-- A handle together with the file it was obtained for. -/
structure FileHandle where
  file : VfsFile
  owner : Option Nat
  deriving DecidableEq

structure RamfsSession where
  heapPos : Nat
  fs : Ramfs
  files : List LinkedFile
  handles : List FileHandle

def bootRamfs (heapPos : Nat) : RamfsSession := ⟨heapPos, ramfsInit, [], []⟩

inductive RamfsOp where
  | create (path : CString)
  | openPath (path : CString)
  | unlink (path : CString)
  | read (handle count : Nat)
  | write (handle : Nat) (data : Str)

/-- What the writes that went to a file add up to. -/
def LinkedFile.contents (f : LinkedFile) : Str :=
  f.writes.foldl (fun contents w => patch contents w.1 w.2) []

def LinkedFile.inSlot (slot : Nat) (f : LinkedFile) : Bool := f.alive && f.slot == slot

def LinkedFile.unlinked (slot : Option Nat) (f : LinkedFile) : LinkedFile :=
  if slot = some f.slot then { f with alive := false } else f

def RamfsSession.recordWrite (v : RamfsSession) (w : Nat × Str) : Option Nat → RamfsSession
  | some j => { v with files := v.files.modify j fun f => { f with writes := f.writes ++ [w] } }
  | none => v

/-- One call; the reply is its return value and the bytes it read. -/
def ramfsStep (v : RamfsSession) : RamfsOp → Option ((Int × Str) × RamfsSession)
  | .create path =>
      (ramfsCreate v.heapPos v.fs path.chars).map fun (file, heapPos, fs) =>
        match file with
        | none => ((-1, []), { v with heapPos := heapPos, fs := fs })
        | some file => ((0, []),
            { heapPos := heapPos, fs := fs, files := v.files ++ [⟨file.privateData, true, []⟩]
              handles := v.handles ++ [⟨file, some v.files.length⟩] })
  | .openPath path =>
      match ramfsOpen v.heapPos v.fs path.chars with
      | (none, heapPos) => some ((-1, []), { v with heapPos := heapPos })
      | (some file, heapPos) => some ((0, []), { v with
          heapPos := heapPos
          handles := v.handles ++ [⟨file, v.files.findIdx? (·.inSlot file.privateData)⟩] })
  | .unlink path =>
      let (result, fs) := ramfsUnlink v.fs path.chars
      some ((result, []), { v with
        fs := fs
        files := v.files.map (·.unlinked (ramfsFind v.fs path.chars)) })
  | .read handle count =>
      v.handles[handle]?.bind fun h =>
        (ramfsRead v.fs h.file count).map fun (bytes, file) =>
          ((bytes.length, bytes), { v with handles := v.handles.set handle ⟨file, h.owner⟩ })
  | .write handle data =>
      v.handles[handle]?.bind fun h =>
        (ramfsWrite v.fs h.file data).map fun (count, file, fs) =>
          ((count, []), { v with
            fs := fs
            handles := v.handles.set handle ⟨file, h.owner⟩ }.recordWrite
              (h.file.fPos, data.take count) h.owner)

/-- A handle is used only while the file it was obtained for is linked. -/
def RamfsOp.Linked (v : RamfsSession) : RamfsOp → Prop
  | .read handle _ | .write handle _ => ∃ h j f, v.handles[handle]? = some h ∧ h.owner = some j ∧
      v.files[j]? = some f ∧ f.alive = true
  | _ => True

/-- A slot that holds `data` as its contents. -/
structure SlotHolds (rf : RamfsFile) (data : Str) : Prop where
  used : rf.used = true
  size_eq : rf.size = data.length
  short : data.length ≤ 4096
  bytes : load rf.bytes 32 data.length = data

structure RamfsInv (v : RamfsSession) : Prop where
  slots : ∀ f ∈ v.files, f.slot < 16
  holds : ∀ f ∈ v.files, f.alive = true → SlotHolds (v.fs f.slot) f.contents
  apart : ∀ (j k : Nat) (f g : LinkedFile), v.files[j]? = some f → v.files[k]? = some g →
    f.alive = true → g.alive = true → f.slot = g.slot → j = k
  listed : ∀ i < 16, (v.fs i).used = true → ∃ f ∈ v.files, f.alive = true ∧ f.slot = i
  handles : ∀ h ∈ v.handles, ∀ j, h.owner = some j → ∃ f, v.files[j]? = some f ∧
    h.file.privateData = f.slot ∧ (f.alive = true → h.file.fPos ≤ f.contents.length)

/-! Slots. -/

theorem ramfsFind_some {fs : Ramfs} {path : Str} {i : Nat} (h : ramfsFind fs path = some i) :
    i < 16 ∧ (fs i).used = true := by
  have hmem := List.mem_of_find?_eq_some h
  have hp := List.find?_some h
  rw [Bool.and_eq_true] at hp
  exact ⟨by simpa [maxFiles] using hmem, hp.1⟩

theorem ramfsFree_some {fs : Ramfs} {i : Nat} (h : ramfsFree fs = some i) :
    i < 16 ∧ (fs i).used = false := by
  have hmem := List.mem_of_find?_eq_some h
  have hp := List.find?_some h
  exact ⟨by simpa [maxFiles] using hmem, by simpa using hp⟩

/-- A read at any position, inside the text of the slot or behind it. -/
theorem ramfsRead_load (fs : Ramfs) (file : VfsFile) {count : Nat}
    (hfits : file.fPos + count < 2 ^ 64) {data : Str}
    (hdata : load (fs file.privateData).bytes slotPath (fs file.privateData).size = data) :
    ramfsRead fs file count = some ((data.drop file.fPos).take count,
      { file with fPos := file.fPos + ((data.drop file.fPos).take count).length }) := by
  set rf := fs file.privateData with hrf
  have hlength : data.length = rf.size := by rw [← hdata, load_length]
  have hslice : ∀ n, file.fPos + n ≤ rf.size →
      load rf.bytes (slotPath + file.fPos) n = (data.drop file.fPos).take n := by
    intro n hn
    rw [← hdata]
    exact load_drop_take _ _ _ _ _ hn
  simp only [ramfsRead, ← hrf, Nat.mod_eq_of_lt hfits]
  by_cases hend : file.fPos ≥ rf.size
  · rw [if_pos hend, List.drop_of_length_le (by omega), List.take_nil]
    rfl
  · rw [if_neg hend]
    by_cases hover : file.fPos + count > rf.size
    · -- the end of the file comes first
      have hall : (data.drop file.fPos).take (rf.size - file.fPos) =
          (data.drop file.fPos).take count := by
        rw [List.take_of_length_le, List.take_of_length_le] <;>
          rw [List.length_drop, hlength]
        omega
      simp only [if_pos hover]
      rw [if_neg (by omega), hslice _ (by omega), hall, List.length_take, List.length_drop,
        hlength, Nat.min_eq_right (by omega)]
    · simp only [if_neg hover]
      rw [hslice _ (by omega), List.length_take, List.length_drop, hlength,
        Nat.min_eq_left (by omega)]

theorem SlotHolds.read {fs : Ramfs} (file : VfsFile) {data : Str}
    (h : SlotHolds (fs file.privateData) data) {count : Nat}
    (hcount : file.fPos + count < 2 ^ 64) :
    (ramfsRead fs file count).map Prod.fst = some ((data.drop file.fPos).take count) := by
  have hdata : load (fs file.privateData).bytes slotPath (fs file.privateData).size = data := by
    rw [h.size_eq]
    exact h.bytes
  rw [ramfsRead_load fs file hcount hdata]
  rfl

/-- The position a read leaves behind is inside the file if it was before. -/
theorem ramfsRead_file {fs : Ramfs} {file file' : VfsFile} {count : Nat} {bytes : Str}
    (hpos : file.fPos ≤ (fs file.privateData).size)
    (h : ramfsRead fs file count = some (bytes, file')) :
    file'.privateData = file.privateData ∧ file'.fPos ≤ (fs file.privateData).size := by
  simp only [ramfsRead] at h
  split_ifs at h with hend hover hlimit hlimit
  · cases h
    exact ⟨rfl, hpos⟩
  all_goals
    cases h
    exact ⟨rfl, by simp only; omega⟩

/-- Writing inside or at the end of a stored text. -/
theorem load_patch {m : Memory} {a pos : Nat} {contents : Str} (data : Str)
    (hpos : pos ≤ contents.length) (hbytes : load m a contents.length = contents) :
    load (store m (a + pos) data) a (max contents.length (pos + data.length)) =
      patch contents pos data := by
  have hbyte : ∀ k (hk : k < contents.length), m (a + k) = contents[k] := by
    intro k hk
    have hget := load_getElem m a contents.length k (by simpa using hk)
    simp only [hbytes] at hget
    exact hget.symm
  rw [show patch contents pos data = contents.take pos ++ (data ++
    contents.drop (pos + data.length)) from List.append_assoc _ _ _]
  apply List.ext_getElem
  · simp only [load_length, List.length_append, List.length_take, List.length_drop]
    omega
  intro k hk hk'
  rw [load_length] at hk
  rw [load_getElem]
  -- before, inside or behind the bytes written
  rcases Nat.lt_or_ge k pos with hlt | hge
  · rw [store_of_lt _ _ (by omega), hbyte k (by omega), List.getElem_append_left (by simp; omega),
      List.getElem_take]
  · rw [List.getElem_append_right (by simp; omega)]
    simp only [List.length_take, Nat.min_eq_left hpos]
    rcases Nat.lt_or_ge k (pos + data.length) with hin | hout
    · rw [show a + k = a + pos + (k - pos) by omega, store_at _ _ _ _ (by omega),
        List.getElem_append_left (by omega)]
    · rw [store_of_ge _ _ (by omega), hbyte k (by omega), List.getElem_append_right (by omega),
        List.getElem_drop]
      congr 1
      omega

/-- What a write through a handle positioned inside the contents does. -/
theorem ramfsWrite_cases {fs fs' : Ramfs} {file file' : VfsFile} {buf : Str} {count : Nat}
    (hpos : file.fPos ≤ maxContent) (h : ramfsWrite fs file buf = some (count, file', fs')) :
    count ≤ buf.length ∧ file.fPos + count ≤ 4096 ∧
      file' = { file with fPos := file.fPos + count } ∧
      ((count = 0 ∧ fs' = fs) ∨ fs' = Function.update fs file.privateData
        { fs file.privateData with
          bytes := store (fs file.privateData).bytes (32 + file.fPos) (buf.take count)
          size := max (fs file.privateData).size (file.fPos + count) }) := by
  simp only [ramfsWrite] at h
  set c := if (file.fPos + buf.length) % 2 ^ 64 > maxContent
    then (maxContent + 2 ^ 64 - file.fPos) % 2 ^ 64 else buf.length with hc
  have hcle : c ≤ buf.length := by
    rw [hc]
    split_ifs with hover
    · simp only [maxContent] at hover hpos ⊢
      omega
    · exact le_rfl
  have hmax : (if file.fPos + c > (fs file.privateData).size then file.fPos + c
      else (fs file.privateData).size) = max (fs file.privateData).size (file.fPos + c) := by
    split_ifs <;> omega
  rw [hmax] at h
  split_ifs at h with hzero hover
  · simp only [Option.some.injEq, Prod.mk.injEq] at h
    obtain ⟨rfl, rfl, rfl⟩ := h
    exact ⟨Nat.zero_le _, hpos, rfl, Or.inl ⟨rfl, rfl⟩⟩
  · simp only [Option.some.injEq, Prod.mk.injEq] at h
    obtain ⟨rfl, rfl, rfl⟩ := h
    refine ⟨hcle, ?_, rfl, Or.inr rfl⟩
    simp only [maxContent] at hover
    omega

/-! Steps. -/

section Step

variable {v v' : RamfsSession} {reply : Int × Str}

theorem recordWrite_filesOf (v : RamfsSession) (w : Nat × Str) (j k : Nat) :
    (v.recordWrite w (some j)).files[k]? =
      v.files[k]?.map fun f => if j = k then { f with writes := f.writes ++ [w] } else f := by
  rw [RamfsSession.recordWrite]
  exact List.getElem?_modify _ _ _ _

/-- A slot that is in use belongs to one linked file. -/
theorem RamfsInv.owner (h : RamfsInv v) {i : Nat} (hi : i < 16) (hused : (v.fs i).used = true) :
    ∃ j f, v.files.findIdx? (·.inSlot i) = some j ∧ v.files[j]? = some f ∧ f.slot = i := by
  obtain ⟨f, hf, halive, hslot⟩ := h.listed i hi hused
  cases hfind : v.files.findIdx? (·.inSlot i) with
  | none =>
      rw [List.findIdx?_eq_none_iff] at hfind
      have hnot := hfind f hf
      simp [LinkedFile.inSlot, halive, hslot] at hnot
  | some j =>
      obtain ⟨hj, hp, _⟩ := List.findIdx?_eq_some_iff_getElem.mp hfind
      simp only [LinkedFile.inSlot, Bool.and_eq_true, beq_iff_eq] at hp
      exact ⟨j, v.files[j], rfl, List.getElem?_eq_getElem hj, hp.2⟩

theorem RamfsInv.create (h : RamfsInv v) {path : CString}
    (htaken : ramfsStep v (.create path) = some (reply, v')) : RamfsInv v' := by
  simp only [ramfsStep, Option.map_eq_some_iff] at htaken
  obtain ⟨⟨file, heapPos, fs⟩, hcall, htaken⟩ := htaken
  simp only [ramfsCreate] at hcall
  split_ifs at hcall with hlong
  cases hfree : ramfsFree v.fs with
  | none =>
      simp only [hfree, Option.some.injEq, Prod.mk.injEq] at hcall
      obtain ⟨rfl, _, rfl⟩ := hcall
      cases htaken
      exact ⟨h.slots, h.holds, h.apart, h.listed, h.handles⟩
  | some i =>
      obtain ⟨hi, hunused⟩ := ramfsFree_some hfree
      have hother : ∀ f ∈ v.files, f.alive = true → f.slot ≠ i := by
        rintro f hf halive rfl
        rw [(h.holds f hf halive).used] at hunused
        cases hunused
      have hkeep : ∀ (rf : RamfsFile), ∀ f ∈ v.files, f.alive = true →
          SlotHolds (Function.update v.fs i rf f.slot) f.contents := by
        intro rf f hf halive
        rw [Function.update_of_ne (hother f hf halive)]
        exact h.holds f hf halive
      simp only [hfree] at hcall
      split at hcall
      · simp only [Option.some.injEq, Prod.mk.injEq] at hcall
        obtain ⟨rfl, _, rfl⟩ := hcall
        cases htaken
        refine ⟨h.slots, hkeep _, h.apart, ?_, h.handles⟩
        intro k hk hused
        by_cases hki : k = i
        · subst hki
          simp at hused
        · simp only [Function.update_of_ne hki] at hused
          exact h.listed k hk hused
      · simp only [Option.some.injEq, Prod.mk.injEq] at hcall
        obtain ⟨rfl, _, rfl⟩ := hcall
        cases htaken
        refine ⟨?_, ?_, ?_, ?_, ?_⟩
        · intro f hf
          rcases List.mem_append.mp hf with hf | hf
          · exact h.slots f hf
          · obtain rfl := List.mem_singleton.mp hf
            exact hi
        · intro f hf halive
          rcases List.mem_append.mp hf with hf | hf
          · exact hkeep _ f hf halive
          · obtain rfl := List.mem_singleton.mp hf
            simp only [Function.update_self]
            exact ⟨rfl, rfl, by simp [LinkedFile.contents], by simp [LinkedFile.contents, load]⟩
        · intro j k f g hj hk hf hg heq
          simp only [List.getElem?_append, List.getElem?_singleton] at hj hk
          split_ifs at hj hk with hjlt hj0 hklt hk0
          · exact h.apart j k f g hj hk hf hg heq
          · cases hk
            exact absurd heq (hother f (List.mem_of_getElem? hj) hf)
          · cases hj
            exact absurd heq.symm (hother g (List.mem_of_getElem? hk) hg)
          · omega
        · intro k hk hused
          by_cases hki : k = i
          · exact ⟨_, List.mem_append_right _ (List.mem_singleton_self _), rfl, hki.symm⟩
          · simp only [Function.update_of_ne hki] at hused
            obtain ⟨f, hf, hrest⟩ := h.listed k hk hused
            exact ⟨f, List.mem_append_left _ hf, hrest⟩
        · intro q hq j hj
          rcases List.mem_append.mp hq with hq | hq
          · obtain ⟨f, hf, hrest⟩ := h.handles q hq j hj
            refine ⟨f, ?_, hrest⟩
            rw [List.getElem?_append_left (List.getElem?_eq_some_iff.mp hf).1]
            exact hf
          · obtain rfl := List.mem_singleton.mp hq
            cases hj
            exact ⟨⟨i, true, []⟩, by simp, rfl, fun _ => Nat.zero_le _⟩

theorem RamfsInv.openPath (h : RamfsInv v) {path : CString}
    (htaken : ramfsStep v (.openPath path) = some (reply, v')) : RamfsInv v' := by
  simp only [ramfsStep, ramfsOpen] at htaken
  cases hfind : ramfsFind v.fs path.chars with
  | none =>
      simp only [hfind, Option.some.injEq, Prod.mk.injEq] at htaken
      obtain ⟨_, rfl⟩ := htaken
      exact ⟨h.slots, h.holds, h.apart, h.listed, h.handles⟩
  | some i =>
      obtain ⟨hi, hused⟩ := ramfsFind_some hfind
      obtain ⟨j, f, hidx, hf, hslot⟩ := h.owner hi hused
      simp only [hfind] at htaken
      split at htaken
      · simp only [Option.some.injEq, Prod.mk.injEq] at htaken
        obtain ⟨_, rfl⟩ := htaken
        exact ⟨h.slots, h.holds, h.apart, h.listed, h.handles⟩
      · rename_i file heapPos hopen
        have hfile : file = ⟨.ramfs, i, 0⟩ := by
          split at hopen <;> cases hopen
          rfl
        subst hfile
        simp only [Option.some.injEq, Prod.mk.injEq] at htaken
        obtain ⟨_, rfl⟩ := htaken
        refine ⟨h.slots, h.holds, h.apart, h.listed, ?_⟩
        intro q hq k hk
        rcases List.mem_append.mp hq with hq | hq
        · exact h.handles q hq k hk
        · obtain rfl := List.mem_singleton.mp hq
          simp only [hidx, Option.some.injEq] at hk
          subst hk
          exact ⟨f, hf, hslot.symm, fun _ => Nat.zero_le _⟩

theorem RamfsInv.unlink (h : RamfsInv v) {path : CString}
    (htaken : ramfsStep v (.unlink path) = some (reply, v')) : RamfsInv v' := by
  simp only [ramfsStep, ramfsUnlink] at htaken
  cases hfind : ramfsFind v.fs path.chars with
  | none =>
      have hmap : v.files.map (·.unlinked none) = v.files := by
        simp [LinkedFile.unlinked]
      simp only [hfind, hmap, Option.some.injEq, Prod.mk.injEq] at htaken
      obtain ⟨_, rfl⟩ := htaken
      exact ⟨h.slots, h.holds, h.apart, h.listed, h.handles⟩
  | some i =>
      simp only [hfind, Option.some.injEq, Prod.mk.injEq] at htaken
      obtain ⟨_, rfl⟩ := htaken
      have hslot : ∀ f : LinkedFile, (f.unlinked (some i)).slot = f.slot ∧
          (f.unlinked (some i)).contents = f.contents := by
        intro f
        rw [LinkedFile.unlinked]
        split_ifs <;> exact ⟨rfl, rfl⟩
      have halive : ∀ f : LinkedFile, (f.unlinked (some i)).alive = true →
          f.alive = true ∧ f.slot ≠ i := by
        intro f hf
        rw [LinkedFile.unlinked] at hf
        split_ifs at hf with heq
        exact ⟨hf, fun hfi => heq (by rw [hfi])⟩
      refine ⟨?_, ?_, ?_, ?_, ?_⟩
      · intro f hf
        obtain ⟨g, hg, rfl⟩ := List.mem_map.mp hf
        rw [(hslot g).1]
        exact h.slots g hg
      · intro f hf hfalive
        obtain ⟨g, hg, rfl⟩ := List.mem_map.mp hf
        obtain ⟨hgalive, hne⟩ := halive g hfalive
        rw [(hslot g).1, (hslot g).2]
        simp only [Function.update_of_ne hne]
        exact h.holds g hg hgalive
      · intro j k f g hj hk hf hg heq
        simp only [List.getElem?_map, Option.map_eq_some_iff] at hj hk
        obtain ⟨f, hj, rfl⟩ := hj
        obtain ⟨g, hk, rfl⟩ := hk
        rw [(hslot f).1, (hslot g).1] at heq
        exact h.apart j k f g hj hk (halive f hf).1 (halive g hg).1 heq
      · intro k hk hused
        by_cases hki : k = i
        · subst hki
          simp at hused
        · simp only [Function.update_of_ne hki] at hused
          obtain ⟨f, hf, hfalive, rfl⟩ := h.listed k hk hused
          refine ⟨f, List.mem_map.mpr ⟨f, hf, ?_⟩, hfalive, rfl⟩
          rw [LinkedFile.unlinked, if_neg]
          intro heq
          exact hki (Option.some.inj heq).symm
      · intro q hq j hj
        obtain ⟨f, hf, hdata, hpos⟩ := h.handles q hq j hj
        refine ⟨f.unlinked (some i), by simp [hf], by rw [(hslot f).1]; exact hdata, ?_⟩
        intro hfalive
        rw [(hslot f).2]
        exact hpos (halive f hfalive).1

theorem RamfsInv.read (h : RamfsInv v) {handle count : Nat}
    (ha : (RamfsOp.read handle count).Linked v)
    (htaken : ramfsStep v (.read handle count) = some (reply, v')) : RamfsInv v' := by
  obtain ⟨q, j, f, hq, howner, hf, halive⟩ := ha
  simp only [ramfsStep, hq, Option.bind_some, Option.map_eq_some_iff] at htaken
  obtain ⟨⟨bytes, file⟩, hread, htaken⟩ := htaken
  cases htaken
  obtain ⟨f', hf', hdata, hpos⟩ := h.handles q (List.mem_of_getElem? hq) j howner
  rw [hf] at hf'
  cases hf'
  have hholds := h.holds f (List.mem_of_getElem? hf) halive
  rw [← hdata] at hholds
  obtain ⟨hsame, hafter⟩ := ramfsRead_file (by rw [hholds.size_eq]; exact hpos halive) hread
  rw [hholds.size_eq] at hafter
  refine ⟨h.slots, h.holds, h.apart, h.listed, ?_⟩
  intro p hp k hk
  rcases List.mem_or_eq_of_mem_set hp with hp | rfl
  · exact h.handles p hp k hk
  · obtain rfl : j = k := Option.some.inj (howner.symm.trans hk)
    exact ⟨f, hf, hsame.trans hdata, fun _ => hafter⟩

/-- A write inside or at the end of the contents leaves the slot with the overwritten ones. -/
theorem SlotHolds.write {rf : RamfsFile} {contents data : Str} {pos : Nat}
    (h : SlotHolds rf contents) (hpos : pos ≤ contents.length) (hroom : pos + data.length ≤ 4096) :
    SlotHolds { rf with
      bytes := store rf.bytes (32 + pos) data
      size := max rf.size (pos + data.length) } (patch contents pos data) where
  used := h.used
  size_eq := by rw [patch_length hpos, h.size_eq]
  short := by
    rw [patch_length hpos]
    exact max_le h.short hroom
  bytes := by
    rw [patch_length hpos]
    exact load_patch data hpos h.bytes

/-- A write of nothing is one that stores no bytes. -/
theorem SlotHolds.ramfsWrite_eq {fs fs' : Ramfs} {file file' : VfsFile} {contents data : Str}
    {count : Nat} (h : SlotHolds (fs file.privateData) contents)
    (hpos : file.fPos ≤ contents.length)
    (hcall : ramfsWrite fs file data = some (count, file', fs')) :
    (data.take count).length = count ∧ file.fPos + count ≤ 4096 ∧
      file' = { file with fPos := file.fPos + count } ∧
      fs' = Function.update fs file.privateData { fs file.privateData with
        bytes := store (fs file.privateData).bytes (32 + file.fPos) (data.take count)
        size := max (fs file.privateData).size (file.fPos + count) } := by
  have hshort := h.short
  obtain ⟨hcount, hroom, hfile, hfs⟩ := ramfsWrite_cases (by simp only [maxContent]; omega) hcall
  refine ⟨by simp [hcount], hroom, hfile, ?_⟩
  rcases hfs with ⟨rfl, hfs⟩ | hfs
  · have hsize : max (fs file.privateData).size (file.fPos + 0) = (fs file.privateData).size := by
      rw [h.size_eq]
      omega
    rw [hfs, hsize, List.take_zero, store_nil, Function.update_eq_self]
  · exact hfs

/-- A recorded write changes the contents of its file and nothing else about the files. -/
theorem recordWrite_back {w : Nat × Str} {j k : Nat} {f g : LinkedFile}
    (hf : v.files[j]? = some f) (hg : (v.recordWrite w (some j)).files[k]? = some g) :
    ∃ g', v.files[k]? = some g' ∧ g'.alive = g.alive ∧ g'.slot = g.slot ∧ (k ≠ j → g' = g) ∧
      (k = j → g.contents = patch f.contents w.1 w.2) := by
  rw [recordWrite_filesOf, Option.map_eq_some_iff] at hg
  obtain ⟨g', hg', rfl⟩ := hg
  refine ⟨g', hg', ?_⟩
  split_ifs with hjk
  · subst hjk
    rw [hf] at hg'
    cases hg'
    refine ⟨rfl, rfl, fun hne => absurd rfl hne, fun _ => ?_⟩
    simp [LinkedFile.contents]
  · exact ⟨rfl, rfl, fun _ => rfl, fun heq => absurd heq.symm hjk⟩

/-- The other way round, with what a position inside the file needs. -/
theorem recordWrite_forth {w : Nat × Str} {j k : Nat} {g : LinkedFile} (hg : v.files[k]? = some g) :
    ∃ g', (v.recordWrite w (some j)).files[k]? = some g' ∧ g'.alive = g.alive ∧ g'.slot = g.slot ∧
      g'.contents = if j = k then patch g.contents w.1 w.2 else g.contents := by
  have hlook := recordWrite_filesOf v w j k
  rw [hg, Option.map_some] at hlook
  refine ⟨_, hlook, ?_, ?_, ?_⟩
  · split_ifs <;> rfl
  · split_ifs <;> rfl
  · split_ifs
    · simp [LinkedFile.contents]
    · rfl

theorem RamfsInv.write (h : RamfsInv v) {handle : Nat} {data : Str}
    (ha : (RamfsOp.write handle data).Linked v)
    (htaken : ramfsStep v (.write handle data) = some (reply, v')) : RamfsInv v' := by
  obtain ⟨q, j, f, hq, howner, hf, halive⟩ := ha
  simp only [ramfsStep, hq, Option.bind_some, Option.map_eq_some_iff] at htaken
  obtain ⟨⟨count, file, fs⟩, hwrite, htaken⟩ := htaken
  obtain ⟨f', hf', hdata, hpos⟩ := h.handles q (List.mem_of_getElem? hq) j howner
  rw [hf] at hf'
  cases hf'
  have hpos := hpos halive
  have hholds := h.holds f (List.mem_of_getElem? hf) halive
  rw [← hdata] at hholds
  obtain ⟨hlen, hroom, rfl, hnew⟩ := hholds.ramfsWrite_eq hpos hwrite
  have hwritten := hholds.write hpos
    (show q.file.fPos + (data.take count).length ≤ 4096 by rw [hlen]; exact hroom)
  rw [hlen] at hwritten
  rw [howner] at htaken
  cases htaken
  rw [hdata] at hnew hholds hwritten
  subst hnew
  have hafter : (patch f.contents q.file.fPos (data.take count)).length =
      max f.contents.length (q.file.fPos + count) := by
    rw [patch_length hpos, hlen]
  refine ⟨?_, ?_, ?_, ?_, ?_⟩
  · intro g hg
    obtain ⟨k, hk⟩ := List.mem_iff_getElem?.mp hg
    obtain ⟨g', hg', _, hslot, _⟩ := recordWrite_back hf hk
    rw [← hslot]
    exact h.slots g' (List.mem_of_getElem? hg')
  · intro g hg hgalive
    obtain ⟨k, hk⟩ := List.mem_iff_getElem?.mp hg
    obtain ⟨g', hg', halive', hslot, hsame, hcontents⟩ := recordWrite_back hf hk
    by_cases hkj : k = j
    · subst hkj
      rw [hf] at hg'
      cases hg'
      rw [hcontents rfl, ← hslot]
      simp only [RamfsSession.recordWrite, Function.update_self]
      exact hwritten
    · obtain rfl := hsame hkj
      have hne : g'.slot ≠ f.slot := fun heq =>
        hkj (h.apart k j g' f hg' hf hgalive halive heq)
      simp only [RamfsSession.recordWrite, Function.update_of_ne hne]
      exact h.holds g' (List.mem_of_getElem? hg') hgalive
  · intro k l g₁ g₂ hk hl h₁ h₂ heq
    obtain ⟨g₁', hg₁, halive₁, hslot₁, _⟩ := recordWrite_back hf hk
    obtain ⟨g₂', hg₂, halive₂, hslot₂, _⟩ := recordWrite_back hf hl
    exact h.apart k l g₁' g₂' hg₁ hg₂ (halive₁.trans h₁) (halive₂.trans h₂)
      (hslot₁.trans (heq.trans hslot₂.symm))
  · intro i hi hused
    have hused' : (v.fs i).used = true := by
      by_cases hif : i = f.slot
      · rw [hif]
        exact hholds.used
      · simpa only [RamfsSession.recordWrite, Function.update_of_ne hif] using hused
    obtain ⟨g, hg, hgalive, hgslot⟩ := h.listed i hi hused'
    obtain ⟨k, hk⟩ := List.mem_iff_getElem?.mp hg
    obtain ⟨g', hg', halive', hslot', _⟩ := recordWrite_forth hk
    exact ⟨g', List.mem_of_getElem? hg', halive'.trans hgalive, hslot'.trans hgslot⟩
  · intro p hp k hk
    -- the handle that was written through ends where the bytes end
    rcases List.mem_or_eq_of_mem_set hp with hp | rfl
    · obtain ⟨g, hg, hgdata, hgpos⟩ := h.handles p hp k hk
      obtain ⟨g', hg', halive', hslot', hcontents⟩ := recordWrite_forth hg
      refine ⟨g', hg', hgdata.trans hslot'.symm, fun hgalive => ?_⟩
      have hle := hgpos (halive'.symm.trans hgalive)
      rw [hcontents]
      split_ifs with hjk
      · subst hjk
        rw [hf] at hg
        cases hg
        rw [hafter]
        exact le_max_of_le_left hle
      · exact hle
    · obtain rfl : j = k := Option.some.inj hk
      obtain ⟨g', hg', _, hslot', hcontents⟩ := recordWrite_forth hf
      refine ⟨g', hg', hdata.trans hslot'.symm, fun _ => ?_⟩
      rw [hcontents, if_pos rfl, hafter]
      exact le_max_right _ _

theorem RamfsInv.step {op : RamfsOp} (h : RamfsInv v) (ha : op.Linked v)
    (htaken : ramfsStep v op = some (reply, v')) : RamfsInv v' := by
  cases op with
  | create path => exact h.create htaken
  | openPath path => exact h.openPath htaken
  | unlink path => exact h.unlink htaken
  | read handle count => exact h.read ha htaken
  | write handle data => exact h.write ha htaken

end Step

/-- Every handle on a linked file reads what the writes to that file add up to. -/
def RamfsSession.OwnWritesOnly (v : RamfsSession) : Prop :=
  ∀ h ∈ v.handles, ∀ j f, h.owner = some j → v.files[j]? = some f → f.alive = true →
    ∀ pos count, pos + count < 2 ^ 64 →
      (ramfsRead v.fs { h.file with fPos := pos } count).map Prod.fst =
        some ((f.contents.drop pos).take count)

theorem ramfs_own_writes_only (heapPos : Nat) {trace : List (RamfsOp × (Int × Str))}
    {v : RamfsSession} (h : Steps ramfsStep RamfsOp.Linked (bootRamfs heapPos) trace v) :
    v.OwnWritesOnly := by
  have hinv : RamfsInv v := by
    apply h.preserves
    · refine ⟨?_, ?_, ?_, ?_, ?_⟩ <;> simp [bootRamfs, ramfsInit]
    · intro t op reply u ht ha htaken
      exact ht.step ha htaken
  intro q hq j f howner hf halive pos count hcount
  obtain ⟨f', hf', hdata, _⟩ := hinv.handles q hq j howner
  rw [hf] at hf'
  cases hf'
  have hholds := hinv.holds f (List.mem_of_getElem? hf) halive
  rw [← hdata] at hholds
  exact SlotHolds.read { q.file with fPos := pos } hholds hcount

/-! Both file systems. -/

def tmpA : CString := ⟨ascii "/tmp/a", by decide⟩
def tmpB : CString := ⟨ascii "/tmp/b", by decide⟩
def nameA : CString := ⟨ascii "/a", by decide⟩
def nameB : CString := ⟨ascii "/b", by decide⟩

/-- As long as handles are used within the life of their files, what a handle reads was written to
its own file. -/
theorem handles_read_own_writes (heapPos : Nat) (s : Abyssfs) :
    (∀ (trace : List (RamfsOp × (Int × Str))) (v : RamfsSession),
      Steps ramfsStep RamfsOp.Linked (bootRamfs heapPos) trace v → v.OwnWritesOnly) ∧
    ∀ (trace : List (SessionOp × (Int × Str))) (v : Session),
      Steps sessionStep SessionOp.Isolated (bootSession s) trace v → v.OwnWritesOnly :=
  ⟨fun _ _ h => ramfs_own_writes_only heapPos h, fun _ _ h => abyss_own_writes_only s h⟩

/-- A file is created, unlinked and replaced by another one, which is then written. -/
theorem handles_read_own_writes_of_successor :
    (∃ trace v, Steps ramfsStep RamfsOp.Linked (bootRamfs 0) trace v ∧
      v.files.map LinkedFile.contents = [[], ascii "hi"] ∧ v.OwnWritesOnly) ∧
    ∃ trace v, Steps sessionStep SessionOp.Isolated (bootSession blankFs) trace v ∧
      v.files.map CreatedFile.contents = [ascii "hi"] ∧ v.OwnWritesOnly := by
  have hcreate : Steps ramfsStep RamfsOp.Linked (bootRamfs 0) _ _ :=
    Steps.nil.extend (RamfsOp.create tmpA) (0, []) trivial (by decide +kernel)
  have hunlink := hcreate.extend (.unlink tmpA) (0, []) trivial (by decide +kernel)
  have hagain := hunlink.extend (.create tmpB) (0, []) trivial (by decide +kernel)
  have hwrite := hagain.extend (.write 1 (ascii "hi")) (2, [])
    ⟨⟨⟨.ramfs, 0, 0⟩, some 1⟩, 1, ⟨0, true, []⟩, by decide +kernel, rfl, by decide +kernel, rfl⟩
    (by decide +kernel)
  have hroot : createParent (allocInode (bootSession blankFs).volume.fs).2.mem (some (ascii "/"))
      (skipSlash nameA.chars) = some (some (rootInode, ascii "a")) := by decide +kernel
  let create : SessionOp := .create (some (ascii "/")) nameA
  have hallowed : create.Isolated (bootSession blankFs) := by
    refine ⟨?_, ?_⟩
    · exact SessionOp.contained_create 4160 9 36884 (ascii "a") hroot (by decide +kernel)
        (by decide +kernel) (by decide +kernel)
    · intro p filename b hparent _
      rw [hroot] at hparent
      cases hparent
      rfl
  have hfile : Steps sessionStep SessionOp.Isolated (bootSession blankFs) _ _ :=
    Steps.nil.extend create (0, []) hallowed (by decide +kernel)
  have hdata := hfile.extend (.write (.created 0) (ascii "hi")) (2, [])
    ⟨0, ⟨⟨.abyssfs, 2, 0⟩, true, []⟩, rfl, by decide +kernel, rfl, Or.inr (by decide +kernel)⟩
    (by decide +kernel)
  exact ⟨⟨_, _, hwrite, by decide +kernel, (handles_read_own_writes 0 blankFs).1 _ _ hwrite⟩,
    ⟨_, _, hdata, by decide +kernel, (handles_read_own_writes 0 blankFs).2 _ _ hdata⟩⟩

/-- The first handle outlives its file and reaches the file that took its slot, or its inode. -/
theorem stale_handle_reaches_successor :
    (∃ trace v, Steps ramfsStep (fun _ _ => True) (bootRamfs 0) trace v ∧ ¬v.OwnWritesOnly) ∧
    ∃ trace v, Steps sessionStep (fun _ _ => True) (bootSession blankFs) trace v ∧
      ¬v.OwnWritesOnly := by
  have hcreate : Steps ramfsStep (fun _ _ => True) (bootRamfs 0) _ _ :=
    Steps.nil.extend (RamfsOp.create tmpA) (0, []) trivial (by decide +kernel)
  have hunlink := hcreate.extend (.unlink tmpA) (0, []) trivial (by decide +kernel)
  have hagain := hunlink.extend (.create tmpB) (0, []) trivial (by decide +kernel)
  have hstale := hagain.extend (.write 0 (ascii "x")) (1, []) trivial
    (by decide +kernel)
  have hfirst : Steps sessionStep (fun _ _ => True) (bootSession blankFs) _ _ :=
    Steps.nil.extend (SessionOp.create (some (ascii "/")) nameA) (0, []) trivial
      (by decide +kernel)
  have hgone := hfirst.extend (.unlink nameA) (0, []) trivial (by decide +kernel)
  have hsecond := hgone.extend (.create (some (ascii "/")) nameB) (0, []) trivial
    (by decide +kernel)
  have hreach := hsecond.extend (.write (.created 0) (ascii "x")) (1, []) trivial
    (by decide +kernel)
  refine ⟨⟨_, _, hstale, ?_⟩, _, _, hreach, ?_⟩
  · intro h
    have hread := h ⟨⟨.ramfs, 0, 0⟩, some 1⟩ (by decide +kernel) 1 ⟨0, true, []⟩ rfl
      (by decide +kernel) rfl 0 1 (by decide)
    revert hread
    decide +kernel
  · intro h
    have hread := h ⟨⟨.abyssfs, 2, 0⟩, true, []⟩ (by decide +kernel) rfl 0 1 (by decide)
    revert hread
    decide +kernel

end Chthon
