import Chthon.AbyssSession

/-! The count of free blocks in the superblock against the bitmap. The two start out one apart, as
the root's block is marked but not taken off the count, and they part by one more whenever a block is
given back that was not in use. -/

namespace Chthon

open ByteMemory PathText Run

/-- The data blocks whose bit is clear. -/
def clearBlocks (s : Abyssfs) : Finset Nat :=
  (Finset.Ico firstDataBlock totalBlocks).filter fun i => s.used i = false

/-- The count is that of the clear bits, and tells whether a block can be had. -/
def FreeCounted (s : Abyssfs) : Prop :=
  s.freeBlocks = (clearBlocks s).card ∧ ((allocBlock s).1 = 0 ↔ s.freeBlocks = 0)

instance decidableFreeCounted (s : Abyssfs) : Decidable (FreeCounted s) :=
  inferInstanceAs (Decidable (_ ∧ _))

/-- Unlinking inode `i` gives back a block that is not a data block in use. -/
def idleRelease (s : Abyssfs) (i : Nat) : Bool :=
  let b := blocks s.mem (inodeAddr i)
  decide (i < maxInodes ∧ b ≠ 0 ∧ b < totalBlocks ∧ ¬(firstDataBlock ≤ b ∧ s.used b = true))

/-- The call is an unlink that does so. -/
def SessionOp.idle (v : Session) : SessionOp → Bool
  | .unlink path => (unlinkTarget v.volume.fs.mem path.chars).any (idleRelease v.volume.fs)
  | _ => false

/-- How often a sequence of calls does so. -/
def idleFrees (v : Session) : List SessionOp → Nat
  | [] => 0
  | op :: ops => (if op.idle v then 1 else 0) + idleFrees (next sessionStep v op) ops

/-- The bitmap and the count of two volumes agree. -/
structure SameMarks (s s' : Abyssfs) : Prop where
  bitmap : s'.blockBitmap = s.blockBitmap
  count : s'.freeBlocks = s.freeBlocks

/-- A free data block has been taken. -/
def TakesOne (s s' : Abyssfs) : Prop :=
  ∃ b, 9 ≤ b ∧ b < 64 ∧ s.used b = false ∧ SameMarks (s.take b) s'

/-- Block `i` is the first free data block; the allocator returns it and marks it alone, and
`free_block` undoes that. -/
structure TakesFirst (s : Abyssfs) (i : Nat) : Prop where
  inside : firstDataBlock ≤ i ∧ i < totalBlocks
  free : s.used i = false
  least : ∀ j, firstDataBlock ≤ j → j < i → s.used j = true
  returned : (allocBlock s).1 = i
  nonzero : i ≠ 0
  marks : ∀ j, (allocBlock s).2.used j = (s.used j || decide (i = j))
  bytes : (allocBlock s).2.mem = s.mem
  undone : freeBlock (allocBlock s).2 i = s

section Marks

variable {s s' : Abyssfs} {b : Nat}

theorem SameMarks.used (h : SameMarks s s') (b : Nat) : s'.used b = s.used b := by
  rw [Abyssfs.used, Abyssfs.used, h.bitmap]

theorem SameMarks.clearBlocks (h : SameMarks s s') : clearBlocks s' = clearBlocks s := by
  apply Finset.filter_congr
  intro b _
  rw [h.used]

theorem mem_clearBlocks : b ∈ clearBlocks s ↔ (9 ≤ b ∧ b < 64) ∧ s.used b = false := by
  rw [clearBlocks, Finset.mem_filter, Finset.mem_Ico, firstDataBlock_eq, totalBlocks_eq]

theorem clearBlocks_card_le : (clearBlocks s).card ≤ 55 :=
  Finset.card_filter_le _ _

/-- Taking a block clears it from the free ones. -/
theorem clearBlocks_take (h9 : 9 ≤ b) (hb : b < 64) (hfree : s.used b = false) :
    (clearBlocks (s.take b)).card + 1 = (clearBlocks s).card := by
  have herase : clearBlocks (s.take b) = (clearBlocks s).erase b := by
    ext c
    rw [Finset.mem_erase, mem_clearBlocks, mem_clearBlocks, take_used s hb, Bool.or_eq_false_iff,
      decide_eq_false_iff_not]
    tauto
  rw [herase]
  exact Finset.card_erase_add_one (mem_clearBlocks.mpr ⟨⟨h9, hb⟩, hfree⟩)

/-- Giving back a data block in use adds it to the free ones, and any other block does nothing. -/
theorem clearBlocks_free (hb : b < 64) : (clearBlocks (freeBlock s b)).card =
    (clearBlocks s).card + if 9 ≤ b ∧ s.used b = true then 1 else 0 := by
  have hmem : ∀ c, c ∈ clearBlocks (freeBlock s b) ↔ c ∈ clearBlocks s ∨ c = b ∧ 9 ≤ b := by
    intro c
    rw [mem_clearBlocks, mem_clearBlocks]
    by_cases hc : c < 64
    · rw [freeBlock_used s hb c hc, Bool.and_eq_false_iff, decide_eq_false_iff_not, not_not]
      rcases eq_or_ne b c with rfl | hne
      · simp only [hb, and_true, or_true, true_and]
        tauto
      · simp [hne, Ne.symm hne]
    · omega
  by_cases hused : 9 ≤ b ∧ s.used b = true
  · have hinsert : clearBlocks (freeBlock s b) = insert b (clearBlocks s) := by
      ext c
      rw [hmem, Finset.mem_insert]
      tauto
    have hnew : b ∉ clearBlocks s := by
      rw [mem_clearBlocks, hused.2]
      simp
    rw [hinsert, Finset.card_insert_of_notMem hnew, if_pos hused]
  · have hsame : clearBlocks (freeBlock s b) = clearBlocks s := by
      ext c
      rw [hmem, or_iff_left_iff_imp]
      rintro ⟨rfl, h9⟩
      rw [mem_clearBlocks]
      refine ⟨⟨h9, hb⟩, ?_⟩
      rw [not_and, Bool.not_eq_true] at hused
      exact hused h9
    rw [hsame, if_neg hused, Nat.add_zero]

/-- The allocator fails just when no bit is clear. -/
theorem allocBlock_eq_zero : (allocBlock s).1 = 0 ↔ (clearBlocks s).card = 0 := by
  rw [Finset.card_eq_zero]
  rcases allocBlock_cases s with ⟨halloc, hfull⟩ | ⟨b, h9, hb, hfree, halloc⟩
  · rw [halloc]
    refine iff_of_true rfl (Finset.eq_empty_of_forall_notMem ?_)
    intro c hc
    rw [mem_clearBlocks] at hc
    rw [hfull c hc.1.1 hc.1.2] at hc
    exact absurd hc.2 (by decide)
  · rw [halloc]
    have hmem : b ∈ clearBlocks s := mem_clearBlocks.mpr ⟨⟨h9, hb⟩, hfree⟩
    refine iff_of_false (by simp; omega) ?_
    exact Finset.nonempty_iff_ne_empty.mp ⟨b, hmem⟩

/-- Every data block before the one it takes is in use. -/
theorem allocBlock_least (h9 : 9 ≤ b) (halloc : (allocBlock s).1 = b) {c : Nat} (hc9 : 9 ≤ c)
    (hc : c < b) : s.used c = true := by
  rw [allocBlock] at halloc
  split at halloc
  · rename_i i hfind
    obtain ⟨-, hi, hbefore⟩ := List.find?_range'_eq_some.mp hfind
    have hib : i = b := halloc
    rw [List.mem_range'_1, firstDataBlock_eq, totalBlocks_eq] at hi
    have hbit := hbefore c hc9 (by omega)
    rwa [Bool.not_eq_true', decide_eq_false_iff_not, used_iff s (by omega),
      Bool.not_eq_false] at hbit
  · have hzero : (0 : Nat) = b := halloc
    omega

/-- Giving back the block that was just taken undoes it. -/
theorem freeBlock_take (hb : b < 64) (hfree : s.used b = false) (hcount : s.freeBlocks < 2 ^ 32) :
    freeBlock (s.take b) b = s := by
  have hbitmap : (s.blockBitmap ||| BitVec.twoPow 64 b) &&& ~~~BitVec.twoPow 64 b =
      s.blockBitmap := by
    ext c hc
    rw [BitVec.getElem_and, BitVec.getElem_or, BitVec.getElem_not, BitVec.getElem_twoPow]
    by_cases hbc : c = b
    · subst hbc
      rw [← BitVec.getLsbD_eq_getElem hc, decide_eq_true rfl, Bool.not_true, Bool.and_false]
      exact hfree.symm
    · simp [hbc]
  have hback : ((s.freeBlocks + (2 ^ 32 - 1)) % 2 ^ 32 + 1) % 2 ^ 32 = s.freeBlocks := by omega
  rw [freeBlock, if_pos (by rwa [totalBlocks_eq])]
  simp only [Abyssfs.take, hbitmap, hback]

/-- The first free data block is taken, or there is none and nothing changes. -/
theorem alloc_block_exact (s : Abyssfs) (hcount : s.freeBlocks < 2 ^ 32) :
    (∃ i, TakesFirst s i) ∨
      (∀ j, firstDataBlock ≤ j → j < totalBlocks → s.used j = true) ∧ allocBlock s = (0, s) := by
  rcases allocBlock_cases s with ⟨halloc, hfull⟩ | ⟨b, h9, hb, hfree, halloc⟩
  · exact .inr ⟨hfull, halloc⟩
  · refine .inl ⟨b, ⟨h9, hb⟩, hfree, ?_, ?_, by omega, ?_, ?_, ?_⟩
    · exact fun j hj hlt => allocBlock_least h9 (by rw [halloc]) hj hlt
    · rw [halloc]
    · rw [halloc]
      exact take_used s hb
    · rw [halloc]
      exact take_mem s b
    · rw [halloc]
      exact freeBlock_take hb hfree hcount

theorem alloc_block_exact_boot :
    (∃ i, TakesFirst (bootVolume blankFs).fs i) ∨
      (∀ j, firstDataBlock ≤ j → j < totalBlocks → (bootVolume blankFs).fs.used j = true) ∧
        allocBlock (bootVolume blankFs).fs = (0, (bootVolume blankFs).fs) :=
  alloc_block_exact (bootVolume blankFs).fs (by rw [bootVolume_eq]; decide)

theorem freeCounted_iff : FreeCounted s ↔ s.freeBlocks = (clearBlocks s).card := by
  refine and_iff_left_of_imp ?_
  intro h
  rw [allocBlock_eq_zero, h]

/-! What the calls do to the bitmap and the count. -/

theorem SameMarks.refl (s : Abyssfs) : SameMarks s s := ⟨rfl, rfl⟩

theorem create_marks {heapPos heapPos' : Nat} {cwd : Option Str} {path : Str}
    {file : Option VfsFile} (h : abyssfsCreate heapPos s cwd path = some (file, heapPos', s')) :
    SameMarks s s' := by
  rcases abyssfsCreate_cases h with ⟨-, rfl, -⟩ |
    ⟨i, -, -, -, -, ⟨-, rfl⟩ | ⟨_, _, _, _, _, -, -, -, rfl, -⟩⟩
  · exact .refl s'
  · exact ⟨rfl, rfl⟩
  · exact ⟨rfl, rfl⟩

theorem mkdir_marks {path : Str} {result : Int} (h : abyssfsMkdir s path = some (result, s')) :
    SameMarks s s' ∨ TakesOne s s' := by
  rcases abyssfsMkdir_cases h with ⟨-, -, rfl⟩ | ⟨p, num, base, -, h⟩
  · exact .inl (.refl s')
  rcases h with ⟨-, -, rfl⟩ | ⟨i, -, -, -, -, h⟩
  · exact .inl (.refl s')
  rcases h with ⟨-, rfl⟩ | ⟨b, h9, hb, hfree, -, h⟩
  · exact .inl ⟨rfl, rfl⟩
  refine .inr ⟨b, h9, hb, hfree, ?_⟩
  rcases h with ⟨-, -, rfl⟩ | ⟨_, _, _, -, -, -, -, rfl⟩
  · exact ⟨rfl, rfl⟩
  · exact ⟨rfl, rfl⟩

theorem writeToBlocks_marks (s : Abyssfs) (inode : Nat) (buf : Str) :
    SameMarks s (writeToBlocks s inode buf).2 ∨ TakesOne s (writeToBlocks s inode buf).2 := by
  rw [writeToBlocks]
  by_cases hzero : blocks s.mem inode = 0
  · rw [if_pos hzero]
    rcases allocBlock_cases s with ⟨halloc, -⟩ | ⟨b, h9, hb, hfree, halloc⟩
    · rw [halloc]
      exact .inl (.refl s)
    · obtain ⟨c, rfl⟩ := Nat.exists_eq_add_of_le' (show 1 ≤ b by omega)
      rw [halloc]
      exact .inr ⟨c + 1, h9, hb, hfree, rfl, rfl⟩
  · rw [if_neg hzero]
    exact .inl ⟨rfl, rfl⟩

theorem write_marks (s : Abyssfs) (file : VfsFile) (data : Str) :
    SameMarks s (abyssfsWrite s file data).2 ∨ TakesOne s (abyssfsWrite s file data).2 := by
  rw [abyssfsWrite]
  cases getInode (file.privateData % 2 ^ 32) with
  | none => exact .inl (.refl s)
  | some inode =>
      have hwrite := writeToBlocks_marks s inode data
      simp only
      split_ifs
      · rcases hwrite with h | ⟨b, h9, hb, hfree, h⟩
        · exact .inl ⟨h.bitmap, h.count⟩
        · exact .inr ⟨b, h9, hb, hfree, h.bitmap, h.count⟩
      · exact hwrite

/-- An unlink that finds its record gives the block of the inode back. -/
theorem unlink_marks {path : Str} {result : Int} (h : abyssfsUnlink s path = some (result, s')) :
    match unlinkTarget s.mem path with
    | none => SameMarks s s'
    | some i => SameMarks (releaseInode s i) s' := by
  simp only [abyssfsUnlink, unlinkTarget] at h ⊢
  split at h
  · cases h
  · rename_i hfind
    rw [hfind]
    cases h
    exact .refl s
  · rename_i dir hfind
    rw [hfind]
    simp only [Option.map_eq_some_iff, Prod.mk.injEq] at h
    obtain ⟨m, -, -, rfl⟩ := h
    exact ⟨rfl, rfl⟩

/-- The count is ahead of the clear bits by `k`. -/
def Ahead (k : Nat) (s : Abyssfs) : Prop := s.freeBlocks = ((clearBlocks s).card + k) % 2 ^ 32

theorem Ahead.same {k : Nat} (h : Ahead k s) (hmarks : SameMarks s s') : Ahead k s' := by
  rw [Ahead, hmarks.clearBlocks, hmarks.count]
  exact h

theorem Ahead.takes {k : Nat} (h : Ahead k s) (htakes : TakesOne s s') : Ahead k s' := by
  obtain ⟨b, h9, hb, hfree, hmarks⟩ := htakes
  apply Ahead.same _ hmarks
  have hcard := clearBlocks_take h9 hb hfree
  have hcount : (s.take b).freeBlocks = (s.freeBlocks + (2 ^ 32 - 1)) % 2 ^ 32 := rfl
  rw [Ahead] at h ⊢
  rw [hcount, h]
  omega

/-- Giving back a block keeps the distance just when the block was in use. -/
theorem Ahead.release {k i : Nat} (h : Ahead k s) :
    Ahead (k + if idleRelease s i then 1 else 0) (releaseInode s i) := by
  simp only [idleRelease, decide_eq_true_eq]
  by_cases hi : i < maxInodes
  · have hblocks : blocks (write32 s.mem (inodeAddr i) 0) (inodeAddr i) =
        blocks s.mem (inodeAddr i) := read32_write32_of_disjoint _ _ (by omega)
    rw [releaseInode, getInode_of_lt hi]
    simp only [hblocks]
    by_cases hzero : blocks s.mem (inodeAddr i) = 0
    · rw [if_pos hzero, if_neg (by tauto)]
      exact h.same ⟨rfl, rfl⟩
    · rw [if_neg hzero]
      by_cases hb : blocks s.mem (inodeAddr i) < totalBlocks
      · obtain ⟨t, ht⟩ : ∃ t : Abyssfs, { s with mem := write32 s.mem (inodeAddr i) 0 } = t := ⟨_, rfl⟩
        have hmarks : SameMarks s t := ht ▸ ⟨rfl, rfl⟩
        have hcard := clearBlocks_free (s := t) hb
        have hcount : (freeBlock t (blocks s.mem (inodeAddr i))).freeBlocks =
            (s.freeBlocks + 1) % 2 ^ 32 := by
          rw [freeBlock, if_pos hb, hmarks.count]
        rw [hmarks.used, hmarks.clearBlocks] at hcard
        rw [Ahead] at h ⊢
        rw [ht, hcount, hcard]
        by_cases huse : 9 ≤ blocks s.mem (inodeAddr i) ∧ s.used (blocks s.mem (inodeAddr i)) = true
        · rw [if_pos huse, if_neg (by rw [firstDataBlock_eq]; tauto)]
          omega
        · rw [if_neg huse, if_pos ⟨hi, hzero, hb, by rwa [firstDataBlock_eq]⟩]
          omega
      · rw [if_neg (by tauto), freeBlock, if_neg hb]
        exact h.same ⟨rfl, rfl⟩
  · have hnone : releaseInode s i = s := by
      rw [releaseInode, getInode, if_pos (by omega)]
    rw [hnone, if_neg (by tauto)]
    exact h

end Marks

section Runs

variable {v v' : Session} {op : SessionOp} {reply : Int × Str}

/-- A call of a session moves the distance by its idle free. -/
theorem Ahead.step {k : Nat} (h : Ahead k v.volume.fs)
    (htaken : sessionStep v op = some (reply, v')) :
    Ahead (k + if op.idle v then 1 else 0) v'.volume.fs := by
  cases op with
  | create cwd path =>
      simp only [sessionStep, Option.map_eq_some_iff] at htaken
      obtain ⟨⟨file, heapPos, fs⟩, hcreate, heq⟩ := htaken
      have hmarks := create_marks hcreate
      cases file <;> cases heq <;> exact h.same hmarks
  | mkdir path =>
      simp only [sessionStep, Option.map_eq_some_iff] at htaken
      obtain ⟨⟨result, fs⟩, hmkdir, heq⟩ := htaken
      cases heq
      exact (mkdir_marks hmkdir).elim h.same h.takes
  | openPath path =>
      simp only [sessionStep, abyssfsOpen] at htaken
      split at htaken <;> cases htaken <;> exact h
  | unlink path =>
      simp only [sessionStep, Option.map_eq_some_iff] at htaken
      obtain ⟨⟨result, fs⟩, hunlink, heq⟩ := htaken
      cases heq
      have hmarks := unlink_marks hunlink
      cases htarget : unlinkTarget v.volume.fs.mem path.chars with
      | none =>
          rw [htarget] at hmarks
          rw [SessionOp.idle, htarget]
          exact h.same hmarks
      | some i =>
          rw [htarget] at hmarks
          rw [SessionOp.idle, htarget]
          exact h.release.same hmarks
  | read ref count =>
      simp only [sessionStep, Option.bind_eq_some_iff, Option.map_eq_some_iff] at htaken
      obtain ⟨file, -, ⟨bytes, file'⟩, -, heq⟩ := htaken
      cases heq
      cases ref <;> exact h
  | write ref data =>
      simp only [sessionStep, Option.map_eq_some_iff] at htaken
      obtain ⟨file, -, heq⟩ := htaken
      cases heq
      have hmarks := (write_marks v.volume.fs file data).elim h.same h.takes
      cases ref <;> exact hmarks

theorem idleFrees_append (v : Session) (ops ops' : List SessionOp) :
    idleFrees v (ops ++ ops') =
      idleFrees v ops + idleFrees (ops.foldl (next sessionStep) v) ops' := by
  induction ops generalizing v with
  | nil => exact (Nat.zero_add _).symm
  | cons op ops ih =>
      rw [List.cons_append, idleFrees, ih, idleFrees, List.foldl_cons, Nat.add_assoc]

theorem boot_clearBlocks (s : Abyssfs) : clearBlocks (bootVolume s).fs = Finset.Ico 10 64 := by
  ext b
  rw [mem_clearBlocks, boot_used, decide_eq_false_iff_not, Finset.mem_Ico]
  omega

/-- At boot the root's block is marked and still counted as free. -/
theorem Ahead.boot (s : Abyssfs) : Ahead 1 (bootVolume s).fs := by
  rw [Ahead, boot_clearBlocks, bootVolume_eq]
  rfl

/-- Along a run the count stays ahead by one more than the run's idle frees. -/
theorem Ahead.run {s : Abyssfs} {trace : List (SessionOp × (Int × Str))}
    (h : Steps sessionStep (fun _ _ => True) (bootSession s) trace v) :
    Ahead (1 + idleFrees (bootSession s) (trace.map Prod.fst)) v.volume.fs := by
  induction h with
  | nil => exact Ahead.boot s
  | snoc prior _ taken ih =>
      rw [List.map_append, List.map_singleton, idleFrees_append, prior.foldl_next, ← Nat.add_assoc]
      exact ih.step taken

/-- The count is that of the clear blocks just where the frees of blocks not in use, and the one for
the root, have taken it round to zero. -/
theorem free_blocks_counted_iff (s : Abyssfs) (trace : List (SessionOp × (Int × Str)))
    (v : Session) (h : Steps sessionStep (fun _ _ => True) (bootSession s) trace v) :
    FreeCounted v.volume.fs ↔ 2 ^ 32 ∣ 1 + idleFrees (bootSession s) (trace.map Prod.fst) := by
  have hahead := Ahead.run h
  have hcard := clearBlocks_card_le (s := v.volume.fs)
  rw [freeCounted_iff, hahead]
  omega

/-- A file is created and written, a directory is made, and the file is unlinked again. -/
theorem free_blocks_counted_session :
    ∃ trace v, Steps sessionStep (fun _ _ => True) (bootSession blankFs) trace v ∧
      trace.map Prod.snd = [(0, []), (2, []), (0, []), (0, [])] ∧
      (FreeCounted v.volume.fs ↔ 2 ^ 32 ∣ 1 + 0) := by
  let create : SessionOp := .create (some (ascii "/")) ⟨ascii "/a", by decide⟩
  let write : SessionOp := .write (.created 0) (ascii "hi")
  let mkdir : SessionOp := .mkdir ⟨ascii "/d", by decide⟩
  let unlink : SessionOp := .unlink ⟨ascii "/a", by decide⟩
  have hcreate : Steps sessionStep (fun _ _ => True) (bootSession blankFs)
      ([] ++ [(create, (0, []))]) (next sessionStep (bootSession blankFs) create) :=
    Steps.nil.extend create (0, []) trivial (by decide +kernel)
  have hwrite := hcreate.extend write (2, []) trivial (by decide +kernel)
  have hmkdir := hwrite.extend mkdir (0, []) trivial (by decide +kernel)
  have hunlink := hmkdir.extend unlink (0, []) trivial (by decide +kernel)
  have hidle : idleFrees (bootSession blankFs) [create, write, mkdir, unlink] = 0 := by
    decide +kernel
  have hiff := free_blocks_counted_iff blankFs _ _ hunlink
  simp only [List.nil_append, List.map_cons, List.map_nil, List.cons_append] at hiff
  rw [hidle] at hiff
  exact ⟨_, _, hunlink, rfl, hiff⟩

/-- Fifty-five blocks are counted at boot and fifty-four can be had. -/
theorem boot_block_overcounted : ¬ ∀ (s : Abyssfs) (trace : List (SessionOp × (Int × Str)))
    (v : Session), Steps sessionStep (fun _ _ => True) (bootSession s) trace v →
      FreeCounted v.volume.fs := by
  intro h
  have hboot := (h blankFs [] (bootSession blankFs) .nil).1
  rw [bootSession, boot_clearBlocks, bootVolume_eq] at hboot
  exact absurd hboot (by decide)

end Runs

end Chthon
