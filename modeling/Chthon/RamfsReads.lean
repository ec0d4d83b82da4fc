import Chthon.AbyssOpen
import Chthon.RamfsFiles
import Chthon.VfsNames

/-! The two ways RAMFS reads a file. `ramfs_read` goes by the size, `ramfs_read_file` by a NUL in the
array, and it compares paths with a loop of its own. The two agree where the contents of a file hold
a NUL, fill the array or end in front of a NUL; a slot is reused with the bytes it had, so that not
every write leaves it so. -/

namespace Chthon

open ByteMemory Run FlatFile

/-- The comparison in `ramfs_read_file`, over at most `n` bytes of the stored path. -/
def pathMatches (m : Memory) : Nat → Nat → Str → Bool
  | _, 0, _ => true
  | a, _ + 1, [] => m a == 0
  | a, n + 1, c :: cs => m a == c && pathMatches m (a + 1) n cs

/-- The copy loop of `ramfs_read_file`: its count, and the bytes it has stored to `out`. -/
def copyContent (m : Memory) : Nat → Nat → Nat × Str
  | _, 0 => (0, [])
  | a, n + 1 =>
      if m a = 0 then (0, [0])
      else
        let (c, out) := copyContent m (a + 1) n
        (c + 1, m a :: out)

def ramfsReadFile (fs : Ramfs) (path : Str) (maxLen : Nat) : Int × Str :=
  match (List.range maxFiles).find? fun i =>
      (fs i).used && pathMatches (fs i).bytes 0 slotPath path with
  | none => (-1, [])
  | some i =>
      let (c, out) := copyContent (fs i).bytes slotPath maxLen
      (c, out)

/-- What is claimed of the two: the same bytes and count where the contents have no NUL, and -1 just
where there is no handle. -/
def ReadsAgree (heapPos : Nat) (fs : Ramfs) (path : CString) (maxLen : Nat) : Prop :=
  (∀ file heapPos', ramfsOpen heapPos fs path.chars = (some file, heapPos') →
      0 ∉ (fs file.privateData).contents → ∃ bytes file',
        ramfsRead fs file maxLen = some (bytes, file') ∧
        (ramfsReadFile fs path.chars maxLen).1 = bytes.length ∧
        (ramfsReadFile fs path.chars maxLen).2.take bytes.length = bytes) ∧
    ((ramfsReadFile fs path.chars maxLen).1 = -1 ↔ (ramfsOpen heapPos fs path.chars).1 = none)

/-- The calls that change the slots. A write may come through any handle, also one whose file has
been unlinked. -/
inductive RamfsCall where
  | createFile (path content : CString)
  | create (heapPos : Nat) (path : CString)
  | write (file : VfsFile) (data : Str)
  | unlink (path : CString)
  | mkdir (path : CString)

def ramfsCall (fs : Ramfs) : RamfsCall → Option (Int × Ramfs)
  | .createFile path content => some (ramfsCreateFile fs path.chars content.chars)
  | .create heapPos path => (ramfsCreate heapPos fs path.chars).map fun (file, _, fs) =>
      (if file.isSome then 0 else -1, fs)
  | .write file data => (ramfsWrite fs file data).map fun (count, _, fs) => (count, fs)
  | .unlink path => some (ramfsUnlink fs path.chars)
  | .mkdir path => some (ramfsMkdir fs path.chars)

/-- The contents fill the array, or there is a NUL among them or right behind them. -/
def RamfsFile.Ended (rf : RamfsFile) : Prop :=
  rf.size = maxContent ∨ ∃ k ≤ rf.size, rf.bytes (slotPath + k) = 0

/-- After a write of `stored` at `pos` this is so: the array is full, a NUL is written, or one is left
before the new end or right at it. -/
def RamfsFile.WriteEnds (rf : RamfsFile) (pos : Nat) (stored : Str) : Prop :=
  max rf.size (pos + stored.length) = maxContent ∨ 0 ∈ stored ∨
    ∃ k ≤ max rf.size (pos + stored.length), (k < pos ∨ pos + stored.length ≤ k) ∧
      rf.bytes (slotPath + k) = 0

/-- A write to a file in use keeps its end, and a directory takes a slot with empty contents and fits
its path into it. -/
def RamfsCall.Ends (fs : Ramfs) : RamfsCall → Prop
  | .write file data => (fs file.privateData).used = true →
      File.fitting maxContent file.fPos data ≠ [] →
      (fs file.privateData).WriteEnds file.fPos (File.fitting maxContent file.fPos data)
  | .mkdir path => ∀ i, ramfsFree fs = some i →
      path.chars.length < slotPath ∧ (fs i).bytes slotPath = 0
  | _ => True

/-! The path comparison. -/

section Matching

variable {m : Memory} {fs : Ramfs} {path : Str}

/-- On a stored path that ends within its array the loop is `strcmp`. -/
theorem pathMatches_eq_strEq (hpath : 0 ∉ path) : ∀ (n a : Nat), (∃ k < n, m (a + k) = 0) →
    pathMatches m a n path = strEq m a path := by
  induction path with
  | nil =>
      intro n a hnul
      obtain ⟨k, hk, -⟩ := hnul
      cases n with
      | zero => exact absurd hk (Nat.not_lt_zero k)
      | succ n => rfl
  | cons c cs ih =>
      intro n a hnul
      obtain ⟨k, hk, hzero⟩ := hnul
      obtain ⟨hc, hcs⟩ := not_or.mp (mt List.mem_cons.mpr hpath)
      cases n with
      | zero => exact absurd hk (Nat.not_lt_zero k)
      | succ n =>
          rw [pathMatches, strEq]
          by_cases hfirst : m a = c
          · -- the NUL is further on, as `c` is none
            cases k with
            | zero => exact absurd (hzero.symm.trans hfirst) hc
            | succ k =>
                rw [ih hcs n (a + 1) ⟨k, by omega, by rw [Nat.add_assoc, Nat.add_comm 1]; exact hzero⟩]
          · rw [beq_eq_false_iff_ne.mpr hfirst, Bool.false_and, Bool.false_and]

/-- Where the paths end within their arrays, both reads go to the same slot. -/
theorem ramfsReadFile_find (hnamed : NamedSlots fs) (hpath : 0 ∉ path) (maxLen : Nat) :
    ramfsReadFile fs path maxLen =
      match ramfsFind fs path with
      | none => (-1, [])
      | some i => (((copyContent (fs i).bytes slotPath maxLen).1 : Int),
          (copyContent (fs i).bytes slotPath maxLen).2) := by
  have hfind : ((List.range maxFiles).find? fun i =>
      (fs i).used && pathMatches (fs i).bytes 0 slotPath path) = ramfsFind fs path := by
    rw [ramfsFind]
    apply List.find?_congr
    intro i hi
    cases hused : (fs i).used with
    | false => rfl
    | true =>
        obtain ⟨full, hfull⟩ := hnamed i (List.mem_range.mp hi) hused
        rw [pathMatches_eq_strEq hpath slotPath 0 ⟨full.length, hfull.short, by
          rw [Nat.zero_add]; exact hfull.nul⟩]
  rw [ramfsReadFile, hfind]

end Matching

/-! The copy loop. -/

section Copy

variable {m : Memory} {a n k : Nat}

/-- The loop copies up to a NUL. -/
theorem copyContent_eq (m : Memory) (n : Nat) : ∀ a,
    (copyContent m a n).1 = ((load m a n).takeWhile (· ≠ 0)).length ∧
      (copyContent m a n).2.take (copyContent m a n).1 = (load m a n).takeWhile (· ≠ 0) := by
  induction n with
  | zero => exact fun a => ⟨rfl, rfl⟩
  | succ n ih =>
      intro a
      obtain ⟨hcount, hbytes⟩ := ih (a + 1)
      have hload : load m a (n + 1) = m a :: load m (a + 1) n := by
        simp only [load, List.range_succ_eq_map, List.map_cons, List.map_map, Nat.add_zero]
        congr 2
        funext k
        rw [Function.comp_apply, Nat.succ_eq_add_one, Nat.add_assoc, Nat.add_comm 1]
      rw [copyContent, hload, List.takeWhile_cons]
      by_cases hzero : m a = 0
      · simp [hzero]
      · simp only [hzero, if_false, ne_eq, not_false_eq_true, decide_true, if_true,
          List.length_cons, List.take_succ_cons]
        exact ⟨by rw [hcount], by rw [hbytes]⟩

theorem zero_mem_load : 0 ∈ load m a n ↔ ∃ k < n, m (a + k) = 0 := by
  simp only [load, List.mem_map, List.mem_range]

/-- Without a NUL among its first `n` bytes, a copy of at most `k` stops at the `n`-th just where it
must: as `k` is reached, or as a NUL follows. -/
theorem takeWhile_load_iff (hplain : 0 ∉ load m a n) :
    (load m a k).takeWhile (· ≠ 0) = (load m a n).take k ↔ k ≤ n ∨ m (a + n) = 0 := by
  have hall : ∀ c ∈ load m a n, decide (c ≠ 0) = true := by
    intro c hc
    rw [decide_eq_true_iff]
    rintro rfl
    exact hplain hc
  by_cases hk : k ≤ n
  · refine iff_of_true ?_ (.inl hk)
    have hpart : load m a k = (load m a n).take k := by
      have hdrop := load_drop_take m a n 0 k (by omega)
      rwa [Nat.add_zero, List.drop_zero] at hdrop
    rw [hpart, List.takeWhile_eq_self_iff]
    exact fun c hc => hall c (List.mem_of_mem_take hc)
  · obtain ⟨j, rfl⟩ := Nat.exists_eq_add_of_lt (Nat.lt_of_not_le hk)
    have htake : (load m a n).take (n + j + 1) = load m a n :=
      List.take_of_length_le (by rw [load_length]; omega)
    have hhead : load m (a + n) (j + 1) = m (a + n) :: load m (a + n + 1) j := by
      rw [Nat.add_comm j, load_add]
      rfl
    rw [htake, Nat.add_assoc n, load_add, List.takeWhile_append_of_pos hall, hhead,
      List.takeWhile_cons, List.append_right_eq_self]
    have hk' : ¬n + (j + 1) ≤ n := by omega
    by_cases hzero : m (a + n) = 0 <;> simp [hzero]

end Copy

/-! One state. -/

section State

variable {heapPos : Nat} {fs : Ramfs} {path : CString} {maxLen i : Nat}

/-- A read of at most `maxLen` bytes finds the end of the contents. -/
def RamfsFile.EndsWithin (rf : RamfsFile) (maxLen : Nat) : Prop :=
  0 ∈ rf.contents ∨ maxLen ≤ rf.size ∨ rf.bytes (slotPath + rf.size) = 0

theorem RamfsFile.Ended.endsWithin {rf : RamfsFile} (h : rf.Ended) (hmax : maxLen ≤ maxContent) :
    rf.EndsWithin maxLen := by
  rcases h with hfull | ⟨k, hk, hzero⟩
  · exact .inr (.inl (hfull ▸ hmax))
  · rcases hk.lt_or_eq with hlt | rfl
    · exact .inl (zero_mem_load.mpr ⟨k, hlt, hzero⟩)
    · exact .inr (.inr hzero)

/-- The two reads of one slot give the same bytes just where the sentinel is found in time. -/
theorem sameBytes_iff (fs : Ramfs) (i : Nat) (hmax : maxLen ≤ maxContent)
    (hplain : 0 ∉ (fs i).contents) :
    (∃ bytes file', ramfsRead fs ⟨.ramfs, i, 0⟩ maxLen = some (bytes, file') ∧
      ((copyContent (fs i).bytes slotPath maxLen).1 : Int) = bytes.length ∧
      (copyContent (fs i).bytes slotPath maxLen).2.take bytes.length = bytes) ↔
      maxLen ≤ (fs i).size ∨ (fs i).bytes (slotPath + (fs i).size) = 0 := by
  obtain ⟨hcount, hbytes⟩ := copyContent_eq (fs i).bytes maxLen slotPath
  have hfits : 0 + maxLen < 2 ^ 64 := by
    rw [maxContent] at hmax
    omega
  have hread := ramfsRead_contents fs ⟨.ramfs, i, 0⟩ hfits
  simp only [List.drop_zero] at hread
  rw [← takeWhile_load_iff hplain]
  constructor
  · intro h
    obtain ⟨bytes, file', hcall, hlength, htake⟩ := h
    rw [hread] at hcall
    cases hcall
    rw [Nat.cast_inj] at hlength
    rw [← hbytes, hlength, htake]
    rfl
  · intro htext
    refine ⟨_, _, hread, ?_, ?_⟩
    · rw [Nat.cast_inj, hcount, htext]
      rfl
    · have hlength : (copyContent (fs i).bytes slotPath maxLen).1 =
          ((fs i).contents.take maxLen).length := by
        rw [hcount, htext]
        rfl
      rw [← hlength, hbytes, htext]
      rfl

/-- In any state whose paths end within their arrays the reads of a path agree just where it names no
file, or there is heap for the handle and the file ends in the reach of the read. -/
theorem readsAgree_iff (hnamed : NamedSlots fs) (hmax : maxLen ≤ maxContent) :
    ReadsAgree heapPos fs path maxLen ↔ ∀ i, ramfsFind fs path.chars = some i →
      HandleRoom heapPos ∧ (fs i).EndsWithin maxLen := by
  have hread := ramfsReadFile_find hnamed path.nul_free maxLen
  cases hfind : ramfsFind fs path.chars with
  | none =>
      rw [hfind] at hread
      refine iff_of_true ⟨?_, ?_⟩ fun i hi => by cases hi
      · intro file heapPos' hopen
        rw [ramfsOpen, hfind] at hopen
        cases hopen
      · rw [hread, ramfsOpen, hfind]
        exact iff_of_true rfl rfl
  | some i =>
      rw [hfind] at hread
      have hfound : (ramfsReadFile fs path.chars maxLen).1 ≠ -1 := by
        rw [hread]
        exact (Int.natCast_nonneg _ |>.trans_lt' (by decide)).ne'
      cases hroom : kalloc heapPos vfsFileSize with
      | mk addr heapPos' =>
          cases addr with
          | none =>
              -- the file is there, but it cannot be opened
              have hopen : ramfsOpen heapPos fs path.chars = (none, heapPos') := by
                simp only [ramfsOpen, hfind, hroom]
              refine iff_of_false (fun h => hfound ?_) fun h => ?_
              · exact h.2.mpr (by rw [hopen])
              · have hsome := (h i rfl).1
                rw [HandleRoom, hroom] at hsome
                cases hsome
          | some addr =>
              have hopen : ramfsOpen heapPos fs path.chars = (some ⟨.ramfs, i, 0⟩, heapPos') := by
                simp only [ramfsOpen, hfind, hroom]
              have hsome : HandleRoom heapPos := by
                rw [HandleRoom, hroom]
                rfl
              have hopened : (ramfsOpen heapPos fs path.chars).1 ≠ none := by
                rw [hopen]
                exact Option.some_ne_none _
              constructor
              · intro h j hj
                cases hj
                refine ⟨hsome, or_iff_not_imp_left.mpr fun hplain => ?_⟩
                have hsame := h.1 _ _ hopen hplain
                rw [hread] at hsame
                exact (sameBytes_iff fs i hmax hplain).mp hsame
              · intro h
                refine ⟨fun file heapPos'' hcall hplain => ?_, iff_of_false hfound hopened⟩
                rw [hopen] at hcall
                cases hcall
                rw [hread]
                exact (sameBytes_iff fs i hmax hplain).mpr ((h i rfl).2.resolve_left hplain)

end State

/-! What the calls do to a slot. -/

/-- What every slot meets where all calls do. -/
structure RamfsFile.Sound (rf : RamfsFile) : Prop where
  named : rf.used = true → ∃ path, rf.Named path
  ended : rf.used = true → rf.Ended

section Calls

variable {fs fs' : Ramfs} {rf : RamfsFile} {i : Nat}

theorem RamfsFile.Sound.unused (h : rf.used = false) : rf.Sound where
  named hused := absurd (h.symm.trans hused) Bool.false_ne_true
  ended hused := absurd (h.symm.trans hused) Bool.false_ne_true

theorem RamfsFile.Sound.update (h : ∀ j, (fs j).Sound) (hrf : rf.Sound) (j : Nat) :
    (Function.update fs i rf j).Sound := by
  by_cases hj : j = i
  · rwa [hj, Function.update_self]
  · rw [Function.update_of_ne hj]
    exact h j

/-- Nothing is stored, or a piece of the data that fits behind the position. -/
theorem ramfsWrite_stored {file file' : VfsFile} {data : Str} {count : Nat}
    (h : ramfsWrite fs file data = some (count, file', fs')) :
    fs' = fs ∨ ∃ stored, stored = File.fitting maxContent file.fPos data ∧ stored ≠ [] ∧
      fs' = Function.update fs file.privateData { fs file.privateData with
        bytes := store (fs file.privateData).bytes (slotPath + file.fPos) stored
        size := max (fs file.privateData).size (file.fPos + stored.length) } := by
  simp only [ramfsWrite, larger_eq_max] at h
  generalize hn : (if (file.fPos + data.length) % 2 ^ 64 > maxContent
    then (maxContent + 2 ^ 64 - file.fPos) % 2 ^ 64 else data.length) = n at h
  split_ifs at h with hzero hover
  · simp only [Option.some.injEq, Prod.mk.injEq] at h
    exact .inl h.2.2.symm
  · simp only [Option.some.injEq, Prod.mk.injEq] at h
    obtain ⟨-, -, rfl⟩ := h
    have hshort : n ≤ data.length ∧ min n data.length = min (maxContent - file.fPos) data.length := by
      split_ifs at hn with hlimit <;> simp only [maxContent] at hn hlimit hover ⊢ <;> omega
    have hfitting : data.take n = File.fitting maxContent file.fPos data :=
      List.take_eq_take_iff.mpr hshort.2
    have hlength : (data.take n).length = n := List.length_take_of_le hshort.1
    refine .inr ⟨data.take n, hfitting, ?_, ?_⟩
    · exact List.ne_nil_of_length_pos (by omega)
    · rw [hlength]

/-- A write keeps the end of the file exactly under its condition. -/
theorem writeEnds_iff (rf : RamfsFile) (pos : Nat) (stored : Str) (used : Bool) :
    RamfsFile.Ended ⟨store rf.bytes (slotPath + pos) stored, max rf.size (pos + stored.length), used⟩ ↔
      rf.WriteEnds pos stored := by
  have hinside : ∀ k (hk : k < stored.length),
      store rf.bytes (slotPath + pos) stored (slotPath + (pos + k)) = stored[k] := by
    intro k hk
    rw [← Nat.add_assoc]
    exact store_at _ _ _ k hk
  have houtside : ∀ k, (k < pos ∨ pos + stored.length ≤ k) →
      store rf.bytes (slotPath + pos) stored (slotPath + k) = rf.bytes (slotPath + k) :=
    fun k hk => store_outside _ _ (by omega)
  refine or_congr_right ?_
  constructor
  · intro h
    obtain ⟨k, hk, hzero⟩ := h
    by_cases hout : k < pos ∨ pos + stored.length ≤ k
    · exact .inr ⟨k, hk, hout, (houtside k hout).symm.trans hzero⟩
    · obtain ⟨j, rfl⟩ := Nat.exists_eq_add_of_le (show pos ≤ k by omega)
      have hj : j < stored.length := by omega
      exact .inl (List.mem_iff_getElem.mpr ⟨j, hj, (hinside j hj).symm.trans hzero⟩)
  · intro h
    rcases h with hmem | ⟨k, hk, hout, hzero⟩
    · obtain ⟨j, hj, hzero⟩ := List.mem_iff_getElem.mp hmem
      exact ⟨pos + j, by dsimp only; omega, (hinside j hj).trans hzero⟩
    · exact ⟨k, hk, (houtside k hout).trans hzero⟩

/-- A call that meets its condition keeps all slots sound. -/
theorem RamfsFile.Sound.call {call : RamfsCall} {result : Int} (h : ∀ j, (fs j).Sound)
    (hends : call.Ends fs) (hcall : ramfsCall fs call = some (result, fs')) (j : Nat) :
    (fs' j).Sound := by
  cases call with
  | createFile path content =>
      simp only [ramfsCall, ramfsCreateFile] at hcall
      split at hcall
      · cases hcall
        exact h j
      · rename_i i _
        cases hcall
        refine .update h ⟨fun _ => ⟨path.chars.take (slotPath - 1), ?_⟩, fun _ => ?_⟩ j
        · refine named_of_store ?_ (fun hmem => path.nul_free (List.mem_of_mem_take hmem))
            fun a ha => store_of_lt _ _ ha
          rw [List.length_take]
          simp only [slotPath]
          omega
        · refine .inr ⟨_, le_rfl, ?_⟩
          have hnul := store_at (store (fs i).bytes 0 (path.chars.take (slotPath - 1) ++ [0]))
            slotPath (content.chars.take (maxContent - 1) ++ [0])
            (content.chars.take (maxContent - 1)).length (by simp)
          rw [List.getElem_concat_length rfl] at hnul
          exact hnul
  | create heapPos path =>
      simp only [ramfsCall, Option.map_eq_some_iff] at hcall
      obtain ⟨⟨file, heapPos', fs''⟩, hcreate, heq⟩ := hcall
      cases heq
      have hfull := ramfsFullPath_nul_free path.nul_free
      cases file with
      | none =>
          rcases ramfsCreate_none hcreate with ⟨-, rfl⟩ | ⟨i, -, -, -, rfl⟩
          · exact h j
          · exact .update h (.unused rfl) j
      | some file =>
          obtain ⟨i, -, -, hlen, rfl⟩ := ramfsCreate_some hcreate
          refine .update h ⟨fun _ => ⟨_, newSlot_named (fs i) true hlen hfull⟩, fun _ => ?_⟩ j
          exact .inr ⟨0, le_rfl, store_cons_head
            (store (fs i).bytes 0 (ramfsFullPath path.chars ++ [0])) slotPath 0 []⟩
  | write file data =>
      simp only [ramfsCall, Option.map_eq_some_iff] at hcall
      obtain ⟨⟨count, file', fs''⟩, hwrite, heq⟩ := hcall
      cases heq
      rcases ramfsWrite_stored hwrite with rfl | ⟨stored, rfl, hne, rfl⟩
      · exact h j
      · refine .update h ⟨fun hused => ?_, fun hused => ?_⟩ j
        · obtain ⟨path, hpath⟩ := (h file.privateData).named hused
          exact ⟨path, hpath.congr fun a ha => store_of_lt _ _ (ha.trans_le (Nat.le_add_right _ _))⟩
        · exact (writeEnds_iff _ _ _ _).mpr (hends hused hne)
  | unlink path =>
      simp only [ramfsCall, ramfsUnlink] at hcall
      split at hcall
      · cases hcall
        exact h j
      · cases hcall
        exact .update h (.unused rfl) j
  | mkdir path =>
      simp only [ramfsCall, ramfsMkdir] at hcall
      split at hcall
      · cases hcall
        exact h j
      · rename_i i hfree
        cases hcall
        obtain ⟨hlen, hzero⟩ := hends i hfree
        refine .update h ⟨fun _ => ⟨path.chars, ?_⟩, fun _ => .inr ⟨0, le_rfl, ?_⟩⟩ j
        · exact named_of_store hlen path.nul_free fun _ _ => rfl
        · -- the path and its NUL end in front of the contents
          refine (store_of_ge (fs i).bytes (a := 0) (path.chars ++ [0]) ?_).trans hzero
          rw [List.length_append, List.length_singleton]
          omega

end Calls

/-- In every run whose calls meet their conditions the reads of every path agree, unless it names a
file and the heap has no room for a handle on it. -/
theorem ramfs_reads_agree (trace : List (RamfsCall × Int)) (fs : Ramfs)
    (h : Steps ramfsCall RamfsCall.Ends ramfsInit trace fs) (heapPos : Nat) (path : CString)
    (maxLen : Nat) (hmax : maxLen ≤ maxContent) :
    ReadsAgree heapPos fs path maxLen ↔
      ramfsFind fs path.chars = none ∨ HandleRoom heapPos := by
  have hsound : ∀ i, (fs i).Sound :=
    h.preserves (P := fun fs => ∀ i, (fs i).Sound) (fun _ => .unused rfl)
      fun _ _ _ _ hprior hends hcall => RamfsFile.Sound.call hprior hends hcall
  rw [readsAgree_iff (fun i _ => (hsound i).named) hmax]
  constructor
  · intro hall
    cases hfind : ramfsFind fs path.chars with
    | none => exact .inl rfl
    | some i => exact .inr (hall i hfind).1
  · intro hroom i hfind
    have hused := (ramfsFind_some hfind).2
    refine ⟨hroom.resolve_left fun hnone => ?_, ((hsound i).ended hused).endsWithin hmax⟩
    rw [hnone] at hfind
    cases hfind

/-- A file of the kernel's is extended by one byte, with the zeros of a slot used for the first time
behind it. -/
theorem ramfs_reads_agree_appended :
    ∃ fs, Steps ramfsCall RamfsCall.Ends ramfsInit
      [(.createFile ⟨ascii "/a", by decide⟩ ⟨ascii "hi", by decide⟩, 0),
        (.write ⟨.ramfs, 0, 2⟩ (ascii "!"), 1)] fs ∧
      (ReadsAgree 0 fs ⟨ascii "/a", by decide⟩ 64 ↔
        ramfsFind fs (ascii "/a") = none ∨ HandleRoom 0) := by
  have hrun : Steps ramfsCall RamfsCall.Ends ramfsInit _ _ := steps_of_replies ramfsCall ramfsInit
    [.createFile ⟨ascii "/a", by decide⟩ ⟨ascii "hi", by decide⟩,
      .write ⟨.ramfs, 0, 2⟩ (ascii "!")] [0, 1] (by decide +kernel) ⟨trivial, ?_, trivial⟩
  · exact ⟨_, hrun, ramfs_reads_agree _ _ hrun 0 ⟨ascii "/a", by decide⟩ 64 (by decide)⟩
  · exact fun _ _ => .inr (.inr ⟨3, by decide +kernel, .inr (by decide +kernel), by decide +kernel⟩)

/-- The contents of a new file are not cleared behind their first byte, and what a write does not
cover comes up again. -/
theorem unlinked_bytes_read_again : ¬∀ (trace : List (RamfsCall × Int)) (fs : Ramfs),
    Steps ramfsCall (fun _ _ => True) ramfsInit trace fs → ∀ (heapPos : Nat) (path : CString)
      (maxLen : Nat), maxLen ≤ maxContent → ReadsAgree heapPos fs path maxLen := by
  intro h
  have hrun : Steps ramfsCall (fun _ _ => True) ramfsInit _ _ := steps_of_replies ramfsCall ramfsInit
    [.createFile ⟨ascii "/a", by decide⟩ ⟨ascii "hello", by decide⟩, .unlink ⟨ascii "/a", by decide⟩,
      .create 0 ⟨ascii "/tmp/b", by decide⟩, .write ⟨.ramfs, 0, 0⟩ (ascii "xy")]
    [0, 0, 0, 2] (by decide +kernel) (admits_true _ _)
  have hagree := (h _ _ hrun 0 ⟨ascii "/tmp/b", by decide⟩ 64 (by decide)).1
    ⟨.ramfs, 0, 0⟩ 304 (by decide +kernel) (by decide +kernel)
  obtain ⟨bytes, file', hread, hcount, -⟩ := hagree
  have hopened : bytes = ascii "xy" :=
    Option.some.inj ((congrArg (Option.map Prod.fst) hread).symm.trans (by decide +kernel))
  have hwhole : (5 : Int) = bytes.length := by
    rw [← hcount]
    decide +kernel
  rw [hopened] at hwhole
  exact absurd hwhole (by decide)

end Chthon
