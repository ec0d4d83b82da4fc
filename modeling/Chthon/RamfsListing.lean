import Chthon.AbyssListing
import Chthon.RamfsNames

/-! What `ramfs_read_dir` lists. RAMFS has no directories, only slots with whole paths, and a file is
in a directory when its path is that of the directory, a separator and a text without one. -/

namespace Chthon

open ByteMemory PathText

/-- The loop of `strrchr` for a byte that is not the NUL, from the byte at `pos` on. -/
def strrchrFrom (c : UInt8) : Str → Nat → Option Nat → Option Nat
  | [], _, last => last
  | x :: xs, pos, last => strrchrFrom c xs (pos + 1) (if x = c then some pos else last)

/-- `strrchr`, with the position of the byte for its address. -/
def strrchr (s : Str) (c : UInt8) : Option Nat := strrchrFrom c s 0 none

/-- The slot as a record of directory `d`. -/
def slotDirent (fs : Ramfs) (d : Str) (i : Nat) : Option (Nat × Str) :=
  if (fs i).used then
    (stringWithin (fs i).bytes (slotPath + maxContent) 0).bind fun filePath =>
      if isFileInDir filePath d then some (i + 2, getBasename filePath) else none
  else none

/-- The files in use directly below `d`, in the order of their slots. -/
structure ListsFiles (fs : Ramfs) (d : Str) (files : List (Nat × Str)) : Prop where
  ordered : files.Pairwise fun e e' => e.1 < e'.1
  exact : ∀ inode name, (inode, name) ∈ files ↔ ∃ i < maxFiles, inode = i + 2 ∧
    (fs i).used = true ∧ (fs i).Named (d ++ slash :: name) ∧ slash ∉ name

section Texts

variable {f d name : Str}

theorem strrchrFrom_eq (c : UInt8) (s : Str) (pos : Nat) (last : Option Nat) :
    strrchrFrom c s pos last = ((splitLast c s).map fun cut => pos + cut.1.length).or last := by
  induction s generalizing pos last with
  | nil => rfl
  | cons x xs ih =>
      rw [strrchrFrom, ih, splitLast]
      cases splitLast c xs with
      | some cut => simp [Nat.add_assoc, Nat.add_comm 1]
      | none =>
          by_cases hx : x = c
          · simp [hx]
          · simp [hx]

/-- The last separator is where the text is cut. -/
theorem strrchr_eq (s : Str) (c : UInt8) : strrchr s c = (splitLast c s).map (·.1.length) := by
  rw [strrchr, strrchrFrom_eq, Option.or_none]
  simp

/-- `is_file_in_dir`, by the position that `strrchr` finds. -/
theorem isFileInDir_eq_strrchr (hstarts : d <+: f) (hne : d ≠ ascii "/tmp") :
    isFileInDir f d = true ↔ strrchr f slash = some d.length := by
  rw [isFileInDir, if_pos (List.isPrefixOf_iff_prefix.mpr hstarts), if_neg hne, strrchr_eq]
  cases splitLast slash f with
  | none => simp
  | some cut => simp

/-- Both branches of `is_file_in_dir` say that the path goes on with a separator and a text without
one. -/
theorem isFileInDir_iff :
    isFileInDir f d = true ↔ ∃ name, f = d ++ slash :: name ∧ slash ∉ name := by
  by_cases hstarts : d <+: f
  · obtain ⟨t, rfl⟩ := hstarts
    by_cases htmp : d = ascii "/tmp"
    · rw [isFileInDir, if_pos (List.isPrefixOf_iff_prefix.mpr (List.prefix_append d t)), if_pos htmp]
      cases t with
      | nil => simp
      | cons c cs =>
          have hdrop : (d ++ c :: cs).drop (d.length + 1) = cs := List.drop_length_add_append 1
          rw [List.getElem?_append_right le_rfl, Nat.sub_self, List.getElem?_cons_zero, hdrop]
          by_cases hc : c = slash
          · simp [hc]
          · simp [hc]
    · rw [isFileInDir_eq_strrchr (List.prefix_append d t) htmp, strrchr_eq, Option.map_eq_some_iff]
      constructor
      · rintro ⟨⟨dir, base⟩, hcut, hlen⟩
        obtain ⟨heq, hbase⟩ := eq_of_splitLast slash hcut
        obtain ⟨-, rfl⟩ := List.append_inj heq hlen.symm
        exact ⟨base, rfl, hbase⟩
      · rintro ⟨name, heq, hname⟩
        exact ⟨(d, name), heq ▸ splitLast_append slash hname, rfl⟩
  · refine iff_of_false ?_ ?_
    · rw [isFileInDir, if_neg (fun h => hstarts (List.isPrefixOf_iff_prefix.mp h))]
      exact Bool.false_ne_true
    · rintro ⟨name, rfl, -⟩
      exact hstarts (List.prefix_append d _)

theorem getBasename_child (h : slash ∉ name) : getBasename (d ++ slash :: name) = name := by
  rw [getBasename, splitLast_append slash h]

end Texts

section Slots

variable {fs : Ramfs} {d name f : Str} {i inode : Nat}

theorem RamfsFile.Named.stringWithin {rf : RamfsFile} (h : rf.Named f) :
    stringWithin rf.bytes (slotPath + maxContent) 0 = some f := by
  have hshort := h.short
  apply stringWithin_eq h.nul_free (by omega)
  · intro k hk
    rw [Nat.zero_add]
    exact h.chars k hk
  · rw [Nat.zero_add]
    exact h.nul

theorem RamfsFile.Named.unique {rf : RamfsFile} (h : rf.Named f) (h' : rf.Named name) : f = name :=
  Option.some.inj (h.stringWithin.symm.trans h'.stringWithin)

/-- A slot is listed in `d` by the base name of a path directly below it. -/
theorem slotDirent_eq_some (hnamed : (fs i).used = true → ∃ path, (fs i).Named path) :
    slotDirent fs d i = some (inode, name) ↔ inode = i + 2 ∧ (fs i).used = true ∧
      (fs i).Named (d ++ slash :: name) ∧ slash ∉ name := by
  rw [slotDirent]
  by_cases hused : (fs i).used = true
  · obtain ⟨path, hpath⟩ := hnamed hused
    rw [if_pos hused, hpath.stringWithin, Option.bind_some]
    constructor
    · intro h
      split_ifs at h with hin
      obtain ⟨name', rfl, hname'⟩ := isFileInDir_iff.mp hin
      rw [getBasename_child hname'] at h
      cases h
      exact ⟨rfl, hused, hpath, hname'⟩
    · rintro ⟨rfl, -, hchild, hname⟩
      obtain rfl := hpath.unique hchild
      rw [if_pos (isFileInDir_iff.mpr ⟨name, rfl, hname⟩), getBasename_child hname]
  · rw [if_neg hused]
    refine iff_of_false (by simp) ?_
    rintro ⟨-, h, -, -⟩
    exact hused h

/-- The loop lists the slots in their order until the room is used up. -/
theorem ramfsDirents_eq (slots : List Nat)
    (hnamed : ∀ i ∈ slots, (fs i).used = true → ∃ path, (fs i).Named path) (room : Nat) :
    ramfsDirents fs d room slots = some ((slots.filterMap (slotDirent fs d)).take room) := by
  induction slots generalizing room with
  | nil => cases room <;> rfl
  | cons i rest ih =>
      have hrest := ih fun j hj => hnamed j (List.mem_cons_of_mem _ hj)
      cases room with
      | zero => rw [ramfsDirents, List.take_zero]
      | succ room =>
          rw [ramfsDirents, List.filterMap_cons, slotDirent]
          by_cases hused : (fs i).used = true
          · obtain ⟨path, hpath⟩ := hnamed i List.mem_cons_self hused
            rw [if_pos hused, if_pos hused, hpath.stringWithin, Option.bind_some]
            by_cases hin : isFileInDir path d = true
            · have hbase : ¬(getBasename path).length ≥ maxPath := by
                obtain ⟨name, rfl, hname⟩ := isFileInDir_iff.mp hin
                have hshort := hpath.short
                rw [List.length_append, List.length_cons, slotPath] at hshort
                rw [getBasename_child hname, maxPath]
                omega
              simp only [if_pos hin, if_neg hbase, hrest, Option.map_some, List.take_succ_cons]
            · simp only [if_neg hin, hrest]
          · rw [if_neg hused, if_neg hused]
            exact hrest (room + 1)

/-- The records of all slots list the files of the directory. -/
theorem listsFiles_slots (hnamed : NamedSlots fs) (d : Str) :
    ListsFiles fs d ((List.range maxFiles).filterMap (slotDirent fs d)) where
  ordered := by
    rw [List.pairwise_filterMap]
    refine List.pairwise_lt_range.imp_of_mem ?_
    intro i j hi hj hlt e he e' he'
    have hi' := (slotDirent_eq_some (hnamed i (List.mem_range.mp hi))).mp he
    have hj' := (slotDirent_eq_some (hnamed j (List.mem_range.mp hj))).mp he'
    rw [hi'.1, hj'.1]
    omega
  exact inode name := by
    rw [List.mem_filterMap]
    refine exists_congr fun i => ?_
    rw [List.mem_range]
    exact and_congr_right fun hi => slotDirent_eq_some (hnamed i hi)

/-- Only one list has the files of a directory in the order of their slots. -/
theorem ListsFiles.unique {files files' : List (Nat × Str)} (h : ListsFiles fs d files)
    (h' : ListsFiles fs d files') : files = files' := by
  have hperm : files.Perm files' := by
    refine (List.perm_ext_iff_of_nodup ?_ ?_).mpr fun e => ?_
    · exact h.ordered.imp fun hlt heq => absurd (heq ▸ hlt) (lt_irrefl _)
    · exact h'.ordered.imp fun hlt heq => absurd (heq ▸ hlt) (lt_irrefl _)
    · rw [h.exact, h'.exact]
  refine hperm.eq_of_pairwise ?_ h.ordered h'.ordered
  intro e e' _ _ hlt hlt'
  exact absurd hlt (lt_asymm hlt')

/-- `ramfs_read_dir` lists the two dots and then the files directly below the directory, as many as
there is room for. -/
theorem ramfs_listing_exact (fs : Ramfs) (hnamed : NamedSlots fs) (d : Str) (maxEntries : Nat)
    (hmax : 2 ≤ maxEntries) : ∃ files, ListsFiles fs d files ∧ ramfsReadDir fs d maxEntries =
      some (([(1, ascii "."), (1, ascii "..")] ++ files).take maxEntries) := by
  refine ⟨_, listsFiles_slots hnamed d, ?_⟩
  obtain ⟨room, rfl⟩ := Nat.exists_eq_add_of_le' hmax
  rw [ramfsReadDir, ramfsDirents_eq _ (fun i hi => hnamed i (List.mem_range.mp hi)),
    Option.map_some, Nat.add_sub_cancel, List.take_append]
  rfl

end Slots

/-- Two slots in use, one of which is below a sibling of `/tmp/a`. -/
def twoSlots : Ramfs :=
  Function.update (Function.update ramfsInit 0 (newSlot (ramfsInit 0) (ascii "/tmp/a/b") true)) 1
    (newSlot (ramfsInit 1) (ascii "/tmp/ab/c") true)

theorem twoSlots_named : NamedSlots twoSlots := by
  have hinit : NamedSlots ramfsInit := by
    intro i _ hused
    cases hused
  have hfirst : NamedSlots (Function.update ramfsInit 0
      (newSlot (ramfsInit 0) (ascii "/tmp/a/b") true)) :=
    hinit.update fun _ => ⟨_, newSlot_named _ true (by decide) (by decide)⟩
  exact hfirst.update fun _ => ⟨_, newSlot_named _ true (by decide) (by decide)⟩

theorem ramfs_listing_siblings : ∃ files, ListsFiles twoSlots (ascii "/tmp/a") files ∧
    ramfsReadDir twoSlots (ascii "/tmp/a") 32 =
      some (([(1, ascii "."), (1, ascii "..")] ++ files).take 32) :=
  ramfs_listing_exact twoSlots twoSlots_named (ascii "/tmp/a") 32 (by decide)

example : ramfsReadDir twoSlots (ascii "/tmp/a") 32 =
    some [(1, ascii "."), (1, ascii ".."), (2, ascii "b")] := by decide +kernel

end Chthon
