import Chthon.AbyssOwnership
import Chthon.Lib.Run
import Chthon.VfsModel

/-! What `abyssfs_read_dir` shows of a directory block, and the root directory as an ordered list of
pairs: `create_file` appends to it and `abyssfs_unlink` takes the first pair of a name out. -/

namespace Chthon

open ByteMemory PathText Run

/-- A directory entry as it is listed. -/
def DirEntry.pair (r : DirEntry) : Nat × Str := (r.inode, r.name)

section Decode

variable {m : Memory} {limit a l : Nat} {r : DirEntry} {rs : List DirEntry}

theorem stringWithin_eq {name : Str} (hnul : 0 ∉ name) {bound : Nat} (hbound : name.length < bound)
    (hname : ∀ k (hk : k < name.length), m (a + k) = name[k]) (hend : m (a + name.length) = 0) :
    stringWithin m bound a = some name := by
  induction name generalizing bound a with
  | nil =>
      obtain ⟨bound, rfl⟩ : ∃ b, bound = b + 1 := ⟨bound - 1, by simp at hbound; omega⟩
      rw [stringWithin, if_pos (by simpa using hend)]
  | cons c cs ih =>
      obtain ⟨bound, rfl⟩ : ∃ b, bound = b + 1 := ⟨bound - 1, by simp at hbound; omega⟩
      have hfirst : m a = c := hname 0 (by simp)
      have hne : m a ≠ 0 := fun h => hnul (by simp [← hfirst, h])
      have hrest : stringWithin m bound (a + 1) = some cs := by
        apply ih (fun h => hnul (List.mem_cons_of_mem _ h)) (by simp at hbound; omega)
        · intro k hk
          rw [Nat.add_assoc, Nat.add_comm 1 k]
          exact hname (k + 1) (Nat.succ_lt_succ hk)
        · rwa [Nat.add_assoc, Nat.add_comm 1 cs.length]
      rw [stringWithin, if_neg hne, hrest, hfirst]
      rfl

theorem RecordAt.stringWithin (h : RecordAt m a r l) :
    stringWithin m maxPath (entryName a) = some r.name := by
  have hshort := r.short
  exact stringWithin_eq r.nul_free (by rw [maxPath]; omega) h.name_eq h.nul_eq

theorem RecordAt.direntsFrom (h : RecordAt m a r l) (hl : 0 < l) (room : Nat) :
    direntsFrom m (room + 1) a = (direntsFrom m room (a + l)).map (r.pair :: ·) := by
  rw [Chthon.direntsFrom, h.rec_eq, if_neg (by omega), h.stringWithin, h.inode_eq]
  rfl

/-- The listing of a directory block, as far as there is room for it. -/
theorem Listing.direntsFrom (h : Listing m limit a rs) (room : Nat) :
    direntsFrom m room a = some ((rs.map DirEntry.pair).take room) := by
  induction rs generalizing a room with
  | nil =>
      obtain ⟨init, last, e, l, heq, -, -⟩ := h
      simp at heq
  | cons r rs ih =>
      cases room with
      | zero => rfl
      | succ room =>
          by_cases hrs : rs = []
          · subst hrs
            obtain ⟨l, hlast⟩ := h.last
            have hpos := r.eight_le_span
            have hle := hlast.span_le
            rw [hlast.record.direntsFrom (by omega)]
            cases room with
            | zero => rfl
            | succ room =>
                rw [Chthon.direntsFrom, if_pos hlast.stop]
                rfl
          · obtain ⟨hr, htail⟩ := h.tail hrs
            have hpos := r.eight_le_span
            rw [hr.direntsFrom (by omega), ih htail]
            rfl

theorem abyssfsReadDir_root (h : DirAt m 9 rs) (maxEntries : Nat) :
    abyssfsReadDir m (ascii "/") maxEntries =
      some (some ((rs.map DirEntry.pair).take maxEntries)) := by
  have hblock : getBlock (inodeBlocks + 1) = some (9 * 4096) := getBlock_of_lt (by decide)
  have hpath : skipSlash (ascii "/") = [] := by decide
  simp only [abyssfsReadDir, hpath, if_true, hblock, Listing.direntsFrom h, Option.map_some]

end Decode

/-! The root directory as a list. -/

/-- A name `create_file` can be given in the root directory. -/
structure RootName extends CString where
  nonempty : chars ≠ []
  slash_free : slash ∉ chars
  short : chars.length ≤ 245

/-- A name of a file, which `.` and `..` are not. -/
structure EntryName extends CString where
  slash_free : slash ∉ chars
  plain : chars ≠ ascii "." ∧ chars ≠ ascii ".."

inductive RootEdit where
  | create (name : RootName) (inode : UInt32)
  | unlink (name : EntryName)

/-- The calls, from the working directory `/`. -/
def rootStep (s : Abyssfs) : RootEdit → Option (Int × Abyssfs)
  | .create name inode => createFile s (some (ascii "/")) name.chars inode.toNat
  | .unlink name => abyssfsUnlink s name.chars

/-- The edits of a list of pairs. -/
def listStep (pairs : List (Nat × Str)) : RootEdit → Option (Int × List (Nat × Str))
  | .create name inode => some (0, pairs ++ [(inode.toNat, name.chars)])
  | .unlink name =>
      if pairs.any (·.2 = name.chars) then some (0, pairs.eraseP (·.2 = name.chars))
      else some (-1, pairs)

/-- A new record ends at least six bytes before the end of the root's block. -/
def RootEdit.Fits (s : Abyssfs) : RootEdit → Prop
  | .create name _ => AppendRoom s.mem 9 name.chars
  | .unlink _ => True

/-- The root directory holds the pairs in order; the two dots come first. -/
structure RootLists (s : Abyssfs) (pairs : List (Nat × Str)) : Prop where
  block : blocks s.mem rootInode = 9
  records : ∃ es, DirAt s.mem 9 (dotEntry 1 rootNumber_lt :: dotdotEntry 1 rootNumber_lt :: es) ∧
    pairs = (1, ascii ".") :: (1, ascii "..") :: es.map DirEntry.pair

section RootEdits

variable {s s' : Abyssfs} {pairs : List (Nat × Str)}

theorem rootLists_boot (s₀ : Abyssfs) :
    RootLists (bootVolume s₀).fs [(1, ascii "."), (1, ascii "..")] :=
  ⟨boot_blocks_root s₀, [], boot_root_dir s₀, rfl⟩

/-- An edit of the root's block leaves the inodes alone. -/
theorem OnlyBlock.root_blocks {m m' : Memory} (h : OnlyBlock m m' 9) :
    blocks m' rootInode = blocks m rootInode := by
  apply read32_congr
  intro k hk
  apply h
  left
  rw [rootInode_eq, inodeAddr_eq]
  omega

theorem RootLists.readDir (h : RootLists s pairs) (maxEntries : Nat) :
    abyssfsReadDir s.mem (ascii "/") maxEntries = some (some (pairs.take maxEntries)) := by
  obtain ⟨es, hdir, rfl⟩ := h.records
  exact abyssfsReadDir_root hdir maxEntries

theorem RootLists.create (h : RootLists s pairs) (name : RootName) (inode : UInt32)
    (hfits : AppendRoom s.mem 9 name.chars) :
    ∃ s', rootStep s (.create name inode) = some (0, s') ∧
      RootLists s' (pairs ++ [(inode.toNat, name.chars)]) := by
  obtain ⟨es, hdir, rfl⟩ := h.records
  have hparent : createParent s.mem (some (ascii "/")) name.chars =
      some (some (rootInode, name.chars)) := by
    have hcut : splitLast slash (name.chars.take (maxPath - 1)) = none :=
      (splitLast_eq_none slash).mpr fun hmem => name.slash_free (List.mem_of_mem_take hmem)
    simp only [createParent, hcut, if_true]
  have hblock : directoryBlock s.mem rootInode = some 9 := by
    rw [directoryBlock, h.block]
    rfl
  have hroom := hfits.2 _ (appendPosition_dir (by omega) hdir)
  rw [minRecLen_of_le name.short] at hroom
  have hspan : (DirEntry.mk inode.toNat name.chars inode.toNat_lt name.nul_free name.short).span =
      (name.chars.length + 10) / 4 * 4 := rfl
  obtain ⟨m', happend, hdir', honly⟩ := appendEntry_dir (b := 9) (by omega) hdir
    ⟨inode.toNat, name.chars, inode.toNat_lt, name.nul_free, name.short⟩ (by rw [hspan]; omega)
  refine ⟨{ s with mem := m' }, ?_, honly.root_blocks.trans h.block, _, hdir', by simp [DirEntry.pair]⟩
  simp only [rootStep, createFile, hparent, hblock, happend, Option.map_some]

theorem releaseInode_data (s : Abyssfs) (i : Nat) {x : Nat} (hx : 9 * 4096 ≤ x) :
    (releaseInode s i).mem x = s.mem x := by
  by_cases hi : i < 512
  · rw [releaseInode_mem s hi, write32_outside _ _ (by rw [inodeAddr_eq]; omega)]
  · rw [releaseInode, getInode_of_ge (by omega)]

theorem releaseInode_root_blocks (s : Abyssfs) (i : Nat) :
    blocks (releaseInode s i).mem rootInode = blocks s.mem rootInode := by
  by_cases hi : i < 512
  · rw [releaseInode_mem s hi, rootInode_eq]
    exact read32_write32_of_disjoint _ _ (by rw [inodeAddr_eq, inodeAddr_eq]; omega)
  · rw [releaseInode, getInode_of_ge (by omega)]

theorem any_pair_iff {es : List DirEntry} {name : Str} :
    (es.map DirEntry.pair).any (·.2 = name) = true ↔ ∃ r ∈ es, r.name = name := by
  simp only [List.any_map, List.any_eq_true, Function.comp_apply, DirEntry.pair]
  exact exists_congr fun r => and_congr_right fun _ => decide_eq_true_iff

theorem RootLists.unlink (h : RootLists s pairs) (name : EntryName) :
    ∃ r s' pairs', rootStep s (.unlink name) = some (r, s') ∧
      listStep pairs (.unlink name) = some (r, pairs') ∧ RootLists s' pairs' := by
  obtain ⟨es, hdir, rfl⟩ := h.records
  set all := dotEntry 1 rootNumber_lt :: dotdotEntry 1 rootNumber_lt :: es with hall
  have hpairs : (1, ascii ".") :: (1, ascii "..") :: es.map DirEntry.pair =
      all.map DirEntry.pair := rfl
  have hskip : skipSlash name.chars = name.chars := by
    cases hname : name.chars with
    | nil => rfl
    | cons c cs =>
        have hc : c ≠ slash := fun heq => name.slash_free (by rw [hname, heq]; exact List.mem_cons_self)
        rw [skipSlash, if_neg hc]
  rw [hpairs]
  rcases abyssfsUnlink_root hdir name.nul_free with
    ⟨hnone, hcall, -⟩ | ⟨pre, r, post, e, heq, hr, hpre, hpacked, -, hcall⟩
  · rw [hskip] at hnone
    refine ⟨-1, s, all.map DirEntry.pair, hcall, ?_, h.block, es, hdir, rfl⟩
    have hany : ¬ (all.map DirEntry.pair).any (·.2 = name.chars) = true := by
      rw [any_pair_iff]
      rintro ⟨q, hq, hqname⟩
      exact hnone q hq hqname
    rw [listStep, if_neg hany]
  · rw [hskip] at hr hpre
    obtain ⟨pre', rfl, hes⟩ := behind_dots heq (hr ▸ name.plain.1) (hr ▸ name.plain.2)
    have hdata : ∀ x, 9 * 4096 ≤ x → (releaseInode s r.inode).mem x = s.mem x :=
      fun x hx => releaseInode_data s r.inode hx
    have hdir' : DirAt (releaseInode s r.inode).mem 9 (_ ++ r :: post) :=
      heq ▸ hdir.congr fun x hlo _ => hdata x hlo
    obtain ⟨m', hremove, hleft, honly⟩ := removeEntry_dir hdir'
      (hpacked.congr fun x hlo _ => hdata x hlo) (List.cons_ne_nil _ _)
    refine ⟨0, { releaseInode s r.inode with mem := m' }, _, ?_, ?_, ?_, pre' ++ post, hleft, rfl⟩
    · rw [rootStep, hcall, hremove, Option.map_some]
    · have hany : (all.map DirEntry.pair).any (·.2 = name.chars) = true :=
        any_pair_iff.mpr ⟨r, by rw [heq]; simp, hr⟩
      have herase : (all.map DirEntry.pair).eraseP (·.2 = name.chars) =
          (dotEntry 1 rootNumber_lt :: dotdotEntry 1 rootNumber_lt :: pre').map DirEntry.pair ++
            post.map DirEntry.pair := by
        have hcons : (r :: post).map DirEntry.pair = r.pair :: post.map DirEntry.pair := rfl
        rw [heq, List.map_append, hcons, List.eraseP_append_right, List.eraseP_cons_of_pos]
        · exact decide_eq_true hr
        · intro q hq
          obtain ⟨d, hd, rfl⟩ := List.mem_map.mp hq
          exact fun hname => hpre d hd (of_decide_eq_true hname)
      rw [listStep, if_pos hany, herase]
      simp [DirEntry.pair, dotEntry, dotdotEntry]
    · exact (honly.root_blocks.trans (releaseInode_root_blocks s r.inode)).trans h.block

/-- Every edit that fits is answered as the list answers it. -/
theorem RootLists.step (h : RootLists s pairs) (e : RootEdit) (hfits : e.Fits s) :
    ∃ r s' pairs', rootStep s e = some (r, s') ∧ listStep pairs e = some (r, pairs') ∧
      RootLists s' pairs' := by
  cases e with
  | create name inode =>
      obtain ⟨s', hcall, hlists⟩ := h.create name inode hfits
      exact ⟨0, s', _, hcall, rfl, hlists⟩
  | unlink name => exact h.unlink name

/-- A failed unlink changes nothing. -/
theorem unlink_refused_same {path : Str} (h : abyssfsUnlink s path = some (-1, s')) : s' = s := by
  unfold abyssfsUnlink at h
  dsimp only at h
  split at h
  · cases h
  · cases h
    rfl
  · obtain ⟨m, -, heq⟩ := Option.map_eq_some_iff.mp h
    cases heq

/-- Edits of the root directory refine the ordered list of its entries: the answers are those of
the list, decoding the block shows the list, and an unlink that answers -1 changes nothing. -/
theorem root_edits_refine_list (s₀ : Abyssfs) (edits : List RootEdit)
    (hfits : Admits rootStep (fun s e => e.Fits s) (bootVolume s₀).fs edits) :
    ∃ answers, replies rootStep (bootVolume s₀).fs edits = some answers ∧
      replies listStep [(1, ascii "."), (1, ascii "..")] edits = some answers ∧
      (∀ maxEntries, abyssfsReadDir (edits.foldl (next rootStep) (bootVolume s₀).fs).mem
          (ascii "/") maxEntries =
        some (some ((edits.foldl (next listStep) [(1, ascii "."), (1, ascii "..")]).take
          maxEntries))) ∧
      ∀ (s s' : Abyssfs) (name : EntryName), rootStep s (.unlink name) = some (-1, s') → s' = s := by
  obtain ⟨answers, hcode, hlist, hlists⟩ := hfits.follow listStep (rootLists_boot s₀)
    fun _ _ e h hok => h.step e hok
  exact ⟨answers, hcode, hlist, hlists.readDir, fun _ _ _ h => unlink_refused_same h⟩

/-- The file `a`, with the number of no inode, comes and goes. -/
def comeAndGo : List RootEdit :=
  [.create ⟨⟨ascii "a", by decide⟩, by decide, by decide, by decide⟩ 700,
    .create ⟨⟨ascii "b", by decide⟩, by decide, by decide, by decide⟩ 2,
    .unlink ⟨⟨ascii "a", by decide⟩, by decide, by decide⟩,
    .unlink ⟨⟨ascii "a", by decide⟩, by decide, by decide⟩]

end RootEdits

theorem appendRoom_of_position {m : Memory} {b e : Nat} {name : Str} (hname : name.length ≤ 245)
    (hposition : appendPosition m b = some e)
    (hroom : e + (minRecLen name.length).toNat + 6 ≤ b * 4096 + 4096) : AppendRoom m b name :=
  ⟨hname, fun _ he => Option.some.inj (hposition.symm.trans he) ▸ hroom⟩

theorem root_edits_come_and_go :
    replies rootStep (bootVolume blankFs).fs comeAndGo = some [0, 0, 0, -1] ∧
      abyssfsReadDir (comeAndGo.foldl (next rootStep) (bootVolume blankFs).fs).mem (ascii "/") 8 =
        some (some [(1, ascii "."), (1, ascii ".."), (2, ascii "b")]) := by
  have hfits : Admits rootStep (fun s e => e.Fits s) (bootVolume blankFs).fs comeAndGo := by
    refine ⟨?_, ?_, trivial, trivial, trivial⟩
    · exact appendRoom_of_position (e := 36884) (by decide) (by decide +kernel) (by decide)
    · exact appendRoom_of_position (e := 36892) (by decide) (by decide +kernel) (by decide)
  obtain ⟨answers, hcode, hlist, hlists, -⟩ := root_edits_refine_list blankFs comeAndGo hfits
  have hanswers : answers = [0, 0, 0, -1] := Option.some.inj (hlist.symm.trans (by decide +kernel))
  refine ⟨hanswers ▸ hcode, (hlists 8).trans ?_⟩
  decide +kernel

end Chthon
