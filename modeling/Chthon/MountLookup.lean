import Chthon.Lib.LongestMatch
import Chthon.VfsRouting

/-! `find_mount` over any mount table, against the lookup that looks at whole path components. The
loop compares bytes with `strncmp`, so a mount also captures the names that extend its last
component. -/

namespace Chthon

open LongestMatch

/-- `strncmp`; the byte behind the end of a text is the NUL. -/
def strncmp : Str → Str → Nat → Int
  | _, _, 0 => 0
  | [], [], _ + 1 => 0
  | c :: _, [], _ + 1 => c.toNat
  | [], d :: _, _ + 1 => -d.toNat
  | c :: cs, d :: ds, n + 1 => if c = d then strncmp cs ds n else c.toNat - d.toNat

structure Mount (α : Type) where
  path : CString
  fs : α

/-- `find_mount` over the table `mount_points`, here with any kind of file system. -/
def findMountIn {α : Type} (mounts : List (Mount α)) (path : CString) : Option (Mount α) :=
  if path.chars = [] ∨ path.chars = ascii "/" then mounts.head?
  else
    (mounts.foldl (fun (best : Nat × Option (Mount α)) mp =>
      if strncmp path.chars mp.path.chars mp.path.chars.length = 0 ∧
          mp.path.chars.length > best.1 then (mp.path.chars.length, some mp) else best)
      (0, none)).2

/-- A mount at `m` holds the path: it is the path itself or a directory above it. -/
def MountCovers (m path : Str) : Prop := path = m ∨ m = ascii "/" ∨ m ++ [slash] <+: path

/-- The entry of the table with the longest mount path that holds the path. -/
structure ComponentMount {α : Type} (mounts : List (Mount α)) (path : CString) (mp : Mount α) :
    Prop where
  listed : mp ∈ mounts
  covers : MountCovers mp.path.chars path.chars
  longest : ∀ mp' ∈ mounts, MountCovers mp'.path.chars path.chars →
    mp'.path.chars.length ≤ mp.path.chars.length

section Comparison

/-- Comparing as many bytes as the second text has tests for a prefix. -/
theorem strncmp_eq_zero_iff {s t : Str} (ht : 0 ∉ t) : strncmp s t t.length = 0 ↔ t <+: s := by
  induction t generalizing s with
  | nil => exact iff_of_true (by cases s <;> rfl) (List.nil_prefix)
  | cons d ds ih =>
      obtain ⟨hd, hds⟩ := List.ne_and_not_mem_of_not_mem_cons ht
      have hpos : d.toNat ≠ 0 := fun h => hd (UInt8.toNat_inj.mp h.symm)
      cases s with
      | nil =>
          rw [List.length_cons, strncmp]
          refine iff_of_false (by omega) ?_
          simp
      | cons c cs =>
          rw [List.length_cons, strncmp, List.cons_prefix_cons]
          by_cases hc : c = d
          · rw [if_pos hc, ih hds, and_iff_right hc.symm]
          · rw [if_neg hc]
            refine iff_of_false ?_ (fun h => hc h.1.symm)
            intro h
            exact hc (UInt8.toNat_inj.mp (by omega))

@[simp]
theorem strncmp_path (path m : CString) :
    strncmp path.chars m.chars m.chars.length = 0 ↔ m.chars <+: path.chars :=
  strncmp_eq_zero_iff m.nul_free

theorem MountCovers.prefix_of {m path : Str} (h : MountCovers m path)
    (habs : path.head? = some slash) : m <+: path := by
  rcases h with rfl | rfl | h
  · exact List.prefix_rfl
  · exact (slash_prefix_iff path).mpr habs
  · exact (List.prefix_append m [slash]).trans h

/-- Mounts of one length at the start of a path are one text. -/
theorem eq_of_prefix_of_length {m m' path : Str} (h : m <+: path) (h' : m' <+: path)
    (hlen : m.length = m'.length) : m = m' :=
  (List.prefix_of_prefix_length_le h h' hlen.le).eq_of_length hlen

end Comparison

section Lookup

variable {α : Type} {mounts : List (Mount α)} {path : CString}

/-- The loop of `find_mount` is the scan for the longest prefix. -/
theorem findMountIn_scan (hpath : ¬(path.chars = [] ∨ path.chars = ascii "/")) :
    findMountIn mounts path =
      scan (fun mp : Mount α => strncmp path.chars mp.path.chars mp.path.chars.length = 0)
        (fun mp => mp.path.chars.length) mounts :=
  if_neg hpath

/-- The mount found is that of the path's components just when every mount that only starts the
text is shorter than one that holds the path. -/
theorem find_mount_component_iff (mounts : List (Mount α)) (path : CString)
    (hroot : mounts.head?.map (fun mp => mp.path.chars) = some (ascii "/"))
    (habs : path.chars.head? = some slash) :
    (∃ mp, findMountIn mounts path = some mp ∧ ComponentMount mounts path mp) ↔
      ∀ mp ∈ mounts, mp.path.chars <+: path.chars → ¬MountCovers mp.path.chars path.chars →
        ∃ mp' ∈ mounts, MountCovers mp'.path.chars path.chars ∧
          mp.path.chars.length < mp'.path.chars.length := by
  obtain ⟨root, hhead, hslash⟩ := Option.map_eq_some_iff.mp hroot
  have hlisted : root ∈ mounts := List.mem_of_mem_head? hhead
  have hcovers : MountCovers root.path.chars path.chars := .inr (.inl hslash)
  by_cases hpath : path.chars = [] ∨ path.chars = ascii "/"
  · rcases hpath with hpath | hpath
    · rw [hpath] at habs
      cases habs
    -- "/" starts with itself and the empty text, and both hold it
    have hall : ∀ mp ∈ mounts, mp.path.chars <+: path.chars →
        MountCovers mp.path.chars path.chars ∧ mp.path.chars.length ≤ root.path.chars.length := by
      intro mp _ hstart
      rw [hpath] at hstart ⊢
      rw [hslash]
      refine ⟨?_, hstart.length_le⟩
      rcases List.prefix_cons_iff.mp hstart with hnil | ⟨t, ht, hrest⟩
      · exact .inr (.inr (by rw [hnil]; exact List.prefix_rfl))
      · exact .inl (by rw [ht, List.prefix_nil.mp hrest]; rfl)
    refine iff_of_true ⟨root, ?_, hlisted, hcovers, ?_⟩ ?_
    · rw [findMountIn, if_pos (.inr hpath), hhead]
    · exact fun mp hmp hcov => (hall mp hmp (hcov.prefix_of habs)).2
    · exact fun mp hmp hstart hnot => absurd (hall mp hmp hstart).1 hnot
  · have hscan := scan_refines_iff (l := mounts)
      (p := fun mp => strncmp path.chars mp.path.chars mp.path.chars.length = 0)
      (q := fun mp => MountCovers mp.path.chars path.chars) (w := fun mp => mp.path.chars.length)
      (fun mp hcov => (strncmp_path path mp.path).mpr (hcov.prefix_of habs))
      (fun mp mp' hp hp' hlen hcov => eq_of_prefix_of_length ((strncmp_path path mp.path).mp hp)
        ((strncmp_path path mp'.path).mp hp') hlen ▸ hcov)
      ⟨root, hlisted, hcovers, by rw [hslash]; decide⟩
    rw [← findMountIn_scan hpath] at hscan
    simp only [strncmp_path] at hscan
    rw [← hscan]
    constructor
    · rintro ⟨mp, hfound, hcomp⟩
      exact ⟨mp, hfound, hcomp.covers, hcomp.longest⟩
    · rintro ⟨mp, hfound, hcov, hlongest⟩
      rw [findMountIn_scan hpath] at hfound
      exact ⟨mp, (findMountIn_scan hpath).trans hfound, (scan_spec hfound).1, hcov, hlongest⟩

/-- No two mount paths can both be the longest. -/
theorem ComponentMount.path_unique {mp mp' : Mount α} (h : ComponentMount mounts path mp)
    (h' : ComponentMount mounts path mp') (habs : path.chars.head? = some slash) :
    mp.path.chars = mp'.path.chars :=
  eq_of_prefix_of_length (h.covers.prefix_of habs) (h'.covers.prefix_of habs)
    (le_antisymm (h'.longest mp h.listed h.covers) (h.longest mp' h'.listed h'.covers))

end Lookup

/-! The table of `vfs_init`. -/

theorem rootText_nul_free : 0 ∉ ascii "/" := by decide

theorem tmpText_nul_free : 0 ∉ ascii "/tmp" := by decide

def rootPath : CString := ⟨ascii "/", rootText_nul_free⟩

def tmpPath : CString := ⟨ascii "/tmp", tmpText_nul_free⟩

/-- The two entries `vfs_init` makes. -/
def mountTable : List (Mount FileOps) := [⟨rootPath, .abyssfs⟩, ⟨tmpPath, .ramfs⟩]

theorem findMount_eq (path : CString) :
    findMount path.chars = (findMountIn mountTable path).map Mount.fs := by
  rw [findMount, findMountIn]
  split_ifs
  · rfl
  · have hroot := strncmp_path path rootPath
    have htmp := strncmp_path path tmpPath
    rw [← List.isPrefixOf_iff_prefix] at hroot htmp
    simp only [mountPoints, mountTable, List.foldl_cons, List.foldl_nil, hroot, htmp]
    rw [rootPath, tmpPath]
    cases (ascii "/").isPrefixOf path.chars <;> cases (ascii "/tmp").isPrefixOf path.chars <;> rfl

/-- Of the two mounts only `/tmp` starts a text that it need not hold. -/
theorem tmp_alone_captures {path : CString} :
    (∀ mp ∈ mountTable, mp.path.chars <+: path.chars → ¬MountCovers mp.path.chars path.chars →
      ∃ mp' ∈ mountTable, MountCovers mp'.path.chars path.chars ∧
        mp.path.chars.length < mp'.path.chars.length) ↔
      (tmpMount <+: path.chars → path.chars = tmpMount ∨ tmpPrefix <+: path.chars) := by
  have hlong : tmpPath.chars.length > rootPath.chars.length := by decide
  constructor
  · intro h hstart
    by_contra hnot
    have hother : ¬MountCovers tmpPath.chars path.chars := by
      rintro (heq | heq | hcov)
      · exact hnot (.inl heq)
      · exact absurd heq (by decide)
      · exact hnot (.inr hcov)
    obtain ⟨mp, hmp, -, hlt⟩ := h ⟨tmpPath, .ramfs⟩ (by simp [mountTable]) hstart hother
    simp only [mountTable, List.mem_cons, List.not_mem_nil, or_false] at hmp
    rcases hmp with rfl | rfl
    · exact absurd hlt (by decide)
    · exact absurd hlt (by decide)
  · intro h mp hmp hstart hnot
    simp only [mountTable, List.mem_cons, List.not_mem_nil, or_false] at hmp
    rcases hmp with rfl | rfl
    · exact absurd (.inr (.inl rfl)) hnot
    · refine absurd ?_ hnot
      exact (h hstart).elim .inl fun hcov => .inr (.inr hcov)

def tmpfilePath : CString := ⟨ascii "/tmpfile", by decide⟩

def tmpFilePath : CString := ⟨ascii "/tmp/file", by decide⟩

theorem find_mount_component_file :
    (∃ mp, findMountIn mountTable tmpFilePath = some mp ∧
      ComponentMount mountTable tmpFilePath mp) ↔
      ∀ mp ∈ mountTable, mp.path.chars <+: tmpFilePath.chars →
        ¬MountCovers mp.path.chars tmpFilePath.chars →
          ∃ mp' ∈ mountTable, MountCovers mp'.path.chars tmpFilePath.chars ∧
            mp.path.chars.length < mp'.path.chars.length :=
  find_mount_component_iff mountTable tmpFilePath rfl rfl

/-- `/tmpfile` is sent to the mount at `/tmp`. -/
theorem tmpfile_captured : ¬ ∀ (mounts : List (Mount FileOps)) (path : CString),
    mounts.head?.map (fun mp => mp.path.chars) = some (ascii "/") →
    path.chars.head? = some slash →
      ∃ mp, findMountIn mounts path = some mp ∧ ComponentMount mounts path mp := by
  intro h
  obtain ⟨mp, hfound, hcomp⟩ := h mountTable tmpfilePath rfl rfl
  have htmp : findMountIn mountTable tmpfilePath = some ⟨tmpPath, .ramfs⟩ := rfl
  rw [htmp, Option.some.injEq] at hfound
  subst hfound
  have hcovers := hcomp.covers
  rw [MountCovers] at hcovers
  exact absurd hcovers (by decide)

end Chthon
