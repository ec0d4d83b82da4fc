import Chthon.AbyssNewDirectory
import Chthon.VfsRefusals

/-! Paths that go on behind a regular file. `get_inode_by_path`, `create_file` and `abyssfs_mkdir`
look for a block and never at the mode, so that the data of a file with a block is walked like the
records of a directory, and a new record is appended to it. -/

namespace Chthon

open ByteMemory PathText

/-- Inode `n` is in use and not a directory. -/
def RegularFile (m : Memory) (n : Nat) : Prop := mode m (inodeAddr n) ≠ 0 ∧ ¬IsDirectory m n

/-- The names lead through inodes in use to the regular file `n`. -/
structure LeadsToFile (m : Memory) (names : List Str) (n : Nat) : Prop where
  bound : n < 512
  regular : RegularFile m n
  found : walkTokens m names (some rootInode) = some (some (inodeAddr n))
  inUse : ∀ us p, us <+: names → walkTokens m us (some rootInode) = some (some p) → mode m p ≠ 0

/-- The names lead from inode to inode, each through a record found in a block. -/
inductive RecordsLead (m : Memory) : Nat → List Str → Nat → Prop
  | here (p : Nat) : RecordsLead m p [] p
  | next {p e q r : Nat} {t : Str} {ts : List Str} (owns : blocks m p ≠ 0)
      (inside : blocks m p < totalBlocks)
      (record : findEntry m t heapSize (blocks m p * blockSize) = some (some e))
      (inode : getInode (entryInode m e) = some q) (rest : RecordsLead m q ts r) :
      RecordsLead m p (t :: ts) r

/-- Every byte in the block of a regular file is as before. -/
def FilesKept (m m' : Memory) : Prop :=
  ∀ n < 512, RegularFile m n → blocks m (inodeAddr n) ≠ 0 → ∀ x,
    blocks m (inodeAddr n) * blockSize ≤ x → x < (blocks m (inodeAddr n) + 1) * blockSize →
      m' x = m x

/-- The block of every regular file is marked in the bitmap. -/
def FilesMarked (s : Abyssfs) : Prop :=
  ∀ n < 512, RegularFile s.mem n → blocks s.mem (inodeAddr n) ≠ 0 →
    s.used (blocks s.mem (inodeAddr n)) = true

/-- There is no inode for a new file, or the data of file `n` lead to nothing that has a block. -/
def CreateStopped (s : Abyssfs) (n : Nat) (names : List Str) : Prop :=
  (allocInode s).1 = 0 ∨ ∀ q, RecordsLead (allocInode s).2.mem (inodeAddr n) names q →
    blocks (allocInode s).2.mem q = 0 ∧ q ≠ rootInode

/-- The same for a new directory, whose own inode has a block when the parent's is asked for. -/
def MkdirStopped (s : Abyssfs) (n : Nat) (names : List Str) (base : Str) : Prop :=
  base = [] ∨ (allocInode s).1 = 0 ∨ (allocBlock s).1 = 0 ∨
    ∀ q, RecordsLead s.mem (inodeAddr n) names q →
      blocks s.mem q = 0 ∧ q ≠ rootInode ∧ q ≠ inodeAddr (allocInode s).1

section Walks

variable {m m' : Memory} {p q n lo : Nat} {names us : List Str}

theorem walkTokens_iff (names : List Str) (p q : Nat) :
    walkTokens m names (some p) = some (some q) ↔ RecordsLead m p names q := by
  induction names generalizing p with
  | nil =>
      constructor
      · intro h
        rw [walkTokens, Option.some.injEq, Option.some.injEq] at h
        exact h ▸ .here p
      · intro h
        cases h
        rfl
  | cons t ts ih =>
      constructor
      · intro h
        rw [walkTokens] at h
        split_ifs at h with hzero
        · cases h
        by_cases hlt : blocks m p < 64
        · rw [getBlock_of_lt hlt] at h
          dsimp only at h
          split at h
          · cases h
          · cases h
          · rename_i e hfind
            cases hinode : getInode (entryInode m e) with
            | none =>
                rw [hinode] at h
                cases ts <;> cases h
            | some r =>
                rw [hinode] at h
                exact .next hzero hlt hfind hinode ((ih r).mp h)
        · have hge : blocks m p ≥ totalBlocks := Nat.le_of_not_lt hlt
          rw [getBlock, if_pos hge] at h
          cases h
      · intro h
        cases h with
        | next owns inside record inode rest =>
            rw [walkTokens, if_neg owns, getBlock_of_lt inside]
            simp only [blockSize_eq] at record
            simp only [record, inode]
            exact (ih _).mpr rest

/-- A search reads nothing in front of the block it starts in. -/
theorem strEq_congr (h : ∀ x, lo ≤ x → m' x = m x) (t : Str) {a : Nat} (ha : lo ≤ a) :
    strEq m' a t = strEq m a t := by
  induction t generalizing a with
  | nil => rw [strEq, strEq, h a ha]
  | cons c cs ih => rw [strEq, strEq, h a ha, ih (by omega)]

theorem findEntry_congr (h : ∀ x, lo ≤ x → m' x = m x) (t : Str) (fuel : Nat) {a : Nat}
    (ha : lo ≤ a) : findEntry m' t fuel a = findEntry m t fuel a := by
  induction fuel generalizing a with
  | zero => rfl
  | succ fuel ih =>
      have hlen : recLen m' a = recLen m a := congrArg UInt8.toNat (h (a + 5) (by omega))
      have hname : strEq m' (entryName a) t = strEq m (entryName a) t :=
        strEq_congr h t (ha.trans (Nat.le_add_right a 6))
      rw [findEntry, findEntry, hlen, hname, ih (ha.trans (Nat.le_add_right a _))]

/-- The first step of a lookup is the same in two memories that agree from the block it searches
on. -/
theorem walkTokens_cons_congr (hdata : ∀ x, lo ≤ x → m' x = m x) {j : Nat}
    (hblocks : blocks m' (inodeAddr j) = blocks m (inodeAddr j))
    (hstart : blocks m (inodeAddr j) ≠ 0 → lo ≤ blocks m (inodeAddr j) * 4096) {t : Str}
    {ts : List Str} (hrest : ∀ i < 512,
      walkTokens m [t] (some (inodeAddr j)) = some (some (inodeAddr i)) →
        walkTokens m' ts (some (inodeAddr i)) = walkTokens m ts (some (inodeAddr i))) :
    walkTokens m' (t :: ts) (some (inodeAddr j)) = walkTokens m (t :: ts) (some (inodeAddr j)) := by
  rw [walkTokens, walkTokens, hblocks]
  split_ifs with hzero
  · rfl
  by_cases hlt : blocks m (inodeAddr j) < 64
  · have hfind := findEntry_congr hdata t heapSize (hstart hzero)
    rw [getBlock_of_lt hlt]
    dsimp only
    rw [hfind]
    cases hfound : findEntry m t heapSize (blocks m (inodeAddr j) * 4096) with
    | none => rfl
    | some found =>
        cases found with
        | none => rfl
        | some e =>
            have he := (hstart hzero).trans (findEntry_ge heapSize hfound)
            have hinode : entryInode m' e = entryInode m e :=
              read32_congr fun i _ => hdata (e + i) (by omega)
            dsimp only
            rw [hinode]
            cases hq : getInode (entryInode m e) with
            | none => cases ts <;> rw [walkTokens, walkTokens]
            | some q =>
                obtain ⟨hq512, rfl⟩ := getInode_eq_some.mp hq
                apply hrest _ hq512
                rw [walkTokens, if_neg hzero, getBlock_of_lt hlt]
                simp only [hfound, hq, walkTokens]
  · have hge : blocks m (inodeAddr j) ≥ totalBlocks := Nat.le_of_not_lt hlt
    rw [getBlock, if_pos hge]

/-- A lookup through inodes in use does not notice that a free one has been taken. -/
theorem walkTokens_fresh {i k : Nat} (hrange : BlocksInRange m) (hi : i < 512)
    (hfree : mode m (inodeAddr i) = 0) (hk : k < 512) (hused : ∀ us q, us <+: names →
      walkTokens m us (some (inodeAddr k)) = some (some q) → mode m q ≠ 0) :
    walkTokens (freshInode m i) names (some (inodeAddr k)) =
      walkTokens m names (some (inodeAddr k)) := by
  have hdata (x : Nat) (hx : 36864 ≤ x) : freshInode m i x = m x := by
    apply freshInode_outside m
    rw [inodeAddr_eq]
    omega
  induction names generalizing k with
  | nil => rfl
  | cons t ts ih =>
      have hki : k ≠ i := by
        rintro rfl
        exact hused [] _ List.nil_prefix rfl hfree
      apply walkTokens_cons_congr hdata (freshInode_other m hki).blocks
      · intro hzero
        have hblock := (hrange k hk).resolve_left hzero
        omega
      · intro q hq hstep
        apply ih hq
        intro us r hus hr
        apply hused (t :: us) r (List.cons_prefix_cons.mpr ⟨rfl, hus⟩)
        rw [← List.singleton_append, walkTokens_append hstep, hr]

end Walks

section Calls

variable {s s' : Abyssfs} {path d base : Str} {us rest : List Str} {n : Nat}

/-- The lookup of a path that goes on behind a file ends in the data of the file. -/
theorem LeadsToFile.lookup_iff (hfile : LeadsToFile s.mem us n) {names : List Str}
    {found : Option Nat} (h : walkTokens s.mem (us ++ names) (some rootInode) = some found) :
    found = none ↔ ∀ q, ¬RecordsLead s.mem (inodeAddr n) names q := by
  rw [walkTokens_append hfile.found] at h
  cases found with
  | none =>
      refine iff_of_true rfl fun q hlead => ?_
      rw [(walkTokens_iff names _ q).mpr hlead] at h
      cases h
  | some q =>
      refine iff_of_false (Option.some_ne_none q) fun hnone => ?_
      exact hnone q ((walkTokens_iff names _ q).mp h)

theorem components_base (hsplit : splitLast slash path = some (d, base)) :
    components slash path = components slash d ++ components slash base := by
  obtain ⟨rfl, -⟩ := eq_of_splitLast slash hsplit
  exact components_append_sep slash d base

/-- What is written in front of the data blocks, or into a block that is not marked, is no data of
a file. -/
theorem filesKept_of_table {m m' : Memory} (hrange : BlocksInRange m)
    (h : ∀ x, 36864 ≤ x → m' x = m x) : FilesKept m m' := by
  intro k hk _ hblock x hlo _
  have hstart := ((hrange k hk).resolve_left hblock).1
  apply h x
  rw [blockSize_eq] at hlo
  omega

theorem directory_short (hlen : path.length < maxPath)
    (hsplit : splitLast slash path = some (d, base)) : (skipSlash d).length ≤ 255 := by
  have hcut := congrArg List.length (eq_of_splitLast slash hsplit).1
  have hskip := skipSlash_length_le d
  rw [List.length_append, List.length_cons] at hcut
  rw [maxPath] at hlen
  omega

theorem directoryBlock_none_iff {m : Memory} {q : Nat} :
    directoryBlock m q = none ↔ blocks m q = 0 ∧ q ≠ rootInode := by
  unfold directoryBlock
  split_ifs with hzero hroot
  · simp [hroot]
  · simp [hzero, hroot]
  · simp [hzero]

/-- The parent that `create_file` finds behind a file, in the memory with the new inode. -/
theorem LeadsToFile.parent_created (hfile : LeadsToFile s.mem us n) (hrange : BlocksInRange s.mem)
    (hlen : path.length < maxPath) (hroot : path.head? = some slash)
    (hsplit : splitLast slash path = some (d, base)) (hd : d ≠ [])
    (hnames : components slash d = us ++ rest) {i : Nat} (hi : i < 512)
    (hfree : mode s.mem (inodeAddr i) = 0) (cwd : Option Str) :
    createParent (freshInode s.mem i) cwd (skipSlash path) =
      (walkTokens (freshInode s.mem i) rest (some (inodeAddr n))).map (·.map (·, base)) := by
  have hdlen := directory_short hlen hsplit
  obtain ⟨tail, rfl⟩ : ∃ tail, path = slash :: tail := ⟨_, List.eq_cons_of_mem_head? hroot⟩
  rw [maxPath, List.length_cons] at hlen
  have hfound : walkTokens (freshInode s.mem i) us (some rootInode) = some (some (inodeAddr n)) := by
    rw [rootInode_eq, walkTokens_fresh hrange hi hfree (by omega) hfile.inUse, ← rootInode_eq]
    exact hfile.found
  rw [skipSlash_slash, createParent_absolute _ (by omega) hsplit (fun h => absurd h hd),
    getInodeByPath_eq _ hdlen, hnames, walkTokens_append hfound]

/-- Where a walk of records ends says what becomes of a condition on its end. -/
theorem forall_recordsLead_iff {m : Memory} {p : Nat} {names : List Str} {found : Option Nat}
    (h : walkTokens m names (some p) = some found) (P : Nat → Prop) :
    (∀ q, RecordsLead m p names q → P q) ↔ ∀ q, found = some q → P q := by
  simp only [← walkTokens_iff, h, Option.some.injEq]

/-- `create_file` has no directory for the entry exactly when it is stopped behind the file. -/
theorem LeadsToFile.noEntry_iff (hfile : LeadsToFile s.mem us n) (hrange : BlocksInRange s.mem)
    (hlen : path.length < maxPath) (hroot : path.head? = some slash)
    (hsplit : splitLast slash path = some (d, base)) (hd : d ≠ [])
    (hnames : components slash d = us ++ rest) {heapPos : Nat} {cwd : Option Str}
    (h : (abyssfsCreate heapPos s cwd path).isSome) :
    NoEntry s cwd path ↔ CreateStopped s n rest := by
  rw [NoEntry, CreateStopped]
  rcases allocInode_cases s with ⟨halloc, -⟩ | ⟨i, hi1, hi, hfree, halloc⟩
  · simp [halloc]
  · have hparent := hfile.parent_created hrange hlen hroot hsplit hd hnames hi hfree cwd
    have hne : i ≠ 0 := by omega
    rw [halloc]
    dsimp only
    rw [or_iff_right hne, or_iff_right hne, hparent]
    cases hwalk : walkTokens (freshInode s.mem i) rest (some (inodeAddr n)) with
    | none =>
        rw [hwalk, Option.map_none] at hparent
        rw [abyssfsCreate_of_alloc heapPos cwd path halloc hi1, createFile, hparent] at h
        cases h
    | some found =>
        rw [forall_recordsLead_iff hwalk]
        cases found with
        | none => simp
        | some q => simp [directoryBlock_none_iff]

/-- A file is not created behind a regular file exactly when the creation is stopped there, or the
heap has no room for its handle. -/
theorem LeadsToFile.create (hfile : LeadsToFile s.mem us n) (hrange : BlocksInRange s.mem)
    (hlen : path.length < maxPath) (hroot : path.head? = some slash)
    (hsplit : splitLast slash path = some (d, base)) (hd : d ≠ [])
    (hnames : components slash d = us ++ rest) {heapPos heapPos' : Nat} {cwd : Option Str}
    {file : Option VfsFile} (h : abyssfsCreate heapPos s cwd path = some (file, heapPos', s')) :
    (file = none ↔ CreateStopped s n rest ∨ HeapFull heapPos) ∧
      (CreateStopped s n rest → FilesKept s.mem s'.mem) := by
  have hcall : (abyssfsCreate heapPos s cwd path).isSome := by
    rw [h]
    rfl
  have hstopped := hfile.noEntry_iff hrange hlen hroot hsplit hd hnames hcall
  rw [abyssfsCreate_none_iff h, hstopped]
  refine ⟨Iff.rfl, fun hstop => ?_⟩
  rw [← hstopped, NoEntry] at hstop
  rcases abyssfsCreate_cases h with ⟨-, rfl, -⟩ | ⟨i, hi1, hi, hfree, halloc, hrest⟩
  · exact fun _ _ _ _ _ _ _ => rfl
  · rcases hrest with ⟨-, rfl⟩ | ⟨p, filename, b, e, m', hparent, hdir, -, -, -⟩
    · apply filesKept_of_table hrange
      intro x hx
      apply freshInode_outside s.mem
      rw [inodeAddr_eq]
      omega
    · rw [halloc, or_iff_right (by omega : i ≠ 0)] at hstop
      simp [hparent, hdir] at hstop

/-- The parent that `abyssfs_mkdir` finds behind a file. -/
theorem LeadsToFile.parent_made (hfile : LeadsToFile s.mem us n) (hlen : path.length < maxPath)
    (hroot : path.head? = some slash) (hsplit : splitLast slash path = some (d, base))
    (hbase : base ≠ []) (hnames : components slash d = us ++ rest) :
    mkdirParent s.mem path = (walkTokens s.mem rest (some (inodeAddr n))).map
      (·.map fun p => (p, parentInodeNum p, base)) := by
  have hdlen := directory_short hlen hsplit
  obtain ⟨tail, rfl⟩ : ∃ tail, path = slash :: tail := ⟨_, List.eq_cons_of_mem_head? hroot⟩
  rw [mkdirParent_absolute _ (Nat.le_of_lt_succ hlen) hsplit hbase, getInodeByPath_eq _ hdlen, hnames,
    walkTokens_append hfile.found]

theorem abyssfsMkdir_neg_iff {result : Int} (h : abyssfsMkdir s path = some (result, s')) :
    result < 0 ↔ mkdirTarget s path = some none := by
  obtain ⟨-, hcall⟩ | ⟨htarget, s₁, hcall, -⟩ | ⟨m, b, base, htarget, -, -, hcall⟩ :=
    abyssfsMkdir_target s path
  · rw [hcall] at h
    cases h
  · rw [hcall] at h
    cases h
    simp [htarget]
  · rw [hcall, Option.map_eq_some_iff] at h
    obtain ⟨_, _, heq⟩ := h
    cases heq
    simp [htarget]

theorem LeadsToFile.mkdirStopped_iff (hfile : LeadsToFile s.mem us n) (hlen : path.length < maxPath)
    (hroot : path.head? = some slash) (hsplit : splitLast slash path = some (d, base))
    (hnames : components slash d = us ++ rest) (h : (mkdirTarget s path).isSome) :
    mkdirTarget s path = some none ↔ MkdirStopped s n rest base := by
  by_cases hbase : base = []
  · refine iff_of_true ?_ (.inl hbase)
    have hparent : mkdirParent s.mem path = some none := by
      rw [mkdirParent, if_neg (by omega), hsplit]
      exact if_pos hbase
    rw [mkdirTarget, hparent]
  · have hparent := hfile.parent_made hlen hroot hsplit hbase hnames
    rw [mkdirTarget, hparent] at h ⊢
    rw [MkdirStopped, or_iff_right hbase]
    cases hwalk : walkTokens s.mem rest (some (inodeAddr n)) with
    | none => simp [hwalk] at h
    | some found =>
        rw [forall_recordsLead_iff hwalk]
        cases found with
        | none => simp
        | some p =>
            obtain ⟨k, hk, rfl⟩ := walkTokens_addr
              (fun r hr => ⟨n, hfile.bound, (Option.some.inj hr).symm⟩) hwalk
            rcases allocInode_cases s with ⟨halloc, -⟩ | ⟨i, hi1, hi, hfree, halloc⟩
            · simp [halloc]
            rcases allocBlock_cases s with ⟨hblock, -⟩ | ⟨b, hb9, hb64, hunused, hblock⟩
            · simp [hblock]
            have hi0 : i ≠ 0 := by omega
            have hb0 : b ≠ 0 := by omega
            simp only [halloc, hblock, hi0, hb0, Option.map_some, or_self, if_false, false_or,
              Option.some.injEq, Option.map_eq_none_iff, directoryBlock_none_iff, forall_eq']
            by_cases hki : k = i
            · subst hki
              simp [preparedDir_blocks s.mem _ hb9 hb64 hi, hb0]
            · rw [(preparedDir_other s.mem _ hb9 hk hki).blocks]
              simp [inodeAddr_inj, hki]

/-- A directory is not made behind a regular file exactly when `abyssfs_mkdir` is stopped there. -/
theorem LeadsToFile.mkdir (hfile : LeadsToFile s.mem us n) (hrange : BlocksInRange s.mem)
    (hlen : path.length < maxPath) (hroot : path.head? = some slash)
    (hsplit : splitLast slash path = some (d, base)) (hnames : components slash d = us ++ rest)
    {result : Int} (h : abyssfsMkdir s path = some (result, s')) :
    (result < 0 ↔ MkdirStopped s n rest base) ∧
      (result < 0 → FilesMarked s → FilesKept s.mem s'.mem) := by
  have hneg := abyssfsMkdir_neg_iff h
  refine ⟨?_, ?_⟩
  · rw [hneg]
    apply hfile.mkdirStopped_iff hlen hroot hsplit hnames
    rw [Option.isSome_iff_ne_none]
    intro hnone
    obtain ⟨-, hcall⟩ | ⟨htarget, -⟩ | ⟨_, _, _, htarget, -⟩ := abyssfsMkdir_target s path
    · rw [h] at hcall
      cases hcall
    · rw [hnone] at htarget
      cases htarget
    · rw [hnone] at htarget
      cases htarget
  · intro hlt hmarked
    cases abyssfsMkdir_outcome h with
    | noParent | noInode => exact fun _ _ _ _ _ _ _ => rfl
    | noBlock hparent hi =>
        apply filesKept_of_table hrange
        intro x hx
        apply freshInode_outside s.mem
        rw [inodeAddr_eq]
        omega
    | noDirectory hparent hi hfree hb hunused =>
        intro k hk hregular hblock x hlo hhi
        have hstart := ((hrange k hk).resolve_left hblock).1
        have hother : blocks s.mem (inodeAddr k) ≠ _ := fun heq =>
          absurd (hmarked k hk hregular hblock) (by rw [heq, hunused]; exact Bool.false_ne_true)
        rw [blockSize_eq] at hlo hhi
        apply preparedDir_outside
        · rw [inodeAddr_eq]
          omega
        · omega
    | made => cases hlt

end Calls

/-- Behind a regular file a lookup fails exactly where the data do not lead on, and a file or a
directory is refused exactly where they lead to nothing with a block; what is refused leaves the data
of every file as they are. -/
theorem file_data_refused_iff (s : Abyssfs) (hs : AbyssReached s) (path d base : Str)
    (us rest : List Str) (n : Nat) (hlen : path.length < maxPath)
    (hsplit : splitLast slash path = some (d, base)) (hnames : components slash d = us ++ rest)
    (hfile : LeadsToFile s.mem us n) :
    (∀ found, getInodeByPath s.mem path = some found → (found = none ↔
      ∀ q, ¬RecordsLead s.mem (inodeAddr n) (rest ++ components slash base) q)) ∧
    (path.head? = some slash → d ≠ [] → ∀ heapPos cwd file heapPos' s',
      abyssfsCreate heapPos s cwd path = some (file, heapPos', s') →
      (CreateStopped s n rest → file = none ∧ FilesKept s.mem s'.mem) ∧
      (file = none → CreateStopped s n rest ∨ HeapFull heapPos)) ∧
    (path.head? = some slash → FilesMarked s → ∀ result s',
      abyssfsMkdir s path = some (result, s') →
      (result < 0 ∧ FilesKept s.mem s'.mem ↔ MkdirStopped s n rest base)) := by
  have hrange := hs.blocksInRange
  refine ⟨?_, ?_, ?_⟩
  · intro found h
    have hskip := skipSlash_length_le path
    rw [maxPath] at hlen
    rw [getInodeByPath_eq _ (by omega), components_base hsplit, hnames, List.append_assoc] at h
    exact hfile.lookup_iff h
  · intro hroot hd heapPos cwd file heapPos' s' h
    obtain ⟨hiff, hkept⟩ := hfile.create hrange hlen hroot hsplit hd hnames h
    exact ⟨fun hstop => ⟨hiff.mpr (.inl hstop), hkept hstop⟩, hiff.mp⟩
  · intro hroot hmarked result s' h
    obtain ⟨hiff, hkept⟩ := hfile.mkdir hrange hlen hroot hsplit hnames h
    rw [← hiff]
    exact and_iff_left_of_imp fun hneg => hkept hneg hmarked

/-- A volume with the file `/a`, which has no data. -/
def emptyFile : Abyssfs :=
  match abyssfsCreate 262144 (bootVolume blankFs).fs (some (ascii "/")) (ascii "/a") with
  | some (_, _, s) => s
  | none => blankFs

/-- The same with two bytes in the file. -/
def writtenA : Abyssfs := (abyssfsWrite emptyFile ⟨.abyssfs, 2, 0⟩ (ascii "hi")).2

theorem emptyFile_made : ∃ file heapPos, abyssfsCreate 262144 (bootVolume blankFs).fs
    (some (ascii "/")) (ascii "/a") = some (file, heapPos, emptyFile) := by
  have hmade : (abyssfsCreate 262144 (bootVolume blankFs).fs (some (ascii "/"))
      (ascii "/a")).isSome := by decide +kernel
  obtain ⟨⟨file, heapPos, s⟩, hcall⟩ := Option.isSome_iff_exists.mp hmade
  have heq : emptyFile = s := by rw [emptyFile, hcall]
  exact ⟨file, heapPos, by rw [heq, hcall]⟩

theorem emptyFile_reached : AbyssReached emptyFile := by
  obtain ⟨file, heapPos, hcall⟩ := emptyFile_made
  exact .create (.boot blankFs) hcall

/-- `abyssfs_create` gives no inode a block. -/
theorem create_blocks {s s' : Abyssfs} (hrange : BlocksInRange s.mem) {heapPos heapPos' : Nat}
    {cwd : Option Str} {path : Str} {file : Option VfsFile}
    (hcall : abyssfsCreate heapPos s cwd path = some (file, heapPos', s')) {j : Nat} (hj : j < 512) :
    blocks s'.mem (inodeAddr j) = blocks s.mem (inodeAddr j) ∨ blocks s'.mem (inodeAddr j) = 0 := by
  have hfresh (i : Nat) : blocks (freshInode s.mem i) (inodeAddr j) = blocks s.mem (inodeAddr j) ∨
      blocks (freshInode s.mem i) (inodeAddr j) = 0 := by
    by_cases hji : j = i
    · rw [hji]
      exact .inr (freshInode_blocks s.mem i)
    · exact .inl (freshInode_other s.mem hji).blocks
  rcases abyssfsCreate_cases hcall with ⟨_, rfl, _⟩ | ⟨i, _, _, _, _, ⟨_, rfl⟩ |
    ⟨p, filename, b, e, m', hparent, hdir, happend, rfl, _⟩⟩
  · exact .inl rfl
  · exact hfresh i
  · have hb := (hrange.fresh i).directory (createParent_addr hparent).1 hdir
    rw [(SameInode.of_data hj (appendEntry_table happend hb)).blocks]
    exact hfresh i

/-- A name in the root leads to what is found for it. -/
theorem leadsToFile_single {m : Memory} {t : Str} {n : Nat} (hn : n < 512)
    (hregular : RegularFile m n) (hroot : mode m rootInode ≠ 0)
    (hfound : walkTokens m [t] (some rootInode) = some (some (inodeAddr n))) :
    LeadsToFile m [t] n where
  bound := hn
  regular := hregular
  found := hfound
  inUse us p hus hwalk := by
    cases us with
    | nil =>
        cases hwalk
        exact hroot
    | cons u us =>
        obtain ⟨rfl, hnil⟩ := List.cons_prefix_cons.mp hus
        rw [List.prefix_nil.mp hnil, hfound] at hwalk
        cases hwalk
        exact hregular.1

theorem file_data_refused_empty : getInodeByPath emptyFile.mem (ascii "/a/b") = some none ∧
    (∃ heapPos s, abyssfsCreate 300000 emptyFile (some (ascii "/")) (ascii "/a/b") =
      some (none, heapPos, s) ∧ FilesKept emptyFile.mem s.mem) ∧
    ∃ result s, abyssfsMkdir emptyFile (ascii "/a/b") = some (result, s) ∧ result < 0 ∧
      FilesKept emptyFile.mem s.mem := by
  have hfile : LeadsToFile emptyFile.mem [ascii "a"] 2 :=
    leadsToFile_single (by decide) (by unfold RegularFile IsDirectory; decide +kernel)
      (by decide +kernel) (by decide +kernel)
  have hzero : blocks emptyFile.mem (inodeAddr 2) = 0 := by decide +kernel
  obtain ⟨hlookup, hcreate, hmkdir⟩ := file_data_refused_iff emptyFile emptyFile_reached
    (ascii "/a/b") (ascii "/a") (ascii "b") [ascii "a"] [] 2 (by decide) (by decide) (by decide) hfile
  refine ⟨?_, ?_, ?_⟩
  · have hdefined : (getInodeByPath emptyFile.mem (ascii "/a/b")).isSome := by decide +kernel
    obtain ⟨found, h⟩ := Option.isSome_iff_exists.mp hdefined
    rw [h, (hlookup found h).mpr]
    intro q hlead
    cases hlead with
    | next owns => exact owns hzero
  · have hdefined : (abyssfsCreate 300000 emptyFile (some (ascii "/")) (ascii "/a/b")).isSome := by
      decide +kernel
    obtain ⟨⟨file, heapPos, s⟩, h⟩ := Option.isSome_iff_exists.mp hdefined
    have hstop : CreateStopped emptyFile 2 [] := by
      refine .inr fun q hlead => ?_
      cases hlead
      decide +kernel
    obtain ⟨rfl, hkept⟩ := (hcreate rfl (by decide) _ _ _ _ _ h).1 hstop
    exact ⟨heapPos, s, h, hkept⟩
  · have hdefined : (abyssfsMkdir emptyFile (ascii "/a/b")).isSome := by decide +kernel
    obtain ⟨⟨result, s⟩, h⟩ := Option.isSome_iff_exists.mp hdefined
    have hmarked : FilesMarked emptyFile := by
      intro k hk hregular hblock
      obtain ⟨file, heapPos, hmade⟩ := emptyFile_made
      have hroot : k = 1 := by
        by_contra hne
        rcases create_blocks (AbyssReached.boot blankFs).blocksInRange hmade hk with hsame | hzero
        · exact hblock (hsame.trans (boot_blocks blankFs hk hne))
        · exact hblock hzero
      have hdirectory : IsDirectory emptyFile.mem 1 := by
        unfold IsDirectory
        decide +kernel
      exact absurd (hroot ▸ hdirectory) hregular.2
    refine ⟨result, s, h, (hmkdir rfl hmarked result s h).mpr (.inr (.inr (.inr ?_)))⟩
    intro q hlead
    cases hlead
    decide +kernel

/-- What is created behind a file with data is written over the data, and found there. -/
theorem file_data_overwritten : AbyssReached writtenA ∧ LeadsToFile writtenA.mem [ascii "a"] 2 ∧
    (∃ file heapPos s, abyssfsCreate 300000 writtenA (some (ascii "/")) (ascii "/a/b") =
      some (some file, heapPos, s) ∧ ¬FilesKept writtenA.mem s.mem ∧
      getInodeByPath s.mem (ascii "/a/b") ≠ some none) ∧
    ∃ s, abyssfsMkdir writtenA (ascii "/a/b") = some (0, s) ∧ ¬FilesKept writtenA.mem s.mem := by
  have hregular : RegularFile writtenA.mem 2 := by
    unfold RegularFile IsDirectory
    decide +kernel
  have hfirst : writtenA.mem 40960 = 104 := by decide +kernel
  have hchanged (m : Memory) (h : m 40960 ≠ 104) : ¬FilesKept writtenA.mem m := by
    intro hkept
    have hblock : blocks writtenA.mem (inodeAddr 2) = 10 := by decide +kernel
    have hsame := hkept 2 (by decide) hregular (by rw [hblock]; decide) 40960
    rw [hblock] at hsame
    exact h ((hsame (by decide) (by decide)).trans hfirst)
  refine ⟨.write emptyFile_reached ⟨.abyssfs, 2, 0⟩ (ascii "hi"),
    leadsToFile_single (by decide) hregular (by decide +kernel) (by decide +kernel), ?_, ?_⟩
  · have hvalue : (abyssfsCreate 300000 writtenA (some (ascii "/")) (ascii "/a/b")).map
        (fun r => (r.1.isSome, r.2.2.mem 40960, getInodeByPath r.2.2.mem (ascii "/a/b"))) =
        some (true, 3, some (some (inodeAddr 3))) := by decide +kernel
    obtain ⟨⟨file, heapPos, s⟩, h, heq⟩ := Option.map_eq_some_iff.mp hvalue
    simp only [Prod.mk.injEq] at heq
    obtain ⟨hsome, hbyte, hfound⟩ := heq
    obtain ⟨file, rfl⟩ := Option.isSome_iff_exists.mp hsome
    refine ⟨file, heapPos, s, h, hchanged _ ?_, ?_⟩
    · rw [hbyte]
      decide
    · rw [hfound]
      simp
  · have hvalue : (abyssfsMkdir writtenA (ascii "/a/b")).map (fun r => (r.1, r.2.mem 40960)) =
        some (0, 3) := by decide +kernel
    obtain ⟨⟨result, s⟩, h, heq⟩ := Option.map_eq_some_iff.mp hvalue
    simp only [Prod.mk.injEq] at heq
    obtain ⟨rfl, hbyte⟩ := heq
    refine ⟨s, h, hchanged _ ?_⟩
    rw [hbyte]
    decide

end Chthon
