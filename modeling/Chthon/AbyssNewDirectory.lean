import Chthon.AbyssDirectories
import Chthon.AbyssCreate

/-! What `abyssfs_read_dir` shows of a directory that `abyssfs_mkdir` has just made. Its block is not
cleared, and the length of the `..` record, 4088 in one byte, leads the walk to offset 256 of the
block: what lies there from an earlier use is read as a third record. -/

namespace Chthon

open ByteMemory DirectoryTree PathText Run

/-- The calls of a session that keep every directory listed: a record fits the parent's block with
six bytes to spare, the dots of the root are not unlinked, a handle written through is not on an
unlinked file, and a new directory gets a clean block. -/
def SessionOp.KeepsDirectories (v : Session) : SessionOp → Prop
  | .mkdir path => (SessionOp.mkdir path).Contained v ∧ CleanBlock v.volume.fs
  | .write ref _ => ∀ file, v.handle ref = some file → WritesFile v.volume.fs file.privateData
  | op => op.Contained v

/-- A path whose parent is reached through directories only and has no entry of its name. -/
structure NewPath (m : Memory) (path d base : Str) : Prop where
  rooted : path.head? = some slash
  split : splitLast slash path = some (d, base)
  parent : ∀ us, us <+: components slash d →
    ∃ k < 512, IsDirectory m k ∧ walkTokens m us (some rootInode) = some (some (inodeAddr k))
  absent : ∀ p, getInodeByPath m d = some (some p) →
    findEntry m base heapSize (blocks m p * blockSize) = some none

/-- `abyssfs_read_dir` lists exactly the two dots, with the inode of the path and of its parent. -/
def ListsOnlyDots (m : Memory) (path d : Str) : Prop :=
  ∃ i < 512, ∃ n < 512, getInodeByPath m path = some (some (inodeAddr i)) ∧
    getInodeByPath m d = some (some (inodeAddr n)) ∧ ∀ maxEntries, 3 ≤ maxEntries →
      abyssfsReadDir m path maxEntries = some (some [(i, ascii "."), (n, ascii "..")])

/-! Runs. -/

/-- Nothing is asked of the pairs. -/
theorem allowsEdits_true : AllowsEdits fun _ => True := ⟨fun _ _ => trivial, fun _ _ _ _ => trivial⟩

structure ListedInv (v : Session) : Prop where
  session : SessionInv v
  listed : Listed (fun _ => True) v.volume.fs

theorem SessionOp.KeepsDirectories.contained {v : Session} {op : SessionOp}
    (h : op.KeepsDirectories v) : op.Contained v := by
  cases op with
  | mkdir path => exact h.1
  | write ref data => trivial
  | create cwd path => exact h
  | openPath path => trivial
  | unlink path => exact h
  | read ref count => trivial

theorem ListedInv.step {v v' : Session} {op : SessionOp} {reply : Int × Str}
    (h : ListedInv v) (hkeeps : op.KeepsDirectories v)
    (htaken : sessionStep v op = some (reply, v')) : ListedInv v' := by
  obtain ⟨es, howned⟩ := h.session.owned
  refine ⟨h.session.step hkeeps.contained htaken, ?_⟩
  cases op with
  | create cwd path =>
      simp only [sessionStep, Option.map_eq_some_iff] at htaken
      obtain ⟨⟨file, heapPos, fs⟩, hcall, htaken⟩ := htaken
      have hlisted : Listed (fun _ => True) fs := by
        apply h.listed.create howned path.nul_free _ hcall
        exact fun p filename b hparent hdir =>
          ⟨hkeeps p filename b hparent hdir, fun _ _ _ _ _ => trivial⟩
      cases file <;> cases htaken <;> exact hlisted
  | mkdir path =>
      simp only [sessionStep, Option.map_eq_some_iff] at htaken
      obtain ⟨⟨result, fs⟩, hcall, htaken⟩ := htaken
      cases htaken
      apply h.listed.mkdir howned allowsEdits_true path.nul_free hkeeps.2 _ hcall
      exact fun m b base htarget => ⟨hkeeps.1 m b base htarget, fun _ _ _ _ _ => trivial⟩
  | openPath path =>
      simp only [sessionStep, abyssfsOpen] at htaken
      cases hkalloc : kalloc v.volume.heapPos vfsFileSize with
      | mk found heapPos =>
          cases found <;> simp only [hkalloc, Option.some.injEq, Prod.mk.injEq] at htaken <;>
            obtain ⟨-, rfl⟩ := htaken <;> exact h.listed
  | unlink path =>
      simp only [sessionStep, Option.map_eq_some_iff] at htaken
      obtain ⟨⟨result, fs⟩, hcall, htaken⟩ := htaken
      cases htaken
      exact h.listed.unlink howned allowsEdits_true path.nul_free hkeeps.1 hkeeps.2 hcall
  | read ref count =>
      simp only [sessionStep, Option.bind_eq_some_iff, Option.map_eq_some_iff] at htaken
      obtain ⟨file, -, ⟨bytes, file'⟩, -, htaken⟩ := htaken
      cases htaken
      cases ref <;> exact h.listed
  | write ref data =>
      simp only [sessionStep, Option.map_eq_some_iff] at htaken
      obtain ⟨file, hfile, htaken⟩ := htaken
      cases htaken
      have hlisted := h.listed.write howned data rfl (h.session.handle hfile).1 (hkeeps file hfile)
      cases ref <;> exact hlisted

theorem listedInv_run {s₀ : Abyssfs} {trace : List (SessionOp × (Int × Str))} {v : Session}
    (hrun : Steps sessionStep SessionOp.KeepsDirectories (bootSession s₀) trace v) :
    ListedInv v := by
  apply hrun.preserves
  · exact ⟨⟨⟨[], boot_owned s₀⟩, by simp [bootSession], by simp [bootSession]⟩,
      boot_listed allowsEdits_true s₀⟩
  · exact fun t op reply u ht hkeeps htaken => ht.step hkeeps htaken

/-! Lookups while directories grow. -/

/-- Every directory keeps its block and its records, perhaps with more behind them. -/
def Grows (m m' : Memory) : Prop :=
  ∀ n < 512, IsDirectory m n → blocks m (inodeAddr n) < 64 ∧
    blocks m' (inodeAddr n) = blocks m (inodeAddr n) ∧
    ∃ rs added, DirAt m (blocks m (inodeAddr n)) rs ∧ DirAt m' (blocks m (inodeAddr n)) (rs ++ added)

section Walks

variable {m m' : Memory} {n k : Nat} {ts us : List Str}

theorem walkTokens_append {start : Option Nat} {p : Nat}
    (h : walkTokens m ts start = some (some p)) :
    walkTokens m (ts ++ us) start = walkTokens m us (some p) := by
  induction ts generalizing start with
  | nil =>
      rw [walkTokens, Option.some.injEq] at h
      rw [h, List.nil_append]
  | cons t ts ih =>
      cases start with
      | none => cases h
      | some inode =>
          rw [List.cons_append]
          rw [walkTokens] at h ⊢
          split_ifs at h ⊢
          · cases h
          split at h
          · cases h
          split at h
          · cases h
          · cases h
          · exact ih h

/-- A lookup that goes through directories ends where it did before they grew. -/
theorem Grows.walk (hgrows : Grows m m') (hts : ∀ t ∈ ts, 0 ∉ t)
    (hdirs : ∀ us, us <+: ts →
      ∃ k < 512, IsDirectory m k ∧ walkTokens m us (some (inodeAddr n)) = some (some (inodeAddr k))) :
    walkTokens m' ts (some (inodeAddr n)) = walkTokens m ts (some (inodeAddr n)) := by
  induction ts generalizing n with
  | nil => rfl
  | cons t ts ih =>
      obtain ⟨k, hk, hdir, hstart⟩ := hdirs [] List.nil_prefix
      have hkn : k = n := by
        rw [walkTokens, Option.some.injEq, Option.some.injEq, inodeAddr_inj] at hstart
        exact hstart.symm
      subst hkn
      obtain ⟨hlt, hblocks, rs, added, hrs, hrs'⟩ := hgrows k hk hdir
      obtain ⟨j, hj, -, hfirst⟩ := hdirs [t] ⟨ts, rfl⟩
      have hpos : blocks m (inodeAddr k) ≠ 0 := by
        intro hzero
        rw [walkTokens, if_pos hzero] at hfirst
        cases hfirst
      have htoken := hts t List.mem_cons_self
      rw [hrs.walkTokens_cons rfl hpos hlt htoken] at hfirst
      rw [hrs.walkTokens_cons rfl hpos hlt htoken, hrs'.walkTokens_cons hblocks hpos hlt htoken,
        List.map_append, List.find?_append]
      cases hkey : (rs.map DirEntry.key).find? (·.2 = t) with
      | none =>
          rw [hkey] at hfirst
          cases hfirst
      | some key =>
          rw [hkey, Option.elim_some, walkTokens, Option.some.injEq] at hfirst
          rw [Option.some_or, Option.elim_some, Option.elim_some, hfirst]
          apply ih (fun u hu => hts u (List.mem_cons_of_mem _ hu))
          intro us hus
          obtain ⟨i, hi, hidir, hwalk⟩ := hdirs (t :: us) (List.cons_prefix_cons.mpr ⟨rfl, hus⟩)
          rw [hrs.walkTokens_cons rfl hpos hlt htoken, hkey, Option.elim_some, hfirst] at hwalk
          exact ⟨i, hi, hidir, hwalk⟩

end Walks

/-! The new block. -/

/-- The decoding of a new directory stops behind the two dots exactly when the byte it takes for the
length of a third record is zero. -/
theorem newDirectory_dirents {m : Memory} {a i p : Nat} (hi : i < 2 ^ 32) (hp : p < 2 ^ 32)
    (hdot : RecordAt m a (dotEntry i hi) 8) (hdotdot : RecordAt m (a + 8) (dotdotEntry p hp) 248)
    (room : Nat) (x y : Nat × Str) :
    direntsFrom m (room + 3) a = some [x, y] ↔
      m (a + 261) = 0 ∧ x = (i, ascii ".") ∧ y = (p, ascii "..") := by
  have hthird : recLen m (a + 8 + 248) = (m (a + 261)).toNat := rfl
  rw [hdot.direntsFrom (by omega), hdotdot.direntsFrom (by omega), direntsFrom, hthird]
  split_ifs with hzero
  · have hbyte : m (a + 261) = 0 := UInt8.toNat_inj.mp hzero
    simp [hbyte, dotEntry, dotdotEntry, DirEntry.pair, eq_comm]
  · have hbyte : m (a + 261) ≠ 0 := fun h => hzero (by rw [h]; rfl)
    split
    · simp [hbyte]
    · simp [hbyte]

/-! A call that returns 0. -/

/-- What a new directory and its lookup look like afterwards. -/
structure MadeDirectory (s s' : Abyssfs) (path d : Str) (i n b : Nat) : Prop where
  named : skipSlash path ≠ []
  short : (skipSlash path).length ≤ 255
  inode : i < 512
  parent : n < 512
  block : b < 64
  found : getInodeByPath s'.mem path = some (some (inodeAddr i))
  above : getInodeByPath s'.mem d = some (some (inodeAddr n))
  owns : blocks s'.mem (inodeAddr i) = b
  dot : ∀ hi, RecordAt s'.mem (b * 4096) (dotEntry i hi) 8
  dotdot : ∀ hn, RecordAt s'.mem (b * 4096 + 8) (dotdotEntry n hn) 248
  stop : s'.mem (b * 4096 + 261) = s.mem (b * 4096 + 261)

section Made

variable {Q : List (Nat × Str) → Prop} {s s' : Abyssfs} {es : List DirEntry} {path d base : Str}
  {i n b pb : Nat}

/-- The parent `abyssfs_mkdir` finds for a new path. -/
theorem NewPath.parent_found {m : Memory} {p num : Nat} {base' : Str} (h : NewPath m path d base)
    (hparent : mkdirParent m path = some (some (p, num, base'))) :
    path.length ≤ 255 ∧ base ≠ [] ∧ base' = base ∧ ∃ n < 512, IsDirectory m n ∧ p = inodeAddr n ∧
      num = parentInodeNum (inodeAddr n) ∧
      walkTokens m (components slash d) (some rootInode) = some (some (inodeAddr n)) := by
  obtain ⟨rest, rfl⟩ : ∃ rest, path = slash :: rest := ⟨_, List.eq_cons_of_mem_head? h.rooted⟩
  have hlen : (slash :: rest).length ≤ 255 := by
    by_contra hlong
    rw [mkdirParent, maxPath, if_pos (by omega)] at hparent
    cases hparent
  have hbase : base ≠ [] := by
    rintro rfl
    rw [mkdirParent, maxPath, if_neg (by omega), h.split] at hparent
    cases hparent
  have hdlen : d.length ≤ 255 := by
    have hcut := congrArg List.length (eq_of_splitLast slash h.split).1
    rw [List.length_append] at hcut
    omega
  obtain ⟨n, hn, hdir, hwalk⟩ := h.parent _ List.prefix_rfl
  rw [mkdirParent_absolute m hlen h.split hbase,
    getInodeByPath_eq m ((skipSlash_length_le d).trans hdlen), hwalk, Option.map_some,
    Option.map_some, Option.some.injEq, Option.some.injEq, Prod.mk.injEq, Prod.mk.injEq] at hparent
  obtain ⟨rfl, rfl, rfl⟩ := hparent
  exact ⟨hlen, hbase, rfl, n, hn, hdir, rfl, rfl, hwalk⟩

theorem NewPath.named {m : Memory} (h : NewPath m path d base) (hbase : base ≠ []) :
    skipSlash path ≠ [] := by
  obtain ⟨rest, rfl⟩ : ∃ rest, path = slash :: rest := ⟨_, List.eq_cons_of_mem_head? h.rooted⟩
  have hcut := congrArg List.length (eq_of_splitLast slash h.split).1
  have hpos := List.length_pos_iff.mpr hbase
  rw [List.length_append, List.length_cons, List.length_cons] at hcut
  rw [skipSlash_slash]
  exact List.ne_nil_of_length_pos (by omega)

/-- Making a directory adds its record behind those of its parent's block and leaves the blocks of
the other directories alone. -/
theorem Owned.mkdir_directory (howned : Owned es s) {num e : Nat} {name : Str} {m' : Memory}
    {rs : List DirEntry} (hi : i < 512) (hfree : mode s.mem (inodeAddr i) = 0) (hb9 : 9 ≤ b)
    (hunused : s.used b = false) (hpb : 9 ≤ pb) (hnul : 0 ∉ name)
    (hroom : AppendRoom (preparedDir s.mem i b num) pb name)
    (happend : appendEntry (preparedDir s.mem i b num) pb i name = some (e, m')) (hn : n < 512)
    (hdir : IsDirectory s.mem n) (hrs : DirAt s.mem (blocks s.mem (inodeAddr n)) rs) :
    SameInode s.mem m' n ∧ DirAt m' (blocks s.mem (inodeAddr n))
      (rs ++ if blocks s.mem (inodeAddr n) = pb then [⟨i, name, by omega, hnul, hroom.1⟩] else []) := by
  have hne : n ≠ i := by
    rintro rfl
    exact hdir.inUse hfree
  have honly := hroom.onlyBlock happend
  have hrange := howned.block_range hn
  have hother := howned.block_ne hn hdir.inUse hunused (by omega)
  have hprepared : DirAt (preparedDir s.mem i b num) (blocks s.mem (inodeAddr n)) rs := by
    apply hrs.congr
    intro x hlo hhi
    exact preparedDir_outside s.mem num (by rw [inodeAddr_eq]; omega) (by omega)
  constructor
  · exact (preparedDir_other s.mem num hb9 hn hne).trans
      (SameInode.of_data hn fun x hx => honly x (by omega))
  · split_ifs with hblock
    · rw [hblock] at hprepared ⊢
      exact hprepared.append_pair hroom (by omega) hnul happend
    · rw [List.append_nil]
      exact hprepared.other honly hblock

/-- The record goes to the parent's own block. -/
theorem Owned.parent_block (howned : Owned es s) (hb9 : 9 ≤ b) (hn : n < 512)
    (hfree : mode s.mem (inodeAddr i) = 0) (hdir : IsDirectory s.mem n)
    (hblock : directoryBlock (preparedDir s.mem i b n) (inodeAddr n) = some pb) :
    blocks s.mem (inodeAddr n) = pb ∧ 9 ≤ pb := by
  have hni : n ≠ i := by
    rintro rfl
    exact hdir.inUse hfree
  have hrange := howned.block_range hn
  rw [directoryBlock, (preparedDir_other s.mem n hb9 hn hni).blocks] at hblock
  split_ifs at hblock with hzero hroot
  · rw [rootInode_eq, inodeAddr_inj] at hroot
    rw [hroot, ← rootInode_eq, howned.rootBlock] at hzero
    cases hzero
  · have hpb := Option.some.inj hblock
    exact ⟨hpb, by omega⟩

/-- A name that is not among the entries of a directory is found at the one appended to them. -/
theorem DirAt.walkTokens_added {m m' : Memory} {rs : List DirEntry} {r : DirEntry}
    (h : DirAt m b rs) (h' : DirAt m' b (rs ++ [r])) (hblock : blocks m' (inodeAddr n) = b)
    (hpos : b ≠ 0) (hb : b < 64) (hr : r.inode < 512)
    (habsent : findEntry m r.name heapSize (b * 4096) = some none) :
    walkTokens m' [r.name] (some (inodeAddr n)) = some (some (inodeAddr r.inode)) := by
  have hold : (rs.map DirEntry.key).find? (·.2 = r.name) = none := by
    obtain ⟨found, hfind, hinode⟩ := h.findEntry_key r.nul_free
    rw [habsent] at hfind
    cases hfind
    rw [Option.map_none, eq_comm, Option.map_eq_none_iff] at hinode
    exact hinode
  have hnew : [r.key].find? (·.2 = r.name) = some r.key :=
    List.find?_cons_of_pos (decide_eq_true rfl)
  rw [h'.walkTokens_cons hblock hpos hb r.nul_free, List.map_append, List.find?_append, hold,
    Option.none_or, List.map_singleton, hnew]
  exact congrArg some (getInode_of_lt hr)

theorem NewPath.made (h : NewPath s.mem path d base) (howned : Owned es s) (hlisted : Listed Q s)
    (hnul : 0 ∉ path)
    (hroom : ∀ m b base, mkdirTarget s path = some (some (m, b, base)) → AppendRoom m b base)
    (hcall : abyssfsMkdir s path = some (0, s')) :
    ∃ i n, MadeDirectory s s' path d i n (allocBlock s).1 := by
  rcases abyssfsMkdir_cases hcall with ⟨-, hfails, -⟩ | ⟨p, num, base', hparent, hrest⟩
  · cases hfails
  obtain ⟨hlen, hbase, rfl, n, hn, hdir, rfl, rfl, hwalk⟩ := h.parent_found hparent
  rcases hrest with ⟨-, hfails, -⟩ | ⟨i, hi1, hi, hfree, -, hrest⟩
  · cases hfails
  rcases hrest with ⟨hfails, -⟩ | ⟨b, hb9, hb64, hunused, hb, hrest⟩
  · cases hfails
  rcases hrest with ⟨-, hfails, -⟩ | ⟨pb, e, m', hblock, htarget, happend, -, rfl⟩
  · cases hfails
  obtain ⟨hn1, rs, hrs, -⟩ := hlisted n hn hdir
  have hspare := hroom _ _ _ htarget
  obtain ⟨hcut, hnoslash⟩ := eq_of_splitLast slash h.split
  have hbnul : 0 ∉ base' := fun hz =>
    hnul (hcut ▸ List.mem_append_right _ (List.mem_cons_of_mem _ hz))
  have hdnul : ∀ t ∈ components slash d, 0 ∉ t := fun t ht hz =>
    hnul (hcut ▸ List.mem_append_left _ ((mem_components slash ht).2 0 hz))
  have hdlen : (skipSlash d).length ≤ 255 := by
    have hsum := congrArg List.length hcut
    rw [List.length_append] at hsum
    exact (skipSlash_length_le d).trans (by omega)
  rw [parentInodeNum_inodeAddr hn1 hn] at hblock hspare happend
  obtain ⟨hpb, hpb9⟩ := howned.parent_block hb9 hn hfree hdir hblock
  have hpb64 : pb < 64 := appendEntry_block_lt happend
  have honly := hspare.onlyBlock happend
  have hnb : pb ≠ b := by
    rw [← hpb]
    exact howned.block_ne hn hdir.inUse hunused (by omega)
  have hmade := fun k hk hkdir js (hjs : DirAt s.mem (blocks s.mem (inodeAddr k)) js) =>
    howned.mkdir_directory hi hfree hb9 hunused hpb9 hbnul hspare happend hk hkdir hjs
  have hgrows : Grows s.mem m' := by
    intro k hk hkdir
    obtain ⟨-, js, hjs, -⟩ := hlisted k hk hkdir
    obtain ⟨hsame, hafter⟩ := hmade k hk hkdir js hjs
    exact ⟨howned.blocks_lt hk, hsame.blocks, js, _, hjs, hafter⟩
  have hwalk' : walkTokens m' (components slash d) (some rootInode) =
      some (some (inodeAddr n)) := by
    rw [rootInode_eq] at hwalk ⊢
    rw [hgrows.walk hdnul h.parent, hwalk]
  have habsent := h.absent (inodeAddr n) (by rw [getInodeByPath_eq s.mem hdlen, hwalk])
  obtain ⟨hsame, hafter⟩ := hmade n hn hdir rs hrs
  rw [if_pos hpb] at hafter
  rw [hpb] at hrs hafter habsent
  have hfound := hrs.walkTokens_added hafter (hsame.blocks.trans hpb) (by omega) hpb64 hi habsent
  obtain ⟨hdot, hdotdot⟩ := preparedDir_records s.mem (i := i) (b := b) (by omega : i < 2 ^ 32)
    (by omega : n < 2 ^ 32)
  have hshort : (skipSlash path).length ≤ 255 := (skipSlash_length_le path).trans hlen
  refine ⟨i, n, h.named hbase, hshort, hi, hn, by omega, ?_, ?_, ?_, ?_, ?_, ?_⟩
  · rw [getInodeByPath_eq m' hshort, hcut,
      components_append_component slash d ⟨hbase, hnoslash⟩, walkTokens_append hwalk', hfound]
  · rw [getInodeByPath_eq m' hdlen, hwalk']
  · have hi' : SameInode (preparedDir s.mem i b n) m' i :=
      SameInode.of_data hi fun x hx => honly x (by omega)
    rw [hb, hi'.blocks, preparedDir_blocks s.mem n hb9 hb64 hi]
  · intro _
    rw [hb]
    exact hdot.congr fun x hlo hhi => honly x (by simp [dotEntry, ascii] at hhi; omega)
  · intro _
    rw [hb]
    exact hdotdot.congr fun x hlo hhi => honly x (by simp [dotdotEntry, ascii] at hhi; omega)
  · rw [hb]
    calc m' (b * 4096 + 261) = preparedDir s.mem i b n (b * 4096 + 261) := honly _ (by omega)
      _ = s.mem (b * 4096 + 261) :=
        preparedDir_behind s.mem n (by rw [inodeAddr_eq]; omega) (by omega)

theorem MadeDirectory.readDir (h : MadeDirectory s s' path d i n b) (maxEntries : Nat) :
    abyssfsReadDir s'.mem path maxEntries = (direntsFrom s'.mem maxEntries (b * 4096)).map some := by
  have hfound : getInodeByPath s'.mem (skipSlash path) = some (some (inodeAddr i)) := by
    rw [getInodeByPath_eq s'.mem ((skipSlash_length_le _).trans h.short), components_skipSlash,
      ← getInodeByPath_eq s'.mem h.short, h.found]
  simp only [abyssfsReadDir, if_neg h.named, hfound, Option.map_some, h.owns, getBlock_of_lt h.block]

theorem MadeDirectory.listsOnlyDots_iff (h : MadeDirectory s s' path d i n b) :
    ListsOnlyDots s'.mem path d ↔ s.mem (b * 4096 + 261) = 0 := by
  have hi : i < 2 ^ 32 := h.inode.trans (by decide)
  have hn : n < 2 ^ 32 := h.parent.trans (by decide)
  have hdecode := newDirectory_dirents hi hn (h.dot hi) (h.dotdot hn)
  rw [← h.stop]
  constructor
  · rintro ⟨j, -, k, -, -, -, hlists⟩
    have hthree := hlists 3 le_rfl
    rw [h.readDir, Option.map_eq_some_iff] at hthree
    obtain ⟨entries, hentries, heq⟩ := hthree
    rw [Option.some.inj heq] at hentries
    exact ((hdecode 0 _ _).mp hentries).1
  · intro hzero
    refine ⟨i, h.inode, n, h.parent, h.found, h.above, ?_⟩
    intro maxEntries hmax
    obtain ⟨room, rfl⟩ : ∃ room, maxEntries = room + 3 := ⟨maxEntries - 3, by omega⟩
    rw [h.readDir, (hdecode room _ _).mpr ⟨hzero, rfl, rfl⟩]
    rfl

end Made

/-- In every state of every session that keeps its directories listed, a directory made under a new
name lists exactly the two dots if and only if the byte its walk ends on was zero. -/
theorem new_directory_empty_iff (s₀ : Abyssfs) (trace : List (SessionOp × (Int × Str)))
    (v : Session)
    (hrun : Steps sessionStep SessionOp.KeepsDirectories (bootSession s₀) trace v)
    (path : CString) (d base : Str) (hpath : NewPath v.volume.fs.mem path.chars d base)
    (hroom : (SessionOp.mkdir path).Contained v) (s' : Abyssfs)
    (hcall : abyssfsMkdir v.volume.fs path.chars = some (0, s')) :
    ListsOnlyDots s'.mem path.chars d ↔
      v.volume.fs.mem ((allocBlock v.volume.fs).1 * blockSize + 261) = 0 := by
  have hinv := listedInv_run hrun
  obtain ⟨es, howned⟩ := hinv.session.owned
  obtain ⟨i, n, hmade⟩ := hpath.made howned hinv.listed path.nul_free hroom hcall
  exact hmade.listsOnlyDots_iff

/-! Two sessions from a blank disk. -/

/-- A `mkdir` whose record has room, from the values its checks evaluate to. -/
theorem SessionOp.contained_mkdir {v : Session} {path : CString} (p num i b pb e : Nat) (base : Str)
    (hparent : mkdirParent v.volume.fs.mem path.chars = some (some (p, num, base)))
    (hinode : (allocInode v.volume.fs).1 = i) (hblock : (allocBlock v.volume.fs).1 = b)
    (hdir : directoryBlock (preparedDir v.volume.fs.mem i b num) p = some pb)
    (hend : appendPosition (preparedDir v.volume.fs.mem i b num) pb = some e)
    (hroom : base.length ≤ 245 ∧ e + (minRecLen base.length).toNat + 6 ≤ pb * 4096 + 4096) :
    (SessionOp.mkdir path).Contained v := by
  intro m pb' base' htarget
  obtain ⟨rfl, rfl, rfl⟩ := mkdirTarget_unique htarget hparent hinode hblock hdir
  refine ⟨hroom.1, ?_⟩
  intro e' hend'
  rw [hend] at hend'
  cases hend'
  exact hroom.2

theorem outer_nul_free : 0 ∉ ascii "/a" := by decide

def outerDirectory : SessionOp := .mkdir ⟨ascii "/a", outer_nul_free⟩

/-- The volume with the directory `/a`. -/
def outerMade : Session := next sessionStep (bootSession blankFs) outerDirectory

theorem outer_run : Steps sessionStep SessionOp.KeepsDirectories (bootSession blankFs)
    ([] ++ [(outerDirectory, (0, []))]) outerMade := by
  apply Steps.nil.extend
  · refine ⟨SessionOp.contained_mkdir 4160 1 2 10 9 36884 (ascii "a") (by decide +kernel)
      (by decide +kernel) (by decide +kernel) (by decide +kernel) (by decide +kernel)
      (by decide +kernel), .inr (by decide +kernel)⟩
  · decide +kernel

theorem inner_newPath : NewPath outerMade.volume.fs.mem (ascii "/a/b") (ascii "/a") (ascii "b") where
  rooted := rfl
  split := by decide
  parent := by
    intro us hus
    rw [← List.mem_inits, show (components slash (ascii "/a")).inits = [[], [ascii "a"]] by decide,
      List.mem_cons, List.mem_singleton] at hus
    rcases hus with rfl | rfl
    · exact ⟨1, by decide, by unfold IsDirectory; decide +kernel, rfl⟩
    · exact ⟨2, by decide, by unfold IsDirectory; decide +kernel, by decide +kernel⟩
  absent := by
    intro p hp
    have hparent : getInodeByPath outerMade.volume.fs.mem (ascii "/a") = some (some 4224) := by
      decide +kernel
    rw [hparent] at hp
    cases hp
    decide +kernel

theorem new_directory_empty_nested : ∃ s',
    abyssfsMkdir outerMade.volume.fs (ascii "/a/b") = some (0, s') ∧
      ListsOnlyDots s'.mem (ascii "/a/b") (ascii "/a") := by
  have hresult : (abyssfsMkdir outerMade.volume.fs (ascii "/a/b")).map Prod.fst = some 0 := by
    decide +kernel
  obtain ⟨⟨result, s'⟩, hcall, rfl⟩ := Option.map_eq_some_iff.mp hresult
  have hiff := new_directory_empty_iff blankFs _ outerMade outer_run ⟨ascii "/a/b", by decide⟩
    (ascii "/a") (ascii "b") inner_newPath
    (SessionOp.contained_mkdir 4224 2 3 11 10 40980 (ascii "b") (by decide +kernel)
      (by decide +kernel) (by decide +kernel) (by decide +kernel) (by decide +kernel)
      (by decide +kernel)) s' hcall
  exact ⟨s', hcall, hiff.mpr (by decide +kernel)⟩

/-- A file is written and unlinked again. -/
def leaveBlock : List SessionOp :=
  [.create (some (ascii "/")) ⟨ascii "/f", by decide⟩, .write (.created 0) (List.replicate 262 97),
    .unlink ⟨ascii "/f", by decide⟩]

def blockLeft : Session := leaveBlock.foldl (next sessionStep) (bootSession blankFs)

/-- The block of the file becomes that of a directory, which then lists a third entry. -/
theorem used_block_listed : ¬ ∀ (s₀ : Abyssfs) (trace : List (SessionOp × (Int × Str)))
    (v : Session) (path : CString) (d base : Str) (s' : Abyssfs),
    Steps sessionStep (fun _ _ => True) (bootSession s₀) trace v →
    splitLast slash path.chars = some (d, base) →
    abyssfsMkdir v.volume.fs path.chars = some (0, s') → ListsOnlyDots s'.mem path.chars d := by
  intro h
  have hrun := steps_of_replies sessionStep (bootSession blankFs) leaveBlock
    [(0, []), (262, []), (0, [])] (by decide +kernel) (admits_true _ _)
  have hresult : (abyssfsMkdir blockLeft.volume.fs (ascii "/d")).map Prod.fst = some 0 := by
    decide +kernel
  have hthree : ((abyssfsMkdir blockLeft.volume.fs (ascii "/d")).map fun call =>
      (abyssfsReadDir call.2.mem (ascii "/d") 3).map (·.map List.length)) =
      some (some (some 3)) := by
    decide +kernel
  obtain ⟨⟨result, s'⟩, hcall, rfl⟩ := Option.map_eq_some_iff.mp hresult
  obtain ⟨i, -, n, -, -, -, hlists⟩ := h blankFs _ blockLeft ⟨ascii "/d", by decide⟩ [] (ascii "d")
    s' hrun (by decide) hcall
  rw [hcall, Option.map_some, hlists 3 le_rfl] at hthree
  cases hthree

end Chthon
