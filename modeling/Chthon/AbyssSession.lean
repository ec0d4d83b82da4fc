import Chthon.AbyssOwnership
import Chthon.Lib.Run

/-! Sessions: any sequence of calls on AbyssFS, with the handles they return. The history fields of
a created file, whether it is still linked and what was written to it, are read by no call. -/

namespace Chthon

open ByteMemory PathText Run

structure CreatedFile where
  handle : VfsFile
  alive : Bool
  written : List Str
  deriving DecidableEq

structure Session where
  volume : Volume
  files : List CreatedFile
  opened : List VfsFile

def bootSession (s : Abyssfs) : Session := ⟨bootVolume s, [], []⟩

/-- A handle is named by the order in which the calls returned it. -/
inductive FileRef where
  | created (k : Nat)
  | opened (k : Nat)

inductive SessionOp where
  | create (cwd : Option Str) (path : CString)
  | mkdir (path : CString)
  | openPath (path : CString)
  | unlink (path : CString)
  | read (file : FileRef) (count : Nat)
  | write (file : FileRef) (data : Str)

def Session.handle (v : Session) : FileRef → Option VfsFile
  | .created k => v.files[k]?.map CreatedFile.handle
  | .opened k => v.opened[k]?

def Session.setHandle (v : Session) (file : VfsFile) : FileRef → Session
  | .created k => { v with files := v.files.modify k fun f => { f with handle := file } }
  | .opened k => { v with opened := v.opened.set k file }

def CreatedFile.unlinked (inode : Option Nat) (f : CreatedFile) : CreatedFile :=
  if inode = some f.handle.privateData then { f with alive := false } else f

/-- The bytes a write accepted through a created handle are recorded with its file. -/
def Session.recordWrite (v : Session) (data : Str) : FileRef → Session
  | .created k => { v with
      files := v.files.modify k fun f => { f with written := f.written ++ [data] } }
  | .opened _ => v

/-- One call; the reply is its return value and the bytes it read. -/
def sessionStep (v : Session) : SessionOp → Option ((Int × Str) × Session)
  | .create cwd path =>
      (abyssfsCreate v.volume.heapPos v.volume.fs cwd path.chars).map fun (file, heapPos, fs) =>
        match file with
        | none => ((-1, []), { v with volume := ⟨heapPos, fs⟩ })
        | some file => ((0, []),
            { v with volume := ⟨heapPos, fs⟩, files := v.files ++ [⟨file, true, []⟩] })
  | .mkdir path =>
      (abyssfsMkdir v.volume.fs path.chars).map fun (result, fs) =>
        ((result, []), { v with volume := ⟨v.volume.heapPos, fs⟩ })
  | .openPath path =>
      match abyssfsOpen v.volume.heapPos path.chars with
      | (none, heapPos) => some ((-1, []), { v with volume := ⟨heapPos, v.volume.fs⟩ })
      | (some file, heapPos) => some ((0, []),
          { v with volume := ⟨heapPos, v.volume.fs⟩, opened := v.opened ++ [file] })
  | .unlink path =>
      (abyssfsUnlink v.volume.fs path.chars).map fun (result, fs) =>
        ((result, []), { v with
          volume := ⟨v.volume.heapPos, fs⟩
          files := v.files.map (·.unlinked (unlinkTarget v.volume.fs.mem path.chars)) })
  | .read ref count =>
      (v.handle ref).bind fun file =>
        (abyssfsRead v.volume.fs file count).map fun (bytes, file) =>
          ((match bytes with
            | none => (-1, [])
            | some bytes => (bytes.length, bytes)), v.setHandle file ref)
  | .write ref data =>
      (v.handle ref).map fun file =>
        let (result, fs) := abyssfsWrite v.volume.fs file data
        ((result, []), { v with volume := ⟨v.volume.heapPos, fs⟩ }.recordWrite
          (data.take result.toNat) ref)

theorem setHandle_files (v : Session) (file : VfsFile) (k j : Nat) :
    (v.setHandle file (.created k)).files[j]? =
      v.files[j]?.map fun f => if k = j then { f with handle := file } else f := by
  rw [Session.setHandle]
  exact List.getElem?_modify _ _ _ _

theorem recordWrite_files (v : Session) (data : Str) (k j : Nat) :
    (v.recordWrite data (.created k)).files[j]? =
      v.files[j]?.map fun f => if k = j then { f with written := f.written ++ [data] } else f := by
  rw [Session.recordWrite]
  exact List.getElem?_modify _ _ _ _

/-! Ownership along a session. -/

/-- The calls that keep the root intact: an appended record leaves six spare bytes in the parent's
block, and no unlink names one of the dots. -/
def SessionOp.Contained (v : Session) : SessionOp → Prop
  | .create cwd path => ∀ dirInode filename b,
      createParent (allocInode v.volume.fs).2.mem cwd (skipSlash path.chars) =
        some (some (dirInode, filename)) →
      directoryBlock (allocInode v.volume.fs).2.mem dirInode = some b →
      AppendRoom (allocInode v.volume.fs).2.mem b filename
  | .mkdir path => ∀ m b basename,
      mkdirTarget v.volume.fs path.chars = some (some (m, b, basename)) → AppendRoom m b basename
  | .unlink path => skipSlash path.chars ≠ ascii "." ∧ skipSlash path.chars ≠ ascii ".."
  | _ => True

structure SessionInv (v : Session) : Prop where
  owned : ∃ es, Owned es v.volume.fs
  created : ∀ f ∈ v.files, 2 ≤ f.handle.privateData ∧ f.handle.privateData < 512
  opened : ∀ f ∈ v.opened, f.privateData = 0

section Parents

theorem walkTokens_addr {m : Memory} :
    ∀ {ts : List Str} {start : Option Nat} {p : Nat}, (∀ q, start = some q → ∃ n < 512,
      q = inodeAddr n) → walkTokens m ts start = some (some p) → ∃ n < 512, p = inodeAddr n := by
  intro ts
  induction ts with
  | nil =>
      intro start p hstart h
      rw [walkTokens, Option.some.injEq] at h
      exact hstart p h
  | cons t ts ih =>
      intro start p hstart h
      cases start with
      | none => cases h
      | some q =>
          rw [walkTokens] at h
          split_ifs at h with hzero
          · cases h
          · split at h
            · cases h
            · split at h
              · cases h
              · cases h
              · refine ih ?_ h
                intro r hr
                obtain ⟨hlt, heq⟩ := getInode_eq_some.mp hr
                exact ⟨_, hlt, heq⟩

theorem getInodeByPath_addr {m : Memory} {path : Str} {p : Nat}
    (h : getInodeByPath m path = some (some p)) : ∃ n < 512, p = inodeAddr n := by
  rw [getInodeByPath] at h
  split_ifs at h with hnil
  · cases h
    exact ⟨1, by omega, rfl⟩
  · refine walkTokens_addr ?_ h
    rintro q ⟨⟩
    exact ⟨1, by omega, rfl⟩

theorem createParent_addr {m : Memory} {cwd : Option Str} {name filename : Str} {p : Nat}
    (h : createParent m cwd name = some (some (p, filename))) :
    (∃ n < 512, p = inodeAddr n) ∧ (0 ∉ name → 0 ∉ filename) := by
  unfold createParent at h
  split at h
  · rename_i d base hsplit
    have hcut := (eq_of_splitLast slash hsplit).1
    have hnul : 0 ∉ name → 0 ∉ base := fun hname hz => hname (List.mem_of_mem_take (hcut ▸
      List.mem_append_right _ (List.mem_cons_of_mem _ hz)))
    split_ifs at h with hd
    · cases h
      exact ⟨⟨1, by omega, rfl⟩, hnul⟩
    · simp only [Option.map_eq_some_iff, Prod.mk.injEq] at h
      obtain ⟨_, hp, _, rfl, rfl, rfl⟩ := h
      exact ⟨getInodeByPath_addr hp, hnul⟩
  · split at h
    · cases h
    · split_ifs at h
      · cases h
        exact ⟨⟨1, by omega, rfl⟩, id⟩
      · simp only [Option.map_eq_some_iff, Prod.mk.injEq] at h
        obtain ⟨_, hp, _, rfl, rfl, rfl⟩ := h
        exact ⟨getInodeByPath_addr hp, id⟩

theorem mkdirParent_addr {m : Memory} {path basename : Str} {p num : Nat}
    (h : mkdirParent m path = some (some (p, num, basename))) :
    (∃ n < 512, p = inodeAddr n) ∧ (0 ∉ path → 0 ∉ basename) := by
  unfold mkdirParent at h
  split_ifs at h with hlen
  split at h
  · cases h
  · rename_i d base hsplit
    have hcut := (eq_of_splitLast slash hsplit).1
    have hnul : 0 ∉ path → 0 ∉ base := fun hpath hz => hpath (hcut ▸
      List.mem_append_right _ (List.mem_cons_of_mem _ hz))
    split_ifs at h with hempty hroot
    · cases h
    · cases h
      exact ⟨⟨1, by omega, rfl⟩, hnul⟩
    · simp only [Option.map_eq_some_iff, Prod.mk.injEq] at h
      obtain ⟨_, hp, _, rfl, rfl, rfl, rfl⟩ := h
      exact ⟨getInodeByPath_addr hp, hnul⟩

end Parents

/-! One call. -/

section Calls

variable {es : List DirEntry} {s : Abyssfs}

/-- Appending the record of a prepared inode, for either creating call. -/
theorem Owned.append_prepared (h : Owned es s) {p b i : Nat} {name : Str}
    (hp : ∃ n < 512, p = inodeAddr n) (hdir : directoryBlock s.mem p = some b)
    (hroom : AppendRoom s.mem b name) (hi2 : 2 ≤ i) (hi : i < 512)
    (hmode : mode s.mem (inodeAddr i) ≠ 0) (hnew : ∀ r ∈ es, r.inode ≠ i) (hnul : 0 ∉ name)
    {e : Nat} {m' : Memory} (happend : appendEntry s.mem b i name = some (e, m')) :
    ∃ es', Owned es' { s with mem := m' } := by
  obtain ⟨n, hn, rfl⟩ := hp
  exact h.append hn hdir happend hroom hi2 hi hmode hnew hnul

/-- `abyssfs_create` keeps the owners, and a handle it returns is on an inode of its own. -/
theorem Owned.create (h : Owned es s) {heapPos heapPos' : Nat} {cwd : Option Str} {path : Str}
    {file : Option VfsFile} {s' : Abyssfs} (hnul : 0 ∉ path)
    (hroom : ∀ dirInode filename b,
      createParent (allocInode s).2.mem cwd (skipSlash path) = some (some (dirInode, filename)) →
      directoryBlock (allocInode s).2.mem dirInode = some b →
      AppendRoom (allocInode s).2.mem b filename)
    (hcall : abyssfsCreate heapPos s cwd path = some (file, heapPos', s')) :
    (∃ es', Owned es' s') ∧ ∀ f, file = some f → 2 ≤ f.privateData ∧ f.privateData < 512 := by
  rcases abyssfsCreate_cases hcall with ⟨rfl, rfl, _⟩ | ⟨i, hi1, hi, hfree, halloc, hrest⟩
  · exact ⟨⟨es, h⟩, by simp⟩
  obtain ⟨hi2, hnew, hfresh⟩ := h.alloc hi1 hi hfree
  rw [halloc] at hroom
  rcases hrest with ⟨rfl, rfl⟩ | ⟨p, filename, b, e, m', hparent, hdir, happend, rfl, hfile⟩
  · exact ⟨⟨es, hfresh⟩, by simp⟩
  obtain ⟨hp, hname⟩ := createParent_addr hparent
  refine ⟨hfresh.append_prepared hp hdir (hroom p filename b hparent hdir) hi2 hi
    (by rw [freshInode_mode]; decide) hnew (hname (skipSlash_nul_free hnul)) happend, ?_⟩
  rintro f rfl
  rcases hfile with hfile | hfile
  · cases hfile
  · cases hfile
    exact ⟨hi2, hi⟩

/-- `abyssfs_mkdir` keeps the owners. -/
theorem Owned.mkdir (h : Owned es s) {path : Str} {result : Int} {s' : Abyssfs} (hnul : 0 ∉ path)
    (hroom : ∀ m b basename, mkdirTarget s path = some (some (m, b, basename)) →
      AppendRoom m b basename)
    (hcall : abyssfsMkdir s path = some (result, s')) : ∃ es', Owned es' s' := by
  rcases abyssfsMkdir_cases hcall with ⟨_, _, rfl⟩ | ⟨p, num, basename, hparent, hrest⟩
  · exact ⟨es, h⟩
  obtain ⟨hp, hname⟩ := mkdirParent_addr hparent
  rcases hrest with ⟨_, _, rfl⟩ | ⟨i, hi1, hi, hfree, _, hrest⟩
  · exact ⟨es, h⟩
  obtain ⟨hi2, hnew, hfresh⟩ := h.alloc hi1 hi hfree
  rcases hrest with ⟨_, rfl⟩ | ⟨b, hb9, hb64, hbfree, _, hrest⟩
  · exact ⟨es, hfresh⟩
  have hprep := h.prepare num hi1 hi hfree hb9 hb64 hbfree
  rcases hrest with ⟨_, _, rfl⟩ | ⟨pb, e, m', hdir, htarget, happend, _, rfl⟩
  · exact ⟨es, hprep⟩
  · exact hprep.append_prepared hp hdir (hroom _ _ _ htarget) hi2 hi
      (by rw [preparedDir_mode _ _ hb9 hi]; decide) hnew (hname hnul) happend

end Calls

theorem abyssfsRead_privateData {s : Abyssfs} {file file' : VfsFile} {count : Nat}
    {bytes : Option Str} (h : abyssfsRead s file count = some (bytes, file')) :
    file'.privateData = file.privateData := by
  rw [abyssfsRead] at h
  split at h
  · cases h
    rfl
  · dsimp only at h
    split_ifs at h <;> cases h <;> rfl

section Step

variable {v v' : Session} {op : SessionOp} {reply : Int × Str}

theorem SessionInv.handle (h : SessionInv v) {ref : FileRef} {file : VfsFile}
    (hfile : v.handle ref = some file) : file.privateData < 512 ∧ file.privateData ≠ 1 := by
  cases ref with
  | created k =>
      simp only [Session.handle, Option.map_eq_some_iff] at hfile
      obtain ⟨f, hf, rfl⟩ := hfile
      have hrange := h.created f (List.mem_of_getElem? hf)
      omega
  | opened k =>
      have hzero := h.opened file (List.mem_of_getElem? hfile)
      omega

/-- Moving a handle's position keeps the invariant. -/
theorem SessionInv.setHandle (h : SessionInv v) {ref : FileRef} {file file' : VfsFile}
    (hfile : v.handle ref = some file) (hsame : file'.privateData = file.privateData) :
    SessionInv (v.setHandle file' ref) := by
  cases ref with
  | created k =>
      simp only [Session.handle, Option.map_eq_some_iff] at hfile
      obtain ⟨f, hf, rfl⟩ := hfile
      refine ⟨h.owned, ?_, h.opened⟩
      intro g hg
      obtain ⟨j, hj⟩ := List.mem_iff_getElem?.mp hg
      rw [setHandle_files, Option.map_eq_some_iff] at hj
      obtain ⟨f', hf', rfl⟩ := hj
      split_ifs with hkj
      · change 2 ≤ file'.privateData ∧ file'.privateData < 512
        rw [hsame]
        exact h.created f (List.mem_of_getElem? hf)
      · exact h.created f' (List.mem_of_getElem? hf')
  | opened k =>
      refine ⟨h.owned, h.created, ?_⟩
      intro g hg
      rcases List.mem_or_eq_of_mem_set hg with hg | rfl
      · exact h.opened g hg
      · rw [hsame]
        exact h.opened file (List.mem_of_getElem? hfile)

theorem SessionInv.recordWrite (h : SessionInv v) (data : Str) (ref : FileRef) :
    SessionInv (v.recordWrite data ref) := by
  cases ref with
  | created k =>
      refine ⟨h.owned, ?_, h.opened⟩
      intro g hg
      obtain ⟨j, hj⟩ := List.mem_iff_getElem?.mp hg
      rw [recordWrite_files, Option.map_eq_some_iff] at hj
      obtain ⟨f, hf, rfl⟩ := hj
      have hf := h.created f (List.mem_of_getElem? hf)
      split_ifs <;> exact hf
  | opened k => exact h

theorem SessionInv.step (h : SessionInv v) (ha : op.Contained v)
    (htaken : sessionStep v op = some (reply, v')) : SessionInv v' := by
  obtain ⟨es, howned⟩ := h.owned
  cases op with
  | create cwd path =>
      simp only [sessionStep, Option.map_eq_some_iff] at htaken
      obtain ⟨⟨file, heapPos, fs⟩, hcall, htaken⟩ := htaken
      obtain ⟨hfs, hfile⟩ := howned.create path.nul_free ha hcall
      cases file with
      | none =>
          cases htaken
          exact ⟨hfs, h.created, h.opened⟩
      | some file =>
          cases htaken
          refine ⟨hfs, ?_, h.opened⟩
          intro f hf
          rcases List.mem_append.mp hf with hf | hf
          · exact h.created f hf
          · obtain rfl := List.mem_singleton.mp hf
            exact hfile file rfl
  | mkdir path =>
      simp only [sessionStep, Option.map_eq_some_iff] at htaken
      obtain ⟨⟨result, fs⟩, hcall, htaken⟩ := htaken
      cases htaken
      exact ⟨howned.mkdir path.nul_free ha hcall, h.created, h.opened⟩
  | openPath path =>
      simp only [sessionStep, abyssfsOpen] at htaken
      cases hkalloc : kalloc v.volume.heapPos vfsFileSize with
      | mk found heapPos =>
          cases found with
          | none =>
              simp only [hkalloc, Option.some.injEq, Prod.mk.injEq] at htaken
              obtain ⟨_, rfl⟩ := htaken
              exact ⟨h.owned, h.created, h.opened⟩
          | some _ =>
              simp only [hkalloc, Option.some.injEq, Prod.mk.injEq] at htaken
              obtain ⟨_, rfl⟩ := htaken
              refine ⟨h.owned, h.created, ?_⟩
              intro f hf
              rcases List.mem_append.mp hf with hf | hf
              · exact h.opened f hf
              · rw [List.mem_singleton.mp hf]
  | unlink path =>
      simp only [sessionStep, Option.map_eq_some_iff] at htaken
      obtain ⟨⟨result, fs⟩, hcall, htaken⟩ := htaken
      cases htaken
      refine ⟨?_, ?_, h.opened⟩
      · rcases howned.unlink path.nul_free ha.1 ha.2 with ⟨_, hnone⟩ |
          ⟨pre, r, post, s', _, _, _, hsome, _, hafter, _⟩
        · rw [hnone.1] at hcall
          cases hcall
          exact ⟨es, howned⟩
        · rw [hsome] at hcall
          cases hcall
          exact ⟨pre ++ post, hafter⟩
      · intro f hf
        obtain ⟨g, hg, rfl⟩ := List.mem_map.mp hf
        have hg := h.created g hg
        rw [CreatedFile.unlinked]
        split_ifs <;> exact hg
  | read ref count =>
      simp only [sessionStep, Option.bind_eq_some_iff, Option.map_eq_some_iff] at htaken
      obtain ⟨file, hfile, ⟨bytes, file'⟩, hread, htaken⟩ := htaken
      cases htaken
      exact h.setHandle hfile (abyssfsRead_privateData hread)
  | write ref data =>
      simp only [sessionStep, Option.map_eq_some_iff] at htaken
      obtain ⟨file, hfile, htaken⟩ := htaken
      cases htaken
      obtain ⟨hlt, hne⟩ := h.handle hfile
      apply SessionInv.recordWrite
      exact ⟨⟨es, howned.write data rfl hlt hne⟩, h.created, h.opened⟩

end Step

/-- What ownership promises of the inode table and the bitmap. -/
structure BlockOwnership (s : Abyssfs) : Prop where
  root : (mode s.mem rootInode).testBit 14 = true
  marked : ∀ n < 512, mode s.mem (inodeAddr n) ≠ 0 → blocks s.mem (inodeAddr n) ≠ 0 →
    s.used (blocks s.mem (inodeAddr n)) = true
  unshared : ∀ n < 512, ∀ k < 512, n ≠ k → mode s.mem (inodeAddr n) ≠ 0 →
    mode s.mem (inodeAddr k) ≠ 0 → blocks s.mem (inodeAddr n) ≠ 0 →
    blocks s.mem (inodeAddr n) ≠ blocks s.mem (inodeAddr k)

theorem Owned.blockOwnership {es : List DirEntry} {s : Abyssfs} (h : Owned es s) :
    BlockOwnership s where
  root := by
    rw [h.rootMode]
    decide
  marked := h.marked
  unshared n hn k hk hne hmode hmode' hblock heq := hne (h.distinct n hn k hk hmode hmode' heq hblock)

/-- Block ownership holds in every state a session of contained calls reaches. -/
theorem block_ownership_of_contained (s : Abyssfs)
    (trace : List (SessionOp × (Int × Str))) (v : Session)
    (h : Steps sessionStep SessionOp.Contained (bootSession s) trace v) :
    BlockOwnership v.volume.fs := by
  have hinv : SessionInv v := by
    refine h.preserves ⟨⟨[], boot_owned s⟩, by simp [bootSession], by simp [bootSession]⟩ ?_
    intro t op reply u ht ha htaken
    exact ht.step ha htaken
  obtain ⟨es, howned⟩ := hinv.owned
  exact howned.blockOwnership

/-- Room for a record, from the values its checks evaluate to. -/
theorem SessionOp.contained_create {v : Session} {cwd : Option Str} {path : CString} (p b e : Nat)
    (filename : Str)
    (hparent : createParent (allocInode v.volume.fs).2.mem cwd (skipSlash path.chars) =
      some (some (p, filename)))
    (hdir : directoryBlock (allocInode v.volume.fs).2.mem p = some b)
    (hend : appendPosition (allocInode v.volume.fs).2.mem b = some e)
    (hroom : filename.length ≤ 245 ∧
      e + (minRecLen filename.length).toNat + 6 ≤ b * 4096 + 4096) :
    (SessionOp.create cwd path).Contained v := by
  intro p' filename' b' hparent' hdir'
  rw [hparent] at hparent'
  cases hparent'
  rw [hdir] at hdir'
  cases hdir'
  refine ⟨hroom.1, ?_⟩
  intro e' hend'
  rw [hend] at hend'
  cases hend'
  exact hroom.2

/-- A file is created, written and unlinked again. -/
theorem block_ownership_create_write_unlink :
    ∃ trace v, Steps sessionStep SessionOp.Contained (bootSession blankFs) trace v ∧
      trace.map Prod.snd = [(0, []), (2, []), (0, [])] ∧ BlockOwnership v.volume.fs := by
  let create : SessionOp := .create (some (ascii "/")) ⟨ascii "/a", by decide⟩
  let write : SessionOp := .write (.created 0) (ascii "hi")
  let unlink : SessionOp := .unlink ⟨ascii "/a", by decide⟩
  have hcreate : Steps sessionStep SessionOp.Contained (bootSession blankFs)
      ([] ++ [(create, (0, []))]) (next sessionStep (bootSession blankFs) create) := by
    apply Steps.nil.extend
    · exact SessionOp.contained_create 4160 9 36884 (ascii "a") (by decide +kernel)
        (by decide +kernel) (by decide +kernel) (by decide +kernel)
    · decide +kernel
  have hwrite := hcreate.extend write (2, []) trivial (by decide +kernel)
  have hunlink := hwrite.extend unlink (0, []) ⟨by decide, by decide⟩
    (by decide +kernel)
  exact ⟨_, _, hunlink, rfl, block_ownership_of_contained blankFs _ _ hunlink⟩

/-- Unlinking "/." clears the root inode. -/
theorem unlink_dot_frees_root :
    ∃ trace v, Steps sessionStep (fun _ _ => True) (bootSession blankFs) trace v ∧
      ¬BlockOwnership v.volume.fs := by
  let unlink : SessionOp := .unlink ⟨ascii "/.", by decide⟩
  have hunlink : Steps sessionStep (fun _ _ => True) (bootSession blankFs)
      ([] ++ [(unlink, (0, []))]) (next sessionStep (bootSession blankFs) unlink) :=
    Steps.nil.extend unlink (0, []) trivial (by decide +kernel)
  refine ⟨_, _, hunlink, ?_⟩
  intro h
  have hroot : (mode (next sessionStep (bootSession blankFs) unlink).volume.fs.mem
      rootInode).testBit 14 = false := by decide +kernel
  exact Bool.false_ne_true (hroot.symm.trans h.root)

end Chthon
