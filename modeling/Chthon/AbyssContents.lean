import Chthon.AbyssSession

/-! What a file holds. In a session that uses a handle only while its file is linked, writes a file
once and creates entries in the root only, the bytes a handle reads are those written through it. -/

namespace Chthon

open ByteMemory PathText Run

/-- Inode `n` is in use and holds `data` in a block of its own. -/
structure FileHolds (s : Abyssfs) (n : Nat) (data : Str) : Prop where
  inUse : mode s.mem (inodeAddr n) ≠ 0
  size_eq : size s.mem (inodeAddr n) = data.length
  short : data.length ≤ 4096
  block : data ≠ [] → blocks s.mem (inodeAddr n) ≠ 0
  bytes : load s.mem (blocks s.mem (inodeAddr n) * 4096) data.length = data

section Holds

variable {s s' : Abyssfs} {n : Nat} {data : Str}

theorem FileHolds.frame (h : FileHolds s n data) (hsame : SameInode s.mem s'.mem n)
    (hm : ∀ k < data.length, s'.mem (blocks s.mem (inodeAddr n) * 4096 + k) =
      s.mem (blocks s.mem (inodeAddr n) * 4096 + k)) : FileHolds s' n data where
  inUse := by
    rw [hsame.mode]
    exact h.inUse
  size_eq := hsame.size.trans h.size_eq
  short := h.short
  block := by
    rw [hsame.blocks]
    exact h.block
  bytes := by
    rw [hsame.blocks, load_congr hm]
    exact h.bytes

/-- A read returns the part of the data that the position and the count select. -/
theorem FileHolds.read (h : FileHolds s n data) (hn : n < 512)
    (hrange : blocks s.mem (inodeAddr n) < 64) (file : VfsFile) (hfile : file.privateData = n)
    {count : Nat} (hcount : file.fPos + count < 2 ^ 64) :
    (abyssfsRead s file count).map Prod.fst = some (some ((data.drop file.fPos).take count)) := by
  have hmod : file.privateData % 2 ^ 32 = n := by
    rw [hfile]
    omega
  have haddr : blocks s.mem (inodeAddr n) * 4096 % 2 ^ 32 = blocks s.mem (inodeAddr n) * 4096 :=
    Nat.mod_eq_of_lt (by omega)
  rw [abyssfsRead, hmod, getInode_of_lt hn]
  simp only [h.size_eq, blockSize_eq, haddr, Nat.mod_eq_of_lt hcount]
  have hslice : ∀ c, file.fPos + c ≤ data.length →
      load s.mem (blocks s.mem (inodeAddr n) * 4096 + file.fPos) c =
        (data.drop file.fPos).take c := by
    intro c hc
    rw [load_drop_take _ _ data.length _ _ hc, h.bytes]
  by_cases hpos : file.fPos ≥ data.length
  · rw [if_pos hpos, List.drop_of_length_le hpos, List.take_nil]
    rfl
  · rw [if_neg hpos]
    by_cases hover : file.fPos + count > data.length
    · simp only [if_pos hover]
      rw [if_neg (by omega), hslice _ (by omega), List.take_of_length_le (by simp),
        List.take_of_length_le (by simp; omega)]
      rfl
    · simp only [if_neg hover]
      rw [hslice _ (by omega)]
      rfl

end Holds

/-! The invariant. -/

/-- The calls that keep files apart. A handle is used only while its file is linked, a file that
holds something is not written again, and a record is only ever appended to the root. -/
def SessionOp.Isolated (v : Session) : SessionOp → Prop
  | .create cwd path => (SessionOp.create cwd path).Contained v ∧ ∀ dirInode filename b,
      createParent (allocInode v.volume.fs).2.mem cwd (skipSlash path.chars) =
        some (some (dirInode, filename)) →
      directoryBlock (allocInode v.volume.fs).2.mem dirInode = some b → dirInode = rootInode
  | .mkdir _ => False
  | .openPath _ => True
  | .unlink path => (SessionOp.unlink path).Contained v
  | .read ref _ => ∃ k f, ref = .created k ∧ v.files[k]? = some f ∧ f.alive = true
  | .write ref data => ∃ k f, ref = .created k ∧ v.files[k]? = some f ∧ f.alive = true ∧
      (data = [] ∨ size v.volume.fs.mem (inodeAddr f.handle.privateData) = 0)

/-- What has been written to a file. -/
def CreatedFile.contents (f : CreatedFile) : Str := f.written.flatten

structure ContentsInv (v : Session) : Prop where
  session : SessionInv v
  holds : ∀ f ∈ v.files, f.alive = true →
    FileHolds v.volume.fs f.handle.privateData f.contents
  apart : ∀ (j k : Nat) (f g : CreatedFile), v.files[j]? = some f → v.files[k]? = some g → f.alive = true →
    g.alive = true → f.handle.privateData = g.handle.privateData → j = k

theorem SessionOp.Isolated.contained {v : Session} {op : SessionOp} (h : op.Isolated v) :
    op.Contained v := by
  cases op with
  | create cwd path => exact h.1
  | mkdir path => exact h.elim
  | openPath path => trivial
  | unlink path => exact h
  | read ref count => trivial
  | write ref data => trivial

section Keep

variable {v : Session} {es : List DirEntry} {s s' : Abyssfs}

/-- Bytes below block 10 that are not in its own inode do not concern a file. -/
theorem FileHolds.frame_data {n : Nat} {data : Str} (h : FileHolds s n data) (howned : Owned es s)
    (hn : n < 512) (hne : n ≠ 1) (hsame : SameInode s.mem s'.mem n)
    (hm : ∀ x, 40960 ≤ x → s'.mem x = s.mem x) : FileHolds s' n data := by
  apply h.frame hsame
  intro k hk
  have hdata : data ≠ [] := List.ne_nil_of_length_pos (by omega)
  have hrange := (howned.range n hn hne).resolve_left (h.block hdata)
  exact hm _ (by omega)

/-- Creating in the root leaves every file in use as it was; a new handle is on an empty file. -/
theorem Owned.create_contents (howned : Owned es s) {heapPos heapPos' : Nat} {cwd : Option Str}
    {path : CString} {file : Option VfsFile}
    (hcall : abyssfsCreate heapPos s cwd path.chars = some (file, heapPos', s'))
    (hroom : ∀ dirInode filename b,
      createParent (allocInode s).2.mem cwd (skipSlash path.chars) =
        some (some (dirInode, filename)) →
      directoryBlock (allocInode s).2.mem dirInode = some b →
      AppendRoom (allocInode s).2.mem b filename ∧ dirInode = rootInode) :
    (∀ n data, n < 512 → n ≠ 1 → FileHolds s n data → FileHolds s' n data) ∧
      ∀ f, file = some f → mode s.mem (inodeAddr f.privateData) = 0 ∧
        FileHolds s' f.privateData [] := by
  rcases abyssfsCreate_cases hcall with ⟨rfl, rfl, _⟩ | ⟨i, hi1, hi, hfree, halloc, hrest⟩
  · exact ⟨fun _ _ _ _ h => h, by simp⟩
  obtain ⟨hi2, _, hfresh⟩ := howned.alloc hi1 hi hfree
  have hother : ∀ n data, n < 512 → n ≠ 1 → FileHolds s n data →
      FileHolds { s with mem := freshInode s.mem i } n data := by
    intro n data hn hne h
    refine h.frame_data howned hn hne (freshInode_other s.mem ?_) ?_
    · rintro rfl
      exact h.inUse hfree
    · intro x hx
      exact freshInode_outside s.mem (by rw [inodeAddr_eq]; omega)
  rcases hrest with ⟨rfl, rfl⟩ | ⟨p, filename, b, e, m', hparent, hdir, happend, rfl, hfile⟩
  · exact ⟨hother, by simp⟩
  rw [halloc] at hroom
  obtain ⟨hspare, rfl⟩ := hroom p filename b hparent hdir
  obtain rfl : b = 9 := by
    have hblock : blocks (freshInode s.mem i) rootInode = 9 := hfresh.rootBlock
    simp only [directoryBlock, hblock] at hdir
    simpa using hdir.symm
  have honly := hspare.onlyBlock happend
  have hsame : ∀ n < 512, SameInode (freshInode s.mem i) m' n := fun n hn =>
    SameInode.of_data hn fun x hx => honly x (Or.inl (by omega))
  refine ⟨?_, ?_⟩
  · intro n data hn hne h
    exact (hother n data hn hne h).frame_data hfresh hn hne (hsame n hn) fun x hx =>
      honly x (Or.inr (by omega))
  · rintro f rfl
    rcases hfile with hfile | hfile
    · cases hfile
    · cases hfile
      refine ⟨hfree, ?_, ?_, by simp, by simp, by simp [load]⟩
      · rw [(hsame i hi).mode, freshInode_mode]
        decide
      · rw [(hsame i hi).size, freshInode_size]
        rfl

/-- The file a write goes to holds what was written, if it held nothing before. -/
theorem writtenFile_holds {m : Memory} {n c : Nat} {data : Str} (bitmap : BitVec 64) (free : Nat)
    (hn : n < 512) (hc : 9 ≤ c) (hmode : mode m (inodeAddr n) ≠ 0)
    (hsize : size m (inodeAddr n) = 0) (hblock : blocks m (inodeAddr n) = c)
    (hlen : data.length ≤ 4096) : FileHolds ⟨writtenFile m n c data, bitmap, free⟩ n data where
  inUse := by
    rw [writtenFile_mode m hc hn]
    exact hmode
  size_eq := by
    have hstored : size (store m (c * 4096) data) (inodeAddr n) = size m (inodeAddr n) :=
      read32_congr fun k hk => store_outside _ _ (by rw [inodeAddr_eq]; omega)
    simp only [writtenFile, hstored, hsize]
    split_ifs with hpos
    · rw [size, read32_write32]
      omega
    · rw [hstored, hsize]
      omega
  short := hlen
  block := by
    rw [writtenFile_blocks m hc hn, hblock]
    omega
  bytes := by
    rw [writtenFile_blocks m hc hn, hblock]
    have hbytes : load (writtenFile m n c data) (c * 4096) data.length =
        load (store m (c * 4096) data) (c * 4096) data.length := by
      apply load_congr
      intro k hk
      simp only [writtenFile]
      split_ifs
      · exact write32_outside _ _ (by rw [inodeAddr_eq]; omega)
      · rfl
    rw [hbytes, load_store]

/-- A write through a linked handle leaves its file holding what it accepted, and every other
file in use as it was. -/
theorem Owned.write_contents (howned : Owned es s) (file : VfsFile) {n : Nat} {held data : Str}
    (hfile : file.privateData = n) (hn : n < 512) (hne : n ≠ 1) (hheld : FileHolds s n held)
    (hwrite : data = [] ∨ size s.mem (inodeAddr n) = 0) :
    FileHolds (abyssfsWrite s file data).2 n
        (held ++ data.take (abyssfsWrite s file data).1.toNat) ∧
      ∀ k other, k < 512 → k ≠ 1 → k ≠ n → FileHolds s k other →
        FileHolds (abyssfsWrite s file data).2 k other := by
  have hlen : (data.take 4096).length ≤ 4096 := by simp
  have htake : data.take (((data.take 4096).length : Int)).toNat = data.take 4096 := by
    rw [Int.toNat_natCast, List.length_take, List.take_eq_take_iff]
    omega
  -- a block the write goes to is no other file's
  have hother : ∀ {m' : Memory} {bitmap : BitVec 64} {free c : Nat}, 9 ≤ c →
      (∀ k, k < 512 → k ≠ n → SameInode s.mem m' k) →
      (∀ x, 40960 ≤ x → (x < c * 4096 ∨ c * 4096 + 4096 ≤ x) → m' x = s.mem x) →
      (∀ k, k < 512 → k ≠ n → mode s.mem (inodeAddr k) ≠ 0 → blocks s.mem (inodeAddr k) ≠ c) →
      ∀ k other, k < 512 → k ≠ 1 → k ≠ n → FileHolds s k other →
        FileHolds ⟨m', bitmap, free⟩ k other := by
    intro m' bitmap free c hc hsame hm hblock k other hk hk1 hkn h
    apply h.frame (hsame k hk hkn)
    intro j hj
    have hrange := (howned.range k hk hk1).resolve_left
      (h.block (List.ne_nil_of_length_pos (by omega)))
    have hck := hblock k hk hkn h.inUse
    have hshort := h.short
    exact hm _ (by omega) (by omega)
  rcases abyssfsWrite_cases s file data hfile hn (howned.blocks_lt hn) with ⟨_, _, hcall⟩ |
    ⟨b, hzero, hb9, hb64, hfree, hcall⟩ | ⟨hblock, hcall⟩
  · rw [hcall]
    exact ⟨by simpa using hheld, fun _ _ _ _ _ h => h⟩
  · rw [hcall]
    obtain rfl : held = [] := by
      by_contra hne
      exact hheld.block hne hzero
    have hmode : mode (write32 s.mem (inodeAddr n + 8) b) (inodeAddr n) ≠ 0 := by
      rw [mode, read32_write32_of_disjoint _ _ (by omega)]
      exact hheld.inUse
    have hsize : size (write32 s.mem (inodeAddr n + 8) b) (inodeAddr n) = 0 := by
      rw [size, read32_write32_of_disjoint _ _ (by omega)]
      exact hheld.size_eq
    have hblocks : blocks (write32 s.mem (inodeAddr n + 8) b) (inodeAddr n) = b := by
      rw [blocks, read32_write32]
      omega
    refine ⟨?_, hother hb9 ?_ ?_ ?_⟩
    · rw [htake, List.nil_append]
      exact writtenFile_holds _ _ hn hb9 hmode hsize hblocks hlen
    · intro k hk hkn
      exact (SameInode.write32 s.mem 8 b (by omega) hkn).trans (writtenFile_other _ hb9 hk hkn)
    · intro x hx hxb
      rw [writtenFile_outside _ (by rw [inodeAddr_eq]; omega) (by omega),
        write32_outside _ _ (by rw [inodeAddr_eq]; omega)]
    · intro k hk _ hkmode
      exact howned.block_ne hk hkmode hfree (by omega)
  · have hrange := (howned.range n hn hne).resolve_left hblock
    rw [hcall]
    refine ⟨?_, hother (c := blocks s.mem (inodeAddr n)) (by omega) ?_ ?_ ?_⟩
    · rw [htake]
      rcases hwrite with rfl | hsize
      · simpa [writtenFile] using hheld
      · obtain rfl : held = [] := List.eq_nil_of_length_eq_zero (hheld.size_eq.symm.trans hsize)
        exact writtenFile_holds _ _ hn (by omega) hheld.inUse hsize rfl hlen
    · intro k hk hkn
      exact writtenFile_other _ (by omega) hk hkn
    · intro x hx hxb
      exact writtenFile_outside _ (by rw [inodeAddr_eq]; omega) (by omega)
    · intro k hk hkn hkmode heq
      exact hkn (howned.distinct k hk n hn hkmode hheld.inUse heq (heq ▸ hblock))

end Keep

section Step

variable {v v' : Session} {op : SessionOp} {reply : Int × Str}

/-- Unlinking spares the files that stay linked. -/
theorem Owned.unlink_contents {es : List DirEntry} {s s' : Abyssfs} (howned : Owned es s)
    {path : CString} {result : Int} (hdot : skipSlash path.chars ≠ ascii ".")
    (hdotdot : skipSlash path.chars ≠ ascii "..")
    (hcall : abyssfsUnlink s path.chars = some (result, s')) {n : Nat} {data : Str} (hn : n < 512)
    (hne : n ≠ 1) (hkept : unlinkTarget s.mem path.chars ≠ some n) (h : FileHolds s n data) :
    FileHolds s' n data := by
  rcases howned.unlink path.nul_free hdot hdotdot with ⟨_, hnone, _⟩ |
    ⟨pre, r, post, s'', rfl, _, _, hsome, htarget, _, _, honly⟩
  · rw [hnone] at hcall
    cases hcall
    exact h
  · rw [hsome] at hcall
    cases hcall
    have hr := (howned.entries.inUse r (by simp)).2.1
    have hnr : n ≠ r.inode := by
      rintro rfl
      exact hkept htarget
    apply h.frame_data howned hn hne
    · exact (SameInode.write32 s.mem 0 0 (by omega) hnr).trans
        (SameInode.of_data hn fun x hx => honly x (Or.inl (by omega)))
    · intro x hx
      rw [honly x (Or.inr (by omega)), write32_outside _ _ (by rw [inodeAddr_eq]; omega)]

theorem ContentsInv.create (h : ContentsInv v) {cwd : Option Str} {path : CString}
    (ha : (SessionOp.create cwd path).Isolated v)
    (htaken : sessionStep v (.create cwd path) = some (reply, v')) : ContentsInv v' := by
  obtain ⟨es, howned⟩ := h.session.owned
  have hsession := h.session.step ha.contained htaken
  simp only [sessionStep, Option.map_eq_some_iff] at htaken
  obtain ⟨⟨file, heapPos, fs⟩, hcall, htaken⟩ := htaken
  obtain ⟨hkept, hnew⟩ := howned.create_contents hcall fun p filename b hparent hdir =>
    ⟨ha.1 p filename b hparent hdir, ha.2 p filename b hparent hdir⟩
  have hholds : ∀ f ∈ v.files, f.alive = true → FileHolds fs f.handle.privateData f.contents := by
    intro f hf halive
    have hrange := h.session.created f hf
    exact hkept _ _ hrange.2 (by omega) (h.holds f hf halive)
  cases file with
  | none =>
      cases htaken
      exact ⟨hsession, hholds, h.apart⟩
  | some file =>
      obtain ⟨hfree, hempty⟩ := hnew file rfl
      cases htaken
      have hfresh : ∀ f ∈ v.files, f.alive = true → f.handle.privateData ≠ file.privateData := by
        intro f hf halive heq
        exact (h.holds f hf halive).inUse (heq ▸ hfree)
      refine ⟨hsession, ?_, ?_⟩
      · intro f hf halive
        rcases List.mem_append.mp hf with hf | hf
        · exact hholds f hf halive
        · obtain rfl := List.mem_singleton.mp hf
          exact hempty
      · intro j k f g hj hk hf hg heq
        simp only at hj hk
        rcases Nat.lt_trichotomy j k with hjk | hjk | hjk
        · have hjlt : j < v.files.length := by
            have := (List.getElem?_eq_some_iff.mp hk).1
            simp at this
            omega
          rw [List.getElem?_append_left hjlt] at hj
          by_cases hklt : k < v.files.length
          · rw [List.getElem?_append_left hklt] at hk
            exact h.apart j k f g hj hk hf hg heq
          · rw [List.getElem?_append_right (by omega), List.getElem?_singleton] at hk
            split_ifs at hk
            cases hk
            exact absurd heq (hfresh f (List.mem_of_getElem? hj) hf)
        · exact hjk
        · have hklt : k < v.files.length := by
            have := (List.getElem?_eq_some_iff.mp hj).1
            simp at this
            omega
          rw [List.getElem?_append_left hklt] at hk
          by_cases hjlt : j < v.files.length
          · rw [List.getElem?_append_left hjlt] at hj
            exact h.apart j k f g hj hk hf hg heq
          · rw [List.getElem?_append_right (by omega), List.getElem?_singleton] at hj
            split_ifs at hj
            cases hj
            exact absurd heq.symm (hfresh g (List.mem_of_getElem? hk) hg)

theorem ContentsInv.unlink (h : ContentsInv v) {path : CString}
    (ha : (SessionOp.unlink path).Isolated v)
    (htaken : sessionStep v (.unlink path) = some (reply, v')) : ContentsInv v' := by
  obtain ⟨es, howned⟩ := h.session.owned
  have hsession := h.session.step ha.contained htaken
  simp only [sessionStep, Option.map_eq_some_iff] at htaken
  obtain ⟨⟨result, fs⟩, hcall, htaken⟩ := htaken
  cases htaken
  -- a file that is still linked is one that was linked, and is not the target
  have hstill : ∀ f : CreatedFile,
      (f.unlinked (unlinkTarget v.volume.fs.mem path.chars)).alive = true →
      f.alive = true ∧ unlinkTarget v.volume.fs.mem path.chars ≠ some f.handle.privateData ∧
        f.unlinked (unlinkTarget v.volume.fs.mem path.chars) = f := by
    intro f halive
    rw [CreatedFile.unlinked] at halive ⊢
    split_ifs at halive ⊢ with htarget
    exact ⟨halive, htarget, rfl⟩
  refine ⟨hsession, ?_, ?_⟩
  · intro f hf halive
    obtain ⟨g, hg, rfl⟩ := List.mem_map.mp hf
    obtain ⟨hgalive, htarget, heq⟩ := hstill g halive
    rw [heq]
    have hrange := h.session.created g hg
    exact howned.unlink_contents ha.1 ha.2 hcall hrange.2 (by omega) htarget
      (h.holds g hg hgalive)
  · intro j k f g hj hk hf hg heq
    simp only [List.getElem?_map, Option.map_eq_some_iff] at hj hk
    obtain ⟨f, hj, rfl⟩ := hj
    obtain ⟨g, hk, rfl⟩ := hk
    obtain ⟨hf, _, hfeq⟩ := hstill f hf
    obtain ⟨hg, _, hgeq⟩ := hstill g hg
    rw [hfeq, hgeq] at heq
    exact h.apart j k f g hj hk hf hg heq

theorem ContentsInv.read (h : ContentsInv v) {ref : FileRef} {count : Nat}
    (ha : (SessionOp.read ref count).Isolated v)
    (htaken : sessionStep v (.read ref count) = some (reply, v')) : ContentsInv v' := by
  have hsession := h.session.step ha.contained htaken
  obtain ⟨k, f, rfl, hf, halive⟩ := ha
  simp only [sessionStep, Option.bind_eq_some_iff, Option.map_eq_some_iff] at htaken
  obtain ⟨file, hfile, ⟨bytes, file'⟩, hread, htaken⟩ := htaken
  simp only [Session.handle, hf, Option.map_some, Option.some.injEq] at hfile
  subst hfile
  cases htaken
  have hsame := abyssfsRead_privateData hread
  -- a file of the new state differs from the old one at most in its position
  have hback : ∀ {j : Nat} {g : CreatedFile}, (v.setHandle file' (.created k)).files[j]? = some g →
      ∃ g' : CreatedFile, v.files[j]? = some g' ∧ g.alive = g'.alive ∧ g.contents = g'.contents ∧
        g.handle.privateData = g'.handle.privateData := by
    intro j g hg
    rw [setHandle_files, Option.map_eq_some_iff] at hg
    obtain ⟨g', hg', rfl⟩ := hg
    refine ⟨g', hg', ?_⟩
    split_ifs with hkj
    · subst hkj
      rw [hf] at hg'
      cases hg'
      exact ⟨rfl, rfl, hsame⟩
    · exact ⟨rfl, rfl, rfl⟩
  refine ⟨hsession, ?_, ?_⟩
  · intro g hg hgalive
    obtain ⟨j, hj⟩ := List.mem_iff_getElem?.mp hg
    obtain ⟨g', hg', halive', hcontents, hinode⟩ := hback hj
    rw [hinode, hcontents]
    exact h.holds g' (List.mem_of_getElem? hg') (halive' ▸ hgalive)
  · intro i j g₁ g₂ hi hj h₁ h₂ heq
    obtain ⟨g₁', hg₁, halive₁, _, hinode₁⟩ := hback hi
    obtain ⟨g₂', hg₂, halive₂, _, hinode₂⟩ := hback hj
    exact h.apart i j g₁' g₂' hg₁ hg₂ (halive₁ ▸ h₁) (halive₂ ▸ h₂)
      (hinode₁.symm.trans (heq.trans hinode₂))

theorem ContentsInv.write (h : ContentsInv v) {ref : FileRef} {data : Str}
    (ha : (SessionOp.write ref data).Isolated v)
    (htaken : sessionStep v (.write ref data) = some (reply, v')) : ContentsInv v' := by
  obtain ⟨es, howned⟩ := h.session.owned
  have hsession := h.session.step ha.contained htaken
  obtain ⟨k, f, rfl, hf, halive, hwrite⟩ := ha
  simp only [sessionStep, Option.map_eq_some_iff] at htaken
  obtain ⟨file, hfile, htaken⟩ := htaken
  simp only [Session.handle, hf, Option.map_some, Option.some.injEq] at hfile
  subst hfile
  cases htaken
  have hfmem := List.mem_of_getElem? hf
  have hrange := h.session.created f hfmem
  obtain ⟨hself, hothers⟩ := howned.write_contents f.handle rfl hrange.2 (by omega)
    (h.holds f hfmem halive) hwrite
  refine ⟨hsession, ?_, ?_⟩
  · intro g hg hgalive
    obtain ⟨j, hj⟩ := List.mem_iff_getElem?.mp hg
    rw [recordWrite_files, Option.map_eq_some_iff] at hj
    obtain ⟨g', hg', rfl⟩ := hj
    by_cases hkj : k = j
    · subst hkj
      rw [hf] at hg'
      cases hg'
      rw [if_pos rfl]
      simpa [CreatedFile.contents, Session.recordWrite] using hself
    · rw [if_neg hkj] at hgalive ⊢
      have hg'mem := List.mem_of_getElem? hg'
      have hg'range := h.session.created g' hg'mem
      refine hothers _ _ hg'range.2 (by omega) ?_ (h.holds g' hg'mem hgalive)
      intro heq
      exact hkj (h.apart k j f g' hf hg' halive hgalive heq.symm)
  · intro i j g₁ g₂ hi hj h₁ h₂ heq
    rw [recordWrite_files, Option.map_eq_some_iff] at hi hj
    obtain ⟨g₁', hg₁, rfl⟩ := hi
    obtain ⟨g₂', hg₂, rfl⟩ := hj
    apply h.apart i j g₁' g₂' hg₁ hg₂
    · split_ifs at h₁ <;> exact h₁
    · split_ifs at h₂ <;> exact h₂
    · split_ifs at heq <;> exact heq

theorem ContentsInv.step (h : ContentsInv v) (ha : op.Isolated v)
    (htaken : sessionStep v op = some (reply, v')) : ContentsInv v' := by
  cases op with
  | create cwd path => exact h.create ha htaken
  | mkdir path => exact ha.elim
  | openPath path =>
      have hsession := h.session.step ha.contained htaken
      have hsame : v'.files = v.files ∧ v'.volume.fs = v.volume.fs := by
        simp only [sessionStep] at htaken
        split at htaken <;> cases htaken <;> exact ⟨rfl, rfl⟩
      refine ⟨hsession, ?_, ?_⟩
      · rw [hsame.1, hsame.2]
        exact h.holds
      · rw [hsame.1]
        exact h.apart
  | unlink path => exact h.unlink ha htaken
  | read ref count => exact h.read ha htaken
  | write ref data => exact h.write ha htaken

end Step

/-- Every handle on a linked file reads what was written to that file, and nothing else. -/
def Session.OwnWritesOnly (v : Session) : Prop :=
  ∀ f ∈ v.files, f.alive = true → ∀ pos count, pos + count < 2 ^ 64 →
    (abyssfsRead v.volume.fs { f.handle with fPos := pos } count).map Prod.fst =
      some (some ((f.contents.drop pos).take count))

theorem abyss_own_writes_only (s : Abyssfs) {trace : List (SessionOp × (Int × Str))} {v : Session}
    (h : Steps sessionStep SessionOp.Isolated (bootSession s) trace v) : v.OwnWritesOnly := by
  have hinv : ContentsInv v := by
    refine h.preserves ⟨⟨⟨[], boot_owned s⟩, by simp [bootSession], by simp [bootSession]⟩, ?_, ?_⟩ ?_
    · simp [bootSession]
    · simp [bootSession]
    · intro t op reply u ht ha htaken
      exact ht.step ha htaken
  obtain ⟨es, howned⟩ := hinv.session.owned
  intro f hf halive pos count hcount
  have hrange := hinv.session.created f hf
  exact (hinv.holds f hf halive).read hrange.2 (howned.blocks_lt hrange.2)
    { f.handle with fPos := pos } rfl hcount

end Chthon
