import Chthon.AbyssRecords

/-! Directory edits on the block level. Appending to a block that lists `rs` makes it list
`rs ++ [r]`, closing the gap of a record makes it list the others, and a fresh block becomes the
directory of `.` and `..`; each leaves every byte outside the block alone. -/

namespace Chthon

open ByteMemory

/-- Block `b` is a directory whose records are `rs`. -/
def DirAt (m : Memory) (b : Nat) (rs : List DirEntry) : Prop :=
  Listing m (b * 4096 + 4096) (b * 4096) rs

/-- The two memories differ at most inside block `b`. -/
def OnlyBlock (m m' : Memory) (b : Nat) : Prop :=
  ∀ x, x < b * 4096 ∨ b * 4096 + 4096 ≤ x → m' x = m x

theorem RecordAt.relabel {m m' : Memory} {a : Nat} {r : DirEntry} {l : Nat} (l' : UInt8)
    (h : RecordAt m a r l) (hlen : m' (a + 5) = l')
    (hm : ∀ x, a ≤ x → x < a + r.name.length + 7 → x ≠ a + 5 → m' x = m x) :
    RecordAt m' a r l'.toNat where
  inode_eq := by
    rw [← h.inode_eq]
    exact read32_congr fun k hk => hm _ (by omega) (by omega) (by omega)
  len_eq := by rw [← h.len_eq, nameLen, hm _ (by omega) (by omega) (by omega)]; rfl
  rec_eq := by rw [recLen, hlen]
  name_eq k hk := by
    rw [← h.name_eq k hk]
    exact hm _ (by rw [entryName]; omega) (by rw [entryName]; omega) (by rw [entryName]; omega)
  nul_eq := by
    rw [← h.nul_eq]
    exact hm _ (by rw [entryName]; omega) (by rw [entryName]; omega) (by rw [entryName]; omega)

theorem LastAt.moved {m m' : Memory} {limit a a' : Nat} {r : DirEntry} {l : Nat}
    (h : LastAt m limit a r l) (hle : a' ≤ a)
    (hm : ∀ k, a + k < limit → m' (a' + k) = m (a + k)) : LastAt m' limit a' r l where
  record := h.record.moved fun k hk => hm k (by
    have := r.le_span
    have := h.span_le
    have := h.room
    omega)
  span_le := h.span_le
  room := by have := h.room; omega
  stop := by
    rw [← h.stop, recLen, recLen, Nat.add_assoc, Nat.add_assoc, hm]
    have := h.room
    omega

section Listing

variable {m m' : Memory} {limit a e : Nat} {rs pre post : List DirEntry} {r : DirEntry}

theorem Listing.moved {a' : Nat} (h : Listing m limit a rs) (hle : a' ≤ a)
    (hm : ∀ k, a + k < limit → m' (a' + k) = m (a + k)) : Listing m' limit a' rs := by
  obtain ⟨init, last, e, l, rfl, hinit, hlast⟩ := h
  have hend := hinit.end_eq
  have hroom := hlast.room
  refine ⟨init, last, a' + extent init, l, rfl, hinit.moved fun k hk => hm k (by omega), ?_⟩
  apply hlast.moved (by omega)
  intro k hk
  have := hm (extent init + k) (by omega)
  rwa [← Nat.add_assoc, ← Nat.add_assoc, ← hend] at this

theorem Listing.congr (h : Listing m limit a rs) (hm : ∀ x, a ≤ x → x < limit → m' x = m x) :
    Listing m' limit a rs :=
  h.moved le_rfl fun k hk => hm _ (by omega) hk

theorem Listing.prepend (hpre : Packed m a pre e) (h : Listing m limit e rs) :
    Listing m limit a (pre ++ rs) := by
  obtain ⟨init, last, b, l, rfl, hinit, hlast⟩ := h
  exact ⟨pre ++ init, last, b, l, by simp, hpre.append hinit, hlast⟩

theorem Listing.drop (h : Listing m limit a (pre ++ r :: post)) (hpre : Packed m a pre e) :
    Listing m limit e (r :: post) := by
  obtain ⟨init, last, b, l, heq, hinit, hlast⟩ := h
  obtain ⟨init', rfl, heq'⟩ : ∃ init', init = pre ++ init' ∧ r :: post = init' ++ [last] := by
    rcases List.append_eq_append_iff.mp heq with ⟨mid, rfl, hmid⟩ | ⟨mid, rfl, hmid⟩
    · exact ⟨mid, rfl, hmid⟩
    · cases mid with
      | nil => exact ⟨[], by simp, by simpa using hmid.symm⟩
      | cons x xs => simp at hmid
  obtain ⟨c, hc, hinit'⟩ := hinit.split
  obtain rfl : c = e := by rw [hc.end_eq, hpre.end_eq]
  exact ⟨init', last, b, l, heq', hinit', hlast⟩

theorem Listing.tail (h : Listing m limit a (r :: rs)) (hrs : rs ≠ []) :
    RecordAt m a r r.span ∧ Listing m limit (a + r.span) rs := by
  obtain ⟨init, last, e, l, heq, hinit, hlast⟩ := h
  cases init with
  | nil =>
      simp only [List.nil_append, List.cons.injEq] at heq
      exact absurd heq.2 hrs
  | cons q init =>
      simp only [List.cons_append, List.cons.injEq] at heq
      obtain ⟨rfl, rfl⟩ := heq
      exact ⟨hinit.1, init, last, e, l, rfl, hinit.2, hlast⟩

theorem Listing.last (h : Listing m limit a [r]) : ∃ l, LastAt m limit a r l := by
  obtain ⟨init, last, e, l, heq, hinit, hlast⟩ := h
  cases init with
  | nil =>
      simp only [List.nil_append, List.cons.injEq, and_true] at heq
      obtain rfl : a = e := hinit
      exact ⟨l, heq ▸ hlast⟩
  | cons q init => simp at heq

/-- The first record of a listing has a positive length. -/
theorem Listing.recLen_pos (h : Listing m limit a rs) : 0 < recLen m a := by
  obtain ⟨init, last, e, l, rfl, hinit, hlast⟩ := h
  cases init with
  | nil =>
      obtain rfl : a = e := hinit
      have := last.eight_le_span
      have := hlast.span_le
      rw [hlast.record.rec_eq]
      omega
  | cons q init =>
      have := q.eight_le_span
      rw [hinit.1.rec_eq]
      omega

end Listing

theorem DirAt.congr {m m' : Memory} {b : Nat} {rs : List DirEntry} (h : DirAt m b rs)
    (hm : ∀ x, b * 4096 ≤ x → x < b * 4096 + 4096 → m' x = m x) : DirAt m' b rs :=
  Listing.congr h hm

/-- An edit of one block does not disturb a directory in another. -/
theorem DirAt.other {m m' : Memory} {b c : Nat} {rs : List DirEntry} (h : DirAt m b rs)
    (hm : OnlyBlock m m' c) (hne : b ≠ c) : DirAt m' b rs :=
  h.congr fun x hlo hhi => hm x (by omega)

/-! Appending. -/

theorem writeEntry_eq (m : Memory) (a : Nat) (r : DirEntry) :
    writeEntry m a r.inode r.name = store m a (recordBytes r.inode (UInt8.ofNat r.name.length)
      (minRecLen r.name.length) r.name) := by
  have hlen : (UInt8.ofNat r.name.length).toNat = r.name.length := by
    have := r.short
    rw [UInt8.toNat_ofNat']
    omega
  rw [writeEntry, hlen, List.take_length]

/-- Where the next record of a block goes: behind the last one, once that is shrunk. -/
def appendPosition (m : Memory) (blockNum : Nat) : Option Nat :=
  (getBlock blockNum).map fun blockStart =>
    match lastEntry m (blockStart + blockSize) blockSize blockStart none with
    | none => blockStart
    | some prev => prev + (minRecLen (nameLen m prev)).toNat

/-- A record with this name leaves at least six spare bytes in block `b`. -/
def AppendRoom (m : Memory) (b : Nat) (name : Str) : Prop :=
  name.length ≤ 245 ∧ ∀ e, appendPosition m b = some e →
    e + (minRecLen name.length).toNat + 6 ≤ b * 4096 + 4096

theorem appendEntry_position {m m' : Memory} {b i e : Nat} {name : Str}
    (h : appendEntry m b i name = some (e, m')) : appendPosition m b = some e := by
  rw [appendEntry] at h
  rw [appendPosition]
  cases hb : getBlock b with
  | none => simp [hb] at h
  | some start =>
      simp only [hb] at h
      simp only [Option.map_some]
      cases hlast : lastEntry m (start + blockSize) blockSize start none with
      | none =>
          simp only [hlast, Option.some.injEq, Prod.mk.injEq] at h
          rw [h.1]
      | some prev =>
          simp only [hlast] at h
          split_ifs at h
          simp only [Option.some.injEq, Prod.mk.injEq] at h
          simp only [h.1]

theorem appendPosition_dir {m : Memory} {b : Nat} {rs : List DirEntry} (hb : b < 64)
    (h : DirAt m b rs) : appendPosition m b = some (b * 4096 + extent rs) := by
  obtain ⟨hbound, hlength⟩ := Listing.bound h
  obtain ⟨init, last, e, l, rfl, hinit, hlast⟩ := h
  have hend := hinit.end_eq
  simp only [List.length_append, List.length_singleton] at hlength
  have hfind : lastEntry m (b * 4096 + 4096) 4096 (b * 4096) none = some e :=
    lastEntry_listing hinit hlast (by omega)
  simp only [appendPosition, getBlock_of_lt hb, Option.map_some, blockSize_eq, hfind,
    hlast.record.len_eq, last.minRecLen_eq, extent_append, extent_cons, extent_nil]
  congr 1
  omega

theorem appendEntry_dir {m : Memory} {b : Nat} {rs : List DirEntry} (hb : b < 64)
    (h : DirAt m b rs) (r : DirEntry) (hroom : extent rs + r.span + 6 ≤ 4096) :
    ∃ m', appendEntry m b r.inode r.name = some (b * 4096 + extent rs, m') ∧
      DirAt m' b (rs ++ [r]) ∧ OnlyBlock m m' b := by
  obtain ⟨hbound, hlength⟩ := Listing.bound h
  obtain ⟨init, last, e, l, rfl, hinit, hlast⟩ := h
  have hend := hinit.end_eq
  have hspan := hlast.span_le
  have hfit := hlast.room
  have hlastspan := last.le_span
  have hrspan := r.le_span
  simp only [extent_append, extent_cons, extent_nil, List.length_append,
    List.length_singleton] at hroom hbound hlength
  have hfind : lastEntry m (b * 4096 + 4096) 4096 (b * 4096) none = some e :=
    lastEntry_listing hinit hlast (by omega)
  set entry := e + last.span with hentry
  set m₁ := store m (e + 5) [minRecLen last.name.length] with hm₁
  set m₂ := fill m₁ entry (b * 4096 + 4096 - entry) 0 with hm₂
  set m₃ := writeEntry m₂ entry r.inode r.name with hm₃
  have hstore : m₃ = store m₂ entry _ := writeEntry_eq m₂ entry r
  have hbytes : (recordBytes r.inode (UInt8.ofNat r.name.length) (minRecLen r.name.length)
      r.name).length = r.name.length + 7 := by simp [recordBytes]; omega
  -- below the new entry only the length byte of the last record changes
  have hbelow : ∀ x, x < entry → x ≠ e + 5 → m₃ x = m x := by
    intro x hx hne
    rw [hstore, store_of_lt _ _ hx, hm₂, fill_outside _ _ (Or.inl hx), hm₁,
      store_outside _ _ (by simp; omega)]
  have hlen : m₃ (e + 5) = minRecLen last.name.length := by
    rw [hstore, store_of_lt _ _ (by omega), hm₂, fill_outside _ _ (by omega), hm₁,
      store_cons_head]
  have hafter : ∀ x, entry + (r.name.length + 7) ≤ x → x < b * 4096 + 4096 → m₃ x = 0 := by
    intro x hlo hhi
    rw [hstore, store_of_ge _ _ (by omega), hm₂, fill_inside _ _ (by omega) (by omega)]
  refine ⟨m₃, ?_, ?_, ?_⟩
  · simp only [appendEntry, getBlock_of_lt hb, blockSize_eq, hfind, hlast.record.len_eq,
      last.minRecLen_eq]
    rw [if_neg (by omega)]
    simp only [extent_append, extent_cons, extent_nil, Option.some.injEq, Prod.mk.injEq]
    exact ⟨by omega, rfl⟩
  · refine ⟨init ++ [last], r, entry, r.span, rfl, ?_, ?_⟩
    · refine (hinit.congr fun x hlo hhi => hbelow x (by omega) (by omega)).append ⟨?_, rfl⟩
      rw [← last.minRecLen_eq]
      exact hlast.record.relabel _ hlen fun x _ hhi hne => hbelow x (by omega) hne
    · refine ⟨?_, le_rfl, by omega, ?_⟩
      · rw [hstore, ← r.minRecLen_eq]
        exact RecordAt.of_store m₂ entry r _
      · rw [recLen, hafter _ (by omega) (by omega)]
        rfl
  · rintro x (hx | hx)
    · exact hbelow x (by omega) (by omega)
    · rw [hstore, store_of_ge _ _ (by omega), hm₂, fill_outside _ _ (by omega), hm₁,
        store_outside _ _ (by simp; omega)]

/-! Removing. -/

theorem removeEntry_dir {m : Memory} {b e : Nat} {pre post : List DirEntry} {r : DirEntry}
    (h : DirAt m b (pre ++ r :: post)) (hpre : Packed m (b * 4096) pre e) (hne : pre ++ post ≠ []) :
    ∃ m', removeEntry m (b * 4096) e = some m' ∧ DirAt m' b (pre ++ post) ∧ OnlyBlock m m' b := by
  have hbound := (Listing.bound h).1
  have hend := hpre.end_eq
  have hspan := r.eight_le_span
  simp only [extent_append, extent_cons] at hbound
  have hrest := Listing.drop h hpre
  cases post with
  | nil =>
      rw [List.append_nil] at hne
      obtain ⟨l, hlast⟩ := hrest.last
      have hle := hlast.span_le
      have hroom := hlast.room
      refine ⟨fill m e l 0, ?_, ?_, fun x hx => fill_outside _ _ (by omega)⟩
      · simp [removeEntry, hlast.record.rec_eq, hlast.stop]
      -- the record before the gap becomes the last one
      obtain ⟨pre', q, rfl⟩ : ∃ pre' q, pre = pre' ++ [q] :=
        ⟨pre.dropLast, pre.getLast hne, (List.dropLast_append_getLast hne).symm⟩
      have hkeep : Packed (fill m e l 0) (b * 4096) (pre' ++ [q]) e :=
        hpre.congr fun x _ hhi => fill_outside _ _ (Or.inl hhi)
      obtain ⟨c, hpre', hq⟩ := hkeep.split
      have hqe : c + q.span = e := hq.2
      refine ⟨pre', q, c, q.span, by simp, hpre', hq.1, le_rfl, by omega, ?_⟩
      rw [hqe, recLen, fill_inside _ _ (by omega) (by omega)]
      rfl
  | cons s post =>
      obtain ⟨hr, htail⟩ := hrest.tail (List.cons_ne_nil _ _)
      have hpos := htail.recLen_pos
      refine ⟨move m e (e + r.span) (4096 - (e + r.span - b * 4096)), ?_, ?_, ?_⟩
      · simp only [removeEntry, hr.rec_eq, blockSize_eq]
        rw [if_pos hpos, if_neg (by omega)]
      · apply Listing.prepend (hpre.congr fun x _ hhi => move_outside _ (Or.inl hhi))
        apply htail.moved (by omega)
        intro k hk
        rw [move_inside _ (by omega) (by omega), Nat.add_sub_cancel_left]
      · intro x hx
        exact move_outside _ (by omega)

/-! New directories. -/

def dotEntry (inode : Nat) (h : inode < 2 ^ 32) : DirEntry :=
  ⟨inode, ascii ".", h, by decide, by decide⟩

def dotdotEntry (inode : Nat) (h : inode < 2 ^ 32) : DirEntry :=
  ⟨inode, ascii "..", h, by decide, by decide⟩

/-- The root's number fits its field. -/
theorem rootNumber_lt : 1 < 2 ^ 32 := by omega

@[simp] theorem dotEntry_span (i : Nat) (h : i < 2 ^ 32) : (dotEntry i h).span = 8 := by
  simp only [DirEntry.span, dotEntry]; decide

@[simp] theorem dotdotEntry_span (i : Nat) (h : i < 2 ^ 32) : (dotdotEntry i h).span = 12 := by
  simp only [DirEntry.span, dotdotEntry]; decide

theorem initDirectory_outside (m : Memory) {a i p x : Nat} (hx : x < a ∨ a + 17 ≤ x) :
    initDirectory m a i p x = m x := by
  have hdot : (roundUp (UInt8.ofNat (6 + 1 + 1)) 4).toNat = 8 := by decide
  simp only [initDirectory, hdot]
  rw [store_outside _ _ (by simp [recordBytes, ascii]; omega),
    store_outside _ _ (by simp [recordBytes, ascii]; omega)]

/-- The two records of a new directory. The length of the second is 4088 in one byte. -/
theorem initDirectory_records (m : Memory) (a : Nat) {i p : Nat} (hi : i < 2 ^ 32)
    (hp : p < 2 ^ 32) :
    RecordAt (initDirectory m a i p) a (dotEntry i hi) 8 ∧
      RecordAt (initDirectory m a i p) (a + 8) (dotdotEntry p hp) 248 := by
  have hdot : (roundUp (UInt8.ofNat (6 + 1 + 1)) 4).toNat = 8 := by decide
  constructor
  · have hrec := RecordAt.of_store m a (dotEntry i hi) (roundUp (UInt8.ofNat (6 + 1 + 1)) 4)
    rw [hdot] at hrec
    apply hrec.congr
    intro x _ hhi
    have hlen : (dotEntry i hi).name.length = 1 := by simp [dotEntry, ascii]
    simp only [initDirectory, hdot]
    rw [store_of_lt _ _ (by omega)]
    rfl
  · have hrec := RecordAt.of_store (store m a (recordBytes i 1
      (roundUp (UInt8.ofNat (6 + 1 + 1)) 4) (ascii "."))) (a + 8) (dotdotEntry p hp) 248
    simp only [initDirectory, hdot]
    exact hrec

/-- The walk of a new directory ends where `..`, with its one-byte length, points: the byte there
must still be zero. -/
theorem initDirectory_dir (m : Memory) (b : Nat) {i p : Nat} (hi : i < 2 ^ 32) (hp : p < 2 ^ 32)
    (hzero : m (b * 4096 + 261) = 0) :
    DirAt (initDirectory m (b * 4096) i p) b [dotEntry i hi, dotdotEntry p hp] := by
  obtain ⟨hdot, hdotdot⟩ := initDirectory_records m (b * 4096) hi hp
  refine ⟨[dotEntry i hi], dotdotEntry p hp, b * 4096 + 8, 248, rfl, ⟨?_, by simp [Packed]⟩,
    hdotdot, ?_, ?_, ?_⟩
  · rw [dotEntry_span]
    exact hdot
  · simp
  · omega
  · rw [recLen, initDirectory_outside m (by omega), hzero]
    rfl

/-- The first record of a listing carries the inode of its entry. -/
theorem Listing.head_inode {m : Memory} {limit a : Nat} {r : DirEntry} {rs : List DirEntry}
    (h : Listing m limit a (r :: rs)) : entryInode m a = r.inode := by
  cases rs with
  | nil =>
      obtain ⟨l, hlast⟩ := h.last
      exact hlast.record.inode_eq
  | cons q rs => exact (h.tail (List.cons_ne_nil _ _)).1.inode_eq

theorem removeEntry_below {m m' : Memory} {block dir x : Nat}
    (h : removeEntry m block dir = some m') (hx : x < dir) : m' x = m x := by
  unfold removeEntry at h
  dsimp only at h
  split_ifs at h
  · obtain rfl := Option.some.inj h
    exact move_outside _ (Or.inl hx)
  · obtain rfl := Option.some.inj h
    exact fill_outside _ _ (Or.inl hx)

/-! The creating calls, up to the record. -/

/-- The memory `abyssfs_mkdir` has prepared when it turns to the parent's block: the new inode is a
directory and owns block `b`, which lists itself and its parent. -/
def preparedDir (m : Memory) (i b parent : Nat) : Memory :=
  let m := write32 (freshInode m i) (inodeAddr i + 8) b
  let m := write32 m (inodeAddr i + 4) blockSize
  let m := write32 m (inodeAddr i) (mode m (inodeAddr i) ||| dirMode)
  initDirectory m (b * blockSize) i parent

theorem preparedDir_outside (m : Memory) {i b x : Nat} (parent : Nat)
    (hi : x < inodeAddr i ∨ inodeAddr i + 64 ≤ x) (hb : x < b * 4096 ∨ b * 4096 + 4096 ≤ x) :
    preparedDir m i b parent x = m x := by
  have hinit : x < b * 4096 ∨ b * 4096 + 17 ≤ x :=
    hb.imp_right fun hge => (Nat.add_le_add_left (by decide) _).trans hge
  simp only [preparedDir, blockSize_eq]
  rw [initDirectory_outside _ hinit, write32_outside _ _ (by omega),
    write32_outside _ _ (by omega), write32_outside _ _ (by omega), freshInode_outside _ hi]

theorem preparedDir_other (m : Memory) {i b j : Nat} (parent : Nat) (hb : 9 ≤ b) (hj : j < 512)
    (hne : j ≠ i) : SameInode m (preparedDir m i b parent) j :=
  SameInode.of_bytes fun k hk => preparedDir_outside m parent (by simp only [inodeAddr_eq]; omega)
    (by simp only [inodeAddr_eq]; omega)

/-- Below the data blocks `preparedDir` is the sequence of writes to the inode. -/
theorem preparedDir_word (m : Memory) {i b off : Nat} (parent : Nat) (hb : 9 ≤ b) (hi : i < 512)
    (hoff : off ≤ 60) :
    read32 (preparedDir m i b parent) (inodeAddr i + off) =
      read32 (write32 (write32 (write32 (freshInode m i) (inodeAddr i + 8) b) (inodeAddr i + 4)
        4096) (inodeAddr i) (0x1FF ||| 0x4000)) (inodeAddr i + off) := by
  have hmode : mode (write32 (write32 (freshInode m i) (inodeAddr i + 8) b) (inodeAddr i + 4) 4096)
      (inodeAddr i) = 0x1FF := by
    rw [mode, read32_write32_of_disjoint _ _ (by omega), read32_write32_of_disjoint _ _ (by omega)]
    exact freshInode_mode m i
  simp only [preparedDir, blockSize_eq, hmode, dirMode]
  exact read32_congr fun k hk => initDirectory_outside _ (by rw [inodeAddr_eq]; omega)

theorem preparedDir_mode (m : Memory) {i b : Nat} (parent : Nat) (hb : 9 ≤ b) (hi : i < 512) :
    mode (preparedDir m i b parent) (inodeAddr i) = 0x41FF := by
  have hword := preparedDir_word m parent hb hi (Nat.zero_le 60)
  rw [Nat.add_zero, read32_write32] at hword
  rw [mode, hword]
  rfl

theorem preparedDir_blocks (m : Memory) {i b : Nat} (parent : Nat) (hb : 9 ≤ b) (hb' : b < 64)
    (hi : i < 512) : blocks (preparedDir m i b parent) (inodeAddr i) = b := by
  rw [blocks, preparedDir_word m parent hb hi (by omega), read32_write32_of_disjoint _ _ (by omega),
    read32_write32_of_disjoint _ _ (by omega), read32_write32]
  omega

/-- Behind its two records the block of a new directory keeps what it held. -/
theorem preparedDir_behind (m : Memory) {i b x : Nat} (parent : Nat) (hi : inodeAddr i + 64 ≤ x)
    (hx : b * 4096 + 17 ≤ x) : preparedDir m i b parent x = m x := by
  simp only [preparedDir, blockSize_eq]
  rw [initDirectory_outside _ (Or.inr hx), write32_outside _ _ (by omega),
    write32_outside _ _ (by omega), write32_outside _ _ (by omega),
    freshInode_outside _ (Or.inr hi)]

theorem preparedDir_records (m : Memory) {i b parent : Nat} (hi : i < 2 ^ 32)
    (hp : parent < 2 ^ 32) :
    RecordAt (preparedDir m i b parent) (b * 4096) (dotEntry i hi) 8 ∧
      RecordAt (preparedDir m i b parent) (b * 4096 + 8) (dotdotEntry parent hp) 248 :=
  initDirectory_records _ (b * 4096) hi hp

theorem preparedDir_dir (m : Memory) {i b parent : Nat} (hb : 9 ≤ b) (hi : i < 512)
    (hp : parent < 2 ^ 32) (hzero : m (b * 4096 + 261) = 0) :
    DirAt (preparedDir m i b parent) b [dotEntry i (by omega), dotdotEntry parent hp] := by
  apply initDirectory_dir
  rw [write32_outside _ _ (by rw [inodeAddr_eq]; omega),
    write32_outside _ _ (by rw [inodeAddr_eq]; omega),
    write32_outside _ _ (by rw [inodeAddr_eq]; omega),
    freshInode_outside _ (by rw [inodeAddr_eq]; omega)]
  exact hzero

/-- `abyssfs_create` once an inode has been allocated. -/
theorem abyssfsCreate_of_alloc {s s₁ : Abyssfs} {i : Nat} (heapPos : Nat) (cwd : Option Str)
    (path : Str) (halloc : allocInode s = (i, s₁)) (hi : 1 ≤ i) :
    abyssfsCreate heapPos s cwd path =
      match createFile s₁ cwd (skipSlash path) i with
      | none => none
      | some (result, s) =>
          if result < 0 then some (none, heapPos, s)
          else
            match kalloc heapPos vfsFileSize with
            | (none, heapPos) => some (none, heapPos, s)
            | (some _, heapPos) => some (some ⟨.abyssfs, i, 0⟩, heapPos, s) := by
  obtain ⟨i, rfl⟩ : ∃ j, i = j + 1 := ⟨i - 1, by omega⟩
  rw [abyssfsCreate, halloc]
  rfl

/-- What a call of `abyssfs_create` that returns has done. -/
theorem abyssfsCreate_cases {s s' : Abyssfs} {heapPos heapPos' : Nat} {cwd : Option Str} {path : Str}
    {file : Option VfsFile} (h : abyssfsCreate heapPos s cwd path = some (file, heapPos', s')) :
    (file = none ∧ s' = s ∧ allocInode s = (0, s)) ∨
    ∃ i, 1 ≤ i ∧ i < 512 ∧ mode s.mem (inodeAddr i) = 0 ∧
      allocInode s = (i, { s with mem := freshInode s.mem i }) ∧
      ((file = none ∧ s' = { s with mem := freshInode s.mem i }) ∨
        ∃ p filename b e m',
          createParent (freshInode s.mem i) cwd (skipSlash path) = some (some (p, filename)) ∧
          directoryBlock (freshInode s.mem i) p = some b ∧
          appendEntry (freshInode s.mem i) b i filename = some (e, m') ∧
          s' = { s with mem := m' } ∧ (file = none ∨ file = some ⟨.abyssfs, i, 0⟩)) := by
  rcases allocInode_cases s with ⟨halloc, _⟩ | ⟨i, hi1, hi, hfree, halloc⟩
  · simp only [abyssfsCreate, halloc, Option.some.injEq, Prod.mk.injEq] at h
    obtain ⟨rfl, _, rfl⟩ := h
    exact Or.inl ⟨rfl, rfl, halloc⟩
  refine Or.inr ⟨i, hi1, hi, hfree, halloc, ?_⟩
  rw [abyssfsCreate_of_alloc heapPos cwd path halloc hi1, createFile] at h
  cases hparent : createParent (freshInode s.mem i) cwd (skipSlash path) with
  | none => simp [hparent] at h
  | some found =>
      cases found with
      | none =>
          simp [hparent] at h
          exact Or.inl ⟨h.1.symm, h.2.2.symm⟩
      | some target =>
          obtain ⟨p, filename⟩ := target
          cases hdir : directoryBlock (freshInode s.mem i) p with
          | none =>
              simp [hparent, hdir] at h
              exact Or.inl ⟨h.1.symm, h.2.2.symm⟩
          | some b =>
              cases happend : appendEntry (freshInode s.mem i) b i filename with
              | none => simp [hparent, hdir, happend] at h
              | some result =>
                  obtain ⟨e, m'⟩ := result
                  refine Or.inr ⟨p, filename, b, e, m', rfl, hdir, happend, ?_⟩
                  simp only [hparent, hdir, happend, Option.map_some, if_false,
                    lt_self_iff_false] at h
                  split at h
                  · simp only [Option.some.injEq, Prod.mk.injEq] at h
                    exact ⟨h.2.2.symm, Or.inl h.1.symm⟩
                  · simp only [Option.some.injEq, Prod.mk.injEq] at h
                    exact ⟨h.2.2.symm, Or.inr h.1.symm⟩

/-- `abyssfs_mkdir` once an inode and a block have been allocated. -/
theorem abyssfsMkdir_of_alloc {s : Abyssfs} {path base : Str} {i b parent parentNum : Nat}
    (hparent : mkdirParent s.mem path = some (some (parent, parentNum, base)))
    (halloc : allocInode s = (i, { s with mem := freshInode s.mem i })) (hi : 1 ≤ i)
    (hblock : allocBlock { s with mem := freshInode s.mem i } =
      (b, Abyssfs.take { s with mem := freshInode s.mem i } b)) (hb : 9 ≤ b) :
    abyssfsMkdir s path =
      match directoryBlock (preparedDir s.mem i b parentNum) parent with
      | none => some (-1, { s.take b with mem := preparedDir s.mem i b parentNum })
      | some parentBlock =>
          (appendEntry (preparedDir s.mem i b parentNum) parentBlock i base).map fun (_, m) =>
            (0, { s.take b with mem := m }) := by
  obtain ⟨i, rfl⟩ : ∃ j, i = j + 1 := ⟨i - 1, by omega⟩
  obtain ⟨b, rfl⟩ : ∃ c, b = c + 1 := ⟨b - 1, by omega⟩
  rw [abyssfsMkdir, hparent]
  simp only
  rw [halloc]
  simp only
  rw [hblock]
  rfl

end Chthon
