import Chthon.AbyssListing
import Chthon.NamespaceDecay
import Chthon.ProcessDirectories
import Chthon.TrapReturn

/-! The reply to `MSG_READ_DIR`. `handle_read_dir_message` reads 32 entries into an array of its own
and copies them to the caller all at once or, where they do not fit, not at all; in that case it
still returns their number. -/

namespace Chthon

open ByteMemory PathText

/-- The `inode` of a record in the caller's buffer. -/
def read64 (m : ByteMemory.Memory) (a : Nat) : Nat := read32 m a + 2 ^ 32 * read32 m (a + 4)

/-- The first `n` records of a buffer as its owner reads them. -/
def direntsAt (m : ByteMemory.Memory) : Nat → Nat → Option (List (Nat × Str))
  | _, 0 => some []
  | data, n + 1 =>
      (stringWithin m maxPath (data + 8)).bind fun name =>
        (direntsAt m (data + direntSize) n).map ((read64 m data, name) :: ·)

/-- What a `struct dirent` can hold. -/
structure IsDirent (e : Nat × Str) : Prop where
  inode : e.1 < 2 ^ 64
  short : e.2.length < maxPath
  nul_free : 0 ∉ e.2

/-- Every listing of the directory with room for as many entries starts with these. -/
def FirstEntries (k : Kernel) (path : Str) (entries : List (Nat × Str)) : Prop :=
  ∀ max all k', vfsReadDir k path max = some (some all, k') → entries.length ≤ max →
    all.take entries.length = entries

/-- A reply that says what it brings: the result is the count in the message, the buffer holds so
many first entries of the directory, and there are none only if the directory has none. -/
structure ConsistentReply (k : Kernel) (path : Str) (msg : Message) (result : Int) (msg' : Message)
    (k' : Kernel) : Prop where
  count : (msg'.direntCount : Int) = result
  delivered : ∃ entries, entries.length = msg'.direntCount ∧ FirstEntries k path entries ∧
    direntsAt k'.user msg.data msg'.direntCount = some entries
  fits : msg'.direntCount * direntSize ≤ msg.size
  empty : msg'.direntCount = 0 → ∀ max all k', vfsReadDir k path max = some (some all, k') → all = []

/-- The buffer has room for the entries of the directory, or for 32 of them. -/
def BufferTakes (k : Kernel) (path : Str) (msg : Message) : Prop :=
  ∀ max all k', vfsReadDir k path max = some (some all, k') → all ≠ [] →
    msg.data ≠ 0 ∧ min all.length maxDirents * direntSize ≤ msg.size

section Listings

variable {m : ByteMemory.Memory} {fs : Ramfs} {k k' k'' : Kernel} {path : Str}
  {entries entries' : List (Nat × Str)} {room room' : Nat}

theorem direntsFrom_take {dir : Nat} (h : direntsFrom m room dir = some entries)
    (h' : direntsFrom m room' dir = some entries') (hle : room ≤ room') :
    entries = entries'.take room := by
  induction room generalizing room' dir entries entries' with
  | zero =>
      cases h
      rfl
  | succ room ih =>
      obtain ⟨room', rfl⟩ := Nat.exists_eq_add_of_le' (Nat.one_le_of_lt hle)
      rw [direntsFrom] at h h'
      split_ifs at h h' with hend
      · cases h
        cases h'
        rfl
      · cases hname : stringWithin m maxPath (entryName dir) with
        | none =>
            rw [hname] at h
            cases h
        | some name =>
            simp only [hname, Option.map_eq_some_iff] at h h'
            obtain ⟨rest, hrest, rfl⟩ := h
            obtain ⟨rest', hrest', rfl⟩ := h'
            rw [List.take_succ_cons, ← ih hrest hrest' (Nat.le_of_succ_le_succ hle)]

theorem ramfsDirents_take {slots : List Nat} (h : ramfsDirents fs path room slots = some entries)
    (h' : ramfsDirents fs path room' slots = some entries') (hle : room ≤ room') :
    entries = entries'.take room := by
  induction slots generalizing room room' entries entries' with
  | nil => cases room <;> cases room' <;> cases h <;> cases h' <;> simp
  | cons i rest ih =>
      cases room with
      | zero =>
          cases h
          rfl
      | succ room =>
          obtain ⟨room', rfl⟩ := Nat.exists_eq_add_of_le' (Nat.one_le_of_lt hle)
          rw [ramfsDirents] at h h'
          split_ifs at h h'
          · cases hname : stringWithin (fs i).bytes (slotPath + maxContent) 0 with
            | none =>
                rw [hname] at h
                cases h
            | some filePath =>
                simp only [hname] at h h'
                split_ifs at h h'
                · simp only [Option.map_eq_some_iff] at h h'
                  obtain ⟨files, hfiles, rfl⟩ := h
                  obtain ⟨files', hfiles', rfl⟩ := h'
                  rw [List.take_succ_cons, ← ih hfiles hfiles' (Nat.le_of_succ_le_succ hle)]
                · exact ih h h' hle
          · exact ih h h' hle

/-- A listing with less room is the start of one with more. -/
theorem abyssfsReadDir_take (h : abyssfsReadDir m path room = some (some entries))
    (h' : abyssfsReadDir m path room' = some (some entries')) (hle : room ≤ room') :
    entries = entries'.take room := by
  unfold abyssfsReadDir at h h'
  dsimp only at h h'
  split at h <;> rename_i hblock
  · cases h
  · cases h
  · rw [hblock] at h'
    dsimp only at h'
    split at h <;> rename_i hdir
    · cases h
    · rw [hdir] at h'
      simp only [Option.map_eq_some_iff, Option.some.injEq, exists_eq_right] at h h'
      exact direntsFrom_take h h' hle

theorem ramfsReadDir_take (h : ramfsReadDir fs path room = some entries)
    (h' : ramfsReadDir fs path room' = some entries') (hle : room ≤ room') :
    entries = entries'.take room := by
  rw [ramfsReadDir, Option.map_eq_some_iff] at h h'
  obtain ⟨files, hfiles, rfl⟩ := h
  obtain ⟨files', hfiles', rfl⟩ := h'
  rw [ramfsDirents_take hfiles hfiles' (by omega), List.take_append, List.take_take,
    min_eq_left hle, List.length_take, List.length_cons, List.length_singleton]
  -- with room for a dot less there are no files on either side
  rcases Nat.lt_or_ge room' 2 with hless | hroom
  · have hnone : files' = [] := by
      rw [Nat.sub_eq_zero_of_le hless.le] at hfiles'
      cases hslots : List.range maxFiles <;> rw [hslots] at hfiles' <;> cases hfiles' <;> rfl
    rw [hnone, List.take_nil, List.take_nil]
  · rw [min_eq_right hroom]

theorem dirAnswer_take (h : dirAnswer k path room = some (some entries))
    (h' : dirAnswer k path room' = some (some entries')) (hle : room ≤ room') :
    entries = entries'.take room := by
  unfold dirAnswer at h h'
  cases hmount : findMount path with
  | none =>
      rw [hmount] at h
      cases h
  | some ops =>
      simp only [hmount] at h h'
      cases ops with
      | abyssfs => exact abyssfsReadDir_take h h' hle
      | ramfs =>
          simp only [fsReadDir, Option.map_eq_some_iff, Option.some.injEq, exists_eq_right] at h h'
          exact ramfsReadDir_take h h' hle

theorem vfsReadDir_take (h : vfsReadDir k path room = some (some entries, k'))
    (h' : vfsReadDir k path room' = some (some entries', k'')) (hle : room ≤ room') :
    entries = entries'.take room := by
  simp only [vfsReadDir_eq, Option.bind_eq_some_iff, Option.map_eq_some_iff, Prod.mk.injEq] at h h'
  obtain ⟨⟨text, kr⟩, hresolve, _, hlist, rfl, -⟩ := h
  obtain ⟨_, hresolve', _, hlist', rfl, -⟩ := h'
  cases hresolve.symm.trans hresolve'
  exact dirAnswer_take hlist hlist' hle

/-! Every record listed fits its structure. -/

theorem stringWithin_length {bound a : Nat} {text : Str} (h : stringWithin m bound a = some text) :
    text.length < bound := by
  induction bound generalizing a text with
  | zero => cases h
  | succ bound ih =>
      rw [stringWithin] at h
      split_ifs at h
      · cases h
        exact Nat.succ_pos bound
      · obtain ⟨rest, hrest, rfl⟩ := Option.map_eq_some_iff.mp h
        exact Nat.succ_lt_succ (ih hrest)

theorem direntsFrom_isDirent {dir : Nat} (h : direntsFrom m room dir = some entries) :
    ∀ e ∈ entries, IsDirent e := by
  induction room generalizing dir entries with
  | zero =>
      cases h
      simp
  | succ room ih =>
      rw [direntsFrom] at h
      split_ifs at h
      · cases h
        simp
      · cases hname : stringWithin m maxPath (entryName dir) with
        | none =>
            rw [hname] at h
            cases h
        | some name =>
            simp only [hname, Option.map_eq_some_iff] at h
            obtain ⟨rest, hrest, rfl⟩ := h
            have hinode : entryInode m dir < 2 ^ 64 :=
              (read32_lt m dir).trans (by decide)
            rintro e (_ | ⟨_, hmem⟩)
            · exact ⟨hinode, stringWithin_length hname, stringWithin_nul_free hname⟩
            · exact ih hrest e hmem

theorem getBasename_subset {f : Str} {c : UInt8} (h : c ∈ getBasename f) : c ∈ f := by
  rw [getBasename] at h
  cases hcut : splitLast slash f with
  | none => rwa [hcut] at h
  | some cut =>
      rw [hcut] at h
      rw [(eq_of_splitLast slash hcut).1]
      exact List.mem_append_right _ (List.mem_cons_of_mem _ h)

theorem ramfsDirents_isDirent {slots : List Nat} (hslots : ∀ i ∈ slots, i < maxFiles)
    (h : ramfsDirents fs path room slots = some entries) : ∀ e ∈ entries, IsDirent e := by
  induction slots generalizing room entries with
  | nil => cases room <;> cases h <;> simp
  | cons i rest ih =>
      have hrest := fun {room entries} => @ih room entries fun j hj =>
        hslots j (List.mem_cons_of_mem _ hj)
      cases room with
      | zero =>
          cases h
          simp
      | succ room =>
          rw [ramfsDirents] at h
          split_ifs at h
          · cases hname : stringWithin (fs i).bytes (slotPath + maxContent) 0 with
            | none =>
                rw [hname] at h
                cases h
            | some filePath =>
                simp only [hname] at h
                split_ifs at h with hin hlong
                · obtain ⟨files, hfiles, rfl⟩ := Option.map_eq_some_iff.mp h
                  have hi := hslots i List.mem_cons_self
                  rw [maxFiles] at hi
                  rintro e (_ | ⟨_, hmem⟩)
                  · exact ⟨by dsimp only; omega, Nat.lt_of_not_le hlong,
                      fun hnul => stringWithin_nul_free hname (getBasename_subset hnul)⟩
                  · exact hrest hfiles e hmem
                · exact hrest h
          · exact hrest h

theorem vfsReadDir_isDirent (h : vfsReadDir k path room = some (some entries, k')) :
    ∀ e ∈ entries, IsDirent e := by
  simp only [vfsReadDir_eq, Option.bind_eq_some_iff, Option.map_eq_some_iff, Prod.mk.injEq] at h
  obtain ⟨⟨text, kr⟩, -, _, hlist, rfl, -⟩ := h
  unfold dirAnswer at hlist
  cases hmount : findMount text with
  | none =>
      rw [hmount] at hlist
      cases hlist
  | some ops =>
      simp only [hmount] at hlist
      cases ops with
      | abyssfs =>
          simp only [fsReadDir] at hlist
          unfold abyssfsReadDir at hlist
          dsimp only at hlist
          split at hlist
          · cases hlist
          · cases hlist
          · split at hlist
            · cases hlist
            · simp only [Option.map_eq_some_iff, Option.some.injEq, exists_eq_right] at hlist
              exact direntsFrom_isDirent hlist
      | ramfs =>
          simp only [fsReadDir, ramfsReadDir, Option.map_eq_some_iff, Option.some.injEq,
            exists_eq_right] at hlist
          obtain ⟨files, hfiles, rfl⟩ := hlist
          intro e he
          rcases List.mem_append.mp he with hdot | hfile
          · have hdots := List.mem_of_mem_take hdot
            simp only [List.mem_cons, List.not_mem_nil, or_false] at hdots
            rcases hdots with rfl | rfl <;> exact ⟨by decide, by decide, by decide⟩
          · exact ramfsDirents_isDirent (fun i hi => List.mem_range.mp hi) hfiles e hfile

end Listings

section Buffer

variable {m m' : ByteMemory.Memory} {data a n : Nat} {entries : List (Nat × Str)}

theorem storeDirents_before {x : Nat} (hx : x < data) : storeDirents m data entries x = m x := by
  induction entries generalizing m data with
  | nil => rfl
  | cons e rest ih =>
      rw [storeDirents, ih (by omega), store_of_lt _ _ hx]

theorem load_append {bs cs : Str} (h : load m a (bs ++ cs).length = bs ++ cs) :
    load m a bs.length = bs ∧ load m (a + bs.length) cs.length = cs := by
  rw [List.length_append, load_add] at h
  exact List.append_inj h (load_length _ _ _)

theorem byte_of_load {bs : Str} (h : load m a bs.length = bs) {i : Nat} (hi : i < bs.length) :
    m (a + i) = bs[i] := by
  rw [← load_getElem m a bs.length i (by rwa [load_length])]
  simp only [h]

theorem read32_of_load {v : Nat} (h : load m a 4 = le32 v) : read32 m a = v % 2 ^ 32 := by
  have hwritten : read32 m a = read32 (write32 m a v) a := by
    refine read32_congr fun i hi => ?_
    rw [write32, store_at m a (le32 v) i hi]
    exact byte_of_load (show load m a (le32 v).length = le32 v from h) hi
  rw [hwritten, read32_write32]

/-- The bytes of one record are read as they were laid out. -/
theorem dirent_stored (m m' : ByteMemory.Memory) (data : Nat) {e : Nat × Str} (h : IsDirent e)
    (hm : ∀ i < direntSize, m' (data + i) =
      store m data (le32 e.1 ++ le32 (e.1 / 2 ^ 32) ++ e.2 ++ [0]) (data + i)) :
    read64 m' data = e.1 ∧ stringWithin m' maxPath (data + 8) = some e.2 := by
  have hinode := h.inode
  have hshort := h.short
  have hload : load m' data (le32 e.1 ++ (le32 (e.1 / 2 ^ 32) ++ (e.2 ++ [0]))).length =
      le32 e.1 ++ (le32 (e.1 / 2 ^ 32) ++ (e.2 ++ [0])) := by
    simp only [List.append_assoc] at hm
    rw [load_congr fun i hi => hm i ?_, load_store]
    simp only [List.length_append, le32_length, List.length_singleton] at hi
    rw [maxPath] at hshort
    rw [direntSize]
    omega
  obtain ⟨hlow, hload⟩ := load_append hload
  obtain ⟨hhigh, hload⟩ := load_append hload
  rw [le32_length, le32_length, Nat.add_assoc] at hload
  rw [le32_length] at hlow hhigh
  refine ⟨?_, stringWithin_eq h.nul_free hshort ?_ ?_⟩
  · rw [read64, read32_of_load hlow, read32_of_load hhigh]
    omega
  · intro i hi
    rw [byte_of_load hload (by rw [List.length_append]; omega), List.getElem_append_left hi]
  · rw [byte_of_load hload (by simp)]
    simp

/-- The caller reads back the records it was given. -/
theorem direntsAt_storeDirents (h : ∀ e ∈ entries, IsDirent e) :
    direntsAt (storeDirents m data entries) data entries.length = some entries := by
  induction entries generalizing m data with
  | nil => rfl
  | cons e rest ih =>
      obtain ⟨hinode, hname⟩ := dirent_stored m (storeDirents m data (e :: rest)) data
        (h e List.mem_cons_self) fun i hi => storeDirents_before (Nat.add_lt_add_left hi data)
      rw [List.length_cons, direntsAt, hinode, hname, Option.bind_some, storeDirents,
        ih fun e he => h e (List.mem_cons_of_mem _ he)]
      rfl

end Buffer

section Reply

variable {k k' : Kernel} {path : Str} {msg msg' : Message} {result : Int}

/-- What is read with the room of the kernel's array starts every other listing. -/
theorem firstEntries_of_read {k₁ : Kernel} {entries : List (Nat × Str)}
    (h : vfsReadDir k path maxDirents = some (some entries, k₁)) : FirstEntries k path entries := by
  intro max all k₂ hall hle
  have hlen : entries.length ≤ maxDirents := vfsReadDir_length (by decide) h
  rcases le_total max maxDirents with hmax | hmax
  · rw [vfsReadDir_take hall h hmax, List.take_take, min_eq_left hle, List.take_length]
  · have htake := vfsReadDir_take h hall hmax
    calc all.take entries.length
        = (all.take maxDirents).take entries.length := by rw [List.take_take, min_eq_left hlen]
      _ = entries := by rw [← htake, List.take_length]

/-- A directory without a first entry has none. -/
theorem listing_nil {k₁ k₂ : Kernel} {max : Nat} {all : List (Nat × Str)}
    (h : vfsReadDir k path maxDirents = some (some [], k₁))
    (hall : vfsReadDir k path max = some (some all, k₂)) : all = [] := by
  rcases le_total max maxDirents with hmax | hmax
  · rw [vfsReadDir_take hall h hmax, List.take_nil]
  · exact (List.take_eq_nil_iff.mp (vfsReadDir_take h hall hmax).symm).resolve_left (by decide)

/-- The entries read are those of the directory, or 32 of them. -/
theorem bufferTakes_iff {k₁ : Kernel} {entries : List (Nat × Str)}
    (h : vfsReadDir k path maxDirents = some (some entries, k₁)) : BufferTakes k path msg ↔
      (entries ≠ [] → msg.data ≠ 0 ∧ entries.length * direntSize ≤ msg.size) := by
  have hlen : entries.length ≤ maxDirents := vfsReadDir_length (by decide) h
  constructor
  · intro htakes hne
    have hroom := htakes maxDirents entries k₁ h hne
    rwa [min_eq_left hlen] at hroom
  · intro hroom max all k₂ hall hne
    have hcount : min all.length maxDirents ≤ entries.length := by
      rcases le_total max maxDirents with hmax | hmax
      · have htake := congrArg List.length (vfsReadDir_take hall h hmax)
        rw [List.length_take] at htake
        omega
      · have htake := congrArg List.length (vfsReadDir_take h hall hmax)
        rw [List.length_take, min_comm] at htake
        exact htake.ge
    have hsome : entries ≠ [] := by
      intro hnil
      rw [hnil, List.length_nil, Nat.le_zero, Nat.min_eq_zero_iff, List.length_eq_zero_iff] at hcount
      exact hcount.elim hne (by decide)
    obtain ⟨hdata, hsize⟩ := hroom hsome
    exact ⟨hdata, (Nat.mul_le_mul_right _ hcount).trans hsize⟩

/-- A reply without an error says what it brings just when the buffer has room for the entries of the
directory, or for 32 of them. -/
theorem read_dir_reply_iff (k k' : Kernel) (path : Str) (msg msg' : Message) (result : Int)
    (htext : k.text msg.path = some path)
    (h : handleReadDirMessage k msg = some (result, msg', k')) (hok : 0 ≤ result) :
    ConsistentReply k path msg result msg' k' ↔ BufferTakes k path msg := by
  rw [handleReadDirMessage, htext] at h
  split_ifs at h with hnull
  · cases h
    exact absurd hok (by decide)
  dsimp only at h
  cases hread : vfsReadDir k path maxDirents with
  | none =>
      rw [hread] at h
      cases h
  | some answer =>
      obtain ⟨_ | entries, k₁⟩ := answer
      · rw [hread] at h
        cases h
        exact absurd hok (by decide)
      · rw [hread] at h
        rw [bufferTakes_iff hread]
        dsimp only at h
        split_ifs at h with hroom
        · cases h
          refine iff_of_true ⟨rfl, ⟨entries, rfl, firstEntries_of_read hread, ?_⟩, hroom.2, ?_⟩
            fun _ => hroom
          · exact direntsAt_storeDirents (vfsReadDir_isDirent hread)
          · intro hzero max all k₂ hall
            obtain rfl := List.length_eq_zero_iff.mp hzero
            exact listing_nil hread hall
        · cases h
          constructor
          · rintro ⟨hcount, -, -, -⟩ hne
            have hpos := List.length_pos_iff.mpr hne
            dsimp only at hcount
            omega
          · intro htakes
            obtain rfl : entries = [] := by
              by_contra hne
              exact hroom (htakes hne)
            exact ⟨rfl, ⟨[], rfl, firstEntries_of_read hread, rfl⟩, by simp,
              fun _ max all k₂ hall => listing_nil hread hall⟩

end Reply

/-! The request of the shell's `ls`, which offers 4096 bytes. -/

def lsRequest : Message := ⟨12, 4096, 0, 8192, 4096, 0, 0, 0, 0, 0, 0, 0, 0⟩

/-- The files `/tmp/a`, `/tmp/b` and so on. -/
def filledTmp (count : Nat) : Ramfs := fun i =>
  if i < count then newSlot (ramfsInit i) (tmpPrefix ++ [UInt8.ofNat (97 + i)]) true
  else ramfsInit i

def lsKernel (count : Nat) : Kernel :=
  { shellKernel (store (fun _ => 0) 4096 (ascii "/tmp")) with ramfs := filledTmp count }

/-- Thirteen files and the two dots are as many records as fit. -/
theorem read_dir_reply_fifteen : ∃ msg' k',
    handleReadDirMessage (lsKernel 13) lsRequest = some (15, msg', k') ∧
    (ConsistentReply (lsKernel 13) (ascii "/tmp") lsRequest 15 msg' k' ↔
      BufferTakes (lsKernel 13) (ascii "/tmp") lsRequest) := by
  have hrun : (handleReadDirMessage (lsKernel 13) lsRequest).map Prod.fst = some 15 := by
    decide +kernel
  obtain ⟨⟨result, msg', k'⟩, h, rfl⟩ := Option.map_eq_some_iff.mp hrun
  exact ⟨msg', k', h, read_dir_reply_iff (lsKernel 13) k' (ascii "/tmp") lsRequest msg' 15
    (by decide +kernel) h (by decide)⟩

/-- With one file more the reply announces sixteen records and brings none. -/
theorem sixteen_entries_announced : ¬ ∀ (k k' : Kernel) (path : Str) (msg msg' : Message)
    (result : Int), k.text msg.path = some path →
    handleReadDirMessage k msg = some (result, msg', k') → 0 ≤ result →
      ConsistentReply k path msg result msg' k' := by
  intro hall
  have hrun : (handleReadDirMessage (lsKernel 14) lsRequest).map
      (fun r => (r.1, r.2.1.direntCount)) = some (16, 0) := by decide +kernel
  obtain ⟨⟨result, msg', k'⟩, h, heq⟩ := Option.map_eq_some_iff.mp hrun
  obtain ⟨rfl, hcount⟩ := Prod.mk.inj heq
  have hreply := hall (lsKernel 14) k' (ascii "/tmp") lsRequest msg' 16 (by decide +kernel) h
    (by decide)
  have hsame := hreply.count
  rw [hcount] at hsame
  exact absurd hsame (by decide)

end Chthon
