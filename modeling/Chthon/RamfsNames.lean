import Chthon.RamfsSession

/-! The names of RAMFS. A path names the first slot in use that stores it, a create takes the first
slot not in use, and an unlink gives the named slot up. -/

namespace Chthon

open ByteMemory

/-- The slot is in use under this path. -/
def RamfsFile.Stores (rf : RamfsFile) (path : Str) : Prop :=
  rf.used = true ∧ strEq rf.bytes 0 path = true

section Search

variable {fs : Ramfs} {path : Str} {i : Nat}

theorem ramfsFind_eq_some :
    ramfsFind fs path = some i ↔ i < 16 ∧ (fs i).Stores path ∧ ∀ j < i, ¬(fs j).Stores path := by
  rw [ramfsFind, List.find?_range_eq_some]
  simp only [Bool.and_eq_true, List.mem_range, maxFiles, Bool.not_eq_true', RamfsFile.Stores,
    Bool.and_eq_false_iff, not_and, Bool.not_eq_true]
  constructor
  · rintro ⟨hstores, hi, hbefore⟩
    refine ⟨hi, hstores, fun j hj hused => ?_⟩
    rcases hbefore j hj with hfalse | hfalse
    · rw [hused] at hfalse
      cases hfalse
    · exact hfalse
  · rintro ⟨hi, hstores, hbefore⟩
    refine ⟨hstores, hi, fun j hj => ?_⟩
    cases hused : (fs j).used with
    | false => exact Or.inl rfl
    | true => exact Or.inr (hbefore j hj hused)

theorem ramfsFind_eq_none :
    ramfsFind fs path = none ↔ ∀ j < 16, ¬(fs j).Stores path := by
  rw [ramfsFind, List.find?_eq_none]
  simp only [List.mem_range, maxFiles, Bool.and_eq_true, RamfsFile.Stores]

theorem ramfsFree_eq_some :
    ramfsFree fs = some i ↔ i < 16 ∧ (fs i).used = false ∧ ∀ j < i, (fs j).used = true := by
  rw [ramfsFree, List.find?_range_eq_some]
  simp only [Bool.not_eq_true', List.mem_range, maxFiles, Bool.not_not]
  constructor
  · rintro ⟨hfree, hi, hbefore⟩
    exact ⟨hi, hfree, hbefore⟩
  · rintro ⟨hi, hfree, hbefore⟩
    exact ⟨hfree, hi, hbefore⟩

/-- Taking a slot into use under another path does not change what a path names. -/
theorem ramfsFind_update_other {rf : RamfsFile} (hold : (fs i).used = false)
    (hnew : ¬rf.Stores path) :
    ramfsFind (Function.update fs i rf) path = ramfsFind fs path := by
  rw [ramfsFind, ramfsFind]
  congr 1
  funext j
  by_cases hj : j = i
  · subst hj
    rw [Function.update_self, hold, Bool.false_and, Bool.eq_false_iff]
    intro hstores
    rw [Bool.and_eq_true] at hstores
    exact hnew hstores
  · rw [Function.update_of_ne hj]

/-- An unlink that gives up slot `i` has found it under its path. -/
theorem ramfsUnlink_slot (hused : (fs i).used = true)
    (h : ramfsUnlink fs path =
      (0, Function.update fs i { fs i with used := false, size := 0 })) :
    ramfsFind fs path = some i := by
  unfold ramfsUnlink at h
  cases hfind : ramfsFind fs path with
  | none =>
      simp only [hfind, Prod.mk.injEq] at h
      cases h.1
  | some j =>
      simp only [hfind, Prod.mk.injEq, true_and] at h
      by_contra hne
      have hij : i ≠ j := fun heq => hne (congrArg some heq.symm)
      have hsame := congrArg RamfsFile.used (congrFun h i)
      simp only [Function.update_of_ne hij, Function.update_self, hused] at hsame
      cases hsame

/-- One slot does not store an absolute and a relative text. -/
theorem RamfsFile.Stores.absolute {rf : RamfsFile} {q : Str} (h : rf.Stores path)
    (habs : path.head? = some slash) (hq : rf.Stores q) : q.head? = some slash := by
  obtain ⟨_, hbytes⟩ := h
  obtain ⟨_, hqbytes⟩ := hq
  have hfirst : rf.bytes 0 = slash := by
    cases path with
    | nil => cases habs
    | cons c cs =>
        simp only [strEq, Bool.and_eq_true, beq_iff_eq] at hbytes
        simpa [hbytes.1] using habs
  cases q with
  | nil =>
      simp only [strEq, hfirst, beq_iff_eq] at hqbytes
      exact absurd hqbytes (by decide)
  | cons d ds =>
      simp only [strEq, hfirst, Bool.and_eq_true, beq_iff_eq] at hqbytes
      simp [hqbytes.1]

end Search

/-! Creating. -/

/-- A slot after `ramfs_create` has put a new file into it. -/
def newSlot (rf : RamfsFile) (full : Str) (used : Bool) : RamfsFile :=
  ⟨store (store rf.bytes 0 (full ++ [0])) slotPath [0], 0, used⟩

/-- The path of a new slot stays its path whatever is written to the contents. -/
theorem strEq_newSlot (rf : RamfsFile) {full path : Str} {used : Bool} {m : Memory}
    (hm : ∀ a < slotPath, m a = (newSlot rf full used).bytes a) (hlen : full.length < 32)
    (hfull : 0 ∉ full) (hpath : 0 ∉ path) : strEq m 0 path = true ↔ path = full := by
  have hbyte : ∀ k (hk : k < (full ++ [0]).length), m (0 + k) = (full ++ [0])[k] := by
    intro k hk
    have hout : 0 + k < slotPath := by
      simp only [List.length_append, List.length_singleton, slotPath] at hk ⊢
      omega
    calc m (0 + k)
      _ = (newSlot rf full used).bytes (0 + k) := hm _ hout
      _ = store rf.bytes 0 (full ++ [0]) (0 + k) := store_of_lt _ _ hout
      _ = (full ++ [0])[k] := store_at _ _ _ k hk
  apply strEq_store _ full path hfull hpath
  · intro k hk
    rw [hbyte k (by simp; omega), List.getElem_append_left hk]
  · rw [hbyte full.length (by simp)]
    simp

theorem newSlot_strEq (rf : RamfsFile) {full path : Str} (used : Bool) (hlen : full.length < 32)
    (hfull : 0 ∉ full) (hpath : 0 ∉ path) :
    strEq (newSlot rf full used).bytes 0 path = true ↔ path = full :=
  strEq_newSlot rf (fun _ _ => rfl) hlen hfull hpath

theorem newSlot_stores (rf : RamfsFile) {full path : Str} (hlen : full.length < 32)
    (hfull : 0 ∉ full) (hpath : 0 ∉ path) :
    (newSlot rf full true).Stores path ↔ path = full := by
  rw [RamfsFile.Stores, newSlot_strEq rf true hlen hfull hpath]
  exact and_iff_right rfl

/-- A create that returns a handle has taken the first free slot. -/
theorem ramfsCreate_some {heapPos heapPos' : Nat} {fs fs' : Ramfs} {path : Str} {file : VfsFile}
    (h : ramfsCreate heapPos fs path = some (some file, heapPos', fs')) :
    ∃ i, ramfsFree fs = some i ∧ file = ⟨.ramfs, i, 0⟩ ∧ (ramfsFullPath path).length < 32 ∧
      fs' = Function.update fs i (newSlot (fs i) (ramfsFullPath path) true) := by
  unfold ramfsCreate at h
  dsimp only at h
  split_ifs at h with hlong
  split at h
  · cases h
  · rename_i i hfree
    split at h
    · cases h
    · cases h
      exact ⟨i, hfree, rfl, Nat.lt_of_not_le hlong, rfl⟩

/-- A create that returns NULL has found no free slot, or no heap for the handle: then the free slot
has been given the path already. -/
theorem ramfsCreate_none {heapPos heapPos' : Nat} {fs fs' : Ramfs} {path : Str}
    (h : ramfsCreate heapPos fs path = some (none, heapPos', fs')) :
    (ramfsFree fs = none ∧ fs' = fs) ∨ ∃ i, ramfsFree fs = some i ∧
      (kalloc heapPos vfsFileSize).1 = none ∧ (ramfsFullPath path).length < 32 ∧
      fs' = Function.update fs i (newSlot (fs i) (ramfsFullPath path) false) := by
  unfold ramfsCreate at h
  dsimp only at h
  split_ifs at h with hlong
  split at h
  · rename_i hfree
    cases h
    exact Or.inl ⟨hfree, rfl⟩
  · rename_i i hfree
    split at h
    · rename_i hkalloc
      cases h
      exact Or.inr ⟨i, hfree, by rw [hkalloc], Nat.lt_of_not_le hlong, rfl⟩
    · cases h

/-- The new file is the one its path names, unless a slot before it stores the path as well. -/
theorem ramfsFind_created {fs : Ramfs} {i : Nat} {full : Str} (hfree : ramfsFree fs = some i)
    (hlen : full.length < 32) (hfull : 0 ∉ full) :
    ramfsFind (Function.update fs i (newSlot (fs i) full true)) full = some i ↔
      ∀ j, ramfsFind fs full = some j → i < j := by
  obtain ⟨hi, hunused, hbefore⟩ := ramfsFree_eq_some.mp hfree
  rw [ramfsFind_eq_some, Function.update_self]
  constructor
  · rintro ⟨_, _, hfirst⟩ j hfind
    obtain ⟨hj, hstores, _⟩ := ramfsFind_eq_some.mp hfind
    by_contra hle
    have hne : j ≠ i := by
      rintro rfl
      rw [RamfsFile.Stores, hunused] at hstores
      cases hstores.1
    have hnot := hfirst j (by omega)
    rw [Function.update_of_ne hne] at hnot
    exact hnot hstores
  · intro hlater
    refine ⟨hi, (newSlot_stores _ hlen hfull hfull).mpr rfl, fun j hj hstores => ?_⟩
    rw [Function.update_of_ne (by omega)] at hstores
    -- the first slot that stores the path is at `j` or before
    cases hfind : ramfsFind fs full with
    | none => exact ramfsFind_eq_none.mp hfind j (by omega) hstores
    | some l =>
        have hl := hlater l hfind
        exact (ramfsFind_eq_some.mp hfind).2.2 j (by omega) hstores

/-! Names that are told apart. -/

/-- The path of the slot, which ends inside its own array. -/
structure RamfsFile.Named (rf : RamfsFile) (path : Str) : Prop where
  short : path.length < slotPath
  nul_free : 0 ∉ path
  chars : ∀ k (hk : k < path.length), rf.bytes k = path[k]
  nul : rf.bytes path.length = 0

/-- No slot in use has a path that runs into its contents. -/
def NamedSlots (fs : Ramfs) : Prop := ∀ i < maxFiles, (fs i).used = true → ∃ path, (fs i).Named path

/-- No two slots in use have the same path. -/
def UniqueSlots (fs : Ramfs) : Prop :=
  ∀ i < maxFiles, ∀ j < maxFiles, ∀ path : CString, (fs i).Stores path.chars →
    (fs j).Stores path.chars → i = j

section Names

variable {fs : Ramfs} {rf rf' : RamfsFile} {path full : Str} {i : Nat}

theorem RamfsFile.Named.strEq_iff (h : rf.Named full) (hpath : 0 ∉ path) :
    strEq rf.bytes 0 path = true ↔ path = full := by
  apply strEq_store _ full path h.nul_free hpath
  · intro k hk
    rw [Nat.zero_add]
    exact h.chars k hk
  · rw [Nat.zero_add]
    exact h.nul

theorem RamfsFile.Named.congr (h : rf.Named full) (hm : ∀ a < slotPath, rf'.bytes a = rf.bytes a) :
    rf'.Named full where
  short := h.short
  nul_free := h.nul_free
  chars k hk := (hm k (hk.trans h.short)).trans (h.chars k hk)
  nul := (hm _ h.short).trans h.nul

/-- A path copied to the front of a slot is its name if it fits. -/
theorem named_of_store {m : Memory} (hlen : full.length < slotPath) (hnul : 0 ∉ full)
    (hm : ∀ a < slotPath, rf.bytes a = store m 0 (full ++ [0]) a) : rf.Named full := by
  have hbyte : ∀ k (hk : k < (full ++ [0]).length), rf.bytes k = (full ++ [0])[k] := by
    intro k hk
    have hstored := store_at m 0 (full ++ [0]) k hk
    rw [Nat.zero_add] at hstored
    rw [hm k (by rw [List.length_append, List.length_singleton] at hk; omega), hstored]
  refine ⟨hlen, hnul, ?_, ?_⟩
  · intro k hk
    rw [hbyte k (by rw [List.length_append]; omega), List.getElem_append_left hk]
  · rw [hbyte full.length (by simp)]
    simp

theorem newSlot_named (rf : RamfsFile) (used : Bool) (hlen : full.length < slotPath)
    (hnul : 0 ∉ full) : (newSlot rf full used).Named full :=
  named_of_store hlen hnul fun _ ha => store_of_lt _ _ ha

/-- Changing a slot in a way that leaves the others, and its name if it stays in use. -/
theorem NamedSlots.update (h : NamedSlots fs) (hnamed : rf.used = true → ∃ path, rf.Named path) :
    NamedSlots (Function.update fs i rf) := by
  intro j hj hused
  by_cases hji : j = i
  · rw [hji, Function.update_self] at hused ⊢
    exact hnamed hused
  · rw [Function.update_of_ne hji] at hused ⊢
    exact h j hj hused

/-- A change after which no slot stores more paths than before. -/
theorem UniqueSlots.mono {fs' : Ramfs} (h : UniqueSlots fs)
    (hstores : ∀ j < maxFiles, ∀ path : CString, (fs' j).Stores path.chars → (fs j).Stores path.chars) :
    UniqueSlots fs' :=
  fun j hj k hk path hleft hright => h j hj k hk path (hstores j hj path hleft) (hstores k hk path hright)

/-- Taking a free slot into use under a path keeps the paths apart exactly when no slot stored it. -/
theorem UniqueSlots.take_iff (h : UniqueSlots fs) (hfree : ramfsFree fs = some i)
    (hnamed : rf.Named full) (hused : rf.used = true) :
    UniqueSlots (Function.update fs i rf) ↔ ramfsFind fs full = none := by
  obtain ⟨hi, hunused, -⟩ := ramfsFree_eq_some.mp hfree
  have hnew : (Function.update fs i rf i).Stores full := by
    rw [Function.update_self]
    exact ⟨hused, (hnamed.strEq_iff hnamed.nul_free).mpr rfl⟩
  constructor
  · intro hunique
    rw [ramfsFind_eq_none]
    intro j hj hstores
    have hne : j ≠ i := by
      rintro rfl
      rw [RamfsFile.Stores, hunused] at hstores
      cases hstores.1
    apply hne
    apply hunique j hj i hi ⟨full, hnamed.nul_free⟩ _ hnew
    rwa [Function.update_of_ne hne]
  · intro hnone j hj k hk path hleft hright
    have hfull : (Function.update fs i rf i).Stores path.chars → path.chars = full := by
      rw [Function.update_self]
      exact fun hstores => (hnamed.strEq_iff path.nul_free).mp hstores.2
    have hother : ∀ l < maxFiles, l ≠ i → (Function.update fs i rf l).Stores path.chars →
        (fs l).Stores path.chars ∧ path.chars ≠ full := by
      intro l hl hli hstores
      rw [Function.update_of_ne hli] at hstores
      refine ⟨hstores, ?_⟩
      intro heq
      rw [heq] at hstores
      exact ramfsFind_eq_none.mp hnone l hl hstores
    by_cases hji : j = i <;> by_cases hki : k = i
    · rw [hji, hki]
    · exact absurd (hfull (hji ▸ hleft)) (hother k hk hki hright).2
    · exact absurd (hfull (hki ▸ hright)) (hother j hj hji hleft).2
    · exact h j hj k hk path (hother j hj hji hleft).1 (hother k hk hki hright).1

/-- A write leaves the paths of all slots alone. -/
theorem ramfsWrite_path {fs' : Ramfs} {file file' : VfsFile} {buf : Str} {count : Nat}
    (h : ramfsWrite fs file buf = some (count, file', fs')) (i : Nat) :
    (fs' i).used = (fs i).used ∧ ∀ a < slotPath, (fs' i).bytes a = (fs i).bytes a := by
  simp only [ramfsWrite] at h
  generalize (if (file.fPos + buf.length) % 2 ^ 64 > maxContent
    then (maxContent + 2 ^ 64 - file.fPos) % 2 ^ 64 else buf.length) = taken at h
  generalize (if file.fPos + taken > (fs file.privateData).size then file.fPos + taken
    else (fs file.privateData).size) = size at h
  split_ifs at h
  · simp only [Option.some.injEq, Prod.mk.injEq] at h
    obtain ⟨-, -, rfl⟩ := h
    exact ⟨rfl, fun _ _ => rfl⟩
  · simp only [Option.some.injEq, Prod.mk.injEq] at h
    obtain ⟨-, -, rfl⟩ := h
    by_cases hi : i = file.privateData
    · rw [hi, Function.update_self]
      exact ⟨rfl, fun a ha => store_of_lt _ _ (ha.trans_le (Nat.le_add_right _ _))⟩
    · rw [Function.update_of_ne hi]
      exact ⟨rfl, fun _ _ => rfl⟩

/-- Under distinct paths every slot is found by its own. -/
theorem UniqueSlots.find (h : UniqueSlots fs) (hi : i < maxFiles) (hpath : 0 ∉ path)
    (hstores : (fs i).Stores path) : ramfsFind fs path = some i := by
  refine ramfsFind_eq_some.mpr ⟨hi, hstores, ?_⟩
  intro j hj hbefore
  have heq := h j (hj.trans hi) i hi ⟨path, hpath⟩ hbefore hstores
  omega

end Names

end Chthon
