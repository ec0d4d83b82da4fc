import Mathlib

/-! A file as a flat sequence of at most `cap` elements, read and written through cursors. Each
cursor keeps a position of its own; the contents are shared. -/

namespace FlatFile

variable {α : Type} {cap : Nat}

/-- The contents after `data` has been laid over them at `pos`. -/
def patch (contents : List α) (pos : Nat) (data : List α) : List α :=
  contents.take pos ++ data ++ contents.drop (pos + data.length)

theorem patch_length {contents data : List α} {pos : Nat} (hpos : pos ≤ contents.length) :
    (patch contents pos data).length = max contents.length (pos + data.length) := by
  simp only [patch, List.length_append, List.length_take, List.length_drop]
  omega

theorem patch_nil (contents : List α) (pos : Nat) : patch contents pos [] = contents := by
  rw [patch, List.append_nil, List.length_nil, Nat.add_zero, List.take_append_drop]

/-- Writing at the end appends. -/
theorem patch_end (contents data : List α) :
    patch contents contents.length data = contents ++ data := by
  rw [patch, List.take_length, List.drop_of_length_le (by omega), List.append_nil]

@[ext]
structure File (α : Type) (cap : Nat) where
  contents : List α
  cursors : List Nat
  short : contents.length ≤ cap
  inside : ∀ p ∈ cursors, p ≤ contents.length

namespace File

/-- A new cursor starts at the beginning. -/
def openCursor (f : File α cap) : File α cap where
  contents := f.contents
  cursors := f.cursors ++ [0]
  short := f.short
  inside p hp := by
    rcases List.mem_append.mp hp with hp | hp
    · exact f.inside p hp
    · rw [List.mem_singleton.mp hp]
      exact Nat.zero_le _

/-- What a read of `count` elements at `pos` finds. -/
def slice (f : File α cap) (pos count : Nat) : List α := (f.contents.drop pos).take count

/-- What the capacity leaves of `data` at `pos`. -/
def fitting (cap pos : Nat) (data : List α) : List α := data.take (cap - pos)

theorem fitting_end {pos : Nat} (data : List α) (hpos : pos ≤ cap) :
    pos + (fitting cap pos data).length ≤ cap := by
  rw [fitting, List.length_take]
  omega

theorem fitting_of_le {pos : Nat} {data : List α} (h : pos + data.length ≤ cap) :
    fitting cap pos data = data := by
  rw [fitting, List.take_of_length_le (by omega)]

/-- Only the cursor that reads moves. -/
def read (f : File α cap) (cursor count : Nat) : Option (List α × File α cap) :=
  match h : f.cursors[cursor]? with
  | none => none
  | some pos => some (f.slice pos count, {
      contents := f.contents
      cursors := f.cursors.set cursor (pos + (f.slice pos count).length)
      short := f.short
      inside := by
        intro p hp
        have hpos := f.inside pos (List.mem_of_getElem? h)
        rcases List.mem_or_eq_of_mem_set hp with hp | rfl
        · exact f.inside p hp
        · rw [slice, List.length_take, List.length_drop]
          omega })

/-- Only the cursor that writes moves; the file grows as far as the data reaches. -/
def write (f : File α cap) (cursor : Nat) (data : List α) : Option (Nat × File α cap) :=
  match h : f.cursors[cursor]? with
  | none => none
  | some pos => some ((fitting cap pos data).length, {
      contents := patch f.contents pos (fitting cap pos data)
      cursors := f.cursors.set cursor (pos + (fitting cap pos data).length)
      short := by
        have hpos := f.inside pos (List.mem_of_getElem? h)
        rw [patch_length hpos]
        exact max_le f.short (fitting_end data (hpos.trans f.short))
      inside := by
        intro p hp
        have hpos := f.inside pos (List.mem_of_getElem? h)
        rw [patch_length hpos]
        rcases List.mem_or_eq_of_mem_set hp with hp | rfl
        · exact (f.inside p hp).trans (le_max_left _ _)
        · exact le_max_right _ _ })

theorem read_of_cursor {f : File α cap} {cursor pos : Nat} (h : f.cursors[cursor]? = some pos)
    (count : Nat) : ∃ g : File α cap, f.read cursor count = some (f.slice pos count, g) ∧
      g.contents = f.contents ∧
      g.cursors = f.cursors.set cursor (pos + (f.slice pos count).length) := by
  unfold read
  split
  · rename_i hnone
    rw [hnone] at h
    cases h
  · rename_i pos' hsome
    obtain rfl : pos' = pos := Option.some.inj (hsome.symm.trans h)
    exact ⟨_, rfl, rfl, rfl⟩

theorem write_of_cursor {f : File α cap} {cursor pos : Nat} (h : f.cursors[cursor]? = some pos)
    (data : List α) : ∃ g : File α cap,
      f.write cursor data = some ((fitting cap pos data).length, g) ∧
      g.contents = patch f.contents pos (fitting cap pos data) ∧
      g.cursors = f.cursors.set cursor (pos + (fitting cap pos data).length) := by
  unfold write
  split
  · rename_i hnone
    rw [hnone] at h
    cases h
  · rename_i pos' hsome
    obtain rfl : pos' = pos := Option.some.inj (hsome.symm.trans h)
    exact ⟨_, rfl, rfl, rfl⟩

theorem read_eq_none {f : File α cap} {cursor : Nat} (h : f.cursors[cursor]? = none)
    (count : Nat) : f.read cursor count = none := by
  unfold read
  split
  · rfl
  · rename_i hsome
    rw [hsome] at h
    cases h

theorem write_eq_none {f : File α cap} {cursor : Nat} (h : f.cursors[cursor]? = none)
    (data : List α) : f.write cursor data = none := by
  unfold write
  split
  · rfl
  · rename_i hsome
    rw [hsome] at h
    cases h

end File

end FlatFile
