import Chthon.VfsModel

/-! The record walks through a directory block. `create_file` and `abyssfs_mkdir` stop at the end of
the block; `abyssfs_read_dir`, `abyssfs_unlink` and `get_inode_by_path` go on from record to record
until they are stopped by what they read. -/

namespace Chthon

open ByteMemory

/-- The walks without a bound, with what they are looking for. -/
inductive RecordWalk where
  | readDir (maxEntries : Nat)
  | unlink (path : Str)
  | lookup (token : Str)

namespace RecordWalk

/-- What ends a walk at a record of non-zero length, after `count` others. -/
def Stops (w : RecordWalk) (m : Memory) (count dir : Nat) : Prop :=
  match w with
  | .readDir maxEntries => maxEntries ≤ count
  | .unlink name | .lookup name => strEq m (entryName dir) name = true

/-- `abyssfs_unlink` looks at the record behind the one it has found. -/
def LooksBehind : RecordWalk → Prop
  | .unlink _ => True
  | .readDir _ | .lookup _ => False

/-- After `count` records the walk from `start` inspects the one at `dir`. -/
inductive Visits (w : RecordWalk) (m : Memory) (start : Nat) : Nat → Nat → Prop
  | first : Visits w m start 0 start
  | next {count dir : Nat} (visited : Visits w m start count dir) (more : recLen m dir ≠ 0)
      (going : ¬ w.Stops m count dir) : Visits w m start (count + 1) (dir + recLen m dir)

/-- Every record whose fields the walk reads. -/
inductive Inspects (w : RecordWalk) (m : Memory) (start : Nat) : Nat → Nat → Prop
  | visited {count dir : Nat} (visited : Visits w m start count dir) : Inspects w m start count dir
  | behind {count dir : Nat} (visited : Visits w m start count dir) (more : recLen m dir ≠ 0)
      (found : w.Stops m count dir) (looks : w.LooksBehind) :
      Inspects w m start (count + 1) (dir + recLen m dir)

/-- The walk inspects only records that start inside the block, and no more than fit there. -/
def StaysInside (w : RecordWalk) (m : Memory) (block : Nat) : Prop :=
  ∀ count dir, w.Inspects m block count dir → dir < block + blockSize ∧ count < blockSize

end RecordWalk

/-- The values `entry` takes in the loop of `create_file`. -/
def boundedWalk (m : Memory) (blockEnd : Nat) : Nat → Nat → List Nat
  | 0, entry => [entry]
  | fuel + 1, entry =>
      entry :: if entry < blockEnd ∧ recLen m entry > 0 then
        boundedWalk m blockEnd fuel (entry + recLen m entry) else []

/-- The walk meets what ends it among the records `create_file` would go through. -/
def RecordWalk.StoppedInside (w : RecordWalk) (m : Memory) (block : Nat) : Prop :=
  ∃ count dir, (boundedWalk m (block + blockSize) blockSize block)[count]? = some dir ∧
    dir < block + blockSize ∧ (recLen m dir = 0 ∨
      (w.Stops m count dir ∧ (w.LooksBehind → dir + recLen m dir < block + blockSize)))

section BoundedWalk

variable {m : Memory} {blockEnd fuel entry i d : Nat}

theorem boundedWalk_first (m : Memory) (blockEnd fuel entry : Nat) :
    (boundedWalk m blockEnd fuel entry)[0]? = some entry := by
  cases fuel <;> rfl

/-- A value with another one behind it lies inside the block, on a record. -/
theorem boundedWalk_next {e : Nat} (hd : (boundedWalk m blockEnd fuel entry)[i]? = some d)
    (he : (boundedWalk m blockEnd fuel entry)[i + 1]? = some e) :
    d < blockEnd ∧ recLen m d ≠ 0 ∧ e = d + recLen m d := by
  induction fuel generalizing entry i with
  | zero => simp [boundedWalk] at he
  | succ fuel ih =>
      rw [boundedWalk] at hd he
      split_ifs at hd he with hmore
      · rw [List.getElem?_cons_succ] at he
        cases i with
        | zero =>
            rw [boundedWalk_first] at he
            cases hd
            cases he
            exact ⟨hmore.1, Nat.pos_iff_ne_zero.mp hmore.2, rfl⟩
        | succ i =>
            rw [List.getElem?_cons_succ] at hd
            exact ih hd he
      · simp at he

/-- The last value lies past the block or on a record of length zero. -/
theorem boundedWalk_last (hfuel : blockEnd ≤ entry + fuel)
    (h : (boundedWalk m blockEnd fuel entry).getLast? = some d) :
    blockEnd ≤ d ∨ recLen m d = 0 := by
  induction fuel generalizing entry with
  | zero =>
      cases h
      exact .inl hfuel
  | succ fuel ih =>
      rw [boundedWalk] at h
      split_ifs at h with hmore
      · have hne : boundedWalk m blockEnd fuel (entry + recLen m entry) ≠ [] := by
          cases fuel <;> exact List.cons_ne_nil _ _
        rw [List.getLast?_cons_of_ne_nil hne] at h
        exact ih (by omega) h
      · cases h
        by_cases hin : entry < blockEnd
        · exact .inr (by simpa [hin] using hmore)
        · exact .inl (Nat.not_lt.mp hin)

/-- `create_file` ends up with the last value but one in `prev`. -/
theorem lastEntry_eq (prev : Option Nat) : lastEntry m blockEnd fuel entry prev =
    ((boundedWalk m blockEnd fuel entry).dropLast.getLast?).or prev := by
  induction fuel generalizing entry prev with
  | zero => rfl
  | succ fuel ih =>
      rw [lastEntry, boundedWalk]
      split_ifs with hmore
      · have hne : boundedWalk m blockEnd fuel (entry + recLen m entry) ≠ [] := by
          cases fuel <;> exact List.cons_ne_nil _ _
        rw [ih, List.dropLast_cons_of_ne_nil hne, List.getLast?_cons]
        cases (boundedWalk m blockEnd fuel (entry + recLen m entry)).dropLast.getLast? <;> rfl
      · rfl

end BoundedWalk

namespace RecordWalk

variable {w : RecordWalk} {m : Memory} {start block count dir : Nat}

theorem Visits.advances (h : w.Visits m start count dir) : start + count ≤ dir := by
  induction h with
  | first => exact le_rfl
  | next _ more _ ih => omega

theorem Inspects.advances (h : w.Inspects m start count dir) : start + count ≤ dir := by
  cases h with
  | visited visited => exact visited.advances
  | behind visited more found looks =>
      have hadv := visited.advances
      omega

/-- Up to a value where it stops, the walk goes through the values of the bounded loop. -/
theorem Visits.bounded {blockEnd fuel k d : Nat} (h : w.Visits m start count dir)
    (hk : (boundedWalk m blockEnd fuel start)[k]? = some d)
    (hstop : recLen m d = 0 ∨ w.Stops m k d) :
    count ≤ k ∧ (boundedWalk m blockEnd fuel start)[count]? = some dir := by
  induction h with
  | first => exact ⟨Nat.zero_le _, boundedWalk_first m blockEnd fuel start⟩
  | @next count dir _ more going ih =>
      obtain ⟨hle, hdir⟩ := ih
      have hlt : count < k := by
        apply lt_of_le_of_ne hle
        rintro rfl
        obtain rfl : d = dir := Option.some.inj (hk.symm.trans hdir)
        exact hstop.elim more going
      obtain ⟨e, he⟩ : ∃ e, (boundedWalk m blockEnd fuel start)[count + 1]? = some e := by
        have hlen := (List.getElem?_eq_some_iff.mp hk).1
        exact ⟨_, List.getElem?_eq_getElem (by omega)⟩
      obtain ⟨-, -, rfl⟩ := boundedWalk_next hdir he
      exact ⟨hlt, he⟩

/-- Every value up to one inside the block is inside. -/
theorem boundedWalk_inside {blockEnd fuel k d : Nat}
    (hk : (boundedWalk m blockEnd fuel start)[k]? = some d) (hd : d < blockEnd)
    (hle : count ≤ k) (hdir : (boundedWalk m blockEnd fuel start)[count]? = some dir) :
    dir < blockEnd := by
  rcases hle.eq_or_lt with rfl | hlt
  · obtain rfl : d = dir := Option.some.inj (hk.symm.trans hdir)
    exact hd
  · obtain ⟨e, he⟩ : ∃ e, (boundedWalk m blockEnd fuel start)[count + 1]? = some e := by
      have hlen := (List.getElem?_eq_some_iff.mp hk).1
      exact ⟨_, List.getElem?_eq_getElem (by omega)⟩
    exact (boundedWalk_next hdir he).1

theorem StoppedInside.staysInside (h : w.StoppedInside m block) : w.StaysInside m block := by
  obtain ⟨k, d, hk, hd, hstop⟩ := h
  have hend : recLen m d = 0 ∨ w.Stops m k d := hstop.imp id And.left
  intro count dir hinspects
  have hadv := hinspects.advances
  have hinside : dir < block + blockSize := by
    cases hinspects with
    | visited visited =>
        obtain ⟨hle, hdir⟩ := visited.bounded hk hend
        exact boundedWalk_inside hk hd hle hdir
    | @behind count dir visited more found looks =>
        obtain ⟨hle, hdir⟩ := visited.bounded hk hend
        rcases hle.eq_or_lt with rfl | hlt
        · obtain rfl : d = dir := Option.some.inj (hk.symm.trans hdir)
          exact (hstop.resolve_left more).2 looks
        · obtain ⟨e, he⟩ : ∃ e, (boundedWalk m (block + blockSize) blockSize block)[count + 1]? =
              some e := by
            have hlen := (List.getElem?_eq_some_iff.mp hk).1
            exact ⟨_, List.getElem?_eq_getElem (by omega)⟩
          obtain ⟨-, -, rfl⟩ := boundedWalk_next hdir he
          exact boundedWalk_inside hk hd hlt he
  exact ⟨hinside, by omega⟩

/-- A walk that stays inside and is not stopped there follows the bounded loop to its end. -/
theorem StaysInside.visits (h : w.StaysInside m block) (hnot : ¬ w.StoppedInside m block) (i d : Nat)
    (hd : (boundedWalk m (block + blockSize) blockSize block)[i]? = some d) :
    w.Visits m block i d := by
  induction i generalizing d with
  | zero =>
      rw [boundedWalk_first] at hd
      cases hd
      exact .first
  | succ i ih =>
      obtain ⟨e, he⟩ : ∃ e, (boundedWalk m (block + blockSize) blockSize block)[i]? = some e := by
        have hlen := (List.getElem?_eq_some_iff.mp hd).1
        exact ⟨_, List.getElem?_eq_getElem (by omega)⟩
      obtain ⟨hin, hmore, rfl⟩ := boundedWalk_next he hd
      have hvisits := ih e he
      refine .next hvisits hmore fun hstops => hnot ⟨i, e, he, hin, .inr ⟨hstops, ?_⟩⟩
      exact fun looks => (h _ _ (.behind hvisits hmore hstops looks)).1

theorem staysInside_iff : w.StaysInside m block ↔ w.StoppedInside m block := by
  refine ⟨fun h => ?_, StoppedInside.staysInside⟩
  by_contra hnot
  have hne : boundedWalk m (block + blockSize) blockSize block ≠ [] := List.cons_ne_nil _ _
  obtain ⟨d, hlast⟩ : ∃ d, (boundedWalk m (block + blockSize) blockSize block).getLast? = some d :=
    ⟨_, List.getLast?_eq_some_getLast hne⟩
  have hget : (boundedWalk m (block + blockSize) blockSize block)[
      (boundedWalk m (block + blockSize) blockSize block).length - 1]? = some d := by
    rw [← List.getLast?_eq_getElem?, hlast]
  have hinside := (h _ _ (.visited (h.visits hnot _ d hget))).1
  rcases boundedWalk_last le_rfl hlast with hpast | hzero
  · exact absurd hinside (Nat.not_lt.mpr hpast)
  · exact hnot ⟨_, d, hget, hinside, .inl hzero⟩

/-! What the functions do along their walks. -/

/-- A lookup or an unlink that starts one record later sees the same records. -/
theorem Visits.tail {token : Str}
    (h : (lookup token).Visits m (start + recLen m start) count dir) (more : recLen m start ≠ 0)
    (going : strEq m (entryName start) token ≠ true) :
    (lookup token).Visits m start (count + 1) dir := by
  induction h with
  | first => exact .next .first more going
  | next _ hmore hgoing ih => exact .next ih hmore hgoing

/-- `findEntry` ends on the first record of its walk that has the name, or on one of length zero. -/
theorem findEntry_visits {token : Str} {fuel : Nat} {found : Option Nat}
    (h : findEntry m token fuel start = some found) :
    ∃ count dir, (lookup token).Visits m start count dir ∧
      (∀ e, found = some e → dir = e ∧ recLen m e ≠ 0 ∧ strEq m (entryName e) token = true) ∧
      (found = none → recLen m dir = 0) := by
  induction fuel generalizing start with
  | zero => cases h
  | succ fuel ih =>
      rw [findEntry] at h
      split_ifs at h with hzero hname
      · cases h
        exact ⟨0, start, .first, by simp, fun _ => hzero⟩
      · cases h
        refine ⟨0, start, .first, ?_, by simp⟩
        intro e he
        cases he
        exact ⟨rfl, hzero, hname⟩
      · obtain ⟨count, dir, hvisits, hend⟩ := ih h
        exact ⟨count + 1, dir, hvisits.tail hzero hname, hend⟩

theorem unlink_visits_iff {name : Str} :
    (unlink name).Visits m start count dir ↔ (lookup name).Visits m start count dir := by
  constructor
  · intro h
    induction h with
    | first => exact .first
    | next _ more going ih => exact .next ih more going
  · intro h
    induction h with
    | first => exact .first
    | next _ more going ih => exact .next ih more going

/-- Every entry `abyssfs_read_dir` lists is a record its walk visits, in order. -/
theorem direntsFrom_visits {room first : Nat} {entries : List (Nat × Str)}
    (h : direntsFrom m room dir = some entries)
    (hvisits : (readDir (first + room)).Visits m start first dir) :
    ∀ i entry, entries[i]? = some entry →
      ∃ e, (readDir (first + room)).Visits m start (first + i) e ∧ entry.1 = entryInode m e := by
  induction room generalizing first dir entries with
  | zero =>
      cases h
      intro i entry hentry
      cases hentry
  | succ room ih =>
      rw [direntsFrom] at h
      split_ifs at h with hzero
      · cases h
        intro i entry hentry
        cases hentry
      · split at h
        · cases h
        · rename_i name _
          obtain ⟨rest, hrest, rfl⟩ := Option.map_eq_some_iff.mp h
          have hgoing : ¬ (readDir (first + (room + 1))).Stops m first dir := by
            intro hstops
            have hle : first + (room + 1) ≤ first := hstops
            omega
          have hnext := hvisits.next hzero hgoing
          rw [show first + (room + 1) = first + 1 + room by omega] at hnext hvisits ⊢
          intro i entry hentry
          cases i with
          | zero =>
              cases hentry
              exact ⟨dir, hvisits, rfl⟩
          | succ i =>
              obtain ⟨e, he, heq⟩ := ih hrest hnext i entry hentry
              exact ⟨e, by rwa [show first + (i + 1) = first + 1 + i by omega], heq⟩

end RecordWalk

/-! The calls. -/

/-- A call of `abyssfs_read_dir`, `abyssfs_unlink` or `get_inode_by_path`. -/
inductive DirectoryCall where
  | readDir (path : Str) (maxEntries : Nat)
  | unlink (path : Str)
  | lookup (path : Str)

/-- The walks a lookup makes: one for each token it gets to, through the directory the tokens before
it lead to. -/
def LookupWalks (m : Memory) (path : Str) (w : RecordWalk) (block : Nat) : Prop :=
  skipSlash path ≠ [] ∧ ∃ before token after inode,
    tokens ((skipSlash path).take (maxPath - 1)) = before ++ token :: after ∧
    walkTokens m before (some rootInode) = some (some inode) ∧ blocks m inode ≠ 0 ∧
    getBlock (blocks m inode) = some block ∧ w = .lookup token

/-- The walks a call makes in a volume. -/
def DirectoryCall.Walks (m : Memory) (w : RecordWalk) (block : Nat) : DirectoryCall → Prop
  | .readDir path maxEntries =>
      LookupWalks m (skipSlash path) w block ∨
        (w = .readDir maxEntries ∧ if skipSlash path = [] then block = (inodeBlocks + 1) * blockSize
          else ∃ inode, getInodeByPath m (skipSlash path) = some (some inode) ∧
            getBlock (blocks m inode) = some block)
  | .unlink path => w = .unlink (skipSlash path) ∧ block = (inodeBlocks + 1) * blockSize
  | .lookup path => LookupWalks m path w block

/-- The walks of a call stay inside their blocks exactly when each is stopped inside by what it reads:
by a record of length zero or by what it is looking for. -/
theorem walks_stay_inside_iff (m : Memory) (call : DirectoryCall) :
    (∀ w block, call.Walks m w block → w.StaysInside m block) ↔
      ∀ w block, call.Walks m w block → w.StoppedInside m block :=
  forall₂_congr fun _ _ => imp_congr_right fun _ => RecordWalk.staysInside_iff

/-- A root directory whose block 32 records of 128 bytes fill to the last byte. -/
def fullRoot : Memory := fun a => if 36864 ≤ a ∧ a < 40960 ∧ a % 128 = 5 then 128 else 0

theorem fullRoot_visits (n : Nat) (hn : n ≤ 32) :
    (RecordWalk.unlink (ascii "x")).Visits fullRoot 36864 n (36864 + 128 * n) := by
  induction n with
  | zero => exact .first
  | succ n ih =>
      have hlen : recLen fullRoot (36864 + 128 * n) = 128 := by
        have hin : 36864 ≤ 36864 + 128 * n + 5 ∧ 36864 + 128 * n + 5 < 40960 ∧
            (36864 + 128 * n + 5) % 128 = 5 := by omega
        rw [recLen, fullRoot, if_pos hin]
        rfl
      have hname : fullRoot (entryName (36864 + 128 * n)) = 0 := by
        rw [entryName, fullRoot, if_neg (by omega)]
      have hgoing : ¬ (RecordWalk.unlink (ascii "x")).Stops fullRoot n (36864 + 128 * n) := by
        have hdiffers : strEq fullRoot (entryName (36864 + 128 * n)) (ascii "x") = false := by
          change (fullRoot (entryName (36864 + 128 * n)) == 120 && _) = false
          rw [hname]
          rfl
        intro hstops
        exact absurd (hdiffers.symm.trans hstops) (by decide)
      have hnext := (ih (by omega)).next (by rw [hlen]; decide) hgoing
      rw [hlen] at hnext
      exact hnext

/-- The search of `abyssfs_unlink` in a full directory goes on in the next block. -/
theorem full_directory_left : ¬ ∀ (m : Memory) (call : DirectoryCall) (w : RecordWalk) (block : Nat),
    call.Walks m w block → w.StaysInside m block := by
  intro h
  have hinside := h fullRoot (.unlink (ascii "x")) (.unlink (ascii "x")) 36864 ⟨rfl, rfl⟩ 32 40960
    (.visited (fullRoot_visits 32 le_rfl))
  exact absurd hinside.1 (by decide)

end Chthon
