import Chthon.AbyssFileWalks
import Chthon.AbyssNaming
import Chthon.AbyssRemove
import Chthon.ProcessDirectories

/-! `abyssfs_remove_recursive` on the tree of names. It removes what is below a directory by whole
paths, and `abyssfs_unlink` looks a whole path up among the names of the root: nothing below is found,
and what is left of the recursion is one unlink of the directory itself. -/

namespace Chthon

open ByteMemory DirectoryTree PathText Run

/-- What the loop of `abyssfs_remove_recursive` does with one entry. -/
def removeBelow (depth : Nat) (path : Str) (s : Abyssfs) (entry : Nat × Str) : Option Abyssfs :=
  if entry.2 = ascii "." ∨ entry.2 = ascii ".." then some s
  else if (path ++ slash :: entry.2).length ≥ maxPath then none
  else
    match getInode entry.1 with
    | none => (abyssfsUnlink s (path ++ slash :: entry.2)).map Prod.snd
    | some inode =>
        if mode s.mem inode &&& dirMode = 0 then
          (abyssfsUnlink s (path ++ slash :: entry.2)).map Prod.snd
        else (abyssfsRemoveRecursive depth s (path ++ slash :: entry.2)).map Prod.snd

theorem abyssfsRemoveRecursive_succ (depth : Nat) (s : Abyssfs) (path : Str) :
    abyssfsRemoveRecursive (depth + 1) s path =
      (abyssfsReadDir s.mem path 256).bind fun entries =>
        ((entries.getD []).foldlM (removeBelow depth path) s).bind fun s => abyssfsUnlink s path := by
  rw [abyssfsRemoveRecursive]
  cases abyssfsReadDir s.mem path 256 with
  | none => rfl
  | some entries =>
      rw [Option.bind_some]
      dsimp only
      generalize hleft : List.foldlM (m := Option) _ s (entries.getD []) = left
      have hloop : (entries.getD []).foldlM (removeBelow depth path) s = left := hleft
      rw [hloop]
      cases left <;> rfl

section Loop

variable {α β : Type} {f : β → α → Option β} {l : List α} {b b' : β}

/-- A loop whose rounds change nothing changes nothing. -/
theorem foldlM_fixed (hf : ∀ a ∈ l, ∀ c, f b a = some c → c = b) (h : l.foldlM f b = some b') :
    b' = b := by
  induction l with
  | nil =>
      rw [List.foldlM_nil] at h
      exact (Option.some.inj h).symm
  | cons a l ih =>
      rw [List.foldlM_cons, Option.bind_eq_bind, Option.bind_eq_some_iff] at h
      obtain ⟨c, hc, hrest⟩ := h
      obtain rfl := hf a List.mem_cons_self c hc
      exact ih (fun d hd => hf d (List.mem_cons_of_mem _ hd)) hrest

theorem foldlM_const (hf : ∀ a ∈ l, f b a = some b) : l.foldlM f b = some b := by
  induction l with
  | nil => rfl
  | cons a l ih =>
      rw [List.foldlM_cons, hf a List.mem_cons_self]
      exact ih fun d hd => hf d (List.mem_cons_of_mem _ hd)

end Loop

/-! The paths of the recursion. -/

/-- Every name in the tree is a component of a path. -/
def NamesAreComponents (T : FileTree) : Prop := ∀ k ∈ T, ∀ t ∈ k.path, IsComponent slash t

section Below

variable {T : FileTree} {s s' : Abyssfs} {q name : Str}

/-- The path of an entry has a separator that `abyssfs_unlink` does not skip. -/
theorem slash_mem_skipSlash (hq : q ≠ []) (name : Str) : slash ∈ skipSlash (q ++ slash :: name) := by
  obtain ⟨c, rest, rfl⟩ := List.exists_cons_of_ne_nil hq
  rw [List.cons_append, skipSlash]
  split_ifs <;> simp

/-- No entry of the root has a separator in its name. -/
theorem Mounted.unlink_slash (h : Mounted T s) (hnames : NamesAreComponents T) (hnul : 0 ∉ q)
    (hslash : slash ∈ skipSlash q) : abyssfsUnlink s q = some (-1, s) := by
  apply h.unlink_missing hnul
  · constructor
    · intro heq
      rw [heq] at hslash
      revert hslash
      decide
    · intro heq
      rw [heq] at hslash
      revert hslash
      decide
  · rw [find_none]
    intro k hk hpath
    exact (hnames k hk (skipSlash q) (by rw [hpath]; exact List.mem_singleton_self _)).2 hslash

theorem direntsFrom_nul_free {m : Memory} {room dir : Nat} {entries : List (Nat × Str)}
    (h : direntsFrom m room dir = some entries) : ∀ e ∈ entries, 0 ∉ e.2 := by
  induction room generalizing dir entries with
  | zero =>
      cases h
      exact fun e he => absurd he List.not_mem_nil
  | succ room ih =>
      rw [direntsFrom] at h
      split_ifs at h
      · cases h
        exact fun e he => absurd he List.not_mem_nil
      split at h
      · cases h
      · rename_i text htext
        obtain ⟨rest, hrest, rfl⟩ := Option.map_eq_some_iff.mp h
        intro e he
        rcases List.mem_cons.mp he with rfl | he
        · exact stringWithin_nul_free htext
        · exact ih hrest e he

theorem abyssfsReadDir_nul_free {m : Memory} {path : Str} {room : Nat}
    {entries : List (Nat × Str)} (h : abyssfsReadDir m path room = some (some entries)) :
    ∀ e ∈ entries, 0 ∉ e.2 := by
  unfold abyssfsReadDir at h
  dsimp only at h
  split at h
  · cases h
  · cases h
  · split at h
    · cases h
    · obtain ⟨_, hfrom, heq⟩ := Option.map_eq_some_iff.mp h
      cases heq
      exact direntsFrom_nul_free hfrom

/-- Whatever the recursion meets, it comes down to the unlink of the path itself. -/
theorem Mounted.removeRecursive_unlink (h : Mounted T s) (hnames : NamesAreComponents T)
    {depth : Nat} {result : Int} (hq : q ≠ []) (hnul : 0 ∉ q)
    (hcall : abyssfsRemoveRecursive depth s q = some (result, s')) :
    abyssfsUnlink s q = some (result, s') := by
  induction depth generalizing q result s' with
  | zero => cases hcall
  | succ depth ih =>
      rw [abyssfsRemoveRecursive_succ, Option.bind_eq_some_iff] at hcall
      obtain ⟨entries, hread, hcall⟩ := hcall
      obtain ⟨s₁, hloop, hcall⟩ := Option.bind_eq_some_iff.mp hcall
      have hsame : s₁ = s := by
        apply foldlM_fixed _ hloop
        intro e he u hround
        have hefree : 0 ∉ e.2 := by
          cases entries with
          | none => cases he
          | some entries => exact abyssfsReadDir_nul_free hread e he
        have hbelow : 0 ∉ q ++ slash :: e.2 := by
          simp [hnul, hefree, slash]
        have hmiss := h.unlink_slash hnames hbelow (slash_mem_skipSlash hq e.2)
        have hother (v : Abyssfs) (r : Int)
            (hv : abyssfsUnlink s (q ++ slash :: e.2) = some (r, v)) : v = s :=
          congrArg Prod.snd (Option.some.inj (hv.symm.trans hmiss))
        rw [removeBelow] at hround
        split_ifs at hround with hdots hlong
        · exact (Option.some.inj hround).symm
        split at hround
        · obtain ⟨⟨r, v⟩, hv, rfl⟩ := Option.map_eq_some_iff.mp hround
          exact hother v r hv
        · split_ifs at hround with hfile
          · obtain ⟨⟨r, v⟩, hv, rfl⟩ := Option.map_eq_some_iff.mp hround
            exact hother v r hv
          · obtain ⟨⟨r, v⟩, hv, rfl⟩ := Option.map_eq_some_iff.mp hround
            exact hother v r (ih (by simp) hbelow hv)
      rwa [hsame] at hcall

end Below

/-! The directories of the tree, in any spelling. -/

/-- The paths below `n`, as the recursion spells them from `q`, fit their buffers. -/
def FitsBelow (T : FileTree) (n : FileNode) (q : Str) : Prop :=
  ∀ k ∈ T, n.path <+: k.path → (q ++ render slash (k.path.drop n.path.length)).length < maxPath

/-- The path `q` leads to the directory `n`. -/
structure Spells (T : FileTree) (root n : FileNode) (q : Str) : Prop where
  nul_free : 0 ∉ q
  nonempty : components slash q ≠ []
  found : lookup dotName dotdotName T root (components slash q) = some n
  directory : n.isDir = true
  fits : FitsBelow T n q

section Nodes

variable {T : FileTree} {s : Abyssfs} {root n k : FileNode} {q : Str}

/-- A walk that ends on a directory meets no regular file. -/
theorem clearWalk_directory (m : Memory) {ts : List Str}
    (hk : lookup dotName dotdotName T n ts = some k) (hdir : k.isDir = true) :
    ClearWalk T m n ts := by
  intro us hus j hj hfile
  obtain ⟨vs, rfl⟩ := hus
  rw [lookup_append, hj, Option.bind_some] at hk
  cases vs with
  | nil =>
      cases hk
      rw [hdir] at hfile
      cases hfile
  | cons t vs =>
      rw [lookup, step, hfile] at hk
      cases hk

theorem Spells.node (hq : Spells T root n q) (hroot : find T [] = some root) : n ∈ T :=
  lookup_mem (find_some hroot).1 hq.found

theorem Spells.short (hq : Spells T root n q) (hroot : find T [] = some root) :
    q.length < maxPath := by
  have hlen := hq.fits n (hq.node hroot) List.prefix_rfl
  rw [List.length_append] at hlen
  omega

theorem Spells.ne_nil (hq : Spells T root n q) : q ≠ [] := by
  rintro rfl
  exact hq.nonempty rfl

theorem Spells.child (hq : Spells T root n q) (hwf : WellFormed dotName dotdotName T) (hk : k ∈ T)
    (hdir : k.isDir = true) {name : Str} (hname : IsComponent slash name) (hnul : 0 ∉ name)
    (hpath : k.path = n.path ++ [name]) : Spells T root k (q ++ slash :: name) := by
  have hcomps := components_append_component slash q hname
  have hplain := hwf.plain k hk name (by simp [hpath])
  refine ⟨by simp [hq.nul_free, hnul, slash], by simp [hcomps], ?_, hdir, ?_⟩
  · rw [hcomps, lookup_append, hq.found, Option.bind_some, lookup_singleton, step,
      if_pos hq.directory, if_neg hplain.1, if_neg hplain.2, ← hpath, hwf.find_mem hk]
  · intro j hj hbelow
    obtain ⟨rest, hrest⟩ := hbelow
    have hlen := hq.fits j hj (by rw [← hrest, hpath]; simp)
    have hdrop : j.path.drop n.path.length = name :: rest := by
      rw [← hrest, hpath, List.append_assoc, List.drop_left, List.singleton_append]
    rw [hdrop, PathResolution.render_cons] at hlen
    rw [← hrest, List.drop_left, List.append_assoc]
    exact hlen

/-- The path of an entry is no longer than the paths below it. -/
theorem Spells.entry_short (hq : Spells T root n q) (hk : k ∈ T) {name : Str}
    (hpath : k.path = n.path ++ [name]) : (q ++ slash :: name).length < maxPath := by
  have hlen := hq.fits k hk (by rw [hpath]; exact List.prefix_append _ _)
  rwa [hpath, List.drop_left, PathResolution.render_singleton] at hlen

/-- Such a directory is listed under its path. -/
theorem Represents.readDir_spelled (h : Represents T s) (hroot : find T [] = some root)
    (hq : Spells T root n q) : ∃ parent, ∀ room, abyssfsReadDir s.mem q room =
      some (some ((listing T n parent).take room)) := by
  have hn := hq.node hroot
  obtain ⟨parent, rs, -, hrs, hkeys⟩ := h.directory n hn hq.directory
  obtain ⟨-, hhi, -⟩ := h.dirBlock hn hq.directory
  have hcomps : components slash (skipSlash q) = components slash q := components_skipSlash q
  have hskip : skipSlash q ≠ [] := by
    intro hnil
    rw [hnil] at hcomps
    exact hq.nonempty hcomps.symm
  have hshort : (skipSlash (skipSlash q)).length ≤ 255 := by
    have hfirst := skipSlash_length_le q
    have hsecond := skipSlash_length_le (skipSlash q)
    have hlen := hq.short hroot
    rw [maxPath] at hlen
    omega
  have hfound : getInodeByPath s.mem (skipSlash q) = some (some (inodeAddr n.label)) := by
    have hlookup := hcomps ▸ hq.found
    rw [h.lookup_eq hroot (clearWalk_directory s.mem hlookup hq.directory)
      (skipSlash_nul_free hq.nul_free) hshort, hlookup]
    rfl
  refine ⟨parent, fun room => ?_⟩
  have hlist := Listing.direntsFrom hrs room
  rw [nodeBlock] at hhi hlist
  simp only [abyssfsReadDir, hskip, if_false, hfound, Option.map_some, getBlock_of_lt hhi, hlist,
    ← hkeys]
  rfl

theorem dirMode_and_eq_zero (v : Nat) : v &&& dirMode = 0 ↔ v.testBit 14 = false := by
  rw [show dirMode = 2 ^ 14 from rfl, Nat.and_two_pow]
  cases v.testBit 14 <;> simp

/-- Where the paths below it fit their buffers, the recursion on a directory is the unlink of its
path. -/
theorem Mounted.removeRecursive_eq (h : Mounted T s) (hnames : NamesAreComponents T)
    (hroot : find T [] = some root) {depth : Nat} (hq : Spells T root n q)
    (hdepth : maxPath ≤ depth + q.length) :
    abyssfsRemoveRecursive depth s q = abyssfsUnlink s q := by
  induction depth generalizing n q with
  | zero =>
      have hlt := hq.short hroot
      omega
  | succ depth ih =>
      obtain ⟨parent, hread⟩ := h.rep.readDir_spelled hroot hq
      have hfree := abyssfsReadDir_nul_free (hread 256)
      rw [abyssfsRemoveRecursive_succ, hread, Option.bind_some, Option.getD_some]
      have hloop : ((listing T n parent).take 256).foldlM (removeBelow depth q) s = some s := by
        apply foldlM_const
        intro e he
        have hefree := hfree e he
        have hmem := List.mem_of_mem_take he
        rw [listing, List.mem_cons, List.mem_cons] at hmem
        rw [removeBelow]
        rcases hmem with rfl | rfl | hmem
        · exact if_pos (.inl rfl)
        · exact if_pos (.inr rfl)
        obtain ⟨k, hk, rfl⟩ := List.mem_map.mp hmem
        have hkT := List.mem_of_mem_filter hk
        have hkpath := childKey_name hk
        have hplain := child_plain h.rep.tree hk
        have hdots : ¬((childKey k).2 = ascii "." ∨ (childKey k).2 = ascii "..") := by
          rw [not_or]
          exact hplain
        have hcomponent : IsComponent slash (childKey k).2 :=
          hnames k hkT _ (by rw [hkpath]; simp)
        have hbelow : 0 ∉ q ++ slash :: (childKey k).2 := by
          simp [hq.nul_free, hefree, slash]
        have hmiss := h.unlink_slash hnames hbelow (slash_mem_skipSlash hq.ne_nil _)
        have hfits : ¬(q ++ slash :: (childKey k).2).length ≥ maxPath :=
          Nat.not_le.mpr (hq.entry_short hkT hkpath)
        have hinode : getInode (childKey k).1 = some (inodeAddr k.label) :=
          getInode_of_lt (h.rep.range k hkT).2
        rw [if_neg hdots, if_neg hfits, hinode]
        dsimp only
        split_ifs with hfile
        · rw [hmiss]
          rfl
        · have hkdir : k.isDir = true := by
            rw [← h.rep.kind k hkT]
            simpa [dirMode_and_eq_zero] using hfile
          have hlonger : maxPath ≤ depth + (q ++ slash :: (childKey k).2).length := by
            rw [List.length_append, List.length_cons]
            omega
          rw [ih (hq.child h.rep.tree hkT hkdir hcomponent hefree hkpath) hlonger, hmiss]
          rfl
      rw [hloop, Option.bind_some]

end Nodes

/-! What an unlink in the root leaves. -/

/-- The names never lead to a node at or below `n`. -/
def StaysOutside (T : FileTree) (n : FileNode) (m : Memory) (names : List Str) : Prop :=
  ∀ us, us <+: names → ∀ k ∈ T, n.path <+: k.path →
    walkTokens m us (some rootInode) ≠ some (some (inodeAddr k.label))

/-- The directory `n` is gone with all that was below it, and nothing else has changed but the listing
it was in. -/
structure Removed (T : FileTree) (n : FileNode) (p : Str) (s s' : Abyssfs) : Prop where
  freed : ∀ k ∈ T, n.path <+: k.path → mode s'.mem (inodeAddr k.label) = 0
  cleared : ∀ k ∈ T, n.path <+: k.path → nodeBlock s.mem k ≠ 0 →
    s'.used (nodeBlock s.mem k) = false
  gone : getInodeByPath s'.mem p = some none
  resolves : ∀ path : CString, path.chars.length < maxPath →
    StaysOutside T n s.mem (components slash path.chars) →
      getInodeByPath s'.mem path.chars = getInodeByPath s.mem path.chars
  inodes : ∀ k ∈ T, ¬n.path <+: k.path → SameInode s.mem s'.mem k.label
  reads : ∀ k ∈ T, ¬n.path <+: k.path → k.isDir = false → ∀ file count,
    file.privateData % 2 ^ 32 = k.label → abyssfsRead s' file count = abyssfsRead s file count
  lists : ∀ k ∈ T, ¬n.path <+: k.path → k.isDir = true → ∃ pairs : List (Nat × Str), ∀ room,
    direntsFrom s.mem room (nodeBlock s.mem k * blockSize) = some (pairs.take room) ∧
    direntsFrom s'.mem room (nodeBlock s.mem k * blockSize) =
      some ((if k.path = n.path.dropLast then pairs.filter (·.2 ≠ (childKey n).2)
        else pairs).take room)

/-- The entry `t` of the root directory, which leads to `n`, has been taken out. -/
structure TakenOut (T : FileTree) (root n : FileNode) (t : Str) (s s' : Abyssfs) : Prop where
  step_eq : step dotName dotdotName T root t = some n
  listed : ∃ rs, DirAt s'.mem 9 rs ∧
    rs.map DirEntry.key = (listing T root root).filter (·.2 ≠ t)
  only : OnlyBlock (write32 s.mem (inodeAddr n.label) 0) s'.mem 9
  bitmap : s'.blockBitmap = (releaseInode s n.label).blockBitmap

section Taken

variable {T : FileTree} {s s' : Abyssfs} {root n k : FileNode} {t q : Str}

theorem Mounted.takenOut (h : Mounted T s) (hroot : find T [] = some root) (hnul : 0 ∉ q)
    (hstep : step dotName dotdotName T root (skipSlash q) = some n) :
    ∃ s', abyssfsUnlink s q = some (0, s') ∧ TakenOut T root n (skipSlash q) s s' := by
  obtain ⟨s', rs, hcall, hrs, hkeys, honly, hbitmap⟩ := h.unlink_entry hroot hnul hstep
  exact ⟨s', hcall, hstep, ⟨rs, hrs, hkeys⟩, honly, hbitmap⟩

/-- Nothing behind the block of the root is written. -/
theorem TakenOut.data (ht : TakenOut T root n t s s') (hlt : n.label < 512) {x : Nat}
    (hx : 40960 ≤ x) : s'.mem x = s.mem x := by
  rw [ht.only x (.inr hx)]
  apply write32_outside
  rw [inodeAddr_eq]
  omega

theorem TakenOut.blocks_eq (ht : TakenOut T root n t s s') (hlt : n.label < 512) {j : Nat}
    (hj : j < 512) : blocks s'.mem (inodeAddr j) = blocks s.mem (inodeAddr j) := by
  by_cases hjn : j = n.label
  · rw [hjn]
    exact released_blocks hlt ht.only
  · exact (released_other ht.only hj hjn).blocks

/-- A name that is filtered out is not found any more, and the others are found as before. -/
theorem find?_filter_name (t u : Str) (keys : List (Nat × Str)) :
    (keys.filter (·.2 ≠ t)).find? (·.2 = u) = if u = t then none else keys.find? (·.2 = u) := by
  rw [List.find?_filter]
  split_ifs with hut
  · rw [List.find?_eq_none]
    intro key _
    simp [hut]
  · congr 1
    funext key
    by_cases hkey : key.2 = u
    · simp [hkey, hut]
    · simp [hkey]

/-- A lookup that does not lead to `n` ends where it did. -/
theorem TakenOut.walk (ht : TakenOut T root n t s s') (h : Mounted T s)
    (hroot : find T [] = some root) (hrange : BlocksInRange s.mem) (hn : n ∈ T)
    {names : List Str} (hnul : ∀ u ∈ names, 0 ∉ u) {j : Nat} (hj : j < 512)
    (hout : ∀ us, us <+: names →
      walkTokens s.mem us (some (inodeAddr j)) ≠ some (some (inodeAddr n.label))) :
    walkTokens s'.mem names (some (inodeAddr j)) = walkTokens s.mem names (some (inodeAddr j)) := by
  have hnlt := (h.rep.range n hn).2
  induction names generalizing j with
  | nil => rfl
  | cons u us ih =>
      have hufree := hnul u List.mem_cons_self
      have hnext (i : Nat) (hi : i < 512)
          (hstep : walkTokens s.mem [u] (some (inodeAddr j)) = some (some (inodeAddr i))) :
          walkTokens s'.mem us (some (inodeAddr i)) = walkTokens s.mem us (some (inodeAddr i)) := by
        apply ih (fun v hv => hnul v (List.mem_cons_of_mem _ hv)) hi
        intro vs hvs
        have hlonger := hout (u :: vs) (List.cons_prefix_cons.mpr ⟨rfl, hvs⟩)
        rwa [← List.singleton_append, walkTokens_append hstep] at hlonger
      by_cases hnine : blocks s.mem (inodeAddr j) = 9
      · obtain ⟨root', _, hpath, _, hdir, hfind⟩ := h.rootNode
        obtain rfl : root' = root := Option.some.inj (hfind.symm.trans hroot)
        obtain ⟨rs, hrs, hkeys⟩ := h.listed hroot
        obtain ⟨rs', hrs', hkeys'⟩ := ht.listed
        have hone := hrs.walkTokens_cons hnine (by decide) (by decide) hufree []
        have hbefore := hrs.walkTokens_cons hnine (by decide) (by decide) hufree us
        have hafter := hrs'.walkTokens_cons ((ht.blocks_eq hnlt hj).trans hnine) (by decide)
          (by decide) hufree us
        rw [hkeys] at hbefore hone
        rw [hkeys', find?_filter_name] at hafter
        rw [hbefore, hafter]
        split_ifs with hut
        · -- the name leads to the inode that is gone
          have hlabel := listing_find T hdir (by rwa [hpath]) u
          rw [hut, ht.step_eq, Option.map_some, Option.map_eq_some_iff] at hlabel
          obtain ⟨key, hkey, hkeyn⟩ := hlabel
          rw [hut, hkey, Option.elim_some, hkeyn, getInode_of_lt hnlt, walkTokens] at hone
          exact absurd (hut ▸ hone) (hout [u] (by simp))
        · cases hkey : (listing T root' root').find? (·.2 = u) with
          | none => rfl
          | some key =>
              rw [Option.elim_some, Option.elim_some]
              cases hinode : getInode key.1 with
              | none => cases us <;> rw [walkTokens, walkTokens]
              | some q =>
                  obtain ⟨hi, rfl⟩ := getInode_eq_some.mp hinode
                  apply hnext _ hi
                  rw [hone, hkey, Option.elim_some, hinode, walkTokens]
      · have hdata (x : Nat) (hx : 40960 ≤ x) : s'.mem x = s.mem x := ht.data hnlt hx
        apply walkTokens_cons_congr hdata (ht.blocks_eq hnlt hj) _ hnext
        intro hzero
        have hblock := (hrange j hj).resolve_left hzero
        omega

/-- Only the two dots lead to the root. -/
theorem TakenOut.node_path (ht : TakenOut T root n t s s') (hroot : find T [] = some root) :
    n.path = [] ∨ n.path = [t] := by
  have hpath := step_path ht.step_eq
  rw [(find_some hroot).2, normalizeStep] at hpath
  split_ifs at hpath
  · exact .inl hpath
  · exact .inl hpath
  · exact .inr hpath

/-- A file has its data, if any, behind the block of the root. -/
theorem Mounted.file_data (h : Mounted T s) (hk : k ∈ T) (hfile : k.isDir = false)
    (hblock : nodeBlock s.mem k ≠ 0) : 10 ≤ nodeBlock s.mem k ∧ nodeBlock s.mem k < 64 := by
  obtain ⟨root, hrootT, _, hone, hdir, _⟩ := h.rootNode
  have hrootBlock : nodeBlock s.mem root = 9 := by rw [nodeBlock, hone, h.rootBlock]
  have hne : nodeBlock s.mem k ≠ 9 := by
    intro hnine
    have heq := h.rep.separate k hk root hrootT (hnine.trans hrootBlock.symm) hblock
    rw [heq, hdir] at hfile
    cases hfile
  rcases h.rep.blockRange k hk with ⟨_, hzero⟩ | ⟨hlo, hhi, _⟩
  · exact absurd hzero hblock
  · exact ⟨by omega, hhi⟩

theorem TakenOut.read_eq (ht : TakenOut T root n t s s') (h : Mounted T s)
    (hsized : SizedByBlock s.mem) (hn : n ∈ T) (hk : k ∈ T) (hkn : k.label ≠ n.label)
    (hfile : k.isDir = false) {file : VfsFile} (hlabel : file.privateData % 2 ^ 32 = k.label)
    (count : Nat) : abyssfsRead s' file count = abyssfsRead s file count := by
  have hklt := (h.rep.range k hk).2
  have hsame := released_other ht.only hklt hkn
  rw [abyssfsRead, abyssfsRead, hlabel, getInode_of_lt hklt]
  dsimp only
  rw [hsame.size, hsame.blocks]
  by_cases hzero : blocks s.mem (inodeAddr k.label) = 0
  · have hempty := hsized k.label hklt hzero
    rw [hempty, if_pos (Nat.zero_le _), if_pos (Nat.zero_le _)]
  · obtain ⟨hlo, hhi⟩ := h.file_data hk hfile hzero
    rw [nodeBlock] at hlo hhi
    have hload (n' : Nat) : load s'.mem
        (blocks s.mem (inodeAddr k.label) * blockSize % 2 ^ 32 + file.fPos) n' =
        load s.mem (blocks s.mem (inodeAddr k.label) * blockSize % 2 ^ 32 + file.fPos) n' := by
      apply load_congr
      intro i _
      apply ht.data (h.rep.range n hn).2
      rw [blockSize_eq]
      omega
    simp only [hload]

theorem TakenOut.lists_root (ht : TakenOut T root n t s s') (h : Mounted T s)
    (hroot : find T [] = some root) : ∃ pairs : List (Nat × Str), ∀ room,
      direntsFrom s.mem room (9 * blockSize) = some (pairs.take room) ∧
      direntsFrom s'.mem room (9 * blockSize) = some ((pairs.filter (·.2 ≠ t)).take room) := by
  obtain ⟨rs, hrs, hkeys⟩ := h.listed hroot
  obtain ⟨rs', hrs', hkeys'⟩ := ht.listed
  refine ⟨listing T root root, fun room => ⟨?_, ?_⟩⟩
  · rw [← hkeys]
    exact Listing.direntsFrom hrs room
  · rw [← hkeys']
    exact Listing.direntsFrom hrs' room

theorem TakenOut.lists_other (ht : TakenOut T root n t s s') (h : Mounted T s)
    (hroot : find T [] = some root) (hn : n ∈ T) (hk : k ∈ T) (hdir : k.isDir = true)
    (hkroot : k ≠ root) : ∃ pairs : List (Nat × Str), ∀ room,
      direntsFrom s.mem room (nodeBlock s.mem k * blockSize) = some (pairs.take room) ∧
      direntsFrom s'.mem room (nodeBlock s.mem k * blockSize) = some (pairs.take room) := by
  obtain ⟨root', hrootT, _, hone, _, hfind⟩ := h.rootNode
  obtain rfl : root' = root := Option.some.inj (hfind.symm.trans hroot)
  obtain ⟨_, rs, _, hrs, _⟩ := h.rep.directory k hk hdir
  obtain ⟨hlo, _, _⟩ := h.rep.dirBlock hk hdir
  have hne : nodeBlock s.mem k ≠ 9 := by
    intro hnine
    have hrootBlock : nodeBlock s.mem root' = 9 := by rw [nodeBlock, hone, h.rootBlock]
    exact hkroot (h.rep.separate k hk root' hrootT (hnine.trans hrootBlock.symm) (by omega))
  have hrs' : DirAt s'.mem (nodeBlock s.mem k) rs :=
    hrs.congr fun x hx _ => ht.data (h.rep.range n hn).2 (by omega)
  exact ⟨rs.map DirEntry.pair, fun room =>
    ⟨Listing.direntsFrom hrs room, Listing.direntsFrom hrs' room⟩⟩

/-- Where `n` has nothing below it, taking its entry out of the root removes it. -/
theorem TakenOut.removed (ht : TakenOut T root n t s s') (hs : AbyssReached s) (h : Mounted T s)
    (hroot : find T [] = some root) (hnul : 0 ∉ q) (hlen : q.length < maxPath)
    (hq : components slash q = [t]) (hleaf : ∀ k ∈ T, n.path <+: k.path → k = n) :
    Removed T n q s s' := by
  obtain ⟨root', hrootT, hrootPath, hone, _, hfind⟩ := h.rootNode
  obtain rfl : root' = root := Option.some.inj (hfind.symm.trans hroot)
  have hn : n ∈ T := lookup_mem hrootT ((lookup_singleton _).trans ht.step_eq)
  have hnlt := (h.rep.range n hn).2
  have hrange := hs.blocksInRange
  have hlabel (k : FileNode) (hk : k ∈ T) (hout : ¬n.path <+: k.path) : k.label ≠ n.label := by
    intro heq
    rw [h.rep.eq_of_label hk hn heq] at hout
    exact hout List.prefix_rfl
  have hpathLen (path : Str) (hpath : path.length < maxPath) : (skipSlash path).length ≤ 255 := by
    have hskip := skipSlash_length_le path
    rw [maxPath] at hpath
    omega
  refine ⟨?_, ?_, ?_, ?_, ?_, ?_, ?_⟩
  · intro k hk hbelow
    rw [hleaf k hk hbelow]
    exact released_mode hnlt ht.only
  · intro k hk hbelow hblock
    rw [hleaf k hk hbelow] at hblock ⊢
    have hlt : nodeBlock s.mem n < 64 := ((hrange n.label hnlt).resolve_left hblock).2
    have hused := releaseInode_used s hnlt hlt hlt
    rw [Abyssfs.used, ht.bitmap]
    rw [Abyssfs.used] at hused
    rw [hused]
    simp only [nodeBlock] at hblock ⊢
    simp [hblock]
  · obtain ⟨rs', hrs', hkeys'⟩ := ht.listed
    have hblock : blocks s'.mem (inodeAddr 1) = 9 :=
      (ht.blocks_eq hnlt (by omega)).trans h.rootBlock
    have htfree : 0 ∉ t := by
      intro hmem
      obtain ⟨_, hsub⟩ := mem_components slash (hq ▸ List.mem_singleton_self t)
      exact hnul (hsub 0 hmem)
    rw [getInodeByPath_eq _ (hpathLen q hlen), hq, rootInode_eq,
      hrs'.walkTokens_cons hblock (by decide) (by decide) htfree, hkeys', find?_filter_name,
      if_pos rfl]
    rfl
  · intro path hpath hstays
    rw [getInodeByPath_eq _ (hpathLen _ hpath), getInodeByPath_eq _ (hpathLen _ hpath),
      rootInode_eq]
    apply ht.walk h hroot hrange hn (fun u hu hzero => ?_) (by omega)
    · intro us hus
      rw [← rootInode_eq]
      exact hstays us hus n hn List.prefix_rfl
    · exact path.nul_free ((mem_components slash hu).2 0 hzero)
  · intro k hk hout
    exact released_other ht.only (h.rep.range k hk).2 (hlabel k hk hout)
  · intro k hk hout hfile file count hfileLabel
    exact ht.read_eq h hs.sizedByBlock hn hk (hlabel k hk hout) hfile hfileLabel count
  · intro k hk hout hdir
    have hnpath : n.path = [t] := by
      refine (ht.node_path hroot).resolve_left fun hnil => hout ?_
      rw [hnil]
      exact List.nil_prefix
    have hname : (childKey n).2 = t := by simp [childKey, hnpath]
    rw [hnpath, hname]
    by_cases hkroot : k = root'
    · have hblock : nodeBlock s.mem root' = 9 := by rw [nodeBlock, hone, h.rootBlock]
      rw [hkroot, hblock, hrootPath]
      exact ht.lists_root h hroot
    · have hkne : k.path ≠ [] := by
        intro hnil
        have hfound := h.rep.tree.find_mem hk
        rw [hnil, hroot] at hfound
        exact hkroot (Option.some.inj hfound).symm
      simp only [List.dropLast_singleton, hkne, if_false]
      exact ht.lists_other h hroot hn hk hdir hkroot

end Taken

section Removal

variable {T : FileTree} {s s' : Abyssfs} {root n : FileNode} {q : Str}

/-- What `abyssfs_unlink` takes out is one name, and the path is that name. -/
theorem Mounted.unlink_single (h : Mounted T s) (hnames : NamesAreComponents T) (hnul : 0 ∉ q)
    (hcall : abyssfsUnlink s q = some (0, s')) : components slash q = [skipSlash q] := by
  have hslash : slash ∉ skipSlash q := by
    intro hmem
    rw [h.unlink_slash hnames hnul hmem] at hcall
    cases hcall
  have hskip : skipSlash q ≠ [] := by
    intro hnil
    have hplain : Plain dotName dotdotName (skipSlash q) := by
      rw [hnil]
      exact ⟨by decide, by decide⟩
    have hmissing : find T [skipSlash q] = none := by
      rw [hnil, find_none]
      intro k hk hpath
      exact (hnames k hk [] (by rw [hpath]; exact List.mem_singleton_self _)).1 rfl
    rw [h.unlink_missing hnul hplain hmissing] at hcall
    cases hcall
  rw [← components_skipSlash]
  exact components_of_isComponent slash ⟨hskip, hslash⟩

/-- A successful recursive removal has removed the directory exactly where its path is more than a
name of the root directory, or nothing is below it. -/
theorem recursive_removal_iff (T : FileTree) (s : Abyssfs) (hs : AbyssReached s) (h : Mounted T s)
    (hnames : NamesAreComponents T) (root n : FileNode) (hroot : find T [] = some root)
    (hdir : n.isDir = true) (p : CString) (hne : p.chars ≠ [])
    (hp : lookup dotName dotdotName T root (components slash p.chars) = some n)
    (hfits : FitsBelow T n p.chars) :
    (∀ s', abyssfsRemoveRecursive maxPath s p.chars = some (0, s') → Removed T n p.chars s s') ↔
      (components slash p.chars = [skipSlash p.chars] → ∀ k ∈ T, n.path <+: k.path → k = n) := by
  have hn : n ∈ T := lookup_mem (find_some hroot).1 hp
  have hstep (hsingle : components slash p.chars = [skipSlash p.chars]) :
      step dotName dotdotName T root (skipSlash p.chars) = some n := by
    rwa [hsingle, lookup_singleton] at hp
  constructor
  · intro hremoved hsingle k hk hbelow
    by_contra hkn
    have hq : Spells T root n p.chars :=
      ⟨p.nul_free, by rw [hsingle]; exact List.cons_ne_nil _ _, hp, hdir, hfits⟩
    obtain ⟨s', hcall, ht⟩ := h.takenOut hroot p.nul_free (hstep hsingle)
    rw [← h.removeRecursive_eq hnames hroot hq (Nat.le_add_right _ _)] at hcall
    have hlabel : k.label ≠ n.label := fun heq => hkn (h.rep.eq_of_label hk hn heq)
    have hkept := (released_other ht.only (h.rep.range k hk).2 hlabel).mode
    exact h.rep.inUse k hk (hkept.symm.trans ((hremoved s' hcall).freed k hk hbelow))
  · intro hcondition s' hcall
    have hunlink := h.removeRecursive_unlink hnames hne p.nul_free hcall
    have hsingle := h.unlink_single hnames p.nul_free hunlink
    obtain ⟨u, hu, ht⟩ := h.takenOut hroot p.nul_free (hstep hsingle)
    obtain rfl : u = s' := congrArg Prod.snd (Option.some.inj (hu.symm.trans hunlink))
    have hlen := hfits n hn List.prefix_rfl
    rw [List.length_append] at hlen
    exact ht.removed hs h hroot p.nul_free (by omega) hsingle (hcondition hsingle)

end Removal

/-! The trees that `abyssfs_create` and `abyssfs_mkdir` build are such volumes. -/

section Runs

variable {s s' : Abyssfs}

theorem create_root_blocks (hrange : BlocksInRange s.mem) (hroot : mode s.mem (inodeAddr 1) ≠ 0)
    {heapPos heapPos' : Nat} {cwd : Option Str} {path : Str} {file : Option VfsFile}
    (hcall : abyssfsCreate heapPos s cwd path = some (file, heapPos', s')) :
    blocks s'.mem (inodeAddr 1) = blocks s.mem (inodeAddr 1) := by
  rcases abyssfsCreate_cases hcall with ⟨_, rfl, _⟩ | ⟨i, _, _, hfree, _, hrest⟩
  · rfl
  · have hne : 1 ≠ i := by
      rintro rfl
      exact hroot hfree
    have hfresh := (freshInode_other s.mem hne).blocks
    rcases hrest with ⟨_, rfl⟩ | ⟨p, filename, b, e, m', hparent, hdir, happend, rfl, _⟩
    · exact hfresh
    · have hb := (hrange.fresh i).directory (createParent_addr hparent).1 hdir
      exact (SameInode.of_data (by omega) (appendEntry_table happend hb)).blocks.trans hfresh

theorem mkdir_root_blocks (hrange : BlocksInRange s.mem) (hroot : mode s.mem (inodeAddr 1) ≠ 0)
    {path : Str} {result : Int} (hcall : abyssfsMkdir s path = some (result, s')) :
    blocks s'.mem (inodeAddr 1) = blocks s.mem (inodeAddr 1) := by
  rcases abyssfsMkdir_cases hcall with ⟨_, _, rfl⟩ | ⟨p, num, base, hparent, hrest⟩
  · rfl
  rcases hrest with ⟨_, _, rfl⟩ | ⟨i, _, hi, hfree, _, hrest⟩
  · rfl
  have hne : 1 ≠ i := by
    rintro rfl
    exact hroot hfree
  rcases hrest with ⟨_, rfl⟩ | ⟨b, hb9, hb64, _, _, hrest⟩
  · exact (freshInode_other s.mem hne).blocks
  have hprepared := (preparedDir_other s.mem num hb9 (by omega) hne).blocks
  rcases hrest with ⟨_, _, rfl⟩ | ⟨pb, e, m', hdir, _, happend, _, rfl⟩
  · exact hprepared
  · have hpb := (hrange.prepared num hi hb9 hb64).directory (mkdirParent_addr hparent).1 hdir
    exact (SameInode.of_data (by omega) (appendEntry_table happend hpb)).blocks.trans hprepared

/-- What `recursive_removal_iff` asks of a volume. -/
structure BuiltTree (T : FileTree) (s : Abyssfs) : Prop where
  reached : AbyssReached s
  mounted : Mounted T s
  names : NamesAreComponents T

theorem namesAreComponents_treeOf (trace : List (NameOp × Option Nat)) :
    NamesAreComponents (treeOf trace) := by
  intro k hk t ht
  rw [treeOf, List.mem_cons] at hk
  rcases hk with rfl | hk
  · cases ht
  · obtain ⟨c, _, rfl⟩ := List.mem_map.mp hk
    exact isComponent_normalize c.1.path t ht

theorem naming_run_built (s : Abyssfs) {trace : List (NameOp × Option Nat)} {v : Volume}
    (h : Steps nameStep NameOp.Allowed (bootVolume s) trace v) : BuiltTree (treeOf trace) v.fs := by
  have hrun : NamingRun trace v ∧ AbyssReached v.fs ∧ blocks v.fs.mem (inodeAddr 1) = 9 := by
    refine h.invariant (P := fun trace v => NamingRun trace v ∧ AbyssReached v.fs ∧
      blocks v.fs.mem (inodeAddr 1) = 9)
      ⟨naming_run s .nil, .boot s, boot_blocks_root s⟩ ?_
    intro trace v op result v' hv ha htaken
    obtain ⟨hnaming, hreached, hblock⟩ := hv
    have hrange := hreached.blocksInRange
    obtain ⟨root, hfind, hone, _⟩ := hnaming.naming.rep.root
    have hroot : mode v.fs.mem (inodeAddr 1) ≠ 0 := by
      rw [← hone]
      exact hnaming.naming.rep.inUse root (find_some hfind).1
    refine ⟨hnaming.step ha htaken, ?_⟩
    cases op with
    | create path =>
        obtain ⟨⟨file, heapPos, fs⟩, hcall, heq⟩ := Option.map_eq_some_iff.mp htaken
        cases heq
        exact ⟨.create hreached hcall, (create_root_blocks hrange hroot hcall).trans hblock⟩
    | mkdir path =>
        obtain ⟨⟨res, fs⟩, hcall, heq⟩ := Option.map_eq_some_iff.mp htaken
        cases heq
        exact ⟨.mkdir hreached hcall, (mkdir_root_blocks hrange hroot hcall).trans hblock⟩
  exact ⟨hrun.2.1, ⟨hrun.1.naming.rep, hrun.2.2⟩, namesAreComponents_treeOf trace⟩

end Runs

theorem belowText_nul_free : 0 ∉ ascii "/a/b" := by decide

def makeA : NameOp := .mkdir nameA

def makeBelowA : NameOp := .mkdir ⟨ascii "/a/b", belowText_nul_free⟩

/-- A volume with the directory `/a`. -/
def volumeA : Volume := next nameStep (bootVolume blankFs) makeA

/-- The same with a directory in it. -/
def volumeAB : Volume := next nameStep volumeA makeBelowA

def nodeA : FileNode := ⟨[ascii "a"], 2, true⟩

def nodeAB : FileNode := ⟨[ascii "a", ascii "b"], 3, true⟩

theorem makeA_run : Steps nameStep NameOp.Allowed (bootVolume blankFs) [(makeA, some 2)] volumeA := by
  apply Steps.nil.extend
  · exact Admissible.of_values [] (ascii "a") 4160 36884 rfl (by decide) (by decide) (by decide)
      (by decide +kernel) (by decide +kernel) (by decide +kernel) (by decide +kernel)
  · decide +kernel

theorem makeBelowA_run : Steps nameStep NameOp.Allowed (bootVolume blankFs)
    [(makeA, some 2), (makeBelowA, some 3)] volumeAB := by
  apply makeA_run.extend
  · exact Admissible.of_values (ascii "/a") (ascii "b") 4224 40980 rfl (by decide) (by decide)
      (by decide) (by decide +kernel) (by decide +kernel) (by decide +kernel) (by decide +kernel)
  · decide +kernel

theorem canonical_nameA : canonical nameA.chars = [ascii "a"] := by decide +kernel

theorem volumeA_built : BuiltTree [rootNode, nodeA] volumeA.fs := by
  have hbuilt := naming_run_built blankFs makeA_run
  have htree : treeOf [(makeA, some 2)] = [rootNode, nodeA] := by
    change [rootNode, ⟨canonical nameA.chars, 2, true⟩] = _
    rw [canonical_nameA, nodeA]
  rwa [htree] at hbuilt

theorem volumeAB_built : BuiltTree [rootNode, nodeA, nodeAB] volumeAB.fs := by
  have hbuilt := naming_run_built blankFs makeBelowA_run
  have hbelow : canonical (ascii "/a/b") = [ascii "a", ascii "b"] := by decide +kernel
  have htree : treeOf [(makeA, some 2), (makeBelowA, some 3)] = [rootNode, nodeA, nodeAB] := by
    change [rootNode, ⟨canonical nameA.chars, 2, true⟩, ⟨canonical (ascii "/a/b"), 3, true⟩] = _
    rw [canonical_nameA, hbelow, nodeA, nodeAB]
  rwa [htree] at hbuilt

theorem lookup_nameA (rest : FileTree) : lookup dotName dotdotName (rootNode :: nodeA :: rest)
    rootNode (components slash nameA.chars) = some nodeA := by
  have hcomps : components slash nameA.chars = [ascii "a"] := by decide +kernel
  rw [hcomps]
  rfl

/-- An empty directory of the root is removed. -/
theorem recursive_removal_empty :
    ∃ s', abyssfsRemoveRecursive maxPath volumeA.fs nameA.chars = some (0, s') ∧
      Removed [rootNode, nodeA] nodeA nameA.chars volumeA.fs s' := by
  have hvalue : (abyssfsRemoveRecursive maxPath volumeA.fs nameA.chars).map Prod.fst = some 0 := by
    decide +kernel
  obtain ⟨⟨result, s'⟩, hcall, hresult⟩ := Option.map_eq_some_iff.mp hvalue
  cases hresult
  have hfits : FitsBelow [rootNode, nodeA] nodeA nameA.chars := by
    unfold FitsBelow
    decide +kernel
  have hbuilt := volumeA_built
  refine ⟨s', hcall, (recursive_removal_iff _ _ hbuilt.reached hbuilt.mounted hbuilt.names rootNode
    nodeA rfl rfl nameA (by decide) (lookup_nameA []) hfits).mpr (fun _ => ?_) s' hcall⟩
  simp [rootNode, nodeA]

/-- The directory goes and leaves what was in it, with its inode and its block in use. -/
theorem removal_keeps_children : BuiltTree [rootNode, nodeA, nodeAB] volumeAB.fs ∧
    lookup dotName dotdotName [rootNode, nodeA, nodeAB] rootNode (components slash nameA.chars) =
      some nodeA ∧ FitsBelow [rootNode, nodeA, nodeAB] nodeA nameA.chars ∧
    ∃ s', abyssfsRemoveRecursive maxPath volumeAB.fs nameA.chars = some (0, s') ∧
      mode s'.mem (inodeAddr nodeAB.label) ≠ 0 ∧
      s'.used (nodeBlock volumeAB.fs.mem nodeAB) = true ∧
      ¬Removed [rootNode, nodeA, nodeAB] nodeA nameA.chars volumeAB.fs s' := by
  have hvalue : (abyssfsRemoveRecursive maxPath volumeAB.fs nameA.chars).map (fun r =>
      (r.1, mode r.2.mem (inodeAddr nodeAB.label),
        r.2.used (nodeBlock volumeAB.fs.mem nodeAB))) = some (0, 0x41FF, true) := by
    decide +kernel
  obtain ⟨⟨result, s'⟩, hcall, heq⟩ := Option.map_eq_some_iff.mp hvalue
  simp only [Prod.mk.injEq] at heq
  obtain ⟨rfl, hmode, hused⟩ := heq
  have hinUse : mode s'.mem (inodeAddr nodeAB.label) ≠ 0 := by
    rw [hmode]
    decide
  refine ⟨volumeAB_built, lookup_nameA [nodeAB], ?_, s', hcall, hinUse, hused, ?_⟩
  · unfold FitsBelow
    decide +kernel
  · intro hremoved
    exact hinUse (hremoved.freed nodeAB (by simp) (by decide))

end Chthon
