import Chthon.AbyssEdits
import Chthon.Lib.DirectoryTree

/-! The directory tree a file system state stands for. `Represents` ties an abstract tree, whose
labels are inode numbers, to the inode table, the bitmap and the blocks; under it the walk of
`get_inode_by_path` is a walk of the tree. -/

namespace Chthon

open ByteMemory DirectoryTree PathText

abbrev FileTree := Tree Str Nat
abbrev FileNode := Node Str Nat

def dotName : Str := ascii "."
def dotdotName : Str := ascii ".."

def DirEntry.key (r : DirEntry) : Nat × Str := (r.inode, r.name)

/-- The inode and name a directory records for one of its children. -/
def childKey (n : FileNode) : Nat × Str := (n.label, n.path.getLast?.getD [])

/-- What the block of directory `n` lists. -/
def listing (T : FileTree) (n parent : FileNode) : List (Nat × Str) :=
  (n.label, dotName) :: (parent.label, dotdotName) :: (children T n.path).map childKey

def nodeBlock (m : Memory) (n : FileNode) : Nat := blocks m (inodeAddr n.label)

structure Represents (T : FileTree) (s : Abyssfs) : Prop where
  tree : WellFormed dotName dotdotName T
  root : ∃ n, find T [] = some n ∧ n.label = 1 ∧ n.isDir = true
  range : ∀ n ∈ T, 1 ≤ n.label ∧ n.label < 512
  labels : (T.map Node.label).Nodup
  inUse : ∀ n ∈ T, mode s.mem (inodeAddr n.label) ≠ 0
  kind : ∀ n ∈ T, (mode s.mem (inodeAddr n.label)).testBit 14 = n.isDir
  directory : ∀ n ∈ T, n.isDir = true → ∃ parent rs, find T n.path.dropLast = some parent ∧
    DirAt s.mem (nodeBlock s.mem n) rs ∧ rs.map DirEntry.key = listing T n parent
  blockRange : ∀ n ∈ T, (n.isDir = false ∧ nodeBlock s.mem n = 0) ∨
    (9 ≤ nodeBlock s.mem n ∧ nodeBlock s.mem n < 64 ∧ s.used (nodeBlock s.mem n) = true)
  separate : ∀ n ∈ T, ∀ k ∈ T, nodeBlock s.mem n = nodeBlock s.mem k → nodeBlock s.mem n ≠ 0 →
    n = k

/-- No regular file has a block yet. -/
def Unwritten (T : FileTree) (s : Abyssfs) : Prop :=
  ∀ n ∈ T, n.isDir = false → nodeBlock s.mem n = 0

section

variable {T : FileTree} {s : Abyssfs} {n : FileNode}

theorem Represents.dirBlock (h : Represents T s) (hn : n ∈ T) (hdir : n.isDir = true) :
    9 ≤ nodeBlock s.mem n ∧ nodeBlock s.mem n < 64 ∧ s.used (nodeBlock s.mem n) = true := by
  rcases h.blockRange n hn with ⟨hfile, _⟩ | hblock
  · rw [hdir] at hfile
    cases hfile
  · exact hblock

theorem Represents.eq_of_label (h : Represents T s) {k : FileNode} (hn : n ∈ T) (hk : k ∈ T)
    (heq : n.label = k.label) : n = k :=
  List.inj_on_of_nodup_map h.labels hn hk heq

end

/-! Lookup. -/

theorem find?_key_none {rs : List DirEntry} {token : Str} (hnone : ∀ q ∈ rs, q.name ≠ token) :
    (rs.map DirEntry.key).find? (·.2 = token) = none := by
  rw [List.find?_eq_none]
  intro x hx
  obtain ⟨q, hq, rfl⟩ := List.mem_map.mp hx
  exact fun heq => hnone q hq (of_decide_eq_true heq)

/-- The search meets the first entry of a name. -/
theorem find?_key {pre post : List DirEntry} {r : DirEntry} {token : Str} (hr : r.name = token)
    (hpre : ∀ q ∈ pre, q.name ≠ token) :
    ((pre ++ r :: post).map DirEntry.key).find? (·.2 = token) = some r.key := by
  rw [List.map_append, List.find?_append, find?_key_none hpre, List.map_cons, Option.none_or,
    List.find?_cons_of_pos]
  exact decide_eq_true hr

/-- The search of a block by name, on the list of its entries. -/
theorem DirAt.findEntry_key {m : Memory} {b : Nat} {rs : List DirEntry} (h : DirAt m b rs)
    {token : Str} (htoken : 0 ∉ token) :
    ∃ found, findEntry m token heapSize (b * 4096) = some found ∧
      found.map (entryInode m) = ((rs.map DirEntry.key).find? (·.2 = token)).map Prod.fst := by
  have hlen := (Listing.bound h).2
  have hfuel : rs.length < heapSize := by simp [heapSize]; omega
  rcases Listing.findEntry htoken h hfuel with
    ⟨pre, r, post, e, rfl, hr, hpre, hpacked, hfind⟩ | ⟨hnone, hfind⟩
  · refine ⟨some e, hfind, ?_⟩
    have hinode : entryInode m e = r.inode := (Listing.drop h hpacked).head_inode
    rw [find?_key hr hpre, Option.map_some, Option.map_some, hinode, DirEntry.key]
  · refine ⟨none, hfind, ?_⟩
    rw [find?_key_none hnone]
    rfl

/-- A lookup goes through a directory by the first entry of the next name. -/
theorem DirAt.walkTokens_cons {m : Memory} {n b : Nat} {rs : List DirEntry} (h : DirAt m b rs)
    (hblock : blocks m (inodeAddr n) = b) (hpos : b ≠ 0) (hb : b < 64) {token : Str}
    (htoken : 0 ∉ token) (ts : List Str) :
    walkTokens m (token :: ts) (some (inodeAddr n)) =
      ((rs.map DirEntry.key).find? (·.2 = token)).elim (some none)
        fun key => walkTokens m ts (getInode key.1) := by
  obtain ⟨found, hfind, hinode⟩ := h.findEntry_key htoken
  rw [walkTokens, hblock, if_neg hpos, getBlock_of_lt hb]
  simp only [hfind]
  cases hkey : (rs.map DirEntry.key).find? (·.2 = token) with
  | none =>
      rw [hkey, Option.map_none, Option.map_eq_none_iff] at hinode
      rw [hinode]
      rfl
  | some key =>
      rw [hkey, Option.map_some, Option.map_eq_some_iff] at hinode
      obtain ⟨e, rfl, he⟩ := hinode
      rw [Option.elim_some, ← he]

theorem path_eq_iff (p q : List Str) (t : Str) :
    (q ≠ [] ∧ q.dropLast = p) ∧ q.getLast?.getD [] = t ↔ q = p ++ [t] := by
  constructor
  · rintro ⟨⟨hne, rfl⟩, rfl⟩
    rw [List.getLast?_eq_getLast_of_ne_nil hne, Option.getD_some, List.dropLast_append_getLast hne]
  · rintro rfl
    simp

/-- The first child of a given name is the node one step further down. -/
theorem children_find (T : FileTree) (p : List Str) (t : Str) :
    (((children T p).map childKey).find? (·.2 = t)).map Prod.fst =
      (find T (p ++ [t])).map Node.label := by
  have hfind : (children T p).find? (fun k => (childKey k).2 = t) = find T (p ++ [t]) := by
    rw [children, List.find?_filter, find]
    congr 1
    funext k
    rw [Bool.eq_iff_iff]
    simp only [decide_eq_true_iff]
    exact path_eq_iff p k.path t
  rw [List.find?_map, Option.map_map, ← hfind]
  rfl

/-- What a directory's own listing says about a name is one step in the tree. -/
theorem listing_find (T : FileTree) {n parent : FileNode} (hdir : n.isDir = true)
    (hparent : find T n.path.dropLast = some parent) (t : Str) :
    ((listing T n parent).find? (·.2 = t)).map Prod.fst =
      (step dotName dotdotName T n t).map Node.label := by
  rw [listing, step, if_pos hdir]
  by_cases hdot : t = dotName
  · rw [List.find?_cons_of_pos (by simp [hdot]), if_pos hdot]
    rfl
  rw [List.find?_cons_of_neg (by simpa using Ne.symm hdot), if_neg hdot]
  by_cases hdotdot : t = dotdotName
  · rw [List.find?_cons_of_pos (by simp [hdotdot]), if_pos hdotdot, hparent]
    rfl
  · rw [List.find?_cons_of_neg (by simpa using Ne.symm hdotdot), if_neg hdotdot, children_find]

/-- No regular file that the walk meets has data it could take for a directory. -/
def ClearWalk (T : FileTree) (m : Memory) (n : FileNode) (ts : List Str) : Prop :=
  ∀ us, us <+: ts → ∀ k, lookup dotName dotdotName T n us = some k → k.isDir = false →
    nodeBlock m k = 0

theorem Unwritten.clearWalk {T : FileTree} {s : Abyssfs} (h : Unwritten T s) {n : FileNode}
    (hn : n ∈ T) (ts : List Str) : ClearWalk T s.mem n ts :=
  fun _ _ k hk hfile => h k (lookup_mem hn hk) hfile

theorem ClearWalk.tail {T : FileTree} {m : Memory} {n k : FileNode} {t : Str} {ts : List Str}
    (h : ClearWalk T m n (t :: ts)) (hstep : step dotName dotdotName T n t = some k) :
    ClearWalk T m k ts := by
  intro us hus j hj
  apply h (t :: us) (List.cons_prefix_cons.mpr ⟨rfl, hus⟩)
  rw [lookup, hstep, Option.bind_some, hj]

/-- `get_inode_by_path` follows the tree along a clear walk. -/
theorem Represents.walkTokens_eq {T : FileTree} {s : Abyssfs} (h : Represents T s) {n : FileNode}
    (hn : n ∈ T) {ts : List Str} (hclear : ClearWalk T s.mem n ts) (hts : ∀ t ∈ ts, 0 ∉ t) :
    walkTokens s.mem ts (some (inodeAddr n.label)) =
      some ((lookup dotName dotdotName T n ts).map fun k => inodeAddr k.label) := by
  induction ts generalizing n with
  | nil => rfl
  | cons t ts ih =>
      cases hdir : n.isDir with
      | false =>
          have hblock : blocks s.mem (inodeAddr n.label) = 0 :=
            hclear [] List.nil_prefix n rfl hdir
          rw [walkTokens, if_pos hblock, lookup, step, hdir]
          rfl
      | true =>
          obtain ⟨hlo, hhi, _⟩ := h.dirBlock hn hdir
          obtain ⟨parent, rs, hparent, hrs, hkeys⟩ := h.directory n hn hdir
          have hinode := listing_find T hdir hparent t
          rw [hrs.walkTokens_cons rfl (by omega) hhi (hts t List.mem_cons_self), hkeys]
          cases hstep : step dotName dotdotName T n t with
          | none =>
              rw [hstep, Option.map_none, Option.map_eq_none_iff] at hinode
              rw [hinode, lookup, hstep]
              rfl
          | some k =>
              rw [hstep, Option.map_some, Option.map_eq_some_iff] at hinode
              obtain ⟨key, hfind, hlabel⟩ := hinode
              have hk : k ∈ T := lookup_mem hn (show lookup dotName dotdotName T n [t] = some k by
                rw [lookup_singleton, hstep])
              rw [hfind, Option.elim_some, hlabel, getInode_of_lt (h.range k hk).2,
                ih hk (hclear.tail hstep) fun u hu => hts u (List.mem_cons_of_mem _ hu), lookup,
                hstep]
              rfl

/-! Keeping and extending the tree. -/

/-- Writes that spare the inodes and the directory blocks of the tree do not change what is
represented. -/
theorem Represents.frame {T : FileTree} {s s' : Abyssfs} (h : Represents T s)
    (hinodes : ∀ n ∈ T, SameInode s.mem s'.mem n.label)
    (hdirs : ∀ n ∈ T, n.isDir = true → ∀ x, nodeBlock s.mem n * 4096 ≤ x →
      x < nodeBlock s.mem n * 4096 + 4096 → s'.mem x = s.mem x)
    (hused : ∀ n ∈ T, s.used (nodeBlock s.mem n) = true → s'.used (nodeBlock s.mem n) = true) :
    Represents T s' := by
  have hblock : ∀ n ∈ T, nodeBlock s'.mem n = nodeBlock s.mem n := fun n hn => (hinodes n hn).blocks
  refine ⟨h.tree, h.root, h.range, h.labels, ?_, ?_, ?_, ?_, ?_⟩
  · intro n hn
    rw [(hinodes n hn).mode]
    exact h.inUse n hn
  · intro n hn
    rw [(hinodes n hn).mode]
    exact h.kind n hn
  · intro n hn hdir
    obtain ⟨parent, rs, hparent, hrs, hkeys⟩ := h.directory n hn hdir
    rw [hblock n hn]
    exact ⟨parent, rs, hparent, hrs.congr (hdirs n hn hdir), hkeys⟩
  · intro n hn
    rw [hblock n hn]
    rcases h.blockRange n hn with hfile | ⟨hlo, hhi, hbit⟩
    · exact Or.inl hfile
    · exact Or.inr ⟨hlo, hhi, hused n hn hbit⟩
  · intro n hn k hk
    rw [hblock n hn, hblock k hk]
    exact h.separate n hn k hk

/-- What the inode of a node about to be added looks like: an unwritten file, or a directory whose
block lists only itself and its parent and belongs to no other node. -/
structure ReadyNode (T : FileTree) (s : Abyssfs) (parent k : FileNode) : Prop where
  range : 1 ≤ k.label ∧ k.label < 512
  fresh : ∀ j ∈ T, j.label ≠ k.label
  inUse : mode s.mem (inodeAddr k.label) ≠ 0
  kind : (mode s.mem (inodeAddr k.label)).testBit 14 = k.isDir
  block : (k.isDir = false ∧ nodeBlock s.mem k = 0) ∨
    (9 ≤ nodeBlock s.mem k ∧ nodeBlock s.mem k < 64 ∧ s.used (nodeBlock s.mem k) = true)
  separate : ∀ j ∈ T, nodeBlock s.mem j = nodeBlock s.mem k → nodeBlock s.mem k = 0
  listed : k.isDir = true → ∃ rs, DirAt s.mem (nodeBlock s.mem k) rs ∧
    rs.map DirEntry.key = [(k.label, dotName), (parent.label, dotdotName)]

theorem children_new {T : FileTree} (h : WellFormed dotName dotdotName T) {k : FileNode}
    (hfresh : find T k.path = none) (hne : k.path ≠ []) : children (T ++ [k]) k.path = [] := by
  rw [children, List.filter_eq_nil_iff]
  intro j hj
  simp only [decide_eq_true_eq, not_and]
  intro hjne heq
  rcases List.mem_append.mp hj with hj | hj
  · obtain ⟨p, hp, _⟩ := h.parent j hj hjne
    rw [heq, hfresh] at hp
    cases hp
  · rw [List.mem_singleton.mp hj] at heq
    have := congrArg List.length heq
    rw [List.length_dropLast] at this
    have := List.length_pos_iff.mpr hne
    omega

/-- Appending a record for a prepared inode adds its node to the tree. -/
theorem Represents.extend {T : FileTree} {s : Abyssfs} (h : Represents T s) {n k : FileNode}
    {name : Str} (hn : n ∈ T) (hdir : n.isDir = true) (hpath : k.path = n.path ++ [name])
    (hfresh : find T k.path = none) (hplain : Plain dotName dotdotName name) (hnul : 0 ∉ name)
    (hshort : name.length ≤ 245) (hready : ReadyNode T s n k)
    (hroom : ∀ e, appendPosition s.mem (nodeBlock s.mem n) = some e →
      e + (minRecLen name.length).toNat + 6 ≤ nodeBlock s.mem n * 4096 + 4096) :
    ∃ e m', appendEntry s.mem (nodeBlock s.mem n) k.label name = some (e, m') ∧
      OnlyBlock s.mem m' (nodeBlock s.mem n) ∧ Represents (T ++ [k]) { s with mem := m' } := by
  obtain ⟨hlo, hhi, hbit⟩ := h.dirBlock hn hdir
  obtain ⟨parent, rs, hparent, hrs, hkeys⟩ := h.directory n hn hdir
  have hlabel := hready.range
  let r : DirEntry := ⟨k.label, name, by omega, hnul, hshort⟩
  have hfits : extent rs + r.span + 6 ≤ 4096 := by
    have := hroom _ (appendPosition_dir hhi hrs)
    rw [r.minRecLen_eq] at this
    omega
  obtain ⟨m', happend, hdir', honly⟩ := appendEntry_dir hhi hrs r hfits
  refine ⟨_, m', happend, honly, ?_⟩
  have hinode : ∀ j, j < 512 → SameInode s.mem m' j := fun j hj =>
    SameInode.of_data hj fun x hx => honly x (by omega)
  have hsame : ∀ j ∈ T ++ [k], nodeBlock m' j = nodeBlock s.mem j := by
    intro j hj
    refine (hinode j.label ?_).blocks
    rcases List.mem_append.mp hj with hj | hj
    · exact (h.range j hj).2
    · rw [List.mem_singleton.mp hj]
      exact hlabel.2
  have hne : k.path ≠ [] := by simp [hpath]
  have hup : k.path.dropLast = n.path := by simp [hpath]
  have hfindn : find T n.path = some n := h.tree.find_mem hn
  have hkn : nodeBlock s.mem k ≠ nodeBlock s.mem n := by
    intro heq
    have := hready.separate n hn heq.symm
    omega
  have hwf := h.tree.insert hfresh ⟨n, by rw [hup, hfindn], hdir⟩ (by
    intro t ht
    rw [hpath, List.mem_append, List.mem_singleton] at ht
    rcases ht with ht | rfl
    · exact h.tree.plain n hn t ht
    · exact hplain)
  have hchildren : ∀ j ∈ T, j ≠ n → children (T ++ [k]) j.path = children T j.path := by
    intro j hj hjn
    rw [children_insert, if_neg, List.append_nil]
    rintro ⟨_, heq⟩
    rw [hup] at heq
    exact hjn (List.inj_on_of_nodup_map h.tree.nodup hj hn heq.symm)
  refine ⟨hwf, ?_, ?_, ?_, ?_, ?_, ?_, ?_, ?_⟩
  · obtain ⟨root, hroot, hone, hrootdir⟩ := h.root
    exact ⟨root, find_insert_of_some hfresh hroot, hone, hrootdir⟩
  · intro j hj
    rcases List.mem_append.mp hj with hj | hj
    · exact h.range j hj
    · rw [List.mem_singleton.mp hj]
      exact hlabel
  · rw [List.map_append, List.map_singleton, List.nodup_append]
    refine ⟨h.labels, List.nodup_singleton _, ?_⟩
    intro a ha b hb heq
    obtain ⟨j, hj, rfl⟩ := List.mem_map.mp ha
    exact hready.fresh j hj (heq.trans (List.mem_singleton.mp hb))
  · intro j hj
    rcases List.mem_append.mp hj with hj | hj
    · rw [(hinode j.label (h.range j hj).2).mode]
      exact h.inUse j hj
    · rw [List.mem_singleton.mp hj, (hinode k.label hlabel.2).mode]
      exact hready.inUse
  · intro j hj
    rcases List.mem_append.mp hj with hj | hj
    · rw [(hinode j.label (h.range j hj).2).mode]
      exact h.kind j hj
    · rw [List.mem_singleton.mp hj, (hinode k.label hlabel.2).mode]
      exact hready.kind
  · intro j hj hjdir
    rw [hsame j hj]
    rcases List.mem_append.mp hj with hj | hj
    · by_cases hjn : j = n
      · -- the parent itself: one more child
        subst hjn
        refine ⟨parent, rs ++ [r], find_insert_of_some hfresh hparent, hdir', ?_⟩
        rw [List.map_append, hkeys, listing, listing, children_insert, if_pos ⟨hne, hup⟩]
        simp [childKey, DirEntry.key, hpath, r]
      · obtain ⟨jparent, js, hjparent, hjs, hjkeys⟩ := h.directory j hj hjdir
        have hblocks : nodeBlock s.mem j ≠ nodeBlock s.mem n := by
          intro heq
          have := (h.dirBlock hj hjdir).1
          exact hjn (h.separate j hj n hn heq (by omega))
        refine ⟨jparent, js, find_insert_of_some hfresh hjparent, hjs.other honly hblocks, ?_⟩
        rw [hjkeys, listing, listing, hchildren j hj hjn]
    · rw [List.mem_singleton.mp hj] at hjdir ⊢
      obtain ⟨ks, hks, hkkeys⟩ := hready.listed hjdir
      refine ⟨n, ks, ?_, hks.other honly hkn, ?_⟩
      · rw [hup]
        exact find_insert_of_some hfresh hfindn
      · rw [hkkeys, listing, children_new h.tree hfresh hne]
        rfl
  · intro j hj
    rw [hsame j hj]
    rcases List.mem_append.mp hj with hj | hj
    · exact h.blockRange j hj
    · rw [List.mem_singleton.mp hj]
      exact hready.block
  · intro i hi j hj
    rw [hsame i hi, hsame j hj]
    intro heq hnz
    rcases List.mem_append.mp hi with hi | hi <;> rcases List.mem_append.mp hj with hj | hj
    · exact h.separate i hi j hj heq hnz
    · rw [List.mem_singleton.mp hj] at heq
      exact absurd (heq.trans (hready.separate i hi heq)) hnz
    · rw [List.mem_singleton.mp hi] at heq hnz
      exact absurd (hready.separate j hj heq.symm) hnz
    · rw [List.mem_singleton.mp hi, List.mem_singleton.mp hj]

end Chthon
