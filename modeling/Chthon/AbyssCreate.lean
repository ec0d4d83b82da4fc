import Chthon.AbyssTree

/-! `abyssfs_create` and `abyssfs_mkdir` on a represented tree: both find the parent by a walk over
the components before the last slash, and either fail without touching the tree or add one node. -/

namespace Chthon

open ByteMemory DirectoryTree PathText

/-! The parent directory of an absolute path. -/

/-- What fits the buffer of `get_inode_by_path` is looked up component by component. -/
theorem getInodeByPath_take (m : Memory) (path : Str) :
    getInodeByPath m path =
      walkTokens m (components slash ((skipSlash path).take 255)) (some rootInode) := by
  rw [getInodeByPath]
  simp only [maxPath, Nat.reduceSub]
  split_ifs with hnil
  · rw [hnil]
    rfl
  · rw [tokens_eq_components]

theorem getInodeByPath_eq (m : Memory) {path : Str} (hlen : (skipSlash path).length ≤ 255) :
    getInodeByPath m path = walkTokens m (components slash path) (some rootInode) := by
  rw [getInodeByPath_take, List.take_of_length_le hlen, components_skipSlash]

theorem skipSlash_length_le (path : Str) : (skipSlash path).length ≤ path.length := by
  cases path with
  | nil => exact le_rfl
  | cons c cs =>
      rw [skipSlash]
      split_ifs
      · simp
      · exact le_rfl

theorem skipSlash_slash (rest : Str) : skipSlash (slash :: rest) = rest := by
  rw [skipSlash, if_pos rfl]

/-- Skipping slashes in front of a path that is short enough does not change its lookup. -/
theorem getInodeByPath_cons (m : Memory) {path : Str} (hlen : path.length ≤ 255) :
    getInodeByPath m (slash :: path) = getInodeByPath m path := by
  rw [getInodeByPath_eq m (by rwa [skipSlash_slash]), getInodeByPath_eq m
    ((skipSlash_length_le path).trans hlen), components_sep_cons]

/-- Only a path with a single slash is completed with the working directory. -/
theorem createParent_absolute (m : Memory) {cwd : Option Str} {rest d base : Str}
    (hlen : rest.length ≤ 255) (hsplit : splitLast slash (slash :: rest) = some (d, base))
    (hcwd : d = [] → cwd = some (ascii "/")) :
    createParent m cwd rest = (getInodeByPath m d).map (·.map (·, base)) := by
  obtain ⟨heq, hbase⟩ := eq_of_splitLast slash hsplit
  unfold createParent
  rw [maxPath, List.take_of_length_le hlen]
  cases d with
  | nil =>
      simp only [List.nil_append, List.cons.injEq, true_and] at heq
      subst heq
      rw [(splitLast_eq_none slash).mpr hbase, hcwd rfl]
      simp [getInodeByPath, skipSlash]
  | cons c d =>
      simp only [List.cons_append, List.cons.injEq] at heq
      obtain ⟨rfl, rfl⟩ := heq
      rw [splitLast_append slash hbase]
      simp only [List.length_append, List.length_cons] at hlen
      rw [getInodeByPath_cons m (by omega)]
      simp only
      split_ifs with hd
      · subst hd
        simp [getInodeByPath, skipSlash]
      · rfl

theorem mkdirParent_absolute (m : Memory) {rest d base : Str} (hlen : (slash :: rest).length ≤ 255)
    (hsplit : splitLast slash (slash :: rest) = some (d, base)) (hbase : base ≠ []) :
    mkdirParent m (slash :: rest) =
      (getInodeByPath m d).map (·.map fun p => (p, parentInodeNum p, base)) := by
  obtain ⟨heq, _⟩ := eq_of_splitLast slash hsplit
  have hroot : parentInodeNum rootInode = 1 := parentInodeNum_inodeAddr (by omega) (by omega)
  rw [mkdirParent, maxPath, if_neg (by omega), hsplit]
  simp only
  rw [if_neg hbase]
  split_ifs with hd
  · have hone : getInodeByPath m d = some (some rootInode) := by
      rcases hd with rfl | rfl
      · rfl
      · rfl
    simp [hone, hroot]
  · rw [not_or] at hd
    cases d with
    | nil => exact absurd rfl hd.1
    | cons c d =>
        simp only [List.cons_append, List.cons.injEq] at heq
        obtain ⟨rfl, rfl⟩ := heq
        simp only [List.length_cons, List.length_append] at hlen
        rw [List.tail_cons, getInodeByPath_cons m (by omega)]

/-! Adding a file to a represented tree. -/

/-- The node a successful call adds. -/
def newNode (parent : FileNode) (base : Str) (inode : Nat) (isDir : Bool) : FileNode :=
  ⟨parent.path ++ [base], inode, isDir⟩

theorem directoryBlock_of_ne {m : Memory} {p : Nat} (h : blocks m p ≠ 0) :
    directoryBlock m p = some (blocks m p) := by
  rw [directoryBlock, if_neg h]

section Represented

variable {T : FileTree} {s : Abyssfs} {root n : FileNode} {path d base : Str}

/-- Taking a free inode changes nothing the tree is read from. -/
theorem Represents.alloc (h : Represents T s) {i : Nat} (hi : i < 512)
    (hfree : mode s.mem (inodeAddr i) = 0) :
    Represents T { s with mem := freshInode s.mem i } ∧ ∀ j ∈ T, j.label ≠ i := by
  have hlabel : ∀ j ∈ T, j.label ≠ i := by
    rintro j hj rfl
    exact h.inUse j hj hfree
  refine ⟨h.frame (fun j hj => freshInode_other s.mem (hlabel j hj)) ?_ fun _ _ hused => hused,
    hlabel⟩
  intro n hn hdir x hlo _
  have := (h.dirBlock hn hdir).1
  exact freshInode_outside s.mem (by rw [inodeAddr_eq]; omega)

/-- `get_inode_by_path` of a path that fits its buffer. -/
theorem Represents.lookup_eq (h : Represents T s) (hroot : find T [] = some root)
    (hclear : ClearWalk T s.mem root (components slash path)) (hnul : 0 ∉ path)
    (hlen : (skipSlash path).length ≤ 255) :
    getInodeByPath s.mem path = some ((lookup dotName dotdotName T root
      (components slash path)).map fun k => inodeAddr k.label) := by
  obtain ⟨root', hroot', hone, _⟩ := h.root
  rw [hroot] at hroot'
  cases hroot'
  rw [getInodeByPath_eq s.mem hlen, rootInode_eq, ← hone]
  apply h.walkTokens_eq (find_some hroot).1 hclear
  exact fun t ht hzero => hnul ((mem_components slash ht).2 0 hzero)

/-- A regular file without a block is not the root: the calls give up on it as a parent. -/
theorem Represents.file_block (h : Represents T s) (hn : n ∈ T) (hfile : n.isDir = false)
    (hzero : nodeBlock s.mem n = 0) : directoryBlock s.mem (inodeAddr n.label) = none := by
  obtain ⟨root, hroot, hone, hdir⟩ := h.root
  rw [directoryBlock, if_pos (show blocks s.mem (inodeAddr n.label) = 0 from hzero), if_neg]
  rw [rootInode_eq, inodeAddr_inj]
  intro heq
  rw [h.eq_of_label hn (find_some hroot).1 (heq.trans hone.symm), hdir] at hfile
  cases hfile

/-- Below a directory that exists, the last name of a path that leads nowhere is plain and not
taken. -/
theorem Represents.base_fresh (h : Represents T s) (hn : n ∈ T) (hdir : n.isDir = true)
    (hstep : step dotName dotdotName T n base = none) :
    Plain dotName dotdotName base ∧ find T (n.path ++ [base]) = none := by
  rw [step, if_pos hdir] at hstep
  obtain ⟨up, _, hup, _, _⟩ := h.directory n hn hdir
  by_cases hdot : base = dotName
  · simp [hdot] at hstep
  by_cases hdotdot : base = dotdotName
  · rw [if_neg hdot, if_pos hdotdot, hup] at hstep
    cases hstep
  · rw [if_neg hdot, if_neg hdotdot] at hstep
    exact ⟨⟨hdot, hdotdot⟩, hstep⟩

/-- The inode `alloc_inode` hands out, as the node of a new file. -/
theorem Represents.ready_file (h : Represents T s) {i : Nat} (h1 : 1 ≤ i) (hi : i < 512)
    (hfree : mode s.mem (inodeAddr i) = 0) (n : FileNode) (base : Str) :
    ReadyNode T { s with mem := freshInode s.mem i } n (newNode n base i false) := by
  refine ⟨⟨h1, hi⟩, (h.alloc hi hfree).2, ?_, ?_, Or.inl ⟨rfl, freshInode_blocks _ _⟩, ?_, ?_⟩
  · simp [newNode, freshInode_mode, fileMode]
  · simp only [newNode, freshInode_mode]
    decide
  · exact fun _ _ _ => freshInode_blocks _ _
  · intro hfalse
    cases hfalse

/-- Room in a directory's block does not depend on the rest of the memory. -/
theorem Represents.room_congr (h : Represents T s) (hn : n ∈ T) (hdir : n.isDir = true)
    {m : Memory} (hsame : SameInode s.mem m n.label)
    (hblock : ∀ x, nodeBlock s.mem n * 4096 ≤ x → x < nodeBlock s.mem n * 4096 + 4096 →
      m x = s.mem x) (hroom : AppendRoom s.mem (nodeBlock s.mem n) base) :
    AppendRoom m (nodeBlock m n) base := by
  obtain ⟨_, rs, _, hrs, _⟩ := h.directory n hn hdir
  have hhi := (h.dirBlock hn hdir).2.1
  have hnode : nodeBlock m n = nodeBlock s.mem n := hsame.blocks
  refine ⟨hroom.1, ?_⟩
  intro e he
  rw [hnode] at he ⊢
  rw [appendPosition_dir hhi (hrs.congr hblock), ← appendPosition_dir hhi hrs] at he
  exact hroom.2 e he

/-- What `abyssfs_create` does with an absolute path: nothing if no inode is free; an inode is lost
if there is no directory to put it into; otherwise the tree grows by one file, whether or not there
is heap left for the handle. -/
theorem Represents.create (h : Represents T s) (heapPos : Nat) {cwd : Option Str} {rest : Str}
    (hroot : find T [] = some root) (hpath : path = slash :: rest) (hlen : path.length ≤ 255)
    (hnul : 0 ∉ path) (hsplit : splitLast slash path = some (d, base))
    (hcwd : d = [] → cwd = some (ascii "/"))
    (hclear : ClearWalk T s.mem root (components slash d))
    (hfresh : ∀ n, lookup dotName dotdotName T root (components slash d) = some n →
      n.isDir = true → step dotName dotdotName T n base = none ∧
        AppendRoom s.mem (nodeBlock s.mem n) base) :
    abyssfsCreate heapPos s cwd path = some (none, heapPos, s) ∨
    ∃ i, 1 ≤ i ∧ i < 512 ∧ mode s.mem (inodeAddr i) = 0 ∧ (allocInode s).1 = i ∧
      (abyssfsCreate heapPos s cwd path =
          some (none, heapPos, { s with mem := freshInode s.mem i }) ∨
        ∃ n m', lookup dotName dotdotName T root (components slash d) = some n ∧
          n.isDir = true ∧ OnlyBlock (freshInode s.mem i) m' (nodeBlock s.mem n) ∧
          Represents (T ++ [newNode n base i false]) { s with mem := m' } ∧
          abyssfsCreate heapPos s cwd path =
            some ((kalloc heapPos vfsFileSize).1.map fun _ => ⟨.abyssfs, i, 0⟩,
              (kalloc heapPos vfsFileSize).2, { s with mem := m' })) := by
  subst hpath
  obtain ⟨hcut, _⟩ := eq_of_splitLast slash hsplit
  have hdnul : 0 ∉ d := fun hz => hnul (hcut ▸ List.mem_append_left _ hz)
  have hbnul : 0 ∉ base := fun hz =>
    hnul (hcut ▸ List.mem_append_right _ (List.mem_cons_of_mem _ hz))
  have hdlen : d.length ≤ 254 := by
    have := congrArg List.length hcut
    simp only [List.length_cons, List.length_append] at this hlen
    omega
  rcases allocInode_cases s with ⟨halloc, _⟩ | ⟨i, hi1, hi, hfree, halloc⟩
  · exact Or.inl (by simp [abyssfsCreate, halloc])
  refine Or.inr ⟨i, hi1, hi, hfree, by rw [halloc], ?_⟩
  obtain ⟨hrep, hlabels⟩ := h.alloc hi hfree
  have hother : ∀ j ∈ T, SameInode s.mem (freshInode s.mem i) j.label := fun j hj =>
    freshInode_other s.mem (hlabels j hj)
  have hclear₁ : ClearWalk T (freshInode s.mem i) root (components slash d) := by
    intro us hus k hk hfile
    have hkT := lookup_mem (find_some hroot).1 hk
    rw [nodeBlock, (hother k hkT).blocks]
    exact hclear us hus k hk hfile
  have hlookup := hrep.lookup_eq hroot hclear₁ hdnul ((skipSlash_length_le d).trans (by omega))
  simp only [List.length_cons] at hlen
  rw [abyssfsCreate_of_alloc heapPos _ _ halloc hi1, skipSlash_slash, createFile,
    createParent_absolute _ (by omega) hsplit hcwd, hlookup]
  cases hn : lookup dotName dotdotName T root (components slash d) with
  | none => exact Or.inl (by simp)
  | some n =>
      have hmem := lookup_mem (find_some hroot).1 hn
      cases hdir : n.isDir with
      | false =>
          left
          simp [hrep.file_block hmem hdir (hclear₁ _ List.prefix_rfl n hn hdir)]
      | true =>
          obtain ⟨hstep, hroom⟩ := hfresh n hn hdir
          obtain ⟨hplain, hfind⟩ := h.base_fresh hmem hdir hstep
          have hlo := (h.dirBlock hmem hdir).1
          have hblock : nodeBlock (freshInode s.mem i) n = nodeBlock s.mem n :=
            (hother n hmem).blocks
          have hroom₁ := h.room_congr hmem hdir (hother n hmem) (fun x hx _ =>
            freshInode_outside s.mem (by rw [inodeAddr_eq]; omega)) hroom
          obtain ⟨e, m', happend, honly, hrep'⟩ := hrep.extend hmem hdir rfl hfind hplain hbnul
            hroom.1 (h.ready_file hi1 hi hfree n base) hroom₁.2
          rw [hblock] at happend honly
          refine Or.inr ⟨n, m', rfl, hdir, honly, hrep', ?_⟩
          have hdb : directoryBlock (freshInode s.mem i) (inodeAddr n.label) =
              some (nodeBlock s.mem n) := by
            rw [← hblock]
            apply directoryBlock_of_ne
            rw [show blocks (freshInode s.mem i) (inodeAddr n.label) = nodeBlock s.mem n from hblock]
            omega
          simp only [newNode] at happend
          simp only [Option.map_some, hdb, happend]
          cases hkalloc : kalloc heapPos vfsFileSize with
          | mk addr heapPos' => cases addr <;> simp

end Represented

/-! Preparing an inode. -/

def freeInodes (m : Memory) : Nat :=
  ((Finset.range 512).filter fun n => 1 ≤ n ∧ mode m (inodeAddr n) = 0).card

theorem freeInodes_congr {m m' : Memory}
    (h : ∀ n < 512, mode m' (inodeAddr n) = 0 ↔ mode m (inodeAddr n) = 0) :
    freeInodes m' = freeInodes m := by
  apply congrArg Finset.card
  apply Finset.filter_congr
  intro n hn
  rw [h n (Finset.mem_range.mp hn)]

theorem freeInodes_freshInode {m : Memory} {i : Nat} (h1 : 1 ≤ i) (hi : i < 512)
    (hfree : mode m (inodeAddr i) = 0) : freeInodes (freshInode m i) + 1 = freeInodes m := by
  have hset : ((Finset.range 512).filter fun n => 1 ≤ n ∧ mode (freshInode m i) (inodeAddr n) = 0) =
      ((Finset.range 512).filter fun n => 1 ≤ n ∧ mode m (inodeAddr n) = 0).erase i := by
    ext n
    simp only [Finset.mem_filter, Finset.mem_erase, Finset.mem_range]
    by_cases hn : n = i
    · subst hn
      simp [freshInode_mode, fileMode]
    · simp [(freshInode_other m hn).mode, hn]
  have hmem : i ∈ (Finset.range 512).filter fun n => 1 ≤ n ∧ mode m (inodeAddr n) = 0 := by
    simp [h1, hi, hfree]
  rw [freeInodes, freeInodes, hset, Finset.card_erase_add_one hmem]

/-- What holds between calls that only create: the tree is represented, no file has been written,
free data blocks are still zero, and the heap has room for a handle per free inode. -/
structure NamingInv (T : FileTree) (heapPos : Nat) (s : Abyssfs) : Prop where
  rep : Represents T s
  unwritten : Unwritten T s
  zero : ∀ b, 9 ≤ b → b < 64 → s.used b = false → ∀ x, b * 4096 ≤ x → x < b * 4096 + 4096 →
    s.mem x = 0
  heap : heapPos + vfsFileSize * freeInodes s.mem ≤ heapSize

theorem NamingInv.alloc {T : FileTree} {heapPos : Nat} {s : Abyssfs} (h : NamingInv T heapPos s)
    {i : Nat} (h1 : 1 ≤ i) (hi : i < 512) (hfree : mode s.mem (inodeAddr i) = 0) :
    NamingInv T (heapPos + vfsFileSize) { s with mem := freshInode s.mem i } ∧
      ∀ j ∈ T, j.label ≠ i := by
  have hlabel : ∀ j ∈ T, j.label ≠ i := by
    rintro j hj rfl
    exact h.rep.inUse j hj hfree
  have hdata : ∀ x, 36864 ≤ x → freshInode s.mem i x = s.mem x := fun x hx =>
    freshInode_outside s.mem (by rw [inodeAddr_eq]; omega)
  have hsame : ∀ j ∈ T, SameInode s.mem (freshInode s.mem i) j.label := fun j hj =>
    freshInode_other s.mem (hlabel j hj)
  refine ⟨⟨h.rep.frame hsame ?_ fun _ _ hused => hused, ?_, ?_, ?_⟩, hlabel⟩
  · intro n hn hdir x hlo _
    have := (h.rep.dirBlock hn hdir).1
    exact hdata x (by omega)
  · intro n hn hfile
    rw [nodeBlock, (hsame n hn).blocks]
    exact h.unwritten n hn hfile
  · intro b hlo hhi hused x hx hx'
    calc freshInode s.mem i x = s.mem x := hdata x (by omega)
      _ = 0 := h.zero b hlo hhi hused x hx hx'
  · have hcount := freeInodes_freshInode h1 hi hfree
    have := h.heap
    simp only [vfsFileSize] at this ⊢
    omega

theorem NamingInv.weaken {T : FileTree} {heapPos heapPos' : Nat} {s : Abyssfs}
    (h : NamingInv T heapPos' s) (hle : heapPos ≤ heapPos') : NamingInv T heapPos s :=
  ⟨h.rep, h.unwritten, h.zero, by have := h.heap; omega⟩

/-- `get_inode_by_path` in a state that only creates have led to. -/
theorem NamingInv.lookup_take {T : FileTree} {heapPos : Nat} {s : Abyssfs}
    (h : NamingInv T heapPos s) {root : FileNode} (hroot : find T [] = some root) {path : Str}
    (hnul : 0 ∉ path) :
    getInodeByPath s.mem path = some ((lookup dotName dotdotName T root
      (components slash ((skipSlash path).take 255))).map fun k => inodeAddr k.label) := by
  obtain ⟨root', hroot', hone, _⟩ := h.rep.root
  rw [hroot] at hroot'
  cases hroot'
  rw [getInodeByPath_take, rootInode_eq, ← hone]
  have hmem := (find_some hroot).1
  apply h.rep.walkTokens_eq hmem (h.unwritten.clearWalk hmem _)
  intro t ht hzero
  exact skipSlash_nul_free hnul (List.mem_of_mem_take ((mem_components slash ht).2 0 hzero))

theorem NamingInv.lookup_eq {T : FileTree} {heapPos : Nat} {s : Abyssfs} (h : NamingInv T heapPos s)
    {root : FileNode} (hroot : find T [] = some root) {path : Str} (hnul : 0 ∉ path)
    (hlen : (skipSlash path).length ≤ 255) :
    getInodeByPath s.mem path = some ((lookup dotName dotdotName T root
      (components slash path)).map fun k => inodeAddr k.label) := by
  rw [h.lookup_take hroot hnul, List.take_of_length_le hlen, components_skipSlash]

/-! The calls. -/

/-- What a call asks of its path and of the directory it names: an absolute path of at most 255
bytes, whose last component is non-empty, fits an 8-bit record length and is not there yet, with at
least six bytes to spare behind the new record. -/
structure Admissible (m : Memory) (path : Str) : Prop where
  absolute : ∃ rest, path = slash :: rest
  short : path.length ≤ 255
  base : ∀ d base, splitLast slash path = some (d, base) → base ≠ [] ∧ base.length ≤ 245
  absent : ∀ p, getInodeByPath m path ≠ some (some p)
  spare : ∀ d base p e, splitLast slash path = some (d, base) →
    getInodeByPath m d = some (some p) → appendPosition m (blocks m p) = some e →
      e + (minRecLen base.length).toNat + 6 ≤ blocks m p * 4096 + 4096

section Calls

variable {T : FileTree} {heapPos : Nat} {s : Abyssfs} {root : FileNode} {path d base : Str}

/-- An admissible path cut at its last slash. -/
theorem Admissible.cut (ha : Admissible s.mem path) :
    ∃ rest d base, path = slash :: rest ∧ rest.length ≤ 254 ∧
      splitLast slash path = some (d, base) ∧ d.length ≤ 254 ∧ IsComponent slash base ∧
      base.length ≤ 245 ∧ components slash path = components slash d ++ [base] := by
  obtain ⟨rest, rfl⟩ := ha.absolute
  have hshort := ha.short
  cases hsplit : splitLast slash (slash :: rest) with
  | none => exact absurd List.mem_cons_self ((splitLast_eq_none slash).mp hsplit)
  | some p =>
      obtain ⟨d, base⟩ := p
      obtain ⟨heq, hfree⟩ := eq_of_splitLast slash hsplit
      obtain ⟨hne, hlen⟩ := ha.base d base hsplit
      have hlength := congrArg List.length heq
      simp only [List.length_cons, List.length_append] at hlength hshort
      refine ⟨rest, d, base, rfl, by omega, rfl, by omega, ⟨hne, hfree⟩, hlen, ?_⟩
      rw [heq, components_append_component slash d ⟨hne, hfree⟩]

/-- The parent exists as a directory: the new name is plain and not taken. -/
theorem NamingInv.parent_ready (h : NamingInv T heapPos s) (hroot : find T [] = some root)
    (hnul : 0 ∉ path) (ha : Admissible s.mem path) {n : FileNode}
    (hcomps : components slash path = components slash d ++ [base])
    (hparent : lookup dotName dotdotName T root (components slash d) = some n)
    (hdir : n.isDir = true) :
    n ∈ T ∧ Plain dotName dotdotName base ∧ find T (n.path ++ [base]) = none := by
  obtain ⟨rest, rfl⟩ := ha.absolute
  have hshort := ha.short
  have hlookup := h.lookup_eq hroot hnul (by
    rw [skipSlash_slash]
    simp only [List.length_cons] at hshort
    omega)
  have hnone : step dotName dotdotName T n base = none := by
    rw [hcomps, lookup_append, hparent, Option.bind_some, lookup_singleton] at hlookup
    cases hstep : step dotName dotdotName T n base with
    | none => rfl
    | some k =>
        rw [hstep] at hlookup
        exact absurd hlookup (ha.absent _)
  have hmem := lookup_mem (find_some hroot).1 hparent
  rw [step, if_pos hdir] at hnone
  obtain ⟨up, _, hup, _, _⟩ := h.rep.directory n hmem hdir
  by_cases hdot : base = dotName
  · simp [hdot] at hnone
  by_cases hdotdot : base = dotdotName
  · rw [if_neg hdot, if_pos hdotdot, hup] at hnone
    cases hnone
  · rw [if_neg hdot, if_neg hdotdot] at hnone
    exact ⟨hmem, ⟨hdot, hdotdot⟩, hnone⟩

/-- A regular file has no block, and is not the root: both functions give up on it. -/
theorem NamingInv.file_block (h : NamingInv T heapPos s) {n : FileNode} (hn : n ∈ T)
    (hfile : n.isDir = false) : directoryBlock s.mem (inodeAddr n.label) = none := by
  have hzero : blocks s.mem (inodeAddr n.label) = 0 := h.unwritten n hn hfile
  obtain ⟨root, hroot, hone, hdir⟩ := h.rep.root
  rw [directoryBlock, if_pos hzero, if_neg]
  rw [rootInode_eq, inodeAddr_inj]
  intro heq
  rw [h.rep.eq_of_label hn (find_some hroot).1 (heq.trans hone.symm), hdir] at hfile
  cases hfile

/-- Appending the record of a prepared node. -/
theorem NamingInv.append (h : NamingInv T heapPos s) {n k : FileNode} (hn : n ∈ T)
    (hdir : n.isDir = true) (hpath : k.path = n.path ++ [base]) (hfresh : find T k.path = none)
    (hplain : Plain dotName dotdotName base) (hnul : 0 ∉ base) (hshort : base.length ≤ 245)
    (hready : ReadyNode T s n k) (hfile : k.isDir = false → nodeBlock s.mem k = 0)
    (hroom : ∀ e, appendPosition s.mem (nodeBlock s.mem n) = some e →
      e + (minRecLen base.length).toNat + 6 ≤ nodeBlock s.mem n * 4096 + 4096) :
    ∃ e m', appendEntry s.mem (nodeBlock s.mem n) k.label base = some (e, m') ∧
      NamingInv (T ++ [k]) heapPos { s with mem := m' } := by
  obtain ⟨hlo, hhi, hused⟩ := h.rep.dirBlock hn hdir
  obtain ⟨e, m', happend, honly, hrep⟩ :=
    h.rep.extend hn hdir hpath hfresh hplain hnul hshort hready hroom
  have hsame : ∀ j < 512, SameInode s.mem m' j := fun j hj =>
    SameInode.of_data hj fun x hx => honly x (by omega)
  refine ⟨e, m', happend, hrep, ?_, ?_, ?_⟩
  · intro j hj hjfile
    rcases List.mem_append.mp hj with hj | hj
    · rw [nodeBlock, (hsame j.label (h.rep.range j hj).2).blocks]
      exact h.unwritten j hj hjfile
    · obtain rfl := List.mem_singleton.mp hj
      rw [nodeBlock, (hsame _ hready.range.2).blocks]
      exact hfile hjfile
  · intro b hb9 hb64 hfree x hx hx'
    have hne : b ≠ nodeBlock s.mem n := by
      rintro rfl
      rw [show Abyssfs.used { s with mem := m' } (nodeBlock s.mem n) = s.used (nodeBlock s.mem n)
        from rfl, hused] at hfree
      cases hfree
    calc m' x = s.mem x := honly x (by omega)
      _ = 0 := h.zero b hb9 hb64 hfree x hx hx'
  · have hmodes : freeInodes m' = freeInodes s.mem :=
      freeInodes_congr fun j hj => by rw [(hsame j hj).mode]
    change heapPos + vfsFileSize * freeInodes m' ≤ heapSize
    rw [hmodes]
    exact h.heap

/-- The spare room of the parent is still there after the new inode has been prepared. -/
theorem NamingInv.room (h : NamingInv T heapPos s) (ha : Admissible s.mem path)
    (hsplit : splitLast slash path = some (d, base)) {n : FileNode} (hn : n ∈ T)
    (hdir : n.isDir = true) (hparent : getInodeByPath s.mem d = some (some (inodeAddr n.label)))
    {m : Memory} (hsame : SameInode s.mem m n.label)
    (hblock : ∀ x, nodeBlock s.mem n * 4096 ≤ x → x < nodeBlock s.mem n * 4096 + 4096 →
      m x = s.mem x) :
    ∀ e, appendPosition m (nodeBlock m n) = some e →
      e + (minRecLen base.length).toNat + 6 ≤ nodeBlock m n * 4096 + 4096 := by
  obtain ⟨_, rs, _, hrs, _⟩ := h.rep.directory n hn hdir
  have hhi := (h.rep.dirBlock hn hdir).2.1
  have hnode : nodeBlock m n = nodeBlock s.mem n := hsame.blocks
  intro e he
  rw [hnode] at he ⊢
  rw [appendPosition_dir hhi (hrs.congr hblock), ← appendPosition_dir hhi hrs] at he
  exact ha.spare d base _ e hsplit hparent he

/-- `abyssfs_create` fails leaving the tree as it was, or adds one file under the parent. -/
theorem NamingInv.create (h : NamingInv T heapPos s) (hroot : find T [] = some root)
    (hnul : 0 ∉ path) (ha : Admissible s.mem path) (hsplit : splitLast slash path = some (d, base)) :
    (∃ s', abyssfsCreate heapPos s (some (ascii "/")) path = some (none, heapPos, s') ∧
      NamingInv T heapPos s') ∨
    ∃ n s', lookup dotName dotdotName T root (components slash d) = some n ∧
      abyssfsCreate heapPos s (some (ascii "/")) path =
        some (some ⟨.abyssfs, (allocInode s).1, 0⟩, heapPos + vfsFileSize, s') ∧
      NamingInv (T ++ [newNode n base (allocInode s).1 false]) (heapPos + vfsFileSize) s' ∧
      n.isDir = true := by
  obtain ⟨rest, _, _, rfl, hrest, hsplit', hdlen, hcomp, hblen, hcomps⟩ := ha.cut
  rw [hsplit] at hsplit'
  cases hsplit'
  obtain ⟨hcut, _⟩ := eq_of_splitLast slash hsplit
  have hdnul : 0 ∉ d := fun hz => hnul (hcut ▸ List.mem_append_left _ hz)
  have hbnul : 0 ∉ base := fun hz =>
    hnul (hcut ▸ List.mem_append_right _ (List.mem_cons_of_mem _ hz))
  rcases allocInode_cases s with ⟨halloc, _⟩ | ⟨i, hi1, hi, hfree, halloc⟩
  · exact Or.inl ⟨s, by simp [abyssfsCreate, halloc], h⟩
  obtain ⟨halloced, hlabels⟩ := h.alloc hi1 hi hfree
  rw [abyssfsCreate_of_alloc heapPos _ _ halloc hi1, halloc, skipSlash_slash]
  set s₁ : Abyssfs := { s with mem := freshInode s.mem i } with hs₁
  have hdir₁ := halloced.lookup_eq hroot hdnul ((skipSlash_length_le d).trans (by omega))
  have hdir₀ := h.lookup_eq hroot hdnul ((skipSlash_length_le d).trans (by omega))
  rw [createFile, createParent_absolute s₁.mem (by omega) hsplit fun _ => rfl, hdir₁]
  cases hn : lookup dotName dotdotName T root (components slash d) with
  | none => exact Or.inl ⟨s₁, by simp, halloced.weaken (by simp)⟩
  | some n =>
      have hmem := lookup_mem (find_some hroot).1 hn
      cases hdir : n.isDir with
      | false =>
          refine Or.inl ⟨s₁, ?_, halloced.weaken (by simp)⟩
          simp [halloced.file_block hmem hdir]
      | true =>
          obtain ⟨_, hplain, hfresh⟩ := h.parent_ready hroot hnul ha hcomps hn hdir
          have hlo : 9 ≤ nodeBlock s₁.mem n := (halloced.rep.dirBlock hmem hdir).1
          have hlo₀ := (h.rep.dirBlock hmem hdir).1
          have hready : ReadyNode T s₁ n (newNode n base i false) := by
            refine ⟨⟨hi1, hi⟩, hlabels, ?_, ?_, Or.inl ⟨rfl, freshInode_blocks _ _⟩, ?_, ?_⟩
            · simp [newNode, hs₁, freshInode_mode, fileMode]
            · simp only [newNode, hs₁, freshInode_mode]
              decide
            · exact fun _ _ _ => freshInode_blocks _ _
            · intro hfalse
              cases hfalse
          have hroom := h.room ha hsplit hmem hdir (by rw [hdir₀, hn]; rfl)
            (freshInode_other s.mem (hlabels n hmem)) fun x hx _ =>
              freshInode_outside s.mem (by rw [inodeAddr_eq]; omega)
          obtain ⟨e, m', happend, hinv⟩ := halloced.append hmem hdir rfl hfresh hplain hbnul hblen
            hready (fun _ => freshInode_blocks _ _) hroom
          have hheap := halloced.heap
          have hkalloc : kalloc heapPos vfsFileSize = (some heapPos, heapPos + vfsFileSize) :=
            kalloc_of_le (by omega)
          refine Or.inr ⟨n, { s₁ with mem := m' }, rfl, ?_, hinv, hdir⟩
          rw [nodeBlock] at happend hlo
          simp only [newNode] at happend
          simp [directoryBlock_of_ne (Nat.ne_of_gt (Nat.lt_of_lt_of_le (by decide) hlo)), happend,
            hkalloc]

/-- The state in which `abyssfs_mkdir` turns to the parent, and the node it is about to add. -/
theorem NamingInv.prepare (h : NamingInv T heapPos s) {i b : Nat} (hi1 : 1 ≤ i) (hi : i < 512)
    (hfree : mode s.mem (inodeAddr i) = 0) (hb9 : 9 ≤ b) (hb64 : b < 64)
    (hbfree : s.used b = false) {n : FileNode} (hn : n ∈ T) (base : Str) :
    NamingInv T heapPos { s.take b with mem := preparedDir s.mem i b n.label } ∧
      ReadyNode T { s.take b with mem := preparedDir s.mem i b n.label } n
        (newNode n base i true) := by
  have hlabel : ∀ j ∈ T, j.label ≠ i := (h.alloc hi1 hi hfree).2
  have hother : ∀ j ∈ T, SameInode s.mem (preparedDir s.mem i b n.label) j.label := fun j hj =>
    preparedDir_other s.mem n.label hb9 (h.rep.range j hj).2 (hlabel j hj)
  have hnodeBlock : ∀ j ∈ T, nodeBlock (preparedDir s.mem i b n.label) j = nodeBlock s.mem j :=
    fun j hj => (hother j hj).blocks
  have hne : ∀ j ∈ T, nodeBlock s.mem j ≠ b := by
    rintro j hj rfl
    rcases h.rep.blockRange j hj with ⟨_, hzero⟩ | ⟨_, _, hused⟩
    · omega
    · rw [hbfree] at hused
      cases hused
  have hdata : ∀ x, 36864 ≤ x → (x < b * 4096 ∨ b * 4096 + 4096 ≤ x) →
      preparedDir s.mem i b n.label x = s.mem x := fun x hx hxb =>
    preparedDir_outside s.mem n.label (by rw [inodeAddr_eq]; omega) hxb
  have hmode : mode (preparedDir s.mem i b n.label) (inodeAddr i) = 0x41FF :=
    preparedDir_mode s.mem n.label hb9 hi
  have hblock : nodeBlock (preparedDir s.mem i b n.label) (newNode n base i true) = b :=
    preparedDir_blocks s.mem n.label hb9 hb64 hi
  refine ⟨⟨h.rep.frame hother ?_ ?_, ?_, ?_, ?_⟩, ⟨hi1, hi⟩, hlabel, ?_, ?_, Or.inr ?_, ?_, ?_⟩
  · intro j hj hdir x hlo hhi
    have := (h.rep.dirBlock hj hdir).1
    have := hne j hj
    exact hdata x (by omega) (by omega)
  · intro j hj hused
    change (s.take b).used _ = true
    rw [take_used s hb64, hused, Bool.true_or]
  · intro j hj hfile
    rw [hnodeBlock j hj]
    exact h.unwritten j hj hfile
  · intro c hc9 hc64 hused x hx hx'
    change (s.take b).used c = false at hused
    rw [take_used s hb64, Bool.or_eq_false_iff, decide_eq_false_iff_not] at hused
    calc preparedDir s.mem i b n.label x = s.mem x := hdata x (by omega) (by omega)
      _ = 0 := h.zero c hc9 hc64 hused.1 x hx hx'
  · have hcount := freeInodes_freshInode hi1 hi hfree
    have hmodes : freeInodes (preparedDir s.mem i b n.label) = freeInodes (freshInode s.mem i) := by
      apply freeInodes_congr
      intro j hj
      by_cases hji : j = i
      · subst hji
        rw [hmode, freshInode_mode]
        decide
      · rw [(preparedDir_other s.mem n.label hb9 hj hji).mode, (freshInode_other s.mem hji).mode]
    have := h.heap
    simp only [vfsFileSize] at this ⊢
    rw [hmodes]
    omega
  · simp [newNode, hmode]
  · simp only [newNode, hmode]
    decide
  · rw [hblock]
    refine ⟨hb9, hb64, ?_⟩
    change (s.take b).used b = true
    simp [take_used s hb64]
  · intro j hj heq
    rw [hblock, hnodeBlock j hj] at heq
    exact absurd heq (hne j hj)
  · intro _
    have hparent : n.label < 2 ^ 32 := by
      have := h.rep.range n hn
      omega
    have hzero : s.mem (b * 4096 + 261) = 0 :=
      h.zero b hb9 hb64 hbfree _ (by omega) (by omega)
    rw [hblock]
    exact ⟨_, preparedDir_dir s.mem hb9 hi hparent hzero, rfl⟩

/-- `abyssfs_mkdir` fails leaving the tree as it was, or adds one directory under the parent. -/
theorem NamingInv.mkdir (h : NamingInv T heapPos s) (hroot : find T [] = some root)
    (hnul : 0 ∉ path) (ha : Admissible s.mem path) (hsplit : splitLast slash path = some (d, base)) :
    (∃ s', abyssfsMkdir s path = some (-1, s') ∧ NamingInv T heapPos s') ∨
    ∃ n s', lookup dotName dotdotName T root (components slash d) = some n ∧
      abyssfsMkdir s path = some (0, s') ∧
      NamingInv (T ++ [newNode n base (allocInode s).1 true]) heapPos s' ∧ n.isDir = true := by
  obtain ⟨rest, _, _, rfl, hrest, hsplit', hdlen, hcomp, hblen, hcomps⟩ := ha.cut
  rw [hsplit] at hsplit'
  cases hsplit'
  obtain ⟨hcut, _⟩ := eq_of_splitLast slash hsplit
  have hdnul : 0 ∉ d := fun hz => hnul (hcut ▸ List.mem_append_left _ hz)
  have hbnul : 0 ∉ base := fun hz =>
    hnul (hcut ▸ List.mem_append_right _ (List.mem_cons_of_mem _ hz))
  have hdir₀ := h.lookup_eq hroot hdnul ((skipSlash_length_le d).trans (by omega))
  have hparent := mkdirParent_absolute s.mem ha.short hsplit hcomp.1
  rw [hdir₀] at hparent
  cases hn : lookup dotName dotdotName T root (components slash d) with
  | none =>
      rw [hn] at hparent
      exact Or.inl ⟨s, by simp [abyssfsMkdir, hparent], h⟩
  | some n =>
      have hmem := lookup_mem (find_some hroot).1 hn
      have hnlabel := h.rep.range n hmem
      rw [hn, Option.map_some, Option.map_some, Option.map_some,
        parentInodeNum_inodeAddr hnlabel.1 hnlabel.2] at hparent
      rcases allocInode_cases s with ⟨halloc, _⟩ | ⟨i, hi1, hi, hfree, halloc⟩
      · exact Or.inl ⟨s, by simp [abyssfsMkdir, hparent, halloc], h⟩
      obtain ⟨halloced, hlabels⟩ := h.alloc hi1 hi hfree
      rcases allocBlock_cases { s with mem := freshInode s.mem i } with
        ⟨hblock, _⟩ | ⟨b, hb9, hb64, hbfree, hblock⟩
      · refine Or.inl ⟨_, ?_, halloced.weaken (by simp)⟩
        obtain ⟨i, rfl⟩ : ∃ j, i = j + 1 := ⟨i - 1, by omega⟩
        simp [abyssfsMkdir, hparent, halloc, hblock]
      obtain ⟨hprep, hready⟩ := h.prepare hi1 hi hfree hb9 hb64 hbfree hmem base
      rw [abyssfsMkdir_of_alloc hparent halloc hi1 hblock hb9, halloc]
      cases hdir : n.isDir with
      | false =>
          refine Or.inl ⟨_, ?_, hprep⟩
          rw [hprep.file_block hmem hdir]
      | true =>
          obtain ⟨_, hplain, hfresh⟩ := h.parent_ready hroot hnul ha hcomps hn hdir
          have hlo : 9 ≤ blocks (preparedDir s.mem i b n.label) (inodeAddr n.label) :=
            (hprep.rep.dirBlock hmem hdir).1
          obtain ⟨hlo₀, _, hused⟩ := h.rep.dirBlock hmem hdir
          have hne : nodeBlock s.mem n ≠ b := by
            rintro rfl
            exact Bool.false_ne_true (hbfree.symm.trans hused)
          have hroom := h.room ha hsplit hmem hdir (by rw [hdir₀, hn]; rfl)
            (preparedDir_other (i := i) (b := b) s.mem n.label hb9 hnlabel.2 (hlabels n hmem))
            fun x hx hx' => preparedDir_outside s.mem n.label (by rw [inodeAddr_eq]; omega)
              (by omega)
          obtain ⟨e, m', happend, hinv⟩ := hprep.append hmem hdir rfl hfresh hplain hbnul hblen
            hready (fun hfile => by cases hfile) hroom
          refine Or.inr ⟨n, { s.take b with mem := m' }, rfl, ?_, hinv, hdir⟩
          rw [nodeBlock] at happend
          simp only [newNode] at happend
          rw [directoryBlock_of_ne (by omega)]
          simp only [happend, Option.map_some]

end Calls

end Chthon
