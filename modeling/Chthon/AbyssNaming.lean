import Chthon.AbyssBoot
import Chthon.AbyssCreate
import Chthon.Lib.Run

/-! Naming over whole runs: after any sequence of `abyssfs_create` and `abyssfs_mkdir` calls from
boot, `get_inode_by_path` answers as the directory tree built from the calls that succeeded. -/

namespace Chthon

open ByteMemory DirectoryTree PathText Run

inductive NameOp where
  | create (path : CString)
  | mkdir (path : CString)

def NameOp.path : NameOp → Str
  | .create path => path.chars
  | .mkdir path => path.chars

def NameOp.isDir : NameOp → Bool
  | .create _ => false
  | .mkdir _ => true

/-- One call, with working directory "/". The result is the inode number allocated, if the call
succeeded. -/
def nameStep (v : Volume) : NameOp → Option (Option Nat × Volume)
  | .create path =>
      (abyssfsCreate v.heapPos v.fs (some (ascii "/")) path.chars).map fun (file, heapPos, fs) =>
        (file.map VfsFile.privateData, ⟨heapPos, fs⟩)
  | .mkdir path =>
      (abyssfsMkdir v.fs path.chars).map fun (result, fs) =>
        (if result = 0 then some (allocInode v.fs).1 else none, ⟨v.heapPos, fs⟩)

def NameOp.Allowed (v : Volume) (op : NameOp) : Prop := Admissible v.fs.mem op.path

/-- The calls of a run that succeeded, with the inodes they allocated. -/
def created (trace : List (NameOp × Option Nat)) : List (NameOp × Nat) :=
  trace.filterMap fun (op, result) => result.map (op, ·)

/-- The canonical form of a path. -/
def canonical (path : Str) : List Str := normalize dotName dotdotName (components slash path)

def createdNode (c : NameOp × Nat) : FileNode := ⟨canonical c.1.path, c.2, c.1.isDir⟩

def rootNode : FileNode := ⟨[], 1, true⟩

/-- The directory tree a run has built. -/
def treeOf (trace : List (NameOp × Option Nat)) : FileTree :=
  rootNode :: (created trace).map createdNode

theorem created_snoc (trace : List (NameOp × Option Nat)) (op : NameOp) (result : Option Nat) :
    created (trace ++ [(op, result)]) = created trace ++ (result.map (op, ·)).toList := by
  cases result <;> simp [created]

theorem treeOf_none (trace : List (NameOp × Option Nat)) (op : NameOp) :
    treeOf (trace ++ [(op, none)]) = treeOf trace := by
  simp [treeOf, created_snoc]

theorem treeOf_some (trace : List (NameOp × Option Nat)) (op : NameOp) (i : Nat) :
    treeOf (trace ++ [(op, some i)]) = treeOf trace ++ [createdNode (op, i)] := by
  simp [treeOf, created_snoc]

theorem find_root (trace : List (NameOp × Option Nat)) : find (treeOf trace) [] = some rootNode := by
  simp [treeOf, find, rootNode]

/-! Boot. -/

theorem boot_freeInodes (s : Abyssfs) : freeInodes (bootVolume s).fs.mem ≤ 510 := by
  have hsub : ((Finset.range 512).filter fun n => 1 ≤ n ∧
      mode (bootVolume s).fs.mem (inodeAddr n) = 0) ⊆ Finset.Ico 2 512 := by
    intro n hn
    rw [Finset.mem_filter, Finset.mem_range] at hn
    obtain ⟨hlt, hge, hmode⟩ := hn
    have hne : n ≠ 1 := by
      rintro rfl
      rw [← rootInode_eq, boot_mode_root] at hmode
      cases hmode
    rw [Finset.mem_Ico]
    omega
  have hcard := Finset.card_le_card hsub
  rw [Nat.card_Ico] at hcard
  exact hcard

theorem boot_represents (s : Abyssfs) : Represents [rootNode] (bootVolume s).fs := by
  have hblock : nodeBlock (bootVolume s).fs.mem rootNode = 9 := boot_blocks_root s
  have hmode : mode (bootVolume s).fs.mem (inodeAddr 1) = dirMode := boot_mode_root s
  refine ⟨⟨by simp, by simp [rootNode], by simp [rootNode]⟩, ⟨rootNode, rfl, rfl, rfl⟩,
    by simp [rootNode], by simp, ?_, ?_, ?_, ?_, ?_⟩
  · simp [rootNode, hmode, dirMode]
  · simp only [List.mem_singleton, forall_eq, rootNode, hmode]
    decide
  · simp only [List.mem_singleton, forall_eq, hblock]
    exact fun _ => ⟨rootNode, _, rfl, boot_root_dir s, rfl⟩
  · simp only [List.mem_singleton, forall_eq, hblock]
    exact Or.inr ⟨by omega, by omega, by simp [boot_used]⟩
  · simp

theorem boot_naming (s : Abyssfs) :
    NamingInv (treeOf []) (bootVolume s).heapPos (bootVolume s).fs where
  rep := boot_represents s
  unwritten := by
    intro n hn hfile
    obtain rfl := List.mem_singleton.mp hn
    cases hfile
  zero := by
    intro b hlo hhi hused x hx hx'
    rw [boot_used, decide_eq_false_iff_not] at hused
    exact boot_data s (by omega) (by omega)
  heap := by
    have := boot_freeInodes s
    rw [show (bootVolume s).heapPos = 262144 by rw [bootVolume_eq]]
    simp only [vfsFileSize, heapSize]
    omega

/-! One call. -/

/-- The node a call adds, named by the canonical form of its path. -/
theorem newNode_eq {T : FileTree} {n : FileNode} {path d base : Str}
    (hcomps : components slash path = components slash d ++ [base])
    (hn : lookup dotName dotdotName T rootNode (components slash d) = some n)
    (hplain : Plain dotName dotdotName base) (i : Nat) (isDir : Bool) :
    newNode n base i isDir = ⟨canonical path, i, isDir⟩ := by
  rw [newNode, canonical, hcomps, normalize_append, normalizeStep_plain hplain, lookup_path hn]
  rfl

/-- The created node hangs below the directory its path led to. -/
def Hangs (T : FileTree) (c : NameOp × Nat) : Prop :=
  ∃ n rest d base, c.1.path = slash :: rest ∧ rest.length ≤ 254 ∧
    splitLast slash c.1.path = some (d, base) ∧ d.length ≤ 254 ∧
    components slash c.1.path = components slash d ++ [base] ∧
    lookup dotName dotdotName T rootNode (components slash d) = some n ∧
    createdNode c = newNode n base c.2 c.1.isDir ∧ n.isDir = true

section Step

variable {trace : List (NameOp × Option Nat)} {v : Volume}

/-- A call that is allowed returns; it either fails and leaves the tree alone, or adds its node. -/
theorem nameStep_spec (h : NamingInv (treeOf trace) v.heapPos v.fs) {op : NameOp}
    (ha : op.Allowed v) :
    ∃ result v', nameStep v op = some (result, v') ∧
      NamingInv (treeOf (trace ++ [(op, result)])) v'.heapPos v'.fs ∧
      ∀ i, result = some i → Hangs (treeOf trace) (op, i) := by
  obtain ⟨rest, d, base, hpath, hrest, hsplit, hdlen, _, _, hcomps⟩ := ha.cut
  have hroot := find_root trace
  -- what both calls leave us with when they succeed
  have hadded : ∀ n i, lookup dotName dotdotName (treeOf trace) rootNode (components slash d) =
        some n → n.isDir = true → 0 ∉ op.path →
      createdNode (op, i) = newNode n base i op.isDir := by
    intro n i hn hdir hnul
    obtain ⟨_, hplain, _⟩ := h.parent_ready hroot hnul ha hcomps hn hdir
    rw [newNode_eq hcomps hn hplain]
    rfl
  cases op with
  | create path =>
      rcases h.create hroot path.nul_free ha hsplit with
        ⟨s', hcall, hinv⟩ | ⟨n, s', hn, hcall, hinv, hdir⟩
      · refine ⟨none, ⟨v.heapPos, s'⟩, by simp [nameStep, hcall], ?_, by simp⟩
        rw [treeOf_none]
        exact hinv
      · have hnode := hadded n (allocInode v.fs).1 hn hdir path.nul_free
        refine ⟨some (allocInode v.fs).1, ⟨v.heapPos + vfsFileSize, s'⟩, by simp [nameStep, hcall],
          ?_, ?_⟩
        · rw [treeOf_some, hnode]
          exact hinv
        · rintro i ⟨⟩
          exact ⟨n, rest, d, base, hpath, hrest, hsplit, hdlen, hcomps, hn, hnode, hdir⟩
  | mkdir path =>
      rcases h.mkdir hroot path.nul_free ha hsplit with
        ⟨s', hcall, hinv⟩ | ⟨n, s', hn, hcall, hinv, hdir⟩
      · refine ⟨none, ⟨v.heapPos, s'⟩, by simp [nameStep, hcall], ?_, by simp⟩
        rw [treeOf_none]
        exact hinv
      · have hnode := hadded n (allocInode v.fs).1 hn hdir path.nul_free
        refine ⟨some (allocInode v.fs).1, ⟨v.heapPos, s'⟩, by simp [nameStep, hcall], ?_, ?_⟩
        · rw [treeOf_some, hnode]
          exact hinv
        · rintro i ⟨⟩
          exact ⟨n, rest, d, base, hpath, hrest, hsplit, hdlen, hcomps, hn, hnode, hdir⟩

end Step

/-! Runs. -/

/-- What a run maintains: the invariant, and every created node still hangs where it was put. -/
structure NamingRun (trace : List (NameOp × Option Nat)) (v : Volume) : Prop where
  naming : NamingInv (treeOf trace) v.heapPos v.fs
  hangs : ∀ c ∈ created trace, Hangs (treeOf trace) c

theorem Hangs.insert {T : FileTree} {c : NameOp × Nat} {k : FileNode} (h : Hangs T c)
    (hfresh : find T k.path = none) : Hangs (T ++ [k]) c := by
  obtain ⟨n, rest, d, base, hpath, hrest, hsplit, hdlen, hcomps, hn, hnode, hdir⟩ := h
  exact ⟨n, rest, d, base, hpath, hrest, hsplit, hdlen, hcomps, lookup_insert_of_some hfresh hn,
    hnode, hdir⟩

theorem fresh_of_insert {T : FileTree} {k : FileNode}
    (h : WellFormed dotName dotdotName (T ++ [k])) : find T k.path = none := by
  rw [find_none]
  intro n hn heq
  have hnodup := h.nodup
  rw [List.map_append, List.map_singleton, List.nodup_append] at hnodup
  exact hnodup.2.2 _ (List.mem_map_of_mem hn) _ (List.mem_singleton_self _) heq

theorem NamingRun.step {trace : List (NameOp × Option Nat)} {v v' : Volume} {op : NameOp}
    {result : Option Nat} (h : NamingRun trace v) (ha : op.Allowed v)
    (htaken : nameStep v op = some (result, v')) : NamingRun (trace ++ [(op, result)]) v' := by
  obtain ⟨result', w, hstep, hinv, hhangs⟩ := nameStep_spec h.naming ha
  rw [htaken, Option.some.injEq, Prod.mk.injEq] at hstep
  obtain ⟨rfl, rfl⟩ := hstep
  refine ⟨hinv, ?_⟩
  cases result with
  | none =>
      rw [treeOf_none, created_snoc]
      simpa using h.hangs
  | some i =>
      rw [treeOf_some] at hinv ⊢
      have hfresh := fresh_of_insert hinv.rep.tree
      intro c hc
      rw [created_snoc, Option.map_some, Option.toList_some, List.mem_append,
        List.mem_singleton] at hc
      rcases hc with hc | rfl
      · exact (h.hangs c hc).insert hfresh
      · exact (hhangs i rfl).insert hfresh

theorem naming_run (s : Abyssfs) {trace : List (NameOp × Option Nat)} {v : Volume}
    (h : Steps nameStep NameOp.Allowed (bootVolume s) trace v) : NamingRun trace v := by
  refine h.invariant (P := NamingRun) ⟨boot_naming s, by simp [created]⟩ ?_
  intro trace v op result v' hrun ha htaken
  exact hrun.step ha htaken

section Lookups

variable {trace : List (NameOp × Option Nat)} {v : Volume} {c : NameOp × Nat}

theorem NameOp.nul_free (op : NameOp) : 0 ∉ op.path := by
  cases op with
  | create path => exact path.nul_free
  | mkdir path => exact path.nul_free

theorem createdNode_mem (hc : c ∈ created trace) : createdNode c ∈ treeOf trace :=
  List.mem_cons_of_mem _ (List.mem_map_of_mem hc)

/-- A created path leads to its node. -/
theorem NamingRun.lookup_created (h : NamingRun trace v) (hc : c ∈ created trace) :
    lookup dotName dotdotName (treeOf trace) rootNode (components slash c.1.path) =
      some (createdNode c) := by
  obtain ⟨n, _, _, base, _, _, _, _, hcomps, hn, hnode, hdir⟩ := h.hangs c hc
  have hmem := createdNode_mem hc
  have hpath : (createdNode c).path = n.path ++ [base] := by rw [hnode]; rfl
  have hplain := h.naming.rep.tree.plain _ hmem base (by simp [hpath])
  rw [hcomps, lookup_append, hn, Option.bind_some, lookup_singleton, DirectoryTree.step,
    if_pos hdir, if_neg hplain.1, if_neg hplain.2, ← hpath]
  exact h.naming.rep.tree.find_mem hmem

theorem NamingRun.getInode_label (h : NamingRun trace v) {k : FileNode} (hk : k ∈ treeOf trace) :
    getInode k.label = some (inodeAddr k.label) :=
  getInode_of_lt (h.naming.rep.range k hk).2

/-- Dot-dot of a created directory is the directory it hangs below. -/
theorem NamingRun.lookup_dotdot (h : NamingRun trace v) (hc : c ∈ created trace)
    (hcdir : c.1.isDir = true) {d base : Str} (hsplit : splitLast slash c.1.path = some (d, base)) :
    lookup dotName dotdotName (treeOf trace) rootNode
        (components slash c.1.path ++ [dotdotName]) =
      lookup dotName dotdotName (treeOf trace) rootNode (components slash d) := by
  obtain ⟨n, _, _, _, _, _, hsplit', _, _, hn, hnode, hdir⟩ := h.hangs c hc
  rw [hsplit] at hsplit'
  cases hsplit'
  have hpath : (createdNode c).path.dropLast = n.path := by rw [hnode]; simp [newNode]
  have hnmem : n ∈ treeOf trace := lookup_mem List.mem_cons_self hn
  rw [lookup_append, h.lookup_created hc, Option.bind_some, lookup_singleton, DirectoryTree.step,
    if_pos (show (createdNode c).isDir = true from hcdir), if_neg (by decide), if_pos rfl, hpath,
    h.naming.rep.tree.find_mem hnmem, hn]

theorem NamingRun.lookup_dot (h : NamingRun trace v) (hc : c ∈ created trace)
    (hcdir : c.1.isDir = true) :
    lookup dotName dotdotName (treeOf trace) rootNode (components slash c.1.path ++ [dotName]) =
      some (createdNode c) := by
  rw [lookup_append, h.lookup_created hc, Option.bind_some, lookup_singleton, DirectoryTree.step,
    if_pos (show (createdNode c).isDir = true from hcdir), if_pos rfl]

/-- A canonical path that names no created node leads nowhere. -/
theorem NamingRun.lookup_never (h : NamingRun trace v) {cs : List Str} (hne : cs ≠ [])
    (hplain : ∀ t ∈ cs, Plain dotName dotdotName t)
    (hnever : cs ∉ (created trace).map fun c => canonical c.1.path) :
    lookup dotName dotdotName (treeOf trace) rootNode cs = none := by
  rw [h.naming.rep.tree.lookup_plain (find_root trace) cs hplain, find_none]
  intro n hn heq
  rcases List.mem_cons.mp hn with rfl | hn
  · exact hne heq.symm
  · obtain ⟨c, hc, rfl⟩ := List.mem_map.mp hn
    exact hnever (List.mem_map.mpr ⟨c, hc, heq⟩)

/-- What the buffer of `get_inode_by_path` keeps of a created path followed by a dot. -/
theorem components_take_dot {rest : Str} (hrest : rest.length ≤ 254) :
    components slash ((rest ++ ascii "/.").take 255) = components slash rest ++ [dotName] ∨
    components slash ((rest ++ ascii "/.").take 255) = components slash rest := by
  have htext : rest ++ ascii "/." = rest ++ slash :: dotName := rfl
  rw [htext]
  by_cases hlen : rest.length ≤ 253
  · left
    rw [List.take_of_length_le (by simp [dotName, ascii]; omega),
      components_append_component slash rest ⟨by decide, by decide⟩]
  · right
    rw [show (255 : Nat) = rest.length + 1 by omega, List.take_length_add_append]
    rw [show (slash :: dotName).take 1 = [slash] from rfl, components_append_sep,
      components_nil, List.append_nil]

end Lookups

/-- How lookups answer after the calls of `trace`. `get_inode_by_path` keeps 255 bytes of a path
without its leading slash, which bounds the paths of the last fields. -/
structure ResolvesAsTree (trace : List (NameOp × Option Nat)) (v : Volume) : Prop where
  reachable : ∀ c ∈ created trace, getInodeByPath v.fs.mem c.1.path = some (getInode c.2)
  inodes : ((created trace).map Prod.snd).Nodup
  dot : ∀ c ∈ created trace, c.1.isDir = true →
    getInodeByPath v.fs.mem (c.1.path ++ ascii "/.") = some (getInode c.2)
  dotdot : ∀ c ∈ created trace, c.1.isDir = true → c.1.path.length ≤ 253 →
    ∃ d base, splitLast slash c.1.path = some (d, base) ∧
      getInodeByPath v.fs.mem (c.1.path ++ ascii "/..") = getInodeByPath v.fs.mem d
  root : getInodeByPath v.fs.mem (ascii "/.") = some (some rootInode) ∧
    getInodeByPath v.fs.mem (ascii "/..") = some (some rootInode)
  never : ∀ cs : List Str, cs ≠ [] → (∀ t ∈ cs, IsComponent slash t ∧ 0 ∉ t) →
    (∀ t ∈ cs, Plain dotName dotdotName t) → (render slash cs).length ≤ 256 →
    cs ∉ ((created trace).map fun c => canonical c.1.path) →
    getInodeByPath v.fs.mem (render slash cs) = some none
  failing : ∀ op : NameOp, op.Allowed v → ∃ result v', nameStep v op = some (result, v') ∧
    (result = none → ∀ q : CString,
      getInodeByPath v'.fs.mem q.chars = getInodeByPath v.fs.mem q.chars)

section Resolves

variable {trace : List (NameOp × Option Nat)} {v : Volume}

theorem NamingRun.resolve (h : NamingRun trace v) {path : Str} (hnul : 0 ∉ path)
    (hlen : (skipSlash path).length ≤ 255) {n : FileNode}
    (hn : lookup dotName dotdotName (treeOf trace) rootNode (components slash path) = some n) :
    getInodeByPath v.fs.mem path = some (getInode n.label) := by
  have hmem : n ∈ treeOf trace := lookup_mem List.mem_cons_self hn
  rw [h.naming.lookup_eq (find_root trace) hnul hlen, hn, h.getInode_label hmem]
  rfl

theorem NamingRun.resolve_dot (h : NamingRun trace v) {c : NameOp × Nat} (hc : c ∈ created trace)
    (hdir : c.1.isDir = true) :
    getInodeByPath v.fs.mem (c.1.path ++ ascii "/.") = some (getInode c.2) := by
  obtain ⟨_, rest, _, _, hpath, hrest, _⟩ := h.hangs c hc
  have hlookup : lookup dotName dotdotName (treeOf trace) rootNode (components slash
      ((skipSlash (c.1.path ++ ascii "/.")).take 255)) = some (createdNode c) := by
    rw [hpath, List.cons_append, skipSlash_slash]
    have hrestcomps : components slash rest = components slash c.1.path := by
      rw [hpath, components_sep_cons]
    rcases components_take_dot hrest with hcomps | hcomps
    · rw [hcomps, hrestcomps, h.lookup_dot hc hdir]
    · rw [hcomps, hrestcomps, h.lookup_created hc]
  have hnul : 0 ∉ c.1.path ++ ascii "/." := by
    rw [List.mem_append, not_or]
    exact ⟨c.1.nul_free, by decide⟩
  rw [h.naming.lookup_take (find_root trace) hnul, hlookup, Option.map_some]
  exact congrArg some (h.getInode_label (createdNode_mem hc)).symm

theorem NamingRun.resolve_dotdot (h : NamingRun trace v) {c : NameOp × Nat}
    (hc : c ∈ created trace) (hdir : c.1.isDir = true) (hlen : c.1.path.length ≤ 253) :
    ∃ d base, splitLast slash c.1.path = some (d, base) ∧
      getInodeByPath v.fs.mem (c.1.path ++ ascii "/..") = getInodeByPath v.fs.mem d := by
  obtain ⟨n, rest, d, base, hpath, _, hsplit, hdlen, _⟩ := h.hangs c hc
  have hcut := (eq_of_splitLast slash hsplit).1
  have hnul : 0 ∉ c.1.path ++ ascii "/.." := by
    rw [List.mem_append, not_or]
    exact ⟨c.1.nul_free, by decide⟩
  have hdnul : 0 ∉ d := fun hz => c.1.nul_free (hcut ▸ List.mem_append_left _ hz)
  have hskip : (skipSlash (c.1.path ++ ascii "/..")).length ≤ 255 := by
    rw [hpath, List.cons_append, skipSlash_slash]
    rw [hpath] at hlen
    simp only [List.length_cons] at hlen
    have hdots : (ascii "/..").length = 3 := rfl
    rw [List.length_append, hdots]
    omega
  refine ⟨d, base, hsplit, ?_⟩
  rw [h.naming.lookup_eq (find_root trace) hnul hskip,
    h.naming.lookup_eq (find_root trace) hdnul ((skipSlash_length_le d).trans (by omega)),
    show c.1.path ++ ascii "/.." = c.1.path ++ slash :: dotdotName from rfl,
    components_append_component slash _ ⟨by decide, by decide⟩, h.lookup_dotdot hc hdir hsplit]

theorem NamingRun.failing (h : NamingRun trace v) {op : NameOp} (ha : op.Allowed v) :
    ∃ result v', nameStep v op = some (result, v') ∧ (result = none → ∀ q : CString,
      getInodeByPath v'.fs.mem q.chars = getInodeByPath v.fs.mem q.chars) := by
  obtain ⟨result, v', hstep, hinv, _⟩ := nameStep_spec h.naming ha
  refine ⟨result, v', hstep, ?_⟩
  rintro rfl q
  rw [treeOf_none] at hinv
  rw [hinv.lookup_take (find_root trace) q.nul_free,
    h.naming.lookup_take (find_root trace) q.nul_free]

end Resolves

theorem render_nul_free {cs : List Str} (hcs : ∀ t ∈ cs, 0 ∉ t) : 0 ∉ render slash cs := by
  rw [render, List.mem_flatMap]
  rintro ⟨t, ht, hzero⟩
  rcases List.mem_cons.mp hzero with heq | hzero
  · cases heq
  · exact hcs t ht hzero

theorem skipSlash_render {cs : List Str} (hne : cs ≠ []) :
    (skipSlash (render slash cs)).length + 1 = (render slash cs).length := by
  cases cs with
  | nil => exact absurd rfl hne
  | cons t cs =>
      rw [render, List.flatMap_cons, List.cons_append, skipSlash_slash, List.length_cons]

/-- Naming refines the directory tree, after every call of every run. -/
theorem naming_refines_directory_tree (s : Abyssfs) (trace : List (NameOp × Option Nat))
    (v : Volume) (h : Steps nameStep NameOp.Allowed (bootVolume s) trace v) :
    ResolvesAsTree trace v := by
  have hrun := naming_run s h
  refine ⟨?_, ?_, ?_, ?_, ?_, ?_, ?_⟩
  · intro c hc
    obtain ⟨_, rest, _, _, hpath, hrest, _⟩ := hrun.hangs c hc
    refine hrun.resolve c.1.nul_free ?_ (hrun.lookup_created hc)
    rw [hpath, skipSlash_slash]
    omega
  · have hlabels := hrun.naming.rep.labels
    rw [treeOf, List.map_cons, List.map_map] at hlabels
    exact hlabels.of_cons
  · exact fun c hc hdir => hrun.resolve_dot hc hdir
  · exact fun c hc hdir hlen => hrun.resolve_dotdot hc hdir hlen
  · have hdot : lookup dotName dotdotName (treeOf trace) rootNode
        (components slash (ascii "/.")) = some rootNode := rfl
    have hdotdot : lookup dotName dotdotName (treeOf trace) rootNode
        (components slash (ascii "/..")) = some rootNode := rfl
    exact ⟨hrun.resolve (by decide) (by decide) hdot,
      hrun.resolve (by decide) (by decide) hdotdot⟩
  · intro cs hne hcomp hplain hlen hnever
    have hnul := render_nul_free fun t ht => (hcomp t ht).2
    have hskip := skipSlash_render hne
    rw [hrun.naming.lookup_eq (find_root trace) hnul (by omega),
      components_render slash fun t ht => (hcomp t ht).1, hrun.lookup_never hne hplain hnever]
    rfl
  · exact fun op ha => hrun.failing ha

/-! Two runs from a blank disk. -/

/-- An admissible call, from the values its checks evaluate to. -/
theorem Admissible.of_values {m : Memory} {path : Str} (d base : Str) (p e : Nat)
    (habsolute : path.head? = some slash) (hshort : path.length ≤ 255)
    (hsplit : splitLast slash path = some (d, base)) (hbase : base ≠ [] ∧ base.length ≤ 245)
    (habsent : getInodeByPath m path = some none)
    (hparent : getInodeByPath m d = some (some p)) (hend : appendPosition m (blocks m p) = some e)
    (hroom : e + (minRecLen base.length).toNat + 6 ≤ blocks m p * 4096 + 4096) :
    Admissible m path where
  absolute := ⟨path.tail, List.eq_cons_of_mem_head? habsolute⟩
  short := hshort
  base := by
    intro d' base' h
    rw [hsplit] at h
    cases h
    exact hbase
  absent := by
    intro q
    rw [habsent]
    simp
  spare := by
    intro d' base' q f h hq hf
    rw [hsplit] at h
    cases h
    rw [hparent] at hq
    cases hq
    rw [hend] at hf
    cases hf
    exact hroom

/-- A directory and a file in it, made one after the other. -/
theorem naming_directory_and_file :
    ∃ trace v, Steps nameStep NameOp.Allowed (bootVolume blankFs) trace v ∧
      (created trace).map Prod.snd = [2, 3] ∧ ResolvesAsTree trace v := by
  let dir : NameOp := .mkdir ⟨ascii "/d", by decide⟩
  let file : NameOp := .create ⟨ascii "/d/f", by decide⟩
  let v₁ := next nameStep (bootVolume blankFs) dir
  have hdir : Steps nameStep NameOp.Allowed (bootVolume blankFs) ([] ++ [(dir, some 2)]) v₁ := by
    apply Steps.nil.extend
    · exact Admissible.of_values [] (ascii "d") 4160 36884 rfl (by decide) (by decide) (by decide)
        (by decide +kernel) (by decide +kernel) (by decide +kernel) (by decide +kernel)
    · decide +kernel
  have hfile : Steps nameStep NameOp.Allowed (bootVolume blankFs)
      ([] ++ [(dir, some 2)] ++ [(file, some 3)]) (next nameStep v₁ file) := by
    apply hdir.extend
    · exact Admissible.of_values (ascii "/d") (ascii "f") 4224 40980 rfl (by decide) (by decide)
        (by decide) (by decide +kernel) (by decide +kernel) (by decide +kernel) (by decide +kernel)
    · decide +kernel
  exact ⟨_, _, hfile, rfl, naming_refines_directory_tree blankFs _ _ hfile⟩

/-- A name as long as a path allows below a directory `/aaaaaaa`. -/
def longName : Str := List.replicate 245 98

/-- A path of 254 bytes fills the buffer of `get_inode_by_path`: dot-dot after it is cut to a dot,
and leads back to the directory itself. -/
theorem dotdot_of_long_path :
    ∃ trace v, Steps nameStep NameOp.Allowed (bootVolume blankFs) trace v ∧
      ∃ c ∈ created trace, c.1.isDir = true ∧ ∀ d base, splitLast slash c.1.path = some (d, base) →
        getInodeByPath v.fs.mem (c.1.path ++ ascii "/..") ≠ getInodeByPath v.fs.mem d := by
  let outer : NameOp := .mkdir ⟨ascii "/aaaaaaa", by decide⟩
  let inner : NameOp := .mkdir ⟨ascii "/aaaaaaa/" ++ longName, by decide⟩
  let v₁ := next nameStep (bootVolume blankFs) outer
  have houter : Steps nameStep NameOp.Allowed (bootVolume blankFs) ([] ++ [(outer, some 2)]) v₁ := by
    apply Steps.nil.extend
    · exact Admissible.of_values [] (ascii "aaaaaaa") 4160 36884 rfl (by decide) (by decide)
        (by decide) (by decide +kernel) (by decide +kernel) (by decide +kernel) (by decide +kernel)
    · decide +kernel
  have hinner : Steps nameStep NameOp.Allowed (bootVolume blankFs)
      ([] ++ [(outer, some 2)] ++ [(inner, some 3)]) (next nameStep v₁ inner) := by
    apply houter.extend
    · exact Admissible.of_values (ascii "/aaaaaaa") longName 4224 40980 rfl (by decide +kernel)
        (by decide +kernel) (by decide +kernel) (by decide +kernel) (by decide +kernel)
        (by decide +kernel) (by decide +kernel)
    · decide +kernel
  refine ⟨_, _, hinner, (inner, 3), by simp [created], rfl, ?_⟩
  intro d base hsplit
  have hcut : splitLast slash inner.path = some (ascii "/aaaaaaa", longName) := by
    decide +kernel
  rw [hcut] at hsplit
  cases hsplit
  decide +kernel

end Chthon
