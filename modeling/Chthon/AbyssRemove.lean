import Chthon.AbyssTree
import Chthon.AbyssOwnership

/-! `abyssfs_unlink` on the tree of names. The search covers the root directory only, so what it can
take out is a child of the root: for a regular file, the tree loses exactly that node. -/

namespace Chthon

open ByteMemory DirectoryTree

/-- A volume with the tree `T`, whose root directory is the block every unlink searches. -/
structure Mounted (T : FileTree) (s : Abyssfs) : Prop where
  rep : Represents T s
  rootBlock : blocks s.mem (inodeAddr 1) = 9

/-! Names in one directory are distinct. -/

theorem childKey_name {T : FileTree} {p : List Str} {n : FileNode} (h : n ∈ children T p) :
    n.path = p ++ [(childKey n).2] := by
  rw [children, List.mem_filter, decide_eq_true_iff] at h
  exact (path_eq_iff p n.path _).mp ⟨h.2, rfl⟩

theorem children_names_nodup {T : FileTree} (h : WellFormed dotName dotdotName T) (p : List Str) :
    ((children T p).map fun n => (childKey n).2).Nodup := by
  rw [List.nodup_map_iff_inj_on]
  · intro n hn k hk heq
    have hpaths : n.path = k.path := by rw [childKey_name hn, childKey_name hk, heq]
    exact List.inj_on_of_nodup_map h.nodup (List.mem_of_mem_filter hn) (List.mem_of_mem_filter hk)
      hpaths
  · exact (h.nodup.of_map _).filter _

theorem child_plain {T : FileTree} (h : WellFormed dotName dotdotName T) {p : List Str}
    {n : FileNode} (hn : n ∈ children T p) : Plain dotName dotdotName (childKey n).2 := by
  apply h.plain n (List.mem_of_mem_filter hn)
  rw [childKey_name hn]
  simp

theorem listing_names_nodup {T : FileTree} (h : WellFormed dotName dotdotName T)
    (n parent : FileNode) : ((listing T n parent).map Prod.snd).Nodup := by
  rw [listing, List.map_cons, List.map_cons, List.map_map, List.nodup_cons, List.nodup_cons]
  have hplain : ∀ t ∈ (children T n.path).map (Prod.snd ∘ childKey), Plain dotName dotdotName t := by
    intro t ht
    obtain ⟨k, hk, rfl⟩ := List.mem_map.mp ht
    exact child_plain h hk
  refine ⟨?_, fun hmem => (hplain _ hmem).2 rfl, children_names_nodup h n.path⟩
  rw [List.mem_cons]
  rintro (heq | hmem)
  · exact absurd (show dotName = dotdotName from heq) (by decide)
  · exact (hplain _ hmem).1 rfl

/-- Taking the child `t` out of a listing. -/
theorem listing_erase {T : FileTree} (n parent : FileNode) {t : Str}
    (ht : Plain dotName dotdotName t) :
    listing (erase T (n.path ++ [t])) n parent = (listing T n parent).filter (·.2 ≠ t) := by
  have hchildren : (children (erase T (n.path ++ [t])) n.path).map childKey =
      ((children T n.path).map childKey).filter (·.2 ≠ t) := by
    rw [children_erase, List.filter_map]
    congr 1
    apply List.filter_congr
    intro k hk
    rw [childKey_name hk]
    simp
  rw [listing, listing, hchildren, List.filter_cons_of_pos (by simpa using ht.1.symm),
    List.filter_cons_of_pos (by simpa using ht.2.symm)]

/-- A record taken out of a block whose names are distinct. -/
theorem filter_name_middle {pre post : List DirEntry} {r : DirEntry}
    (h : ((pre ++ r :: post).map DirEntry.name).Nodup) :
    ((pre ++ r :: post).map DirEntry.key).filter (·.2 ≠ r.name) =
      (pre ++ post).map DirEntry.key := by
  rw [List.map_append, List.map_cons] at h
  have hmid := (List.nodup_middle.mp h).notMem
  rw [← List.map_append] at hmid
  have hkeep : ∀ qs : List DirEntry, (∀ q ∈ qs, q ∈ pre ++ post) →
      (qs.map DirEntry.key).filter (·.2 ≠ r.name) = qs.map DirEntry.key := by
    intro qs hqs
    rw [List.filter_eq_self]
    intro key hkey
    obtain ⟨q, hq, rfl⟩ := List.mem_map.mp hkey
    rw [decide_eq_true_iff]
    intro heq
    exact hmid (List.mem_map.mpr ⟨q, hqs q hq, heq⟩)
  rw [List.map_append, List.map_cons, List.filter_append,
    List.filter_cons_of_neg (by simp [DirEntry.key]),
    hkeep pre fun q hq => List.mem_append_left _ hq,
    hkeep post fun q hq => List.mem_append_right _ hq, ← List.map_append]

/-! The search. -/

section Root

variable {T : FileTree} {s : Abyssfs} {root : FileNode}

theorem Mounted.rootNode (h : Mounted T s) :
    ∃ root, root ∈ T ∧ root.path = [] ∧ root.label = 1 ∧ root.isDir = true ∧ find T [] = some root := by
  obtain ⟨root, hfind, hlabel, hdir⟩ := h.rep.root
  obtain ⟨hmem, hpath⟩ := find_some hfind
  exact ⟨root, hmem, hpath, hlabel, hdir, hfind⟩

theorem Mounted.listed (h : Mounted T s) (hroot : find T [] = some root) :
    ∃ rs, DirAt s.mem 9 rs ∧ rs.map DirEntry.key = listing T root root := by
  obtain ⟨root', hmem, hpath, hlabel, hdir, hfind⟩ := h.rootNode
  obtain rfl : root' = root := Option.some.inj (hfind.symm.trans hroot)
  obtain ⟨parent, rs, hparent, hrs, hkeys⟩ := h.rep.directory _ hmem hdir
  have hblock : nodeBlock s.mem root' = 9 := by
    rw [nodeBlock, hlabel, h.rootBlock]
  rw [hpath, List.dropLast_nil, hfind, Option.some.injEq] at hparent
  rw [hblock] at hrs
  exact ⟨rs, hrs, by rw [hkeys, hparent]⟩

/-- What the entry of a name in the root directory is. -/
theorem Mounted.rootEntry (h : Mounted T s) (hroot : find T [] = some root) {rs : List DirEntry}
    (hkeys : rs.map DirEntry.key = listing T root root) {r : DirEntry} (hr : r ∈ rs) :
    ((r.name = dotName ∨ r.name = dotdotName) ∧ r.inode = 1) ∨
    ∃ n, find T [r.name] = some n ∧ n.label = r.inode ∧ Plain dotName dotdotName r.name := by
  obtain ⟨root', _, hpath, hlabel, _, hfind⟩ := h.rootNode
  obtain rfl : root' = root := Option.some.inj (hfind.symm.trans hroot)
  have hmem : r.key ∈ listing T root' root' := by
    rw [← hkeys]
    exact List.mem_map_of_mem hr
  rw [listing, hlabel, hpath, List.mem_cons, List.mem_cons] at hmem
  rcases hmem with heq | heq | hmem
  · obtain ⟨hinode, hname⟩ := Prod.mk.inj heq
    exact Or.inl ⟨Or.inl hname, hinode⟩
  · obtain ⟨hinode, hname⟩ := Prod.mk.inj heq
    exact Or.inl ⟨Or.inr hname, hinode⟩
  · obtain ⟨n, hn, heq⟩ := List.mem_map.mp hmem
    obtain ⟨hinode, hname⟩ := Prod.mk.inj heq
    have hnpath : n.path = [r.name] := by
      rw [childKey_name hn]
      exact congrArg (fun t => [t]) hname
    have hplain := child_plain h.rep.tree hn
    refine Or.inr ⟨n, ?_, hinode, ?_⟩
    · rw [← hnpath]
      exact h.rep.tree.find_mem (List.mem_of_mem_filter hn)
    · rwa [show (childKey n).2 = r.name from hname] at hplain

theorem entry_names {rs : List DirEntry} {T : FileTree} {n parent : FileNode}
    (h : rs.map DirEntry.key = listing T n parent) :
    rs.map DirEntry.name = (listing T n parent).map Prod.snd := by
  rw [← h, List.map_map]
  rfl

/-- The root directory has no entry of this name. -/
theorem Mounted.unlink_missing (h : Mounted T s) {path : Str} (hnul : 0 ∉ path)
    (hplain : Plain dotName dotdotName (skipSlash path)) (hfind : find T [skipSlash path] = none) :
    abyssfsUnlink s path = some (-1, s) := by
  obtain ⟨root, _, _, _, _, hroot⟩ := h.rootNode
  obtain ⟨rs, hrs, hkeys⟩ := h.listed hroot
  rcases abyssfsUnlink_root hrs hnul with ⟨_, hcall, _⟩ | ⟨pre, r, post, e, rfl, hr, _⟩
  · exact hcall
  · rcases h.rootEntry hroot hkeys (r := r) (by simp) with ⟨hdots, _⟩ | ⟨n, hn, _⟩
    · rw [hr] at hdots
      rcases hdots with hdot | hdotdot
      · exact absurd hdot hplain.1
      · exact absurd hdotdot hplain.2
    · rw [hr, hfind] at hn
      cases hn

/-- Unlinking one of the two dots clears the root inode. -/
theorem Mounted.unlink_dots (h : Mounted T s) {path : Str} (hnul : 0 ∉ path)
    (hdots : skipSlash path = dotName ∨ skipSlash path = dotdotName) {result : Int} {s' : Abyssfs}
    (hcall : abyssfsUnlink s path = some (result, s')) :
    result = 0 ∧ mode s'.mem (inodeAddr 1) = 0 := by
  obtain ⟨root, _, _, _, _, hroot⟩ := h.rootNode
  obtain ⟨rs, hrs, hkeys⟩ := h.listed hroot
  rcases abyssfsUnlink_root hrs hnul with ⟨hnone, _, _⟩ |
    ⟨pre, r, post, e, rfl, hr, _, hpacked, _, heq⟩
  · -- both names stand in every directory
    have hnames : skipSlash path ∈ rs.map DirEntry.name := by
      rw [entry_names hkeys, listing, List.map_cons, List.map_cons]
      rcases hdots with hdot | hdotdot
      · rw [hdot]
        exact List.mem_cons_self
      · rw [hdotdot]
        exact List.mem_cons_of_mem _ List.mem_cons_self
    obtain ⟨q, hq, hname⟩ := List.mem_map.mp hnames
    exact absurd hname (hnone q hq)
  · have hinode : r.inode = 1 := by
      rcases h.rootEntry hroot hkeys (r := r) (by simp) with ⟨_, hone⟩ | ⟨_, _, _, hplain⟩
      · exact hone
      · rw [hr] at hplain
        rcases hdots with hdot | hdotdot
        · exact absurd hdot hplain.1
        · exact absurd hdotdot hplain.2
    rw [heq, hinode, Option.map_eq_some_iff] at hcall
    obtain ⟨m', hremove, hres⟩ := hcall
    obtain ⟨rfl, rfl⟩ := Prod.mk.inj hres
    refine ⟨rfl, ?_⟩
    have hstart : 36864 ≤ e := by
      have := hpacked.end_eq
      omega
    have hbytes : ∀ x < 36864, m' x = write32 s.mem (inodeAddr 1) 0 x := by
      intro x hx
      rw [removeEntry_below hremove (by omega), releaseInode_mem s (by omega)]
    rw [(SameInode.of_data (n := 1) (by omega) hbytes).mode, mode, read32_write32]
    rfl

/-- Unlinking a name of the root directory: its record is taken out of the directory, the inode it
leads to is cleared and its block given back. -/
theorem Mounted.unlink_entry (h : Mounted T s) (hroot : find T [] = some root) {path : Str}
    (hnul : 0 ∉ path) {n : FileNode}
    (hn : step dotName dotdotName T root (skipSlash path) = some n) :
    ∃ s' rs', abyssfsUnlink s path = some (0, s') ∧ DirAt s'.mem 9 rs' ∧
      rs'.map DirEntry.key = (listing T root root).filter (·.2 ≠ skipSlash path) ∧
      OnlyBlock (write32 s.mem (inodeAddr n.label) 0) s'.mem 9 ∧
      s'.blockBitmap = (releaseInode s n.label).blockBitmap := by
  obtain ⟨root', hrootT, hpath, _, hdir, hfind⟩ := h.rootNode
  obtain rfl : root' = root := Option.some.inj (hfind.symm.trans hroot)
  obtain ⟨rs, hrs, hkeys⟩ := h.listed hroot
  have hup : find T root'.path.dropLast = some root' := by rwa [hpath]
  have hlabel := listing_find T hdir hup (skipSlash path)
  rw [← hkeys, hn, Option.map_some] at hlabel
  rcases abyssfsUnlink_root hrs hnul with ⟨hnone, _, _⟩ |
    ⟨pre, r, post, e, rfl, hr, hpre, hpacked, _, heq⟩
  · rw [find?_key_none hnone] at hlabel
    cases hlabel
  · rw [find?_key hr hpre, Option.map_some, Option.some.injEq] at hlabel
    have hnT : n ∈ T := lookup_mem hrootT ((lookup_singleton _).trans hn)
    have hlt := (h.rep.range n hnT).2
    rw [show r.inode = n.label from hlabel] at heq
    -- the two dots are in every directory
    have hne : pre ++ post ≠ [] := by
      intro hnil
      have hlen := congrArg List.length hkeys
      rw [List.append_eq_nil_iff] at hnil
      rw [hnil.1, hnil.2, listing] at hlen
      simp at hlen
    have hmem := releaseInode_mem s hlt
    have houtside : ∀ x, 36864 ≤ x → write32 s.mem (inodeAddr n.label) 0 x = s.mem x := fun x hx =>
      write32_outside _ _ (by rw [inodeAddr_eq]; omega)
    have hlisted : DirAt (releaseInode s n.label).mem 9 (pre ++ r :: post) := by
      rw [hmem]
      exact hrs.congr fun x hx _ => houtside x (by omega)
    have hpacked' : Packed (releaseInode s n.label).mem (9 * 4096) pre e := by
      rw [hmem]
      exact hpacked.congr fun x hx _ => houtside x (by omega)
    obtain ⟨m', hremove, hdir', honly⟩ := removeEntry_dir hlisted hpacked' hne
    rw [hmem] at honly
    rw [hremove] at heq
    refine ⟨_, pre ++ post, heq, hdir', ?_, honly, rfl⟩
    have hnodup : ((pre ++ r :: post).map DirEntry.name).Nodup := by
      rw [entry_names hkeys]
      exact listing_names_nodup h.rep.tree _ _
    rw [← filter_name_middle hnodup, hkeys, hr]

/-- What is left of the root directory without the record of a child. -/
theorem Mounted.unlink_child (h : Mounted T s) (hroot : find T [] = some root) {path : Str}
    (hnul : 0 ∉ path) {n : FileNode} (hn : find T [skipSlash path] = some n) :
    ∃ s' rs', abyssfsUnlink s path = some (0, s') ∧ DirAt s'.mem 9 rs' ∧
      rs'.map DirEntry.key = listing (erase T [skipSlash path]) root root ∧
      OnlyBlock (write32 s.mem (inodeAddr n.label) 0) s'.mem 9 ∧
      s'.blockBitmap = (releaseInode s n.label).blockBitmap := by
  obtain ⟨root', _, hpath, _, hdir, hfind⟩ := h.rootNode
  obtain rfl : root' = root := Option.some.inj (hfind.symm.trans hroot)
  obtain ⟨hnT, hnpath⟩ := find_some hn
  have hplain : Plain dotName dotdotName (skipSlash path) :=
    h.rep.tree.plain n hnT _ (by rw [hnpath]; exact List.mem_singleton_self _)
  have hstep : step dotName dotdotName T root' (skipSlash path) = some n := by
    rw [step, if_pos hdir, if_neg hplain.1, if_neg hplain.2, hpath, List.nil_append, hn]
  have herase := listing_erase (T := T) root' root' hplain
  rw [hpath, List.nil_append] at herase
  rw [herase]
  exact h.unlink_entry hroot hnul hstep

/-- Unlinking a regular file of the root directory removes its node and nothing else. -/
theorem Mounted.unlink_file (h : Mounted T s) {path : Str} (hnul : 0 ∉ path) {n : FileNode}
    (hn : find T [skipSlash path] = some n) (hfile : n.isDir = false) :
    ∃ s', abyssfsUnlink s path = some (0, s') ∧ Mounted (erase T [skipSlash path]) s' ∧
      OnlyBlock (write32 s.mem (inodeAddr n.label) 0) s'.mem 9 := by
  obtain ⟨root, hrootT, hpath, hone, hdir, hroot⟩ := h.rootNode
  obtain ⟨s', rs', hcall, hrs', hkeys, honly, hbitmap⟩ := h.unlink_child hroot hnul hn
  obtain ⟨hnT, hnpath⟩ := find_some hn
  have hnlt := (h.rep.range n hnT).2
  have hother : ∀ k ∈ T, k ≠ n → SameInode s.mem s'.mem k.label := by
    intro k hk hkn
    have hne : k.label ≠ n.label := fun heq => hkn (h.rep.eq_of_label hk hnT heq)
    exact released_other honly (h.rep.range k hk).2 hne
  have hkept : ∀ k ∈ erase T [skipSlash path], k ∈ T ∧ k ≠ n := by
    intro k hk
    obtain ⟨hkT, hkpath⟩ := mem_erase.mp hk
    exact ⟨hkT, fun heq => hkpath (by rw [heq, hnpath])⟩
  have hrootn : root ≠ n := by
    rintro rfl
    rw [hdir] at hfile
    cases hfile
  have hblock : ∀ k ∈ erase T [skipSlash path], nodeBlock s'.mem k = nodeBlock s.mem k :=
    fun k hk => (hother k (hkept k hk).1 (hkept k hk).2).blocks
  have hrootBlock : nodeBlock s.mem root = 9 := by rw [nodeBlock, hone, h.rootBlock]
  have hnblock : nodeBlock s.mem n < 64 := by
    rcases h.rep.blockRange n hnT with ⟨_, hzero⟩ | ⟨_, hlt, _⟩
    · omega
    · exact hlt
  have hused : ∀ k ∈ T, k ≠ n → nodeBlock s.mem k ≠ 0 → nodeBlock s.mem k < 64 →
      s.used (nodeBlock s.mem k) = true → s'.used (nodeBlock s.mem k) = true := by
    intro k hk hkn hnz hlt hbit
    have hsame : s'.used (nodeBlock s.mem k) = (releaseInode s n.label).used (nodeBlock s.mem k) := by
      rw [Abyssfs.used, Abyssfs.used, hbitmap]
    rw [hsame, releaseInode_used s hnlt hnblock hlt, hbit, Bool.true_and, decide_eq_true_iff]
    right
    intro heq
    exact hkn (h.rep.separate k hk n hnT heq.symm hnz)
  refine ⟨s', hcall, ⟨⟨?_, ?_, ?_, ?_, ?_, ?_, ?_, ?_, ?_⟩, ?_⟩, honly⟩
  · apply h.rep.tree.erase
    intro k hk
    rw [hn, Option.some.injEq] at hk
    rw [← hk]
    exact hfile
  · refine ⟨root, ?_, hone, hdir⟩
    rw [find_erase_of_ne (by simp), hroot]
  · intro k hk
    exact h.rep.range k (hkept k hk).1
  · exact h.rep.labels.sublist ((erase_sublist T _).map Node.label)
  · intro k hk
    rw [(hother k (hkept k hk).1 (hkept k hk).2).mode]
    exact h.rep.inUse k (hkept k hk).1
  · intro k hk
    rw [(hother k (hkept k hk).1 (hkept k hk).2).mode]
    exact h.rep.kind k (hkept k hk).1
  · intro k hk hkdir
    obtain ⟨hkT, hkn⟩ := hkept k hk
    rw [hblock k hk]
    by_cases hkroot : k = root
    · subst hkroot
      refine ⟨k, rs', ?_, ?_, hkeys⟩
      · rw [hpath, List.dropLast_nil, find_erase_of_ne (by simp), hroot]
      · rw [hrootBlock]
        exact hrs'
    · obtain ⟨parent, rs, hparent, hrs, hrskeys⟩ := h.rep.directory k hkT hkdir
      have hkblock : nodeBlock s.mem k ≠ 9 := by
        intro heq
        rw [← hrootBlock] at heq
        exact hkroot (h.rep.separate k hkT root hrootT heq (by omega))
      have hklo := (h.rep.dirBlock hkT hkdir).1
      have hkpath : k.path ≠ [] := by
        intro heq
        exact hkroot (List.inj_on_of_nodup_map h.rep.tree.nodup hkT hrootT (heq.trans hpath.symm))
      refine ⟨parent, rs, ?_, ?_, ?_⟩
      · -- the parent is a directory, so it has not been removed
        rw [find_erase_of_ne, hparent]
        intro heq
        rw [heq, hn] at hparent
        obtain ⟨p, hp, hpdir⟩ := h.rep.tree.parent k hkT hkpath
        rw [heq, hn, Option.some.injEq] at hp
        rw [← hp, hfile] at hpdir
        cases hpdir
      · apply DirAt.other _ honly hkblock
        exact hrs.congr fun x hx _ => write32_outside _ _ (by rw [inodeAddr_eq]; omega)
      · rw [hrskeys, listing, listing, children_erase, List.filter_eq_self.mpr]
        intro c hc
        rw [decide_eq_true_iff, childKey_name hc]
        intro heq
        exact hkpath (List.append_eq_singleton_iff.mp heq |>.elim (fun h => h.1) fun h => by simp at h)
  · intro k hk
    obtain ⟨hkT, hkn⟩ := hkept k hk
    rw [hblock k hk]
    rcases h.rep.blockRange k hkT with hzero | ⟨hlo, hhi, hbit⟩
    · exact Or.inl hzero
    · exact Or.inr ⟨hlo, hhi, hused k hkT hkn (by omega) hhi hbit⟩
  · intro i hi j hj
    rw [hblock i hi, hblock j hj]
    exact h.rep.separate i (hkept i hi).1 j (hkept j hj).1
  · rw [← hone, (hother root hrootT hrootn).blocks, hone]
    exact h.rootBlock

/-- An unlink that takes out another entry leaves a volume without this tree. -/
theorem Mounted.unlink_other (h : Mounted T s) {path : Str} (hnul : 0 ∉ path) {s' : Abyssfs}
    (hcall : abyssfsUnlink s path = some (0, s')) {p : List Str} (hp : p ≠ [skipSlash path]) :
    ¬Mounted (erase T p) s' := by
  intro h'
  obtain ⟨root, hrootT, hpath, hone, hdir, hroot⟩ := h.rootNode
  obtain ⟨root', hrootT', hpath', hone', hdir', hroot'⟩ := h'.rootNode
  obtain rfl : root' = root :=
    List.inj_on_of_nodup_map h.rep.tree.nodup (mem_erase.mp hrootT').1 hrootT (hpath'.trans hpath.symm)
  by_cases hdots : skipSlash path = dotName ∨ skipSlash path = dotdotName
  · have hgone := (h.unlink_dots hnul hdots hcall).2
    have hinUse := h'.rep.inUse root' hrootT'
    rw [hone] at hinUse
    exact hinUse hgone
  · have hplain : Plain dotName dotdotName (skipSlash path) :=
      ⟨fun heq => hdots (Or.inl heq), fun heq => hdots (Or.inr heq)⟩
    cases hfind : find T [skipSlash path] with
    | none =>
        rw [h.unlink_missing hnul hplain hfind] at hcall
        cases hcall
    | some n =>
        -- the same search would have to fail and to succeed
        obtain ⟨u, rs', hcall', hrs', hkeys', _⟩ := h.unlink_child hroot hnul hfind
        obtain rfl : u = s' := congrArg Prod.snd (Option.some.inj (hcall'.symm.trans hcall))
        obtain ⟨rs, hrs, hkeys⟩ := h'.listed hroot'
        have htoken := skipSlash_nul_free hnul
        obtain ⟨found, hsearch, hmap⟩ := hrs.findEntry_key htoken
        obtain ⟨found', hsearch', hmap'⟩ := hrs'.findEntry_key htoken
        obtain rfl : found = found' := Option.some.inj (hsearch.symm.trans hsearch')
        have hstep : ∀ T' : FileTree, step dotName dotdotName T' root' (skipSlash path) =
            find T' [skipSlash path] := by
          intro T'
          rw [step, if_pos hdir, if_neg hplain.1, if_neg hplain.2, hpath, List.nil_append]
        have hsome : find (erase T p) [skipSlash path] = some n :=
          (find_erase_of_ne hp.symm).trans hfind
        have hnone : find (erase T [skipSlash path]) [skipSlash path] = none := by
          rw [find_none]
          intro k hk
          exact (mem_erase.mp hk).2
        rw [hkeys, listing_find _ hdir (by rw [hpath, List.dropLast_nil, hroot']), hstep, hsome]
          at hmap
        rw [hkeys', listing_find _ hdir (by
          rw [hpath, List.dropLast_nil, find_erase_of_ne (by simp), hroot]), hstep, hnone] at hmap'
        rw [hmap] at hmap'
        cases hmap'

end Root

end Chthon
