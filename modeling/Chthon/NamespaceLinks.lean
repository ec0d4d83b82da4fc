import Chthon.Lib.IntrusiveList
import Chthon.Lib.Run
import Chthon.VfsNamespaces
import Chthon.VfsRefusals

/-! The bindings as `namespace.c` keeps them: nodes from the heap, each with a pointer to the next,
and a head `mounts` in every process. `bind` and `unbind` are given once more, here with these
pointers. Whatever process makes which call when, the list of each process is the one that its own
successful calls make. -/

namespace Chthon

open Run IntrusiveList

/-- The kernel with the nodes of bindings by their addresses. The lists in `base` are not looked
at. -/
structure LinkedNs where
  base : Kernel
  mounts : ProcessPtr → Option Nat
  node : Nat → Namespace
  next : Nat → Option Nat

inductive NsEvent where
  | bind (old new : Str) (flags : Int)
  | unbind (path : Str)
  | switch (current : Option ProcessPtr)

theorem kalloc_le {heapPos size heapPos' : Nat} {addr : Option Nat}
    (h : kalloc heapPos size = (addr, heapPos')) : heapPos ≤ heapPos' := by
  unfold kalloc at h
  split_ifs at h <;> cases h <;> omega

namespace LinkedNs

def setHeap (h : LinkedNs) (heapPos : Nat) : LinkedNs :=
  { h with base := { h.base with heapPos := heapPos } }

/-- The loop over the bindings of process `p`; they lie in the heap, so there are fewer than it has
bytes. -/
def walk (h : LinkedNs) (p : ProcessPtr) (path : Str) : Option (Option Nat) :=
  search h.next (fun a => (h.node a).newPath.isPrefixOf path) h.base.heapPos (h.mounts p)

/-- `resolve_namespace_path` -/
def resolveNamespacePath (h : LinkedNs) (path : Str) : Option (Str × LinkedNs) :=
  match h.base.current with
  | none => some (path, h)
  | some p =>
      match h.walk p path with
      | none => none
      | some none => some (path, h)
      | some (some a) =>
          match kalloc h.base.heapPos maxPath with
          | (none, _) => some (path, h)
          | (some _, heapPos) =>
              let ns := h.node a
              let rest := path.drop ns.newPath.length
              if rest ≠ [] ∧ rest.head? ≠ some slash ∧ ns.oldPath = [] then none
              else
                let joint := if rest ≠ [] ∧ rest.head? ≠ some slash ∧
                  ns.oldPath.getLast? ≠ some slash then [slash] else []
                if (ns.oldPath ++ joint ++ rest).length ≥ maxPath then none
                else some (ns.oldPath ++ joint ++ rest, h.setHeap heapPos)

/-- `vfs_read_dir` -/
def vfsReadDir (h : LinkedNs) (path : Str) (maxEntries : Nat) :
    Option (Option (List (Nat × Str)) × LinkedNs) :=
  match h.resolveNamespacePath path with
  | none => none
  | some (resolved, h) =>
      match findMount resolved with
      | none => some (none, h)
      | some fs => (fsReadDir h.base resolved maxEntries fs).map fun dirents => (dirents, h)

/-- `create_namespace`: the node gets its fields when all three allocations have succeeded. -/
def createNamespace (h : LinkedNs) (old new : Str) (flags : Int) : Option Nat × LinkedNs :=
  match kalloc h.base.heapPos namespaceSize with
  | (none, heapPos) => (none, h.setHeap heapPos)
  | (some ns, heapPos) =>
      let (oldAddr, heapPos) := kalloc heapPos (old.length + 1)
      let (newAddr, heapPos) := kalloc heapPos (new.length + 1)
      if oldAddr.isNone ∨ newAddr.isNone then (none, h.setHeap heapPos)
      else (some ns, { h.setHeap heapPos with
        node := Function.update h.node ns ⟨old, new, flags⟩
        next := Function.update h.next ns none })

def bind (h : LinkedNs) (old new : Str) (flags : Int) : Option (Int × LinkedNs) :=
  match h.vfsReadDir old 1 with
  | none => none
  | some (none, h) => some (-1, h)
  | some (some _, h) =>
      match h.vfsReadDir new 1 with
      | none => none
      | some (none, h) => some (-1, h)
      | some (some _, h) =>
          match h.createNamespace old new flags with
          | (none, h) => some (-1, h)
          | (some ns, h) =>
              match h.base.current with
              | none => some (0, h)
              | some p => some (0, { h with
                  next := Function.update h.next ns (h.mounts p)
                  mounts := Function.update h.mounts p (some ns) })

/-- The loop of `unbind` by process `p`. -/
def unbindLoop (p : ProcessPtr) (path : Str) :
    Nat → Option Nat → Option Nat → LinkedNs → Option (Int × LinkedNs)
  | _, _, none, h => some (-1, h)
  | 0, _, some _, _ => none
  | fuel + 1, prev, some entry, h =>
      if (h.node entry).newPath = path then
        match prev with
        | some prev => some (0, { h with next := Function.update h.next prev (h.next entry) })
        | none => some (0, { h with mounts := Function.update h.mounts p (h.next entry) })
      else unbindLoop p path fuel (some entry) (h.next entry) h

def unbind (h : LinkedNs) (path : Str) : Option (Int × LinkedNs) :=
  match h.base.current with
  | none => some (-1, h)
  | some p => unbindLoop p path h.base.heapPos none (h.mounts p) h

/-- A call, with the process that makes it and the result, or a switch. -/
def step (h : LinkedNs) (e : NsEvent) : Option ((Option ProcessPtr × Int) × LinkedNs) :=
  match e with
  | .bind old new flags =>
      (h.bind old new flags).map fun (result, h') => ((h.base.current, result), h')
  | .unbind path => (h.unbind path).map fun (result, h') => ((h.base.current, result), h')
  | .switch current =>
      some ((h.base.current, 0), { h with base := { h.base with current := current } })

/-- The bindings of a process, found along the pointers. -/
def bindings (h : LinkedNs) (p : ProcessPtr) : List Namespace :=
  (collect h.next h.base.heapPos (h.mounts p)).map h.node

/-- The kernel with the lists the pointers stand for. -/
def kernel (h : LinkedNs) : Kernel :=
  { h.base with procs := fun p => { h.base.procs p with ns := h.bindings p } }

/-- The pointers of every process lead through nodes of its own. -/
structure Represents (h : LinkedNs) (nodes : ProcessPtr → List Nat) : Prop where
  chain : ∀ p, Chain h.next (h.mounts p) (nodes p)
  allocated : ∀ p, ∀ a ∈ nodes p, a < h.base.heapPos
  apart : ∀ p q, p ≠ q → ∀ a ∈ nodes p, a ∉ nodes q

namespace Represents

variable {h h' : LinkedNs} {nodes : ProcessPtr → List Nat} (hr : Represents h nodes)
  {path : Str} {n : Nat}
include hr

theorem length_le (p : ProcessPtr) : (nodes p).length ≤ h.base.heapPos :=
  (hr.chain p).length_le (hr.allocated p)

theorem bindings_eq (p : ProcessPtr) : h.bindings p = (nodes p).map h.node := by
  rw [bindings, (hr.chain p).collect_eq (hr.length_le p)]

theorem setHeap (hn : h.base.heapPos ≤ n) : Represents (h.setHeap n) nodes where
  chain := hr.chain
  allocated p a ha := Nat.lt_of_lt_of_le (hr.allocated p a ha) hn
  apart := hr.apart

theorem kernel_setHeap (hn : h.base.heapPos ≤ n) :
    (h.setHeap n).kernel = { h.kernel with heapPos := n } := by
  have hbindings : (h.setHeap n).bindings = h.bindings := by
    funext p
    rw [(hr.setHeap hn).bindings_eq, hr.bindings_eq]
    rfl
  rw [kernel, hbindings]
  rfl

theorem walk_eq (p : ProcessPtr) (path : Str) :
    h.walk p path = some ((nodes p).find? fun a => (h.node a).newPath.isPrefixOf path) :=
  (hr.chain p).search_eq _ (hr.length_le p)

/-- Both walks find the same binding. -/
theorem resolve_eq (path : Str) : Chthon.resolveNamespacePath h.kernel path =
    (h.resolveNamespacePath path).map fun (resolved, h') => (resolved, h'.kernel) := by
  unfold Chthon.resolveNamespacePath LinkedNs.resolveNamespacePath
  rw [Kernel.currentProcess, show h.kernel.current = h.base.current from rfl]
  cases hcur : h.base.current with
  | none => rfl
  | some p =>
      have hns : (h.kernel.procs p).ns = (nodes p).map h.node := hr.bindings_eq p
      dsimp only [Option.map_some]
      rw [hns, hr.walk_eq, List.find?_map, show ((fun ns : Namespace => ns.newPath.isPrefixOf path) ∘
        h.node) = fun a => (h.node a).newPath.isPrefixOf path from rfl,
        show h.kernel.heapPos = h.base.heapPos from rfl]
      cases (nodes p).find? fun a => (h.node a).newPath.isPrefixOf path with
      | none => rfl
      | some a =>
          cases halloc : kalloc h.base.heapPos maxPath with
          | mk addr heapPos =>
              cases addr with
              | none => rfl
              | some addr =>
                  have hheap := hr.kernel_setHeap (kalloc_le halloc)
                  dsimp only [Option.map_some]
                  split_ifs
                  · rfl
                  · rfl
                  · rw [Option.map_some, hheap, ← hcur]
                    rfl
                  · rfl
                  · rw [Option.map_some, hheap, ← hcur]
                    rfl

/-- Resolving takes heap, and changes nothing else. -/
theorem resolve_heap {resolved : Str} (h₁ : h.resolveNamespacePath path = some (resolved, h')) :
    ∃ n, h.base.heapPos ≤ n ∧ h' = h.setHeap n := by
  unfold LinkedNs.resolveNamespacePath at h₁
  split at h₁
  · cases h₁
    exact ⟨_, le_rfl, rfl⟩
  · rename_i p _
    rw [hr.walk_eq] at h₁
    split at h₁
    · cases h₁
    · cases h₁
      exact ⟨_, le_rfl, rfl⟩
    · split at h₁
      · cases h₁
        exact ⟨_, le_rfl, rfl⟩
      · rename_i halloc
        dsimp only at h₁
        split_ifs at h₁ <;> cases h₁ <;> exact ⟨_, kalloc_le halloc, rfl⟩

theorem readDir_heap {maxEntries : Nat} {dirents : Option (List (Nat × Str))}
    (h₁ : h.vfsReadDir path maxEntries = some (dirents, h')) :
    ∃ n, h.base.heapPos ≤ n ∧ h' = h.setHeap n := by
  unfold LinkedNs.vfsReadDir at h₁
  split at h₁
  · cases h₁
  · rename_i hresolve
    obtain ⟨n, hn, rfl⟩ := hr.resolve_heap hresolve
    split at h₁
    · cases h₁
      exact ⟨n, hn, rfl⟩
    · rw [Option.map_eq_some_iff] at h₁
      obtain ⟨_, _, heq⟩ := h₁
      cases heq
      exact ⟨n, hn, rfl⟩

theorem readDir_eq (path : Str) (maxEntries : Nat) :
    Chthon.vfsReadDir h.kernel path maxEntries =
      (h.vfsReadDir path maxEntries).map fun (dirents, h') => (dirents, h'.kernel) := by
  unfold Chthon.vfsReadDir LinkedNs.vfsReadDir
  rw [hr.resolve_eq]
  cases hresolve : h.resolveNamespacePath path with
  | none => rfl
  | some answer =>
      obtain ⟨resolved, h₁⟩ := answer
      dsimp only [Option.map_some]
      cases findMount resolved with
      | none => rfl
      | some fs =>
          have hlist : fsReadDir h₁.kernel resolved maxEntries fs =
              fsReadDir h₁.base resolved maxEntries fs := by cases fs <;> rfl
          dsimp only
          rw [hlist, Option.map_map]
          rfl

end Represents

/-! What the two calls do to the pointers. -/

/-- The new node `a` in front of the bindings of the current process; without one, it is lost. -/
def added (h : LinkedNs) (a n : Nat) (ns : Namespace) : LinkedNs :=
  match h.base.current with
  | none => { h.setHeap n with
      node := Function.update h.node a ns, next := Function.update h.next a none }
  | some p => { h.setHeap n with
      node := Function.update h.node a ns
      next := Function.update h.next a (h.mounts p)
      mounts := Function.update h.mounts p (some a) }

/-- Node `a`, behind `prev`, taken out of the bindings of process `p`. -/
def unlinked (h : LinkedNs) (p : ProcessPtr) (prev : Option Nat) (a : Nat) : LinkedNs :=
  match prev with
  | some prev => { h with next := Function.update h.next prev (h.next a) }
  | none => { h with mounts := Function.update h.mounts p (h.next a) }

theorem unlinked_base (h : LinkedNs) (p : ProcessPtr) (prev : Option Nat) (a : Nat) :
    (h.unlinked p prev a).base = h.base := by
  cases prev <;> rfl

theorem unlinked_node (h : LinkedNs) (p : ProcessPtr) (prev : Option Nat) (a : Nat) :
    (h.unlinked p prev a).node = h.node := by
  cases prev <;> rfl

theorem unbindLoop_found {h : LinkedNs} {p : ProcessPtr} {path : Str} {fuel a : Nat}
    {prev : Option Nat} (hpath : (h.node a).newPath = path) :
    unbindLoop p path (fuel + 1) prev (some a) h = some (0, h.unlinked p prev a) := by
  cases prev <;> simp [unbindLoop, unlinked, hpath]

theorem unbindLoop_other {h : LinkedNs} {p : ProcessPtr} {path : Str} {fuel a : Nat}
    {prev : Option Nat} (hpath : (h.node a).newPath ≠ path) :
    unbindLoop p path (fuel + 1) prev (some a) h =
      unbindLoop p path fuel (some a) (h.next a) h := by
  cases prev <;> simp [unbindLoop, hpath]

/-- The loop of `unbind` goes to the first node with the path. -/
theorem unbindLoop_cases {h : LinkedNs} {p : ProcessPtr} {path : Str} (before : List Nat)
    {l : List Nat}
    {entry : Option Nat} (hentry : Chain h.next entry l) {fuel : Nat} (hfuel : l.length ≤ fuel) :
    ((∀ a ∈ l, (h.node a).newPath ≠ path) ∧
      unbindLoop p path fuel before.getLast? entry h = some (-1, h)) ∨
    ∃ l₁ a l₂, l = l₁ ++ a :: l₂ ∧ (∀ b ∈ l₁, (h.node b).newPath ≠ path) ∧
      (h.node a).newPath = path ∧ unbindLoop p path fuel before.getLast? entry h =
        some (0, h.unlinked p (before ++ l₁).getLast? a) := by
  induction l generalizing before entry fuel with
  | nil =>
      rw [Chain] at hentry
      refine .inl ⟨by simp, ?_⟩
      rw [hentry]
      cases fuel <;> rfl
  | cons a l ih =>
      obtain ⟨rfl, hrest⟩ := hentry
      cases fuel with
      | zero => simp at hfuel
      | succ fuel =>
          rw [List.length_cons] at hfuel
          by_cases hpath : (h.node a).newPath = path
          · refine .inr ⟨[], a, l, rfl, by simp, hpath, ?_⟩
            rw [unbindLoop_found hpath, List.append_nil]
          · rw [unbindLoop_other hpath, show some a = (before ++ [a]).getLast? by simp]
            have hfuel' : l.length ≤ fuel := by omega
            rcases ih (before ++ [a]) hrest hfuel' with
              ⟨hnone, hloop⟩ | ⟨l₁, b, l₂, rfl, hbefore, hb, hloop⟩
            · refine .inl ⟨fun b hb => ?_, hloop⟩
              rcases List.mem_cons.mp hb with rfl | hb
              · exact hpath
              · exact hnone b hb
            · refine .inr ⟨a :: l₁, b, l₂, rfl, fun c hc => ?_, hb, ?_⟩
              · rcases List.mem_cons.mp hc with rfl | hc
                · exact hpath
                · exact hbefore c hc
              · rw [hloop, List.append_assoc]
                rfl

/-- What `bind` does with the node from `create_namespace`. -/
theorem link_eq_added (h : LinkedNs) (a n : Nat) (ns : Namespace) :
    (match (h.setHeap n).base.current with
      | none => some ((0 : Int), { h.setHeap n with
          node := Function.update h.node a ns, next := Function.update h.next a none })
      | some p => some (0, { h.setHeap n with
          node := Function.update h.node a ns
          next := Function.update (Function.update h.next a none) a (h.mounts p)
          mounts := Function.update h.mounts p (some a) })) = some (0, h.added a n ns) := by
  rw [added, show (h.setHeap n).base.current = h.base.current from rfl]
  cases h.base.current with
  | none => rfl
  | some p =>
      dsimp only
      rw [Function.update_idem]

theorem createNamespace_cases (h : LinkedNs) (old new : Str) (flags : Int) :
    (∃ n, h.base.heapPos ≤ n ∧ h.createNamespace old new flags = (none, h.setHeap n) ∧
      Chthon.createNamespace h.base.heapPos old new flags = (none, n)) ∨
    ∃ n, h.base.heapPos < n ∧
      h.createNamespace old new flags = (some h.base.heapPos, { h.setHeap n with
        node := Function.update h.node h.base.heapPos ⟨old, new, flags⟩
        next := Function.update h.next h.base.heapPos none }) ∧
      Chthon.createNamespace h.base.heapPos old new flags = (some ⟨old, new, flags⟩, n) := by
  unfold LinkedNs.createNamespace Chthon.createNamespace
  cases hnode : kalloc h.base.heapPos namespaceSize with
  | mk node n₁ =>
      cases node with
      | none => exact .inl ⟨n₁, kalloc_le hnode, rfl, rfl⟩
      | some node =>
          obtain ⟨rfl, hn₁⟩ : node = h.base.heapPos ∧ h.base.heapPos < n₁ := by
            unfold kalloc at hnode
            split_ifs at hnode
            · cases hnode
            · cases hnode
              exact ⟨rfl, by simp [namespaceSize]⟩
          have hle : n₁ ≤ (kalloc (kalloc n₁ (old.length + 1)).2 (new.length + 1)).2 :=
            (kalloc_le rfl).trans (kalloc_le rfl)
          dsimp only
          split_ifs
          · exact .inl ⟨_, hn₁.le.trans hle, rfl, rfl⟩
          · exact .inr ⟨_, hn₁.trans_le hle, rfl, rfl⟩

namespace Represents

variable {h h' : LinkedNs} {nodes : ProcessPtr → List Nat} (hr : Represents h nodes)
include hr

/-- A call of `bind` takes heap and, if it succeeds, adds one node. -/
theorem bind_cases {old new : Str} {flags result : Int}
    (hcall : h.bind old new flags = some (result, h')) :
    (result = -1 ∧ ∃ n, h.base.heapPos ≤ n ∧ h' = h.setHeap n) ∨
    (result = 0 ∧ ∃ a n, h.base.heapPos ≤ a ∧ a < n ∧ h' = h.added a n ⟨old, new, flags⟩) := by
  unfold LinkedNs.bind at hcall
  split at hcall
  · cases hcall
  · rename_i hold
    cases hcall
    exact .inl ⟨rfl, hr.readDir_heap hold⟩
  · rename_i hold
    obtain ⟨n₁, hn₁, rfl⟩ := hr.readDir_heap hold
    split at hcall
    · cases hcall
    · rename_i hnew
      obtain ⟨n₂, hn₂, rfl⟩ := (hr.setHeap hn₁).readDir_heap hnew
      cases hcall
      exact .inl ⟨rfl, n₂, hn₁.trans hn₂, rfl⟩
    · rename_i hnew
      obtain ⟨n₂, hn₂, rfl⟩ := (hr.setHeap hn₁).readDir_heap hnew
      have hle : h.base.heapPos ≤ n₂ := hn₁.trans hn₂
      rcases createNamespace_cases ((h.setHeap n₁).setHeap n₂) old new flags with
        ⟨n, hn, hns, -⟩ | ⟨n, hn, hns, -⟩
      · rw [hns] at hcall
        cases hcall
        exact .inl ⟨rfl, n, hle.trans hn, rfl⟩
      · rw [hns] at hcall
        cases hcall.symm.trans (link_eq_added ((h.setHeap n₁).setHeap n₂) n₂ n ⟨old, new, flags⟩)
        exact .inr ⟨rfl, n₂, n, hle, hn, rfl⟩

theorem unbind_cases {p : ProcessPtr} (hcur : h.base.current = some p) (path : Str) :
    ((∀ a ∈ nodes p, (h.node a).newPath ≠ path) ∧ h.unbind path = some (-1, h)) ∨
    ∃ l₁ a l₂, nodes p = l₁ ++ a :: l₂ ∧ (∀ b ∈ l₁, (h.node b).newPath ≠ path) ∧
      (h.node a).newPath = path ∧ h.unbind path = some (0, h.unlinked p l₁.getLast? a) := by
  rw [LinkedNs.unbind, hcur]
  exact unbindLoop_cases [] (hr.chain p) (hr.length_le p)

/-! The pointers still lead through nodes of their own. -/

theorem added_none (hcur : h.base.current = none) {a n : Nat} (ha : h.base.heapPos ≤ a)
    (hn : a < n) (ns : Namespace) : Represents (h.added a n ns) nodes := by
  have hnew : ∀ p, a ∉ nodes p := fun p hmem => Nat.not_lt_of_le ha (hr.allocated p a hmem)
  rw [added, hcur]
  exact ⟨fun p => (hr.chain p).update_of_not_mem (hnew p) none,
    fun p b hb => (hr.allocated p b hb).trans_le (ha.trans hn.le), hr.apart⟩

theorem added_some {p : ProcessPtr} (hcur : h.base.current = some p) {a n : Nat}
    (ha : h.base.heapPos ≤ a) (hn : a < n) (ns : Namespace) :
    Represents (h.added a n ns) (Function.update nodes p (a :: nodes p)) := by
  have hnew : ∀ p, a ∉ nodes p := fun p hmem => Nat.not_lt_of_le ha (hr.allocated p a hmem)
  have hbound : ∀ p, ∀ b ∈ nodes p, b < n :=
    fun p b hb => (hr.allocated p b hb).trans_le (ha.trans hn.le)
  rw [added, hcur]
  refine ⟨fun q => ?_, fun q b hb => ?_, fun q r hne b hb => ?_⟩
  · by_cases hq : q = p
    · subst hq
      dsimp only
      rw [Function.update_self, Function.update_self]
      exact (hr.chain q).push (hnew q)
    · dsimp only
      rw [Function.update_of_ne hq, Function.update_of_ne hq]
      exact (hr.chain q).update_of_not_mem (hnew q) _
  · by_cases hq : q = p
    · subst hq
      rw [Function.update_self] at hb
      rcases List.mem_cons.mp hb with rfl | hb
      · exact hn
      · exact hbound q b hb
    · rw [Function.update_of_ne hq] at hb
      exact hbound q b hb
  · by_cases hq : q = p
    · subst hq
      rw [Function.update_self] at hb
      rw [Function.update_of_ne (Ne.symm hne)]
      rcases List.mem_cons.mp hb with rfl | hb
      · exact hnew r
      · exact hr.apart q r hne b hb
    · rw [Function.update_of_ne hq] at hb
      by_cases hr' : r = p
      · subst hr'
        rw [Function.update_self, List.mem_cons, not_or]
        exact ⟨fun heq => hnew q (heq ▸ hb), hr.apart q r hne b hb⟩
      · rw [Function.update_of_ne hr']
        exact hr.apart q r hne b hb

theorem unlinked {p : ProcessPtr} {l₁ l₂ : List Nat} {a : Nat} (hnodes : nodes p = l₁ ++ a :: l₂) :
    Represents (h.unlinked p l₁.getLast? a) (Function.update nodes p (l₁ ++ l₂)) := by
  have hsub : ∀ b ∈ l₁ ++ l₂, b ∈ nodes p := by
    intro b hb
    rw [hnodes]
    rcases List.mem_append.mp hb with hb | hb
    · exact List.mem_append_left _ hb
    · exact List.mem_append_right _ (List.mem_cons_of_mem a hb)
  have hmem : ∀ q, ∀ b ∈ Function.update nodes p (l₁ ++ l₂) q, b ∈ nodes q := by
    intro q b hb
    by_cases hq : q = p
    · subst hq
      rw [Function.update_self] at hb
      exact hsub b hb
    · rwa [Function.update_of_ne hq] at hb
  have hchain := hr.chain p
  rw [hnodes] at hchain
  refine ⟨fun q => ?_, fun q b hb => ?_, fun q r hne b hb hb' => ?_⟩
  · rcases List.eq_nil_or_concat l₁ with rfl | ⟨l, prev, rfl⟩
    · -- the first node: the head moves on
      rw [List.getLast?_nil, LinkedNs.unlinked]
      by_cases hq : q = p
      · subst hq
        dsimp only
        rw [Function.update_self, Function.update_self]
        exact hchain.2
      · dsimp only
        rw [Function.update_of_ne hq, Function.update_of_ne hq]
        exact hr.chain q
    · -- a later node: its predecessor, a node of the same process, skips it
      rw [List.concat_eq_append, List.getLast?_append, List.getLast?_singleton, Option.some_or,
        LinkedNs.unlinked]
      rw [List.concat_eq_append, List.append_assoc] at hchain hnodes
      by_cases hq : q = p
      · subst hq
        dsimp only
        rw [Function.update_self, List.append_assoc]
        exact hchain.unlink
      · dsimp only
        rw [Function.update_of_ne hq]
        refine (hr.chain q).update_of_not_mem (hr.apart p q (Ne.symm hq) prev ?_) _
        rw [hnodes]
        simp
  · have hlt := hr.allocated q b (hmem q b hb)
    rwa [unlinked_base]
  · exact hr.apart q r hne b (hmem q b hb) (hmem r b hb')

/-! The lists. -/

theorem bindings_added_none (hcur : h.base.current = none) {a n : Nat} (ha : h.base.heapPos ≤ a)
    (hn : a < n) (ns : Namespace) : (h.added a n ns).bindings = h.bindings := by
  funext p
  rw [(hr.added_none hcur ha hn ns).bindings_eq, hr.bindings_eq, added, hcur]
  apply List.map_congr_left
  intro b hb
  have hne : b ≠ a := fun heq => Nat.not_lt_of_le ha (hr.allocated p a (heq ▸ hb))
  exact Function.update_of_ne hne _ _

theorem bindings_added_some {p : ProcessPtr} (hcur : h.base.current = some p) {a n : Nat}
    (ha : h.base.heapPos ≤ a) (hn : a < n) (ns : Namespace) (q : ProcessPtr) :
    (h.added a n ns).bindings q = if q = p then ns :: h.bindings q else h.bindings q := by
  have hold : ∀ q, (nodes q).map (Function.update h.node a ns) = (nodes q).map h.node := by
    intro q
    apply List.map_congr_left
    intro b hb
    have hne : b ≠ a := fun heq => Nat.not_lt_of_le ha (hr.allocated q a (heq ▸ hb))
    exact Function.update_of_ne hne _ _
  have hnode : (h.added a n ns).node = Function.update h.node a ns := by
    rw [added, hcur]
  rw [(hr.added_some hcur ha hn ns).bindings_eq, hr.bindings_eq, hnode]
  split_ifs with hq
  · subst hq
    rw [Function.update_self, List.map_cons, hold, Function.update_self]
  · rw [Function.update_of_ne hq, hold]

theorem bindings_unlinked {p : ProcessPtr} {path : Str} {l₁ l₂ : List Nat} {a : Nat}
    (hnodes : nodes p = l₁ ++ a :: l₂) (hbefore : ∀ b ∈ l₁, (h.node b).newPath ≠ path)
    (ha : (h.node a).newPath = path) (q : ProcessPtr) :
    (h.unlinked p l₁.getLast? a).bindings q =
      if q = p then (h.bindings q).eraseP fun ns => ns.newPath = path else h.bindings q := by
  rw [(hr.unlinked hnodes).bindings_eq, hr.bindings_eq, unlinked_node]
  split_ifs with hq
  · subst hq
    rw [Function.update_self, hnodes, List.map_append, List.map_append, List.map_cons,
      List.eraseP_append_right _ (by simpa using hbefore), List.eraseP_cons_of_pos (by simpa using ha)]
  · rw [Function.update_of_ne hq]

/-! The functions of `VfsModel`, which have the lists as values, take the same steps. -/

theorem kernel_added_some {p : ProcessPtr} (hcur : h.base.current = some p) {a n : Nat}
    (ha : h.base.heapPos ≤ a) (hn : a < n) (ns : Namespace) :
    (h.added a n ns).kernel = ({ h.kernel with heapPos := n } : Kernel).setProc p
      { h.kernel.procs p with ns := ns :: (h.kernel.procs p).ns } := by
  have hbase : (h.added a n ns).base = { h.base with heapPos := n } := by
    rw [added, hcur]
    rfl
  have hprocs : (fun q => { h.base.procs q with ns := (h.added a n ns).bindings q }) =
      Function.update h.kernel.procs p
        { h.kernel.procs p with ns := ns :: (h.kernel.procs p).ns } := by
    funext q
    rw [hr.bindings_added_some hcur ha hn]
    split_ifs with hq
    · subst hq
      rw [Function.update_self]
      rfl
    · rw [Function.update_of_ne hq]
      rfl
  rw [LinkedNs.kernel, hbase, Kernel.setProc, ← hprocs]
  rfl

theorem kernel_added_none (hcur : h.base.current = none) {a n : Nat} (ha : h.base.heapPos ≤ a)
    (hn : a < n) (ns : Namespace) : (h.added a n ns).kernel = { h.kernel with heapPos := n } := by
  have hbase : (h.added a n ns).base = { h.base with heapPos := n } := by
    rw [added, hcur]
    rfl
  rw [LinkedNs.kernel, hbase, hr.bindings_added_none hcur ha hn]
  rfl

/-- The last step of `bind`, on the lists. -/
theorem kernel_added {a n : Nat} (ha : h.base.heapPos ≤ a) (hn : a < n) (ns : Namespace) :
    (match ({ h.kernel with heapPos := n } : Kernel).current with
      | none => some ((0 : Int), { h.kernel with heapPos := n })
      | some p => some (0, ({ h.kernel with heapPos := n } : Kernel).setProc p
          { h.kernel.procs p with ns := ns :: (h.kernel.procs p).ns })) =
      some (0, (h.added a n ns).kernel) := by
  cases hcur : h.base.current with
  | none =>
      rw [hr.kernel_added_none hcur ha hn, show ({ h.kernel with heapPos := n } : Kernel).current =
        none from hcur]
  | some p =>
      rw [hr.kernel_added_some hcur ha hn, show ({ h.kernel with heapPos := n } : Kernel).current =
        some p from hcur]

theorem bind_eq (old new : Str) (flags : Int) : Chthon.bind h.kernel old new flags =
    (h.bind old new flags).map fun (result, h') => (result, h'.kernel) := by
  unfold Chthon.bind LinkedNs.bind
  rw [hr.readDir_eq]
  cases hold : h.vfsReadDir old 1 with
  | none => rfl
  | some answer =>
      obtain ⟨dirents, h₁⟩ := answer
      obtain ⟨n₁, hn₁, rfl⟩ := hr.readDir_heap hold
      cases dirents with
      | none => rfl
      | some dirents =>
          dsimp only [Option.map_some]
          rw [(hr.setHeap hn₁).readDir_eq]
          cases hnew : (h.setHeap n₁).vfsReadDir new 1 with
          | none => rfl
          | some answer =>
              obtain ⟨dirents', h₂⟩ := answer
              obtain ⟨n₂, hn₂, rfl⟩ := (hr.setHeap hn₁).readDir_heap hnew
              cases dirents' with
              | none => rfl
              | some dirents' =>
                  have hr₂ := (hr.setHeap hn₁).setHeap hn₂
                  dsimp only [Option.map_some]
                  rcases createNamespace_cases ((h.setHeap n₁).setHeap n₂) old new flags with
                    ⟨n, hn, hns, hns'⟩ | ⟨n, hn, hns, hns'⟩
                  · rw [hns, show Chthon.createNamespace ((h.setHeap n₁).setHeap n₂).kernel.heapPos
                      old new flags = (none, n) from hns']
                    exact congrArg (fun k => some (-1, k)) (hr₂.kernel_setHeap hn).symm
                  · rw [hns, show Chthon.createNamespace ((h.setHeap n₁).setHeap n₂).kernel.heapPos
                      old new flags = (some ⟨old, new, flags⟩, n) from hns']
                    have hlink := link_eq_added ((h.setHeap n₁).setHeap n₂) n₂ n ⟨old, new, flags⟩
                    refine Eq.trans ?_ (congrArg (Option.map _) hlink.symm)
                    dsimp only [Option.map_some]
                    exact hr₂.kernel_added le_rfl hn _

theorem kernel_unlinked {p : ProcessPtr} {path : Str} {l₁ l₂ : List Nat} {a : Nat}
    (hnodes : nodes p = l₁ ++ a :: l₂) (hbefore : ∀ b ∈ l₁, (h.node b).newPath ≠ path)
    (ha : (h.node a).newPath = path) :
    (h.unlinked p l₁.getLast? a).kernel = h.kernel.setProc p { h.kernel.procs p with
      ns := (h.kernel.procs p).ns.eraseP fun ns => ns.newPath = path } := by
  have hprocs : (fun q => { h.base.procs q with
      ns := (h.unlinked p l₁.getLast? a).bindings q }) =
      Function.update h.kernel.procs p { h.kernel.procs p with
        ns := (h.kernel.procs p).ns.eraseP fun ns => ns.newPath = path } := by
    funext q
    rw [hr.bindings_unlinked hnodes hbefore ha]
    split_ifs with hq
    · subst hq
      rw [Function.update_self]
      rfl
    · rw [Function.update_of_ne hq]
      rfl
  rw [LinkedNs.kernel, unlinked_base, Kernel.setProc, ← hprocs]
  rfl

theorem unbind_eq (path : Str) : some (Chthon.unbind h.kernel path) =
    (h.unbind path).map fun (result, h') => (result, h'.kernel) := by
  rw [Chthon.unbind, show h.kernel.current = h.base.current from rfl]
  cases hcur : h.base.current with
  | none =>
      rw [LinkedNs.unbind, hcur]
      rfl
  | some p =>
      have hns : (h.kernel.procs p).ns = (nodes p).map h.node := hr.bindings_eq p
      dsimp only
      rcases hr.unbind_cases hcur path with ⟨hnone, hcall⟩ | ⟨l₁, a, l₂, hnodes, hbefore, ha, hcall⟩
      · rw [hcall, if_neg]
        · rfl
        · simpa [hns] using hnone
      · rw [hcall, if_pos]
        · rw [Option.map_some, hr.kernel_unlinked hnodes hbefore ha]
        · rw [hns, hnodes]
          simp [ha]

end Represents

/-! Runs. -/

/-- A successful call on the list of the process that makes it. -/
def applyCall (l : List Namespace) : NsEvent → List Namespace
  | .bind old new flags => ⟨old, new, flags⟩ :: l
  | .unbind path => l.eraseP fun ns => ns.newPath = path
  | .switch _ => l

/-- The successful calls of process `p`. -/
def ownCalls (p : ProcessPtr) (trace : List (NsEvent × (Option ProcessPtr × Int))) : List NsEvent :=
  trace.filterMap fun (e, caller, result) => if caller = some p ∧ result = 0 then some e else none

/-- The list that calls make from nothing. -/
def stackOf (calls : List NsEvent) : List Namespace := calls.foldl applyCall []

theorem ownCalls_snoc (p : ProcessPtr) (trace : List (NsEvent × (Option ProcessPtr × Int)))
    (e : NsEvent) (caller : Option ProcessPtr) (result : Int) :
    ownCalls p (trace ++ [(e, caller, result)]) =
      if caller = some p ∧ result = 0 then ownCalls p trace ++ [e] else ownCalls p trace := by
  rw [ownCalls, List.filterMap_append]
  by_cases hown : caller = some p ∧ result = 0
  · simp [ownCalls, hown]
  · simp [ownCalls, hown]

theorem stackOf_snoc (calls : List NsEvent) (e : NsEvent) :
    stackOf (calls ++ [e]) = applyCall (stackOf calls) e := by
  rw [stackOf, List.foldl_append]
  rfl

section Steps

variable {h h' : LinkedNs} {nodes : ProcessPtr → List Nat} {e : NsEvent} {caller : Option ProcessPtr}
  {result : Int}

/-- One event acts on the list of its caller, where it succeeds, and on no other. -/
theorem Represents.step (hr : Represents h nodes) (hstep : h.step e = some ((caller, result), h')) :
    caller = h.base.current ∧ (result = 0 ∨ result = -1) ∧ (∃ nodes', Represents h' nodes') ∧
      ∀ p, h'.bindings p =
        if caller = some p ∧ result = 0 then applyCall (h.bindings p) e else h.bindings p := by
  cases e with
  | bind old new flags =>
      rw [LinkedNs.step, Option.map_eq_some_iff] at hstep
      obtain ⟨⟨result, h'⟩, hcall, heq⟩ := hstep
      cases heq
      rcases hr.bind_cases hcall with ⟨rfl, n, hn, rfl⟩ | ⟨rfl, a, n, ha, hn, rfl⟩
      · refine ⟨rfl, .inr rfl, ⟨nodes, hr.setHeap hn⟩, fun p => ?_⟩
        rw [if_neg (by simp), (hr.setHeap hn).bindings_eq, hr.bindings_eq]
        rfl
      · cases hcur : h.base.current with
        | none =>
            refine ⟨rfl, .inl rfl, ⟨nodes, hr.added_none hcur ha hn _⟩, fun p => ?_⟩
            rw [if_neg (by simp), hr.bindings_added_none hcur ha hn]
        | some p =>
            refine ⟨rfl, .inl rfl, ⟨_, hr.added_some hcur ha hn _⟩, fun q => ?_⟩
            rw [hr.bindings_added_some hcur ha hn]
            simp only [Option.some.injEq, and_true, eq_comm (a := q), applyCall]
  | unbind path =>
      rw [LinkedNs.step, Option.map_eq_some_iff] at hstep
      obtain ⟨⟨result, h'⟩, hcall, heq⟩ := hstep
      cases heq
      cases hcur : h.base.current with
      | none =>
          rw [LinkedNs.unbind, hcur] at hcall
          cases hcall
          exact ⟨rfl, .inr rfl, ⟨nodes, hr⟩, fun p => (if_neg (by simp)).symm⟩
      | some p =>
          rcases hr.unbind_cases hcur path with ⟨-, hcall'⟩ | ⟨l₁, a, l₂, hnodes, hbefore, ha, hcall'⟩
          · cases hcall.symm.trans hcall'
            exact ⟨rfl, .inr rfl, ⟨nodes, hr⟩, fun p => (if_neg (by simp)).symm⟩
          · cases hcall.symm.trans hcall'
            refine ⟨rfl, .inl rfl, ⟨_, hr.unlinked hnodes⟩, fun q => ?_⟩
            rw [hr.bindings_unlinked hnodes hbefore ha]
            simp only [Option.some.injEq, and_true, eq_comm (a := q), applyCall]
  | switch current =>
      cases hstep
      refine ⟨rfl, .inl rfl, ⟨nodes, hr.chain, hr.allocated, hr.apart⟩, fun p => ?_⟩
      split_ifs <;> rfl

end Steps

section Claims

variable {h₀ h h' : LinkedNs} {trace : List (NsEvent × (Option ProcessPtr × Int))} {e : NsEvent}
  {caller : Option ProcessPtr} {result : Int}

/-- At boot no process has bindings. -/
theorem represents_empty (hstart : ∀ p, h.mounts p = none) : Represents h fun _ => [] :=
  ⟨hstart, by simp, by simp⟩

/-- In every run the pointers stay in order, and the lists are those of the calls. -/
theorem run_bindings (hstart : ∀ p, h₀.mounts p = none)
    (hrun : Steps LinkedNs.step (fun _ _ => True) h₀ trace h) :
    (∃ nodes, Represents h nodes) ∧ ∀ p, h.bindings p = stackOf (ownCalls p trace) := by
  refine hrun.invariant (P := fun trace h => (∃ nodes, Represents h nodes) ∧
    ∀ p, h.bindings p = stackOf (ownCalls p trace)) ?_ ?_
  · have hempty := represents_empty hstart
    exact ⟨⟨_, hempty⟩, fun p => hempty.bindings_eq p⟩
  · rintro trace h e ⟨caller, result⟩ h' ⟨⟨nodes, hr⟩, hlists⟩ - hstep
    obtain ⟨-, -, hr', hstack⟩ := hr.step hstep
    refine ⟨hr', fun p => ?_⟩
    rw [hstack, hlists, ownCalls_snoc]
    split_ifs
    · rw [stackOf_snoc]
    · rfl

/-- A failed call changes nothing but the position of the heap. -/
theorem Represents.step_failed {nodes : ProcessPtr → List Nat} (hr : Represents h nodes)
    (hstep : h.step e = some ((caller, result), h')) (hneg : result < 0) :
    ∃ n, h' = h.setHeap n := by
  cases e with
  | bind old new flags =>
      rw [LinkedNs.step, Option.map_eq_some_iff] at hstep
      obtain ⟨⟨result, h'⟩, hcall, heq⟩ := hstep
      cases heq
      rcases hr.bind_cases hcall with ⟨-, n, -, hn⟩ | ⟨rfl, -⟩
      · exact ⟨n, hn⟩
      · exact absurd hneg (by decide)
  | unbind path =>
      rw [LinkedNs.step, Option.map_eq_some_iff] at hstep
      obtain ⟨⟨result, h'⟩, hcall, heq⟩ := hstep
      cases heq
      cases hcur : h.base.current with
      | none =>
          rw [LinkedNs.unbind, hcur] at hcall
          cases hcall
          exact ⟨h.base.heapPos, rfl⟩
      | some p =>
          rcases hr.unbind_cases hcur path with ⟨-, hcall'⟩ | ⟨_, _, _, -, -, -, hcall'⟩
          · cases hcall.symm.trans hcall'
            exact ⟨h.base.heapPos, rfl⟩
          · cases hcall.symm.trans hcall'
            exact absurd hneg (by decide)
  | switch current =>
      cases hstep
      exact absurd hneg (by decide)

/-- `unbind` fails where the list of the caller has no entry with the path. -/
theorem Represents.step_unbind {nodes : ProcessPtr → List Nat} (hr : Represents h nodes) {path : Str}
    (hstep : h.step (.unbind path) = some ((caller, result), h')) :
    result < 0 ↔ ∀ p, caller = some p → ∀ ns ∈ h.bindings p, ns.newPath ≠ path := by
  rw [LinkedNs.step, Option.map_eq_some_iff] at hstep
  obtain ⟨⟨result, h'⟩, hcall, heq⟩ := hstep
  cases heq
  have hlist := hr.unbind_eq path
  rw [hcall] at hlist
  have hresult : (Chthon.unbind h.kernel path).1 = result :=
    congrArg Prod.fst (Option.some.inj hlist)
  rw [← hresult, unbind_neg_iff]
  rfl

/-- `unbind` right after `bind` takes the new node out again. -/
theorem Represents.bind_unbind {nodes : ProcessPtr → List Nat} (hr : Represents h nodes)
    {p : ProcessPtr} {old new : Str} {flags : Int}
    (hstep : h.step (.bind old new flags) = some ((some p, 0), h')) :
    ∃ h₂, h'.step (.unbind new) = some ((some p, 0), h₂) ∧ h₂.mounts = h.mounts ∧
      h₂.bindings = h.bindings := by
  have hcur : h.base.current = some p := (hr.step hstep).1.symm
  rw [LinkedNs.step, Option.map_eq_some_iff] at hstep
  obtain ⟨⟨result, h'⟩, hcall, heq⟩ := hstep
  obtain ⟨hreply, rfl⟩ := Prod.mk.inj heq
  obtain ⟨-, rfl⟩ := Prod.mk.inj hreply
  rcases hr.bind_cases hcall with ⟨hneg, -⟩ | ⟨-, a, n, ha, hn, rfl⟩
  · cases hneg
  · have hr₁ := hr.added_some hcur ha hn ⟨old, new, flags⟩
    have hcur₁ : (h.added a n ⟨old, new, flags⟩).base.current = some p := by
      rw [added, hcur]
      exact hcur
    have hnode : (h.added a n ⟨old, new, flags⟩).node a = ⟨old, new, flags⟩ := by
      rw [added, hcur]
      exact Function.update_self _ _ _
    have hnodes := Function.update_self p (a :: nodes p) nodes
    rcases hr₁.unbind_cases hcur₁ new with ⟨hnone, -⟩ | ⟨l₁, b, l₂, hsplit, hbefore, -, hcall₂⟩
    · have hfirst := hnone a (by rw [hnodes]; exact List.mem_cons_self)
      rw [hnode] at hfirst
      exact absurd rfl hfirst
    · rw [hnodes] at hsplit
      obtain rfl : l₁ = [] := by
        cases l₁ with
        | nil => rfl
        | cons c l₁ =>
            obtain ⟨rfl, -⟩ := List.cons.inj hsplit
            have hfirst := hbefore a List.mem_cons_self
            rw [hnode] at hfirst
            exact absurd rfl hfirst
      obtain ⟨rfl, rfl⟩ := List.cons.inj hsplit
      have hmounts : ((h.added a n ⟨old, new, flags⟩).unlinked p none a).mounts = h.mounts := by
        rw [LinkedNs.unlinked, added, hcur]
        dsimp only
        rw [Function.update_self, Function.update_idem, Function.update_eq_self]
      refine ⟨_, ?_, hmounts, funext fun q => ?_⟩
      · rw [LinkedNs.step, hcall₂, hcur₁]
        rfl
      · have hlist := hr₁.bindings_unlinked hnodes hbefore (by rw [hnode]) q
        rw [List.getLast?_nil] at hlist
        rw [hlist, hr.bindings_added_some hcur ha hn]
        split_ifs with hq
        · rw [List.eraseP_cons_of_pos (by simp)]
        · rfl

end Claims

/-- **Namespaces are private stacks.** -/
theorem namespaces_private_stacks (h₀ h : LinkedNs) (hstart : ∀ p, h₀.mounts p = none)
    (trace : List (NsEvent × (Option ProcessPtr × Int)))
    (hrun : Steps LinkedNs.step (fun _ _ => True) h₀ trace h) :
    (∀ p, h.bindings p = stackOf (ownCalls p trace)) ∧
    (∀ e caller result h', h.step e = some ((caller, result), h') → result < 0 →
      ∃ n, h' = h.setHeap n) ∧
    (∀ path caller result h', h.step (.unbind path) = some ((caller, result), h') →
      (result < 0 ↔ ∀ p, caller = some p → ∀ ns ∈ h.bindings p, ns.newPath ≠ path)) ∧
    ∀ p old new flags h₁, h.step (.bind old new flags) = some ((some p, 0), h₁) →
      ∃ h₂, h₁.step (.unbind new) = some ((some p, 0), h₂) ∧ h₂.mounts = h.mounts ∧
        h₂.bindings = h.bindings := by
  obtain ⟨⟨nodes, hr⟩, hlists⟩ := run_bindings hstart hrun
  exact ⟨hlists, fun _ _ _ _ hstep => hr.step_failed hstep,
    fun _ _ _ _ hstep => hr.step_unbind hstep, fun _ _ _ _ _ hstep => hr.bind_unbind hstep⟩

def shellNs : LinkedNs :=
  ⟨shellKernel fun _ => 0, fun _ => none, fun _ => ⟨[], [], 0⟩, fun _ => none⟩

/-- Two processes; the second one tries to take a binding of the first. -/
def twoProcesses : List NsEvent :=
  [.bind (ascii "/tmp/data") (ascii "/tmp/mine") 16, .switch (some (.heap 1)),
    .unbind (ascii "/tmp/mine"), .bind (ascii "/tmp") (ascii "/tmp/b") 16,
    .switch (some (.heap 0))]

theorem namespaces_private_stacks_two :
    (twoProcesses.foldl (Run.next LinkedNs.step) shellNs).bindings (.heap 0) =
      [⟨ascii "/tmp/data", ascii "/tmp/mine", 16⟩] ∧
    (twoProcesses.foldl (Run.next LinkedNs.step) shellNs).bindings (.heap 1) =
      [⟨ascii "/tmp", ascii "/tmp/b", 16⟩] := by
  have hreplies : replies LinkedNs.step shellNs twoProcesses =
      some [(some (.heap 0), 0), (some (.heap 0), 0), (some (.heap 1), -1), (some (.heap 1), 0),
        (some (.heap 1), 0)] := by decide +kernel
  have hlists := (namespaces_private_stacks shellNs _ (fun _ => rfl) _
    (steps_of_replies LinkedNs.step shellNs twoProcesses _ hreplies (admits_true _ _))).1
  constructor
  · rw [hlists]
    decide
  · rw [hlists]
    decide

end LinkedNs

end Chthon
