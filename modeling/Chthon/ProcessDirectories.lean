import Chthon.NamespaceDecay
import Chthon.PathNormalize
import Chthon.ProcessRuns

/-! The working directories of processes over whole runs. `process_create` starts a process in the
root directory; `create_process` and `init_process` leave the field as it is, which is empty until
the process changes its directory. -/

namespace Chthon

open Run PathText PathResolution

/-- A working directory that paths can be appended to. -/
structure UsableDirectory (cwd : Str) : Prop where
  canonical : CanonicalPath cwd
  nulFree : 0 ∉ cwd
  fits : cwd.length < maxPath

/-! The system, with what a directory change depends on besides the processes. -/

inductive DirEvent where
  | process (e : ProcEvent)
  | chdir (msg : Message)
  /-- Anything that happens to user memory, the file systems and the bindings of the processes, and
  memory taken from the heap. -/
  | outside (user : ByteMemory.Memory) (abyss : Abyssfs) (ramfs : Ramfs)
      (bindings : ProcessPtr → List Namespace) (taken : Nat)

inductive DirReply where
  | process (r : ProcReply)
  | changed (proc : Option ProcessPtr) (result : Int)
  | returned
  deriving DecidableEq

def dirStep (img : Image) (s : System) : DirEvent → Option (DirReply × System)
  | .process e => (procStep img s e).map fun (r, s) => (.process r, s)
  | .chdir msg =>
      if s.busy then none
      else
        (chdirMessage s.kernel msg).map fun (result, _, k) =>
          (.changed s.kernel.current result, { s with kernel := k })
  | .outside user abyss ramfs bindings taken =>
      some (.returned, { s with kernel := { s.kernel with
        user := user
        abyss := abyss
        ramfs := ramfs
        procs := fun p => { s.kernel.procs p with ns := bindings p }
        heapPos := s.kernel.heapPos + taken } })

/-- Processes that `init_process` or `create_process` has made and that have yet to change their
directory. -/
def unplacedStep (ps : List ProcessPtr) : DirEvent × DirReply → List ProcessPtr
  | (.process .fork, .process (.created (some p))) => p :: ps
  | (.chdir _, .changed (some p) result) => if result = 0 then ps.filter (· ≠ p) else ps
  | _ => ps

def unplaced (s₀ : System) (trace : List (DirEvent × DirReply)) : List ProcessPtr :=
  trace.foldl unplacedStep s₀.kernel.processList

/-! A directory change. -/

section Change

variable {k k' : Kernel} {path full : Str} {p : ProcessPtr} {msg msg' : Message} {result : Int}

theorem mem_absolute {cs : List Str} {x : UInt8} (h : x ∈ absolute slash cs) :
    x = slash ∨ ∃ c ∈ cs, x ∈ c := by
  rw [absolute] at h
  split_ifs at h with hnil
  · exact .inl (List.mem_singleton.mp h)
  · obtain ⟨c, hc, hx⟩ := List.mem_flatMap.mp h
    rcases List.mem_cons.mp hx with rfl | hx
    · exact .inl rfl
    · exact .inr ⟨c, hc, hx⟩

theorem mem_foldl_segmentStep {ts cs : List Str} {s : Str} (hts : ∀ t ∈ ts, t ⊆ s)
    (hcs : ∀ c ∈ cs, c ⊆ s) : ∀ c ∈ ts.foldl segmentStep cs, c ⊆ s := by
  induction ts generalizing cs with
  | nil => exact hcs
  | cons t ts ih =>
      have ht := hts t List.mem_cons_self
      apply ih fun u hu => hts u (List.mem_cons_of_mem _ hu)
      intro c hc
      rw [segmentStep] at hc
      split_ifs at hc
      · exact hcs c hc
      · exact hcs c (List.mem_of_mem_dropLast hc)
      · exact hcs c hc
      · rcases List.mem_append.mp hc with hc | hc
        · exact hcs c hc
        · rw [List.mem_singleton.mp hc]
          exact fun x hx => ht (List.mem_of_mem_dropLast hx)
      · rcases List.mem_append.mp hc with hc | hc
        · exact hcs c hc
        · rw [List.mem_singleton.mp hc]
          exact ht

/-- Normalising invents no bytes. -/
theorem vfsNormalizePath_subset (h : path.head? = some slash) : vfsNormalizePath path ⊆ path := by
  intro x hx
  rw [vfsNormalizePath_eq h] at hx
  rcases mem_absolute hx with rfl | ⟨c, hc, hx⟩
  · exact List.mem_of_head? h
  · exact mem_foldl_segmentStep (fun t ht => (mem_components slash ht).2) (by simp) c hc hx

theorem usable_normalized (hhead : full.head? = some slash) (hlen : full.length < maxPath)
    (hnul : 0 ∉ full) : UsableDirectory ((vfsNormalizePath full).take (maxPath - 1)) := by
  have hshort := length_vfsNormalizePath hhead
  have htake : (vfsNormalizePath full).take (maxPath - 1) = vfsNormalizePath full :=
    List.take_of_length_le (by omega)
  rw [htake]
  exact ⟨canonicalPath_vfsNormalizePath hhead, fun h => hnul (vfsNormalizePath_subset hhead h),
    hshort.trans_lt hlen⟩

theorem stringWithin_nul_free {m : ByteMemory.Memory} {bound a : Nat} {text : Str}
    (h : stringWithin m bound a = some text) : 0 ∉ text := by
  induction bound generalizing a text with
  | zero => cases h
  | succ bound ih =>
      rw [stringWithin] at h
      split_ifs at h with hzero
      · cases h
        exact List.not_mem_nil
      · obtain ⟨rest, hrest, rfl⟩ := Option.map_eq_some_iff.mp h
        intro hmem
        rcases List.mem_cons.mp hmem with heq | hmem
        · exact hzero heq.symm
        · exact ih hrest hmem

theorem UsableDirectory.append {cwd rest : Str} (h : UsableDirectory cwd) (hnul : 0 ∉ rest) :
    (cwd ++ rest).head? = some slash ∧ 0 ∉ cwd ++ rest := by
  have hne : cwd ≠ [] := by
    rintro rfl
    cases h.canonical.rooted
  refine ⟨(List.head?_append_of_ne_nil _ hne).trans h.canonical.rooted, ?_⟩
  intro hmem
  rcases List.mem_append.mp hmem with hmem | hmem
  · exact h.nulFree hmem
  · exact hnul hmem

/-- The path `vfs_normalize_path` gets is absolute and short, whatever the process asks for. -/
theorem chdirPath_some (hcur : k.current = some p)
    (hcwd : (k.procs p).cwd = [] ∨ UsableDirectory (k.procs p).cwd) (hnul : 0 ∉ path)
    (h : chdirPath k path = some full) :
    full.head? = some slash ∧ full.length < maxPath ∧ 0 ∉ full := by
  rw [chdirPath] at h
  split_ifs at h with habs
  · cases h
    refine ⟨?_, ?_, fun hmem => hnul (List.mem_of_mem_take hmem)⟩
    · rw [List.eq_cons_of_mem_head? habs]
      rfl
    · rw [List.length_take, maxPath]
      omega
  · rw [fullPath, if_neg habs] at h
    simp only [Kernel.currentProcess, hcur, Option.map_some] at h
    split_ifs at h with hempty hslash hlong hlong
    · obtain ⟨hhead, hfree⟩ := (hcwd.resolve_left hempty).append hnul
      cases h
      exact ⟨hhead, Nat.lt_of_not_ge hlong, hfree⟩
    · have hjoint : 0 ∉ slash :: path := by
        simpa [slash] using hnul
      obtain ⟨hhead, hfree⟩ := (hcwd.resolve_left hempty).append hjoint
      rw [List.append_assoc] at h hlong
      cases h
      exact ⟨hhead, Nat.lt_of_not_ge hlong, hfree⟩

theorem vfsReadDir_takes {entries : Option (List (Nat × Str))} {count : Nat}
    (h : vfsReadDir k path count = some (entries, k')) :
    ∃ heapPos, k' = { k with heapPos := heapPos } := by
  rw [vfsReadDir_eq, Option.bind_eq_some_iff] at h
  obtain ⟨⟨text, k₁⟩, hresolve, h⟩ := h
  obtain ⟨_, -, heq⟩ := Option.map_eq_some_iff.mp h
  cases heq
  exact resolveNamespacePath_takes k path hresolve

/-- A directory change leaves the directory as it was, or succeeds and leaves a usable one. -/
theorem chdirMessage_cases (h : chdirMessage k msg = some (result, msg', k')) :
    (result = -1 ∧ ∃ heapPos, k' = { k with heapPos := heapPos }) ∨
      result = 0 ∧ ∃ p heapPos cwd, k.current = some p ∧
        k' = Kernel.setProc { k with heapPos := heapPos } p { k.procs p with cwd := cwd } ∧
        ((k.procs p).cwd = [] ∨ UsableDirectory (k.procs p).cwd → UsableDirectory cwd) := by
  unfold chdirMessage at h
  rcases Option.eq_none_or_eq_some k.current with hcur | ⟨p, hcur⟩
  · rw [hcur] at h
    cases h
    exact .inl ⟨rfl, k.heapPos, rfl⟩
  rw [hcur] at h
  cases hpath : (k.text msg.path).bind (chdirPath k) with
  | none => simp [hpath] at h
  | some full =>
      simp only [hpath] at h
      cases hread : vfsReadDir k (vfsNormalizePath full) 1 with
      | none => simp [hread] at h
      | some answer =>
          obtain ⟨entries, k₁⟩ := answer
          obtain ⟨heapPos, rfl⟩ := vfsReadDir_takes hread
          rw [hread] at h
          cases entries with
          | none =>
              cases h
              exact .inl ⟨rfl, heapPos, rfl⟩
          | some entries =>
              cases h
              refine .inr ⟨rfl, p, heapPos, _, hcur, rfl, ?_⟩
              intro hcwd
              obtain ⟨path, htext, hfull⟩ := Option.bind_eq_some_iff.mp hpath
              obtain ⟨hhead, hlen, hfree⟩ :=
                chdirPath_some hcur hcwd (stringWithin_nul_free htext) hfull
              exact usable_normalized hhead hlen hfree

end Change

/-! What the calls on processes do to working directories. -/

section Calls

variable {img : Image} {s s' : System} {e : ProcEvent} {r : ProcReply} {k k' : Kernel}

def ProcessPtr.onHeap : ProcessPtr → Bool
  | .heap _ => true
  | .processes _ => false

theorem cwd_setProc {p : ProcessPtr} {proc : Process} (h : proc.cwd = (k.procs p).cwd)
    (q : ProcessPtr) : ((k.setProc p proc).procs q).cwd = (k.procs q).cwd := by
  rw [setProc_procs]
  split_ifs with hq
  · rw [hq, h]
  · rfl

theorem cwd_setState (k : Kernel) (p : ProcessPtr) (state : ProcessState) (q : ProcessPtr) :
    ((k.setState p state).procs q).cwd = (k.procs q).cwd := cwd_setProc (by rfl) q

theorem cwd_schedule (h : schedule k = some k') (q : ProcessPtr) :
    (k'.procs q).cwd = (k.procs q).cwd := by
  rw [schedule_eq, Option.map_eq_some_iff] at h
  obtain ⟨next, -, rfl⟩ := h
  rfl

theorem cwd_exitedKernel (k : Kernel) (p : ProcessPtr) (status : Int) (q : ProcessPtr) :
    ((exitedKernel k p status).procs q).cwd = (k.procs q).cwd := by
  have hleft : ((k.setProc p { k.procs p with state := .zombie, exitStatus := status }).procs
      q).cwd = (k.procs q).cwd := cwd_setProc (by rfl) q
  unfold exitedKernel
  dsimp only
  split
  · split_ifs
    · exact (cwd_setState _ _ _ q).trans hleft
    · exact hleft
  · exact hleft

theorem cwd_queueMessage {proc : ProcessPtr} {msg : Message} {result : Int}
    (h : queueMessage k proc msg = some (result, k')) (q : ProcessPtr) :
    (k'.procs q).cwd = (k.procs q).cwd := by
  unfold queueMessage at h
  dsimp only at h
  split_ifs at h
  · cases h
    rfl
  · cases h
    exact cwd_setProc (by rfl) q

theorem cwd_receiveMessage {msg msg' : Message} {result : Int}
    (h : receiveMessage k msg = some (result, msg', k')) (q : ProcessPtr) :
    (k'.procs q).cwd = (k.procs q).cwd := by
  unfold receiveMessage at h
  cases hcur : k.current with
  | none => simp [hcur] at h
  | some p =>
      simp only [hcur] at h
      split_ifs at h
      · obtain ⟨k₁, hschedule, heq⟩ := Option.map_eq_some_iff.mp h
        cases heq
        exact (cwd_schedule hschedule q).trans (cwd_setProc (by rfl) q)
      · cases h
        rfl
      · cases h
        exact cwd_setProc (by rfl) q

/-- Only a process from the heap gets a directory. -/
theorem Taken.cwd (h : Taken img s e r s') (q : ProcessPtr) : (s'.kernel.procs q).cwd =
    if r = .created (some q) ∧ q.onHeap then ascii "/" else (s.kernel.procs q).cwd := by
  cases h with
  | created entry =>
      unfold processCreate
      rcases kalloc_cases s.kernel.heapPos processSize with hkalloc | hkalloc
      · rw [hkalloc]
        simp
      · rw [hkalloc]
        by_cases hq : q = .heap s.kernel.heapPos
        · simp [Kernel.setProc, ProcessPtr.onHeap, hq]
        · simp [Kernel.setProc, hq, Ne.symm hq]
  | forked new k called =>
      unfold createProcess at called
      split_ifs at called
      cases hcur : s.kernel.currentProcess with
      | none => simp [hcur] at called
      | some p =>
          simp only [hcur, Option.some.injEq, Prod.mk.injEq] at called
          obtain ⟨rfl, rfl⟩ := called
          rw [if_neg]
          · exact cwd_setProc (by rfl) q
          · rintro ⟨heq, hheap⟩
            obtain rfl : _ = q := by simpa using heq
            cases hheap
  | queued proc msg result k called =>
      rw [if_neg (by simp)]
      exact cwd_queueMessage called q
  | received p msg msg' result k caller hopen called =>
      rw [if_neg (by simp)]
      exact cwd_receiveMessage called q
  | receiving p msg k caller empty blocking taken =>
      rw [if_neg (by simp)]
      exact (cwd_schedule taken q).trans (cwd_setProc (by rfl) q)
  | waiting p k caller nobody taken | handling p k caller nobody taken =>
      rw [if_neg (by simp)]
      exact (cwd_schedule taken q).trans (cwd_setProc (by rfl) q)
  | handled p c caller found =>
      rw [if_neg (by simp)]
      exact cwd_setProc (by rfl) q
  | left p status k caller taken =>
      rw [if_neg (by simp)]
      exact (cwd_schedule taken q).trans (cwd_setProc (by rfl) q)
  | exited p status k caller taken =>
      rw [if_neg (by simp)]
      exact (cwd_schedule taken q).trans (cwd_exitedKernel _ p status q)
  | yielded k taken =>
      rw [if_neg (by simp)]
      exact cwd_schedule taken q
  | waited | nobodyExits | resumedWait | failedWait | resumedHandleWait | resumedReceive =>
      rw [if_neg (by simp)]

end Calls

/-! Every run. -/

section Runs

variable {img : Image} {s s' s₀ : System} {e : ProcEvent} {r : ProcReply} {ps : List ProcessPtr}

/-- What holds of the directories while the processes in `ps` have yet to change theirs. -/
structure DirectoryInv (s : System) (ps : List ProcessPtr) : Prop where
  slots : ∀ i, .processes i ∈ s.kernel.processList → i < s.kernel.processCount
  current : ∀ p, s.kernel.current = some p → p ∈ s.kernel.processList
  fresh : ∀ i, s.kernel.processCount ≤ i → (s.kernel.procs (.processes i)).cwd = []
  unplaced : ∀ p ∈ ps, p.onHeap = false ∧ p ∈ s.kernel.processList ∧ (s.kernel.procs p).cwd = []
  placed : ∀ p ∈ s.kernel.processList, p ∉ ps → UsableDirectory (s.kernel.procs p).cwd

theorem usableDirectory_root : UsableDirectory (ascii "/") :=
  have hroot : CanonicalPath (absolute slash []) := canonical_absolute (by simp)
  ⟨hroot, by decide, by decide⟩

theorem not_usableDirectory_nil : ¬ UsableDirectory [] := by
  intro h
  cases h.canonical.rooted

/-- The processes that have to change their directory first are the ones without a usable one. -/
theorem DirectoryInv.usable_iff (h : DirectoryInv s ps) :
    (∀ p ∈ s.kernel.processList, UsableDirectory (s.kernel.procs p).cwd) ↔ ps = [] := by
  constructor
  · intro hall
    rw [List.eq_nil_iff_forall_not_mem]
    intro p hp
    obtain ⟨-, hlisted, hempty⟩ := h.unplaced p hp
    exact not_usableDirectory_nil (hempty ▸ hall p hlisted)
  · rintro rfl p hp
    exact h.placed p hp List.not_mem_nil

/-- The caller of a directory change is in the list, so its directory is usable or still empty. -/
theorem DirectoryInv.caller (h : DirectoryInv s ps) {p : ProcessPtr}
    (hcur : s.kernel.current = some p) :
    (s.kernel.procs p).cwd = [] ∨ UsableDirectory (s.kernel.procs p).cwd := by
  by_cases hp : p ∈ ps
  · exact .inl (h.unplaced p hp).2.2
  · exact .inr (h.placed p (h.current p hcur) hp)

theorem Effect.current_listed (he : Effect s s' r)
    (h : ∀ p, s.kernel.current = some p → p ∈ s.kernel.processList) (p : ProcessPtr)
    (hp : s'.kernel.current = some p) : p ∈ s'.kernel.processList := by
  cases he with
  | idle _ table current =>
      rw [table.processList]
      exact h p (current ▸ hp)
  | reaped _ table _ _ _ current =>
      rw [table.processList]
      exact h p (current ▸ hp)
  | created q grown _ _ current =>
      rw [current, Option.some.injEq] at hp
      rw [grown, List.mem_cons]
      cases hcur : s.kernel.current with
      | none =>
          rw [hcur] at hp
          exact .inl hp.symm
      | some c =>
          rw [hcur] at hp
          exact .inr (h p (hcur.trans (congrArg some hp)))
  | switched _ k₁ taken table =>
      obtain ⟨next, hnext, hcurrent, htable, -, -⟩ := schedule_cases taken
      obtain rfl : next = p := Option.some.inj (hcurrent.symm.trans hp)
      rw [htable.processList]
      exact (firstReady_some hnext).1

/-- A call that makes no process. -/
theorem DirectoryInv.quiet (h : DirectoryInv s ps) (he : Effect s s' r)
    (hr : ∀ p, r ≠ .created p)
    (hcwd : ∀ q, (s'.kernel.procs q).cwd = (s.kernel.procs q).cwd) : DirectoryInv s' ps := by
  have table := he.sameTable hr
  refine ⟨?_, he.current_listed h.current, ?_, ?_, ?_⟩
  · rw [table.processList, table.processCount]
    exact h.slots
  · simp only [table.processCount, hcwd]
    exact h.fresh
  · simp only [table.processList, hcwd]
    exact h.unplaced
  · simp only [table.processList, hcwd]
    exact h.placed

/-- A process that `process_create` has made is placed at once. -/
theorem DirectoryInv.created (h : DirectoryInv s ps) {p : ProcessPtr} (hheap : p.onHeap = true)
    (grown : s'.kernel.processList = p :: s.kernel.processList)
    (count : s'.kernel.processCount = s.kernel.processCount)
    (current : ∀ q, s'.kernel.current = some q → q ∈ s'.kernel.processList)
    (hcwd : ∀ q, (s'.kernel.procs q).cwd = if p = q then ascii "/" else (s.kernel.procs q).cwd) :
    DirectoryInv s' ps := by
  have hother : ∀ q, q.onHeap = false → (s'.kernel.procs q).cwd = (s.kernel.procs q).cwd := by
    intro q hq
    rw [hcwd, if_neg]
    rintro rfl
    rw [hheap] at hq
    cases hq
  refine ⟨?_, current, ?_, ?_, ?_⟩
  · intro i hi
    rw [grown, List.mem_cons] at hi
    rw [count]
    rcases hi with rfl | hi
    · cases hheap
    · exact h.slots i hi
  · intro i hi
    rw [hother _ rfl]
    exact h.fresh i (count ▸ hi)
  · intro q hq
    obtain ⟨hslot, hlisted, hempty⟩ := h.unplaced q hq
    exact ⟨hslot, grown ▸ List.mem_cons_of_mem _ hlisted, (hother q hslot).trans hempty⟩
  · intro q hq hplaced
    rw [hcwd]
    split_ifs with heq
    · exact usableDirectory_root
    · rw [grown, List.mem_cons] at hq
      exact h.placed q (hq.resolve_left (Ne.symm heq)) hplaced

/-- A forked process takes a slot whose directory is still empty. -/
theorem DirectoryInv.forked (h : DirectoryInv s ps)
    (grown : s'.kernel.processList = .processes s.kernel.processCount :: s.kernel.processList)
    (count : s'.kernel.processCount = s.kernel.processCount + 1)
    (current : ∀ q, s'.kernel.current = some q → q ∈ s'.kernel.processList)
    (hcwd : ∀ q, (s'.kernel.procs q).cwd = (s.kernel.procs q).cwd) :
    DirectoryInv s' (.processes s.kernel.processCount :: ps) := by
  refine ⟨?_, current, ?_, ?_, ?_⟩
  · intro i hi
    rw [grown, List.mem_cons, ProcessPtr.processes.injEq] at hi
    rw [count]
    rcases hi with rfl | hi
    · exact Nat.lt_succ_self _
    · exact (h.slots i hi).trans (Nat.lt_succ_self _)
  · intro i hi
    rw [hcwd]
    exact h.fresh i (by omega)
  · intro q hq
    rw [hcwd, grown]
    rcases List.mem_cons.mp hq with rfl | hq
    · exact ⟨rfl, List.mem_cons_self, h.fresh _ le_rfl⟩
    · obtain ⟨hslot, hlisted, hempty⟩ := h.unplaced q hq
      exact ⟨hslot, List.mem_cons_of_mem _ hlisted, hempty⟩
  · intro q hq hplaced
    rw [hcwd]
    rw [grown, List.mem_cons] at hq
    rw [List.mem_cons, not_or] at hplaced
    exact h.placed q (hq.resolve_left hplaced.1) hplaced.2

theorem unplacedStep_quiet (hr : ∀ p, r ≠ .created p) :
    unplacedStep ps (.process e, .process r) = ps := by
  unfold unplacedStep
  split
  · rename_i heq
    cases heq
    exact absurd rfl (hr _)
  · rename_i heq
    cases heq
  · rfl

theorem DirectoryInv.process (h : DirectoryInv s ps) (ht : Taken img s e r s') :
    DirectoryInv s' (unplacedStep ps (.process e, .process r)) := by
  have he := ht.effect
  have hcurrent := he.current_listed h.current
  have hcwd := ht.cwd
  cases ht with
  | created entry =>
      change DirectoryInv _ ps
      unfold processCreate at hcurrent hcwd ⊢
      rcases kalloc_cases s.kernel.heapPos processSize with hkalloc | hkalloc
      · rw [hkalloc]
        exact h
      · rw [hkalloc] at hcurrent hcwd ⊢
        refine h.created (p := .heap s.kernel.heapPos) rfl rfl rfl hcurrent ?_
        intro q
        rw [hcwd]
        by_cases hq : q = .heap s.kernel.heapPos
        · simp [hq, ProcessPtr.onHeap]
        · simp [Ne.symm hq]
  | forked new k called =>
      have hother : ∀ q, (k.procs q).cwd = (s.kernel.procs q).cwd := by
        intro q
        have hq := hcwd q
        rwa [if_neg] at hq
        rintro ⟨heq, hheap⟩
        obtain rfl : new = q := by simpa using heq
        unfold createProcess at called
        split_ifs at called
        split at called
        · cases called
        · cases called
          cases hheap
      unfold createProcess at called
      split_ifs at called
      split at called
      · cases called
      · cases called
        exact h.forked rfl rfl hcurrent hother
  | _ =>
      rw [unplacedStep_quiet (by simp)]
      refine h.quiet he (by simp) fun q => ?_
      rw [hcwd, if_neg (by simp)]

theorem DirectoryInv.chdir (h : DirectoryInv s ps) {msg msg' : Message} {result : Int} {k : Kernel}
    (hcall : chdirMessage s.kernel msg = some (result, msg', k)) :
    DirectoryInv { s with kernel := k }
      (unplacedStep ps (.chdir msg, .changed s.kernel.current result)) := by
  rcases chdirMessage_cases hcall with ⟨rfl, heapPos, rfl⟩ | ⟨rfl, p, heapPos, cwd, hcur, rfl, hcwd⟩
  · have hsame : unplacedStep ps (.chdir msg, .changed s.kernel.current (-1)) = ps := by
      cases s.kernel.current <;> rfl
    rw [hsame]
    exact ⟨h.slots, h.current, h.fresh, h.unplaced, h.placed⟩
  · have hplaced := hcwd (h.caller hcur)
    have hlisted := h.current p hcur
    have hdirectory : ∀ q, ((Kernel.setProc { s.kernel with heapPos := heapPos } p
        { s.kernel.procs p with cwd := cwd }).procs q).cwd =
        if q = p then cwd else (s.kernel.procs q).cwd := by
      intro q
      rw [setProc_procs]
      split_ifs <;> rfl
    have hlist : unplacedStep ps (.chdir msg, .changed s.kernel.current 0) =
        ps.filter (· ≠ p) := by
      rw [hcur]
      rfl
    rw [hlist]
    refine ⟨h.slots, h.current, ?_, ?_, ?_⟩
    · intro i hi
      rw [hdirectory, if_neg]
      · exact h.fresh i hi
      · rintro rfl
        exact Nat.not_lt.mpr hi (h.slots i hlisted)
    · intro q hq
      obtain ⟨hq, hne⟩ : q ∈ ps ∧ q ≠ p := by simpa using hq
      obtain ⟨hslot, hqlisted, hempty⟩ := h.unplaced q hq
      exact ⟨hslot, hqlisted, (hdirectory q).trans ((if_neg hne).trans hempty)⟩
    · intro q hq hnot
      rw [hdirectory]
      split_ifs with heq
      · exact hplaced
      · exact h.placed q hq fun hmem => hnot (by simpa using ⟨hmem, heq⟩)

theorem DirectoryInv.step {e : DirEvent} {r : DirReply} (h : DirectoryInv s ps)
    (hstep : dirStep img s e = some (r, s')) : DirectoryInv s' (unplacedStep ps (e, r)) := by
  cases e with
  | process e =>
      obtain ⟨⟨r, t⟩, htaken, heq⟩ := Option.map_eq_some_iff.mp hstep
      cases heq
      exact h.process (procStep_taken htaken)
  | chdir msg =>
      rw [dirStep] at hstep
      split_ifs at hstep
      obtain ⟨⟨result, msg', k⟩, hcall, heq⟩ := Option.map_eq_some_iff.mp hstep
      cases heq
      exact h.chdir hcall
  | outside user abyss ramfs bindings taken =>
      cases hstep
      exact ⟨h.slots, h.current, h.fresh, h.unplaced, h.placed⟩

theorem Started.directoryInv (hstart : Started img s₀) :
    DirectoryInv s₀ s₀.kernel.processList := by
  have hinv := hstart.inv
  have hempty : ∀ p, (s₀.kernel.procs p).cwd = [] := by
    intro p
    cases hstart with
    | empty k zero => exact congrArg Process.cwd (zero.procs p)
    | single k zero =>
        exact (cwd_setProc (by rfl) p).trans (congrArg Process.cwd (zero.procs p))
  have hslot : ∀ p ∈ s₀.kernel.processList, p.onHeap = false := by
    intro p hp
    cases hstart with
    | empty k zero =>
        have hnone : (processInit k).processList = [] := zero.processList
        rw [hnone] at hp
        cases hp
    | single k zero =>
        rw [List.mem_singleton.mp hp]
        rfl
  exact ⟨hinv.slots, fun p hp => (hinv.current p hp).1, fun i _ => hempty _,
    fun p hp => ⟨hslot p hp, hp, hempty p⟩, fun p hp hnot => absurd hp hnot⟩

theorem Started.directoryInv_run (hstart : Started img s₀) {trace : List (DirEvent × DirReply)}
    (hrun : Steps (dirStep img) (fun _ _ => True) s₀ trace s) :
    DirectoryInv s (unplaced s₀ trace) := by
  apply hrun.invariant (P := fun trace t => DirectoryInv t (unplaced s₀ trace))
    hstart.directoryInv
  intro trace t e r u ht _ hstep
  rw [unplaced, List.foldl_append]
  exact ht.step hstep

/-- Every process has a usable working directory exactly when each one that `init_process` or
`create_process` has made has changed its directory since. -/
theorem usable_directories_iff (img : Image) (s₀ s : System) (hstart : Started img s₀)
    (trace : List (DirEvent × DirReply)) (hrun : Steps (dirStep img) (fun _ _ => True) s₀ trace s) :
    (∀ p ∈ s.kernel.processList, UsableDirectory (s.kernel.procs p).cwd) ↔
      unplaced s₀ trace = [] :=
  (hstart.directoryInv_run hrun).usable_iff

end Runs

/-- The message that asks for a change to the directory whose name stands at address 64. -/
def chdirRequest : Message := ⟨16, 64, 0, 0, 0, 0, 0, 0, 0, 0, 0, 0, 0⟩

/-- A shell forks, and the new process goes to `/tmp`. -/
def forkAndMove : List DirEvent :=
  [.process (.processCreate 0x80000000), .process .fork,
    .outside (ByteMemory.store (fun _ => 0) 64 (ascii "/tmp")) blankFs ramfsInit (fun _ => []) 0,
    .process .schedule, .chdir chdirRequest]

def forkAndMoveReplies : List DirReply :=
  [.process (.created (some (.heap 0))), .process (.created (some (.processes 0))), .returned,
    .process .switched, .changed (some (.processes 0)) 0]

def forkAndMoveAfter (n : Nat) : System :=
  (forkAndMove.take n).foldl (next (dirStep blankImage)) emptySystem

theorem forkAndMove_run (n : Nat) (h : replies (dirStep blankImage) emptySystem
      (forkAndMove.take n) = some (forkAndMoveReplies.take n)) :
    Steps (dirStep blankImage) (fun _ _ => True) emptySystem
      ((forkAndMove.take n).zip (forkAndMoveReplies.take n)) (forkAndMoveAfter n) :=
  steps_of_replies (dirStep blankImage) emptySystem _ _ h (admits_true _ _)

theorem usable_directories_moved :
    UsableDirectory ((forkAndMoveAfter 5).kernel.procs (.processes 0)).cwd ∧
      UsableDirectory ((forkAndMoveAfter 5).kernel.procs (.heap 0)).cwd := by
  have hstart : Started blankImage emptySystem := .empty blankKernel blankKernel_zero
  have hiff := usable_directories_iff blankImage emptySystem _ hstart _
    (forkAndMove_run 5 (by decide +kernel))
  have hall := hiff.mpr (by decide +kernel)
  have hlist : (forkAndMoveAfter 5).kernel.processList = [.processes 0, .heap 0] := by
    decide +kernel
  exact ⟨hall (.processes 0) (by simp [hlist]), hall (.heap 0) (by simp [hlist])⟩

/-- `create_process` leaves the directory of the new process empty. -/
theorem forked_without_directory :
    ¬ ∀ (img : Image) (s₀ s : System) (trace : List (DirEvent × DirReply)), Started img s₀ →
      Steps (dirStep img) (fun _ _ => True) s₀ trace s →
      ∀ p ∈ s.kernel.processList, UsableDirectory (s.kernel.procs p).cwd := by
  intro h
  have hstart : Started blankImage emptySystem := .empty blankKernel blankKernel_zero
  have hforked := h blankImage emptySystem _ _ hstart (forkAndMove_run 2 (by decide +kernel))
    (.processes 0) (by decide +kernel)
  have hempty : ((forkAndMoveAfter 2).kernel.procs (.processes 0)).cwd = [] := by decide +kernel
  exact not_usableDirectory_nil (hempty ▸ hforked)

end Chthon
