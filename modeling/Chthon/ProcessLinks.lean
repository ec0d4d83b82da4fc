import Chthon.Lib.IntrusiveList
import Chthon.ProcessStates

/-! The process list as the code keeps it: a head `process_list`, a `next` pointer in every process,
and a `ready_queue` through the same pointers. The functions of `process.c` are given once more, here
with their walks along the pointers, and take the same steps as those of `ProcessModel`, which have
the list as a value. -/

namespace Chthon

open Run IntrusiveList

/-- The kernel with its pointers. The list value in `system` is not looked at; it is the record of
what was created, newest first. -/
structure Linked where
  system : System
  head : Option ProcessPtr
  next : ProcessPtr → Option ProcessPtr
  readyQueue : Option ProcessPtr

namespace Linked

/-- A walk along `next`. Every process has a pid of its own, so one that takes more rounds than
pids were given out goes round in a circle. -/
def walk (l : Linked) (test : ProcessPtr → Bool) : Option (Option ProcessPtr) :=
  search l.next test l.system.kernel.nextPid.toNat l.head

def setKernel (l : Linked) (k : Kernel) : Linked := { l with system := { l.system with kernel := k } }

/-- `process_create`: the pointer of the first process is left as it is. -/
def processCreate (l : Linked) (entry : Nat) : Option ProcessPtr × Linked :=
  let (proc, k) := Chthon.processCreate l.system.kernel entry
  match proc with
  | none => (none, l.setKernel k)
  | some proc => (some proc, { l.setKernel k with
      head := some proc
      next := if l.head = none then l.next else Function.update l.next proc l.head })

/-- `create_process` -/
def createProcess (img : Image) (l : Linked) : Option (ProcessPtr × Linked) :=
  (Chthon.createProcess img l.system.kernel).map fun (new, k) =>
    (new, { l.setKernel k with head := some new, next := Function.update l.next new l.head })

/-- `schedule`, entered with kernel `k`. -/
def schedule (l : Linked) (k : Kernel) : Option Kernel :=
  match l.walk fun p => (k.procs p).state = .ready with
  | none | some none => none
  | some (some next) =>
      let k := k.setState next .running
      match k.current with
      | none => some { k with current := some next }
      | some p =>
          let k := if (k.procs p).state = ProcessState.running then k.setState p .ready else k
          some { k with current := some next }

/-- `find_process` -/
def findProcess (l : Linked) (pid : Int) : Option (Option ProcessPtr) :=
  l.walk fun p => (l.system.kernel.procs p).pid = pid

/-- The loop of the two waits. -/
def zombieChild (l : Linked) (parent : Process) : Option (Option ProcessPtr) :=
  l.walk fun p => (l.system.kernel.procs p).parentPid = parent.pid ∧
    (l.system.kernel.procs p).state = .zombie

/-- The loop of `process_exit`, which takes a process out of the ready queue. -/
def leaveQueue (p : ProcessPtr) : Nat → Option ProcessPtr → Option ProcessPtr → Linked → Option Linked
  | _, _, none, l => some l
  | 0, _, some _, _ => none
  | fuel + 1, prev, some temp, l =>
      if temp = p then
        match prev with
        | some prev => some { l with next := Function.update l.next prev (l.next temp) }
        | none => some { l with readyQueue := l.next temp }
      else leaveQueue p fuel (some temp) (l.next temp) l

/-- How both exits start. -/
def zombieKernel (k : Kernel) (p : ProcessPtr) (status : Int) : Kernel :=
  k.setProc p { k.procs p with state := .zombie, exitStatus := status }

/-- `process_exit` by process `p`. -/
def processExit (l : Linked) (p : ProcessPtr) (status : Int) : Option Linked :=
  let l := l.setKernel (zombieKernel l.system.kernel p status)
  match leaveQueue p l.system.kernel.nextPid.toNat none l.readyQueue l with
  | none => none
  | some l => (l.schedule { l.system.kernel with current := none }).map l.setKernel

/-- `exit_process` by process `p`. -/
def exitProcess (l : Linked) (p : ProcessPtr) (status : Int) : Option Linked :=
  let k := zombieKernel l.system.kernel p status
  let l := l.setKernel k
  match l.findProcess (k.procs p).parentPid with
  | none => none
  | some none => (l.schedule k).map l.setKernel
  | some (some parent) =>
      (l.schedule (if (k.procs parent).state = .blocked then k.setState parent .ready else k)).map
        l.setKernel

/-- A call that ends in `schedule`, by process `p`. -/
def suspend (l : Linked) (p : ProcessPtr) (call : PendingCall) (k : Kernel) :
    Option (ProcReply × Linked) :=
  (l.schedule k).map fun k =>
    (.switched, { l with system := ⟨k, Function.update l.system.calls p (some call)⟩ })

/-- One call by the running process. -/
def startCall (img : Image) (l : Linked) : ProcEvent → Option (ProcReply × Linked)
  | .processCreate entry =>
      let (proc, l) := l.processCreate entry
      some (.created proc, l)
  | .fork => (l.createProcess img).map fun (new, l) => (.created (some new), l)
  | .queue proc msg =>
      (queueMessage l.system.kernel proc msg).map fun (result, k) => (.queued result, l.setKernel k)
  | .receive msg =>
      match l.system.kernel.current with
      | none => none
      | some p =>
          let k := l.system.kernel
          if (k.procs p).msgQueue.count = 0 ∧ msg.flags &&& msgNonblock = 0 then
            l.suspend p (.receive msg) (k.setProc p { k.procs p with msgBlocked := true })
          else
            (receiveMessage k msg).map fun (result, msg, k) => (.received p result msg, l.setKernel k)
  | .wait =>
      match l.system.kernel.current with
      | none => none
      | some p =>
          match l.zombieChild (l.system.kernel.procs p) with
          | none => none
          | some (some child) =>
              some (.waited p (some child) (l.system.kernel.procs child).exitStatus, l)
          | some none => l.suspend p .wait (l.system.kernel.setState p .blocked)
  | .handleWait =>
      match l.system.kernel.current with
      | none => none
      | some p =>
          match l.zombieChild (l.system.kernel.procs p) with
          | none => none
          | some (some child) =>
              some (.waited p (some child) (l.system.kernel.procs child).exitStatus,
                l.setKernel (l.system.kernel.setState child .dead))
          | some none => l.suspend p .handleWait (l.system.kernel.setState p .blocked)
  | .processExit status =>
      match l.system.kernel.current with
      | none => some (.returned, l)
      | some p => (l.processExit p status).map fun l => (.exited p status, l)
  | .exitProcess status =>
      match l.system.kernel.current with
      | none => none
      | some p => (l.exitProcess p status).map fun l => (.exited p status, l)
  | .schedule => (l.schedule l.system.kernel).map fun k => (.switched, l.setKernel k)
  | .resume => none

/-- The rest of the call the running process was in. -/
def resumeCall (l : Linked) : Option (ProcReply × Linked) :=
  match l.system.kernel.current with
  | none => none
  | some p =>
      let l' : Linked := { l with system := { l.system with
        calls := Function.update l.system.calls p none } }
      match l.system.calls p with
      | none => none
      | some .wait =>
          match l.zombieChild (l.system.kernel.procs p) with
          | none => none
          | some (some child) =>
              some (.waited p (some child) (l.system.kernel.procs child).exitStatus, l')
          | some none => some (.waited p none 0, l')
      | some .handleWait => some (.waited p none 0, l')
      | some (.receive msg) => some (.received p (-1) msg, l')

def step (img : Image) (l : Linked) : ProcEvent → Option (ProcReply × Linked)
  | .resume => l.resumeCall
  | e => if l.system.busy then none else l.startCall img e

/-- The two ways to start: `process_init` leaves the pointers of the boot image alone, but for the
queue, and `init_process` clears that of the first process. -/
inductive Started (img : Image) : Linked → Prop
  | empty (k : Kernel) (zero : ZeroProcesses k) :
      Started img ⟨⟨processInit k, fun _ => none⟩, none, fun _ => none, none⟩
  | single (k : Kernel) (zero : ZeroProcesses k) :
      Started img ⟨⟨initProcess img k, fun _ => none⟩, some (.processes 0),
        Function.update (fun _ => none) (.processes 0) none, none⟩

/-! The pointers lead through the list. -/

structure Chained (l : Linked) : Prop where
  inv : ProcessInv l.system
  chain : Chain l.next l.head l.system.kernel.processList
  unset : ∀ p, p ∉ l.system.kernel.processList → l.next p = none
  queue : l.readyQueue = none

/-- The pointers after an event with its reply. -/
def follow (l : Linked) (r : ProcReply) (s : System) : Linked :=
  match r with
  | .created (some p) => ⟨s, some p, Function.update l.next p l.head, l.readyQueue⟩
  | _ => { l with system := s }

section Walks

variable {img : Image} {l l' : Linked} {k : Kernel} {e : ProcEvent} {r : ProcReply} {p : ProcessPtr}

/-- Distinct positive pids below a bound are fewer than that. -/
theorem length_lt_of_pids {pids : List Int} {n : Int} (hsorted : pids.Pairwise (· > ·))
    (hpids : ∀ pid ∈ pids, 0 < pid ∧ pid < n) (hpos : 0 < n) : (pids.length : Int) < n := by
  induction pids generalizing n with
  | nil => simpa using hpos
  | cons pid pids ih =>
      rw [List.pairwise_cons] at hsorted
      obtain ⟨hpid, hlt⟩ := hpids pid List.mem_cons_self
      have hrest := ih hsorted.2 (fun x hx => ⟨(hpids x (List.mem_cons_of_mem _ hx)).1,
        hsorted.1 x hx⟩) hpid
      rw [List.length_cons]
      push_cast
      omega

theorem Chained.walk_eq (h : Chained l) (test : ProcessPtr → Bool) :
    l.walk test = some (l.system.kernel.processList.find? test) := by
  apply h.chain.search_eq
  have hlength := length_lt_of_pids h.inv.sorted (n := l.system.kernel.nextPid) ?_ h.inv.nextPid
  · rw [List.length_map] at hlength
    omega
  · intro pid hpid
    obtain ⟨p, hp, rfl⟩ := List.mem_map.mp hpid
    exact h.inv.pids p hp

theorem Chained.schedule_eq (h : Chained l)
    (hlist : k.processList = l.system.kernel.processList) :
    l.schedule k = Chthon.schedule k := by
  unfold Linked.schedule Chthon.schedule
  rw [h.walk_eq, hlist]
  cases l.system.kernel.processList.find? fun p => (k.procs p).state = .ready <;> rfl

theorem Chained.zombieChild_eq (h : Chained l) (parent : Process) :
    l.zombieChild parent = some (Chthon.zombieChild l.system.kernel parent) := h.walk_eq _

theorem Chained.suspend_eq (h : Chained l) {call : PendingCall}
    (hlist : k.processList = l.system.kernel.processList) :
    l.suspend p call k = (l.system.suspend p call k).map fun (r, s) => (r, l.follow r s) := by
  unfold Linked.suspend System.suspend
  rw [h.schedule_eq hlist, Option.map_map]
  rfl

/-- Walks only depend on the pointers. -/
theorem walk_setKernel (l : Linked) (hpid : k.nextPid = l.system.kernel.nextPid)
    (test : ProcessPtr → Bool) : (l.setKernel k).walk test = l.walk test := by
  unfold walk
  rw [← hpid]
  rfl

theorem schedule_setKernel (l : Linked) {k' : Kernel} (hpid : k'.nextPid = l.system.kernel.nextPid) :
    (l.setKernel k').schedule k = l.schedule k := by
  unfold Linked.schedule
  rw [walk_setKernel l hpid]

/-- Nothing is ever in the ready queue. -/
theorem Chained.leaveQueue_eq (h : Chained l) (k : Kernel) (fuel : Nat) :
    leaveQueue p fuel none (l.setKernel k).readyQueue (l.setKernel k) = some (l.setKernel k) := by
  rw [show (l.setKernel k).readyQueue = none from h.queue, leaveQueue]

theorem Chained.processExit_eq (h : Chained l) (hcur : l.system.kernel.current = some p)
    (status : Int) :
    l.processExit p status = (Chthon.processExit l.system.kernel status).map l.setKernel := by
  have hwalk : ∀ k, (l.setKernel (zombieKernel l.system.kernel p status)).schedule k =
      l.schedule k := fun k => schedule_setKernel l rfl
  unfold Linked.processExit Chthon.processExit
  simp only [h.leaveQueue_eq, hcur, hwalk]
  rw [h.schedule_eq (by rfl)]
  rfl

theorem Chained.exitProcess_eq (h : Chained l) (hcur : l.system.kernel.current = some p)
    (status : Int) :
    l.exitProcess p status = (Chthon.exitProcess l.system.kernel status).map l.setKernel := by
  have hfind : ∀ pid, (l.setKernel (zombieKernel l.system.kernel p status)).findProcess pid =
      some ((zombieKernel l.system.kernel p status).processList.find? fun q =>
        ((zombieKernel l.system.kernel p status).procs q).pid = pid) := fun pid =>
    (walk_setKernel l rfl _).trans (h.walk_eq _)
  have hwalk : ∀ k, (l.setKernel (zombieKernel l.system.kernel p status)).schedule k =
      l.schedule k := fun k => schedule_setKernel l rfl
  unfold Linked.exitProcess Chthon.exitProcess
  simp only [hcur, hfind, hwalk]
  change _ = Option.map _ (match (zombieKernel l.system.kernel p status).processList.find? fun q =>
    ((zombieKernel l.system.kernel p status).procs q).pid =
      ((zombieKernel l.system.kernel p status).procs p).parentPid with | some _ => _ | none => _)
  cases (zombieKernel l.system.kernel p status).processList.find? fun q =>
    ((zombieKernel l.system.kernel p status).procs q).pid =
      ((zombieKernel l.system.kernel p status).procs p).parentPid with
  | none =>
      simp only
      rw [h.schedule_eq (by rfl)]
      rfl
  | some parent =>
      simp only
      rw [h.schedule_eq (by split_ifs <;> rfl)]
      rfl

theorem processCreate_place {k : Kernel} {entry : Nat} {proc : ProcessPtr}
    (h : (Chthon.processCreate k entry).1 = some proc) : proc = .heap k.heapPos := by
  unfold Chthon.processCreate at h
  rcases kalloc_cases k.heapPos processSize with hkalloc | hkalloc
  · rw [hkalloc] at h
    cases h
  · rw [hkalloc] at h
    exact (Option.some.inj h).symm

/-- A fresh process has no pointer yet, so `process_create` need not set it in an empty list. -/
theorem Chained.processCreate_eq (h : Chained l) (entry : Nat) :
    l.processCreate entry = ((Chthon.processCreate l.system.kernel entry).1,
      l.follow (.created (Chthon.processCreate l.system.kernel entry).1)
        { l.system with kernel := (Chthon.processCreate l.system.kernel entry).2 }) := by
  unfold Linked.processCreate
  cases hproc : (Chthon.processCreate l.system.kernel entry).1 with
  | none =>
      simp only [hproc]
      rfl
  | some proc =>
      simp only [hproc]
      split_ifs with hhead
      · have hfresh : proc ∉ l.system.kernel.processList := by
          rw [processCreate_place hproc]
          exact fun hmem => Nat.lt_irrefl _ (h.inv.heap _ hmem)
        have hset : Function.update l.next proc l.head = l.next := by
          rw [hhead, Function.update_eq_self_iff, h.unset proc hfresh]
        rw [follow, hset]
        rfl
      · rfl

theorem Chained.startCall_eq (h : Chained l) (e : ProcEvent) :
    l.startCall img e =
      (Chthon.startCall img l.system e).map fun (r, s) => (r, l.follow r s) := by
  cases e with
  | processCreate entry =>
      rw [Linked.startCall, h.processCreate_eq]
      rfl
  | fork =>
      rw [Linked.startCall, Linked.createProcess, Chthon.startCall, Option.map_map, Option.map_map]
      rfl
  | queue proc msg =>
      rw [Linked.startCall, Chthon.startCall, Option.map_map]
      rfl
  | receive msg =>
      rw [Linked.startCall, Chthon.startCall]
      cases l.system.kernel.current with
      | none => rfl
      | some p =>
          dsimp only
          split_ifs with hblock
          · exact h.suspend_eq (by rfl)
          · rw [Option.map_map]
            rfl
  | wait =>
      rw [Linked.startCall, Chthon.startCall]
      cases l.system.kernel.current with
      | none => rfl
      | some p =>
          dsimp only
          rw [h.zombieChild_eq]
          cases Chthon.zombieChild l.system.kernel (l.system.kernel.procs p) with
          | none => exact h.suspend_eq (by rfl)
          | some child => rfl
  | handleWait =>
      rw [Linked.startCall, Chthon.startCall]
      cases l.system.kernel.current with
      | none => rfl
      | some p =>
          dsimp only
          rw [h.zombieChild_eq]
          cases Chthon.zombieChild l.system.kernel (l.system.kernel.procs p) with
          | none => exact h.suspend_eq (by rfl)
          | some child => rfl
  | processExit status =>
      rw [Linked.startCall, Chthon.startCall]
      cases hcur : l.system.kernel.current with
      | none => rfl
      | some p =>
          dsimp only
          rw [h.processExit_eq hcur, Option.map_map, Option.map_map]
          rfl
  | exitProcess status =>
      rw [Linked.startCall, Chthon.startCall]
      cases hcur : l.system.kernel.current with
      | none => rfl
      | some p =>
          dsimp only
          rw [h.exitProcess_eq hcur, Option.map_map, Option.map_map]
          rfl
  | schedule =>
      rw [Linked.startCall, Chthon.startCall, h.schedule_eq rfl, Option.map_map]
      rfl
  | resume => rfl

theorem Chained.resumeCall_eq (h : Chained l) :
    l.resumeCall = (Chthon.resumeCall l.system).map fun (r, s) => (r, l.follow r s) := by
  unfold Linked.resumeCall Chthon.resumeCall
  cases l.system.kernel.current with
  | none => rfl
  | some p =>
      dsimp only
      cases l.system.calls p with
      | none => rfl
      | some call =>
          cases call with
          | wait =>
              dsimp only
              rw [h.zombieChild_eq]
              cases Chthon.zombieChild l.system.kernel (l.system.kernel.procs p) <;> rfl
          | handleWait => rfl
          | receive msg => rfl

/-- The walks along the pointers take the steps of the list. -/
theorem Chained.step_eq (h : Chained l) (e : ProcEvent) :
    l.step img e = (procStep img l.system e).map fun (r, s) => (r, l.follow r s) := by
  by_cases he : e = .resume
  · subst he
    exact h.resumeCall_eq
  · have hlinked : l.step img e = if l.system.busy then none else l.startCall img e := by
      cases e <;> first | rfl | exact absurd rfl he
    rw [hlinked, procStep_start he]
    split_ifs
    · rfl
    · exact h.startCall_eq e

/-- An event that creates a process puts it in front of the list; no other changes the list. -/
theorem created_or_sameTable {s s' : System} (hinv : ProcessInv s) (h : Taken img s e r s') :
    (∃ p, r = .created (some p) ∧ p ∉ s.kernel.processList ∧
      s'.kernel.processList = p :: s.kernel.processList) ∨
    ((∀ p, r ≠ .created (some p)) ∧ s'.kernel.processList = s.kernel.processList) := by
  have heffect := h.effect
  cases h with
  | created entry =>
      unfold Chthon.processCreate
      rcases kalloc_cases s.kernel.heapPos processSize with hkalloc | hkalloc
      · rw [hkalloc]
        exact Or.inr ⟨by simp, rfl⟩
      · rw [hkalloc]
        exact Or.inl ⟨_, rfl, fun hmem => Nat.lt_irrefl _ (hinv.heap _ hmem), rfl⟩
  | forked new k called =>
      unfold Chthon.createProcess at called
      split_ifs at called
      split at called
      · cases called
      · cases called
        exact Or.inl ⟨_, rfl, fun hmem => Nat.lt_irrefl _ (hinv.slots _ hmem), rfl⟩
  | _ => exact Or.inr ⟨by simp, (heffect.sameTable (by simp)).processList⟩

/-- A step keeps the pointers on the list. -/
theorem Chained.step (h : Chained l) {s : System} (hstep : procStep img l.system e = some (r, s)) :
    Chained (l.follow r s) := by
  have htaken := procStep_taken hstep
  have hinv := h.inv.effect htaken.effect
  rcases created_or_sameTable h.inv htaken with ⟨p, rfl, hfresh, hlist⟩ | ⟨hr, hlist⟩
  · refine ⟨hinv, ?_, ?_, h.queue⟩
    · change Chain (Function.update l.next p l.head) (some p) s.kernel.processList
      rw [hlist]
      exact h.chain.push hfresh
    · intro q hq
      change q ∉ s.kernel.processList at hq
      rw [hlist, List.mem_cons, not_or] at hq
      calc Function.update l.next p l.head q = l.next q := Function.update_of_ne hq.1 _ _
        _ = none := h.unset q hq.2
  · have hfollow : l.follow r s = { l with system := s } := by
      unfold follow
      split
      · exact absurd rfl (hr _)
      · rfl
    rw [hfollow]
    refine ⟨hinv, ?_, ?_, h.queue⟩
    · rw [hlist]
      exact h.chain
    · rw [hlist]
      exact h.unset

theorem Started.system (h : Started img l) : Chthon.Started img l.system := by
  cases h with
  | empty k zero => exact .empty k zero
  | single k zero => exact .single k zero

theorem Started.chained (h : Started img l) : Chained l := by
  have hcleared : ∀ p, Function.update (fun _ => none) (ProcessPtr.processes 0) none p =
      (none : Option ProcessPtr) := by
    intro p
    rw [Function.update_apply]
    split_ifs <;> rfl
  refine ⟨h.system.inv, ?_, ?_, ?_⟩
  · cases h with
    | empty k zero =>
        rw [show (processInit k).processList = [] from zero.processList]
        rfl
    | single k zero =>
        refine ⟨rfl, ?_⟩
        rw [Chain]
        exact hcleared (.processes 0)
  · intro p _
    cases h with
    | empty k zero => rfl
    | single k zero => exact hcleared p
  · cases h <;> rfl

end Walks

/-! The whole run. -/

/-- The processes that a run has created, oldest first. -/
def createdIn (trace : List (ProcEvent × ProcReply)) : List ProcessPtr :=
  trace.filterMap fun step => match step.2 with | .created p => p | _ => none

theorem createdIn_snoc (trace : List (ProcEvent × ProcReply)) (e : ProcEvent) (r : ProcReply) :
    (createdIn (trace ++ [(e, r)])).reverse =
      (match r with | .created (some p) => [p] | _ => []) ++ (createdIn trace).reverse := by
  rw [createdIn, List.filterMap_append, List.reverse_append]
  congr 1
  cases r with
  | created p => cases p <;> rfl
  | _ => rfl

theorem chained_run {img : Image} {l₀ l : Linked} {ok : Linked → ProcEvent → Prop}
    {trace : List (ProcEvent × ProcReply)} (hstart : Started img l₀)
    (hrun : Steps (Linked.step img) ok l₀ trace l) :
    Chained l ∧ l.system.kernel.processList =
      (createdIn trace).reverse ++ l₀.system.kernel.processList := by
  refine hrun.invariant (P := fun trace l => Chained l ∧ l.system.kernel.processList =
    (createdIn trace).reverse ++ l₀.system.kernel.processList) ⟨hstart.chained, rfl⟩ ?_
  rintro trace l e r l' ⟨h, hlist⟩ _ hstep
  rw [h.step_eq, Option.map_eq_some_iff] at hstep
  obtain ⟨⟨r, s⟩, hstep, heq⟩ := hstep
  cases heq
  refine ⟨h.step hstep, ?_⟩
  have hsystem : (l.follow r s).system = s := by
    unfold follow
    split <;> rfl
  rw [hsystem, createdIn_snoc]
  rcases created_or_sameTable h.inv (procStep_taken hstep) with ⟨p, rfl, _, hgrown⟩ | ⟨hr, hsame⟩
  · rw [hgrown, hlist]
    rfl
  · rw [hsame, hlist]
    split
    · exact absurd rfl (hr _)
    · rfl

end Linked

open Linked in
/-- In every run of the kernel with its pointers, these lead from `process_list` through the processes
created so far, newest first, each once, under strictly decreasing positive pids, and end there;
`find_process` finds the one process with a pid, and every walk of the code comes to an end. -/
theorem process_list_well_formed (img : Image) (l₀ l : Linked) (hstart : Linked.Started img l₀)
    (trace : List (ProcEvent × ProcReply))
    (hrun : Steps (Linked.step img) (fun _ _ => True) l₀ trace l) :
    ∃ list, Chain l.next l.head list ∧
      list = (createdIn trace).reverse ++ l₀.system.kernel.processList ∧ list.Nodup ∧
      (list.map fun p => (l.system.kernel.procs p).pid).Pairwise (· > ·) ∧
      (∀ p ∈ list, 0 < (l.system.kernel.procs p).pid) ∧
      (∀ pid, ∃ found, l.findProcess pid = some found ∧
        ∀ p, found = some p ↔ p ∈ list ∧ (l.system.kernel.procs p).pid = pid) ∧
      ∀ test, l.walk test = some (list.find? test) := by
  obtain ⟨h, hlist⟩ := chained_run hstart hrun
  refine ⟨_, h.chain, hlist, h.chain.nodup, h.inv.sorted, fun p hp => (h.inv.pids p hp).1, ?_,
    h.walk_eq⟩
  refine fun pid => ⟨_, h.walk_eq _, fun p => ⟨fun hfound => ?_, ?_⟩⟩
  · have hpid := List.find?_some hfound
    rw [decide_eq_true_iff] at hpid
    exact ⟨List.mem_of_find?_eq_some hfound, hpid⟩
  · rintro ⟨hp, rfl⟩
    exact h.inv.findProcess_eq hp

open Linked in
/-- A kernel that has created one process of each kind: one from the heap, into the empty list, and
one by a fork. -/
theorem process_list_of_two :
    ∃ trace l, Steps (Linked.step blankImage) (fun _ _ => True)
        ⟨emptySystem, none, fun _ => none, none⟩ trace l ∧
      createdIn trace = [.heap 0, .processes 0] ∧
      Chain l.next l.head [.processes 0, .heap 0] := by
  have hstart : Linked.Started blankImage ⟨emptySystem, none, fun _ => none, none⟩ :=
    .empty blankKernel blankKernel_zero
  have hrun := steps_of_replies (Linked.step blankImage) ⟨emptySystem, none, fun _ => none, none⟩
    [.processCreate 0x80000000, .fork] [.created (some (.heap 0)), .created (some (.processes 0))]
    (by decide +kernel) (admits_true _ _)
  obtain ⟨list, hchain, hlist, _⟩ := process_list_well_formed blankImage _ _ hstart _ hrun
  refine ⟨_, _, hrun, rfl, ?_⟩
  rw [show [ProcessPtr.processes 0, .heap 0] = list from hlist.symm]
  exact hchain

end Chthon
