import Chthon.MessageModel

/-! The processes of the kernel as an interleaving. One process runs at a time; a call that gives up
the processor inside `schedule` is finished when its process runs again, so such a call is two
events of a run. Any other code of a process may stand between two calls. -/

namespace Chthon

/-- `sizeof(process_t)` -/
@[irreducible] def processSize : Nat := 3672

/-- A process in zeroed memory. -/
def zeroProcess : Process where
  pid := 0
  parentPid := 0
  state := .ready
  ns := []
  ctx := ⟨0, 0, 0, fun _ => 0⟩
  sp := 0
  exitStatus := 0
  msgQueue := ⟨fun _ => ⟨0, 0, 0, 0, 0, 0, 0, 0, 0, 0, 0, 0, 0⟩, 0, 0, 0⟩
  msgBlocked := false
  cwd := []

/-! The functions of `process.c` that `KernelModel` does not have. -/

/-- `process_init` -/
def processInit (k : Kernel) : Kernel := { k with processCount := 0, current := none }

/-- `init_process` -/
def initProcess (img : Image) (k : Kernel) : Kernel :=
  let init := ProcessPtr.processes 0
  let sp := img.processStacks + processStackSize
  { k.setProc init { k.procs init with
      pid := 1
      parentPid := 0
      state := .running
      sp := sp
      ctx := { (k.procs init).ctx with sp := sp, lr := 0 } } with
    processList := [init]
    current := some init
    processCount := 1
    nextPid := 2 }

/-- `process_create`: the memory of the new process is as the heap has it. -/
def processCreate (k : Kernel) (entry : Nat) : Option ProcessPtr × Kernel :=
  match kalloc k.heapPos processSize with
  | (none, _) => (none, k)
  | (some addr, heapPos) =>
      let proc := ProcessPtr.heap addr
      (some proc, { k.setProc proc { k.procs proc with
          ns := []
          ctx := { (k.procs proc).ctx with pc := entry }
          pid := k.nextPid
          cwd := ascii "/" } with
        heapPos := heapPos
        current := some (k.current.getD proc)
        processList := proc :: k.processList
        nextPid := k.nextPid + 1 })

/-- `process_exit`. The ready queue it searches is empty (`ProcessLinks`). -/
def processExit (k : Kernel) (status : Int) : Option Kernel :=
  match k.current with
  | none => some k
  | some p =>
      schedule { k.setProc p { k.procs p with state := .zombie, exitStatus := status } with
        current := none }

/-- `find_process` -/
def findProcess (k : Kernel) (pid : Int) : Option ProcessPtr :=
  k.processList.find? fun p => (k.procs p).pid = pid

/-! Calls that are interrupted by a switch. -/

/-- The call a process is in since it gave up the processor. -/
inductive PendingCall where
  | wait
  | handleWait
  | receive (msg : Message)
  deriving DecidableEq

structure System where
  kernel : Kernel
  calls : ProcessPtr → Option PendingCall

/-- The running process has yet to come back from a call. -/
def System.busy (s : System) : Bool :=
  match s.kernel.current with
  | none => false
  | some p => (s.calls p).isSome

inductive ProcEvent where
  | processCreate (entry : Nat)
  | fork
  | queue (proc : ProcessPtr) (msg : Message)
  | receive (msg : Message)
  | wait
  | handleWait
  | processExit (status : Int)
  | exitProcess (status : Int)
  | schedule
  /-- The running process returns from the `schedule` it was in. -/
  | resume

/-- What an event has led to. The last two are calls that went through `schedule`. -/
inductive ProcReply where
  | created (proc : Option ProcessPtr)
  | queued (result : Int)
  | received (proc : ProcessPtr) (result : Int) (msg : Message)
  | waited (parent : ProcessPtr) (child : Option ProcessPtr) (status : Int)
  | returned
  | switched
  | exited (proc : ProcessPtr) (status : Int)
  deriving DecidableEq

def ProcReply.switches : ProcReply → Bool
  | .switched | .exited _ _ => true
  | _ => false

/-- A call that ends in `schedule`, by process `p`. -/
def System.suspend (s : System) (p : ProcessPtr) (call : PendingCall) (k : Kernel) :
    Option (ProcReply × System) :=
  (schedule k).map fun k => (.switched, ⟨k, Function.update s.calls p (some call)⟩)

/-- One call by the running process. -/
def startCall (img : Image) (s : System) : ProcEvent → Option (ProcReply × System)
  | .processCreate entry =>
      let (proc, k) := processCreate s.kernel entry
      some (.created proc, { s with kernel := k })
  | .fork =>
      (createProcess img s.kernel).map fun (new, k) => (.created (some new), { s with kernel := k })
  | .queue proc msg =>
      (queueMessage s.kernel proc msg).map fun (result, k) =>
        (.queued result, { s with kernel := k })
  | .receive msg =>
      match s.kernel.current with
      | none => none
      | some p =>
          if (s.kernel.procs p).msgQueue.count = 0 ∧ msg.flags &&& msgNonblock = 0 then
            s.suspend p (.receive msg)
              (s.kernel.setProc p { s.kernel.procs p with msgBlocked := true })
          else
            (receiveMessage s.kernel msg).map fun (result, msg, k) =>
              (.received p result msg, { s with kernel := k })
  | .wait =>
      match s.kernel.current with
      | none => none
      | some p =>
          match zombieChild s.kernel (s.kernel.procs p) with
          | some child => some (.waited p (some child) (s.kernel.procs child).exitStatus, s)
          | none => s.suspend p .wait (s.kernel.setState p .blocked)
  | .handleWait =>
      match s.kernel.current with
      | none => none
      | some p =>
          match zombieChild s.kernel (s.kernel.procs p) with
          | some child =>
              some (.waited p (some child) (s.kernel.procs child).exitStatus,
                { s with kernel := s.kernel.setState child .dead })
          | none => s.suspend p .handleWait (s.kernel.setState p .blocked)
  | .processExit status =>
      match s.kernel.current with
      | none => some (.returned, s)
      | some p => (processExit s.kernel status).map fun k => (.exited p status, { s with kernel := k })
  | .exitProcess status =>
      match s.kernel.current with
      | none => none
      | some p => (exitProcess s.kernel status).map fun k => (.exited p status, { s with kernel := k })
  | .schedule => (schedule s.kernel).map fun k => (.switched, { s with kernel := k })
  | .resume => none

/-- The rest of the call the running process was in. -/
def resumeCall (s : System) : Option (ProcReply × System) :=
  match s.kernel.current with
  | none => none
  | some p =>
      let s' : System := { s with calls := Function.update s.calls p none }
      match s.calls p with
      | none => none
      | some .wait =>
          match zombieChild s.kernel (s.kernel.procs p) with
          | some child => some (.waited p (some child) (s.kernel.procs child).exitStatus, s')
          | none => some (.waited p none 0, s')
      | some .handleWait => some (.waited p none 0, s')
      | some (.receive msg) => some (.received p (-1) msg, s')

def procStep (img : Image) (s : System) : ProcEvent → Option (ProcReply × System)
  | .resume => resumeCall s
  | e => if s.busy then none else startCall img s e

/-! The two ways to start. -/

/-- Static storage and the heap are zero at boot. -/
structure ZeroProcesses (k : Kernel) : Prop where
  procs : ∀ p, k.procs p = zeroProcess
  processList : k.processList = []
  nextPid : k.nextPid = 2

/-- A system that `process_init` or `init_process` has just set up. -/
inductive Started (img : Image) : System → Prop
  | empty (k : Kernel) (zero : ZeroProcesses k) : Started img ⟨processInit k, fun _ => none⟩
  | single (k : Kernel) (zero : ZeroProcesses k) : Started img ⟨initProcess img k, fun _ => none⟩

/-- A kernel at boot, before there are any processes. -/
def blankKernel : Kernel where
  heapPos := 0
  abyss := blankFs
  ramfs := ramfsInit
  fdTable _ := none
  nextFd := 0
  procs _ := zeroProcess
  processList := []
  current := none
  processCount := 0
  nextPid := 2
  user _ := 0

theorem blankKernel_zero : ZeroProcesses blankKernel := ⟨fun _ => rfl, rfl, rfl⟩

def blankImage : Image := ⟨0, 0⟩

/-- The two starts from `blankKernel`. -/
def emptySystem : System := ⟨processInit blankKernel, fun _ => none⟩
def initSystem : System := ⟨initProcess blankImage blankKernel, fun _ => none⟩

theorem initSystem_started : Started blankImage initSystem := .single blankKernel blankKernel_zero

/-! The two halves of a wait make up the call of `send_message`. -/

section Wait

variable {img : Image} {out : Outside} {s s₁ s₂ s₃ : System} {p : ProcessPtr} {msg : Message}

theorem waitMessage_found {child : Option ProcessPtr} {status : Int}
    (h : startCall img s .wait = some (.waited p child status, s₁)) :
    waitMessage out s.kernel msg = some (0, { msg with status := status }, s₁.kernel) := by
  simp only [startCall] at h
  cases hcur : s.kernel.current with
  | none => simp [hcur] at h
  | some q =>
      simp only [hcur] at h
      cases hchild : zombieChild s.kernel (s.kernel.procs q) with
      | none => simp [hchild, System.suspend] at h
      | some c =>
          simp only [hchild, Option.some.injEq, Prod.mk.injEq, ProcReply.waited.injEq] at h
          obtain ⟨⟨_, _, rfl⟩, rfl⟩ := h
          simp only [waitMessage, hcur, hchild]

theorem waitMessage_resumed {child : Option ProcessPtr} {status : Int}
    (hcur : s.kernel.current = some p) (hwait : startCall img s .wait = some (.switched, s₁))
    (hback : out.resume s₁.kernel = some s₂.kernel) (hcur₂ : s₂.kernel.current = some p)
    (hcall : s₂.calls p = some .wait)
    (hresume : resumeCall s₂ = some (.waited p child status, s₃)) :
    waitMessage out s.kernel msg =
      some (if child.isSome then (0, { msg with status := status }, s₃.kernel)
        else (-1, msg, s₃.kernel)) := by
  simp only [startCall, hcur] at hwait
  cases hnone : zombieChild s.kernel (s.kernel.procs p) with
  | some c => simp [hnone] at hwait
  | none =>
      simp only [hnone, System.suspend, Option.map_eq_some_iff, Prod.mk.injEq, true_and] at hwait
      obtain ⟨k, hsched, rfl⟩ := hwait
      simp only at hback
      simp only [waitMessage, hcur, hnone, hsched, Option.bind_some, hback]
      simp only [resumeCall, hcur₂, hcall] at hresume
      cases hfound : zombieChild s₂.kernel (s₂.kernel.procs p) with
      | none =>
          simp only [hfound, Option.some.injEq, Prod.mk.injEq, ProcReply.waited.injEq] at hresume
          obtain ⟨⟨_, rfl, _⟩, rfl⟩ := hresume
          rfl
      | some c =>
          simp only [hfound, Option.some.injEq, Prod.mk.injEq, ProcReply.waited.injEq] at hresume
          obtain ⟨⟨_, rfl, rfl⟩, rfl⟩ := hresume
          rfl

end Wait

end Chthon
