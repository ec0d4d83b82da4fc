import Chthon.AbyssBoot
import Chthon.RamfsModel

/-! The state of the kernel and its processes: `process.c` and the queue half of `message.c`. A
pointer into user memory is an address, NULL is 0, and a process is known by its pointer. As in the
file systems, `none` is an execution without a defined outcome; `schedule` also ends so when there
is nobody to run, since it then spins for ever. -/

namespace Chthon

open ByteMemory

def maxMessages : Int := 32
def maxProcesses : Nat := 4
def processStackSize : Nat := 4096
/-- `PROCESS_STACK_TOP` -/
def processStackTop : Nat := 0x40000000
def msgNonblock : BitVec 32 := 1

/-- `struct Message`, without `dirents`, which nothing reads. -/
structure Message where
  type : Nat
  path : Nat
  argv : Nat
  data : Nat
  size : Nat
  flags : BitVec 32
  fd : Int
  pid : Int
  status : Int
  entry : Nat
  direntCount : Nat
  character : UInt8
  string : Nat
  deriving DecidableEq

/-- `struct message_queue`: an array of `MAX_MESSAGES` and three counters. -/
structure MessageQueue where
  messages : Int → Message
  head : Int
  tail : Int
  count : Int

inductive ProcessState where
  | ready
  | running
  | blocked
  | zombie
  | dead
  deriving DecidableEq

/-- `struct namespace`: one binding. -/
structure Namespace where
  oldPath : Str
  newPath : Str
  flags : Int
  deriving DecidableEq

/-- `context_t` -/
structure Context where
  pc : Nat
  sp : Nat
  lr : Nat
  x : Nat → Nat

/-- A `struct process *`: an element of the array `processes`, or memory from `kalloc`. -/
inductive ProcessPtr where
  | processes (index : Nat)
  | heap (addr : Nat)
  deriving DecidableEq

/-- `struct process`. The chain of bindings is a list, newest first; the `next` pointers of
processes are the list `processList` of the kernel. -/
structure Process where
  pid : Int
  parentPid : Int
  state : ProcessState
  ns : List Namespace
  ctx : Context
  sp : Nat
  exitStatus : Int
  msgQueue : MessageQueue
  msgBlocked : Bool
  cwd : Str

structure Kernel where
  heapPos : Nat
  abyss : Abyssfs
  ramfs : Ramfs
  /-- `fd_table`, with the files themselves: every entry has its own. -/
  fdTable : Nat → Option VfsFile
  nextFd : Nat
  procs : ProcessPtr → Process
  processList : List ProcessPtr
  current : Option ProcessPtr
  processCount : Nat
  nextPid : Int
  /-- The memory that the pointers of a message lead to. -/
  user : Memory

/-- Addresses the linker chooses. -/
structure Image where
  process3 : Nat
  processStacks : Nat

def Kernel.setProc (k : Kernel) (p : ProcessPtr) (proc : Process) : Kernel :=
  { k with procs := Function.update k.procs p proc }

def Kernel.setState (k : Kernel) (p : ProcessPtr) (state : ProcessState) : Kernel :=
  k.setProc p { k.procs p with state := state }

/-- The process `current_process` points to. -/
def Kernel.currentProcess (k : Kernel) : Option Process := k.current.map k.procs

/-! Scheduling. -/

/-- `schedule`: the first ready process of the list runs. Control comes back to the caller when it
is switched to again; what the caller does then is not part of this function. -/
def schedule (k : Kernel) : Option Kernel :=
  match k.processList.find? fun p => (k.procs p).state = .ready with
  | none => none
  | some next =>
      let k := k.setState next .running
      match k.current with
      | none => some { k with current := some next }
      | some p =>
          let k := if (k.procs p).state = ProcessState.running then k.setState p .ready else k
          some { k with current := some next }

/-- `create_process`; the array it takes its element from is not checked for room. -/
def createProcess (img : Image) (k : Kernel) : Option (ProcessPtr × Kernel) :=
  if k.processCount ≥ maxProcesses then none
  else
    match k.currentProcess with
    | none => none
    | some current =>
        let new := ProcessPtr.processes k.processCount
        let sp := img.processStacks + processStackSize * (k.processCount + 1)
        some (new, { k.setProc new { k.procs new with
            pid := k.nextPid
            parentPid := current.pid
            state := .ready
            sp := sp
            ctx := { current.ctx with sp := sp, lr := img.process3 } } with
          processList := new :: k.processList
          processCount := k.processCount + 1
          nextPid := k.nextPid + 1 })

/-- `while (msg->argv[argc]) argc++;` over 64-bit pointers. -/
def countArgs (m : Memory) (argv : Nat) : Nat → Nat → Option Nat
  | 0, _ => none
  | fuel + 1, argc =>
      if read32 m (argv + 8 * argc) = 0 ∧ read32 m (argv + 8 * argc + 4) = 0 then some argc
      else countArgs m argv fuel (argc + 1)

def handleExecMessage (k : Kernel) (msg : Message) : Option (Int × Kernel) :=
  if msg.path = 0 then some (-1, k)
  else
    match k.current with
    | none => none
    | some p =>
        let ctx : Context := { (k.procs p).ctx with
          pc := msg.entry, sp := processStackTop, x := fun _ => 0 }
        if msg.argv = 0 then some (0, k.setProc p { k.procs p with ctx := ctx })
        else
          (countArgs k.user msg.argv heapSize 0).map fun argc =>
            (0, k.setProc p { k.procs p with ctx := { ctx with
              x := Function.update (Function.update ctx.x 0 argc) 1 msg.argv } })

/-- A child of `parent` that has exited. -/
def zombieChild (k : Kernel) (parent : Process) : Option ProcessPtr :=
  k.processList.find? fun p => (k.procs p).parentPid = parent.pid ∧ (k.procs p).state = .zombie

/-! Message queues. -/

def queueMessage (k : Kernel) (proc : ProcessPtr) (msg : Message) : Option (Int × Kernel) :=
  let p := k.procs proc
  let queue := p.msgQueue
  if queue.count ≥ maxMessages then some (-1, k)
  else if queue.tail < 0 ∨ queue.tail ≥ maxMessages then none
  else
    some (0, k.setProc proc { p with
      msgQueue := { queue with
        messages := Function.update queue.messages queue.tail msg
        tail := (queue.tail + 1).tmod maxMessages
        count := queue.count + 1 }
      msgBlocked := false })

/-- `receive_message` by the current process: the result and the message the caller is left with.
A caller that blocks gets its -1 when it is scheduled again. -/
def receiveMessage (k : Kernel) (msg : Message) : Option (Int × Message × Kernel) :=
  match k.current with
  | none => none
  | some proc =>
      let p := k.procs proc
      let queue := p.msgQueue
      if queue.count = 0 then
        if msg.flags &&& msgNonblock = 0 then
          (schedule (k.setProc proc { p with msgBlocked := true })).map fun k => (-1, msg, k)
        else some (-1, msg, k)
      else if queue.head < 0 ∨ queue.head ≥ maxMessages then none
      else
        some (0, queue.messages queue.head, k.setProc proc { p with
          msgQueue := { queue with
            head := (queue.head + 1).tmod maxMessages
            count := queue.count - 1 } })

/-- `switch_to_process` -/
def switchToProcess (k : Kernel) (next : ProcessPtr) : Option Kernel :=
  k.current.map fun _ => { k with current := some next }

/-- `exit_process` -/
def exitProcess (k : Kernel) (status : Int) : Option Kernel :=
  match k.current with
  | none => none
  | some p =>
      let k := k.setProc p { k.procs p with state := .zombie, exitStatus := status }
      match k.processList.find? fun q => (k.procs q).pid = (k.procs p).parentPid with
      | some parent =>
          schedule (if (k.procs parent).state = .blocked then k.setState parent .ready else k)
      | none => schedule k

/-! The kernel once the shell is its only process. -/

/-- A process as `process_create` leaves it, at work in the root directory. -/
def shellProcess : Process where
  pid := 2
  parentPid := 0
  state := .ready
  ns := []
  ctx := ⟨0x80000000, 0, 0, fun _ => 0⟩
  sp := 0x80010000
  exitStatus := 0
  msgQueue := ⟨fun _ => ⟨0, 0, 0, 0, 0, 0, 0, 0, 0, 0, 0, 0, 0⟩, 0, 0, 0⟩
  msgBlocked := false
  cwd := ascii "/"

/-- Freshly initialised file systems, and a shell that calls with the given user memory. -/
def shellKernel (user : Memory) : Kernel where
  heapPos := (bootVolume blankFs).heapPos
  abyss := (bootVolume blankFs).fs
  ramfs := ramfsInit
  fdTable _ := none
  nextFd := 0
  procs _ := shellProcess
  processList := [.heap 0]
  current := some (.heap 0)
  processCount := 0
  nextPid := 3
  user := user

end Chthon
