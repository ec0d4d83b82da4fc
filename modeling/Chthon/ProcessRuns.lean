import Chthon.Lib.Run
import Chthon.ProcessModel

/-! What holds in every interleaving of the calls on processes: the table only grows, at most the
running process is `PROC_RUNNING`, and a process that has exited stays so. -/

namespace Chthon

open Run

def Kernel.stateOf (k : Kernel) (p : ProcessPtr) : ProcessState := (k.procs p).state

/-- The process `schedule` finds. -/
def firstReady (k : Kernel) : Option ProcessPtr :=
  k.processList.find? fun p => (k.procs p).state = .ready

/-! Effects of the calls. -/

/-- The list of processes, who is who in it, and the allocators are the same. -/
structure SameTable (k k' : Kernel) : Prop where
  processList : k'.processList = k.processList
  processCount : k'.processCount = k.processCount
  nextPid : k'.nextPid = k.nextPid
  heapPos : k'.heapPos = k.heapPos
  pid : ∀ q, (k'.procs q).pid = (k.procs q).pid
  parentPid : ∀ q, (k'.procs q).parentPid = (k.procs q).parentPid

theorem SameTable.refl (k : Kernel) : SameTable k k :=
  ⟨rfl, rfl, rfl, rfl, fun _ => rfl, fun _ => rfl⟩

theorem SameTable.trans {k k' k'' : Kernel} (h : SameTable k k') (h' : SameTable k' k'') :
    SameTable k k'' :=
  ⟨h'.processList.trans h.processList, h'.processCount.trans h.processCount,
    h'.nextPid.trans h.nextPid, h'.heapPos.trans h.heapPos, fun q => (h'.pid q).trans (h.pid q),
    fun q => (h'.parentPid q).trans (h.parentPid q)⟩

section Effects

variable {k k' : Kernel} {p : ProcessPtr}

theorem setProc_procs (k : Kernel) (p : ProcessPtr) (proc : Process) (q : ProcessPtr) :
    (k.setProc p proc).procs q = if q = p then proc else k.procs q :=
  Function.update_apply _ _ _ _

/-- Replacing a process by one with the same pids. -/
theorem SameTable.setProc (k : Kernel) {p : ProcessPtr} {proc : Process}
    (hpid : proc.pid = (k.procs p).pid) (hparent : proc.parentPid = (k.procs p).parentPid) :
    SameTable k (k.setProc p proc) := by
  refine ⟨rfl, rfl, rfl, rfl, fun q => ?_, fun q => ?_⟩
  · rw [setProc_procs]
    split_ifs with hq
    · rw [hq, hpid]
    · rfl
  · rw [setProc_procs]
    split_ifs with hq
    · rw [hq, hparent]
    · rfl

theorem SameTable.setState (k : Kernel) (p : ProcessPtr) (state : ProcessState) :
    SameTable k (k.setState p state) := SameTable.setProc k rfl rfl

theorem stateOf_setProc (k : Kernel) (p : ProcessPtr) (proc : Process) (q : ProcessPtr) :
    (k.setProc p proc).stateOf q = if q = p then proc.state else k.stateOf q := by
  rw [Kernel.stateOf, setProc_procs]
  split_ifs <;> rfl

theorem stateOf_setState (k : Kernel) (p : ProcessPtr) (state : ProcessState) (q : ProcessPtr) :
    (k.setState p state).stateOf q = if q = p then state else k.stateOf q :=
  stateOf_setProc k p _ q

theorem exitStatus_setState (k : Kernel) (p : ProcessPtr) (state : ProcessState) (q : ProcessPtr) :
    ((k.setState p state).procs q).exitStatus = (k.procs q).exitStatus := by
  rw [Kernel.setState, setProc_procs]
  split_ifs with hq
  · rw [hq]
  · rfl

/-- The state `schedule` leaves a process in. A process that gives way to itself ends up as
`PROC_READY`, since the second assignment undoes the first. -/
def scheduledState (k : Kernel) (next q : ProcessPtr) : ProcessState :=
  if q = next then if k.current = some next then .ready else .running
  else if k.current = some q ∧ k.stateOf q = .running then .ready
  else k.stateOf q

/-- `schedule` touches the states and the current process only. -/
theorem schedule_eq (k : Kernel) :
    schedule k = (firstReady k).map fun next => { k with
      procs := fun q => { k.procs q with state := scheduledState k next q }
      current := some next } := by
  unfold schedule
  cases hnext : firstReady k with
  | none =>
      rw [firstReady] at hnext
      rw [hnext]
      rfl
  | some next =>
      rw [firstReady] at hnext
      rw [hnext, Option.map_some]
      have hprocs : ∀ procs, procs = (fun q => { k.procs q with state := scheduledState k next q }) →
          ({ k with procs := procs, current := some next } : Kernel) = { k with
            procs := fun q => { k.procs q with state := scheduledState k next q }
            current := some next } := fun _ h => by rw [h]
      have hset : ∀ q, (k.setState next .running).procs q =
          { k.procs q with state := if q = next then .running else k.stateOf q } := by
        intro q
        rw [Kernel.setState, setProc_procs]
        split_ifs with hq
        · rw [hq]
        · rfl
      simp only
      cases hcur : k.current with
      | none =>
          have hcurrent : (k.setState next .running).current = none := hcur
          rw [hcurrent]
          refine congrArg some (hprocs _ (funext fun q => ?_))
          rw [hset, scheduledState, hcur]
          simp
      | some p =>
          have hcurrent : (k.setState next .running).current = some p := hcur
          rw [hcurrent]
          simp only
          split_ifs with hrunning
          · refine congrArg some (hprocs _ (funext fun q => ?_))
            rw [hset] at hrunning
            rw [Kernel.setState, setProc_procs, hset, hset, scheduledState, hcur]
            by_cases hqp : q = p
            · subst hqp
              by_cases hqn : q = next
              · simp [hqn]
              · simp only [hqn, if_false] at hrunning
                simp [hqn, hrunning]
            · by_cases hqn : q = next
              · subst hqn
                simp [hqp, Ne.symm hqp]
              · simp [hqp, hqn, Ne.symm hqp]
          · refine congrArg some (hprocs _ (funext fun q => ?_))
            rw [hset] at hrunning
            rw [hset, scheduledState, hcur]
            by_cases hqn : q = next
            · subst hqn
              have hne : p ≠ q := by
                rintro rfl
                simp at hrunning
              simp [hne]
            · by_cases hqp : q = p
              · subst hqp
                simp only [hqn, if_false] at hrunning
                simp [hqn, hrunning]
              · simp [hqn, Ne.symm hqp]

theorem schedule_cases (h : schedule k = some k') :
    ∃ next, firstReady k = some next ∧ k'.current = some next ∧ SameTable k k' ∧
      (∀ q, k'.stateOf q = scheduledState k next q) ∧
      ∀ q, (k'.procs q).exitStatus = (k.procs q).exitStatus := by
  rw [schedule_eq, Option.map_eq_some_iff] at h
  obtain ⟨next, hnext, rfl⟩ := h
  exact ⟨next, hnext, rfl, ⟨rfl, rfl, rfl, rfl, fun _ => rfl, fun _ => rfl⟩, fun _ => rfl,
    fun _ => rfl⟩

theorem zombieChild_some {parent : Process} {c : ProcessPtr} (h : zombieChild k parent = some c) :
    c ∈ k.processList ∧ (k.procs c).parentPid = parent.pid ∧ k.stateOf c = .zombie := by
  have hp := List.find?_some h
  simp only [Bool.decide_and, Bool.and_eq_true, decide_eq_true_eq] at hp
  exact ⟨List.mem_of_find?_eq_some h, hp.1, hp.2⟩

/-- `exit_process` up to its call of `schedule`. -/
def exitedKernel (k : Kernel) (p : ProcessPtr) (status : Int) : Kernel :=
  let k := k.setProc p { k.procs p with state := .zombie, exitStatus := status }
  match findProcess k (k.procs p).parentPid with
  | some parent => if (k.procs parent).state = .blocked then k.setState parent .ready else k
  | none => k

theorem exitProcess_eq (hcur : k.current = some p) (status : Int) :
    exitProcess k status = schedule (exitedKernel k p status) := by
  unfold exitProcess exitedKernel findProcess
  rw [hcur]
  dsimp only
  set k₁ := k.setProc p { k.procs p with state := .zombie, exitStatus := status }
  cases k₁.processList.find? fun q => (k₁.procs q).pid = (k₁.procs p).parentPid <;> rfl

/-- What `exit_process` does to other processes: a blocked parent is woken. -/
theorem exitedKernel_cases (k : Kernel) (p : ProcessPtr) (status : Int) :
    SameTable k (exitedKernel k p status) ∧ (exitedKernel k p status).current = k.current ∧
      (exitedKernel k p status).stateOf p = .zombie ∧
      ((exitedKernel k p status).procs p).exitStatus = status ∧
      ∀ q, q ≠ p → ((exitedKernel k p status).procs q).exitStatus = (k.procs q).exitStatus ∧
        (exitedKernel k p status).stateOf q =
          if k.stateOf q = .blocked ∧ findProcess k (k.procs p).parentPid = some q then .ready
          else k.stateOf q := by
  set k₁ := k.setProc p { k.procs p with state := .zombie, exitStatus := status } with hk₁
  have htable : SameTable k k₁ := SameTable.setProc k rfl rfl
  have hfind : findProcess k₁ (k₁.procs p).parentPid = findProcess k (k.procs p).parentPid := by
    simp only [findProcess, htable.processList, htable.pid, htable.parentPid]
  have hstate : ∀ q, k₁.stateOf q = if q = p then .zombie else k.stateOf q := fun q =>
    stateOf_setProc k p _ q
  have hexit : ∀ q, (k₁.procs q).exitStatus = if q = p then status else (k.procs q).exitStatus := by
    intro q
    rw [hk₁, setProc_procs]
    split_ifs <;> rfl
  have hother : ∀ q, q ≠ p → (k₁.procs q).exitStatus = (k.procs q).exitStatus ∧
      k₁.stateOf q = k.stateOf q := fun q hq => by rw [hexit, hstate, if_neg hq, if_neg hq]; simp
  have hself : k₁.stateOf p = .zombie ∧ (k₁.procs p).exitStatus = status := by
    rw [hexit, hstate, if_pos rfl, if_pos rfl]
    exact ⟨rfl, rfl⟩
  have hdef : exitedKernel k p status = match findProcess k (k.procs p).parentPid with
      | some parent => if (k₁.procs parent).state = .blocked then k₁.setState parent .ready else k₁
      | none => k₁ := by
    rw [← hfind]
    rfl
  rw [hdef]
  cases hparent : findProcess k (k.procs p).parentPid with
  | none =>
      refine ⟨htable, rfl, hself.1, hself.2, fun q hq => ⟨(hother q hq).1, ?_⟩⟩
      rw [(hother q hq).2]
      simp
  | some parent =>
      dsimp only
      split_ifs with hblocked
      · have hne : parent ≠ p := by
          rintro rfl
          rw [← Kernel.stateOf, hself.1] at hblocked
          cases hblocked
        refine ⟨htable.trans (SameTable.setState k₁ parent .ready), rfl, ?_, ?_, fun q hq => ⟨?_, ?_⟩⟩
        · rw [stateOf_setState, if_neg (Ne.symm hne), hself.1]
        · rw [exitStatus_setState, hself.2]
        · rw [exitStatus_setState, (hother q hq).1]
        · rw [stateOf_setState, (hother q hq).2]
          by_cases hqp : q = parent
          · subst hqp
            rw [← Kernel.stateOf, (hother q hq).2] at hblocked
            simp [hblocked]
          · simp [hqp, Ne.symm hqp]
      · refine ⟨htable, rfl, hself.1, hself.2, fun q hq => ⟨(hother q hq).1, ?_⟩⟩
        rw [(hother q hq).2]
        by_cases hqp : q = parent
        · subst hqp
          rw [← Kernel.stateOf, (hother q hq).2] at hblocked
          simp [hblocked]
        · simp [Ne.symm hqp]

end Effects

/-! What one event can do. -/

section Taken

variable {img : Image} {s s' : System} {e : ProcEvent} {r : ProcReply}

/-- Every way in which an event can go, with the state it leads to. -/
inductive Taken (img : Image) (s : System) : ProcEvent → ProcReply → System → Prop
  | created (entry : Nat) : Taken img s (.processCreate entry)
      (.created (processCreate s.kernel entry).1) { s with kernel := (processCreate s.kernel entry).2 }
  | forked (new : ProcessPtr) (k : Kernel) (called : createProcess img s.kernel = some (new, k)) :
      Taken img s .fork (.created (some new)) { s with kernel := k }
  | queued (proc : ProcessPtr) (msg : Message) (result : Int) (k : Kernel)
      (called : queueMessage s.kernel proc msg = some (result, k)) :
      Taken img s (.queue proc msg) (.queued result) { s with kernel := k }
  | received (p : ProcessPtr) (msg msg' : Message) (result : Int) (k : Kernel)
      (caller : s.kernel.current = some p)
      (open_ : ¬((s.kernel.procs p).msgQueue.count = 0 ∧ msg.flags &&& msgNonblock = 0))
      (called : receiveMessage s.kernel msg = some (result, msg', k)) :
      Taken img s (.receive msg) (.received p result msg') { s with kernel := k }
  | receiving (p : ProcessPtr) (msg : Message) (k : Kernel) (caller : s.kernel.current = some p)
      (empty : (s.kernel.procs p).msgQueue.count = 0) (blocking : msg.flags &&& msgNonblock = 0)
      (taken : schedule (s.kernel.setProc p { s.kernel.procs p with msgBlocked := true }) = some k) :
      Taken img s (.receive msg) .switched ⟨k, Function.update s.calls p (some (.receive msg))⟩
  | waited (p c : ProcessPtr) (caller : s.kernel.current = some p)
      (found : zombieChild s.kernel (s.kernel.procs p) = some c) :
      Taken img s .wait (.waited p (some c) (s.kernel.procs c).exitStatus) s
  | waiting (p : ProcessPtr) (k : Kernel) (caller : s.kernel.current = some p)
      (nobody : zombieChild s.kernel (s.kernel.procs p) = none)
      (taken : schedule (s.kernel.setState p .blocked) = some k) :
      Taken img s .wait .switched ⟨k, Function.update s.calls p (some .wait)⟩
  | handled (p c : ProcessPtr) (caller : s.kernel.current = some p)
      (found : zombieChild s.kernel (s.kernel.procs p) = some c) :
      Taken img s .handleWait (.waited p (some c) (s.kernel.procs c).exitStatus)
        { s with kernel := s.kernel.setState c .dead }
  | handling (p : ProcessPtr) (k : Kernel) (caller : s.kernel.current = some p)
      (nobody : zombieChild s.kernel (s.kernel.procs p) = none)
      (taken : schedule (s.kernel.setState p .blocked) = some k) :
      Taken img s .handleWait .switched ⟨k, Function.update s.calls p (some .handleWait)⟩
  | nobodyExits (status : Int) (caller : s.kernel.current = none) :
      Taken img s (.processExit status) .returned s
  | left (p : ProcessPtr) (status : Int) (k : Kernel) (caller : s.kernel.current = some p)
      (taken : schedule { s.kernel.setProc p
        { s.kernel.procs p with state := .zombie, exitStatus := status } with
          current := none } = some k) :
      Taken img s (.processExit status) (.exited p status) { s with kernel := k }
  | exited (p : ProcessPtr) (status : Int) (k : Kernel) (caller : s.kernel.current = some p)
      (taken : schedule (exitedKernel s.kernel p status) = some k) :
      Taken img s (.exitProcess status) (.exited p status) { s with kernel := k }
  | yielded (k : Kernel) (taken : schedule s.kernel = some k) :
      Taken img s .schedule .switched { s with kernel := k }
  | resumedWait (p c : ProcessPtr) (caller : s.kernel.current = some p)
      (call : s.calls p = some .wait)
      (found : zombieChild s.kernel (s.kernel.procs p) = some c) :
      Taken img s .resume (.waited p (some c) (s.kernel.procs c).exitStatus)
        { s with calls := Function.update s.calls p none }
  | failedWait (p : ProcessPtr) (caller : s.kernel.current = some p)
      (call : s.calls p = some .wait)
      (nobody : zombieChild s.kernel (s.kernel.procs p) = none) :
      Taken img s .resume (.waited p none 0) { s with calls := Function.update s.calls p none }
  | resumedHandleWait (p : ProcessPtr) (caller : s.kernel.current = some p)
      (call : s.calls p = some .handleWait) :
      Taken img s .resume (.waited p none 0) { s with calls := Function.update s.calls p none }
  | resumedReceive (p : ProcessPtr) (msg : Message) (caller : s.kernel.current = some p)
      (call : s.calls p = some (.receive msg)) :
      Taken img s .resume (.received p (-1) msg) { s with calls := Function.update s.calls p none }

/-- A call can only be made by a process that has come back from its last one. -/
theorem procStep_start (he : e ≠ .resume) :
    procStep img s e = if s.busy then none else startCall img s e := by
  cases e <;> first | rfl | exact absurd rfl he

theorem startCall_of_step (he : e ≠ .resume) (h : procStep img s e = some (r, s')) :
    startCall img s e = some (r, s') := by
  rw [procStep_start he] at h
  split_ifs at h
  exact h

theorem suspend_some {p : ProcessPtr} {call : PendingCall} {k₁ : Kernel}
    (h : s.suspend p call k₁ = some (r, s')) :
    ∃ k, schedule k₁ = some k ∧ r = .switched ∧
      s' = ⟨k, Function.update s.calls p (some call)⟩ := by
  rw [System.suspend, Option.map_eq_some_iff] at h
  obtain ⟨k, htaken, heq⟩ := h
  obtain ⟨rfl, rfl⟩ := Prod.mk.inj heq
  exact ⟨k, htaken, rfl, rfl⟩

theorem startCall_taken (h : startCall img s e = some (r, s')) : Taken img s e r s' := by
  cases e with
  | processCreate entry =>
      have hcall : startCall img s (.processCreate entry) =
          some (.created (processCreate s.kernel entry).1,
            { s with kernel := (processCreate s.kernel entry).2 }) := rfl
      rw [hcall, Option.some.injEq, Prod.mk.injEq] at h
      obtain ⟨rfl, rfl⟩ := h
      exact .created entry
  | fork =>
      simp only [startCall, Option.map_eq_some_iff] at h
      obtain ⟨⟨new, k⟩, hcall, heq⟩ := h
      obtain ⟨rfl, rfl⟩ := Prod.mk.inj heq
      exact .forked new k hcall
  | queue proc msg =>
      simp only [startCall, Option.map_eq_some_iff] at h
      obtain ⟨⟨result, k⟩, hcall, heq⟩ := h
      obtain ⟨rfl, rfl⟩ := Prod.mk.inj heq
      exact .queued proc msg result k hcall
  | receive msg =>
      simp only [startCall] at h
      cases hcur : s.kernel.current with
      | none => simp [hcur] at h
      | some p =>
          simp only [hcur] at h
          split_ifs at h with hblock
          · obtain ⟨k, htaken, rfl, rfl⟩ := suspend_some h
            exact .receiving p msg k hcur hblock.1 hblock.2 htaken
          · rw [Option.map_eq_some_iff] at h
            obtain ⟨⟨result, msg', k⟩, hcall, heq⟩ := h
            obtain ⟨rfl, rfl⟩ := Prod.mk.inj heq
            exact .received p msg msg' result k hcur hblock hcall
  | wait =>
      simp only [startCall] at h
      cases hcur : s.kernel.current with
      | none => simp [hcur] at h
      | some p =>
          simp only [hcur] at h
          split at h <;> rename_i hchild
          · cases h
            exact .waited p _ hcur hchild
          · obtain ⟨k, htaken, rfl, rfl⟩ := suspend_some h
            exact .waiting p k hcur hchild htaken
  | handleWait =>
      simp only [startCall] at h
      cases hcur : s.kernel.current with
      | none => simp [hcur] at h
      | some p =>
          simp only [hcur] at h
          split at h <;> rename_i hchild
          · cases h
            exact .handled p _ hcur hchild
          · obtain ⟨k, htaken, rfl, rfl⟩ := suspend_some h
            exact .handling p k hcur hchild htaken
  | processExit status =>
      simp only [startCall] at h
      cases hcur : s.kernel.current with
      | none =>
          simp only [hcur, Option.some.injEq, Prod.mk.injEq] at h
          obtain ⟨rfl, rfl⟩ := h
          exact .nobodyExits status hcur
      | some p =>
          simp only [hcur, Chthon.processExit, Option.map_eq_some_iff] at h
          obtain ⟨k, htaken, heq⟩ := h
          obtain ⟨rfl, rfl⟩ := Prod.mk.inj heq
          exact .left p status k hcur htaken
  | exitProcess status =>
      simp only [startCall] at h
      cases hcur : s.kernel.current with
      | none => simp [hcur] at h
      | some p =>
          simp only [hcur, exitProcess_eq hcur, Option.map_eq_some_iff] at h
          obtain ⟨k, htaken, heq⟩ := h
          obtain ⟨rfl, rfl⟩ := Prod.mk.inj heq
          exact .exited p status k hcur htaken
  | schedule =>
      simp only [startCall, Option.map_eq_some_iff] at h
      obtain ⟨k, htaken, heq⟩ := h
      obtain ⟨rfl, rfl⟩ := Prod.mk.inj heq
      exact .yielded k htaken
  | resume => cases h

theorem resumeCall_taken (h : resumeCall s = some (r, s')) : Taken img s .resume r s' := by
  unfold resumeCall at h
  cases hcur : s.kernel.current with
  | none => simp [hcur] at h
  | some p =>
      simp only [hcur] at h
      split at h <;> rename_i hcall
      · cases h
      · split at h <;> rename_i hchild
        · cases h
          exact .resumedWait p _ hcur hcall hchild
        · cases h
          exact .failedWait p hcur hcall hchild
      · cases h
        exact .resumedHandleWait p hcur hcall
      · cases h
        exact .resumedReceive p _ hcur hcall

theorem procStep_taken (h : procStep img s e = some (r, s')) : Taken img s e r s' := by
  by_cases he : e = .resume
  · subst he
    exact resumeCall_taken h
  · exact startCall_taken (startCall_of_step he h)

end Taken

/-- The effect of an event on the table, the states and the exit statuses of processes. -/
inductive Effect (s s' : System) : ProcReply → Prop
  /-- The call leaves all of them alone; it may be the end of a call. -/
  | idle {r : ProcReply} (silent : r.switches = false) (table : SameTable s.kernel s'.kernel)
      (current : s'.kernel.current = s.kernel.current)
      (states : ∀ q, s'.kernel.stateOf q = s.kernel.stateOf q)
      (exits : ∀ q, (s'.kernel.procs q).exitStatus = (s.kernel.procs q).exitStatus)
      (calls : ∀ q, s'.calls q = s.calls q ∨ s'.calls q = none) : Effect s s' r
  /-- `handle_wait_message` has found an exited child. -/
  | reaped {r : ProcReply} (silent : r.switches = false) (table : SameTable s.kernel s'.kernel)
      (c : ProcessPtr) (listed : c ∈ s.kernel.processList) (zombie : s.kernel.stateOf c = .zombie)
      (current : s'.kernel.current = s.kernel.current)
      (states : ∀ q, s'.kernel.stateOf q = if q = c then .dead else s.kernel.stateOf q)
      (exits : ∀ q, (s'.kernel.procs q).exitStatus = (s.kernel.procs q).exitStatus)
      (calls : s'.calls = s.calls) : Effect s s' r
  /-- A new process `p` from the heap or from the next slot. -/
  | created (p : ProcessPtr) (grown : s'.kernel.processList = p :: s.kernel.processList)
      (place : (p = .heap s.kernel.heapPos ∧ s.kernel.heapPos < s'.kernel.heapPos ∧
          s'.kernel.processCount = s.kernel.processCount) ∨
        (p = .processes s.kernel.processCount ∧ s.kernel.processCount < 4 ∧
          s'.kernel.heapPos = s.kernel.heapPos ∧
          s'.kernel.processCount = s.kernel.processCount + 1))
      (nextPid : s'.kernel.nextPid = s.kernel.nextPid + 1)
      (current : s'.kernel.current = some (s.kernel.current.getD p))
      (pid : (s'.kernel.procs p).pid = s.kernel.nextPid)
      (state : s'.kernel.stateOf p = .ready ∨ s'.kernel.stateOf p = s.kernel.stateOf p)
      (others : ∀ q, q ≠ p → s'.kernel.procs q = s.kernel.procs q)
      (exits : (s'.kernel.procs p).exitStatus = (s.kernel.procs p).exitStatus)
      (calls : s'.calls = s.calls) : Effect s s' (.created (some p))
  /-- A call that goes through `schedule`, which it enters with kernel `k₁`: the running process
  may have blocked or exited, and somebody blocked may have been woken. -/
  | switched {r : ProcReply} (loud : r.switches = true) (k₁ : Kernel)
      (taken : schedule k₁ = some s'.kernel) (table : SameTable s.kernel k₁)
      (current : k₁.current = s.kernel.current ∨ k₁.current = none)
      (own : ∀ p, s.kernel.current = some p →
        (k₁.stateOf p = s.kernel.stateOf p ∧ k₁.current = some p ∧
          (k₁.procs p).exitStatus = (s.kernel.procs p).exitStatus) ∨
        k₁.stateOf p = .blocked ∨ k₁.stateOf p = .zombie)
      (others : ∀ q, s.kernel.current ≠ some q →
        (k₁.procs q).exitStatus = (s.kernel.procs q).exitStatus ∧
        (k₁.stateOf q = s.kernel.stateOf q ∨ (s.kernel.stateOf q = .blocked ∧ k₁.stateOf q = .ready)))
      (calls : ∀ q, s'.calls q = s.calls q ∨ s.kernel.current = some q) : Effect s s' r

section Cases

variable {img : Image} {s s' : System} {e : ProcEvent} {r : ProcReply}

/-- Replacing a process by one in the same state. -/
theorem stateOf_setProc_same {k : Kernel} {p : ProcessPtr} {proc : Process}
    (h : proc.state = (k.procs p).state) (q : ProcessPtr) :
    (k.setProc p proc).stateOf q = k.stateOf q := by
  rw [stateOf_setProc]
  split_ifs with hq
  · rw [hq]
    exact h
  · rfl

theorem exitStatus_setProc_same {k : Kernel} {p : ProcessPtr} {proc : Process}
    (h : proc.exitStatus = (k.procs p).exitStatus) (q : ProcessPtr) :
    ((k.setProc p proc).procs q).exitStatus = (k.procs q).exitStatus := by
  rw [setProc_procs]
  split_ifs with hq
  · rw [hq, h]
  · rfl

/-- A call by `p` that has changed the caller only and then enters `schedule`. -/
theorem Effect.of_schedule {p : ProcessPtr} {k₁ : Kernel} (loud : r.switches = true)
    (hcur : s.kernel.current = some p) (taken : schedule k₁ = some s'.kernel)
    (table : SameTable s.kernel k₁) (current : k₁.current = s.kernel.current)
    (own : (k₁.stateOf p = s.kernel.stateOf p ∧
      (k₁.procs p).exitStatus = (s.kernel.procs p).exitStatus) ∨ k₁.stateOf p = .blocked)
    (others : ∀ q, q ≠ p → k₁.procs q = s.kernel.procs q)
    (calls : ∀ q, q ≠ p → s'.calls q = s.calls q) : Effect s s' r := by
  apply Effect.switched loud k₁ taken table (Or.inl current)
  · intro q hq
    obtain rfl : p = q := Option.some.inj (hcur.symm.trans hq)
    rcases own with ⟨hstate, hexit⟩ | hblocked
    · exact Or.inl ⟨hstate, current.trans hcur, hexit⟩
    · exact Or.inr (Or.inl hblocked)
  · intro q hq
    have hne : q ≠ p := by
      rintro rfl
      exact hq hcur
    rw [Kernel.stateOf, others q hne]
    exact ⟨rfl, Or.inl rfl⟩
  · intro q
    by_cases hne : q = p
    · rw [hne]
      exact Or.inr hcur
    · exact Or.inl (calls q hne)

/-- Blocking in one of the two waits. -/
theorem Effect.of_block {p : ProcessPtr} {k : Kernel} (call : PendingCall)
    (hcur : s.kernel.current = some p) (taken : schedule (s.kernel.setState p .blocked) = some k) :
    Effect s ⟨k, Function.update s.calls p (some call)⟩ .switched := by
  refine Effect.of_schedule rfl hcur taken (SameTable.setState _ p .blocked) rfl (Or.inr ?_) ?_ ?_
  · rw [stateOf_setState, if_pos rfl]
  · intro q hq
    rw [Kernel.setState, setProc_procs, if_neg hq]
  · intro q hq
    exact Function.update_of_ne hq _ _

theorem Effect.refl (s : System) (hr : r.switches = false) : Effect s s r :=
  .idle hr (SameTable.refl _) rfl (fun _ => rfl) (fun _ => rfl) fun _ => Or.inl rfl

/-- Coming back from a call. -/
theorem Effect.of_resume (s : System) (p : ProcessPtr) (hr : r.switches = false) :
    Effect s { s with calls := Function.update s.calls p none } r := by
  refine .idle hr (SameTable.refl _) rfl (fun _ => rfl) (fun _ => rfl) fun q => ?_
  by_cases hq : q = p
  · rw [hq]
    exact Or.inr (Function.update_self _ _ _)
  · exact Or.inl (Function.update_of_ne hq _ _)

/-- Replacing a process by one with the same identity, state and exit status. -/
theorem Effect.of_setProc {p : ProcessPtr} {proc : Process} (s : System) (hr : r.switches = false)
    (hpid : proc.pid = (s.kernel.procs p).pid)
    (hparent : proc.parentPid = (s.kernel.procs p).parentPid)
    (hstate : proc.state = (s.kernel.procs p).state)
    (hexit : proc.exitStatus = (s.kernel.procs p).exitStatus) :
    Effect s { s with kernel := s.kernel.setProc p proc } r :=
  .idle hr (SameTable.setProc _ hpid hparent) rfl (stateOf_setProc_same hstate)
    (exitStatus_setProc_same hexit) fun _ => Or.inl rfl

theorem processSize_pos : 0 < processSize := by
  unfold processSize
  decide

theorem effect_processCreate (s : System) (entry : Nat) :
    Effect s { s with kernel := (processCreate s.kernel entry).2 }
      (.created (processCreate s.kernel entry).1) := by
  unfold processCreate
  rcases kalloc_cases s.kernel.heapPos processSize with hkalloc | hkalloc
  · rw [hkalloc]
    exact Effect.refl s rfl
  · rw [hkalloc]
    refine Effect.created (.heap s.kernel.heapPos) rfl (Or.inl ⟨rfl, ?_, rfl⟩) rfl rfl ?_ (Or.inr ?_)
      ?_ ?_ rfl
    · exact Nat.lt_add_of_pos_right processSize_pos
    · simp [Kernel.setProc]
    · simp [Kernel.setProc, Kernel.stateOf]
    · intro q hq
      simp [Kernel.setProc, hq]
    · simp [Kernel.setProc]

theorem effect_fork {new : ProcessPtr} {k : Kernel}
    (hcall : createProcess img s.kernel = some (new, k)) :
    Effect s { s with kernel := k } (.created (some new)) := by
  unfold createProcess at hcall
  split_ifs at hcall with hfull
  cases hcur : s.kernel.current with
  | none => simp [Kernel.currentProcess, hcur] at hcall
  | some p =>
      simp only [Kernel.currentProcess, hcur, Option.map_some, Option.some.injEq,
        Prod.mk.injEq] at hcall
      obtain ⟨rfl, rfl⟩ := hcall
      refine Effect.created (.processes s.kernel.processCount) rfl
        (Or.inr ⟨rfl, Nat.lt_of_not_le hfull, rfl, rfl⟩) rfl ?_ ?_ (Or.inl ?_) ?_ ?_ rfl
      · rw [hcur]
        exact hcur
      · simp [Kernel.setProc]
      · simp [Kernel.setProc, Kernel.stateOf]
      · intro q hq
        simp [Kernel.setProc, hq]
      · simp [Kernel.setProc]

theorem effect_queue {proc : ProcessPtr} {msg : Message} {result : Int} {k : Kernel}
    (hcall : queueMessage s.kernel proc msg = some (result, k)) :
    Effect s { s with kernel := k } (.queued result) := by
  unfold queueMessage at hcall
  dsimp only at hcall
  split_ifs at hcall with hfull htail
  · obtain ⟨_, rfl⟩ := Prod.mk.inj (Option.some.inj hcall)
    exact Effect.refl s rfl
  · obtain ⟨_, rfl⟩ := Prod.mk.inj (Option.some.inj hcall)
    exact Effect.of_setProc s rfl rfl rfl rfl rfl

theorem effect_received {p : ProcessPtr} {msg msg' : Message} {result : Int} {k : Kernel}
    (hcur : s.kernel.current = some p)
    (hopen : ¬((s.kernel.procs p).msgQueue.count = 0 ∧ msg.flags &&& msgNonblock = 0))
    (hcall : receiveMessage s.kernel msg = some (result, msg', k)) :
    Effect s { s with kernel := k } (.received p result msg') := by
  unfold receiveMessage at hcall
  rw [hcur] at hcall
  dsimp only at hcall
  split_ifs at hcall with hempty hflags hhead
  · exact absurd ⟨hempty, hflags⟩ hopen
  · cases hcall
    exact Effect.refl s rfl
  · cases hcall
    exact Effect.of_setProc s rfl rfl rfl rfl rfl

theorem effect_processExit {p : ProcessPtr} {status : Int} {k : Kernel}
    (hcur : s.kernel.current = some p)
    (taken : schedule { s.kernel.setProc p
      { s.kernel.procs p with state := .zombie, exitStatus := status } with
        current := none } = some k) :
    Effect s { s with kernel := k } (.exited p status) := by
  have htable : SameTable s.kernel (s.kernel.setProc p
    { s.kernel.procs p with state := .zombie, exitStatus := status }) :=
    SameTable.setProc _ rfl rfl
  refine Effect.switched rfl _ taken ⟨htable.processList, htable.processCount, htable.nextPid,
    htable.heapPos, htable.pid, htable.parentPid⟩ (Or.inr rfl) ?_ ?_ fun _ => Or.inl rfl
  · intro q hq
    obtain rfl : p = q := Option.some.inj (hcur.symm.trans hq)
    right; right
    simp [Kernel.setProc, Kernel.stateOf]
  · intro q hq
    have hne : q ≠ p := by
      rintro rfl
      exact hq hcur
    simp [Kernel.setProc, Kernel.stateOf, hne]

theorem effect_exitProcess {p : ProcessPtr} {status : Int} {k : Kernel}
    (hcur : s.kernel.current = some p)
    (taken : schedule (exitedKernel s.kernel p status) = some k) :
    Effect s { s with kernel := k } (.exited p status) := by
  obtain ⟨htable, hcurrent, hself, _, hothers⟩ := exitedKernel_cases s.kernel p status
  refine Effect.switched rfl _ taken htable (Or.inl hcurrent) ?_ ?_ fun _ => Or.inl rfl
  · intro q hq
    obtain rfl : p = q := Option.some.inj (hcur.symm.trans hq)
    exact Or.inr (Or.inr hself)
  · intro q hq
    have hne : q ≠ p := by
      rintro rfl
      exact hq hcur
    obtain ⟨hexit, hstate⟩ := hothers q hne
    refine ⟨hexit, ?_⟩
    rw [hstate]
    split_ifs with hwoken
    · exact Or.inr ⟨hwoken.1, rfl⟩
    · exact Or.inl rfl

theorem Taken.effect (h : Taken img s e r s') : Effect s s' r := by
  cases h with
  | created entry => exact effect_processCreate s entry
  | forked new k called => exact effect_fork called
  | queued proc msg result k called => exact effect_queue called
  | received p msg msg' result k caller open_ called => exact effect_received caller open_ called
  | receiving p msg k caller _ _ taken =>
      refine Effect.of_schedule rfl caller taken (SameTable.setProc _ rfl rfl) rfl (Or.inl ?_) ?_ ?_
      · exact ⟨stateOf_setProc_same (by rfl) p, exitStatus_setProc_same (by rfl) p⟩
      · intro q hq
        rw [setProc_procs, if_neg hq]
      · intro q hq
        exact Function.update_of_ne hq _ _
  | waited p c => exact Effect.refl s rfl
  | waiting p k caller _ taken => exact Effect.of_block .wait caller taken
  | handled p c _ found =>
      obtain ⟨hlisted, _, hzombie⟩ := zombieChild_some found
      exact Effect.reaped rfl (SameTable.setState _ c .dead) c hlisted hzombie rfl
        (stateOf_setState _ c .dead) (exitStatus_setState _ c .dead) rfl
  | handling p k caller _ taken => exact Effect.of_block .handleWait caller taken
  | nobodyExits status => exact Effect.refl s rfl
  | left p status k caller taken => exact effect_processExit caller taken
  | exited p status k caller taken => exact effect_exitProcess caller taken
  | yielded k taken =>
      exact Effect.switched rfl _ taken (SameTable.refl _) (Or.inl rfl)
        (fun q hq => Or.inl ⟨rfl, hq, rfl⟩) (fun q _ => ⟨rfl, Or.inl rfl⟩) fun _ => Or.inl rfl
  | resumedWait p c => exact Effect.of_resume s p rfl
  | failedWait p => exact Effect.of_resume s p rfl
  | resumedHandleWait p => exact Effect.of_resume s p rfl
  | resumedReceive p msg => exact Effect.of_resume s p rfl

/-- Only the two ways to create a process change the table. -/
theorem Effect.sameTable (h : Effect s s' r) (hr : ∀ p, r ≠ .created p) :
    SameTable s.kernel s'.kernel := by
  cases h with
  | idle _ table => exact table
  | reaped _ table => exact table
  | created p => exact absurd rfl (hr (some p))
  | switched _ k₁ taken table =>
      obtain ⟨_, _, _, htable, _⟩ := schedule_cases taken
      exact table.trans htable

theorem procStep_effect (h : procStep img s e = some (r, s')) : Effect s s' r :=
  (procStep_taken h).effect

end Cases

/-! The invariant of every run. -/

structure ProcessInv (s : System) : Prop where
  /-- Newer processes come first, under larger pids. -/
  sorted : (s.kernel.processList.map fun p => (s.kernel.procs p).pid).Pairwise (· > ·)
  pids : ∀ p ∈ s.kernel.processList,
    0 < (s.kernel.procs p).pid ∧ (s.kernel.procs p).pid < s.kernel.nextPid
  nextPid : 0 < s.kernel.nextPid
  slots : ∀ i, .processes i ∈ s.kernel.processList → i < s.kernel.processCount
  heap : ∀ a, .heap a ∈ s.kernel.processList → a < s.kernel.heapPos
  unlisted : ∀ p, p ∉ s.kernel.processList → s.kernel.stateOf p = .ready ∧ s.calls p = none
  current : ∀ p, s.kernel.current = some p → p ∈ s.kernel.processList ∧
    (s.kernel.stateOf p = .ready ∨ s.kernel.stateOf p = .running)
  running : ∀ p, s.kernel.stateOf p = .running → s.kernel.current = some p

theorem firstReady_some {k : Kernel} {p : ProcessPtr} (h : firstReady k = some p) :
    p ∈ k.processList ∧ k.stateOf p = .ready := by
  rw [firstReady] at h
  have hready := List.find?_some h
  rw [decide_eq_true_iff] at hready
  exact ⟨List.mem_of_find?_eq_some h, hready⟩

section Invariant

variable {img : Image} {s s' : System} {e : ProcEvent} {r : ProcReply}

/-- Where neither the table nor the allocators change, only states and calls are to be checked. -/
theorem ProcessInv.of_table (h : ProcessInv s) (table : SameTable s.kernel s'.kernel)
    (unlisted : ∀ p, p ∉ s.kernel.processList → s'.kernel.stateOf p = .ready ∧ s'.calls p = none)
    (current : ∀ p, s'.kernel.current = some p → p ∈ s.kernel.processList ∧
      (s'.kernel.stateOf p = .ready ∨ s'.kernel.stateOf p = .running))
    (running : ∀ p, s'.kernel.stateOf p = .running → s'.kernel.current = some p) :
    ProcessInv s' := by
  refine ⟨?_, ?_, ?_, ?_, ?_, ?_, ?_, running⟩
  · simp only [table.processList, table.pid]
    exact h.sorted
  · simp only [table.processList, table.pid, table.nextPid]
    exact h.pids
  · rw [table.nextPid]
    exact h.nextPid
  · rw [table.processList, table.processCount]
    exact h.slots
  · rw [table.processList, table.heapPos]
    exact h.heap
  · rw [table.processList]
    exact unlisted
  · rw [table.processList]
    exact current

/-- The place of a new process is not in use. -/
theorem ProcessInv.fresh (h : ProcessInv s) {p : ProcessPtr}
    (place : (p = .heap s.kernel.heapPos ∧ s.kernel.heapPos < s'.kernel.heapPos ∧
        s'.kernel.processCount = s.kernel.processCount) ∨
      (p = .processes s.kernel.processCount ∧ s.kernel.processCount < 4 ∧
        s'.kernel.heapPos = s.kernel.heapPos ∧
        s'.kernel.processCount = s.kernel.processCount + 1)) :
    p ∉ s.kernel.processList := by
  intro hp
  rcases place with ⟨rfl, _⟩ | ⟨rfl, _⟩
  · exact Nat.lt_irrefl _ (h.heap _ hp)
  · exact Nat.lt_irrefl _ (h.slots _ hp)

theorem ProcessInv.switch (h : ProcessInv s) {k₁ : Kernel} (taken : schedule k₁ = some s'.kernel)
    (table : SameTable s.kernel k₁)
    (own : ∀ p, s.kernel.current = some p →
      (k₁.stateOf p = s.kernel.stateOf p ∧ k₁.current = some p ∧
        (k₁.procs p).exitStatus = (s.kernel.procs p).exitStatus) ∨
      k₁.stateOf p = .blocked ∨ k₁.stateOf p = .zombie)
    (others : ∀ q, s.kernel.current ≠ some q →
      (k₁.procs q).exitStatus = (s.kernel.procs q).exitStatus ∧
      (k₁.stateOf q = s.kernel.stateOf q ∨ (s.kernel.stateOf q = .blocked ∧ k₁.stateOf q = .ready)))
    (calls : ∀ q, s'.calls q = s.calls q ∨ s.kernel.current = some q) : ProcessInv s' := by
  obtain ⟨next, hnext, hcurrent, htable, hstates, _⟩ := schedule_cases taken
  obtain ⟨hlisted, _⟩ := firstReady_some hnext
  rw [table.processList] at hlisted
  apply h.of_table (table.trans htable)
  · intro q hq
    obtain ⟨hready, hcall⟩ := h.unlisted q hq
    have hne : s.kernel.current ≠ some q := fun hcur => hq (h.current q hcur).1
    have hqn : q ≠ next := by
      rintro rfl
      exact hq hlisted
    have hstate : k₁.stateOf q = .ready := by
      rcases (others q hne).2 with hsame | ⟨_, hready⟩
      · rw [hsame, hready]
      · exact hready
    refine ⟨?_, ?_⟩
    · rw [hstates, scheduledState, if_neg hqn, hstate]
      simp
    · rcases calls q with hsame | hcur
      · rw [hsame, hcall]
      · exact absurd hcur hne
  · intro q hq
    obtain rfl : next = q := Option.some.inj (hcurrent.symm.trans hq)
    refine ⟨hlisted, ?_⟩
    rw [hstates, scheduledState, if_pos rfl]
    split_ifs
    · exact Or.inl rfl
    · exact Or.inr rfl
  · intro q hq
    by_cases hqn : q = next
    · rw [hqn, hcurrent]
    · -- nobody but the one who runs was running, and that one has given way
      exfalso
      rw [hstates, scheduledState, if_neg hqn] at hq
      split_ifs at hq with hgave
      by_cases hcur : s.kernel.current = some q
      · rcases own q hcur with ⟨_, hk₁, _⟩ | hblocked | hzombie
        · exact hgave ⟨hk₁, hq⟩
        · rw [hblocked] at hq
          cases hq
        · rw [hzombie] at hq
          cases hq
      · rcases (others q hcur).2 with hsame | ⟨_, hready⟩
        · rw [hsame] at hq
          exact hcur (h.running q hq)
        · rw [hready] at hq
          cases hq

theorem ProcessInv.effect (h : ProcessInv s) (he : Effect s s' r) : ProcessInv s' := by
  cases he with
  | idle _ table current states _ calls =>
      apply h.of_table table
      · intro p hp
        obtain ⟨hready, hcall⟩ := h.unlisted p hp
        refine ⟨by rw [states, hready], ?_⟩
        rcases calls p with hsame | hnone
        · rw [hsame, hcall]
        · exact hnone
      · intro p hp
        rw [current] at hp
        rw [states]
        exact h.current p hp
      · intro p hp
        rw [states] at hp
        rw [current]
        exact h.running p hp
  | reaped _ table c listed zombie current states _ calls =>
      apply h.of_table table
      · intro p hp
        have hne : p ≠ c := by
          rintro rfl
          exact hp listed
        rw [states, if_neg hne, calls]
        exact h.unlisted p hp
      · intro p hp
        rw [current] at hp
        obtain ⟨hlisted, hstate⟩ := h.current p hp
        have hne : p ≠ c := by
          rintro rfl
          rw [zombie] at hstate
          rcases hstate with hstate | hstate <;> cases hstate
        rw [states, if_neg hne]
        exact ⟨hlisted, hstate⟩
      · intro p hp
        rw [states] at hp
        split_ifs at hp
        rw [current]
        exact h.running p hp
  | created p grown place nextPid current pid state others exits calls =>
      have hfresh := h.fresh place
      have hkept : ∀ q ∈ s.kernel.processList, s'.kernel.procs q = s.kernel.procs q := fun q hq =>
        others q fun heq => hfresh (heq ▸ hq)
      have hready : s'.kernel.stateOf p = .ready := by
        rcases state with hready | hsame
        · exact hready
        · rw [hsame, (h.unlisted p hfresh).1]
      have hnext := h.nextPid
      refine ⟨?_, ?_, ?_, ?_, ?_, ?_, ?_, ?_⟩
      · rw [grown, List.map_cons, List.pairwise_cons, pid]
        constructor
        · intro x hx
          obtain ⟨q, hq, rfl⟩ := List.mem_map.mp hx
          rw [hkept q hq]
          exact (h.pids q hq).2
        · rw [List.map_congr_left fun q hq => by rw [hkept q hq]]
          exact h.sorted
      · intro q hq
        rw [grown, List.mem_cons] at hq
        rw [nextPid]
        rcases hq with rfl | hq
        · rw [pid]
          omega
        · have := h.pids q hq
          rw [hkept q hq]
          omega
      · rw [nextPid]
        omega
      · intro i hi
        rw [grown, List.mem_cons] at hi
        rcases place with ⟨rfl, _, hcount⟩ | ⟨rfl, _, _, hcount⟩
        · rcases hi with heq | hi
          · cases heq
          · rw [hcount]
            exact h.slots i hi
        · rw [hcount]
          rcases hi with heq | hi
          · cases heq
            omega
          · have := h.slots i hi
            omega
      · intro a ha
        rw [grown, List.mem_cons] at ha
        rcases place with ⟨rfl, hheap, _⟩ | ⟨rfl, _, hheap, _⟩
        · rcases ha with heq | ha
          · cases heq
            exact hheap
          · exact (h.heap a ha).trans hheap
        · rcases ha with heq | ha
          · cases heq
          · rw [hheap]
            exact h.heap a ha
      · intro q hq
        rw [grown, List.mem_cons, not_or] at hq
        rw [Kernel.stateOf, others q hq.1, calls]
        exact h.unlisted q hq.2
      · intro q hq
        rw [current, Option.some.injEq] at hq
        rw [grown]
        cases hcur : s.kernel.current with
        | none =>
            rw [hcur, Option.getD_none] at hq
            subst hq
            exact ⟨List.mem_cons_self, Or.inl hready⟩
        | some q' =>
            rw [hcur, Option.getD_some] at hq
            subst hq
            obtain ⟨hlisted, hstate⟩ := h.current q' hcur
            rw [Kernel.stateOf, hkept q' hlisted]
            exact ⟨List.mem_cons_of_mem _ hlisted, hstate⟩
      · intro q hq
        by_cases hqp : q = p
        · rw [hqp, hready] at hq
          cases hq
        · rw [Kernel.stateOf, others q hqp] at hq
          rw [current, h.running q hq]
          rfl
  | switched _ k₁ taken table _ own others calls => exact h.switch taken table own others calls

theorem Started.inv (h : Started img s) : ProcessInv s := by
  cases h with
  | empty k zero =>
      have hstate : ∀ p, (processInit k).stateOf p = .ready := fun p => by
        rw [Kernel.stateOf, processInit, zero.procs]
        rfl
      have hlist : (processInit k).processList = [] := zero.processList
      have hnext : (processInit k).nextPid = 2 := zero.nextPid
      refine ⟨?_, ?_, ?_, ?_, ?_, ?_, ?_, ?_⟩
      · simp [hlist]
      · simp [hlist]
      · simp [hnext]
      · simp [hlist]
      · simp [hlist]
      · exact fun p _ => ⟨hstate p, rfl⟩
      · intro p hp
        cases hp
      · intro p hp
        rw [hstate] at hp
        cases hp
  | single k zero =>
      have hstate : ∀ p, (initProcess img k).stateOf p =
          if p = .processes 0 then .running else .ready := by
        intro p
        rw [Kernel.stateOf, initProcess]
        simp only [Kernel.setProc, Function.update_apply]
        split_ifs
        · rfl
        · rw [zero.procs]
          rfl
      have hpid : ((initProcess img k).procs (.processes 0)).pid = 1 := by
        simp [initProcess, Kernel.setProc]
      have hlist : (initProcess img k).processList = [.processes 0] := rfl
      have hnext : (initProcess img k).nextPid = 2 := rfl
      refine ⟨?_, ?_, ?_, ?_, ?_, ?_, ?_, ?_⟩
      · simp [hlist]
      · simp [hlist, hpid, hnext]
      · simp [hnext]
      · intro i hi
        simp only [hlist, List.mem_singleton, ProcessPtr.processes.injEq] at hi
        rw [hi]
        exact Nat.zero_lt_one
      · intro a ha
        simp [hlist] at ha
      · intro p hp
        simp only [hlist, List.mem_singleton] at hp
        simp [hstate, hp]
      · intro p hp
        obtain rfl : .processes 0 = p := Option.some.inj hp
        simp [hlist, hstate]
      · intro p hp
        rw [hstate] at hp
        split_ifs at hp with heq
        rw [heq]
        rfl

theorem process_inv {s₀ : System} (hstart : Started img s₀) {ok : System → ProcEvent → Prop}
    {trace : List (ProcEvent × ProcReply)} (h : Steps (procStep img) ok s₀ trace s) :
    ProcessInv s :=
  h.preserves hstart.inv fun _ _ _ _ ht _ hstep => ht.effect (procStep_effect hstep)

theorem ProcessInv.pid_inj (h : ProcessInv s) {p q : ProcessPtr} (hp : p ∈ s.kernel.processList)
    (hq : q ∈ s.kernel.processList) (hpid : (s.kernel.procs p).pid = (s.kernel.procs q).pid) :
    p = q := by
  have hnodup : (s.kernel.processList.map fun p => (s.kernel.procs p).pid).Nodup :=
    h.sorted.imp fun hgt => ne_of_gt hgt
  exact List.inj_on_of_nodup_map hnodup hp hq hpid

theorem ProcessInv.findProcess_eq (h : ProcessInv s) {p : ProcessPtr} (hp : p ∈ s.kernel.processList) :
    findProcess s.kernel (s.kernel.procs p).pid = some p := by
  cases hfind : findProcess s.kernel (s.kernel.procs p).pid with
  | none =>
      rw [findProcess, List.find?_eq_none] at hfind
      exact absurd (decide_eq_true rfl) (hfind p hp)
  | some q =>
      have hpid := List.find?_some hfind
      rw [decide_eq_true_iff] at hpid
      rw [h.pid_inj (List.mem_of_find?_eq_some hfind) hp hpid]

end Invariant

/-- The state that events lead to from `init_process`. -/
def initAfter (es : List ProcEvent) : System := es.foldl (next (procStep blankImage)) initSystem

theorem initAfter_run {ok : System → ProcEvent → Prop} (es : List ProcEvent) (rs : List ProcReply)
    (h : replies (procStep blankImage) initSystem es = some rs)
    (hok : Admits (procStep blankImage) ok initSystem es) :
    Steps (procStep blankImage) ok initSystem (es.zip rs) (initAfter es) :=
  steps_of_replies (procStep blankImage) initSystem es rs h hok

end Chthon
