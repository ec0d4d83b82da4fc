import Chthon.ProcessRuns

/-! Three properties of the process table over whole runs: whom `schedule` leaves running, that an
exit is final, and how many forks the table holds. -/

namespace Chthon

open Run

/-! Switching. -/

/-- The one process in the state `PROC_RUNNING` is the current one. -/
def SwitchedTo (k : Kernel) : Prop :=
  ∃ p, k.current = some p ∧ k.stateOf p = .running ∧
    ∀ q ∈ k.processList, q ≠ p → k.stateOf q ≠ .running

/-- The call does not leave it to `schedule` to pick the caller itself. A call that blocks or ends
the caller never does. -/
def ProcEvent.GivesWay (s : System) : ProcEvent → Prop
  | .schedule | .receive _ => firstReady s.kernel ≠ s.kernel.current
  | _ => True

section Switch

variable {img : Image} {s s₀ s' : System} {e : ProcEvent} {r : ProcReply} {k₁ : Kernel}
  {p : ProcessPtr} {trace : List (ProcEvent × ProcReply)}

theorem switchedTo_iff (hinv : ProcessInv s') (taken : schedule k₁ = some s'.kernel) :
    SwitchedTo s'.kernel ↔ firstReady k₁ ≠ k₁.current := by
  obtain ⟨next, hnext, hcurrent, _, hstates, _⟩ := schedule_cases taken
  have hstate := hstates next
  rw [scheduledState, if_pos rfl] at hstate
  rw [hnext]
  constructor
  · rintro ⟨p, hp, hrunning, _⟩ hself
    obtain rfl : next = p := Option.some.inj (hcurrent.symm.trans hp)
    rw [hstate, if_pos hself.symm] at hrunning
    cases hrunning
  · intro hother
    rw [if_neg fun heq => hother heq.symm] at hstate
    refine ⟨next, hcurrent, hstate, fun q _ hq hrunning => hq ?_⟩
    exact Option.some.inj ((hinv.running q hrunning).symm.trans hcurrent)

/-- A caller that is not ready any more is not picked. -/
theorem firstReady_ne (h : k₁.stateOf p ≠ .ready) : firstReady k₁ ≠ some p :=
  fun hfirst => h (firstReady_some hfirst).2

theorem blocked_not_picked (hcur : s.kernel.current = some p) :
    firstReady (s.kernel.setState p .blocked) ≠ (s.kernel.setState p .blocked).current := by
  rw [show (s.kernel.setState p .blocked).current = some p from hcur]
  apply firstReady_ne
  rw [stateOf_setState, if_pos rfl]
  decide

theorem firstReady_congr {k k' : Kernel} (hlist : k'.processList = k.processList)
    (hstate : ∀ q, k'.stateOf q = k.stateOf q) : firstReady k' = firstReady k := by
  rw [firstReady, firstReady, hlist]
  congr 1
  funext q
  have := hstate q
  simp only [Kernel.stateOf] at this
  rw [this]

/-- The kernel with which a call enters `schedule`, and whether that can pick the caller. -/
theorem Taken.enters (h : Taken img s e r s') (hr : r.switches = true) :
    ∃ k₁, schedule k₁ = some s'.kernel ∧ (firstReady k₁ ≠ k₁.current ↔ e.GivesWay s) := by
  cases h with
  | receiving p msg k _ _ _ taken =>
      have hsame : firstReady (s.kernel.setProc p { s.kernel.procs p with msgBlocked := true }) =
          firstReady s.kernel := firstReady_congr rfl fun q => stateOf_setProc_same (by rfl) q
      refine ⟨_, taken, ?_⟩
      rw [hsame]
      exact Iff.rfl
  | waiting p k caller _ taken =>
      exact ⟨_, taken, iff_of_true (blocked_not_picked caller) trivial⟩
  | handling p k caller _ taken =>
      exact ⟨_, taken, iff_of_true (blocked_not_picked caller) trivial⟩
  | left p status k caller taken =>
      refine ⟨_, taken, iff_of_true ?_ trivial⟩
      -- `current_process` is NULL by then
      obtain ⟨next, hnext, _⟩ := schedule_cases taken
      rw [hnext]
      exact Option.some_ne_none next
  | exited p status k caller taken =>
      obtain ⟨_, hcurrent, hself, _⟩ := exitedKernel_cases s.kernel p status
      refine ⟨_, taken, iff_of_true ?_ trivial⟩
      rw [hcurrent, caller]
      apply firstReady_ne
      rw [hself]
      decide
  | yielded k taken => exact ⟨_, taken, Iff.rfl⟩
  | _ => cases hr

/-- In every run, a call that goes through `schedule` leaves exactly the new current process
running, unless `schedule` picks the caller itself. -/
theorem switch_consistent_iff (img : Image) (s₀ s s' : System) (hstart : Started img s₀)
    (trace : List (ProcEvent × ProcReply))
    (hrun : Steps (procStep img) (fun _ _ => True) s₀ trace s) (e : ProcEvent) (r : ProcReply)
    (hstep : procStep img s e = some (r, s')) (hswitch : r.switches = true) :
    SwitchedTo s'.kernel ↔ e.GivesWay s := by
  have hinv : ProcessInv s' := (process_inv hstart hrun).effect (procStep_effect hstep)
  obtain ⟨k₁, htaken, hiff⟩ := (procStep_taken hstep).enters hswitch
  rw [switchedTo_iff hinv htaken]
  exact hiff

end Switch

/-- `init` gives way to the process it has forked. -/
theorem switch_consistent_forked :
    ∃ trace s s', Steps (procStep blankImage) (fun _ _ => True) initSystem trace s ∧
      procStep blankImage s .schedule = some (.switched, s') ∧
      ProcEvent.GivesWay s .schedule ∧ SwitchedTo s'.kernel := by
  have hrun := initAfter_run [.fork] [.created (some (.processes 1))] (by decide +kernel)
    (admits_true _ _)
  refine ⟨_, _, _, hrun, step_next (by decide +kernel), ?_, ?_⟩
  · change firstReady _ ≠ _
    decide +kernel
  · refine (switch_consistent_iff blankImage initSystem _ _ initSystem_started _ hrun .schedule
      .switched (step_next (by decide +kernel)) rfl).mpr ?_
    change firstReady _ ≠ _
    decide +kernel

/-- The first process, current from its creation on, gives way to itself. -/
theorem switch_to_itself :
    ∃ trace s s' p, Steps (procStep blankImage) (fun _ _ => True) emptySystem trace s ∧
      procStep blankImage s .schedule = some (.switched, s') ∧
      s'.kernel.current = some p ∧ s'.kernel.stateOf p = .ready ∧ ¬SwitchedTo s'.kernel := by
  have hrun := steps_of_replies (procStep blankImage) emptySystem
    [.processCreate 0x80000000] [.created (some (.heap 0))] (by decide +kernel)
    (admits_true _ _)
  have hcur : (next (procStep blankImage) (next (procStep blankImage) emptySystem
      (.processCreate 0x80000000)) .schedule).kernel.current = some (.heap 0) := by decide +kernel
  have hstate : (next (procStep blankImage) (next (procStep blankImage) emptySystem
      (.processCreate 0x80000000)) .schedule).kernel.stateOf (.heap 0) = .ready := by decide +kernel
  refine ⟨_, _, _, .heap 0, hrun, step_next (by decide +kernel), hcur, hstate, ?_⟩
  rintro ⟨p, hp, hrunning, _⟩
  obtain rfl : .heap 0 = p := Option.some.inj (hcur.symm.trans hp)
  have hboth := hstate.symm.trans hrunning
  cases hboth

/-! Exits are final. -/

def Kernel.Exited (k : Kernel) (p : ProcessPtr) : Prop :=
  k.stateOf p = .zombie ∨ k.stateOf p = .dead

section Exit

variable {s s' : System} {r : ProcReply} {p : ProcessPtr}

theorem Kernel.Exited.not_ready {k : Kernel} (h : k.Exited p) :
    k.stateOf p ≠ .ready ∧ k.stateOf p ≠ .running ∧ k.stateOf p ≠ .blocked := by
  rcases h with h | h <;> rw [h] <;> decide

/-- An exited process is not the one that runs. -/
theorem ProcessInv.exited_not_current (h : ProcessInv s) (hp : s.kernel.Exited p) :
    s.kernel.current ≠ some p := by
  intro hcur
  obtain ⟨hready, hrunning, _⟩ := hp.not_ready
  rcases (h.current p hcur).2 with hstate | hstate
  · exact hready hstate
  · exact hrunning hstate

theorem ProcessInv.exited_effect (h : ProcessInv s) (hp : s.kernel.Exited p) (he : Effect s s' r) :
    s'.kernel.Exited p ∧ (s'.kernel.procs p).exitStatus = (s.kernel.procs p).exitStatus := by
  obtain ⟨hready, _, hblocked⟩ := hp.not_ready
  have hlisted : p ∈ s.kernel.processList := by
    by_contra hnot
    exact hready (h.unlisted p hnot).1
  cases he with
  | idle _ _ _ states exits _ =>
      rw [Kernel.Exited, states]
      exact ⟨hp, exits p⟩
  | reaped _ _ c _ _ _ states exits _ =>
      refine ⟨?_, exits p⟩
      rw [Kernel.Exited, states]
      split_ifs
      · exact Or.inr rfl
      · exact hp
  | created new _ place _ _ _ _ others _ _ =>
      have hne : p ≠ new := by
        rintro rfl
        exact h.fresh place hlisted
      rw [Kernel.Exited, Kernel.stateOf, others p hne]
      exact ⟨hp, rfl⟩
  | switched _ k₁ taken _ _ _ others _ =>
      obtain ⟨next, hnext, _, _, hstates, hexits⟩ := schedule_cases taken
      obtain ⟨hexit, hstate⟩ := others p (h.exited_not_current hp)
      have hsame : k₁.stateOf p = s.kernel.stateOf p := by
        rcases hstate with hsame | ⟨hwas, _⟩
        · exact hsame
        · exact absurd hwas hblocked
      have hpn : p ≠ next := by
        rintro rfl
        exact hready (hsame ▸ (firstReady_some hnext).2)
      have hkept : s'.kernel.stateOf p = s.kernel.stateOf p := by
        rw [hstates, scheduledState, if_neg hpn, hsame, if_neg]
        rintro ⟨_, hrunning⟩
        exact hp.not_ready.2.1 hrunning
      rw [Kernel.Exited, hkept, hexits, hexit]
      exact ⟨hp, rfl⟩

end Exit

/-- A process that has exited stays so in every continuation of the run, with its exit status, and
is not current again. -/
theorem exit_is_final (img : Image) (s₀ s s' : System) (hstart : Started img s₀)
    (trace trace' : List (ProcEvent × ProcReply))
    (hrun : Steps (procStep img) (fun _ _ => True) s₀ trace s)
    (hgoes : Steps (procStep img) (fun _ _ => True) s trace' s') (p : ProcessPtr)
    (hp : s.kernel.stateOf p = .zombie) :
    (s'.kernel.stateOf p = .zombie ∨ s'.kernel.stateOf p = .dead) ∧
      (s'.kernel.procs p).exitStatus = (s.kernel.procs p).exitStatus ∧
      s'.kernel.current ≠ some p := by
  have hinv := process_inv hstart hrun
  obtain ⟨hinv', hexited, hstatus⟩ : ProcessInv s' ∧ s'.kernel.Exited p ∧
      (s'.kernel.procs p).exitStatus = (s.kernel.procs p).exitStatus := by
    refine hgoes.preserves (P := fun t => ProcessInv t ∧ t.kernel.Exited p ∧
      (t.kernel.procs p).exitStatus = (s.kernel.procs p).exitStatus) ⟨hinv, Or.inl hp, rfl⟩ ?_
    rintro t e r u ⟨ht, hexited, hstatus⟩ _ hstep
    have heffect := procStep_effect hstep
    obtain ⟨hexited', hstatus'⟩ := ht.exited_effect hexited heffect
    exact ⟨ht.effect heffect, hexited', hstatus'.trans hstatus⟩
  exact ⟨hexited, hstatus, hinv'.exited_not_current hexited⟩

/-- A child exits; `init` goes on and forks again. -/
theorem exit_is_final_child :
    ∃ trace trace' s s', Steps (procStep blankImage) (fun _ _ => True) initSystem trace s ∧
      Steps (procStep blankImage) (fun _ _ => True) s trace' s' ∧
      s.kernel.stateOf (.processes 1) = .zombie ∧ s'.kernel.processList.length = 3 ∧
      (s'.kernel.stateOf (.processes 1) = .zombie ∨ s'.kernel.stateOf (.processes 1) = .dead) := by
  have hrun := initAfter_run [.fork, .schedule, .exitProcess 7]
    [.created (some (.processes 1)), .switched, .exited (.processes 1) 7] (by decide +kernel)
    (admits_true _ _)
  have hgoes := steps_of_replies (procStep blankImage) (initAfter [.fork, .schedule, .exitProcess 7])
    [.fork, .schedule] [.created (some (.processes 2)), .switched] (by decide +kernel) (admits_true _ _)
  have hzombie : (initAfter [.fork, .schedule, .exitProcess 7]).kernel.stateOf (.processes 1) =
      .zombie := by decide +kernel
  refine ⟨_, _, _, _, hrun, hgoes, hzombie, by decide +kernel, ?_⟩
  exact (exit_is_final blankImage initSystem _ _ initSystem_started _ _ hrun hgoes (.processes 1)
    hzombie).1

/-! Forks and slots. -/

/-- How many slots of `processes` are taken at the start. -/
def startSlots (s₀ : System) : Nat := s₀.kernel.processList.length

def ProcEvent.slots : ProcEvent → Nat
  | .fork => 1
  | _ => 0

/-- How many forks there were. -/
def forkCount (trace : List (ProcEvent × ProcReply)) : Nat :=
  (trace.map fun step => step.1.slots).sum

/-- `MSG_FORK` takes an element of `processes` and its stack from within the two arrays, or else
fails without a trace. -/
def ForkBounded (out : Outside) (k : Kernel) (msg : Message) : Prop :=
  (∃ i < maxProcesses, ∃ k', createProcess out.image k = some (.processes i, k') ∧
    (k'.procs (.processes i)).sp = out.image.processStacks + processStackSize * (i + 1) ∧
    sendMessage out k msg = some (0, { msg with pid := k.nextPid }, k')) ∨
  sendMessage out k msg = some (-1, msg, k)

section Slots

variable {img : Image} {s s₀ s' : System} {e : ProcEvent} {r : ProcReply}
  {trace : List (ProcEvent × ProcReply)}

theorem forkCount_snoc (trace : List (ProcEvent × ProcReply)) (e : ProcEvent) (r : ProcReply) :
    forkCount (trace ++ [(e, r)]) = forkCount trace + e.slots := by
  simp [forkCount]

/-- What `create_process` returns, and when it has a defined outcome at all. -/
theorem createProcess_some (img : Image) {k : Kernel} {p : ProcessPtr} (hcur : k.current = some p)
    (hcount : k.processCount < maxProcesses) :
    ∃ k', createProcess img k = some (.processes k.processCount, k') ∧
      k'.processCount = k.processCount + 1 ∧
      (k'.procs (.processes k.processCount)).pid = k.nextPid ∧
      (k'.procs (.processes k.processCount)).sp =
        img.processStacks + processStackSize * (k.processCount + 1) := by
  unfold createProcess
  rw [if_neg (Nat.not_le_of_lt hcount), Kernel.currentProcess, hcur]
  refine ⟨_, rfl, rfl, ?_, ?_⟩
  · simp [Kernel.setProc]
  · simp [Kernel.setProc]

theorem sendMessage_fork (out : Outside) (k : Kernel) {msg : Message}
    (hmsg : MsgType.all[msg.type]? = some .fork) :
    sendMessage out k msg = (createProcess out.image k).map
      fun (new, k) => (0, { msg with pid := (k.procs new).pid }, k) := by
  unfold sendMessage
  rw [hmsg]

theorem createProcess_none {k : Kernel} (h : k.current = none ∨ maxProcesses ≤ k.processCount) :
    createProcess img k = none := by
  unfold createProcess
  split_ifs with hcount
  · rfl
  · rcases h with hcur | hfull
    · rw [Kernel.currentProcess, hcur]
      rfl
    · exact absurd hfull hcount

theorem processCreate_processCount (k : Kernel) (entry : Nat) :
    (processCreate k entry).2.processCount = k.processCount := by
  unfold processCreate
  rcases kalloc_cases k.heapPos processSize with hkalloc | hkalloc
  · rw [hkalloc]
  · rw [hkalloc]
    rfl

theorem Taken.processCount (h : Taken img s e r s') :
    s'.kernel.processCount = s.kernel.processCount + e.slots := by
  have heffect := h.effect
  cases h with
  | forked new k called =>
      by_cases hdefined : s.kernel.current = none ∨ maxProcesses ≤ s.kernel.processCount
      · rw [createProcess_none hdefined] at called
        cases called
      · rw [not_or, Nat.not_le] at hdefined
        obtain ⟨p, hcur⟩ := Option.ne_none_iff_exists'.mp hdefined.1
        obtain ⟨k', hcall, hcount, _⟩ := createProcess_some img hcur hdefined.2
        rw [hcall] at called
        cases called
        exact hcount
  | created entry => exact processCreate_processCount s.kernel entry
  | _ => exact (heffect.sameTable (by simp)).processCount

theorem Started.processCount (h : Started img s₀) : s₀.kernel.processCount = startSlots s₀ := by
  cases h with
  | empty k zero =>
      rw [startSlots, show (processInit k).processList = [] from zero.processList]
      rfl
  | single k zero => rfl

/-- Every fork has taken a slot, and nothing gives one back. -/
theorem processCount_run (hstart : Started img s₀) {ok : System → ProcEvent → Prop}
    (hrun : Steps (procStep img) ok s₀ trace s) :
    s.kernel.processCount = startSlots s₀ + forkCount trace := by
  refine hrun.invariant (P := fun trace s => s.kernel.processCount = startSlots s₀ + forkCount trace)
    hstart.processCount fun trace t e r u ht _ hstep => ?_
  rw [(procStep_taken hstep).processCount, ht, forkCount_snoc, Nat.add_assoc]

end Slots

/-- In every run, `MSG_FORK` keeps to the process table and fails cleanly outside of it exactly as
long as a process sends it and the table has a slot that no fork has taken. -/
theorem fork_bounded_iff (out : Outside) (s₀ s : System) (hstart : Started out.image s₀)
    (trace : List (ProcEvent × ProcReply))
    (hrun : Steps (procStep out.image) (fun _ _ => True) s₀ trace s) (msg : Message)
    (hmsg : MsgType.all[msg.type]? = some .fork) :
    ForkBounded out s.kernel msg ↔
      s.kernel.current ≠ none ∧ startSlots s₀ + forkCount trace < maxProcesses := by
  have hsend := sendMessage_fork out s.kernel hmsg
  rw [← processCount_run hstart hrun]
  constructor
  · intro hbounded
    by_contra hnot
    have hnone : createProcess out.image s.kernel = none := by
      apply createProcess_none
      by_cases hcur : s.kernel.current = none
      · exact Or.inl hcur
      · exact Or.inr (Nat.le_of_not_lt fun hlt => hnot ⟨hcur, hlt⟩)
    rcases hbounded with ⟨i, _, k', hcall, _⟩ | hfail
    · rw [hnone] at hcall
      cases hcall
    · rw [hsend, hnone] at hfail
      cases hfail
  · rintro ⟨hcur, hcount⟩
    obtain ⟨p, hcur⟩ := Option.ne_none_iff_exists'.mp hcur
    obtain ⟨k', hcall, _, hpid, hsp⟩ := createProcess_some out.image hcur hcount
    refine Or.inl ⟨_, hcount, k', hcall, hsp, ?_⟩
    rw [hsend, hcall, ← hpid]
    rfl

/-- `init` forks for the third time. -/
theorem fork_bounded_third :
    ∃ trace s, Steps (procStep blankImage) (fun _ _ => True) initSystem trace s ∧
      forkCount trace = 2 ∧
      ForkBounded ⟨blankImage, 0, some⟩ s.kernel ⟨8, 0, 0, 0, 0, 0, 0, 0, 0, 0, 0, 0, 0⟩ := by
  have hrun := initAfter_run [.fork, .fork]
    [.created (some (.processes 1)), .created (some (.processes 2))] (by decide +kernel)
    (admits_true _ _)
  refine ⟨_, _, hrun, rfl, ?_⟩
  refine (fork_bounded_iff ⟨blankImage, 0, some⟩ initSystem _ initSystem_started _ hrun _ rfl).mpr ?_
  exact ⟨by decide +kernel, by decide +kernel⟩

/-- The fourth fork of `init` takes its process from behind the array. -/
theorem fourth_fork_outside :
    ∃ trace s, Steps (procStep blankImage) (fun _ _ => True) initSystem trace s ∧
      s.kernel.processCount = maxProcesses ∧
      ¬ForkBounded ⟨blankImage, 0, some⟩ s.kernel ⟨8, 0, 0, 0, 0, 0, 0, 0, 0, 0, 0, 0, 0⟩ := by
  have hrun := initAfter_run [.fork, .fork, .fork]
    [.created (some (.processes 1)), .created (some (.processes 2)),
      .created (some (.processes 3))] (by decide +kernel) (admits_true _ _)
  refine ⟨_, _, hrun, by decide +kernel, ?_⟩
  have hnone : createProcess blankImage (initAfter [.fork, .fork, .fork]).kernel = none :=
    createProcess_none (Or.inr (by decide +kernel))
  rintro (⟨i, _, k', hcall, _⟩ | hfail)
  · rw [hnone] at hcall
    cases hcall
  · rw [sendMessage_fork _ _ rfl, hnone] at hfail
    cases hfail

end Chthon
