import Chthon.ProcessStates

/-! Waiting for children over whole runs: when a waiting parent is woken, and which children its
waits report. -/

namespace Chthon

open Run

/-! Who waits for whom. -/

/-- `p` has blocked in `MSG_WAIT`. -/
def System.Waits (s : System) (p : ProcessPtr) : Prop :=
  p ∈ s.kernel.processList ∧ s.kernel.stateOf p = .blocked ∧ s.calls p = some .wait

/-- `c` is a child of `p` that has not exited. -/
def Kernel.LiveChild (k : Kernel) (p c : ProcessPtr) : Prop :=
  c ∈ k.processList ∧ (k.procs c).parentPid = (k.procs p).pid ∧ ¬k.Exited c

/-- Whoever waits has a child that can still wake it. -/
def NoLostWakeup (s : System) : Prop := ∀ p, s.Waits p → ∃ c, s.kernel.LiveChild p c

/-- The event does not leave a waiting process without a child to wake it: a process does not wait
when it has no child left, and the one to leave by `process_exit`, which wakes nobody, is not the last
live child of a waiting process. -/
def ProcEvent.Wakes (s : System) : ProcEvent → Prop
  | .wait => ∀ p, s.kernel.current = some p → zombieChild s.kernel (s.kernel.procs p) = none →
      ∃ c, s.kernel.LiveChild p c
  | .processExit _ => ∀ p, s.kernel.current = some p → ∀ q, s.Waits q →
      ∃ c, c ≠ p ∧ s.kernel.LiveChild q c
  | _ => True

section Wakeup

variable {img : Image} {s s' : System} {e : ProcEvent} {r : ProcReply} {k k₁ : Kernel}
  {p : ProcessPtr} {calls : ProcessPtr → Option PendingCall}

/-- `schedule` neither blocks nor wakes anybody. -/
theorem schedule_blocked_iff (taken : schedule k₁ = some k) (q : ProcessPtr) :
    k.stateOf q = .blocked ↔ k₁.stateOf q = .blocked := by
  obtain ⟨next, hnext, _, _, hstates, _⟩ := schedule_cases taken
  have hready := (firstReady_some hnext).2
  rw [hstates, scheduledState]
  split_ifs with hq hself hgave
  · rw [hq, hready]
    decide
  · rw [hq, hready]
    decide
  · rw [hgave.2]
    decide
  · rfl

theorem schedule_exited_iff (taken : schedule k₁ = some k) (q : ProcessPtr) :
    k.Exited q ↔ k₁.Exited q := by
  obtain ⟨next, hnext, _, _, hstates, _⟩ := schedule_cases taken
  have hready := (firstReady_some hnext).2
  rw [Kernel.Exited, Kernel.Exited, hstates, scheduledState]
  split_ifs with hq hself hgave
  · rw [hq, hready]
    decide
  · rw [hq, hready]
    decide
  · rw [hgave.2]
    decide
  · rfl

theorem LiveChild_schedule_iff (taken : schedule k₁ = some k) (q c : ProcessPtr) :
    k.LiveChild q c ↔ k₁.LiveChild q c := by
  obtain ⟨_, _, _, table, _⟩ := schedule_cases taken
  rw [Kernel.LiveChild, Kernel.LiveChild, table.processList, table.parentPid, table.pid,
    schedule_exited_iff taken]

/-- Whether a wake-up is lost is decided before the switch. -/
theorem noLostWakeup_schedule_iff (taken : schedule k₁ = some k) :
    NoLostWakeup ⟨k, calls⟩ ↔ NoLostWakeup ⟨k₁, calls⟩ := by
  obtain ⟨_, _, _, table, _⟩ := schedule_cases taken
  simp only [NoLostWakeup, System.Waits, table.processList, schedule_blocked_iff taken,
    LiveChild_schedule_iff taken]

/-- Nobody new waits and nobody has exited. -/
theorem NoLostWakeup.of_table (h : NoLostWakeup s) (table : SameTable s.kernel s'.kernel)
    (waits : ∀ q, s'.kernel.stateOf q = .blocked → s'.calls q = some .wait →
      s.kernel.stateOf q = .blocked ∧ s.calls q = some .wait)
    (exits : ∀ q, s'.kernel.Exited q → s.kernel.Exited q) : NoLostWakeup s' := by
  rintro q ⟨hlisted, hblocked, hcall⟩
  rw [table.processList] at hlisted
  obtain ⟨c, hc, hparent, hlive⟩ := h q ⟨hlisted, waits q hblocked hcall⟩
  refine ⟨c, ?_, ?_, fun hexited => hlive (exits c hexited)⟩
  · rw [table.processList]
    exact hc
  · rw [table.parentPid, table.pid]
    exact hparent

/-- A call that does not get to `schedule` loses no wake-up. -/
theorem NoLostWakeup.silent (h : NoLostWakeup s) (hinv : ProcessInv s) (he : Effect s s' r)
    (hr : r.switches = false) : NoLostWakeup s' := by
  cases he with
  | idle _ table _ states _ calls =>
      refine h.of_table table (fun q hblocked hcall => ?_) fun q hexited => ?_
      · rw [states] at hblocked
        rcases calls q with hsame | hnone
        · exact ⟨hblocked, hsame ▸ hcall⟩
        · rw [hnone] at hcall
          cases hcall
      · rw [Kernel.Exited, states] at hexited
        exact hexited
  | reaped _ table c _ zombie _ states _ calls =>
      refine h.of_table table (fun q hblocked hcall => ?_) fun q hexited => ?_
      · rw [states] at hblocked
        split_ifs at hblocked
        exact ⟨hblocked, calls ▸ hcall⟩
      · rw [Kernel.Exited, states] at hexited
        split_ifs at hexited with hq
        · exact Or.inl (hq ▸ zombie)
        · exact hexited
  | switched loud =>
      rw [hr] at loud
      cases loud
  | created p hlist place _ _ _ _ others _ calls =>
      have hfresh := hinv.fresh place
      have hne : ∀ q ∈ s.kernel.processList, q ≠ p := fun q hq heq => hfresh (heq ▸ hq)
      rintro q ⟨hq, hblocked, hcall⟩
      rw [hlist, List.mem_cons] at hq
      rcases hq with rfl | hq
      · exfalso
        rw [calls, (hinv.unlisted q hfresh).2] at hcall
        cases hcall
      · rw [Kernel.stateOf, others q (hne q hq)] at hblocked
        rw [calls] at hcall
        obtain ⟨c, hc, hparent, hlive⟩ := h q ⟨hq, hblocked, hcall⟩
        refine ⟨c, ?_, ?_, ?_⟩
        · rw [hlist]
          exact List.mem_cons_of_mem _ hc
        · rw [others c (hne c hc), others q (hne q hq)]
          exact hparent
        · rw [Kernel.Exited, Kernel.stateOf, others c (hne c hc)]
          exact hlive

/-- Giving way in a call other than `MSG_WAIT`. -/
theorem NoLostWakeup.suspended {call : PendingCall} {proc : Process} (h : NoLostWakeup s)
    (hcall : call ≠ .wait) (hpid : proc.pid = (s.kernel.procs p).pid)
    (hparent : proc.parentPid = (s.kernel.procs p).parentPid)
    (hstate : proc.state = (s.kernel.procs p).state ∨ proc.state = .blocked) :
    NoLostWakeup ⟨s.kernel.setProc p proc, Function.update s.calls p (some call)⟩ := by
  apply h.of_table (SameTable.setProc _ hpid hparent)
  · intro q hblocked hwait
    change Function.update s.calls p (some call) q = some .wait at hwait
    by_cases hqp : q = p
    · rw [hqp, Function.update_self, Option.some.injEq] at hwait
      exact absurd hwait hcall
    · rw [Function.update_of_ne hqp] at hwait
      rw [stateOf_setProc, if_neg hqp] at hblocked
      exact ⟨hblocked, hwait⟩
  · intro q hexited
    rw [Kernel.Exited, stateOf_setProc] at hexited
    split_ifs at hexited with hqp
    · rcases hstate with hsame | hblocked
      · rw [hsame, ← hqp] at hexited
        exact hexited
      · rw [hblocked] at hexited
        rcases hexited with hexited | hexited <;> cases hexited
    · exact hexited

/-- Blocking in `MSG_WAIT`. -/
theorem NoLostWakeup.wait_iff (h : NoLostWakeup s) (hinv : ProcessInv s)
    (hcur : s.kernel.current = some p) :
    NoLostWakeup ⟨s.kernel.setState p .blocked, Function.update s.calls p (some .wait)⟩ ↔
      ∃ c, s.kernel.LiveChild p c := by
  have table := SameTable.setState s.kernel p .blocked
  obtain ⟨hlisted, hstate⟩ := hinv.current p hcur
  have hown : ¬s.kernel.Exited p := fun hexited => hinv.exited_not_current hexited hcur
  have hexited : ∀ c, (s.kernel.setState p .blocked).Exited c ↔ s.kernel.Exited c := by
    intro c
    by_cases hc : c = p
    · rw [hc, Kernel.Exited, stateOf_setState, if_pos rfl]
      exact iff_of_false (by decide) hown
    · rw [Kernel.Exited, stateOf_setState, if_neg hc, Kernel.Exited]
  have hlive : ∀ q c, (s.kernel.setState p .blocked).LiveChild q c ↔ s.kernel.LiveChild q c := by
    intro q c
    rw [Kernel.LiveChild, Kernel.LiveChild, table.processList, table.parentPid, table.pid, hexited]
  constructor
  · intro hafter
    obtain ⟨c, hc⟩ := hafter p ⟨hlisted, by rw [stateOf_setState, if_pos rfl],
      Function.update_self _ _ _⟩
    exact ⟨c, (hlive p c).mp hc⟩
  · rintro ⟨c, hc⟩ q ⟨hq, hblocked, hcall⟩
    by_cases hqp : q = p
    · subst hqp
      exact ⟨c, (hlive q c).mpr hc⟩
    · rw [stateOf_setState, if_neg hqp] at hblocked
      have hcall : s.calls q = some .wait := (Function.update_of_ne hqp _ _).symm.trans hcall
      obtain ⟨c, hc⟩ := h q ⟨hq, hblocked, hcall⟩
      exact ⟨c, (hlive q c).mpr hc⟩

/-- Leaving by `process_exit`. -/
theorem noLostWakeup_left_iff (hinv : ProcessInv s) (hcur : s.kernel.current = some p)
    (status : Int) :
    NoLostWakeup { s with kernel := { s.kernel.setProc p
      { s.kernel.procs p with state := .zombie, exitStatus := status } with current := none } } ↔
      ∀ q, s.Waits q → ∃ c, c ≠ p ∧ s.kernel.LiveChild q c := by
  set k₁ := s.kernel.setProc p { s.kernel.procs p with state := .zombie, exitStatus := status }
  have table : SameTable s.kernel k₁ := SameTable.setProc _ rfl rfl
  have hstate : ∀ q, k₁.stateOf q = if q = p then .zombie else s.kernel.stateOf q := fun q =>
    stateOf_setProc s.kernel p _ q
  have hwaits : ∀ q, System.Waits { s with kernel := { k₁ with current := none } } q ↔ s.Waits q := by
    intro q
    have hown : s.kernel.stateOf p ≠ .blocked := by
      rcases (hinv.current p hcur).2 with hready | hrunning
      · rw [hready]
        decide
      · rw [hrunning]
        decide
    change q ∈ k₁.processList ∧ k₁.stateOf q = .blocked ∧ _ ↔ _
    rw [table.processList, hstate, System.Waits]
    split_ifs with hq
    · subst hq
      simp [hown]
    · rfl
  have hlive : ∀ q c, Kernel.LiveChild { k₁ with current := none } q c ↔
      c ≠ p ∧ s.kernel.LiveChild q c := by
    intro q c
    change c ∈ k₁.processList ∧ (k₁.procs c).parentPid = (k₁.procs q).pid ∧ ¬k₁.Exited c ↔ _
    rw [table.processList, table.parentPid, table.pid, Kernel.Exited, hstate, Kernel.LiveChild,
      Kernel.Exited]
    split_ifs with hc
    · simp [hc]
    · simp [hc]
  simp only [NoLostWakeup, hwaits, hlive]

/-- Leaving by `exit_process` wakes the parent if it waits. -/
theorem NoLostWakeup.exited (h : NoLostWakeup s) (hinv : ProcessInv s)
    (hcur : s.kernel.current = some p) (status : Int) :
    NoLostWakeup { s with kernel := exitedKernel s.kernel p status } := by
  obtain ⟨table, _, hself, _, hothers⟩ := exitedKernel_cases s.kernel p status
  rintro q ⟨hq, hblocked, hcall⟩
  rw [table.processList] at hq
  have hqp : q ≠ p := by
    rintro rfl
    rw [hself] at hblocked
    cases hblocked
  rw [(hothers q hqp).2] at hblocked
  split_ifs at hblocked with hwoken
  obtain ⟨c, hc, hparent, hlive⟩ := h q ⟨hq, hblocked, hcall⟩
  -- the child it relies on is not the one that exits, or it would have been woken
  have hcp : c ≠ p := by
    rintro rfl
    refine hwoken ⟨hblocked, ?_⟩
    rw [hparent]
    exact hinv.findProcess_eq hq
  refine ⟨c, ?_, ?_, ?_⟩
  · rw [table.processList]
    exact hc
  · rw [table.parentPid, table.pid]
    exact hparent
  · rw [Kernel.Exited, (hothers c hcp).2]
    split_ifs
    · decide
    · exact hlive

theorem NoLostWakeup.step_iff (h : NoLostWakeup s) (hinv : ProcessInv s)
    (htaken : Taken img s e r s') : NoLostWakeup s' ↔ e.Wakes s := by
  have hsilent := fun hr => h.silent hinv htaken.effect hr
  cases htaken with
  | receiving p msg k caller _ _ taken =>
      exact iff_of_true ((noLostWakeup_schedule_iff taken).mpr
        (h.suspended (by simp) rfl rfl (Or.inl rfl))) trivial
  | waiting p k caller nobody taken =>
      rw [noLostWakeup_schedule_iff taken, h.wait_iff hinv caller]
      constructor
      · intro hlive q hq _
        obtain rfl : p = q := Option.some.inj (caller.symm.trans hq)
        exact hlive
      · intro hwakes
        exact hwakes p caller nobody
  | waited p c caller found =>
      apply iff_of_true h
      intro q hq hnone
      obtain rfl : p = q := Option.some.inj (caller.symm.trans hq)
      rw [hnone] at found
      cases found
  | handling p k caller _ taken =>
      exact iff_of_true ((noLostWakeup_schedule_iff taken).mpr
        (h.suspended (by simp) rfl rfl (Or.inr rfl))) trivial
  | nobodyExits status caller =>
      apply iff_of_true h
      intro q hq
      rw [caller] at hq
      cases hq
  | left p status k caller taken =>
      rw [noLostWakeup_schedule_iff taken, noLostWakeup_left_iff hinv caller]
      constructor
      · intro hlive q hq
        obtain rfl : p = q := Option.some.inj (caller.symm.trans hq)
        exact hlive
      · intro hwakes
        exact hwakes p caller
  | exited p status k caller taken =>
      exact iff_of_true ((noLostWakeup_schedule_iff taken).mpr (h.exited hinv caller status)) trivial
  | yielded k taken => exact iff_of_true ((noLostWakeup_schedule_iff taken).mpr h) trivial
  | _ => exact iff_of_true (hsilent rfl) trivial

theorem Started.noLostWakeup (h : Started img s) : NoLostWakeup s := by
  rintro p ⟨_, _, hcall⟩
  cases h <;> cases hcall

end Wakeup

/-- In every run in which nobody waits without a child left and no `process_exit` is that of the last
live child of a waiting process, whoever waits has a live child; and the next event that breaks this
rule loses a wake-up. -/
theorem no_lost_wakeup_iff (img : Image) (s₀ s : System) (hstart : Started img s₀)
    (trace : List (ProcEvent × ProcReply))
    (hrun : Steps (procStep img) (fun s e => e.Wakes s) s₀ trace s) :
    NoLostWakeup s ∧ ∀ e r s', procStep img s e = some (r, s') → (NoLostWakeup s' ↔ e.Wakes s) := by
  have hkept : ProcessInv s ∧ NoLostWakeup s := by
    refine hrun.preserves (P := fun s => ProcessInv s ∧ NoLostWakeup s)
      ⟨hstart.inv, hstart.noLostWakeup⟩ ?_
    rintro t e r u ⟨hinv, ht⟩ hwakes hstep
    exact ⟨hinv.effect (procStep_effect hstep), (ht.step_iff hinv (procStep_taken hstep)).mpr hwakes⟩
  exact ⟨hkept.2, fun e r s' hstep => hkept.2.step_iff hkept.1 (procStep_taken hstep)⟩

/-- `init` waits for the child it has forked. -/
theorem no_lost_wakeup_init :
    ∃ trace s, Steps (procStep blankImage) (fun s e => e.Wakes s) initSystem trace s ∧
      s.Waits (.processes 0) ∧ NoLostWakeup s := by
  have hchild : ∀ p, (initAfter [.fork]).kernel.current = some p →
      zombieChild (initAfter [.fork]).kernel ((initAfter [.fork]).kernel.procs p) = none →
      ∃ c, (initAfter [.fork]).kernel.LiveChild p c := by
    intro p hp _
    have hinit : (initAfter [.fork]).kernel.current = some (.processes 0) := by decide +kernel
    obtain rfl : .processes 0 = p := Option.some.inj (hinit.symm.trans hp)
    refine ⟨.processes 1, by decide +kernel, by decide +kernel, ?_⟩
    unfold Kernel.Exited
    decide +kernel
  have hrun : Steps (procStep blankImage) (fun s e => e.Wakes s) initSystem _
      (initAfter [.fork, .wait]) :=
    initAfter_run [.fork, .wait] [.created (some (.processes 1)), .switched] (by decide +kernel)
      ⟨trivial, hchild, trivial⟩
  refine ⟨_, _, hrun, ⟨by decide +kernel, by decide +kernel, by decide +kernel⟩, ?_⟩
  exact (no_lost_wakeup_iff blankImage initSystem _ initSystem_started _ hrun).1

/-- The child forks and leaves by `process_exit`; its parent stays blocked for good. -/
theorem process_exit_loses_wakeup :
    ∃ trace s, Steps (procStep blankImage) (fun _ _ => True) initSystem trace s ∧
      s.Waits (.processes 0) ∧ s.kernel.stateOf (.processes 1) = .zombie ∧ ¬NoLostWakeup s := by
  have hrun := initAfter_run [.fork, .wait, .fork, .processExit 0]
    [.created (some (.processes 1)), .switched, .created (some (.processes 2)),
      .exited (.processes 1) 0] (by decide +kernel) (admits_true _ _)
  set s := initAfter [.fork, .wait, .fork, .processExit 0] with hs
  have hwaits : s.Waits (.processes 0) := by
    rw [hs]
    exact ⟨by decide +kernel, by decide +kernel, by decide +kernel⟩
  have hchildren : ∀ c ∈ s.kernel.processList, (s.kernel.procs c).parentPid = 1 →
      s.kernel.stateOf c = .zombie := by
    rw [hs]
    decide +kernel
  refine ⟨_, s, hrun, hwaits, ?_, fun h => ?_⟩
  · rw [hs]
    decide +kernel
  · obtain ⟨c, hc, hparent, hlive⟩ := h _ hwaits
    exact hlive (Or.inl (hchildren c hc hparent))

/-! Which children the waits report. -/

/-- The children that were reported to `p`, with their statuses, oldest report first. -/
def reports (p : ProcessPtr) (past : List (ProcEvent × ProcReply)) : List (ProcessPtr × Int) :=
  past.filterMap fun step =>
    match step.2 with
    | .waited q (some c) status => if q = p then some (c, status) else none
    | _ => none

/-- The exit statuses of the children of `p` that have exited. -/
def exitStatuses (k : Kernel) (p : ProcessPtr) : List Int :=
  (k.processList.filter fun c => (k.procs c).parentPid = (k.procs p).pid ∧
    (k.stateOf c = .zombie ∨ k.stateOf c = .dead)).map fun c => (k.procs c).exitStatus

/-- Nobody was told of a child twice, so the statuses handed out are among those of exited children. -/
def ReapedOnce (s : System) (past : List (ProcEvent × ProcReply)) : Prop :=
  ∀ p, ((reports p past).map Prod.fst).Nodup ∧
    Multiset.ofList ((reports p past).map Prod.snd) ≤ Multiset.ofList (exitStatuses s.kernel p)

/-- Every child reported to `p` that is still listed as exited has a newer sibling that has exited
too. -/
def NewerExit (s : System) (past : List (ProcEvent × ProcReply)) (p : ProcessPtr) : Prop :=
  ∀ c ∈ (reports p past).map Prod.fst, s.kernel.stateOf c = .zombie →
    ∃ z ∈ s.kernel.processList, (s.kernel.procs z).parentPid = (s.kernel.procs p).pid ∧
      s.kernel.stateOf z = .zombie ∧ (s.kernel.procs c).pid < (s.kernel.procs z).pid

/-- Where a process looks for a child, `NewerExit` holds. -/
def ProcEvent.Reaps (s : System) (past : List (ProcEvent × ProcReply)) : ProcEvent → Prop
  | .wait | .handleWait => ∀ p, s.kernel.current = some p → NewerExit s past p
  | .resume => ∀ p, s.kernel.current = some p → s.calls p = some .wait → NewerExit s past p
  | _ => True

section Reap

variable {img : Image} {s s' : System} {e : ProcEvent} {r : ProcReply} {p c : ProcessPtr}
  {past : List (ProcEvent × ProcReply)} {status : Int}

theorem reports_snoc (p : ProcessPtr) (past : List (ProcEvent × ProcReply)) (e : ProcEvent)
    (r : ProcReply) : reports p (past ++ [(e, r)]) = reports p past ++ reports p [(e, r)] :=
  List.filterMap_append

/-- Only a wait that finds a child is a report. -/
theorem reports_other (hr : ∀ q c status, r ≠ .waited q (some c) status) :
    reports p (past ++ [(e, r)]) = reports p past := by
  rw [reports_snoc]
  cases r with
  | waited q c status =>
      cases c with
      | none => simp [reports]
      | some c => exact absurd rfl (hr q c status)
  | _ => simp [reports]

theorem reports_waited (p q : ProcessPtr) :
    reports p (past ++ [(e, .waited q (some c) status)]) =
      reports p past ++ if q = p then [(c, status)] else [] := by
  rw [reports_snoc]
  by_cases hq : q = p
  · simp [reports, hq]
  · simp [reports, hq]

/-- The list is searched from its newest process on. -/
theorem ProcessInv.zombieChild_newest (h : ProcessInv s)
    (hfound : zombieChild s.kernel (s.kernel.procs p) = some c) {z : ProcessPtr}
    (hz : z ∈ s.kernel.processList)
    (hparent : (s.kernel.procs z).parentPid = (s.kernel.procs p).pid)
    (hzombie : s.kernel.stateOf z = .zombie) :
    (s.kernel.procs z).pid ≤ (s.kernel.procs c).pid := by
  rw [zombieChild, List.find?_eq_some_iff_append] at hfound
  obtain ⟨_, newer, older, hlist, hnewer⟩ := hfound
  have hsorted := h.sorted
  rw [List.pairwise_map, hlist, List.pairwise_append] at hsorted
  rw [hlist, List.mem_append, List.mem_cons] at hz
  rcases hz with hz | rfl | hz
  · have hnot := hnewer z hz
    rw [Kernel.stateOf] at hzombie
    simp [hparent, hzombie] at hnot
  · exact le_refl _
  · exact le_of_lt ((List.pairwise_cons.mp hsorted.2.1).1 z hz)

/-- What is known of every child that was reported. -/
structure Reported (s : System) (p c : ProcessPtr) (status : Int) : Prop where
  parent_listed : p ∈ s.kernel.processList
  listed : c ∈ s.kernel.processList
  parent : (s.kernel.procs c).parentPid = (s.kernel.procs p).pid
  exited : s.kernel.Exited c
  status_eq : (s.kernel.procs c).exitStatus = status

/-- Listed processes stay listed, with their pids. -/
theorem ProcessInv.listed_effect (h : ProcessInv s) (he : Effect s s' r)
    (hp : p ∈ s.kernel.processList) :
    p ∈ s'.kernel.processList ∧ (s'.kernel.procs p).pid = (s.kernel.procs p).pid ∧
      (s'.kernel.procs p).parentPid = (s.kernel.procs p).parentPid := by
  have hsame : SameTable s.kernel s'.kernel → p ∈ s'.kernel.processList ∧
      (s'.kernel.procs p).pid = (s.kernel.procs p).pid ∧
      (s'.kernel.procs p).parentPid = (s.kernel.procs p).parentPid := by
    intro table
    rw [table.processList]
    exact ⟨hp, table.pid p, table.parentPid p⟩
  cases he with
  | idle _ table => exact hsame table
  | reaped _ table => exact hsame table
  | created new grown place _ _ _ _ others =>
      have hne : p ≠ new := by
        rintro rfl
        exact h.fresh place hp
      rw [grown, others p hne]
      exact ⟨List.mem_cons_of_mem _ hp, rfl, rfl⟩
  | switched _ k₁ taken table =>
      obtain ⟨_, _, _, htable, _⟩ := schedule_cases taken
      exact hsame (table.trans htable)

theorem Reported.effect (h : Reported s p c status) (hinv : ProcessInv s) (he : Effect s s' r) :
    Reported s' p c status := by
  obtain ⟨hp, hpid, _⟩ := hinv.listed_effect he h.parent_listed
  obtain ⟨hc, _, hparent⟩ := hinv.listed_effect he h.listed
  obtain ⟨hexited, hstatus⟩ := hinv.exited_effect h.exited he
  exact ⟨hp, hc, by rw [hparent, hpid, h.parent], hexited, hstatus.trans h.status_eq⟩

/-- The invariant behind `ReapedOnce`: reports are about exited children of the one they went to. -/
def ReportsKnown (s : System) (past : List (ProcEvent × ProcReply)) : Prop :=
  ∀ p c status, (c, status) ∈ reports p past → Reported s p c status

theorem ReportsKnown.step (h : ReportsKnown s past) (hinv : ProcessInv s)
    (htaken : Taken img s e r s') : ReportsKnown s' (past ++ [(e, r)]) := by
  have heffect := htaken.effect
  have hkept : ∀ p c status, (c, status) ∈ reports p past → Reported s' p c status :=
    fun p c status hold => (h p c status hold).effect hinv heffect
  have hfound : ∀ q d, s.kernel.current = some q → zombieChild s.kernel (s.kernel.procs q) = some d →
      Reported s' q d (s.kernel.procs d).exitStatus := by
    intro q d hcur hzombie
    obtain ⟨hlisted, hparent, hstate⟩ := zombieChild_some hzombie
    have hnow : Reported s q d (s.kernel.procs d).exitStatus :=
      ⟨(hinv.current q hcur).1, hlisted, hparent, Or.inl hstate, rfl⟩
    exact hnow.effect hinv heffect
  -- a report to `q` about `d` is the only new one
  have hnew : ∀ q d, s.kernel.current = some q → zombieChild s.kernel (s.kernel.procs q) = some d →
      r = .waited q (some d) (s.kernel.procs d).exitStatus → ReportsKnown s' (past ++ [(e, r)]) := by
    rintro q d hcur hzombie rfl p c status hmem
    rw [reports_waited, List.mem_append] at hmem
    rcases hmem with hold | hmem
    · exact hkept p c status hold
    · split_ifs at hmem with hq
      · simp only [List.mem_singleton, Prod.mk.injEq] at hmem
        obtain ⟨rfl, rfl⟩ := hmem
        rw [← hq]
        exact hfound q c hcur hzombie
      · cases hmem
  have hother : (∀ q c status, r ≠ .waited q (some c) status) →
      ReportsKnown s' (past ++ [(e, r)]) := by
    intro hr p c status hmem
    rw [reports_other hr] at hmem
    exact hkept p c status hmem
  cases htaken with
  | waited q d caller found => exact hnew q d caller found rfl
  | handled q d caller found => exact hnew q d caller found rfl
  | resumedWait q d caller _ found => exact hnew q d caller found rfl
  | _ => exact hother (by simp)

/-- Different reports are about different children, whose statuses are all there. -/
theorem ReportsKnown.statuses_le (h : ReportsKnown s past)
    (hnodup : ((reports p past).map Prod.fst).Nodup) :
    Multiset.ofList ((reports p past).map Prod.snd) ≤ Multiset.ofList (exitStatuses s.kernel p) := by
  have hsnd : (reports p past).map Prod.snd =
      ((reports p past).map Prod.fst).map fun c => (s.kernel.procs c).exitStatus := by
    rw [List.map_map]
    apply List.map_congr_left
    intro report hreport
    exact (h p report.1 report.2 hreport).status_eq.symm
  rw [hsnd, exitStatuses, ← Multiset.map_coe, ← Multiset.map_coe]
  refine Multiset.map_le_map (Multiset.coe_le.mpr (List.subperm_of_subset hnodup ?_))
  intro c hc
  obtain ⟨report, hreport, rfl⟩ := List.mem_map.mp hc
  have hknown := h p report.1 report.2 hreport
  rw [List.mem_filter, decide_eq_true_iff]
  exact ⟨hknown.listed, hknown.parent, hknown.exited⟩

theorem ReportsKnown.reapedOnce_iff (h : ReportsKnown s past) :
    ReapedOnce s past ↔ ∀ p, ((reports p past).map Prod.fst).Nodup :=
  ⟨fun hreaped p => (hreaped p).1, fun hnodup p => ⟨hnodup p, h.statuses_le (hnodup p)⟩⟩

/-- What is found is new exactly when every child reported before has a newer one beside it. -/
theorem ReportsKnown.found_iff (h : ReportsKnown s past) (hinv : ProcessInv s)
    (hfound : zombieChild s.kernel (s.kernel.procs p) = some c) :
    c ∉ (reports p past).map Prod.fst ↔ NewerExit s past p := by
  obtain ⟨hlisted, hparent, hzombie⟩ := zombieChild_some hfound
  constructor
  · intro hnew d hd hdzombie
    obtain ⟨report, hreport, rfl⟩ := List.mem_map.mp hd
    have hknown := h p report.1 report.2 hreport
    have hle := hinv.zombieChild_newest hfound hknown.listed hknown.parent hdzombie
    refine ⟨c, hlisted, hparent, hzombie, lt_of_le_of_ne hle fun heq => hnew ?_⟩
    rw [← hinv.pid_inj hknown.listed hlisted heq]
    exact hd
  · intro hnewer hold
    obtain ⟨z, hz, hzparent, hzzombie, hlt⟩ := hnewer c hold hzombie
    exact absurd (hinv.zombieChild_newest hfound hz hzparent hzzombie) (not_le_of_gt hlt)

/-- Where nothing is found, nothing reported is left to find. -/
theorem ReportsKnown.newerExit_of_none (h : ReportsKnown s past)
    (hnone : zombieChild s.kernel (s.kernel.procs p) = none) : NewerExit s past p := by
  intro c hc hzombie
  obtain ⟨report, hreport, rfl⟩ := List.mem_map.mp hc
  have hknown := h p report.1 report.2 hreport
  rw [zombieChild, List.find?_eq_none] at hnone
  rw [Kernel.stateOf] at hzombie
  exact absurd (decide_eq_true ⟨hknown.parent, hzombie⟩) (hnone _ hknown.listed)

/-- A report of the child that was found. -/
theorem ReportsKnown.reported_iff (h : ReportsKnown s past) (hinv : ProcessInv s)
    (h' : ReportsKnown s' (past ++ [(e, .waited p (some c) status)])) (hreaped : ReapedOnce s past)
    (hfound : zombieChild s.kernel (s.kernel.procs p) = some c) :
    ReapedOnce s' (past ++ [(e, .waited p (some c) status)]) ↔ NewerExit s past p := by
  rw [h'.reapedOnce_iff, ← h.found_iff hinv hfound]
  constructor
  · intro hnodup hold
    have hp := hnodup p
    rw [reports_waited, if_pos rfl, List.map_append, List.nodup_append] at hp
    exact hp.2.2 c hold c List.mem_cons_self rfl
  · intro hnew q
    rw [reports_waited]
    split_ifs with hq
    · subst hq
      rw [List.map_append]
      exact (hreaped p).1.append (List.nodup_singleton c) (List.disjoint_singleton.mpr hnew)
    · rw [List.append_nil]
      exact (hreaped q).1

theorem ReportsKnown.step_iff (h : ReportsKnown s past) (hinv : ProcessInv s)
    (hreaped : ReapedOnce s past) (htaken : Taken img s e r s') :
    ReapedOnce s' (past ++ [(e, r)]) ↔ e.Reaps s past := by
  have h' := h.step hinv htaken
  have hother : (∀ q c status, r ≠ .waited q (some c) status) → ReapedOnce s' (past ++ [(e, r)]) := by
    intro hr
    rw [h'.reapedOnce_iff]
    intro p
    rw [reports_other hr]
    exact (hreaped p).1
  -- the rule is about the caller alone
  have hcaller : ∀ p, s.kernel.current = some p →
      ((∀ q, s.kernel.current = some q → NewerExit s past q) ↔ NewerExit s past p) := by
    refine fun p hp => ⟨fun hall => hall p hp, fun hnewer q hq => ?_⟩
    rw [← Option.some.inj (hp.symm.trans hq)]
    exact hnewer
  cases htaken with
  | waited p c caller found =>
      exact (h.reported_iff hinv h' hreaped found).trans (hcaller p caller).symm
  | waiting p k caller nobody =>
      exact iff_of_true (hother (by simp)) ((hcaller p caller).mpr (h.newerExit_of_none nobody))
  | handled p c caller found =>
      exact (h.reported_iff hinv h' hreaped found).trans (hcaller p caller).symm
  | handling p k caller nobody =>
      exact iff_of_true (hother (by simp)) ((hcaller p caller).mpr (h.newerExit_of_none nobody))
  | resumedWait p c caller call found =>
      rw [h.reported_iff hinv h' hreaped found]
      refine ⟨fun hnewer q hq _ => (hcaller p caller).mpr hnewer q hq, fun hall => hall p caller call⟩
  | failedWait p caller call nobody =>
      exact iff_of_true (hother (by simp)) fun q hq _ =>
        (hcaller p caller).mpr (h.newerExit_of_none nobody) q hq
  | resumedHandleWait p caller call =>
      apply iff_of_true (hother (by simp))
      intro q hq hwait
      obtain rfl : p = q := Option.some.inj (caller.symm.trans hq)
      rw [call] at hwait
      cases hwait
  | resumedReceive p msg caller call =>
      apply iff_of_true (hother (by simp))
      intro q hq hwait
      obtain rfl : p = q := Option.some.inj (caller.symm.trans hq)
      rw [call] at hwait
      cases hwait
  | _ => exact iff_of_true (hother (by simp)) trivial

end Reap

/-- In every run in which a process asks only when each child reported to it before, as long as it is
not marked `PROC_DEAD`, has a newer sibling that has exited, its waits report different children and
the statuses handed out are among the exit statuses; the next event that breaks this rule reports
a child again. -/
theorem reaped_once_iff (img : Image) (s₀ : System) (hstart : Started img s₀)
    (trace : List (ProcEvent × ProcReply)) (s : System) (past : List (ProcEvent × ProcReply))
    (hrun : Steps (recorded (procStep img)) (fun s e => e.Reaps s.1 s.2) (s₀, []) trace (s, past)) :
    past = trace ∧ ReapedOnce s past ∧ ∀ e r s', procStep img s e = some (r, s') →
      (ReapedOnce s' (past ++ [(e, r)]) ↔ e.Reaps s past) := by
  have hkept : ProcessInv s ∧ ReportsKnown s past ∧ ReapedOnce s past := by
    refine hrun.preserves (P := fun s : System × List (ProcEvent × ProcReply) =>
      ProcessInv s.1 ∧ ReportsKnown s.1 s.2 ∧ ReapedOnce s.1 s.2)
      ⟨hstart.inv, fun _ _ _ hmem => absurd hmem List.not_mem_nil,
        fun _ => ⟨List.nodup_nil, Multiset.zero_le _⟩⟩ ?_
    rintro ⟨t, past⟩ e r ⟨u, past'⟩ ⟨hinv, hknown, hreaped⟩ hreaps hstep
    obtain ⟨hstep, rfl⟩ := recorded_some hstep
    have htaken := procStep_taken hstep
    exact ⟨hinv.effect htaken.effect, hknown.step hinv htaken,
      (hknown.step_iff hinv hreaped htaken).mpr hreaps⟩
  obtain ⟨hinv, hknown, hreaped⟩ := hkept
  exact ⟨hrun.history, hreaped, fun e r s' hstep =>
    hknown.step_iff hinv hreaped (procStep_taken hstep)⟩

/-- `init` is told of one child, then of a second one that it has forked afterwards. -/
theorem reaped_once_two_children :
    ∃ trace t, Steps (recorded (procStep blankImage)) (fun s e => e.Reaps s.1 s.2) (initSystem, [])
        trace t ∧
      reports (.processes 0) t.2 = [(.processes 1, 7), (.processes 2, 8)] ∧ ReapedOnce t.1 t.2 := by
  let after (es : List ProcEvent) := es.foldl (next (recorded (procStep blankImage))) (initSystem, [])
  have hfirst : ∀ p, (after [.fork, .schedule, .exitProcess 7]).1.kernel.current = some p →
      NewerExit (after [.fork, .schedule, .exitProcess 7]).1
        (after [.fork, .schedule, .exitProcess 7]).2 p := by
    intro p hp c hc
    obtain rfl : .processes 0 = p := Option.some.inj (Eq.trans (by decide +kernel) hp)
    have hnone : reports (.processes 0) (after [.fork, .schedule, .exitProcess 7]).2 = [] := by
      decide +kernel
    rw [hnone] at hc
    cases hc
  have hsecond : ∀ p, (after [.fork, .schedule, .exitProcess 7, .wait, .fork, .schedule,
      .exitProcess 8]).1.kernel.current = some p →
      NewerExit (after [.fork, .schedule, .exitProcess 7, .wait, .fork, .schedule, .exitProcess 8]).1
        (after [.fork, .schedule, .exitProcess 7, .wait, .fork, .schedule, .exitProcess 8]).2 p := by
    intro p hp c hc _
    obtain rfl : .processes 0 = p := Option.some.inj (Eq.trans (by decide +kernel) hp)
    have hone : reports (.processes 0) (after [.fork, .schedule, .exitProcess 7, .wait, .fork,
        .schedule, .exitProcess 8]).2 = [(.processes 1, 7)] := by decide +kernel
    rw [hone, List.map_singleton, List.mem_singleton] at hc
    subst hc
    exact ⟨.processes 2, by decide +kernel, by decide +kernel, by decide +kernel, by decide +kernel⟩
  have hrun : Steps (recorded (procStep blankImage)) (fun s e => e.Reaps s.1 s.2) (initSystem, [])
      _ (after [.fork, .schedule, .exitProcess 7, .wait, .fork, .schedule, .exitProcess 8, .wait]) :=
    steps_of_replies (recorded (procStep blankImage)) (initSystem, []) _
      [.created (some (.processes 1)), .switched, .exited (.processes 1) 7,
        .waited (.processes 0) (some (.processes 1)) 7, .created (some (.processes 2)), .switched,
        .exited (.processes 2) 8, .waited (.processes 0) (some (.processes 2)) 8]
      (by decide +kernel)
      ⟨trivial, trivial, trivial, hfirst, trivial, trivial, trivial, hsecond, trivial⟩
  refine ⟨_, _, hrun, by decide +kernel, ?_⟩
  exact (reaped_once_iff blankImage initSystem initSystem_started _ (after _).1 (after _).2 hrun).2.1

/-- Two waits report the one child twice. -/
theorem child_reaped_twice :
    ∃ trace s, Steps (procStep blankImage) (fun _ _ => True) initSystem trace s ∧
      reports (.processes 0) trace = [(.processes 1, 7), (.processes 1, 7)] ∧ ¬ReapedOnce s trace := by
  have hrun := initAfter_run [.fork, .schedule, .exitProcess 7, .wait, .wait]
    [.created (some (.processes 1)), .switched, .exited (.processes 1) 7,
      .waited (.processes 0) (some (.processes 1)) 7,
      .waited (.processes 0) (some (.processes 1)) 7] (by decide +kernel) (admits_true _ _)
  refine ⟨_, _, hrun, rfl, fun h => ?_⟩
  have hnodup := (h (.processes 0)).1
  revert hnodup
  decide +kernel

end Chthon
