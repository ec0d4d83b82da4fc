import Chthon.ProcessStates

/-! Blocking in `receive_message` over whole runs. The flag it sets, the state that `schedule` looks
at and the way back after the switch are three things, and nothing but the order of the process list
keeps a process that waits for a message from being run. -/

namespace Chthon

open Run

/-- `p` is in a `receive_message` that found no message, and none was queued for it since. -/
def System.Receiving (s : System) (p : ProcessPtr) : Prop :=
  (∃ msg, s.calls p = some (.receive msg)) ∧ (s.kernel.procs p).msgBlocked = true

/-- An event gives the processor to nobody who waits for a message, and a process that comes back from
waiting for one has it: the oldest of its queue. -/
def Delivers (s : System) (e : ProcEvent) (r : ProcReply) (s' : System) : Prop :=
  (∀ p, s'.kernel.current = some p → ¬s'.Receiving p) ∧
    ∀ p result msg, e = .resume → r = .received p result msg →
      result = 0 ∧ msg = (s.kernel.procs p).msgQueue.messages (s.kernel.procs p).msgQueue.head

/-- The kernel with which a call by the current process gets to `schedule`. -/
def scheduleEntry (s : System) (e : ProcEvent) : Option Kernel :=
  match s.kernel.current, e with
  | _, .schedule => some s.kernel
  | some p, .receive msg =>
      if (s.kernel.procs p).msgQueue.count = 0 ∧ msg.flags &&& msgNonblock = 0 then
        some (s.kernel.setProc p { s.kernel.procs p with msgBlocked := true })
      else none
  | some p, .wait | some p, .handleWait =>
      if zombieChild s.kernel (s.kernel.procs p) = none then some (s.kernel.setState p .blocked)
      else none
  | some p, .processExit status =>
      some { s.kernel.setProc p { s.kernel.procs p with state := .zombie, exitStatus := status } with
        current := none }
  | some p, .exitProcess status => some (exitedKernel s.kernel p status)
  | _, _ => none

/-- The first ready process is not one that waits for a message, nor the caller if that is about to;
and nobody comes back from waiting for a message. -/
def ProcEvent.SkipsReceivers (s : System) : ProcEvent → Prop
  | .resume => ∀ p msg, s.kernel.current = some p → s.calls p ≠ some (.receive msg)
  | .receive msg => ∀ k₁, scheduleEntry s (.receive msg) = some k₁ →
      ∀ next, firstReady k₁ = some next → s.kernel.current ≠ some next ∧ ¬s.Receiving next
  | e => ∀ k₁, scheduleEntry s e = some k₁ →
      ∀ next, firstReady k₁ = some next → ¬s.Receiving next

section Receive

variable {img : Image} {s s' : System} {e : ProcEvent} {r : ProcReply} {k k₁ : Kernel}
  {p next : ProcessPtr} {calls : ProcessPtr → Option PendingCall}

theorem idle_of_start (he : e ≠ .resume) (h : procStep img s e = some (r, s'))
    (hcur : s.kernel.current = some p) : s.calls p = none := by
  rw [procStep_start he] at h
  split_ifs at h with hbusy
  simp only [System.busy, hcur, Bool.not_eq_true, Option.isSome_eq_false_iff,
    Option.isNone_iff_eq_none] at hbusy
  exact hbusy

theorem schedule_msgBlocked (taken : schedule k₁ = some k) (q : ProcessPtr) :
    (k.procs q).msgBlocked = (k₁.procs q).msgBlocked := by
  rw [schedule_eq, Option.map_eq_some_iff] at taken
  obtain ⟨next, _, rfl⟩ := taken
  rfl

/-- Who runs after a switch waits for a message if it did before. -/
theorem delivers_switch_iff (taken : schedule k₁ = some s'.kernel) (he : e ≠ .resume) :
    Delivers s e r s' ↔ ∀ next, firstReady k₁ = some next →
      ¬((∃ msg, s'.calls next = some (.receive msg)) ∧ (k₁.procs next).msgBlocked = true) := by
  obtain ⟨first, hfirst, hcurrent, _⟩ := schedule_cases taken
  constructor
  · rintro ⟨hskips, _⟩ next hnext hreceiving
    obtain rfl : first = next := Option.some.inj (hfirst.symm.trans hnext)
    refine hskips first hcurrent ⟨hreceiving.1, ?_⟩
    rw [schedule_msgBlocked taken]
    exact hreceiving.2
  · intro hskips
    refine ⟨fun p hp hreceiving => ?_, fun _ _ _ hresume => absurd hresume he⟩
    obtain rfl : first = p := Option.some.inj (hcurrent.symm.trans hp)
    refine hskips first hfirst ⟨hreceiving.1, ?_⟩
    rw [← schedule_msgBlocked taken]
    exact hreceiving.2

/-- A call that does not get to `schedule` is made and left by a process in no other call. -/
theorem delivers_silent (hinv : ProcessInv s) (heffect : Effect s s' r) (hr : r.switches = false)
    (he : e ≠ .resume) (hidle : ∀ p, s.kernel.current = some p → s.calls p = none) :
    Delivers s e r s' := by
  have hnone : ∀ p, s'.kernel.current = some p → s'.calls p = none := by
    intro p hp
    cases heffect with
    | idle _ _ current _ _ calls =>
        rw [current] at hp
        rcases calls p with hsame | hnone
        · rw [hsame, hidle p hp]
        · exact hnone
    | reaped _ _ _ _ _ current _ _ calls =>
        rw [current] at hp
        rw [calls, hidle p hp]
    | created new _ place _ current _ _ _ _ calls =>
        rw [current, Option.some.injEq] at hp
        rw [calls]
        cases hcur : s.kernel.current with
        | none =>
            rw [hcur, Option.getD_none] at hp
            rw [← hp]
            exact (hinv.unlisted new (hinv.fresh place)).2
        | some q =>
            rw [hcur, Option.getD_some] at hp
            rw [← hp]
            exact hidle q hcur
    | switched loud =>
        rw [hr] at loud
        cases loud
  refine ⟨fun p hp hreceiving => ?_, fun _ _ _ hresume => absurd hresume he⟩
  obtain ⟨msg, hcall⟩ := hreceiving.1
  rw [hnone p hp] at hcall
  cases hcall

theorem setProc_msgBlocked {proc : Process} (h : proc.msgBlocked = (k.procs p).msgBlocked)
    (q : ProcessPtr) : ((k.setProc p proc).procs q).msgBlocked = (k.procs q).msgBlocked := by
  rw [setProc_procs]
  split_ifs with hq
  · rw [hq, h]
  · rfl

theorem exitedKernel_msgBlocked (k : Kernel) (p : ProcessPtr) (status : Int) (q : ProcessPtr) :
    ((exitedKernel k p status).procs q).msgBlocked = (k.procs q).msgBlocked := by
  set k₁ := k.setProc p { k.procs p with state := .zombie, exitStatus := status }
  have hexit : ∀ q, (k₁.procs q).msgBlocked = (k.procs q).msgBlocked := setProc_msgBlocked rfl
  have hwoken : ∀ parent, ((k₁.setState parent .ready).procs q).msgBlocked =
      (k₁.procs q).msgBlocked := fun parent => setProc_msgBlocked (by rfl) q
  unfold exitedKernel
  dsimp only
  split
  · split_ifs
    · exact (hwoken _).trans (hexit q)
    · exact hexit q
  · exact hexit q

/-- A call that leaves the flags alone and is not a receive. -/
theorem delivers_call_iff (hentry : scheduleEntry s e = some k₁) (taken : schedule k₁ = some s'.kernel)
    (he : e ≠ .resume) (hflags : ∀ q, (k₁.procs q).msgBlocked = (s.kernel.procs q).msgBlocked)
    (hcalls : ∀ q msg, s'.calls q = some (.receive msg) ↔ s.calls q = some (.receive msg)) :
    Delivers s e r s' ↔ ∀ k₂, scheduleEntry s e = some k₂ → ∀ next, firstReady k₂ = some next →
      ¬s.Receiving next := by
  rw [delivers_switch_iff taken he, hentry]
  simp only [hflags, hcalls]
  constructor
  · rintro hskips k₂ hk₂ next hnext
    rw [← Option.some.inj hk₂] at hnext
    exact hskips next hnext
  · intro hskips next hnext
    exact hskips k₁ rfl next hnext

/-- A call that does not get to `schedule`. -/
theorem skips_of_no_entry (hentry : scheduleEntry s e = none) (he : e ≠ .resume) :
    e.SkipsReceivers s := by
  cases e with
  | resume => exact absurd rfl he
  | _ =>
      intro k₁ hk₁
      rw [hentry] at hk₁
      cases hk₁

theorem update_not_receive {call : PendingCall} (hidle : s.calls p = none)
    (hcall : ∀ msg, call ≠ .receive msg) (q : ProcessPtr) (msg : Message) :
    Function.update s.calls p (some call) q = some (.receive msg) ↔
      s.calls q = some (.receive msg) := by
  by_cases hq : q = p
  · rw [hq, Function.update_self, hidle]
    exact iff_of_false (fun h => hcall msg (Option.some.inj h)) (by simp)
  · rw [Function.update_of_ne hq]

/-- Blocking for a message. -/
theorem delivers_receive_iff {msg : Message} (hcur : s.kernel.current = some p)
    (hentry : scheduleEntry s (.receive msg) =
      some (s.kernel.setProc p { s.kernel.procs p with msgBlocked := true }))
    (taken : schedule (s.kernel.setProc p { s.kernel.procs p with msgBlocked := true }) =
      some k) :
    Delivers s (.receive msg) .switched ⟨k, Function.update s.calls p (some (.receive msg))⟩ ↔
      ProcEvent.SkipsReceivers s (.receive msg) := by
  have hnext : ∀ next, (¬((∃ msg', Function.update s.calls p (some (.receive msg)) next =
      some (.receive msg')) ∧
      ((s.kernel.setProc p { s.kernel.procs p with msgBlocked := true }).procs next).msgBlocked =
        true)) ↔ s.kernel.current ≠ some next ∧ ¬s.Receiving next := by
    intro next
    rw [hcur]
    by_cases hnext : next = p
    · subst hnext
      refine iff_of_false (fun hskips => hskips ⟨⟨msg, Function.update_self _ _ _⟩, ?_⟩) (by simp)
      rw [setProc_procs, if_pos rfl]
    · have hne : some p ≠ some next := fun heq => hnext (Option.some.inj heq).symm
      rw [Function.update_of_ne hnext, setProc_procs, if_neg hnext, and_iff_right hne]
      rfl
  rw [delivers_switch_iff taken (by simp)]
  simp only [hnext]
  constructor
  · intro hskips k₁ hk₁ next hfirst
    rw [hentry, Option.some.injEq] at hk₁
    rw [← hk₁] at hfirst
    exact hskips next hfirst
  · intro hskips next hfirst
    exact hskips _ hentry next hfirst

/-- Coming back from a call. -/
theorem delivers_resumed (hcur : s.kernel.current = some p)
    (hr : ∀ q result msg, r ≠ .received q result msg) :
    Delivers s .resume r { s with calls := Function.update s.calls p none } := by
  refine ⟨fun q hq hreceiving => ?_, fun q result msg _ hreply => absurd hreply (hr q result msg)⟩
  obtain rfl : p = q := Option.some.inj (hcur.symm.trans hq)
  obtain ⟨msg, hcall⟩ := hreceiving.1
  dsimp only at hcall
  rw [Function.update_self] at hcall
  cases hcall

theorem skips_of_call {call : PendingCall} (hcur : s.kernel.current = some p)
    (hcall : s.calls p = some call) (hother : ∀ msg, call ≠ .receive msg) :
    ProcEvent.SkipsReceivers s .resume := by
  intro q msg hq hreceive
  obtain rfl : p = q := Option.some.inj (hcur.symm.trans hq)
  rw [hcall] at hreceive
  exact hother msg (Option.some.inj hreceive)

end Receive

/-- In every run, an event gives the processor to nobody who waits for a message, and ends no wait
but with the oldest message, exactly if `schedule` finds another ready process in front of all who
wait, and none of these comes back. -/
theorem receive_delivers_iff (img : Image) (s₀ s s' : System) (hstart : Started img s₀)
    (trace : List (ProcEvent × ProcReply))
    (hrun : Steps (procStep img) (fun _ _ => True) s₀ trace s) (e : ProcEvent) (r : ProcReply)
    (hstep : procStep img s e = some (r, s')) : Delivers s e r s' ↔ e.SkipsReceivers s := by
  have hinv := process_inv hstart hrun
  have htaken := procStep_taken hstep
  have heffect := htaken.effect
  have hidle : e ≠ .resume → ∀ p, s.kernel.current = some p → s.calls p = none := fun he p =>
    idle_of_start he hstep
  have hsilent : e ≠ .resume → r.switches = false → Delivers s e r s' := fun he hr =>
    delivers_silent hinv heffect hr he (hidle he)
  cases htaken with
  | created entry =>
      refine iff_of_true (hsilent (by simp) rfl) (skips_of_no_entry ?_ (by simp))
      cases hcur : s.kernel.current <;> simp [scheduleEntry]
  | forked new k called =>
      refine iff_of_true (hsilent (by simp) rfl) (skips_of_no_entry ?_ (by simp))
      cases hcur : s.kernel.current <;> simp [scheduleEntry]
  | queued proc msg result k called =>
      refine iff_of_true (hsilent (by simp) rfl) (skips_of_no_entry ?_ (by simp))
      cases hcur : s.kernel.current <;> simp [scheduleEntry]
  | received p msg msg' result k caller open_ called =>
      refine iff_of_true (hsilent (by simp) rfl) (skips_of_no_entry ?_ (by simp))
      simp only [scheduleEntry, caller]
      exact if_neg open_
  | receiving p msg k caller empty blocking taken =>
      refine delivers_receive_iff caller ?_ taken
      simp [scheduleEntry, caller, empty, blocking]
  | waited p c caller found =>
      refine iff_of_true (hsilent (by simp) rfl) (skips_of_no_entry ?_ (by simp))
      simp [scheduleEntry, caller, found]
  | waiting p k caller nobody taken =>
      refine delivers_call_iff ?_ taken (by simp) (setProc_msgBlocked rfl)
        (update_not_receive (hidle (by simp) p caller) (by simp))
      simp [scheduleEntry, caller, nobody]
  | handled p c caller found =>
      refine iff_of_true (hsilent (by simp) rfl) (skips_of_no_entry ?_ (by simp))
      simp [scheduleEntry, caller, found]
  | handling p k caller nobody taken =>
      refine delivers_call_iff ?_ taken (by simp) (setProc_msgBlocked rfl)
        (update_not_receive (hidle (by simp) p caller) (by simp))
      simp [scheduleEntry, caller, nobody]
  | nobodyExits status caller =>
      refine iff_of_true (hsilent (by simp) rfl) (skips_of_no_entry ?_ (by simp))
      simp [scheduleEntry, caller]
  | left p status k caller taken =>
      refine delivers_call_iff ?_ taken (by simp) (setProc_msgBlocked rfl) fun _ _ => Iff.rfl
      simp [scheduleEntry, caller]
  | exited p status k caller taken =>
      refine delivers_call_iff ?_ taken (by simp) (exitedKernel_msgBlocked s.kernel p status)
        fun _ _ => Iff.rfl
      simp [scheduleEntry, caller]
  | yielded k taken =>
      refine delivers_call_iff ?_ taken (by simp) (fun _ => rfl) fun _ _ => Iff.rfl
      simp [scheduleEntry]
  | resumedWait p c caller call found =>
      exact iff_of_true (delivers_resumed caller fun _ _ _ h => nomatch h)
        (skips_of_call caller call (by simp))
  | failedWait p caller call nobody =>
      exact iff_of_true (delivers_resumed caller fun _ _ _ h => nomatch h)
        (skips_of_call caller call (by simp))
  | resumedHandleWait p caller call =>
      exact iff_of_true (delivers_resumed caller fun _ _ _ h => nomatch h)
        (skips_of_call caller call (by simp))
  | resumedReceive p msg caller call =>
      refine iff_of_false ?_ fun hskips => hskips p msg caller call
      rintro ⟨_, holdest⟩
      have hresult := (holdest p (-1) msg rfl rfl).1
      cases hresult

/-- A message that asks to block. -/
def blockingMessage : Message := ⟨0, 0, 0, 0, 0, 0, 0, 0, 0, 0, 0, 0, 0⟩

/-- A receive by `init` gives way to its child. -/
theorem receive_gives_way_to_child :
    ∃ trace s s', Steps (procStep blankImage) (fun _ _ => True) initSystem trace s ∧
      procStep blankImage s (.receive blockingMessage) = some (.switched, s') ∧
      Delivers s (.receive blockingMessage) .switched s' := by
  have hrun := initAfter_run [.fork] [.created (some (.processes 1))] (by decide +kernel)
    (admits_true _ _)
  have hstep : procStep blankImage (initAfter [.fork]) (.receive blockingMessage) =
      some (.switched, _) := step_next (by decide +kernel)
  refine ⟨_, _, _, hrun, hstep, ?_⟩
  refine (receive_delivers_iff blankImage initSystem _ _ initSystem_started _ hrun _ _ hstep).mpr ?_
  intro k₁ hk₁ next hnext
  have hfirst : (scheduleEntry (initAfter [.fork]) (.receive blockingMessage)).bind firstReady =
      some (.processes 1) := by decide +kernel
  rw [hk₁, Option.bind_some, hnext, Option.some.injEq] at hfirst
  subst hfirst
  refine ⟨by decide +kernel, ?_⟩
  rintro ⟨⟨msg, hcall⟩, _⟩
  have hnone : (initAfter [.fork]).calls (.processes 1) = none := by decide +kernel
  rw [hnone] at hcall
  cases hcall

/-- The child gives way in turn, and `init` comes back without a message. -/
theorem receiver_run_without_message :
    ∃ trace s s', Steps (procStep blankImage) (fun _ _ => True) initSystem trace s ∧
      procStep blankImage s .schedule = some (.switched, s') ∧ ¬Delivers s .schedule .switched s' ∧
      ∃ s'', procStep blankImage s' .resume =
        some (.received (.processes 0) (-1) blockingMessage, s'') := by
  have hrun := initAfter_run [.fork, .receive blockingMessage]
    [.created (some (.processes 1)), .switched] (by decide +kernel) (admits_true _ _)
  have hstep : procStep blankImage (initAfter [.fork, .receive blockingMessage]) .schedule =
      some (.switched, _) := step_next (by decide +kernel)
  refine ⟨_, _, _, hrun, hstep, ?_, _, step_next (by decide +kernel)⟩
  rintro ⟨hskips, _⟩
  exact hskips (.processes 0) (by decide +kernel)
    ⟨⟨blockingMessage, by decide +kernel⟩, by decide +kernel⟩

end Chthon
