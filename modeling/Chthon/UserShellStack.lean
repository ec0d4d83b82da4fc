import Chthon.UserShellCommands

/-! The stack of the user shell: at each label it is a fixed number of bytes below where it is at the
prompt, but for the messages that are refused and not taken off it. -/

namespace Chthon.UserShell

open Arm64 (Word Within load)
open BasicBlocks

/-- How far below the prompt the stack is at a label. -/
def depth : Label → Nat
  | .lsGetCwd | .clearLsCwdMsg | .lsCwdError | .lsDoReaddir | .lsLoop | .lsNameLoop | .lsNameDone
  | .lsEmpty | .lsError | .lsDone | .lsDoneWithPwdBuffer | .printMessageAndRestoreLs
  | .printMsgRestoreLsDone => 512 + 4096 + 96
  | .clearPwdMsg | .pwdError | .printMessageAndRestorePwd | .printPwdNewline
  | .printMsgRestorePwdDone => 512 + 64
  | .printMessageAndRestore | .printMsgRestoreDone => 4096 + 96
  | _ => 0

/-- A message other than those of `ls` and `pwd` is refused. -/
def Left (call : State × State) : Prop :=
  call.1.x 8 = 4 ∧ load call.1.mem (call.1.x 0) ≠ BitVec.ofNat 64 msgReadDir ∧
    load call.1.mem (call.1.x 0) ≠ BitVec.ofNat 64 msgGetcwd ∧ Refused call.2

instance (call : State × State) : Decidable (Left call) :=
  inferInstanceAs (Decidable (_ ∧ _ ∧ _ ∧ _))

/-- The number of messages left on the stack. -/
def left (calls : Calls) : Nat := calls.countP fun call => Left call

/-- The labels whose blocks send a message from below the prompt's stack and leave it there when it
is refused. -/
def sends : Label → Bool
  | .filenameFound | .dirnameFound | .cdPathFound | .cdNoArgs | .cpDstFound | .rmFileFound
  | .mvDstFound | .bindPathsFound | .unbindPathFound => true
  | _ => false

/-- The labels whose blocks send a message from the stack of `ls` or `pwd`. -/
def asks : Label → Bool
  | .clearLsCwdMsg | .lsDoReaddir | .clearPwdMsg => true
  | _ => false

section Steps

variable {symbol : Symbol → Word} {env : Environment} {c c' : Config Label} {base : Word}

theorem left_append (calls made : Calls) : left (calls ++ made) = left calls + left made :=
  List.countP_append

theorem left_one (call : State × State) : left [call] = if Left call then 1 else 0 := by
  simp [left, List.countP_cons]

theorem left_zero {calls : Calls} (h : ∀ call ∈ calls, ¬ Left call) : left calls = 0 := by
  rw [left, List.countP_eq_zero]
  intro call hcall
  simpa using h call hcall

/-- What a block does to the stack: it keeps the distance to the prompt, or leaves one message and
goes on to print an error. -/
structure Moves (c c' : Config Label) : Prop where
  made : ∃ made, c'.calls = c.calls ++ made ∧
    (left made = 0 ∧ c'.state.sp + BitVec.ofNat 64 (depth c'.label) =
        c.state.sp + BitVec.ofNat 64 (depth c.label) ∨
      left made = 1 ∧ quiet c'.label = true ∧ c'.state.sp + 96 + BitVec.ofNat 64 (depth c'.label) =
        c.state.sp + BitVec.ofNat 64 (depth c.label))

theorem plain_balanced (label : Label) (h : sends label = false) :
    balanced next depth label (depth label) (code label) = true := by
  cases label <;> first | exact absurd h (by decide) | decide

theorem plain_calls (label : Label) (h : sends label = false) (h' : asks label = false) :
    callsOnly (· ≠ 4) none (code label) = true := by
  cases label <;> first | exact absurd h (by decide) | exact absurd h' (by decide) | decide

variable (symbol)

/-- A block that sends no message. -/
theorem plain_left (hkeeps : KeepsCaller env) (h : sends c.label = false) (h' : asks c.label = false) :
    ∃ made, (step (shell symbol) env c).calls = c.calls ++ made ∧ left made = 0 := by
  obtain ⟨made, hcalls, hmade⟩ := runBlock_callsOnly (p := shell symbol) c.state c.calls c.label
    (fun calls s => hkeeps.x calls s 8 (by decide) (by decide)) (plain_calls c.label h h') (by simp)
  refine ⟨made, hcalls, ?_⟩
  apply left_zero
  intro call hcall hleft
  have hnumber := hmade call hcall
  simp only [decide_not, Bool.not_eq_true', decide_eq_false_iff_not] at hnumber
  exact hnumber hleft.1

/-- A block that has sent its message. -/
theorem Asks.moves {m : Arm64.Memory} {type : Nat} {ws : List Word} {error : Label} {r : State}
    (h : Asks env c.state c.calls m (BitVec.ofNat 64 type :: ws) error c' r) (hws : ws.length = 11)
    (hdir : BitVec.ofNat 64 type ≠ BitVec.ofNat 64 msgReadDir)
    (hcwd : BitVec.ofNat 64 type ≠ BitVec.ofNat 64 msgGetcwd) (hhere : depth c.label = 0)
    (herror : depth error = 0) (hquiet : quiet error = true) : Moves c c' := by
  have htype : load r.mem (r.x 0) = BitVec.ofNat 64 type := h.type (by rw [hws]; decide)
  refine ⟨_, h.made, ?_⟩
  rw [left_one, h.sp, h.label, hhere]
  by_cases hrefused : Refused (env c.calls r)
  · have hleft : Left (r, env c.calls r) :=
      ⟨h.number, by rwa [htype], by rwa [htype], hrefused⟩
    refine .inr ⟨if_pos hleft, ?_, ?_⟩
    · rw [if_pos hrefused]
      exact hquiet
    · rw [if_pos hrefused, if_pos hrefused, herror]
      bv_omega
  · refine .inl ⟨if_neg fun hleft => hrefused hleft.2.2.2, ?_⟩
    rw [if_neg hrefused, if_neg hrefused]
    rfl

/-- A block that has found no argument. -/
theorem Moves.of_silent (hcalls : c'.calls = c.calls) (hsp : c'.state.sp = c.state.sp)
    (hdepth : depth c'.label = depth c.label) : Moves c c' :=
  ⟨[], by rw [hcalls, List.append_nil], .inl ⟨rfl, by rw [hsp, hdepth]⟩⟩

/-- A command with one path. -/
theorem sendPath_moves (hkeeps : KeepsCaller env) {type : Nat} {noArgs error : Label}
    (hcode : code c.label = sendPath type noArgs error)
    (hdir : BitVec.ofNat 64 type ≠ BitVec.ofNat 64 msgReadDir)
    (hcwd : BitVec.ofNat 64 type ≠ BitVec.ofNat 64 msgGetcwd) (hhere : depth c.label = 0)
    (hnone : depth noArgs = 0) (herror : depth error = 0) (hquiet : quiet error = true) :
    Moves c (step (shell symbol) env c) := by
  have hstep : step (shell symbol) env c =
      runBlock (shell symbol) env c.label (sendPath type noArgs error) c.state c.calls := by
    rw [← hcode]
    rfl
  rw [hstep]
  rcases sendPath_run symbol c.state c.calls c.label error hkeeps type noArgs with
    ⟨-, s', hrun, hsp⟩ | ⟨-, r, hasks⟩
  · rw [hrun]
    exact .of_silent rfl hsp (hnone.trans hhere.symm)
  · exact hasks.moves (by simp) hdir hcwd hhere herror hquiet

/-- A command with two paths. -/
theorem sendPaths_moves (hkeeps : KeepsCaller env) {type : Nat} {path data : Fin 31}
    {noArgs error : Label} (hcode : code c.label = sendPaths type path data noArgs error)
    (hpath : path ≠ 8) (hdata : data ≠ 8)
    (hdir : BitVec.ofNat 64 type ≠ BitVec.ofNat 64 msgReadDir)
    (hcwd : BitVec.ofNat 64 type ≠ BitVec.ofNat 64 msgGetcwd) (hhere : depth c.label = 0)
    (hnone : depth noArgs = 0) (herror : depth error = 0) (hquiet : quiet error = true) :
    Moves c (step (shell symbol) env c) := by
  have hstep : step (shell symbol) env c = runBlock (shell symbol) env c.label
      (sendPaths type path data noArgs error) c.state c.calls := by
    rw [← hcode]
    rfl
  rw [hstep]
  rcases sendPaths_run symbol c.state c.calls c.label error hkeeps type path data noArgs hpath hdata
    with ⟨-, s', hrun, hsp⟩ | ⟨-, r, hasks⟩
  · rw [hrun]
    exact .of_silent rfl hsp (hnone.trans hhere.symm)
  · exact hasks.moves (by simp) hdir hcwd hhere herror hquiet

theorem sends_moves (hkeeps : KeepsCaller env) (h : sends c.label = true) :
    Moves c (step (shell symbol) env c) := by
  obtain ⟨label, s, calls⟩ := c
  cases label with
  | filenameFound | dirnameFound | cdPathFound | rmFileFound | unbindPathFound =>
      exact sendPath_moves symbol hkeeps rfl (by decide) (by decide) rfl rfl rfl rfl
  | cpDstFound | mvDstFound | bindPathsFound =>
      exact sendPaths_moves symbol hkeeps rfl (by decide) (by decide) (by decide) (by decide) rfl rfl rfl rfl
  | cdNoArgs =>
      obtain ⟨r, hasks⟩ := cdNoArgs_run symbol s calls hkeeps
      exact hasks.moves (by simp) (by decide) (by decide) rfl rfl rfl
  | _ => cases h

/-- A block that asks for a listing or for the directory. -/
theorem asks_left (h : asks c.label = true) :
    ∃ made, (step (shell symbol) env c).calls = c.calls ++ made ∧ left made = 0 := by
  have hasked : ∀ r : State, load r.mem (r.x 0) = BitVec.ofNat 64 msgReadDir ∨
      load r.mem (r.x 0) = BitVec.ofNat 64 msgGetcwd → left [(r, env c.calls r)] = 0 := by
    intro r htype
    rw [left_one, if_neg]
    rintro ⟨-, hdir, hcwd, -⟩
    exact htype.elim hdir hcwd
  obtain ⟨label, s, calls⟩ := c
  cases label with
  | clearPwdMsg =>
      rcases clearPwdMsg_run symbol env s calls with ⟨-, s', hrun, -⟩ | ⟨-, s', r, -, htype, hrun⟩
      · exact ⟨[], by rw [step_at, hrun, List.append_nil], rfl⟩
      · exact ⟨_, by rw [step_at, hrun], hasked r (.inr htype)⟩
  | clearLsCwdMsg =>
      rcases clearLsCwdMsg_run symbol env s calls with ⟨-, s', hrun, -⟩ | ⟨-, r, hasks⟩
      · exact ⟨[], by rw [step_at, hrun, List.append_nil], rfl⟩
      · exact ⟨_, hasks.made, hasked r (.inr hasks.type)⟩
  | lsDoReaddir =>
      obtain ⟨r, hasks⟩ := lsDoReaddir_run symbol env s calls
      exact ⟨_, hasks.made, hasked r (.inl hasks.fields.1)⟩
  | _ => cases h

/-- A block moves the stack by as much as its labels say, or leaves a refused message on it. -/
theorem step_moves (hkeeps : KeepsCaller env) (c : Config Label) :
    Moves c (step (shell symbol) env c) := by
  cases hsends : sends c.label with
  | true => exact sends_moves symbol hkeeps hsends
  | false =>
      have hleft : ∃ made, (step (shell symbol) env c).calls = c.calls ++ made ∧ left made = 0 := by
        cases hasks : asks c.label with
        | false => exact plain_left symbol hkeeps hsends hasks
        | true => exact asks_left symbol hasks
      obtain ⟨made, hcalls, hleft⟩ := hleft
      refine ⟨made, hcalls, .inl ⟨hleft, ?_⟩⟩
      exact runBlock_balanced (p := shell symbol) hkeeps.sp (plain_balanced c.label hsends) rfl

/-- Over a run, the stack goes down by the messages left on it. -/
theorem run_stack (hkeeps : KeepsCaller env) (c : Config Label) (n : Nat) :
    ∃ made, (run (shell symbol) env n c).calls = c.calls ++ made ∧
      (run (shell symbol) env n c).state.sp + BitVec.ofNat 64 (96 * left made) +
        BitVec.ofNat 64 (depth (run (shell symbol) env n c).label) =
          c.state.sp + BitVec.ofNat 64 (depth c.label) := by
  induction n with
  | zero => exact ⟨[], (List.append_nil _).symm, by rw [run_zero]; simp [left]⟩
  | succ n ih =>
      obtain ⟨made, hcalls, hstack⟩ := ih
      obtain ⟨made', hcalls', hmoves⟩ := step_moves symbol hkeeps (run (shell symbol) env n c)
      rw [run_succ]
      refine ⟨made ++ made', by rw [hcalls', hcalls, List.append_assoc], ?_⟩
      rw [left_append, Nat.mul_add, BitVec.ofNat_add, ← hstack]
      have hsum : ∀ a b d d' e k : Word, b + e + d' = a + d → b + (k + e) + d' = a + k + d := by
        intro a b d d' e k h
        bv_omega
      apply hsum
      rcases hmoves with ⟨hleft, hmoves⟩ | ⟨hleft, -, hmoves⟩
      · rw [hleft, ← hmoves]
        exact congrArg (· + _) (BitVec.add_zero _)
      · rw [hleft, ← hmoves]
        rfl

/-- On the way to the next prompt at most one message is left, and then none is sent any more. -/
theorem line_left (hkeeps : KeepsCaller env) (c : Config Label) (n : Nat)
    (hbefore : ∀ m, 0 < m → m < n → (run (shell symbol) env m c).label ≠ .printPrompt) :
    ∃ made, (run (shell symbol) env n c).calls = c.calls ++ made ∧
      (left made = 0 ∨ 0 < n ∧ left made = 1 ∧ quiet (run (shell symbol) env n c).label = true) := by
  induction n with
  | zero => exact ⟨[], (List.append_nil _).symm, .inl rfl⟩
  | succ n ih =>
      obtain ⟨made, hcalls, hleft⟩ := ih fun m hm hlt => hbefore m hm (hlt.trans (Nat.lt_succ_self n))
      rw [run_succ]
      rcases hleft with hleft | ⟨hpos, hleft, hquiet⟩
      · obtain ⟨made', hcalls', hmoves⟩ := step_moves symbol hkeeps (run (shell symbol) env n c)
        refine ⟨made ++ made', by rw [hcalls', hcalls, List.append_assoc], ?_⟩
        rw [left_append, hleft, Nat.zero_add]
        exact hmoves.imp And.left fun h => ⟨Nat.succ_pos n, h.1, h.2.1⟩
      · have hplain : ∀ label, quiet label = true → sends label = false ∧ asks label = false := by
          intro label h
          cases label <;> first | exact absurd h (by decide) | decide
        obtain ⟨hsends, hasks⟩ := hplain _ hquiet
        obtain ⟨made', hcalls', hleft'⟩ := plain_left symbol hkeeps hsends hasks
        refine ⟨made ++ made', by rw [hcalls', hcalls, List.append_assoc], ?_⟩
        rw [left_append, hleft, hleft']
        refine .inr ⟨Nat.succ_pos n, rfl, ?_⟩
        exact quiet_exits _ hquiet (hbefore n hpos (Nat.lt_succ_self n)) _ runBlock_label

end Steps

/-- The stack is at every prompt where it was, as long as no message other than those of `ls` and
`pwd` is refused. From one prompt to the next, it is so just then. -/
theorem stack_balanced_iff (symbol : Symbol → Word) (env : Environment) (hkeeps : KeepsCaller env)
    (c : Config Label) (hprompt : c.label = .printPrompt) :
    (∀ n made, (run (shell symbol) env n c).label = .printPrompt →
      (run (shell symbol) env n c).calls = c.calls ++ made → (∀ call ∈ made, ¬ Left call) →
        (run (shell symbol) env n c).state.sp = c.state.sp) ∧
    ∀ n made, (run (shell symbol) env n c).label = .printPrompt →
      (∀ m, 0 < m → m < n → (run (shell symbol) env m c).label ≠ .printPrompt) →
      (run (shell symbol) env n c).calls = c.calls ++ made →
        ((run (shell symbol) env n c).state.sp = c.state.sp ↔ ∀ call ∈ made, ¬ Left call) := by
  have hruns : ∀ n made, (run (shell symbol) env n c).label = .printPrompt →
      (run (shell symbol) env n c).calls = c.calls ++ made →
        (run (shell symbol) env n c).state.sp + BitVec.ofNat 64 (96 * left made) = c.state.sp := by
    intro n made hlabel hcalls
    obtain ⟨made', hcalls', hstack⟩ := run_stack symbol hkeeps c n
    rw [hcalls] at hcalls'
    rw [← List.append_cancel_left hcalls', hlabel, hprompt] at hstack
    simpa [depth] using hstack
  have hnone : ∀ made : Calls, (∀ call ∈ made, ¬ Left call) ↔ left made = 0 := by
    intro made
    rw [left, List.countP_eq_zero]
    simp
  have hquiet : ∀ n made, (run (shell symbol) env n c).label = .printPrompt →
      (run (shell symbol) env n c).calls = c.calls ++ made → (∀ call ∈ made, ¬ Left call) →
        (run (shell symbol) env n c).state.sp = c.state.sp := by
    intro n made hlabel hcalls hmade
    have hstack := hruns n made hlabel hcalls
    rw [(hnone made).mp hmade] at hstack
    exact (BitVec.add_zero _).symm.trans hstack
  refine ⟨hquiet, ?_⟩
  intro n made hlabel hbefore hcalls
  refine ⟨?_, hquiet n made hlabel hcalls⟩
  intro hsp
  rw [hnone]
  obtain ⟨made', hcalls', hleft⟩ := line_left symbol hkeeps c n hbefore
  rw [hcalls] at hcalls'
  rw [← List.append_cancel_left hcalls'] at hleft
  rcases hleft with hleft | ⟨-, hleft, -⟩
  · exact hleft
  · have hstack := hruns n made hlabel hcalls
    rw [hleft, hsp] at hstack
    bv_omega

/-- A kernel that types the line and answers every message with an error. -/
def refusing (text : Str) : Environment := fun calls s => { s with
  x := Function.update s.x 0 (if s.x 8 = 2 then
    BitVec.ofNat 64 (text.getD (calls.countP fun call => call.1.x 8 = 2) 13).toNat
    else if s.x 8 = 4 then -1 else 0) }

theorem refusing_keeps (text : Str) : KeepsCaller (refusing text) := by
  refine ⟨?_, fun _ _ => rfl, fun _ _ _ => rfl⟩
  intro calls s r hr _
  apply Function.update_of_ne
  rintro rfl
  exact absurd hr (by decide)

/-- At the prompt, with the stack at 65536. -/
def atPrompt : Config Label where
  label := .printPrompt
  state := { x := fun r => if r = 2 then 4096 else 0, sp := 65536, zero := false, less := false,
             mem := fun _ => 0 }
  calls := []

/-- The line `pwd` gives the stack back, although its message is refused. -/
theorem stack_balanced_pwd :
    (run (shell fun _ => 8192) (refusing (ascii "pwd")) 28 atPrompt).state.sp = 65536 :=
  (stack_balanced_iff (fun _ => 8192) (refusing (ascii "pwd")) (refusing_keeps _) atPrompt rfl).1 28
    (run (shell fun _ => 8192) (refusing (ascii "pwd")) 28 atPrompt).calls (by decide +kernel) (List.nil_append _).symm
    (by decide +kernel)

/-- The line `cd` leaves its refused message on the stack. -/
theorem refused_cd_left : ¬ ∀ (symbol : Symbol → Word) (env : Environment), KeepsCaller env →
    ∀ c : Config Label, c.label = .printPrompt → ∀ n,
      (run (shell symbol) env n c).label = .printPrompt →
        (run (shell symbol) env n c).state.sp = c.state.sp := by
  intro h
  have hsame := h (fun _ => 8192) (refusing (ascii "cd")) (refusing_keeps _) atPrompt rfl 18
    (by decide +kernel)
  exact absurd hsame (by decide +kernel)

end Chthon.UserShell
