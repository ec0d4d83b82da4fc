import Chthon.UserShellCommands

/-! How the user shell decodes a whole line: the chain of checks from `process_command` on, and that
the message it sends is the request of the line. -/

namespace Chthon.UserShell

open Arm64 (Word Within load)
open BasicBlocks PathText

/-- A line is complete in the buffer. Messages are laid over neither the buffer nor the text of the
root, and these are apart. -/
structure Ready (symbol : Symbol → Word) (s : State) (text : Str) : Prop where
  line : LineReady s text 0
  root : StringAt s.mem (symbol .rootPath) (ascii "/")
  rootOff : OffStack s (symbol .rootPath) 2
  apart : ∀ j < 2, ∀ k < 64, symbol .rootPath + BitVec.ofNat 64 j ≠ s.x 2 + BitVec.ofNat 64 k

section Lines

variable {symbol : Symbol → Word} {env : Environment} {s s' : State} {text : Str} {calls : Calls}
  {here other : Label}

theorem Ready.congr (h : Ready symbol s text) (h2 : s'.x 2 = s.x 2) (h3 : s'.x 3 = s.x 3)
    (hsp : s'.sp = s.sp) (hmem : s'.mem = s.mem) : Ready symbol s' text := by
  refine ⟨⟨h.line.nul_free, ⟨?_, h.line.line.short, ?_⟩, ?_⟩, ?_, ?_, ?_⟩
  · rw [h3, h.line.line.length]
  · intro k hk hstart
    rw [h2, hmem, h.line.line.chars k hk hstart]
  · intro k hk
    rw [hsp, h2]
    exact h.line.off k hk
  · rw [hmem]
    exact h.root
  · intro k hk
    rw [hsp]
    exact h.rootOff k hk
  · intro j hj k hk
    rw [h2]
    exact h.apart j hj k hk

theorem Ready.keeps {rs : List (Fin 31)} (h : Ready symbol s text) (hkeeps : Keeps rs s s')
    (h2 : 2 ∉ rs) (h3 : 3 ∉ rs) : Ready symbol s' text :=
  h.congr (hkeeps.x 2 h2) (hkeeps.x 3 h3) hkeeps.sp hkeeps.mem

/-- Another call than a message leaves the line alone. -/
theorem Ready.answered (h : Ready symbol s text) (hkeeps : KeepsCaller env) (calls : Calls)
    (hnumber : s.x 8 ≠ 4) : Ready symbol (env calls s) text :=
  h.congr (hkeeps.x calls s 2 (by decide) (by decide)) (hkeeps.x calls s 3 (by decide) (by decide))
    (hkeeps.sp calls s) (hkeeps.mem calls s hnumber)

/-- The NUL behind the line. -/
theorem Ready.terminate (h : Ready symbol s text) : Ready symbol { s with
    mem := Function.update s.mem (s.x 2 + s.x 3) 0 } text := by
  have hshort := h.line.line.short
  rw [h.line.line.length]
  refine ⟨⟨h.line.nul_free, h.line.line.update (.inr le_rfl) (by omega), h.line.off⟩, ?_, h.rootOff,
    h.apart⟩
  apply h.root.congr
  intro k hk
  exact Function.update_of_ne (h.apart k (Nat.lt_succ_of_le hk) _ (by omega)) _ _

theorem Handles.of_block {c : Config Label}
    (h : Reaches (shell symbol) env .printPrompt c ⟨here, s, calls⟩) (hcalls : calls = c.calls)
    (hkeeps : KeepsCaller env) {rest : Block} {s' : State} (hprompt : here ≠ .printPrompt)
    (hrun : step (shell symbol) env ⟨here, s, calls⟩ =
      runBlock (shell symbol) env here rest s' calls)
    (hblock : callsOnly (· ≠ 4) none rest = true)
    (hexits : ∀ l ∈ exits next here rest, quiet l = true) : Handles symbol env c none := by
  refine ⟨_, h.trans (Reaches.single hprompt rfl), ?_, [], ?_, .nil⟩
  · rw [hrun]
    exact hexits _ runBlock_label
  · rw [hrun, runBlock_messages hkeeps hblock, List.append_nil, hcalls]

/-! One check of the chain. -/

/-- What the check of a word at `here` does with a line: the line with this command word is handled,
another one goes on to `other`. -/
def Checks (symbol : Symbol → Word) (env : Environment) (text word : Str) (here other : Label)
    (wanted : Option Request) : Prop :=
  ∀ s calls, Ready symbol s text →
    (commandWord text = word ∧ Handles symbol env ⟨here, s, calls⟩ wanted) ∨
    commandWord text ≠ word ∧ ∃ s', Ready symbol s' text ∧
      Reaches (shell symbol) env .printPrompt ⟨here, s, calls⟩ ⟨other, s', calls⟩

theorem Checks.chain {word : Str} {wanted rest : Option Request}
    (h : Checks symbol env text word here other wanted) (hready : Ready symbol s text)
    (hrest : ∀ s', commandWord text ≠ word → Ready symbol s' text →
      Handles symbol env ⟨other, s', calls⟩ rest) :
    Handles symbol env ⟨here, s, calls⟩ (if commandWord text = word then wanted else rest) := by
  rcases h s calls hready with ⟨hword, hhandles⟩ | ⟨hword, s', hready', hreach⟩
  · rw [if_pos hword]
    exact hhandles
  · rw [if_neg hword]
    exact (hrest s' hword hready').of_reaches hreach rfl

theorem arguments_self (hword : space ∉ text) : arguments text = [] := by
  rw [arguments, commandWord_self hword, List.drop_length, components_nil]

theorem arguments_append {word args : Str} (hword : space ∉ word) :
    arguments (word ++ space :: args) = components space args := by
  rw [arguments, commandWord_append hword, List.drop_left, components_sep_cons]

variable (env) in
/-- The check of a command with arguments, with the position of the arguments in `x4`. -/
theorem checkArguments_reaches {word : Str} {bare : Label} (hcode : code here =
      checkArguments word bare other) (hprompt : here ≠ .printPrompt) (hlen : word.length ≤ 62)
    (hspace : space ∉ word) (hready : Ready symbol s text) (calls : Calls) :
    ∃ s', Keeps [4] s s' ∧
      (text = word ∧ Reaches (shell symbol) env .printPrompt ⟨here, s, calls⟩ ⟨bare, s', calls⟩ ∨
        (∃ args, text = word ++ space :: args ∧ At s' 4 (word ++ [space])) ∧
          Reaches (shell symbol) env .printPrompt ⟨here, s, calls⟩ ⟨next here, s', calls⟩ ∨
        commandWord text ≠ word ∧
          Reaches (shell symbol) env .printPrompt ⟨here, s, calls⟩ ⟨other, s', calls⟩) := by
  obtain ⟨s₁, hkeeps, hrun⟩ := checkCommand_run symbol env calls here other word hlen hspace
    hready.line.line bare [.mov (.x 4) (word.length + 1)]
  have hstep : ∀ {c}, runBlock (shell symbol) env here (checkCommand word bare other ++
      [.mov (.x 4) (word.length + 1)]) s calls = c →
      Reaches (shell symbol) env .printPrompt ⟨here, s, calls⟩ c := by
    intro c hc
    apply Reaches.single hprompt
    rw [step_at, hcode, checkArguments, hc]
  rcases hrun with ⟨rfl, hrun⟩ | ⟨⟨args, rfl⟩, hrun⟩ | ⟨hne, hrun⟩
  · exact ⟨s₁, hkeeps, .inl ⟨rfl, hstep hrun⟩⟩
  · let s₂ : State := { s₁ with x := Function.update s₁.x 4 (BitVec.ofNat 64 (word.length + 1)) }
    have hkeeps₂ : Keeps [4] s₁ s₂ := by
      refine ⟨?_, rfl, rfl⟩
      intro r hr
      exact Function.update_of_ne (fun heq => hr (List.mem_singleton.mpr heq)) _ _
    refine ⟨s₂, hkeeps.trans hkeeps₂, .inr (.inl ⟨⟨args, rfl, ?_⟩, ?_⟩)⟩
    · simp [At, s₂]
    · exact hstep hrun
  · exact ⟨s₁, hkeeps, .inr (.inr ⟨hne, hstep hrun⟩)⟩

/-- A command with one path, when its check goes through to the arguments. -/
theorem PathCommand.checks (hkeeps : KeepsCaller env) (c : PathCommand) (hcoded : c.Coded)
    {word : Str} (hcode : code here = checkArguments word c.noArgs other)
    (hnext : next here = c.find) (hprompt : here ≠ .printPrompt) (hlen : word.length ≤ 62)
    (hspace : space ∉ word) {wanted : List Str → Option Request}
    (hnone : ∀ s calls, Ready symbol s text → Handles symbol env ⟨c.noArgs, s, calls⟩ (wanted []))
    (hsome : ∀ path args, wanted (path :: args) = some (.onPath c.type path)) :
    Checks symbol env text word here other (wanted (arguments text)) := by
  intro s calls hready
  obtain ⟨s₁, hkeeps₁, hrun⟩ := checkArguments_reaches env hcode hprompt hlen hspace hready calls
  have hready₁ := hready.keeps hkeeps₁ (by decide) (by decide)
  rcases hrun with ⟨rfl, hreach⟩ | ⟨⟨args, rfl, hat⟩, hreach⟩ | ⟨hne, hreach⟩
  · refine .inl ⟨commandWord_self hspace, ?_⟩
    rw [arguments_self hspace]
    exact (hnone s₁ calls hready₁).of_reaches hreach rfl
  · refine .inl ⟨commandWord_append hspace, ?_⟩
    rw [arguments_append hspace]
    rw [hnext] at hreach
    rcases c.handles symbol calls hkeeps hcoded (show word ++ space :: args = word ++ [space] ++ args by simp)
      (hready₁.line.mono (Nat.zero_le _)) hat with
      ⟨hempty, s₂, hkeeps₂, hreach₂⟩ | ⟨path, more, hcomp, hhandles⟩
    · rw [hempty]
      exact (hnone s₂ calls (hready₁.keeps hkeeps₂ (by decide) (by decide))).of_reaches
        (hreach.trans hreach₂) rfl
    · rw [hcomp, hsome]
      exact hhandles.of_reaches hreach rfl
  · exact .inr ⟨hne, s₁, hready₁, hreach⟩

/-- A command with a source and a target. -/
theorem PathsCommand.checks (hkeeps : KeepsCaller env) (c : PathsCommand) (hcoded : c.Coded)
    {word : Str} (hcode : code here = checkArguments word c.noArgs other)
    (hnext : next here = c.find) (hprompt : here ≠ .printPrompt) (hlen : word.length ≤ 62)
    (hspace : space ∉ word) {wanted : List Str → Option Request}
    (hnone : ∀ args, args.length < 2 → wanted args = none)
    (hsome : ∀ source target args, wanted (source :: target :: args) = some (c.wanted source target)) :
    Checks symbol env text word here other (wanted (arguments text)) := by
  intro s calls hready
  obtain ⟨s₁, hkeeps₁, hrun⟩ := checkArguments_reaches env hcode hprompt hlen hspace hready calls
  have hready₁ := hready.keeps hkeeps₁ (by decide) (by decide)
  rcases hrun with ⟨rfl, hreach⟩ | ⟨⟨args, rfl, hat⟩, hreach⟩ | ⟨hne, hreach⟩
  · refine .inl ⟨commandWord_self hspace, ?_⟩
    rw [arguments_self hspace, hnone [] (by decide)]
    exact .of_quiet hreach hcoded.quiet.1 rfl
  · refine .inl ⟨commandWord_append hspace, ?_⟩
    rw [arguments_append hspace]
    rw [hnext] at hreach
    rcases c.handles symbol calls hkeeps hcoded (show word ++ space :: args = word ++ [space] ++ args by simp)
      (hready₁.line.mono (Nat.zero_le _)) hat with
      ⟨hfew, hhandles⟩ | ⟨source, target, more, hcomp, hhandles⟩
    · rw [hnone _ hfew]
      exact hhandles.of_reaches hreach rfl
    · rw [hcomp, hsome]
      exact hhandles.of_reaches hreach rfl
  · exact .inr ⟨hne, s₁, hready₁, hreach⟩

/-- The check of a line that is just a word, for another line. -/
theorem checkWhole_reaches (here : Label) (word : Str) {rest : Block}
    (hcode : code here = checkWhole word other ++ rest) (hprompt : here ≠ .printPrompt) (hlen : word.length ≤ 63) (hready : Ready symbol s text)
    (hne : text ≠ word) (env : Environment) (calls : Calls) : ∃ s', Keeps [4] s s' ∧
      Reaches (shell symbol) env .printPrompt ⟨here, s, calls⟩ ⟨other, s', calls⟩ := by
  obtain ⟨s₁, hkeeps₁, ⟨hword, -⟩ | ⟨-, hrun⟩⟩ :=
    checkWhole_run symbol env calls here other word hlen hready.line.line rest
  · exact absurd hword hne
  · refine ⟨s₁, hkeeps₁, Reaches.single hprompt ?_⟩
    rw [step_at, hcode, hrun]

/-- The check of a line that is just a word: this line sends nothing. -/
theorem checkWhole_handles (hkeeps : KeepsCaller env) (word : Str) {rest : Block}
    {wanted : Option Request} (hcode : code here = checkWhole word other ++ rest)
    (hprompt : here ≠ .printPrompt) (hlen : word.length ≤ 63)
    (hblock : callsOnly (· ≠ 4) none rest = true)
    (hexits : ∀ l ∈ exits next here rest, quiet l = true) (hnone : text = word → wanted = none)
    (hready : Ready symbol s text)
    (hother : ∀ s', Ready symbol s' text → Handles symbol env ⟨other, s', calls⟩ wanted) :
    Handles symbol env ⟨here, s, calls⟩ wanted := by
  by_cases hword : text = word
  · obtain ⟨s₁, -, ⟨-, hrun⟩ | ⟨hne, -⟩⟩ :=
      checkWhole_run symbol env calls here other word hlen hready.line.line rest
    · rw [hnone hword]
      apply Handles.of_block (Reaches.refl _) rfl hkeeps hprompt _ hblock hexits
      · exact s₁
      · rw [step_at, hcode, hrun]
    · exact absurd hword hne
  · obtain ⟨s₁, hkeeps₁, hreach⟩ :=
      checkWhole_reaches here word hcode hprompt hlen hready hword env calls
    exact (hother s₁ (hready.keeps hkeeps₁ (by decide) (by decide))).of_reaches hreach rfl

/-- `cd` without an argument goes to the root. -/
theorem cdNoArgs_handles (hkeeps : KeepsCaller env) (hready : Ready symbol s text)
    (calls : Calls) :
    Handles symbol env ⟨.cdNoArgs, s, calls⟩ (some (.onPath msgChdir (ascii "/"))) := by
  obtain ⟨r, hasks⟩ := cdNoArgs_run symbol s calls hkeeps
  have hstep : Reaches (shell symbol) env .printPrompt ⟨.cdNoArgs, s, calls⟩ _ :=
    Reaches.single (show Label.cdNoArgs ≠ .printPrompt by decide) rfl
  refine ⟨_, hstep, ?_, [r], ?_, .cons (hasks.onPath hready.root hready.rootOff) .nil⟩
  · rw [step_at, hasks.label]
    split_ifs <;> rfl
  · rw [step_at, hasks.made, messages_append, messages_one hasks.number]

/-- The loop that clears the message of `pwd` ends with sending it. -/
theorem clearPwdMsg_handles (n : Nat) (hn : n < 2 ^ 63) :
    ∀ {s : State}, s.x 6 = BitVec.ofNat 64 n →
      Handles symbol env ⟨.clearPwdMsg, s, calls⟩ (some (.bare msgGetcwd)) := by
  have hslt : ∀ k, k < 2 ^ 63 → (BitVec.ofNat 64 k).slt 1 = decide (k < 1) :=
    fun k hk => slt_ofNat hk (b := 1) (by decide)
  have hahead : Label.clearPwdMsg ≠ .printPrompt := by decide
  induction n with
  | zero =>
      intro s hx
      rcases clearPwdMsg_run symbol env s calls with ⟨hless, -⟩ | ⟨-, s', r, hnumber, htype, hrun⟩
      · rw [hx, hslt 0 hn] at hless
        exact absurd hless (by decide)
      · have hstep : Reaches (shell symbol) env .printPrompt ⟨.clearPwdMsg, s, calls⟩ _ :=
          Reaches.single hahead (by rw [step_at, hrun])
        refine ⟨_, hstep, ?_, [r], ?_, .cons htype .nil⟩
        · change quiet (if Refused (env calls r) then .pwdError else .printMessageAndRestorePwd) = true
          split_ifs <;> rfl
        · exact (messages_append _ _).trans (by rw [messages_one hnumber])
  | succ n ih =>
      intro s hx
      rcases clearPwdMsg_run symbol env s calls with ⟨-, s', hrun, hx'⟩ | ⟨hless, -⟩
      · have hdown : s'.x 6 = BitVec.ofNat 64 n := by
          rw [hx', hx, BitVec.ofNat_add]
          exact add_sub_cancel_right _ _
        have hstep : Reaches (shell symbol) env .printPrompt ⟨.clearPwdMsg, s, calls⟩
            ⟨.clearPwdMsg, s', calls⟩ := Reaches.single hahead (by rw [step_at, hrun])
        exact (ih (by omega) hdown).of_reaches hstep rfl
      · rw [hx, hslt (n + 1) hn, decide_eq_true_eq] at hless
        omega

theorem pwdCommand_handles (s : State) (calls : Calls) :
    Handles symbol env ⟨.pwdCommand, s, calls⟩ (some (.bare msgGetcwd)) := by
  let s' : State := { s with
    x := Function.update (Function.update (Function.update s.x 4 (s.sp - 512 - 64)) 5 0) 6 8
    sp := s.sp - 512 - 64 }
  have hstep : step (shell symbol) env ⟨.pwdCommand, s, calls⟩ = ⟨.clearPwdMsg, s', calls⟩ := rfl
  have hclear : Handles symbol env ⟨.clearPwdMsg, s', calls⟩ (some (.bare msgGetcwd)) :=
    clearPwdMsg_handles 8 (by decide) (by simp [s'])
  exact hclear.of_reaches (Reaches.single (show Label.pwdCommand ≠ .printPrompt by decide) hstep) rfl

variable (env) in
/-- The check of `pwd`: a longer word that starts with it is unknown. -/
theorem checkPwd_reaches (hready : Ready symbol s text) (calls : Calls) :
    ∃ s', Ready symbol s' text ∧
      (commandWord text = ascii "pwd" ∧ Reaches (shell symbol) env .printPrompt
          ⟨.checkPwd, s, calls⟩ ⟨.pwdCommand, s', calls⟩ ∨
        (∃ c more, commandWord text = ascii "pwd" ++ c :: more) ∧ Reaches (shell symbol) env
          .printPrompt ⟨.checkPwd, s, calls⟩ ⟨.unknownCommand, s', calls⟩ ∨
        commandWord text ≠ ascii "pwd" ∧ Reaches (shell symbol) env .printPrompt
          ⟨.checkPwd, s, calls⟩ ⟨.checkCd, s', calls⟩) := by
  have hspace : space ∉ ascii "pwd" := by decide
  have hahead : Label.checkPwd ≠ .printPrompt := by decide
  obtain ⟨s₁, hkeeps, hrun⟩ := checkPrefix_run symbol env calls .checkPwd .checkCd (ascii "pwd")
    (by decide) hready.line.line [.cmp (.x 3) 3, .branchIf .eq .pwdCommand, .ldrb (.x 4) (.x 2) 3,
      .cmpw (.x 4) 32, .branchIf .eq .pwdCommand, .branch .unknownCommand]
  have hready₁ := hready.keeps hkeeps (by decide) (by decide)
  have hline := hready₁.line.line
  rcases hrun with ⟨⟨args, rfl⟩, hrun⟩ | ⟨hno, hrun⟩
  · cases args with
    | nil =>
        refine ⟨exec (shell symbol) (.cmp (.x 3) 3) s₁, ?_, .inl ⟨commandWord_self hspace,
          Reaches.single hahead (hrun.trans ?_)⟩⟩
        · rw [hline.compare (by omega)]
          exact hready₁.keeps (Keeps.flags _ _ _) List.not_mem_nil List.not_mem_nil
        · simp [runBlock, hline.compare (show 3 ≤ 63 by omega), State.holds, ascii]
    | cons c args =>
        have hbyte : s₁.mem (s₁.x 2 + BitVec.ofNat 64 3) = c.toBitVec :=
          hline.chars 3 (by simp [ascii]) (Nat.zero_le _)
        let s₂ : State := { s₁ with
          x := Function.update s₁.x 4 (c.toBitVec.setWidth 64)
          zero := decide (c = space)
          less := (c.toBitVec.setWidth 32).slt (BitVec.ofNat 32 space.toNat) }
        have hkeeps₂ : Keeps [4] s₁ s₂ := by
          refine ⟨?_, rfl, rfl⟩
          intro r hr
          exact Function.update_of_ne (fun heq => hr (List.mem_singleton.mpr heq)) _ _
        have hstep : step (shell symbol) env ⟨.checkPwd, s, calls⟩ =
            if c = space then ⟨.pwdCommand, s₂, calls⟩ else ⟨.unknownCommand, s₂, calls⟩ := by
          apply hrun.trans
          have hspace32 : BitVec.ofNat 32 space.toNat = 32#32 := rfl
          have hzero := byte_eq_iff c space
          rw [hspace32] at hzero
          have hlonger : s₁.x 3 ≠ BitVec.ofNat 64 3 := by
            have hshort := hline.short
            rw [hline.length, ne_eq, ofNat_eq_iff (by omega) (by omega)]
            simp [ascii]
          simp [runBlock, State.holds, exec, State.get, State.set, State.compare, hlonger, hbyte,
            hzero, s₂, hspace32]
        refine ⟨s₂, hready₁.keeps hkeeps₂ (by decide) (by decide), ?_⟩
        by_cases hc : c = space
        · subst hc
          exact .inl ⟨commandWord_append hspace, Reaches.single hahead (hstep.trans (if_pos rfl))⟩
        · exact .inr (.inl ⟨⟨c, _, commandWord_longer hspace hc⟩,
            Reaches.single hahead (hstep.trans (if_neg hc))⟩)
  · refine ⟨s₁, hready₁, .inr (.inr ⟨?_, Reaches.single hahead hrun⟩)⟩
    intro hword
    apply hno
    rw [← hword]
    exact List.takeWhile_prefix _

/-! The commands. -/

def touch : PathCommand := ⟨.findFilename, .foundFilename, .findFilenameEnd, .filenameFound,
  .touchNoArgs, .touchError, msgCreate⟩

def mkdir : PathCommand := ⟨.findDirname, .foundDirname, .findDirnameEnd, .dirnameFound,
  .mkdirNoArgs, .mkdirError, msgMkdir⟩

def cd : PathCommand := ⟨.findCdPath, .foundCdPath, .findCdPathEnd, .cdPathFound, .cdNoArgs,
  .cdError, msgChdir⟩

def rm : PathCommand := ⟨.findRmFile, .foundRmFile, .findRmFileEnd, .rmFileFound, .rmNoArgs,
  .rmError, msgRemove⟩

def unbind : PathCommand := ⟨.findUnbindPath, .foundUnbindPath, .findUnbindPathEnd,
  .unbindPathFound, .unbindNoArgs, .unbindError, msgUnbind⟩

def cp : PathsCommand := ⟨.findCpSrc, .foundCpSrc, .findCpSrcEnd, .foundCpSrcEnd, .findCpDst,
  .foundCpDst, .findCpDstEnd, .cpDstFound, .cpNoArgs, .cpError, msgCopy, false⟩

def mv : PathsCommand := ⟨.findMvSrc, .foundMvSrc, .findMvSrcEnd, .foundMvSrcEnd, .findMvDst,
  .foundMvDst, .findMvDstEnd, .mvDstFound, .mvNoArgs, .mvError, msgMove, false⟩

def bind : PathsCommand := ⟨.findBindSource, .foundBindSource, .findBindSourceEnd,
  .foundBindSourceEnd, .findBindTarget, .foundBindTarget, .findBindTargetEnd, .bindPathsFound,
  .bindNoArgs, .bindError, msgBind, true⟩

theorem pathCommand_coded (c : PathCommand) (h : c ∈ [touch, mkdir, cd, rm, unbind]) : c.Coded := by
  simp only [List.mem_cons, List.not_mem_nil, or_false] at h
  rcases h with rfl | rfl | rfl | rfl | rfl <;>
    exact ⟨⟨rfl, rfl, rfl, rfl, by decide, by decide, by decide, by decide, by decide⟩, rfl, rfl,
      by decide⟩

theorem pathsCommand_coded (c : PathsCommand) (h : c ∈ [cp, mv, bind]) : c.Coded := by
  simp only [List.mem_cons, List.not_mem_nil, or_false] at h
  rcases h with rfl | rfl | rfl <;>
    exact ⟨⟨rfl, rfl, rfl, rfl, by decide, by decide, by decide, by decide, by decide⟩, rfl, rfl,
      ⟨rfl, rfl, rfl, rfl, by decide, by decide, by decide, by decide, by decide⟩, rfl,
      ⟨rfl, rfl⟩, by decide⟩

/-- A command with one path that sends nothing without it. -/
theorem PathCommand.checks_quiet (hkeeps : KeepsCaller env) (c : PathCommand) (hcoded : c.Coded)
    {word : Str} (hcode : code here = checkArguments word c.noArgs other)
    (hnext : next here = c.find) (hprompt : here ≠ .printPrompt) (hlen : word.length ≤ 62)
    (hspace : space ∉ word) (hquiet : quiet c.noArgs = true) :
    Checks symbol env text word here other (requestPath c.type (arguments text)) :=
  c.checks hkeeps hcoded hcode hnext hprompt hlen hspace
    (fun _ _ _ => .of_quiet (Reaches.refl _) hquiet rfl) fun _ _ => rfl

theorem touch_checks (hkeeps : KeepsCaller env) : Checks symbol env text (ascii "touch")
    .checkTouch .checkMkdir (requestPath msgCreate (arguments text)) :=
  touch.checks_quiet hkeeps (pathCommand_coded _ (by simp)) rfl rfl (by decide) (by decide)
    (by decide) rfl

theorem mkdir_checks (hkeeps : KeepsCaller env) : Checks symbol env text (ascii "mkdir")
    .checkMkdir .checkPwd (requestPath msgMkdir (arguments text)) :=
  mkdir.checks_quiet hkeeps (pathCommand_coded _ (by simp)) rfl rfl (by decide) (by decide)
    (by decide) rfl

theorem cd_checks (hkeeps : KeepsCaller env) : Checks symbol env text (ascii "cd")
    .checkCd .checkCp (requestCd (arguments text)) :=
  cd.checks hkeeps (pathCommand_coded _ (by simp)) rfl rfl (by decide) (by decide) (by decide)
    (fun _ calls hready => cdNoArgs_handles hkeeps hready calls) fun _ _ => rfl

theorem cp_checks (hkeeps : KeepsCaller env) : Checks symbol env text (ascii "cp")
    .checkCp .checkRm (requestPaths msgCopy (arguments text)) :=
  cp.checks hkeeps (pathsCommand_coded _ (by simp)) rfl rfl (by decide) (by decide) (by decide)
    (requestPaths_few msgCopy) fun _ _ _ => rfl

theorem rm_checks (hkeeps : KeepsCaller env) : Checks symbol env text (ascii "rm")
    .checkRm .checkMv (requestPath msgRemove (arguments text)) :=
  rm.checks_quiet hkeeps (pathCommand_coded _ (by simp)) rfl rfl (by decide) (by decide)
    (by decide) rfl

theorem mv_checks (hkeeps : KeepsCaller env) : Checks symbol env text (ascii "mv")
    .checkMv .checkBind (requestPaths msgMove (arguments text)) :=
  mv.checks hkeeps (pathsCommand_coded _ (by simp)) rfl rfl (by decide) (by decide) (by decide)
    (requestPaths_few msgMove) fun _ _ _ => rfl

theorem bind_checks (hkeeps : KeepsCaller env) : Checks symbol env text (ascii "bind")
    .checkBind .checkUnbind (requestBind (arguments text)) := by
  apply bind.checks hkeeps (pathsCommand_coded _ (by simp)) rfl rfl (by decide) (by decide)
    (by decide) _ fun _ _ _ => rfl
  intro args h
  match args with
  | [] | [_] => rfl
  | _ :: _ :: _ => exact absurd h (by simp)

theorem unbind_checks (hkeeps : KeepsCaller env) : Checks symbol env text (ascii "unbind")
    .checkUnbind .unknownCommand (requestPath msgUnbind (arguments text)) :=
  unbind.checks_quiet hkeeps (pathCommand_coded _ (by simp)) rfl rfl (by decide) (by decide)
    (by decide) rfl

/-- The commands behind `pwd`. -/
theorem checkCd_handles (hkeeps : KeepsCaller env) (hready : Ready symbol s text) (calls : Calls)
    (htouch : commandWord text ≠ ascii "touch") (hmkdir : commandWord text ≠ ascii "mkdir")
    (hpwd : commandWord text ≠ ascii "pwd") :
    Handles symbol env ⟨.checkCd, s, calls⟩ (request text) := by
  simp only [request]
  rw [if_neg htouch, if_neg hmkdir, if_neg hpwd]
  apply (cd_checks hkeeps).chain hready
  intro s _ hready
  apply (cp_checks hkeeps).chain hready
  intro s _ hready
  apply (rm_checks hkeeps).chain hready
  intro s _ hready
  apply (mv_checks hkeeps).chain hready
  intro s _ hready
  apply (bind_checks hkeeps).chain hready
  intro s _ hready
  apply (unbind_checks hkeeps).chain hready
  intro s _ _
  exact .of_quiet (Reaches.refl _) rfl rfl

/-- `pwd` and the commands behind it. -/
theorem checkPwd_handles (hkeeps : KeepsCaller env) (hready : Ready symbol s text) (calls : Calls)
    (htouch : commandWord text ≠ ascii "touch") (hmkdir : commandWord text ≠ ascii "mkdir") :
    Handles symbol env ⟨.checkPwd, s, calls⟩ (request text) := by
  obtain ⟨s', hready', ⟨hword, hreach⟩ | ⟨⟨c, more, hword⟩, hreach⟩ | ⟨hword, hreach⟩⟩ :=
    checkPwd_reaches env hready calls
  · have hrequest : request text = some (.bare msgGetcwd) := by
      simp only [request]
      rw [if_neg htouch, if_neg hmkdir, if_pos hword]
    rw [hrequest]
    exact (pwdCommand_handles s' calls).of_reaches hreach rfl
  · -- no other command starts like `pwd`
    have hne : ∀ word, ¬ ascii "pwd" <+: word → commandWord text ≠ word := by
      rintro word hno rfl
      exact hno ⟨c :: more, hword.symm⟩
    have hlonger : commandWord text ≠ ascii "pwd" := by
      rw [hword]
      simp
    have hrequest : request text = none := by
      simp only [request]
      rw [if_neg htouch, if_neg hmkdir, if_neg hlonger, if_neg (hne _ (by decide)),
        if_neg (hne _ (by decide)), if_neg (hne _ (by decide)), if_neg (hne _ (by decide)),
        if_neg (hne _ (by decide)), if_neg (hne _ (by decide))]
    rw [hrequest]
    exact .of_quiet hreach rfl rfl
  · exact (checkCd_handles hkeeps hready' calls htouch hmkdir hword).of_reaches hreach rfl

/-- The commands behind `ls`. -/
theorem checkTouch_handles (hkeeps : KeepsCaller env) (hready : Ready symbol s text)
    (calls : Calls) : Handles symbol env ⟨.checkTouch, s, calls⟩ (request text) := by
  obtain ⟨htouch, hhandles⟩ | ⟨htouch, s₁, hready₁, hreach₁⟩ :=
    touch_checks hkeeps s calls hready
  · simp only [request]
    rw [if_pos htouch]
    exact hhandles
  apply Handles.of_reaches hreach₁ rfl
  obtain ⟨hmkdir, hhandles⟩ | ⟨hmkdir, s₂, hready₂, hreach₂⟩ :=
    mkdir_checks hkeeps s₁ calls hready₁
  · simp only [request]
    rw [if_neg htouch, if_pos hmkdir]
    exact hhandles
  exact (checkPwd_handles hkeeps hready₂ calls htouch hmkdir).of_reaches hreach₂ rfl

/-- The checks from `check_ls` on, for a line other than `ls`. -/
theorem checkLs_handles (hkeeps : KeepsCaller env) (hready : Ready symbol s text)
    (hls : commandWord text ≠ ascii "ls") (calls : Calls) :
    Handles symbol env ⟨.checkLs, s, calls⟩ (request text) := by
  have hspace : space ∉ ascii "ls" := by decide
  obtain ⟨s₁, hkeeps₁, ⟨rfl, -⟩ | ⟨⟨args, rfl, -⟩, -⟩ | ⟨-, hreach⟩⟩ :=
    checkArguments_reaches env (show code .checkLs = checkArguments (ascii "ls") .lsNoArgs .checkTouch from rfl)
      (by decide) (by decide) hspace hready calls
  · exact absurd (commandWord_self hspace) hls
  · exact absurd (commandWord_append hspace) hls
  · have hready₁ := hready.keeps hkeeps₁ (by decide) (by decide)
    exact (checkTouch_handles hkeeps hready₁ calls).of_reaches hreach rfl

/-- The checks of `sysname`, `help` and `clear`. -/
theorem checkOtherCommands_handles (hkeeps : KeepsCaller env) (hready : Ready symbol s text)
    (hls : commandWord text ≠ ascii "ls") (calls : Calls) :
    Handles symbol env ⟨.checkOtherCommands, s, calls⟩ (request text) := by
  have hnone : ∀ word, request word = none → text = word → request text = none := by
    rintro word h rfl
    exact h
  apply checkWhole_handles hkeeps (ascii "sysname") rfl (by decide) (by decide) (by decide)
    (by decide) (hnone _ (by decide)) hready
  intro s hready
  apply checkWhole_handles hkeeps (ascii "help") rfl (by decide) (by decide) (by decide)
    (by decide) (hnone _ (by decide)) hready
  intro s hready
  apply checkWhole_handles hkeeps (ascii "clear") rfl (by decide) (by decide) (by decide)
    (by decide) (hnone _ (by decide)) hready
  intro s hready
  exact checkLs_handles hkeeps hready hls calls

/-- Behind the newline an empty line and `echo` send nothing, and other lines go on to the checks. -/
theorem processCommand_reaches (hkeeps : KeepsCaller env) (hready : Ready symbol s text)
    (calls : Calls) : ∃ label s' call, call.1.x 8 ≠ 4 ∧ Ready symbol s' text ∧ s'.x 2 = s.x 2 ∧
      s'.sp = s.sp ∧ Reaches (shell symbol) env .printPrompt ⟨.processCommand, s, calls⟩
        ⟨label, s', calls ++ [call]⟩ ∧
      (label = .checkOtherCommands ∨
        quiet label = true ∧ (text = [] ∨ commandWord text = ascii "echo")) := by
  let s₁ : State := { s with
    x := Function.update (Function.update s.x 8 1) 0 10
    mem := Function.update s.mem (s.x 2 + s.x 3) 0 }
  let s₂ := env calls s₁
  let s₃ := exec (shell symbol) (.cmp (.x 3) 0) s₂
  let calls' := calls ++ [(s₁, s₂)]
  have hahead : Label.processCommand ≠ .printPrompt := by decide
  have hrun : step (shell symbol) env ⟨.processCommand, s, calls⟩ =
      if s₃.holds .eq then ⟨.resetAndPrompt, s₃, calls'⟩
      else runBlock (shell symbol) env .processCommand (checkCommand (ascii "echo") .echoEmpty
        .checkOtherCommands ++ [.mov (.x 4) 5, .branch .echoLoop]) s₃ calls' := rfl
  have hnumber : s₁.x 8 ≠ 4 := by
    change (1 : Word) ≠ 4
    decide
  have hready₁ : Ready symbol s₁ text := hready.terminate.congr rfl rfl rfl rfl
  have hready₂ : Ready symbol s₂ text := hready₁.answered hkeeps calls hnumber
  have hcompare : s₃ = { s₂ with zero := decide (text.length = 0), less := decide (text.length < 0) } :=
    hready₂.line.line.compare (Nat.zero_le _)
  have hready₃ : Ready symbol s₃ text := by
    rw [hcompare]
    exact hready₂.congr rfl rfl rfl rfl
  have hx₃ : s₃.x 2 = s.x 2 := hkeeps.x calls s₁ 2 (by decide) (by decide)
  have hsp₃ : s₃.sp = s.sp := hkeeps.sp calls s₁
  by_cases hempty : text = []
  · have hzero : s₃.holds .eq = true := by
      rw [hcompare, hempty]
      rfl
    rw [if_pos hzero] at hrun
    exact ⟨.resetAndPrompt, s₃, (s₁, s₂), hnumber, hready₃, hx₃, hsp₃, Reaches.single hahead hrun,
      .inr ⟨rfl, .inl hempty⟩⟩
  · have hzero : ¬ s₃.holds .eq = true := by
      rw [hcompare]
      simpa [State.holds] using hempty
    rw [if_neg hzero] at hrun
    have hspace : space ∉ ascii "echo" := by decide
    obtain ⟨s₄, hkeeps₄, hecho⟩ := checkCommand_run symbol env calls' .processCommand
      .checkOtherCommands (ascii "echo") (by decide) hspace hready₃.line.line .echoEmpty
      [.mov (.x 4) 5, .branch .echoLoop]
    have hready₄ := hready₃.keeps hkeeps₄ (by decide) (by decide)
    have hx₄ : s₄.x 2 = s.x 2 := (hkeeps₄.x 2 (by decide)).trans hx₃
    have hsp₄ : s₄.sp = s.sp := hkeeps₄.sp.trans hsp₃
    rcases hecho with ⟨hword, hrun₄⟩ | ⟨⟨args, hargs⟩, hrun₄⟩ | ⟨-, hrun₄⟩
    · exact ⟨.echoEmpty, s₄, (s₁, s₂), hnumber, hready₄, hx₄, hsp₄,
        Reaches.single hahead (hrun.trans hrun₄),
        .inr ⟨rfl, .inr (by rw [hword, commandWord_self hspace])⟩⟩
    · let s₅ : State := { s₄ with x := Function.update s₄.x 4 5 }
      have hready₅ : Ready symbol s₅ text := hready₄.congr rfl rfl rfl rfl
      exact ⟨.echoLoop, s₅, (s₁, s₂), hnumber, hready₅, hx₄, hsp₄,
        Reaches.single hahead (hrun.trans hrun₄),
        .inr ⟨rfl, .inr (by rw [hargs, commandWord_append hspace])⟩⟩
    · exact ⟨.checkOtherCommands, s₄, (s₁, s₂), hnumber, hready₄, hx₄, hsp₄,
        Reaches.single hahead (hrun.trans hrun₄), .inl rfl⟩

/-- A line typed into the user shell is decoded to its request. -/
theorem processCommand_handles (hkeeps : KeepsCaller env) (hready : Ready symbol s text)
    (hls : commandWord text ≠ ascii "ls") (calls : Calls) :
    Handles symbol env ⟨.processCommand, s, calls⟩ (request text) := by
  obtain ⟨label, s', call, hnumber, hready', -, -, hreach, hlabel⟩ :=
    processCommand_reaches hkeeps hready calls
  have hnone : messages [call] = [] := messages_none fun c hc => List.mem_singleton.mp hc ▸ hnumber
  have hmessages : messages (calls ++ [call]) = messages calls := by
    rw [messages_append, hnone, List.append_nil]
  apply Handles.of_reaches hreach hmessages
  rcases hlabel with rfl | ⟨hquiet, htext⟩
  · exact checkOtherCommands_handles hkeeps hready' hls _
  · have hrequest : request text = none := by
      rcases htext with rfl | hword
      · rfl
      · simp only [request, hword]
        rfl
    rw [hrequest]
    exact .of_quiet (Reaches.refl _) hquiet rfl

end Lines

/-- From a line in the buffer on, the user shell sends just the message the line asks for before
it is at the prompt again. -/
theorem shell_decodes_lines (symbol : Symbol → Word) (env : Environment) (hkeeps : KeepsCaller env)
    (s : State) (text : Str) (hready : Ready symbol s text) (hls : commandWord text ≠ ascii "ls")
    (calls : Calls) :
    ∃ n sent, List.Forall₂ Carries sent (request text).toList ∧ ∀ m, n ≤ m →
      messages (runTo (shell symbol) env .printPrompt m ⟨.processCommand, s, calls⟩).calls =
        messages calls ++ sent :=
  (processCommand_handles hkeeps hready hls calls).settles hkeeps

/-- The line `cp a b` is in the buffer at 4096, and the text of the root is at 8192. -/
def copyLine : State where
  x r := if r = 2 then 4096 else if r = 3 then 6 else 0
  sp := 65536
  zero := false
  less := false
  mem a := if a = 8192 then 47 else (((ascii "cp a b").getD (a - 4096).toNat 0).toBitVec)

/-- A kernel that answers with 0. -/
def agreeing : Environment := fun _ s => { s with x := Function.update s.x 0 0 }

theorem agreeing_keeps : KeepsCaller agreeing := by
  refine ⟨?_, fun _ _ => rfl, fun _ _ _ => rfl⟩
  intro calls s r hr _
  apply Function.update_of_ne
  rintro rfl
  exact absurd hr (by decide)

theorem shell_decodes_copy :
    ∃ n sent, List.Forall₂ Carries sent [.onPaths msgCopy (ascii "a") (ascii "b")] ∧ ∀ m, n ≤ m →
      messages (runTo (shell fun _ => 8192) agreeing .printPrompt m
        ⟨.processCommand, copyLine, []⟩).calls = messages [] ++ sent := by
  have hready : Ready (fun _ => 8192) copyLine (ascii "cp a b") := by
    refine ⟨⟨by decide, ⟨by decide, by decide, ?_⟩, ?_⟩, ⟨by decide, ?_, by decide⟩, ?_, ?_⟩
    · decide +kernel
    · unfold OffStack Within
      decide +kernel
    · decide +kernel
    · unfold OffStack Within
      decide +kernel
    · decide +kernel
  exact shell_decodes_lines (fun _ => 8192) agreeing agreeing_keeps copyLine (ascii "cp a b") hready
    (by decide) []

end Chthon.UserShell
