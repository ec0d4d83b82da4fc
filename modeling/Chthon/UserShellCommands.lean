import Chthon.UserShellMessages

/-! The commands of the user shell. Each line is decoded to the request its words stand for, or to
none; the line `ls`, which asks for listings, is left out. -/

namespace Chthon.UserShell

open Arm64 (Word Within)
open BasicBlocks PathText

/-! What a line asks for. -/

def arguments (text : Str) : List Str := components space (text.drop (commandWord text).length)

/-- A command with one path. -/
def requestPath (type : Nat) : List Str → Option Request
  | path :: _ => some (.onPath type path)
  | _ => none

/-- A command with a source and a target. -/
def requestPaths (type : Nat) : List Str → Option Request
  | source :: target :: _ => some (.onPaths type source target)
  | _ => none

theorem requestPaths_few (type : Nat) (args : List Str) (h : args.length < 2) :
    requestPaths type args = none := by
  match args with
  | [] | [_] => rfl
  | _ :: _ :: _ => exact absurd h (by simp)

/-- `cd`, which goes to the root without a path. -/
def requestCd : List Str → Option Request
  | [] => some (.onPath msgChdir (ascii "/"))
  | path :: _ => some (.onPath msgChdir path)

/-- `bind`, with the target as the path. -/
def requestBind : List Str → Option Request
  | source :: target :: _ => some (.onPaths msgBind target source)
  | _ => none

/-- The request of a line other than `ls`. -/
def request (text : Str) : Option Request :=
  let word := commandWord text
  let args := arguments text
  if word = ascii "touch" then requestPath msgCreate args
  else if word = ascii "mkdir" then requestPath msgMkdir args
  else if word = ascii "pwd" then some (.bare msgGetcwd)
  else if word = ascii "cd" then requestCd args
  else if word = ascii "cp" then requestPaths msgCopy args
  else if word = ascii "rm" then requestPath msgRemove args
  else if word = ascii "mv" then requestPaths msgMove args
  else if word = ascii "bind" then requestBind args
  else if word = ascii "unbind" then requestPath msgUnbind args
  else none

/-! Messages among the calls. -/

/-- The states in which the kernel was asked to send a message. -/
def messages (calls : Calls) : List State :=
  (calls.filter fun call => call.1.x 8 = 4).map Prod.fst

/-- The messages with their answers. -/
def exchanges (calls : Calls) : Calls := calls.filter fun call => call.1.x 8 = 4

theorem exchanges_append (calls made : Calls) :
    exchanges (calls ++ made) = exchanges calls ++ exchanges made :=
  List.filter_append ..

theorem exchanges_none {calls : Calls} (h : ∀ call ∈ calls, call.1.x 8 ≠ 4) :
    exchanges calls = [] := by
  rw [exchanges, List.filter_eq_nil_iff]
  intro call hcall
  simpa using h call hcall

theorem exchanges_one {r reply : State} (h : r.x 8 = 4) : exchanges [(r, reply)] = [(r, reply)] := by
  simp [exchanges, h]

theorem messages_append (calls made : Calls) :
    messages (calls ++ made) = messages calls ++ messages made := by
  rw [messages, List.filter_append, List.map_append]
  rfl

theorem messages_none {calls : Calls} (h : ∀ call ∈ calls, call.1.x 8 ≠ 4) : messages calls = [] :=
  congrArg (List.map Prod.fst) (exchanges_none h)

theorem messages_one {r reply : State} (h : r.x 8 = 4) : messages [(r, reply)] = [r] := by
  simp [messages, h]

/-- The labels from which no message is sent before the next prompt. -/
def quiet : Label → Bool
  | .touchError | .touchNoArgs | .mkdirError | .mkdirNoArgs | .pwdError | .cdError | .cdErrorNoargs
  | .cpError | .cpNoArgs | .rmError | .rmNoArgs | .mvError | .mvNoArgs | .bindError | .bindNoArgs
  | .unbindError | .unbindNoArgs | .printMessageSimple | .printMsgSimpleDone | .unknownCommand
  | .echoEmpty | .echoLoop | .echoDone | .printMessage | .printMessageAndRestorePwd
  | .printPwdNewline | .printMsgRestorePwdDone | .resetAndPrompt | .printPrompt => true
  | _ => false

theorem quiet_exits (label : Label) (h : quiet label = true) (hprompt : label ≠ .printPrompt) :
    ∀ l ∈ exits next label (code label), quiet l = true := by
  cases label <;> first | exact absurd h (by decide) | exact absurd rfl hprompt | decide

theorem quiet_calls (label : Label) (h : quiet label = true) :
    callsOnly (· ≠ 4) none (code label) = true := by
  cases label <;> first | exact absurd h (by decide) | decide

section Handling

variable {symbol : Symbol → Word} {env : Environment} {s : State} {text : Str} {calls : Calls}

/-- On the way to the next prompt the machine sends just the message of the request. -/
def Handles (symbol : Symbol → Word) (env : Environment) (c : Config Label)
    (wanted : Option Request) : Prop :=
  ∃ c', Reaches (shell symbol) env .printPrompt c c' ∧ quiet c'.label = true ∧
    ∃ sent, messages c'.calls = messages c.calls ++ sent ∧
      List.Forall₂ Carries sent wanted.toList

theorem Handles.of_quiet {c c' : Config Label} (h : Reaches (shell symbol) env .printPrompt c c')
    (hquiet : quiet c'.label = true) (hcalls : c'.calls = c.calls) : Handles symbol env c none :=
  ⟨c', h, hquiet, [], by rw [hcalls, List.append_nil], .nil⟩

theorem Handles.of_reaches {c c' : Config Label} {wanted : Option Request}
    (h : Reaches (shell symbol) env .printPrompt c c')
    (hcalls : messages c'.calls = messages c.calls) (hc' : Handles symbol env c' wanted) :
    Handles symbol env c wanted := by
  obtain ⟨c'', hreach, hquiet, sent, hsent, hcarries⟩ := hc'
  exact ⟨c'', h.trans hreach, hquiet, sent, by rw [hsent, hcalls], hcarries⟩

/-- A block that makes other calls leaves the messages as they are. -/
theorem runBlock_exchanges (hkeeps : KeepsCaller env) {here : Label} {block : Block}
    (hblock : callsOnly (· ≠ 4) none block = true) (s : State) (calls : Calls) :
    exchanges (runBlock (shell symbol) env here block s calls).calls = exchanges calls := by
  obtain ⟨made, hcalls, hmade⟩ := runBlock_callsOnly (p := shell symbol) s calls here
    (fun calls s => hkeeps.x calls s 8 (by decide) (by decide)) hblock (by simp)
  have hnone : exchanges made = [] := exchanges_none fun call hcall => by simpa using hmade call hcall
  rw [hcalls, exchanges_append, hnone, List.append_nil]

theorem runBlock_messages (hkeeps : KeepsCaller env) {here : Label} {block : Block}
    (hblock : callsOnly (· ≠ 4) none block = true) (s : State) (calls : Calls) :
    messages (runBlock (shell symbol) env here block s calls).calls = messages calls :=
  congrArg (List.map Prod.fst) (runBlock_exchanges hkeeps hblock s calls)

/-- Among labels that send nothing and go only to such labels, the messages stay as they are. -/
theorem silent_run (hkeeps : KeepsCaller env) {silent : Label → Bool}
    (hexits : ∀ label, silent label = true → label ≠ .printPrompt →
      ∀ l ∈ exits next label (code label), silent l = true)
    (hcalls : ∀ label, silent label = true → callsOnly (· ≠ 4) none (code label) = true)
    {c : Config Label} (hsilent : silent c.label = true) (n : Nat) :
    exchanges (runTo (shell symbol) env .printPrompt n c).calls = exchanges c.calls := by
  refine (runTo_invariant (P := fun c' => silent c'.label = true ∧
    exchanges c'.calls = exchanges c.calls) ⟨hsilent, rfl⟩ ?_ n).2
  · rintro c' ⟨hsilent', hsame⟩ hprompt
    refine ⟨hexits c'.label hsilent' hprompt _ runBlock_label, ?_⟩
    exact (runBlock_exchanges hkeeps (hcalls c'.label hsilent') _ _).trans hsame

/-- From a quiet label on, the messages stay as they are. -/
theorem quiet_run (hkeeps : KeepsCaller env) {c : Config Label} (hquiet : quiet c.label = true)
    (n : Nat) : messages (runTo (shell symbol) env .printPrompt n c).calls = messages c.calls :=
  congrArg (List.map Prod.fst) (silent_run hkeeps quiet_exits quiet_calls hquiet n)

/-- What has been sent when the line is handled stays what has been sent. -/
theorem Handles.settles (hkeeps : KeepsCaller env) {c : Config Label} {wanted : Option Request}
    (h : Handles symbol env c wanted) :
    ∃ n sent, List.Forall₂ Carries sent wanted.toList ∧ ∀ m, n ≤ m →
      messages (runTo (shell symbol) env .printPrompt m c).calls = messages c.calls ++ sent := by
  obtain ⟨c', ⟨n, rfl⟩, hquiet, sent, hsent, hcarries⟩ := h
  refine ⟨n, sent, hcarries, ?_⟩
  intro m hm
  obtain ⟨k, rfl⟩ := Nat.exists_eq_add_of_le' hm
  rw [runTo_add, quiet_run hkeeps hquiet, hsent]

end Handling

/-! Commands with arguments. -/

/-- A line is ready to be taken apart: its rest is in the buffer, and no message will be laid over
the buffer. -/
structure LineReady (s : State) (text : Str) (start : Nat) : Prop where
  nul_free : 0 ∉ text
  line : LineFrom s text start
  off : OffStack s (s.x 2) 64

/-- How the code looks for an argument: it skips spaces, remembers where it is in the registers
`starts`, and goes on with `index` up to the end of the argument. -/
structure Argument where
  find : Label
  found : Label
  findEnd : Label
  /-- Where it goes without an argument. -/
  missing : Label
  /-- Where it goes when a space follows the argument. -/
  behind : Label
  /-- Where it goes when the line ends with the argument. -/
  atEnd : Label
  starts : List (Fin 31)
  index : Fin 31
  /-- The registers for the bytes before the argument and for those of it. -/
  before : Fin 31
  within : Fin 31

structure Argument.Coded (a : Argument) : Prop where
  find : code a.find = skipSpaces a.before a.find a.missing a.found
  found : code a.found = a.starts.map fun r => .movReg (.x r) (.x 4)
  next : UserShell.next a.found = a.findEnd
  findEnd : code a.findEnd = findSpace a.index a.within a.findEnd a.behind a.atEnd
  ahead : ∀ l ∈ [a.find, a.found, a.findEnd], l ≠ .printPrompt
  line : ∀ r ∈ [2, 3], r ∉ a.starts ∧ r ≠ a.index ∧ r ≠ a.before ∧ r ≠ a.within
  index : a.index ∈ 4 :: a.starts
  from4 : 4 ∉ a.starts ∧ 4 ≠ a.before
  within : a.index ≠ a.within

section Arguments

variable {symbol : Symbol → Word} {env : Environment} {s s' : State} {text : Str} {calls : Calls}

theorem LineReady.keeps {start : Nat} {rs : List (Fin 31)} (h : LineReady s text start)
    (hkeeps : Keeps rs s s') (h2 : 2 ∉ rs) (h3 : 3 ∉ rs) : LineReady s' text start where
  nul_free := h.nul_free
  line := h.line.keeps hkeeps h2 h3
  off k hk := by
    rw [hkeeps.sp, hkeeps.x 2 h2]
    exact h.off k hk

theorem LineReady.mono {start start' : Nat} (h : LineReady s text start) (hle : start ≤ start') :
    LineReady s text start' :=
  ⟨h.nul_free, h.line.mono hle, h.off⟩

theorem LineReady.offAt {start : Nat} (h : LineReady s text start) {n count : Nat}
    (hn : n + count ≤ 64) : OffStack s (s.x 2 + BitVec.ofNat 64 n) count := by
  intro k hk
  rw [add_ofNat_add]
  exact h.off (n + k) (by omega)

theorem components_argument {arg rest : Str} (harg : arg ≠ []) (hspace : space ∉ arg)
    (hrest : rest = [] ∨ ∃ more, rest = space :: more) :
    components space (arg ++ rest) = arg :: components space rest := by
  have hcomp := components_of_isComponent space (c := arg) ⟨harg, hspace⟩
  rcases hrest with rfl | ⟨more, rfl⟩
  · rw [List.append_nil, hcomp, components_nil]
  · rw [components_append_sep, hcomp, components_sep_cons, List.singleton_append]

theorem At.keeps {index : Fin 31} {pre : Str} {rs : List (Fin 31)} (h : At s index pre)
    (hkeeps : Keeps rs s s') (hindex : index ∉ rs) : At s' index pre :=
  (hkeeps.x index hindex).trans h

/-- The registers in front of an argument and behind it are different. -/
theorem At.ne {i j : Fin 31} {pre arg : Str} (h : At s i pre) (h' : At s j (pre ++ arg))
    (harg : arg ≠ []) (hshort : (pre ++ arg).length ≤ 63) : s.x j ≠ s.x i := by
  have hpos := List.length_pos_iff.mpr harg
  rw [List.length_append] at hshort
  rw [h, h', ne_eq, ofNat_eq_iff (by rw [List.length_append]; omega) (by omega), List.length_append]
  omega

variable (symbol env calls)

/-- Where an argument starts is kept in some registers. -/
theorem starts_run {here : Label} (starts : List (Fin 31)) (h4 : 4 ∉ starts) (s : State) :
    ∃ s', runBlock (shell symbol) env here (starts.map fun r => .movReg (.x r) (.x 4)) s calls =
        ⟨next here, s', calls⟩ ∧ Keeps starts s s' ∧ ∀ r ∈ 4 :: starts, s'.x r = s.x 4 := by
  induction starts generalizing s with
  | nil =>
      refine ⟨s, rfl, Keeps.refl s, ?_⟩
      intro r hr
      rw [List.mem_singleton.mp hr]
  | cons r starts ih =>
      rw [List.mem_cons, not_or] at h4
      let s₁ : State := { s with x := Function.update s.x r (s.x 4) }
      have h₁ : s₁.x 4 = s.x 4 := Function.update_of_ne h4.1 _ _
      obtain ⟨s', hrun, hkeeps, hstarts⟩ := ih h4.2 s₁
      refine ⟨s', hrun, ⟨?_, hkeeps.sp, hkeeps.mem⟩, ?_⟩
      · intro r' hr'
        rw [List.mem_cons, not_or] at hr'
        exact (hkeeps.x r' hr'.2).trans (Function.update_of_ne hr'.1 _ _)
      · intro r' hr'
        by_cases hin : r' ∈ 4 :: starts
        · exact (hstarts r' hin).trans h₁
        · -- the register is `r`, and no later one of the list
          have hr : r' = r := by
            simp only [List.mem_cons, not_or] at hr' hin
            tauto
          rw [List.mem_cons, not_or] at hin
          rw [hkeeps.x r' hin.2, hr]
          exact Function.update_self ..

/-- The code finds the first argument of the rest of the line. -/
theorem Argument.reaches (a : Argument) (hcoded : a.Coded) {pre rest : Str}
    (htext : text = pre ++ rest) (hready : LineReady s text pre.length) (hat : At s 4 pre) :
    ∃ s', Keeps (4 :: a.before :: a.index :: a.within :: a.starts) s s' ∧
      (components space rest = [] ∧
        Reaches (shell symbol) env .printPrompt ⟨a.find, s, calls⟩ ⟨a.missing, s', calls⟩ ∨
      ∃ pre' arg rest', text = pre' ++ arg ++ rest' ∧ pre.length ≤ pre'.length ∧ arg ≠ [] ∧
        components space rest = arg :: components space rest' ∧
        (∀ r ∈ a.starts, r ≠ a.index → r ≠ a.within → At s' r pre') ∧ At s' a.index (pre' ++ arg) ∧
        (rest' = [] ∧
          Reaches (shell symbol) env .printPrompt ⟨a.find, s, calls⟩ ⟨a.atEnd, s', calls⟩ ∨
        (∃ more, rest' = space :: more) ∧
          Reaches (shell symbol) env .printPrompt ⟨a.find, s, calls⟩ ⟨a.behind, s', calls⟩)) := by
  obtain ⟨h2s, h2i, h2b, h2w⟩ := hcoded.line 2 (by simp)
  obtain ⟨h3s, h3i, h3b, h3w⟩ := hcoded.line 3 (by simp)
  obtain ⟨s₁, hkeeps₁, ⟨hnone, hreach₁⟩ | ⟨pre', d, args, htext', hd, hle, hsame, hat₁, hreach₁⟩⟩ :=
    skipSpaces_reaches symbol env calls a.find hcoded.find (hcoded.ahead _ (by simp)) h2b h3b
      hcoded.from4.2 rest htext hready.line hat
  · exact ⟨s₁, hkeeps₁.mono (by simp), .inl ⟨hnone, hreach₁⟩⟩
  have hready₁ := (hready.keeps hkeeps₁ (by simpa using h2b) (by simpa using h3b)).mono hle
  obtain ⟨s₂, hstep₂, hkeeps₂, hstarts⟩ := starts_run symbol env calls a.starts hcoded.from4.1 s₁
  have hready₂ := hready₁.keeps hkeeps₂ h2s h3s
  have hat₂ : At s₂ a.index pre' := (hstarts _ hcoded.index).trans hat₁
  obtain ⟨s₃, arg, rest', hkeeps₃, hsplit, hspace, hat₃, hend⟩ :=
    findSpace_reaches symbol env calls a.findEnd hcoded.findEnd (hcoded.ahead _ (by simp))
      ⟨h2w, h2i⟩ ⟨h3w, h3i⟩ hcoded.within (d :: args) htext' hready₂.line hat₂
  have hreach : Reaches (shell symbol) env .printPrompt ⟨a.find, s, calls⟩
      ⟨a.findEnd, s₂, calls⟩ := by
    apply hreach₁.trans
    apply Reaches.single (hcoded.ahead _ (by simp))
    rw [step_at, hcoded.found, hstep₂, hcoded.next]
  have harg : arg ≠ [] := by
    rintro rfl
    rcases hend with ⟨rfl, -⟩ | ⟨⟨more, rfl⟩, -⟩
    · cases hsplit
    · exact hd (List.cons.inj hsplit).1
  refine ⟨s₃, ?_, .inr ⟨pre', arg, rest', ?_, hle, harg, ?_, ?_, hat₃, hend.imp ?_ ?_⟩⟩
  · apply (hkeeps₁.mono (by simp)).trans
    apply (hkeeps₂.mono ?_).trans (hkeeps₃.mono (by simp))
    exact fun r hr => by simp [hr]
  · rw [htext', hsplit, List.append_assoc]
  · rw [hsame, hsplit]
    exact components_argument harg hspace (hend.imp And.left And.left)
  · intro r hr hindex hwithin
    apply At.keeps _ hkeeps₃ (by simp [hindex, hwithin])
    exact (hstarts r (List.mem_cons_of_mem _ hr)).trans hat₁
  · exact fun h => ⟨h.1, hreach.trans h.2⟩
  · exact fun h => ⟨h.1, hreach.trans h.2⟩

end Arguments

/-- The labels of a command with one path. -/
structure PathCommand where
  find : Label
  found : Label
  findEnd : Label
  pathFound : Label
  noArgs : Label
  error : Label
  type : Nat

/-- The path is from `x5` to `x6`. -/
def PathCommand.argument (c : PathCommand) : Argument where
  find := c.find
  found := c.found
  findEnd := c.findEnd
  missing := c.noArgs
  behind := c.pathFound
  atEnd := c.pathFound
  starts := [5, 6]
  index := 6
  before := 5
  within := 7

/-- The code at the labels of the command. -/
structure PathCommand.Coded (c : PathCommand) : Prop where
  argument : c.argument.Coded
  pathFound : code c.pathFound = sendPath c.type c.noArgs c.error
  quiet : UserShell.quiet c.error = true
  ahead : c.pathFound ≠ .printPrompt

/-- The labels of a command with a source and a target. -/
structure PathsCommand where
  find : Label
  found : Label
  findEnd : Label
  foundEnd : Label
  findTarget : Label
  foundTarget : Label
  findTargetEnd : Label
  pathsFound : Label
  noArgs : Label
  error : Label
  type : Nat
  /-- The target is in the field of the path. -/
  swapped : Bool

/-- The source starts at `x5`. -/
def PathsCommand.source (c : PathsCommand) : Argument where
  find := c.find
  found := c.found
  findEnd := c.findEnd
  missing := c.noArgs
  behind := c.foundEnd
  atEnd := c.noArgs
  starts := [5]
  index := 4
  before := 5
  within := 6

/-- The target is from `x6` to `x4`. -/
def PathsCommand.target (c : PathsCommand) : Argument where
  find := c.findTarget
  found := c.foundTarget
  findEnd := c.findTargetEnd
  missing := c.noArgs
  behind := c.pathsFound
  atEnd := c.pathsFound
  starts := [6]
  index := 4
  before := 6
  within := 7

def PathsCommand.wanted (c : PathsCommand) (source target : Str) : Request :=
  if c.swapped then .onPaths c.type target source else .onPaths c.type source target

structure PathsCommand.Coded (c : PathsCommand) : Prop where
  source : c.source.Coded
  foundEnd : code c.foundEnd = foundSourceEnd
  next : UserShell.next c.foundEnd = c.findTarget
  target : c.target.Coded
  pathsFound : code c.pathsFound =
    sendPaths c.type (if c.swapped then 6 else 5) (if c.swapped then 5 else 6) c.noArgs c.error
  quiet : UserShell.quiet c.noArgs = true ∧ UserShell.quiet c.error = true
  ahead : ∀ l ∈ [c.foundEnd, c.pathsFound], l ≠ .printPrompt

section Commands

variable {symbol : Symbol → Word} {env : Environment} {s s' : State} {text : Str}

variable (symbol)

/-- A command with one path sends its message when there is an argument. -/
theorem PathCommand.handles (calls : Calls) (hkeeps : KeepsCaller env) (c : PathCommand)
    (hcoded : c.Coded) {pre rest : Str} (htext : text = pre ++ rest)
    (hready : LineReady s text pre.length) (hat : At s 4 pre) :
    (components space rest = [] ∧ ∃ s', Keeps [4, 5, 6, 7] s s' ∧
        Reaches (shell symbol) env .printPrompt ⟨c.find, s, calls⟩ ⟨c.noArgs, s', calls⟩) ∨
      ∃ path args, components space rest = path :: args ∧
        Handles symbol env ⟨c.find, s, calls⟩ (some (.onPath c.type path)) := by
  obtain ⟨s₁, hkeeps₁, ⟨hnone, hreach⟩ | ⟨pre', arg, rest', htext', hle, harg, hcomp, hstarts, hend,
    hreach⟩⟩ := c.argument.reaches symbol env calls hcoded.argument htext hready hat
  · exact .inl ⟨hnone, s₁, hkeeps₁.mono (by simp [argument]), hreach⟩
  refine .inr ⟨arg, components space rest', hcomp, ?_⟩
  have hready₁ := (hready.keeps hkeeps₁ (by simp [argument]) (by simp [argument])).mono hle
  have hat₅ : At s₁ 5 pre' := hstarts 5 (by simp [argument]) (by simp [argument])
    (by simp [argument])
  have hat₆ : At s₁ 6 (pre' ++ arg) := hend
  have hshort := hready₁.line.short
  have hlen : text.length = pre'.length + arg.length + rest'.length := by
    rw [htext', List.length_append, List.length_append]
  rcases sendPath_run symbol s₁ calls c.pathFound c.error hkeeps c.type c.noArgs with
    ⟨hempty, -⟩ | ⟨-, r, hasks⟩
  · exact absurd hempty (hat₅.ne hat₆ harg (by rw [List.length_append]; omega))
  · rw [hat₅, hat₆] at hasks
    have hstring := hready₁.line.terminated htext' le_rfl hready.nul_free
    have hstep : Reaches (shell symbol) env .printPrompt ⟨c.pathFound, s₁, calls⟩ _ :=
      Reaches.single hcoded.ahead rfl
    refine ⟨_, (hreach.elim And.right And.right).trans hstep, ?_, [r], ?_, ?_⟩
    · rw [step_at, hcoded.pathFound, hasks.label]
      split_ifs
      · exact hcoded.quiet
      · rfl
    · rw [step_at, hcoded.pathFound, hasks.made, messages_append, messages_one hasks.number]
    · exact .cons (hasks.onPath hstring (hready₁.offAt (by omega))) .nil

/-- Behind the first argument of two, a NUL takes the place of the space. -/
theorem foundSourceEnd_run (calls : Calls) {here : Label} {pre : Str} {start : Nat}
    (hcode : code here = foundSourceEnd) (hready : LineReady s text start)
    (hstart : start ≤ pre.length) (hend : pre.length < text.length) (hat : At s 4 pre) :
    ∃ s', step (shell symbol) env ⟨here, s, calls⟩ = ⟨next here, s', calls⟩ ∧
      (∀ r ≠ 4, s'.x r = s.x r) ∧
      s'.mem = Function.update s.mem (s.x 2 + BitVec.ofNat 64 pre.length) 0 ∧
      At s' 4 (pre ++ [space]) ∧ LineReady s' text (pre ++ [space]).length := by
  let s₁ : State := { s with mem := Function.update s.mem (s.x 2 + BitVec.ofNat 64 pre.length) 0 }
  have hlen : (pre ++ [space]).length = pre.length + 1 := by simp
  have hready₁ : LineReady s₁ text (pre ++ [space]).length := by
    have hshort := hready.line.short
    refine ⟨hready.nul_free, ?_, hready.off⟩
    exact (hready.line.mono (by omega)).update (.inl (by omega)) (by omega)
  have hkeeps := keeps_advance s₁ 4
  refine ⟨advance s₁ 4, ?_, ?_, rfl, At.advance hat space, hready₁.keeps hkeeps (by decide)
    (by decide)⟩
  · rw [step_at, hcode]
    rw [At] at hat
    simp [foundSourceEnd, runBlock, exec, State.get, State.set, advance, s₁, hat, shell]
  · exact fun r hr => hkeeps.x r (by simpa using hr)

/-- With both arguments found, the message about them is sent. -/
theorem PathsCommand.sends (calls : Calls) (hkeeps : KeepsCaller env) (c : PathsCommand)
    (hcoded : c.Coded) {pre source target rest : Str} {n : Nat} (htext : text = pre ++ target ++ rest)
    (hready : LineReady s text pre.length)
    (hsource : StringAt s.mem (s.x 2 + BitVec.ofNat 64 n) source) (hn : n + source.length < pre.length)
    (h₅ : s.x 5 = BitVec.ofNat 64 n) (h₆ : At s 6 pre) (h₄ : At s 4 (pre ++ target)) :
    Handles symbol env ⟨c.pathsFound, s, calls⟩ (some (c.wanted source target)) := by
  have hshort := hready.line.short
  have hlen : text.length = pre.length + target.length + rest.length := by
    rw [htext, List.length_append, List.length_append]
  have hlen₄ : (pre ++ target).length = pre.length + target.length := List.length_append
  rw [At] at h₄ h₆
  have hsource' : StringAt (Function.update s.mem (s.x 2 + s.x 4) 0)
      (s.x 2 + BitVec.ofNat 64 n) source := by
    apply hsource.congr
    intro k hk
    apply Function.update_of_ne
    rw [h₄, add_ofNat_add, ne_eq,
      add_ofNat_inj (by omega) (by rw [hlen₄]; omega), hlen₄]
    omega
  have htarget : StringAt (Function.update s.mem (s.x 2 + s.x 4) 0)
      (s.x 2 + BitVec.ofNat 64 pre.length) target := by
    rw [h₄]
    exact hready.line.terminated htext le_rfl hready.nul_free
  have hsourceOff : OffStack s (s.x 2 + BitVec.ofNat 64 n) (source.length + 1) :=
    hready.offAt (by omega)
  have htargetOff : OffStack s (s.x 2 + BitVec.ofNat 64 pre.length) (target.length + 1) :=
    hready.offAt (by omega)
  rcases sendPaths_run symbol s calls c.pathsFound c.error hkeeps c.type
    (if c.swapped then 6 else 5) (if c.swapped then 5 else 6) c.noArgs (by split <;> decide)
    (by split <;> decide) with ⟨hless, -⟩ | ⟨-, r, hasks⟩
  · rw [h₅, h₆, slt_ofNat (by omega) (by omega), decide_eq_false_iff_not] at hless
    omega
  · have hstep : Reaches (shell symbol) env .printPrompt ⟨c.pathsFound, s, calls⟩ _ :=
      Reaches.single (hcoded.ahead _ (by simp)) rfl
    refine ⟨_, hstep, ?_, [r], ?_, ?_⟩
    · rw [step_at, hcoded.pathsFound, hasks.label]
      split_ifs
      · exact hcoded.quiet.2
      · rfl
    · rw [step_at, hcoded.pathsFound, hasks.made, messages_append, messages_one hasks.number]
    · refine .cons ?_ .nil
      rw [wanted]
      cases hswapped : c.swapped with
      | true =>
          simp only [hswapped, if_true, h₅, h₆] at hasks ⊢
          exact hasks.onPaths htarget htargetOff hsource' hsourceOff
      | false =>
          simp only [hswapped, Bool.false_eq_true, if_false, h₅, h₆] at hasks ⊢
          exact hasks.onPaths hsource' hsourceOff htarget htargetOff

/-- A command with a source and a target sends its message when there are two arguments. -/
theorem PathsCommand.handles (calls : Calls) (hkeeps : KeepsCaller env) (c : PathsCommand)
    (hcoded : c.Coded) {pre rest : Str} (htext : text = pre ++ rest)
    (hready : LineReady s text pre.length) (hat : At s 4 pre) :
    ((components space rest).length < 2 ∧ Handles symbol env ⟨c.find, s, calls⟩ none) ∨
      ∃ source target args, components space rest = source :: target :: args ∧
        Handles symbol env ⟨c.find, s, calls⟩ (some (c.wanted source target)) := by
  obtain ⟨s₁, hkeeps₁, ⟨hnone, hreach₁⟩ | ⟨pre₁, source, rest₁, htext₁, hle₁, hsource, hcomp₁,
    hstarts₁, hend₁, ⟨rfl, hreach₁⟩ | ⟨⟨more, rfl⟩, hreach₁⟩⟩⟩ :=
    c.source.reaches symbol env calls hcoded.source htext hready hat
  · exact .inl ⟨by simp [hnone], .of_quiet hreach₁ hcoded.quiet.1 rfl⟩
  · exact .inl ⟨by simp [hcomp₁], .of_quiet hreach₁ hcoded.quiet.1 rfl⟩
  have hready₁ := (hready.keeps hkeeps₁ (by simp [PathsCommand.source])
    (by simp [PathsCommand.source])).mono hle₁
  have hat₁ : At s₁ 5 pre₁ := hstarts₁ 5 (by simp [PathsCommand.source])
    (by simp [PathsCommand.source]) (by simp [PathsCommand.source])
  -- behind the source
  obtain ⟨s₂, hstep₂, hx₂, hmem₂, hend₂, hready₂⟩ := foundSourceEnd_run symbol calls
    hcoded.foundEnd hready₁ (by simp) (by simp [htext₁]) hend₁
  have hsource₂ : StringAt s₂.mem (s₂.x 2 + BitVec.ofNat 64 pre₁.length) source := by
    rw [hmem₂, hx₂ 2 (by decide)]
    exact hready₁.line.terminated htext₁ le_rfl hready.nul_free
  have hreach₂ : Reaches (shell symbol) env .printPrompt ⟨c.find, s, calls⟩
      ⟨c.findTarget, s₂, calls⟩ := by
    rw [hcoded.next] at hstep₂
    exact hreach₁.trans (Reaches.single (hcoded.ahead c.foundEnd (by simp)) hstep₂)
  have htext₂ : text = (pre₁ ++ source ++ [space]) ++ more := by simp [htext₁]
  obtain ⟨s₃, hkeeps₃, ⟨hnone, hreach₃⟩ | ⟨pre₃, target, rest₃, htext₃, hle₃, htarget, hcomp₃,
    hstarts₃, hend₃, hreach₃⟩⟩ :=
    c.target.reaches symbol env calls hcoded.target htext₂ hready₂ hend₂
  · refine .inl ⟨?_, .of_quiet (hreach₂.trans hreach₃) hcoded.quiet.1 rfl⟩
    simp [hcomp₁, components_sep_cons, hnone]
  rw [components_sep_cons, hcomp₃] at hcomp₁
  refine .inr ⟨source, target, components space rest₃, hcomp₁, ?_⟩
  have hready₃ := (hready₂.keeps hkeeps₃ (by simp [PathsCommand.target])
    (by simp [PathsCommand.target])).mono hle₃
  have hsource₃ : StringAt s₃.mem (s₃.x 2 + BitVec.ofNat 64 pre₁.length) source := by
    rw [hkeeps₃.mem, hkeeps₃.x 2 (by simp [PathsCommand.target])]
    exact hsource₂
  have hat₃ : s₃.x 5 = BitVec.ofNat 64 pre₁.length := by
    rw [hkeeps₃.x 5 (by simp [PathsCommand.target]), hx₂ 5 (by decide)]
    exact hat₁
  have hbefore : pre₁.length + source.length < pre₃.length := by
    rw [List.length_append, List.length_append, List.length_singleton] at hle₃
    omega
  have hsends := c.sends symbol calls hkeeps hcoded htext₃ hready₃ hsource₃ hbefore hat₃
    (hstarts₃ 6 (by simp [PathsCommand.target]) (by simp [PathsCommand.target])
      (by simp [PathsCommand.target])) hend₃
  exact hsends.of_reaches (hreach₂.trans (hreach₃.elim And.right And.right)) rfl

end Commands

end Chthon.UserShell
