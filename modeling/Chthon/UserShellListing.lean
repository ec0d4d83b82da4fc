import Chthon.UserShellLine

/-! The line `ls` of the user shell: it asks for a listing of its first argument, or of the current
directory, which it has asked for before. With spaces and no argument behind the word, the code asks
for no directory and takes the path from a register that it has not set. -/

namespace Chthon.UserShell

open Arm64 (Word Within load store)
open BasicBlocks PathText

section Blocks

variable {symbol : Symbol → Word} {env : Environment} {s : State} {calls : Calls}

variable (symbol env calls) in
/-- The loop that clears the message ends with sending it. -/
theorem clearLsCwdMsg_reaches (n : Nat) (hn : n ≤ 8) : ∀ {s : State}, s.x 6 = BitVec.ofNat 64 n →
    ∃ t c r, AsksCwd env t calls c r ∧ t.x 4 = s.x 4 ∧ t.sp = s.sp ∧
      (∀ a, ¬ Within (s.x 4) 96 a → t.mem a = s.mem a) ∧
      Reaches (shell symbol) env .printPrompt ⟨.clearLsCwdMsg, s, calls⟩ c := by
  have hahead : Label.clearLsCwdMsg ≠ .printPrompt := by decide
  have hclears : ∀ (k : Nat) (s : State) (a : Word), k ≤ 8 → ¬ Within (s.x 4) 96 a →
      store s.mem (s.x 4 + 8 * BitVec.ofNat 64 k) (s.x 5) a = s.mem a := by
    intro k s a hk ha
    apply Arm64.store_outside
    rw [Within] at ha
    bv_omega
  induction n with
  | zero =>
      intro s hx
      rcases clearLsCwdMsg_run symbol env s calls with ⟨hless, -⟩ | ⟨-, r, hasks⟩
      · rw [hx] at hless
        exact absurd hless (by decide)
      · refine ⟨_, _, r, hasks, rfl, rfl, fun a ha => ?_, Reaches.single hahead rfl⟩
        rw [hx]
        exact hclears 0 s a (Nat.zero_le 8) ha
  | succ n ih =>
      intro s hx
      have hslt : (BitVec.ofNat 64 (n + 1)).slt 1 = decide (n + 1 < 1) :=
        slt_ofNat (b := 1) (by omega) (by decide)
      rcases clearLsCwdMsg_run symbol env s calls with ⟨-, s', hrun, hkeeps, hx', hmem⟩ | ⟨hless, -⟩
      · have hdown : s'.x 6 = BitVec.ofNat 64 n := by
          rw [hx', hx, BitVec.ofNat_add]
          exact add_sub_cancel_right _ _
        obtain ⟨t, c, r, hasks, h4, hsp, houtside, hreach⟩ := ih (by omega) hdown
        have h4' : s'.x 4 = s.x 4 := hkeeps.x 4 (by decide)
        refine ⟨t, c, r, hasks, h4.trans h4', hsp.trans hkeeps.sp, fun a ha => ?_,
          (Reaches.single hahead (by rw [step_at, hrun])).trans hreach⟩
        rw [houtside a (by rwa [h4']), hmem, hx]
        exact hclears (n + 1) s a hn ha
      · rw [hx, hslt, decide_eq_true_eq] at hless
        omega

variable (symbol env s calls) in
theorem lsGetCwd_reaches : ∃ t c r, AsksCwd env t calls c r ∧ t.x 4 = s.sp ∧ t.sp = s.sp ∧
    (∀ a, ¬ Within s.sp 96 a → t.mem a = s.mem a) ∧
    Reaches (shell symbol) env .printPrompt ⟨.lsGetCwd, s, calls⟩ c := by
  let s' : State := { s with
    x := Function.update (Function.update (Function.update s.x 4 s.sp) 5 0) 6 8 }
  have h4 : s'.x 4 = s.sp := by simp [s']
  obtain ⟨t, c, r, hasks, h4', hsp, houtside, hreach⟩ :=
    clearLsCwdMsg_reaches symbol env calls 8 le_rfl (s := s') (by simp [s'])
  rw [h4] at h4' houtside
  have hstep : step (shell symbol) env ⟨.lsGetCwd, s, calls⟩ = ⟨.clearLsCwdMsg, s', calls⟩ := rfl
  exact ⟨t, c, r, hasks, h4', hsp, houtside,
    (Reaches.single (show Label.lsGetCwd ≠ .printPrompt by decide) hstep).trans hreach⟩

variable (symbol env s calls) in
/-- The argument from `x5` to `x6` is ended with a NUL, and `x9` points to it. -/
theorem lsPathFound_reaches (hne : s.x 6 ≠ s.x 5) : ∃ s', s'.x 9 = s.x 2 + s.x 5 ∧
    s'.x 3 = s.x 3 ∧ s'.sp = s.sp ∧ s'.mem = Function.update s.mem (s.x 2 + s.x 6) 0 ∧
    Reaches (shell symbol) env .printPrompt ⟨.lsPathFound, s, calls⟩ ⟨.lsWithPath, s', calls⟩ := by
  let s₁ : State := { s with x := Function.update s.x 7 (s.x 6 - s.x 5) }.compare (s.x 6 - s.x 5) 0
  let s₂ : State := { s₁ with
    x := Function.update (Function.update s₁.x 8 0) 9 (s.x 2 + s.x 5)
    mem := Function.update s.mem (s.x 2 + s.x 6) 0 }
  have hrun : step (shell symbol) env ⟨.lsPathFound, s, calls⟩ =
      if s₁.zero = true then ⟨.lsNoArgs, s₁, calls⟩ else ⟨.lsWithPath, s₂, calls⟩ := rfl
  have hzero : ¬ s₁.zero = true := by
    change ¬ decide (s.x 6 - s.x 5 = 0) = true
    rw [decide_eq_true_eq, sub_eq_zero]
    exact hne
  rw [if_neg hzero] at hrun
  exact ⟨s₂, by simp [s₂], by simp [s₂, s₁, State.compare], rfl, rfl,
    Reaches.single (show Label.lsPathFound ≠ .printPrompt by decide) hrun⟩

variable (symbol env s calls) in
/-- There is room for a message, for entries and for a path below the stack. Whether there is an
argument is seen by the length of the line. -/
theorem lsWithPath_reaches : ∃ s', s'.x = s.x ∧ s'.sp = s.sp - 4704 ∧ s'.mem = s.mem ∧
    Reaches (shell symbol) env .printPrompt ⟨.lsWithPath, s, calls⟩
      ⟨if s.x 3 = 2 then .lsGetCwd else .lsDoReaddir, s', calls⟩ := by
  let s' : State := { s with sp := s.sp - 512 - 4096 - 96 }.compare (s.x 3) 2
  have hrun : step (shell symbol) env ⟨.lsWithPath, s, calls⟩ =
      if decide (s.x 3 = 2) = true then ⟨.lsGetCwd, s', calls⟩ else ⟨.lsDoReaddir, s', calls⟩ := rfl
  refine ⟨s', rfl, ?_, rfl, Reaches.single (show Label.lsWithPath ≠ .printPrompt by decide) ?_⟩
  · change s.sp - 512 - 4096 - 96 = _
    bv_omega
  · rw [hrun]
    by_cases h : s.x 3 = 2
    · rw [if_pos h, if_pos (decide_eq_true h)]
    · rw [if_neg h, if_neg (by simpa using h)]

end Blocks

/-! What the line `ls` is for. -/

/-- The kernel was asked for the directory, and then for a listing of the string it has left. -/
structure ListsCwd (asked call : State × State) : Prop where
  type : load asked.1.mem (asked.1.x 0) = BitVec.ofNat 64 msgGetcwd
  size : load asked.1.mem (asked.1.x 0 + 32) = 512
  answered : ¬ Refused asked.2
  listing : load call.1.mem (call.1.x 0) = BitVec.ofNat 64 msgReadDir
  path : load call.1.mem (call.1.x 0 + 8) = load asked.1.mem (asked.1.x 0 + 24)
  bytes : ∀ k < 512, call.1.mem (load asked.1.mem (asked.1.x 0 + 24) + BitVec.ofNat 64 k) =
    asked.2.mem (load asked.1.mem (asked.1.x 0 + 24) + BitVec.ofNat 64 k)

/-- What the messages of a line `ls` with these arguments are: a listing of the first argument, or,
without one, of the current directory, and of the root if the kernel refuses to say it. -/
inductive Lists : List Str → Calls → Prop where
  | argument {path : Str} {args : List Str} {call : State × State}
      (h : Carries call.1 (.onPath msgReadDir path)) : Lists (path :: args) [call]
  | cwd {asked call : State × State} (h : ListsCwd asked call) : Lists [] [asked, call]
  | root {asked call : State × State} (hasked : Carries asked.1 (.bare msgGetcwd))
      (hrefused : Refused asked.2) (h : Carries call.1 (.onPath msgReadDir (ascii "/"))) :
      Lists [] [asked, call]

/-- A directory that the kernel has answered is listed by its name. -/
theorem ListsCwd.carries {asked call : State × State} (h : ListsCwd asked call) {path : Str}
    (hshort : path.length < 512)
    (hpath : StringAt asked.2.mem (load asked.1.mem (asked.1.x 0 + 24)) path) :
    Carries call.1 (.onPath msgReadDir path) := by
  refine ⟨h.listing, ?_⟩
  rw [h.path]
  exact hpath.congr fun k hk => h.bytes k (by omega)

/-- The labels behind the message of a listing, from which no message is sent before the next
prompt. -/
def listed : Label → Bool
  | .lsLoop | .lsNameLoop | .lsNameDone | .lsEmpty | .lsError | .lsDone | .printMessageAndRestoreLs
  | .printMsgRestoreLsDone => true
  | label => quiet label

theorem listed_exits (label : Label) (h : listed label = true) (hprompt : label ≠ .printPrompt) :
    ∀ l ∈ exits next label (code label), listed l = true := by
  cases label <;> first | exact absurd h (by decide) | exact absurd rfl hprompt | decide

theorem listed_calls (label : Label) (h : listed label = true) :
    callsOnly (· ≠ 4) none (code label) = true := by
  cases label <;> first | exact absurd h (by decide) | decide

/-- A line is complete in the buffer, and what `ls` puts on the stack is laid over neither the buffer
nor the text of the root. -/
structure ListReady (symbol : Symbol → Word) (s : State) (text : Str) : Prop
    extends Ready symbol s text where
  deep : ∀ k < 64, ¬ Within (s.sp - 4704) 4704 (s.x 2 + BitVec.ofNat 64 k)
  rootDeep : ∀ k < 2, ¬ Within (s.sp - 4704) 4704 (symbol .rootPath + BitVec.ofNat 64 k)

/-- `MSG_GETCWD` writes nothing when it fails. -/
def RefusesCwd (env : Environment) : Prop :=
  ∀ calls s, s.x 8 = 4 → load s.mem (s.x 0) = BitVec.ofNat 64 msgGetcwd → Refused (env calls s) →
    (env calls s).mem = s.mem

section Lines

variable {symbol : Symbol → Word} {env : Environment} {s s' : State} {text : Str} {calls : Calls}

/-- On the way to the next prompt the machine sends just these messages. -/
def Sends (symbol : Symbol → Word) (env : Environment) (c : Config Label) (sent : Calls) : Prop :=
  ∃ c', Reaches (shell symbol) env .printPrompt c c' ∧ listed c'.label = true ∧
    exchanges c'.calls = exchanges c.calls ++ sent

theorem Sends.of_reaches {c c' : Config Label} {sent : Calls}
    (h : Reaches (shell symbol) env .printPrompt c c')
    (hcalls : exchanges c'.calls = exchanges c.calls) (hc' : Sends symbol env c' sent) :
    Sends symbol env c sent := by
  obtain ⟨c'', hreach, hlisted, hsent⟩ := hc'
  exact ⟨c'', h.trans hreach, hlisted, hsent.trans (by rw [hcalls])⟩

theorem Sends.settles (hkeeps : KeepsCaller env) {c : Config Label} {sent : Calls}
    (h : Sends symbol env c sent) : ∃ n, ∀ m, n ≤ m →
      exchanges (runTo (shell symbol) env .printPrompt m c).calls = exchanges c.calls ++ sent := by
  obtain ⟨c', ⟨n, rfl⟩, hlisted, hsent⟩ := h
  refine ⟨n, ?_⟩
  intro m hm
  obtain ⟨k, rfl⟩ := Nat.exists_eq_add_of_le' hm
  rw [runTo_add, silent_run hkeeps listed_exits listed_calls hlisted, hsent]

/-- A string behind `x9` is the path of the listing. -/
theorem AsksListing.carries {c : Config Label} {r : State} {path : Str}
    (h : AsksListing env s calls c r) (hpath : StringAt s.mem (s.x 9) path)
    (hoff : ∀ k ≤ path.length, ¬ Within s.sp 96 (s.x 9 + BitVec.ofNat 64 k)) :
    Carries r (.onPath msgReadDir path) := by
  obtain ⟨htype, hfield⟩ := h.fields
  refine ⟨htype, ?_⟩
  rw [hfield]
  apply hpath.congr
  intro k hk
  exact h.outside (hoff k hk)

variable (symbol env s calls) in
/-- With the path in `x9`, a listing is asked for, and nothing more. -/
theorem lsDoReaddir_sends : ∃ c r, AsksListing env s calls c r ∧
    Sends symbol env ⟨.lsDoReaddir, s, calls⟩ [(r, env calls r)] := by
  obtain ⟨r, hasks⟩ := lsDoReaddir_run symbol env s calls
  refine ⟨_, r, hasks, _, Reaches.single (show Label.lsDoReaddir ≠ .printPrompt by decide) rfl, ?_, ?_⟩
  · have hexits : ∀ l ∈ exits next .lsDoReaddir (code .lsDoReaddir), listed l = true := by decide
    exact hexits _ runBlock_label
  · rw [step_at, hasks.made, exchanges_append, exchanges_one hasks.number]

theorem pathBuffer_off (a : Word) {k : Nat} (hk : k < 512) :
    ¬ Within a 96 (a + 4192 + BitVec.ofNat 64 k) := by
  rw [Within]
  bv_omega

/-- Without an argument, the directory that the kernel names is listed, or else the root. -/
theorem lsGetCwd_sends (hkeeps : KeepsCaller env) (hrefuses : RefusesCwd env)
    (hroot : StringAt s.mem (symbol .rootPath) (ascii "/"))
    (hoff : ∀ k < 2, ¬ Within s.sp 96 (symbol .rootPath + BitVec.ofNat 64 k)) (calls : Calls) :
    ∃ sent, Sends symbol env ⟨.lsGetCwd, s, calls⟩ sent ∧ Lists [] sent := by
  obtain ⟨t, ⟨label, u, made⟩, r, hasks, h4, hsp, houtside, hreach⟩ :=
    lsGetCwd_reaches symbol env s calls
  have hmade : made = calls ++ [(r, env calls r)] := hasks.made
  have hlabel : label = if Refused (env calls r) then .lsCwdError else .lsDoReaddir := hasks.label
  have hmem : u.mem = (env calls r).mem := hasks.mem
  have hrsp : (env calls r).sp = s.sp :=
    calc (env calls r).sp = r.sp := hkeeps.sp calls r
      _ = t.sp := hasks.sp.1
      _ = s.sp := hsp
  have husp : u.sp = s.sp := hasks.sp.2.trans hrsp
  have hsends : ∀ {u' : State} {call : State × State},
      Reaches (shell symbol) env .printPrompt ⟨label, u, made⟩ ⟨.lsDoReaddir, u', made⟩ →
      Sends symbol env ⟨.lsDoReaddir, u', made⟩ [call] →
      Sends symbol env ⟨.lsGetCwd, s, calls⟩ [(r, env calls r), call] := by
    intro u' call hu' hsends
    obtain ⟨d, hd, hlisted, hsent⟩ := hsends
    refine ⟨d, (hreach.trans hu').trans hd, hlisted, ?_⟩
    rw [hsent, hmade, exchanges_append, exchanges_one hasks.number, List.append_assoc]
    rfl
  by_cases hrefused : Refused (env calls r)
  · rw [if_pos hrefused] at hlabel
    subst hlabel
    let u' : State := { u with x := Function.update u.x 9 (symbol .rootPath) }
    have hstep : step (shell symbol) env ⟨.lsCwdError, u, made⟩ = ⟨.lsDoReaddir, u', made⟩ := rfl
    have hx : u'.x 9 = symbol .rootPath := by simp [u']
    have hu' : u'.sp = s.sp := husp
    obtain ⟨d, r', hasks', hsends'⟩ := lsDoReaddir_sends symbol env u' made
    refine ⟨_, hsends (Reaches.single (show Label.lsCwdError ≠ .printPrompt by decide) hstep) hsends',
      .root hasks.type hrefused (hasks'.carries ?_ ?_)⟩
    · rw [hx]
      -- a refusal has left the memory, and the message is not where the text of the root is
      apply hroot.congr
      intro k hk
      have hk' : ¬ Within s.sp 96 (symbol .rootPath + BitVec.ofNat 64 k) :=
        hoff k (Nat.lt_succ_of_le hk)
      calc u.mem (symbol .rootPath + BitVec.ofNat 64 k)
          = (env calls r).mem (symbol .rootPath + BitVec.ofNat 64 k) := by rw [hmem]
        _ = r.mem (symbol .rootPath + BitVec.ofNat 64 k) := by
          rw [hrefuses calls r hasks.number hasks.type hrefused]
        _ = t.mem (symbol .rootPath + BitVec.ofNat 64 k) := hasks.outside _ (by rwa [h4])
        _ = s.mem (symbol .rootPath + BitVec.ofNat 64 k) := houtside _ hk'
    · intro k hk
      rw [hx, hu']
      exact hoff k (Nat.lt_succ_of_le hk)
  · rw [if_neg hrefused] at hlabel
    subst hlabel
    have hpath : u.x 9 = s.sp + 4192 := (hasks.path hrefused).trans (by rw [hrsp])
    have hdata : load r.mem (r.x 0 + 24) = s.sp + 4192 := by
      rw [hasks.data, hsp]
    obtain ⟨d, r', hasks', hsends'⟩ := lsDoReaddir_sends symbol env u made
    refine ⟨_, hsends (Reaches.refl _) hsends', .cwd ⟨hasks.type, hasks.size, hrefused,
      hasks'.fields.1, ?_, ?_⟩⟩
    · rw [hasks'.fields.2, hpath, hdata]
    · intro k hk
      have hoff : ¬ Within u.sp 96 (s.sp + 4192 + BitVec.ofNat 64 k) := by
        rw [husp]
        exact pathBuffer_off s.sp hk
      rw [hdata]
      calc r'.mem (s.sp + 4192 + BitVec.ofNat 64 k)
          = u.mem (s.sp + 4192 + BitVec.ofNat 64 k) := hasks'.outside hoff
        _ = (env calls r).mem (s.sp + 4192 + BitVec.ofNat 64 k) := by rw [hmem]

theorem ListReady.keeps {rs : List (Fin 31)} (h : ListReady symbol s text) (hkeeps : Keeps rs s s')
    (h2 : 2 ∉ rs) (h3 : 3 ∉ rs) : ListReady symbol s' text where
  toReady := h.toReady.keeps hkeeps h2 h3
  deep k hk := by
    rw [hkeeps.sp, hkeeps.x 2 h2]
    exact h.deep k hk
  rootDeep k hk := by
    rw [hkeeps.sp]
    exact h.rootDeep k hk

/-- The 96 bytes of the message are the lowest of those that `ls` takes. -/
theorem not_within_message {a b : Word} (h : ¬ Within a 4704 b) : ¬ Within a 96 b := by
  rw [Within] at h ⊢
  omega

variable (env) in
/-- A line longer than `ls` lists the path in `x9`. -/
theorem lsWithPath_sends (hready : ListReady symbol s text) (hlength : text.length ≠ 2)
    (hs' : s'.x 3 = s.x 3) (calls : Calls) :
    ∃ u c r, u.x = s'.x ∧ u.sp = s'.sp - 4704 ∧ u.mem = s'.mem ∧ AsksListing env u calls c r ∧
      Sends symbol env ⟨.lsWithPath, s', calls⟩ [(r, env calls r)] := by
  obtain ⟨u, hx, hsp, hmem, hreach⟩ := lsWithPath_reaches symbol env s' calls
  have hshort := hready.line.line.short
  have hlonger : s'.x 3 ≠ 2 := by
    rw [hs', hready.line.line.length]
    intro h
    exact hlength ((ofNat_eq_iff (by omega) (b := 2) (by decide)).mp h)
  rw [if_neg hlonger] at hreach
  obtain ⟨c, r, hasks, hsends⟩ := lsDoReaddir_sends symbol env u calls
  exact ⟨u, c, r, hx, hsp, hmem, hasks, hsends.of_reaches hreach rfl⟩

def lsArgument : Argument where
  find := .findLsPath
  found := .foundLsPath
  findEnd := .findLsPathEnd
  missing := .lsNoArgs
  behind := .lsPathFound
  atEnd := .lsPathFound
  starts := [5, 6]
  index := 6
  before := 5
  within := 7

theorem lsArgument_coded : lsArgument.Coded :=
  ⟨rfl, rfl, rfl, rfl, by decide, by decide, by decide, by decide, by decide⟩

theorem lsNoArgs_reaches (s : State) (calls : Calls) :
    Reaches (shell symbol) env .printPrompt ⟨.lsNoArgs, s, calls⟩ ⟨.lsWithPath, s, calls⟩ :=
  Reaches.single (show Label.lsNoArgs ≠ .printPrompt by decide) rfl

variable (env) in
/-- Behind `ls` and a space, the first argument is listed; without one, something is. -/
theorem findLsPath_sends {pre rest : Str} (hready : ListReady symbol s text)
    (htext : text = pre ++ rest) (hpre : 2 < pre.length) (hat : At s 4 pre) (calls : Calls) :
    ∃ call, Sends symbol env ⟨.findLsPath, s, calls⟩ [call] ∧
      ∀ path args, components space rest = path :: args →
        Carries call.1 (.onPath msgReadDir path) := by
  have hlength : text.length ≠ 2 := by
    rw [htext, List.length_append]
    omega
  obtain ⟨s₁, hkeeps₁, ⟨hnone, hreach⟩ | ⟨pre', arg, rest', htext', hle, harg, hcomp, hstarts, hend,
    hreach⟩⟩ := lsArgument.reaches symbol env calls lsArgument_coded htext
      (hready.line.mono (Nat.zero_le _)) hat
  · obtain ⟨u, c, r, -, -, -, -, hsends⟩ := lsWithPath_sends env hready hlength
      (hkeeps₁.x 3 (by decide)) calls
    refine ⟨_, hsends.of_reaches (hreach.trans (lsNoArgs_reaches s₁ calls)) rfl, ?_⟩
    intro path args hpath
    rw [hnone] at hpath
    cases hpath
  · have hready₁ := hready.keeps hkeeps₁ (by decide) (by decide)
    have hshort := hready₁.line.line.short
    have hat₅ : At s₁ 5 pre' := hstarts 5 (by decide) (by decide) (by decide)
    have hat₆ : At s₁ 6 (pre' ++ arg) := hend
    have hlen : text.length = pre'.length + arg.length + rest'.length := by
      rw [htext', List.length_append, List.length_append]
    have hne : s₁.x 6 ≠ s₁.x 5 := hat₅.ne hat₆ harg (by rw [List.length_append]; omega)
    obtain ⟨s₂, hx9, hx3, hsp, hmem, hreach₂⟩ := lsPathFound_reaches symbol env s₁ calls hne
    obtain ⟨u, c, r, hux, husp, humem, hasks, hsends⟩ := lsWithPath_sends env hready₁ hlength hx3 calls
    have hreach' := (hreach.elim And.right And.right).trans hreach₂
    refine ⟨_, hsends.of_reaches hreach' rfl, ?_⟩
    intro path args hpath
    obtain ⟨rfl, -⟩ : arg = path ∧ components space rest' = args := by
      rw [hcomp] at hpath
      exact List.cons.inj hpath
    have hx9' : u.x 9 = s₁.x 2 + BitVec.ofNat 64 pre'.length := by
      rw [hux, hx9, hat₅]
    apply hasks.carries
    · rw [hx9', humem, hmem, hat₆]
      exact (hready₁.line.line.mono (Nat.zero_le _)).terminated htext' le_rfl hready.line.nul_free
    · intro k hk
      rw [hx9', husp, hsp, add_ofNat_add]
      exact not_within_message (hready₁.deep (pre'.length + k) (by omega))

/-- The check of `ls` sends what the line asks for exactly when the line has an argument or nothing
behind the word. -/
theorem checkLs_sends (hkeeps : KeepsCaller env) (hrefuses : RefusesCwd env)
    (hready : ListReady symbol s text) (hls : commandWord text = ascii "ls") (calls : Calls) :
    ∃ sent, Sends symbol env ⟨.checkLs, s, calls⟩ sent ∧
      (Lists (arguments text) sent ↔ text = ascii "ls" ∨ arguments text ≠ []) := by
  have hspace : space ∉ ascii "ls" := by decide
  obtain ⟨s₁, hkeeps₁, ⟨hword, hreach⟩ | ⟨⟨args, rfl, hat⟩, hreach⟩ | ⟨hne, -⟩⟩ :=
    checkArguments_reaches env (show code .checkLs = checkArguments (ascii "ls") .lsNoArgs .checkTouch from rfl)
      (by decide) (by decide) hspace hready.toReady calls
  · have hready₁ := hready.keeps hkeeps₁ (by decide) (by decide)
    obtain ⟨u, -, husp, humem, hreach₁⟩ := lsWithPath_reaches symbol env s₁ calls
    have hlength : s₁.x 3 = 2 := by
      rw [hready₁.line.line.length, hword]
      rfl
    rw [if_pos hlength] at hreach₁
    obtain ⟨sent, hsends, hlists⟩ := lsGetCwd_sends (s := u) hkeeps hrefuses (humem ▸ hready₁.root)
      (fun k hk => husp ▸ not_within_message (hready₁.rootDeep k hk)) calls
    refine ⟨sent, hsends.of_reaches ((hreach.trans (lsNoArgs_reaches s₁ calls)).trans hreach₁) rfl,
      fun _ => .inl hword, fun _ => ?_⟩
    rw [hword, arguments_self hspace]
    exact hlists
  · have hready₁ := hready.keeps hkeeps₁ (by decide) (by decide)
    obtain ⟨call, hsends, hcarries⟩ := findLsPath_sends env hready₁
      (show ascii "ls" ++ space :: args = ascii "ls" ++ [space] ++ args by simp) (by decide) hat calls
    refine ⟨[call], hsends.of_reaches hreach rfl, ?_⟩
    rw [arguments_append hspace]
    constructor
    · intro hlists
      right
      intro hnone
      rw [hnone] at hlists
      cases hlists
    · rintro (hself | hsome)
      · exact absurd (congrArg List.length hself) (by simp)
      · obtain ⟨path, more, hpath⟩ := List.exists_cons_of_ne_nil hsome
        rw [hpath]
        exact .argument (hcarries path more hpath)
  · exact absurd hls hne

/-- The checks in front of `check_ls` let the line through. -/
theorem checkOtherCommands_reaches (hready : Ready symbol s text) (hls : commandWord text = ascii "ls")
    (env : Environment) (calls : Calls) : ∃ s', Keeps [4] s s' ∧ Reaches (shell symbol) env .printPrompt
      ⟨.checkOtherCommands, s, calls⟩ ⟨.checkLs, s', calls⟩ := by
  have hne : ∀ word, commandWord word ≠ ascii "ls" → text ≠ word :=
    fun word hword heq => hword (heq ▸ hls)
  obtain ⟨s₁, hkeeps₁, hreach₁⟩ := checkWhole_reaches .checkOtherCommands (ascii "sysname") rfl
    (by decide) (by decide) hready (hne _ (by decide)) env calls
  have hready₁ := hready.keeps hkeeps₁ (by decide) (by decide)
  obtain ⟨s₂, hkeeps₂, hreach₂⟩ := checkWhole_reaches .checkHelp (ascii "help") rfl
    (by decide) (by decide) hready₁ (hne _ (by decide)) env calls
  have hready₂ := hready₁.keeps hkeeps₂ (by decide) (by decide)
  obtain ⟨s₃, hkeeps₃, hreach₃⟩ := checkWhole_reaches .checkClear (ascii "clear") rfl
    (by decide) (by decide) hready₂ (hne _ (by decide)) env calls
  exact ⟨s₃, (hkeeps₁.trans hkeeps₂).trans hkeeps₃, (hreach₁.trans hreach₂).trans hreach₃⟩

theorem processCommand_sends (hkeeps : KeepsCaller env) (hrefuses : RefusesCwd env)
    (hready : ListReady symbol s text) (hls : commandWord text = ascii "ls") (calls : Calls) :
    ∃ sent, Sends symbol env ⟨.processCommand, s, calls⟩ sent ∧
      (Lists (arguments text) sent ↔ text = ascii "ls" ∨ arguments text ≠ []) := by
  obtain ⟨label, s₁, call, hnumber, hready₁, hx₁, hsp₁, hreach₁, hlabel⟩ :=
    processCommand_reaches hkeeps hready.toReady calls
  obtain rfl : label = .checkOtherCommands := by
    rcases hlabel with hlabel | ⟨-, rfl | hecho⟩
    · exact hlabel
    · exact absurd hls (by decide)
    · exact absurd (hecho.symm.trans hls) (by decide)
  have hlist₁ : ListReady symbol s₁ text := by
    refine ⟨hready₁, ?_, ?_⟩
    · rw [hx₁, hsp₁]
      exact hready.deep
    · rw [hsp₁]
      exact hready.rootDeep
  obtain ⟨s₂, hkeeps₂, hreach₂⟩ := checkOtherCommands_reaches hready₁ hls env (calls ++ [call])
  obtain ⟨sent, hsends, hlists⟩ := checkLs_sends hkeeps hrefuses
    (hlist₁.keeps hkeeps₂ (by decide) (by decide)) hls (calls ++ [call])
  have hnone : exchanges [call] = [] := exchanges_none fun c hc => List.mem_singleton.mp hc ▸ hnumber
  refine ⟨sent, hsends.of_reaches (hreach₁.trans hreach₂) ?_, hlists⟩
  rw [exchanges_append, hnone, List.append_nil]

end Lines

/-- A line `ls` lists its first argument or the current directory exactly when it has an argument or
nothing behind the word. -/
theorem shell_lists_iff (symbol : Symbol → Word) (env : Environment) (hkeeps : KeepsCaller env)
    (hrefuses : RefusesCwd env) (s : State) (text : Str) (hready : ListReady symbol s text)
    (hls : commandWord text = ascii "ls") (calls : Calls) :
    ∃ n sent, (∀ m, n ≤ m →
      exchanges (runTo (shell symbol) env .printPrompt m ⟨.processCommand, s, calls⟩).calls =
        exchanges calls ++ sent) ∧
      (Lists (arguments text) sent ↔ text = ascii "ls" ∨ arguments text ≠ []) := by
  obtain ⟨sent, hsends, hlists⟩ := processCommand_sends hkeeps hrefuses hready hls calls
  obtain ⟨n, hn⟩ := hsends.settles hkeeps
  exact ⟨n, sent, hn, hlists⟩

/-- A line of the length is in the buffer at 4096, the text of the root at 8192, and 4660 in `x9`. -/
def listLine (text : Str) : State where
  x r := if r = 2 then 4096 else if r = 3 then BitVec.ofNat 64 text.length else if r = 9 then 4660 else 0
  sp := 65536
  zero := false
  less := false
  mem a := if a = 8192 then 47 else (text.getD (a - 4096).toNat 0).toBitVec

theorem listLine_ready {text : Str} (hnul : 0 ∉ text) (hshort : text.length ≤ 63) :
    ListReady (fun _ => 8192) (listLine text) text := by
  have hmem : ∀ k < 4096, (listLine text).mem (4096 + BitVec.ofNat 64 k) =
      (text.getD k 0).toBitVec := by
    intro k hk
    have hne : 4096 + BitVec.ofNat 64 k ≠ 8192 := by bv_omega
    have hindex : (4096 + BitVec.ofNat 64 k - 4096).toNat = k := by bv_omega
    refine (if_neg hne).trans ?_
    rw [hindex]
  have hbuffer : ∀ k < 64, ¬ (4096 + BitVec.ofNat 64 k - (65536 - 4704) : Word).toNat < 4704 := by
    decide +kernel
  have hroot : ∀ k < 2, ¬ (8192 + BitVec.ofNat 64 k - (65536 - 4704) : Word).toNat < 4704 := by
    decide +kernel
  have hbuffer' : ∀ k < 64, ¬ (4096 + BitVec.ofNat 64 k - (65536 - 96) : Word).toNat < 96 := by
    decide +kernel
  have hroot' : ∀ k < 2, ¬ (8192 + BitVec.ofNat 64 k - (65536 - 96) : Word).toNat < 96 := by
    decide +kernel
  have hapart : ∀ j < 2, ∀ k < 64, (8192 + BitVec.ofNat 64 j : Word) ≠ 4096 + BitVec.ofNat 64 k := by
    decide +kernel
  refine ⟨⟨⟨hnul, ⟨rfl, hshort, ?_⟩, hbuffer'⟩, ⟨by decide, ?_, ?_⟩, hroot', hapart⟩, hbuffer, hroot⟩
  · intro k hk _
    change (listLine text).mem (4096 + BitVec.ofNat 64 k) = _
    rw [hmem k (by omega), List.getD_eq_getElem _ _ hk]
  · intro k hk
    obtain rfl : k = 0 := Nat.lt_one_iff.mp hk
    rfl
  · change (text.getD 4097 0).toBitVec = 0
    rw [List.getD_eq_default _ _ (by omega)]
    rfl

/-- The argument of `ls  /a b` is listed. -/
theorem shell_lists_argument : ∃ n sent, (∀ m, n ≤ m →
      exchanges (runTo (shell fun _ => 8192) agreeing .printPrompt m
        ⟨.processCommand, listLine (ascii "ls  /a b"), []⟩).calls = exchanges [] ++ sent) ∧
      (Lists [ascii "/a", ascii "b"] sent ↔
        ascii "ls  /a b" = ascii "ls" ∨ [ascii "/a", ascii "b"] ≠ []) :=
  shell_lists_iff (fun _ => 8192) agreeing agreeing_keeps (fun _ _ _ _ _ => rfl)
    (listLine (ascii "ls  /a b")) (ascii "ls  /a b") (listLine_ready (by decide) (by decide))
    (by decide) []

/-- With a space behind `ls`, the only message is about the path that `x9` happens to point to. -/
theorem spaced_ls_lists_x9 :
    commandWord (ascii "ls ") = ascii "ls" ∧ ListReady (fun _ => 8192) (listLine (ascii "ls ")) (ascii "ls ") ∧
      ((exchanges (runTo (shell fun _ => 8192) agreeing .printPrompt 9
        ⟨.processCommand, listLine (ascii "ls "), []⟩).calls).map fun call =>
          (load call.1.mem (call.1.x 0), load call.1.mem (call.1.x 0 + 8))) = [(12, 4660)] ∧
      ∃ n, ∀ m, n ≤ m → ¬ Lists (arguments (ascii "ls ")) (exchanges (runTo (shell fun _ => 8192)
        agreeing .printPrompt m ⟨.processCommand, listLine (ascii "ls "), []⟩).calls) := by
  have hready : ListReady (fun _ => 8192) (listLine (ascii "ls ")) (ascii "ls ") :=
    listLine_ready (by decide) (by decide)
  refine ⟨by decide, hready, by decide +kernel, ?_⟩
  obtain ⟨sent, hsends, hlists⟩ := processCommand_sends agreeing_keeps (fun _ _ _ _ _ => rfl) hready
    (by decide) []
  obtain ⟨n, hn⟩ := hsends.settles agreeing_keeps
  refine ⟨n, fun m hm => ?_⟩
  rw [hn m hm]
  exact mt hlists.mp (by decide)

end Chthon.UserShell
