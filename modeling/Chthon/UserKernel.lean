import Chthon.UserServices
import Chthon.UserShellLine
import Chthon.UserShellStack
import Chthon.UserShellTyping

/-! The user shell on top of the kernel. Its system calls are traps that `handle_sync_exception`
answers, with the message decoded from memory by the layout of `struct Message`; what is typed at a
prompt comes out as one service of the kernel, or as none. -/

namespace Chthon.UserShell

open Arm64 (Word Within load)
open BasicBlocks LineEditor PathText

/-- The memory of the program as the kernel reads it. -/
def userMemory (m : Arm64.Memory) : ByteMemory.Memory :=
  fun a => UInt8.ofBitVec (m (BitVec.ofNat 64 a))

/-- An `int` in the lower or the upper half of a doubleword. -/
def intAt (w : Word) (shift : Nat) : Int := ((w >>> shift).setWidth 32).toInt

/-- The `struct Message` at an address. -/
def messageAt (m : Arm64.Memory) (a : Word) : Message where
  type := (load m a).toNat
  path := (load m (a + 8)).toNat
  argv := (load m (a + 16)).toNat
  data := (load m (a + 24)).toNat
  size := (load m (a + 32)).toNat
  flags := (load m (a + 40)).setWidth 32
  fd := intAt (load m (a + 40)) 32
  pid := intAt (load m (a + 48)) 0
  status := intAt (load m (a + 48)) 32
  entry := (load m (a + 56)).toNat
  direntCount := (load m (a + 72)).toNat
  character := UInt8.ofBitVec (m (a + 80))
  string := (load m (a + 88)).toNat

/-- The trap of an `svc`. The shell names its own memory for all answers, wherever that is placed. -/
def trapOf (out : Outside) (s : State) : SystemCall where
  out := out
  user := userMemory s.mem
  msgs := messageAt s.mem
  trap := ⟨0x56000000, s.x 0, s.x 1, s.x 2, s.x 8⟩
  stray := id

/-- The kernel has answered the calls, one after the other, and gone on to the next state each time.
A program is not answered that it has halted. -/
inductive Served (k : Kernel) : Calls → Kernel → Prop
  | nil : Served k [] k
  | snoc {calls : Calls} {k₁ k' : Kernel} {asked reply : State} (out : Outside) :
      Served k calls k₁ → systemCall k₁ (trapOf out asked) = some (.resumed (reply.x 0), k') →
        Served k (calls ++ [(asked, reply)]) k'

/-- What the kernel does for a line. -/
def lineServed (k : Kernel) (line : Str) : Option Kernel :=
  match request line with
  | none => some k
  | some wanted => served k wanted

/-- What the kernel does for one line after the other. -/
def linesServed (k : Kernel) (lines : List Str) : Option Kernel := lines.foldlM lineServed k

theorem lineServed_withUser (k : Kernel) (u : ByteMemory.Memory) (line : Str) :
    lineServed (k.withUser u) line = (lineServed k line).map fun k => k.withUser u := by
  rw [lineServed, lineServed]
  cases request line with
  | none => rfl
  | some wanted => exact served_withUser k u wanted

theorem linesServed_withUser (k : Kernel) (u : ByteMemory.Memory) (lines : List Str) :
    linesServed (k.withUser u) lines = (linesServed k lines).map fun k => k.withUser u := by
  induction lines generalizing k with
  | nil => rfl
  | cons line lines ih =>
      change (lineServed (k.withUser u) line).bind (fun k => linesServed k lines) =
        ((lineServed k line).bind fun k => linesServed k lines).map fun k => k.withUser u
      rw [lineServed_withUser]
      cases lineServed k line with
      | none => rfl
      | some k₁ => exact ih k₁

/-- The data of the shell at a prompt: the text of the root is in place, and neither it nor the buffer
is where messages go. -/
structure Layout (symbol : Symbol → Word) (s : State) : Prop where
  root : StringAt s.mem (symbol .rootPath) (ascii "/")
  rootOff : OffStack s (symbol .rootPath) 2
  bufferOff : OffStack s (symbol .inputBuffer) 64
  apart : ∀ j < 2, ∀ k < 64,
    symbol .rootPath + BitVec.ofNat 64 j ≠ symbol .inputBuffer + BitVec.ofNat 64 k

/-! Which messages the shell sends. -/

section Requests

variable {text : Str} {wanted : Request}

theorem argument_short {arg : Str} (h : arg ∈ arguments text) : arg.length ≤ text.length := by
  have hlen : (render space (arguments text)).length ≤
      (text.drop (commandWord text).length).length + 1 :=
    PathResolution.length_render_components _
  have hpart : arg.length + 1 ≤ (render space (arguments text)).length := by
    rw [render, List.length_flatMap]
    exact List.le_sum_of_mem (List.mem_map.mpr ⟨arg, h, rfl⟩)
  have hdrop := List.length_drop (i := (commandWord text).length) (l := text)
  omega

theorem requestPath_known {type : Nat}
    (htype : type ∈ [msgCreate, msgMkdir, msgChdir, msgRemove, msgUnbind]) (hshort : text.length ≤ 63)
    (h : requestPath type (arguments text) = some wanted) : Known wanted := by
  cases hargs : arguments text with
  | nil =>
      rw [hargs] at h
      cases h
  | cons path args =>
      have hpath : path ∈ arguments text := hargs ▸ List.mem_cons_self
      rw [hargs] at h
      cases h
      exact .onPath htype ((argument_short hpath).trans hshort)

theorem requestPaths_known {type : Nat} (htype : type ∈ [msgCopy, msgMove, msgBind])
    (hshort : text.length ≤ 63) (h : requestPaths type (arguments text) = some wanted) :
    Known wanted := by
  match hargs : arguments text with
  | [] | [_] =>
      rw [hargs] at h
      cases h
  | source :: target :: args =>
      have hsource : source ∈ arguments text := hargs ▸ List.mem_cons_self
      have htarget : target ∈ arguments text := hargs ▸ by simp
      rw [hargs] at h
      cases h
      exact .onPaths htype ((argument_short hsource).trans hshort)
        ((argument_short htarget).trans hshort)

theorem request_known (hshort : text.length ≤ 63) (h : request text = some wanted) :
    Known wanted := by
  simp only [request] at h
  split_ifs at h
  · exact requestPath_known (by simp) hshort h
  · exact requestPath_known (by simp) hshort h
  · cases h
    exact .getcwd
  · cases hargs : arguments text with
    | nil =>
        rw [hargs] at h
        cases h
        exact .onPath (by simp) (by decide)
    | cons path args =>
        rw [hargs] at h
        have hchdir : requestPath msgChdir (arguments text) = some wanted := hargs ▸ h
        exact requestPath_known (by simp) hshort hchdir
  · exact requestPaths_known (by simp) hshort h
  · exact requestPath_known (by simp) hshort h
  · exact requestPaths_known (by simp) hshort h
  · cases hargs : arguments text with
    | nil =>
        rw [hargs] at h
        cases h
    | cons source rest =>
        cases rest with
        | nil =>
            rw [hargs] at h
            cases h
        | cons target args =>
            have hsource : source ∈ arguments text := hargs ▸ List.mem_cons_self
            have htarget : target ∈ arguments text := hargs ▸ by simp
            rw [hargs] at h
            cases h
            exact .onPaths (by simp) ((argument_short htarget).trans hshort)
              ((argument_short hsource).trans hshort)
  · exact requestPath_known (by simp) hshort h

end Requests

/-! From the message to the service. -/

section Messages

variable {k k' k₁ : Kernel} {r : State} {out : Outside} {msg' : Message} {result : Int}

theorem StringAt.text {m : Arm64.Memory} {a : Word} {text : Str} (h : StringAt m a text)
    (hshort : text.length ≤ 63) (k : Kernel) :
    (k.withUser (userMemory m)).text a.toNat = some text := by
  have hbyte : ∀ n, userMemory m (a.toNat + n) = UInt8.ofBitVec (m (a + BitVec.ofNat 64 n)) := by
    intro n
    rw [userMemory, BitVec.ofNat_add, BitVec.ofNat_toNat, BitVec.setWidth_eq]
  apply stringWithin_eq h.nul_free (hshort.trans_lt (by decide))
  · intro n hn
    change userMemory m (a.toNat + n) = text[n]
    rw [hbyte, h.chars n hn]
  · change userMemory m (a.toNat + text.length) = 0
    rw [hbyte, h.nul]
    rfl

theorem toNat_type {type : Nat} (h : type < 256) : (BitVec.ofNat 64 type).toNat = type := by
  rw [BitVec.toNat_ofNat]
  omega

/-- A message that is not refused gets the service it carries the request for. -/
theorem Carries.served {wanted : Request} (hknown : Known wanted) (h : Carries r wanted)
    (hsent : Chthon.sendMessage out (k.withUser (userMemory r.mem)) (messageAt r.mem (r.x 0)) =
      some (result, msg', k')) (hresult : 0 ≤ result) :
    ∃ k₁ u, Chthon.served k wanted = some k₁ ∧ k' = k₁.withUser u := by
  cases hknown with
  | getcwd =>
      have htype : (messageAt r.mem (r.x 0)).type = msgGetcwd := by
        rw [messageAt, h]
        exact toNat_type (by decide)
      have hgetcwd : MsgType.all[(messageAt r.mem (r.x 0)).type]? = some .getcwd := by
        rw [htype]
        rfl
      rw [Chthon.sendMessage, hgetcwd] at hsent
      obtain ⟨u, rfl⟩ := getcwdMessage_served (Option.some.inj hsent)
      exact ⟨k, u, rfl, rfl⟩
  | @onPath type path htypes hshort =>
      have htype : (messageAt r.mem (r.x 0)).type = type := by
        rw [messageAt, h.1]
        apply toNat_type
        simp only [List.mem_cons, List.not_mem_nil, or_false] at htypes
        rcases htypes with rfl | rfl | rfl | rfl | rfl <;> decide
      obtain ⟨k₁, hserved, rfl⟩ := onPath_served htypes htype (h.2.text hshort k) hsent hresult
      exact ⟨k₁, _, hserved, rfl⟩
  | @onPaths type path data htypes hshort hshort' =>
      have htype : (messageAt r.mem (r.x 0)).type = type := by
        rw [messageAt, h.1]
        apply toNat_type
        simp only [List.mem_cons, List.not_mem_nil, or_false] at htypes
        rcases htypes with rfl | rfl | rfl <;> decide
      obtain ⟨k₁, hserved, rfl⟩ := onPaths_served htypes htype (h.2.1.text hshort k)
        (h.2.2.text hshort' k) hsent hresult
      exact ⟨k₁, _, hserved, rfl⟩

end Messages

/-! The calls of a line. -/

section Calls

variable {k k' : Kernel} {calls : Calls}

theorem trapOf_message (out : Outside) (s : State) : (trapOf out s).message =
    if s.x 8 = 4 then some (messageAt s.mem (s.x 0)) else none := by
  have hsvc : (trapOf out s).trap.ec = classSvc := by
    change ((0x56000000 : Word) >>> 26) &&& 0x3F = 0x15
    decide
  rw [SystemCall.message]
  exact if_congr (and_iff_right hsvc) rfl rfl

/-- What the handler makes of the trap, but for the memory of programs. -/
theorem systemCall_trapOf {out : Outside} {asked : State} {ended : TrapEnd}
    (h : systemCall k (trapOf out asked) = some (ended, k')) :
    ∃ msgs' k₁ u, syncHandler out (k.withUser (userMemory asked.mem)) (messageAt asked.mem)
      (trapOf out asked).trap = some (ended, msgs', k₁) ∧ k' = k₁.withUser u := by
  obtain ⟨⟨ended', msgs', k₁⟩, hsync, heq⟩ := Option.map_eq_some_iff.mp h
  obtain ⟨rfl, rfl⟩ := Prod.mk.inj heq
  have huser : ∃ u, (trapOf out asked).answered ended' msgs' k₁ = k₁.withUser u := by
    rw [SystemCall.answered]
    split_ifs
    · cases (trapOf out asked).message with
      | none => exact ⟨k₁.user, rfl⟩
      | some msg => exact ⟨_, rfl⟩
    · exact ⟨k₁.user, rfl⟩
  obtain ⟨u, hu⟩ := huser
  exact ⟨msgs', k₁, u, hsync, hu⟩

theorem Served.concat {call : State × State} (h : Served k (calls ++ [call]) k') :
    ∃ k₁, Served k calls k₁ ∧ ∀ prior k₀, Served k₀ prior k₁ → Served k₀ (prior ++ [call]) k' := by
  generalize hall : calls ++ [call] = all at h
  cases h with
  | nil => exact absurd hall (by simp)
  | @snoc calls' k₁ _ asked reply out hprior hcall =>
      obtain ⟨rfl, hlast⟩ := List.append_inj' hall rfl
      obtain rfl : call = (asked, reply) := List.head_eq_of_cons_eq hlast
      exact ⟨k₁, hprior, fun _ _ h => h.snoc out hcall⟩

/-- The kernel in between. -/
theorem Served.split {later : Calls} (h : Served k (calls ++ later) k') :
    ∃ k₁, Served k calls k₁ ∧ Served k₁ later k' := by
  induction later using List.reverseRecOn generalizing k' with
  | nil => exact ⟨k', by rwa [List.append_nil] at h, .nil⟩
  | append_singleton later call ih =>
      rw [← List.append_assoc] at h
      obtain ⟨k₂, hprior, hlast⟩ := h.concat
      obtain ⟨k₁, hfirst, hlater⟩ := ih hprior
      exact ⟨k₁, hfirst, hlast later k₁ hlater⟩

/-- A program that is resumed has not been refused. -/
theorem resumed_not_refused {c : SystemCall} {reply : State}
    (h : systemCall k c = some (.resumed (reply.x 0), k')) : ¬Refused reply := by
  obtain ⟨answer, hhandler, heq⟩ := Option.map_eq_some_iff.mp h
  obtain ⟨⟨value, msgs, k₁⟩, -, rfl⟩ := Option.map_eq_some_iff.mp hhandler
  obtain ⟨hend, -⟩ := Prod.mk.inj heq
  dsimp only at hend
  split_ifs at hend with hhigh
  cases hend
  rw [Refused]
  intro hneg
  have hsmall : (reply.x 0).toNat < 2 ^ 32 := by
    have hshift := congrArg BitVec.toNat hhigh
    rw [BitVec.toNat_ushiftRight, Nat.shiftRight_eq_div_pow] at hshift
    change _ = 0 at hshift
    omega
  rw [BitVec.slt_eq_decide, decide_eq_true_eq, BitVec.toInt_eq_toNat_of_lt (by omega)] at hneg
  change ((reply.x 0).toNat : Int) < 0 at hneg
  omega

theorem Served.left (h : Served k calls k') : left calls = 0 := by
  induction h with
  | nil => rfl
  | @snoc calls k₁ k' asked reply out _ hcall ih =>
      rw [left_append, ih, left_one, if_neg fun hleft => resumed_not_refused hcall hleft.2.2.2]

/-- Without a message the kernel stays as it is. -/
theorem Served.quiet (h : Served k calls k') (hnone : messages calls = []) :
    ∃ u, k' = k.withUser u := by
  induction h with
  | nil => exact ⟨k.user, rfl⟩
  | @snoc calls k₁ k' asked reply out _ hcall ih =>
      rw [messages_append, List.append_eq_nil_iff] at hnone
      obtain ⟨u, rfl⟩ := ih hnone.1
      have hnumber : asked.x 8 ≠ 4 := by
        intro hnumber
        rw [messages_one hnumber] at hnone
        cases hnone.2
      have hmessage : (trapOf out asked).message = none := by
        rw [trapOf_message, if_neg hnumber]
      obtain ⟨msgs', k₂, u', hsync, rfl⟩ := systemCall_trapOf hcall
      rcases syncHandler_cases hsync with ⟨rfl, -⟩ | ⟨msg, -, hsome, -⟩
      · exact ⟨u', rfl⟩
      · rw [hmessage] at hsome
        cases hsome

/-- One message, answered and not refused. -/
theorem Served.one {r : State} (h : Served k calls k') (hone : messages calls = [r]) :
    ∃ out result msg' k₁ u, Chthon.sendMessage out (k.withUser (userMemory r.mem))
        (messageAt r.mem (r.x 0)) = some (result, msg', k₁) ∧ 0 ≤ result ∧ k' = k₁.withUser u := by
  induction h with
  | nil => cases hone
  | @snoc calls k₁ k' asked reply out hprior hcall ih =>
      rw [messages_append] at hone
      by_cases hnumber : asked.x 8 = 4
      · rw [messages_one hnumber] at hone
        have hsplit : messages calls ++ [asked] = [] ++ [r] := hone
        obtain ⟨hquiet, hasked⟩ := List.append_inj' hsplit rfl
        obtain rfl : asked = r := List.head_eq_of_cons_eq hasked
        obtain ⟨u, rfl⟩ := hprior.quiet hquiet
        obtain ⟨msgs', k₂, u', hsync, rfl⟩ := systemCall_trapOf hcall
        rcases syncHandler_cases hsync with ⟨-, hnone⟩ | ⟨msg, result, hsome, hsent, hend⟩
        · rw [trapOf_message, if_pos hnumber] at hnone
          cases hnone
        · rw [trapOf_message, if_pos hnumber] at hsome
          obtain rfl := Option.some.inj hsome
          exact ⟨out, result, _, k₂, u', hsent, hend.resolve_left (by simp), rfl⟩
      · have hlast : messages [(asked, reply)] = [] :=
          messages_none fun call hcall => List.mem_singleton.mp hcall ▸ hnumber
        rw [hlast, List.append_nil] at hone
        obtain ⟨out', result, msg', k₂, u, hsent, hresult, rfl⟩ := ih hone
        have hmessage : (trapOf out asked).message = none := by
          rw [trapOf_message, if_neg hnumber]
        obtain ⟨msgs', k₃, u', hsync, rfl⟩ := systemCall_trapOf hcall
        rcases syncHandler_cases hsync with ⟨rfl, -⟩ | ⟨msg, -, hsome, -⟩
        · exact ⟨out', result, msg', k₂, u', hsent, hresult, rfl⟩
        · rw [hmessage] at hsome
          cases hsome

/-- The messages of the line make the kernel serve it. -/
theorem Served.line {text : Str} {sent : List State} (hshort : text.length ≤ 63)
    (h : Served k calls k') (hmessages : messages calls = sent)
    (hsent : List.Forall₂ Carries sent (request text).toList) :
    ∃ k₁ u, lineServed k text = some k₁ ∧ k' = k₁.withUser u := by
  rw [lineServed]
  cases hrequest : request text with
  | none =>
      rw [hrequest] at hsent
      cases hsent
      obtain ⟨u, rfl⟩ := h.quiet hmessages
      exact ⟨k, u, rfl, rfl⟩
  | some wanted =>
      rw [hrequest] at hsent
      cases hsent with
      | cons hcarries hnil =>
          cases hnil
          obtain ⟨out, result, msg', k₁, u, hsent, hresult, rfl⟩ := h.one hmessages
          obtain ⟨k₂, u', hserved, rfl⟩ :=
            hcarries.served (request_known hshort hrequest) hsent hresult
          exact ⟨k₂, u, hserved, rfl⟩

end Calls

/-! From the prompt to the command. -/

section Prompt

variable {symbol : Symbol → Word} {env : Environment} {c : Config Label} {keys : Str}

/-- The labels between a prompt and the command. -/
def editing : Label → Bool
  | .inputLoop | .handleBackspace | .processCommand => true
  | _ => false

theorem editing_exits (label : Label) (h : editing label = true ∨ label = .printPrompt)
    (hcommand : label ≠ .processCommand) :
    ∀ l ∈ exits next label (code label), editing l = true := by
  rcases h with h | rfl
  · cases label <;> first | exact absurd h (by decide) | exact absurd rfl hcommand | decide
  · decide

theorem editing_calls (label : Label) (h : editing label = true ∨ label = .printPrompt)
    (hcommand : label ≠ .processCommand) : callsOnly (· ≠ 4) none (code label) = true := by
  rcases h with h | rfl
  · cases label <;> first | exact absurd h (by decide) | exact absurd rfl hcommand | decide
  · decide

/-- No message is sent before the line is complete, and there is no prompt on the way. -/
theorem editing_run (hkeeps : KeepsCaller env) (hprompt : c.label = .printPrompt) (j : Nat)
    (hbefore : ∀ i < j, (run (shell symbol) env i c).label ≠ .processCommand) :
    exchanges (run (shell symbol) env j c).calls = exchanges c.calls ∧
      (0 < j → editing (run (shell symbol) env j c).label = true) := by
  induction j with
  | zero => exact ⟨rfl, fun h => absurd h (lt_irrefl 0)⟩
  | succ j ih =>
      obtain ⟨hsame, hediting⟩ := ih fun i hi => hbefore i (hi.trans (Nat.lt_succ_self j))
      have hcommand := hbefore j (Nat.lt_succ_self j)
      have hlabel : editing (run (shell symbol) env j c).label = true ∨
          (run (shell symbol) env j c).label = .printPrompt := by
        rcases Nat.eq_zero_or_pos j with rfl | hpos
        · exact .inr hprompt
        · exact .inl (hediting hpos)
      rw [run_succ]
      refine ⟨?_, fun _ => editing_exits _ hlabel hcommand _ runBlock_label⟩
      calc exchanges (step (shell symbol) env (run (shell symbol) env j c)).calls
          = exchanges (run (shell symbol) env j c).calls :=
            runBlock_exchanges hkeeps (editing_calls _ hlabel hcommand) _ _
        _ = exchanges c.calls := hsame

/-- CR or LF behind the keys ends the line. -/
theorem line_entered (hkeeps : KeepsLine env) (hprompt : c.label = .printPrompt)
    (hpointer : c.state.x 2 = symbol .inputBuffer) (hempty : c.state.x 3 = 0)
    (hkeys : 13 ∉ keys ∧ 10 ∉ keys) {last : UInt8} (hlast : last = 13 ∨ last = 10)
    (htypes : Types env c.calls (keys ++ [last])) :
    ∃ j, (run (shell symbol) env j c).label = .processCommand ∧
      (∀ i < j, (run (shell symbol) env i c).label ≠ .processCommand) ∧
      Holds symbol c.state.mem (run (shell symbol) env j c).state (typed 63 (keys.map key)) ∧
      gets (run (shell symbol) env j c).calls = gets c.calls + (keys ++ [last]).length := by
  obtain ⟨j, hedits, hgets⟩ := keys_taken hkeeps hprompt hpointer hempty [last] hkeys htypes
  have hget : ∀ s : State, s.x 8 = 2 →
      (env (run (shell symbol) env j c).calls s).x 0 = last.toBitVec.setWidth 64 := by
    intro s hs
    rw [htypes _ s keys.length (by simp) hs hgets]
    simp
  obtain ⟨htook, hone⟩ := inputLoop_step hkeeps hedits.holds (run (shell symbol) env j c).calls hget
  have hrun : run (shell symbol) env (j + 1) c = step (shell symbol) env
      ⟨.inputLoop, (run (shell symbol) env j c).state, (run (shell symbol) env j c).calls⟩ := by
    rw [run_succ, ← hedits.label]
  rw [← hrun] at htook hone
  cases htook with
  | enter _ hlabel hholds _ =>
      refine ⟨j + 1, hlabel, fun i hi => (hedits.editing (by decide) i hi).1, hholds, ?_⟩
      rw [hone, hgets, List.length_append, List.length_singleton, Nat.add_assoc]
  | erase hkey _ _ _ => rcases hlast with rfl | rfl <;> exact absurd hkey (by decide)
  | put henter _ _ _ _ => exact absurd hlast henter

/-- Behind `process_command` no key is asked for before the next prompt. -/
theorem command_run (hkeeps : KeepsCaller env) (hcommand : c.label = .processCommand) (i : Nat)
    (hbefore : ∀ m < i, (run (shell symbol) env m c).label ≠ .printPrompt) :
    gets (run (shell symbol) env i c).calls = gets c.calls ∧
      (run (shell symbol) env i c).label ≠ .inputLoop ∧
      (run (shell symbol) env i c).label ≠ .handleBackspace := by
  have hcalls : ∀ label, label ≠ .inputLoop → callsOnly (· ≠ 2) none (code label) = true := by
    intro label h
    cases label <;> first | exact absurd rfl h | decide
  have hexits : ∀ label, label ≠ .printPrompt → label ≠ .inputLoop → label ≠ .handleBackspace →
      ∀ l ∈ exits next label (code label), l ≠ .inputLoop ∧ l ≠ .handleBackspace := by
    intro label hprompt hloop hback
    cases label <;>
      first | exact absurd rfl hprompt | exact absurd rfl hloop | exact absurd rfl hback | decide
  induction i with
  | zero => exact ⟨rfl, by rw [run_zero, hcommand]; decide⟩
  | succ i ih =>
      obtain ⟨hgets, hloop, hback⟩ := ih fun m hm => hbefore m (hm.trans (Nat.lt_succ_self i))
      rw [run_succ]
      refine ⟨?_, hexits _ (hbefore i (Nat.lt_succ_self i)) hloop hback _ runBlock_label⟩
      obtain ⟨made, hmade, hnumber⟩ := runBlock_callsOnly (p := shell symbol)
        (run (shell symbol) env i c).state (run (shell symbol) env i c).calls
        (run (shell symbol) env i c).label
        (fun calls s => hkeeps.x calls s 8 (by decide) (by decide)) (hcalls _ hloop) (by simp)
      have hnone : gets made = 0 :=
        List.countP_eq_zero.mpr fun call hcall => by simpa using hnumber call hcall
      calc gets (step (shell symbol) env (run (shell symbol) env i c)).calls
          = gets ((run (shell symbol) env i c).calls ++ made) := congrArg gets hmade
        _ = gets c.calls := by rw [gets_append, hnone, hgets, Nat.add_zero]

theorem typed_subset (cap : Nat) (keys : Str) : typed cap (keys.map key) ⊆ keys := by
  induction keys using List.reverseRecOn with
  | nil => exact List.Subset.refl _
  | append_singleton keys b ih =>
      rw [List.map_append, List.map_singleton, typed_concat]
      have hline : typed cap (keys.map key) ⊆ keys ++ [b] :=
        List.Subset.trans ih (List.subset_append_left _ _)
      rw [key]
      split_ifs
      · exact List.Subset.trans (List.dropLast_subset _) hline
      · rw [edit]
        split_ifs
        · exact List.append_subset.mpr ⟨hline, List.subset_append_right _ _⟩
        · exact hline

/-- Where the line is complete, it is ready to be taken apart. -/
theorem Layout.ready {s : State} {text : Str} (h : Layout symbol c.state)
    (hholds : Holds symbol c.state.mem s text) (hsp : s.sp = c.state.sp) (hnul : 0 ∉ text) :
    Ready symbol s text := by
  have hoff : ∀ {a : Word} {n : Nat}, OffStack c.state a n → OffStack s a n := by
    intro a n hoff k hk
    rw [hsp]
    exact hoff k hk
  have houtside : ∀ j < 2, ¬Within (symbol .inputBuffer) 64 (symbol .rootPath + BitVec.ofNat 64 j) := by
    intro j hj hwithin
    refine h.apart j hj _ hwithin ?_
    rw [BitVec.ofNat_toNat, BitVec.setWidth_eq, BitVec.add_comm _ (_ - _), BitVec.sub_add_cancel]
  refine ⟨⟨hnul, hholds.line, ?_⟩, ?_, hoff h.rootOff, ?_⟩
  · rw [hholds.pointer]
    exact hoff h.bufferOff
  · exact h.root.congr fun j hj => hholds.outside _ (houtside j (Nat.lt_succ_of_le hj))
  · rw [hholds.pointer]
    exact h.apart

theorem left_of_exchanges {made : Calls} (h : exchanges made = []) : left made = 0 := by
  apply left_zero
  intro call hcall hleft
  have hmem : call ∈ exchanges made := List.mem_filter.mpr ⟨hcall, by simpa using hleft.1⟩
  rw [h] at hmem
  cases hmem

end Prompt

/-! From prompt to prompt. -/

/-- Keys without CR, LF and NUL, ended by CR or LF, that make a line other than `ls`. -/
structure Entered (line : Str × UInt8) : Prop where
  keys : 13 ∉ line.1 ∧ 10 ∉ line.1
  nul : 0 ∉ line.1
  last : line.2 = 13 ∨ line.2 = 10
  command : commandWord (typed 63 (line.1.map key)) ≠ ascii "ls"

section Sessions

variable {symbol : Symbol → Word} {env : Environment} {s : State} {calls made : Calls} {n₀ n : Nat}
  {c : Config Label} {k k' : Kernel}

/-- From a prompt to the next one: the keys, the edited line, the message in memory and the trap come
down to one service, which was not refused, or to none. The stack is where it was, and no other key was
taken. -/
theorem line_served (hkeeps : KeepsCaller env)
    (hc : run (shell symbol) env n₀ ⟨.userShellStart, s, calls⟩ = c) (hprompt : c.label = .printPrompt)
    (hlayout : Layout symbol c.state) {line : Str × UInt8} (hline : Entered line)
    (htypes : Types env c.calls (line.1 ++ [line.2])) (hpos : 0 < n)
    (hnext : (run (shell symbol) env n c).label = .printPrompt)
    (hbetween : ∀ m, 0 < m → m < n → (run (shell symbol) env m c).label ≠ .printPrompt)
    (hmade : (run (shell symbol) env n c).calls = c.calls ++ made) (hserved : Served k made k') :
    (∃ k₁ u, lineServed k (typed 63 (line.1.map key)) = some k₁ ∧ k' = k₁.withUser u) ∧
      (run (shell symbol) env n c).state.sp = c.state.sp ∧
      gets (run (shell symbol) env n c).calls = gets c.calls + (line.1 ++ [line.2]).length := by
  obtain ⟨hpointer, hempty⟩ := prompt_registers hkeeps.keepsLine s calls n₀ hc
  replace hpointer := hpointer.resolve_left (by rw [hprompt]; decide)
  obtain ⟨j, hlabel, hbefore, hholds, hgets⟩ := line_entered hkeeps.keepsLine hprompt hpointer
    (hempty hprompt) hline.keys hline.last htypes
  obtain ⟨hsame, -⟩ := editing_run hkeeps hprompt j hbefore
  have hjpos : 0 < j := by
    rcases Nat.eq_zero_or_pos j with rfl | hpos
    · rw [run_zero, hprompt] at hlabel
      cases hlabel
    · exact hpos
  have hlt : j < n := by
    by_contra hle
    have hediting := (editing_run hkeeps hprompt n fun i hi => hbefore i (by omega)).2 hpos
    rw [hnext] at hediting
    cases hediting
  -- the stack is where it was at the prompt
  obtain ⟨made', hcalls', hstack⟩ := run_stack symbol hkeeps c j
  have hquiet : exchanges made' = [] := by
    rw [hcalls', exchanges_append] at hsame
    exact List.append_right_eq_self.mp hsame
  have hsp : (run (shell symbol) env j c).state.sp = c.state.sp := by
    rw [left_of_exchanges hquiet, hlabel, hprompt] at hstack
    simpa [depth] using hstack
  have hready := hlayout.ready hholds hsp fun hmem => hline.nul (typed_subset 63 line.1 hmem)
  obtain ⟨settled, sent, hsent, hmessages⟩ := (processCommand_handles hkeeps hready hline.command
    (run (shell symbol) env j c).calls).settles hkeeps
  -- the command runs to the next prompt
  have hstart : (⟨.processCommand, (run (shell symbol) env j c).state,
      (run (shell symbol) env j c).calls⟩ : Config Label) = run (shell symbol) env j c := by
    rw [← hlabel]
  have hrest : run (shell symbol) env (n - j) (run (shell symbol) env j c) =
      run (shell symbol) env n c := by
    rw [← run_add, Nat.sub_add_cancel hlt.le]
  have hcommand : ∀ m < n - j, (run (shell symbol) env m (run (shell symbol) env j c)).label ≠
      .printPrompt := by
    intro m hm
    rw [← run_add]
    exact hbetween (m + j) (by omega) (by omega)
  have hrun : runTo (shell symbol) env .printPrompt (n - j) (run (shell symbol) env j c) =
      run (shell symbol) env n c := by
    rw [runTo_eq_run hcommand, hrest]
  have hend := hmessages (settled + (n - j)) (Nat.le_add_right _ _)
  rw [hstart, runTo_add, hrun, runTo_stays hnext, hmade, messages_append] at hend
  have hnone : messages (run (shell symbol) env j c).calls = messages c.calls :=
    congrArg (List.map Prod.fst) hsame
  rw [hnone] at hend
  refine ⟨hserved.line (typed_length_le _) (List.append_cancel_left hend) hsent, ?_, ?_⟩
  · obtain ⟨made'', hcalls'', hstack'⟩ := run_stack symbol hkeeps c n
    rw [hmade] at hcalls''
    rw [← List.append_cancel_left hcalls'', hserved.left, hnext, hprompt] at hstack'
    simpa [depth] using hstack'
  · rw [← hrest, (command_run hkeeps hlabel (n - j) hcommand).1, hgets]

variable (symbol env) in
/-- How many prompts come after the first step, up to the `n`-th. -/
def prompts (c : Config Label) (n : Nat) : Nat :=
  (List.range n).countP fun m => (run (shell symbol) env (m + 1) c).label = .printPrompt

theorem prompts_add (a b : Nat) : prompts symbol env c (a + b) =
    prompts symbol env c a + prompts symbol env (run (shell symbol) env a c) b := by
  rw [prompts, List.range_add, List.countP_append, List.countP_map, prompts, prompts]
  congr 2
  funext m
  have hindex : a + m + 1 = m + 1 + a := by omega
  change decide ((run (shell symbol) env (a + m + 1) c).label = .printPrompt) = _
  rw [hindex, run_add]

/-- Where prompts have come, there is a first one. -/
theorem first_prompt (h : 0 < prompts symbol env c n) : ∃ m, 0 < m ∧ m ≤ n ∧
    (run (shell symbol) env m c).label = .printPrompt ∧
    (∀ i, 0 < i → i < m → (run (shell symbol) env i c).label ≠ .printPrompt) ∧
    prompts symbol env c m = 1 := by
  rw [prompts, List.countP_pos_iff] at h
  obtain ⟨i, hi, hlabel⟩ := h
  have hex : ∃ m, 0 < m ∧ (run (shell symbol) env m c).label = .printPrompt :=
    ⟨i + 1, Nat.succ_pos i, by simpa using hlabel⟩
  have hleast : ∀ j, 0 < j → j < Nat.find hex → (run (shell symbol) env j c).label ≠ .printPrompt :=
    fun j hpos hj hj' => Nat.find_min hex hj ⟨hpos, hj'⟩
  obtain ⟨hpos, hfirst⟩ := Nat.find_spec hex
  refine ⟨Nat.find hex, hpos, ?_, hfirst, hleast, ?_⟩
  · exact (Nat.find_min' hex ⟨Nat.succ_pos i, by simpa using hlabel⟩).trans (List.mem_range.mp hi)
  · obtain ⟨m, hm⟩ : ∃ m, Nat.find hex = m + 1 := ⟨_, (Nat.succ_pred_eq_of_pos hpos).symm⟩
    rw [hm] at hfirst hleast ⊢
    have hnone : prompts symbol env c m = 0 := by
      rw [prompts, List.countP_eq_zero]
      intro j hj
      have hj' := hleast (j + 1) (Nat.succ_pos j) (Nat.succ_lt_succ (List.mem_range.mp hj))
      simpa using hj'
    have hlast : run (shell symbol) env 1 (run (shell symbol) env m c) =
        run (shell symbol) env (m + 1) c := by rw [← run_add, Nat.add_comm]
    rw [prompts_add, hnone]
    simp [prompts, hlast, hfirst]

theorem Types.prefix {stream rest : Str} (h : Types env calls (stream ++ rest)) :
    Types env calls stream := by
  intro calls' s i hi hs hgets
  rw [h calls' s i (by rw [List.length_append]; omega) hs hgets, List.getElem_append_left hi]

/-- The stream goes on behind the bytes that were taken. -/
theorem Types.rest {calls' : Calls} {stream rest : Str} (h : Types env calls (stream ++ rest))
    (hgets : gets calls' = gets calls + stream.length) : Types env calls' rest := by
  intro calls'' s i hi hs hgets'
  have hstream := h calls'' s (stream.length + i) (by rw [List.length_append]; omega) hs
    (by rw [hgets', hgets, Nat.add_assoc])
  rw [hstream, List.getElem_append_right (Nat.le_add_right _ _)]
  simp

end Sessions

/-- However many lines are typed: at the prompt behind them the kernel has done what they ask for, one
after the other, and nothing else. -/
theorem typed_lines_served (symbol : Symbol → Word) (env : Environment) (hkeeps : KeepsCaller env)
    (s : State) (calls : Calls) (n₀ : Nat) (c : Config Label)
    (hc : run (shell symbol) env n₀ ⟨.userShellStart, s, calls⟩ = c) (hprompt : c.label = .printPrompt)
    (hlayout : Layout symbol c.state) (lines : List (Str × UInt8)) (hlines : ∀ line ∈ lines, Entered line)
    (htypes : Types env c.calls (lines.flatMap fun line => line.1 ++ [line.2])) (n : Nat)
    (hnext : (run (shell symbol) env n c).label = .printPrompt)
    (hcount : prompts symbol env c n = lines.length)
    (hroot : ∀ m ≤ n, (run (shell symbol) env m c).label = .printPrompt →
      StringAt (run (shell symbol) env m c).state.mem (symbol .rootPath) (ascii "/")) (made : Calls)
    (hmade : (run (shell symbol) env n c).calls = c.calls ++ made) (k k' : Kernel)
    (hserved : Served k made k') :
    ∃ k₁ u, linesServed k (lines.map fun line => typed 63 (line.1.map key)) = some k₁ ∧
      k' = k₁.withUser u := by
  induction lines generalizing c n₀ n made k with
  | nil =>
      have hzero : n = 0 := by
        rcases Nat.eq_zero_or_pos n with hzero | hpos
        · exact hzero
        · obtain ⟨m, rfl⟩ := Nat.exists_eq_succ_of_ne_zero hpos.ne'
          have hnone := List.countP_eq_zero.mp hcount m (List.mem_range.mpr (Nat.lt_succ_self m))
          exact absurd hnext (by simpa using hnone)
      subst hzero
      rw [run_zero] at hmade
      rw [List.append_right_eq_self.mp hmade.symm] at hserved
      obtain ⟨u, rfl⟩ := hserved.quiet rfl
      exact ⟨k, u, rfl, rfl⟩
  | cons line lines ih =>
      obtain ⟨m, hpos, hle, hfirst, hbetween, hone⟩ :=
        first_prompt (n := n) (by rw [hcount]; exact Nat.succ_pos _)
      obtain ⟨i, rfl⟩ := Nat.exists_eq_add_of_le hle
      have hrun : run (shell symbol) env (m + i) c =
          run (shell symbol) env i (run (shell symbol) env m c) := by
        rw [← run_add, Nat.add_comm]
      rw [hrun] at hnext hmade
      obtain ⟨first, hcalls, -⟩ := run_stack symbol hkeeps c m
      obtain ⟨later, hcalls', -⟩ := run_stack symbol hkeeps (run (shell symbol) env m c) i
      obtain rfl : made = first ++ later := by
        rw [hmade, hcalls, List.append_assoc] at hcalls'
        exact List.append_cancel_left hcalls'
      obtain ⟨k₁, hserved₁, hserved₂⟩ := hserved.split
      rw [List.flatMap_cons] at htypes
      obtain ⟨⟨k₂, u, hline, rfl⟩, hsp, hgets⟩ := line_served hkeeps hc hprompt hlayout
        (hlines line List.mem_cons_self) htypes.prefix hpos hfirst hbetween hcalls hserved₁
      have hlayout' : Layout symbol (run (shell symbol) env m c).state := by
        refine ⟨hroot m (Nat.le_add_right m i) hfirst, ?_, ?_, hlayout.apart⟩
        · intro j hj
          rw [hsp]
          exact hlayout.rootOff j hj
        · intro j hj
          rw [hsp]
          exact hlayout.bufferOff j hj
      have hc' : run (shell symbol) env (m + n₀) ⟨.userShellStart, s, calls⟩ =
          run (shell symbol) env m c := by
        rw [run_add, hc]
      have hcount' : prompts symbol env (run (shell symbol) env m c) i = lines.length := by
        rw [prompts_add, hone, List.length_cons] at hcount
        omega
      have hroot' : ∀ j ≤ i,
          (run (shell symbol) env j (run (shell symbol) env m c)).label = .printPrompt →
            StringAt (run (shell symbol) env j (run (shell symbol) env m c)).state.mem
              (symbol .rootPath) (ascii "/") := by
        intro j hj
        rw [← run_add]
        exact hroot (j + m) (by omega)
      obtain ⟨k₃, u', hrest, rfl⟩ := ih (m + n₀) _ hc' hfirst hlayout'
        (fun line hline => hlines line (List.mem_cons_of_mem _ hline)) (htypes.rest hgets) i hnext
        hcount' hroot' later hcalls' (k₂.withUser u) hserved₂
      rw [linesServed_withUser] at hrest
      obtain ⟨k₄, hlater, rfl⟩ := Option.map_eq_some_iff.mp hrest
      refine ⟨k₄, u', ?_, rfl⟩
      change (lineServed k _).bind (fun k => linesServed k _) = some k₄
      rw [hline]
      exact hlater

/-! A line that changes the directory. -/

/-- Whether the kernel gives the replies. -/
def answers : Kernel → Calls → Bool
  | _, [] => true
  | k, (asked, reply) :: calls =>
      let trap := trapOf { quietOutside with console := UInt8.ofBitVec ((reply.x 0).setWidth 8) } asked
      decide ((systemCall k trap).map Prod.fst = some (.resumed (reply.x 0))) &&
        answers (Run.next systemCall k trap) calls

theorem answers_served {k₀ : Kernel} {calls : Calls} : ∀ {k : Kernel} {prior : Calls},
    Served k₀ prior k → answers k calls = true → ∃ k', Served k₀ (prior ++ calls) k' := by
  induction calls with
  | nil => exact fun h _ => ⟨_, by rwa [List.append_nil]⟩
  | cons call calls ih =>
      obtain ⟨asked, reply⟩ := call
      intro k prior h hanswers
      rw [answers, Bool.and_eq_true, decide_eq_true_eq] at hanswers
      obtain ⟨k', hserved⟩ := ih (h.snoc _ (Run.step_next hanswers.1)) hanswers.2
      exact ⟨k', by rwa [List.append_assoc] at hserved⟩

/-- The keyboard, and a kernel that answers every other call with 0. -/
def granting (stream : Str) : Environment := fun calls s =>
  let b := if s.x 8 = 2 then stream.getD (gets calls) 0 else 0
  { s with x := Function.update s.x 0 (b.toBitVec.setWidth 64) }

theorem granting_keeps (stream : Str) : KeepsCaller (granting stream) := by
  refine ⟨?_, fun _ _ => rfl, fun _ _ _ => rfl⟩
  intro calls s r hr _
  apply Function.update_of_ne
  rintro rfl
  exact absurd hr (by decide)

theorem granting_types (stream : Str) : Types (granting stream) [] stream := by
  intro calls s k hk hs hgets
  have hcount : gets calls = k := hgets.trans (Nat.zero_add k)
  change BitVec.setWidth 64 (if s.x 8 = 2 then stream.getD (gets calls) 0 else 0).toBitVec = _
  rw [if_pos hs, hcount, List.getD_eq_getElem _ _ hk]

/-- The text of the root at 4096, the buffer at 8192 and the stack at 65536. -/
def shellStart : State where
  x _ := 0
  sp := 65536
  zero := false
  less := false
  mem a := if a = 4096 then 47 else 0

def shellSymbol : Symbol → Word
  | .rootPath => 4096
  | _ => 8192

/-- `cd` is typed twice, at the first two prompts. -/
def cdStream : Str := ascii "cd" ++ [13] ++ (ascii "cd" ++ [13])

def cdTyped (n : Nat) : Config Label := run (shell shellSymbol) (granting cdStream) n
  (run (shell shellSymbol) (granting cdStream) 1 ⟨.userShellStart, shellStart, []⟩)

theorem cdTyped_run (n : Nat) :
    run (shell shellSymbol) (granting cdStream) n (cdTyped 0) = cdTyped n := rfl

theorem cdTyped_layout : Layout shellSymbol (cdTyped 0).state where
  root := ⟨by decide, by decide +kernel, by decide +kernel⟩
  rootOff := by
    intro k hk hwithin
    change 4096 + BitVec.ofNat 64 k - (65536 - 96) < 96 at hwithin
    bv_omega
  bufferOff := by
    intro k hk hwithin
    change 8192 + BitVec.ofNat 64 k - (65536 - 96) < 96 at hwithin
    bv_omega
  apart := by
    intro j hj k hk
    change (4096 : Word) + BitVec.ofNat 64 j ≠ 8192 + BitVec.ofNat 64 k
    bv_omega

theorem typed_lines_served_cd : ∃ k' k₁ u, Served (shellKernel fun _ => 0) (cdTyped 30).calls k' ∧
    linesServed (shellKernel fun _ => 0) [ascii "cd", ascii "cd"] = some k₁ ∧ k' = k₁.withUser u := by
  have hanswers : answers (shellKernel fun _ => 0) (cdTyped 30).calls = true := by decide +kernel
  have hnext : (cdTyped 30).label = .printPrompt := by decide +kernel
  have hcount : prompts shellSymbol (granting cdStream) (cdTyped 0) 30 = 2 := by decide +kernel
  have hmem : ∀ m ≤ 30, (cdTyped m).state.mem 4096 = 47 ∧ (cdTyped m).state.mem 4097 = 0 := by
    decide +kernel
  have hroot : ∀ m ≤ 30, (cdTyped m).label = .printPrompt →
      StringAt (cdTyped m).state.mem 4096 (ascii "/") := by
    intro m hm _
    refine ⟨by decide, fun k hk => ?_, (hmem m hm).2⟩
    obtain rfl : k = 0 := Nat.lt_one_iff.mp hk
    exact (hmem m hm).1
  have hlines : ∀ line ∈ [(ascii "cd", (13 : UInt8)), (ascii "cd", 13)], Entered line := by
    intro line hline
    simp only [List.mem_cons, List.not_mem_nil, or_false, or_self] at hline
    subst hline
    exact ⟨by decide, by decide, .inl rfl, by decide⟩
  have hcalls : (cdTyped 30).calls = (cdTyped 0).calls ++ (cdTyped 30).calls :=
    (List.nil_append _).symm
  rw [← cdTyped_run] at hnext
  obtain ⟨k', hserved⟩ := answers_served .nil hanswers
  rw [List.nil_append] at hserved
  obtain ⟨k₁, u, hline, rfl⟩ := typed_lines_served shellSymbol (granting cdStream) (granting_keeps _)
    shellStart [] 1 (cdTyped 0) rfl rfl cdTyped_layout [(ascii "cd", 13), (ascii "cd", 13)] hlines
    (granting_types _) 30 hnext hcount (fun m => by rw [cdTyped_run]; exact hroot m)
    (cdTyped 30).calls (by rw [cdTyped_run]; exact hcalls) (shellKernel fun _ => 0) k' hserved
  exact ⟨_, k₁, u, hserved, hline, rfl⟩

end Chthon.UserShell
