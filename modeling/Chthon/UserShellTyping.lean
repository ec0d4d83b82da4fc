import Chthon.Lib.LineEditor
import Chthon.UserShellScan

/-! How a line gets into the buffer of the user shell: the loop over the keys, from a prompt to
`process_command`. -/

namespace Chthon.UserShell

open Arm64 (Word Within)
open BasicBlocks LineEditor

/-- What the editor asks of system calls: they give back `x2` and `x3`, and only a message makes the
kernel write to memory of the caller. -/
structure KeepsLine (env : Environment) : Prop where
  pointer : ∀ calls s, (env calls s).x 2 = s.x 2
  length : ∀ calls s, (env calls s).x 3 = s.x 3
  mem : ∀ calls s, s.x 8 ≠ 4 → (env calls s).mem = s.mem

theorem KeepsCaller.keepsLine {env : Environment} (h : KeepsCaller env) : KeepsLine env where
  pointer calls s := h.x calls s 2 (by decide) (by decide)
  length calls s := h.x calls s 3 (by decide) (by decide)
  mem := h.mem

/-- How many characters have been asked for. -/
def gets (calls : Calls) : Nat := calls.countP fun call => call.1.x 8 = 2

/-- The characters that have been put. -/
def puts (calls : Calls) : Str := calls.filterMap fun call =>
  if call.1.x 8 = 1 then some (UInt8.ofBitVec ((call.1.x 0).setWidth 8)) else none

/-- From these calls on, the bytes of the stream are what is answered to those that ask for one. -/
def Types (env : Environment) (calls : Calls) (stream : Str) : Prop :=
  ∀ calls' s k (hk : k < stream.length), s.x 8 = 2 → gets calls' = gets calls + k →
    (env calls' s).x 0 = stream[k].toBitVec.setWidth 64

/-- Backspace and DEL erase. -/
def key (b : UInt8) : Key UInt8 := if b = 8 ∨ b = 127 then .erase else .put b

/-- The line is in the buffer and its length in `x3`; outside of the buffer the memory is `m`. -/
structure Holds (symbol : Symbol → Word) (m : Arm64.Memory) (s : State) (line : Str) : Prop where
  line : LineFrom s line 0
  pointer : s.x 2 = symbol .inputBuffer
  outside : ∀ a, ¬Within (symbol .inputBuffer) 64 a → s.mem a = m a

section Blocks

variable {symbol : Symbol → Word} {env : Environment} {m : Arm64.Memory} {s s' : State} {line : Str}
  {calls : Calls} {here : Label}

theorem Holds.congr (h : Holds symbol m s line) (h2 : s'.x 2 = s.x 2) (h3 : s'.x 3 = s.x 3)
    (hmem : s'.mem = s.mem) : Holds symbol m s' line where
  line := ⟨h3.trans h.line.length, h.line.short, fun k hk hstart => by
    rw [h2, hmem, h.line.chars k hk hstart]⟩
  pointer := h2.trans h.pointer
  outside a ha := by rw [hmem, h.outside a ha]

theorem Holds.keeps {rs : List (Fin 31)} (h : Holds symbol m s line) (hkeeps : Keeps rs s s')
    (h2 : 2 ∉ rs) (h3 : 3 ∉ rs) : Holds symbol m s' line :=
  h.congr (hkeeps.x 2 h2) (hkeeps.x 3 h3) hkeeps.mem

theorem Holds.answered (h : Holds symbol m s line) (hkeeps : KeepsLine env) (calls : Calls)
    (hnumber : s.x 8 ≠ 4) : Holds symbol m (env calls s) line :=
  h.congr (hkeeps.pointer calls s) (hkeeps.length calls s) (hkeeps.mem calls s hnumber)

/-- A byte of the buffer is written. -/
theorem Holds.store (h : Holds symbol m s line) {k : Nat} (hk : k < 64) (b : UInt8) :
    ∀ a, ¬Within (symbol .inputBuffer) 64 a →
      Function.update s.mem (s.x 2 + BitVec.ofNat 64 k) b.toBitVec a = m a := by
  intro a ha
  rw [h.pointer, Function.update_of_ne, h.outside a ha]
  rintro rfl
  exact ha (Arm64.within_add _ hk (by decide))

/-- A byte is put behind the line. -/
theorem Holds.append (h : Holds symbol m s line) (b : UInt8) (hroom : line.length < 63)
    (h2 : s'.x 2 = s.x 2) (h3 : s'.x 3 = s.x 3 + 1)
    (hmem : s'.mem = Function.update s.mem (s.x 2 + s.x 3) b.toBitVec) :
    Holds symbol m s' (line ++ [b]) := by
  rw [h.line.length] at h3 hmem
  have hlen : (line ++ [b]).length = line.length + 1 := by simp
  refine ⟨⟨?_, by omega, ?_⟩, h2.trans h.pointer, ?_⟩
  · rw [h3, hlen]
    exact (BitVec.ofNat_add _ _).symm
  · intro k hk hstart
    rw [h2, hmem]
    rcases Nat.lt_succ_iff_lt_or_eq.mp (hlen ▸ hk) with hlt | rfl
    · rw [Function.update_of_ne, h.line.chars k hlt hstart, List.getElem_append_left hlt]
      bv_omega
    · rw [Function.update_self, List.getElem_concat_length rfl]
  · rw [hmem]
    exact h.store (by omega) b

/-- The last byte of the line is given up. -/
theorem Holds.dropLast (h : Holds symbol m s line) (hne : line.length ≠ 0) (h2 : s'.x 2 = s.x 2)
    (h3 : s'.x 3 = s.x 3 - 1) (hmem : s'.mem = s.mem) : Holds symbol m s' line.dropLast := by
  have hshort := h.line.short
  refine ⟨⟨?_, ?_, ?_⟩, h2.trans h.pointer, fun a ha => by rw [hmem, h.outside a ha]⟩
  · rw [h3, h.line.length, List.length_dropLast]
    bv_omega
  · rw [List.length_dropLast]
    omega
  · intro k hk hstart
    rw [List.getElem_dropLast, h2, hmem]
    exact h.line.chars k _ hstart

theorem gets_append (calls made : Calls) : gets (calls ++ made) = gets calls + gets made :=
  List.countP_append

theorem puts_append (calls made : Calls) : puts (calls ++ made) = puts calls ++ puts made :=
  List.filterMap_append

/-- What a comparison with a key sees of the byte in `x1`. -/
theorem byte64_eq_iff (b c : UInt8) :
    b.toBitVec.setWidth 64 = BitVec.ofNat 64 c.toNat ↔ b = c := by
  rw [← BitVec.toNat_inj, BitVec.toNat_setWidth, BitVec.toNat_ofNat, ← UInt8.toNat_inj]
  have hb := b.toNat_lt
  have hc := c.toNat_lt
  change b.toNat % 2 ^ 64 = c.toNat % 2 ^ 64 ↔ b.toNat = c.toNat
  omega

variable (calls here) in
/-- A character is put. -/
theorem putChar_run (hkeeps : KeepsLine env) (h : Holds symbol m s line) (c : UInt8) :
    ∃ s' calls', (∀ rest, runBlock (shell symbol) env here (putChar c.toNat ++ rest) s calls =
        runBlock (shell symbol) env here rest s' calls') ∧
      Holds symbol m s' line ∧ puts calls' = puts calls ++ [c] ∧ gets calls' = gets calls := by
  let s₁ : State := { s with
    x := Function.update (Function.update s.x 8 1) 0 (BitVec.ofNat 64 c.toNat) }
  have hnumber : s₁.x 8 = 1 := rfl
  have hchar : s₁.x 0 = BitVec.ofNat 64 c.toNat := rfl
  have h₁ : Holds symbol m s₁ line := h.congr rfl rfl rfl
  refine ⟨env calls s₁, calls ++ [(s₁, env calls s₁)], fun rest => rfl,
    h₁.answered hkeeps calls (by rw [hnumber]; decide), ?_, ?_⟩
  · have hbyte : UInt8.ofBitVec ((s₁.x 0).setWidth 8) = c := by
      rw [hchar, ← UInt8.toBitVec_inj, ← BitVec.toNat_inj]
      have hc := c.toNat_lt
      change (BitVec.setWidth 8 (BitVec.ofNat 64 c.toNat)).toNat = c.toNat
      rw [BitVec.toNat_setWidth, BitVec.toNat_ofNat]
      omega
    rw [puts_append]
    simp [puts, hnumber, hbyte]
  · rw [gets_append]
    simp [gets, hnumber]

variable (symbol env calls here) in
/-- A key is compared with a character. -/
theorem compareKey_run {b : UInt8} (hkey : s.x 1 = b.toBitVec.setWidth 64) (c : UInt8)
    (target : Label) (rest : Block) :
    ∃ s', Keeps [] s s' ∧
      runBlock (shell symbol) env here (.cmp (.x 1) c.toNat :: .branchIf .eq target :: rest) s calls =
        if b = c then ⟨target, s', calls⟩ else runBlock (shell symbol) env here rest s' calls := by
  refine ⟨s.compare (s.x 1) (BitVec.ofNat 64 c.toNat), Keeps.flags s _ _, ?_⟩
  have hzero : (s.compare (s.x 1) (BitVec.ofNat 64 c.toNat)).holds .eq = decide (b = c) := by
    change decide (s.x 1 = BitVec.ofNat 64 c.toNat) = decide (b = c)
    rw [decide_eq_decide, hkey]
    exact byte64_eq_iff b c
  have hrun : runBlock (shell symbol) env here
      (.cmp (.x 1) c.toNat :: .branchIf .eq target :: rest) s calls =
        if (s.compare (s.x 1) (BitVec.ofNat 64 c.toNat)).holds .eq then
          ⟨target, s.compare (s.x 1) (BitVec.ofNat 64 c.toNat), calls⟩
        else runBlock (shell symbol) env here rest
          (s.compare (s.x 1) (BitVec.ofNat 64 c.toNat)) calls := rfl
  rw [hrun, hzero]
  simp only [decide_eq_true_eq]

variable (symbol env calls here) in
/-- Two characters that lead to the same block. -/
theorem compareKeys_run {b : UInt8} (hkey : s.x 1 = b.toBitVec.setWidth 64) (c d : UInt8)
    (target : Label) (rest : Block) :
    ∃ s', Keeps [] s s' ∧ runBlock (shell symbol) env here (.cmp (.x 1) c.toNat ::
        .branchIf .eq target :: .cmp (.x 1) d.toNat :: .branchIf .eq target :: rest) s calls =
      if b = c ∨ b = d then ⟨target, s', calls⟩
      else runBlock (shell symbol) env here rest s' calls := by
  obtain ⟨s₁, hkeeps₁, hrun₁⟩ := compareKey_run symbol env calls here
    hkey c target (.cmp (.x 1) d.toNat :: .branchIf .eq target :: rest)
  by_cases hc : b = c
  · exact ⟨s₁, hkeeps₁, by rw [hrun₁, if_pos hc, if_pos (.inl hc)]⟩
  · obtain ⟨s₂, hkeeps₂, hrun₂⟩ := compareKey_run symbol env calls here
      ((hkeeps₁.x 1 List.not_mem_nil).trans hkey) d target rest
    refine ⟨s₂, hkeeps₁.trans hkeeps₂, ?_⟩
    rw [hrun₁, if_neg hc, hrun₂]
    simp only [hc, false_or]

/-! The three blocks. -/

/-- The prompt. -/
theorem printPrompt_step (hkeeps : KeepsLine env) (h : Holds symbol m s line) (calls : Calls) :
    ∃ s' calls', step (shell symbol) env ⟨.printPrompt, s, calls⟩ = ⟨.inputLoop, s', calls'⟩ ∧
      Holds symbol m s' line ∧ puts calls' = puts calls ++ [36, 32] ∧ gets calls' = gets calls := by
  obtain ⟨s₁, calls₁, hrun₁, h₁, hputs₁, hgets₁⟩ := putChar_run calls .printPrompt hkeeps h 36
  obtain ⟨s₂, calls₂, hrun₂, h₂, hputs₂, hgets₂⟩ := putChar_run calls₁ .printPrompt hkeeps h₁ 32
  refine ⟨s₂, calls₂, ?_, h₂, ?_, hgets₂.trans hgets₁⟩
  · exact (hrun₁ (putChar 32)).trans (hrun₂ [])
  · rw [hputs₂, hputs₁, List.append_assoc]
    rfl

/-- Backspace on an empty line does nothing. -/
theorem handleBackspace_step (hkeeps : KeepsLine env) (h : Holds symbol m s line) (calls : Calls) :
    ∃ s' calls', step (shell symbol) env ⟨.handleBackspace, s, calls⟩ = ⟨.inputLoop, s', calls'⟩ ∧
      Holds symbol m s' (edit 63 line .erase) ∧
      puts calls' = puts calls ++ (echo 63 32 line .erase).map (Output.sent 8) ∧ gets calls' = gets calls := by
  let s₁ := exec (shell symbol) (.cmp (.x 3) 0) s
  have hcompare : s₁ = { s with
      zero := decide (line.length = 0), less := decide (line.length < 0) } :=
    h.line.compare (Nat.zero_le _)
  have hstep : step (shell symbol) env ⟨.handleBackspace, s, calls⟩ =
      if s₁.zero then ⟨.inputLoop, s₁, calls⟩
      else runBlock (shell symbol) env .handleBackspace
        (putChar 8 ++ (putChar 32 ++ (putChar 8 ++ [.branch .inputLoop])))
        { s₁ with x := Function.update s₁.x 3 (s₁.x 3 - 1) } calls := rfl
  have h₁ : Holds symbol m s₁ line := by
    rw [hcompare]
    exact h.congr rfl rfl rfl
  have hzero : s₁.zero = decide (line.length = 0) := by rw [hcompare]
  rw [hstep]
  by_cases hempty : line.length = 0
  · rw [if_pos (by simpa [hzero] using hempty)]
    rw [List.length_eq_zero_iff] at hempty
    subst hempty
    exact ⟨s₁, calls, rfl, h₁, (List.append_nil _).symm, rfl⟩
  · let s₂ : State := { s₁ with x := Function.update s₁.x 3 (s₁.x 3 - 1) }
    have h₂ : Holds symbol m s₂ line.dropLast := h₁.dropLast hempty rfl rfl rfl
    obtain ⟨s₃, calls₃, hrun₃, h₃, hputs₃, hgets₃⟩ := putChar_run calls .handleBackspace hkeeps h₂ 8
    obtain ⟨s₄, calls₄, hrun₄, h₄, hputs₄, hgets₄⟩ :=
      putChar_run calls₃ .handleBackspace hkeeps h₃ 32
    obtain ⟨s₅, calls₅, hrun₅, h₅, hputs₅, hgets₅⟩ := putChar_run calls₄ .handleBackspace hkeeps h₄ 8
    refine ⟨s₅, calls₅, ?_, h₅, ?_, hgets₅.trans (hgets₄.trans hgets₃)⟩
    · rw [if_neg (by simpa [hzero] using hempty)]
      exact (hrun₃ _).trans ((hrun₄ _).trans (hrun₅ _))
    · rw [hputs₅, hputs₄, hputs₃, echo, if_neg hempty, List.append_assoc, List.append_assoc]
      rfl

/-- How the loop goes on with the key it is given. -/
inductive Took (symbol : Symbol → Word) (m : Arm64.Memory) (line : Str) (calls : Calls) (b : UInt8)
    (c : Config Label) : Prop where
  | enter (hkey : b = 13 ∨ b = 10) (label : c.label = .processCommand)
      (holds : Holds symbol m c.state line) (echoed : puts c.calls = puts calls)
  | erase (hkey : b = 8 ∨ b = 127) (label : c.label = .handleBackspace)
      (holds : Holds symbol m c.state line) (echoed : puts c.calls = puts calls)
  | put (henter : ¬(b = 13 ∨ b = 10)) (herase : ¬(b = 8 ∨ b = 127)) (label : c.label = .inputLoop)
      (holds : Holds symbol m c.state (edit 63 line (.put b)))
      (echoed : puts c.calls = puts calls ++ (echo 63 32 line (.put b)).map (Output.sent 8))

/-- A key that is neither an end nor an erasure. -/
theorem storeKey_run (hkeeps : KeepsLine env) (h : Holds symbol m s line) (calls : Calls) {b : UInt8}
    (hkey : s.x 1 = b.toBitVec.setWidth 64) :
    ∃ s' calls', runBlock (shell symbol) env .inputLoop ([.cmp (.x 3) 63, .branchIf .ge .inputLoop,
        .strbReg (.x 1) (.x 2) (.x 3), .add (.x 3) (.x 3) 1, .movReg (.x 0) (.x 1)] ++ putc ++
        [.branch .inputLoop]) s calls = ⟨.inputLoop, s', calls'⟩ ∧
      Holds symbol m s' (edit 63 line (.put b)) ∧
      puts calls' = puts calls ++ (echo 63 32 line (.put b)).map (Output.sent 8) ∧ gets calls' = gets calls := by
  let s₁ := exec (shell symbol) (.cmp (.x 3) 63) s
  have hcompare : s₁ = { s with
      zero := decide (line.length = 63), less := decide (line.length < 63) } := h.line.compare le_rfl
  have h₁ : Holds symbol m s₁ line := by
    rw [hcompare]
    exact h.congr rfl rfl rfl
  let s₂ : State := { s₁ with
    x := Function.update (Function.update (Function.update s₁.x 3 (s₁.x 3 + 1)) 0 (s₁.x 1)) 8 1
    mem := Function.update s₁.mem (s₁.x 2 + s₁.x 3) ((s₁.x 1).setWidth 8) }
  have hrun : runBlock (shell symbol) env .inputLoop ([.cmp (.x 3) 63, .branchIf .ge .inputLoop,
      .strbReg (.x 1) (.x 2) (.x 3), .add (.x 3) (.x 3) 1, .movReg (.x 0) (.x 1)] ++ putc ++
      [.branch .inputLoop]) s calls =
        if !s₁.less then ⟨.inputLoop, s₁, calls⟩
        else ⟨.inputLoop, env calls s₂, calls ++ [(s₂, env calls s₂)]⟩ := rfl
  have hless : s₁.less = decide (line.length < 63) := by rw [hcompare]
  rw [hrun, edit, echo]
  by_cases hroom : line.length < 63
  · have hbyte : (s₁.x 1).setWidth 8 = b.toBitVec := by
      have hkey₁ : s₁.x 1 = b.toBitVec.setWidth 64 := by
        rw [hcompare]
        exact hkey
      rw [hkey₁]
      bv_omega
    have hnumber : s₂.x 8 = 1 := rfl
    have hchar : s₂.x 0 = s₁.x 1 := rfl
    have h₂ : Holds symbol m s₂ (line ++ [b]) := h₁.append b hroom rfl rfl (by rw [← hbyte])
    rw [if_neg (by simp [hless, hroom]), if_pos hroom, if_pos hroom]
    refine ⟨_, _, rfl, h₂.answered hkeeps calls (by rw [hnumber]; decide), ?_, ?_⟩
    · rw [puts_append]
      simp [puts, hnumber, hchar, hbyte, Output.sent]
    · rw [gets_append]
      simp [gets, hnumber]
  · rw [if_pos (by simp [hless, hroom]), if_neg hroom, if_neg hroom]
    exact ⟨s₁, calls, rfl, h₁, (List.append_nil _).symm, rfl⟩

/-- One key. -/
theorem inputLoop_step (hkeeps : KeepsLine env) (h : Holds symbol m s line) (calls : Calls)
    {b : UInt8} (hget : ∀ s : State, s.x 8 = 2 → (env calls s).x 0 = b.toBitVec.setWidth 64) :
    Took symbol m line calls b (step (shell symbol) env ⟨.inputLoop, s, calls⟩) ∧
      gets (step (shell symbol) env ⟨.inputLoop, s, calls⟩).calls = gets calls + 1 := by
  let s₁ : State := { s with x := Function.update s.x 8 2 }
  let s₂ : State := { env calls s₁ with
    x := Function.update (env calls s₁).x 1 ((env calls s₁).x 0) }
  let calls' := calls ++ [(s₁, env calls s₁)]
  have hnumber : s₁.x 8 = 2 := rfl
  have hkey : s₂.x 1 = b.toBitVec.setWidth 64 := hget s₁ hnumber
  have h₁ : Holds symbol m s₁ line := h.congr rfl rfl rfl
  have h₂ : Holds symbol m s₂ line :=
    (h₁.answered hkeeps calls (by rw [hnumber]; decide)).congr rfl rfl rfl
  have hputs : puts calls' = puts calls := by
    rw [puts_append]
    simp [puts, hnumber]
  have hgets : gets calls' = gets calls + 1 := by
    rw [gets_append]
    simp [gets, hnumber]
  let rest : Block := [.cmp (.x 3) 63, .branchIf .ge .inputLoop, .strbReg (.x 1) (.x 2) (.x 3),
    .add (.x 3) (.x 3) 1, .movReg (.x 0) (.x 1)] ++ putc ++ [.branch .inputLoop]
  obtain ⟨s₃, hkeeps₃, hrun₃⟩ := compareKeys_run symbol env calls' .inputLoop
    hkey 13 10 .processCommand (.cmp (.x 1) 8 ::
      .branchIf .eq .handleBackspace :: .cmp (.x 1) 127 :: .branchIf .eq .handleBackspace :: rest)
  have h₃ := h₂.keeps hkeeps₃ List.not_mem_nil List.not_mem_nil
  have hstep : step (shell symbol) env ⟨.inputLoop, s, calls⟩ = _ := hrun₃
  by_cases henter : b = 13 ∨ b = 10
  · rw [hstep, if_pos henter]
    exact ⟨.enter henter rfl h₃ hputs, hgets⟩
  obtain ⟨s₄, hkeeps₄, hrun₄⟩ := compareKeys_run symbol env calls' .inputLoop
    ((hkeeps₃.x 1 List.not_mem_nil).trans hkey) 8 127 .handleBackspace rest
  have h₄ := h₃.keeps hkeeps₄ List.not_mem_nil List.not_mem_nil
  replace hstep := (hstep.trans (if_neg henter)).trans hrun₄
  by_cases herase : b = 8 ∨ b = 127
  · rw [hstep, if_pos herase]
    exact ⟨.erase herase rfl h₄ hputs, hgets⟩
  -- a byte for the line, if it has room
  have hkey₄ : s₄.x 1 = b.toBitVec.setWidth 64 :=
    ((hkeeps₃.trans hkeeps₄).x 1 List.not_mem_nil).trans hkey
  obtain ⟨s', calls'', hrun, h', hputs', hgets'⟩ := storeKey_run hkeeps h₄ calls' hkey₄
  rw [hstep, if_neg herase, hrun]
  exact ⟨.put henter herase rfl h' (hputs'.trans (by rw [hputs])), hgets'.trans hgets⟩

end Blocks

/-! Runs. -/

/-- No command is being processed, and outside of the buffer the memory is `m`. -/
def Editing (symbol : Symbol → Word) (m : Arm64.Memory) (c : Config Label) : Prop :=
  c.label ≠ .processCommand ∧ ∀ a, ¬Within (symbol .inputBuffer) 64 a → c.state.mem a = m a

/-- `j` steps after the prompt `c` the keys have been taken: the line they make is in the buffer, the
characters put since are the prompt and the echo, and they leave a terminal with the line. -/
structure Edits (symbol : Symbol → Word) (env : Environment) (c : Config Label) (keys : Str)
    (label : Label) (j : Nat) : Prop where
  label : (run (shell symbol) env j c).label = label
  holds : Holds symbol c.state.mem (run (shell symbol) env j c).state (typed 63 (keys.map key))
  before : ∀ i < j, Editing symbol c.state.mem (run (shell symbol) env i c)
  echoed : puts (run (shell symbol) env j c).calls =
    puts c.calls ++ ([36, 32] ++ (echoes 63 32 [] (keys.map key)).map (Output.sent 8))
  shown : ∀ screen : Screen UInt8, (∀ b ∈ screen.after, b = 32) →
    Shows 32 (screen.before ++ [36, 32]) (typed 63 (keys.map key))
      ((((puts (run (shell symbol) env j c).calls).drop (puts c.calls).length).map
        (received 8)).foldl Screen.put screen)

section Runs

variable {symbol : Symbol → Word} {env : Environment} {c : Config Label} {keys : Str} {label : Label}
  {j : Nat}

/-- No key puts a backspace. -/
theorem put_backspace (keys : Str) : Key.put 8 ∉ keys.map key := by
  intro h
  obtain ⟨b, -, hb⟩ := List.mem_map.mp h
  rw [key] at hb
  split_ifs at hb with herase
  cases hb
  exact herase (.inl rfl)

/-- The echo behind a prompt shows the line. -/
theorem Edits.of_echoed (hlabel : (run (shell symbol) env j c).label = label)
    (hholds : Holds symbol c.state.mem (run (shell symbol) env j c).state (typed 63 (keys.map key)))
    (hbefore : ∀ i < j, Editing symbol c.state.mem (run (shell symbol) env i c))
    (hechoed : puts (run (shell symbol) env j c).calls =
      puts c.calls ++ ([36, 32] ++ (echoes 63 32 [] (keys.map key)).map (Output.sent 8))) :
    Edits symbol env c keys label j := by
  refine ⟨hlabel, hholds, hbefore, hechoed, fun screen hscreen => ?_⟩
  rw [hechoed, List.drop_left, List.map_append, map_received_sent (by decide) (put_backspace keys),
    List.foldl_append]
  have hprompt : Shows 32 (screen.before ++ [36, 32]) []
      (([36, 32].map (received 8)).foldl Screen.put screen) := by
    refine ⟨?_, fun b hb => hscreen b (List.mem_of_mem_tail (List.mem_of_mem_tail hb))⟩
    rw [List.append_nil, ← List.singleton_append, ← List.append_assoc]
    rfl
  exact hprompt.echoes (keys.map key)

/-- A step of the editor goes on from where the keys have been taken. -/
theorem Edits.editing (h : Edits symbol env c keys label j) (hlabel : label ≠ .processCommand) :
    ∀ i < j + 1, Editing symbol c.state.mem (run (shell symbol) env i c) := by
  intro i hi
  rcases Nat.lt_succ_iff_lt_or_eq.mp hi with hlt | rfl
  · exact h.before i hlt
  · exact ⟨h.label ▸ hlabel, h.holds.outside⟩

theorem typed_key (keys : Str) (b : UInt8) :
    typed 63 ((keys ++ [b]).map key) = edit 63 (typed 63 (keys.map key)) (key b) := by
  rw [List.map_append, List.map_singleton, typed_concat]

theorem echoes_key (keys : Str) (b : UInt8) :
    [36, 32] ++ (echoes 63 32 [] ((keys ++ [b]).map key)).map (Output.sent 8) =
      [36, 32] ++ (echoes 63 32 [] (keys.map key)).map (Output.sent 8) ++
        (echo 63 32 (typed 63 (keys.map key)) (key b)).map (Output.sent 8) := by
  rw [List.map_append, List.map_singleton, echoes_concat, List.map_append, List.append_assoc]
  rfl

/-- The keys of a line are taken one after the other. -/
theorem keys_taken (hkeeps : KeepsLine env) (hprompt : c.label = .printPrompt)
    (hpointer : c.state.x 2 = symbol .inputBuffer) (hempty : c.state.x 3 = 0) (rest : Str)
    (hkeys : 13 ∉ keys ∧ 10 ∉ keys) (htypes : Types env c.calls (keys ++ rest)) :
    ∃ j, Edits symbol env c keys .inputLoop j ∧
      gets (run (shell symbol) env j c).calls = gets c.calls + keys.length := by
  induction keys using List.reverseRecOn generalizing rest with
  | nil =>
      have hholds : Holds symbol c.state.mem c.state [] :=
        ⟨⟨hempty, by decide, fun k hk => absurd hk (Nat.not_lt_zero k)⟩, hpointer, fun _ _ => rfl⟩
      obtain ⟨s', calls', hstep, h', hputs, hgets⟩ := printPrompt_step hkeeps hholds c.calls
      have hrun : run (shell symbol) env 1 c = ⟨.inputLoop, s', calls'⟩ := by
        rw [run_succ, run_zero, ← hstep, ← hprompt]
      refine ⟨1, .of_echoed ?_ ?_ ?_ ?_, ?_⟩
      · rw [hrun]
      · rw [hrun]
        exact h'
      · intro i hi
        rw [Nat.lt_one_iff.mp hi]
        exact ⟨by rw [run_zero, hprompt]; decide, fun _ _ => rfl⟩
      · rw [hrun]
        exact hputs
      · rw [hrun]
        exact hgets
  | append_singleton keys b ih =>
      rw [List.append_assoc] at htypes
      obtain ⟨j, hedits, hgets⟩ := ih ([b] ++ rest)
        ⟨fun h => hkeys.1 (List.mem_append_left _ h), fun h => hkeys.2 (List.mem_append_left _ h)⟩
        htypes
      have hb : ¬(b = 13 ∨ b = 10) := by
        rintro (rfl | rfl)
        · exact hkeys.1 (by simp)
        · exact hkeys.2 (by simp)
      have hget : ∀ s : State, s.x 8 = 2 →
          (env (run (shell symbol) env j c).calls s).x 0 = b.toBitVec.setWidth 64 := by
        intro s hs
        rw [htypes _ s keys.length (by simp) hs hgets]
        simp
      obtain ⟨htook, hasked⟩ := inputLoop_step hkeeps hedits.holds (run (shell symbol) env j c).calls hget
      have hrun : run (shell symbol) env (j + 1) c = step (shell symbol) env
          ⟨.inputLoop, (run (shell symbol) env j c).state, (run (shell symbol) env j c).calls⟩ := by
        rw [run_succ, ← hedits.label]
      rw [← hrun] at htook hasked
      have hcount : gets (run (shell symbol) env (j + 1) c).calls =
          gets c.calls + (keys ++ [b]).length := by
        rw [hasked, hgets, List.length_append, List.length_singleton, Nat.add_assoc]
      cases htook with
      | enter hkey => exact absurd hkey hb
      | put henter herase hlabel hholds hechoed =>
          have hkey : key b = .put b := if_neg herase
          refine ⟨j + 1, .of_echoed hlabel ?_ (hedits.editing (by decide)) ?_, hcount⟩
          · rw [typed_key, hkey]
            exact hholds
          · rw [hechoed, hedits.echoed, echoes_key, hkey, List.append_assoc]
      | erase hkey hlabel hholds hechoed =>
          have hkey' : key b = .erase := if_pos hkey
          obtain ⟨s', calls', hstep, h', hputs, hgets'⟩ := handleBackspace_step hkeeps hholds
            (run (shell symbol) env (j + 1) c).calls
          have hrun' : run (shell symbol) env (j + 2) c = ⟨.inputLoop, s', calls'⟩ := by
            rw [run_succ, ← hstep, ← hlabel]
          refine ⟨j + 2, .of_echoed (by rw [hrun']) ?_ ?_ ?_, ?_⟩
          · rw [hrun', typed_key, hkey']
            exact h'
          · intro i hi
            rcases Nat.lt_succ_iff_lt_or_eq.mp hi with hlt | rfl
            · exact hedits.editing (by decide) i hlt
            · exact ⟨by rw [hlabel]; decide, hholds.outside⟩
          · rw [hrun', hputs, hechoed, hedits.echoed, echoes_key, hkey', List.append_assoc]
          · rw [hrun', hgets', hcount]

/-- Only the first block sets `x2`. -/
theorem pointer_untouched (label : Label) (h : label ≠ .userShellStart) :
    ∀ i ∈ code label, Arm64.Reg.x 2 ∉ i.targets := by
  cases label <;> first | exact absurd rfl h | decide

/-- The prompt is only printed at the start and after a command. -/
theorem prompt_entered (label : Label) (h : .printPrompt ∈ exits next label (code label)) :
    label = .userShellStart ∨ label = .resetAndPrompt := by
  revert h
  cases label <;> decide

/-- From the start of the shell on, `x2` is the buffer, and `x3` is 0 at every prompt. -/
theorem prompt_registers (hkeeps : KeepsLine env) (s : State) (calls : Calls) (n : Nat)
    (hc : run (shell symbol) env n ⟨.userShellStart, s, calls⟩ = c) :
    (c.label = .userShellStart ∨ c.state.x 2 = symbol .inputBuffer) ∧
      (c.label = .printPrompt → c.state.x 3 = 0) := by
  induction n generalizing c with
  | zero =>
      rw [← hc]
      exact ⟨.inl rfl, fun h => by cases h⟩
  | succ n ih =>
      rw [run_succ] at hc
      obtain ⟨hpointer, hprompt⟩ := ih rfl
      generalize run (shell symbol) env n ⟨.userShellStart, s, calls⟩ = d at hc hpointer hprompt
      obtain ⟨label, t, made⟩ := d
      rw [← hc]
      by_cases hstart : label = .userShellStart
      · subst hstart
        exact ⟨.inr rfl, fun _ => rfl⟩
      · refine ⟨.inr ?_, fun hlabel => ?_⟩
        · have hkept : (step (shell symbol) env ⟨label, t, made⟩).state.get (.x 2) = t.get (.x 2) :=
            runBlock_get (fun calls s => hkeeps.pointer calls s) (pointer_untouched label hstart)
          exact hkept.trans (hpointer.resolve_left hstart)
        · have hexit : .printPrompt ∈ exits next label (code label) := by
            rw [← hlabel]
            exact runBlock_label
          rcases prompt_entered label hexit with rfl | rfl
          · exact absurd rfl hstart
          · rfl

/-- Whatever is typed at a prompt: after any of the keys the line they make, of at most 63 bytes, is
in the buffer with its length in `x3` and shown behind the prompt, and after CR or LF the first
instruction of `process_command` ends it with a NUL. Outside of the buffer nothing is written. -/
theorem line_typed (symbol : Symbol → Word) (env : Environment) (hkeeps : KeepsLine env) (s : State)
    (calls : Calls) (n : Nat) (c : Config Label)
    (hc : run (shell symbol) env n ⟨.userShellStart, s, calls⟩ = c) (hprompt : c.label = .printPrompt)
    (keys : Str) (hkeys : 13 ∉ keys ∧ 10 ∉ keys) (last : UInt8) (hlast : last = 13 ∨ last = 10)
    (htypes : Types env c.calls (keys ++ [last])) :
    (∀ k ≤ keys.length, ∃ j, Edits symbol env c (keys.take k) .inputLoop j) ∧
      ∃ j, Edits symbol env c keys .processCommand j ∧
        (code .processCommand).head? = some (.strbReg .xzr (.x 2) (.x 3)) ∧
        ∀ r, r = exec (shell symbol) (.strbReg .xzr (.x 2) (.x 3))
            (run (shell symbol) env j c).state →
          Holds symbol c.state.mem r (typed 63 (keys.map key)) ∧
          r.mem (symbol .inputBuffer + BitVec.ofNat 64 (typed 63 (keys.map key)).length) = 0 := by
  obtain ⟨hpointer, hempty⟩ := prompt_registers hkeeps s calls n hc
  replace hpointer := hpointer.resolve_left (by rw [hprompt]; decide)
  replace hempty := hempty hprompt
  constructor
  · intro k _
    have hsplit : keys.take k ++ (keys.drop k ++ [last]) = keys ++ [last] := by
      rw [← List.append_assoc, List.take_append_drop]
    obtain ⟨j, hedits, -⟩ := keys_taken hkeeps hprompt hpointer hempty (keys.drop k ++ [last])
      ⟨fun h => hkeys.1 (List.mem_of_mem_take h), fun h => hkeys.2 (List.mem_of_mem_take h)⟩
      (hsplit ▸ htypes)
    exact ⟨j, hedits⟩
  · obtain ⟨j, hedits, hgets⟩ := keys_taken hkeeps hprompt hpointer hempty [last] hkeys htypes
    have hget : ∀ s : State, s.x 8 = 2 →
        (env (run (shell symbol) env j c).calls s).x 0 = last.toBitVec.setWidth 64 := by
      intro s hs
      rw [htypes _ s keys.length (by simp) hs hgets]
      simp
    obtain ⟨htook, -⟩ := inputLoop_step hkeeps hedits.holds (run (shell symbol) env j c).calls hget
    have hrun : run (shell symbol) env (j + 1) c = step (shell symbol) env
        ⟨.inputLoop, (run (shell symbol) env j c).state, (run (shell symbol) env j c).calls⟩ := by
      rw [run_succ, ← hedits.label]
    rw [← hrun] at htook
    cases htook with
    | enter _ hlabel hholds hechoed =>
        refine ⟨j + 1, .of_echoed hlabel hholds (hedits.editing (by decide)) ?_, rfl, ?_⟩
        · rw [hechoed, hedits.echoed]
        · rintro r rfl
          have hshort := hholds.line.short
          have hmem : (exec (shell symbol) (.strbReg .xzr (.x 2) (.x 3))
              (run (shell symbol) env (j + 1) c).state).mem =
              Function.update (run (shell symbol) env (j + 1) c).state.mem
                (symbol .inputBuffer + BitVec.ofNat 64 (typed 63 (keys.map key)).length) 0 := by
            rw [← hholds.pointer, ← hholds.line.length]
            rfl
          refine ⟨⟨⟨hholds.line.length, hshort, ?_⟩, hholds.pointer, ?_⟩, ?_⟩
          · intro k hk hstart
            rw [hmem, ← hholds.line.chars k hk hstart, ← hholds.pointer, Function.update_of_ne]
            · rfl
            · change (run (shell symbol) env (j + 1) c).state.x 2 + BitVec.ofNat 64 k ≠ _
              bv_omega
          · intro a ha
            have hbyte := hholds.store (k := (typed 63 (keys.map key)).length) (by omega) 0 a ha
            rw [hholds.pointer] at hbyte
            rw [hmem]
            exact hbyte
          · rw [hmem, Function.update_self]
    | erase hkey _ _ _ =>
        rcases hlast with rfl | rfl <;> exact absurd hkey (by decide)
    | put henter _ _ _ _ => exact absurd hlast henter

end Runs

/-- A keyboard that types the stream, and a kernel that does nothing else. -/
def keyboard (stream : Str) : Environment := fun calls s =>
  let b := stream.getD (gets calls) 0
  if s.x 8 = 2 then { s with x := Function.update s.x 0 (b.toBitVec.setWidth 64) } else s

theorem keyboard_keeps (stream : Str) : KeepsLine (keyboard stream) := by
  refine ⟨fun calls s => ?_, fun calls s => ?_, fun calls s _ => ?_⟩ <;>
    rw [keyboard] <;> split_ifs <;> rfl

theorem keyboard_types (stream : Str) : Types (keyboard stream) [] stream := by
  intro calls s k hk hs hgets
  have hcount : gets calls = k := hgets.trans (Nat.zero_add k)
  rw [keyboard, if_pos hs, hcount]
  change BitVec.setWidth 64 (stream.getD k 0).toBitVec = _
  rw [List.getD_eq_getElem _ _ hk]

/-- `lx`, a backspace and `s` on the first line. -/
theorem line_typed_ls : ∃ j, Edits (fun _ => 4096) (keyboard (ascii "lx" ++ [8] ++ ascii "s" ++ [13]))
    ⟨.printPrompt, ⟨Function.update (Function.update (fun _ => 0) 2 4096) 3 0, 65536, false, false,
      fun _ => 0⟩, []⟩ (ascii "lx" ++ [8] ++ ascii "s") .processCommand j := by
  have hprompt := line_typed (fun _ => 4096) (keyboard (ascii "lx" ++ [8] ++ ascii "s" ++ [13]))
    (keyboard_keeps _) ⟨fun _ => 0, 65536, false, false, fun _ => 0⟩ [] 1 _ rfl rfl
    (ascii "lx" ++ [8] ++ ascii "s") (by decide) 13 (.inl rfl) (keyboard_types _)
  exact hprompt.2.imp fun j h => h.1

example : typed 63 ((ascii "lx" ++ [8] ++ ascii "s").map key) = ascii "ls" := by decide

end Chthon.UserShell
