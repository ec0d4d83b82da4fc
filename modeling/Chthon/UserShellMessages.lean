import Chthon.UserShellScan

/-! The messages of the user shell: what the blocks that send one put together on the stack, and the
labels from which none is sent before the next prompt. -/

namespace Chthon.UserShell

open Arm64 (Word Within load store storeWords)
open BasicBlocks

/-- A system call is answered with an error. -/
def Refused (reply : State) : Prop := (reply.x 0).slt 0 = true

instance (reply : State) : Decidable (Refused reply) :=
  inferInstanceAs (Decidable ((reply.x 0).slt 0 = true))

section Blocks

variable {symbol : Symbol → Word} {env : Environment} {s : State} {calls : Calls}
  {here error : Label}

theorem clearFields_run (rest : Block) (count : Nat) :
    ∀ {s : State} {offset : Nat}, s.x 8 = 0 →
      runBlock (shell symbol) env here (clearFields offset count ++ rest) s calls =
        runBlock (shell symbol) env here rest { s with
          mem := storeWords s.mem (s.sp + BitVec.ofNat 64 offset) (List.replicate count 0) }
          calls := by
  induction count with
  | zero =>
      intro s offset _
      rfl
  | succ count ih =>
      intro s offset h
      have hmap : clearFields offset (count + 1) =
          .str (.x 8) .sp offset :: clearFields (offset + 8) count := by
        simp only [clearFields, List.range_succ_eq_map, List.map_cons, List.map_map, Nat.mul_zero,
          Nat.add_zero, List.cons.injEq, true_and]
        apply List.map_congr_left
        intro i _
        simp only [Function.comp_apply, Nat.succ_eq_add_one, Nat.mul_add, Nat.mul_one]
        rw [Nat.add_assoc, Nat.add_comm 8]
      have hfirst : runBlock (shell symbol) env here (clearFields offset (count + 1) ++ rest) s calls =
          runBlock (shell symbol) env here (clearFields (offset + 8) count ++ rest) { s with
            mem := store s.mem (s.sp + BitVec.ofNat 64 offset) 0 } calls := by
        rw [hmap, List.cons_append, runBlock, exec, State.get, State.get, h]
        all_goals simp
      rw [hfirst, ih (by exact h), List.replicate_succ, storeWords, BitVec.ofNat_add,
        BitVec.add_assoc]
      rfl

/-- The state in which the kernel finds a message at `sp`. -/
def asking (s : State) : State :=
  { s with x := Function.update (Function.update s.x 0 s.sp) 8 4 }

theorem asking_number (s : State) : (asking s).x 8 = 4 := by
  simp [asking]

theorem asking_message (s : State) : (asking s).x 0 = s.sp := by
  simp [asking]

variable (symbol env s calls here error) in
theorem sendMessage_run :
    ∃ s', runBlock (shell symbol) env here (sendMessage error) s calls =
        ⟨if Refused (env calls (asking s)) then error else .resetAndPrompt, s',
          calls ++ [(asking s, env calls (asking s))]⟩ ∧
      s'.sp = if Refused (env calls (asking s)) then (env calls (asking s)).sp
        else (env calls (asking s)).sp + 96 := by
  have hrun : runBlock (shell symbol) env here (sendMessage error) s calls =
      if Refused (env calls (asking s)) then
        ⟨error, (env calls (asking s)).compare ((env calls (asking s)).x 0) 0,
          calls ++ [(asking s, env calls (asking s))]⟩
      else ⟨.resetAndPrompt, ((env calls (asking s)).compare ((env calls (asking s)).x 0) 0).set .sp
          ((env calls (asking s)).sp + 96), calls ++ [(asking s, env calls (asking s))]⟩ := rfl
  rw [hrun]
  by_cases h : Refused (env calls (asking s))
  · exact ⟨_, by rw [if_pos h, if_pos h], by rw [if_pos h]; rfl⟩
  · exact ⟨_, by rw [if_neg h, if_neg h], by rw [if_neg h]; rfl⟩

/-- A block has asked the kernel once, with a message of the given doublewords below the stack, and
goes on by the answer. -/
structure Asks (env : Environment) (s : State) (calls : Calls) (m : Arm64.Memory) (ws : List Word)
    (error : Label) (c : Config Label) (r : State) : Prop where
  number : r.x 8 = 4
  message : r.x 0 = s.sp - 96
  mem : r.mem = storeWords m (s.sp - 96) ws
  made : c.calls = calls ++ [(r, env calls r)]
  label : c.label = if Refused (env calls r) then error else .resetAndPrompt
  sp : c.state.sp = if Refused (env calls r) then s.sp - 96 else s.sp

/-- The part of a block behind the first fields of its message. -/
theorem asks_clear (hkeeps : KeepsCaller env) {m : Arm64.Memory} {ws : List Word} {s₁ : State}
    {count offset : Nat} (hx : s₁.x 8 = 0) (hsp : s₁.sp = s.sp - 96)
    (hmem : storeWords s₁.mem (s₁.sp + BitVec.ofNat 64 offset) (List.replicate count 0) =
      storeWords m (s.sp - 96) ws) :
    ∃ r, Asks env s calls m ws error (runBlock (shell symbol) env here
      (clearFields offset count ++ sendMessage error) s₁ calls) r := by
  rw [clearFields_run _ _ hx]
  set s₂ : State := { s₁ with
    mem := storeWords s₁.mem (s₁.sp + BitVec.ofNat 64 offset) (List.replicate count 0) } with hs₂
  obtain ⟨s', hrun, hsp'⟩ := sendMessage_run symbol env s₂ calls here error
  have hback : (env calls (asking s₂)).sp = s.sp - 96 := (hkeeps.sp calls (asking s₂)).trans hsp
  refine ⟨asking s₂, asking_number s₂, (asking_message s₂).trans hsp, hmem, ?_, ?_, ?_⟩
  · rw [hrun]
  · rw [hrun]
  · rw [hrun, hsp', hback]
    split_ifs
    · rfl
    · bv_omega

variable (symbol s calls here error) in
/-- The message about a path, or nothing if the argument is empty. -/
theorem sendPath_run (hkeeps : KeepsCaller env) (type : Nat) (noArgs : Label) :
    (s.x 6 = s.x 5 ∧ ∃ s', runBlock (shell symbol) env here (sendPath type noArgs error) s calls =
        ⟨noArgs, s', calls⟩ ∧ s'.sp = s.sp) ∨
      s.x 6 ≠ s.x 5 ∧ ∃ r, Asks env s calls (Function.update s.mem (s.x 2 + s.x 6) 0)
        (BitVec.ofNat 64 type :: (s.x 2 + s.x 5) :: List.replicate 10 0) error
        (runBlock (shell symbol) env here (sendPath type noArgs error) s calls) r := by
  let s₁ : State := { s with x := Function.update s.x 7 (s.x 6 - s.x 5) }.compare (s.x 6 - s.x 5) 0
  let s₂ : State := { s₁ with
    x := Function.update (Function.update (Function.update s₁.x 8 (BitVec.ofNat 64 type)) 8
      (s.x 2 + s.x 5)) 8 0
    sp := s.sp - 96
    mem := store (store (Function.update s.mem (s.x 2 + s.x 6) 0) (s.sp - 96 + 0)
      (BitVec.ofNat 64 type)) (s.sp - 96 + 8) (s.x 2 + s.x 5) }
  have hrun : runBlock (shell symbol) env here (sendPath type noArgs error) s calls =
      if s₁.zero = true then ⟨noArgs, s₁, calls⟩
      else runBlock (shell symbol) env here (clearFields 16 10 ++ sendMessage error) s₂ calls := rfl
  have hzero : s₁.zero = true ↔ s.x 6 = s.x 5 := by
    change decide (s.x 6 - s.x 5 = 0) = true ↔ s.x 6 = s.x 5
    rw [decide_eq_true_eq, sub_eq_zero]
  rw [hrun]
  by_cases h : s.x 6 = s.x 5
  · exact .inl ⟨h, s₁, if_pos (hzero.mpr h), rfl⟩
  · refine .inr ⟨h, ?_⟩
    rw [if_neg (mt hzero.mp h)]
    apply asks_clear hkeeps (by simp [s₂]) rfl
    simp [s₂, storeWords, BitVec.add_assoc]

variable (symbol s calls here error) in
/-- The message about two paths; it asks that the first argument starts before the second. -/
theorem sendPaths_run (hkeeps : KeepsCaller env) (type : Nat) (path data : Fin 31)
    (noArgs : Label) (hpath : path ≠ 8) (hdata : data ≠ 8) :
    ((s.x 5).slt (s.x 6) = false ∧ ∃ s', runBlock (shell symbol) env here
        (sendPaths type path data noArgs error) s calls = ⟨noArgs, s', calls⟩ ∧ s'.sp = s.sp) ∨
      (s.x 5).slt (s.x 6) = true ∧ ∃ r, Asks env s calls
        (Function.update s.mem (s.x 2 + s.x 4) 0)
        (BitVec.ofNat 64 type :: (s.x 2 + s.x path) :: 0 :: (s.x 2 + s.x data) ::
          List.replicate 8 0) error
        (runBlock (shell symbol) env here (sendPaths type path data noArgs error) s calls) r := by
  let s₁ : State :=
    { s with mem := Function.update s.mem (s.x 2 + s.x 4) 0 }.compare (s.x 5) (s.x 6)
  have hrun : runBlock (shell symbol) env here (sendPaths type path data noArgs error) s calls =
      if (!s₁.less) = true then ⟨noArgs, s₁, calls⟩
      else runBlock (shell symbol) env here (clearFields 32 8 ++ sendMessage error)
        ([.sub .sp .sp 96, .mov (.x 8) type, .str (.x 8) .sp 0, .addReg (.x 8) (.x 2) (.x path),
          .str (.x 8) .sp 8, .mov (.x 8) 0, .str (.x 8) .sp 16, .addReg (.x 8) (.x 2) (.x data),
          .str (.x 8) .sp 24, .mov (.x 8) 0].foldl (fun s i => exec (shell symbol) i s) s₁) calls :=
    rfl
  rw [hrun]
  cases hless : (s.x 5).slt (s.x 6) with
  | false =>
      have hbranch : (!s₁.less) = true := by
        change (!(s.x 5).slt (s.x 6)) = true
        rw [hless]
        rfl
      exact .inl ⟨rfl, s₁, if_pos hbranch, rfl⟩
  | true =>
      have hbranch : ¬ (!s₁.less) = true := by
        change ¬ (!(s.x 5).slt (s.x 6)) = true
        rw [hless]
        decide
      refine .inr ⟨rfl, ?_⟩
      rw [if_neg hbranch]
      apply asks_clear hkeeps
      · simp [exec, State.get, State.set]
      · simp [exec, State.get, State.set, s₁, State.compare]
      · simp [exec, State.get, State.set, s₁, State.compare, storeWords, BitVec.add_assoc, hpath,
          hdata]

variable (symbol s calls) in
/-- `cd` without an argument: the message about the root. -/
theorem cdNoArgs_run (hkeeps : KeepsCaller env) : ∃ r, Asks env s calls s.mem
    (BitVec.ofNat 64 msgChdir :: symbol .rootPath :: List.replicate 10 0) .cdErrorNoargs
    (runBlock (shell symbol) env .cdNoArgs (code .cdNoArgs) s calls) r := by
  have hrun : runBlock (shell symbol) env .cdNoArgs (code .cdNoArgs) s calls =
      runBlock (shell symbol) env .cdNoArgs (clearFields 16 10 ++ sendMessage .cdErrorNoargs)
        ([.sub .sp .sp 96, .mov (.x 8) msgChdir, .str (.x 8) .sp 0, .adr (.x 8) .rootPath,
          .str (.x 8) .sp 8, .mov (.x 8) 0].foldl (fun s i => exec (shell symbol) i s) s) calls :=
    rfl
  rw [hrun]
  apply asks_clear hkeeps
  · simp [exec, State.get, State.set]
  · simp [exec, State.get, State.set]
  · simp [exec, State.get, State.set, storeWords, BitVec.add_assoc, shell]

variable (symbol env s calls) in
/-- One round of clearing the message of `pwd`; the last one goes on to send it. -/
theorem clearPwdMsg_run :
    ((s.x 6).slt 1 = false ∧ ∃ s', runBlock (shell symbol) env .clearPwdMsg (code .clearPwdMsg) s
        calls = ⟨.clearPwdMsg, s', calls⟩ ∧ s'.x 6 = s.x 6 - 1) ∨
      (s.x 6).slt 1 = true ∧ ∃ s' r, r.x 8 = 4 ∧
        load r.mem (r.x 0) = BitVec.ofNat 64 msgGetcwd ∧
        runBlock (shell symbol) env .clearPwdMsg (code .clearPwdMsg) s calls =
          ⟨if Refused (env calls r) then .pwdError else .printMessageAndRestorePwd, s',
            calls ++ [(r, env calls r)]⟩ := by
  let s₁ : State := { s with mem := store s.mem (s.x 4 + 8 * s.x 6) (s.x 5) }.compare (s.x 6) 1
  let s₂ : State := { s₁ with x := Function.update s₁.x 6 (s.x 6 - 1) }
  let r : State := { s₂ with
    x := Function.update (Function.update (Function.update (Function.update (Function.update s₂.x 5
      (BitVec.ofNat 64 msgGetcwd)) 5 (s₂.sp + 64)) 5 512) 0 (s.x 4)) 8 4
    mem := store (store (store s₂.mem (s.x 4 + 0) (BitVec.ofNat 64 msgGetcwd)) (s.x 4 + 24)
      (s₂.sp + 64)) (s.x 4 + 32) 512 }
  let a := (env calls r).compare ((env calls r).x 0) 0
  have hrun : runBlock (shell symbol) env .clearPwdMsg (code .clearPwdMsg) s calls =
      if (!(s.x 6).slt 1) = true then ⟨.clearPwdMsg, s₂, calls⟩
      else if Refused (env calls r) then ⟨.pwdError, a, calls ++ [(r, env calls r)]⟩
      else ⟨.printMessageAndRestorePwd, a.set (.x 4) (a.sp + 64), calls ++ [(r, env calls r)]⟩ := rfl
  have htype : load r.mem (r.x 0) = BitVec.ofNat 64 msgGetcwd := by
    have haddr : r.x 0 = s.x 4 := by simp [r]
    rw [haddr, Arm64.load_store_apart _ _ (by bv_omega) (by bv_omega),
      Arm64.load_store_apart _ _ (by bv_omega) (by bv_omega), show s.x 4 + 0 = s.x 4 by simp,
      Arm64.load_store]
  rw [hrun]
  cases hless : (s.x 6).slt 1 with
  | false => exact .inl ⟨rfl, s₂, if_pos (by decide), by simp [s₂]⟩
  | true =>
      refine .inr ⟨rfl, ?_⟩
      rw [if_neg (by decide)]
      by_cases h : Refused (env calls r)
      · exact ⟨a, r, by simp [r], htype, by rw [if_pos h, if_pos h]⟩
      · exact ⟨a.set (.x 4) (a.sp + 64), r, by simp [r], htype, by rw [if_neg h, if_neg h]⟩

/-- A block has asked the kernel once, for a listing of the path at `x9`. -/
structure AsksListing (env : Environment) (s : State) (calls : Calls) (c : Config Label)
    (r : State) : Prop where
  number : r.x 8 = 4
  message : r.x 0 = s.sp
  mem : r.mem = storeWords s.mem s.sp
    [BitVec.ofNat 64 msgReadDir, s.x 9, 0, s.sp + 96, 4096, 0, 0, 0, 0, 0, 0, 0]
  made : c.calls = calls ++ [(r, env calls r)]

variable (symbol env s calls) in
theorem lsDoReaddir_run : ∃ r, AsksListing env s calls
    (runBlock (shell symbol) env .lsDoReaddir (code .lsDoReaddir) s calls) r := by
  let r := [.mov (.x 4) msgReadDir, .str (.x 4) .sp 0, .str (.x 9) .sp 8,
    .mov (.x 4) 0, .str (.x 4) .sp 16, .add (.x 4) .sp 96, .str (.x 4) .sp 24,
    .mov (.x 4) 4096, .str (.x 4) .sp 32, .mov (.x 4) 0, .str (.x 4) .sp 40,
    .str (.x 4) .sp 48, .str (.x 4) .sp 56, .str (.x 4) .sp 64, .str (.x 4) .sp 72,
    .str (.x 4) .sp 80, .str (.x 4) .sp 88, .movReg (.x 0) .sp, .mov (.x 8) 4].foldl
      (fun s i => exec (shell symbol) i s) s
  let a := env calls r
  let b := (a.compare (a.x 0) 0).set (.x 4) (load a.mem (a.sp + 72))
  have hrun : runBlock (shell symbol) env .lsDoReaddir (code .lsDoReaddir) s calls =
      if Refused a then ⟨.lsError, a.compare (a.x 0) 0, calls ++ [(r, a)]⟩
      else if (b.compare (b.x 4) 0).zero then ⟨.lsEmpty, b.compare (b.x 4) 0, calls ++ [(r, a)]⟩
      else ⟨.lsLoop, (((b.compare (b.x 4) 0).set (.x 5) (b.sp + 96)).set (.x 6) 0),
        calls ++ [(r, a)]⟩ := rfl
  refine ⟨r, ?_, ?_, ?_, ?_⟩
  · simp [r, exec, State.get, State.set]
  · simp [r, exec, State.get, State.set]
  · simp [r, exec, State.get, State.set, storeWords, BitVec.add_assoc]
  · rw [hrun]
    split_ifs <;> rfl

theorem AsksListing.outside {c : Config Label} {r : State} (h : AsksListing env s calls c r)
    {a : Word} (ha : ¬ Within s.sp 96 a) : r.mem a = s.mem a := by
  rw [h.mem]
  exact Arm64.storeWords_outside s.mem ha

theorem AsksListing.fields {c : Config Label} {r : State} (h : AsksListing env s calls c r) :
    load r.mem (r.x 0) = BitVec.ofNat 64 msgReadDir ∧ load r.mem (r.x 0 + 8) = s.x 9 := by
  rw [h.mem, h.message]
  refine ⟨Arm64.load_storeWords_cons _ _ _ (by simp), ?_⟩
  exact Arm64.load_storeWords s.mem s.sp (by simp) (i := 1) (by simp)

/-- A block has asked the kernel once, for the directory of the process in a buffer of 512 bytes, and
goes on by the answer. -/
structure AsksCwd (env : Environment) (s : State) (calls : Calls) (c : Config Label)
    (r : State) : Prop where
  number : r.x 8 = 4
  message : r.x 0 = s.x 4
  type : load r.mem (r.x 0) = BitVec.ofNat 64 msgGetcwd
  data : load r.mem (r.x 0 + 24) = s.sp + 4192
  size : load r.mem (r.x 0 + 32) = 512
  outside : ∀ a, ¬ Within (s.x 4) 96 a → r.mem a = s.mem a
  made : c.calls = calls ++ [(r, env calls r)]
  label : c.label = if Refused (env calls r) then .lsCwdError else .lsDoReaddir
  sp : r.sp = s.sp ∧ c.state.sp = (env calls r).sp
  mem : c.state.mem = (env calls r).mem
  path : ¬ Refused (env calls r) → c.state.x 9 = (env calls r).sp + 4192

variable (symbol env s calls) in
/-- One round of clearing the message of `ls`; the last one goes on to send it. -/
theorem clearLsCwdMsg_run :
    ((s.x 6).slt 1 = false ∧ ∃ s', runBlock (shell symbol) env .clearLsCwdMsg (code .clearLsCwdMsg) s
        calls = ⟨.clearLsCwdMsg, s', calls⟩ ∧ Keeps [6] { s with mem := s'.mem } s' ∧
        s'.x 6 = s.x 6 - 1 ∧ s'.mem = store s.mem (s.x 4 + 8 * s.x 6) (s.x 5)) ∨
      (s.x 6).slt 1 = true ∧ ∃ r, AsksCwd env
        { s with mem := store s.mem (s.x 4 + 8 * s.x 6) (s.x 5) } calls
        (runBlock (shell symbol) env .clearLsCwdMsg (code .clearLsCwdMsg) s calls) r := by
  let s₁ : State := { s with mem := store s.mem (s.x 4 + 8 * s.x 6) (s.x 5) }.compare (s.x 6) 1
  let s₂ : State := { s₁ with x := Function.update s₁.x 6 (s.x 6 - 1) }
  let r := [.mov (.x 5) msgGetcwd, .str (.x 5) (.x 4) 0, .add (.x 5) .sp 96,
    .add (.x 5) (.x 5) 4096, .str (.x 5) (.x 4) 24, .mov (.x 5) 512, .str (.x 5) (.x 4) 32,
    .movReg (.x 0) (.x 4), .mov (.x 8) 4].foldl (fun s i => exec (shell symbol) i s) s₂
  let a := (env calls r).compare ((env calls r).x 0) 0
  have hrun : runBlock (shell symbol) env .clearLsCwdMsg (code .clearLsCwdMsg) s calls =
      if (!(s.x 6).slt 1) = true then ⟨.clearLsCwdMsg, s₂, calls⟩
      else if Refused (env calls r) then ⟨.lsCwdError, a, calls ++ [(r, env calls r)]⟩
      else ⟨.lsDoReaddir, (a.set (.x 9) (a.sp + 96)).set (.x 9)
        ((a.set (.x 9) (a.sp + 96)).x 9 + 4096), calls ++ [(r, env calls r)]⟩ := rfl
  rw [hrun]
  cases hless : (s.x 6).slt 1 with
  | false =>
      refine .inl ⟨rfl, s₂, if_pos (by decide), ⟨?_, rfl, rfl⟩, by simp [s₂], rfl⟩
      intro q hq
      exact Function.update_of_ne (fun heq => hq (List.mem_singleton.mpr heq)) _ _
  | true =>
      refine .inr ⟨rfl, r, ?_⟩
      rw [if_neg (by decide)]
      have haddr : r.x 0 = s.x 4 := by simp [r, exec, State.get, State.set, s₂, s₁, State.compare]
      have hmem : r.mem = store (store (store s₁.mem (s.x 4) (BitVec.ofNat 64 msgGetcwd))
          (s.x 4 + 24) (s.sp + 4192)) (s.x 4 + 32) 512 := by
        simp [r, exec, State.get, State.set, s₂, s₁, State.compare, BitVec.add_assoc]
      refine ⟨?_, haddr, ?_, ?_, ?_, ?_, ?_, ?_, ⟨?_, ?_⟩, ?_, ?_⟩
      · simp [r, exec, State.get, State.set]
      · rw [haddr, hmem, Arm64.load_store_apart _ _ (by bv_omega) (by bv_omega),
          Arm64.load_store_apart _ _ (by bv_omega) (by bv_omega), Arm64.load_store]
      · rw [haddr, hmem, Arm64.load_store_apart _ _ (by bv_omega) (by bv_omega), Arm64.load_store]
      · rw [haddr, hmem, Arm64.load_store]
      · intro b hb
        have hfar : ∀ d : Word, d.toNat ≤ 88 → 8 ≤ (b - (s.x 4 + d)).toNat := by
          intro d hd
          rw [Within] at hb
          change ¬ (b - s.x 4).toNat < 96 at hb
          bv_omega
        have hnear : 8 ≤ (b - s.x 4).toNat := by
          simpa using hfar 0 (by decide)
        rw [hmem, Arm64.store_outside _ _ (hfar 32 (by decide)),
          Arm64.store_outside _ _ (hfar 24 (by decide)), Arm64.store_outside _ _ hnear]
        rfl
      · split_ifs <;> rfl
      · split_ifs <;> rfl
      · simp [r, exec, State.get, State.set, s₂, s₁, State.compare]
      · split_ifs <;> rfl
      · split_ifs <;> rfl
      · intro hrefused
        rw [if_neg hrefused]
        simp [a, State.set, State.compare, BitVec.add_assoc]

end Blocks

/-! What a message says, by the layout of `struct Message`. -/

/-- What is asked for by a message: its type, with a path and with data where these are texts. -/
inductive Request where
  | bare (type : Nat)
  | onPath (type : Nat) (path : Str)
  | onPaths (type : Nat) (path data : Str)
  deriving DecidableEq

/-- The C string at the address is the text. -/
structure StringAt (m : Arm64.Memory) (a : Word) (text : Str) : Prop where
  nul_free : 0 ∉ text
  chars : ∀ k (hk : k < text.length), m (a + BitVec.ofNat 64 k) = text[k].toBitVec
  nul : m (a + BitVec.ofNat 64 text.length) = 0

/-- The message at `x0` makes the request: the type is its first doubleword, the path its second and
the data its fourth. -/
def Carries (r : State) : Request → Prop
  | .bare type => load r.mem (r.x 0) = BitVec.ofNat 64 type
  | .onPath type path =>
      load r.mem (r.x 0) = BitVec.ofNat 64 type ∧ StringAt r.mem (load r.mem (r.x 0 + 8)) path
  | .onPaths type path data =>
      load r.mem (r.x 0) = BitVec.ofNat 64 type ∧ StringAt r.mem (load r.mem (r.x 0 + 8)) path ∧
        StringAt r.mem (load r.mem (r.x 0 + 24)) data

/-- The `n` bytes from `a` on are none of the 96 bytes below the stack. -/
def OffStack (s : State) (a : Word) (n : Nat) : Prop :=
  ∀ k < n, ¬ Within (s.sp - 96) 96 (a + BitVec.ofNat 64 k)

section Texts

variable {m : Arm64.Memory} {a : Word} {text : Str}

theorem add_ofNat_inj {a : Word} {j k : Nat} (hj : j < 2 ^ 64) (hk : k < 2 ^ 64) :
    a + BitVec.ofNat 64 j = a + BitVec.ofNat 64 k ↔ j = k := by
  rw [add_right_inj, ← BitVec.toNat_inj, BitVec.toNat_ofNat, BitVec.toNat_ofNat,
    Nat.mod_eq_of_lt hj, Nat.mod_eq_of_lt hk]

theorem add_ofNat_add (a : Word) (j k : Nat) :
    a + BitVec.ofNat 64 j + BitVec.ofNat 64 k = a + BitVec.ofNat 64 (j + k) := by
  rw [BitVec.add_assoc, ← BitVec.ofNat_add]

theorem StringAt.congr {m' : Arm64.Memory} (h : StringAt m a text)
    (hm : ∀ k ≤ text.length, m' (a + BitVec.ofNat 64 k) = m (a + BitVec.ofNat 64 k)) :
    StringAt m' a text where
  nul_free := h.nul_free
  chars k hk := (hm k hk.le).trans (h.chars k hk)
  nul := (hm _ le_rfl).trans h.nul

/-- A message below the stack leaves a text alone that is not there. -/
theorem StringAt.storeWords {s : State} (h : StringAt m a text)
    (hoff : OffStack s a (text.length + 1)) {ws : List Word} (hws : 8 * ws.length = 96) :
    StringAt (storeWords m (s.sp - 96) ws) a text := by
  apply h.congr
  intro k hk
  apply Arm64.storeWords_outside
  rw [hws]
  exact hoff k (Nat.lt_succ_of_le hk)

/-- An argument of the line becomes a C string with the NUL behind it. -/
theorem LineFrom.terminated {s : State} {start : Nat} {pre arg rest : Str}
    (h : LineFrom s text start) (htext : text = pre ++ arg ++ rest) (hstart : start ≤ pre.length)
    (hnul : 0 ∉ text) :
    StringAt (Function.update s.mem (s.x 2 + BitVec.ofNat 64 (pre ++ arg).length) 0)
      (s.x 2 + BitVec.ofNat 64 pre.length) arg := by
  have hshort := h.short
  have hlen : text.length = pre.length + arg.length + rest.length := by
    rw [htext, List.length_append, List.length_append]
  refine ⟨?_, ?_, ?_⟩
  · intro hmem
    apply hnul
    rw [htext]
    simp [hmem]
  · intro k hk
    have hne : s.x 2 + BitVec.ofNat 64 (pre.length + k) ≠
        s.x 2 + BitVec.ofNat 64 (pre ++ arg).length := by
      rw [ne_eq, add_ofNat_inj (by omega) (by rw [List.length_append]; omega), List.length_append]
      omega
    rw [add_ofNat_add, Function.update_of_ne hne, h.chars (pre.length + k) (by omega) (by omega)]
    simp [htext, hk]
  · rw [add_ofNat_add, ← List.length_append, Function.update_self]

/-- A NUL in front of a position leaves the line behind it, and so does one behind the line. -/
theorem LineFrom.update {s : State} {start : Nat} {n : Nat} (h : LineFrom s text start)
    (hn : n < start ∨ text.length ≤ n) (hfits : n < 2 ^ 64) : LineFrom { s with
      mem := Function.update s.mem (s.x 2 + BitVec.ofNat 64 n) 0 } text start where
  length := h.length
  short := h.short
  chars k hk hstart := by
    have hshort := h.short
    have hne : s.x 2 + BitVec.ofNat 64 k ≠ s.x 2 + BitVec.ofNat 64 n := by
      rw [ne_eq, add_ofNat_inj (by omega) hfits]
      omega
    exact (Function.update_of_ne hne _ _).trans (h.chars k hk hstart)

end Texts

/-! The doublewords of a message that a block has sent. -/

section Fields

variable {env : Environment} {s : State} {calls : Calls} {m : Arm64.Memory} {ws : List Word}
  {error : Label} {c : Config Label} {r : State}

theorem Asks.field (h : Asks env s calls m ws error c r) (hfits : 8 * ws.length ≤ 2 ^ 64) {i : Nat}
    (hi : i < ws.length) : load r.mem (r.x 0 + BitVec.ofNat 64 (8 * i)) = ws[i] := by
  rw [h.mem, h.message, Arm64.load_storeWords m _ hfits hi]

theorem Asks.type {w : Word} (h : Asks env s calls m (w :: ws) error c r)
    (hfits : 8 * (ws.length + 1) ≤ 2 ^ 64) : load r.mem (r.x 0) = w := by
  rw [h.mem, h.message, Arm64.load_storeWords_cons _ _ _ hfits]

theorem Asks.onPath {type : Nat} {path : Word} {text : Str}
    (h : Asks env s calls m (BitVec.ofNat 64 type :: path :: List.replicate 10 0) error c r)
    (htext : StringAt m path text) (hoff : OffStack s path (text.length + 1)) :
    Carries r (.onPath type text) := by
  have hlen : (BitVec.ofNat 64 type :: path :: List.replicate 10 0).length = 12 := by simp
  have hpath := h.field (i := 1) (by rw [hlen]; omega) (by omega)
  refine ⟨h.type (by simp), ?_⟩
  rw [show load r.mem (r.x 0 + 8) = path from hpath, h.mem]
  exact htext.storeWords hoff (by rw [hlen])

theorem Asks.onPaths {type : Nat} {path data : Word} {text text' : Str}
    (h : Asks env s calls m (BitVec.ofNat 64 type :: path :: 0 :: data :: List.replicate 8 0) error
      c r) (htext : StringAt m path text) (hoff : OffStack s path (text.length + 1))
    (htext' : StringAt m data text') (hoff' : OffStack s data (text'.length + 1)) :
    Carries r (.onPaths type text text') := by
  have hlen : (BitVec.ofNat 64 type :: path :: 0 :: data :: List.replicate 8 0).length = 12 := by
    simp
  have hpath := h.field (i := 1) (by rw [hlen]; omega) (by omega)
  have hdata := h.field (i := 3) (by rw [hlen]; omega) (by omega)
  refine ⟨h.type (by simp), ?_, ?_⟩
  · rw [show load r.mem (r.x 0 + 8) = path from hpath, h.mem]
    exact htext.storeWords hoff (by rw [hlen])
  · rw [show load r.mem (r.x 0 + 24) = data from hdata, h.mem]
    exact htext'.storeWords hoff' (by rw [hlen])

end Fields

end Chthon.UserShell
