import Chthon.Lib.Arm64

/-! Programs of AArch64 as labelled blocks. A block that does not end in a branch runs on into the
next one, and a step of the machine is a whole block. System calls are answered by an environment
that knows all earlier calls. The code is not part of the memory, and alignment faults are not
modelled. -/

namespace BasicBlocks

open Arm64 (Word Reg load store Within)

inductive Cond where
  | eq
  | ne
  | lt
  | ge

/-- Instructions with labels in `L` and symbols for addresses in `S`. The names with `Reg` take a
register where the others take a number; `cmpw` compares the lower halves. -/
inductive Instr (L S : Type) where
  | mov (d : Reg) (value : Nat)
  | movReg (d a : Reg)
  | adr (d : Reg) (symbol : S)
  | add (d a : Reg) (value : Nat)
  | addReg (d a b : Reg)
  | sub (d a : Reg) (value : Nat)
  | subReg (d a b : Reg)
  | subs (d a : Reg) (value : Nat)
  | mul (d a b : Reg)
  | cmp (a : Reg) (value : Nat)
  | cmpReg (a b : Reg)
  | cmpw (a : Reg) (value : Nat)
  | ldrb (d base : Reg) (offset : Nat)
  | ldrbReg (d base index : Reg)
  | strbReg (a base index : Reg)
  | ldr (d base : Reg) (offset : Nat)
  | str (a base : Reg) (offset : Nat)
  /-- The index counts doublewords. -/
  | strReg (a base index : Reg)
  | branch (label : L)
  | branchIf (cond : Cond) (label : L)
  | svc

/-- Of the condition flags, Z and whether N differs from V are kept. -/
structure State where
  x : Fin 31 → Word
  sp : Word
  zero : Bool
  less : Bool
  mem : Arm64.Memory

namespace State

variable (s : State)

def get : Reg → Word
  | .x n => s.x n
  | .sp => s.sp
  | .xzr => 0

def set (r : Reg) (v : Word) : State :=
  match r with
  | .x n => { s with x := Function.update s.x n v }
  | .sp => { s with sp := v }
  | .xzr => s

/-- The flags after the subtraction of `b` from `a`. -/
def compare {w : Nat} (a b : BitVec w) : State :=
  { s with zero := decide (a = b), less := a.slt b }

def holds : Cond → Bool
  | .eq => s.zero
  | .ne => !s.zero
  | .lt => s.less
  | .ge => !s.less

end State

/-- Earlier system calls: the state at the `svc`, and the state it went on in. -/
abbrev Calls := List (State × State)

/-- What answers system calls. -/
abbrev Environment := Calls → State → State

structure Program (L S : Type) where
  code : L → List (Instr L S)
  /-- The label behind a block. -/
  next : L → L
  symbol : S → Word

structure Config (L : Type) where
  label : L
  state : State
  calls : Calls

/-- The registers an instruction sets. -/
def Instr.targets {L S : Type} : Instr L S → List Reg
  | .mov d _ | .movReg d _ | .adr d _ | .add d _ _ | .addReg d _ _ | .sub d _ _ | .subReg d _ _
  | .subs d _ _ | .mul d _ _ | .ldrb d _ _ | .ldrbReg d _ _ | .ldr d _ _ => [d]
  | _ => []

section Machine

variable {L S : Type} (p : Program L S) (env : Environment)

/-- The effect of an instruction that neither branches nor traps. -/
def exec (i : Instr L S) (s : State) : State :=
  match i with
  | .mov d value => s.set d (BitVec.ofNat 64 value)
  | .movReg d a => s.set d (s.get a)
  | .adr d symbol => s.set d (p.symbol symbol)
  | .add d a value => s.set d (s.get a + BitVec.ofNat 64 value)
  | .addReg d a b => s.set d (s.get a + s.get b)
  | .sub d a value => s.set d (s.get a - BitVec.ofNat 64 value)
  | .subReg d a b => s.set d (s.get a - s.get b)
  | .subs d a value =>
      (s.compare (s.get a) (BitVec.ofNat 64 value)).set d (s.get a - BitVec.ofNat 64 value)
  | .mul d a b => s.set d (s.get a * s.get b)
  | .cmp a value => s.compare (s.get a) (BitVec.ofNat 64 value)
  | .cmpReg a b => s.compare (s.get a) (s.get b)
  | .cmpw a value => s.compare ((s.get a).setWidth 32) (BitVec.ofNat 32 value)
  | .ldrb d base offset => s.set d ((s.mem (s.get base + BitVec.ofNat 64 offset)).setWidth 64)
  | .ldrbReg d base index => s.set d ((s.mem (s.get base + s.get index)).setWidth 64)
  | .strbReg a base index =>
      { s with mem := Function.update s.mem (s.get base + s.get index) ((s.get a).setWidth 8) }
  | .ldr d base offset => s.set d (load s.mem (s.get base + BitVec.ofNat 64 offset))
  | .str a base offset =>
      { s with mem := store s.mem (s.get base + BitVec.ofNat 64 offset) (s.get a) }
  | .strReg a base index => { s with mem := store s.mem (s.get base + 8 * s.get index) (s.get a) }
  | _ => s

/-- Run the rest of the block at `here`. -/
def runBlock (here : L) : List (Instr L S) → State → Calls → Config L
  | [], s, calls => ⟨p.next here, s, calls⟩
  | .branch label :: _, s, calls => ⟨label, s, calls⟩
  | .branchIf cond label :: code, s, calls =>
      if s.holds cond then ⟨label, s, calls⟩ else runBlock here code s calls
  | .svc :: code, s, calls => runBlock here code (env calls s) (calls ++ [(s, env calls s)])
  | i :: code, s, calls => runBlock here code (exec p i s) calls

def step (c : Config L) : Config L := runBlock p env c.label (p.code c.label) c.state c.calls

def run (n : Nat) (c : Config L) : Config L := (step p env)^[n] c

/-- A step, but not beyond a label. -/
def stepTo [DecidableEq L] (stop : L) (c : Config L) : Config L :=
  if c.label = stop then c else step p env c

/-- A run that ends at a label. -/
def runTo [DecidableEq L] (stop : L) (n : Nat) (c : Config L) : Config L :=
  (stepTo p env stop)^[n] c

/-- On the way to `stop`, the machine comes from `c` to `c'`. -/
def Reaches [DecidableEq L] (stop : L) (c c' : Config L) : Prop := ∃ n, runTo p env stop n c = c'

/-- All but the listed registers, the flags and the history of calls is the same. -/
structure Keeps (changed : List (Fin 31)) (s s' : State) : Prop where
  x : ∀ r ∉ changed, s'.x r = s.x r
  sp : s'.sp = s.sp
  mem : s'.mem = s.mem

end Machine

section Runs

variable {L S : Type} {p : Program L S} {env : Environment} {c c' c'' : Config L} {s s' s'' : State}
  {calls : Calls} {here : L} {code : List (Instr L S)}

theorem run_zero : run p env 0 c = c := rfl

theorem run_succ (n : Nat) : run p env (n + 1) c = step p env (run p env n c) :=
  Function.iterate_succ_apply' _ _ _

theorem run_add (m n : Nat) : run p env (m + n) c = run p env m (run p env n c) :=
  Function.iterate_add_apply _ _ _ _

section Stop

variable [DecidableEq L] {stop : L}

theorem runTo_succ (n : Nat) :
    runTo p env stop (n + 1) c = stepTo p env stop (runTo p env stop n c) :=
  Function.iterate_succ_apply' _ _ _

theorem runTo_add (m n : Nat) :
    runTo p env stop (m + n) c = runTo p env stop m (runTo p env stop n c) :=
  Function.iterate_add_apply _ _ _ _

theorem runTo_invariant {P : Config L → Prop} (start : P c)
    (keep : ∀ c, P c → c.label ≠ stop → P (step p env c)) (n : Nat) :
    P (runTo p env stop n c) := by
  induction n with
  | zero => exact start
  | succ n ih =>
      rw [runTo_succ, stepTo]
      split_ifs with hstop
      · exact ih
      · exact keep _ ih hstop

/-- Before it is at `stop`, the machine runs as without it. -/
theorem runTo_eq_run {n : Nat} (h : ∀ m < n, (run p env m c).label ≠ stop) :
    runTo p env stop n c = run p env n c := by
  induction n with
  | zero => rfl
  | succ n ih =>
      have hbefore := h n (Nat.lt_succ_self n)
      rw [runTo_succ, ih fun m hm => h m (hm.trans (Nat.lt_succ_self n)), stepTo, if_neg hbefore,
        run_succ]

theorem runTo_stays (hstop : c.label = stop) (n : Nat) : runTo p env stop n c = c := by
  induction n with
  | zero => rfl
  | succ n ih => rw [runTo_succ, ih, stepTo, if_pos hstop]

theorem Reaches.refl (c : Config L) : Reaches p env stop c c := ⟨0, rfl⟩

theorem Reaches.trans (h : Reaches p env stop c c') (h' : Reaches p env stop c' c'') :
    Reaches p env stop c c'' := by
  obtain ⟨m, rfl⟩ := h
  obtain ⟨n, rfl⟩ := h'
  exact ⟨n + m, runTo_add n m⟩

theorem Reaches.single (hlabel : c.label ≠ stop) (h : step p env c = c') :
    Reaches p env stop c c' :=
  ⟨1, by rw [runTo, Function.iterate_one, stepTo, if_neg hlabel, h]⟩

end Stop

namespace Keeps

variable {rs rs' : List (Fin 31)}

theorem refl (s : State) : Keeps rs s s := ⟨fun _ _ => rfl, rfl, rfl⟩

theorem trans (h : Keeps rs s s') (h' : Keeps rs s' s'') : Keeps rs s s'' where
  x r hr := (h'.x r hr).trans (h.x r hr)
  sp := h'.sp.trans h.sp
  mem := h'.mem.trans h.mem

theorem mono (h : Keeps rs s s') (hrs : rs ⊆ rs') : Keeps rs' s s' where
  x r hr := h.x r fun hmem => hr (hrs hmem)
  sp := h.sp
  mem := h.mem

end Keeps

/-! What a block can do, read off its instructions. -/

theorem State.set_mem (r : Reg) (v : Word) : (s.set r v).mem = s.mem := by
  cases r <;> rfl

theorem State.set_get_of_ne {r r' : Reg} (v : Word) (h : r ≠ r') :
    (s.set r' v).get r = s.get r := by
  cases r' with
  | sp =>
      cases r with
      | sp => exact absurd rfl h
      | _ => rfl
  | xzr => rfl
  | x n =>
      cases r with
      | x n' => exact Function.update_of_ne (fun heq => h (congrArg Reg.x heq)) v s.x
      | _ => rfl

theorem exec_get {i : Instr L S} {r : Reg} (h : r ∉ i.targets) :
    (exec p i s).get r = s.get r := by
  cases i with
  | mov | movReg | adr | add | addReg | sub | subReg | mul | ldrb | ldrbReg | ldr =>
      exact State.set_get_of_ne _ fun heq => h (List.mem_singleton.mpr heq)
  | subs d a value =>
      rw [exec, State.set_get_of_ne _ fun heq => h (List.mem_singleton.mpr heq)]
      cases r <;> rfl
  | _ => cases r <;> rfl

/-- A register that no instruction of the block sets. -/
theorem runBlock_get {r : Reg} (henv : ∀ calls s, (env calls s).get r = s.get r)
    (h : ∀ i ∈ code, r ∉ i.targets) :
    (runBlock p env here code s calls).state.get r = s.get r := by
  induction code generalizing s calls with
  | nil => rfl
  | cons i code ih =>
      have hrest : ∀ i ∈ code, r ∉ i.targets := fun j hj => h j (List.mem_cons_of_mem i hj)
      cases i with
      | branch label => rfl
      | branchIf cond label =>
          rw [runBlock]
          split_ifs
          · rfl
          · exact ih hrest
      | svc => exact (ih hrest).trans (henv calls s)
      | _ => exact (ih hrest).trans (exec_get (h _ List.mem_cons_self))

/-- The labels a block can go to. -/
def exits (next : L → L) (here : L) : List (Instr L S) → List L
  | [] => [next here]
  | .branch label :: _ => [label]
  | .branchIf _ label :: code => label :: exits next here code
  | _ :: code => exits next here code

theorem runBlock_label : (runBlock p env here code s calls).label ∈ exits p.next here code := by
  induction code generalizing s calls with
  | nil => exact List.mem_singleton_self _
  | cons i code ih =>
      cases i with
      | branch label => exact List.mem_singleton_self _
      | branchIf cond label =>
          rw [runBlock, exits]
          split_ifs
          · exact List.mem_cons_self
          · exact List.mem_cons_of_mem _ ih
      | _ => exact ih

/-- With the stack `depth` bytes down, the block only moves it by constants, and has it where every
label it goes to expects it. -/
def balanced [DecidableEq L] (next : L → L) (expected : L → Nat) (here : L) :
    Nat → List (Instr L S) → Bool
  | depth, [] => expected (next here) = depth
  | depth, .branch label :: _ => expected label = depth
  | depth, .branchIf _ label :: code =>
      expected label = depth && balanced next expected here depth code
  | depth, .sub .sp .sp value :: code => balanced next expected here (depth + value) code
  | depth, .add .sp .sp value :: code =>
      value ≤ depth && balanced next expected here (depth - value) code
  | depth, i :: code => .sp ∉ i.targets && balanced next expected here depth code

theorem runBlock_balanced [DecidableEq L] {expected : L → Nat} {depth : Nat} {base : Word}
    (henv : ∀ calls s, (env calls s).sp = s.sp) (h : balanced p.next expected here depth code = true)
    (hs : s.sp + BitVec.ofNat 64 depth = base) :
    (runBlock p env here code s calls).state.sp +
      BitVec.ofNat 64 (expected (runBlock p env here code s calls).label) = base := by
  fun_induction balanced p.next expected here depth code generalizing s calls with
  | case1 depth =>
      rw [← of_decide_eq_true h] at hs
      exact hs
  | case2 depth label code =>
      rw [← of_decide_eq_true h] at hs
      exact hs
  | case3 depth cond label code ih =>
      rw [Bool.and_eq_true, decide_eq_true_eq] at h
      rw [runBlock]
      split_ifs
      · rw [← h.1] at hs
        exact hs
      · exact ih h.2 hs
  | case4 depth value code ih =>
      apply ih h
      rw [← hs]
      change s.sp - BitVec.ofNat 64 value + BitVec.ofNat 64 (depth + value) = _
      bv_omega
  | case5 depth value code ih =>
      rw [Bool.and_eq_true, decide_eq_true_eq] at h
      apply ih h.2
      rw [← hs]
      change s.sp + BitVec.ofNat 64 value + BitVec.ofNat 64 (depth - value) = _
      have hle := h.1
      bv_omega
  | case6 depth i code hbranch hif hsub hadd ih =>
      rw [Bool.and_eq_true, decide_eq_true_eq] at h
      cases i with
      | branch label => exact absurd rfl (hbranch label)
      | branchIf cond label => exact absurd rfl (hif cond label)
      | svc => exact ih h.2 (by rw [henv, hs])
      | _ =>
          apply ih h.2
          rw [← hs]
          exact congrArg (· + BitVec.ofNat 64 depth) (exec_get (r := .sp) h.1)

/-- The block only makes system calls whose number it has put into `x8` itself and that are allowed.
`known` is the number that is there. -/
def callsOnly (allowed : Word → Bool) : Option Word → List (Instr L S) → Bool
  | _, [] => true
  | _, .branch _ :: _ => true
  | known, .branchIf _ _ :: code => callsOnly allowed known code
  | known, .svc :: code => known.any allowed && callsOnly allowed known code
  | _, .mov (.x 8) value :: code => callsOnly allowed (some (BitVec.ofNat 64 value)) code
  | known, i :: code =>
      callsOnly allowed (if Reg.x 8 ∈ i.targets then none else known) code

variable (here s calls) in
theorem runBlock_callsOnly {allowed : Word → Bool} {known : Option Word}
    (henv : ∀ calls s, (env calls s).x 8 = s.x 8) (h : callsOnly allowed known code = true)
    (hs : ∀ w, known = some w → s.x 8 = w) :
    ∃ made, (runBlock p env here code s calls).calls = calls ++ made ∧
      ∀ call ∈ made, allowed (call.1.x 8) = true := by
  fun_induction callsOnly allowed known code generalizing s calls with
  | case1 | case2 => exact ⟨[], (List.append_nil _).symm, by simp⟩
  | case3 known cond label code ih =>
      rw [runBlock]
      split_ifs
      · exact ⟨[], (List.append_nil _).symm, by simp⟩
      · exact ih s calls h hs
  | case4 known code ih =>
      rw [Bool.and_eq_true, Option.any_eq_true] at h
      obtain ⟨⟨w, rfl, hw⟩, hrest⟩ := h
      have hnumber := hs w rfl
      obtain ⟨made, hcalls, hmade⟩ := ih (env calls s)
        (calls ++ [(s, env calls s)]) hrest fun v hv => by rw [henv, hs v hv]
      refine ⟨(s, env calls s) :: made, ?_, ?_⟩
      · rw [runBlock, hcalls, List.append_assoc, List.singleton_append]
      · intro call hcall
        rcases List.mem_cons.mp hcall with rfl | hcall
        · rw [hnumber]
          exact hw
        · exact hmade call hcall
  | case5 known value code ih =>
      apply ih _ _ h
      rintro w ⟨⟩
      change Function.update s.x 8 (BitVec.ofNat 64 value) 8 = BitVec.ofNat 64 value
      rw [Function.update_self]
  | case6 known i code hbranch hif hsvc hmov ih =>
      have hrest : ∀ w, (if Reg.x 8 ∈ i.targets then none else known) = some w →
          (exec p i s).x 8 = w := by
        intro w hw
        split_ifs at hw with htarget
        rw [← hs w hw]
        exact exec_get (r := .x 8) htarget
      cases i with
      | branch label => exact absurd rfl (hbranch label)
      | branchIf cond label => exact absurd rfl (hif cond label)
      | svc => exact absurd rfl hsvc
      | _ => exact ih _ _ h hrest

end Runs

end BasicBlocks
