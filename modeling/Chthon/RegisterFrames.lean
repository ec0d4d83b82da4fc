import Chthon.Lib.Arm64
import Chthon.TrapModel

/-! The stubs of `exceptions.S` between the vector table and the handlers in C. `sync_handler` saves
`x0` to `x9` and `curr_el_irq` saves `x30`; a handler in C may change every register from `x0` to
`x18` and `x30`. So what the interrupted program finds depends on how the handler was compiled. -/

namespace Chthon

open Arm64

inductive StubLabel where
  | handleSyncException
  | handleIrq
  | haltSystem
  deriving DecidableEq

/-! `sync_handler` -/

def syncStore : List (Instr StubLabel) :=
  [.sub .sp .sp 80,
    .stp (.x 0) (.x 1) .sp 0,
    .stp (.x 2) (.x 3) .sp 16,
    .stp (.x 4) (.x 5) .sp 32,
    .stp (.x 6) (.x 7) .sp 48,
    .stp (.x 8) (.x 9) .sp 64]

def syncArguments : List (Instr StubLabel) :=
  [.ldp (.x 0) (.x 1) .sp 0,
    .ldp (.x 2) (.x 3) .sp 16,
    .ldr (.x 3) .sp 64]

def syncSave : List (Instr StubLabel) := syncStore ++ syncArguments

def syncCheck : List (Instr StubLabel) :=
  [.mov (.x 1) (.x 0),
    .lsr (.x 2) (.x 0) 32,
    .cmp (.x 2) 0]

def syncRestore : List (Instr StubLabel) :=
  [.str (.x 1) .sp 0,
    .ldp (.x 8) (.x 9) .sp 64,
    .ldp (.x 6) (.x 7) .sp 48,
    .ldp (.x 4) (.x 5) .sp 32,
    .ldp (.x 2) (.x 3) .sp 16,
    .ldp (.x 0) (.x 1) .sp 0,
    .add .sp .sp 80]

def syncHandlerCode : List (Instr StubLabel) :=
  syncSave ++ .bl .handleSyncException :: (syncCheck ++ .bne .haltSystem ::
    (syncRestore ++ [.eret]))

/-! `curr_el_irq` -/

def irqSave : List (Instr StubLabel) :=
  [.sub .sp .sp 16,
    .stp (.x 30) .xzr .sp 0]

def irqRestore : List (Instr StubLabel) :=
  [.ldp (.x 30) .xzr .sp 0,
    .add .sp .sp 16]

def currElIrqCode : List (Instr StubLabel) :=
  irqSave ++ .bl .handleIrq :: (irqRestore ++ [.eret])

section Sync

variable (routine : StubLabel → State → State) (s : State)

/-- When the handler has come back. -/
def syncBack : State := call (routine .handleSyncException) (execAll syncSave s)

/-- The value it returned. -/
def syncResult : Word := (syncBack routine s).x 0

/-- When `sync_handler` gets to its `eret`. -/
def syncEnd : State := execAll syncRestore (execAll syncCheck (syncBack routine s)).next

theorem run_syncHandler :
    run routine 0 syncHandlerCode s =
      if syncResult routine s >>> 32 = 0 then some (.eret, syncEnd routine s)
      else some (.branch .haltSystem, execAll syncCheck (syncBack routine s)) := by
  rw [syncHandlerCode, run_block _ (by decide), run, run_block _ (by decide), run]
  change (if (execAll syncCheck (syncBack routine s)).zero then
    run routine 0 (syncRestore ++ [.eret]) (execAll syncCheck (syncBack routine s)).next
    else some (.branch .haltSystem, execAll syncCheck (syncBack routine s))) = _
  have hzero : (execAll syncCheck (syncBack routine s)).zero =
      decide (syncResult routine s >>> 32 = 0) := rfl
  by_cases hresult : syncResult routine s >>> 32 = 0
  · rw [hzero, decide_eq_true hresult, if_pos rfl, if_pos hresult, run_block _ (by decide)]
    rfl
  · rw [hzero, decide_eq_false hresult, if_neg Bool.false_ne_true, if_neg hresult]

/-- The frame that the handler finds above its own. -/
def syncFrame : List Word :=
  [s.x 0, s.x 1, s.x 2, s.x 3, s.x 4, s.x 5, s.x 6, s.x 7, s.x 8, s.x 9]

theorem syncStore_sp : (execAll syncStore s).sp = s.sp - 80 := rfl

theorem syncStore_mem :
    (execAll syncStore s).mem = storeWords s.mem (s.sp - 80) (syncFrame s) := by
  simp only [syncStore, execAll, List.foldl, exec, State.next, State.set, State.get, State.addr,
    storeWords, syncFrame, BitVec.add_assoc, BitVec.reduceAdd, BitVec.add_zero]
  rfl

theorem syncSave_mem :
    (execAll syncSave s).mem = storeWords s.mem (s.sp - 80) (syncFrame s) := by
  rw [syncSave, execAll_append, execAll_mem (by decide), syncStore_mem]

theorem syncRestore_x (t : State) (r : Fin 31) (hr : r.val < 10) :
    (execAll syncRestore t).x r =
      load (store t.mem t.sp (t.x 1)) (t.sp + BitVec.ofNat 64 (8 * r.val)) := by
  obtain ⟨i, hi⟩ := r
  dsimp only at hr ⊢
  interval_cases i <;> simp [syncRestore, execAll, exec, State.next, State.set, State.get,
    State.addr, BitVec.add_assoc]

theorem syncFrame_fits : 8 * (syncFrame s).length ≤ 2 ^ 64 := by
  rw [show (syncFrame s).length = 10 from rfl]
  decide

theorem syncFrame_getElem {i : Nat} (hi : i < 10) (hlen : i < (syncFrame s).length) :
    (syncFrame s)[i] = s.x ⟨i, by omega⟩ := by
  interval_cases i <;> rfl

/-! What the check of the result leaves for the restoring instructions. -/

theorem next_x (t : State) : t.next.x = t.x := rfl

theorem syncCheck_sp (t : State) : (execAll syncCheck t).next.sp = t.sp := rfl

theorem syncCheck_mem (t : State) : (execAll syncCheck t).next.mem = t.mem := rfl

theorem syncCheck_result (t : State) : (execAll syncCheck t).next.x 1 = t.x 0 := rfl

theorem syncCheck_high (t : State) {r : Fin 31} (hr : 10 ≤ r.val) :
    (execAll syncCheck t).next.x r = t.x r := by
  have htargets : ∀ r : Fin 31, 10 ≤ r.val → ∀ i ∈ syncCheck, Reg.x r ∉ i.targets := by
    decide
  rw [next_x]
  exact execAll_x (htargets r hr)

/-- The registers from `x10` on are not restored. -/
theorem syncEnd_high {r : Fin 31} (hr : 10 ≤ r.val) :
    (syncEnd routine s).x r = (syncBack routine s).x r := by
  have htargets : ∀ r : Fin 31, 10 ≤ r.val → ∀ i ∈ syncRestore, Reg.x r ∉ i.targets := by
    decide
  rw [syncEnd, execAll_x (htargets r hr), syncCheck_high _ hr]

variable {routine} (hconf : Conforming 80 (routine .handleSyncException))
include hconf

theorem syncBack_sp : (syncBack routine s).sp = s.sp - 80 := hconf.call_sp _

theorem syncBack_frame {a : Word} (ha : Within (s.sp - 80) 80 a) :
    (syncBack routine s).mem a = storeWords s.mem (s.sp - 80) (syncFrame s) a := by
  rw [← syncSave_mem]
  exact hconf.call_frame _ ha

/-- The handler keeps what AAPCS64 lets it keep. -/
theorem syncBack_saved {r : Fin 31} (hlo : 19 ≤ r) (hhi : r < 30) :
    (syncBack routine s).x r = s.x r := by
  rw [syncBack, hconf.call_saved _ hlo hhi]
  have hsave : ∀ r : Fin 31, 19 ≤ r → ∀ i ∈ syncSave, Reg.x r ∉ i.targets := by decide
  exact execAll_get (r := .x r) (hsave r hlo)

/-- The lowest ten registers come from the frame, with the result in the place of `x0`. -/
theorem syncEnd_low {r : Fin 31} (hr : r.val < 10) :
    (syncEnd routine s).x r = if r = 0 then syncResult routine s else s.x r := by
  rw [syncEnd, syncRestore_x _ _ hr, syncCheck_sp, syncCheck_mem, syncCheck_result,
    syncBack_sp s hconf]
  by_cases hzero : r = 0
  · rw [if_pos hzero, hzero, Fin.val_zero, Nat.mul_zero, BitVec.ofNat_eq_ofNat, BitVec.add_zero,
      load_store, syncResult]
  · have hpos : r.val ≠ 0 := fun h => hzero (Fin.ext h)
    rw [if_neg hzero, load_store_word _ _ _ (by omega) (by omega),
      load_congr_within (n := 80) (by omega) (by decide) fun b hb => syncBack_frame s hconf hb,
      load_storeWords _ _ (syncFrame_fits s)
        (show r.val < (syncFrame s).length from hr)]
    exact syncFrame_getElem s hr _

/-- What the handler must have left alone: everything that `sync_handler` does not save. -/
def SyncKept (routine : StubLabel → State → State) (s : State) : Prop :=
  ∀ r : Fin 31, 10 ≤ r ∧ r ≤ 18 ∨ r = 30 → (syncBack routine s).x r = s.x r

/-- The registers come back, with the result in `x0`, if the handler has left the unsaved ones. -/
theorem syncEnd_x_iff :
    (syncEnd routine s).x = Function.update s.x 0 (syncResult routine s) ↔ SyncKept routine s := by
  constructor
  · intro h r hr
    have hhigh : 10 ≤ r.val := by omega
    have hne : r ≠ 0 := by omega
    rw [← syncEnd_high routine s hhigh, h, Function.update_of_ne hne]
  · intro hkept
    funext r
    by_cases hlow : r.val < 10
    · rw [syncEnd_low s hconf hlow, Function.update_apply]
    · have hne : r ≠ 0 := by omega
      rw [syncEnd_high routine s (by omega), Function.update_of_ne hne]
      by_cases hr : 10 ≤ r ∧ r ≤ 18 ∨ r = 30
      · exact hkept r hr
      · exact syncBack_saved s hconf (by omega) (by omega)

end Sync

/-! The same for `curr_el_irq`. -/

section Irq

variable (routine : StubLabel → State → State) (s : State)

def irqBack : State := call (routine .handleIrq) (execAll irqSave s)

def irqEnd : State := execAll irqRestore (irqBack routine s)

theorem run_currElIrq :
    run routine 0 currElIrqCode s = some (.eret, irqEnd routine s) := by
  rw [currElIrqCode, run_block _ (by decide), run, run_block _ (by decide)]
  rfl

theorem irqSave_mem :
    (execAll irqSave s).mem = storeWords s.mem (s.sp - 16) [s.x 30, 0] := by
  simp only [irqSave, execAll, List.foldl, exec, State.next, State.set, State.get, State.addr,
    BitVec.add_zero]
  rfl

theorem irqRestore_lr (t : State) : (execAll irqRestore t).x 30 = load t.mem t.sp := by
  simp [irqRestore, execAll, exec, State.next, State.set, State.get, State.addr]

theorem irqEnd_other {r : Fin 31} (hr : r ≠ 30) :
    (irqEnd routine s).x r = (irqBack routine s).x r := by
  have htargets : ∀ r : Fin 31, r ≠ 30 → ∀ i ∈ irqRestore, Reg.x r ∉ i.targets := by decide
  rw [irqEnd, execAll_x (htargets r hr)]

variable {routine} (hconf : Conforming 16 (routine .handleIrq))
include hconf

theorem irqEnd_lr : (irqEnd routine s).x 30 = s.x 30 := by
  have hsp : (irqBack routine s).sp = s.sp - 16 := hconf.call_sp _
  have hframe : ∀ b, Within (s.sp - 16) 16 b →
      (irqBack routine s).mem b = storeWords s.mem (s.sp - 16) [s.x 30, 0] b := by
    intro b hb
    rw [← irqSave_mem]
    exact hconf.call_frame _ hb
  have hload := load_congr_within (n := 16) (i := 0) (by decide) (by decide) hframe
  rw [load_storeWords _ _ (i := 0) (by simp) (by simp)] at hload
  rw [irqEnd, irqRestore_lr, hsp]
  simpa using hload

def IrqKept (routine : StubLabel → State → State) (s : State) : Prop :=
  ∀ r : Fin 31, r ≤ 18 → (irqBack routine s).x r = s.x r

theorem irqBack_saved {r : Fin 31} (hlo : 19 ≤ r) (hhi : r < 30) :
    (irqBack routine s).x r = s.x r := by
  have htargets : ∀ r : Fin 31, ∀ i ∈ irqSave, Reg.x r ∉ i.targets := by decide
  rw [irqBack, hconf.call_saved _ hlo hhi, execAll_x (htargets r)]

theorem irqEnd_x_iff : (irqEnd routine s).x = s.x ↔ IrqKept routine s := by
  constructor
  · intro h r hr
    have hne : r ≠ 30 := by omega
    rw [← irqEnd_other routine s hne, h]
  · intro hkept
    funext r
    by_cases hlr : r = 30
    · rw [hlr, irqEnd_lr s hconf]
    · rw [irqEnd_other routine s hlr]
      by_cases hr : r ≤ 18
      · exact hkept r hr
      · exact irqBack_saved s hconf (by omega) (by omega)

end Irq

/-- **A trap is transparent exactly where the handler has left the registers that the stub does not
save.** -/
theorem trap_transparent_iff (routine : StubLabel → State → State)
    (hsync : Conforming 80 (routine .handleSyncException))
    (hirq : Conforming 16 (routine .handleIrq)) (s : State) :
    (∀ s', run routine 0 syncHandlerCode s = some (.eret, s') →
      (s'.x = Function.update s.x 0 (syncResult routine s) ↔ SyncKept routine s)) ∧
    ∃ s', run routine 0 currElIrqCode s = some (.eret, s') ∧ (s'.x = s.x ↔ IrqKept routine s) := by
  constructor
  · intro s' h
    rw [run_syncHandler] at h
    split_ifs at h with hresult
    · cases h
      exact syncEnd_x_iff s hsync
    · cases h
  · exact ⟨irqEnd routine s, run_currElIrq routine s, irqEnd_x_iff s hirq⟩

/-- Handlers that come back with 7, and with 0 in the link register. -/
def quietHandlers : StubLabel → State → State
  | .handleSyncException, s => { s with x := Function.update (Function.update s.x 0 7) 30 0 }
  | _, s => s

theorem quietHandlers_conform (size : Nat) (label : StubLabel) :
    Conforming size (quietHandlers label) := by
  cases label with
  | handleSyncException =>
      refine .of_registers (fun s r hlo hhi => ?_) (fun _ => rfl) fun _ => rfl
      have hzero : r ≠ 0 := by omega
      dsimp only [quietHandlers]
      rw [Function.update_of_ne (ne_of_lt hhi), Function.update_of_ne hzero]
  | _ => exact .of_registers (fun _ _ _ _ => rfl) (fun _ => rfl) fun _ => rfl

theorem trap_transparent_quiet :
    (∃ s', run quietHandlers 0 syncHandlerCode zeroState = some (.eret, s') ∧
      s'.x = Function.update zeroState.x 0 7) ∧
    ∃ s', run quietHandlers 0 currElIrqCode zeroState = some (.eret, s') ∧
      s'.x = zeroState.x := by
  obtain ⟨hsync, s', hirq, hkept⟩ := trap_transparent_iff quietHandlers
    (quietHandlers_conform 80 _) (quietHandlers_conform 16 _) zeroState
  have hrun : run quietHandlers 0 syncHandlerCode zeroState =
      some (.eret, syncEnd quietHandlers zeroState) := by
    rw [run_syncHandler, if_pos (by decide)]
  refine ⟨⟨_, hrun, ?_⟩, s', hirq, hkept.mpr ?_⟩
  · have hx := (hsync _ hrun).mpr (by unfold SyncKept; decide)
    rwa [show syncResult quietHandlers zeroState = 7 by decide] at hx
  · unfold IrqKept
    decide

/-- Handlers that use `x10` for themselves and return 0. -/
def busyHandlers (_ : StubLabel) (s : State) : State :=
  { s with x := Function.update (Function.update s.x 0 0) 10 1 }

theorem busyHandlers_conform (size : Nat) (label : StubLabel) :
    Conforming size (busyHandlers label) := by
  refine .of_registers (fun s r hlo hhi => ?_) (fun _ => rfl) fun _ => rfl
  have hzero : r ≠ 0 := by omega
  have hten : r ≠ 10 := by omega
  dsimp only [busyHandlers]
  rw [Function.update_of_ne hten, Function.update_of_ne hzero]

/-- The interrupted program finds another value in `x10`. -/
theorem trap_changes_register :
    ∃ routine : StubLabel → State → State, (∀ label, Conforming 80 (routine label)) ∧
      ∃ s, (∃ s', run routine 0 syncHandlerCode s = some (.eret, s') ∧ s'.x 10 ≠ s.x 10) ∧
        ∃ s', run routine 0 currElIrqCode s = some (.eret, s') ∧ s'.x 10 ≠ s.x 10 := by
  refine ⟨busyHandlers, busyHandlers_conform 80, zeroState, ⟨syncEnd busyHandlers zeroState, ?_, ?_⟩,
    irqEnd busyHandlers zeroState, run_currElIrq busyHandlers zeroState, ?_⟩
  · rw [run_syncHandler, if_pos (by decide)]
  · decide
  · decide

/-! The value that the handler returns decides as the model of `sync_handler` has it. -/

theorem syncArguments_x (t : State) :
    (execAll syncArguments t).x 0 = load t.mem (t.sp + BitVec.ofNat 64 (8 * 0)) ∧
      (execAll syncArguments t).x 1 = load t.mem (t.sp + BitVec.ofNat 64 (8 * 1)) ∧
      (execAll syncArguments t).x 2 = load t.mem (t.sp + BitVec.ofNat 64 (8 * 2)) ∧
      (execAll syncArguments t).x 3 = load t.mem (t.sp + BitVec.ofNat 64 (8 * 8)) := by
  simp [syncArguments, execAll, exec, State.next, State.set, State.get, State.addr]

/-- The handler gets the registers of the system call as its arguments. -/
theorem syncSave_arguments (s : State) :
    (execAll syncSave s).x 0 = s.x 0 ∧ (execAll syncSave s).x 1 = s.x 1 ∧
      (execAll syncSave s).x 2 = s.x 2 ∧ (execAll syncSave s).x 3 = s.x 8 := by
  have hload : ∀ (i : Nat) (hi : i < 10), load (execAll syncStore s).mem
      ((execAll syncStore s).sp + BitVec.ofNat 64 (8 * i)) = s.x ⟨i, by omega⟩ := by
    intro i hi
    rw [syncStore_mem, syncStore_sp, load_storeWords _ _ (syncFrame_fits s) hi]
    exact syncFrame_getElem s hi _
  obtain ⟨h0, h1, h2, h3⟩ := syncArguments_x (execAll syncStore s)
  rw [syncSave, execAll_append, h0, h1, h2, h3]
  exact ⟨hload 0 (by decide), hload 1 (by decide), hload 2 (by decide), hload 8 (by decide)⟩

def stubEnd : Option (Exit StubLabel × State) → TrapEnd
  | some (.eret, s') => .resumed (s'.x 0)
  | _ => .halted

theorem syncHandler_refines {out : Outside} {k k' : Kernel} {msgs msgs' : UserMessages} {t : Trap}
    {value : BitVec 64} {routine : StubLabel → State → State} {s : State}
    (hconf : Conforming 80 (routine .handleSyncException))
    (h : handleSyncException out k msgs t = some (value, msgs', k'))
    (hvalue : syncResult routine s = value) :
    syncHandler out k msgs t =
      some (stubEnd (run routine 0 syncHandlerCode s), msgs', k') := by
  rw [syncHandler, h, run_syncHandler, hvalue]
  by_cases hzero : value >>> 32 = 0
  · have hx : (syncEnd routine s).x 0 = value := by
      rw [syncEnd_low s hconf (by decide), if_pos rfl, hvalue]
    rw [if_pos hzero, stubEnd, hx, Option.map_some]
    dsimp only
    rw [if_pos hzero]
  · rw [if_neg hzero, Option.map_some]
    dsimp only [stubEnd]
    rw [if_neg hzero]

end Chthon
