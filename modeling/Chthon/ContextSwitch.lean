import Chthon.Lib.Arm64
import Chthon.ProcessRuns

/-! `context_switch.S`. Fourteen doublewords at the front of a context keep what AAPCS64 lets a
routine rely on across a call: `x19` to `x30`, the stack pointer and the interrupt mask. Whatever
happens between the switches, a context that has been saved comes back as it was. -/

namespace Chthon

open Arm64 Run

def contextSave : List (Instr Empty) :=
  [.stp (.x 19) (.x 20) (.x 0) 0,
    .stp (.x 21) (.x 22) (.x 0) 16,
    .stp (.x 23) (.x 24) (.x 0) 32,
    .stp (.x 25) (.x 26) (.x 0) 48,
    .stp (.x 27) (.x 28) (.x 0) 64,
    .stp (.x 29) (.x 30) (.x 0) 80,
    .mov (.x 2) .sp,
    .str (.x 2) (.x 0) 96,
    .mrsDaif (.x 2),
    .str (.x 2) (.x 0) 104]

def contextRestore : List (Instr Empty) :=
  [.ldr (.x 2) (.x 1) 104,
    .msrDaif (.x 2),
    .ldr (.x 2) (.x 1) 96,
    .mov .sp (.x 2),
    .ldp (.x 29) (.x 30) (.x 1) 80,
    .ldp (.x 27) (.x 28) (.x 1) 64,
    .ldp (.x 25) (.x 26) (.x 1) 48,
    .ldp (.x 23) (.x 24) (.x 1) 32,
    .ldp (.x 21) (.x 22) (.x 1) 16,
    .ldp (.x 19) (.x 20) (.x 1) 0]

/-- `cbz x0, 1f` jumps over the saving instructions. -/
def contextSwitchCode : List (Instr Empty) :=
  .cbz (.x 0) 10 :: (contextSave ++ (contextRestore ++ [.ret]))

/-- `context_switch`, called with the pointers in `x0` and `x1`. -/
def contextSwitch (s : State) : Option (Exit Empty × State) :=
  run (fun e => e.elim) 0 contextSwitchCode s

/-- What a switch keeps. -/
@[ext] structure SavedContext where
  x : Fin 12 → Word
  sp : Word
  daif : BitVec 4

/-- `x19` to `x30`, `sp` and the mask. -/
def savedNow (s : State) : SavedContext := ⟨fun i => s.x ⟨19 + i, by omega⟩, s.sp, s.daif⟩

/-- The context at `a` as the switch reads it. -/
def savedAt (m : Arm64.Memory) (a : Word) : SavedContext :=
  ⟨fun i => load m (a + BitVec.ofNat 64 (8 * i)), load m (a + BitVec.ofNat 64 (8 * 12)),
    (load m (a + BitVec.ofNat 64 (8 * 13))).extractLsb' 6 4⟩

/-- The doublewords the switch writes. -/
def savedWords (s : State) : List Word :=
  [s.x 19, s.x 20, s.x 21, s.x 22, s.x 23, s.x 24, s.x 25, s.x 26, s.x 27, s.x 28, s.x 29, s.x 30,
    s.sp, s.daif.setWidth 64 <<< 6]

section Switch

variable (s : State)

theorem contextSave_mem :
    (execAll contextSave s).mem = storeWords s.mem (s.x 0) (savedWords s) := by
  simp [contextSave, execAll, exec, State.next, State.set, State.get, State.addr, storeWords,
    savedWords, BitVec.add_assoc]

theorem contextSave_target : (execAll contextSave s).x 1 = s.x 1 :=
  execAll_x (by decide)

theorem contextRestore_mem : (execAll contextRestore s).mem = s.mem := execAll_mem (by decide)

theorem contextRestore_x {i : Nat} (hi : i < 12) :
    (execAll contextRestore s).x ⟨19 + i, by omega⟩ =
      load s.mem (s.x 1 + BitVec.ofNat 64 (8 * i)) := by
  interval_cases i <;> simp [contextRestore, execAll, exec, State.next, State.set, State.get,
    State.addr, BitVec.add_assoc]

theorem contextRestore_saved : savedNow (execAll contextRestore s) = savedAt s.mem (s.x 1) := by
  apply SavedContext.ext
  · funext i
    exact contextRestore_x s i.isLt
  · rfl
  · rfl

theorem savedWords_length : (savedWords s).length = 14 := rfl

theorem savedWords_getElem {i : Nat} (hi : i < 12) (hlen : i < (savedWords s).length) :
    (savedWords s)[i] = s.x ⟨19 + i, by omega⟩ := by
  interval_cases i <;> rfl

theorem daif_words (daif : BitVec 4) : (daif.setWidth 64 <<< 6).extractLsb' 6 4 = daif := by
  decide +revert

/-- A context that has just been saved holds the registers. -/
theorem savedAt_storeWords (m : Arm64.Memory) (a : Word) :
    savedAt (storeWords m a (savedWords s)) a = savedNow s := by
  have hfits : 8 * (savedWords s).length ≤ 2 ^ 64 := by
    rw [savedWords_length]
    decide
  have hbound : ∀ i < 14, i < (savedWords s).length := fun i hi => hi
  have hload : ∀ i (hi : i < (savedWords s).length), load (storeWords m a (savedWords s))
      (a + BitVec.ofNat 64 (8 * i)) = (savedWords s)[i] :=
    fun i hi => load_storeWords m a hfits hi
  apply SavedContext.ext
  · funext i
    have hi : i.val < 14 := Nat.lt_trans i.isLt (by decide)
    exact (hload i (hbound i hi)).trans (savedWords_getElem s i.isLt _)
  · exact hload 12 (hbound 12 (by decide))
  · rw [savedAt, hload 13 (hbound 13 (by decide))]
    exact daif_words s.daif

/-- `savedAt` reads the first 112 bytes. -/
theorem savedAt_congr {m m' : Arm64.Memory} {a : Word} {n : Nat} (hn : 112 ≤ n) (hfits : n ≤ 2 ^ 64)
    (h : ∀ b, Within a n b → m b = m' b) : savedAt m a = savedAt m' a := by
  have hload : ∀ i < 14, load m (a + BitVec.ofNat 64 (8 * i)) =
      load m' (a + BitVec.ofNat 64 (8 * i)) :=
    fun i hi => load_congr_within (by omega) hfits h
  apply SavedContext.ext
  · funext i
    exact hload i (Nat.lt_trans i.isLt (by decide))
  · exact hload 12 (by decide)
  · rw [savedAt, savedAt, hload 13 (by decide)]

/-- The registers come from the context in `x1`, and control goes to `x30`. -/
def contextLoad : State :=
  { execAll contextRestore s with pc := (execAll contextRestore s).x 30 }

theorem withPc_mem (pc : Word) : ({ s with pc := pc } : State).mem = s.mem := rfl

theorem savedNow_pc (pc : Word) : savedNow { s with pc := pc } = savedNow s := rfl

theorem contextLoad_mem : (contextLoad s).mem = s.mem := by
  rw [contextLoad, withPc_mem, contextRestore_mem]

theorem contextLoad_saved : savedNow (contextLoad s) = savedAt s.mem (s.x 1) := by
  rw [contextLoad, savedNow_pc, contextRestore_saved]

theorem run_contextRestore (routine : Empty → State → State) :
    run routine 0 (contextRestore ++ [.ret]) s = some (.ret, contextLoad s) := by
  rw [run_block _ (by decide)]
  rfl

/-- **`context_switch`**: the registers go to the old context, where there is one, and come from the
new one. -/
theorem contextSwitch_spec : ∃ s', contextSwitch s = some (.ret, s') ∧
    s'.mem = (if s.x 0 = 0 then s.mem else storeWords s.mem (s.x 0) (savedWords s)) ∧
    savedNow s' = savedAt s'.mem (s.x 1) ∧ s'.pc = s'.x 30 := by
  by_cases hnull : s.x 0 = 0
  · have hrun : contextSwitch s = run (fun e => e.elim) contextSave.length
        (contextSave ++ (contextRestore ++ [.ret])) s.next := by
      rw [contextSwitch, contextSwitchCode, run, State.get, if_pos hnull]
      rfl
    rw [run_skip, run_contextRestore] at hrun
    refine ⟨_, hrun, ?_, ?_, rfl⟩
    · rw [if_pos hnull, contextLoad_mem]
      rfl
    · rw [contextLoad_saved, contextLoad_mem]
      rfl
  · have hrun : contextSwitch s = run (fun e => e.elim) 0
        (contextSave ++ (contextRestore ++ [.ret])) s.next := by
      rw [contextSwitch, contextSwitchCode, run, State.get, if_neg hnull]
    rw [run_block _ (by decide), run_contextRestore] at hrun
    refine ⟨_, hrun, ?_, ?_, rfl⟩
    · rw [if_neg hnull, contextLoad_mem, contextSave_mem]
      rfl
    · rw [contextLoad_saved, contextLoad_mem, contextSave_target]
      rfl

end Switch

/-! Runs: switches between contexts, and anything else in between. -/

/-- Objects of the size of a `context_t` at addresses other than `NULL`. -/
structure Contexts where
  carrier : Set Word
  nonzero : 0 ∉ carrier
  apart : ∀ a ∈ carrier, ∀ b ∈ carrier, a ≠ b → Apart 272 a b

/-- The machine, and for every context what it was last saved with. -/
structure SwitchState where
  cpu : State
  last : Word → Option SavedContext

inductive SwitchEvent where
  | work (cpu : State)
  | switch (old new : Word)

/-- The state in which `context_switch` is entered. -/
def switchEntry (s : State) (old new : Word) : State :=
  { s with x := Function.update (Function.update s.x 0 old) 1 new }

def switchStep (s : SwitchState) : SwitchEvent → Option (Unit × SwitchState)
  | .work cpu => some ((), ⟨cpu, s.last⟩)
  | .switch old new =>
      match contextSwitch (switchEntry s.cpu old new) with
      | some (.ret, cpu) =>
          some ((), ⟨cpu, if old = 0 then s.last
            else Function.update s.last old (some (savedNow s.cpu))⟩)
      | _ => none

/-- Only switches write to contexts. -/
def Allowed (C : Contexts) (s : SwitchState) : SwitchEvent → Prop
  | .work cpu => ∀ c ∈ C.carrier, ∀ b, Within c 272 b → cpu.mem b = s.cpu.mem b
  | .switch old new => (old = 0 ∨ old ∈ C.carrier) ∧ new ∈ C.carrier

/-- Every saved context is in memory as it was saved. -/
def ContextsKept (C : Contexts) (s : SwitchState) : Prop :=
  ∀ c ∈ C.carrier, ∀ saved, s.last c = some saved → savedAt s.cpu.mem c = saved

section Runs

variable {C : Contexts} {s t : SwitchState} {trace : List (SwitchEvent × Unit)} {old new : Word}

theorem savedNow_entry (cpu : State) : savedNow (switchEntry cpu old new) = savedNow cpu := by
  refine SavedContext.ext ?_ rfl rfl
  funext i
  have hzero : (⟨19 + i, by omega⟩ : Fin 31) ≠ 0 := by
    intro h
    have hval := congrArg Fin.val h
    simp at hval
  have hone : (⟨19 + i, by omega⟩ : Fin 31) ≠ 1 := by
    intro h
    have hval := congrArg Fin.val h
    simp at hval
    omega
  calc (savedNow (switchEntry cpu old new)).x i
      = Function.update cpu.x 0 old ⟨19 + i, by omega⟩ := Function.update_of_ne hone _ _
    _ = (savedNow cpu).x i := Function.update_of_ne hzero _ _

/-- What one switch does to the machine and to the contexts. -/
theorem switchStep_spec (s : SwitchState) (old new : Word) :
    ∃ t, switchStep s (.switch old new) = some ((), t) ∧
      savedNow t.cpu = savedAt t.cpu.mem new ∧ t.cpu.pc = t.cpu.x 30 ∧
      (old = 0 → t.cpu.mem = s.cpu.mem ∧ t.last = s.last) ∧
      (old ≠ 0 → savedAt t.cpu.mem old = savedNow s.cpu ∧
        t.last = Function.update s.last old (some (savedNow s.cpu)) ∧
        ∀ b, ¬Within old 112 b → t.cpu.mem b = s.cpu.mem b) := by
  obtain ⟨cpu, hrun, hmem, hnow, hpc⟩ := contextSwitch_spec (switchEntry s.cpu old new)
  have hold : (switchEntry s.cpu old new).x 0 = old := rfl
  refine ⟨⟨cpu, if old = 0 then s.last else Function.update s.last old (some (savedNow s.cpu))⟩,
    ?_, hnow, hpc, fun hnull => ?_, fun hne => ?_⟩
  · rw [switchStep, hrun]
  · rw [hold, if_pos hnull] at hmem
    exact ⟨hmem, if_pos hnull⟩
  · rw [hold, if_neg hne] at hmem
    refine ⟨?_, if_neg hne, fun b hb => ?_⟩
    · rw [hmem, savedAt_storeWords, savedNow_entry]
    · rw [hmem]
      exact storeWords_outside _ hb

/-- One switch leaves every other context as it is. -/
theorem switchStep_frame (hold : old = 0 ∨ old ∈ C.carrier)
    (h : switchStep s (.switch old new) = some ((), t)) {c : Word} (hc : c ∈ C.carrier)
    (hne : c ≠ old) {b : Word} (hb : Within c 272 b) : t.cpu.mem b = s.cpu.mem b := by
  obtain ⟨t', ht', -, -, hnull, hsave⟩ := switchStep_spec s old new
  cases h.symm.trans ht'
  by_cases hzero : old = 0
  · rw [(hnull hzero).1]
  · refine (hsave hzero).2.2 b fun hin => ?_
    have hmem : old ∈ C.carrier := hold.resolve_left hzero
    apply C.apart c hc old hmem hne b hb
    exact Nat.lt_of_lt_of_le hin (by decide)

/-- One step keeps the saved contexts. -/
theorem ContextsKept.step (hkept : ContextsKept C s) (e : SwitchEvent) (hallowed : Allowed C s e)
    (h : switchStep s e = some ((), t)) : ContextsKept C t := by
  cases e with
  | work cpu =>
      cases h
      intro c hc saved hlast
      rw [← hkept c hc saved hlast]
      exact savedAt_congr (by decide) (by decide) (hallowed c hc)
  | switch old new =>
      intro c hc saved hlast
      by_cases hold : c = old
      · -- the context that has just been saved
        subst hold
        have hne : c ≠ 0 := fun hzero => C.nonzero (hzero ▸ hc)
        obtain ⟨t', ht', -, -, -, hsave⟩ := switchStep_spec s c new
        cases h.symm.trans ht'
        obtain ⟨hat, hupdate, -⟩ := hsave hne
        rw [hupdate, Function.update_self] at hlast
        cases hlast
        exact hat
      · have hlast' : s.last c = some saved := by
          obtain ⟨t', ht', -, -, hnull, hsave⟩ := switchStep_spec s old new
          cases h.symm.trans ht'
          by_cases hzero : old = 0
          · rw [← hlast, (hnull hzero).2]
          · rw [← hlast, (hsave hzero).2.1, Function.update_of_ne hold]
        rw [← hkept c hc saved hlast']
        exact savedAt_congr (by decide) (by decide)
          fun b hb => switchStep_frame hallowed.1 h hc hold hb

theorem ContextsKept.run (hkept : ContextsKept C s)
    (h : Steps switchStep (Allowed C) s trace t) : ContextsKept C t :=
  h.preserves hkept fun _ e _ _ hkept hallowed hstep => hkept.step e hallowed hstep

end Runs

/-- **A context that was saved comes back as it was, and a switch changes no other context.** -/
theorem switching_lossless (C : Contexts) (s t : SwitchState) (hstart : ∀ c, s.last c = none)
    (trace : List (SwitchEvent × Unit)) (hrun : Steps switchStep (Allowed C) s trace t)
    (old new : Word) (hswitch : Allowed C t (.switch old new)) :
    ∃ u, switchStep t (.switch old new) = some ((), u) ∧
      (∀ saved, u.last new = some saved → savedNow u.cpu = saved) ∧
      ∀ c ∈ C.carrier, c ≠ old → ∀ b, Within c 272 b → u.cpu.mem b = t.cpu.mem b := by
  have hkept : ContextsKept C s := by
    intro c _ saved hlast
    rw [hstart] at hlast
    cases hlast
  obtain ⟨u, hu, hnow, -⟩ := switchStep_spec t old new
  refine ⟨u, hu, fun saved hlast => ?_, fun c hc hne b hb => ?_⟩
  · have hkept' := (hkept.run hrun).step (.switch old new) hswitch hu
    rw [hnow, hkept' new hswitch.2 saved hlast]
  · exact switchStep_frame hswitch.1 hu hc hne hb

def twoContexts : Contexts where
  carrier := {0x1000, 0x2000}
  nonzero := by simp
  apart := by
    have hapart : Apart 272 (0x1000 : Word) 0x2000 := by
      intro c h h'
      unfold Within at h h'
      bv_omega
    rintro a (rfl | rfl) b (rfl | rfl) hne
    · exact absurd rfl hne
    · exact hapart
    · exact hapart.symm
    · exact absurd rfl hne

/-- Away and back. -/
theorem switching_lossless_two :
    ∃ t u, switchStep ⟨zeroState, fun _ => none⟩ (.switch 0x1000 0x2000) = some ((), t) ∧
      switchStep t (.switch 0x2000 0x1000) = some ((), u) ∧
      savedNow u.cpu = savedNow zeroState := by
  obtain ⟨t, ht, -, -, -, hsave⟩ := switchStep_spec ⟨zeroState, fun _ => none⟩ 0x1000 0x2000
  have hrun : Steps switchStep (Allowed twoContexts) ⟨zeroState, fun _ => none⟩
      [(.switch 0x1000 0x2000, ())] t := Steps.nil.snoc (by simp [Allowed, twoContexts]) ht
  obtain ⟨u, hu, hback, -⟩ := switching_lossless twoContexts _ t (fun _ => rfl) _ hrun
    0x2000 0x1000 (by simp [Allowed, twoContexts])
  refine ⟨t, u, ht, hu, hback _ ?_⟩
  obtain ⟨u', hu', -, -, -, hsave'⟩ := switchStep_spec t 0x2000 0x1000
  cases hu.symm.trans hu'
  rw [(hsave' (by decide)).2.1, Function.update_of_ne (by decide), (hsave (by decide)).2.1,
    Function.update_self]

/-! The contexts of the kernel. -/

/-- The switch that `schedule` ends in, for processes with contexts at `ctx`. -/
def scheduleSwitch (ctx : ProcessPtr → Word) (k k' : Kernel) : SwitchEvent :=
  .switch (k.current.elim 0 ctx) (k'.current.elim 0 ctx)

/-- `schedule` switches between contexts of processes, and does not save before the first one. -/
theorem schedule_allowed {k k' : Kernel} (h : schedule k = some k') (ctx : ProcessPtr → Word)
    {C : Contexts} (hC : ∀ p, ctx p ∈ C.carrier) (s : SwitchState) :
    Allowed C s (scheduleSwitch ctx k k') := by
  have hold : k.current.elim 0 ctx = 0 ∨ k.current.elim 0 ctx ∈ C.carrier := by
    cases k.current with
    | none => exact .inl rfl
    | some p => exact .inr (hC p)
  obtain ⟨next, -, hnext, -⟩ := schedule_cases h
  refine ⟨hold, ?_⟩
  rw [hnext]
  exact hC next

end Chthon
