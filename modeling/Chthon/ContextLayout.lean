import Chthon.ContextSwitch

/-! The two descriptions of a context. `process.h` puts `pc`, `sp`, `lr` and the array `x` one after
the other; `context_switch.S` keeps `x19` to `x30`, `sp` and the mask from the same address on. A
process that `create_process` has prepared is therefore entered with words of its parent. -/

namespace Chthon

open Arm64 Run

/-- The `i`-th doubleword of a `context_t`. -/
def Context.word (ctx : Context) : Nat → Nat
  | 0 => ctx.pc
  | 1 => ctx.sp
  | 2 => ctx.lr
  | i + 3 => ctx.x i

/-- The 34 doublewords of a `context_t` are at `a`. -/
def ContextAt (m : Arm64.Memory) (a : Word) (ctx : Context) : Prop :=
  ∀ i < 34, load m (a + BitVec.ofNat 64 (8 * i)) = BitVec.ofNat 64 (ctx.word i)

/-- What the switch takes from the fields of the C structure. -/
theorem ContextAt.savedAt {m : Arm64.Memory} {a : Word} {ctx : Context} (h : ContextAt m a ctx) :
    (savedAt m a).sp = BitVec.ofNat 64 (ctx.x 9) ∧
      (savedAt m a).x 11 = BitVec.ofNat 64 (ctx.x 8) :=
  ⟨h 12 (by decide), h 11 (by decide)⟩

theorem ContextAt.congr {m m' : Arm64.Memory} {a : Word} {ctx : Context} (h : ContextAt m a ctx)
    (hsame : ∀ b, Within a 272 b → m' b = m b) : ContextAt m' a ctx := by
  intro i hi
  rw [← h i hi]
  exact load_congr_within (by omega) (by decide) hsame

/-- The child's context is the parent's, but for two fields. -/
theorem createProcess_ctx {img : Image} {k k' : Kernel} {p : ProcessPtr}
    (h : createProcess img k = some (p, k')) :
    ∃ parent, k.currentProcess = some parent ∧
      (k'.procs p).ctx = { parent.ctx with sp := (k'.procs p).sp, lr := img.process3 } := by
  unfold createProcess at h
  split at h
  · cases h
  · split at h
    · cases h
    · rename_i parent hparent
      cases h
      refine ⟨parent, hparent, ?_⟩
      simp [Kernel.setProc]

/-- Steps that do not save the context `new`: the process it belongs to has not run. -/
def NotYetRun (C : Contexts) (new : Word) (s : SwitchState) (e : SwitchEvent) : Prop :=
  Allowed C s e ∧ ∀ next, e ≠ .switch new next

section Run

variable {C : Contexts} {new : Word} {ctx : Context} {s t : SwitchState}

/-- Until it runs, a process keeps the context it was given. -/
theorem ContextAt.step (h : ContextAt s.cpu.mem new ctx) (hnew : new ∈ C.carrier) (e : SwitchEvent)
    (hallowed : NotYetRun C new s e) (hstep : switchStep s e = some ((), t)) :
    ContextAt t.cpu.mem new ctx := by
  cases e with
  | work cpu =>
      cases hstep
      exact h.congr (hallowed.1 new hnew)
  | switch old next =>
      have hne : new ≠ old := by
        rintro rfl
        exact hallowed.2 next rfl
      exact h.congr fun b hb => switchStep_frame hallowed.1.1 hstep hnew hne hb

theorem ContextAt.run {trace : List (SwitchEvent × Unit)} (h : ContextAt s.cpu.mem new ctx)
    (hnew : new ∈ C.carrier) (hrun : Steps switchStep (NotYetRun C new) s trace t) :
    ContextAt t.cpu.mem new ctx := by
  have hkept := hrun.preserves (P := fun t : SwitchState => ContextAt t.cpu.mem new ctx) h
    fun t e _ u hat hallowed hstep => ContextAt.step hat hnew e hallowed hstep
  exact hkept

end Run

/-- The machine runs `process3` on the stack of the process `child`. -/
def StartsAt (img : Image) (child : Process) (cpu : State) : Prop :=
  cpu.sp = BitVec.ofNat 64 child.ctx.sp ∧ cpu.x 30 = BitVec.ofNat 64 img.process3 ∧
    cpu.pc = BitVec.ofNat 64 img.process3

section Start

variable {img : Image} {k k' : Kernel} {p : ProcessPtr} {parent : Process} {C : Contexts}
  {old new : Word} {s t : SwitchState} {trace : List (SwitchEvent × Unit)}

/-- The stack and the address come from the parent's `x[9]` and `x[8]`. -/
theorem switch_to_child (hcreate : createProcess img k = some (p, k'))
    (hparent : k.currentProcess = some parent) (hnew : new ∈ C.carrier)
    (hmem : ContextAt s.cpu.mem new (k'.procs p).ctx)
    (hrun : Steps switchStep (NotYetRun C new) s trace t)
    (hswitch : NotYetRun C new t (.switch old new)) :
    ∃ u, switchStep t (.switch old new) = some ((), u) ∧
      u.cpu.sp = BitVec.ofNat 64 (parent.ctx.x 9) ∧
      u.cpu.x 30 = BitVec.ofNat 64 (parent.ctx.x 8) ∧ u.cpu.pc = u.cpu.x 30 := by
  obtain ⟨u, hu, hnow, hpc, -⟩ := switchStep_spec t old new
  obtain ⟨parent', hparent', hctx⟩ := createProcess_ctx hcreate
  cases hparent.symm.trans hparent'
  have hat : ContextAt u.cpu.mem new (k'.procs p).ctx :=
    (hmem.run hnew hrun).step hnew _ hswitch hu
  have hx : ∀ i, (k'.procs p).ctx.x i = parent.ctx.x i := by
    intro i
    rw [hctx]
  obtain ⟨hsp, hlr⟩ := hat.savedAt
  rw [← hnow, hx] at hsp hlr
  exact ⟨u, hu, hsp, hlr, hpc⟩

/-- **A new process starts at `process3` on its own stack exactly where the parent's context holds
these two addresses in `x[8]` and `x[9]`.** -/
theorem child_starts_iff (hcreate : createProcess img k = some (p, k'))
    (hparent : k.currentProcess = some parent) (hnew : new ∈ C.carrier)
    (hmem : ContextAt s.cpu.mem new (k'.procs p).ctx)
    (hrun : Steps switchStep (NotYetRun C new) s trace t)
    (hswitch : NotYetRun C new t (.switch old new)) :
    ∃ u, switchStep t (.switch old new) = some ((), u) ∧
      (StartsAt img (k'.procs p) u.cpu ↔
        BitVec.ofNat 64 (parent.ctx.x 8) = BitVec.ofNat 64 img.process3 ∧
        BitVec.ofNat 64 (parent.ctx.x 9) = BitVec.ofNat 64 (k'.procs p).ctx.sp) := by
  obtain ⟨u, hu, hsp, hlr, hpc⟩ := switch_to_child hcreate hparent hnew hmem hrun hswitch
  refine ⟨u, hu, ?_⟩
  rw [StartsAt, hpc, hsp, hlr]
  constructor
  · rintro ⟨hstack, hentry, -⟩
    exact ⟨hentry, hstack⟩
  · rintro ⟨hentry, hstack⟩
    exact ⟨hstack, hentry, hentry⟩

end Start

/-! A fork by the first process, with a given array `x` in its context. -/

def forkImage : Image := ⟨0x40080000, 0x40090000⟩

def forkParent (x : Nat → Nat) : Process :=
  { (initProcess forkImage blankKernel).procs (.processes 0) with ctx := ⟨0, 0, 0, x⟩ }

def forkKernel (x : Nat → Nat) : Kernel :=
  (initProcess forkImage blankKernel).setProc (.processes 0) (forkParent x)

def contextMemory (a : Word) (ctx : Context) : Arm64.Memory :=
  storeWords (fun _ => 0) a ((List.range 34).map fun i => BitVec.ofNat 64 (ctx.word i))

theorem contextMemory_at (a : Word) (ctx : Context) : ContextAt (contextMemory a ctx) a ctx := by
  intro i hi
  rw [contextMemory, load_storeWords _ _ (by simp) (by simpa using hi)]
  simp

/-- The second context of `twoContexts` is the child's. -/
def forkState (child : Process) : SwitchState :=
  ⟨{ zeroState with mem := contextMemory 0x2000 child.ctx }, fun _ => none⟩

theorem fork_notYetRun (s : SwitchState) :
    NotYetRun twoContexts 0x2000 s (.switch 0x1000 0x2000) := by
  refine ⟨by simp [Allowed, twoContexts], fun next heq => ?_⟩
  rw [SwitchEvent.switch.injEq] at heq
  exact absurd heq.1 (by decide)

/-- A parent that was itself last saved on its way to `process3`. -/
theorem child_starts_same :
    ∃ k' u, createProcess forkImage
        (forkKernel fun i => if i = 8 then 0x40080000 else 0x40092000) =
          some (.processes 1, k') ∧
      switchStep (forkState (k'.procs (.processes 1))) (.switch 0x1000 0x2000) = some ((), u) ∧
      StartsAt forkImage (k'.procs (.processes 1)) u.cpu := by
  obtain ⟨k', hcreate⟩ : ∃ k', createProcess forkImage
      (forkKernel fun i => if i = 8 then 0x40080000 else 0x40092000) =
        some (.processes 1, k') := ⟨_, rfl⟩
  obtain ⟨u, hu, hiff⟩ := child_starts_iff hcreate
    (show (forkKernel _).currentProcess = some (forkParent _) from rfl) (C := twoContexts)
    (by simp [twoContexts]) (s := forkState (k'.procs (.processes 1))) (contextMemory_at _ _) .nil
    (fork_notYetRun _)
  refine ⟨k', u, hcreate, hu, hiff.mpr ⟨rfl, ?_⟩⟩
  cases hcreate
  rfl

/-- From a parent whose context is zero the child starts at 0, with its stack at 0. -/
theorem child_starts_nowhere :
    ∃ k' u, createProcess forkImage (forkKernel fun _ => 0) = some (.processes 1, k') ∧
      switchStep (forkState (k'.procs (.processes 1))) (.switch 0x1000 0x2000) = some ((), u) ∧
      ¬StartsAt forkImage (k'.procs (.processes 1)) u.cpu := by
  obtain ⟨k', hcreate⟩ : ∃ k', createProcess forkImage (forkKernel fun _ => 0) =
      some (.processes 1, k') := ⟨_, rfl⟩
  obtain ⟨u, hu, -, hlr, -⟩ := switch_to_child hcreate
    (show (forkKernel _).currentProcess = some (forkParent _) from rfl) (C := twoContexts)
    (by simp [twoContexts]) (s := forkState (k'.procs (.processes 1)))
    (contextMemory_at _ _) .nil (fork_notYetRun _)
  refine ⟨k', u, hcreate, hu, fun hstarts => ?_⟩
  have hentry := hstarts.2.1
  rw [hlr] at hentry
  exact absurd hentry (by decide)

end Chthon
