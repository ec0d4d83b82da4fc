import Mathlib

/-! A fragment of AArch64, enough for the stubs that save and restore registers: general registers,
the stack pointer, the interrupt mask and byte-addressed memory; moves, loads and stores of
doublewords, calls and forward branches. Every instruction comes with what it leaves alone, and a
block of consecutive doublewords is one object. Alignment faults are not modelled. -/

namespace Arm64

abbrev Word := BitVec 64

abbrev Memory := Word → BitVec 8

/-! Doublewords, little-endian. -/

def load (m : Memory) (a : Word) : Word :=
  m (a + 7) ++ m (a + 6) ++ m (a + 5) ++ m (a + 4) ++ m (a + 3) ++ m (a + 2) ++ m (a + 1) ++ m a

def store (m : Memory) (a v : Word) : Memory := fun b =>
  if (b - a).toNat < 8 then v.extractLsb' (8 * (b - a).toNat) 8 else m b

theorem store_outside (m : Memory) (v : Word) {a b : Word} (h : 8 ≤ (b - a).toNat) :
    store m a v b = m b := by
  rw [store, if_neg (by omega)]

theorem store_inside (m : Memory) (a v : Word) (k : Nat) (hk : k < 8) :
    store m a v (a + BitVec.ofNat 64 k) = v.extractLsb' (8 * k) 8 := by
  have hdiff : (a + BitVec.ofNat 64 k - a).toNat = k := by
    rw [add_sub_cancel_left, BitVec.toNat_ofNat]
    omega
  rw [store, hdiff, if_pos hk]

/-- A doubleword is read back. -/
theorem load_store (m : Memory) (a v : Word) : load (store m a v) a = v := by
  have hbyte : ∀ k < 8, store m a v (a + BitVec.ofNat 64 k) = v.extractLsb' (8 * k) 8 :=
    store_inside m a v
  have h0 : store m a v a = v.extractLsb' 0 8 := by
    have h := hbyte 0 (by decide)
    rwa [show a + BitVec.ofNat 64 0 = a from BitVec.add_zero a] at h
  rw [load, h0, show store m a v (a + 7) = v.extractLsb' 56 8 from hbyte 7 (by decide),
    show store m a v (a + 6) = v.extractLsb' 48 8 from hbyte 6 (by decide),
    show store m a v (a + 5) = v.extractLsb' 40 8 from hbyte 5 (by decide),
    show store m a v (a + 4) = v.extractLsb' 32 8 from hbyte 4 (by decide),
    show store m a v (a + 3) = v.extractLsb' 24 8 from hbyte 3 (by decide),
    show store m a v (a + 2) = v.extractLsb' 16 8 from hbyte 2 (by decide),
    show store m a v (a + 1) = v.extractLsb' 8 8 from hbyte 1 (by decide)]
  -- neighbouring parts are joined from the top
  rw [BitVec.extractLsb'_append_extractLsb'_eq_extractLsb' (show 56 = 48 + 8 from rfl),
    BitVec.extractLsb'_append_extractLsb'_eq_extractLsb' (show 48 = 40 + 8 from rfl),
    BitVec.extractLsb'_append_extractLsb'_eq_extractLsb' (show 40 = 32 + 8 from rfl),
    BitVec.extractLsb'_append_extractLsb'_eq_extractLsb' (show 32 = 24 + 8 from rfl),
    BitVec.extractLsb'_append_extractLsb'_eq_extractLsb' (show 24 = 16 + 8 from rfl),
    BitVec.extractLsb'_append_extractLsb'_eq_extractLsb' (show 16 = 8 + 8 from rfl),
    BitVec.extractLsb'_append_extractLsb'_eq_extractLsb' (show 8 = 0 + 8 from rfl)]
  exact BitVec.extractLsb'_eq_self

/-- A load sees only the eight bytes it reads. -/
theorem load_congr {m m' : Memory} {a a' : Word}
    (h : ∀ k < 8, m (a + BitVec.ofNat 64 k) = m' (a' + BitVec.ofNat 64 k)) :
    load m a = load m' a' := by
  have h0 : m a = m' a' := by
    have h := h 0 (by decide)
    rwa [show a + BitVec.ofNat 64 0 = a from BitVec.add_zero a,
      show a' + BitVec.ofNat 64 0 = a' from BitVec.add_zero a'] at h
  rw [load, load, h0, show m (a + 7) = m' (a' + 7) from h 7 (by decide),
    show m (a + 6) = m' (a' + 6) from h 6 (by decide),
    show m (a + 5) = m' (a' + 5) from h 5 (by decide),
    show m (a + 4) = m' (a' + 4) from h 4 (by decide),
    show m (a + 3) = m' (a' + 3) from h 3 (by decide),
    show m (a + 2) = m' (a' + 2) from h 2 (by decide),
    show m (a + 1) = m' (a' + 1) from h 1 (by decide)]

/-! Consecutive doublewords. -/

/-- Store `ws` at `a`, `a + 8` and so on. -/
def storeWords (m : Memory) (a : Word) : List Word → Memory
  | [] => m
  | w :: ws => storeWords (store m a w) (a + 8) ws

/-- `b` is one of the `n` bytes from `a` on. -/
def Within (a : Word) (n : Nat) (b : Word) : Prop := (b - a).toNat < n

/-- The `n` bytes from `a` on and the `n` bytes from `b` on have none in common. -/
def Apart (n : Nat) (a b : Word) : Prop := ∀ c, Within a n c → ¬Within b n c

theorem within_add (a : Word) {k n : Nat} (hk : k < n) (hn : n ≤ 2 ^ 64) :
    Within a n (a + BitVec.ofNat 64 k) := by
  rw [Within, add_sub_cancel_left, BitVec.toNat_ofNat]
  omega

theorem Apart.symm {n : Nat} {a b : Word} (h : Apart n a b) : Apart n b a :=
  fun c hb ha => h c ha hb

theorem storeWords_outside (m : Memory) {a b : Word} {ws : List Word}
    (h : ¬Within a (8 * ws.length) b) : storeWords m a ws b = m b := by
  induction ws generalizing m a with
  | nil => rfl
  | cons w ws ih =>
      rw [List.length_cons] at h
      unfold Within at h
      have hfirst : 8 ≤ (b - a).toNat := by omega
      have hrest : ¬Within (a + 8) (8 * ws.length) b := by
        unfold Within
        bv_omega
      rw [storeWords, ih _ hrest, store_outside m w hfirst]

/-- A doubleword that a store does not touch. -/
theorem load_store_apart (m : Memory) (v : Word) {a b : Word} (h : 8 ≤ (b - a).toNat)
    (h' : 8 ≤ (a - b).toNat) : load (store m a v) b = load m b := by
  apply load_congr
  intro k hk
  apply store_outside
  bv_omega

theorem load_store_word (m : Memory) (a v : Word) {i : Nat} (hpos : 0 < i)
    (hi : 8 * i + 8 ≤ 2 ^ 64) :
    load (store m a v) (a + BitVec.ofNat 64 (8 * i)) = load m (a + BitVec.ofNat 64 (8 * i)) :=
  load_store_apart m v (by bv_omega) (by bv_omega)

/-- The doublewords of a block depend on the block only. -/
theorem load_congr_within {m m' : Memory} {a : Word} {n i : Nat} (hi : 8 * i + 8 ≤ n)
    (hn : n ≤ 2 ^ 64) (h : ∀ b, Within a n b → m b = m' b) :
    load m (a + BitVec.ofNat 64 (8 * i)) = load m' (a + BitVec.ofNat 64 (8 * i)) := by
  apply load_congr
  intro k hk
  rw [show a + BitVec.ofNat 64 (8 * i) + BitVec.ofNat 64 k = a + BitVec.ofNat 64 (8 * i + k) by
    bv_omega]
  exact h _ (within_add a (by omega) hn)

/-- The first word: the later ones lie behind it. -/
theorem load_storeWords_cons (m : Memory) (a w : Word) {ws : List Word}
    (hfits : 8 * (ws.length + 1) ≤ 2 ^ 64) : load (storeWords m a (w :: ws)) a = w := by
  have hkept : load (storeWords m a (w :: ws)) a = load (store m a w) a := by
    apply load_congr
    intro k hk
    apply storeWords_outside (store m a w)
    unfold Within
    bv_omega
  rw [hkept, load_store]

theorem load_storeWords (m : Memory) (a : Word) {ws : List Word} (hfits : 8 * ws.length ≤ 2 ^ 64)
    {i : Nat} (hi : i < ws.length) :
    load (storeWords m a ws) (a + BitVec.ofNat 64 (8 * i)) = ws[i] := by
  induction ws generalizing m a i with
  | nil => cases hi
  | cons w ws ih =>
      rw [List.length_cons] at hfits
      cases i with
      | zero =>
          rw [Nat.mul_zero, show a + BitVec.ofNat 64 0 = a from BitVec.add_zero a,
            load_storeWords_cons m a w hfits]
          rfl
      | succ i =>
          have haddr : a + BitVec.ofNat 64 (8 * (i + 1)) = a + 8 + BitVec.ofNat 64 (8 * i) := by
            bv_omega
          rw [storeWords, haddr, ih _ _ (by omega) (Nat.lt_of_succ_lt_succ hi)]
          rfl

/-! The machine. -/

/-- What the numerals for the general registers rest on. -/
instance registersNeZero : NeZero (31 : Nat) := ⟨by decide⟩

inductive Reg where
  | x (n : Fin 31)
  | sp
  | xzr
  deriving DecidableEq

/-- Of the condition flags only Z is kept. -/
structure State where
  x : Fin 31 → Word
  sp : Word
  pc : Word
  daif : BitVec 4
  zero : Bool
  mem : Memory

/-- All zero. -/
def zeroState : State := ⟨fun _ => 0, 0, 0, 0, false, fun _ => 0⟩

namespace State

variable (s : State)

def get : Reg → Word
  | .x n => s.x n
  | .sp => s.sp
  | .xzr => 0

def set (r : Reg) (v : Word) : State :=
  match r with
  | .x n => { s with x := Function.update s.x n v }
  | .sp => { s with sp := v }
  | .xzr => s

def next : State := { s with pc := s.pc + 4 }

/-- The address of an operand `[base, #offset]`. -/
def addr (base : Reg) (offset : Nat) : Word := s.get base + BitVec.ofNat 64 offset

end State

/-- Instructions; branches go forward over a number of instructions, or to a label of `L`. -/
inductive Instr (L : Type) where
  | stp (a b base : Reg) (offset : Nat)
  | ldp (a b base : Reg) (offset : Nat)
  | str (a base : Reg) (offset : Nat)
  | ldr (a base : Reg) (offset : Nat)
  | mov (a b : Reg)
  | add (a b : Reg) (value : Nat)
  | sub (a b : Reg) (value : Nat)
  | lsr (a b : Reg) (shift : Nat)
  | cmp (a : Reg) (value : Nat)
  | mrsDaif (a : Reg)
  | msrDaif (a : Reg)
  | cbz (a : Reg) (skip : Nat)
  | bne (label : L)
  | bl (label : L)
  | ret
  | eret

section Run

variable {L : Type}

/-- The effect of an instruction that goes on to the next one. -/
def exec (i : Instr L) (s : State) : State :=
  match i with
  | .stp a b base offset =>
      { s with mem := storeWords s.mem (s.addr base offset) [s.get a, s.get b] }
  | .ldp a b base offset =>
      (s.set a (load s.mem (s.addr base offset))).set b (load s.mem (s.addr base offset + 8))
  | .str a base offset => { s with mem := store s.mem (s.addr base offset) (s.get a) }
  | .ldr a base offset => s.set a (load s.mem (s.addr base offset))
  | .mov a b => s.set a (s.get b)
  | .add a b value => s.set a (s.get b + BitVec.ofNat 64 value)
  | .sub a b value => s.set a (s.get b - BitVec.ofNat 64 value)
  | .lsr a b shift => s.set a (s.get b >>> shift)
  | .cmp a value => { s with zero := decide (s.get a = BitVec.ofNat 64 value) }
  -- the mask is in the bits 6 to 9
  | .mrsDaif a => s.set a (s.daif.setWidth 64 <<< 6)
  | .msrDaif a => { s with daif := (s.get a).extractLsb' 6 4 }
  | _ => s

/-- What ends a piece of code. -/
inductive Exit (L : Type) where
  | ret
  | eret
  | branch (label : L)
  deriving DecidableEq

/-- A call: the routine comes back to the instruction behind it. -/
def call (routine : State → State) (s : State) : State :=
  { routine { s with x := Function.update s.x 30 (s.pc + 4) } with pc := s.pc + 4 }

/-- What AAPCS64 asks of a routine when the `size` bytes from `sp` on belong to its caller. -/
structure Conforming (size : Nat) (routine : State → State) : Prop where
  saved : ∀ s (r : Fin 31), 19 ≤ r → r < 30 → (routine s).x r = s.x r
  sp : ∀ s, (routine s).sp = s.sp
  frame : ∀ s a, Within s.sp size a → (routine s).mem a = s.mem a

namespace Conforming

/-- A routine that touches no memory. -/
theorem of_registers {size : Nat} {f : State → State}
    (hx : ∀ s (r : Fin 31), 19 ≤ r → r < 30 → (f s).x r = s.x r) (hsp : ∀ s, (f s).sp = s.sp)
    (hmem : ∀ s, (f s).mem = s.mem) : Conforming size f :=
  ⟨hx, hsp, fun s a _ => congrFun (hmem s) a⟩

variable {size : Nat} {f : State → State} (h : Conforming size f) (s : State)
include h

theorem call_saved {r : Fin 31} (hlo : 19 ≤ r) (hhi : r < 30) : (call f s).x r = s.x r := by
  have hne : r ≠ 30 := ne_of_lt hhi
  calc (call f s).x r = Function.update s.x 30 (s.pc + 4) r := h.saved _ r hlo hhi
    _ = s.x r := Function.update_of_ne hne _ _

theorem call_sp : (call f s).sp = s.sp := h.sp _

theorem call_frame {a : Word} (ha : Within s.sp size a) : (call f s).mem a = s.mem a :=
  h.frame _ a ha

end Conforming

/-- Run code from its first instruction on, after the jump over some; `none` where it runs past the
end. -/
def run (routine : L → State → State) : Nat → List (Instr L) → State → Option (Exit L × State)
  | _, [], _ => none
  | skip + 1, _ :: code, s => run routine skip code s.next
  | 0, .cbz a skip :: code, s => run routine (if s.get a = 0 then skip else 0) code s.next
  | 0, .bne label :: code, s =>
      if s.zero then run routine 0 code s.next else some (.branch label, s)
  | 0, .bl label :: code, s => run routine 0 code (call (routine label) s)
  | 0, .ret :: _, s => some (.ret, { s with pc := s.x 30 })
  | 0, .eret :: _, s => some (.eret, s)
  | 0, i :: code, s => run routine 0 code (exec i s).next

variable {routine : L → State → State} {s : State}

/-- The instructions that always go on to the next one. -/
def Instr.straight : Instr L → Bool
  | .cbz _ _ | .bne _ | .bl _ | .ret | .eret => false
  | _ => true

def execAll (block : List (Instr L)) (s : State) : State :=
  block.foldl (fun s i => (exec i s).next) s

theorem execAll_append (block block' : List (Instr L)) :
    execAll (block ++ block') s = execAll block' (execAll block s) :=
  List.foldl_append

theorem run_block {block : List (Instr L)} (code : List (Instr L))
    (h : ∀ i ∈ block, i.straight) :
    run routine 0 (block ++ code) s = run routine 0 code (execAll block s) := by
  induction block generalizing s with
  | nil => rfl
  | cons i block ih =>
      have hrest := ih (s := (exec i s).next) fun j hj => h j (List.mem_cons_of_mem i hj)
      have hi := h i List.mem_cons_self
      cases i with
      | cbz | bne | bl | ret | eret => cases hi
      | _ => exact hrest

theorem run_skip (block code : List (Instr L)) :
    run routine block.length (block ++ code) s =
      run routine 0 code { s with pc := s.pc + BitVec.ofNat 64 (4 * block.length) } := by
  induction block generalizing s with
  | nil => simp
  | cons i block ih =>
      have hpc : s.pc + 4 + BitVec.ofNat 64 (4 * block.length) =
          s.pc + BitVec.ofNat 64 (4 * (block.length + 1)) := by bv_omega
      rw [List.length_cons, List.cons_append, run, ih]
      simp only [State.next, hpc]

/-! What an instruction does not name keeps its value. -/

/-- The registers an instruction sets. -/
def Instr.targets : Instr L → List Reg
  | .ldp a b _ _ => [a, b]
  | .ldr a _ _ | .mov a _ | .add a _ _ | .sub a _ _ | .lsr a _ _ | .mrsDaif a => [a]
  | _ => []

def Instr.stores : Instr L → Bool
  | .stp _ _ _ _ | .str _ _ _ => true
  | _ => false

theorem State.set_get_of_ne {r r' : Reg} (v : Word) (h : r ≠ r') :
    (s.set r' v).get r = s.get r := by
  cases r' with
  | sp =>
      cases r with
      | sp => exact absurd rfl h
      | _ => rfl
  | xzr => rfl
  | x n =>
      cases r with
      | x n' => exact Function.update_of_ne (fun heq => h (congrArg Reg.x heq)) v s.x
      | _ => rfl

theorem exec_get {i : Instr L} {r : Reg} (h : r ∉ i.targets) :
    (exec i s).next.get r = s.get r := by
  have hnext : ∀ t : State, t.next.get r = t.get r := fun t => by cases r <;> rfl
  rw [hnext]
  cases i with
  | ldp a b =>
      rw [Instr.targets, List.mem_cons, List.mem_singleton, not_or] at h
      rw [exec, State.set_get_of_ne _ h.2, State.set_get_of_ne _ h.1]
  | ldr a | mov a | add a | sub a | lsr a | mrsDaif a =>
      exact State.set_get_of_ne _ fun heq => h (List.mem_singleton.mpr heq)
  | _ => cases r <;> rfl

theorem execAll_get {block : List (Instr L)} {r : Reg} (h : ∀ i ∈ block, r ∉ i.targets) :
    (execAll block s).get r = s.get r := by
  induction block generalizing s with
  | nil => rfl
  | cons i block ih =>
      calc (execAll (i :: block) s).get r
          = (exec i s).next.get r := ih fun j hj => h j (List.mem_cons_of_mem i hj)
        _ = s.get r := exec_get (h i List.mem_cons_self)

theorem execAll_x {block : List (Instr L)} {n : Fin 31} (h : ∀ i ∈ block, Reg.x n ∉ i.targets) :
    (execAll block s).x n = s.x n :=
  execAll_get h

theorem State.set_mem (r : Reg) (v : Word) : (s.set r v).mem = s.mem := by
  cases r <;> rfl

theorem exec_mem {i : Instr L} (h : i.stores = false) : (exec i s).next.mem = s.mem := by
  cases i with
  | stp | str => cases h
  | ldp => exact (State.set_mem _ _).trans (State.set_mem _ _)
  | ldr | mov | add | sub | lsr | mrsDaif => exact State.set_mem _ _
  | _ => rfl

theorem execAll_mem {block : List (Instr L)} (h : ∀ i ∈ block, i.stores = false) :
    (execAll block s).mem = s.mem := by
  induction block generalizing s with
  | nil => rfl
  | cons i block ih =>
      calc (execAll (i :: block) s).mem
          = (exec i s).next.mem := ih fun j hj => h j (List.mem_cons_of_mem i hj)
        _ = s.mem := exec_mem (h i List.mem_cons_self)

end Run

end Arm64
