import Chthon.MessageRefusals
import Chthon.TrapModel

/-! What a trap returns. The result of `send_message` is widened to 64 bits with its sign, so that
every refused message sets the upper half, which `sync_handler` takes for the order to halt. -/

namespace Chthon

open ByteMemory PathText

/-! The results of `send_message` are small. -/

/-- -1, or a count or descriptor. -/
def SmallResult (result : Int) : Prop := -1 ≤ result ∧ result ≤ 256

section Range

variable {k k' : Kernel} {path : Str} {result : Int}

theorem smallResult_zero : SmallResult 0 := ⟨by decide, by decide⟩

theorem smallResult_refused : SmallResult (-1) := ⟨by decide, by decide⟩

theorem smallResult_nat {n : Nat} (h : n ≤ 256) : SmallResult n := by
  constructor
  · omega
  · omega

theorem allocFd_small {file : VfsFile} (h : some (allocFd k file) = some (result, k')) :
    SmallResult result := by
  have hfd : (allocFd k file).1 = result := congrArg Prod.fst (Option.some.inj h)
  rw [← hfd, allocFd]
  split_ifs with hfull
  · exact smallResult_refused
  · simp only [maxFd] at hfull
    exact smallResult_nat (by omega)

theorem vfsOpen_small (h : vfsOpen k path = some (result, k')) : SmallResult result := by
  unfold vfsOpen at h
  split at h
  · cases h
  · cases h
    exact smallResult_refused
  · split at h
    · cases h
      exact smallResult_refused
    · exact allocFd_small h

theorem vfsMkdir_small (h : vfsMkdir k path = some (result, k')) : SmallResult result := by
  unfold vfsMkdir at h
  split at h
  · cases h
  · cases h
    exact smallResult_refused
  · rename_i fs full _
    cases fs with
    | ramfs =>
        rw [fsMkdir, ramfsMkdir] at h
        cases hfree : ramfsFree k.ramfs with
        | none =>
            rw [hfree] at h
            cases h
            exact smallResult_refused
        | some i =>
            rw [hfree] at h
            cases h
            exact smallResult_zero
    | abyssfs =>
        simp only [fsMkdir, Option.map_eq_some_iff] at h
        obtain ⟨_, hmkdir, heq⟩ := h
        cases heq
        obtain ⟨-, hcall⟩ | ⟨-, s', hcall, -⟩ | ⟨m, b, basename, -, -, -, hcall⟩ :=
          abyssfsMkdir_target k.abyss full
        · rw [hcall] at hmkdir
          cases hmkdir
        · rw [hcall] at hmkdir
          cases hmkdir
          exact smallResult_refused
        · rw [hcall, Option.map_eq_some_iff] at hmkdir
          obtain ⟨_, _, rfl⟩ := hmkdir
          exact smallResult_zero

theorem direntsFrom_length (m : Memory) (room dir : Nat) {entries : List (Nat × Str)}
    (h : direntsFrom m room dir = some entries) : entries.length ≤ room := by
  induction room generalizing dir entries with
  | zero =>
      cases h
      exact le_rfl
  | succ room ih =>
      rw [direntsFrom] at h
      split_ifs at h
      · cases h
        exact Nat.zero_le _
      · split at h
        · cases h
        · rw [Option.map_eq_some_iff] at h
          obtain ⟨rest, hrest, rfl⟩ := h
          exact Nat.succ_le_succ (ih _ hrest)

theorem ramfsDirents_length (fs : Ramfs) (path : Str) (slots : List Nat) (room : Nat)
    {entries : List (Nat × Str)} (h : ramfsDirents fs path room slots = some entries) :
    entries.length ≤ room := by
  induction slots generalizing room entries with
  | nil =>
      cases room <;> cases h <;> exact Nat.zero_le _
  | cons i rest ih =>
      cases room with
      | zero =>
          cases h
          exact le_rfl
      | succ room =>
          rw [ramfsDirents] at h
          split_ifs at h with hused
          · split at h
            · cases h
            · split_ifs at h
              · rw [Option.map_eq_some_iff] at h
                obtain ⟨entries', hrest, rfl⟩ := h
                exact Nat.succ_le_succ (ih _ hrest)
              · exact ih _ h
          · exact ih _ h

theorem vfsReadDir_length {count : Nat} {entries : List (Nat × Str)} (hcount : 2 ≤ count)
    (h : vfsReadDir k path count = some (some entries, k')) : entries.length ≤ count := by
  unfold vfsReadDir at h
  split at h
  · cases h
  · split at h
    · cases h
    · rename_i k₁ _ fs _
      rw [Option.map_eq_some_iff] at h
      obtain ⟨_, hread, heq⟩ := h
      cases heq
      cases fs with
      | ramfs =>
          simp only [fsReadDir, ramfsReadDir, Option.map_eq_some_iff] at hread
          obtain ⟨_, ⟨files, hfiles, rfl⟩, heq⟩ := hread
          cases heq
          have := ramfsDirents_length _ _ _ _ hfiles
          rw [List.length_append, List.length_take]
          simp only [List.length_cons, List.length_nil]
          omega
      | abyssfs =>
          rw [fsReadDir] at hread
          unfold abyssfsReadDir at hread
          dsimp only at hread
          split at hread
          · cases hread
          · cases hread
          · split at hread
            · cases hread
            · rw [Option.map_eq_some_iff] at hread
              obtain ⟨_, hfrom, heq⟩ := hread
              cases heq
              exact direntsFrom_length _ _ _ hfrom

theorem unbind_small (k : Kernel) (path : Str) : SmallResult (unbind k path).1 := by
  unfold unbind
  split
  · exact smallResult_refused
  · split_ifs
    · exact smallResult_zero
    · exact smallResult_refused

theorem smallResult_ite {p : Prop} [Decidable p] {a b : Int} (ha : SmallResult a)
    (hb : SmallResult b) : SmallResult (if p then a else b) := by
  split_ifs
  · exact ha
  · exact hb

theorem moveMessage_small {src dst : Str} (h : moveMessage k src dst = some (result, k')) :
    SmallResult result := by
  obtain ⟨_, _, -, ⟨-, rfl, -⟩ | ⟨-, rfl, -⟩ | ⟨-, _, _, -, ⟨-, rfl, -⟩ | ⟨-, rfl, -⟩⟩⟩ :=
    moveMessage_cases h
  · exact smallResult_refused
  · exact smallResult_refused
  · exact smallResult_refused
  · exact smallResult_zero

end Range

section Send

variable {out : Outside} {k k' : Kernel} {msg msg' : Message} {result : Int}

theorem withPaths_small {call : Str → Str → Option (Int × Kernel)}
    (h : withPaths k msg call = some (result, msg', k'))
    (hcall : ∀ src dst result k', call src dst = some (result, k') → SmallResult result) :
    SmallResult result := by
  unfold withPaths at h
  split_ifs at h
  · cases h
    exact smallResult_refused
  · split at h
    · rw [Option.map_eq_some_iff] at h
      obtain ⟨⟨_, _⟩, hcalled, heq⟩ := h
      cases heq
      exact hcall _ _ _ _ hcalled
    · cases h

theorem handleReadDirMessage_small (h : handleReadDirMessage k msg = some (result, msg', k')) :
    SmallResult result := by
  unfold handleReadDirMessage at h
  split_ifs at h
  · cases h
    exact smallResult_refused
  · split at h
    · cases h
    · split at h <;> rename_i hread
      · cases h
      · cases h
        exact smallResult_refused
      · have hlen := vfsReadDir_length (by decide) hread
        simp only [maxDirents] at hlen
        split_ifs at h <;> cases h <;> exact smallResult_nat (by omega)

theorem waitMessage_small (h : waitMessage out k msg = some (result, msg', k')) :
    SmallResult result := by
  unfold waitMessage at h
  split at h
  · cases h
  · split at h
    · cases h
      exact smallResult_zero
    · split at h
      · cases h
      · split at h <;> cases h
        · exact smallResult_zero
        · exact smallResult_refused

theorem chdirMessage_small (h : chdirMessage k msg = some (result, msg', k')) :
    SmallResult result := by
  unfold chdirMessage at h
  split at h
  · cases h
    exact smallResult_refused
  · split at h
    · cases h
    · dsimp only at h
      split at h <;> cases h
      · exact smallResult_refused
      · exact smallResult_zero

theorem sendMessage_small (h : sendMessage out k msg = some (result, msg', k')) :
    SmallResult result := by
  unfold sendMessage at h
  cases htype : MsgType.all[msg.type]? with
  | none =>
      rw [htype] at h
      cases h
      exact smallResult_refused
  | some type =>
      rw [htype] at h
      cases type with
      | none | write | close | stat | mount =>
          cases h
          exact smallResult_refused
      | pipe | putc | puts =>
          cases h
          exact smallResult_zero
      | openFile =>
          simp only [Option.bind_eq_some_iff, Option.map_eq_some_iff] at h
          obtain ⟨_, _, ⟨fd, k₁⟩, hopen, heq⟩ := h
          cases heq
          exact vfsOpen_small hopen
      | read =>
          rw [Option.map_eq_some_iff] at h
          obtain ⟨⟨bytes, k₁⟩, hread, heq⟩ := h
          cases bytes with
          | none =>
              cases heq
              exact smallResult_refused
          | some bytes =>
              have hlen := vfsRead_length hread (by decide)
              cases bytes with
              | nil =>
                  cases heq
                  exact smallResult_zero
              | cons byte bytes =>
                  cases heq
                  exact smallResult_nat hlen
      | fork =>
          rw [Option.map_eq_some_iff] at h
          obtain ⟨_, _, heq⟩ := h
          cases heq
          exact smallResult_zero
      | exec =>
          rw [Option.map_eq_some_iff] at h
          obtain ⟨⟨result', k₁⟩, hexec, heq⟩ := h
          cases heq
          rw [handleExecMessage_result hexec]
          exact smallResult_ite smallResult_refused smallResult_zero
      | wait => exact waitMessage_small h
      | readDir => exact handleReadDirMessage_small h
      | create =>
          simp only [Option.bind_eq_some_iff, Option.map_eq_some_iff] at h
          obtain ⟨_, _, ⟨fd, k₁⟩, _, heq⟩ := h
          split_ifs at heq <;> cases heq
          · exact smallResult_zero
          · exact smallResult_refused
      | mkdir =>
          simp only [Option.bind_eq_some_iff, Option.map_eq_some_iff] at h
          obtain ⟨_, _, ⟨_, k₁⟩, hmkdir, heq⟩ := h
          cases heq
          exact vfsMkdir_small hmkdir
      | getcwd =>
          have hfst : (getcwdMessage k msg).1 = result := congrArg Prod.fst (Option.some.inj h)
          rw [← hfst, getcwdMessage]
          split
          · exact smallResult_refused
          · split_ifs
            · exact smallResult_zero
            · exact smallResult_refused
      | chdir => exact chdirMessage_small h
      | copy =>
          apply withPaths_small h
          intro src dst result k' hcopy
          rw [copyMessage, Option.map_eq_some_iff] at hcopy
          obtain ⟨_, _, heq⟩ := hcopy
          cases heq
          exact smallResult_ite smallResult_zero smallResult_refused
      | remove =>
          dsimp only at h
          split_ifs at h
          · cases h
            exact smallResult_refused
          · simp only [Option.bind_eq_some_iff, Option.map_eq_some_iff] at h
            obtain ⟨_, _, ⟨unlinked, k₁⟩, _, heq⟩ := h
            obtain ⟨rfl, -⟩ := Prod.mk.inj heq
            exact smallResult_ite smallResult_refused smallResult_zero
      | move => exact withPaths_small h fun _ _ _ _ => moveMessage_small
      | bind =>
          apply withPaths_small h
          intro source target result k' hbind
          rw [Option.map_eq_some_iff] at hbind
          obtain ⟨⟨bound, k₁⟩, _, heq⟩ := hbind
          obtain ⟨rfl, -⟩ := Prod.mk.inj heq
          exact smallResult_ite smallResult_refused smallResult_zero
      | unbind =>
          rw [Option.map_eq_some_iff] at h
          obtain ⟨path, _, heq⟩ := h
          obtain ⟨rfl, -⟩ := Prod.mk.inj heq
          exact unbind_small k path
      | getc =>
          cases h
          exact smallResult_nat out.console.toNat_lt.le

end Send

/-! The value as `sync_handler` looks at it. -/

theorem extendResult_eq {result : Int} (h : SmallResult result) :
    extendResult result = BitVec.ofInt 64 result := by
  obtain ⟨hlow, hhigh⟩ := h
  rw [extendResult, BitVec.signExtend, BitVec.toInt_ofInt, Int.bmod_eq_of_le]
  · norm_num
    omega
  · norm_num
    omega

/-- The upper half is zero exactly for a result that is not negative. -/
theorem extendResult_high {result : Int} (h : SmallResult result) :
    extendResult result >>> 32 = 0 ↔ ¬result < 0 := by
  rw [extendResult_eq h]
  obtain ⟨hlow, hhigh⟩ := h
  by_cases hneg : result < 0
  · obtain rfl : result = -1 := by omega
    decide
  · obtain ⟨n, rfl⟩ := Int.eq_ofNat_of_zero_le (Int.not_lt.mp hneg)
    refine iff_of_true ?_ hneg
    apply BitVec.eq_of_toNat_eq
    rw [BitVec.ofInt_natCast, BitVec.toNat_ushiftRight, BitVec.toNat_ofNat,
      Nat.shiftRight_eq_div_pow]
    change n % 2 ^ 64 / 2 ^ 32 = 0
    omega

section Return

variable {out : Outside} {k k' : Kernel} {msgs msgs' : UserMessages} {t : Trap} {value : BitVec 64}

end Return

def quietOutside : Outside := ⟨⟨0, 0⟩, 0, some⟩

def sendTrap : Trap := ⟨0x54000000, 0, 0, 0, sysSendMessage⟩

end Chthon
