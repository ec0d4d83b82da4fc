import Chthon.ReadDirReply
import Chthon.VfsFrames

/-! What a program can do to the machine through its traps. Its memory is its own between them, so a
trap comes with the memory and the messages that the program has made by then. Forking and waiting are
about other processes; every other message stays with the process that sends it, and with the buffer it
names for the reply.

The kernel writes the reply, and what it fills in of the message, wherever the program says, also over
its own data. So the results are about programs that name their own memory for both; what becomes of
the kernel where one does not is left open. -/

namespace Chthon

open ByteMemory Run

/-- How much may be written at `data` in reply to a message. `MSG_READ` does not look at the size. -/
def replySize (msg : Message) : Nat :=
  match MsgType.all[msg.type]? with
  | some .read => 256
  | some .readDir | some .getcwd => msg.size
  | _ => 0

def replyBuffer (msg : Message) (a : Nat) : Prop := msg.data ≤ a ∧ a < msg.data + replySize msg

/-- `sizeof(struct Message)` -/
def messageSize : Nat := 96

/-- From the address of `.user` on, the gigabyte that `mmu_init` opens to programs. Nothing of the
kernel is linked there. -/
def InProgramMemory (start size : Nat) : Prop := 0x80000000 ≤ start ∧ start + size ≤ 0xC0000000

instance (start size : Nat) : Decidable (InProgramMemory start size) :=
  inferInstanceAs (Decidable (_ ∧ _))

/-- An `int`, and a `size_t`, as they lie in memory. -/
def intBytes (n : Int) : Str := le32 (BitVec.ofInt 32 n).toNat
def sizeBytes (n : Nat) : Str := le32 n ++ le32 (n / 2 ^ 32)

/-- The field of the message that a call fills in, by its place in the message. -/
def filledField (ended : TrapEnd) (msg : Message) : Option (Nat × Str) :=
  match MsgType.all[msg.type]? with
  | some .openFile => some (44, intBytes msg.fd)
  | some .create => if ended = .halted then none else some (44, intBytes msg.fd)
  | some .read =>
      if ended = .halted ∨ ended = .resumed 0 then none else some (32, sizeBytes msg.size)
  | some .getcwd => if ended = .halted then none else some (32, sizeBytes msg.size)
  | some .fork => some (48, intBytes msg.pid)
  | some .wait => if ended = .halted then none else some (52, intBytes msg.status)
  | some .chdir => some (52, intBytes msg.status)
  | some .readDir => if ended = .halted then none else some (72, sizeBytes msg.direntCount)
  | some .getc => some (80, [msg.character])
  | _ => none

/-- Memory with the field filled in, for a message at `addr`. -/
def fillIn (m : Memory) (addr : Nat) (ended : TrapEnd) (msg : Message) : Memory :=
  (filledField ended msg).elim m fun field => store m (addr + field.1) field.2

def MsgType.takes : MsgType → Nat
  | .openFile | .create => 1
  | .copy | .move => 2
  | _ => 0

/-- The descriptors that a message takes which is not refused. -/
def descriptorsTaken (msg : Message) : Nat := MsgType.all[msg.type]?.elim 0 MsgType.takes

/-- The messages that do not make another process or wait for one. -/
def OwnMessage (msg : Message) : Prop :=
  MsgType.all[msg.type]? ≠ some .fork ∧ MsgType.all[msg.type]? ≠ some .wait

instance (msg : Message) : Decidable (OwnMessage msg) := inferInstanceAs (Decidable (_ ∧ _))

/-- A trap, with the memory and the messages in it as the program has left them. What the kernel finds
of its own data after it has written outside of the program's memory is `stray`. -/
structure SystemCall where
  out : Outside
  user : Memory
  msgs : UserMessages
  trap : Trap
  stray : Kernel → Kernel

/-- The message of a `SYS_SEND_MESSAGE`. -/
def SystemCall.message (c : SystemCall) : Option Message :=
  if c.trap.ec = classSvc ∧ c.trap.x8 = sysSendMessage then some (c.msgs c.trap.x0) else none

/-- It sends no message, or one about its own process. -/
def SystemCall.Own (c : SystemCall) : Prop := ∀ msg ∈ c.message, OwnMessage msg

instance (c : SystemCall) : Decidable c.Own := inferInstanceAs (Decidable (∀ msg ∈ c.message, _))

def SystemCall.takes (c : SystemCall) : Nat := c.message.elim 0 descriptorsTaken

/-- The message and the buffer for the reply lie in the program's memory, and beside each other. -/
def SystemCall.Contained (c : SystemCall) : Prop :=
  ∀ msg ∈ c.message, InProgramMemory c.trap.x0.toNat messageSize ∧
    (replySize msg = 0 ∨ InProgramMemory msg.data (replySize msg) ∧
      (msg.data + replySize msg ≤ c.trap.x0.toNat ∨ c.trap.x0.toNat + messageSize ≤ msg.data))

instance (c : SystemCall) : Decidable c.Contained :=
  inferInstanceAs (Decidable (∀ msg ∈ c.message, _))

/-- The kernel after the handler has come back. -/
def SystemCall.answered (c : SystemCall) (ended : TrapEnd) (msgs : UserMessages) (k : Kernel) :
    Kernel :=
  if c.Contained then
    c.message.elim k fun _ =>
      { k with user := fillIn k.user c.trap.x0.toNat ended (msgs c.trap.x0) }
  else c.stray k

/-- One trap: what becomes of the program, and the kernel it leaves. -/
def systemCall (k : Kernel) (c : SystemCall) : Option (TrapEnd × Kernel) :=
  (syncHandler c.out { k with user := c.user } c.msgs c.trap).map fun answer =>
    (answer.1, c.answered answer.1 answer.2.1 answer.2.2)

/-- Of the processes only the current one has changed, in its directory, its bindings and the context
it is given by `MSG_EXEC`; the heap and the descriptors have only grown. -/
structure OwnCall (k k' : Kernel) : Prop where
  rest : { k' with
    heapPos := k.heapPos, abyss := k.abyss, ramfs := k.ramfs
    fdTable := k.fdTable, nextFd := k.nextFd, procs := k.procs, user := k.user } = k
  others : ∀ q, k.current ≠ some q → k'.procs q = k.procs q
  own : ∀ p, k.current = some p → k'.procs p = { k.procs p with
    cwd := (k'.procs p).cwd, ns := (k'.procs p).ns, ctx := (k'.procs p).ctx }
  heap : k.heapPos ≤ k'.heapPos
  next : k.nextFd ≤ k'.nextFd
  bound : k.nextFd ≤ maxFd → k'.nextFd ≤ maxFd

/-- What a message does to the processes, to memory, and to the descriptors. -/
structure MessageEffect (k : Kernel) (msg : Message) (result : Int) (k' : Kernel) : Prop where
  own : OwnCall k k'
  memory : ∀ a, ¬replyBuffer msg a → k'.user a = k.user a
  taken : 0 ≤ result → k.nextFd + descriptorsTaken msg ≤ k'.nextFd

section Frames

variable {k k' k₁ : Kernel} {msg msg' : Message} {result : Int} {out : Outside}

theorem OwnOnly.user (h : OwnOnly k k') : k'.user = k.user := by
  have huser := congrArg Kernel.user h.rest
  exact huser

theorem OwnOnly.ownCall (h : OwnOnly k k') : OwnCall k k' where
  rest := by
    rw [← h.user]
    exact h.rest
  others := h.others
  own p hp := by
    have hown := h.own p hp
    rw [hown]
  heap := h.heap
  next := h.next
  bound := h.bound

theorem OwnCall.current (h : OwnCall k k') : k'.current = k.current := by
  have hcurrent := congrArg Kernel.current h.rest
  exact hcurrent

theorem OwnCall.trans {k'' : Kernel} (h : OwnCall k k') (h' : OwnCall k' k'') : OwnCall k k'' where
  rest := by
    have hrest := h.rest
    rw [← h'.rest] at hrest
    exact hrest
  others q hq := by
    have hq' : k'.current ≠ some q := h.current ▸ hq
    exact (h'.others q hq').trans (h.others q hq)
  own p hp := by
    have hp' : k'.current = some p := h.current.trans hp
    rw [h'.own p hp', h.own p hp]
  heap := h.heap.trans h'.heap
  next := h.next.trans h'.next
  bound hk := h'.bound (h.bound hk)

/-- The program edits its memory. -/
theorem OwnCall.edit (k : Kernel) (user : Memory) : OwnCall k { k with user := user } :=
  ⟨rfl, fun _ _ => rfl, fun _ _ => rfl, le_rfl, le_rfl, id⟩

theorem OwnCall.refl (k : Kernel) : OwnCall k k := .edit k k.user

/-- A message that changes files, and what the process keeps of them. -/
theorem OwnOnly.message (h : OwnOnly k k')
    (htaken : 0 ≤ result → k.nextFd + descriptorsTaken msg ≤ k'.nextFd) :
    MessageEffect k msg result k' :=
  ⟨h.ownCall, fun a _ => by rw [h.user], htaken⟩

/-- A reply goes to its buffer. -/
theorem OwnOnly.reply (h : OwnOnly k k') (user : Memory)
    (huser : ∀ a, ¬replyBuffer msg a → user a = k.user a) (hfree : descriptorsTaken msg = 0) :
    MessageEffect k msg result { k' with user := user } :=
  ⟨h.ownCall.trans (.edit k' user), huser, fun _ => by rw [hfree]; exact h.next⟩

theorem copyMessage_effect {src dst : Str} (h : copyMessage k src dst = some (result, k')) :
    FilesOnly k k' ∧ (0 ≤ result → k.nextFd + 2 ≤ k'.nextFd) := by
  obtain ⟨⟨complete, k₁⟩, hcopy, heq⟩ := Option.map_eq_some_iff.mp h
  obtain ⟨hfiles, hcount⟩ := copyFile_effect hcopy
  cases heq
  refine ⟨hfiles, fun hresult => (hcount ?_).ge⟩
  rintro rfl
  exact absurd hresult (by decide)

theorem moveMessage_effect {src dst : Str} (h : moveMessage k src dst = some (result, k')) :
    FilesOnly k k' ∧ (0 ≤ result → k.nextFd + 2 ≤ k'.nextFd) := by
  obtain ⟨complete, k₁, hcopy, hrest⟩ := moveMessage_cases h
  obtain ⟨hcopied, hcount⟩ := copyFile_effect hcopy
  have hrefused : (0 : Int) ≤ -1 → k.nextFd + 2 ≤ k'.nextFd := fun hresult =>
    absurd hresult (by decide)
  rcases hrest with ⟨-, rfl, rfl⟩ | ⟨-, rfl, _, hundo⟩ |
    ⟨rfl, removed, k₂, hremove, ⟨-, rfl, _, hundo⟩ | ⟨-, -, rfl⟩⟩
  · exact ⟨hcopied, hrefused⟩
  · exact ⟨hcopied.trans (vfsUnlink_effect hundo).1, hrefused⟩
  · have hboth := hcopied.trans (vfsUnlink_effect hremove).1
    exact ⟨hboth.trans (vfsUnlink_effect hundo).1, hrefused⟩
  · obtain ⟨hremoved, hkept⟩ := vfsUnlink_effect hremove
    refine ⟨hcopied.trans hremoved, fun _ => ?_⟩
    rw [hkept, hcount (by simp)]

theorem withPaths_cases {call : Str → Str → Option (Int × Kernel)}
    (h : withPaths k msg call = some (result, msg', k')) :
    result = -1 ∧ k' = k ∨ ∃ src dst, call src dst = some (result, k') := by
  rcases withPaths_some h with ⟨hresult, hk, -⟩ | ⟨src, dst, -, -, hcall, -⟩
  · exact .inl ⟨hresult, hk⟩
  · exact .inr ⟨src, dst, hcall⟩

theorem chdirMessage_effect (h : chdirMessage k msg = some (result, msg', k')) : OwnOnly k k' := by
  rw [chdirMessage] at h
  split at h
  · cases h
    exact .refl k
  · rename_i p hcur
    split at h
    · cases h
    · dsimp only at h
      split at h
      · cases h
      · rename_i hread
        cases h
        exact ownOnly_of_files (vfsReadDir_effect hread).1
      · rename_i entries k₁ hread
        cases h
        exact .set (vfsReadDir_effect hread).1 hcur _ (k₁.procs p).ns

/-- `MSG_EXEC` sets the context of the current process. -/
theorem handleExecMessage_effect (h : handleExecMessage k msg = some (result, k')) :
    OwnCall k k' ∧ k'.user = k.user := by
  have hset : ∀ {p : ProcessPtr} (ctx : Context), k.current = some p →
      OwnCall k (k.setProc p { k.procs p with ctx := ctx }) := by
    intro p ctx hcur
    refine ⟨rfl, fun q hq => ?_, fun q hq => ?_, le_rfl, le_rfl, id⟩
    · have hne : q ≠ p := fun heq => hq (heq ▸ hcur)
      exact Function.update_of_ne hne _ _
    · obtain rfl : p = q := Option.some.inj (hcur.symm.trans hq)
      rw [Kernel.setProc]
      dsimp only
      rw [Function.update_self]
  rw [handleExecMessage] at h
  split at h
  · cases h
    exact ⟨.refl k, rfl⟩
  · split at h
    · cases h
    · rename_i p hcur
      dsimp only at h
      split at h
      · cases h
        exact ⟨hset _ hcur, rfl⟩
      · obtain ⟨_, _, heq⟩ := Option.map_eq_some_iff.mp h
        cases heq
        exact ⟨hset _ hcur, rfl⟩

theorem storeDirents_after {m : Memory} {data : Nat} {entries : List (Nat × Str)}
    (h : ∀ e ∈ entries, IsDirent e) {x : Nat} (hx : data + entries.length * direntSize ≤ x) :
    storeDirents m data entries x = m x := by
  induction entries generalizing m data with
  | nil => rfl
  | cons e rest ih =>
      have hlen : (le32 e.1 ++ le32 (e.1 / 2 ^ 32) ++ e.2 ++ [0]).length ≤ direntSize := by
        have hshort : e.2.length < 256 := (h e List.mem_cons_self).short
        simp only [List.length_append, le32_length, List.length_singleton, direntSize]
        omega
      have hspan : data + direntSize + rest.length * direntSize ≤ x := by
        rw [List.length_cons, Nat.succ_mul] at hx
        omega
      rw [storeDirents, ih (fun e he => h e (List.mem_cons_of_mem _ he)) hspan]
      apply store_of_ge
      omega

theorem handleReadDirMessage_effect (htype : MsgType.all[msg.type]? = some .readDir)
    (h : handleReadDirMessage k msg = some (result, msg', k')) : MessageEffect k msg result k' := by
  have hfree : descriptorsTaken msg = 0 := by rw [descriptorsTaken, htype]; rfl
  have hfiles : ∀ {k₁ : Kernel} {result : Int}, FilesOnly k k₁ → MessageEffect k msg result k₁ :=
    fun hfiles => (ownOnly_of_files hfiles).message fun _ => by rw [hfree]; exact hfiles.next
  rw [handleReadDirMessage] at h
  split_ifs at h
  · cases h
    exact hfiles (.refl k)
  · split at h
    · cases h
    · split at h
      · cases h
      · rename_i hread
        cases h
        exact hfiles (vfsReadDir_effect hread).1
      · rename_i dirents k₁ hread
        have hread' := (vfsReadDir_effect hread).1
        split_ifs at h with hroom
        · cases h
          refine (ownOnly_of_files hread').reply _ (fun a ha => ?_) hfree
          rw [replyBuffer, replySize, htype] at ha
          dsimp only at ha
          have huser : k₁.user = k.user := (ownOnly_of_files hread').user
          rw [huser]
          rcases not_and_or.mp ha with hbefore | hafter
          · exact storeDirents_before (Nat.not_le.mp hbefore)
          · apply storeDirents_after (vfsReadDir_isDirent hread)
            have := hroom.2
            omega
        · cases h
          exact hfiles hread'

theorem getcwdMessage_effect (htype : MsgType.all[msg.type]? = some .getcwd)
    (h : getcwdMessage k msg = (result, msg', k')) : MessageEffect k msg result k' := by
  have hfree : descriptorsTaken msg = 0 := by rw [descriptorsTaken, htype]; rfl
  have hsame : ∀ {result : Int}, MessageEffect k msg result k :=
    (OwnOnly.refl k).message fun _ => by rw [hfree]; exact le_rfl
  rw [getcwdMessage] at h
  split at h
  · cases h
    exact hsame
  · rename_i p hcur
    split_ifs at h with hroom
    · cases h
      refine (OwnOnly.refl k).reply _ (fun a ha => ?_) hfree
      rw [replyBuffer, replySize, htype] at ha
      dsimp only at ha
      apply store_outside
      rw [List.length_append, List.length_singleton]
      have := hroom.2.2
      omega
    · cases h
      exact hsame

/-- Every message that is not about another process. -/
theorem sendMessage_effect (hown : OwnMessage msg)
    (h : sendMessage out k msg = some (result, msg', k')) : MessageEffect k msg result k' := by
  unfold sendMessage at h
  have hfiles : ∀ {k' : Kernel} {result : Int}, FilesOnly k k' →
      (0 ≤ result → k.nextFd + descriptorsTaken msg ≤ k'.nextFd) → MessageEffect k msg result k' :=
    fun hfiles => (ownOnly_of_files hfiles).message
  have hidle : ∀ {k' : Kernel} {result : Int}, descriptorsTaken msg = 0 → OwnOnly k k' →
      MessageEffect k msg result k' :=
    fun hfree hsame => hsame.message fun _ => by rw [hfree]; exact hsame.next
  cases htype : MsgType.all[msg.type]? with
  | none =>
      rw [htype] at h
      cases h
      exact hidle (by rw [descriptorsTaken, htype]; rfl) (.refl k)
  | some type =>
      rw [htype] at h
      have htaken : descriptorsTaken msg = type.takes := by rw [descriptorsTaken, htype]; rfl
      cases type with
      | none | write | close | stat | mount | pipe | putc | puts | getc =>
          cases h
          exact hidle htaken (.refl k)
      | fork => exact absurd htype hown.1
      | wait => exact absurd htype hown.2
      | openFile =>
          simp only [Option.bind_eq_some_iff, Option.map_eq_some_iff] at h
          obtain ⟨_, _, ⟨fd, k₁⟩, hopen, heq⟩ := h
          cases heq
          obtain ⟨hopened, hcount⟩ := vfsOpen_effect hopen
          apply hfiles hopened
          intro hfd
          rw [htaken, hcount, if_pos hfd, MsgType.takes]
      | read =>
          rw [Option.map_eq_some_iff] at h
          obtain ⟨⟨bytes, k₁⟩, hread, heq⟩ := h
          have hread' := ownOnly_of_files (vfsRead_effect hread).1
          cases bytes with
          | none =>
              cases heq
              exact hidle htaken hread'
          | some bytes =>
              have hlen := vfsRead_length hread (by decide)
              cases bytes with
              | nil =>
                  cases heq
                  exact hidle htaken hread'
              | cons byte bytes =>
                  cases heq
                  refine hread'.reply _ (fun a ha => ?_) htaken
                  rw [replyBuffer, replySize, htype] at ha
                  dsimp only at ha
                  rw [← hread'.user]
                  apply store_outside
                  omega
      | exec =>
          rw [Option.map_eq_some_iff] at h
          obtain ⟨⟨result', k₁⟩, hexec, heq⟩ := h
          cases heq
          obtain ⟨hcall, huser⟩ := handleExecMessage_effect hexec
          refine ⟨hcall, fun a _ => by rw [huser], fun _ => ?_⟩
          rw [htaken]
          exact hcall.next
      | readDir => exact handleReadDirMessage_effect htype h
      | create =>
          simp only [Option.bind_eq_some_iff, Option.map_eq_some_iff] at h
          obtain ⟨_, _, ⟨fd, k₁⟩, hcreate, heq⟩ := h
          obtain ⟨hcreated, hcount⟩ := vfsCreate_effect hcreate
          split_ifs at heq with hfd
          · cases heq
            obtain ⟨hclose, hkept⟩ := vfsClose_effect k₁ fd
            apply hfiles (hcreated.trans hclose)
            intro _
            rw [htaken, hkept, hcount, if_pos hfd, MsgType.takes]
          · cases heq
            exact hfiles hcreated fun hresult => absurd hresult (by decide)
      | mkdir =>
          simp only [Option.bind_eq_some_iff, Option.map_eq_some_iff] at h
          obtain ⟨_, _, _, hmkdir, heq⟩ := h
          cases heq
          exact hidle htaken (ownOnly_of_files (vfsMkdir_effect hmkdir).1)
      | getcwd => exact getcwdMessage_effect htype (Option.some.inj h)
      | chdir => exact hidle htaken (chdirMessage_effect h)
      | copy =>
          rcases withPaths_cases h with ⟨rfl, rfl⟩ | ⟨src, dst, hcopy⟩
          · exact hfiles (.refl _) fun hresult => absurd hresult (by decide)
          · obtain ⟨hcopied, hcount⟩ := copyMessage_effect hcopy
            apply hfiles hcopied
            rwa [htaken]
      | remove =>
          dsimp only at h
          split_ifs at h
          · cases h
            exact hidle htaken (.refl k)
          · simp only [Option.bind_eq_some_iff, Option.map_eq_some_iff] at h
            obtain ⟨_, _, _, hunlink, heq⟩ := h
            cases heq
            exact hidle htaken (ownOnly_of_files (vfsUnlink_effect hunlink).1)
      | move =>
          rcases withPaths_cases h with ⟨rfl, rfl⟩ | ⟨src, dst, hmove⟩
          · exact hfiles (.refl _) fun hresult => absurd hresult (by decide)
          · obtain ⟨hmoved, hcount⟩ := moveMessage_effect hmove
            apply hfiles hmoved
            rwa [htaken]
      | bind =>
          rcases withPaths_cases h with ⟨rfl, rfl⟩ | ⟨source, target, hbind⟩
          · exact hidle htaken (.refl _)
          · obtain ⟨_, hbound, heq⟩ := Option.map_eq_some_iff.mp hbind
            cases heq
            exact hidle htaken (bind_effect hbound).1
      | unbind =>
          rw [Option.map_eq_some_iff] at h
          obtain ⟨path, _, heq⟩ := h
          cases heq
          exact hidle htaken (unbind_effect k path).1

end Frames

/-! The trap around the message. -/

section Traps

variable {k k' : Kernel} {c : SystemCall} {ended : TrapEnd}

@[simp] theorem intBytes_length (n : Int) : (intBytes n).length = 4 := rfl
@[simp] theorem sizeBytes_length (n : Nat) : (sizeBytes n).length = 8 := rfl

theorem filledField_inside {msg : Message} {field : Nat × Str}
    (h : filledField ended msg = some field) : field.1 + field.2.length ≤ messageSize := by
  rw [filledField] at h
  split at h <;> (try split_ifs at h) <;> cases h <;> simp [messageSize]

theorem fillIn_outside {m : Memory} {addr a : Nat} {msg : Message}
    (ha : a < addr ∨ addr + messageSize ≤ a) : fillIn m addr ended msg a = m a := by
  rw [fillIn]
  cases h : filledField ended msg with
  | none => rfl
  | some field =>
      have hinside := filledField_inside h
      apply store_outside
      omega

/-- What a trap asks of the kernel: its message, or one for the console. -/
theorem syncHandler_cases {msgs' : UserMessages}
    (h : syncHandler c.out { k with user := c.user } c.msgs c.trap = some (ended, msgs', k')) :
    k' = { k with user := c.user } ∧ c.message = none ∨
      ∃ msg result, c.message = some msg ∧
        sendMessage c.out { k with user := c.user } msg = some (result, msgs' c.trap.x0, k') ∧
        (ended = .halted ∨ 0 ≤ result) := by
  obtain ⟨⟨value, msgs₁, k₂⟩, hsynchronous, heq⟩ := Option.map_eq_some_iff.mp h
  cases heq
  have hconsole : ∀ {type : MsgType} {character : UInt8} {string : Nat} {result : Int} {msg : Message}
      {k' : Kernel}, type ∈ [MsgType.putc, .getc, .puts] →
        sendMessage c.out { k with user := c.user } (kernelMessage type character string) =
          some (result, msg, k') → k' = { k with user := c.user } := by
    intro type character string result msg k' htype hsent
    have hcode : MsgType.all[(kernelMessage type character string).type]? = some type := by
      change MsgType.all[type.code]? = some type
      cases type <;> decide
    rw [sendMessage, hcode] at hsent
    simp only [List.mem_cons, List.not_mem_nil, or_false] at htype
    rcases htype with rfl | rfl | rfl <;>
      · cases hsent
        rfl
  rw [handleSyncException] at hsynchronous
  rw [SystemCall.message]
  split_ifs at hsynchronous with hsvc hputc hgetc hputs hsend
  · obtain ⟨⟨result, msg, k₃⟩, hsent, heq⟩ := Option.map_eq_some_iff.mp hsynchronous
    cases heq
    refine .inl ⟨hconsole (by simp) hsent, if_neg fun hmessage => ?_⟩
    rw [hputc] at hmessage
    exact absurd hmessage.2 (by decide)
  · obtain ⟨⟨result, msg, k₃⟩, hsent, heq⟩ := Option.map_eq_some_iff.mp hsynchronous
    cases heq
    refine .inl ⟨hconsole (by simp) hsent, if_neg fun hmessage => ?_⟩
    rw [hgetc] at hmessage
    exact absurd hmessage.2 (by decide)
  · obtain ⟨⟨result, msg, k₃⟩, hsent, heq⟩ := Option.map_eq_some_iff.mp hsynchronous
    cases heq
    refine .inl ⟨hconsole (by simp) hsent, if_neg fun hmessage => ?_⟩
    rw [hputs] at hmessage
    exact absurd hmessage.2 (by decide)
  · obtain ⟨⟨result, msg, k₃⟩, hsent, heq⟩ := Option.map_eq_some_iff.mp hsynchronous
    cases heq
    refine .inr ⟨_, result, if_pos ⟨hsvc, hsend⟩, ?_, ?_⟩
    · rw [Function.update_self]
      exact hsent
    have hhigh := extendResult_high (sendMessage_small hsent)
    by_cases hresult : 0 ≤ result
    · exact .inr hresult
    · left
      rw [if_neg fun hzero => hresult (Int.not_lt.mp (hhigh.mp hzero))]
  · cases hsynchronous
    exact .inl ⟨rfl, if_neg fun hmessage => hsend hmessage.2⟩
  · cases hsynchronous
    exact .inl ⟨rfl, if_neg fun hmessage => hsvc hmessage.1⟩

/-- A trap that is answered in the program's memory. -/
theorem systemCall_cases (hcontained : c.Contained) (h : systemCall k c = some (ended, k')) :
    k' = { k with user := c.user } ∧ c.message = none ∨
      ∃ msg result msg' k₁, c.message = some msg ∧
        sendMessage c.out { k with user := c.user } msg = some (result, msg', k₁) ∧
        k' = { k₁ with user := fillIn k₁.user c.trap.x0.toNat ended msg' } ∧
        (ended = .halted ∨ 0 ≤ result) := by
  obtain ⟨⟨ended', msgs', k₁⟩, hsync, heq⟩ := Option.map_eq_some_iff.mp h
  obtain ⟨rfl, rfl⟩ := Prod.mk.inj heq
  rw [SystemCall.answered, if_pos hcontained]
  rcases syncHandler_cases hsync with ⟨rfl, hnone⟩ | ⟨msg, result, hsome, hsent, hend⟩
  · rw [hnone]
    exact .inl ⟨rfl, rfl⟩
  · rw [hsome]
    exact .inr ⟨msg, result, _, k₁, rfl, hsent, rfl, hend⟩

theorem systemCall_effect (hown : c.Own) (hcontained : c.Contained)
    (h : systemCall k c = some (ended, k')) :
    OwnCall k k' ∧ (∀ a, (∀ msg ∈ c.message, ¬replyBuffer msg a ∧
        (a < c.trap.x0.toNat ∨ c.trap.x0.toNat + messageSize ≤ a)) → k'.user a = c.user a) ∧
      (ended ≠ .halted → k.nextFd + c.takes ≤ k'.nextFd) := by
  rw [SystemCall.takes]
  rcases systemCall_cases hcontained h with
    ⟨rfl, hmessage⟩ | ⟨msg, result, msg', k₁, hmessage, hsent, rfl, hend⟩
  · refine ⟨.edit k c.user, fun _ _ => rfl, fun _ => ?_⟩
    rw [hmessage]
    rfl
  · have heffect := sendMessage_effect (hown msg hmessage) hsent
    have hcall := (OwnCall.edit k c.user).trans heffect.own
    refine ⟨hcall.trans (.edit k₁ _), fun a ha => ?_, fun hresumed => ?_⟩
    · obtain ⟨hreply, hfield⟩ := ha msg hmessage
      calc _ = k₁.user a := fillIn_outside hfield
        _ = c.user a := heffect.memory a hreply
    · rw [hmessage]
      exact heffect.taken (hend.resolve_left hresumed)

/-- A program that is resumed every time has used no more descriptors than were left: the request that
would take another one halts the machine. -/
theorem descriptor_requests_bound {trace : List (SystemCall × TrapEnd)} (hk : k.nextFd ≤ maxFd)
    (h : Steps systemCall (fun _ c => c.Own ∧ c.Contained) k trace k')
    (hresumed : ∀ entry ∈ trace, entry.2 ≠ .halted) :
    (trace.map fun entry => entry.1.takes).sum ≤ maxFd - k.nextFd := by
  have hcount : k'.nextFd ≤ maxFd ∧ ((∀ entry ∈ trace, entry.2 ≠ .halted) →
      k.nextFd + (trace.map fun entry => entry.1.takes).sum ≤ k'.nextFd) := by
    apply h.invariant (P := fun trace k' => k'.nextFd ≤ maxFd ∧
      ((∀ entry ∈ trace, entry.2 ≠ .halted) →
        k.nextFd + (trace.map fun entry => entry.1.takes).sum ≤ k'.nextFd)) ⟨hk, fun _ => le_rfl⟩
    intro trace k₁ c ended k₂ hprior hown hstep
    obtain ⟨hcall, -, htaken⟩ := systemCall_effect hown.1 hown.2 hstep
    refine ⟨hcall.bound hprior.1, fun hresumed => ?_⟩
    have hsum := hprior.2 fun entry hentry => hresumed entry (List.mem_append_left _ hentry)
    have hlast := htaken (hresumed (c, ended) (by simp))
    simp only [List.map_append, List.sum_append, List.map_cons, List.map_nil, List.sum_cons,
      List.sum_nil]
    omega
  have htotal := hcount.2 hresumed
  have hbound := hcount.1
  omega

end Traps

/-! A program that makes two files, and one that asks for its directory. -/

/-- A shell with the text `/tmp/a` in its memory. -/
def programKernel : Kernel := shellKernel (store (fun _ => 0) 0x80001000 (ascii "/tmp/a"))

/-- A message about that text, at the start of the program's memory. Nothing is asked of stray writes. -/
def pathCall (type : MsgType) : SystemCall where
  out := quietOutside
  user := programKernel.user
  msgs _ := ⟨type.code, 0x80001000, 0, 0, 0, 0, 0, 0, 0, 0, 0, 0, 0⟩
  trap := { sendTrap with x0 := 0x80000000 }
  stray := id

theorem createCall_run : ∃ k', Steps systemCall (fun _ c => c.Own ∧ c.Contained) programKernel
    [(pathCall .create, .resumed 0), (pathCall .create, .resumed 0)] k' := by
  have hown : (pathCall .create).Own ∧ (pathCall .create).Contained := by decide +kernel
  have hfirst : (systemCall programKernel (pathCall .create)).map Prod.fst = some (.resumed 0) := by
    decide +kernel
  have hsecond : (systemCall (next systemCall programKernel (pathCall .create))
      (pathCall .create)).map Prod.fst = some (.resumed 0) := by decide +kernel
  exact ⟨_, (Steps.nil.extend (pathCall .create) _ hown hfirst).extend (pathCall .create) _ hown
    hsecond⟩

theorem descriptor_requests_bound_create :
    (pathCall .create).takes + ((pathCall .create).takes + 0) ≤ 32 - 0 := by
  obtain ⟨k', hrun⟩ := createCall_run
  exact descriptor_requests_bound (Nat.zero_le _) hrun (by simp)

end Chthon
