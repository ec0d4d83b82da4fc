import Chthon.CopyEnds
import Chthon.ProcessModel
import Chthon.SystemCalls

/-! What becomes of the files in the kernel as a whole, whatever its processes ask for and in whatever
order they run. No message writes through a descriptor, so the only data there is on RAMFS is what was
there at the start, in as many copies as were made of it. -/

namespace Chthon

open ByteMemory Run

/-- Nothing but the heap, the processes and the memory of programs is different. -/
structure SameFiles (k k' : Kernel) : Prop where
  abyss : k'.abyss = k.abyss
  ramfs : k'.ramfs = k.ramfs
  table : k'.fdTable = k.fdTable

section Messages

variable {k k' k₁ : Kernel} {result : Int} {path : Str} {out : Outside} {msg msg' : Message}

theorem SameFiles.refl (k : Kernel) : SameFiles k k := ⟨rfl, rfl, rfl⟩

theorem SameFiles.user (k : Kernel) (user : Memory) : SameFiles k { k with user := user } :=
  ⟨rfl, rfl, rfl⟩

theorem SameFiles.proc (k : Kernel) (p : ProcessPtr) (proc : Process) :
    SameFiles k (k.setProc p proc) := ⟨rfl, rfl, rfl⟩

theorem SameFiles.state (k : Kernel) (p : ProcessPtr) (state : ProcessState) :
    SameFiles k (k.setState p state) := ⟨rfl, rfl, rfl⟩

theorem SameFiles.trans (h : SameFiles k k₁) (h' : SameFiles k₁ k') : SameFiles k k' :=
  ⟨h'.abyss.trans h.abyss, h'.ramfs.trans h.ramfs, h'.table.trans h.table⟩

theorem SameFiles.sound (h : SameFiles k k') (hk : TrapSound k) :
    TrapSound k' ∧ VolumesKept k k' :=
  have hkept := (VolumesKept.refl hk.toFilesSound).same h.abyss h.ramfs
  ⟨⟨⟨hkept.abyss, hkept.ramfs, h.table ▸ hk.handles⟩, h.table ▸ hk.opened⟩, hkept⟩

theorem resolveNamespacePath_files {resolved : Str}
    (h : resolveNamespacePath k path = some (resolved, k')) : SameFiles k k' := by
  unfold resolveNamespacePath at h
  split at h
  · cases h
    exact .refl k
  · split at h
    · cases h
      exact .refl k
    · split at h
      · cases h
        exact .refl k
      · dsimp only at h
        split_ifs at h <;> cases h <;> exact ⟨rfl, rfl, rfl⟩

theorem vfsReadDir_files {maxEntries : Nat} {dirents : Option (List (Nat × Str))}
    (h : vfsReadDir k path maxEntries = some (dirents, k')) : SameFiles k k' := by
  unfold vfsReadDir at h
  split at h
  · cases h
  · rename_i hresolve
    have hsame := resolveNamespacePath_files hresolve
    split at h
    · cases h
      exact hsame
    · obtain ⟨_, _, heq⟩ := Option.map_eq_some_iff.mp h
      cases heq
      exact hsame

theorem bind_files {old new : Str} {flags : Int} (h : Chthon.bind k old new flags = some (result, k')) :
    SameFiles k k' := by
  rw [Chthon.bind] at h
  split at h
  · cases h
  · rename_i hread
    cases h
    exact vfsReadDir_files hread
  · rename_i k₁ hread
    have hfirst := vfsReadDir_files hread
    split at h
    · cases h
    · rename_i hread'
      cases h
      exact hfirst.trans (vfsReadDir_files hread')
    · rename_i k₂ hread'
      have hboth := hfirst.trans (vfsReadDir_files hread')
      split at h
      · cases h
        exact hboth.trans ⟨rfl, rfl, rfl⟩
      · dsimp only at h
        split at h <;> cases h <;> exact hboth.trans ⟨rfl, rfl, rfl⟩

theorem unbind_files (k : Kernel) (path : Str) : SameFiles k (unbind k path).2 := by
  rw [unbind]
  split
  · exact .refl k
  · split_ifs <;> exact ⟨rfl, rfl, rfl⟩

theorem chdirMessage_files (h : chdirMessage k msg = some (result, msg', k')) : SameFiles k k' := by
  rw [chdirMessage] at h
  split at h
  · cases h
    exact .refl k
  · split at h
    · cases h
    · dsimp only at h
      split at h
      · cases h
      · rename_i hread
        cases h
        exact vfsReadDir_files hread
      · rename_i hread
        cases h
        exact (vfsReadDir_files hread).trans ⟨rfl, rfl, rfl⟩

theorem handleExecMessage_files (h : handleExecMessage k msg = some (result, k')) :
    SameFiles k k' := by
  rw [handleExecMessage] at h
  split at h
  · cases h
    exact .refl k
  · split at h
    · cases h
    · dsimp only at h
      split at h
      · cases h
        exact ⟨rfl, rfl, rfl⟩
      · obtain ⟨_, _, heq⟩ := Option.map_eq_some_iff.mp h
        cases heq
        exact ⟨rfl, rfl, rfl⟩

theorem handleReadDirMessage_files (h : handleReadDirMessage k msg = some (result, msg', k')) :
    SameFiles k k' := by
  rw [handleReadDirMessage] at h
  split_ifs at h
  · cases h
    exact .refl k
  · split at h
    · cases h
    · split at h
      · cases h
      · rename_i hread
        cases h
        exact vfsReadDir_files hread
      · rename_i hread
        split_ifs at h <;> cases h <;> exact (vfsReadDir_files hread).trans ⟨rfl, rfl, rfl⟩

theorem getcwdMessage_files (h : getcwdMessage k msg = (result, msg', k')) : SameFiles k k' := by
  rw [getcwdMessage] at h
  split at h
  · cases h
    exact .refl k
  · split_ifs at h <;> cases h <;> exact ⟨rfl, rfl, rfl⟩

theorem createProcess_files {img : Image} {new : ProcessPtr}
    (h : createProcess img k = some (new, k')) : SameFiles k k' := by
  unfold createProcess at h
  split_ifs at h
  split at h <;> cases h
  exact ⟨rfl, rfl, rfl⟩

theorem schedule_files (h : schedule k = some k') : SameFiles k k' := by
  unfold schedule at h
  split at h
  · cases h
  · dsimp only at h
    split at h
    · cases h
      exact ⟨rfl, rfl, rfl⟩
    · cases h
      split_ifs <;> exact ⟨rfl, rfl, rfl⟩

theorem TrapSound.unlink (hk : TrapSound k) (h : vfsUnlink k path = some (result, k')) :
    TrapSound k' ∧ VolumesKept k k' := by
  obtain ⟨hfiles, hkept, htable⟩ := hk.toFilesSound.unlink h
  exact ⟨⟨hfiles, htable ▸ hk.opened⟩, hkept⟩

theorem TrapSound.mkdir (hk : TrapSound k) (h : vfsMkdir k path = some (result, k')) :
    TrapSound k' ∧ VolumesKept k k' := by
  obtain ⟨hfiles, hkept, htable⟩ := hk.toFilesSound.mkdir h
  exact ⟨⟨hfiles, htable ▸ hk.opened⟩, hkept⟩

theorem TrapSound.copyFile (hk : TrapSound k) {src dst : Str} {complete : Option Bool}
    (h : Chthon.copyFile k src dst = some (complete, k')) : TrapSound k' ∧ VolumesKept k k' := by
  rcases copyFile_ends hk src dst with ⟨hnone, -⟩ | ⟨complete', k₁, hsome, hkept⟩
  · rw [hnone] at h
    cases h
  · rw [hsome] at h
    cases h
    exact hkept

theorem TrapSound.move (hk : TrapSound k) {src dst : Str}
    (h : moveMessage k src dst = some (result, k')) : TrapSound k' ∧ VolumesKept k k' := by
  obtain ⟨complete, k₁, hcopy, hrest⟩ := moveMessage_cases h
  obtain ⟨hk₁, hcopied⟩ := hk.copyFile hcopy
  rcases hrest with ⟨-, -, rfl⟩ | ⟨-, -, _, hundo⟩ |
    ⟨-, removed, k₂, hremove, ⟨-, -, _, hundo⟩ | ⟨-, -, rfl⟩⟩
  · exact ⟨hk₁, hcopied⟩
  · obtain ⟨hk', hundone⟩ := hk₁.unlink hundo
    exact ⟨hk', hcopied.trans hundone⟩
  · obtain ⟨hk₂, hremoved⟩ := hk₁.unlink hremove
    obtain ⟨hk', hundone⟩ := hk₂.unlink hundo
    exact ⟨hk', (hcopied.trans hremoved).trans hundone⟩
  · obtain ⟨hk', hremoved⟩ := hk₁.unlink hremove
    exact ⟨hk', hcopied.trans hremoved⟩

/-- Every message but `MSG_WAIT`. -/
theorem TrapSound.message (hk : TrapSound k) (hwait : MsgType.all[msg.type]? ≠ some .wait)
    (h : sendMessage out k msg = some (result, msg', k')) : TrapSound k' ∧ VolumesKept k k' := by
  have hsame : TrapSound k ∧ VolumesKept k k := ⟨hk, .refl hk.toFilesSound⟩
  unfold sendMessage at h
  cases htype : MsgType.all[msg.type]? with
  | none =>
      rw [htype] at h
      cases h
      exact hsame
  | some type =>
      rw [htype] at h
      cases type with
      | none | write | close | stat | mount | pipe | putc | puts | getc =>
          cases h
          exact hsame
      | fork =>
          obtain ⟨_, hcreate, heq⟩ := Option.map_eq_some_iff.mp h
          cases heq
          exact (createProcess_files hcreate).sound hk
      | wait => exact absurd htype hwait
      | openFile =>
          simp only [Option.bind_eq_some_iff, Option.map_eq_some_iff] at h
          obtain ⟨_, _, _, hopen, heq⟩ := h
          cases heq
          exact hk.openPath hopen
      | read =>
          obtain ⟨⟨bytes, k₁⟩, hread, heq⟩ := Option.map_eq_some_iff.mp h
          have hk₁ := hk.read hread
          rcases bytes with _ | _ | _ <;> cases heq
          · exact hk₁
          · exact hk₁
          · exact ⟨((SameFiles.user k₁ _).sound hk₁.1).1, hk₁.2.same rfl rfl⟩
      | exec =>
          obtain ⟨_, hexec, heq⟩ := Option.map_eq_some_iff.mp h
          cases heq
          exact (handleExecMessage_files hexec).sound hk
      | readDir => exact (handleReadDirMessage_files h).sound hk
      | create =>
          simp only [Option.bind_eq_some_iff, Option.map_eq_some_iff] at h
          obtain ⟨_, _, ⟨fd, k₁⟩, hcreate, heq⟩ := h
          rcases hk.create hcreate with ⟨hneg, hk₁⟩ | ⟨hfd, hk₁⟩
          · rw [if_neg (Int.not_le.mpr hneg)] at heq
            cases heq
            exact hk₁
          · rw [if_pos hfd] at heq
            cases heq
            exact hk₁
      | mkdir =>
          simp only [Option.bind_eq_some_iff, Option.map_eq_some_iff] at h
          obtain ⟨_, _, _, hmkdir, heq⟩ := h
          cases heq
          exact hk.mkdir hmkdir
      | getcwd => exact (getcwdMessage_files (Option.some.inj h)).sound hk
      | chdir => exact (chdirMessage_files h).sound hk
      | copy =>
          rcases withPaths_cases h with ⟨-, rfl⟩ | ⟨src, dst, hcopy⟩
          · exact hsame
          · obtain ⟨_, hfile, heq⟩ := Option.map_eq_some_iff.mp hcopy
            cases heq
            exact hk.copyFile hfile
      | remove =>
          dsimp only at h
          split_ifs at h
          · cases h
            exact hsame
          · simp only [Option.bind_eq_some_iff, Option.map_eq_some_iff] at h
            obtain ⟨_, _, _, hunlink, heq⟩ := h
            cases heq
            exact hk.unlink hunlink
      | move =>
          rcases withPaths_cases h with ⟨-, rfl⟩ | ⟨src, dst, hmove⟩
          · exact hsame
          · exact hk.move hmove
      | bind =>
          rcases withPaths_cases h with ⟨-, rfl⟩ | ⟨source, target, hbind⟩
          · exact hsame
          · obtain ⟨_, hbound, heq⟩ := Option.map_eq_some_iff.mp hbind
            cases heq
            exact (bind_files hbound).sound hk
      | unbind =>
          obtain ⟨path, _, heq⟩ := Option.map_eq_some_iff.mp h
          cases heq
          exact (unbind_files k path).sound hk

end Messages

/-! The machine. -/

/-- What happens next: the running process traps, or one of the calls of `process.c` is made. -/
inductive MachineEvent where
  | trap (c : SystemCall)
  | process (e : ProcEvent)

inductive MachineReply where
  | trapped (ended : TrapEnd)
  | process (reply : ProcReply)
  deriving DecidableEq

def machineStep (img : Image) (s : System) : MachineEvent → Option (MachineReply × System)
  | .trap c =>
      if s.busy then none
      else (systemCall s.kernel c).map fun r => (.trapped r.1, { s with kernel := r.2 })
  | .process e => (procStep img s e).map fun r => (.process r.1, r.2)

/-- A trap that names memory of the program for the answer and does not give up the processor.
`MSG_WAIT` does, and is two events of the processes instead. -/
def MachineEvent.Whole : MachineEvent → Prop
  | .trap c => c.Contained ∧ ∀ msg ∈ c.message, MsgType.all[msg.type]? ≠ some .wait
  | .process _ => True

instance (e : MachineEvent) : Decidable e.Whole :=
  match e with
  | .trap c => inferInstanceAs (Decidable (c.Contained ∧ ∀ msg ∈ c.message, _))
  | .process _ => isTrue trivial

section Machine

variable {img : Image} {s s' : System} {reply : ProcReply} {e : ProcEvent}

theorem suspend_files {p : ProcessPtr} {call : PendingCall} {k : Kernel}
    (hk : SameFiles s.kernel k) (h : s.suspend p call k = some (reply, s')) :
    SameFiles s.kernel s'.kernel := by
  obtain ⟨_, hschedule, heq⟩ := Option.map_eq_some_iff.mp h
  cases heq
  exact hk.trans (schedule_files hschedule)

theorem receiveMessage_files {k k' : Kernel} {msg msg' : Message} {result : Int}
    (h : receiveMessage k msg = some (result, msg', k')) : SameFiles k k' := by
  unfold receiveMessage at h
  split at h
  · cases h
  · rename_i p hcur
    dsimp only at h
    split_ifs at h
    · obtain ⟨_, hschedule, heq⟩ := Option.map_eq_some_iff.mp h
      cases heq
      exact (SameFiles.proc k p _).trans (schedule_files hschedule)
    · cases h
      exact .refl k
    · cases h
      exact .proc k p _

theorem exitProcess_files {k k' : Kernel} {status : Int} (h : exitProcess k status = some k') :
    SameFiles k k' := by
  unfold exitProcess at h
  split at h
  · cases h
  · rename_i p hcur
    dsimp only at h
    have hexited := SameFiles.proc k p { k.procs p with state := .zombie, exitStatus := status }
    split at h
    · split_ifs at h
      · exact (hexited.trans (.state _ _ _)).trans (schedule_files h)
      · exact hexited.trans (schedule_files h)
    · exact hexited.trans (schedule_files h)

theorem processExit_files {k k' : Kernel} {status : Int} (h : processExit k status = some k') :
    SameFiles k k' := by
  unfold processExit at h
  split at h
  · cases h
    exact .refl k
  · have hschedule := schedule_files h
    exact ⟨hschedule.abyss, hschedule.ramfs, hschedule.table⟩

/-- The calls on processes touch no file. -/
theorem startCall_files (h : startCall img s e = some (reply, s')) : SameFiles s.kernel s'.kernel := by
  cases e with
  | processCreate entry =>
      simp only [startCall] at h
      cases h
      unfold processCreate
      split <;> exact ⟨rfl, rfl, rfl⟩
  | fork =>
      obtain ⟨_, hcreate, heq⟩ := Option.map_eq_some_iff.mp h
      cases heq
      exact createProcess_files hcreate
  | queue proc msg =>
      obtain ⟨⟨result, k⟩, hqueue, heq⟩ := Option.map_eq_some_iff.mp h
      cases heq
      unfold queueMessage at hqueue
      dsimp only at hqueue
      split_ifs at hqueue <;> cases hqueue <;> exact ⟨rfl, rfl, rfl⟩
  | receive msg =>
      simp only [startCall] at h
      split at h
      · cases h
      · split_ifs at h
        · exact suspend_files (.proc _ _ _) h
        · obtain ⟨_, hreceive, heq⟩ := Option.map_eq_some_iff.mp h
          cases heq
          exact receiveMessage_files hreceive
  | wait =>
      simp only [startCall] at h
      split at h
      · cases h
      · split at h
        · cases h
          exact .refl _
        · exact suspend_files (.state _ _ _) h
  | handleWait =>
      simp only [startCall] at h
      split at h
      · cases h
      · split at h
        · cases h
          exact .state _ _ _
        · exact suspend_files (.state _ _ _) h
  | processExit status =>
      simp only [startCall] at h
      split at h
      · cases h
        exact .refl _
      · obtain ⟨_, hexit, heq⟩ := Option.map_eq_some_iff.mp h
        cases heq
        exact processExit_files hexit
  | exitProcess status =>
      simp only [startCall] at h
      split at h
      · cases h
      · obtain ⟨_, hexit, heq⟩ := Option.map_eq_some_iff.mp h
        cases heq
        exact exitProcess_files hexit
  | schedule =>
      obtain ⟨_, hschedule, heq⟩ := Option.map_eq_some_iff.mp h
      cases heq
      exact schedule_files hschedule
  | resume => cases h

theorem procStep_files (h : procStep img s e = some (reply, s')) : SameFiles s.kernel s'.kernel := by
  unfold procStep at h
  split at h
  · unfold resumeCall at h
    split at h
    · cases h
    · dsimp only at h
      split at h
      · cases h
      · split at h <;> cases h <;> exact .refl _
      · cases h
        exact .refl _
      · cases h
        exact .refl _
  · split_ifs at h
    exact startCall_files h

theorem TrapSound.systemCall {k k' : Kernel} (hk : TrapSound k) {c : SystemCall} {ended : TrapEnd}
    (hwhole : MachineEvent.Whole (.trap c)) (h : Chthon.systemCall k c = some (ended, k')) :
    TrapSound k' ∧ VolumesKept k k' := by
  obtain ⟨hprogram, hkept⟩ := (SameFiles.user k c.user).sound hk
  rcases systemCall_cases hwhole.1 h with
    ⟨rfl, -⟩ | ⟨msg, result, msg', k₁, hmessage, hsent, rfl, -⟩
  · exact ⟨hprogram, hkept⟩
  · obtain ⟨hsound, hkept₁⟩ := hprogram.message (hwhole.2 msg hmessage) hsent
    obtain ⟨hfilled, hkept₂⟩ := (SameFiles.user k₁ _).sound hsound
    exact ⟨hfilled, (hkept.trans hkept₁).trans hkept₂⟩

/-- One event. -/
theorem TrapSound.machineStep (hk : TrapSound s.kernel) {event : MachineEvent} (hwhole : event.Whole)
    {answer : MachineReply} (h : Chthon.machineStep img s event = some (answer, s')) :
    TrapSound s'.kernel ∧ VolumesKept s.kernel s'.kernel := by
  cases event with
  | trap c =>
      rw [Chthon.machineStep] at h
      split_ifs at h
      obtain ⟨_, hcall, heq⟩ := Option.map_eq_some_iff.mp h
      cases heq
      exact hk.systemCall hwhole hcall
  | process e =>
      obtain ⟨_, hstep, heq⟩ := Option.map_eq_some_iff.mp h
      cases heq
      exact (procStep_files hstep).sound hk

theorem TrapSound.run {trace : List (MachineEvent × MachineReply)} (hk : TrapSound s.kernel)
    (h : Steps (Chthon.machineStep img) (fun _ e => e.Whole) s trace s') :
    TrapSound s'.kernel ∧ VolumesKept s.kernel s'.kernel := by
  apply h.preserves (P := fun s' => TrapSound s'.kernel ∧ VolumesKept s.kernel s'.kernel)
    ⟨hk, .refl hk.toFilesSound⟩
  intro s₁ event answer s₂ hprior hwhole hstep
  obtain ⟨hsound, hkept⟩ := hprior.1.machineStep hwhole hstep
  exact ⟨hsound, hprior.2.trans hkept⟩

/-- A read where every file is empty. -/
theorem vfsRead_empty {k : Kernel} (hk : TrapSound k) (hempty : ∀ i, (k.ramfs i).size = 0) (fd : Int)
    (count : Nat) :
    vfsRead k fd count = some (if (getFile k fd).isSome then some [] else none, k) := by
  cases hfile : getFile k fd with
  | none => simp only [vfsRead, hfile, Option.isSome_none, Bool.false_eq_true, if_false]
  | some file =>
      rw [Option.isSome_some, if_pos rfl]
      cases hops : file.fOps with
      | abyssfs =>
          have hopened := hk.opened _ _ (getFile_eq_some.mp hfile).2.2
          exact vfsRead_abyss hk.toFilesSound hfile hops hopened count
      | ramfs =>
          have hend : file.fPos ≥ (k.ramfs file.privateData).size := by
            rw [hempty]
            exact Nat.zero_le _
          simp only [vfsRead, hfile, hops, ramfsRead, if_pos hend, Option.map_some, setFile_self hfile]

section Runs

variable {trace : List (MachineEvent × MachineReply)}

/-- Whoever runs, both file systems stay as their own calls make them, and every descriptor as
`vfs_open` gives it out. -/
theorem machine_keeps_files (hs : TrapSound s.kernel)
    (h : Steps (Chthon.machineStep img) (fun _ e => e.Whole) s trace s') : TrapSound s'.kernel :=
  (hs.run h).1

/-- Whatever the processes do, a file on RAMFS is empty or has the contents that one had at the
start. -/
theorem machine_makes_no_data (hs : TrapSound s.kernel)
    (h : Steps (Chthon.machineStep img) (fun _ e => e.Whole) s trace s') :
    NoNewData s.kernel.ramfs s'.kernel.ramfs := (hs.run h).2.data

/-- On a machine that starts with empty files, `MSG_READ` never delivers a byte: it answers 0 on every
open descriptor of either file system. -/
theorem reads_deliver_nothing (hs : TrapSound s.kernel)
    (hempty : ∀ i, (s.kernel.ramfs i).size = 0)
    (h : Steps (Chthon.machineStep img) (fun _ e => e.Whole) s trace s') (c : SystemCall)
    (hcontained : c.Contained) (msg : Message) (hmessage : c.message = some msg)
    (hread : MsgType.all[msg.type]? = some .read) :
    systemCall s'.kernel c =
      some (if (getFile s'.kernel msg.fd).isSome then .resumed 0 else .halted,
        { s'.kernel with user := c.user }) := by
  obtain ⟨hsound, hkept⟩ := hs.run h
  have hsize : ∀ i, (s'.kernel.ramfs i).size = 0 := by
    intro i
    rw [← RamfsFile.contents_length, List.length_eq_zero_iff]
    rcases hkept.data i with hcontents | ⟨j, hcontents⟩
    · exact hcontents
    · rw [hcontents, ← List.length_eq_zero_iff, RamfsFile.contents_length]
      exact hempty j
  have hanswer := vfsRead_empty ((SameFiles.user s'.kernel c.user).sound hsound).1 hsize msg.fd 256
  have hanswered : ∀ (ended : TrapEnd) (msgs' : UserMessages) (k' : Kernel),
      msgs' c.trap.x0 = msg → ended = .halted ∨ ended = .resumed 0 →
        c.answered ended msgs' k' = k' := by
    intro ended msgs' k' hsame hended
    rw [SystemCall.answered, if_pos hcontained, hmessage, Option.elim_some, hsame, fillIn,
      filledField, hread]
    dsimp only
    rw [if_pos hended, Option.elim_none]
  unfold SystemCall.message at hmessage
  split_ifs at hmessage with htrap
  cases hmessage
  have hsent : sendMessage c.out { s'.kernel with user := c.user } (c.msgs c.trap.x0) =
      some (if (getFile s'.kernel (c.msgs c.trap.x0).fd).isSome then 0 else -1, c.msgs c.trap.x0,
        { s'.kernel with user := c.user }) := by
    unfold sendMessage
    rw [hread]
    dsimp only
    rw [hanswer, Option.map_some]
    have hfile : getFile { s'.kernel with user := c.user } (c.msgs c.trap.x0).fd =
        getFile s'.kernel (c.msgs c.trap.x0).fd := rfl
    rw [hfile]
    cases (getFile s'.kernel (c.msgs c.trap.x0).fd).isSome <;> rfl
  have hnot : sysSendMessage ≠ sysPutc ∧ sysSendMessage ≠ sysGetc ∧ sysSendMessage ≠ sysPuts := by
    decide
  rw [systemCall, syncHandler, handleSyncException, if_pos htrap.1, htrap.2, if_neg hnot.1,
    if_neg hnot.2.1, if_neg hnot.2.2, if_pos rfl, hsent]
  simp only [Option.map_some]
  have hsame : Function.update c.msgs c.trap.x0 (c.msgs c.trap.x0) c.trap.x0 =
      c.msgs c.trap.x0 := Function.update_self ..
  by_cases hopen : (getFile s'.kernel (c.msgs c.trap.x0).fd).isSome = true
  · simp only [if_pos hopen]
    exact congrArg some (Prod.ext rfl (hanswered _ _ _ hsame (.inr rfl)))
  · simp only [if_neg hopen]
    exact congrArg some (Prod.ext rfl (hanswered _ _ _ hsame (.inl rfl)))

/-- In every state the loop of a copy comes to an end: the copy has an outcome unless the open or the
create has none. -/
theorem copies_end (hs : TrapSound s.kernel)
    (h : Steps (Chthon.machineStep img) (fun _ e => e.Whole) s trace s') (src dst : Str) :
    copyFile s'.kernel src dst = none ↔ vfsOpen s'.kernel src = none ∨
      ∃ fd k, vfsOpen s'.kernel src = some (fd, k) ∧ 0 ≤ fd ∧ vfsCreate k dst = none := by
  constructor
  · intro hnone
    rcases copyFile_ends (hs.run h).1 src dst with ⟨-, hcall⟩ | ⟨_, _, hsome, -⟩
    · exact hcall
    · rw [hnone] at hsome
      cases hsome
  · rintro (hopen | ⟨fd, k, hopen, hfd, hcreate⟩)
    · rw [copyFile, hopen]
    · rw [copyFile, hopen]
      dsimp only
      rw [if_neg (Int.not_lt.mpr hfd), hcreate]

/-- A copy of a path on AbyssFS that reports success has made an empty file, whatever is stored under
the path, and a move then unlinks the path. -/
theorem copies_from_abyss (hs : TrapSound s.kernel)
    (h : Steps (Chthon.machineStep img) (fun _ e => e.Whole) s trace s') {src dst resolved : Str}
    (hroute : openRoute s'.kernel src = some (some .abyssfs, resolved)) :
    (∀ k, copyMessage s'.kernel src dst = some (0, k) → EmptyCopy s'.kernel src dst k) ∧
      ∀ k, moveMessage s'.kernel src dst = some (0, k) → ∃ k₁ result,
        EmptyCopy s'.kernel src dst k₁ ∧ vfsUnlink k₁ src = some (result, k) ∧ 0 ≤ result := by
  have hsound := (hs.run h).1
  constructor
  · intro k hcopy
    obtain ⟨⟨complete, k₁⟩, hfile, heq⟩ := Option.map_eq_some_iff.mp hcopy
    rw [Prod.mk.injEq] at heq
    obtain ⟨hresult, rfl⟩ := heq
    split_ifs at hresult with hcomplete
    rw [hcomplete] at hfile
    exact (copyFile_from_abyss hsound hroute hfile).2
  · intro k hmove
    obtain ⟨_, k₁, hfile, ⟨-, hzero, -⟩ | ⟨-, hzero, -⟩ |
      ⟨rfl, removed, k₂, hremove, ⟨-, hzero, -⟩ | ⟨hremoved, -, rfl⟩⟩⟩ := moveMessage_cases hmove
    · cases hzero
    · cases hzero
    · cases hzero
    · exact ⟨k₁, removed, (copyFile_from_abyss hsound hroute hfile).2, hremove, hremoved⟩

end Runs

end Machine

/-! Two processes, of which one makes a file and the other opens it. -/

def shellSystem : System := ⟨programKernel, fun _ => none⟩

def createdSystem : System := next (machineStep blankImage) shellSystem (.trap (pathCall .create))
def forkedSystem : System := next (machineStep blankImage) createdSystem (.process .fork)
def switchedSystem : System := next (machineStep blankImage) forkedSystem (.process .schedule)
def openedSystem : System :=
  next (machineStep blankImage) switchedSystem (.trap (pathCall .openFile))

def openTrace : List (MachineEvent × MachineReply) :=
  [(.trap (pathCall .create), .trapped (.resumed 0)),
    (.process .fork, .process (.created (some (.processes 0)))),
    (.process .schedule, .process .switched), (.trap (pathCall .openFile), .trapped (.resumed 1))]

theorem openTrace_run :
    Steps (machineStep blankImage) (fun _ e => e.Whole) shellSystem openTrace openedSystem := by
  have hstart : Steps (machineStep blankImage) (fun _ e => e.Whole) shellSystem [] shellSystem := .nil
  have hcreate := hstart.extend (.trap (pathCall .create)) (.trapped (.resumed 0))
    (show MachineEvent.Whole (.trap (pathCall .create)) by decide +kernel)
    (show (machineStep blankImage shellSystem _).map Prod.fst = _ by decide +kernel)
  have hfork := hcreate.extend (.process .fork) (.process (.created (some (.processes 0))))
    (show MachineEvent.Whole (.process .fork) by decide +kernel)
    (show (machineStep blankImage createdSystem _).map Prod.fst = _ by decide +kernel)
  have hswitch := hfork.extend (.process .schedule) (.process .switched)
    (show MachineEvent.Whole (.process .schedule) by decide +kernel)
    (show (machineStep blankImage forkedSystem _).map Prod.fst = _ by decide +kernel)
  exact hswitch.extend (.trap (pathCall .openFile)) (.trapped (.resumed 1))
    (show MachineEvent.Whole (.trap (pathCall .openFile)) by decide +kernel)
    (show (machineStep blankImage switchedSystem _).map Prod.fst = _ by decide +kernel)

theorem machine_keeps_files_open : TrapSound openedSystem.kernel ∧
    openedSystem.kernel.fdTable 1 = some ⟨.ramfs, 0, 0⟩ :=
  ⟨machine_keeps_files (shellKernel_sound _) openTrace_run, by decide +kernel⟩

theorem machine_makes_no_data_open :
    NoNewData shellSystem.kernel.ramfs openedSystem.kernel.ramfs :=
  machine_makes_no_data (shellKernel_sound _) openTrace_run

def readCall : SystemCall :=
  { pathCall .read with msgs := fun _ =>
      ⟨MsgType.read.code, 0, 0, 0x80002000, 256, 0, 1, 0, 0, 0, 0, 0, 0⟩ }

theorem reads_deliver_nothing_open : systemCall openedSystem.kernel readCall =
    some (.resumed 0, { openedSystem.kernel with user := readCall.user }) := by
  have hread := reads_deliver_nothing (shellKernel_sound _) (fun _ => rfl) openTrace_run readCall
    (by decide +kernel) (readCall.msgs 0) rfl (by decide)
  rw [if_pos (by decide +kernel)] at hread
  exact hread

theorem copies_end_open :
    copyFile openedSystem.kernel (ascii "/tmp/a") (ascii "/tmp/b") ≠ none := by
  have hcalls : ((vfsOpen openedSystem.kernel (ascii "/tmp/a")).bind fun answer =>
      vfsCreate answer.2 (ascii "/tmp/b")).isSome = true := by decide +kernel
  rw [ne_eq, copies_end (shellKernel_sound _) openTrace_run]
  rintro (hopen | ⟨fd, k, hopen, -, hcreate⟩)
  · rw [hopen] at hcalls
    cases hcalls
  · rw [hopen, Option.bind_some, hcreate] at hcalls
    cases hcalls

theorem copies_from_abyss_open : ∃ k,
    copyMessage openedSystem.kernel (ascii "/a") (ascii "/tmp/b") = some (0, k) ∧
      EmptyCopy openedSystem.kernel (ascii "/a") (ascii "/tmp/b") k := by
  have hroute : openRoute openedSystem.kernel (ascii "/a") =
      some (some .abyssfs, ascii "/a") := by decide +kernel
  have hresult : (copyMessage openedSystem.kernel (ascii "/a") (ascii "/tmp/b")).map Prod.fst =
      some 0 := by decide +kernel
  obtain ⟨⟨_, k⟩, hcopy, rfl⟩ := Option.map_eq_some_iff.mp hresult
  exact ⟨k, hcopy, (copies_from_abyss (shellKernel_sound _) openTrace_run hroute).1 k hcopy⟩

end Chthon
