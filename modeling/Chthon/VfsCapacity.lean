import Chthon.VfsDescriptors

/-! How many descriptors there are. `alloc_fd` takes the entries in order and `vfs_close` empties an
entry without giving it back, so the table serves 32 opens in all, however many are closed. -/

namespace Chthon

open Run PathText

/-- `fd_table` and `next_fd` are zero at boot. -/
structure NoDescriptors (k : Kernel) : Prop where
  fdTable : ∀ fd, k.fdTable fd = none
  nextFd : k.nextFd = 0

/-- The entries in use. -/
def openSet (k : Kernel) : Finset Nat := (Finset.range maxFd).filter fun fd => (k.fdTable fd).isSome

def openCount (k : Kernel) : Nat := (openSet k).card

/-- The file that the file system has for an open or a create, and the kernel it leaves. -/
def filledIn (k : Kernel) : FdEvent → Option (VfsFile × Kernel)
  | .openPath path =>
      match openRoute k path with
      | some (some fs, resolved) =>
          match fsOpen k resolved fs with
          | (some file, k) => some (file, k)
          | (none, _) => none
      | _ => none
  | .createPath path =>
      match createRoute k path with
      | some (some fs, full) =>
          match fsCreate k full fs with
          | some (some file, k) => some (file, k)
          | _ => none
      | _ => none
  | _ => none

section Count

variable {d₀ d d' : Descriptors} {e : FdEvent} {r : FdReply} {trace : List (FdEvent × FdReply)}

theorem mem_openSet {fd : Nat} : fd ∈ openSet d.view ↔ fd < maxFd ∧ (d.fdTable fd).isSome := by
  rw [openSet, Finset.mem_filter, Finset.mem_range]
  simp [Descriptors.view, Descriptors.viewOf]

open Descriptors in
/-- What a call makes of the number of open descriptors. -/
theorem openCount_effect (h : Own d) (heff : FdEffect d d' e r) :
    openCount d'.view + (closedIn [(e, r)]).length =
      openCount d.view + (openedIn [(e, r)]).length := by
  cases heff with
  | idle htable _ _ _ refused kept =>
      have hset : openSet d'.view = openSet d.view := by
        ext fd
        rw [mem_openSet, mem_openSet, htable]
      rw [closedIn_idle kept, openedIn_idle refused, openCount, openCount, hset]
  | moved n addr file call reply _ htable _ _ _ =>
      have hset : openSet d'.view = openSet d.view := by
        ext fd
        rw [mem_openSet, mem_openSet, htable]
      rw [closedIn_idle fun fd he => absurd he (call.not_close fd),
        openedIn_idle fun fd hr => absurd hr (reply fd), openCount, openCount, hset]
  | closed n addr bound htable _ _ _ =>
      have hset : openSet d'.view = (openSet d.view).erase n := by
        ext fd
        rw [Finset.mem_erase, mem_openSet, mem_openSet, htable]
        by_cases hfd : fd = n
        · simp [hfd]
        · simp [hfd]
      have hmem : n ∈ openSet d.view := by
        rw [mem_openSet, bound]
        refine ⟨?_, rfl⟩
        by_contra hfull
        rw [h.unused n (h.inTable.trans (Nat.le_of_not_lt hfull))] at bound
        cases bound
      rw [openCount, openCount, hset]
      exact Finset.card_erase_add_one hmem
  | opened file room htable _ _ _ call =>
      have hset : openSet d'.view = insert d.kernel.nextFd (openSet d.view) := by
        ext fd
        rw [Finset.mem_insert, mem_openSet, mem_openSet, htable]
        by_cases hfd : fd = d.kernel.nextFd
        · simp [hfd, room]
        · simp [hfd]
      have hfresh : d.kernel.nextFd ∉ openSet d.view := by
        rw [mem_openSet, h.unused _ le_rfl]
        simp
      rw [openCount, openCount, hset, Finset.card_insert_of_notMem hfresh,
        closedIn_idle fun fd he => absurd he (call.not_close fd)]
      simp [openedIn]

open Descriptors in
theorem openCount_run {ok : Descriptors → FdEvent → Prop} (hstart : Empty d₀)
    (hrun : Steps step ok d₀ trace d) :
    openCount d.view + (closedIn trace).length = d.kernel.nextFd := by
  have hcount : openCount d.view + (closedIn trace).length = (openedIn trace).length := by
    refine (hrun.invariant (P := fun trace d =>
      Ledger trace d ∧ openCount d.view + (closedIn trace).length = (openedIn trace).length)
      ⟨hstart.ledger, ?_⟩ fun trace d e r d' ih _ hstep => ?_).2
    · have hnone : openSet d₀.view = ∅ := by
        ext fd
        rw [mem_openSet, hstart.fdTable]
        simp
      rw [openCount, hnone]
      rfl
    · have heff := step_effect hstep
      have hone := openCount_effect ih.1.own heff
      refine ⟨ih.1.snoc heff, ?_⟩
      rw [closedIn_append, openedIn_append, List.length_append, List.length_append]
      omega
  rw [hcount, (ledger_run hstart hrun).opened, List.length_map, List.length_range]

end Count

section Run

variable {k₀ k k₁ k' : Kernel} {e : FdEvent} {file : VfsFile} {trace : List (FdEvent × FdReply)}

/-- A run on the table with the files in it is one on the table of pointers. -/
theorem pointers_run {ok : Kernel → FdEvent → Prop} (hstart : NoDescriptors k₀)
    (hrun : Steps fdStep ok k₀ trace k) :
    ∃ d₀ d, d₀.Empty ∧ Steps Descriptors.step (fun _ _ => True) d₀ trace d ∧ d.view = k := by
  have hempty : Descriptors.Empty ⟨k₀, fun _ => none, fun _ => ⟨.ramfs, 0, 0⟩⟩ :=
    ⟨fun _ => rfl, hstart.nextFd⟩
  have hview : Descriptors.view ⟨k₀, fun _ => none, fun _ => ⟨.ramfs, 0, 0⟩⟩ = k₀ := by
    have htable : (fun _ => none) = k₀.fdTable := funext fun fd => (hstart.fdTable fd).symm
    change { k₀ with fdTable := fun _ => none } = k₀
    rw [htable]
  obtain ⟨d, hsteps, -, hd⟩ := hrun.simulate (R := fun k d => d.Own ∧ d.view = k)
    Descriptors.step ⟨hempty.own, hview⟩ fun k d e r k' hrel hstep => by
      obtain ⟨hown, rfl⟩ := hrel
      rw [← hown.step_view, Option.map_eq_some_iff] at hstep
      obtain ⟨⟨r', d'⟩, hstep, heq⟩ := hstep
      cases heq
      exact ⟨d', hstep, hown.effect (Descriptors.step_effect hstep), rfl⟩
  exact ⟨_, d, hempty, hsteps, hd⟩

/-- Everything handed out is still open or has been closed. -/
theorem openCount_add_closed {ok : Kernel → FdEvent → Prop} (hstart : NoDescriptors k₀)
    (hrun : Steps fdStep ok k₀ trace k) :
    openCount k + (closedIn trace).length = (openedIn trace).length ∧
      (openedIn trace).length = k.nextFd ∧ k.nextFd ≤ maxFd := by
  obtain ⟨d₀, d, hempty, hsteps, rfl⟩ := pointers_run hstart hrun
  have hledger := Descriptors.ledger_run hempty hsteps
  have hopened : (openedIn trace).length = d.kernel.nextFd := by
    rw [hledger.opened, List.length_map, List.length_range]
  rw [hopened]
  exact ⟨openCount_run hempty hsteps, rfl, hledger.own.inTable⟩

/-- An open or create for which the file system has a file only waits for its descriptor. -/
theorem fdStep_filledIn (h : filledIn k e = some (file, k₁)) :
    fdStep k e = some (.opened (allocFd k₁ file).1, (allocFd k₁ file).2) ∧
      k₁.nextFd = k.nextFd := by
  unfold filledIn at h
  split at h
  · rename_i path
    split at h <;> try cases h
    rename_i fs resolved hroute
    split at h <;> cases h
    rename_i hfile
    have hnext := Descriptors.fsOpen_nextFd k resolved fs
    rw [hfile] at hnext
    refine ⟨?_, hnext⟩
    rw [fdStep, vfsOpen, hroute]
    simp only [hfile, Option.map_some]
  · rename_i path
    split at h <;> try cases h
    rename_i fs full hroute
    split at h <;> cases h
    rename_i hfile
    refine ⟨?_, (Descriptors.handed_fsCreate hfile).2⟩
    rw [fdStep, vfsCreate, hroute]
    simp only [hfile, Option.map_some]
  · cases h

theorem allocFd_nonneg (k : Kernel) (file : VfsFile) :
    0 ≤ (allocFd k file).1 ↔ k.nextFd < maxFd := by
  unfold allocFd
  split_ifs with hfull
  · exact iff_of_false (show ¬(0 : Int) ≤ -1 by decide) (Nat.not_lt.mpr hfull)
  · exact iff_of_true (Int.natCast_nonneg _) (Nat.lt_of_not_le hfull)

end Run

/-! Messages that open, create and close by themselves. -/

/-- The calls lead from one kernel to the other. -/
def CallRun (k k' : Kernel) : Prop := ∃ trace, Steps fdStep (fun _ _ => True) k trace k'

section Messages

variable {k k' : Kernel} {fd : Int} {src dst path : Str}

theorem CallRun.refl (k : Kernel) : CallRun k k := ⟨[], .nil⟩

theorem CallRun.trans {k₁ k₂ k₃ : Kernel} (h : CallRun k₁ k₂) (h' : CallRun k₂ k₃) :
    CallRun k₁ k₃ := by
  obtain ⟨trace, hrun⟩ := h
  obtain ⟨trace', hrun'⟩ := h'
  exact ⟨trace ++ trace', hrun.append hrun'⟩

theorem callRun_of_step {e : FdEvent} {r : FdReply} (h : fdStep k e = some (r, k')) :
    CallRun k k' :=
  ⟨[(e, r)], Steps.nil.snoc trivial h⟩

theorem callRun_open (h : vfsOpen k path = some (fd, k')) : CallRun k k' :=
  callRun_of_step (e := .openPath path) (by rw [fdStep, h]; rfl)

theorem callRun_create (h : vfsCreate k path = some (fd, k')) : CallRun k k' :=
  callRun_of_step (e := .createPath path) (by rw [fdStep, h]; rfl)

theorem callRun_close (k : Kernel) (fd : Int) : CallRun k (vfsClose k fd).2 :=
  callRun_of_step (e := .close fd) rfl

theorem callRun_unlink {result : Int} (h : vfsUnlink k path = some (result, k')) : CallRun k k' :=
  callRun_of_step (e := .unlink path) (by rw [fdStep, h]; rfl)

theorem callRun_copyLoop {srcFd dstFd : Int} (fuel : Nat) {k : Kernel} {complete : Bool}
    (h : copyLoop srcFd dstFd fuel k = some (complete, k')) : CallRun k k' := by
  induction fuel generalizing k with
  | zero => cases h
  | succ fuel ih =>
      rw [copyLoop] at h
      cases hread : vfsRead k srcFd 1024 with
      | none =>
          rw [hread] at h
          cases h
      | some answer =>
          obtain ⟨bytes, k₁⟩ := answer
          have hfirst : CallRun k k₁ :=
            callRun_of_step (e := .read srcFd 1024) (by rw [fdStep, hread]; rfl)
          cases bytes with
          | none =>
              rw [hread] at h
              cases h
              exact hfirst
          | some bytes =>
              simp only [hread] at h
              split_ifs at h
              · cases h
                exact hfirst
              · cases hwrite : vfsWrite k₁ dstFd bytes with
                | none =>
                    rw [hwrite] at h
                    cases h
                | some answer =>
                    obtain ⟨written, k₂⟩ := answer
                    have hboth : CallRun k k₂ := hfirst.trans
                      (callRun_of_step (e := .write dstFd bytes) (by rw [fdStep, hwrite]; rfl))
                    simp only [hwrite] at h
                    split_ifs at h
                    · cases h
                      exact hboth
                    · exact hboth.trans (ih h)

theorem callRun_copyFile {complete : Option Bool} (h : copyFile k src dst = some (complete, k')) :
    CallRun k k' := by
  unfold copyFile at h
  split at h
  · cases h
  · rename_i srcFd k₁ hopen
    have hfirst := callRun_open hopen
    split_ifs at h
    · cases h
      exact hfirst
    · split at h
      · cases h
      · rename_i dstFd k₂ hcreate
        have hboth := hfirst.trans (callRun_create hcreate)
        split_ifs at h
        · cases h
          exact hboth.trans (callRun_close _ _)
        · rw [Option.map_eq_some_iff] at h
          obtain ⟨⟨complete, k₃⟩, hcopy, heq⟩ := h
          cases heq
          have hcopied := hboth.trans (callRun_copyLoop _ hcopy)
          exact (hcopied.trans (callRun_close _ _)).trans (callRun_close _ _)

theorem callRun_copyMessage {result : Int} (h : copyMessage k src dst = some (result, k')) :
    CallRun k k' := by
  rw [copyMessage, Option.map_eq_some_iff] at h
  obtain ⟨⟨complete, k₁⟩, hcopy, heq⟩ := h
  cases heq
  exact callRun_copyFile hcopy

theorem callRun_moveMessage {result : Int} (h : moveMessage k src dst = some (result, k')) :
    CallRun k k' := by
  obtain ⟨complete, k₁, hcopy, hrest⟩ := moveMessage_cases h
  have hcopied := callRun_copyFile hcopy
  rcases hrest with ⟨-, -, rfl⟩ | ⟨-, -, _, hundo⟩ |
    ⟨-, removed, k₂, hremove, ⟨-, -, _, hundo⟩ | ⟨-, -, rfl⟩⟩
  · exact hcopied
  · exact hcopied.trans (callRun_unlink hundo)
  · have hboth := hcopied.trans (callRun_unlink hremove)
    exact hboth.trans (callRun_unlink hundo)
  · exact hcopied.trans (callRun_unlink hremove)

theorem callRun_withPaths {msg msg' : Message} {result : Int}
    {call : Str → Str → Option (Int × Kernel)} (h : withPaths k msg call = some (result, msg', k'))
    (hcall : ∀ src dst result k', call src dst = some (result, k') → CallRun k k') :
    CallRun k k' := by
  unfold withPaths at h
  split_ifs at h
  · cases h
    exact .refl k
  · split at h
    · rw [Option.map_eq_some_iff] at h
      obtain ⟨⟨_, k₁⟩, hcalled, heq⟩ := h
      cases heq
      exact hcall _ _ _ _ hcalled
    · cases h

/-- The three messages are runs of the calls, each of which meets the table as it then is. -/
theorem callRun_sendMessage {out : Outside} {msg msg' : Message} {result : Int}
    (htype : MsgType.all[msg.type]? = some .create ∨ MsgType.all[msg.type]? = some .copy ∨
      MsgType.all[msg.type]? = some .move)
    (h : sendMessage out k msg = some (result, msg', k')) : CallRun k k' := by
  unfold sendMessage at h
  obtain htype | htype | htype := htype
  · simp only [htype, Option.bind_eq_some_iff, Option.map_eq_some_iff] at h
    obtain ⟨path, _, ⟨fd, k₁⟩, hcreate, heq⟩ := h
    split_ifs at heq
    · cases heq
      exact (callRun_create hcreate).trans (callRun_close _ _)
    · cases heq
      exact callRun_create hcreate
  · rw [htype] at h
    exact callRun_withPaths h fun _ _ _ _ => callRun_copyMessage
  · rw [htype] at h
    exact callRun_withPaths h fun _ _ _ _ => callRun_moveMessage

end Messages

/-- In a run of the calls, also of those inside the messages, an open or create that the file system
has a file for gets a descriptor with at most 31 open exactly as long as fewer than 32 were handed
out, or none of these was closed. -/
theorem descriptors_left_iff (k₀ k : Kernel) (hstart : NoDescriptors k₀)
    (trace : List (FdEvent × FdReply)) (hrun : Steps fdStep (fun _ _ => True) k₀ trace k) :
    (∀ e file k₁, filledIn k e = some (file, k₁) →
      ((openCount k ≤ 31 → ∃ fd k', 0 ≤ fd ∧ fdStep k e = some (.opened fd, k')) ↔
        (openedIn trace).length < 32 ∨ closedIn trace = [])) ∧
    ∀ out msg result msg' k', (MsgType.all[msg.type]? = some .create ∨
        MsgType.all[msg.type]? = some .copy ∨ MsgType.all[msg.type]? = some .move) →
      sendMessage out k msg = some (result, msg', k') →
      ∃ trace', Steps fdStep (fun _ _ => True) k₀ (trace ++ trace') k' := by
  refine ⟨fun e file k₁ hfile => ?_, fun out msg result msg' k' htype hsend => ?_⟩
  · obtain ⟨hstep, hnext⟩ := fdStep_filledIn hfile
    obtain ⟨hcount, hopened, hmax⟩ := openCount_add_closed hstart hrun
    have hreply : (∃ fd k', 0 ≤ fd ∧ fdStep k e = some (.opened fd, k')) ↔ k.nextFd < 32 := by
      rw [← hnext, hstep]
      refine Iff.trans ⟨?_, fun h => ⟨_, _, h, rfl⟩⟩ (allocFd_nonneg k₁ file)
      rintro ⟨fd, k', hfd, heq⟩
      cases heq
      exact hfd
    rw [hreply, hopened]
    have hclosed : closedIn trace = [] ↔ (closedIn trace).length = 0 := List.length_eq_zero_iff.symm
    rw [hclosed]
    simp only [maxFd] at hmax
    omega
  · obtain ⟨trace', hrun'⟩ := callRun_sendMessage htype hsend
    exact ⟨trace', hrun.append hrun'⟩

theorem noDescriptors_shell (user : ByteMemory.Memory) : NoDescriptors (shellKernel user) :=
  ⟨fun _ => rfl, rfl⟩

/-- A file is created, closed and opened again. -/
theorem descriptors_left_second :
    ∃ trace k, Steps fdStep (fun _ _ => True) (shellKernel fun _ => 0) trace k ∧
      closedIn trace = [0] ∧
      ∃ fd k', 0 ≤ fd ∧ fdStep k (.openPath (ascii "/tmp/a")) = some (.opened fd, k') := by
  have hrun := steps_of_replies fdStep (shellKernel fun _ => 0)
    [.createPath (ascii "/tmp/a"), .close 0] [.opened 0, .result 0] (by decide +kernel)
    (admits_true _ _)
  have hfile : (filledIn (([.createPath (ascii "/tmp/a"), .close 0] : List FdEvent).foldl
      (next fdStep) (shellKernel fun _ => 0)) (.openPath (ascii "/tmp/a"))).isSome := by
    decide +kernel
  obtain ⟨⟨file, k₁⟩, hfile⟩ := Option.isSome_iff_exists.mp hfile
  have hleft := (descriptors_left_iff _ _ (noDescriptors_shell _) _ hrun).1 _ file k₁ hfile
  exact ⟨_, _, hrun, rfl, hleft.mpr (.inl (by decide)) (by decide +kernel)⟩

/-! Opening and closing one file after the other. -/

def openCloseCalls : List FdEvent :=
  (List.range 32).flatMap fun fd => [.openPath (ascii "/a"), .close fd]

def openCloseReplies : List FdReply := (List.range 32).flatMap fun fd => [.opened fd, .result 0]

/-- After 32 opens that were each closed again, no descriptor is open and none is left. -/
theorem closed_descriptors_exhausted :
    ¬∀ trace k, Steps fdStep (fun k _ => openCount k ≤ 31) (shellKernel fun _ => 0) trace k →
      ∀ e file k₁, filledIn k e = some (file, k₁) → openCount k ≤ 31 →
        ∃ fd k', 0 ≤ fd ∧ fdStep k e = some (.opened fd, k') := by
  intro hclaim
  have hadmits : Admits fdStep (fun k _ => openCount k ≤ 31) (shellKernel fun _ => 0)
      openCloseCalls := by decide +kernel
  have hrun := steps_of_replies fdStep (shellKernel fun _ => 0) openCloseCalls openCloseReplies
    (by decide +kernel) hadmits
  have hfile : (filledIn (openCloseCalls.foldl (next fdStep) (shellKernel fun _ => 0))
      (.openPath (ascii "/a"))).isSome := by decide +kernel
  obtain ⟨⟨file, k₁⟩, hfile⟩ := Option.isSome_iff_exists.mp hfile
  obtain ⟨fd, k', hfd, hstep⟩ := hclaim _ _ hrun _ _ _ hfile (by decide +kernel)
  have hreply : (fdStep (openCloseCalls.foldl (next fdStep) (shellKernel fun _ => 0))
      (.openPath (ascii "/a"))).map Prod.fst = some (.opened (-1)) := by decide +kernel
  rw [hstep] at hreply
  cases hreply
  exact absurd hfd (by decide)

end Chthon
