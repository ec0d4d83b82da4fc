import Chthon.VfsFilePointers

/-! Descriptors over whole runs of the calls on them. They are handed out in order, from 0 on, and
an entry that is closed stays empty, so none is ever used for a second file. -/

namespace Chthon

open Run

/-- The descriptors that a run has handed out, in order. -/
def openedIn (trace : List (FdEvent × FdReply)) : List Int :=
  trace.filterMap fun step =>
    match step.2 with
    | .opened fd => if 0 ≤ fd then some fd else none
    | _ => none

/-- The descriptors that a run has closed, in order. -/
def closedIn (trace : List (FdEvent × FdReply)) : List Int :=
  trace.filterMap fun step =>
    match step with
    | (.close fd, .result result) => if result = 0 then some fd else none
    | _ => none

theorem openedIn_append (trace trace' : List (FdEvent × FdReply)) :
    openedIn (trace ++ trace') = openedIn trace ++ openedIn trace' := List.filterMap_append

theorem closedIn_append (trace trace' : List (FdEvent × FdReply)) :
    closedIn (trace ++ trace') = closedIn trace ++ closedIn trace' := List.filterMap_append

namespace Descriptors

variable {d₀ d d' : Descriptors} {e : FdEvent} {r : FdReply} {fd : Int}
  {trace : List (FdEvent × FdReply)}

/-- What a run has handed out and closed, as the table shows it. -/
structure Ledger (trace : List (FdEvent × FdReply)) (d : Descriptors) : Prop where
  own : Own d
  opened : openedIn trace = (List.range d.kernel.nextFd).map Nat.cast
  closed : ∀ fd ∈ closedIn trace, ∃ n : Nat, fd = n ∧ n < d.kernel.nextFd ∧ d.fdTable n = none

theorem openedIn_idle (refused : ∀ fd, r = .opened fd → fd = -1) : openedIn [(e, r)] = [] := by
  cases r with
  | opened fd =>
      rw [refused fd rfl]
      rfl
  | bytes bytes => rfl
  | result result => rfl

theorem closedIn_idle (kept : ∀ fd, e = .close fd → r = .result (-1)) : closedIn [(e, r)] = [] := by
  cases e with
  | close fd =>
      rw [kept fd rfl]
      rfl
  | _ => rfl

theorem Ledger.snoc (h : Ledger trace d) (heff : FdEffect d d' e r) :
    Ledger (trace ++ [(e, r)]) d' := by
  refine ⟨h.own.effect heff, ?_, ?_⟩
  · rw [openedIn_append, h.opened]
    cases heff with
    | idle _ _ hnext _ refused _ => rw [openedIn_idle refused, hnext, List.append_nil]
    | moved fd addr file _ reply _ _ _ hnext _ =>
        rw [openedIn_idle fun fd hr => absurd hr (reply fd), hnext, List.append_nil]
    | closed fd addr _ _ _ hnext _ =>
        rw [hnext]
        exact List.append_nil _
    | opened file _ _ _ hnext _ _ =>
        rw [hnext, List.range_succ, List.map_append]
        simp [openedIn]
  · rw [closedIn_append]
    intro fd hfd
    rw [List.mem_append] at hfd
    cases heff with
    | idle htable _ hnext _ _ kept =>
        rw [closedIn_idle kept] at hfd
        rw [htable, hnext]
        exact h.closed fd (hfd.resolve_right List.not_mem_nil)
    | moved n addr file call _ _ htable _ hnext _ =>
        rw [closedIn_idle fun fd he => absurd he (call.not_close fd)] at hfd
        rw [htable, hnext]
        exact h.closed fd (hfd.resolve_right List.not_mem_nil)
    | closed n addr bound htable _ hnext _ =>
        rw [hnext, htable]
        obtain hold | hnew := hfd
        · obtain ⟨m, rfl, hm, hnone⟩ := h.closed fd hold
          refine ⟨m, rfl, hm, ?_⟩
          by_cases heq : m = n
          · rw [heq, Function.update_self]
          · rw [Function.update_of_ne heq, hnone]
        · refine ⟨n, List.mem_singleton.mp hnew, ?_, Function.update_self ..⟩
          by_contra hlt
          rw [h.own.unused n (Nat.le_of_not_lt hlt)] at bound
          cases bound
    | opened file _ htable _ hnext _ call =>
        rw [closedIn_idle fun fd he => absurd he (call.not_close fd)] at hfd
        obtain ⟨n, rfl, hn, hnone⟩ := h.closed fd (hfd.resolve_right List.not_mem_nil)
        refine ⟨n, rfl, hnext ▸ Nat.lt_succ_of_lt hn, ?_⟩
        rw [htable, Function.update_of_ne hn.ne, hnone]

theorem Empty.ledger (h : Empty d) : Ledger [] d := by
  refine ⟨h.own, ?_, ?_⟩
  · rw [h.nextFd]
    rfl
  · intro fd hfd
    cases hfd

theorem ledger_run {ok : Descriptors → FdEvent → Prop} (hstart : Empty d₀)
    (hrun : Steps step ok d₀ trace d) : Ledger trace d :=
  hrun.invariant hstart.ledger fun _ _ _ _ _ h _ hstep => h.snoc (step_effect hstep)

/-- A descriptor keeps its file until it is closed. -/
theorem bound_run {ok : Descriptors → FdEvent → Prop} (hown : Own d) {n addr : Nat}
    (hbound : d.fdTable n = some addr) {trace : List (FdEvent × FdReply)}
    (hrun : Steps step ok d trace d') (hopen : (n : Int) ∉ closedIn trace) :
    d'.fdTable n = some addr := by
  have hkeep : Own d' ∧ ((n : Int) ∉ closedIn trace → d'.fdTable n = some addr) := by
    refine hrun.invariant (P := fun trace d' =>
      Own d' ∧ ((n : Int) ∉ closedIn trace → d'.fdTable n = some addr))
      ⟨hown, fun _ => hbound⟩ fun trace d₁ e r d₂ ih _ hstep => ?_
    have heff := step_effect hstep
    refine ⟨ih.1.effect heff, fun hopen => ?_⟩
    rw [closedIn_append, List.mem_append, not_or] at hopen
    have hbefore := ih.2 hopen.1
    cases heff with
    | idle htable _ _ _ _ _ => rw [htable, hbefore]
    | moved m addr' file _ _ _ htable _ _ _ => rw [htable, hbefore]
    | closed m addr' _ htable _ _ _ =>
        have hne : n ≠ m := by
          rintro rfl
          exact hopen.2 (List.mem_singleton_self _)
        rw [htable, Function.update_of_ne hne, hbefore]
    | opened file _ htable _ _ _ _ =>
        have hne : n ≠ d₁.kernel.nextFd := by
          rintro rfl
          rw [ih.1.unused _ le_rfl] at hbefore
          cases hbefore
        rw [htable, Function.update_of_ne hne, hbefore]
  exact hkeep.2 hopen

theorem getFile_of_lt (d : Descriptors) {n : Nat} (hn : n < maxFd) : d.getFile n = d.fdTable n := by
  unfold getFile
  rw [if_neg, Int.toNat_natCast]
  omega

/-- A descriptor without a file is answered with -1. -/
theorem getFile_none (h : d.getFile fd = none) :
    (∀ count, d.vfsRead fd count = some (none, d)) ∧
    (∀ buf, d.vfsWrite fd buf = some (-1, d)) ∧ d.vfsClose fd = (-1, d) := by
  refine ⟨fun count => ?_, fun buf => ?_, ?_⟩
  · rw [vfsRead, h]
  · rw [vfsWrite, h]
  · rw [vfsClose, h]

/-- A read or write keeps all entries, and the file of every descriptor but its own. -/
theorem files_kept (hown : Own d) (hcall : e.Transfers fd) (heff : FdEffect d d' e r) {fd' : Int}
    (hne : fd' ≠ fd) : d'.getFile fd' = d.getFile fd' ∧
      ∀ addr, d.getFile fd' = some addr → d'.files addr = d.files addr := by
  cases heff with
  | idle htable hfiles _ _ _ _ =>
      refine ⟨by rw [getFile, getFile, htable], fun addr haddr => hfiles addr ?_⟩
      obtain ⟨n, rfl, -, hbound⟩ := getFile_some haddr
      exact hown.allocated n addr hbound
  | moved n addr file hcall' _ hbound htable hfiles _ _ =>
      refine ⟨by rw [getFile, getFile, htable], fun addr' haddr => ?_⟩
      obtain ⟨n', rfl, -, hbound'⟩ := getFile_some haddr
      rw [hfiles]
      refine hown.files_other hbound hbound' (fun heq => hne ?_) file
      rw [heq, hcall.unique hcall']
  | closed n addr _ _ _ _ _ => exact hcall.elim
  | opened file _ _ _ _ _ hopens => exact absurd hopens hcall.not_opens

end Descriptors

open Descriptors in
/-- In every run from an empty table, descriptors are handed out once each and lie in the table;
each keeps its own file until it is closed and is answered with -1 from then on; and reads and
writes leave the files of the other descriptors alone. -/
theorem descriptors_never_alias (d₀ d : Descriptors) (hstart : d₀.Empty)
    (trace : List (FdEvent × FdReply))
    (hrun : Steps Descriptors.step (fun _ _ => True) d₀ trace d) :
    (openedIn trace).Nodup ∧ (∀ fd ∈ openedIn trace, 0 ≤ fd ∧ fd < 32) ∧
    (∀ fd fd' addr, d.getFile fd = some addr → d.getFile fd' = some addr → fd = fd') ∧
    (∀ e fd d₁, d.step e = some (.opened fd, d₁) → 0 ≤ fd →
      fd ∉ openedIn trace ∧ fd < 32 ∧ ∃ addr, d₁.getFile fd = some addr ∧
        ∀ trace' d₂, Steps Descriptors.step (fun _ _ => True) d₁ trace' d₂ → fd ∉ closedIn trace' →
          d₂.getFile fd = some addr) ∧
    (∀ fd ∈ closedIn trace, (∀ count, d.vfsRead fd count = some (none, d)) ∧
      (∀ buf, d.vfsWrite fd buf = some (-1, d)) ∧ d.vfsClose fd = (-1, d)) ∧
    ∀ e fd r d₁, e.Transfers fd → d.step e = some (r, d₁) →
      ∀ fd' ≠ fd, d₁.getFile fd' = d.getFile fd' ∧
        ∀ addr, d.getFile fd' = some addr → d₁.files addr = d.files addr := by
  have hledger := ledger_run hstart hrun
  have hown := hledger.own
  refine ⟨?_, ?_, ?_, ?_, ?_, fun e fd r d₁ hcall hstep fd' hne =>
    files_kept hown hcall (step_effect hstep) hne⟩
  · rw [hledger.opened]
    exact List.nodup_range.map Nat.cast_injective
  · intro fd hfd
    rw [hledger.opened, List.mem_map] at hfd
    obtain ⟨n, hn, rfl⟩ := hfd
    have hlt := (List.mem_range.mp hn).trans_le hown.inTable
    exact ⟨Int.natCast_nonneg n, by exact_mod_cast hlt⟩
  · intro fd fd' addr hfd hfd'
    obtain ⟨n, rfl, -, hn⟩ := getFile_some hfd
    obtain ⟨n', rfl, -, hn'⟩ := getFile_some hfd'
    rw [hown.distinct n n' addr hn hn']
  · intro e fd d₁ hstep hfd
    have heff := step_effect hstep
    cases heff with
    | idle _ _ _ _ refused _ =>
        rw [refused fd rfl] at hfd
        exact absurd hfd (by decide)
    | moved _ _ _ _ reply _ _ _ _ _ => exact absurd rfl (reply fd)
    | opened file hroom htable _ hnext hheap _ =>
        refine ⟨?_, by exact_mod_cast hroom, d.kernel.heapPos, ?_, ?_⟩
        · rw [hledger.opened]
          simp
        · rw [getFile_of_lt _ hroom, htable, Function.update_self]
        · intro trace' d₂ hrun' hopen
          rw [getFile_of_lt _ hroom]
          refine bound_run (hown.effect (step_effect hstep)) ?_ hrun' hopen
          rw [htable, Function.update_self]
  · intro fd hfd
    obtain ⟨n, rfl, hn, hnone⟩ := hledger.closed fd hfd
    apply getFile_none
    rw [getFile_of_lt d (hn.trans_le hown.inTable), hnone]

/-- Two descriptors of one file, the first of which has written to it and is closed. -/
theorem descriptors_never_alias_two :
    ∃ trace d, Steps Descriptors.step (fun _ _ => True)
        ⟨shellKernel fun _ => 0, fun _ => none, fun _ => ⟨.ramfs, 0, 0⟩⟩ trace d ∧
      openedIn trace = [0, 1] ∧ d.vfsClose 0 = (-1, d) ∧
      ∀ addr, d.getFile 1 = some addr → ∀ count r d₁, d.step (.read 0 count) = some (r, d₁) →
        d₁.files addr = d.files addr := by
  have hrun := steps_of_replies Descriptors.step
    ⟨shellKernel fun _ => 0, fun _ => none, fun _ => ⟨.ramfs, 0, 0⟩⟩
    [.createPath (ascii "/tmp/a"), .openPath (ascii "/tmp/a"), .write 0 (ascii "hi"), .close 0]
    [.opened 0, .opened 1, .result 2, .result 0] (by decide +kernel) (admits_true _ _)
  obtain ⟨_, _, _, _, hclosed, hframe⟩ :=
    descriptors_never_alias _ _ ⟨fun _ => rfl, rfl⟩ _ hrun
  refine ⟨_, _, hrun, rfl, (hclosed 0 (List.mem_singleton_self 0)).2.2, ?_⟩
  intro addr haddr count r d₁ hstep
  exact (hframe (.read 0 count) 0 r d₁ rfl hstep 1 (by decide)).2 addr haddr

end Chthon
