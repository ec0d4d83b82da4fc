import Chthon.ProcessRuns

/-! Whom `schedule` passes over. It takes the first ready process of a list whose newest process comes
first, so two newer processes that go on running keep an older one waiting. -/

namespace Chthon

open Run

/-- A process that `schedule` may pick, now or when the running process gives way. -/
def Runnable (s : System) (p : ProcessPtr) : Prop :=
  s.kernel.stateOf p = .ready ∨ s.kernel.stateOf p = .running

instance (s : System) (p : ProcessPtr) : Decidable (Runnable s p) :=
  inferInstanceAs (Decidable (_ ∨ _))

/-- Two processes are listed, both newer than `q`. -/
structure NewerPair (k : Kernel) (a b q : ProcessPtr) : Prop where
  distinct : a ≠ b
  first : a ∈ k.processList
  second : b ∈ k.processList
  older : q ∈ k.processList
  firstNewer : (k.procs q).pid < (k.procs a).pid
  secondNewer : (k.procs q).pid < (k.procs b).pid

section Order

variable {img : Image} {s s' : System} {r : ProcReply} {a b p q next : ProcessPtr} {k k' : Kernel}

theorem find_newest {pid : ProcessPtr → Int} {ready : ProcessPtr → Bool} {l : List ProcessPtr}
    (hsorted : (l.map pid).Pairwise (· > ·)) (hfind : l.find? ready = some next) (hp : p ∈ l)
    (hready : ready p = true) : pid p ≤ pid next := by
  induction l with
  | nil => cases hp
  | cons c l ih =>
      rw [List.map_cons, List.pairwise_cons] at hsorted
      rw [List.find?_cons] at hfind
      cases hc : ready c with
      | true =>
          rw [hc] at hfind
          obtain rfl : c = next := Option.some.inj hfind
          rcases List.mem_cons.mp hp with rfl | hp
          · exact le_rfl
          · exact (hsorted.1 _ (List.mem_map_of_mem hp)).le
      | false =>
          rw [hc] at hfind
          rcases List.mem_cons.mp hp with rfl | hp
          · rw [hready] at hc
            cases hc
          · exact ih hsorted.2 hfind hp

/-- No ready process is newer than the one that is picked. -/
theorem firstReady_newest
    (hsorted : (k.processList.map fun p => (k.procs p).pid).Pairwise (· > ·))
    (hnext : firstReady k = some next) (hp : p ∈ k.processList) (hready : k.stateOf p = .ready) :
    (k.procs p).pid ≤ (k.procs next).pid :=
  find_newest hsorted hnext hp (decide_eq_true hready)

theorem NewerPair.of_table (h : NewerPair k a b q) (table : SameTable k k') : NewerPair k' a b q := by
  obtain ⟨hne, ha, hb, hq, hqa, hqb⟩ := h
  refine ⟨hne, ?_, ?_, ?_, ?_, ?_⟩
  · rwa [table.processList]
  · rwa [table.processList]
  · rwa [table.processList]
  · rwa [table.pid, table.pid]
  · rwa [table.pid, table.pid]

/-- A call that goes through `schedule` leaves one of two runnable processes ready for it: only the
caller can be running. -/
theorem ready_entry (hinv : ProcessInv s)
    (hothers : ∀ q, s.kernel.current ≠ some q → k.stateOf q = s.kernel.stateOf q ∨
      (s.kernel.stateOf q = .blocked ∧ k.stateOf q = .ready))
    (hab : a ≠ b) (ha : Runnable s a) (hb : Runnable s b) :
    k.stateOf a = .ready ∨ k.stateOf b = .ready := by
  have hwaiting : ∀ x, Runnable s x → s.kernel.current ≠ some x → k.stateOf x = .ready := by
    intro x hx hcur
    have hready : s.kernel.stateOf x = .ready := by
      rcases hx with hready | hrunning
      · exact hready
      · exact absurd (hinv.running x hrunning) hcur
    rcases hothers x hcur with hsame | ⟨_, hwoken⟩
    · exact hsame.trans hready
    · exact hwoken
  by_cases hcur : s.kernel.current = some a
  · right
    apply hwaiting b hb
    intro hcur'
    exact hab (Option.some.inj (hcur.symm.trans hcur'))
  · exact .inl (hwaiting a ha hcur)

/-- One call does not make the older process current, as long as both newer ones can run. -/
theorem Effect.passes_over (he : Effect s s' r) (hinv : ProcessInv s)
    (hpair : NewerPair s.kernel a b q) (ha : Runnable s a) (hb : Runnable s b)
    (hcur : s.kernel.current ≠ some q) :
    NewerPair s'.kernel a b q ∧ s'.kernel.current ≠ some q := by
  cases he with
  | idle _ table current _ _ _ => exact ⟨hpair.of_table table, by rwa [current]⟩
  | reaped _ table _ _ _ current _ _ _ => exact ⟨hpair.of_table table, by rwa [current]⟩
  | created p grown place _ current _ _ others _ _ =>
      have hfresh := hinv.fresh (p := p) (by
        rcases place with ⟨hp, hheap, _⟩ | hslot
        · exact .inl ⟨hp, hheap, by assumption⟩
        · exact .inr hslot)
      have hkept : ∀ x ∈ s.kernel.processList, s'.kernel.procs x = s.kernel.procs x := by
        intro x hx
        apply others
        rintro rfl
        exact hfresh hx
      obtain ⟨hne, ha', hb', hq', hqa, hqb⟩ := hpair
      refine ⟨⟨hne, ?_, ?_, ?_, ?_, ?_⟩, ?_⟩
      · rw [grown]
        exact List.mem_cons_of_mem _ ha'
      · rw [grown]
        exact List.mem_cons_of_mem _ hb'
      · rw [grown]
        exact List.mem_cons_of_mem _ hq'
      · rwa [hkept q hq', hkept a ha']
      · rwa [hkept q hq', hkept b hb']
      · rw [current]
        cases hnobody : s.kernel.current with
        | none =>
            intro heq
            obtain rfl : p = q := Option.some.inj heq
            exact hfresh hq'
        | some c =>
            rw [hnobody] at hcur
            exact hcur
  | switched _ k₁ taken table _ _ others _ =>
      obtain ⟨next, hnext, hcurrent, htable, _⟩ := schedule_cases taken
      have hpair₁ := hpair.of_table table
      have hsorted : (k₁.processList.map fun p => (k₁.procs p).pid).Pairwise (· > ·) := by
        simp only [table.processList, table.pid]
        exact hinv.sorted
      have hnewer : (k₁.procs q).pid < (k₁.procs next).pid := by
        rcases ready_entry hinv (fun x hx => (others x hx).2) hpair.distinct ha hb with hready | hready
        · calc (k₁.procs q).pid < (k₁.procs a).pid := hpair₁.firstNewer
            _ ≤ (k₁.procs next).pid := firstReady_newest hsorted hnext hpair₁.first hready
        · calc (k₁.procs q).pid < (k₁.procs b).pid := hpair₁.secondNewer
            _ ≤ (k₁.procs next).pid := firstReady_newest hsorted hnext hpair₁.second hready
      refine ⟨hpair₁.of_table htable, ?_⟩
      rw [hcurrent]
      intro heq
      obtain rfl : next = q := Option.some.inj heq
      exact lt_irrefl _ hnewer

/-- In every run, two processes that stay runnable keep every older process that is not running from
ever being switched to, whatever any process calls. -/
theorem newer_pair_starves (img : Image) (s₀ s t : System) (hstart : Started img s₀)
    (before trace : List (ProcEvent × ProcReply))
    (hbefore : Steps (procStep img) (fun _ _ => True) s₀ before s) (a b q : ProcessPtr)
    (hpair : NewerPair s.kernel a b q) (hcur : s.kernel.current ≠ some q)
    (hrun : Steps (procStep img) (fun u _ => Runnable u a ∧ Runnable u b) s trace t) :
    t.kernel.current ≠ some q := by
  have hkept : ProcessInv t ∧ NewerPair t.kernel a b q ∧ t.kernel.current ≠ some q := by
    apply hrun.preserves (P := fun t => ProcessInv t ∧ NewerPair t.kernel a b q ∧
      t.kernel.current ≠ some q) ⟨process_inv hstart hbefore, hpair, hcur⟩
    rintro t e r u ⟨hinv, hpair, hcur⟩ ⟨ha, hb⟩ hstep
    have heffect := procStep_effect hstep
    exact ⟨hinv.effect heffect, heffect.passes_over hinv hpair ha hb hcur⟩
  exact hkept.2.2

end Order

/-- Two children take turns, and `init`, which has forked them and is ready, does not run again. -/
theorem newer_pair_starves_init : ∃ s t,
    Steps (procStep blankImage) (fun u _ => Runnable u (.processes 2) ∧ Runnable u (.processes 1)) s
      [(.schedule, .switched), (.schedule, .switched)] t ∧
      t.kernel.stateOf (.processes 0) = .ready ∧ t.kernel.current ≠ some (.processes 0) := by
  have hbefore := initAfter_run [.fork, .fork, .schedule]
    [.created (some (.processes 1)), .created (some (.processes 2)), .switched] (by decide +kernel)
    (admits_true _ _)
  have hrun := steps_of_replies (procStep blankImage) (initAfter [.fork, .fork, .schedule])
    [.schedule, .schedule] [.switched, .switched] (by decide +kernel)
    (show Admits _ (fun u _ => Runnable u (.processes 2) ∧ Runnable u (.processes 1)) _ _ by
      decide +kernel)
  have hpair : NewerPair (initAfter [.fork, .fork, .schedule]).kernel (.processes 2) (.processes 1)
      (.processes 0) := by
    refine ⟨?_, ?_, ?_, ?_, ?_, ?_⟩
    all_goals decide +kernel
  refine ⟨_, _, hrun, by decide +kernel, ?_⟩
  exact newer_pair_starves blankImage initSystem _ _ initSystem_started _ _ hbefore _ _ _ hpair
    (by decide +kernel) hrun

end Chthon
