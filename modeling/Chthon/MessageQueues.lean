import Chthon.KernelModel
import Chthon.Lib.CircularQueue
import Chthon.Lib.Run

/-! Every process's message queue is a bounded FIFO. The array with its three counters is a circular
queue; along any interleaving of senders, receivers and process switches, what has been queued to a
process is what it has received followed by what is pending. -/

namespace Chthon

open CircularQueue Run

/-! The queue as a circular queue. -/

def MessageQueue.ring (q : MessageQueue) : CircularQueue Message where
  cells i := q.messages i
  head := q.head.toNat
  tail := q.tail.toNat
  count := q.count.toNat

/-- The messages waiting, oldest first. -/
def MessageQueue.pending (q : MessageQueue) : List Message := CircularQueue.pending 32 q.ring

structure MessageQueue.Valid (q : MessageQueue) : Prop where
  head_range : 0 ≤ q.head ∧ q.head < 32
  tail_range : 0 ≤ q.tail ∧ q.tail < 32
  count_range : 0 ≤ q.count ∧ q.count ≤ 32
  tail_eq : q.tail = (q.head + q.count) % 32

section Queue

variable {q : MessageQueue}

theorem MessageQueue.Valid.ring (h : q.Valid) : CircularQueue.Valid 32 q.ring where
  head_lt := by
    have := h.head_range
    change q.head.toNat < 32
    omega
  count_le := by
    have := h.count_range
    change q.count.toNat ≤ 32
    omega
  tail_eq := by
    have hhead := h.head_range
    have hcount := h.count_range
    have htail := h.tail_eq
    change q.tail.toNat = (q.head.toNat + q.count.toNat) % 32
    omega

theorem MessageQueue.Valid.pending_length (h : q.Valid) : (q.pending.length : Int) = q.count := by
  rw [MessageQueue.pending, CircularQueue.pending_length]
  exact Int.toNat_of_nonneg h.count_range.1

/-- The queue after a message has been stored at the tail. -/
def MessageQueue.push (q : MessageQueue) (msg : Message) : MessageQueue :=
  { q with
    messages := Function.update q.messages q.tail msg
    tail := (q.tail + 1).tmod maxMessages
    count := q.count + 1 }

def MessageQueue.pop (q : MessageQueue) : MessageQueue :=
  { q with head := (q.head + 1).tmod maxMessages, count := q.count - 1 }

/-- On counters that are not negative, the remainder of C is the usual one. -/
theorem succ_tmod {i : Int} (hi : 0 ≤ i) : (i + 1).tmod maxMessages = (i + 1) % 32 :=
  Int.tmod_eq_emod_of_nonneg (by omega)

theorem MessageQueue.ring_push (h : q.Valid) (msg : Message) :
    (q.push msg).ring = CircularQueue.push 32 q.ring msg := by
  have htail := h.tail_range
  have hcount := h.count_range
  have hcells : (q.push msg).ring.cells = (CircularQueue.push 32 q.ring msg).cells := by
    funext i
    change Function.update q.messages q.tail msg i =
      Function.update q.ring.cells q.tail.toNat msg i
    by_cases hi : (i : Int) = q.tail
    · rw [hi, Function.update_self, show i = q.tail.toNat by omega, Function.update_self]
    · rw [Function.update_of_ne hi, Function.update_of_ne (by omega)]
      rfl
  have htails : ((q.tail + 1).tmod maxMessages).toNat = (q.tail.toNat + 1) % 32 := by
    rw [succ_tmod htail.1]
    omega
  have hcounts : (q.count + 1).toNat = q.count.toNat + 1 := by omega
  change CircularQueue.mk (q.push msg).ring.cells q.head.toNat
    ((q.tail + 1).tmod maxMessages).toNat (q.count + 1).toNat = _
  rw [hcells, htails, hcounts]
  rfl

theorem MessageQueue.ring_pop (h : q.Valid) (hsome : 0 < q.count) :
    q.pop.ring = CircularQueue.pop 32 q.ring := by
  have hhead := h.head_range
  have hheads : ((q.head + 1).tmod maxMessages).toNat = (q.head.toNat + 1) % 32 := by
    rw [succ_tmod hhead.1]
    omega
  have hcounts : (q.count - 1).toNat = q.count.toNat - 1 := by omega
  change CircularQueue.mk q.ring.cells ((q.head + 1).tmod maxMessages).toNat q.tail.toNat
    (q.count - 1).toNat = _
  rw [hheads, hcounts]
  rfl

theorem MessageQueue.Valid.push (h : q.Valid) (msg : Message) (hroom : q.count < 32) :
    (q.push msg).Valid ∧ (q.push msg).pending = q.pending ++ [msg] := by
  obtain ⟨hhead, htail, hcount, heq⟩ := h
  have hnext : (q.push msg).tail = (q.tail + 1) % 32 := succ_tmod htail.1
  constructor
  · refine ⟨hhead, ?_, ?_, ?_⟩
    · rw [hnext]
      omega
    · change 0 ≤ q.count + 1 ∧ q.count + 1 ≤ 32
      omega
    · rw [hnext]
      change (q.tail + 1) % 32 = (q.head + (q.count + 1)) % 32
      omega
  · have hvalid : q.Valid := ⟨hhead, htail, hcount, heq⟩
    rw [MessageQueue.pending, ring_push hvalid]
    apply pending_push hvalid.ring
    change q.count.toNat < 32
    omega

theorem MessageQueue.Valid.pop (h : q.Valid) (hsome : 0 < q.count) :
    q.pop.Valid ∧ q.pending = q.messages q.head :: q.pop.pending := by
  obtain ⟨hhead, htail, hcount, heq⟩ := h
  have hnext : q.pop.head = (q.head + 1) % 32 := succ_tmod hhead.1
  constructor
  · refine ⟨?_, htail, ?_, ?_⟩
    · rw [hnext]
      omega
    · change 0 ≤ q.count - 1 ∧ q.count - 1 ≤ 32
      omega
    · rw [hnext]
      change q.tail = ((q.head + 1) % 32 + (q.count - 1)) % 32
      omega
  · have hvalid : q.Valid := ⟨hhead, htail, hcount, heq⟩
    have hcells : q.ring.cells q.ring.head = q.messages q.head := by
      change q.messages (q.head.toNat : Int) = q.messages q.head
      rw [Int.toNat_of_nonneg hhead.1]
    rw [MessageQueue.pending, MessageQueue.pending, ring_pop hvalid hsome, ← hcells]
    apply pending_pop hvalid.ring
    change 0 < q.count.toNat
    omega

end Queue

/-! What the calls do to the queues. -/

def Kernel.queue (k : Kernel) (p : ProcessPtr) : MessageQueue := (k.procs p).msgQueue

theorem setProc_queue (k : Kernel) (p : ProcessPtr) (proc : Process) (r : ProcessPtr) :
    (k.setProc p proc).queue r = if r = p then proc.msgQueue else k.queue r := by
  change (Function.update k.procs p proc r).msgQueue = _
  rw [Function.update_apply]
  split_ifs <;> rfl

/-- Replacing a process by one with the same queue changes no queue. -/
theorem setProc_queue_of_eq (k : Kernel) (p : ProcessPtr) (proc : Process)
    (h : proc.msgQueue = k.queue p) (r : ProcessPtr) : (k.setProc p proc).queue r = k.queue r := by
  rw [setProc_queue]
  split_ifs with hr
  · rw [hr, h]
  · rfl

theorem setState_queue (k : Kernel) (p : ProcessPtr) (state : ProcessState) (r : ProcessPtr) :
    (k.setState p state).queue r = k.queue r :=
  setProc_queue_of_eq k p { k.procs p with state := state } rfl r

/-- A process switch leaves every queue alone. -/
theorem schedule_queue {k k' : Kernel} (h : schedule k = some k') (r : ProcessPtr) :
    k'.queue r = k.queue r := by
  unfold schedule at h
  split at h
  · cases h
  dsimp only at h
  split at h
  · cases h
    exact setState_queue k _ _ r
  · cases h
    rw [← setState_queue k _ .running r]
    split_ifs
    · exact setState_queue _ _ _ r
    · rfl

theorem exitProcess_queue {k k' : Kernel} {status : Int} (h : exitProcess k status = some k')
    (r : ProcessPtr) : k'.queue r = k.queue r := by
  unfold exitProcess at h
  split at h
  · cases h
  rename_i p _
  dsimp only at h
  rw [← setProc_queue_of_eq k p { k.procs p with state := .zombie, exitStatus := status } rfl r]
  split at h
  · rw [schedule_queue h r]
    split_ifs
    · exact setState_queue _ _ _ r
    · rfl
  · exact schedule_queue h r

/-- `queue_message` on a valid queue: it fails on a full one and changes nothing, and else appends. -/
theorem queueMessage_cases (k : Kernel) (p : ProcessPtr) (msg : Message) (h : (k.queue p).Valid) :
    ((k.queue p).count = 32 ∧ queueMessage k p msg = some (-1, k)) ∨
    ((k.queue p).count < 32 ∧ ∃ k', queueMessage k p msg = some (0, k') ∧
      ∀ r, k'.queue r = if r = p then (k.queue p).push msg else k.queue r) := by
  obtain ⟨_, htail, hcount, _⟩ := h
  by_cases hfull : (k.queue p).count ≥ maxMessages
  · refine Or.inl ⟨?_, if_pos hfull⟩
    simp only [maxMessages] at hfull
    omega
  · right
    have htail' : ¬((k.queue p).tail < 0 ∨ (k.queue p).tail ≥ maxMessages) := by
      simp only [maxMessages]
      omega
    refine ⟨by simpa [maxMessages] using hfull, _, (if_neg hfull).trans (if_neg htail'), fun r => ?_⟩
    rw [setProc_queue]
    rfl

/-- A receive finds the first pending message. -/
theorem receiveMessage_some {k : Kernel} {p : ProcessPtr} (msg : Message)
    (hcur : k.current = some p) (h : (k.queue p).Valid) (hsome : 0 < (k.queue p).count) :
    ∃ k', receiveMessage k msg = some (0, (k.queue p).messages (k.queue p).head, k') ∧
      ∀ r, k'.queue r = if r = p then (k.queue p).pop else k.queue r := by
  have hhead := h.head_range
  have hne : ¬(k.queue p).count = 0 := by omega
  have hrange : ¬((k.queue p).head < 0 ∨ (k.queue p).head ≥ maxMessages) := by
    simp only [maxMessages]
    omega
  unfold receiveMessage
  rw [hcur]
  refine ⟨_, (if_neg hne).trans (if_neg hrange), fun r => ?_⟩
  rw [setProc_queue]
  rfl

/-- A receive on an empty queue gets nothing; it may put the caller to sleep. -/
theorem receiveMessage_none {k k' : Kernel} {p : ProcessPtr} {msg msg' : Message} {result : Int}
    (hcur : k.current = some p) (hempty : (k.queue p).count = 0)
    (hcall : receiveMessage k msg = some (result, msg', k')) :
    result = -1 ∧ ∀ r, k'.queue r = k.queue r := by
  unfold receiveMessage at hcall
  rw [hcur] at hcall
  replace hcall := (if_pos hempty).symm.trans hcall
  split_ifs at hcall with hblock
  · rw [Option.map_eq_some_iff] at hcall
    obtain ⟨u, hsched, heq⟩ := hcall
    cases heq
    refine ⟨rfl, fun r => ?_⟩
    rw [schedule_queue hsched r]
    exact setProc_queue_of_eq k p { k.procs p with msgBlocked := true } rfl r
  · cases hcall
    exact ⟨rfl, fun _ => rfl⟩

/-! Interleavings. -/

/-- The calls that reach a queue or change who is running. -/
inductive IpcEvent where
  | queue (proc : ProcessPtr) (msg : Message)
  | receive (msg : Message)
  | schedule
  | switchTo (next : ProcessPtr)
  | exit (status : Int)

/-- The results of the calls; a receive is recorded with the process that made it. -/
inductive IpcReply where
  | queued (result : Int)
  | received (proc : ProcessPtr) (result : Int) (msg : Message)
  | switched

def ipcStep (k : Kernel) : IpcEvent → Option (IpcReply × Kernel)
  | .queue proc msg => (queueMessage k proc msg).map fun (result, k) => (.queued result, k)
  | .receive msg =>
      k.current.bind fun p => (receiveMessage k msg).map fun (result, msg, k) =>
        (.received p result msg, k)
  | .schedule => (schedule k).map fun k => (.switched, k)
  | .switchTo next => (switchToProcess k next).map fun k => (.switched, k)
  | .exit status => (exitProcess k status).map fun k => (.switched, k)

/-- The message an event has put into the queue of `p`, if any. -/
def queuedBy (p : ProcessPtr) : IpcEvent × IpcReply → Option Message
  | (.queue proc msg, .queued result) => if proc = p ∧ result = 0 then some msg else none
  | _ => none

/-- The message that `p` has got from an event, if any. -/
def receivedBy (p : ProcessPtr) : IpcEvent × IpcReply → Option Message
  | (.receive _, .received proc result msg) => if proc = p ∧ result = 0 then some msg else none
  | _ => none

/-- The counters agree, and the messages queued to a process are those it has received and those
still pending, in order. -/
def QueueInv (trace : List (IpcEvent × IpcReply)) (k : Kernel) : Prop :=
  ∀ p, (k.queue p).Valid ∧
    trace.filterMap (queuedBy p) = trace.filterMap (receivedBy p) ++ (k.queue p).pending

section Step

variable {trace : List (IpcEvent × IpcReply)} {k k' : Kernel} {e : IpcEvent} {reply : IpcReply}

/-- An event that moves no message and changes no queue. -/
theorem QueueInv.idle (h : QueueInv trace k) (hqueued : ∀ p, queuedBy p (e, reply) = none)
    (hreceived : ∀ p, receivedBy p (e, reply) = none) (hqueue : ∀ p, k'.queue p = k.queue p) :
    QueueInv (trace ++ [(e, reply)]) k' := by
  intro p
  obtain ⟨hvalid, hfifo⟩ := h p
  rw [hqueue p]
  refine ⟨hvalid, ?_⟩
  simpa [hqueued p, hreceived p] using hfifo

theorem QueueInv.queue (h : QueueInv trace k) {proc : ProcessPtr} {msg : Message} {result : Int}
    (hcall : queueMessage k proc msg = some (result, k')) :
    QueueInv (trace ++ [(.queue proc msg, .queued result)]) k' := by
  rcases queueMessage_cases k proc msg (h proc).1 with ⟨_, hfail⟩ | ⟨hroom, u, hok, hqueue⟩
  · obtain ⟨rfl, rfl⟩ : result = -1 ∧ k' = k := by simpa [hfail, eq_comm] using hcall
    exact h.idle (fun p => by simp [queuedBy]) (fun p => rfl) fun _ => rfl
  · obtain ⟨rfl, rfl⟩ : result = 0 ∧ k' = u := by simpa [hok, eq_comm] using hcall
    intro p
    obtain ⟨hvalid, hfifo⟩ := h p
    rw [hqueue p]
    by_cases hp : p = proc
    · subst hp
      obtain ⟨hpushed, hpending⟩ := hvalid.push msg hroom
      rw [if_pos rfl]
      refine ⟨hpushed, ?_⟩
      rw [List.filterMap_append, List.filterMap_append, hfifo, hpending]
      simp [queuedBy, receivedBy]
    · rw [if_neg hp]
      have hqueued : queuedBy p (.queue proc msg, .queued 0) = none := by simp [queuedBy, Ne.symm hp]
      refine ⟨hvalid, ?_⟩
      rw [List.filterMap_append, List.filterMap_append, hfifo]
      simp [hqueued, receivedBy]

theorem QueueInv.receive (h : QueueInv trace k) {p : ProcessPtr} {msg msg' : Message}
    {result : Int} (hcur : k.current = some p)
    (hcall : receiveMessage k msg = some (result, msg', k')) :
    QueueInv (trace ++ [(.receive msg, .received p result msg')]) k' := by
  by_cases hempty : (k.queue p).count = 0
  · obtain ⟨rfl, hqueue⟩ := receiveMessage_none hcur hempty hcall
    exact h.idle (fun r => rfl) (fun r => by simp [receivedBy]) hqueue
  · have hsome : 0 < (k.queue p).count := by
      have := (h p).1.count_range
      omega
    obtain ⟨u, hok, hqueue⟩ := receiveMessage_some msg hcur (h p).1 hsome
    obtain ⟨rfl, rfl, rfl⟩ : result = 0 ∧ msg' = (k.queue p).messages (k.queue p).head ∧
        k' = u := by simpa [hok, eq_comm] using hcall
    intro r
    obtain ⟨hvalid, hfifo⟩ := h r
    rw [hqueue r]
    by_cases hr : r = p
    · subst hr
      obtain ⟨hpopped, hpending⟩ := hvalid.pop hsome
      rw [if_pos rfl]
      refine ⟨hpopped, ?_⟩
      rw [List.filterMap_append, List.filterMap_append, hfifo, hpending]
      simp [queuedBy, receivedBy]
    · rw [if_neg hr]
      have hreceived : ∀ msg', receivedBy r (.receive msg, .received p 0 msg') = none := by
        simp [receivedBy, Ne.symm hr]
      refine ⟨hvalid, ?_⟩
      rw [List.filterMap_append, List.filterMap_append, hfifo]
      simp [hreceived, queuedBy]

theorem QueueInv.step (h : QueueInv trace k) (hstep : ipcStep k e = some (reply, k')) :
    QueueInv (trace ++ [(e, reply)]) k' := by
  cases e with
  | queue proc msg =>
      rw [ipcStep, Option.map_eq_some_iff] at hstep
      obtain ⟨⟨result, u⟩, hcall, heq⟩ := hstep
      cases heq
      exact h.queue hcall
  | receive msg =>
      rw [ipcStep, Option.bind_eq_some_iff] at hstep
      obtain ⟨p, hcur, hstep⟩ := hstep
      rw [Option.map_eq_some_iff] at hstep
      obtain ⟨⟨result, msg', u⟩, hcall, heq⟩ := hstep
      cases heq
      exact h.receive hcur hcall
  | schedule =>
      rw [ipcStep, Option.map_eq_some_iff] at hstep
      obtain ⟨u, hcall, heq⟩ := hstep
      cases heq
      exact h.idle (fun _ => rfl) (fun _ => rfl) (schedule_queue hcall)
  | switchTo next =>
      rw [ipcStep, switchToProcess, Option.map_map, Option.map_eq_some_iff] at hstep
      obtain ⟨_, _, heq⟩ := hstep
      cases heq
      exact h.idle (fun _ => rfl) (fun _ => rfl) fun _ => rfl
  | exit status =>
      rw [ipcStep, Option.map_eq_some_iff] at hstep
      obtain ⟨u, hcall, heq⟩ := hstep
      cases heq
      exact h.idle (fun _ => rfl) (fun _ => rfl) (exitProcess_queue hcall)

end Step

/-- `static` storage: every queue starts with its three counters at zero. -/
def ZeroQueues (k : Kernel) : Prop :=
  ∀ p, (k.queue p).head = 0 ∧ (k.queue p).tail = 0 ∧ (k.queue p).count = 0

theorem ZeroQueues.inv {k : Kernel} (h : ZeroQueues k) : QueueInv [] k := by
  intro p
  obtain ⟨hhead, htail, hcount⟩ := h p
  have hvalid : (k.queue p).Valid := by
    constructor <;> simp [hhead, htail, hcount]
  refine ⟨hvalid, ?_⟩
  have hlen := hvalid.pending_length
  rw [hcount, Int.natCast_eq_zero, List.length_eq_zero_iff] at hlen
  rw [hlen]
  rfl

/-- Along every interleaving, every queue is a bounded FIFO: the counters agree, queueing fails
exactly on 32 pending messages and then changes nothing, and each process receives a prefix of what
was queued to it, the rest of which is pending. -/
theorem message_queues_bounded_fifo (k₀ : Kernel) (hzero : ZeroQueues k₀)
    (trace : List (IpcEvent × IpcReply)) (k : Kernel)
    (h : Steps ipcStep (fun _ _ => True) k₀ trace k) (p : ProcessPtr) :
    (0 ≤ (k.queue p).head ∧ (k.queue p).head < 32) ∧
    (0 ≤ (k.queue p).tail ∧ (k.queue p).tail < 32) ∧
    (0 ≤ (k.queue p).count ∧ (k.queue p).count ≤ 32) ∧
    (k.queue p).tail = ((k.queue p).head + (k.queue p).count) % 32 ∧
    (k.queue p).count = (k.queue p).pending.length ∧
    (∀ msg, ∃ result k', queueMessage k p msg = some (result, k') ∧
      ((k.queue p).pending.length = 32 ∧ result = -1 ∧ k' = k ∨
        (k.queue p).pending.length < 32 ∧ result = 0 ∧
          (k'.queue p).pending = (k.queue p).pending ++ [msg] ∧
          ∀ r, r ≠ p → k'.queue r = k.queue r)) ∧
    (∀ msg first rest, k.current = some p → (k.queue p).pending = first :: rest →
      ∃ k', receiveMessage k msg = some (0, first, k') ∧ (k'.queue p).pending = rest ∧
        ∀ r, r ≠ p → k'.queue r = k.queue r) ∧
    trace.filterMap (receivedBy p) <+: trace.filterMap (queuedBy p) ∧
    trace.filterMap (queuedBy p) = trace.filterMap (receivedBy p) ++ (k.queue p).pending := by
  have hinv : QueueInv trace k :=
    h.invariant hzero.inv fun _ _ _ _ _ ht _ hstep => ht.step hstep
  obtain ⟨hvalid, hfifo⟩ := hinv p
  have hlen := hvalid.pending_length
  refine ⟨hvalid.head_range, hvalid.tail_range, hvalid.count_range, hvalid.tail_eq, hlen.symm, ?_,
    ?_, ⟨_, hfifo.symm⟩, hfifo⟩
  · intro msg
    rcases queueMessage_cases k p msg hvalid with ⟨hfull, hcall⟩ | ⟨hroom, k', hcall, hqueue⟩
    · exact ⟨-1, k, hcall, Or.inl ⟨by omega, rfl, rfl⟩⟩
    · refine ⟨0, k', hcall, Or.inr ⟨by omega, rfl, ?_, fun r hr => ?_⟩⟩
      · rw [hqueue p, if_pos rfl]
        exact (hvalid.push msg hroom).2
      · rw [hqueue r, if_neg hr]
  · intro msg first rest hcur hpending
    have hsome : 0 < (k.queue p).count := by
      rw [hpending, List.length_cons] at hlen
      omega
    obtain ⟨k', hcall, hqueue⟩ := receiveMessage_some msg hcur hvalid hsome
    obtain ⟨rfl, rfl⟩ : first = (k.queue p).messages (k.queue p).head ∧
        rest = (k.queue p).pop.pending := by
      simpa [hpending] using (hvalid.pop hsome).2
    refine ⟨k', hcall, ?_, fun r hr => ?_⟩
    · rw [hqueue p, if_pos rfl]
    · rw [hqueue r, if_neg hr]

/-- The shell queues a message to itself and receives it. -/
theorem message_queues_shell_to_itself :
    ∃ trace k msg, ZeroQueues (shellKernel fun _ => 0) ∧
      Steps ipcStep (fun _ _ => True) (shellKernel fun _ => 0) trace k ∧
      trace.filterMap (receivedBy (.heap 0)) = [msg] ∧
      trace.filterMap (queuedBy (.heap 0)) = [msg] ++ (k.queue (.heap 0)).pending := by
  let msg : Message := ⟨1, 0, 0, 16, 2, 0, 0, 0, 0, 0, 0, 0, 0⟩
  let queue : IpcEvent := .queue (.heap 0) msg
  let receive : IpcEvent := .receive ⟨0, 0, 0, 0, 0, 0, 0, 0, 0, 0, 0, 0, 0⟩
  have hzero : ZeroQueues (shellKernel fun _ => 0) := fun _ => ⟨rfl, rfl, rfl⟩
  have hqueue : Steps ipcStep (fun _ _ => True) (shellKernel fun _ => 0)
      ([] ++ [(queue, .queued 0)]) (next ipcStep (shellKernel fun _ => 0) queue) :=
    Steps.nil.extend queue (IpcReply.queued 0) trivial rfl
  have hreceive := hqueue.extend receive (IpcReply.received (.heap 0) 0 msg) trivial rfl
  refine ⟨_, _, msg, hzero, hreceive, rfl, ?_⟩
  exact (message_queues_bounded_fifo _ hzero _ _ hreceive (.heap 0)).2.2.2.2.2.2.2.2

end Chthon
