import MoonOS.Ds.Vec
import MoonOS.Mm.Virt
import MoonOS.Sched.Scheduler

/-!
# Ipc/Ipc — `kernel/ipc/ipc.c`, and what becomes of a message queue

A process's message queue is a `cc` vector of 32-byte messages: `ipc_send` pushes, `ipc_receive`
erases index `0` and hands out the pointer the erase returns.  The handle is passed to `ipc_receive`
by value, which is harmless, since erasing moves no vector.

A queue is meant to be a FIFO: what was sent is what was received followed by what is queued.  An
erase drops the *last* element (`ccVecErase_isVec`), so

* `fifoRun_iff` — a run of sends and receives is FIFO in every state exactly when every receive
  finds messages that are all the same.
-/

namespace MoonOS

open ByteMemory

/-! ## State -/

/-- The state of the kernel: memory, the blocks its two allocators will answer with and the lock of
one of them, the payload blocks that have been allocated and not freed, the scheduler, and the map
`port_to_pid`. -/
structure Kernel where
  mem : Mem
  blocks : List (BitVec 64)
  allocated : List (BitVec 64)
  frames : List (BitVec 64)
  pmmLock : Bool
  sched : Sched
  portToPid : BitVec 32 → Option (BitVec 32)

/-- The kernel's heap. -/
def Kernel.heap (k : Kernel) : Heap := ⟨k.mem, k.blocks⟩

/-- The kernel with the heap an operation left. -/
def Kernel.withHeap (k : Kernel) (h : Heap) : Kernel := { k with mem := h.mem, blocks := h.blocks }

/-- The kernel's memory and page allocator. -/
def Kernel.vm (k : Kernel) : Vm := ⟨k.mem, k.frames, k.pmmLock⟩

/-- The kernel with the memory and the page allocator an operation left. -/
def Kernel.withVm (k : Kernel) (vm : Vm) : Kernel :=
  { k with mem := vm.mem, frames := vm.frames, pmmLock := vm.pmmLock }

/-- The kernel with another process running. -/
def Kernel.resume (k : Kernel) (i : ℕ) : Kernel :=
  { k with sched := { k.sched with currentPidIndex := i } }

/-- The kernel with another queue in a slot. -/
def Kernel.setQueue (k : Kernel) (i : ℕ) (queue : BitVec 64) : Kernel :=
  { k with sched := k.sched.set i { k.sched.get i with messageQueue := queue } }

@[simp] theorem Kernel.mem_withHeap (k : Kernel) (h : Heap) : (k.withHeap h).mem = h.mem := rfl

@[simp] theorem Kernel.mem_setQueue (k : Kernel) (i : ℕ) (queue : BitVec 64) :
    (k.setQueue i queue).mem = k.mem := rfl

/-- `struct IpcMessage`. -/
structure IpcMessage where
  sender : BitVec 64
  receiver : BitVec 64
  payload : BitVec 64
  payloadSize : BitVec 64
deriving DecidableEq, Repr

/-- The bytes of a message, as one little-endian word. -/
def IpcMessage.toWord (msg : IpcMessage) : BitVec (8 * 32) :=
  msg.payloadSize ++ msg.payload ++ msg.receiver ++ msg.sender

/-- The message a word holds. -/
def IpcMessage.ofWord (w : BitVec (8 * 32)) : IpcMessage where
  sender := w.extractLsb' 0 64
  receiver := w.extractLsb' 64 64
  payload := w.extractLsb' 128 64
  payloadSize := w.extractLsb' 192 64

@[simp] theorem IpcMessage.ofWord_toWord (msg : IpcMessage) : ofWord msg.toWord = msg := by
  obtain ⟨sender, receiver, payload, payloadSize⟩ := msg
  simp only [toWord, ofWord, IpcMessage.mk.injEq]
  refine ⟨?_, ?_, ?_, ?_⟩
  · rw [BitVec.extractLsb'_append_eq_of_add_le (by decide), BitVec.extractLsb'_eq_self]
  · rw [BitVec.extractLsb'_append_eq_of_le (by decide),
      BitVec.extractLsb'_append_eq_of_add_le (by decide), BitVec.extractLsb'_eq_self]
  · rw [BitVec.extractLsb'_append_eq_of_le (by decide),
      BitVec.extractLsb'_append_eq_of_le (by decide),
      BitVec.extractLsb'_append_eq_of_add_le (by decide), BitVec.extractLsb'_eq_self]
  · rw [BitVec.extractLsb'_append_eq_of_le (by decide),
      BitVec.extractLsb'_append_eq_of_le (by decide),
      BitVec.extractLsb'_append_eq_of_le (by decide), BitVec.extractLsb'_eq_self]

/-! ## The functions -/

/-- `ipc_send`, with the message that went into a queue, if one did.  A port that is not assigned,
or whose process is gone, is logged and no more. -/
def ipcSend (toPort payload payloadSize : BitVec 64) (k : Kernel) :
    Option (Option IpcMessage × Kernel) :=
  match k.portToPid (toPort.setWidth 32) with
  | none => some (none, k)
  | some pid =>
    match k.sched.processes.findIdx? (fun es => es.pid = pid), schedCurrent k.sched with
    | some i, some current => do
      let message : IpcMessage :=
        { sender := current.pid.signExtend 64, receiver := toPort, payload, payloadSize }
      let (queue, pushed, h) ←
        ccVecPush 32 (k.sched.get i).messageQueue message.toWord k.heap
      some (if pushed then some message else none, (k.withHeap h).setQueue i queue)
    | _, _ => some (none, k)

/-- **`ipc_send` changes nothing, or pushes to the queue of the process its port leads to.** -/
theorem ipcSend_cases {toPort payload payloadSize : BitVec 64} {k k' : Kernel}
    {msg : Option IpcMessage} (h : ipcSend toPort payload payloadSize k = some (msg, k')) :
    (msg = none ∧ k' = k) ∨ ∃ (i : ℕ) (pid : BitVec 32) (message : IpcMessage) (queue : BitVec 64)
      (pushed : Bool) (heap : Heap), k.portToPid (toPort.setWidth 32) = some pid
        ∧ k.sched.processes.findIdx? (fun es => es.pid = pid) = some i
        ∧ ccVecPush 32 (k.sched.get i).messageQueue message.toWord k.heap
          = some (queue, pushed, heap)
        ∧ msg = (if pushed then some message else none)
        ∧ k' = (k.withHeap heap).setQueue i queue := by
  unfold ipcSend at h
  split at h
  case h_1 =>
    obtain ⟨rfl, rfl⟩ := Prod.mk.inj (Option.some.inj h)
    exact Or.inl ⟨rfl, rfl⟩
  case h_2 pid hport =>
    split at h
    case h_1 i current hfind hcur =>
      obtain ⟨⟨queue, pushed, heap⟩, hpush, hrest⟩ := Option.bind_eq_some_iff.mp h
      obtain ⟨rfl, rfl⟩ := Prod.mk.inj (Option.some.inj hrest)
      exact Or.inr ⟨i, pid, _, queue, pushed, heap, hport, hfind, hpush, rfl, rfl⟩
    case h_2 =>
      obtain ⟨rfl, rfl⟩ := Prod.mk.inj (Option.some.inj h)
      exact Or.inl ⟨rfl, rfl⟩

/-- The queue `ipc_send` pushes to. -/
def sendQueue (toPort : BitVec 64) (k : Kernel) : Option (BitVec 64) :=
  match k.portToPid (toPort.setWidth 32) with
  | none => none
  | some pid =>
    match k.sched.processes.findIdx? (fun es => es.pid = pid), schedCurrent k.sched with
    | some i, some _ => some (k.sched.get i).messageQueue
    | _, _ => none

/-- `ipc_receive`: a pointer into the queue. -/
def ipcReceive (messageQueue : BitVec 64) (m : Mem) : Option (BitVec 64) × Mem :=
  if ccVecSize m messageQueue = 0#64 then (none, m)
  else
    let (message, m) := ccVecErase 32 messageQueue 0#64 m
    (some message, m)

/-- The message at a pointer. -/
def readMessage (m : Mem) (ptr : BitVec 64) : IpcMessage := .ofWord (load m ptr 32)

/-! ## Runs on one queue -/

/-- The messages in the queue of slot `i`. -/
def queueOf (k : Kernel) (i : ℕ) : List IpcMessage :=
  (List.range (ccVecSize k.mem (k.sched.get i).messageQueue).toNat).map fun j =>
    readMessage k.mem (ccVecGet 32 (k.sched.get i).messageQueue (BitVec.ofNat 64 j))

/-- What happens to a queue: the process of some slot sends to its port, or its owner receives. -/
inductive IpcEvent
  | send (sender : ℕ) (payload payloadSize : BitVec 64)
  | receive
deriving DecidableEq

/-- One event, with the messages it sent and the messages it received. -/
def IpcEvent.apply (toPort : BitVec 64) (i : ℕ) (k : Kernel) :
    IpcEvent → Option ((List IpcMessage × List IpcMessage) × Kernel)
  | send sender payload payloadSize =>
    (ipcSend toPort payload payloadSize (k.resume sender)).map fun (msg, k) =>
      ((msg.toList, []), k)
  | receive =>
    let (ptr, m) := ipcReceive (k.sched.get i).messageQueue k.mem
    some (([], ptr.toList.map (readMessage m)), { k with mem := m })

/-- A run, with everything it sent and everything it received. -/
def queueRun (toPort : BitVec 64) (i : ℕ) :
    List IpcEvent → Kernel → Option ((List IpcMessage × List IpcMessage) × Kernel)
  | [], k => some (([], []), k)
  | e :: es, k => (e.apply toPort i k).bind fun r =>
      (queueRun toPort i es r.2).map fun r' => ((r.1.1 ++ r'.1.1, r.1.2 ++ r'.1.2), r'.2)

/-- **The queue is a FIFO in every state of a run**: what was sent is what was received, followed by
what is queued. -/
def FifoRun (toPort : BitVec 64) (i : ℕ) :
    List IpcEvent → Kernel → List IpcMessage → List IpcMessage → Prop
  | [], k, sent, received => sent = received ++ queueOf k i
  | e :: es, k, sent, received => sent = received ++ queueOf k i
      ∧ ∃ s r k', e.apply toPort i k = some ((s, r), k')
        ∧ FifoRun toPort i es k' (sent ++ s) (received ++ r)

/-- Every receive of a run finds messages that are all the same. -/
def ReceivesUniform (toPort : BitVec 64) (i : ℕ) : List IpcEvent → Kernel → Prop
  | [], _ => True
  | e :: es, k => (e = .receive → ∀ x ∈ queueOf k i, ∀ y ∈ queueOf k i, x = y)
      ∧ ∀ out k', e.apply toPort i k = some (out, k') → ReceivesUniform toPort i es k'

/-- The port leads to the process in slot `i`, and the heap has room above its blocks. -/
structure OwnsPort (toPort : BitVec 64) (i : ℕ) (k : Kernel) : Prop where
  owner : ∃ pid, k.portToPid (toPort.setWidth 32) = some pid
    ∧ k.sched.processes.findIdx? (fun es => es.pid = pid) = some i
  roomy : k.heap.Roomy

/-- The queue of slot `i` is a vector of `xs`. -/
def IsQueue (k : Kernel) (i : ℕ) (xs : List IpcMessage) : Prop :=
  ∃ cap, IsVec k.mem (k.sched.get i).messageQueue cap (xs.map IpcMessage.toWord)

section Queue

variable {k : Kernel} {toPort : BitVec 64} {i : ℕ} {xs : List IpcMessage}

theorem IsQueue.queueOf_eq (h : IsQueue k i xs) : queueOf k i = xs := by
  obtain ⟨cap, hv⟩ := h
  have hsmall := hv.small
  have hfits := hv.fits
  rw [List.length_map] at hfits
  have hsize : (ccVecSize k.mem (k.sched.get i).messageQueue).toNat = xs.length := by
    rw [hv.size, List.length_map, BitVec.toNat_ofNat, Nat.mod_eq_of_lt (by omega)]
  refine List.ext_getElem (by simp [queueOf, hsize]) fun j hj hj' => ?_
  simp only [queueOf, List.getElem_map, List.getElem_range]
  rw [ccVecGet_ofNat (by omega), readMessage, hv.get j (by simpa using hj')]
  simp

/-- Another queue in the slot leaves the port with its process. -/
theorem OwnsPort.setQueue (hk : OwnsPort toPort i k) {h : Heap} (hsuf : h.blocks <:+ k.blocks)
    (queue : BitVec 64) : OwnsPort toPort i ((k.withHeap h).setQueue i queue) := by
  obtain ⟨⟨pid, hport, hslot⟩, hroomy⟩ := hk
  refine ⟨⟨pid, hport, ?_⟩, fun b hb => hroomy b (hsuf.subset hb)⟩
  rw [Kernel.setQueue, Sched.processes_set]
  have hpid : ({ k.sched.get i with messageQueue := queue } : ExecutionSpace).pid
      = (k.sched.get i).pid := rfl
  exact (findIdx?_set hpid pid).trans hslot

theorem OwnsPort.lt (hk : OwnsPort toPort i k) : i < k.sched.processes.length := by
  obtain ⟨pid, -, hslot⟩ := hk.owner
  exact (Sched.of_findIdx? hslot).1

theorem messageQueue_setQueue (hi : i < k.sched.processes.length) (queue : BitVec 64) :
    ((k.setQueue i queue).sched.get i).messageQueue = queue :=
  congrArg ExecutionSpace.messageQueue (Sched.get_set_self hi)

/-- The queue a slot has, put there again. -/
theorem Kernel.setQueue_self (hi : i < k.sched.processes.length) :
    k.setQueue i (k.sched.get i).messageQueue = k := by
  show { k with sched := k.sched.set i (k.sched.get i) } = k
  rw [Sched.set_get_self hi]

/-- **`ipc_send` appends the message it pushes.** -/
theorem IsQueue.ipcSend (hk : OwnsPort toPort i k) (hq : IsQueue k i xs)
    (payload payloadSize : BitVec 64) :
    ∃ msg k', ipcSend toPort payload payloadSize k = some (msg, k')
      ∧ OwnsPort toPort i k' ∧ IsQueue k' i (xs ++ msg.toList) := by
  obtain ⟨pid, hport, hslot⟩ := hk.owner
  obtain ⟨cap, hv⟩ := hq
  have hi := hk.lt
  have hcur : schedCurrent k.sched = some (k.sched.get k.sched.currentPidIndex) :=
    if_neg (by omega)
  simp only [MoonOS.ipcSend, hport, hslot, hcur]
  generalize IpcMessage.mk _ toPort payload payloadSize = msg
  rcases ccVecPush_isVec (h := k.heap) (by decide) (by decide) hv hk.roomy msg.toWord with
    ⟨cntr, h, cap', hpush, hblocks, hv', -⟩ | ⟨h, hpush, hsuf, hmem, -⟩
  · have hsuf : h.blocks <:+ k.blocks := by
      rcases hblocks with ⟨-, -, hsame⟩ | ⟨hcons, -⟩
      · exact hsame ▸ List.suffix_rfl
      · exact ⟨[cntr], hcons.symm⟩
    refine ⟨some msg, _, by rw [hpush]; rfl, hk.setQueue hsuf cntr, cap', ?_⟩
    rw [messageQueue_setQueue (k := k.withHeap h) hi]
    simpa using hv'
  · refine ⟨none, _, by rw [hpush]; rfl, hk.setQueue hsuf _, cap, ?_⟩
    rw [messageQueue_setQueue (k := k.withHeap h) hi]
    simpa [show h.mem = k.mem from hmem] using hv

/-- **A receive takes the first message and drops the last.** -/
theorem IsQueue.receive (hk : OwnsPort toPort i k) (hq : IsQueue k i xs) :
    ∃ k', IpcEvent.receive.apply toPort i k = some (([], xs.head?.toList), k')
      ∧ OwnsPort toPort i k' ∧ IsQueue k' i xs.dropLast := by
  obtain ⟨cap, hv⟩ := hq
  have hsmall := hv.small
  have hfits := hv.fits
  rw [List.length_map] at hfits
  have hempty : ccVecSize k.mem (k.sched.get i).messageQueue = 0#64 ↔ xs = [] := by
    rw [hv.size, List.length_map, ← List.length_eq_zero_iff]
    bv_omega
  cases xs with
  | nil =>
    refine ⟨k, ?_, hk, cap, hv⟩
    simp [IpcEvent.apply, ipcReceive, hempty.mpr rfl]
  | cons x xs =>
    obtain ⟨hptr, hv', hfirst, -⟩ := ccVecErase_isVec (by decide) hv (i := 0) (by simp)
    have hread : readMessage (ccVecErase 32 (k.sched.get i).messageQueue 0#64 k.mem).2
        (ccVecErase 32 (k.sched.get i).messageQueue 0#64 k.mem).1 = x := by
      rw [readMessage, hptr, hfirst]
      simp
    refine ⟨{ k with mem := (ccVecErase 32 (k.sched.get i).messageQueue 0#64 k.mem).2 }, ?_,
      ⟨hk.owner, hk.roomy⟩, cap, by simpa using hv'⟩
    simp only [IpcEvent.apply, ipcReceive, if_neg (mt hempty.mp (List.cons_ne_nil x xs))]
    simp [hread]

/-! ## When a run is FIFO -/

/-- Taking the first and dropping the last of a list are the same thing only if all are the same. -/
theorem dropLast_eq_iff {α : Type*} (x : α) (xs : List α) :
    (x :: xs).dropLast = xs ↔ ∀ y ∈ xs, y = x := by
  induction xs generalizing x with
  | nil => simp
  | cons y ys ih =>
    rw [List.dropLast_cons_cons, List.cons.injEq, ih]
    constructor
    · rintro ⟨rfl, h⟩
      simpa using h
    · intro h
      obtain rfl : y = x := h y (by simp)
      exact ⟨rfl, fun z hz => h z (by simp [hz])⟩

/-- A receive that keeps the queue a FIFO finds messages that are all the same. -/
theorem head?_append_dropLast_iff {α : Type*} (xs : List α) :
    xs.head?.toList ++ xs.dropLast = xs ↔ ∀ x ∈ xs, ∀ y ∈ xs, x = y := by
  cases xs with
  | nil => simp
  | cons x xs =>
    rw [List.head?_cons, Option.toList_some, List.singleton_append, List.cons.injEq,
      eq_self, true_and, dropLast_eq_iff]
    constructor
    · intro h a ha b hb
      have hx : ∀ c ∈ x :: xs, c = x := fun c hc => (List.mem_cons.mp hc).elim id (h c)
      rw [hx a ha, hx b hb]
    · exact fun h y hy => h y (by simp [hy]) x (by simp)

theorem FifoRun.now {es : List IpcEvent} {sent received : List IpcMessage}
    (h : FifoRun toPort i es k sent received) : sent = received ++ queueOf k i := by
  cases es with
  | nil => exact h
  | cons => exact h.1

/-- …and so is the last state of the run. -/
theorem FifoRun.last {es : List IpcEvent} {sent received : List IpcMessage}
    (h : FifoRun toPort i es k sent received) :
    ∃ s r k', queueRun toPort i es k = some ((s, r), k')
      ∧ sent ++ s = received ++ r ++ queueOf k' i := by
  induction es generalizing k sent received with
  | nil => exact ⟨[], [], k, rfl, by simpa using h.now⟩
  | cons e es ih =>
    obtain ⟨-, s, r, k₁, hstep, hrun⟩ := h
    obtain ⟨s', r', k', hrest, hlast⟩ := ih hrun
    refine ⟨s ++ s', r ++ r', k', ?_, by simpa using hlast⟩
    rw [queueRun, hstep, Option.bind_some, hrest]
    rfl

/-- The induction: from a state that is FIFO. -/
theorem IsQueue.fifoRun_iff_of_eq (es : List IpcEvent) (hk : OwnsPort toPort i k)
    (hq : IsQueue k i xs)
    {sent received : List IpcMessage} (hfifo : sent = received ++ xs) :
    FifoRun toPort i es k sent received ↔ ReceivesUniform toPort i es k := by
  induction es generalizing k xs sent received with
  | nil => simpa [FifoRun, ReceivesUniform, hq.queueOf_eq] using hfifo
  | cons e es ih =>
    rw [FifoRun, ReceivesUniform, hq.queueOf_eq]
    cases e with
    | send sender payload payloadSize =>
      obtain ⟨msg, k', hsend, hk', hq'⟩ :=
        IsQueue.ipcSend (k := k.resume sender) ⟨hk.owner, hk.roomy⟩ hq payload payloadSize
      have hstep : (IpcEvent.send sender payload payloadSize).apply toPort i k
          = some ((msg.toList, []), k') := by
        rw [IpcEvent.apply, hsend]
        rfl
      have hnext : FifoRun toPort i es k' (sent ++ msg.toList) received
          ↔ ReceivesUniform toPort i es k' := ih hk' hq' (by simp [hfifo])
      simp [hstep, hfifo, ← hnext]
    | receive =>
      obtain ⟨k', hstep, hk', hq'⟩ := hq.receive hk
      constructor
      · rintro ⟨-, s, r, k₁, hstep₁, hrun⟩
        obtain ⟨⟨rfl, rfl⟩, rfl⟩ : (s = [] ∧ r = xs.head?.toList) ∧ k₁ = k' := by
          simpa [Prod.ext_iff, eq_comm] using hstep₁.symm.trans hstep
        -- The next state is FIFO as well, and says what the receive found.
        have hnow := hrun.now
        rw [hq'.queueOf_eq, hfifo, List.append_nil, List.append_assoc] at hnow
        have hall := List.append_cancel_left hnow
        refine ⟨fun _ => (head?_append_dropLast_iff xs).mp hall.symm, fun out k₂ h => ?_⟩
        obtain ⟨-, rfl⟩ := Prod.mk.inj (Option.some.inj (hstep.symm.trans h))
        exact (ih hk' hq' (hq'.queueOf_eq ▸ hrun.now)).mp hrun
      · rintro ⟨huniform, hnext⟩
        refine ⟨hfifo, _, _, k', hstep, (ih hk' hq' ?_).mpr (hnext _ _ hstep)⟩
        rw [List.append_nil, List.append_assoc,
          (head?_append_dropLast_iff xs).mpr (huniform rfl), hfifo]

/-- **A queue that starts empty is a FIFO in every state of a run exactly when every receive of the
run finds messages that are all the same.** -/
theorem fifoRun_iff (hk : OwnsPort toPort i k) (hq : IsQueue k i []) (es : List IpcEvent) :
    FifoRun toPort i es k [] [] ↔ ReceivesUniform toPort i es k :=
  hq.fifoRun_iff_of_eq es hk rfl

end Queue

/-- One process, pid `0`, that has just been given port `0`: its queue is the vectors'
placeholder. -/
def oneProcess : Kernel where
  mem _ := 0#8
  blocks := [0xffff800010000000#64]
  allocated := []
  frames := []
  pmmLock := false
  sched :=
    { processes := [{ processOf 0#32 with port := 0#32, messageQueue := 0xffffffff80200000#64 }]
      beyond _ := default
      currentPidIndex := 0
      nextAvailablePid := 1 }
  portToPid port := if port = 0#32 then some 0#32 else none

theorem ownsPort_oneProcess : OwnsPort 0#64 0 oneProcess where
  owner := ⟨0#32, by decide, by decide⟩
  roomy := by simp [Heap.Roomy, Kernel.heap, oneProcess]

theorem isQueue_oneProcess : IsQueue oneProcess 0 [] :=
  ⟨0, by decide +kernel, by decide +kernel, by decide, by decide, by decide,
    fun _ h => absurd h (by simp)⟩

/-- One message, received before the next is sent. -/
theorem fifoRun_oneProcess :
    FifoRun 0#64 0 [.send 0 0x1000#64 8#64, .receive] oneProcess [] [] := by
  refine (fifoRun_iff ownsPort_oneProcess isQueue_oneProcess _).mpr
    ⟨nofun, fun out k hsend => ⟨fun _ => ?_, fun _ _ _ => trivial⟩⟩
  have hqueue : ((IpcEvent.send 0 0x1000#64 8#64).apply 0#64 0 oneProcess).map
      (fun r => queueOf r.2 0) = some [⟨0, 0, 0x1000#64, 8#64⟩] := by decide +kernel
  rw [hsend, Option.map_some] at hqueue
  rw [Option.some.inj hqueue]
  simp

/-- Two messages are sent and one is received: the first is still queued, and the second is gone. -/
theorem not_fifoRun_oneProcess :
    ¬ FifoRun 0#64 0 [.send 0 0x1000#64 8#64, .send 0 0x2000#64 8#64, .receive]
      oneProcess [] [] := by
  intro h
  obtain ⟨s, r, k, hrun, hlast⟩ := h.last
  have hbad : (queueRun 0#64 0 [.send 0 0x1000#64 8#64, .send 0 0x2000#64 8#64, .receive]
      oneProcess).map (fun r => decide (r.1.1 = r.1.2 ++ queueOf r.2 0)) = some false := by
    decide +kernel
  rw [hrun, Option.map_some] at hbad
  exact of_decide_eq_false (Option.some.inj hbad) hlast

end MoonOS
