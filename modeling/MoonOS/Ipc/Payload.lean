import MoonOS.Ipc.Ipc

/-!
# Ipc/Payload — who owns the blocks that payloads are copied to

`sys_ipc_send` allocates a block for the payload and queues a pointer to it; `sys_ipc_receive` frees
the block of the message it got.  Between the two the queue owns the block.  A `Ledger` is the part
of the kernel this is about: the queues as lists, and the blocks allocated and not freed.

Each of the three calls has a way out that does not balance.  A send that is not delivered keeps its
block; a receive frees the *first* message's block and drops the *last* message; an exit drops a
queue with everything in it.

* `Ledger.Owned.alloc`, `.deliver`, `.receive`, `.exit` — when the blocks outstanding are still
  those of the messages queued;
* `Ledger.Shows` — the vectors in the kernel's memory hold a ledger's queues, and `ipc_send`,
  `ipc_receive` and `sched_dequeue` keep to it.
-/

namespace MoonOS

/-! ## Ledgers -/

/-- A process, and the messages in its queue. -/
structure Mailbox where
  pid : BitVec 32
  queue : List IpcMessage
deriving DecidableEq

/-- The queues, the ports, and the payload blocks that have been allocated and not freed. -/
structure Ledger where
  processes : List Mailbox
  portToPid : BitVec 32 → Option (BitVec 32)
  outstanding : Multiset (BitVec 64)

/-- The block at a pointer: none, if it is null. -/
def blockAt (ptr : BitVec 64) : Multiset (BitVec 64) := if ptr = 0#64 then 0 else {ptr}

/-- The blocks a queue holds. -/
def Mailbox.payloads (b : Mailbox) : Multiset (BitVec 64) :=
  (b.queue.map fun msg => blockAt msg.payload).sum

/-- The blocks all queues hold. -/
def Ledger.held (l : Ledger) : Multiset (BitVec 64) := (l.processes.map Mailbox.payloads).sum

/-- **Every block outstanding is queued, once, and every block queued is outstanding.** -/
def Ledger.Owned (l : Ledger) : Prop := l.outstanding = l.held

instance (l : Ledger) : Decidable l.Owned := inferInstanceAs (Decidable (_ = _))

/-! ## The calls -/

/-- `alloc`, with TLSF's answer. -/
def Ledger.alloc (block : BitVec 64) (l : Ledger) : Ledger :=
  { l with outstanding := blockAt block + l.outstanding }

/-- `free`. -/
def Ledger.free (ptr : BitVec 64) (l : Ledger) : Ledger :=
  { l with outstanding := l.outstanding - blockAt ptr }

/-- The slot `ipc_send` delivers to. -/
def Ledger.target (toPort : BitVec 64) (l : Ledger) : Option ℕ :=
  (l.portToPid (toPort.setWidth 32)).bind fun pid => l.processes.findIdx? fun b => b.pid = pid

/-- The ledger with another queue in a slot. -/
def Ledger.setQueue (i : ℕ) (queue : List IpcMessage) (l : Ledger) : Ledger :=
  { l with processes := l.processes.modify i fun b => { b with queue } }

/-- The queue of a slot. -/
def Ledger.queue (i : ℕ) (l : Ledger) : List IpcMessage :=
  (l.processes[i]?.map Mailbox.queue).getD []

/-- The ledger with one more message in a queue. -/
def Ledger.deliver (i : ℕ) (message : IpcMessage) (l : Ledger) : Ledger :=
  l.setQueue i (l.queue i ++ [message])

/-- The ledger behind an erase: `ipc_receive` hands out the first message and drops the last. -/
def Ledger.receive (i : ℕ) (l : Ledger) : Ledger := l.setQueue i (l.queue i).dropLast

/-- The ledger behind another erase: `sched_dequeue` drops the last process. -/
def Ledger.exit (l : Ledger) : Ledger := { l with processes := l.processes.dropLast }

/-! ## Counting -/

section Counting

variable {l l' : Ledger} {b : Mailbox} {i : ℕ} {ptr : BitVec 64}

@[simp] theorem blockAt_eq_zero : blockAt ptr = 0 ↔ ptr = 0#64 := by
  simp [blockAt]

theorem blockAt_injective : Function.Injective blockAt := by
  intro a b hab
  by_cases ha : a = 0#64
  · rw [ha, blockAt, if_pos rfl] at hab
    rw [ha, blockAt_eq_zero.mp hab.symm]
  · by_cases hb : b = 0#64
    · rw [hb, blockAt_eq_zero.mpr rfl, blockAt_eq_zero] at hab
      exact absurd hab ha
    · simpa [blockAt, ha, hb] using hab

/-- Changing one summand of a list. -/
theorem sum_map_modify {α M : Type*} [AddCommMonoid M] (f : α → M) (g : α → α) :
    ∀ (xs : List α) {i : ℕ} {x : α}, xs[i]? = some x →
      ((xs.modify i g).map f).sum + f x = (xs.map f).sum + f (g x)
  | [], i, x, h => by simp at h
  | y :: ys, 0, x, h => by
      obtain rfl : y = x := by simpa using h
      simp only [List.modify_zero_cons, List.map_cons, List.sum_cons]
      abel
  | y :: ys, i + 1, x, h => by
      have ih := sum_map_modify f g ys (i := i) (x := x) (by simpa using h)
      simp only [List.modify_succ_cons, List.map_cons, List.sum_cons, add_assoc, ih]

/-- Changing one queue changes what is held by the difference. -/
theorem Ledger.held_setQueue (h : l.processes[i]? = some b) (queue : List IpcMessage) :
    (l.setQueue i queue).held + b.payloads = l.held + ({ b with queue } : Mailbox).payloads :=
  sum_map_modify _ _ _ h

theorem payloads_concat (pid : BitVec 32) (queue : List IpcMessage) (message : IpcMessage) :
    (⟨pid, queue ++ [message]⟩ : Mailbox).payloads
      = (⟨pid, queue⟩ : Mailbox).payloads + blockAt message.payload := by
  simp [Mailbox.payloads]

theorem blockAt_le_payloads {message : IpcMessage} (h : message ∈ b.queue) :
    blockAt message.payload ≤ b.payloads :=
  List.single_le_sum (fun _ _ => Multiset.zero_le _) _ (List.mem_map_of_mem h)

theorem payloads_le_held (h : b ∈ l.processes) : b.payloads ≤ l.held :=
  List.single_le_sum (fun _ _ => Multiset.zero_le _) _ (List.mem_map_of_mem h)

theorem Ledger.queue_eq (h : l.processes[i]? = some b) : l.queue i = b.queue := by
  rw [Ledger.queue, h, Option.map_some, Option.getD_some]

/-- A port leads to a slot of the table. -/
theorem Ledger.lt_of_target {toPort : BitVec 64} (h : l.target toPort = some i) :
    i < l.processes.length := by
  obtain ⟨pid, -, hfind⟩ := Option.bind_eq_some_iff.mp h
  exact (List.findIdx?_eq_some_iff_getElem.mp hfind).1

/-! ## One call -/

/-- **A block that no queue gets stays owned only if there is none.** -/
theorem Ledger.Owned.alloc (hl : l.Owned) (block : BitVec 64) :
    (l.alloc block).Owned ↔ block = 0#64 := by
  show blockAt block + l.outstanding = l.held ↔ _
  rw [hl, add_eq_right, blockAt_eq_zero]

/-- **One that is delivered is owned by the queue.** -/
theorem Ledger.Owned.deliver (hl : l.Owned) (hi : i < l.processes.length) (message : IpcMessage) :
    ((l.alloc message.payload).deliver i message).Owned := by
  have hslot := List.getElem?_eq_getElem hi
  have hheld := Ledger.held_setQueue hslot ((l.processes[i]).queue ++ [message])
  rw [payloads_concat, add_comm (Mailbox.payloads _), ← add_assoc, add_right_cancel_iff] at hheld
  rw [Ledger.deliver, show (l.alloc message.payload).queue i = (l.processes[i]).queue from
    queue_eq hslot]
  show blockAt message.payload + l.outstanding = (l.setQueue i _).held
  rw [hheld, hl, add_comm]

/-- The block of a message that is queued is outstanding. -/
theorem Ledger.Owned.mem_outstanding (hl : l.Owned) {message : IpcMessage}
    (hmem : message ∈ l.queue i) (hne : message.payload ≠ 0#64) :
    message.payload ∈ l.outstanding := by
  cases hslot : l.processes[i]? with
  | none => simp [Ledger.queue, hslot] at hmem
  | some b =>
    rw [queue_eq hslot] at hmem
    have hle := (blockAt_le_payloads hmem).trans (payloads_le_held (List.mem_of_getElem? hslot))
    rw [blockAt, if_neg hne, ← hl, Multiset.singleton_le] at hle
    exact hle

/-- **A receive keeps the blocks owned exactly when it frees the block of the message it drops.** -/
theorem Ledger.Owned.receive (hl : l.Owned) {x y : IpcMessage}
    (hx : (l.queue i).head? = some x) (hy : (l.queue i).getLast? = some y) :
    ((l.receive i).free x.payload).Owned ↔ x.payload = y.payload := by
  obtain ⟨b, hslot⟩ : ∃ b, l.processes[i]? = some b := by
    cases hslot : l.processes[i]? with
    | none => simp [Ledger.queue, hslot] at hx
    | some b => exact ⟨b, rfl⟩
  rw [queue_eq hslot] at hx hy
  have hheld := Ledger.held_setQueue hslot b.queue.dropLast
  have hlast : b.payloads = ({ b with queue := b.queue.dropLast } : Mailbox).payloads
      + blockAt y.payload := by
    rw [← payloads_concat, List.dropLast_append_getLast? y hy]
  rw [hlast, add_comm (Mailbox.payloads _), ← add_assoc, add_right_cancel_iff] at hheld
  have hle : blockAt x.payload ≤ l.held :=
    (blockAt_le_payloads (List.mem_of_mem_head? hx)).trans
      (payloads_le_held (List.mem_of_getElem? hslot))
  rw [Ledger.receive, queue_eq hslot]
  show l.outstanding - blockAt x.payload = (l.setQueue i b.queue.dropLast).held ↔ _
  rw [hl, tsub_eq_iff_eq_add_of_le hle, ← hheld, add_right_inj]
  exact ⟨fun h => blockAt_injective h.symm, fun h => by rw [h]⟩

/-- **An exit keeps them owned exactly when the queue it drops has none.** -/
theorem Ledger.Owned.exit (hl : l.Owned) :
    l.exit.Owned ↔ ∀ b ∈ l.processes.getLast?, ∀ message ∈ b.queue, message.payload = 0#64 := by
  cases hlast : l.processes.getLast? with
  | none =>
    obtain hnil := List.getLast?_eq_none_iff.mp hlast
    refine iff_of_true ?_ (by simp)
    rwa [Ledger.exit, show l.processes.dropLast = l.processes by simp [hnil]]
  | some b =>
    have hheld : l.held = (l.processes.dropLast.map Mailbox.payloads).sum + b.payloads := by
      conv_lhs => rw [Ledger.held, ← List.dropLast_append_getLast? b hlast]
      simp
    show l.outstanding = (l.processes.dropLast.map Mailbox.payloads).sum ↔ _
    rw [hl, hheld, add_eq_left]
    simp [Mailbox.payloads, List.sum_eq_zero_iff]

end Counting

/-! ## The queues in memory

What `ipc.c` does to the vectors in memory is what the ledger says.  A vector that has no block
yet is the placeholder all such vectors share; it is never written. -/

/-- **The kernel's queues are those of the ledger**, and no two share a block. -/
structure Ledger.Shows (l : Ledger) (k : Kernel) (caps : ℕ → ℕ) : Prop where
  pids : l.processes.map Mailbox.pid = k.sched.processes.map ExecutionSpace.pid
  ports : l.portToPid = k.portToPid
  vec : ∀ i < l.processes.length, IsVec k.mem (k.sched.get i).messageQueue (caps i)
    ((l.queue i).map IpcMessage.toWord)
  apart : ∀ i < l.processes.length, ∀ j < l.processes.length, j ≠ i → 0 < caps i →
    ByteMemory.Apart (k.sched.get j).messageQueue (16 + 32 * caps j)
      (k.sched.get i).messageQueue (16 + 32 * caps i)
  roomy : k.heap.Roomy

section Shows

variable {l : Ledger} {k : Kernel} {caps : ℕ → ℕ} {i : ℕ}

theorem Ledger.Shows.length (hs : l.Shows k caps) :
    l.processes.length = k.sched.processes.length := by
  simpa using congrArg List.length hs.pids

/-- A port leads to the same slot. -/
theorem Ledger.Shows.findIdx? (hs : l.Shows k caps) (pid : BitVec 32) :
    (l.processes.findIdx? fun b => b.pid = pid)
      = k.sched.processes.findIdx? fun es => es.pid = pid := by
  have hleft := List.findIdx?_map (p := (· = pid)) (f := Mailbox.pid) (l := l.processes)
  have hright := List.findIdx?_map (p := (· = pid)) (f := ExecutionSpace.pid)
    (l := k.sched.processes)
  rw [hs.pids] at hleft
  exact hleft.symm.trans hright

@[simp] theorem Ledger.length_setQueue (l : Ledger) (i : ℕ) (queue : List IpcMessage) :
    (l.setQueue i queue).processes.length = l.processes.length := by
  simp [Ledger.setQueue]

theorem Ledger.map_pid_setQueue (l : Ledger) (i : ℕ) (queue : List IpcMessage) :
    (l.setQueue i queue).processes.map Mailbox.pid = l.processes.map Mailbox.pid := by
  refine List.ext_getElem? fun j => ?_
  rw [Ledger.setQueue, List.getElem?_map, List.getElem?_map, List.getElem?_modify]
  split
  · rw [Option.map_eq_map, Option.map_map]
    rfl
  · rw [Option.map_eq_map, Option.map_map]
    rfl

theorem Ledger.queue_setQueue (hi : i < l.processes.length) (queue : List IpcMessage) :
    (l.setQueue i queue).queue i = queue := by
  simp [Ledger.queue, Ledger.setQueue, hi]

theorem Ledger.queue_setQueue_of_ne {j : ℕ} (hj : j ≠ i) (queue : List IpcMessage) :
    (l.setQueue i queue).queue j = l.queue j := by
  simp [Ledger.queue, Ledger.setQueue, hj.symm]

theorem Ledger.setQueue_self (l : Ledger) (i : ℕ) : l.setQueue i (l.queue i) = l := by
  have hsame : (l.processes.modify i fun b => { b with queue := l.queue i }) = l.processes := by
    refine List.ext_getElem? fun j => ?_
    rw [List.getElem?_modify]
    split
    case isTrue hij =>
      subst hij
      cases hslot : l.processes[i]? with
      | none => rfl
      | some b => simp [Ledger.queue, hslot]
    case isFalse => simp
  rw [Ledger.setQueue, hsame]

/-- Memory that changes off the queues, and blocks that are gone, change no queue. -/
theorem Ledger.Shows.frame (hs : l.Shows k caps) {a : BitVec 64} {n : ℕ} {h : Heap}
    (hsame : ByteMemory.SameOutside a n k.mem h.mem)
    (hapart : ∀ j < l.processes.length,
      ByteMemory.Apart (k.sched.get j).messageQueue (16 + 32 * caps j) a n)
    (hsuf : h.blocks <:+ k.blocks) : l.Shows (k.withHeap h) caps where
  pids := hs.pids
  ports := hs.ports
  vec j hj := (hs.vec j hj).frame hsame (hapart j hj)
  apart := hs.apart
  roomy block hblock := hs.roomy block (hsuf.subset hblock)

/-- **One queue changes inside its own block, and the others stay.** -/
theorem Ledger.Shows.update (hs : l.Shows k caps) (hi : i < l.processes.length) {h : Heap}
    (hsuf : h.blocks <:+ k.blocks) {queue : BitVec 64} {cap : ℕ} {xs : List IpcMessage}
    (hv : IsVec h.mem queue cap (xs.map IpcMessage.toWord))
    (hframe : ByteMemory.SameOutside queue (16 + 32 * cap) k.mem h.mem)
    (hapart : ∀ j < l.processes.length, j ≠ i → ByteMemory.Apart (k.sched.get j).messageQueue
      (16 + 32 * caps j) queue (16 + 32 * cap)) :
    (l.setQueue i xs).Shows ((k.withHeap h).setQueue i queue) (Function.update caps i cap) := by
  have hlt : i < k.sched.processes.length := hs.length ▸ hi
  have hself : (((k.withHeap h).setQueue i queue).sched.get i).messageQueue = queue :=
    messageQueue_setQueue (k := k.withHeap h) hlt queue
  have hother : ∀ j, j ≠ i → ((k.withHeap h).setQueue i queue).sched.get j = k.sched.get j :=
    fun j hj => Sched.get_set_of_ne hj
  refine ⟨?_, hs.ports, fun j hj => ?_, fun a ha j hj hja hcap => ?_,
    fun block hblock => hs.roomy block (hsuf.subset hblock)⟩
  · have hpid : ({ k.sched.get i with messageQueue := queue } : ExecutionSpace).pid
        = (k.sched.get i).pid := rfl
    rw [Kernel.setQueue, Sched.processes_set]
    exact (l.map_pid_setQueue i xs).trans (hs.pids.trans (map_pid_set hpid).symm)
  · rw [Ledger.length_setQueue] at hj
    by_cases hji : j = i
    · subst hji
      rw [hself, Function.update_self, Ledger.queue_setQueue hi]
      exact hv
    · rw [hother j hji, Function.update_of_ne hji, Ledger.queue_setQueue_of_ne hji]
      exact (hs.vec j hj).frame hframe (hapart j hj hji)
  · rw [Ledger.length_setQueue] at ha hj
    by_cases hai : a = i
    · subst hai
      rw [hself, hother j hja, Function.update_self, Function.update_of_ne hja]
      exact hapart j hj hja
    · rw [Function.update_of_ne hai] at hcap ⊢
      rw [hother a hai]
      by_cases hji : j = i
      · subst hji
        rw [hself, Function.update_self]
        exact (hapart a ha hai).symm (by have := hv.small; omega)
      · rw [hother j hji, Function.update_of_ne hji]
        exact hs.apart a ha j hj hja hcap

theorem Ledger.Shows.target_eq (hs : l.Shows k caps) (toPort : BitVec 64) :
    l.target toPort = (k.portToPid (toPort.setWidth 32)).bind fun pid =>
      k.sched.processes.findIdx? fun es => es.pid = pid := by
  rw [Ledger.target, hs.ports]
  exact congrArg _ (funext hs.findIdx?)

/-- Without a slot to deliver to, `ipc_send` does nothing. -/
theorem Ledger.Shows.ipcSend_of_none (hs : l.Shows k caps) {toPort : BitVec 64}
    (htarget : l.target toPort = none) (payload payloadSize : BitVec 64) :
    MoonOS.ipcSend toPort payload payloadSize k = some (none, k) := by
  rw [hs.target_eq] at htarget
  rw [MoonOS.ipcSend]
  cases hport : k.portToPid (toPort.setWidth 32) with
  | none => rfl
  | some pid =>
    rw [hport, Option.bind_some] at htarget
    simp only [htarget]

/-- **There is room for one more message**: behind the last, or in a block of twice the size that
the heap answers with. -/
def HasRoom (length cap : ℕ) (blocks : List (BitVec 64)) : Prop :=
  length < cap ∨ 8 + 32 * cap < 2 ^ 30 ∧ blocks.headD 0#64 ≠ 0#64

/-- **Where a queue is after a message was appended**: in the block it had, or in the heap's next
one. -/
def QueueBlock (queue : BitVec 64) (cap : ℕ) (blocks : List (BitVec 64)) (queue' : BitVec 64)
    (cap' : ℕ) : Prop :=
  queue' = queue ∧ cap' = cap ∧ 0 < cap
    ∨ blocks.head? = some queue' ∧ cap' = grownCap cap ∧ queue' ≠ 0#64

/-- **With a slot to deliver to, `ipc_send` appends to the queue there exactly when it has room.**
TLSF's answer has to be apart from the other queues for as long as a queue that grows asks for. -/
theorem Ledger.Shows.ipcSend_of_target (hs : l.Shows k caps) {current : ExecutionSpace}
    (hcur : schedCurrent k.sched = some current) {toPort : BitVec 64}
    (htarget : l.target toPort = some i) (payload payloadSize : BitVec 64)
    (hfresh : ∀ block ∈ k.blocks.head?, block ≠ 0#64 → ∀ j < l.processes.length, j ≠ i →
      ByteMemory.Apart (k.sched.get j).messageQueue (16 + 32 * caps j) block
        (16 + 32 * grownCap (caps i))) :
    (HasRoom (l.queue i).length (caps i) k.blocks ∧ ∃ k' cap,
        MoonOS.ipcSend toPort payload payloadSize k
          = some (some ⟨current.pid.signExtend 64, toPort, payload, payloadSize⟩, k')
        ∧ (l.deliver i ⟨current.pid.signExtend 64, toPort, payload, payloadSize⟩).Shows k'
          (Function.update caps i cap)
        ∧ (∀ j, j ≠ i → k'.sched.get j = k.sched.get j)
        ∧ QueueBlock (k.sched.get i).messageQueue (caps i) k.blocks
          (k'.sched.get i).messageQueue cap
        ∧ ByteMemory.SameOutside (k'.sched.get i).messageQueue (16 + 32 * cap) k.mem k'.mem)
      ∨ ¬ HasRoom (l.queue i).length (caps i) k.blocks ∧ ∃ k',
        MoonOS.ipcSend toPort payload payloadSize k = some (none, k') ∧ l.Shows k' caps
        ∧ k'.sched = k.sched := by
  rw [hs.target_eq] at htarget
  obtain ⟨pid, hport, hfind⟩ := Option.bind_eq_some_iff.mp htarget
  have hlt : i < k.sched.processes.length := (Sched.of_findIdx? hfind).1
  have hi : i < l.processes.length := hs.length ▸ hlt
  simp only [MoonOS.ipcSend, hport, hfind, hcur]
  generalize IpcMessage.mk _ toPort payload payloadSize = message
  have hself : ∀ (h : Heap) queue, (((k.withHeap h).setQueue i queue).sched.get i).messageQueue
      = queue := fun h => messageQueue_setQueue (k := k.withHeap h) hlt
  have hother : ∀ (h : Heap) queue j, j ≠ i →
      ((k.withHeap h).setQueue i queue).sched.get j = k.sched.get j :=
    fun h queue j hj => Sched.get_set_of_ne hj
  rcases ccVecPush_isVec (h := k.heap) (by decide) (by decide) (hs.vec i hi) hs.roomy
      message.toWord with
    ⟨queue, h, cap, hpush, hblocks, hv, hframe⟩ | ⟨h, hpush, hsuf, hmem, hfull, hwhy⟩
  · have hfits := hv.fits
    have hsmall := hv.small
    simp only [List.length_append, List.length_map, List.length_singleton] at hfits
    rw [← List.map_singleton, ← List.map_append] at hv
    rcases hblocks with ⟨rfl, rfl, hsame⟩ | ⟨hcons, rfl, hne⟩
    · -- There was room: the block is the one the queue has.
      refine .inl ⟨.inl hfits, _, caps i, by rw [hpush]; rfl,
        hs.update hi (hsame ▸ List.suffix_rfl) hv hframe fun j hj hji =>
          hs.apart i hi j hj hji (by omega), hother h _, .inl ⟨hself h _, rfl, by omega⟩, ?_⟩
      rw [hself]
      exact hframe
    · have hhead : k.blocks.head? = some queue := by rw [show k.blocks = _ from hcons]; rfl
      refine .inl ⟨.inr ⟨?_, by rwa [show k.blocks = _ from hcons]⟩, _, _, by rw [hpush]; rfl,
        hs.update hi ⟨[queue], hcons.symm⟩ hv hframe (hfresh queue hhead hne), hother h _,
        .inr ⟨by rwa [hself], rfl, by rwa [hself]⟩, ?_⟩
      · rw [grownCap] at hsmall
        split at hsmall <;> omega
      · rw [hself]
        exact hframe
  · rw [List.length_map] at hfull
    refine .inr ⟨?_, _, by rw [hpush]; rfl, ?_⟩
    · rintro (hroom | ⟨hsize, hne⟩)
      · omega
      · rcases hwhy with hbig | hnull
        · omega
        · exact hne hnull
    · rw [show (k.withHeap h).setQueue i (k.sched.get i).messageQueue = k.withHeap h from
        Kernel.setQueue_self (k := k.withHeap h) hlt]
      -- No byte has changed.
      exact ⟨hs.frame (a := 0#64) (n := 0) (fun x _ => congrFun hmem x)
        (fun j hj x hx => Nat.zero_le _) hsuf, rfl⟩

/-- **`ipc_receive` on the vectors** takes the first message and drops the last… -/
theorem Ledger.Shows.ipcReceive (hs : l.Shows k caps) (hi : i < l.processes.length) :
    ∃ ptr m', MoonOS.ipcReceive (k.sched.get i).messageQueue k.mem = (ptr, m')
      ∧ ptr.map (readMessage m') = (l.queue i).head?
      ∧ (l.receive i).Shows { k with mem := m' } caps := by
  have hv := hs.vec i hi
  have hsmall := hv.small
  have hfits := hv.fits
  rw [List.length_map] at hfits
  have hempty : ccVecSize k.mem (k.sched.get i).messageQueue = 0#64 ↔ l.queue i = [] := by
    rw [hv.size, List.length_map, ← List.length_eq_zero_iff]
    bv_omega
  -- Nothing but the queue of slot `i` changes.
  have hupdate : ∀ m' xs,
      IsVec m' (k.sched.get i).messageQueue (caps i) (xs.map IpcMessage.toWord) →
      ByteMemory.SameOutside (k.sched.get i).messageQueue (16 + 32 * caps i) k.mem m' →
      0 < caps i → (l.setQueue i xs).Shows { k with mem := m' } caps := by
    intro m' xs hv' hframe hroom
    have hshown := hs.update hi (h := ⟨m', k.blocks⟩) List.suffix_rfl hv' hframe
      fun j hj hji => hs.apart i hi j hj hji hroom
    have hself : (k.withHeap ⟨m', k.blocks⟩).setQueue i (k.sched.get i).messageQueue
        = { k with mem := m' } :=
      Kernel.setQueue_self (k := k.withHeap ⟨m', k.blocks⟩) (hs.length ▸ hi)
    rwa [hself, Function.update_eq_self] at hshown
  rw [MoonOS.ipcReceive, Ledger.receive]
  cases hqueue : l.queue i with
  | nil =>
    refine ⟨none, k.mem, if_pos (hempty.mpr hqueue), rfl, ?_⟩
    rw [List.dropLast_nil, ← hqueue, Ledger.setQueue_self]
    exact hs
  | cons x xs =>
    rw [if_neg (by rw [hempty, hqueue]; exact List.cons_ne_nil x xs)]
    have hpos : 0 < (l.queue i).length := by simp [hqueue]
    obtain ⟨hptr, hv', hfirst, hframe⟩ :=
      ccVecErase_isVec (by decide) hv (i := 0) (by rwa [List.length_map])
    refine ⟨some (ccVecErase 32 (k.sched.get i).messageQueue 0#64 k.mem).1,
      (ccVecErase 32 (k.sched.get i).messageQueue 0#64 k.mem).2, rfl, ?_,
      hupdate _ _ (by rw [← hqueue, List.map_dropLast]; exact hv') hframe (by omega)⟩
    rw [Option.map_some, readMessage, hptr, hfirst]
    simp [hqueue]

/-- The slots that an exit leaves hold what they held. -/
theorem get_schedDequeue {pid : BitVec 32} {j : ℕ}
    (hfind : k.sched.processes.findIdx? (fun es => es.pid = pid) = some i)
    (hj : j < k.sched.processes.length - 1) :
    (schedDequeue (fun processes _ => processes.dropLast) pid k.sched).2.get j
      = k.sched.get j := by
  obtain ⟨-, hproc, -, -⟩ :=
    schedDequeue_of_findIdx? (fun processes _ => processes.dropLast) hfind
  rw [Sched.get, hproc, Sched.get, List.getD_eq_getElem?_getD, List.getD_eq_getElem?_getD,
    List.getElem?_dropLast, if_pos hj, List.getElem?_eq_getElem (by omega)]
  rfl

/-- …and an exit drops the last process. -/
theorem Ledger.Shows.exit (hs : l.Shows k caps) {pid : BitVec 32}
    (hfind : k.sched.processes.findIdx? (fun es => es.pid = pid) = some i) :
    l.exit.Shows
      { k with sched := (schedDequeue (fun processes _ => processes.dropLast) pid k.sched).2 }
      caps := by
  obtain ⟨-, hproc, -, -⟩ :=
    schedDequeue_of_findIdx? (fun processes _ => processes.dropLast) hfind
  have hlen := hs.length
  have hget : ∀ j < l.processes.length - 1,
      (schedDequeue (fun processes _ => processes.dropLast) pid k.sched).2.get j
        = k.sched.get j := fun j hj => get_schedDequeue hfind (by omega)
  have hqueue : ∀ j < l.processes.length - 1,
      l.exit.queue j = l.queue j := by
    intro j hj
    rw [Ledger.queue, Ledger.queue, Ledger.exit, List.getElem?_dropLast, if_pos hj]
  refine ⟨?_, hs.ports, fun j hj => ?_, fun a ha j hj hja hcap => ?_, hs.roomy⟩
  · show l.processes.dropLast.map Mailbox.pid = _
    rw [hproc, List.map_dropLast, hs.pids, List.map_dropLast]
  · have hj' : j < l.processes.length - 1 := by simpa [Ledger.exit] using hj
    rw [hget j hj', hqueue j hj']
    exact hs.vec j (by omega)
  · have ha' : a < l.processes.length - 1 := by simpa [Ledger.exit] using ha
    have hj' : j < l.processes.length - 1 := by simpa [Ledger.exit] using hj
    rw [hget a ha', hget j hj']
    exact hs.apart a (by omega) j (by omega) hja hcap

end Shows

end MoonOS
