import MoonOS.Abi.Dispatch
import MoonOS.Ipc.Payload

/-!
# Abi/Send — the payload `sys_ipc_send` copies, and the status it returns

`sys_ipc_send` asks the heap for a block, copies the payload there and hands the block to
`ipc_send`.  The size is 64 bits wide; `alloc` takes an `int`, and its answer is not looked at.
`ipc_send` is `void`, and so the status is `0` whatever came of it.

* `payloadConfined_iff` — the copy stays in its block exactly when the size is below `2 ^ 31` and
  the heap has a block;
* `sendTruthful_iff` — the status is true exactly when the message arrives.
-/

namespace MoonOS

open ByteMemory

/-! ## The block -/

/-- A block in the upper half. -/
structure InKernel (a : BitVec 64) (n : ℕ) : Prop where
  upper : 2 ^ 63 ≤ a.toNat
  inside : a.toNat + n ≤ 2 ^ 64

theorem InKernel.ne_null {a : BitVec 64} {n : ℕ} (h : InKernel a n) : a ≠ 0#64 := fun hz => by
  have hupper := h.upper
  simp [hz] at hupper

/-- It is apart from everything in the lower half. -/
theorem InKernel.apart {a u : BitVec 64} {n w : ℕ} (h : InKernel a n) (hu : u.toNat + w ≤ 2 ^ 63) :
    Apart u w a n := by
  obtain ⟨hupper, hinside⟩ := h
  intro j hj
  rw [BitVec.toNat_sub, toNat_at' (by omega)]
  omega

/-- **What is assumed of TLSF's answer**: a block holds what was asked for, the size `alloc` is
given as an `int`, and less than `block_size_max`. -/
structure BlockHolds (size : BitVec 64) (held : ℕ) : Prop where
  asked : (size.setWidth 32).toNat ≤ held
  bounded : held < 2 ^ 32

theorem BlockHolds.le {size : BitVec 64} {held : ℕ} (h : BlockHolds size held)
    (hsize : size.toNat < 2 ^ 31) : size.toNat ≤ held := by
  have hasked := h.asked
  rw [BitVec.toNat_setWidth] at hasked
  omega

/-- The memory with the payload copied to the block `alloc` answered with. -/
def copiedPayload (buff : BitVec 64) (k : Kernel) : Mem :=
  let size := userPayloadSize k.mem buff
  memcpy k.mem (alloc size k.heap).1 (userPayload k.mem buff) size.toNat

section Block

variable {size buff toPort : BitVec 64} {k k' : Kernel} {h : Heap}

/-- A size that is no negative `int` takes the next answer… -/
theorem alloc_of_not_msb (hmsb : (size.setWidth 32).msb = false) :
    alloc size h = (h.blocks.headD 0#64, ⟨h.mem, h.blocks.tail⟩) := by
  obtain ⟨m, blocks⟩ := h
  rw [alloc, realloc, if_neg (by simp [hmsb])]
  cases blocks with
  | nil => rfl
  | cons block blocks =>
    by_cases hz : block = 0#64
    · simp [hz]
    · have hcopy : copy m block 0#64 0 = m := by
        funext b
        simp [copy]
      simp [hz, hcopy]

/-- …and another has none. -/
theorem alloc_of_msb (hmsb : (size.setWidth 32).msb = true) : alloc size h = (0#64, h) := by
  rw [alloc, realloc, if_pos hmsb]

theorem msb_setWidth_of_lt (hsize : size.toNat < 2 ^ 31) : (size.setWidth 32).msb = false := by
  rw [BitVec.msb_eq_false_iff_two_mul_lt, BitVec.toNat_setWidth]
  omega

/-- A block that holds the whole payload is no answer to a negative `int`. -/
theorem BlockHolds.lt_of_alloc {held : ℕ} (hheld : BlockHolds size held) (hle : size.toNat ≤ held)
    (hblock : (alloc size h).1 ≠ 0#64 ∨ size = 0#64) : size.toNat < 2 ^ 31 := by
  have hbounded := hheld.bounded
  rcases hblock with hblock | rfl
  · have hmsb : (size.setWidth 32).msb = false := by
      by_contra hmsb
      exact hblock (congrArg Prod.fst (alloc_of_msb (by simpa using hmsb)))
    rw [BitVec.msb_eq_false_iff_two_mul_lt, BitVec.toNat_setWidth] at hmsb
    omega
  · decide

/-- **What comes of a send from a user address**: without a block for the bytes there are, the copy
faults; with one, the status is `0`. -/
theorem result_sysIpcSend (toPort : BitVec 64) (huser : isUserAddress buff = true) :
    (sysIpcSend toPort buff k).result
      = if (alloc (userPayloadSize k.mem buff) k.heap).1 = 0#64 ∧ userPayloadSize k.mem buff ≠ 0#64
        then .stopped
        else match ipcSend toPort (alloc (userPayloadSize k.mem buff) k.heap).1
            (userPayloadSize (copiedPayload buff k) buff)
            ((k.withHeap ⟨copiedPayload buff k,
              (alloc (userPayloadSize k.mem buff) k.heap).2.blocks⟩).withPayload
                (alloc (userPayloadSize k.mem buff) k.heap).1) with
          | none => .stopped
          | some (_, k') => .returned 0#32 k' := by
  have hmem : (alloc (userPayloadSize k.mem buff) k.heap).2.mem = k.mem := mem_alloc _ k.heap
  rw [sysIpcSend, if_neg (by simp [huser])]
  dsimp only
  rw [hmem]
  split <;> rfl

/-- What it writes on its own account: the bytes of the payload, to the block. -/
theorem own_sysIpcSend (toPort : BitVec 64) (huser : isUserAddress buff = true) :
    (sysIpcSend toPort buff k).own
      = [⟨true, (alloc (userPayloadSize k.mem buff) k.heap).1,
        (userPayloadSize k.mem buff).toNat⟩] := by
  rw [sysIpcSend, if_neg (by simp [huser])]
  dsimp only
  split <;> rfl

/-- So the status is no other. -/
theorem status_sysIpcSend (huser : isUserAddress buff = true) {status : BitVec 32}
    (h : (sysIpcSend toPort buff k).result = .returned status k') : status = 0#32 := by
  rw [result_sysIpcSend toPort huser] at h
  split at h
  · cases h
  · split at h
    · cases h
    · exact (SysResult.returned.inj h).1.symm

end Block

/-! ## The copy -/

/-- **The payload copy stays in its block**: it writes no more bytes than the block holds, and when
there is no block it writes none and the call says so. -/
structure PayloadConfined (held : ℕ) (args : SyscallArgs) (k : Kernel) : Prop where
  inside : ∀ a ∈ (Syscall.ipcSend.run args k).own, a.addr ≠ 0#64 → a.len ≤ held
  failed : ∀ a ∈ (Syscall.ipcSend.run args k).own, a.addr = 0#64 →
    a.len = 0 ∧ ∃ status k', (Syscall.ipcSend.run args k).result = .returned status k'
      ∧ status ≠ 0#32

/-- **The copy stays in its block exactly when the address is refused, or the size is below `2 ^ 31`
and the heap has a block for it.** -/
theorem payloadConfined_iff (args : SyscallArgs) (k : Kernel) {held : ℕ}
    (hheld : BlockHolds (userPayloadSize k.mem args.arg1) held) :
    PayloadConfined held args k
      ↔ (isUserAddress args.arg1 = true → (userPayloadSize k.mem args.arg1).toNat < 2 ^ 31
        ∧ k.blocks.headD 0#64 ≠ 0#64) := by
  by_cases huser : isUserAddress args.arg1 = true
  · have hown : (Syscall.ipcSend.run args k).own
        = [⟨true, (alloc (userPayloadSize k.mem args.arg1) k.heap).1,
          (userPayloadSize k.mem args.arg1).toNat⟩] := own_sysIpcSend args.arg0 huser
    simp only [huser, forall_const]
    constructor
    · rintro ⟨hinside, hfailed⟩
      simp only [hown, List.mem_singleton, forall_eq] at hinside hfailed
      -- A call from a user address never reports a failure, so there was a block.
      have hblock : (alloc (userPayloadSize k.mem args.arg1) k.heap).1 ≠ 0#64 := fun hnull => by
        obtain ⟨-, status, k', hresult, hstatus⟩ := hfailed hnull
        exact hstatus (status_sysIpcSend huser hresult)
      have hsize := hheld.lt_of_alloc (hinside hblock) (.inl hblock)
      rw [alloc_of_not_msb (msb_setWidth_of_lt hsize)] at hblock
      exact ⟨hsize, hblock⟩
    · rintro ⟨hsize, hblock⟩
      have halloc : (alloc (userPayloadSize k.mem args.arg1) k.heap).1 = k.blocks.headD 0#64 :=
        congrArg Prod.fst (alloc_of_not_msb (msb_setWidth_of_lt hsize))
      refine ⟨?_, ?_⟩
      · simp only [hown, List.mem_singleton, forall_eq]
        exact fun _ => hheld.le hsize
      · simp only [hown, List.mem_singleton, forall_eq, halloc]
        exact fun hnull => absurd hnull hblock
  · have hown : (Syscall.ipcSend.run args k).own = [] := by
      rw [Syscall.run, sysIpcSend, if_pos (by simpa using huser)]
    refine iff_of_true ⟨?_, ?_⟩ fun h => absurd h huser
    · simp [hown]
    · simp [hown]

/-- The heap answers with a block of 24 bytes for eight. -/
theorem blockHolds_eightBytes : BlockHolds (userPayloadSize eightBytes.mem 0x2000#64) 24 := by
  rw [show userPayloadSize eightBytes.mem 0x2000#64 = 8#64 by decide +kernel]
  exact ⟨by decide, by decide⟩

/-- The init process says that there are `2 ^ 32 + 8` bytes. -/
def manyBytes : Kernel :=
  { oneProcess with
    mem := store (store oneProcess.mem 0x2010#64 8 0x3000#64) 0x2018#64 8 0x100000008#64 }

theorem payloadConfined_eightBytes :
    BlockHolds (userPayloadSize eightBytes.mem 0x2000#64) 24
      ∧ PayloadConfined 24 ⟨0, 0x2000#64, 0, 0, 0, 0⟩ eightBytes := by
  have hsize : userPayloadSize eightBytes.mem 0x2000#64 = 8#64 := by decide +kernel
  refine ⟨blockHolds_eightBytes, (payloadConfined_iff ⟨0, 0x2000#64, 0, 0, 0, 0⟩ eightBytes
    blockHolds_eightBytes).mpr fun _ => ?_⟩
  dsimp only
  rw [hsize]
  exact ⟨by decide, by decide⟩

/-- **The block is made for 8 bytes, and the copy writes `2 ^ 32 + 8`.** -/
theorem not_payloadConfined_manyBytes :
    BlockHolds (userPayloadSize manyBytes.mem 0x2000#64) 24
      ∧ ¬ PayloadConfined 24 ⟨0, 0x2000#64, 0, 0, 0, 0⟩ manyBytes := by
  have hsize : userPayloadSize manyBytes.mem 0x2000#64 = 0x100000008#64 := by decide +kernel
  have hown : (Syscall.ipcSend.run ⟨0, 0x2000#64, 0, 0, 0, 0⟩ manyBytes).own
      = [⟨true, 0xffff800010000000#64, 0x100000008⟩] := by
    have halloc : (alloc 0x100000008#64 manyBytes.heap).1 = 0xffff800010000000#64 := by decide
    have hown := own_sysIpcSend (k := manyBytes) 0#64
      (show isUserAddress 0x2000#64 = true by decide)
    rwa [hsize, halloc] at hown
  refine ⟨by rw [hsize]; exact ⟨by decide, by decide⟩, fun h => ?_⟩
  exact absurd (h.inside ⟨true, 0xffff800010000000#64, 0x100000008⟩
    (by rw [hown]; exact List.mem_singleton_self _) (by decide)) (by decide)

/-! ## The status -/

/-- **What is assumed of the heap**: its next two answers are the kernel's memory, off the queues
and off each other. -/
structure HeapApart (l : Ledger) (caps : ℕ → ℕ) (held : ℕ) (toPort : BitVec 64) (k : Kernel) :
    Prop where
  kernel : ∀ block ∈ k.blocks.head?, block ≠ 0#64 → InKernel block held
  queues : ∀ block ∈ k.blocks.head?, block ≠ 0#64 → ∀ j < l.processes.length,
    Apart (k.sched.get j).messageQueue (16 + 32 * caps j) block held
  grown : ∀ i, l.target toPort = some i → ∀ next ∈ k.blocks.tail.head?, next ≠ 0#64 →
    (∀ j < l.processes.length, j ≠ i → Apart (k.sched.get j).messageQueue (16 + 32 * caps j) next
      (16 + 32 * grownCap (caps i)))
    ∧ ∀ block ∈ k.blocks.head?, Apart block held next (16 + 32 * grownCap (caps i))

section Status

variable {l : Ledger} {caps : ℕ → ℕ} {held : ℕ} {toPort buff : BitVec 64} {k k' : Kernel} {i : ℕ}

theorem mem_head?_of_headD_ne {blocks : List (BitVec 64)} (h : blocks.headD 0#64 ≠ 0#64) :
    blocks.headD 0#64 ∈ blocks.head? := by
  cases blocks with
  | nil => exact absurd rfl h
  | cons block blocks => rfl

/-- A block that is allocated or freed moves no queue. -/
theorem Ledger.Shows.withAllocated (hs : l.Shows k caps) (allocated : List (BitVec 64)) :
    l.Shows { k with allocated } caps :=
  ⟨hs.pids, hs.ports, hs.vec, hs.apart, hs.roomy⟩

theorem Ledger.Shows.withPayload (hs : l.Shows k caps) (payload : BitVec 64) :
    l.Shows (k.withPayload payload) caps :=
  hs.withAllocated _

/-- With the payload copied the queues are as they were, and the message says the same size. -/
theorem Ledger.Shows.copiedPayload (hs : l.Shows k caps)
    (hheld : BlockHolds (userPayloadSize k.mem buff) held) (hheap : HeapApart l caps held toPort k)
    (huser : isUserAddress buff = true) (hsize : (userPayloadSize k.mem buff).toNat < 2 ^ 31)
    (hblock : userPayloadSize k.mem buff = 0#64 ∨ k.blocks.headD 0#64 ≠ 0#64) :
    l.Shows (k.withHeap ⟨MoonOS.copiedPayload buff k, k.blocks.tail⟩) caps
      ∧ userPayloadSize (MoonOS.copiedPayload buff k) buff = userPayloadSize k.mem buff := by
  have hle := hheld.le hsize
  have hframe : SameOutside (k.blocks.headD 0#64) (userPayloadSize k.mem buff).toNat k.mem
      (MoonOS.copiedPayload buff k) := by
    rw [MoonOS.copiedPayload, alloc_of_not_msb (msb_setWidth_of_lt hsize)]
    exact sameOutside_memcpy _ _ _ _
  -- An empty payload is apart from everything, and any other has a block.
  have hapart : ∀ {a : BitVec 64} {n : ℕ}, (∀ block ∈ k.blocks.head?, block ≠ 0#64 →
      Apart a n block held) →
      Apart a n (k.blocks.headD 0#64) (userPayloadSize k.mem buff).toNat := by
    intro a n hoff
    rcases hblock with hzero | hne
    · rw [hzero]
      exact fun _ _ => Nat.zero_le _
    · exact (hoff _ (mem_head?_of_headD_ne hne) hne).mono hle
  refine ⟨hs.frame hframe
    (fun j hj => hapart fun block hmem hne => hheap.queues block hmem hne j hj)
    (List.tail_suffix _), hframe.load (hapart fun block hmem hne => ?_)⟩
  obtain ⟨-, hbuff⟩ := isUserAddress_iff.mp huser
  exact (hheap.kernel block hmem hne).apart (by rw [toNat_at' (by omega)]; omega)

/-- `ipc_send` allocates no payload. -/
theorem allocated_of_ipcSend {payload size : BitVec 64} {msg : Option IpcMessage}
    (h : ipcSend toPort payload size k = some (msg, k')) : k'.allocated = k.allocated := by
  obtain ⟨-, rfl⟩ | ⟨i, pid, message, queue, pushed, heap, -, -, -, -, rfl⟩ := ipcSend_cases h <;>
    rfl

/-- **A send to a slot**: what is appended is the block of the payload, if there is room. -/
theorem Ledger.Shows.sysIpcSend_of_target (hs : l.Shows k caps)
    (hheld : BlockHolds (userPayloadSize k.mem buff) held) (hheap : HeapApart l caps held toPort k)
    (huser : isUserAddress buff = true) (hsize : (userPayloadSize k.mem buff).toNat < 2 ^ 31)
    (hblock : userPayloadSize k.mem buff = 0#64 ∨ k.blocks.headD 0#64 ≠ 0#64)
    (htarget : l.target toPort = some i) {current : ExecutionSpace}
    (hcur : schedCurrent k.sched = some current) :
    (HasRoom (l.queue i).length (caps i) k.blocks.tail ∧ ∃ k' cap,
        (MoonOS.sysIpcSend toPort buff k).result = .returned 0#32 k'
        ∧ k'.allocated = (k.withPayload (k.blocks.headD 0#64)).allocated
        ∧ (l.deliver i ⟨current.pid.signExtend 64, toPort, k.blocks.headD 0#64,
            userPayloadSize k.mem buff⟩).Shows k' (Function.update caps i cap)
        ∧ (∀ j, j ≠ i → k'.sched.get j = k.sched.get j)
        ∧ QueueBlock (k.sched.get i).messageQueue (caps i) k.blocks.tail
          (k'.sched.get i).messageQueue cap
        ∧ SameOutside (k'.sched.get i).messageQueue (16 + 32 * cap) (MoonOS.copiedPayload buff k)
          k'.mem)
      ∨ ¬ HasRoom (l.queue i).length (caps i) k.blocks.tail ∧ ∃ k',
        (MoonOS.sysIpcSend toPort buff k).result = .returned 0#32 k'
        ∧ k'.allocated = (k.withPayload (k.blocks.headD 0#64)).allocated ∧ l.Shows k' caps
        ∧ k'.sched = k.sched := by
  obtain ⟨hshows, hread⟩ := hs.copiedPayload hheld hheap huser hsize hblock
  have halloc : MoonOS.alloc (userPayloadSize k.mem buff) k.heap
      = (k.blocks.headD 0#64, ⟨k.mem, k.blocks.tail⟩) :=
    alloc_of_not_msb (msb_setWidth_of_lt hsize)
  have hallocated : ∀ {msg k'}, ipcSend toPort (k.blocks.headD 0#64) (userPayloadSize k.mem buff)
      ((k.withHeap ⟨MoonOS.copiedPayload buff k, k.blocks.tail⟩).withPayload (k.blocks.headD 0#64))
        = some (msg, k') → k'.allocated = (k.withPayload (k.blocks.headD 0#64)).allocated :=
    fun hsend => (allocated_of_ipcSend hsend).trans rfl
  rw [result_sysIpcSend toPort huser, halloc, hread, if_neg (by tauto)]
  rcases (hshows.withPayload (k.blocks.headD 0#64)).ipcSend_of_target hcur htarget
      (k.blocks.headD 0#64) (userPayloadSize k.mem buff)
      (fun next hmem hne j hj hji => (hheap.grown i htarget next hmem hne).1 j hj hji) with
    ⟨hroom, k', cap, hsend, hsent⟩ | ⟨hroom, k', hsend, hkept⟩
  · exact .inl ⟨hroom, k', cap, by rw [hsend], hallocated hsend, hsent⟩
  · exact .inr ⟨hroom, k', by rw [hsend], hallocated hsend, hkept⟩

/-- The block of the payload is off the queue, wherever that is. -/
theorem HeapApart.queue_apart (hheap : HeapApart l caps held toPort k) (hheld : held < 2 ^ 32)
    (htarget : l.target toPort = some i) (hblock : k.blocks.headD 0#64 ≠ 0#64) {queue : BitVec 64}
    {cap : ℕ} (hqueue : QueueBlock (k.sched.get i).messageQueue (caps i) k.blocks.tail queue cap) :
    Apart (k.blocks.headD 0#64) held queue (16 + 32 * cap) := by
  have hhead := mem_head?_of_headD_ne hblock
  rcases hqueue with ⟨rfl, rfl, -⟩ | ⟨hnext, rfl, hne⟩
  · exact (hheap.queues _ hhead hblock i (Ledger.lt_of_target htarget)).symm (by omega)
  · exact (hheap.grown i htarget _ hnext hne).2 _ hhead

end Status

/-! ## To oneself -/

/-- The init process alone, with nothing in its queue. -/
def oneMailbox : Ledger where
  processes := [⟨0#32, []⟩]
  portToPid port := if port = 0#32 then some 0#32 else none
  outstanding := 0

theorem shows_eightBytes : oneMailbox.Shows eightBytes fun _ => 0 where
  pids := rfl
  ports := rfl
  vec i hi := by
    obtain rfl : i = 0 := by simpa [oneMailbox] using hi
    exact ⟨by decide +kernel, by decide +kernel, by decide, by decide, by decide,
      fun _ h => absurd h (by simp [oneMailbox, Ledger.queue])⟩
  apart i _ j _ _ hcap := absurd hcap (by decide)
  roomy := by simp [Heap.Roomy, Kernel.heap, eightBytes]

theorem heapApart_eightBytes : HeapApart oneMailbox (fun _ => 0) 24 0#64 eightBytes where
  kernel block hblock _ := by
    obtain rfl : 0xffff800010000000#64 = block := by simpa [eightBytes] using hblock
    exact ⟨by decide, by decide⟩
  queues block hblock _ j hj := by
    obtain rfl : j = 0 := by simpa [oneMailbox] using hj
    obtain rfl : 0xffff800010000000#64 = block := by simpa [eightBytes] using hblock
    intro i hi
    have hi' : i < 16 := hi
    show 24 ≤ (at' 0xffffffff80200000#64 i - 0xffff800010000000#64).toNat
    bv_omega
  grown i htarget next hnext _ := by
    obtain rfl : 0xffff800010001000#64 = next := by simpa [eightBytes] using hnext
    refine ⟨fun j hj hji => ?_, fun block hblock => ?_⟩
    · have hi : i < 1 := Ledger.lt_of_target htarget
      have hj' : j < 1 := hj
      omega
    · obtain rfl : 0xffff800010000000#64 = block := by simpa [eightBytes] using hblock
      intro n hn
      show 16 + 32 * 2 ≤ (at' 0xffff800010000000#64 n - 0xffff800010001000#64).toNat
      bv_omega

end MoonOS
