import MoonOS.Abi.Send

/-!
# Abi/RoundTrip — a payload from the sender's memory to the receive region

libc fills in a message in its send region and the receiver gets the response in its receive region;
the two follow each other at 8 MiB, a page each.  The response has its payload *in place*: the bytes
start at the field `payload` and run over `payload_size`, the field behind it.

Between the send and the receive anything may be written to user memory: the payload is in a block
of the kernel's.  So the two halves meet at one message in a queue.

* `sysIpcReceive_of_queued` — what a receive makes of the message that is queued;
* `receiveConfined_iff` — it keeps to the receive region exactly for payloads of up to 4080 bytes;
* `roundTrip_iff` — and the response is right exactly when the ninth to the sixteenth byte of the
  payload, as far as it has them, are those of its size.
-/

namespace MoonOS

open ByteMemory

/-! ## The regions -/

/-- `ipc_message_receive_region`, at `IPC_MESSAGE_REGION_BASE`. -/
def ipcMessageReceiveRegion : BitVec 64 := 0x800000#64

/-- `ipc_message_send_region`, a page behind it. -/
def ipcMessageSendRegion : BitVec 64 := 0x801000#64

/-- `IPC_MESSAGE_TYPE_REQUEST`. -/
def ipcMessageTypeRequest : BitVec 32 := 1#32

/-- The three fields of the message that libc's `ipc_send` fills in. -/
def fillRequest (m : Mem) (payload payloadSize : BitVec 64) : Mem :=
  let m := store m (at' ipcMessageSendRegion 8) 4 ipcMessageTypeRequest
  let m := store m (at' ipcMessageSendRegion 16) 8 payload
  store m (at' ipcMessageSendRegion 24) 8 payloadSize

/-- libc's `ipc_send`. -/
def libcIpcSend (toPort payload payloadSize : BitVec 64) (k : Kernel) : Outcome :=
  sysIpcSend toPort ipcMessageSendRegion { k with mem := fillRequest k.mem payload payloadSize }

/-- libc's `ipc_receive`. -/
def libcIpcReceive (k : Kernel) : Outcome := sysIpcReceive ipcMessageReceiveRegion k

/-- The kernel's memory is the same: what changed is the users'.  No frame of the users' is one of
the kernel's heap, then.  `ipc_assign_port` maps the two regions to the frames at `0x800000` and
`0x801000`, which nothing reserves: that the page allocator has not given them to the heap is
assumed here. -/
def KernelSame (m m' : Mem) : Prop := ∀ a, isUserAddress a = false → m' a = m a

theorem KernelSame.sameOutside {m m' : Mem} (h : KernelSame m m') :
    SameOutside 0x1000#64 (2 ^ 47 - 0x1000) m m' := by
  intro a ha
  refine h a (Bool.eq_false_iff.mpr fun huser => ?_)
  obtain ⟨hlo, hhi⟩ := isUserAddress_iff.mp huser
  bv_omega

/-- A block of the kernel's is off the users' memory. -/
theorem InKernel.apart_users {a : BitVec 64} {n : ℕ} (h : InKernel a n) :
    Apart a n 0x1000#64 (2 ^ 47 - 0x1000) :=
  (h.apart (u := 0x1000#64) (w := 2 ^ 47 - 0x1000) (by decide)).symm
    (by have := h.inside; omega)

theorem InKernel.toNat_le {a : BitVec 64} {n i : ℕ} (h : InKernel a n) (hi : i < n) :
    2 ^ 63 ≤ (at' a i).toNat := by
  have hupper := h.upper
  have hinside := h.inside
  rw [toNat_at' (by omega)]
  omega

theorem InKernel.not_user {a : BitVec 64} {n i : ℕ} (h : InKernel a n) (hi : i < n) :
    isUserAddress (at' a i) = false :=
  Bool.eq_false_iff.mpr fun huser => by
    have hupper := h.toNat_le hi
    obtain ⟨-, hhi⟩ := isUserAddress_iff.mp huser
    omega

/-- A copy out of the kernel's block does not overwrite what it reads. -/
theorem InKernel.ne_at' {a u : BitVec 64} {n i j : ℕ} (h : InKernel a n) (hi : i < n)
    (hu : u.toNat + j < 2 ^ 63) : at' u j ≠ at' a i := fun heq => by
  have hupper := h.toNat_le hi
  rw [← heq, toNat_at' (by omega)] at hupper
  omega

/-! ## What a receive makes of a message -/

/-- The response with its three fields. -/
def respond (m : Mem) (buff : BitVec 64) (message : IpcMessage) : Mem :=
  let m := store m buff 8 message.sender
  let m := store m (at' buff 8) 4 ipcMessageTypeResponse
  store m (at' buff 24) 8 message.payloadSize

/-- The memory behind a receive: one message fewer, the response, and the payload behind its second
field. -/
def received (m : Mem) (messageQueue buff : BitVec 64) (left : ℕ) (message : IpcMessage) : Mem :=
  memcpy (respond (store m (at' messageQueue 0) 8 (BitVec.ofNat 64 left)) buff message)
    (at' buff 16) message.payload message.payloadSize.toNat

section Receive

variable {k : Kernel} {task : ExecutionSpace} {cap : ℕ} {x : IpcMessage} {xs : List IpcMessage}
  {buff ptr : BitVec 64} {m m' : Mem}

/-- A response is written in its 32 bytes. -/
theorem sameOutside_respond (m : Mem) (buff : BitVec 64) (message : IpcMessage) :
    SameOutside buff 32 m (respond m buff message) := by
  have hframe := ((SameOutside.refl buff 32 m).store (p := 0) (k := 8) (by decide) message.sender)
  rw [at'_zero] at hframe
  exact (hframe.store (by decide) _).store (by decide) _

/-- The fields of a message in memory. -/
theorem load_message (h : load m ptr 32 = x.toWord) :
    load m (at' ptr 0) 8 = x.sender ∧ load m (at' ptr 16) 8 = x.payload
      ∧ load m (at' ptr 24) 8 = x.payloadSize := by
  have hread : IpcMessage.ofWord (load m ptr 32) = x := by rw [h, IpcMessage.ofWord_toWord]
  refine ⟨?_, ?_, ?_⟩
  · rw [← extractLsb'_load_window m ptr (show 0 + 8 ≤ 32 by decide)]
    exact congrArg IpcMessage.sender hread
  · rw [← extractLsb'_load_window m ptr (show 16 + 8 ≤ 32 by decide)]
    exact congrArg IpcMessage.payload hread
  · rw [← extractLsb'_load_window m ptr (show 24 + 8 ≤ 32 by decide)]
    exact congrArg IpcMessage.payloadSize hread

/-- A response off the message has the message's fields. -/
theorem fillResponse_eq (h : load m ptr 32 = x.toWord) (hapart : Apart ptr 32 buff 32) :
    fillResponse m buff ptr = respond m buff x
      ∧ load (respond m buff x) ptr 32 = x.toWord := by
  have hsize : load (store (store m buff 8 x.sender) (at' buff 8) 4 ipcMessageTypeResponse)
      (at' ptr 24) 8 = x.payloadSize := by
    have hframe := ((SameOutside.refl buff 32 m).store (p := 0) (k := 8) (by decide) x.sender)
    rw [at'_zero] at hframe
    have hframe := hframe.store (p := 8) (k := 4) (by decide) ipcMessageTypeResponse
    rw [hframe.load (hapart.sub (show 24 + 8 ≤ 32 by decide))]
    exact (load_message h).2.2
  refine ⟨?_, by rw [(sameOutside_respond m buff x).load hapart, h]⟩
  rw [fillResponse, respond, (load_message h).1, hsize]

/-- What is copied is the payload of the message, of the size it was queued with. -/
theorem receivedPayload_eq (h : load m ptr 32 = x.toWord) (hapart : Apart ptr 32 buff 32) :
    receivedPayload buff ptr m = ⟨false, x.payload, x.payloadSize.toNat⟩ := by
  obtain ⟨hfill, hkept⟩ := fillResponse_eq h hapart
  obtain ⟨-, hpayload, hsize⟩ := load_message hkept
  rw [receivedPayload, hfill, hpayload, hsize]

/-- `ipc_receive` counts the size down, and points to the first message. -/
theorem ipcReceive_of_queued {q : BitVec 64}
    (hv : IsVec m q cap ((x :: xs).map IpcMessage.toWord)) :
    ipcReceive q m = (some (at' q 16), store m (at' q 0) 8 (BitVec.ofNat 64 xs.length))
      ∧ load (store m (at' q 0) 8 (BitVec.ofNat 64 xs.length)) (at' q 16) 32 = x.toWord := by
  have hfits := hv.fits
  have hsmall := hv.small
  simp only [List.map_cons, List.length_cons, List.length_map] at hfits
  have hpos : 0 < ((x :: xs).map IpcMessage.toWord).length := by simp
  have hempty : ccVecSize m q ≠ 0#64 := by
    rw [hv.size, List.length_map, List.length_cons]
    bv_omega
  obtain ⟨-, -, hfirst, -⟩ := ccVecErase_isVec (by decide) hv hpos
  have herase := ccVecErase_eq (by decide) hv hpos
  rw [List.length_map, List.length_cons, Nat.add_sub_cancel] at herase
  rw [herase] at hfirst
  exact ⟨by rw [ipcReceive, if_neg hempty, herase], hfirst⟩

/-- **A receive erases the first message, fills in the response, copies the payload behind its
second field and frees what the message in the queue then points to.** -/
theorem sysIpcReceive_of_queued (hcur : schedCurrent k.sched = some task)
    (hv : IsVec k.mem task.messageQueue cap ((x :: xs).map IpcMessage.toWord))
    (hq : InKernel task.messageQueue (16 + 32 * cap)) (hbuff : buff.toNat + 32 ≤ 2 ^ 63) :
    (sysIpcReceive buff k).result
      = .ofFree (Kernel.free (load (received k.mem task.messageQueue buff xs.length x)
          (at' task.messageQueue 32) 8)
        { k with mem := received k.mem task.messageQueue buff xs.length x }) := by
  have hfits := hv.fits
  simp only [List.map_cons, List.length_cons, List.length_map] at hfits
  have hupper := hq.upper
  obtain ⟨hreceive, hmessage⟩ := ipcReceive_of_queued hv
  generalize hm : store k.mem (at' task.messageQueue 0) 8 (BitVec.ofNat 64 xs.length) = m at *
  have hapart : Apart (at' task.messageQueue 16) 32 buff 32 :=
    ((hq.apart hbuff).symm (by have := hq.inside; omega)).sub (by omega)
  have hrespond : respondFrom buff (at' task.messageQueue 16) m
      = received k.mem task.messageQueue buff xs.length x := by
    rw [respondFrom, receivedPayload_eq hmessage hapart, (fillResponse_eq hmessage hapart).1,
      received, hm]
  have hne : at' task.messageQueue 16 ≠ 0#64 := fun hz => by
    have hnat := toNat_at' (a := task.messageQueue) (i := 16) (by have := hq.inside; omega)
    rw [hz, BitVec.toNat_zero] at hnat
    omega
  rw [sysIpcReceive, hcur]
  dsimp only
  rw [if_neg hq.ne_null, hreceive]
  dsimp only
  rw [if_neg hne, hrespond, at'_at']

/-- **What is freed is the payload, as long as the copy keeps to the lower half.** -/
theorem sysIpcReceive_frees (hcur : schedCurrent k.sched = some task)
    (hv : IsVec k.mem task.messageQueue cap ((x :: xs).map IpcMessage.toWord))
    (hq : InKernel task.messageQueue (16 + 32 * cap)) (hbuff : buff.toNat + 32 ≤ 2 ^ 63)
    (hcopy : buff.toNat + 16 + x.payloadSize.toNat ≤ 2 ^ 63)
    (hfree : x.payload = 0#64 ∨ x.payload ∈ k.allocated) :
    ∃ k', (sysIpcReceive buff k).result = .returned 0#32 k' ∧ Kernel.free x.payload
      { k with mem := received k.mem task.messageQueue buff xs.length x } = some k' := by
  have hfits := hv.fits
  simp only [List.map_cons, List.length_cons, List.length_map] at hfits
  have hinside := hq.inside
  -- The message is off the size that is counted down, the response and the copy.
  have hmessage : load (received k.mem task.messageQueue buff xs.length x)
      (at' task.messageQueue 16) 32 = x.toWord := by
    have hmsg : InKernel (at' task.messageQueue 16) 32 := by
      have hupper := hq.upper
      constructor <;> rw [toNat_at' (by omega)] <;> omega
    have hlow : (at' buff 16).toNat + x.payloadSize.toNat ≤ 2 ^ 63 := by
      rw [toNat_at' (by omega)]
      omega
    rw [received, (sameOutside_memcpy _ _ _ _).load ((hmsg.apart hlow).symm (by decide)),
      (sameOutside_respond _ _ _).load ((hmsg.apart hbuff).symm (by decide)),
      (ipcReceive_of_queued hv).2]
  have hpayload := (load_message hmessage).2.1
  rw [at'_at'] at hpayload
  rw [sysIpcReceive_of_queued hcur hv hq hbuff, hpayload]
  obtain ⟨k', hk'⟩ := Option.isSome_iff_exists.mp (free_isSome_iff
    (k := { k with mem := received k.mem task.messageQueue buff xs.length x }).mpr hfree)
  exact ⟨k', by rw [hk', SysResult.ofFree], hk'⟩

/-- From an empty queue there is no message. -/
theorem ipcReceive_of_empty {q : BitVec 64} (hv : IsVec m q cap ([] : List (BitVec (8 * 32)))) :
    ipcReceive q m = (none, m) :=
  if_pos hv.size

end Receive

/-! ## The receive region -/

/-- **A receive changes no byte outside the receive region**, whatever the users' memory holds: none
but of the queue that the message comes from, and of the heap that the payload goes back to. -/
def ReceiveConfined (heap : Set (BitVec 64)) (messageQueue : BitVec 64) (cap : ℕ) (k : Kernel) :
    Prop :=
  ∀ m, KernelSame k.mem m → ∃ k',
    (libcIpcReceive { k with mem := m }).result = .returned 0#32 k'
      ∧ ∀ a ∉ heap, 4096 ≤ (a - ipcMessageReceiveRegion).toNat →
        16 + 32 * cap ≤ (a - messageQueue).toNat → k'.mem a = m a

section Region

variable {k : Kernel} {task : ExecutionSpace} {cap : ℕ} {x : IpcMessage} {xs : List IpcMessage}
  {heap : Set (BitVec 64)}

/-- The receive, with other memory of the users': whatever it frees, the memory is the same. -/
theorem mem_libcIpcReceive (hcur : schedCurrent k.sched = some task)
    (hv : IsVec k.mem task.messageQueue cap ((x :: xs).map IpcMessage.toWord))
    (hq : InKernel task.messageQueue (16 + 32 * cap)) {m : Mem} (hm : KernelSame k.mem m)
    {status : BitVec 32} {k' : Kernel}
    (h : (libcIpcReceive { k with mem := m }).result = .returned status k') :
    k'.mem = received m task.messageQueue ipcMessageReceiveRegion xs.length x := by
  rw [libcIpcReceive, sysIpcReceive_of_queued (k := { k with mem := m }) hcur
    (hv.frame hm.sameOutside hq.apart_users) hq (by decide)] at h
  cases hfree : Kernel.free _ _ with
  | none =>
    rw [hfree] at h
    cases h
  | some k₁ =>
    rw [hfree] at h
    obtain ⟨-, rfl⟩ := SysResult.returned.inj h
    rw [Kernel.free_eq_some hfree]

/-- A payload of up to 4080 bytes, in a block that is still allocated, is received. -/
theorem libcIpcReceive_of_queued (hcur : schedCurrent k.sched = some task)
    (hv : IsVec k.mem task.messageQueue cap ((x :: xs).map IpcMessage.toWord))
    (hq : InKernel task.messageQueue (16 + 32 * cap)) {m : Mem} (hm : KernelSame k.mem m)
    (hsize : x.payloadSize.toNat ≤ 4080) (hfree : x.payload = 0#64 ∨ x.payload ∈ k.allocated) :
    ∃ k', (libcIpcReceive { k with mem := m }).result = .returned 0#32 k'
      ∧ k'.mem = received m task.messageQueue ipcMessageReceiveRegion xs.length x := by
  obtain ⟨k', hresult, -⟩ := sysIpcReceive_frees (k := { k with mem := m }) hcur
    (hv.frame hm.sameOutside hq.apart_users) hq
    (show ipcMessageReceiveRegion.toNat + 32 ≤ 2 ^ 63 by decide)
    (by rw [show ipcMessageReceiveRegion.toNat = 0x800000 from rfl]; omega) hfree
  exact ⟨k', hresult, mem_libcIpcReceive hcur hv hq hm hresult⟩

/-- A byte more than the region has room for is written to the send region. -/
theorem not_receiveConfined_of_lt (hcur : schedCurrent k.sched = some task)
    (hv : IsVec k.mem task.messageQueue cap ((x :: xs).map IpcMessage.toWord))
    (hq : InKernel task.messageQueue (16 + 32 * cap)) (hheap : ipcMessageSendRegion ∉ heap)
    (hpayload : InKernel x.payload 4081) (hsize : 4080 < x.payloadSize.toNat) :
    ¬ ReceiveConfined heap task.messageQueue cap k := by
  intro hconfined
  -- The send region holds another byte than the 4081st of the payload.
  generalize hbyte : store k.mem (at' task.messageQueue 0) 8 (BitVec.ofNat 64 xs.length)
    (at' x.payload 4080) = byte
  let m := Function.update k.mem ipcMessageSendRegion (byte + 1)
  have hm : KernelSame k.mem m := fun a ha => by
    refine Function.update_of_ne ?_ _ _
    rintro rfl
    exact absurd ha (by decide)
  obtain ⟨k', hresult, hsame⟩ := hconfined m hm
  have hmem := mem_libcIpcReceive hcur hv hq hm hresult
  have hqapart := hq.apart (u := ipcMessageSendRegion) (w := 1) (by decide) 0 (by decide)
  rw [at'_zero] at hqapart
  have hkept := hsame ipcMessageSendRegion hheap (by decide) hqapart
  have hsend : ipcMessageSendRegion = at' (at' ipcMessageReceiveRegion 16) 4080 := by decide
  have hoff : ∀ j < 4080, at' (at' ipcMessageReceiveRegion 16) j ≠ at' x.payload 4080 :=
    fun j hj => hpayload.ne_at' (by decide) (by
      rw [show (at' ipcMessageReceiveRegion 16).toNat = 0x800010 by decide]
      omega)
  have hapart := (hpayload.apart (u := ipcMessageReceiveRegion) (w := 32) (by decide)).symm
    (by decide) 4080 (by decide)
  have hread : store m (at' task.messageQueue 0) 8 (BitVec.ofNat 64 xs.length) (at' x.payload 4080)
      = byte := by
    rw [← hbyte, store, store, hm _ (hpayload.not_user (by decide))]
  rw [hmem, received, hsend, memcpy_at' hsize x.payloadSize.isLt hoff, ← hsend,
    sameOutside_respond _ _ _ _ hapart, hread,
    show m ipcMessageSendRegion = byte + 1 from Function.update_self ..] at hkept
  bv_omega

/-- **A receive keeps to the receive region exactly when the payload has at most 4080 bytes.** -/
theorem receiveConfined_iff (hcur : schedCurrent k.sched = some task)
    (hv : IsVec k.mem task.messageQueue cap ((x :: xs).map IpcMessage.toWord))
    (hq : InKernel task.messageQueue (16 + 32 * cap)) (hheap : ipcMessageSendRegion ∉ heap)
    (hfree : x.payload = 0#64 ∨ x.payload ∈ k.allocated)
    (hpayload : 4080 < x.payloadSize.toNat → InKernel x.payload 4081) :
    ReceiveConfined heap task.messageQueue cap k ↔ x.payloadSize.toNat ≤ 4080 := by
  constructor
  · intro hconfined
    by_contra hlarge
    exact not_receiveConfined_of_lt hcur hv hq hheap (hpayload (by omega)) (by omega) hconfined
  · intro hsize m hm
    obtain ⟨k', hresult, hmem⟩ := libcIpcReceive_of_queued hcur hv hq hm hsize hfree
    refine ⟨k', hresult, fun a _ ha hqueue => ?_⟩
    have hcopy : x.payloadSize.toNat ≤ (a - at' ipcMessageReceiveRegion 16).toNat := by
      simp only [ipcMessageReceiveRegion, at'] at ha ⊢
      bv_omega
    rw [hmem, received, sameOutside_memcpy _ _ _ _ a hcopy, sameOutside_respond _ _ _ a (by omega),
      store_of_outside (by rw [at'_zero]; omega)]

end Region

/-- The megabyte the heap has its blocks in. -/
def heapMegabyte : Set (BitVec 64) := { a | (a - 0xffff800010000000#64).toNat < 2 ^ 20 }

theorem sendRegion_notMem_heapMegabyte : ipcMessageSendRegion ∉ heapMegabyte :=
  (by decide : ¬ (ipcMessageSendRegion - 0xffff800010000000#64).toNat < 2 ^ 20)

/-- The init process with room for one message in its queue… -/
def roomForOne : Kernel :=
  { oneProcess with mem := store oneProcess.mem 0xffffffff80200008#64 8 1#64 }

/-- …and a message there, of a payload that starts at a block of the heap. -/
def queuedBytes (size : BitVec 64) : Kernel :=
  { roomForOne with
    allocated := [0xffff800010000000#64]
    mem := store (store roomForOne.mem (at' 0xffffffff80200000#64 16) 32
      (IpcMessage.mk 0#64 0#64 0xffff800010000000#64 size).toWord)
      (at' 0xffffffff80200000#64 0) 8 1#64 }

theorem isVec_queuedBytes (size : BitVec 64) :
    IsVec (queuedBytes size).mem 0xffffffff80200000#64 1
      ([IpcMessage.mk 0#64 0#64 0xffff800010000000#64 size].map IpcMessage.toWord) := by
  have hempty : IsVec roomForOne.mem 0xffffffff80200000#64 1 ([] : List (BitVec (8 * 32))) :=
    ⟨by decide +kernel, by decide +kernel, by decide, by decide, by decide, fun _ h => by simp at h⟩
  exact hempty.append (by decide)

theorem schedCurrent_queuedBytes (size : BitVec 64) :
    ∃ task, schedCurrent (queuedBytes size).sched = some task
      ∧ task.messageQueue = 0xffffffff80200000#64 :=
  ⟨_, rfl, rfl⟩

theorem receiveConfined_queuedBytes :
    ReceiveConfined heapMegabyte 0xffffffff80200000#64 1
      (queuedBytes 5#64) := by
  obtain ⟨task, hcur, hqueue⟩ := schedCurrent_queuedBytes 5#64
  have hv := isVec_queuedBytes 5#64
  rw [← hqueue] at hv ⊢
  refine (receiveConfined_iff hcur hv ?_ sendRegion_notMem_heapMegabyte
    (.inr (List.mem_singleton_self _)) fun h => absurd h (by decide)).mpr (by decide)
  rw [hqueue]
  exact ⟨by decide, by decide⟩

/-- **Of 4081 bytes the last is the first of the send region.** -/
theorem not_receiveConfined_queuedBytes :
    ¬ ReceiveConfined heapMegabyte 0xffffffff80200000#64 1
      (queuedBytes 4081#64) := by
  obtain ⟨task, hcur, hqueue⟩ := schedCurrent_queuedBytes 4081#64
  have hv := isVec_queuedBytes 4081#64
  rw [← hqueue] at hv ⊢
  refine not_receiveConfined_of_lt hcur hv ?_ sendRegion_notMem_heapMegabyte
    ⟨by decide, by decide⟩ (by decide)
  rw [hqueue]
  exact ⟨by decide, by decide⟩

/-! ## The round trip -/

/-- **The response to a send**, with the bytes of its payload from the field `payload` on. -/
structure Response (m : Mem) (pid : BitVec 64) (len : ℕ) (bytes : ℕ → BitVec 8) : Prop where
  sender : load m ipcMessageReceiveRegion 8 = pid
  type : load m (at' ipcMessageReceiveRegion 8) 4 = ipcMessageTypeResponse
  size : load m (at' ipcMessageReceiveRegion 24) 8 = BitVec.ofNat 64 len
  payload : ∀ n < len, m (at' ipcMessageReceiveRegion (16 + n)) = bytes n

/-- **The payload comes to the receiver as it was sent**: whatever is written to the users' memory
after the send, as long as no payload is freed, the receive of the process in slot `i` has it in the
response. -/
def RoundTrip (toPort payload : BitVec 64) (len i : ℕ) (k : Kernel) : Prop :=
  ∃ current k₁, schedCurrent k.sched = some current
    ∧ (libcIpcSend toPort payload (BitVec.ofNat 64 len) k).result = .returned 0#32 k₁
    ∧ ∀ k₂ task, KernelSame k₁.mem k₂.mem → k₁.allocated ⊆ k₂.allocated →
      schedCurrent k₂.sched = some task → task.messageQueue = (k₁.sched.get i).messageQueue →
      ∃ k₃, (libcIpcReceive k₂).result = .returned 0#32 k₃
        ∧ Response k₃.mem (current.pid.signExtend 64) len
          fun n => fillRequest k.mem payload (BitVec.ofNat 64 len) (at' payload n)

/-- **The payload has its own size where it runs over the field**: from the ninth byte to the
sixteenth. -/
def SizeKept (len : ℕ) (bytes : ℕ → BitVec 8) : Prop :=
  ∀ j < 8, 8 + j < len → bytes (8 + j) = (BitVec.ofNat 64 len).extractLsb' (8 * j) 8

section Trip

variable {m : Mem} {x : IpcMessage} {len : ℕ} {bytes : ℕ → BitVec 8}

/-- The fields of a response. -/
theorem load_respond (m : Mem) (x : IpcMessage) :
    load (respond m ipcMessageReceiveRegion x) (at' ipcMessageReceiveRegion 0) 8 = x.sender
      ∧ load (respond m ipcMessageReceiveRegion x) (at' ipcMessageReceiveRegion 8) 4
        = ipcMessageTypeResponse
      ∧ load (respond m ipcMessageReceiveRegion x) (at' ipcMessageReceiveRegion 24) 8
        = x.payloadSize := by
  refine ⟨?_, ?_, load_store_same _ _ (by decide) _⟩
  · rw [respond, load_store_at' _ (by decide) (by decide) (by decide),
      load_store_at' _ (by decide) (by decide) (by decide), at'_zero,
      load_store_same _ _ (by decide)]
  · rw [respond, load_store_at' _ (by decide) (by decide) (by decide),
      load_store_same _ _ (by decide)]

/-- **A copied payload leaves a response exactly when it has its own size in it.** -/
theorem response_memcpy_iff (hsize : x.payloadSize = BitVec.ofNat 64 len) (hlen : len ≤ 4080)
    (hbytes : ∀ n < len, memcpy (respond m ipcMessageReceiveRegion x)
      (at' ipcMessageReceiveRegion 16) x.payload len (at' ipcMessageReceiveRegion (16 + n))
        = bytes n) :
    Response (memcpy (respond m ipcMessageReceiveRegion x) (at' ipcMessageReceiveRegion 16)
      x.payload len) x.sender len bytes ↔ SizeKept len bytes := by
  obtain ⟨hsender, htype, hfield⟩ := load_respond m x
  have hframe := sameOutside_memcpy (respond m ipcMessageReceiveRegion x)
    (at' ipcMessageReceiveRegion 16) x.payload len
  constructor
  · intro hresponse j hj hlt
    rw [← hbytes _ hlt, ← hresponse.size, extractLsb'_load _ _ hj, at'_at', ← Nat.add_assoc]
  · intro hkept
    refine ⟨?_, ?_, load_eq_of_bytes fun j hj => ?_, hbytes⟩
    · have hkept := hframe.load (b := at' ipcMessageReceiveRegion 0) (k := 8)
        (apart_at' _ (by omega) (by omega) (by omega))
      rwa [hsender, at'_zero] at hkept
    · rw [hframe.load (apart_at' _ (by omega) (by omega) (by omega)), htype]
    · rw [at'_at']
      by_cases hlt : 8 + j < len
      · rw [← hkept j hj hlt, ← hbytes _ hlt, ← Nat.add_assoc]
      · -- Behind the payload the field is as it was filled in.
        have hapart : Apart (at' ipcMessageReceiveRegion (24 + j)) 1
            (at' ipcMessageReceiveRegion 16) len := apart_at' _ (by omega) (by omega) (by omega)
        have hoff := hapart 0 (by decide)
        rw [at'_zero] at hoff
        rw [hframe _ hoff, ← at'_at', ← extractLsb'_load (respond m ipcMessageReceiveRegion x)
          (at' ipcMessageReceiveRegion 24) hj, hfield, hsize]

end Trip

/-- **What is assumed of the heap and the queues**: they are the kernel's memory, and apart.  They
are behind no frame that the users have mapped, either (`KernelSame`). -/
structure KernelHeap (l : Ledger) (caps : ℕ → ℕ) (held : ℕ) (toPort : BitVec 64) (k : Kernel) :
    Prop extends HeapApart l caps held toPort k where
  queuesKernel : ∀ j < l.processes.length,
    InKernel (k.sched.get j).messageQueue (16 + 32 * caps j)
  nextKernel : ∀ i, l.target toPort = some i → ∀ next ∈ k.blocks.tail.head?, next ≠ 0#64 →
    InKernel next (16 + 32 * grownCap (caps i))

section Sent

variable {l : Ledger} {caps : ℕ → ℕ} {held len i : ℕ} {toPort payload : BitVec 64} {k : Kernel}

/-- A request is written in its 32 bytes, and holds the payload's address and size. -/
theorem fillRequest_spec (m : Mem) (payload payloadSize : BitVec 64) :
    SameOutside ipcMessageSendRegion 32 m (fillRequest m payload payloadSize)
      ∧ userPayload (fillRequest m payload payloadSize) ipcMessageSendRegion = payload
      ∧ userPayloadSize (fillRequest m payload payloadSize) ipcMessageSendRegion
        = payloadSize := by
  refine ⟨?_, ?_, load_store_same _ _ (by decide) _⟩
  · exact (((SameOutside.refl _ 32 m).store (by decide) _).store (by decide) _).store (by decide) _
  · rw [userPayload, fillRequest, load_store_at' _ (by decide) (by decide) (by decide),
      load_store_same _ _ (by decide)]

/-- The queues are not in the request. -/
theorem Ledger.Shows.fillRequest (hs : l.Shows k caps) (hheap : KernelHeap l caps held toPort k)
    (payload payloadSize : BitVec 64) :
    l.Shows { k with mem := MoonOS.fillRequest k.mem payload payloadSize } caps := by
  obtain ⟨hsame, -⟩ := fillRequest_spec k.mem payload payloadSize
  refine hs.frame (h := ⟨MoonOS.fillRequest k.mem payload payloadSize, k.blocks⟩) hsame
    (fun j hj => ?_) (List.suffix_refl _)
  exact ((hheap.queuesKernel j hj).apart (by decide)).symm
    (by have := (hheap.queuesKernel j hj).inside; omega)

/-- The queue a send leaves is the kernel's. -/
theorem KernelHeap.queue_inKernel (hheap : KernelHeap l caps held toPort k)
    (htarget : l.target toPort = some i) {queue : BitVec 64} {cap : ℕ}
    (hqueue : QueueBlock (k.sched.get i).messageQueue (caps i) k.blocks.tail queue cap) :
    InKernel queue (16 + 32 * cap) := by
  rcases hqueue with ⟨rfl, rfl, -⟩ | ⟨hnext, rfl, hne⟩
  · exact hheap.queuesKernel i (Ledger.lt_of_target htarget)
  · exact hheap.nextKernel i htarget _ hnext hne

/-- **A request with a block for its payload** appends that block, if there is room. -/
theorem Ledger.Shows.libcIpcSend_of_target (hs : l.Shows k caps)
    (hheld : BlockHolds (BitVec.ofNat 64 len) held) (hheap : KernelHeap l caps held toPort k)
    (htarget : l.target toPort = some i) (hlen : len ≤ 4080)
    (hblock : k.blocks.headD 0#64 ≠ 0#64) {current : ExecutionSpace}
    (hcur : schedCurrent k.sched = some current) :
    (HasRoom (l.queue i).length (caps i) k.blocks.tail ∧ ∃ k₁ cap,
        (libcIpcSend toPort payload (BitVec.ofNat 64 len) k).result = .returned 0#32 k₁
        ∧ k₁.allocated = (k.withPayload (k.blocks.headD 0#64)).allocated
        ∧ (l.deliver i ⟨current.pid.signExtend 64, toPort, k.blocks.headD 0#64,
            BitVec.ofNat 64 len⟩).Shows k₁ (Function.update caps i cap)
        ∧ (∀ j, j ≠ i → k₁.sched.get j = k.sched.get j)
        ∧ QueueBlock (k.sched.get i).messageQueue (caps i) k.blocks.tail
          (k₁.sched.get i).messageQueue cap
        ∧ SameOutside (k₁.sched.get i).messageQueue (16 + 32 * cap)
          (memcpy (MoonOS.fillRequest k.mem payload (BitVec.ofNat 64 len)) (k.blocks.headD 0#64)
            payload len) k₁.mem)
      ∨ ¬ HasRoom (l.queue i).length (caps i) k.blocks.tail ∧ ∃ k₁,
        (libcIpcSend toPort payload (BitVec.ofNat 64 len) k).result = .returned 0#32 k₁
        ∧ k₁.allocated = (k.withPayload (k.blocks.headD 0#64)).allocated ∧ l.Shows k₁ caps
        ∧ k₁.sched = k.sched := by
  obtain ⟨-, hsrc, hsz⟩ := fillRequest_spec k.mem payload (BitVec.ofNat 64 len)
  have hs' := hs.fillRequest hheap payload (BitVec.ofNat 64 len)
  rw [libcIpcSend]
  generalize MoonOS.fillRequest k.mem payload (BitVec.ofNat 64 len) = m at *
  have hlt : (BitVec.ofNat 64 len).toNat = len := by
    rw [BitVec.toNat_ofNat]
    omega
  have hsmall : (userPayloadSize m ipcMessageSendRegion).toNat < 2 ^ 31 := by
    rw [hsz, hlt]
    omega
  have hcopied : MoonOS.copiedPayload ipcMessageSendRegion { k with mem := m }
      = memcpy m (k.blocks.headD 0#64) payload len := by
    have halloc : MoonOS.alloc (userPayloadSize m ipcMessageSendRegion)
        ({ k with mem := m } : Kernel).heap = (k.blocks.headD 0#64, ⟨m, k.blocks.tail⟩) :=
      alloc_of_not_msb (msb_setWidth_of_lt hsmall)
    rw [MoonOS.copiedPayload, halloc]
    dsimp only
    rw [hsz, hlt, hsrc]
  have hsent := hs'.sysIpcSend_of_target (by rw [hsz]; exact hheld)
    ⟨hheap.kernel, hheap.queues, hheap.grown⟩ (by decide) hsmall (.inr hblock) htarget hcur
  rwa [hsz, hcopied] at hsent

/-- **What a send leaves queued**: the message, with the bytes of the payload in a block that is off
the queue. -/
theorem Ledger.Shows.libcIpcSend_queued (hs : l.Shows k caps)
    (hheld : BlockHolds (BitVec.ofNat 64 len) held) (hheap : KernelHeap l caps held toPort k)
    (htarget : l.target toPort = some i) (hempty : l.queue i = []) (hlen : len ≤ 4080)
    (hpayload : InUserRegion payload len) (hblock : k.blocks.headD 0#64 ≠ 0#64)
    (hroom : HasRoom 0 (caps i) k.blocks.tail) {current : ExecutionSpace}
    (hcur : schedCurrent k.sched = some current) :
    ∃ k₁ cap, (libcIpcSend toPort payload (BitVec.ofNat 64 len) k).result = .returned 0#32 k₁
      ∧ k.blocks.headD 0#64 ∈ k₁.allocated
      ∧ IsVec k₁.mem (k₁.sched.get i).messageQueue cap
        ([⟨current.pid.signExtend 64, toPort, k.blocks.headD 0#64, BitVec.ofNat 64 len⟩].map
          IpcMessage.toWord)
      ∧ InKernel (k₁.sched.get i).messageQueue (16 + 32 * cap)
      ∧ Apart (k.blocks.headD 0#64) len (k₁.sched.get i).messageQueue (16 + 32 * cap)
      ∧ ∀ n < len, k₁.mem (at' (k.blocks.headD 0#64) n)
        = MoonOS.fillRequest k.mem payload (BitVec.ofNat 64 len) (at' payload n) := by
  have hi := Ledger.lt_of_target htarget
  have hle : len ≤ held := by
    have := hheld.le (by rw [BitVec.toNat_ofNat]; omega)
    rw [BitVec.toNat_ofNat] at this
    omega
  obtain ⟨-, k₁, cap, hresult, hallocated, hshows, -, hqueue, hframe⟩ | ⟨hnone, -⟩ :=
    hs.libcIpcSend_of_target hheld hheap htarget hlen hblock hcur
  · have hmem : k.blocks.headD 0#64 ∈ k₁.allocated := by
      rw [hallocated, Kernel.withPayload]
      dsimp only
      rw [if_neg hblock]
      exact List.mem_cons_self
    have hapart : Apart (k.blocks.headD 0#64) len (k₁.sched.get i).messageQueue (16 + 32 * cap) :=
      fun n hn => hheap.queue_apart hheld.bounded htarget hblock hqueue n (lt_of_lt_of_le hn hle)
    have hv := hshows.vec i (by simpa [Ledger.deliver, Ledger.setQueue] using hi)
    rw [Function.update_self, Ledger.deliver, Ledger.queue_setQueue hi, hempty] at hv
    refine ⟨k₁, cap, hresult, hmem, hv, hheap.queue_inKernel htarget hqueue, hapart,
      fun n hn => ?_⟩
    rw [hframe _ (hapart n hn)]
    refine memcpy_at' hn (by omega) fun j hj heq => ?_
    have hkernel := hheap.kernel _ (mem_head?_of_headD_ne hblock) hblock
    rcases hpayload with hzero | ⟨-, hinside⟩
    · omega
    · rw [show userRegionTop.toNat = 0x7fffffffffff by decide] at hinside
      exact hkernel.ne_at' (i := j) (u := payload) (j := n) (by omega) (by omega) heq.symm
  · exact absurd (by rwa [hempty]) hnone

/-- **What a receive makes of it.** -/
theorem response_of_queued {k₁ k₂ : Kernel} {task : ExecutionSpace} {cap : ℕ} {x : IpcMessage}
    {bytes : ℕ → BitVec 8} (hsame : KernelSame k₁.mem k₂.mem)
    (hcur : schedCurrent k₂.sched = some task)
    (hv : IsVec k₁.mem task.messageQueue cap ([x].map IpcMessage.toWord))
    (hq : InKernel task.messageQueue (16 + 32 * cap)) (hsize : x.payloadSize = BitVec.ofNat 64 len)
    (hlen : len ≤ 4080) (hblock : InKernel x.payload len)
    (hapart : Apart x.payload len task.messageQueue (16 + 32 * cap))
    (hfree : x.payload ∈ k₂.allocated)
    (hbytes : ∀ n < len, k₁.mem (at' x.payload n) = bytes n) :
    ∃ k₃, (libcIpcReceive k₂).result = .returned 0#32 k₃
      ∧ (Response k₃.mem x.sender len bytes ↔ SizeKept len bytes) := by
  have hlt : x.payloadSize.toNat = len := by
    rw [hsize, BitVec.toNat_ofNat]
    omega
  obtain ⟨k₃, hresult, hmem⟩ := libcIpcReceive_of_queued (k := { k₂ with mem := k₁.mem }) hcur hv hq
    hsame (by omega) (.inr hfree)
  rw [received, hlt] at hmem
  refine ⟨k₃, hresult, ?_⟩
  rw [hmem]
  refine response_memcpy_iff hsize hlen fun n hn => ?_
  have hregion := (hblock.apart (u := ipcMessageReceiveRegion) (w := 32) (by decide)).symm
    (by omega) n hn
  have hqueue := hapart n hn
  rw [← at'_at', memcpy_at' hn (by omega) fun j hj => hblock.ne_at' hn (by
      rw [show (at' ipcMessageReceiveRegion 16).toNat = 0x800010 by decide]
      omega),
    sameOutside_respond _ _ _ _ hregion, store_of_outside (by rw [at'_zero]; omega),
    hsame _ (hblock.not_user hn), hbytes n hn]

/-- **A send that arrives, and its receive**: there is a response exactly when the payload has its
own size in it. -/
theorem Ledger.Shows.libcIpcSend (hs : l.Shows k caps)
    (hheld : BlockHolds (BitVec.ofNat 64 len) held) (hheap : KernelHeap l caps held toPort k)
    (htarget : l.target toPort = some i) (hempty : l.queue i = []) (hlen : len ≤ 4080)
    (hpayload : InUserRegion payload len) (hblock : k.blocks.headD 0#64 ≠ 0#64)
    (hroom : HasRoom 0 (caps i) k.blocks.tail) {current : ExecutionSpace}
    (hcur : schedCurrent k.sched = some current) :
    ∃ k₁, (MoonOS.libcIpcSend toPort payload (BitVec.ofNat 64 len) k).result = .returned 0#32 k₁
      ∧ ∀ k₂ task, KernelSame k₁.mem k₂.mem → k₁.allocated ⊆ k₂.allocated →
        schedCurrent k₂.sched = some task → task.messageQueue = (k₁.sched.get i).messageQueue →
        ∃ k₃, (libcIpcReceive k₂).result = .returned 0#32 k₃
          ∧ (Response k₃.mem (current.pid.signExtend 64) len
              (fun n => MoonOS.fillRequest k.mem payload (BitVec.ofNat 64 len) (at' payload n))
            ↔ SizeKept len
              fun n => MoonOS.fillRequest k.mem payload (BitVec.ofNat 64 len) (at' payload n)) := by
  have hle := hheld.le (by rw [BitVec.toNat_ofNat]; omega)
  rw [BitVec.toNat_ofNat, Nat.mod_eq_of_lt (by omega)] at hle
  obtain ⟨k₁, cap, hresult, hmem, hv, hq, hapart, hbytes⟩ :=
    hs.libcIpcSend_queued hheld hheap htarget hempty hlen hpayload hblock hroom hcur
  have hkernel := hheap.kernel _ (mem_head?_of_headD_ne hblock) hblock
  refine ⟨k₁, hresult, fun k₂ task hsame hsub hcur₂ hqueue => ?_⟩
  rw [← hqueue] at hv hq hapart
  exact response_of_queued hsame hcur₂ hv hq rfl hlen
    ⟨hkernel.upper, by have := hkernel.inside; dsimp only; omega⟩ hapart (hsub hmem) hbytes

/-- Without a block the copy faults. -/
theorem block_of_libcIpcSend {k₁ : Kernel} {status : BitVec 32} (hpos : 1 ≤ len) (hlen : len ≤ 4080)
    (h : (libcIpcSend toPort payload (BitVec.ofNat 64 len) k).result = .returned status k₁) :
    k.blocks.headD 0#64 ≠ 0#64 := by
  obtain ⟨-, -, hsz⟩ := fillRequest_spec k.mem payload (BitVec.ofNat 64 len)
  have hlt : (BitVec.ofNat 64 len).toNat = len := by
    rw [BitVec.toNat_ofNat]
    omega
  intro hnull
  rw [libcIpcSend, result_sysIpcSend toPort (by decide), if_pos ?_] at h
  · cases h
  · dsimp only
    rw [hsz]
    refine ⟨?_, fun hzero => ?_⟩
    · rw [alloc_of_not_msb (msb_setWidth_of_lt (by rw [hlt]; omega))]
      exact hnull
    · rw [hzero, BitVec.toNat_zero] at hlt
      omega

/-- A receiver that is scheduled right after the send. -/
theorem exists_receiver (k₁ : Kernel) (i : ℕ) :
    ∃ (k₂ : Kernel) (task : ExecutionSpace), k₂.mem = k₁.mem ∧ k₁.allocated ⊆ k₂.allocated
      ∧ schedCurrent k₂.sched = some task ∧ task.messageQueue = (k₁.sched.get i).messageQueue :=
  ⟨{ k₁ with sched := { k₁.sched with processes := [k₁.sched.get i], currentPidIndex := 0 } },
    k₁.sched.get i, rfl, List.Subset.refl _, rfl, rfl⟩

/-- Without room there is no message to receive. -/
theorem Ledger.Shows.room_of_roundTrip (hs : l.Shows k caps)
    (hheld : BlockHolds (BitVec.ofNat 64 len) held) (hheap : KernelHeap l caps held toPort k)
    (htarget : l.target toPort = some i) (hempty : l.queue i = []) (hlen : len ≤ 4080)
    (hblock : k.blocks.headD 0#64 ≠ 0#64) (h : RoundTrip toPort payload len i k) :
    HasRoom 0 (caps i) k.blocks.tail := by
  obtain ⟨current, k₁, hcur, hresult, hreceive⟩ := h
  have hi := Ledger.lt_of_target htarget
  obtain ⟨hroom, -⟩ | ⟨-, k', hresult', -, hshows, -⟩ :=
    hs.libcIpcSend_of_target hheld hheap htarget hlen hblock hcur
  · rwa [hempty] at hroom
  · -- The receiver finds its queue empty, or has none.
    obtain ⟨-, rfl⟩ := SysResult.returned.inj (hresult.symm.trans hresult')
    obtain ⟨k₂, task, hmem, hsub, hcur₂, hqueue⟩ := exists_receiver k₁ i
    obtain ⟨k₃, hresult₃, -⟩ := hreceive k₂ task (fun a _ => by rw [hmem]) hsub hcur₂ hqueue
    have hv := hshows.vec i hi
    rw [hempty, ← hqueue, ← hmem] at hv
    rw [libcIpcReceive, sysIpcReceive, hcur₂] at hresult₃
    dsimp only at hresult₃
    rw [ipcReceive_of_empty hv] at hresult₃
    split at hresult₃
    · cases hresult₃
    · exact absurd (SysResult.returned.inj hresult₃).1 (by decide)

/-- And there is no response if the payload does not have its own size in it. -/
theorem Ledger.Shows.sizeKept_of_roundTrip (hs : l.Shows k caps)
    (hheld : BlockHolds (BitVec.ofNat 64 len) held) (hheap : KernelHeap l caps held toPort k)
    (htarget : l.target toPort = some i) (hempty : l.queue i = []) (hlen : len ≤ 4080)
    (hpayload : InUserRegion payload len) (hblock : k.blocks.headD 0#64 ≠ 0#64)
    (hroom : HasRoom 0 (caps i) k.blocks.tail) (h : RoundTrip toPort payload len i k) :
    SizeKept len
      fun n => MoonOS.fillRequest k.mem payload (BitVec.ofNat 64 len) (at' payload n) := by
  obtain ⟨current, k₁, hcur, hresult, hreceive⟩ := h
  obtain ⟨k₁', hresult', hreceive'⟩ :=
    hs.libcIpcSend hheld hheap htarget hempty hlen hpayload hblock hroom hcur
  obtain ⟨-, rfl⟩ := SysResult.returned.inj (hresult.symm.trans hresult')
  obtain ⟨k₂, task, hmem, hsub, hcur₂, hqueue⟩ := exists_receiver k₁ i
  have hsame : KernelSame k₁.mem k₂.mem := fun a _ => by rw [hmem]
  obtain ⟨k₃, hresult₃, hresponse⟩ := hreceive k₂ task hsame hsub hcur₂ hqueue
  obtain ⟨k₃', hresult₃', hiff⟩ := hreceive' k₂ task hsame hsub hcur₂ hqueue
  obtain ⟨-, rfl⟩ := SysResult.returned.inj (hresult₃.symm.trans hresult₃')
  exact hiff.mp hresponse

/-- **A payload makes its way to an empty queue exactly when there is a block for it and room for
the message, and its ninth to sixteenth byte are those of its size.** -/
theorem roundTrip_iff (hs : l.Shows k caps) (hheld : BlockHolds (BitVec.ofNat 64 len) held)
    (hheap : KernelHeap l caps held toPort k) (htarget : l.target toPort = some i)
    (hempty : l.queue i = []) (hpos : 1 ≤ len) (hlen : len ≤ 4080)
    (hpayload : InUserRegion payload len) :
    RoundTrip toPort payload len i k
      ↔ k.blocks.headD 0#64 ≠ 0#64 ∧ HasRoom 0 (caps i) k.blocks.tail
        ∧ SizeKept len fun n =>
          fillRequest k.mem payload (BitVec.ofNat 64 len) (at' payload n) := by
  constructor
  · intro htrip
    have hblock : k.blocks.headD 0#64 ≠ 0#64 := by
      obtain ⟨-, k₁, -, hresult, -⟩ := htrip
      exact block_of_libcIpcSend hpos hlen hresult
    have hroom := hs.room_of_roundTrip hheld hheap htarget hempty hlen hblock htrip
    exact ⟨hblock, hroom, hs.sizeKept_of_roundTrip hheld hheap htarget hempty hlen hpayload hblock
      hroom htrip⟩
  · rintro ⟨hblock, hroom, hkept⟩
    have hcur : schedCurrent k.sched = some (k.sched.get k.sched.currentPidIndex) :=
      if_neg (by have := hs.length; have := Ledger.lt_of_target htarget; omega)
    obtain ⟨k₁, hresult, hreceive⟩ :=
      hs.libcIpcSend hheld hheap htarget hempty hlen hpayload hblock hroom hcur
    refine ⟨_, k₁, hcur, hresult, fun k₂ task hsame hsub hcur₂ hqueue => ?_⟩
    obtain ⟨k₃, hresult₃, hresponse⟩ := hreceive k₂ task hsame hsub hcur₂ hqueue
    exact ⟨k₃, hresult₃, hresponse.mpr hkept⟩

end Sent

theorem kernelHeap_eightBytes : KernelHeap oneMailbox (fun _ => 0) 24 0#64 eightBytes where
  toHeapApart := heapApart_eightBytes
  queuesKernel j hj := by
    obtain rfl : j = 0 := by simpa [oneMailbox] using hj
    exact ⟨by decide, by decide⟩
  nextKernel i _ next hnext _ := by
    obtain rfl : 0xffff800010001000#64 = next := by simpa [eightBytes] using hnext
    exact ⟨by decide, by decide⟩

/-- Eight bytes arrive. -/
theorem roundTrip_eightBytes : RoundTrip 0#64 0x3000#64 8 0 eightBytes := by
  have hheld : BlockHolds (BitVec.ofNat 64 8) 24 := ⟨by decide, by decide⟩
  exact (roundTrip_iff shows_eightBytes hheld kernelHeap_eightBytes rfl rfl (by decide) (by decide)
    (by decide)).mpr ⟨by decide, .inr ⟨by decide, by decide⟩, fun j _ hlt => absurd hlt (by omega)⟩

/-- **Of sixteen zeros the receiver is told that they are none.** -/
theorem not_roundTrip_eightBytes : ¬ RoundTrip 0#64 0x3000#64 16 0 eightBytes := by
  intro htrip
  have hheld : BlockHolds (BitVec.ofNat 64 16) 24 := ⟨by decide, by decide⟩
  have hkept := shows_eightBytes.sizeKept_of_roundTrip hheld kernelHeap_eightBytes rfl rfl
    (by decide) (by decide) (by decide) (.inr ⟨by decide, by decide⟩) htrip 0 (by decide)
    (by decide)
  have hzero : fillRequest eightBytes.mem 0x3000#64 (BitVec.ofNat 64 16) (at' 0x3000#64 (8 + 0))
      = 0#8 := by
    decide +kernel
  exact absurd (hzero.symm.trans hkept) (by decide)

end MoonOS
