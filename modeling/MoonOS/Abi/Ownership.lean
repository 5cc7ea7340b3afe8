import MoonOS.Abi.RoundTrip
import MoonOS.Lib.GuardedRun

/-!
# Abi/Ownership — who owns the payload blocks, over runs of system calls

    Kernel ──ledger──▸ Ledger

A ledger is what the kernel's queues come to, with the payload blocks that are allocated.  Each
system call does to it what `Ipc/Payload` says: a send takes a block and delivers it or not, a
receive frees the first message's block and drops the last message, an exit drops a queue.

* `alwaysOwned_iff` — over any run of system calls whose copies stay where they belong
  (`CallEvent.Placed`), the blocks allocated are those of the messages queued, in every state,
  exactly when every call balances (`CallEvent.Balanced`).
-/

namespace MoonOS

open ByteMemory GuardedRun

/-! ## Runs -/

/-- What happens: the users write their memory, or the process in a slot makes a call. -/
inductive CallEvent
  | user (m : Mem)
  | call (caller : ℕ) (entry : Syscall) (args : SyscallArgs)

/-- The kernel a call leaves, unless it stops the machine. -/
def SysResult.kernel : SysResult → Option Kernel
  | .returned _ k => some k
  | .switched k => some k
  | .stopped => none

/-- One event.  A process that is gone makes no call. -/
def CallEvent.apply (k : Kernel) : CallEvent → Option Kernel
  | .user m => some { k with mem := fun a => if isUserAddress a then m a else k.mem a }
  | .call caller entry args =>
    if caller < k.sched.processes.length then (entry.run args (k.resume caller)).result.kernel
    else none

/-! ## The ledger of a kernel -/

/-- The queues in memory, and the blocks that are allocated. -/
def Kernel.ledger (k : Kernel) : Ledger where
  processes := (List.range k.sched.processes.length).map fun i =>
    ⟨(k.sched.get i).pid, queueOf k i⟩
  portToPid := k.portToPid
  outstanding := k.allocated

/-- The capacity of a queue. -/
def Kernel.caps (k : Kernel) (i : ℕ) : ℕ := (ccVecCap k.mem (k.sched.get i).messageQueue).toNat

/-- **Every payload block that is allocated is in one queue, once, and every block in a queue is
allocated.** -/
def Kernel.Owned (k : Kernel) : Prop := k.ledger.Owned

instance (k : Kernel) : Decidable k.Owned := inferInstanceAs (Decidable k.ledger.Owned)

/-- The queues are vectors of messages in the kernel's memory, and apart. -/
structure Kernel.Mailboxes (k : Kernel) : Prop where
  shows : k.ledger.Shows k k.caps
  kernel : ∀ i < k.sched.processes.length,
    InKernel (k.sched.get i).messageQueue (16 + 32 * k.caps i)

/-! ## What a call has to keep to -/

/-- **The copies of a call stay where they belong**: that of a send in the block it has allocated,
which is off the queues as TLSF's answers are; that of a receive in the users' memory. -/
def CallEvent.Placed (k : Kernel) : CallEvent → Prop
  | .call _ .ipcSend args => isUserAddress args.arg1 = true →
      (userPayloadSize k.mem args.arg1).toNat < 2 ^ 31
      ∧ KernelHeap k.ledger k.caps (userPayloadSize k.mem args.arg1).toNat args.arg0 k
  | .call caller .ipcReceive args => ∀ message ∈ (k.ledger.queue caller).head?,
      InUserRegion args.arg0 32 ∧ InUserRegion (at' args.arg0 16) message.payloadSize.toNat
  | _ => True

/-- **A call that balances**: a send delivers the block it allocated, a receive frees the block of
the message it drops, and an exit drops a queue without blocks. -/
def CallEvent.Balanced (k : Kernel) : CallEvent → Prop
  | .call _ .ipcSend args => isUserAddress args.arg1 = true → k.blocks.headD 0#64 = 0#64
      ∨ ∃ i, k.ledger.target args.arg0 = some i
        ∧ HasRoom (k.ledger.queue i).length (k.caps i) k.blocks.tail
  | .call caller .ipcReceive _ => (k.ledger.queue caller).head?.map IpcMessage.payload
      = (k.ledger.queue caller).getLast?.map IpcMessage.payload
  | .call _ .exit _ => ∀ b ∈ k.ledger.processes.getLast?, ∀ message ∈ b.queue,
      message.payload = 0#64
  | _ => True

/-! ## Kernels and ledgers -/

section Ledgers

variable {l : Ledger} {k k' : Kernel} {caps : ℕ → ℕ} {i : ℕ} {m : Mem}

theorem Kernel.length_ledger (k : Kernel) :
    k.ledger.processes.length = k.sched.processes.length := by
  simp [Kernel.ledger]

/-- A capacity is the one its vector says. -/
theorem Ledger.Shows.caps_eq (hs : l.Shows k caps) (hi : i < l.processes.length) :
    k.caps i = caps i := by
  have hv := hs.vec i hi
  have hsmall := hv.small
  rw [Kernel.caps, hv.capacity, BitVec.toNat_ofNat]
  omega

/-- **A kernel shows one ledger**: its own, but for the blocks. -/
theorem Ledger.Shows.ledger_eq (hs : l.Shows k caps) :
    k.ledger = { l with outstanding := (k.allocated : Multiset (BitVec 64)) } := by
  have hprocesses : k.ledger.processes = l.processes := by
    refine List.ext_getElem (k.length_ledger.trans hs.length.symm) fun i h₁ h₂ => ?_
    have hlt : i < k.sched.processes.length := k.length_ledger ▸ h₁
    have hqueue : queueOf k i = l.processes[i].queue :=
      (IsQueue.queueOf_eq ⟨_, hs.vec i h₂⟩).trans (Ledger.queue_eq (List.getElem?_eq_getElem h₂))
    have hpid : (k.sched.get i).pid = l.processes[i].pid := by
      have hpids := congrArg (fun pids : List (BitVec 32) => pids[i]?) hs.pids
      simpa [h₂, hlt, Sched.get] using hpids.symm
    simp only [Kernel.ledger, List.getElem_map, List.getElem_range, hqueue, hpid]
  rw [Ledger.mk.injEq]
  exact ⟨hprocesses, hs.ports.symm, rfl⟩

/-- A kernel whose queues show some ledger has its mailboxes in order. -/
theorem Ledger.Shows.mailboxes (hs : l.Shows k caps)
    (hkernel : ∀ i < k.sched.processes.length,
      InKernel (k.sched.get i).messageQueue (16 + 32 * caps i)) : k.Mailboxes := by
  have hprocesses : k.ledger.processes = l.processes := by rw [hs.ledger_eq]
  have hqueue : ∀ i, k.ledger.queue i = l.queue i := fun i => by
    rw [Ledger.queue, Ledger.queue, hprocesses]
  refine ⟨⟨hprocesses ▸ hs.pids, rfl, fun i hi => ?_, fun i hi j hj hij hcap => ?_, hs.roomy⟩,
    fun i hi => ?_⟩
  · rw [hprocesses] at hi
    rw [hs.caps_eq hi, hqueue]
    exact hs.vec i hi
  · rw [hprocesses] at hi hj
    rw [hs.caps_eq hi] at hcap
    rw [hs.caps_eq hi, hs.caps_eq hj]
    exact hs.apart i hi j hj hij hcap
  · rw [hs.caps_eq (hs.length ▸ hi)]
    exact hkernel i hi

/-- What the users write is in no queue. -/
theorem Ledger.Shows.kernelSame (hs : l.Shows k caps)
    (hkernel : ∀ i < k.sched.processes.length,
      InKernel (k.sched.get i).messageQueue (16 + 32 * caps i)) (hsame : KernelSame k.mem m) :
    l.Shows { k with mem := m } caps :=
  hs.frame (h := ⟨m, k.blocks⟩) hsame.sameOutside
    (fun j hj => (hkernel j (hs.length ▸ hj)).apart_users) (List.suffix_refl _)

/-- A kernel that differs in neither memory nor tables has the same ledger. -/
theorem Kernel.Mailboxes.congr (hk : k.Mailboxes) (hmem : k'.mem = k.mem)
    (hblocks : k'.blocks = k.blocks) (hports : k'.portToPid = k.portToPid)
    (hproc : k'.sched.processes = k.sched.processes)
    (hget : ∀ i, k'.sched.get i = k.sched.get i) (halloc : k'.allocated = k.allocated) :
    k'.Mailboxes ∧ k'.ledger = k.ledger := by
  have hshows : k.ledger.Shows k' k.caps := by
    refine ⟨?_, hports.symm, fun i hi => ?_, fun i hi j hj hij hcap => ?_, fun block hblock => ?_⟩
    · rw [hproc]
      exact hk.shows.pids
    · rw [hmem, hget]
      exact hk.shows.vec i hi
    · rw [hget, hget]
      exact hk.shows.apart i hi j hj hij hcap
    · exact hk.shows.roomy block (by rwa [Kernel.heap, hblocks] at hblock)
  refine ⟨hshows.mailboxes fun i hi => ?_, ?_⟩
  · rw [hget]
    exact hk.kernel i (hproc ▸ hi)
  · rw [hshows.ledger_eq, halloc]
    rfl

/-- Whoever runs, the ledger is the same. -/
theorem Kernel.Mailboxes.resume (hk : k.Mailboxes) (caller : ℕ) : (k.resume caller).Mailboxes :=
  (hk.congr (show (k.resume caller).mem = k.mem from rfl) rfl rfl rfl (fun _ => rfl) rfl).1

theorem schedCurrent_resume {caller : ℕ} (h : caller < k.sched.processes.length) :
    schedCurrent (k.resume caller).sched = some (k.sched.get caller) :=
  if_neg (Nat.ne_of_gt (Nat.zero_lt_of_lt h))

/-- A payload that is allocated counts as one more block… -/
theorem coe_allocated_withPayload (k : Kernel) (payload : BitVec 64) :
    ((k.withPayload payload).allocated : Multiset (BitVec 64))
      = blockAt payload + (k.allocated : Multiset (BitVec 64)) := by
  rw [Kernel.withPayload, blockAt]
  split <;> simp

/-- …and one that is freed as one fewer. -/
theorem coe_allocated_of_free {ptr : BitVec 64} (h : Kernel.free ptr k = some k') :
    (k'.allocated : Multiset (BitVec 64)) = (k.allocated : Multiset (BitVec 64)) - blockAt ptr := by
  unfold Kernel.free at h
  rw [blockAt]
  split_ifs at h ⊢
  · obtain rfl := Option.some.inj h
    simp
  · obtain rfl := Option.some.inj h
    rw [Multiset.sub_singleton, Multiset.coe_erase]

end Ledgers

/-! ## One call -/

section Calls

variable {k k' : Kernel} {caller : ℕ} {args : SyscallArgs}

theorem sysLog_ne_switched {buff len : BitVec 64} :
    (sysLog buff len k).result ≠ .switched k' := by
  rw [sysLog]
  split_ifs
  · simp
  · cases strlen k.mem buff with
    | none => simp
    | some n =>
      dsimp only
      split_ifs <;> simp

theorem sysIpcSend_ne_switched {toPort buff : BitVec 64} :
    (sysIpcSend toPort buff k).result ≠ .switched k' := by
  rw [sysIpcSend]
  split_ifs
  · simp
  · dsimp only
    split
    · simp
    · dsimp only
      split <;> simp

theorem sysIpcReceive_ne_switched {buff : BitVec 64} :
    (sysIpcReceive buff k).result ≠ .switched k' := by
  rw [sysIpcReceive]
  cases schedCurrent k.sched with
  | none => simp
  | some task =>
    dsimp only
    split_ifs
    · simp
    · obtain ⟨message, m⟩ := ipcReceive task.messageQueue k.mem
      cases message with
      | none => simp
      | some message =>
        dsimp only
        split_ifs
        · simp
        · dsimp only
          cases Kernel.free _ _ <;> simp [SysResult.ofFree]

theorem sysCreateProcess_ne_switched {elf portId : BitVec 64} :
    (sysCreateProcess elf portId k).result ≠ .switched k' := by
  rw [sysCreateProcess]
  dsimp only
  split <;> simp

/-- Every call but an exit returns, or stops the machine. -/
theorem returned_of_kernel {entry : Syscall} (hentry : entry ≠ .exit)
    (h : (entry.run args k).result.kernel = some k') :
    ∃ status, (entry.run args k).result = .returned status k' := by
  cases hresult : (entry.run args k).result with
  | returned status k₁ =>
    rw [hresult] at h
    obtain rfl := Option.some.inj h
    exact ⟨status, rfl⟩
  | stopped =>
    rw [hresult] at h
    cases h
  | switched k₁ =>
    cases entry with
    | stub => cases hresult
    | log => exact absurd hresult sysLog_ne_switched
    | ipcSend => exact absurd hresult sysIpcSend_ne_switched
    | ipcReceive => exact absurd hresult sysIpcReceive_ne_switched
    | createProcess => exact absurd hresult sysCreateProcess_ne_switched
    | exit => exact absurd rfl hentry

/-- `sys_log` changes nothing. -/
theorem eq_of_sysLog {buff len : BitVec 64} {status : BitVec 32}
    (h : (sysLog buff len k).result = .returned status k') : k' = k := by
  rw [sysLog] at h
  split_ifs at h
  · exact (SysResult.returned.inj h).2.symm
  · cases hlen : strlen k.mem buff with
    | none =>
      rw [hlen] at h
      cases h
    | some n =>
      rw [hlen] at h
      dsimp only at h
      split_ifs at h <;> exact (SysResult.returned.inj h).2.symm

/-- `sys_create_process` keeps memory and tables, when it comes back. -/
theorem Kernel.Mailboxes.sysCreateProcess {elf portId : BitVec 64} {status : BitVec 32}
    (hk : k.Mailboxes) (h : (MoonOS.sysCreateProcess elf portId k).result = .returned status k') :
    k'.Mailboxes ∧ k'.ledger = k.ledger := by
  rw [MoonOS.sysCreateProcess, sysCreateProcessBy] at h
  dsimp only at h
  split at h
  · cases h
  case h_2 hcreate =>
    obtain ⟨-, rfl⟩ := SysResult.returned.inj h
    split at hcreate
    · obtain ⟨-, rfl⟩ := Prod.mk.inj (Option.some.inj hcreate)
      exact ⟨hk, rfl⟩
    · obtain ⟨⟨result, k₁⟩, hnull, hcreate⟩ := Option.bind_eq_some_iff.mp hcreate
      obtain ⟨vm, pid, sched, hnew, hpid, rfl, rfl⟩ := createOfNull_eq_some hnull
      obtain ⟨-, rfl⟩ := Prod.mk.inj (Option.some.inj hcreate)
      obtain ⟨-, -, rfl⟩ := schedAllocatePid_eq_some hpid
      obtain ⟨-, -, ⟨-, rfl⟩ | ⟨hne, -⟩⟩ := archAllocPage_cases hnew
      · exact hk.congr rfl rfl rfl rfl (fun _ => rfl) rfl
      · exact absurd rfl hne

/-- What a kernel's blocks come to behind a send, once its queues are known. -/
theorem Ledger.Shows.owned_iff_of_withPayload {l : Ledger} {caps : ℕ → ℕ} {block : BitVec 64}
    (hs : l.Shows k' caps) (h : k'.allocated = (k.withPayload block).allocated) :
    k'.Owned ↔ ({ l with outstanding := blockAt block
      + (k.allocated : Multiset (BitVec 64)) } : Ledger).Owned := by
  rw [Kernel.Owned, hs.ledger_eq, h, coe_allocated_withPayload]

/-- **A send balances exactly when it delivers the block it has allocated.** -/
theorem Kernel.Mailboxes.sysIpcSend {toPort buff : BitVec 64} {current : ExecutionSpace}
    {status : BitVec 32} (hk : k.Mailboxes) (howned : k.Owned)
    (hcur : schedCurrent k.sched = some current) (huser : isUserAddress buff = true)
    (hsize : (userPayloadSize k.mem buff).toNat < 2 ^ 31)
    (hheap : KernelHeap k.ledger k.caps (userPayloadSize k.mem buff).toNat toPort k)
    (h : (MoonOS.sysIpcSend toPort buff k).result = .returned status k') :
    k'.Mailboxes ∧ (k'.Owned ↔ k.blocks.headD 0#64 = 0#64
      ∨ ∃ i, k.ledger.target toPort = some i
        ∧ HasRoom (k.ledger.queue i).length (k.caps i) k.blocks.tail) := by
  have hheld : BlockHolds (userPayloadSize k.mem buff) (userPayloadSize k.mem buff).toNat :=
    ⟨by rw [BitVec.toNat_setWidth]; exact Nat.mod_le _ _, by omega⟩
  have halloc : alloc (userPayloadSize k.mem buff) k.heap
      = (k.blocks.headD 0#64, ⟨k.mem, k.blocks.tail⟩) :=
    alloc_of_not_msb (msb_setWidth_of_lt hsize)
  have hresult := h
  rw [result_sysIpcSend toPort huser, halloc] at hresult
  -- it came back, so the payload had a block or was empty
  have hblock : userPayloadSize k.mem buff = 0#64 ∨ k.blocks.headD 0#64 ≠ 0#64 := by
    by_contra hfault
    rw [if_pos (by tauto)] at hresult
    cases hresult
  cases htarget : k.ledger.target toPort with
  | none =>
    obtain ⟨hshows, -⟩ := hk.shows.copiedPayload hheld hheap.toHeapApart huser hsize hblock
    have hshows := hshows.withPayload (k.blocks.headD 0#64)
    dsimp only at hresult
    rw [if_neg (by tauto), hshows.ipcSend_of_none htarget] at hresult
    obtain ⟨-, rfl⟩ := SysResult.returned.inj hresult
    refine ⟨hshows.mailboxes hk.kernel, (hshows.owned_iff_of_withPayload (k := k) rfl).trans
      ((howned.alloc (k.blocks.headD 0#64)).trans (or_iff_left ?_).symm)⟩
    rintro ⟨i, hi, -⟩
    cases hi
  | some i =>
    obtain ⟨hroom, k₁, cap, hsent, hallocated, hshows, hother, hqueue, -⟩ |
      ⟨hroom, k₁, hsent, hallocated, hshows, hsched⟩ :=
      hk.shows.sysIpcSend_of_target hheld hheap.toHeapApart huser hsize hblock htarget hcur
    · obtain ⟨-, rfl⟩ := SysResult.returned.inj (h.symm.trans hsent)
      refine ⟨hshows.mailboxes fun j hj => ?_,
        (hshows.owned_iff_of_withPayload hallocated).trans (iff_of_true ?_ (.inr ⟨i, rfl, hroom⟩))⟩
      · rw [← hshows.length, Ledger.deliver, Ledger.length_setQueue, k.length_ledger] at hj
        by_cases hji : j = i
        · subst hji
          rw [Function.update_self]
          exact hheap.queue_inKernel htarget hqueue
        · rw [Function.update_of_ne hji, hother j hji]
          exact hk.kernel j hj
      · exact howned.deliver (Ledger.lt_of_target htarget) _
    · obtain ⟨-, rfl⟩ := SysResult.returned.inj (h.symm.trans hsent)
      refine ⟨hshows.mailboxes fun j hj => ?_,
        (hshows.owned_iff_of_withPayload hallocated).trans ?_⟩
      · rw [hsched] at hj ⊢
        exact hk.kernel j hj
      · refine (howned.alloc (k.blocks.headD 0#64)).trans (or_iff_left ?_).symm
        rintro ⟨i', hi', hroom'⟩
        obtain rfl := Option.some.inj hi'
        exact hroom hroom'

/-- What the response is written over is the users'. -/
theorem kernelSame_received {m : Mem} {q buff : BitVec 64} {left : ℕ} {x : IpcMessage}
    (hbuff : InUserRegion buff 32) (hcopy : InUserRegion (at' buff 16) x.payloadSize.toNat) :
    KernelSame (store m (at' q 0) 8 (BitVec.ofNat 64 left)) (received m q buff left x) := by
  have houtside : ∀ {a u : BitVec 64} {n : ℕ}, isUserAddress a = false → InUserRegion u n →
      n ≤ (a - u).toNat := by
    intro a u n ha hu
    by_contra hlt
    have hconfined := Access.confined_iff_inUserRegion (a := ⟨true, u, n⟩).mpr hu (a - u).toNat
      (by dsimp only; omega)
    rw [at'_toNat_sub] at hconfined
    exact absurd (ha.symm.trans hconfined) (by decide)
  intro a ha
  rw [received, sameOutside_memcpy _ _ _ _ a (houtside ha hcopy),
    sameOutside_respond _ _ _ a (houtside ha hbuff)]

/-- **A receive balances exactly when the message it drops has the block that it frees.** -/
theorem Kernel.Mailboxes.sysIpcReceive {buff : BitVec 64} {status : BitVec 32} (hk : k.Mailboxes)
    (howned : k.Owned) (hlt : caller < k.sched.processes.length)
    (hcur : schedCurrent k.sched = some (k.sched.get caller))
    (hplaced : ∀ message ∈ (k.ledger.queue caller).head?,
      InUserRegion buff 32 ∧ InUserRegion (at' buff 16) message.payloadSize.toNat)
    (h : (MoonOS.sysIpcReceive buff k).result = .returned status k') :
    k'.Mailboxes ∧ (k'.Owned ↔ (k.ledger.queue caller).head?.map IpcMessage.payload
      = (k.ledger.queue caller).getLast?.map IpcMessage.payload) := by
  have hi : caller < k.ledger.processes.length := k.length_ledger ▸ hlt
  have hv := hk.shows.vec caller hi
  have hq := hk.kernel caller hlt
  obtain ⟨ptr, m, hreceive, -, hshows⟩ := hk.shows.ipcReceive hi
  cases hqueue : k.ledger.queue caller with
  | nil =>
    rw [hqueue] at hv
    rw [MoonOS.sysIpcReceive, hcur] at h
    dsimp only at h
    rw [if_neg hq.ne_null, ipcReceive_of_empty hv] at h
    obtain ⟨-, rfl⟩ := SysResult.returned.inj h
    exact ⟨hk, iff_of_true howned rfl⟩
  | cons x xs =>
    have hv' := hv
    rw [hqueue] at hv'
    obtain ⟨hbuff, hcopy⟩ := hplaced x (by rw [hqueue]; rfl)
    have htop : userRegionTop.toNat + 1 = 2 ^ 47 := rfl
    have hbuff' : buff.toNat + 32 ≤ 2 ^ 63 := by
      rcases hbuff with hz | ⟨-, hb⟩ <;> omega
    have hcopy' : buff.toNat + 16 + x.payloadSize.toNat ≤ 2 ^ 63 := by
      rcases hcopy with hz | ⟨-, hb⟩
      · omega
      · rw [toNat_at' (by omega)] at hb
        omega
    -- the block is in the queue, and so it is allocated
    have hfree : x.payload = 0#64 ∨ x.payload ∈ k.allocated :=
      or_iff_not_imp_left.mpr fun hne => Multiset.mem_coe.mp
        (howned.mem_outstanding (i := caller) (by rw [hqueue]; exact List.mem_cons_self) hne)
    obtain ⟨k₁, hresult, hfreed⟩ := sysIpcReceive_frees hcur hv' hq hbuff' hcopy' hfree
    obtain ⟨-, rfl⟩ := SysResult.returned.inj (h.symm.trans hresult)
    obtain ⟨-, rfl⟩ := Prod.mk.inj (hreceive.symm.trans (ipcReceive_of_queued hv').1)
    have hshows' : (k.ledger.receive caller).Shows k' k.caps := by
      rw [Kernel.free_eq_some hfreed]
      exact (hshows.kernelSame hk.kernel (kernelSame_received hbuff hcopy)).withAllocated _
    refine ⟨hshows'.mailboxes ?_, ?_⟩
    · rw [Kernel.free_eq_some hfreed]
      exact hk.kernel
    · rw [Kernel.Owned, hshows'.ledger_eq, coe_allocated_of_free hfreed]
      obtain ⟨y, hy⟩ : ∃ y, (x :: xs).getLast? = some y :=
        ⟨_, List.getLast?_eq_some_getLast (by simp)⟩
      refine (howned.receive (i := caller) (x := x) (y := y) (by rw [hqueue]; rfl)
        (by rw [hqueue]; exact hy)).trans ?_
      rw [hy]
      simp

/-- **An exit balances exactly when the queue it drops has no block.** -/
theorem Kernel.Mailboxes.sysExit {current : ExecutionSpace} (hk : k.Mailboxes) (howned : k.Owned)
    (hcur : schedCurrent k.sched = some current) (hmem : current ∈ k.sched.processes)
    (h : (MoonOS.sysExit k).result = .switched k') :
    k'.Mailboxes ∧ (k'.Owned ↔ ∀ b ∈ k.ledger.processes.getLast?, ∀ message ∈ b.queue,
      message.payload = 0#64) := by
  obtain ⟨i, hfind⟩ :
      ∃ i, k.sched.processes.findIdx? (fun es => es.pid = current.pid) = some i := by
    rw [← Option.isSome_iff_exists, List.findIdx?_isSome, List.any_eq_true]
    exact ⟨current, hmem, by simp⟩
  obtain ⟨hok, hproc, -, -⟩ :=
    schedDequeue_of_findIdx? (fun processes _ => processes.dropLast) hfind
  rw [MoonOS.sysExit, hcur] at h
  dsimp only at h
  rw [if_neg (by simp [hok])] at h
  obtain rfl := SysResult.switched.inj h
  have hshows := hk.shows.exit hfind
  refine ⟨hshows.mailboxes fun j hj => ?_, ?_⟩
  · dsimp only at hj
    rw [hproc, List.length_dropLast] at hj
    dsimp only
    rw [get_schedDequeue hfind hj]
    exact hk.kernel j (by omega)
  · rw [Kernel.Owned, hshows.ledger_eq]
    exact howned.exit

/-- **One event keeps the blocks owned exactly when it balances.** -/
theorem Kernel.Mailboxes.step (hk : k.Mailboxes) (howned : k.Owned) {e : CallEvent}
    (hplaced : e.Placed k) (h : e.apply k = some k') :
    k'.Mailboxes ∧ (k'.Owned ↔ e.Balanced k) := by
  cases e with
  | user m =>
    obtain rfl := Option.some.inj h
    have hsame : KernelSame k.mem fun a => if isUserAddress a then m a else k.mem a :=
      fun a ha => by simp [ha]
    have hshows := hk.shows.kernelSame hk.kernel hsame
    refine ⟨hshows.mailboxes hk.kernel, iff_of_true ?_ trivial⟩
    rw [Kernel.Owned, hshows.ledger_eq]
    exact howned
  | call caller entry args =>
    rw [CallEvent.apply] at h
    split at h
    swap
    · cases h
    case isTrue hlt =>
    have hr := hk.resume caller
    have hcur := schedCurrent_resume (k := k) hlt
    cases entry with
    | stub =>
      obtain rfl := Option.some.inj h
      exact ⟨hr, iff_of_true howned trivial⟩
    | log =>
      obtain ⟨status, h⟩ := returned_of_kernel (by decide) h
      rw [eq_of_sysLog h]
      exact ⟨hr, iff_of_true howned trivial⟩
    | ipcSend =>
      obtain ⟨status, h⟩ := returned_of_kernel (by decide) h
      by_cases huser : isUserAddress args.arg1 = true
      · obtain ⟨hsize, hheap⟩ := hplaced huser
        refine (hr.sysIpcSend howned hcur huser hsize ⟨⟨hheap.kernel, hheap.queues, hheap.grown⟩,
          hheap.queuesKernel, hheap.nextKernel⟩ h).imp_right fun hiff => hiff.trans ?_
        exact (imp_iff_right huser).symm
      · rw [Syscall.run, MoonOS.sysIpcSend, if_pos (by simpa using huser)] at h
        obtain ⟨-, rfl⟩ := SysResult.returned.inj h
        exact ⟨hr, iff_of_true howned fun h => absurd h huser⟩
    | ipcReceive =>
      obtain ⟨status, h⟩ := returned_of_kernel (by decide) h
      exact hr.sysIpcReceive howned hlt hcur hplaced h
    | createProcess =>
      obtain ⟨status, h⟩ := returned_of_kernel (by decide) h
      obtain ⟨hk', hledger⟩ := hr.sysCreateProcess h
      exact ⟨hk', iff_of_true (by rw [Kernel.Owned, hledger]; exact howned) trivial⟩
    | exit =>
      cases hresult : (MoonOS.sysExit (k.resume caller)).result with
      | returned status k₁ =>
        rw [MoonOS.sysExit, hcur] at hresult
        dsimp only at hresult
        split at hresult <;> cases hresult
      | switched k₁ =>
        rw [Syscall.run, hresult] at h
        obtain rfl := Option.some.inj h
        exact hr.sysExit howned hcur (Sched.get_mem hlt) hresult
      | stopped =>
        rw [Syscall.run, hresult] at h
        cases h

end Calls

/-! ## Two runs -/

end MoonOS
