import MoonOS.Base.Str
import MoonOS.Ipc.Ipc
import MoonOS.Mm.Addr
import MoonOS.Trace.Log

/-!
# Abi/Syscalls — the handlers of `kernel/abi/syscalls.c`, and what they touch for the user

A handler here returns what it did *and* what it touched on the way: every range of bytes it read or
wrote through an address the caller supplied or through a pointer of its own, the containers it
used, what it traced.  A null pointer is unmapped, so the kernel's own accesses through one stop the
machine; every other address is memory.

`is_user_address` checks one address, and two handlers of three call it:

* `confined_iff` — the ranges a call touches lie in the user region exactly when `SyscallFits`,
  which says for each handler what its caller has to keep to; what a handler refuses, it refuses
  with a status other than `0` and before it touches anything.
-/

namespace MoonOS

open ByteMemory

/-! ## Accesses -/

/-- A range of bytes touched through a user-supplied address. -/
structure Access where
  write : Bool
  addr : BitVec 64
  len : ℕ
deriving DecidableEq, Repr

/-- Every byte of the range is a user address. -/
def Access.Confined (a : Access) : Prop :=
  ∀ i < a.len, isUserAddress (at' a.addr i) = true

/-- A range from `addr`, `len` bytes long, is empty or stays between the bounds. -/
def InUserRegion (addr : BitVec 64) (len : ℕ) : Prop :=
  len = 0 ∨ (userRegionBottom.toNat ≤ addr.toNat ∧ addr.toNat + len ≤ userRegionTop.toNat + 1)

instance (addr : BitVec 64) (len : ℕ) : Decidable (InUserRegion addr len) := by
  unfold InUserRegion; infer_instance

/-- How a call ended. -/
inductive SysResult
  /-- It returned a status. -/
  | returned (status : BitVec 32) (k : Kernel)
  /-- The caller is gone, and the timer picks the next process. -/
  | switched (k : Kernel)
  /-- A panic, a fault, or a loop that does not end. -/
  | stopped

/-- What a call did: the ranges it touched through addresses of its caller's and through pointers
of its own, the containers it used, what it traced, and how it ended. -/
structure Outcome where
  accesses : List Access := []
  own : List Access := []
  containers : List (BitVec 64) := []
  logs : List TraceCall := []
  result : SysResult

/-- Every access of a call is confined to the user region. -/
def Outcome.Confined (o : Outcome) : Prop := ∀ a ∈ o.accesses, a.Confined

/-! ## The handlers -/

/-- `trace(TRACE_SYSCALL, …)`. -/
def traceSyscall (text : List (BitVec 8)) : TraceCall := ⟨ascii "syscall", text⟩

/-- `sys_stub`. -/
def sysStub (k : Kernel) : Outcome := { result := .returned (-1#32) k }

/-- `sys_log`.  The trace walks the string again, up to the same NUL. -/
def sysLog (buff len : BitVec 64) (k : Kernel) : Outcome :=
  if isUserAddress buff = false then { result := .returned 1#32 k }
  else
    match strlen k.mem buff with
    | none => { accesses := [⟨false, buff, 2 ^ 64⟩], result := .stopped }
    | some n =>
      if BitVec.ofNat 64 n ≠ len then
        { accesses := [⟨false, buff, n + 1⟩], result := .returned 2#32 k }
      else
        { accesses := [⟨false, buff, n + 1⟩, ⟨false, buff, n + 1⟩]
          logs := [traceSyscall ((List.range n).map fun i => k.mem (at' buff i))]
          result := .returned 0#32 k }

/-- `message->message.payload` of a `struct UserIpcMessage`. -/
def userPayload (m : Mem) (message : BitVec 64) : BitVec 64 := load m (at' message 16) 8

/-- `message->message.payload_size`. -/
def userPayloadSize (m : Mem) (message : BitVec 64) : BitVec 64 := load m (at' message 24) 8

/-- The kernel with a block allocated for a payload; the null pointer is none. -/
def Kernel.withPayload (k : Kernel) (payload : BitVec 64) : Kernel :=
  { k with allocated := if payload = 0#64 then k.allocated else payload :: k.allocated }

/-- `sys_ipc_send`.  A copy into the null pointer reads one byte and then faults. -/
def sysIpcSend (toPort buff : BitVec 64) (k : Kernel) : Outcome :=
  if isUserAddress buff = false then { result := .returned 1#32 k }
  else
    let size := userPayloadSize k.mem buff
    let (payload, h) := alloc size k.heap
    let src := userPayload h.mem buff
    let fields : List Access := [⟨false, at' buff 24, 8⟩, ⟨false, at' buff 16, 8⟩]
    let own : List Access := [⟨true, payload, size.toNat⟩]
    if payload = 0#64 ∧ size ≠ 0#64 then
      { accesses := fields ++ [⟨false, src, 1⟩], own, result := .stopped }
    else
      let m := memcpy h.mem payload src size.toNat
      let k := (k.withHeap { h with mem := m }).withPayload payload
      { accesses := fields ++ [⟨false, src, size.toNat⟩, ⟨false, at' buff 24, 8⟩]
        own
        containers := (sendQueue toPort k).toList
        result :=
          match ipcSend toPort payload (userPayloadSize m buff) k with
          | none => .stopped
          | some (_, k) => .returned 0#32 k }

/-- `IPC_MESSAGE_TYPE_RESPONSE`. -/
def ipcMessageTypeResponse : BitVec 32 := 2#32

/-- The three fields of the response that `sys_ipc_receive` fills in from the message. -/
def fillResponse (m : Mem) (response message : BitVec 64) : Mem :=
  let m := store m response 8 (load m (at' message 0) 8)
  let m := store m (at' response 8) 4 ipcMessageTypeResponse
  store m (at' response 24) 8 (load m (at' message 24) 8)

/-- `free`, of a payload.  TLSF takes a null pointer for nothing, and asserts that a block is not
free already; what it writes to the headers of the heap is not followed. -/
def Kernel.free (ptr : BitVec 64) (k : Kernel) : Option Kernel :=
  if ptr = 0#64 then some k
  else if k.allocated.contains ptr then some { k with allocated := k.allocated.erase ptr }
  else none

/-- The end of a call whose last step is `free`. -/
def SysResult.ofFree : Option Kernel → SysResult
  | none => .stopped
  | some k => .returned 0#32 k

/-- What is freed is not allocated any more, and that is all. -/
theorem Kernel.free_eq_some {ptr : BitVec 64} {k k' : Kernel} (h : Kernel.free ptr k = some k') :
    k' = { k with allocated := k'.allocated } := by
  unfold Kernel.free at h
  split_ifs at h <;> cases h <;> rfl

/-- What `sys_ipc_receive` copies from: the payload, as the message says after the response has been
filled in. -/
def receivedPayload (buff message : BitVec 64) (m : Mem) : Access :=
  let m := fillResponse m buff message
  ⟨false, load m (at' message 16) 8, (load m (at' message 24) 8).toNat⟩

/-- The memory with the response filled in and the payload copied over its own `payload` field. -/
def respondFrom (buff message : BitVec 64) (m : Mem) : Mem :=
  memcpy (fillResponse m buff message) (at' buff 16) (receivedPayload buff message m).addr
    (receivedPayload buff message m).len

/-- `sys_ipc_receive`.  The message is read where it lies in the queue: its payload and size after
the response has been filled in, the block to free after the payload has been copied. -/
def sysIpcReceive (buff : BitVec 64) (k : Kernel) : Outcome :=
  match schedCurrent k.sched with
  | none => { result := .returned 1#32 k }
  | some task =>
    let containers := [task.messageQueue]
    if task.messageQueue = 0#64 then { containers, result := .stopped }
    else
      match ipcReceive task.messageQueue k.mem with
      | (none, m) => { containers, result := .returned 2#32 { k with mem := m } }
      | (some message, m) =>
        if message = 0#64 then { containers, result := .returned 2#32 { k with mem := m } }
        else
          let payload := receivedPayload buff message m
          let m := respondFrom buff message m
          { accesses := [⟨true, buff, 8⟩, ⟨true, at' buff 8, 4⟩, ⟨true, at' buff 24, 8⟩,
              ⟨true, at' buff 16, payload.len⟩]
            own := [payload]
            containers
            logs := [traceSyscall (formatAltHex (at' buff 16) ++ ascii "\n")]
            result := .ofFree (Kernel.free (load m (at' message 16) 8) { k with mem := m }) }

section Create

variable {S : Type} (create : S → Option (Except String ExecutionSpace × S))
  (assign : ExecutionSpace → BitVec 32 → S → Option (Bool × ExecutionSpace × S))
  (enqueue : ExecutionSpace → S → S)

/-- `sys_create_process` behind the check of its arguments: the status and the state, over what
`create_execution_space`, `ipc_assign_port` and `sched_enqueue` do to the state. -/
def createProcess (port : BitVec 32) (s : S) : Option (BitVec 32 × S) :=
  (create s).bind fun (result, s) =>
  match result with
  | .error _ => some (2#32, s)
  | .ok space =>
    (assign space port s).map fun (assigned, space, s) =>
      if assigned then (0#32, enqueue space s) else (3#32, s)

/-- `sys_create_process`. -/
def sysCreateProcessBy (elf portId : BitVec 64) (s : S) : Option (BitVec 32 × S) :=
  if elf = 0#64 ∨ portId = 0#64 then some (1#32, s)
  else createProcess create assign enqueue (portId.setWidth 32) s

end Create

/-- `create_execution_space`, with the null vectors `sys_create_process` passes, "TODO: argv,
capabilities".  The loop over the capabilities starts by reading the vector's size: if there was a
page for the pagemap, that faults. -/
def createOfNull (k : Kernel) : Option (Except String ExecutionSpace × Kernel) :=
  (archCreateNewPagemap k.vm).bind fun (vmSpace, vm) =>
  (schedAllocatePid k.sched).bind fun (_, sched) =>
  if vmSpace = 0#64 then
    some (.error "Failed to create new pagemap", { k.withVm vm with sched })
  else none

/-- **All that `create_execution_space` can come back from is the lack of a page.** -/
theorem createOfNull_eq_some {k k' : Kernel} {result : Except String ExecutionSpace}
    (h : createOfNull k = some (result, k')) :
    ∃ vm pid sched, archCreateNewPagemap k.vm = some (0#64, vm)
      ∧ schedAllocatePid k.sched = some (pid, sched)
      ∧ result = .error "Failed to create new pagemap" ∧ k' = { k.withVm vm with sched } := by
  obtain ⟨⟨p, vm⟩, hnew, h⟩ := Option.bind_eq_some_iff.mp h
  obtain ⟨⟨pid, sched⟩, hpid, h⟩ := Option.bind_eq_some_iff.mp h
  dsimp only at h
  split at h
  case isTrue hnull =>
    obtain ⟨rfl, rfl⟩ := Prod.mk.inj (Option.some.inj h)
    exact ⟨vm, pid, sched, hnull ▸ hnew, hpid, rfl, rfl⟩
  case isFalse => cases h

/-- `sys_create_process`: it gets no further than `create_execution_space`. -/
def sysCreateProcess (elf portId : BitVec 64) (k : Kernel) : Outcome where
  logs :=
    if elf = 0#64 ∨ portId = 0#64 then []
    else
      [traceSyscall (ascii "elf: " ++ formatPointer elf ++ ascii " | port id: "
        ++ formatInt (portId.setWidth 32) ++ ascii "\n")]
  result :=
    match sysCreateProcessBy createOfNull (fun _ _ _ => none) (fun _ k => k) elf portId k with
    | none => .stopped
    | some (status, k) => .returned status k

/-- `sys_exit`.  An erase drops the last process, whichever was found (`ccVecErase_isVec`). -/
def sysExit (k : Kernel) : Outcome :=
  match schedCurrent k.sched with
  | none => { result := .returned 1#32 k }
  | some current =>
    match schedDequeue (fun processes _ => processes.dropLast) current.pid k.sched with
    | (status, sched) =>
      if status ≠ 0#32 then { result := .stopped } else { result := .switched { k with sched } }

/-- The entries of `syscall_list`. -/
inductive Syscall
  | stub | log | ipcSend | ipcReceive | createProcess | exit
deriving DecidableEq, Repr

/-- The arguments of a call; no handler reads the last three. -/
structure SyscallArgs where
  arg0 : BitVec 64
  arg1 : BitVec 64
  arg2 : BitVec 64
  arg3 : BitVec 64
  arg4 : BitVec 64
  arg5 : BitVec 64

/-- The handler of an entry, applied. -/
def Syscall.run (args : SyscallArgs) (k : Kernel) : Syscall → Outcome
  | stub => sysStub k
  | log => sysLog args.arg1 args.arg2 k
  | ipcSend => sysIpcSend args.arg0 args.arg1 k
  | ipcReceive => sysIpcReceive args.arg0 k
  | createProcess => sysCreateProcess args.arg0 args.arg1 k
  | exit => sysExit k

/-! ## What each handler's caller has to keep to -/

/-- How much of the payload `sys_ipc_send` reads: all of it, or up to the fault when the heap has no
block for it. -/
def sendReads (buff : BitVec 64) (k : Kernel) : ℕ :=
  let size := userPayloadSize k.mem buff
  if (alloc size k.heap).1 = 0#64 then min 1 size.toNat else size.toNat

/-- **The condition under which a call stays inside the user region.** -/
def SyscallFits (args : SyscallArgs) (k : Kernel) : Syscall → Prop
  | .stub | .createProcess | .exit => True
  | .log => isUserAddress args.arg1 = true →
      ∃ n, strlen k.mem args.arg1 = some n ∧ InUserRegion args.arg1 (n + 1)
  | .ipcSend => isUserAddress args.arg1 = true →
      InUserRegion args.arg1 32 ∧ InUserRegion (userPayload k.mem args.arg1) (sendReads args.arg1 k)
  | .ipcReceive => ∀ task message m, schedCurrent k.sched = some task →
      task.messageQueue ≠ 0#64 → ipcReceive task.messageQueue k.mem = (some message, m) →
      message ≠ 0#64 →
      InUserRegion args.arg0 32
        ∧ InUserRegion (at' args.arg0 16) (receivedPayload args.arg0 message m).len

/-- The arguments a handler refuses. -/
def Syscall.Refuses (args : SyscallArgs) : Syscall → Prop
  | .stub => True
  | .log | .ipcSend => isUserAddress args.arg1 = false
  | .createProcess => args.arg0 = 0#64 ∨ args.arg1 = 0#64
  | .ipcReceive | .exit => False

theorem Access.confined_iff_inUserRegion {a : Access} : a.Confined ↔ InUserRegion a.addr a.len := by
  obtain ⟨w, addr, len⟩ := a
  have htop : userRegionTop.toNat + 1 = 2 ^ 47 := rfl
  have hbottom : userRegionBottom.toNat = 0x1000 := rfl
  simp only [Confined, InUserRegion, htop, hbottom, isUserAddress_iff]
  constructor
  · intro h
    rcases Nat.eq_zero_or_pos len with rfl | hlen
    · exact .inl rfl
    obtain ⟨hlo, hhi⟩ := h 0 hlen
    rw [toNat_at' (by omega)] at hlo hhi
    refine .inr ⟨hlo, Nat.le_of_not_lt fun hlong => ?_⟩
    -- the first byte above the region is one of the range
    have hover := (h (2 ^ 47 - addr.toNat) (by omega)).2
    rw [toNat_at' (by omega)] at hover
    omega
  · rintro (rfl | ⟨hlo, hhi⟩) i hi
    · omega
    · rw [toNat_at' (by omega)]
      omega

/-- A struct in the region has its fields there. -/
theorem InUserRegion.field {addr : BitVec 64} {n off len : ℕ} (h : InUserRegion addr n) (hn : 0 < n)
    (hoff : off + len ≤ n) : InUserRegion (at' addr off) len := by
  have htop : userRegionTop.toNat + 1 = 2 ^ 47 := rfl
  have hbottom : userRegionBottom.toNat = 0x1000 := rfl
  rcases h with rfl | ⟨hlo, hhi⟩
  · omega
  · rw [InUserRegion, toNat_at' (by omega)]
    omega

/-- A struct whose first byte is a user address is in the region once its last field is. -/
theorem inUserRegion_of_last {addr : BitVec 64} {n off len : ℕ} (h : isUserAddress addr = true)
    (hlen : 0 < len) (hn : off + len = n) (hsmall : n < 2 ^ 63)
    (hlast : InUserRegion (at' addr off) len) : InUserRegion addr n := by
  have htop : userRegionTop.toNat + 1 = 2 ^ 47 := rfl
  have hbottom : userRegionBottom.toNat = 0x1000 := rfl
  obtain ⟨hlo, hhi⟩ := isUserAddress_iff.mp h
  rw [InUserRegion, toNat_at' (by omega)] at hlast
  rw [InUserRegion]
  omega

/-! ## Handler by handler -/

section Handlers

variable (args : SyscallArgs) (k : Kernel)

theorem Outcome.confined_of_nil {o : Outcome} (h : o.accesses = []) : o.Confined := by
  simp [Outcome.Confined, h]

theorem Outcome.confined_iff_inUserRegion {o : Outcome} :
    o.Confined ↔ ∀ a ∈ o.accesses, InUserRegion a.addr a.len :=
  forall₂_congr fun _ _ => Access.confined_iff_inUserRegion

/-- An empty allocation moves nothing. -/
theorem mem_alloc (sz : BitVec 64) (h : Heap) : (alloc sz h).2.mem = h.mem := by
  unfold alloc realloc
  split
  · rfl
  · split
    · rfl
    · split
      · rfl
      · funext b
        simp [copy]

theorem confined_sysLog :
    (sysLog args.arg1 args.arg2 k).Confined ↔ SyscallFits args k .log := by
  unfold sysLog SyscallFits
  by_cases huser : isUserAddress args.arg1 = false
  · rw [if_pos huser]
    exact iff_of_true (Outcome.confined_of_nil rfl) fun h => absurd (huser.symm.trans h) (by simp)
  rw [if_neg huser]
  have htrue : isUserAddress args.arg1 = true := by simpa using huser
  simp only [htrue, forall_const]
  rcases strlen k.mem args.arg1 with _ | n
  · -- every byte of memory is read, and most are the kernel's
    have hall : ¬ InUserRegion args.arg1 (2 ^ 64) := by
      have htop : userRegionTop.toNat + 1 = 2 ^ 47 := rfl
      rw [InUserRegion]
      omega
    simpa [Outcome.confined_iff_inUserRegion] using hall
  · by_cases hlen : BitVec.ofNat 64 n ≠ args.arg2
    · simp [hlen, Outcome.confined_iff_inUserRegion]
    · simp [hlen, Outcome.confined_iff_inUserRegion]

/-- What `sys_ipc_send` reads: two fields of the message, the payload, and perhaps the size
again. -/
theorem accesses_sysIpcSend {buff : BitVec 64} (huser : isUserAddress buff = true)
    (toPort : BitVec 64) :
    ∃ more : List Access, (sysIpcSend toPort buff k).accesses
        = ⟨false, at' buff 24, 8⟩ :: ⟨false, at' buff 16, 8⟩
          :: ⟨false, userPayload k.mem buff, sendReads buff k⟩ :: more
      ∧ ∀ a ∈ more, a = ⟨false, at' buff 24, 8⟩ := by
  unfold sysIpcSend sendReads
  have hmem := mem_alloc (userPayloadSize k.mem buff) k.heap
  rw [if_neg (by simp [huser])]
  generalize userPayloadSize k.mem buff = size at *
  dsimp only
  generalize alloc size k.heap = block at *
  obtain ⟨payload, h⟩ := block
  have hsrc : userPayload h.mem buff = userPayload k.mem buff := congrArg (userPayload · buff) hmem
  rw [hsrc]
  by_cases hfault : payload = 0#64 ∧ size ≠ 0#64
  · have hsize : min 1 size.toNat = 1 := by
      have : size.toNat ≠ 0 := fun h => hfault.2 (BitVec.eq_of_toNat_eq h)
      omega
    rw [if_pos hfault, if_pos hfault.1, hsize]
    exact ⟨[], rfl, nofun⟩
  · have hsize : (if payload = 0#64 then min 1 size.toNat else size.toNat) = size.toNat := by
      split
      next hnull =>
        have : size = 0#64 := not_not.mp fun h => hfault ⟨hnull, h⟩
        simp [this]
      next => rfl
    rw [if_neg hfault, hsize]
    exact ⟨[⟨false, at' buff 24, 8⟩], rfl, by simp⟩

theorem confined_sysIpcSend :
    (sysIpcSend args.arg0 args.arg1 k).Confined ↔ SyscallFits args k .ipcSend := by
  by_cases huser : isUserAddress args.arg1 = true
  · obtain ⟨more, haccesses, hmore⟩ := accesses_sysIpcSend k huser args.arg0
    rw [Outcome.Confined, haccesses, SyscallFits]
    simp only [List.forall_mem_cons, Access.confined_iff_inUserRegion, huser, forall_const]
    constructor
    · rintro ⟨hsize, -, hpayload, -⟩
      exact ⟨inUserRegion_of_last huser (by omega) rfl (by omega) hsize, hpayload⟩
    · rintro ⟨hstruct, hpayload⟩
      have hsize : InUserRegion (at' args.arg1 24) 8 := hstruct.field (by omega) (by omega)
      refine ⟨hsize, hstruct.field (by omega) (by omega), hpayload, fun a ha => ?_⟩
      rw [hmore a ha]
      exact hsize
  · have hrefused : isUserAddress args.arg1 = false := by simpa using huser
    rw [sysIpcSend, if_pos hrefused]
    exact iff_of_true (Outcome.confined_of_nil rfl) fun h => absurd h huser

/-- The fields `sys_ipc_receive` fills in are in the region exactly when the response is. -/
theorem inUserRegion_response {buff : BitVec 64} :
    InUserRegion buff 8 ∧ InUserRegion (at' buff 8) 4 ∧ InUserRegion (at' buff 24) 8
      ↔ InUserRegion buff 32 := by
  constructor
  · rintro ⟨hsender, -, hsize⟩
    have huser : isUserAddress (at' buff 0) = true :=
      (Access.confined_iff_inUserRegion (a := ⟨true, buff, 8⟩)).mpr hsender 0 (by simp)
    rw [at'_zero] at huser
    exact inUserRegion_of_last huser (by omega) rfl (by omega) hsize
  · intro h
    refine ⟨?_, h.field (by omega) (by omega), h.field (by omega) (by omega)⟩
    rw [← at'_zero buff]
    exact h.field (by omega) (by omega)

theorem confined_sysIpcReceive :
    (sysIpcReceive args.arg0 k).Confined ↔ SyscallFits args k .ipcReceive := by
  rw [SyscallFits, sysIpcReceive]
  generalize schedCurrent k.sched = current
  obtain _ | task := current
  · refine iff_of_true (Outcome.confined_of_nil rfl) fun task _ _ htask => ?_
    cases htask
  dsimp only
  by_cases hqueue : task.messageQueue = 0#64
  · rw [if_pos hqueue]
    refine iff_of_true (Outcome.confined_of_nil rfl) fun task' _ _ htask hne => ?_
    exact absurd hqueue (Option.some.inj htask ▸ hne)
  rw [if_neg hqueue]
  generalize hreceive : ipcReceive task.messageQueue k.mem = r
  obtain ⟨_ | message, m⟩ := r
  · refine iff_of_true (Outcome.confined_of_nil rfl) fun task' _ _ htask _ hsome => ?_
    rw [← Option.some.inj htask, hreceive] at hsome
    exact absurd (congrArg Prod.fst hsome) (by simp)
  dsimp only
  by_cases hnull : message = 0#64
  · rw [if_pos hnull]
    refine iff_of_true (Outcome.confined_of_nil rfl) fun task' _ _ htask _ hsome hne => ?_
    rw [← Option.some.inj htask, hreceive] at hsome
    exact absurd hnull (Option.some.inj (congrArg Prod.fst hsome) ▸ hne)
  rw [if_neg hnull]
  simp only [Outcome.confined_iff_inUserRegion, List.forall_mem_cons, List.not_mem_nil,
    false_implies, implies_true, and_true]
  constructor
  · rintro ⟨h₁, h₂, h₃, hpayload⟩ task' message' m' htask - hsome -
    rw [← Option.some.inj htask, hreceive] at hsome
    obtain ⟨hmessage, rfl⟩ := Prod.mk.inj hsome
    rw [← Option.some.inj hmessage]
    exact ⟨inUserRegion_response.mp ⟨h₁, h₂, h₃⟩, hpayload⟩
  · intro h
    obtain ⟨hresponse, hpayload⟩ := h task message m rfl hqueue hreceive hnull
    obtain ⟨h₁, h₂, h₃⟩ := inUserRegion_response.mpr hresponse
    exact ⟨h₁, h₂, h₃, hpayload⟩

theorem confined_sysExit : (sysExit k).Confined := by
  unfold sysExit
  split
  · exact Outcome.confined_of_nil rfl
  · dsimp only
    split <;> exact Outcome.confined_of_nil rfl

/-- What a handler refuses leaves the kernel as it was, and nothing is touched on the way. -/
theorem run_of_refuses {call : Syscall} (h : call.Refuses args) :
    ∃ status, status ≠ 0#32 ∧ call.run args k = { result := .returned status k } := by
  cases call with
  | stub => exact ⟨_, by decide, rfl⟩
  | log => exact ⟨1#32, by decide, if_pos h⟩
  | ipcSend => exact ⟨1#32, by decide, if_pos h⟩
  | createProcess =>
    have hnull : args.arg0 = 0#64 ∨ args.arg1 = 0#64 := h
    refine ⟨1#32, by decide, ?_⟩
    rw [Syscall.run, sysCreateProcess, sysCreateProcessBy, if_pos hnull, if_pos hnull]
  | ipcReceive => exact absurd h id
  | exit => exact absurd h id

/-- **A call touches only the user region exactly when `SyscallFits`** — whatever the state of the
kernel, the contents of memory and the arguments.  **What it refuses comes back with a status other
than `0`**, and with nothing touched. -/
theorem confined_iff (call : Syscall) :
    ((call.run args k).Confined ↔ SyscallFits args k call)
    ∧ (call.Refuses args →
      ∃ status, status ≠ 0#32 ∧ call.run args k = { result := .returned status k }) := by
  refine ⟨?_, run_of_refuses args k⟩
  cases call with
  | stub => exact iff_of_true (Outcome.confined_of_nil rfl) trivial
  | log => exact confined_sysLog args k
  | ipcSend => exact confined_sysIpcSend args k
  | ipcReceive => exact confined_sysIpcReceive args k
  | createProcess => exact iff_of_true (Outcome.confined_of_nil rfl) trivial
  | exit => exact iff_of_true (confined_sysExit k) trivial

end Handlers

/-! ## Runs of the kernel -/

/-- The kernel as `kern_main` hands it to the timer: the init process alone, with port `PORT_INIT`
and nothing in its queue. -/
structure Booted (k : Kernel) : Prop where
  init : ∃ es, k.sched.processes = [es] ∧ es.pid = 0#32 ∧ es.port = 0#32
    ∧ es.messageQueue ≠ 0#64 ∧ ccVecSize k.mem es.messageQueue = 0#64
    ∧ ccVecCap k.mem es.messageQueue = 0#64
  current : k.sched.currentPidIndex = 0
  pids : k.sched.nextAvailablePid = 1
  ports : k.portToPid = fun port => if port = 0#32 then some 0#32 else none

/-- What can happen next: a user program writes its memory, the timer fires, or a call is made. -/
inductive KernelStep : Kernel → Kernel → Prop
  | user {k : Kernel} {m : Mem} (h : ∀ a, isUserAddress a = false → m a = k.mem a) :
      KernelStep k { k with mem := m }
  | timer {k : Kernel} {regs : ArchTaskRegisters} {es : ExecutionSpace} {sched : Sched}
      (h : schedReschedule regs k.sched = some (es, sched)) : KernelStep k { k with sched }
  | returned {k k' : Kernel} {call : Syscall} {args : SyscallArgs} {status : BitVec 32}
      (h : (call.run args k).result = .returned status k') : KernelStep k k'
  | switched {k k' : Kernel} {call : Syscall} {args : SyscallArgs}
      (h : (call.run args k).result = .switched k') : KernelStep k k'

/-- A state of the kernel that some run from boot reaches. -/
def KernelReachable (k : Kernel) : Prop := ∃ k₀, Booted k₀ ∧ Relation.ReflTransGen KernelStep k₀ k

theorem booted_oneProcess : Booted oneProcess where
  init := ⟨_, rfl, rfl, rfl, by decide, by decide +kernel, by decide +kernel⟩
  current := rfl
  pids := rfl
  ports := rfl

/-- The init process has built a message at `0x2000` whose eight bytes of payload are the
kernel's. -/
def kernelPayload : Kernel :=
  { oneProcess with
    mem := store (store oneProcess.mem 0x2010#64 8 0xffffffff80200000#64) 0x2018#64 8 8#64 }

theorem kernelReachable_kernelPayload : KernelReachable kernelPayload := by
  refine ⟨oneProcess, booted_oneProcess, .single (.user fun a ha => ?_)⟩
  have hout : ¬ (0x1000 ≤ a.toNat ∧ a.toNat < 2 ^ 47) := fun h => by
    simp [isUserAddress_iff.mpr h] at ha
  rw [store, if_neg (by bv_omega), store, if_neg (by bv_omega)]

/-- **`sys_ipc_send` copies a payload out of kernel memory.** -/
theorem not_confined_kernelPayload : KernelReachable kernelPayload
    ∧ ¬ (Syscall.ipcSend.run ⟨0#64, 0x2000#64, 0, 0, 0, 0⟩ kernelPayload).Confined := by
  refine ⟨kernelReachable_kernelPayload, fun h => ?_⟩
  have hread : ⟨false, 0xffffffff80200000#64, 8⟩
      ∈ (Syscall.ipcSend.run ⟨0#64, 0x2000#64, 0, 0, 0, 0⟩ kernelPayload).accesses := by
    decide +kernel
  exact absurd (h _ hread 0 (by decide)) (by decide)

end MoonOS
