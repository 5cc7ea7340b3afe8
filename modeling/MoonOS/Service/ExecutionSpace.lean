import MoonOS.Ipc.Ipc
import MoonOS.Mm.UserView
import MoonOS.Service.Capability
import MoonOS.Service.Elf
import Mathlib.Order.CompletePartialOrder

/-!
# Service/ExecutionSpace — how processes are made, and the frame they all share

`create_execution_space` builds a pagemap out of four sources: the kernel's half, a stack and the
arguments from a capability's pool, the pages of an image.  `ipc_assign_port` then maps the message
region, at one fixed physical address, for every process.

`Ready` is the invariant of a machine that makes processes: its pagemaps are `Spaces`, and no pool
reaches into a table.  Every attempt keeps it (`Ready.spawn`), and so does any run of attempts,
along which

* `not_disjoint_writableFrames` — any two processes made have a frame in common that both may write.
-/

namespace MoonOS

open ByteMemory TableForest

/-! ## State -/

/-- The kernel, with the pools of the capabilities. -/
structure Machine where
  kernel : Kernel
  pools : Pools

/-- Memory and the page allocator. -/
def Machine.vm (w : Machine) : Vm := w.kernel.vm

/-- The machine with other memory and page allocator. -/
def Machine.withVm (w : Machine) (vm : Vm) : Machine :=
  { w with kernel := w.kernel.withVm vm }

/-- The machine with other memory and pools. -/
def Machine.withPools (w : Machine) (m : Mem) (pools : Pools) : Machine :=
  { kernel := { w.kernel with mem := m }, pools }

/-- The machine with another scheduler. -/
def Machine.withSched (w : Machine) (sched : Sched) : Machine :=
  { w with kernel := { w.kernel with sched } }

/-- The machine with one more port assigned. -/
def Machine.withPort (w : Machine) (port pid : BitVec 32) : Machine :=
  { w with kernel := { w.kernel with
    portToPid := Function.update w.kernel.portToPid port (some pid) } }

@[simp] theorem Machine.vm_withVm (w : Machine) (vm : Vm) : (w.withVm vm).vm = vm := rfl

@[simp] theorem Machine.pools_withVm (w : Machine) (vm : Vm) : (w.withVm vm).pools = w.pools := rfl

/-! ## Arguments -/

/-- The bytes of a list, from an address on. -/
def writeBytes (m : Mem) (dest : BitVec 64) : List (BitVec 8) → Mem
  | [] => m
  | b :: bs => writeBytes (Function.update m dest b) (dest + 1) bs

/-- `strcpy`: every prefix of the string is copied, each over the last. -/
def strcpy (m : Mem) (dest : BitVec 64) (src : List (BitVec 8)) : Mem :=
  Function.update
    ((List.range (src.length + 1)).foldl (fun m n => writeBytes m dest (src.take n)) m)
    (at' dest src.length) 0#8

/-- The loop of `create_execution_space` over the arguments, from index `i` on.  A copy through the
null pointer is a fault. -/
def copyArgs (hhdm : BitVec 64) (cap : Capability) (argvBase : BitVec 64) :
    ℕ → List (List (BitVec 8)) → Machine → Option Machine
  | _, [], w => some w
  | i, arg :: args, w =>
    let (argCopy, m, pools) := capabilityAllocFrom cap (arg.length + 1) w.kernel.mem w.pools
    if argCopy = 0#64 then none
    else
      let m := strcpy m argCopy arg
      let m := store m (at' argvBase (8 * i)) 8 (pa hhdm argCopy)
      copyArgs hhdm cap argvBase (i + 1) args (w.withPools m pools)

/-- `argc`, the size of the vector as an `int`. -/
def argcOf (argv : List (List (BitVec 8))) : BitVec 32 := BitVec.ofNat 32 argv.length

/-- The part of `create_execution_space` that passes the arguments: the physical address of the
vector, null if there are none.  Where `argc + 1` or the index of the loop overflows, nothing is
said. -/
def passArguments (hhdm vmSpace : BitVec 64) (cap : Capability) (argv : List (List (BitVec 8)))
    (w : Machine) : Option (Except String (BitVec 64) × Machine) :=
  if (argcOf argv).toInt ≤ 0 then some (.ok 0#64, w)
  else if 2 ^ 31 ≤ argv.length + 1 then none
  else
    let (argvBase, m, pools) :=
      capabilityAllocFrom cap ((argv.length + 1) * 8) w.kernel.mem w.pools
    let w := w.withPools m pools
    if argvBase = 0#64 then some (.error "Failed to allocate memory for argv", w)
    else
      (archMapPage hhdm vmSpace (pa hhdm argvBase) (pa hhdm argvBase) mapUserRo w.vm).bind fun vm =>
      (copyArgs hhdm cap argvBase 0 argv (w.withVm vm)).map fun w =>
        let m := store w.kernel.mem (at' argvBase (8 * argv.length)) 8 0#64
        (.ok (pa hhdm argvBase), w.withPools m w.pools)

/-! ## `create_execution_space` and `ipc_assign_port` -/

/-- The capability the process is built from: the first with an allocatable region. -/
def memoryRegionCap (capabilities : List Capability) : Option Capability :=
  capabilities.find? fun cap => cap.type &&& capAllocatableMemoryRegion ≠ 0#32

/-- `create_execution_space`.  `pa` gives a pointer to words, so `pa(stack_pointer) + PAGE_SIZE` is
eight pages up.  The copy of the capability vector that the process keeps is not followed. -/
def createExecutionSpace (hhdm kernelPagemap : BitVec 64) (image : Mem)
    (argv : List (List (BitVec 8))) (capabilities : List Capability) (w : Machine) :
    Option (Except String ExecutionSpace × Machine) :=
  (archCreateNewPagemap w.vm).bind fun (vmSpace, vm) =>
  (schedAllocatePid w.kernel.sched).bind fun (pid, sched) =>
  let w := (w.withVm vm).withSched sched
  if vmSpace = 0#64 then some (.error "Failed to create new pagemap", w)
  else
    match memoryRegionCap capabilities with
    | none => some (.error "No memory region capability provided", w)
    | some cap =>
      let (stack, m, pools) := capabilityAllocFrom cap pageSize w.kernel.mem w.pools
      let w := w.withPools m pools
      if stack = 0#64 then some (.error "Failed to allocate stack", w)
      else
        let stackPointer := pa hhdm stack + 0x8000#64
        let stackPage := stackPointer - 0x1000#64
        (archMapPage hhdm vmSpace stackPage stackPage mapUserRw
          (archCopyKernelMappings kernelPagemap vmSpace w.vm)).bind fun vm =>
        (passArguments hhdm vmSpace cap argv (w.withVm vm)).bind fun (argvResult, w) =>
        match argvResult with
        | .error message => some (.error message, w)
        | .ok argvPtr =>
          (loadElf hhdm image vmSpace w.vm).map fun (result, out) =>
            (result.map fun entry =>
              { pid
                port := -1#32
                argc := argcOf argv
                argv := argvPtr
                vmSpace
                stackPointer
                ec := createEc entry stackPointer
                messageQueue := 0#64
                capabilities := 0#64 }, w.withVm out.vm)

/-- `IPC_MESSAGE_REGION_BASE`. -/
def ipcMessageRegionBase : BitVec 64 := 0x800000#64

/-- `IPC_MESSAGE_REGION_SZ`. -/
def ipcMessageRegionSz : BitVec 64 := 0x2000#64

/-- `ipc_assign_port`; `emptyQueue` is the handle `init` gives a vector. -/
def ipcAssignPort (hhdm emptyQueue : BitVec 64) (space : ExecutionSpace) (port : BitVec 32)
    (w : Machine) : Option (Bool × ExecutionSpace × Machine) :=
  if space.port ≠ -1#32 ∨ w.kernel.portToPid port ≠ none then some (false, space, w)
  else
    let w := w.withPort port space.pid
    (archMapRange hhdm space.vmSpace ipcMessageRegionBase
        (ipcMessageRegionBase + ipcMessageRegionSz) mapUserRw 0#64 w.vm).map fun vm =>
      (true, { space with port, messageQueue := emptyQueue }, w.withVm vm)

/-- A process that is asked for. -/
structure SpawnRequest where
  image : Mem
  argv : List (List (BitVec 8))
  capabilities : List Capability
  port : BitVec 32

/-- One attempt: `create_execution_space`, then `ipc_assign_port`; the process, if both succeed. -/
def spawn (hhdm kernelPagemap emptyQueue : BitVec 64) (request : SpawnRequest) (w : Machine) :
    Option (Option ExecutionSpace × Machine) :=
  (createExecutionSpace hhdm kernelPagemap request.image request.argv request.capabilities w).bind
    fun (result, w) =>
    match result with
    | .error _ => some (none, w)
    | .ok es =>
      (ipcAssignPort hhdm emptyQueue es request.port w).map fun (assigned, es, w) =>
        (if assigned then some es else none, w)

/-- A run of attempts, with the processes made. -/
def spawnAll (hhdm kernelPagemap emptyQueue : BitVec 64) :
    List SpawnRequest → Machine → Option (List ExecutionSpace × Machine)
  | [], w => some ([], w)
  | request :: requests, w =>
    (spawn hhdm kernelPagemap emptyQueue request w).bind fun (es, w) =>
    (spawnAll hhdm kernelPagemap emptyQueue requests w).map fun (spaces, w) =>
      (es.toList ++ spaces, w)

/-- The frames a user program in a pagemap may write. -/
def writableFrames (hhdm root : BitVec 64) (m : Mem) : Set (BitVec 52) :=
  { frame | ∃ vaddr es leaf, HwCanonical vaddr
      ∧ pathEntries hhdm root vaddr m = some (es ++ [leaf])
      ∧ effective hhdm root vaddr m = some (true, true) ∧ leaf.address = frame }

/-! ## How they can end -/

section Endings

variable {hhdm kernelPagemap p : BitVec 64} {w w' : Machine} {cap : Capability}

/-- One argument: it has a block, which is not null. -/
theorem copyArgs_cons {argvBase : BitVec 64} {i : ℕ} {arg : List (BitVec 8)}
    {args : List (List (BitVec 8))}
    (hrun : copyArgs hhdm cap argvBase i (arg :: args) w = some w') :
    ∃ argCopy m pools,
      capabilityAllocFrom cap (arg.length + 1) w.kernel.mem w.pools = (argCopy, m, pools)
      ∧ argCopy ≠ 0#64
      ∧ copyArgs hhdm cap argvBase (i + 1) args (w.withPools (store (strcpy m argCopy arg)
          (at' argvBase (8 * i)) 8 (pa hhdm argCopy)) pools) = some w' := by
  rw [copyArgs] at hrun
  generalize hblock : capabilityAllocFrom cap (arg.length + 1) w.kernel.mem w.pools = r at hrun
  obtain ⟨argCopy, m, pools⟩ := r
  dsimp only at hrun
  split at hrun
  case isTrue => cases hrun
  case isFalse hcopy => exact ⟨argCopy, m, pools, rfl, hcopy, hrun⟩

/-- **What passing arguments does**: nothing if there are none; without a block for the array it
fails; with one the page of the array is mapped, and the arguments are copied. -/
theorem passArguments_cases {argv : List (List (BitVec 8))} {result : Except String (BitVec 64)}
    (hrun : passArguments hhdm p cap argv w = some (result, w')) :
    ((argcOf argv).toInt ≤ 0 ∧ result = .ok 0#64 ∧ w' = w)
    ∨ 0 < (argcOf argv).toInt ∧ argv.length + 1 < 2 ^ 31 ∧ ∃ argvBase m pools,
        capabilityAllocFrom cap ((argv.length + 1) * 8) w.kernel.mem w.pools = (argvBase, m, pools)
        ∧ ((argvBase = 0#64 ∧ result = .error "Failed to allocate memory for argv"
            ∧ w' = w.withPools m pools)
          ∨ argvBase ≠ 0#64 ∧ ∃ vm w₁,
            archMapPage hhdm p (pa hhdm argvBase) (pa hhdm argvBase) mapUserRo
              { w.vm with mem := m } = some vm
            ∧ copyArgs hhdm cap argvBase 0 argv ((w.withPools m pools).withVm vm) = some w₁
            ∧ result = .ok (pa hhdm argvBase)
            ∧ w' = w₁.withPools (store w₁.kernel.mem (at' argvBase (8 * argv.length)) 8 0#64)
                w₁.pools) := by
  rw [passArguments] at hrun
  split at hrun
  case isTrue hargc =>
    obtain ⟨rfl, rfl⟩ := Prod.mk.inj (Option.some.inj hrun)
    exact .inl ⟨hargc, rfl, rfl⟩
  case isFalse hargc =>
  split at hrun
  case isTrue => cases hrun
  case isFalse hover =>
  generalize hblock : capabilityAllocFrom cap ((argv.length + 1) * 8) w.kernel.mem w.pools = r
    at hrun
  obtain ⟨argvBase, m, pools⟩ := r
  dsimp only at hrun
  refine .inr ⟨by omega, by omega, argvBase, m, pools, rfl, ?_⟩
  split at hrun
  case isTrue hnull =>
    obtain ⟨rfl, rfl⟩ := Prod.mk.inj (Option.some.inj hrun)
    exact .inl ⟨hnull, rfl, rfl⟩
  case isFalse hnull =>
    obtain ⟨vm, hmap, hrun⟩ := Option.bind_eq_some_iff.mp hrun
    obtain ⟨w₁, hargs, heq⟩ := Option.map_eq_some_iff.mp hrun
    obtain ⟨rfl, rfl⟩ := Prod.mk.inj heq
    exact .inr ⟨hnull, vm, w₁, hmap, hargs, rfl, rfl⟩

/-- **What `create_execution_space` does**, exit by exit: it has no pagemap, no capability, no
stack, no arguments, or returns what `load_elf` does. -/
theorem createExecutionSpace_cases {image : Mem} {argv : List (List (BitVec 8))}
    {capabilities : List Capability} {result : Except String ExecutionSpace}
    (hrun : createExecutionSpace hhdm kernelPagemap image argv capabilities w = some (result, w')) :
    ∃ p vm pid sched, archCreateNewPagemap w.vm = some (p, vm)
      ∧ schedAllocatePid w.kernel.sched = some (pid, sched)
      ∧ ((p = 0#64 ∧ result = .error "Failed to create new pagemap"
          ∧ w' = (w.withVm vm).withSched sched)
        ∨ (p ≠ 0#64 ∧ result = .error "No memory region capability provided"
          ∧ w' = (w.withVm vm).withSched sched)
        ∨ p ≠ 0#64 ∧ ∃ cap stack m pools, memoryRegionCap capabilities = some cap
          ∧ capabilityAllocFrom cap pageSize vm.mem w.pools = (stack, m, pools)
          ∧ ((result = .error "Failed to allocate stack"
              ∧ w' = ((w.withVm vm).withSched sched).withPools m pools)
            ∨ stack ≠ 0#64 ∧ ∃ vm' argvResult wArgs,
              archMapPage hhdm p (pa hhdm stack + 0x8000#64 - 0x1000#64)
                (pa hhdm stack + 0x8000#64 - 0x1000#64) mapUserRw
                (archCopyKernelMappings kernelPagemap p { vm with mem := m }) = some vm'
              ∧ passArguments hhdm p cap argv
                  ((((w.withVm vm).withSched sched).withPools m pools).withVm vm')
                = some (argvResult, wArgs)
              ∧ ((∃ message, argvResult = .error message ∧ result = .error message ∧ w' = wArgs)
                ∨ ∃ argvPtr loaded out, argvResult = .ok argvPtr
                  ∧ loadElf hhdm image p wArgs.vm = some (loaded, out)
                  ∧ result = (loaded.map fun entry =>
                      { pid
                        port := -1#32
                        argc := argcOf argv
                        argv := argvPtr
                        vmSpace := p
                        stackPointer := pa hhdm stack + 0x8000#64
                        ec := createEc entry (pa hhdm stack + 0x8000#64)
                        messageQueue := 0#64
                        capabilities := 0#64 })
                  ∧ w' = wArgs.withVm out.vm))) := by
  obtain ⟨⟨p, vm⟩, hnew, hrun⟩ := Option.bind_eq_some_iff.mp hrun
  obtain ⟨⟨pid, sched⟩, hpid, hrun⟩ := Option.bind_eq_some_iff.mp hrun
  dsimp only at hrun
  refine ⟨p, vm, pid, sched, hnew, hpid, ?_⟩
  split at hrun
  case isTrue hp0 =>
    obtain ⟨rfl, rfl⟩ := Prod.mk.inj (Option.some.inj hrun)
    exact .inl ⟨hp0, rfl, rfl⟩
  case isFalse hp0 =>
  cases hcap : memoryRegionCap capabilities with
  | none =>
    rw [hcap] at hrun
    obtain ⟨rfl, rfl⟩ := Prod.mk.inj (Option.some.inj hrun)
    exact .inr (.inl ⟨hp0, rfl, rfl⟩)
  | some cap =>
    rw [hcap] at hrun
    dsimp only at hrun
    generalize hblock : capabilityAllocFrom cap pageSize _ _ = r at hrun
    obtain ⟨stack, m, pools⟩ := r
    dsimp only at hrun
    refine .inr (.inr ⟨hp0, cap, stack, m, pools, rfl, hblock, ?_⟩)
    split at hrun
    case isTrue =>
      obtain ⟨rfl, rfl⟩ := Prod.mk.inj (Option.some.inj hrun)
      exact .inl ⟨rfl, rfl⟩
    case isFalse hstack =>
      obtain ⟨vm', hmap, hrun⟩ := Option.bind_eq_some_iff.mp hrun
      obtain ⟨⟨argvResult, wArgs⟩, hargs, hrun⟩ := Option.bind_eq_some_iff.mp hrun
      refine .inr ⟨hstack, vm', argvResult, wArgs, hmap, hargs, ?_⟩
      cases argvResult with
      | error message =>
        obtain ⟨rfl, rfl⟩ := Prod.mk.inj (Option.some.inj hrun)
        exact .inl ⟨message, rfl, rfl, rfl⟩
      | ok argvPtr =>
        obtain ⟨⟨loaded, out⟩, hload, heq⟩ := Option.map_eq_some_iff.mp hrun
        obtain ⟨rfl, rfl⟩ := Prod.mk.inj heq
        exact .inr ⟨argvPtr, loaded, out, rfl, hload, rfl, rfl⟩

end Endings

/-! ## What no pool reaches -/

/-- A byte of a page that is not a table. -/
def PoolByte (lab : Labels) (b : BitVec 64) : Prop := ∃ f, IsPage lab f ∧ (b - f).toNat < 4096

/-- A block all of whose bytes are. -/
def Owned (lab : Labels) (ptr : BitVec 64) (n : ℕ) : Prop := ∀ i < n, PoolByte lab (at' ptr i)

/-- How the stack is mapped: to itself. -/
def stackCall (stackPage : BitVec 64) : MapCall := ⟨stackPage, stackPage, mapUserRw⟩

/-- How the argument vector is mapped, if there is one: the page it begins in, to itself. -/
def argvCalls (argv : List (List (BitVec 8))) (argvPtr : BitVec 64) : List MapCall :=
  if (argcOf argv).toInt ≤ 0 then [] else [⟨argvPtr, argvPtr, mapUserRo⟩]

/-- **A machine that makes processes**: its pagemaps are spaces, and every block of a pool lies in
pages that are neither tables nor the page allocator's to give. -/
structure Ready (hhdm kernelPagemap : BitVec 64) (w : Machine) (lab : Labels)
    (spaces : Set (BitVec 64)) : Prop where
  nonzero : 0#64 ∉ spaces
  spaces : Spaces hhdm kernelPagemap w.vm lab spaces
  pools : ∀ pool, ∀ block ∈ w.pools pool, block.ptr ≠ 0#64 → Owned lab block.ptr block.len

/-- The tables are the same in two memories. -/
def SameTables (lab : Labels) (m m' : Mem) : Prop :=
  ∀ c oc pc j, lab c = some (oc, pc) → pc.length < 4 → readPte m' c j = readPte m c j

theorem SameTables.trans {lab : Labels} {m₁ m₂ m₃ : Mem} (h : SameTables lab m₁ m₂)
    (h' : SameTables lab m₂ m₃) : SameTables lab m₁ m₃ :=
  fun c oc pc j hc hlen => (h' c oc pc j hc hlen).trans (h c oc pc j hc hlen)

theorem Owned.mono {lab lab' : Labels} {ptr : BitVec 64} {n : ℕ} (h : Owned lab ptr n)
    (hmono : ∀ {c l}, lab c = some l → lab' c = some l) : Owned lab' ptr n := fun i hi => by
  obtain ⟨f, ⟨o, path, hf, hlen⟩, hb⟩ := h i hi
  exact ⟨f, ⟨o, path, hmono hf, hlen⟩, hb⟩

/-- A byte outside every pool is outside an owned block. -/
theorem Owned.le_of_not_poolByte {lab : Labels} {ptr b : BitVec 64} {n : ℕ} (h : Owned lab ptr n)
    (hb : ¬ PoolByte lab b) : n ≤ (b - ptr).toNat := by
  by_contra hlt
  have hbyte := h _ (Nat.not_le.mp hlt)
  rw [at'_toNat_sub] at hbyte
  exact hb hbyte

section Writes

variable {m : Mem} {dest b : BitVec 64}

theorem writeBytes_of_outside {bs : List (BitVec 8)} (h : bs.length ≤ (b - dest).toNat) :
    writeBytes m dest bs b = m b := by
  induction bs generalizing m dest with
  | nil => rfl
  | cons x bs ih =>
    have hb : b ≠ dest := by
      rintro rfl
      simp at h
    have hlen : bs.length ≤ (b - (dest + 1)).toNat := by
      rw [toNat_sub_succ hb, List.length_cons] at h
      omega
    rw [writeBytes, ih hlen, Function.update_of_ne hb]

/-- `strcpy` writes the string and its end, and nothing beyond. -/
theorem strcpy_of_outside {src : List (BitVec 8)} (h : src.length + 1 ≤ (b - dest).toNat) :
    strcpy m dest src b = m b := by
  have hfold : ∀ (l : List ℕ) (m : Mem),
      l.foldl (fun m n => writeBytes m dest (src.take n)) m b = m b := by
    intro l
    induction l with
    | nil => intro m; rfl
    | cons n l ih =>
      intro m
      rw [List.foldl_cons, ih, writeBytes_of_outside (by rw [List.length_take]; omega)]
  have hend : b ≠ at' dest src.length := by
    rintro rfl
    have hsmall : src.length < 2 ^ 64 := by
      have := (at' dest src.length - dest).isLt
      omega
    rw [toNat_at'_sub dest hsmall] at h
    omega
  rw [strcpy, Function.update_of_ne hend, hfold]

/-- What is written is found there. -/
theorem writeBytes_inside {bs : List (BitVec 8)} {k : ℕ} {x : BitVec 8} (hk : bs[k]? = some x)
    (hlen : bs.length ≤ 2 ^ 64) : writeBytes m dest bs (at' dest k) = x := by
  induction bs generalizing m dest k with
  | nil => cases hk
  | cons y bs ih =>
    rw [List.length_cons] at hlen
    rw [writeBytes]
    cases k with
    | zero =>
      obtain rfl : y = x := by simpa using hk
      have hfar : bs.length ≤ (dest - (dest + 1)).toNat := by bv_omega
      rw [at'_zero, writeBytes_of_outside hfar, Function.update_self]
    | succ k =>
      have hnext : at' dest (k + 1) = at' (dest + 1) k := by
        rw [at', at', BitVec.ofNat_add]
        grind
      rw [hnext]
      exact ih (by simpa using hk) (by omega)

/-- `strcpy` leaves the string and its end. -/
theorem strcpy_inside {src : List (BitVec 8)} {k : ℕ} {x : BitVec 8}
    (hk : (src ++ [0#8])[k]? = some x) (hlen : src.length < 2 ^ 64) :
    strcpy m dest src (at' dest k) = x := by
  have hbound : k < src.length + 1 := by
    obtain ⟨hlt, -⟩ := List.getElem?_eq_some_iff.mp hk
    simpa using hlt
  rw [strcpy]
  by_cases hend : k = src.length
  · subst hend
    rw [Function.update_self]
    simpa using hk
  · have hne : at' dest k ≠ at' dest src.length := fun heq => by
      have hoff := congrArg (fun a => (a - dest).toNat) heq
      rw [toNat_at'_sub dest (by omega), toNat_at'_sub dest hlen] at hoff
      exact hend hoff
    rw [List.getElem?_append_left (by omega)] at hk
    rw [Function.update_of_ne hne, List.range_succ, List.foldl_append, List.foldl_cons,
      List.foldl_nil, List.take_length]
    exact writeBytes_inside hk hlen.le

end Writes

/-! ## One attempt -/

section Spawn

variable {hhdm kernelPagemap p : BitVec 64} {w w' : Machine} {lab : Labels}
  {spaces : Set (BitVec 64)} {cap : Capability} {m : Mem} {pools : Pools} {ptr : BitVec 64} {n : ℕ}

theorem Ready.ne_zero (h : Ready hhdm kernelPagemap w lab spaces) (hp : p ∈ spaces) : p ≠ 0#64 := by
  rintro rfl
  exact h.nonzero hp

/-- Writing outside the tables leaves them the same. -/
theorem Ready.sameTables (h : Ready hhdm kernelPagemap w lab spaces)
    (hm : ∀ b, ¬ PoolByte lab b → m b = w.kernel.mem b) : SameTables lab w.kernel.mem m :=
  fun _ _ _ => h.spaces.write fun b hb => hm b fun ⟨f, hf, hlt⟩ => Nat.not_le.mpr hlt (hb f hf)

/-- …and a machine with the same tables is as ready. -/
theorem Ready.withPools (h : Ready hhdm kernelPagemap w lab spaces)
    (hm : SameTables lab w.kernel.mem m) (hpools : ∀ pool, pools pool ⊆ w.pools pool) :
    Ready hhdm kernelPagemap (w.withPools m pools) lab spaces where
  spaces := (h.spaces.rows (hm _ _ _)).1
  nonzero := h.nonzero
  pools pool block hblock := h.pools pool block (hpools pool hblock)

theorem Ready.keepsOthers (h : Ready hhdm kernelPagemap w lab spaces)
    (hm : SameTables lab w.kernel.mem m) : KeepsOthers hhdm p spaces lab lab w.kernel.mem m where
  mono := id
  others q hq _ v _ := (h.spaces.rows (hm _ _ _)).2 (h.spaces.root q hq) v

theorem Ready.shows {M : AddrSpace} (h : Ready hhdm kernelPagemap w lab spaces) (hp : p ∈ spaces)
    (hm : SameTables lab w.kernel.mem m) (hM : Shows hhdm p w.kernel.mem M) : Shows hhdm p m M :=
  hM.congr ((h.spaces.rows (hm _ _ _)).2 (h.spaces.root p hp))

/-- A block from a pool is owned, and clearing it touches no table. -/
theorem Ready.capabilityAllocFrom (h : Ready hhdm kernelPagemap w lab spaces)
    (hrun : capabilityAllocFrom cap n w.kernel.mem w.pools = (ptr, m, pools)) :
    SameTables lab w.kernel.mem m ∧ Ready hhdm kernelPagemap (w.withPools m pools) lab spaces
      ∧ (ptr ≠ 0#64 → Owned lab ptr n) := by
  have hsub : ∀ pool, pools pool ⊆ w.pools pool := fun pool =>
    (capabilityAllocFrom_suffix hrun pool).subset
  obtain ⟨rfl, rfl, -⟩ | ⟨block, blocks, hpool, hlen, hptr, rfl, rfl, -⟩ :=
    capabilityAllocFrom_cases hrun
  · have hsame : SameTables lab w.kernel.mem w.kernel.mem := fun _ _ _ _ _ _ => rfl
    exact ⟨hsame, h.withPools hsame hsub, fun h0 => absurd rfl h0⟩
  · have howned : Owned lab block.ptr n := fun i hi =>
      h.pools cap.pool block (by simp [hpool]) hptr i (by omega)
    have hclear : SameTables lab w.kernel.mem (fill w.kernel.mem block.ptr n 0#8) :=
      h.sameTables fun b hb => by
        have := howned.le_of_not_poolByte hb
        rw [fill, if_neg (by omega)]
    exact ⟨hclear, h.withPools hclear hsub, fun _ => howned⟩

/-- Copying the arguments touches no table. -/
theorem Ready.copyArgs {argvBase : BitVec 64} {i : ℕ} {args : List (List (BitVec 8))}
    (h : Ready hhdm kernelPagemap w lab spaces) (hbase : Owned lab argvBase (8 * (i + args.length)))
    (hrun : copyArgs hhdm cap argvBase i args w = some w') :
    SameTables lab w.kernel.mem w'.kernel.mem ∧ Ready hhdm kernelPagemap w' lab spaces := by
  induction args generalizing i w with
  | nil =>
    obtain rfl := Option.some.inj hrun
    exact ⟨fun _ _ _ _ _ _ => rfl, h⟩
  | cons arg args ih =>
    obtain ⟨argCopy, m, pools, hblock, hnull, hrest⟩ := copyArgs_cons hrun
    obtain ⟨hm, h₁, howned⟩ := h.capabilityAllocFrom hblock
    have hwrite : SameTables lab m
        (store (strcpy m argCopy arg) (at' argvBase (8 * i)) 8 (pa hhdm argCopy)) := by
      refine h₁.sameTables fun b hb => ?_
      have hslot : Owned lab (at' argvBase (8 * i)) 8 := fun k hk => by
        rw [at'_at']
        exact hbase _ (by simp; omega)
      rw [store_of_outside (hslot.le_of_not_poolByte hb),
        strcpy_of_outside ((howned hnull).le_of_not_poolByte hb)]
      rfl
    obtain ⟨hsame, h'⟩ := ih (h₁.withPools hwrite fun _ => List.Subset.refl _)
      (by simpa [Nat.add_assoc, Nat.add_comm 1] using hbase) hrest
    exact ⟨(hm.trans hwrite).trans hsame, h'⟩

/-- New spaces under more labels leave the pools where they were. -/
theorem Ready.withVm (h : Ready hhdm kernelPagemap w lab spaces) {vm : Vm} {lab' : Labels}
    {spaces' : Set (BitVec 64)} (hs : Spaces hhdm kernelPagemap vm lab' spaces')
    (h0 : 0#64 ∉ spaces') (hmono : ∀ {c l}, lab c = some l → lab' c = some l) :
    Ready hhdm kernelPagemap (w.withVm vm) lab' spaces' where
  spaces := hs
  nonzero := h0
  pools pool block hblock h0 := (h.pools pool block hblock h0).mono hmono

theorem Ready.withSched (h : Ready hhdm kernelPagemap w lab spaces) (sched : Sched) :
    Ready hhdm kernelPagemap (w.withSched sched) lab spaces := ⟨h.nonzero, h.spaces, h.pools⟩

theorem Ready.map (h : Ready hhdm kernelPagemap w lab spaces) (hp : p ∈ spaces)
    {vaddr paddr : BitVec 64} {flags : BitVec 32} (hflags : checkFlag flags 0 = true) {vm : Vm}
    (hmap : archMapPage hhdm p vaddr paddr flags w.vm = some vm) :
    ∃ lab', Ready hhdm kernelPagemap (w.withVm vm) lab' spaces
      ∧ KeepsOthers hhdm p spaces lab lab' w.kernel.mem vm.mem
      ∧ Serves (pathEntries hhdm p vaddr vm.mem) (some ⟨vaddr, paddr, flags⟩) := by
  obtain ⟨lab', hs, hkeep, hserve⟩ := h.spaces.map hp (h.ne_zero hp) hflags hmap
  exact ⟨lab', h.withVm hs h.nonzero hkeep.mono, hkeep, hserve⟩

/-- Passing the arguments disturbs no other space, and maps the page of the vector in its own. -/
theorem Ready.passArguments {argv : List (List (BitVec 8))} {result : Except String (BitVec 64)}
    (h : Ready hhdm kernelPagemap w lab spaces) (hp : p ∈ spaces)
    (hrun : passArguments hhdm p cap argv w = some (result, w')) :
    ∃ lab', Ready hhdm kernelPagemap w' lab' spaces
      ∧ KeepsOthers hhdm p spaces lab lab' w.kernel.mem w'.kernel.mem
      ∧ ∀ M, Shows hhdm p w.kernel.mem M → ∀ argvPtr, result = .ok argvPtr →
          Shows hhdm p w'.kernel.mem ((argvCalls argv argvPtr).foldl AddrSpace.map M) := by
  obtain ⟨hargc, -, rfl⟩ | ⟨hargc, -, argvBase, m, pools, hblock, hend⟩ := passArguments_cases hrun
  · refine ⟨lab, h, ⟨id, fun _ _ _ _ _ => rfl⟩, fun M hM argvPtr _ => ?_⟩
    rwa [argvCalls, if_pos hargc]
  obtain ⟨hm, h₁, howned⟩ := h.capabilityAllocFrom hblock
  obtain ⟨-, rfl, rfl⟩ | ⟨hnull, vm, w₂, hmap, hargs, rfl, rfl⟩ := hend
  · exact ⟨lab, h₁, h.keepsOthers hm, fun _ _ _ herror => nomatch herror⟩
  obtain ⟨lab₂, h₂, hkeep₂, -⟩ := h₁.map hp (by decide) hmap
  have hbase : Owned lab₂ argvBase (8 * (argv.length + 1)) := by
    rw [Nat.mul_comm]
    exact (howned hnull).mono hkeep₂.mono
  obtain ⟨hsame₃, h₃⟩ := h₂.copyArgs (fun i hi => hbase i (by omega)) hargs
  have hend : SameTables lab₂ w₂.kernel.mem
      (store w₂.kernel.mem (at' argvBase (8 * argv.length)) 8 0#64) := by
    refine h₃.sameTables fun b hb => store_of_outside (Owned.le_of_not_poolByte (fun k hk => ?_) hb)
    rw [at'_at']
    exact hbase _ (by omega)
  refine ⟨lab₂, h₃.withPools hend fun _ => List.Subset.refl _,
    ((h.keepsOthers hm).trans hkeep₂).trans (h₂.keepsOthers (hsame₃.trans hend)),
    fun M hM argvPtr hptr => ?_⟩
  obtain rfl := Except.ok.inj hptr
  rw [argvCalls, if_neg (by omega)]
  have hflags : checkFlag mapUserRo 0 = true := by decide
  have hmapped := (h.shows hp hm hM).map (c := ⟨pa hhdm argvBase, pa hhdm argvBase, mapUserRo⟩)
    (s := { w.vm with mem := m }) h₁.spaces.tables (h₁.spaces.root p hp) (h.ne_zero hp) hflags hmap
  exact h₂.shows hp (hsame₃.trans hend) hmapped

/-- Loading an image disturbs no other space. -/
theorem Ready.loadElf {image : Mem} {result : Except String (BitVec 64)} {out : Loading}
    (h : Ready hhdm kernelPagemap w lab spaces) (hp : p ∈ spaces)
    (hrun : loadElf hhdm image p w.vm = some (result, out)) :
    ∃ lab', Ready hhdm kernelPagemap (w.withVm out.vm) lab' spaces
      ∧ KeepsOthers hhdm p spaces lab lab' w.kernel.mem out.vm.mem := by
  obtain ⟨-, rfl⟩ | ⟨-, -, hload⟩ := loadElf_cases hrun
  · exact ⟨lab, h, id, fun _ _ _ _ _ => rfl⟩
  · obtain ⟨lab', hs, hkeep⟩ :=
      (Spaces.loadSegments (s := ⟨w.vm, []⟩) h.spaces hp (h.ne_zero hp) hload).1
    exact ⟨lab', h.withVm hs h.nonzero hkeep.mono, hkeep⟩

/-- **A new pagemap is one more root**, and no walk there was changes. -/
theorem Ready.newPagemap {vm : Vm} (h : Ready hhdm kernelPagemap w lab spaces)
    (hnew : archCreateNewPagemap w.vm = some (p, vm)) (hp0 : p ≠ 0#64) :
    lab p = none ∧ p ∉ spaces
      ∧ Ready hhdm kernelPagemap (w.withVm vm) (Function.update lab p (some (p, []))) spaces
      ∧ KeepsOthers hhdm p spaces lab (Function.update lab p (some (p, []))) w.kernel.mem vm.mem
      ∧ ∀ i, (readPte vm.mem p i).present = false := by
  obtain ⟨hnone, hs, hmono, hempty, hwalk⟩ := h.spaces.alloc hnew hp0 (p, [])
  have hpspaces : p ∉ spaces := fun hp => nomatch hnone.symm.trans (h.spaces.root p hp)
  exact ⟨hnone, hpspaces, h.withVm hs h.nonzero hmono,
    ⟨hmono, fun q hq _ v _ => hwalk (h.spaces.root q hq) v⟩, hempty⟩

/-- **The kernel's half and the stack**: the pagemap is one more space, and shows the stack. -/
theorem Ready.stackMapped {vm vm' : Vm} {stackPage : BitVec 64}
    (h : Ready hhdm kernelPagemap w lab spaces) (hnew : archCreateNewPagemap w.vm = some (p, vm))
    (hp0 : p ≠ 0#64) (sched : Sched)
    (hblock : MoonOS.capabilityAllocFrom cap n vm.mem w.pools = (ptr, m, pools))
    (hmap : archMapPage hhdm p stackPage stackPage mapUserRw
      (archCopyKernelMappings kernelPagemap p { vm with mem := m }) = some vm') :
    ∃ lab', Ready hhdm kernelPagemap
        ((((w.withVm vm).withSched sched).withPools m pools).withVm vm') lab' (insert p spaces)
      ∧ KeepsOthers hhdm p spaces lab lab' w.kernel.mem vm'.mem
      ∧ Shows hhdm p vm'.mem (AddrSpace.ofCalls [stackCall stackPage]) := by
  obtain ⟨hnone, hpspaces, h₁, hkeep₁, hempty⟩ := h.newPagemap hnew hp0
  obtain ⟨hsame, h₂, -⟩ := h₁.capabilityAllocFrom hblock
  have hroot : Function.update lab p (some (p, [])) p = some (p, []) := Function.update_self ..
  have hpk : p ≠ kernelPagemap := by
    rintro rfl
    exact nomatch hnone.symm.trans h.spaces.kernel
  -- the pagemap is still empty when the kernel's half is copied into it
  have hempty₂ : ∀ i, (readPte m p i).present = false := fun i =>
    (congrArg Pte.present (hsame _ _ _ i hroot (by simp))).trans (hempty i)
  obtain ⟨hcopy, hkeepCopy⟩ := h₂.spaces.copy hroot hpk hpspaces hempty₂
  have hp : p ∈ insert p spaces := Set.mem_insert ..
  obtain ⟨lab₃, hs₃, hkeep₃, -⟩ := hcopy.map hp hp0 (by decide) hmap
  have hshows : Shows hhdm p (archCopyKernelMappings kernelPagemap p { vm with mem := m }).mem
      fun _ => none := fun v hv =>
    View.walk_cons_of_absent _ (h₂.spaces.roots.absent_copy hroot hpk hempty₂ (hv rfl))
  have hflags : checkFlag mapUserRw 0 = true := by decide
  refine ⟨lab₃, (h₂.withSched sched).withVm hs₃ (by simpa [Ne.symm hp0] using h.nonzero)
    hkeep₃.mono, ?_, hshows.map (c := stackCall stackPage) hcopy.tables (hcopy.root p hp) hp0
      hflags hmap⟩
  exact ((hkeep₁.trans (h₁.keepsOthers hsame)).trans hkeepCopy).trans
    (hkeep₃.subset (Set.subset_insert p spaces))

/-- **A process made, or not made, disturbs no other**: the spaces there were keep their lower
halves, and a process that is made has a new one. -/
theorem Ready.createExecutionSpace {image : Mem} {argv : List (List (BitVec 8))}
    {capabilities : List Capability} {result : Except String ExecutionSpace}
    (h : Ready hhdm kernelPagemap w lab spaces)
    (hrun : createExecutionSpace hhdm kernelPagemap image argv capabilities w = some (result, w')) :
    ∃ p lab' spaces', Ready hhdm kernelPagemap w' lab' spaces' ∧ spaces ⊆ spaces' ∧ p ∉ spaces
      ∧ KeepsOthers hhdm p spaces lab lab' w.kernel.mem w'.kernel.mem
      ∧ ∀ es, result = .ok es → es.vmSpace = p ∧ p ∈ spaces' ∧ p ≠ 0#64 ∧ es.port = -1#32 := by
  obtain ⟨p, vm, pid, sched, hnew, -, ⟨rfl, rfl, rfl⟩ | ⟨hp0, rfl, rfl⟩ | ⟨hp0, hrest⟩⟩ :=
    createExecutionSpace_cases hrun
  · obtain ⟨hT, hmem⟩ := h.spaces.tables.archAllocPage_null hnew
    have hlower : ∀ q ∈ spaces, ∀ v, LowerHalf v → ∃ x, Serves (pathEntries hhdm q v vm.mem) x := by
      rw [hmem]
      exact h.spaces.lower
    refine ⟨0#64, lab, spaces, ⟨h.nonzero, ⟨hT, h.spaces.kernel, h.spaces.root, h.spaces.ne_kernel,
      hlower⟩, h.pools⟩, subset_rfl, h.nonzero, ⟨id, fun _ _ _ _ _ => ?_⟩, nofun⟩
    exact congrArg (pathEntries hhdm _ _) hmem
  · obtain ⟨-, hpspaces, h₁, hkeep₁, -⟩ := h.newPagemap hnew hp0
    exact ⟨p, _, spaces, h₁.withSched sched, subset_rfl, hpspaces, hkeep₁, nofun⟩
  obtain ⟨-, hpspaces, h₁, hkeep₁, -⟩ := h.newPagemap hnew hp0
  obtain ⟨cap, stack, m, pools, -, hblock, ⟨rfl, rfl⟩ | ⟨-, hrest⟩⟩ := hrest
  · obtain ⟨hsame, h₂, -⟩ := (h₁.withSched sched).capabilityAllocFrom hblock
    exact ⟨p, _, spaces, h₂, subset_rfl, hpspaces, hkeep₁.trans (h₁.keepsOthers hsame), nofun⟩
  obtain ⟨vm', argvResult, wArgs, hmap, hargs, hrest⟩ := hrest
  have hp : p ∈ insert p spaces := Set.mem_insert ..
  obtain ⟨lab₃, h₃, hkeep₃, -⟩ := h.stackMapped hnew hp0 sched hblock hmap
  obtain ⟨lab₄, h₄, hkeep₄, -⟩ := h₃.passArguments hp hargs
  have hkeep := hkeep₃.trans (hkeep₄.subset (Set.subset_insert p spaces))
  obtain ⟨message, -, rfl, rfl⟩ | ⟨argvPtr, loaded, out, -, hload, rfl, rfl⟩ := hrest
  · exact ⟨p, lab₄, _, h₄, Set.subset_insert p spaces, hpspaces, hkeep, nofun⟩
  obtain ⟨lab₅, h₅, hkeep₅⟩ := h₄.loadElf hp hload
  refine ⟨p, lab₅, _, h₅, Set.subset_insert p spaces, hpspaces,
    hkeep.trans (hkeep₅.subset (Set.subset_insert p spaces)), fun es hes => ?_⟩
  cases loaded with
  | error message => cases hes
  | ok entry =>
    obtain rfl := Except.ok.inj hes
    exact ⟨rfl, hp, hp0, rfl⟩

/-- How an argument vector came to be passed: what each step answered. -/
theorem passed_of_passArguments {argv : List (List (BitVec 8))} {argvPtr : BitVec 64}
    (hargc : 0 < (argcOf argv).toInt)
    (hrun : MoonOS.passArguments hhdm p cap argv w = some (.ok argvPtr, w')) :
    argv.length + 1 < 2 ^ 31 ∧ ∃ argvBase m pools vm w₁,
      MoonOS.capabilityAllocFrom cap ((argv.length + 1) * 8) w.kernel.mem w.pools
        = (argvBase, m, pools)
      ∧ argvBase ≠ 0#64
      ∧ archMapPage hhdm p (pa hhdm argvBase) (pa hhdm argvBase) mapUserRo { w.vm with mem := m }
        = some vm
      ∧ MoonOS.copyArgs hhdm cap argvBase 0 argv ((w.withPools m pools).withVm vm) = some w₁
      ∧ argvPtr = pa hhdm argvBase
      ∧ w' = w₁.withPools (store w₁.kernel.mem (at' argvBase (8 * argv.length)) 8 0#64)
          w₁.pools := by
  obtain ⟨hnone, -⟩ | ⟨-, hsmall, argvBase, m, pools, hblock, hend⟩ := passArguments_cases hrun
  · omega
  obtain ⟨-, herror, -⟩ | ⟨hnull, vm, w₁, hmap, hargs, hptr, rfl⟩ := hend
  · cases herror
  · exact ⟨hsmall, argvBase, m, pools, vm, w₁, hblock, hnull, hmap, hargs, Except.ok.inj hptr, rfl⟩

/-- **How a process came to be made**: what each step of `create_execution_space` answered. -/
structure Creation (hhdm kernelPagemap : BitVec 64) (image : Mem) (argv : List (List (BitVec 8)))
    (capabilities : List Capability) (w : Machine) (es : ExecutionSpace) (w' : Machine) where
  (vmNew vmStack : Vm) (pid : BitVec 32) (sched : Sched) (cap : Capability)
  (stack : BitVec 64) (memStack : Mem) (pools : Pools) (argvPtr : BitVec 64) (wArgs : Machine)
  (entry : BitVec 64) (out : Loading)
  new : archCreateNewPagemap w.vm = some (es.vmSpace, vmNew)
  vmSpace_ne : es.vmSpace ≠ 0#64
  allocatePid : schedAllocatePid w.kernel.sched = some (pid, sched)
  region : memoryRegionCap capabilities = some cap
  alloc : capabilityAllocFrom cap pageSize vmNew.mem w.pools = (stack, memStack, pools)
  stack_ne : stack ≠ 0#64
  map : archMapPage hhdm es.vmSpace (pa hhdm stack + 0x8000#64 - 0x1000#64)
    (pa hhdm stack + 0x8000#64 - 0x1000#64) mapUserRw
    (archCopyKernelMappings kernelPagemap es.vmSpace { vmNew with mem := memStack }) = some vmStack
  args : passArguments hhdm es.vmSpace cap argv
    ((((w.withVm vmNew).withSched sched).withPools memStack pools).withVm vmStack)
      = some (.ok argvPtr, wArgs)
  load : loadElf hhdm image es.vmSpace wArgs.vm = some (.ok entry, out)
  machine : w' = wArgs.withVm out.vm
  space : es =
    { pid
      port := -1#32
      argc := argcOf argv
      argv := argvPtr
      vmSpace := es.vmSpace
      stackPointer := pa hhdm stack + 0x8000#64
      ec := createEc entry (pa hhdm stack + 0x8000#64)
      messageQueue := 0#64
      capabilities := 0#64 }

theorem Creation.stackPointer_eq {image : Mem} {argv : List (List (BitVec 8))}
    {capabilities : List Capability} {es : ExecutionSpace}
    (c : Creation hhdm kernelPagemap image argv capabilities w es w') :
    es.stackPointer = pa hhdm c.stack + 0x8000#64 := by
  have hspace := congrArg ExecutionSpace.stackPointer c.space
  dsimp only at hspace
  exact hspace

/-- A process that is made was made so. -/
theorem creation_of_createExecutionSpace {image : Mem} {argv : List (List (BitVec 8))}
    {capabilities : List Capability} {es : ExecutionSpace}
    (hrun : MoonOS.createExecutionSpace hhdm kernelPagemap image argv capabilities w
      = some (.ok es, w')) :
    Nonempty (Creation hhdm kernelPagemap image argv capabilities w es w') := by
  obtain ⟨p, vm, pid, sched, hnew, hpid, ⟨-, herror, -⟩ | ⟨-, herror, -⟩ | ⟨hp0, hrest⟩⟩ :=
    createExecutionSpace_cases hrun
  · cases herror
  · cases herror
  obtain ⟨cap, stack, m, pools, hcap, hblock, ⟨herror, -⟩ | ⟨hstack, hrest⟩⟩ := hrest
  · cases herror
  obtain ⟨vm', argvResult, wArgs, hmap, hargs, ⟨message, -, herror, -⟩ | hrest⟩ := hrest
  · cases herror
  obtain ⟨argvPtr, loaded, out, rfl, hload, hes, rfl⟩ := hrest
  cases loaded with
  | error message => cases hes
  | ok entry =>
    obtain rfl := Except.ok.inj hes
    exact ⟨⟨vm, vm', pid, sched, cap, stack, m, pools, argvPtr, wArgs, entry, out, hnew, hp0, hpid,
      hcap, hblock, hstack, hmap, hargs, hload, rfl, rfl⟩⟩

/-- The second page of the message region is mapped, to the frame of the same address. -/
def HasMessageRegion (hhdm : BitVec 64) (m : Mem) (p : BitVec 64) : Prop :=
  Serves (pathEntries hhdm p 0x801000#64 m) (some ⟨0x801000#64, 0x801000#64, mapUserRw⟩)

/-- A port that is assigned has mapped the two pages of the message region. -/
theorem mapped_of_ipcAssignPort {emptyQueue : BitVec 64} {es es' : ExecutionSpace}
    {port : BitVec 32}
    (hrun : ipcAssignPort hhdm emptyQueue es port w = some (true, es', w')) :
    ∃ vm₁ vm₂,
      archMapPage hhdm es.vmSpace 0x800000#64 0x800000#64 mapUserRw w.vm = some vm₁
      ∧ archMapPage hhdm es.vmSpace 0x801000#64 0x801000#64 mapUserRw vm₁ = some vm₂
      ∧ w' = (w.withPort port es.pid).withVm vm₂ ∧ es'.vmSpace = es.vmSpace := by
  rw [MoonOS.ipcAssignPort] at hrun
  split at hrun
  case isTrue => cases (Prod.mk.inj (Option.some.inj hrun)).1
  case isFalse =>
    obtain ⟨vm, hrange, heq⟩ := Option.map_eq_some_iff.mp hrun
    obtain ⟨-, rfl, rfl⟩ := Prod.mk.inj heq
    obtain ⟨vm₁, hmap₁, hrange⟩ := Option.bind_eq_some_iff.mp hrange
    obtain ⟨vm₂, hmap₂, hvm⟩ := Option.bind_eq_some_iff.mp hrange
    obtain rfl : vm₂ = vm := Option.some.inj hvm
    exact ⟨vm₁, vm₂, hmap₁, hmap₂, rfl, rfl⟩

/-- A port that is not assigned changes nothing. -/
theorem eq_of_ipcAssignPort {emptyQueue : BitVec 64} {es es' : ExecutionSpace} {port : BitVec 32}
    (hrun : ipcAssignPort hhdm emptyQueue es port w = some (false, es', w')) :
    es' = es ∧ w' = w := by
  rw [MoonOS.ipcAssignPort] at hrun
  split at hrun
  case isTrue =>
    obtain ⟨-, rfl, rfl⟩ := Prod.mk.inj (Option.some.inj hrun)
    exact ⟨rfl, rfl⟩
  case isFalse =>
    obtain ⟨vm, -, heq⟩ := Option.map_eq_some_iff.mp hrun
    cases (Prod.mk.inj heq).1

/-- **A port comes with the message region.** -/
theorem Ready.ipcAssignPort {emptyQueue : BitVec 64} {es es' : ExecutionSpace} {port : BitVec 32}
    {assigned : Bool} (h : Ready hhdm kernelPagemap w lab spaces) (hp : es.vmSpace ∈ spaces)
    (hrun : ipcAssignPort hhdm emptyQueue es port w = some (assigned, es', w')) :
    ∃ lab', Ready hhdm kernelPagemap w' lab' spaces
      ∧ KeepsOthers hhdm es.vmSpace spaces lab lab' w.kernel.mem w'.kernel.mem
      ∧ es'.vmSpace = es.vmSpace
      ∧ (assigned = true → HasMessageRegion hhdm w'.kernel.mem es.vmSpace) := by
  cases assigned with
  | false =>
    obtain ⟨rfl, rfl⟩ := eq_of_ipcAssignPort hrun
    exact ⟨lab, h, ⟨id, fun _ _ _ _ _ => rfl⟩, rfl, nofun⟩
  | true =>
    obtain ⟨vm₁, vm₂, hmap₁, hmap₂, rfl, hspace⟩ := mapped_of_ipcAssignPort hrun
    obtain ⟨lab₁, h₁, hkeep₁, -⟩ := h.map hp (by decide) hmap₁
    obtain ⟨lab₂, h₂, hkeep₂, hserve⟩ := h₁.map hp (by decide) hmap₂
    exact ⟨lab₂, ⟨h₂.nonzero, h₂.spaces, h₂.pools⟩, hkeep₁.trans hkeep₂, hspace, fun _ => hserve⟩

/-- A process made by an attempt was made by `create_execution_space` and given its port. -/
theorem created_of_spawn {emptyQueue : BitVec 64} {request : SpawnRequest} {es' : ExecutionSpace}
    (hrun : spawn hhdm kernelPagemap emptyQueue request w = some (some es', w')) :
    ∃ es w₁, MoonOS.createExecutionSpace hhdm kernelPagemap request.image request.argv
        request.capabilities w = some (.ok es, w₁)
      ∧ MoonOS.ipcAssignPort hhdm emptyQueue es request.port w₁ = some (true, es', w') := by
  obtain ⟨⟨result, w₁⟩, hcreate, hrun⟩ := Option.bind_eq_some_iff.mp hrun
  cases result with
  | error message => cases (Prod.mk.inj (Option.some.inj hrun)).1
  | ok es =>
    obtain ⟨⟨assigned, es₁, w₂⟩, hassign, heq⟩ := Option.map_eq_some_iff.mp hrun
    obtain ⟨hes, rfl⟩ := Prod.mk.inj heq
    cases assigned with
    | false => cases hes
    | true =>
      obtain rfl := Option.some.inj hes
      exact ⟨es, w₁, hcreate, hassign⟩

/-- **An attempt keeps the machine ready**, leaves the lower halves of the spaces there were, and
gives a process it makes a space of its own with the message region in it. -/
theorem Ready.spawn {emptyQueue : BitVec 64} {request : SpawnRequest}
    {made : Option ExecutionSpace} (h : Ready hhdm kernelPagemap w lab spaces)
    (hrun : spawn hhdm kernelPagemap emptyQueue request w = some (made, w')) :
    ∃ lab' spaces', Ready hhdm kernelPagemap w' lab' spaces' ∧ spaces ⊆ spaces'
      ∧ (∀ q ∈ spaces, ∀ v, LowerHalf v →
          pathEntries hhdm q v w'.kernel.mem = pathEntries hhdm q v w.kernel.mem)
      ∧ ∀ es ∈ made, es.vmSpace ∈ spaces' ∧ es.vmSpace ∉ spaces
          ∧ HasMessageRegion hhdm w'.kernel.mem es.vmSpace := by
  obtain ⟨⟨result, w₁⟩, hcreate, hrun⟩ := Option.bind_eq_some_iff.mp hrun
  obtain ⟨p, lab₁, spaces', h₁, hsub, hp, hkeep₁, hok⟩ := h.createExecutionSpace hcreate
  have hne : ∀ q ∈ spaces, q ≠ p := by
    rintro q hq rfl
    exact hp hq
  cases result with
  | error message =>
    obtain ⟨rfl, rfl⟩ := Prod.mk.inj (Option.some.inj hrun)
    exact ⟨lab₁, spaces', h₁, hsub, fun q hq => hkeep₁.others q hq (hne q hq), nofun⟩
  | ok es =>
    obtain ⟨⟨assigned, es', w₂⟩, hassign, heq⟩ := Option.map_eq_some_iff.mp hrun
    obtain ⟨rfl, rfl⟩ := Prod.mk.inj heq
    obtain ⟨rfl, hmem, -, -⟩ := hok es rfl
    obtain ⟨lab₂, h₂, hkeep₂, hspace, hregion⟩ := h₁.ipcAssignPort hmem hassign
    have hkeep := hkeep₁.trans (hkeep₂.subset hsub)
    refine ⟨lab₂, spaces', h₂, hsub, fun q hq => hkeep.others q hq (hne q hq), fun es'' hes => ?_⟩
    cases assigned with
    | false => cases hes
    | true =>
      obtain rfl : es' = es'' := Option.some.inj hes
      rw [hspace]
      exact ⟨hmem, hp, hregion rfl⟩

/-- **A run of attempts gives every process it makes a space of its own**, in which the message
region is still mapped when the run is over. -/
theorem Ready.spawnAll {emptyQueue : BitVec 64} {requests : List SpawnRequest}
    {made : List ExecutionSpace} (h : Ready hhdm kernelPagemap w lab spaces)
    (hrun : spawnAll hhdm kernelPagemap emptyQueue requests w = some (made, w')) :
    (∀ q ∈ spaces, ∀ v, LowerHalf v →
        pathEntries hhdm q v w'.kernel.mem = pathEntries hhdm q v w.kernel.mem)
      ∧ (∀ es ∈ made, es.vmSpace ∉ spaces ∧ HasMessageRegion hhdm w'.kernel.mem es.vmSpace)
      ∧ made.Pairwise fun a b => a.vmSpace ≠ b.vmSpace := by
  induction requests generalizing w lab spaces made with
  | nil =>
    obtain ⟨rfl, rfl⟩ := Prod.mk.inj (Option.some.inj hrun)
    exact ⟨fun _ _ _ _ => rfl, nofun, .nil⟩
  | cons request requests ih =>
    obtain ⟨⟨es, w₁⟩, hspawn, hrun⟩ := Option.bind_eq_some_iff.mp hrun
    obtain ⟨⟨rest, w₂⟩, hrest, heq⟩ := Option.map_eq_some_iff.mp hrun
    obtain ⟨rfl, rfl⟩ := Prod.mk.inj heq
    obtain ⟨lab₁, spaces₁, h₁, hsub, hkeep₁, hmade₁⟩ := h.spawn hspawn
    obtain ⟨hkeep, hmade, hpair⟩ := ih h₁ hrest
    refine ⟨fun q hq v hv => (hkeep q (hsub hq) v hv).trans (hkeep₁ q hq v hv), fun a ha => ?_, ?_⟩
    · rcases List.mem_append.mp ha with ha | ha
      · obtain ⟨hmem, hnew, hregion⟩ := hmade₁ a (Option.mem_toList.mp ha)
        refine ⟨hnew, ?_⟩
        rwa [HasMessageRegion, hkeep _ hmem _ (by decide)]
      · exact ⟨fun hq => (hmade a ha).1 (hsub hq), (hmade a ha).2⟩
    · refine List.pairwise_append.mpr ⟨by cases es <;> simp, hpair, fun a ha b hb heq => ?_⟩
      exact (hmade b hb).1 (heq ▸ (hmade₁ a (Option.mem_toList.mp ha)).1)

/-- The message region is one frame both may write. -/
theorem HasMessageRegion.mem_writableFrames {m : Mem} (h : HasMessageRegion hhdm m p) :
    (pagingCreateEntry 0x801000#64 mapUserRw).address ∈ writableFrames hhdm p m := by
  obtain ⟨es, hes, -⟩ := id h
  exact ⟨0x801000#64, es, _, by decide, hes, h.permission, rfl⟩

/-- **No two processes are isolated**: whatever the images, the arguments, the capabilities and the
ports, there is a frame both may write. -/
theorem not_disjoint_writableFrames {emptyQueue : BitVec 64} {requests : List SpawnRequest}
    {made : List ExecutionSpace} (h : Ready hhdm kernelPagemap w lab spaces)
    (hrun : MoonOS.spawnAll hhdm kernelPagemap emptyQueue requests w = some (made, w')) :
    made.Pairwise fun a b => a.vmSpace ≠ b.vmSpace
      ∧ ¬ Disjoint (writableFrames hhdm a.vmSpace w'.kernel.mem)
          (writableFrames hhdm b.vmSpace w'.kernel.mem) := by
  obtain ⟨-, hmade, hpair⟩ := h.spawnAll hrun
  exact hpair.imp_of_mem fun {a b} ha hb hne => ⟨hne, Set.not_disjoint_iff.mpr
    ⟨_, (hmade a ha).2.mem_writableFrames, (hmade b hb).2.mem_writableFrames⟩⟩

end Spawn

/-! ## Two processes -/

section Two

variable {hhdm kernelPagemap emptyQueue : BitVec 64} {w : Machine} {cap : Capability}
  {block : Block} {blocks : List Block} {n : ℕ}

/-- How `create_execution_space` gets to the image, and returns what `load_elf` does. -/
theorem createExecutionSpace_eq {p stack : BitVec 64} {vm vm' : Vm} {pid : BitVec 32}
    {sched : Sched} {m : Mem} {pools : Pools} {argv : List (List (BitVec 8))} {argvPtr : BitVec 64}
    {wArgs : Machine} {result : Except String (BitVec 64)} {out : Loading} {image : Mem}
    {capabilities : List Capability} (hnew : archCreateNewPagemap w.vm = some (p, vm))
    (hp0 : p ≠ 0#64) (hpid : schedAllocatePid w.kernel.sched = some (pid, sched))
    (hcap : memoryRegionCap capabilities = some cap)
    (halloc : capabilityAllocFrom cap pageSize vm.mem w.pools = (stack, m, pools))
    (hstack : stack ≠ 0#64)
    (hmap : archMapPage hhdm p (pa hhdm stack + 0x8000#64 - 0x1000#64)
      (pa hhdm stack + 0x8000#64 - 0x1000#64) mapUserRw
      (archCopyKernelMappings kernelPagemap p { vm with mem := m }) = some vm')
    (hargs : passArguments hhdm p cap argv
      ((((w.withVm vm).withSched sched).withPools m pools).withVm vm') = some (.ok argvPtr, wArgs))
    (hload : loadElf hhdm image p wArgs.vm = some (result, out)) :
    createExecutionSpace hhdm kernelPagemap image argv capabilities w
      = some (result.map fun entry =>
          { pid
            port := -1#32
            argc := argcOf argv
            argv := argvPtr
            vmSpace := p
            stackPointer := pa hhdm stack + 0x8000#64
            ec := createEc entry (pa hhdm stack + 0x8000#64)
            messageQueue := 0#64
            capabilities := 0#64 }, wArgs.withVm out.vm) := by
  have halloc' : capabilityAllocFrom cap pageSize ((w.withVm vm).withSched sched).kernel.mem
      ((w.withVm vm).withSched sched).pools = (stack, m, pools) := halloc
  have hmap' : archMapPage hhdm p (pa hhdm stack + 0x8000#64 - 0x1000#64)
      (pa hhdm stack + 0x8000#64 - 0x1000#64) mapUserRw (archCopyKernelMappings kernelPagemap p
        (((w.withVm vm).withSched sched).withPools m pools).vm) = some vm' := hmap
  rw [createExecutionSpace, hnew, Option.bind_some]
  dsimp only
  rw [hpid, Option.bind_some, if_neg hp0, hcap]
  dsimp only
  rw [halloc']
  dsimp only
  rw [if_neg hstack, hmap', Option.bind_some, hargs, Option.bind_some]
  dsimp only
  rw [hload, Option.map_some]

/-- How `ipc_assign_port` succeeds. -/
theorem ipcAssignPort_of {es : ExecutionSpace} {port : BitVec 32} {vm : Vm}
    (hes : es.port = -1#32) (hport : w.kernel.portToPid port = none)
    (hrange : archMapRange hhdm es.vmSpace ipcMessageRegionBase
      (ipcMessageRegionBase + ipcMessageRegionSz) mapUserRw 0#64 w.vm = some vm) :
    ipcAssignPort hhdm emptyQueue es port w
      = some (true, { es with port, messageQueue := emptyQueue },
          (w.withPort port es.pid).withVm vm) := by
  have hrange' : archMapRange hhdm es.vmSpace ipcMessageRegionBase
      (ipcMessageRegionBase + ipcMessageRegionSz) mapUserRw 0#64 (w.withPort port es.pid).vm
        = some vm := hrange
  have hfree : ¬ (es.port ≠ -1#32 ∨ w.kernel.portToPid port ≠ none) := by simp [hes, hport]
  rw [ipcAssignPort, if_neg hfree]
  dsimp only
  rw [hrange', Option.map_some]

/-- How an attempt succeeds. -/
theorem spawn_of {request : SpawnRequest} {es es' : ExecutionSpace} {w₁ w' : Machine}
    (hcreate : createExecutionSpace hhdm kernelPagemap request.image request.argv
      request.capabilities w = some (.ok es, w₁))
    (hassign : ipcAssignPort hhdm emptyQueue es request.port w₁ = some (true, es', w')) :
    spawn hhdm kernelPagemap emptyQueue request w = some (some es', w') := by
  rw [spawn, hcreate, Option.bind_some]
  dsimp only
  rw [hassign]
  rfl

/-- **The stack takes one block of the pool, and four pages** with the pagemap it is mapped in. -/
theorem exists_stackMapped (kernelPagemap : BitVec 64)
    (hregion : cap.HasPool)
    (hpool : w.pools cap.pool = block :: blocks) (hlen : pageSize ≤ block.len)
    (hptr : block.ptr ≠ 0#64) (hs : Supplies hhdm w.vm (n + 4)) :
    ∃ p vm m vm', archCreateNewPagemap w.vm = some (p, vm) ∧ p ≠ 0#64
      ∧ capabilityAllocFrom cap pageSize vm.mem w.pools
        = (block.ptr, m, Function.update w.pools cap.pool blocks)
      ∧ archMapPage hhdm p (pa hhdm block.ptr + 0x8000#64 - 0x1000#64)
          (pa hhdm block.ptr + 0x8000#64 - 0x1000#64) mapUserRw
          (archCopyKernelMappings kernelPagemap p { vm with mem := m }) = some vm'
      ∧ Supplies hhdm vm' n := by
  obtain ⟨p, vm, hnew, hp0, -, hs₁⟩ := hs.page
  have halloc := capabilityAllocFrom_eq (m := vm.mem) hregion hpool hlen hptr
  generalize fill vm.mem block.ptr pageSize 0#8 = m at halloc
  obtain ⟨vm', hmap, hs₂⟩ := archMapPage_isSome p (pa hhdm block.ptr + 0x8000#64 - 0x1000#64)
    (pa hhdm block.ptr + 0x8000#64 - 0x1000#64) mapUserRw
    (s := archCopyKernelMappings kernelPagemap p { vm with mem := m }) (hs₁.withMem _)
  exact ⟨p, vm, m, vm', hnew, hp0, halloc, hmap, hs₂⟩

/-- Six pages are enough for the message region. -/
theorem archMapRange_isSome {vm : Vm} (p : BitVec 64) (hs : Supplies hhdm vm (n + 6)) :
    ∃ vm', archMapRange hhdm p ipcMessageRegionBase (ipcMessageRegionBase + ipcMessageRegionSz)
        mapUserRw 0#64 vm = some vm' ∧ Supplies hhdm vm' n := by
  obtain ⟨vm₁, hmap₁, hs₁⟩ := archMapPage_isSome (n := n + 3) p 0x800000#64 0x800000#64 mapUserRw hs
  obtain ⟨vm₂, hmap₂, hs₂⟩ := archMapPage_isSome p 0x801000#64 0x801000#64 mapUserRw hs₁
  exact ⟨vm₂, Option.bind_eq_some_iff.mpr ⟨vm₁, hmap₁,
    Option.bind_eq_some_iff.mpr ⟨vm₂, hmap₂, rfl⟩⟩, hs₂⟩

/-- Copying the arguments takes a block of the pool for each, and no page. -/
theorem copyArgs_isSome {argvBase : BitVec 64} {i : ℕ} {args : List (List (BitVec 8))}
    {given rest : List Block} (hregion : cap.HasPool)
    (hpool : w.pools cap.pool = given ++ rest)
    (hfit : List.Forall₂ (fun arg b => arg.length + 1 ≤ b.len ∧ b.ptr ≠ 0#64) args given) :
    ∃ w', copyArgs hhdm cap argvBase i args w = some w'
      ∧ ∃ m, w'.vm = { w.vm with mem := m } := by
  induction hfit generalizing w i with
  | nil => exact ⟨w, rfl, w.kernel.mem, rfl⟩
  | @cons arg block args given hblock _ ih =>
    have halloc := capabilityAllocFrom_eq (m := w.kernel.mem) hregion hpool hblock.1 hblock.2
    rw [copyArgs, halloc]
    dsimp only
    rw [if_neg hblock.2]
    exact ih (Function.update_self ..)

/-- Passing arguments takes a block for the array and one for each, and three pages. -/
theorem passArguments_isSome {argv : List (List (BitVec 8))} {given rest : List Block}
    (p : BitVec 64) (hregion : cap.HasPool)
    (hargc : 0 < (argcOf argv).toInt) (hsmall : argv.length + 1 < 2 ^ 31)
    (hpool : w.pools cap.pool = block :: (given ++ rest)) (hlen : (argv.length + 1) * 8 ≤ block.len)
    (hptr : block.ptr ≠ 0#64)
    (hfit : List.Forall₂ (fun arg b => arg.length + 1 ≤ b.len ∧ b.ptr ≠ 0#64) argv given)
    (hs : Supplies hhdm w.vm (n + 3)) :
    ∃ argvPtr w', passArguments hhdm p cap argv w = some (.ok argvPtr, w')
      ∧ Supplies hhdm w'.vm n := by
  have halloc := capabilityAllocFrom_eq (m := w.kernel.mem) hregion hpool hlen hptr
  generalize fill w.kernel.mem block.ptr ((argv.length + 1) * 8) 0#8 = m at halloc
  obtain ⟨vm, hmap, hs₁⟩ := archMapPage_isSome p (pa hhdm block.ptr) (pa hhdm block.ptr)
    mapUserRo (hs.withMem m)
  have hmap' : archMapPage hhdm p (pa hhdm block.ptr) (pa hhdm block.ptr) mapUserRo
      (w.withPools m (Function.update w.pools cap.pool (given ++ rest))).vm = some vm := hmap
  have hblocks : ((w.withPools m
      (Function.update w.pools cap.pool (given ++ rest))).withVm vm).pools cap.pool
        = given ++ rest := Function.update_self ..
  obtain ⟨w₁, hcopy, m₁, hvm⟩ : ∃ w₁, copyArgs hhdm cap block.ptr 0 argv
      ((w.withPools m (Function.update w.pools cap.pool (given ++ rest))).withVm vm) = some w₁
        ∧ ∃ m₁, w₁.vm = { vm with mem := m₁ } := copyArgs_isSome hregion hblocks hfit
  refine ⟨pa hhdm block.ptr,
    w₁.withPools (store w₁.kernel.mem (at' block.ptr (8 * argv.length)) 8 0#64) w₁.pools,
    ?_, ?_⟩
  · rw [passArguments, if_neg (by omega), if_neg (by omega), halloc]
    dsimp only
    rw [if_neg hptr, hmap', Option.bind_some, hcopy, Option.map_some]
  · have hs₂ := hs₁.withMem m₁
    rw [← hvm] at hs₂
    exact hs₂.withMem _

theorem passArguments_nil (hhdm p : BitVec 64) (cap : Capability) (w : Machine) :
    passArguments hhdm p cap [] w = some (.ok 0#64, w) := if_pos (by decide)

/-- A process without arguments takes one block of a page from its pool, and ten pages besides four
for each page of its image. -/
theorem spawn_isSome (kernelPagemap emptyQueue : BitVec 64) (request : SpawnRequest)
    (hargv : request.argv = []) (haccept : Accepted request.image)
    (hcap : memoryRegionCap request.capabilities = some cap)
    (hregion : cap.HasPool)
    (hpool : w.pools cap.pool = block :: blocks) (hlen : pageSize ≤ block.len)
    (hptr : block.ptr ≠ 0#64) (hpid : w.kernel.sched.nextAvailablePid < maxPids)
    (hport : w.kernel.portToPid request.port = none)
    (hs : Supplies hhdm w.vm (n + 10 + 4 * (segmentPages request.image).length)) :
    ∃ es w', spawn hhdm kernelPagemap emptyQueue request w = some (some es, w')
      ∧ Supplies hhdm w'.vm n
      ∧ w'.pools = Function.update w.pools cap.pool blocks
      ∧ w'.kernel.sched.nextAvailablePid = w.kernel.sched.nextAvailablePid + 1
      ∧ w'.kernel.portToPid
          = Function.update w.kernel.portToPid request.port (some es.pid) := by
  obtain ⟨image, argv, capabilities, port⟩ := request
  obtain rfl : argv = [] := hargv
  dsimp only at haccept hcap hport hs ⊢
  have hpid' : schedAllocatePid w.kernel.sched = some (_, _) := if_neg (Nat.not_le.mpr hpid)
  obtain ⟨p, vm, m, vm', hnew, hp0, halloc, hmap, hs₁⟩ := exists_stackMapped
    (n := n + 6 + 4 * (segmentPages image).length) kernelPagemap hregion hpool hlen hptr
    (hs.mono (by omega))
  obtain ⟨out, hload, hs₂, -⟩ := loadElf_isSome (n := n + 6) haccept hs₁ p
  obtain ⟨vm₂, hrange, hs₃⟩ := archMapRange_isSome p hs₂
  have hcreate := createExecutionSpace_eq hnew hp0 hpid' hcap halloc hptr hmap
    (passArguments_nil ..) hload
  exact ⟨_, _, spawn_of hcreate (ipcAssignPort_of rfl hport hrange), hs₃, rfl, rfl, rfl⟩

end Two

/-- The pages of a machine just booted. -/
def bootPages : List (BitVec 64) :=
  (List.range 29).map fun i => BitVec.ofNat 64 (0xffff800000001000 + 4096 * i)

/-- A machine with two pools of one page each, before it has a pagemap. -/
def bareMachine : Machine where
  kernel :=
    { mem := fun _ => 0xff#8
      blocks := []
      allocated := []
      frames := bootPages
      pmmLock := false
      sched := freshProcesses 0
      portToPid := fun _ => none }
  pools pool := if pool = 1#64 then [⟨0xffff800000100000#64, 4096⟩]
    else if pool = 2#64 then [⟨0xffff800000200000#64, 4096⟩] else []

/-- …and with the kernel's. -/
def twoPools : Machine := bareMachine.withVm bareMachine.vm.served

/-- A capability for a pool. -/
def poolCap (pool : BitVec 64) : Capability where
  type := capAllocatableMemoryRegion ||| capRead ||| capWrite
  data := .allocatableMemoryRegion ⟨0x100000#64, 0x1000#64⟩ pool
  revoked := false

/-- A process of one page, over a pool. -/
def onePageRequest (pool : BitVec 64) (port : BitVec 32) : SpawnRequest where
  image := onePageElf 0x400000#64
  argv := []
  capabilities := [poolCap pool]
  port

/-- The pages of the two pools, under labels of their own. -/
def poolLabels : Labels := fun c =>
  if c = 0xffff800000100000#64 ∨ c = 0xffff800000200000#64 then some (c, [0#9, 0#9, 0#9, 0#9])
  else none

/-- Labels of pages that are no tables, beyond those of a machine just booted. -/
def PageLabels (lab : Labels) : Prop :=
  ∀ c l, lab c = some l → l.2.length = 4 ∧ OnPage 0xffff800000000000#64 c
    ∧ 0xffff80000001e000#64 ≤ c

/-- A machine just booted has no table among them. -/
theorem PageLabels.tables {lab : Labels} (h : PageLabels lab) :
    Tables 0xffff800000000000#64 0xffff800000001000#64 bareMachine.vm lab where
  labelled := ⟨fun {a o p i} ha hlen => by
    have hfour : p.length = 4 := (h a _ ha).1
    omega⟩
  onPage {c} hc := by
    obtain ⟨l, hl⟩ := Option.ne_none_iff_exists'.mp hc
    exact (h c l hl).2.1
  fresh f hf _ := by
    obtain ⟨i, hi, rfl⟩ := List.mem_map.mp hf
    rw [List.mem_range] at hi
    refine ⟨?_, Option.eq_none_iff_forall_ne_some.mpr fun l hl => ?_⟩
    · rw [OnPage]
      bv_omega
    · have := (h _ l hl).2.2
      bv_omega
  distinct := by decide +kernel

/-- With the kernel's pagemap, and pools in such pages, it makes processes. -/
theorem PageLabels.ready {lab : Labels} {pools : Pools} (h : PageLabels lab)
    (hpools : ∀ pool, ∀ block ∈ pools pool, ∀ i < block.len,
      ∃ f, lab f ≠ none ∧ (at' block.ptr i - f).toNat < 4096) :
    ∃ lab', Ready 0xffff800000000000#64 0xffff800000001000#64 { twoPools with pools } lab' ∅ := by
  have hhead : bareMachine.vm.nextPage = 0xffff800000001000#64 := by decide +kernel
  have hnew : archCreateNewPagemap bareMachine.vm
      = some (0xffff800000001000#64, twoPools.vm) := by
    rw [archCreateNewPagemap, archAllocPage_served rfl (by rw [hhead]; decide), hhead, twoPools,
      Machine.vm_withVm]
  refine ⟨_, nofun, h.tables.toSpaces hnew (by decide), fun pool block hblock _ i hi => ?_⟩
  obtain ⟨f, hf, hlt⟩ := hpools pool block hblock i hi
  obtain ⟨⟨o, path⟩, hl⟩ := Option.ne_none_iff_exists'.mp hf
  obtain ⟨hlen, -, hge⟩ := h f _ hl
  have hne : f ≠ 0xffff800000001000#64 := by
    rintro rfl
    bv_omega
  exact ⟨f, ⟨o, path, (Function.update_of_ne hne ..).trans hl, hlen⟩, hlt⟩

theorem ready_twoPools :
    ∃ lab, Ready 0xffff800000000000#64 0xffff800000001000#64 twoPools lab ∅ := by
  have hlab : PageLabels poolLabels := fun c l hl => by
    rw [poolLabels] at hl
    split at hl
    case isTrue h =>
      obtain rfl := Option.some.inj hl
      rcases h with rfl | rfl <;> exact ⟨rfl, by decide, by decide⟩
    case isFalse => cases hl
  refine hlab.ready fun pool block hblock i hi => ?_
  simp only [bareMachine] at hblock
  split at hblock
  · obtain rfl := List.mem_singleton.mp hblock
    dsimp only at hi
    exact ⟨0xffff800000100000#64, by decide, by rwa [toNat_at'_sub _ (by omega)]⟩
  · split at hblock
    · obtain rfl := List.mem_singleton.mp hblock
      dsimp only at hi
      exact ⟨0xffff800000200000#64, by decide, by rwa [toNat_at'_sub _ (by omega)]⟩
    · cases hblock

theorem good_bootPages : ∀ f ∈ bootPages, f ≠ 0#64 ∧ f ≠ 0xffff800000000000#64 := by
  intro f hf
  obtain ⟨i, hi, rfl⟩ := List.mem_map.mp hf
  rw [List.mem_range] at hi
  constructor <;> bv_omega

theorem memoryRegionCap_poolCap (pool : BitVec 64) :
    memoryRegionCap [poolCap pool] = some (poolCap pool) := by
  simp [memoryRegionCap, poolCap, capAllocatableMemoryRegion, capRead, capWrite]

theorem hasPool_poolCap {pool : BitVec 64} (h : pool ≠ 0#64) : (poolCap pool).HasPool :=
  ⟨by simp [Capability.hasAccess, poolCap, capAllocatableMemoryRegion, capRead, capWrite], h⟩

/-- Two processes are made, over different pools and with different ports. -/
theorem spawnAll_isSome {hhdm kernelPagemap emptyQueue : BitVec 64} {w : Machine}
    (hs : Supplies hhdm w.vm 28)
    (hpid : w.kernel.sched.nextAvailablePid = 0) (hports : w.kernel.portToPid = fun _ => none)
    {block₁ block₂ : Block} (hpool₁ : w.pools 1#64 = [block₁]) (hpool₂ : w.pools 2#64 = [block₂])
    (hblock₁ : pageSize ≤ block₁.len ∧ block₁.ptr ≠ 0#64)
    (hblock₂ : pageSize ≤ block₂.len ∧ block₂.ptr ≠ 0#64) :
    ∃ a b w', spawnAll hhdm kernelPagemap emptyQueue
      [onePageRequest 1#64 0#32, onePageRequest 2#64 1#32] w = some ([a, b], w') := by
  have hpages : ∀ pool port, (segmentPages (onePageRequest pool port).image).length = 1 := by
    have h : (segmentPages (onePageElf 0x400000#64)).length = 1 := by decide +kernel
    exact fun _ _ => h
  have haccept : ∀ pool port, Accepted (onePageRequest pool port).image := by
    have h : Accepted (onePageElf 0x400000#64) := ⟨by decide +kernel, by decide +kernel⟩
    exact fun _ _ => h
  obtain ⟨a, w₁, hspawn₁, hs₁, hpools₁, hpid₁, hports₁⟩ :=
    spawn_isSome kernelPagemap emptyQueue (onePageRequest 1#64 0#32) (n := 14) rfl (haccept _ _)
      (memoryRegionCap_poolCap _) (hasPool_poolCap (by decide)) hpool₁ hblock₁.1 hblock₁.2
      (by rw [hpid]; decide) (by rw [hports]) (hs.mono (by rw [hpages]))
  have hpool₂' : w₁.pools (poolCap 2#64).pool = [block₂] := by
    rw [hpools₁, Function.update_of_ne (by decide)]
    exact hpool₂
  obtain ⟨b, w₂, hspawn₂, -⟩ :=
    spawn_isSome kernelPagemap emptyQueue (onePageRequest 2#64 1#32) (n := 0) rfl (haccept _ _)
      (memoryRegionCap_poolCap _) (hasPool_poolCap (by decide)) hpool₂' hblock₂.1 hblock₂.2
      (by rw [hpid₁, hpid]; decide) (by rw [hports₁, hports]; rfl)
      (hs₁.mono (by rw [hpages]))
  refine ⟨a, b, w₂, ?_⟩
  rw [spawnAll, hspawn₁, Option.bind_some]
  dsimp only
  rw [spawnAll, hspawn₂, Option.bind_some]
  rfl

theorem pools_twoPools :
    twoPools.pools (poolCap 1#64).pool = [⟨0xffff800000100000#64, 4096⟩] := rfl

theorem supplies_twoPools : Supplies 0xffff800000000000#64 twoPools.vm 28 where
  unlocked := rfl
  good f hf := good_bootPages f (List.mem_of_mem_tail hf)
  enough := (by decide : 28 ≤ bootPages.tail.length)

theorem spawnAll_twoPools : ∃ a b w', spawnAll 0xffff800000000000#64 0xffff800000001000#64
    0xffffffff80200000#64 [onePageRequest 1#64 0#32, onePageRequest 2#64 1#32] twoPools
      = some ([a, b], w') :=
  spawnAll_isSome supplies_twoPools rfl rfl rfl rfl
    ⟨le_refl 4096, by decide⟩ ⟨le_refl 4096, by decide⟩

/-- An image of one page is made a process over the first pool, and pages are left. -/
theorem spawn_twoPools {image : Mem} (haccept : Accepted image)
    (hpages : (segmentPages image).length = 1) : ∃ es w', spawn 0xffff800000000000#64
      0xffff800000001000#64 0xffffffff80200000#64 ⟨image, [], [poolCap 1#64], 0#32⟩ twoPools
        = some (some es, w') ∧ w'.kernel.frames ≠ [] := by
  obtain ⟨es, w', hrun, hleft, -⟩ := spawn_isSome 0xffff800000001000#64 0xffffffff80200000#64
    ⟨image, [], [poolCap 1#64], 0#32⟩ (n := 1) rfl haccept (memoryRegionCap_poolCap _)
    (hasPool_poolCap (by decide)) pools_twoPools (le_refl 4096) (by decide) (by decide) rfl
    (supplies_twoPools.mono (by rw [hpages]; omega))
  exact ⟨es, w', hrun, List.ne_nil_of_length_pos hleft.enough⟩

/-- Neither is isolated from the other. -/
theorem not_disjoint_twoPools : ∃ a b w', spawnAll 0xffff800000000000#64 0xffff800000001000#64
    0xffffffff80200000#64 [onePageRequest 1#64 0#32, onePageRequest 2#64 1#32] twoPools
      = some ([a, b], w')
    ∧ ¬ Disjoint (writableFrames 0xffff800000000000#64 a.vmSpace w'.kernel.mem)
        (writableFrames 0xffff800000000000#64 b.vmSpace w'.kernel.mem) := by
  obtain ⟨lab, h⟩ := ready_twoPools
  obtain ⟨a, b, w', hrun⟩ := spawnAll_twoPools
  have hpair := not_disjoint_writableFrames h hrun
  exact ⟨a, b, w', hrun, (List.pairwise_pair.mp hpair).2⟩

/-- The frame at `0x801000` is writable for both. -/
theorem shared_twoPools : ∃ a b w', spawnAll 0xffff800000000000#64 0xffff800000001000#64
    0xffffffff80200000#64 [onePageRequest 1#64 0#32, onePageRequest 2#64 1#32] twoPools
      = some ([a, b], w')
    ∧ a.vmSpace ≠ b.vmSpace
    ∧ ∃ frame : BitVec 52, frame.setWidth 64 <<< 12 = 0x801000#64
      ∧ frame ∈ writableFrames 0xffff800000000000#64 a.vmSpace w'.kernel.mem
      ∧ frame ∈ writableFrames 0xffff800000000000#64 b.vmSpace w'.kernel.mem := by
  obtain ⟨lab, h⟩ := ready_twoPools
  obtain ⟨a, b, w', hrun⟩ := spawnAll_twoPools
  obtain ⟨-, hmade, hpair⟩ := h.spawnAll hrun
  have hne : a.vmSpace ≠ b.vmSpace := by simpa using hpair
  exact ⟨a, b, w', hrun, hne, (pagingCreateEntry 0x801000#64 mapUserRw).address, by decide,
    (hmade a (by simp)).2.mem_writableFrames, (hmade b (by simp)).2.mem_writableFrames⟩

end MoonOS