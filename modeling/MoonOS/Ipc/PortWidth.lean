import MoonOS.Ipc.Ports

/-!
# Ipc/PortWidth — ports of 64 bits and a map of `int`s

A port comes from a user program as 64 bits.  The keys of `port_to_pid` are `int`s, and so is the
port of a process; on the way there the upper half is dropped, and what remains is signed.

* `sendsFullWidth_iff` — a message goes to the process of this very number exactly when the number
  is below `2 ^ 31`;
* `createsFullWidth_iff` — and `sys_create_process` gives the port of this number or fails exactly
  when it is below `2 ^ 31` or there is no capability to build a process from.  As the code stands
  the vector of capabilities is null, so it always fails.

A process with a key other than `-1` has that key for its port, over any run: `PortState.Marked`.
-/

namespace MoonOS

open ByteMemory GuardedRun

/-! ## The port of a process -/

/-- The pids and the ports of the processes there are, enqueued or not. -/
def PortState.marks (p : PortState) : List (BitVec 32 × BitVec 32) :=
  (p.made ++ p.kernel.sched.processes).map fun es => (es.pid, es.port)

/-- **What holds along every run**: a key leads to a process that was created, and is its port, or
the mark of a process without one. -/
structure PortState.Marked (p : PortState) : Prop where
  born : ∀ port pid, p.kernel.portToPid port = some pid → pid ∈ p.born
  port : ∀ pid port', (pid, port') ∈ p.marks → ∀ port, p.kernel.portToPid port = some pid →
    port' = port ∨ port = -1#32

section Marks

variable {emptyQueue : BitVec 64} {p p' : PortState} {space : ExecutionSpace} {port : BitVec 32}

theorem PortState.map_fst_marks (p : PortState) : p.marks.map Prod.fst = p.pids := by
  rw [PortState.marks, PortState.pids, List.map_map, List.map_append]
  rfl

theorem PortState.mem_marks {es : ExecutionSpace} (h : es ∈ p.made ++ p.kernel.sched.processes) :
    (es.pid, es.port) ∈ p.marks :=
  List.mem_map_of_mem (f := fun es : ExecutionSpace => (es.pid, es.port)) h

theorem PortState.Marked.boot (k : Kernel) : (PortState.boot k).Marked :=
  ⟨nofun, nofun⟩

/-- Processes may be written, moved and dropped, as long as they keep their ports. -/
theorem PortState.Marked.subset (h : p.Marked) (hmarks : p'.marks ⊆ p.marks)
    (hborn : p.born ⊆ p'.born) (hports : p'.kernel.portToPid = p.kernel.portToPid) : p'.Marked where
  born port pid hkey := hborn (h.born port pid (hports ▸ hkey))
  port pid port' hmem port hkey := h.port pid port' (hmarks hmem) port (hports ▸ hkey)

/-- A process that is created has a pid that no key leads to. -/
theorem PortState.Marked.create (h : p.Marked) (hwf : p.Wf) {succeeds : Bool}
    (hstep : (PortEvent.create space succeeds).apply emptyQueue p = some p') : p'.Marked := by
  obtain ⟨⟨pid, sched⟩, halloc, rfl⟩ := Option.map_eq_some_iff.mp hstep
  have hborn := hwf.born.allocate halloc
  obtain ⟨-, -, rfl⟩ := schedAllocatePid_eq_some halloc
  cases succeeds with
  | false => exact h.subset (List.Subset.refl _) (List.Subset.refl _) rfl
  | true =>
    refine ⟨fun port pid' hkey => List.mem_cons_of_mem _ (h.born port pid' hkey), ?_⟩
    intro pid' port' hmem port hkey
    rcases List.mem_cons.mp hmem with heq | hmem
    · obtain ⟨rfl, -⟩ := Prod.mk.inj heq
      exact absurd (h.born port pid' hkey) (List.nodup_cons.mp hborn.nodup).1
    · exact h.port pid' port' hmem port hkey

/-- A process that is given a port had none, or `-1`. -/
theorem PortState.Marked.assign (h : p.Marked) (hwf : p'.Wf)
    (hnew : (space.pid, port) ∈ p'.marks) (hold : (space.pid, -1#32) ∈ p.marks)
    (hmarks : p'.marks ⊆ (space.pid, port) :: p.marks) (hborn : p'.born = p.born)
    (hports : p'.kernel.portToPid = Function.update p.kernel.portToPid port (some space.pid)) :
    p'.Marked := by
  have hpid : space.pid ∈ p'.born :=
    hwf.alive (p'.map_fst_marks ▸ List.mem_map_of_mem (f := Prod.fst) hnew)
  refine ⟨fun key pid hkey => ?_, fun pid port' hmem key hkey => ?_⟩
  · rw [hports] at hkey
    by_cases hsame : key = port
    · subst hsame
      rw [Function.update_self, Option.some.injEq] at hkey
      exact hkey ▸ hpid
    · rw [Function.update_of_ne hsame] at hkey
      exact hborn ▸ h.born key pid hkey
  · rw [hports] at hkey
    by_cases hsame : key = port
    · -- The new key leads to the process that has just been marked with it.
      subst hsame
      rw [Function.update_self, Option.some.injEq] at hkey
      have hnodup : (p'.marks.map Prod.fst).Nodup := by
        rw [p'.map_fst_marks]
        exact hwf.pids.nodup
      have heq := List.inj_on_of_nodup_map hnodup hmem hnew hkey.symm
      exact .inl (Prod.mk.inj heq).2
    · rw [Function.update_of_ne hsame] at hkey
      rcases List.mem_cons.mp (hmarks hmem) with heq | hmem
      · -- An older key of that process was the mark.
        obtain ⟨rfl, -⟩ := Prod.mk.inj heq
        rcases h.port _ _ hold key hkey with hmark | hmark
        · exact .inr hmark.symm
        · exact .inr hmark
      · exact h.port pid port' hmem key hkey

/-- A call of `ipc_assign_port` for one of the processes. -/
theorem PortState.Marked.assignPort (h : p.Marked) (hwf : p'.Wf) {i : ℕ}
    (hspace : (p.made ++ p.kernel.sched.processes)[i]? = some space)
    (hspaces : p'.made ++ p'.kernel.sched.processes = (p.made ++ p.kernel.sched.processes).set i
      (MoonOS.assignPort emptyQueue space port p.kernel).2.1)
    (hborn : p'.born = p.born)
    (hports : p'.kernel.portToPid
      = (MoonOS.assignPort emptyQueue space port p.kernel).2.2.portToPid) : p'.Marked := by
  obtain ⟨hi, hget⟩ := List.getElem?_eq_some_iff.mp hspace
  by_cases hfree : space.port = -1#32 ∧ p.kernel.portToPid port = none
  · rw [assignPort_of_free hfree.1 hfree.2] at hspaces hports
    have hnew := PortState.mem_marks (p := p') (hspaces ▸ List.mem_set hi _)
    refine h.assign hwf hnew ?_ ?_ hborn hports
    · rw [← hfree.1]
      exact PortState.mem_marks (List.mem_of_getElem? hspace)
    · intro mark hmark
      rw [PortState.marks, hspaces] at hmark
      obtain ⟨es, hes, rfl⟩ := List.mem_map.mp hmark
      rcases List.mem_or_eq_of_mem_set hes with hes | rfl
      · exact List.mem_cons_of_mem _ (PortState.mem_marks hes)
      · exact List.mem_cons_self
  · rw [assignPort_of_taken hfree] at hspaces hports
    refine h.subset ?_ (by rw [hborn]; exact List.Subset.refl _) hports
    rw [PortState.marks, hspaces, ← hget, List.set_getElem_self]
    exact List.Subset.refl _

/-- **Every event keeps the marks.** -/
theorem PortState.Marked.step (h : p.Marked) (hwf : p.Wf) {e : PortEvent}
    (hstep : e.apply emptyQueue p = some p') : p'.Marked := by
  have hwf' := hwf.step hstep
  cases e with
  | create space succeeds => exact h.create hwf hstep
  | assignMade i port =>
    obtain ⟨space, hspace, rfl⟩ := Option.map_eq_some_iff.mp hstep
    have hi := (List.getElem?_eq_some_iff.mp hspace).1
    refine h.assignPort hwf' (i := i) ((List.getElem?_append_left hi).trans hspace) ?_ rfl rfl
    rw [List.set_append_left _ _ hi, sched_assignPort]
  | assignLive i port =>
    obtain ⟨space, hspace, rfl⟩ := Option.map_eq_some_iff.mp hstep
    refine h.assignPort hwf' (i := p.made.length + i) ?_ ?_ rfl rfl
    · rw [List.getElem?_append_right (Nat.le_add_right ..), Nat.add_sub_cancel_left, hspace]
    · rw [List.set_append_right _ _ (Nat.le_add_right ..), Nat.add_sub_cancel_left,
        Sched.processes_set, sched_assignPort]
  | enqueue i pushed =>
    obtain ⟨space, hspace, rfl⟩ := Option.map_eq_some_iff.mp hstep
    refine h.subset (fun mark hmark => ?_) (List.Subset.refl _) rfl
    obtain ⟨es, hes, rfl⟩ := List.mem_map.mp hmark
    refine PortState.mem_marks ?_
    rcases List.mem_append.mp hes with hmade | hlive
    · exact List.mem_append_left _ (List.mem_of_mem_eraseIdx hmade)
    · cases pushed with
      | false => exact List.mem_append_right _ hlive
      | true =>
        rcases List.mem_append.mp hlive with hlive | hnew
        · exact List.mem_append_right _ hlive
        · obtain rfl := List.mem_singleton.mp hnew
          exact List.mem_append_left _ (List.mem_of_getElem? hspace)
  | exit pid =>
    obtain rfl := Option.some.inj hstep
    have hsub := (schedDequeue_dropLast_sublist pid p.kernel.sched).1
    exact h.subset (((hsub.append_left _).map _).subset) (List.Subset.refl _) rfl
  | tick regs =>
    obtain ⟨⟨es, sched⟩, htick, rfl⟩ := Option.map_eq_some_iff.mp hstep
    obtain ⟨-, hproc, -, -⟩ := schedReschedule_eq_some htick
    refine h.subset (List.Perm.subset (.of_eq ?_)) (List.Subset.refl _) rfl
    rw [PortState.marks, PortState.marks, List.map_append, List.map_append, hproc]
    exact congrArg _ (map_set_get _ rfl)
  | send toPort payload payloadSize =>
    obtain ⟨⟨msg, kernel⟩, hsend, rfl⟩ := Option.map_eq_some_iff.mp hstep
    rcases ipcSend_cases hsend with ⟨-, rfl⟩ |
      ⟨i, pid, message, queue, pushed, heap, -, -, -, -, rfl⟩
    · exact ⟨h.born, h.port⟩
    · refine h.subset (List.Perm.subset (.of_eq ?_)) (List.Subset.refl _) rfl
      rw [PortState.marks, PortState.marks, List.map_append, List.map_append, Kernel.setQueue,
        Sched.processes_set]
      exact congrArg _ (map_set_get _ rfl)
  | memory m blocks allocated frames pmmLock =>
    obtain rfl := Option.some.inj hstep
    exact ⟨h.born, h.port⟩

end Marks

/-! ## Sends -/

/-- **A message goes to the process of this very number**: along every run, one that `ipc_send`
appends is in the queue of a process that was assigned a port equal to the 64 bits, and carries that
port. -/
def SendsFullWidth (toPort : BitVec 64) : Prop :=
  ∀ (emptyQueue : BitVec 64) (k : Kernel) (events : List PortEvent) (p : PortState),
    events.foldlM (PortEvent.apply emptyQueue) (PortState.boot k) = some p →
    ∀ (payload payloadSize : BitVec 64) (message : IpcMessage) (k' : Kernel),
      ipcSend toPort payload payloadSize p.kernel = some (some message, k') →
      ∃ (i : ℕ) (queue : BitVec 64) (heap : Heap),
        i < p.kernel.sched.processes.length
        ∧ ccVecPush 32 (p.kernel.sched.get i).messageQueue message.toWord p.kernel.heap
          = some (queue, true, heap)
        ∧ k' = (p.kernel.withHeap heap).setQueue i queue
        ∧ ((p.kernel.sched.get i).pid, (p.kernel.sched.get i).port) ∈ p.assigned
        ∧ (p.kernel.sched.get i).port.toInt = toPort.toNat
        ∧ (message.receiver.toNat : ℤ) = (p.kernel.sched.get i).port.toInt

section Sends

variable {toPort : BitVec 64}

theorem receiver_of_ipcSend {payload payloadSize : BitVec 64} {k k' : Kernel} {message : IpcMessage}
    (h : ipcSend toPort payload payloadSize k = some (some message, k')) :
    message.receiver = toPort := by
  unfold ipcSend at h
  split at h
  case h_1 => cases (Prod.mk.inj (Option.some.inj h)).1
  case h_2 =>
    split at h
    case h_1 =>
      obtain ⟨⟨queue, pushed, heap⟩, -, hrest⟩ := Option.bind_eq_some_iff.mp h
      have hmsg := (Prod.mk.inj (Option.some.inj hrest)).1
      split at hmsg
      · obtain rfl := Option.some.inj hmsg
        rfl
      · cases hmsg
    case h_2 => cases (Prod.mk.inj (Option.some.inj h)).1

theorem toInt_lt (port : BitVec 32) : port.toInt < 2 ^ 31 := by
  have := BitVec.toInt_lt (x := port)
  omega

/-- A number below `2 ^ 31` is the `int` that is made of it. -/
theorem toInt_setWidth_of_lt {n : BitVec 64} (h : n.toNat < 2 ^ 31) :
    (n.setWidth 32).toInt = n.toNat := by
  rw [BitVec.toInt_eq_toNat_of_lt, BitVec.toNat_setWidth]
  · omega
  · rw [BitVec.toNat_setWidth]
    omega

/-- Any number at all gets a message to the process whose port is what is left of it. -/
theorem exists_ipcSend (toPort : BitVec 64) :
    ∃ (p : PortState) (message : IpcMessage) (k' : Kernel),
    [PortEvent.create default true, .assignMade 0 (toPort.setWidth 32), .enqueue 0 true].foldlM
        (PortEvent.apply 0xffffffff80200000#64) (PortState.boot oneProcess) = some p
      ∧ ipcSend toPort 0x1000#64 8#64 p.kernel = some (some message, k') := by
  obtain ⟨p, hrun, hkey, hfind, ⟨current, hcur⟩, hqueue, hheap⟩ : ∃ p : PortState,
      [PortEvent.create default true, .assignMade 0 (toPort.setWidth 32), .enqueue 0 true].foldlM
        (PortEvent.apply 0xffffffff80200000#64) (PortState.boot oneProcess) = some p
      ∧ p.kernel.portToPid (toPort.setWidth 32) = some 0#32
      ∧ p.kernel.sched.processes.findIdx? (fun es => es.pid = 0#32) = some 0
      ∧ (∃ current, schedCurrent p.kernel.sched = some current)
      ∧ (p.kernel.sched.get 0).messageQueue = 0xffffffff80200000#64
      ∧ p.kernel.heap = oneProcess.heap :=
    ⟨_, rfl, Function.update_self .., rfl, ⟨_, rfl⟩, rfl, rfl⟩
  have hempty : IsVec oneProcess.heap.mem 0xffffffff80200000#64 0 ([] : List (BitVec (8 * 32))) :=
    ⟨by decide +kernel, by decide +kernel, by decide, by decide, by decide, fun _ h => by simp at h⟩
  let message : IpcMessage := ⟨current.pid.signExtend 64, toPort, 0x1000#64, 8#64⟩
  obtain ⟨queue, heap, -, hpush, -⟩ | ⟨-, -, -, -, -, hfull | hfull⟩ :=
    ccVecPush_isVec (by decide) (by decide) hempty ownsPort_oneProcess.roomy message.toWord
  · refine ⟨p, message, (p.kernel.withHeap heap).setQueue 0 queue, hrun, ?_⟩
    simp only [ipcSend, hkey, hfind, hcur]
    rw [hqueue, hheap, show _ = some (queue, true, heap) from hpush]
    rfl
  · exact absurd hfull (by decide)
  · exact absurd hfull (by decide)

/-- **A message goes to the process of this very number exactly when it is below `2 ^ 31`.** -/
theorem sendsFullWidth_iff : SendsFullWidth toPort ↔ toPort.toNat < 2 ^ 31 := by
  constructor
  · intro h
    obtain ⟨p, message, k', hrun, hsend⟩ := exists_ipcSend toPort
    obtain ⟨i, -, -, -, -, -, -, hport, -⟩ := h _ _ _ p hrun _ _ message k' hsend
    have hlt := toInt_lt (p.kernel.sched.get i).port
    omega
  · intro hlt emptyQueue k events p hrun payload payloadSize message k' hsend
    have h : p.Wf ∧ p.Marked := invariant (I := fun p => p.Wf ∧ p.Marked)
      (fun _ _ _ h hstep => ⟨h.1.step hstep, h.2.step h.1 hstep⟩) hrun ⟨.boot k, .boot k⟩
    rcases ipcSend_cases hsend with ⟨hnone, -⟩ |
      ⟨i, pid, message', queue, pushed, heap, hkey, hfind, hpush, hmsg, hk'⟩
    · cases hnone
    cases pushed with
    | false => cases hmsg
    | true =>
      obtain rfl : message = message' := Option.some.inj hmsg
      obtain ⟨hi, rfl⟩ := Sched.of_findIdx? hfind
      have hmem := PortState.mem_marks (p := p) (List.mem_append_right _ (Sched.get_mem hi))
      have hint := toInt_setWidth_of_lt hlt
      -- Below `2 ^ 31` the key is not the mark, so it is the port of the process.
      have hport : (p.kernel.sched.get i).port = toPort.setWidth 32 := by
        refine (h.2.port _ _ hmem _ hkey).resolve_right fun hmark => ?_
        rw [hmark] at hint
        simp at hint
      refine ⟨i, queue, heap, hi, hpush, hk', ?_, ?_, ?_⟩
      · rw [hport]
        exact h.1.ports _ _ hkey
      · rw [hport, hint]
      · rw [receiver_of_ipcSend hsend, hport, hint]

end Sends

/-! ## Creations -/

/-- **`sys_create_process` gives the port of this very number, or fails.** -/
def CreatesFullWidth (capabilities : List Capability) (portId : BitVec 64) : Prop :=
  ∀ (hhdm kernelPagemap emptyQueue elf : BitVec 64) (image : Mem) (argv : List (List (BitVec 8)))
    (pushed : Bool) (w w' : Machine),
    sysCreateProcessWith hhdm kernelPagemap emptyQueue elf portId image argv capabilities pushed w
      = some (0#32, w') →
    ∃ es : ExecutionSpace, es.port.toInt = portId.toNat
      ∧ w'.kernel.portToPid = Function.update w.kernel.portToPid es.port (some es.pid)
      ∧ (pushed = true → es ∈ w'.kernel.sched.processes)

/-- **A process can be built from the capabilities**: there is a region among them, and it can be
allocated from. -/
def Allocatable (capabilities : List Capability) : Prop :=
  ∃ cap, memoryRegionCap capabilities = some cap ∧ cap.HasPool

section Creations

variable {capabilities : List Capability} {portId : BitVec 64}

/-- A status of `0` comes from a process that was created and given its port. -/
theorem created_of_sysCreateProcessWith {hhdm kernelPagemap emptyQueue elf : BitVec 64}
    {image : Mem} {argv : List (List (BitVec 8))} {pushed : Bool} {w w' : Machine}
    (h : sysCreateProcessWith hhdm kernelPagemap emptyQueue elf portId image argv capabilities
      pushed w = some (0#32, w')) :
    ∃ space w₁ es w₂, createExecutionSpace hhdm kernelPagemap image argv capabilities w
        = some (.ok space, w₁)
      ∧ ipcAssignPort hhdm emptyQueue space (portId.setWidth 32) w₁ = some (true, es, w₂)
      ∧ w' = w₂.withSched (schedEnqueue es pushed w₂.kernel.sched) := by
  rw [sysCreateProcessWith, sysCreateProcessBy] at h
  split at h
  · exact absurd (Prod.mk.inj (Option.some.inj h)).1 (by decide)
  obtain ⟨⟨result, w₁⟩, hcreate, h⟩ := Option.bind_eq_some_iff.mp h
  cases result with
  | error message => exact absurd (Prod.mk.inj (Option.some.inj h)).1 (by decide)
  | ok space =>
    obtain ⟨⟨assigned, es, w₂⟩, hassign, heq⟩ := Option.map_eq_some_iff.mp h
    cases assigned with
    | false => exact absurd (Prod.mk.inj heq).1 (by decide)
    | true => exact ⟨space, w₁, es, w₂, hcreate, hassign, (Prod.mk.inj heq).2.symm⟩

/-- A process is built from a region that can be allocated from. -/
theorem allocatable_of_createExecutionSpace {hhdm kernelPagemap : BitVec 64} {image : Mem}
    {argv : List (List (BitVec 8))} {w w' : Machine} {es : ExecutionSpace}
    (h : createExecutionSpace hhdm kernelPagemap image argv capabilities w = some (.ok es, w')) :
    Allocatable capabilities := by
  obtain ⟨c⟩ := creation_of_createExecutionSpace h
  refine ⟨c.cap, c.region, ?_⟩
  by_contra hnone
  have halloc := c.alloc
  rw [capabilityAllocFrom_of_not_hasPool hnone] at halloc
  exact c.stack_ne (Prod.mk.inj halloc).1.symm

/-- With a region that can be allocated from, there is a machine that creates a process on any
port. -/
theorem exists_sysCreateProcessWith (hcap : Allocatable capabilities) (hport : portId ≠ 0#64) :
    ∃ w w', sysCreateProcessWith 0xffff800000000000#64 0xffff800000001000#64 0xffffffff80200000#64
      0x400000#64 portId (onePageElf 0x400000#64) [] capabilities true w = some (0#32, w') := by
  obtain ⟨cap, hregion, hpool⟩ := hcap
  have hpages : (segmentPages (onePageElf 0x400000#64)).length = 1 := by decide +kernel
  have haccept : Accepted (onePageElf 0x400000#64) := ⟨by decide +kernel, by decide +kernel⟩
  let w : Machine := { twoPools with pools := fun _ => [⟨0xffff800000100000#64, 4096⟩] }
  obtain ⟨es, w', hspawn, -⟩ := spawn_isSome (w := w) 0xffff800000001000#64 0xffffffff80200000#64
    ⟨onePageElf 0x400000#64, [], capabilities, portId.setWidth 32⟩ (n := 0) rfl haccept hregion
    hpool rfl (le_refl 4096) (by decide) (by decide) rfl
    (supplies_twoPools.mono (by rw [hpages]; decide))
  obtain ⟨space, w₁, hcreate, hassign⟩ := created_of_spawn hspawn
  refine ⟨w, w'.withSched (schedEnqueue es true w'.kernel.sched), ?_⟩
  rw [sysCreateProcessWith, sysCreateProcessBy, if_neg (by simp [hport]), createProcess, hcreate,
    Option.bind_some]
  dsimp only
  rw [hassign]
  rfl

/-- **`sys_create_process` gives the port of this very number or fails exactly when it is below
`2 ^ 31` or there is nothing to build a process from.** -/
theorem createsFullWidth_iff :
    CreatesFullWidth capabilities portId ↔ (Allocatable capabilities → portId.toNat < 2 ^ 31) := by
  constructor
  · intro h hcap
    by_cases hzero : portId = 0#64
    · simp [hzero]
    obtain ⟨w, w', hrun⟩ := exists_sysCreateProcessWith hcap hzero
    obtain ⟨es, hport, -⟩ := h _ _ _ _ _ _ _ w w' hrun
    have hlt := toInt_lt es.port
    omega
  · intro hlt hhdm kernelPagemap emptyQueue elf image argv pushed w w' hrun
    obtain ⟨space, w₁, es, w₂, hcreate, hassign, rfl⟩ := created_of_sysCreateProcessWith hrun
    obtain ⟨pid, -, hports, hmade⟩ := createExecutionSpace_tables hcreate
    obtain ⟨k, htables, -, hports₂⟩ := ipcAssignPort_tables hassign
    have hint := toInt_setWidth_of_lt (hlt (allocatable_of_createExecutionSpace hcreate))
    have hfree : w₁.kernel.portToPid (portId.setWidth 32) = none := by
      by_contra htaken
      rw [assignPort_of_taken (by exact fun hboth => htaken hboth.2)] at htables
      cases (Prod.mk.inj htables).1
    rw [assignPort_of_free (hmade space rfl).2 hfree] at htables
    simp only [Prod.mk.injEq, true_and] at htables
    obtain ⟨rfl, rfl⟩ := htables
    refine ⟨{ space with port := portId.setWidth 32, messageQueue := emptyQueue }, hint, ?_, ?_⟩
    · rw [← hports]
      exact hports₂
    · rintro rfl
      exact List.mem_append_right _ (List.mem_singleton_self _)

end Creations

/-- **Ports are compared at full width exactly below `2 ^ 31`**, in sends, and in creations too as
soon as there is a capability to build a process from. -/
theorem fullWidth_iff (toPort portId : BitVec 64) (capabilities : List Capability) :
    SendsFullWidth toPort ∧ CreatesFullWidth capabilities portId
      ↔ toPort.toNat < 2 ^ 31 ∧ (Allocatable capabilities → portId.toNat < 2 ^ 31) := by
  rw [sendsFullWidth_iff, createsFullWidth_iff]

/-- **What is sent to port `2 ^ 32 + 5` goes to the process of port `5`.** -/
theorem not_sendsFullWidth_wide : ¬ SendsFullWidth 0x100000005#64 :=
  fun h => absurd (sendsFullWidth_iff.mp h) (by decide)

end MoonOS
