import MoonOS.Service.ExecutionSpace

/-!
# Service/Start — the two ways a process is started

`sched_begin_work` enters the first process through `arch_enter_userspace`, which puts `argc` and
`argv` on its stack.  Every other process is loaded by `timer_irq` out of the registers `create_ec`
prepared, with the stack pointer 2048 bytes below the top of the stack.  Either way `_start` of
`crt0` reads two words where the stack pointer is; memory is the process's own view of it.

* `startsAlike_iff` — a process finds the same on both ways exactly when its stack happens to hold
  `argc` and `argv` 2048 bytes below its top.
-/

namespace MoonOS

open ByteMemory

/-! ## The two ways -/

/-- A process about to run in user mode, and the memory it sees. -/
structure UserEntry where
  rip : BitVec 64
  rsp : BitVec 64
  user : Mem

/-- `arch_enter_userspace`.  The caller loads `argc` into `edx`, which clears the upper half of
`rdx`. -/
def archEnterUserspace (addr stack : BitVec 64) (argc : BitVec 32) (argv : BitVec 64)
    (user : Mem) : UserEntry :=
  let rsp := stack - 16#64
  { rip := addr
    rsp
    user := store (store user rsp 8 (argc.setWidth 64)) (at' rsp 8) 8 argv }

/-- `sched_begin_work`; without a process it is a panic. -/
def schedBeginWork (s : Sched) (user : Mem) : Option UserEntry :=
  if s.processes.length = 0 then none
  else
    let es := s.get 0
    some (archEnterUserspace es.ec.entry es.stackPointer es.argc es.argv user)

/-- The registers of `struct iframe` that `timer_irq` reads and writes. -/
structure Iframe where
  gpr : GeneralRegisters
  rip : BitVec 64
  rsp : BitVec 64
deriving DecidableEq, Inhabited

/-- What `timer_irq` saves. -/
def Iframe.regs (frame : Iframe) : ArchTaskRegisters where
  registers := frame.gpr
  ip := frame.rip
  rsp := frame.rsp

/-- `timer_irq`; it unwraps what `sched_reschedule` answers. -/
def timerIrq (frame : Iframe) (s : Sched) : Option (Iframe × Sched) :=
  (schedReschedule frame.regs s).map fun (newSpace, s) =>
    ({ gpr := newSpace.ec.registers.registers
       rip := newSpace.ec.registers.ip
       rsp := newSpace.ec.registers.rsp }, s)

/-- What `_start` of `crt0` finds: where it is, and the two words on its stack. -/
structure StartState where
  rip : BitVec 64
  argc : BitVec 64
  argv : BitVec 64
deriving DecidableEq, Repr

/-- The start of a process that is entered. -/
def UserEntry.start (e : UserEntry) : StartState where
  rip := e.rip
  argc := load e.user e.rsp 8
  argv := load e.user (at' e.rsp 8) 8

/-- **The two ways agree**: the process starts the same, entered as the first of the table or
selected out of any other place. -/
def StartsAlike (es : ExecutionSpace) (user : Mem) : Prop :=
  ∀ s₀ e, schedBeginWork s₀ user = some e → s₀.get 0 = es →
    ∀ frame s frame' s', timerIrq frame s = some (frame', s') →
      schedReschedule frame.regs s = some (es, s') →
      e.start = UserEntry.start ⟨frame'.rip, frame'.rsp, user⟩

/-! ## When they do -/

section Start

variable {es : ExecutionSpace} {user : Mem}

/-- **Entered, a process finds its arguments.** -/
theorem start_archEnterUserspace (addr stack : BitVec 64) (argc : BitVec 32) (argv : BitVec 64)
    (user : Mem) :
    (archEnterUserspace addr stack argc argv user).start = ⟨addr, argc.setWidth 64, argv⟩ := by
  have hargc : load (store (store user (stack - 16#64) 8 (argc.setWidth 64))
      (at' (stack - 16#64) 8) 8 argv) (stack - 16#64) 8 = argc.setWidth 64 := by
    have hapart := load_store_at' (m := store user (stack - 16#64) 8 (argc.setWidth 64))
      (stack - 16#64) (p := 8) (q := 0) (n := 8) (k := 8) (by omega) (by omega) (by omega) argv
    rw [at'_zero] at hapart
    exact hapart.trans (load_store_same user _ (by omega) _)
  rw [UserEntry.start, archEnterUserspace]
  dsimp only
  rw [hargc, load_store_same _ _ (by omega)]

/-- **Selected, it finds what its saved registers point to.** -/
theorem start_timerIrq {frame frame' : Iframe} {s s' : Sched}
    (hirq : timerIrq frame s = some (frame', s'))
    (hnext : schedReschedule frame.regs s = some (es, s')) :
    UserEntry.start ⟨frame'.rip, frame'.rsp, user⟩
      = ⟨es.ec.registers.ip, load user es.ec.registers.rsp 8,
          load user (at' es.ec.registers.rsp 8) 8⟩ := by
  rw [timerIrq, hnext, Option.map_some] at hirq
  obtain ⟨rfl, -⟩ := Prod.mk.inj (Option.some.inj hirq)
  rfl

/-- There is a table in which a process is the first, and one in which it is the next. -/
theorem exists_started (es : ExecutionSpace) (user : Mem) :
    schedBeginWork ⟨[es], fun _ => es, 0, 1⟩ user
        = some (archEnterUserspace es.ec.entry es.stackPointer es.argc es.argv user)
      ∧ ∃ s', schedReschedule (default : Iframe).regs ⟨[es, es], fun _ => es, 0, 2⟩
        = some (es, s') :=
  ⟨rfl, _, rfl⟩

/-- The two ways, said of the process alone. -/
theorem startsAlike_iff_registers : StartsAlike es user
    ↔ es.ec.entry = es.ec.registers.ip ∧ es.argc.setWidth 64 = load user es.ec.registers.rsp 8
      ∧ es.argv = load user (at' es.ec.registers.rsp 8) 8 := by
  have hstart : StartsAlike es user
      ↔ (⟨es.ec.entry, es.argc.setWidth 64, es.argv⟩ : StartState)
        = ⟨es.ec.registers.ip, load user es.ec.registers.rsp 8,
            load user (at' es.ec.registers.rsp 8) 8⟩ := by
    constructor
    · intro h
      obtain ⟨hbegin, s', hnext⟩ := exists_started es user
      obtain ⟨frame', hirq⟩ : ∃ frame',
          timerIrq default ⟨[es, es], fun _ => es, 0, 2⟩ = some (frame', s') := by
        rw [timerIrq, hnext]
        exact ⟨_, rfl⟩
      have heq := h _ _ hbegin rfl _ _ _ _ hirq hnext
      rwa [start_archEnterUserspace, start_timerIrq hirq hnext] at heq
    · rintro heq s₀ e hbegin rfl frame s frame' s' hirq hnext
      rw [start_timerIrq hirq hnext, ← heq]
      rw [schedBeginWork] at hbegin
      split at hbegin
      · cases hbegin
      · obtain rfl := Option.some.inj hbegin
        exact start_archEnterUserspace ..
  rw [hstart, StartState.mk.injEq]

/-- **A process that `create_execution_space` made starts alike on both ways exactly when** the two
words 2048 bytes below the top of its stack are its `argc` and its `argv`. -/
theorem startsAlike_iff {hhdm kernelPagemap : BitVec 64} {image : Mem}
    {argv : List (List (BitVec 8))} {capabilities : List Capability} {w w' : Machine}
    (hrun : createExecutionSpace hhdm kernelPagemap image argv capabilities w = some (.ok es, w'))
    (user : Mem) :
    StartsAlike es user
      ↔ load user (es.stackPointer - 2048#64) 8 = es.argc.setWidth 64
        ∧ load user (es.stackPointer - 2040#64) 8 = es.argv := by
  obtain ⟨c⟩ := creation_of_createExecutionSpace hrun
  have hentry : es.ec.entry = es.ec.registers.ip := by
    rw [c.space]
    rfl
  have hrsp : es.ec.registers.rsp = es.stackPointer - 2048#64 := by
    rw [c.space]
    rfl
  have hsecond : at' (es.stackPointer - 2048#64) 8 = es.stackPointer - 2040#64 := by
    rw [at']
    bv_omega
  rw [startsAlike_iff_registers, hrsp, hsecond, and_iff_right hentry]
  exact and_congr eq_comm eq_comm

end Start

/-- A process without arguments is made. -/
theorem created_onePageElf : ∃ es w', createExecutionSpace 0xffff800000000000#64
    0xffff800000001000#64 (onePageElf 0x400000#64) [] [poolCap 1#64] twoPools = some (.ok es, w')
      ∧ es.argc = 0#32 ∧ es.argv = 0#64 := by
  have haccept : Accepted (onePageElf 0x400000#64) := ⟨by decide +kernel, by decide +kernel⟩
  obtain ⟨es', w', hrun, -⟩ := spawn_twoPools haccept (by decide +kernel)
  obtain ⟨es, w₁, hcreate, -⟩ := created_of_spawn hrun
  obtain ⟨c⟩ := creation_of_createExecutionSpace hcreate
  have hargs : c.argvPtr = 0#64 :=
    (Except.ok.inj (Prod.mk.inj (Option.some.inj c.args)).1).symm
  refine ⟨es, w₁, hcreate, ?_, ?_⟩
  · rw [c.space]
    rfl
  · rw [c.space]
    exact hargs

/-- Where all bytes are the same, so are the words. -/
theorem load_const (b : BitVec 8) (a : BitVec 64) :
    load (fun _ => b) a 8 = load (fun _ => b) 0#64 8 := by
  simp only [load]

/-- With zeros on its stack it starts alike on both ways. -/
theorem startsAlike_onePageElf : ∃ es w', createExecutionSpace 0xffff800000000000#64
    0xffff800000001000#64 (onePageElf 0x400000#64) [] [poolCap 1#64] twoPools = some (.ok es, w')
      ∧ StartsAlike es fun _ => 0#8 := by
  obtain ⟨es, w', hrun, hargc, hargv⟩ := created_onePageElf
  refine ⟨es, w', hrun, (startsAlike_iff hrun _).mpr ⟨?_, ?_⟩⟩
  · rw [hargc, load_const]
    decide
  · rw [hargv, load_const]
    decide

/-- With anything else there it does not: nobody writes `argc` and `argv` for a process that is
selected. -/
theorem not_startsAlike_onePageElf : ∃ es w', createExecutionSpace 0xffff800000000000#64
    0xffff800000001000#64 (onePageElf 0x400000#64) [] [poolCap 1#64] twoPools = some (.ok es, w')
      ∧ ¬ StartsAlike es fun _ => 0xff#8 := by
  obtain ⟨es, w', hrun, hargc, -⟩ := created_onePageElf
  refine ⟨es, w', hrun, fun halike => ?_⟩
  have hword := (startsAlike_iff_registers.mp halike).2.1
  rw [hargc, load_const] at hword
  exact absurd hword (by decide)

end MoonOS
