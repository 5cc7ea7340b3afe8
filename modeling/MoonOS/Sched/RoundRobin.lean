import MoonOS.Lib.GrowingRing
import MoonOS.Sched.Scheduler

/-!
# Sched/RoundRobin — fair turns, and registers that come back

Without removals a process keeps its slot for good, so a slot *is* a process, and the list is a ring
that only grows (`Lib/GrowingRing`): `sched_enqueue` adds a place, `sched_reschedule` advances the
pointer.

* `runTurns_ring` — the slots a run selects are the places the ring's pointer visits, so turns
  are fair by `count_visits`;
* `getElem?_runTurns` — after any run, every slot holds the process enqueued there, with the
  registers of its last `lastDeselected`.
-/

namespace MoonOS

open GrowingRing

/-- A call on a scheduler that removes nothing. -/
inductive Turn
  | enqueue (es : ExecutionSpace) (pushed : Bool)
  | reschedule (regs : ArchTaskRegisters)

/-- The state after a call. -/
def Turn.apply : Turn → Sched → Sched
  | enqueue es pushed, s => schedEnqueue es pushed s
  | reschedule regs, s => ((schedReschedule regs s).map Prod.snd).getD s

/-- The state after a run. -/
def runTurns (turns : List Turn) (s : Sched) : Sched := turns.foldl (fun s turn => turn.apply s) s

/-- The slots a run selects. -/
def selections : List Turn → Sched → List ℕ
  | [], _ => []
  | turn@(.enqueue _ _) :: turns, s => selections turns (turn.apply s)
  | turn@(.reschedule _) :: turns, s =>
    (turn.apply s).currentPidIndex :: selections turns (turn.apply s)

/-- The processes a run adds. -/
def enqueued : List Turn → List ExecutionSpace
  | [] => []
  | .enqueue es pushed :: turns => if pushed then es :: enqueued turns else enqueued turns
  | .reschedule _ :: turns => enqueued turns

/-- The registers of the `sched_reschedule` that last took a slot off the processor. -/
def lastDeselected (l : ℕ) : List Turn → Sched → Option ArchTaskRegisters
  | [], _ => none
  | turn :: turns, s =>
    (lastDeselected l turns (turn.apply s)).or
      (match turn with
        | .enqueue _ _ => none
        | .reschedule regs => if s.currentPidIndex = l then some regs else none)

/-- What a run does to the ring of slots. -/
def ringEvents : List Turn → List Event
  | [] => []
  | .enqueue _ pushed :: turns => if pushed then .grow :: ringEvents turns else ringEvents turns
  | .reschedule _ :: turns => .advance :: ringEvents turns

section Turns

variable {s : Sched}

/-- What a reschedule does to the list and the index. -/
theorem apply_reschedule (hs : s.currentPidIndex < s.processes.length) (regs : ArchTaskRegisters) :
    ((Turn.reschedule regs).apply s).processes
        = s.processes.set s.currentPidIndex ((s.get s.currentPidIndex).save regs)
      ∧ ((Turn.reschedule regs).apply s).currentPidIndex
        = (s.currentPidIndex + 1) % s.processes.length := by
  obtain ⟨es, s', heq, hproc, hidx, -⟩ := schedReschedule_spec (Nat.zero_lt_of_lt hs) regs
  simp only [Turn.apply, heq, Option.map_some, Option.getD_some]
  exact ⟨hproc, hidx⟩

/-- No call takes the index out of range. -/
theorem Turn.inRange_apply (hs : s.currentPidIndex < s.processes.length) (turn : Turn) :
    (turn.apply s).currentPidIndex < (turn.apply s).processes.length := by
  cases turn with
  | enqueue es pushed =>
    cases pushed with
    | false => exact hs
    | true => simpa [Turn.apply, schedEnqueue] using Nat.lt_succ_of_lt hs
  | reschedule regs =>
    obtain ⟨hproc, hidx⟩ := apply_reschedule hs regs
    rw [hproc, hidx, List.length_set]
    exact Nat.mod_lt _ (by omega)

theorem inRange_runTurns (turns : List Turn) (hs : s.currentPidIndex < s.processes.length) :
    (runTurns turns s).currentPidIndex < (runTurns turns s).processes.length := by
  induction turns generalizing s with
  | nil => exact hs
  | cons turn turns ih => exact ih (turn.inRange_apply hs)

/-! ## Turns -/

/-- **A run of calls is a run of the ring.** -/
theorem runTurns_ring (turns : List Turn) (hs : s.currentPidIndex < s.processes.length) :
    ((runTurns turns s).processes.length, (runTurns turns s).currentPidIndex)
        = after (ringEvents turns) s.processes.length s.currentPidIndex
      ∧ selections turns s
        = visits (ringEvents turns) s.processes.length s.currentPidIndex := by
  induction turns generalizing s with
  | nil => exact ⟨rfl, rfl⟩
  | cons turn turns ih =>
    have hstep := ih (turn.inRange_apply hs)
    cases turn with
    | enqueue es pushed =>
      cases pushed with
      | false => exact hstep
      | true =>
        have hlen : ((Turn.enqueue es true).apply s).processes.length = s.processes.length + 1 :=
          List.length_append
        rw [hlen] at hstep
        exact hstep
    | reschedule regs =>
      obtain ⟨hproc, hidx⟩ := apply_reschedule hs regs
      rw [hidx, hproc, List.length_set] at hstep
      exact ⟨hstep.1, by rw [selections, hidx, hstep.2]; rfl⟩

/-! ## Registers -/

/-- **Every slot holds the process enqueued there, with the registers it was last taken off the
processor with.** -/
theorem getElem?_runTurns (turns : List Turn) (hs : s.currentPidIndex < s.processes.length)
    (l : ℕ) :
    (runTurns turns s).processes[l]?
      = ((s.processes ++ enqueued turns)[l]?).map fun p =>
          p.save ((lastDeselected l turns s).getD p.ec.registers) := by
  induction turns generalizing s with
  | nil => simp [runTurns, enqueued, lastDeselected]
  | cons turn turns ih =>
    refine (ih (turn.inRange_apply hs)).trans ?_
    cases turn with
    | enqueue es pushed =>
      cases pushed with
      | false => simp [Turn.apply, schedEnqueue, enqueued, lastDeselected]
      | true => simp [Turn.apply, schedEnqueue, enqueued, lastDeselected]
    | reschedule regs =>
      obtain ⟨hproc, -⟩ := apply_reschedule hs regs
      rw [hproc, lastDeselected, enqueued, ← List.set_append_left _ _ hs, List.getElem?_set]
      by_cases hl : s.currentPidIndex = l
      · subst hl
        rw [if_pos rfl, if_pos (by rw [List.length_append]; omega),
          List.getElem?_append_left hs, Sched.getElem?_of_lt hs]
        cases lastDeselected s.currentPidIndex turns _ <;> simp
      · simp [hl]

theorem runTurns_append (turns turns' : List Turn) (s : Sched) :
    runTurns (turns ++ turns') s = runTurns turns' (runTurns turns s) := List.foldl_append ..

/-- A reschedule at the end of a run adds no process. -/
theorem enqueued_reschedule (turns : List Turn) (regs : ArchTaskRegisters) :
    enqueued (turns ++ [.reschedule regs]) = enqueued turns := by
  induction turns with
  | nil => rfl
  | cons turn turns ih => cases turn <;> simp [enqueued, ih]

/-- **Between two selections of a process every other one that was there is selected once, and a
process comes back with the registers it was last taken off the processor with**, or with those it
was enqueued with. -/
theorem roundRobin (hs : s.currentPidIndex < s.processes.length) :
    (∀ (before between : List Turn) (regs : ArchTaskRegisters) (l : ℕ),
      (runTurns before s).currentPidIndex ∉ selections between (runTurns before s) →
      (runTurns (between ++ [.reschedule regs]) (runTurns before s)).currentPidIndex
        = (runTurns before s).currentPidIndex →
      l < (runTurns before s).processes.length → l ≠ (runTurns before s).currentPidIndex →
      (selections between (runTurns before s)).count l = 1)
    ∧ ∀ (turns : List Turn) (regs : ArchTaskRegisters), ∃ es s' p,
        schedReschedule regs (runTurns turns s) = some (es, s')
        ∧ (s.processes ++ enqueued turns)[s'.currentPidIndex]? = some p
        ∧ es = p.save ((lastDeselected s'.currentPidIndex (turns ++ [.reschedule regs]) s).getD
            p.ec.registers) := by
  constructor
  · intro before between regs l hne hback hl hlk
    have hs₁ := inRange_runTurns before hs
    obtain ⟨hafter, hvisits⟩ := runTurns_ring between hs₁
    rw [hvisits] at hne ⊢
    rw [runTurns_append] at hback
    have hlast := (apply_reschedule (inRange_runTurns between hs₁) regs).2
    refine count_visits hs₁ hne ?_ hl hlk
    rw [← hafter]
    exact hlast.symm.trans hback
  · intro turns regs
    have hs₁ := inRange_runTurns turns hs
    obtain ⟨es, s', heq, -, -, -, hsel⟩ := schedReschedule_spec (Nat.zero_lt_of_lt hs₁) regs
    have hlast : runTurns (turns ++ [.reschedule regs]) s = s' := by
      rw [runTurns_append]
      change ((schedReschedule regs (runTurns turns s)).map Prod.snd).getD _ = s'
      rw [heq]
      rfl
    have hslot := getElem?_runTurns (turns ++ [.reschedule regs]) hs s'.currentPidIndex
    rw [hlast, hsel, enqueued_reschedule, eq_comm, Option.map_eq_some_iff] at hslot
    obtain ⟨p, hp, hes⟩ := hslot
    exact ⟨es, s', p, heq, hp, hes.symm⟩

end Turns

/-- Three processes, the first running: it runs again after one turn of each of the others, with the
registers it was taken off the processor with. -/
theorem roundRobin_three :
    (selections [.reschedule default, .reschedule default] (freshProcesses 3)).count 1 = 1
      ∧ ∃ es s' p,
        schedReschedule default
          (runTurns [.reschedule { (default : ArchTaskRegisters) with ip := 7 },
          .reschedule default] (freshProcesses 3)) = some (es, s')
        ∧ (freshProcesses 3).processes[s'.currentPidIndex]? = some p
        ∧ es = p.save ((lastDeselected s'.currentPidIndex
            [.reschedule { (default : ArchTaskRegisters) with ip := 7 }, .reschedule default,
              .reschedule default] (freshProcesses 3)).getD p.ec.registers) :=
  have hs : (freshProcesses 3).currentPidIndex < (freshProcesses 3).processes.length := by decide
  ⟨(roundRobin hs).1 [] [.reschedule default, .reschedule default] default 1 (by decide) (by decide)
      (by decide) (by decide),
    (roundRobin hs).2 [.reschedule { (default : ArchTaskRegisters) with ip := 7 },
      .reschedule default] default⟩

end MoonOS
