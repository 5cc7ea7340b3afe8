import Mathlib.Tactic

/-!
# Lib/GuardedRun — runs of a partial step function

A machine takes an event and moves to a new state, or stops.  The rules about its runs:

* `invariant` — what one event keeps, a run keeps, and `invariant_along` with the run so far;
  `always_of_guarded` for the events that meet a guard;
* `always_iff_guarded` — where one event keeps a property exactly when it meets a guard, the
  property holds in every state of a run exactly when every event of the run meets its guard.

A machine that does not stop while the property holds goes through the whole run,
`always_iff_take`; one that stops does so at an event, `stops_at`.  For a property that is never
regained the end of a run tells, `last_iff_guarded`.
-/

namespace GuardedRun

variable {S E : Type*} (step : S → E → Option S)

/-- A property of every state of a run. -/
def Always (P : S → Prop) : List E → S → Prop
  | [], s => P s
  | e :: es, s => P s ∧ ∀ s', step s e = some s' → Always P es s'

/-- Every event of a run that does not stop the machine meets its guard. -/
def Guarded (G : S → E → Prop) : List E → S → Prop
  | [], _ => True
  | e :: es, s => ∀ s', step s e = some s' → G s e ∧ Guarded G es s'

variable {step} {P I : S → Prop} {G : S → E → Prop} {s s' : S} {e : E} {es : List E}

theorem Always.now (h : Always step P es s) : P s := by
  cases es with
  | nil => exact h
  | cons => exact h.1

theorem Always.mono {Q : S → Prop} (h : Always step P es s) (hPQ : ∀ s, P s → Q s) :
    Always step Q es s := by
  induction es generalizing s with
  | nil => exact hPQ s h
  | cons e es ih => exact ⟨hPQ s h.1, fun s' hs' => ih (h.2 s' hs')⟩

theorem Guarded.cons (h : step s e = some s') (hg : G s e) (hes : Guarded step G es s') :
    Guarded step G (e :: es) s := by
  intro s₁ h₁
  obtain rfl := Option.some.inj (h.symm.trans h₁)
  exact ⟨hg, hes⟩

/-- **What one event keeps, a run keeps.** -/
theorem invariant (hstep : ∀ s e s', I s → step s e = some s' → I s')
    (h : es.foldlM step s = some s') (hs : I s) : I s' := by
  induction es generalizing s with
  | nil =>
    obtain rfl := Option.some.inj h
    exact hs
  | cons e es ih =>
    rw [List.foldlM_cons] at h
    obtain ⟨s₁, h₁, hes⟩ := Option.bind_eq_some_iff.mp h
    exact ih hes (hstep s e s₁ hs h₁)

/-- **…and so with what the run has been so far.** -/
theorem invariant_along {J : List E → S → Prop}
    (hstep : ∀ before s₁ e s₂, before.foldlM step s = some s₁ → J before s₁ →
      step s₁ e = some s₂ → J (before ++ [e]) s₂)
    (h : es.foldlM step s = some s') (hs : J [] s) : J es s' := by
  induction es using List.reverseRecOn generalizing s' with
  | nil =>
    obtain rfl := Option.some.inj h
    exact hs
  | append_singleton before e ih =>
    rw [List.foldlM_append] at h
    obtain ⟨s₁, hbefore, h⟩ := Option.bind_eq_some_iff.mp h
    rw [List.foldlM_cons] at h
    obtain ⟨s₂, h₂, h⟩ := Option.bind_eq_some_iff.mp h
    obtain rfl := Option.some.inj h
    exact hstep before s₁ e s₂ hbefore (ih hbefore) h₂

/-- **A property that one event keeps exactly when the event meets its guard** holds all along a run
exactly when all its events meet theirs — of a run whose events are as assumed. -/
theorem always_iff_guarded_of_guarded {A : S → E → Prop}
    (hstep : ∀ s e s', I s → P s → A s e → step s e = some s' → I s' ∧ (P s' ↔ G s e))
    (hinv : I s) (hs : P s) (hassumed : Guarded step A es s) :
    Always step P es s ↔ Guarded step G es s := by
  induction es generalizing s with
  | nil => exact iff_of_true hs trivial
  | cons e es ih =>
    rw [Always, Guarded, and_iff_right hs]
    refine forall₂_congr fun s' h => ?_
    obtain ⟨ha, hassumed'⟩ := hassumed s' h
    obtain ⟨hinv', hguard⟩ := hstep s e s' hinv hs ha h
    constructor
    · intro hrest
      exact ⟨hguard.mp hrest.now, (ih hinv' hrest.now hassumed').mp hrest⟩
    · rintro ⟨hg, hrest⟩
      exact (ih hinv' (hguard.mpr hg) hassumed').mpr hrest

theorem guarded_of_forall (h : ∀ e ∈ es, ∀ s, G s e) : Guarded step G es s := by
  induction es generalizing s with
  | nil => trivial
  | cons e es ih =>
    rw [List.forall_mem_cons] at h
    exact fun s' _ => ⟨h.1 s, ih h.2⟩

/-- …and of any run, where nothing is assumed. -/
theorem always_iff_guarded
    (hstep : ∀ s e s', I s → P s → step s e = some s' → I s' ∧ (P s' ↔ G s e))
    (hinv : I s) (hs : P s) : Always step P es s ↔ Guarded step G es s :=
  always_iff_guarded_of_guarded (fun s e s' hinv hs _ h => hstep s e s' hinv hs h) hinv hs
    (guarded_of_forall fun _ _ _ => trivial)

/-- **An invariant of the events that meet the guard** holds all along a run of such events. -/
theorem always_of_guarded (hP : ∀ s, I s → P s)
    (hstep : ∀ s e s', I s → G s e → step s e = some s' → I s') (hs : I s)
    (h : Guarded step G es s) : Always step P es s := by
  induction es generalizing s with
  | nil => exact hP s hs
  | cons e es ih =>
    refine ⟨hP s hs, fun s' hs' => ?_⟩
    obtain ⟨hg, hrest⟩ := h s' hs'
    exact ih (hstep s e s' hs hg hs') hrest

/-- What holds all along a run holds all along its end. -/
theorem Always.after {before : List E} (h : Always step P (before ++ es) s)
    (hrun : before.foldlM step s = some s') : Always step P es s' := by
  induction before generalizing s with
  | nil =>
    obtain rfl := Option.some.inj hrun
    exact h
  | cons e before ih =>
    rw [List.foldlM_cons] at hrun
    obtain ⟨s₁, h₁, hrest⟩ := Option.bind_eq_some_iff.mp hrun
    exact ih (h.2 s₁ h₁) hrest

/-- **A property that no event brings back** is there at the end of a run exactly when all events of
the run met their guards. -/
theorem last_iff_guarded
    (hstep : ∀ s e s', I s → step s e = some s' → I s' ∧ (P s' ↔ P s ∧ G s e))
    (hinv : I s) (h : es.foldlM step s = some s') : P s' ↔ P s ∧ Guarded step G es s := by
  induction es generalizing s with
  | nil =>
    obtain rfl := Option.some.inj h
    exact (and_iff_left trivial).symm
  | cons e es ih =>
    rw [List.foldlM_cons] at h
    obtain ⟨s₁, h₁, hes⟩ := Option.bind_eq_some_iff.mp h
    obtain ⟨hinv₁, hP₁⟩ := hstep s e s₁ hinv h₁
    rw [ih hinv₁ hes, hP₁, and_assoc]
    refine and_congr_right fun _ => ⟨fun ⟨hg, hrest⟩ => Guarded.cons h₁ hg hrest, fun hall => ?_⟩
    exact hall s₁ h₁

/-- A run that is cut anywhere has come there, and gone on. -/
theorem goes_through {before after : List E} (h : (before ++ e :: after).foldlM step s = some s') :
    ∃ s₁ s₂, before.foldlM step s = some s₁ ∧ step s₁ e = some s₂ := by
  rw [List.foldlM_append] at h
  obtain ⟨s₁, h₁, h⟩ := Option.bind_eq_some_iff.mp h
  rw [List.foldlM_cons] at h
  obtain ⟨s₂, h₂, -⟩ := Option.bind_eq_some_iff.mp h
  exact ⟨s₁, s₂, h₁, h₂⟩

/-- A run that stops does so at an event. -/
theorem stops_at (h : es.foldlM step s = none) :
    ∃ before e after s', es = before ++ e :: after ∧ before.foldlM step s = some s'
      ∧ step s' e = none := by
  induction es generalizing s with
  | nil => cases h
  | cons e es ih =>
    cases h₁ : step s e with
    | none => exact ⟨[], e, es, s, rfl, rfl, h₁⟩
    | some s₁ =>
      rw [List.foldlM_cons, h₁] at h
      obtain ⟨before, e', after, s', rfl, hbefore, hstop⟩ := ih h
      exact ⟨e :: before, e', after, s', rfl,
        by rw [List.foldlM_cons, h₁]; exact hbefore, hstop⟩

/-- **Where a machine with the property moves on any event**, the property holds all along a run
exactly when every beginning of the run ends in a state that has it. -/
theorem always_iff_take (hmove : ∀ s e, P s → ∃ s', step s e = some s') :
    Always step P es s ↔ ∀ n, ∃ s', (es.take n).foldlM step s = some s' ∧ P s' := by
  constructor
  · intro h n
    induction es generalizing s n with
    | nil => exact ⟨s, by simp, h⟩
    | cons e es ih =>
      cases n with
      | zero => exact ⟨s, rfl, h.1⟩
      | succ n =>
        obtain ⟨s₁, h₁⟩ := hmove s e h.1
        obtain ⟨s', hrun, hs'⟩ := ih (h.2 s₁ h₁) n
        exact ⟨s', by rw [List.take_succ_cons, List.foldlM_cons, h₁]; exact hrun, hs'⟩
  · intro h
    obtain ⟨s₀, h₀, hs₀⟩ := h 0
    obtain rfl := Option.some.inj h₀
    induction es generalizing s with
    | nil => exact hs₀
    | cons e es ih =>
      refine ⟨hs₀, fun s₁ h₁ => ?_⟩
      have hrest : ∀ n, ∃ s', (es.take n).foldlM step s₁ = some s' ∧ P s' := fun n => by
        obtain ⟨s', hrun, hs'⟩ := h (n + 1)
        rw [List.take_succ_cons, List.foldlM_cons, h₁] at hrun
        exact ⟨s', hrun, hs'⟩
      obtain ⟨s₂, h₂, hs₂⟩ := hrest 0
      obtain rfl := Option.some.inj h₂
      exact ih hrest rfl hs₂

end GuardedRun
