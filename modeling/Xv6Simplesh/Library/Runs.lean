import Mathlib.Tactic.Common

/-! # Runs of an event-driven system

A system has initial states and answers each event with its next state, or with
`none` where the event cannot happen.  `Reachable` collects the states of all
finite runs whose events a given predicate admits; `Reachable.invariant` is the
induction over such runs and `reachable_of_run` replays a concrete one.
-/

namespace Xv6Simplesh.Library

structure System (State Event : Type) where
  initial : State → Prop
  step : State → Event → Option State

namespace System

variable {State Event : Type} (system : System State Event)

/-- The states that finite runs reach when every event taken is `allowed`. -/
inductive Reachable (allowed : State → Event → Prop) : State → Prop where
  | initial {state : State} (start : system.initial state) : Reachable allowed state
  | step {state next : State} (event : Event) (before : Reachable allowed state)
      (may : allowed state event) (taken : system.step state event = some next) :
      Reachable allowed next

variable {system} {allowed : State → Event → Prop}
  {state : State} {events : List Event} {admits : State → Event → Bool}

/-- A property of the initial states that every allowed event keeps holds in all
reachable states; the step may use that its source is reachable. -/
theorem Reachable.invariant (reach : system.Reachable allowed state) (property : State → Prop)
    (start : ∀ state, system.initial state → property state)
    (kept : ∀ state event next, system.Reachable allowed state → property state →
      allowed state event → system.step state event = some next → property next) :
    property state := by
  induction reach with
  | initial first => exact start _ first
  | step event before may taken ih => exact kept _ event _ before ih may taken

theorem Reachable.mono {wider : State → Event → Prop} (reach : system.Reachable allowed state)
    (weaker : ∀ state event, allowed state event → wider state event) : system.Reachable wider state := by
  induction reach with
  | initial first => exact .initial first
  | step event _ may taken ih => exact .step event ih (weaker _ _ may) taken

/-- Take the events of a list in turn, checking each against `admits`. -/
def run (system : System State Event) (admits : State → Event → Bool) : State → List Event → Option State
  | state, [] => some state
  | state, event :: events =>
    if admits state event then (system.step state event).bind fun next => run system admits next events
    else none

theorem reachable_of_run
    (sound : ∀ state event, admits state event = true → allowed state event) {final : State} (reach : system.Reachable allowed state)
    (ran : system.run admits state events = some final) : system.Reachable allowed final := by
  induction events generalizing state with
  | nil =>
    cases ran
    exact reach
  | cons event events ih =>
    simp only [run] at ran
    split at ran
    · next admitted =>
      obtain ⟨next, taken, rest⟩ := Option.bind_eq_some_iff.mp ran
      exact ih (.step event reach (sound _ _ admitted) taken) rest
    · cases ran

/-! ## Runs given by their events -/

/-- The property holds in the state and after each of the events; an event that cannot happen ends
the run. -/
def Always (system : System State Event) (property : State → Prop) : State → List Event → Prop
  | state, [] => property state
  | state, event :: events =>
    property state ∧ ∀ next, system.step state event = some next → Always system property next events

/-- Each of the events that happen is `allowed` in the state that it happens in. -/
def Throughout (system : System State Event) (allowed : State → Event → Prop) : State → List Event → Prop
  | _, [] => True
  | state, event :: events =>
    ∀ next, system.step state event = some next → allowed state event ∧ Throughout system allowed next events

theorem throughout_true (system : System State Event) (state : State) (events : List Event) :
    system.Throughout (fun _ _ => True) state events := by
  induction events generalizing state with
  | nil => trivial
  | cons event events ih => exact fun next _ => ⟨trivial, ih next⟩

theorem throughout_of_run (sound : ∀ state event, admits state event = true → allowed state event)
    (ran : (system.run admits state events).isSome) : system.Throughout allowed state events := by
  induction events generalizing state with
  | nil => trivial
  | cons event events ih =>
    intro next taken
    simp only [run, taken, Option.bind_some] at ran
    split at ran
    next admitted => exact ⟨sound _ _ admitted, ih ran⟩
    · cases ran

/-- If, as long as an invariant holds, exactly the allowed ones among the events within `limits` keep the
property and these keep the invariant too, then the property holds all the time in the runs of allowed
events only. -/
theorem always_iff_throughout {property : State → Prop} {limits : State → Event → Prop} (invariant : State → Prop)
    (sound : ∀ state, invariant state → property state)
    (kept : ∀ state event next, invariant state → limits state event → system.step state event = some next →
      (property next → allowed state event) ∧ (allowed state event → invariant next)) (start : invariant state) (limited : system.Throughout limits state events) :
    system.Always property state events ↔ system.Throughout allowed state events := by
  induction events generalizing state with
  | nil => exact iff_of_true (sound state start) trivial
  | cons event events ih =>
    constructor
    · rintro ⟨-, after⟩ next taken
      have always := after next taken
      have now : property next := by
        cases events with
        | nil => exact always
        | cons => exact always.1
      obtain ⟨limit, limited⟩ := limited next taken
      have may := (kept state event next start limit taken).1 now
      exact ⟨may, (ih ((kept state event next start limit taken).2 may) limited).mp always⟩
    · intro throughout
      refine ⟨sound state start, fun next taken => ?_⟩
      obtain ⟨limit, limited⟩ := limited next taken
      obtain ⟨may, rest⟩ := throughout next taken
      exact (ih ((kept state event next start limit taken).2 may) limited).mpr rest

theorem Always.of_run {property : State → Prop} {final : State} (always : system.Always property state events)
    (ran : system.run admits state events = some final) : property final := by
  induction events generalizing state with
  | nil =>
    cases ran
    exact always
  | cons event events ih =>
    simp only [run] at ran
    split at ran
    · obtain ⟨next, taken, rest⟩ := Option.bind_eq_some_iff.mp ran
      exact ih (always.2 next taken) rest
    · cases ran

end System

end Xv6Simplesh.Library
