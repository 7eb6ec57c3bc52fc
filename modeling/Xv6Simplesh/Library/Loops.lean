import Mathlib.Tactic.Common

/-! # Loops that may fail

A counting loop whose body may stop with an error is a monadic fold over a range.
Its rule is the usual one: an invariant indexed by the number of iterations done,
established before the loop and carried over by every iteration, holds after it;
and if no iteration fails then neither does the loop.
-/

namespace Xv6Simplesh.Library

universe u

variable {Error State : Type*} {body : State → Nat → Except Error State}

theorem ok_bind {Value Result : Type u} (val : Value) (snd : Value → Except Error Result) :
    (Except.ok val >>= snd) = snd val := rfl

theorem ok_of_bind {Value Result : Type u} {first : Except Error Value} {snd : Value → Except Error Result}
    {res : Result} (ran : first >>= snd = .ok res) : ∃ val, first = .ok val ∧ snd val = .ok res := by
  cases first with
  | error error => cases ran
  | ok val => exact ⟨val, rfl, ran⟩

theorem foldlM_range'_invariant {first count : Nat} {start : State} (invariant : Nat → State → Prop)
    (initially : invariant first start)
    (step : ∀ i state, first ≤ i → i < first + count → invariant i state →
      ∃ next, body state i = .ok next ∧ invariant (i + 1) next) :
    ∃ final, (List.range' first count).foldlM body start = .ok final ∧ invariant (first + count) final := by
  induction count generalizing first start with
  | zero => exact ⟨start, rfl, initially⟩
  | succ count ih =>
    obtain ⟨next, stepped, holds⟩ := step first start (Nat.le_refl first) (by omega) initially
    obtain ⟨final, ran, holds⟩ := ih holds fun i state from' to' =>
      step i state (by omega) (by omega)
    refine ⟨final, ?_, ?_⟩
    · rw [List.range'_succ, List.foldlM_cons, stepped]
      exact ran
    · rwa [Nat.add_assoc, Nat.add_comm 1] at holds

theorem foldlM_range_invariant {count : Nat} {start : State} (invariant : Nat → State → Prop)
    (initially : invariant 0 start)
    (step : ∀ i state, i < count → invariant i state →
      ∃ next, body state i = .ok next ∧ invariant (i + 1) next) :
    ∃ final, (List.range count).foldlM body start = .ok final ∧ invariant count final := by
  obtain ⟨final, ran, holds⟩ : ∃ final, (List.range' 0 count).foldlM body start = .ok final ∧
      invariant (0 + count) final :=
    foldlM_range'_invariant invariant initially fun i state _ bound => step i state (by omega)
  rw [← List.range_eq_range'] at ran
  rw [Nat.zero_add] at holds
  exact ⟨final, ran, holds⟩

section

variable {Item : Type*} {body : State → Item → Except Error State} (property : State → Prop)

include property

theorem foldlM_invariant : ∀ {items : List Item} {start : State}, property start →
      (∀ state, ∀ item ∈ items, property state → ∃ next, body state item = .ok next ∧ property next) →
      ∃ final, items.foldlM body start = .ok final ∧ property final := by
  intro items
  induction items with
  | nil => exact fun holds _ => ⟨_, rfl, holds⟩
  | cons item items ih =>
    intro start holds step
    obtain ⟨next, stepped, holds⟩ := step start item (.head _) holds
    obtain ⟨final, ran, holds⟩ := ih holds fun state other mem =>
      step state other (List.mem_cons_of_mem item mem)
    refine ⟨final, ?_, holds⟩
    rw [List.foldlM_cons, stepped]
    exact ran

/-- What every iteration keeps, a loop over a list that does not fail keeps. -/
theorem foldlM_ok_invariant (step : ∀ state item next, property state → body state item = .ok next → property next) :
    ∀ {items : List Item} {start final : State}, property start → items.foldlM body start = .ok final →
      property final := by
  intro items
  induction items with
  | nil =>
    intro start final holds ran
    cases ran
    exact holds
  | cons item items ih =>
    intro start final holds ran
    rw [List.foldlM_cons] at ran
    obtain ⟨next, stepped, ran⟩ := ok_of_bind ran
    exact ih (step start item next holds stepped) ran

end

end Xv6Simplesh.Library
