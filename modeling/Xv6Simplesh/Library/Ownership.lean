import Mathlib.Tactic.Common

/-! # Exclusive ownership

Slots hold resources: pointers hold blocks, table entries hold pages.  A table of
holders is a partial function from slots to resources, and ownership is exclusive
if no resource is in two slots.  The rules say what becomes of exclusive ownership
when a slot takes a resource that no other slot holds and when a set of slots lets go
of theirs.
-/

namespace Xv6Simplesh.Library

open Function

variable {Slot Resource : Type*} {holder : Slot → Option Resource}

/-- Two slots never hold the same resource. -/
def Exclusive (holder : Slot → Option Resource) : Prop :=
  ∀ ⦃first snd : Slot⦄ ⦃resource : Resource⦄,
    holder first = some resource → holder snd = some resource → first = snd

/-- Some slot holds the resource. -/
def Held (holder : Slot → Option Resource) (resource : Resource) : Prop :=
  ∃ slot, holder slot = some resource

/-! ## Taking -/

section Take

variable [DecidableEq Slot]

theorem Exclusive.set (exclusive : Exclusive holder) {slot : Slot} {taken : Option Resource}
    (alone : ∀ other resource, other ≠ slot → taken = some resource → holder other ≠ some resource) :
    Exclusive (update holder slot taken) := by
  have other : ∀ {first snd : Slot} {held : Resource}, first ≠ slot →
      update holder slot taken first = some held →
      update holder slot taken snd = some held → first = snd := by
    intro first snd held ne holds holds'
    rw [update_of_ne ne] at holds
    by_cases same : snd = slot
    · rw [same, update_self] at holds'
      exact absurd holds (alone first held ne holds')
    · rw [update_of_ne same] at holds'
      exact exclusive holds holds'
  intro first snd held holds holds'
  by_cases same : first = slot
  · by_cases same' : snd = slot
    · rw [same, same']
    · exact (other same' holds' holds).symm
  · exact other same holds holds'

theorem held_update {slot : Slot} {taken : Option Resource} {resource : Resource}
    (held : Held (update holder slot taken) resource) :
    taken = some resource ∨ ∃ other, other ≠ slot ∧ holder other = some resource := by
  obtain ⟨other, holds⟩ := held
  by_cases same : other = slot
  · rw [same, update_self] at holds
    exact .inl holds
  · rw [update_of_ne same] at holds
    exact .inr ⟨other, same, holds⟩

theorem Exclusive.take (exclusive : Exclusive holder) {resource : Resource}
    (unheld : ¬ Held holder resource) (slot : Slot) : Exclusive (update holder slot (some resource)) := by
  refine exclusive.set fun other taken _ same holds => unheld ⟨other, ?_⟩
  rw [holds, same]

theorem held_take {slot : Slot} (empty : holder slot = none) (taken resource : Resource) :
    Held (update holder slot (some taken)) resource ↔ resource = taken ∨ Held holder resource := by
  constructor
  · rintro ⟨other, holds⟩
    by_cases same : other = slot
    · rw [same, update_self] at holds
      exact .inl (Option.some.inj holds).symm
    · rw [update_of_ne same] at holds
      exact .inr ⟨other, holds⟩
  · rintro (rfl | ⟨other, holds⟩)
    · exact ⟨slot, update_self ..⟩
    · refine ⟨other, ?_⟩
      rw [update_of_ne]
      · exact holds
      · rintro rfl
        rw [empty] at holds
        cases holds

end Take

/-! ## Releasing -/

section Release

variable {released : Slot → Prop} [DecidablePred released]

theorem Exclusive.release (exclusive : Exclusive holder) :
    Exclusive (fun slot => if released slot then none else holder slot) := by
  intro first snd resource holds holds'
  dsimp only at holds holds'
  split at holds
  · cases holds
  · split at holds'
    · cases holds'
    · exact exclusive holds holds'

theorem held_release (exclusive : Exclusive holder) (resource : Resource) :
    Held (fun slot => if released slot then none else holder slot) resource ↔
      Held holder resource ∧ ∀ slot, released slot → holder slot ≠ some resource := by
  constructor
  · rintro ⟨slot, holds⟩
    dsimp only at holds
    split at holds
    · cases holds
    next kept =>
      refine ⟨⟨slot, holds⟩, fun other gone holds' => kept ?_⟩
      rw [exclusive holds holds']
      exact gone
  · rintro ⟨⟨slot, holds⟩, others⟩
    refine ⟨slot, ?_⟩
    dsimp only
    rw [if_neg fun gone => others slot gone holds]
    exact holds

end Release

end Xv6Simplesh.Library
