import Mathlib.Algebra.Order.BigOperators.Group.Finset
import Mathlib.Data.Fintype.BigOperators

/-! # Counting the occupied slots of a table

A table of optional entries; `occupied n` counts the entries among the first `n` slots.
Storing an entry in an empty slot adds one, clearing a slot takes one away, and while
some slot is empty not all are counted.
-/

namespace Xv6Simplesh.Library

open Function

variable {Entry Entry' : Type*} {n : Nat}

def occupied (n : Nat) (table : Nat → Option Entry) : Nat :=
  ((Finset.range n).filter fun i => (table i).isSome).card

variable {table : Nat → Option Entry} {slot : Nat}

theorem occupied_congr {table' : Nat → Option Entry'}
    (same : ∀ i < n, (table i).isSome = (table' i).isSome) : occupied n table = occupied n table' := by
  unfold occupied
  congr 1
  refine Finset.filter_congr fun i mem => ?_
  rw [same i (Finset.mem_range.mp mem)]

theorem occupied_store (inside : slot < n) (empty : table slot = none)
    (entry : Entry) : occupied n (update table slot (some entry)) = occupied n table + 1 := by
  have inserted : ((Finset.range n).filter fun i => (update table slot (some entry) i).isSome) =
      insert slot ((Finset.range n).filter fun i => (table i).isSome) := by
    ext i
    by_cases same : i = slot
    · simp [same, inside]
    · simp [same]
  have absent : slot ∉ (Finset.range n).filter fun i => (table i).isSome := by
    simp [empty]
  rw [occupied, inserted, Finset.card_insert_of_notMem absent]
  rfl

theorem occupied_clear {entry : Entry} (inside : slot < n)
    (stored : table slot = some entry) : occupied n (update table slot none) + 1 = occupied n table := by
  have again : update (update table slot none) slot (some entry) = table := by
    rw [update_idem, ← stored, update_eq_self]
  rw [← occupied_store inside (update_self slot none table) entry, again]

theorem occupied_succ (n : Nat) (table : Nat → Option Entry) :
    occupied (n + 1) table = occupied n table + if (table n).isSome then 1 else 0 := by
  unfold occupied
  rw [Finset.range_add_one, Finset.filter_insert]
  split
  · rw [Finset.card_insert_of_notMem (by simp)]
  · rfl

section

variable {table : Nat → Option Entry} {support : Finset Nat}

/-- Where exactly the slots of `support` are taken, all of them are counted. -/
theorem occupied_eq (inside : ∀ i ∈ support, i < n)
    (exact : ∀ i < n, (table i).isSome ↔ i ∈ support) : occupied n table = support.card := by
  unfold occupied
  congr 1
  ext i
  rw [Finset.mem_filter, Finset.mem_range]
  constructor
  · intro taken
    exact (exact i taken.1).mp taken.2
  · intro mem
    exact ⟨inside i mem, (exact i (inside i mem)).mpr mem⟩

theorem occupied_le (within : ∀ i < n, i ∉ support → table i = none) : occupied n table ≤ support.card := by
  refine Finset.card_le_card fun i mem => ?_
  obtain ⟨range, stored⟩ := Finset.mem_filter.mp mem
  by_contra outside
  rw [within i (Finset.mem_range.mp range) outside] at stored
  cases stored

theorem occupied_eq_zero (empty : ∀ i, table i = none) : occupied n table = 0 := by
  have none : occupied n table ≤ (∅ : Finset Nat).card := occupied_le fun i _ _ => empty i
  exact Nat.le_zero.mp none

theorem occupied_lt
    (within : ∀ i < n, i ∉ support → table i = none) (mem : slot ∈ support) (empty : table slot = none) :
    occupied n table < support.card := by
  have within' : ∀ i < n, i ∉ support.erase slot → table i = none := by
    intro i bound outside
    by_cases same : i = slot
    · rw [same, empty]
    · exact within i bound fun inside => outside (Finset.mem_erase.mpr ⟨same, inside⟩)
  exact (occupied_le within').trans_lt (Finset.card_erase_lt_of_mem mem)

end

/-! ## Sums over a family

What the members of a family count for, when one member changes. -/

variable {Index Value : Type*} [Fintype Index] [DecidableEq Index]

theorem sum_update_add (family : Index → Value) (weight : Value → Nat) (i : Index) (val : Value) :
    (∑ j, weight (update family i val j)) + weight (family i) = (∑ j, weight (family j)) + weight val := by
  have others : ∀ j ∈ Finset.univ.erase i, weight (update family i val j) = weight (family j) := by
    intro j mem
    rw [update_of_ne (Finset.ne_of_mem_erase mem)]
  rw [← Finset.add_sum_erase _ _ (Finset.mem_univ i), ← Finset.add_sum_erase _ (fun j => weight (family j))
    (Finset.mem_univ i), Finset.sum_congr rfl others, update_self]
  omega

omit [DecidableEq Index] in
theorem weight_le_sum (family : Index → Value) (weight : Value → Nat) (i : Index) :
    weight (family i) ≤ ∑ j, weight (family j) :=
  Finset.single_le_sum (f := fun j => weight (family j)) (fun _ _ => Nat.zero_le _) (Finset.mem_univ i)

theorem weights_le_sum (family : Index → Value) (weight : Value → Nat) {i j : Index} (ne : i ≠ j) :
    weight (family i) + weight (family j) ≤ ∑ k, weight (family k) := by
  rw [← Finset.add_sum_erase _ _ (Finset.mem_univ i)]
  have mem : j ∈ Finset.univ.erase i := Finset.mem_erase.mpr ⟨ne.symm, Finset.mem_univ j⟩
  exact Nat.add_le_add_left
    (Finset.single_le_sum (f := fun k => weight (family k)) (fun _ _ => Nat.zero_le _) mem) _

/-- How often an entry occurs in a table. -/
def tally [DecidableEq Value] (table : Index → Option Value) (val : Value) : Nat :=
  ∑ i, if table i = some val then 1 else 0

theorem tally_update [DecidableEq Value] (table : Index → Option Value) (i : Index) (entry : Option Value)
    (val : Value) :
    tally (update table i entry) val + (if table i = some val then 1 else 0) =
      tally table val + if entry = some val then 1 else 0 :=
  sum_update_add table (fun entry => if entry = some val then 1 else 0) i entry

end Xv6Simplesh.Library
