import Mathlib.Data.Nat.ModEq

/-! # Ring buffers with counters

A ring buffer of `size` cells with two counters: how many items have ever been stored and
how many have been taken.  Item number `k` is in cell `k % size`.  The counters of a program
are kept modulo some `modulus`; while they are close to each other they are equal only if the
true ones are, and if `size` divides the modulus they lead to the same cells.
-/

namespace Xv6Simplesh.Library

open Function

variable {Item : Type*} {size modulus taken stored : Nat} {data : Nat → Item}

/-- The items in the buffer, the oldest first. -/
def window (size : Nat) (data : Nat → Item) (taken stored : Nat) : List Item :=
  (List.range (stored - taken)).map fun i => data ((taken + i) % size)

theorem window_self : window size data taken taken = [] := by
  rw [window, Nat.sub_self, List.range_zero, List.map_nil]

/-- Numbers less than `size` apart are in different cells. -/
theorem cell_ne {first snd : Nat} (before : first < snd) (close : snd < first + size) :
    first % size ≠ snd % size := by
  intro same
  have divides : size ∣ snd - first := (Nat.modEq_iff_dvd' before.le).mp same
  have large := Nat.le_of_dvd (by omega) divides
  omega

theorem window_store (ordered : taken ≤ stored) (room : stored < taken + size) (item : Item) :
    window size (update data (stored % size) item) taken (stored + 1) =
      window size data taken stored ++ [item] := by
  have count : stored + 1 - taken = stored - taken + 1 := by omega
  have last : taken + (stored - taken) = stored := by omega
  rw [window, count, List.range_succ, List.map_append, List.map_singleton, last, update_self]
  congr 1
  -- the items already there are in other cells
  apply List.map_congr_left
  intro i mem
  have inside := List.mem_range.mp mem
  rw [update_of_ne]
  exact cell_ne (by omega) (by omega)

theorem window_take (some : taken < stored) :
    window size data taken stored = data (taken % size) :: window size data (taken + 1) stored := by
  have count : stored - taken = stored - (taken + 1) + 1 := by omega
  rw [window, count, List.range_succ_eq_map, List.map_cons, List.map_map, Nat.add_zero]
  congr 1
  apply List.map_congr_left
  intro i _
  rw [comp_apply, Nat.succ_eq_add_one, Nat.add_assoc, Nat.add_comm 1 i]

theorem window_snoc (ordered : taken ≤ stored) :
    window size data taken (stored + 1) = window size data taken stored ++ [data (stored % size)] := by
  have count : stored + 1 - taken = stored - taken + 1 := by omega
  have last : taken + (stored - taken) = stored := by omega
  rw [window, count, List.range_succ, List.map_append, List.map_singleton, last]
  rfl

theorem window_append {middle : Nat} (first : taken ≤ middle) (snd : middle ≤ stored) :
    window size data taken middle ++ window size data middle stored = window size data taken stored := by
  induction stored, snd using Nat.le_induction with
  | base => rw [window_self, List.append_nil]
  | succ stored more ih =>
    rw [window_snoc more, window_snoc (first.trans more), ← List.append_assoc, ih]

theorem window_update {count : Nat} (ordered : stored ≤ count) (room : count < taken + size) (item : Item) :
    window size (update data (count % size) item) taken stored = window size data taken stored := by
  apply List.map_congr_left
  intro i mem
  have inside := List.mem_range.mp mem
  rw [update_of_ne]
  exact cell_ne (by omega) (by omega)

theorem counter_eq_iff {first snd : Nat} (ordered : first ≤ snd) (close : snd < first + modulus) :
    first % modulus = snd % modulus ↔ first = snd := by
  constructor
  · intro same
    have divides : modulus ∣ snd - first := (Nat.modEq_iff_dvd' ordered).mp same
    have none := Nat.eq_zero_of_dvd_of_lt divides (by omega)
    omega
  · intro same
    rw [same]

end Xv6Simplesh.Library
