import Xv6Simplesh.Proc.Processes
import Xv6Simplesh.Vm.Copying

/-! # `fork`

What `fork` does to the process table and the memory, case by case: no free slot, no page
for the kernel stack, a copy of the address space that fails, a panic in the copy, or a
child.  In each case at most one slot changes, and it was unused.
-/

namespace Xv6Simplesh.Vm

open Library Function

/-- The machine once a kernel stack has been taken. -/
abbrev Machine.rest (m : Machine) (rest : List Nat) : Machine := { m with freelist := rest }

/-- How `fork` of a process with page directory `c` and size `sz` ends. -/
inductive Forked (k : Symbols) (w : World) (i c sz : Nat) : Except Panic (Int × World) → Prop where
  | full (none : ∀ j < nproc, (w.procs j).state ≠ .unused) : Forked k w i c sz (.ok (-1, w))
  | noStack {np : Nat} {w' : World} (slot : np < nproc) (unused : (w.procs np).state = .unused)
      (empty : w.machine.freelist = []) (machine : w'.machine = w.machine)
      (others : ∀ j, j ≠ np → w'.procs j = w.procs j) (after : (w'.procs np).state = .unused) :
      Forked k w i c sz (.ok (-1, w'))
  | failed {np s : Nat} {rest : List Nat} {m' : Machine} {w' : World} (slot : np < nproc)
      (unused : (w.procs np).state = .unused) (free : w.machine.freelist = s :: rest)
      (copied : Copied k (w.machine.rest rest) c (pageCount sz) (.ok (none, m'))) (machine : w'.machine = m'.push s)
      (others : ∀ j, j ≠ np → w'.procs j = w.procs j) (after : (w'.procs np).state = .unused) :
      Forked k w i c sz (.ok (-1, w'))
  | panicked {np s : Nat} {rest : List Nat} {panic : Panic} (slot : np < nproc)
      (unused : (w.procs np).state = .unused) (free : w.machine.freelist = s :: rest)
      (copied : Copied k (w.machine.rest rest) c (pageCount sz) (.error panic)) : Forked k w i c sz (.error panic)
  | child {np s d : Nat} {rest : List Nat} {m' : Machine} {w' : World} (slot : np < nproc)
      (unused : (w.procs np).state = .unused) (free : w.machine.freelist = s :: rest)
      (copied : Copied k (w.machine.rest rest) c (pageCount sz) (.ok (some d, m'))) (machine : w'.machine = m')
      (others : ∀ j, j ≠ np → w'.procs j = w.procs j) (state : (w'.procs np).state = .runnable)
      (pgdir : (w'.procs np).pgdir = some d) (kstack : (w'.procs np).kstack = some s)
      (size : (w'.procs np).sz = sz) : Forked k w i c sz (.ok (w.nextpid, w'))

section Fork

variable {k : Symbols} {w : World} {c : Nat}

/-- Taking the first free page leaves an address space as it is. -/
theorem Space.rest {s : Nat} {rest : List Nat} (space : Space k w.machine c) (free : w.machine.freelist = s :: rest) :
    Space k (w.machine.rest rest) c :=
  ((Evolves.refl space fun _ used => used).kalloc free).1.space

/-- `copyuvm` puts nothing into the machine but pages of the free list. -/
theorem Copied.within {n : Nat} {m m' : Machine} {res : Option Nat} (copied : Copied k m c n (.ok (res, m'))) :
    Within k (· ∈ m.freelist) m m' := by
  cases copied with
  | done copying => exact copying.within
  | hole inside there table absent enough within lost => exact within
  | noMemory inside there few within all => exact within

theorem fork_forked {i sz : Nat} (space : Space k w.machine c) (user : sz ≤ kernbase) :
    Forked k w i c sz (fork k w i ⟨c, sz⟩) := by
  unfold fork allocproc
  cases found : (List.range nproc).find? fun j => (w.procs j).state = .unused with
  | none =>
    apply Forked.full
    intro j inside unused
    have all := List.find?_eq_none.mp found j (List.mem_range.mpr inside)
    exact all (decide_eq_true unused)
  | some np =>
    have slot : np < nproc := List.mem_range.mp (List.mem_of_find?_eq_some found)
    have unused : (w.procs np).state = .unused := by simpa using List.find?_some found
    dsimp only
    cases free : w.machine.freelist with
    | nil =>
      have empty : kalloc w.machine = none := kalloc_of_nil free
      simp only [World.setProc, empty]
      refine .noStack slot unused free rfl ?_ ?_
      · intro j other
        simp only [update_of_ne other]
      · simp only [update_self]
    | cons s rest =>
      have first : kalloc w.machine = some (s, w.machine.rest rest) := kalloc_of_cons free
      have copied := copyuvm_copied (space.rest free) user
      have allocatable : k.Allocatable s := space.allocatable s (free ▸ List.mem_cons_self)
      simp only [World.setProc, first]
      cases ran : copyuvm k (w.machine.rest rest) c sz with
      | error panic =>
        rw [ran] at copied
        exact .panicked slot unused free copied
      | ok res =>
        obtain ⟨d, m'⟩ := res
        rw [ran] at copied
        cases d with
        | none =>
          have pushed : kfree k m' s = .ok (m'.push s) := if_pos allocatable
          simp only [update_self, pushed, bind, Except.bind]
          refine .failed slot unused free copied rfl ?_ ?_
          · intro j other
            simp only [update_of_ne other]
          · simp only [update_self]
        | some d =>
          simp only [update_self, bind, Except.bind]
          refine .child (s := s) slot unused free copied rfl ?_ ?_ ?_ ?_ ?_
          · intro j other
            simp only [update_of_ne other]
          · simp only [update_self]
          · simp only [update_self]
          · simp only [update_self]
          · simp only [update_self]

end Fork

end Xv6Simplesh.Vm
