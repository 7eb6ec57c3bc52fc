import Xv6Simplesh.Proc.Family

/-! # Children are reaped once

Every process but init has a living parent, `wait` gives a dead child to its creator, or to
init if the creator has exited, and never gives a process twice.  Its number is another
matter: `nextpid` wraps, and after 2^32 processes a second one has the number of the first.
-/

namespace Xv6Simplesh.Ptable

open Library Function
open Vm (ProcState Switches)

def Alive (state : ProcState) : Prop := state = .sleeping ∨ state = .runnable ∨ state = .running

theorem alive_iff (state : ProcState) : Alive state ↔ standing state = .alive := by
  cases state <;> simp [Alive, standing]

/-- A process that `fork` has made runnable and that has not been reaped. -/
def Born (state : ProcState) : Prop := Alive state ∨ state = .zombie

theorem born_iff (state : ProcState) : Born state ↔ standing state = .alive ∨ standing state = .dead := by
  cases state <;> simp [Born, Alive, standing]

/-! ## Numbers -/

theorem int_add_wrap (n : Int) : int (n + 4294967296) = int n := by
  have wrap := Int.add_bmod_right n (2 ^ 32)
  simpa [int] using wrap

/-- Numbers are different as long as their serial numbers are within 2^32. -/
theorem eq_of_int_eq {a b : Nat} (a_pos : 0 < a) (b_pos : 0 < b) (a_le : a ≤ 2 ^ 32) (b_le : b ≤ 2 ^ 32)
    (same : int (a + 1) = int (b + 1)) : a = b := by
  have mod := congrArg (· % (2 ^ 32 : Int)) same
  simp only [int] at mod
  have cut (n : Int) : n.bmod 0x100000000 % 2 ^ 32 = n % 2 ^ 32 := Int.bmod_emod ..
  rw [cut, cut] at mod
  omega

theorem pids_nodup {f : Family} (forks : f.Forks) (serials : f.Serials) (few : f.created ≤ 2 ^ 32 + 1) :
    (f.reaped.map Reaped.pid).Nodup := by
  have positive {r : Reaped} (listed : r ∈ f.reaped) : 0 < r.serial := by
    have other := serials.gone r listed f.initproc (by simp [forks.init])
    rw [serials.init] at other
    omega
  have once := List.pairwise_map.mp serials.once
  refine List.pairwise_map.mpr (once.imp_of_mem ?_)
  intro a b a_listed b_listed distinct same
  obtain ⟨a_lt, a_pid⟩ := serials.reaped a a_listed
  obtain ⟨b_lt, b_pid⟩ := serials.reaped b b_listed
  rw [a_pid, b_pid] at same
  exact distinct (eq_of_int_eq (positive a_listed) (positive b_listed) (by omega) (by omega) same)

/-! ## Returns of `wait` -/

theorem reaped_step {t t' : Table} {event : Event} (taken : t.step event = some t') :
    t'.reaped = t.reaped ∨ ∃ p q, event = .wait p ∧ t.deadChild p = some q ∧
      t'.reaped = ⟨(t.procs q).pid, (t.procs q).serial⟩ :: t.reaped := by
  cases transition_of_step taken with
  | @reap p q running idle dead => exact .inr ⟨p, q, rfl, dead, rfl⟩
  | @exit p running user notInit => exact .inl (congrArg Family.reaped (t.family_exit p))
  | @kill p pid => exact .inl (congrArg Family.reaped (t.family_kill pid))
  | _ => exact .inl rfl

/-- In every run of forks, exits and waits of any processes: a process other than init that
runs or is a zombie has a parent that is alive; a process is returned by `wait` to its parent,
which is its creator, or init after the creator has exited; `wait` returns -1 to a process that
is not killed only if no such process is its child; and no process is returned twice, nor is its number
unless 2^32 processes have been made after the first child. -/
theorem reaped_once {t : Table} (reach : system.Reachable (fun _ _ => True) t) :
    (∀ q, q ≠ t.initproc → Born (t.procs q).state →
      ∃ p, (t.procs q).parent = some p ∧ Alive (t.procs p).state) ∧
    (∀ event t', t.step event = some t' → t'.reaped = t.reaped ∨
      ∃ p q, event = .wait p ∧ (t.wait p).1 = some (t.procs q).pid ∧ (t.procs q).state = .zombie ∧
        t'.reaped = ⟨(t.procs q).pid, (t.procs q).serial⟩ :: t.reaped ∧ (t.procs q).parent = some p ∧
        ((t.procs p).serial = (t.procs q).creator ∨ p = t.initproc ∧ (t.procs q).creator ∈ t.exited)) ∧
    (∀ p, t.deadChild p = none → (t.wait p).1 = some (-1) → (t.procs p).killed = false →
      ∀ q, Born (t.procs q).state → (t.procs q).parent ≠ some p) ∧
    (t.reaped.map Reaped.serial).Nodup ∧ (t.created ≤ 2 ^ 32 + 1 → (t.reaped.map Reaped.pid).Nodup) := by
  obtain ⟨forks, parents, serials⟩ := ordered_of_reachable reach
  refine ⟨?_, ?_, ?_, serials.once, pids_nodup forks serials⟩
  · intro q notInit born
    cases parent : (t.procs q).parent with
    | none => exact absurd parent (parents.born q notInit ((born_iff _).mp born))
    | some p => exact ⟨p, rfl, (alive_iff _).mpr (parents.parent p q parent).1⟩
  · intro event t' taken
    refine (reaped_step taken).imp_right ?_
    rintro ⟨p, q, isWait, dead, reaped⟩
    obtain ⟨child, zombie⟩ := Table.deadChild_eq_some dead
    have returned : (t.wait p).1 = some (t.procs q).pid := by simp only [Table.wait, dead]
    exact ⟨p, q, isWait, returned, zombie, reaped, child, (parents.parent p q child).2⟩
  · intro p none returned unkilled q _ child
    have kids : t.havekids p = true := by
      simp only [Table.havekids, List.any_eq_true]
      exact ⟨q, List.mem_finRange q, by simp [child]⟩
    simp [Table.wait, none, kids, unkilled] at returned

/-- A child of init makes a child and exits, and init is given the first and has the second. -/
theorem reaped_once_orphan : ∃ t : Table, system.Reachable (fun _ _ => True) t ∧ (t.procs 2).parent = some 0 ∧
    (t.procs 2).creator = 1 ∧ t.reaped = [⟨2, 1⟩] ∧ (∃ p, (t.procs 2).parent = some p ∧ Alive (t.procs p).state) ∧
    (t.reaped.map Reaped.pid).Nodup := by
  have evaluated : (system.run (fun _ _ => true) boot
      [.switch 0 .running, .fork 0, .stack 0 true, .copy 0 true, .publish 0, .switch 1 .running,
        .fork 1, .stack 1 true, .copy 1 true, .publish 1, .exit 1, .wait 0]).any (fun t =>
      (t.procs 2).parent = some 0 ∧ (t.procs 2).creator = 1 ∧ t.reaped = [⟨2, 1⟩] ∧
        (t.procs 2).state = .runnable ∧ t.initproc = 0 ∧ t.created = 3) = true := by
    decide +kernel
  obtain ⟨t, ran, facts⟩ := (Option.any_eq_true _ _).mp evaluated
  obtain ⟨parent, creator, reaped, runnable, init, created⟩ := of_decide_eq_true facts
  have reach := System.reachable_of_run (fun _ _ _ => trivial) (.initial rfl) ran
  obtain ⟨orphans, -, -, -, numbers⟩ := reaped_once reach
  exact ⟨t, reach, parent, creator, reaped,
    orphans 2 (by rw [init]; decide) (.inl (.inr (.inl runnable))), numbers (by omega)⟩

/-! ## A number that is returned twice

Init makes a child, which exits, and waits for it, again and again. -/

/-- Init and the slot of its child, after `created` processes. -/
def pair (init child : Proc) (created : Nat) (exited : List Nat) (reaped : List Reaped) : Table where
  procs p := if p = 0 then init else if p = 1 then child else ⟨.unused, 0, none, none, false, .user, 0, 0, []⟩
  nextpid := int (created + 1)
  initproc := 0
  created := created
  failed := []
  exited := exited
  reaped := reaped

section
variable (init child proc : Proc) (created : Nat) (exited : List Nat) (reaped : List Reaped)

@[simp] theorem setProc_pair_init :
    (pair init child created exited reaped).setProc 0 proc = pair proc child created exited reaped := by
  simp only [Table.setProc, pair, Table.mk.injEq, and_true]
  funext q
  simp only [update_apply]
  split <;> rfl

@[simp] theorem setProc_pair_child :
    (pair init child created exited reaped).setProc 1 proc = pair init proc created exited reaped := by
  simp only [Table.setProc, pair, Table.mk.injEq, and_true]
  funext q
  simp only [update_apply]
  grind

@[simp] theorem procs_pair_init : (pair init child created exited reaped).procs 0 = init := rfl

@[simp] theorem procs_pair_child : (pair init child created exited reaped).procs 1 = child := rfl

/-- The slots of a `pair` after the first two are not in use. -/
theorem forall_pair {P : Proc → Prop} (atInit : P init) (atChild : P child)
    (unused : P ⟨.unused, 0, none, none, false, .user, 0, 0, []⟩) (q : Fin nproc) :
    P ((pair init child created exited reaped).procs q) := by
  simp only [pair]
  split
  · exact atInit
  · split
    · exact atChild
    · exact unused

theorem finRange_nproc : ∃ rest, List.finRange nproc = 0 :: 1 :: rest := ⟨_, rfl⟩

variable {init child}

theorem wakeup1_pair (p : Fin nproc) (awake : init.state ≠ .sleeping) (childAwake : child.state ≠ .sleeping) :
    (pair init child created exited reaped).wakeup1 p = pair init child created exited reaped := by
  have awake := forall_pair init child created exited reaped (P := fun proc => proc.state ≠ .sleeping)
    awake childAwake nofun
  simp only [Table.wakeup1, Table.mapProcs, awake, false_and, if_false]

theorem reparent_pair (p : Fin nproc) (initParent : init.parent ≠ some p) (childParent : child.parent ≠ some p) :
    (pair init child created exited reaped).reparent p = pair init child created exited reaped := by
  have other := forall_pair init child created exited reaped (P := fun proc => proc.parent ≠ some p)
    initParent childParent nofun
  have unmoved : (pair init child created exited reaped).abandonChildren p = pair init child created exited reaped := by
    simp only [Table.abandonChildren, Table.mapProcs, other, if_false]
  simp [Table.reparent, other, unmoved]

theorem found_pair : (pair init child created exited reaped).found 0 1 = pair init { child with
      state := .embryo, pid := int (created + 1), serial := created, creator := init.serial, kills := [] }
      (created + 1) exited reaped := by
  have next : int (int (created + 1) + 1) = int ((created + 1 : Nat) + 1) := Family.int_add_one _
  rw [Table.found, setProc_pair_child]
  simp only [pair, next]
  rfl

theorem exit_pair (awake : init.state ≠ .sleeping) (childAwake : child.state ≠ .sleeping)
    (initParent : init.parent ≠ some 1) (childParent : child.parent = some 0) :
    (pair init child created exited reaped).exit 1 =
      pair init { child with state := .zombie } created (child.serial :: exited) reaped := by
  have woken : (pair init child created exited reaped).wakeupParent 1 = pair init child created exited reaped := by
    rw [Table.wakeupParent, procs_pair_child, childParent]
    exact wakeup1_pair created exited reaped 0 awake childAwake
  rw [Table.exit, woken, reparent_pair created exited reaped 1 initParent (by simp [childParent])]
  dsimp only
  rw [setProc_pair_child, procs_pair_child]
  simp only [pair]

theorem reap_pair : (pair init child created exited reaped).reap 0 1 =
    pair { init with phase := .user } { child with state := .unused, pid := 0, parent := none, killed := false }
      created exited (⟨child.pid, child.serial⟩ :: reaped) := by
  rw [Table.reap, Table.setPhase]
  dsimp only
  rw [setProc_pair_child, setProc_pair_init, procs_pair_init, procs_pair_child]
  simp only [pair]

end

/-- The serial numbers of the first `k` children, the last one first. -/
def serials : Nat → List Nat
  | 0 => []
  | k + 1 => (k + 1) :: serials k

def returns (k : Nat) : List Reaped := (serials k).map fun serial : Nat => ⟨int (serial + 1), serial⟩

/-- Init at a place in its calls. -/
def initAt (phase : Phase) : Proc := ⟨.running, 1, none, none, false, phase, 0, 0, []⟩

/-- Child `k + 1` of init. -/
def childAt (k : Nat) (state : ProcState) (parent : Option (Fin nproc)) : Proc :=
  ⟨state, int (k + 1 + 1), parent, none, false, .user, k + 1, 0, []⟩

/-- Init between two rounds, after `k` children. -/
def round (k : Nat) : Table :=
  pair (initAt .user) ⟨.unused, 0, none, none, false, .user, k, 0, []⟩ (k + 1) (serials k) (returns k)

theorem round_fork (k : Nat) : system.step (round k) (.fork 0) =
    some (pair (initAt (.forkStack 1)) (childAt k .embryo none) (k + 2) (serials k) (returns k)) := by
  obtain ⟨rest, slots⟩ := finRange_nproc
  have alloc : (round k).allocproc 0 = some (1, (round k).found 0 1) := by
    simp [Table.allocproc, slots, round, initAt]
  simp only [system, Table.step, Event.actor, Table.act, alloc]
  simp [round, initAt, found_pair, Table.setPhase, childAt]

theorem round_born (k : Nat) : system.run (fun _ _ => true)
    (pair (initAt (.forkStack 1)) (childAt k .embryo none) (k + 2) (serials k) (returns k))
    [.stack 0 true, .copy 0 true, .publish 0, .switch 1 .running] =
      some (pair (initAt .user) (childAt k .running (some 0)) (k + 2) (serials k) (returns k)) := by
  simp [System.run, system, Table.step, Event.actor, Table.act, initAt, childAt, Table.setPhase, Table.adopt,
    Table.publish, Switches]

theorem round_exit (k : Nat) :
    system.step (pair (initAt .user) (childAt k .running (some 0)) (k + 2) (serials k) (returns k)) (.exit 1) =
      some (pair (initAt .user) (childAt k .zombie (some 0)) (k + 2) (serials (k + 1)) (returns k)) := by
  have exits : (pair (initAt .user) (childAt k .running (some 0)) (k + 2) (serials k) (returns k)).exit 1 = _ :=
    exit_pair _ _ _ nofun nofun nofun rfl
  simp only [system, Table.step, Event.actor, Table.act, exits]
  simp [childAt, serials, pair]

theorem round_wait (k : Nat) :
    system.step (pair (initAt .user) (childAt k .zombie (some 0)) (k + 2) (serials (k + 1)) (returns k)) (.wait 0) =
      some (round (k + 1)) := by
  obtain ⟨rest, slots⟩ := finRange_nproc
  simp [system, Table.step, Event.actor, Table.act, Table.wait, Table.deadChild, slots, initAt, childAt, reap_pair,
    round, serials, returns]

theorem round_reachable (k : Nat) : system.Reachable (fun _ _ => True) (round k) := by
  induction k with
  | zero =>
    refine .step (.switch 0 .running) (.initial rfl) trivial ?_
    have first : boot = pair { initAt .user with state := .runnable } ⟨.unused, 0, none, none, false, .user, 0, 0, []⟩
        1 [] [] := by
      have next : int ((1 : Nat) + 1) = 2 := by decide
      simp only [boot, pair, initAt, next, ite_self]
    simp [first, system, Table.step, initAt, Switches, round, serials, returns]
  | succ k ih =>
    refine .step (.wait 0) (.step (.exit 1) ?_ trivial (round_exit k)) trivial (round_wait k)
    exact System.reachable_of_run (fun _ _ _ => trivial) (.step (.fork 0) ih trivial (round_fork k)) (round_born k)

theorem mem_serials {k serial : Nat} (pos : 0 < serial) (le : serial ≤ k) : serial ∈ serials k := by
  induction k with
  | zero => omega
  | succ k ih =>
    by_cases last : serial = k + 1
    · rw [last]
      exact .head _
    · exact .tail _ (ih (by omega))

theorem pids_round (k : Nat) :
    (round k).reaped.map Reaped.pid = (serials k).map fun serial : Nat => int (serial + 1) := by
  simp only [round, pair, returns, List.map_map, comp_def]

/-- The number of a child is that of the child 2^32 before. -/
theorem round_returns_twice {k n : Nat} (wrapped : n = k + 2 ^ 32) :
    ¬ ((round (n + 1)).reaped.map Reaped.pid).Nodup := by
  have wraps : int ((n + 1 : Nat) + 1) = int ((k + 1 : Nat) + 1) := by
    have far : ((n + 1 : Nat) : Int) + 1 = ((k + 1 : Nat) + 1) + 4294967296 := by omega
    rw [far, int_add_wrap]
  have listed : k + 1 ∈ serials n := mem_serials (by omega) (by omega)
  rw [pids_round, serials, List.map_cons, List.nodup_cons, wraps]
  exact fun nodup => nodup.1 (List.mem_map_of_mem listed)

/-- After 2^32 + 1 children init has been given the number 2 twice. -/
theorem number_returned_twice : ∃ t, system.Reachable (fun _ _ => True) t ∧ t.created = 2 ^ 32 + 2 ∧
    ¬ (t.reaped.map Reaped.pid).Nodup :=
  ⟨round (2 ^ 32 + 1), round_reachable _, rfl, round_returns_twice (k := 0) (by omega)⟩

end Xv6Simplesh.Ptable
