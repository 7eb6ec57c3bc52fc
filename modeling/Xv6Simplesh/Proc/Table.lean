import Mathlib.Data.List.FinRange
import Xv6Simplesh.Proc.Processes

/-! # The process table

`fork`, `exit`, `wait` and `kill` of any processes in any order.  What is done under
`ptable.lock` is one step, and so is each access to the table without it: `fork` takes a
slot in `allocproc`, and only after it has a kernel stack and a copy of the memory does it
make the child runnable.  The numbers of processes have 32 bits.

Beside the fields of the source a slot has a history: a serial number for the process that
is in it, which no other process ever has, that of its creator, and the calls of `kill`
since the slot was taken.
-/

namespace Xv6Simplesh.Ptable

open Library
open Vm (ProcState Switches)

/-- Where a process is in its calls. -/
inductive Phase where
  | user
  /-- In `fork`, with a slot for the child and no kernel stack yet, -/
  | forkStack (np : Fin nproc)
  /-- with a kernel stack, -/
  | forkCopy (np : Fin nproc)
  /-- and with a copy of the memory. -/
  | forkPublish (np : Fin nproc)
  /-- In the loop of `wait`. -/
  | waiting
deriving DecidableEq, Repr

/-- The slot that a call of `fork` has taken. -/
def Phase.child : Phase → Option (Fin nproc)
  | forkStack np | forkCopy np | forkPublish np => some np
  | user | waiting => none

structure Proc where
  state : ProcState
  pid : Int
  parent : Option (Fin nproc)
  /-- The process whose slot is slept on in `wait`. -/
  chan : Option (Fin nproc)
  killed : Bool
  phase : Phase
  serial : Nat
  creator : Nat
  /-- The arguments of the calls of `kill` since the slot was taken. -/
  kills : List Int
deriving DecidableEq, Repr

/-- A return of `wait` with the number of a child. -/
structure Reaped where
  pid : Int
  serial : Nat
deriving DecidableEq, Repr

structure Table where
  procs : Fin nproc → Proc
  nextpid : Int
  initproc : Fin nproc
  /-- How many processes have been given a slot. -/
  created : Nat
  /-- The numbers of those whose `fork` failed. -/
  failed : List Int
  exited : List Nat
  reaped : List Reaped

namespace Table

def setProc (t : Table) (p : Fin nproc) (proc : Proc) : Table := { t with procs := Function.update t.procs p proc }

def setPhase (t : Table) (p : Fin nproc) (phase : Phase) : Table := t.setProc p { t.procs p with phase }

/-- Change every slot. -/
def mapProcs (t : Table) (change : Fin nproc → Proc → Proc) : Table :=
  { t with procs := fun q => change q (t.procs q) }

/-! ## `fork` -/

/-- From `found` on, with the caller in slot `p`; neither `killed` nor `parent` is set. -/
def found (t : Table) (p np : Fin nproc) : Table :=
  { t.setProc np { t.procs np with
      state := .embryo
      pid := t.nextpid
      serial := t.created
      creator := (t.procs p).serial
      kills := [] } with
    nextpid := int (t.nextpid + 1)
    created := t.created + 1 }

/-- The section of `allocproc`. -/
def allocproc (t : Table) (p : Fin nproc) : Option (Fin nproc × Table) :=
  ((List.finRange nproc).find? fun q => (t.procs q).state = .unused).map fun np => (np, t.found p np)

/-- `fork` returns -1; the slot of the child is unused again and keeps its number. -/
def forkFail (t : Table) (p np : Fin nproc) : Table :=
  { (t.setProc np { t.procs np with state := .unused }).setPhase p .user with
    failed := (t.procs np).pid :: t.failed }

/-- The child gets its parent. -/
def adopt (t : Table) (p np : Fin nproc) : Table :=
  (t.setProc np { t.procs np with parent := some p }).setPhase p (.forkPublish np)

/-- The last section of `fork`. -/
def publish (t : Table) (p np : Fin nproc) : Table :=
  (t.setProc np { t.procs np with state := .runnable, phase := .user }).setPhase p .user

/-! ## `exit`, `wait` and `kill` -/

/-- `wakeup1` on the address of slot `p`. -/
def wakeup1 (t : Table) (p : Fin nproc) : Table :=
  t.mapProcs fun _ proc =>
    if proc.state = .sleeping ∧ proc.chan = some p then { proc with state := .runnable } else proc

def wakeupParent (t : Table) (p : Fin nproc) : Table :=
  match (t.procs p).parent with
  | none => t
  | some parent => t.wakeup1 parent

def abandonChildren (t : Table) (p : Fin nproc) : Table :=
  t.mapProcs fun _ proc => if proc.parent = some p then { proc with parent := some t.initproc } else proc

/-- Pass the children of slot `p` to init, and wake it if one of them is a zombie. -/
def reparent (t : Table) (p : Fin nproc) : Table :=
  if (List.finRange nproc).any fun q => (t.procs q).parent = some p ∧ (t.procs q).state = .zombie then
    (t.abandonChildren p).wakeup1 t.initproc
  else t.abandonChildren p

/-- The section of `exit`. -/
def exit (t : Table) (p : Fin nproc) : Table :=
  let t := (t.wakeupParent p).reparent p
  { t.setProc p { t.procs p with state := .zombie } with exited := (t.procs p).serial :: t.exited }

/-- The child that `wait` finds dead. -/
def deadChild (t : Table) (p : Fin nproc) : Option (Fin nproc) :=
  (List.finRange nproc).find? fun q => (t.procs q).parent = some p ∧ (t.procs q).state = .zombie

def havekids (t : Table) (p : Fin nproc) : Bool := (List.finRange nproc).any fun q => (t.procs q).parent = some p

/-- `wait` frees the slot of its child. -/
def reap (t : Table) (p q : Fin nproc) : Table :=
  let child := t.procs q
  { (t.setProc q { child with state := .unused, pid := 0, parent := none, killed := false }).setPhase p .user with
    reaped := ⟨child.pid, child.serial⟩ :: t.reaped }

/-- A pass of the loop of `wait`: what it returns, or `none` if it sleeps. -/
def wait (t : Table) (p : Fin nproc) : Option Int × Table :=
  match t.deadChild p with
  | some q => (some (t.procs q).pid, t.reap p q)
  | none =>
    if t.havekids p = false ∨ (t.procs p).killed then (some (-1), t.setPhase p .user)
    else (none, t.setProc p { t.procs p with state := .sleeping, chan := some p, phase := .waiting })

/-- The slot that `kill` finds. -/
def target (t : Table) (pid : Int) : Option (Fin nproc) :=
  (List.finRange nproc).find? fun q => (t.procs q).pid = pid

/-- Wake a process from sleep if necessary. -/
def wake : ProcState → ProcState
  | .sleeping => .runnable
  | state => state

/-- The call is in the history of every slot. -/
def kill (t : Table) (pid : Int) : Int × Table :=
  let found := t.target pid
  let t := t.mapProcs fun _ proc => { proc with kills := pid :: proc.kills }
  match found with
  | none => (-1, t)
  | some q => (0, t.setProc q { t.procs q with killed := true, state := wake (t.procs q).state })

end Table

/-! ## Runs -/

inductive Event where
  | fork (p : Fin nproc)
  /-- `kalloc` of the kernel stack succeeds or fails. -/
  | stack (p : Fin nproc) (ok : Bool)
  /-- `copyuvm` succeeds or fails. -/
  | copy (p : Fin nproc) (ok : Bool)
  | publish (p : Fin nproc)
  | exit (p : Fin nproc)
  | wait (p : Fin nproc)
  | kill (p : Fin nproc) (pid : Int)
  /-- The scheduler, `yield`, and `sleep` and `wakeup` in other calls. -/
  | switch (p : Fin nproc) (state : ProcState)
deriving DecidableEq, Repr

/-- The slot in which the next step is made. -/
def Event.actor : Event → Fin nproc
  | fork p | stack p _ | copy p _ | publish p | exit p | wait p | kill p _ | switch p _ => p

namespace Table

/-- A step of a running process. -/
def act (t : Table) (p : Fin nproc) : Event → Option Table
  | .fork _ =>
    if (t.procs p).phase = .user then
      match t.allocproc p with
      | none => some t
      | some (np, t) => some (t.setPhase p (.forkStack np))
    else none
  | .stack _ ok =>
    match (t.procs p).phase with
    | .forkStack np => some (if ok then t.setPhase p (.forkCopy np) else t.forkFail p np)
    | _ => none
  | .copy _ ok =>
    match (t.procs p).phase with
    | .forkCopy np => some (if ok then t.adopt p np else t.forkFail p np)
    | _ => none
  | .publish _ =>
    match (t.procs p).phase with
    | .forkPublish np => some (t.publish p np)
    | _ => none
  -- `panic("init exiting")`
  | .exit _ => if (t.procs p).phase = .user ∧ p ≠ t.initproc then some (t.exit p) else none
  | .wait _ => if (t.procs p).phase = .user ∨ (t.procs p).phase = .waiting then some (t.wait p).2 else none
  | .kill _ pid => if (t.procs p).phase = .user then some (t.kill pid).2 else none
  | .switch _ _ => none

/-- In `fork` a process may lose the processor, and in `wait` it sleeps only as `wait` does. -/
def step (t : Table) : Event → Option Table
  | .switch p state =>
    if Switches (t.procs p).state state ∧
        ((t.procs p).phase = .user ∨ (t.procs p).state ≠ .sleeping ∧ state ≠ .sleeping) then
      some (t.setProc p { t.procs p with state, chan := none })
    else none
  | event => if (t.procs event.actor).state = .running then t.act event.actor event else none

end Table

/-- The table after `userinit`. -/
def boot : Table where
  procs p :=
    if p = 0 then ⟨.runnable, 1, none, none, false, .user, 0, 0, []⟩
    else ⟨.unused, 0, none, none, false, .user, 0, 0, []⟩
  nextpid := 2
  initproc := 0
  created := 1
  failed := []
  exited := []
  reaped := []

def system : System Table Event where
  initial t := t = boot
  step := Table.step

/-! ## The transitions -/

/-- What an event does in table `t`, one constructor for each way through the code. -/
inductive Transition (t : Table) : Event → Table → Prop
  | full {p : Fin nproc} : Transition t (.fork p) t
  | found {p np : Fin nproc} (running : (t.procs p).state = .running) (user : (t.procs p).phase = .user)
      (unused : (t.procs np).state = .unused) :
      Transition t (.fork p) ((t.found p np).setPhase p (.forkStack np))
  | stack {p np : Fin nproc} (running : (t.procs p).state = .running)
      (forking : (t.procs p).phase = .forkStack np) : Transition t (.stack p true) (t.setPhase p (.forkCopy np))
  | stackFail {p np : Fin nproc} (running : (t.procs p).state = .running)
      (forking : (t.procs p).phase = .forkStack np) : Transition t (.stack p false) (t.forkFail p np)
  | copy {p np : Fin nproc} (running : (t.procs p).state = .running)
      (forking : (t.procs p).phase = .forkCopy np) : Transition t (.copy p true) (t.adopt p np)
  | copyFail {p np : Fin nproc} (running : (t.procs p).state = .running)
      (forking : (t.procs p).phase = .forkCopy np) : Transition t (.copy p false) (t.forkFail p np)
  | publish {p np : Fin nproc} (running : (t.procs p).state = .running)
      (forking : (t.procs p).phase = .forkPublish np) : Transition t (.publish p) (t.publish p np)
  | exit {p : Fin nproc} (running : (t.procs p).state = .running) (user : (t.procs p).phase = .user)
      (notInit : p ≠ t.initproc) : Transition t (.exit p) (t.exit p)
  | reap {p q : Fin nproc} (running : (t.procs p).state = .running) (idle : (t.procs p).phase.child = none)
      (dead : t.deadChild p = some q) : Transition t (.wait p) (t.reap p q)
  | giveUp {p : Fin nproc} (idle : (t.procs p).phase.child = none) : Transition t (.wait p) (t.setPhase p .user)
  | sleep {p : Fin nproc} (running : (t.procs p).state = .running) (idle : (t.procs p).phase.child = none) :
      Transition t (.wait p) (t.setProc p { t.procs p with state := .sleeping, chan := some p, phase := .waiting })
  | kill {p : Fin nproc} {pid : Int} : Transition t (.kill p pid) (t.kill pid).2
  | switch {p : Fin nproc} {state : ProcState} (switches : Switches (t.procs p).state state) :
      Transition t (.switch p state) (t.setProc p { t.procs p with state, chan := none })

variable {t t' : Table} {p : Fin nproc}

theorem Table.deadChild_eq_some {q : Fin nproc} (dead : t.deadChild p = some q) :
    (t.procs q).parent = some p ∧ (t.procs q).state = .zombie := by
  simpa using List.find?_some dead

theorem transition_fork (running : (t.procs p).state = .running) (acted : t.act p (.fork p) = some t') :
    Transition t (.fork p) t' := by
  simp only [Table.act, Table.allocproc] at acted
  split at acted
  · next user =>
    split at acted
    · cases acted
      exact .full
    · next np t₁ alloc =>
      cases acted
      obtain ⟨np, least, same⟩ := Option.map_eq_some_iff.mp alloc
      cases same
      exact .found running user (by simpa using List.find?_some least)
  · cases acted

theorem transition_wait (running : (t.procs p).state = .running)
    (between : (t.procs p).phase = .user ∨ (t.procs p).phase = .waiting) : Transition t (.wait p) (t.wait p).2 := by
  have idle : (t.procs p).phase.child = none := by
    rcases between with user | waiting
    · rw [user, Phase.child]
    · rw [waiting, Phase.child]
  unfold Table.wait
  cases dead : t.deadChild p with
  | some q => exact .reap running idle dead
  | none =>
    dsimp only
    split
    · exact .giveUp idle
    · exact .sleep running idle

theorem transition_act {event : Event} (running : (t.procs event.actor).state = .running)
    (acted : t.act event.actor event = some t') : Transition t event t' := by
  cases event with
  | fork p => exact transition_fork running acted
  | stack p ok =>
    simp only [Table.act, Event.actor] at acted
    split at acted
    · next np forking =>
      cases ok <;> cases acted
      · exact .stackFail running forking
      · exact .stack running forking
    · cases acted
  | copy p ok =>
    simp only [Table.act, Event.actor] at acted
    split at acted
    · next np forking =>
      cases ok <;> cases acted
      · exact .copyFail running forking
      · exact .copy running forking
    · cases acted
  | publish p =>
    simp only [Table.act, Event.actor] at acted
    split at acted
    · next np forking =>
      cases acted
      exact .publish running forking
    · cases acted
  | exit p =>
    obtain ⟨⟨user, notInit⟩, same⟩ := Option.ite_none_right_eq_some.mp acted
    cases same
    exact .exit running user notInit
  | wait p =>
    obtain ⟨idle, same⟩ := Option.ite_none_right_eq_some.mp acted
    cases same
    exact transition_wait running idle
  | kill p pid =>
    obtain ⟨-, same⟩ := Option.ite_none_right_eq_some.mp acted
    cases same
    exact .kill
  | switch p state => cases acted

theorem transition_of_step {event : Event} (taken : t.step event = some t') : Transition t event t' := by
  cases event with
  | switch p state =>
    obtain ⟨⟨switches, -⟩, same⟩ := Option.ite_none_right_eq_some.mp taken
    cases same
    exact .switch switches
  | _ =>
    obtain ⟨running, acted⟩ := Option.ite_none_right_eq_some.mp taken
    exact transition_act running acted

end Xv6Simplesh.Ptable
