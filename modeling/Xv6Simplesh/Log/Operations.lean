import Xv6Simplesh.Library.Runs
import Xv6Simplesh.Param
import Mathlib.Algebra.Order.BigOperators.Group.Finset

/-! # Concurrent operations on the log

Processes bracket every file-system call with `begin_op` and `end_op` and name
the blocks they change with `log_write`.  The model interleaves the sections of
these functions that `log.lock` makes atomic: the loop body of `begin_op`, the
two halves of `log_write` (its tests run before the lock is taken), the locked
part of `end_op`, and the phases of `commit`, which runs without the lock.

`State` also carries a history that the code does not have: which operation
logged which blocks, and what each header write committed.
-/

namespace Xv6Simplesh.Log

open Library Function

/-- Why the kernel has stopped: what it prints, or that nothing is known about it any more. -/
inductive Panic where
  | tooBigATransaction
  | logWriteOutsideOfTrans
  | logCommitting
  /-- A store past the end of `log.lh.block`. -/
  | overrun
deriving DecidableEq, Repr

/-- The phases of `commit`, and the end of `end_op` after it. -/
inductive CommitPhase where
  | writeLog
  | writeHead
  | installTrans
  | clear
  | eraseHead
  | finish
deriving DecidableEq, Repr

/-- Where a process is; `op` numbers the operation it is executing. -/
inductive Pc where
  | idle
  | beginOp                     -- at the top of the loop in `begin_op`
  | sleeping                    -- in `sleep(&log, &log.lock)`
  | inOp (op : Nat)             -- between `begin_op` and `end_op`
  | logging (op block : Nat)    -- in `log_write`, past the tests, before the lock
  | committing (phase : CommitPhase)
deriving DecidableEq, Repr

structure State where
  size : Nat
  outstanding : Int
  committing : Bool
  lh : List Nat
  pc : Nat → Pc
  panic : Option Panic
  /-- History: the operations admitted so far. -/
  nextOp : Nat
  /-- History: the blocks each operation has logged. -/
  logged : Nat → List Nat
  /-- History: how many header writes had been done when the operation was admitted. -/
  epoch : Nat → Nat
  /-- History: the entries of each header write, oldest first. -/
  commits : List (List Nat)

/-- After `initlog`, with `log.size = size`. -/
def initlog (size : Nat) : State where
  size := size
  outstanding := 0
  committing := false
  lh := []
  pc := fun _ => .idle
  panic := none
  nextOp := 0
  logged := fun _ => []
  epoch := fun _ => 0
  commits := []

/-- The atomic sections that a scheduler can pick. -/
inductive Event where
  | call (proc : Nat)             -- call `begin_op`
  | beginOp (proc : Nat)          -- one iteration of its loop
  | logWrite (proc block : Nat)   -- call `log_write` and run its tests
  | append (proc : Nat)           -- the locked part of `log_write`
  | endOp (proc : Nat)            -- the locked part of `end_op`
  | commit (proc : Nat)           -- the next phase of `commit`
deriving DecidableEq, Repr

namespace State

def setPc (state : State) (proc : Nat) (pc : Pc) : State :=
  { state with pc := update state.pc proc pc }

/-- `wakeup(&log)`: the sleepers go back to the top of their loop. -/
def wakeup (state : State) : State :=
  { state with pc := fun proc =>
      if state.pc proc = .sleeping then .beginOp else state.pc proc }

def stop (state : State) (panic : Panic) : State := { state with panic := some panic }

/-- `begin_op` lets the process in. -/
def enter (state : State) (proc : Nat) : State :=
  { state.setPc proc (.inOp state.nextOp) with
    outstanding := state.outstanding + 1
    nextOp := state.nextOp + 1
    logged := update state.logged state.nextOp []
    epoch := update state.epoch state.nextOp state.commits.length }

/-- One iteration of the loop of `begin_op`. -/
def beginOp (state : State) (proc : Nat) : State :=
  if state.committing then state.setPc proc .sleeping
  else if (state.lh.length : Int) + (state.outstanding + 1) * maxOpBlocks > logSize then
    -- this op might exhaust log space; wait for commit
    state.setPc proc .sleeping
  else state.enter proc

/-- The first test of `log_write`. -/
def full (state : State) : Prop :=
  state.lh.length ≥ logSize ∨ (state.lh.length : Int) ≥ (state.size : Int) - 1

instance (state : State) : Decidable state.full := inferInstanceAs (Decidable (_ ∨ _))

/-- The tests of `log_write`, made without the lock. -/
def logWrite (state : State) (proc op block : Nat) : State :=
  if state.full then state.stop .tooBigATransaction
  else if state.outstanding < 1 then state.stop .logWriteOutsideOfTrans
  else state.setPc proc (.logging op block)

/-- `log_write` has the block in `log.lh.block`: an entry already there absorbs the write. -/
def record (state : State) (proc op block : Nat) : State :=
  { state.setPc proc (.inOp op) with
    lh := if block ∈ state.lh then state.lh else state.lh ++ [block]
    logged := update state.logged op (state.logged op ++ [block]) }

/-- The locked part of `log_write`, which does not test again that there is room. -/
def append (state : State) (proc op block : Nat) : State :=
  if block ∈ state.lh ∨ state.lh.length < logSize then state.record proc op block
  else state.stop .overrun

/-- The locked part of `end_op`. -/
def endOp (state : State) (proc : Nat) : State :=
  let state := { state with outstanding := state.outstanding - 1 }
  if state.committing then state.stop .logCommitting
  else if state.outstanding = 0 then
    { state.setPc proc (.committing .writeLog) with committing := true }
  else (state.setPc proc .idle).wakeup

/-- One phase of `commit`; the last one clears `log.committing` under the lock. -/
def commitPhase (state : State) (proc : Nat) : CommitPhase → State
  | .writeLog =>
    if state.lh.length > 0 then state.setPc proc (.committing .writeHead)
    else state.setPc proc (.committing .finish)
  | .writeHead =>
    { state.setPc proc (.committing .installTrans) with commits := state.commits ++ [state.lh] }
  | .installTrans => state.setPc proc (.committing .clear)
  | .clear => { state.setPc proc (.committing .eraseHead) with lh := [] }
  | .eraseHead => state.setPc proc (.committing .finish)
  | .finish => ({ state.setPc proc .idle with committing := false }).wakeup

end State

/-- Run one section; `none` when the process is not there, or the kernel has stopped. -/
def step (state : State) : Event → Option State
  | .call proc =>
    match state.panic, state.pc proc with
    | none, .idle => some (state.setPc proc .beginOp)
    | _, _ => none
  | .beginOp proc =>
    match state.panic, state.pc proc with
    | none, .beginOp => some (state.beginOp proc)
    | _, _ => none
  | .logWrite proc block =>
    match state.panic, state.pc proc with
    | none, .inOp op => some (state.logWrite proc op block)
    | _, _ => none
  | .append proc =>
    match state.panic, state.pc proc with
    | none, .logging op block => some (state.append proc op block)
    | _, _ => none
  | .endOp proc =>
    match state.panic, state.pc proc with
    | none, .inOp _ => some (state.endOp proc)
    | _, _ => none
  | .commit proc =>
    match state.panic, state.pc proc with
    | none, .committing phase => some (state.commitPhase proc phase)
    | _, _ => none

/-- The log of a kernel whose superblock has `nlog = size`. -/
def system (size : Nat) : System State Event where
  initial := fun state => state = initlog size
  step := step

end Xv6Simplesh.Log
