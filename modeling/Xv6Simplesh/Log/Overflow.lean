import Xv6Simplesh.Log.GroupCommit

/-! # When `log_write` overflows the log

`begin_op` reserves `maxOpBlocks` entries for each operation and admits as many
as `logSize` entries allow.  `mkfs` makes the log `logSize` blocks long with the
header among them, so one of the reserved entries has no block behind it, and
`log_write` tests for room before it looks for an entry that absorbs the write.
-/

namespace Xv6Simplesh.Log

open Library

/-- The blocks that the operations of the current transaction have logged. -/
def transactionBlocks (state : State) : Finset Nat :=
  ((Finset.range state.nextOp).filter fun op => state.epoch op = state.commits.length).biUnion
    fun op => (state.logged op).toFinset

/-- The operation in which `proc` calls `log_write` logs at most `limit` distinct blocks. -/
def withinBudget (limit : Nat) (state : State) : Event → Prop
  | .logWrite proc block =>
    ∀ op, state.pc proc = .inOp op → (insert block (state.logged op).toFinset).card ≤ limit
  | _ => True

/-- `log_write` is called while fewer than `logSize - 1` blocks are in the transaction. -/
def leavesSlot (state : State) : Event → Prop
  | .logWrite _ _ => (transactionBlocks state).card < logSize - 1
  | _ => True

variable {state : State}

theorem Control.calm_of_inOp (control : Control state) {proc op : Nat}
    (loc : state.pc proc = .inOp op) : state.committing = false := by
  cases busy : state.committing with
  | false => rfl
  | true =>
    have none := control.op_eq_none busy proc
    rw [loc] at none
    cases none

/-- Between commits the header has one entry for each block of the transaction. -/
theorem Contents.length_lh (contents : Contents state) (calm : state.committing = false) :
    state.lh.length = (transactionBlocks state).card := by
  rw [← List.toFinset_card_of_nodup contents.nodup]
  congr 1
  ext block
  simp only [transactionBlocks, List.mem_toFinset, Finset.mem_biUnion, Finset.mem_filter, Finset.mem_range]
  constructor
  · intro mem
    obtain ⟨op, bound, now, logged⟩ := contents.origin calm block mem
    exact ⟨op, ⟨bound, now⟩, logged⟩
  · rintro ⟨op, ⟨bound, now⟩, logged⟩
    exact contents.pending op bound now block logged

theorem size_of_reachable {size : Nat} {allowed : State → Event → Prop}
    (reach : (system size).Reachable allowed state) : state.size = size := by
  refine reach.invariant (fun state => state.size = size) ?_ ?_
  · rintro _ rfl
    rfl
  · intro state event next _ before _ taken
    rw [← before]
    cases (step_transition taken).2 with
    | commit proc phase loc =>
      cases phase with
      | writeLog => simp only [State.commitPhase]; split <;> rfl
      | writeHead | installTrans | clear | eraseHead | finish => rfl
    | call | wait | enter | overflow | outside | tested | append | overrun | endBusy | endLast | endOther => rfl

/-- On the log `mkfs` makes, the first test of `log_write` fails at the last entry. -/
theorem full_iff (size : state.size = logSize) : state.full ↔ logSize - 1 ≤ state.lh.length := by
  have entries : logSize = 30 := rfl
  simp only [State.full, size]
  omega

theorem Transition.panic_tooBig {next : State} {event : Event} (running : state.panic = none)
    (transition : Transition state event next) (panic : next.panic = some .tooBigATransaction) :
    state.full ∧ ∃ proc block op, event = .logWrite proc block ∧ state.pc proc = .inOp op := by
  cases transition with
  | overflow proc op block loc full => exact ⟨full, proc, block, op, rfl, loc⟩
  | commit proc phase loc =>
    cases phase with
    | writeLog =>
      simp only [State.commitPhase] at panic
      split at panic <;> exact absurd (running.symm.trans panic) (by decide)
    | writeHead | installTrans | clear | eraseHead | finish => exact absurd (running.symm.trans panic) (by decide)
  | outside | overrun | endBusy => cases panic
  | call | wait | enter | tested | append | endLast | endOther =>
    exact absurd (running.symm.trans panic) (by decide)

/-- **Exactly when the log overflows.**  Take any run on the log that `mkfs`
makes, with operations of at most `maxOpBlocks` blocks, in which every
`log_write` is called while the transaction has fewer than `logSize - 1` blocks:
the kernel has not stopped for want of log space, and the next `log_write` stops
it if and only if it is called with the transaction at that size. -/
theorem log_overflow_iff {state : State}
    (reach : (system logSize).Reachable
      (fun state event => withinBudget maxOpBlocks state event ∧ leavesSlot state event) state) :
    state.panic ≠ some .tooBigATransaction ∧
      ∀ proc op block, state.panic = none → state.pc proc = .inOp op →
        ((step state (.logWrite proc block)).bind State.panic = some .tooBigATransaction ↔
          ¬ leavesSlot state (.logWrite proc block)) := by
  constructor
  · refine reach.invariant (fun state => state.panic ≠ some .tooBigATransaction) ?_ ?_
    · rintro _ rfl panic
      cases panic
    · intro state event next before _ may taken panic
      obtain ⟨running, transition⟩ := step_transition taken
      obtain ⟨full, proc, block, op, rfl, loc⟩ := transition.panic_tooBig running panic
      have calm := (control_of_reachable before).calm_of_inOp loc
      have room : (transactionBlocks state).card < logSize - 1 := may.2
      rw [full_iff (size_of_reachable before), (contents_of_reachable before).length_lh calm] at full
      exact absurd room (Nat.not_lt.mpr full)
  · intro proc op block running loc
    have calm := (control_of_reachable reach).calm_of_inOp loc
    have crowded : state.full ↔ ¬ leavesSlot state (.logWrite proc block) := by
      rw [full_iff (size_of_reachable reach), (contents_of_reachable reach).length_lh calm]
      exact Nat.not_lt.symm
    rw [← crowded]
    simp only [step, running, loc, Option.bind_some, State.logWrite]
    split
    · next full => exact iff_of_true rfl full
    · next room =>
      refine iff_of_false ?_ room
      split
      · intro panic
        cases panic
      · simp [State.setPc, running]

/-- `withinBudget maxOpBlocks`, as a test. -/
def budgeted (state : State) : Event → Bool
  | .logWrite proc block =>
    match state.pc proc with
    | .inOp op => decide ((insert block (state.logged op).toFinset).card ≤ maxOpBlocks)
    | _ => true
  | _ => true

/-- `leavesSlot`, as a test. -/
def roomy (state : State) : Event → Bool
  | .logWrite _ _ => decide ((transactionBlocks state).card < logSize - 1)
  | _ => true

theorem withinBudget_of_budgeted (state : State) (event : Event) (admitted : budgeted state event = true) :
    withinBudget maxOpBlocks state event := by
  cases event with
  | logWrite proc block =>
    intro op loc
    simpa only [budgeted, loc, decide_eq_true_eq] using admitted
  | call | beginOp | append | endOp | commit => trivial

theorem leavesSlot_of_roomy (state : State) (event : Event) (admitted : roomy state event = true) :
    leavesSlot state event := by
  cases event with
  | logWrite proc block => simpa only [roomy, leavesSlot, decide_eq_true_eq] using admitted
  | call | beginOp | append | endOp | commit => trivial

/-- Three operations are let in together; the first two log ten blocks each, the third nine. -/
def threeOperations : List Event :=
  [.call 0, .beginOp 0, .call 1, .beginOp 1, .call 2, .beginOp 2] ++
    (List.range 29).flatMap fun entry => [.logWrite (entry / 10) (100 + entry), .append (entry / 10)]

/-- The tenth block of the third operation does not fit. -/
theorem log_overflow_threeOperations :
    ∃ state, (system logSize).Reachable (withinBudget maxOpBlocks) state ∧
      state.panic = some .tooBigATransaction := by
  have ran : (system logSize).run budgeted (initlog logSize) (threeOperations ++ [.logWrite 2 129]) =
    some _ := rfl
  exact ⟨_, System.reachable_of_run withinBudget_of_budgeted (.initial rfl) ran, rfl⟩

/-- One operation that logs a block and is about to log another. -/
theorem log_overflow_iff_oneOperation :
    ∃ state, (system logSize).run (fun state event => budgeted state event && roomy state event)
        (initlog logSize) [.call 0, .beginOp 0, .logWrite 0 70, .append 0] = some state ∧
      state.panic ≠ some .tooBigATransaction ∧
      ((step state (.logWrite 0 80)).bind State.panic = some .tooBigATransaction ↔
        ¬ leavesSlot state (.logWrite 0 80)) := by
  have ran : (system logSize).run (fun state event => budgeted state event && roomy state event)
    (initlog logSize) [.call 0, .beginOp 0, .logWrite 0 70, .append 0] = some _ := rfl
  have admitted : ∀ state event, (budgeted state event && roomy state event) = true →
      withinBudget maxOpBlocks state event ∧ leavesSlot state event := by
    intro state event both
    rw [Bool.and_eq_true] at both
    exact ⟨withinBudget_of_budgeted state event both.1, leavesSlot_of_roomy state event both.2⟩
  have exactly := log_overflow_iff (System.reachable_of_run admitted (.initial rfl) ran)
  exact ⟨_, ran, exactly.1, exactly.2 0 0 80 rfl rfl⟩

end Xv6Simplesh.Log
