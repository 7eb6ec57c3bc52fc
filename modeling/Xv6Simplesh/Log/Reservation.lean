import Xv6Simplesh.Log.Overflow

/-! # What `begin_op` reserves

An operation is let in when there is room for `maxOpBlocks` entries for it and for each of those in
progress.  What an operation has not used of its share stays reserved until it ends, in whatever
order the operations log their blocks and although `log_write` makes its tests without `log.lock`.
So operations that keep to their share never store past the end of `log.lh.block`.  Operations that
do not can: several of them may have made the tests before the first stores its block.
-/

namespace Xv6Simplesh.Log

open Library Function

/-- What the operation of a process has left of its `maxOpBlocks` entries. -/
def State.reserve (state : State) (proc : Nat) : Nat :=
  match (state.pc proc).op with
  | some op => maxOpBlocks - (state.logged op).toFinset.card
  | none => 0

structure Reserved (state : State) : Prop where
  distinct : ∀ proc other op, (state.pc proc).op = some op → (state.pc other).op = some op → proc = other
  budget : ∀ proc op block, state.pc proc = .logging op block →
    (insert block (state.logged op).toFinset).card ≤ maxOpBlocks
  reserve : ∀ active : Finset Nat, state.lh.length + ∑ proc ∈ active, state.reserve proc ≤ logSize

variable {state next : State} {event : Event} {proc : Nat}

theorem quiet_setPc {loc : Pc} (out : loc.op = none) (other : Nat) :
    (state.setPc proc loc).pc other = state.pc other ∨
      ((state.setPc proc loc).pc other).op = none := by
  by_cases here : other = proc
  · subst here
    right
    simpa [State.setPc] using out
  · left
    simp [State.setPc, here]

/-- `end_op` when there are other operations in progress. -/
theorem quiet_leave (proc other : Nat) (outstanding : Int) :
    ({ state.setPc proc .idle with outstanding }.wakeup.pc other) = state.pc other ∨
      ({ state.setPc proc .idle with outstanding }.wakeup.pc other).op = none := by
  simp only [State.wakeup]
  split
  · exact .inr rfl
  · exact quiet_setPc rfl other

namespace Reserved

section

variable (res : Reserved state)

include res

/-- A step in which processes at most leave their operations. -/
theorem frame (header : next.lh = state.lh ∨ next.lh = []) (logged : next.logged = state.logged)
    (quiet : ∀ proc, next.pc proc = state.pc proc ∨ (next.pc proc).op = none) : Reserved next := by
  have less : ∀ proc, next.reserve proc ≤ state.reserve proc := by
    intro proc
    simp only [State.reserve, logged]
    rcases quiet proc with same | out
    · rw [same]
    · rw [out]
      exact Nat.zero_le _
  have stays : ∀ proc op, (next.pc proc).op = some op → next.pc proc = state.pc proc := by
    intro proc op inside
    rcases quiet proc with same | out
    · exact same
    · rw [out] at inside
      cases inside
  have shorter : next.lh.length ≤ state.lh.length := by
    rcases header with same | none' <;> simp [*]
  constructor
  · intro proc other op inside inside'
    exact res.distinct proc other op (stays proc op inside ▸ inside) (stays other op inside' ▸ inside')
  · intro proc op block there
    rw [logged]
    exact res.budget proc op block (stays proc op (by rw [there]; rfl) ▸ there)
  · intro active
    have sums := Finset.sum_le_sum fun proc (_ : proc ∈ active) => less proc
    have := res.reserve active
    omega

/-- `begin_op` has counted a full share for every operation in progress, and one more. -/
theorem enter (control : Control state) (contents : Contents state) (loc : state.pc proc = .beginOp)
    (room : (state.lh.length : Int) + (state.outstanding + 1) * maxOpBlocks ≤ logSize) :
    Reserved (state.enter proc) := by
  have other : ∀ {p : Nat}, p ≠ proc → (state.enter proc).pc p = state.pc p := fun apart => by
    simp [State.enter, State.setPc, apart]
  have self : ((state.enter proc).pc proc).op = some state.nextOp := by
    simp [State.enter, State.setPc, Pc.op]
  have fresh : ∀ p op, (state.pc p).op = some op → op ≠ state.nextOp := by
    intro p op inside
    have := contents.numbered p op inside
    omega
  constructor
  · intro p q op inside inside'
    by_cases here : p = proc <;> by_cases here' : q = proc
    · rw [here, here']
    · rw [here, self] at inside
      rw [other here'] at inside'
      exact absurd (Option.some.inj inside).symm (fresh q op inside')
    · rw [here', self] at inside'
      rw [other here] at inside
      exact absurd (Option.some.inj inside').symm (fresh p op inside)
    · rw [other here] at inside
      rw [other here'] at inside'
      exact res.distinct p q op inside inside'
  · intro p op block there
    have apart : p ≠ proc := by
      rintro rfl
      simp [State.enter, State.setPc] at there
    rw [other apart] at there
    have old := fresh p op (by rw [there]; rfl)
    simp only [State.enter, update_of_ne old]
    exact res.budget p op block there
  · intro active
    obtain ⟨inside, mem, card⟩ := control.counted
    have bound : ∑ p ∈ active, (state.enter proc).reserve p ≤ ∑ p ∈ insert proc inside, maxOpBlocks := by
      refine (Finset.sum_le_sum_of_ne_zero (s := active) fun p _ used => ?_).trans
        (Finset.sum_le_sum fun p (_ : p ∈ insert proc inside) => ?_)
      · rw [Finset.mem_insert, mem]
        by_contra out
        rw [not_or, not_not] at out
        simp [State.reserve, other out.1, out.2] at used
      · simp only [State.reserve]
        split
        · exact Nat.sub_le _ _
        · exact Nat.zero_le _
    have absent : proc ∉ inside := by
      rw [mem, loc]
      simp [Pc.op]
    rw [Finset.sum_const_nat fun _ _ => rfl, Finset.card_insert_of_notMem absent] at bound
    have header : (state.enter proc).lh = state.lh := rfl
    have share : maxOpBlocks = 10 := rfl
    rw [share] at bound room
    rw [header]
    omega

variable {block op : Nat}

/-- A block that is new to the header is new to its operation, which has some of its share left. -/
theorem unused (contents : Contents state) (loc : state.pc proc = .logging op block) (absent : block ∉ state.lh) :
    block ∉ (state.logged op).toFinset ∧ (state.logged op).toFinset.card < maxOpBlocks := by
  have inside : (state.pc proc).op = some op := by rw [loc]; rfl
  have new : block ∉ (state.logged op).toFinset := by
    rw [List.mem_toFinset]
    exact fun logged => absent (contents.pending op (contents.numbered proc op inside)
      (contents.current proc op inside) block logged)
  have within := res.budget proc op block loc
  rw [Finset.card_insert_of_notMem new] at within
  exact ⟨new, within⟩

/-- The locked part of `log_write` takes a new entry from the share of its operation. -/
theorem record (contents : Contents state)
    (loc : state.pc proc = .logging op block) : Reserved (state.record proc op block) := by
  have inside : (state.pc proc).op = some op := by rw [loc]; rfl
  have same : ∀ p, ((state.record proc op block).pc p).op = (state.pc p).op := by
    intro p
    by_cases here : p = proc
    · subst here
      simp [State.record, State.setPc, Pc.op, loc]
    · simp [State.record, State.setPc, here]
  have others : ∀ p, p ≠ proc → (state.record proc op block).reserve p = state.reserve p := by
    intro p apart
    simp only [State.reserve, same]
    cases there : (state.pc p).op with
    | none => rfl
    | some op' =>
      have ne : op' ≠ op := by
        rintro rfl
        exact apart (res.distinct p proc op' there inside)
      simp [State.record, ne]
  have after : (state.record proc op block).reserve proc =
      maxOpBlocks - (insert block (state.logged op).toFinset).card := by
    simp only [State.reserve, same, inside]
    simp [State.record]
  have before : state.reserve proc = maxOpBlocks - (state.logged op).toFinset.card := by
    simp only [State.reserve, inside]
  -- a new entry is paid for by the share
  have paid : (state.record proc op block).lh.length + (state.record proc op block).reserve proc ≤
      state.lh.length + state.reserve proc := by
    rw [after, before]
    by_cases known : block ∈ state.lh
    · have grows := Finset.card_le_card (Finset.subset_insert block (state.logged op).toFinset)
      simp only [State.record, if_pos known]
      omega
    · obtain ⟨new, left⟩ := res.unused contents loc known
      rw [Finset.card_insert_of_notMem new]
      simp only [State.record, if_neg known, List.length_append, List.length_singleton]
      omega
  constructor
  · intro p q op' there there'
    rw [same] at there there'
    exact res.distinct p q op' there there'
  · intro p op' block' there
    have apart : p ≠ proc := by
      rintro rfl
      simp [State.record, State.setPc] at there
    have old : state.pc p = .logging op' block' := by simpa [State.record, State.setPc, apart] using there
    have ne : op' ≠ op := by
      rintro rfl
      exact apart (res.distinct p proc op' (by rw [old]; rfl) inside)
    simp only [State.record, update_of_ne ne]
    exact res.budget p op' block' old
  · intro active
    have kept : ∑ p ∈ active.erase proc, (state.record proc op block).reserve p =
        ∑ p ∈ active.erase proc, state.reserve p :=
      Finset.sum_congr rfl fun p member => others p (Finset.ne_of_mem_erase member)
    have wider := Finset.sum_le_sum_of_subset (f := (state.record proc op block).reserve)
      (Finset.subset_insert proc active)
    have whole := res.reserve (insert proc active)
    rw [← Finset.add_sum_erase _ _ (Finset.mem_insert_self proc active), Finset.erase_insert_eq_erase] at whole wider
    rw [kept] at wider
    omega

/-- The share that is left is an entry of `log.lh.block`. -/
theorem room (contents : Contents state)
    (loc : state.pc proc = .logging op block) : block ∈ state.lh ∨ state.lh.length < logSize := by
  by_cases known : block ∈ state.lh
  · exact .inl known
  · have left := (res.unused contents loc known).2
    have whole := res.reserve {proc}
    have share : state.reserve proc = maxOpBlocks - (state.logged op).toFinset.card := by
      rw [State.reserve, loc]
      rfl
    rw [Finset.sum_singleton, share] at whole
    omega

theorem step (control : Control state) (contents : Contents state)
    (may : withinBudget maxOpBlocks state event) (transition : Transition state event next) : Reserved next := by
  cases transition with
  | call proc loc | wait proc loc => exact res.frame (.inl rfl) rfl (quiet_setPc rfl)
  | enter proc loc calm room => exact res.enter control contents loc room
  | overflow | outside | overrun | endBusy => exact res.frame (.inl rfl) rfl fun _ => .inl rfl
  | tested proc op block loc room =>
    have same : ∀ p, ((state.setPc proc (.logging op block)).pc p).op = (state.pc p).op := by
      intro p
      by_cases here : p = proc
      · subst here
        simp [State.setPc, Pc.op, loc]
      · simp [State.setPc, here]
    constructor
    · intro p q op' there there'
      rw [same] at there there'
      exact res.distinct p q op' there there'
    · intro p op' block' there
      by_cases here : p = proc
      · subst here
        simp only [State.setPc, update_self, Pc.logging.injEq] at there
        obtain ⟨rfl, rfl⟩ := there
        exact may op loc
      · exact res.budget p op' block' (by simpa [State.setPc, here] using there)
    · intro active
      simp only [State.reserve, same]
      exact res.reserve active
  | append proc op block loc => exact res.record contents loc
  | endLast proc => exact res.frame (.inl rfl) rfl (quiet_setPc rfl)
  | endOther proc => exact res.frame (.inl rfl) rfl fun other => quiet_leave proc other _
  | commit proc phase loc =>
    obtain ⟨logged, -, header, -⟩ := commitPhase_frame state proc phase
    exact res.frame (header.imp_right And.right) logged fun other => .inr (control.commit_op loc other)

end

theorem initlog (size : Nat) : Reserved (initlog size) := by
  constructor
  · intro proc other op inside
    cases inside
  · intro proc op block there
    cases there
  · intro active
    simp [Log.initlog, State.reserve, Pc.op]

end Reserved

theorem reserved_of_reachable {size : Nat} (reach : (system size).Reachable (withinBudget maxOpBlocks) state) :
    Reserved state := by
  refine reach.invariant Reserved ?_ ?_
  · rintro _ rfl
    exact .initlog size
  · intro state event next before res may taken
    exact res.step (control_of_reachable before) (contents_of_reachable before) may (step_transition taken).2

/-- A store past the end of `log.lh.block` has only one cause. -/
theorem Transition.panic_overrun (running : state.panic = none) (transition : Transition state event next)
    (panic : next.panic = some .overrun) :
    ∃ proc op block, state.pc proc = .logging op block ∧ ¬ (block ∈ state.lh ∨ state.lh.length < logSize) := by
  cases transition with
  | overrun proc op block loc full => exact ⟨proc, op, block, loc, full⟩
  | commit proc phase loc =>
    cases phase with
    | writeLog =>
      simp only [State.commitPhase] at panic
      split at panic <;> exact absurd (running.symm.trans panic) (by decide)
    | writeHead | installTrans | clear | eraseHead | finish => exact absurd (running.symm.trans panic) (by decide)
  | overflow | outside | endBusy => cases panic
  | call | wait | enter | tested | append | endLast | endOther => exact absurd (running.symm.trans panic) (by decide)

/-- **Every operation commits whole**, in any interleaving of operations that keep to the share of the
log that `begin_op` reserves for them; no store goes past the end of `log.lh.block` then.  Operations
that log more commit whole as well, as long as there is no such store. -/
theorem operations_commit_whole {size : Nat} :
    (∀ state, (system size).Reachable (withinBudget maxOpBlocks) state →
      CommitsWhole state ∧ state.panic ≠ some .overrun) ∧
    ∀ state, (system size).Reachable (fun _ _ => True) state → state.panic ≠ some .overrun → CommitsWhole state := by
  refine ⟨fun state reach => ⟨commitsWhole_of_reachable reach, ?_⟩,
    fun state reach _ => commitsWhole_of_reachable reach⟩
  refine reach.invariant (fun state => state.panic ≠ some .overrun) ?_ ?_
  · rintro _ rfl panic
    cases panic
  · intro state event next before _ may taken panic
    obtain ⟨running, transition⟩ := step_transition taken
    obtain ⟨proc, op, block, loc, full⟩ := transition.panic_overrun running panic
    exact full ((reserved_of_reachable before).room (contents_of_reachable before) loc)

/-- Two processes whose operations overlap, up to the header write. -/
def overlapping : List Event :=
  [.call 0, .beginOp 0, .call 1, .beginOp 1, .logWrite 0 70, .append 0, .endOp 0, .logWrite 1 80, .append 1,
    .logWrite 1 70, .append 1, .endOp 1, .commit 1, .commit 1]

theorem operations_commit_whole_overlapping :
    ∃ state, (system logSize).run budgeted (initlog logSize) overlapping = some state ∧
      state.commits = [[70, 80]] ∧ CommitsWhole state := by
  have ran : (system logSize).run budgeted (initlog logSize) overlapping = some _ := rfl
  exact ⟨_, ran, rfl, (operations_commit_whole.1 _
    (System.reachable_of_run withinBudget_of_budgeted (.initial rfl) ran)).1⟩

/-- Three operations are let in; the first logs 28 blocks, and then each of them makes the tests for
one more block before any of these is stored. -/
def crowding : List Event :=
  [.call 0, .beginOp 0, .call 1, .beginOp 1, .call 2, .beginOp 2] ++
    ((List.range 28).flatMap fun entry => [.logWrite 0 (100 + entry), .append 0]) ++
    [.logWrite 0 200, .logWrite 1 201, .logWrite 2 202, .append 0, .append 1, .append 2]

set_option maxRecDepth 1000 in
/-- Without the share, `log_write` stores past the end of `log.lh.block`, which does not get the block. -/
theorem log_overrun_crowding :
    ∃ state, (system logSize).Reachable (fun _ _ => True) state ∧ state.panic = some .overrun ∧
      state.pc 2 = .logging 2 202 ∧ state.lh.length = logSize ∧ 202 ∉ state.lh := by
  have ran : (system logSize).run (fun _ _ => true) (initlog logSize) crowding = some _ := rfl
  exact ⟨_, System.reachable_of_run (fun _ _ _ => trivial) (.initial rfl) ran, rfl, rfl, rfl, by decide⟩

end Xv6Simplesh.Log
