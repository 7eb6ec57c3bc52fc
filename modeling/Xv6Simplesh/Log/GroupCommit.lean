import Xv6Simplesh.Log.Operations

/-! # Group commit

Operations of many processes share a transaction, and the transaction commits
only when none of them is in progress.  `Transition` lists what one section can
do; every invariant below is proved from that list.
-/

namespace Xv6Simplesh.Log

open Library Function

/-! ## What a step can do -/

/-- The operation a process is executing, if any. -/
def Pc.op : Pc → Option Nat
  | .inOp op => some op
  | .logging op _ => some op
  | _ => none

/-- The cases of `step`, one for each path through the code. -/
inductive Transition (state : State) : Event → State → Prop where
  | call (proc : Nat) (loc : state.pc proc = .idle) :
      Transition state (.call proc) (state.setPc proc .beginOp)
  | wait (proc : Nat) (loc : state.pc proc = .beginOp) :
      Transition state (.beginOp proc) (state.setPc proc .sleeping)
  | enter (proc : Nat) (loc : state.pc proc = .beginOp) (calm : state.committing = false)
      (room : (state.lh.length : Int) + (state.outstanding + 1) * maxOpBlocks ≤ logSize) :
      Transition state (.beginOp proc) (state.enter proc)
  | overflow (proc op block : Nat) (loc : state.pc proc = .inOp op) (full : state.full) :
      Transition state (.logWrite proc block) (state.stop .tooBigATransaction)
  | outside (proc op block : Nat) (loc : state.pc proc = .inOp op)
      (none : state.outstanding < 1) :
      Transition state (.logWrite proc block) (state.stop .logWriteOutsideOfTrans)
  | tested (proc op block : Nat) (loc : state.pc proc = .inOp op) (room : ¬ state.full) :
      Transition state (.logWrite proc block) (state.setPc proc (.logging op block))
  | append (proc op block : Nat) (loc : state.pc proc = .logging op block)
      (room : block ∈ state.lh ∨ state.lh.length < logSize) :
      Transition state (.append proc) (state.record proc op block)
  | overrun (proc op block : Nat) (loc : state.pc proc = .logging op block)
      (full : ¬ (block ∈ state.lh ∨ state.lh.length < logSize)) :
      Transition state (.append proc) (state.stop .overrun)
  | endBusy (proc op : Nat) (loc : state.pc proc = .inOp op) (busy : state.committing = true) :
      Transition state (.endOp proc)
        ({ state with outstanding := state.outstanding - 1 }.stop .logCommitting)
  | endLast (proc op : Nat) (loc : state.pc proc = .inOp op) (calm : state.committing = false)
      (last : state.outstanding - 1 = 0) :
      Transition state (.endOp proc)
        { state.setPc proc (.committing .writeLog) with
          outstanding := state.outstanding - 1, committing := true }
  | endOther (proc op : Nat) (loc : state.pc proc = .inOp op) (calm : state.committing = false)
      (others : state.outstanding - 1 ≠ 0) :
      Transition state (.endOp proc)
        ({ state.setPc proc .idle with outstanding := state.outstanding - 1 }.wakeup)
  | commit (proc : Nat) (phase : CommitPhase) (loc : state.pc proc = .committing phase) :
      Transition state (.commit proc) (state.commitPhase proc phase)

variable {next state : State} {event : Event} {proc : Nat} {loc : Pc}

theorem step_transition (taken : step state event = some next) :
    state.panic = none ∧ Transition state event next := by
  cases running : state.panic with
  | some panic => cases event <;> simp [step, running] at taken
  | none =>
    refine ⟨rfl, ?_⟩
    cases event with
    | call proc =>
      cases loc : state.pc proc <;> simp only [step, running, loc] at taken <;> cases taken
      exact .call proc loc
    | beginOp proc =>
      cases loc : state.pc proc <;> simp only [step, running, loc] at taken <;> cases taken
      rw [State.beginOp]
      split
      · exact .wait proc loc
      · next calm =>
        split
        · exact .wait proc loc
        · next room => exact .enter proc loc (by simpa using calm) (by omega)
    | logWrite proc block =>
      cases loc : state.pc proc <;> simp only [step, running, loc] at taken <;> cases taken
      rw [State.logWrite]
      split
      · next full => exact .overflow proc _ block loc full
      · next room =>
        split
        · next none => exact .outside proc _ block loc none
        · exact .tested proc _ block loc room
    | append proc =>
      cases loc : state.pc proc <;> simp only [step, running, loc] at taken <;> cases taken
      rw [State.append]
      split
      · next room => exact .append proc _ _ loc room
      · next full => exact .overrun proc _ _ loc full
    | endOp proc =>
      cases loc : state.pc proc <;> simp only [step, running, loc] at taken <;> cases taken
      simp only [State.endOp]
      split
      · next busy => exact .endBusy proc _ loc busy
      · next calm =>
        have calm : state.committing = false := by simpa using calm
        split
        · next last => exact .endLast proc _ loc calm last
        · next others => exact .endOther proc _ loc calm others
    | commit proc =>
      cases loc : state.pc proc <;> simp only [step, running, loc] at taken <;> cases taken
      exact .commit proc _ loc

/-! ## Counting the operations in progress -/

/-- `count` processes are inside an operation. -/
def Counted (pc : Nat → Pc) (count : Int) : Prop :=
  ∃ active : Finset Nat, (∀ proc, proc ∈ active ↔ (pc proc).op ≠ none) ∧ count = active.card

namespace Counted

variable {pc pc' : Nat → Pc} {count : Int} {proc : Nat} {loc : Pc}

section

variable (counted : Counted pc count)

include counted

theorem congr (same : ∀ proc, (pc' proc).op = (pc proc).op) : Counted pc' count := by
  obtain ⟨active, mem, card⟩ := counted
  exact ⟨active, fun proc => by rw [mem, same], card⟩

theorem replace (same : loc.op ≠ none ↔ (pc proc).op ≠ none) : Counted (update pc proc loc) count := by
  obtain ⟨active, mem, card⟩ := counted
  refine ⟨active, fun other => ?_, card⟩
  by_cases here : other = proc
  · subst here
    rw [mem, update_self, same]
  · rw [mem, update_of_ne here]

theorem enter (out : (pc proc).op = none) (inside : loc.op ≠ none) : Counted (update pc proc loc) (count + 1) := by
  obtain ⟨active, mem, card⟩ := counted
  have absent : proc ∉ active := by simp [mem, out]
  refine ⟨insert proc active, fun other => ?_, ?_⟩
  · by_cases here : other = proc
    · subst here
      simp [inside]
    · simp [here, mem]
  · rw [Finset.card_insert_of_notMem absent, card]
    push_cast
    rfl

theorem leave (inside : (pc proc).op ≠ none) (out : loc.op = none) : Counted (update pc proc loc) (count - 1) := by
  obtain ⟨active, mem, card⟩ := counted
  have present : proc ∈ active := (mem proc).mpr inside
  refine ⟨active.erase proc, fun other => ?_, ?_⟩
  · by_cases here : other = proc
    · subst here
      simp [out]
    · simp [here, mem]
  · have positive : 0 < active.card := Finset.card_pos.mpr ⟨proc, present⟩
    rw [Finset.card_erase_of_mem present, card]
    omega

theorem pos (inside : (pc proc).op ≠ none) : 1 ≤ count := by
  obtain ⟨active, mem, rfl⟩ := counted
  have positive : 0 < active.card := Finset.card_pos.mpr ⟨proc, (mem proc).mpr inside⟩
  omega

end

end Counted

theorem op_wakeup (state : State) (proc : Nat) : (state.wakeup.pc proc).op = (state.pc proc).op := by
  simp only [State.wakeup]
  split
  · next asleep => rw [asleep]; rfl
  · rfl

theorem wakeup_committing {phase : CommitPhase}
    (loc : state.wakeup.pc proc = .committing phase) : state.pc proc = .committing phase := by
  simp only [State.wakeup] at loc
  split at loc
  · cases loc
  · exact loc

/-- Moving a process elsewhere puts nobody into `commit`. -/
theorem setPc_committing {other : Nat} {phase : CommitPhase} (free : ∀ phase, loc ≠ .committing phase)
    (there : (state.setPc proc loc).pc other = .committing phase) : state.pc other = .committing phase := by
  by_cases here : other = proc
  · subst here
    simp only [State.setPc, update_self] at there
    exact absurd there (free phase)
  · simpa only [State.setPc, update_of_ne here] using there

/-! ## Control: who may be where -/

/-- `log.outstanding` counts the operations in progress, and the one process in
`commit` holds `log.committing` while there are none. -/
structure Control (state : State) : Prop where
  counted : Counted state.pc state.outstanding
  quiet : state.committing = true → state.outstanding = 0
  committer : ∀ proc phase, state.pc proc = .committing phase → state.committing = true
  single : ∀ proc other phase phase', state.pc proc = .committing phase →
    state.pc other = .committing phase' → proc = other
  noPanic : state.panic ≠ some .logCommitting

/-- Between commits it is enough to count the operations and see nobody in `commit`. -/
theorem control_of_calm (counted : Counted state.pc state.outstanding) (calm : state.committing = false)
    (elsewhere : ∀ proc phase, state.pc proc ≠ .committing phase)
    (noPanic : state.panic ≠ some .logCommitting) : Control state where
  counted := counted
  quiet := by
    intro busy
    rw [calm] at busy
    cases busy
  committer := fun proc phase there => absurd there (elsewhere proc phase)
  single := fun proc _ phase _ there => absurd there (elsewhere proc phase)
  noPanic := noPanic

theorem update_ne_committing {pc : Nat → Pc} (free : ∀ phase, loc ≠ .committing phase)
    (others : ∀ other phase, other ≠ proc → pc other ≠ .committing phase) (other : Nat)
    (phase : CommitPhase) : update pc proc loc other ≠ .committing phase := by
  by_cases here : other = proc
  · subst here
    rw [update_self]
    exact free phase
  · rw [update_of_ne here]
    exact others other phase here

theorem control_initlog (size : Nat) : Control (initlog size) :=
  control_of_calm ⟨∅, by simp [initlog, Pc.op], rfl⟩ rfl nofun nofun

section

variable {state : State} (control : Control state)

include control

theorem Control.op_eq_none (busy : state.committing = true) (proc : Nat) : (state.pc proc).op = none := by
  by_contra inside
  have := control.counted.pos inside
  have := control.quiet busy
  omega

/-- A process that is not the committer moves to another place that is not. -/
theorem Control.setPc (same : loc.op ≠ none ↔ (state.pc proc).op ≠ none)
    (free : ∀ phase, loc ≠ .committing phase) : Control (state.setPc proc loc) where
  counted := control.counted.replace same
  quiet := control.quiet
  committer := fun other phase there => control.committer other phase (setPc_committing free there)
  single := fun first snd phase phase' there there' =>
    control.single first snd phase phase' (setPc_committing free there) (setPc_committing free there')
  noPanic := control.noPanic

theorem Control.nextPhase {phase next : CommitPhase} (loc : state.pc proc = .committing phase) :
    Control (state.setPc proc (.committing next)) where
  counted := control.counted.replace (by rw [loc]; simp [Pc.op])
  quiet := control.quiet
  committer := fun _ _ _ => control.committer proc phase loc
  single := by
    have only : ∀ other phase', (state.setPc proc (.committing next)).pc other = .committing phase' →
        other = proc := by
      intro other phase' there
      by_contra elsewhere
      simp only [State.setPc, update_of_ne elsewhere] at there
      exact elsewhere (control.single other proc phase' phase there loc)
    intro first snd phase phase' there there'
    rw [only _ _ there, only _ _ there']
  noPanic := control.noPanic

theorem Control.wakeup : Control state.wakeup where
  counted := control.counted.congr (op_wakeup state)
  quiet := control.quiet
  committer := fun proc phase loc => control.committer proc phase (wakeup_committing loc)
  single := fun proc other phase phase' loc loc' =>
    control.single proc other phase phase' (wakeup_committing loc) (wakeup_committing loc')
  noPanic := control.noPanic

theorem Control.no_committer (calm : state.committing = false)
    (proc : Nat) (phase : CommitPhase) : state.pc proc ≠ .committing phase := by
  intro there
  rw [control.committer proc phase there] at calm
  cases calm

end

theorem Control.step (control : Control state) (transition : Transition state event next) : Control next := by
  cases transition with
  | call proc loc => exact control.setPc (by rw [loc]; simp [Pc.op]) nofun
  | wait proc loc => exact control.setPc (by rw [loc]; simp [Pc.op]) nofun
  | enter proc loc calm room =>
    exact control_of_calm (control.counted.enter (by rw [loc]; rfl) (by simp [Pc.op])) calm
      (update_ne_committing nofun fun other phase _ => control.no_committer calm other phase)
      control.noPanic
  | overflow | outside | overrun =>
    exact ⟨control.counted, control.quiet, control.committer, control.single, nofun⟩
  | tested proc op block loc room =>
    exact control.setPc (by rw [loc]; simp [Pc.op]) nofun
  | append proc op block loc room =>
    have moved : Control (state.setPc proc (.inOp op)) :=
      control.setPc (by rw [loc]; simp [Pc.op]) nofun
    exact ⟨moved.counted, moved.quiet, moved.committer, moved.single, moved.noPanic⟩
  | endBusy proc op loc busy =>
    -- the panic in `end_op`: no operation can be in progress while a commit runs
    have none := control.op_eq_none busy proc
    rw [loc] at none
    cases none
  | endLast proc op loc calm last =>
    refine ⟨?_, fun _ => last, fun _ _ _ => rfl, ?_, control.noPanic⟩
    · exact control.counted.leave (by rw [loc]; simp [Pc.op]) rfl
    · have only : ∀ other phase,
          update state.pc proc (.committing .writeLog) other = .committing phase →
            other = proc := by
        intro other phase there
        by_contra here
        rw [update_of_ne here] at there
        exact control.no_committer calm other phase there
      intro first snd phase phase' there there'
      rw [only _ _ there, only _ _ there']
  | endOther proc op loc calm others =>
    have moved : Control { state.setPc proc .idle with outstanding := state.outstanding - 1 } :=
      control_of_calm (control.counted.leave (by rw [loc]; simp [Pc.op]) rfl) calm
        (update_ne_committing nofun fun other phase _ => control.no_committer calm other phase)
        control.noPanic
    exact moved.wakeup
  | commit proc phase loc =>
    cases phase with
    | writeLog =>
      simp only [State.commitPhase]
      split
      · exact control.nextPhase loc
      · exact control.nextPhase loc
    | writeHead =>
      have moved : Control (state.setPc proc (.committing .installTrans)) := control.nextPhase loc
      exact ⟨moved.counted, moved.quiet, moved.committer, moved.single, moved.noPanic⟩
    | installTrans => exact control.nextPhase loc
    | clear =>
      have moved : Control (state.setPc proc (.committing .eraseHead)) := control.nextPhase loc
      exact ⟨moved.counted, moved.quiet, moved.committer, moved.single, moved.noPanic⟩
    | eraseHead => exact control.nextPhase loc
    | finish =>
      -- the committer was the only process in `commit`
      have alone : ∀ other phase, other ≠ proc → state.pc other ≠ .committing phase :=
        fun other phase apart there => apart (control.single other proc phase .finish there loc)
      have moved : Control { state.setPc proc .idle with committing := false } :=
        control_of_calm (control.counted.replace (by rw [loc]; simp [Pc.op])) rfl
          (update_ne_committing nofun alone) control.noPanic
      exact moved.wakeup

/-! ## Contents: what the header holds and what has been committed -/

/-- The blocks of an operation are in `log.lh` until the header write that
commits them, and in the entries of that header write ever after.  The commit
that takes them is numbered by the operation's `epoch`. -/
structure Contents (state : State) : Prop where
  nodup : state.lh.Nodup
  numbered : ∀ proc op, (state.pc proc).op = some op → op < state.nextOp
  current : ∀ proc op, (state.pc proc).op = some op → state.epoch op = state.commits.length
  past : ∀ op, op < state.nextOp → state.epoch op ≤ state.commits.length
  pending : ∀ op, op < state.nextOp → state.epoch op = state.commits.length →
    ∀ block ∈ state.logged op, block ∈ state.lh
  settled : ∀ op, op < state.nextOp → state.epoch op < state.commits.length →
    ∃ entries, state.commits[state.epoch op]? = some entries ∧ ∀ block ∈ state.logged op, block ∈ entries
  written : ∀ proc, state.pc proc = .committing .installTrans ∨ state.pc proc = .committing .clear →
    ∀ op, op < state.nextOp → state.epoch op < state.commits.length
  cleared : ∀ proc, state.pc proc = .committing .eraseHead ∨ state.pc proc = .committing .finish →
    state.lh = []
  drained : state.committing = false → state.outstanding = 0 → state.lh = []
  origin : state.committing = false → ∀ block ∈ state.lh,
    ∃ op, op < state.nextOp ∧ state.epoch op = state.commits.length ∧ block ∈ state.logged op

theorem contents_initlog (size : Nat) : Contents (initlog size) where
  nodup := List.nodup_nil
  numbered := nofun
  current := nofun
  past := nofun
  pending := nofun
  settled := nofun
  written := nofun
  cleared := nofun
  drained := fun _ _ => rfl
  origin := nofun

theorem Contents.frame (contents : Contents state)
    (lh : next.lh = state.lh) (history : next.nextOp = state.nextOp ∧ next.logged = state.logged ∧
      next.epoch = state.epoch ∧ next.commits = state.commits)
    (ops : ∀ proc op, (next.pc proc).op = some op → (state.pc proc).op = some op)
    (written : ∀ proc, next.pc proc = .committing .installTrans ∨
        next.pc proc = .committing .clear →
      state.pc proc = .committing .installTrans ∨ state.pc proc = .committing .clear)
    (cleared : ∀ proc, next.pc proc = .committing .eraseHead ∨
      next.pc proc = .committing .finish → state.lh = [])
    (drained : next.committing = false → next.outstanding = 0 → state.lh = [])
    (origin : next.committing = false → state.committing = false ∨ state.lh = []) : Contents next := by
  obtain ⟨nextOp, logged, epoch, commits⟩ := history
  refine ⟨lh ▸ contents.nodup, ?_, ?_, ?_, ?_, ?_, ?_, ?_, ?_, ?_⟩
  · intro proc op inside
    rw [nextOp]
    exact contents.numbered proc op (ops proc op inside)
  · intro proc op inside
    rw [epoch, commits]
    exact contents.current proc op (ops proc op inside)
  · rw [nextOp, epoch, commits]
    exact contents.past
  · rw [nextOp, epoch, commits, logged, lh]
    exact contents.pending
  · rw [nextOp, epoch, commits, logged]
    exact contents.settled
  · rw [nextOp, epoch, commits]
    intro proc there
    exact contents.written proc (written proc there)
  · rw [lh]
    exact cleared
  · rw [lh]
    exact drained
  · rw [nextOp, epoch, commits, logged, lh]
    intro calm
    rcases origin calm with before | empty
    · exact contents.origin before
    · rw [empty]
      nofun

section

variable {state : State} (contents : Contents state)

include contents

/-- A process outside `commit` moves on without entering it or an operation. -/
theorem Contents.setPc (ops : ∀ op, loc.op = some op → (state.pc proc).op = some op)
    (free : ∀ phase, loc ≠ .committing phase) : Contents (state.setPc proc loc) := by
  refine contents.frame rfl ⟨rfl, rfl, rfl, rfl⟩ ?_ ?_ ?_ contents.drained fun calm => Or.inl calm
  · intro other op inside
    by_cases here : other = proc
    · subst here
      simp only [State.setPc, update_self] at inside
      exact ops op inside
    · simpa only [State.setPc, update_of_ne here] using inside
  · exact fun other there => there.imp (setPc_committing free) (setPc_committing free)
  · exact fun other there =>
      contents.cleared other (there.imp (setPc_committing free) (setPc_committing free))

theorem Contents.wakeup : Contents state.wakeup := by
  refine contents.frame rfl ⟨rfl, rfl, rfl, rfl⟩ ?_ ?_ ?_ contents.drained fun calm => Or.inl calm
  · intro proc op inside
    rwa [op_wakeup] at inside
  · exact fun proc there => there.imp wakeup_committing wakeup_committing
  · exact fun proc there => contents.cleared proc (there.imp wakeup_committing wakeup_committing)

/-- `begin_op` admits a new operation, which has logged nothing yet. -/
theorem Contents.enter (control : Control state) (calm : state.committing = false) : Contents (state.enter proc) := by
  -- the history of the operations admitted before is the same
  have epochOld : ∀ op, op < state.nextOp → (state.enter proc).epoch op = state.epoch op :=
    fun op old => update_of_ne (Nat.ne_of_lt old) _ _
  have loggedOld : ∀ op, op < state.nextOp → (state.enter proc).logged op = state.logged op :=
    fun op old => update_of_ne (Nat.ne_of_lt old) _ _
  have epochNew : (state.enter proc).epoch state.nextOp = state.commits.length :=
    update_self _ _ _
  have loggedNew : (state.enter proc).logged state.nextOp = [] := update_self _ _ _
  have split : ∀ op, op < (state.enter proc).nextOp → op < state.nextOp ∨ op = state.nextOp :=
    fun op bound => Nat.lt_or_eq_of_le (Nat.le_of_lt_succ bound)
  have nobody : ∀ other phase, (state.enter proc).pc other ≠ .committing phase :=
    update_ne_committing nofun fun other phase _ => control.no_committer calm other phase
  have opAt : ∀ other op, ((state.enter proc).pc other).op = some op →
      (op < state.nextOp ∧ state.epoch op = state.commits.length) ∨ op = state.nextOp := by
    intro other op inside
    by_cases here : other = proc
    · subst here
      simp only [State.enter, State.setPc, update_self, Pc.op, Option.some.injEq] at inside
      exact Or.inr inside.symm
    · simp only [State.enter, State.setPc, update_of_ne here] at inside
      exact Or.inl ⟨contents.numbered other op inside, contents.current other op inside⟩
  refine ⟨contents.nodup, ?_, ?_, ?_, ?_, ?_, ?_, ?_, ?_, ?_⟩
  · intro other op inside
    change op < state.nextOp + 1
    rcases opAt other op inside with ⟨old, _⟩ | rfl <;> omega
  · intro other op inside
    rcases opAt other op inside with ⟨old, now⟩ | rfl
    · rw [epochOld op old]
      exact now
    · exact epochNew
  · intro op bound
    rcases split op bound with old | rfl
    · rw [epochOld op old]
      exact contents.past op old
    · rw [epochNew]
      exact Nat.le_refl _
  · intro op bound now
    rcases split op bound with old | rfl
    · rw [loggedOld op old]
      rw [epochOld op old] at now
      exact contents.pending op old now
    · rw [loggedNew]
      nofun
  · intro op bound before
    rcases split op bound with old | rfl
    · rw [epochOld op old] at before ⊢
      rw [loggedOld op old]
      exact contents.settled op old before
    · rw [epochNew] at before
      exact absurd before (Nat.lt_irrefl _)
  · intro other there
    exact absurd there (not_or.mpr ⟨nobody other _, nobody other _⟩)
  · intro other there
    exact absurd there (not_or.mpr ⟨nobody other _, nobody other _⟩)
  · intro _ none
    obtain ⟨active, _, card⟩ := control.counted
    change state.outstanding + 1 = 0 at none
    omega
  · intro _ block member
    obtain ⟨op, old, now, logged⟩ := contents.origin calm block member
    refine ⟨op, Nat.lt_succ_of_lt old, ?_, ?_⟩
    · rw [epochOld op old]
      exact now
    · rw [loggedOld op old]
      exact logged

end

theorem mem_absorb {lh : List Nat} {block other : Nat} :
    other ∈ (if block ∈ lh then lh else lh ++ [block]) ↔ other ∈ lh ∨ other = block := by
  split
  · next present =>
    constructor
    · exact Or.inl
    · rintro (member | rfl)
      · exact member
      · exact present
  · simp

theorem nodup_absorb {lh : List Nat} (nodup : lh.Nodup) (block : Nat) :
    (if block ∈ lh then lh else lh ++ [block]).Nodup := by
  split
  · exact nodup
  · next absent =>
    rw [List.nodup_append]
    refine ⟨nodup, List.nodup_singleton block, ?_⟩
    rintro a member b single rfl
    rw [List.mem_singleton.mp single] at member
    exact absent member

/-- The locked part of `log_write` records the block for its operation. -/
theorem Contents.record (contents : Contents state) (control : Control state)
    {op block : Nat} (loc : state.pc proc = .logging op block) : Contents (state.record proc op block) := by
  have inside : (state.pc proc).op = some op := by rw [loc]; rfl
  have calm : state.committing = false := by
    cases busy : state.committing with
    | false => rfl
    | true => rw [control.op_eq_none busy proc] at inside; cases inside
  have nobody : ∀ other phase, (state.record proc op block).pc other ≠ .committing phase :=
    update_ne_committing nofun fun other phase _ => control.no_committer calm other phase
  have opAt : ∀ other op', ((state.record proc op block).pc other).op = some op' →
      ∃ other, (state.pc other).op = some op' := by
    intro other op' there
    by_cases here : other = proc
    · subst here
      simp only [State.record, State.setPc, update_self] at there
      exact ⟨other, by rw [inside]; exact there⟩
    · simp only [State.record, State.setPc, update_of_ne here] at there
      exact ⟨other, there⟩
  have loggedAt : ∀ op' b, b ∈ (state.record proc op block).logged op' →
      b ∈ state.logged op' ∨ (op' = op ∧ b = block) := by
    intro op' b member
    by_cases same : op' = op
    · subst same
      simp only [State.record, update_self, List.mem_append, List.mem_singleton] at member
      exact member.imp_right fun equal => ⟨rfl, equal⟩
    · simp only [State.record, update_of_ne same] at member
      exact Or.inl member
  have loggedSub : ∀ op' b, b ∈ state.logged op' → b ∈ (state.record proc op block).logged op' := by
    intro op' b member
    by_cases same : op' = op
    · subst same
      simp only [State.record, update_self, List.mem_append]
      exact Or.inl member
    · simpa only [State.record, update_of_ne same] using member
  refine ⟨nodup_absorb contents.nodup block, ?_, ?_, contents.past, ?_, ?_, ?_, ?_, ?_, ?_⟩
  · intro other op' there
    obtain ⟨before, there⟩ := opAt other op' there
    exact contents.numbered before op' there
  · intro other op' there
    obtain ⟨before, there⟩ := opAt other op' there
    exact contents.current before op' there
  · intro op' bound now b member
    rw [State.record, mem_absorb]
    rcases loggedAt op' b member with old | ⟨_, equal⟩
    · exact Or.inl (contents.pending op' bound now b old)
    · exact Or.inr equal
  · intro op' bound before
    obtain ⟨entries, commit, all⟩ := contents.settled op' bound before
    refine ⟨entries, commit, fun b member => ?_⟩
    rcases loggedAt op' b member with old | ⟨rfl, _⟩
    · exact all b old
    · -- the operation is still open, so its commit is yet to come
      have now := contents.current proc op' inside
      have before : state.epoch op' < state.commits.length := before
      omega
  · intro other there
    exact absurd there (not_or.mpr ⟨nobody other _, nobody other _⟩)
  · intro other there
    exact absurd there (not_or.mpr ⟨nobody other _, nobody other _⟩)
  · intro _ none
    have positive : 1 ≤ state.outstanding := control.counted.pos (by rw [inside]; simp)
    have none : state.outstanding = 0 := none
    omega
  · intro _ b member
    rw [State.record, mem_absorb] at member
    rcases member with old | rfl
    · obtain ⟨op', bound, now, logged⟩ := contents.origin calm b old
      exact ⟨op', bound, now, loggedSub op' b logged⟩
    · refine ⟨op, contents.numbered proc op inside, contents.current proc op inside, ?_⟩
      simp [State.record]

theorem Contents.leave (contents : Contents state) (control : Control state) (calm : state.committing = false) (others : state.outstanding - 1 ≠ 0) :
    Contents { state.setPc proc .idle with outstanding := state.outstanding - 1 } := by
  have nobody : ∀ other phase, (state.setPc proc .idle).pc other ≠ .committing phase :=
    update_ne_committing nofun fun other phase _ => control.no_committer calm other phase
  refine contents.frame rfl ⟨rfl, rfl, rfl, rfl⟩ ?_ ?_ ?_ (fun _ none => absurd none others)
    fun calm => Or.inl calm
  · intro other op inside
    by_cases here : other = proc
    · subst here
      simp [State.setPc, Pc.op] at inside
    · simpa [State.setPc, here] using inside
  · intro other there
    exact absurd there (not_or.mpr ⟨nobody other _, nobody other _⟩)
  · intro other there
    exact absurd there (not_or.mpr ⟨nobody other _, nobody other _⟩)

/-- What a phase of `commit` has to find in the header and the history. -/
def PhaseReady (state : State) : CommitPhase → Prop
  | .installTrans | .clear => ∀ op, op < state.nextOp → state.epoch op < state.commits.length
  | .eraseHead | .finish => state.lh = []
  | .writeLog | .writeHead => True

section

variable {state : State} (contents : Contents state)

include contents

/-- The committer, alone in `commit`, moves to a phase that is ready for it. -/
theorem Contents.phase (busy : state.committing = true) {phase : CommitPhase}
    (alone : ∀ other phase, other ≠ proc → state.pc other ≠ .committing phase)
    (ready : PhaseReady state phase) : Contents (state.setPc proc (.committing phase)) := by
  have only : ∀ other phase', (state.setPc proc (.committing phase)).pc other = .committing phase' →
      phase' = phase := by
    intro other phase' there
    by_cases here : other = proc
    · subst here
      simp only [State.setPc, update_self, Pc.committing.injEq] at there
      exact there.symm
    · simp only [State.setPc, update_of_ne here] at there
      exact absurd there (alone other phase' here)
  have ops : ∀ other op, ((state.setPc proc (.committing phase)).pc other).op = some op →
      (state.pc other).op = some op := by
    intro other op inside
    by_cases here : other = proc
    · subst here
      simp [State.setPc, Pc.op] at inside
    · simpa [State.setPc, here] using inside
  refine ⟨contents.nodup, fun other op inside => contents.numbered other op (ops other op inside),
    fun other op inside => contents.current other op (ops other op inside), contents.past,
    contents.pending, contents.settled, ?_, ?_, ?_, ?_⟩
  · intro other there
    rcases there with there | there <;> have := only other _ there <;> subst this <;> exact ready
  · intro other there
    rcases there with there | there <;> have := only other _ there <;> subst this <;> exact ready
  · intro calm
    exact absurd (busy.symm.trans calm) nofun
  · intro calm
    exact absurd (busy.symm.trans calm) nofun

theorem Contents.writeHead (control : Control state) (loc : state.pc proc = .committing .writeHead) :
    Contents (state.commitPhase proc .writeHead) := by
  have busy := control.committer proc _ loc
  have alone : ∀ other phase, other ≠ proc → state.pc other ≠ .committing phase :=
    fun other phase apart there => apart (control.single other proc phase _ there loc)
  -- the committer is still at the header write: no phase after it is in progress
  have committed : Contents { state with commits := state.commits ++ [state.lh] } := by
    have length : (state.commits ++ [state.lh]).length = state.commits.length + 1 := by simp
    refine ⟨contents.nodup, contents.numbered, ?_, ?_, ?_, ?_, ?_, ?_, contents.drained, ?_⟩
    · intro other op inside
      rw [control.op_eq_none busy other] at inside
      cases inside
    · intro op bound
      have := contents.past op bound
      dsimp only
      omega
    · intro op bound now
      have := contents.past op bound
      dsimp only at now
      omega
    · intro op bound _
      dsimp only
      by_cases now : state.epoch op = state.commits.length
      · refine ⟨state.lh, ?_, contents.pending op bound now⟩
        rw [now, List.getElem?_append_right (Nat.le_refl _), Nat.sub_self]
        rfl
      · have before : state.epoch op < state.commits.length :=
          Nat.lt_of_le_of_ne (contents.past op bound) now
        obtain ⟨entries, commit, all⟩ := contents.settled op bound before
        refine ⟨entries, ?_, all⟩
        rw [List.getElem?_append_left before]
        exact commit
    · intro other _ op bound
      have := contents.past op bound
      dsimp only
      omega
    · exact contents.cleared
    · intro calm
      exact absurd (busy.symm.trans calm) nofun
  refine committed.phase busy alone ?_
  intro op bound
  have := contents.past op bound
  simp only [List.length_append, List.length_singleton]
  omega

/-- `log.lh.n = 0`: everything in the header has been committed. -/
theorem Contents.clear (control : Control state) (loc : state.pc proc = .committing .clear) :
    Contents (state.commitPhase proc .clear) := by
  have busy := control.committer proc _ loc
  have alone : ∀ other phase, other ≠ proc → state.pc other ≠ .committing phase :=
    fun other phase apart there => apart (control.single other proc phase _ there loc)
  have settled := contents.written proc (Or.inr loc)
  have emptied : Contents { state with lh := [] } := by
    refine ⟨List.nodup_nil, contents.numbered, contents.current, contents.past, ?_, contents.settled,
      contents.written, fun _ _ => rfl, fun _ _ => rfl, nofun⟩
    intro op bound now
    have := settled op bound
    dsimp only at now
    omega
  exact emptied.phase busy alone rfl

end

theorem Contents.step (contents : Contents state)
    (control : Control state) (transition : Transition state event next) : Contents next := by
  cases transition with
  | call proc loc => exact contents.setPc nofun nofun
  | wait proc loc => exact contents.setPc nofun nofun
  | enter proc loc calm room => exact contents.enter control calm
  | overflow | outside | overrun =>
    exact contents.frame rfl ⟨rfl, rfl, rfl, rfl⟩ (fun _ _ inside => inside) (fun _ there => there)
      contents.cleared contents.drained fun calm => Or.inl calm
  | tested proc op block loc room =>
    refine contents.setPc ?_ nofun
    intro op' inside
    rw [loc]
    exact inside
  | append proc op block loc room => exact contents.record control loc
  | endBusy proc op loc busy =>
    have none := control.op_eq_none busy proc
    rw [loc] at none
    cases none
  | endLast proc op loc calm last =>
    have nobody := control.no_committer calm
    have begun : Contents { state with outstanding := state.outstanding - 1, committing := true } :=
      contents.frame rfl ⟨rfl, rfl, rfl, rfl⟩ (fun _ _ inside => inside) (fun _ there => there)
        contents.cleared nofun nofun
    exact begun.phase rfl (fun other phase _ => nobody other phase) trivial
  | endOther proc op loc calm others => exact (contents.leave control calm others).wakeup
  | commit proc phase loc =>
    have busy := control.committer proc phase loc
    have alone : ∀ other phase, other ≠ proc → state.pc other ≠ .committing phase :=
      fun other phase' apart there => apart (control.single other proc phase' phase there loc)
    cases phase with
    | writeLog =>
      simp only [State.commitPhase]
      split
      · exact contents.phase busy alone trivial
      · next empty => exact contents.phase busy alone (List.length_eq_zero_iff.mp (by omega))
    | writeHead => exact contents.writeHead control loc
    | installTrans => exact contents.phase busy alone (contents.written proc (Or.inl loc))
    | clear => exact contents.clear control loc
    | eraseHead => exact contents.phase busy alone (contents.cleared proc (Or.inl loc))
    | finish =>
      have empty := contents.cleared proc (Or.inr loc)
      have idle : Contents (state.setPc proc .idle) := contents.setPc nofun nofun
      have done : Contents { state.setPc proc .idle with committing := false } :=
        idle.frame rfl ⟨rfl, rfl, rfl, rfl⟩ (fun _ _ inside => inside) (fun _ there => there)
          idle.cleared (fun _ _ => empty) fun _ => Or.inr empty
      exact done.wakeup

/-- A process is in an operation after a step if it was in it before, or if
`begin_op` has just let it in. -/
theorem Transition.op_cases (transition : Transition state event next) {op : Nat}
    (inside : (next.pc proc).op = some op) :
    (state.pc proc).op = some op ∨ (state.committing = false ∧ op = state.nextOp) := by
  have moved : ∀ other loc, ((state.setPc other loc).pc proc).op = some op →
      (∀ op', loc.op = some op' → (state.pc other).op = some op') →
        (state.pc proc).op = some op := by
    intro other loc there same
    by_cases here : proc = other
    · subst here
      exact same op (by simpa [State.setPc] using there)
    · simpa [State.setPc, here] using there
  cases transition with
  | call other loc => exact Or.inl (moved _ _ inside nofun)
  | wait other loc => exact Or.inl (moved _ _ inside nofun)
  | enter other loc calm room =>
    by_cases here : proc = other
    · subst here
      simp only [State.enter, State.setPc, update_self, Pc.op, Option.some.injEq] at inside
      exact Or.inr ⟨calm, inside.symm⟩
    · simp only [State.enter, State.setPc, update_of_ne here] at inside
      exact Or.inl inside
  | overflow | outside | overrun | endBusy => exact Or.inl inside
  | tested other op' block loc room =>
    exact Or.inl (moved _ _ inside fun op'' same => by rw [loc]; exact same)
  | append other op' block loc room =>
    exact Or.inl (moved other (.inOp op') inside fun op'' same => by rw [loc]; exact same)
  | endLast other op' loc calm last =>
    exact Or.inl (moved other (.committing .writeLog) inside nofun)
  | endOther other op' loc calm others =>
    rw [op_wakeup] at inside
    exact Or.inl (moved other .idle inside nofun)
  | commit other phase loc =>
    left
    cases phase with
    | writeLog =>
      simp only [State.commitPhase] at inside
      split at inside
      · exact moved _ _ inside nofun
      · exact moved _ _ inside nofun
    | writeHead => exact moved other (.committing .installTrans) inside nofun
    | installTrans => exact moved _ _ inside nofun
    | clear => exact moved other (.committing .eraseHead) inside nofun
    | eraseHead => exact moved _ _ inside nofun
    | finish =>
      simp only [State.commitPhase] at inside
      rw [op_wakeup] at inside
      exact moved other .idle inside nofun

/-- No process is in an operation after a step of `commit`. -/
theorem Control.commit_op {phase : CommitPhase} (control : Control state)
    (loc : state.pc proc = .committing phase) (other : Nat) :
    ((state.commitPhase proc phase).pc other).op = none := by
  have busy := control.committer proc phase loc
  cases inside : ((state.commitPhase proc phase).pc other).op with
  | none => rfl
  | some op =>
    rcases (Transition.commit proc phase loc).op_cases inside with before | ⟨calm, -⟩
    · rw [control.op_eq_none busy] at before
      cases before
    · rw [busy] at calm
      cases calm

/-- `commit` admits no operation and logs nothing, changes the header only to clear it, and goes on
until its last phase. -/
theorem commitPhase_frame (state : State) (proc : Nat) (phase : CommitPhase) :
    (state.commitPhase proc phase).logged = state.logged ∧ (state.commitPhase proc phase).nextOp = state.nextOp ∧
    ((state.commitPhase proc phase).lh = state.lh ∨ phase = .clear ∧ (state.commitPhase proc phase).lh = []) ∧
    ((state.commitPhase proc phase).committing = state.committing ∨ phase = .finish) := by
  cases phase with
  | writeLog =>
    simp only [State.commitPhase]
    split <;> exact ⟨rfl, rfl, .inl rfl, .inl rfl⟩
  | clear => exact ⟨rfl, rfl, .inr ⟨rfl, rfl⟩, .inl rfl⟩
  | finish => exact ⟨rfl, rfl, .inl rfl, .inr rfl⟩
  | writeHead | installTrans | eraseHead => exact ⟨rfl, rfl, .inl rfl, .inl rfl⟩

/-! ## Every operation commits whole -/

section

variable {size : Nat} {allowed : State → Event → Prop} {state : State} (reach : (system size).Reachable allowed state)

include reach

theorem control_of_reachable : Control state := by
  refine reach.invariant Control ?_ ?_
  · rintro _ rfl
    exact control_initlog size
  · intro state event next _ control _ taken
    exact control.step (step_transition taken).2

theorem contents_of_reachable : Contents state := by
  refine reach.invariant Contents ?_ ?_
  · rintro _ rfl
    exact contents_initlog size
  · intro state event next before contents _ taken
    exact contents.step (control_of_reachable before) (step_transition taken).2

end

/-- A call of `begin_op` or `log_write` returns in the step from `state` to `next`. -/
def Completes (state next : State) (proc : Nat) : Prop :=
  ∃ op, next.pc proc = .inOp op ∧
    (state.pc proc = .beginOp ∨ ∃ block, state.pc proc = .logging op block)

/-- What group commit guarantees in a state of the log. -/
structure CommitsWhole (state : State) : Prop where
  /-- `commit` runs only while `log.outstanding` is 0. -/
  quiet : ∀ proc phase, state.pc proc = .committing phase → state.outstanding = 0
  /-- No `log_write` or `begin_op` completes while `log.committing` is set. -/
  exclusive : ∀ event next proc, step state event = some next → Completes state next proc →
    state.committing = false ∧ next.committing = false
  /-- The panic in `end_op` has not happened. -/
  noPanic : state.panic ≠ some .logCommitting
  /-- `log.lh.block` has no repeated block number. -/
  nodup : state.lh.Nodup
  /-- No header write has been done since an operation in progress began. -/
  unsplit : ∀ proc op, (state.pc proc).op = some op → state.epoch op = state.commits.length
  /-- Until the next header write, every block of the operation is in `log.lh`. -/
  pending : ∀ op, op < state.nextOp → state.epoch op = state.commits.length →
    ∀ block ∈ state.logged op, block ∈ state.lh
  /-- After it, every block of the operation is in the entries of that one header write. -/
  committed : ∀ op, op < state.nextOp → state.epoch op ≠ state.commits.length →
    ∃ entries, state.commits[state.epoch op]? = some entries ∧ ∀ block ∈ state.logged op, block ∈ entries

theorem commitsWhole_of_reachable {size : Nat} {allowed : State → Event → Prop}
    (reach : (system size).Reachable allowed state) : CommitsWhole state := by
  have control := control_of_reachable reach
  have contents := contents_of_reachable reach
  refine ⟨?_, ?_, control.noPanic, contents.nodup, contents.current, contents.pending, ?_⟩
  · intro proc phase there
    exact control.quiet (control.committer proc phase there)
  · rintro event next proc taken ⟨op, after, _⟩
    have controlNext := control.step (step_transition taken).2
    have calmNext : next.committing = false := by
      cases busy : next.committing with
      | false => rfl
      | true =>
        have none := controlNext.op_eq_none busy proc
        rw [after] at none
        cases none
    refine ⟨?_, calmNext⟩
    have inside : (next.pc proc).op = some op := by rw [after]; rfl
    rcases (step_transition taken).2.op_cases inside with still | entered
    · cases busy : state.committing with
      | false => rfl
      | true => rw [control.op_eq_none busy proc] at still; cases still
    · exact entered.1
  · intro op bound before
    exact contents.settled op bound (Nat.lt_of_le_of_ne (contents.past op bound) before)

end Xv6Simplesh.Log
