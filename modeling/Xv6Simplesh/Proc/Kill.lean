import Xv6Simplesh.Proc.Family

/-! # Processes that are born killed

`kill` looks for a number and not at the state of the slot, and `killed` is reset by `wait`
only.  An unused slot has number 0, or that of the last `fork` that failed in it, so `kill`
can mark a slot that no process is in, and a `fork` that fails leaves the mark of its child
behind; the next child in the slot is born killed.  Without these two, the mark of a child
comes from a `kill` with its own number.
-/

namespace Xv6Simplesh.Ptable

open Library
open Vm (ProcState Switches)

/-- `kill` has a number that no unused slot has, and no `fork` fails whose child is marked. -/
def Spares (t : Table) : Event → Prop
  | .kill _ pid => ∀ q, (t.procs q).state = .unused → (t.procs q).pid ≠ pid
  | .stack p false => ∀ np, (t.procs p).phase = .forkStack np → (t.procs np).killed = false
  | .copy p false => ∀ np, (t.procs p).phase = .forkCopy np → (t.procs np).killed = false
  | _ => True

instance (t : Table) (event : Event) : Decidable (Spares t event) :=
  match event with
  | .kill _ pid => inferInstanceAs (Decidable (∀ q, (t.procs q).state = .unused → (t.procs q).pid ≠ pid))
  | .stack p false =>
    inferInstanceAs (Decidable (∀ np, (t.procs p).phase = .forkStack np → (t.procs np).killed = false))
  | .copy p false =>
    inferInstanceAs (Decidable (∀ np, (t.procs p).phase = .forkCopy np → (t.procs np).killed = false))
  | .stack _ true | .copy _ true | .fork _ | .publish _ | .exit _ | .wait _ | .switch _ _ => .isTrue trivial

/-! ## Marks -/

/-- The mark of a slot has a cause, with the numbers of the forks that failed. -/
structure Proc.Clean (failed : List Int) (proc : Proc) : Prop where
  unused : proc.state = .unused → proc.killed = false ∧ (proc.pid = 0 ∨ proc.pid ∈ failed)
  embryo : proc.state = .embryo → proc.killed = true → proc.pid ∈ proc.kills

theorem Proc.clean_of_settled {failed : List Int} {proc : Proc} (used : proc.state ≠ .unused)
    (born : proc.state ≠ .embryo) : proc.Clean failed := ⟨fun h => absurd h used, fun h => absurd h born⟩

def Clean (t : Table) : Prop := ∀ q, (t.procs q).Clean t.failed

namespace Clean

variable {t : Table} {p np : Fin nproc}

section

variable (clean : Clean t)

include clean

theorem setProc {proc : Proc} (changed : proc.Clean t.failed) : Clean (t.setProc p proc) := by
  intro q
  simp only [Table.setProc, Function.update_apply]
  split
  · exact changed
  · exact clean q

theorem setPhase (phase : Phase) : Clean (t.setPhase p phase) :=
  clean.setProc ⟨(clean p).unused, (clean p).embryo⟩

theorem found (unused : (t.procs np).state = .unused) : Clean (t.found p np) := by
  have unmarked := ((clean np).unused unused).1
  exact clean.setProc (p := np) ⟨nofun, fun _ killed => absurd (unmarked.symm.trans killed) nofun⟩

theorem forkFail (unmarked : (t.procs np).killed = false) : Clean (t.forkFail p np) := by
  have more : Clean { t with failed := (t.procs np).pid :: t.failed } := fun q =>
    ⟨fun unused => ((clean q).unused unused).imp_right (.imp_right (List.mem_cons_of_mem _)), (clean q).embryo⟩
  have freed : Proc.Clean ((t.procs np).pid :: t.failed) { t.procs np with state := .unused } :=
    ⟨fun _ => ⟨unmarked, .inr (.head _)⟩, nofun⟩
  exact (more.setProc (p := np) freed).setPhase .user

theorem wakeup1 : Clean (t.wakeup1 p) := by
  intro q
  simp only [Table.wakeup1, Table.mapProcs]
  split
  · exact Proc.clean_of_settled (fun same => by cases same) fun same => by cases same
  · exact clean q

theorem abandonChildren : Clean (t.abandonChildren p) := by
  intro q
  simp only [Table.abandonChildren, Table.mapProcs]
  split
  · exact ⟨(clean q).unused, (clean q).embryo⟩
  · exact clean q

theorem exit : Clean (t.exit p) := by
  have woken : Clean (t.wakeupParent p) := by
    unfold Table.wakeupParent
    split
    · exact clean
    · exact clean.wakeup1
  have passed : Clean ((t.wakeupParent p).reparent p) := by
    unfold Table.reparent
    split
    · exact woken.abandonChildren.wakeup1
    · exact woken.abandonChildren
  exact passed.setProc (p := p) (Proc.clean_of_settled nofun nofun)

theorem reap {q : Fin nproc} : Clean (t.reap p q) := by
  have freed : Proc.Clean t.failed { t.procs q with state := .unused, pid := 0, parent := none, killed := false } :=
    ⟨fun _ => ⟨rfl, .inl rfl⟩, nofun⟩
  exact (clean.setProc (p := q) freed).setPhase .user

end

end Clean

variable {t : Table} {pid : Int}

theorem Table.target_eq_some {q : Fin nproc} (found : t.target pid = some q) : (t.procs q).pid = pid := by
  simpa using List.find?_some found

theorem Clean.kill (clean : Clean t)
    (spared : ∀ q, (t.procs q).state = .unused → (t.procs q).pid ≠ pid) : Clean (t.kill pid).2 := by
  have recorded : Clean (t.mapProcs fun _ proc => { proc with kills := pid :: proc.kills }) :=
    fun q => ⟨(clean q).unused, fun embryo killed => .tail _ ((clean q).embryo embryo killed)⟩
  unfold Table.kill
  cases found : t.target pid with
  | none => exact recorded
  | some q =>
    have number := t.target_eq_some found
    refine recorded.setProc (p := q) ⟨fun unused => ?_, fun _ _ => ?_⟩
    · -- The slot that `kill` finds is in use, asleep or not.
      refine absurd number (spared q ?_)
      revert unused
      simp only [Table.mapProcs]
      cases (t.procs q).state <;> simp [Table.wake]
    · rw [← number]
      exact .head _

theorem clean_step {t' : Table} {event : Event} (clean : Clean t) (spares : Spares t event)
    (taken : t.step event = some t') : Clean t' := by
  cases transition_of_step taken with
  | full => exact clean
  | found running user unused => exact (clean.found unused).setPhase _
  | stack running forking => exact clean.setPhase _
  | stackFail running forking => exact clean.forkFail (spares _ forking)
  | @copy p np running forking =>
    have adopted : Proc.Clean t.failed { t.procs np with parent := some p } :=
      ⟨(clean np).unused, (clean np).embryo⟩
    exact (clean.setProc (p := np) adopted).setPhase _
  | copyFail running forking => exact clean.forkFail (spares _ forking)
  | @publish p np running forking =>
    have born : Proc.Clean t.failed { t.procs np with state := .runnable, phase := .user } :=
      Proc.clean_of_settled nofun nofun
    exact (clean.setProc (p := np) born).setPhase _
  | exit running user notInit => exact clean.exit
  | reap running idle dead => exact clean.reap
  | giveUp idle => exact clean.setPhase _
  | sleep running idle => exact clean.setProc (Proc.clean_of_settled nofun nofun)
  | kill => exact clean.kill spares
  | @switch p state switches =>
    refine clean.setProc (Proc.clean_of_settled ?_ ?_)
    · rintro rfl
      revert switches
      cases (t.procs p).state <;> simp [Switches]
    · rintro rfl
      revert switches
      cases (t.procs p).state <;> simp [Switches]

theorem clean_boot : Clean boot := by
  intro q
  by_cases init : q = 0
  · subst init
    exact Proc.clean_of_settled (by decide) (by decide)
  · have unused : boot.procs q = ⟨.unused, 0, none, none, false, .user, 0, 0, []⟩ := by
      simp only [boot, if_neg init]
    rw [unused]
    exact ⟨fun _ => ⟨rfl, .inl rfl⟩, fun embryo => by cases embryo⟩

theorem clean_of_reachable (reach : system.Reachable Spares t) : Clean t := by
  refine reach.invariant Clean ?_ ?_
  · rintro t rfl
    exact clean_boot
  · intro t event t' _ clean spares taken
    exact clean_step clean spares taken

/-! ## Birth -/

theorem killed_kill {q : Fin nproc}
    (marked : ((t.kill pid).2.procs q).killed ≠ (t.procs q).killed) : t.target pid = some q := by
  unfold Table.kill at marked
  cases found : t.target pid with
  | none =>
    rw [found] at marked
    exact absurd rfl marked
  | some r =>
    rw [found] at marked
    by_cases same : q = r
    · rw [same]
    · refine absurd ?_ marked
      simp only [Table.setProc, Function.update_apply, if_neg same, Table.mapProcs]

/-- In every run of forks that succeed or fail, exits, waits and kills in which `kill` has
no number of an unused slot and no `fork` fails whose child is marked, an unused slot has
number 0 or that of a `fork` that failed, `kill` succeeds only with the number of a slot in
use and marks only such a slot, and a child that `fork` makes runnable is marked only if
`kill` was called with its number since it was created. -/
theorem born_unkilled {t : Table} (reach : system.Reachable Spares t) :
    (∀ q, (t.procs q).state = .unused → (t.procs q).pid = 0 ∨ (t.procs q).pid ∈ t.failed) ∧
    (∀ p pid t', t.step (.kill p pid) = some t' → Spares t (.kill p pid) →
      ((t.kill pid).1 = 0 → ∃ q, (t.procs q).state ≠ .unused ∧ (t.procs q).pid = pid) ∧
      ∀ q, (t'.procs q).killed ≠ (t.procs q).killed → (t.procs q).state ≠ .unused ∧ (t.procs q).pid = pid) ∧
    (∀ p np t', (t.procs p).phase = .forkPublish np → t.step (.publish p) = some t' →
      (t'.procs np).state = .runnable ∧
        ((t'.procs np).killed = true → (t'.procs np).pid ∈ (t'.procs np).kills)) := by
  have clean := clean_of_reachable reach
  refine ⟨fun q unused => ((clean q).unused unused).2, ?_, ?_⟩
  · intro p pid t' taken spares
    have used {q : Fin nproc} (found : t.target pid = some q) :
        (t.procs q).state ≠ .unused ∧ (t.procs q).pid = pid :=
      have number := t.target_eq_some found
      ⟨fun unused => spares q unused number, number⟩
    refine ⟨fun succeeds => ?_, fun q marked => ?_⟩
    · cases found : t.target pid with
      | none =>
        simp only [Table.kill, found] at succeeds
        cases succeeds
      | some q => exact ⟨q, used found⟩
    · cases transition_of_step taken
      exact used (killed_kill marked)
  · intro p np t' forking taken
    have ordered := ordered_of_reachable reach
    have stage : (t.family.members p).stage = some (np, true) := congrArg Phase.stage forking
    have embryo : (t.procs np).state = .embryo := by
      have standing := (ordered.forks.child p np true stage).1
      revert standing
      change standing (t.procs np).state = .embryo → _
      cases (t.procs np).state <;> simp [standing]
    have ne := ordered.forks.ne_child stage
    cases transition_of_step taken with
    | @publish _ child running same =>
      obtain rfl : child = np := by
        rw [forking] at same
        exact (Phase.forkPublish.inj same).symm
      have born : (t.publish p child).procs child = { t.procs child with state := .runnable, phase := .user } := by
        simp [Table.publish, Table.setPhase, Table.setProc, ne.symm]
      rw [born]
      exact ⟨rfl, (clean child).embryo embryo⟩

/-- The child with number 2 marks the one with number 3 before `fork` makes it runnable. -/
theorem born_unkilled_marked : ∃ t t' : Table, system.Reachable Spares t ∧
    t.step (.publish 0) = some t' ∧ (t'.procs 2).state = .runnable ∧ (t'.procs 2).killed = true ∧
    (t'.procs 2).pid ∈ (t'.procs 2).kills := by
  have evaluated : (system.run (fun t event => decide (Spares t event)) boot
      [.switch 0 .running, .fork 0, .stack 0 true, .copy 0 true, .publish 0, .switch 1 .running,
        .fork 0, .stack 0 true, .copy 0 true, .kill 1 3]).any (fun t =>
      (t.procs 0).phase = .forkPublish 2 ∧ (t.step (.publish 0)).any fun t' => (t'.procs 2).killed = true) = true := by
    decide +kernel
  obtain ⟨t, ran, facts⟩ := (Option.any_eq_true _ _).mp evaluated
  obtain ⟨forking, published⟩ := of_decide_eq_true facts
  obtain ⟨t', taken, killed⟩ := (Option.any_eq_true _ _).mp published
  have reach := System.reachable_of_run (fun _ _ => of_decide_eq_true) (.initial rfl) ran
  obtain ⟨runnable, cause⟩ := (born_unkilled reach).2.2 0 2 t' forking taken
  exact ⟨t, t', reach, taken, runnable, of_decide_eq_true killed, cause (of_decide_eq_true killed)⟩

/-- `kill(0)` succeeds although no slot in use has number 0, and the child that the next
`fork` makes runnable is marked although `kill` was not called since it was created. -/
theorem born_killed : ∃ t t' : Table, system.Reachable (fun _ _ => True) t ∧
    (t.kill 0).1 = 0 ∧ (¬ ∃ q, (t.procs q).state ≠ .unused ∧ (t.procs q).pid = 0) ∧
    system.run (fun _ _ => true) t [.kill 0 0, .fork 0, .stack 0 true, .copy 0 true, .publish 0] = some t' ∧
    (t'.procs 1).state = .runnable ∧ (t'.procs 1).killed = true ∧ (t'.procs 1).kills = [] := by
  have evaluated : (system.run (fun _ _ => true) boot [.switch 0 .running]).any (fun t =>
      (t.kill 0).1 = 0 ∧ (¬ ∃ q, (t.procs q).state ≠ .unused ∧ (t.procs q).pid = 0) ∧
      (system.run (fun _ _ => true) t [.kill 0 0, .fork 0, .stack 0 true, .copy 0 true, .publish 0]).any fun t' =>
        (t'.procs 1).state = .runnable ∧ (t'.procs 1).killed = true ∧ (t'.procs 1).kills = []) = true := by
    decide +kernel
  obtain ⟨t, ran, facts⟩ := (Option.any_eq_true _ _).mp evaluated
  obtain ⟨succeeds, nobody, born⟩ := of_decide_eq_true facts
  obtain ⟨t', goesOn, child⟩ := (Option.any_eq_true _ _).mp born
  exact ⟨t, t', System.reachable_of_run (fun _ _ _ => trivial) (.initial rfl) ran, succeeds, nobody, goesOn,
    of_decide_eq_true child⟩

end Xv6Simplesh.Ptable
