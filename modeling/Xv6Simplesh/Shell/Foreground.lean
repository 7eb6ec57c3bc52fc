import Mathlib.Data.Fintype.EquivFin
import Xv6Simplesh.Shell.Execution

/-! # Waiting for foreground children

`EXEC`, `REDR` and `PIPE` block `SIGCHLD` from before `fork` until after `waitpid`, so the
handler cannot take their children.  `SUBS` does not: if it is entered with `SIGCHLD`
unblocked, the child may terminate and be taken by the handler before `waitpid`, which
then fails and ends the shell.
-/

namespace Xv6Simplesh.Shell

open Library

/-! ## Blocked children -/

/-- `SIGCHLD` is blocked, the handler does not run, and the given children are there. -/
structure Holds (pids : List Nat) (s : ShellState) : Prop where
  blocked : s.mask .sigchld = true
  idle : s.handling = false
  unreaped : ∀ pid ∈ pids, s.Unreaped pid

variable {s : ShellState} {fd pid : Nat} {site : ForkSite}

theorem unreaped_terminate (child : Child) (unreaped : s.Unreaped pid) : (s.terminate child).Unreaped pid := by
  obtain ⟨other, mem, rfl⟩ := unreaped
  refine ⟨other, ?_, rfl⟩
  rcases List.mem_append.mp mem with alive | dead
  · by_cases same : other = child
    · exact List.mem_append_right _ (same ▸ List.mem_cons_self)
    · exact List.mem_append_left _ ((List.mem_erase_of_ne same).mpr alive)
  · exact List.mem_append_right _ (List.mem_cons_of_mem child dead)

theorem holds_stable (faults : Bool) (pids : List Nat) (pending : Option Call) :
    (kernel faults).Stable pending (Holds pids) := by
  intro s s' holds moved
  cases moved with
  | terminate _ =>
    exact ⟨holds.blocked, holds.idle, fun pid mem => unreaped_terminate _ (holds.unreaped pid mem)⟩
  | enter idle unblocked dead =>
    rw [holds.blocked] at unblocked
    cases unblocked
  | reap running dead =>
    rw [holds.idle] at running
    cases running
  | leave running none =>
    rw [holds.idle] at running
    cases running
  | probe scanning idle occupied => exact ⟨holds.blocked, holds.idle, holds.unreaped⟩

/-- Every child that `run_cmd` waits for is still there. -/
def waitGuard : Call → ShellState → Prop
  | .waitpid pid, s => s.Unreaped pid
  | _, _ => True

/-- Runs in which a subshell is only started with `SIGCHLD` blocked. -/
def blockedSubshells (faults : Bool) : Environment Call Call.Answer ShellState :=
  (kernel faults).restrict (fun s c => c = .fork .subs → s.mask .sigchld = true) fun _ _ => True

section Waits

variable {faults : Bool} {s : ShellState} {next : ShellProg}

/-- A program whose waits are all on children that are still there. -/
abbrev Waits (faults : Bool) (p : ShellProg) (s : ShellState) : Prop :=
  p.wp (blockedSubshells faults) waitGuard (fun _ => True) s

theorem waits_done : Waits faults .done s := wp_done (fun _ _ _ _ => trivial) trivial

theorem waits_call {c : Call} {next : c.Answer → ShellProg} (free : ∀ s, waitGuard c s)
    (rest : ∀ a s, Waits faults (next a) s) : Waits faults (.call c next) s :=
  wp_call (P := fun _ => True) (fun _ _ _ _ => trivial) trivial (fun s _ => free s) fun _ a s' _ _ => rest a s'

theorem waits_exit : Waits faults exit s := waits_call (fun _ => trivial) nofun

theorem waits_seq {p q : ShellProg} (first : Waits faults p s) (snd : ∀ s, Waits faults q s) :
    Waits faults (p.seq q) s := wp_seq first fun s _ => snd s

variable {pids : List Nat}

/-- A call other than `waitpid` and `sigprocmask` while children are held. -/
theorem waits_held {c : Call} {next : c.Answer → ShellProg} (holds : Holds pids s) (free : ∀ s, waitGuard c s)
    (rest : ∀ s a s', Holds pids s → effect faults s c a s' → Waits faults (next a) s') :
    Waits faults (.call c next) s :=
  wp_call (holds_stable faults pids _).restrict holds (fun s _ => free s)
    fun s a s' held answered => rest s a s' held answered.1.2

theorem waits_block (rest : ∀ s, Holds [] s → Waits faults next s) : Waits faults (setMask .block next) s := by
  refine wp_call (P := fun _ => True) (fun _ _ _ _ => trivial) trivial (fun _ _ => trivial) ?_
  rintro s (_ | _) s' - ⟨⟨idle, answered⟩, -⟩
  · exact waits_exit
  · obtain rfl : s' = s.setMask .block := answered
    exact rest _ ⟨s.setMask_sigchld .block, idle, nofun⟩

theorem waits_setMask {how : How} (rest : ∀ s, Waits faults next s) : Waits faults (setMask how next) s := by
  refine waits_call (fun _ => trivial) ?_
  rintro (_ | _) s
  · exact waits_exit
  · exact rest s

theorem holds_fork (holds : Holds pids s) : Holds (pid :: pids) { s with alive := ⟨pid, site⟩ :: s.alive } where
  blocked := holds.blocked
  idle := holds.idle
  unreaped := by
    intro other mem
    rcases List.mem_cons.mp mem with rfl | mem
    · exact ⟨⟨other, site⟩, .head _, rfl⟩
    · obtain ⟨child, found, same⟩ := holds.unreaped other mem
      exact ⟨child, .tail _ found, same⟩

/-- `fork` with `SIGCHLD` blocked: the new child is held too, and is none of the others. -/
theorem waits_fork {next : Nat → ShellProg} (holds : Holds pids s)
    (rest : ∀ pid s, pid ∉ pids → Holds (pid :: pids) s → Waits faults (next pid) s) :
    Waits faults (forkOrPanic site next) s := by
  refine waits_held holds (fun _ => trivial) ?_
  rintro s (_ | pid) s' held answered
  · exact waits_exit
  · obtain ⟨-, fresh, rfl⟩ := answered
    exact rest pid _ (fun mem => fresh (held.unreaped pid mem)) (holds_fork held)

/-- `waitpid` on one of the children held: the others stay. -/
theorem waits_waitpid (holds : Holds (pid :: pids) s) (apart : pid ∉ pids)
    (rest : ∀ s, Holds pids s → Waits faults next s) : Waits faults (tryWaitpid pid next) s := by
  refine wp_call (holds_stable faults (pid :: pids) _).restrict holds
    (fun s held => held.unreaped pid (.head _)) ?_
  rintro s (_ | _) s' held ⟨⟨-, answered⟩, -⟩
  · exact waits_exit
  · obtain ⟨child, dead, rfl, rfl⟩ := answered
    refine rest _ ⟨held.blocked, held.idle, fun other mem => ?_⟩
    obtain ⟨sibling, found, rfl⟩ := held.unreaped other (.tail _ mem)
    have ne : sibling ≠ child := by
      rintro rfl
      exact apart mem
    refine ⟨sibling, ?_, rfl⟩
    rcases List.mem_append.mp found with alive | dead
    · exact List.mem_append_left _ alive
    · exact List.mem_append_right _ ((List.mem_erase_of_ne ne).mpr dead)

theorem waits_close (rest : ∀ s, Waits faults next s) : Waits faults (tryClose fd next) s := by
  refine waits_call (fun _ => trivial) ?_
  rintro (_ | _) s
  · exact waits_exit
  · exact rest s

theorem waits_close_held (holds : Holds pids s)
    (rest : ∀ s, Holds pids s → Waits faults next s) : Waits faults (tryClose fd next) s := by
  refine waits_held holds (fun _ => trivial) ?_
  rintro s (_ | _) s' held answered
  · exact waits_exit
  · obtain ⟨-, rfl⟩ := answered
    exact rest _ ⟨held.blocked, held.idle, held.unreaped⟩

theorem waits_forkWait (holds : Holds [] s) (rest : ∀ s, Waits faults next s) :
    Waits faults (forkOrPanic site fun pid => tryWaitpid pid next) s :=
  waits_fork holds fun _ _ fresh held => waits_waitpid held fresh fun s _ => rest s

theorem waits_subs : Waits faults (forkOrPanic .subs fun pid => tryWaitpid pid .done) s := by
  refine wp_call (P := fun _ => True) (fun _ _ _ _ => trivial) trivial (fun _ _ => trivial) ?_
  rintro s (_ | pid) s' - ⟨⟨idle, answered⟩, admitted⟩
  · exact waits_exit
  · obtain ⟨-, -, rfl⟩ := answered
    have held : Holds [] s := ⟨admitted rfl, idle, nofun⟩
    exact waits_waitpid (holds_fork held) (List.not_mem_nil) fun _ _ => waits_done

theorem waits_redr : Waits faults (setMask .block <| forkOrPanic .redr fun pid => tryWaitpid pid <|
    setMask .unblock .done) s :=
  waits_block fun _ holds => waits_forkWait holds fun _ => waits_setMask fun _ => waits_done

theorem waits_runHd (files : Nat) : ∀ s, Waits faults (runHd files) s := by
  induction files with
  | zero => exact fun _ => waits_done
  | succ files ih =>
    refine fun _ => waits_call (fun _ => trivial) ?_
    rintro (_ | fd) s
    · exact waits_done
    · refine waits_call (fun _ => trivial) ?_
      rintro (_ | _) s
      · exact waits_done
      · exact waits_call (fun _ => trivial) fun _ s => ih s

theorem waits_runBjobs (action : JobAction) (s : ShellState) : Waits faults (runBjobs action) s := by
  unfold runBjobs
  generalize List.finRange maxProcBack = indices
  induction indices generalizing s with
  | nil => exact waits_done
  | cons i indices ih =>
    refine waits_call (fun _ => trivial) fun pid s => ?_
    split
    · exact waits_call (fun _ => trivial) fun _ s => ih s
    · exact ih s

end Waits

mutual

theorem waits_runCmd (faults : Bool) : ∀ (task : Task) (s : ShellState), Waits faults (runCmd task) s
  | .null, _ => waits_done
  | .exec cmd, s => by
    rw [runCmd]
    refine waits_block fun s holds => waits_seq ?_ fun s => waits_setMask fun _ => waits_done
    split
    · exact waits_runInterno faults cmd s
    · exact waits_forkWait holds fun _ => waits_done
  | .redr (.exec cmd) stream, s => by
    rw [runCmd]
    refine waits_block fun s holds => ?_
    split
    · have opened : ∀ s, Waits faults (.call .open fun
          | none => exit
          | some _ => runInterno cmd) s := by
        refine fun _ => waits_call (fun _ => trivial) ?_
        rintro (_ | fd) s
        · exact waits_exit
        · exact waits_runInterno faults cmd s
      dsimp only
      split
      · exact waits_close opened
      · exact opened s
    · exact waits_forkWait holds fun _ => waits_setMask fun _ => waits_done
  | .redr .null _, _ | .redr (.redr _ _) _, _ | .redr (.pipe _ _) _, _ | .redr (.list _ _) _, _
  | .redr (.back _) _, _ | .redr (.subs _) _, _ => waits_redr
  | .list left right, s => waits_seq (waits_runCmd faults left s) (waits_runCmd faults right)
  | .pipe _ _, s => by
    rw [runCmd]
    refine waits_call (fun _ => trivial) ?_
    rintro (_ | ⟨p0, p1⟩) s
    · exact waits_exit
    · refine waits_block fun s holds => waits_fork holds fun left s freshLeft holds => waits_fork holds fun right s
        freshRight holds => waits_close_held holds fun s holds => waits_close_held holds fun s holds => ?_
      have swapped : Holds [left, right] s :=
        ⟨holds.blocked, holds.idle, fun pid mem => holds.unreaped pid (by simpa [or_comm] using mem)⟩
      have apart : left ∉ [right] := fun same => freshRight (by simpa [eq_comm] using same)
      exact waits_waitpid swapped apart fun s holds => waits_waitpid holds nofun fun s _ =>
        waits_setMask fun _ => waits_done
  | .back _, s => by
    rw [runCmd]
    refine waits_call (fun _ => trivial) ?_
    rintro (_ | pid) s
    · exact waits_exit
    · exact waits_call (fun _ => trivial) fun _ s => waits_call (fun _ => trivial) fun _ s => waits_done
  | .subs _, _ => waits_subs

theorem waits_runInterno (faults : Bool) : ∀ (cmd : Command) (s : ShellState), Waits faults (runInterno cmd) s
  | .external, _ => waits_done
  | .cwd, _ => waits_done
  | .exit, _ => waits_exit
  | .cd, _ => waits_done
  | .hd files, s => waits_runHd files s
  | .src files rounds, s => waits_runSrc faults files rounds s
  | .bjobs action, s => waits_runBjobs action s

theorem waits_runSrc (faults files : Bool) : ∀ (rounds : Rounds) (s : ShellState), Waits faults (runSrc files rounds) s
  | .nil, _ => waits_done
  | .cons script rest, s => by
    rw [runSrc]
    split
    · refine waits_call (fun _ => trivial) ?_
      rintro (_ | fd) s
      · exact waits_done
      · refine waits_seq (waits_runCmd faults script s) fun s => waits_call (fun _ => trivial) ?_
        rintro (_ | _) s
        · exact waits_done
        · exact waits_call (fun _ => trivial) fun _ s => waits_runSrc faults files rest s
    · refine waits_seq (waits_runCmd faults script s) fun s => waits_call (fun _ => trivial) ?_
      rintro (_ | _) s
      · exact waits_done
      · exact waits_runSrc faults files rest s

end

/-! ## Unblocked subshells -/

/-- After the `fork` of a subshell comes the `waitpid` on it, and after its failure `exit`. -/
def waitsForSubshell : (c : Call) → (c.Answer → ShellProg) → Prop
  | .fork .subs, next =>
    ∀ pid, ∃ rest : Bool → ShellProg, next (some pid) = .call (.waitpid pid) rest ∧ (rest false).pending = some .exit
  | _, _ => True

theorem waitsForSubshell_seq (q : ShellProg) (c : Call) (next : c.Answer → ShellProg)
    (waits : waitsForSubshell c next) : waitsForSubshell c fun a => (next a).seq q := by
  cases c with
  | fork site =>
    cases site with
    | subs =>
      intro pid
      obtain ⟨rest, same, exits⟩ := waits pid
      exact ⟨fun a => (rest a).seq q, by simp only [same, Prog.seq], Prog.pending_seq exits q⟩
    | _ => trivial
  | _ => trivial

/-- The programs that wait for every subshell that they start. -/
abbrev Subshells (p : ShellProg) : Prop := p.Every waitsForSubshell

section Subshells

variable {next : ShellProg}

theorem subshells_seq {p q : ShellProg} (first : Subshells p) (snd : Subshells q) : Subshells (p.seq q) :=
  every_seq (waitsForSubshell_seq q) first snd

theorem subshells_exit : Subshells exit := ⟨trivial, nofun⟩

theorem subshells_setMask {how : How} (rest : Subshells next) : Subshells (setMask how next) :=
  ⟨trivial, fun
    | true => rest
    | false => subshells_exit⟩

theorem subshells_waitpid (rest : Subshells next) : Subshells (tryWaitpid pid next) :=
  ⟨trivial, fun
    | true => rest
    | false => subshells_exit⟩

theorem subshells_close (rest : Subshells next) : Subshells (tryClose fd next) :=
  ⟨trivial, fun
    | true => rest
    | false => subshells_exit⟩

theorem subshells_fork {next : Nat → ShellProg} (other : site ≠ .subs)
    (rest : ∀ pid, Subshells (next pid)) : Subshells (forkOrPanic site next) := by
  refine ⟨?_, fun
    | some pid => rest pid
    | none => subshells_exit⟩
  cases site with
  | subs => exact absurd rfl other
  | _ => trivial

theorem subshells_subs : Subshells (forkOrPanic .subs fun pid => tryWaitpid pid .done) :=
  ⟨fun _ => ⟨_, rfl, rfl⟩, fun
    | some _ => subshells_waitpid trivial
    | none => subshells_exit⟩

theorem subshells_forkWait (other : site ≠ .subs) (rest : Subshells next) :
    Subshells (forkOrPanic site fun pid => tryWaitpid pid next) :=
  subshells_fork other fun _ => subshells_waitpid rest

theorem subshells_redr : Subshells (setMask .block <| forkOrPanic .redr fun pid => tryWaitpid pid <|
    setMask .unblock .done) :=
  subshells_setMask (subshells_forkWait nofun (subshells_setMask trivial))

theorem subshells_runHd (files : Nat) : Subshells (runHd files) := by
  induction files with
  | zero => trivial
  | succ files ih =>
    exact ⟨trivial, fun
      | none => trivial
      | some fd => ⟨trivial, fun
        | true => ⟨trivial, fun _ => ih⟩
        | false => trivial⟩⟩

theorem subshells_runBjobs (action : JobAction) : Subshells (runBjobs action) := by
  unfold runBjobs
  induction List.finRange maxProcBack with
  | nil => trivial
  | cons i indices ih =>
    refine ⟨trivial, fun pid => ?_⟩
    by_cases empty : pid = 0
    · simpa only [empty, ne_eq, not_true, if_false] using ih
    · simp only [ne_eq, empty, not_false_iff, if_true]
      exact ⟨trivial, fun _ => ih⟩

end Subshells

mutual

theorem subshells_runCmd : ∀ task : Task, Subshells (runCmd task)
  | .null => trivial
  | .exec cmd => by
    rw [runCmd]
    refine subshells_setMask (subshells_seq ?_ (subshells_setMask trivial))
    split
    · exact subshells_runInterno cmd
    · exact subshells_forkWait nofun trivial
  | .redr (.exec cmd) stream => by
    rw [runCmd]
    apply subshells_setMask
    split
    · have opened : Subshells (.call .open fun
          | none => exit
          | some _ => runInterno cmd) := ⟨trivial, fun
            | none => subshells_exit
            | some _ => subshells_runInterno cmd⟩
      dsimp only
      split
      · exact subshells_close opened
      · exact opened
    · exact subshells_forkWait nofun (subshells_setMask trivial)
  | .redr .null _ | .redr (.redr _ _) _ | .redr (.pipe _ _) _ | .redr (.list _ _) _ | .redr (.back _) _
  | .redr (.subs _) _ => subshells_redr
  | .list left right => subshells_seq (subshells_runCmd left) (subshells_runCmd right)
  | .pipe _ _ => ⟨trivial, fun
    | none => subshells_exit
    | some (_, _) => subshells_setMask <| subshells_fork nofun fun _ => subshells_fork nofun fun _ =>
        subshells_close <| subshells_close <| subshells_waitpid <| subshells_waitpid <| subshells_setMask trivial⟩
  | .back _ => subshells_fork nofun fun _ => ⟨trivial, fun _ => ⟨trivial, fun _ => trivial⟩⟩
  | .subs _ => subshells_subs

theorem subshells_runInterno : ∀ cmd : Command, Subshells (runInterno cmd)
  | .external | .cwd | .cd => trivial
  | .exit => subshells_exit
  | .hd files => subshells_runHd files
  | .src files rounds => subshells_runSrc files rounds
  | .bjobs action => subshells_runBjobs action

theorem subshells_runSrc (files : Bool) : ∀ rounds : Rounds, Subshells (runSrc files rounds)
  | .nil => trivial
  | .cons script rest => by
    rw [runSrc]
    split
    · exact ⟨trivial, fun
        | none => trivial
        | some _ => subshells_seq (subshells_runCmd script) ⟨trivial, fun
          | true => ⟨trivial, fun _ => subshells_runSrc files rest⟩
          | false => trivial⟩⟩
    · exact subshells_seq (subshells_runCmd script) ⟨trivial, fun
        | true => subshells_runSrc files rest
        | false => trivial⟩

end

section Steal

/-- Once it runs, the handler takes all children that have terminated and returns. -/
theorem handler_returns (pending : Option Call) (running : s.handling = true) :
    ∃ jobs, Relation.ReflTransGen (Moves pending) s { s with handling := false, zombies := [], jobs := jobs } := by
  induction left : s.zombies generalizing s with
  | nil =>
    have same : { s with handling := false, zombies := [] } = { s with handling := false } := by rw [← left]
    exact ⟨s.jobs, same ▸ .single (.leave running left)⟩
  | cons child zombies ih =>
    have dead : child ∈ s.zombies := left ▸ List.mem_cons_self
    have shorter : s.zombies.erase child = zombies := by rw [left, List.erase_cons_head]
    obtain ⟨jobs, rest⟩ := ih (s := s.reap child) running shorter
    exact ⟨jobs, .head (.reap running dead) rest⟩

/-- With `SIGCHLD` unblocked, all children that have terminated may be taken. -/
theorem handler_runs (pending : Option Call) (unblocked : s.mask .sigchld = false) :
    ∃ jobs, Relation.ReflTransGen (Moves pending) s { s with handling := false, zombies := [], jobs := jobs } := by
  cases running : s.handling with
  | true => exact handler_returns pending running
  | false =>
    by_cases none : s.zombies = []
    · have same : { s with handling := false, zombies := [] } = s := by rw [← running, ← none]
      exact ⟨s.jobs, same ▸ .refl⟩
    · obtain ⟨jobs, rest⟩ := handler_returns pending (s := { s with handling := true }) rfl
      exact ⟨jobs, .head (.enter running unblocked none) rest⟩

theorem exists_fresh (s : ShellState) : ∃ pid, pid ≠ 0 ∧ ¬ s.Unreaped pid := by
  obtain ⟨pid, fresh⟩ := Infinite.exists_notMem_finset (insert 0 (s.children.map Child.pid).toFinset)
  rw [Finset.mem_insert, not_or, List.mem_toFinset] at fresh
  exact ⟨pid, fresh.1, fun ⟨child, mem, same⟩ => fresh.2 (List.mem_map.mpr ⟨child, mem, same⟩)⟩

/-- A subshell started with `SIGCHLD` unblocked may be taken by the handler before `waitpid`. -/
theorem subshell_stolen (faults : Bool) {next : Option Nat → ShellProg}
    (unblocked : s.mask .sigchld = false) (waits : waitsForSubshell (.fork .subs) next) :
    ∃ pid rest s', (kernel faults).Reaches (.call (.fork .subs) next, s) (.call (.waitpid pid) rest, s') ∧
      ¬ s'.Unreaped pid ∧ s'.handling = false ∧ (rest false).pending = some .exit := by
  obtain ⟨jobs, calm⟩ := handler_runs (some (.fork .subs)) unblocked
  obtain ⟨pid, nonzero, fresh⟩ := exists_fresh { s with handling := false, zombies := [], jobs := jobs }
  obtain ⟨rest, same, exits⟩ := waits pid
  -- the child is forked, terminates, and the handler takes it
  have answered : (kernel faults).answers { s with handling := false, zombies := [], jobs := jobs } (.fork .subs)
      (some pid) { s with handling := false, alive := ⟨pid, .subs⟩ :: s.alive, zombies := [], jobs := jobs } :=
    ⟨rfl, nonzero, fresh, rfl⟩
  have start : (kernel faults).Reaches (.call (.fork .subs) next, s) (.call (.fork .subs) next, s) := .refl
  have forked := (start.moves calm).answer answered
  rw [same] at forked
  have died := forked.move (Moves.terminate (List.mem_cons_self : ⟨pid, .subs⟩ ∈ Child.mk pid .subs :: s.alive))
  obtain ⟨jobs', taken⟩ := handler_runs (some (.waitpid pid)) (s := { s with
    handling := false, alive := (⟨pid, .subs⟩ :: s.alive).erase ⟨pid, .subs⟩, zombies := [⟨pid, .subs⟩],
    jobs := jobs }) unblocked
  refine ⟨pid, rest, _, died.moves taken, ?_, rfl, exits⟩
  rintro ⟨child, mem, rfl⟩
  refine fresh ⟨child, ?_, rfl⟩
  simpa [ShellState.children] using mem

end Steal

/-- As long as subshells are only started with `SIGCHLD` blocked, every child that
`run_cmd` waits for is still there; and a subshell started with `SIGCHLD` unblocked may
be taken by the handler, after which its `waitpid` ends the shell. -/
theorem foreground_children_unreaped (faults : Bool) (task : Task) (s : ShellState) :
    (∀ pid next s', (blockedSubshells faults).Reaches (runCmd task, s) (.call (.waitpid pid) next, s') →
        s'.Unreaped pid) ∧
      ∀ next s', (kernel faults).Reaches (runCmd task, s) (.call (.fork .subs) next, s') →
        s'.mask .sigchld = false →
        ∃ pid rest s'', (kernel faults).Reaches (.call (.fork .subs) next, s') (.call (.waitpid pid) rest, s'') ∧
          ¬ s''.Unreaped pid ∧ s''.handling = false ∧ (rest false).pending = some .exit := by
  constructor
  · intro pid next s' reaches
    have guarded : waitGuard (.waitpid pid) s' := guard_of_reaches (waits_runCmd faults task s) reaches
    exact guarded
  · intro next s' reaches unblocked
    have waits := every_of_reaches (subshells_runCmd task) reaches
    exact subshell_stolen faults unblocked waits.1

/-- The shell at its start, with the standard descriptors. -/
def startShell : ShellState where
  files := ⟨fun fd => if fd < 3 then some fd else none, 3, fun fd file held => by
    split at held
    · cases held
      assumption
    · cases held⟩
  mask signal := decide (signal = .sigint)
  handling := false
  alive := []
  zombies := []
  jobs := ⟨fun _ => 0, 0⟩

theorem subshell_ends_shell : ∃ pid rest s,
    (kernel false).Reaches (runCmd (.subs (.exec .external)), startShell) (.call (.waitpid pid) rest, s) ∧
      ¬ s.Unreaped pid ∧ (kernel false).Reaches (.call (.waitpid pid) rest, s) (rest false, s) ∧
      (rest false).pending = some .exit := by
  obtain ⟨pid, rest, s, reaches, reaped, idle, exits⟩ := subshell_stolen false (s := startShell) rfl
    (subshells_runCmd (.subs (.exec .external))).1
  have answered : (kernel false).answers s (.waitpid pid) false s := ⟨idle, reaped, rfl⟩
  exact ⟨pid, rest, s, reaches, reaped, .single (.answer answered), exits⟩

end Xv6Simplesh.Shell
