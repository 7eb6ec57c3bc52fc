import Xv6Simplesh.Shell.Foreground

/-! # The table of background jobs

The `BACK` branch forks a child and then stores its pid; `handle_sigchld` removes the pid
of every child that it takes.  The table lists the background children exactly, provided
that the handler takes none before its pid is stored.
-/

namespace Xv6Simplesh.Shell

open Library Function

/-! ## The invariant -/

namespace ShellState

def Listed (s : ShellState) (pid : Nat) : Prop := ∃ i, s.jobs.procesos i = pid

/-- Every job listed is a child. -/
def Known (s : ShellState) : Prop := ∀ i, s.jobs.procesos i ≠ 0 → s.Unreaped (s.jobs.procesos i)

/-- The table lists the background children that have not terminated, each once. -/
structure Exact (s : ShellState) : Prop where
  live : ∀ pid, pid ≠ 0 → (s.Listed pid ↔ ∃ child ∈ s.alive, child.site = .back ∧ child.pid = pid)
  once : ∀ i j, s.jobs.procesos i = s.jobs.procesos j → s.jobs.procesos i ≠ 0 → i = j

end ShellState

/-- All children are background children, and the table lists all of them but the one
whose pid is still to be stored. -/
structure Tracks (missing : Option Nat) (s : ShellState) : Prop where
  distinct : (s.children.map Child.pid).Nodup
  pos : ∀ child ∈ s.children, child.pid ≠ 0
  back : ∀ child ∈ s.children, child.site = .back
  known : s.Known
  once : ∀ i j, s.jobs.procesos i = s.jobs.procesos j → s.jobs.procesos i ≠ 0 → i = j
  listed : ∀ child ∈ s.children, missing ≠ some child.pid → s.Listed child.pid
  absent : ∀ pid, missing = some pid → pid ≠ 0 ∧ s.Unreaped pid ∧ ¬ s.Listed pid

/-- Runs in which the handler takes a background child only when its pid is in the table. -/
def listedReaps (faults : Bool) : Environment Call Call.Answer ShellState :=
  (kernel faults).restrict (fun _ _ => True) fun s s' =>
    ∀ child ∈ s.zombies, child ∉ s'.zombies → child.site = .back → s.Listed child.pid

variable {pid : Nat} {child : Child} {jobs : Jobs} {s : ShellState}

section Stability

variable {faults : Bool} {missing : Option Nat} {s s' : ShellState}

theorem unreaped_perm (perm : s'.children.Perm s.children) (pid : Nat) : s'.Unreaped pid ↔ s.Unreaped pid := by
  constructor
  · rintro ⟨child, mem, same⟩
    exact ⟨child, perm.mem_iff.mp mem, same⟩
  · rintro ⟨child, mem, same⟩
    exact ⟨child, perm.mem_iff.mpr mem, same⟩

theorem children_terminate (living : child ∈ s.alive) : (s.terminate child).children.Perm s.children := by
  have moved : (s.alive.erase child ++ child :: s.zombies).Perm (child :: (s.alive.erase child ++ s.zombies)) :=
    List.perm_middle
  exact moved.trans ((List.perm_cons_erase living).symm.append_right s.zombies)

theorem Tracks.congr (tracks : Tracks missing s) (perm : s'.children.Perm s.children)
    (same : s'.jobs.procesos = s.jobs.procesos) : Tracks missing s' where
  distinct := (perm.map Child.pid).nodup_iff.mpr tracks.distinct
  pos child mem := tracks.pos child (perm.mem_iff.mp mem)
  back child mem := tracks.back child (perm.mem_iff.mp mem)
  known i stored := by
    rw [same] at stored ⊢
    exact (unreaped_perm perm _).mpr (tracks.known i stored)
  once := by
    rw [same]
    exact tracks.once
  listed child mem other := by
    unfold ShellState.Listed
    rw [same]
    exact tracks.listed child (perm.mem_iff.mp mem) other
  absent pid named := by
    obtain ⟨pos, unreaped, unlisted⟩ := tracks.absent pid named
    refine ⟨pos, (unreaped_perm perm pid).mpr unreaped, ?_⟩
    unfold ShellState.Listed
    rwa [same]

theorem delete_of_ne {i : Fin maxProcBack} (other : pid ≠ jobs.procesos i) :
    (jobs.delete pid).procesos i = jobs.procesos i := if_neg other

theorem delete_ne_zero {i : Fin maxProcBack} (stored : (jobs.delete pid).procesos i ≠ 0) :
    pid ≠ jobs.procesos i ∧ (jobs.delete pid).procesos i = jobs.procesos i := by
  have other : pid ≠ jobs.procesos i := fun same => stored (if_pos same)
  exact ⟨other, delete_of_ne other⟩

theorem unreaped_reap (other : child.pid ≠ pid) (unreaped : s.Unreaped pid) : (s.reap child).Unreaped pid := by
  obtain ⟨sibling, mem, rfl⟩ := unreaped
  have ne : sibling ≠ child := by
    rintro rfl
    exact other rfl
  refine ⟨sibling, ?_, rfl⟩
  rcases List.mem_append.mp mem with alive | dead
  · exact List.mem_append_left _ alive
  · exact List.mem_append_right _ ((List.mem_erase_of_ne ne).mpr dead)

theorem known_reap (child : Child) (known : s.Known) : (s.reap child).Known := by
  intro i stored
  obtain ⟨other, same⟩ := delete_ne_zero stored
  have kept : (s.reap child).jobs.procesos i = s.jobs.procesos i := same
  rw [kept] at stored ⊢
  exact unreaped_reap other (known i stored)

theorem Tracks.reap (tracks : Tracks missing s) (dead : child ∈ s.zombies)
    (listed : s.Listed child.pid) : Tracks missing (s.reap child) := by
  have kept : ∀ other ∈ s.alive ++ s.zombies.erase child, other ∈ s.children := by
    intro other mem
    rcases List.mem_append.mp mem with alive | rest
    · exact List.mem_append_left _ alive
    · exact List.mem_append_right _ (List.mem_of_mem_erase rest)
  -- pids are distinct, so the children that stay have other pids
  have perm : s.children.Perm (child :: (s.alive ++ s.zombies.erase child)) :=
    ((List.perm_cons_erase dead).append_left s.alive).trans List.perm_middle
  have nodup := (perm.map Child.pid).nodup_iff.mp tracks.distinct
  rw [List.map_cons, List.nodup_cons] at nodup
  have apart : ∀ other ∈ s.alive ++ s.zombies.erase child, child.pid ≠ other.pid :=
    fun other mem same => nodup.1 (same ▸ List.mem_map_of_mem mem)
  exact {
    distinct := nodup.2
    pos := fun other mem => tracks.pos other (kept other mem)
    back := fun other mem => tracks.back other (kept other mem)
    known := known_reap child tracks.known
    once := fun i j same stored => by
      have first : (s.reap child).jobs.procesos i = s.jobs.procesos i := (delete_ne_zero stored).2
      have snd : (s.reap child).jobs.procesos j = s.jobs.procesos j := (delete_ne_zero (same ▸ stored)).2
      rw [first, snd] at same
      exact tracks.once i j same (first ▸ stored)
    listed := fun other mem ne => by
      obtain ⟨i, stored⟩ := tracks.listed other (kept other mem) ne
      exact ⟨i, (delete_of_ne (stored ▸ apart other mem)).trans stored⟩
    absent := fun pid named => by
      obtain ⟨pos, unreaped, unlisted⟩ := tracks.absent pid named
      have other : child.pid ≠ pid := fun same => unlisted (same ▸ listed)
      refine ⟨pos, unreaped_reap other unreaped, ?_⟩
      rintro ⟨i, stored⟩
      obtain ⟨-, same⟩ := delete_ne_zero (stored ▸ pos)
      exact unlisted ⟨i, same.symm.trans stored⟩ }

theorem tracks_stable (faults : Bool) (missing : Option Nat) (pending : Option Call) :
    (listedReaps faults).Stable pending (Tracks missing) := by
  rintro s s' tracks ⟨moved, admitted⟩
  cases moved with
  | terminate living => exact tracks.congr (children_terminate living) rfl
  | enter idle unblocked dead => exact tracks.congr .rfl rfl
  | @reap child running dead =>
    have nodup : s.zombies.Nodup := (List.nodup_append.mp (List.Nodup.of_map _ tracks.distinct)).2.1
    have gone : child ∉ s.zombies.erase child := nodup.not_mem_erase
    have back := tracks.back child (List.mem_append_right _ dead)
    exact tracks.reap dead (admitted child dead gone back)
  | leave running none => exact tracks.congr .rfl rfl
  | probe scanning idle occupied => exact tracks.congr .rfl rfl

end Stability

/-! ## Background commands and `bjobs` -/

/-- The commands that work on the table. -/
inductive JobCommand where
  | background (cmd : Task)
  | bjobs (action : JobAction)

def JobCommand.task : JobCommand → Task
  | .background cmd => .back cmd
  | .bjobs action => .exec (.bjobs action)

/-- What is known at each call.  At the prompt with no child left to take, the table is
exact; `bjobs` only names children. -/
def jobGuard : Call → ShellState → Prop
  | .getCmd, s => Tracks none s ∧ (s.zombies = [] → s.Exact)
  | .report _ pid, s => Tracks none s ∧ s.Unreaped pid
  | .scan pid, s => Tracks (some pid) s
  | .store pid, s => Tracks (some pid) s
  | _, s => Tracks none s

theorem Tracks.exact (tracks : Tracks none s) (taken : s.zombies = []) : s.Exact where
  live pid pos := by
    have alive : ∀ child, child ∈ s.children ↔ child ∈ s.alive := by
      intro child
      rw [ShellState.children, taken, List.append_nil]
    constructor
    · rintro ⟨i, rfl⟩
      obtain ⟨child, mem, same⟩ := tracks.known i pos
      exact ⟨child, (alive child).mp mem, tracks.back child mem, same⟩
    · rintro ⟨child, mem, -, rfl⟩
      exact tracks.listed child ((alive child).mpr mem) (Option.some_ne_none child.pid).symm
  once := tracks.once

section Jobs

variable {faults : Bool} {s : ShellState} {next : ShellProg}

abbrev KeepsTable (faults : Bool) (p : ShellProg) (Q : ShellState → Prop) (s : ShellState) : Prop :=
  p.wp (listedReaps faults) jobGuard Q s

theorem keeps_exit {Q : ShellState → Prop} (tracks : Tracks none s) : KeepsTable faults exit Q s :=
  wp_call (tracks_stable faults none _) tracks (fun _ tracks => tracks) nofun

/-- `fork` of a background child, whose pid is then missing from the table. -/
theorem Tracks.fork (tracks : Tracks none s) (pos : pid ≠ 0) (fresh : ¬ s.Unreaped pid) :
    Tracks (some pid) { s with alive := ⟨pid, .back⟩ :: s.alive } where
  distinct := by
    refine List.nodup_cons.mpr ⟨fun mem => ?_, tracks.distinct⟩
    obtain ⟨child, found, same⟩ := List.mem_map.mp mem
    exact fresh ⟨child, found, same⟩
  pos := List.forall_mem_cons.mpr ⟨pos, tracks.pos⟩
  back := List.forall_mem_cons.mpr ⟨rfl, tracks.back⟩
  known i stored := by
    obtain ⟨child, mem, same⟩ := tracks.known i stored
    exact ⟨child, .tail _ mem, same⟩
  once := tracks.once
  listed := by
    intro child mem other
    rcases List.mem_cons.mp mem with rfl | mem
    · exact absurd rfl other
    · exact tracks.listed child mem nofun
  absent := by
    rintro _ ⟨⟩
    refine ⟨pos, ⟨_, .head _, rfl⟩, ?_⟩
    rintro ⟨i, stored⟩
    have stored : s.jobs.procesos i = pid := stored
    exact fresh (stored ▸ tracks.known i (stored ▸ pos))

/-- Storing the missing pid at a free position completes the table. -/
theorem Tracks.store {i : Fin maxProcBack} (tracks : Tracks (some pid) s) (free : s.jobs.procesos i = 0) :
    Tracks none { s with jobs := { s.jobs with procesos := update s.jobs.procesos i pid } } := by
  obtain ⟨pos, unreaped, unlisted⟩ := tracks.absent pid rfl
  have entry : ∀ j, update s.jobs.procesos i pid j = if j = i then pid else s.jobs.procesos j :=
    fun j => update_apply ..
  exact {
    distinct := tracks.distinct
    pos := tracks.pos
    back := tracks.back
    known := fun j stored => by
      dsimp only at stored ⊢
      rw [entry] at stored ⊢
      split
      · exact unreaped
      next other =>
        rw [if_neg other] at stored
        exact tracks.known j stored
    once := fun j l same stored => by
      dsimp only at same stored
      rw [entry, entry] at same
      rw [entry] at stored
      split at same
      next first =>
        split at same
        next snd => rw [first, snd]
        next => exact absurd ⟨l, same.symm⟩ unlisted
      next first =>
        rw [if_neg first] at stored
        split at same
        next => exact absurd ⟨j, same⟩ unlisted
        next => exact tracks.once j l same stored
    listed := fun child mem _ => by
      by_cases new : child.pid = pid
      · exact ⟨i, by rw [new]; exact update_self ..⟩
      · obtain ⟨j, stored⟩ := tracks.listed child mem fun same => new (Option.some.inj same).symm
        have other : j ≠ i := by
          rintro rfl
          exact tracks.pos child mem (stored.symm.trans free)
        exact ⟨j, (update_of_ne other ..).trans stored⟩
    absent := nofun }

/-- The position found stays free until the pid is stored. -/
theorem free_stable (faults : Bool) (pid : Nat) :
    (listedReaps faults).Stable (some (.store pid)) fun s => s.jobs.procesos s.jobs.posicion = 0 := by
  rintro s s' free ⟨moved, -⟩
  cases moved with
  | terminate _ => exact free
  | enter idle unblocked dead => exact free
  | @reap child running dead =>
    by_contra stored
    obtain ⟨-, same⟩ := delete_ne_zero stored
    exact stored (same.trans free)
  | leave running none => exact free
  | probe scanning idle occupied => cases scanning

theorem keeps_background (tracks : Tracks none s) :
    KeepsTable faults (forkOrPanic .back addProcesoBackground) (Tracks none) s := by
  refine wp_call (tracks_stable faults none _) tracks (fun _ tracks => tracks) ?_
  rintro s (_ | pid) s' tracks ⟨⟨-, answered⟩, -⟩
  · obtain ⟨-, rfl⟩ := answered
    exact keeps_exit tracks
  obtain ⟨pos, fresh, rfl⟩ := answered
  refine wp_call (tracks_stable faults (some pid) _) (tracks.fork pos fresh) (fun _ tracks => tracks) ?_
  rintro s _ s' tracks ⟨⟨-, free, rfl⟩, -⟩
  refine wp_call ((tracks_stable faults (some pid) _).and (free_stable faults pid)) ⟨tracks, free⟩
    (fun _ both => both.1) ?_
  rintro s _ s' ⟨tracks, free⟩ ⟨⟨-, answered⟩, -⟩
  obtain rfl := answered
  exact wp_done (tracks_stable faults none none) (tracks.store free)

/-- While `SIGCHLD` is blocked the jobs that `bjobs` reads are children. -/
theorem keeps_runBjobs (action : JobAction) (tracks : Tracks none s) (holds : Holds [] s) :
    KeepsTable faults (runBjobs action) (fun s => Tracks none s ∧ Holds [] s) s := by
  unfold runBjobs
  have stable : ∀ pids pending, (listedReaps faults).Stable pending fun s => Tracks none s ∧ Holds pids s :=
    fun pids pending => (tracks_stable faults none pending).and (holds_stable faults pids pending).restrict
  induction List.finRange maxProcBack generalizing s with
  | nil => exact wp_done (stable [] none) ⟨tracks, holds⟩
  | cons i indices ih =>
    refine wp_call (stable [] _) ⟨tracks, holds⟩ (fun _ both => both.1) ?_
    rintro s pid s' ⟨tracks, holds⟩ ⟨⟨-, rfl, rfl⟩, -⟩
    by_cases empty : s'.jobs.procesos i = 0
    · simp only [empty, ne_eq, not_true, if_false]
      exact ih tracks holds
    · simp only [ne_eq, empty, not_false_iff, if_true]
      have held : Holds [s'.jobs.procesos i] s' :=
        ⟨holds.blocked, holds.idle, List.forall_mem_singleton.mpr (tracks.known i empty)⟩
      refine wp_call (stable [s'.jobs.procesos i] _) ⟨tracks, held⟩
        (fun _ both => ⟨both.1, both.2.unreaped _ (.head _)⟩) ?_
      rintro s _ s'' ⟨tracks, held⟩ ⟨⟨-, rfl⟩, -⟩
      exact ih tracks ⟨held.blocked, held.idle, nofun⟩

theorem keeps_bjobs (action : JobAction) (tracks : Tracks none s) :
    KeepsTable faults (runCmd (.exec (.bjobs action))) (Tracks none) s := by
  refine wp_call (tracks_stable faults none _) tracks (fun _ tracks => tracks) ?_
  rintro s (_ | _) s' tracks ⟨⟨idle, answered⟩, -⟩
  · obtain ⟨-, rfl⟩ := answered
    exact keeps_exit tracks
  obtain rfl : s' = s.setMask .block := answered
  refine wp_seq (keeps_runBjobs action (tracks.congr .rfl rfl) ⟨s.setMask_sigchld .block, idle, nofun⟩) ?_
  rintro s ⟨tracks, -⟩
  refine wp_call (tracks_stable faults none _) tracks (fun _ tracks => tracks) ?_
  rintro s (_ | _) s' tracks ⟨⟨-, answered⟩, -⟩
  · obtain ⟨-, rfl⟩ := answered
    exact keeps_exit tracks
  · obtain rfl : s' = s.setMask .unblock := answered
    exact wp_done (tracks_stable faults none none) (tracks.congr .rfl rfl)

theorem keeps_mainLoop (commands : List JobCommand) (tracks : Tracks none s) :
    KeepsTable faults (mainLoop (commands.map JobCommand.task)) (Tracks none) s := by
  induction commands generalizing s with
  | nil =>
    refine wp_call (tracks_stable faults none _) tracks (fun _ tracks => ⟨tracks, tracks.exact⟩) ?_
    rintro s _ s' tracks ⟨⟨-, rfl⟩, -⟩
    exact wp_done (tracks_stable faults none none) tracks
  | cons command commands ih =>
    refine wp_call (tracks_stable faults none _) tracks (fun _ tracks => ⟨tracks, tracks.exact⟩) ?_
    rintro s _ s' tracks ⟨⟨-, rfl⟩, -⟩
    refine wp_seq ?_ fun s tracks => ih tracks
    cases command with
    | background cmd => exact keeps_background tracks
    | bjobs action => exact keeps_bjobs action tracks

end Jobs

/-- The shell with no children and an empty table. -/
def emptyShell (files : Files) (mask : Signal → Bool) (posicion : Fin maxProcBack) : ShellState where
  files := files
  mask := mask
  handling := false
  alive := []
  zombies := []
  jobs := ⟨fun _ => 0, posicion⟩

theorem tracks_emptyShell (files : Files) (mask : Signal → Bool) (posicion : Fin maxProcBack) :
    Tracks none (emptyShell files mask posicion) where
  distinct := List.nodup_nil
  pos := nofun
  back := nofun
  known _ stored := absurd rfl stored
  once _ _ _ stored := absurd rfl stored
  listed := nofun
  absent := nofun

/-! ## Children taken too early -/

theorem known_stable (faults : Bool) (pending : Option Call) : (kernel faults).Stable pending ShellState.Known := by
  intro s s' known moved
  cases moved with
  | terminate living =>
    intro i stored
    exact (unreaped_perm (children_terminate living) _).mpr (known i stored)
  | enter idle unblocked dead => exact known
  | reap running dead => exact known_reap _ known
  | leave running none => exact known
  | probe scanning idle occupied => exact known

theorem children_terminate_all (pending : Option Call) (s : ShellState) :
    ∃ zombies, Relation.ReflTransGen (Moves pending) s { s with alive := [], zombies := zombies } := by
  induction left : s.alive generalizing s with
  | nil =>
    have same : { s with alive := [] } = s := by rw [← left]
    exact ⟨s.zombies, same ▸ .refl⟩
  | cons child alive ih =>
    have living : child ∈ s.alive := left ▸ List.mem_cons_self
    obtain ⟨zombies, rest⟩ := ih
      (s.terminate child) (by rw [ShellState.terminate, left, List.erase_cons_head])
    exact ⟨zombies, .head (.terminate living) rest⟩

/-- While the handler runs, all children may terminate and be taken; the table is then empty. -/
theorem all_taken (pending : Option Call) (running : s.handling = true) (known : s.Known) :
    ∃ jobs : Jobs, (∀ i, jobs.procesos i = 0) ∧
      Relation.ReflTransGen (Moves pending) s { s with handling := false, alive := [], zombies := [], jobs := jobs } := by
  obtain ⟨zombies, died⟩ := children_terminate_all pending s
  obtain ⟨jobs, taken⟩ := handler_returns pending (s := { s with alive := [], zombies := zombies }) running
  refine ⟨jobs, fun i => ?_, died.trans taken⟩
  have known' := (known_stable false pending).moves known (died.trans taken)
  by_contra stored
  obtain ⟨child, mem, -⟩ := known' i stored
  cases mem

/-- Once its pid is stored, the shell is back at the prompt. -/
def returnsToPrompt : (c : Call) → (c.Answer → ShellProg) → Prop
  | .scan pid, next => ∃ rest : Unit → ShellProg, next () = .call (.store pid) rest ∧ (rest ()).pending = some .getCmd
  | .store _, next => (next ()).pending = some .getCmd
  | _, _ => True

theorem pending_mainLoop (tasks : List Task) : (mainLoop tasks).pending = some .getCmd := by
  cases tasks with
  | nil => rfl
  | cons task tasks => rfl

theorem returns_runBjobs (action : JobAction) {q : ShellProg} (rest : q.Every returnsToPrompt) :
    ((runBjobs action).seq q).Every returnsToPrompt := by
  unfold runBjobs
  induction List.finRange maxProcBack with
  | nil => exact rest
  | cons i indices ih =>
    refine ⟨trivial, fun pid => ?_⟩
    by_cases empty : pid = 0
    · simpa only [empty, ne_eq, not_true, if_false] using ih
    · simp only [ne_eq, empty, not_false_iff, if_true]
      exact ⟨trivial, fun _ => ih⟩

theorem returns_mainLoop (commands : List JobCommand) :
    (mainLoop (commands.map JobCommand.task)).Every returnsToPrompt := by
  have exits : ∀ q : ShellProg, (exit.seq q).Every returnsToPrompt := fun _ => ⟨trivial, nofun⟩
  induction commands with
  | nil => exact ⟨trivial, fun _ => trivial⟩
  | cons command commands ih =>
    refine ⟨trivial, fun _ => ?_⟩
    cases command with
    | background cmd =>
      refine ⟨trivial, fun
        | some pid => ?_
        | none => exits _⟩
      exact ⟨⟨_, rfl, pending_mainLoop _⟩, fun _ => ⟨pending_mainLoop _, fun _ => ih⟩⟩
    | bjobs action =>
      refine ⟨trivial, fun
        | true => ?_
        | false => exits _⟩
      have unblocked : ((setMask .unblock .done).seq (mainLoop (commands.map JobCommand.task))).Every returnsToPrompt :=
        ⟨trivial, fun
          | true => ih
          | false => exits _⟩
      have composed := returns_runBjobs action unblocked
      rwa [← Prog.seq_assoc] at composed

/-- Storing a pid when there are no children leaves a pid that is no child's. -/
theorem stale_store (faults : Bool) {rest : Unit → ShellProg} (ret : (rest ()).pending = some .getCmd) :
    ∃ p' s', (kernel faults).Reaches (.call (.store pid) rest,
        { s with handling := false, alive := [], zombies := [], jobs := jobs }) (p', s') ∧
      p'.pending = some .getCmd ∧ s'.zombies = [] ∧ s'.Listed pid ∧ ¬ s'.Unreaped pid := by
  have answered : (kernel faults).answers { s with handling := false, alive := [], zombies := [], jobs := jobs }
      (.store pid) () { s with handling := false, alive := [], zombies := [], jobs :=
        ⟨update jobs.procesos jobs.posicion pid, jobs.posicion⟩ } := ⟨rfl, rfl⟩
  refine ⟨_, _, .single (.answer answered), ret, rfl, ⟨jobs.posicion, update_self ..⟩, ?_⟩
  rintro ⟨child, mem, -⟩
  cases mem

/-- If the handler takes a child whose pid is still to be stored, the shell may come back
to the prompt with the pid of a child that is gone. -/
theorem stale_of_early {faults : Bool} {p : ShellProg}
    (keeps : KeepsTable faults p (Tracks none) s) (ret : p.Every returnsToPrompt) (running : s.handling = true)
    (dead : child ∈ s.zombies) (unlisted : ¬ s.Listed child.pid) :
    ∃ p' s', (kernel faults).Reaches (p, s.reap child) (p', s') ∧ p'.pending = some .getCmd ∧ s'.zombies = [] ∧
      s'.Listed child.pid ∧ ¬ s'.Unreaped child.pid := by
  have mem : child ∈ s.children := List.mem_append_right _ dead
  have incomplete : ¬ Tracks none s := fun tracks => unlisted (tracks.listed child mem nofun)
  have named : ∀ pid, Tracks (some pid) s → child.pid = pid := by
    intro pid tracks
    by_contra other
    exact unlisted (tracks.listed child mem fun same => other (Option.some.inj same).symm)
  cases p with
  | done => exact absurd (keeps s .refl) incomplete
  | call c next =>
    have guarded := (keeps s .refl).1
    have start : (kernel faults).Reaches (.call c next, s.reap child) (.call c next, s.reap child) := .refl
    cases c with
    | scan pid =>
      have tracks : Tracks (some pid) s := guarded
      obtain rfl := named pid tracks
      obtain ⟨jobs, empty, taken⟩ := all_taken (some (.scan child.pid)) (s := s.reap child) running
        (known_reap child tracks.known)
      obtain ⟨rest, same, ret⟩ := ret.1
      have answered : (kernel faults).answers { s with handling := false, alive := [], zombies := [], jobs := jobs }
          (.scan child.pid) () { s with handling := false, alive := [], zombies := [], jobs := jobs } :=
        ⟨rfl, empty _, rfl⟩
      have found := (start.moves taken).answer answered
      rw [same] at found
      obtain ⟨p', s', stored, stale⟩ := stale_store faults ret
      exact ⟨p', s', found.trans stored, stale⟩
    | store pid =>
      have tracks : Tracks (some pid) s := guarded
      obtain rfl := named pid tracks
      obtain ⟨jobs, -, taken⟩ := all_taken (some (.store child.pid)) (s := s.reap child) running
        (known_reap child tracks.known)
      obtain ⟨p', s', stored, stale⟩ := stale_store faults ret.1
      exact ⟨p', s', (start.moves taken).trans stored, stale⟩
    | getCmd => exact absurd guarded.1 incomplete
    | report action pid => exact absurd guarded.1 incomplete
    | _ => exact absurd guarded incomplete

/-- Background commands and `bjobs` in any order, with the handler taking background
children only when their pids are in the table: at the prompt with no child left to take
the table is exact, and `bjobs` names only children.  The condition is needed: whenever
the handler can take a background child whose pid is not in the table, the shell may
come back to the prompt with that pid in it. -/
theorem background_table_exact (faults : Bool) (files : Files) (mask : Signal → Bool) (posicion : Fin maxProcBack)
    (commands : List JobCommand) {p : ShellProg} {s : ShellState}
    (reaches : (listedReaps faults).Reaches
      (mainLoop (commands.map JobCommand.task), emptyShell files mask posicion) (p, s)) :
    (p.pending = some .getCmd → s.zombies = [] → s.Exact) ∧
      (∀ action pid, p.pending = some (.report action pid) → s.Unreaped pid) ∧
      ∀ child ∈ s.zombies, s.handling = true → ¬ s.Listed child.pid →
        ∃ p' s', (kernel faults).Reaches (p, s.reap child) (p', s') ∧ p'.pending = some .getCmd ∧ s'.zombies = [] ∧
          s'.Listed child.pid ∧ ¬ s'.Unreaped child.pid := by
  have keeps := wp_reaches (keeps_mainLoop commands (tracks_emptyShell files mask posicion)) reaches
  refine ⟨fun atPrompt => ?_, fun action pid reports => ?_, fun child dead running unlisted => ?_⟩
  · exact (guard_of_pending keeps atPrompt).2
  · exact (guard_of_pending keeps reports).2
  · exact stale_of_early keeps (every_of_reaches (returns_mainLoop commands) reaches) running dead unlisted

/-- The shell with one background child, whose pid is at position 0 of the table or not. -/
def oneJob (listed : Nat) : ShellState :=
  { startShell with alive := [⟨1, .back⟩], jobs := ⟨update (fun _ => 0) 0 listed, 0⟩ }

theorem reaches_fork {env : Environment Call Call.Answer ShellState}
    (prompt : env.answers startShell .getCmd () startShell)
    (forked : env.answers startShell (.fork .back) (some 1) (oneJob 0)) :
    env.Reaches (mainLoop [.back (.exec .external)], startShell)
      ((addProcesoBackground 1).seq (mainLoop []), oneJob 0) :=
  .head (.answer prompt) (.single (.answer forked))

theorem oneJob_forked : (kernel false).answers startShell (.fork .back) (some 1) (oneJob 0) := by
  have fresh : ¬ startShell.Unreaped 1 := fun ⟨_, mem, _⟩ => nomatch mem
  have empty : update (fun _ : Fin maxProcBack => 0) 0 0 = fun _ => 0 := update_eq_self ..
  have same : oneJob 0 = { startShell with alive := [⟨1, .back⟩] } := by
    rw [oneJob, empty]
    rfl
  exact ⟨rfl, Nat.one_ne_zero, fresh, same⟩

/-- A background child that is listed, terminates and is taken by the handler. -/
theorem background_table_exact_reaped : (oneJob 1).Exact ∧ ∃ s, (listedReaps false).Reaches
    (mainLoop [.back (.exec .external)], startShell) (mainLoop [], s) ∧ s.children = [] ∧ s.Exact ∧ ¬ s.Listed 1 := by
  have prompt : (listedReaps false).answers startShell .getCmd () startShell := ⟨⟨rfl, rfl⟩, trivial⟩
  have scanned : (listedReaps false).answers (oneJob 0) (.scan 1) () (oneJob 0) := ⟨⟨rfl, rfl, rfl⟩, trivial⟩
  have same : oneJob 1 = { oneJob 0 with jobs := ⟨update (oneJob 0).jobs.procesos 0 1, 0⟩ } := by
    simp only [oneJob, update_idem]
  have stored : (listedReaps false).answers (oneJob 0) (.store 1) () (oneJob 1) := ⟨⟨rfl, same⟩, trivial⟩
  have listed : (listedReaps false).Reaches
      (mainLoop ([JobCommand.background (.exec .external)].map JobCommand.task),
        emptyShell startShell.files startShell.mask 0) (mainLoop [], oneJob 1) :=
    ((reaches_fork prompt ⟨oneJob_forked, trivial⟩).answer scanned).answer stored
  have died := listed.move ⟨Moves.terminate (List.mem_singleton_self _), fun _ mem => absurd mem List.not_mem_nil⟩
  have entered := died.move ⟨Moves.enter rfl rfl (List.cons_ne_nil _ _), fun _ mem gone => absurd mem gone⟩
  have there : (oneJob 1).Listed 1 := ⟨0, rfl⟩
  have reaped := entered.move ⟨Moves.reap rfl (List.mem_singleton_self _), fun child mem _ _ => by
    rw [List.mem_singleton.mp mem]
    exact there⟩
  have left := reaped.move ⟨Moves.leave rfl rfl, fun _ mem => absurd mem List.not_mem_nil⟩
  have exact := (background_table_exact false _ _ _ _ left).1 rfl rfl
  refine ⟨(background_table_exact false _ _ _ _ listed).1 rfl rfl, _, left, rfl, exact, fun still => ?_⟩
  obtain ⟨child, alive, -⟩ := (exact.live 1 Nat.one_ne_zero).mp still
  cases alive

/-- The child terminates and the handler takes it before its pid is stored. -/
theorem stale_job_at_prompt : ∃ s,
    (kernel false).Reaches (mainLoop [.back (.exec .external)], startShell) (mainLoop [], s) ∧
      s.alive = [] ∧ s.zombies = [] ∧ s.Listed 1 := by
  have prompt : (kernel false).answers startShell .getCmd () startShell := ⟨rfl, rfl⟩
  have living : ⟨1, .back⟩ ∈ (oneJob 0).alive := List.mem_singleton_self _
  have died := (reaches_fork prompt oneJob_forked).move (Moves.terminate living)
  have entered := died.move (Moves.enter rfl rfl (List.cons_ne_nil _ _))
  have reaped := entered.move (Moves.reap rfl (List.mem_singleton_self _))
  have left := reaped.move (Moves.leave rfl rfl)
  have scanned : (kernel false).Reaches _ (.call (.store 1) fun _ => mainLoop [], _) :=
    left.answer (a := ()) ⟨rfl, rfl, rfl⟩
  have stored := scanned.answer (a := ()) ⟨rfl, rfl⟩
  exact ⟨_, stored, rfl, rfl, 0, rfl⟩

end Xv6Simplesh.Shell
