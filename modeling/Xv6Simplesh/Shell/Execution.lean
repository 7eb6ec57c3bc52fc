import Mathlib.Algebra.GroupWithZero.Nat
import Mathlib.Data.List.FinRange
import Xv6Simplesh.Library.Programs

/-! # Running commands

`run_cmd` as the shell process runs it: a program that makes system calls and works on
the table of background jobs.  What a child does after `fork` is not the shell's; a child
may terminate at any time.  `handle_sigchld` interrupts the program wherever `SIGCHLD` is
not blocked and a child has terminated.
-/

namespace Xv6Simplesh.Shell

open Library Function

/-- `MAX_PROC_BACK`. -/
abbrev maxProcBack : Nat := 8

theorem maxProcBack_ne_zero : maxProcBack ≠ 0 := by decide

instance : NeZero maxProcBack := ⟨maxProcBack_ne_zero⟩

/-! ## Commands -/

/-- The descriptor of a redirection: `<` has 0, `>` and `>>` have 1. -/
inductive Stream where
  | input
  | output
deriving DecidableEq, Repr

def Stream.fd : Stream → Nat
  | .input => 0
  | .output => 1

/-- What `bjobs` does with each job. -/
inductive JobAction where
  | print
  | stop
  | cont
deriving DecidableEq, Repr

mutual

/-- A command tree; `null` is the null pointer. -/
inductive Task where
  | null
  | exec (cmd : Command)
  | redr (cmd : Task) (stream : Stream)
  | pipe (left right : Task)
  | list (left right : Task)
  | back (cmd : Task)
  | subs (cmd : Task)

/-- An `EXEC` node: an external command, or a builtin with what it goes through. -/
inductive Command where
  | external
  | cwd
  | exit
  | cd
  /-- With the number of files named. -/
  | hd (files : Nat)
  /-- With files named or on the standard input. -/
  | src (files : Bool) (rounds : Rounds)
  | bjobs (action : JobAction)

/-- The rounds of the loop of `run_src`, each with the commands that it reads and runs. -/
inductive Rounds where
  | nil
  | cons (script : Task) (rest : Rounds)

end

/-- `is_interno`. -/
def Command.isInterno : Command → Bool
  | .external => false
  | _ => true

/-- `hd` and `src`, for which `REDR` closes the descriptor. -/
def Command.closes : Command → Bool
  | .hd _ => true
  | .src _ _ => true
  | _ => false

/-! ## Calls -/

/-- The calls of `fork_or_panic`. -/
inductive ForkSite where
  | exec
  | redr
  | pipeLeft
  | pipeRight
  | back
  | subs
deriving DecidableEq, Repr

inductive How where
  | block
  | unblock
deriving DecidableEq, Repr

/-- System calls, and the accesses to the table of background jobs. -/
inductive Call where
  | sigprocmask (how : How)
  | fork (site : ForkSite)
  | waitpid (pid : Nat)
  | pipe
  | open
  | read (fd : Nat)
  | close (fd : Nat)
  /-- The loop of `add_proceso_background` for `pid`. -/
  | scan (pid : Nat)
  /-- `procesos->procesos[procesos->posicion] = pid`. -/
  | store (pid : Nat)
  | readJob (i : Fin maxProcBack)
  /-- `printf` or `kill` in `bjobs`. -/
  | report (action : JobAction) (pid : Nat)
  | exit
  /-- `get_cmd`: the shell is at the prompt. -/
  | getCmd
deriving DecidableEq

/-- What a call returns; `false` and `none` stand for `-1`. -/
@[reducible] def Call.Answer : Call → Type
  | .sigprocmask _ => Bool
  | .fork _ => Option Nat
  | .waitpid _ => Bool
  | .pipe => Option (Nat × Nat)
  | .open => Option Nat
  | .read _ => Bool
  | .close _ => Bool
  | .scan _ => Unit
  | .store _ => Unit
  | .readJob _ => Nat
  | .report _ _ => Unit
  | .exit => Empty
  | .getCmd => Unit

abbrev ShellProg := Prog Call Call.Answer

/-! ## `run_cmd` -/

def exit : ShellProg := .call .exit nofun

/-- `sigprocmask(how, {SIGCHLD})`, with `exit` on failure. -/
def setMask (how : How) (next : ShellProg) : ShellProg :=
  .call (.sigprocmask how) fun
    | true => next
    | false => exit

/-- `TRY(waitpid(pid, NULL, 0))`. -/
def tryWaitpid (pid : Nat) (next : ShellProg) : ShellProg :=
  .call (.waitpid pid) fun
    | true => next
    | false => exit

/-- `TRY(close(fd))`. -/
def tryClose (fd : Nat) (next : ShellProg) : ShellProg :=
  .call (.close fd) fun
    | true => next
    | false => exit

/-- `fork_or_panic`, in the parent. -/
def forkOrPanic (site : ForkSite) (next : Nat → ShellProg) : ShellProg :=
  .call (.fork site) fun
    | some pid => next pid
    | none => exit

def addProcesoBackground (pid : Nat) : ShellProg :=
  .call (.scan pid) fun _ => .call (.store pid) fun _ => .done

/-- The loop of `run_hd` over its files.  It goes on to the next file only if all reads
succeed; after a failed one it returns and leaves the file open. -/
def runHd : Nat → ShellProg
  | 0 => .done
  | files + 1 =>
    .call .open fun
      | none => .done
      | some fd => .call (.read fd) fun
        | true => .call (.close fd) fun _ => runHd files
        | false => .done

def runBjobs (action : JobAction) : ShellProg :=
  (List.finRange maxProcBack).foldr (fun i next =>
    .call (.readJob i) fun pid => if pid ≠ 0 then .call (.report action pid) fun _ => next else next) .done

mutual

def runCmd : Task → ShellProg
  | .null => .done
  | .exec cmd =>
    setMask .block <| (if cmd.isInterno then runInterno cmd
      else forkOrPanic .exec fun pid => tryWaitpid pid .done).seq <| setMask .unblock .done
  | .redr (.exec cmd) stream =>
    setMask .block <|
      if cmd.isInterno then
        let redirected := .call .open fun
          | none => exit
          | some _ => runInterno cmd
        if cmd.closes then tryClose stream.fd redirected else redirected
      else forkOrPanic .redr fun pid => tryWaitpid pid <| setMask .unblock .done
  | .redr _ _ =>
    setMask .block <| forkOrPanic .redr fun pid => tryWaitpid pid <| setMask .unblock .done
  | .list left right => (runCmd left).seq (runCmd right)
  | .pipe _ _ =>
    .call .pipe fun
      | none => exit
      | some (p0, p1) =>
        setMask .block <| forkOrPanic .pipeLeft fun left => forkOrPanic .pipeRight fun right =>
          tryClose p0 <| tryClose p1 <| tryWaitpid left <| tryWaitpid right <| setMask .unblock .done
  | .back _ => forkOrPanic .back addProcesoBackground
  | .subs _ => forkOrPanic .subs fun pid => tryWaitpid pid .done

/-- `run_interno`. -/
def runInterno : Command → ShellProg
  | .external => .done
  | .cwd => .done
  | .exit => exit
  | .cd => .done
  | .hd files => runHd files
  | .src files rounds => runSrc files rounds
  | .bjobs action => runBjobs action

/-- The loop of `run_src`; after a failed read it returns and leaves the file open. -/
def runSrc (files : Bool) : Rounds → ShellProg
  | .nil => .done
  | .cons script rest =>
    if files then
      .call .open fun
        | none => .done
        | some fd => (runCmd script).seq <| .call (.read fd) fun
          | true => .call (.close fd) fun _ => runSrc files rest
          | false => .done
    else (runCmd script).seq <| .call (.read 0) fun
      | true => runSrc files rest
      | false => .done

end

/-- The loop of `main`. -/
def mainLoop : List Task → ShellProg
  | [] => .call .getCmd fun _ => .done
  | task :: tasks => .call .getCmd fun _ => (runCmd task).seq (mainLoop tasks)

/-! ## The shell process -/

inductive Signal where
  | sigint
  | sigquit
  | sigchld
deriving DecidableEq, Repr

structure Child where
  pid : Nat
  /-- Where it was forked. -/
  site : ForkSite
deriving DecidableEq, Repr

/-- The descriptor table; every `open` makes a new open file. -/
structure Files where
  table : Nat → Option Nat
  next : Nat
  old : ∀ fd file, table fd = some file → file < next

namespace Files

/-- The new file gets descriptor `fd`. -/
def install (f : Files) (fd : Nat) : Files where
  table := update f.table fd (some f.next)
  next := f.next + 1
  old other file held := by
    by_cases same : other = fd
    · rw [same, update_self] at held
      cases held
      exact Nat.lt_succ_self _
    · rw [update_of_ne same] at held
      exact Nat.lt_succ_of_lt (f.old other file held)

def close (f : Files) (fd : Nat) : Files where
  table := update f.table fd none
  next := f.next
  old other file held := by
    by_cases same : other = fd
    · rw [same, update_self] at held
      cases held
    · rw [update_of_ne same] at held
      exact f.old other file held

/-- `fd` is the lowest descriptor that is not in use. -/
def Lowest (f : Files) (fd : Nat) : Prop := f.table fd = none ∧ ∀ lower, lower < fd → f.table lower ≠ none

end Files

/-- `struct procesos_background`. -/
structure Jobs where
  procesos : Fin maxProcBack → Nat
  posicion : Fin maxProcBack

/-- `delete_proceso_background`. -/
def Jobs.delete (jobs : Jobs) (pid : Nat) : Jobs :=
  { jobs with procesos := fun i => if pid = jobs.procesos i then 0 else jobs.procesos i }

structure ShellState where
  files : Files
  /-- The blocked signals. -/
  mask : Signal → Bool
  /-- Whether `handle_sigchld` is running. -/
  handling : Bool
  alive : List Child
  /-- The children that have terminated and have not been waited for. -/
  zombies : List Child
  jobs : Jobs

namespace ShellState

/-- The children that have not been waited for. -/
def children (s : ShellState) : List Child := s.alive ++ s.zombies

/-- `pid` is a child that has not been waited for. -/
def Unreaped (s : ShellState) (pid : Nat) : Prop := ∃ child ∈ s.children, child.pid = pid

def setMask (s : ShellState) (how : How) : ShellState :=
  { s with mask := update s.mask .sigchld (decide (how = .block)) }

def terminate (s : ShellState) (child : Child) : ShellState :=
  { s with alive := s.alive.erase child, zombies := child :: s.zombies }

/-- `handle_sigchld` waits for the child and deletes its pid. -/
def reap (s : ShellState) (child : Child) : ShellState :=
  { s with zombies := s.zombies.erase child, jobs := s.jobs.delete child.pid }

@[simp] theorem setMask_sigchld (s : ShellState) (how : How) :
    (s.setMask how).mask .sigchld = decide (how = .block) := by
  simp only [setMask, update_self]

end ShellState

/-- What an answer does; with `faults`, calls may fail. -/
def effect (faults : Bool) (s : ShellState) : (c : Call) → c.Answer → ShellState → Prop
  | .sigprocmask how, true, s' => s' = s.setMask how
  | .sigprocmask _, false, s' => faults ∧ s' = s
  | .fork site, some pid, s' => pid ≠ 0 ∧ ¬ s.Unreaped pid ∧ s' = { s with alive := ⟨pid, site⟩ :: s.alive }
  | .fork _, none, s' => faults ∧ s' = s
  | .waitpid pid, true, s' =>
    ∃ child ∈ s.zombies, child.pid = pid ∧ s' = { s with zombies := s.zombies.erase child }
  | .waitpid pid, false, s' => ¬ s.Unreaped pid ∧ s' = s
  | .pipe, some (p0, p1), s' =>
    s.files.Lowest p0 ∧ (s.files.install p0).Lowest p1 ∧ s' = { s with files := (s.files.install p0).install p1 }
  | .pipe, none, s' => faults ∧ s' = s
  | .open, some fd, s' => s.files.Lowest fd ∧ s' = { s with files := s.files.install fd }
  | .open, none, s' => faults ∧ s' = s
  | .read _, true, s' => s' = s
  | .read _, false, s' => faults ∧ s' = s
  | .close fd, true, s' => s.files.table fd ≠ none ∧ s' = { s with files := s.files.close fd }
  | .close fd, false, s' => faults ∧ s.files.table fd = none ∧ s' = s
  | .scan _, (), s' => s.jobs.procesos s.jobs.posicion = 0 ∧ s' = s
  | .store pid, (), s' =>
    s' = { s with jobs := { s.jobs with procesos := update s.jobs.procesos s.jobs.posicion pid } }
  | .readJob i, pid, s' => pid = s.jobs.procesos i ∧ s' = s
  | .report _ _, (), s' => s' = s
  | .getCmd, (), s' => s' = s

/-- What happens beside the program: a child terminates, `handle_sigchld` runs, and the
loop of `add_proceso_background` goes on to the next position. -/
inductive Moves (pending : Option Call) : ShellState → ShellState → Prop where
  | terminate {s : ShellState} {child : Child} (living : child ∈ s.alive) :
      Moves pending s (s.terminate child)
  | enter {s : ShellState} (idle : s.handling = false) (unblocked : s.mask .sigchld = false) (dead : s.zombies ≠ []) :
      Moves pending s { s with handling := true }
  | reap {s : ShellState} {child : Child} (running : s.handling = true) (dead : child ∈ s.zombies) :
      Moves pending s (s.reap child)
  | leave {s : ShellState} (running : s.handling = true) (none : s.zombies = []) :
      Moves pending s { s with handling := false }
  | probe {s : ShellState} {pid : Nat} (scanning : pending = some (.scan pid)) (idle : s.handling = false)
      (occupied : s.jobs.procesos s.jobs.posicion ≠ 0) :
      Moves pending s { s with jobs := { s.jobs with posicion := s.jobs.posicion + 1 } }

/-- The program goes on only while the handler does not run. -/
def kernel (faults : Bool) : Environment Call Call.Answer ShellState where
  answers s c a s' := s.handling = false ∧ effect faults s c a s'
  moves := Moves

end Xv6Simplesh.Shell
