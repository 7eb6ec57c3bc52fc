import Mathlib.Data.List.Infix

/-! # The builtin `cd`

`run_cd` keeps the directory from which it came in the variable `OLDPWD`.  It sets the variable
before it calls `chdir`, so a call that fails has already changed it.
-/

namespace Xv6Simplesh.Shell.Cd

/-- Directories, with the calls that `run_cd` makes.  `getcwd` returns a path that leads to the
directory from everywhere. -/
structure FileSystem (Dir : Type) where
  getcwd : Dir → String
  /-- From a directory; `none` where it fails. -/
  chdir : Dir → String → Option Dir
  absolute : ∀ here there, chdir here (getcwd there) = some there

structure State (Dir : Type) where
  cwd : Dir
  /-- The variable `OLDPWD`. -/
  oldpwd : Option String
  /-- What has been printed. -/
  output : List String
deriving DecidableEq, Repr

def State.printf {Dir : Type} (s : State Dir) (text : String) : State Dir := { s with output := s.output ++ [text] }

section Cd

variable {Dir : Type} (fs : FileSystem Dir) (home : Option String) (s : State Dir)

/-- What `path` is when `chdir` is called; `none` stands for the null pointer, and an error is
the return when `OLDPWD` is not set. -/
def destination : Option String → Except String (Option String)
  | none => .ok home
  | some path =>
    if path = "-" then
      match s.oldpwd with
      | none => .error "run_cd: Variable OLDPWD no definida\n"
      | some old => .ok (some old)
    else .ok (some path)

def runCd (path : Option String) : State Dir :=
  match destination home s path with
  | .error text => s.printf text
  | .ok path =>
    -- the string that `path` points to is still there after `setenv`
    let s := { s with oldpwd := some (fs.getcwd s.cwd) }
    match path.bind (fs.chdir s.cwd) with
    | none => s.printf ("run_cd: No existe el directorio '" ++ path.getD "(null)" ++ "'\n")
    | some dir => { s with cwd := dir }

/-- The branch of `run_interno` for `cd`, with the arguments after the name. -/
def runInterno (args : List String) : State Dir :=
  if args.length + 1 > 2 then s.printf "run_cd: Demasiados argumentos\n" else runCd fs home s args.head?

/-- The state after some commands. -/
def runAll (cds : List (List String)) : State Dir := cds.foldl (runInterno fs home) s

/-! ## What the commands should do -/

/-- The path that a command has `chdir` called with. -/
def calls (args : List String) : Option (Option String) :=
  if args.length + 1 > 2 then none else (destination home s args.head?).toOption

/-- The command calls `chdir` and the call fails. -/
def ChdirFails (args : List String) : Prop := ∃ path, calls home s args = some path ∧ path.bind (fs.chdir s.cwd) = none

/-- The directory that a command leads to, if any. -/
def leadsTo (args : List String) : Option Dir := (calls home s args).bind fun path => path.bind (fs.chdir s.cwd)

/-- A command that leads to a directory goes there and sets `OLDPWD` to the directory it came
from; any other leaves both as they are. -/
def Consistent (args : List String) : Prop :=
  match leadsTo fs home s args with
  | some dir => (runInterno fs home s args).cwd = dir ∧ (runInterno fs home s args).oldpwd = some (fs.getcwd s.cwd)
  | none => (runInterno fs home s args).cwd = s.cwd ∧ (runInterno fs home s args).oldpwd = s.oldpwd

/-- `cd -` after a command that went somewhere, and others that did not, returns to where it
came from. -/
def Returns (cds : List (List String)) : Prop :=
  ∀ front args failed, front ++ args :: failed ++ [["-"]] <+: cds →
    (leadsTo fs home (runAll fs home s front) args).isSome →
    (∀ between other, between ++ [other] <+: failed →
      leadsTo fs home (runAll fs home s (front ++ args :: between)) other = none) →
    (runAll fs home s (front ++ args :: failed ++ [["-"]])).cwd = (runAll fs home s front).cwd

end Cd

variable {Dir : Type} {fs : FileSystem Dir} {home : Option String} {s : State Dir} {args : List String}

theorem runAll_concat (cds : List (List String)) :
    runAll fs home s (cds ++ [args]) = runInterno fs home (runAll fs home s cds) args := by
  rw [runAll, List.foldl_append]
  rfl

/-- What a command does, by what it has `chdir` called with. -/
theorem runInterno_calls (fs : FileSystem Dir) (home : Option String) (s : State Dir) (args : List String) :
    (runInterno fs home s args).cwd = (leadsTo fs home s args).getD s.cwd ∧
      (runInterno fs home s args).oldpwd =
        if (calls home s args).isSome then some (fs.getcwd s.cwd) else s.oldpwd := by
  simp only [runInterno, leadsTo, calls]
  split
  · simp [State.printf]
  · simp only [runCd]
    cases destination home s args.head? with
    | error text => simp [State.printf, Except.toOption]
    | ok path =>
      cases found : path.bind (fs.chdir s.cwd) with
      | none => simp [State.printf, Except.toOption, found]
      | some dir => simp [Except.toOption, found]

theorem consistent_iff (args : List String) :
    Consistent fs home s args ↔ (ChdirFails fs home s args → s.oldpwd = some (fs.getcwd s.cwd)) := by
  obtain ⟨cwd, oldpwd⟩ := runInterno_calls fs home s args
  simp only [Consistent, ChdirFails, cwd, oldpwd]
  simp only [leadsTo]
  cases calls home s args with
  | none => simp
  | some path =>
    cases found : path.bind (fs.chdir s.cwd) with
    | none => simp [found, eq_comm]
    | some dir => simp only [found, Option.bind_some, Option.getD_some, Option.isSome_some, if_true, and_self,
        Option.some.injEq, exists_eq_left', reduceCtorEq, false_implies]

/-- If all commands do what they should then `cd -` returns. -/
theorem returns_of_consistent {cds : List (List String)}
    (consistent : ∀ front args, front ++ [args] <+: cds → Consistent fs home (runAll fs home s front) args) :
    Returns fs home s cds := by
  intro front args failed inside success fails
  -- up to `cd -` the variable holds the directory before the command that went somewhere
  have kept : ∀ between, between <+: failed →
      (runAll fs home s (front ++ args :: between)).oldpwd = some (fs.getcwd (runAll fs home s front).cwd) := by
    intro between
    induction between using List.reverseRecOn with
    | nil =>
      intro _
      have first := consistent front args (List.IsPrefix.trans ⟨failed ++ [["-"]], by simp⟩ inside)
      obtain ⟨dir, found⟩ := Option.isSome_iff_exists.mp success
      rw [Consistent, found] at first
      rw [runAll_concat]
      exact first.2
    | append_singleton between other ih =>
      intro part
      have stays := fails between other part
      have before := ih ((List.prefix_append ..).trans part)
      obtain ⟨rest, rfl⟩ := part
      have step := consistent (front ++ args :: between) other
        (List.IsPrefix.trans ⟨rest ++ [["-"]], by simp⟩ inside)
      rw [Consistent, stays] at step
      rw [show front ++ args :: (between ++ [other]) = (front ++ args :: between) ++ [other] by simp, runAll_concat,
        step.2, before]
  rw [runAll_concat, (runInterno_calls ..).1]
  have back : leadsTo fs home (runAll fs home s (front ++ args :: failed)) ["-"] =
      some (runAll fs home s front).cwd := by
    simp [leadsTo, calls, destination, kept failed List.prefix_rfl, Except.toOption, fs.absolute]
  rw [back, Option.getD_some]

/-- From a shell in which `OLDPWD` is not set: every `cd` is consistent, and `cd -` returns, if
and only if `chdir` fails only where `OLDPWD` already is the current directory. -/
theorem cd_consistent_iff (fs : FileSystem Dir) (home : Option String) (start : Dir) (output : List String)
    (cds : List (List String)) :
    (∀ front args, front ++ [args] <+: cds → Consistent fs home (runAll fs home ⟨start, none, output⟩ front) args) ∧
        Returns fs home ⟨start, none, output⟩ cds ↔
      ∀ front args, front ++ [args] <+: cds →
        ChdirFails fs home (runAll fs home ⟨start, none, output⟩ front) args →
        (runAll fs home ⟨start, none, output⟩ front).oldpwd =
          some (fs.getcwd (runAll fs home ⟨start, none, output⟩ front).cwd) := by
  simp only [← consistent_iff]
  exact and_iff_left_of_imp returns_of_consistent

/-- Two directories, the second of them below the first. -/
def twoDirectories : FileSystem Bool where
  getcwd dir := if dir then "/a" else "/"
  chdir here path :=
    if path = "/" then some false
    else if path = "/a" ∨ here = false ∧ path = "a" then some true
    else none
  absolute here there := by cases there <;> simp

/-- `cd a` from the root, then `cd b`, which does not exist: `OLDPWD` is now `/a`, and `cd -`
stays there. -/
theorem cd_failed_overwrites :
    ∃ (fs : FileSystem Bool) (start : State Bool), start.oldpwd = none ∧
      runAll fs none start [["a"]] = ⟨true, some "/", []⟩ ∧
      ChdirFails fs none (runAll fs none start [["a"]]) ["b"] ∧
      runAll fs none start [["a"], ["b"]] = ⟨true, some "/a", ["run_cd: No existe el directorio 'b'\n"]⟩ ∧
      (runAll fs none start [["a"], ["b"], ["-"]]).cwd ≠ start.cwd :=
  ⟨twoDirectories, ⟨false, none, []⟩, rfl, by decide, ⟨some "b", by decide, by decide⟩, by decide, by decide⟩

end Xv6Simplesh.Shell.Cd
