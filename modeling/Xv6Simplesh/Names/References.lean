import Xv6Simplesh.Names.Effects

/-! # What a call does to the processes

The references to inodes that processes have, and what `open`, `chdir`, `close` and `exit` do to
them.  `plan` is the effect of any call on the inodes and the processes, as a function of the state
before it; `wp_perform` says that this is what a call does, and frees what has lapsed then.
-/

namespace Xv6Simplesh.Names

open Library Library.Command Function

/-! ## References of processes -/

/-- How often the process refers to the inode. -/
def Proc.refers (proc : Proc) (i : Nat) : Nat := (if proc.cwd = some i then 1 else 0) + tally proc.ofile i

/-- How often processes refer to the inode. -/
def uses {Pid : Type} [Fintype Pid] (procs : Pid → Proc) (i : Nat) : Nat := ∑ p, (procs p).refers i

theorem Proc.refers_setFile (proc : Proc) (fd : Fin nofile) (entry : Option Nat) (i : Nat) :
    (proc.setFile fd entry).refers i + (if proc.ofile fd = some i then 1 else 0) =
      proc.refers i + if entry = some i then 1 else 0 := by
  have table := tally_update proc.ofile fd entry i
  unfold setFile refers
  dsimp only
  omega

section Uses

variable {Pid : Type} [Fintype Pid] [DecidableEq Pid] {procs : Pid → Proc} {p : Pid} {i : Nat}

theorem uses_update (procs : Pid → Proc) (p : Pid) (proc : Proc) (i : Nat) :
    uses (update procs p proc) i + (procs p).refers i = uses procs i + proc.refers i :=
  sum_update_add procs (fun proc => proc.refers i) p proc

omit [DecidableEq Pid] in
theorem uses_cwd_pos (alive : (procs p).cwd = some i) : 0 < uses procs i := by
  refine Nat.lt_of_lt_of_le ?_ (weight_le_sum procs (fun proc => proc.refers i) p)
  simp only [Proc.refers, alive, if_true]
  omega

theorem uses_chdir {cwd : Nat} (alive : (procs p).cwd = some cwd) (cwd' : Option Nat) (j : Nat) :
    uses procs j + (if cwd' = some j then 1 else 0) =
      uses (update procs p ⟨cwd', (procs p).ofile⟩) j + if j = cwd then 1 else 0 := by
  have updated := uses_update procs p ⟨cwd', (procs p).ofile⟩ j
  simp only [Proc.refers, alive, Option.some.injEq, eq_comm (a := cwd)] at updated
  omega

theorem uses_setFile (procs : Pid → Proc) (p : Pid) (fd : Fin nofile) (entry : Option Nat) (j : Nat) :
    uses (update procs p ((procs p).setFile fd entry)) j + (if (procs p).ofile fd = some j then 1 else 0) =
      uses procs j + if entry = some j then 1 else 0 := by
  have updated := uses_update procs p ((procs p).setFile fd entry) j
  have file := (procs p).refers_setFile fd entry j
  omega

end Uses

/-! ## Plans -/

/-- The process that has called `chdir`. -/
def moved (inodes : Inodes) (cwd : Nat) (path : Path) (proc : Proc) : Proc :=
  match find inodes false (elements path) (origin cwd path) with
  | none => proc
  | some (ip, _) => if (inodes ip).type = .dir then ⟨some ip, proc.ofile⟩ else proc

variable {Pid : Type} [Fintype Pid] [DecidableEq Pid]

/-- The descriptor that `sys_open` gets. -/
def State.newFd (s : State Pid) (p : Pid) : Option (Fin nofile) :=
  if s.openFiles < nfile then fdalloc (s.procs p) else none

def State.withFile (s : State Pid) (p : Pid) : Option Nat → Pid → Proc
  | none => s.procs
  | some ip =>
    match s.newFd p with
    | none => s.procs
    | some fd => update s.procs p ((s.procs p).setFile fd (some ip))

def Proc.closed (proc : Proc) (fd : Option Int) : Proc :=
  match argfd proc.ofile fd with
  | none => proc
  | some (fd, _) => proc.setFile fd none

/-- The inodes and the processes after a call, but for the inodes that it frees. -/
def plan (s : State Pid) (p : Pid) (cwd : Nat) : Call → Inodes × (Pid → Proc)
  | .openFile (some path) (some omode) =>
    let res := opened s.inodes cwd path omode
    (res.1, s.withFile p res.2)
  | .mkdir (some path) => ((created s.inodes cwd path .dir 0 0).1, s.procs)
  | .mknod (some path) (some major) (some minor) =>
    ((created s.inodes cwd path .dev (short major) (short minor)).1, s.procs)
  | .link (some old) (some new) => (linked s.inodes cwd old new, s.procs)
  | .unlink (some path) => (unlinked s.inodes cwd path, s.procs)
  | .chdir (some path) => (s.inodes, update s.procs p (moved s.inodes cwd path (s.procs p)))
  | .close fd => (s.inodes, update s.procs p ((s.procs p).closed fd))
  | .exit => (s.inodes, update s.procs p ⟨none, fun _ => none⟩)
  | _ => (s.inodes, s.procs)

section Processes

variable {inodes : Inodes} {procs : Pid → Proc} {users : Nat → Nat} {extra held : List Nat} {s : State Pid}
  {p : Pid} {cwd ip i : Nat} {path : Path} {lost : Prop}

omit [Fintype Pid] in
theorem wp_updateProc (busy : Busy inodes procs users extra held s) (p : Pid) (change : Proc → Proc) :
    wp (updateProc p change)
      (fun _ s' => Busy inodes (update procs p (change (procs p))) users extra held s') (Unless lost) s := by
  obtain rfl := busy.procs
  exact { busy with procs := rfl }

omit [Fintype Pid] [DecidableEq Pid] in
theorem wp_release (busy : Busy (sweep inodes users) procs users [] [] s) (root : (inodes rootIno).nlink ≠ 0)
    {users' : Nat → Nat} (given : ∀ j, users j = users' j + if j = i then 1 else 0) :
    wp (iput i) (fun _ s' => Busy (sweep inodes users') procs users' [] [] s') (Unless lost) s := by
  have used : 0 < users i := by
    rw [given, if_pos rfl]
    omega
  have known : s.valid i = true ∨ ¬ (sweep inodes users i).Lapsed (users' i + [].count i) := by
    refine (busy.valid i used).imp id ?_
    rintro rfl lapsed
    have linkless := lapsed.2.1
    unfold sweep at linkless
    split at linkless <;> exact root linkless
  refine wp_mono (wp_iput (busy.takeOver given) known) ?_
  intro _ _ put
  rwa [List.count_nil, Nat.add_zero, collect_sweep given] at put

theorem wp_sysChdir (ready : Ready inodes procs (uses procs) cwd lost s) (alive : (procs p).cwd = some cwd)
    (procs' : Pid → Proc) (next : procs' = update procs p (moved inodes cwd path (procs p))) :
    wp (sysChdir p cwd (some path))
      (fun _ s' => Busy (sweep inodes (uses procs')) procs' (uses procs') [] [] s') (Unless lost) s := by
  have unchanged := sweep_of_kept ready.kept
  refine wp_bind (wp_namex ready.busy ready.kept ready.present ready.missing) ?_
  rintro res _ ⟨found, walked⟩
  unfold moved at next
  rw [← found] at next
  cases res with
  | none =>
    dsimp only at next
    rw [update_eq_self] at next
    rw [next, unchanged]
    exact walked
  | some target =>
    obtain ⟨ip, name⟩ := target
    dsimp only at next ⊢
    refine wp_bind (wp_ilock walked (.head _) ?_) ?_
    · exact ready.missing ip (Visits.find found.symm)
    rintro _ _ ⟨rfl, alloc, locked⟩
    split
    next notDir =>
      rw [if_neg notDir, update_eq_self] at next
      rw [next, unchanged]
      exact wp_bind (wp_iunlockput_kept locked ready.kept) fun _ _ put => put
    next isDir =>
      rw [if_pos (not_not.mp isDir)] at next
      refine wp_bind (wp_iunlock locked) ?_
      rintro _ _ ⟨unlocked, loaded⟩
      -- the new directory is referred to before the old one is left
      have given : ∀ j, (fun j => uses procs j + if some ip = some j then 1 else 0) j =
          uses procs j + if j = ip then 1 else 0 := by
        intro j
        simp only [Option.some.injEq, eq_comm (a := ip)]
      have shared := unlocked.handOver loaded List.not_mem_nil given
      have still : sweep inodes (fun j => uses procs j + if some ip = some j then 1 else 0) = inodes :=
        sweep_of_kept (ready.kept.mono fun j => Nat.le_add_right _ _)
      rw [← still] at shared
      refine wp_bind (wp_release shared ready.root.2 (uses_chdir alive (some ip))) ?_
      intro _ _ left
      refine wp_bind (wp_updateProc left p _) ?_
      intro _ _ done
      rw [next]
      exact done

omit [DecidableEq Pid] in
theorem State.newFd_congr {s' : State Pid} (same : s'.procs = s.procs) (p : Pid) : s'.newFd p = s.newFd p := by
  unfold newFd openFiles
  rw [same]

omit [DecidableEq Pid] in
theorem State.newFd_some {fd : Fin nofile} (new : s.newFd p = some fd) : (s.procs p).ofile fd = none := by
  unfold newFd at new
  split at new
  · have free := List.find?_some new
    exact of_decide_eq_true free
  · cases new

theorem wp_sysOpen {omode : UInt32} (ready : Ready s.inodes s.procs (uses s.procs) cwd lost s) (procs' : Pid → Proc)
    (next : procs' = s.withFile p (opened s.inodes cwd path omode).2) :
    wp (sysOpen p cwd (some path) (some omode))
      (fun _ s' => Busy (sweep (opened s.inodes cwd path omode).1 (uses procs')) procs' (uses procs') [] [] s')
      (Unless lost) s := by
  refine wp_bind (wp_openInode ready omode) ?_
  rintro res s' ⟨same, busy⟩
  rw [← same] at next
  cases res with
  | none =>
    rw [next]
    exact busy
  | some ip =>
    apply wp_get
    change wp (match s'.newFd p with | none => _ | some fd => _) _ _ _
    unfold State.withFile at next
    rw [State.newFd_congr busy.procs]
    cases new : s.newFd p with
    | none =>
      rw [new] at next
      rw [next]
      exact wp_bind (wp_iunlockput_kept busy (sweep_kept _ _)) fun _ _ put => put
    | some fd =>
      rw [new] at next
      dsimp only at next ⊢
      have free := State.newFd_some new
      have given : ∀ j, uses procs' j = uses s.procs j + if j = ip then 1 else 0 := by
        intro j
        have updated := uses_setFile s.procs p fd (some ip) j
        rw [← next] at updated
        simpa only [free, reduceCtorEq, if_false, Nat.add_zero, Option.some.injEq, eq_comm (a := ip)] using updated
      have stays := not_lapsed_of_sweep (busy.typed_of_held (.head _))
      have swept : sweep (opened s.inodes cwd path omode).1 (uses procs') =
          sweep (opened s.inodes cwd path omode).1 (uses s.procs) := by
        refine sweep_congr fun j => ?_
        by_cases this : j = ip
        · subst this
          refine iff_of_false (fun lapsed => ?_) stays
          have unused := lapsed.2.2
          rw [given, if_pos rfl] at unused
          omega
        · rw [given, if_neg this, Nat.add_zero]
      refine wp_bind (wp_iunlock busy) ?_
      rintro _ _ ⟨unlocked, loaded⟩
      refine wp_bind (wp_updateProc (unlocked.handOver loaded List.not_mem_nil given) p _) ?_
      intro _ _ done
      rw [swept]
      nth_rewrite 1 [next]
      exact done

/-! ## Giving up references -/

theorem uses_close {fd : Fin nofile} (file : (procs p).ofile fd = some ip) (j : Nat) :
    uses procs j = uses (update procs p ((procs p).setFile fd none)) j + if j = ip then 1 else 0 := by
  have updated := uses_setFile procs p fd none j
  simp only [file, Option.some.injEq, reduceCtorEq, if_false, Nat.add_zero, eq_comm (a := ip)] at updated
  exact updated.symm

theorem argfd_some {ofile : Fin nofile → Option Nat} {n : Option Int} {fd : Fin nofile} (found : argfd ofile n = some (fd, ip)) :
    ofile fd = some ip := by
  obtain ⟨val, -, inside⟩ := Option.bind_eq_some_iff.mp found
  split at inside
  · cases inside
  · obtain ⟨file, stored, same⟩ := Option.map_eq_some_iff.mp inside
    cases same
    exact stored

theorem wp_sysClose {fd : Option Int} (ready : Ready s.inodes s.procs (uses s.procs) cwd lost s) (procs' : Pid → Proc)
    (next : procs' = update s.procs p ((s.procs p).closed fd)) :
    wp (sysClose p fd) (fun _ s' => Busy (sweep s.inodes (uses procs')) procs' (uses procs') [] [] s') (Unless lost) s := by
  have unchanged := sweep_of_kept ready.kept
  apply wp_get
  unfold Proc.closed at next
  cases found : argfd (s.procs p).ofile fd with
  | none =>
    simp only [found, update_eq_self] at next
    rw [next, unchanged]
    exact ready.busy
  | some file =>
    obtain ⟨slot, ip⟩ := file
    simp only [found] at next
    dsimp only
    have given := uses_close (argfd_some found)
    have busy := ready.busy
    refine wp_bind (wp_updateProc busy p _) ?_
    intro _ _ updated
    rw [← next] at updated given
    rw [← unchanged] at updated
    refine wp_bind (wp_release updated ready.root.2 given) ?_
    intro _ _ done
    exact done

/-- `proc` without the open files of the list. -/
def Proc.closeAll (proc : Proc) (fds : List (Fin nofile)) : Proc := fds.foldl (fun proc fd => proc.setFile fd none) proc

theorem Proc.closeAll_cwd (proc : Proc) (fds : List (Fin nofile)) : (proc.closeAll fds).cwd = proc.cwd := by
  induction fds generalizing proc with
  | nil => rfl
  | cons fd fds ih => exact ih (proc.setFile fd none)

theorem Proc.closeAll_ofile (proc : Proc) (fds : List (Fin nofile)) (fd : Fin nofile) :
    (proc.closeAll fds).ofile fd = if fd ∈ fds then none else proc.ofile fd := by
  induction fds generalizing proc with
  | nil => rfl
  | cons first fds ih =>
    refine (ih (proc.setFile first none)).trans ?_
    simp only [setFile, update_apply, List.mem_cons]
    split_ifs <;> simp_all

theorem wp_closeFiles (fds : List (Fin nofile)) (root : (inodes rootIno).nlink ≠ 0)
    (busy : Busy (sweep inodes (uses procs)) procs (uses procs) [] [] s) (procs' : Pid → Proc)
    (next : procs' = update procs p ((procs p).closeAll fds)) :
    wp (closeFiles p fds) (fun _ s' => Busy (sweep inodes (uses procs')) procs' (uses procs') [] [] s')
      (Unless lost) s := by
  induction fds generalizing procs s with
  | nil =>
    rw [Proc.closeAll, List.foldl_nil, update_eq_self] at next
    rw [next]
    exact busy
  | cons fd fds ih =>
    apply wp_get
    rw [busy.procs]
    cases file : (procs p).ofile fd with
    | none =>
      have same : (procs p).setFile fd none = procs p := by
        rw [Proc.setFile, ← file, update_eq_self]
      refine ih busy ?_
      rw [next, Proc.closeAll, List.foldl_cons, same, Proc.closeAll]
    | some ip =>
      refine wp_bind (wp_release busy root (uses_close file)) ?_
      intro _ _ put
      refine wp_bind (wp_updateProc put p _) ?_
      intro _ _ updated
      refine ih updated ?_
      rw [next, update_idem, update_self, Proc.closeAll, List.foldl_cons, Proc.closeAll]

theorem wp_exit (ready : Ready inodes procs (uses procs) cwd lost s) (alive : (procs p).cwd = some cwd)
    (procs' : Pid → Proc) (next : procs' = update procs p ⟨none, fun _ => none⟩) :
    wp (exit p cwd) (fun _ s' => Busy (sweep inodes (uses procs')) procs' (uses procs') [] [] s') (Unless lost) s := by
  have busy := ready.busy
  rw [← sweep_of_kept ready.kept] at busy
  refine wp_bind (wp_closeFiles (List.finRange nofile) ready.root.2 busy _ rfl) ?_
  intro _ _ closed
  have empty : ((procs p).closeAll (List.finRange nofile)).ofile = fun _ => none := by
    funext fd
    rw [Proc.closeAll_ofile, if_pos (List.mem_finRange fd)]
  have alive' : (update procs p ((procs p).closeAll (List.finRange nofile)) p).cwd = some cwd := by
    rw [update_self, Proc.closeAll_cwd, alive]
  have given := uses_chdir alive' none
  simp only [reduceCtorEq, if_false, Nat.add_zero, update_self, update_idem, empty, ← next] at given
  refine wp_bind (wp_release closed ready.root.2 given) ?_
  intro _ _ left
  refine wp_bind (wp_updateProc left p _) ?_
  intro _ _ done
  simp only [update_self, update_idem, empty, ← next] at done
  exact done

/-! ## All calls -/

/-- Every link count fits into a `short`. -/
def Counts (inodes : Inodes) : Prop := ∀ i, (inodes i).type ≠ .free → short (inodes i).nlink = (inodes i).nlink

theorem wp_perform (ready : Ready s.inodes s.procs (uses s.procs) cwd lost s) (alive : (s.procs p).cwd = some cwd)
    (counts : Counts s.inodes) (call : Call) :
    wp (perform p cwd call)
      (fun _ s' => Busy (sweep (plan s p cwd call).1 (uses (plan s p cwd call).2)) (plan s p cwd call).2
        (uses (plan s p cwd call).2) [] [] s')
      (Unless lost) s := by
  have refused : Busy (sweep s.inodes (uses s.procs)) s.procs (uses s.procs) [] [] s := by
    rw [sweep_of_kept ready.kept]
    exact ready.busy
  match call with
  | .openFile (some path) (some omode) => exact wp_sysOpen ready _ rfl
  | .openFile none _ => exact refused
  | .openFile (some _) none => exact refused
  | .mkdir (some path) => exact wp_createNode ready (by decide) 0 0
  | .mkdir none => exact refused
  | .mknod (some path) (some major) (some minor) => exact wp_createNode ready (by decide) _ _
  | .mknod none _ _ => exact refused
  | .mknod (some _) none _ => exact refused
  | .mknod (some _) (some _) none => exact refused
  | .link (some old) (some new) => exact wp_sysLink ready counts
  | .link none _ => exact refused
  | .link (some _) none => exact refused
  | .unlink (some path) => exact wp_sysUnlink ready
  | .unlink none => exact refused
  | .chdir (some path) => exact wp_sysChdir ready alive _ rfl
  | .chdir none => exact refused
  | .close fd => exact wp_sysClose ready _ rfl
  | .exit => exact wp_exit ready alive _ rfl

end Processes

/-! ## Between calls -/

/-- `unlink` of the path clears the slot `off` of `dp`, which names `ip`. -/
def Unlinks (inodes : Inodes) (cwd : Nat) (path : Path) (dp off ip : Nat) : Prop :=
  ∃ name, find inodes true (elements path) (origin cwd path) = some (dp, name) ∧ (name ≠ dot ∧ name ≠ dotdot) ∧
    scan name (inodes dp).slots 0 = some (off, ip) ∧ ¬ ((inodes ip).type = .dir ∧ isdirempty (inodes ip) = false)

/-- The ways in which a call by a process in `cwd` changes inodes, those that it frees apart. -/
inductive Change (inodes : Inodes) (cwd : Nat) : Call → Inodes → Prop where
  | none {call : Call} : Change inodes cwd call inodes
  | make {call : Call} {dp ip : Nat} {name : Name} {type : Kind} (major minor : Int) (visits : Visits inodes cwd dp)
      (isDir : (inodes dp).type = .dir) (absent : scan name (inodes dp).slots 0 = .none)
      (free : freeInode inodes = some ip) (proper : type ≠ .free) :
      Change inodes cwd call (made inodes type major minor dp name ip)
  | link {old new : Path} {dp ip : Nat} {last name : Name}
      (target : find inodes false (elements old) (origin cwd old) = some (ip, last)) (notDir : (inodes ip).type ≠ .dir)
      (alloc : (inodes ip).type ≠ .free)
      (place : find inodes true (elements new) (origin cwd new) = some (dp, name))
      (absent : scan name (inodes dp).slots 0 = .none) :
      Change inodes cwd (.link (some old) (some new)) (addEntry (counted inodes ip) dp name ip)
  | unlink {path : Path} {dp off ip : Nat} (unlinks : Unlinks inodes cwd path dp off ip) :
      Change inodes cwd (.unlink (some path)) (removed inodes dp off ip)

section Changes

variable {inodes : Inodes} {cwd : Nat} {path : Path} {call : Call}

theorem change_created {type : Kind} (proper : type ≠ .free) (major minor : Int) :
    Change inodes cwd call (created inodes cwd path type major minor).1 := by
  unfold created
  split
  · exact .none
  next dp name found =>
    split
    · exact .none
    next absent =>
      split
      · exact .none
      next free => exact .make major minor (Visits.find found) (find_parent_dir found) absent free proper

theorem change_opened (omode : UInt32) : Change inodes cwd call (opened inodes cwd path omode).1 := by
  unfold opened
  split
  · exact change_created (by decide) 0 0
  · split <;> exact .none

theorem change_linked (old new : Path) :
    Change inodes cwd (.link (some old) (some new)) (linked inodes cwd old new) := by
  unfold linked
  split
  · exact .none
  next target =>
    split
    · exact .none
    next proper =>
      obtain ⟨notDir, alloc⟩ := not_or.mp proper
      split
      · exact .none
      next found =>
        split
        next absent => exact .link target notDir alloc found absent
        · exact .none

theorem Unlinks.unlinked {dp off ip : Nat} (unlinks : Unlinks inodes cwd path dp off ip) :
    unlinked inodes cwd path = removed inodes dp off ip := by
  obtain ⟨name, target, proper, found, empty⟩ := unlinks
  simp only [Names.unlinked, target, proper, or_self, if_false, found, if_neg empty]

theorem change_unlinked (path : Path) : Change inodes cwd (.unlink (some path)) (unlinked inodes cwd path) := by
  unfold unlinked
  split
  · exact .none
  next target =>
    split
    · exact .none
    next proper =>
      split
      · exact .none
      next found =>
        split
        · exact .none
        next empty => exact .unlink ⟨_, target, not_or.mp proper, found, empty⟩

theorem plan_change (s : State Pid) (p : Pid) (cwd : Nat) (call : Call) :
    Change s.inodes cwd call (plan s p cwd call).1 := by
  unfold plan
  split
  · exact change_opened _
  · exact change_created (by decide) 0 0
  · exact change_created (by decide) _ _
  · exact change_linked _ _
  · exact change_unlinked _
  all_goals exact .none

theorem short_short (n : Int) : short (short n) = short n := Int.bmod_bmod

theorem Counts.change {inodes' : Inodes} (counts : Counts inodes) (change : Change inodes cwd call inodes') :
    Counts inodes' := by
  cases change with
  | none => exact counts
  | @make _ dp ip name type major minor visits isDir absent free proper =>
    have ne : ip ≠ dp := by
      rintro rfl
      rw [(freeInode_some free).1] at isDir
      cases isDir
    intro j alloc
    rw [made_type] at alloc
    rw [made_nlink ne]
    split
    · rfl
    next old =>
      rw [if_neg old] at alloc
      split
      · exact short_short _
      · exact counts j alloc
  | @link old new dp ip last name target notDir _ place absent =>
    intro j alloc
    rw [addEntry_type, counted_type] at alloc
    rw [addEntry_nlink, counted, update_apply]
    split
    · exact short_short _
    · exact counts j alloc
  | @unlink path dp off ip unlinks =>
    intro j alloc
    rw [removed_type] at alloc
    rw [removed_nlink]
    split
    · exact short_short _
    · exact counts j alloc

theorem Counts.sweep (counts : Counts inodes) (users : Nat → Nat) : Counts (sweep inodes users) := by
  intro i alloc
  have stays := not_lapsed_of_sweep alloc
  rw [Names.sweep, if_neg stays] at alloc ⊢
  exact counts i alloc

end Changes

/-- The state between two calls. -/
structure Settled (s : State Pid) : Prop where
  busy : Busy s.inodes s.procs (uses s.procs) [] [] s
  kept : Kept s.inodes (uses s.procs) []
  counts : Counts s.inodes

/-- What is there after a call. -/
def outcome (s : State Pid) (p : Pid) (cwd : Nat) (call : Call) : Inodes :=
  sweep (plan s p cwd call).1 (uses (plan s p cwd call).2)

section Steps

variable {s s' : State Pid} {p : Pid} {cwd : Nat} {call : Call}

omit [DecidableEq Pid] in
theorem Settled.ready {lost : Prop} (settled : Settled s)
    (root : (s.inodes rootIno).type = .dir ∧ (s.inodes rootIno).nlink ≠ 0) (alive : (s.procs p).cwd = some cwd)
    (missing : ∀ j, Visits s.inodes cwd j → (s.inodes j).type = .free → lost) :
    Ready s.inodes s.procs (uses s.procs) cwd lost s :=
  ⟨settled.busy, settled.kept, root, uses_cwd_pos alive, missing⟩

theorem Settled.step (settled : Settled s) (root : (s.inodes rootIno).type = .dir ∧ (s.inodes rootIno).nlink ≠ 0)
    (taken : (system Pid).step s (p, call) = some s') :
    ∃ cwd, (s.procs p).cwd = some cwd ∧ s'.inodes = outcome s p cwd call ∧ s'.procs = (plan s p cwd call).2 ∧
      Settled s' := by
  unfold system at taken
  dsimp only at taken
  split at taken
  · cases taken
  next cwd alive =>
    split at taken
    next res next ran =>
      cases taken
      have ready : Ready s.inodes s.procs (uses s.procs) cwd True s := settled.ready root alive fun _ _ _ => trivial
      have done := post_of_wp (wp_perform ready alive settled.counts call) ran
      refine ⟨cwd, alive, done.disk, done.procs, ?_, ?_, ?_⟩
      · rw [done.disk, done.procs]
        exact done
      · rw [done.disk, done.procs]
        exact sweep_kept _ _
      · rw [done.disk]
        exact (settled.counts.change (plan_change s p cwd call)).sweep _
    · cases taken

omit [DecidableEq Pid] in
theorem Boot.settled (boot : Boot s) : Settled s := by
  obtain ⟨spare, -, root⟩ := boot.root
  have used : ∀ i, uses s.procs i = if i = rootIno then Fintype.card Pid else 0 := by
    intro i
    have one : ∀ p, (s.procs p).refers i = if i = rootIno then 1 else 0 := by
      intro p
      simp [boot.procs, Proc.refers, tally, eq_comm (a := i)]
    rw [uses, Finset.sum_congr rfl fun p _ => one p]
    split <;> simp
  refine ⟨⟨rfl, rfl, fun i => ?_, fun i => ?_, List.nodup_nil, nofun, fun i pos => ?_, nofun, fun i pos _ => ?_⟩,
    fun i lapsed => ?_, fun i alloc => ?_⟩
  · rw [boot.ref, used, List.count_nil, Nat.add_zero]
  · rw [boot.unlocked]
    rfl
  · rw [used] at pos
    split at pos
    next same => exact .inr same
    · cases pos
  · rw [boot.ref] at pos
    split at pos
    next same =>
      rw [same, root]
      exact nofun
    · cases pos
  · have same : i = rootIno := by
      by_contra other
      exact lapsed.1 (boot.free i other)
    rw [same, root] at lapsed
    cases lapsed.2.1
  · have same : i = rootIno := by
      by_contra other
      exact alloc (boot.free i other)
    rw [same, root]
    rfl

end Steps

end Xv6Simplesh.Names
