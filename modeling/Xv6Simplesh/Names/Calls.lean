import Mathlib.Data.Fintype.BigOperators
import Xv6Simplesh.Library.Runs
import Xv6Simplesh.Names.Directories

/-! # System calls on names

The calls of `sysfile.c` that look up, make and remove names, with `close` and `exit`,
which give up references to inodes.  An argument is `none` where the kernel cannot fetch
it from the memory of the process.  There is one device, so the test of `sys_link` that
both paths are on the same one is not modelled.
-/

namespace Xv6Simplesh.Names

open Library

abbrev oRdonly : UInt32 := 0x000

abbrev oCreate : UInt32 := 0x200

variable {Pid : Type} [DecidableEq Pid]

def State.setProc (s : State Pid) (p : Pid) (proc : Proc) : State Pid :=
  { s with procs := Function.update s.procs p proc }

def updateProc (p : Pid) (change : Proc → Proc) : Kernel Pid PUnit :=
  modify fun s => s.setProc p (change (s.procs p))

def Proc.setFile (proc : Proc) (fd : Fin nofile) (ip : Option Nat) : Proc :=
  { proc with ofile := Function.update proc.ofile fd ip }

def Inode.addLink (node : Inode) : Inode := { node with nlink := short (node.nlink + 1) }

def Inode.dropLink (node : Inode) : Inode := { node with nlink := short (node.nlink - 1) }

/-! ## Making names -/

/-- `if(type == T_DIR)` of `create`: the entries `.` and `..`. -/
def createDots (type : Kind) (dp ip : Nat) : Kernel Pid PUnit :=
  if type = .dir then do
    updateInode dp Inode.addLink
    let linked ← dirlink ip dot ip
    if linked < 0 then throw .createDots
    else do
      let linked ← dirlink ip dotdot dp
      if linked < 0 then throw .createDots else pure ⟨⟩
  else pure ⟨⟩

def create (cwd : Nat) (path : Path) (type : Kind) (major minor : Int) : Kernel Pid (Option Nat) := do
  match ← nameiparent cwd path with
  | none => pure none
  | some (dp, name) => do
    let _ ← ilock dp
    match ← dirlookup dp name with
    | some (_, ip) => do
      iunlockput dp
      let node ← ilock ip
      if type = .file ∧ node.type = .file then pure (some ip)
      else do
        iunlockput ip
        pure none
    | none => do
      let ip ← ialloc type
      let _ ← ilock ip
      updateInode ip fun node => { node with major, minor, nlink := 1 }
      createDots type dp ip
      let linked ← dirlink dp name ip
      if linked < 0 then throw .createDirlink
      else do
        iunlockput dp
        pure (some ip)

/-- `sys_mkdir` and the end of `sys_mknod`. -/
def createNode (cwd : Nat) (path : Path) (type : Kind) (major minor : Int) : Kernel Pid Int := do
  match ← create cwd path type major minor with
  | none => pure (-1)
  | some ip => do
    iunlockput ip
    pure 0

def sysMkdir (cwd : Nat) : Option Path → Kernel Pid Int
  | some path => createNode cwd path .dir 0 0
  | none => pure (-1)

/-- `create` takes the two numbers as `short`s. -/
def sysMknod (cwd : Nat) : Option Path → Option Int → Option Int → Kernel Pid Int
  | some path, some major, some minor => createNode cwd path .dev (short major) (short minor)
  | _, _, _ => pure (-1)

/-- The label `bad` of `sys_link`. -/
def linkBad (ip : Nat) : Kernel Pid Int := do
  let _ ← ilock ip
  updateInode ip Inode.dropLink
  iunlockput ip
  pure (-1)

def sysLink (cwd : Nat) : Option Path → Option Path → Kernel Pid Int
  | some old, some new => do
    match ← namei cwd old with
    | none => pure (-1)
    | some (ip, _) => do
      let node ← ilock ip
      if node.type = .dir then do
        iunlockput ip
        pure (-1)
      else do
        updateInode ip Inode.addLink
        iunlock ip
        match ← nameiparent cwd new with
        | none => linkBad ip
        | some (dp, name) => do
          let _ ← ilock dp
          let linked ← dirlink dp name ip
          if linked < 0 then do
            iunlockput dp
            linkBad ip
          else do
            iunlockput dp
            iput ip
            pure 0
  | _, _ => pure (-1)

/-! ## Removing names -/

/-- The end of `sys_unlink`, with both inodes locked. -/
def removeEntry (dp off ip : Nat) (type : Kind) : Kernel Pid Int := do
  updateInode dp fun node => { node with slots := writeSlot node.slots off ⟨0, []⟩ }
  updateInode dp fun node => if type = .dir then node.dropLink else node
  iunlockput dp
  updateInode ip Inode.dropLink
  iunlockput ip
  pure 0

def sysUnlink (cwd : Nat) : Option Path → Kernel Pid Int
  | none => pure (-1)
  | some path => do
    match ← nameiparent cwd path with
    | none => pure (-1)
    | some (dp, name) => do
      let _ ← ilock dp
      if name = dot ∨ name = dotdot then do
        iunlockput dp
        pure (-1)
      else
        match ← dirlookup dp name with
        | none => do
          iunlockput dp
          pure (-1)
        | some (off, ip) => do
          let node ← ilock ip
          if node.nlink < 1 then throw .unlinkNlink
          else if node.type = .dir ∧ isdirempty node = false then do
            iunlockput ip
            iunlockput dp
            pure (-1)
          else removeEntry dp off ip node.type

/-! ## References -/

/-- How many entries of `ftable` are in use. -/
def State.openFiles [Fintype Pid] (s : State Pid) : Nat :=
  ∑ p, ((List.finRange nofile).filter fun fd => ((s.procs p).ofile fd).isSome).length

def fdalloc (proc : Proc) : Option (Fin nofile) := (List.finRange nofile).find? fun fd => proc.ofile fd = none

/-- The inode that `sys_open` opens, locked. -/
def openInode (cwd : Nat) (path : Path) (omode : UInt32) : Kernel Pid (Option Nat) :=
  if omode &&& oCreate ≠ 0 then create cwd path .file 0 0
  else do
    match ← namei cwd path with
    | none => pure none
    | some (ip, _) => do
      let node ← ilock ip
      if node.type = .dir ∧ omode ≠ oRdonly then do
        iunlockput ip
        pure none
      else pure (some ip)

def sysOpen [Fintype Pid] (p : Pid) (cwd : Nat) : Option Path → Option UInt32 → Kernel Pid Int
  | some path, some omode => do
    match ← openInode cwd path omode with
    | none => pure (-1)
    | some ip => do
      let s ← get
      -- a file without a descriptor is closed again, and has no inode yet
      match if s.openFiles < nfile then fdalloc (s.procs p) else none with
      | none => do
        iunlockput ip
        pure (-1)
      | some fd => do
        iunlock ip
        updateProc p fun proc => proc.setFile fd (some ip)
        pure fd
  | _, _ => pure (-1)

def sysChdir (p : Pid) (cwd : Nat) : Option Path → Kernel Pid Int
  | none => pure (-1)
  | some path => do
    match ← namei cwd path with
    | none => pure (-1)
    | some (ip, _) => do
      let node ← ilock ip
      if node.type ≠ .dir then do
        iunlockput ip
        pure (-1)
      else do
        iunlock ip
        iput cwd
        updateProc p fun proc => { proc with cwd := some ip }
        pure 0

theorem toNat_lt_nofile {fd : Int} (valid : ¬ (fd < 0 ∨ fd ≥ nofile)) : fd.toNat < nofile := by omega

def argfd (ofile : Fin nofile → Option Nat) (n : Option Int) : Option (Fin nofile × Nat) :=
  n.bind fun fd =>
    if h : fd < 0 ∨ fd ≥ nofile then none
    else (ofile ⟨fd.toNat, toNat_lt_nofile h⟩).map fun f => (⟨fd.toNat, toNat_lt_nofile h⟩, f)

def sysClose (p : Pid) (fd : Option Int) : Kernel Pid Int := do
  let s ← get
  match argfd (s.procs p).ofile fd with
  | none => pure (-1)
  | some (fd, ip) => do
    updateProc p fun proc => proc.setFile fd none
    iput ip
    pure 0

/-- The loop of `exit` that closes the open files. -/
def closeFiles (p : Pid) : List (Fin nofile) → Kernel Pid PUnit
  | [] => pure ⟨⟩
  | fd :: fds => do
    let s ← get
    match (s.procs p).ofile fd with
    | none => closeFiles p fds
    | some ip => do
      iput ip
      updateProc p fun proc => proc.setFile fd none
      closeFiles p fds

def exit (p : Pid) (cwd : Nat) : Kernel Pid Int := do
  closeFiles p (List.finRange nofile)
  iput cwd
  updateProc p fun proc => { proc with cwd := none }
  pure 0

/-! ## Runs -/

inductive Call where
  | openFile (path : Option Path) (omode : Option UInt32)
  | mkdir (path : Option Path)
  | mknod (path : Option Path) (major minor : Option Int)
  | link (old new : Option Path)
  | unlink (path : Option Path)
  | chdir (path : Option Path)
  | close (fd : Option Int)
  | exit
deriving DecidableEq, Repr

variable [Fintype Pid]

def perform (p : Pid) (cwd : Nat) : Call → Kernel Pid Int
  | .openFile path omode => sysOpen p cwd path omode
  | .mkdir path => sysMkdir cwd path
  | .mknod path major minor => sysMknod cwd path major minor
  | .link old new => sysLink cwd old new
  | .unlink path => sysUnlink cwd path
  | .chdir path => sysChdir p cwd path
  | .close fd => sysClose p fd
  | .exit => exit p cwd

/-- A file system that holds only the root directory, and processes that are in it and have
no open files. -/
structure Boot (s : State Pid) : Prop where
  root : ∃ spare, (∀ de ∈ spare, de.inum = 0) ∧
    s.inodes rootIno = ⟨.dir, 0, 0, 1, ⟨rootIno, dot⟩ :: ⟨rootIno, dotdot⟩ :: spare⟩
  free : ∀ i, i ≠ rootIno → (s.inodes i).type = .free
  procs : ∀ p, s.procs p = ⟨some rootIno, fun _ => none⟩
  ref : ∀ i, s.ref i = if i = rootIno then Fintype.card Pid else 0
  unlocked : ∀ i, s.locked i = false

variable (Pid) in
/-- Any process that has not exited may make the next call; a call that does not return
ends the run. -/
def system : System (State Pid) (Pid × Call) where
  initial := Boot
  step s event :=
    match (s.procs event.1).cwd with
    | none => none
    | some cwd =>
      match perform event.1 cwd event.2 s with
      | .ok (_, s') => some s'
      | .error _ => none

/-- One process, after the start. -/
def bootState : State Unit where
  inodes i := if i = rootIno then ⟨.dir, 0, 0, 1, [⟨rootIno, dot⟩, ⟨rootIno, dotdot⟩]⟩ else .blank
  ref i := if i = rootIno then 1 else 0
  valid _ := false
  locked _ := false
  procs _ := ⟨some rootIno, fun _ => none⟩

theorem boot_bootState : Boot bootState where
  root := ⟨[], nofun, rfl⟩
  free i other := by simp only [bootState, other, if_false, Inode.blank]
  procs _ := rfl
  ref _ := rfl
  unlocked _ := rfl

end Xv6Simplesh.Names
