import Mathlib.Data.List.FinRange
import Xv6Simplesh.Param

/-! # The table of open files

The calls that work on `ftable` and on the descriptors of processes: `open`, `pipe`,
`dup`, `dup2`, `close`, `fork` and `exit`, with the steps of different processes in any
order.  A section under `ftable.lock` is one step, together with the accesses right
before and after it to descriptors that no other process looks at; `fileclose` goes on
after its section with the release of the inode or of the end of the pipe, and may sleep
there.
-/

namespace Xv6Simplesh.Ftable

open Function

/-- What a `struct file` refers to. -/
inductive Resource where
  | inode (ip : Nat)
  | pipe (page : Nat) (writable : Bool)
deriving DecidableEq, Repr

structure File where
  ref : Nat
  /-- `type` with `ip`, or with `pipe` and `writable`; `none` is `FD_NONE`. -/
  type : Option Resource
deriving DecidableEq, Repr

/-- The flags of a `struct pipe`. -/
structure Pipe where
  readopen : Bool
  writeopen : Bool
deriving DecidableEq, Repr

/-- Where a process is. -/
inductive Phase where
  | unused
  /-- Allocated by `fork` of `parent`, which has not made it runnable yet. -/
  | embryo (parent : Fin nproc)
  | zombie
  /-- In user mode, with the value that the last call returned. -/
  | user (eax : Int)
  /-- `sys_open` has the inode. -/
  | openInode (ip : Nat)
  /-- and the file, -/
  | openFile (ip : Nat) (f : Fin nfile)
  /-- and the descriptor; the file has no type yet. -/
  | openSlot (ip : Nat) (f : Fin nfile) (fd : Fin nofile)
  /-- It has failed and is about to call `iunlockput`. -/
  | openFailed (ip : Nat)
  /-- `pipealloc` has one file, -/
  | pipeOne (f0 : Fin nfile)
  /-- two files, -/
  | pipeTwo (f0 f1 : Fin nfile)
  /-- and the pipe. -/
  | pipeMade (f0 f1 : Fin nfile)
  /-- `sys_pipe` has the first descriptor. -/
  | pipeSlot (fd0 : Fin nofile) (f0 f1 : Fin nfile)
  /-- It has failed and is about to close both files, -/
  | pipeFailed (f0 f1 : Fin nfile)
  /-- or the last one. -/
  | pipeDrop (f : Fin nfile)
  /-- `sys_dup2` has called `fileclose` on the file of `fd2`. -/
  | dup2 (fd fd2 : Fin nofile) (f1 : Fin nfile)
  /-- `fork` has copied the descriptors below `i`. -/
  | forking (child : Fin nproc) (i : Nat)
  /-- `exit` has closed the descriptors below `i`, -/
  | exiting (i : Nat)
  /-- and has called `fileclose` on the file of `fd`. -/
  | exitClose (fd : Fin nofile)
deriving DecidableEq, Repr

structure Proc where
  pid : Int
  phase : Phase
  ofile : Fin nofile → Option (Fin nfile)
  /-- What `fileclose` still has to release. -/
  closing : Option Resource

structure Kernel where
  files : Fin nfile → File
  procs : Fin nproc → Proc
  /-- The references to inodes of open files, and of calls of `open`. -/
  inodes : Nat → Nat
  /-- The pages that are pipes. -/
  pipes : Nat → Option Pipe
  nextpid : Int

inductive Panic where
  | filedup
  | fileclose
  | initExiting
deriving DecidableEq, Repr

namespace Kernel

/-! ## `file.c` -/

def filealloc (k : Kernel) : Option (Fin nfile × Kernel) :=
  ((List.finRange nfile).find? fun f => (k.files f).ref = 0).map fun f =>
    (f, { k with files := update k.files f { k.files f with ref := 1 } })

def filedup (k : Kernel) (f : Fin nfile) : Except Panic Kernel :=
  if (k.files f).ref < 1 then .error .filedup
  else .ok { k with files := update k.files f { k.files f with ref := (k.files f).ref + 1 } }

/-- The section of `fileclose`, with what it has to release afterwards. -/
def fileclose (k : Kernel) (f : Fin nfile) : Except Panic (Option Resource × Kernel) :=
  if (k.files f).ref < 1 then .error .fileclose
  else if (k.files f).ref - 1 > 0 then
    .ok (none, { k with files := update k.files f { k.files f with ref := (k.files f).ref - 1 } })
  else .ok ((k.files f).type, { k with files := update k.files f ⟨0, none⟩ })

/-- `pipeclose` on the flags; the page is freed when both ends are closed. -/
def pipeclose (pipe : Pipe) (writable : Bool) : Option Pipe :=
  let pipe := if writable then { pipe with writeopen := false } else { pipe with readopen := false }
  if pipe.readopen || pipe.writeopen then some pipe else none

/-- `pipeclose` or `iput`. -/
def release (k : Kernel) : Resource → Kernel
  | .inode ip => { k with inodes := update k.inodes ip (k.inodes ip - 1) }
  | .pipe page writable =>
    { k with pipes := update k.pipes page ((k.pipes page).bind (pipeclose · writable)) }

/-! ## Descriptors -/

def setPhase (k : Kernel) (p : Fin nproc) (phase : Phase) : Kernel :=
  { k with procs := update k.procs p { k.procs p with phase } }

def setSlot (k : Kernel) (p : Fin nproc) (fd : Fin nofile) (f : Option (Fin nfile)) : Kernel :=
  { k with procs := update k.procs p { k.procs p with ofile := update (k.procs p).ofile fd f } }

def setClosing (k : Kernel) (p : Fin nproc) (closing : Option Resource) : Kernel :=
  { k with procs := update k.procs p { k.procs p with closing } }

def setType (k : Kernel) (f : Fin nfile) (r : Resource) : Kernel :=
  { k with files := update k.files f { k.files f with type := some r } }

/-- The call returns `eax`. -/
def ret (k : Kernel) (p : Fin nproc) (eax : Int) : Kernel := k.setPhase p (.user eax)

/-- The argument is `none` where `argint` fails. -/
def argfd (ofile : Fin nofile → Option (Fin nfile)) (n : Option Int) : Option (Fin nofile × Fin nfile) :=
  n.bind fun fd =>
    if h : fd < 0 ∨ fd ≥ nofile then none
    else (ofile ⟨fd.toNat, by omega⟩).map fun f => (⟨fd.toNat, by omega⟩, f)

def fdalloc (ofile : Fin nofile → Option (Fin nfile)) : Option (Fin nofile) :=
  (List.finRange nofile).find? fun fd => ofile fd = none

/-- `fileclose(f)`, after which the process goes on in `phase`. -/
def close (k : Kernel) (p : Fin nproc) (f : Fin nfile) (phase : Phase) : Except Panic Kernel := do
  let (r, k) ← k.fileclose f
  .ok ((k.setPhase p phase).setClosing p r)

/-! ## System calls -/

def sysDup (k : Kernel) (p : Fin nproc) (fd : Option Int) : Except Panic Kernel :=
  match argfd (k.procs p).ofile fd with
  | none => .ok (k.ret p (-1))
  | some (_, f) =>
    match fdalloc (k.procs p).ofile with
    | none => .ok (k.ret p (-1))
    | some fd => ((k.setSlot p fd (some f)).ret p fd).filedup f

/-- The end of `sys_dup2`. -/
def dup2Slot (k : Kernel) (p : Fin nproc) (fd2 : Fin nofile) (f1 : Fin nfile) : Except Panic Kernel :=
  ((k.setSlot p fd2 (some f1)).ret p fd2).filedup f1

def sysDup2 (k : Kernel) (p : Fin nproc) (fd fd2 : Option Int) : Except Panic Kernel :=
  match argfd (k.procs p).ofile fd with
  | none => .ok (k.ret p (-1))
  | some (fd, f1) =>
    match fd2 with
    | none => .ok (k.ret p (-1))
    | some fd2 =>
      if h : fd2 < 0 ∨ fd2 ≥ nofile then .ok (k.ret p (-1))
      else
        let fd2 : Fin nofile := ⟨fd2.toNat, by omega⟩
        if fd = fd2 then .ok (k.ret p fd2)
        else
          match (k.procs p).ofile fd2 with
          | some f2 => k.close p f2 (.dup2 fd fd2 f1)
          | none => k.dup2Slot p fd2 f1

def sysClose (k : Kernel) (p : Fin nproc) (fd : Option Int) : Except Panic Kernel :=
  match argfd (k.procs p).ofile fd with
  | none => .ok (k.ret p (-1))
  | some (fd, f) => (k.setSlot p fd none).close p f (.user 0)

/-- `allocproc`: the slot of the new process. -/
def allocproc (k : Kernel) : Option (Fin nproc) :=
  (List.finRange nproc).find? fun q => (k.procs q).phase = .unused

/-- The new process of `fork`, before its descriptors are copied. -/
def spawn (k : Kernel) (parent child : Fin nproc) : Kernel :=
  { k with
    procs := update k.procs child { k.procs child with pid := k.nextpid, phase := .embryo parent }
    nextpid := int (k.nextpid + 1) }

/-- `wait` frees the slot of a process. -/
def reap (k : Kernel) (child : Fin nproc) : Kernel :=
  { k with procs := update k.procs child { k.procs child with pid := 0, phase := .unused } }

inductive Call where
  /-- With the inode that `namei` or `create` gives; `none` if this or the arguments fail. -/
  | open (ip : Option Nat)
  /-- Whether `argptr` succeeds. -/
  | pipe (valid : Bool)
  | dup (fd : Option Int)
  | dup2 (fd fd2 : Option Int)
  | close (fd : Option Int)
  /-- Whether there is memory for the new process. -/
  | fork (memory : Bool)
  | exit
  /-- With the child found.  Whose child it is does not matter here. -/
  | wait (child : Fin nproc)
deriving DecidableEq, Repr

/-- The first step of a call. -/
def call (k : Kernel) (p : Fin nproc) : Call → Except Panic Kernel
  | .open none => .ok (k.ret p (-1))
  | .open (some ip) =>
    .ok ({ k with inodes := update k.inodes ip (k.inodes ip + 1) }.setPhase p (.openInode ip))
  | .pipe false => .ok (k.ret p (-1))
  | .pipe true =>
    match k.filealloc with
    | none => .ok (k.ret p (-1))
    | some (f0, k) => .ok (k.setPhase p (.pipeOne f0))
  | .dup fd => k.sysDup p fd
  | .dup2 fd fd2 => k.sysDup2 p fd fd2
  | .close fd => k.sysClose p fd
  | .fork memory =>
    match k.allocproc with
    | none => .ok (k.ret p (-1))
    | some child =>
      if memory then .ok ((k.spawn p child).setPhase p (.forking child 0))
      else .ok ({ k with nextpid := int (k.nextpid + 1) }.ret p (-1))
  | .exit => if p = 0 then .error .initExiting else .ok (k.setPhase p (.exiting 0))
  | .wait child =>
    if (k.procs child).phase = .zombie then .ok ((k.reap child).ret p (k.procs child).pid) else .ok k

/-- The next step of a call in progress; `page` is what `kalloc` returns if it is called. -/
def resume (k : Kernel) (p : Fin nproc) (page : Option Nat) : Except Panic Kernel :=
  match (k.procs p).phase with
  | .unused | .embryo _ | .zombie | .user _ => .ok k
  | .openInode ip =>
    match k.filealloc with
    | none => .ok (k.setPhase p (.openFailed ip))
    | some (f, k) => .ok (k.setPhase p (.openFile ip f))
  | .openFile ip f =>
    match fdalloc (k.procs p).ofile with
    | none => k.close p f (.openFailed ip)
    | some fd => .ok ((k.setSlot p fd (some f)).setPhase p (.openSlot ip f fd))
  | .openSlot ip f fd => .ok ((k.setType f (.inode ip)).ret p fd)
  | .openFailed ip => .ok ((k.release (.inode ip)).ret p (-1))
  | .pipeOne f0 =>
    match k.filealloc with
    | none => .ok (k.setPhase p (.pipeDrop f0))
    | some (f1, k) => .ok (k.setPhase p (.pipeTwo f0 f1))
  | .pipeTwo f0 f1 =>
    match page with
    | none => .ok (k.setPhase p (.pipeFailed f0 f1))
    | some page =>
      if (k.pipes page).isSome then .ok k
      else
        let k := { k with pipes := update k.pipes page (some ⟨true, true⟩) }
        .ok (((k.setType f0 (.pipe page false)).setType f1 (.pipe page true)).setPhase p (.pipeMade f0 f1))
  | .pipeMade f0 f1 =>
    match fdalloc (k.procs p).ofile with
    | none => .ok (k.setPhase p (.pipeFailed f0 f1))
    | some fd0 => .ok ((k.setSlot p fd0 (some f0)).setPhase p (.pipeSlot fd0 f0 f1))
  | .pipeSlot fd0 f0 f1 =>
    match fdalloc (k.procs p).ofile with
    | none => .ok ((k.setSlot p fd0 none).setPhase p (.pipeFailed f0 f1))
    | some fd1 => .ok ((k.setSlot p fd1 (some f1)).ret p 0)
  | .pipeFailed f0 f1 => k.close p f0 (.pipeDrop f1)
  | .pipeDrop f => k.close p f (.user (-1))
  | .dup2 _ fd2 f1 => k.dup2Slot p fd2 f1
  | .forking child i =>
    if h : i < nofile then
      match (k.procs p).ofile ⟨i, h⟩ with
      | none => .ok (k.setPhase p (.forking child (i + 1)))
      | some f => ((k.setPhase p (.forking child (i + 1))).setSlot child ⟨i, h⟩ (some f)).filedup f
    else .ok ((k.ret child 0).ret p (k.procs child).pid)
  | .exiting i =>
    if h : i < nofile then
      match (k.procs p).ofile ⟨i, h⟩ with
      | none => .ok (k.setPhase p (.exiting (i + 1)))
      | some f => k.close p f (.exitClose ⟨i, h⟩)
    else .ok (k.setPhase p .zombie)
  | .exitClose fd => .ok ((k.setSlot p fd none).setPhase p (.exiting (fd + 1)))

/-- What process `p` does next. -/
inductive Event where
  /-- In user mode it makes a call. -/
  | call (c : Call)
  /-- In a call it takes the next step. -/
  | go (page : Option Nat)
deriving DecidableEq, Repr

def step (k : Kernel) (p : Fin nproc) (event : Event) : Except Panic Kernel :=
  match (k.procs p).closing, event, (k.procs p).phase with
  | some r, .go _, _ => .ok ((k.release r).setClosing p none)
  | none, .go page, _ => k.resume p page
  | none, .call c, .user _ => k.call p c
  | _, _, _ => .ok k

/-- The steps of a schedule, each with the process that takes it. -/
def run (k : Kernel) (schedule : List (Fin nproc × Event)) : Except Panic Kernel :=
  schedule.foldlM (fun k (p, event) => k.step p event) k

/-- After `userinit`: the first process has no open files. -/
def boot : Kernel where
  files _ := ⟨0, none⟩
  procs p := ⟨if p = 0 then 1 else 0, if p = 0 then .user 0 else .unused, fun _ => none, none⟩
  inodes _ := 0
  pipes _ := none
  nextpid := 2

end Kernel

end Xv6Simplesh.Ftable
