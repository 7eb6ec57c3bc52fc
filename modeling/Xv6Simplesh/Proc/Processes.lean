import Xv6Simplesh.Library.Runs
import Xv6Simplesh.Proc.Exec
import Xv6Simplesh.Param

/-! # Processes and their memory

The process table with the calls that change the memory of processes: `fork`, `exec`,
`sbrk`, page faults, `exit` and `wait`.  Each call runs to completion; a panic stops the
machine.  Scheduling and sleeping in other calls change only the state of a slot.
-/

namespace Xv6Simplesh.Vm

open Library

theorem nproc_ne_zero : nproc ≠ 0 := by decide

instance : NeZero nproc := ⟨nproc_ne_zero⟩

/-! ## Arguments of system calls

The checks of `syscall.c` on the memory `bytes` of a process of size `sz`. -/

/-- The `int` at `addr`. -/
def loadInt (bytes : Nat → UInt8) (addr : Nat) : UInt32 :=
  UInt32.ofNat (Bytes.word (fun i => bytes (addr + i)) 0)

def fetchint (bytes : Nat → UInt8) (sz : Nat) (addr : UInt32) : Option UInt32 :=
  if addr.toNat ≥ sz ∨ (addr.toNat + 4) % 2 ^ 32 > sz then none else some (loadInt bytes addr.toNat)

/-- The loop of `fetchstr` at `s`, with `rest` bytes from there to the end of the process. -/
def findNul (bytes : Nat → UInt8) (s : Nat) : Nat → Option Nat
  | 0 => none
  | rest + 1 => if bytes s = 0 then some s else findNul bytes (s + 1) rest

/-- The address of the string and its length. -/
def fetchstr (bytes : Nat → UInt8) (sz : Nat) (addr : UInt32) : Option (Nat × Nat) :=
  if addr.toNat ≥ sz then none
  else (findNul bytes addr.toNat (sz - addr.toNat)).map fun s => (addr.toNat, s - addr.toNat)

def argint (bytes : Nat → UInt8) (sz : Nat) (esp : UInt32) (n : UInt32) : Option UInt32 :=
  fetchint bytes sz (esp + 4 + 4 * n)

def argptr (bytes : Nat → UInt8) (sz : Nat) (esp : UInt32) (n : UInt32) (size : Int32) : Option Nat :=
  match argint bytes sz esp n with
  | none => none
  | some i =>
    if size < 0 ∨ i.toNat ≥ sz ∨ (i.toNat + size.toInt.toNat) % 2 ^ 32 > sz then none else some i.toNat

def argstr (bytes : Nat → UInt8) (sz : Nat) (esp : UInt32) (n : UInt32) : Option (Nat × Nat) :=
  (argint bytes sz esp n).bind fun addr => fetchstr bytes sz addr

/-- The loop of `sys_exec` over `uargv`, from element `i` on with `rest` elements of `argv`
left: the strings. -/
def fetchArgs (bytes : Nat → UInt8) (sz : Nat) (uargv : UInt32) (i : Nat) : Nat → Option (List (List UInt8))
  | 0 => none
  | rest + 1 =>
    match fetchint bytes sz (uargv + 4 * UInt32.ofNat i) with
    | none => none
    | some uarg =>
      if uarg = 0 then some []
      else
        match fetchstr bytes sz uarg with
        | none => none
        | some (addr, length) =>
          (fetchArgs bytes sz uargv (i + 1) rest).map fun args =>
            (List.range length).map (fun j => bytes (addr + j)) :: args

/-- The byte that the kernel reads at `va`; an absent page is filled with zeros first. -/
def userByte (m : Machine) (p : Image) (va : Nat) : UInt8 :=
  match access m p.pgdir false false va with
  | some q => m.mem q (va % pgsize)
  | none => 0

/-! ## `sbrk` -/

/-- `growproc`: whether it succeeds, and the size and the memory afterwards. -/
def growproc (k : Symbols) (m : Machine) (p : Image) (n : Int) : Except Panic (Bool × Image × Machine) :=
  if n > 0 then do
    let (sz, m) ← allocuvm k m p.pgdir p.sz ((p.sz + n) % 2 ^ 32).toNat
    .ok (if sz = 0 then (false, p, m) else (true, { p with sz }, m))
  else if n < 0 then do
    let (sz, m) ← deallocuvm k m p.pgdir p.sz ((p.sz + n) % 2 ^ 32).toNat
    .ok (if sz = 0 then (false, p, m) else (true, { p with sz }, m))
  else .ok (true, p, m)

/-- `sys_sbrk`: growing only moves the size. -/
def sysSbrk (k : Symbols) (m : Machine) (p : Image) (n : Int32) : Except Panic (Int × Image × Machine) :=
  if n < 0 then do
    let (grown, p', m) ← growproc k m p n.toInt
    .ok (if grown then p.sz else -1, p', m)
  else if (p.sz + n.toInt.toNat) % 2 ^ 32 ≥ kernbase then .ok (-1, p, m)
  else .ok (p.sz, { p with sz := p.sz + n.toInt.toNat }, m)

/-! ## The process table -/

inductive ProcState where
  | unused
  | embryo
  | sleeping
  | runnable
  | running
  | zombie
deriving DecidableEq, Repr

/-- The fields of `struct proc` that these calls use; processes are named by their slots. -/
structure Proc where
  state : ProcState
  pid : Int
  parent : Option Nat
  sz : Nat
  pgdir : Option Nat
  kstack : Option Nat
  /-- The process whose slot is slept on in `wait`. -/
  chan : Option Nat
  killed : Bool
deriving DecidableEq, Repr

def Proc.empty : Proc := ⟨.unused, 0, none, 0, none, none, none, false⟩

structure World where
  machine : Machine
  procs : Nat → Proc
  nextpid : Int
  initproc : Nat

namespace World

def setProc (w : World) (i : Nat) (p : Proc) : World := { w with procs := Function.update w.procs i p }

/-- The address space of a slot, if it has a page directory. -/
def image (w : World) (i : Nat) : Option Image := (w.procs i).pgdir.map fun pgdir => ⟨pgdir, (w.procs i).sz⟩

end World

/-- `allocproc`: the slot, with a kernel stack. -/
def allocproc (w : World) : Option Nat × World :=
  match (List.range nproc).find? fun i => (w.procs i).state = .unused with
  | none => (none, w)
  | some i =>
    let w := { w.setProc i { w.procs i with state := .embryo, pid := w.nextpid } with nextpid := int (w.nextpid + 1) }
    match kalloc w.machine with
    | none => (none, w.setProc i { w.procs i with state := .unused, kstack := none })
    | some (kstack, m) => (some i, { w.setProc i { w.procs i with kstack := some kstack } with machine := m })

/-- `fork` by slot `i`: the pid of the child, or `-1`. -/
def fork (k : Symbols) (w : World) (i : Nat) (cur : Image) : Except Panic (Int × World) :=
  match allocproc w with
  | (none, w) => .ok (-1, w)
  | (some np, w) => do
    match ← copyuvm k w.machine cur.pgdir cur.sz with
    | (none, m) =>
      let m ← match (w.procs np).kstack with
        | none => .error .kfree
        | some kstack => kfree k m kstack
      .ok (-1, { w.setProc np { w.procs np with pgdir := none, kstack := none, state := .unused } with machine := m })
    | (some d, m) =>
      .ok ((w.procs np).pid, { w.setProc np { w.procs np with
        pgdir := some d, sz := cur.sz, parent := some i, state := .runnable } with machine := m })

/-- `wakeup1` on the address of slot `i`. -/
def wakeup1 (w : World) (i : Nat) : World :=
  { w with procs := fun j =>
      let p := w.procs j
      if j < nproc ∧ p.state = .sleeping ∧ p.chan = some i then { p with state := .runnable } else p }

/-- Pass the children of slot `i` to init. -/
def abandonChildren (w : World) (i : Nat) : World :=
  { w with procs := fun j =>
      let p := w.procs j
      if j < nproc ∧ p.parent = some i then { p with parent := some w.initproc } else p }

/-- The memory side of `exit`. -/
def exit (w : World) (i : Nat) : Except Panic World :=
  if i = w.initproc then .error .initExiting
  else
    let w := match (w.procs i).parent with
      | none => w
      | some parent => wakeup1 w parent
    let orphans := (List.range nproc).any fun j => (w.procs j).parent = some i ∧ (w.procs j).state = .zombie
    let w := abandonChildren w i
    let w := if orphans then wakeup1 w w.initproc else w
    .ok (w.setProc i { w.procs i with state := .zombie })

/-- One pass of the loop of `wait` by slot `i`: the pid of a dead child, `-1`, or none if
the process goes to sleep. -/
def wait (k : Symbols) (w : World) (i : Nat) : Except Panic (Option Int × World) :=
  match (List.range nproc).find? fun j => (w.procs j).parent = some i ∧ (w.procs j).state = .zombie with
  | some j => do
    let m ← match (w.procs j).kstack with
      | none => .error .kfree
      | some kstack => kfree k w.machine kstack
    let m ← freevm k m (w.procs j).pgdir
    .ok (some (w.procs j).pid, { w.setProc j { w.procs j with
      kstack := none, pid := 0, parent := none, killed := false, state := .unused } with machine := m })
  | none =>
    let havekids := (List.range nproc).any fun j => (w.procs j).parent = some i
    if !havekids ∨ (w.procs i).killed then .ok (some (-1), w)
    else .ok (none, w.setProc i { w.procs i with state := .sleeping, chan := some i })

/-- The page fault handler for slot `i`, and the exit of a killed process on the way back to
user mode. -/
def trapPageFault (k : Symbols) (w : World) (i : Nat) (cur : Image) (userMode : Bool) (cr2 : Nat) :
    Except Panic World := do
  let (killed, m) ← pageFault k w.machine cur userMode cr2
  let w := { w.setProc i { w.procs i with killed := (w.procs i).killed || killed } with machine := m }
  if (w.procs i).killed ∧ userMode then exit w i else .ok w

/-! ## Runs -/

inductive Call where
  | fork
  /-- `exec` of a file, with the address of the argument vector. -/
  | exec (file : Option Reader) (uargv : UInt32)
  | sbrk (n : Int32)
  | pageFault (userMode : Bool) (cr2 : UInt32)
  | exit
  | wait
  /-- The process stores a byte in its memory. -/
  | store (va : UInt32) (byte : UInt8)

inductive Event where
  | call (i : Nat) (call : Call)
  /-- The scheduler, `yield`, `sleep` and `wakeup` of other calls. -/
  | switch (i : Nat) (state : ProcState)

/-- A call by the running process in slot `i`.  Where the kernel faults on an argument of
`exec`, that is a page fault before the call. -/
def perform (k : Symbols) (w : World) (i : Nat) (cur : Image) : Call → Except Panic World
  | .fork => do
    let (_, w) ← fork k w i cur
    .ok w
  | .exec file uargv =>
    match fetchArgs (userByte w.machine cur) cur.sz uargv 0 maxArg with
    | none => .ok w
    | some argv => do
      let (loaded, m) ← exec k w.machine cur file argv
      match loaded with
      | none => .ok { w with machine := m }
      | some loaded =>
        .ok { w.setProc i { w.procs i with pgdir := some loaded.image.pgdir, sz := loaded.image.sz } with machine := m }
  | .sbrk n => do
    let (_, p, m) ← sysSbrk k w.machine cur n
    .ok { w.setProc i { w.procs i with sz := p.sz } with machine := m }
  | .pageFault userMode cr2 => trapPageFault k w i cur userMode cr2.toNat
  | .exit => exit w i
  | .wait => do
    let (_, w) ← wait k w i
    .ok w
  | .store va byte =>
    match access w.machine cur.pgdir true true va.toNat with
    | none => .ok w
    | some q =>
      .ok { w with machine := w.machine.setPage q (Function.update (w.machine.mem q) (va.toNat % pgsize) byte) }

/-- The changes of state that the scheduler and other calls make. -/
def Switches : ProcState → ProcState → Bool
  | .runnable, .running => true
  | .running, .runnable => true
  | .running, .sleeping => true
  | .sleeping, .runnable => true
  | _, _ => false

/-- `userinit` after the rest of `main`. -/
def userinit (k : Symbols) (m : Machine) (init : Bytes) (size : Nat) : Except Panic World :=
  match allocproc ⟨m, fun _ => .empty, 1, 0⟩ with
  | (none, _) => .error .userinit
  | (some p, w) => do
    match ← setupkvm k w.machine with
    | (none, _) => .error .userinit
    | (some pgdir, m) =>
      let m ← inituvm m pgdir init size
      .ok { w.setProc p { w.procs p with pgdir := some pgdir, sz := pgsize, state := .runnable } with
        machine := m, initproc := p }

/-- `main`: the memory allocator, the scheduler's page directory and the first process. -/
def boot (k : Symbols) (init : Bytes) (size : Nat) : Except Panic World := do
  let m ← freerange k ⟨fun _ => Bytes.fill 0, []⟩ k.kend (4 * 1024 * 1024)
  match ← setupkvm k m with
  | (none, _) => .error .userinit
  | (some _, m) =>
    let m ← freerange k m (4 * 1024 * 1024) phystop
    userinit k m init size

/-- The machine: a call is made by a running process with an address space. -/
def processes (k : Symbols) : System World Event where
  initial w := ∃ init size, boot k init size = .ok w
  step w
    | .call i call =>
      if i < nproc ∧ (w.procs i).state = .running then
        match w.image i with
        | none => none
        | some cur => (perform k w i cur call).toOption
      else none
    | .switch i state =>
      if i < nproc ∧ Switches (w.procs i).state state then
        some (w.setProc i { w.procs i with state := state, chan := none })
      else none

end Xv6Simplesh.Vm
