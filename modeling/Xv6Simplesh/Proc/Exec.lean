import Xv6Simplesh.Vm.PageTables

/-! # `exec`

`exec` builds a new address space: the program's segments from address 0 on, a page
without `PTE_U`, and a page of stack with the arguments.  Every failure gives the new
address space back and leaves the process as it was.
-/

namespace Xv6Simplesh.Vm

open Library

abbrev maxArg : Nat := 32
abbrev elfMagic : Nat := 0x464C457F
abbrev elfProgLoad : Nat := 1

/-- `sizeof(struct elfhdr)`. -/
abbrev elfhdrSize : Nat := 52

/-- `sizeof(struct proghdr)`. -/
abbrev proghdrSize : Nat := 32

/-! ## Segments -/

/-- The fields of `struct proghdr` that `exec` reads. -/
structure Proghdr where
  type : Nat
  off : Nat
  vaddr : Nat
  filesz : Nat
  memsz : Nat

def Proghdr.ofBytes (bytes : Bytes) : Proghdr :=
  ⟨bytes.word 0, bytes.word 1, bytes.word 2, bytes.word 4, bytes.word 5⟩

/-- A segment of type `ELF_PROG_LOAD`: the new size, none if `exec` gives up. -/
def loadSegment (k : Symbols) (m : Machine) (pgdir : Nat) (ip : Reader) (ph : Proghdr) (sz : Nat) :
    Except Panic (Option Nat × Machine) :=
  if ph.memsz < ph.filesz then .ok (none, m)
  else if (ph.vaddr + ph.memsz) % 2 ^ 32 < ph.vaddr then .ok (none, m)
  else
    match allocuvm k m pgdir sz ((ph.vaddr + ph.memsz) % 2 ^ 32) with
    | .error panic => .error panic
    | .ok (sz, m) =>
      if sz = 0 then .ok (none, m)
      else if ph.vaddr % pgsize ≠ 0 then .ok (none, m)
      else
        match loaduvm m pgdir ph.vaddr ip ph.off ph.filesz with
        | .error panic => .error panic
        | .ok (loaded, m) => .ok (if loaded then some sz else none, m)

/-- Iteration `i` of the loop over the program headers. -/
def loadHeader (k : Symbols) (pgdir : Nat) (ip : Reader) (phoff : Nat) (state : Option Nat × Machine) (i : Nat) :
    Except Panic (Option Nat × Machine) :=
  match state.1 with
  | none => .ok state
  | some sz =>
    let header := ip.read ((phoff + i * proghdrSize) % 2 ^ 32) proghdrSize
    if header.1 ≠ proghdrSize then .ok (none, state.2)
    else if (Proghdr.ofBytes header.2).type ≠ elfProgLoad then .ok state
    else loadSegment k state.2 pgdir ip (Proghdr.ofBytes header.2) sz

/-! ## Arguments -/

/-- The loop over the arguments: the stack pointer and the addresses of the strings. -/
structure ArgStack where
  sp : Nat
  ustack : List Nat

/-- `sp = (sp - (strlen(arg) + 1)) & ~3`. -/
def pushString (sp length : Nat) : Nat := (sp + 2 ^ 32 - (length + 1) % 2 ^ 32) % 2 ^ 32 / 4 * 4

/-- A NUL-terminated string in memory. -/
def stringBytes (string : List UInt8) : Bytes := fun i => string.getD i 0

def pushArg (k : Symbols) (cur : Image) (pgdir : Nat) (state : Option ArgStack × Machine) (arg : List UInt8) :
    Except Panic (Option ArgStack × Machine) :=
  match state.1 with
  | none => .ok state
  | some stack =>
    if stack.ustack.length ≥ maxArg then .ok (none, state.2)
    else
      let sp := pushString stack.sp arg.length
      match copyout k state.2 cur pgdir sp (stringBytes arg) (arg.length + 1) with
      | .error panic => .error panic
      | .ok (copied, m) => .ok (if copied then some ⟨sp, stack.ustack ++ [sp]⟩ else none, m)

/-- The words of `ustack`: a fake return address, `argc`, `argv`, and the array. -/
def ustackWords (stack : ArgStack) : List Nat :=
  let argc := stack.ustack.length
  [0xffffffff, argc, (stack.sp + 2 ^ 32 - (argc + 1) * 4) % 2 ^ 32] ++ stack.ustack ++ [0]

/-- The arguments and `ustack` on the new stack: the final stack pointer. -/
def pushArgs (k : Symbols) (m : Machine) (cur : Image) (pgdir sz : Nat) (argv : List (List UInt8)) :
    Except Panic (Option Nat × Machine) := do
  let (stack, m) ← argv.foldlM (pushArg k cur pgdir) (some ⟨sz, []⟩, m)
  match stack with
  | none => .ok (none, m)
  | some stack =>
    let words := ustackWords stack
    let sp := (stack.sp + 2 ^ 32 - words.length * 4) % 2 ^ 32
    let (copied, m) ← copyout k m cur pgdir sp (Bytes.ofWords fun i => words.getD i 0) (words.length * 4)
    .ok (if copied then some sp else none, m)

/-! ## `exec` -/

/-- What a successful `exec` puts into the process. -/
structure Loaded where
  image : Image
  eip : Nat
  esp : Nat

/-- From the end of the segments at `sz` to the arguments: the size and the stack pointer. -/
def buildStack (k : Symbols) (m : Machine) (cur : Image) (pgdir sz : Nat) (argv : List (List UInt8)) :
    Except Panic (Option (Nat × Nat) × Machine) :=
  match allocuvm k m pgdir (pgroundup sz) (pgroundup sz + 2 * pgsize) with
  | .error panic => .error panic
  | .ok (sz, m) =>
    if sz = 0 then .ok (none, m)
    else
      match clearpteu m pgdir (sz - 2 * pgsize) with
      | .error panic => .error panic
      | .ok m =>
        match pushArgs k m cur pgdir sz argv with
        | .error panic => .error panic
        | .ok (sp, m) => .ok (sp.map fun sp => (sz, sp), m)

/-- The new address space `pgdir`, filled: its size and the stack pointer. -/
def loadProgram (k : Symbols) (m : Machine) (cur : Image) (pgdir : Nat) (ip : Reader) (elf : Bytes)
    (argv : List (List UInt8)) : Except Panic (Option (Nat × Nat) × Machine) := do
  let (sz, m) ← (List.range (elf.word 11 % 2 ^ 16)).foldlM (loadHeader k pgdir ip (elf.word 7)) (some 0, m)
  match sz with
  | none => .ok (none, m)
  | some sz => buildStack k m cur pgdir sz argv

/-- `exec` by a process with address space `cur` on the file `ip` that `namei` found: none
stands for `-1`. -/
def exec (k : Symbols) (m : Machine) (cur : Image) (ip : Option Reader) (argv : List (List UInt8)) :
    Except Panic (Option Loaded × Machine) :=
  match ip with
  | none => .ok (none, m)
  | some ip =>
    let header := ip.read 0 elfhdrSize
    if header.1 ≠ elfhdrSize then .ok (none, m)
    else if header.2.word 0 ≠ elfMagic then .ok (none, m)
    else do
      match ← setupkvm k m with
      | (none, m) => .ok (none, m)
      | (some pgdir, m) =>
        match ← loadProgram k m cur pgdir ip header.2 argv with
        | (some (sz, sp), m) =>
          let m ← freevm k m (some cur.pgdir)
          .ok (some ⟨⟨pgdir, sz⟩, header.2.word 6, sp⟩, m)
        | (none, m) =>
          let m ← freevm k m (some pgdir)
          .ok (none, m)

end Xv6Simplesh.Vm
