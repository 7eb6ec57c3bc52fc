import Xv6Simplesh.Vm.Memory

/-! # Page tables

The functions of `vm.c` on page directories and page tables in physical memory, and
the page fault handler.  A page directory is named by its page; a pointer to an entry
is a page and an index.  Where a function of the source returns `-1` or a null pointer
and goes on, so does its translation, with the memory as it is then; only a panic
stops it.
-/

namespace Xv6Simplesh.Vm

open Library

/-! ## Entries -/

/-- The entry for `va`, and the memory afterwards. -/
def walkpgdir (m : Machine) (pgdir va : Nat) (alloc : Bool) : Option (Nat × Nat) × Machine :=
  let pde := (m.mem pgdir).word (pdx va)
  if present pde then (some (ptePage pde, ptx va), m)
  else if !alloc then (none, m)
  else
    match kalloc m with
    | none => (none, m)
    | some (pgtab, m) =>
      let m := m.setPage pgtab (Bytes.fill 0)
      (some (pgtab, ptx va), m.setWord pgdir (pdx va) (mkPte (pgtab * pgsize) (pteW ||| pteU)))

/-- The loop of `mappages` at `a`, with `rest` pages from there to `last`; false
stands for `-1`. -/
def mappagesLoop (m : Machine) (pgdir a pa perm : Nat) (rest : Nat) : Bool × Machine :=
  match walkpgdir m pgdir a true with
  | (none, m) => (false, m)
  | (some (pgtab, idx), m) =>
    if present ((m.mem pgtab).word idx) then (true, m)
    else
      let m := m.setWord pgtab idx (mkPte pa perm)
      match rest with
      | 0 => (true, m)
      | rest + 1 => mappagesLoop m pgdir ((a + pgsize) % 2 ^ 32) ((pa + pgsize) % 2 ^ 32) perm rest

/-- The number of pages from that of `a` to that of `last`, should `a` wrap around or not. -/
def pagesTo (a last : Nat) : Nat :=
  (if last / pgsize < a / pgsize then last / pgsize + 2 ^ 20 else last / pgsize) - a / pgsize

def mappages (m : Machine) (pgdir va size pa perm : Nat) : Bool × Machine :=
  mappagesLoop m pgdir (pgrounddown va) pa perm (pagesTo va ((va + size - 1) % 2 ^ 32))

/-! ## Giving pages back -/

/-- The loop of `deallocuvm`.  Without a page table it goes on at the next one; since
`oldsz` is at most `KERNBASE` there is one. -/
def deallocuvmLoop (k : Symbols) (m : Machine) (pgdir oldsz a : Nat) : Except Panic Machine :=
  if a < oldsz then
    match (walkpgdir m pgdir a false).1 with
    | none => deallocuvmLoop k m pgdir oldsz ((pdx a + 1) * 2 ^ 22)
    | some (pgtab, idx) =>
      let pte := (m.mem pgtab).word idx
      if present pte then
        if ptePage pte = 0 then .error .deallocuvm
        else
          match kfree k m (ptePage pte) with
          | .error panic => .error panic
          | .ok m => deallocuvmLoop k (m.setWord pgtab idx 0) pgdir oldsz (a + pgsize)
      else deallocuvmLoop k m pgdir oldsz (a + pgsize)
  else .ok m
termination_by oldsz - a
decreasing_by
  · dsimp only [pdx]
    omega
  · dsimp only [pgsize]
    omega
  · dsimp only [pgsize]
    omega

def deallocuvm (k : Symbols) (m : Machine) (pgdir oldsz newsz : Nat) : Except Panic (Nat × Machine) :=
  if newsz ≥ oldsz then .ok (oldsz, m)
  else do
    let m ← deallocuvmLoop k m pgdir oldsz (pgroundup newsz)
    .ok (newsz, m)

/-- The loop body of `freevm`. -/
def freeTable (k : Symbols) (pgdir : Nat) (m : Machine) (i : Nat) : Except Panic Machine :=
  let pde := (m.mem pgdir).word i
  if present pde then kfree k m (ptePage pde) else .ok m

def freevm (k : Symbols) (m : Machine) (pgdir : Option Nat) : Except Panic Machine :=
  match pgdir with
  | none => .error .freevm
  | some pgdir => do
    let (_, m) ← deallocuvm k m pgdir kernbase 0
    let m ← (List.range npdentries).foldlM (freeTable k pgdir) m
    kfree k m pgdir

/-! ## The kernel part -/

structure Kmap where
  virt : Nat
  physStart : Nat
  physEnd : Nat
  perm : Nat

def kmap (k : Symbols) : List Kmap :=
  [⟨kernbase, 0, extmem, pteW⟩, ⟨kernlink, extmem, k.data, 0⟩, ⟨kernbase + k.data, k.data, phystop, pteW⟩,
    ⟨devspace, devspace, 0, pteW⟩]

/-- The loop body of `setupkvm`; false once `mappages` has failed. -/
def kmapEntry (pgdir : Nat) (state : Bool × Machine) (e : Kmap) : Bool × Machine :=
  if state.1 then
    mappages state.2 pgdir e.virt ((e.physEnd + 2 ^ 32 - e.physStart) % 2 ^ 32) e.physStart e.perm
  else state

def kmapLoop (m : Machine) (pgdir : Nat) (entries : List Kmap) : Bool × Machine :=
  entries.foldl (kmapEntry pgdir) (true, m)

def setupkvm (k : Symbols) (m : Machine) : Except Panic (Option Nat × Machine) :=
  match kalloc m with
  | none => .ok (none, m)
  | some (pgdir, m) =>
    let m := m.setPage pgdir (Bytes.fill 0)
    if kernbase + phystop > devspace then .error .phystop
    else
      match kmapLoop m pgdir (kmap k) with
      | (true, m) => .ok (some pgdir, m)
      | (false, m) => do
        let m ← freevm k m (some pgdir)
        .ok (none, m)

/-! ## The user part -/

def inituvm (m : Machine) (pgdir : Nat) (init : Bytes) (sz : Nat) : Except Panic Machine :=
  if sz ≥ pgsize then .error .inituvm
  else
    match kalloc m with
    | none => .error .wildPointer
    | some (mem, m) =>
      let m := m.setPage mem (Bytes.fill 0)
      let (_, m) := mappages m pgdir 0 pgsize (mem * pgsize) (pteW ||| pteU)
      .ok (m.setPage mem ((m.mem mem).copy 0 init sz))

def allocuvmLoop (k : Symbols) (m : Machine) (pgdir oldsz newsz a : Nat) : Except Panic (Nat × Machine) :=
  if a < newsz then
    match kalloc m with
    | none => do
      let (_, m) ← deallocuvm k m pgdir newsz oldsz
      .ok (0, m)
    | some (mem, m) =>
      let m := m.setPage mem (Bytes.fill 0)
      match mappages m pgdir a pgsize (mem * pgsize) (pteW ||| pteU) with
      | (false, m) => do
        let (_, m) ← deallocuvm k m pgdir newsz oldsz
        let m ← kfree k m mem
        .ok (0, m)
      | (true, m) => allocuvmLoop k m pgdir oldsz newsz (a + pgsize)
  else .ok (newsz, m)
termination_by newsz - a
decreasing_by
  dsimp only [pgsize]
  omega

/-- The new size, 0 on failure. -/
def allocuvm (k : Symbols) (m : Machine) (pgdir oldsz newsz : Nat) : Except Panic (Nat × Machine) :=
  if newsz ≥ kernbase then .ok (0, m)
  else if newsz < oldsz then .ok (oldsz, m)
  else allocuvmLoop k m pgdir oldsz newsz (pgroundup oldsz)

/-- `*pte &= ~PTE_U`. -/
def clearpteu (m : Machine) (pgdir uva : Nat) : Except Panic Machine :=
  match (walkpgdir m pgdir uva false).1 with
  | none => .error .clearpteu
  | some (pgtab, idx) => .ok (m.setWord pgtab idx ((m.mem pgtab).word idx &&& (2 ^ 32 - 1 - pteU)))

def copyuvmLoop (k : Symbols) (m : Machine) (pgdir d sz i : Nat) : Except Panic (Option Nat × Machine) :=
  if i < sz then
    match (walkpgdir m pgdir i false).1 with
    | none => .error .copyuvm
    | some (pgtab, idx) =>
      let pte := (m.mem pgtab).word idx
      if !present pte then .ok (none, m)
      else
        match kalloc m with
        | none => do
          let m ← freevm k m (some d)
          .ok (none, m)
        | some (mem, m) =>
          let m := m.setPage mem (m.mem (ptePage pte))
          match mappages m d i pgsize (mem * pgsize) (pteFlags pte) with
          | (false, m) => do
            let m ← kfree k m mem
            let m ← freevm k m (some d)
            .ok (none, m)
          | (true, m) => copyuvmLoop k m pgdir d sz (i + pgsize)
  else .ok (some d, m)
termination_by sz - i
decreasing_by
  dsimp only [pgsize]
  omega

def copyuvm (k : Symbols) (m : Machine) (pgdir sz : Nat) : Except Panic (Option Nat × Machine) := do
  match ← setupkvm k m with
  | (none, m) => .ok (none, m)
  | (some d, m) => copyuvmLoop k m pgdir d sz 0

/-! ## Page faults -/

/-- The address space of a process. -/
structure Image where
  pgdir : Nat
  sz : Nat
deriving DecidableEq, Repr

/-- The case `T_PGFLT` of `trap` for an access at `cr2`, from user or kernel mode: whether
the process is marked as killed. -/
def pageFault (k : Symbols) (m : Machine) (p : Image) (userMode : Bool) (cr2 : Nat) : Except Panic (Bool × Machine) :=
  if !userMode ∧ cr2 ≥ p.sz then .error .pageFault
  else
    match kalloc m with
    | none => .ok (true, m)
    | some (mem, m) =>
      let m := m.setPage mem (Bytes.fill 0)
      match mappages m p.pgdir (pgrounddown cr2) pgsize (mem * pgsize) (pteW ||| pteU) with
      | (false, m) => do
        let m ← kfree k m mem
        .ok (true, m)
      | (true, m) => .ok (false, m)

/-- The page at `va`, if the processor lets an access go ahead: in user mode the entry
needs `PTE_U`, and for a store `PTE_W` in either mode, since `CR0_WP` is set. -/
def access (m : Machine) (pgdir : Nat) (userMode store : Bool) (va : Nat) : Option Nat :=
  match (walkpgdir m pgdir va false).1 with
  | none => none
  | some (pgtab, idx) =>
    let pte := (m.mem pgtab).word idx
    if present pte ∧ (userMode → user pte) ∧ (store → writable pte) then some (ptePage pte) else none

/-! ## Copies into an address space -/

/-- The kernel reads the word at address 0 of the running process `cur`.  If the page is
absent it faults first. -/
def nullWord (k : Symbols) (m : Machine) (cur : Image) : Except Panic (Nat × Machine) :=
  match access m cur.pgdir false false 0 with
  | some q => .ok ((m.mem q).word 0, m)
  | none => do
    let (_, m) ← pageFault k m cur false 0
    match access m cur.pgdir false false 0 with
    | some q => .ok ((m.mem q).word 0, m)
    | none => .error .faultLoop

/-- `*walkpgdir(pgdir, uva, 0)`: without a page table the pointer is null. -/
def derefPte (k : Symbols) (m : Machine) (cur : Image) (pgdir uva : Nat) : Except Panic (Nat × Machine) :=
  match (walkpgdir m pgdir uva false).1 with
  | none => nullWord k m cur
  | some (pgtab, idx) => .ok ((m.mem pgtab).word idx, m)

def uva2ka (k : Symbols) (m : Machine) (cur : Image) (pgdir uva : Nat) : Except Panic (Option Nat × Machine) := do
  let (pte, m) ← derefPte k m cur pgdir uva
  if !present pte then .ok (none, m)
  else if !user pte then .ok (none, m)
  else .ok (some (ptePage pte), m)

/-- The loop of `copyout` with `len` bytes left to copy. -/
def copyout (k : Symbols) (m : Machine) (cur : Image) (pgdir va : Nat) (p : Nat → UInt8) (len : Nat) :
    Except Panic (Bool × Machine) :=
  if len > 0 then
    let va0 := pgrounddown va
    match uva2ka k m cur pgdir va0 with
    | .error panic => .error panic
    | .ok (none, m) => .ok (false, m)
    | .ok (some pa0, m) =>
      let n := min (pgsize - (va - va0)) len
      if pa0 * pgsize ≥ phystop then .error .wildPointer
      else
        let m := m.setPage pa0 ((m.mem pa0).copy (va - va0) p n)
        copyout k m cur pgdir ((va0 + pgsize) % 2 ^ 32) (fun i => p (n + i)) (len - n)
  else .ok (true, m)
termination_by len
decreasing_by
  dsimp only [pgrounddown, pgsize]
  omega

/-- `readi` on an open file: the number of bytes read, or `-1`, and the bytes. -/
structure Reader where
  read : Nat → Nat → Int × Bytes
  count_le : ∀ off n, (read off n).1 ≤ n

/-- The loop of `loaduvm`; false stands for `-1`. -/
def loaduvmLoop (m : Machine) (pgdir addr : Nat) (ip : Reader) (offset sz i : Nat) : Except Panic (Bool × Machine) :=
  if i < sz then
    match (walkpgdir m pgdir ((addr + i) % 2 ^ 32) false).1 with
    | none => .error .loaduvm
    | some (pgtab, idx) =>
      let pa := ptePage ((m.mem pgtab).word idx)
      let n := min (sz - i) pgsize
      let (count, bytes) := ip.read ((offset + i) % 2 ^ 32) n
      let m := m.setPage pa ((m.mem pa).copy 0 bytes count.toNat)
      if count ≠ n then .ok (false, m)
      else loaduvmLoop m pgdir addr ip offset sz (i + pgsize)
  else .ok (true, m)
termination_by sz - i
decreasing_by
  dsimp only [pgsize]
  omega

def loaduvm (m : Machine) (pgdir addr : Nat) (ip : Reader) (offset sz : Nat) : Except Panic (Bool × Machine) :=
  if addr % pgsize ≠ 0 then .error .loaduvmAlign
  else loaduvmLoop m pgdir addr ip offset sz 0

end Xv6Simplesh.Vm
