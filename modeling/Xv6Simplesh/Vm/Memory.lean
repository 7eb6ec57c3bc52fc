import Xv6Simplesh.Library.Bytes

/-! # Physical memory, its allocator and page table entries

A page of memory that the kernel can address is named by its physical page number,
so that `V2P` and `P2V` between pages of the kernel map are the identity.  The free
list is the list of its pages.  Sizes and virtual addresses are numbers below `2 ^ 32`.
-/

namespace Xv6Simplesh.Vm

open Library Function

/-! ## Memory layout -/

abbrev pgsize : Nat := 4096
abbrev npdentries : Nat := 1024
abbrev nptentries : Nat := 1024
abbrev extmem : Nat := 0x100000
abbrev phystop : Nat := 0xE000000
abbrev devspace : Nat := 0xFE000000
abbrev kernbase : Nat := 0x80000000
abbrev kernlink : Nat := kernbase + extmem

/-- The symbols of the linker script, as physical addresses: the text ends at `data`, a
page boundary, and the kernel ends at `kend` in the memory that `entrypgdir` maps. -/
structure Symbols where
  data : Nat
  kend : Nat
  data_aligned : data % pgsize = 0
  text : extmem < data
  data_le : data ≤ kend
  kend_le : kend ≤ 4 * 1024 * 1024

inductive Panic where
  | kfree
  | deallocuvm
  | freevm
  | phystop
  | inituvm
  | loaduvmAlign
  | loaduvm
  | clearpteu
  | copyuvm
  | pageFault
  /-- The kernel faults on an address again and again. -/
  | faultLoop
  /-- The kernel writes through a pointer to no page of the memory. -/
  | wildPointer
  | userinit
  | initExiting
deriving DecidableEq, Repr

/-! ## The allocator -/

structure Machine where
  mem : Nat → Bytes
  freelist : List Nat

variable {other q : Nat}

namespace Machine

def setPage (m : Machine) (q : Nat) (bytes : Bytes) : Machine := { m with mem := update m.mem q bytes }

def setWord (m : Machine) (q idx val : Nat) : Machine := m.setPage q ((m.mem q).setWord idx val)

@[simp] theorem freelist_setPage (m : Machine) (q : Nat) (bytes : Bytes) : (m.setPage q bytes).freelist = m.freelist :=
  rfl

@[simp] theorem freelist_setWord (m : Machine) (q idx val : Nat) : (m.setWord q idx val).freelist = m.freelist := rfl

@[simp] theorem mem_setPage_self (m : Machine) (q : Nat) (bytes : Bytes) : (m.setPage q bytes).mem q = bytes :=
  update_self ..

theorem mem_setPage_of_ne (m : Machine) (bytes : Bytes) (ne : other ≠ q) :
    (m.setPage q bytes).mem other = m.mem other := update_of_ne ne ..

theorem mem_setWord_of_ne (m : Machine) (idx val : Nat) (ne : other ≠ q) :
    (m.setWord q idx val).mem other = m.mem other := m.mem_setPage_of_ne _ ne

theorem mem_setWord_self (m : Machine) (q idx val : Nat) :
    (m.setWord q idx val).mem q = (m.mem q).setWord idx val := m.mem_setPage_self ..

end Machine

def kalloc (m : Machine) : Option (Nat × Machine) :=
  match m.freelist with
  | [] => none
  | q :: rest => some (q, { m with freelist := rest })

/-- What `kfree` accepts. -/
def Symbols.Allocatable (k : Symbols) (q : Nat) : Prop := k.kend ≤ q * pgsize ∧ q * pgsize < phystop

instance (k : Symbols) (q : Nat) : Decidable (k.Allocatable q) := inferInstanceAs (Decidable (_ ∧ _))

/-- A page on the free list: junk, and the address of the next page in the first word. -/
def freePage (next : List Nat) : Bytes :=
  (Bytes.fill 1).setWord 0 ((next.head?.map fun q => kernbase + q * pgsize).getD 0)

/-- Put a page on the free list. -/
def Machine.push (m : Machine) (q : Nat) : Machine :=
  { m.setPage q (freePage m.freelist) with freelist := q :: m.freelist }

def kfree (k : Symbols) (m : Machine) (q : Nat) : Except Panic Machine :=
  if k.Allocatable q then .ok (m.push q) else .error .kfree

/-- `freerange` on physical addresses. -/
def freerange (k : Symbols) (m : Machine) (vstart vend : Nat) : Except Panic Machine :=
  let first := (vstart + pgsize - 1) / pgsize
  (List.range' first (vend / pgsize - first)).foldlM (kfree k) m

theorem kalloc_of_nil {m : Machine} (empty : m.freelist = []) : kalloc m = none := by
  rw [kalloc, empty]

theorem kalloc_of_cons {m : Machine} {rest : List Nat} (free : m.freelist = q :: rest) :
    kalloc m = some (q, { m with freelist := rest }) := by
  rw [kalloc, free]

@[simp] theorem Machine.freelist_push (m : Machine) (q : Nat) : (m.push q).freelist = q :: m.freelist := rfl

theorem Machine.mem_push_of_ne (m : Machine) (ne : other ≠ q) :
    (m.push q).mem other = m.mem other := m.mem_setPage_of_ne _ ne

theorem Symbols.Allocatable.lt {k : Symbols} (allocatable : k.Allocatable q) : q < 2 ^ 20 := by
  have bound := allocatable.2
  dsimp only [pgsize, phystop] at bound
  omega

theorem Symbols.Allocatable.pos {k : Symbols} (allocatable : k.Allocatable q) : 0 < q := by
  have text := k.text
  have data := k.data_le
  have bound := allocatable.1
  dsimp only [pgsize, extmem] at *
  omega

/-! ## Page table entries -/

abbrev pteP : Nat := 0x001
abbrev pteW : Nat := 0x002
abbrev pteU : Nat := 0x004

/-- `pte & PTE_P`. -/
def present (pte : Nat) : Bool := pte.testBit 0

/-- `pte & PTE_W`. -/
def writable (pte : Nat) : Bool := pte.testBit 1

/-- `pte & PTE_U`. -/
def user (pte : Nat) : Bool := pte.testBit 2

/-- The page that `PTE_ADDR` gives the address of. -/
def ptePage (pte : Nat) : Nat := pte / pgsize

/-- `PTE_FLAGS`. -/
def pteFlags (pte : Nat) : Nat := pte % pgsize

/-- `PDX`; a 32-bit address has no bits beyond the index. -/
def pdx (va : Nat) : Nat := va / 2 ^ 22

def ptx (va : Nat) : Nat := va / 2 ^ 12 % nptentries

def pgrounddown (a : Nat) : Nat := a / pgsize * pgsize

def pgroundup (sz : Nat) : Nat := (sz + pgsize - 1) % 2 ^ 32 / pgsize * pgsize

/-- `pa | perm | PTE_P`. -/
def mkPte (pa perm : Nat) : Nat := pa ||| perm ||| pteP

section Entries

variable {q perm : Nat}

theorem mkPte_eq (flags : perm < pgsize) : mkPte (q * pgsize) perm = q * pgsize + (perm ||| pteP) := by
  have small : perm ||| pteP < 2 ^ 12 := Nat.or_lt_two_pow flags (by decide)
  have shifted : q * pgsize = q <<< 12 := by rw [Nat.shiftLeft_eq]
  rw [mkPte, Nat.or_assoc, shifted, Nat.shiftLeft_add_eq_or_of_lt small]

theorem ptePage_mkPte (flags : perm < pgsize) : ptePage (mkPte (q * pgsize) perm) = q := by
  have small : perm ||| pteP < 2 ^ 12 := Nat.or_lt_two_pow flags (by decide)
  rw [ptePage, mkPte_eq flags]
  dsimp only [pgsize]
  omega

theorem pteFlags_mkPte (flags : perm < pgsize) : pteFlags (mkPte (q * pgsize) perm) = perm ||| pteP := by
  have small : perm ||| pteP < 2 ^ 12 := Nat.or_lt_two_pow flags (by decide)
  rw [pteFlags, mkPte_eq flags]
  dsimp only [pgsize]
  omega

theorem mkPte_lt (flags : perm < pgsize) (page : q < 2 ^ 20) : mkPte (q * pgsize) perm < 2 ^ 32 := by
  have small : perm ||| pteP < 2 ^ 12 := Nat.or_lt_two_pow flags (by decide)
  rw [mkPte_eq flags]
  dsimp only [pgsize]
  omega

theorem testBit_pteFlags (pte : Nat) {i : Nat} (low : i < 12) : (pteFlags pte).testBit i = pte.testBit i := by
  rw [pteFlags, show pgsize = 2 ^ 12 from rfl, Nat.testBit_mod_two_pow]
  simp [low]

theorem present_mkPte (flags : perm < pgsize) : present (mkPte (q * pgsize) perm) = true := by
  rw [present, ← testBit_pteFlags _ (by decide), pteFlags_mkPte flags, Nat.testBit_or]
  simp

theorem user_mkPte (flags : perm < pgsize) : user (mkPte (q * pgsize) perm) = perm.testBit 2 := by
  rw [user, ← testBit_pteFlags _ (by decide), pteFlags_mkPte flags, Nat.testBit_or]
  simp [show Nat.testBit 1 2 = false by decide]

theorem writable_mkPte (flags : perm < pgsize) : writable (mkPte (q * pgsize) perm) = perm.testBit 1 := by
  rw [writable, ← testBit_pteFlags _ (by decide), pteFlags_mkPte flags, Nat.testBit_or]
  simp [show Nat.testBit 1 1 = false by decide]

end Entries

end Xv6Simplesh.Vm
